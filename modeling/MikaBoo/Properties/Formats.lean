import MikaBoo.Properties.Printing

/-!
# The meaning of formats

A string is a sequence of letters and an end, a format is one of directives. `tprintf`
prints what the directives stand for, in their order, and returns the length of that.
-/

namespace MikaBoo

open Output Numeral

/-! ## Escapes -/

section

variable {x : Print Int} {e : Byte}

theorem escape_writes {n : Int} {t : List Byte} (known : backchar (e &&& 0x7f) ≠ 0)
    (h : x.Writes n t) :
    (do if (← putBackslash e) ≠ 0 then return (← x) + 1 else return 0 : Print Int).Writes (1 + n)
      (backchar (e &&& 0x7f) :: t) := by
  have hescape := putBackslash_counts e
  rw [if_neg known] at hescape
  rw [Int.add_comm]
  exact Writes.bind (f := fun n => if n ≠ 0 then do return (← x) + 1 else return 0) hescape
    (h.map (g := (· + 1)))

theorem escape_counts {t : List Byte} (known : backchar (e &&& 0x7f) ≠ 0) (h : x.Counts t) :
    (do if (← putBackslash e) ≠ 0 then return (← x) + 1 else return 0 : Print Int).Counts
      (backchar (e &&& 0x7f) :: t) := by
  rw [Output.Counts, List.length_cons, Int.natCast_add, Int.add_comm]
  exact escape_writes known h

theorem escape_ends (unknown : backchar (e &&& 0x7f) = 0) :
    (do if (← putBackslash e) ≠ 0 then return (← x) + 1 else return 0 : Print Int).Counts [] := by
  have hescape := putBackslash_counts e
  rw [if_pos unknown] at hescape
  exact Writes.bind (f := fun n => if n ≠ 0 then do return (← x) + 1 else return 0) hescape
    Writes.pure

end

/-! ## Strings -/

/-- A character of a string, as it is written there. -/
inductive Letter
  | plain (c : Byte) (printable : c ≠ 0 ∧ c ≠ chr '\\')
  | escape (e : Byte) (known : backchar (e &&& 0x7f) ≠ 0)

namespace Letter

def written : Letter → List Byte
  | .plain c _ => [c]
  | .escape e _ => [chr '\\', e]

/-- The character that is printed. -/
def char : Letter → Byte
  | .plain c _ => c
  | .escape e _ => backchar (e &&& 0x7f)

end Letter

/-- A string ends at its terminator or at an unknown escape. -/
inductive StringEnds : List Byte → Prop
  | terminator {s} (h : deref s = 0) : StringEnds s
  | escape {s} (unknown : backchar (deref s &&& 0x7f) = 0) : StringEnds (chr '\\' :: s)

theorem vrpString_ends {s : List Byte} (h : StringEnds s) : (vrpString s).Counts [] := by
  cases h with
  | terminator h =>
      cases s with
      | nil =>
          rw [vrpString]
          exact Counts.zero
      | cons c s =>
          have hzero : c = 0 := h
          rw [vrpString, if_pos hzero]
          exact Counts.zero
  | escape unknown =>
      rw [vrpString, if_neg (by decide), if_pos rfl]
      exact escape_ends unknown

/-- `vrp_string` prints the letters of a string. -/
theorem vrpString_letters (ls : List Letter) {rest : List Byte} (h : StringEnds rest) :
    (vrpString (ls.flatMap Letter.written ++ rest)).Counts (ls.map Letter.char) := by
  induction ls with
  | nil => exact vrpString_ends h
  | cons l ls ih =>
      cases l with
      | plain c printable =>
          rw [List.flatMap_cons, Letter.written, List.append_assoc, List.singleton_append,
            vrpString, if_neg printable.1, if_neg printable.2]
          exact (putcx_byte printable.1).add ih
      | escape e known =>
          rw [List.flatMap_cons, Letter.written, List.append_assoc, List.cons_append,
            List.singleton_append, vrpString, if_neg (by decide), if_pos rfl]
          exact escape_counts known ih

/-- Every string is a sequence of letters and an end. -/
theorem exists_letters (s : List Byte) : ∃ (ls : List Letter) (rest : List Byte),
    s = ls.flatMap Letter.written ++ rest ∧ StringEnds rest := by
  induction s using vrpString.induct with
  | case1 => exact ⟨[], [], rfl, .terminator rfl⟩
  | case2 s => exact ⟨[], 0 :: s, rfl, .terminator rfl⟩
  | case3 s _ ih =>
      by_cases unknown : backchar (deref s &&& 0x7f) = 0
      · exact ⟨[], _, rfl, .escape unknown⟩
      · obtain ⟨ls, rest, hs, hrest⟩ := ih
        cases s with
        | nil => exact absurd rfl unknown
        | cons e s =>
            exact ⟨.escape e unknown :: ls, rest, congrArg (chr '\\' :: e :: ·) hs, hrest⟩
  | case4 c s hzero hbackslash ih =>
      obtain ⟨ls, rest, hs, hrest⟩ := ih
      exact ⟨.plain c ⟨hzero, hbackslash⟩ :: ls, rest, congrArg (c :: ·) hs, hrest⟩

/-! ## Directives -/

/-- A directive of a format, with the argument that it takes. -/
inductive Directive
  | plain (c : Byte) (printable : c ≠ 0 ∧ c ≠ chr '%' ∧ c ≠ chr '\\')
  | escape (e : Byte) (known : backchar (e &&& 0x7f) ≠ 0)
  | percent
  | int (v : Word)
  | string (s : List Byte)
  | pointer (p : Word)

namespace Directive

def written : Directive → List Byte
  | .plain c _ => [c]
  | .escape e _ => [chr '\\', e]
  | .percent => [chr '%', chr '%']
  | .int _ => [chr '%', chr 'd']
  | .string _ => [chr '%', chr 's']
  | .pointer _ => [chr '%', chr 'p']

/-- The arguments that the directive takes. -/
def args : Directive → List Arg
  | .plain _ _ | .escape _ _ | .percent => []
  | .int v => [.int v]
  | .string s => [.string s]
  | .pointer p => [.pointer p]

/-- The directive stands for a text. -/
inductive Shows : Directive → List Byte → Prop
  | plain {c printable} : Shows (.plain c printable) [c]
  | escape {e known} : Shows (.escape e known) [backchar (e &&& 0x7f)]
  | percent : Shows .percent [chr '%']
  | int {v t} (ne : v ≠ BitVec.intMin 32) (canonical : Canonical v.toInt t) : Shows (.int v) t
  | least {v} (h : v = BitVec.intMin 32) : Shows (.int v) leastPrinted
  | string {s rest} {ls : List Letter} (hs : s = ls.flatMap Letter.written ++ rest)
      (h : StringEnds rest) : Shows (.string s) (ls.map Letter.char)
  | null {p} (h : p = 0) : Shows (.pointer p) (str ['(', 'n', 'u', 'l', 'l', ')'])
  | pointer {p digits} (ne : p ≠ 0) (length : digits.length = 8) (hex : ∀ c ∈ digits, c ∈ hexDigits)
      (value : read 16 (digitValue 16) digits = some p.toNat) :
      Shows (.pointer p) (str ['0', 'x'] ++ digits)

end Directive

/-! ## The meaning of a directive -/

/-- A character is the digit that it is read as, if all characters are. -/
theorem digit_of_digitValue {b : Nat} {enc : Nat → Byte}
    (hall : ∀ c, (digitValue b c).all fun d => decide (c = enc d ∧ d < b)) (c : Byte) (d : Nat)
    (h : digitValue b c = some d) : c = enc d ∧ d < b := by
  have hc := hall c
  rw [h] at hc
  exact of_decide_eq_true hc

theorem eq_numeral_of_read {s : List Byte} {n : Nat} (h : read 10 (digitValue 10) s = some n)
    (hlead : ∀ t, s ≠ chr '0' :: t) : s = (numeral 10 n).map (intDigit false) := by
  have hdec : ∀ c d, digitValue 10 c = some d → c = intDigit false d ∧ d < 10 :=
    digit_of_digitValue (by decide)
  obtain ⟨ds, rfl, hlt, rfl⟩ := exists_of_read hdec h
  rw [numeral_value (by decide) hlt]
  rintro es rfl
  exact hlead _ rfl

/-- The canonical numeral of an integer. -/
def intNumeral (v : Int) : List Byte :=
  if v = 0 then [chr '0']
  else if v < 0 then chr '-' :: (numeral 10 v.natAbs).map (intDigit false)
  else (numeral 10 v.natAbs).map (intDigit false)

theorem Canonical.eq_intNumeral {v : Int} {s : List Byte} (h : Canonical v s) :
    s = intNumeral v := by
  have hreads := h.reads
  cases s with
  | nil => cases hreads
  | cons c s =>
      rw [readInt] at hreads
      by_cases hminus : c = chr '-'
      · subst hminus
        rw [if_pos rfl] at hreads
        split at hreads
        · cases hreads
        · obtain ⟨k, hk, rfl⟩ := Option.map_eq_some_iff.mp hreads
          obtain ⟨n, hn, heq⟩ := Option.bind_eq_some_iff.mp hk
          cases heq
          have hneg : -(n : Int) < 0 := h.minus.mp rfl
          have hs := eq_numeral_of_read hn (by
            rintro t rfl
            have hzero := (h.leading t (.inr rfl)).1
            omega)
          rw [intNumeral, if_neg hneg.ne, if_pos hneg, Int.natAbs_neg, Int.natAbs_natCast, ← hs]
      · rw [if_neg hminus] at hreads
        obtain ⟨k, hk, rfl⟩ := Option.map_eq_some_iff.mp hreads
        obtain ⟨n, hn, heq⟩ := Option.bind_eq_some_iff.mp hk
        cases heq
        by_cases hzero : c = chr '0'
        · subst hzero
          obtain ⟨hv, rfl⟩ := h.leading s (.inl rfl)
          rw [intNumeral, if_pos hv]
        · have hs := eq_numeral_of_read hn fun t ht => hzero (List.cons.inj ht).1
          have hne : (n : Int) ≠ 0 := by
            intro h0
            rw [Int.natCast_eq_zero.mp h0, numeral_zero] at hs
            cases hs
          rw [intNumeral, if_neg hne, if_neg (Int.natCast_nonneg n).not_gt, Int.natAbs_natCast,
            ← hs]

theorem eq_of_read_hex {s t : List Byte} {n : Nat} (hlen : s.length = t.length)
    (hs : read 16 (digitValue 16) s = some n) (ht : read 16 (digitValue 16) t = some n) :
    s = t := by
  have hdec : ∀ c d, digitValue 16 c = some d → c = hexDigit d ∧ d < 16 :=
    digit_of_digitValue (by decide)
  obtain ⟨ds, rfl, hds, hvalue⟩ := exists_of_read hdec hs
  obtain ⟨es, rfl, hes, rfl⟩ := exists_of_read hdec ht
  rw [List.length_map, List.length_map] at hlen
  rw [eq_of_value (by decide) hlen hds hes hvalue]

/-- A directive stands for one text. -/
theorem Directive.Shows.unique {d : Directive} {t u : List Byte} (ht : d.Shows t)
    (hu : d.Shows u) : t = u := by
  cases ht with
  | plain | escape | percent =>
      cases hu
      rfl
  | int ne canonical =>
      cases hu with
      | int _ canonical' => exact canonical.eq_intNumeral.trans canonical'.eq_intNumeral.symm
      | least h => exact absurd h ne
  | least h =>
      cases hu with
      | int ne _ => exact absurd h ne
      | least _ => rfl
  | @string s rest ls hs h =>
      cases hu with
      | @string _ rest' ls' hs' h' =>
          have hprint := vrpString_letters ls h
          rw [← hs, hs'] at hprint
          exact (Writes.unique (vrpString_letters ls' h') hprint).2
  | null h =>
      cases hu with
      | null _ => rfl
      | pointer ne _ _ _ => exact absurd h ne
  | pointer ne length _ value =>
      cases hu with
      | null h => exact absurd h ne
      | pointer _ length' _ value' =>
          rw [eq_of_read_hex (length.trans length'.symm) value value']

/-! ## Formats -/

/-- What ends a format, and the text that is printed for it. -/
inductive FormatEnds : List Byte → List Byte → Prop
  | terminator {s} (h : deref s = 0) : FormatEnds s []
  | escape {s} (unknown : backchar (deref s &&& 0x7f) = 0) : FormatEnds (chr '\\' :: s) []
  | percent {s} (h : deref s = 0) : FormatEnds (chr '%' :: s) []
  | conversion {c s} (nonzero : c ≠ 0) (unknown : ¬ Known c) :
      FormatEnds (chr '%' :: c :: s) (str ['E', 'R', 'R', 'O', 'R', '\n'])

/-- A format and arguments are directives, an end with its text, and arguments that
nothing takes. -/
inductive Parses : List Byte → List Arg → List Directive → List Byte → Prop
  | ends {s ap final} (h : FormatEnds s final) : Parses s ap [] final
  | directive {s ap ds final} (d : Directive) (h : Parses s ap ds final) :
      Parses (d.written ++ s) (d.args ++ ap) (d :: ds) final

/-! ## Printing -/

section

variable (s : List Byte) (ap : List Arg)

theorem vrprintf_conversion (c : Byte) :
    vrprintf (chr '%' :: c :: s) ap = vrpPercent (c :: s) ap := by
  rw [vrprintf, if_neg (by decide), if_pos rfl]

theorem vrprintf_percent : vrprintf (chr '%' :: chr '%' :: s) ap =
    do return (← putcx (chr '%').toInt) + (← vrprintf s ap) := by
  rw [vrprintf_conversion, vrpPercent.eq_def]
  dsimp only
  rw [if_neg (by decide), if_pos rfl]

theorem vrprintf_int (v : Word) : vrprintf (chr '%' :: chr 'd' :: s) (.int v :: ap) =
    do return (← vrpInt v) + (← vrprintf s ap) := by
  rw [vrprintf_conversion, vrpPercent.eq_def]
  dsimp only
  rw [if_neg (by decide), if_neg (by decide), if_pos rfl]

theorem vrprintf_string (t : List Byte) :
    vrprintf (chr '%' :: chr 's' :: s) (.string t :: ap) =
      do return (← vrpString t) + (← vrprintf s ap) := by
  rw [vrprintf_conversion, vrpPercent.eq_def]
  dsimp only
  rw [if_neg (by decide), if_neg (by decide), if_neg (by decide), if_pos rfl]

theorem vrprintf_pointer (p : Word) : vrprintf (chr '%' :: chr 'p' :: s) (.pointer p :: ap) =
    do return (← vrpPointer p) + (← vrprintf s ap) := by
  rw [vrprintf_conversion, vrpPercent.eq_def]
  dsimp only
  rw [if_neg (by decide), if_neg (by decide), if_neg (by decide), if_neg (by decide), if_pos rfl]

end

theorem vrprintf_ends {s final : List Byte} (ap : List Arg) (h : FormatEnds s final) :
    (vrprintf s ap).Writes 0 final := by
  cases h with
  | terminator h =>
      cases s with
      | nil =>
          rw [vrprintf]
          exact Writes.pure
      | cons c s =>
          have hzero : c = 0 := h
          rw [vrprintf, if_pos hzero]
          exact Writes.pure
  | escape unknown =>
      rw [vrprintf, if_neg (by decide), if_neg (by decide), if_pos rfl]
      exact escape_ends unknown
  | percent h =>
      rename_i s
      rw [vrprintf, if_neg (by decide), if_pos rfl]
      cases s with
      | nil =>
          rw [vrpPercent]
          exact Writes.pure
      | cons c s =>
          have hzero : c = 0 := h
          rw [vrpPercent.eq_def]
          dsimp only
          rw [if_pos hzero]
          exact Writes.pure
  | conversion nonzero unknown =>
      simp only [Known, not_or] at unknown
      obtain ⟨hpercent, hd, hs, hp⟩ := unknown
      rw [vrprintf_conversion, vrpPercent.eq_def]
      dsimp only
      rw [if_neg nonzero, if_neg hpercent, if_neg hd, if_neg hs, if_neg hp]
      exact error_writes

namespace Directive

/-- A directive prints a text that it stands for, and the rest of the format follows. -/
theorem writes (d : Directive) : ∃ t, d.Shows t ∧ ∀ {s ap} {n : Int} {u : List Byte},
    (vrprintf s ap).Writes n u →
      (vrprintf (d.written ++ s) (d.args ++ ap)).Writes (t.length + n) (t ++ u) := by
  cases d with
  | plain c printable =>
      refine ⟨[c], .plain, fun {s ap n u} h => ?_⟩
      change (vrprintf (c :: s) ap).Writes _ _
      rw [vrprintf, if_neg printable.1, if_neg printable.2.1, if_neg printable.2.2]
      exact Writes.add (putcx_byte printable.1) h
  | escape e known =>
      refine ⟨[backchar (e &&& 0x7f)], .escape, fun {s ap n u} h => ?_⟩
      change (vrprintf (chr '\\' :: e :: s) ap).Writes _ _
      rw [vrprintf, if_neg (by decide), if_neg (by decide), if_pos rfl]
      exact escape_writes known h
  | percent =>
      refine ⟨[chr '%'], .percent, fun {s ap n u} h => ?_⟩
      change (vrprintf (chr '%' :: chr '%' :: s) ap).Writes _ _
      rw [vrprintf_percent]
      exact Writes.add (putcx_byte (c := chr '%') (by decide)) h
  | int v =>
      obtain ⟨t, hshows, hprint⟩ : ∃ t, (int v).Shows t ∧ (vrpInt v).Counts t := by
        by_cases hmin : v = BitVec.intMin 32
        · subst hmin
          exact ⟨_, .least rfl, vrpInt_intMin⟩
        · obtain ⟨t, hprint, hcanonical⟩ := vrpInt_canonical hmin
          exact ⟨t, .int hmin hcanonical, hprint⟩
      refine ⟨t, hshows, fun {s ap n u} h => ?_⟩
      change (vrprintf (chr '%' :: chr 'd' :: s) (.int v :: ap)).Writes _ _
      rw [vrprintf_int]
      exact Writes.add hprint h
  | string s =>
      obtain ⟨ls, rest, rfl, hrest⟩ := exists_letters s
      refine ⟨_, .string rfl hrest, fun {s ap n u} h => ?_⟩
      change (vrprintf (chr '%' :: chr 's' :: s) (.string _ :: ap)).Writes _ _
      rw [vrprintf_string]
      exact Writes.add (vrpString_letters ls hrest) h
  | pointer p =>
      obtain ⟨t, hshows, hprint⟩ : ∃ t, (pointer p).Shows t ∧ (vrpPointer p).Counts t := by
        have hprint := vrpPointer_counts p
        by_cases hp : p = 0
        · subst hp
          exact ⟨_, .null rfl, hprint⟩
        · rw [if_neg hp] at hprint
          exact ⟨_, .pointer hp (length_eightDigits p) (fun _ => mem_eightDigits)
            (read_eightDigits p), hprint⟩
      refine ⟨t, hshows, fun {s ap n u} h => ?_⟩
      change (vrprintf (chr '%' :: chr 'p' :: s) (.pointer p :: ap)).Writes _ _
      rw [vrprintf_pointer]
      exact Writes.add hprint h

end Directive

/-- The directives of a format are printed in their order. -/
theorem Parses.writes {format final : List Byte} {args : List Arg} {ds : List Directive}
    (h : Parses format args ds final) : ∃ texts, List.Forall₂ Directive.Shows ds texts ∧
      (vrprintf format args).Writes texts.flatten.length (texts.flatten ++ final) := by
  induction h with
  | ends h => exact ⟨[], .nil, vrprintf_ends _ h⟩
  | directive d _ ih =>
      obtain ⟨texts, hshows, hprint⟩ := ih
      obtain ⟨t, ht, hwrites⟩ := d.writes
      refine ⟨t :: texts, .cons ht hshows, ?_⟩
      rw [List.flatten_cons, List.length_append, Int.natCast_add, List.append_assoc]
      exact hwrites hprint

/-! ## Parsing -/

/-- A conversion is a directive, or it ends the format. -/
theorem parses_percent {format : List Byte} {ap : List Arg}
    (h : Matches (conversions (chr '%' :: format)) ap)
    (ih : ∀ ap, Matches (conversions format.tail) ap → ∃ ds final, Parses format.tail ap ds final) :
    ∃ ds final, Parses (chr '%' :: format) ap ds final := by
  cases format with
  | nil => exact ⟨[], [], .ends (.percent rfl)⟩
  | cons c format =>
      rw [conversions_percent] at h
      by_cases hzero : c = 0
      · exact ⟨[], [], .ends (.percent hzero)⟩
      rw [if_neg hzero] at h
      by_cases hknown : Known c
      · rw [if_pos hknown] at h
        rcases hknown with rfl | rfl | rfl | rfl
        · obtain ⟨ds, final, hparses⟩ := ih ap h
          exact ⟨_, _, .directive .percent hparses⟩
        · obtain ⟨val, rest, rfl, hrest⟩ := h
          obtain ⟨ds, final, hparses⟩ := ih rest hrest
          exact ⟨_, _, .directive (.int val) hparses⟩
        · obtain ⟨s, rest, rfl, hrest⟩ := h
          obtain ⟨ds, final, hparses⟩ := ih rest hrest
          exact ⟨_, _, .directive (.string s) hparses⟩
        · obtain ⟨p, rest, rfl, hrest⟩ := h
          obtain ⟨ds, final, hparses⟩ := ih rest hrest
          exact ⟨_, _, .directive (.pointer p) hparses⟩
      · exact ⟨[], _, .ends (.conversion hzero hknown)⟩

/-- Every format with arguments that its conversions take has a meaning. -/
theorem exists_directives (format : List Byte) (ap : List Arg)
    (h : Matches (conversions format) ap) : ∃ ds final, Parses format ap ds final := by
  induction hn : format.length using Nat.strong_induction_on generalizing format ap with
  | _ n ih =>
      cases format with
      | nil => exact ⟨[], [], .ends (.terminator rfl)⟩
      | cons c format =>
          have htail : format.tail.length < n := by
            rw [← hn, List.length_tail, List.length_cons]
            omega
          by_cases hzero : c = 0
          · exact ⟨[], [], .ends (.terminator hzero)⟩
          by_cases hpercent : c = chr '%'
          · subst hpercent
            exact parses_percent h fun ap h => ih _ htail format.tail ap h rfl
          rw [conversions, if_neg hzero, if_neg hpercent] at h
          by_cases hbackslash : c = chr '\\'
          · subst hbackslash
            rw [if_pos rfl] at h
            by_cases unknown : backchar (deref format &&& 0x7f) = 0
            · exact ⟨[], [], .ends (.escape unknown)⟩
            · rw [if_neg unknown] at h
              obtain ⟨ds, final, hparses⟩ := ih _ htail format.tail ap h rfl
              cases format with
              | nil => exact absurd rfl unknown
              | cons e format => exact ⟨_, _, .directive (.escape e unknown) hparses⟩
          · rw [if_neg hbackslash] at h
            have hlen : format.length < n := by
              rw [← hn, List.length_cons]
              omega
            obtain ⟨ds, final, hparses⟩ := ih _ hlen format ap h rfl
            exact ⟨_, _, .directive (.plain c ⟨hzero, hpercent, hbackslash⟩) hparses⟩

/-- Every format with arguments that its conversions take is a sequence of directives and
an end, and they have a meaning. `tprintf` prints what the directives stand for, in their
order, and the text of the end, and returns the length without that text. -/
theorem tprintf_renders {format : List Byte} {args : List Arg}
    (h : Matches (conversions format) args) :
    (∃ ds final texts, Parses format args ds final ∧ List.Forall₂ Directive.Shows ds texts) ∧
      ∀ ds final texts, Parses format args ds final → List.Forall₂ Directive.Shows ds texts →
        (tprintf format args).Writes texts.flatten.length (texts.flatten ++ final) := by
  constructor
  · obtain ⟨ds, final, hparses⟩ := exists_directives format args h
    obtain ⟨texts, hshows, _⟩ := hparses.writes
    exact ⟨ds, final, texts, hparses, hshows⟩
  · intro ds final texts hparses hshows
    obtain ⟨texts', hshows', hprint⟩ := hparses.writes
    have heq : texts' = texts :=
      List.right_unique_forall₂' (fun _ _ _ ht hu => ht.unique hu) hshows' hshows
    rw [tprintf, ← heq]
    exact hprint

/-- The format `%d%%` with an argument. -/
theorem tprintf_renders_sample :
    (tprintf (str ['%', 'd', '%', '%']) [.int (-7)]).Writes 3 (str ['-', '7', '%']) := by
  have hconv : conversions (str ['%', 'd', '%', '%']) = [chr 'd', chr '%'] := by
    simp [str, conversions, deref, Known, chr]
  have hmatch : Matches (conversions (str ['%', 'd', '%', '%'])) [.int (-7)] := by
    rw [hconv]
    exact ⟨-7, [], rfl, trivial⟩
  have hends : Parses [] [] [] [] := .ends (.terminator rfl)
  have hseven : Canonical (-7 : Word).toInt (str ['-', '7']) := by
    refine ⟨by decide, by decide, ?_⟩
    rintro t (h | h)
    · exact absurd (List.cons.inj h).1 (by decide)
    · exact absurd (List.cons.inj (List.cons.inj h).2).1 (by decide)
  exact (tprintf_renders hmatch).2 [.int (-7), .percent] [] [str ['-', '7'], [chr '%']]
    (.directive (.int (-7)) (.directive .percent hends))
    (.cons (.int (by decide) hseven) (.cons .percent .nil))

end MikaBoo
