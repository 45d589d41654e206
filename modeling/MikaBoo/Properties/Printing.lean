import MikaBoo.Model.Syslib
import MikaBoo.Library.Numeral
import Mathlib.Tactic.IntervalCases
import Mathlib.Tactic.NormNum

/-!
# What `tprintf` prints

The numerals that the conversions print, and the number of characters that
`tprintf` returns.
-/

namespace MikaBoo

open Output Numeral

/-! ## Single characters -/

theorem tprint_writes {s t : List Byte} (h : s.takeWhile (· ≠ 0) = t) :
    (tprint s).Writes () t := by
  rw [tprint, h]
  exact Writes.write

theorem putcx_counts {c : Word} (h : c.setWidth 8 ≠ 0) : (putcx c).Counts [c.setWidth 8] := by
  have hc : c ≠ 0 := by
    rintro rfl
    exact h rfl
  have htext : [c.setWidth 8, (0 : Byte)].takeWhile (· ≠ 0) = [c.setWidth 8] := by
    rw [List.takeWhile_cons_of_pos (by simpa using h)]
    rfl
  have hprint : (putchar c).Writes c [c.setWidth 8] :=
    (tprint_writes htext).bind (f := fun _ => pure c) Writes.pure
  rw [putcx, if_pos hc]
  exact hprint.bind (f := fun _ => pure (1 : Int)) Writes.pure

theorem putcx_zero : (putcx 0).Counts [] := by
  rw [putcx, if_neg (by decide)]
  exact Counts.zero

@[simp] theorem Byte.setWidth_toInt (c : Byte) : c.toInt.setWidth 8 = c := by
  simp [Byte.toInt]

theorem putcx_byte {c : Byte} (h : c ≠ 0) : (putcx c.toInt).Counts [c] := by
  have := putcx_counts (c := c.toInt) (by simpa using h)
  rwa [Byte.setWidth_toInt] at this

/-- `put_backslash` prints the escaped character, if there is one. -/
theorem putBackslash_counts (c : Byte) : (putBackslash c).Counts
    (if backchar (c &&& 0x7f) = 0 then [] else [backchar (c &&& 0x7f)]) := by
  split
  · rename_i h
    rw [putBackslash, h]
    exact putcx_zero
  · rename_i h
    exact putcx_byte h

/-! ## Numbers -/

/-- The value of a digit of the base `b`, in lower case. -/
def digitValue (b : Nat) (c : Byte) : Option Nat :=
  (if (chr '0').toNat ≤ c.toNat ∧ c.toNat ≤ (chr '9').toNat then some (c.toNat - (chr '0').toNat)
    else if (chr 'a').toNat ≤ c.toNat then some (c.toNat - (chr 'a').toNat + 10)
    else none).filter (· < b)

/-- The number that a decimal numeral, with a sign or without, stands for. -/
def readInt (s : List Byte) : Option Int :=
  match s with
  | [] => none
  | c :: s =>
      if c = chr '-' then
        if s = [] then none else (read 10 (digitValue 10) s).map fun n => -(n : Int)
      else (read 10 (digitValue 10) (c :: s)).map fun n => (n : Int)

/-- `s` is the canonical decimal numeral of `v`. -/
structure Canonical (v : Int) (s : List Byte) : Prop where
  reads : readInt s = some v
  minus : s.head? = some (chr '-') ↔ v < 0
  leading : ∀ t, s = chr '0' :: t ∨ s = chr '-' :: chr '0' :: t → v = 0 ∧ t = []

/-- The character that `rvrp_int` prints for a remainder of the size `d`. -/
def intDigit (neg : Bool) (d : Nat) : Byte :=
  if neg then chr '0' - BitVec.ofNat 8 d else chr '0' + BitVec.ofNat 8 d

/-- The integer is on the side of zero that the sign says. -/
def OnSide (neg : Bool) (v : Int) : Prop := if neg then v ≤ 0 else 0 ≤ v

theorem OnSide.tmod {neg : Bool} {v : Int} (h : OnSide neg v) : OnSide neg (v.tmod 10) := by
  cases neg with
  | false => exact Int.tmod_nonneg 10 h
  | true =>
      have hv : 0 ≤ (-v).tmod 10 := Int.tmod_nonneg 10 (Int.neg_nonneg_of_nonpos h)
      rw [Int.neg_tmod] at hv
      exact Int.nonpos_of_neg_nonneg hv

theorem OnSide.tdiv {neg : Bool} {v : Int} (h : OnSide neg v) : OnSide neg (v.tdiv 10) := by
  cases neg with
  | false => exact Int.tdiv_nonneg h (by decide)
  | true =>
      have hv : 0 ≤ (-v).tdiv 10 := Int.tdiv_nonneg (Int.neg_nonneg_of_nonpos h) (by decide)
      rw [Int.neg_tdiv] at hv
      exact Int.nonpos_of_neg_nonneg hv

/-- What the remainder by ten adds to the character of zero. -/
theorem setWidth_srem {val : Word} {neg : Bool} (h : OnSide neg val.toInt) :
    ((chr '0').toInt + val.srem 10).setWidth 8 = intDigit neg (val.toInt.natAbs % 10) := by
  have hall : ∀ d : Fin 10,
      ((chr '0').toInt + BitVec.ofInt 32 d).setWidth 8 = intDigit false d ∧
      ((chr '0').toInt + BitVec.ofInt 32 (-d)).setWidth 8 = intDigit true d := by
    decide
  have hr : val.srem 10 = BitVec.ofInt 32 (val.toInt.tmod 10) := by
    have hsrem : (val.srem 10).toInt = val.toInt.tmod 10 := BitVec.toInt_srem val 10
    rw [← hsrem, BitVec.ofInt_toInt]
  have habs : (val.toInt.tmod 10).natAbs = val.toInt.natAbs % 10 := Int.natAbs_tmod _ _
  obtain ⟨d, hd⟩ : ∃ d : Fin 10, (d : Nat) = val.toInt.natAbs % 10 :=
    ⟨⟨_, Nat.mod_lt _ (by decide)⟩, rfl⟩
  have hside := h.tmod
  rw [← hd] at habs ⊢
  rw [hr]
  cases neg with
  | false =>
      have hval : val.toInt.tmod 10 = (d : Nat) := by
        have : 0 ≤ val.toInt.tmod 10 := hside
        omega
      rw [hval]
      exact (hall d).1
  | true =>
      have hval : val.toInt.tmod 10 = -(d : Nat) := by
        have : val.toInt.tmod 10 ≤ 0 := hside
        omega
      rw [hval]
      exact (hall d).2

theorem intDigit_ne_zero (neg : Bool) (n : Nat) : intDigit neg (n % 10) ≠ 0 := by
  have hall : ∀ (neg : Bool) (d : Fin 10), intDigit neg d ≠ 0 := by decide
  exact hall neg ⟨n % 10, Nat.mod_lt _ (by decide)⟩

/-- `rvrp_int` prints the digits of the absolute value, each on the side of `'0'`
that the sign says. -/
theorem rvrpInt_counts {val : Word} {neg : Bool} (h : OnSide neg val.toInt) :
    (rvrpInt val).Counts ((numeral 10 val.toInt.natAbs).map (intDigit neg)) := by
  induction val using rvrpInt.induct with
  | case1 =>
      rw [rvrpInt, if_pos rfl]
      exact Counts.zero
  | case2 val hval ih =>
      have hn : val.toInt.natAbs ≠ 0 := fun h0 =>
        hval (BitVec.eq_of_toInt_eq (Int.natAbs_eq_zero.mp h0))
      have hquot : (val.sdiv 10).toInt.natAbs = val.toInt.natAbs / 10 := by
        rw [toInt_sdiv_ten, Int.natAbs_tdiv]
        rfl
      have hlast := putcx_counts (c := (chr '0').toInt + val.srem 10) (by
        rw [setWidth_srem h]
        exact intDigit_ne_zero _ _)
      rw [setWidth_srem h] at hlast
      rw [rvrpInt, if_neg hval, numeral_of_ne_zero (by decide) hn, List.map_append, ← hquot]
      exact (ih (toInt_sdiv_ten val ▸ h.tdiv)).add hlast

/-- What `vrp_int` prints. -/
theorem vrpInt_counts (val : Word) : (vrpInt val).Counts
    (if val = 0 then [chr '0']
      else if val.toInt < 0 then
        chr '-' :: (numeral 10 (-val).toInt.natAbs).map (intDigit (decide ((-val).toInt < 0)))
      else (numeral 10 val.toInt.natAbs).map (intDigit false)) := by
  have hslt : val.slt 0 = true ↔ val.toInt < 0 := by
    rw [BitVec.slt, decide_eq_true_iff]
    rfl
  rw [vrpInt]
  by_cases h0 : val = 0
  · rw [if_neg (not_not_intro h0), if_pos h0]
    exact putcx_byte (c := chr '0') (by decide)
  · rw [if_pos h0, if_neg h0]
    by_cases hneg : val.toInt < 0
    · rw [if_pos (hslt.mpr hneg), if_pos hneg]
      have hside : OnSide (decide ((-val).toInt < 0)) (-val).toInt := by
        unfold OnSide
        split <;> simp_all
        omega
      exact (putcx_byte (c := chr '-') (by decide)).add (rvrpInt_counts hside)
    · rw [if_neg (mt hslt.mp hneg), if_neg hneg]
      have hside : OnSide false val.toInt := Int.not_lt.mp hneg
      exact rvrpInt_counts hside

theorem digitValue_intDigit : ∀ d < 10, digitValue 10 (intDigit false d) = some d := by
  have hall : ∀ d : Fin 10, digitValue 10 (intDigit false d) = some (d : Nat) := by decide
  exact fun d hd => hall ⟨d, hd⟩

/-- The digits of a positive number: no sign, no leading zero, and the number is read back. -/
theorem digits_canonical {n : Nat} (hn : n ≠ 0) :
    ∃ c t, (numeral 10 n).map (intDigit false) = c :: t ∧ c ≠ chr '-' ∧ c ≠ chr '0' ∧
      read 10 (digitValue 10) (c :: t) = some n := by
  obtain ⟨d, ds, hds⟩ := List.exists_cons_of_ne_nil (numeral_ne_nil (b := 10) hn)
  have hall : ∀ d : Fin 10, (d : Nat) ≠ 0 →
      intDigit false d ≠ chr '-' ∧ intDigit false d ≠ chr '0' := by
    decide
  have hd : d < 10 := lt_of_mem_numeral (by decide) (hds ▸ List.mem_cons_self)
  obtain ⟨hminus, hzero⟩ := hall ⟨d, hd⟩ (head_numeral hds)
  have hread := read_map (b := 10) digitValue_intDigit fun d hd =>
    lt_of_mem_numeral (n := n) (by decide) hd
  rw [value_numeral (by decide)] at hread
  rw [hds] at hread ⊢
  exact ⟨_, _, rfl, hminus, hzero, hread⟩

/-- What `vrp_int` prints for the least integer. -/
def leastPrinted : List Byte := str ['-', '.', '/', ',', ')', ',', '(', '-', '*', ',', '(']

theorem vrpInt_intMin : (vrpInt (BitVec.intMin 32)).Counts leastPrinted := by
  have hprint := vrpInt_counts (BitVec.intMin 32)
  have habs : (-BitVec.intMin 32 : Word).toInt.natAbs = 2147483648 := by decide
  have hdigits : numeral 10 2147483648 = [2, 1, 4, 7, 4, 8, 3, 6, 4, 8] := by
    norm_num [numeral]
  rw [if_neg (by decide), if_pos (by decide), habs, hdigits] at hprint
  exact hprint

theorem least_not_canonical :
    ¬ ∃ s, (vrpInt (BitVec.intMin 32)).Counts s ∧ Canonical (BitVec.intMin 32).toInt s := by
  rintro ⟨s, hs, hcanonical⟩
  have hreads := hcanonical.reads
  rw [(Writes.unique vrpInt_intMin hs).2] at hreads
  exact absurd hreads (by decide)

/-- Any other integer is printed as its canonical numeral. -/
theorem vrpInt_canonical {v : Word} (hmin : v ≠ BitVec.intMin 32) :
    ∃ s, (vrpInt v).Counts s ∧ Canonical v.toInt s := by
  refine ⟨_, vrpInt_counts v, ?_⟩
  by_cases h0 : v = 0
  · subst h0
    rw [if_pos rfl]
    refine ⟨by decide, by decide, ?_⟩
    rintro t (h | h)
    · exact ⟨rfl, (List.cons.inj h).2.symm⟩
    · exact absurd (List.cons.inj h).1 (by decide)
  · have hv : v.toInt ≠ 0 := fun h => h0 (BitVec.eq_of_toInt_eq h)
    rw [if_neg h0]
    by_cases hneg : v.toInt < 0
    · rw [if_pos hneg, BitVec.toInt_neg_of_ne_intMin hmin]
      have hpos : ¬ -v.toInt < 0 := by omega
      rw [decide_eq_false hpos]
      obtain ⟨c, t, hct, _, hzero, hread⟩ :=
        digits_canonical (n := (-v.toInt).natAbs) (by omega)
      rw [hct]
      refine ⟨?_, by simp [hneg], ?_⟩
      · have hval : -((-v.toInt).natAbs : Int) = v.toInt := by omega
        rw [readInt, if_pos rfl, if_neg (List.cons_ne_nil _ _), hread]
        exact congrArg some hval
      · rintro u (h | h)
        · exact absurd (List.cons.inj h).1 (by decide)
        · exact absurd (List.cons.inj (List.cons.inj h).2).1 hzero
    · rw [if_neg hneg]
      obtain ⟨c, t, hct, hminus, hzero, hread⟩ :=
        digits_canonical (n := v.toInt.natAbs) (by omega)
      rw [hct]
      refine ⟨?_, by simp [hneg, hminus], ?_⟩
      · have hval : (v.toInt.natAbs : Int) = v.toInt := by omega
        rw [readInt, if_neg hminus, hread]
        exact congrArg some hval
      · rintro u (h | h)
        · exact absurd (List.cons.inj h).1 hzero
        · exact absurd (List.cons.inj h).1 hminus

/-- For every integer, `vrp_int` prints its canonical numeral and returns the length
of it, exactly if the integer is not the least one, whose negation overflows. -/
theorem int_numeral (v : Word) :
    (∃ s, (vrpInt v).Counts s ∧ Canonical v.toInt s) ↔ v ≠ BitVec.intMin 32 := by
  constructor
  · rintro h rfl
    exact least_not_canonical h
  · exact vrpInt_canonical

/-- The least integer is printed as `-./,),(-*,(`. -/
theorem int_numeral_wrong :
    (vrpInt (BitVec.intMin 32)).Counts leastPrinted ∧
      ¬ ∃ s, (vrpInt (BitVec.intMin 32)).Counts s ∧ Canonical (BitVec.intMin 32).toInt s :=
  ⟨vrpInt_intMin, least_not_canonical⟩

/-! ## Pointers -/

/-- The character of a hexadecimal digit. -/
def hexDigit (d : Nat) : Byte := hexCx (BitVec.ofNat 32 d)

theorem digitValue_hexDigit : ∀ d < 16, digitValue 16 (hexDigit d) = some d ∧ hexDigit d ≠ 0 := by
  have hall : ∀ d : Fin 16, digitValue 16 (hexDigit d) = some (d : Nat) ∧ hexDigit d ≠ 0 := by
    decide
  exact fun d hd => hall ⟨d, hd⟩

/-- The loop of `rvrp_pointer` prints the zeros that are missing. -/
theorem padZeros_writes (i : Nat) :
    (padZeros i).Writes () (List.replicate (8 - i) (chr '0')) := by
  induction i using padZeros.induct with
  | case1 i hi ih =>
      have hlen : 8 - i = (8 - (i + 1)) + 1 := by omega
      rw [padZeros, if_pos hi, hlen, List.replicate_succ]
      exact (putcx_byte (c := chr '0') (by decide)).bind (f := fun _ => padZeros (i + 1)) ih
  | case2 i hi =>
      have hlen : 8 - i = 0 := by omega
      rw [padZeros, if_neg hi, hlen]
      exact Writes.pure

/-- `rvrp_pointer` prints zeros and then the digits of the number. The zeros, the digits
and the digits that its callers print are eight. -/
theorem rvrpPointer_counts {p : Word} {dept : Nat}
    (h : (numeral 16 p.toNat).length + dept ≤ 8) :
    (rvrpPointer p dept).Counts
      (List.replicate (8 - ((numeral 16 p.toNat).length + dept)) (chr '0') ++
        (numeral 16 p.toNat).map hexDigit) := by
  induction p, dept using rvrpPointer.induct with
  | case1 dept =>
      have hnil : numeral 16 (0 : Word).toNat = [] := numeral_zero
      rw [hnil] at h ⊢
      have hpad := (padZeros_writes dept).bind (f := fun _ => pure (8 - (dept : Int))) Writes.pure
      have hlen : ((List.replicate (8 - dept) (chr '0') ++ []).length : Int) = 8 - dept := by
        have : dept ≤ 8 := by simpa using h
        simp
        omega
      rw [rvrpPointer, if_pos rfl, List.length_nil, Nat.zero_add, List.map_nil, Output.Counts, hlen]
      exact hpad
  | case2 p dept hp ih =>
      have hn : p.toNat ≠ 0 := fun h0 => hp (BitVec.eq_of_toNat_eq h0)
      have hquot : (p / 16).toNat = p.toNat / 16 := BitVec.toNat_udiv
      have hrem : p % 16 = BitVec.ofNat 32 (p.toNat % 16) := by
        apply BitVec.eq_of_toNat_eq
        have hsixteen : (16 : Word).toNat = 16 := rfl
        rw [BitVec.toNat_umod, BitVec.toNat_ofNat, hsixteen]
        omega
      have hlast := putcx_byte (digitValue_hexDigit _ (Nat.mod_lt p.toNat (by decide))).2
      rw [hexDigit, ← hrem] at hlast
      have hstep := numeral_of_ne_zero (b := 16) (by decide) hn
      rw [hstep] at h ⊢
      rw [← hquot] at h ⊢
      simp only [List.length_append, List.length_singleton] at h ⊢
      have ih' := ih (by omega)
      have hsum : (numeral 16 (p / 16).toNat).length + 1 + dept =
          (numeral 16 (p / 16).toNat).length + (dept + 1) := by omega
      rw [rvrpPointer, if_neg hp, hsum, List.map_append, ← List.append_assoc, List.map_singleton,
        hexDigit, ← hrem]
      exact ih'.add hlast

/-- A format without conversions and escapes is printed as it is. -/
theorem vrprintf_plain {format : List Byte} (ap : List Arg)
    (h : ∀ c ∈ format, c ≠ 0 ∧ c ≠ chr '%' ∧ c ≠ chr '\\') :
    (vrprintf format ap).Counts format := by
  induction format with
  | nil =>
      rw [vrprintf]
      exact Counts.zero
  | cons c format ih =>
      obtain ⟨hzero, hpercent, hbackslash⟩ := h c List.mem_cons_self
      have htail := ih fun d hd => h d (List.mem_cons_of_mem _ hd)
      rw [vrprintf, if_neg hzero, if_neg hpercent, if_neg hbackslash]
      exact (putcx_byte hzero).add htail

/-- `vrp_pointer` prints the NULL pointer in words, and others with eight digits. -/
theorem vrpPointer_counts (p : Word) : (vrpPointer p).Counts
    (if p = 0 then str ['(', 'n', 'u', 'l', 'l', ')']
      else str ['0', 'x'] ++
        (List.replicate (8 - (numeral 16 p.toNat).length) (chr '0') ++
          (numeral 16 p.toNat).map hexDigit)) := by
  rw [vrpPointer]
  by_cases hp : p = 0
  · rw [if_neg (not_not_intro hp), if_pos hp, tprintf]
    exact vrprintf_plain [] (by decide)
  · have hlen : (numeral 16 p.toNat).length ≤ 8 :=
      length_numeral_le (by decide) p.isLt
    rw [if_pos hp, if_neg hp, tprintf]
    have hdigits : (numeral 16 p.toNat).length + 0 ≤ 8 := hlen
    exact (vrprintf_plain [] (by decide)).add (rvrpPointer_counts hdigits)

/-- The hexadecimal digits in lower case. -/
def hexDigits : List Byte :=
  str ['0', '1', '2', '3', '4', '5', '6', '7', '8', '9', 'a', 'b', 'c', 'd', 'e', 'f']

theorem hexDigit_mem_hexDigits : ∀ d < 16, hexDigit d ∈ hexDigits := by
  have hall : ∀ d : Fin 16, hexDigit d ∈ hexDigits := by decide
  exact fun d hd => hall ⟨d, hd⟩

/-- The eight characters of a pointer: zeros and the digits of the number. -/
def eightDigits (p : Word) : List Byte :=
  List.replicate (8 - (numeral 16 p.toNat).length) (chr '0') ++ (numeral 16 p.toNat).map hexDigit

theorem length_eightDigits (p : Word) : (eightDigits p).length = 8 := by
  have hlen : (numeral 16 p.toNat).length ≤ 8 := length_numeral_le (by decide) p.isLt
  simp only [eightDigits, List.length_append, List.length_replicate, List.length_map]
  omega

theorem mem_eightDigits {p : Word} {c : Byte} (hc : c ∈ eightDigits p) : c ∈ hexDigits := by
  rcases List.mem_append.mp hc with hc | hc
  · rw [List.eq_of_mem_replicate hc]
    decide
  · obtain ⟨d, hd, rfl⟩ := List.mem_map.mp hc
    exact hexDigit_mem_hexDigits d (lt_of_mem_numeral (by decide) hd)

theorem read_eightDigits (p : Word) : read 16 (digitValue 16) (eightDigits p) = some p.toNat := by
  have hmap : eightDigits p =
      (List.replicate (8 - (numeral 16 p.toNat).length) 0 ++ numeral 16 p.toNat).map hexDigit := by
    rw [List.map_append, List.map_replicate]
    rfl
  rw [hmap, read_map (fun d hd => (digitValue_hexDigit d hd).1), value_pad,
    value_numeral (by decide)]
  intro d hd
  rcases List.mem_append.mp hd with hd | hd
  · rw [List.eq_of_mem_replicate hd]
    decide
  · exact lt_of_mem_numeral (by decide) hd

/-- For every pointer other than NULL, `vrp_pointer` prints `0x` and eight characters,
zeros and the digits of the recursion, which read back in base 16 give the pointer, and
returns 10. -/
theorem pointer_numeral {p : Word} (hp : p ≠ 0) : ∃ (zeros : Nat) (digits : List Byte),
    (vrpPointer p).Writes 10 (str ['0', 'x'] ++ (List.replicate zeros (chr '0') ++ digits)) ∧
    digits = (numeral 16 p.toNat).map hexDigit ∧ zeros + digits.length = 8 ∧
    (∀ c ∈ List.replicate zeros (chr '0') ++ digits, c ∈ hexDigits) ∧
    read 16 (digitValue 16) (List.replicate zeros (chr '0') ++ digits) = some p.toNat := by
  have hlen : (numeral 16 p.toNat).length ≤ 8 := length_numeral_le (by decide) p.isLt
  have hprint := vrpPointer_counts p
  rw [if_neg hp] at hprint
  refine ⟨8 - (numeral 16 p.toNat).length, _, ?_, rfl, ?_, fun c => mem_eightDigits,
    read_eightDigits p⟩
  · have hten : ((str ['0', 'x'] ++ eightDigits p).length : Int) = 10 := by
      rw [List.length_append, length_eightDigits]
      rfl
    rw [Output.Counts] at hprint
    exact hten ▸ hprint
  · rw [List.length_map]
    omega

/-- The pointer `0xdeadbeef`. -/
theorem pointer_numeral_sample : ∃ digits : List Byte,
    (vrpPointer 0xdeadbeef).Writes 10 (str ['0', 'x'] ++ digits) ∧
    read 16 (digitValue 16) digits = some 0xdeadbeef := by
  obtain ⟨zeros, digits, hprint, _, _, _, hread⟩ := pointer_numeral (p := 0xdeadbeef) (by decide)
  exact ⟨_, hprint, hread⟩

/-! ## Formats -/

/-- An escape prints one character, which its caller counts, and ends the string if it
is unknown. -/
theorem escape_exceeds {x : Print Int} {k : Int} {c : Byte}
    (h : backchar (c &&& 0x7f) ≠ 0 → x.Exceeds k) (h0 : backchar (c &&& 0x7f) = 0 → k = 0) :
    (do if (← putBackslash c) ≠ 0 then return (← x) + 1 else return 0 : Print Int).Exceeds k := by
  have hescape := putBackslash_counts c
  by_cases hc : backchar (c &&& 0x7f) = 0
  · rw [if_pos hc] at hescape
    have hend := Writes.bind (f := fun n => if n ≠ 0 then do return (← x) + 1 else return 0)
      hescape Writes.pure
    exact ⟨0, [], hend, by simp [h0 hc]⟩
  · rw [if_neg hc] at hescape
    obtain ⟨n, text, hx, hlen⟩ := (h hc).succ (a := backchar (c &&& 0x7f))
    exact ⟨n, _, Writes.bind (f := fun n => if n ≠ 0 then do return (← x) + 1 else return 0)
      hescape hx, hlen⟩

/-- `vrp_string` returns the number of characters that it prints. -/
theorem vrpString_exceeds (s : List Byte) : (vrpString s).Exceeds 0 := by
  induction s using vrpString.induct with
  | case1 =>
      rw [vrpString]
      exact Counts.zero.exceeds
  | case2 s =>
      rw [vrpString, if_pos rfl]
      exact Counts.zero.exceeds
  | case3 s hzero ih =>
      rw [vrpString, if_neg hzero, if_pos rfl]
      exact escape_exceeds (fun _ => ih) fun _ => rfl
  | case4 c s hzero hbackslash ih =>
      rw [vrpString, if_neg hzero, if_neg hbackslash]
      exact (putcx_byte hzero).exceeds.add ih

/-- A conversion of `tprintf`. -/
def Known (c : Byte) : Prop := c = chr '%' ∨ c = chr 'd' ∨ c = chr 's' ∨ c = chr 'p'

instance (c : Byte) : Decidable (Known c) := inferInstanceAs (Decidable (_ ∨ _))

/-- The characters after `%` that `tprintf` reaches in a format, in order: an unknown
escape, an unknown conversion and the terminator end the format. -/
def conversions : List Byte → List Byte
  | [] => []
  | c :: format =>
      if c = 0 then []
      else if c = chr '%' then
        if deref format = 0 then []
        else deref format ::
          if Known (deref format) then conversions format.tail else []
      else if c = chr '\\' then
        if backchar (deref format &&& 0x7f) = 0 then [] else conversions format.tail
      else conversions format
termination_by format => format.length

/-- The arguments have the types that the conversions take. -/
def Matches : List Byte → List Arg → Prop
  | [], _ => True
  | c :: cs, ap =>
      if c = chr 'd' then ∃ val rest, ap = .int val :: rest ∧ Matches cs rest
      else if c = chr 's' then ∃ s rest, ap = .string s :: rest ∧ Matches cs rest
      else if c = chr 'p' then ∃ p rest, ap = .pointer p :: rest ∧ Matches cs rest
      else Matches cs ap

/-- The length of the error text, if an unknown conversion is reached. -/
def uncounted (cs : List Byte) : Int := if ∀ c ∈ cs, Known c then 0 else 6

theorem uncounted_cons {c : Byte} {cs : List Byte} (h : Known c) :
    uncounted (c :: cs) = uncounted cs := by
  simp [uncounted, h]

theorem conversions_percent (c : Byte) (format : List Byte) :
    conversions (chr '%' :: c :: format) =
      if c = 0 then [] else c :: if Known c then conversions format else [] := by
  rw [conversions, if_neg (by decide), if_pos rfl]
  rfl

/-- The error text is not counted. -/
theorem error_writes :
    (do tprint (str ['E', 'R', 'R', 'O', 'R', '\n']); return 0 : Print Int).Writes 0
      (str ['E', 'R', 'R', 'O', 'R', '\n']) :=
  (tprint_writes (s := str ['E', 'R', 'R', 'O', 'R', '\n']) rfl).bind
    (f := fun _ => pure (0 : Int)) Writes.pure

/-- A conversion counts what it prints, unless it is unknown. -/
theorem vrpPercent_exceeds {format : List Byte} {ap : List Arg}
    (h : Matches (conversions (chr '%' :: format)) ap)
    (ih : ∀ ap, Matches (conversions format.tail) ap →
      (vrprintf format.tail ap).Exceeds (uncounted (conversions format.tail))) :
    (vrpPercent format ap).Exceeds (uncounted (conversions (chr '%' :: format))) := by
  cases format with
  | nil =>
      rw [vrpPercent, conversions, if_neg (by decide), if_pos rfl]
      exact Counts.zero.exceeds
  | cons c format =>
      rw [conversions_percent] at h ⊢
      rw [List.tail_cons] at ih
      rw [vrpPercent.eq_def]
      dsimp only
      by_cases hzero : c = 0
      · rw [if_pos hzero, if_pos hzero]
        exact Counts.zero.exceeds
      rw [if_neg hzero] at h ⊢
      rw [if_neg hzero]
      by_cases hknown : Known c
      · rw [if_pos hknown] at h ⊢
        rw [uncounted_cons hknown]
        rcases hknown with rfl | rfl | rfl | rfl
        · exact (putcx_byte hzero).exceeds.add (ih ap h)
        · obtain ⟨val, rest, rfl, hrest⟩ := h
          exact (vrpInt_counts val).exceeds.add (ih rest hrest)
        · obtain ⟨s, rest, rfl, hrest⟩ := h
          exact (vrpString_exceeds s).add (ih rest hrest)
        · obtain ⟨p, rest, rfl, hrest⟩ := h
          exact (vrpPointer_counts p).exceeds.add (ih rest hrest)
      · have hsix : uncounted [c] = 6 := by simp [uncounted, hknown]
        simp only [Known, not_or] at hknown
        obtain ⟨hpercent, hd, hs, hp⟩ := hknown
        rw [if_neg hpercent, if_neg hd, if_neg hs, if_neg hp]
        refine ⟨0, _, error_writes, ?_⟩
        rw [if_neg (by simp [Known, hpercent, hd, hs, hp]), hsix]
        rfl

/-- The characters that `vrprintf` prints without counting them are those of the error text. -/
theorem vrprintf_exceeds (format : List Byte) (ap : List Arg)
    (h : Matches (conversions format) ap) :
    (vrprintf format ap).Exceeds (uncounted (conversions format)) := by
  induction hn : format.length using Nat.strong_induction_on generalizing format ap with
  | _ n ih =>
      cases format with
      | nil =>
          rw [vrprintf, conversions]
          exact Counts.zero.exceeds
      | cons c format =>
          have htail : format.tail.length < n := by
            rw [← hn, List.length_tail, List.length_cons]
            omega
          rw [vrprintf]
          by_cases hzero : c = 0
          · rw [conversions, if_pos hzero, if_pos hzero]
            exact Counts.zero.exceeds
          rw [if_neg hzero]
          by_cases hpercent : c = chr '%'
          · subst hpercent
            rw [if_pos rfl]
            exact vrpPercent_exceeds h fun ap h => ih _ htail format.tail ap h rfl
          rw [conversions, if_neg hzero, if_neg hpercent] at h ⊢
          rw [if_neg hpercent]
          by_cases hbackslash : c = chr '\\'
          · rw [if_pos hbackslash] at h ⊢
            rw [if_pos hbackslash]
            refine escape_exceeds (fun hknown => ?_) fun hend => ?_
            · rw [if_neg hknown] at h ⊢
              exact ih _ htail format.tail ap h rfl
            · rw [if_pos hend]
              rfl
          · rw [if_neg hbackslash] at h ⊢
            rw [if_neg hbackslash]
            have hlen : format.length < n := by
              rw [← hn, List.length_cons]
              omega
            exact (putcx_byte hzero).exceeds.add (ih _ hlen format ap h rfl)

/-- For every format and all arguments that its conversions take, `tprintf` returns the
number of characters that it prints exactly if it reaches no unknown conversion. -/
theorem printed_count {format : List Byte} {args : List Arg}
    (h : Matches (conversions format) args) : ∃ n text, (tprintf format args).Writes n text ∧
      (n = text.length ↔ ∀ c ∈ conversions format, Known c) := by
  obtain ⟨n, text, hprint, hlen⟩ := vrprintf_exceeds format args h
  rw [← tprintf] at hprint
  refine ⟨n, text, hprint, ?_⟩
  rw [hlen, uncounted]
  split <;> simp_all

/-- The format `%d%%` with an argument. -/
theorem printed_count_sample : ∃ n text,
    (tprintf (str ['%', 'd', '%', '%']) [.int (-7)]).Writes n text ∧ n = text.length := by
  have hconv : conversions (str ['%', 'd', '%', '%']) = [chr 'd', chr '%'] := by
    simp [str, conversions, deref, Known, chr]
  have hmatch : Matches (conversions (str ['%', 'd', '%', '%'])) [.int (-7)] := by
    rw [hconv]
    exact ⟨-7, [], rfl, trivial⟩
  obtain ⟨n, text, hprint, hcount⟩ := printed_count hmatch
  rw [hconv] at hcount
  exact ⟨n, text, hprint, hcount.mpr (by decide)⟩

/-- For the format `%x` six characters are printed, and none is counted. -/
theorem printed_count_wrong : Matches (conversions (str ['%', 'x'])) [] ∧
    (tprintf (str ['%', 'x']) []).Writes 0 (str ['E', 'R', 'R', 'O', 'R', '\n']) := by
  constructor
  · simp [str, conversions, deref, Known, chr, Matches]
  · simp only [tprintf, str, List.map_cons, List.map_nil]
    rw [vrprintf, if_neg (by decide), if_pos rfl, vrpPercent.eq_def]
    dsimp only
    rw [if_neg (by decide), if_neg (by decide), if_neg (by decide), if_neg (by decide),
      if_neg (by decide)]
    exact error_writes

end MikaBoo
