import Mathlib.Data.Nat.Digits.Lemmas

/-!
# Positional numerals

The digits of a number in a base, most significant first, and the number that a
list of digits stands for.
-/

namespace Numeral

variable {b n d w : Nat} {ds es : List Nat}

/-- The digits of `n` in base `b`, most significant first; none for zero. -/
def numeral (b n : Nat) : List Nat := (Nat.digits b n).reverse

/-- The number that a list of digits in base `b` stands for. -/
def value (b : Nat) (ds : List Nat) : Nat := ds.foldl (fun v d => b * v + d) 0

@[simp] theorem numeral_zero : numeral b 0 = [] := by simp [numeral]

/-- All digits but the last are those of the quotient. -/
theorem numeral_of_ne_zero (hb : 1 < b) (hn : n ≠ 0) :
    numeral b n = numeral b (n / b) ++ [n % b] := by
  simp [numeral, Nat.digits_def' hb (Nat.pos_of_ne_zero hn)]

theorem numeral_ne_nil (hn : n ≠ 0) : numeral b n ≠ [] := by
  simpa [numeral, Nat.digits_eq_nil_iff_eq_zero] using hn

theorem lt_of_mem_numeral (hb : 1 < b) (hd : d ∈ numeral b n) : d < b :=
  Nat.digits_lt_base hb (List.mem_reverse.mp hd)

/-- No numeral has a leading zero. -/
theorem head_numeral (h : numeral b n = d :: ds) : d ≠ 0 := by
  have hdigits : Nat.digits b n = ds.reverse ++ [d] := by
    rw [← List.reverse_cons, ← h, numeral, List.reverse_reverse]
  have hn : n ≠ 0 := by
    rintro rfl
    simp at hdigits
  have hlast := Nat.getLast_digit_ne_zero b hn
  simpa [hdigits] using hlast

theorem length_numeral_le (hb : 1 < b) (hn : n < b ^ w) : (numeral b n).length ≤ w := by
  rw [numeral, List.length_reverse]
  exact (Nat.digits_length_le_iff hb n).mpr hn

@[simp] theorem value_nil : value b [] = 0 := rfl

theorem value_concat : value b (ds ++ [d]) = b * value b ds + d := by
  simp [value, List.foldl_append]

/-- A numeral stands for its number. -/
@[simp] theorem value_numeral (hb : 1 < b) : value b (numeral b n) = n := by
  induction n using Nat.strong_induction_on with
  | _ n ih =>
      by_cases hn : n = 0
      · simp [hn]
      · rw [numeral_of_ne_zero hb hn, value_concat, ih _ (Nat.div_lt_self (by omega) hb)]
        exact Nat.div_add_mod n b

/-- Leading zeros do not count. -/
theorem value_pad (k : Nat) : value b (List.replicate k 0 ++ ds) = value b ds := by
  rw [value, List.foldl_append]
  congr 1
  induction k with
  | zero => rfl
  | succ k ih => simpa [List.replicate_succ] using ih

theorem value_eq_ofDigits : value b ds = Nat.ofDigits b ds.reverse := by
  rw [Nat.ofDigits_eq_foldr, List.foldr_reverse, value]
  congr 1
  funext v d
  exact Nat.add_comm _ _

/-- The digits of a number are those that stand for it without a leading zero. -/
theorem numeral_value (hb : 1 < b) (hds : ∀ d ∈ ds, d < b) (hhead : ∀ es, ds ≠ 0 :: es) :
    numeral b (value b ds) = ds := by
  rw [numeral, value_eq_ofDigits, Nat.digits_ofDigits b hb, List.reverse_reverse]
  · exact fun d hd => hds d (List.mem_reverse.mp hd)
  · intro hne hlast
    rw [List.getLast_reverse] at hlast
    cases ds with
    | nil => exact hne rfl
    | cons d es => exact hhead es (congrArg (· :: es) hlast)

/-- Digits of the same length that stand for the same number are the same. -/
theorem eq_of_value (hb : 1 < b) (hlen : ds.length = es.length) (hds : ∀ d ∈ ds, d < b)
    (hes : ∀ e ∈ es, e < b) (h : value b ds = value b es) : ds = es := by
  rw [value_eq_ofDigits, value_eq_ofDigits] at h
  apply List.reverse_injective
  apply Nat.ofDigits_inj_of_len_eq hb
  · rwa [List.length_reverse, List.length_reverse]
  · exact fun d hd => hds d (List.mem_reverse.mp hd)
  · exact fun e he => hes e (List.mem_reverse.mp he)
  · exact h

/-! ## Characters -/

section read

variable {α : Type*} {enc : Nat → α} {dec : α → Option Nat}

/-- The number that characters stand for, if all of them are digits. -/
def read (b : Nat) (dec : α → Option Nat) (s : List α) : Option Nat :=
  (s.mapM dec).map (value b)

/-- Encoded digits are read as the number that they stand for. -/
theorem read_map (hdec : ∀ d < b, dec (enc d) = some d) (hds : ∀ d ∈ ds, d < b) :
    read b dec (ds.map enc) = some (value b ds) := by
  have hmap : (ds.map enc).mapM dec = some ds := by
    induction ds with
    | nil => rfl
    | cons d ds ih =>
        have hd := hdec d (hds d List.mem_cons_self)
        have ih' := ih fun e he => hds e (List.mem_cons_of_mem _ he)
        simp [List.mapM_cons, hd, ih']
  rw [read, hmap]
  rfl

theorem eq_map_of_mapM {s : List α} (hdec : ∀ c d, dec c = some d → c = enc d ∧ d < b)
    (h : s.mapM dec = some ds) : s = ds.map enc ∧ ∀ d ∈ ds, d < b := by
  induction s generalizing ds with
  | nil =>
      cases h
      simp
  | cons c s ih =>
      rw [List.mapM_cons] at h
      obtain ⟨d, hd, hrest⟩ := Option.bind_eq_some_iff.mp h
      obtain ⟨es, hes, heq⟩ := Option.bind_eq_some_iff.mp hrest
      cases heq
      obtain ⟨rfl, hlt⟩ := hdec c d hd
      obtain ⟨rfl, hall⟩ := ih hes
      exact ⟨rfl, List.forall_mem_cons.mpr ⟨hlt, hall⟩⟩

/-- Characters that are read as a number are encoded digits of it. -/
theorem exists_of_read {s : List α} (hdec : ∀ c d, dec c = some d → c = enc d ∧ d < b)
    (h : read b dec s = some n) :
    ∃ ds, s = ds.map enc ∧ (∀ d ∈ ds, d < b) ∧ value b ds = n := by
  obtain ⟨ds, hds, hvalue⟩ := Option.map_eq_some_iff.mp h
  obtain ⟨hs, hlt⟩ := eq_map_of_mapM hdec hds
  exact ⟨ds, hs, hlt, hvalue⟩

end read

end Numeral
