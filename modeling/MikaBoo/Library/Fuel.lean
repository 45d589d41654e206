import Mathlib.Order.Lattice
import Mathlib.Order.Nat

/-!
# Loops with fuel

A loop that may not end is a function of a number of rounds; with too few
rounds it fails with one fixed error. `Returns` says that it does end: from some
number of rounds on it gives one and the same result.
-/

namespace Fuel

universe u v

variable {ε : Type u} {α β : Type v}

@[simp] theorem ok_bind (a : α) (f : α → Except ε β) : (Except.ok a >>= f) = f a := rfl

@[simp] theorem error_bind (e : ε) (f : α → Except ε β) :
    (Except.error e >>= f) = Except.error e := rfl

/-- A computation in sequence succeeds when both parts do. -/
theorem bind_eq_ok {x : Except ε α} {f : α → Except ε β} {b : β} :
    (x >>= f) = .ok b ↔ ∃ a, x = .ok a ∧ f a = .ok b := by
  cases x with
  | error e => simp
  | ok a => simp

/-- A computation in sequence fails when one of the parts does. -/
theorem bind_eq_error {x : Except ε α} {f : α → Except ε β} {e : ε} :
    (x >>= f) = .error e ↔ x = .error e ∨ ∃ a, x = .ok a ∧ f a = .error e := by
  cases x with
  | error e => simp
  | ok a => simp

/-- `f` returns one result, with the property `P`, from some number of rounds
on; with fewer rounds it may instead fail with `late`. -/
def Returns (late : ε) (f : Nat → Except ε α) (P : α → Prop) : Prop :=
  ∃ a, P a ∧ ∃ N, ∀ n, f n = .ok a ∨ (f n = .error late ∧ n < N)

variable {late : ε} {f : Nat → Except ε α} {P : α → Prop}

/-- Whatever number of rounds gives a result, the result has the property. -/
theorem Returns.sound (h : Returns late f P) {n : Nat} {a : α} (hf : f n = .ok a) : P a := by
  obtain ⟨b, hb, N, hN⟩ := h
  rcases hN n with h | ⟨h, _⟩
  · exact Except.ok.inj (h.symm.trans hf) ▸ hb
  · rw [h] at hf
    cases hf

/-- Some number of rounds gives a result. -/
theorem Returns.complete (h : Returns late f P) : ∃ n a, f n = .ok a ∧ P a := by
  obtain ⟨a, ha, N, hN⟩ := h
  rcases hN N with h | ⟨_, h⟩
  · exact ⟨N, a, h, ha⟩
  · omega

/-- The only error is the lack of rounds. -/
theorem Returns.error_eq (h : Returns late f P) {n : Nat} {e : ε} (hf : f n = .error e) :
    e = late := by
  obtain ⟨b, hb, N, hN⟩ := h
  rcases hN n with h | ⟨h, _⟩
  · rw [h] at hf
    cases hf
  · exact Except.error.inj (hf.symm.trans h)

theorem Returns.of_ok {a : α} (ha : P a) (h : ∀ n, f n = .ok a) : Returns late f P :=
  ⟨a, ha, 0, fun n => Or.inl (h n)⟩

theorem Returns.mono {Q : α → Prop} (h : Returns late f P) (hPQ : ∀ a, P a → Q a) :
    Returns late f Q := by
  obtain ⟨a, ha, N, hN⟩ := h
  exact ⟨a, hPQ a ha, N, hN⟩

/-- Sequencing. -/
theorem Returns.bind {g : Nat → α → Except ε β} {Q : β → Prop} (hf : Returns late f P)
    (hg : ∀ a, P a → Returns late (fun n => g n a) Q) :
    Returns late (fun n => f n >>= g n) Q := by
  obtain ⟨a, ha, N, hN⟩ := hf
  obtain ⟨b, hb, M, hM⟩ := hg a ha
  refine ⟨b, hb, max N M, fun n => ?_⟩
  rcases hN n with h | ⟨h, hn⟩
  · rcases hM n with h' | ⟨h', hn⟩
    · exact Or.inl (by simp [h, h'])
    · exact Or.inr ⟨by simp [h, h'], lt_of_lt_of_le hn (le_max_right _ _)⟩
  · exact Or.inr ⟨by simp [h], lt_of_lt_of_le hn (le_max_left _ _)⟩

/-- One round of a loop. -/
theorem Returns.round {g : Nat → Except ε α} (hz : g 0 = .error late)
    (hs : ∀ n, g (n + 1) = f n) (hf : Returns late f P) : Returns late g P := by
  obtain ⟨a, ha, N, hN⟩ := hf
  refine ⟨a, ha, N + 1, fun n => ?_⟩
  cases n with
  | zero => exact Or.inr ⟨hz, by omega⟩
  | succ n =>
      rw [hs]
      exact (hN n).imp_right fun h => ⟨h.1, by omega⟩

/-- `f` comes to one outcome, with the property `Q`, from some number of rounds on; with fewer
rounds it may instead fail with `late`. -/
def Settles (late : ε) (f : Nat → Except ε α) (Q : Except ε α → Prop) : Prop :=
  ∃ r, Q r ∧ ∃ N, ∀ n, f n = r ∨ (f n = .error late ∧ n < N)

variable {Q : Except ε α → Prop}

theorem Settles.of_eq {r : Except ε α} (hr : Q r) (h : ∀ n, f n = r) : Settles late f Q :=
  ⟨r, hr, 0, fun n => Or.inl (h n)⟩

/-- Some number of rounds is enough. -/
theorem Settles.complete (h : Settles late f Q) : ∃ N, ∀ n, N ≤ n → Q (f n) := by
  obtain ⟨r, hr, N, hN⟩ := h
  refine ⟨N, fun n hn => ?_⟩
  rcases hN n with h | ⟨_, h⟩
  · rwa [h]
  · omega

theorem Returns.settles (h : Returns late f P) (hQ : ∀ a, P a → Q (.ok a)) :
    Settles late f Q := by
  obtain ⟨a, ha, N, hN⟩ := h
  exact ⟨.ok a, hQ a ha, N, hN⟩

/-- Sequencing: the second part settles after each result of the first. -/
theorem Settles.bind {g : Nat → α → Except ε β} {Q' : Except ε β → Prop} (hf : Settles late f Q)
    (hg : ∀ n a, f n = .ok a → Settles late (fun n => g n a) Q')
    (he : ∀ e, Q (.error e) → Q' (.error e)) : Settles late (fun n => f n >>= g n) Q' := by
  obtain ⟨r, hr, N, hN⟩ := hf
  cases r with
  | error e =>
      refine ⟨.error e, he e hr, N, fun n => ?_⟩
      exact (hN n).imp (fun h => by simp [h]) fun h => ⟨by simp [h.1], h.2⟩
  | ok a =>
      have hfa : f N = .ok a := (hN N).resolve_right fun h => lt_irrefl _ h.2
      obtain ⟨r, hr, M, hM⟩ := hg N a hfa
      refine ⟨r, hr, max N M, fun n => ?_⟩
      rcases hN n with h | ⟨h, hn⟩
      · rcases hM n with h' | ⟨h', hn⟩
        · exact Or.inl (by simp [h, h'])
        · exact Or.inr ⟨by simp [h, h'], lt_of_lt_of_le hn (le_max_right _ _)⟩
      · exact Or.inr ⟨by simp [h], lt_of_lt_of_le hn (le_max_left _ _)⟩

end Fuel
