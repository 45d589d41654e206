import Mathlib.Data.List.Basic

/-!
# Computations with output

A computation returns a value and writes tokens, or its behaviour is undefined.
In sequence the output of the first part comes first.
-/

universe u v

/-- A computation that writes tokens of type `ω`. -/
def Output (ω : Type u) (α : Type v) : Type (max u v) := Option (α × List ω)

namespace Output

variable {ω : Type u} {α β : Type v}

/-- A computation without a meaning. -/
def undefined : Output ω α := none

/-- Write some tokens. -/
def write (text : List ω) : Output ω Unit := some ((), text)

instance : Monad (Output ω) where
  pure a := some (a, [])
  bind x f := Option.bind x fun (a, s) => Option.map (fun (b, t) => (b, s ++ t)) (f a)

/-- `x` returns `a` and writes `text`. -/
def Writes (x : Output ω α) (a : α) (text : List ω) : Prop := x = some (a, text)

namespace Writes

variable {x : Output ω α} {f : α → Output ω β} {a : α} {b : β} {s t : List ω}

theorem pure : (Pure.pure a : Output ω α).Writes a [] := rfl

theorem write : (Output.write s).Writes () s := rfl

theorem bind (h : x.Writes a s) (hf : (f a).Writes b t) : (x >>= f).Writes b (s ++ t) := by
  have hx : x = some (a, s) := h
  have hy : f a = some (b, t) := hf
  change Option.bind x _ = _
  simp [hx, hy]

/-- A computation has one result. -/
theorem unique {a' : α} (h : x.Writes a s) (h' : x.Writes a' t) : a' = a ∧ t = s := by
  have heq := Option.some.inj (h'.symm.trans h)
  exact ⟨congrArg Prod.fst heq, congrArg Prod.snd heq⟩

/-- The operands of a sum are computed from left to right. -/
theorem add {x y : Output ω Int} {m n : Int} (hx : x.Writes m s) (hy : y.Writes n t) :
    (do return (← x) + (← y) : Output ω Int).Writes (m + n) (s ++ t) := by
  have hsum := hx.bind (f := fun m => do return m + (← y))
    (hy.bind (f := fun n => Pure.pure (m + n)) Writes.pure)
  simpa only [List.append_nil] using hsum

theorem map {g : α → β} (hx : x.Writes a s) : (do return g (← x) : Output ω β).Writes (g a) s := by
  have hmap := hx.bind (f := fun a => Pure.pure (g a)) Writes.pure
  simpa only [List.append_nil] using hmap

end Writes

/-- `x` returns the number of tokens that it writes. -/
def Counts (x : Output ω Int) (text : List ω) : Prop := x.Writes text.length text

namespace Counts

variable {x y : Output ω Int} {s t : List ω}

theorem zero : (Pure.pure 0 : Output ω Int).Counts [] := Writes.pure

theorem add (hx : x.Counts s) (hy : y.Counts t) :
    (do return (← x) + (← y) : Output ω Int).Counts (s ++ t) := by
  have hsum := Writes.add hx hy
  rwa [← Int.natCast_add, ← List.length_append] at hsum

end Counts

/-- `x` writes `k` tokens more than the number that it returns. -/
def Exceeds (k : Int) (x : Output ω Int) : Prop :=
  ∃ n text, x.Writes n text ∧ (text.length : Int) = n + k

theorem Counts.exceeds {x : Output ω Int} {s : List ω} (h : x.Counts s) : x.Exceeds 0 :=
  ⟨_, _, h, (Int.add_zero _).symm⟩

namespace Exceeds

variable {x y : Output ω Int} {k : Int}

/-- After a part that counts what it writes. -/
theorem add (hx : x.Exceeds 0) (hy : y.Exceeds k) :
    (do return (← x) + (← y) : Output ω Int).Exceeds k := by
  obtain ⟨m, s, hx, hs⟩ := hx
  obtain ⟨n, t, hy, ht⟩ := hy
  refine ⟨m + n, s ++ t, Writes.add hx hy, ?_⟩
  rw [List.length_append, Int.natCast_add, hs, ht]
  omega

/-- After one token that is not counted yet. -/
theorem succ {a : ω} (hx : x.Exceeds k) :
    ∃ n text, (do return (← x) + 1 : Output ω Int).Writes n text ∧
      ((a :: text).length : Int) = n + k := by
  obtain ⟨n, s, hx, hs⟩ := hx
  refine ⟨n + 1, s, hx.map (g := (· + 1)), ?_⟩
  rw [List.length_cons, Int.natCast_add, hs]
  omega

end Exceeds

end Output
