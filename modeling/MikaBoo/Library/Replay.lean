import Mathlib.Logic.Function.Basic

/-!
# Replayed writes

A memory is a function from places to values. After a list of writes a place holds the value of the
last write to it or, if there is none, what it held before.
-/

namespace Replay

variable {P V : Type*} [DecidableEq P] {ws ws' : List (P × V)} {f : P → V} {p : P} {v : V}

/-- The memory after the writes, the first one first. -/
def replay (ws : List (P × V)) (f : P → V) : P → V :=
  ws.foldl (fun f w => Function.update f w.1 w.2) f

@[simp] theorem replay_nil : replay [] f = f := rfl

@[simp] theorem replay_cons : replay ((p, v) :: ws) f = replay ws (Function.update f p v) := rfl

theorem replay_append : replay (ws ++ ws') f = replay ws' (replay ws f) := List.foldl_append

/-- A place that nothing is written to. -/
theorem replay_of_forall_ne (h : ∀ w ∈ ws, w.1 ≠ p) : replay ws f p = f p := by
  induction ws generalizing f with
  | nil => rfl
  | cons w ws ih =>
      have hp := h w List.mem_cons_self
      have htail := ih (f := Function.update f w.1 w.2) fun w hw => h w (List.mem_cons_of_mem _ hw)
      exact htail.trans (Function.update_of_ne (Ne.symm hp) _ _)

end Replay
