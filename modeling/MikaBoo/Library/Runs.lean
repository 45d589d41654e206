import Mathlib.Data.List.Forall2
import Mathlib.Logic.Relation

/-!
# Runs of a labelled transition relation

A run lists the events in the order in which they happen. It is built at its
end, so an induction on a run is an induction on the last step.
-/

namespace Transition

variable {S E : Type*} {step : S → E → S → Prop}

/-- A finite run. -/
inductive Run (step : S → E → S → Prop) : S → List E → S → Prop
  | nil {s} : Run step s [] s
  | snoc {s t u es e} (run : Run step s es t) (last : step t e u) : Run step s (es ++ [e]) u

/-- A property that every step preserves holds at the end of a run if it holds
at the start. -/
theorem Run.invariant {P : S → Prop} (hstep : ∀ s e t, P s → step s e t → P t)
    {s t : S} {es : List E} (run : Run step s es t) (hs : P s) : P t := by
  induction run with
  | nil => exact hs
  | snoc _ last ih => exact hstep _ _ _ ih last

theorem Run.append {s t u : S} {es fs : List E} (h₁ : Run step s es t) (h₂ : Run step t fs u) :
    Run step s (es ++ fs) u := by
  induction h₂ with
  | nil => simpa using h₁
  | snoc _ last ih => simpa [List.append_assoc] using ih.snoc last

theorem Run.eq_of_nil {s t : S} (run : Run step s [] t) : s = t := by
  generalize hes : [] = es at run
  cases run with
  | nil => rfl
  | snoc => simp at hes

theorem Run.of_single {s t : S} {e : E} (run : Run step s [e] t) : step s e t := by
  generalize hes : [e] = es at run
  cases run with
  | nil => cases hes
  | snoc run last =>
      obtain ⟨rfl, he⟩ := List.append_inj' (List.nil_append [e] |>.trans hes) rfl
      cases he
      obtain rfl := run.eq_of_nil
      exact last

theorem Run.single {s t : S} {e : E} (h : step s e t) : Run step s [e] t :=
  Run.nil.snoc h

theorem Run.cons {s t u : S} {e : E} {es : List E} (rest : Run step t es u) (first : step s e t) :
    Run step s (e :: es) u :=
  (Run.single first).append rest

theorem Run.split {s u : S} {es fs : List E} (run : Run step s (es ++ fs) u) :
    ∃ t, Run step s es t ∧ Run step t fs u := by
  generalize hgs : es ++ fs = gs at run
  induction run generalizing fs with
  | nil =>
      obtain ⟨rfl, rfl⟩ := List.append_eq_nil_iff.mp hgs
      exact ⟨_, .nil, .nil⟩
  | @snoc t u gs e run last ih =>
      rcases fs.eq_nil_or_concat with rfl | ⟨fs, e', rfl⟩
      · rw [List.append_nil] at hgs
        rw [hgs]
        exact ⟨u, run.snoc last, .nil⟩
      · rw [List.concat_eq_append, ← List.append_assoc] at hgs
        obtain ⟨hpre, he⟩ := List.append_inj' hgs rfl
        cases he
        obtain ⟨w, run₁, run₂⟩ := ih hpre
        rw [List.concat_eq_append]
        exact ⟨w, run₁, run₂.snoc last⟩

/-- The steps of a run that another relation contains, given the events that happen. -/
theorem Run.mono_of_mem {step' : S → E → S → Prop} {s t : S} {es : List E}
    (run : Run step s es t) (h : ∀ s e t, e ∈ es → step s e t → step' s e t) :
    Run step' s es t := by
  induction run with
  | nil => exact .nil
  | snoc _ last ih =>
      apply (ih fun s e t he => h s e t (by simp [he])).snoc
      exact h _ _ _ (by simp) last

/-- A run of states with something added is a run without it. -/
theorem Run.map {S' : Type*} {step' : S' → E → S' → Prop} (f : S → S')
    (h : ∀ s e t, step s e t → step' (f s) e (f t)) {s t : S} {es : List E} (run : Run step s es t) :
    Run step' (f s) es (f t) := by
  induction run with
  | nil => exact .nil
  | snoc _ last ih => exact ih.snoc (h _ _ _ last)

/-- Forward simulation: if every step is matched by a step of another relation between related
states, with a related event, then so is every run. -/
theorem Run.simulate {S' E' : Type*} {step' : S' → E' → S' → Prop} {rel : S → S' → Prop}
    {lab : E → E' → Prop}
    (hstep : ∀ s e t s', rel s s' → step s e t → ∃ e' t', lab e e' ∧ step' s' e' t' ∧ rel t t')
    {s t : S} {s' : S'} {es : List E} (run : Run step s es t) (hs : rel s s') :
    ∃ es' t', List.Forall₂ lab es es' ∧ Run step' s' es' t' ∧ rel t t' := by
  induction run with
  | nil => exact ⟨[], s', .nil, .nil, hs⟩
  | snoc _ last ih =>
      obtain ⟨es', t', hmatch, run', ht⟩ := ih
      obtain ⟨e', u', he, hu, hrel⟩ := hstep _ _ _ _ ht last
      exact ⟨es' ++ [e'], u', List.rel_append hmatch (.cons he .nil), run'.snoc hu, hrel⟩

/-- A list of events that a step function executes is a run. -/
theorem Run.of_foldlM {f : S → E → Option S} (hf : ∀ s e t, f s e = some t → step s e t)
    {s t : S} {es : List E} (h : es.foldlM f s = some t) : Run step s es t := by
  induction es generalizing s with
  | nil =>
      cases h
      exact .nil
  | cons e es ih =>
      rw [List.foldlM_cons] at h
      obtain ⟨u, hu, h⟩ := Option.bind_eq_some_iff.mp h
      exact (ih h).cons (hf s e u hu)

end Transition
