import MikaBoo.Abstract.Reachable

/-!
# The kernel refines the abstract machine

The abstract machine has lists instead of links, and moves between configurations that keep the
invariant. Every kernel event of a regular run is some moves of it, of the kinds that the event
allows.
-/

namespace MikaBoo

open Intrusive Fuel Transition

/-- The kinds of moves that a kernel event allows. Only the SSI creates and terminates, and only
the handlers of system calls and traps pass threads up. -/
def Event.Allows : Event → Scope → Prop
  | .ssi, scope => scope ≠ .passUp
  | .syscall, scope | .pgmtrap _, scope | .tlbtrap _, scope => scope = .plain ∨ scope = .passUp
  | _, scope => scope = .plain

/-- The abstract machine's part of a kernel event. -/
def Turn (c : Config) (scope : Scope) (c' : Config) : Prop := Moves scope c c'

/-- A kernel state realises a configuration. -/
structure Represented (k : Kernel) (c : Config) : Prop where
  refines : Refines k c.view
  on : c.on = k.currentThread
  ok : c.Ok

theorem eventScope_allowed (k : Kernel) (e : Event) : e.Allows (eventScope k e) := by
  have hpass : ∀ e', eventScope k e' = (if passesUpTo k e' = none then .plain else .passUp) →
      eventScope k e' = .plain ∨ eventScope k e' = .passUp := by
    intro e' he
    rw [he]
    split
    · exact Or.inl rfl
    · exact Or.inr rfl
  cases e with
  | ssi =>
      change k.request.elim .plain Request.scope ≠ .passUp
      cases k.request with
      | none => simp
      | some q => cases q <;> simp [Request.scope]
  | syscall => exact hpass _ rfl
  | pgmtrap cause => exact hpass (.pgmtrap cause) rfl
  | tlbtrap cause => exact hpass (.tlbtrap cause) rfl
  | _ => rfl

/-- `main` comes to its first call of `scheduler` with the SSI and the first thread ready, and every
regular run from there is a run of the abstract machine from the same configuration. -/
theorem kernel_refines (hw : Hardware) :
    ∃ k₀, boot hw = .ok k₀ ∧ Represented k₀ ⟨bootedView hw, none⟩ ∧
      ∀ es k, Run RegularStep k₀ es k →
        ∃ scopes c, List.Forall₂ Event.Allows es scopes ∧
          Run Turn ⟨bootedView hw, none⟩ scopes c ∧ Represented k c := by
  obtain ⟨k₀, hb, R⟩ := boot_ok hw
  have hboot : Represented k₀ ⟨bootedView hw, none⟩ := by
    refine ⟨R, ?_, bootedView_ok ⟨k₀, R⟩⟩
    have hcreate : ∀ (v : View) (t p s),
        (v.create t p s).globals.currentThread = v.globals.currentThread := fun _ _ _ _ => rfl
    have hcur := (hcreate (bootView hw) (.thread 0) root
      (stateInit hw 2 hw.test SYS_MODE_INT_DISABLED)).trans (bootView_processor hw).1
    exact hcur.symm.trans (congrArg Globals.currentThread R.globals)
  refine ⟨k₀, hb, hboot, fun es k run => ?_⟩
  have H := Good.boot hb
  have hstep : ∀ k e k' c, Good k ∧ c = ⟨k.view, k.currentThread⟩ → RegularStep k e k' →
      ∃ scope c', e.Allows scope ∧ Turn c scope c' ∧ Good k' ∧ c' = ⟨k'.view, k'.currentThread⟩ := by
    rintro k e k' c ⟨H, rfl⟩ ⟨hr, fuel, h⟩
    obtain ⟨H', moves⟩ := H.step hr h
    exact ⟨eventScope k e, _, eventScope_allowed k e, moves, H', rfl⟩
  have hconfig : (⟨bootedView hw, none⟩ : Config) = ⟨k₀.view, k₀.currentThread⟩ := by
    rw [R.eq_view, ← hboot.on]
  obtain ⟨scopes, c, hallowed, run', H', rfl⟩ := run.simulate hstep ⟨H, hconfig⟩
  exact ⟨scopes, _, hallowed, run', H'.refines, rfl, H'.ok⟩

end MikaBoo
