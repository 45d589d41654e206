import MikaBoo.Abstract.Lifecycle
import MikaBoo.Abstract.Reachable

/-!
# The scheduling state

In runs without pass-ups every allocated thread, and the SSI, is running, ready
or receiving, and in the one queue that belongs to what it is doing.
-/

namespace MikaBoo

open Transition

/-- A regular run's event that passes no thread up. -/
def Plain (k : Kernel) (e : Event) : Prop := Regular k e ∧ passesUpTo k e = none

instance (k : Kernel) (e : Event) : Decidable (Plain k e) :=
  inferInstanceAs (Decidable (_ ∧ _))

theorem eventScope_of_plain {k : Kernel} {e : Event} (h : passesUpTo k e = none) :
    eventScope k e ≠ .passUp := by
  cases e with
  | ssi =>
      change ssiScope k ≠ .passUp
      unfold ssiScope
      cases k.request with
      | none => simp
      | some q => cases q <;> simp [Request.scope]
  | _ => simp [eventScope, h]

/-- Every thread is free, running, ready or receiving. -/
def Config.Unpassed (c : Config) : Prop := ∀ t s, c.view.Stands c.on t s → s ≠ .passedUp

theorem Lifecycle.ne_passedUp {scope : Scope} {s s' : Standing} (hscope : scope ≠ .passUp)
    (h : Lifecycle scope s s') (hs : s ≠ .passedUp) : s' ≠ .passedUp := by
  cases h with
  | stay => exact hs
  | passUp allowed => exact absurd allowed hscope
  | _ => simp

theorem Config.Unpassed.moves {scope : Scope} {c c' : Config} (hscope : scope ≠ .passUp)
    (hc : c.Ok) (ms : Moves scope c c') (U : c.Unpassed) : c'.Unpassed := by
  intro t s' hs'
  obtain ⟨s, hs⟩ := hc.inv.stands hc.real t
  obtain ⟨s₁, hne, hs₁⟩ := ms.lifecycle (P := (· ≠ .passedUp))
    (fun _ _ hl => hl.ne_passedUp hscope) hs (U t s hs)
  rwa [hs'.unique hs₁]

theorem unpassed_boot {hw : Hardware} {k : Kernel} (h : boot hw = .ok k) :
    Config.Unpassed ⟨k.view, k.currentThread⟩ := by
  intro t s hs
  rintro rfl
  have hr : Realised k.view := ⟨k, (Good.boot h).refines⟩
  obtain ⟨k', hk', R⟩ := boot_ok hw
  obtain rfl := Except.ok.inj (h.symm.trans hk')
  have hm := (hs.mem_iff hr .blockedq).mpr rfl
  rw [← R.eq_view] at hm
  simp [bootedView, View.create, View.addCount, View.enqueue, View.modTcb, View.hire,
    bootView] at hm

/-- The scheduling queues are circular lists of allocated threads, and every
allocated thread does exactly one thing, other than being passed up. -/
structure Orderly (k : Kernel) (r : Option Tcb) : Prop where
  queues : Intrusive.Represents schedLayout k.schedLinks k.view.sched
  members : ∀ h, ∀ t ∈ k.view.sched h, t ∉ k.view.threads .free
  situation : ∀ t, t ∉ k.view.threads .free →
    ∃! s, s ≠ .free ∧ s ≠ .passedUp ∧ k.view.Stands r t s

theorem Config.Unpassed.orderly {k : Kernel} {r : Option Tcb} (R : Refines k k.view)
    (hc : Config.Ok ⟨k.view, r⟩) (U : Config.Unpassed ⟨k.view, r⟩) : Orderly k r where
  queues := R.sched
  members := by
    intro h t ht hfree
    exact hc.inv.scheduled.allocated ht (hc.inv.owned.status.mpr (hc.inv.owned.free.mp hfree))
  situation := by
    intro t ht
    obtain ⟨s, hs⟩ := hc.inv.stands hc.real t
    refine ⟨s, ⟨?_, U t s hs, hs⟩, fun s' hs' => hs'.2.2.unique hs⟩
    rintro rfl
    exact ht (hc.inv.owned.free.mpr (hc.inv.owned.status.mp hs.status))

theorem unpassed_run {hw : Hardware} {k₀ k : Kernel} {es : List Event} (hb : boot hw = .ok k₀)
    (run : Run (GuardedStep Plain) k₀ es k) :
    Good k ∧ Config.Unpassed ⟨k.view, k.currentThread⟩ := by
  apply run.invariant (P := fun k => Good k ∧ Config.Unpassed ⟨k.view, k.currentThread⟩)
  · rintro k e k' ⟨H, U⟩ ⟨⟨hr, hp⟩, fuel, h⟩
    obtain ⟨H', ms⟩ := H.step hr h
    exact ⟨H', U.moves (eventScope_of_plain hp) H.ok ms⟩
  · exact ⟨.boot hb, unpassed_boot hb⟩

/-- In every run from the boot state without pass-ups the scheduling state is in
order: between two kernel entries, where `current_thread` is on the processor,
and when a handler ends, where nobody is if the scheduler comes next. -/
theorem scheduling_state {hw : Hardware} {k₀ k : Kernel} {es : List Event}
    (hb : boot hw = .ok k₀) (run : Run (GuardedStep Plain) k₀ es k) :
    Orderly k k.currentThread ∧ ∀ fuel e x k', Plain k e → entry fuel k e = .ok (x, k') →
      Orderly k' (x.on k'.currentThread) := by
  obtain ⟨H, U⟩ := unpassed_run hb run
  refine ⟨U.orderly H.refines H.ok, fun fuel e x k' hp h => ?_⟩
  obtain ⟨L, _⟩ := H.entry hp.1 h
  rw [L.thread]
  exact (U.moves (eventScope_of_plain hp.2) H.ok L.goes.moves).orderly L.goes.refines L.goes.ok

/-- The first thread creates another one, which receives from itself, and is preempted. -/
theorem scheduling_state_sample : ∃ k₀ k,
    boot Sample.hardware = .ok k₀ ∧ Run (GuardedStep Plain) k₀
      ([.start, .ssi] ++ Sample.service [.int 2, .int 0x200] ++ Sample.recv (some (.thread 1)) [] ++
        [.run {} (Sample.memory []) 5000, .interrupt fun _ => 0]) k ∧
      Orderly k k.currentThread := by
  have h : (execute Plain Sample.hardware 100
      ([.start, .ssi] ++ Sample.service [.int 2, .int 0x200] ++ Sample.recv (some (.thread 1)) [] ++
        [.run {} (Sample.memory []) 5000, .interrupt fun _ => 0])).isSome = true := by
    decide +kernel
  obtain ⟨k, hk⟩ := Option.isSome_iff_exists.mp h
  obtain ⟨k₀, hb, run⟩ := run_of_execute hk
  exact ⟨k₀, k, hb, run, (scheduling_state hb run).1⟩

end MikaBoo
