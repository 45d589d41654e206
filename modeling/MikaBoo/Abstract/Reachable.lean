import MikaBoo.Abstract.Serving
import MikaBoo.Abstract.Boot

/-!
# Regular runs

In a regular run the SSI serves no WAIT_FOR_CLOCK, and serves each request that
may terminate threads for an applicant that is allocated at that moment. Every
step of such a run is a sequence of moves of the abstract kernel.
-/

namespace MikaBoo

open Intrusive Fuel Transition

/-- If the SSI serves a request next, it is not WAIT_FOR_CLOCK, and if it may
terminate threads then its applicant is allocated. -/
def Regular (k : Kernel) : Event → Prop
  | .ssi => ∀ q ∈ k.request, q ≠ .waitForClock ∧
      (q.scope = .terminate → ∀ t ∈ k.applicant, k.Allocated t)
  | _ => True

instance (k : Kernel) (e : Event) : Decidable (Regular k e) := by
  cases e <;> unfold Regular <;> infer_instance

/-- A step from a state, with an event, that meet the condition. -/
def GuardedStep (guard : Kernel → Event → Prop) (k : Kernel) (e : Event) (k' : Kernel) : Prop :=
  guard k e ∧ Step k e k'

/-- A step of a regular run. -/
abbrev RegularStep : Kernel → Event → Kernel → Prop := GuardedStep Regular

/-- The manager that the event passes the running thread up to. -/
def passesUpTo (k : Kernel) : Event → Option Tcb
  | .syscall => syscallManager { k with sysbkOldarea := k.cpu }
  | .pgmtrap _ => k.managers.pgmMgr
  | .tlbtrap _ => k.managers.tlbMgr
  | _ => none

/-- What the event may do. -/
def eventScope (k : Kernel) : Event → Scope
  | .ssi => ssiScope k
  | e => if passesUpTo k e = none then .plain else .passUp

/-- The SSI, on the processor with a request, has an applicant with the property `P` in `a1`. -/
def Kernel.Holds (k : Kernel) (P : Tcb → Prop) : Prop :=
  k.currentThread = some .ssi → k.ssiPoint = .serving → ∃ t, k.cpu.a1 = .tcb t ∧ P t

/-- The invariant of regular runs. -/
structure Good (k : Kernel) : Prop where
  refines : Refines k k.view
  ok : Config.Ok ⟨k.view, k.currentThread⟩
  holds : k.Holds (· ≠ .ssi)
  waiting : k.mode = .waiting →
    k.currentThread = none ∧ k.isIdle = true ∧ k.view.sched .readyq = []
  awake : k.mode ≠ .waiting → k.isIdle = false
  running : k.mode = .running → k.currentThread ≠ none
  booting : k.mode = .booting → k.currentThread = none

/-- When the handler comes back to the SSI with a request, the request was queued
in the state `k`, or the SSI held it already. -/
def Exit.Answers (x : Exit) (k k' : Kernel) : Prop :=
  ∀ st, x = .resume st → k'.currentThread = some .ssi → k'.ssiPoint = .serving →
    (∃ e ∈ k.view.mailbox .ssi, st.a1 = tcbPtr e.mSender) ∨
      k.currentThread = some .ssi ∧ k.ssiPoint = .serving ∧ st.a1 = k.cpu.a1

/-- The scheduler waits when nobody is ready, and otherwise starts the first ready thread. -/
theorem Goes.scheduler {scope : Scope} {c : Config} {k k' : Kernel} (G : Goes scope c k none)
    (h : MikaBoo.scheduler k = .ok k') : Goes scope c k' k'.currentThread ∧
      ((k.view.sched .readyq = [] ∧ k'.view.sched .readyq = [] ∧ k'.currentThread = none ∧
          k'.isIdle = true ∧ k'.mode = .waiting) ∨
        ∃ t rest, k.view.sched .readyq = t :: rest ∧ k'.currentThread = some t ∧
          k'.isIdle = k.isIdle ∧ k'.mode = .running ∧ k'.ssiPoint = k.ssiPoint ∧
          k'.cpu = (k.tcb t).tS) := by
  simp only [MikaBoo.scheduler] at h
  cases hq : k.view.sched .readyq with
  | nil =>
      rw [G.refines.dequeue_nil hq] at h
      simp only [ok_bind, emptyReadyqH] at h
      split at h
      · cases h
      · split at h
        · cases h
        · obtain ⟨_, _, h⟩ := bind_eq_ok.mp h
          cases h
          exact ⟨G.setGlobals { G.refines with globals := rfl } rfl (Or.inr rfl) fun _ hi => hi,
            Or.inl ⟨rfl, hq, rfl, rfl, rfl⟩⟩
  | cons t rest =>
      obtain ⟨k₂, hk₂, R₂⟩ := G.refines.dequeue_cons hq
      rw [hk₂] at h
      simp only [ok_bind, Except.ok.injEq] at h
      subst h
      have G₂ := G.act (.dispatch hq) R₂
      have hg := R₂.globals.symm
      have htcb : k₂.tcb = k.tcb := R₂.tcb.symm
      refine ⟨G₂.setGlobals { G₂.refines with globals := rfl } rfl (Or.inr rfl) fun _ hi => hi,
        Or.inr ⟨t, rest, rfl, rfl, congrArg Globals.isIdle hg, rfl,
          congrArg Globals.ssiPoint hg, by rw [htcb]⟩⟩

/-- The scheduler and `LDST` start the SSI with the applicant in `a1`. -/
theorem leave_holds {P : Tcb → Prop} {scope : Scope} {c : Config} {k k' : Kernel} {x : Exit}
    {r : Option Tcb} (G : Goes scope c k (x.on r))
    (hheld : ∀ {h}, .ssi ∈ k.view.sched h → (k.tcb .ssi).tStatus = .ready →
      k.ssiPoint = .serving → ∃ s, (k.tcb .ssi).tS.a1 = .tcb s ∧ P s)
    (hres : ∀ st, x = .resume st → k.currentThread = some .ssi → k.ssiPoint = .serving →
      ∃ t, st.a1 = .tcb t ∧ P t) (h : leave k x = .ok k') : k'.Holds P := by
  cases x with
  | resume st =>
      cases h
      exact hres st rfl
  | schedule =>
      have G₀ : Goes scope c k none := G
      intro ht hp
      obtain ⟨_, ⟨_, _, hnone, _⟩ | ⟨t, rest, hq, hcur, _, _, hpoint, hcpu⟩⟩ := G₀.scheduler h
      · rw [hnone] at ht
        cases ht
      · obtain rfl := Option.some.inj (hcur.symm.trans ht)
        have hmem : .ssi ∈ k.view.sched .readyq := by simp [hq]
        rw [hcpu]
        exact hheld hmem (G₀.inv.scheduled.fits hmem) (hpoint.symm.trans hp)

namespace Good

variable {k k' : Kernel} {e : Event} {fuel : Nat} {x : Exit}

theorem inv (H : Good k) : k.view.Inv k.currentThread := H.ok.inv

theorem goes {scope : Scope} (H : Good k) :
    Goes scope ⟨k.view, k.currentThread⟩ k k.currentThread :=
  .start H.refines H.ok

theorem idle (H : Good k) (hi : k.isIdle = true) : k.currentThread = none := by
  by_cases hm : k.mode = .waiting
  · exact (H.waiting hm).1
  · rw [H.awake hm] at hi
    cases hi

theorem user_of_userRuns (h : k.userRuns = true) : ∃ i, k.currentThread = some (.thread i) := by
  unfold Kernel.userRuns at h
  split at h
  · exact ⟨_, by assumption⟩
  · cases h

theorem eventScope_of_passesUp (hp : passesUpTo k e ≠ none) : eventScope k e = .passUp := by
  cases e with
  | ssi => exact absurd rfl hp
  | _ => simp_all [eventScope]

/-- A kernel entry makes moves, and leaves the processor to the same thread or to none. -/
theorem entry (H : Good k) (hr : Regular k e) (h : MikaBoo.entry fuel k e = .ok (x, k')) :
    Leaves (eventScope k e) ⟨k.view, k.currentThread⟩ k k.currentThread x k' ∧
      x.Answers k k' := by
  have huser : ∀ {i : Fin MAXTHREAD} (_ : k.currentThread = some (.thread i))
      (_ : Leaves (eventScope k e) ⟨k.view, k.currentThread⟩ k k.currentThread x k'),
      x.Answers k k' := by
    intro i hi L _ _ hssi
    rw [L.thread, hi] at hssi
    cases hssi
  cases e with
  | start =>
      simp only [MikaBoo.entry] at h
      split at h
      · rename_i hm
        cases h
        have hnone := H.booting hm
        refine ⟨⟨?_, rfl, rfl, Or.inl ⟨rfl, fun _ _ => rfl⟩⟩, fun _ hst => by cases hst⟩
        have G : Goes (eventScope k .start) ⟨k.view, k.currentThread⟩ k k.currentThread := H.goes
        rwa [hnone] at G ⊢
      · cases h
  | run cpu mem cycles =>
      simp only [MikaBoo.entry] at h
      split at h
      · rename_i hu
        cases h
        obtain ⟨i, hi⟩ := user_of_userRuns hu
        have L : Leaves (eventScope k (.run cpu mem cycles)) ⟨k.view, k.currentThread⟩ k
            k.currentThread (.resume cpu) { k with mem := mem, timer := k.timer - cycles } :=
          ⟨H.goes.same { H.refines with }, rfl, rfl, Or.inl ⟨rfl, fun _ _ => rfl⟩⟩
        exact ⟨L, huser hi L⟩
      · cases h
  | elapse cycles =>
      simp only [MikaBoo.entry] at h
      split at h
      · cases h
        refine ⟨⟨H.goes.same { H.refines with }, rfl, rfl, Or.inl ⟨rfl, fun _ _ => rfl⟩⟩, ?_⟩
        rintro st hst ht hp
        cases hst
        exact Or.inr ⟨ht, hp, rfl⟩
      · cases h
  | edit t s =>
      simp only [MikaBoo.entry] at h
      split at h
      · rename_i hu
        cases h
        obtain ⟨i, hi⟩ := user_of_userRuns hu.1
        have L : Leaves (eventScope k (.edit t s)) ⟨k.view, k.currentThread⟩ k
            k.currentThread (.resume k.cpu) (k.modTcb t fun d => { d with tS := s }) :=
          ⟨H.goes.modTcb ⟨rfl, rfl, rfl⟩ (Or.inr hu.2.2.2), rfl, rfl,
            Or.inl ⟨rfl, fun _ _ => rfl⟩⟩
        exact ⟨L, huser hi L⟩
      · cases h
  | syscall =>
      simp only [MikaBoo.entry] at h
      split at h
      · rename_i hu
        obtain ⟨i, hi⟩ := user_of_userRuns hu
        let k₁ : Kernel := { k.enter with sysbkOldarea := k.cpu }
        have G₁ : Goes (eventScope k .syscall) ⟨k.view, k.currentThread⟩ k₁ (some (.thread i)) := by
          rw [← hi]
          exact H.goes.same { H.refines with }
        have L₁ := G₁.syscallH hi (by simp) (fun hm => eventScope_of_passesUp hm) h
        rw [← hi] at L₁
        have L := Leaves.mk (k := k) L₁.goes L₁.thread L₁.mode L₁.idle
        exact ⟨L, huser hi L⟩
      · cases h
  | pgmtrap cause =>
      simp only [MikaBoo.entry] at h
      split at h
      · rename_i hu
        obtain ⟨i, hi⟩ := user_of_userRuns hu
        let k₁ : Kernel := { k.enter with pgmtrapOldarea := { k.cpu with cp15Cause := cause } }
        have G₁ : Goes (eventScope k (.pgmtrap cause)) ⟨k.view, k.currentThread⟩ k₁
            (some (.thread i)) := by
          rw [← hi]
          exact H.goes.same { H.refines with }
        have L₁ := G₁.pgmtrapH hi (by simp) (fun hm => eventScope_of_passesUp hm) h
        rw [← hi] at L₁
        have L := Leaves.mk (k := k) L₁.goes L₁.thread L₁.mode L₁.idle
        exact ⟨L, huser hi L⟩
      · cases h
  | tlbtrap cause =>
      simp only [MikaBoo.entry] at h
      split at h
      · rename_i hu
        obtain ⟨i, hi⟩ := user_of_userRuns hu
        let k₁ : Kernel := { k.enter with tlbOldarea := { k.cpu with cp15Cause := cause } }
        have G₁ : Goes (eventScope k (.tlbtrap cause)) ⟨k.view, k.currentThread⟩ k₁
            (some (.thread i)) := by
          rw [← hi]
          exact H.goes.same { H.refines with }
        have L₁ := G₁.tlbtrapH hi (by simp) (fun hm => eventScope_of_passesUp hm) h
        rw [← hi] at L₁
        have L := Leaves.mk (k := k) L₁.goes L₁.thread L₁.mode L₁.idle
        exact ⟨L, huser hi L⟩
      · cases h
  | interrupt pending =>
      simp only [MikaBoo.entry] at h
      split at h
      · rename_i hp
        have hssi : k.currentThread ≠ some .ssi := by
          rcases hp.1 with hu | hw
          · obtain ⟨i, hi⟩ := user_of_userRuns hu
            simp [hi]
          · simp [(H.waiting hw).1]
        let k₁ : Kernel := { k.enter with intOldarea := k.cpu }
        have G₁ : Goes (eventScope k (.interrupt pending)) ⟨k.view, k.currentThread⟩ k₁
            k.currentThread := H.goes.same { H.refines with }
        have L₁ := G₁.interruptH rfl hssi H.idle h
        refine ⟨⟨L₁.goes, L₁.thread, L₁.mode, L₁.idle⟩, fun _ _ ht => ?_⟩
        exact absurd (L₁.thread.symm.trans ht) hssi
      · cases h
  | ssi =>
      simp only [MikaBoo.entry] at h
      split at h
      · rename_i hm
        have G : Goes (ssiScope k) ⟨k.view, k.currentThread⟩ k (some .ssi) := by
          rw [← hm.2]
          exact H.goes
        have ha : k.ssiPoint = .serving → k.applicant ≠ some .ssi := by
          intro hp
          obtain ⟨t, ht, hne⟩ := H.holds hm.2 hp
          simpa [Kernel.applicant, ht] using hne
        obtain ⟨L, hans⟩ := G.ssi hm.2 ha hr h
        rw [← hm.2] at L
        exact ⟨L, fun st hst _ hp => Or.inl (hans st hst hp).2⟩
      · cases h

/-- The end of a kernel entry. -/
theorem leave {scope : Scope} {k₁ : Kernel} (H : Good k)
    (L : Leaves scope ⟨k.view, k.currentThread⟩ k k.currentThread x k₁) (A : x.Answers k k₁)
    (h : MikaBoo.leave k₁ x = .ok k') :
    Good k' ∧ Moves scope ⟨k.view, k.currentThread⟩ ⟨k'.view, k'.currentThread⟩ := by
  have hholds : k'.Holds (· ≠ .ssi) := by
    apply leave_holds L.goes L.goes.ok.desk.held _ h
    intro st hst ht hp
    rcases A st hst ht hp with ⟨e, he, ha⟩ | ⟨ht, hp, ha⟩
    · obtain ⟨s, hs, hne⟩ := H.ok.desk.queued he
      exact ⟨s, by rw [ha, hs]; rfl, hne⟩
    · rw [ha]
      exact H.holds ht hp
  cases x with
  | resume s =>
      cases h
      have G := L.goes
      obtain ⟨hidle, hsame⟩ := L.idle.resolve_right (by simp)
      refine ⟨⟨{ G.refines with }, ?_, hholds, fun hw => ?_, fun hw => ?_, fun hr => ?_,
        fun hb => ?_⟩, ?_⟩
      · change Config.Ok ⟨k₁.view, k₁.currentThread⟩
        rw [L.thread]
        exact G.ok
      · obtain ⟨hnone, hi, hempty⟩ := H.waiting (L.mode.symm.trans hw)
        refine ⟨L.thread.trans hnone, hidle.trans hi, ?_⟩
        exact (congrFun (hsame hnone hi) .readyq).trans hempty
      · exact hidle.trans (H.awake (by rwa [← L.mode]))
      · change k₁.currentThread ≠ none
        rw [L.thread]
        exact H.running (L.mode.symm.trans hr)
      · exact L.thread.trans (H.booting (L.mode.symm.trans hb))
      · change Moves scope _ ⟨k₁.view, k₁.currentThread⟩
        rw [L.thread]
        exact G.moves
  | schedule =>
      have G : Goes scope ⟨k.view, k.currentThread⟩ k₁ none := L.goes
      obtain ⟨G', ⟨_, hempty, hnone, hidle, hmode⟩ | ⟨t, rest, hq, hcur, hidle, hmode, _, _⟩⟩ :=
        G.scheduler h
      · exact ⟨⟨G'.refines, G'.ok, hholds, fun _ => ⟨hnone, hidle, hempty⟩,
          fun hm => absurd hmode hm, fun hm => absurd (hmode.symm.trans hm) nofun,
          fun _ => hnone⟩, G'.moves⟩
      · -- an idle processor has nobody to dispatch
        have hawake : k₁.isIdle = false := by
          rcases L.idle with ⟨hi, hs⟩ | ⟨_, hi⟩
          · rw [hi]
            by_contra hk
            rw [Bool.not_eq_false] at hk
            have hm : k.mode = .waiting := by
              by_contra hm
              rw [H.awake hm] at hk
              cases hk
            obtain ⟨hnone, _, hempty⟩ := H.waiting hm
            rw [hs hnone hk, hempty] at hq
            cases hq
          · exact hi
        exact ⟨⟨G'.refines, G'.ok, hholds, fun hm => absurd (hmode.symm.trans hm) nofun,
          fun _ => hidle.trans hawake, fun _ => by simp [hcur],
          fun hm => absurd (hmode.symm.trans hm) nofun⟩, G'.moves⟩

/-- A step of a regular run keeps the invariant and makes moves. -/
theorem step (H : Good k) (hr : Regular k e) (h : MikaBoo.step fuel k e = .ok k') :
    Good k' ∧ Moves (eventScope k e) ⟨k.view, k.currentThread⟩ ⟨k'.view, k'.currentThread⟩ := by
  obtain ⟨⟨x, k₁⟩, hk₁, h⟩ := bind_eq_ok.mp h
  obtain ⟨L, A⟩ := H.entry hr hk₁
  exact H.leave L A h

theorem regularStep (H : Good k) (h : RegularStep k e k') : Good k' := by
  obtain ⟨hr, fuel, h⟩ := h
  exact (H.step hr h).1

/-- The invariant holds in every state of a regular run. -/
theorem run {es : List Event} (H : Good k) (run : Run RegularStep k es k') : Good k' :=
  run.invariant (fun _ _ _ H h => H.regularStep h) H

theorem boot {hw : Hardware} (h : MikaBoo.boot hw = .ok k) : Good k := by
  obtain ⟨k', hk', R⟩ := boot_ok hw
  obtain rfl := Except.ok.inj (h.symm.trans hk')
  have hv := R.eq_view
  obtain ⟨hcur, hidle, hmode⟩ : k.globals.currentThread = none ∧
      k.globals.isIdle = false ∧ k.globals.mode = .booting := by
    have hcreate : ∀ (v : View) (t p s), (v.create t p s).globals.currentThread =
        v.globals.currentThread ∧ (v.create t p s).globals.isIdle = v.globals.isIdle ∧
        (v.create t p s).globals.mode = v.globals.mode := fun _ _ _ _ => ⟨rfl, rfl, rfl⟩
    obtain ⟨hc, hi, hm⟩ := hcreate (bootView hw) (.thread 0) root
      (stateInit hw 2 hw.test SYS_MODE_INT_DISABLED)
    obtain ⟨hc', hi', hm', _⟩ := bootView_processor hw
    rw [← R.globals, bootedView, hc, hi, hm]
    exact ⟨hc', hi', hm'⟩
  have hok : Config.Ok ⟨k.view, k.globals.currentThread⟩ := by
    rw [hcur, ← hv]
    exact bootedView_ok ⟨k, R⟩
  refine ⟨by rwa [← hv], hok, fun ht => ?_, fun hm => ?_, fun _ => hidle, fun hm => ?_,
    fun _ => hcur⟩
  · exact absurd (hcur.symm.trans ht) nofun
  · exact absurd (hmode.symm.trans hm) nofun
  · exact absurd (hmode.symm.trans hm) nofun

end Good

/-! ## Executing runs -/

section execute

variable {guard guard' : Kernel → Event → Prop} {k k' : Kernel} {es : List Event}

theorem weaken_guard (h : ∀ k e, guard k e → guard' k e) (run : Run (GuardedStep guard) k es k') :
    Run (GuardedStep guard') k es k' :=
  run.mono_of_mem fun _ _ _ _ s => ⟨h _ _ s.1, s.2⟩

theorem forget_guard (run : Run (GuardedStep guard) k es k') : Run Step k es k' :=
  run.mono_of_mem fun _ _ _ _ s => s.2

/-- The kernel code stops in `PANIC`. -/
def panics : Exec Kernel → Bool
  | .error (.panic _) => true
  | _ => false

theorem panics_iff {x : Exec Kernel} : panics x = true ↔ ∃ k, x = .error (.panic k) := by
  unfold panics
  split <;> simp_all

/-- Execute a list of events, with the given fuel for each step. -/
def proceed (guard : Kernel → Event → Prop) [∀ k e, Decidable (guard k e)] (fuel : Nat)
    (k : Kernel) (es : List Event) : Option Kernel :=
  es.foldlM (fun k e => if guard k e then (step fuel k e).toOption else none) k

/-- Execute a list of events from the boot state. -/
def execute (guard : Kernel → Event → Prop) [∀ k e, Decidable (guard k e)] (hw : Hardware)
    (fuel : Nat) (es : List Event) : Option Kernel :=
  (boot hw).toOption.bind fun k => proceed guard fuel k es

theorem exec_eq_ok {A : Type} {x : Exec A} {a : A} (h : x.toOption = some a) : x = .ok a := by
  cases x with
  | error _ => cases h
  | ok b => rw [Option.some.inj h]

theorem run_of_proceed [∀ k e, Decidable (guard k e)] {fuel : Nat}
    (h : proceed guard fuel k es = some k') : Run (GuardedStep guard) k es k' := by
  refine .of_foldlM (fun k e k' hs => ?_) h
  split at hs
  · exact ⟨by assumption, fuel, exec_eq_ok hs⟩
  · cases hs

theorem run_of_execute [∀ k e, Decidable (guard k e)] {hw : Hardware} {fuel : Nat}
    (h : execute guard hw fuel es = some k) :
    ∃ k₀, boot hw = .ok k₀ ∧ Run (GuardedStep guard) k₀ es k := by
  obtain ⟨k₀, hk₀, h⟩ := Option.bind_eq_some_iff.mp h
  exact ⟨k₀, exec_eq_ok hk₀, run_of_proceed h⟩

/-- Execute a list of events, and keep a history of the steps in `G`. -/
def proceedWith {G : Type} (guard : Kernel → G → Event → Prop) [∀ k g e, Decidable (guard k g e)]
    (after : G → Kernel → Event → Kernel → G) (fuel : Nat) (s : Kernel × G) (es : List Event) :
    Option (Kernel × G) :=
  es.foldlM (fun s e =>
    if guard s.1 s.2 e then
      (step fuel s.1 e).toOption.map fun k => (k, after s.2 s.1 e k)
    else none) s

theorem run_of_proceedWith {G : Type} {guard : Kernel → G → Event → Prop}
    [∀ k g e, Decidable (guard k g e)] {after : G → Kernel → Event → Kernel → G} {fuel : Nat}
    {s s' : Kernel × G} (h : proceedWith guard after fuel s es = some s') :
    Run (fun s e s' => guard s.1 s.2 e ∧ Step s.1 e s'.1 ∧ s'.2 = after s.2 s.1 e s'.1) s es s' := by
  refine .of_foldlM (fun s e s' hs => ?_) h
  split at hs
  · rename_i hg
    obtain ⟨k, hk, rfl⟩ := Option.map_eq_some_iff.mp hs
    exact ⟨hg, ⟨fuel, exec_eq_ok hk⟩, rfl⟩
  · cases hs

end execute

/-! ## A sample machine -/

namespace Sample

def hardware : Hardware where
  cpu := {}
  mem _ := null
  busRegTimeScale := 1
  ramTop := 0x8000
  ssi := 0x1000
  test := 0x2000
  overlays _ := {}

/-- A memory with the given words from the address 0x100 on. -/
def memory (ws : List Value) : Word → Value :=
  fun a => if 0x100 ≤ a.toNat then ws.getD ((a.toNat - 0x100) / 4) null else null

/-- The running thread, with the given words in its memory, executes `SYSCALL`. -/
def call (a1 a2 a3 : Value) (ws : List Value) : List Event :=
  [.run { a1 := a1, a2 := a2, a3 := a3, cpsr := SYS_MODE_INT_DISABLED } (memory ws) 0, .syscall]

def send (dest : Tcb) (payload : Value) (ws : List Value) : List Event :=
  call SYS_SEND (.tcb dest) payload ws

def recv (src : Option Tcb) (ws : List Value) : List Event :=
  call SYS_RECV (tcbPtr src) null ws

/-- A request with the given words to the SSI. -/
def request (ws : List Value) : List Event := send .ssi (.int 0x100) ws

/-- A request whose reply is awaited, while the SSI is waiting for requests and
no other thread is ready: the SSI serves it and waits again. -/
def service (ws : List Value) : List Event :=
  request ws ++ recv (some .ssi) ws ++ [.ssi, .ssi]

end Sample

end MikaBoo
