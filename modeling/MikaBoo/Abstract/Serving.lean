import MikaBoo.Abstract.Simulation

/-!
# The services follow the abstract kernel

The services of the SSI and its loop, for an applicant that is allocated and
without WAIT_FOR_CLOCK.
-/

namespace MikaBoo

open Intrusive Fuel Transition

/-- The thread descriptor `t` is in the array and not on its free list. -/
def Kernel.Allocated (k : Kernel) (t : Tcb) : Prop := t ≠ .ssi ∧ t ∉ k.view.threads .free

instance (k : Kernel) (t : Tcb) : Decidable (k.Allocated t) :=
  inferInstanceAs (Decidable (_ ∧ _))

/-- What a service may do. -/
def Request.scope : Request → Scope
  | .createProcess | .createThread => .create
  | .terminateProcess | .terminateThread => .terminate
  | .setpgmmgr | .settlbmgr | .setsysmgr => .terminate
  | _ => .plain

/-- The two states agree on who runs, and on where the SSI is. -/
structure SameRun (k k' : Kernel) : Prop where
  thread : k'.currentThread = k.currentThread
  mode : k'.mode = k.mode
  idle : k'.isIdle = k.isIdle
  point : k'.ssiPoint = k.ssiPoint

namespace SameRun

theorem refl (k : Kernel) : SameRun k k := ⟨rfl, rfl, rfl, rfl⟩

theorem trans {k₁ k₂ k₃ : Kernel} (h₁ : SameRun k₁ k₂) (h₂ : SameRun k₂ k₃) : SameRun k₁ k₃ :=
  ⟨h₂.thread.trans h₁.thread, h₂.mode.trans h₁.mode, h₂.idle.trans h₁.idle,
    h₂.point.trans h₁.point⟩

theorem of_globals {k k' : Kernel} (h : k'.globals = k.globals) : SameRun k k' :=
  ⟨congrArg Globals.currentThread h, congrArg Globals.mode h, congrArg Globals.isIdle h,
    congrArg Globals.ssiPoint h⟩

/-- The counters are not involved. -/
theorem of_refines {k k' : Kernel} {v' : View} {n : Word} (R : Refines k' v')
    (h : v'.globals = { k.globals with threadCount := n }) : SameRun k k' := by
  have hg := R.globals.symm.trans h
  exact ⟨congrArg Globals.currentThread hg, congrArg Globals.mode hg, congrArg Globals.isIdle hg,
    congrArg Globals.ssiPoint hg⟩

end SameRun

/-! ## Termination runs as moves -/

theorem ReapStep.realised {a : Option Tcb} {v v' : View} {e : Reaping} (s : ReapStep a v e v') :
    Realised v := by
  cases s with
  | kill hr => exact hr
  | orphan hr => exact hr

theorem ReapStep.globals {a : Option Tcb} {v v' : View} {e : Reaping} (s : ReapStep a v e v') :
    ∃ n, v'.globals = { v.globals with threadCount := n } := by
  cases s with
  | kill => exact ⟨_, rfl⟩
  | orphan => exact ⟨_, rfl⟩

theorem globals_of_run {a : Option Tcb} {v v' : View} {es : List Reaping}
    (run : Run (ReapStep a) v es v') : ∃ n, v'.globals = { v.globals with threadCount := n } := by
  induction run with
  | nil => exact ⟨_, rfl⟩
  | snoc _ last ih =>
      obtain ⟨n, hn⟩ := last.globals
      obtain ⟨m, hm⟩ := ih
      exact ⟨n, by rw [hn, hm]⟩

/-- A termination is a sequence of moves. -/
theorem moves_of_run {a : Option Tcb} {v v' : View} {es : List Reaping}
    (run : Run (ReapStep a) v es v') (hv : Config.Ok ⟨v, some .ssi⟩) (hr : Realised v') :
    Moves .terminate ⟨v, some .ssi⟩ ⟨v', some .ssi⟩ := by
  induction run with
  | nil => exact .refl
  | snoc _ last ih =>
      have ms := ih last.realised
      exact ms.tail ⟨Moves.ok hv ms, .reap rfl last, hr⟩

namespace Goes

variable {c : Config} {k k' : Kernel} {r : Option Tcb} {fuel : Nat} {t : Tcb} {p : Pcb}

theorem reapRun {a : Option Tcb} {es : List Reaping} {v' : View}
    (G : Goes .terminate c k (some .ssi)) (R : Refines k' v')
    (run : Run (ReapStep a) k.view es v') : Goes .terminate c k' (some .ssi) ∧ SameRun k k' := by
  obtain ⟨n, hn⟩ := globals_of_run run
  have hsame := SameRun.of_refines R hn
  obtain rfl := R.eq_view
  have ms := moves_of_run run G.ok ⟨k', R⟩
  exact ⟨⟨R, G.moves.trans ms, Moves.ok G.ok ms⟩, hsame⟩

/-- An allocated thread belongs to a process. -/
theorem owner_of_allocated {scope : Scope} (G : Goes scope c k r) (ht : k.Allocated t) :
    ∃ p, (k.tcb t).tPcb = some p := by
  cases hp : (k.tcb t).tPcb with
  | some p => exact ⟨p, rfl⟩
  | none => exact absurd (G.inv.owned.free.mpr ⟨ht.1, hp⟩) ht.2

/-! ## Creation -/

theorem rawCreateThreadS {s : State} {proc : Option Pcb} {o : Option Tcb}
    (G : Goes .create c k r) (hp : ∀ p, proc = some p → k.view.Alive p)
    (h : MikaBoo.rawCreateThreadS k s proc = .ok (o, k')) :
    Goes .create c k' r ∧ SameRun k k' ∧ (o = none → k' = k) := by
  unfold MikaBoo.rawCreateThreadS at h
  by_cases hnone : proc = none ∨ k.view.threads .free = []
  · rw [G.refines.threadAlloc_none hnone] at h
    cases h
    exact ⟨G, .refl k, fun _ => rfl⟩
  · rw [not_or] at hnone
    obtain ⟨p, rfl⟩ := Option.ne_none_iff_exists'.mp hnone.1
    obtain ⟨t, rest, hq⟩ := List.exists_cons_of_ne_nil hnone.2
    have ht : t ∈ k.view.threads .free := by simp [hq]
    obtain ⟨k₁, hk₁, R₁⟩ := G.refines.threadAlloc_some (p := p) hq
    rw [hk₁] at h
    cases h
    have hoff : ∀ h, t ∉ k.view.sched h := by
      intro h hm
      exact G.inv.scheduled.allocated hm (G.inv.owned.status.mpr (G.inv.owned.free.mp ht))
    have R₂ := ((R₁.modTcb t fun d => { d with tS := s }).enqueue hoff .readyq).addCount 1
    have G₂ : Goes .create c _ r := G.act (.create rfl ht (hp p rfl)) R₂
    exact ⟨G₂, .of_refines (n := k.threadCount + 1) R₂ rfl, by simp⟩

theorem createThreadS {s : State} {o : Option Tcb} (G : Goes .create c k r)
    (h : MikaBoo.createThreadS k s t = .ok (o, k')) : Goes .create c k' r ∧ SameRun k k' := by
  obtain ⟨G', hs, _⟩ := G.rawCreateThreadS (fun _ hp => G.inv.tree.owner_alive hp) h
  exact ⟨G', hs⟩

theorem createProcessS {s : State} {o : Option Tcb} (G : Goes .create c k r)
    (h : MikaBoo.createProcessS k s t = .ok (o, k')) : Goes .create c k' r ∧ SameRun k k' := by
  unfold MikaBoo.createProcessS at h
  by_cases hnone : (k.tcb t).tPcb = none ∨ k.view.procs .free = []
  · rw [G.refines.procAlloc_none hnone] at h
    cases h
    exact ⟨G, .refl k⟩
  · rw [not_or] at hnone
    obtain ⟨parent, hparent⟩ := Option.ne_none_iff_exists'.mp hnone.1
    obtain ⟨p, rest, hq⟩ := List.exists_cons_of_ne_nil hnone.2
    have hfree : p ∈ k.view.procs .free := by simp [hq]
    obtain ⟨hroot, hpnone⟩ := G.inv.tree.free.mp hfree
    obtain ⟨k₁, hk₁, R₁⟩ := G.refines.procAlloc_some parent hq hroot
    rw [hparent, hk₁] at h
    simp only [ok_bind] at h
    have G₁ := G.act (.adopt rfl hfree (G.inv.tree.owner_alive hparent)) R₁
    have hpar₁ : (k₁.view.pcb p).pParent = some parent := by
      rw [← R₁.eq_view]
      simp [View.adopt]
    obtain ⟨⟨o₂, k₂⟩, hk₂, h'⟩ := bind_eq_ok.mp h
    have hal : ∀ q, some p = some q → k₁.view.Alive q := by
      rintro q hq
      cases hq
      exact Or.inr (by simp [hpar₁])
    obtain ⟨G₂, hs₂, hnone₂⟩ := G₁.rawCreateThreadS hal hk₂
    have hs₁ : SameRun k k₁ := .of_globals R₁.globals.symm
    cases o₂ with
    | some t =>
        cases h'
        exact ⟨G₂, hs₁.trans hs₂⟩
    | none =>
        -- there is no thread descriptor for the new process, which is deleted again
        obtain rfl := hnone₂ rfl
        have hdead : ¬ k.view.Alive p := by
          rintro (h | h)
          · exact hroot h
          · exact h hpnone
        have hleaf : k₂.view.procs (.children p) = [] := by
          rw [List.eq_nil_iff_forall_not_mem]
          intro q hq
          rw [← R₁.eq_view, G.refines.mem_adopt hfree] at hq
          rcases hq with ⟨_, hq⟩ | ⟨_, hq⟩
          · exact hdead (G.inv.tree.parent_alive (G.inv.tree.children.mp hq))
          · cases hq
            exact hdead (G.inv.tree.owner_alive hparent)
        have hvacant : k₂.view.threads (.of p) = [] := by
          rw [List.eq_nil_iff_forall_not_mem]
          intro u hu
          rw [← R₁.eq_view] at hu
          exact hdead (G.inv.tree.owner_alive (G.inv.owned.owned.mp hu))
        obtain ⟨k₃, hk₃, R₃⟩ := G₂.refines.procDelete_ok hroot hpar₁
          (G₂.inv.tree.children.mpr hpar₁) hleaf hvacant
        simp only [hk₃] at h'
        cases h'
        exact ⟨G₂.act (.abandon rfl hpar₁ hleaf hvacant) R₃,
          hs₁.trans (.of_globals R₃.globals.symm)⟩

/-! ## Termination -/

theorem terminateProcessS (G : Goes .terminate c k (some .ssi)) (ht : k.Allocated t)
    (h : MikaBoo.terminateProcessS fuel k t = .ok k') :
    Goes .terminate c k' (some .ssi) ∧ SameRun k k' := by
  obtain ⟨p, hp⟩ := G.owner_of_allocated ht
  obtain ⟨v', R', run⟩ := (G.refines.terminateProcessS G.inv.terminable hp).sound h
  exact G.reapRun R' run

theorem terminateThreadS (G : Goes .terminate c k (some .ssi)) (ht : k.Allocated t)
    (h : MikaBoo.terminateThreadS fuel k t = .ok k') :
    Goes .terminate c k' (some .ssi) ∧ SameRun k k' := by
  obtain ⟨p, hp⟩ := G.owner_of_allocated ht
  simp only [MikaBoo.terminateThreadS, hp] at h
  split at h
  · exact G.terminateProcessS ht h
  · have hm : t ∈ k.view.threads (.of p) := G.inv.owned.owned.mpr hp
    have hst : (k.view.tcb t).tStatus ≠ .none := by
      rw [Ne, G.inv.owned.status]
      simp [show (k.view.tcb t).tPcb = _ from hp]
    obtain ⟨q, hq⟩ := G.inv.terminable.queued.somewhere ht.1 hst
    have R' := (G.refines.rawTerminateThreadS hm hq).sound h
    have s : ReapStep (some t) k.view (.kill t p) (k.view.reap t p q) := by
      have hs : ReapStep (some t) k.view (.kill t p) _ := .kill ⟨k, G.refines⟩ hm hq
      simpa [View.cleanDest] using hs
    exact G.reapRun R' (.single s)

/-! ## Managers -/

theorem rawSetmgr {mgr : PcbT → Option Tcb} {set : PcbT → Option Tcb → PcbT} {new : Option Tcb}
    {o : Option Value} (hset : ∀ d m, (set d m).pParent = d.pParent)
    (G : Goes .terminate c k (some .ssi)) (ht : k.Allocated t)
    (h : MikaBoo.rawSetmgr mgr set fuel k new t = .ok (o, k')) :
    Goes .terminate c k' (some .ssi) ∧ SameRun k k' := by
  obtain ⟨p, hp⟩ := G.owner_of_allocated ht
  cases new with
  | none =>
      cases h
      exact ⟨G, .refl k⟩
  | some m =>
      simp only [MikaBoo.rawSetmgr, hp] at h
      split at h
      · obtain ⟨k₁, hk₁, h⟩ := bind_eq_ok.mp h
        cases h
        exact G.terminateProcessS ht hk₁
      · cases h
        exact ⟨G.act (.manage (G.inv.tree.owner_alive hp) (hset _ _)) (G.refines.modPcb p _),
          .of_globals rfl⟩

/-! ## The loop of the SSI -/

theorem doIoS {scope : Scope} {device command d₁ d₂ : Value} (G : Goes scope c k r)
    (ht : t ≠ .ssi) (h : MikaBoo.doIoS k device command d₁ d₂ t = .ok k') :
    Goes scope c k' r ∧ SameRun k k' := by
  unfold MikaBoo.doIoS at h
  dsimp only at h
  split at h
  · split at h
    · cases h
    · cases h
      refine ⟨G.setGlobals ?_ ?_ (Or.inr ?_) ?_, ⟨rfl, rfl, rfl, rfl⟩⟩
      · exact { G.refines with globals := rfl }
      · rfl
      · rfl
      · intro i hi
        by_cases hi' : i = TERMINAL_REQUESTER_INDEX
        · simp [hi', ht] at hi
        · simpa [hi'] using hi
  · cases h

/-- Every service but WAIT_FOR_CLOCK. The applicant is allocated if it asks for a
termination or for a manager. -/
theorem service {q : Request} {msg : Value} {o : Option Value} (hq : q ≠ .waitForClock)
    (G : Goes q.scope c k (some .ssi)) (hu : t ≠ .ssi)
    (ht : q.scope = .terminate → k.Allocated t)
    (h : MikaBoo.service fuel k t msg q = .ok (o, k')) :
    Goes q.scope c k' (some .ssi) ∧ SameRun k k' := by
  cases q with
  | getErrno | getCputime =>
      cases h
      exact ⟨G, .refl k⟩
  | waitForClock => exact absurd rfl hq
  | createProcess =>
      obtain ⟨_, _, h⟩ := bind_eq_ok.mp h
      obtain ⟨_, _, h⟩ := bind_eq_ok.mp h
      obtain ⟨_, hk, h⟩ := bind_eq_ok.mp h
      cases h
      exact G.createProcessS hk
  | createThread =>
      obtain ⟨_, _, h⟩ := bind_eq_ok.mp h
      obtain ⟨_, _, h⟩ := bind_eq_ok.mp h
      obtain ⟨_, hk, h⟩ := bind_eq_ok.mp h
      cases h
      exact G.createThreadS hk
  | terminateProcess =>
      obtain ⟨_, hk, h⟩ := bind_eq_ok.mp h
      cases h
      exact G.terminateProcessS (ht rfl) hk
  | terminateThread =>
      obtain ⟨_, hk, h⟩ := bind_eq_ok.mp h
      cases h
      exact G.terminateThreadS (ht rfl) hk
  | setpgmmgr | settlbmgr | setsysmgr =>
      obtain ⟨_, _, h⟩ := bind_eq_ok.mp h
      obtain ⟨_, _, h⟩ := bind_eq_ok.mp h
      exact rawSetmgr (by intros; rfl) G (ht rfl) h
  | doIo =>
      obtain ⟨_, _, h⟩ := bind_eq_ok.mp h
      obtain ⟨_, _, h⟩ := bind_eq_ok.mp h
      obtain ⟨_, _, h⟩ := bind_eq_ok.mp h
      obtain ⟨_, _, h⟩ := bind_eq_ok.mp h
      obtain ⟨_, hk, h⟩ := bind_eq_ok.mp h
      cases h
      exact G.doIoS hu hk
  | getProcessid | getParentprocid =>
      obtain ⟨_, _, h⟩ := bind_eq_ok.mp h
      obtain ⟨_, _, h⟩ := bind_eq_ok.mp h
      cases h
      exact ⟨G, .refl k⟩
  | getMythreadid =>
      obtain ⟨_, _, h⟩ := bind_eq_ok.mp h
      cases h
      exact ⟨G, .refl k⟩

end Goes

/-- The request that the message `msg` makes of the SSI. -/
def requestOf (k : Kernel) (msg : Value) : Option Request :=
  match reqField k msg 0 with
  | .ok tag => Request.ofTag tag
  | .error _ => none

namespace Kernel

/-- The request that the SSI holds and will serve when it runs. -/
def request (k : Kernel) : Option Request :=
  match k.ssiPoint with
  | .receiving => none
  | .serving => requestOf k k.ssiMsg

/-- The thread that the SSI, on the processor, will serve. -/
def applicant (k : Kernel) : Option Tcb :=
  match k.cpu.a1 with
  | .tcb t => some t
  | _ => none

end Kernel

/-- What the SSI may do when it runs. -/
def ssiScope (k : Kernel) : Scope := k.request.elim .plain Request.scope

namespace Goes

variable {scope : Scope} {c : Config} {k k' : Kernel} {fuel : Nat} {t : Tcb} {msg : Value} {x : Exit}

theorem ssiServe (G : Goes scope c k (some .ssi)) (hc : k.currentThread = some .ssi)
    (hu : t ≠ .ssi) (hs : ∀ q, requestOf k msg = some q → scope = q.scope ∧ q ≠ .waitForClock ∧
      (q.scope = .terminate → k.Allocated t))
    (h : MikaBoo.ssiServe fuel k t msg = .ok (x, k')) :
    Leaves scope c k (some .ssi) x k' ∧ k'.ssiPoint = k.ssiPoint := by
  obtain ⟨tag, htag, h⟩ := bind_eq_ok.mp h
  cases hq : Request.ofTag tag with
  | none => simp [hq] at h
  | some q =>
      obtain ⟨rfl, hclock, ht⟩ := hs q (by simp [requestOf, htag, hq])
      simp only [hq] at h
      obtain ⟨⟨o, k₁⟩, hk₁, h⟩ := bind_eq_ok.mp h
      obtain ⟨G₁, hrun⟩ := G.service hclock hu ht hk₁
      cases o with
      | none =>
          cases h
          exact ⟨⟨G₁, hrun.thread, hrun.mode, Or.inl ⟨hrun.idle, by simp⟩⟩, hrun.point⟩
      | some reply =>
          have hc₁ : k₁.currentThread = some .ssi := hrun.thread.trans hc
          obtain ⟨k₂, hk₂, G₂, hg₂⟩ := G₁.msgsend (a := k₁.cpu) (d := t) (p := reply) hc₁
            G₁.ssiAllocated fun _ => hu
          simp only [hk₂, ok_bind] at h
          cases h
          have hrun₂ := hrun.trans (.of_globals hg₂)
          exact ⟨⟨G₂, hrun₂.thread, hrun₂.mode, Or.inl ⟨hrun₂.idle, by simp⟩⟩, hrun₂.point⟩

/-- The SSI runs to the next call or return of its `msgrecv`, which leaves the
sender of a queued message in `a1`. -/
theorem ssi (G : Goes (ssiScope k) c k (some .ssi)) (hc : k.currentThread = some .ssi)
    (hu : k.ssiPoint = .serving → k.applicant ≠ some .ssi)
    (hq : ∀ q ∈ k.request, q ≠ .waitForClock ∧
      (q.scope = .terminate → ∀ t ∈ k.applicant, k.Allocated t))
    (h : MikaBoo.ssi fuel k = .ok (x, k')) : Leaves (ssiScope k) c k (some .ssi) x k' ∧
      ∀ st, x = .resume st → k'.ssiPoint = .serving → k.ssiPoint = .receiving ∧
        ∃ e ∈ k.view.mailbox .ssi, st.a1 = tcbPtr e.mSender := by
  unfold MikaBoo.ssi at h
  split at h
  · rename_i hp
    let k₁ : Kernel := { k with ssiPoint := .serving }
    have G₁ : Goes (ssiScope k) c k₁ (some .ssi) :=
      G.setGlobals { G.refines with globals := rfl } rfl (Or.inl rfl) fun _ hi => hi
    obtain ⟨hg, ⟨st, m, rfl, hm, ha1, G₂⟩ | ⟨rfl, _, G₂⟩⟩ := G₁.msgrecv hc h
    · have L := leaves (k := k₁) (x := .resume st) G₂ hg
      refine ⟨⟨L.goes, L.thread, L.mode, L.idle⟩, fun _ hst _ => ?_⟩
      cases hst
      have he : k.msg m ∈ k₁.view.mailbox .ssi := List.mem_map_of_mem (View.mem_of_pick hm)
      exact ⟨hp, k.msg m, he, ha1⟩
    · have L := leaves (k := k₁) (x := .schedule) (t := .ssi) G₂ hg
      refine ⟨⟨L.goes, L.thread, L.mode, L.idle⟩, fun _ hst => ?_⟩
      cases hst
  · rename_i hp
    obtain ⟨o, ho, h⟩ := bind_eq_ok.mp h
    cases o with
    | none => cases h
    | some t =>
        have ha : k.applicant = some t := by
          have hcpu : k.cpu.a1 = .tcb t := by
            unfold Value.toTcb at ho
            split at ho <;> cases ho
            assumption
          simp [Kernel.applicant, hcpu]
        have hreq : k.request = requestOf k k.ssiMsg := by simp [Kernel.request, hp]
        let k₁ : Kernel := { k with ssiPoint := .receiving }
        have G₁ : Goes (ssiScope k) c k₁ (some .ssi) :=
          G.setGlobals { G.refines with globals := rfl } rfl (Or.inl rfl) fun _ hi => hi
        have hs : ∀ q, requestOf k₁ k.ssiMsg = some q →
            ssiScope k = q.scope ∧ q ≠ .waitForClock ∧ (q.scope = .terminate → k₁.Allocated t) := by
          intro q hr
          have hr' : k.request = some q := hreq.trans hr
          obtain ⟨hclock, halloc⟩ := hq q hr'
          exact ⟨by simp [ssiScope, hr'], hclock, fun hterm => halloc hterm t ha⟩
        have ht : t ≠ .ssi := by
          rintro rfl
          exact hu hp ha
        obtain ⟨L, hpoint⟩ := G₁.ssiServe hc ht hs h
        refine ⟨⟨L.goes, L.thread, L.mode, L.idle⟩, fun _ _ hserving => ?_⟩
        rw [hpoint] at hserving
        cases hserving

end Goes

end MikaBoo
