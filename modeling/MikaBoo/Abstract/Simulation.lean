import MikaBoo.Abstract.Frames
import MikaBoo.Abstract.Actions

/-!
# The code follows the abstract kernel

One lemma for each function that handlers and services share: started in a state
that realises a configuration, it makes actions from there.
-/

namespace MikaBoo

open Intrusive Fuel

/-- From the configuration `c` the kernel has come to the state `k`, with `r` on
the processor. -/
structure Goes (scope : Scope) (c : Config) (k : Kernel) (r : Option Tcb) : Prop where
  refines : Refines k k.view
  moves : Moves scope c ⟨k.view, r⟩
  ok : Config.Ok ⟨k.view, r⟩

namespace Goes

variable {scope : Scope} {c : Config} {k k' : Kernel} {r r' : Option Tcb} {v' : View}

theorem inv (G : Goes scope c k r) : k.view.Inv r := G.ok.inv

theorem start (R : Refines k k.view) (h : Config.Ok ⟨k.view, r⟩) : Goes scope ⟨k.view, r⟩ k r :=
  ⟨R, .refl, h⟩

/-- One more action. -/
theorem act (G : Goes scope c k r) (s : Action scope ⟨k.view, r⟩ ⟨v', r'⟩) (R : Refines k' v') :
    Goes scope c k' r' := by
  obtain rfl := R.eq_view
  have m : Move scope ⟨k.view, r⟩ ⟨k'.view, r'⟩ := ⟨G.ok, s, ⟨k', R⟩⟩
  exact ⟨R, G.moves.tail m, m.ok'⟩

/-- A change that the view does not show. -/
theorem same (G : Goes scope c k r) (R : Refines k' k.view) : Goes scope c k' r := by
  have h := R.eq_view
  exact ⟨by rwa [← h], by rw [← h]; exact G.moves, by rw [← h]; exact G.ok⟩

theorem modTcb (G : Goes scope c k r) {t : Tcb} {f : TcbT → TcbT}
    (h : SameQueueing (k.tcb t) (f (k.tcb t))) (ht : r = some t ∨ t ≠ .ssi) :
    Goes scope c (k.modTcb t f) r :=
  G.act (.adjust h ht) (G.refines.modTcb t f)

theorem setGlobals (G : Goes scope c k r) (R : Refines k' { k.view with globals := k'.globals })
    (hc : k'.threadCount = k.threadCount) (hp : r = some .ssi ∨ k'.ssiPoint = k.ssiPoint)
    (hs : ∀ i, k'.softBlockedThread i = some .ssi → k.softBlockedThread i = some .ssi) :
    Goes scope c k' r :=
  G.act (.globals hc hp hs) R

theorem clockEmpty (G : Goes scope c k r) : k.view.sched .tWait4clock = [] := by
  rw [List.eq_nil_iff_forall_not_mem]
  intro t ht
  exact G.inv.scheduled.fits ht

/-! ## Sending -/

variable {s d : Tcb} {p : Value}

theorem deliverMsg (G : Goes scope c k r) (hs : (k.tcb s).tStatus ≠ .none)
    (hd : (k.tcb d).tStatus ≠ .none)
    (hw : (k.tcb d).tStatus = .w4msg →
      (k.tcb d).tWait4sender ≠ none ∧ (k.tcb d).tWait4sender ≠ some s)
    (hf : s = .ssi → d ≠ .ssi) :
    ∃ w k', MikaBoo.deliverMsg k d (some s) p = .ok (w, k') ∧
      Goes scope c (k'.record (.sent (some s) d p (w = SEND_SUCCESS))) r ∧
      k'.globals = k.globals := by
  cases hq : k.view.msgs .free with
  | nil =>
      refine ⟨SEND_FAILURE, k, by simp [MikaBoo.deliverMsg, G.refines.msgqAdd_nil hq], ?_, rfl⟩
      exact G.act (.refuse hs) (G.refines.record _)
  | cons m rest =>
      obtain ⟨k', hk', R'⟩ := G.refines.msgqAdd_cons (s := s) (d := d) (p := p) hq
      refine ⟨SEND_SUCCESS, k', by simp [MikaBoo.deliverMsg, hk'], ?_, R'.globals.symm⟩
      exact G.act (.queue hs (by simp [hq]) hd hw hf) (R'.record _)

theorem resumeThread (G : Goes scope c k r) (hs : (k.tcb s).tStatus ≠ .none)
    (hw : (k.tcb d).tStatus = .w4msg)
    (he : (k.tcb d).tWait4sender = some s ∨ (k.tcb d).tWait4sender = none)
    (hf : s = .ssi → d ≠ .ssi) :
    Goes scope c ((MikaBoo.resumeThread k d (some s) p).record (.sent (some s) d p true)) r ∧
      (MikaBoo.resumeThread k d (some s) p).globals = k.globals := by
  have hr : r ≠ some d := by
    intro hr
    have := G.inv.scheduled.running hr
    rw [show (k.view.tcb d).tStatus = (k.tcb d).tStatus from rfl, hw] at this
    cases this
  have hst : (k.view.tcb d).tStatus ≠ .none := by
    change (k.tcb d).tStatus ≠ .none
    simp [hw]
  obtain ⟨h, hq⟩ := (G.inv.scheduled.somewhere hst).resolve_left hr
  have R' := G.refines.resumeThread (s := some s) (p := p) hq
  exact ⟨G.act (.direct hs hq hw he hf) (R'.record _), R'.globals.symm⟩

/-- `send` succeeds or fails, and makes one action. -/
theorem send (G : Goes scope c k r) (hs : (k.tcb s).tStatus ≠ .none) (hf : s = .ssi → d ≠ .ssi) :
    ∃ w k', MikaBoo.send k d (some s) p = .ok (w, k') ∧ Goes scope c k' r ∧
      k'.globals = k.globals := by
  cases hd : (k.tcb d).tStatus with
  | none =>
      refine ⟨SEND_FAILURE, k.record (.sent (some s) d p false), ?_, ?_, rfl⟩
      · simp [MikaBoo.send, sendSwitch, hd]
      · exact G.act (.refuse hs) (G.refines.record _)
  | ready =>
      obtain ⟨w, k', hk', G', hg⟩ := G.deliverMsg (p := p) hs (d := d) (by simp [hd])
        (by simp [hd]) hf
      exact ⟨w, _, by simp [MikaBoo.send, sendSwitch, hd, hk'], G', hg⟩
  | w4msg =>
      by_cases he : (k.tcb d).tWait4sender = some s ∨ (k.tcb d).tWait4sender = none
      · obtain ⟨G', hg⟩ := G.resumeThread (p := p) hs hd he hf
        exact ⟨SEND_SUCCESS, _, by simp [MikaBoo.send, sendSwitch, hd, he], G', hg⟩
      · rw [not_or] at he
        obtain ⟨w, k', hk', G', hg⟩ := G.deliverMsg (p := p) hs (d := d) (by simp [hd])
          (fun _ => ⟨he.2, he.1⟩) hf
        exact ⟨w, _, by simp [MikaBoo.send, sendSwitch, hd, he, hk'], G', hg⟩

/-- A system call `SYS_SEND` of a handler or of the SSI. -/
theorem msgsend {a : State} (G : Goes scope c k r) (hc : k.currentThread = some s)
    (hs : (k.tcb s).tStatus ≠ .none) (hf : s = .ssi → d ≠ .ssi) :
    ∃ k', MikaBoo.msgsend k a d p = .ok k' ∧ Goes scope c k' r ∧
      k'.globals = k.globals := by
  let k₁ : Kernel := { k.enter with sysbkOldarea :=
    { a with a1 := SYS_SEND, a2 := .tcb d, a3 := p, a4 := null } }
  have G₁ : Goes scope c k₁ r := G.same { G.refines with }
  have hc₁ : k₁.currentThread = some s := hc
  obtain ⟨w, k', hk', G', hg⟩ := G₁.send (s := s) (d := d) (p := p) hs hf
  have hsend : MikaBoo.msgsend k a d p =
      MikaBoo.send k₁ d k₁.currentThread p >>= fun o => .ok (storeReturnValue o.2 (.int o.1)) :=
    rfl
  refine ⟨storeReturnValue k' (.int w), ?_, G'.same { G'.refines with }, hg⟩
  rw [hsend, hc₁, hk']
  rfl

/-! ## Receiving -/

/-- Without clock waiters, `update_clock` advances the clock only. -/
theorem updateClock_of_empty {fuel : Nat} {ms : Word}
    (hq : k.schedLinks.listNext .tWait4clock = none)
    (h : MikaBoo.updateClock fuel k ms = .ok k') : ∃ pc, k' = { k with pseudoclock := pc } := by
  unfold MikaBoo.updateClock at h
  dsimp only at h
  split at h
  · cases fuel with
    | zero => simp [wakeClockWaiters] at h
    | succ n =>
        simp only [wakeClockWaiters, threadDequeue, SchedQueue.head, hq, containerOf, ok_bind,
          Except.ok.injEq] at h
        exact ⟨_, h.symm⟩
  · exact ⟨_, (Except.ok.inj h).symm⟩

theorem clockNext (G : Goes scope c k r) : k.schedLinks.listNext .tWait4clock = none := by
  have h := G.refines.sched.listNext .tWait4clock
  rwa [G.clockEmpty] at h

/-- `recv` of the thread `t` takes a message and resumes `t`, or blocks it. -/
theorem recv {fuel : Nat} {t : Tcb} {src : Option Tcb} {ptr : Value} {x : Exit}
    (G : Goes scope c k (some t)) (hc : k.currentThread = some t)
    (h : MikaBoo.recv fuel k src ptr = .ok (x, k')) :
    k'.globals = k.globals ∧
      ((∃ st m, x = .resume st ∧ k.view.pick src t = some m ∧
          st.a1 = tcbPtr (k.msg m).mSender ∧ Goes scope c k' (some t)) ∨
        (x = .schedule ∧ k.view.pick src t = none ∧ Goes scope c k' none)) := by
  simp only [MikaBoo.recv, hc] at h
  split at h
  · cases h
  · cases hp : k.view.pick src t with
    | some m =>
        obtain ⟨k₁, hk₁, R₁⟩ := G.refines.msgqGet_some (p := ptr) hp
        simp only [hk₁, ok_bind, Except.ok.injEq, Prod.mk.injEq] at h
        obtain ⟨rfl, rfl⟩ := h
        have R₂ := R₁.record (.received t (k.msg m).mSender (k.msg m).mValue)
        have G₂ := G.act (.receive hp) R₂
        exact ⟨R₁.globals.symm, Or.inl ⟨_, m, rfl, rfl, rfl, G₂.same { G₂.refines with }⟩⟩
    | none =>
        let f : TcbT → TcbT := fun d =>
          { d with tS := k.sysbkOldarea, tStatus := .w4msg, tWait4sender := src
                   runTime := d.runTime + k.timer }
        let k₂ : Kernel := { k with timeSliceLeft := k.timer }.modTcb t f
        have R₂ : Refines k₂ (k.view.modTcb t f) :=
          Refines.modTcb (k := { k with timeSliceLeft := k.timer }) { G.refines with } t f
        have h' : (MikaBoo.updateClock fuel k₂ k.timer >>= fun k =>
            .ok (Exit.schedule, threadEnqueue k t (.waiting src))) = .ok (x, k') := by
          rw [← h, G.refines.msgqGet_none hp]
          cases src <;> rfl
        obtain ⟨k₃, hk₃, h'⟩ := bind_eq_ok.mp h'
        obtain ⟨pc, rfl⟩ := updateClock_of_empty (k := k₂) G.clockNext hk₃
        simp only [Except.ok.injEq, Prod.mk.injEq] at h'
        obtain ⟨rfl, rfl⟩ := h'
        have R₃ : Refines { k₂ with pseudoclock := pc } (k.view.modTcb t f) := { R₂ with }
        have hoff : ∀ h, t ∉ (k.view.modTcb t f).sched h :=
          fun h hm => G.inv.scheduled.off hm rfl
        refine ⟨rfl, Or.inr ⟨rfl, rfl, ?_⟩⟩
        exact G.act (.block hp rfl rfl rfl) (R₃.enqueue hoff _)

/-- A system call `SYS_RECV` of a handler or of the SSI. -/
theorem msgrecv {fuel : Nat} {caller : State} {t : Tcb} {src : Option Tcb} {ptr : Value} {x : Exit}
    (G : Goes scope c k (some t)) (hc : k.currentThread = some t)
    (h : MikaBoo.msgrecv fuel k caller src ptr = .ok (x, k')) :
    k'.globals = k.globals ∧
      ((∃ st m, x = .resume st ∧ k.view.pick src t = some m ∧
          st.a1 = tcbPtr (k.msg m).mSender ∧ Goes scope c k' (some t)) ∨
        (x = .schedule ∧ k.view.pick src t = none ∧ Goes scope c k' none)) := by
  let k₁ : Kernel := { k.enter with sysbkOldarea :=
    { caller with a1 := SYS_RECV, a2 := tcbPtr src, a3 := ptr, a4 := null } }
  have R₁ : Refines k₁ k.view := { G.refines with }
  have hv : k₁.view = k.view := R₁.eq_view.symm
  have hrecv := (G.same R₁).recv hc h
  rwa [hv] at hrecv

end Goes

/-- Who is on the processor after a handler, when it was `r` before. -/
def Exit.on (x : Exit) (r : Option Tcb) : Option Tcb :=
  match x with
  | .resume _ => r
  | .schedule => none

/-- A handler that was entered with `r` on the processor leaves in the state `k'`. -/
structure Leaves (scope : Scope) (c : Config) (k : Kernel) (r : Option Tcb) (x : Exit)
    (k' : Kernel) : Prop where
  goes : Goes scope c k' (x.on r)
  thread : k'.currentThread = k.currentThread
  mode : k'.mode = k.mode
  /-- The only change of `is_idle` is its end, and the scheduler follows. While it
  lasts nobody is woken. -/
  idle : (k'.isIdle = k.isIdle ∧ (r = none → k.isIdle = true → k'.view.sched = k.view.sched)) ∨
    x = .schedule ∧ k'.isIdle = false

namespace Goes

variable {scope : Scope} {c : Config} {k k' : Kernel} {t : Tcb} {fuel : Nat} {x : Exit}

theorem leaves (G : Goes scope c k' (x.on (some t))) (hg : k'.globals = k.globals) :
    Leaves scope c k (some t) x k' where
  goes := G
  thread := congrArg Globals.currentThread hg
  mode := congrArg Globals.mode hg
  idle := Or.inl ⟨congrArg Globals.isIdle hg, by simp⟩

theorem ready (G : Goes scope c k (some t)) : (k.tcb t).tStatus = .ready :=
  G.inv.scheduled.running rfl

theorem allocated (G : Goes scope c k (some t)) : (k.tcb t).tStatus ≠ .none := by
  simp [G.ready]

theorem recv_leaves {src : Option Tcb} {ptr : Value} (G : Goes scope c k (some t))
    (hc : k.currentThread = some t) (h : MikaBoo.recv fuel k src ptr = .ok (x, k')) :
    Leaves scope c k (some t) x k' := by
  obtain ⟨hg, ⟨st, m, rfl, _, _, G'⟩ | ⟨rfl, _, G'⟩⟩ := G.recv hc h
  · exact leaves (x := .resume st) G' hg
  · exact leaves (x := .schedule) (t := t) G' hg

/-! ## Traps and system calls -/

theorem passUp (G : Goes .passUp c k (some t)) (hu : t ≠ .ssi) :
    Goes .passUp c (threadEnqueue k t .blockedq) none :=
  G.act (.passUp rfl hu) (G.refines.enqueue (fun _ hm => G.inv.scheduled.off hm rfl) _)

/-- A request that a handler makes blocks the thread until the SSI answers. -/
theorem terminateRequest {tag : Word} (G : Goes scope c k (some t))
    (hc : k.currentThread = some t) (hu : t ≠ .ssi)
    (h : MikaBoo.terminateRequest fuel k tag = .ok (x, k')) : Leaves scope c k (some t) x k' := by
  have G₀ : Goes scope c (k.writeReq tag) (some t) := G.same { G.refines with }
  obtain ⟨k₁, hk₁, G₁, hg₁⟩ := G₀.msgsend (a := handlerState) (d := .ssi) (p := .req tag) hc
    G.allocated fun h => absurd h hu
  have hc₁ : k₁.currentThread = some t := (congrArg Globals.currentThread hg₁).trans hc
  simp only [MikaBoo.terminateRequest, hk₁, ok_bind] at h
  obtain ⟨⟨x₂, k₂⟩, hk₂, h⟩ := bind_eq_ok.mp h
  obtain ⟨hg₂, ⟨st, m, rfl, _, _, _⟩ | ⟨rfl, _, G₂⟩⟩ := G₁.msgrecv hc₁ hk₂
  · cases h
  · cases h
    exact leaves (x := .schedule) (t := t) G₂ (hg₂.trans hg₁)

/-- A handler passed the running thread `t` up: it linked it in `blockedq` and
called the scheduler. -/
def PassedUp (c : Config) (k : Kernel) (t : Tcb) (x : Exit) (k' : Kernel) : Prop :=
  x = .schedule ∧ ∃ k₂, k' = threadEnqueue k₂ t .blockedq ∧ Goes .passUp c k₂ (some t) ∧
    k₂.globals = k.globals

theorem PassedUp.leaves (h : PassedUp c k t x k') (hu : t ≠ .ssi) :
    Leaves .passUp c k (some t) x k' := by
  obtain ⟨rfl, k₂, rfl, G, hg⟩ := h
  exact Goes.leaves (x := .schedule) (t := t) (G.passUp hu) hg

/-- A user thread on the processor has a process. -/
theorem currentProcess_eq (G : Goes scope c k (some t)) (hc : k.currentThread = some t)
    (hu : t ≠ .ssi) : ∃ p, currentProcess k = .ok p := by
  cases hp : (k.tcb t).tPcb with
  | some p => exact ⟨p, by simp [currentProcess, hc, hp]⟩
  | none => exact absurd (G.inv.owned.status.mpr ⟨hu, hp⟩) G.allocated

theorem rawTrapH_pass {m : Tcb} {oldarea : State} (G : Goes .passUp c k (some t))
    (hc : k.currentThread = some t) (hu : t ≠ .ssi)
    (h : MikaBoo.rawTrapH fuel k (some m) oldarea = .ok (x, k')) : PassedUp c k t x k' := by
  simp only [MikaBoo.rawTrapH, hc] at h
  have G₁ := G.modTcb (t := t) (f := fun d => { d with tS := oldarea.stepBack })
    ⟨rfl, rfl, rfl⟩ (Or.inl rfl)
  obtain ⟨k₂, hk₂, G₂, hg₂⟩ := G₁.msgsend (a := handlerState) (d := m) (p := .tS t) hc
    G₁.allocated fun h => absurd h hu
  simp only [hk₂, ok_bind, Except.ok.injEq, Prod.mk.injEq] at h
  obtain ⟨rfl, rfl⟩ := h
  exact ⟨rfl, k₂, rfl, G₂, hg₂⟩

/-- `__trap_h` passes the thread up, or has its process terminated. -/
theorem rawTrapH {mgr : Option Tcb} {oldarea : State} (G : Goes scope c k (some t))
    (hc : k.currentThread = some t) (hu : t ≠ .ssi) (hs : mgr ≠ none → scope = .passUp)
    (h : MikaBoo.rawTrapH fuel k mgr oldarea = .ok (x, k')) : Leaves scope c k (some t) x k' := by
  cases mgr with
  | none =>
      simp only [MikaBoo.rawTrapH, hc] at h
      exact G.terminateRequest hc hu h
  | some m =>
      obtain rfl := hs (by simp)
      exact (rawTrapH_pass G hc hu h).leaves hu

end Goes

namespace Goes

variable {scope : Scope} {c : Config} {k k' : Kernel} {t : Tcb} {fuel : Nat} {x : Exit}

theorem pgmtrapH (G : Goes scope c k (some t)) (hc : k.currentThread = some t) (hu : t ≠ .ssi)
    (hs : k.managers.pgmMgr ≠ none → scope = .passUp)
    (h : MikaBoo.pgmtrapH fuel k = .ok (x, k')) : Leaves scope c k (some t) x k' := by
  obtain ⟨p, hp, h⟩ := bind_eq_ok.mp h
  rw [currentProcess_ok hp] at hs
  exact G.rawTrapH hc hu hs h

theorem tlbtrapH (G : Goes scope c k (some t)) (hc : k.currentThread = some t) (hu : t ≠ .ssi)
    (hs : k.managers.tlbMgr ≠ none → scope = .passUp)
    (h : MikaBoo.tlbtrapH fuel k = .ok (x, k')) : Leaves scope c k (some t) x k' := by
  obtain ⟨p, hp, h⟩ := bind_eq_ok.mp h
  rw [currentProcess_ok hp] at hs
  exact G.rawTrapH hc hu hs h

theorem raiseReservedInstruction (G : Goes scope c k (some t)) (hc : k.currentThread = some t) (hu : t ≠ .ssi)
    (hs : k.managers.pgmMgr ≠ none → scope = .passUp)
    (h : MikaBoo.raiseReservedInstruction fuel k = .ok (x, k')) :
    Leaves scope c k (some t) x k' := by
  let k₁ : Kernel := { k with
    pgmtrapOldarea := { k.sysbkOldarea with cp15Cause := EXC_RESERVEDINSTR } }
  have G₁ : Goes scope c k₁ (some t) := G.same { G.refines with }
  have L := pgmtrapH G₁ hc hu hs h
  exact ⟨L.goes, L.thread, L.mode, L.idle⟩

theorem sendKernel {dest msg : Value} (G : Goes scope c k (some t)) (hc : k.currentThread = some t) (hu : t ≠ .ssi)
    (hs : isKernelMode k = false → k.managers.pgmMgr ≠ none → scope = .passUp)
    (h : MikaBoo.sendKernel fuel k dest msg = .ok (x, k')) : Leaves scope c k (some t) x k' := by
  cases hm : isKernelMode k with
  | false =>
      simp only [MikaBoo.sendKernel, hm, Bool.false_eq_true, if_false] at h
      exact G.raiseReservedInstruction hc hu (hs hm) h
  | true =>
      simp only [MikaBoo.sendKernel, hm, if_true] at h
      obtain ⟨d, hd, h⟩ := bind_eq_ok.mp h
      cases d with
      | none => cases h
      | some d =>
          obtain ⟨w, k₁, hk₁, G₁, hg₁⟩ := G.send (d := d) (p := msg) G.allocated
            fun h => absurd h hu
          simp only [hc, hk₁, ok_bind, Except.ok.injEq, Prod.mk.injEq] at h
          obtain ⟨rfl, rfl⟩ := h
          exact leaves (x := .resume _) (G₁.same { G₁.refines with }) hg₁

theorem recvKernel {src pmsg : Value} (G : Goes scope c k (some t)) (hc : k.currentThread = some t) (hu : t ≠ .ssi)
    (hs : isKernelMode k = false → k.managers.pgmMgr ≠ none → scope = .passUp)
    (h : MikaBoo.recvKernel fuel k src pmsg = .ok (x, k')) : Leaves scope c k (some t) x k' := by
  cases hm : isKernelMode k with
  | false =>
      simp only [MikaBoo.recvKernel, hm, Bool.false_eq_true, if_false] at h
      exact G.raiseReservedInstruction hc hu (hs hm) h
  | true =>
      simp only [MikaBoo.recvKernel, hm, if_true] at h
      obtain ⟨s, _, h⟩ := bind_eq_ok.mp h
      exact G.recv_leaves hc h

theorem syscallOther_pass {m : Tcb} {sysNum arg1 arg2 arg3 : Value} (G : Goes .passUp c k (some t))
    (hc : k.currentThread = some t) (hu : t ≠ .ssi)
    (hm : k.managers.sysMgr.or k.managers.pgmMgr = some m)
    (h : MikaBoo.syscallOther fuel k sysNum arg1 arg2 arg3 = .ok (x, k')) :
    PassedUp c k t x k' := by
  simp only [MikaBoo.syscallOther, hc] at h
  obtain ⟨p, hp, h⟩ := bind_eq_ok.mp h
  rw [currentProcess_ok hp] at hm
  cases hsys : (k.pcb p).sysMgr with
  | some m' =>
      let k₁ : Kernel := (k.modTcb t fun d => { d with tS := k.sysbkOldarea }).writeSysMsg
        [sysNum, arg1, arg2, arg3]
      have G₀ := G.modTcb (t := t) (f := fun d => { d with tS := k.sysbkOldarea })
        ⟨rfl, rfl, rfl⟩ (Or.inl rfl)
      have G₁ : Goes .passUp c k₁ (some t) := G₀.same { G₀.refines with }
      obtain ⟨w, k₂, hk₂, G₂, hg₂⟩ := G₁.send (d := m') (p := .sysMsg) G₁.allocated
        fun h => absurd h hu
      simp only [hsys] at h
      rw [show MikaBoo.send _ m' (some t) .sysMsg = .ok (w, k₂) from hk₂] at h
      simp only [ok_bind, Except.ok.injEq, Prod.mk.injEq] at h
      obtain ⟨rfl, rfl⟩ := h
      exact ⟨rfl, k₂, rfl, G₂, hg₂⟩
  | none =>
      have hpgm : (k.pcb p).pgmMgr = some m := by simpa [hsys] using hm
      have G₁ := G.modTcb (t := t) (f := fun d => { d with tS := k.sysbkOldarea.stepBack })
        ⟨rfl, rfl, rfl⟩ (Or.inl rfl)
      obtain ⟨w, k₂, hk₂, G₂, hg₂⟩ := G₁.send (d := m) (p := .tS t) G₁.allocated
        fun h => absurd h hu
      simp only [hsys, hpgm] at h
      rw [show MikaBoo.send _ m (some t) (.tS t) = .ok (w, k₂) from hk₂] at h
      simp only [ok_bind, Except.ok.injEq, Prod.mk.injEq] at h
      obtain ⟨rfl, rfl⟩ := h
      exact ⟨rfl, k₂, rfl, G₂, hg₂⟩

/-- `syscall_other` passes the thread up, or has it terminated. -/
theorem syscallOther {sysNum arg1 arg2 arg3 : Value} (G : Goes scope c k (some t))
    (hc : k.currentThread = some t) (hu : t ≠ .ssi)
    (hs : k.managers.sysMgr.or k.managers.pgmMgr ≠ none → scope = .passUp)
    (h : MikaBoo.syscallOther fuel k sysNum arg1 arg2 arg3 = .ok (x, k')) :
    Leaves scope c k (some t) x k' := by
  cases hm : k.managers.sysMgr.or k.managers.pgmMgr with
  | some m =>
      obtain rfl := hs (by simp [hm])
      exact (syscallOther_pass G hc hu hm h).leaves hu
  | none =>
      simp only [MikaBoo.syscallOther, hc] at h
      obtain ⟨p, hp, h⟩ := bind_eq_ok.mp h
      rw [currentProcess_ok hp, Option.or_eq_none_iff] at hm
      simp only [hm.1, hm.2] at h
      exact G.terminateRequest hc hu h

end Goes

theorem Goes.syscallH {scope : Scope} {c : Config} {k k' : Kernel} {t : Tcb} {fuel : Nat} {x : Exit}
    (G : Goes scope c k (some t)) (hc : k.currentThread = some t) (hu : t ≠ .ssi)
    (hs : syscallManager k ≠ none → scope = .passUp)
    (h : MikaBoo.syscallH fuel k = .ok (x, k')) : Leaves scope c k (some t) x k' := by
  unfold syscallManager at hs
  unfold MikaBoo.syscallH at h
  dsimp only at h
  split at h
  · rename_i h₀
    rw [if_pos h₀] at hs
    exact G.raiseReservedInstruction hc hu hs h
  · rename_i h₀
    rw [if_neg h₀] at hs
    split at h
    · rename_i h₁
      rw [if_pos (Or.inl h₁)] at hs
      exact G.sendKernel hc hu (fun hm => by simpa [hm] using hs) h
    · rename_i h₁
      split at h
      · rename_i h₂
        rw [if_pos (Or.inr h₂)] at hs
        exact G.recvKernel hc hu (fun hm => by simpa [hm] using hs) h
      · rename_i h₂
        rw [if_neg (by simp [h₁, h₂])] at hs
        exact G.syscallOther hc hu hs h

/-! ## Interrupts -/

namespace Goes

variable {scope : Scope} {c : Config} {k k' : Kernel} {r : Option Tcb} {fuel : Nat} {x : Exit}

theorem ssiAllocated (G : Goes scope c k r) : (k.tcb .ssi).tStatus ≠ .none := by
  intro h
  exact (G.inv.owned.status.mp h).1 rfl

theorem intervalTimerH (G : Goes scope c k r) (hc : k.currentThread = r) (hu : r ≠ some .ssi)
    (h : MikaBoo.intervalTimerH fuel k = .ok (x, k')) : Leaves scope c k r x k' := by
  simp only [MikaBoo.intervalTimerH, hc] at h
  obtain ⟨k₂, hk₂, h⟩ := bind_eq_ok.mp h
  cases h
  cases r with
  | none =>
      obtain ⟨pc, rfl⟩ := updateClock_of_empty G.clockNext hk₂
      exact ⟨G.same { G.refines with }, rfl, rfl, Or.inl ⟨rfl, fun _ _ => rfl⟩⟩
  | some t =>
      have G₁ := G.modTcb (t := t) (f := fun d =>
        { d with tS := k.intOldarea, runTime := d.runTime + k.clockPerTimeslice }) ⟨rfl, rfl, rfl⟩
        (Or.inl rfl)
      have G₂ := G₁.act (.preempt (by simpa using hu))
        (G₁.refines.enqueue (fun _ hm => G₁.inv.scheduled.off hm rfl) .readyq)
      obtain ⟨pc, rfl⟩ := updateClock_of_empty G₂.clockNext hk₂
      exact leaves (x := .schedule) (t := t) (G₂.same { G₂.refines with }) rfl

theorem acknowledge {i : Fin 5} (G : Goes scope c k r) (hidle : k.isIdle = true → r = none)
    (h : MikaBoo.acknowledge k i = .ok (x, k')) : Leaves scope c k r x k' := by
  let k₁ : Kernel := { k with transmCommand := DEV_C_ACK }
  have G₁ : Goes scope c k₁ r := G.same { G.refines with }
  unfold MikaBoo.acknowledge at h
  obtain ⟨_, _, h⟩ := bind_eq_ok.mp h
  split at h
  · cases h
  · rename_i requester _
    have hreq : requester ≠ .ssi := by
      rintro rfl
      exact G₁.ok.soft i (by assumption)
    obtain ⟨w, k₂, hk₂, G₂, hg₂⟩ := G₁.send (d := requester) (p := null) G₁.ssiAllocated
      fun _ => hreq
    rw [show MikaBoo.send _ requester (some .ssi) null = .ok (w, k₂) from hk₂] at h
    simp only [ok_bind] at h
    obtain ⟨_, _, h⟩ := bind_eq_ok.mp h
    have hidle₂ : k₂.isIdle = k.isIdle := congrArg Globals.isIdle hg₂
    have hsoft : ∀ j, Function.update k₂.softBlockedThread i none j = some .ssi →
        k₂.softBlockedThread j = some .ssi := by
      intro j hj
      by_cases hji : j = i
      · simp [hji] at hj
      · simpa [hji] using hj
    split at h
    · rename_i hi
      cases h
      obtain rfl := hidle (hidle₂.symm.trans hi)
      refine ⟨?_, congrArg Globals.currentThread hg₂, congrArg Globals.mode hg₂,
        Or.inr ⟨rfl, rfl⟩⟩
      refine G₂.setGlobals ?_ ?_ (Or.inr ?_) hsoft
      · exact { G₂.refines with globals := rfl }
      · rfl
      · rfl
    · split at h
      · cases h
      · cases h
        refine ⟨?_, congrArg Globals.currentThread hg₂, congrArg Globals.mode hg₂,
          Or.inl ⟨hidle₂, fun _ hk => absurd (hidle₂.trans hk) (by assumption)⟩⟩
        refine G₂.setGlobals ?_ ?_ (Or.inr ?_) hsoft
        · exact { G₂.refines with globals := rfl }
        · rfl
        · rfl

theorem interruptH {pending : Fin 5 → Word} (G : Goes scope c k r) (hc : k.currentThread = r)
    (hu : r ≠ some .ssi) (hidle : k.isIdle = true → r = none) (h : MikaBoo.interruptH fuel k pending = .ok (x, k')) :
    Leaves scope c k r x k' := by
  let k₁ : Kernel := { k with timeSliceLeft := k.timer }
  have G₁ : Goes scope c k₁ r := G.same { G.refines with }
  have L : Leaves scope c k₁ r x k' := by
    unfold MikaBoo.interruptH at h
    dsimp only at h
    split at h
    · unfold ioH at h
      split at h
      · exact G₁.acknowledge hidle h
      · cases h
    · exact G₁.intervalTimerH hc hu h
  exact ⟨L.goes, L.thread, L.mode, L.idle⟩

end Goes

end MikaBoo
