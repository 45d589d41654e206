import MikaBoo.Properties.Answers
import MikaBoo.Properties.PassUp
import MikaBoo.Properties.Staffing

/-!
# The mode check of the message system calls

`IS_KERNEL_MODE` against the mode field of the caller. The macro tests bit 0 of `cpsr`,
which is also set in modes other than the system mode.
-/

namespace MikaBoo

open Intrusive Fuel Transition Forest

/-! ## One message -/

/-- From `k` to `k'` the thread `t` has sent `m` one message, which got through. Nothing else has
happened to other threads and to the processes. -/
structure Kernel.Tells (k : Kernel) (t m : Tcb) (pl : Value) (k' : Kernel) : Prop where
  history : k'.history = k.history ++
    (if (k.tcb m).Awaits t then [.received m (some t) pl] else []) ++ [.sent (some t) m pl true]
  mailbox : ∀ u, k'.view.mailbox u = if u = m ∧ ¬ (k.tcb m).Awaits t then
    k.view.mailbox u ++ [{ mSender := some t, mValue := pl }] else k.view.mailbox u
  others : ∀ u, u ≠ t → ¬ (u = m ∧ (k.tcb m).Awaits t) → k'.tcb u = k.tcb u
  processes : k'.pcb = k.pcb

section telling

variable {k k₁ k' : Kernel} {t m : Tcb} {pl : Value} {w : Word}

namespace Kernel.Tells

theorem of_posting (P : Posting k t m pl w k') (h : k.Reaches t m) : k.Tells t m pl k' := by
  cases P with
  | direct awaits =>
      obtain ⟨htcb, _, _, hhist⟩ := resumeThread_effect k m (some t) pl
      obtain ⟨_, hlinks, hmsg⟩ := resumeThread_mail k m (some t) pl
      refine ⟨?_, fun u => ?_, fun u _ hu => ?_, ?_⟩
      · simp [Kernel.record, hhist, awaits]
      · rw [if_neg (fun h => h.2 awaits)]
        exact congrFun (mailbox_of_links hlinks hmsg) u
      · have hne : u ≠ m := fun h => hu ⟨h, awaits⟩
        simp [Kernel.record, htcb, hne]
      · exact congrArg Kept.pcb (Frame.resumeThread k m (some t) pl)
  | queued busy _ _ mailbox rest =>
      refine ⟨?_, fun u => ?_, fun u _ _ => ?_, ?_⟩
      · rw [rest, if_neg busy, List.append_nil]
      · simp [mailbox u, busy]
      · rw [rest]
      · rw [rest]
  | failed unreached => exact absurd h unreached

/-- Other changes before. -/
theorem of_head (T : k₁.Tells t m pl k') (hhist : k₁.history = k.history)
    (hmail : k₁.view.mailbox = k.view.mailbox) (hothers : ∀ u, u ≠ t → k₁.tcb u = k.tcb u)
    (hawaits : (k₁.tcb m).Awaits t ↔ (k.tcb m).Awaits t) (hpcb : k₁.pcb = k.pcb) :
    k.Tells t m pl k' := by
  refine ⟨?_, fun u => ?_, fun u hu hm => ?_, T.processes.trans hpcb⟩
  · simp only [T.history, hhist, hawaits]
  · simp only [T.mailbox u, hmail, hawaits]
  · exact (T.others u hu fun h => hm ⟨h.1, hawaits.mp h.2⟩).trans (hothers u hu)

/-- Other changes after. -/
theorem of_tail (T : k.Tells t m pl k₁) (hhist : k'.history = k₁.history)
    (hmail : k'.view.mailbox = k₁.view.mailbox) (hothers : ∀ u, u ≠ t → k'.tcb u = k₁.tcb u)
    (hpcb : k'.pcb = k₁.pcb) : k.Tells t m pl k' := by
  refine ⟨hhist.trans T.history, fun u => ?_, fun u hu hm => ?_, hpcb.trans T.processes⟩
  · rw [hmail, T.mailbox u]
  · exact (hothers u hu).trans (T.others u hu hm)

/-- A message that did not get through is put down as such. -/
theorem not_failed (T : k.Tells t m pl k')
    (h : k'.history = k.history ++ [.sent (some t) m pl false]) : False := by
  have hhist := T.history
  rw [h, List.append_assoc] at hhist
  have hlast := congrArg List.getLast? (List.append_cancel_left hhist)
  rw [List.getLast?_append] at hlast
  cases hlast

end Kernel.Tells

/-- A message that a handler sends for the running thread. -/
theorem Kernel.Filed.msgsend_tells (F : k.Filed) (hc : k.currentThread = some t) (caller : State)
    (m : Tcb) (pl : Value) : ∃ k', MikaBoo.msgsend k caller m pl = .ok k' ∧
      (k.Reaches t m → k.Tells t m pl k') ∧
      (¬ k.Reaches t m → k'.history = k.history ++ [.sent (some t) m pl false]) ∧
      ∀ u, u ≠ m → k'.view.mailbox u = k.view.mailbox u := by
  let k₀ : Kernel := { k.enter with
    sysbkOldarea := { caller with a1 := SYS_SEND, a2 := .tcb m, a3 := pl, a4 := null } }
  have F₀ : k₀.Filed := F.congr rfl
  obtain ⟨w, k₁, hk₁, P⟩ := F₀.send t m pl
  refine ⟨storeReturnValue k₁ (.int w), ?_, fun h => ?_, fun h => ?_, fun u hu => ?_⟩
  · have hsend : MikaBoo.msgsend k caller m pl = MikaBoo.send k₀ m k₀.currentThread pl >>= fun o =>
        .ok (storeReturnValue o.2 (.int o.1)) := rfl
    rw [hsend, show k₀.currentThread = some t from hc, hk₁]
    rfl
  · have T : k₀.Tells t m pl k₁ := .of_posting P h
    have T₁ : k₀.Tells t m pl (storeReturnValue k₁ (.int w)) :=
      T.of_tail rfl rfl (fun _ _ => rfl) rfl
    exact T₁.of_head rfl rfl (fun _ _ => rfl) Iff.rfl rfl
  · cases P with
    | direct awaits => exact absurd (Or.inl awaits) h
    | queued _ alive room => exact absurd (Or.inr ⟨alive, room⟩) h
    | failed => rfl
  · cases P with
    | direct awaits =>
        obtain ⟨_, hlinks, hmsg⟩ := resumeThread_mail k₀ m (some t) pl
        exact congrFun (mailbox_of_links (k := k₀) hlinks hmsg) u
    | queued _ _ _ mailbox _ => exact (mailbox u).trans (if_neg hu)
    | failed => rfl

end telling

/-! ## The trap -/

/-- In the state `k`, in which the handler of a system call of `t` starts, a reserved-instruction
trap is raised for `t`, which leaves the kernel in the state `k'`: `t` is passed up to the manager
of program traps or, if there is none, asks the SSI to terminate its process and waits for it. -/
structure Kernel.Trapped (k : Kernel) (t : Tcb) (k' : Kernel) : Prop where
  oldarea : k'.pgmtrapOldarea = { k.sysbkOldarea with cp15Cause := EXC_RESERVEDINSTR }
  managed : ∀ m, k.managers.pgmMgr = some m → k.Tells t m (.tS t) k' ∧
    (k'.tcb t).tS = k'.pgmtrapOldarea.stepBack ∧ k'.view.Stands none t .passedUp
  unmanaged : k.managers.pgmMgr = none → k.Tells t .ssi (.req TERMINATE_PROCESS) k' ∧
    k'.view.Stands none t (.receiving (some .ssi))

theorem Kernel.Trapped.sends {k k' : Kernel} {t : Tcb} (T : k.Trapped t k') :
    ∃ hist d pl, pl ≠ null ∧ k'.history = k.history ++ hist ++ [.sent (some t) d pl true] := by
  cases hm : k.managers.pgmMgr with
  | some m => exact ⟨_, m, .tS t, by simp, (T.managed m hm).1.history⟩
  | none => exact ⟨_, .ssi, .req TERMINATE_PROCESS, by simp, (T.unmanaged hm).1.history⟩

/-- The message of a trap of `t` gets through: to the manager of program traps or, if there is none,
to the SSI. In that case no message of the SSI may be pending for `t`. -/
def Kernel.Heeded (k : Kernel) (t : Tcb) : Prop :=
  match k.managers.pgmMgr with
  | some m => k.Reaches t m
  | none => k.Reaches t .ssi ∧ k.view.pending .ssi t = []

instance (k : Kernel) (t : Tcb) : Decidable (k.Heeded t) := by
  unfold Kernel.Heeded
  cases k.managers.pgmMgr <;> infer_instance

theorem View.pick_eq_none_iff {v : View} {s d : Tcb} :
    v.pick (some s) d = none ↔ v.pending s d = [] := by
  rw [View.pick_eq_find, View.pending, View.mailbox, List.map_eq_nil_iff, List.filter_eq_nil_iff,
    List.find?_eq_none]
  simp [MsgT.eligible]

namespace Goes

variable {scope : Scope} {c : Config} {k k' : Kernel} {t m : Tcb} {tag : Word} {fuel : Nat}
  {x : Exit}

/-- The first half of the request of a handler. -/
theorem requests (G : Goes scope c k (some t)) (hc : k.currentThread = some t) (hu : t ≠ .ssi)
    (tag : Word) : ∃ k₁, MikaBoo.msgsend (k.writeReq tag) handlerState .ssi (.req tag) = .ok k₁ ∧
      Goes scope c k₁ (some t) ∧ k₁.currentThread = some t ∧
      (k.Reaches t .ssi → k.Tells t .ssi (.req tag) k₁) ∧
      (¬ k.Reaches t .ssi → k₁.history = k.history ++ [.sent (some t) .ssi (.req tag) false]) ∧
      (k₁.view.pick (some .ssi) t = none ↔ k.view.pending .ssi t = []) := by
  have G₀ : Goes scope c (k.writeReq tag) (some t) := G.same { G.refines with }
  have F₀ : (k.writeReq tag).Filed := G₀.refines.msgs
  obtain ⟨k₁, hk₁, hreached, hlost, hmail⟩ :=
    F₀.msgsend_tells hc handlerState .ssi (.req tag)
  obtain ⟨k₂, hk₂, G₁, hg₁⟩ := G₀.msgsend (a := handlerState) (d := .ssi) (p := .req tag) hc
    G.allocated fun h => absurd h hu
  obtain rfl := Except.ok.inj (hk₂.symm.trans hk₁)
  refine ⟨k₂, hk₁, G₁, (congrArg Globals.currentThread hg₁).trans hc, fun h => ?_, fun h => ?_, ?_⟩
  · have T : (k.writeReq tag).Tells t .ssi (.req tag) k₂ := hreached h
    exact T.of_head rfl rfl (fun _ _ => rfl) Iff.rfl rfl
  · exact hlost h
  · rw [View.pick_eq_none_iff, View.pending, View.pending, hmail t hu]
    rfl

/-- Without a message of the SSI the handler does not panic. -/
theorem terminateRequest_returns (G : Goes scope c k (some t)) (hc : k.currentThread = some t)
    (hu : t ≠ .ssi) (tag : Word) (hpending : k.view.pending .ssi t = []) :
    ∃ fuel k', MikaBoo.terminateRequest fuel k tag = .ok (.schedule, k') := by
  obtain ⟨k₁, hk₁, G₁, hc₁, _, _, hpick⟩ := G.requests hc hu tag
  have F₁ : k₁.Filed := G₁.refines.msgs
  have hcalm : k₁.Calm := by
    have hnext := G₁.clockNext
    unfold Links.listNext at hnext
    split at hnext
    · exact Or.inl (by assumption)
    · cases hnext
  have hptr : requestStopped.context.a3.isPayloadPtr = true := rfl
  obtain ⟨k₂, hk₂, _⟩ := F₁.receive_calm hptr (hpick.mpr hpending) hcalm 0
  have hrecv : MikaBoo.msgrecv 1 k₁ handlerState (some .ssi) null = .ok (.schedule, k₂) :=
    (msgrecv_eq_receive hc₁ 1 handlerState (some .ssi) null).trans hk₂
  refine ⟨1, k₂, ?_⟩
  rw [MikaBoo.terminateRequest, hk₁, ok_bind, hrecv]
  rfl

/-- What has happened when the handler of a request has come back. -/
theorem requested (G : Goes scope c k (some t)) (hc : k.currentThread = some t) (hu : t ≠ .ssi)
    (h : MikaBoo.terminateRequest fuel k tag = .ok (x, k')) : x = .schedule ∧
      k'.pgmtrapOldarea = k.pgmtrapOldarea ∧ k'.view.Stands none t (.receiving (some .ssi)) ∧
      k.view.pending .ssi t = [] ∧ (k.Tells t .ssi (.req tag) k' ↔ k.Reaches t .ssi) := by
  obtain ⟨k₁, hk₁, G₁, hc₁, hreached, hlost, hpick⟩ := G.requests hc hu tag
  simp only [MikaBoo.terminateRequest, hk₁, ok_bind] at h
  obtain ⟨⟨x₂, k₂⟩, hrecv, h⟩ := bind_eq_ok.mp h
  cases x₂ with
  | resume s => cases h
  | schedule =>
  cases h
  obtain ⟨_, ⟨st, _, hst, _⟩ | ⟨_, _, G₂⟩⟩ := G₁.msgrecv hc₁ hrecv
  · cases hst
  let k₃ : Kernel := { k₁.enter with sysbkOldarea := requestStopped.context }
  have G₃ : Goes scope c k₃ (some t) := G₁.same { G₁.refines with }
  obtain ⟨hnone, pc, hk₂'⟩ := G₃.recv_blocks (k := k₃) hc₁ hrecv
  refine ⟨rfl, ?_, ?_, hpick.mp hnone, fun T => ?_, fun hreach => ?_⟩
  · subst hk₂'
    have harea : k₁.oldarea .pgmtrap = (k.writeReq tag).oldarea .pgmtrap :=
      oldarea_msgsend hk₁ (by simp)
    exact harea
  · obtain ⟨s, hs⟩ := G₂.inv.stands G₂.ok.real t
    have hstatus : s.status = .w4msg := by
      rw [← hs.status, hk₂']
      simp [threadEnqueue, Kernel.blocking, Kernel.modTcb, Kernel.view]
    have hwait : s.wait = some .ssi := by
      rw [← hs.wait, hk₂']
      simp [threadEnqueue, Kernel.blocking, Kernel.modTcb, Kernel.view]
    cases s with
    | receiving o =>
        cases hwait
        exact hs
    | _ => cases hstatus
  · by_contra hno
    rw [hk₂'] at T
    exact T.not_failed (hlost hno)
  · subst hk₂'
    refine (hreached hreach).of_tail rfl rfl (fun u hne => ?_) rfl
    simp [threadEnqueue, Kernel.blocking, Kernel.modTcb, k₃, Kernel.enter, hne]

/-- `__trap_h` with a manager passes the thread up. -/
theorem rawTrapH_tells {old : State} (G : Goes .passUp c k (some t)) (hc : k.currentThread = some t)
    (hu : t ≠ .ssi) (hold : k.pgmtrapOldarea = old) (m : Tcb) :
    ∃ k', (∀ fuel, MikaBoo.rawTrapH fuel k (some m) old = .ok (.schedule, k')) ∧
      k'.pgmtrapOldarea = old ∧ (k'.tcb t).tS = old.stepBack ∧ k'.view.Stands none t .passedUp ∧
      (k.Tells t m (.tS t) k' ↔ k.Reaches t m) := by
  let k₁ : Kernel := k.modTcb t fun d => { d with tS := old.stepBack }
  have F : k.Filed := G.refines.msgs
  have F₁ : k₁.Filed := F.congr rfl
  obtain ⟨k₂, hk₂, hreached, hlost, _⟩ := F₁.msgsend_tells (t := t) hc handlerState m (.tS t)
  let k' := threadEnqueue k₂ t .blockedq
  have hraw : ∀ fuel, MikaBoo.rawTrapH fuel k (some m) old = .ok (.schedule, k') := by
    intro fuel
    simp only [MikaBoo.rawTrapH, hc]
    rw [show MikaBoo.msgsend _ handlerState m (.tS t) = .ok k₂ from hk₂]
    rfl
  have hreach : k₁.Reaches t m ↔ k.Reaches t m := Kernel.Reaches.modTcb_iff k t _ rfl rfl
  have hsame : ∀ u, u ≠ t → k₁.tcb u = k.tcb u := by
    intro u hne
    simp [k₁, Kernel.modTcb, hne]
  have hawaits : (k₁.tcb m).Awaits t ↔ (k.tcb m).Awaits t := by
    by_cases hm : m = t
    · subst hm
      simp [k₁, Kernel.modTcb, TcbT.Awaits]
    · rw [hsame m hm]
  have S := G.rawTrapH_stopped hc hu (hraw 0)
  refine ⟨k', hraw, ?_, (S.saved rfl t hc).1, ?_, fun T => ?_, fun h => ?_⟩
  · exact (oldarea_msgsend (a := .pgmtrap) hk₂ (by simp)).trans hold
  · exact (PassedUp.stands (G.rawTrapH_pass hc hu (hraw 0)) hu).2
  · by_contra hno
    have hhist : k₂.history = k.history ++ [.sent (some t) m (.tS t) false] :=
      hlost fun h => hno (hreach.mp h)
    exact T.not_failed hhist
  · have T : k₁.Tells t m (.tS t) k' :=
      (hreached (hreach.mpr h)).of_tail rfl rfl (fun _ _ => rfl) rfl
    exact T.of_head rfl rfl hsame hawaits rfl

theorem rawTrapH_none (hc : k.currentThread = some t) (fuel : Nat) (old : State) :
    MikaBoo.rawTrapH fuel k none old = MikaBoo.terminateRequest fuel k TERMINATE_PROCESS := by
  simp only [MikaBoo.rawTrapH, hc]

theorem raise_eq (G : Goes scope c k (some t)) (hc : k.currentThread = some t) (hu : t ≠ .ssi)
    (fuel : Nat) : MikaBoo.raiseReservedInstruction fuel k =
      MikaBoo.rawTrapH fuel
        { k with pgmtrapOldarea := { k.sysbkOldarea with cp15Cause := EXC_RESERVEDINSTR } }
        k.managers.pgmMgr { k.sysbkOldarea with cp15Cause := EXC_RESERVEDINSTR } := by
  obtain ⟨p, hp⟩ := G.currentProcess_eq hc hu
  let k₁ : Kernel := { k with
    pgmtrapOldarea := { k.sysbkOldarea with cp15Cause := EXC_RESERVEDINSTR } }
  have hproc : currentProcess k₁ = .ok p := hp
  simp only [MikaBoo.raiseReservedInstruction, MikaBoo.pgmtrapH]
  rw [show currentProcess _ = .ok p from hproc, currentProcess_ok hp]
  rfl

/-- When a trap has come back, it has been raised as it should be exactly if its message got
through. -/
theorem raised (G : Goes .passUp c k (some t)) (hc : k.currentThread = some t) (hu : t ≠ .ssi)
    (h : MikaBoo.raiseReservedInstruction fuel k = .ok (x, k')) :
    x = .schedule ∧ (k.Trapped t k' ↔ k.Heeded t) := by
  let old : State := { k.sysbkOldarea with cp15Cause := EXC_RESERVEDINSTR }
  let k₁ : Kernel := { k with pgmtrapOldarea := old }
  have G₁ : Goes .passUp c k₁ (some t) := G.same { G.refines with }
  have hsame : ∀ {m pl}, k₁.Tells t m pl k' ↔ k.Tells t m pl k' := by
    intro m pl
    constructor <;> exact fun T => T.of_head rfl rfl (fun _ _ => rfl) Iff.rfl rfl
  have h : MikaBoo.rawTrapH fuel k₁ k.managers.pgmMgr old = .ok (x, k') :=
    (G.raise_eq hc hu fuel).symm.trans h
  cases hm : k.managers.pgmMgr with
  | some m =>
      rw [hm] at h
      obtain ⟨k₂, hk₂, harea, hsaved, hstands, hiff⟩ := G₁.rawTrapH_tells hc hu rfl m
      obtain ⟨rfl, rfl⟩ := Prod.mk.inj (Except.ok.inj ((hk₂ fuel).symm.trans h))
      rw [Kernel.Heeded, hm]
      refine ⟨rfl, fun T => hiff.mp (hsame.mpr (T.managed m hm).1), fun hreach => ?_⟩
      refine ⟨harea, fun m' hm' => ?_, fun hnone => ?_⟩
      · obtain rfl := Option.some.inj (hm.symm.trans hm')
        exact ⟨hsame.mp (hiff.mpr hreach), hsaved.trans (congrArg State.stepBack harea.symm),
          hstands⟩
      · rw [hm] at hnone
        cases hnone
  | none =>
      have h : MikaBoo.terminateRequest fuel k₁ TERMINATE_PROCESS = .ok (x, k') := by
        rw [hm] at h
        exact (rawTrapH_none (k := k₁) hc fuel old).symm.trans h
      obtain ⟨rfl, harea, hstands, hpending, hiff⟩ := G₁.requested hc hu h
      rw [Kernel.Heeded, hm]
      refine ⟨rfl, fun T => ⟨hiff.mp (hsame.mpr (T.unmanaged hm).1), hpending⟩, fun hreach => ?_⟩
      refine ⟨harea, fun m' hm' => ?_, fun _ => ⟨hsame.mp (hiff.mpr hreach.1), hstands⟩⟩
      rw [hm] at hm'
      cases hm'

theorem raise_returns (G : Goes .passUp c k (some t)) (hc : k.currentThread = some t)
    (hu : t ≠ .ssi) (hheeded : k.Heeded t) :
    ∃ fuel r, MikaBoo.raiseReservedInstruction fuel k = .ok r := by
  let old : State := { k.sysbkOldarea with cp15Cause := EXC_RESERVEDINSTR }
  let k₁ : Kernel := { k with pgmtrapOldarea := old }
  have G₁ : Goes .passUp c k₁ (some t) := G.same { G.refines with }
  cases hm : k.managers.pgmMgr with
  | some m =>
      obtain ⟨k₂, hk₂, _⟩ := G₁.rawTrapH_tells hc hu rfl m
      refine ⟨0, (.schedule, k₂), (G.raise_eq hc hu 0).trans ?_⟩
      rw [hm]
      exact hk₂ 0
  | none =>
      rw [Kernel.Heeded, hm] at hheeded
      obtain ⟨fuel, k₂, hk₂⟩ := G₁.terminateRequest_returns hc hu TERMINATE_PROCESS hheeded.2
      refine ⟨fuel, (.schedule, k₂), (G.raise_eq hc hu fuel).trans ?_⟩
      rw [hm]
      exact (rawTrapH_none (k := k₁) hc fuel _).trans hk₂

end Goes

/-! ## Calls -/

/-- What a message system call of the caller asks for. -/
def Kernel.messageCall (fuel : Nat) (k : Kernel) : Exec (Exit × Kernel) := do
  let args := k.sysbkOldarea
  if args.a1 = SYS_SEND then
    match ← args.a2.toTcb with
    | none => .error .undefined
    | some dest =>
        let (r, k) ← send k dest k.currentThread args.a3
        let k := storeReturnValue k (.int r)
        .ok (.resume k.sysbkOldarea, k)
  else recv fuel k (← args.a2.toTcb) args.a3

/-- The state in which the handler of the `SYSCALL` of the running thread starts. -/
def Kernel.called (k : Kernel) : Kernel := { k.enter with sysbkOldarea := k.cpu }

/-- The thread `t` is on the processor and makes a message system call, with `w` in `cpsr`. -/
structure Kernel.Calls (k : Kernel) (t : Tcb) (w : Word) : Prop where
  user : k.userRuns = true
  running : k.currentThread = some t
  mode : k.cpu.cpsr = .int w
  number : k.cpu.a1 = SYS_SEND ∨ k.cpu.a1 = SYS_RECV

/-- The message system call of `t` is served in system mode and raises a trap in every other
mode. -/
def Kernel.Privileged (k : Kernel) (t : Tcb) (w : Word) : Prop :=
  if w &&& 0x1F = 0x1F then ∀ fuel, syscallH fuel k.called = k.called.messageCall fuel
  else ∃ fuel k', syscallH fuel k.called = .ok (.schedule, k') ∧ k.called.Trapped t k'

/-- The mode is one that the macro takes for what it is, and a trap gets through. -/
def Kernel.Guards (k : Kernel) (t : Tcb) (w : Word) : Prop :=
  w &&& 0x1F = 0x1F ∨ (w.getLsbD 0 = false ∧ k.Heeded t)

section calls

variable {k k' : Kernel} {t : Tcb} {w : Word} {fuel : Nat} {x : Exit}

theorem isKernelMode_eq (hw : k.sysbkOldarea.cpsr = .int w) : isKernelMode k = w.getLsbD 0 := by
  have hbit : w &&& 1#32 = BitVec.setWidth 32 (BitVec.ofBool (w.getLsbD 0)) :=
    BitVec.and_one_eq_setWidth_ofBool_getLsbD
  simp only [isKernelMode, hw, ↓reduceIte]
  rw [show w &&& 1 = w &&& 1#32 from rfl, hbit]
  cases w.getLsbD 0 <;> rfl

theorem syscallH_message (ha : k.sysbkOldarea.a1 = SYS_SEND ∨ k.sysbkOldarea.a1 = SYS_RECV) :
    syscallH fuel k =
      if isKernelMode k then k.messageCall fuel else raiseReservedInstruction fuel k := by
  let checked (call : Exec (Exit × Kernel)) :=
    if isKernelMode k then call else raiseReservedInstruction fuel k
  rcases ha with ha | ha
  · have hnull : k.sysbkOldarea.a1 ≠ null := by simp [ha]
    have hcall : syscallH fuel k = sendKernel fuel k k.sysbkOldarea.a2 k.sysbkOldarea.a3 :=
      (if_neg hnull).trans (if_pos ha)
    exact hcall.trans (congrArg checked (if_pos ha).symm)
  · have hnull : k.sysbkOldarea.a1 ≠ null := by simp [ha]
    have hsend : k.sysbkOldarea.a1 ≠ SYS_SEND := by simp [ha]
    have hcall : syscallH fuel k = recvKernel fuel k k.sysbkOldarea.a2 k.sysbkOldarea.a3 :=
      (if_neg hnull).trans ((if_neg hsend).trans (if_pos ha))
    exact hcall.trans (congrArg checked (if_neg hsend).symm)

theorem odd_of_system (h : w &&& 0x1F = 0x1F) : w.getLsbD 0 = true := by
  have hbit := congrArg (·.getLsbD 0) h
  simpa using hbit

/-- From `k` to `k'` nothing has been sent, or at last NULL. -/
def SendsNull (k k' : Kernel) : Prop :=
  k'.history = k.history ∨ ∃ s d r, k'.history.getLast? = some (.sent s d null r)

theorem SendsNull.of_head {k₁ : Kernel} (h : SendsNull k₁ k') (hhist : k₁.history = k.history) :
    SendsNull k k' := h.imp_left fun h => h.trans hhist

/-- The messages of a tick are NULL. -/
theorem SendsNull.wakeClockWaiters (h : MikaBoo.wakeClockWaiters fuel k = .ok k') :
    SendsNull k k' := by
  induction fuel generalizing k with
  | zero => cases h
  | succ fuel ih =>
      obtain ⟨⟨o, k₁⟩, hk₁, h⟩ := bind_eq_ok.mp h
      have hdequeued : k₁.history = k.history := by
        obtain ⟨_, _, hk₁⟩ := bind_eq_ok.mp hk₁
        split at hk₁ <;> cases hk₁ <;> rfl
      cases o with
      | none =>
          cases h
          exact Or.inl hdequeued
      | some u =>
          obtain ⟨k₂, hk₂, h⟩ := bind_eq_ok.mp h
          obtain ⟨⟨w, k₃⟩, hsend, hk₂⟩ := bind_eq_ok.mp hk₂
          cases hk₂
          refine Or.inr ?_
          rcases ih h with hsame | hlast
          · obtain ⟨r, hr⟩ := last_of_send hsend
            exact ⟨_, _, r, (congrArg List.getLast? hsame).trans hr⟩
          · exact hlast

theorem SendsNull.updateClock {ms : Word} (h : MikaBoo.updateClock fuel k ms = .ok k') :
    SendsNull k k' := by
  unfold MikaBoo.updateClock at h
  dsimp only at h
  split at h
  · exact (wakeClockWaiters h).of_head rfl
  · cases h
    exact Or.inl rfl

/-- A call that is served returns to the caller, or sends nothing else. -/
theorem SendsNull.messageCall (h : k.messageCall fuel = .ok (.schedule, k')) :
    SendsNull k k' := by
  unfold Kernel.messageCall at h
  dsimp only at h
  split at h
  · obtain ⟨o, _, h⟩ := bind_eq_ok.mp h
    cases o with
    | none => cases h
    | some d =>
        obtain ⟨_, _, h⟩ := bind_eq_ok.mp h
        cases h
  · obtain ⟨o, _, h⟩ := bind_eq_ok.mp h
    unfold MikaBoo.recv at h
    split at h
    · cases h
    · split at h
      · cases h
      · obtain ⟨⟨m, k₁⟩, hk₁, hrest⟩ := bind_eq_ok.mp h
        cases m with
        | some m => cases hrest
        | none =>
            obtain rfl := msgqGet_eq_none hk₁
            obtain ⟨k₂, hk₂, hend⟩ := bind_eq_ok.mp hrest
            have S := (updateClock hk₂).of_head (k := k₁) rfl
            cases o <;> cases hend <;> exact S

/-- A trap sends something else. -/
theorem Kernel.Trapped.not_sendsNull (T : k.Trapped t k') : ¬ SendsNull k k' := by
  obtain ⟨hist, d, pl, hpl, hhist⟩ := T.sends
  rintro (hsame | ⟨s, d', r, hlast⟩)
  · rw [hsame, List.append_assoc, List.self_eq_append_right] at hhist
    cases (List.append_eq_nil_iff.mp hhist).2
  · rw [hhist, List.getLast?_concat] at hlast
    exact hpl (Obs.sent.inj (Option.some.inj hlast)).2.2.1

namespace Kernel.Calls

/-- The handler starts with the caller on the processor. -/
theorem goes (H : Good k) (call : k.Calls t w) :
    t ≠ .ssi ∧ Goes .passUp ⟨k.view, some t⟩ k.called (some t) := by
  have hu : t ≠ .ssi := by
    rintro rfl
    obtain ⟨i, hi⟩ := Good.user_of_userRuns call.user
    rw [call.running] at hi
    cases hi
  have G : Goes .passUp ⟨k.view, some t⟩ k (some t) := by
    rw [← call.running]
    exact H.goes
  exact ⟨hu, G.same { G.refines with }⟩

theorem syscallH_eq (call : k.Calls t w) (fuel : Nat) : syscallH fuel k.called =
    if w.getLsbD 0 then k.called.messageCall fuel else raiseReservedInstruction fuel k.called := by
  rw [syscallH_message (k := k.called) call.number,
    isKernelMode_eq (k := k.called) call.mode]

/-- In the other modes with bit 0 set the call is served. -/
theorem not_privileged (call : k.Calls t w) (hsys : w &&& 0x1F ≠ 0x1F)
    (hodd : w.getLsbD 0 = true) : ¬ k.Privileged t w := by
  unfold Privileged
  rw [if_neg hsys]
  rintro ⟨fuel, k', hk', T⟩
  rw [call.syscallH_eq, if_pos hodd] at hk'
  exact T.not_sendsNull (.messageCall hk')

theorem privileged_iff (H : Good k) (call : k.Calls t w) : k.Privileged t w ↔ k.Guards t w := by
  obtain ⟨hu, G⟩ := call.goes H
  have hc : k.called.currentThread = some t := call.running
  have hheeded : k.called.Heeded t ↔ k.Heeded t := Iff.rfl
  by_cases hsys : w &&& 0x1F = 0x1F
  · unfold Privileged
    rw [if_pos hsys]
    refine iff_of_true (fun fuel => ?_) (Or.inl hsys)
    rw [call.syscallH_eq, if_pos (odd_of_system hsys)]
  · rw [Guards, or_iff_right hsys, ← hheeded]
    cases hodd : w.getLsbD 0 with
    | true => exact iff_of_false (call.not_privileged hsys hodd) fun h => Bool.noConfusion h.1
    | false =>
        unfold Privileged
        rw [if_neg hsys]
        have hraise : ∀ fuel, syscallH fuel k.called = raiseReservedInstruction fuel k.called :=
          fun fuel => by rw [call.syscallH_eq, hodd]; rfl
        rw [and_iff_right rfl]
        constructor
        · rintro ⟨fuel, k', hk', T⟩
          rw [hraise] at hk'
          exact (G.raised hc hu hk').2.mp T
        · intro h
          obtain ⟨fuel, ⟨x, k'⟩, hk'⟩ := G.raise_returns hc hu h
          obtain ⟨rfl, hiff⟩ := G.raised hc hu hk'
          exact ⟨fuel, k', (hraise fuel).trans hk', hiff.mpr h⟩

end Kernel.Calls

end calls

/-! ## The end of the process -/

namespace Kernel

/-- The SSI has nothing of `t`: no message is pending or held, and `t` waits for no device. -/
structure Unengaged (k : Kernel) (t : Tcb) : Prop where
  pending : k.view.pending t .ssi = []
  held : k.held ≠ some t
  devices : k.engagements t = 0

/-- `t`, a thread of `p`, waits for the SSI, which has its request for the termination of `p` and
nothing else of it. -/
structure Condemned (k : Kernel) (t : Tcb) (p : Pcb) : Prop where
  owner : (k.tcb t).tPcb = some p
  blocked : (k.tcb t).tStatus = .w4msg
  source : (k.tcb t).tWait4sender = some .ssi
  request : (k.view.pending t .ssi = [.req TERMINATE_PROCESS] ∧ k.held ≠ some t) ∨
    (k.view.pending t .ssi = [] ∧ k.held = some t)
  devices : k.engagements t = 0

/-- If the SSI serves `t`, it finds TERMINATE_PROCESS in the word that it reads. -/
def Legible (k : Kernel) (t : Tcb) (e : Event) : Prop :=
  k.serves e = true → k.applicant = some t → k.request = some .terminateProcess

instance (k : Kernel) (t : Tcb) (e : Event) : Decidable (k.Legible t e) :=
  inferInstanceAs (Decidable (_ → _ → _))

end Kernel

/-- From `v` to `v'` the process `p`, maybe with an ancestor, and its descendants are freed with
their threads. -/
def View.Ended (v : View) (p : Pcb) (v' : View) : Prop :=
  ∃ r, v.Below p r ∧ v.Dissolved r v'

section condemned

variable {k k' : Kernel} {t : Tcb} {p : Pcb} {e : Event} {g : List Tcb} {hist : List Obs}
  {fuel : Nat}

/-- A thread that is not served keeps its process, or that is terminated. -/
theorem owner_of_bystander (H : Good k) (hp : (k.tcb t).tPcb = some p)
    (hother : k.serves e = true → k.applicant ≠ some t) (h : step fuel k e = .ok k') :
    (k'.tcb t).tPcb = some p ∨ k.view.Ended p k'.view := by
  rcases step_served H.rolls h with ⟨_, _, _, _, hcounts⟩ | ⟨u, q, r, rfl, _, ha, hq, S⟩
  · have howner : k'.kept.counts.owner = k.kept.counts.owner := (congrArg Counts.owner hcounts :)
    exact Or.inl ((congrFun howner t).trans hp)
  · have hut : t ≠ u := by
      rintro rfl
      exact hother (by simp [Kernel.serves, point_of_request hq]) ha
    by_cases hm : t ∈ k.victims u k.ssiMsg q
    · cases hterm : k.terminated u k.ssiMsg q with
      | some r =>
          have hstaff : t ∈ k.kept.staff r := by simpa [Kernel.victims, hterm] using hm
          obtain ⟨p', hb, hp'⟩ := H.rolls.mem_staff.mp hstaff
          obtain rfl := Option.some.inj (hp.symm.trans hp')
          exact Or.inr ⟨r, hb, Staffing.dissolved H.rolls (S.pruned hterm).2⟩
      | none =>
          simp only [Kernel.victims, hterm] at hm
          split at hm
          · exact absurd (List.mem_singleton.mp hm) hut
          · cases hm
    · have hlive : t = .ssi ∨ k.kept.counts.owner t ≠ none := Or.inr (by
        change (k.tcb t).tPcb ≠ none
        simp [hp])
      exact Or.inl ((S.spared H.rolls hm hlive).2.trans hp)

theorem mem_senders {d : Tcb} : t ∈ (receipts hist d).map Prod.fst ↔ received hist t d ≠ [] := by
  rw [received_eq, Ne, List.map_eq_nil_iff, List.filter_eq_nil_iff]
  simp

theorem not_mem_served (hother : k.serves e = true → k.applicant ≠ some t) : t ∉ k.served e := by
  unfold Kernel.served
  split
  · rename_i hs
    simpa using hother hs
  · simp

/-- What the SSI has of `t` after a step in which it does not serve `t`. -/
theorem held_iff (S : k.Sequential g) (hr : Regular k e) (h : step fuel k e = .ok k')
    (hother : k.serves e = true → k.applicant ≠ some t) (adds : k.Adds k' hist) :
    k'.held = some t ↔ k.held = some t ∨ received hist t .ssi ≠ [] := by
  have hserved := not_mem_served hother
  have horder : k.held.toList ++ (receipts hist .ssi).map Prod.fst =
      k.served e ++ k'.held.toList := by
    have hall := (Kernel.callers_append adds).symm.trans (S.progress hr h).1
    rw [S.order, List.append_assoc, List.append_assoc] at hall
    exact List.append_cancel_left hall
  have hmem := congrArg (t ∈ ·) horder
  simp only [List.mem_append, hserved, false_or, Option.mem_toList, mem_senders,
    eq_iff_iff] at hmem
  exact hmem.symm

namespace Kernel.Condemned

/-- The request is in the queue of the SSI, or the SSI has received it. -/
theorem request_of_carried (hcarried : received hist t .ssi ++ k'.view.pending t .ssi =
      [.req TERMINATE_PROCESS])
    (hheld : k'.held = some t ↔ k.held = some t ∨ received hist t .ssi ≠ [])
    (hfree : k.held ≠ some t) :
    (k'.view.pending t .ssi = [.req TERMINATE_PROCESS] ∧ k'.held ≠ some t) ∨
      (k'.view.pending t .ssi = [] ∧ k'.held = some t) := by
  rw [or_iff_right hfree] at hheld
  cases hreceived : received hist t .ssi with
  | nil =>
      rw [hreceived, List.nil_append] at hcarried
      exact Or.inl ⟨hcarried, fun h => hheld.mp h hreceived⟩
  | cons v l =>
      rw [hreceived, List.cons_append, List.cons.injEq, List.append_eq_nil_iff] at hcarried
      exact Or.inr ⟨hcarried.2.2, hheld.mpr (by simp [hreceived])⟩

theorem live (H : Good k) (C : k.Condemned t p) : k.Live t :=
  H.live_of_status (by simp [C.blocked])

theorem ne_ssi (H : Good k) (C : k.Condemned t p) : t ≠ .ssi := by
  rintro rfl
  exact absurd (H.rolls.ssi.symm.trans C.owner) nofun

theorem rests (H : Good k) (C : k.Condemned t p) : k.currentThread ≠ some t := by
  intro hcur
  cases C.blocked.symm.trans (H.inv.scheduled.running hcur)

/-- In a step in which the SSI does not serve `t` it sends it nothing, so `t` waits on. -/
theorem waits (C : k.Condemned t p) (S : k.Sequential g) (hr : Regular k e)
    (hother : k.serves e = true → k.applicant ≠ some t) (h : MikaBoo.step fuel k e = .ok k')
    (howner : (k'.tcb t).tPcb = some p) : k'.Condemned t p := by
  have H := S.good
  obtain ⟨H', ms⟩ := H.step hr h
  have hlive' : k'.Live t := by
    intro hfree
    cases (H'.inv.owned.free.mp hfree).2.symm.trans howner
  have hserved := List.count_eq_zero.mpr (not_mem_served hother)
  have hedit : ∀ s, e ≠ .edit t s := by
    rintro s rfl
    obtain ⟨_, hk₁, _⟩ := bind_eq_ok.mp h
    simp only [entry] at hk₁
    split at hk₁
    · rename_i hedit
      cases C.blocked.symm.trans hedit.2.2.1
    · cases hk₁
  obtain ⟨hist, adds, hheard⟩ := H.hears (C.live H) ⟨⟨hr, fuel, h⟩, C.rests H, hedit, hlive'⟩
  -- what the SSI has sent
  have hpaid := (S.progress hr h).2.2 t
  rw [adds, answers_append, C.devices, hserved] at hpaid
  have hsilent : answers hist t = 0 := by omega
  have U : Unaltered k k' t := by
    rcases hheard with ⟨U, _⟩ | ⟨o, pl, _, heard, completes⟩
    · exact U
    · exfalso
      rw [C.source] at completes
      cases o with
      | some s =>
          obtain ⟨hs, hm⟩ := completes
          obtain rfl : Tcb.ssi = s := Option.some.inj (hs.resolve_right (by simp))
          obtain ⟨l₁, l₂, rfl⟩ := List.append_of_mem hm
          rw [answers_append, ← List.singleton_append, answers_append, answers_of_ssi,
            if_pos rfl] at hsilent
          omega
      | none =>
          obtain ⟨rfl, _⟩ := completes
          have spared : t ∉ k.casualties e := fun hm => hlive' (H.free_of_casualty hr h hm)
          obtain ⟨s, hs, _, hwait⟩ :=
            (H.aborted_iff hr h adds spared).mp (mem_filter_receives.mp (by simp [heard]))
          obtain rfl := Option.some.inj (C.source.symm.trans hwait)
          exact H'.live_ssi (H.free_of_casualty hr h hs)
  refine ⟨howner, U.status.trans C.blocked, U.wait.trans C.source, ?_, by omega⟩
  -- `t` sends nothing
  obtain ⟨hist', adds', hcarried⟩ := ms.carries (C.live H) H.live_ssi hlive' H'.live_ssi
  obtain rfl : hist' = hist := List.append_cancel_left (Eq.trans adds'.symm adds)
  have hmute : sent hist' t .ssi = [] := by
    have hposts := step_posts H.refines.msgs (C.rests H) (C.ne_ssi H) h .ssi
    rw [adds, posts_append, List.append_right_eq_self] at hposts
    rw [sent_eq_posts, hposts]
    rfl
  have hcarried : received hist' t .ssi ++ k'.view.pending t .ssi = k.view.pending t .ssi := by
    rw [hmute, List.append_nil] at hcarried
    exact hcarried
  have hheld := held_iff S hr h hother adds
  rcases C.request with ⟨hpending, hfree⟩ | ⟨hpending, hbusy⟩
  · exact request_of_carried (hcarried.trans hpending) hheld hfree
  · rw [hpending, List.append_eq_nil_iff] at hcarried
    exact Or.inr ⟨hcarried.2, hheld.mpr (Or.inl hbusy)⟩

/-- A step leaves `t` waiting, or terminates its process. -/
theorem step (C : k.Condemned t p) (S : k.Sequential g) (hr : Regular k e) (hl : k.Legible t e)
    (h : MikaBoo.step fuel k e = .ok k') :
    k'.Condemned t p ∨ k.view.Ended p k'.view := by
  have H := S.good
  by_cases hs : k.serves e = true ∧ k.applicant = some t
  · right
    have hreq := hl hs.1 hs.2
    cases e with
    | ssi =>
        have hends := Staffing.step_ends H.rolls hs.2 hreq C.owner h
        exact ⟨p, Below.refl p, hends.1 (.process rfl)⟩
    | _ => cases hs.1
  · have hother : k.serves e = true → k.applicant ≠ some t := fun h₁ h₂ => hs ⟨h₁, h₂⟩
    rcases owner_of_bystander H C.owner hother h with howner | hterm
    · exact Or.inl (C.waits S hr hother h howner)
    · exact Or.inr hterm

/-- The SSI terminates the process when it serves the request. -/
theorem serve (C : k.Condemned t p) (H : Good k) (hm : k.mode = .running)
    (hcur : k.currentThread = some .ssi) (ha : k.applicant = some t)
    (hq : k.request = some .terminateProcess) :
    ∃ k', RegularStep k .ssi k' ∧ k.view.Dissolved p k'.view := by
  obtain ⟨fuel, k₁, hk₁⟩ := Staffing.returns H hcur C.owner (Or.inl (.process rfl))
  have hstep : MikaBoo.step fuel k .ssi = .ok k₁ := by
    rw [step_serving hm hcur ha hq, hk₁]
    rfl
  have hr : Regular k .ssi := by
    intro q hq'
    obtain rfl := Option.some.inj (hq.symm.trans hq')
    refine ⟨nofun, fun _ u hu => ?_⟩
    obtain rfl := Option.some.inj (ha.symm.trans hu)
    exact ⟨C.ne_ssi H, C.live H⟩
  exact ⟨k₁, ⟨hr, fuel, hstep⟩, (Staffing.step_ends H.rolls ha hq C.owner hstep).1 (.process rfl)⟩

end Kernel.Condemned

/-- A trap whose message gets through to the SSI condemns the thread. -/
theorem condemned_of_call {w : Word} (S : k.Sequential g) (call : k.Calls t w)
    (hodd : w.getLsbD 0 = false) (hm : k.managers.pgmMgr = none) (hheeded : k.Heeded t)
    (U : k.Unengaged t) (hp : (k.tcb t).tPcb = some p) (h : step fuel k .syscall = .ok k') :
    k'.Condemned t p := by
  have H := S.good
  obtain ⟨hu, G⟩ := call.goes H
  have hc : k.called.currentThread = some t := call.running
  obtain ⟨H', ms⟩ := H.step (e := .syscall) trivial h
  -- the trap
  obtain ⟨⟨x, k₁⟩, hk₁, hleave⟩ := bind_eq_ok.mp h
  have hraise : raiseReservedInstruction fuel k.called = .ok (x, k₁) := by
    have hcall := call.syscallH_eq fuel
    rw [hodd] at hcall
    rw [← hk₁, entry, if_pos call.user]
    exact hcall.symm
  obtain ⟨rfl, hiff⟩ := G.raised hc hu hraise
  obtain ⟨T, hstands⟩ := (hiff.mpr hheeded).unmanaged hm
  obtain ⟨ha, _⟩ := leave_contexts (P := fun _ => True) hleave
  have htcb := ha.tcb t trivial
  have hblocked : (k'.tcb t).tStatus = .w4msg := by
    rw [htcb]
    exact hstands.status
  have hlive : k.Live t := H.live_of_status (by
    rw [show (k.tcb t).tStatus = .ready from H.inv.scheduled.running call.running]
    simp)
  have hlive' : k'.Live t := H'.live_of_status (by simp [hblocked])
  -- what it has put down
  obtain ⟨hist, adds, hcarried⟩ :=
    ms.carries hlive H.live_ssi hlive' H'.live_ssi
  have adds : k.Adds k' hist := adds
  have hsent : sent hist t .ssi = [.req TERMINATE_PROCESS] := by
    have hhist := adds
    rw [Kernel.Adds, (leave_mail hleave).1, T.history, List.append_assoc] at hhist
    rw [← List.append_cancel_left hhist]
    split <;> simp [sent]
  have hcarried : received hist t .ssi ++ k'.view.pending t .ssi = [.req TERMINATE_PROCESS] := by
    rw [hsent] at hcarried
    refine hcarried.trans ?_
    change k.view.pending t .ssi ++ _ = _
    rw [U.pending, List.nil_append]
  have hother : k.serves .syscall = true → k.applicant ≠ some t := by
    simp [Kernel.serves]
  have hpaid := (S.progress (e := .syscall) trivial h).2.2 t
  rw [adds, answers_append, U.devices, show k.served .syscall = [] from rfl,
    List.count_nil] at hpaid
  refine ⟨?_, hblocked, ?_, ?_, by omega⟩
  · rcases step_served H.rolls h with ⟨_, _, _, _, hcounts⟩ | ⟨_, _, _, he, _⟩
    · have howner : k'.kept.counts.owner = k.kept.counts.owner := (congrArg Counts.owner hcounts :)
      exact (congrFun howner t).trans hp
    · cases he
  · rw [htcb]
    exact hstands.wait
  · exact Kernel.Condemned.request_of_carried hcarried
      (held_iff S (e := .syscall) trivial h hother adds) U.held

/-- A step of a regular run in which the SSI, if it serves `t`, finds the request of `t`. -/
abbrev LegibleStep (t : Tcb) : Kernel → Event → Kernel → Prop :=
  GuardedStep fun k e => Regular k e ∧ k.Legible t e

/-- What has become of `t`, a thread of `p`, in a run from `k₁` to `k₂`: it waits without running
for the SSI to terminate `p`, as the SSI does when it serves the request, or `p` has been
terminated. -/
inductive Doomed (t : Tcb) (p : Pcb) (k₁ : Kernel) (es : List Event) (k₂ : Kernel) : Prop
  | waits (condemned : k₂.Condemned t p) (rests : k₂.currentThread ≠ some t)
      (served : k₂.mode = .running → k₂.currentThread = some .ssi → k₂.applicant = some t →
        k₂.request = some .terminateProcess → ∃ k', RegularStep k₂ .ssi k' ∧
          k₂.view.Dissolved p k'.view)
  | terminated {es₁ e es₂ u u'} (split : es = es₁ ++ e :: es₂)
      (before : Run (LegibleStep t) k₁ es₁ u) (condemned : u.Condemned t p)
      (ends : LegibleStep t u e u') (after : Run (LegibleStep t) u' es₂ k₂)
      (done : u.view.Ended p u'.view)

theorem Kernel.Condemned.run {k₁ k₂ : Kernel} {es : List Event} (C : k₁.Condemned t p)
    (S : ∃ g, k₁.Sequential g) (run : Run (LegibleStep t) k₁ es k₂) : Doomed t p k₁ es k₂ := by
  have hsequential : ∀ {k es}, Run (LegibleStep t) k₁ es k → ∃ g, k.Sequential g :=
    fun run => Kernel.Sequential.exists_run S (weaken_guard (fun _ _ h => h.1) run)
  have hwaits : ∀ {k es}, k.Condemned t p → (∃ g, k.Sequential g) → Doomed t p k₁ es k :=
    fun C ⟨_, S⟩ => .waits C (C.rests S.good) (C.serve S.good)
  induction run with
  | nil => exact hwaits C S
  | @snoc u u' es e run last ih =>
      obtain ⟨⟨hr, hl⟩, fuel, h⟩ := id last
      obtain ⟨g, S₁⟩ := hsequential run
      cases ih with
      | waits condemned =>
          rcases condemned.step S₁ hr hl h with C' | done
          · exact hwaits C' (hsequential (run.snoc last))
          · exact .terminated rfl run condemned last .nil done
      | terminated split before condemned ends after done =>
          refine .terminated ?_ before condemned ends (after.snoc last) done
          rw [split, List.append_assoc, List.cons_append]

end condemned

/-- The first thread is about to send itself a message, with the given `cpsr`. -/
def Sample.sending (cpsr : Word) : List Event :=
  [.start, .ssi, .run { a1 := SYS_SEND, a2 := .tcb (.thread 0), a3 := .int 5, cpsr := .int cpsr }
    (Sample.memory []) 0]

/-- The sample machine, where later frames leave the words of requests as they are. -/
def Sample.lasting : Hardware :=
  { Sample.hardware with overlays := fun _ => { req := fun reqtag _ => .int reqtag } }

end MikaBoo
