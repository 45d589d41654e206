import MikaBoo.Properties.Idle
import MikaBoo.Properties.Slots

/-!
# Every event is handled

If programs pass pointers where system calls and requests ask for them, then the kernel code
comes back from every event of a regular run, or it stops on one of a few grounds.
-/

namespace MikaBoo

open Intrusive Fuel Transition

/-- The code has come back, or it has stopped: in `HALT` when only the SSI was left, or in `PANIC`
in a state that `J` allows. -/
def Sane (J : Kernel → Prop) {A : Type} : Exec A → Prop
  | .ok _ => True
  | .error (.halt k) => ∀ i, (k.tcb (.thread i)).tPcb = none
  | .error (.panic k) => J k
  | .error .undefined => False
  | .error .unfinished => False

/-- With enough fuel the code is sane. -/
abbrev Sound (J : Kernel → Prop) {A : Type} (f : Nat → Exec A) : Prop :=
  Settles .unfinished f (Sane J)

section rules

variable {J : Kernel → Prop} {A B : Type} {f : Nat → Exec A} {g : Nat → A → Exec B}

theorem Sound.ok {a : A} (h : ∀ n, f n = .ok a) : Sound J f :=
  Settles.of_eq (r := .ok a) trivial h

theorem Sound.panic {k : Kernel} (hk : J k) (h : ∀ n, f n = .error (.panic k)) : Sound J f :=
  Settles.of_eq (r := .error (.panic k)) hk h

theorem Sound.of_returns {P : A → Prop} (h : Returns .unfinished f P) : Sound J f :=
  h.settles fun _ _ => trivial

theorem Sound.bind (hf : Sound J f) (hg : ∀ n a, f n = .ok a → Sound J fun n => g n a) :
    Sound J fun n => f n >>= g n := by
  apply Settles.bind hf hg
  intro e he
  cases e <;> exact he

/-- The first part needs no fuel. -/
theorem Sound.after {x : Exec A} {a : A} (hx : x = .ok a) (hg : Sound J fun n => g n a) :
    Sound J fun n => x >>= g n := by
  subst hx
  exact hg

end rules

/-! ## What programs have to do -/

/-- The registers of the `SYSCALL` hold the pointers that `msgsend` and `msgrecv` pass. -/
structure Kernel.Callable (k : Kernel) : Prop where
  send : isKernelMode k = true → k.sysbkOldarea.a1 = SYS_SEND → ∃ d, k.sysbkOldarea.a2 = .tcb d
  recv : isKernelMode k = true → k.sysbkOldarea.a1 = SYS_RECV →
    (∃ s, k.sysbkOldarea.a2 = tcbPtr s) ∧ k.sysbkOldarea.a3.isPayloadPtr = true

/-- The words of the request at `msg` are what the service takes them for. -/
def Request.Formed (k : Kernel) (msg : Value) : Request → Prop
  | .createProcess | .createThread => ∃ v s, reqField k msg 1 = .ok v ∧ loadState k v = .ok s
  | .setpgmmgr | .settlbmgr | .setsysmgr => ∃ m, reqField k msg 1 = .ok (tcbPtr m)
  | .doIo => ∀ i : Fin 4, ∃ v, reqField k msg (i + 1) = .ok v
  | .getProcessid => ∃ v w, reqField k msg 1 = .ok v ∧ getProcessidS k v = .ok w
  | .getParentprocid => ∃ v w, reqField k msg 1 = .ok v ∧ getParentprocidS k v = .ok w
  | .getMythreadid => ∃ v, reqField k msg 1 = .ok v
  | .getErrno | .terminateProcess | .terminateThread | .getCputime | .waitForClock => True

/-- The SSI can read the request that it holds. -/
structure Kernel.Readable (k : Kernel) : Prop where
  code : ∃ v, reqField k k.ssiMsg 0 = .ok v
  formed : ∀ q ∈ k.request, q.Formed k k.ssiMsg

/-- The event can occur in the state `k`, in a machine with eight devices on a line. -/
def Possible (k : Kernel) : Event → Prop
  | .start => k.mode = .booting
  | .run _ _ _ => k.userRuns = true
  | .elapse _ => k.mode ≠ .booting ∧ k.userRuns = false
  | .edit t _ =>
      k.userRuns = true ∧ k.currentThread ≠ some t ∧ (k.tcb t).tStatus = .ready ∧ t ≠ .ssi
  | .syscall => k.userRuns = true ∧ Kernel.Callable { k with sysbkOldarea := k.cpu }
  | .pgmtrap _ | .tlbtrap _ => k.userRuns = true
  | .interrupt pending => (k.userRuns = true ∨ k.mode = .waiting) ∧
      (k.timerFired = true ∨ ∃ i, ∃ j : Fin 8, (pending i).getLsbD j = true)
  | .ssi => k.mode = .running ∧ k.currentThread = some .ssi ∧ (k.ssiPoint = .serving → k.Readable)

/-- Why the kernel, entered in the state `k` with the event, stops in `PANIC` in the state `k'`. -/
inductive Ground (k : Kernel) : Event → Kernel → Prop
  /-- No thread is ready, and none is counted as waiting for a device. -/
  | deadlock {e k'} (nobody : k'.currentThread = none) (empty : k'.view.sched .readyq = [])
      (count : k'.softBlockCount = 0) : Ground k e k'
  /-- The timer of the idle processor has expired. -/
  | idle {pending k'} (waiting : k.mode = .waiting) (fired : k.timerFired = true) :
      Ground k (.interrupt pending) k'
  /-- Nobody has asked for the completion. -/
  | unasked {pending k'} (slot : k.softBlockedThread TERMINAL_REQUESTER_INDEX = none) :
      Ground k (.interrupt pending) k'
  /-- The message for the requester does not get through. -/
  | unreached {pending k' t} (slot : k.softBlockedThread TERMINAL_REQUESTER_INDEX = some t)
      (lost : ¬ k.Reaches .ssi t) : Ground k (.interrupt pending) k'
  /-- The thread for which a handler asks for a termination has got a message of the SSI that is
  still pending, and the handler takes it for the reply. -/
  | answered {e k' t} (running : k.currentThread = some t) (early : k.view.pending .ssi t ≠ []) :
      Ground k e k'
  /-- The code of the request is unknown. -/
  | unknown {k'} (serving : k.ssiPoint = .serving) (none : k.request = none) : Ground k .ssi k'
  /-- The request is for another device than the transmitter of terminal 0. -/
  | device {k' v} (request : k.request = some .doIo) (word : reqField k k.ssiMsg 1 = .ok v)
      (other : v ≠ TERMINAL0_TRANSM_COMMAND) : Ground k .ssi k'
  /-- The transmitter is in use. -/
  | busy {k' t} (request : k.request = some .doIo)
      (slot : k.softBlockedThread TERMINAL_REQUESTER_INDEX = some t) : Ground k .ssi k'

/-! ## Handlers -/

namespace Goes

variable {J : Kernel → Prop} {scope : Scope} {c : Config} {k k' : Kernel} {t : Tcb}
  {src : Option Tcb} {ptr : Value}

theorem updateClock_sound (hq : k.schedLinks.listNext .tWait4clock = none) (ms : Word) :
    Sound J fun n => updateClock n k ms := by
  simp only [updateClock]
  split
  · apply Sound.of_returns (P := fun _ => True)
    apply Returns.round (f := fun _ => .ok _) (by rfl)
    · intro n
      simp only [wakeClockWaiters, threadDequeue, SchedQueue.head, hq, containerOf, ok_bind]
      rfl
    · exact Returns.of_ok trivial fun _ => rfl
  · exact Sound.ok fun _ => rfl

theorem recv_sound (G : Goes scope c k (some t)) (hc : k.currentThread = some t)
    (hp : ptr.isPayloadPtr = true) : Sound J fun n => MikaBoo.recv n k src ptr := by
  simp only [MikaBoo.recv, hc, hp, Bool.true_eq_false, if_false]
  cases hpick : k.view.pick src t with
  | some m =>
      obtain ⟨k₁, hk₁, _⟩ := G.refines.msgqGet_some (p := ptr) hpick
      exact Sound.after hk₁ (Sound.ok fun _ => rfl)
  | none =>
      apply Sound.after (G.refines.msgqGet_none hpick)
      have hclock := G.clockNext
      dsimp only
      apply Sound.bind (updateClock_sound (by exact hclock) _)
      intro _ k₂ _
      split <;> exact Sound.ok fun _ => rfl

theorem msgrecv_sound (caller : State) (G : Goes scope c k (some t))
    (hc : k.currentThread = some t) (hp : ptr.isPayloadPtr = true) :
    Sound J fun n => MikaBoo.msgrecv n k caller src ptr := by
  let k₁ : Kernel := { k.enter with sysbkOldarea :=
    { caller with a1 := SYS_RECV, a2 := tcbPtr src, a3 := ptr, a4 := null } }
  have G₁ : Goes scope c k₁ (some t) := G.same { G.refines with }
  exact G₁.recv_sound hc hp

/-- A message of the SSI that the thread can receive is pending. -/
theorem pending_of_pick {m : Msg} (h : k.view.pick (some .ssi) t = some m) :
    k.view.pending .ssi t ≠ [] := by
  have hmem : k.msg m ∈ k.view.mailbox t := List.mem_map_of_mem (View.mem_of_pick h)
  have hsender : (k.msg m).mSender = some .ssi := View.sender_of_pick h
  intro hnil
  rw [View.pending, List.map_eq_nil_iff, List.filter_eq_nil_iff] at hnil
  exact hnil _ hmem (by simpa using hsender)

theorem terminateRequest_sound (tag : Word) (G : Goes scope c k (some t))
    (hc : k.currentThread = some t) (hu : t ≠ .ssi)
    (hJ : k.view.pending .ssi t ≠ [] → ∀ k', J k') :
    Sound J fun n => MikaBoo.terminateRequest n k tag := by
  have G₀ : Goes scope c (k.writeReq tag) (some t) := G.same { G.refines with }
  obtain ⟨k₁, hk₁, G₁, hg₁⟩ := G₀.msgsend (a := handlerState) (d := .ssi) (p := .req tag) hc
    G.allocated fun h => absurd h hu
  have hc₁ : k₁.currentThread = some t := (congrArg Globals.currentThread hg₁).trans hc
  -- the request itself does not change what is pending for the thread
  have hpend : k₁.view.pending .ssi t = k.view.pending .ssi t := by
    let k₀ : Kernel := { k.enter with sysbkOldarea :=
      { handlerState with a1 := SYS_SEND, a2 := .tcb .ssi, a3 := .req tag, a4 := null } }
    have F : k₀.Filed := (G.refines.msgs : Represents msgLayout k.msgLinks k.view.msgs)
    obtain ⟨w, k₂, hk₂, P⟩ := F.send t .ssi (.req tag)
    have hsend : MikaBoo.msgsend k handlerState .ssi (.req tag) =
        MikaBoo.send k₀ .ssi k₀.currentThread (.req tag) >>= fun o =>
          .ok (storeReturnValue o.2 (.int o.1)) := rfl
    rw [show k₀.currentThread = some t from hc, hk₂] at hsend
    obtain rfl := Except.ok.inj (hk₁.symm.trans hsend)
    exact (P.others hu .ssi).2
  apply Sound.after hk₁
  apply Sound.bind (G₁.msgrecv_sound handlerState hc₁ rfl)
  rintro n ⟨x, k₂⟩ hk₂
  obtain ⟨_, ⟨st, m, rfl, hm, _, _⟩ | ⟨rfl, _, _⟩⟩ := G₁.msgrecv hc₁ hk₂
  · exact Sound.panic (hJ (hpend ▸ pending_of_pick hm) k₂) fun _ => rfl
  · exact Sound.ok fun _ => rfl

theorem rawTrapH_sound (mgr : Option Tcb) (oldarea : State) (G : Goes scope c k (some t))
    (hc : k.currentThread = some t) (hu : t ≠ .ssi)
    (hJ : k.view.pending .ssi t ≠ [] → ∀ k', J k') :
    Sound J fun n => MikaBoo.rawTrapH n k mgr oldarea := by
  simp only [MikaBoo.rawTrapH, hc]
  cases mgr with
  | none => exact G.terminateRequest_sound _ hc hu hJ
  | some m =>
      have G₁ := G.modTcb (t := t) (f := fun d => { d with tS := oldarea.stepBack })
        ⟨rfl, rfl, rfl⟩ (Or.inl rfl)
      obtain ⟨k₂, hk₂, _, _⟩ := G₁.msgsend (a := handlerState) (d := m) (p := .tS t) hc
        G₁.allocated fun h => absurd h hu
      exact Sound.after hk₂ (Sound.ok fun _ => rfl)

theorem pgmtrapH_sound (G : Goes scope c k (some t)) (hc : k.currentThread = some t)
    (hu : t ≠ .ssi) (hJ : k.view.pending .ssi t ≠ [] → ∀ k', J k') :
    Sound J fun n => MikaBoo.pgmtrapH n k := by
  obtain ⟨p, hp⟩ := G.currentProcess_eq hc hu
  exact Sound.after hp (G.rawTrapH_sound _ _ hc hu hJ)

theorem tlbtrapH_sound (G : Goes scope c k (some t)) (hc : k.currentThread = some t)
    (hu : t ≠ .ssi) (hJ : k.view.pending .ssi t ≠ [] → ∀ k', J k') :
    Sound J fun n => MikaBoo.tlbtrapH n k := by
  obtain ⟨p, hp⟩ := G.currentProcess_eq hc hu
  exact Sound.after hp (G.rawTrapH_sound _ _ hc hu hJ)

theorem raiseReservedInstruction_sound (G : Goes scope c k (some t))
    (hc : k.currentThread = some t) (hu : t ≠ .ssi)
    (hJ : k.view.pending .ssi t ≠ [] → ∀ k', J k') :
    Sound J fun n => MikaBoo.raiseReservedInstruction n k := by
  let k₁ : Kernel := { k with
    pgmtrapOldarea := { k.sysbkOldarea with cp15Cause := EXC_RESERVEDINSTR } }
  have G₁ : Goes scope c k₁ (some t) := G.same { G.refines with }
  exact G₁.pgmtrapH_sound hc hu hJ

theorem syscallOther_sound (a₁ a₂ a₃ a₄ : Value) (G : Goes scope c k (some t))
    (hc : k.currentThread = some t) (hu : t ≠ .ssi)
    (hJ : k.view.pending .ssi t ≠ [] → ∀ k', J k') :
    Sound J fun n => MikaBoo.syscallOther n k a₁ a₂ a₃ a₄ := by
  obtain ⟨p, hp⟩ := G.currentProcess_eq hc hu
  simp only [MikaBoo.syscallOther, hc]
  apply Sound.after hp
  cases hsys : (k.pcb p).sysMgr with
  | some m =>
      let k₁ : Kernel := (k.modTcb t fun d => { d with tS := k.sysbkOldarea }).writeSysMsg
        [a₁, a₂, a₃, a₄]
      have G₀ := G.modTcb (t := t) (f := fun d => { d with tS := k.sysbkOldarea })
        ⟨rfl, rfl, rfl⟩ (Or.inl rfl)
      have G₁ : Goes scope c k₁ (some t) := G₀.same { G₀.refines with }
      obtain ⟨w, k₂, hk₂, _, _⟩ := G₁.send (d := m) (p := .sysMsg) G₁.allocated
        fun h => absurd h hu
      exact Sound.after hk₂ (Sound.ok fun _ => rfl)
  | none =>
      cases hpgm : (k.pcb p).pgmMgr with
      | some m =>
          have G₁ := G.modTcb (t := t) (f := fun d => { d with tS := k.sysbkOldarea.stepBack })
            ⟨rfl, rfl, rfl⟩ (Or.inl rfl)
          obtain ⟨w, k₂, hk₂, _, _⟩ := G₁.send (d := m) (p := .tS t) G₁.allocated
            fun h => absurd h hu
          exact Sound.after hk₂ (Sound.ok fun _ => rfl)
      | none => exact G.terminateRequest_sound _ hc hu hJ

theorem toTcb_tcbPtr (s : Option Tcb) : (tcbPtr s).toTcb = .ok s := by
  cases s <;> rfl

theorem syscallH_sound (G : Goes scope c k (some t)) (hc : k.currentThread = some t)
    (hu : t ≠ .ssi) (call : k.Callable) (hJ : k.view.pending .ssi t ≠ [] → ∀ k', J k') :
    Sound J fun n => MikaBoo.syscallH n k := by
  have htrap : Sound J fun n => MikaBoo.raiseReservedInstruction n k :=
    G.raiseReservedInstruction_sound hc hu hJ
  simp only [MikaBoo.syscallH]
  split
  · exact htrap
  · split
    · rename_i h₁
      simp only [MikaBoo.sendKernel]
      split
      · rename_i hm
        obtain ⟨d, hd⟩ := call.send hm h₁
        obtain ⟨w, k₂, hk₂, _, _⟩ := G.send (d := d) (p := k.sysbkOldarea.a3) G.allocated
          fun h => absurd h hu
        rw [hd]
        apply Sound.after (a := some d) rfl
        rw [hc]
        exact Sound.after hk₂ (Sound.ok fun _ => rfl)
      · exact htrap
    · split
      · rename_i h₂
        simp only [MikaBoo.recvKernel]
        split
        · rename_i hm
          obtain ⟨⟨s, hs⟩, hptr⟩ := call.recv hm h₂
          rw [hs]
          exact Sound.after (toTcb_tcbPtr s) (G.recv_sound hc hptr)
        · exact htrap
      · exact G.syscallOther_sound _ _ _ _ hc hu hJ

end Goes

/-! ## Interrupts -/

namespace Goes

variable {J : Kernel → Prop} {scope : Scope} {c : Config} {k k' : Kernel} {r : Option Tcb}

theorem intervalTimerH_sound (G : Goes scope c k r) (hc : k.currentThread = r)
    (hu : r ≠ some .ssi) : Sound J fun n => MikaBoo.intervalTimerH n k := by
  simp only [MikaBoo.intervalTimerH, hc]
  cases r with
  | none =>
      have hclock := G.clockNext
      exact Sound.bind (updateClock_sound (by exact hclock) _) fun _ _ _ => Sound.ok fun _ => rfl
  | some t =>
      have G₁ := G.modTcb (t := t) (f := fun d =>
        { d with tS := k.intOldarea, runTime := d.runTime + k.clockPerTimeslice }) ⟨rfl, rfl, rfl⟩
        (Or.inl rfl)
      have G₂ := G₁.act (.preempt (by simpa using hu))
        (G₁.refines.enqueue (fun _ hm => G₁.inv.scheduled.off hm rfl) .readyq)
      have hclock := G₂.clockNext
      exact Sound.bind (updateClock_sound (by exact hclock) _) fun _ _ _ => Sound.ok fun _ => rfl

theorem acknowledge_sane (i : Fin 5) (G : Goes scope c k r)
    (hwait : k.mode = .waiting → k.isIdle = true)
    (hnone : k.softBlockedThread i = none → ∀ k', J k')
    (hlost : ∀ t, k.softBlockedThread i = some t → ¬ k.Reaches .ssi t → ∀ k', J k') :
    Sane J (MikaBoo.acknowledge k i) := by
  let k₁ : Kernel := { k with transmCommand := DEV_C_ACK }
  have G₁ : Goes scope c k₁ r := G.same { G.refines with }
  have F₁ : k₁.Filed := (G.refines.msgs : Represents msgLayout k.msgLinks k.view.msgs)
  cases hi : k.softBlockedThread i with
  | none =>
      have hstop : MikaBoo.acknowledge k i = .error (.panic k₁) := by
        simp [MikaBoo.acknowledge, hi, assert, k₁]
      rw [hstop]
      exact hnone hi k₁
  | some t =>
      have ht : t ≠ .ssi := by
        rintro rfl
        exact G.ok.soft i hi
      obtain ⟨w, k₂, hk₂, _, hg₂⟩ := G₁.send (d := t) (p := null) G₁.ssiAllocated fun _ => ht
      obtain ⟨w', k₂', hk₂', P⟩ := F₁.send .ssi t null
      cases hk₂.symm.trans hk₂'
      have hcode : MikaBoo.acknowledge k i = (do
          assert k₂ (w = SEND_SUCCESS)
          let k₃ : Kernel := { k₂ with
            softBlockedThread := Function.update k₂.softBlockedThread i none }
          if k₂.isIdle then .ok (.schedule, { k₃ with isIdle := false })
          else if k₂.mode = .waiting then .error .undefined
          else .ok (.resume k₂.intOldarea, k₃)) := by
        simp only [MikaBoo.acknowledge, hi, Option.isSome_some, assert, if_true, ok_bind]
        rw [show MikaBoo.send _ t (some .ssi) null = .ok (w, k₂) from hk₂]
        rfl
      rw [hcode]
      by_cases hw : w = SEND_SUCCESS
      · have hidle : k₂.isIdle = k.isIdle := congrArg Globals.isIdle hg₂
        have hmode : k₂.mode = k.mode := congrArg Globals.mode hg₂
        simp only [hw, decide_true, assert, if_true, ok_bind]
        rw [hidle, hmode]
        cases hk : k.isIdle with
        | true => trivial
        | false =>
            have hrun : k.mode ≠ .waiting := by
              intro hm
              rw [hwait hm] at hk
              cases hk
            simp only [hrun, Bool.false_eq_true, if_false]
            trivial
      · have hstop : ¬ k.Reaches .ssi t := fun h => hw ((Slots.success_iff P).mpr h)
        simp only [hw, decide_false, assert, Bool.false_eq_true, if_false, error_bind]
        exact hlost t hi hstop k₂

theorem interruptH_sound {pending : Fin 5 → Word} (G : Goes scope c k r)
    (hc : k.currentThread = r) (hu : r ≠ some .ssi)
    (hpend : k.timerFired = true ∨ ∃ i, ∃ j : Fin 8, (pending i).getLsbD j = true)
    (hwait : k.mode = .waiting → k.isIdle = true)
    (hnone : k.softBlockedThread TERMINAL_REQUESTER_INDEX = none → ∀ k', J k')
    (hlost : ∀ t, k.softBlockedThread TERMINAL_REQUESTER_INDEX = some t →
      ¬ k.Reaches .ssi t → ∀ k', J k') :
    Sound J fun n => MikaBoo.interruptH n k pending := by
  let k₁ : Kernel := { k with timeSliceLeft := k.timer }
  have G₁ : Goes scope c k₁ r := G.same { G.refines with }
  simp only [MikaBoo.interruptH]
  split
  · rename_i hslice
    have hbit : ∃ i : Fin 5, ∃ j : Fin 8, (pending i).getLsbD j = true := by
      exact hpend.resolve_left fun hfired => of_decide_eq_true hfired hslice
    simp only [ioH, hbit, if_true]
    exact Settles.of_eq (G₁.acknowledge_sane _ hwait hnone hlost) fun _ => rfl
  · exact G₁.intervalTimerH_sound hc hu

/-! ## The scheduler -/

theorem scheduler_sane (G : Goes scope c k none)
    (hdead : ∀ k', k'.currentThread = none → k'.view.sched .readyq = [] →
      k'.softBlockCount = 0 → J k')
    (hidle : k.isIdle = true → ∀ k', J k') : Sane J (MikaBoo.scheduler k) := by
  simp only [MikaBoo.scheduler]
  cases hq : k.view.sched .readyq with
  | cons t rest =>
      obtain ⟨k₂, hk₂, _⟩ := G.refines.dequeue_cons hq
      rw [hk₂]
      trivial
  | nil =>
      rw [G.refines.dequeue_nil hq]
      simp only [ok_bind, emptyReadyqH]
      split
      · rename_i hcount
        -- the counter counts the SSI and the allocated threads
        have hpop : k.view.population = 0 := by
          have hone : (1 : Word) = BitVec.ofNat 32 (1 + k.view.population) :=
            hcount.symm.trans G.inv.counted
          have hle : k.view.population ≤ 30 := by
            have h := Finset.card_le_univ
              (Finset.univ.filter fun i => (k.view.tcb (.thread i)).tPcb ≠ none)
            rwa [Fintype.card_fin] at h
          have hnat := congrArg BitVec.toNat hone
          rw [BitVec.toNat_ofNat, Nat.mod_eq_of_lt (by omega)] at hnat
          have h1 : (1 : Word).toNat = 1 := rfl
          omega
        intro i
        have hi : i ∉ Finset.univ.filter fun i => (k.view.tcb (.thread i)).tPcb ≠ none := by
          rw [Finset.card_eq_zero.mp hpop]
          exact Finset.notMem_empty i
        by_contra howner
        exact hi (Finset.mem_filter.mpr ⟨Finset.mem_univ i, howner⟩)
      · split
        · rename_i hzero
          exact hdead _ rfl hq hzero
        · cases hk : k.isIdle with
          | true => exact hidle hk _
          | false => trivial

end Goes

/-! ## The SSI -/

theorem Refines.rawCreateThreadS_total {k : Kernel} {v : View} (R : Refines k v) (s : State)
    (proc : Option Pcb) : ∃ o, MikaBoo.rawCreateThreadS k s proc = .ok o := by
  unfold MikaBoo.rawCreateThreadS
  by_cases hnone : proc = none ∨ v.threads .free = []
  · rw [R.threadAlloc_none hnone]
    exact ⟨_, rfl⟩
  · rw [not_or] at hnone
    obtain ⟨p, rfl⟩ := Option.ne_none_iff_exists'.mp hnone.1
    obtain ⟨t, rest, hq⟩ := List.exists_cons_of_ne_nil hnone.2
    obtain ⟨k₁, hk₁, _⟩ := R.threadAlloc_some (p := p) hq
    rw [hk₁]
    exact ⟨_, rfl⟩

theorem Refines.createProcessS_total {k : Kernel} {v : View} (R : Refines k v) (T : v.Tree)
    (s : State) (a : Tcb) : ∃ o, MikaBoo.createProcessS k s a = .ok o := by
  unfold MikaBoo.createProcessS
  by_cases hnone : (k.tcb a).tPcb = none ∨ v.procs .free = []
  · rw [R.procAlloc_none hnone]
    exact ⟨_, rfl⟩
  · rw [not_or] at hnone
    obtain ⟨parent, hparent⟩ := Option.ne_none_iff_exists'.mp hnone.1
    obtain ⟨p, rest, hq⟩ := List.exists_cons_of_ne_nil hnone.2
    have hroot : p ≠ root := (T.free.mp (by simp [hq])).1
    obtain ⟨k₁, hk₁, R₁⟩ := R.procAlloc_some parent hq hroot
    obtain ⟨⟨o, k₂⟩, hk₂⟩ := R₁.rawCreateThreadS_total s (some p)
    rw [hparent, hk₁, ok_bind]
    dsimp only
    rw [hk₂, ok_bind]
    cases o <;> exact ⟨_, rfl⟩

namespace Goes

variable {J : Kernel → Prop} {scope : Scope} {c : Config} {k k' : Kernel} {t : Tcb} {msg : Value}

theorem terminateProcessS_sound (G : Goes scope c k (some .ssi)) (ht : k.Allocated t) :
    Sound J fun n => MikaBoo.terminateProcessS n k t := by
  obtain ⟨p, hp⟩ := G.owner_of_allocated ht
  exact Sound.of_returns (G.refines.terminateProcessS G.inv.terminable hp)

theorem terminateThreadS_sound (G : Goes scope c k (some .ssi)) (ht : k.Allocated t) :
    Sound J fun n => MikaBoo.terminateThreadS n k t := by
  obtain ⟨p, hp⟩ := G.owner_of_allocated ht
  simp only [MikaBoo.terminateThreadS, hp]
  split
  · exact G.terminateProcessS_sound ht
  · have hm : t ∈ k.view.threads (.of p) := G.inv.owned.owned.mpr hp
    have hst : (k.view.tcb t).tStatus ≠ .none := by
      rw [Ne, G.inv.owned.status]
      simp [show (k.view.tcb t).tPcb = _ from hp]
    obtain ⟨q, hq⟩ := G.inv.terminable.queued.somewhere ht.1 hst
    exact Sound.of_returns (G.refines.rawTerminateThreadS hm hq)

theorem rawSetmgr_sound (mgr : PcbT → Option Tcb) (set : PcbT → Option Tcb → PcbT)
    (new : Option Tcb) (G : Goes scope c k (some .ssi)) (ht : k.Allocated t) :
    Sound J fun n => MikaBoo.rawSetmgr mgr set n k new t := by
  obtain ⟨p, hp⟩ := G.owner_of_allocated ht
  cases new with
  | none => exact Sound.ok fun _ => rfl
  | some m =>
      simp only [MikaBoo.rawSetmgr, hp]
      split
      · exact Sound.bind (G.terminateProcessS_sound ht) fun _ _ _ => Sound.ok fun _ => rfl
      · exact Sound.ok fun _ => rfl

theorem doIoS_sane {device command d₁ d₂ : Value}
    (hdev : device ≠ TERMINAL0_TRANSM_COMMAND → ∀ k', J k')
    (hbusy : ∀ u, k.softBlockedThread TERMINAL_REQUESTER_INDEX = some u → ∀ k', J k') :
    Sane J (MikaBoo.doIoS k device command d₁ d₂ t) := by
  unfold MikaBoo.doIoS
  dsimp only
  split
  · split
    · exact hbusy _ (by assumption) _
    · trivial
  · exact hdev (by assumption) k

theorem service_sound {q : Request} (hq : q ≠ .waitForClock)
    (G : Goes q.scope c k (some .ssi)) (ht : q.scope = .terminate → k.Allocated t)
    (formed : q.Formed k msg)
    (hdev : q = .doIo → ∀ v, reqField k msg 1 = .ok v → v ≠ TERMINAL0_TRANSM_COMMAND → ∀ k', J k')
    (hbusy : q = .doIo →
      ∀ u, k.softBlockedThread TERMINAL_REQUESTER_INDEX = some u → ∀ k', J k') :
    Sound J fun n => MikaBoo.service n k t msg q := by
  cases q with
  | getErrno | getCputime => exact Sound.ok fun _ => rfl
  | waitForClock => exact absurd rfl hq
  | createProcess =>
      obtain ⟨v, s, hv, hs⟩ := formed
      obtain ⟨o, ho⟩ := G.refines.createProcessS_total G.inv.tree s t
      exact Sound.after hv (Sound.after hs (Sound.after ho (Sound.ok fun _ => rfl)))
  | createThread =>
      obtain ⟨v, s, hv, hs⟩ := formed
      obtain ⟨o, ho⟩ := G.refines.rawCreateThreadS_total s (k.tcb t).tPcb
      exact Sound.after hv (Sound.after hs (Sound.after ho (Sound.ok fun _ => rfl)))
  | terminateProcess =>
      exact Sound.bind (G.terminateProcessS_sound (ht rfl)) fun _ _ _ => Sound.ok fun _ => rfl
  | terminateThread =>
      exact Sound.bind (G.terminateThreadS_sound (ht rfl)) fun _ _ _ => Sound.ok fun _ => rfl
  | setpgmmgr | settlbmgr | setsysmgr =>
      obtain ⟨m, hm⟩ := formed
      exact Sound.after hm (Sound.after (toTcb_tcbPtr m) (G.rawSetmgr_sound _ _ m (ht rfl)))
  | doIo =>
      obtain ⟨v₁, h₁⟩ := formed 0
      obtain ⟨v₂, h₂⟩ := formed 1
      obtain ⟨v₃, h₃⟩ := formed 2
      obtain ⟨v₄, h₄⟩ := formed 3
      refine Sound.after h₁ (Sound.after h₂ (Sound.after h₃ (Sound.after h₄ ?_)))
      have hsane : Sane J (MikaBoo.doIoS k v₁ v₂ v₃ v₄ t) :=
        doIoS_sane (hdev rfl v₁ h₁) (hbusy rfl)
      exact Sound.bind (Settles.of_eq hsane fun _ => rfl) fun _ _ _ => Sound.ok fun _ => rfl
  | getProcessid | getParentprocid =>
      obtain ⟨v, w, hv, hw⟩ := formed
      exact Sound.after hv (Sound.after hw (Sound.ok fun _ => rfl))
  | getMythreadid =>
      obtain ⟨v, hv⟩ := formed
      exact Sound.after hv (Sound.ok fun _ => rfl)

/-- The SSI serves a request that it can read, and sends the reply. -/
theorem ssiServe_sound (G : Goes scope c k (some .ssi)) (hc : k.currentThread = some .ssi)
    (hu : t ≠ .ssi) (hs : ∀ q, requestOf k msg = some q → scope = q.scope ∧ q ≠ .waitForClock ∧
      (q.scope = .terminate → k.Allocated t))
    (code : ∃ v, reqField k msg 0 = .ok v)
    (formed : ∀ q, requestOf k msg = some q → q.Formed k msg)
    (hnone : requestOf k msg = none → ∀ k', J k')
    (hdev : requestOf k msg = some .doIo →
      ∀ v, reqField k msg 1 = .ok v → v ≠ TERMINAL0_TRANSM_COMMAND → ∀ k', J k')
    (hbusy : requestOf k msg = some .doIo →
      ∀ u, k.softBlockedThread TERMINAL_REQUESTER_INDEX = some u → ∀ k', J k') :
    Sound J fun n => MikaBoo.ssiServe n k t msg := by
  obtain ⟨tag, htag⟩ := code
  have hreq : requestOf k msg = Request.ofTag tag := by simp [requestOf, htag]
  apply Sound.after htag
  cases hq : Request.ofTag tag with
  | none => exact Sound.panic (hnone (hreq.trans hq) k) fun _ => rfl
  | some q =>
      have hsome : requestOf k msg = some q := hreq.trans hq
      obtain ⟨rfl, hclock, ht⟩ := hs q hsome
      have hservice : Sound J fun n => MikaBoo.service n k t msg q := by
        apply G.service_sound hclock ht (formed q hsome)
        · exact fun h => hdev (h ▸ hsome)
        · exact fun h => hbusy (h ▸ hsome)
      apply Sound.bind hservice
      rintro n ⟨o, k₁⟩ hk₁
      obtain ⟨G₁, hrun⟩ := G.service hclock hu ht hk₁
      cases o with
      | none => exact Sound.ok fun _ => rfl
      | some reply =>
          obtain ⟨k₂, hk₂, _, _⟩ := G₁.msgsend (a := k₁.cpu) (d := t) (p := reply)
            (hrun.thread.trans hc) G₁.ssiAllocated fun _ => hu
          exact Sound.after hk₂ (Sound.ok fun _ => rfl)

end Goes

/-! ## Events -/

namespace Good

variable {k k₁ : Kernel} {e : Event} {x : Exit}

theorem ssi_sound (H : Good k) (hr : Regular k .ssi) (hp : Possible k .ssi) :
    Sound (Ground k .ssi) fun n => MikaBoo.ssi n k := by
  obtain ⟨_, hc, hread⟩ := hp
  have G : Goes (ssiScope k) ⟨k.view, k.currentThread⟩ k (some .ssi) := by
    rw [← hc]
    exact H.goes
  have G₁ : ∀ p, Goes (ssiScope k) ⟨k.view, k.currentThread⟩ { k with ssiPoint := p }
      (some .ssi) := fun p =>
    G.setGlobals { G.refines with globals := rfl } rfl (Or.inl rfl) fun _ hi => hi
  simp only [MikaBoo.ssi]
  cases hpoint : k.ssiPoint with
  | receiving => exact (G₁ .serving).msgrecv_sound k.cpu hc rfl
  | serving =>
      obtain ⟨t, ht, hssi⟩ := H.holds hc hpoint
      have ha : k.applicant = some t := by simp [Kernel.applicant, ht]
      have hreq : k.request = requestOf k k.ssiMsg := by simp [Kernel.request, hpoint]
      obtain ⟨code, formed⟩ := hread hpoint
      dsimp only
      rw [ht]
      apply Sound.after (a := some t) rfl
      refine (G₁ .receiving).ssiServe_sound hc hssi (fun q hq => ?_) code
        (fun q hq => formed q (hreq.trans hq)) ?_ ?_ ?_
      · have hq' : k.request = some q := hreq.trans hq
        obtain ⟨hclock, halloc⟩ := hr q hq'
        exact ⟨by simp [ssiScope, hq'], hclock, fun hterm => halloc hterm t ha⟩
      · exact fun hnone _ => .unknown hpoint (hreq.trans hnone)
      · exact fun hq v hv hother _ => .device (hreq.trans hq) hv hother
      · exact fun hq u hu _ => .busy (hreq.trans hq) hu

theorem entry_sound (H : Good k) (hr : Regular k e) (hp : Possible k e) :
    Sound (Ground k e) fun n => MikaBoo.entry n k e := by
  cases e with
  | start =>
      have hmode : k.mode = .booting := hp
      simp only [MikaBoo.entry, hmode, if_true]
      exact Sound.ok fun _ => rfl
  | run cpu mem cycles =>
      have hu : k.userRuns = true := hp
      simp only [MikaBoo.entry, hu, if_true]
      exact Sound.ok fun _ => rfl
  | elapse cycles =>
      have helapse : k.mode ≠ .booting ∧ k.userRuns = false := hp
      simp only [MikaBoo.entry, if_pos helapse]
      exact Sound.ok fun _ => rfl
  | edit t s =>
      have hedit : k.userRuns = true ∧ k.currentThread ≠ some t ∧ (k.tcb t).tStatus = .ready ∧
        t ≠ .ssi := hp
      simp only [MikaBoo.entry, if_pos hedit]
      exact Sound.ok fun _ => rfl
  | syscall =>
      obtain ⟨hu, call⟩ := hp
      obtain ⟨i, hi⟩ := user_of_userRuns hu
      let k₂ : Kernel := { k.enter with sysbkOldarea := k.cpu }
      have G : Goes .plain ⟨k.view, k.currentThread⟩ k₂ (some (.thread i)) := by
        rw [← hi]
        exact H.goes.same { H.refines with }
      simp only [MikaBoo.entry, hu, if_true]
      have call : k₂.Callable := ⟨call.send, call.recv⟩
      exact G.syscallH_sound hi (by simp) call fun early _ => .answered hi early
  | pgmtrap cause =>
      have hu : k.userRuns = true := hp
      obtain ⟨i, hi⟩ := user_of_userRuns hu
      let k₂ : Kernel := { k.enter with pgmtrapOldarea := { k.cpu with cp15Cause := cause } }
      have G : Goes .plain ⟨k.view, k.currentThread⟩ k₂ (some (.thread i)) := by
        rw [← hi]
        exact H.goes.same { H.refines with }
      simp only [MikaBoo.entry, hu, if_true]
      exact G.pgmtrapH_sound hi (by simp) fun early _ => .answered hi early
  | tlbtrap cause =>
      have hu : k.userRuns = true := hp
      obtain ⟨i, hi⟩ := user_of_userRuns hu
      let k₂ : Kernel := { k.enter with tlbOldarea := { k.cpu with cp15Cause := cause } }
      have G : Goes .plain ⟨k.view, k.currentThread⟩ k₂ (some (.thread i)) := by
        rw [← hi]
        exact H.goes.same { H.refines with }
      simp only [MikaBoo.entry, hu, if_true]
      exact G.tlbtrapH_sound hi (by simp) fun early _ => .answered hi early
  | interrupt pending =>
      obtain ⟨hmode, hpend⟩ := hp
      have hssi : k.currentThread ≠ some .ssi := by
        rcases hmode with hu | hw
        · obtain ⟨i, hi⟩ := user_of_userRuns hu
          simp [hi]
        · simp [(H.waiting hw).1]
      have hany : k.timerFired = true ∨ ∃ i, pending i ≠ 0 := by
        refine hpend.imp_right ?_
        rintro ⟨i, j, hij⟩
        refine ⟨i, fun hzero => ?_⟩
        rw [hzero] at hij
        simp at hij
      let k₂ : Kernel := { k.enter with intOldarea := k.cpu }
      have G : Goes .plain ⟨k.view, k.currentThread⟩ k₂ k.currentThread :=
        H.goes.same { H.refines with }
      simp only [MikaBoo.entry, if_pos (And.intro hmode hany)]
      exact G.interruptH_sound rfl hssi hpend (fun hw => (H.waiting hw).2.1)
        (fun hslot _ => .unasked hslot) fun t hslot hlost _ => .unreached hslot hlost
  | ssi =>
      simp only [MikaBoo.entry, if_pos (And.intro hp.1 hp.2.1)]
      exact H.ssi_sound hr hp

theorem leave_sane {n : Nat} (H : Good k) (hr : Regular k e)
    (h : MikaBoo.entry n k e = .ok (x, k₁)) : Sane (Ground k e) (MikaBoo.leave k₁ x) := by
  cases x with
  | resume s => trivial
  | schedule =>
      have G : Goes (eventScope k e) ⟨k.view, k.currentThread⟩ k₁ none := (H.entry hr h).1.goes
      apply G.scheduler_sane
      · exact fun _ nobody empty count => .deadlock nobody empty count
      · intro hidle k'
        have hdisturbed : ¬ Undisturbed k e := by
          rw [← Idle.schedule_iff (Idle.of_good H) h, hidle]
          simp
        unfold Undisturbed at hdisturbed
        push Not at hdisturbed
        obtain ⟨pending, rfl, hwait, hfired⟩ := hdisturbed
        exact .idle hwait (by simpa using hfired)

end Good

end MikaBoo
