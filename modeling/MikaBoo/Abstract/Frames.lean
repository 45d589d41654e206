import MikaBoo.Model.System
import MikaBoo.Library.Fuel

/-!
# What handlers leave alone

Whatever state they start in, handlers do not touch the processes, the lists of
threads and the counters. A blocking receive and the interval timer charge the
current thread and the clock; an I/O completion ends the wait for the device.
-/

namespace MikaBoo

open Intrusive Fuel

/-- The lists of threads, their owners, the counters and the threads that wait
for a device. -/
structure Counts where
  threadLinks : Links ThreadNode
  owner : Tcb → Option Pcb
  threadCount : Word
  softBlockCount : Word
  softBlockedThread : Fin 5 → Option Tcb

/-- What a handler keeps, but for what it charges. -/
structure Kept where
  counts : Counts
  pcb : Pcb → PcbT
  procLinks : Links ProcNode
  currentThread : Option Tcb
  isIdle : Bool
  mode : Mode
  timer : Word
  clockPerTimeslice : Word
  pseudoclock : Word
  runTime : Tcb → Word
  incarnation : Tcb → Nat

namespace Kernel

/-- How many threads have been freed in a TCB. -/
def incarnation (k : Kernel) (t : Tcb) : Nat := k.history.count (.freed t)

def counts (k : Kernel) : Counts where
  threadLinks := k.threadLinks
  owner t := (k.tcb t).tPcb
  threadCount := k.threadCount
  softBlockCount := k.softBlockCount
  softBlockedThread := k.softBlockedThread

def kept (k : Kernel) : Kept where
  counts := k.counts
  pcb := k.pcb
  procLinks := k.procLinks
  currentThread := k.currentThread
  isIdle := k.isIdle
  mode := k.mode
  timer := k.timer
  clockPerTimeslice := k.clockPerTimeslice
  pseudoclock := k.pseudoclock
  runTime t := (k.tcb t).runTime
  incarnation := k.incarnation

/-- The threads that wait for a device, and their counter. -/
def soft (k : Kernel) : Word × (Fin 5 → Option Tcb) := (k.softBlockCount, k.softBlockedThread)

end Kernel

/-- The pseudo-clock after `update_clock`. -/
def advance (pseudoclock milliseconds : Word) : Word :=
  if (PSEUDOCLOCK_TICK : Int) ≤ (pseudoclock + milliseconds).toInt then
    pseudoclock + milliseconds - BitVec.ofNat 32 PSEUDOCLOCK_TICK
  else
    pseudoclock + milliseconds

/-- How a thread leaves the processor. -/
inductive Ending
  /-- Its receive blocks. -/
  | blocked
  /-- A trap or a system call passes it up to a manager. -/
  | passedUp
  /-- Its time slice is over. -/
  | expired
deriving DecidableEq

/-- The handler goes on with the scheduler. -/
def Exit.leaves : Exit → Bool
  | .resume _ => false
  | .schedule => true

namespace Kept

/-- Charge a thread, if there is one, and the clock for some cycles. -/
def charge (c : Kept) (t : Option Tcb) (cycles : Word) : Kept :=
  { c with
    pseudoclock := advance c.pseudoclock cycles
    runTime := fun u => if t = some u then c.runTime u + cycles else c.runTime u }

/-- What a handler charges when the thread leaves the processor in a certain way. -/
def leave (c : Kept) (t : Option Tcb) : Option Ending → Kept
  | some .blocked => c.charge t c.timer
  | some .expired => c.charge t c.clockPerTimeslice
  | some .passedUp | none => c

/-- End the wait for a device, and the idling. -/
def complete (c : Kept) (i : Fin 5) : Kept :=
  { c with
    counts := { c.counts with
      softBlockedThread := Function.update c.counts.softBlockedThread i none }
    isIdle := false }

end Kept

namespace Kernel

/-- The managers of the current thread's process. -/
def managers (k : Kernel) : PcbT :=
  match k.currentThread.bind fun t => (k.tcb t).tPcb with
  | some p => k.pcb p
  | none => {}

/-- Whether a receive of the current thread blocks it, for want of an eligible message. -/
def recvEnding (k : Kernel) (sender : Option Tcb) : Option Ending :=
  match k.currentThread, sender with
  | none, _ => none
  | some t, none => if k.msgLinks.listEmpty (.tMsgq t) then some .blocked else none
  | some t, some s =>
      match msgqFind k s t (MAXMSG + 1) (.tMsgq t) with
      | .ok none => some .blocked
      | _ => none

end Kernel

theorem currentProcess_ok {k : Kernel} {p : Pcb} (h : currentProcess k = .ok p) :
    k.managers = k.pcb p := by
  unfold currentProcess at h
  unfold Kernel.managers
  split at h
  · cases h
    simp_all
  · cases h

/-- A trap passes the current thread up, or asks for its termination. -/
def trapEnding (mgr : Option Tcb) : Option Ending :=
  some (if mgr.isSome then .passedUp else .blocked)

/-- The manager that the system call in `SYSBK_OLDAREA` passes the current thread up to. -/
def syscallManager (k : Kernel) : Option Tcb :=
  if k.sysbkOldarea.a1 = null then k.managers.pgmMgr
  else if k.sysbkOldarea.a1 = SYS_SEND ∨ k.sysbkOldarea.a1 = SYS_RECV then
    if isKernelMode k then none else k.managers.pgmMgr
  else k.managers.sysMgr.or k.managers.pgmMgr

/-- How the current thread leaves the processor with the system call in `SYSBK_OLDAREA`. -/
def syscallEnding (k : Kernel) : Option Ending :=
  if (k.sysbkOldarea.a1 = SYS_SEND ∨ k.sysbkOldarea.a1 = SYS_RECV) ∧ isKernelMode k then
    if k.sysbkOldarea.a1 = SYS_SEND then none
    else
      match k.sysbkOldarea.a2.toTcb with
      | .ok sender => k.recvEnding sender
      | .error _ => none
  else trapEnding (syscallManager k)

namespace Frame

variable {k k₁ k' : Kernel} {t d : Tcb} {s : Option Tcb} {m : Msg} {w : Word} {o : Option Tcb}
  {fuel : Nat} {x : Exit} {caller : State} {v pl ptr : Value}

/-- Assignment to fields of a thread descriptor other than the one in question. -/
theorem modTcb_field {A : Type} (k : Kernel) (t : Tcb) (f : TcbT → TcbT) (g : TcbT → A)
    (hf : g (f (k.tcb t)) = g (k.tcb t)) :
    (fun u => g ((k.modTcb t f).tcb u)) = fun u => g (k.tcb u) := by
  funext u
  by_cases hu : u = t
  · subst hu
    simpa [Kernel.modTcb] using hf
  · simp [Kernel.modTcb, hu]

theorem modTcb_kept (k : Kernel) (t : Tcb) (f : TcbT → TcbT) {o : Tcb → Option Pcb} {r : Tcb → Word}
    (ho : (fun u => ((k.modTcb t f).tcb u).tPcb) = o)
    (hr : (fun u => ((k.modTcb t f).tcb u).runTime) = r) :
    (k.modTcb t f).kept =
      { k.kept with counts := { k.counts with owner := o }, runTime := r } := by
  rw [← ho, ← hr]
  rfl

theorem modTcb (k : Kernel) (t : Tcb) (f : TcbT → TcbT) (hf : (f (k.tcb t)).tPcb = (k.tcb t).tPcb)
    (hr : (f (k.tcb t)).runTime = (k.tcb t).runTime) :
    (k.modTcb t f).kept = k.kept :=
  modTcb_kept k t f (modTcb_field k t f TcbT.tPcb hf) (modTcb_field k t f TcbT.runTime hr)

/-- Assignment to fields of the descriptor of a thread that is charged. -/
theorem modTcb_charge (k : Kernel) (t : Tcb) (w : Word) (f : TcbT → TcbT)
    (hf : (f (k.tcb t)).tPcb = (k.tcb t).tPcb)
    (hr : (f (k.tcb t)).runTime = (k.tcb t).runTime + w) :
    (k.modTcb t f).kept = { k.kept with
      runTime := fun u => if some t = some u then (k.tcb u).runTime + w else (k.tcb u).runTime } := by
  refine modTcb_kept k t f (modTcb_field k t f TcbT.tPcb hf) ?_
  funext u
  by_cases hu : u = t
  · subst hu
    simpa [Kernel.modTcb] using hr
  · simp [Kernel.modTcb, hu, Ne.symm hu]

theorem record (k : Kernel) {o : Obs} (ho : ∀ t, o ≠ .freed t) : (k.record o).kept = k.kept := by
  have hi : (k.record o).incarnation = k.incarnation := by
    funext t
    simp [Kernel.incarnation, Kernel.record, List.count_append, ho t]
  exact congrArg (fun i => { k.kept with incarnation := i }) hi

theorem store (k : Kernel) (ptr v : Value) : (k.store ptr v).kept = k.kept := by
  cases ptr <;> rfl

theorem threadDequeue {h : SchedQueue} (hk : MikaBoo.threadDequeue k h = .ok (o, k')) :
    k'.kept = k.kept := by
  obtain ⟨_, _, hk⟩ := bind_eq_ok.mp hk
  split at hk <;> cases hk <;> rfl

/-! ## Messages -/

theorem msgqAdd {r : Int} (hk : MikaBoo.msgqAdd k s o pl = .ok (r, k')) : k'.kept = k.kept := by
  obtain ⟨_, _, hk⟩ := bind_eq_ok.mp hk
  split at hk <;> cases hk <;> rfl

theorem msgFree (k : Kernel) (m : Msg) : (MikaBoo.msgFree k m).kept = k.kept := rfl

theorem storeVal (k : Kernel) (v : Value) (m : Msg) :
    (MikaBoo.storeVal k v m).kept = k.kept := by
  unfold MikaBoo.storeVal
  split
  · rfl
  · exact store k _ _

theorem msgqGet {src : Option (Option Tcb)} {r : Option (Option Tcb × Value)}
    (hk : MikaBoo.msgqGet k src o ptr = .ok (r, k')) : k'.kept = k.kept := by
  unfold MikaBoo.msgqGet at hk
  split at hk
  · cases hk
    rfl
  · obtain ⟨_, _, hk⟩ := bind_eq_ok.mp hk
    split at hk <;> cases hk
    · rfl
    · exact storeVal k ptr _
  · obtain ⟨_, _, hk⟩ := bind_eq_ok.mp hk
    split at hk <;> cases hk
    · rfl
    · exact storeVal k ptr _

/-! ## Sending -/

theorem deliverMsg (hk : MikaBoo.deliverMsg k d s pl = .ok (w, k')) : k'.kept = k.kept := by
  obtain ⟨⟨r, k₁⟩, hk₁, hk⟩ := bind_eq_ok.mp hk
  dsimp only at hk
  split at hk <;> cases hk <;> exact msgqAdd hk₁

theorem deliverDirectly (k : Kernel) (d : Tcb) (s : Option Tcb) (pl : Value) :
    (MikaBoo.deliverDirectly k d s pl).kept = k.kept := by
  have h₁ := modTcb k d (fun d => { d with tS := { d.tS with a1 := tcbPtr s } }) rfl rfl
  unfold MikaBoo.deliverDirectly
  dsimp only
  rw [record _ (by simp)]
  split
  · exact h₁
  · exact (store _ _ _).trans h₁

theorem resumeThread (k : Kernel) (t : Tcb) (s : Option Tcb) (pl : Value) :
    (MikaBoo.resumeThread k t s pl).kept = k.kept := by
  have h₁ := deliverDirectly k t s pl
  have h₂ := modTcb (MikaBoo.deliverDirectly k t s pl) t
    (fun d => { d with tStatus := .ready, tWait4sender := none }) rfl rfl
  exact h₂.trans h₁

theorem send (hk : MikaBoo.send k d s pl = .ok (w, k')) : k'.kept = k.kept := by
  obtain ⟨⟨r, k₁⟩, hk₁, hk⟩ := bind_eq_ok.mp hk
  cases hk
  have h₁ : k₁.kept = k.kept := by
    unfold sendSwitch at hk₁
    split at hk₁
    · exact deliverMsg hk₁
    · split at hk₁
      · cases hk₁
        exact resumeThread k d s pl
      · exact deliverMsg hk₁
    · cases hk₁
      rfl
  rw [record _ (by simp), h₁]

theorem msgsend (hk : MikaBoo.msgsend k caller d pl = .ok k') : k'.kept = k.kept := by
  obtain ⟨⟨r, k₁⟩, hk₁, hk⟩ := bind_eq_ok.mp hk
  cases hk
  have h₁ := send hk₁
  exact h₁

/-! ## Receiving -/

theorem wakeClockWaiters (hk : MikaBoo.wakeClockWaiters fuel k = .ok k') : k'.kept = k.kept := by
  induction fuel generalizing k with
  | zero => cases hk
  | succ fuel ih =>
      obtain ⟨⟨o, k₁⟩, hk₁, hk⟩ := bind_eq_ok.mp hk
      have h₁ := threadDequeue hk₁
      cases o with
      | none =>
          cases hk
          exact h₁
      | some t =>
          obtain ⟨k₂, hk₂, hk⟩ := bind_eq_ok.mp hk
          exact (ih hk).trans ((msgsend hk₂).trans h₁)

theorem updateClock {ms : Word} (hk : MikaBoo.updateClock fuel k ms = .ok k') :
    k'.kept = { k.kept with pseudoclock := advance k.pseudoclock ms } := by
  unfold MikaBoo.updateClock at hk
  dsimp only at hk
  split at hk
  · rename_i htick
    have h₁ := wakeClockWaiters hk
    rw [h₁, advance, if_pos htick]
    rfl
  · rename_i htick
    cases hk
    rw [advance, if_neg htick]
    rfl

/-- A receive finds no message exactly when it is to block. -/
theorem recvEnding_eq {r : Option (Option Tcb × Value)} (hc : k.currentThread = some t)
    (hk : MikaBoo.msgqGet k (some s) (some t) ptr = .ok (r, k')) :
    k.recvEnding s = if r = none then some .blocked else none := by
  cases s with
  | none =>
      obtain ⟨o, ho, hk⟩ := bind_eq_ok.mp hk
      unfold msgQhead Links.listNext at ho
      simp only [Kernel.recvEnding, hc]
      cases o with
      | none =>
          cases hk
          by_cases he : k.msgLinks.listEmpty (.tMsgq t) = true
          · simp [he]
          · simp only [MsgList.head, he] at ho
            cases hm : (k.msgLinks.next (.tMsgq t)).container <;> simp [containerOf, hm] at ho
      | some m =>
          cases hk
          by_cases he : k.msgLinks.listEmpty (.tMsgq t) = true
          · simp [MsgList.head, he, containerOf] at ho
          · simp [he]
  | some u =>
      obtain ⟨o, ho, hk⟩ := bind_eq_ok.mp hk
      simp only [Kernel.recvEnding, hc, ho]
      cases o <;> cases hk <;> rfl

theorem blocked_of_isSome (h : (k.recvEnding s).isSome = true) :
    k.recvEnding s = some .blocked := by
  unfold Kernel.recvEnding at h ⊢
  split at h
  · cases h
  · split at h
    · rename_i he
      simp [he]
    · cases h
  · split at h
    · simp
    · cases h

theorem recv (hk : MikaBoo.recv fuel k s ptr = .ok (x, k')) :
    x.leaves = (k.recvEnding s).isSome ∧ k'.kept = k.kept.leave k.currentThread (k.recvEnding s) := by
  unfold MikaBoo.recv at hk
  split at hk
  · cases hk
  · rename_i current hcur
    split at hk
    · cases hk
    · obtain ⟨⟨r, k₁⟩, hk₁, hk⟩ := bind_eq_ok.mp hk
      have h₁ := msgqGet hk₁
      rw [recvEnding_eq hcur hk₁, hcur]
      cases r with
      | some r =>
          cases hk
          have h₂ := record k₁ (o := .received current r.1 r.2) (by simp)
          exact ⟨rfl, h₂.trans h₁⟩
      | none =>
          obtain ⟨k₂, hk₂, hk⟩ := bind_eq_ok.mp hk
          have h₂ := modTcb_charge { k₁ with timeSliceLeft := k₁.timer } current k₁.timer
            (fun d => { d with tS := k₁.sysbkOldarea, tStatus := .w4msg, tWait4sender := s
                               runTime := d.runTime + k₁.timer }) rfl rfl
          have h₃ := updateClock hk₂
          have h₄ : k₂.kept = k₁.kept.charge (some current) k₁.timer := by
            rw [h₃, h₂]
            rfl
          have h₅ : k₁.timer = k.timer := congrArg Kept.timer h₁
          rw [h₁, h₅] at h₄
          cases s <;> cases hk <;> exact ⟨rfl, h₄⟩

theorem msgrecv (hk : MikaBoo.msgrecv fuel k caller none ptr = .ok (x, k')) :
    x.leaves = (k.recvEnding none).isSome ∧
      k'.kept = k.kept.leave k.currentThread (k.recvEnding none) := by
  have h₁ := recv hk
  exact h₁

/-! ## Traps and system calls -/

/-- A handler that asks for a termination blocks the current thread. -/
theorem terminateRequest (hk : MikaBoo.terminateRequest fuel k w = .ok (x, k')) :
    x = .schedule ∧ k'.kept = k.kept.leave k.currentThread (some .blocked) := by
  obtain ⟨k₁, hk₁, hk⟩ := bind_eq_ok.mp hk
  obtain ⟨⟨x₂, k₂⟩, hk₂, hk⟩ := bind_eq_ok.mp hk
  cases x₂ with
  | resume _ => cases hk
  | schedule =>
      cases hk
      have h₁ : k₁.kept = k.kept := msgsend hk₁
      obtain ⟨hx, h₂⟩ := recv hk₂
      rw [blocked_of_isSome hx.symm] at h₂
      have hcur : k₁.currentThread = k.currentThread := congrArg Kept.currentThread h₁
      refine ⟨rfl, h₂.trans ?_⟩
      change k₁.kept.leave k₁.currentThread _ = _
      rw [h₁, hcur]

theorem rawTrapH {old : State} (hk : MikaBoo.rawTrapH fuel k o old = .ok (x, k')) :
    x.leaves = (trapEnding o).isSome ∧ k'.kept = k.kept.leave k.currentThread (trapEnding o) := by
  unfold MikaBoo.rawTrapH at hk
  split at hk
  · cases hk
  · rename_i current _
    split at hk
    · obtain ⟨k₁, hk₁, hk⟩ := bind_eq_ok.mp hk
      cases hk
      have h₁ := modTcb k current (fun d => { d with tS := old.stepBack }) rfl rfl
      have h₂ := msgsend hk₁
      exact ⟨rfl, h₂.trans h₁⟩
    · obtain ⟨rfl, h⟩ := terminateRequest hk
      exact ⟨rfl, h⟩

theorem pgmtrapH (hk : MikaBoo.pgmtrapH fuel k = .ok (x, k')) :
    x.leaves = (trapEnding k.managers.pgmMgr).isSome ∧
      k'.kept = k.kept.leave k.currentThread (trapEnding k.managers.pgmMgr) := by
  obtain ⟨p, hp, hk⟩ := bind_eq_ok.mp hk
  rw [currentProcess_ok hp]
  exact rawTrapH hk

theorem tlbtrapH (hk : MikaBoo.tlbtrapH fuel k = .ok (x, k')) :
    x.leaves = (trapEnding k.managers.tlbMgr).isSome ∧
      k'.kept = k.kept.leave k.currentThread (trapEnding k.managers.tlbMgr) := by
  obtain ⟨p, hp, hk⟩ := bind_eq_ok.mp hk
  rw [currentProcess_ok hp]
  exact rawTrapH hk

theorem raiseReservedInstruction (hk : MikaBoo.raiseReservedInstruction fuel k = .ok (x, k')) :
    x.leaves = (trapEnding k.managers.pgmMgr).isSome ∧
      k'.kept = k.kept.leave k.currentThread (trapEnding k.managers.pgmMgr) := by
  have h₁ := pgmtrapH hk
  exact h₁

theorem syscallOther {a1 a2 a3 a4 : Value}
    (hk : MikaBoo.syscallOther fuel k a1 a2 a3 a4 = .ok (x, k')) :
    x.leaves = (trapEnding (k.managers.sysMgr.or k.managers.pgmMgr)).isSome ∧
      k'.kept = k.kept.leave k.currentThread
        (trapEnding (k.managers.sysMgr.or k.managers.pgmMgr)) := by
  unfold MikaBoo.syscallOther at hk
  split at hk
  · cases hk
  · rename_i current _
    obtain ⟨p, hp, hk⟩ := bind_eq_ok.mp hk
    rw [currentProcess_ok hp]
    split at hk
    · rename_i m _ hm
      obtain ⟨⟨r, k₁⟩, hk₁, hk⟩ := bind_eq_ok.mp hk
      cases hk
      have h₁ := modTcb k current (fun d => { d with tS := k.sysbkOldarea }) rfl rfl
      have h₂ := send hk₁
      rw [hm]
      exact ⟨rfl, h₂.trans h₁⟩
    · rename_i m hs hm
      obtain ⟨⟨r, k₁⟩, hk₁, hk⟩ := bind_eq_ok.mp hk
      cases hk
      have h₁ := modTcb k current (fun d => { d with tS := k.sysbkOldarea.stepBack }) rfl rfl
      have h₂ := send hk₁
      rw [hm, hs]
      exact ⟨rfl, h₂.trans h₁⟩
    · rename_i hs hm
      obtain ⟨rfl, h⟩ := terminateRequest hk
      rw [hm, hs]
      exact ⟨rfl, h⟩

theorem syscallH (hk : MikaBoo.syscallH fuel k = .ok (x, k')) :
    x.leaves = (syscallEnding k).isSome ∧
      k'.kept = k.kept.leave k.currentThread (syscallEnding k) := by
  have hne : ¬ SYS_RECV = SYS_SEND ∧ ¬ SYS_RECV = null ∧ ¬ SYS_SEND = null := by decide
  -- a call that is not for the kernel's own message passing, or not allowed
  have hreserved : ∀ {e}, syscallEnding k = e →
      x.leaves = e.isSome ∧ k'.kept = k.kept.leave k.currentThread e →
      x.leaves = (syscallEnding k).isSome ∧
        k'.kept = k.kept.leave k.currentThread (syscallEnding k) := by
    rintro e rfl h
    exact h
  unfold MikaBoo.syscallH at hk
  dsimp only at hk
  split at hk
  · rename_i h₀
    exact hreserved (by simp [syscallEnding, syscallManager, h₀])
      (raiseReservedInstruction hk)
  · rename_i h₀
    split at hk
    · rename_i h₁
      unfold sendKernel at hk
      split at hk
      · rename_i hmode
        obtain ⟨d, _, hk⟩ := bind_eq_ok.mp hk
        cases d with
        | none => cases hk
        | some d =>
            obtain ⟨⟨r, k₁⟩, hk₁, hk⟩ := bind_eq_ok.mp hk
            cases hk
            have h := send hk₁
            exact hreserved (e := none) (by simp [syscallEnding, h₁, hmode]) ⟨rfl, h⟩
      · rename_i hmode
        exact hreserved (by simp [syscallEnding, syscallManager, h₁, hmode])
          (raiseReservedInstruction hk)
    · rename_i h₁
      split at hk
      · rename_i h₂
        unfold recvKernel at hk
        split at hk
        · rename_i hmode
          obtain ⟨s, hs, hk⟩ := bind_eq_ok.mp hk
          exact hreserved (by simp [syscallEnding, h₂, hmode, hs]) (recv hk)
        · rename_i hmode
          exact hreserved (by simp [syscallEnding, syscallManager, h₂, hmode])
            (raiseReservedInstruction hk)
      · rename_i h₂
        have h := syscallOther hk
        have he : syscallEnding k = trapEnding (k.managers.sysMgr.or k.managers.pgmMgr) := by
          simp [syscallEnding, syscallManager, h₀, h₁, h₂]
        rwa [he]

/-! ## Interrupts and scheduling -/

theorem intervalTimerH (hk : MikaBoo.intervalTimerH fuel k = .ok (x, k')) :
    x = .schedule ∧ k'.kept = k.kept.leave k.currentThread (some .expired) := by
  obtain ⟨k₂, hk₂, hk⟩ := bind_eq_ok.mp hk
  cases hk
  refine ⟨rfl, (updateClock hk₂).trans ?_⟩
  split
  · rename_i current hcur
    have h := modTcb_charge k current k.clockPerTimeslice (fun d =>
      { d with tS := k.intOldarea, runTime := d.runTime + k.clockPerTimeslice }) rfl rfl
    rw [hcur]
    exact congrArg (fun c => { c with pseudoclock := advance k.pseudoclock k.clockPerTimeslice }) h
  · rename_i hcur
    rw [hcur]
    rfl

/-- A completion ends the wait for its device, and the idling. -/
theorem acknowledge {i : Fin 5} (hk : MikaBoo.acknowledge k i = .ok (x, k')) :
    x.leaves = k.isIdle ∧ k'.kept = k.kept.complete i := by
  obtain ⟨_, _, hk⟩ := bind_eq_ok.mp hk
  split at hk
  · cases hk
  · obtain ⟨⟨r, k₁⟩, hk₁, hk⟩ := bind_eq_ok.mp hk
    obtain ⟨_, _, hk⟩ := bind_eq_ok.mp hk
    have h₁ := send hk₁
    have hi : k₁.isIdle = k.isIdle := congrArg Kept.isIdle h₁
    have h₂ : k₁.kept.complete i = k.kept.complete i := congrArg (fun c => c.complete i) h₁
    dsimp only at hk
    split at hk
    · rename_i hidle
      cases hk
      exact ⟨by rw [← hi, hidle]; rfl, h₂⟩
    · rename_i hidle
      split at hk
      · cases hk
      · cases hk
        rw [Bool.not_eq_true] at hidle
        have h₃ : k₁.isIdle = false := hidle
        refine ⟨by rw [← hi, h₃]; rfl, ?_⟩
        rw [← h₂]
        simp [Kept.complete, Kernel.kept, Kernel.counts, h₃]
        rfl

/-- What the scheduler does to the processor. -/
theorem scheduler (hk : MikaBoo.scheduler k = .ok k') :
    k'.kept = { k.kept with
      currentThread := k'.currentThread, isIdle := k'.isIdle, mode := k'.mode
      timer := k.clockPerTimeslice } ∧
    (k'.currentThread = none ∧ k.isIdle = false ∧ k'.isIdle = true ∧ k'.mode = .waiting ∨
      k'.currentThread ≠ none ∧ k'.isIdle = k.isIdle ∧ k'.mode = .running) := by
  obtain ⟨⟨o, k₁⟩, hk₁, hk⟩ := bind_eq_ok.mp hk
  have h₁ := threadDequeue hk₁
  cases o with
  | some t =>
      cases hk
      refine ⟨?_, Or.inr ⟨nofun, congrArg Kept.isIdle h₁, rfl⟩⟩
      exact congrArg (fun c => { c with
        currentThread := some t, isIdle := k₁.isIdle, mode := .running
        timer := c.clockPerTimeslice }) h₁
  | none =>
      simp only [emptyReadyqH] at hk
      split at hk
      · cases hk
      · split at hk
        · cases hk
        · obtain ⟨_, hidle, hk⟩ := bind_eq_ok.mp hk
          cases hk
          refine ⟨?_, Or.inl ⟨rfl, ?_, rfl, rfl⟩⟩
          · exact congrArg (fun c => { c with
              currentThread := none, isIdle := true, mode := .waiting
              timer := c.clockPerTimeslice }) h₁
          · unfold assert at hidle
            split at hidle
            · rename_i hi
              have he : k₁.isIdle = k.isIdle := congrArg Kept.isIdle h₁
              rw [← he]
              simpa using hi
            · cases hidle

/-- The end of a kernel entry changes the processor only, and charges nobody. -/
theorem leave (hk : MikaBoo.leave k x = .ok k') : k'.kept = { k.kept with
    currentThread := k'.currentThread, isIdle := k'.isIdle, mode := k'.mode
    timer := k'.timer } := by
  cases x with
  | resume s =>
      cases hk
      rfl
  | schedule =>
      have h := (scheduler hk).1
      have ht : k'.timer = k.clockPerTimeslice := congrArg Kept.timer h
      rw [ht]
      exact h

/-! ## The loops of terminations -/

theorem drainMsgq (hk : MikaBoo.drainMsgq fuel k t = .ok k') : k'.kept = k.kept := by
  induction fuel generalizing k with
  | zero => cases hk
  | succ fuel ih =>
      unfold MikaBoo.drainMsgq at hk
      split at hk
      · cases hk
        rfl
      · obtain ⟨o, _, hk⟩ := bind_eq_ok.mp hk
        cases o with
        | none => cases hk
        | some m => exact (ih hk).trans (msgFree k m)

theorem abortWaiters (hk : MikaBoo.abortWaiters fuel k t = .ok k') : k'.kept = k.kept := by
  induction fuel generalizing k with
  | zero => cases hk
  | succ fuel ih =>
      obtain ⟨o, _, hk⟩ := bind_eq_ok.mp hk
      cases o with
      | none =>
          cases hk
          rfl
      | some u =>
          have h₁ := modTcb k u (fun d => { d with errno := 1 }) rfl rfl
          exact (ih hk).trans ((resumeThread _ u none null).trans h₁)

theorem cleanSysMsg (hk : MikaBoo.cleanSysMsg k t = .ok k') : k'.kept = k.kept := by
  unfold MikaBoo.cleanSysMsg at hk
  split at hk
  · obtain ⟨_, hk₁, hk⟩ := bind_eq_ok.mp hk
    cases hk
    exact msgqGet hk₁
  · split at hk
    · cases hk
    · split at hk
      · obtain ⟨_, hk₁, hk⟩ := bind_eq_ok.mp hk
        cases hk
        exact msgqGet hk₁
      · split at hk
        · obtain ⟨_, hk₁, hk⟩ := bind_eq_ok.mp hk
          cases hk
          exact msgqGet hk₁
        · cases hk
          rfl

/-! ## Processes -/

theorem procAlloc {p q : Option Pcb} (hk : MikaBoo.procAlloc k p = .ok (q, k')) :
    k'.counts = k.counts := by
  obtain ⟨_, _, hk⟩ := bind_eq_ok.mp hk
  split at hk <;> cases hk <;> rfl

theorem procDelete (k : Kernel) (p : Pcb) : (MikaBoo.procDelete k p).2.counts = k.counts := by
  unfold MikaBoo.procDelete
  split <;> rfl

end Frame

/-! ## Kernel entries -/

namespace Kernel

/-- How the current thread leaves the processor with an event, if it does. -/
def ending (k : Kernel) : Event → Option Ending
  | .syscall => syscallEnding { k with sysbkOldarea := k.cpu }
  | .pgmtrap _ => trapEnding k.managers.pgmMgr
  | .tlbtrap _ => trapEnding k.managers.tlbMgr
  | .interrupt _ => if k.timerFired then some .expired else none
  | .ssi => if k.ssiPoint = .serving then none else k.recvEnding none
  | _ => none

/-- The SSI serves a request with the event. -/
def serves (k : Kernel) : Event → Bool
  | .ssi => k.ssiPoint = .serving
  | _ => false

/-- What an event that serves no request makes of what handlers keep. -/
def onEntry (k : Kernel) : Event → Kept
  | .run _ _ cycles | .elapse cycles => { k.kept with timer := k.timer - cycles }
  | .interrupt pending =>
      if k.timerFired then k.kept.leave k.currentThread (k.ending (.interrupt pending))
      else k.kept.complete TERMINAL_REQUESTER_INDEX
  | e => k.kept.leave k.currentThread (k.ending e)

/-- Without a request only a completion touches the counters, and only a slot. -/
theorem onEntry_lists (k : Kernel) (e : Event) :
    (k.onEntry e).pcb = k.pcb ∧ (k.onEntry e).procLinks = k.procLinks ∧
      (k.onEntry e).incarnation = k.incarnation ∧ (k.onEntry e).counts =
        { k.counts with softBlockedThread := (k.onEntry e).counts.softBlockedThread } := by
  have hleave : ∀ t o, (k.kept.leave t o).pcb = k.pcb ∧
      (k.kept.leave t o).procLinks = k.procLinks ∧
      (k.kept.leave t o).incarnation = k.incarnation ∧ (k.kept.leave t o).counts = k.counts := by
    rintro t (_ | _ | _ | _) <;> exact ⟨rfl, rfl, rfl, rfl⟩
  have hall : ∀ {c : Kept}, c.pcb = k.pcb ∧ c.procLinks = k.procLinks ∧
      c.incarnation = k.incarnation ∧ c.counts = k.counts →
      c.pcb = k.pcb ∧ c.procLinks = k.procLinks ∧ c.incarnation = k.incarnation ∧
        c.counts = { k.counts with softBlockedThread := c.counts.softBlockedThread } := by
    rintro c ⟨h₁, h₂, h₃, h₄⟩
    exact ⟨h₁, h₂, h₃, by rw [h₄]⟩
  cases e with
  | run | elapse => exact ⟨rfl, rfl, rfl, rfl⟩
  | interrupt pending =>
      by_cases hf : k.timerFired = true
      · have hs := hall (hleave k.currentThread (k.ending (.interrupt pending)))
        rwa [← if_pos (c := k.timerFired = true) (t := k.kept.leave _ _) hf] at hs
      · have hc : k.onEntry (.interrupt pending) = k.kept.complete TERMINAL_REQUESTER_INDEX :=
          if_neg hf
        rw [hc]
        exact ⟨rfl, rfl, rfl, rfl⟩
  | _ => exact hall (hleave _ _)

/-- An event that serves no request goes on with the scheduler. -/
def reschedules (k : Kernel) : Event → Bool
  | .start => true
  | .interrupt _ => k.timerFired || k.isIdle
  | e => (k.ending e).isSome

end Kernel

/-- What a kernel entry keeps and charges, unless the SSI serves a request. -/
theorem entry_kept {k k' : Kernel} {e : Event} {fuel : Nat} {x : Exit} (hs : k.serves e = false)
    (h : entry fuel k e = .ok (x, k')) :
    x.leaves = k.reschedules e ∧ k'.kept = k.onEntry e := by
  cases e with
  | start =>
      simp only [entry] at h
      split at h <;> cases h
      exact ⟨rfl, rfl⟩
  | run cpu mem cycles =>
      simp only [entry] at h
      split at h <;> cases h
      exact ⟨rfl, rfl⟩
  | elapse cycles =>
      simp only [entry] at h
      split at h <;> cases h
      exact ⟨rfl, rfl⟩
  | edit t s =>
      simp only [entry] at h
      split at h <;> cases h
      exact ⟨rfl, Frame.modTcb k t _ rfl rfl⟩
  | syscall =>
      simp only [entry] at h
      split at h
      · have h₁ := Frame.syscallH h
        exact h₁
      · cases h
  | pgmtrap cause =>
      simp only [entry] at h
      split at h
      · have h₁ := Frame.pgmtrapH h
        exact h₁
      · cases h
  | tlbtrap cause =>
      simp only [entry] at h
      split at h
      · have h₁ := Frame.tlbtrapH h
        exact h₁
      · cases h
  | interrupt pending =>
      simp only [entry] at h
      split at h
      · simp only [interruptH] at h
        split at h
        · rename_i hin
          have hf : k.timerFired = false := by
            rw [Kernel.timerFired, decide_eq_false_iff_not, not_not]
            exact hin
          simp only [ioH] at h
          split at h
          · obtain ⟨hx, hk⟩ := Frame.acknowledge h
            change x.leaves = k.isIdle at hx
            refine ⟨by simpa [Kernel.reschedules, hf] using hx, ?_⟩
            simp only [Kernel.onEntry, hf, Bool.false_eq_true, if_false]
            exact hk
          · cases h
        · rename_i hout
          have hf : k.timerFired = true := by
            rw [Kernel.timerFired, decide_eq_true_iff]
            exact hout
          obtain ⟨rfl, hk⟩ := Frame.intervalTimerH h
          refine ⟨by simp [Kernel.reschedules, hf, Exit.leaves], ?_⟩
          simp only [Kernel.onEntry, Kernel.ending, hf, if_true]
          exact hk
      · cases h
  | ssi =>
      simp only [entry] at h
      split at h
      · have hp : k.ssiPoint = .receiving := by
          cases hp : k.ssiPoint with
          | receiving => rfl
          | serving => simp [Kernel.serves, hp] at hs
        have he : k.ending .ssi = k.recvEnding none := by simp [Kernel.ending, hp]
        simp only [ssi, hp] at h
        have h₁ := Frame.msgrecv h
        simp only [Kernel.reschedules, Kernel.onEntry, he]
        exact h₁
      · cases h

end MikaBoo
