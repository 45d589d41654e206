import MikaBoo.Model.Handlers

/-!
# The system service interface

The services of `SSI/services` and the loop of `SSI/ssi.c`.

## Implementation notes

The SSI is a thread that runs in system mode with all interrupts disabled, so
one round of its loop, from one `msgrecv` to the next, is not interrupted. A
round is split where `msgrecv` may block.
-/

namespace MikaBoo

open Intrusive

/-! ## Services -/

/-- `__create_thread_s`. -/
def rawCreateThreadS (k : Kernel) (initialState : State) (proc : Option Pcb) :
    Exec (Option Tcb × Kernel) := do
  match ← threadAlloc k proc with
  | (none, k) => .ok (none, k)
  | (some newThread, k) =>
      let k := k.modTcb newThread fun d => { d with tS := initialState }
      let k := threadEnqueue k newThread .readyq
      .ok (some newThread, { k with threadCount := k.threadCount + 1 })

/-- `create_thread_s`. -/
def createThreadS (k : Kernel) (initialState : State) (applicant : Tcb) :
    Exec (Option Tcb × Kernel) :=
  rawCreateThreadS k initialState (k.tcb applicant).tPcb

/-- `create_process_s`. -/
def createProcessS (k : Kernel) (initialState : State) (applicant : Tcb) :
    Exec (Option Tcb × Kernel) := do
  match ← procAlloc k (k.tcb applicant).tPcb with
  | (none, k) => .ok (none, k)
  | (some newProcess, k) =>
      match ← rawCreateThreadS k initialState (some newProcess) with
      | (none, k) => .ok (none, (procDelete k newProcess).2)
      | (some firstThread, k) => .ok (some firstThread, k)

/-- The first loop of `__terminate_thread_s`. -/
def drainMsgq : Nat → Kernel → Tcb → Exec Kernel
  | 0, _, _ => .error .unfinished
  | fuel + 1, k, thread => do
      if k.msgLinks.listEmpty (.tMsgq thread) then .ok k
      else
        match ← msgQhead k (.of thread) with
        | some m => drainMsgq fuel (msgFree k m) thread
        | none => .error .undefined

/-- The second loop of `__terminate_thread_s`. -/
def abortWaiters : Nat → Kernel → Tcb → Exec Kernel
  | 0, _, _ => .error .unfinished
  | fuel + 1, k, thread => do
      match ← threadQhead k (.tWait4me thread) with
      | none => .ok k
      | some toResume =>
          let k := k.modTcb toResume fun d => { d with errno := 1 }
          abortWaiters fuel (resumeThread k toResume none null) thread

/-- `__terminate_thread_s`. -/
def rawTerminateThreadS (fuel : Nat) (k : Kernel) (thread : Tcb) : Exec Kernel := do
  let k ← drainMsgq fuel k thread
  let k ← abortWaiters fuel k thread
  let (_, k) := threadFree k thread
  .ok { k with threadCount := k.threadCount - 1 }

/-- `clean_sys_msg`. -/
def cleanSysMsg (k : Kernel) (terminating : Tcb) : Exec Kernel := do
  if (k.tcb terminating).tWait4sender = some .ssi then
    .ok (← msgqGet k (some (some terminating)) (some .ssi) null).2
  else
    match (k.tcb terminating).tPcb with
    | none => .error .undefined
    | some proc =>
        if (k.tcb terminating).tWait4sender = (k.pcb proc).sysMgr then
          .ok (← msgqGet k (some (some terminating)) (k.pcb proc).sysMgr null).2
        else if (k.tcb terminating).tWait4sender = (k.pcb proc).pgmMgr then
          .ok (← msgqGet k (some (some terminating)) (k.pcb proc).sysMgr null).2
        else
          .ok k

/-- The first loop of `__terminate_process_s`. -/
def terminateThreads : Nat → Kernel → Pcb → Option Tcb → Exec Kernel
  | 0, _, _, _ => .error .unfinished
  | fuel + 1, k, proc, applicant => do
      match ← procFirstthread k proc with
      | none => .ok k
      | some threadTerm =>
          let k ←
            if some threadTerm ≠ applicant ∧ (k.tcb threadTerm).tStatus = .w4msg then
              cleanSysMsg k threadTerm
            else .ok k
          let k ← rawTerminateThreadS fuel k threadTerm
          terminateThreads fuel k proc applicant

mutual

/-- `__terminate_process_s`. -/
def rawTerminateProcessS : Nat → Kernel → Pcb → Option Tcb → Exec Kernel
  | 0, _, _, _ => .error .unfinished
  | fuel + 1, k, proc, applicant => do
      let k ← terminateThreads fuel k proc applicant
      let k ← terminateChildren fuel k proc
      .ok (procDelete k proc).2

/-- The second loop of `__terminate_process_s`. -/
def terminateChildren : Nat → Kernel → Pcb → Exec Kernel
  | 0, _, _ => .error .unfinished
  | fuel + 1, k, proc => do
      match ← procFirstchild k proc with
      | none => .ok k
      | some procTerm => terminateChildren fuel (← rawTerminateProcessS fuel k procTerm none) proc

end

/-- `terminate_process_s`. -/
def terminateProcessS (fuel : Nat) (k : Kernel) (applicant : Tcb) : Exec Kernel :=
  match (k.tcb applicant).tPcb with
  | none => .error .undefined
  | some proc => rawTerminateProcessS fuel k proc (some applicant)

/-- `terminate_thread_s`. A thread without a process is not the only one of it:
no list head is at the address that the source computes from NULL. -/
def terminateThreadS (fuel : Nat) (k : Kernel) (thread : Tcb) : Exec Kernel :=
  match (k.tcb thread).tPcb with
  | some proc =>
      if k.threadLinks.listIsOnly (.tNext thread) (.pThreads proc) then
        terminateProcessS fuel k thread
      else
        rawTerminateThreadS fuel k thread
  | none => rawTerminateThreadS fuel k thread

/-- `__setmgr`, where `mgr` and `set` access the manager field in question. The
result is the reply, or `none` when `*send_back` is 0. -/
def rawSetmgr (mgr : PcbT → Option Tcb) (set : PcbT → Option Tcb → PcbT) (fuel : Nat)
    (k : Kernel) (newMgr : Option Tcb) (applicant : Tcb) : Exec (Option Value × Kernel) :=
  match newMgr with
  | none => .ok (some null, k)
  | some newMgr =>
      match (k.tcb applicant).tPcb with
      | none => .error .undefined
      | some proc =>
          match mgr (k.pcb proc) with
          | some _ => do .ok (none, ← terminateProcessS fuel k applicant)
          | none => .ok (some (.tcb newMgr), k.modPcb proc fun d => set d (some newMgr))

/-- `setpgmmgr_s`. -/
def setpgmmgrS : Nat → Kernel → Option Tcb → Tcb → Exec (Option Value × Kernel) :=
  rawSetmgr PcbT.pgmMgr fun d m => { d with pgmMgr := m }

/-- `settlbmgr_s`. -/
def settlbmgrS : Nat → Kernel → Option Tcb → Tcb → Exec (Option Value × Kernel) :=
  rawSetmgr PcbT.tlbMgr fun d m => { d with tlbMgr := m }

/-- `setsysmgr_s`. -/
def setsysmgrS : Nat → Kernel → Option Tcb → Tcb → Exec (Option Value × Kernel) :=
  rawSetmgr PcbT.sysMgr fun d m => { d with sysMgr := m }

/-- `wait_for_clock_s`. -/
def waitForClockS (k : Kernel) (applicant : Tcb) : Kernel :=
  threadEnqueue k applicant .tWait4clock

/-- `TERMINAL_DEV_FIELD(0, TRANSM_COMMAND)`. -/
abbrev TERMINAL0_TRANSM_COMMAND : Value := .int (0x40 + (7 - 3) * 8 * 16 + 0 * 16 + 0xC)

/-- `do_io_s`. -/
def doIoS (k : Kernel) (device command _data1 _data2 : Value) (applicant : Tcb) : Exec Kernel :=
  if device = TERMINAL0_TRANSM_COMMAND then
    let k := { k with softBlockCount := k.softBlockCount + 1 }
    let k := { k with transmCommand := command }
    match k.softBlockedThread TERMINAL_REQUESTER_INDEX with
    | some _ => .error (.panic k)
    | none =>
        .ok { k with softBlockedThread :=
                Function.update k.softBlockedThread TERMINAL_REQUESTER_INDEX (some applicant) }
  else
    .error (.panic k)

/-- `get_processid_s`: `t_pcb` is the first word of a TCB. -/
def getProcessidS (k : Kernel) : Value → Exec Value
  | .tcb t => .ok (pcbPtr (k.tcb t).tPcb)
  | .int a => .ok (k.mem a)
  | _ => .error .undefined

/-- `get_parentprocid_s`: `p_parent` is the first word of a PCB. -/
def getParentprocidS (k : Kernel) : Value → Exec Value
  | .pcb p => .ok (pcbPtr (k.pcb p).pParent)
  | .int a => .ok (k.mem a)
  | _ => .error .undefined

/-! ## The loop -/

/-- The word `i` of the object that `ptr` points to. -/
def loadWord (k : Kernel) (ptr : Value) (i : Nat) : Exec Value :=
  match ptr with
  | .int a => .ok (k.mem (a + BitVec.ofNat 32 (4 * i)))
  | .tS t =>
      match (k.tcb t).tS.words[i]? with
      | some v => .ok v
      | none => .error .undefined
  | .sysMsg => .ok (k.handlerStack.sysMsg i)
  | .req reqtag => .ok (k.handlerStack.req reqtag i)
  | _ => .error .undefined

/-- `req_field`. -/
abbrev reqField := loadWord

/-- `*initial_state`. -/
def loadState (k : Kernel) (ptr : Value) : Exec State :=
  match ptr with
  | .int a => .ok (State.ofWords fun i => k.mem (a + BitVec.ofNat 32 (4 * i)))
  | .tS t => .ok (k.tcb t).tS
  | _ => .error .undefined

/-- The request codes of `nucleus.h`. -/
inductive Request
  | getErrno
  | createProcess
  | createThread
  | terminateProcess
  | terminateThread
  | setpgmmgr
  | settlbmgr
  | setsysmgr
  | getCputime
  | waitForClock
  | doIo
  | getProcessid
  | getMythreadid
  | getParentprocid
deriving DecidableEq

/-- The request with a given code. -/
def Request.ofTag : Value → Option Request
  | .int 0 => some .getErrno
  | .int 1 => some .createProcess
  | .int 2 => some .createThread
  | .int 3 => some .terminateProcess
  | .int 4 => some .terminateThread
  | .int 5 => some .setpgmmgr
  | .int 6 => some .settlbmgr
  | .int 7 => some .setsysmgr
  | .int 8 => some .getCputime
  | .int 9 => some .waitForClock
  | .int 10 => some .doIo
  | .int 11 => some .getProcessid
  | .int 12 => some .getMythreadid
  | .int 13 => some .getParentprocid
  | _ => none

/-- One case of the `switch` of `ssi`: the service, and the reply to send if any. -/
def service (fuel : Nat) (k : Kernel) (applicant : Tcb) (msg : Value) :
    Request → Exec (Option Value × Kernel)
  | .getErrno => .ok (some (.int (k.tcb applicant).errno), k)
  | .createProcess => do
      let (t, k) ← createProcessS k (← loadState k (← reqField k msg 1)) applicant
      .ok (some (tcbPtr t), k)
  | .createThread => do
      let (t, k) ← createThreadS k (← loadState k (← reqField k msg 1)) applicant
      .ok (some (tcbPtr t), k)
  | .terminateProcess => do .ok (none, ← terminateProcessS fuel k applicant)
  | .terminateThread => do .ok (none, ← terminateThreadS fuel k applicant)
  | .setpgmmgr => do setpgmmgrS fuel k (← (← reqField k msg 1).toTcb) applicant
  | .settlbmgr => do settlbmgrS fuel k (← (← reqField k msg 1).toTcb) applicant
  | .setsysmgr => do setsysmgrS fuel k (← (← reqField k msg 1).toTcb) applicant
  | .getCputime => .ok (some (.int (k.tcb applicant).runTime), k)
  | .waitForClock => .ok (none, waitForClockS k applicant)
  | .doIo => do
      .ok (none, ← doIoS k (← reqField k msg 1) (← reqField k msg 2) (← reqField k msg 3)
        (← reqField k msg 4) applicant)
  | .getProcessid => do .ok (some (← getProcessidS k (← reqField k msg 1)), k)
  | .getParentprocid => do .ok (some (← getParentprocidS k (← reqField k msg 1)), k)
  | .getMythreadid => do .ok (some (← reqField k msg 1), k)

/-- The round of the loop of `ssi` after `msgrecv`: serve the request and reply. -/
def ssiServe (fuel : Nat) (k : Kernel) (applicant : Tcb) (msg : Value) :
    Exec (Exit × Kernel) := do
  match Request.ofTag (← reqField k msg 0) with
  | none => .error (.panic k)
  | some r =>
      match ← service fuel k applicant msg r with
      | (none, k) => .ok (.resume k.cpu, k)
      | (some reply, k) =>
          let k ← msgsend k k.cpu applicant reply
          .ok (.resume k.sysbkOldarea, k)

/-- The SSI runs to the next call or return of `msgrecv(NULL, &msg)`, which leaves
the applicant in `a1`. -/
def ssi (fuel : Nat) (k : Kernel) : Exec (Exit × Kernel) := do
  match k.ssiPoint with
  | .receiving => msgrecv fuel { k with ssiPoint := .serving } k.cpu none .ssiMsg
  | .serving =>
      match ← k.cpu.a1.toTcb with
      | none => .error .undefined
      | some applicant => ssiServe fuel { k with ssiPoint := .receiving } applicant k.ssiMsg

end MikaBoo
