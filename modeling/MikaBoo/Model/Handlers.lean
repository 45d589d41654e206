import MikaBoo.Model.Mikabooq

/-!
# Exception handlers and the scheduler

`handlers/syscall.c`, `handlers/trap.c`, `handlers/interrupts.c`,
`clock/accounting.c` and `scheduler.c`.

## Implementation notes

A handler that ends in `scheduler()` returns `Exit.schedule`, one that ends in
`LDST` returns `Exit.resume` with the state to load. The code after such a call
is never reached and is left out.

A system call made inside a handler enters `syscall_h` again and overwrites
`SYSBK_OLDAREA`. Handlers run in system mode, so it passes the mode check. What
the outer handler itself goes on with (return addresses, its own variables) is
taken to survive the frames of the inner one.

A local variable whose address a handler sends away does not survive them: every
entry into a handler starts at `RAM_TOP` and puts unknown words there (`Kernel.enter`).
-/

namespace MikaBoo

open Intrusive

/-- `SEND_SUCCESS`. -/
abbrev SEND_SUCCESS : Word := 0

/-- `SEND_FAILURE`, as the unsigned result of `send`. -/
abbrev SEND_FAILURE : Word := -1

/-- `SYS_SEND`. -/
abbrev SYS_SEND : Value := .int 1

/-- `SYS_RECV`. -/
abbrev SYS_RECV : Value := .int 2

/-- `TERMINATE_PROCESS` and `TERMINATE_THREAD`, the requests that handlers make. -/
abbrev TERMINATE_PROCESS : Word := 3
abbrev TERMINATE_THREAD : Word := 4

/-- `EXC_RESERVEDINSTR`. -/
abbrev EXC_RESERVEDINSTR : Value := .int 20

/-- `STATUS_ALL_INT_DISABLE(STATUS_SYS_MODE)`. -/
abbrev SYS_MODE_INT_DISABLED : Value := .int (0x1F ||| 0x40 ||| 0x80)

/-- `DEV_C_ACK`. -/
abbrev DEV_C_ACK : Value := .int 1

/-- `TERMINAL_REQUESTER_INDEX`. -/
abbrev TERMINAL_REQUESTER_INDEX : Fin 5 := 4

/-- `PSEUDOCLOCK_TICK`. -/
abbrev PSEUDOCLOCK_TICK : Nat := 100

/-- `assert` of `syslib.h`. -/
def assert (k : Kernel) (assertion : Bool) : Exec Unit :=
  if assertion then .ok () else .error (.panic k)

/-! ## Sending -/

/-- `store_return_value`. -/
def storeReturnValue (k : Kernel) (rval : Value) : Kernel :=
  { k with sysbkOldarea := { k.sysbkOldarea with a1 := rval } }

/-- `deliver_msg`. -/
def deliverMsg (k : Kernel) (dest : Tcb) (sender : Option Tcb) (msg : Value) :
    Exec (Word × Kernel) := do
  let (r, k) ← msgqAdd k sender (some dest) msg
  if r = 0 then .ok (SEND_SUCCESS, k) else .ok (SEND_FAILURE, k)

/-- `deliver_directly`. -/
def deliverDirectly (k : Kernel) (dest : Tcb) (recvRval : Option Tcb) (msg : Value) : Kernel :=
  let k := k.modTcb dest fun d => { d with tS := { d.tS with a1 := tcbPtr recvRval } }
  let k := if (k.tcb dest).tS.a3 = null then k else k.store (k.tcb dest).tS.a3 msg
  k.record (.received dest recvRval msg)

/-- `resume_thread`. -/
def resumeThread (k : Kernel) (resuming : Tcb) (recvRval : Option Tcb) (msg : Value) : Kernel :=
  let k := deliverDirectly k resuming recvRval msg
  let k := k.modTcb resuming fun d => { d with tStatus := .ready, tWait4sender := none }
  let k := threadOutqueue k resuming
  threadEnqueue k resuming .readyq

/-- The `switch` of `send`. -/
def sendSwitch (k : Kernel) (dest : Tcb) (sender : Option Tcb) (msg : Value) :
    Exec (Word × Kernel) :=
  match (k.tcb dest).tStatus with
  | .ready => deliverMsg k dest sender msg
  | .w4msg =>
      if (k.tcb dest).tWait4sender = sender ∨ (k.tcb dest).tWait4sender = none then
        .ok (SEND_SUCCESS, resumeThread k dest sender msg)
      else
        deliverMsg k dest sender msg
  | .none => .ok (SEND_FAILURE, k)

/-- `send`, with its result put down in the history. -/
def send (k : Kernel) (dest : Tcb) (sender : Option Tcb) (msg : Value) :
    Exec (Word × Kernel) := do
  let (r, k) ← sendSwitch k dest sender msg
  .ok (r, k.record (.sent sender dest msg (r = SEND_SUCCESS)))

/-- The registers of a handler that executes a system call of its own. -/
def handlerState : State := { cpsr := SYS_MODE_INT_DISABLED }

/-- `msgsend(dest, payload)` in a handler or in the SSI, running with registers `caller`. -/
def msgsend (k : Kernel) (caller : State) (dest : Tcb) (payload : Value) : Exec Kernel := do
  let k := { k.enter with
    sysbkOldarea := { caller with a1 := SYS_SEND, a2 := .tcb dest, a3 := payload, a4 := null } }
  let (r, k) ← send k dest k.currentThread payload
  .ok (storeReturnValue k (.int r))

/-! ## Accounting -/

/-- The result of an operation on `int`, whose behaviour is undefined if it overflows. -/
def checkInt (v : Int) : Exec Int :=
  if -2 ^ 31 ≤ v ∧ v < 2 ^ 31 then .ok v else .error .undefined

/-- The loop of `accountant`. -/
def accountantLoop : Nat → Int → Int → Exec Int
  | 0, _, _ => .error .unfinished
  | fuel + 1, cycles, milliseconds => do
      if 0 < cycles then
        let milliseconds ← checkInt (milliseconds + 1)
        let cycles ← checkInt (cycles - 1000)
        accountantLoop fuel cycles milliseconds
      else .ok milliseconds

/-- `accountant`. -/
def accountant (fuel : Nat) (k : Kernel) (thread : Tcb) : Exec Word := do
  let cycles := (k.tcb thread).runTime.toInt
  let cycles ← checkInt (cycles - 500)
  let milliseconds ← accountantLoop fuel cycles 0
  .ok (BitVec.ofInt 32 milliseconds)

/-- The loop of `update_clock` that wakes the threads in `t_wait4clock`. -/
def wakeClockWaiters : Nat → Kernel → Exec Kernel
  | 0, _ => .error .unfinished
  | fuel + 1, k => do
      match ← threadDequeue k .tWait4clock with
      | (none, k) => .ok k
      | (some toResume, k) => wakeClockWaiters fuel (← msgsend k handlerState toResume null)

/-- `update_clock`. -/
def updateClock (fuel : Nat) (k : Kernel) (milliseconds : Word) : Exec Kernel :=
  let k := { k with pseudoclock := k.pseudoclock + milliseconds }
  if (PSEUDOCLOCK_TICK : Int) ≤ k.pseudoclock.toInt then
    wakeClockWaiters fuel { k with pseudoclock := k.pseudoclock - BitVec.ofNat 32 PSEUDOCLOCK_TICK }
  else
    .ok k

/-! ## Receiving -/

/-- `recv`. -/
def recv (fuel : Nat) (k : Kernel) (sender : Option Tcb) (pmsg : Value) :
    Exec (Exit × Kernel) := do
  match k.currentThread with
  | none => .error .undefined
  | some current =>
      if pmsg.isPayloadPtr = false then .error .undefined
      else
        match ← msgqGet k (some sender) (some current) pmsg with
        | (some (src, payload), k) =>
            let k := storeReturnValue (k.record (.received current src payload)) (tcbPtr src)
            .ok (.resume k.sysbkOldarea, k)
        | (none, k) =>
            let k := { k with timeSliceLeft := k.timer }
            let k := k.modTcb current fun d =>
              { d with tS := k.sysbkOldarea, tStatus := .w4msg, tWait4sender := sender
                       runTime := d.runTime + k.timeSliceLeft }
            let k ← updateClock fuel k k.timeSliceLeft
            match sender with
            | some s => .ok (.schedule, threadEnqueue k current (.tWait4me s))
            | none => .ok (.schedule, threadEnqueue k current .blockedq)

/-- `msgrecv(source, reply)` in a handler or in the SSI, running with registers `caller`. -/
def msgrecv (fuel : Nat) (k : Kernel) (caller : State) (source : Option Tcb) (reply : Value) :
    Exec (Exit × Kernel) :=
  let k := { k.enter with
    sysbkOldarea := { caller with a1 := SYS_RECV, a2 := tcbPtr source, a3 := reply, a4 := null } }
  recv fuel k source reply

/-! ## Traps -/

/-- A request that a handler makes for the current thread, `terminate_process`
or `terminate_thread`. The handler panics if the reply comes back. The frames of
its two system calls go over the request. -/
def terminateRequest (fuel : Nat) (k : Kernel) (reqtag : Word) : Exec (Exit × Kernel) := do
  let k ← msgsend (k.writeReq reqtag) handlerState .ssi (.req reqtag)
  match ← msgrecv fuel k handlerState (some .ssi) null with
  | (.resume _, k) => .error (.panic k)
  | (.schedule, k) => .ok (.schedule, k)

/-- `pc -= 4`. -/
def State.stepBack (s : State) : State :=
  match s.pc with
  | .int w => { s with pc := .int (w - 4) }
  | _ => s

/-- `__trap_h`. -/
def rawTrapH (fuel : Nat) (k : Kernel) (mgr : Option Tcb) (oldarea : State) :
    Exec (Exit × Kernel) := do
  match k.currentThread with
  | none => .error .undefined
  | some current =>
      match mgr with
      | some mgr =>
          let k := k.modTcb current fun d => { d with tS := oldarea.stepBack }
          let k ← msgsend k handlerState mgr (.tS current)
          .ok (.schedule, threadEnqueue k current .blockedq)
      | none => terminateRequest fuel k TERMINATE_PROCESS

/-- The process of the current thread. -/
def currentProcess (k : Kernel) : Exec Pcb :=
  match k.currentThread.bind fun t => (k.tcb t).tPcb with
  | some p => .ok p
  | none => .error .undefined

/-- `pgmtrap_h`. -/
def pgmtrapH (fuel : Nat) (k : Kernel) : Exec (Exit × Kernel) := do
  rawTrapH fuel k (k.pcb (← currentProcess k)).pgmMgr k.pgmtrapOldarea

/-- `tlbtrap_h`. -/
def tlbtrapH (fuel : Nat) (k : Kernel) : Exec (Exit × Kernel) := do
  rawTrapH fuel k (k.pcb (← currentProcess k)).tlbMgr k.tlbOldarea

/-! ## System calls -/

/-- `raise_reserved_instruction`. -/
def raiseReservedInstruction (fuel : Nat) (k : Kernel) : Exec (Exit × Kernel) :=
  pgmtrapH fuel { k with
    pgmtrapOldarea := { k.sysbkOldarea with cp15Cause := EXC_RESERVEDINSTR } }

/-- `IS_KERNEL_MODE`: in C, `==` binds more tightly than `&`, so the mask is the
truth value of `STATUS_SYS_MODE == STATUS_SYS_MODE`. Kernel objects are aligned,
so bit 0 of an address is clear. -/
def isKernelMode (k : Kernel) : Bool :=
  match k.sysbkOldarea.cpsr with
  | .int cpsr => cpsr &&& (if (0x1F : Word) = 0x1F then 1 else 0) ≠ 0
  | _ => false

/-- `send_kernel`. -/
def sendKernel (fuel : Nat) (k : Kernel) (dest msg : Value) : Exec (Exit × Kernel) := do
  if isKernelMode k then
    match ← dest.toTcb with
    | none => .error .undefined
    | some dest =>
        let (r, k) ← send k dest k.currentThread msg
        let k := storeReturnValue k (.int r)
        .ok (.resume k.sysbkOldarea, k)
  else
    raiseReservedInstruction fuel k

/-- `recv_kernel`. -/
def recvKernel (fuel : Nat) (k : Kernel) (src pmsg : Value) : Exec (Exit × Kernel) := do
  if isKernelMode k then
    recv fuel k (← src.toTcb) pmsg
  else
    raiseReservedInstruction fuel k

/-- `syscall_other`. -/
def syscallOther (fuel : Nat) (k : Kernel) (sysNum arg1 arg2 arg3 : Value) :
    Exec (Exit × Kernel) := do
  match k.currentThread with
  | none => .error .undefined
  | some current =>
      let currentProcess ← currentProcess k
      match (k.pcb currentProcess).sysMgr, (k.pcb currentProcess).pgmMgr with
      | some sysMgr, _ =>
          let k := k.modTcb current fun d => { d with tS := k.sysbkOldarea }
          let k := k.writeSysMsg [sysNum, arg1, arg2, arg3]
          let (_, k) ← send k sysMgr (some current) .sysMsg
          .ok (.schedule, threadEnqueue k current .blockedq)
      | none, some pgmMgr =>
          let k := k.modTcb current fun d => { d with tS := k.sysbkOldarea.stepBack }
          let (_, k) ← send k pgmMgr (some current) (.tS current)
          .ok (.schedule, threadEnqueue k current .blockedq)
      | none, none => terminateRequest fuel k TERMINATE_THREAD

/-- `syscall_h`. -/
def syscallH (fuel : Nat) (k : Kernel) : Exec (Exit × Kernel) :=
  let args := k.sysbkOldarea
  if args.a1 = null then raiseReservedInstruction fuel k
  else if args.a1 = SYS_SEND then sendKernel fuel k args.a2 args.a3
  else if args.a1 = SYS_RECV then recvKernel fuel k args.a2 args.a3
  else syscallOther fuel k args.a1 args.a2 args.a3 args.a4

/-! ## Scheduling -/

/-- `empty_readyq_h`. -/
def emptyReadyqH (k : Kernel) : Exec Kernel := do
  if k.threadCount = 1 then .error (.halt k)
  else if k.softBlockCount = 0 then .error (.panic k)
  else
    assert k !k.isIdle
    .ok { k with isIdle := true, timer := k.clockPerTimeslice, mode := .waiting }

/-- `scheduler`. -/
def scheduler (k : Kernel) : Exec Kernel := do
  match ← threadDequeue k .readyq with
  | (none, k) => emptyReadyqH { k with currentThread := none }
  | (some t, k) =>
      .ok { k with currentThread := some t, timer := k.clockPerTimeslice
                   cpu := (k.tcb t).tS, mode := .running }

/-! ## Interrupts -/

/-- `interval_timer_h`. -/
def intervalTimerH (fuel : Nat) (k : Kernel) : Exec (Exit × Kernel) := do
  let k :=
    match k.currentThread with
    | some current =>
        let k := k.modTcb current fun d =>
          { d with tS := k.intOldarea, runTime := d.runTime + k.clockPerTimeslice }
        threadEnqueue k current .readyq
    | none => k
  .ok (.schedule, ← updateClock fuel k k.clockPerTimeslice)

/-- `acknowledge`, for the transmitter of terminal 0, the only command register
it is called with. The variable `sender` of its last assertion is not declared
anywhere, so that assertion is left out. `LDST` cannot go back to `WAIT`: the
scheduler would go on with `current_thread` NULL. -/
def acknowledge (k : Kernel) (requesterIndex : Fin 5) : Exec (Exit × Kernel) := do
  let k := { k with transmCommand := DEV_C_ACK }
  assert k (k.softBlockedThread requesterIndex).isSome
  match k.softBlockedThread requesterIndex with
  | none => .error .undefined
  | some requester =>
      let (rval, k) ← send k requester (some .ssi) null
      assert k (rval = SEND_SUCCESS)
      let k := { k with
        softBlockedThread := Function.update k.softBlockedThread requesterIndex none }
      if k.isIdle then .ok (.schedule, { k with isIdle := false })
      else if k.mode = .waiting then .error .undefined
      else .ok (.resume k.intOldarea, k)

/-- `io_h`: whichever device is pending, terminal 0 is acknowledged. The bitmap
of line `i` is `pending i`. -/
def ioH (k : Kernel) (pending : Fin 5 → Word) : Exec (Exit × Kernel) :=
  if ∃ i : Fin 5, ∃ j : Fin 8, (pending i).getLsbD j = true then
    acknowledge k TERMINAL_REQUESTER_INDEX
  else
    .error (.panic k)

/-- `interrupt_h`. -/
def interruptH (fuel : Nat) (k : Kernel) (pending : Fin 5 → Word) : Exec (Exit × Kernel) :=
  let k := { k with timeSliceLeft := k.timer }
  if 0 < k.timeSliceLeft ∧ k.timeSliceLeft < k.clockPerTimeslice then ioH k pending
  else intervalTimerH fuel k

end MikaBoo
