import MikaBoo.Model.Services
import MikaBoo.Library.Runs

/-!
# Boot and execution

The state `load_readyq` leaves, the events that enter the kernel, and runs.

## Implementation notes

Between two kernel entries the current thread may do anything to its registers
and to the memory outside the kernel; this is the event `Event.run`. The SSI is
the exception: it executes `ssi`, with interrupts disabled.
-/

namespace MikaBoo

open Intrusive

/-- What the machine and the link map contribute to the boot state. -/
structure Hardware where
  /-- The registers that `STST` stores. -/
  cpu : State
  mem : Word → Value
  /-- The register `BUS_REG_TIME_SCALE`. -/
  busRegTimeScale : Word
  ramTop : Word
  /-- What the frames of the handlers leave in the words that pointers go out to, in the order in
  which the handlers are entered. -/
  overlays : Nat → HandlerStack
  /-- The addresses of the functions `ssi` and `test`. -/
  ssi : Word
  test : Word

/-- The statically initialised list heads. -/
def staticData (hw : Hardware) : Kernel :=
  let k : Kernel := { cpu := hw.cpu, mem := hw.mem, overlays := hw.overlays }
  { k with
    threadLinks := k.threadLinks.initListHead .threadH
    msgLinks := k.msgLinks.initListHead .messageH
    schedLinks := ((k.schedLinks.initListHead .readyq).initListHead .blockedq).initListHead
      .tWait4clock }

/-- `time_init`. -/
def timeInit (hw : Hardware) (k : Kernel) : Kernel :=
  { k with clockPerTimeslice := hw.busRegTimeScale * 5000 }

/-- `ssi_thread_init`. -/
def ssiThreadInit (k : Kernel) : Kernel :=
  let k := k.modTcb .ssi fun d =>
    { d with tPcb := none, tStatus := .ready, tWait4sender := none }
  let k := { k with msgLinks := k.msgLinks.initListHead (.tMsgq .ssi) }
  let k := { k with schedLinks := k.schedLinks.initListHead (.tWait4me .ssi) }
  { k with softBlockedThread := fun _ => none }

/-- `state_init`, when its static counter is `n`. -/
def stateInit (hw : Hardware) (n : Nat) (target : Word) (cpsr : Value) : State :=
  { hw.cpu with
    pc := .int target, sp := .int (hw.ramTop - BitVec.ofNat 32 (n * 4096)), cpsr := cpsr }

/-- `init_and_load`. -/
def initAndLoad (k : Kernel) (toLoad : Tcb) (s : State) : Kernel :=
  let k := k.modTcb toLoad fun d => { d with tS := s }
  let k := threadEnqueue k toLoad .readyq
  { k with threadCount := k.threadCount + 1 }

/-- `load_readyq`, with `p2test_init`. -/
def loadReadyq (hw : Hardware) (k : Kernel) : Exec Kernel := do
  let k := ssiThreadInit k
  let k := initAndLoad k .ssi (stateInit hw 1 hw.ssi SYS_MODE_INT_DISABLED)
  match ← threadAlloc k (some root) with
  | (none, _) => .error .undefined
  | (some threadTest, k) =>
      .ok (initAndLoad k threadTest (stateInit hw 2 hw.test SYS_MODE_INT_DISABLED))

/-- `main` up to its call of `scheduler`. -/
def boot (hw : Hardware) : Exec Kernel :=
  loadReadyq hw (timeInit hw (msgqInit (threadInit (procInit (staticData hw)))))

/-- What may happen next. -/
inductive Event
  /-- `main` calls `scheduler`. -/
  | start
  /-- The current thread computes for some cycles. -/
  | run (cpu : State) (mem : Word → Value) (cycles : Word)
  /-- Some cycles pass while the SSI runs or the processor waits. -/
  | elapse (cycles : Word)
  /-- The current thread overwrites the saved state of a thread that is not
  receiving, as a manager does before it answers. -/
  | edit (t : Tcb) (s : State)
  /-- The current thread executes `SYSCALL`. -/
  | syscall
  | pgmtrap (cause : Value)
  | tlbtrap (cause : Value)
  /-- An interrupt, with the pending bitmaps of the five external lines. -/
  | interrupt (pending : Fin 5 → Word)
  /-- The SSI runs. -/
  | ssi

namespace Kernel

/-- The processor executes a thread other than the SSI. -/
def userRuns (k : Kernel) : Bool :=
  match k.mode, k.currentThread with
  | .running, some (.thread _) => true
  | _, _ => false

/-- The interval timer is outside the slice it was loaded with. -/
def timerFired (k : Kernel) : Bool :=
  ¬ (0 < k.timer ∧ k.timer < k.clockPerTimeslice)

end Kernel

/-- The kernel code that an event runs, up to `scheduler` or `LDST`. -/
def entry (fuel : Nat) (k : Kernel) : Event → Exec (Exit × Kernel)
  | .start => if k.mode = .booting then .ok (.schedule, k) else .error .undefined
  | .run cpu mem cycles =>
      if k.userRuns then .ok (.resume cpu, { k with mem := mem, timer := k.timer - cycles })
      else .error .undefined
  | .elapse cycles =>
      if k.mode ≠ .booting ∧ k.userRuns = false then
        .ok (.resume k.cpu, { k with timer := k.timer - cycles })
      else .error .undefined
  | .edit t s =>
      if k.userRuns ∧ k.currentThread ≠ some t ∧ (k.tcb t).tStatus = .ready ∧ t ≠ .ssi then
        .ok (.resume k.cpu, k.modTcb t fun d => { d with tS := s })
      else .error .undefined
  | .syscall =>
      if k.userRuns then syscallH fuel { k.enter with sysbkOldarea := k.cpu } else .error .undefined
  | .pgmtrap cause =>
      if k.userRuns then
        pgmtrapH fuel { k.enter with pgmtrapOldarea := { k.cpu with cp15Cause := cause } }
      else .error .undefined
  | .tlbtrap cause =>
      if k.userRuns then
        tlbtrapH fuel { k.enter with tlbOldarea := { k.cpu with cp15Cause := cause } }
      else .error .undefined
  | .interrupt pending =>
      if (k.userRuns ∨ k.mode = .waiting) ∧ (k.timerFired ∨ ∃ i, pending i ≠ 0) then
        interruptH fuel { k.enter with intOldarea := k.cpu } pending
      else .error .undefined
  | .ssi =>
      if k.mode = .running ∧ k.currentThread = some .ssi then ssi fuel k
      else .error .undefined

/-- The end of a kernel entry. -/
def leave (k : Kernel) : Exit → Exec Kernel
  | .resume s => .ok { k with cpu := s }
  | .schedule => scheduler k

/-- One event. -/
def step (fuel : Nat) (k : Kernel) (e : Event) : Exec Kernel := do
  let (x, k) ← entry fuel k e
  leave k x

/-- One event that comes back, with all loops of the kernel run to their end. -/
def Step (k : Kernel) (e : Event) (k' : Kernel) : Prop :=
  ∃ fuel, step fuel k e = .ok k'

end MikaBoo
