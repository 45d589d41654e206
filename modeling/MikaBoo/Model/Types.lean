import MikaBoo.Intrusive.ListFamily
import Mathlib.Data.BitVec

/-!
# Kernel data

The descriptors, the globals and the machine state the kernel code reads and
writes, under the source's names.

## Implementation notes

A word is a 32-bit integer or the address of a kernel object (`Value`), so two
objects never share an address and no address is NULL. The link fields are kept
apart by field: `p_siblings`/`p_children`, `t_next`/`p_threads`,
`t_sched`/scheduling queues, `m_next`/`t_msgq`. The source never links a node
of one kind into a list of another.
-/

namespace MikaBoo

open Intrusive

abbrev MAXPROC : Nat := 20
abbrev MAXTHREAD : Nat := 30
abbrev MAXMSG : Nat := 40

/-- A 32-bit machine integer. -/
abbrev Word := BitVec 32

/-- An entry of the array `process`. -/
abbrev Pcb := Fin MAXPROC

/-- An entry of the array `message`. -/
abbrev Msg := Fin MAXMSG

-- Stated once, so that a numeral or a comparison of these types has one form everywhere.
instance : NeZero MAXPROC := ⟨by decide⟩

instance : NeZero MAXTHREAD := ⟨by decide⟩

instance : LawfulBEq Msg := inferInstance

/-- The interrupt lines with devices. -/
instance neZero_lines : NeZero 5 := ⟨by decide⟩

/-- The devices of a line. -/
instance neZero_devices : NeZero 8 := ⟨by decide⟩

/-- The root process, `process[0]`. -/
def root : Pcb := 0

/-- A thread descriptor: an entry of the array `thread`, or the SSI's own. -/
inductive Tcb
  | thread (i : Fin MAXTHREAD)
  | ssi
deriving DecidableEq

/-- The contents of a register or of a memory word. -/
inductive Value
  | int (w : Word)
  | tcb (t : Tcb)
  | pcb (p : Pcb)
  /-- The address of `t->t_s`. -/
  | tS (t : Tcb)
  /-- The address of the local variable `msg` of `ssi`. -/
  | ssiMsg
  /-- The address of the local variable `msg` of `syscall_other`. -/
  | sysMsg
  /-- The address of the one-word request that `terminate_process` or `terminate_thread`, with the
  code `reqtag`, builds on the stack of the handler. -/
  | req (reqtag : Word)
deriving DecidableEq

instance : Inhabited Value := ⟨.int 0⟩

/-- `NULL`, and the integer zero. -/
abbrev null : Value := .int 0

/-- A TCB pointer as a machine word. -/
def tcbPtr : Option Tcb → Value
  | none => null
  | some t => .tcb t

/-- A PCB pointer as a machine word. -/
def pcbPtr : Option Pcb → Value
  | none => null
  | some p => .pcb p

/-- The processor state `state_t`. -/
structure State where
  a1 : Value := null
  a2 : Value := null
  a3 : Value := null
  a4 : Value := null
  v1 : Value := null
  v2 : Value := null
  v3 : Value := null
  v4 : Value := null
  v5 : Value := null
  v6 : Value := null
  sl : Value := null
  fp : Value := null
  ip : Value := null
  sp : Value := null
  lr : Value := null
  pc : Value := null
  cpsr : Value := null
  cp15Control : Value := null
  cp15EntryHi : Value := null
  cp15Cause : Value := null
  todHi : Value := null
  todLow : Value := null
deriving DecidableEq, Inhabited

/-- The words of a `state_t` in memory order. -/
def State.words (s : State) : List Value :=
  [s.a1, s.a2, s.a3, s.a4, s.v1, s.v2, s.v3, s.v4, s.v5, s.v6, s.sl, s.fp, s.ip, s.sp, s.lr,
    s.pc, s.cpsr, s.cp15Control, s.cp15EntryHi, s.cp15Cause, s.todHi, s.todLow]

/-- The `state_t` whose words are `f 0`, `f 1`, and so on. -/
def State.ofWords (f : Nat → Value) : State :=
  { a1 := f 0, a2 := f 1, a3 := f 2, a4 := f 3, v1 := f 4, v2 := f 5, v3 := f 6, v4 := f 7
    v5 := f 8, v6 := f 9, sl := f 10, fp := f 11, ip := f 12, sp := f 13, lr := f 14
    pc := f 15, cpsr := f 16, cp15Control := f 17, cp15EntryHi := f 18, cp15Cause := f 19
    todHi := f 20, todLow := f 21 }

/-- `T_STATUS_NONE`, `T_STATUS_READY` and `T_STATUS_W4MSG`. -/
inductive Status
  | none
  | ready
  | w4msg
deriving DecidableEq

/-- The fields of `struct pcb_t` other than its list heads. -/
structure PcbT where
  pParent : Option Pcb := none
  pgmMgr : Option Tcb := none
  tlbMgr : Option Tcb := none
  sysMgr : Option Tcb := none
deriving DecidableEq

/-- The fields of `struct tcb_t` other than its list heads. -/
structure TcbT where
  tPcb : Option Pcb := none
  tS : State := {}
  tStatus : Status := .none
  runTime : Word := 0
  errno : Word := 0
  tWait4sender : Option Tcb := none
deriving DecidableEq

/-- The fields of `struct msg_t` other than its link. -/
structure MsgT where
  mSender : Option Tcb := none
  mValue : Value := null
deriving DecidableEq

/-- The list heads that `p_siblings` and `p_children` make up. -/
inductive ProcNode
  | null
  | pSiblings (p : Pcb)
  | pChildren (p : Pcb)
deriving DecidableEq

/-- The list heads of the lists linked by `t_next`. -/
inductive ThreadNode
  | null
  | threadH
  | pThreads (p : Pcb)
  | tNext (t : Tcb)
deriving DecidableEq

/-- The list heads of the scheduling queues, linked by `t_sched`. -/
inductive SchedNode
  | null
  | readyq
  | blockedq
  | tWait4clock
  | tWait4me (t : Tcb)
  | tSched (t : Tcb)
deriving DecidableEq

/-- The list heads of the lists linked by `m_next`. -/
inductive MsgNode
  | null
  | messageH
  | tMsgq (t : Tcb)
  | mNext (m : Msg)
deriving DecidableEq

/-- The lists of processes: the free list and the children of each process. -/
inductive ProcList
  | free
  | children (p : Pcb)
deriving DecidableEq

/-- The lists of threads: the free list and the threads of each process. -/
inductive ThreadList
  | free
  | of (p : Pcb)
deriving DecidableEq

/-- The scheduling queues. -/
inductive SchedQueue
  | readyq
  | blockedq
  | tWait4clock
  | tWait4me (t : Tcb)
deriving DecidableEq

/-- The lists of messages: the free list and the queue of each thread. -/
inductive MsgList
  | free
  | of (t : Tcb)
deriving DecidableEq

/-- The sentinel of the free list of processes is `process[0].p_siblings`. -/
def ProcList.head : ProcList → ProcNode
  | .free => .pSiblings root
  | .children p => .pChildren p

def ThreadList.head : ThreadList → ThreadNode
  | .free => .threadH
  | .of p => .pThreads p

def SchedQueue.head : SchedQueue → SchedNode
  | .readyq => .readyq
  | .blockedq => .blockedq
  | .tWait4clock => .tWait4clock
  | .tWait4me t => .tWait4me t

def MsgList.head : MsgList → MsgNode
  | .free => .messageH
  | .of t => .tMsgq t

/-- `container_of(n, struct pcb_t, p_siblings)`, where `n` is such a field. -/
def ProcNode.container : ProcNode → Option Pcb
  | .pSiblings p => some p
  | _ => none

/-- `container_of(n, struct tcb_t, t_next)`, where `n` is such a field. -/
def ThreadNode.container : ThreadNode → Option Tcb
  | .tNext t => some t
  | _ => none

/-- `container_of(n, struct tcb_t, t_sched)`, where `n` is such a field. -/
def SchedNode.container : SchedNode → Option Tcb
  | .tSched t => some t
  | _ => none

/-- `container_of(n, struct msg_t, m_next)`, where `n` is such a field. -/
def MsgNode.container : MsgNode → Option Msg
  | .mNext m => some m
  | _ => none

def procLayout : Layout ProcList Pcb ProcNode where
  head := ProcList.head
  link := .pSiblings
  head_inj := by
    rintro (_ | p) (_ | q) h <;> simp_all [ProcList.head]
  link_inj := by
    rintro p q h
    exact ProcNode.pSiblings.inj h

def threadLayout : Layout ThreadList Tcb ThreadNode where
  head := ThreadList.head
  link := .tNext
  head_inj := by
    rintro (_ | p) (_ | q) h <;> simp_all [ThreadList.head]
  link_inj := by
    rintro t u h
    exact ThreadNode.tNext.inj h

def schedLayout : Layout SchedQueue Tcb SchedNode where
  head := SchedQueue.head
  link := .tSched
  head_inj := by
    rintro (_ | _ | _ | t) (_ | _ | _ | u) h <;> simp_all [SchedQueue.head]
  link_inj := by
    rintro t u h
    exact SchedNode.tSched.inj h

def msgLayout : Layout MsgList Msg MsgNode where
  head := MsgList.head
  link := .mNext
  head_inj := by
    rintro (_ | t) (_ | u) h <;> simp_all [MsgList.head]
  link_inj := by
    rintro m n h
    exact MsgNode.mNext.inj h

/-- What the history variable records. No kernel function reads it. -/
inductive Obs
  /-- A call of `send` and whether it returned `SEND_SUCCESS`. -/
  | sent (sender : Option Tcb) (dest : Tcb) (payload : Value) (success : Bool)
  /-- `dest` got a payload: from its queue in `recv`, or from `deliver_directly`. -/
  | received (dest : Tcb) (sender : Option Tcb) (payload : Value)
  /-- `thread_alloc` handed out `t`. -/
  | allocated (t : Tcb)
  /-- `thread_free` took `t` back. -/
  | freed (t : Tcb)
deriving DecidableEq

/-- Where the loop of `ssi` is: about to receive, or holding a request. -/
inductive SsiPoint
  | receiving
  | serving
deriving DecidableEq

/-- What the processor is doing between two kernel entries. -/
inductive Mode
  /-- `main` has loaded the ready queue and will call `scheduler`. -/
  | booting
  /-- The current thread runs. -/
  | running
  /-- The processor is in `WAIT`. -/
  | waiting
deriving DecidableEq

/-- The words on the stack of the handlers to which pointers go out. -/
structure HandlerStack where
  /-- The words from `msg` of `syscall_other` on. -/
  sysMsg : Nat → Value := fun _ => null
  /-- The words from a request on. -/
  req : Word → Nat → Value := fun _ _ => null

/-- The kernel's memory and the machine registers it uses. -/
structure Kernel where
  pcb : Pcb → PcbT := fun _ => {}
  tcb : Tcb → TcbT := fun _ => {}
  msg : Msg → MsgT := fun _ => {}
  procLinks : Links ProcNode := ⟨fun _ => .null, fun _ => .null⟩
  threadLinks : Links ThreadNode := ⟨fun _ => .null, fun _ => .null⟩
  schedLinks : Links SchedNode := ⟨fun _ => .null, fun _ => .null⟩
  msgLinks : Links MsgNode := ⟨fun _ => .null, fun _ => .null⟩
  currentThread : Option Tcb := none
  threadCount : Word := 0
  softBlockCount : Word := 0
  isIdle : Bool := false
  pseudoclock : Word := 0
  timeSliceLeft : Word := 0
  clockPerTimeslice : Word := 5000
  softBlockedThread : Fin 5 → Option Tcb := fun _ => none
  /-- The command register of terminal 0's transmitter. -/
  transmCommand : Value := null
  /-- The interval timer. -/
  timer : Word := 0
  sysbkOldarea : State := {}
  pgmtrapOldarea : State := {}
  tlbOldarea : State := {}
  intOldarea : State := {}
  /-- The processor state of whatever runs outside the kernel. -/
  cpu : State := {}
  /-- The memory outside the kernel's own objects. -/
  mem : Word → Value := fun _ => null
  /-- The local variable `msg` of `ssi`. -/
  ssiMsg : Value := null
  handlerStack : HandlerStack := {}
  /-- What the frames of the handlers to come make of these words, the next one first. -/
  overlays : Nat → HandlerStack := fun _ => {}
  ssiPoint : SsiPoint := .receiving
  mode : Mode := .booting
  history : List Obs := []

/-- Why the code stops instead of coming back. -/
inductive Stop
  /-- `HALT()`. -/
  | halt (k : Kernel)
  /-- `PANIC()`. -/
  | panic (k : Kernel)
  /-- A pointer that is not the object the code takes it for, or an event that cannot occur. -/
  | undefined
  /-- A loop has not ended within the given number of rounds. -/
  | unfinished

/-- Kernel code either ends with a result or stops. -/
abbrev Exec := Except Stop

/-- How a handler leaves the kernel: by loading a processor state with `LDST`, or
by calling `scheduler`. -/
inductive Exit
  | resume (s : State)
  | schedule
deriving DecidableEq

namespace Kernel

/-- Assignment to fields of a thread descriptor. -/
def modTcb (k : Kernel) (t : Tcb) (f : TcbT → TcbT) : Kernel :=
  { k with tcb := Function.update k.tcb t (f (k.tcb t)) }

/-- Assignment to fields of a process descriptor. -/
def modPcb (k : Kernel) (p : Pcb) (f : PcbT → PcbT) : Kernel :=
  { k with pcb := Function.update k.pcb p (f (k.pcb p)) }

/-- Assignment to fields of a message descriptor. -/
def modMsg (k : Kernel) (m : Msg) (f : MsgT → MsgT) : Kernel :=
  { k with msg := Function.update k.msg m (f (k.msg m)) }

/-- An exception enters its handler with `sp` at `RAM_TOP`, so the frames go over those of the
handler before. -/
def enter (k : Kernel) : Kernel :=
  { k with handlerStack := k.overlays 0, overlays := fun n => k.overlays (n + 1) }

/-- Write the local variable `msg` of `syscall_other`. -/
def writeSysMsg (k : Kernel) (msg : List Value) : Kernel :=
  { k with handlerStack := { k.handlerStack with
      sysMsg := fun i => msg.getD i (k.handlerStack.sysMsg i) } }

/-- Write the one word of a request `req` that a handler builds. -/
def writeReq (k : Kernel) (req : Word) : Kernel :=
  { k with handlerStack := { k.handlerStack with
      req := fun reqtag i =>
        if reqtag = req ∧ i = 0 then .int req else k.handlerStack.req reqtag i } }

/-- Append to the history variable. -/
def record (k : Kernel) (o : Obs) : Kernel :=
  { k with history := k.history ++ [o] }

/-- `*ptr = v` for a payload pointer: a word outside the kernel, or the SSI's `msg`. -/
def store (k : Kernel) (ptr v : Value) : Kernel :=
  match ptr with
  | .int a => { k with mem := Function.update k.mem a v }
  | .ssiMsg => { k with ssiMsg := v }
  | _ => k

end Kernel

/-- A word used as a TCB pointer. -/
def Value.toTcb : Value → Exec (Option Tcb)
  | .int 0 => .ok none
  | .tcb t => .ok (some t)
  | _ => .error .undefined

/-- A payload pointer may be NULL, a word outside the kernel or the SSI's `msg`. -/
def Value.isPayloadPtr : Value → Bool
  | .int _ => true
  | .ssiMsg => true
  | _ => false

/-- `container_of` on the result of `list_next`. -/
def containerOf {N E : Type} (container : N → Option E) : Option N → Exec (Option E)
  | none => .ok none
  | some n =>
      match container n with
      | some e => .ok (some e)
      | none => .error .undefined

end MikaBoo
