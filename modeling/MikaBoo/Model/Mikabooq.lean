import MikaBoo.Model.Types

/-!
# Processes, threads and message queues

The functions of `mikabooq.c`. A pointer argument that the source compares
with `NULL` is an `Option`.
-/

namespace MikaBoo

open Intrusive

/-! ## Processes -/

/-- `clean_mgr`. -/
def cleanMgr (k : Kernel) (proc : Pcb) : Kernel :=
  k.modPcb proc fun d => { d with pgmMgr := none, tlbMgr := none, sysMgr := none }

/-- One round of the loop of `proc_init`. -/
def procInitOne (k : Kernel) (i : Pcb) : Kernel :=
  let k := { k with procLinks := k.procLinks.listAddTail (.pSiblings i) (.pSiblings root) }
  let k := k.modPcb i fun d => { d with pParent := none }
  let k := { k with threadLinks := k.threadLinks.initListHead (.pThreads i) }
  let k := { k with procLinks := k.procLinks.initListHead (.pChildren i) }
  cleanMgr k i

/-- `proc_init`. -/
def procInit (k : Kernel) : Kernel :=
  let k := k.modPcb root fun d => { d with pParent := none }
  let k := { k with threadLinks := k.threadLinks.initListHead (.pThreads root) }
  let k := { k with procLinks := k.procLinks.initListHead (.pChildren root) }
  let k := { k with procLinks := k.procLinks.initListHead (.pSiblings root) }
  let k := cleanMgr k root
  (List.finRange MAXPROC).tail.foldl procInitOne k

/-- `proc_alloc`. -/
def procAlloc (k : Kernel) (pParent : Option Pcb) : Exec (Option Pcb × Kernel) := do
  let newSpace := k.procLinks.listNext (.pSiblings root)
  match ← containerOf ProcNode.container newSpace, pParent with
  | some newProc, some parent =>
      let k := { k with procLinks := k.procLinks.listDel (.pSiblings newProc) }
      let k := k.modPcb newProc fun d => { d with pParent := some parent }
      let k := { k with
        procLinks := k.procLinks.listAddTail (.pSiblings newProc) (.pChildren parent) }
      .ok (some newProc, k)
  | _, _ => .ok (none, k)

/-- `proc_delete`. -/
def procDelete (k : Kernel) (oldproc : Pcb) : Int × Kernel :=
  if (k.pcb oldproc).pParent = none ∨ k.procLinks.listEmpty (.pChildren oldproc) = false ∨
      k.threadLinks.listEmpty (.pThreads oldproc) = false then
    (-1, k)
  else
    let k := k.modPcb oldproc fun d => { d with pParent := none }
    let k := { k with procLinks := k.procLinks.listDel (.pSiblings oldproc) }
    let k := { k with
      procLinks := k.procLinks.listAddTail (.pSiblings oldproc) (.pSiblings root) }
    (0, cleanMgr k oldproc)

/-- `proc_firstchild`. -/
def procFirstchild (k : Kernel) (proc : Pcb) : Exec (Option Pcb) :=
  containerOf ProcNode.container (k.procLinks.listNext (.pChildren proc))

/-- `proc_firstthread`. -/
def procFirstthread (k : Kernel) (proc : Pcb) : Exec (Option Tcb) :=
  containerOf ThreadNode.container (k.threadLinks.listNext (.pThreads proc))

/-! ## Threads -/

/-- `clean_thread_data`. -/
def cleanThreadData (k : Kernel) (thread : Tcb) : Kernel :=
  k.modTcb thread fun d =>
    { d with tPcb := none, tStatus := .none, tWait4sender := none, runTime := 0, errno := 0 }

/-- One round of the loop of `thread_init`. -/
def threadInitOne (k : Kernel) (i : Fin MAXTHREAD) : Kernel :=
  let k := cleanThreadData k (.thread i)
  let k := { k with threadLinks := k.threadLinks.listAddTail (.tNext (.thread i)) .threadH }
  let k := { k with msgLinks := k.msgLinks.initListHead (.tMsgq (.thread i)) }
  { k with schedLinks := k.schedLinks.initListHead (.tWait4me (.thread i)) }

/-- `thread_init`. -/
def threadInit (k : Kernel) : Kernel :=
  (List.finRange MAXTHREAD).foldl threadInitOne k

/-- `thread_alloc`. -/
def threadAlloc (k : Kernel) (process : Option Pcb) : Exec (Option Tcb × Kernel) := do
  let newHead := k.threadLinks.listNext .threadH
  match ← containerOf ThreadNode.container newHead, process with
  | some newThread, some p =>
      let k := { k with threadLinks := k.threadLinks.listDel (.tNext newThread) }
      let k := k.modTcb newThread fun d => { d with tPcb := some p }
      let k := { k with threadLinks := k.threadLinks.listAddTail (.tNext newThread) (.pThreads p) }
      let k := k.modTcb newThread fun d => { d with tStatus := .ready }
      .ok (some newThread, k.record (.allocated newThread))
  | _, _ => .ok (none, k)

/-- `thread_free`. -/
def threadFree (k : Kernel) (oldthread : Tcb) : Int × Kernel :=
  if k.msgLinks.listEmpty (.tMsgq oldthread) = false then
    (-1, k)
  else if k.schedLinks.listEmpty (.tWait4me oldthread) = false then
    (-2, k)
  else
    let k := cleanThreadData k oldthread
    let k := { k with threadLinks := k.threadLinks.listDel (.tNext oldthread) }
    let k := { k with schedLinks := k.schedLinks.listDel (.tSched oldthread) }
    let k := { k with threadLinks := k.threadLinks.listAddTail (.tNext oldthread) .threadH }
    (0, k.record (.freed oldthread))

/-- `thread_enqueue`. -/
def threadEnqueue (k : Kernel) (new : Tcb) (queue : SchedQueue) : Kernel :=
  { k with schedLinks := k.schedLinks.listAddTail (.tSched new) queue.head }

/-- `thread_outqueue`. -/
def threadOutqueue (k : Kernel) (this : Tcb) : Kernel :=
  { k with schedLinks := k.schedLinks.listDel (.tSched this) }

/-- `thread_qhead`. -/
def threadQhead (k : Kernel) (queue : SchedQueue) : Exec (Option Tcb) :=
  containerOf SchedNode.container (k.schedLinks.listNext queue.head)

/-- `thread_dequeue`. -/
def threadDequeue (k : Kernel) (queue : SchedQueue) : Exec (Option Tcb × Kernel) := do
  match ← containerOf SchedNode.container (k.schedLinks.listNext queue.head) with
  | none => .ok (none, k)
  | some t => .ok (some t, { k with schedLinks := k.schedLinks.listDel (.tSched t) })

/-! ## Messages -/

/-- One round of the loop of `msgq_init`. -/
def msgqInitOne (k : Kernel) (i : Msg) : Kernel :=
  let k := { k with msgLinks := k.msgLinks.listAdd (.mNext i) .messageH }
  k.modMsg i fun d => { d with mSender := none }

/-- `msgq_init`. -/
def msgqInit (k : Kernel) : Kernel :=
  (List.finRange MAXMSG).foldl msgqInitOne k

/-- What `msgq_add` and `msgq_add_head` share; `insert` is `list_add_tail` or `list_add`. -/
def msgqInsert (insert : Links MsgNode → MsgNode → MsgNode → Links MsgNode) (k : Kernel)
    (sender destination : Option Tcb) (value : Value) : Exec (Int × Kernel) := do
  let newSpace := k.msgLinks.listNext .messageH
  match ← containerOf MsgNode.container newSpace, sender, destination with
  | some newMsg, some s, some d =>
      let k := { k with msgLinks := k.msgLinks.listDel (.mNext newMsg) }
      let k := k.modMsg newMsg fun _ => { mSender := some s, mValue := value }
      let k := { k with msgLinks := insert k.msgLinks (.mNext newMsg) (.tMsgq d) }
      .ok (0, k)
  | _, _, _ => .ok (-1, k)

/-- `msgq_add`. -/
def msgqAdd : Kernel → Option Tcb → Option Tcb → Value → Exec (Int × Kernel) :=
  msgqInsert Links.listAddTail

/-- `msgq_add_head`. -/
def msgqAddHead : Kernel → Option Tcb → Option Tcb → Value → Exec (Int × Kernel) :=
  msgqInsert Links.listAdd

/-- `store_val`: `value` is the pointer argument. -/
def storeVal (k : Kernel) (value : Value) (msg : Msg) : Kernel :=
  if value = null then k else k.store value (k.msg msg).mValue

/-- `msg_free`. -/
def msgFree (k : Kernel) (oldmsg : Msg) : Kernel :=
  let k := { k with msgLinks := k.msgLinks.listDel (.mNext oldmsg) }
  let k := k.modMsg oldmsg fun d => { d with mSender := none }
  { k with msgLinks := k.msgLinks.listAddTail (.mNext oldmsg) .messageH }

/-- `msg_qhead`. -/
def msgQhead (k : Kernel) (queue : MsgList) : Exec (Option Msg) :=
  containerOf MsgNode.container (k.msgLinks.listNext queue.head)

/-- The loop of `msgq_get` over `destination->t_msgq`: the first message from
`sender`, starting after the node `pos`. -/
def msgqFind (k : Kernel) (sender destination : Tcb) : Nat → MsgNode → Exec (Option Msg)
  | 0, _ => .error .unfinished
  | fuel + 1, pos =>
      let next := k.msgLinks.next pos
      if next = .tMsgq destination then .ok none
      else
        match next.container with
        | none => .error .undefined
        | some m =>
            if (k.msg m).mSender = some sender then .ok (some m)
            else msgqFind k sender destination fuel next

/-- `msgq_get`. The argument `sender` is `none` for a NULL pointer and `some s`
for a pointer to the TCB pointer `s`; `value` is the pointer to store the
payload at. The result `none` is -1, and then neither `*sender` nor `*value`
changes; `some (s, v)` is 0 with `*sender` now `s`, for a message with payload `v`. -/
def msgqGet (k : Kernel) (sender : Option (Option Tcb)) (destination : Option Tcb)
    (value : Value) : Exec (Option (Option Tcb × Value) × Kernel) := do
  match sender, destination with
  | _, none => .ok (none, k)
  | some (some s), some d =>
      match ← msgqFind k s d (MAXMSG + 1) (.tMsgq d) with
      | none => .ok (none, k)
      | some pos =>
          .ok (some (some s, (k.msg pos).mValue), msgFree (storeVal k value pos) pos)
  | _, some d =>
      match ← msgQhead k (.of d) with
      | none => .ok (none, k)
      | some msg =>
          .ok (some ((k.msg msg).mSender, (k.msg msg).mValue), msgFree (storeVal k value msg) msg)

end MikaBoo
