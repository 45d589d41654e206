import MikaBoo.Model.System
import MikaBoo.Library.Fuel
import Mathlib.Data.Fintype.Option

/-!
# The kernel without pointers

A `View` has the queues of the kernel as lists instead of links. `Refines` says
that the links of a kernel state realise the lists of a view and that all other
data agree. The rules below give the effect of the pointer operations on views.
-/

namespace MikaBoo

open Intrusive Fuel

/-- The globals that the queue operations leave alone. -/
structure Globals where
  currentThread : Option Tcb
  threadCount : Word
  softBlockCount : Word
  isIdle : Bool
  softBlockedThread : Fin 5 → Option Tcb
  clockPerTimeslice : Word
  mode : Mode
  ssiPoint : SsiPoint

def Kernel.globals (k : Kernel) : Globals where
  currentThread := k.currentThread
  threadCount := k.threadCount
  softBlockCount := k.softBlockCount
  isIdle := k.isIdle
  softBlockedThread := k.softBlockedThread
  clockPerTimeslice := k.clockPerTimeslice
  mode := k.mode
  ssiPoint := k.ssiPoint

/-- The kernel's data with its queues as lists. -/
structure View where
  procs : ProcList → List Pcb
  threads : ThreadList → List Tcb
  sched : SchedQueue → List Tcb
  msgs : MsgList → List Msg
  pcb : Pcb → PcbT
  tcb : Tcb → TcbT
  msg : Msg → MsgT
  globals : Globals
  history : List Obs

/-- The kernel state `k` realises the view `v`. -/
structure Refines (k : Kernel) (v : View) : Prop where
  procs : Represents procLayout k.procLinks v.procs
  threads : Represents threadLayout k.threadLinks v.threads
  sched : Represents schedLayout k.schedLinks v.sched
  msgs : Represents msgLayout k.msgLinks v.msgs
  pcb : v.pcb = k.pcb
  tcb : v.tcb = k.tcb
  msg : v.msg = k.msg
  globals : v.globals = k.globals
  history : v.history = k.history

/-- The view read off the links, by walking each list from its sentinel. -/
def Kernel.view (k : Kernel) : View where
  procs l := (k.procLinks.walk l.head MAXPROC l.head).filterMap ProcNode.container
  threads l := (k.threadLinks.walk l.head (MAXTHREAD + 1) l.head).filterMap ThreadNode.container
  sched l := (k.schedLinks.walk l.head (MAXTHREAD + 1) l.head).filterMap SchedNode.container
  msgs l := (k.msgLinks.walk l.head MAXMSG l.head).filterMap MsgNode.container
  pcb := k.pcb
  tcb := k.tcb
  msg := k.msg
  globals := k.globals
  history := k.history

namespace View

def modTcb (v : View) (t : Tcb) (f : TcbT → TcbT) : View :=
  { v with tcb := Function.update v.tcb t (f (v.tcb t)) }

def modPcb (v : View) (p : Pcb) (f : PcbT → PcbT) : View :=
  { v with pcb := Function.update v.pcb p (f (v.pcb p)) }

def record (v : View) (o : Obs) : View :=
  { v with history := v.history ++ [o] }

/-- Put a thread at the tail of a scheduling queue. -/
def enqueue (v : View) (t : Tcb) (h : SchedQueue) : View :=
  { v with sched := Function.update v.sched h (v.sched h ++ [t]) }

/-- Take a thread out of a scheduling queue. -/
def outqueue (v : View) (t : Tcb) (h : SchedQueue) : View :=
  { v with sched := Function.update v.sched h ((v.sched h).erase t) }

/-- Move a message from the queue of `d` to the free list. -/
def freeMsg (v : View) (d : Tcb) (m : Msg) : View :=
  let msgs := Function.update v.msgs (.of d) ((v.msgs (.of d)).erase m)
  { v with
    msgs := Function.update msgs .free (msgs .free ++ [m])
    msg := Function.update v.msg m { v.msg m with mSender := none } }

/-- The message that a receive from `src` takes from the queue of `d`. -/
def pick (v : View) (src : Option Tcb) (d : Tcb) : Option Msg :=
  match src with
  | none => (v.msgs (.of d)).head?
  | some s => (v.msgs (.of d)).find? fun m => (v.msg m).mSender = some s

theorem mem_of_pick {v : View} {src : Option Tcb} {d : Tcb} {m : Msg}
    (h : v.pick src d = some m) : m ∈ v.msgs (.of d) := by
  cases src with
  | none => exact List.mem_of_mem_head? h
  | some s => exact List.mem_of_find?_eq_some h

theorem sender_of_pick {v : View} {s d : Tcb} {m : Msg} (h : v.pick (some s) d = some m) :
    (v.msg m).mSender = some s := by
  simpa using List.find?_some h

/-- Move the message `m` at the head of the free list to the tail of the queue of `d`. -/
def post (v : View) (s d : Tcb) (pl : Value) (m : Msg) : View :=
  let msgs := Function.update v.msgs .free ((v.msgs .free).erase m)
  { v with
    msgs := Function.update msgs (.of d) (msgs (.of d) ++ [m])
    msg := Function.update v.msg m { mSender := some s, mValue := pl } }

/-- Move the free process `p` under `parent`. -/
def adopt (v : View) (p parent : Pcb) : View :=
  let procs := Function.update v.procs .free ((v.procs .free).erase p)
  { v with
    procs := Function.update procs (.children parent) (procs (.children parent) ++ [p])
    pcb := Function.update v.pcb p { v.pcb p with pParent := some parent } }

/-- Move the process `p` from the children of `parent` to the free list. -/
def orphan (v : View) (p parent : Pcb) : View :=
  let procs := Function.update v.procs (.children parent) ((v.procs (.children parent)).erase p)
  { v with
    procs := Function.update procs .free (procs .free ++ [p])
    pcb := Function.update v.pcb p {} }

/-- Move the free thread `t` to the process `p`. -/
def hire (v : View) (t : Tcb) (p : Pcb) : View :=
  let threads := Function.update v.threads .free ((v.threads .free).erase t)
  { v with
    threads := Function.update threads (.of p) (threads (.of p) ++ [t])
    tcb := Function.update v.tcb t { v.tcb t with tPcb := some p, tStatus := .ready }
    history := v.history ++ [.allocated t] }

/-- Move the thread `t` of the process `p` to the free list. -/
def retire (v : View) (t : Tcb) (p : Pcb) : View :=
  let threads := Function.update v.threads (.of p) ((v.threads (.of p)).erase t)
  { v with
    threads := Function.update threads .free (threads .free ++ [t])
    tcb := Function.update v.tcb t { tS := (v.tcb t).tS }
    history := v.history ++ [.freed t] }

/-- The thread `t` gets a payload or an abort in its registers. -/
def deliver (v : View) (t : Tcb) (src : Option Tcb) (pl : Value) : View :=
  { v with
    tcb := Function.update v.tcb t
      { v.tcb t with tS := { (v.tcb t).tS with a1 := tcbPtr src } }
    history := v.history ++ [.received t src pl] }

/-- The thread `t`, blocked in the queue `h`, is woken with a payload or an abort. -/
def wake (v : View) (t : Tcb) (h : SchedQueue) (src : Option Tcb) (pl : Value) : View :=
  (((v.deliver t src pl).modTcb t fun d =>
    { d with tStatus := .ready, tWait4sender := none }).outqueue t h).enqueue t .readyq

def addCount (v : View) (n : Word) : View :=
  { v with globals := { v.globals with threadCount := v.globals.threadCount + n } }

/-- The free thread `t` becomes a thread of `p` that will start in the state `s`. -/
def create (v : View) (t : Tcb) (p : Pcb) (s : State) : View :=
  (((v.hire t p).modTcb t fun d => { d with tS := s }).enqueue t .readyq).addCount 1

/-- The thread `t` of `p`, in the queue `h`, goes back to the free list. -/
def dismiss (v : View) (t : Tcb) (p : Pcb) (h : SchedQueue) : View :=
  ((v.outqueue t h).retire t p).addCount (-1)

end View

/-! ## Sentinels and elements are different nodes -/

theorem sched_link_ne_head (t : Tcb) (h : SchedQueue) :
    schedLayout.link t ≠ schedLayout.head h := by
  cases h <;> simp [schedLayout, SchedQueue.head]

theorem thread_link_ne_head (t : Tcb) (h : ThreadList) :
    threadLayout.link t ≠ threadLayout.head h := by
  cases h <;> simp [threadLayout, ThreadList.head]

theorem msg_link_ne_head (m : Msg) (h : MsgList) :
    msgLayout.link m ≠ msgLayout.head h := by
  cases h <;> simp [msgLayout, MsgList.head]

theorem proc_link_ne_head {p : Pcb} (hp : p ≠ root) (h : ProcList) :
    procLayout.link p ≠ procLayout.head h := by
  cases h <;> simp [procLayout, ProcList.head, hp]

/-! ## The view of a kernel state is unique -/

def tcbEquiv : Option (Fin MAXTHREAD) ≃ Tcb where
  toFun
    | none => .ssi
    | some i => .thread i
  invFun
    | .ssi => none
    | .thread i => some i
  left_inv := by rintro (_ | i) <;> rfl
  right_inv := by rintro (i | _) <;> rfl

instance : Fintype Tcb := Fintype.ofEquiv _ tcbEquiv

theorem card_tcb : Fintype.card Tcb = MAXTHREAD + 1 := by
  rw [Fintype.ofEquiv_card, Fintype.card_option, Fintype.card_fin]

/-- Walking the links of a represented family gives back its lists. -/
theorem filterMap_walk {H E N : Type} [DecidableEq H] [DecidableEq E] [DecidableEq N]
    [Fintype E] {lay : Layout H E N} {L : Links N} {q : H → List E} {f : N → Option E}
    (R : Represents lay L q) (hc : ∀ e, f (lay.link e) = some e) {n : Nat}
    (hn : Fintype.card E ≤ n) (h : H) :
    (L.walk (lay.head h) n (lay.head h)).filterMap f = q h := by
  rw [R.walk h ((R.nodup h).length_le_card.trans hn), List.filterMap_map]
  simp [hc]

theorem Refines.eq_view {k : Kernel} {v : View} (R : Refines k v) : v = k.view := by
  have h₁ := filterMap_walk R.procs (f := ProcNode.container) (fun _ => rfl)
    (n := MAXPROC) (by simp)
  have h₂ := filterMap_walk R.threads (f := ThreadNode.container) (fun _ => rfl)
    (n := MAXTHREAD + 1) card_tcb.le
  have h₃ := filterMap_walk R.sched (f := SchedNode.container) (fun _ => rfl)
    (n := MAXTHREAD + 1) card_tcb.le
  have h₄ := filterMap_walk R.msgs (f := MsgNode.container) (fun _ => rfl)
    (n := MAXMSG) (by simp)
  cases v
  simp only [Kernel.view, View.mk.injEq]
  exact ⟨funext fun l => (h₁ l).symm, funext fun l => (h₂ l).symm, funext fun l => (h₃ l).symm,
    funext fun l => (h₄ l).symm, R.pcb, R.tcb, R.msg, R.globals, R.history⟩

/-- The first thread of a process, when the lists of threads are in order. -/
theorem procFirstthread_eq {k : Kernel} {q : ThreadList → List Tcb}
    (R : Represents threadLayout k.threadLinks q) (p : Pcb) :
    procFirstthread k p = .ok (q (.of p)).head? := by
  have hn := R.listNext (.of p)
  simp only [threadLayout, ThreadList.head] at hn
  rw [procFirstthread, hn]
  cases q (.of p) <;> rfl

/-- A list without a first element is empty. -/
theorem empty_of_containerOf {N E : Type} [DecidableEq N] {container : N → Option E}
    {L : Links N} {n : N} (h : containerOf container (L.listNext n) = .ok .none) :
    L.listEmpty n = true := by
  by_contra hne
  rw [Links.listNext, if_neg hne] at h
  cases hc : container (L.next n) <;> simp [containerOf, hc] at h

theorem deliverDirectly_links (k : Kernel) (t : Tcb) (o : Option Tcb) (v : Value) :
    (deliverDirectly k t o v).msgLinks = k.msgLinks ∧
      (deliverDirectly k t o v).schedLinks = k.schedLinks := by
  have hstore : ∀ (k : Kernel) (ptr v), (k.store ptr v).msgLinks = k.msgLinks ∧
      (k.store ptr v).schedLinks = k.schedLinks := by
    intro k ptr v
    cases ptr <;> exact ⟨rfl, rfl⟩
  unfold deliverDirectly
  dsimp only
  split
  · exact ⟨rfl, rfl⟩
  · exact hstore _ _ _

/-! ## Scheduling queues -/

namespace Refines

variable {k : Kernel} {v : View} {t : Tcb} {h : SchedQueue}

theorem modTcb (R : Refines k v) (t : Tcb) (f : TcbT → TcbT) :
    Refines (k.modTcb t f) (v.modTcb t f) :=
  { R with tcb := by simp [View.modTcb, Kernel.modTcb, R.tcb] }

theorem modPcb (R : Refines k v) (p : Pcb) (f : PcbT → PcbT) :
    Refines (k.modPcb p f) (v.modPcb p f) :=
  { R with pcb := by simp [View.modPcb, Kernel.modPcb, R.pcb] }

theorem record (R : Refines k v) (o : Obs) : Refines (k.record o) (v.record o) :=
  { R with history := by simp [View.record, Kernel.record, R.history] }

theorem store (R : Refines k v) (ptr pl : Value) : Refines (k.store ptr pl) v := by
  cases ptr <;> exact { R with }

theorem enqueue (R : Refines k v) (ht : ∀ h, t ∉ v.sched h) (h : SchedQueue) :
    Refines (threadEnqueue k t h) (v.enqueue t h) :=
  { R with sched := R.sched.listAddTail ht (sched_link_ne_head t) h }

theorem outqueue (R : Refines k v) (ht : t ∈ v.sched h) :
    Refines (threadOutqueue k t) (v.outqueue t h) :=
  { R with sched := R.sched.listDel ht }

theorem qhead (R : Refines k v) (h : SchedQueue) :
    threadQhead k h = .ok (v.sched h).head? := by
  have hn := R.sched.listNext h
  simp only [schedLayout] at hn
  rw [threadQhead, hn]
  cases v.sched h <;> rfl

theorem dequeue_nil (R : Refines k v) (hq : v.sched h = []) :
    threadDequeue k h = .ok (none, k) := by
  have hn := R.sched.listNext h
  simp only [schedLayout, hq] at hn
  simp [threadDequeue, hn, containerOf]

/-- `thread_dequeue` is `thread_outqueue` of the first thread. -/
theorem dequeue_eq {rest : List Tcb} (R : Refines k v) (hq : v.sched h = t :: rest) :
    threadDequeue k h = .ok (some t, threadOutqueue k t) := by
  have hn := R.sched.listNext h
  simp only [schedLayout, hq] at hn
  simp [threadDequeue, hn, containerOf, SchedNode.container, threadOutqueue]

theorem dequeue_cons {rest : List Tcb} (R : Refines k v) (hq : v.sched h = t :: rest) :
    ∃ k', threadDequeue k h = .ok (some t, k') ∧ Refines k' (v.outqueue t h) :=
  ⟨threadOutqueue k t, R.dequeue_eq hq, R.outqueue (by simp [hq])⟩

/-! ## Messages -/

theorem msgQhead (R : Refines k v) (h : MsgList) :
    MikaBoo.msgQhead k h = .ok (v.msgs h).head? := by
  have hn := R.msgs.listNext h
  simp only [msgLayout] at hn
  rw [MikaBoo.msgQhead, hn]
  cases v.msgs h <;> rfl

theorem msgFree {m : Msg} {d : Tcb} (R : Refines k v) (hm : m ∈ v.msgs (.of d)) :
    Refines (MikaBoo.msgFree k m) (v.freeMsg d m) :=
  { R with
    msgs := R.msgs.move hm (msg_link_ne_head m) .free
    msg := by simp [View.freeMsg, MikaBoo.msgFree, Kernel.modMsg, R.msg] }

theorem msgqAdd_nil {s d : Tcb} {pl : Value} (R : Refines k v) (hq : v.msgs .free = []) :
    msgqAdd k (some s) (some d) pl = .ok (-1, k) := by
  have hn := R.msgs.listNext .free
  simp only [msgLayout, hq, MsgList.head] at hn
  simp [msgqAdd, msgqInsert, hn, containerOf]

theorem msgqAdd_cons {s d : Tcb} {p : Value} {m : Msg} {rest : List Msg} (R : Refines k v)
    (hq : v.msgs .free = m :: rest) :
    ∃ k', msgqAdd k (some s) (some d) p = .ok (0, k') ∧ Refines k' (v.post s d p m) := by
  have hn := R.msgs.listNext .free
  simp only [msgLayout, hq, MsgList.head] at hn
  have hm : m ∈ v.msgs .free := by simp [hq]
  refine ⟨_, by simp [msgqAdd, msgqInsert, hn, containerOf, MsgNode.container]; rfl, ?_⟩
  exact { R with
    msgs := R.msgs.move hm (msg_link_ne_head m) (.of d)
    msg := by simp [View.post, Kernel.modMsg, R.msg] }

/-- The search of `msgq_get` finds the first message from `s`. -/
theorem msgqFind_seg {s d : Tcb} (hmsg : v.msg = k.msg) {fuel : Nat} {pos : MsgNode}
    {ms : List Msg} (hs : k.msgLinks.Seg pos (ms.map .mNext) (.tMsgq d)) (hf : ms.length < fuel) :
    msgqFind k s d fuel pos = .ok (ms.find? fun m => (v.msg m).mSender = some s) := by
  induction fuel generalizing pos ms with
  | zero => omega
  | succ fuel ih =>
      cases ms with
      | nil =>
          have hn : k.msgLinks.next pos = .tMsgq d := hs.1
          simp [msgqFind, hn]
      | cons m ms =>
          obtain ⟨⟨hn, _⟩, hs⟩ := hs
          simp only [List.length_cons] at hf
          have hrec := ih hs (by omega)
          by_cases hm : (k.msg m).mSender = some s
          · simp [msgqFind, hn, MsgNode.container, hmsg, hm]
          · simp [msgqFind, hn, MsgNode.container, hmsg, hm, hrec]

theorem msgqFind {s d : Tcb} (R : Refines k v) :
    MikaBoo.msgqFind k s d (MAXMSG + 1) (.tMsgq d) =
      .ok ((v.msgs (.of d)).find? fun m => (v.msg m).mSender = some s) := by
  apply msgqFind_seg R.msg (R.msgs.circ (.of d)).seg
  have hl := (R.msgs.nodup (.of d)).length_le_card
  simp only [Fintype.card_fin] at hl
  omega

theorem storeVal (R : Refines k v) (ptr : Value) (m : Msg) :
    Refines (MikaBoo.storeVal k ptr m) v := by
  unfold MikaBoo.storeVal
  split
  · exact R
  · exact R.store _ _

/-- `msgq_get` finds nothing exactly when no message is eligible, and changes nothing then. -/
theorem msgqGet_none {src : Option Tcb} {d : Tcb} {ptr : Value} (R : Refines k v)
    (hp : v.pick src d = none) :
    msgqGet k (some src) (some d) ptr = .ok (none, k) := by
  cases src with
  | none =>
      simp only [View.pick] at hp
      simp [msgqGet, R.msgQhead, hp]
  | some s =>
      simp only [View.pick] at hp
      simp [msgqGet, R.msgqFind, hp]

/-- `msgq_get` removes the first eligible message. -/
theorem msgqGet_some {src : Option Tcb} {d : Tcb} {p : Value} {m : Msg} (R : Refines k v)
    (hp : v.pick src d = some m) :
    ∃ k', msgqGet k (some src) (some d) p =
        .ok (some ((v.msg m).mSender, (v.msg m).mValue), k') ∧ Refines k' (v.freeMsg d m) := by
  have hm := View.mem_of_pick hp
  refine ⟨MikaBoo.msgFree (MikaBoo.storeVal k p m) m, ?_, (R.storeVal p m).msgFree hm⟩
  cases src with
  | none =>
      simp only [View.pick] at hp
      simp [msgqGet, R.msgQhead, hp, R.msg]
  | some s =>
      have hs := View.sender_of_pick hp
      simp only [View.pick, R.msg] at hp hs
      simp [msgqGet, R.msgqFind, hp, hs, R.msg]

/-! ## Processes and threads -/

theorem procAlloc_none {parent : Option Pcb} (R : Refines k v)
    (h : parent = none ∨ v.procs .free = []) : procAlloc k parent = .ok (none, k) := by
  have hn := R.procs.listNext .free
  simp only [procLayout, ProcList.head] at hn
  cases hq : v.procs .free with
  | nil => simp [procAlloc, hn, hq, containerOf]
  | cons p rest =>
      obtain rfl : parent = none := h.resolve_right (by simp [hq])
      simp [procAlloc, hn, hq, containerOf, ProcNode.container]

theorem procAlloc_some (parent : Pcb) {p : Pcb} {rest : List Pcb} (R : Refines k v)
    (hq : v.procs .free = p :: rest) (hp : p ≠ root) :
    ∃ k', procAlloc k (some parent) = .ok (some p, k') ∧ Refines k' (v.adopt p parent) := by
  have hn := R.procs.listNext .free
  simp only [procLayout, hq, ProcList.head] at hn
  have hm : p ∈ v.procs .free := by simp [hq]
  refine ⟨_, by simp [procAlloc, hn, containerOf, ProcNode.container]; rfl, ?_⟩
  exact { R with
    procs := R.procs.move hm (proc_link_ne_head hp) (.children parent)
    pcb := by simp [View.adopt, Kernel.modPcb, R.pcb] }

theorem procFirstchild (R : Refines k v) (p : Pcb) :
    MikaBoo.procFirstchild k p = .ok (v.procs (.children p)).head? := by
  have hn := R.procs.listNext (.children p)
  simp only [procLayout, ProcList.head] at hn
  rw [MikaBoo.procFirstchild, hn]
  cases v.procs (.children p) <;> rfl

theorem procFirstthread (R : Refines k v) (p : Pcb) :
    MikaBoo.procFirstthread k p = .ok (v.threads (.of p)).head? :=
  procFirstthread_eq R.threads p

/-- `proc_delete` refuses the root, free processes and processes in use. -/
theorem procDelete_fail {p : Pcb} (R : Refines k v)
    (h : (v.pcb p).pParent = none ∨ v.procs (.children p) ≠ [] ∨ v.threads (.of p) ≠ []) :
    procDelete k p = (-1, k) := by
  have hc := R.procs.listEmpty (.children p)
  have ht := R.threads.listEmpty (.of p)
  simp only [procLayout, threadLayout, ProcList.head, ThreadList.head] at hc ht
  rw [R.pcb] at h
  simp [procDelete, hc, ht, h]

theorem procDelete_ok {p parent : Pcb} (R : Refines k v) (hp : p ≠ root)
    (hpar : (v.pcb p).pParent = some parent) (hm : p ∈ v.procs (.children parent))
    (hc : v.procs (.children p) = []) (ht : v.threads (.of p) = []) :
    ∃ k', procDelete k p = (0, k') ∧ Refines k' (v.orphan p parent) := by
  have hc' := R.procs.listEmpty (.children p)
  have ht' := R.threads.listEmpty (.of p)
  simp only [procLayout, threadLayout, ProcList.head, ThreadList.head, hc, ht] at hc' ht'
  rw [R.pcb] at hpar
  refine ⟨_, by simp [procDelete, hc', ht', hpar]; rfl, ?_⟩
  exact { R with
    procs := R.procs.move hm (proc_link_ne_head hp) .free
    pcb := by simp [View.orphan, cleanMgr, Kernel.modPcb, R.pcb] }

theorem threadAlloc_none {process : Option Pcb} (R : Refines k v)
    (h : process = none ∨ v.threads .free = []) : threadAlloc k process = .ok (none, k) := by
  have hn := R.threads.listNext .free
  simp only [threadLayout, ThreadList.head] at hn
  cases hq : v.threads .free with
  | nil => simp [threadAlloc, hn, hq, containerOf]
  | cons p rest =>
      obtain rfl : process = none := h.resolve_right (by simp [hq])
      simp [threadAlloc, hn, hq, containerOf, ThreadNode.container]

theorem threadAlloc_some {p : Pcb} {rest : List Tcb} (R : Refines k v)
    (hq : v.threads .free = t :: rest) :
    ∃ k', threadAlloc k (some p) = .ok (some t, k') ∧ Refines k' (v.hire t p) := by
  have hn := R.threads.listNext .free
  simp only [threadLayout, hq, ThreadList.head] at hn
  have hm : t ∈ v.threads .free := by simp [hq]
  refine ⟨_, by simp [threadAlloc, hn, containerOf, ThreadNode.container]; rfl, ?_⟩
  exact { R with
    threads := R.threads.move hm (thread_link_ne_head t) (.of p)
    tcb := by simp [View.hire, Kernel.modTcb, Kernel.record, R.tcb]
    history := by simp [View.hire, Kernel.record, Kernel.modTcb, R.history] }

/-- `thread_free` of a queued thread with no messages and no waiters. -/
theorem threadFree_ok {p : Pcb} (R : Refines k v) (ht : t ∈ v.threads (.of p))
    (hs : t ∈ v.sched h) (hm : v.msgs (.of t) = []) (hw : v.sched (.tWait4me t) = []) :
    ∃ k', threadFree k t = (0, k') ∧ Refines k' ((v.outqueue t h).retire t p) := by
  have hm' := R.msgs.listEmpty (.of t)
  have hw' := R.sched.listEmpty (.tWait4me t)
  simp only [msgLayout, schedLayout, MsgList.head, SchedQueue.head, hm, hw] at hm' hw'
  refine ⟨_, by simp [threadFree, hm', hw']; rfl, ?_⟩
  exact { R with
    sched := R.sched.listDel hs
    threads := R.threads.move ht (thread_link_ne_head t) .free
    tcb := by
      simp [View.retire, View.outqueue, cleanThreadData, Kernel.modTcb, Kernel.record, R.tcb]
    history := by
      simp [View.retire, View.outqueue, cleanThreadData, Kernel.modTcb, Kernel.record,
        R.history] }

end Refines

end MikaBoo
