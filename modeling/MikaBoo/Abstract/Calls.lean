import MikaBoo.Abstract.Reachable

/-!
# Calls of the functions on descriptors

The functions of `mikabooq.c` as the operations of a data structure, what each of
them does to the lists, and what holds after any sequence of calls.

## Implementation notes

The calls start where `main` has initialised all queues, those of the SSI's
descriptor included. The lists of a state are read off its links (`Kernel.view`).
-/

namespace MikaBoo

open Intrusive Fuel Transition Forest

/-- A call, with its arguments. A pointer that the function compares with `NULL`
is an `Option`. -/
inductive Call
  | procAlloc (parent : Option Pcb)
  | procDelete (proc : Pcb)
  | threadAlloc (process : Option Pcb)
  | threadFree (thread : Tcb)
  | threadEnqueue (thread : Tcb) (queue : SchedQueue)
  | threadDequeue (queue : SchedQueue)
  | threadOutqueue (thread : Tcb)
  | msgqAdd (sender destination : Option Tcb) (value : Value)
  | msgqAddHead (sender destination : Option Tcb) (value : Value)
  | msgqGet (sender : Option (Option Tcb)) (destination : Option Tcb) (value : Value)
  | msgFree (msg : Msg)

/-- What a call returns, and stores through its pointers to descriptors. -/
inductive Answer
  | proc (p : Option Pcb)
  | thread (t : Option Tcb)
  | code (r : Int)
  | message (r : Option (Option Tcb × Value))
  | nothing
deriving DecidableEq

/-- The execution of a call. -/
def Call.exec (k : Kernel) : Call → Exec (Answer × Kernel)
  | .procAlloc parent => do let (p, k) ← MikaBoo.procAlloc k parent; .ok (.proc p, k)
  | .procDelete p => let (r, k) := MikaBoo.procDelete k p; .ok (.code r, k)
  | .threadAlloc process => do let (t, k) ← MikaBoo.threadAlloc k process; .ok (.thread t, k)
  | .threadFree t => let (r, k) := MikaBoo.threadFree k t; .ok (.code r, k)
  | .threadEnqueue t h => .ok (.nothing, MikaBoo.threadEnqueue k t h)
  | .threadDequeue h => do let (t, k) ← MikaBoo.threadDequeue k h; .ok (.thread t, k)
  | .threadOutqueue t => .ok (.nothing, MikaBoo.threadOutqueue k t)
  | .msgqAdd s d pl => do let (r, k) ← MikaBoo.msgqAdd k s d pl; .ok (.code r, k)
  | .msgqAddHead s d pl => do let (r, k) ← MikaBoo.msgqAddHead k s d pl; .ok (.code r, k)
  | .msgqGet s d ptr => do let (r, k) ← MikaBoo.msgqGet k s d ptr; .ok (.message r, k)
  | .msgFree m => .ok (.nothing, MikaBoo.msgFree k m)

/-- Move the message `m` at the head of the free list to the head of the queue of `d`. -/
def View.postHead (v : View) (s d : Tcb) (pl : Value) (m : Msg) : View :=
  let msgs := Function.update v.msgs .free ((v.msgs .free).erase m)
  { v with
    msgs := Function.update msgs (.of d) (m :: msgs (.of d))
    msg := Function.update v.msg m { mSender := some s, mValue := pl } }

/-- What a call does to the lists. -/
inductive Effect (v : View) : Call → Answer → View → Prop
  | procAlloc_null {parent} (h : parent = none ∨ v.procs .free = []) :
      Effect v (.procAlloc parent) (.proc none) v
  | procAlloc {parent p rest} (free : v.procs .free = p :: rest) :
      Effect v (.procAlloc (some parent)) (.proc (some p)) (v.adopt p parent)
  | procDelete_fail {p} (h : (v.pcb p).pParent = none ∨ v.procs (.children p) ≠ [] ∨
      v.threads (.of p) ≠ []) : Effect v (.procDelete p) (.code (-1)) v
  | procDelete {p parent} (child : (v.pcb p).pParent = some parent)
      (leaf : v.procs (.children p) = []) (vacant : v.threads (.of p) = []) :
      Effect v (.procDelete p) (.code 0) (v.orphan p parent)
  | threadAlloc_null {process} (h : process = none ∨ v.threads .free = []) :
      Effect v (.threadAlloc process) (.thread none) v
  | threadAlloc {p t rest} (free : v.threads .free = t :: rest) :
      Effect v (.threadAlloc (some p)) (.thread (some t)) (v.hire t p)
  | threadFree_mail {t} (mail : v.msgs (.of t) ≠ []) : Effect v (.threadFree t) (.code (-1)) v
  | threadFree_waited {t} (mail : v.msgs (.of t) = []) (waited : v.sched (.tWait4me t) ≠ []) :
      Effect v (.threadFree t) (.code (-2)) v
  | threadFree {t p h} (mail : v.msgs (.of t) = []) (waited : v.sched (.tWait4me t) = [])
      (owned : t ∈ v.threads (.of p)) (queued : t ∈ v.sched h) :
      Effect v (.threadFree t) (.code 0) ((v.outqueue t h).retire t p)
  /-- The unlinking of a thread that is in no queue has not changed anything. -/
  | threadFree_off {t p} (mail : v.msgs (.of t) = []) (waited : v.sched (.tWait4me t) = [])
      (owned : t ∈ v.threads (.of p)) (off : ∀ h, t ∉ v.sched h) :
      Effect v (.threadFree t) (.code 0) (v.retire t p)
  | threadEnqueue {t h} (off : ∀ h, t ∉ v.sched h) :
      Effect v (.threadEnqueue t h) .nothing (v.enqueue t h)
  | threadDequeue_null {h} (empty : v.sched h = []) : Effect v (.threadDequeue h) (.thread none) v
  | threadDequeue {h t rest} (head : v.sched h = t :: rest) :
      Effect v (.threadDequeue h) (.thread (some t)) (v.outqueue t h)
  | threadOutqueue {t h} (queued : t ∈ v.sched h) :
      Effect v (.threadOutqueue t) .nothing (v.outqueue t h)
  | msgqAdd_fail {s d pl} (h : s = none ∨ d = none ∨ v.msgs .free = []) :
      Effect v (.msgqAdd s d pl) (.code (-1)) v
  | msgqAdd {s d pl m rest} (free : v.msgs .free = m :: rest) :
      Effect v (.msgqAdd (some s) (some d) pl) (.code 0) (v.post s d pl m)
  | msgqAddHead_fail {s d pl} (h : s = none ∨ d = none ∨ v.msgs .free = []) :
      Effect v (.msgqAddHead s d pl) (.code (-1)) v
  | msgqAddHead {s d pl m rest} (free : v.msgs .free = m :: rest) :
      Effect v (.msgqAddHead (some s) (some d) pl) (.code 0) (v.postHead s d pl m)
  | msgqGet_null {s ptr} : Effect v (.msgqGet s none ptr) (.message none) v
  | msgqGet_fail {s d ptr} (none : v.pick s.join d = none) :
      Effect v (.msgqGet s (some d) ptr) (.message .none) v
  | msgqGet {s d ptr m} (first : v.pick s.join d = some m) :
      Effect v (.msgqGet s (some d) ptr)
        (.message (some ((v.msg m).mSender, (v.msg m).mValue))) (v.freeMsg d m)
  | msgFree {m d} (queued : m ∈ v.msgs (.of d)) : Effect v (.msgFree m) .nothing (v.freeMsg d m)

/-- The nodes that the thread's `t_sched` points to are adjacent, so that `list_del`
would write what is there already. -/
def Kernel.Inert (k : Kernel) (t : Tcb) : Prop :=
  k.schedLinks.prev (k.schedLinks.next (.tSched t)) = k.schedLinks.prev (.tSched t) ∧
    k.schedLinks.next (k.schedLinks.prev (.tSched t)) = k.schedLinks.next (.tSched t)

/-- What the functions expect of their caller. `thread_free` unlinks the thread
also when it is in no queue; that is sound only as long as nothing has changed
around the place where it was. -/
def Call.Sound (k : Kernel) : Call → Prop
  | .procAlloc parent => ∀ p ∈ parent, k.view.Alive p
  | .threadAlloc process => ∀ p ∈ process, k.view.Alive p
  | .threadFree t => (k.tcb t).tPcb ≠ none ∧ (k.view.msgs (.of t) = [] →
      k.view.sched (.tWait4me t) = [] → (∃ h, t ∈ k.view.sched h) ∨ k.Inert t)
  | .threadEnqueue t _ => ∀ h, t ∉ k.view.sched h
  | .threadOutqueue t => ∃ h, t ∈ k.view.sched h
  | .msgFree m => ∃ d, m ∈ k.view.msgs (.of d)
  | _ => True

/-- The lists are well formed, the processes and threads are where their fields say,
and no message is lost. -/
structure Kernel.Intact (k : Kernel) : Prop where
  refines : Refines k k.view
  tree : k.view.Tree
  owned : k.view.Owned
  kept : ∀ m, ∃ l, m ∈ k.view.msgs l

namespace Refines

variable {k : Kernel} {v : View} {s d t : Tcb} {pl ptr : Value} {m : Msg} {rest : List Msg} {p : Pcb}

theorem msgqAdd_fail {s d : Option Tcb} (R : Refines k v) (pl : Value)
    (h : s = none ∨ d = none ∨ v.msgs .free = []) : msgqAdd k s d pl = .ok (-1, k) ∧
      msgqAddHead k s d pl = .ok (-1, k) := by
  have hn := R.msgs.listNext .free
  simp only [msgLayout, MsgList.head] at hn
  cases hq : v.msgs .free with
  | nil => simp [MikaBoo.msgqAdd, msgqAddHead, msgqInsert, hn, hq, containerOf]
  | cons m rest =>
      simp only [hq, reduceCtorEq, or_false] at h
      rcases h with rfl | rfl
      · simp [MikaBoo.msgqAdd, msgqAddHead, msgqInsert, hn, hq, containerOf, MsgNode.container]
      · simp [MikaBoo.msgqAdd, msgqAddHead, msgqInsert, hn, hq, containerOf, MsgNode.container]

theorem msgqAddHead_cons (R : Refines k v) (s d : Tcb) (pl : Value)
    (hq : v.msgs .free = m :: rest) :
    ∃ k', msgqAddHead k (some s) (some d) pl = .ok (0, k') ∧ Refines k' (v.postHead s d pl m) := by
  have hn := R.msgs.listNext .free
  simp only [msgLayout, hq, MsgList.head] at hn
  have hm : m ∈ v.msgs .free := by simp [hq]
  refine ⟨_, by simp [msgqAddHead, msgqInsert, hn, containerOf, MsgNode.container]; rfl, ?_⟩
  exact { R with
    msgs := (R.msgs.listDel hm).listAdd (R.msgs.not_mem_erase hm) (msg_link_ne_head m) (.of d)
    msg := by simp [View.postHead, Kernel.modMsg, R.msg] }

theorem mem_postHead {n : Msg} {l : MsgList} (R : Refines k v) (hm : m ∈ v.msgs .free) :
    n ∈ (v.postHead s d pl m).msgs l ↔ (n ≠ m ∧ n ∈ v.msgs l) ∨ (n = m ∧ l = .of d) := by
  rw [← R.msgs.mem_erase_iff hm]
  by_cases hl : l = .of d
  · subst hl
    simp [View.postHead, or_comm]
  · simp [View.postHead, hl]

/-- `msgq_get` with `NULL` for the sender is `msgq_get` from anybody. -/
theorem msgqGet_join (k : Kernel) (s : Option (Option Tcb)) (d : Tcb) (ptr : Value) :
    MikaBoo.msgqGet k s (some d) ptr = MikaBoo.msgqGet k (some s.join) (some d) ptr := by
  rcases s with _ | _ | s <;> rfl

/-- `thread_free` refuses a thread with messages or waiters. -/
theorem threadFree_fail (R : Refines k v) :
    (v.msgs (.of t) ≠ [] → threadFree k t = (-1, k)) ∧
      (v.msgs (.of t) = [] → v.sched (.tWait4me t) ≠ [] → threadFree k t = (-2, k)) := by
  have hm := R.msgs.listEmpty (.of t)
  have hw := R.sched.listEmpty (.tWait4me t)
  simp only [msgLayout, schedLayout, MsgList.head, SchedQueue.head] at hm hw
  constructor
  · intro h
    simp [threadFree, hm, h]
  · intro h h'
    simp [threadFree, hm, hw, h, h']

/-- `thread_free` of a thread in no queue, when the unlinking changes nothing. -/
theorem threadFree_off (R : Refines k v) (ht : t ∈ v.threads (.of p)) (hi : k.Inert t)
    (hm : v.msgs (.of t) = []) (hw : v.sched (.tWait4me t) = []) :
    ∃ k', threadFree k t = (0, k') ∧ Refines k' (v.retire t p) := by
  have hm' := R.msgs.listEmpty (.of t)
  have hw' := R.sched.listEmpty (.tWait4me t)
  simp only [msgLayout, schedLayout, MsgList.head, SchedQueue.head, hm, hw] at hm' hw'
  refine ⟨_, by simp [threadFree, hm', hw']; rfl, ?_⟩
  have R₁ : Represents schedLayout (k.schedLinks.listDel (.tSched t)) v.sched := by
    rw [Links.listDel_eq_self.mpr hi]
    exact R.sched
  exact { R with
    sched := R₁
    threads := R.threads.move ht (thread_link_ne_head t) .free
    tcb := by simp [View.retire, cleanThreadData, Kernel.modTcb, Kernel.record, R.tcb]
    history := by simp [View.retire, cleanThreadData, Kernel.modTcb, Kernel.record, R.history] }

end Refines

section exec

variable {k : Kernel} (I : k.Intact)

include I

theorem Kernel.Intact.exec_procAlloc (parent : Option Pcb) :
    ∃ a k' v', (Call.procAlloc parent).exec k = .ok (a, k') ∧
      Effect k.view (.procAlloc parent) a v' ∧ Refines k' v' := by
  have R := I.refines
  cases hq : k.view.procs .free with
  | nil =>
      refine ⟨.proc none, k, k.view, ?_, .procAlloc_null (Or.inr hq), R⟩
      simp [Call.exec, R.procAlloc_none (Or.inr hq)]
  | cons p rest =>
      cases parent with
      | none =>
          refine ⟨.proc none, k, k.view, ?_, .procAlloc_null (Or.inl rfl), R⟩
          simp [Call.exec, R.procAlloc_none (Or.inl rfl)]
      | some r =>
          have hroot : p ≠ root := (I.tree.free.mp (by simp [hq])).1
          obtain ⟨k₁, hk₁, R₁⟩ := R.procAlloc_some r hq hroot
          exact ⟨.proc (some p), k₁, _, by simp [Call.exec, hk₁], .procAlloc hq, R₁⟩

theorem Kernel.Intact.exec_procDelete (p : Pcb) :
    ∃ a k' v', (Call.procDelete p).exec k = .ok (a, k') ∧
      Effect k.view (.procDelete p) a v' ∧ Refines k' v' := by
  have R := I.refines
  by_cases h : (k.view.pcb p).pParent = none ∨ k.view.procs (.children p) ≠ [] ∨
      k.view.threads (.of p) ≠ []
  · refine ⟨.code (-1), k, k.view, ?_, .procDelete_fail h, R⟩
    simp [Call.exec, R.procDelete_fail h]
  · simp only [not_or, not_not] at h
    obtain ⟨hpar, hleaf, hvacant⟩ := h
    obtain ⟨r, hr⟩ := Option.ne_none_iff_exists'.mp hpar
    have hroot : p ≠ root := by
      rintro rfl
      exact hpar I.tree.root_parent
    obtain ⟨k₁, hk₁, R₁⟩ := R.procDelete_ok hroot hr (I.tree.children.mpr hr) hleaf hvacant
    exact ⟨.code 0, k₁, _, by simp [Call.exec, hk₁], .procDelete hr hleaf hvacant, R₁⟩

theorem Kernel.Intact.exec_threadAlloc (process : Option Pcb) :
    ∃ a k' v', (Call.threadAlloc process).exec k = .ok (a, k') ∧
      Effect k.view (.threadAlloc process) a v' ∧ Refines k' v' := by
  have R := I.refines
  cases hq : k.view.threads .free with
  | nil =>
      refine ⟨.thread none, k, k.view, ?_, .threadAlloc_null (Or.inr hq), R⟩
      simp [Call.exec, R.threadAlloc_none (Or.inr hq)]
  | cons t rest =>
      cases process with
      | none =>
          refine ⟨.thread none, k, k.view, ?_, .threadAlloc_null (Or.inl rfl), R⟩
          simp [Call.exec, R.threadAlloc_none (Or.inl rfl)]
      | some p =>
          obtain ⟨k₁, hk₁, R₁⟩ := R.threadAlloc_some (p := p) hq
          exact ⟨.thread (some t), k₁, _, by simp [Call.exec, hk₁], .threadAlloc hq, R₁⟩

theorem Kernel.Intact.exec_threadFree {t : Tcb} (hs : (Call.threadFree t).Sound k) :
    ∃ a k' v', (Call.threadFree t).exec k = .ok (a, k') ∧
      Effect k.view (.threadFree t) a v' ∧ Refines k' v' := by
  have R := I.refines
  obtain ⟨hown, hplace⟩ := hs
  obtain ⟨p, hp⟩ := Option.ne_none_iff_exists'.mp hown
  have ht : t ∈ k.view.threads (.of p) := I.owned.owned.mpr hp
  by_cases hm : k.view.msgs (.of t) = []
  · by_cases hw : k.view.sched (.tWait4me t) = []
    · by_cases hin : ∃ h, t ∈ k.view.sched h
      · obtain ⟨h, hin⟩ := hin
        obtain ⟨k₁, hk₁, R₁⟩ := R.threadFree_ok ht hin hm hw
        exact ⟨.code 0, k₁, _, by simp [Call.exec, hk₁], .threadFree hm hw ht hin, R₁⟩
      · obtain ⟨k₁, hk₁, R₁⟩ := R.threadFree_off ht ((hplace hm hw).resolve_left hin) hm hw
        exact ⟨.code 0, k₁, _, by simp [Call.exec, hk₁],
          .threadFree_off hm hw ht (not_exists.mp hin), R₁⟩
    · refine ⟨.code (-2), k, k.view, ?_, .threadFree_waited hm hw, R⟩
      simp [Call.exec, R.threadFree_fail.2 hm hw]
  · refine ⟨.code (-1), k, k.view, ?_, .threadFree_mail hm, R⟩
    simp [Call.exec, R.threadFree_fail.1 hm]

theorem Kernel.Intact.exec_threadDequeue (h : SchedQueue) :
    ∃ a k' v', (Call.threadDequeue h).exec k = .ok (a, k') ∧
      Effect k.view (.threadDequeue h) a v' ∧ Refines k' v' := by
  have R := I.refines
  cases hq : k.view.sched h with
  | nil =>
      refine ⟨.thread none, k, k.view, ?_, .threadDequeue_null hq, R⟩
      simp [Call.exec, R.dequeue_nil hq]
  | cons t rest =>
      obtain ⟨k₁, hk₁, R₁⟩ := R.dequeue_cons hq
      exact ⟨.thread (some t), k₁, _, by simp [Call.exec, hk₁], .threadDequeue hq, R₁⟩

theorem Kernel.Intact.exec_msgqAdd (s d : Option Tcb) (pl : Value) :
    (∃ a k' v', (Call.msgqAdd s d pl).exec k = .ok (a, k') ∧
      Effect k.view (.msgqAdd s d pl) a v' ∧ Refines k' v') ∧
    ∃ a k' v', (Call.msgqAddHead s d pl).exec k = .ok (a, k') ∧
      Effect k.view (.msgqAddHead s d pl) a v' ∧ Refines k' v' := by
  have R := I.refines
  by_cases h : s = none ∨ d = none ∨ k.view.msgs .free = []
  · obtain ⟨hadd, hhead⟩ := R.msgqAdd_fail pl h
    exact ⟨⟨.code (-1), k, k.view, by simp [Call.exec, hadd], .msgqAdd_fail h, R⟩,
      .code (-1), k, k.view, by simp [Call.exec, hhead], .msgqAddHead_fail h, R⟩
  · simp only [not_or] at h
    obtain ⟨hs, hd, hq⟩ := h
    obtain ⟨s, rfl⟩ := Option.ne_none_iff_exists'.mp hs
    obtain ⟨d, rfl⟩ := Option.ne_none_iff_exists'.mp hd
    obtain ⟨m, rest, hq⟩ := List.exists_cons_of_ne_nil hq
    obtain ⟨k₁, hk₁, R₁⟩ := R.msgqAdd_cons (s := s) (d := d) (p := pl) hq
    obtain ⟨k₂, hk₂, R₂⟩ := R.msgqAddHead_cons s d pl hq
    exact ⟨⟨.code 0, k₁, _, by simp [Call.exec, hk₁], .msgqAdd hq, R₁⟩,
      .code 0, k₂, _, by simp [Call.exec, hk₂], .msgqAddHead hq, R₂⟩

theorem Kernel.Intact.exec_msgqGet (s : Option (Option Tcb)) (d : Option Tcb) (ptr : Value) :
    ∃ a k' v', (Call.msgqGet s d ptr).exec k = .ok (a, k') ∧
      Effect k.view (.msgqGet s d ptr) a v' ∧ Refines k' v' := by
  have R := I.refines
  cases d with
  | none =>
      refine ⟨.message none, k, k.view, ?_, .msgqGet_null, R⟩
      rcases s with _ | _ | s <;> rfl
  | some d =>
      cases hp : k.view.pick s.join d with
      | none =>
          refine ⟨.message none, k, k.view, ?_, .msgqGet_fail hp, R⟩
          simp [Call.exec, Refines.msgqGet_join, R.msgqGet_none hp]
      | some m =>
          obtain ⟨k₁, hk₁, R₁⟩ := R.msgqGet_some (p := ptr) hp
          exact ⟨_, k₁, _, by simp [Call.exec, Refines.msgqGet_join, hk₁], .msgqGet hp, R₁⟩

/-- Every sound call comes back and does to the lists what `Effect` says. -/
theorem Kernel.Intact.exec {c : Call} (hs : c.Sound k) :
    ∃ a k' v', c.exec k = .ok (a, k') ∧ Effect k.view c a v' ∧ Refines k' v' := by
  have R := I.refines
  cases c with
  | procAlloc parent => exact I.exec_procAlloc parent
  | procDelete p => exact I.exec_procDelete p
  | threadAlloc process => exact I.exec_threadAlloc process
  | threadFree t => exact I.exec_threadFree hs
  | threadEnqueue t h => exact ⟨_, _, _, rfl, .threadEnqueue hs, R.enqueue hs h⟩
  | threadDequeue h => exact I.exec_threadDequeue h
  | threadOutqueue t =>
      obtain ⟨h, ht⟩ := hs
      exact ⟨_, _, _, rfl, .threadOutqueue ht, R.outqueue ht⟩
  | msgqAdd s d pl => exact (I.exec_msgqAdd s d pl).1
  | msgqAddHead s d pl => exact (I.exec_msgqAdd s d pl).2
  | msgqGet s d ptr => exact I.exec_msgqGet s d ptr
  | msgFree m =>
      obtain ⟨d, hm⟩ := hs
      exact ⟨_, _, _, rfl, .msgFree hm, R.msgFree hm⟩

end exec

/-! ## Sequences of calls -/

section preserve

variable {k k' : Kernel} {v v' : View} {c : Call} {a : Answer} {t : Tcb} {p : Pcb}

theorem View.Tree.hire (T : v.Tree) (hp : v.Alive p) : (v.hire t p).Tree := by
  refine T.change_owner (t := t) rfl rfl (fun u hu => by simp [View.hire, hu]) fun q hq => ?_
  obtain rfl : p = q := by simpa [View.hire] using hq
  exact hp

theorem View.Tree.retire (T : v.Tree) : (v.retire t p).Tree :=
  T.change_owner (t := t) rfl rfl (fun u hu => by simp [View.retire, hu]) (by simp [View.retire])

theorem View.Owned.hire (O : v.Owned) (R : Refines k v) (ht : t ∈ v.threads .free) :
    (v.hire t p).Owned := by
  obtain ⟨hssi, _⟩ := O.free.mp ht
  refine O.change_one (t := t) hssi (fun u hu l => by simp [R.mem_hire ht, hu])
    (fun u hu => by simp [View.hire, hu]) (fun u hu => by simp [View.hire, hu]) ?_ ?_ ?_
  · rw [R.mem_hire ht]
    simp [View.hire]
  · intro q
    rw [R.mem_hire ht]
    simp [View.hire, eq_comm]
  · simp [View.hire]

theorem View.Owned.retire (O : v.Owned) (R : Refines k v) (ht : t ∈ v.threads (.of p)) :
    (v.retire t p).Owned := by
  have hssi : t ≠ .ssi := by
    rintro rfl
    have := O.owned.mp ht
    rw [O.ssi] at this
    cases this
  refine O.change_one (t := t) hssi (fun u hu l => by simp [R.mem_retire ht, hu])
    (fun u hu => by simp [View.retire, hu]) (fun u hu => by simp [View.retire, hu]) ?_ ?_ ?_
  · rw [R.mem_retire ht]
    simp [View.retire]
  · intro q
    rw [R.mem_retire ht]
    simp [View.retire]
  · simp [View.retire]

/-- No call loses a message. -/
theorem Effect.kept (R : Refines k v) (E : Effect v c a v') (h : ∀ m, ∃ l, m ∈ v.msgs l) (m : Msg) :
    ∃ l, m ∈ v'.msgs l := by
  obtain ⟨l, hl⟩ := h m
  cases E with
  | @msgqAdd _ d _ n _ free =>
      by_cases hm : m = n
      · exact ⟨.of d, (R.mem_post (by simp [free])).mpr (Or.inr ⟨hm, rfl⟩)⟩
      · exact ⟨l, (R.mem_post (by simp [free])).mpr (Or.inl ⟨hm, hl⟩)⟩
  | @msgqAddHead _ d _ n _ free =>
      by_cases hm : m = n
      · exact ⟨.of d, (R.mem_postHead (by simp [free])).mpr (Or.inr ⟨hm, rfl⟩)⟩
      · exact ⟨l, (R.mem_postHead (by simp [free])).mpr (Or.inl ⟨hm, hl⟩)⟩
  | @msgqGet _ d _ n first =>
      by_cases hm : m = n
      · exact ⟨.free, (R.mem_freeMsg (View.mem_of_pick first)).mpr (Or.inr ⟨hm, rfl⟩)⟩
      · exact ⟨l, (R.mem_freeMsg (View.mem_of_pick first)).mpr (Or.inl ⟨hm, hl⟩)⟩
  | @msgFree n d queued =>
      by_cases hm : m = n
      · exact ⟨.free, (R.mem_freeMsg queued).mpr (Or.inr ⟨hm, rfl⟩)⟩
      · exact ⟨l, (R.mem_freeMsg queued).mpr (Or.inl ⟨hm, hl⟩)⟩
  | _ => exact ⟨l, hl⟩

/-- What a call does keeps the lists intact. -/
theorem Kernel.Intact.effect (I : k.Intact) (hs : c.Sound k) (E : Effect k.view c a v')
    (R' : Refines k' v') : k'.Intact := by
  obtain rfl := R'.eq_view
  suffices h : k'.view.Tree ∧ k'.view.Owned from ⟨R', h.1, h.2, E.kept I.refines I.kept⟩
  generalize k'.view = v' at E
  have R := I.refines
  have hkeep : ∀ {w : View}, w.procs = k.view.procs → w.pcb = k.view.pcb →
      w.threads = k.view.threads → w.tcb = k.view.tcb → w.Tree ∧ w.Owned :=
    fun hprocs hpcb hthreads htcb =>
      ⟨I.tree.congr hprocs hpcb fun t => by rw [htcb],
        I.owned.congr hthreads (fun t => by rw [htcb]) fun t => by rw [htcb]⟩
  cases E with
  | @procAlloc parent p rest free =>
      exact ⟨I.tree.adopt R.procs (by simp [free]) (hs parent rfl),
        I.owned.congr rfl (fun _ => rfl) fun _ => Iff.rfl⟩
  | procDelete child leaf vacant =>
      exact ⟨I.tree.orphan R.procs child leaf (I.owned.unowned vacant),
        I.owned.congr rfl (fun _ => rfl) fun _ => Iff.rfl⟩
  | @threadAlloc p t rest free =>
      exact ⟨I.tree.hire (hs p rfl), I.owned.hire R (by simp [free])⟩
  | @threadFree t p h _ _ owned queued =>
      obtain ⟨T₁, O₁⟩ := hkeep (w := k.view.outqueue t h) rfl rfl rfl rfl
      exact ⟨T₁.retire, O₁.retire (R.outqueue queued) owned⟩
  | threadFree_off _ _ owned _ => exact ⟨I.tree.retire, I.owned.retire R owned⟩
  | _ => exact hkeep rfl rfl rfl rfl

end preserve

/-- A call that the guard allows and that comes back. -/
def CallStep (guard : Kernel → Call → Prop) (k : Kernel) (c : Call) (k' : Kernel) : Prop :=
  guard k c ∧ ∃ a, c.exec k = .ok (a, k')

section run

variable {hw : Hardware} {k k' : Kernel} {c : Call} {cs : List Call} {a : Answer}
  {guard : Kernel → Call → Prop}

theorem Kernel.Intact.effect_of_exec (I : k.Intact) (hs : c.Sound k)
    (h : c.exec k = .ok (a, k')) : Effect k.view c a k'.view ∧ k'.Intact := by
  obtain ⟨a₁, k₁, v₁, h₁, E, R₁⟩ := I.exec hs
  cases h.symm.trans h₁
  obtain rfl := R₁.eq_view
  exact ⟨E, I.effect hs E R₁⟩

theorem intact_prepared (hw : Hardware) : (prepared hw).Intact := by
  have R := prepared_refines hw
  have hv := R.eq_view
  have I := bootView_inv hw
  have hself : ∀ t, ((preparedView hw).tcb t).tPcb = ((bootView hw).tcb t).tPcb ∧
      ((preparedView hw).tcb t).tStatus = ((bootView hw).tcb t).tStatus := by
    intro t
    by_cases ht : t = .ssi <;> simp [preparedView, bootView, ht]
  refine ⟨hv ▸ R, hv ▸ ?_, hv ▸ ?_, hv ▸ I.mail.kept⟩
  · exact I.tree.congr rfl rfl fun t => (hself t).1
  · exact I.owned.congr rfl (fun t => (hself t).1) fun t => by rw [(hself t).2]

/-- Any sound calls keep the lists intact. -/
theorem intact_of_run (hguard : ∀ k c, guard k c → c.Sound k)
    (run : Run (CallStep guard) (prepared hw) cs k) : k.Intact :=
  run.invariant (fun k c _ I h => by
    obtain ⟨hg, a, h⟩ := h
    exact (I.effect_of_exec (hguard k c hg) h).2) (intact_prepared hw)

end run

/-! ## Executing calls -/

theorem exists_schedQueue {P : SchedQueue → Prop} :
    (∃ h, P h) ↔ P .readyq ∨ P .blockedq ∨ P .tWait4clock ∨ ∃ t, P (.tWait4me t) := by
  constructor
  · rintro ⟨_ | _ | _ | t, h⟩
    · exact Or.inl h
    · exact Or.inr (Or.inl h)
    · exact Or.inr (Or.inr (Or.inl h))
    · exact Or.inr (Or.inr (Or.inr ⟨t, h⟩))
  · rintro (h | h | h | ⟨t, h⟩) <;> exact ⟨_, h⟩

instance (v : View) (t : Tcb) : Decidable (∃ h, t ∈ v.sched h) :=
  decidable_of_iff _ exists_schedQueue.symm

instance (v : View) (p : Pcb) : Decidable (v.Alive p) := inferInstanceAs (Decidable (_ ∨ _))

instance (k : Kernel) (t : Tcb) : Decidable (k.Inert t) := inferInstanceAs (Decidable (_ ∧ _))

instance (k : Kernel) (c : Call) : Decidable (c.Sound k) :=
  match c with
  | .procAlloc parent | .threadAlloc parent =>
      inferInstanceAs (Decidable (∀ p ∈ parent, k.view.Alive p))
  | .threadFree _ => inferInstanceAs (Decidable (_ ∧ _))
  | .threadEnqueue t _ => decidable_of_iff (¬ ∃ h, t ∈ k.view.sched h) not_exists
  | .threadOutqueue t => inferInstanceAs (Decidable (∃ h, t ∈ k.view.sched h))
  | .msgFree m => inferInstanceAs (Decidable (∃ d, m ∈ k.view.msgs (.of d)))
  | .procDelete _ | .threadDequeue _ | .msgqAdd .. | .msgqAddHead .. | .msgqGet .. => isTrue trivial

/-- Execute a list of calls. -/
def callAll (guard : Kernel → Call → Prop) [∀ k c, Decidable (guard k c)] (k : Kernel)
    (cs : List Call) : Option Kernel :=
  cs.foldlM (fun k c => if guard k c then (c.exec k).toOption.map Prod.snd else none) k

theorem run_of_callAll {guard : Kernel → Call → Prop} [∀ k c, Decidable (guard k c)]
    {k k' : Kernel} {cs : List Call} (h : callAll guard k cs = some k') :
    Run (CallStep guard) k cs k' := by
  refine .of_foldlM (fun k c k' hs => ?_) h
  split at hs
  · obtain ⟨⟨a, k₁⟩, hk₁, rfl⟩ := Option.map_eq_some_iff.mp hs
    exact ⟨by assumption, a, exec_eq_ok hk₁⟩
  · cases hs

end MikaBoo
