import MikaBoo.Abstract.Frames
import MikaBoo.Abstract.Actions
import MikaBoo.Library.Runs

/-!
# The deeds of services

What a service does to the lists of processes and threads, their owners and the
counters is a sequence of deeds. Every deed keeps these lists in order, whatever
happens to the scheduling queues.
-/

namespace MikaBoo

open Intrusive Transition

/-- The owner of the threads in a list. -/
def ThreadList.owner : ThreadList → Option Pcb
  | .free => none
  | .of p => some p

/-- A change of the lists of processes or threads, of a manager or of a counter. -/
inductive Deed
  /-- A free thread becomes a thread of a process. -/
  | hire (t : Tcb) (p : Pcb)
  /-- A thread goes to the free list. -/
  | fire (t : Tcb)
  /-- A free process becomes the child of another one. -/
  | adopt (p parent : Pcb)
  /-- A process goes to the free list. -/
  | orphan (p : Pcb)
  /-- The managers of a process are set. -/
  | manage (p : Pcb) (managers : PcbT)
  /-- A thread waits for a device. -/
  | engage (i : Fin 5) (t : Tcb)
deriving DecidableEq

/-- The part of `Kept` that no service changes. -/
structure Processor where
  currentThread : Option Tcb
  isIdle : Bool
  mode : Mode
  timer : Word
  clockPerTimeslice : Word
  pseudoclock : Word

namespace Kept

variable {c c' : Kept} {d : Deed} {t u : Tcb} {p q : Pcb} {l l' : ThreadList}

def processor (c : Kept) : Processor where
  currentThread := c.currentThread
  isIdle := c.isIdle
  mode := c.mode
  timer := c.timer
  clockPerTimeslice := c.clockPerTimeslice
  pseudoclock := c.pseudoclock

/-- The lists of processes and threads, read off the links. -/
def view (c : Kept) : View where
  procs l := (c.procLinks.walk l.head MAXPROC l.head).filterMap ProcNode.container
  threads l :=
    (c.counts.threadLinks.walk l.head (MAXTHREAD + 1) l.head).filterMap ThreadNode.container
  sched _ := []
  msgs _ := []
  pcb := c.pcb
  tcb t := { tPcb := c.counts.owner t }
  msg _ := {}
  globals :=
    { currentThread := c.currentThread, threadCount := c.counts.threadCount
      softBlockCount := c.counts.softBlockCount, isIdle := c.isIdle
      softBlockedThread := c.counts.softBlockedThread, clockPerTimeslice := c.clockPerTimeslice
      mode := c.mode, ssiPoint := .receiving }
  history := []

/-- The state after a deed. -/
def after (c : Kept) : Deed → Kept
  | .hire t p =>
      { c with counts := { c.counts with
          threadLinks := (c.counts.threadLinks.listDel (.tNext t)).listAddTail (.tNext t) (.pThreads p)
          owner := Function.update c.counts.owner t (some p)
          threadCount := c.counts.threadCount + 1 } }
  | .fire t =>
      { c with
        counts := { c.counts with
          threadLinks := (c.counts.threadLinks.listDel (.tNext t)).listAddTail (.tNext t) .threadH
          owner := Function.update c.counts.owner t none
          threadCount := c.counts.threadCount - 1 }
        runTime := Function.update c.runTime t 0
        incarnation := Function.update c.incarnation t (c.incarnation t + 1) }
  | .adopt p parent =>
      { c with
        procLinks := (c.procLinks.listDel (.pSiblings p)).listAddTail (.pSiblings p) (.pChildren parent)
        pcb := Function.update c.pcb p { c.pcb p with pParent := some parent } }
  | .orphan p =>
      { c with
        procLinks := (c.procLinks.listDel (.pSiblings p)).listAddTail (.pSiblings p) (.pSiblings root)
        pcb := Function.update c.pcb p {} }
  | .manage p managers => { c with pcb := Function.update c.pcb p managers }
  | .engage i t =>
      { c with counts := { c.counts with
          softBlockCount := c.counts.softBlockCount + 1
          softBlockedThread := Function.update c.counts.softBlockedThread i (some t) } }

/-- When a service does a deed. -/
def Allows (c : Kept) : Deed → Prop
  | .hire t p => t ≠ .ssi ∧ c.counts.owner t = none ∧ c.view.Alive p
  | .fire t => t ≠ .ssi ∧ c.counts.owner t ≠ none
  | .adopt p parent => p ≠ root ∧ (c.pcb p).pParent = none ∧ c.view.Alive parent
  | .orphan p => (c.pcb p).pParent ≠ none ∧ c.view.procs (.children p) = [] ∧
      c.view.threads (.of p) = []
  | .manage p managers => c.view.Alive p ∧ managers.pParent = (c.pcb p).pParent
  | .engage i _ => c.counts.softBlockedThread i = none

/-- One deed. -/
def Step (c : Kept) (d : Deed) (c' : Kept) : Prop := c.Allows d ∧ c' = c.after d

/-- The lists of processes and threads are in order. -/
structure Rolls (c : Kept) : Prop where
  procs : Represents procLayout c.procLinks c.view.procs
  threads : Represents threadLayout c.counts.threadLinks c.view.threads
  tree : c.view.Tree
  listed : ∀ {t l}, t ∈ c.view.threads l ↔ t ≠ .ssi ∧ c.counts.owner t = l.owner
  ssi : c.counts.owner .ssi = none

namespace Rolls

/-- What the lists depend on. -/
theorem congr (C : c.Rolls) (hthreads : c'.counts.threadLinks = c.counts.threadLinks)
    (howner : c'.counts.owner = c.counts.owner) (hprocs : c'.procLinks = c.procLinks)
    (hpcb : c'.pcb = c.pcb) : c'.Rolls := by
  have hvt : c'.view.threads = c.view.threads := by
    funext l
    simp [view, hthreads]
  have hvp : c'.view.procs = c.view.procs := by
    funext l
    simp [view, hprocs]
  refine ⟨by rw [hprocs, hvp]; exact C.procs, by rw [hthreads, hvt]; exact C.threads, ?_, ?_, ?_⟩
  · exact C.tree.congr hvp hpcb fun t => congrFun howner t
  · rw [hvt, howner]
    exact C.listed
  · rw [howner]
    exact C.ssi

/-- Every thread is in the list that its owner says. -/
theorem mem (C : c.Rolls) (ht : t ≠ .ssi) : ∃ l, t ∈ c.view.threads l ∧ l.owner = c.counts.owner t := by
  cases ho : c.counts.owner t with
  | none => exact ⟨.free, C.listed.mpr ⟨ht, ho⟩, rfl⟩
  | some p => exact ⟨.of p, C.listed.mpr ⟨ht, ho⟩, rfl⟩

/-- The threads that are not on the free list are those with a process. -/
theorem owner_ne_none (C : c.Rolls) (hssi : t ≠ .ssi) (ht : t ∉ c.view.threads .free) :
    c.counts.owner t ≠ none :=
  fun hn => ht (C.listed.mpr ⟨hssi, hn⟩)

theorem unowned (C : c.Rolls) (hp : c.view.threads (.of p) = []) (t : Tcb) :
    c.counts.owner t ≠ some p := by
  intro ho
  have hssi : t ≠ .ssi := by
    rintro rfl
    rw [C.ssi] at ho
    cases ho
  have hm : t ∈ c.view.threads (.of p) := C.listed.mpr ⟨hssi, ho⟩
  simp [hp] at hm

/-- A thread goes from one list to another. -/
theorem move (l' : ThreadList) (C : c.Rolls) (ht : t ∈ c.view.threads l)
    (halive : ∀ p, l'.owner = some p → c.view.Alive p)
    (hlinks : c'.counts.threadLinks =
      (c.counts.threadLinks.listDel (.tNext t)).listAddTail (.tNext t) l'.head)
    (howner : c'.counts.owner = Function.update c.counts.owner t l'.owner)
    (hprocs : c'.procLinks = c.procLinks) (hpcb : c'.pcb = c.pcb) : c'.Rolls := by
  have R := C.threads.move ht (thread_link_ne_head t) l'
  have hthreads : c'.view.threads = _ := funext fun h =>
    hlinks ▸ filterMap_walk R (f := ThreadNode.container) (fun _ => rfl)
      (n := MAXTHREAD + 1) card_tcb.le h
  have hvp : c'.view.procs = c.view.procs := by
    funext l
    simp [view, hprocs]
  have hssi := (C.listed.mp ht).1
  refine ⟨by rw [hprocs, hvp]; exact C.procs, by rw [hlinks, hthreads]; exact R, ?_, ?_, ?_⟩
  · refine C.tree.change_owner (t := t) hvp hpcb (fun u hu => ?_) fun p hp => ?_
    · simp [view, howner, hu]
    · exact halive p (by simpa [view, howner] using hp)
  · intro u m
    rw [hthreads, C.threads.mem_move_iff ht, C.listed, howner]
    by_cases hu : u = t
    · subst hu
      cases l' <;> cases m <;> simp [ThreadList.owner, hssi, eq_comm]
    · simp [hu]
  · rw [howner, Function.update_of_ne hssi.symm]
    exact C.ssi

/-- A process goes from one list to another. -/
theorem relink {w : View} {lp : ProcList} (lp' : ProcList) (C : c.Rolls)
    (hp : p ∈ c.view.procs lp) (hroot : p ≠ root) (T : w.Tree)
    (hlinks : c'.procLinks = (c.procLinks.listDel (.pSiblings p)).listAddTail (.pSiblings p) lp'.head)
    (hprocs : w.procs = Function.update
      (Function.update c.view.procs lp ((c.view.procs lp).erase p)) lp'
      (Function.update c.view.procs lp ((c.view.procs lp).erase p) lp' ++ [p]))
    (hpcb : w.pcb = c'.pcb) (howner : ∀ t, (w.tcb t).tPcb = c.counts.owner t)
    (hcounts : c'.counts = c.counts) : c'.Rolls := by
  have R := C.procs.move hp (proc_link_ne_head hroot) lp'
  have hvp : c'.view.procs = _ := funext fun h =>
    hlinks ▸ filterMap_walk R (f := ProcNode.container) (fun _ => rfl) (n := MAXPROC) (by simp) h
  have hvt : c'.view.threads = c.view.threads := by
    funext l
    simp [view, hcounts]
  refine ⟨by rw [hlinks, hvp]; exact R, by rw [hcounts, hvt]; exact C.threads, ?_, ?_, ?_⟩
  · exact T.congr (hvp.trans hprocs.symm) hpcb.symm fun t => by simp [view, hcounts, howner]
  · rw [hvt, hcounts]
    exact C.listed
  · rw [hcounts]
    exact C.ssi

/-- A thread may even be freed twice. -/
theorem fire (C : c.Rolls) (ht : t ≠ .ssi) : (c.after (.fire t)).Rolls := by
  obtain ⟨l, hl, _⟩ := C.mem ht
  exact C.move .free hl nofun rfl rfl rfl rfl

/-- Every deed keeps the lists in order. -/
theorem after (C : c.Rolls) (ha : c.Allows d) : (c.after d).Rolls := by
  cases d with
  | hire t p =>
      obtain ⟨hssi, hfree, halive⟩ := ha
      have ht : t ∈ c.view.threads .free := C.listed.mpr ⟨hssi, hfree⟩
      refine C.move (.of p) ht ?_ rfl rfl rfl rfl
      rintro q hq
      cases hq
      exact halive
  | fire t => exact C.fire ha.1
  | adopt p parent =>
      obtain ⟨hroot, hnone, halive⟩ := ha
      have hp : p ∈ c.view.procs .free := C.tree.free.mpr ⟨hroot, hnone⟩
      exact C.relink (.children parent) hp hroot (C.tree.adopt C.procs hp halive) rfl rfl rfl
        (fun _ => rfl) rfl
  | orphan p =>
      obtain ⟨hsome, hc, ht⟩ := ha
      obtain ⟨parent, hpar⟩ := Option.ne_none_iff_exists'.mp hsome
      have hp : p ∈ c.view.procs (.children parent) := C.tree.children.mpr hpar
      have hroot : p ≠ root := by
        rintro rfl
        exact hsome C.tree.root_parent
      exact C.relink .free hp hroot (C.tree.orphan C.procs hpar hc (C.unowned ht)) rfl rfl rfl
        (fun _ => rfl) rfl
  | manage p managers =>
      obtain ⟨halive, hpar⟩ := ha
      have T := C.tree.manage (f := fun _ => managers) halive hpar
      exact ⟨C.procs, C.threads, T.congr rfl rfl fun _ => rfl, C.listed, C.ssi⟩
  | engage i t => exact C.congr rfl rfl rfl rfl

end Rolls

/-- `thread_count` is right. -/
abbrev Counted (c : Kept) : Prop := c.view.Counted

/-- Every deed keeps `thread_count` right. -/
theorem Counted.after (C : c.Counted) (ha : c.Allows d) : (c.after d).Counted := by
  cases d with
  | hire t p =>
      obtain ⟨hssi, hfree, _⟩ := ha
      exact View.Counted.hire C hssi hfree (by simp [view, Kept.after])
        (fun u hu => by simp [view, Kept.after, hu]) rfl
  | fire t =>
      exact View.Counted.fire C ha.1 ha.2 (by simp [view, Kept.after])
        (fun u hu => by simp [view, Kept.after, hu]) rfl
  | adopt | orphan | manage | engage => exact View.Counted.congr C rfl fun _ => rfl

end Kept

/-! ## Sequences of deeds -/

/-- The deed changes the descriptor of the process. -/
def Deed.concerns (p : Pcb) : Deed → Prop
  | .adopt q _ | .orphan q | .manage q _ => q = p
  | _ => False

/-- The deed engages a thread for a device. -/
def Deed.engages : Deed → Bool
  | .engage .. => true
  | _ => false

/-- The deed only takes something away. -/
def Deed.shrinks : Deed → Bool
  | .fire _ | .orphan _ => true
  | _ => false

namespace Kept

variable {c c' : Kept} {ds : List Deed} {d : Deed} {t : Tcb} {p q : Pcb}

theorem Rolls.run (C : c.Rolls) (run : Run Kept.Step c ds c') : c'.Rolls := by
  refine run.invariant (fun c d c' C h => ?_) C
  obtain ⟨ha, rfl⟩ := h
  exact C.after ha

theorem Counted.run (C : c.Counted) (run : Run Kept.Step c ds c') : c'.Counted := by
  refine run.invariant (fun c d c' C h => ?_) C
  obtain ⟨ha, rfl⟩ := h
  exact C.after ha

/-- An incarnation ends when the thread is freed. -/
theorem incarnation_of_run (run : Run Kept.Step c ds c') (t : Tcb) :
    c'.incarnation t = c.incarnation t + ds.count (.fire t) := by
  induction run with
  | nil => rfl
  | @snoc c₁ c' es d _ last ih =>
      obtain ⟨_, rfl⟩ := last
      rw [List.count_append, ← Nat.add_assoc, ← ih]
      cases d with
      | fire u =>
          by_cases hu : u = t
          · subst hu
            simp [Kept.after]
          · simp [Kept.after, hu, Ne.symm hu]
      | _ => simp [Kept.after]

theorem soft_of_run (run : Run Kept.Step c ds c') (he : ∀ d ∈ ds, d.engages = false) :
    c'.counts.softBlockCount = c.counts.softBlockCount ∧
      c'.counts.softBlockedThread = c.counts.softBlockedThread := by
  induction run with
  | nil => exact ⟨rfl, rfl⟩
  | @snoc c₁ c' es d _ last ih =>
      obtain ⟨_, rfl⟩ := last
      have ih := ih fun d hd => he d (by simp [hd])
      have hd := he d (by simp)
      cases d with
      | engage i t => cases hd
      | _ => exact ih

theorem pcb_of_run (run : Run Kept.Step c ds c') (hp : ∀ d ∈ ds, ¬ d.concerns p) :
    c'.pcb p = c.pcb p := by
  induction run with
  | nil => rfl
  | @snoc c₁ c' es d _ last ih =>
      obtain ⟨_, rfl⟩ := last
      rw [← ih fun d hd => hp d (by simp [hd])]
      have hd := hp d (by simp)
      cases d with
      | adopt q _ | orphan q | manage q _ =>
          have hq : p ≠ q := fun h => hd h.symm
          simp [Kept.after, hq]
      | _ => rfl

/-- What deeds that only take away leave. -/
structure Remains (c c' : Kept) : Prop where
  owner : ∀ t, c'.counts.owner t = none ∨ c'.counts.owner t = c.counts.owner t
  pcb : ∀ p, c'.pcb p = {} ∨ c'.pcb p = c.pcb p

theorem remains_of_run (run : Run Kept.Step c ds c') (hs : ∀ d ∈ ds, d.shrinks = true) :
    Remains c c' := by
  induction run with
  | nil => exact ⟨fun _ => Or.inr rfl, fun _ => Or.inr rfl⟩
  | @snoc c₁ c' es d _ last ih =>
      obtain ⟨_, rfl⟩ := last
      obtain ⟨ho, hp⟩ := ih fun d hd => hs d (by simp [hd])
      have hd := hs d (by simp)
      cases d with
      | fire u =>
          refine ⟨fun t => ?_, hp⟩
          by_cases hu : t = u
          · subst hu
            simp [Kept.after]
          · simpa [Kept.after, hu] using ho t
      | orphan q =>
          refine ⟨ho, fun p => ?_⟩
          by_cases hq : p = q
          · subst hq
            simp [Kept.after]
          · simpa [Kept.after, hq] using hp p
      | _ => cases hd

theorem Remains.parent (h : Remains c c') (hp : (c'.pcb p).pParent = some q) :
    (c.pcb p).pParent = some q := by
  rcases h.pcb p with h | h
  · simp [h] at hp
  · rwa [← h]

theorem Remains.owner_eq (h : Remains c c') (ht : c'.counts.owner t = some p) :
    c.counts.owner t = some p := by
  rcases h.owner t with h | h
  · simp [h] at ht
  · rwa [← h]

end Kept

end MikaBoo
