import MikaBoo.Abstract.View
import Mathlib.Data.Finset.Card
import Mathlib.Data.Fintype.Basic

/-!
# The kernel invariant

The invariant on views, in five parts that depend on different fields: the
process tree, the ownership of threads, the scheduling queues, the message
queues and the thread counter. Every operation preserves it.
-/

namespace MikaBoo

open Intrusive

/-- The queues that a thread may be linked in, given its own fields. A thread
passed up to a manager is ready and in `blockedq`. -/
def Fits (d : TcbT) : SchedQueue → Prop
  | .readyq => d.tStatus = .ready
  | .blockedq => d.tStatus = .ready ∨ d.tStatus = .w4msg ∧ d.tWait4sender = none
  | .tWait4clock => False
  | .tWait4me s => d.tStatus = .w4msg ∧ d.tWait4sender = some s

/-- `d'` differs from `d` in fields that the queues do not depend on. -/
structure SameQueueing (d d' : TcbT) : Prop where
  owner : d'.tPcb = d.tPcb
  status : d'.tStatus = d.tStatus
  wait : d'.tWait4sender = d.tWait4sender

namespace View

/-- The process `p` is allocated. -/
def Alive (v : View) (p : Pcb) : Prop := p = root ∨ (v.pcb p).pParent ≠ none

/-- The number of allocated entries of the array `thread`. -/
def population (v : View) : Nat :=
  (Finset.univ.filter fun i => (v.tcb (.thread i)).tPcb ≠ none).card

/-- The processes form the free list and a tree under the root. -/
structure Tree (v : View) : Prop where
  free : ∀ {p}, p ∈ v.procs .free ↔ p ≠ root ∧ (v.pcb p).pParent = none
  children : ∀ {p q}, p ∈ v.procs (.children q) ↔ (v.pcb p).pParent = some q
  root_parent : (v.pcb root).pParent = none
  parent_alive : ∀ {p q}, (v.pcb p).pParent = some q → v.Alive q
  cleared : ∀ {p}, p ≠ root → (v.pcb p).pParent = none → v.pcb p = {}
  owner_alive : ∀ {t p}, (v.tcb t).tPcb = some p → v.Alive p
  wellFounded : WellFounded fun c p => (v.pcb c).pParent = some p

/-- The threads form the free list and the thread lists of the processes. -/
structure Owned (v : View) : Prop where
  free : ∀ {t}, t ∈ v.threads .free ↔ t ≠ .ssi ∧ (v.tcb t).tPcb = none
  owned : ∀ {t p}, t ∈ v.threads (.of p) ↔ (v.tcb t).tPcb = some p
  status : ∀ {t}, (v.tcb t).tStatus = .none ↔ t ≠ .ssi ∧ (v.tcb t).tPcb = none
  ssi : (v.tcb .ssi).tPcb = none

/-- Every allocated thread is `r`, the one on the processor, or in the queue its fields say. -/
structure Scheduled (v : View) (r : Option Tcb) : Prop where
  fits : ∀ {t h}, t ∈ v.sched h → Fits (v.tcb t) h
  off : ∀ {t h}, t ∈ v.sched h → r ≠ some t
  somewhere : ∀ {t}, (v.tcb t).tStatus ≠ .none → r = some t ∨ ∃ h, t ∈ v.sched h
  running : ∀ {t}, r = some t → (v.tcb t).tStatus = .ready
  wait : ∀ {t}, (v.tcb t).tStatus ≠ .w4msg → (v.tcb t).tWait4sender = none

/-- Queued messages are signed and addressed to allocated threads, and none is
eligible for a blocked receiver. -/
structure Mail (v : View) : Prop where
  kept : ∀ m, ∃ l, m ∈ v.msgs l
  addressed : ∀ {m d}, m ∈ v.msgs (.of d) → (v.tcb d).tStatus ≠ .none
  signed : ∀ {m d}, m ∈ v.msgs (.of d) → (v.msg m).mSender ≠ none
  awaited : ∀ {m d}, m ∈ v.msgs (.of d) → (v.tcb d).tStatus = .w4msg →
    (v.tcb d).tWait4sender ≠ none ∧ (v.msg m).mSender ≠ (v.tcb d).tWait4sender

/-- `thread_count` counts the SSI and the allocated threads. -/
def Counted (v : View) : Prop :=
  v.globals.threadCount = BitVec.ofNat 32 (1 + v.population)

/-- The kernel invariant, while `r` is on the processor. -/
structure Inv (v : View) (r : Option Tcb) : Prop where
  tree : v.Tree
  owned : v.Owned
  scheduled : v.Scheduled r
  mail : v.Mail
  counted : v.Counted

/-! ## What each part depends on -/

section congr

variable {v v' : View} {r : Option Tcb}

theorem Alive.congr {p : Pcb} (hp : v'.pcb p = v.pcb p) (h : v.Alive p) : v'.Alive p := by
  unfold Alive at h ⊢
  rwa [hp]

theorem Tree.congr (T : v.Tree) (hprocs : v'.procs = v.procs) (hpcb : v'.pcb = v.pcb)
    (howner : ∀ t, (v'.tcb t).tPcb = (v.tcb t).tPcb) : v'.Tree := by
  have hal : ∀ {p}, v.Alive p → v'.Alive p := fun h => h.congr (by rw [hpcb])
  refine ⟨?_, ?_, ?_, ?_, ?_, ?_, ?_⟩
  · simpa only [hprocs, hpcb] using @T.free
  · simpa only [hprocs, hpcb] using @T.children
  · simpa only [hpcb] using T.root_parent
  · intro p q h
    exact hal (T.parent_alive (by rwa [hpcb] at h))
  · simpa only [hpcb] using @T.cleared
  · intro t p h
    exact hal (T.owner_alive (by rwa [howner] at h))
  · simpa only [hpcb] using T.wellFounded

theorem Owned.congr (O : v.Owned) (hthreads : v'.threads = v.threads)
    (howner : ∀ t, (v'.tcb t).tPcb = (v.tcb t).tPcb)
    (hstatus : ∀ t, (v'.tcb t).tStatus = .none ↔ (v.tcb t).tStatus = .none) : v'.Owned := by
  refine ⟨?_, ?_, ?_, ?_⟩
  · simpa only [hthreads, howner] using @O.free
  · simpa only [hthreads, howner] using @O.owned
  · simpa only [hstatus, howner] using @O.status
  · simpa only [howner] using O.ssi

theorem Scheduled.congr (S : v.Scheduled r) (hsched : v'.sched = v.sched)
    (hstatus : ∀ t, (v'.tcb t).tStatus = (v.tcb t).tStatus)
    (hwait : ∀ t, (v'.tcb t).tWait4sender = (v.tcb t).tWait4sender) : v'.Scheduled r := by
  refine ⟨?_, ?_, ?_, ?_, ?_⟩
  · intro t h ht
    rw [hsched] at ht
    have hf := S.fits ht
    cases h with
    | tWait4clock => exact hf
    | _ => simpa only [Fits, hstatus, hwait] using hf
  · simpa only [hsched] using @S.off
  · simpa only [hsched, hstatus] using @S.somewhere
  · simpa only [hstatus] using @S.running
  · simpa only [hstatus, hwait] using @S.wait

theorem Mail.congr (M : v.Mail) (hmsgs : v'.msgs = v.msgs) (hmsg : v'.msg = v.msg)
    (hstatus : ∀ t, (v'.tcb t).tStatus = (v.tcb t).tStatus)
    (hwait : ∀ t, (v'.tcb t).tWait4sender = (v.tcb t).tWait4sender) : v'.Mail := by
  refine ⟨?_, ?_, ?_, ?_⟩
  · simpa only [hmsgs] using M.kept
  · simpa only [hmsgs, hstatus] using @M.addressed
  · simpa only [hmsgs, hmsg] using @M.signed
  · simpa only [hmsgs, hmsg, hstatus, hwait] using @M.awaited

theorem population_congr (howner : ∀ t, (v'.tcb t).tPcb = (v.tcb t).tPcb) :
    v'.population = v.population := by
  simp only [population, howner]

theorem Counted.congr (C : v.Counted)
    (hcount : v'.globals.threadCount = v.globals.threadCount)
    (howner : ∀ t, (v'.tcb t).tPcb = (v.tcb t).tPcb) : v'.Counted := by
  rw [Counted, hcount, population_congr howner]
  exact C

end congr

end View

end MikaBoo
