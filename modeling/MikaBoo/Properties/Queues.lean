import MikaBoo.Abstract.Calls

/-!
# The scheduling queues under the functions on threads

The queues against lists to which `thread_enqueue` appends and from which
`thread_dequeue`, `thread_outqueue` and `thread_free` remove.

## Implementation notes

`thread_free` unlinks `t_sched` also when the thread is in no queue. Its two
neighbours are then those of the queue that it was in last, or NULL.
-/

namespace MikaBoo

open Intrusive Fuel Transition

/-- The threads that are in each queue, in order. -/
abbrev Queues := SchedQueue → List Tcb

/-- What a call that returned `a` makes of the queues. -/
def Call.fifo (q : Queues) (a : Answer) : Call → Queues
  | .threadEnqueue t h => Function.update q h (q h ++ [t])
  | .threadDequeue h => Function.update q h (q h).tail
  | .threadOutqueue t => fun h => (q h).erase t
  | .threadFree t => if a = .code 0 then fun h => (q h).erase t else q
  | _ => q

/-- The queues after the calls `es`, from empty ones. -/
def queuesAfter (es : List (Call × Answer)) : Queues :=
  es.foldl (fun q e => e.1.fifo q e.2) fun _ => []

/-- What a caller owes the functions, whatever `thread_free` does about the queues. -/
def Call.Lawful (k : Kernel) : Call → Prop
  | .threadFree t => (k.tcb t).tPcb ≠ none
  | c => c.Sound k

/-- The thread is in a queue, or its stale neighbours exist and are still adjacent. -/
def Kernel.Detachable (k : Kernel) (t : Tcb) : Prop :=
  (∃ h, t ∈ k.view.sched h) ∨ (k.Inert t ∧
    k.schedLinks.next (.tSched t) ≠ .null ∧ k.schedLinks.prev (.tSched t) ≠ .null)

/-- A call frees a thread only when that cannot disturb a queue. -/
def Call.Harmless (k : Kernel) (c : Call) : Prop :=
  c.Lawful k ∧ ∀ t, c = .threadFree t → k.view.msgs (.of t) = [] →
    k.view.sched (.tWait4me t) = [] → k.Detachable t

/-- What `thread_free` ought to do to the queues: take the thread out of the queue it
is in, with no other node written and nothing written through NULL. -/
structure Kernel.Unqueued (k : Kernel) (t : Tcb) (k' : Kernel) : Prop where
  next_null : k.schedLinks.next (.tSched t) ≠ .null
  prev_null : k.schedLinks.prev (.tSched t) ≠ .null
  frame : ∀ n, (∀ h, t ∈ k.view.sched h → n ≠ h.head ∧ n ∉ (k.view.sched h).map .tSched) →
    k'.schedLinks.next n = k.schedLinks.next n ∧ k'.schedLinks.prev n = k.schedLinks.prev n
  queues : Represents schedLayout k'.schedLinks fun h => (k.view.sched h).erase t

theorem Call.Harmless.sound {k : Kernel} {c : Call} (h : c.Harmless k) : c.Sound k := by
  obtain ⟨hlaw, hfree⟩ := h
  cases c with
  | threadFree t => exact ⟨hlaw, fun hm hw => (hfree t rfl hm hw).imp_right And.left⟩
  | _ => exact hlaw

section step

variable {k k' : Kernel} {t : Tcb} {c : Call} {a : Answer} {q : Queues}

/-- The neighbours of a queued thread are nodes of its queue. -/
theorem neighbours_of_mem {h : SchedQueue} (R : Refines k k.view) (ht : t ∈ k.view.sched h) :
    k.schedLinks.prev (.tSched t) ∈ h.head :: (k.view.sched h).map .tSched ∧
      k.schedLinks.next (.tSched t) ∈ h.head :: (k.view.sched h).map .tSched :=
  (R.sched.circ h).neighbours (List.mem_map_of_mem ht)

theorem ne_null_of_mem {h : SchedQueue} {ts : List Tcb} {n : SchedNode}
    (hn : n ∈ h.head :: ts.map .tSched) : n ≠ .null := by
  rcases List.mem_cons.mp hn with rfl | hn
  · cases h <;> nofun
  · obtain ⟨u, _, rfl⟩ := List.mem_map.mp hn
    nofun

/-- `thread_free` leaves the other queues alone exactly when the thread is in a
queue, or the neighbours it had in one are still adjacent. -/
theorem threadFree_unqueued (I : k.Intact) (hm : k.view.msgs (.of t) = [])
    (hw : k.view.sched (.tWait4me t) = []) :
    ∃ k', threadFree k t = (0, k') ∧ (k.Unqueued t k' ↔ k.Detachable t) := by
  have R := I.refines
  have hm' := R.msgs.listEmpty (.of t)
  have hw' := R.sched.listEmpty (.tWait4me t)
  simp only [msgLayout, schedLayout, MsgList.head, SchedQueue.head, hm, hw] at hm' hw'
  obtain ⟨k', hk', hlinks⟩ : ∃ k', threadFree k t = (0, k') ∧
      k'.schedLinks = k.schedLinks.listDel (.tSched t) :=
    ⟨_, by simp [threadFree, hm', hw']; rfl, rfl⟩
  refine ⟨k', hk', fun U => ?_, fun D => ?_⟩
  · by_cases hin : ∃ h, t ∈ k.view.sched h
    · exact Or.inl hin
    · have hframe : ∀ n, k'.schedLinks.next n = k.schedLinks.next n ∧
          k'.schedLinks.prev n = k.schedLinks.prev n :=
        fun n => U.frame n fun h ht => (hin ⟨h, ht⟩).elim
      have hself : k.schedLinks.listDel (.tSched t) = k.schedLinks := by
        rw [← hlinks]
        exact Links.ext (funext fun n => (hframe n).1) (funext fun n => (hframe n).2)
      exact Or.inr ⟨Links.listDel_eq_self.mp hself, U.next_null, U.prev_null⟩
  · by_cases hin : ∃ h, t ∈ k.view.sched h
    · obtain ⟨h, ht⟩ := hin
      obtain ⟨hprev, hnext⟩ := neighbours_of_mem R ht
      refine ⟨ne_null_of_mem hnext, ne_null_of_mem hprev, fun n hn => ?_, ?_⟩
      · have hoff : n ∉ h.head :: (k.view.sched h).map .tSched := by
          rw [List.mem_cons, not_or]
          exact hn h ht
        have hp : n ≠ k.schedLinks.prev (.tSched t) := fun e => hoff (e ▸ hprev)
        have hn : n ≠ k.schedLinks.next (.tSched t) := fun e => hoff (e ▸ hnext)
        simp [hlinks, Links.listDel, Links.rawListDel, hp, hn]
      · rw [hlinks, R.sched.erase_all ht]
        exact R.sched.listDel ht
    · obtain ⟨hinert, hnext, hprev⟩ := D.resolve_left hin
      have hself : k'.schedLinks = k.schedLinks := hlinks.trans (Links.listDel_eq_self.mpr hinert)
      refine ⟨hnext, hprev, fun n _ => by simp [hself], ?_⟩
      rw [hself]
      have herase : (fun h => (k.view.sched h).erase t) = k.view.sched :=
        funext fun h => List.erase_of_not_mem fun ht => hin ⟨h, ht⟩
      rw [herase]
      exact R.sched

/-- A call that is not refused does to the queues what it does to lists. -/
theorem Effect.sched (R : Refines k k.view) {v' : View} (E : Effect k.view c a v') :
    v'.sched = c.fifo k.view.sched a := by
  cases E with
  | threadFree_mail | threadFree_waited => simp [Call.fifo]
  | threadFree _ _ _ queued =>
      simp only [Call.fifo, ↓reduceIte]
      exact (R.sched.erase_all queued).symm
  | threadFree_off _ _ _ off =>
      simp only [Call.fifo, ↓reduceIte]
      exact (funext fun h => List.erase_of_not_mem (off h)).symm
  | @threadDequeue_null h empty =>
      refine (Function.update_eq_self_iff.mpr ?_).symm
      rw [empty]
      rfl
  | threadDequeue head => simp [Call.fifo, View.outqueue, head]
  | threadOutqueue queued => exact (R.sched.erase_all queued).symm
  | _ => rfl

end step

/-- A call that the guard allows, with its answer. -/
def AnswerStep (guard : Kernel → Call → Prop) (k : Kernel) (e : Call × Answer) (k' : Kernel) : Prop :=
  guard k e.1 ∧ e.1.exec k = .ok (e.2, k')

/-- Every run of calls has answers. -/
theorem exists_answers {guard : Kernel → Call → Prop} {k k' : Kernel} {cs : List Call}
    (run : Run (CallStep guard) k cs k') :
    ∃ es, es.map Prod.fst = cs ∧ Run (AnswerStep guard) k es k' := by
  induction run with
  | nil => exact ⟨[], rfl, .nil⟩
  | @snoc _ _ _ c _ last ih =>
      obtain ⟨es, hes, run⟩ := ih
      obtain ⟨hg, a, ha⟩ := last
      exact ⟨es ++ [(c, a)], by simp [hes], run.snoc ⟨hg, ha⟩⟩

section run

variable {hw : Hardware} {k : Kernel} {es : List (Call × Answer)}

theorem sched_of_run (run : Run (AnswerStep Call.Harmless) (prepared hw) es k) :
    k.Intact ∧ k.view.sched = queuesAfter es := by
  induction run with
  | nil =>
      refine ⟨intact_prepared hw, ?_⟩
      rw [← (prepared_refines hw).eq_view]
      rfl
  | snoc _ last ih =>
      obtain ⟨I, hq⟩ := ih
      obtain ⟨hg, hexec⟩ := last
      obtain ⟨E, I'⟩ := I.effect_of_exec hg.sound hexec
      refine ⟨I', ?_⟩
      rw [E.sched I.refines, hq, queuesAfter, queuesAfter, List.foldl_append]
      rfl

/-- After calls that free only threads in a queue, or threads whose stale neighbours are
still adjacent, the queues are the lists that the calls make, and to free a thread leaves
all other queues alone exactly when that holds of it too. -/
theorem queues (run : Run (AnswerStep Call.Harmless) (prepared hw) es k) :
    k.view.sched = queuesAfter es ∧ Represents schedLayout k.schedLinks (queuesAfter es) ∧
      (∀ h, ∃ k', threadDequeue k h = .ok ((queuesAfter es h).head?, k')) ∧
      ∀ t, k.view.msgs (.of t) = [] → k.view.sched (.tWait4me t) = [] →
        ∃ k', threadFree k t = (0, k') ∧ (k.Unqueued t k' ↔ k.Detachable t) := by
  obtain ⟨I, hq⟩ := sched_of_run run
  refine ⟨hq, hq ▸ I.refines.sched, fun h => ?_, fun t hm hw => threadFree_unqueued I hm hw⟩
  rw [← hq]
  cases hh : k.view.sched h with
  | nil => exact ⟨k, I.refines.dequeue_nil hh⟩
  | cons t rest =>
      obtain ⟨k', hk', _⟩ := I.refines.dequeue_cons hh
      exact ⟨k', hk'⟩

end run

/-! ## Samples -/

instance (k : Kernel) (c : Call) : Decidable (c.Lawful k) :=
  match c with
  | .threadFree t => inferInstanceAs (Decidable ((k.tcb t).tPcb ≠ none))
  | .procAlloc p => inferInstanceAs (Decidable ((Call.procAlloc p).Sound k))
  | .threadAlloc p => inferInstanceAs (Decidable ((Call.threadAlloc p).Sound k))
  | .threadEnqueue t h => inferInstanceAs (Decidable ((Call.threadEnqueue t h).Sound k))
  | .threadOutqueue t => inferInstanceAs (Decidable ((Call.threadOutqueue t).Sound k))
  | .msgFree m => inferInstanceAs (Decidable ((Call.msgFree m).Sound k))
  | .procDelete _ | .threadDequeue _ | .msgqAdd .. | .msgqAddHead .. | .msgqGet .. => isTrue trivial

instance (k : Kernel) (t : Tcb) : Decidable (k.Detachable t) := inferInstanceAs (Decidable (_ ∨ _))

instance (k : Kernel) (c : Call) : Decidable (∀ t, c = .threadFree t → k.view.msgs (.of t) = [] →
    k.view.sched (.tWait4me t) = [] → k.Detachable t) :=
  match c with
  | .threadFree t => decidable_of_iff (k.view.msgs (.of t) = [] →
        k.view.sched (.tWait4me t) = [] → k.Detachable t)
      ⟨fun h _ ht => by cases ht; exact h, fun h => h t rfl⟩
  | .procAlloc _ | .procDelete _ | .threadAlloc _ | .threadEnqueue .. | .threadDequeue _
  | .threadOutqueue _ | .msgqAdd .. | .msgqAddHead .. | .msgqGet .. | .msgFree _ => isTrue nofun

instance (k : Kernel) (c : Call) : Decidable (c.Harmless k) := inferInstanceAs (Decidable (_ ∧ _))

/-- Three threads in one queue, of which the first two are dequeued. -/
def Sample.queueing : List Call :=
  [.threadAlloc (some root), .threadAlloc (some root), .threadAlloc (some root),
    .threadEnqueue (.thread 0) .readyq, .threadEnqueue (.thread 1) .readyq,
    .threadEnqueue (.thread 2) .readyq, .threadDequeue .readyq, .threadDequeue .readyq]

/-- A thread may be freed after it is dequeued as long as its neighbours are still adjacent. -/
theorem queues_sample : ∃ es k, Run (AnswerStep Call.Harmless) (prepared Sample.hardware) es k ∧
    es.map Prod.fst = Sample.queueing ++ [.threadFree (.thread 1)] ∧
    queuesAfter es .readyq = [.thread 2] ∧
    ∃ k', threadFree k (.thread 2) = (0, k') ∧ k.Unqueued (.thread 2) k' := by
  let check : Kernel → Bool := fun k => k.view.sched .readyq = [.thread 2] ∧
    k.view.msgs (.of (.thread 2)) = [] ∧ k.view.sched (.tWait4me (.thread 2)) = []
  have h : (callAll Call.Harmless (prepared Sample.hardware)
      (Sample.queueing ++ [.threadFree (.thread 1)])).any check = true := by
    decide +kernel
  obtain ⟨k, hk, hprops⟩ := Option.any_eq_true _ _ |>.mp h
  obtain ⟨hq, hm, hw⟩ := of_decide_eq_true hprops
  obtain ⟨es, hes, run⟩ := exists_answers (run_of_callAll hk)
  obtain ⟨hsched, _, _, hfree⟩ := queues run
  obtain ⟨k', hk', hunq⟩ := hfree _ hm hw
  refine ⟨es, k, run, hes, hsched ▸ hq, k', hk', hunq.mpr (Or.inl ⟨.readyq, ?_⟩)⟩
  simp [hq]

/-- To free the first thread puts the second one, which was dequeued, back in the queue. -/
theorem threadFree_requeues : ∃ k, Run (CallStep fun k c => c.Lawful k) (prepared Sample.hardware)
      Sample.queueing k ∧ k.view.sched .readyq = [.thread 2] ∧
    (k.tcb (.thread 0)).tPcb = some root ∧ k.view.msgs (.of (.thread 0)) = [] ∧
    k.view.sched (.tWait4me (.thread 0)) = [] ∧ (∀ h, .thread 0 ∉ k.view.sched h) ∧
    ∃ k', threadFree k (.thread 0) = (0, k') ∧ k'.view.sched .readyq = [.thread 1, .thread 2] := by
  let check : Kernel → Bool := fun k => k.view.sched .readyq = [.thread 2] ∧
    (k.tcb (.thread 0)).tPcb = some root ∧ k.view.msgs (.of (.thread 0)) = [] ∧
    k.view.sched (.tWait4me (.thread 0)) = [] ∧ (¬ ∃ h, .thread 0 ∈ k.view.sched h) ∧
    (threadFree k (.thread 0)).1 = 0 ∧
    (threadFree k (.thread 0)).2.view.sched .readyq = [.thread 1, .thread 2]
  have h : (callAll (fun k c => c.Lawful k) (prepared Sample.hardware) Sample.queueing).any check =
      true := by
    decide +kernel
  obtain ⟨k, hk, hprops⟩ := Option.any_eq_true _ _ |>.mp h
  obtain ⟨hq, hp, hm, hw, hoff, hres, hq'⟩ := of_decide_eq_true hprops
  exact ⟨k, run_of_callAll hk, hq, hp, hm, hw, not_exists.mp hoff, _, Prod.ext hres rfl, hq'⟩

end MikaBoo
