import MikaBoo.Abstract.Calls

/-!
# The pools of processes and threads

After any calls of the functions on descriptors, the processes are the free list
and a tree under the root, and the threads are the free list and the lists of the
processes. A call fails exactly on a NULL argument, an empty pool or a process in use.
-/

namespace MikaBoo

open Intrusive Fuel Transition Forest

/-- The processes are the free list and a tree under the root, the threads the free
list and the lists of the processes, and free descriptors are clean. -/
structure Kernel.Pooled (k : Kernel) : Prop where
  procs : Represents procLayout k.procLinks k.view.procs
  threads : Represents threadLayout k.threadLinks k.view.threads
  proc_once : ∀ {p}, p ≠ root → ∃! l, p ∈ k.view.procs l
  root_off : ∀ l, root ∉ k.view.procs l
  root_parent : (k.pcb root).pParent = none
  child : ∀ {p q}, p ∈ k.view.procs (.children q) ↔ (k.pcb p).pParent = some q
  proc_free : ∀ {p}, p ∈ k.view.procs .free →
    k.pcb p = {} ∧ k.view.procs (.children p) = [] ∧ k.view.threads (.of p) = []
  rooted : ∀ {p}, k.view.Alive p → k.view.Below p root
  acyclic : ∀ p, ¬ Relation.TransGen (fun c q => (k.pcb c).pParent = some q) p p
  thread_once : ∀ {t}, t ≠ .ssi → ∃! l, t ∈ k.view.threads l
  owned : ∀ {t p}, t ∈ k.view.threads (.of p) ↔ (k.tcb t).tPcb = some p
  thread_free : ∀ {t}, t ∈ k.view.threads .free →
    (k.tcb t).tPcb = none ∧ (k.tcb t).tStatus = .none

theorem View.Tree.below_root {v : View} {p : Pcb} (T : v.Tree) (hp : v.Alive p) : v.Below p root := by
  have hup : ∀ p, v.Alive p → p = root ∨ ∃ q, (v.pcb p).pParent = some q ∧ v.Alive q := by
    rintro p (rfl | hp)
    · exact Or.inl rfl
    · obtain ⟨q, hq⟩ := Option.ne_none_iff_exists'.mp hp
      exact Or.inr ⟨q, hq, T.parent_alive hq⟩
  exact Forest.below_root T.wellFounded hup hp

theorem Kernel.Intact.pooled {k : Kernel} (I : k.Intact) : k.Pooled := by
  obtain ⟨R, T, O, _⟩ := I
  refine ⟨R.procs, R.threads, fun {p} hp => ?_, fun l hl => ?_, T.root_parent, T.children,
    fun {p} hp => ?_, T.below_root, not_transGen_self T.wellFounded, fun {t} ht => ?_, O.owned,
    fun {t} ht => ?_⟩
  · have hmem : ∃ l, p ∈ k.view.procs l := by
      cases hpar : (k.pcb p).pParent with
      | none => exact ⟨.free, T.free.mpr ⟨hp, hpar⟩⟩
      | some q => exact ⟨.children q, T.children.mpr hpar⟩
    obtain ⟨l, hl⟩ := hmem
    exact ⟨l, hl, fun l' hl' => R.procs.disjoint hl' hl⟩
  · cases l with
    | free => exact (T.free.mp hl).1 rfl
    | children q => exact absurd (T.root_parent.symm.trans (T.children.mp hl)) nofun
  · obtain ⟨hroot, hnone⟩ := T.free.mp hp
    have hdead := T.not_alive_of_free hp
    exact ⟨T.cleared hroot hnone, T.childless hdead, O.vacant T hdead⟩
  · have hmem : ∃ l, t ∈ k.view.threads l := by
      cases hown : (k.tcb t).tPcb with
      | none => exact ⟨.free, O.free.mpr ⟨ht, hown⟩⟩
      | some q => exact ⟨.of q, O.owned.mpr hown⟩
    obtain ⟨l, hl⟩ := hmem
    exact ⟨l, hl, fun l' hl' => R.threads.disjoint hl' hl⟩
  · exact ⟨(O.free.mp ht).2, O.status.mpr (O.free.mp ht)⟩

/-- When a call fails, and that it changes nothing then. -/
def Call.Fails (k : Kernel) (a : Answer) (k' : Kernel) : Call → Prop
  | .procAlloc parent =>
      (a = .proc none ↔ parent = none ∨ k.view.procs .free = []) ∧
        (a = .proc none → k'.view = k.view)
  | .procDelete p =>
      (a = .code (-1) ↔ (k.pcb p).pParent = none ∨ k.view.procs (.children p) ≠ [] ∨
        k.view.threads (.of p) ≠ []) ∧ (a = .code (-1) → k'.view = k.view) ∧
        (a ≠ .code (-1) → a = .code 0)
  | .threadAlloc process =>
      (a = .thread none ↔ process = none ∨ k.view.threads .free = []) ∧
        (a = .thread none → k'.view = k.view)
  | .threadFree t =>
      (a = .code 0 ↔ k.view.msgs (.of t) = [] ∧ k.view.sched (.tWait4me t) = []) ∧
        (a ≠ .code 0 → k'.view = k.view)
  | _ => True

theorem Effect.fails {k k' : Kernel} {c : Call} {a : Answer} (E : Effect k.view c a k'.view) :
    c.Fails k a k' := by
  generalize hv : k'.view = v' at E
  cases E with
  | procAlloc_null h => exact ⟨iff_of_true rfl h, fun _ => hv⟩
  | procAlloc free => exact ⟨by simp [free], nofun⟩
  | procDelete_fail h => exact ⟨iff_of_true rfl h, fun _ => hv, fun h => absurd rfl h⟩
  | procDelete child leaf vacant =>
      have hpar : (k.pcb _).pParent = _ := child
      exact ⟨by simp [hpar, leaf, vacant], nofun, fun _ => rfl⟩
  | threadAlloc_null h => exact ⟨iff_of_true rfl h, fun _ => hv⟩
  | threadAlloc free => exact ⟨by simp [free], nofun⟩
  | threadFree_mail mail => exact ⟨by simp [mail], fun _ => hv⟩
  | threadFree_waited mail waited => exact ⟨by simp [waited], fun _ => hv⟩
  | threadFree mail waited => exact ⟨by simp [mail, waited], fun h => absurd rfl h⟩
  | threadFree_off mail waited => exact ⟨by simp [mail, waited], fun h => absurd rfl h⟩
  | _ => trivial

/-- The caller respects the functions, and frees only threads that are linked in a
scheduling queue. -/
def Call.Linked (k : Kernel) (c : Call) : Prop :=
  c.Sound k ∧ ∀ t, c = .threadFree t → ∃ h, t ∈ k.view.sched h

instance (k : Kernel) (c : Call) : Decidable (c.Linked k) :=
  have : Decidable (∀ t, c = .threadFree t → ∃ h, t ∈ k.view.sched h) :=
    match c with
    | .threadFree t => decidable_of_iff (∃ h, t ∈ k.view.sched h)
        ⟨fun h _ ht => by cases ht; exact h, fun h => h t rfl⟩
    | .procAlloc _ | .procDelete _ | .threadAlloc _ | .threadEnqueue .. | .threadDequeue _
    | .threadOutqueue _ | .msgqAdd .. | .msgqAddHead .. | .msgqGet .. | .msgFree _ => isTrue nofun
  inferInstanceAs (Decidable (_ ∧ _))

/-- After any calls the pools are in order, and every call comes back and fails
exactly when it has to. -/
theorem pools {hw : Hardware} {cs : List Call} {k : Kernel}
    (run : Run (CallStep Call.Linked) (prepared hw) cs k) :
    k.Pooled ∧ ∀ c : Call, c.Linked k → ∃ a k', c.exec k = .ok (a, k') ∧ c.Fails k a k' := by
  have I := intact_of_run (fun _ _ h => h.1) run
  refine ⟨I.pooled, fun c hc => ?_⟩
  obtain ⟨a, k', v', h, E, R'⟩ := I.exec hc.1
  obtain rfl := R'.eq_view
  exact ⟨a, k', h, E.fails⟩

/-- Two generations of processes with a thread, a thread that is freed, and a process that
is deleted and handed out again. -/
def Sample.pooling : List Call :=
  [.procAlloc (some root), .procAlloc (some 1), .threadAlloc (some 2), .threadEnqueue (.thread 0) .readyq,
    .msgqAdd (some (.thread 0)) (some (.thread 0)) (.int 5), .procDelete 2, .procDelete root,
    .threadFree (.thread 0), .msgqGet none (some (.thread 0)) null, .threadFree (.thread 0),
    .procDelete 2, .procAlloc none, .procAlloc (some 1)]

/-- The process that is handed out again is the next free one, under the first one. -/
theorem pools_sample : ∃ k, Run (CallStep Call.Linked) (prepared Sample.hardware) Sample.pooling k ∧
    k.Pooled ∧ (k.pcb 3).pParent = some 1 ∧ k.view.Below 3 root := by
  let check : Kernel → Bool := fun k => (k.pcb 3).pParent = some 1
  have h : (callAll Call.Linked (prepared Sample.hardware) Sample.pooling).any check = true := by
    decide +kernel
  obtain ⟨k, hk, hpar⟩ := Option.any_eq_true _ _ |>.mp h
  have hpar := of_decide_eq_true hpar
  have run := run_of_callAll hk
  obtain ⟨P, _⟩ := pools run
  exact ⟨k, run, P, hpar, P.rooted (Or.inr (by simp [Kernel.view, hpar]))⟩

end MikaBoo
