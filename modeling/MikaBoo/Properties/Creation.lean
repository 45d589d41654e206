import MikaBoo.Abstract.Calls

/-!
# Creation of threads and processes

`create_thread_s` and `create_process_s` either create everything, in the state that
they are asked for, or leave all lists and descriptors as they were.
-/

namespace MikaBoo

open Intrusive Fuel Transition

/-- The lists are in order, and the free descriptors are cleared and in no queue. -/
structure Kernel.Tidy (k : Kernel) : Prop where
  refines : Refines k k.view
  tree : k.view.Tree
  owned : k.view.Owned
  unqueued : ∀ t ∈ k.view.threads .free, ∀ h, t ∉ k.view.sched h
  cleared : ∀ t ∈ k.view.threads .free, k.tcb t = { tS := (k.tcb t).tS }

/-- The free thread `t` has become a thread of `p`, ready to start in the state `s`. -/
structure Kernel.Starts (k : Kernel) (t : Tcb) (p : Pcb) (s : State) (k' : Kernel) : Prop where
  taken : t ∈ k.view.threads .free
  tcb : k'.tcb = Function.update k.tcb t { tPcb := some p, tStatus := .ready, tS := s }
  free : k'.view.threads .free = (k.view.threads .free).erase t
  member : k'.view.threads (.of p) = k.view.threads (.of p) ++ [t]
  others : ∀ q ≠ p, k'.view.threads (.of q) = k.view.threads (.of q)
  sched : k'.view.sched = Function.update k.view.sched .readyq (k.view.sched .readyq ++ [t])
  count : k'.threadCount = k.threadCount + 1
  msgs : k'.view.msgs = k.view.msgs ∧ k'.msg = k.msg

/-- The free process `q` has become a child of `p` without managers. -/
structure Kernel.Adopts (k : Kernel) (q p : Pcb) (k' : Kernel) : Prop where
  taken : q ∈ k.view.procs .free
  pcb : k'.pcb = Function.update k.pcb q { pParent := some p }
  free : k'.view.procs .free = (k.view.procs .free).erase q
  child : k'.view.procs (.children p) = k.view.procs (.children p) ++ [q]
  others : ∀ r ≠ p, k'.view.procs (.children r) = k.view.procs (.children r)

/-- Nothing has been created. -/
structure Kernel.Restored (k k' : Kernel) : Prop where
  free : (k'.view.procs .free).Perm (k.view.procs .free)
  children : ∀ p, k'.view.procs (.children p) = k.view.procs (.children p)
  pcb : k'.pcb = k.pcb
  threads : k'.view.threads = k.view.threads
  sched : k'.view.sched = k.view.sched
  msgs : k'.view.msgs = k.view.msgs ∧ k'.msg = k.msg
  tcb : k'.tcb = k.tcb
  count : k'.threadCount = k.threadCount

/-- A creation from `k` that succeeds when `c` holds and otherwise changes nothing. -/
def Kernel.AllOrNothing (k : Kernel) (c : Prop) (made : Tcb → Kernel → Prop)
    (r : Exec (Option Tcb × Kernel)) : Prop :=
  ∃ o k', r = .ok (o, k') ∧ k'.Tidy ∧ (o ≠ none ↔ c) ∧ (o = none → k.Restored k') ∧
    ∀ t ∈ o, made t k'

namespace Kernel.Tidy

variable {k k' : Kernel} {s : State} {p q : Pcb} {t a : Tcb}

/-- Data of processes may change when the tree stays in order. -/
theorem of_tree {v : View} (T : k.Tidy) (R : Refines k' v) (hT : v.Tree)
    (hthreads : v.threads = k.view.threads) (hsched : v.sched = k.view.sched)
    (htcb : v.tcb = k.view.tcb) : k'.Tidy := by
  have O : v.Owned := T.owned.congr hthreads (fun t => by rw [htcb]) fun t => by rw [htcb]
  have hcleared : ∀ t ∈ v.threads .free, v.tcb t = { tS := (v.tcb t).tS } := by
    rw [hthreads, htcb]
    exact T.cleared
  have hunqueued : ∀ t ∈ v.threads .free, ∀ h, t ∉ v.sched h := by
    rw [hthreads, hsched]
    exact T.unqueued
  obtain rfl := R.eq_view
  exact ⟨R, hT, O, hunqueued, hcleared⟩

/-- What the creation of a thread does to the lists. -/
theorem create (T : k.Tidy) (hp : k.view.Alive p) (ht : t ∈ k.view.threads .free)
    (R : Refines k' (k.view.create t p s)) : k'.Tidy ∧ k.Starts t p s k' := by
  have hne : ∀ u ∈ (k.view.hire t p).threads .free, u ≠ t ∧ u ∈ k.view.threads .free := by
    intro u hu
    simpa using (T.refines.mem_hire ht).mp hu
  have htcb : k'.tcb = Function.update k.tcb t { tPcb := some p, tStatus := .ready, tS := s } := by
    have hclear : k.view.tcb t = { tS := (k.tcb t).tS } := T.cleared t ht
    rw [← R.tcb]
    funext u
    by_cases hu : u = t
    · subst hu
      rw [View.create_tcb_self, Function.update_self, hclear]
    · rw [View.create_tcb_of_ne hu, Function.update_of_ne hu]
      rfl
  have hview := R.eq_view
  have hrest : k'.Tidy := by
    refine ⟨hview ▸ R, hview ▸ T.tree.create hp, hview ▸ T.owned.create T.refines ht, hview ▸ ?_, ?_⟩
    · intro u hu h hq
      obtain ⟨hut, hu⟩ := hne u hu
      rcases View.mem_enqueue.mp hq with hq | ⟨rfl, _⟩
      · exact T.unqueued u hu h hq
      · exact hut rfl
    · intro u hu
      rw [← hview] at hu
      obtain ⟨hut, hu⟩ := hne u hu
      rw [htcb, Function.update_of_ne hut]
      exact T.cleared u hu
  refine ⟨hrest, ht, htcb, ?_, ?_, fun q hq => ?_, ?_, ?_, ?_⟩
  · rw [← hview]
    simp [View.create, View.hire, View.enqueue, View.modTcb, View.addCount]
  · rw [← hview]
    simp [View.create, View.hire, View.enqueue, View.modTcb, View.addCount]
  · rw [← hview]
    simp [View.create, View.hire, View.enqueue, View.modTcb, View.addCount, hq]
  · rw [← hview]
    rfl
  · exact (congrArg Globals.threadCount R.globals).symm
  · rw [← hview]
    exact ⟨rfl, R.msg.symm⟩

/-- What `__create_thread_s` does for a live process. -/
theorem rawCreateThreadS (T : k.Tidy) (hp : k.view.Alive p) (s : State) :
    (k.view.threads .free = [] ∧ MikaBoo.rawCreateThreadS k s (some p) = .ok (none, k)) ∨
      ∃ t k', MikaBoo.rawCreateThreadS k s (some p) = .ok (some t, k') ∧ k'.Tidy ∧
        k.Starts t p s k' ∧ k'.view.procs = k.view.procs ∧ k'.pcb = k.pcb := by
  have R := T.refines
  cases hq : k.view.threads .free with
  | nil =>
      refine Or.inl ⟨rfl, ?_⟩
      simp [MikaBoo.rawCreateThreadS, R.threadAlloc_none (Or.inr hq)]
  | cons t rest =>
      have ht : t ∈ k.view.threads .free := by simp [hq]
      obtain ⟨k₁, hk₁, R₁⟩ := R.threadAlloc_some (p := p) hq
      have R₂ := R₁.modTcb t fun d => { d with tS := s }
      have R₃ := R₂.enqueue (T.unqueued t ht) .readyq
      obtain ⟨k', hk', R'⟩ : ∃ k', MikaBoo.rawCreateThreadS k s (some p) = .ok (some t, k') ∧
          Refines k' (k.view.create t p s) := by
        refine ⟨_, by simp [MikaBoo.rawCreateThreadS, hk₁]; rfl, ?_⟩
        exact R₃.addCount 1
      obtain ⟨T', hs⟩ := T.create hp ht R'
      exact Or.inr ⟨t, k', hk', T', hs, by rw [← R'.eq_view]; rfl, R'.pcb.symm⟩

/-- `proc_delete` after `proc_alloc` gives the process back. -/
theorem undo (T : k.Tidy) (hq : q ∈ k.view.procs .free) (hp : k.view.Alive p) {k₁ : Kernel}
    (R₁ : Refines k₁ (k.view.adopt q p)) :
    (MikaBoo.procDelete k₁ q).2.Tidy ∧ k.Restored (MikaBoo.procDelete k₁ q).2 := by
  obtain ⟨hroot, hnone⟩ := T.tree.free.mp hq
  have hdead := T.tree.not_alive_of_free hq
  have hqp : q ≠ p := fun e => hdead (e ▸ hp)
  have hself : (k.view.adopt q p).pcb q = { k.view.pcb q with pParent := some p } := by
    simp [View.adopt]
  have hchild : q ∈ (k.view.adopt q p).procs (.children p) := by simp [View.adopt]
  have hleaf : (k.view.adopt q p).procs (.children q) = [] := by
    simp [View.adopt, hqp, T.tree.childless hdead]
  have hvacant : (k.view.adopt q p).threads (.of q) = [] := T.owned.vacant T.tree hdead
  obtain ⟨k', hk', R'⟩ := R₁.procDelete_ok hroot (by rw [hself]) hchild hleaf hvacant
  have hpcb : ((k.view.adopt q p).orphan q p).pcb = k.view.pcb := by
    funext r
    by_cases hr : r = q
    · subst hr
      simp [View.orphan, T.tree.cleared hroot hnone]
    · simp [View.orphan, View.adopt, hr]
  have hkids : (k.view.procs (.children p) ++ [q]).erase q = k.view.procs (.children p) := by
    have hoff : q ∉ k.view.procs (.children p) := fun h => by
      cases T.refines.procs.disjoint h hq
    rw [List.erase_append_right _ hoff]
    simp
  have hprocs : ∀ r, ((k.view.adopt q p).orphan q p).procs (.children r) =
      k.view.procs (.children r) := by
    intro r
    by_cases hr : r = p
    · subst hr
      simp [View.orphan, View.adopt, hkids]
    · simp [View.orphan, View.adopt, hr]
  have hfree : ((k.view.adopt q p).orphan q p).procs .free = (k.view.procs .free).erase q ++ [q] := by
    simp [View.orphan, View.adopt]
  have hO : (k.view.adopt q p).Owned := T.owned.congr rfl (fun _ => rfl) fun _ => Iff.rfl
  have hT := (T.tree.adopt T.refines.procs hq hp).orphan R₁.procs (by rw [hself]) hleaf
    (hO.unowned hvacant)
  rw [hk']
  refine ⟨T.of_tree R' hT rfl rfl rfl, ?_⟩
  have hview := R'.eq_view
  refine ⟨?_, ?_, R'.pcb.symm.trans hpcb, ?_, ?_, ?_, R'.tcb.symm, ?_⟩
  · rw [← hview, hfree]
    exact (List.perm_append_singleton q _).trans (List.perm_cons_erase hq).symm
  · rw [← hview]
    exact hprocs
  · rw [← hview]
    rfl
  · rw [← hview]
    rfl
  · rw [← hview]
    exact ⟨rfl, R'.msg.symm⟩
  · exact (congrArg Globals.threadCount R'.globals).symm

end Kernel.Tidy

theorem Kernel.Restored.refl (k : Kernel) : k.Restored k :=
  ⟨.refl _, fun _ => rfl, rfl, rfl, rfl, ⟨rfl, rfl⟩, rfl, rfl⟩

section

variable {k : Kernel} {a : Tcb} {p : Pcb}

theorem createThreadS_spec (T : k.Tidy) (ha : (k.tcb a).tPcb = some p) (s : State) :
    k.AllOrNothing (k.view.threads .free ≠ [])
      (fun t k' => k.Starts t p s k' ∧ k'.view.procs = k.view.procs ∧ k'.pcb = k.pcb)
      (createThreadS k s a) := by
  have hp : k.view.Alive p := T.tree.owner_alive ha
  rw [createThreadS, ha]
  rcases T.rawCreateThreadS hp s with ⟨hnone, hk⟩ | ⟨t, k', hk, T', hs, hprocs, hpcb⟩
  · exact ⟨none, k, hk, T, by simp [hnone], fun _ => .refl k, nofun⟩
  · refine ⟨some t, k', hk, T', iff_of_true nofun ?_, nofun, ?_⟩
    · exact List.ne_nil_of_mem hs.taken
    · rintro _ ⟨⟩
      exact ⟨hs, hprocs, hpcb⟩

/-- What a thread of a process that has just been allocated does to the state before. -/
theorem Kernel.Starts.of_adopt {k₁ k' : Kernel} {q : Pcb} {t : Tcb} {s : State}
    (R₁ : Refines k₁ (k.view.adopt q p)) (h : k₁.Starts t q s k') : k.Starts t q s k' := by
  have hview := R₁.eq_view
  have hthreads : k₁.view.threads = k.view.threads := by rw [← hview]; rfl
  have hsched : k₁.view.sched = k.view.sched := by rw [← hview]; rfl
  have hmsgs : k₁.view.msgs = k.view.msgs := by rw [← hview]; rfl
  have htcb : k₁.tcb = k.tcb := R₁.tcb.symm
  have hmsg : k₁.msg = k.msg := R₁.msg.symm
  have hcount : k₁.threadCount = k.threadCount := (congrArg Globals.threadCount R₁.globals).symm
  refine ⟨hthreads ▸ h.taken, htcb ▸ h.tcb, hthreads ▸ h.free, hthreads ▸ h.member, ?_,
    hsched ▸ h.sched, hcount ▸ h.count, hmsgs ▸ hmsg ▸ h.msgs⟩
  rw [← hthreads]
  exact h.others

theorem createProcessS_spec (T : k.Tidy) (ha : (k.tcb a).tPcb = some p) (s : State) :
    k.AllOrNothing (k.view.procs .free ≠ [] ∧ k.view.threads .free ≠ [])
      (fun t k' => ∃ q, k.Adopts q p k' ∧ k.Starts t q s k') (createProcessS k s a) := by
  have R := T.refines
  have hp : k.view.Alive p := T.tree.owner_alive ha
  cases hfree : k.view.procs .free with
  | nil =>
      refine ⟨none, k, ?_, T, by simp, fun _ => .refl k, by rintro _ ⟨⟩⟩
      simp [createProcessS, R.procAlloc_none (Or.inr hfree)]
  | cons q rest =>
      have hq : q ∈ k.view.procs .free := by simp [hfree]
      obtain ⟨k₁, hk₁, R₁⟩ := R.procAlloc_some p hfree (T.tree.free.mp hq).1
      have T₁ : k₁.Tidy := T.of_tree R₁ (T.tree.adopt R.procs hq hp) rfl rfl rfl
      have hlive : k₁.view.Alive q := by
        rw [← R₁.eq_view]
        exact Or.inr (by simp [View.adopt])
      have hthreads : k₁.view.threads = k.view.threads := by
        rw [← R₁.eq_view]
        rfl
      rcases T₁.rawCreateThreadS hlive s with ⟨hnone, hk⟩ | ⟨t, k', hk, T', hs, hprocs, hpcb⟩
      · obtain ⟨T', hback⟩ := T.undo hq hp R₁
        rw [hthreads] at hnone
        refine ⟨none, _, ?_, T', by simp [hnone], fun _ => hback, by rintro _ ⟨⟩⟩
        simp [createProcessS, ha, hk₁, hk]
      · refine ⟨some t, k', ?_, T', iff_of_true (by rintro ⟨⟩) ⟨by simp, ?_⟩, (by rintro ⟨⟩), ?_⟩
        · simp [createProcessS, ha, hk₁, hk]
        · exact hthreads ▸ List.ne_nil_of_mem hs.taken
        · rintro _ ⟨⟩
          rw [← R₁.eq_view] at hprocs
          refine ⟨q, ⟨hq, ?_, ?_, ?_, fun r hr => ?_⟩, hs.of_adopt R₁⟩
          · have hclear : k.view.pcb q = {} :=
              T.tree.cleared (T.tree.free.mp hq).1 (T.tree.free.mp hq).2
            rw [hpcb, ← R₁.pcb, View.adopt, hclear]
            rfl
          · simp [hprocs, View.adopt]
          · simp [hprocs, View.adopt]
          · simp [hprocs, View.adopt, hr]

/-- Creation succeeds exactly when there are free descriptors, and then creates the
thread and the process in the state asked for; else it leaves everything as it was. -/
theorem creation (T : k.Tidy) (ha : (k.tcb a).tPcb = some p) (s : State) :
    k.AllOrNothing (k.view.threads .free ≠ [])
      (fun t k' => k.Starts t p s k' ∧ k'.view.procs = k.view.procs ∧ k'.pcb = k.pcb)
      (createThreadS k s a) ∧
    k.AllOrNothing (k.view.procs .free ≠ [] ∧ k.view.threads .free ≠ [])
      (fun t k' => ∃ q, k.Adopts q p k' ∧ k.Starts t q s k') (createProcessS k s a) :=
  ⟨createThreadS_spec T ha s, createProcessS_spec T ha s⟩

end

/-- A process with a thread, and a state that the thread asks to start another one in. -/
def Sample.creating : List Call :=
  [.procAlloc (some root), .threadAlloc (some 1), .threadEnqueue (.thread 0) .readyq]

/-- The thread creates a process, its first thread being the next free one. -/
theorem creation_sample : ∃ k k' q,
    Run (CallStep fun k c => c.Sound k) (prepared Sample.hardware) Sample.creating k ∧
    createProcessS k { pc := .int 0x9000 } (.thread 0) = .ok (some (.thread 1), k') ∧
    k.Adopts q 1 k' ∧ k.Starts (.thread 1) q { pc := .int 0x9000 } k' := by
  let check : Kernel → Bool := fun k => (k.tcb (.thread 0)).tPcb = some 1 ∧
    (∀ t ∈ k.view.threads .free, (¬ ∃ h, t ∈ k.view.sched h) ∧ k.tcb t = { tS := (k.tcb t).tS }) ∧
    (createProcessS k { pc := .int 0x9000 } (.thread 0)).toOption.map Prod.fst =
      some (some (.thread 1))
  have h : (callAll (fun k c => c.Sound k) (prepared Sample.hardware) Sample.creating).any check =
      true := by
    decide +kernel
  obtain ⟨k, hk, hprops⟩ := Option.any_eq_true _ _ |>.mp h
  obtain ⟨ha, hclean, hfst⟩ := of_decide_eq_true hprops
  have run := run_of_callAll hk
  have I := intact_of_run (fun _ _ h => h) run
  have T : k.Tidy := ⟨I.refines, I.tree, I.owned, fun t ht => not_exists.mp (hclean t ht).1,
    fun t ht => (hclean t ht).2⟩
  obtain ⟨_, o, k', hok, _, _, _, hmade⟩ := creation T ha { pc := .int 0x9000 }
  rw [hok] at hfst
  obtain rfl : o = some (.thread 1) := Option.some.inj hfst
  obtain ⟨q, hq, hs⟩ := hmade _ rfl
  exact ⟨k, k', q, run, hok, hq, hs⟩

end MikaBoo
