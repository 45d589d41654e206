import MikaBoo.Abstract.Termination
import MikaBoo.Library.Forest
import MikaBoo.Library.Runs

/-!
# Termination of a process subtree

`__terminate_process_s` as a run of steps that each terminate one thread or free
one process. `View.script` is the list of these steps, in the order of the code,
computed from the state before.

## Implementation notes

The results need the process tree, the ownership of threads and `Queued`, and
not the whole kernel invariant.
-/

namespace MikaBoo

open Intrusive Fuel Transition Forest

/-- One step of the termination of a process. -/
inductive Reaping
  /-- The thread `t` of the process `p` is terminated. -/
  | kill (t : Tcb) (p : Pcb)
  | orphan (p : Pcb)
deriving DecidableEq

/-- The thread that a step of a termination frees. -/
def Reaping.victim? : Reaping → Option Tcb
  | .kill t _ => some t
  | .orphan _ => none

/-- Some kernel state realises the view. -/
def Realised (v : View) : Prop := ∃ k, Refines k v

namespace View

/-- Every allocated thread but the SSI is in a scheduling queue, and no free thread is. -/
structure Queued (v : View) : Prop where
  allocated : ∀ {t h}, t ∈ v.sched h → (v.tcb t).tStatus ≠ .none
  somewhere : ∀ {t}, t ≠ .ssi → (v.tcb t).tStatus ≠ .none → ∃ h, t ∈ v.sched h

/-- What a termination relies on. -/
structure Terminable (v : View) : Prop where
  tree : v.Tree
  owned : v.Owned
  queued : v.Queued

/-- `proc_delete` does not free the root. -/
def orphanScript (p : Pcb) : List Reaping := if p = root then [] else [.orphan p]

/-- The steps of `__terminate_process_s(p, ..)`, for `n` levels of processes. -/
def script (v : View) (n : Nat) (p : Pcb) : List Reaping :=
  visit (fun q => v.procs (.children q)) (fun q => (v.threads (.of q)).map (.kill · q))
    orphanScript n p

variable {v v' : View} {t u : Tcb} {p q : Pcb} {h : SchedQueue}

theorem Inv.terminable (I : v.Inv (some .ssi)) : v.Terminable where
  tree := I.tree
  owned := I.owned
  queued := by
    refine ⟨I.scheduled.allocated, ?_⟩
    intro t ht hs
    apply (I.scheduled.somewhere hs).resolve_left
    simpa using Ne.symm ht

end View

/-- The effect of a step, when `applicant` has its process terminated. -/
inductive ReapStep (applicant : Option Tcb) : View → Reaping → View → Prop
  | kill {v t p h} (real : Realised v) (member : t ∈ v.threads (.of p)) (queued : t ∈ v.sched h) :
      ReapStep applicant v (.kill t p) ((v.clean t (v.cleanDest applicant t p)).reap t p h)
  | orphan {v p parent} (real : Realised v) (child : (v.pcb p).pParent = some parent)
      (leaf : v.procs (.children p) = []) (vacant : v.threads (.of p) = []) :
      ReapStep applicant v (.orphan p) (v.orphan p parent)

/-! ## What one step does -/

theorem Realised.clean {v : View} (h : Realised v) (t : Tcb) (d : Option Tcb) :
    Realised (v.clean t d) := by
  obtain ⟨k, R⟩ := h
  obtain ⟨_, k', _, R'⟩ := R.clean (p := null) t d
  exact ⟨k', R'⟩

theorem Realised.abort {v : View} (h : Realised v) (t : Tcb) :
    Realised ((v.drain t).abort t) := by
  obtain ⟨k, R⟩ := h
  obtain ⟨_, k₁, _, R₁⟩ := (R.drainMsgq t).complete
  obtain ⟨_, k₂, _, R₂⟩ := (R₁.abortWaiters t).complete
  exact ⟨k₂, R₂⟩

namespace View

variable {v v' : View} {t u : Tcb} {p q : Pcb} {h h' : SchedQueue}

theorem reap_tcb_self : (v.reap t p h).tcb t = { tS := (((v.drain t).abort t).tcb t).tS } := by
  rw [reap, dismiss_tcb_self]

theorem reap_tcb_of_ne (hu : u ≠ t) :
    (v.reap t p h).tcb u = if u ∈ v.sched (.tWait4me t) then aborted (v.tcb u) else v.tcb u := by
  rw [reap, dismiss_tcb_of_ne hu]
  rfl

theorem reap_owner (hu : u ≠ t) : ((v.reap t p h).tcb u).tPcb = (v.tcb u).tPcb := by
  rw [reap_tcb_of_ne hu]
  split <;> rfl

theorem mem_reap_sched (hr : Realised v) (hs : t ∈ v.sched h) :
    u ∈ (v.reap t p h).sched h' ↔ u ≠ t ∧
      (u ∈ v.sched h' ∧ h' ≠ .tWait4me t ∨ u ∈ v.sched (.tWait4me t) ∧ h' = .readyq) := by
  obtain ⟨k, R⟩ := hr.abort t
  exact (R.mem_outqueue (mem_abort_place hs)).trans (and_congr_right fun _ => mem_abort)

theorem mem_reap_threads (hr : Realised v) (ht : t ∈ v.threads (.of p)) {l : ThreadList} :
    u ∈ (v.reap t p h).threads l ↔ (u ≠ t ∧ u ∈ v.threads l) ∨ (u = t ∧ l = .free) := by
  obtain ⟨k, R⟩ := hr
  exact R.mem_retire ht

theorem Tree.reap (T : v.Tree) : (v.reap t p h).Tree := by
  have hprocs : (v.reap t p h).procs = v.procs := rfl
  apply T.change_owner (t := t) hprocs rfl
  · intro u hu
    exact reap_owner hu
  · intro q hq
    simp [reap_tcb_self] at hq

theorem Owned.ne_ssi (O : v.Owned) (ht : t ∈ v.threads (.of p)) : t ≠ .ssi := by
  rintro rfl
  have := O.owned.mp ht
  simp [O.ssi] at this

/-- The waiters that are woken stay allocated. -/
theorem reap_status (Q : v.Queued) (hu : u ≠ t) :
    ((v.reap t p h).tcb u).tStatus = .none ↔ (v.tcb u).tStatus = .none := by
  rw [reap_tcb_of_ne hu]
  split
  · rename_i hm
    simp [aborted, Q.allocated hm]
  · rfl

theorem Owned.reap (O : v.Owned) (Q : v.Queued) (hr : Realised v) (ht : t ∈ v.threads (.of p)) :
    (v.reap t p h).Owned := by
  apply O.change_one (O.ne_ssi ht)
  · intro u hu l
    simp [mem_reap_threads hr ht, hu]
  · intro u hu
    exact reap_owner hu
  · intro u hu
    exact reap_status Q hu
  · simp [mem_reap_threads hr ht, reap_tcb_self]
  · intro q
    simp [mem_reap_threads hr ht, reap_tcb_self]
  · simp [reap_tcb_self]

theorem Queued.reap (Q : v.Queued) (hr : Realised v) (hs : t ∈ v.sched h) :
    (v.reap t p h).Queued := by
  constructor
  · intro u h' hu
    obtain ⟨hut, hu⟩ := (mem_reap_sched hr hs).mp hu
    rw [Ne, reap_status Q hut]
    exact hu.elim (fun hm => Q.allocated hm.1) fun hm => Q.allocated hm.1
  · intro u hssi hu
    by_cases hut : u = t
    · subst hut
      simp [reap_tcb_self] at hu
    · rw [Ne, reap_status Q hut] at hu
      obtain ⟨h', hm⟩ := Q.somewhere hssi hu
      by_cases hw : h' = .tWait4me t
      · subst hw
        exact ⟨.readyq, (mem_reap_sched hr hs).mpr ⟨hut, Or.inr ⟨hm, rfl⟩⟩⟩
      · exact ⟨h', (mem_reap_sched hr hs).mpr ⟨hut, Or.inl ⟨hm, hw⟩⟩⟩

theorem Terminable.clean (T : v.Terminable) (t : Tcb) (d : Option Tcb) :
    (v.clean t d).Terminable where
  tree := T.tree.congr rfl rfl fun _ => rfl
  owned := T.owned.congr rfl (fun _ => rfl) fun _ => Iff.rfl
  queued := ⟨T.queued.allocated, T.queued.somewhere⟩

theorem Inv.reap {r : Option Tcb} (I : v.Inv r) (hr : Realised v) (ht : t ∈ v.threads (.of p))
    (hs : t ∈ v.sched h) : (v.reap t p h).Inv r := by
  obtain ⟨k, R⟩ := hr
  obtain ⟨_, k₁, _, R₁⟩ := (R.drainMsgq t).complete
  obtain ⟨_, k₂, _, R₂⟩ := (R₁.abortWaiters t).complete
  have I₂ := (I.drain R t).abort R₁ t
  exact I₂.dismiss R₂ ht (mem_abort_place hs) (by simp [View.abort, View.drain])

/-- Every step keeps the whole invariant. -/
theorem Inv.reapStep {r a : Option Tcb} {e : Reaping} (I : v.Inv r) (s : ReapStep a v e v') :
    v'.Inv r := by
  cases s with
  | @kill t p h hr ht hs =>
      obtain ⟨k, R⟩ := hr
      exact (I.clean R t (v.cleanDest a t p)).reap (Realised.clean ⟨k, R⟩ t _) ht hs
  | orphan hr hpar hc ht =>
      obtain ⟨k, R⟩ := hr
      exact I.orphan R hpar hc ht

/-- Every step leaves a state in which termination can go on. -/
theorem Terminable.step {a : Option Tcb} {e : Reaping} (T : v.Terminable) (s : ReapStep a v e v') :
    v'.Terminable := by
  cases s with
  | @kill t p h hr ht hs =>
      have T' := T.clean t (v.cleanDest a t p)
      have hr' := hr.clean t (v.cleanDest a t p)
      exact ⟨T'.tree.reap, T'.owned.reap T'.queued hr' ht, T'.queued.reap hr' hs⟩
  | orphan hr hpar hc ht =>
      obtain ⟨k, R⟩ := hr
      exact ⟨T.tree.orphan R.procs hpar hc (T.owned.unowned ht),
        T.owned.congr rfl (fun _ => rfl) fun _ => Iff.rfl,
        ⟨T.queued.allocated, T.queued.somewhere⟩⟩

end View

/-! ## What a run leaves -/

section run

variable {v v' : View} {a : Option Tcb} {es : List Reaping} {p q : Pcb}

theorem ReapStep.threads {e : Reaping} (s : ReapStep a v e v') (q : Pcb) :
    v'.threads (.of q) = (v.threads (.of q)).filter fun t => .kill t q ≠ e := by
  cases s with
  | @kill t p h hr ht hs =>
      obtain ⟨k, R⟩ := hr
      have hth : ∀ w : View, (w.reap t p h).threads (.of q) =
          Function.update w.threads (.of p) ((w.threads (.of p)).erase t) (.of q) := by
        intro w
        simp [View.reap, View.dismiss, View.retire, View.addCount, View.outqueue, View.abort,
          View.drain]
      rw [hth]
      change Function.update v.threads (.of p) ((v.threads (.of p)).erase t) (.of q) = _
      by_cases hq : q = p
      · subst hq
        simp [(R.threads.nodup (.of q)).erase_eq_filter, bne, beq_eq_decide]
      · have hn : ∀ u, Reaping.kill u q ≠ .kill t p := by
          intro u hu
          cases hu
          exact hq rfl
        simp [hn, hq]
  | orphan => simp [View.orphan]

theorem ReapStep.children {e : Reaping} (s : ReapStep a v e v') (T : v.Tree) (q : Pcb) :
    v'.procs (.children q) = (v.procs (.children q)).filter fun c => .orphan c ≠ e := by
  cases s with
  | kill =>
      change v.procs (.children q) = _
      simp
  | @orphan p parent hr hpar hc ht =>
      obtain ⟨k, R⟩ := hr
      by_cases hq : q = parent
      · subst hq
        simp [View.orphan, (R.procs.nodup (.children q)).erase_eq_filter, bne, beq_eq_decide]
      · have hn : ∀ c ∈ v.procs (.children q), c ≠ p := by
          rintro c hm rfl
          rw [T.children.mp hm] at hpar
          exact hq (Option.some.inj hpar)
        symm
        simpa [View.orphan, hq] using hn

theorem ReapStep.pcb {e : Reaping} (s : ReapStep a v e v') (hq : e ≠ .orphan q) :
    v'.pcb q = v.pcb q := by
  cases s with
  | kill => rfl
  | @orphan p parent =>
      have hqp : q ≠ p := fun h => hq (h ▸ rfl)
      simp [View.orphan, hqp]

/-- A step on behalf of nobody is a step on behalf of any thread that it does not kill. -/
theorem ReapStep.of_none {e : Reaping} (s : ReapStep none v e v')
    (ha : ∀ t q, e = .kill t q → some t ≠ a) : ReapStep a v e v' := by
  cases s with
  | @kill t p h hr ht hs =>
      have hd : v.cleanDest none t p = v.cleanDest a t p := by
        simp [View.cleanDest, ha t p rfl]
      rw [hd]
      exact .kill hr ht hs
  | orphan hr hpar hc ht => exact .orphan hr hpar hc ht

theorem View.Terminable.run (T : v.Terminable) (run : Run (ReapStep a) v es v') : v'.Terminable :=
  run.invariant (fun _ _ _ T s => T.step s) T

theorem threads_of_run (run : Run (ReapStep a) v es v') (q : Pcb) :
    v'.threads (.of q) = (v.threads (.of q)).filter fun t => .kill t q ∉ es := by
  induction run with
  | nil => simp
  | snoc _ last ih =>
      rw [last.threads, ih, List.filter_filter]
      apply List.filter_congr
      intro t _
      simp [and_comm]

theorem children_of_run (T : v.Terminable) (run : Run (ReapStep a) v es v') (q : Pcb) :
    v'.procs (.children q) = (v.procs (.children q)).filter fun c => .orphan c ∉ es := by
  induction run with
  | nil => simp
  | snoc run last ih =>
      rw [last.children (T.run run).tree, ih, List.filter_filter]
      apply List.filter_congr
      intro t _
      simp [and_comm]

theorem pcb_of_run (run : Run (ReapStep a) v es v') (hq : .orphan q ∉ es) :
    v'.pcb q = v.pcb q := by
  induction run with
  | nil => rfl
  | snoc _ last ih =>
      simp only [List.mem_append, List.mem_singleton, not_or] at hq
      rw [last.pcb (Ne.symm hq.2), ih hq.1]

end run

/-! ## The script -/

section script

variable {v v' : View} {a : Option Tcb} {es : List Reaping} {n : Nat} {p q c c' : Pcb} {t : Tcb}

/-- The subtree of `p` has at most `n` levels. -/
abbrev View.Shallow (v : View) (n : Nat) (p : Pcb) : Prop :=
  Forest.Shallow (fun q => v.procs (.children q)) n p

/-- `q` is `p` or a descendant of `p`. -/
abbrev View.Below (v : View) (q p : Pcb) : Prop :=
  Forest.Below (fun c => (v.pcb c).pParent) q p

theorem View.Tree.shallow (T : v.Tree) (p : Pcb) : v.Shallow MAXPROC p := by
  have h : Forest.Shallow (fun q => v.procs (.children q)) (Fintype.card Pcb) p :=
    shallow_card T.wellFounded (fun hc => T.children.mp hc) p
  rwa [Fintype.card_fin] at h

theorem View.Tree.ne_root_of_child (T : v.Tree) (hc : (v.pcb c).pParent = some p) : c ≠ root := by
  rintro rfl
  rw [T.root_parent] at hc
  cases hc

theorem kill_mem_script (T : v.Tree) (hs : v.Shallow n p) :
    .kill t q ∈ v.script n p ↔ v.Below q p ∧ t ∈ v.threads (.of q) := by
  have hn : ∀ r, Reaping.kill t q ∉ View.orphanScript r := by
    intro r
    unfold View.orphanScript
    split <;> simp
  rw [View.script, mem_visit (fun c => (v.pcb c).pParent) T.children hs]
  constructor
  · rintro ⟨r, hr, h | h⟩
    · obtain ⟨u, hu, he⟩ := List.mem_map.mp h
      cases he
      exact ⟨hr, hu⟩
    · exact absurd h (hn r)
  · rintro ⟨hq, ht⟩
    exact ⟨q, hq, Or.inl (List.mem_map.mpr ⟨t, ht, rfl⟩)⟩

theorem orphan_mem_script (T : v.Tree) (hs : v.Shallow n p) :
    .orphan q ∈ v.script n p ↔ v.Below q p ∧ q ≠ root := by
  rw [View.script, mem_visit (fun c => (v.pcb c).pParent) T.children hs]
  constructor
  · rintro ⟨r, hr, h | h⟩
    · simp at h
    · by_cases hr' : r = root
      · simp [View.orphanScript, hr'] at h
      · simp only [View.orphanScript, hr', if_false, List.mem_singleton] at h
        cases h
        exact ⟨hr, hr'⟩
  · rintro ⟨hq, hr⟩
    exact ⟨q, hq, Or.inr (by simp [View.orphanScript, hr])⟩

/-- The termination of a subtree leaves the subtree of a sibling alone. -/
theorem script_sibling {m : Nat} (T : v.Terminable) (hs : v.Shallow n c)
    (run : Run (ReapStep a) v (v.script n c) v')
    (hc : (v.pcb c).pParent = some p) (hc' : (v.pcb c').pParent = some p) (hne : c ≠ c') :
    v'.script m c' = v.script m c' ∧ (v.Shallow m c' → v'.Shallow m c') := by
  have hch : ∀ q, v.Below q c' → v'.procs (.children q) = v.procs (.children q) := by
    intro q hq
    rw [children_of_run T run, List.filter_eq_self]
    intro r hr
    have hrq := T.tree.children.mp hr
    have hrc : ¬ v.Below r c := fun h =>
      not_below_sibling T.tree.wellFounded hc hc' hne h
        (Relation.ReflTransGen.head hrq hq)
    simp [orphan_mem_script T.tree hs, hrc]
  have hth : ∀ q, v.Below q c' → v'.threads (.of q) = v.threads (.of q) := by
    intro q hq
    rw [threads_of_run run, List.filter_eq_self]
    intro t _
    have hqc : ¬ v.Below q c := fun h => not_below_sibling T.tree.wellFounded hc hc' hne h hq
    simp [kill_mem_script T.tree hs, hqc]
  constructor
  · apply visit_congr (fun c => (v.pcb c).pParent) (fun h => T.tree.children.mp h)
    intro q hq
    exact ⟨hch q hq, by rw [hth q hq], rfl⟩
  · exact Shallow.congr (fun c => (v.pcb c).pParent)
      (fun h => T.tree.children.mp h) hch

end script

/-! ## The code runs the script -/

namespace Refines

variable {k : Kernel} {v : View} {a : Option Tcb} {p : Pcb}

/-- One round of the first loop of `__terminate_process_s`. -/
theorem cleanFor {t : Tcb} (R : Refines k v) (hp : (v.tcb t).tPcb = some p) :
    ∃ k', (some t ≠ a ∧ (k.tcb t).tStatus = .w4msg → MikaBoo.cleanSysMsg k t = .ok k') ∧
      (¬ (some t ≠ a ∧ (k.tcb t).tStatus = .w4msg) → k' = k) ∧
      Refines k' (v.clean t (v.cleanDest a t p)) := by
  simp only [← R.tcb, View.cleanDest]
  by_cases hg : some t ≠ a ∧ (v.tcb t).tStatus = .w4msg
  · obtain ⟨k', hk', R'⟩ := R.cleanSysMsg hp
    exact ⟨k', fun _ => hk', fun h => absurd hg h, by rwa [if_pos hg]⟩
  · exact ⟨k, fun h => absurd h hg, fun _ => rfl, by rwa [if_neg hg]⟩

/-- The first loop of `__terminate_process_s`. -/
theorem terminateThreads (R : Refines k v) (T : v.Terminable) (p : Pcb) (a : Option Tcb) :
    Returns .unfinished (fun f => MikaBoo.terminateThreads f k p a) fun k' =>
      ∃ v', Refines k' v' ∧ Run (ReapStep a) v ((v.threads (.of p)).map (.kill · p)) v' := by
  induction hq : v.threads (.of p) generalizing k v with
  | nil =>
      apply Returns.round (f := fun _ => .ok k) (by rfl)
      · intro n
        simp [MikaBoo.terminateThreads, R.procFirstthread, hq]
      · exact Returns.of_ok ⟨v, R, .nil⟩ fun _ => rfl
  | cons t ts ih =>
      have ht : t ∈ v.threads (.of p) := by simp [hq]
      have hown := T.owned.owned.mp ht
      have hssi := T.owned.ne_ssi ht
      have hst : (v.tcb t).tStatus ≠ .none := by
        rw [Ne, T.owned.status, hown]
        simp
      obtain ⟨h, hs⟩ := T.queued.somewhere hssi hst
      obtain ⟨k₁, hyes, hno, R₁⟩ := R.cleanFor (a := a) hown
      have hstep : ReapStep a v (.kill t p) _ := .kill ⟨k, R⟩ ht hs
      apply Returns.round (f := fun n => MikaBoo.rawTerminateThreadS n k₁ t >>= fun k =>
        MikaBoo.terminateThreads n k p a) (by rfl)
      · intro n
        simp only [MikaBoo.terminateThreads, R.procFirstthread, hq, List.head?_cons, ok_bind]
        split
        · rename_i hg
          rw [hyes hg, ok_bind]
        · rename_i hg
          rw [hno hg]
      · apply (R₁.rawTerminateThreadS (p := p) ht hs).bind
        intro k₂ R₂
        have hts : ((v.clean t (v.cleanDest a t p)).reap t p h).threads (.of p) = ts := by
          simp [View.reap, View.dismiss, View.retire, View.addCount, View.outqueue, View.abort,
            View.drain, View.clean, hq]
        apply (ih R₂ (T.step hstep) hts).mono
        rintro k' ⟨v', R', run⟩
        exact ⟨v', R', run.cons hstep⟩

/-- The second loop of `__terminate_process_s`, given that the recursive calls run
their scripts. -/
theorem terminateChildren {n : Nat} (R : Refines k v) (T : v.Terminable) (p : Pcb)
    (hrec : ∀ {k v c}, Refines k v → v.Terminable → v.Shallow n c → v.Alive c →
      Returns .unfinished (fun f => MikaBoo.rawTerminateProcessS f k c none) fun k' =>
        ∃ v', Refines k' v' ∧ Run (ReapStep none) v (v.script n c) v')
    (hs : ∀ c ∈ v.procs (.children p), v.Shallow n c) :
    Returns .unfinished (fun f => MikaBoo.terminateChildren f k p) fun k' =>
      ∃ v', Refines k' v' ∧
        Run (ReapStep none) v ((v.procs (.children p)).flatMap (v.script n)) v' := by
  induction hq : v.procs (.children p) generalizing k v with
  | nil =>
      apply Returns.round (f := fun _ => .ok k) (by rfl)
      · intro f
        simp [MikaBoo.terminateChildren, R.procFirstchild, hq]
      · exact Returns.of_ok ⟨v, R, .nil⟩ fun _ => rfl
  | cons c cs ih =>
      have hparent : ∀ c' ∈ c :: cs, (v.pcb c').pParent = some p := by
        intro c' hm
        exact T.tree.children.mp (by rwa [hq])
      have hpar := hparent c List.mem_cons_self
      have hsc : v.Shallow n c := hs c (by simp [hq])
      have hnd : c ∉ cs := (List.nodup_cons.mp (hq ▸ R.procs.nodup (.children p))).1
      apply Returns.round (f := fun f => MikaBoo.rawTerminateProcessS f k c none >>= fun k =>
        MikaBoo.terminateChildren f k p) (by rfl)
      · intro f
        simp [MikaBoo.terminateChildren, R.procFirstchild, hq]
      · apply (hrec R T hsc (Or.inr (by simp [hpar]))).bind
        rintro k₁ ⟨v₁, R₁, run₁⟩
        have hsib : ∀ c' ∈ cs, v₁.script n c' = v.script n c' ∧
            (v.Shallow n c' → v₁.Shallow n c') := by
          intro c' hc'
          apply script_sibling T hsc run₁ hpar (hparent c' (by simp [hc']))
          rintro rfl
          exact hnd hc'
        have hcs : v₁.procs (.children p) = cs := by
          have hkeep : ∀ c' ∈ cs, .orphan c' ∉ v.script n c := by
            intro c' hc' hm
            have hb := ((orphan_mem_script T.tree hsc).mp hm).1
            apply not_below_sibling T.tree.wellFounded hpar (hparent c' (by simp [hc'])) _ hb
              (Below.refl c')
            rintro rfl
            exact hnd hc'
          have hgone : .orphan c ∈ v.script n c :=
            (orphan_mem_script T.tree hsc).mpr ⟨Below.refl c, T.tree.ne_root_of_child hpar⟩
          rw [children_of_run T run₁, hq, List.filter_cons_of_neg (by simpa using hgone)]
          exact List.filter_eq_self.mpr fun c' hc' => by simpa using hkeep c' hc'
        have hs₁ : ∀ c' ∈ v₁.procs (.children p), v₁.Shallow n c' := by
          intro c' hc'
          rw [hcs] at hc'
          exact (hsib c' hc').2 (hs c' (by simp [hq, hc']))
        apply (ih R₁ (T.run run₁) hs₁ hcs).mono
        rintro k' ⟨v', R', run₂⟩
        have hflat : cs.flatMap (v₁.script n) = cs.flatMap (v.script n) :=
          List.flatMap_congr fun c' hc' => (hsib c' hc').1
        rw [hflat] at run₂
        exact ⟨v', R', run₁.append run₂⟩

/-- `__terminate_process_s` ends, and what it does is the script. -/
theorem rawTerminateProcessS {n : Nat} (R : Refines k v) (T : v.Terminable) (hs : v.Shallow n p)
    (hp : v.Alive p) (ha : ∀ t, a = some t → (v.tcb t).tPcb = some p) :
    Returns .unfinished (fun f => MikaBoo.rawTerminateProcessS f k p a) fun k' =>
      ∃ v', Refines k' v' ∧ Run (ReapStep a) v (v.script n p) v' := by
  induction n generalizing k v p a with
  | zero => exact hs.elim
  | succ n ih =>
      have hwf := T.tree.wellFounded
      apply Returns.round (f := fun f => MikaBoo.terminateThreads f k p a >>= fun k =>
        MikaBoo.terminateChildren f k p >>= fun k => .ok (procDelete k p).2) (by rfl)
      · intro f
        rfl
      apply (R.terminateThreads T p a).bind
      rintro k₁ ⟨v₁, R₁, run₁⟩
      have T₁ := T.run run₁
      have hch₁ : ∀ q, v₁.procs (.children q) = v.procs (.children q) := by
        intro q
        rw [children_of_run T run₁, List.filter_eq_self]
        simp
      have hth₁ : ∀ q, q ≠ p → v₁.threads (.of q) = v.threads (.of q) := by
        intro q hq
        rw [threads_of_run run₁, List.filter_eq_self]
        intro t _
        have hn : ∀ u, Reaping.kill u p ≠ .kill t q := by
          intro u hu
          cases hu
          exact hq rfl
        simp [hn]
      have hscript : ∀ c ∈ v.procs (.children p), v₁.script n c = v.script n c := by
        intro c hc
        apply visit_congr (fun c => (v.pcb c).pParent) (fun h => T.tree.children.mp h)
        intro q hq
        have hqp : q ≠ p := by
          rintro rfl
          exact not_below_of_parent hwf (T.tree.children.mp hc) hq
        exact ⟨hch₁ q, by rw [hth₁ q hqp], rfl⟩
      have hs₁ : ∀ c ∈ v₁.procs (.children p), v₁.Shallow n c := by
        intro c hc
        rw [hch₁] at hc
        exact Shallow.congr (fun c => (v.pcb c).pParent)
          (fun h => T.tree.children.mp h) (fun q _ => hch₁ q) (hs c hc)
      apply (R₁.terminateChildren T₁ p
        (fun R T hs hp => ih R T hs hp (by simp)) hs₁).bind
      rintro k₂ ⟨v₂, R₂, run₂⟩
      have hflat : (v₁.procs (.children p)).flatMap (v₁.script n) =
          (v.procs (.children p)).flatMap (v.script n) := by
        rw [hch₁]
        exact List.flatMap_congr hscript
      rw [hflat] at run₂
      -- the subtrees of the children do not contain the applicant
      have hbelow : ∀ {c e}, c ∈ v.procs (.children p) → e ∈ v.script n c →
          e ≠ .orphan p ∧ ∀ t q, e = .kill t q → some t ≠ a := by
        intro c e hc he
        have hcp := T.tree.children.mp hc
        constructor
        · rintro rfl
          exact not_below_of_parent hwf hcp ((orphan_mem_script T.tree (hs c hc)).mp he).1
        · rintro t q rfl hta
          obtain ⟨hq, ht⟩ := (kill_mem_script T.tree (hs c hc)).mp he
          obtain rfl := Option.some.inj ((T.owned.owned.mp ht).symm.trans (ha t hta.symm))
          exact not_below_of_parent hwf hcp hq
      have run₂' : Run (ReapStep a) v₁ _ v₂ := run₂.mono_of_mem fun _ _ e he s =>
        s.of_none (by
          obtain ⟨c, hc, he⟩ := List.mem_flatMap.mp he
          exact (hbelow hc he).2)
      have run₁₂ := run₁.append run₂'
      have T₂ := T.run run₁₂
      have hc₂ : v₂.procs (.children p) = [] := by
        rw [children_of_run T run₁₂, List.filter_eq_nil_iff]
        intro c hc
        have hcp := T.tree.children.mp hc
        have hm : .orphan c ∈ v.script n c :=
          (orphan_mem_script T.tree (hs c hc)).mpr ⟨Below.refl c, T.tree.ne_root_of_child hcp⟩
        have : .orphan c ∈ (v.procs (.children p)).flatMap (v.script n) :=
          List.mem_flatMap.mpr ⟨c, hc, hm⟩
        simp [this]
      have ht₂ : v₂.threads (.of p) = [] := by
        rw [threads_of_run run₁₂, List.filter_eq_nil_iff]
        intro t ht
        simp [ht]
      have hpcb : v₂.pcb p = v.pcb p := by
        apply pcb_of_run run₁₂
        simp only [List.mem_append, List.mem_map, reduceCtorEq, and_false, exists_false, false_or]
        intro he
        obtain ⟨c, hc, he⟩ := List.mem_flatMap.mp he
        exact (hbelow hc he).1 rfl
      have hfull : v.script (n + 1) p = (v.threads (.of p)).map (.kill · p) ++
          (v.procs (.children p)).flatMap (v.script n) ++ View.orphanScript p := rfl
      rw [hfull]
      by_cases hroot : p = root
      · have hdel := R₂.procDelete_fail (p := p) (Or.inl (by rw [hroot, T₂.tree.root_parent]))
        refine Returns.of_ok ⟨v₂, R₂, ?_⟩ fun _ => by rw [hdel]
        simpa [View.orphanScript, hroot] using run₁₂
      · cases hpar : (v.pcb p).pParent with
        | none => exact absurd hpar (hp.resolve_left hroot)
        | some parent =>
            have hpar₂ : (v₂.pcb p).pParent = some parent := by rw [hpcb, hpar]
            obtain ⟨k₃, hdel, R₃⟩ := R₂.procDelete_ok hroot hpar₂ (T₂.tree.children.mpr hpar₂)
              hc₂ ht₂
            refine Returns.of_ok ⟨_, R₃, ?_⟩ fun _ => by rw [hdel]
            simpa [View.orphanScript, hroot] using
              run₁₂.snoc (.orphan ⟨k₂, R₂⟩ hpar₂ hc₂ ht₂)

/-- `terminate_process_s` for a thread of the process `p`. -/
theorem terminateProcessS {t : Tcb} (R : Refines k v) (T : v.Terminable)
    (ht : (v.tcb t).tPcb = some p) :
    Returns .unfinished (fun f => MikaBoo.terminateProcessS f k t) fun k' =>
      ∃ v', Refines k' v' ∧ Run (ReapStep (some t)) v (v.script MAXPROC p) v' := by
  have hk : (k.tcb t).tPcb = some p := by rw [← R.tcb, ht]
  simp only [MikaBoo.terminateProcessS, hk]
  apply R.rawTerminateProcessS T (T.tree.shallow p) (T.tree.owner_alive ht)
  rintro u hu
  cases hu
  exact ht

end Refines

end MikaBoo
