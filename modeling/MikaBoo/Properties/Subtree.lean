import MikaBoo.Abstract.Casualties

/-!
# The effect of terminating a process

The specification of `terminate_process_s`: what it leaves of the threads, the
processes and the messages.
-/

namespace MikaBoo

open Intrusive Fuel Transition

namespace View

/-- `t` is a thread of `p` or of a descendant of `p`. -/
def Victim (v : View) (p : Pcb) (t : Tcb) : Prop :=
  ∃ q, v.Below q p ∧ (v.tcb t).tPcb = some q

end View

/-- What `terminate_process_s` leaves of the process `p` and its descendants. -/
structure View.Terminated (v : View) (p : Pcb) (v' : View) : Prop where
  /-- The threads are free, with empty queues. -/
  threads : ∀ t, v.Victim p t → v'.Gone t
  /-- The processes are free and cleared, and nobody's children. -/
  processes : ∀ q, v.Below q p → q ≠ root →
    q ∈ v'.procs .free ∧ v'.pcb q = {} ∧ ∀ r, q ∉ v'.procs (.children r)
  /-- The root stays, without threads and children. -/
  rootVacant : p = root → root ∉ v'.procs .free ∧ v'.threads (.of root) = [] ∧
    v'.procs (.children root) = []
  /-- `thread_count` drops by the number of terminated threads. -/
  count : ∃ ts : List Tcb, ts.Nodup ∧ (∀ t, t ∈ ts ↔ v.Victim p t) ∧
    v'.globals.threadCount = v.globals.threadCount - BitVec.ofNat 32 ts.length
  messages : ∀ t m, v.Victim p t → m ∈ v.msgs (.of t) → m ∈ v'.msgs .free
  /-- A survivor that waited for a terminated thread is ready, with the result
  NULL and `errno` 1, and in the ready queue only. -/
  woken : ∀ t u, v.Victim p t → ¬ v.Victim p u → u ∈ v.sched (.tWait4me t) →
    v'.tcb u = View.aborted (v.tcb u) ∧ ∀ h, u ∈ v'.sched h ↔ h = .readyq
  /-- Other survivors are left alone. -/
  others : ∀ u, ¬ v.Victim p u → (∀ t, v.Victim p t → u ∉ v.sched (.tWait4me t)) →
    v'.tcb u = v.tcb u ∧ ∀ h, u ∈ v'.sched h ↔ u ∈ v.sched h
  /-- The invariants that the termination relies on hold again. -/
  invariants : v'.Terminable

namespace View

variable {v v' : View} {a : Option Tcb} {t u : Tcb} {p q : Pcb}

theorem kill_mem_script_iff_victim (T : v.Terminable) :
    (∃ q, .kill t q ∈ v.script MAXPROC p) ↔ v.Victim p t := by
  simp only [kill_mem_script T.tree (T.tree.shallow p), T.owned.owned]
  rfl

theorem orphaned_script_iff (T : v.Terminable) :
    v.Orphaned (v.script MAXPROC p) u ↔ ∃ t, v.Victim p t ∧ u ∈ v.sched (.tWait4me t) := by
  simp only [← kill_mem_script_iff_victim T]
  constructor
  · rintro ⟨t, q, ht, hm⟩
    exact ⟨t, ⟨q, ht⟩, hm⟩
  · rintro ⟨t, ⟨q, ht⟩, hm⟩
    exact ⟨t, q, ht, hm⟩

/-- A run of the script terminates the subtree. -/
theorem Terminated.of_run (T : v.Terminable) (run : Run (ReapStep a) v (v.script MAXPROC p) v') :
    v.Terminated p v' := by
  have hs := T.tree.shallow p
  have T' := T.run run
  have hgone : ∀ t, v.Victim p t → v'.Gone t := by
    intro t ht
    obtain ⟨q, hq⟩ := (kill_mem_script_iff_victim T).mpr ht
    exact gone_of_run run hq
  have hsurv : ∀ u, ¬ v.Victim p u → Survives v v' (v.script MAXPROC p) u := by
    intro u hu
    apply survives_of_run run
    intro q hq
    exact hu ((kill_mem_script_iff_victim T).mp ⟨q, hq⟩)
  have hproc : ∀ q, v.Below q p → q ≠ root → q ∈ v'.procs .free ∧ v'.pcb q = {} :=
    fun q hq hr => orphaned_of_run T run ((orphan_mem_script T.tree hs).mpr ⟨hq, hr⟩)
  refine ⟨hgone, ?_, ?_, ?_, ?_, ?_, ?_, T'⟩
  · intro q hq hr
    obtain ⟨hfree, hclear⟩ := hproc q hq hr
    refine ⟨hfree, hclear, fun r hm => ?_⟩
    have := T'.tree.children.mp hm
    simp [hclear] at this
  · rintro rfl
    refine ⟨fun hm => (T'.tree.free.mp hm).1 rfl, ?_, ?_⟩
    · rw [threads_of_run run, List.filter_eq_nil_iff]
      intro t ht
      simp [kill_mem_script T.tree hs, Forest.Below.refl, ht]
    · rw [children_of_run T run, List.filter_eq_nil_iff]
      intro c hc
      have hcp := T.tree.children.mp hc
      have hb : v.Below c root := (Forest.Below.refl c).child hcp
      simp [orphan_mem_script T.tree hs, hb, T.tree.ne_root_of_child hcp]
  · refine ⟨(v.script MAXPROC p).filterMap Reaping.victim?, nodup_victims run, ?_,
      threadCount_of_run run⟩
    intro t
    rw [← kill_mem_script_iff_victim T, List.mem_filterMap]
    simp [victim?_eq_some]
  · intro t m ht hm
    apply (run_msgs run hm).resolve_left
    simp [(hgone t ht).noMessage]
  · intro t u ht hu hm
    exact (hsurv u hu).woken ((orphaned_script_iff T).mpr ⟨t, ht, hm⟩)
  · intro u hu hw
    apply (hsurv u hu).kept
    rw [orphaned_script_iff T]
    rintro ⟨t, ht, hm⟩
    exact hw t ht hm

end View

/-- `terminate_process_s` for a thread of the process `p` ends and terminates the
subtree of `p`. -/
theorem terminateProcessS_spec {k : Kernel} {v : View} {applicant : Tcb} {p : Pcb}
    (R : Refines k v) (T : v.Terminable) (hp : (k.tcb applicant).tPcb = some p) :
    Returns .unfinished (fun fuel => terminateProcessS fuel k applicant) fun k' =>
      ∃ v', Refines k' v' ∧ v.Terminated p v' := by
  apply (R.terminateProcessS T (by rwa [R.tcb])).mono
  rintro k' ⟨v', R', run⟩
  exact ⟨v', R', .of_run T run⟩

/-- The first thread waits for the thread of another process, which asks for its termination. -/
theorem terminateProcessS_sample : ∃ k : Kernel, k.view.sched (.tWait4me (.thread 1)) = [.thread 0] ∧
    Returns .unfinished (fun fuel => terminateProcessS fuel k (.thread 1)) fun k' =>
      ∃ v', Refines k' v' ∧ k.view.Terminated 1 v' := by
  have h : (execute Regular Sample.hardware 100
      ([.start, .ssi] ++ Sample.service [.int 1, .int 0x200] ++ Sample.request [.int 3] ++
        Sample.recv (some .ssi) [.int 3] ++ Sample.recv (some (.thread 1)) [.int 3])).any (fun k =>
      k.view.sched (.tWait4me (.thread 1)) = [.thread 0] ∧ k.currentThread = some .ssi ∧
        (k.tcb (.thread 1)).tPcb = some 1) = true := by
    decide +kernel
  obtain ⟨k, hk, hprops⟩ := Option.any_eq_true _ _ |>.mp h
  obtain ⟨k₀, hb, run⟩ := run_of_execute hk
  obtain ⟨hwait, hcur, hp⟩ := of_decide_eq_true hprops
  have H := (Good.boot hb).run run
  have I := H.inv
  rw [hcur] at I
  exact ⟨k, hwait, terminateProcessS_spec H.refines I.terminable hp⟩

end MikaBoo
