import MikaBoo.Abstract.Casualties
import MikaBoo.Properties.Messages

/-!
# Messages of terminated threads

A termination frees the messages in the queues of its victims, and at most one message
of each victim elsewhere: the one that `clean_sys_msg` takes. The others stay.
-/

namespace MikaBoo

open Intrusive Fuel Transition

namespace Kernel

/-- The queue in which `clean_sys_msg` looks for a message of `t` when the event terminates `t`.
A thread that waits for one terminated before it has been woken by then. -/
def cleaned (k : Kernel) (e : Event) (t : Tcb) : Option Tcb :=
  if ∃ m ∈ (k.casualties e).takeWhile (· ≠ t), (k.tcb t).tWait4sender = some m then none
  else (k.tcb t).tPcb.bind fun p => k.view.cleanDest k.applicant t p

/-- The messages of `t` that are left in the queue of `d` when the event terminates `t`. -/
def leftover (k : Kernel) (e : Event) (t d : Tcb) : List Value :=
  if k.cleaned e t = some d then (k.view.pending t d).tail else k.view.pending t d

end Kernel

theorem filter_eraseP_self {A : Type} (p : A → Bool) (l : List A) :
    (l.eraseP p).filter p = (l.filter p).tail := by
  induction l with
  | nil => rfl
  | cons a l ih =>
      by_cases ha : p a
      · simp [ha]
      · simp [ha, ih]

theorem filter_eraseP_of_disjoint {A : Type} {p q : A → Bool} (h : ∀ a, p a → ¬ q a)
    (l : List A) : (l.eraseP p).filter q = l.filter q := by
  induction l with
  | nil => rfl
  | cons a l ih =>
      by_cases ha : p a
      · simp [ha, h a ha]
      · simp [ha, List.filter_cons, ih]

namespace View

variable {v v₁ v' : View} {s t u d : Tcb} {p : Pcb} {h : SchedQueue} {a : Option Tcb}
  {e : Reaping} {es es₁ es₂ : List Reaping}

theorem pending_clean (hr : Realised v) {dest : Option Tcb} :
    (v.clean u dest).pending t d =
      if t = u ∧ dest = some d then (v.pending t d).tail else v.pending t d := by
  rw [pending, mailbox_clean hr, pending]
  by_cases hd : dest = some d
  · rw [if_pos hd]
    by_cases htu : t = u
    · subst htu
      have hel : MsgT.eligible (some t) = fun e => decide (e.mSender = some t) := by
        funext e
        simp [MsgT.eligible]
      rw [if_pos ⟨rfl, hd⟩, hel, filter_eraseP_self, List.map_tail]
    · rw [if_neg fun h => htu h.1, filter_eraseP_of_disjoint]
      intro e he hs
      simp only [MsgT.eligible, decide_eq_true_eq] at he hs
      simp [hs, htu] at he
  · rw [if_neg hd, if_neg fun h => hd h.2]

/-- The termination of `u` takes at most one message from the queue of another thread. -/
theorem pending_kill (s : ReapStep a v (.kill u p) v') (hd : d ≠ u) :
    v'.pending t d = if t = u ∧ v.cleanDest a u p = some d then (v.pending t d).tail
      else v.pending t d := by
  cases s with
  | kill hr ht hs =>
      rw [← pending_clean hr, pending, mailbox_reap_of_ne (hr.clean u _) hd]
      rfl

theorem pending_step (s : ReapStep a v e v') (hd : ∀ q, e ≠ .kill d q)
    (ht : ∀ q, e ≠ .kill t q) : v'.pending t d = v.pending t d := by
  cases e with
  | orphan p =>
      cases s
      rfl
  | kill u p =>
      have hdu : d ≠ u := by
        rintro rfl
        exact hd p rfl
      have htu : t ≠ u := by
        rintro rfl
        exact ht p rfl
      rw [pending_kill s hdu, if_neg fun h => htu h.1]

/-- Only the termination of the sender or of the receiver takes messages away. -/
theorem pending_of_run (run : Run (ReapStep a) v es v') (hd : ∀ q, .kill d q ∉ es)
    (ht : ∀ q, .kill t q ∉ es) : v'.pending t d = v.pending t d := by
  induction run with
  | nil => rfl
  | snoc _ last ih =>
      simp only [List.mem_append, List.mem_singleton, not_or] at hd ht
      rw [pending_step last (fun q => Ne.symm (hd q).2) (fun q => Ne.symm (ht q).2),
        ih (fun q => (hd q).1) fun q => (ht q).1]

/-- A deleted process has no threads, and gets none. -/
theorem orphan_notMem (run : Run (ReapStep a) v es v₁) (ht : t ∈ v₁.threads (.of p)) :
    .orphan p ∉ es := by
  induction run with
  | nil => simp
  | @snoc _ _ es e run last ih =>
      rw [last.threads] at ht
      rw [List.mem_append, List.mem_singleton]
      rintro (hp | rfl)
      · exact ih (List.mem_of_mem_filter ht) hp
      · cases last with
        | orphan _ _ _ vacant => simp [vacant] at ht

/-- A thread that has been woken sends no request any more; the others are as they were. -/
theorem cleanDest_of_run (run : Run (ReapStep a) v es v₁) (ht : ∀ q, .kill t q ∉ es)
    (hp : .orphan p ∉ es) :
    (v.Orphaned es t → v₁.cleanDest a t p = none) ∧
      (¬ v.Orphaned es t → v₁.cleanDest a t p = v.cleanDest a t p) := by
  have S := survives_of_run run ht
  constructor
  · intro ho
    have hstatus : (v₁.tcb t).tStatus = .ready := by
      rw [(S.woken ho).1]
      rfl
    simp [cleanDest, hstatus]
  · intro ho
    rw [cleanDest, cleanDest, cleanTarget, cleanTarget, (S.kept ho).1, pcb_of_run run hp]

/-- A run of terminations that frees `t`, cut where it does. -/
theorem cut_of_kill (run : Run (ReapStep a) v es v') (ht : t ∈ es.filterMap Reaping.victim?) :
    ∃ p es₁ es₂ v₁ v₂, es = es₁ ++ .kill t p :: es₂ ∧ (∀ q, .kill t q ∉ es₁ ∧ .kill t q ∉ es₂) ∧
      Run (ReapStep a) v es₁ v₁ ∧ ReapStep a v₁ (.kill t p) v₂ ∧ Run (ReapStep a) v₂ es₂ v' := by
  obtain ⟨e, he, het⟩ := List.mem_filterMap.mp ht
  obtain ⟨p, rfl⟩ := victim?_eq_some.mp het
  obtain ⟨es₁, es₂, rfl⟩ := List.append_of_mem he
  have hnodup := nodup_victims run
  have hvictim : ∀ {q} {fs : List Reaping}, .kill t q ∈ fs → t ∈ fs.filterMap Reaping.victim? :=
    fun h => List.mem_filterMap.mpr ⟨_, h, rfl⟩
  obtain ⟨v₁, run₁, rest⟩ := run.split
  obtain ⟨v₂, one, run₂⟩ : ∃ v₂, Run (ReapStep a) v₁ [.kill t p] v₂ ∧ Run (ReapStep a) v₂ es₂ v' :=
    rest.split
  refine ⟨p, es₁, es₂, v₁, v₂, rfl, fun q => ?_, run₁, one.of_single, run₂⟩
  rw [List.filterMap_append, List.filterMap_cons] at hnodup
  change (_ ++ t :: _).Nodup at hnodup
  rw [List.nodup_append, List.nodup_cons] at hnodup
  obtain ⟨_, ⟨h₂, _⟩, h₁⟩ := hnodup
  exact ⟨fun h => h₁ t (hvictim h) t (by simp) rfl, fun h => h₂ (hvictim h)⟩

end View

/-! ## Steps -/

namespace Good

variable {k k' : Kernel} {e : Event} {fuel : Nat} {t d : Tcb}

/-- What a step that terminates `t` leaves of its messages in the queue of another thread. -/
theorem pending_casualty (H : Good k) (hr : Regular k e) (h : MikaBoo.step fuel k e = .ok k')
    (ht : t ∈ k.casualties e) (hd : d ∉ k.casualties e) :
    k'.view.pending t d = k.leftover e t d := by
  obtain ⟨a, _, ha, _, hreaped⟩ := H.reaped hr (List.ne_nil_of_mem ht) h
  obtain ⟨es, hes, run⟩ := hreaped.run
  have hd' : ∀ q, .kill d q ∉ es := by
    intro q hq
    exact hd (hes ▸ List.mem_filterMap.mpr ⟨_, hq, rfl⟩)
  obtain ⟨p, es₁, es₂, v₁, v₂, rfl, hst, run₁, last, run₂⟩ := View.cut_of_kill run (hes ▸ ht)
  have hd₁ : ∀ q, .kill d q ∉ es₁ := fun q hq => hd' q (by simp [hq])
  have hd₂ : ∀ q, .kill d q ∉ es₂ := fun q hq => hd' q (by simp [hq])
  have hdt : d ≠ t := by
    rintro rfl
    exact hd ht
  have hmem₁ : t ∈ v₁.threads (.of p) := by
    cases last with
    | kill _ member => exact member
  have hp : (k.tcb t).tPcb = some p := by
    rw [threads_of_run run₁] at hmem₁
    exact H.inv.owned.owned.mp (List.mem_of_mem_filter hmem₁)
  obtain ⟨hwoken, hkept⟩ := View.cleanDest_of_run run₁ (fun q => (hst q).1)
    (View.orphan_notMem run₁ hmem₁)
  -- the threads terminated before `t`
  have hbefore : (k.casualties e).takeWhile (· ≠ t) = es₁.filterMap Reaping.victim? := by
    have hne : ∀ u ∈ es₁.filterMap Reaping.victim?, u ≠ t := by
      rintro u hu rfl
      obtain ⟨e', he', het⟩ := List.mem_filterMap.mp hu
      obtain ⟨q, rfl⟩ := View.victim?_eq_some.mp het
      exact (hst q).1 he'
    rw [← hes, List.filterMap_append, List.takeWhile_append_of_pos (by simpa using hne)]
    simp [Reaping.victim?]
  have horphaned : k.view.Orphaned es₁ t ↔ (k.tcb t).tStatus = .w4msg ∧
      ∃ m ∈ (k.casualties e).takeWhile (· ≠ t), (k.tcb t).tWait4sender = some m := by
    rw [hbefore]
    constructor
    · rintro ⟨m, q, hm, hw⟩
      obtain ⟨hstatus, hwait⟩ := (View.Scheduled.mem_waiting H.inv.scheduled).mp hw
      exact ⟨hstatus, m, List.mem_filterMap.mpr ⟨_, hm, rfl⟩, hwait⟩
    · rintro ⟨hstatus, m, hm, hwait⟩
      obtain ⟨e', he', het⟩ := List.mem_filterMap.mp hm
      obtain ⟨q, rfl⟩ := View.victim?_eq_some.mp het
      exact ⟨m, q, he', (View.Scheduled.mem_waiting H.inv.scheduled).mpr ⟨hstatus, hwait⟩⟩
  have hdest : v₁.cleanDest (some a) t p = k.cleaned e t := by
    rw [Kernel.cleaned, hp, Option.bind_some, ha]
    split
    · rename_i hm
      by_cases hstatus : (k.tcb t).tStatus = .w4msg
      · exact hwoken (horphaned.mpr ⟨hstatus, hm⟩)
      · rw [hkept fun ho => hstatus (horphaned.mp ho).1]
        exact if_neg fun h => hstatus h.2
    · rename_i hm
      exact hkept fun ho => hm (horphaned.mp ho).2
  calc k'.view.pending t d
      = v₂.pending t d := View.pending_of_run run₂ hd₂ fun q => (hst q).2
    _ = if v₁.cleanDest (some a) t p = some d then (v₁.pending t d).tail else v₁.pending t d := by
        rw [View.pending_kill last hdt]
        simp only [true_and]
    _ = k.leftover e t d := by
        rw [hdest, View.pending_of_run run₁ hd₁ fun q => (hst q).1]
        rfl

end Good

end MikaBoo
