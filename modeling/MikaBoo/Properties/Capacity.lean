import MikaBoo.Properties.Exchange
import MikaBoo.Properties.Slots
import Mathlib.Algebra.BigOperators.Fin

/-!
# Nothing leaks

In every run each descriptor is free or in use, in exactly one list. So a message is refused only
if the receiver is dead or as many messages as there are descriptors are waiting.
-/

namespace MikaBoo

open Intrusive Fuel Transition

namespace Kernel

/-- The messages that wait in all queues together. -/
def queued (k : Kernel) : Nat :=
  (k.view.mailbox .ssi).length + ∑ i : Fin MAXTHREAD, (k.view.mailbox (.thread i)).length

/-- Every message descriptor is in a list. -/
def Stored (k : Kernel) : Prop := ∀ m, ∃ l, m ∈ k.view.msgs l

namespace Stored

variable {k k' : Kernel} {t : Tcb} {m : Msg} {l l' : MsgList}

/-- A message moves from one list to another. -/
theorem move (S : k.Stored) (h : k'.view.msgs = Function.update
    (Function.update k.view.msgs l ((k.view.msgs l).erase m)) l'
      (Function.update k.view.msgs l ((k.view.msgs l).erase m) l' ++ [m])) : k'.Stored := by
  intro n
  by_cases hn : n = m
  · exact ⟨l', by simp [h, hn]⟩
  · obtain ⟨l₁, hl₁⟩ := S n
    have hkept : n ∈ Function.update k.view.msgs l ((k.view.msgs l).erase m) l₁ := by
      by_cases hl : l₁ = l
      · subst hl
        simpa [List.mem_erase_of_ne hn] using hl₁
      · simpa [hl] using hl₁
    refine ⟨l₁, ?_⟩
    rw [h]
    by_cases hl' : l₁ = l'
    · subst hl'
      simp [hkept]
    · simpa [hl'] using hkept

theorem free (S : k.Stored) (F : k.Filed) (ptr : Value) (hm : m ∈ k.view.msgs (.of t)) :
    (msgFree (storeVal k ptr m) m).Stored := by
  have hview := Filed.view_storeVal k ptr m
  obtain ⟨hmsgs, _⟩ := (F.storeVal ptr m).view_msgFree (m := m) (d := t) (by rwa [hview])
  rw [hview] at hmsgs
  exact S.move hmsgs

theorem mailing (S : k.Stored) (F : k.Filed) (h : Mailing k k') : k'.Stored := by
  cases h with
  | none links => exact fun m => msgs_of_links links ▸ S m
  | add added =>
      have hn : k.msgLinks.listNext .messageH = _ := F.listNext .free
      obtain ⟨o, ho, h⟩ := bind_eq_ok.mp added
      rw [hn] at ho
      split at h
      · rename_i m _ v
        cases hq : k.view.msgs .free with
        | nil => simp [hq, containerOf] at ho
        | cons n rest =>
            simp only [hq, List.head?_cons, Option.map_some, containerOf] at ho
            cases ho
            cases h
            have hm : m ∈ k.view.msgs .free := by simp [hq]
            exact S.move (Filed.of_represents (F.move hm (msg_link_ne_head m) (.of v))).2
      · cases h
        exact S
  | get got =>
      unfold msgqGet at got
      split at got
      · cases got
        exact S
      · obtain ⟨o, ho, h⟩ := bind_eq_ok.mp got
        rw [F.msgqFind] at ho
        split at h
        · cases h
          exact S
        · cases h
          exact S.free F _ (List.mem_of_find?_eq_some (Except.ok.inj ho))
      · obtain ⟨o, ho, h⟩ := bind_eq_ok.mp got
        rw [F.msgQhead] at ho
        split at h
        · cases h
          exact S
        · cases h
          exact S.free F _ (List.mem_of_mem_head? (Except.ok.inj ho))
  | free head freed =>
      rw [F.msgQhead] at head
      rw [freed]
      exact S.move (F.view_msgFree (List.mem_of_mem_head? (Except.ok.inj head))).1

theorem mails (S : k.Stored) (F : k.Filed) (h : Mails k k') : k'.Stored := by
  induction h with
  | refl => exact S
  | tail first last ih => exact ih.mailing (F.mails first) last

/-- Every message descriptor is in a list in every state that any run reaches. -/
theorem run {hw : Hardware} {k₀ k : Kernel} {es : List Event} (hb : boot hw = .ok k₀)
    (run : Run Step k₀ es k) : k.Stored := by
  have H₀ : Good k₀ := .boot hb
  have hboth : k.Filed ∧ k.Stored := by
    apply run.invariant (P := fun k => k.Filed ∧ k.Stored) _ ⟨H₀.refines.msgs, H₀.inv.mail.kept⟩
    rintro k e k' ⟨F, S⟩ ⟨_, h⟩
    exact ⟨F.mails (Mails.step h), S.mails F (Mails.step h)⟩
  exact hboth.2

/-- The queues and the free list share out the descriptors. -/
theorem length_free (S : k.Stored) (F : k.Filed) :
    (k.view.msgs .free).length + k.queued = MAXMSG := by
  let lists : List MsgList :=
    .free :: .of .ssi :: (List.finRange MAXTHREAD).map fun i => .of (.thread i)
  have hnd : lists.Nodup := by
    simp only [lists, List.nodup_cons, List.mem_cons, List.mem_map]
    refine ⟨by simp, by simp, (List.nodup_finRange MAXTHREAD).map fun i j hij => ?_⟩
    simpa using hij
  have hall : ∀ l, l ∈ lists := by
    intro l
    cases l with
    | free => simp [lists]
    | of t => cases t <;> simp [lists]
  have hsum := F.sum_length hnd (List.nodup_finRange MAXMSG) fun m =>
    iff_of_true (List.mem_finRange m) ((S m).imp fun l hm => ⟨hall l, hm⟩)
  rw [List.length_finRange] at hsum
  rw [← hsum, queued, Fin.sum_univ_def]
  simp [lists, View.mailbox, Function.comp_def]

end Stored

end Kernel

namespace Kept.Rolls

variable {k : Kernel}

/-- The processes but the root are free or somebody's children. -/
theorem length_procs (C : k.kept.Rolls) :
    (k.view.procs .free).length + ∑ p, (k.view.procs (.children p)).length + 1 = MAXPROC := by
  let lists : List ProcList := .free :: (List.finRange MAXPROC).map .children
  have hnd : lists.Nodup := by
    simp only [lists, List.nodup_cons, List.mem_map]
    refine ⟨by simp, (List.nodup_finRange MAXPROC).map fun p q hpq => ?_⟩
    simpa using hpq
  have hmem : ∀ p : Pcb, p ∈ (List.finRange MAXPROC).erase root ↔
      ∃ l ∈ lists, p ∈ k.kept.view.procs l := by
    intro p
    rw [(List.nodup_finRange MAXPROC).mem_erase_iff]
    constructor
    · rintro ⟨hp, _⟩
      cases hpar : (k.kept.view.pcb p).pParent with
      | none => exact ⟨.free, by simp [lists], C.tree.free.mpr ⟨hp, hpar⟩⟩
      | some q => exact ⟨.children q, by simp [lists], C.tree.children.mpr hpar⟩
    · rintro ⟨l, _, hp⟩
      refine ⟨?_, List.mem_finRange p⟩
      rintro rfl
      cases l with
      | free => exact (C.tree.free.mp hp).1 rfl
      | children q =>
          have hpar := C.tree.children.mp hp
          rw [C.tree.root_parent] at hpar
          cases hpar
  have hsum := C.procs.sum_length hnd ((List.nodup_finRange MAXPROC).erase root) hmem
  rw [List.length_erase_of_mem (List.mem_finRange root), List.length_finRange] at hsum
  have hlists : (lists.map fun l => (k.kept.view.procs l).length).sum =
      (k.view.procs .free).length + ∑ p, (k.view.procs (.children p)).length := by
    rw [Fin.sum_univ_def]
    simp only [lists, List.map_cons, List.map_map, List.sum_cons]
    rfl
  rw [← hlists, hsum]
  rfl

/-- The threads are free or somebody's. -/
theorem length_threads (C : k.kept.Rolls) :
    (k.view.threads .free).length + ∑ p, (k.view.threads (.of p)).length = MAXTHREAD := by
  let lists : List ThreadList := .free :: (List.finRange MAXPROC).map .of
  have hnd : lists.Nodup := by
    simp only [lists, List.nodup_cons, List.mem_map]
    refine ⟨by simp, (List.nodup_finRange MAXPROC).map fun p q hpq => ?_⟩
    simpa using hpq
  have hes : ((List.finRange MAXTHREAD).map Tcb.thread).Nodup :=
    (List.nodup_finRange MAXTHREAD).map fun i j hij => by simpa using hij
  have hmem : ∀ t : Tcb, t ∈ (List.finRange MAXTHREAD).map .thread ↔
      ∃ l ∈ lists, t ∈ k.kept.view.threads l := by
    intro t
    cases t with
    | ssi =>
        refine iff_of_false (by simp) ?_
        rintro ⟨l, _, ht⟩
        exact (C.listed.mp ht).1 rfl
    | thread i =>
        refine iff_of_true (by simp) ?_
        cases ho : k.kept.counts.owner (.thread i) with
        | none => exact ⟨.free, by simp [lists], C.listed.mpr ⟨by simp, ho⟩⟩
        | some p => exact ⟨.of p, by simp [lists], C.listed.mpr ⟨by simp, ho⟩⟩
  have hsum := C.threads.sum_length hnd hes hmem
  rw [List.length_map, List.length_finRange] at hsum
  have hlists : (lists.map fun l => (k.kept.view.threads l).length).sum =
      (k.view.threads .free).length + ∑ p, (k.view.threads (.of p)).length := by
    rw [Fin.sum_univ_def]
    simp only [lists, List.map_cons, List.map_map, List.sum_cons]
    rfl
  rw [← hlists, hsum]

end Kept.Rolls

/-- In every run in which the SSI does not terminate itself, no descriptor of a process, a thread or
a message gets lost. A send fails exactly if the receiver neither awaits the message nor can have it
queued, as it is free or as 40 messages are waiting in the queues; then it changes nothing. -/
theorem pools_conserved {hw : Hardware} {k₀ k : Kernel} {es : List Event}
    (hb : boot hw = .ok k₀) (run : Run (GuardedStep NotSelf) k₀ es k) :
    (k.view.procs .free).length + ∑ p, (k.view.procs (.children p)).length + 1 = MAXPROC ∧
    (k.view.threads .free).length + ∑ p, (k.view.threads (.of p)).length = MAXTHREAD ∧
    (k.view.msgs .free).length + k.queued = MAXMSG ∧
    ∀ s d pl, ∃ w k', send k d (some s) pl = .ok (w, k') ∧ Posting k s d pl w k' ∧
      (w = SEND_FAILURE ↔ ¬ (k.tcb d).Awaits s ∧
        ((k.tcb d).tStatus = .none ∨ k.queued = MAXMSG)) := by
  have C : k.kept.Rolls := run.invariant (P := fun k => k.kept.Rolls)
    (fun _ _ _ C h => C.step h.1 h.2.choose_spec) (Good.boot hb).rolls
  have F : k.Filed := .run hb (forget_guard run)
  have S : k.Stored := .run hb (forget_guard run)
  have hlength := S.length_free F
  refine ⟨C.length_procs, C.length_threads, hlength, fun s d pl => ?_⟩
  obtain ⟨w, k', hk', P⟩ := F.send s d pl
  refine ⟨w, k', hk', P, ?_⟩
  have hfull : k.view.msgs .free = [] ↔ k.queued = MAXMSG := by
    rw [← List.length_eq_zero_iff]
    omega
  have hreaches : ¬ k.Reaches s d ↔ ¬ (k.tcb d).Awaits s ∧
      ((k.tcb d).tStatus = .none ∨ k.queued = MAXMSG) := by
    rw [Kernel.Reaches, ← hfull, not_or, not_and_or, not_not, not_not]
  rw [← hreaches, ← (Slots.success_iff P).not]
  cases P with
  | direct | queued => exact iff_of_false (by decide) (by simp)
  | failed => exact iff_of_true rfl (by decide)

/-- The first thread has sent itself 40 messages and fails to send another one. -/
theorem pools_conserved_sample : ∃ k₀ k k' : Kernel, ∃ es : List Event,
    boot Sample.hardware = .ok k₀ ∧ Run (GuardedStep NotSelf) k₀ es k ∧ k.queued = MAXMSG ∧
    send k (.thread 0) (some (.thread 0)) (.int 7) = .ok (SEND_FAILURE, k') := by
  let es := [.start, .ssi] ++
    (List.replicate MAXMSG (Sample.send (.thread 0) (.int 7) [])).flatten
  let check : Kernel → Bool := fun k => k.view.msgs .free = [] ∧
    (k.tcb (.thread 0)).tStatus = .ready
  have h : (execute NotSelf Sample.hardware 100 es).any check = true := by decide +kernel
  obtain ⟨k, hk, hprops⟩ := Option.any_eq_true _ _ |>.mp h
  obtain ⟨k₀, hb, run⟩ := run_of_execute hk
  obtain ⟨hfree, hready⟩ := of_decide_eq_true hprops
  obtain ⟨_, _, hlength, hsend⟩ := pools_conserved hb run
  have hqueued : k.queued = MAXMSG := by simpa [hfree] using hlength
  obtain ⟨w, k', hk', _, hw⟩ := hsend (.thread 0) (.thread 0) (.int 7)
  have hbusy : ¬ (k.tcb (.thread 0)).Awaits (.thread 0) := by simp [TcbT.Awaits, hready]
  obtain rfl := hw.mpr ⟨hbusy, Or.inr hqueued⟩
  exact ⟨k₀, k, k', es, hb, run, hqueued, hk'⟩

end MikaBoo
