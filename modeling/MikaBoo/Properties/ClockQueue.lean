import MikaBoo.Intrusive.Crossing
import MikaBoo.Abstract.Casualties

/-!
# The queue of the clock

`wait_for_clock_s` puts the applicant into `t_wait4clock` and takes it out of no
queue. It keeps the scheduling queues in order exactly if the applicant was in none.
-/

namespace MikaBoo

open Intrusive Intrusive.Links Transition

/-- The queue `q` is a well-formed circular list of the threads `ts`. -/
def Lists (L : Links SchedNode) (q : SchedQueue) (ts : List Tcb) : Prop :=
  L.Circ q.head (ts.map .tSched)

/-- Following `next` from the sentinel of `q` meets the `t_sched` of `t`. -/
def Reaches (L : Links SchedNode) (q : SchedQueue) (t : Tcb) : Prop :=
  L.Leads q.head (.tSched t)

/-- The queues that threads wait in while the SSI serves a request. -/
def servedQueues : List SchedQueue := [.readyq, .blockedq, .tWait4me .ssi, .tWait4clock]

/-- From `L` to `L'` the thread `t` has moved to `t_wait4clock`. The queues are well formed
as before and have the same other members. -/
structure MovesToClock (L L' : Links SchedNode) (t : Tcb) : Prop where
  sound : ∀ q ∈ servedQueues, ∃ ts ts', Lists L q ts ∧ Lists L' q ts' ∧
    ∀ u, u ≠ t → (u ∈ ts' ↔ u ∈ ts)
  waits : Reaches L' .tWait4clock t
  only : ∀ q, q ≠ .tWait4clock → ¬ Reaches L' q t

/-- The queues are well formed, and `t` is in none. -/
structure Apart (L : Links SchedNode) (t : Tcb) : Prop where
  sound : ∀ q ∈ servedQueues, ∃ ts, Lists L q ts
  off : ∀ q, ¬ Reaches L q t
  clock : ∀ q : SchedQueue, q ≠ .tWait4clock → ¬ L.Leads q.head .tWait4clock

theorem SchedQueue.head_inj {q q' : SchedQueue} (h : q.head = q'.head) : q = q' :=
  schedLayout.head_inj h

theorem SchedQueue.head_notMem_map (q : SchedQueue) (ts : List Tcb) :
    q.head ∉ ts.map SchedNode.tSched := by
  cases q <;> simp [SchedQueue.head]

namespace Lists

variable {L : Links SchedNode} {q : SchedQueue} {t : Tcb} {ts cs : List Tcb} {x : SchedNode}

theorem reaches_iff (Q : Lists L q ts) : Reaches L q t ↔ t ∈ ts := by
  rw [Reaches, Q.leads_iff]
  cases q <;> simp [SchedQueue.head]

theorem clock_notMem (hq : q ≠ .tWait4clock) :
    SchedNode.tWait4clock ∉ q.head :: ts.map .tSched := by
  rw [List.mem_cons, not_or]
  refine ⟨fun he => hq ?_, SchedQueue.head_notMem_map .tWait4clock ts⟩
  exact (SchedQueue.head_inj (q := .tWait4clock) he).symm

/-- A queue that is not the clock's shares no node with it. -/
theorem far (Q : Lists L q ts) (C : Lists L .tWait4clock cs) (hq : q ≠ .tWait4clock)
    (hx : x ∈ q.head :: ts.map .tSched) :
    x ∉ SchedQueue.head .tWait4clock :: cs.map .tSched := fun hx' =>
  Circ.disjoint C Q (clock_notMem hq) hx' hx

end Lists

/-- `list_add_tail` moves a thread to the clock's queue iff the thread was in no queue. -/
theorem movesToClock_iff (L : Links SchedNode) (t : Tcb) :
    MovesToClock L (L.listAddTail (.tSched t) .tWait4clock) t ↔ Apart L t := by
  constructor
  · intro M
    obtain ⟨cs, cs', C, C', _⟩ := M.sound .tWait4clock (by simp [servedQueues])
    have hclock : ¬ Reaches L .tWait4clock t := by
      intro hr
      refine Circ.not_listAddTail C ?_ C'
      simpa using C.reaches_iff.mp hr
    refine ⟨fun q hq => ?_, fun q hr => ?_, fun q hq hl => ?_⟩
    · obtain ⟨ts, _, Q, _⟩ := M.sound q hq
      exact ⟨ts, Q⟩
    · by_cases hq : q = .tWait4clock
      · exact hclock (hq ▸ hr)
      · exact M.only q hq (Leads.listAddTail_node hr)
    · -- what led to the sentinel of the clock now leads on to its last member
      have hlast : SchedNode.tSched t ≠ L.prev .tWait4clock := by
        intro he
        have hmem : L.prev .tWait4clock ∈ SchedQueue.head .tWait4clock :: cs.map .tSched :=
          C.seg.prev_mem
        exact hclock (C.leads_iff.mpr (he ▸ hmem))
      exact M.only q hq ((Leads.listAddTail_head hl hlast).trans M.waits)
  · intro A
    obtain ⟨cs, C⟩ := A.sound .tWait4clock (by simp [servedQueues])
    have hoff : SchedNode.tSched t ∉ SchedQueue.head .tWait4clock :: cs.map .tSched :=
      fun hm => A.off .tWait4clock (C.leads_iff.mpr hm)
    have C' : Lists (L.listAddTail (.tSched t) .tWait4clock) .tWait4clock (cs ++ [t]) := by
      rw [Lists, List.map_append]
      exact Circ.listAddTail C hoff
    refine ⟨fun q hq => ?_, C'.reaches_iff.mpr (by simp), fun q hq hr => ?_⟩
    · by_cases hclock : q = .tWait4clock
      · subst hclock
        exact ⟨cs, _, C, C', fun u hu => by simp [hu]⟩
      · obtain ⟨ts, Q⟩ := A.sound q hq
        refine ⟨ts, ts, Q, ?_, fun _ _ => Iff.rfl⟩
        have hfar : ∀ x ∈ q.head :: ts.map .tSched,
            x ≠ .tSched t ∧ x ≠ SchedNode.tWait4clock ∧ x ≠ L.prev .tWait4clock := by
          intro x hx
          have hno := Q.far C hclock hx
          refine ⟨?_, ?_, ?_⟩
          · rintro rfl
            exact A.off q (Q.leads_iff.mpr hx)
          · rintro rfl
            exact hno List.mem_cons_self
          · rintro rfl
            exact hno C.seg.prev_mem
        apply Circ.congr Q
        · intro x hx
          obtain ⟨ht, _, hp⟩ := hfar x hx
          rw [listAddTail_next, Function.update_of_ne hp, Function.update_of_ne ht]
        · intro x hx
          obtain ⟨ht, hc, _⟩ := hfar x hx
          rw [listAddTail_prev, Function.update_of_ne ht, Function.update_of_ne hc]
    · rcases Leads.of_listAddTail C hr with hr | hl
      · exact A.off q hr
      · exact A.clock q hq hl

namespace Good

variable {k : Kernel} {q : SchedQueue} {t : Tcb}

theorem lists (H : Good k) (q : SchedQueue) : Lists k.schedLinks q (k.view.sched q) :=
  H.refines.sched.circ q

/-- While the SSI runs, the threads in no queue are the ones that have been freed. -/
theorem apart_iff (H : Good k) (hc : k.currentThread = some .ssi) (hssi : t ≠ .ssi) :
    Apart k.schedLinks t ↔ ¬ k.Allocated t := by
  have hnone : (k.view.tcb t).tStatus = .none ↔ ¬ k.Allocated t := by
    rw [H.inv.owned.status, ← H.inv.owned.free, Kernel.Allocated]
    simp [hssi]
  constructor
  · intro A
    rw [← hnone]
    by_contra hst
    rcases H.inv.scheduled.somewhere hst with hr | ⟨q, hq⟩
    · exact hssi (Option.some.inj (hr.symm.trans hc))
    · exact A.off q ((H.lists q).reaches_iff.mpr hq)
  · intro hfree
    refine ⟨fun q _ => ⟨_, H.lists q⟩, fun q hr => ?_, fun q hq hl => ?_⟩
    · have hfits := H.inv.scheduled.fits ((H.lists q).reaches_iff.mp hr)
      cases q <;> simp [Fits, hnone.mpr hfree] at hfits
    · exact Lists.clock_notMem hq ((H.lists q).leads_iff.mp hl)

end Good

/-- The step of the SSI that serves WAIT_FOR_CLOCK. -/
theorem step_waitForClock {k k' : Kernel} {t : Tcb} (hq : k.request = some .waitForClock)
    (ha : k.applicant = some t) (h : Step k .ssi k') :
    k.currentThread = some .ssi ∧ k' = waitForClockS { k with ssiPoint := .receiving } t := by
  obtain ⟨fuel, h⟩ := h
  obtain ⟨hc, k₁, r, hk₁, hk'⟩ := ssi_step ha hq h
  cases hk₁
  rcases hk' with ⟨_, rfl⟩ | ⟨_, _, hsome, _⟩
  · exact ⟨hc, rfl⟩
  · cases hsome

/-- The SSI moves the applicant of WAIT_FOR_CLOCK to the queue of the clock iff the applicant is
in no queue. In a regular run, that is iff the applicant has been freed. -/
theorem clock_queue {k k' : Kernel} {t : Tcb} (hq : k.request = some .waitForClock)
    (ha : k.applicant = some t) (h : Step k .ssi k') :
    (MovesToClock k.schedLinks k'.schedLinks t ↔ Apart k.schedLinks t) ∧
      ∀ {hw : Hardware} {k₀ : Kernel} {es : List Event}, boot hw = .ok k₀ →
        Run RegularStep k₀ es k → (Apart k.schedLinks t ↔ ¬ k.Allocated t) := by
  obtain ⟨hc, rfl⟩ := step_waitForClock hq ha h
  refine ⟨movesToClock_iff k.schedLinks t, fun hb run => ?_⟩
  have H := (Good.boot hb).run run
  refine H.apart_iff hc ?_
  obtain ⟨u, hu, hne⟩ := H.holds hc (point_of_request hq)
  have ht : u = t := by simpa [Kernel.applicant, hu] using ha
  exact ht ▸ hne

/-- The first thread, up to the service of its request to wait for the clock. -/
def Sample.waiting : List Event :=
  [.start, .ssi] ++ Sample.request [.int 9] ++ Sample.recv (some .ssi) [.int 9]

/-- The first thread, whose request to wait for the clock is served after its request to be
terminated. -/
def Sample.lateWaiter : List Event :=
  let ws : List Value := [.int 4, .int 9]
  [.start, .ssi] ++ Sample.request ws ++ Sample.send .ssi (.int 0x104) ws ++
    Sample.recv (some .ssi) ws ++ [.ssi, .ssi]

/-- A thread that has been freed is moved as intended. -/
theorem clock_queue_sample : ∃ k₀ k k', boot Sample.hardware = .ok k₀ ∧
    Run RegularStep k₀ Sample.lateWaiter k ∧ k.request = some .waitForClock ∧
    k.applicant = some (.thread 0) ∧ Step k .ssi k' ∧
    MovesToClock k.schedLinks k'.schedLinks (.thread 0) := by
  let check : Kernel → Bool := fun k => k.request = some .waitForClock ∧
    k.applicant = some (.thread 0) ∧ ¬ k.Allocated (.thread 0) ∧
    (step 100 k .ssi).toOption.isSome
  have h : (execute Regular Sample.hardware 100 Sample.lateWaiter).any check = true := by
    decide +kernel
  obtain ⟨k, hk, hprops⟩ := Option.any_eq_true _ _ |>.mp h
  obtain ⟨k₀, hb, run⟩ := run_of_execute hk
  obtain ⟨hq, ha, hfree, hstep⟩ := of_decide_eq_true hprops
  obtain ⟨k', hk'⟩ := Option.isSome_iff_exists.mp hstep
  have hs : Step k .ssi k' := ⟨100, exec_eq_ok hk'⟩
  have hapart := ((clock_queue hq ha hs).2 hb run).mpr hfree
  exact ⟨k₀, k, k', hb, run, hq, ha, hs, (clock_queue hq ha hs).1.mpr hapart⟩

/-- A thread that waits for its reply stays the first member of `SSI->t_wait4me`, whose links
are broken. -/
theorem clock_queue_wrong : ∃ k₀ k k', boot Sample.hardware = .ok k₀ ∧
    Run RegularStep k₀ Sample.waiting k ∧ k.request = some .waitForClock ∧
    k.applicant = some (.thread 0) ∧ k.Allocated (.thread 0) ∧ Step k .ssi k' ∧
    ¬ MovesToClock k.schedLinks k'.schedLinks (.thread 0) ∧
    Reaches k'.schedLinks (.tWait4me .ssi) (.thread 0) ∧
    ∀ ts, ¬ Lists k'.schedLinks (.tWait4me .ssi) ts := by
  let check : Kernel → Bool := fun k => k.request = some .waitForClock ∧
    k.applicant = some (.thread 0) ∧ k.Allocated (.thread 0) ∧
    (step 100 k .ssi).toOption.any fun k' =>
      k'.schedLinks.next (.tWait4me .ssi) = .tSched (.thread 0) ∧
        k'.schedLinks.prev (.tSched (.thread 0)) = .tWait4clock
  have h : (execute Regular Sample.hardware 100 Sample.waiting).any check = true := by
    decide +kernel
  obtain ⟨k, hk, hprops⟩ := Option.any_eq_true _ _ |>.mp h
  obtain ⟨k₀, hb, run⟩ := run_of_execute hk
  obtain ⟨hq, ha, hall, hstep⟩ := of_decide_eq_true hprops
  obtain ⟨k', hk', hlinks⟩ := Option.any_eq_true _ _ |>.mp hstep
  obtain ⟨hnext, hprev⟩ := of_decide_eq_true hlinks
  have hreach : Reaches k'.schedLinks (.tWait4me .ssi) (.thread 0) := .single hnext
  refine ⟨k₀, k, k', hb, run, hq, ha, hall, ⟨100, exec_eq_ok hk'⟩,
    fun M => M.only _ (by simp) hreach, hreach, fun ts Q => ?_⟩
  have hback : k'.schedLinks.prev (k'.schedLinks.next (.tWait4me .ssi)) = .tWait4me .ssi :=
    Circ.prev_next Q List.mem_cons_self
  rw [hnext, hprev] at hback
  cases hback

end MikaBoo
