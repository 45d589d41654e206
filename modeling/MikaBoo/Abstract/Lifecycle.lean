import MikaBoo.Abstract.Actions

/-!
# The life of a thread

What a thread is doing, as far as scheduling is concerned, determines its status,
what it waits for and the one queue it is linked in. Every action moves every
thread along the transitions of `Lifecycle`.
-/

namespace MikaBoo

open Intrusive

/-- What a thread is doing. -/
inductive Standing
  | free
  | running
  | ready
  /-- Blocked in a receive from `src`, or from anyone. -/
  | receiving (src : Option Tcb)
  /-- Passed up to a manager. -/
  | passedUp
deriving DecidableEq

namespace Standing

def status : Standing → Status
  | .free => .none
  | .receiving _ => .w4msg
  | _ => .ready

def wait : Standing → Option Tcb
  | .receiving src => src
  | _ => none

/-- The queue that the thread is linked in. -/
def queue : Standing → Option SchedQueue
  | .ready => some .readyq
  | .receiving src => some (.waiting src)
  | .passedUp => some .blockedq
  | _ => none

theorem waiting_inj {src src' : Option Tcb} (h : SchedQueue.waiting src = .waiting src') :
    src = src' := by
  cases src <;> cases src' <;> simp_all [SchedQueue.waiting]

/-- Status and queue tell what a thread is doing. -/
theorem ext_queue {s s' : Standing} (hs : s.status = s'.status) (hq : s.queue = s'.queue) :
    s = s' := by
  cases s <;> cases s' <;> simp_all [status, queue]
  exact waiting_inj hq

end Standing

namespace View

/-- `t` is linked exactly once in the queue `q`, or in no queue, and nowhere else. -/
def Linked (v : View) (t : Tcb) (q : Option SchedQueue) : Prop :=
  ∀ h, (v.sched h).count t = if q = some h then 1 else 0

/-- While `r` is on the processor, the thread `t` is doing `s`. -/
structure Stands (v : View) (r : Option Tcb) (t : Tcb) (s : Standing) : Prop where
  status : (v.tcb t).tStatus = s.status
  wait : (v.tcb t).tWait4sender = s.wait
  linked : v.Linked t s.queue
  processor : s = .running → r = some t

variable {v v' : View} {r r' : Option Tcb} {t : Tcb} {s s' : Standing} {q : Option SchedQueue}

/-- No queue has a thread twice, so membership decides. -/
theorem linked_iff (hr : Realised v) : v.Linked t q ↔ ∀ h, t ∈ v.sched h ↔ q = some h := by
  obtain ⟨k, R⟩ := hr
  apply forall_congr'
  intro h
  have hn := R.sched.nodup h
  by_cases hm : t ∈ v.sched h
  · rw [List.count_eq_one_of_mem hn hm]
    simp [hm]
  · rw [List.count_eq_zero_of_not_mem hm]
    simp [hm]

theorem Stands.mem_iff (hr : Realised v) (h : v.Stands r t s) (h' : SchedQueue) :
    t ∈ v.sched h' ↔ s.queue = some h' :=
  (linked_iff hr).mp h.linked h'

theorem Stands.queue_unique {q q' : Option SchedQueue} (h : v.Linked t q) (h' : v.Linked t q') :
    q = q' := by
  have key : ∀ {q q' : Option SchedQueue} {l : SchedQueue}, v.Linked t q → v.Linked t q' →
      q = some l → q' = some l := by
    intro q q' l h h' hq
    have hl := (h l).symm.trans (h' l)
    by_contra hn
    simp [hq, hn] at hl
  cases q with
  | some l => exact (key h h' rfl).symm
  | none =>
      cases q' with
      | none => rfl
      | some l => exact key h' h rfl

theorem Stands.unique (h : v.Stands r t s) (h' : v.Stands r' t s') : s = s' :=
  Standing.ext_queue (h.status.symm.trans h'.status) (queue_unique h.linked h'.linked)

/-- Without the processor a thread stands as before, unless it was running. -/
theorem Stands.of_none (h : v.Stands none t s) : v.Stands r t s :=
  ⟨h.status, h.wait, h.linked, fun hs => absurd (h.processor hs) nofun⟩

/-- Every thread is doing something. -/
theorem Inv.stands (hr : Realised v) (I : v.Inv r) (t : Tcb) : ∃ s, v.Stands r t s := by
  obtain ⟨k, R⟩ := id hr
  have hmem : ∀ {h}, t ∈ v.sched h → v.Linked t (some h) := by
    intro h hm
    rw [linked_iff hr]
    intro h'
    rw [Option.some.injEq]
    exact ⟨fun hm' => R.sched.disjoint hm hm', fun he => he ▸ hm⟩
  have hoff : (∀ h, t ∉ v.sched h) → v.Linked t none := by
    intro hn
    rw [linked_iff hr]
    simp [hn]
  by_cases hn : (v.tcb t).tStatus = .none
  · refine ⟨.free, hn, I.scheduled.wait (by simp [hn]), hoff fun h hm => ?_, nofun⟩
    exact I.scheduled.allocated hm hn
  · rcases I.scheduled.somewhere hn with hrun | ⟨h, hm⟩
    · have hs := I.scheduled.running hrun
      refine ⟨.running, hs, I.scheduled.wait (by simp [hs]), hoff fun h hm => ?_, fun _ => hrun⟩
      exact I.scheduled.off hm hrun
    · have hf := I.scheduled.fits hm
      cases h with
      | readyq => exact ⟨.ready, hf, I.scheduled.wait (by rw [hf]; nofun), hmem hm, nofun⟩
      | blockedq =>
          rcases hf with hf | ⟨hf, hw⟩
          · exact ⟨.passedUp, hf, I.scheduled.wait (by rw [hf]; nofun), hmem hm, nofun⟩
          · exact ⟨.receiving none, hf, hw, hmem hm, nofun⟩
      | tWait4clock => exact hf.elim
      | tWait4me u => exact ⟨.receiving (some u), hf.1, hf.2, hmem hm, nofun⟩

/-- A thread whose fields and queue do not change goes on as before. -/
theorem Stands.keep (h : v.Stands r t s) (hr : Realised v) (hr' : Realised v')
    (htcb : SameQueueing (v.tcb t) (v'.tcb t)) (hmem : ∀ h, t ∈ v'.sched h ↔ t ∈ v.sched h)
    (hrun : r = some t → r' = some t) : v'.Stands r' t s where
  status := htcb.status.trans h.status
  wait := htcb.wait.trans h.wait
  linked := by
    rw [linked_iff hr']
    intro l
    rw [hmem, h.mem_iff hr]
  processor := fun hs => hrun (h.processor hs)

/-- The thread on the processor is running. -/
theorem Inv.running_of_stands (hr : Realised v) (I : v.Inv (some t)) (h : v.Stands r t s) :
    s = .running := by
  apply Standing.ext_queue
  · rw [← h.status, I.scheduled.running rfl]
    rfl
  · cases hq : s.queue with
    | none => rfl
    | some l => exact absurd rfl (I.scheduled.off ((h.mem_iff hr l).mpr hq))

end View

/-- What an action may make of a thread. -/
inductive Lifecycle (scope : Scope) : Standing → Standing → Prop
  | stay {s} : Lifecycle scope s s
  | create (allowed : scope = .create) : Lifecycle scope .free .ready
  | dispatch : Lifecycle scope .ready .running
  | preempt : Lifecycle scope .running .ready
  | block {src} : Lifecycle scope .running (.receiving src)
  | passUp (allowed : scope = .passUp) : Lifecycle scope .running .passedUp
  | wake {src} : Lifecycle scope (.receiving src) .ready
  | terminate {s} (allowed : scope = .terminate) : Lifecycle scope s .free

namespace View

variable {scope : Scope} {v v' : View} {r : Option Tcb} {t u : Tcb} {s s₁ : Standing} {h : SchedQueue}

theorem linked_of_mem (hr : Realised v) (hm : ∀ h', t ∈ v.sched h' ↔ h' = h) :
    v.Linked t (some h) := by
  rw [linked_iff hr]
  intro h'
  rw [hm h', Option.some.injEq, eq_comm]

/-- The running thread goes to a queue, and the others go on. -/
theorem Stands.park {f : TcbT → TcbT} (I : v.Inv (some u)) (hr : Realised v)
    (hr' : Realised ((v.modTcb u f).enqueue u h)) (hs : v.Stands (some u) t s)
    (hl : Lifecycle scope .running s₁) (hstatus : (f (v.tcb u)).tStatus = s₁.status)
    (hwait : (f (v.tcb u)).tWait4sender = s₁.wait) (hq : s₁.queue = some h) :
    ∃ s', Lifecycle scope s s' ∧ ((v.modTcb u f).enqueue u h).Stands none t s' := by
  by_cases hu : t = u
  · subst hu
    obtain rfl := I.running_of_stands hr hs
    refine ⟨s₁, hl, ?_, ?_, ?_, ?_⟩
    · simpa [enqueue, modTcb] using hstatus
    · simpa [enqueue, modTcb] using hwait
    · rw [hq]
      exact linked_of_mem hr' fun h' =>
        mem_enqueue.trans (by simp [modTcb, hs.mem_iff hr, Standing.queue])
    · rintro rfl
      cases hq
  · refine ⟨s, .stay, hs.keep hr hr' ?_ (fun h' => ?_) ?_⟩
    · simpa [enqueue, modTcb, hu] using SameQueueing.mk rfl rfl rfl
    · exact mem_enqueue.trans (by simp [modTcb, hu])
    · exact fun hr => absurd (Option.some.inj hr).symm hu

/-- The running thread goes to a queue as it is. -/
theorem Stands.yield (I : v.Inv (some u)) (hr : Realised v) (hr' : Realised (v.enqueue u h))
    (hs : v.Stands (some u) t s) (hl : Lifecycle scope .running s₁)
    (hstatus : s₁.status = .ready) (hwait : s₁.wait = none) (hq : s₁.queue = some h) :
    ∃ s', Lifecycle scope s s' ∧ (v.enqueue u h).Stands none t s' := by
  have hready := I.scheduled.running (t := u) rfl
  have hid : v.modTcb u id = v := by simp [modTcb]
  rw [← hid] at hr' ⊢
  apply Stands.park I hr hr' hs hl _ _ hq
  · rw [hstatus]
    exact hready
  · rw [hwait]
    exact I.scheduled.wait (by rw [hready]; rintro ⟨⟩)

theorem Stands.of_queue (s₁ : Standing) (hr : Realised v) (hs : v.Stands r t s)
    (hm : t ∈ v.sched h) (hq : s₁.queue = some h) (hst : (v.tcb t).tStatus = s₁.status) :
    s = s₁ := by
  apply Standing.ext_queue (hs.status.symm.trans hst)
  rw [hq]
  exact (hs.mem_iff hr h).mp hm

/-- A receiver is woken, and the others go on. -/
theorem Stands.wake (scope : Scope) {src : Option Tcb} {pl : Value} (hr : Realised v)
    (hr' : Realised (v.wake u h src pl)) (hs : v.Stands r t s) (queued : u ∈ v.sched h)
    (waits : (v.tcb u).tStatus = .w4msg) :
    ∃ s', Lifecycle scope s s' ∧ (v.wake u h src pl).Stands r t s' := by
  obtain ⟨k, R⟩ := id hr
  have hmem : ∀ h', t ∈ (v.wake u h src pl).sched h' ↔ _ := fun h' => R.mem_wake queued
  by_cases hu : t = u
  · subst hu
    obtain ⟨src', rfl⟩ : ∃ src', s = .receiving src' := by
      have hst := hs.status.symm.trans waits
      cases s <;> simp [Standing.status] at hst
      exact ⟨_, rfl⟩
    refine ⟨.ready, .wake, ?_, ?_, linked_of_mem hr' fun h' => ?_, nofun⟩
    · rw [wake_tcb_self]
      rfl
    · rw [wake_tcb_self]
      rfl
    · simpa using hmem h'
  · refine ⟨s, .stay, hs.keep hr hr' ?_ (fun h' => ?_) id⟩
    · rw [wake_tcb_of_ne hu]
      exact ⟨rfl, rfl, rfl⟩
    · simpa [hu] using hmem h'

/-- A step of a termination. -/
theorem Stands.reapStep {a : Option Tcb} {e : Reaping} (hr' : Realised v') (hs : v.Stands r t s)
    (step : ReapStep a v e v') : ∃ s', Lifecycle .terminate s s' ∧ v'.Stands r t s' := by
  cases step with
  | orphan hr => exact ⟨s, .stay, hs.keep hr hr' ⟨rfl, rfl, rfl⟩ (fun _ => Iff.rfl) id⟩
  | @kill u p h hr member queued =>
      have hmem : ∀ h', t ∈ ((v.clean u (v.cleanDest a u p)).reap u p h).sched h' ↔ t ≠ u ∧
          (t ∈ v.sched h' ∧ h' ≠ .tWait4me u ∨ t ∈ v.sched (.tWait4me u) ∧ h' = .readyq) :=
        fun h' => mem_reap_sched (hr.clean u _) queued
      by_cases hu : t = u
      · subst hu
        refine ⟨.free, .terminate rfl, ?_, ?_, ?_, nofun⟩
        · simp [reap_tcb_self, Standing.status]
        · simp [reap_tcb_self, Standing.wait]
        · rw [linked_iff hr']
          intro h'
          simpa [Standing.queue] using hmem h'
      · have htcb : ((v.clean u (v.cleanDest a u p)).reap u p h).tcb t =
            if t ∈ v.sched (.tWait4me u) then aborted (v.tcb t) else v.tcb t := reap_tcb_of_ne hu
        by_cases hw : t ∈ v.sched (.tWait4me u)
        · have hq := (hs.mem_iff hr _).mp hw
          obtain rfl : s = .receiving (some u) := by
            cases s <;> simp [Standing.queue] at hq
            have hq' : SchedQueue.waiting _ = .waiting (some u) := hq
            exact congrArg _ (Standing.waiting_inj hq')
          refine ⟨.ready, .wake, ?_, ?_, linked_of_mem hr' fun h' => ?_, nofun⟩
          · rw [htcb, if_pos hw]
            rfl
          · rw [htcb, if_pos hw]
            rfl
          · rw [hmem, hs.mem_iff hr, hs.mem_iff hr]
            simp only [Standing.queue, Option.some.injEq]
            constructor
            · rintro ⟨_, ⟨h₁, h₂⟩ | h₁⟩
              · exact absurd h₁.symm h₂
              · exact h₁.2
            · rintro rfl
              exact ⟨hu, Or.inr ⟨rfl, rfl⟩⟩
        · refine ⟨s, .stay, hs.keep hr hr' ?_ (fun h' => ?_) id⟩
          · rw [htcb, if_neg hw]
            exact ⟨rfl, rfl, rfl⟩
          · rw [hmem]
            constructor
            · rintro ⟨_, ⟨h₁, _⟩ | h₁⟩
              · exact h₁
              · exact absurd h₁.1 hw
            · intro h₁
              refine ⟨hu, Or.inl ⟨h₁, ?_⟩⟩
              rintro rfl
              exact hw h₁

end View

/-- Every action moves every thread along its life. -/
theorem Action.lifecycle {scope : Scope} {c c' : Config} {t : Tcb} {s : Standing} (hc : c.Ok)
    (a : Action scope c c') (hr' : Realised c'.view) (hs : c.view.Stands c.on t s) :
    ∃ s', Lifecycle scope s s' ∧ c'.view.Stands c'.on t s' := by
  obtain ⟨hr, I, _, _⟩ := hc
  obtain ⟨k, R⟩ := id hr
  cases a with
  | @adjust v r u f same user =>
      refine ⟨s, .stay, hs.keep hr hr' ?_ (fun _ => Iff.rfl) id⟩
      by_cases hu : t = u
      · subst hu
        simpa [View.modTcb] using same
      · simpa [View.modTcb, hu] using SameQueueing.mk rfl rfl rfl
  | globals | manage | refuse | queue | receive | adopt | abandon =>
      exact ⟨s, .stay, hs.keep hr hr' ⟨rfl, rfl, rfl⟩ (fun _ => Iff.rfl) id⟩
  | @direct v r u d pl h sender queued waits eligible foreign =>
      have hwake : Realised (v.wake d h (some u) pl) := ⟨_, R.resumeThread queued⟩
      obtain ⟨s', hl, hs'⟩ := hs.wake scope hr hwake queued waits
      exact ⟨s', hl, hs'.keep hwake hr' ⟨rfl, rfl, rfl⟩ (fun _ => Iff.rfl) id⟩
  | @block v u src f none owner status wait =>
      exact hs.park I hr hr' .block status wait rfl
  | preempt => exact hs.yield I hr hr' .preempt rfl rfl rfl
  | passUp allowed => exact hs.yield I hr hr' (.passUp allowed) rfl rfl rfl
  | @dispatch v u rest head =>
      have hhead : u ∈ v.sched .readyq := by simp [head]
      have hmem : ∀ h, t ∈ (v.outqueue u .readyq).sched h ↔ t ≠ u ∧ t ∈ v.sched h :=
        fun h => R.mem_outqueue hhead
      by_cases hu : t = u
      · subst hu
        obtain rfl := hs.of_queue .ready hr hhead rfl (I.scheduled.fits hhead)
        refine ⟨.running, .dispatch, hs.status, hs.wait, ?_, fun _ => rfl⟩
        rw [View.linked_iff hr']
        intro h
        simpa [Standing.queue] using hmem h
      · refine ⟨s, .stay, hs.keep hr hr' ⟨rfl, rfl, rfl⟩ (fun h => ?_) (by rintro ⟨⟩)⟩
        simpa [hu] using hmem h
  | @create v r u p st allowed free alive =>
      by_cases hu : t = u
      · subst hu
        have hnone := I.owned.status.mpr (I.owned.free.mp free)
        obtain rfl : s = .free := by
          have hst := hs.status.symm.trans hnone
          cases s <;> simp_all [Standing.status]
        have htcb := v.create_tcb_self (t := t) (p := p) (s := st)
        refine ⟨.ready, .create allowed, ?_, ?_, View.linked_of_mem hr' fun h => ?_, (by rintro ⟨⟩)⟩
        · rw [htcb]
          rfl
        · rw [htcb]
          exact hs.wait
        · exact View.mem_enqueue.trans (by
            simp [View.modTcb, View.hire, hs.mem_iff hr, Standing.queue])
      · refine ⟨s, .stay, hs.keep hr hr' ?_ (fun h => ?_) id⟩
        · rw [View.create_tcb_of_ne hu]
          exact ⟨rfl, rfl, rfl⟩
        · exact View.mem_enqueue.trans (by simp [View.modTcb, View.hire, hu])
  | reap allowed step =>
      subst allowed
      exact hs.reapStep hr' step

/-! ## Lives over many actions -/

/-- A property of standings that every transition keeps lasts. -/
theorem Moves.lifecycle {scope : Scope} {c c' : Config} {t : Tcb} {s : Standing}
    {P : Standing → Prop} (hP : ∀ s s', Lifecycle scope s s' → P s → P s')
    (ms : Moves scope c c') (hs : c.view.Stands c.on t s) (hPs : P s) :
    ∃ s', P s' ∧ c'.view.Stands c'.on t s' := by
  induction ms with
  | refl => exact ⟨s, hPs, hs⟩
  | tail ms m ih =>
      obtain ⟨s₁, hP₁, hs₁⟩ := ih
      obtain ⟨s₂, hl, hs₂⟩ := m.act.lifecycle m.ok m.real hs₁
      exact ⟨s₂, hP _ _ hl hP₁, hs₂⟩

end MikaBoo
