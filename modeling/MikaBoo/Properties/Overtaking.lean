import MikaBoo.Library.Line
import MikaBoo.Abstract.Arrivals
import MikaBoo.Properties.Accounting

/-!
# No overtaking in the ready queue

A thread in the ready queue is dispatched in its turn: the order of the threads in
it never changes, and each call of `scheduler` dispatches the one that has been in
it longest.
-/

namespace MikaBoo

open Intrusive Fuel Transition

/-- The threads before `b` in the ready queue. -/
def Kernel.ahead (k : Kernel) (b : Tcb) : List Tcb := Line.ahead k.readyq b

/-- A kernel step in two parts: the handler, and the `scheduler` or `LDST` that it
ends in. -/
structure Passage where
  before : Kernel
  event : Event
  exit : Exit
  /-- The state in which the handler ends. -/
  left : Kernel

/-- A step of a regular run, in the two parts that `p` describes. -/
structure Passes (k : Kernel) (p : Passage) (k' : Kernel) : Prop where
  before : p.before = k
  regular : Regular k p.event
  entry : ∃ fuel, MikaBoo.entry fuel k p.event = .ok (p.exit, p.left)
  leave : MikaBoo.leave p.left p.exit = .ok k'

/-- The number of calls of `scheduler`. -/
def calls (ps : List Passage) : Nat := ps.countP (·.exit.leaves)

/-- The thread is in the ready queue before each step of the run, and at its end. -/
structure Stays (t : Tcb) (ps : List Passage) (k' : Kernel) : Prop where
  before : ∀ p ∈ ps, t ∈ p.before.readyq
  after : t ∈ k'.readyq

/-- The threads that a passage dispatches: one, if the scheduler finds one. -/
def Passage.dispatched (p : Passage) (k' : Kernel) : List Tcb :=
  if p.exit.leaves then k'.currentThread.toList else []

/-- The run dispatches `t`, which waits for that in the ready queue from its start
on, by the call of `scheduler` with the number `n`. -/
def DispatchedBy (t : Tcb) (k : Kernel) (ps : List Passage) (n : Nat) : Prop :=
  ∃ ps₁ p ps₂ k₁ k₂, ps = ps₁ ++ p :: ps₂ ∧ Run Passes k ps₁ k₁ ∧ Passes k₁ p k₂ ∧
    Stays t ps₁ k₁ ∧ p.exit = .schedule ∧ k₂.currentThread = some t ∧ calls (ps₁ ++ [p]) ≤ n

/-! ## Passages -/

section passages

variable {k k' : Kernel} {p : Passage} {ps : List Passage} {e : Event} {es : List Event} {t : Tcb}

namespace Passes

theorem regularStep (s : Passes k p k') : RegularStep k p.event k' := by
  obtain ⟨fuel, h⟩ := s.entry
  exact ⟨s.regular, fuel, bind_eq_ok.mpr ⟨_, h, s.leave⟩⟩

theorem good (s : Passes k p k') (H : Good k) : Good k' := H.regularStep s.regularStep

end Passes

/-- Every step of a regular run is a passage. -/
theorem exists_passage (h : RegularStep k e k') : ∃ p, p.event = e ∧ Passes k p k' := by
  obtain ⟨hr, fuel, h⟩ := h
  obtain ⟨⟨x, k₁⟩, hk₁, h⟩ := bind_eq_ok.mp h
  exact ⟨⟨k, e, x, k₁⟩, rfl, rfl, hr, ⟨fuel, hk₁⟩, h⟩

/-- Every regular run is a run of passages. -/
theorem exists_passages (run : Run RegularStep k es k') :
    ∃ ps, ps.map Passage.event = es ∧ Run Passes k ps k' := by
  induction run with
  | nil => exact ⟨[], rfl, .nil⟩
  | snoc _ last ih =>
      obtain ⟨ps, rfl, run⟩ := ih
      obtain ⟨p, rfl, s⟩ := exists_passage last
      exact ⟨ps ++ [p], by simp, run.snoc s⟩

theorem good_of_passages (H : Good k) (run : Run Passes k ps k') : Good k' :=
  run.invariant (fun _ _ _ H s => s.good H) H

@[simp] theorem calls_append {qs : List Passage} : calls (ps ++ qs) = calls ps + calls qs :=
  List.countP_append

theorem calls_singleton : calls [p] = if p.exit.leaves then 1 else 0 := by
  simp [calls, List.countP_cons]

theorem Stays.of_append {k₁ : Kernel} (h : Stays t (ps ++ [p]) k') (s : Passes k₁ p k') :
    Stays t ps k₁ where
  before q hq := h.before q (List.mem_append_left _ hq)
  after := s.before ▸ h.before p (by simp)

theorem Stays.append {k₁ : Kernel} (h : Stays t ps k₁) (s : Passes k₁ p k')
    (ht : t ∈ k'.readyq) : Stays t (ps ++ [p]) k' where
  before q hq := by
    rcases List.mem_append.mp hq with hq | hq
    · exact h.before q hq
    · rw [List.mem_singleton.mp hq, s.before]
      exact h.after
  after := ht

end passages

/-! ## One passage -/

/-- The scheduler takes the first thread of the ready queue, if there is one. -/
theorem scheduler_readyq {k k' : Kernel} (R : Refines k k.view)
    (h : scheduler k = .ok k') : k.readyq = k'.currentThread.toList ++ k'.readyq := by
  cases hq : k.readyq with
  | nil =>
      have hq' : k.view.sched .readyq = [] := hq
      simp only [scheduler, R.dequeue_nil hq', ok_bind, emptyReadyqH] at h
      split at h
      · cases h
      · split at h
        · cases h
        · obtain ⟨_, _, h⟩ := bind_eq_ok.mp h
          cases h
          exact hq.symm
  | cons t rest =>
      have hq' : k.view.sched .readyq = t :: rest := hq
      obtain ⟨k₁, hk₁, R₁⟩ := R.dequeue_cons hq'
      rw [scheduler, hk₁] at h
      cases h
      have hrest : k₁.readyq = rest := by
        rw [R₁.readyq]
        simp [View.outqueue, hq']
      change t :: rest = t :: k₁.readyq
      rw [hrest]

namespace Good

variable {k k' : Kernel} {e : Event} {fuel : Nat} {t : Tcb}

theorem not_free_of_ready (H : Good k) (ht : t ∈ k.readyq) : t ∉ k.view.threads .free := by
  intro hfree
  exact H.inv.scheduled.allocated ht (H.inv.owned.status.mpr (H.inv.owned.free.mp hfree))

/-- A thread that a step frees is not in the ready queue afterwards. -/
theorem casualty (H : Good k) (hr : Regular k e) (h : MikaBoo.step fuel k e = .ok k')
    (ht : t ∈ k.casualties e) : t ∉ k'.readyq ∧ k.incarnation t < k'.incarnation t := by
  refine ⟨fun hm => (H.step hr h).1.not_free_of_ready hm (H.free_of_casualty hr h ht), ?_⟩
  have hv : k.casualties e ≠ [] := List.ne_nil_of_mem ht
  obtain ⟨a, rfl, ha, hall, _⟩ := H.reaped hr hv h
  rcases step_served H.rolls h with ⟨hs, _⟩ | ⟨b, q, r, _, _, hb, hq, S⟩
  · exact absurd (Kernel.casualties_of_idle hs) hv
  · obtain rfl := Option.some.inj (ha.symm.trans hb)
    rw [Kernel.casualties_of_request ha hq] at ht
    exact (S.killed H.rolls (fun _ => hall.1) ht).2.2

end Good

namespace Passes

variable {k k' : Kernel} {p : Passage} {a b t : Tcb}

/-- A passage is a round of the ready queue. -/
theorem round (s : Passes k p k') (H : Good k) :
    Line.Round (k.casualties p.event) (p.dispatched k') k.readyq k'.readyq := by
  obtain ⟨fuel, h⟩ := s.entry
  obtain ⟨new, hnew⟩ := H.entry_readyq s.regular h
  refine ⟨new, hnew.symm.trans ?_⟩
  have G := (H.entry s.regular h).1.goes
  have hl := s.leave
  unfold Passage.dispatched
  cases hx : p.exit with
  | resume st =>
      rw [hx] at hl
      cases hl
      rfl
  | schedule =>
      rw [hx] at hl
      exact scheduler_readyq G.refines hl

/-- The thread that runs is not in the ready queue. -/
theorem not_dispatched (s : Passes k p k') (H : Good k) (ht : t ∈ k'.readyq) :
    t ∉ p.dispatched k' := by
  unfold Passage.dispatched
  split
  · intro hm
    exact (s.good H).inv.scheduled.off ht (Option.mem_toList.mp hm)
  · exact List.not_mem_nil

theorem spared (s : Passes k p k') (H : Good k) (ht : t ∈ k'.readyq) :
    t ∉ k.casualties p.event := by
  obtain ⟨fuel, h⟩ := s.entry
  intro hm
  exact (H.casualty s.regular (bind_eq_ok.mpr ⟨_, h, s.leave⟩) hm).1 ht

/-- A thread in the ready queue stays there, is dispatched or is terminated. -/
theorem turn (s : Passes k p k') (H : Good k) (hb : b ∈ k.readyq) :
    b ∈ k'.readyq ∨ (p.exit = .schedule ∧ k'.currentThread = some b) ∨
      k.incarnation b < k'.incarnation b := by
  by_cases hg : b ∈ k.casualties p.event
  · obtain ⟨fuel, h⟩ := s.entry
    exact Or.inr (Or.inr (H.casualty s.regular (bind_eq_ok.mpr ⟨_, h, s.leave⟩) hg).2)
  · rcases (s.round H).mem hb hg with hd | hstay
    · unfold Passage.dispatched at hd
      cases hx : p.exit with
      | resume st => simp [hx, Exit.leaves] at hd
      | schedule =>
          simp only [hx, Exit.leaves, if_true, Option.mem_toList] at hd
          exact Or.inr (Or.inl ⟨rfl, hd⟩)
    · exact Or.inl hstay

/-- Somebody is dispatched when the scheduler is called and somebody is left behind. -/
theorem length_dispatched (s : Passes k p k') (H : Good k) (hb : b ∈ k'.readyq) :
    (p.dispatched k').length = calls [p] := by
  rw [calls_singleton]
  unfold Passage.dispatched
  cases hx : p.exit with
  | resume st => rfl
  | schedule =>
      obtain ⟨fuel, h⟩ := s.entry
      have G := (H.entry s.regular h).1.goes
      have hl := s.leave
      rw [hx] at G hl
      have G₀ : Goes _ _ p.left none := G
      obtain ⟨_, ⟨_, hempty, _⟩ | ⟨u, _, _, hcur, _⟩⟩ := G₀.scheduler hl
      · have hmem : b ∈ k'.view.sched .readyq := hb
        simp [hempty] at hmem
      · simp [hcur, Exit.leaves]

end Passes

/-! ## Runs -/

section runs

variable {k k₁ k' : Kernel} {p : Passage} {ps : List Passage} {a b t u : Tcb}

/-- While a thread stays in the ready queue, each call of `scheduler` takes one of
those ahead of it. -/
theorem length_ahead (H : Good k) (run : Run Passes k ps k') (hb : Stays b ps k') :
    calls ps + (k'.ahead b).length ≤ (k.ahead b).length := by
  induction run with
  | nil => simp [calls]
  | @snoc k₁ k' ps p run last ih =>
      have H₁ := good_of_passages H run
      have hb₁ := hb.of_append last
      have hround := (last.round H₁).length_ahead hb₁.after (last.spared H₁ hb.after)
        (last.not_dispatched H₁ hb.after)
      rw [last.length_dispatched H₁ hb.after] at hround
      have hprev := ih hb₁
      simp only [calls_append]
      unfold Kernel.ahead at hprev ⊢
      omega

/-- Two threads that stay in the ready queue keep their order. -/
theorem order_kept (H : Good k) (run : Run Passes k ps k') (ha : Stays a ps k')
    (hb : Stays b ps k') (hab : a ∈ k.ahead b) : a ∈ k'.ahead b := by
  induction run with
  | nil => exact hab
  | snoc run last ih =>
      have H₁ := good_of_passages H run
      have hb₁ := hb.of_append last
      have hab₁ := ih (ha.of_append last) hb₁
      exact (last.round H₁).mem_ahead hb₁.after (last.spared H₁ hb.after)
        (last.not_dispatched H₁ hb.after) hab₁ (last.spared H₁ ha.after)
        (last.not_dispatched H₁ ha.after)

/-- Whoever is ahead of a thread has been in the ready queue for as long as it. -/
theorem stays_of_ahead (H : Good k) (run : Run Passes k ps k') (hb : Stays b ps k')
    (ha : a ∈ k'.ahead b) : Stays a ps k' := by
  induction run with
  | nil => exact ⟨by simp, Line.mem_of_mem_ahead ha⟩
  | snoc run last ih =>
      have H₁ := good_of_passages H run
      have hb₁ := hb.of_append last
      have ha₁ := (last.round H₁).of_ahead hb₁.after (last.spared H₁ hb.after)
        (last.not_dispatched H₁ hb.after) (Or.inr ha)
      exact (ih hb₁ ha₁).append last (Line.mem_of_mem_ahead ha)

/-- The scheduler dispatches a thread that has been in the ready queue for as long
as any that it leaves there. -/
theorem stays_of_dispatched (H : Good k) (run : Run Passes k ps k₁) (s : Passes k₁ p k')
    (hx : p.exit = .schedule) (ht : k'.currentThread = some t) (hu : u ∈ k'.readyq)
    (hstay : Stays u ps k₁) : Stays t ps k₁ := by
  have H₁ := good_of_passages H run
  have hd : t ∈ p.dispatched k' := by simp [Passage.dispatched, hx, Exit.leaves, ht]
  have hahead := (s.round H₁).of_ahead hstay.after (s.spared H₁ hu) (s.not_dispatched H₁ hu)
    (Or.inl hd)
  exact stays_of_ahead H run hstay hahead

theorem incarnation_le (run : Run Passes k ps k') (t : Tcb) :
    k.incarnation t ≤ k'.incarnation t := by
  induction run with
  | nil => exact le_rfl
  | snoc _ last ih =>
      obtain ⟨_, fuel, h⟩ := last.regularStep
      rcases (Accounting.step_times h).1 t with ⟨hi, _⟩ | ⟨_, hi, _⟩
      · exact ih.trans hi.ge
      · exact ih.trans hi.le

/-- A thread in the ready queue stays there, is dispatched in its turn or is terminated. -/
theorem turn_of_run (H : Good k) (run : Run Passes k ps k') (hb : b ∈ k.readyq) :
    Stays b ps k' ∨ DispatchedBy b k ps ((k.ahead b).length + 1) ∨
      k.incarnation b < k'.incarnation b := by
  induction run with
  | nil => exact Or.inl ⟨by simp, hb⟩
  | @snoc k₁ k' ps p run last ih =>
      have H₁ := good_of_passages H run
      rcases ih with hstay | ⟨ps₁, q, ps₂, k₂, k₃, rfl, hq⟩ | hfreed
      · rcases last.turn H₁ hstay.after with hb' | ⟨hx, hcur⟩ | hfreed
        · exact Or.inl (hstay.append last hb')
        · refine Or.inr (Or.inl ⟨ps, p, [], k₁, k', rfl, run, last, hstay, hx, hcur, ?_⟩)
          have hlen := length_ahead H run hstay
          have hone : calls [p] = 1 := by simp [calls_singleton, hx, Exit.leaves]
          simp only [calls_append]
          omega
        · exact Or.inr (Or.inr ((incarnation_le run b).trans_lt hfreed))
      · refine Or.inr (Or.inl ⟨ps₁, q, ps₂ ++ [p], k₂, k₃, ?_, hq⟩)
        simp
      · refine Or.inr (Or.inr (hfreed.trans_le ?_))
        exact incarnation_le (.single last) b

end runs

/-- In every regular run, from any state on: two threads that stay in the ready
queue keep their order, and the number of those ahead of one of them never grows;
each call of `scheduler` takes the head of the queue, which has been in it for as
long as any that is left; and a thread that is not terminated is dispatched, when
`n` are ahead of it, by the call with the number `n + 1`. -/
theorem no_overtaking {hw : Hardware} {k₀ k k' : Kernel} {es : List Event} {ps : List Passage}
    (hb : boot hw = .ok k₀) (past : Run RegularStep k₀ es k) (run : Run Passes k ps k') :
    (∀ a b, Stays a ps k' → Stays b ps k' → a ∈ k.ahead b → a ∈ k'.ahead b) ∧
    (∀ b, Stays b ps k' → (k'.ahead b).length ≤ (k.ahead b).length) ∧
    (∀ p k'', Passes k' p k'' → p.exit = .schedule →
      p.left.readyq = k''.currentThread.toList ++ k''.readyq ∧
      ∀ t, k''.currentThread = some t → ∀ u ∈ k''.readyq, Stays u ps k' → Stays t ps k') ∧
    ∀ b ∈ k.readyq, (k.ahead b).length < calls ps → k'.incarnation b = k.incarnation b →
      DispatchedBy b k ps ((k.ahead b).length + 1) := by
  have H : Good k := (Good.boot hb).run past
  refine ⟨fun a b ha hb => order_kept H run ha hb, fun b hb => ?_, fun p k'' s hx => ?_,
    fun b hb hcalls hsame => ?_⟩
  · have hlen := length_ahead H run hb
    omega
  · refine ⟨?_, fun t ht u hu => stays_of_dispatched H run s hx ht hu⟩
    obtain ⟨fuel, h⟩ := s.entry
    have G := ((good_of_passages H run).entry s.regular h).1.goes
    have hl := s.leave
    rw [hx] at hl
    exact scheduler_readyq G.refines hl
  · rcases turn_of_run H run hb with hstay | hdone | hfreed
    · have hlen := length_ahead H run hstay
      omega
    · exact hdone
    · omega

/-- Execute a list of events, passage by passage. -/
def passages (fuel : Nat) (k : Kernel) : List Event → Option (List Passage × Kernel)
  | [] => some ([], k)
  | e :: es => do
      let (x, k₁) ← (entry fuel k e).toOption
      let k₂ ← (leave k₁ x).toOption
      let (ps, k') ← passages fuel k₂ es
      if Regular k e then some (⟨k, e, x, k₁⟩ :: ps, k') else none

theorem run_of_passages {fuel : Nat} {k k' : Kernel} {es : List Event} {ps : List Passage}
    (h : passages fuel k es = some (ps, k')) : Run Passes k ps k' := by
  induction es generalizing k ps with
  | nil =>
      cases h
      exact .nil
  | cons e es ih =>
      obtain ⟨⟨x, k₁⟩, hk₁, h⟩ := Option.bind_eq_some_iff.mp h
      obtain ⟨k₂, hk₂, h⟩ := Option.bind_eq_some_iff.mp h
      obtain ⟨⟨qs, k₃⟩, hqs, h⟩ := Option.bind_eq_some_iff.mp h
      dsimp only at h
      split at h
      · rename_i hr
        cases h
        exact (ih hqs).cons ⟨rfl, hr, ⟨fuel, exec_eq_ok hk₁⟩, exec_eq_ok hk₂⟩
      · cases h

/-- After the boot the SSI is ahead of the test thread, and the second call of
`scheduler` dispatches that. -/
theorem no_overtaking_sample : ∃ k₀ k : Kernel, ∃ ps : List Passage,
    boot Sample.hardware = .ok k₀ ∧ Run Passes k₀ ps k ∧
    k₀.ahead (.thread 0) = [.ssi] ∧ DispatchedBy (.thread 0) k₀ ps 2 := by
  let check : Kernel → List Passage × Kernel → Bool := fun k₀ s =>
    k₀.readyq = [.ssi, .thread 0] ∧ k₀.ahead (.thread 0) = [.ssi] ∧ calls s.1 = 2 ∧
      s.2.incarnation (.thread 0) = k₀.incarnation (.thread 0)
  have h : (boot Sample.hardware).toOption.any (fun k₀ =>
      (passages 100 k₀ [.start, .ssi]).any (check k₀)) = true := by
    decide +kernel
  obtain ⟨k₀, hb, h⟩ := Option.any_eq_true _ _ |>.mp h
  obtain ⟨⟨ps, k⟩, hps, h⟩ := Option.any_eq_true _ _ |>.mp h
  obtain ⟨hready, hahead, hcalls, hsame⟩ := of_decide_eq_true h
  have run := run_of_passages hps
  have hmem : Tcb.thread 0 ∈ k₀.readyq := by simp [hready]
  have hturn := (no_overtaking (exec_eq_ok hb) .nil run).2.2.2 (.thread 0) hmem
    (by simp [hahead, hcalls]) hsame
  rw [hahead] at hturn
  exact ⟨k₀, k, ps, exec_eq_ok hb, run, hahead, hturn⟩

end MikaBoo
