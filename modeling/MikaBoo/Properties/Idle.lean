import MikaBoo.Abstract.Census

/-!
# The idle flag

`is_idle` says that the processor waits, as long as the interval timer does not
expire while it does: `interval_timer_h` goes on with the scheduler without
clearing the flag.
-/

namespace MikaBoo

open Fuel Transition

/-- No interrupt finds the processor waiting and the interval timer outside its slice. -/
def Undisturbed (k : Kernel) (e : Event) : Prop :=
  ∀ pending, e = .interrupt pending → k.mode = .waiting → k.timerFired = false

/-- `is_idle` says that the processor waits, which it does without a current thread. -/
structure Kernel.IdleExact (k : Kernel) : Prop where
  flag : k.isIdle = true ↔ k.mode = .waiting
  waiting : k.mode = .waiting → k.currentThread = none
  running : k.mode = .running → k.currentThread ≠ none

namespace Idle

variable {k k' k₁ : Kernel} {e : Event} {fuel : Nat} {x : Exit}

theorem of_good (H : Good k) : k.IdleExact where
  flag := by
    refine ⟨fun hi => ?_, fun hw => (H.waiting hw).2.1⟩
    by_contra hw
    rw [H.awake hw] at hi
    cases hi
  waiting hw := (H.waiting hw).1
  running := H.running

/-- A handler ends the idling when it acknowledges a completion, and only then. -/
theorem entry_processor (h : entry fuel k e = .ok (x, k₁)) :
    k₁.currentThread = k.currentThread ∧ k₁.mode = k.mode ∧
      (k₁.isIdle = k.isIdle ∨ k₁.isIdle = false ∧ k.timerFired = false ∧ x.leaves = k.isIdle) := by
  have hleave : ∀ t o, (k.kept.leave t o).currentThread = k.currentThread ∧
      (k.kept.leave t o).mode = k.mode ∧ (k.kept.leave t o).isIdle = k.isIdle := by
    rintro t (_ | _ | _ | _) <;> exact ⟨rfl, rfl, rfl⟩
  rcases entry_spares h with ⟨_, hx, hk⟩ | ⟨_, _, S⟩
  · have hcur : k₁.currentThread = (k.onEntry e).currentThread := congrArg Kept.currentThread hk
    have hmode : k₁.mode = (k.onEntry e).mode := congrArg Kept.mode hk
    have hidle : k₁.isIdle = (k.onEntry e).isIdle := congrArg Kept.isIdle hk
    rw [hcur, hmode, hidle]
    cases e with
    | run | elapse => exact ⟨rfl, rfl, Or.inl rfl⟩
    | interrupt pending =>
        cases hf : k.timerFired with
        | false =>
            simp only [Kernel.onEntry, hf, Bool.false_eq_true, if_false]
            exact ⟨rfl, rfl, Or.inr ⟨rfl, trivial, by simpa [Kernel.reschedules, hf] using hx⟩⟩
        | true =>
            simp only [Kernel.onEntry, hf, if_true]
            obtain ⟨h₁, h₂, h₃⟩ := hleave k.currentThread (k.ending (.interrupt pending))
            exact ⟨h₁, h₂, Or.inl h₃⟩
    | _ =>
        obtain ⟨h₁, h₂, h₃⟩ := hleave k.currentThread (k.ending _)
        exact ⟨h₁, h₂, Or.inl h₃⟩
  · exact ⟨congrArg Processor.currentThread S.processor, congrArg Processor.mode S.processor,
      Or.inl (congrArg Processor.isIdle S.processor)⟩

/-- An idle processor reacts to interrupts only. -/
theorem mode_of_schedule (he : ∀ pending, e ≠ .interrupt pending)
    (h : entry fuel k e = .ok (.schedule, k₁)) : k.mode ≠ .waiting := by
  intro hw
  have hu : k.userRuns = false := by simp [Kernel.userRuns, hw]
  cases e with
  | interrupt pending => exact he pending rfl
  | start | ssi => simp [entry, hw] at h
  | elapse cycles =>
      simp only [entry] at h
      split at h <;> cases h
  | run | edit | syscall | pgmtrap | tlbtrap => simp [entry, hu] at h

/-- The scheduler is entered with `is_idle` clear unless the timer expires while
the processor waits. -/
theorem schedule_iff (I : k.IdleExact) (h : entry fuel k e = .ok (.schedule, k₁)) :
    k₁.isIdle = false ↔ Undisturbed k e := by
  obtain ⟨_, _, hidle⟩ := entry_processor h
  by_cases he : ∃ pending, e = .interrupt pending
  · obtain ⟨pending, rfl⟩ := he
    constructor
    · intro hoff pending' _ hw
      rcases hidle with hsame | ⟨_, hf, _⟩
      · rw [hsame, I.flag.mpr hw] at hoff
        cases hoff
      · exact hf
    · intro hu
      rcases hidle with hsame | ⟨hoff, _, _⟩
      · rw [hsame]
        by_contra hi
        rw [Bool.not_eq_false] at hi
        have hf := hu pending rfl (I.flag.mp hi)
        rcases entry_spares h with ⟨_, _, hk⟩ | ⟨hs, _⟩
        · have hoff : k₁.isIdle = (k.onEntry (.interrupt pending)).isIdle := congrArg Kept.isIdle hk
          simp only [Kernel.onEntry, hf, Bool.false_eq_true, if_false] at hoff
          rw [hsame, hi] at hoff
          cases hoff
        · cases hs
      · exact hoff
  · rw [not_exists] at he
    refine iff_of_true ?_ fun pending hp => absurd hp (he pending)
    have hw := mode_of_schedule he h
    rcases hidle with hsame | ⟨hoff, _, _⟩
    · rw [hsame]
      by_contra hi
      exact hw (I.flag.mp (by simpa using hi))
    · exact hoff

/-- A completion never takes the processor from the current thread. -/
theorem keeps_running {pending : Fin 5 → Word} (I : k.IdleExact) (hm : k.mode = .running)
    (hf : k.timerFired = false) (h : entry fuel k (.interrupt pending) = .ok (x, k₁)) :
    x ≠ .schedule := by
  rintro rfl
  rcases entry_spares h with ⟨_, hx, _⟩ | ⟨hs, _⟩
  · have hi : k.isIdle = true := by simpa [Kernel.reschedules, hf, Exit.leaves] using hx.symm
    rw [I.flag.mp hi] at hm
    cases hm
  · cases hs

/-- The flag is right after a step exactly when the step meets the condition. -/
theorem step_iff (I : k.IdleExact) (h : step fuel k e = .ok k') :
    k'.IdleExact ↔ Undisturbed k e := by
  obtain ⟨⟨x, k₁⟩, hk₁, h⟩ := bind_eq_ok.mp h
  obtain ⟨hcur, hmode, hidle⟩ := entry_processor hk₁
  cases x with
  | resume s =>
      cases h
      have hsame : k₁.isIdle = k.isIdle := by
        rcases hidle with hsame | ⟨hoff, _, hx⟩
        · exact hsame
        · rw [hoff, ← hx]
          rfl
      refine iff_of_true ⟨?_, fun hw => ?_, fun hr => ?_⟩ ?_
      · change k₁.isIdle = true ↔ k₁.mode = .waiting
        rw [hsame, hmode]
        exact I.flag
      · exact hcur.trans (I.waiting (hmode.symm.trans hw))
      · change k₁.currentThread ≠ none
        rw [hcur]
        exact I.running (hmode.symm.trans hr)
      · rintro pending rfl hw
        rcases entry_spares hk₁ with ⟨_, hx, _⟩ | ⟨hs, _⟩
        · have hi := I.flag.mpr hw
          simp [Kernel.reschedules, hi, Exit.leaves] at hx
        · cases hs
  | schedule =>
      obtain ⟨_, hs⟩ := Frame.scheduler h
      rw [← schedule_iff I hk₁]
      rcases hs with ⟨hnone, hoff, hon, hm⟩ | ⟨hsome, hsame, hm⟩
      · exact iff_of_true ⟨⟨fun _ => hm, fun _ => hon⟩, fun _ => hnone,
          fun hr => absurd (hm.symm.trans hr) (by rintro ⟨⟩)⟩ hoff
      · constructor
        · intro I'
          rw [← hsame]
          by_contra hi
          have hw := I'.flag.mp (by simpa using hi)
          exact absurd (hm.symm.trans hw) (by rintro ⟨⟩)
        · intro hoff
          exact ⟨by simp [hsame, hoff, hm], fun hw => absurd (hm.symm.trans hw) (by rintro ⟨⟩), fun _ => hsome⟩

end Idle

/-- As long as the interval timer does not expire while the processor waits,
`is_idle` is right whenever the kernel is entered, it is clear whenever the
scheduler is entered, so the assertion in `empty_readyq_h` holds, and a completion
lets the current thread go on. The first expiry while the processor waits breaks it. -/
theorem idle_flag {hw : Hardware} {k₀ k : Kernel} {es : List Event} (hb : boot hw = .ok k₀)
    (run : Run (GuardedStep Undisturbed) k₀ es k) :
    k.IdleExact ∧
      (∀ fuel e k₁, entry fuel k e = .ok (.schedule, k₁) →
        (k₁.isIdle = false ↔ Undisturbed k e)) ∧
      (∀ fuel pending x k₁, k.mode = .running → k.timerFired = false →
        entry fuel k (.interrupt pending) = .ok (x, k₁) → x ≠ .schedule) ∧
      ∀ e k', Step k e k' → (k'.IdleExact ↔ Undisturbed k e) := by
  have I : k.IdleExact := by
    refine run.invariant (fun k e k' I h => ?_) (Idle.of_good (Good.boot hb))
    obtain ⟨hu, fuel, h⟩ := h
    exact (Idle.step_iff I h).mpr hu
  exact ⟨I, fun _ _ _ h => Idle.schedule_iff I h, fun _ _ _ _ hm hf h => Idle.keeps_running I hm hf h,
    fun _ _ ⟨_, h⟩ => Idle.step_iff I h⟩

instance (k : Kernel) (e : Event) : Decidable (Undisturbed k e) :=
  match e with
  | .interrupt pending => decidable_of_iff (k.mode = .waiting → k.timerFired = false)
      ⟨fun h _ _ => h, fun h => h pending rfl⟩
  | .start | .run .. | .elapse _ | .edit .. | .syscall | .pgmtrap _ | .tlbtrap _ | .ssi =>
      isTrue nofun

namespace Sample

/-- The first thread writes to the terminal, and the processor waits for it. -/
def doIo : List Event :=
  [.start, .ssi] ++ service [.int 10, TERMINAL0_TRANSM_COMMAND, .int 2, null, null]

end Sample

/-- A completion after 100 cycles of waiting wakes the thread that waits for it. -/
theorem idle_flag_sample : ∃ k₀ k : Kernel, boot Sample.hardware = .ok k₀ ∧
    Run (GuardedStep Undisturbed) k₀ (Sample.doIo ++ [.elapse 100, .interrupt fun _ => 1]) k ∧
    k.currentThread = some (.thread 0) ∧ k.IdleExact := by
  have h : (execute Undisturbed Sample.hardware 100
      (Sample.doIo ++ [.elapse 100, .interrupt fun _ => 1])).any
      (fun k => k.currentThread = some (.thread 0)) = true := by
    decide +kernel
  obtain ⟨k, hk, hcur⟩ := Option.any_eq_true _ _ |>.mp h
  obtain ⟨k₀, hb, run⟩ := run_of_execute hk
  exact ⟨k₀, k, hb, run, of_decide_eq_true hcur, (idle_flag hb run).1⟩

/-- The processor waits for the terminal for a whole time slice: the scheduler is
entered with `is_idle` set, and the kernel panics. -/
theorem idle_flag_wrong : ∃ k₀ k k₁ k₂ : Kernel, boot Sample.hardware = .ok k₀ ∧
    Run Step k₀ (Sample.doIo ++ [.elapse 5000]) k ∧ k.mode = .waiting ∧
    k.softBlockedThread TERMINAL_REQUESTER_INDEX = some (.thread 0) ∧ k.softBlockCount = 1 ∧
    k.threadCount = 2 ∧ entry 100 k (.interrupt fun _ => 0) = .ok (.schedule, k₁) ∧
    k₁.isIdle = true ∧ step 100 k (.interrupt fun _ => 0) = .error (.panic k₂) := by
  let check : Kernel → Bool := fun k => k.mode = .waiting ∧
    k.softBlockedThread TERMINAL_REQUESTER_INDEX = some (.thread 0) ∧ k.softBlockCount = 1 ∧
    k.threadCount = 2 ∧ panics (step 100 k (.interrupt fun _ => 0)) = true
  have h : (execute (fun _ _ => True) Sample.hardware 100 (Sample.doIo ++ [.elapse 5000])).any
      (fun k => check k && (entry 100 k (.interrupt fun _ => 0)).toOption.any fun r =>
        r.1 = .schedule && r.2.isIdle) = true := by
    decide +kernel
  obtain ⟨k, hk, hprops⟩ := Option.any_eq_true _ _ |>.mp h
  obtain ⟨hcheck, hentry⟩ := Bool.and_eq_true_iff.mp hprops
  obtain ⟨hm, hslot, hsoft, hcount, hpanic⟩ := of_decide_eq_true hcheck
  obtain ⟨⟨x, k₁⟩, hr, hx⟩ := Option.any_eq_true _ _ |>.mp hentry
  obtain ⟨hx, hi⟩ := Bool.and_eq_true_iff.mp hx
  obtain rfl : x = .schedule := of_decide_eq_true hx
  obtain ⟨k₀, hb, run⟩ := run_of_execute hk
  obtain ⟨k₂, hpanic⟩ := panics_iff.mp hpanic
  exact ⟨k₀, k, k₁, k₂, hb, forget_guard run, hm, hslot, hsoft, hcount, exec_eq_ok hr, hi, hpanic⟩

end MikaBoo
