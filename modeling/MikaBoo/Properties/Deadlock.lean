import MikaBoo.Abstract.Casualties
import MikaBoo.Abstract.Transmitter
import MikaBoo.Properties.Idle
import MikaBoo.Properties.ThreadCount

/-!
# The deadlock verdict

`empty_readyq_h` takes `soft_block_count` for the number of threads that wait for a
device or the clock. `do_io_s` is the only place that changes the counter, so it is
right up to the first completion.
-/

namespace MikaBoo

open Intrusive Fuel Transition

/-- The slots in which a thread waits for a device. -/
def Counts.slots (c : Counts) : Finset (Fin 5) :=
  Finset.univ.filter fun i => c.softBlockedThread i ≠ none

theorem Counts.mem_slots {c : Counts} {i : Fin 5} : i ∈ c.slots ↔ c.softBlockedThread i ≠ none :=
  Finset.mem_filter.trans (and_iff_right (Finset.mem_univ i))

namespace Kernel

/-- The number of threads that wait for a device or the clock. -/
def softBlocked (k : Kernel) : Nat :=
  k.counts.slots.card + (k.view.sched .tWait4clock).length

/-- No thread waits for a device or the clock. -/
def Unawaited (k : Kernel) : Prop :=
  (∀ i, k.softBlockedThread i = none) ∧ k.view.sched .tWait4clock = []

theorem unawaited_iff (k : Kernel) : k.Unawaited ↔ k.softBlocked = 0 := by
  rw [Unawaited, softBlocked, Nat.add_eq_zero_iff, Finset.card_eq_zero,
    Finset.eq_empty_iff_forall_notMem, List.length_eq_zero_iff]
  simp only [Counts.mem_slots, not_not]
  rfl

end Kernel

/-- The step is one of a regular run. No completion is acknowledged, and the interval timer does
not expire while the processor waits. -/
def Uncompleted (k : Kernel) (e : Event) : Prop :=
  Regular k e ∧ k.completes e = false ∧ Undisturbed k e

instance (k : Kernel) (e : Event) : Decidable (Uncompleted k e) := inferInstanceAs (Decidable (_ ∧ _))

namespace Counts

variable {c c' : Kept}

/-- `soft_block_count` counts the slots in which a thread waits. -/
def Exact (c : Counts) : Prop := c.softBlockCount.toNat = c.slots.card

theorem card_slots_le (c : Counts) : c.slots.card ≤ 5 :=
  (Finset.card_le_univ _).trans_eq (Fintype.card_fin 5)

/-- A slot that is taken was free before. -/
theorem Exact.after {d : Deed} (E : c.counts.Exact) (ha : c.Allows d) : (c.after d).counts.Exact := by
  cases d with
  | engage i t =>
      have hfree : i ∉ c.counts.slots := by
        have hnone : c.counts.softBlockedThread i = none := ha
        simp [mem_slots, hnone]
      have hslots : (c.after (.engage i t)).counts.slots = insert i c.counts.slots := by
        ext j
        rw [Finset.mem_insert, mem_slots, mem_slots]
        by_cases hj : j = i <;> simp [Kept.after, hj]
      have hle := card_slots_le c.counts
      have hone : c.counts.softBlockCount.toNat = c.counts.slots.card := E
      change (c.counts.softBlockCount + 1).toNat = (c.after (.engage i t)).counts.slots.card
      rw [hslots, Finset.card_insert_of_notMem hfree, ← hone]
      bv_omega
  | hire | fire | adopt | orphan | manage => exact E

theorem Exact.run {ds : List Deed} (E : c.counts.Exact) (run : Run Kept.Step c ds c') :
    c'.counts.Exact := by
  refine run.invariant (P := fun c => c.counts.Exact) (fun c d c' E h => ?_) E
  obtain ⟨ha, rfl⟩ := h
  exact E.after ha

end Counts

namespace Deadlock

variable {k k' k₁ : Kernel} {e : Event} {fuel : Nat} {x : Exit} {t : Tcb}

theorem onEntry_counts (hc : k.completes e = false) : (k.onEntry e).counts = k.counts := by
  have hleave : ∀ u o, (k.kept.leave u o).counts = k.counts := by
    rintro u (_ | _ | _ | _) <;> rfl
  cases e with
  | interrupt pending =>
      have hf : k.timerFired = true := by simpa [Kernel.completes] using hc
      simp only [Kernel.onEntry, hf, if_true]
      exact hleave _ _
  | run | elapse => rfl
  | _ => exact hleave _ _

/-- Requests keep the counter exact, and so does all else but a completion. -/
theorem entry_exact (C : k.kept.Rolls) (E : k.counts.Exact) (hc : k.completes e = false)
    (h : entry fuel k e = .ok (x, k₁)) : k₁.counts.Exact := by
  have hkept : ∀ {c : Kept}, k₁.kept = c → c.counts.Exact → k₁.counts.Exact := by
    rintro _ rfl h
    exact h
  rcases entry_served C h with ⟨_, _, hk⟩ | ⟨t, q, r, _, _, _, _, S⟩
  · refine hkept hk ?_
    rw [onEntry_counts hc]
    exact E
  · have E : k.kept.counts.Exact := E
    cases S with
    | plain same => exact hkept same E
    | create _ run _ =>
        have E₁ : k₁.kept.counts.Exact := E.run run
        exact E₁
    | terminate _ _ pruned =>
        obtain ⟨ds, run, _⟩ := pruned.run
        have E₁ : k₁.kept.counts.Exact := E.run run
        exact E₁
    | free _ _ _ freed => exact hkept freed E
    | appoint _ _ set => exact hkept set E
    | engage _ free engaged => exact hkept engaged (Counts.Exact.after E free)

theorem counts_leave (h : leave k x = .ok k') : k'.counts = k.counts :=
  (congrArg Kept.counts (Frame.leave h) :)

/-- A completion finds a thread in the slot. -/
theorem slot_of_completes (hc : k.completes e = true) (h : entry fuel k e = .ok (x, k₁)) :
    k.softBlockedThread TERMINAL_REQUESTER_INDEX ≠ none ∧
      k₁.counts = (k.kept.complete TERMINAL_REQUESTER_INDEX).counts := by
  cases e with
  | interrupt pending =>
      have hf : k.timerFired = false := by simpa [Kernel.completes] using hc
      constructor
      · simp only [entry] at h
        split at h
        · unfold interruptH at h
          have hslice : 0 < k.timer ∧ k.timer < k.clockPerTimeslice := by
            simpa [Kernel.timerFired] using hf
          simp only [Kernel.enter, hslice, and_self, if_true] at h
          unfold ioH at h
          split at h
          · obtain ⟨_, ha, _⟩ := bind_eq_ok.mp h
            unfold assert at ha
            split at ha
            · rename_i hsome
              exact Option.isSome_iff_ne_none.mp hsome
            · cases ha
          · cases h
        · cases h
      · rcases entry_spares h with ⟨_, _, hk⟩ | ⟨hs, _⟩
        · have hk : k₁.kept.counts = (k.onEntry (.interrupt pending)).counts := congrArg Kept.counts hk
          simp only [Kernel.onEntry, hf, Bool.false_eq_true, if_false] at hk
          exact hk
        · cases hs
  | _ => cases hc

/-- A completion takes a thread out of its slot and leaves the counter alone. -/
theorem not_exact_of_completes (E : k.counts.Exact) (hc : k.completes e = true)
    (h : entry fuel k e = .ok (x, k₁)) : ¬ k₁.counts.Exact := by
  obtain ⟨hsome, hcounts⟩ := slot_of_completes hc h
  have hmem : TERMINAL_REQUESTER_INDEX ∈ k.counts.slots := Counts.mem_slots.mpr hsome
  have hslots : k₁.counts.slots = k.counts.slots.erase TERMINAL_REQUESTER_INDEX := by
    ext j
    rw [Finset.mem_erase, Counts.mem_slots, Counts.mem_slots, hcounts]
    by_cases hj : j = TERMINAL_REQUESTER_INDEX <;> simp [Kept.complete, Kernel.kept, hj]
  have hcount : k₁.counts.softBlockCount = k.counts.softBlockCount :=
    (congrArg Counts.softBlockCount hcounts :)
  intro E'
  rw [Counts.Exact, hcount, hslots, E] at E'
  have hlt := Finset.card_erase_lt_of_mem hmem
  omega

theorem boot_exact {hw : Hardware} (hb : boot hw = .ok k) : k.counts.Exact := by
  obtain ⟨k', hk', R⟩ := boot_ok hw
  obtain rfl := Except.ok.inj (hb.symm.trans hk')
  have hcreate : ∀ (v : View) (t p s), (v.create t p s).globals.softBlockCount =
      v.globals.softBlockCount ∧ (v.create t p s).globals.softBlockedThread =
      v.globals.softBlockedThread := fun _ _ _ _ => ⟨rfl, rfl⟩
  have hcount : k.softBlockCount = 0 := by
    have hboot : (bootView hw).globals.softBlockCount = 0 := by
      have hload : ∀ k, (loadSsi hw k).globals.softBlockCount = k.globals.softBlockCount :=
        fun _ => rfl
      rw [bootView, ssiLoaded, hload, initialised_globals]
      rfl
    rw [← hboot, ← (hcreate (bootView hw) (.thread 0) root _).1, ← bootedView, R.globals]
    rfl
  have hslot : ∀ i, k.softBlockedThread i = none := by
    intro i
    rw [← bootView_soft hw i, ← (hcreate (bootView hw) (.thread 0) root _).2, ← bootedView,
      R.globals]
    rfl
  have hslots : k.counts.slots = ∅ :=
    Finset.eq_empty_iff_forall_notMem.mpr fun i hi => Counts.mem_slots.mp hi (hslot i)
  rw [Counts.Exact, hslots]
  exact congrArg BitVec.toNat hcount

/-- In a regular run nobody waits for the clock. -/
theorem exact_iff (H : Good k) : k.softBlockCount.toNat = k.softBlocked ↔ k.counts.Exact := by
  have G : Goes .plain ⟨k.view, k.currentThread⟩ k k.currentThread := H.goes
  rw [Kernel.softBlocked, G.clockEmpty]
  rfl

/-- The counter is exact after a step of a regular run iff the step is no completion. -/
theorem step_iff (H : Good k) (E : k.counts.Exact) (h : step fuel k e = .ok k') :
    k'.counts.Exact ↔ k.completes e = false := by
  obtain ⟨⟨x, k₁⟩, hk₁, h⟩ := bind_eq_ok.mp h
  rw [counts_leave h]
  cases hc : k.completes e with
  | false => exact iff_of_true (entry_exact H.rolls E hc hk₁) rfl
  | true => exact iff_of_false (not_exact_of_completes E hc hk₁) (by simp)

/-- A scheduler that finds nobody ready, `is_idle` clear and the counters right panics if nobody
waits, and makes the processor wait otherwise. -/
theorem verdict (C : Census k) (E : k.softBlockCount.toNat = k.softBlocked)
    (hready : threadDequeue k .readyq = .ok (none, k)) (ht : k.Allocated t)
    (hidle : k.isIdle = false) :
    (panics (scheduler k) = true ↔ k.Unawaited) ∧
      (¬ k.Unawaited → ∃ k', scheduler k = .ok k' ∧ k'.mode = .waiting) := by
  have hcount : k.threadCount ≠ 1 := by
    intro hone
    have hsum := C.threadCount_eq
    rw [hone] at hsum
    have hzero : k.occupied = 0 := by
      simpa using hsum.symm
    cases t with
    | ssi => exact ht.1 rfl
    | thread i =>
        have hmem : i ∈ Finset.univ.filter fun i => Tcb.thread i ∉ k.view.threads .free :=
          Finset.mem_filter.mpr ⟨Finset.mem_univ i, ht.2⟩
        rw [Finset.card_eq_zero.mp hzero] at hmem
        simp at hmem
  have hsoft : k.softBlockCount = 0 ↔ k.Unawaited := by
    rw [k.unawaited_iff, ← E]
    exact BitVec.toNat_inj.symm
  rw [← hsoft, scheduler, hready, ok_bind]
  simp only [emptyReadyqH, hcount, if_false, assert, hidle, Bool.not_false, if_true, ok_bind]
  by_cases hun : k.softBlockCount = 0
  · rw [if_pos hun]
    exact ⟨iff_of_true rfl hun, fun hne => absurd hun hne⟩
  · rw [if_neg hun]
    exact ⟨iff_of_false (by simp [panics]) hun, fun _ => ⟨_, rfl, rfl⟩⟩

end Deadlock

/-- As long as no completion is acknowledged in a regular run and the processor never waits for a
whole slice, `soft_block_count` counts the threads that wait for a device or the clock, and the
scheduler tells a deadlock from waiting. The first completion makes the counter wrong. -/
theorem deadlock_verdict {hw : Hardware} {k₀ k : Kernel} {es : List Event}
    (hb : boot hw = .ok k₀) (run : Run (GuardedStep Uncompleted) k₀ es k) :
    k.softBlockCount.toNat = k.softBlocked ∧
      (∀ fuel e k₁ t, Uncompleted k e → entry fuel k e = .ok (.schedule, k₁) →
        k₁.view.sched .readyq = [] → k₁.Allocated t →
          (panics (scheduler k₁) = true ↔ k₁.Unawaited) ∧
            (¬ k₁.Unawaited → ∃ k', scheduler k₁ = .ok k' ∧ k'.mode = .waiting)) ∧
      ∀ e k', RegularStep k e k' →
        (k'.softBlockCount.toNat = k'.softBlocked ↔ k.completes e = false) := by
  have H₀ := Good.boot hb
  have E₀ := Deadlock.boot_exact hb
  obtain ⟨H, E⟩ : Good k ∧ k.counts.Exact := by
    refine run.invariant (P := fun k => Good k ∧ k.counts.Exact) (fun k e k' I h => ?_) ⟨H₀, E₀⟩
    obtain ⟨⟨hr, hc, _⟩, fuel, h⟩ := h
    exact ⟨(I.1.step hr h).1, (Deadlock.step_iff I.1 I.2 h).mpr hc⟩
  refine ⟨(Deadlock.exact_iff H).mpr E, ?_, ?_⟩
  · rintro fuel e k₁ t ⟨hr, hc, hu⟩ h hready ht
    have G := (H.entry hr h).1.goes
    have E₁ : k₁.softBlockCount.toNat = k₁.softBlocked := by
      rw [Kernel.softBlocked, G.clockEmpty]
      exact Deadlock.entry_exact H.rolls E hc h
    exact Deadlock.verdict (.of_inv G.refines G.inv) E₁ (G.refines.dequeue_nil hready) ht
      ((Idle.schedule_iff (Idle.of_good H) h).mpr hu)
  · rintro e k' ⟨hr, fuel, h⟩
    rw [Deadlock.exact_iff (H.step hr h).1]
    exact Deadlock.step_iff H E h

/-- The first thread, whose output has been completed, receives a message that nobody sends. -/
def Sample.stuck : List Event :=
  Sample.doIo ++ [.elapse 100, .interrupt fun _ => 1,
    .run { a1 := SYS_RECV, cpsr := SYS_MODE_INT_DISABLED } (fun _ => null) 0]

/-- The processor waits for the terminal, as the counter says. -/
theorem deadlock_verdict_sample : ∃ k₀ k : Kernel, boot Sample.hardware = .ok k₀ ∧
    Run (GuardedStep Uncompleted) k₀ Sample.doIo k ∧ k.mode = .waiting ∧
    k.softBlockedThread TERMINAL_REQUESTER_INDEX = some (.thread 0) ∧
    k.softBlockCount.toNat = k.softBlocked := by
  let check : Kernel → Bool := fun k => k.mode = .waiting ∧
    k.softBlockedThread TERMINAL_REQUESTER_INDEX = some (.thread 0)
  have h : (execute Uncompleted Sample.hardware 100 Sample.doIo).any check = true := by
    decide +kernel
  obtain ⟨k, hk, hprops⟩ := Option.any_eq_true _ _ |>.mp h
  obtain ⟨k₀, hb, run⟩ := run_of_execute hk
  obtain ⟨hm, hslot⟩ := of_decide_eq_true hprops
  exact ⟨k₀, k, hb, run, hm, hslot, (deadlock_verdict hb run).1⟩

/-- Nobody waits for a device or the clock any more, and the processor waits for ever. -/
theorem deadlock_verdict_wrong : ∃ k₀ k k₁ k' : Kernel, boot Sample.hardware = .ok k₀ ∧
    Run Step k₀ Sample.stuck k ∧ entry 100 k .syscall = .ok (.schedule, k₁) ∧
    k₁.view.sched .readyq = [] ∧ k₁.Allocated (.thread 0) ∧ k₁.Unawaited ∧
    k₁.softBlockCount = 1 ∧ scheduler k₁ = .ok k' ∧ k'.mode = .waiting := by
  let check : Kernel → Bool := fun k => (entry 100 k .syscall).toOption.any fun p =>
    p.1 = .schedule ∧ p.2.view.sched .readyq = [] ∧ p.2.Allocated (.thread 0) ∧
      (∀ i, p.2.softBlockedThread i = none) ∧ p.2.view.sched .tWait4clock = [] ∧
      p.2.softBlockCount = 1 ∧ (scheduler p.2).toOption.any fun k' => k'.mode = .waiting
  have h : (execute (fun _ _ => True) Sample.hardware 100 Sample.stuck).any check = true := by
    decide +kernel
  obtain ⟨k, hk, hprops⟩ := Option.any_eq_true _ _ |>.mp h
  obtain ⟨k₀, hb, run⟩ := run_of_execute hk
  obtain ⟨⟨x, k₁⟩, hk₁, hprops⟩ := Option.any_eq_true _ _ |>.mp hprops
  obtain ⟨hx, hready, hall, hslots, hclock, hcount, hsched⟩ := of_decide_eq_true hprops
  obtain rfl : x = .schedule := hx
  obtain ⟨k', hk', hm⟩ := Option.any_eq_true _ _ |>.mp hsched
  exact ⟨k₀, k, k₁, k', hb, forget_guard run, exec_eq_ok hk₁, hready, hall, ⟨hslots, hclock⟩, hcount,
    exec_eq_ok hk', of_decide_eq_true hm⟩

end MikaBoo
