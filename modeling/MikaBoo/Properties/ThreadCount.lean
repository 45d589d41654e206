import MikaBoo.Abstract.Census

/-!
# The thread counter

`thread_count` counts the SSI and the threads that are not on the free list,
whatever happens to the scheduling queues, until a TERMINATE_THREAD request is
served for a thread that is not allocated any more.
-/

namespace MikaBoo

open Intrusive Fuel Transition

/-- A TERMINATE_THREAD request is served for an allocated thread. -/
def ServesAllocated (k : Kernel) (e : Event) : Prop :=
  e = .ssi → k.request = some .terminateThread → ∀ t ∈ k.applicant, k.Allocated t

/-- The number of entries of the array `thread` that are not on the free list. -/
def Kernel.occupied (k : Kernel) : Nat :=
  (Finset.univ.filter fun i => Tcb.thread i ∉ k.view.threads .free).card

/-- The lists of threads are in order, and `thread_count` is right. -/
structure Census (k : Kernel) : Prop where
  rolls : k.kept.Rolls
  counted : k.kept.Counted

namespace Census

variable {k k' : Kernel} {e : Event} {fuel : Nat} {x : Exit} {t : Tcb}

theorem of_inv {r : Option Tcb} (R : Refines k k.view) (I : k.view.Inv r) : Census k where
  rolls := .of_inv R I
  counted := I.counted.congr rfl fun _ => rfl

theorem occupied (C : k.kept.Rolls) : k.occupied = k.kept.view.population := by
  have h : ∀ i, Tcb.thread i ∉ k.view.threads .free ↔
      (k.kept.view.tcb (.thread i)).tPcb ≠ none := by
    intro i
    rw [show k.view.threads = k.kept.view.threads from rfl, C.listed]
    simp [ThreadList.owner, Kept.view]
  simp only [Kernel.occupied, View.population, h]

theorem notSelf_of_servesAllocated (hs : ServesAllocated k e) : NotSelf k e :=
  fun he hq ha => (hs he hq .ssi ha).1 rfl

theorem entry (C : Census k) (hs : ServesAllocated k e)
    (h : MikaBoo.entry fuel k e = .ok (x, k')) : Census k' := by
  refine ⟨C.rolls.entry (notSelf_of_servesAllocated hs) h, ?_⟩
  rcases entry_served C.rolls h with ⟨_, _, hk⟩ | ⟨t, q, r, he, ha, hq, _, S⟩
  · obtain ⟨_, _, _, hcounts⟩ := k.onEntry_lists e
    rw [← hk] at hcounts
    exact C.counted.congr (congrArg Counts.threadCount hcounts :)
      (congrFun (congrArg Counts.owner hcounts :))
  · cases S with
    | plain same =>
        rw [Kept.Counted, same]
        exact C.counted
    | create _ run _ => exact C.counted.run run
    | terminate _ _ pruned =>
        obtain ⟨ds, run, _⟩ := pruned.run
        exact C.counted.run run
    | free request _ _ freed =>
        obtain ⟨hssi, hfree⟩ := hs he (by rw [hq, request]) t ha
        rw [Kept.Counted, freed]
        exact C.counted.after ⟨hssi, C.rolls.owner_ne_none hssi hfree⟩
    | appoint _ _ set =>
        rw [Kept.Counted, set]
        exact C.counted.congr rfl fun _ => rfl
    | engage _ _ engaged =>
        rw [Kept.Counted, engaged]
        exact C.counted.congr rfl fun _ => rfl

theorem leave (C : Census k) (h : MikaBoo.leave k x = .ok k') : Census k' := by
  have hcounts : k'.kept.counts = k.kept.counts := (congrArg Kept.counts (Frame.leave h) :)
  exact ⟨C.rolls.leave h, C.counted.congr (congrArg Counts.threadCount hcounts)
    (congrFun (congrArg Counts.owner hcounts))⟩

theorem step (C : Census k) (hs : ServesAllocated k e) (h : MikaBoo.step fuel k e = .ok k') :
    Census k' := by
  obtain ⟨⟨x, k₁⟩, hk₁, h⟩ := bind_eq_ok.mp h
  exact (C.entry hs hk₁).leave h

theorem run {es : List Event} (C : Census k) (run : Run (GuardedStep ServesAllocated) k es k') :
    Census k' := by
  refine run.invariant (fun k e k' C h => ?_) C
  obtain ⟨hs, fuel, h⟩ := h
  exact C.step hs h

/-- A freed thread that is terminated once more is counted twice. -/
theorem step_of_freed (C : Census k) (hq : k.request = some .terminateThread)
    (ha : k.applicant = some t) (ht : t ∈ k.view.threads .free)
    (h : MikaBoo.step fuel k .ssi = .ok k') :
    k'.threadCount = k.threadCount - 1 ∧ k'.occupied = k.occupied := by
  obtain ⟨⟨x, k₁⟩, hk₁, h⟩ := bind_eq_ok.mp h
  obtain ⟨hssi, hnone⟩ := C.rolls.listed.mp ht
  have C₁ : k₁.kept.Rolls := by
    refine C.rolls.entry (fun _ _ hself => hssi ?_) hk₁
    exact Option.some.inj (ha.symm.trans hself)
  have hcounts : k'.kept.counts = k₁.kept.counts := (congrArg Kept.counts (Frame.leave h) :)
  have hfired : k₁.kept = k.kept.after (.fire t) := by
    rcases entry_served C.rolls hk₁ with ⟨hs, _, _⟩ | ⟨t', q', r, _, ha', hq', _, S⟩
    · exact absurd ((request_of_idle hs).symm.trans hq) (by rintro ⟨⟩)
    · obtain rfl := Option.some.inj (ha.symm.trans ha')
      obtain rfl := Option.some.inj (hq.symm.trans hq')
      have hterm : k.terminated t k.ssiMsg .terminateThread = none := by
        have hn : (k.tcb t).tPcb = none := hnone
        simp [Kernel.terminated, hn]
      cases S with
      | plain _ _ thread _ => exact absurd rfl thread
      | create scope => cases scope
      | terminate process => exact absurd (hterm.symm.trans process) (by rintro ⟨⟩)
      | free _ _ _ freed => exact freed
      | appoint manager =>
          have hn : (k.tcb t).tPcb = none := hnone
          simp [Kernel.appointment, hn] at manager
      | engage request => cases request
  rw [hfired] at hcounts
  refine ⟨congrArg Counts.threadCount hcounts, ?_⟩
  rw [occupied (C₁.leave h), occupied C.rolls]
  refine View.population_congr fun u => ?_
  have howner : k'.kept.counts.owner u = (k.kept.after (.fire t)).counts.owner u :=
    congrFun (congrArg Counts.owner hcounts) u
  by_cases hu : u = t
  · subst hu
    simp [Kept.view, howner, Kept.after, hnone, ThreadList.owner]
  · simp [Kept.view, howner, Kept.after, hu]

theorem occupied_le (k : Kernel) : k.occupied ≤ 30 := by
  have h := Finset.card_le_univ (Finset.univ.filter fun i => Tcb.thread i ∉ k.view.threads .free)
  rwa [Fintype.card_fin] at h

theorem threadCount_eq (C : Census k) : k.threadCount.toNat = 1 + k.occupied := by
  have hle := occupied_le k
  have hc : k.threadCount = BitVec.ofNat 32 (1 + k.occupied) := by
    rw [occupied C.rolls]
    exact C.counted
  rw [hc, BitVec.toNat_ofNat, Nat.mod_eq_of_lt (by omega)]

/-- The scheduler halts when nobody is ready and only the SSI is left. -/
theorem scheduler_halts (C : Census k) : (∃ k', scheduler k = .error (.halt k')) ↔
    k.schedLinks.listEmpty .readyq = true ∧ ∀ i, Tcb.thread i ∈ k.view.threads .free := by
  have hone : k.threadCount = 1 ↔ ∀ i, Tcb.thread i ∈ k.view.threads .free := by
    rw [← BitVec.toNat_inj, C.threadCount_eq]
    simp [Kernel.occupied, Finset.filter_eq_empty_iff]
  rw [← hone]
  by_cases he : k.schedLinks.listEmpty .readyq = true
  · have hn : k.schedLinks.listNext .readyq = none := by simp [Links.listNext, he]
    simp only [scheduler, threadDequeue, SchedQueue.head, hn, containerOf, ok_bind, emptyReadyqH, he,
      true_and]
    split
    · simp [*]
    · rename_i hne
      refine iff_of_false ?_ hne
      rintro ⟨k', h⟩
      split at h
      · cases h
      · unfold assert at h
        split at h <;> cases h
  · refine iff_of_false ?_ fun h => he h.1
    rintro ⟨k', h⟩
    have hn : k.schedLinks.listNext .readyq = some (k.schedLinks.next .readyq) := by
      simp [Links.listNext, he]
    simp only [scheduler, threadDequeue, SchedQueue.head, hn, containerOf] at h
    cases hc : (k.schedLinks.next .readyq).container <;> simp [hc] at h

end Census

/-- As long as no TERMINATE_THREAD request is served for a freed thread,
`thread_count` is right, and the scheduler halts exactly when it should. The
first such request makes it wrong. -/
theorem thread_count {hw : Hardware} {k₀ k : Kernel} {es : List Event} (hb : boot hw = .ok k₀)
    (run : Run (GuardedStep ServesAllocated) k₀ es k) :
    k.threadCount.toNat = 1 + k.occupied ∧
      (∀ fuel e k₁, ServesAllocated k e → entry fuel k e = .ok (.schedule, k₁) →
        ((∃ k₂, step fuel k e = .error (.halt k₂)) ↔
          k₁.schedLinks.listEmpty .readyq = true ∧
            ∀ i, Tcb.thread i ∈ k₁.view.threads .free)) ∧
      ∀ e k', Step k e k' → (∀ t ∈ k.applicant, t ≠ .ssi) →
        (k'.threadCount.toNat = 1 + k'.occupied ↔ ServesAllocated k e) := by
  have H := Good.boot hb
  have C : Census k := (Census.of_inv H.refines H.inv).run run
  refine ⟨C.threadCount_eq, ?_, ?_⟩
  · intro fuel e k₁ hs h
    have C₁ := C.entry hs h
    simpa [step, h, leave] using C₁.scheduler_halts
  · rintro e k' ⟨fuel, h⟩ happ
    constructor
    · intro hcount he hq t ha
      refine ⟨happ t ha, fun ht => ?_⟩
      subst he
      obtain ⟨hc, ho⟩ := C.step_of_freed hq ha ht h
      have hle := Census.occupied_le k
      have hk := C.threadCount_eq
      rw [hc, ho, ← hk] at hcount
      bv_omega
    · exact fun hs => (C.step hs h).threadCount_eq

instance (k : Kernel) (e : Event) : Decidable (ServesAllocated k e) :=
  match e with
  | .ssi => decidable_of_iff (k.request = some .terminateThread → ∀ t ∈ k.applicant, k.Allocated t)
      ⟨fun h _ => h, fun h => h rfl⟩
  | .start | .run .. | .elapse _ | .edit .. | .syscall | .pgmtrap _ | .tlbtrap _
  | .interrupt _ => isTrue nofun

/-- After the first thread has created another one, two threads are allocated. -/
theorem thread_count_sample : ∃ k₀ k : Kernel, boot Sample.hardware = .ok k₀ ∧
    Run (GuardedStep ServesAllocated) k₀ ([.start, .ssi] ++ Sample.service [.int 2, .int 0x200]) k ∧
    k.occupied = 2 ∧ k.threadCount.toNat = 1 + k.occupied := by
  have h : (execute ServesAllocated Sample.hardware 100
      ([.start, .ssi] ++ Sample.service [.int 2, .int 0x200])).any (fun k => k.occupied = 2) = true := by
    decide +kernel
  obtain ⟨k, hk, ho⟩ := Option.any_eq_true _ _ |>.mp h
  obtain ⟨k₀, hb, run⟩ := run_of_execute hk
  exact ⟨k₀, k, hb, run, of_decide_eq_true ho, (thread_count hb run).1⟩

/-- The first thread asks twice for its own termination, and both requests are
served: `thread_count` is 0 with only the SSI left, and the kernel panics where it
should halt. -/
theorem thread_count_wrong : ∃ k₀ k k₁ : Kernel, boot Sample.hardware = .ok k₀ ∧
    Run Step k₀ ([.start, .ssi] ++ Sample.request [.int 4] ++ Sample.request [.int 4] ++
      Sample.recv (some .ssi) [.int 4] ++ [.ssi, .ssi, .ssi]) k ∧
    k.occupied = 0 ∧ k.threadCount = 0 ∧ k.view.sched .readyq = [] ∧
    step 100 k .ssi = .error (.panic k₁) := by
  let check : Kernel → Bool := fun k => k.occupied = 0 ∧ k.threadCount = 0 ∧
    k.view.sched .readyq = [] ∧ panics (step 100 k .ssi) = true
  have h : (execute (fun _ _ => True) Sample.hardware 100
      ([.start, .ssi] ++ Sample.request [.int 4] ++ Sample.request [.int 4] ++
        Sample.recv (some .ssi) [.int 4] ++ [.ssi, .ssi, .ssi])).any check = true := by
    decide +kernel
  obtain ⟨k, hk, hprops⟩ := Option.any_eq_true _ _ |>.mp h
  obtain ⟨ho, hc, hready, hpanic⟩ := of_decide_eq_true hprops
  obtain ⟨k₀, hb, run⟩ := run_of_execute hk
  obtain ⟨k₁, hpanic⟩ := panics_iff.mp hpanic
  exact ⟨k₀, k, k₁, hb, forget_guard run, ho, hc, hready, hpanic⟩

end MikaBoo
