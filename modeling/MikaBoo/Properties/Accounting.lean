import MikaBoo.Abstract.Census

/-!
# Time accounting

`run_time` and the pseudo-clock against the cycles that threads use. A dispatch
starts with the timer at `clockPerTimeslice`; a blocking receive charges what is
left of the slice in place of what has been used, and a call passed up to a
manager charges nothing.
-/

namespace MikaBoo

open Fuel Transition

namespace Kernel

/-- The cycles of the present time slice that have been used. -/
def used (k : Kernel) : Word :=
  if 0 < k.timer ∧ k.timer ≤ k.clockPerTimeslice then k.clockPerTimeslice - k.timer
  else k.clockPerTimeslice

/-- What an event passes to `update_clock`. -/
def clocked (k : Kernel) (e : Event) : Option Word :=
  match k.ending e with
  | some .blocked => some k.timer
  | some .expired => some k.clockPerTimeslice
  | some .passedUp | none => none

end Kernel

/-- The cycles used in completed dispatches: by each thread since it was created,
and by all threads. -/
structure Ledger where
  used : Tcb → Nat := fun _ => 0
  total : Nat := 0
  /-- The total passed to `update_clock`. -/
  clocked : Nat := 0

/-- The ledger after a step from `k` to `k'`. -/
def Ledger.after (L : Ledger) (k : Kernel) (e : Event) (k' : Kernel) : Ledger where
  used t :=
    if k'.incarnation t = k.incarnation t then
      L.used t + if k.currentThread = some t ∧ (k.ending e).isSome then k.used.toNat else 0
    else 0
  total := L.total + if k.currentThread.isSome ∧ (k.ending e).isSome then k.used.toNat else 0
  clocked := L.clocked + ((k.clocked e).getD 0).toNat

/-- A step, and the ledger that is kept of it. -/
def Audited (guard : Kernel → Event → Prop) (s : Kernel × Ledger) (e : Event)
    (s' : Kernel × Ledger) : Prop :=
  GuardedStep guard s.1 e s'.1 ∧ s'.2 = s.2.after s.1 e s'.1

/-- A receive blocks after half of the time slice, a call is passed up before the
thread has used any of it, and the interval timer expires while a thread runs,
after its first cycle. -/
def Fair (k : Kernel) (e : Event) : Prop :=
  match k.ending e with
  | none => True
  | some .blocked => 2 * k.timer.toNat = k.clockPerTimeslice.toNat
  | some .passedUp => k.timer = k.clockPerTimeslice ∨ k.clockPerTimeslice = 0
  | some .expired =>
      if k.currentThread.isSome then k.timer ≠ k.clockPerTimeslice ∨ k.clockPerTimeslice = 0
      else k.clockPerTimeslice = 0

/-- `run_time` and the total passed to `update_clock` agree with the ledger. -/
structure Balanced (k : Kernel) (L : Ledger) : Prop where
  runTime : ∀ t, (k.tcb t).runTime = BitVec.ofNat 32 (L.used t)
  clocked : L.clocked = L.total

namespace Accounting

variable {k k' k₁ : Kernel} {e : Event} {fuel : Nat} {x : Exit} {t : Tcb} {L : Ledger} {y : Ending}

theorem kept_leave (t : Tcb) : (k.kept.leave k.currentThread (k.ending e)).runTime t =
      (k.tcb t).runTime + (if k.currentThread = some t then (k.clocked e).getD 0 else 0) ∧
    (k.kept.leave k.currentThread (k.ending e)).pseudoclock =
      (k.clocked e).elim k.pseudoclock (advance k.pseudoclock) := by
  cases he : k.ending e with
  | none => simp [Kept.leave, Kernel.clocked, he, Kernel.kept]
  | some y =>
      cases y with
      | passedUp => simp [Kept.leave, Kernel.clocked, he, Kernel.kept]
      | blocked | expired =>
          refine ⟨?_, by simp [Kept.leave, Kept.charge, Kernel.clocked, he, Kernel.kept]⟩
          by_cases hc : k.currentThread = some t <;>
            simp [Kept.leave, Kept.charge, Kernel.clocked, he, Kernel.kept, hc]

/-- What an event without a request charges. -/
theorem onEntry_times (t : Tcb) : (k.onEntry e).runTime t =
      (k.tcb t).runTime + (if k.currentThread = some t then (k.clocked e).getD 0 else 0) ∧
    (k.onEntry e).pseudoclock = (k.clocked e).elim k.pseudoclock (advance k.pseudoclock) := by
  have hleave := kept_leave (k := k) (e := e) t
  cases e with
  | run | elapse => simp [Kernel.onEntry, Kernel.clocked, Kernel.ending, Kernel.kept]
  | interrupt pending =>
      cases hf : k.timerFired with
      | true =>
          simp only [Kernel.onEntry, hf, if_true]
          exact hleave
      | false => simp [Kernel.onEntry, hf, Kernel.clocked, Kernel.ending, Kept.complete, Kernel.kept]
  | _ => exact hleave

/-- What a step does to the times. -/
theorem step_times (h : step fuel k e = .ok k') : (∀ t,
      k'.incarnation t = k.incarnation t ∧ (k'.tcb t).runTime = (k.tcb t).runTime +
          (if k.currentThread = some t then (k.clocked e).getD 0 else 0) ∨
        k.ending e = none ∧ k.incarnation t < k'.incarnation t ∧ (k'.tcb t).runTime = 0) ∧
    k'.pseudoclock = (k.clocked e).elim k.pseudoclock (advance k.pseudoclock) := by
  obtain ⟨⟨x, k₁⟩, hk₁, h⟩ := bind_eq_ok.mp h
  have hl := Frame.leave h
  have hrun : ∀ t, (k'.tcb t).runTime = (k₁.tcb t).runTime := congrFun (congrArg Kept.runTime hl :)
  have hinc : ∀ t, k'.incarnation t = k₁.incarnation t :=
    congrFun (congrArg Kept.incarnation hl :)
  have hclock : k'.pseudoclock = k₁.pseudoclock := (congrArg Kept.pseudoclock hl :)
  rw [hclock]
  rcases entry_spares hk₁ with ⟨_, _, hk⟩ | ⟨hs, _, S⟩
  · have hinc₁ : k₁.incarnation = k.incarnation :=
      (congrArg Kept.incarnation hk).trans (k.onEntry_lists e).2.2.1
    have hclock₁ : k₁.pseudoclock = (k.onEntry e).pseudoclock := congrArg Kept.pseudoclock hk
    refine ⟨fun t => Or.inl ⟨by rw [hinc, hinc₁], ?_⟩, hclock₁.trans (onEntry_times .ssi).2⟩
    have hrun₁ : (k₁.tcb t).runTime = (k.onEntry e).runTime t := congrFun (congrArg Kept.runTime hk) t
    rw [hrun, hrun₁, (onEntry_times t).1]
  · have he : k.ending e = none := by
      cases e <;> simp_all [Kernel.serves, Kernel.ending]
    have hnone : k.clocked e = none := by simp [Kernel.clocked, he]
    have hclock₁ : k₁.pseudoclock = k.pseudoclock := congrArg Processor.pseudoclock S.processor
    refine ⟨fun t => ?_, by simp [hnone, hclock₁]⟩
    rw [hinc, hrun]
    rcases S.times t with ⟨hi, hr⟩ | ⟨hi, hr⟩
    · have hr' : (k₁.tcb t).runTime = (k.tcb t).runTime := hr
      exact Or.inl ⟨hi, by simp [hnone, hr']⟩
    · exact Or.inr ⟨he, hi, hr⟩

/-- Only the running thread blocks or is passed up. -/
theorem currentThread_of_ending (hy : k.ending e = some y) (hne : y ≠ .expired)
    (h : step fuel k e = .ok k') : k.currentThread.isSome := by
  have huser : k.userRuns = true → k.currentThread.isSome := by
    intro hu
    obtain ⟨i, hi⟩ := Good.user_of_userRuns hu
    simp [hi]
  obtain ⟨⟨x, k₁⟩, hk₁, _⟩ := bind_eq_ok.mp h
  cases e with
  | syscall | pgmtrap | tlbtrap =>
      simp only [entry] at hk₁
      split at hk₁
      · exact huser (by assumption)
      · cases hk₁
  | ssi =>
      simp only [entry] at hk₁
      split at hk₁
      · rename_i hm
        simp [hm.2]
      · cases hk₁
  | interrupt pending =>
      simp only [Kernel.ending] at hy
      split at hy <;> cases hy
      exact absurd rfl hne
  | start | run | elapse | edit => cases hy

/-- Only the interval timer ends a time slice. -/
theorem timerFired_of_expired (hy : k.ending e = some .expired) : k.timerFired = true := by
  have htrap : ∀ m, trapEnding m ≠ some .expired := by
    intro m
    unfold trapEnding
    split <;> simp
  have hrecv : ∀ {k : Kernel} {s}, k.recvEnding s ≠ some .expired := by
    intro k s h
    have hb := Frame.blocked_of_isSome (k := k) (s := s) (by simp [h])
    rw [h] at hb
    cases hb
  cases e with
  | interrupt pending =>
      simp only [Kernel.ending] at hy
      split at hy
      · assumption
      · cases hy
  | syscall =>
      simp only [Kernel.ending, syscallEnding] at hy
      split at hy
      · split at hy
        · cases hy
        · split at hy
          · exact absurd hy hrecv
          · cases hy
      · exact absurd hy (htrap _)
  | pgmtrap | tlbtrap => exact absurd hy (htrap _)
  | ssi =>
      simp only [Kernel.ending] at hy
      split at hy
      · cases hy
      · exact absurd hy hrecv
  | start | run | elapse | edit => cases hy

/-- A dispatch is charged right exactly when the step is fair. -/
theorem fair_iff (hc : k.currentThread.isSome) (hy : k.ending e = some y) :
    (k.clocked e).getD 0 = k.used ↔ Fair k e := by
  cases y with
  | blocked =>
      simp only [Kernel.clocked, Fair, hy, Option.getD_some, Kernel.used]
      split <;> bv_omega
  | passedUp =>
      simp only [Kernel.clocked, Fair, hy, Option.getD_none, Kernel.used]
      split <;> bv_omega
  | expired =>
      have hf := timerFired_of_expired hy
      simp only [Kernel.timerFired, decide_eq_true_eq] at hf
      simp only [Kernel.clocked, Fair, hy, Option.getD_some, Kernel.used, hc, if_true]
      split
      · bv_omega
      · refine iff_of_true rfl ?_
        by_cases hz : k.clockPerTimeslice = 0
        · exact Or.inr hz
        · left
          bv_omega

theorem incarnation_eq (hy : (k.ending e).isSome) (h : step fuel k e = .ok k') (t : Tcb) :
    k'.incarnation t = k.incarnation t ∧ (k'.tcb t).runTime = (k.tcb t).runTime +
      (if k.currentThread = some t then (k.clocked e).getD 0 else 0) := by
  refine ((step_times h).1 t).resolve_right ?_
  rintro ⟨hn, _⟩
  simp [hn] at hy

/-- The charge to the running thread is right. -/
theorem balanced_iff_charge (B : Balanced k L) (hc : k.currentThread = some t)
    (hy : k.ending e = some y) (h : step fuel k e = .ok k') :
    Balanced k' (L.after k e k') ↔ (k.clocked e).getD 0 = k.used := by
  have hsome : (k.ending e).isSome := by simp [hy]
  have hinc := fun u => (incarnation_eq hsome h u).1
  have hrun := fun u => (incarnation_eq hsome h u).2
  have hused : ∀ u, (L.after k e k').used u =
      L.used u + if k.currentThread = some u then k.used.toNat else 0 := by
    intro u
    simp [Ledger.after, hinc, hsome]
  constructor
  · intro B'
    have ht := B'.runTime t
    rw [hrun, hused, B.runTime, if_pos hc, if_pos hc, BitVec.ofNat_add, BitVec.ofNat_toNat,
      BitVec.setWidth_eq] at ht
    exact add_left_cancel ht
  · intro hcharge
    refine ⟨fun u => ?_, ?_⟩
    · rw [hrun, hused, B.runTime, hcharge]
      split <;> simp [BitVec.ofNat_add]
    · change L.clocked + _ = L.total + _
      rw [hcharge, B.clocked]
      simp [hsome, hc]

/-- The times are right after a step exactly when the step is fair. -/
theorem balanced_iff (B : Balanced k L) (h : step fuel k e = .ok k') :
    Balanced k' (L.after k e k') ↔ Fair k e := by
  cases hy : k.ending e with
  | none =>
      refine iff_of_true ⟨fun t => ?_, by simp [Ledger.after, Kernel.clocked, hy, B.clocked]⟩
        (by simp [Fair, hy])
      have hcl : k.clocked e = none := by simp [Kernel.clocked, hy]
      rcases (step_times h).1 t with ⟨hi, hr⟩ | ⟨_, hi, hr⟩
      · simp [Ledger.after, hi, hy, hr, hcl, B.runTime]
      · simp [Ledger.after, Nat.ne_of_gt hi, hr]
  | some y =>
      cases hc : k.currentThread with
      | some t =>
          rw [balanced_iff_charge B hc hy h]
          exact fair_iff (by simp [hc]) hy
      | none =>
          -- only the timer interrupt of an idle processor leaves no thread to charge
          obtain rfl : y = .expired := by
            by_contra hne
            have := currentThread_of_ending hy hne h
            simp [hc] at this
          have hsome : (k.ending e).isSome := by simp [hy]
          have hfair : Fair k e ↔ k.clockPerTimeslice = 0 := by simp [Fair, hy, hc]
          rw [hfair]
          constructor
          · intro B'
            have hcl := B'.clocked
            simp only [Ledger.after, Kernel.clocked, hy, hc, B.clocked, Option.isSome_none,
              Bool.false_eq_true, false_and, if_false, Option.getD_some] at hcl
            bv_omega
          · intro hz
            refine ⟨fun t => ?_, ?_⟩
            · rw [(incarnation_eq hsome h t).2]
              simp [Ledger.after, (incarnation_eq hsome h t).1, hc, B.runTime]
            · simp [Ledger.after, Kernel.clocked, hy, hc, hz, B.clocked]

theorem boot_runTime {hw : Hardware} (h : boot hw = .ok k) (t : Tcb) : (k.tcb t).runTime = 0 := by
  obtain ⟨k', hk', R⟩ := boot_ok hw
  obtain rfl := Except.ok.inj (h.symm.trans hk')
  rw [← R.tcb]
  by_cases ht : t = .thread 0
  · subst ht
    simp [bootedView, View.create_tcb_self, bootView]
  · rw [bootedView, View.create_tcb_of_ne ht]
    by_cases hs : t = .ssi <;> simp [bootView, hs]

end Accounting

/-- In a run of fair steps `run_time` is the number of cycles that the thread has
used in its completed dispatches, modulo `2 ^ 32`, and what is passed to
`update_clock`, which advances the pseudo-clock by it, is the number of cycles
that all threads have used. The first step that is not fair breaks this. -/
theorem cpu_time {hw : Hardware} {k₀ k : Kernel} {L : Ledger} {es : List Event}
    (hb : boot hw = .ok k₀) (run : Run (Audited Fair) (k₀, {}) es (k, L)) :
    (∀ t, (k.tcb t).runTime = BitVec.ofNat 32 (L.used t)) ∧ L.clocked = L.total ∧
      ∀ e k', Step k e k' →
        k'.pseudoclock = (k.clocked e).elim k.pseudoclock (advance k.pseudoclock) ∧
        (Balanced k' (L.after k e k') ↔ Fair k e) := by
  have B₀ : Balanced k₀ {} := ⟨fun t => by simp [Accounting.boot_runTime hb t], rfl⟩
  have B : Balanced k L := by
    refine run.invariant (P := fun s => Balanced s.1 s.2) (fun s e s' B h => ?_) B₀
    obtain ⟨⟨hf, fuel, h⟩, hL⟩ := h
    rw [hL]
    exact (Accounting.balanced_iff B h).mpr hf
  exact ⟨B.runTime, B.clocked, fun e k' ⟨_, h⟩ =>
    ⟨(Accounting.step_times h).2, Accounting.balanced_iff B h⟩⟩

instance (k : Kernel) (e : Event) : Decidable (Fair k e) := by
  unfold Fair
  split <;> infer_instance

/-- Execute a list of events, and keep the ledger. -/
def audit (guard : Kernel → Event → Prop) [∀ k e, Decidable (guard k e)] (fuel : Nat)
    (s : Kernel × Ledger) (es : List Event) : Option (Kernel × Ledger) :=
  es.foldlM (fun s e =>
    if guard s.1 e then
      (step fuel s.1 e).toOption.map fun k => (k, s.2.after s.1 e k)
    else none) s

theorem run_of_audit {guard : Kernel → Event → Prop} [∀ k e, Decidable (guard k e)] {fuel : Nat}
    {s s' : Kernel × Ledger} {es : List Event} (h : audit guard fuel s es = some s') :
    Run (Audited guard) s es s' := by
  refine .of_foldlM (fun s e s' hs => ?_) h
  split at hs
  · rename_i hg
    obtain ⟨k, hk, rfl⟩ := Option.map_eq_some_iff.mp hs
    exact ⟨⟨hg, fuel, exec_eq_ok hk⟩, rfl⟩
  · cases hs

/-- The SSI uses half of its slice before it waits for requests, and the first
thread uses a whole one. -/
theorem cpu_time_sample : ∃ (k₀ k : Kernel) (L : Ledger), boot Sample.hardware = .ok k₀ ∧
    Run (Audited Fair) (k₀, {})
      [.start, .elapse 2500, .ssi, .run {} (fun _ => null) 5000, .interrupt fun _ => 0] (k, L) ∧
    L.used .ssi = 2500 ∧ L.used (.thread 0) = 5000 ∧ L.clocked = L.total := by
  have h : ((boot Sample.hardware).toOption.bind fun k => (audit Fair 100 (k, {})
      [.start, .elapse 2500, .ssi, .run {} (fun _ => null) 5000, .interrupt fun _ => 0]).map
        fun s => (k, s)).any
      (fun r => r.2.2.used .ssi = 2500 ∧ r.2.2.used (.thread 0) = 5000) = true := by
    decide +kernel
  obtain ⟨⟨k₀, k, L⟩, hr, hused⟩ := Option.any_eq_true _ _ |>.mp h
  obtain ⟨k₁, hb, hr⟩ := Option.bind_eq_some_iff.mp hr
  obtain ⟨s, hs, hks⟩ := Option.map_eq_some_iff.mp hr
  cases hks
  have hb := exec_eq_ok hb
  have run := run_of_audit hs
  obtain ⟨hssi, hfirst⟩ := of_decide_eq_true hused
  exact ⟨k₀, k, L, hb, run, hssi, hfirst, (cpu_time hb run).2.1⟩

/-- The first thread uses 1000 of 5000 cycles before it waits for a reply, and is
charged 4000. -/
theorem cpu_time_wrong : ∃ (k₀ k : Kernel) (L : Ledger), boot Sample.hardware = .ok k₀ ∧
    Run (Audited fun _ _ => True) (k₀, {}) ([.start, .elapse 2500, .ssi] ++ Sample.request [.int 0] ++
      [.run {} (fun _ => null) 1000] ++ Sample.recv (some .ssi) [.int 0]) (k, L) ∧
    L.used (.thread 0) = 1000 ∧ (k.tcb (.thread 0)).runTime = 4000 ∧
    L.total = 3500 ∧ L.clocked = 6500 := by
  have h : ((boot Sample.hardware).toOption.bind fun k => (audit (fun _ _ => True) 100 (k, {})
      ([.start, .elapse 2500, .ssi] ++ Sample.request [.int 0] ++
        [.run {} (fun _ => null) 1000] ++ Sample.recv (some .ssi) [.int 0])).map
        fun s => (k, s)).any
      (fun r => r.2.2.used (.thread 0) = 1000 ∧ (r.2.1.tcb (.thread 0)).runTime = 4000 ∧
        r.2.2.total = 3500 ∧ r.2.2.clocked = 6500) = true := by
    decide +kernel
  obtain ⟨⟨k₀, k, L⟩, hr, hprops⟩ := Option.any_eq_true _ _ |>.mp h
  obtain ⟨k₁, hb, hr⟩ := Option.bind_eq_some_iff.mp hr
  obtain ⟨s, hs, hks⟩ := Option.map_eq_some_iff.mp hr
  cases hks
  exact ⟨k₀, k, L, exec_eq_ok hb, run_of_audit hs, of_decide_eq_true hprops⟩

/-! ## Milliseconds -/

theorem checkInt_ok {v : Int} (h : -2 ^ 31 ≤ v ∧ v < 2 ^ 31) : checkInt v = .ok v := if_pos h

/-- The loop of `accountant` counts the thousands, rounded up. -/
theorem accountantLoop_returns {c j : Int} (h0 : 0 ≤ j) (hmax : j < 2 ^ 31)
    (hsum : j + c < 2 ^ 31) : Returns .unfinished (fun fuel => accountantLoop fuel c j)
      (· = j + ((c + 999) / 1000).toNat) := by
  induction hn : c.toNat using Nat.strong_induction_on generalizing c j with
  | _ n ih =>
      by_cases hpos : 0 < c
      · have hcount := checkInt_ok (v := j + 1) (by omega)
        have hsub := checkInt_ok (v := c - 1000) (by omega)
        have hrest := ih _ (by omega) (c := c - 1000) (j := j + 1) (by omega) (by omega)
          (by omega) rfl
        refine Returns.round (f := fun fuel => accountantLoop fuel (c - 1000) (j + 1)) rfl
          (fun fuel => ?_) (hrest.mono fun r hr => ?_)
        · rw [accountantLoop, if_pos hpos, hcount, hsub]
          rfl
        · rw [hr]
          omega
      · refine Returns.round (f := fun _ => .ok j) rfl (fun fuel => ?_)
          (Returns.of_ok ?_ fun _ => rfl)
        · rw [accountantLoop, if_neg hpos]
        · omega

/-- For every `run_time`, `accountant` comes back with the nearest number of milliseconds,
and without overflow, exactly if the `int` that it copies `run_time` to can hold it. -/
theorem milliseconds_rounded (k : Kernel) (t : Tcb) :
    Returns .unfinished (fun fuel => accountant fuel k t)
      (fun ms => ms.toNat = ((k.tcb t).runTime.toNat + 499) / 1000) ↔
    (k.tcb t).runTime.toNat < 2 ^ 31 := by
  have hlt := (k.tcb t).runTime.isLt
  have hint := BitVec.toInt_eq_toNat_cond (k.tcb t).runTime
  constructor
  · intro h
    by_contra hbig
    rw [if_neg (by omega)] at hint
    by_cases hsub : -2 ^ 31 ≤ (k.tcb t).runTime.toInt - 500
    · have hzero : accountant 1 k t = .ok 0 := by
        rw [accountant, checkInt_ok ⟨hsub, by omega⟩, ok_bind, accountantLoop,
          if_neg (by omega)]
        rfl
      have hms := h.sound hzero
      change 0 = _ at hms
      omega
    · have herror : accountant 1 k t = .error .undefined := by
        rw [accountant, checkInt, if_neg (by omega)]
        rfl
      cases h.error_eq herror
  · intro hsmall
    rw [if_pos (by omega)] at hint
    have hloop := accountantLoop_returns (c := (k.tcb t).runTime.toInt - 500) (j := 0)
      (by omega) (by omega) (by omega)
    have hsub := checkInt_ok (v := (k.tcb t).runTime.toInt - 500) (by omega)
    refine Returns.bind (.of_ok rfl fun _ => hsub) ?_
    rintro _ rfl
    refine Returns.bind hloop ?_
    rintro _ rfl
    refine Returns.of_ok ?_ fun _ => rfl
    rw [BitVec.toNat_ofInt, hint]
    omega

/-- For 2^31 + 500 `accountant` returns zero, and for 2^31 it overflows. -/
theorem milliseconds_wrong : ∃ k : Kernel,
    (k.tcb .ssi).runTime = 0x800001F4 ∧ accountant 1 k .ssi = .ok 0 ∧
    (¬ Returns .unfinished (fun fuel => accountant fuel k .ssi)
      (fun ms => ms.toNat = ((k.tcb .ssi).runTime.toNat + 499) / 1000)) ∧
    (k.tcb (.thread 0)).runTime = 0x80000000 ∧ accountant 1 k (.thread 0) = .error .undefined := by
  have hzero : accountant 1 (((staticData Sample.hardware).modTcb .ssi fun d =>
      { d with runTime := 0x800001F4 }).modTcb (.thread 0) fun d =>
      { d with runTime := 0x80000000 }) .ssi = .ok 0 := rfl
  refine ⟨_, rfl, hzero, fun h => ?_, rfl, rfl⟩
  exact absurd (h.sound hzero) (by decide)

end MikaBoo
