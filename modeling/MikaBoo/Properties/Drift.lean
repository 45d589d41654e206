import MikaBoo.Properties.Waking

/-!
# The pseudo-clock

`update_clock` against the sum of the amounts that it is passed. It subtracts a tick
at most once in a call, so it keeps the remainder only while no call completes two.

## Implementation notes

Between two calls the kernel may do anything that leaves `pseudoclock` alone.
-/

namespace MikaBoo

open Intrusive Fuel Transition

/-- A call of `update_clock` that came back, with the states around it. -/
structure ClockCall where
  before : Kernel
  elapsed : Word
  after : Kernel
  returns : ∃ fuel, updateClock fuel before elapsed = .ok after

/-- Calls of which each finds the pseudo-clock as the one before has left it. -/
def Chained : Word → List ClockCall → Prop
  | _, [] => True
  | p, c :: cs => c.before.pseudoclock = p ∧ Chained c.after.pseudoclock cs

/-- What is passed to `update_clock` in all. -/
def totalElapsed (cs : List ClockCall) : Nat := (cs.map fun c => c.elapsed.toNat).sum

/-- Every call has the property `P`, given what has been passed before it. -/
def EachCall (P : Nat → ClockCall → Prop) : Nat → List ClockCall → Prop
  | _, [] => True
  | n, c :: cs => P n c ∧ EachCall P (n + c.elapsed.toNat) cs

namespace ClockCall

/-- The call completes a tick, when `n` has been passed before. -/
def Crosses (n : Nat) (c : ClockCall) : Prop :=
  n / PSEUDOCLOCK_TICK < (n + c.elapsed.toNat) / PSEUDOCLOCK_TICK

/-- The call empties the queue of the clock. If this and the ready queue are well-formed lists
before it, it has sent one message to every thread in the queue, and none to others. -/
structure Wakes (c : ClockCall) : Prop where
  emptied : c.after.schedLinks.listEmpty .tWait4clock = true
  sent : ∀ ws rs, Lists c.before.schedLinks .tWait4clock ws →
    Lists c.before.schedLinks .readyq rs →
      ∃ hist, c.after.history = c.before.history ++ hist ∧ hist.filterMap Obs.dest = ws

/-- The pseudo-clock is the remainder of the sum, and the threads that wait for the clock
are woken by the calls that complete a tick and by no other. -/
structure Exact (n : Nat) (c : ClockCall) : Prop where
  remainder : c.after.pseudoclock.toNat = (n + c.elapsed.toNat) % PSEUDOCLOCK_TICK
  woken : c.Crosses n → c.Wakes
  spared : ¬ c.Crosses n → c.after = { c.before with pseudoclock := c.after.pseudoclock }

/-- The call does not complete two ticks. -/
def Short (n : Nat) (c : ClockCall) : Prop :=
  n % PSEUDOCLOCK_TICK + c.elapsed.toNat < 2 * PSEUDOCLOCK_TICK

end ClockCall

/-! ## The loop that wakes -/

section wake

variable {k k' : Kernel} {v : View} {t : Tcb} {fuel : Nat}

/-- When the loop ends, nobody waits for the clock. -/
theorem listEmpty_of_wakeClockWaiters (h : wakeClockWaiters fuel k = .ok k') :
    k'.schedLinks.listEmpty .tWait4clock = true := by
  induction fuel generalizing k with
  | zero => cases h
  | succ fuel ih =>
      obtain ⟨⟨o, k₁⟩, hk₁, h⟩ := bind_eq_ok.mp h
      cases o with
      | none =>
          cases h
          obtain ⟨o, ho, hk₁⟩ := bind_eq_ok.mp hk₁
          cases o with
          | none =>
              cases hk₁
              exact empty_of_containerOf ho
          | some t => cases hk₁
      | some t =>
          obtain ⟨k₂, _, h⟩ := bind_eq_ok.mp h
          exact ih h

/-- `resume_thread` of a thread that has just been dequeued: it is unlinked again. -/
theorem Refines.resumeThread_dequeued (R : Refines k v) (hoff : ∀ h, t ∉ v.sched h)
    (hi : k.schedLinks.listDel (.tSched t) = k.schedLinks) (src : Option Tcb) (pl : Value) :
    ∃ v', Refines (MikaBoo.resumeThread k t src pl) v' ∧
      v'.sched .tWait4clock = v.sched .tWait4clock := by
  let k₁ := (MikaBoo.deliverDirectly k t src pl).modTcb t fun d =>
    { d with tStatus := .ready, tWait4sender := none }
  have R₁ := (R.deliverDirectly t src pl).modTcb t fun d =>
    { d with tStatus := .ready, tWait4sender := none }
  have hlinks : k₁.schedLinks = k.schedLinks := (deliverDirectly_links k t src pl).2
  have hsame : MikaBoo.threadOutqueue k₁ t = k₁ := by
    rw [MikaBoo.threadOutqueue, hlinks, hi, ← hlinks]
  have R₂ := R₁.enqueue hoff .readyq
  rw [show threadEnqueue _ t .readyq = MikaBoo.resumeThread k t src pl by
    change _ = threadEnqueue (MikaBoo.threadOutqueue k₁ t) t .readyq
    rw [hsame]] at R₂
  exact ⟨_, R₂, by simp [View.enqueue, View.modTcb, View.deliver]⟩

/-- A message to a thread that has just been dequeued comes back and leaves the queue alone. -/
theorem Refines.msgsend_dequeued (R : Refines k v) (hoff : ∀ h, t ∉ v.sched h)
    (hi : k.schedLinks.listDel (.tSched t) = k.schedLinks) (caller : State) (pl : Value) :
    ∃ k' v', msgsend k caller t pl = .ok k' ∧ Refines k' v' ∧
      v'.sched .tWait4clock = v.sched .tWait4clock := by
  let regs : State := { caller with a1 := SYS_SEND, a2 := .tcb t, a3 := pl, a4 := null }
  let k₁ : Kernel := { k.enter with sysbkOldarea := regs }
  have R₁ : Refines k₁ v := { R with }
  have hdeliver : ∃ r k' v', deliverMsg k₁ t k.currentThread pl = .ok (r, k') ∧ Refines k' v' ∧
      v'.sched .tWait4clock = v.sched .tWait4clock := by
    by_cases h : k.currentThread = none ∨ some t = none ∨ v.msgs .free = []
    · obtain ⟨hadd, _⟩ := R₁.msgqAdd_fail pl h
      exact ⟨SEND_FAILURE, k₁, v, by simp [deliverMsg, hadd], R₁, rfl⟩
    · simp only [not_or] at h
      obtain ⟨hs, _, hq⟩ := h
      obtain ⟨s, hs⟩ := Option.ne_none_iff_exists'.mp hs
      obtain ⟨m, rest, hq⟩ := List.exists_cons_of_ne_nil hq
      obtain ⟨k₂, hk₂, R₂⟩ := R₁.msgqAdd_cons (s := s) (d := t) (p := pl) hq
      exact ⟨SEND_SUCCESS, k₂, _, by simp [deliverMsg, hs, hk₂], R₂, rfl⟩
  obtain ⟨r, k₂, v₂, hk₂, R₂, hclock⟩ : ∃ r k' v', sendSwitch k₁ t k.currentThread pl = .ok (r, k') ∧
      Refines k' v' ∧ v'.sched .tWait4clock = v.sched .tWait4clock := by
    unfold sendSwitch
    split
    · exact hdeliver
    · split
      · obtain ⟨v', R', hclock⟩ := R₁.resumeThread_dequeued hoff hi k.currentThread pl
        exact ⟨_, _, v', rfl, R', hclock⟩
      · exact hdeliver
    · exact ⟨_, k₁, v, rfl, R₁, rfl⟩
  have hsend : msgsend k caller t pl = .ok (storeReturnValue
      (k₂.record (.sent k.currentThread t pl (r = SEND_SUCCESS))) (.int r)) := by
    change (send k₁ t k.currentThread pl >>= _) = _
    rw [send, hk₂]
    rfl
  exact ⟨_, _, hsend, { R₂.record _ with }, hclock⟩

/-- The loop that wakes the threads in `t_wait4clock` ends. -/
theorem Refines.wakeClockWaiters (R : Refines k v) :
    Returns .unfinished (fun n => MikaBoo.wakeClockWaiters n k) fun k' => Refines k' k'.view := by
  induction hq : v.sched .tWait4clock generalizing k v with
  | nil =>
      apply Returns.round (f := fun _ => .ok k) (by rfl)
      · intro n
        simp [MikaBoo.wakeClockWaiters, R.dequeue_nil hq]
      · exact Returns.of_ok (R.eq_view ▸ R) fun _ => rfl
  | cons t rest ih =>
      have ht : t ∈ v.sched .tWait4clock := by simp [hq]
      obtain ⟨k₂, v₂, hk₂, R₂, hclock⟩ := (R.outqueue ht).msgsend_dequeued
        (fun h hm => R.sched.not_mem_erase ht h hm) Links.listDel_listDel handlerState null
      apply Returns.round (by rfl)
      · intro n
        simp only [MikaBoo.wakeClockWaiters, R.dequeue_eq hq, bind, Except.bind, hk₂]
        rfl
      · exact ih R₂ (by simp [hclock, View.outqueue, hq])

theorem Refines.updateClock (R : Refines k v) (ms : Word) :
    Returns .unfinished (fun n => MikaBoo.updateClock n k ms) fun k' => Refines k' k'.view := by
  have R₁ : ∀ p, Refines { k with pseudoclock := p } v := fun p => { R with }
  by_cases h : (PSEUDOCLOCK_TICK : Int) ≤ (k.pseudoclock + ms).toInt
  · simp only [MikaBoo.updateClock, if_pos h]
    exact (R₁ _).wakeClockWaiters
  · simp only [MikaBoo.updateClock, if_neg h]
    exact Returns.of_ok ((R₁ _).eq_view ▸ R₁ _) fun _ => rfl

end wake

/-! ## The remainder -/

namespace ClockCall

variable {c : ClockCall} {n : Nat}

/-- What a call leaves in `pseudoclock`, and what else it does. -/
theorem after_eq (hsum : c.before.pseudoclock.toNat + c.elapsed.toNat < 2 ^ 31) :
    (c.before.pseudoclock.toNat + c.elapsed.toNat < PSEUDOCLOCK_TICK ∧
        c.after.pseudoclock.toNat = c.before.pseudoclock.toNat + c.elapsed.toNat ∧
        c.after = { c.before with pseudoclock := c.after.pseudoclock }) ∨
      (PSEUDOCLOCK_TICK ≤ c.before.pseudoclock.toNat + c.elapsed.toNat ∧
        c.after.pseudoclock.toNat =
          c.before.pseudoclock.toNat + c.elapsed.toNat - PSEUDOCLOCK_TICK ∧ c.Wakes) := by
  obtain ⟨fuel, h⟩ := c.returns
  have hadd : (c.before.pseudoclock + c.elapsed).toNat =
      c.before.pseudoclock.toNat + c.elapsed.toNat := by
    rw [BitVec.toNat_add, Nat.mod_eq_of_lt (by omega)]
  have hint : (c.before.pseudoclock + c.elapsed).toInt =
      ((c.before.pseudoclock.toNat + c.elapsed.toNat : Nat) : Int) := by
    rw [BitVec.toInt_eq_toNat_of_lt (by omega), hadd]
  unfold updateClock at h
  dsimp only at h
  rw [hint] at h
  split at h
  · rename_i htick
    have htick : PSEUDOCLOCK_TICK ≤ c.before.pseudoclock.toNat + c.elapsed.toNat := by exact_mod_cast htick
    have hwakes : c.Wakes := by
      refine ⟨listEmpty_of_wakeClockWaiters h, fun ws rs hclock hready => ?_⟩
      let k : Kernel := { c.before with
        pseudoclock := c.before.pseudoclock + c.elapsed - BitVec.ofNat 32 PSEUDOCLOCK_TICK }
      have Q : k.Queued ws (some rs) := ⟨hclock, by rintro _ ⟨⟩; exact hready⟩
      exact Q.sends h
    refine Or.inr ⟨htick, ?_, hwakes⟩
    have hclock : c.after.pseudoclock =
        c.before.pseudoclock + c.elapsed - BitVec.ofNat 32 PSEUDOCLOCK_TICK :=
      (congrArg Kept.pseudoclock (Frame.wakeClockWaiters h) :)
    rw [hclock]
    simp only [PSEUDOCLOCK_TICK] at htick ⊢
    bv_omega
  · rename_i htick
    have hk := Except.ok.inj h
    have hsmall : c.before.pseudoclock.toNat + c.elapsed.toNat < PSEUDOCLOCK_TICK := by
      exact_mod_cast not_le.mp htick
    refine Or.inl ⟨hsmall, ?_, ?_⟩
    · rw [← hk]
      exact hadd
    · rw [← hk]

/-- A call that finds the remainder of the sum is exact when it does not complete two ticks. -/
theorem exact_iff_short (hp : c.before.pseudoclock.toNat = n % PSEUDOCLOCK_TICK)
    (hsum : n + c.elapsed.toNat < 2 ^ 31) : c.Exact n ↔ c.Short n := by
  have hle : n % PSEUDOCLOCK_TICK ≤ n := Nat.mod_le ..
  have hafter := c.after_eq (by omega)
  rw [hp] at hafter
  simp only [PSEUDOCLOCK_TICK] at hafter
  simp only [Short, PSEUDOCLOCK_TICK]
  constructor
  · intro E
    have hrem : c.after.pseudoclock.toNat = (n + c.elapsed.toNat) % 100 := E.remainder
    rcases hafter with ⟨_, h, _⟩ | ⟨_, h, _⟩
    · omega
    · omega
  · intro hshort
    rcases hafter with ⟨hsmall, h, hrest⟩ | ⟨hlarge, h, hwakes⟩
    · have hno : ¬ n / 100 < (n + c.elapsed.toNat) / 100 := by omega
      have hrem : c.after.pseudoclock.toNat = (n + c.elapsed.toNat) % 100 := by omega
      exact ⟨hrem, fun hc => absurd hc hno, fun _ => hrest⟩
    · have hyes : n / 100 < (n + c.elapsed.toNat) / 100 := by omega
      have hrem : c.after.pseudoclock.toNat = (n + c.elapsed.toNat) % 100 := by omega
      exact ⟨hrem, fun _ => hwakes, fun hc => absurd hyes hc⟩

end ClockCall

section run

variable {p : Word} {n : Nat} {cs : List ClockCall}

/-- While the remainder is right, the calls are exact as long as none completes two ticks. -/
theorem eachCall_exact_iff (hcs : Chained p cs) (hp : p.toNat = n % PSEUDOCLOCK_TICK)
    (hsum : n + totalElapsed cs < 2 ^ 31) :
    EachCall (fun n c => c.Exact n) n cs ↔ EachCall (fun n c => c.Short n) n cs := by
  induction cs generalizing p n with
  | nil => exact Iff.rfl
  | cons c cs ih =>
      obtain ⟨hbefore, hcs⟩ := hcs
      have htotal : totalElapsed (c :: cs) = c.elapsed.toNat + totalElapsed cs := by
        simp [totalElapsed]
      have hfirst : c.Exact n ↔ c.Short n :=
        ClockCall.exact_iff_short (by rw [hbefore, hp]) (by omega)
      -- once this call is exact, the next one finds the remainder again
      have hrest : c.Exact n → (EachCall (fun n c => c.Exact n) (n + c.elapsed.toNat) cs ↔
          EachCall (fun n c => c.Short n) (n + c.elapsed.toNat) cs) :=
        fun E => ih hcs E.remainder (by omega)
      constructor
      · rintro ⟨E, hall⟩
        exact ⟨hfirst.mp E, (hrest E).mp hall⟩
      · rintro ⟨S, hall⟩
        have E := hfirst.mpr S
        exact ⟨E, (hrest E).mpr hall⟩

/-- From 0 on, the pseudo-clock stays the remainder of what is passed to `update_clock`, and
the calls that complete a tick wake the threads, exactly as long as no call completes two. -/
theorem clock_drift (hcs : Chained 0 cs) (hsum : totalElapsed cs < 2 ^ 31) :
    (EachCall (fun n c => c.Exact n) 0 cs ↔ EachCall (fun n c => c.Short n) 0 cs) ∧
      ∀ k ms, Refines k k.view → ∃ fuel k', updateClock fuel k ms = .ok k' := by
  refine ⟨eachCall_exact_iff hcs rfl (by omega), fun k ms R => ?_⟩
  obtain ⟨fuel, k', hk', _⟩ := (R.updateClock ms).complete
  exact ⟨fuel, k', hk'⟩

end run

/-- Two calls that together complete one tick. -/
theorem clock_drift_sample : ∃ c c' : ClockCall, c.before = prepared Sample.hardware ∧
    c.elapsed = 60 ∧ c'.before = c.after ∧ c'.elapsed = 70 ∧ c.Exact 0 ∧ c'.Exact 60 ∧
    c'.after.pseudoclock = 30 := by
  have h : (updateClock 1 (prepared Sample.hardware) 60).toOption.any (fun k =>
      (updateClock 1 k 70).toOption.any fun k' => k'.pseudoclock = 30) = true := by
    decide +kernel
  obtain ⟨k, hk, h⟩ := Option.any_eq_true _ _ |>.mp h
  obtain ⟨k', hk', h⟩ := Option.any_eq_true _ _ |>.mp h
  let c : ClockCall := ⟨prepared Sample.hardware, 60, k, 1, exec_eq_ok hk⟩
  let c' : ClockCall := ⟨k, 70, k', 1, exec_eq_ok hk'⟩
  have hzero : (prepared Sample.hardware).pseudoclock = 0 := by decide +kernel
  have hcs : Chained 0 [c, c'] := ⟨hzero, rfl, trivial⟩
  have hsum : totalElapsed [c, c'] < 2 ^ 31 := show 60 + (70 + 0) < 2 ^ 31 by decide
  have hshort : c.Short 0 := show 0 % 100 + 60 < 200 by decide
  have hshort' : c'.Short 60 := show 60 % 100 + 70 < 200 by decide
  obtain ⟨hall, _⟩ := clock_drift hcs hsum
  obtain ⟨E, E', _⟩ := hall.mpr ⟨hshort, hshort', trivial⟩
  exact ⟨c, c', rfl, rfl, rfl, rfl, E, E', of_decide_eq_true h⟩

/-- The first receive of the SSI passes a whole time slice, and 4900 is left. -/
theorem clock_drifts : ∃ (k₀ k : Kernel) (c : ClockCall), boot Sample.hardware = .ok k₀ ∧
    Run Step k₀ [.start, .ssi] k ∧ k.pseudoclock = 4900 ∧
    c.before = k₀ ∧ c.elapsed = k₀.clockPerTimeslice ∧ Chained 0 [c] ∧
    totalElapsed [c] < 2 ^ 31 ∧ ¬ EachCall (fun n c => c.Exact n) 0 [c] := by
  let check : Kernel → Bool := fun k => k.pseudoclock = 0 ∧ k.clockPerTimeslice = 5000 ∧
    (updateClock 1 k 5000).toOption.any (fun k' => k'.pseudoclock = 4900) = true
  have h₀ : (boot Sample.hardware).toOption.any check = true := by decide +kernel
  have h : (execute (fun _ _ => True) Sample.hardware 100 [.start, .ssi]).any
      (fun k => k.pseudoclock = 4900) = true := by
    decide +kernel
  obtain ⟨k, hk, hleft⟩ := Option.any_eq_true _ _ |>.mp h
  obtain ⟨k₀, hb, run⟩ := run_of_execute hk
  obtain ⟨k₁, hk₁, hprops⟩ := Option.any_eq_true _ _ |>.mp h₀
  cases (exec_eq_ok hk₁).symm.trans hb
  obtain ⟨hzero, hslice, hcall⟩ := of_decide_eq_true hprops
  obtain ⟨k', hk', hclock⟩ := Option.any_eq_true _ _ |>.mp hcall
  let c : ClockCall := ⟨k₀, 5000, k', 1, exec_eq_ok hk'⟩
  refine ⟨k₀, k, c, hb, forget_guard run, of_decide_eq_true hleft, rfl, hslice.symm,
    ⟨hzero, trivial⟩, show 5000 + 0 < 2 ^ 31 by decide, fun hall => ?_⟩
  have hrem : k'.pseudoclock.toNat = (0 + 5000) % 100 := hall.1.remainder
  rw [of_decide_eq_true hclock] at hrem
  cases hrem

end MikaBoo
