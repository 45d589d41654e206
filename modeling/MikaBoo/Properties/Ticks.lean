import MikaBoo.Abstract.Motions
import MikaBoo.Properties.Accounting
import MikaBoo.Properties.Exchange
import MikaBoo.Properties.Waking

/-!
# Ticks of the pseudo-clock

`update_clock` wakes the threads in `t_wait4clock` by a message, whose sender is the
thread that happens to run. A thread that waits for the SSI is woken only if that is
the SSI.
-/

namespace MikaBoo

open Intrusive Fuel Transition

/-- Nobody waits for the clock any more. All threads that did have been woken, and those of
them that were blocked are in the ready queue. -/
def Awakens (k k' : Kernel) : Prop :=
  ∃ ws, Lists k.schedLinks .tWait4clock ws ∧ Lists k'.schedLinks .tWait4clock [] ∧
    (∀ w ∈ ws, Woken .ssi k k' w) ∧ (k.sleepers .ssi ws ≠ [] → ∃ rs, Lists k.schedLinks .readyq rs ∧
      Lists k'.schedLinks .readyq (rs ++ k.sleepers .ssi ws))

/-- Nobody waits for the clock, or the SSI runs, no waiter has been freed, and there is a
message descriptor for each waiter that is not blocked. The ready queue is in order if a
blocked one has to be put there. -/
def Rousable (k : Kernel) : Prop :=
  ∃ ws, Lists k.schedLinks .tWait4clock ws ∧ (ws ≠ [] → k.currentThread = some .ssi ∧
    (∀ w ∈ ws, (k.tcb w).tStatus ≠ .none) ∧ (k.busy .ssi ws).length ≤ (k.view.msgs .free).length) ∧
    (k.sleepers .ssi ws ≠ [] → ∃ rs, Lists k.schedLinks .readyq rs)

/-! ## The loop while another thread runs -/

section loop

variable {k k' : Kernel} {s : Option Tcb} {d : Tcb} {pl : Value} {fuel : Nat}

/-- Nobody has got anything from the SSI. -/
def Hushed (k k' : Kernel) : Prop :=
  ∀ u, received k'.history .ssi u = received k.history .ssi u ∧
    k'.view.pending .ssi u = k.view.pending .ssi u

theorem Hushed.of_links {hist : List Obs} (hlinks : k'.msgLinks = k.msgLinks)
    (hmsg : k'.msg = k.msg) (hhist : k'.history = k.history ++ hist)
    (hno : ∀ u, received hist .ssi u = []) : Hushed k k' := by
  refine fun u => ⟨?_, pending_of_links hlinks hmsg .ssi u⟩
  rw [hhist, received_append, hno, List.append_nil]

theorem Hushed.trans {k₁ : Kernel} (h : Hushed k k₁) (h' : Hushed k₁ k') : Hushed k k' :=
  fun u => ⟨(h' u).1.trans (h u).1, (h' u).2.trans (h u).2⟩

/-- A message without a sender is not queued. -/
theorem msgqAdd_null {o : Option Tcb} {r : Int} (h : msgqAdd k none o pl = .ok (r, k')) :
    k' = k := by
  obtain ⟨_, _, h⟩ := bind_eq_ok.mp h
  split at h
  · cases ‹none = some _›
  · cases h
    rfl

/-- A message without a sender gets to a thread that waits for anybody, or it is lost. -/
theorem sendSwitch_null {r : Word} (h : sendSwitch k d none pl = .ok (r, k')) :
    k' = k ∨ k' = resumeThread k d none pl := by
  have hdeliver : deliverMsg k d none pl = .ok (r, k') → k' = k := by
    intro h
    obtain ⟨⟨a, k₁⟩, hk₁, h₁⟩ := bind_eq_ok.mp h
    dsimp only at h₁
    split at h₁ <;> cases h₁ <;> exact msgqAdd_null hk₁
  unfold sendSwitch at h
  split at h
  · exact Or.inl (hdeliver h)
  · split at h
    · cases h
      exact Or.inr rfl
    · exact Or.inl (hdeliver h)
  · cases h
    exact Or.inl rfl

theorem Hushed.send {r : Word} (F : k.Filed) (hs : s ≠ some .ssi)
    (h : MikaBoo.send k d s pl = .ok (r, k')) : Hushed k k' := by
  cases s with
  | none =>
      obtain ⟨⟨r', k₁⟩, hk₁, h₁⟩ := bind_eq_ok.mp h
      cases h₁
      rcases sendSwitch_null hk₁ with rfl | rfl
      · exact .of_links rfl rfl rfl (by simp [received])
      · obtain ⟨hhist, hlinks, hmsg⟩ := resumeThread_mail k d none pl
        have hhist₁ := congrArg (· ++ [.sent none d pl (r = SEND_SUCCESS)]) hhist
        exact .of_links hlinks hmsg (hhist₁.trans (List.append_assoc _ _ _)) (by simp [received])
  | some s =>
      have hne : s ≠ .ssi := fun he => hs (congrArg some he)
      obtain ⟨r', k₂, hk₂, P⟩ := F.send s d pl
      cases hk₂.symm.trans h
      cases P with
      | direct awaits =>
          obtain ⟨hhist, hlinks, hmsg⟩ := resumeThread_mail k d (some s) pl
          have hhist₁ := congrArg (· ++ [.sent (some s) d pl true]) hhist
          exact .of_links hlinks hmsg (hhist₁.trans (List.append_assoc _ _ _))
            (by simp [received, hne])
      | queued busy alive room mailbox rest =>
          refine fun u => ⟨?_, ?_⟩
          · have hhist : k'.history = k.history ++ [.sent (some s) d pl true] :=
              congrArg Kernel.history rest
            simp [hhist, received]
          · rw [View.pending, mailbox u, View.pending]
            by_cases hu : u = d
            · simp [hu, hne]
            · rw [if_neg hu]
      | failed unreached => exact .of_links rfl rfl rfl (by simp [received])

theorem Hushed.msgsend {caller : State} (F : k.Filed) (hc : k.currentThread ≠ some .ssi)
    (h : MikaBoo.msgsend k caller d pl = .ok k') : Hushed k k' := by
  obtain ⟨⟨r, k₁⟩, hk₁, hk'⟩ := bind_eq_ok.mp h
  cases hk'
  let k₀ : Kernel := { k.enter with
    sysbkOldarea := { caller with a1 := SYS_SEND, a2 := .tcb d, a3 := pl, a4 := null } }
  have F₀ : k₀.Filed := F.congr rfl
  have H : Hushed k₀ k₁ := .send F₀ hc hk₁
  exact H

/-- The waiters get nothing from the SSI, whatever the queues look like. -/
theorem Hushed.wakeClockWaiters (F : k.Filed) (hc : k.currentThread ≠ some .ssi)
    (h : MikaBoo.wakeClockWaiters fuel k = .ok k') : Hushed k k' := by
  induction fuel generalizing k with
  | zero => cases h
  | succ fuel ih =>
      obtain ⟨⟨o, k₁⟩, hk₁, h⟩ := bind_eq_ok.mp h
      have hdequeue : ∃ L, k₁ = { k with schedLinks := L } := by
        obtain ⟨_, _, hk₁⟩ := bind_eq_ok.mp hk₁
        split at hk₁ <;> cases hk₁
        · exact ⟨_, rfl⟩
        · exact ⟨_, rfl⟩
      obtain ⟨L, rfl⟩ := hdequeue
      cases o with
      | none =>
          cases h
          exact .of_links rfl rfl (List.append_nil _).symm fun _ => rfl
      | some t =>
          obtain ⟨k₂, hk₂, h⟩ := bind_eq_ok.mp h
          have F₁ : Kernel.Filed { k with schedLinks := L } := F.congr rfl
          have first : Hushed { k with schedLinks := L } k₂ := .msgsend F₁ hc hk₂
          have hcur : k₂.currentThread = k.currentThread :=
            (congrArg Kept.currentThread (Frame.msgsend hk₂) :)
          exact Hushed.trans first (ih (F₁.mails (Mails.msgsend hk₂)) (hcur ▸ hc) h)

end loop

/-! ## Ticks -/

/-- No thread that waits for the clock is woken while another thread than the SSI runs. -/
theorem Hushed.not_woken {k k' : Kernel} {w : Tcb} (H : Hushed k k') : ¬ Woken .ssi k k' w := by
  obtain ⟨hrecv, hpend⟩ := H w
  unfold Woken
  split
  · rintro ⟨_, _, h, _⟩
    simp [hrecv] at h
  · rintro ⟨_, h⟩
    simp [hpend] at h

/-- A call that completes a tick. -/
theorem updateClock_of_tick {k : Kernel} {ms : Word} {fuel : Nat}
    (tick : (PSEUDOCLOCK_TICK : Int) ≤ (k.pseudoclock + ms).toInt) :
    updateClock fuel k ms = wakeClockWaiters fuel
      { k with pseudoclock := k.pseudoclock + ms - BitVec.ofNat 32 PSEUDOCLOCK_TICK } :=
  if_pos tick

/-- The waiters are woken iff they can be. -/
theorem Kernel.Filed.awakens_iff {k k' : Kernel} {fuel : Nat} (F : k.Filed)
    (h : wakeClockWaiters fuel k = .ok k') : Awakens k k' ↔ Rousable k := by
  constructor
  · rintro ⟨ws, C, _, hwoken, hready⟩
    have hready : k.sleepers .ssi ws ≠ [] → ∃ rs, Lists k.schedLinks .readyq rs := by
      intro hs
      obtain ⟨rs, Q, _⟩ := hready hs
      exact ⟨rs, Q⟩
    refine ⟨ws, C, fun hne => ?_, hready⟩
    have hc : k.currentThread = some .ssi := by
      by_contra hc
      obtain ⟨w, hw⟩ := List.exists_mem_of_ne_nil ws hne
      exact (Hushed.wakeClockWaiters F hc h).not_woken (hwoken w hw)
    obtain ⟨rs, Q, hrs⟩ := Kernel.queued_of_sleepers C hready
    exact ⟨hc, (Q.waking_of_ok F hc hrs h).woken.mp hwoken⟩
  · rintro ⟨ws, C, hcond, hready⟩
    obtain ⟨rs, Q, hrs⟩ := Kernel.queued_of_sleepers C hready
    by_cases hne : ws = []
    · subst hne
      cases fuel with
      | zero => cases h
      | succ fuel =>
          cases (Q.wake_nil fuel).symm.trans h
          exact ⟨[], C, C, by simp, by simp [Kernel.sleepers]⟩
    · obtain ⟨hc, hall⟩ := hcond hne
      have W := Q.waking_of_ok F hc hrs h
      refine ⟨ws, C, W.queued.clock, W.woken.mpr hall, fun hs => ?_⟩
      cases rs with
      | none => exact absurd (hrs rfl) hs
      | some rs => exact ⟨rs, Q.ready rs rfl, W.queued.ready _ rfl⟩

theorem Kernel.Filed.wakes {k : Kernel} (F : k.Filed) (hr : Rousable k) :
    ∃ fuel k', wakeClockWaiters fuel k = .ok k' := by
  obtain ⟨ws, C, hcond, hready⟩ := hr
  obtain ⟨rs, Q, hrs⟩ := Kernel.queued_of_sleepers C hready
  by_cases hne : ws = []
  · subst hne
    exact ⟨1, k, Q.wake_nil 0⟩
  · obtain ⟨k', _, hloop⟩ := Q.waking F (hcond hne).1 hrs
    exact ⟨ws.length + 1, k', by rw [hloop, if_pos (Nat.lt_succ_self _)]⟩

/-- What a call that completes a tick wakes. -/
theorem Kernel.Filed.tick_awakens_iff {k k' : Kernel} {ms : Word} {fuel : Nat} (F : k.Filed)
    (tick : (PSEUDOCLOCK_TICK : Int) ≤ (k.pseudoclock + ms).toInt)
    (h : updateClock fuel k ms = .ok k') : Awakens k k' ↔ Rousable k := by
  rw [updateClock_of_tick tick] at h
  let k₁ : Kernel :=
    { k with pseudoclock := k.pseudoclock + ms - BitVec.ofNat 32 PSEUDOCLOCK_TICK }
  have F₁ : k₁.Filed := F.congr rfl
  exact F₁.awakens_iff h

theorem Kernel.Filed.tick_returns {k : Kernel} {ms : Word} (F : k.Filed)
    (tick : (PSEUDOCLOCK_TICK : Int) ≤ (k.pseudoclock + ms).toInt) (hr : Rousable k) :
    ∃ fuel k', updateClock fuel k ms = .ok k' := by
  let k₁ : Kernel :=
    { k with pseudoclock := k.pseudoclock + ms - BitVec.ofNat 32 PSEUDOCLOCK_TICK }
  have F₁ : k₁.Filed := F.congr rfl
  obtain ⟨fuel, k', h⟩ := F₁.wakes hr
  exact ⟨fuel, k', (updateClock_of_tick tick).trans h⟩

namespace Sample

/-- The SSI, which has just moved the first thread to the queue of the clock, blocks, and the time
that it has used completes a tick. -/
theorem exists_ticking : ∃ k₀ k, boot hardware = .ok k₀ ∧ Run Step k₀ (waiting ++ [.ssi]) k ∧
    (k.sleepers .ssi [.thread 0] = [.thread 0] ∧ Lists k.schedLinks .tWait4clock [.thread 0]) ∧
    (PSEUDOCLOCK_TICK : Int) ≤ (k.pseudoclock + k.timer).toInt ∧
    (updateClock 100 (k.blocking .ssi none) k.timer).toOption.isSome = true ∧
    Rousable (k.blocking .ssi none) := by
  let check : Kernel → Bool := fun k =>
    k.sleepers .ssi [.thread 0] = [.thread 0] ∧ (k.tcb (.thread 0)).tStatus ≠ .none ∧
      k.currentThread = some .ssi ∧ (k.blocking .ssi none).busy .ssi [.thread 0] = [] ∧
      (PSEUDOCLOCK_TICK : Int) ≤ (k.pseudoclock + k.timer).toInt ∧
      (k.schedLinks.next .tWait4clock = .tSched (.thread 0) ∧
        k.schedLinks.prev (.tSched (.thread 0)) = .tWait4clock ∧
        k.schedLinks.next (.tSched (.thread 0)) = .tWait4clock ∧
        k.schedLinks.prev .tWait4clock = .tSched (.thread 0)) ∧
      (k.schedLinks.next .readyq = .readyq ∧ k.schedLinks.prev .readyq = .readyq) ∧
      (updateClock 100 (k.blocking .ssi none) k.timer).toOption.isSome
  have h : (execute (fun _ _ => True) hardware 100 (waiting ++ [.ssi])).any check = true := by
    decide +kernel
  obtain ⟨k, hk, hprops⟩ := Option.any_eq_true _ _ |>.mp h
  obtain ⟨k₀, hb, run⟩ := run_of_execute hk
  obtain ⟨hsleep, halive, hcur, hothers, htick, ⟨h₁, h₂, h₃, h₄⟩, ⟨h₅, h₆⟩, hsome⟩ :=
    of_decide_eq_true hprops
  have hlist : Lists k.schedLinks .tWait4clock [.thread 0] := ⟨⟨⟨h₁, h₂⟩, h₃, h₄⟩, by decide⟩
  have hready : Lists k.schedLinks .readyq [] := ⟨⟨h₅, h₆⟩, by decide⟩
  have hrouse : Rousable (k.blocking .ssi none) := by
    refine ⟨[.thread 0], hlist, fun _ => ⟨hcur, ?_, ?_⟩, fun _ => ⟨[], hready⟩⟩
    · rintro w hw
      rw [List.mem_singleton.mp hw]
      exact halive
    · rw [hothers]
      exact Nat.zero_le _
  exact ⟨k₀, k, hb, forget_guard run, ⟨hsleep, hlist⟩, htick, hsome, hrouse⟩

/-- The first thread waits for the clock, and the slice of the second one is over. -/
def overslept : List Event := clockWaiter ++ slice

end Sample

/-- Kernel code gets from `k` to `k₁` by a call of `update_clock`, with the current thread and
the pseudo-clock of `k`. The thread that has blocked is enqueued after it. -/
def Clocks (fuel : Nat) (k : Kernel) (ms : Word) (k₁ : Kernel) : Prop :=
  ∃ j j', Mails k j ∧ j.currentThread = k.currentThread ∧ j.pseudoclock = k.pseudoclock ∧
    updateClock fuel j ms = .ok j' ∧ (k₁ = j' ∨ ∃ t h, k₁ = threadEnqueue j' t h)

namespace Clocks

variable {k k₁ k' : Kernel} {s o : Option Tcb} {fuel : Nat} {x : Exit} {ptr : Value} {ms w : Word}

theorem of_mails (C : Clocks fuel k₁ ms k') (h : Mails k k₁) (hkept : k₁.kept = k.kept) :
    Clocks fuel k ms k' := by
  obtain ⟨j, j', hj, hcur, hclock, rest⟩ := C
  exact ⟨j, j', h.trans hj, hcur.trans (congrArg Kept.currentThread hkept :),
    hclock.trans (congrArg Kept.pseudoclock hkept :), rest⟩

/-- A receive that blocks. -/
theorem recv (he : k.recvEnding s = some .blocked) (hk : MikaBoo.recv fuel k s ptr = .ok (x, k')) :
    Clocks fuel k k.timer k' := by
  unfold MikaBoo.recv at hk
  split at hk
  · cases hk
  · rename_i current hcur
    split at hk
    · cases hk
    · obtain ⟨⟨r, k₁⟩, hk₁, hk⟩ := bind_eq_ok.mp hk
      have hkept := Frame.msgqGet hk₁
      have htimer : k₁.timer = k.timer := (congrArg Kept.timer hkept :)
      rw [Frame.recvEnding_eq hcur hk₁] at he
      cases r with
      | some r => cases he
      | none =>
          obtain ⟨k₂, hk₂, hk⟩ := bind_eq_ok.mp hk
          have hcall : updateClock fuel (k₁.blocking current s) k₁.timer = .ok k₂ := hk₂
          rw [htimer] at hcall
          refine ⟨k₁.blocking current s, k₂, Mails.of_tail (.single (.get hk₁)) rfl rfl,
            (congrArg Kept.currentThread hkept :), (congrArg Kept.pseudoclock hkept :), hcall,
            Or.inr ?_⟩
          cases s <;> cases hk <;> exact ⟨_, _, rfl⟩

/-- A handler that asks for a termination. -/
theorem terminateRequest (hk : MikaBoo.terminateRequest fuel k w = .ok (x, k')) :
    Clocks fuel k k.timer k' := by
  obtain ⟨k₁, hk₁, hk⟩ := bind_eq_ok.mp hk
  obtain ⟨⟨x₂, k₂⟩, hk₂, hk⟩ := bind_eq_ok.mp hk
  cases x₂ with
  | resume _ => cases hk
  | schedule =>
      cases hk
      let k₃ : Kernel := { k₁.enter with
        sysbkOldarea := { handlerState with a1 := SYS_RECV, a2 := .tcb .ssi, a3 := null, a4 := null } }
      have hsent : k₁.kept = k.kept := Frame.msgsend hk₁
      have hkept : k₃.kept = k.kept := hsent
      have he : k₃.recvEnding (some .ssi) = some .blocked :=
        Frame.blocked_of_isSome (Frame.recv hk₂).1.symm
      have htimer : k₃.timer = k.timer := (congrArg Kept.timer hkept :)
      have C : Clocks fuel k₃ k₃.timer k' := recv he hk₂
      rw [htimer] at C
      have hmails : Mails k k₁ := .of_head (.msgsend hk₁) rfl rfl
      exact C.of_mails (.of_tail hmails rfl rfl) hkept

theorem rawTrapH {old : State} (he : trapEnding o = some .blocked)
    (hk : MikaBoo.rawTrapH fuel k o old = .ok (x, k')) : Clocks fuel k k.timer k' := by
  cases o with
  | some m => cases he
  | none =>
      unfold MikaBoo.rawTrapH at hk
      split at hk
      · cases hk
      · exact terminateRequest hk

theorem pgmtrapH (he : trapEnding k.managers.pgmMgr = some .blocked)
    (hk : MikaBoo.pgmtrapH fuel k = .ok (x, k')) : Clocks fuel k k.timer k' := by
  obtain ⟨p, hp, hk⟩ := bind_eq_ok.mp hk
  rw [currentProcess_ok hp] at he
  exact rawTrapH he hk

theorem tlbtrapH (he : trapEnding k.managers.tlbMgr = some .blocked)
    (hk : MikaBoo.tlbtrapH fuel k = .ok (x, k')) : Clocks fuel k k.timer k' := by
  obtain ⟨p, hp, hk⟩ := bind_eq_ok.mp hk
  rw [currentProcess_ok hp] at he
  exact rawTrapH he hk

theorem raiseReservedInstruction (he : trapEnding k.managers.pgmMgr = some .blocked)
    (hk : MikaBoo.raiseReservedInstruction fuel k = .ok (x, k')) : Clocks fuel k k.timer k' := by
  let k₁ : Kernel := { k with
    pgmtrapOldarea := { k.sysbkOldarea with cp15Cause := EXC_RESERVEDINSTR } }
  have C : Clocks fuel k₁ k.timer k' := pgmtrapH he hk
  exact C.of_mails (Mails.of_eq rfl rfl) rfl

theorem syscallOther {a1 a2 a3 a4 : Value}
    (he : trapEnding (k.managers.sysMgr.or k.managers.pgmMgr) = some .blocked)
    (hk : MikaBoo.syscallOther fuel k a1 a2 a3 a4 = .ok (x, k')) : Clocks fuel k k.timer k' := by
  unfold MikaBoo.syscallOther at hk
  split at hk
  · cases hk
  · obtain ⟨p, hp, hk⟩ := bind_eq_ok.mp hk
    rw [currentProcess_ok hp] at he
    split at hk
    · rename_i hm
      rw [hm] at he
      cases he
    · rename_i hs hm
      rw [hs, hm] at he
      cases he
    · exact terminateRequest hk

theorem syscallH (he : syscallEnding k = some .blocked)
    (hk : MikaBoo.syscallH fuel k = .ok (x, k')) : Clocks fuel k k.timer k' := by
  have hne : ¬ SYS_RECV = SYS_SEND := by decide
  unfold MikaBoo.syscallH at hk
  dsimp only at hk
  split at hk
  · rename_i h₀
    exact raiseReservedInstruction (by simpa [syscallEnding, syscallManager, h₀] using he) hk
  · rename_i h₀
    split at hk
    · rename_i h₁
      unfold sendKernel at hk
      split at hk
      · rename_i hmode
        simp [syscallEnding, h₁, hmode] at he
      · rename_i hmode
        exact raiseReservedInstruction
          (by simpa [syscallEnding, syscallManager, h₁, hmode] using he) hk
    · rename_i h₁
      split at hk
      · rename_i h₂
        unfold recvKernel at hk
        split at hk
        · rename_i hmode
          obtain ⟨s, hs, hk⟩ := bind_eq_ok.mp hk
          exact recv (by simpa [syscallEnding, h₂, hmode, hs, hne] using he) hk
        · rename_i hmode
          exact raiseReservedInstruction
            (by simpa [syscallEnding, syscallManager, h₂, hmode] using he) hk
      · rename_i h₂
        exact syscallOther (by simpa [syscallEnding, syscallManager, h₀, h₁, h₂] using he) hk

theorem intervalTimerH (hk : MikaBoo.intervalTimerH fuel k = .ok (x, k')) :
    Clocks fuel k k.clockPerTimeslice k' := by
  obtain ⟨k₂, hk₂, hk⟩ := bind_eq_ok.mp hk
  cases hk
  cases hc : k.currentThread with
  | none =>
      have hcall : updateClock fuel k k.clockPerTimeslice = .ok k' := by simpa [hc] using hk₂
      exact ⟨k, k', .refl, rfl, rfl, hcall, Or.inl rfl⟩
  | some t =>
      let j : Kernel := threadEnqueue (k.modTcb t fun d =>
        { d with tS := k.intOldarea, runTime := d.runTime + k.clockPerTimeslice }) t .readyq
      have hcall : updateClock fuel j j.clockPerTimeslice = .ok k' := by simpa [hc, j] using hk₂
      exact ⟨j, k', Mails.of_eq rfl rfl, rfl, rfl, hcall, Or.inl rfl⟩

theorem interruptH {pending : Fin 5 → Word} (hf : k.timerFired = true)
    (hk : MikaBoo.interruptH fuel k pending = .ok (x, k')) :
    Clocks fuel k k.clockPerTimeslice k' := by
  have hfired : ¬ (0 < k.timer ∧ k.timer < k.clockPerTimeslice) := of_decide_eq_true hf
  unfold MikaBoo.interruptH at hk
  rw [if_neg hfired] at hk
  let k₁ : Kernel := { k with timeSliceLeft := k.timer }
  have C : Clocks fuel k₁ k₁.clockPerTimeslice k' := intervalTimerH hk
  exact C.of_mails (Mails.of_eq rfl rfl) rfl

/-- What is passed to `update_clock` when no time slice is over. -/
theorem blocked_of_clocked {e : Event} (he : k.clocked e = some ms)
    (hno : k.ending e ≠ some .expired) : k.ending e = some .blocked ∧ ms = k.timer := by
  unfold Kernel.clocked at he
  split at he
  · exact ⟨by assumption, (Option.some.inj he).symm⟩
  · exact absurd (by assumption) hno
  · cases he
  · cases he

theorem trapEnding_ne_expired (o : Option Tcb) : trapEnding o ≠ some .expired := by
  unfold trapEnding
  split <;> simp

theorem recvEnding_ne_expired (k : Kernel) (s : Option Tcb) :
    k.recvEnding s ≠ some .expired := by
  intro h
  have hblocked := Frame.blocked_of_isSome (k := k) (s := s) (by simp [h])
  rw [h] at hblocked
  cases hblocked

theorem syscallEnding_ne_expired (k : Kernel) : syscallEnding k ≠ some .expired := by
  unfold syscallEnding
  split
  · split
    · simp
    · split
      · exact recvEnding_ne_expired k _
      · simp
  · exact trapEnding_ne_expired _

/-- Every event that passes an amount to `update_clock` calls it. -/
theorem entry {e : Event} (he : k.clocked e = some ms)
    (hk : MikaBoo.entry fuel k e = .ok (x, k₁)) : Clocks fuel k ms k₁ := by
  cases e with
  | start | run | elapse | edit => cases he
  | syscall =>
      obtain ⟨hy, rfl⟩ := blocked_of_clocked he (syscallEnding_ne_expired _)
      simp only [MikaBoo.entry] at hk
      split at hk
      · have C : Clocks fuel { k.enter with sysbkOldarea := k.cpu } k.timer k₁ := syscallH hy hk
        exact C.of_mails (Mails.of_eq rfl rfl) rfl
      · cases hk
  | pgmtrap cause =>
      obtain ⟨hy, rfl⟩ := blocked_of_clocked he (trapEnding_ne_expired _)
      simp only [MikaBoo.entry] at hk
      split at hk
      · have C : Clocks fuel { k.enter with pgmtrapOldarea := { k.cpu with cp15Cause := cause } }
            k.timer k₁ := pgmtrapH hy hk
        exact C.of_mails (Mails.of_eq rfl rfl) rfl
      · cases hk
  | tlbtrap cause =>
      obtain ⟨hy, rfl⟩ := blocked_of_clocked he (trapEnding_ne_expired _)
      simp only [MikaBoo.entry] at hk
      split at hk
      · have C : Clocks fuel { k.enter with tlbOldarea := { k.cpu with cp15Cause := cause } }
            k.timer k₁ := tlbtrapH hy hk
        exact C.of_mails (Mails.of_eq rfl rfl) rfl
      · cases hk
  | interrupt pending =>
      cases hf : k.timerFired with
      | false => simp [Kernel.clocked, Kernel.ending, hf] at he
      | true =>
          obtain rfl : k.clockPerTimeslice = ms := by
            simpa [Kernel.clocked, Kernel.ending, hf] using he
          simp only [MikaBoo.entry] at hk
          split at hk
          · have C : Clocks fuel { k.enter with intOldarea := k.cpu } k.clockPerTimeslice k₁ :=
              interruptH hf hk
            exact C.of_mails (Mails.of_eq rfl rfl) rfl
          · cases hk
  | ssi =>
      have hreceiving : k.ssiPoint = .receiving := by
        cases hp : k.ssiPoint with
        | receiving => rfl
        | serving => simp [Kernel.clocked, Kernel.ending, hp] at he
      have hending : k.ending .ssi = k.recvEnding none := by simp [Kernel.ending, hreceiving]
      obtain ⟨hy, rfl⟩ := blocked_of_clocked he (hending ▸ recvEnding_ne_expired k none)
      rw [hending] at hy
      simp only [MikaBoo.entry] at hk
      split at hk
      · unfold ssi at hk
        rw [hreceiving] at hk
        let k₂ : Kernel := { k.enter with
          ssiPoint := .serving
          sysbkOldarea := { k.cpu with a1 := SYS_RECV, a2 := null, a3 := .ssiMsg, a4 := null } }
        have C : Clocks fuel k₂ k.timer k₁ := recv hy hk
        exact C.of_mails (Mails.of_eq rfl rfl) rfl
      · cases hk

end Clocks

/-! ## Runs -/

end MikaBoo
