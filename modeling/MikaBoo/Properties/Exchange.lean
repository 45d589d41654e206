import MikaBoo.Abstract.Motions
import MikaBoo.Properties.Waking

/-!
# A message sent before and after the receive

The same message reaches a thread through its queue, when it is sent before the
thread receives, or through the registers and memory of the blocked thread, when
it is sent after. The thread sees a difference only when its receive blocks and
completes a tick, which sends messages in its name.

## Implementation notes

`send` does not look at the current thread, so the sender need not be on the
processor for it.
-/

namespace MikaBoo

open Intrusive Fuel Transition Replay

/-- What an exchange leaves for the receiver. -/
structure Outcome where
  status : Status
  wait : Option Tcb
  /-- The result of the receive, once it has come back. -/
  a1 : Option Value
  /-- The word that the payload pointer points to. -/
  word : Value
  mailbox : List MsgT
  free : List Msg
deriving DecidableEq

/-- The two outcomes differ at most in the order of the free messages. -/
structure Outcome.Agrees (o o' : Outcome) : Prop where
  status : o.status = o'.status
  wait : o.wait = o'.wait
  a1 : o.a1 = o'.a1
  word : o.word = o'.word
  mailbox : o.mailbox = o'.mailbox
  free : o.free.Perm o'.free

namespace Kernel

/-- What `d` has, after its receive with the payload pointer `p` has left the kernel by `x`. -/
def outcome (k : Kernel) (x : Exit) (d : Tcb) (p : Value) : Outcome where
  status := (k.tcb d).tStatus
  wait := (k.tcb d).tWait4sender
  a1 := match x with
    | .resume s => some s.a1
    | .schedule => if (k.tcb d).tStatus = .ready then some (k.tcb d).tS.a1 else none
  word := k.load p
  mailbox := k.view.mailbox d
  free := k.view.msgs .free

/-- `update_clock`, charged with the time left in the slice, finds nobody to wake. -/
def Calm (k : Kernel) : Prop :=
  k.schedLinks.listEmpty .tWait4clock = true ∨ (k.pseudoclock + k.timer).toInt < PSEUDOCLOCK_TICK

instance (k : Kernel) : Decidable k.Calm := inferInstanceAs (Decidable (_ ∨ _))

/-- The queue of the clock is a well-formed list of `ws`, which `d` is not in. The ready queue
is one, too, if a thread has to be put there that is blocked for `d`. -/
structure Clocked (k : Kernel) (d : Tcb) (ws : List Tcb) : Prop where
  clock : Lists k.schedLinks .tWait4clock ws
  ready : k.sleepers d ws ≠ [] → ∃ rs, Lists k.schedLinks .readyq rs
  off : d ∉ ws

/-- The messages that a tick queues in the name of `d`, which blocks, do not matter to it: there
are none, or the receive waits for another thread than `s` and one descriptor is left. -/
def Unaffected (k : Kernel) (s d : Tcb) (src : Option Tcb) : Prop :=
  k.view.pick src d = none → ¬ k.Calm → ∀ ws, Lists k.schedLinks .tWait4clock ws →
    if src = none ∨ src = some s then k.busy d ws = []
    else (k.busy d ws).length < (k.view.msgs .free).length

end Kernel

/-- `d`, on the processor with the registers `regs`, executes `msgrecv(src, regs.a3)`. -/
def receive (fuel : Nat) (k : Kernel) (d : Tcb) (src : Option Tcb) (regs : State) :
    Exec (Exit × Kernel) :=
  recv fuel { k.enter with currentThread := some d, sysbkOldarea := regs } src regs.a3

theorem msgrecv_eq_receive {k : Kernel} {d : Tcb} (hc : k.currentThread = some d) (fuel : Nat)
    (caller : State) (src : Option Tcb) (ptr : Value) : msgrecv fuel k caller src ptr =
      receive fuel k d src
        { caller with a1 := SYS_RECV, a2 := tcbPtr src, a3 := ptr, a4 := null } := by
  unfold msgrecv receive
  rw [← hc]
  rfl

/-- `s` sends before `d` receives. -/
def sendThenReceive (fuel : Nat) (k : Kernel) (s d : Tcb) (src : Option Tcb) (regs : State)
    (v : Value) : Exec Outcome := do
  let (_, k) ← send k d (some s) v
  let (x, k) ← receive fuel k d src regs
  .ok (k.outcome x d regs.a3)

/-- `s` sends after `d` has received or blocked. -/
def receiveThenSend (fuel : Nat) (k : Kernel) (s d : Tcb) (src : Option Tcb) (regs : State)
    (v : Value) : Exec Outcome := do
  let (x, k) ← receive fuel k d src regs
  let (_, k) ← send k d (some s) v
  .ok (k.outcome x d regs.a3)

/-! ## The parts of an exchange -/

namespace Kernel

variable {k : Kernel} {s d : Tcb} {src : Option Tcb} {n : Msg} {regs : State} {v : Value}

/-- A receive that finds a message comes back with it. -/
theorem Filed.receive_takes (F : k.Filed) (hptr : regs.a3.isPayloadPtr = true)
    (hp : k.view.pick src d = some n) (fuel : Nat) :
    ∃ k', receive fuel k d src regs =
        .ok (.resume { regs with a1 := tcbPtr (k.msg n).mSender }, k') ∧
      Taken k d n regs.a3 k' := by
  let k₀ : Kernel := { k.enter with currentThread := some d, sysbkOldarea := regs }
  let k₁ := MikaBoo.storeVal k₀ regs.a3 n
  let k₂ := (MikaBoo.msgFree k₁ n).record (.received d (k.msg n).mSender (k.msg n).mValue)
  have F₀ : k₀.Filed := F.congr rfl
  have F₁ : k₁.Filed := F₀.storeVal regs.a3 n
  have hview : k₁.view = k₀.view := Filed.view_storeVal k₀ regs.a3 n
  have hn : n ∈ k₁.view.msgs (.of d) := by
    rw [hview]
    exact View.mem_of_pick hp
  have harea : k₁.sysbkOldarea = regs := by
    simp only [k₁, MikaBoo.storeVal]
    split
    · rfl
    · generalize (k₀.msg n).mValue = w
      cases regs.a3 <;> rfl
  obtain ⟨hmsgs, hmsg⟩ := F₁.view_msgFree hn
  rw [hview] at hmsgs hmsg
  refine ⟨storeReturnValue k₂ (tcbPtr (k.msg n).mSender), ?_, (F₁.msgFree hn).congr rfl, hmsgs,
    hmsg, congrArg View.tcb hview, ?_, congrArg (· ++ _) ?_⟩
  · have hexit : (storeReturnValue k₂ (tcbPtr (k.msg n).mSender)).sysbkOldarea =
        { regs with a1 := tcbPtr (k.msg n).mSender } := by
      rw [← harea]
      rfl
    rw [← hexit]
    simp only [receive, MikaBoo.recv, hptr, Bool.true_eq_false, ↓reduceIte]
    rw [show MikaBoo.msgqGet { k.enter with currentThread := some d, sysbkOldarea := regs }
      (some src) (some d) regs.a3 = _ from F₀.msgqGet_some hp]
    rfl
  · change k₁.load regs.a3 = _
    simp only [k₁, MikaBoo.storeVal]
    split
    · rfl
    · exact load_store k₀ _ hptr
  · change k₁.history = k₀.history
    simp only [k₁, MikaBoo.storeVal]
    split
    · rfl
    · cases regs.a3 <;> rfl

/-- The receive of `d` has blocked. Messages that a tick has sent take `used` descriptors, and
leave the words as `words` has them. -/
structure Blocked (k : Kernel) (d : Tcb) (src : Option Tcb) (regs : State) (used : Nat)
    (words : Value → Value) (k' : Kernel) : Prop where
  filed : k'.Filed
  status : (k'.tcb d).tStatus = .w4msg
  wait : (k'.tcb d).tWait4sender = src
  regs : (k'.tcb d).tS = regs
  mailbox : k'.view.mailbox d = k.view.mailbox d
  free : k'.view.msgs .free = (k.view.msgs .free).drop used
  load : k'.load = words

/-- `d` has entered the handler of its receive, and is about to block. -/
def entering (k : Kernel) (d : Tcb) (src : Option Tcb) (regs : State) : Kernel :=
  blocking { k.enter with currentThread := some d, sysbkOldarea := regs } d src

/-- A receive that finds no message charges the clock and blocks. -/
theorem Filed.receive_of_clock {k₁ : Kernel} {fuel : Nat} (F : k.Filed)
    (hptr : regs.a3.isPayloadPtr = true) (hp : k.view.pick src d = none)
    (hclock : updateClock fuel (k.entering d src regs) k.timer = .ok k₁) :
    receive fuel k d src regs =
      .ok (.schedule, threadEnqueue k₁ d (src.elim .blockedq .tWait4me)) := by
  let k₀ : Kernel := { k.enter with currentThread := some d, sysbkOldarea := regs }
  have F₀ : k₀.Filed := F.congr rfl
  have hget : MikaBoo.msgqGet k₀ (some src) (some d) regs.a3 = .ok (none, k₀) := F₀.msgqGet_none hp
  simp only [receive, MikaBoo.recv, hptr, Bool.true_eq_false, ↓reduceIte]
  rw [show MikaBoo.msgqGet { k.enter with currentThread := some d, sysbkOldarea := regs } (some src)
    (some d) regs.a3 = _ from hget]
  change (updateClock fuel (k.entering d src regs) k.timer >>= _) = _
  rw [hclock]
  cases src <;> rfl

theorem Filed.receive_leaves {k₁ : Kernel} {x : Exit} {fuel : Nat} (F : k.Filed)
    (hp : k.view.pick src d = none) (h : receive fuel k d src regs = .ok (x, k₁)) :
    x = .schedule := by
  let k₀ : Kernel := { k.enter with currentThread := some d, sysbkOldarea := regs }
  have F₀ : k₀.Filed := F.congr rfl
  have hget : MikaBoo.msgqGet k₀ (some src) (some d) regs.a3 = .ok (none, k₀) := F₀.msgqGet_none hp
  unfold receive MikaBoo.recv at h
  dsimp only at h
  split at h
  · cases h
  · obtain ⟨⟨o, k₂⟩, hk₂, h⟩ := bind_eq_ok.mp h
    obtain ⟨rfl, _⟩ := Prod.mk.inj (Except.ok.inj (hget.symm.trans hk₂))
    obtain ⟨_, _, h⟩ := bind_eq_ok.mp h
    split at h <;> cases h <;> rfl

/-- A receive that blocks and wakes nobody. -/
theorem Filed.receive_calm (F : k.Filed) (hptr : regs.a3.isPayloadPtr = true)
    (hp : k.view.pick src d = none) (hcalm : k.Calm) (fuel : Nat) :
    ∃ k', receive (fuel + 1) k d src regs = .ok (.schedule, k') ∧
      Blocked k d src regs 0 k.load k' := by
  let k₂ := k.entering d src regs
  have hself : k₂.tcb d = { k.tcb d with
      tS := regs, tStatus := .w4msg, tWait4sender := src
      runTime := (k.tcb d).runTime + k.timer } := Function.update_self ..
  obtain ⟨c, hclock⟩ :
      ∃ c, updateClock (fuel + 1) k₂ k.timer = .ok { k₂ with pseudoclock := c } := by
    unfold updateClock
    dsimp only
    split
    · rename_i htick
      have hempty : k.schedLinks.listEmpty .tWait4clock = true :=
        hcalm.resolve_right (not_lt.mpr htick)
      have hnone : k.schedLinks.listNext .tWait4clock = none := if_pos hempty
      refine ⟨k.pseudoclock + k.timer - BitVec.ofNat 32 PSEUDOCLOCK_TICK, ?_⟩
      rw [wakeClockWaiters, threadDequeue]
      simp only [SchedQueue.head]
      rw [show k₂.schedLinks.listNext .tWait4clock = none from hnone]
      rfl
    · exact ⟨_, rfl⟩
  refine ⟨_, F.receive_of_clock hptr hp hclock, F.congr rfl, congrArg TcbT.tStatus hself,
    congrArg TcbT.tWait4sender hself, congrArg TcbT.tS hself, ?_, ?_, ?_⟩
  · exact congrFun (mailbox_of_links rfl rfl) d
  · exact congrFun (msgs_of_links rfl) .free
  · exact load_eq rfl rfl

/-- A receive that blocks and completes a tick. -/
theorem Filed.receive_ticks {ws : List Tcb} {fuel : Nat} (F : k.Filed)
    (hptr : regs.a3.isPayloadPtr = true) (hp : k.view.pick src d = none) (hticks : ¬ k.Calm)
    (C : k.Clocked d ws) (hfuel : ws.length < fuel) :
    ∃ k', receive fuel k d src regs = .ok (.schedule, k') ∧
      Blocked k d src regs (k.busy d ws).length (replay (k.wakeWords d ws) k.load) k' := by
  let k₂ : Kernel := { k.entering d src regs with
    pseudoclock := k.pseudoclock + k.timer - BitVec.ofNat 32 PSEUDOCLOCK_TICK }
  have F₂ : k₂.Filed := F.congr rfl
  have hself : k₂.tcb d = { k.tcb d with
      tS := regs, tStatus := .w4msg, tWait4sender := src
      runTime := (k.tcb d).runTime + k.timer } := Function.update_self ..
  have htcb : ∀ u ∈ ws, k₂.tcb u = k.tcb u := by
    intro u hu
    have hne : u ≠ d := by
      rintro rfl
      exact C.off hu
    exact Function.update_of_ne hne ..
  obtain ⟨hbusy, hsleepers, hwords⟩ := waiters_congr (r := d) htcb
  obtain ⟨rs, Q, hrs⟩ := queued_of_sleepers C.clock C.ready
  have Q₂ : k₂.Queued ws rs := ⟨Q.clock, Q.ready⟩
  obtain ⟨k₁, W, hloop⟩ := Q₂.waking F₂ rfl (r := d) (hsleepers ▸ hrs)
  have hclock : updateClock fuel (k.entering d src regs) k.timer = .ok k₁ := by
    have htick := not_lt.mp (not_or.mp hticks).2
    rw [← show wakeClockWaiters fuel k₂ = .ok k₁ by rw [hloop, if_pos hfuel]]
    exact if_pos htick
  obtain ⟨htcb₁, _, hmail₁⟩ := W.spared d C.off
  rw [hself] at htcb₁
  refine ⟨_, F.receive_of_clock hptr hp hclock, W.filed.congr rfl, congrArg TcbT.tStatus htcb₁,
    congrArg TcbT.tWait4sender htcb₁, congrArg TcbT.tS htcb₁, ?_, ?_, ?_⟩
  · exact hmail₁.trans (congrFun (mailbox_of_links rfl rfl) d)
  · have hfree := W.free
    rw [hbusy, show k₂.view.msgs = k.view.msgs from msgs_of_links rfl] at hfree
    exact hfree
  · have hload := W.load
    rw [hwords, show k₂.load = k.load from load_eq rfl rfl] at hload
    exact hload

/-- A message for a blocked thread that may take it is handed over. -/
theorem send_delivers (k : Kernel) (hawaits : (k.tcb d).Awaits s)
    (hptr : (k.tcb d).tS.a3.isPayloadPtr = true) :
    ∃ k', MikaBoo.send k d (some s) v = .ok (SEND_SUCCESS, k') ∧
      (k'.tcb d).tStatus = .ready ∧ (k'.tcb d).tWait4sender = none ∧ (k'.tcb d).tS.a1 = .tcb s ∧
      k'.msgLinks = k.msgLinks ∧ k'.msg = k.msg ∧ k'.load (k.tcb d).tS.a3 =
        if (k.tcb d).tS.a3 = null then k.load (k.tcb d).tS.a3 else v := by
  let k₁ := resumeThread k d (some s) v
  obtain ⟨htcb, hword, _, _⟩ := resumeThread_effect k d (some s) v
  obtain ⟨_, hlinks, hmsg⟩ := resumeThread_mail k d (some s) v
  have hself : k₁.tcb d = { k.tcb d with
      tS := { (k.tcb d).tS with a1 := .tcb s }, tStatus := .ready, tWait4sender := none } := by
    rw [show k₁.tcb = _ from htcb, Function.update_self]
    rfl
  refine ⟨k₁.record (.sent (some s) d v true), ?_, congrArg TcbT.tStatus hself,
    congrArg TcbT.tWait4sender hself, congrArg (fun e => e.tS.a1) hself, hlinks, hmsg, ?_⟩
  · simp [MikaBoo.send, sendSwitch, hawaits.1, hawaits.2, bind, Except.bind, k₁]
  · change k₁.load (k.tcb d).tS.a3 = _
    split
    · rename_i hnull
      have hstore : k₁.load = k.load := by
        have hcond : ((k.modTcb d fun e => { e with tS := { e.tS with a1 := .tcb s } }).tcb d).tS.a3
            = null := by
          simp [Kernel.modTcb, hnull]
        funext ptr
        simp only [k₁, resumeThread, deliverDirectly, tcbPtr, hcond, ↓reduceIte]
        exact congrFun (load_eq rfl rfl) ptr
      rw [hstore]
    · exact hword (by assumption) hptr

end Kernel

/-! ## Both orders -/

variable {k : Kernel} {s d : Tcb} {src : Option Tcb} {m n : Msg} {rest : List Msg} {regs : State}
  {v : Value}

/-- An older message is there for the receive in both orders. -/
theorem agrees_of_older (F : k.Filed) (hready : (k.tcb d).tStatus = .ready)
    (hq : k.view.msgs .free = m :: rest) (hptr : regs.a3.isPayloadPtr = true)
    (hp : k.view.pick src d = some n) (fuel : Nat) :
    ∃ o o', sendThenReceive fuel k s d src regs v = .ok o ∧
      receiveThenSend fuel k s d src regs v = .ok o' ∧ o.Agrees o' := by
  have hm : m ∈ k.view.msgs .free := by simp [hq]
  have hn := View.mem_of_pick hp
  obtain ⟨k₁, hsend₁, P₁⟩ := F.send_queues (s := s) (d := d) (v := v) hq (by simp [hready])
    (by simp [TcbT.Awaits, hready])
  have hp₁ : k₁.view.pick src d = some n := by
    rw [P₁.pick, View.pick_post_of_some F hm hp]
  obtain ⟨k₂, hrecv₂, T₂⟩ := P₁.filed.receive_takes hptr hp₁ fuel
  obtain ⟨k₃, hrecv₃, T₃⟩ := F.receive_takes hptr hp fuel
  have hready₃ : (k₃.tcb d).tStatus = .ready := by rw [T₃.tcb, hready]
  have hq₃ : k₃.view.msgs .free = m :: (rest ++ [n]) := by
    rw [T₃.free, hq]
    rfl
  obtain ⟨k₄, hsend₄, P₄⟩ := T₃.filed.send_queues (s := s) (d := d) (v := v) hq₃ (by simp [hready₃])
    (by simp [TcbT.Awaits, hready₃])
  -- the message that is taken is not the one that is queued
  have hne : n ≠ m := by
    rintro rfl
    have := F.disjoint hm hn
    cases this
  have hmsg₁ := P₁.msg_of_ne hne
  have htcb : k₂.tcb = k₄.tcb := by rw [T₂.tcb, P₁.tcb, P₄.tcb, T₃.tcb]
  refine ⟨k₂.outcome (.resume { regs with a1 := tcbPtr (k₁.msg n).mSender }) d regs.a3,
    k₄.outcome (.resume { regs with a1 := tcbPtr (k.msg n).mSender }) d regs.a3, ?_, ?_, ?_⟩
  · simp only [sendThenReceive, hsend₁, hrecv₂, bind, Except.bind]
  · simp only [receiveThenSend, hrecv₃, hsend₄, bind, Except.bind]
  refine ⟨?_, ?_, ?_, ?_, ?_, ?_⟩
  · simp [Kernel.outcome, htcb]
  · simp [Kernel.outcome, htcb]
  · simp [Kernel.outcome, hmsg₁]
  · simp [Kernel.outcome, T₂.word, P₁.load, P₄.load, T₃.word, hmsg₁]
  · change k₂.view.mailbox d = k₄.view.mailbox d
    rw [T₂.mailbox P₁.filed hp₁, P₁.mailbox F hm, P₄.mailbox T₃.filed (by simp [hq₃]),
      T₃.mailbox F hp]
    have hel : (k.view.msg n).eligible src = true := by
      rw [View.pick_eq_find] at hp
      exact (List.find?_eq_some_iff_append.mp hp).1
    exact List.eraseP_append_left hel _ (List.mem_map_of_mem hn)
  · change (k₂.view.msgs .free).Perm (k₄.view.msgs .free)
    rw [T₂.free, P₁.free hq, P₄.free hq₃]

/-- The message itself is what the receive gets, from the queue or handed over. The descriptors
tell whether a tick has sent others in between. -/
theorem agrees_of_eligible {k₃ : Kernel} {used fuel : Nat} {words : Value → Value} (F : k.Filed)
    (hready : (k.tcb d).tStatus = .ready) (hwait : (k.tcb d).tWait4sender = none)
    (hq : k.view.msgs .free = m :: rest) (hptr : regs.a3.isPayloadPtr = true)
    (hp : k.view.pick src d = none) (hel : src = none ∨ src = some s)
    (hrecv₃ : receive fuel k d src regs = .ok (.schedule, k₃))
    (B : k.Blocked d src regs used words k₃) (hnull : words null = k.load null) :
    ∃ o o', sendThenReceive fuel k s d src regs v = .ok o ∧
      receiveThenSend fuel k s d src regs v = .ok o' ∧ (o.Agrees o' ↔ used = 0) := by
  have hm : m ∈ k.view.msgs .free := by simp [hq]
  obtain ⟨k₁, hsend₁, P₁⟩ := F.send_queues (s := s) (d := d) (v := v) hq (by simp [hready])
    (by simp [TcbT.Awaits, hready])
  have hp₁ : k₁.view.pick src d = some m := by
    rw [P₁.pick, View.pick_post_of_none F hm hp, if_pos hel]
  obtain ⟨k₂, hrecv₂, T₂⟩ := P₁.filed.receive_takes hptr hp₁ fuel
  have hawaits : (k₃.tcb d).Awaits s := ⟨B.status, by rw [B.wait]; exact hel.symm⟩
  obtain ⟨k₄, hsend₄, hstatus₄, hwait₄, ha₄, hlinks₄, hmsg₄, hload₄⟩ :=
    k₃.send_delivers (v := v) hawaits (by rwa [B.regs])
  rw [B.regs, B.load] at hload₄
  have hself : k₁.msg m = { mSender := some s, mValue := v } := by
    rw [show k₁.msg = _ from P₁.msg]
    simp [View.post]
  have hfree₂ : k₂.view.msgs .free = rest ++ [m] := by rw [T₂.free, P₁.free hq]
  have hfree₄ : k₄.view.msgs .free = (m :: rest).drop used := by
    rw [Kernel.msgs_of_links hlinks₄, B.free, hq]
  refine ⟨k₂.outcome (.resume { regs with a1 := tcbPtr (k₁.msg m).mSender }) d regs.a3,
    k₄.outcome .schedule d regs.a3, ?_, ?_, ?_⟩
  · simp only [sendThenReceive, hsend₁, hrecv₂, bind, Except.bind]
  · simp only [receiveThenSend, hrecv₃, hsend₄, bind, Except.bind]
  constructor
  · intro A
    have hperm : (k₂.view.msgs .free).Perm (k₄.view.msgs .free) := A.free
    rw [hfree₂, hfree₄] at hperm
    have hlen := hperm.length_eq
    rw [List.length_append, List.length_drop, List.length_singleton, List.length_cons] at hlen
    omega
  · rintro rfl
    refine ⟨?_, ?_, ?_, ?_, ?_, ?_⟩
    · simp [Kernel.outcome, T₂.tcb, P₁.tcb, hready, hstatus₄]
    · simp [Kernel.outcome, T₂.tcb, P₁.tcb, hwait, hwait₄]
    · simp [Kernel.outcome, hself, hstatus₄, ha₄, tcbPtr]
    · change k₂.load regs.a3 = k₄.load regs.a3
      rw [T₂.word, P₁.load, hload₄, hself]
      split
      · rename_i h
        rw [h, hnull]
      · rfl
    · change k₂.view.mailbox d = k₄.view.mailbox d
      have hold : ∀ e ∈ k.view.mailbox d, ¬ e.eligible src = true := by
        intro e he
        simp [View.not_eligible_of_pick hp he]
      have hnew : MsgT.eligible src { mSender := some s, mValue := v } = true := by
        rcases hel with rfl | rfl <;> simp [MsgT.eligible]
      rw [T₂.mailbox P₁.filed hp₁, P₁.mailbox F hm, Kernel.mailbox_of_links hlinks₄ hmsg₄,
        B.mailbox, List.eraseP_append_right _ hold, List.eraseP_cons_of_pos hnew, List.append_nil]
    · change (k₂.view.msgs .free).Perm (k₄.view.msgs .free)
      rw [hfree₂, hfree₄]
      exact List.perm_append_singleton m rest

/-- The receive waits for a third thread in both orders. The message is lost when a tick takes
the last descriptor before it is sent. -/
theorem agrees_of_foreign {k₁ k₂ k₃ : Kernel} {used fuel : Nat} {words : Value → Value}
    (F : k.Filed) (hq : k.view.msgs .free = m :: rest)
    (hel : ¬ (src = none ∨ src = some s)) (hsend₁ : send k d (some s) v = .ok (SEND_SUCCESS, k₁))
    (P₁ : k.Posted s d v m k₁) (hrecv₂ : receive fuel k₁ d src regs = .ok (.schedule, k₂))
    (B₂ : k₁.Blocked d src regs used words k₂)
    (hrecv₃ : receive fuel k d src regs = .ok (.schedule, k₃))
    (B₃ : k.Blocked d src regs used words k₃) :
    ∃ o o', sendThenReceive fuel k s d src regs v = .ok o ∧
      receiveThenSend fuel k s d src regs v = .ok o' ∧
      (o.Agrees o' ↔ used < (k.view.msgs .free).length) := by
  have hm : m ∈ k.view.msgs .free := by simp [hq]
  have hbusy : ¬ (k₃.tcb d).Awaits s := by
    rintro ⟨_, h⟩
    rw [B₃.wait] at h
    exact hel h.symm
  have hmail₂ : k₂.view.mailbox d = k.view.mailbox d ++ [{ mSender := some s, mValue := v }] := by
    rw [B₂.mailbox, P₁.mailbox F hm]
  have hfree₂ : k₂.view.msgs .free = rest.drop used := by rw [B₂.free, P₁.free hq]
  have hfirst : sendThenReceive fuel k s d src regs v =
      .ok (k₂.outcome .schedule d regs.a3) := by
    simp only [sendThenReceive, hsend₁, hrecv₂, bind, Except.bind]
  by_cases hroom : used < (k.view.msgs .free).length
  · obtain ⟨n, left, hq₃⟩ : ∃ n left, k₃.view.msgs .free = n :: left := by
      apply List.exists_cons_of_ne_nil
      rw [B₃.free, ← List.length_pos_iff, List.length_drop]
      omega
    have hleft : left = rest.drop used := by
      have h := congrArg (List.drop 1) (hq₃.symm.trans B₃.free)
      simpa [hq] using h
    obtain ⟨k₄, hsend₄, P₄⟩ := B₃.filed.send_queues (s := s) (d := d) (v := v) hq₃
      (by simp [B₃.status]) hbusy
    refine ⟨_, k₄.outcome .schedule d regs.a3, hfirst, ?_, iff_of_true ?_ hroom⟩
    · simp only [receiveThenSend, hrecv₃, hsend₄, bind, Except.bind]
    refine ⟨?_, ?_, ?_, ?_, ?_, ?_⟩
    · simp [Kernel.outcome, B₂.status, P₄.tcb, B₃.status]
    · simp [Kernel.outcome, B₂.wait, P₄.tcb, B₃.wait]
    · simp [Kernel.outcome, B₂.status, P₄.tcb, B₃.status]
    · simp [Kernel.outcome, B₂.load, P₄.load, B₃.load]
    · change k₂.view.mailbox d = k₄.view.mailbox d
      rw [hmail₂, P₄.mailbox B₃.filed (by simp [hq₃]), B₃.mailbox]
    · change (k₂.view.msgs .free).Perm (k₄.view.msgs .free)
      rw [hfree₂, P₄.free hq₃, hleft]
  · have hfull : k₃.view.msgs .free = [] := by
      rw [B₃.free, List.drop_eq_nil_of_le (not_lt.mp hroom)]
    obtain ⟨w, k₄, hsend₄, P₄⟩ := B₃.filed.send s d v
    have hmail₄ : k₄.view.mailbox d = k.view.mailbox d := by
      cases P₄ with
      | direct awaits => exact absurd awaits hbusy
      | queued _ _ room => exact absurd hfull room
      | failed => exact B₃.mailbox
    refine ⟨_, k₄.outcome .schedule d regs.a3, hfirst, ?_, iff_of_false (fun A => ?_) hroom⟩
    · simp only [receiveThenSend, hrecv₃, hsend₄, bind, Except.bind]
    · have hmailbox : k₂.view.mailbox d = k₄.view.mailbox d := A.mailbox
      rw [hmail₂, hmail₄] at hmailbox
      simp at hmailbox

/-- NULL is no place that the loop writes to. -/
theorem wakeWords_null (k : Kernel) (d : Tcb) (ws : List Tcb) (f : Value → Value) :
    replay (k.wakeWords d ws) f null = f null := by
  refine replay_of_forall_ne fun w hw => ?_
  obtain ⟨u, _, hu⟩ := List.mem_filterMap.mp hw
  simp only [Obs.word] at hu
  split at hu <;> cases hu
  rename_i h
  exact h.1

/-- Two lists of one queue are the same. -/
theorem lists_unique {L : Links SchedNode} {q : SchedQueue} {ws ws' : List Tcb}
    (h : Lists L q ws) (h' : Lists L q ws') : ws = ws' := by
  have hlen : (ws.map SchedNode.tSched).length ≤ ws.length + ws'.length := by simp
  have hlen' : (ws'.map SchedNode.tSched).length ≤ ws.length + ws'.length := by simp
  have hwalk := h.walk hlen
  have hwalk' := h'.walk hlen'
  exact List.map_injective_iff.mpr (fun _ _ => SchedNode.tSched.inj) (hwalk.symm.trans hwalk')

/-- How many descriptors a receive of `d` that blocks takes for others, in at most `fuel` rounds,
and what it leaves of the words. -/
inductive Kernel.Charges (k : Kernel) (d : Tcb) (fuel : Nat) : Nat → (Value → Value) → Prop
  | calm (calm : k.Calm) : Charges k d fuel 0 k.load
  | ticks (ticks : ¬ k.Calm) (ws : List Tcb) (clocked : k.Clocked d ws)
      (rounds : ws.length ≤ fuel) :
      Charges k d fuel (k.busy d ws).length (replay (k.wakeWords d ws) k.load)

namespace Kernel.Charges

variable {k₁ : Kernel} {used fuel : Nat} {words : Value → Value}

theorem blocks (C : k.Charges d fuel used words) (F : k.Filed) (hptr : regs.a3.isPayloadPtr = true)
    (hp : k.view.pick src d = none) : ∃ k', receive (fuel + 1) k d src regs = .ok (.schedule, k') ∧
      k.Blocked d src regs used words k' := by
  cases C with
  | calm calm => exact F.receive_calm hptr hp calm fuel
  | ticks ticks ws clocked rounds =>
      exact F.receive_ticks hptr hp ticks clocked (Nat.lt_succ_of_le rounds)

/-- A message that is queued before makes no difference to the tick. -/
theorem posted (C : k.Charges d fuel used words) (P : k.Posted s d v m k₁) :
    k₁.Charges d fuel used words := by
  obtain ⟨hbusy, hsleepers, hwords⟩ :
      (∀ ws, k₁.busy d ws = k.busy d ws) ∧ (∀ ws, k₁.sleepers d ws = k.sleepers d ws) ∧
        ∀ ws, k₁.wakeWords d ws = k.wakeWords d ws := by
    have hall : ∀ ws : List Tcb, k₁.busy d ws = k.busy d ws ∧ k₁.sleepers d ws = k.sleepers d ws ∧
        k₁.wakeWords d ws = k.wakeWords d ws :=
      fun ws => Kernel.waiters_congr fun u _ => congrFun P.tcb u
    exact ⟨fun ws => (hall ws).1, fun ws => (hall ws).2.1, fun ws => (hall ws).2.2⟩
  have hlinks : k₁.schedLinks = k.schedLinks := by rw [P.rest]
  have hcalm : k₁.Calm ↔ k.Calm := by rw [P.rest]; rfl
  cases C with
  | calm calm =>
      rw [← P.load]
      exact .calm (hcalm.mpr calm)
  | ticks ticks ws clocked rounds =>
      rw [← P.load, ← hbusy, ← hwords]
      refine .ticks (mt hcalm.mp ticks) ws ⟨?_, ?_, clocked.off⟩ rounds
      · rw [hlinks]
        exact clocked.clock
      · rw [hlinks, hsleepers]
        exact clocked.ready

theorem words_null (C : k.Charges d fuel used words) : words null = k.load null := by
  cases C with
  | calm => rfl
  | ticks _ ws => exact wakeWords_null k d ws k.load

theorem unaffected_iff (C : k.Charges d fuel used words) (hp : k.view.pick src d = none)
    (hroom : k.view.msgs .free ≠ []) : k.Unaffected s d src ↔
      if src = none ∨ src = some s then used = 0 else used < (k.view.msgs .free).length := by
  have hpos := List.length_pos_iff.mpr hroom
  cases C with
  | calm calm =>
      refine iff_of_true (fun _ ticks => absurd calm ticks) ?_
      split
      · rfl
      · exact hpos
  | ticks ticks ws clocked =>
      constructor
      · intro h
        simpa only [List.length_eq_zero_iff] using h hp ticks ws clocked.clock
      · intro h _ _ ws' clock'
        obtain rfl := lists_unique clocked.clock clock'
        simpa only [List.length_eq_zero_iff] using h

end Kernel.Charges

/-- Both orders have one outcome each. -/
theorem exists_agrees_iff {x y : Exec Outcome} {o o' : Outcome} {P : Prop} (hx : x = .ok o)
    (hy : y = .ok o') (h : o.Agrees o' ↔ P) :
    (∃ o o', x = .ok o ∧ y = .ok o' ∧ o.Agrees o') ↔ P := by
  subst hx hy
  refine ⟨?_, fun hP => ⟨o, o', rfl, rfl, h.mpr hP⟩⟩
  rintro ⟨_, _, ⟨⟩, ⟨⟩, A⟩
  exact h.mp A

/-- With a message descriptor left it makes no difference to `d` whether `s` sends before it
receives or after, exactly if a tick that its receive completes queues no message, or leaves a
descriptor for a message that the receive does not take. -/
theorem send_receive_comm {fuel : Nat} (F : k.Filed) (hready : (k.tcb d).tStatus = .ready)
    (hwait : (k.tcb d).tWait4sender = none) (hroom : k.view.msgs .free ≠ [])
    (hptr : regs.a3.isPayloadPtr = true)
    (hclock : k.view.pick src d = none → ¬ k.Calm → ∃ ws, k.Clocked d ws ∧ ws.length ≤ fuel) :
    (∃ o o', sendThenReceive (fuel + 1) k s d src regs v = .ok o ∧
      receiveThenSend (fuel + 1) k s d src regs v = .ok o' ∧ o.Agrees o') ↔
      k.Unaffected s d src := by
  obtain ⟨m, rest, hq⟩ := List.exists_cons_of_ne_nil hroom
  cases hp : k.view.pick src d with
  | some n =>
      have hcond : k.Unaffected s d src := by simp [Kernel.Unaffected, hp]
      exact iff_of_true (agrees_of_older F hready hq hptr hp (fuel + 1)) hcond
  | none =>
      obtain ⟨used, words, C⟩ : ∃ used words, k.Charges d fuel used words := by
        by_cases hcalm : k.Calm
        · exact ⟨_, _, .calm hcalm⟩
        · obtain ⟨ws, clocked, rounds⟩ := hclock hp hcalm
          exact ⟨_, _, .ticks hcalm ws clocked rounds⟩
      obtain ⟨k₃, hrecv₃, B₃⟩ := C.blocks F hptr hp
      rw [C.unaffected_iff hp hroom]
      by_cases hel : src = none ∨ src = some s
      · rw [if_pos hel]
        obtain ⟨o, o', ho, ho', hagrees⟩ :=
          agrees_of_eligible (v := v) F hready hwait hq hptr hp hel hrecv₃ B₃ C.words_null
        exact exists_agrees_iff ho ho' hagrees
      · rw [if_neg hel]
        have hm : m ∈ k.view.msgs .free := by simp [hq]
        obtain ⟨k₁, hsend₁, P₁⟩ := F.send_queues (s := s) (d := d) (v := v) hq (by simp [hready])
          (by simp [TcbT.Awaits, hready])
        have hp₁ : k₁.view.pick src d = none := by
          rw [P₁.pick, View.pick_post_of_none F hm hp, if_neg hel]
        obtain ⟨k₂, hrecv₂, B₂⟩ := (C.posted P₁).blocks P₁.filed hptr hp₁
        obtain ⟨o, o', ho, ho', hagrees⟩ :=
          agrees_of_foreign F hq hel hsend₁ P₁ hrecv₂ B₂ hrecv₃ B₃
        exact exists_agrees_iff ho ho' hagrees

namespace Sample

/-- The registers of a thread that receives from anybody, into the word at 0x300. -/
def receiver : State := { a1 := SYS_RECV, a3 := .int 0x300, cpsr := SYS_MODE_INT_DISABLED }

/-- The running thread uses up its slice. -/
def slice : List Event := [.run {} (fun _ => null) 5000]

/-- The first thread has a message of the second one and a reply of the SSI. -/
def answered : List Event :=
  [.start, .ssi] ++ service [.int 2, .int 0x200] ++ send (.thread 0) (.int 5) [] ++
    recv (some .ssi) [] ++ request [.int 0] ++
    [.run {} (memory [.int 0]) 5000, .interrupt fun _ => 0, .ssi, .ssi]

/-- The first thread waits for the clock while the second one has been woken. No
receive before that finds any time left to charge, so the clock has not ticked. -/
def clockWaiter : List Event :=
  [.start, .elapse 5000, .ssi] ++ slice ++ request [.int 2, .int 0x200] ++
    recv (some .ssi) [.int 2, .int 0x200] ++ [.ssi, .elapse 5000, .ssi] ++ slice ++
    recv none [] ++ slice ++ request [.int 9] ++ send (.thread 1) null [.int 9] ++
    recv (some .ssi) [.int 9] ++ [.ssi, .elapse 5000, .ssi]

end Sample

/-- The second thread sends the first one a message and blocks. The first one asks for its error
number, and the reply is queued behind that message. -/
theorem send_receive_comm_sample : ∃ (k₀ k : Kernel) (o o' : Outcome),
    boot Sample.hardware = .ok k₀ ∧ Run Step k₀ Sample.answered k ∧
    k.currentThread = some (.thread 0) ∧
    k.view.mailbox (.thread 0) =
      [{ mSender := some (.thread 1), mValue := .int 5 },
        { mSender := some .ssi, mValue := .int 0 }] ∧
    sendThenReceive 1 k (.thread 1) (.thread 0) (some .ssi) Sample.receiver (.int 7) = .ok o ∧
    receiveThenSend 1 k (.thread 1) (.thread 0) (some .ssi) Sample.receiver (.int 7) = .ok o' ∧
    o.Agrees o' := by
  let check : Kernel → Bool := fun k => k.currentThread = some (.thread 0) ∧
    (k.tcb (.thread 0)).tStatus = .ready ∧ (k.tcb (.thread 0)).tWait4sender = none ∧
      k.view.msgs .free ≠ [] ∧ k.view.pick (some .ssi) (.thread 0) ≠ none ∧
      k.view.mailbox (.thread 0) = [{ mSender := some (.thread 1), mValue := .int 5 },
        { mSender := some .ssi, mValue := .int 0 }]
  have h : (execute (fun _ _ => True) Sample.hardware 100 Sample.answered).any check = true := by
    decide +kernel
  obtain ⟨k, hk, hprops⟩ := Option.any_eq_true _ _ |>.mp h
  obtain ⟨k₀, hb, run⟩ := run_of_execute hk
  have run := forget_guard run
  obtain ⟨hcur, hready, hwait, hroom, hpick, hmail⟩ := of_decide_eq_true hprops
  obtain ⟨o, o', ho, ho', hagrees⟩ : ∃ o o',
      sendThenReceive 1 k (.thread 1) (.thread 0) (some .ssi) Sample.receiver (.int 7) = .ok o ∧
        receiveThenSend 1 k (.thread 1) (.thread 0) (some .ssi) Sample.receiver (.int 7) = .ok o' ∧
        o.Agrees o' :=
    (send_receive_comm (Kernel.Filed.run hb run) hready hwait hroom rfl
      fun hp => absurd hp hpick).mpr fun hp => absurd hp hpick
  exact ⟨k₀, k, o, o', hb, run, hcur, hmail, ho, ho', hagrees⟩

/-- With a thread that waits for the clock, the receive that blocks sends it a
message, and one more message descriptor is in use than in the other order. -/
theorem send_receive_differ : ∃ (k₀ k : Kernel) (o o' : Outcome),
    boot Sample.hardware = .ok k₀ ∧ Run Step k₀ Sample.clockWaiter k ∧
    k.currentThread = some (.thread 1) ∧ (k.tcb (.thread 1)).tStatus = .ready ∧
    k.view.msgs .free ≠ [] ∧
    sendThenReceive 10 k .ssi (.thread 1) none Sample.receiver (.int 7) = .ok o ∧
    receiveThenSend 10 k .ssi (.thread 1) none Sample.receiver (.int 7) = .ok o' ∧
    o.free.length = 40 ∧ o'.free.length = 39 ∧ ¬ o.Agrees o' := by
  let check : Kernel → Bool := fun k => k.currentThread = some (.thread 1) ∧
    (k.tcb (.thread 1)).tStatus = .ready ∧ k.view.msgs .free ≠ [] ∧
      (sendThenReceive 10 k .ssi (.thread 1) none Sample.receiver (.int 7)).toOption.any
        (·.free.length = 40) = true ∧
      (receiveThenSend 10 k .ssi (.thread 1) none Sample.receiver (.int 7)).toOption.any
        (·.free.length = 39) = true
  have h : (execute (fun _ _ => True) Sample.hardware 100 Sample.clockWaiter).any check = true := by
    decide +kernel
  obtain ⟨k, hk, hprops⟩ := Option.any_eq_true _ _ |>.mp h
  obtain ⟨k₀, hb, run⟩ := run_of_execute hk
  obtain ⟨hcur, hready, hroom, h₁, h₂⟩ := of_decide_eq_true hprops
  obtain ⟨o, ho, hfree⟩ := Option.any_eq_true _ _ |>.mp h₁
  obtain ⟨o', ho', hfree'⟩ := Option.any_eq_true _ _ |>.mp h₂
  have hfree := of_decide_eq_true hfree
  have hfree' := of_decide_eq_true hfree'
  refine ⟨k₀, k, o, o', hb, forget_guard run, hcur, hready, hroom, exec_eq_ok ho, exec_eq_ok ho',
    hfree, hfree', fun hagrees => ?_⟩
  have hlen := hagrees.free.length_eq
  omega

end MikaBoo
