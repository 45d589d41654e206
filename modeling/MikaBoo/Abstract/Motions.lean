import MikaBoo.Abstract.Letters

/-!
# What kernel code does to messages

Whatever happens in a kernel entry, messages are sent, received and waited for by `send` and `recv`
only, or are lost in a termination. So a property of messages and of error codes holds in every run
if these operations keep it.
-/

namespace MikaBoo

open Intrusive Fuel Transition

/-- Nothing that concerns messages, device requests or the loop of the SSI is different. -/
structure Still (k k' : Kernel) : Prop where
  links : k'.msgLinks = k.msgLinks
  msg : k'.msg = k.msg
  history : k'.history = k.history
  slots : k'.softBlockedThread = k.softBlockedThread
  point : k'.ssiPoint = k.ssiPoint
  errno : ∀ t, (k'.tcb t).errno = (k.tcb t).errno
  status : ∀ t, (k'.tcb t).tStatus = (k.tcb t).tStatus
  wait : ∀ t, (k'.tcb t).tWait4sender = (k.tcb t).tWait4sender

/-- What a receive of `t` from `s` that blocks has made of the kernel when it calls
`update_clock`. -/
def Kernel.blocking (k : Kernel) (t : Tcb) (s : Option Tcb) : Kernel :=
  { k with timeSliceLeft := k.timer }.modTcb t fun d =>
    { d with tS := k.sysbkOldarea, tStatus := .w4msg, tWait4sender := s
             runTime := d.runTime + k.timer }

/-- One operation of kernel code that the thread `r` runs or has entered. Only this thread sends
and receives, but for the completions of device requests, and the SSI receives from anybody. -/
inductive Motion (r : Option Tcb) (k k' : Kernel) : Prop
  | still (same : Still k k')
  | post {s d pl w} (signed : s = r) (sent : send k d s pl = .ok (w, k'))
  /-- `acknowledge` sends to the thread that waits for a device, and forgets it. -/
  | complete {i d pl w k₁} (awaited : k.softBlockedThread i = some d)
      (sent : send k d (some .ssi) pl = .ok (w, k₁))
      (cleared : k' = { k₁ with
        softBlockedThread := Function.update k₁.softBlockedThread i none })
  /-- The SSI goes on in its loop. -/
  | turn {p} (running : r = some .ssi) (turned : k' = { k with ssiPoint := p })
  /-- `recv` returns a message from the queue. -/
  | take {t src ptr o pl k₁} (running : r = some t) (anybody : t = .ssi → src = none)
      (got : msgqGet k (some src) (some t) ptr = .ok (some (o, pl), k₁))
      (recorded : k' = k₁.record (.received t o pl))
  /-- `recv` finds no message. -/
  | block {t src ptr} (running : r = some t) (anybody : t = .ssi → src = none)
      (got : msgqGet k (some src) (some t) ptr = .ok (none, k)) (blocked : k' = k.blocking t src)
  | chore (running : r = some .ssi) (c : Chore k k')

/-- What kernel code does. -/
abbrev Motions (r : Option Tcb) : Kernel → Kernel → Prop := Relation.ReflTransGen (Motion r)

/-- A search of a message queue that finds nothing changes nothing. -/
theorem msgqGet_eq_none {k k' : Kernel} {src : Option (Option Tcb)} {d : Option Tcb} {ptr : Value}
    (h : msgqGet k src d ptr = .ok (none, k')) : k' = k := by
  unfold msgqGet at h
  split at h
  · cases h
    rfl
  · obtain ⟨_, _, h⟩ := bind_eq_ok.mp h
    split at h <;> cases h
    rfl
  · obtain ⟨_, _, h⟩ := bind_eq_ok.mp h
    split at h <;> cases h
    rfl

/-- The outcomes of `send`. -/
inductive Delivery (k : Kernel) (s : Option Tcb) (d : Tcb) (pl : Value) (k' : Kernel) : Prop
  | direct (blocked : (k.tcb d).tStatus = .w4msg)
      (eligible : (k.tcb d).tWait4sender = s ∨ (k.tcb d).tWait4sender = none)
      (resumed : k' = (resumeThread k d s pl).record (.sent s d pl true))
  | queued (a : Tcb) (signed : s = some a) (busy : ¬ (k.tcb d).Awaits a)
      (mailbox : ∀ u, k'.view.mailbox u = if u = d then
        k.view.mailbox u ++ [{ mSender := some a, mValue := pl }] else k.view.mailbox u)
      (rest : k' = { k with
        msgLinks := k'.msgLinks, msg := k'.msg, history := k.history ++ [.sent (some a) d pl true] })
  | failed (lost : k' = k.record (.sent s d pl false))

/-- A message without a sender is not queued. -/
theorem Kernel.Filed.delivery {k k' : Kernel} {d : Tcb} {s : Option Tcb} {pl : Value} {w : Word}
    (F : k.Filed) (h : MikaBoo.send k d s pl = .ok (w, k')) : Delivery k s d pl k' := by
  cases s with
  | some s =>
      obtain ⟨w₁, k₁, hk₁, P⟩ := F.send s d pl
      obtain ⟨rfl, rfl⟩ := Prod.mk.inj (Except.ok.inj (hk₁.symm.trans h))
      cases P with
      | direct awaits => exact .direct awaits.1 awaits.2 rfl
      | queued busy _ _ mailbox rest => exact .queued s rfl busy mailbox rest
      | failed => exact .failed rfl
  | none =>
      have hdeliver : ∀ {w k₁}, deliverMsg k d none pl = .ok (w, k₁) →
          w = SEND_FAILURE ∧ k₁ = k := by
        intro w k₁ hk
        obtain ⟨⟨r, k₂⟩, hk₂, hk⟩ := bind_eq_ok.mp hk
        obtain ⟨_, _, hk₂⟩ := bind_eq_ok.mp hk₂
        split at hk₂ <;> cases hk₂
        · simp_all
        · cases hk
          exact ⟨rfl, rfl⟩
      have hlost : ∀ {k₁}, deliverMsg k d none pl = .ok (w, k₁) →
          Delivery k none d pl (k₁.record (.sent none d pl (w = SEND_SUCCESS))) := by
        intro k₁ hk
        obtain ⟨rfl, rfl⟩ := hdeliver hk
        exact .failed rfl
      obtain ⟨⟨r, k₁⟩, hk₁, h⟩ := bind_eq_ok.mp h
      cases h
      unfold sendSwitch at hk₁
      split at hk₁
      · exact hlost hk₁
      · rename_i hblocked
        split at hk₁
        · rename_i heligible
          cases hk₁
          exact .direct hblocked heligible rfl
        · exact hlost hk₁
      · cases hk₁
        exact .failed rfl

/-- What `recv` takes is the first eligible message. -/
theorem Kernel.Filed.taking {k k' : Kernel} {t : Tcb} {src o : Option Tcb} {ptr pl : Value}
    (F : k.Filed) (h : MikaBoo.msgqGet k (some src) (some t) ptr = .ok (some (o, pl), k')) :
    ∃ m, k.view.pick src t = some m ∧ o = (k.msg m).mSender ∧ pl = (k.msg m).mValue ∧
      k'.tcb = k.tcb ∧ k'.history = k.history ∧
      ∀ u, k'.view.mailbox u = (k.view.freeMsg t m).mailbox u := by
  cases hp : k.view.pick src t with
  | none =>
      rw [F.msgqGet_none hp] at h
      cases h
  | some m =>
      obtain ⟨k₁, hk₁, hhist, hmail⟩ := F.msgqGet_pick hp ptr
      have htcb : k₁.tcb = k.tcb := by
        rw [F.msgqGet_some hp] at hk₁
        obtain ⟨_, rfl⟩ := Prod.mk.inj (Except.ok.inj hk₁)
        exact congrArg View.tcb (Filed.view_storeVal k ptr m)
      obtain ⟨hr, rfl⟩ := Prod.mk.inj (Except.ok.inj (hk₁.symm.trans h))
      obtain ⟨rfl, rfl⟩ := Prod.mk.inj (Option.some.inj hr)
      exact ⟨m, rfl, rfl, rfl, htcb, hhist, hmail⟩

namespace Still

variable {k k' : Kernel}

theorem of_tcb (tcb : k'.tcb = k.tcb) (links : k'.msgLinks = k.msgLinks) (msg : k'.msg = k.msg)
    (history : k'.history = k.history) (slots : k'.softBlockedThread = k.softBlockedThread)
    (point : k'.ssiPoint = k.ssiPoint) : Still k k' := by
  refine ⟨links, msg, history, slots, point, ?_, ?_, ?_⟩ <;> intro t <;> rw [tcb]

/-- Assignment to other fields of a thread descriptor. -/
theorem modTcb (k : Kernel) (t : Tcb) (f : TcbT → TcbT) (errno : ∀ d, (f d).errno = d.errno)
    (status : ∀ d, (f d).tStatus = d.tStatus) (wait : ∀ d, (f d).tWait4sender = d.tWait4sender) :
    Still k (k.modTcb t f) where
  links := rfl
  msg := rfl
  history := rfl
  slots := rfl
  point := rfl
  errno := congrFun (Frame.modTcb_field k t f TcbT.errno (errno _))
  status := congrFun (Frame.modTcb_field k t f TcbT.tStatus (status _))
  wait := congrFun (Frame.modTcb_field k t f TcbT.tWait4sender (wait _))

theorem threadDequeue {h : SchedQueue} {o : Option Tcb}
    (hk : MikaBoo.threadDequeue k h = .ok (o, k')) : Still k k' := by
  obtain ⟨_, _, hk⟩ := bind_eq_ok.mp hk
  split at hk <;> cases hk <;> exact .of_tcb rfl rfl rfl rfl rfl rfl

theorem leave {x : Exit} (h : MikaBoo.leave k x = .ok k') : Still k k' := by
  cases x with
  | resume s =>
      cases h
      exact .of_tcb rfl rfl rfl rfl rfl rfl
  | schedule =>
      obtain ⟨⟨o, k₁⟩, hk₁, h⟩ := bind_eq_ok.mp h
      have h₁ := threadDequeue hk₁
      cases o with
      | some t =>
          cases h
          exact { h₁ with }
      | none =>
          simp only [emptyReadyqH] at h
          split at h
          · cases h
          · split at h
            · cases h
            · obtain ⟨_, _, h⟩ := bind_eq_ok.mp h
              cases h
              exact { h₁ with }

end Still

/-- An operation changes the message lists in the ways that `Mailing` lists. -/
theorem Motion.mails {r : Option Tcb} {k k' : Kernel} (m : Motion r k k') : Mails k k' := by
  cases m with
  | still same => exact .of_eq same.links same.msg
  | post _ sent => exact .send sent
  | complete _ sent cleared =>
      rw [cleared]
      exact .of_tail (.send sent) rfl rfl
  | turn _ turned =>
      rw [turned]
      exact .of_eq rfl rfl
  | take _ _ got recorded =>
      rw [recorded]
      exact .of_tail (.single (.get got)) rfl rfl
  | block _ _ _ blocked =>
      rw [blocked]
      exact .of_eq rfl rfl
  | chore _ c => exact (Quiet.chore c).mails

namespace Motions

variable {k k₁ k' : Kernel} {t d : Tcb} {r s o : Option Tcb} {w : Word} {fuel : Nat} {x : Exit}
  {caller : State} {pl ptr : Value}

theorem of_still (h : Still k k') : Motions r k k' := .single (.still h)

theorem of_chores (running : r = some .ssi) (h : Chores k k') : Motions r k k' :=
  Relation.ReflTransGen.mono (fun _ _ c => Motion.chore running c) _ _ h

/-- Other changes before. -/
theorem after (h : Motions r k₁ k') (before : Still k k₁) : Motions r k k' := (of_still before).trans h

/-- Other changes after. -/
theorem before (h : Motions r k k₁) (after : Still k₁ k') : Motions r k k' := h.trans (of_still after)

theorem send (h : MikaBoo.send k d r pl = .ok (w, k')) : Motions r k k' := .single (.post rfl h)

theorem msgsend (hr : k.currentThread = r) (h : MikaBoo.msgsend k caller d pl = .ok k') :
    Motions r k k' := by
  subst hr
  obtain ⟨⟨r, k₁⟩, hk₁, h⟩ := bind_eq_ok.mp h
  cases h
  exact before (after (send hk₁) (.of_tcb rfl rfl rfl rfl rfl rfl)) (.of_tcb rfl rfl rfl rfl rfl rfl)

theorem wakeClockWaiters (hr : k.currentThread = r)
    (h : MikaBoo.wakeClockWaiters fuel k = .ok k') : Motions r k k' := by
  induction fuel generalizing k with
  | zero => cases h
  | succ fuel ih =>
      obtain ⟨⟨o, k₁⟩, hk₁, h⟩ := bind_eq_ok.mp h
      have h₁ := Still.threadDequeue hk₁
      have hr₁ : k₁.currentThread = r :=
        (congrArg Kept.currentThread (Frame.threadDequeue hk₁) :).trans hr
      cases o with
      | none =>
          cases h
          exact of_still h₁
      | some t =>
          obtain ⟨k₂, hk₂, h⟩ := bind_eq_ok.mp h
          have hr₂ : k₂.currentThread = r :=
            (congrArg Kept.currentThread (Frame.msgsend hk₂) :).trans hr₁
          exact after ((msgsend hr₁ hk₂).trans (ih hr₂ h)) h₁

theorem updateClock {ms : Word} (hr : k.currentThread = r)
    (h : MikaBoo.updateClock fuel k ms = .ok k') : Motions r k k' := by
  unfold MikaBoo.updateClock at h
  dsimp only at h
  split at h
  · exact after (wakeClockWaiters (by exact hr) h) (.of_tcb rfl rfl rfl rfl rfl rfl)
  · cases h
    exact of_still (.of_tcb rfl rfl rfl rfl rfl rfl)

/-- A receive is the one of its thread, and the SSI's are from anybody. -/
theorem recv (hr : k.currentThread = r) (hssi : r = some .ssi → s = none)
    (h : MikaBoo.recv fuel k s ptr = .ok (x, k')) : Motions r k k' := by
  unfold MikaBoo.recv at h
  split at h
  · cases h
  · rename_i t hc
    have hrun : r = some t := hr.symm.trans hc
    have hany : t = .ssi → s = none := fun ht => hssi (by rw [hrun, ht])
    split at h
    · cases h
    · obtain ⟨⟨a, k₁⟩, hk₁, h⟩ := bind_eq_ok.mp h
      cases a with
      | some a =>
          cases h
          have h₁ : Motions r k (k₁.record (.received t a.1 a.2)) :=
            .single (.take hrun hany hk₁ rfl)
          exact before h₁ (.of_tcb rfl rfl rfl rfl rfl rfl)
      | none =>
          obtain ⟨k₂, hk₂, h⟩ := bind_eq_ok.mp h
          have hk : k₁ = k := msgqGet_eq_none hk₁
          rw [hk] at hk₁ hk₂
          have h₂ : Motions r (k.blocking t s) k₂ := updateClock (by exact hr) hk₂
          have h₁ : Motions r k (k.blocking t s) := .single (.block hrun hany hk₁ rfl)
          refine (h₁.trans h₂).trans ?_
          split at h <;> cases h <;> exact of_still (.of_tcb rfl rfl rfl rfl rfl rfl)

theorem msgrecv (hr : k.currentThread = r) (hssi : r = some .ssi → s = none)
    (h : MikaBoo.msgrecv fuel k caller s ptr = .ok (x, k')) : Motions r k k' :=
  after (recv (k := { k.enter with
    sysbkOldarea := { caller with a1 := SYS_RECV, a2 := tcbPtr s, a3 := ptr, a4 := null } }) hr hssi h)
    (.of_tcb rfl rfl rfl rfl rfl rfl)

/-! ## Handlers -/

theorem terminateRequest (hr : k.currentThread = r) (hssi : r ≠ some .ssi)
    (h : MikaBoo.terminateRequest fuel k w = .ok (x, k')) : Motions r k k' := by
  obtain ⟨k₁, hk₁, h⟩ := bind_eq_ok.mp h
  obtain ⟨⟨x₂, k₂⟩, hk₂, h⟩ := bind_eq_ok.mp h
  have hr₁ : k₁.currentThread = r :=
    (congrArg Kept.currentThread (Frame.msgsend hk₁) :).trans hr
  have h₂ := msgrecv hr₁ (fun hc => absurd hc hssi) hk₂
  cases x₂ <;> cases h
  exact (msgsend hr hk₁).trans h₂

theorem rawTrapH {old : State} (hr : k.currentThread = r) (hssi : r ≠ some .ssi)
    (h : MikaBoo.rawTrapH fuel k o old = .ok (x, k')) : Motions r k k' := by
  unfold MikaBoo.rawTrapH at h
  split at h
  · cases h
  · rename_i t _
    split at h
    · obtain ⟨k₁, hk₁, h⟩ := bind_eq_ok.mp h
      cases h
      have hsaved := Still.modTcb k t (fun d => { d with tS := old.stepBack }) (fun _ => rfl)
        (fun _ => rfl) fun _ => rfl
      exact before (after (msgsend (by exact hr) hk₁) hsaved) (.of_tcb rfl rfl rfl rfl rfl rfl)
    · exact terminateRequest hr hssi h

theorem pgmtrapH (hr : k.currentThread = r) (hssi : r ≠ some .ssi)
    (h : MikaBoo.pgmtrapH fuel k = .ok (x, k')) : Motions r k k' := by
  obtain ⟨p, _, h⟩ := bind_eq_ok.mp h
  exact rawTrapH hr hssi h

theorem tlbtrapH (hr : k.currentThread = r) (hssi : r ≠ some .ssi)
    (h : MikaBoo.tlbtrapH fuel k = .ok (x, k')) : Motions r k k' := by
  obtain ⟨p, _, h⟩ := bind_eq_ok.mp h
  exact rawTrapH hr hssi h

theorem raiseReservedInstruction (hr : k.currentThread = r) (hssi : r ≠ some .ssi)
    (h : MikaBoo.raiseReservedInstruction fuel k = .ok (x, k')) : Motions r k k' :=
  after (pgmtrapH (k := { k with
    pgmtrapOldarea := { k.sysbkOldarea with cp15Cause := EXC_RESERVEDINSTR } }) hr hssi h)
    (.of_tcb rfl rfl rfl rfl rfl rfl)

theorem syscallOther {a₁ a₂ a₃ a₄ : Value} (hr : k.currentThread = r) (hssi : r ≠ some .ssi)
    (h : MikaBoo.syscallOther fuel k a₁ a₂ a₃ a₄ = .ok (x, k')) : Motions r k k' := by
  unfold MikaBoo.syscallOther at h
  split at h
  · cases h
  · rename_i t hc
    obtain rfl : r = some t := hr.symm.trans hc
    have hsaved : ∀ s, Motions (some t) k (k.modTcb t fun d => { d with tS := s }) := fun s =>
      of_still (.modTcb k t _ (fun _ => rfl) (fun _ => rfl) fun _ => rfl)
    obtain ⟨p, _, h⟩ := bind_eq_ok.mp h
    split at h
    · obtain ⟨⟨r, k₁⟩, hk₁, h⟩ := bind_eq_ok.mp h
      cases h
      let k₀ : Kernel := k.modTcb t fun d => { d with tS := k.sysbkOldarea }
      have h₁ : Motions (some t) k₀ k₁ := after (send hk₁) (.of_tcb rfl rfl rfl rfl rfl rfl)
      exact before ((hsaved k.sysbkOldarea).trans h₁) (.of_tcb rfl rfl rfl rfl rfl rfl)
    · obtain ⟨⟨r, k₁⟩, hk₁, h⟩ := bind_eq_ok.mp h
      cases h
      exact before ((hsaved _).trans (send hk₁)) (.of_tcb rfl rfl rfl rfl rfl rfl)
    · exact terminateRequest hr hssi h

theorem syscallH (hr : k.currentThread = r) (hssi : r ≠ some .ssi)
    (h : MikaBoo.syscallH fuel k = .ok (x, k')) : Motions r k k' := by
  unfold MikaBoo.syscallH at h
  dsimp only at h
  split at h
  · exact raiseReservedInstruction hr hssi h
  · split at h
    · unfold sendKernel at h
      split at h
      · obtain ⟨d, _, h⟩ := bind_eq_ok.mp h
        cases d with
        | none => cases h
        | some d =>
            obtain ⟨⟨w, k₁⟩, hk₁, h⟩ := bind_eq_ok.mp h
            cases h
            rw [hr] at hk₁
            exact before (send hk₁) (.of_tcb rfl rfl rfl rfl rfl rfl)
      · exact raiseReservedInstruction hr hssi h
    · split at h
      · unfold recvKernel at h
        split at h
        · obtain ⟨s, _, h⟩ := bind_eq_ok.mp h
          exact recv hr (fun hc => absurd hc hssi) h
        · exact raiseReservedInstruction hr hssi h
      · exact syscallOther hr hssi h

theorem acknowledge {i : Fin 5} (h : MikaBoo.acknowledge k i = .ok (x, k')) : Motions r k k' := by
  obtain ⟨_, _, h⟩ := bind_eq_ok.mp h
  split at h
  · cases h
  · rename_i d hd
    obtain ⟨⟨w, k₁⟩, hk₁, h⟩ := bind_eq_ok.mp h
    obtain ⟨_, _, h⟩ := bind_eq_ok.mp h
    let k₀ : Kernel := { k with transmCommand := DEV_C_ACK }
    let k₂ : Kernel := { k₁ with
      softBlockedThread := Function.update k₁.softBlockedThread i none }
    have h₂ : Motions r k₀ k₂ := .single (.complete (i := i) hd hk₁ rfl)
    have h₁ : Motions r k k₂ := after h₂ (.of_tcb rfl rfl rfl rfl rfl rfl)
    dsimp only at h
    split at h
    · cases h
      exact before h₁ (.of_tcb rfl rfl rfl rfl rfl rfl)
    · split at h <;> cases h
      exact h₁

theorem interruptH {pending : Fin 5 → Word} (hr : k.currentThread = r)
    (h : MikaBoo.interruptH fuel k pending = .ok (x, k')) : Motions r k k' := by
  unfold MikaBoo.interruptH at h
  dsimp only at h
  let k₁ : Kernel := { k with timeSliceLeft := k.timer }
  have h₁ : Still k k₁ := .of_tcb rfl rfl rfl rfl rfl rfl
  split at h
  · unfold ioH at h
    split at h
    · exact after (acknowledge (k := k₁) h) h₁
    · cases h
  · obtain ⟨k₂, hk₂, h⟩ := bind_eq_ok.mp h
    cases h
    refine after (Relation.ReflTransGen.trans ?_ (updateClock ?_ hk₂)) h₁
    · cases hc : k.currentThread with
      | none => exact of_still (.of_tcb rfl rfl rfl rfl rfl rfl)
      | some t =>
          have hsaved : Still k₁ (k₁.modTcb t fun d =>
              { d with tS := k.intOldarea, runTime := d.runTime + k.clockPerTimeslice }) :=
            .modTcb k₁ t _ (fun _ => rfl) (fun _ => rfl) fun _ => rfl
          exact before (of_still hsaved) (.of_tcb rfl rfl rfl rfl rfl rfl)
    · rw [← hr]
      cases k.currentThread <;> rfl

theorem ssi (hr : k.currentThread = some .ssi) (h : MikaBoo.ssi fuel k = .ok (x, k')) :
    Motions (some .ssi) k k' := by
  cases hp : k.ssiPoint with
  | receiving =>
      simp only [MikaBoo.ssi, hp] at h
      let k₁ : Kernel := { k with ssiPoint := .serving }
      have hturn : Motions (some .ssi) k k₁ := .single (.turn rfl rfl)
      exact hturn.trans (msgrecv (k := k₁) hr (fun _ => rfl) h)
  | serving =>
      obtain ⟨t, q, k₁, o, _, _, hk₁, ho⟩ := ssi_serves hp h
      let k₀ : Kernel := { k with ssiPoint := .receiving }
      have hturn : Motions (some .ssi) k k₀ := .single (.turn rfl rfl)
      have h₁ : Motions (some .ssi) k k₁ := hturn.trans (of_chores rfl (.service hk₁))
      have hr₁ : k₁.currentThread = some .ssi :=
        (congrArg Processor.currentThread (Kept.Spares.chores (.service hk₁)).processor :).trans hr
      rcases ho with ⟨_, _, rfl⟩ | ⟨_, _, hsend, _⟩
      · exact h₁
      · exact h₁.trans (msgsend hr₁ hsend)

theorem entry {e : Event} (h : MikaBoo.entry fuel k e = .ok (x, k')) :
    Motions k.currentThread k k' := by
  have huser : k.userRuns = true → k.currentThread ≠ some .ssi := by
    intro hu hc
    obtain ⟨i, hi⟩ := Good.user_of_userRuns hu
    rw [hi] at hc
    cases hc
  cases e with
  | start | run | elapse =>
      simp only [MikaBoo.entry] at h
      split at h <;> cases h
      exact of_still (.of_tcb rfl rfl rfl rfl rfl rfl)
  | edit t s =>
      simp only [MikaBoo.entry] at h
      split at h <;> cases h
      exact of_still (.modTcb k t _ (fun _ => rfl) (fun _ => rfl) fun _ => rfl)
  | syscall =>
      simp only [MikaBoo.entry] at h
      split at h
      · rename_i hu
        let k₁ : Kernel := { k.enter with sysbkOldarea := k.cpu }
        exact after (syscallH (k := k₁) rfl (huser hu) h) (.of_tcb rfl rfl rfl rfl rfl rfl)
      · cases h
  | pgmtrap cause =>
      simp only [MikaBoo.entry] at h
      split at h
      · rename_i hu
        let k₁ : Kernel := { k.enter with pgmtrapOldarea := { k.cpu with cp15Cause := cause } }
        exact after (pgmtrapH (k := k₁) rfl (huser hu) h) (.of_tcb rfl rfl rfl rfl rfl rfl)
      · cases h
  | tlbtrap cause =>
      simp only [MikaBoo.entry] at h
      split at h
      · rename_i hu
        let k₁ : Kernel := { k.enter with tlbOldarea := { k.cpu with cp15Cause := cause } }
        exact after (tlbtrapH (k := k₁) rfl (huser hu) h) (.of_tcb rfl rfl rfl rfl rfl rfl)
      · cases h
  | interrupt pending =>
      simp only [MikaBoo.entry] at h
      split at h
      · let k₁ : Kernel := { k.enter with intOldarea := k.cpu }
        exact after (interruptH (k := k₁) rfl h) (.of_tcb rfl rfl rfl rfl rfl rfl)
      · cases h
  | ssi =>
      simp only [MikaBoo.entry] at h
      split at h
      · rename_i hrun
        rw [hrun.2]
        exact ssi hrun.2 h
      · cases h

/-- An event does nothing to messages but send, receive, wait and terminate. -/
theorem step {e : Event} (h : MikaBoo.step fuel k e = .ok k') : Motions k.currentThread k k' := by
  obtain ⟨⟨x, k₁⟩, hk₁, h⟩ := bind_eq_ok.mp h
  exact before (entry hk₁) (.leave h)

theorem mails (h : Motions r k k') : Mails k k' := by
  induction h with
  | refl => exact .refl
  | tail _ last ih => exact ih.trans last.mails

/-- A property that every operation keeps while the message lists are in order. -/
theorem keeps {P : Kernel → Prop} (hstep : ∀ {k k'}, k.Filed → P k → Motion r k k' → P k')
    (h : Motions r k k') (F : k.Filed) (hk : P k) : P k' := by
  induction h with
  | refl => exact hk
  | tail first last ih => exact hstep (F.mails (mails first)) ih last

/-- A property that every operation keeps holds in every run. -/
theorem run {P : Kernel → Prop} (hstep : ∀ {r k k'}, k.Filed → P k → Motion r k k' → P k')
    {hw : Hardware} {k₀ : Kernel} {es : List Event} (hb : boot hw = .ok k₀) (hk : P k₀)
    (run : Run Step k₀ es k) : P k := by
  have F₀ : k₀.Filed := (Good.boot hb).refines.msgs
  have hboth : k.Filed ∧ P k := by
    apply run.invariant (P := fun k => k.Filed ∧ P k) _ ⟨F₀, hk⟩
    rintro k e k' ⟨F, hk⟩ ⟨fuel, h⟩
    exact ⟨F.mails (Mails.step h), (step h).keeps hstep F hk⟩
  exact hboth.2

end Motions

end MikaBoo
