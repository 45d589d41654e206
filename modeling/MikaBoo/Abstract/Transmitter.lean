import MikaBoo.Abstract.Census

/-!
# The command register of the transmitter

DO_IO writes the register and a completion acknowledges it. All other kernel code
leaves it alone.
-/

namespace MikaBoo

open Intrusive Fuel Transition

/-- The command register of the transmitter is the same. -/
def SameCommand (k k' : Kernel) : Prop := k'.transmCommand = k.transmCommand

namespace SameCommand

variable {k k₁ k' : Kernel} {t d : Tcb} {s o : Option Tcb} {w : Word} {fuel : Nat} {x : Exit}
  {caller st : State} {pl ptr : Value} {p : Pcb} {q : Option Pcb} {r : Option Value}

theorem trans (h₁ : SameCommand k k₁) (h₂ : SameCommand k₁ k') : SameCommand k k' := Eq.trans h₂ h₁

/-- Other changes before. -/
theorem of_head (h : SameCommand k₁ k') (hk : k₁.transmCommand = k.transmCommand) :
    SameCommand k k' := Eq.trans h hk

/-- Other changes after. -/
theorem of_tail (h : SameCommand k k₁) (hk : k'.transmCommand = k₁.transmCommand) :
    SameCommand k k' := Eq.trans hk h

theorem store (k : Kernel) (ptr v : Value) : SameCommand k (k.store ptr v) := by
  cases ptr <;> exact rfl

theorem threadDequeue {h : SchedQueue} (hk : MikaBoo.threadDequeue k h = .ok (o, k')) :
    SameCommand k k' := by
  obtain ⟨_, _, hk⟩ := bind_eq_ok.mp hk
  split at hk <;> cases hk <;> exact rfl

/-! ### Sending and receiving -/

theorem deliverMsg (hk : MikaBoo.deliverMsg k d s pl = .ok (w, k')) : SameCommand k k' := by
  obtain ⟨⟨r, k₁⟩, hk₁, hk⟩ := bind_eq_ok.mp hk
  have h₁ : SameCommand k k₁ := by
    obtain ⟨_, _, hk₁⟩ := bind_eq_ok.mp hk₁
    split at hk₁ <;> cases hk₁ <;> exact rfl
  dsimp only at hk
  split at hk <;> cases hk <;> exact h₁

theorem resumeThread (k : Kernel) (t : Tcb) (s : Option Tcb) (pl : Value) :
    SameCommand k (MikaBoo.resumeThread k t s pl) := by
  let k₁ := k.modTcb t fun d => { d with tS := { d.tS with a1 := tcbPtr s } }
  change (if (k₁.tcb t).tS.a3 = null then k₁ else k₁.store (k₁.tcb t).tS.a3 pl).transmCommand = _
  split
  · exact rfl
  · exact store k₁ _ pl

theorem send (hk : MikaBoo.send k d s pl = .ok (w, k')) : SameCommand k k' := by
  obtain ⟨⟨r, k₁⟩, hk₁, hk⟩ := bind_eq_ok.mp hk
  cases hk
  refine of_tail (?_ : SameCommand k k₁) rfl
  unfold sendSwitch at hk₁
  split at hk₁
  · exact deliverMsg hk₁
  · split at hk₁
    · cases hk₁
      exact resumeThread k d s pl
    · exact deliverMsg hk₁
  · cases hk₁
    exact rfl

theorem msgsend (hk : MikaBoo.msgsend k caller d pl = .ok k') : SameCommand k k' := by
  obtain ⟨⟨r, k₁⟩, hk₁, hk⟩ := bind_eq_ok.mp hk
  cases hk
  exact of_tail (of_head (send hk₁) rfl) rfl

theorem updateClock {ms : Word} (hk : MikaBoo.updateClock fuel k ms = .ok k') :
    SameCommand k k' := by
  have hwake : ∀ {fuel k}, MikaBoo.wakeClockWaiters fuel k = .ok k' → SameCommand k k' := by
    intro fuel
    induction fuel with
    | zero => exact fun hk => by cases hk
    | succ fuel ih =>
        intro k hk
        obtain ⟨⟨o, k₁⟩, hk₁, hk⟩ := bind_eq_ok.mp hk
        have h₁ := threadDequeue hk₁
        cases o with
        | none =>
            cases hk
            exact h₁
        | some t =>
            obtain ⟨k₂, hk₂, hk⟩ := bind_eq_ok.mp hk
            exact h₁.trans ((msgsend hk₂).trans (ih hk))
  unfold MikaBoo.updateClock at hk
  dsimp only at hk
  split at hk
  · exact of_head (hwake hk) rfl
  · cases hk
    exact rfl

theorem msgqGet {src : Option (Option Tcb)} {r : Option (Option Tcb × Value)}
    (hk : MikaBoo.msgqGet k src o ptr = .ok (r, k')) : SameCommand k k' := by
  have htaken : ∀ m, SameCommand k (msgFree (storeVal k ptr m) m) := by
    intro m
    change (storeVal k ptr m).transmCommand = _
    unfold storeVal
    split
    · exact rfl
    · exact store k ptr _
  unfold MikaBoo.msgqGet at hk
  split at hk
  · cases hk
    exact rfl
  · obtain ⟨_, _, hk⟩ := bind_eq_ok.mp hk
    split at hk <;> cases hk
    · exact rfl
    · exact htaken _
  · obtain ⟨_, _, hk⟩ := bind_eq_ok.mp hk
    split at hk <;> cases hk
    · exact rfl
    · exact htaken _

theorem recv (hk : MikaBoo.recv fuel k s ptr = .ok (x, k')) : SameCommand k k' := by
  unfold MikaBoo.recv at hk
  split at hk
  · cases hk
  · split at hk
    · cases hk
    · obtain ⟨⟨r, k₁⟩, hk₁, hk⟩ := bind_eq_ok.mp hk
      have h₁ := msgqGet hk₁
      cases r with
      | some r =>
          cases hk
          exact of_tail h₁ rfl
      | none =>
          obtain ⟨k₂, hk₂, hk⟩ := bind_eq_ok.mp hk
          have h₂ : SameCommand k k₂ := h₁.trans (of_head (updateClock hk₂) rfl)
          split at hk <;> cases hk <;> exact of_tail h₂ rfl

/-! ### Handlers -/

theorem terminateRequest (hk : MikaBoo.terminateRequest fuel k w = .ok (x, k')) :
    SameCommand k k' := by
  obtain ⟨k₁, hk₁, hk⟩ := bind_eq_ok.mp hk
  obtain ⟨⟨x₂, k₂⟩, hk₂, hk⟩ := bind_eq_ok.mp hk
  have h₂ : SameCommand k₁ k₂ := of_head (recv hk₂) rfl
  cases x₂ <;> cases hk
  exact (msgsend hk₁).trans h₂

theorem rawTrapH {old : State} (hk : MikaBoo.rawTrapH fuel k o old = .ok (x, k')) :
    SameCommand k k' := by
  unfold MikaBoo.rawTrapH at hk
  split at hk
  · cases hk
  · split at hk
    · obtain ⟨k₁, hk₁, hk⟩ := bind_eq_ok.mp hk
      cases hk
      exact of_tail (of_head (msgsend hk₁) rfl) rfl
    · exact terminateRequest hk

theorem raiseReservedInstruction (hk : MikaBoo.raiseReservedInstruction fuel k = .ok (x, k')) :
    SameCommand k k' := by
  obtain ⟨p, _, hk⟩ := bind_eq_ok.mp hk
  exact of_head (rawTrapH hk) rfl

theorem syscallOther {a1 a2 a3 a4 : Value}
    (hk : MikaBoo.syscallOther fuel k a1 a2 a3 a4 = .ok (x, k')) : SameCommand k k' := by
  unfold MikaBoo.syscallOther at hk
  split at hk
  · cases hk
  · obtain ⟨p, _, hk⟩ := bind_eq_ok.mp hk
    split at hk
    · obtain ⟨⟨r, k₁⟩, hk₁, hk⟩ := bind_eq_ok.mp hk
      cases hk
      exact of_tail (of_head (send hk₁) rfl) rfl
    · obtain ⟨⟨r, k₁⟩, hk₁, hk⟩ := bind_eq_ok.mp hk
      cases hk
      exact of_tail (of_head (send hk₁) rfl) rfl
    · exact terminateRequest hk

theorem syscallH (hk : MikaBoo.syscallH fuel k = .ok (x, k')) : SameCommand k k' := by
  unfold MikaBoo.syscallH at hk
  dsimp only at hk
  split at hk
  · exact raiseReservedInstruction hk
  · split at hk
    · unfold sendKernel at hk
      split at hk
      · obtain ⟨d, _, hk⟩ := bind_eq_ok.mp hk
        cases d with
        | none => cases hk
        | some d =>
            obtain ⟨⟨r, k₁⟩, hk₁, hk⟩ := bind_eq_ok.mp hk
            cases hk
            exact of_tail (send hk₁) rfl
      · exact raiseReservedInstruction hk
    · split at hk
      · unfold recvKernel at hk
        split at hk
        · obtain ⟨s, _, hk⟩ := bind_eq_ok.mp hk
          exact recv hk
        · exact raiseReservedInstruction hk
      · exact syscallOther hk

/-- An interrupt acknowledges a completion, unless it comes from the interval timer. -/
theorem interruptH {pending : Fin 5 → Word} (hk : MikaBoo.interruptH fuel k pending = .ok (x, k')) :
    k'.transmCommand = if k.timerFired then k.transmCommand else DEV_C_ACK := by
  unfold MikaBoo.interruptH at hk
  dsimp only at hk
  split at hk
  · rename_i htimer
    have hf : k.timerFired = false := decide_eq_false (not_not.mpr htimer)
    unfold ioH at hk
    split at hk
    · obtain ⟨_, _, hk⟩ := bind_eq_ok.mp hk
      split at hk
      · cases hk
      · obtain ⟨⟨r, k₁⟩, hk₁, hk⟩ := bind_eq_ok.mp hk
        obtain ⟨_, _, hk⟩ := bind_eq_ok.mp hk
        have h₁ := send hk₁
        rw [hf]
        dsimp only at hk
        split at hk
        · cases hk
          exact h₁
        · split at hk <;> cases hk
          exact h₁
    · cases hk
  · rename_i htimer
    have hf : k.timerFired = true := decide_eq_true htimer
    obtain ⟨k₂, hk₂, hk⟩ := bind_eq_ok.mp hk
    cases hk
    rw [hf, if_pos rfl, updateClock hk₂]
    split <;> exact rfl

theorem leave (hk : MikaBoo.leave k x = .ok k') : SameCommand k k' := by
  cases x with
  | resume s =>
      cases hk
      exact rfl
  | schedule =>
      obtain ⟨⟨o, k₁⟩, hk₁, hk⟩ := bind_eq_ok.mp hk
      have h₁ := threadDequeue hk₁
      cases o with
      | some t =>
          cases hk
          exact h₁
      | none =>
          simp only [emptyReadyqH] at hk
          split at hk
          · cases hk
          · split at hk
            · cases hk
            · obtain ⟨_, _, hk⟩ := bind_eq_ok.mp hk
              cases hk
              exact h₁

/-! ### Services -/

theorem rawTerminateThreadS (hk : MikaBoo.rawTerminateThreadS fuel k t = .ok k') :
    SameCommand k k' := by
  have hdrain : ∀ {fuel k k'}, drainMsgq fuel k t = .ok k' → SameCommand k k' := by
    intro fuel
    induction fuel with
    | zero => exact fun hk => by cases hk
    | succ fuel ih =>
        intro k k' hk
        unfold drainMsgq at hk
        split at hk
        · cases hk
          exact rfl
        · obtain ⟨o, _, hk⟩ := bind_eq_ok.mp hk
          cases o with
          | none => cases hk
          | some m =>
              exact of_head (ih hk) rfl
  have habort : ∀ {fuel k k'}, abortWaiters fuel k t = .ok k' → SameCommand k k' := by
    intro fuel
    induction fuel with
    | zero => exact fun hk => by cases hk
    | succ fuel ih =>
        intro k k' hk
        obtain ⟨o, _, hk⟩ := bind_eq_ok.mp hk
        cases o with
        | none =>
            cases hk
            exact rfl
        | some u =>
            have h₁ := resumeThread (k.modTcb u fun d => { d with errno := 1 }) u none null
            exact (of_head h₁ rfl).trans (ih hk)
  obtain ⟨k₁, hk₁, hk⟩ := bind_eq_ok.mp hk
  obtain ⟨k₂, hk₂, hk⟩ := bind_eq_ok.mp hk
  cases hk
  have hfree : SameCommand k₂ (threadFree k₂ t).2 := by
    unfold threadFree
    split
    · exact rfl
    · split <;> exact rfl
  exact (hdrain hk₁).trans ((habort hk₂).trans hfree)

theorem cleanSysMsg (hk : MikaBoo.cleanSysMsg k t = .ok k') : SameCommand k k' := by
  have hget : ∀ {d : Option Tcb}, (MikaBoo.msgqGet k (some (some t)) d null >>= fun r => .ok r.2) =
      .ok k' → SameCommand k k' := by
    intro d hk
    obtain ⟨_, hget, hk⟩ := bind_eq_ok.mp hk
    cases hk
    exact msgqGet hget
  unfold MikaBoo.cleanSysMsg at hk
  split at hk
  · exact hget hk
  · split at hk
    · cases hk
    · split at hk
      · exact hget hk
      · split at hk
        · exact hget hk
        · cases hk
          exact rfl

theorem terminateThreads (hk : MikaBoo.terminateThreads fuel k p o = .ok k') : SameCommand k k' := by
  induction fuel generalizing k with
  | zero => cases hk
  | succ fuel ih =>
      obtain ⟨q, _, hk⟩ := bind_eq_ok.mp hk
      cases q with
      | none =>
          cases hk
          exact rfl
      | some t =>
          dsimp only at hk
          split at hk
          · obtain ⟨k₁, hk₁, hk⟩ := bind_eq_ok.mp hk
            obtain ⟨k₂, hk₂, hk⟩ := bind_eq_ok.mp hk
            exact (cleanSysMsg hk₁).trans ((rawTerminateThreadS hk₂).trans (ih hk))
          · obtain ⟨_, hk₁, hk⟩ := bind_eq_ok.mp hk
            cases hk₁
            obtain ⟨k₂, hk₂, hk⟩ := bind_eq_ok.mp hk
            exact (rawTerminateThreadS hk₂).trans (ih hk)

theorem procDelete (k : Kernel) (p : Pcb) : SameCommand k (MikaBoo.procDelete k p).2 := by
  unfold MikaBoo.procDelete
  split <;> exact rfl

theorem subtree (fuel : Nat) :
    (∀ {k k' p o}, MikaBoo.rawTerminateProcessS fuel k p o = .ok k' → SameCommand k k') ∧
    (∀ {k k' p}, MikaBoo.terminateChildren fuel k p = .ok k' → SameCommand k k') := by
  induction fuel with
  | zero => exact ⟨fun h => (by cases h), fun h => (by cases h)⟩
  | succ fuel ih =>
      obtain ⟨ihp, ihc⟩ := ih
      constructor
      · intro k k' p o hk
        obtain ⟨k₁, hk₁, hk⟩ := bind_eq_ok.mp hk
        obtain ⟨k₂, hk₂, hk⟩ := bind_eq_ok.mp hk
        cases hk
        exact (terminateThreads hk₁).trans ((ihc hk₂).trans (procDelete k₂ p))
      · intro k k' p hk
        obtain ⟨q, _, hk⟩ := bind_eq_ok.mp hk
        cases q with
        | none =>
            cases hk
            exact rfl
        | some q =>
            obtain ⟨k₁, hk₁, hk⟩ := bind_eq_ok.mp hk
            exact (ihp hk₁).trans (ihc hk)

theorem terminateProcessS (hk : MikaBoo.terminateProcessS fuel k t = .ok k') :
    SameCommand k k' := by
  unfold MikaBoo.terminateProcessS at hk
  split at hk
  · cases hk
  · exact (subtree fuel).1 hk

theorem rawCreateThreadS (hk : MikaBoo.rawCreateThreadS k st q = .ok (o, k')) :
    SameCommand k k' := by
  obtain ⟨⟨o₁, k₁⟩, hk₁, hk⟩ := bind_eq_ok.mp hk
  have h₁ : SameCommand k k₁ := by
    obtain ⟨_, _, hk₁⟩ := bind_eq_ok.mp hk₁
    split at hk₁ <;> cases hk₁ <;> exact rfl
  cases o₁ with
  | none =>
      cases hk
      exact h₁
  | some u =>
      cases hk
      exact h₁

theorem createProcessS (hk : MikaBoo.createProcessS k st t = .ok (o, k')) : SameCommand k k' := by
  obtain ⟨⟨q, k₁⟩, hk₁, hk⟩ := bind_eq_ok.mp hk
  have h₁ : SameCommand k k₁ := by
    obtain ⟨_, _, hk₁⟩ := bind_eq_ok.mp hk₁
    split at hk₁ <;> cases hk₁ <;> exact rfl
  cases q with
  | none =>
      cases hk
      exact h₁
  | some q =>
      obtain ⟨⟨o, k₂⟩, hk₂, hk⟩ := bind_eq_ok.mp hk
      have h₂ := h₁.trans (rawCreateThreadS hk₂)
      cases o with
      | none =>
          cases hk
          exact h₂.trans (procDelete k₂ q)
      | some u =>
          cases hk
          exact h₂

theorem rawSetmgr {mgr : PcbT → Option Tcb} {set : PcbT → Option Tcb → PcbT}
    (hk : MikaBoo.rawSetmgr mgr set fuel k o t = .ok (r, k')) : SameCommand k k' := by
  unfold MikaBoo.rawSetmgr at hk
  split at hk
  · cases hk
    exact rfl
  · split at hk
    · cases hk
    · split at hk
      · obtain ⟨k₁, hk₁, hk⟩ := bind_eq_ok.mp hk
        cases hk
        exact terminateProcessS hk₁
      · cases hk
        exact rfl

/-- The services but DO_IO. -/
theorem service {q : Request} {msg : Value} (hq : q ≠ .doIo)
    (hk : MikaBoo.service fuel k t msg q = .ok (r, k')) : SameCommand k k' := by
  cases q with
  | getErrno | getCputime | waitForClock =>
      cases hk
      exact rfl
  | createProcess =>
      obtain ⟨_, _, hk⟩ := bind_eq_ok.mp hk
      obtain ⟨_, _, hk⟩ := bind_eq_ok.mp hk
      obtain ⟨_, hk₁, hk⟩ := bind_eq_ok.mp hk
      cases hk
      exact createProcessS hk₁
  | createThread =>
      obtain ⟨_, _, hk⟩ := bind_eq_ok.mp hk
      obtain ⟨_, _, hk⟩ := bind_eq_ok.mp hk
      obtain ⟨_, hk₁, hk⟩ := bind_eq_ok.mp hk
      cases hk
      exact rawCreateThreadS hk₁
  | terminateProcess =>
      obtain ⟨_, hk₁, hk⟩ := bind_eq_ok.mp hk
      cases hk
      exact terminateProcessS hk₁
  | terminateThread =>
      obtain ⟨_, hk₁, hk⟩ := bind_eq_ok.mp hk
      cases hk
      unfold terminateThreadS at hk₁
      split at hk₁
      · split at hk₁
        · exact terminateProcessS hk₁
        · exact rawTerminateThreadS hk₁
      · exact rawTerminateThreadS hk₁
  | setpgmmgr | settlbmgr | setsysmgr =>
      obtain ⟨_, _, hk⟩ := bind_eq_ok.mp hk
      obtain ⟨_, _, hk⟩ := bind_eq_ok.mp hk
      exact rawSetmgr hk
  | doIo => exact absurd rfl hq
  | getProcessid | getParentprocid =>
      obtain ⟨_, _, hk⟩ := bind_eq_ok.mp hk
      obtain ⟨_, _, hk⟩ := bind_eq_ok.mp hk
      cases hk
      exact rfl
  | getMythreadid =>
      obtain ⟨_, _, hk⟩ := bind_eq_ok.mp hk
      cases hk
      exact rfl

end SameCommand

/-! ## Steps -/

/-- The event completes a command. -/
def Kernel.completes (k : Kernel) : Event → Bool
  | .interrupt _ => !k.timerFired
  | _ => false

/-- The command of the DO_IO request that the event serves, with its applicant. -/
def Kernel.written (k : Kernel) (e : Event) : Option (Tcb × Value) :=
  match e, k.applicant, k.request, reqField k k.ssiMsg 2 with
  | .ssi, some t, some .doIo, .ok c => some (t, c)
  | _, _, _, _ => none

theorem Kernel.written_of_idle {k : Kernel} {e : Event} (hs : k.serves e = false) :
    k.written e = none := by
  cases e with
  | ssi =>
      unfold written
      rw [request_of_idle hs]
      split <;> first | rfl | contradiction
  | _ => rfl

namespace SameCommand

variable {k k' : Kernel} {fuel : Nat} {t : Tcb} {q : Request} {e : Event}

/-- Requests but DO_IO leave the register alone. -/
theorem serving (ha : k.applicant = some t) (hq : k.request = some q) (hio : q ≠ .doIo)
    (h : step fuel k .ssi = .ok k') : SameCommand k k' := by
  obtain ⟨_, k₁, r, hk₁, hr⟩ := ssi_step ha hq h
  have h₁ : SameCommand k k₁ := of_head (service hio hk₁) rfl
  rcases hr with ⟨_, rfl⟩ | ⟨_, _, _, hsend, rfl⟩
  · exact h₁
  · exact of_tail (h₁.trans (msgsend hsend)) rfl

/-- A step that serves no request writes the register only to acknowledge. -/
theorem idle (hs : k.serves e = false) (h : step fuel k e = .ok k') :
    k'.transmCommand = if k.completes e then DEV_C_ACK else k.transmCommand := by
  obtain ⟨⟨x, k₁⟩, hk₁, h⟩ := bind_eq_ok.mp h
  rw [leave h]
  cases e with
  | start | run | elapse | edit =>
      simp only [entry] at hk₁
      split at hk₁ <;> cases hk₁
      rfl
  | syscall =>
      simp only [entry] at hk₁
      split at hk₁
      · exact of_head (syscallH hk₁) rfl
      · cases hk₁
  | pgmtrap cause | tlbtrap cause =>
      simp only [entry] at hk₁
      split at hk₁
      · obtain ⟨p, _, hk₁⟩ := bind_eq_ok.mp hk₁
        exact of_head (rawTrapH hk₁) rfl
      · cases hk₁
  | interrupt pending =>
      simp only [entry] at hk₁
      split at hk₁
      · rw [interruptH hk₁]
        change (if k.timerFired then k.transmCommand else _) = _
        cases hf : k.timerFired <;> simp [Kernel.completes, hf]
      · cases hk₁
  | ssi =>
      have hp : k.ssiPoint = .receiving := by
        cases hp : k.ssiPoint with
        | receiving => rfl
        | serving => simp [Kernel.serves, hp] at hs
      simp only [entry] at hk₁
      split at hk₁
      · simp only [MikaBoo.ssi, hp] at hk₁
        exact of_head (recv hk₁) rfl
      · cases hk₁

end SameCommand

end MikaBoo
