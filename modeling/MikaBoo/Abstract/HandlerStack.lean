import MikaBoo.Abstract.Census

/-!
# The stack of the handlers

Every entry into a handler puts new frames over those of the handler before. What a
handler leaves in the words that pointers go out to is therefore a matter of how many
entries follow, whatever they are for.
-/

namespace MikaBoo

open Fuel

/-- The frames in which pointers end: those of the handler entered last, then those of the
handlers to come. -/
def Kernel.frames (k : Kernel) : Nat → HandlerStack
  | 0 => k.handlerStack
  | n + 1 => k.overlays n

/-- Handlers are entered `n` times. -/
def Enters (n : Nat) (k k' : Kernel) : Prop := ∀ i, k'.frames i = k.frames (i + n)

/-- The event is an exception. -/
def Event.raises : Event → Bool
  | .syscall | .pgmtrap _ | .tlbtrap _ | .interrupt _ => true
  | .start | .run .. | .elapse _ | .edit .. | .ssi => false

/-- The event is an exception, or the SSI runs, whose receives and answers are system calls. -/
def Event.enters : Event → Bool
  | .ssi => true
  | e => e.raises

namespace Kernel

/-- The system call of the running thread goes to the `sys_mgr` of its process. -/
def callsManager (k : Kernel) : Prop :=
  k.cpu.a1 ≠ null ∧ k.cpu.a1 ≠ SYS_SEND ∧ k.cpu.a1 ≠ SYS_RECV ∧ k.managers.sysMgr.isSome

instance (k : Kernel) : Decidable k.callsManager :=
  inferInstanceAs (Decidable (_ ∧ _ ∧ _ ∧ _))

/-- The number and the arguments of the system call of the running thread. -/
def callArgs (k : Kernel) : List Value := [k.cpu.a1, k.cpu.a2, k.cpu.a3, k.cpu.a4]

end Kernel

namespace Enters

variable {m n : Nat} {k k₁ k' : Kernel} {t d : Tcb} {s o : Option Tcb} {w : Word} {fuel : Nat}
  {x : Exit} {caller : State} {pl ptr : Value}

theorem of_eq (stack : k'.handlerStack = k.handlerStack) (overlays : k'.overlays = k.overlays) :
    Enters 0 k k' := by
  intro i
  cases i with
  | zero => exact stack
  | succ i => exact congrFun overlays i

theorem refl (k : Kernel) : Enters 0 k k := of_eq rfl rfl

theorem trans (h₁ : Enters m k k₁) (h₂ : Enters n k₁ k') : Enters (n + m) k k' := by
  intro i
  rw [h₂, h₁, Nat.add_assoc]

/-- Other changes before. -/
theorem of_head (h : Enters n k₁ k') (stack : k₁.handlerStack = k.handlerStack)
    (overlays : k₁.overlays = k.overlays) : Enters n k k' :=
  (of_eq stack overlays).trans h

/-- Other changes after. -/
theorem of_tail (h : Enters n k k₁) (stack : k'.handlerStack = k₁.handlerStack)
    (overlays : k'.overlays = k₁.overlays) : Enters n k k' := by
  simpa using h.trans (of_eq stack overlays)

theorem enter (k : Kernel) : Enters 1 k k.enter := by
  intro i
  cases i <;> rfl

/-- Once a handler is entered, nothing is left of a request. -/
theorem of_writeReq {q : Word} (h : Enters (n + 1) (k.writeReq q) k') : Enters (n + 1) k k' :=
  h

/-! ## Operations that enter no handler -/

theorem store (k : Kernel) (ptr v : Value) : Enters 0 k (k.store ptr v) := by
  cases ptr <;> exact of_eq rfl rfl

theorem threadDequeue {h : SchedQueue} (hk : MikaBoo.threadDequeue k h = .ok (o, k')) :
    Enters 0 k k' := by
  obtain ⟨_, _, hk⟩ := bind_eq_ok.mp hk
  split at hk <;> cases hk <;> exact of_eq rfl rfl

theorem deliverMsg (hk : MikaBoo.deliverMsg k d s pl = .ok (w, k')) : Enters 0 k k' := by
  obtain ⟨⟨r, k₁⟩, hk₁, hk⟩ := bind_eq_ok.mp hk
  have h₁ : Enters 0 k k₁ := by
    obtain ⟨_, _, hk₁⟩ := bind_eq_ok.mp hk₁
    split at hk₁ <;> cases hk₁ <;> exact of_eq rfl rfl
  dsimp only at hk
  split at hk <;> cases hk <;> exact h₁

theorem deliverDirectly (k : Kernel) (d : Tcb) (s : Option Tcb) (pl : Value) :
    Enters 0 k (MikaBoo.deliverDirectly k d s pl) := by
  let k₁ := k.modTcb d fun d => { d with tS := { d.tS with a1 := tcbPtr s } }
  have h : Enters 0 k (if (k₁.tcb d).tS.a3 = null then k₁ else k₁.store (k₁.tcb d).tS.a3 pl) := by
    split
    · exact of_eq rfl rfl
    · exact of_head (store k₁ _ pl) rfl rfl
  exact of_tail h rfl rfl

theorem resumeThread (k : Kernel) (t : Tcb) (s : Option Tcb) (pl : Value) :
    Enters 0 k (MikaBoo.resumeThread k t s pl) :=
  of_tail (deliverDirectly k t s pl) rfl rfl

theorem send (hk : MikaBoo.send k d s pl = .ok (w, k')) : Enters 0 k k' := by
  obtain ⟨⟨r, k₁⟩, hk₁, hk⟩ := bind_eq_ok.mp hk
  cases hk
  refine of_tail (?_ : Enters 0 k k₁) rfl rfl
  unfold sendSwitch at hk₁
  split at hk₁
  · exact deliverMsg hk₁
  · split at hk₁
    · cases hk₁
      exact resumeThread k d s pl
    · exact deliverMsg hk₁
  · cases hk₁
    exact refl k

theorem msgqGet {src : Option (Option Tcb)} {r : Option (Option Tcb × Value)}
    (hk : MikaBoo.msgqGet k src o ptr = .ok (r, k')) : Enters 0 k k' := by
  have hval : ∀ (k : Kernel) (m : Msg), Enters 0 k (MikaBoo.storeVal k ptr m) := by
    intro k m
    unfold MikaBoo.storeVal
    split
    · exact refl k
    · exact store k _ _
  unfold MikaBoo.msgqGet at hk
  split at hk
  · cases hk
    exact refl k
  · obtain ⟨_, _, hk⟩ := bind_eq_ok.mp hk
    split at hk <;> cases hk
    · exact refl k
    · exact of_tail (hval k _) rfl rfl
  · obtain ⟨_, _, hk⟩ := bind_eq_ok.mp hk
    split at hk <;> cases hk
    · exact refl k
    · exact of_tail (hval k _) rfl rfl

theorem scheduler (hk : MikaBoo.scheduler k = .ok k') : Enters 0 k k' := by
  obtain ⟨⟨o, k₁⟩, hk₁, hk⟩ := bind_eq_ok.mp hk
  have h₁ := threadDequeue hk₁
  cases o with
  | some t =>
      cases hk
      exact of_tail h₁ rfl rfl
  | none =>
      simp only [emptyReadyqH] at hk
      split at hk
      · cases hk
      · split at hk
        · cases hk
        · obtain ⟨_, _, hk⟩ := bind_eq_ok.mp hk
          cases hk
          exact of_tail h₁ rfl rfl

theorem leave (hk : MikaBoo.leave k x = .ok k') : Enters 0 k k' := by
  cases x with
  | resume st =>
      cases hk
      exact of_eq rfl rfl
  | schedule => exact scheduler hk

theorem chore (c : Chore k k') : Enters 0 k k' := by
  cases c with
  | clean get => exact msgqGet get
  | abort u => exact of_head (resumeThread _ u none null) rfl rfl
  | alloc hk | create _ hk =>
      obtain ⟨_, _, hk⟩ := bind_eq_ok.mp hk
      split at hk <;> cases hk <;> exact of_eq rfl rfl
  | free t =>
      unfold threadFree
      split
      · exact refl k
      · split <;> exact of_eq rfl rfl
  | delete p =>
      unfold procDelete
      split <;> exact of_eq rfl rfl
  | _ => exact of_eq rfl rfl

theorem chores (cs : Chores k k') : Enters 0 k k' := by
  induction cs with
  | refl => exact refl k
  | tail _ c ih => exact ih.trans (chore c)

/-! ## Handlers -/

theorem msgsend (hk : MikaBoo.msgsend k caller d pl = .ok k') : Enters 1 k k' := by
  obtain ⟨⟨r, k₁⟩, hk₁, hk⟩ := bind_eq_ok.mp hk
  cases hk
  have h : Enters 0 k.enter k₁ := of_head (send hk₁) rfl rfl
  exact of_tail ((enter k).trans h) rfl rfl

theorem wakeClockWaiters (hk : MikaBoo.wakeClockWaiters fuel k = .ok k') : ∃ n, Enters n k k' := by
  induction fuel generalizing k with
  | zero => cases hk
  | succ fuel ih =>
      obtain ⟨⟨o, k₁⟩, hk₁, hk⟩ := bind_eq_ok.mp hk
      have h₁ := threadDequeue hk₁
      cases o with
      | none =>
          cases hk
          exact ⟨0, h₁⟩
      | some t =>
          obtain ⟨k₂, hk₂, hk⟩ := bind_eq_ok.mp hk
          obtain ⟨n, hn⟩ := ih hk
          exact ⟨_, (h₁.trans (msgsend hk₂)).trans hn⟩

theorem updateClock {ms : Word} (hk : MikaBoo.updateClock fuel k ms = .ok k') :
    ∃ n, Enters n k k' := by
  unfold MikaBoo.updateClock at hk
  dsimp only at hk
  split at hk
  · obtain ⟨n, hn⟩ := wakeClockWaiters hk
    exact ⟨n, of_head hn rfl rfl⟩
  · cases hk
    exact ⟨0, of_eq rfl rfl⟩

theorem recv (hk : MikaBoo.recv fuel k s ptr = .ok (x, k')) : ∃ n, Enters n k k' := by
  unfold MikaBoo.recv at hk
  split at hk
  · cases hk
  · split at hk
    · cases hk
    · obtain ⟨⟨r, k₁⟩, hk₁, hk⟩ := bind_eq_ok.mp hk
      have h₁ := msgqGet hk₁
      cases r with
      | some r =>
          cases hk
          exact ⟨0, of_tail h₁ rfl rfl⟩
      | none =>
          obtain ⟨k₂, hk₂, hk⟩ := bind_eq_ok.mp hk
          obtain ⟨n, hn⟩ := updateClock hk₂
          have h₂ : Enters n k k₂ := h₁.trans (of_head hn rfl rfl)
          refine ⟨n, ?_⟩
          split at hk <;> cases hk <;> exact of_tail h₂ rfl rfl

theorem msgrecv (hk : MikaBoo.msgrecv fuel k caller s ptr = .ok (x, k')) :
    ∃ n, Enters (n + 1) k k' := by
  obtain ⟨n, hn⟩ := recv hk
  exact ⟨n, (enter k).trans (of_head hn rfl rfl)⟩

/-- The request of a termination is gone when the handler leaves. -/
theorem terminateRequest (hk : MikaBoo.terminateRequest fuel k w = .ok (x, k')) :
    ∃ n, Enters (n + 1) k k' := by
  obtain ⟨k₁, hk₁, hk⟩ := bind_eq_ok.mp hk
  obtain ⟨⟨x₂, k₂⟩, hk₂, hk⟩ := bind_eq_ok.mp hk
  have h₁ : Enters 1 k k₁ := of_writeReq (msgsend hk₁)
  obtain ⟨n, h₂⟩ := msgrecv hk₂
  cases x₂ <;> cases hk
  exact ⟨_, h₁.trans h₂⟩

theorem rawTrapH {old : State} (hk : MikaBoo.rawTrapH fuel k o old = .ok (x, k')) :
    ∃ n, Enters (n + 1) k k' := by
  unfold MikaBoo.rawTrapH at hk
  split at hk
  · cases hk
  · split at hk
    · obtain ⟨k₁, hk₁, hk⟩ := bind_eq_ok.mp hk
      cases hk
      exact ⟨0, of_tail (of_head (msgsend hk₁) rfl rfl) rfl rfl⟩
    · exact terminateRequest hk

theorem pgmtrapH (hk : MikaBoo.pgmtrapH fuel k = .ok (x, k')) : ∃ n, Enters (n + 1) k k' := by
  obtain ⟨_, _, hk⟩ := bind_eq_ok.mp hk
  exact rawTrapH hk

theorem tlbtrapH (hk : MikaBoo.tlbtrapH fuel k = .ok (x, k')) : ∃ n, Enters (n + 1) k k' := by
  obtain ⟨_, _, hk⟩ := bind_eq_ok.mp hk
  exact rawTrapH hk

theorem raiseReservedInstruction (hk : MikaBoo.raiseReservedInstruction fuel k = .ok (x, k')) :
    ∃ n, Enters n k k' := by
  obtain ⟨n, hn⟩ := pgmtrapH hk
  exact ⟨n + 1, of_head hn rfl rfl⟩

/-- A call that does not go to the `sys_mgr` of the process leaves no words behind. -/
theorem syscallH (hcalls : ¬ (k.sysbkOldarea.a1 ≠ null ∧ k.sysbkOldarea.a1 ≠ SYS_SEND ∧
      k.sysbkOldarea.a1 ≠ SYS_RECV ∧ k.managers.sysMgr.isSome))
    (hk : MikaBoo.syscallH fuel k = .ok (x, k')) : ∃ n, Enters n k k' := by
  unfold MikaBoo.syscallH at hk
  dsimp only at hk
  split at hk
  · exact raiseReservedInstruction hk
  · rename_i h₀
    split at hk
    · unfold sendKernel at hk
      split at hk
      · obtain ⟨d, _, hk⟩ := bind_eq_ok.mp hk
        cases d with
        | none => cases hk
        | some d =>
            obtain ⟨⟨r, k₁⟩, hk₁, hk⟩ := bind_eq_ok.mp hk
            cases hk
            exact ⟨0, of_tail (send hk₁) rfl rfl⟩
      · exact raiseReservedInstruction hk
    · rename_i h₁
      split at hk
      · unfold recvKernel at hk
        split at hk
        · obtain ⟨s, _, hk⟩ := bind_eq_ok.mp hk
          exact recv hk
        · exact raiseReservedInstruction hk
      · rename_i h₂
        unfold syscallOther at hk
        split at hk
        · cases hk
        · obtain ⟨p, hp, hk⟩ := bind_eq_ok.mp hk
          have hp : k.managers = k.pcb p := currentProcess_ok hp
          split at hk
          · rename_i hm
            exact absurd ⟨h₀, h₁, h₂, by simp [hp, hm]⟩ hcalls
          · obtain ⟨⟨r, k₁⟩, hk₁, hk⟩ := bind_eq_ok.mp hk
            cases hk
            exact ⟨0, of_tail (of_head (send hk₁) rfl rfl) rfl rfl⟩
          · obtain ⟨n, hn⟩ := terminateRequest hk
            exact ⟨_, hn⟩

theorem interruptH {pending : Fin 5 → Word} (hk : MikaBoo.interruptH fuel k pending = .ok (x, k')) :
    ∃ n, Enters n k k' := by
  unfold MikaBoo.interruptH at hk
  dsimp only at hk
  split at hk
  · unfold ioH at hk
    split at hk
    · obtain ⟨_, _, hk⟩ := bind_eq_ok.mp hk
      split at hk
      · cases hk
      · obtain ⟨⟨r, k₁⟩, hk₁, hk⟩ := bind_eq_ok.mp hk
        obtain ⟨_, _, hk⟩ := bind_eq_ok.mp hk
        have h₁ : Enters 0 k k₁ := of_head (send hk₁) rfl rfl
        refine ⟨0, ?_⟩
        dsimp only at hk
        split at hk
        · cases hk
          exact of_tail h₁ rfl rfl
        · split at hk <;> cases hk
          exact of_tail h₁ rfl rfl
    · cases hk
  · obtain ⟨k₂, hk₂, hk⟩ := bind_eq_ok.mp hk
    cases hk
    obtain ⟨n, hn⟩ := updateClock hk₂
    refine ⟨n, of_head hn ?_ ?_⟩
    · split <;> rfl
    · split <;> rfl

theorem ssi (hk : MikaBoo.ssi fuel k = .ok (x, k')) : ∃ n, Enters n k k' := by
  cases hp : k.ssiPoint with
  | receiving =>
      simp only [MikaBoo.ssi, hp] at hk
      obtain ⟨n, hn⟩ := msgrecv hk
      exact ⟨n + 1, of_head hn rfl rfl⟩
  | serving =>
      obtain ⟨t, q, k₁, o, _, _, hk₁, ho⟩ := ssi_serves hp hk
      have h₁ : Enters 0 k k₁ := of_head (chores (.service hk₁)) rfl rfl
      rcases ho with ⟨_, _, rfl⟩ | ⟨_, _, hsend, _⟩
      · exact ⟨0, h₁⟩
      · exact ⟨1, h₁.trans (msgsend hsend)⟩

end Enters

/-! ## Steps -/

section step

variable {k k' : Kernel} {e : Event} {fuel : Nat}

/-- Handlers are entered by exceptions and by the SSI only. -/
theorem step_keeps_frames (he : e.enters = false) (h : step fuel k e = .ok k') :
    Enters 0 k k' := by
  obtain ⟨⟨x, k₁⟩, hk₁, h⟩ := bind_eq_ok.mp h
  have h₂ := Enters.leave h
  have h₁ : Enters 0 k k₁ := by
    cases e with
    | start | run | elapse | edit =>
        simp only [entry] at hk₁
        split at hk₁ <;> cases hk₁
        exact .of_eq rfl rfl
    | syscall | pgmtrap | tlbtrap | interrupt | ssi => cases he
  exact h₁.trans h₂

/-- A step enters handlers, an exception at least one, and if it is no call to a `sys_mgr`,
the words that the frames hold are theirs. -/
theorem step_enters (hcalls : e = .syscall → ¬ k.callsManager) (h : step fuel k e = .ok k') :
    ∃ n, Enters n k k' ∧ (e.raises = true → n ≠ 0) := by
  by_cases he : e.enters = false
  · refine ⟨0, step_keeps_frames he h, fun hr => ?_⟩
    cases e <;> simp [Event.enters, Event.raises] at he hr
  obtain ⟨⟨x, k₁⟩, hk₁, h⟩ := bind_eq_ok.mp h
  have h₂ := Enters.leave h
  -- the frames of the handler that an exception enters, and of those that it enters in turn
  have hraised : ∀ {k₀ : Kernel}, Enters 0 k.enter k₀ → (∃ n, Enters n k₀ k₁) →
      ∃ n, Enters n k k' ∧ (e.raises = true → n ≠ 0) := by
    rintro k₀ h₀ ⟨n, hn⟩
    exact ⟨_, (((Enters.enter k).trans h₀).trans hn).trans h₂, by omega⟩
  cases e with
  | start | run | elapse | edit => exact absurd rfl he
  | syscall =>
      simp only [entry] at hk₁
      split at hk₁
      · let k₀ : Kernel := { k.enter with sysbkOldarea := k.cpu }
        have hn : ∃ n, Enters n k₀ k₁ := Enters.syscallH (k := k₀) (hcalls rfl) hk₁
        have h₀ : Enters 0 k.enter k₀ := .of_eq rfl rfl
        exact hraised h₀ hn
      · cases hk₁
  | pgmtrap cause =>
      simp only [entry] at hk₁
      split at hk₁
      · let k₀ : Kernel := { k.enter with pgmtrapOldarea := { k.cpu with cp15Cause := cause } }
        obtain ⟨n, hn⟩ : ∃ n, Enters (n + 1) k₀ k₁ := Enters.pgmtrapH hk₁
        have h₀ : Enters 0 k.enter k₀ := .of_eq rfl rfl
        exact hraised h₀ ⟨_, hn⟩
      · cases hk₁
  | tlbtrap cause =>
      simp only [entry] at hk₁
      split at hk₁
      · let k₀ : Kernel := { k.enter with tlbOldarea := { k.cpu with cp15Cause := cause } }
        obtain ⟨n, hn⟩ : ∃ n, Enters (n + 1) k₀ k₁ := Enters.tlbtrapH hk₁
        have h₀ : Enters 0 k.enter k₀ := .of_eq rfl rfl
        exact hraised h₀ ⟨_, hn⟩
      · cases hk₁
  | interrupt pending =>
      simp only [entry] at hk₁
      split at hk₁
      · let k₀ : Kernel := { k.enter with intOldarea := k.cpu }
        have hn : ∃ n, Enters n k₀ k₁ := Enters.interruptH hk₁
        have h₀ : Enters 0 k.enter k₀ := .of_eq rfl rfl
        exact hraised h₀ hn
      · cases hk₁
  | ssi =>
      simp only [entry] at hk₁
      split at hk₁
      · obtain ⟨n, hn⟩ := Enters.ssi hk₁
        exact ⟨_, hn.trans h₂, by simp [Event.raises]⟩
      · cases hk₁

/-- A call to a `sys_mgr` leaves its number and its arguments. -/
theorem step_leaves_args (hc : k.callsManager) (h : step fuel k .syscall = .ok k') :
    Enters 0 (k.enter.writeSysMsg k.callArgs) k' := by
  obtain ⟨⟨x, k₁⟩, hk₁, h⟩ := bind_eq_ok.mp h
  refine Enters.trans (m := 0) ?_ (Enters.leave h)
  obtain ⟨h₀, h₁, h₂, hm⟩ := hc
  simp only [entry] at hk₁
  split at hk₁
  · simp only [syscallH, h₀, h₁, h₂, if_false, syscallOther] at hk₁
    split at hk₁
    · cases hk₁
    · obtain ⟨p, hp, hk₁⟩ := bind_eq_ok.mp hk₁
      have hp : k.managers = k.pcb p := currentProcess_ok hp
      rw [hp] at hm
      obtain ⟨m, hm⟩ := Option.isSome_iff_exists.mp hm
      simp only [Kernel.enter, hm] at hk₁
      obtain ⟨⟨w, k₂⟩, hk₂, hk₁⟩ := bind_eq_ok.mp hk₁
      cases hk₁
      exact .of_tail (.of_head (.send hk₂) rfl rfl) rfl rfl
  · cases hk₁

end step

end MikaBoo
