import MikaBoo.Abstract.Contexts
import MikaBoo.Properties.Idle
import MikaBoo.Properties.Messages

/-!
# Contexts are isolated

A kernel step changes the saved context of a thread that does not run only to complete
its receive, and saves the running thread from an old area. So a thread that the interval
timer preempts resumes where it was.
-/

namespace MikaBoo

open Intrusive Fuel Transition

/-! ## Old areas -/

/-- The areas that an exception stores the processor state in. -/
inductive OldArea
  | sysbk
  | pgmtrap
  | tlb
  | int

/-- The state in an old area. -/
def Kernel.oldarea (k : Kernel) : OldArea → State
  | .sysbk => k.sysbkOldarea
  | .pgmtrap => k.pgmtrapOldarea
  | .tlb => k.tlbOldarea
  | .int => k.intOldarea

/-- The exception that stops a thread, and whether `pc` is reduced before it is saved. -/
structure Origin where
  area : OldArea
  back : Bool := false

/-- The context that is saved. -/
def Origin.context (o : Origin) (k : Kernel) : State :=
  if o.back then (k.oldarea o.area).stepBack else k.oldarea o.area

/-- A trap or a pass-up to `mgr` reduces `pc`. Without a manager, the thread is stopped by the
receive that the handler executes for it. -/
def trapOrigin (mgr : Option Tcb) (a : OldArea) : Origin :=
  if mgr.isSome then ⟨a, true⟩ else ⟨.sysbk, false⟩

/-- The system call in `SYSBK_OLDAREA`. -/
def syscallOrigin (k : Kernel) : Origin :=
  let args := k.sysbkOldarea
  if (args.a1 = SYS_SEND ∨ args.a1 = SYS_RECV) ∧ isKernelMode k then ⟨.sysbk, false⟩
  else if args.a1 = null ∨ args.a1 = SYS_SEND ∨ args.a1 = SYS_RECV then
    trapOrigin k.managers.pgmMgr .pgmtrap
  else if k.managers.sysMgr.isSome then ⟨.sysbk, false⟩
  else trapOrigin k.managers.pgmMgr .sysbk

/-- Where the context of the thread that the event stops comes from. -/
def Kernel.origin (k : Kernel) : Event → Origin
  | .syscall => syscallOrigin { k with sysbkOldarea := k.cpu }
  | .pgmtrap _ => trapOrigin k.managers.pgmMgr .pgmtrap
  | .tlbtrap _ => trapOrigin k.managers.tlbMgr .tlb
  | .interrupt _ => ⟨.int, false⟩
  | _ => ⟨.sysbk, false⟩

/-- If the handler leaves with `x` to the scheduler, the context `s` is in the old area. -/
def Stores (s : State) (o : Origin) (x : Exit) (k' : Kernel) : Prop :=
  x = .schedule → o.context k' = s

section areas

variable {k k' : Kernel} {d : Tcb} {s : Option Tcb} {pl : Value} {w : Word} {x : Exit}

theorem oldarea_store (k : Kernel) (ptr v : Value) : (k.store ptr v).oldarea = k.oldarea := by
  cases ptr <;> rfl

theorem oldarea_resumeThread (k : Kernel) (d : Tcb) (s : Option Tcb) (pl : Value) :
    (resumeThread k d s pl).oldarea = k.oldarea := by
  let k₁ := k.modTcb d fun e => { e with tS := { e.tS with a1 := tcbPtr s } }
  have hdeliver : (deliverDirectly k d s pl).oldarea = k.oldarea := by
    change (if (k₁.tcb d).tS.a3 = null then k₁ else k₁.store (k₁.tcb d).tS.a3 pl).oldarea = _
    split
    · rfl
    · exact oldarea_store k₁ _ pl
  exact hdeliver

theorem oldarea_deliverMsg (h : deliverMsg k d s pl = .ok (w, k')) : k'.oldarea = k.oldarea := by
  obtain ⟨⟨r, k₁⟩, hk₁, h⟩ := bind_eq_ok.mp h
  have h₁ : k₁.oldarea = k.oldarea := by
    obtain ⟨_, _, hk₁⟩ := bind_eq_ok.mp hk₁
    split at hk₁ <;> cases hk₁ <;> rfl
  dsimp only at h
  split at h <;> cases h <;> exact h₁

/-- A message changes no old area; the system call that sends it may. -/
theorem oldarea_send (h : send k d s pl = .ok (w, k')) : k'.oldarea = k.oldarea := by
  obtain ⟨⟨r, k₁⟩, hk₁, h⟩ := bind_eq_ok.mp h
  cases h
  change k₁.oldarea = k.oldarea
  unfold sendSwitch at hk₁
  split at hk₁
  · exact oldarea_deliverMsg hk₁
  · split at hk₁
    · cases hk₁
      exact oldarea_resumeThread k d s pl
    · exact oldarea_deliverMsg hk₁
  · cases hk₁
    rfl

theorem oldarea_msgsend {caller : State} {a : OldArea} (h : msgsend k caller d pl = .ok k')
    (ha : a ≠ .sysbk) : k'.oldarea a = k.oldarea a := by
  obtain ⟨⟨r, k₁⟩, hk₁, h⟩ := bind_eq_ok.mp h
  cases h
  have h₁ := congrFun (oldarea_send hk₁) a
  cases a with
  | sysbk => exact absurd rfl ha
  | _ => exact h₁

theorem oldarea_leave (h : leave k x = .ok k') : k'.oldarea = k.oldarea := by
  cases x with
  | resume s =>
      cases h
      rfl
  | schedule =>
      obtain ⟨⟨o, k₁⟩, hk₁, h⟩ := bind_eq_ok.mp h
      have h₁ : k₁.oldarea = k.oldarea := by
        obtain ⟨_, _, hk₁⟩ := bind_eq_ok.mp hk₁
        split at hk₁ <;> cases hk₁ <;> rfl
      rw [← h₁]
      cases o with
      | some t =>
          cases h
          rfl
      | none =>
          simp only [emptyReadyqH] at h
          split at h
          · cases h
          · split at h
            · cases h
            · obtain ⟨_, _, h⟩ := bind_eq_ok.mp h
              cases h
              rfl

end areas

namespace Goes

variable {scope : Scope} {c : Config} {k k' : Kernel} {t : Tcb} {fuel : Nat} {x : Exit}

/-- A receive that blocks its thread changes no old area. -/
theorem recv_oldarea {src : Option Tcb} {ptr : Value} (G : Goes scope c k (some t))
    (hc : k.currentThread = some t) (h : MikaBoo.recv fuel k src ptr = .ok (.schedule, k')) :
    k'.oldarea = k.oldarea := by
  simp only [MikaBoo.recv, hc] at h
  split at h
  · cases h
  · obtain ⟨⟨o, k₀⟩, hk₀, h⟩ := bind_eq_ok.mp h
    cases hp : k.view.pick src t with
    | some m =>
        obtain ⟨k₁, hk₁, R₁⟩ := G.refines.msgqGet_some (p := ptr) hp
        rw [hk₁] at hk₀
        cases hk₀
        cases h
    | none =>
        rw [G.refines.msgqGet_none hp] at hk₀
        cases hk₀
        obtain ⟨k₃, hk₃, h⟩ := bind_eq_ok.mp h
        obtain ⟨pc, rfl⟩ := updateClock_of_empty (by exact G.clockNext) hk₃
        cases src <;> cases h <;> rfl

theorem terminateRequest_stores {tag : Word} (G : Goes scope c k (some t))
    (hc : k.currentThread = some t) (hu : t ≠ .ssi)
    (h : MikaBoo.terminateRequest fuel k tag = .ok (x, k')) :
    Stores requestStopped.context ⟨.sysbk, false⟩ x k' := by
  have G₀ : Goes scope c (k.writeReq tag) (some t) := G.same { G.refines with }
  obtain ⟨k₁, hk₁, G₁, hg₁⟩ := G₀.msgsend (a := handlerState) (d := .ssi) (p := .req tag) hc
    G.allocated fun h => absurd h hu
  have hc₁ : k₁.currentThread = some t := (congrArg Globals.currentThread hg₁).trans hc
  simp only [MikaBoo.terminateRequest, hk₁, ok_bind] at h
  obtain ⟨⟨x₂, k₂⟩, hk₂, h⟩ := bind_eq_ok.mp h
  let k₃ : Kernel := { k₁.enter with sysbkOldarea := requestStopped.context }
  have G₃ : Goes scope c k₃ (some t) := G₁.same { G₁.refines with }
  cases x₂ with
  | resume s => cases h
  | schedule =>
      cases h
      intro _
      exact congrFun (G₃.recv_oldarea (k := k₃) hc₁ hk₂) .sysbk

theorem rawTrapH_stores {mgr : Option Tcb} {a : OldArea} (G : Goes scope c k (some t))
    (hc : k.currentThread = some t) (hu : t ≠ .ssi) (ha : a ≠ .sysbk)
    (h : MikaBoo.rawTrapH fuel k mgr (k.oldarea a) = .ok (x, k')) :
    Stores (trapStopped mgr (k.oldarea a)).context (trapOrigin mgr a) x k' := by
  simp only [MikaBoo.rawTrapH, hc] at h
  cases mgr with
  | none => exact G.terminateRequest_stores hc hu h
  | some m =>
      obtain ⟨k₂, hk₂, h⟩ := bind_eq_ok.mp h
      cases h
      intro _
      have hsent := oldarea_msgsend hk₂ ha
      cases a with
      | sysbk => exact absurd rfl ha
      | _ => exact congrArg State.stepBack hsent

theorem pgmtrapH_stores (G : Goes scope c k (some t)) (hc : k.currentThread = some t)
    (hu : t ≠ .ssi) (h : MikaBoo.pgmtrapH fuel k = .ok (x, k')) :
    Stores (trapStopped k.managers.pgmMgr k.pgmtrapOldarea).context
      (trapOrigin k.managers.pgmMgr .pgmtrap) x k' := by
  obtain ⟨p, hp, h⟩ := bind_eq_ok.mp h
  rw [currentProcess_ok hp]
  exact G.rawTrapH_stores (a := .pgmtrap) hc hu (by simp) h

theorem tlbtrapH_stores (G : Goes scope c k (some t)) (hc : k.currentThread = some t)
    (hu : t ≠ .ssi) (h : MikaBoo.tlbtrapH fuel k = .ok (x, k')) :
    Stores (trapStopped k.managers.tlbMgr k.tlbOldarea).context
      (trapOrigin k.managers.tlbMgr .tlb) x k' := by
  obtain ⟨p, hp, h⟩ := bind_eq_ok.mp h
  rw [currentProcess_ok hp]
  exact G.rawTrapH_stores (a := .tlb) hc hu (by simp) h

theorem raiseReservedInstruction_stores (G : Goes scope c k (some t))
    (hc : k.currentThread = some t) (hu : t ≠ .ssi)
    (h : MikaBoo.raiseReservedInstruction fuel k = .ok (x, k')) :
    Stores (trapStopped k.managers.pgmMgr
        { k.sysbkOldarea with cp15Cause := EXC_RESERVEDINSTR }).context
      (trapOrigin k.managers.pgmMgr .pgmtrap) x k' := by
  let k₁ : Kernel := { k with
    pgmtrapOldarea := { k.sysbkOldarea with cp15Cause := EXC_RESERVEDINSTR } }
  have G₁ : Goes scope c k₁ (some t) := G.same { G.refines with }
  exact G₁.pgmtrapH_stores (k := k₁) hc hu h

theorem syscallOther_stores {a₁ a₂ a₃ a₄ : Value} (G : Goes scope c k (some t))
    (hc : k.currentThread = some t) (hu : t ≠ .ssi)
    (h : MikaBoo.syscallOther fuel k a₁ a₂ a₃ a₄ = .ok (x, k')) :
    Stores (if k.managers.sysMgr.isSome then { context := k.sysbkOldarea : Stopped }
        else trapStopped k.managers.pgmMgr k.sysbkOldarea).context
      (if k.managers.sysMgr.isSome then ⟨.sysbk, false⟩
        else trapOrigin k.managers.pgmMgr .sysbk) x k' := by
  simp only [MikaBoo.syscallOther, hc] at h
  obtain ⟨p, hp, h⟩ := bind_eq_ok.mp h
  rw [currentProcess_ok hp]
  cases hsys : (k.pcb p).sysMgr with
  | some m =>
      simp only [hsys] at h
      obtain ⟨⟨w, k₂⟩, hk₂, h⟩ := bind_eq_ok.mp h
      cases h
      intro _
      exact congrFun (oldarea_send hk₂) .sysbk
  | none =>
      cases hpgm : (k.pcb p).pgmMgr with
      | some m =>
          simp only [hsys, hpgm] at h
          obtain ⟨⟨w, k₂⟩, hk₂, h⟩ := bind_eq_ok.mp h
          cases h
          intro _
          exact congrArg State.stepBack (congrFun (oldarea_send hk₂) .sysbk)
      | none =>
          simp only [hsys, hpgm] at h
          exact G.terminateRequest_stores hc hu h

theorem syscallH_stores (G : Goes scope c k (some t)) (hc : k.currentThread = some t)
    (hu : t ≠ .ssi) (h : MikaBoo.syscallH fuel k = .ok (x, k')) :
    Stores (syscallStopped k).context (syscallOrigin k) x k' := by
  unfold MikaBoo.syscallH at h
  dsimp only at h
  unfold syscallStopped syscallOrigin
  by_cases h₀ : k.sysbkOldarea.a1 = null
  · rw [if_pos h₀] at h
    rw [if_neg (by simp [h₀]), if_pos (Or.inl h₀), if_neg (by simp [h₀]), if_pos (Or.inl h₀)]
    exact G.raiseReservedInstruction_stores hc hu h
  · rw [if_neg h₀] at h
    by_cases h₁ : k.sysbkOldarea.a1 = SYS_SEND
    · rw [if_pos h₁] at h
      unfold MikaBoo.sendKernel at h
      cases hk : isKernelMode k with
      | true =>
          simp only [hk, if_true] at h
          obtain ⟨d, _, h⟩ := bind_eq_ok.mp h
          cases d with
          | none => cases h
          | some d =>
              obtain ⟨⟨w, k₂⟩, _, h⟩ := bind_eq_ok.mp h
              cases h
              rintro ⟨⟩
      | false =>
          simp only [hk, Bool.false_eq_true, if_false] at h
          have hinstr := Or.inr (a := k.sysbkOldarea.a1 = null)
            (Or.inl (b := k.sysbkOldarea.a1 = SYS_RECV) h₁)
          rw [if_neg (by simp), if_pos hinstr, if_neg (by simp), if_pos hinstr]
          exact G.raiseReservedInstruction_stores hc hu h
    · rw [if_neg h₁] at h
      by_cases h₂ : k.sysbkOldarea.a1 = SYS_RECV
      · rw [if_pos h₂] at h
        unfold MikaBoo.recvKernel at h
        cases hk : isKernelMode k with
        | true =>
            simp only [hk, if_true] at h
            obtain ⟨s, _, h⟩ := bind_eq_ok.mp h
            rw [if_pos ⟨Or.inr h₂, rfl⟩, if_pos ⟨Or.inr h₂, rfl⟩]
            rintro rfl
            exact congrFun (G.recv_oldarea hc h) .sysbk
        | false =>
            simp only [hk, Bool.false_eq_true, if_false] at h
            have hinstr := Or.inr (a := k.sysbkOldarea.a1 = null)
              (Or.inr (a := k.sysbkOldarea.a1 = SYS_SEND) h₂)
            rw [if_neg (by simp), if_pos hinstr, if_neg (by simp), if_pos hinstr]
            exact G.raiseReservedInstruction_stores hc hu h
      · rw [if_neg h₂] at h
        have hother : ¬ ((k.sysbkOldarea.a1 = SYS_SEND ∨ k.sysbkOldarea.a1 = SYS_RECV) ∧
            isKernelMode k = true) := fun hm => hm.1.elim h₁ h₂
        have hinstr : ¬ (k.sysbkOldarea.a1 = null ∨ k.sysbkOldarea.a1 = SYS_SEND ∨
            k.sysbkOldarea.a1 = SYS_RECV) := fun hm => hm.elim h₀ (Or.elim · h₁ h₂)
        simp only [if_neg hother, if_neg hinstr]
        exact G.syscallOther_stores hc hu h

theorem intervalTimerH_stores (G : Goes scope c k (some t)) (hc : k.currentThread = some t)
    (hu : t ≠ .ssi) (h : MikaBoo.intervalTimerH fuel k = .ok (x, k')) :
    Stores k.intOldarea ⟨.int, false⟩ x k' := by
  simp only [MikaBoo.intervalTimerH, hc] at h
  obtain ⟨k₂, hk₂, h⟩ := bind_eq_ok.mp h
  cases h
  let f : TcbT → TcbT := fun d =>
    { d with tS := k.intOldarea, runTime := d.runTime + k.clockPerTimeslice }
  have G₁ := G.modTcb (t := t) (f := f) ⟨rfl, rfl, rfl⟩ (Or.inl rfl)
  have G₂ := G₁.act (.preempt (by simpa using hu))
    (G₁.refines.enqueue (fun _ hm => G₁.inv.scheduled.off hm rfl) .readyq)
  obtain ⟨pc, rfl⟩ := updateClock_of_empty G₂.clockNext hk₂
  exact fun _ => rfl

/-- Only the timer takes the processor from a running thread. -/
theorem interruptH_stores {pending : Fin 5 → Word} (G : Goes scope c k (some t))
    (hc : k.currentThread = some t) (hu : t ≠ .ssi) (hidle : k.isIdle = false)
    (h : MikaBoo.interruptH fuel k pending = .ok (x, k')) :
    Stores k.intOldarea ⟨.int, false⟩ x k' := by
  let k₁ : Kernel := { k with timeSliceLeft := k.timer }
  have G₁ : Goes scope c k₁ (some t) := G.same { G.refines with }
  unfold MikaBoo.interruptH at h
  dsimp only at h
  split at h
  · unfold ioH at h
    split at h
    · unfold MikaBoo.acknowledge at h
      obtain ⟨_, _, h⟩ := bind_eq_ok.mp h
      split at h
      · cases h
      · obtain ⟨⟨w, k₂⟩, hk₂, h⟩ := bind_eq_ok.mp h
        obtain ⟨_, _, h⟩ := bind_eq_ok.mp h
        have hidle₂ : k₂.isIdle = k.isIdle := (congrArg Kept.isIdle (Frame.send hk₂) :)
        simp only [hidle₂, hidle, Bool.false_eq_true, if_false] at h
        split at h <;> cases h
        rintro ⟨⟩
    · cases h
  · exact G₁.intervalTimerH_stores (k := k₁) hc hu h

end Goes

/-! ## Steps -/

/-- The step takes the processor from the running thread: its handler leaves to the scheduler. -/
def Kernel.Parts (k : Kernel) (e : Event) (k' : Kernel) : Prop :=
  ∃ fuel k₁, entry fuel k e = .ok (.schedule, k₁) ∧ leave k₁ .schedule = .ok k'

/-- A kernel step resumes threads that do not run from their receives, and changes no other
context of theirs. It saves the thread that it stops from the old area. -/
structure Isolates (k : Kernel) (e : Event) (k' : Kernel) : Prop where
  others : ∀ u, k.currentThread ≠ some u → k.Live u → k'.Live u → Spectates k k' u
  saved : ∀ t, k.currentThread = some t → k.Parts e k' → k'.Live t →
    (k'.tcb t).tS = (k.origin e).context k'

namespace Good

variable {k k' k₁ : Kernel} {e : Event} {fuel : Nat} {t : Tcb}

/-- The context that a handler saves is in the old area that `origin` says. -/
theorem stores (H : Good k) (hs : k.serves e = false) (hc : k.currentThread = some t)
    (h : MikaBoo.entry fuel k e = .ok (.schedule, k₁)) :
    (k.origin e).context k₁ = (k.stopped e).context := by
  have hG : Goes .plain ⟨k.view, k.currentThread⟩ k (some t) := by
    rw [← hc]
    exact H.goes
  have huser : k.userRuns = true → t ≠ .ssi := by
    rintro hu rfl
    obtain ⟨i, hi⟩ := user_of_userRuns hu
    rw [hc] at hi
    cases hi
  cases e with
  | start =>
      simp only [MikaBoo.entry] at h
      split at h
      · rename_i hm
        rw [H.booting hm] at hc
        cases hc
      · cases h
  | run | elapse | edit =>
      simp only [MikaBoo.entry] at h
      split at h <;> cases h
  | syscall =>
      simp only [MikaBoo.entry] at h
      split at h
      · rename_i hu
        let k₀ : Kernel := { k.enter with sysbkOldarea := k.cpu }
        have G : Goes .plain ⟨k.view, k.currentThread⟩ k₀ (some t) := hG.same { hG.refines with }
        exact G.syscallH_stores (k := k₀) hc (huser hu) h rfl
      · cases h
  | pgmtrap cause =>
      simp only [MikaBoo.entry] at h
      split at h
      · rename_i hu
        let k₀ : Kernel := { k.enter with pgmtrapOldarea := { k.cpu with cp15Cause := cause } }
        have G : Goes .plain ⟨k.view, k.currentThread⟩ k₀ (some t) := hG.same { hG.refines with }
        exact G.pgmtrapH_stores (k := k₀) hc (huser hu) h rfl
      · cases h
  | tlbtrap cause =>
      simp only [MikaBoo.entry] at h
      split at h
      · rename_i hu
        let k₀ : Kernel := { k.enter with tlbOldarea := { k.cpu with cp15Cause := cause } }
        have G : Goes .plain ⟨k.view, k.currentThread⟩ k₀ (some t) := hG.same { hG.refines with }
        exact G.tlbtrapH_stores (k := k₀) hc (huser hu) h rfl
      · cases h
  | interrupt pending =>
      simp only [MikaBoo.entry] at h
      split at h
      · rename_i hp
        have hw : k.mode ≠ .waiting := by
          intro hw
          rw [(H.waiting hw).1] at hc
          cases hc
        have hu := hp.1.resolve_right hw
        let k₀ : Kernel := { k.enter with intOldarea := k.cpu }
        have G : Goes .plain ⟨k.view, k.currentThread⟩ k₀ (some t) := hG.same { hG.refines with }
        exact G.interruptH_stores (k := k₀) hc (huser hu) (H.awake hw) h rfl
      · cases h
  | ssi =>
      simp only [MikaBoo.entry] at h
      split at h
      · rename_i hm
        obtain rfl : t = .ssi := Option.some.inj (hc.symm.trans hm.2)
        have hp : k.ssiPoint = .receiving := by
          cases hp : k.ssiPoint with
          | receiving => rfl
          | serving => simp [Kernel.serves, hp] at hs
        simp only [MikaBoo.ssi, hp] at h
        let k₀ : Kernel := { k.enter with
          ssiPoint := .serving, sysbkOldarea := (k.stopped .ssi).context }
        have G : Goes .plain ⟨k.view, k.currentThread⟩ k₀ (some .ssi) :=
          hG.setGlobals { hG.refines with globals := rfl } rfl (Or.inl rfl) fun _ hi => hi
        exact congrFun (G.recv_oldarea (k := k₀) hc h) .sysbk
      · cases h

/-- A handler that leaves to the scheduler has saved the thread that ran. -/
theorem saves (H : Good k) (hc : k.currentThread = some t)
    (h : MikaBoo.entry fuel k e = .ok (.schedule, k₁)) :
    (k.stopped e).Saved (k₁.tcb t) ∧ (k.origin e).context k₁ = (k.stopped e).context := by
  rcases entry_spares h with ⟨hs, _⟩ | ⟨_, hx, _⟩
  · have hedit : ∀ u s, e ≠ .edit u s := by
      rintro u s rfl
      simp only [MikaBoo.entry] at h
      split at h <;> cases h
    exact ⟨(H.stopped hs hedit h).saved rfl t hc, H.stores hs hc h⟩
  · cases hx

/-- A kernel step of a regular run isolates contexts. -/
theorem isolates (H : Good k) (hr : Regular k e) (he : ∀ t s, e ≠ .edit t s)
    (h : MikaBoo.step fuel k e = .ok k') : Isolates k e k' where
  others u hcur hlive hlive' :=
    H.spectates hr he h hcur hlive fun hm => hlive' (H.free_of_casualty hr h hm)
  saved t hc := by
    rintro ⟨fuel', k₁, hk₁, hleave⟩ _
    obtain ⟨⟨hS, _⟩, horigin⟩ := H.saves hc hk₁
    have htcb : k'.tcb t = k₁.tcb t := (leave_contexts (P := fun _ => True) hleave).1.tcb t trivial
    calc
      (k'.tcb t).tS = (k₁.tcb t).tS := by rw [htcb]
      _ = (k.stopped e).context := hS
      _ = (k.origin e).context k₁ := horigin.symm
      _ = (k.origin e).context k' := by rw [Origin.context, Origin.context, oldarea_leave hleave]

end Good

/-! ## Preempted threads -/

/-- A step of a regular run in which `t` does not run, stays allocated and is not edited. -/
def BystanderStep (t : Tcb) (k : Kernel) (e : Event) (k' : Kernel) : Prop :=
  RegularStep k e k' ∧ k.currentThread ≠ some t ∧ (∀ s, e ≠ .edit t s) ∧ k'.Live t

/-- The thread `t` is ready in the state `s`, or runs on from there. -/
structure Suspended (t : Tcb) (s : State) (k : Kernel) : Prop where
  good : Good k
  live : k.Live t
  ready : (k.tcb t).tStatus = .ready
  context : (k.tcb t).tS = s
  loaded : k.currentThread = some t → k.cpu = s

namespace Suspended

variable {k k' : Kernel} {e : Event} {t : Tcb} {s : State}

/-- A ready thread keeps its context until the scheduler loads it. -/
theorem step (R : Suspended t s k) (h : BystanderStep t k e k') : Suspended t s k' := by
  obtain ⟨⟨hr, fuel, h⟩, hcur, hedit, hlive⟩ := h
  have U : Unaltered k k' t := by
    by_cases he : ∃ u s', e = .edit u s'
    · obtain ⟨u, s', rfl⟩ := he
      have hut : t ≠ u := fun he => hedit s' (he ▸ rfl)
      obtain ⟨⟨x, k₁⟩, hk₁, h⟩ := bind_eq_ok.mp h
      simp only [entry] at hk₁
      split at hk₁ <;> cases hk₁
      cases h
      refine ⟨?_, ?_, ?_⟩ <;> simp [Kernel.modTcb, hut]
    · have he : ∀ u s', e ≠ .edit u s' := fun u s' heq => he ⟨u, s', heq⟩
      refine ((R.good.isolates hr he h).others t hcur R.live hlive).unaltered ?_
      simp [R.ready]
  refine ⟨R.good.regularStep ⟨hr, fuel, h⟩, hlive, U.status.trans R.ready,
    U.context.trans R.context, fun hrun => ?_⟩
  obtain ⟨⟨x, k₁⟩, hk₁, h⟩ := bind_eq_ok.mp h
  obtain ⟨_, hloads, hstays⟩ := leave_contexts (P := fun _ => True) h
  by_cases hx : x = .schedule
  · rw [hloads hx t hrun, U.context, R.context]
  · have hsame : k'.currentThread = k.currentThread := (hstays hx).trans (Idle.entry_processor hk₁).1
    exact absurd (hsame ▸ hrun) hcur

theorem run {es : List Event} (R : Suspended t s k) (run : Run (BystanderStep t) k es k') :
    Suspended t s k' :=
  run.invariant (fun _ _ _ R h => R.step h) R

/-- The timer interrupt leaves the thread that it preempts in the state of the processor. -/
theorem preempted {pending : Fin 5 → Word} (H : Good k) (hc : k.currentThread = some t)
    (hp : k.Parts (.interrupt pending) k') : Suspended t k.cpu k' := by
  obtain ⟨fuel, k₁, hk₁, hleave⟩ := hp
  obtain ⟨⟨hS, hready⟩, _⟩ := H.saves hc hk₁
  obtain ⟨ha, hloads, _⟩ := leave_contexts (P := fun _ => True) hleave
  have hstep : MikaBoo.step fuel k (.interrupt pending) = .ok k' := bind_eq_ok.mpr ⟨_, hk₁, hleave⟩
  have htcb := ha.tcb t trivial
  have hcontext : (k'.tcb t).tS = k.cpu := by
    rw [htcb]
    exact hS
  have hlive : k.Live t := by
    intro hfree
    have hnone := H.inv.owned.status.mpr (H.inv.owned.free.mp hfree)
    exact absurd (hnone.symm.trans (H.inv.scheduled.running hc)) (by simp)
  refine ⟨(H.step (e := .interrupt pending) trivial hstep).1, H.live_of_spared hstep (by simp [Kernel.casualties]) hlive, ?_,
    hcontext, fun hrun => (hloads rfl t hrun).trans hcontext⟩
  rw [htcb]
  exact hready

end Suspended

/-- In every regular run, each kernel step isolates contexts, and each thread that the interval
timer preempts resumes in the state in which it was preempted. -/
theorem contexts_isolated {hw : Hardware} {k₀ k : Kernel} {es : List Event}
    (hb : boot hw = .ok k₀) (run : Run RegularStep k₀ es k) :
    (∀ e k', (∀ t s, e ≠ .edit t s) → RegularStep k e k' → Isolates k e k') ∧
      ∀ t pending k₁ es' k₂, k.currentThread = some t → k.Parts (.interrupt pending) k₁ →
        Run (BystanderStep t) k₁ es' k₂ →
        (k₂.tcb t).tS = k.cpu ∧ (k₂.currentThread = some t → k₂.cpu = k.cpu) := by
  have H := (Good.boot hb).run run
  refine ⟨?_, ?_⟩
  · rintro e k' he ⟨hr, fuel, h⟩
    exact H.isolates hr he h
  · intro t pending k₁ es' k₂ hc hp run'
    have R := (Suspended.preempted H hc hp).run run'
    exact ⟨R.context, R.loaded⟩

namespace Sample

def expired : Event := .interrupt fun _ => 0

/-- The registers of the second thread when its slice ends. -/
def computing : State := { a1 := .int 77, pc := .int 0x400 }

/-- The first thread creates the second one, which computes for a slice. -/
def sharing : List Event :=
  [.start, .ssi] ++ service [.int 2, .int 0x200] ++ [.run computing (fun _ => null) 5000]

/-- The first thread becomes the manager of its own traps. It is preempted after it has asked
to wait for the clock, and then receives from anybody until the receive blocks. -/
def selfManaged : List Event :=
  [.start, .ssi] ++ service [.int 5, .tcb (.thread 0)] ++ request [.int 9] ++
    [.run {} (memory [.int 9]) 5000, expired, .ssi, .ssi] ++ recv none [] ++ recv none []

end Sample

/-- The second thread is preempted, the first one uses up a slice, and the second one goes on. -/
theorem contexts_isolated_sample : ∃ k₀ k k₁ k₂, boot Sample.hardware = .ok k₀ ∧
    Run RegularStep k₀ Sample.sharing k ∧ k.currentThread = some (.thread 1) ∧
    k.Parts Sample.expired k₁ ∧
    Run (BystanderStep (.thread 1)) k₁ [.run {} (fun _ => null) 5000, Sample.expired] k₂ ∧
    k₂.currentThread = some (.thread 1) ∧ k₂.cpu = Sample.computing := by
  let check : Kernel → Bool := fun k => k.currentThread = some (.thread 1) ∧
    k.cpu = Sample.computing ∧
    (entry 100 k Sample.expired).toOption.any fun p => p.1 = .schedule ∧
      (leave p.2 .schedule).toOption.any fun k₁ => k₁.currentThread ≠ some (.thread 1) ∧
        (step 100 k₁ (.run {} (fun _ => null) 5000)).toOption.any fun k₁' =>
          k₁'.currentThread ≠ some (.thread 1) ∧ k₁'.Live (.thread 1) ∧
            (step 100 k₁' Sample.expired).toOption.any fun k₂ =>
              k₂.Live (.thread 1) ∧ k₂.currentThread = some (.thread 1)
  have h : (execute Regular Sample.hardware 100 Sample.sharing).any check = true := by
    decide +kernel
  obtain ⟨k, hk, hprops⟩ := Option.any_eq_true _ _ |>.mp h
  obtain ⟨k₀, hb, run⟩ := run_of_execute hk
  obtain ⟨hc, hcpu, hentry⟩ := of_decide_eq_true hprops
  obtain ⟨⟨x, k'⟩, hk', hentry⟩ := Option.any_eq_true _ _ |>.mp hentry
  obtain ⟨hx, hleave⟩ := of_decide_eq_true hentry
  obtain rfl : x = .schedule := hx
  obtain ⟨k₁, hk₁, hstep⟩ := Option.any_eq_true _ _ |>.mp hleave
  obtain ⟨hcur₁, hstep⟩ := of_decide_eq_true hstep
  obtain ⟨k₁', hk₁', hstep⟩ := Option.any_eq_true _ _ |>.mp hstep
  obtain ⟨hcur₁', hlive₁', hstep⟩ := of_decide_eq_true hstep
  obtain ⟨k₂, hk₂, hstep⟩ := Option.any_eq_true _ _ |>.mp hstep
  obtain ⟨hlive₂, hcur₂⟩ := of_decide_eq_true hstep
  have hp : k.Parts Sample.expired k₁ := ⟨100, k', exec_eq_ok hk', exec_eq_ok hk₁⟩
  have run' : Run (BystanderStep (.thread 1)) k₁
      [.run {} (fun _ => null) 5000, Sample.expired] k₂ := by
    have first : BystanderStep (.thread 1) k₁ (.run {} (fun _ => null) 5000) k₁' :=
      ⟨⟨trivial, 100, exec_eq_ok hk₁'⟩, hcur₁, by simp, hlive₁'⟩
    exact (Run.single first).snoc
      ⟨⟨trivial, 100, exec_eq_ok hk₂⟩, hcur₁', by simp [Sample.expired], hlive₂⟩
  have hresumed := ((contexts_isolated hb run).2 _ _ _ _ _ hc hp run').2 hcur₂
  exact ⟨k₀, k, k₁, k₂, hb, run, hc, hp, run', hcur₂, hresumed.trans hcpu⟩

/-- The thread is in two queues when its request to wait for the clock is served, so it is
dispatched while it is blocked. Its trap then sends a message that completes its own receive:
the context with which it goes on is not the one in the old area. -/
theorem contexts_isolated_wrong : ∃ k₀ k k', boot Sample.hardware = .ok k₀ ∧
    Run Step k₀ Sample.selfManaged k ∧ k.currentThread = some (.thread 0) ∧
    Step k (.pgmtrap null) k' ∧ ¬ Isolates k (.pgmtrap null) k' ∧
    k'.currentThread = some (.thread 0) ∧ k'.cpu = (k'.tcb (.thread 0)).tS ∧
    k'.cpu.a1 = .tcb (.thread 0) ∧ k'.pgmtrapOldarea.a1 = SYS_RECV := by
  let check : Kernel → Bool := fun k => k.currentThread = some (.thread 0) ∧
    (entry 100 k (.pgmtrap null)).toOption.any fun p => p.1 = .schedule ∧
      (leave p.2 .schedule).toOption.any fun k' => k'.Live (.thread 0) ∧
        k'.currentThread = some (.thread 0) ∧ k'.cpu = (k'.tcb (.thread 0)).tS ∧
        k'.cpu.a1 = .tcb (.thread 0) ∧ k'.pgmtrapOldarea.a1 = SYS_RECV ∧
        (k'.tcb (.thread 0)).tS ≠ (k.origin (.pgmtrap null)).context k'
  have h : (execute (fun _ _ => True) Sample.hardware 100 Sample.selfManaged).any check = true := by
    decide +kernel
  obtain ⟨k, hk, hprops⟩ := Option.any_eq_true _ _ |>.mp h
  obtain ⟨k₀, hb, run⟩ := run_of_execute hk
  obtain ⟨hc, hentry⟩ := of_decide_eq_true hprops
  obtain ⟨⟨x, k₁⟩, hk₁, hentry⟩ := Option.any_eq_true _ _ |>.mp hentry
  obtain ⟨hx, hleave⟩ := of_decide_eq_true hentry
  obtain rfl : x = .schedule := hx
  obtain ⟨k', hk', hafter⟩ := Option.any_eq_true _ _ |>.mp hleave
  obtain ⟨hlive, hc', hcpu, ha1, htrap, hne⟩ := of_decide_eq_true hafter
  have hparts : k.Parts (.pgmtrap null) k' := ⟨100, k₁, exec_eq_ok hk₁, exec_eq_ok hk'⟩
  have hstep : Step k (.pgmtrap null) k' :=
    ⟨100, bind_eq_ok.mpr ⟨_, exec_eq_ok hk₁, exec_eq_ok hk'⟩⟩
  refine ⟨k₀, k, k', hb, forget_guard run, hc, hstep,
    fun I => hne (I.saved _ hc hparts hlive), hc', hcpu, ha1, htrap⟩

end MikaBoo
