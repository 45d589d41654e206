import MikaBoo.Abstract.Casualties

/-!
# Saved contexts

What a kernel entry does to the contexts in `t_s`: the one of the thread that it
stops, and those of the threads that do not run.

## Implementation notes

A handler changes the descriptors of other threads by its one `send` only, so
its code before and after that is described by what it leaves alone.
-/

namespace MikaBoo

open Intrusive Fuel Transition

/-- The word that a payload pointer points to. -/
def Kernel.load (k : Kernel) : Value → Value
  | .int a => k.mem a
  | .ssiMsg => k.ssiMsg
  | _ => null

theorem load_store (k : Kernel) {ptr : Value} (v : Value) (hp : ptr.isPayloadPtr = true) :
    (k.store ptr v).load ptr = v := by
  cases ptr with
  | int a => exact Function.update_self a v k.mem
  | ssiMsg => rfl
  | _ => cases hp

theorem load_eq {k k' : Kernel} (hmem : k'.mem = k.mem) (hmsg : k'.ssiMsg = k.ssiMsg) :
    k'.load = k.load := by
  funext ptr
  cases ptr with
  | int a => exact congrFun hmem a
  | ssiMsg => exact hmsg
  | _ => rfl

theorem load_store_or (k : Kernel) (ptr ptr' v : Value) :
    (k.store ptr v).load ptr' = k.load ptr' ∨ (k.store ptr v).load ptr' = v := by
  cases ptr with
  | int a =>
      cases ptr' with
      | int a' =>
          change Function.update k.mem a v a' = k.mem a' ∨ Function.update k.mem a v a' = v
          by_cases ha : a' = a
          · exact Or.inr (by simp [ha])
          · exact Or.inl (by simp [ha])
      | _ => exact Or.inl rfl
  | ssiMsg =>
      cases ptr' with
      | ssiMsg => exact Or.inr rfl
      | _ => exact Or.inl rfl
  | _ => exact Or.inl rfl

/-- What `resume_thread` does to descriptors, payload words and the history. -/
theorem resumeThread_effect (k : Kernel) (d : Tcb) (s : Option Tcb) (pl : Value) :
    (resumeThread k d s pl).tcb = Function.update k.tcb d
        { k.tcb d with
          tS := { (k.tcb d).tS with a1 := tcbPtr s }, tStatus := .ready, tWait4sender := none } ∧
      ((k.tcb d).tS.a3 ≠ null → (k.tcb d).tS.a3.isPayloadPtr = true →
        (resumeThread k d s pl).load (k.tcb d).tS.a3 = pl) ∧
      (∀ ptr, (resumeThread k d s pl).load ptr = k.load ptr ∨
        (resumeThread k d s pl).load ptr = pl) ∧
      (resumeThread k d s pl).history = k.history ++ [.received d s pl] := by
  let k₁ := k.modTcb d fun e => { e with tS := { e.tS with a1 := tcbPtr s } }
  let k₂ := if (k₁.tcb d).tS.a3 = null then k₁ else k₁.store (k₁.tcb d).tS.a3 pl
  have ha3 : (k₁.tcb d).tS.a3 = (k.tcb d).tS.a3 := by simp [k₁, Kernel.modTcb]
  have hload₁ : k₁.load = k.load := load_eq rfl rfl
  obtain ⟨htcb₂, hhist₂⟩ : k₂.tcb = k₁.tcb ∧ k₂.history = k.history := by
    simp only [k₂]
    split
    · exact ⟨rfl, rfl⟩
    · cases (k₁.tcb d).tS.a3 <;> exact ⟨rfl, rfl⟩
  have htcb : (resumeThread k d s pl).tcb = Function.update k₂.tcb d
      { k₂.tcb d with tStatus := .ready, tWait4sender := none } := rfl
  have hload : (resumeThread k d s pl).load = k₂.load := load_eq rfl rfl
  have hhist : (resumeThread k d s pl).history = k₂.history ++ [.received d s pl] := rfl
  refine ⟨?_, fun hnull hptr => ?_, fun ptr => ?_, by rw [hhist, hhist₂]⟩
  · rw [htcb, htcb₂]
    simp [k₁, Kernel.modTcb]
  · rw [hload]
    simp only [k₂, ha3, hnull, if_false]
    exact load_store k₁ pl hptr
  · rw [hload, ← hload₁]
    simp only [k₂]
    split
    · exact Or.inl rfl
    · exact load_store_or k₁ _ ptr pl

/-- The history of `k'` is that of `k` and `hist`. -/
def Kernel.Adds (k k' : Kernel) (hist : List Obs) : Prop := k'.history = k.history ++ hist

/-- Neither the saved context of `u` nor what it waits for has changed. -/
structure Unaltered (k k' : Kernel) (u : Tcb) : Prop where
  context : (k'.tcb u).tS = (k.tcb u).tS
  status : (k'.tcb u).tStatus = (k.tcb u).tStatus
  wait : (k'.tcb u).tWait4sender = (k.tcb u).tWait4sender

/-- The blocked receive of `u` has returned the sender `s` and stored the payload
`pl`. Unless `s` is NULL, it is the thread that has sent the payload. -/
structure Resumed (k k' : Kernel) (u : Tcb) (s : Option Tcb) (pl : Value) : Prop where
  blocked : (k.tcb u).tStatus = .w4msg
  ready : (k'.tcb u).tStatus = .ready
  wait : (k'.tcb u).tWait4sender = none
  context : (k'.tcb u).tS = { (k.tcb u).tS with a1 := tcbPtr s }
  word : (k.tcb u).tS.a3 ≠ null → (k.tcb u).tS.a3.isPayloadPtr = true →
    k'.load (k.tcb u).tS.a3 = pl
  heard : ∃ hist, k.Adds k' hist ∧ .received u s pl ∈ hist ∧
    ∀ r, s = some r → .sent (some r) u pl true ∈ hist

/-- What a step does to a thread that does not run. -/
def Spectates (k k' : Kernel) (u : Tcb) : Prop :=
  Unaltered k k' u ∨ ∃ s pl, Resumed k k' u s pl

/-- What concerns the threads with the property `P` is the same in `k'` as in `k`. -/
structure Aside (P : Tcb → Prop) (k k' : Kernel) : Prop where
  tcb : ∀ u, P u → k'.tcb u = k.tcb u
  load : k'.load = k.load
  adds : ∃ hist, k.Adds k' hist

namespace Aside

variable {P : Tcb → Prop} {k k₁ k' : Kernel} {u t : Tcb}

theorem of_eq (htcb : ∀ u, P u → k'.tcb u = k.tcb u) (hmem : k'.mem = k.mem)
    (hmsg : k'.ssiMsg = k.ssiMsg) (hhist : k'.history = k.history) : Aside P k k' where
  tcb := htcb
  load := load_eq hmem hmsg
  adds := ⟨[], by simp [Kernel.Adds, hhist]⟩

theorem refl (k : Kernel) : Aside P k k := of_eq (fun _ _ => rfl) rfl rfl rfl

theorem trans (h₁ : Aside P k k₁) (h₂ : Aside P k₁ k') : Aside P k k' where
  tcb u hu := (h₂.tcb u hu).trans (h₁.tcb u hu)
  load := h₂.load.trans h₁.load
  adds := by
    obtain ⟨hist₁, ha₁⟩ := h₁.adds
    obtain ⟨hist₂, ha₂⟩ := h₂.adds
    exact ⟨hist₁ ++ hist₂, by rw [Kernel.Adds, ha₂, ha₁, List.append_assoc]⟩

/-- Assignment to the descriptor of a thread that is not concerned. -/
theorem modTcb (k : Kernel) (t : Tcb) (f : TcbT → TcbT) : Aside (· ≠ t) k (k.modTcb t f) :=
  of_eq (fun u hu => by simp [Kernel.modTcb, hu]) rfl rfl rfl

theorem record (k : Kernel) (o : Obs) : Aside P k (k.record o) where
  tcb _ _ := rfl
  load := load_eq rfl rfl
  adds := ⟨[o], rfl⟩

theorem unaltered (h : Aside P k k') (hu : P u) : Unaltered k k' u := by
  have htcb := h.tcb u hu
  exact ⟨congrArg TcbT.tS htcb, congrArg TcbT.tStatus htcb, congrArg TcbT.tWait4sender htcb⟩

end Aside

namespace Spectates

variable {P : Tcb → Prop} {k k₁ k₂ k' : Kernel} {u d : Tcb} {s : Option Tcb} {pl : Value} {w : Word}

/-- Code that does not concern the thread may come before and after. -/
theorem within (h : Spectates k₁ k₂ u) (h₁ : Aside P k k₁) (h₂ : Aside P k₂ k') (hu : P u) :
    Spectates k k' u := by
  have htcb₁ := h₁.tcb u hu
  have htcb₂ := h₂.tcb u hu
  rcases h with h | ⟨s, pl, h⟩
  · left
    refine ⟨?_, ?_, ?_⟩
    · rw [htcb₂, h.context, htcb₁]
    · rw [htcb₂, h.status, htcb₁]
    · rw [htcb₂, h.wait, htcb₁]
  · obtain ⟨hist₁, ha₁⟩ := h₁.adds
    obtain ⟨hist, ha, hreceived, hsent⟩ := h.heard
    obtain ⟨hist₂, ha₂⟩ := h₂.adds
    right
    refine ⟨s, pl, ?_, ?_, ?_, ?_, ?_, hist₁ ++ hist ++ hist₂, ?_, ?_, ?_⟩
    · rw [← htcb₁, h.blocked]
    · rw [htcb₂, h.ready]
    · rw [htcb₂, h.wait]
    · rw [htcb₂, h.context, htcb₁]
    · rw [h₂.load, ← htcb₁]
      exact h.word
    · rw [Kernel.Adds, ha₂, ha, ha₁]
      simp only [List.append_assoc]
    · simp [hreceived]
    · intro r hr
      simp [hsent r hr]

theorem unaltered (h : Spectates k k' u) (hready : (k.tcb u).tStatus ≠ .w4msg) :
    Unaltered k k' u := by
  rcases h with h | ⟨_, _, h⟩
  · exact h
  · exact absurd h.blocked hready

theorem deliverMsg (h : MikaBoo.deliverMsg k d s pl = .ok (w, k')) : Aside P k k' := by
  obtain ⟨⟨r, k₁⟩, hk₁, h⟩ := bind_eq_ok.mp h
  have h₁ : Aside P k k₁ := by
    obtain ⟨_, _, hk₁⟩ := bind_eq_ok.mp hk₁
    split at hk₁ <;> cases hk₁ <;> exact .of_eq (fun _ _ => rfl) rfl rfl rfl
  dsimp only at h
  split at h <;> cases h <;> exact h₁

/-- Only the destination of a message can be resumed by it. -/
theorem send (h : MikaBoo.send k d s pl = .ok (w, k')) (u : Tcb) : Spectates k k' u := by
  obtain ⟨⟨r, k₁⟩, hk₁, h⟩ := bind_eq_ok.mp h
  cases h
  have hqueued : MikaBoo.deliverMsg k d s pl = .ok (w, k₁) →
      Spectates k (k₁.record (.sent s d pl (w = SEND_SUCCESS))) u := fun hk =>
    Or.inl (((deliverMsg hk).trans (.record k₁ _)).unaltered (P := fun _ => True) trivial)
  unfold sendSwitch at hk₁
  split at hk₁
  · exact hqueued hk₁
  · rename_i hblocked
    split at hk₁
    · cases hk₁
      obtain ⟨htcb, hword, _, hhist⟩ := resumeThread_effect k d s pl
      by_cases hu : u = d
      · subst hu
        right
        refine ⟨s, pl, hblocked, ?_, ?_, ?_, ?_, [.received u s pl, .sent s u pl true], ?_, ?_, ?_⟩
        · simp [Kernel.record, htcb]
        · simp [Kernel.record, htcb]
        · simp [Kernel.record, htcb]
        · have hrecord : ∀ o, ((resumeThread k u s pl).record o).load =
              (resumeThread k u s pl).load := fun o => load_eq rfl rfl
          rw [hrecord]
          exact hword
        · simp [Kernel.Adds, Kernel.record, hhist]
        · simp
        · rintro r rfl
          simp
      · left
        refine ⟨?_, ?_, ?_⟩ <;> simp [Kernel.record, htcb, hu]
    · exact hqueued hk₁
  · cases hk₁
    exact Or.inl (Aside.unaltered (P := fun _ => True) (.record k _) trivial)

theorem msgsend {caller : State} (h : MikaBoo.msgsend k caller d pl = .ok k') (u : Tcb) :
    Spectates k k' u := by
  obtain ⟨⟨w, k₂⟩, hk₂, h⟩ := bind_eq_ok.mp h
  cases h
  exact (send hk₂ u).within (P := fun _ => True) (.of_eq (fun _ _ => rfl) rfl rfl rfl)
    (.of_eq (fun _ _ => rfl) rfl rfl rfl) trivial

end Spectates

/-! ## The thread that a handler stops -/

/-- How a thread is stopped: the context that is saved for it and, if a receive
blocks it, the sender that it waits for. -/
structure Stopped where
  context : State
  source : Option (Option Tcb) := none

/-- The descriptor of a thread that has been stopped so. -/
def Stopped.Saved (st : Stopped) (d : TcbT) : Prop :=
  d.tS = st.context ∧
    match st.source with
    | none => d.tStatus = .ready
    | some src => d.tStatus = .w4msg ∧ d.tWait4sender = src

/-- The receive from the SSI that a handler executes for the running thread. -/
def requestStopped : Stopped where
  context := { handlerState with a1 := SYS_RECV, a2 := .tcb .ssi, a3 := null, a4 := null }
  source := some (some .ssi)

/-- A thread is passed up with `pc` at the instruction that trapped. -/
def trapStopped (mgr : Option Tcb) (oldarea : State) : Stopped :=
  if mgr.isSome then { context := oldarea.stepBack } else requestStopped

/-- A word that is a TCB pointer. -/
def Value.tcb? : Value → Option Tcb
  | .tcb t => some t
  | _ => none

/-- The system call in `SYSBK_OLDAREA`. -/
def syscallStopped (k : Kernel) : Stopped :=
  let args := k.sysbkOldarea
  if (args.a1 = SYS_SEND ∨ args.a1 = SYS_RECV) ∧ isKernelMode k then
    { context := args, source := some args.a2.tcb? }
  else if args.a1 = null ∨ args.a1 = SYS_SEND ∨ args.a1 = SYS_RECV then
    trapStopped k.managers.pgmMgr { args with cp15Cause := EXC_RESERVEDINSTR }
  else if k.managers.sysMgr.isSome then { context := args }
  else trapStopped k.managers.pgmMgr args

/-- How the event stops the running thread, if it does. -/
def Kernel.stopped (k : Kernel) : Event → Stopped
  | .syscall => syscallStopped { k with sysbkOldarea := k.cpu }
  | .pgmtrap cause => trapStopped k.managers.pgmMgr { k.cpu with cp15Cause := cause }
  | .tlbtrap cause => trapStopped k.managers.tlbMgr { k.cpu with cp15Cause := cause }
  | .ssi =>
      { context := { k.cpu with a1 := SYS_RECV, a2 := null, a3 := .ssiMsg, a4 := null }
        source := some none }
  | _ => { context := k.cpu }

/-- What a handler does to contexts, when it leaves with `x`. -/
structure Stops (k : Kernel) (st : Stopped) (x : Exit) (k' : Kernel) : Prop where
  others : ∀ u, k.currentThread ≠ some u → Spectates k k' u
  saved : x = .schedule → ∀ t, k.currentThread = some t → st.Saved (k'.tcb t)

namespace Goes

variable {scope : Scope} {c : Config} {k k' : Kernel} {t : Tcb} {fuel : Nat} {x : Exit}

/-- A receive stores its payload, or blocks its thread. -/
theorem recv_stops {src : Option Tcb} {ptr : Value} (G : Goes scope c k (some t))
    (hc : k.currentThread = some t) (h : MikaBoo.recv fuel k src ptr = .ok (x, k')) :
    (x ≠ .schedule ∧ k'.tcb = k.tcb) ∨
      (x = .schedule ∧ Aside (· ≠ t) k k' ∧
        Stopped.Saved ⟨k.sysbkOldarea, some src⟩ (k'.tcb t)) := by
  simp only [MikaBoo.recv, hc] at h
  split at h
  · cases h
  · cases hp : k.view.pick src t with
    | some m =>
        obtain ⟨k₁, hk₁, R₁⟩ := G.refines.msgqGet_some (p := ptr) hp
        simp only [hk₁, ok_bind, Except.ok.injEq, Prod.mk.injEq] at h
        obtain ⟨rfl, rfl⟩ := h
        exact Or.inl ⟨by simp, R₁.tcb.symm⟩
    | none =>
        let k₁ : Kernel := { k with timeSliceLeft := k.timer }
        let k₂ : Kernel := k₁.modTcb t fun d =>
          { d with tS := k.sysbkOldarea, tStatus := .w4msg, tWait4sender := src
                   runTime := d.runTime + k.timer }
        have h' : (MikaBoo.updateClock fuel k₂ k.timer >>= fun k =>
            .ok (Exit.schedule, threadEnqueue k t (.waiting src))) = .ok (x, k') := by
          rw [← h, G.refines.msgqGet_none hp]
          cases src <;> rfl
        obtain ⟨k₃, hk₃, h'⟩ := bind_eq_ok.mp h'
        obtain ⟨pc, rfl⟩ := updateClock_of_empty (k := k₂) G.clockNext hk₃
        cases h'
        have hset : Aside (· ≠ t) k k₁ := .of_eq (fun _ _ => rfl) rfl rfl rfl
        have hmod : Aside (· ≠ t) k k₂ := hset.trans (.modTcb k₁ t _)
        refine Or.inr ⟨rfl, hmod.trans (.of_eq (fun _ _ => rfl) rfl rfl rfl), ?_⟩
        simp [Stopped.Saved, threadEnqueue, k₂, k₁, Kernel.modTcb]

theorem recv_stopped {src : Option Tcb} {ptr : Value} (G : Goes scope c k (some t))
    (hc : k.currentThread = some t) (h : MikaBoo.recv fuel k src ptr = .ok (x, k')) :
    Stops k ⟨k.sysbkOldarea, some src⟩ x k' := by
  rcases G.recv_stops hc h with ⟨hx, htcb⟩ | ⟨_, ha, hsaved⟩
  · refine ⟨fun u _ => Or.inl ⟨?_, ?_, ?_⟩, fun hs => absurd hs hx⟩ <;> rw [htcb]
  · constructor
    · intro u hu
      have hut : u ≠ t := by
        rintro rfl
        exact hu hc
      exact Or.inl (ha.unaltered hut)
    · intro _ u hu
      obtain rfl := Option.some.inj (hc.symm.trans hu)
      exact hsaved

/-- A request for a termination resumes the SSI, if that waits, and blocks the thread. -/
theorem terminateRequest_stopped {tag : Word} (G : Goes scope c k (some t))
    (hc : k.currentThread = some t) (hu : t ≠ .ssi)
    (h : MikaBoo.terminateRequest fuel k tag = .ok (x, k')) : Stops k requestStopped x k' := by
  have G₀ : Goes scope c (k.writeReq tag) (some t) := G.same { G.refines with }
  obtain ⟨k₁, hk₁, G₁, hg₁⟩ := G₀.msgsend (a := handlerState) (d := .ssi) (p := .req tag) hc
    G.allocated fun h => absurd h hu
  have hc₁ : k₁.currentThread = some t := (congrArg Globals.currentThread hg₁).trans hc
  have hsent := Spectates.msgsend hk₁
  simp only [MikaBoo.terminateRequest, hk₁, ok_bind] at h
  obtain ⟨⟨x₂, k₂⟩, hk₂, h⟩ := bind_eq_ok.mp h
  let k₃ : Kernel := { k₁.enter with sysbkOldarea := requestStopped.context }
  have G₃ : Goes scope c k₃ (some t) := G₁.same { G₁.refines with }
  rcases G₃.recv_stops hc₁ hk₂ with ⟨hx, _⟩ | ⟨rfl, ha, hsaved⟩
  · cases x₂ with
    | resume s => cases h
    | schedule => exact absurd rfl hx
  · cases h
    have h₀ : Aside (· ≠ t) k (k.writeReq tag) := .of_eq (fun _ _ => rfl) rfl rfl rfl
    have h₃ : Aside (· ≠ t) k₁ k₃ := .of_eq (fun _ _ => rfl) rfl rfl rfl
    constructor
    · intro u hne
      have hut : u ≠ t := by
        rintro rfl
        exact hne hc
      exact (hsent u).within (P := (· ≠ t)) h₀ (h₃.trans ha) hut
    · intro _ u hcur
      obtain rfl := Option.some.inj (hc.symm.trans hcur)
      exact hsaved

/-- A thread that is passed up keeps the context that it is given before the send. -/
theorem passUp_stopped {k₁ k₂ : Kernel} {ctx : State} (hc : k.currentThread = some t)
    (h₁ : Aside (· ≠ t) k k₁) (hctx : (k₁.tcb t).tS = ctx) (hready : (k₁.tcb t).tStatus = .ready)
    (hsent : ∀ u, Spectates k₁ k₂ u) :
    Stops k { context := ctx } .schedule (threadEnqueue k₂ t .blockedq) := by
  have h₂ : Aside (· ≠ t) k₂ (threadEnqueue k₂ t .blockedq) := .of_eq (fun _ _ => rfl) rfl rfl rfl
  constructor
  · intro u hne
    have hut : u ≠ t := by
      rintro rfl
      exact hne hc
    exact (hsent u).within (P := (· ≠ t)) h₁ h₂ hut
  · intro _ u hcur
    obtain rfl := Option.some.inj (hc.symm.trans hcur)
    have hsame := (hsent t).unaltered (by simp [hready])
    exact ⟨hsame.context.trans hctx, hsame.status.trans hready⟩

theorem rawTrapH_stopped {mgr : Option Tcb} {oldarea : State} (G : Goes scope c k (some t))
    (hc : k.currentThread = some t) (hu : t ≠ .ssi)
    (h : MikaBoo.rawTrapH fuel k mgr oldarea = .ok (x, k')) :
    Stops k (trapStopped mgr oldarea) x k' := by
  simp only [MikaBoo.rawTrapH, hc] at h
  cases mgr with
  | none => exact G.terminateRequest_stopped hc hu h
  | some m =>
      obtain ⟨k₂, hk₂, h⟩ := bind_eq_ok.mp h
      cases h
      exact passUp_stopped hc (.modTcb k t _) (by simp [Kernel.modTcb])
        (by simpa [Kernel.modTcb] using G.ready) fun u => .msgsend hk₂ u

theorem pgmtrapH_stopped (G : Goes scope c k (some t)) (hc : k.currentThread = some t)
    (hu : t ≠ .ssi) (h : MikaBoo.pgmtrapH fuel k = .ok (x, k')) :
    Stops k (trapStopped k.managers.pgmMgr k.pgmtrapOldarea) x k' := by
  obtain ⟨p, hp, h⟩ := bind_eq_ok.mp h
  rw [currentProcess_ok hp]
  exact G.rawTrapH_stopped hc hu h

theorem tlbtrapH_stopped (G : Goes scope c k (some t)) (hc : k.currentThread = some t)
    (hu : t ≠ .ssi) (h : MikaBoo.tlbtrapH fuel k = .ok (x, k')) :
    Stops k (trapStopped k.managers.tlbMgr k.tlbOldarea) x k' := by
  obtain ⟨p, hp, h⟩ := bind_eq_ok.mp h
  rw [currentProcess_ok hp]
  exact G.rawTrapH_stopped hc hu h

end Goes

/-- The registers and old areas that a handler starts with do not matter to what it stops. -/
theorem Stops.of_start {k k₁ k' : Kernel} {st : Stopped} {x : Exit} (h : Stops k₁ st x k')
    (hc : k₁.currentThread = k.currentThread) (ha : Aside (fun _ => True) k k₁) :
    Stops k st x k' where
  others u hu := (h.others u (hc ▸ hu)).within ha (.refl k') trivial
  saved hx t ht := h.saved hx t (hc.trans ht)

namespace Goes

variable {scope : Scope} {c : Config} {k k' : Kernel} {t : Tcb} {fuel : Nat} {x : Exit}

theorem raiseReservedInstruction_stopped (G : Goes scope c k (some t))
    (hc : k.currentThread = some t) (hu : t ≠ .ssi)
    (h : MikaBoo.raiseReservedInstruction fuel k = .ok (x, k')) :
    Stops k (trapStopped k.managers.pgmMgr { k.sysbkOldarea with cp15Cause := EXC_RESERVEDINSTR })
      x k' := by
  let k₁ : Kernel := { k with
    pgmtrapOldarea := { k.sysbkOldarea with cp15Cause := EXC_RESERVEDINSTR } }
  have G₁ : Goes scope c k₁ (some t) := G.same { G.refines with }
  exact (G₁.pgmtrapH_stopped (k := k₁) hc hu h).of_start rfl (.of_eq (fun _ _ => rfl) rfl rfl rfl)

theorem syscallOther_stopped {a₁ a₂ a₃ a₄ : Value} (G : Goes scope c k (some t))
    (hc : k.currentThread = some t) (hu : t ≠ .ssi)
    (h : MikaBoo.syscallOther fuel k a₁ a₂ a₃ a₄ = .ok (x, k')) :
    Stops k (if k.managers.sysMgr.isSome then { context := k.sysbkOldarea }
      else trapStopped k.managers.pgmMgr k.sysbkOldarea) x k' := by
  simp only [MikaBoo.syscallOther, hc] at h
  obtain ⟨p, hp, h⟩ := bind_eq_ok.mp h
  rw [currentProcess_ok hp]
  cases hsys : (k.pcb p).sysMgr with
  | some m =>
      simp only [hsys] at h
      obtain ⟨⟨w, k₂⟩, hk₂, h⟩ := bind_eq_ok.mp h
      cases h
      let k₀ : Kernel := k.modTcb t fun d => { d with tS := k.sysbkOldarea }
      let k₁ : Kernel := k₀.writeSysMsg [a₁, a₂, a₃, a₄]
      have h₀ : Aside (· ≠ t) k k₀ := .modTcb k t _
      have h₁ : Aside (· ≠ t) k₀ k₁ := .of_eq (fun _ _ => rfl) rfl rfl rfl
      have hsent : ∀ u, Spectates k₁ k₂ u := fun u => .send hk₂ u
      refine passUp_stopped hc (h₀.trans h₁) ?_ ?_ hsent
      · simp [k₁, k₀, Kernel.writeSysMsg, Kernel.modTcb]
      · simpa [k₁, k₀, Kernel.writeSysMsg, Kernel.modTcb] using G.ready
  | none =>
      cases hpgm : (k.pcb p).pgmMgr with
      | some m =>
          simp only [hsys, hpgm] at h
          obtain ⟨⟨w, k₂⟩, hk₂, h⟩ := bind_eq_ok.mp h
          cases h
          exact passUp_stopped hc (.modTcb k t _) (by simp [Kernel.modTcb])
            (by simpa [Kernel.modTcb] using G.ready) fun u => .send hk₂ u
      | none =>
          simp only [hsys, hpgm] at h
          exact G.terminateRequest_stopped hc hu h

theorem syscallH_stopped (G : Goes scope c k (some t)) (hc : k.currentThread = some t)
    (hu : t ≠ .ssi) (h : MikaBoo.syscallH fuel k = .ok (x, k')) :
    Stops k (syscallStopped k) x k' := by
  unfold MikaBoo.syscallH at h
  dsimp only at h
  unfold syscallStopped
  by_cases h₀ : k.sysbkOldarea.a1 = null
  · rw [if_pos h₀] at h
    rw [if_neg (by simp [h₀]), if_pos (Or.inl h₀)]
    exact G.raiseReservedInstruction_stopped hc hu h
  · rw [if_neg h₀] at h
    by_cases h₁ : k.sysbkOldarea.a1 = SYS_SEND
    · rw [if_pos h₁] at h
      unfold MikaBoo.sendKernel at h
      cases hk : isKernelMode k with
      | true =>
          simp only [hk, if_true] at h
          obtain ⟨d, _, h⟩ := bind_eq_ok.mp h
          cases d with
          | none => cases h
          | some d =>
              obtain ⟨⟨w, k₂⟩, hk₂, h⟩ := bind_eq_ok.mp h
              cases h
              refine ⟨fun u _ => ?_, nofun⟩
              exact (Spectates.send hk₂ u).within (P := fun _ => True) (.refl k)
                (.of_eq (fun _ _ => rfl) rfl rfl rfl) trivial
      | false =>
          simp only [hk, Bool.false_eq_true, if_false] at h
          rw [if_neg (by simp), if_pos (Or.inr (Or.inl h₁))]
          exact G.raiseReservedInstruction_stopped hc hu h
    · rw [if_neg h₁] at h
      by_cases h₂ : k.sysbkOldarea.a1 = SYS_RECV
      · rw [if_pos h₂] at h
        unfold MikaBoo.recvKernel at h
        cases hk : isKernelMode k with
        | true =>
            simp only [hk, if_true] at h
            obtain ⟨s, hs, h⟩ := bind_eq_ok.mp h
            have hsrc : k.sysbkOldarea.a2.tcb? = s := by
              unfold Value.toTcb at hs
              split at hs <;> cases hs <;> simp_all [Value.tcb?]
            rw [if_pos ⟨Or.inr h₂, rfl⟩, hsrc]
            exact G.recv_stopped hc h
        | false =>
            simp only [hk, Bool.false_eq_true, if_false] at h
            rw [if_neg (by simp), if_pos (Or.inr (Or.inr h₂))]
            exact G.raiseReservedInstruction_stopped hc hu h
      · rw [if_neg h₂] at h
        rw [if_neg (by simp [h₁, h₂]), if_neg (by simp [h₀, h₁, h₂])]
        exact G.syscallOther_stopped hc hu h

theorem intervalTimerH_stopped {r : Option Tcb} (G : Goes scope c k r) (hc : k.currentThread = r)
    (hu : r ≠ some .ssi) (h : MikaBoo.intervalTimerH fuel k = .ok (x, k')) :
    Stops k { context := k.intOldarea } x k' := by
  simp only [MikaBoo.intervalTimerH, hc] at h
  obtain ⟨k₂, hk₂, h⟩ := bind_eq_ok.mp h
  cases h
  cases r with
  | none =>
      obtain ⟨pc, rfl⟩ := updateClock_of_empty G.clockNext hk₂
      refine ⟨fun u _ => Or.inl ⟨rfl, rfl, rfl⟩, fun _ u hcur => ?_⟩
      rw [hc] at hcur
      cases hcur
  | some t =>
      let f : TcbT → TcbT := fun d =>
        { d with tS := k.intOldarea, runTime := d.runTime + k.clockPerTimeslice }
      have G₁ := G.modTcb (t := t) (f := f) ⟨rfl, rfl, rfl⟩ (Or.inl rfl)
      have G₂ := G₁.act (.preempt (by simpa using hu))
        (G₁.refines.enqueue (fun _ hm => G₁.inv.scheduled.off hm rfl) .readyq)
      obtain ⟨pc, rfl⟩ := updateClock_of_empty G₂.clockNext hk₂
      constructor
      · intro u hne
        have hut : u ≠ t := by
          rintro rfl
          exact hne hc
        refine Or.inl ⟨?_, ?_, ?_⟩ <;> simp [threadEnqueue, Kernel.modTcb, hut]
      · intro _ u hcur
        obtain rfl := Option.some.inj (hc.symm.trans hcur)
        have hready : (k.tcb t).tStatus = .ready := G.ready
        simp [Stopped.Saved, threadEnqueue, Kernel.modTcb, f, hready]

theorem acknowledge_stopped {i : Fin 5} (hidle : k.isIdle = true → k.currentThread = none)
    (h : MikaBoo.acknowledge k i = .ok (x, k')) : Stops k { context := k.intOldarea } x k' := by
  unfold MikaBoo.acknowledge at h
  obtain ⟨_, _, h⟩ := bind_eq_ok.mp h
  split at h
  · cases h
  · obtain ⟨⟨w, k₂⟩, hk₂, h⟩ := bind_eq_ok.mp h
    obtain ⟨_, _, h⟩ := bind_eq_ok.mp h
    let k₁ : Kernel := { k with transmCommand := DEV_C_ACK }
    have h₁ : Aside (fun _ => True) k k₁ := .of_eq (fun _ _ => rfl) rfl rfl rfl
    have hidle₂ : k₂.isIdle = k.isIdle := (congrArg Kept.isIdle (Frame.send hk₂) :)
    dsimp only at h
    split at h
    · rename_i hi
      cases h
      refine ⟨fun u _ => (Spectates.send hk₂ u).within h₁ ?_ trivial, fun _ u hcur => ?_⟩
      · exact .of_eq (fun _ _ => rfl) rfl rfl rfl
      · rw [hidle (hidle₂.symm.trans hi)] at hcur
        cases hcur
    · split at h <;> cases h
      refine ⟨fun u _ => (Spectates.send hk₂ u).within h₁ ?_ trivial, nofun⟩
      exact .of_eq (fun _ _ => rfl) rfl rfl rfl

theorem interruptH_stopped {r : Option Tcb} {pending : Fin 5 → Word} (G : Goes scope c k r)
    (hc : k.currentThread = r) (hu : r ≠ some .ssi) (hidle : k.isIdle = true → r = none)
    (h : MikaBoo.interruptH fuel k pending = .ok (x, k')) :
    Stops k { context := k.intOldarea } x k' := by
  let k₁ : Kernel := { k with timeSliceLeft := k.timer }
  have G₁ : Goes scope c k₁ r := G.same { G.refines with }
  have h₁ : Stops k₁ { context := k.intOldarea } x k' := by
    unfold MikaBoo.interruptH at h
    dsimp only at h
    split at h
    · unfold ioH at h
      split at h
      · exact acknowledge_stopped (fun hi => hc.trans (hidle hi)) h
      · cases h
    · exact G₁.intervalTimerH_stopped hc hu h
  exact h₁.of_start rfl (.of_eq (fun _ _ => rfl) rfl rfl rfl)

/-- The SSI receives a request, or waits for one. -/
theorem ssi_stopped (G : Goes scope c k (some .ssi)) (hc : k.currentThread = some .ssi)
    (hp : k.ssiPoint = .receiving) (h : MikaBoo.ssi fuel k = .ok (x, k')) :
    Stops k (k.stopped .ssi) x k' := by
  simp only [MikaBoo.ssi, hp] at h
  let k₁ : Kernel := { k.enter with
    ssiPoint := .serving, sysbkOldarea := (k.stopped .ssi).context }
  have G₁ : Goes scope c k₁ (some .ssi) :=
    G.setGlobals { G.refines with globals := rfl } rfl (Or.inl rfl) fun _ hi => hi
  exact (G₁.recv_stopped (k := k₁) hc h).of_start rfl (.of_eq (fun _ _ => rfl) rfl rfl rfl)

end Goes

/-! ## Events -/

namespace Good

variable {k k' : Kernel} {e : Event} {fuel : Nat} {x : Exit}

/-- A kernel entry that serves no request stops the running thread as `stopped` says. -/
theorem stopped (H : Good k) (hs : k.serves e = false) (he : ∀ t s, e ≠ .edit t s)
    (h : MikaBoo.entry fuel k e = .ok (x, k')) : Stops k (k.stopped e) x k' := by
  have hquiet : ∀ {st : State} {k₂ : Kernel}, k₂.tcb = k.tcb →
      Stops k (k.stopped e) (.resume st) k₂ := fun htcb =>
    ⟨fun u _ => Or.inl ⟨by rw [htcb], by rw [htcb], by rw [htcb]⟩, nofun⟩
  cases e with
  | start =>
      simp only [MikaBoo.entry] at h
      split at h
      · rename_i hm
        cases h
        refine ⟨fun u _ => Or.inl ⟨rfl, rfl, rfl⟩, fun _ u hcur => ?_⟩
        rw [H.booting hm] at hcur
        cases hcur
      · cases h
  | run cpu mem cycles =>
      simp only [MikaBoo.entry] at h
      split at h <;> cases h
      exact hquiet rfl
  | elapse cycles =>
      simp only [MikaBoo.entry] at h
      split at h <;> cases h
      exact hquiet rfl
  | edit t s => exact absurd rfl (he t s)
  | syscall =>
      simp only [MikaBoo.entry] at h
      split at h
      · rename_i hu
        obtain ⟨i, hi⟩ := user_of_userRuns hu
        have G : Goes .plain ⟨k.view, k.currentThread⟩ k (some (.thread i)) := by
          rw [← hi]
          exact H.goes
        let k₁ : Kernel := { k.enter with sysbkOldarea := k.cpu }
        have G₁ : Goes .plain ⟨k.view, k.currentThread⟩ k₁ (some (.thread i)) :=
          G.same { G.refines with }
        exact (G₁.syscallH_stopped (k := k₁) hi (by simp) h).of_start rfl
          (.of_eq (fun _ _ => rfl) rfl rfl rfl)
      · cases h
  | pgmtrap cause =>
      simp only [MikaBoo.entry] at h
      split at h
      · rename_i hu
        obtain ⟨i, hi⟩ := user_of_userRuns hu
        have G : Goes .plain ⟨k.view, k.currentThread⟩ k (some (.thread i)) := by
          rw [← hi]
          exact H.goes
        let k₁ : Kernel := { k.enter with pgmtrapOldarea := { k.cpu with cp15Cause := cause } }
        have G₁ : Goes .plain ⟨k.view, k.currentThread⟩ k₁ (some (.thread i)) :=
          G.same { G.refines with }
        exact (G₁.pgmtrapH_stopped (k := k₁) hi (by simp) h).of_start rfl
          (.of_eq (fun _ _ => rfl) rfl rfl rfl)
      · cases h
  | tlbtrap cause =>
      simp only [MikaBoo.entry] at h
      split at h
      · rename_i hu
        obtain ⟨i, hi⟩ := user_of_userRuns hu
        have G : Goes .plain ⟨k.view, k.currentThread⟩ k (some (.thread i)) := by
          rw [← hi]
          exact H.goes
        let k₁ : Kernel := { k.enter with tlbOldarea := { k.cpu with cp15Cause := cause } }
        have G₁ : Goes .plain ⟨k.view, k.currentThread⟩ k₁ (some (.thread i)) :=
          G.same { G.refines with }
        exact (G₁.tlbtrapH_stopped (k := k₁) hi (by simp) h).of_start rfl
          (.of_eq (fun _ _ => rfl) rfl rfl rfl)
      · cases h
  | interrupt pending =>
      simp only [MikaBoo.entry] at h
      split at h
      · rename_i hp
        have hssi : k.currentThread ≠ some .ssi := by
          rcases hp.1 with hu | hw
          · obtain ⟨i, hi⟩ := user_of_userRuns hu
            simp [hi]
          · simp [(H.waiting hw).1]
        let k₁ : Kernel := { k.enter with intOldarea := k.cpu }
        have G₁ : Goes .plain ⟨k.view, k.currentThread⟩ k₁ k.currentThread :=
          H.goes.same { H.refines with }
        exact (G₁.interruptH_stopped (k := k₁) rfl hssi H.idle h).of_start rfl
          (.of_eq (fun _ _ => rfl) rfl rfl rfl)
      · cases h
  | ssi =>
      simp only [MikaBoo.entry] at h
      split at h
      · rename_i hm
        have G : Goes .plain ⟨k.view, k.currentThread⟩ k (some .ssi) := by
          rw [← hm.2]
          exact H.goes
        have hp : k.ssiPoint = .receiving := by
          cases hp : k.ssiPoint with
          | receiving => rfl
          | serving => simp [Kernel.serves, hp] at hs
        exact G.ssi_stopped hm.2 hp h
      · cases h

end Good

/-! ## Services -/

namespace Aside

variable {P Q : Tcb → Prop} {k k₁ k' : Kernel} {t : Tcb} {fuel : Nat} {st : State} {o : Option Tcb}

theorem mono (h : Aside P k k') (hQ : ∀ u, Q u → P u) : Aside Q k k' :=
  ⟨fun u hu => h.tcb u (hQ u hu), h.load, h.adds⟩

/-- A thread that is created was free. -/
theorem rawCreateThreadS {proc : Option Pcb} (C : k.kept.Rolls)
    (h : MikaBoo.rawCreateThreadS k st proc = .ok (o, k')) :
    Aside (· ∉ k.view.threads .free) k k' := by
  have hn : k.threadLinks.listNext .threadH = _ := C.threads.listNext .free
  obtain ⟨⟨o₁, k₁⟩, hk₁, h⟩ := bind_eq_ok.mp h
  cases hq : k.kept.view.threads .free with
  | nil =>
      simp only [threadAlloc, hn, hq, List.head?_nil, Option.map_none] at hk₁
      cases hk₁
      cases h
      exact .refl k
  | cons u rest =>
      cases proc with
      | none =>
          simp only [threadAlloc, hn, hq, List.head?_cons, Option.map_some] at hk₁
          cases hk₁
          cases h
          exact .refl k
      | some p =>
          simp only [threadAlloc, hn, hq, List.head?_cons, Option.map_some] at hk₁
          cases hk₁
          cases h
          have hu : u ∈ k.view.threads .free := by
            change u ∈ k.kept.view.threads .free
            simp [hq]
          refine ⟨fun w hw => ?_, load_eq rfl rfl, [.allocated u], rfl⟩
          have hwu : w ≠ u := fun he => hw (he ▸ hu)
          simp [Kernel.modTcb, Kernel.record, threadEnqueue, hwu]

theorem procDelete (k : Kernel) (p : Pcb) : Aside P k (MikaBoo.procDelete k p).2 := by
  unfold MikaBoo.procDelete
  split <;> exact .of_eq (fun _ _ => rfl) rfl rfl rfl

theorem createProcessS (C : k.kept.Rolls) (h : MikaBoo.createProcessS k st t = .ok (o, k')) :
    Aside (· ∉ k.view.threads .free) k k' := by
  obtain ⟨⟨q, k₁⟩, hk₁, h'⟩ := bind_eq_ok.mp h
  rcases Deeds.procAlloc C (fun p hp => C.tree.owner_alive (t := t) hp) hk₁ with
    ⟨rfl, rfl⟩ | ⟨p, r, rfl, hr, ha, hkept⟩
  · cases h'
    exact .refl _
  · have h₁ : Aside (· ∉ k.view.threads .free) k k₁ := by
      obtain ⟨_, _, hk₁⟩ := bind_eq_ok.mp hk₁
      split at hk₁ <;> cases hk₁
      exact .of_eq (fun _ _ => rfl) rfl rfl rfl
    obtain ⟨⟨o', k₂⟩, hk₂, h''⟩ := bind_eq_ok.mp h'
    have C₁ : k₁.kept.Rolls := C.run (Deeds.one ha hkept)
    have hfree : k₁.view.threads .free = k.view.threads .free := by
      change k₁.kept.view.threads .free = k.kept.view.threads .free
      rw [hkept]
      rfl
    have h₂ := rawCreateThreadS C₁ hk₂
    rw [hfree] at h₂
    cases o' with
    | none =>
        cases h''
        exact (h₁.trans h₂).trans (procDelete k₂ p)
    | some u =>
        cases h''
        exact h₁.trans h₂

theorem rawSetmgr (role : Role) {r : Option Value}
    (hset : ∀ m, o = some m → ((k.tcb t).tPcb.bind fun p => role.get (k.pcb p)) = none)
    (h : MikaBoo.rawSetmgr role.get role.set fuel k o t = .ok (r, k')) : Aside P k k' := by
  cases o with
  | none =>
      cases h
      exact .refl k
  | some m =>
      have hnone := hset m rfl
      simp only [MikaBoo.rawSetmgr] at h
      cases hp : (k.tcb t).tPcb with
      | none => simp [hp] at h
      | some p =>
          have hm : role.get (k.pcb p) = none := by simpa [hp] using hnone
          simp only [hp, hm] at h
          cases h
          exact .of_eq (fun _ _ => rfl) rfl rfl rfl

/-- A service that frees nobody. -/
theorem service {q : Request} {msg : Value} {r : Option Value} (C : k.kept.Rolls)
    (hterm : k.terminated t msg q = none) (hq : q ≠ .terminateThread)
    (h : MikaBoo.service fuel k t msg q = .ok (r, k')) :
    Aside (· ∉ k.view.threads .free) k k' := by
  cases q with
  | getErrno | getCputime =>
      cases h
      exact .refl k
  | waitForClock =>
      cases h
      exact .of_eq (fun _ _ => rfl) rfl rfl rfl
  | createProcess =>
      obtain ⟨_, _, h⟩ := bind_eq_ok.mp h
      obtain ⟨_, _, h⟩ := bind_eq_ok.mp h
      obtain ⟨_, hk, h⟩ := bind_eq_ok.mp h
      cases h
      exact createProcessS C hk
  | createThread =>
      obtain ⟨_, _, h⟩ := bind_eq_ok.mp h
      obtain ⟨_, _, h⟩ := bind_eq_ok.mp h
      obtain ⟨_, hk, h⟩ := bind_eq_ok.mp h
      cases h
      exact rawCreateThreadS C hk
  | terminateProcess =>
      obtain ⟨_, hk, h⟩ := bind_eq_ok.mp h
      unfold terminateProcessS at hk
      have hp : (k.tcb t).tPcb = none := hterm
      simp [hp] at hk
  | terminateThread => exact absurd rfl hq
  | setpgmmgr | settlbmgr | setsysmgr =>
      obtain ⟨v, hv, h⟩ := bind_eq_ok.mp h
      obtain ⟨o, ho, h⟩ := bind_eq_ok.mp h
      exact rawSetmgr _ (Kernel.manager_eq_none hterm rfl (bind_eq_ok.mpr ⟨v, hv, ho⟩)) h
  | doIo =>
      obtain ⟨_, _, h⟩ := bind_eq_ok.mp h
      obtain ⟨_, _, h⟩ := bind_eq_ok.mp h
      obtain ⟨_, _, h⟩ := bind_eq_ok.mp h
      obtain ⟨_, _, h⟩ := bind_eq_ok.mp h
      obtain ⟨_, hk, h⟩ := bind_eq_ok.mp h
      cases h
      unfold doIoS at hk
      split at hk
      · dsimp only at hk
        split at hk <;> cases hk
        exact .of_eq (fun _ _ => rfl) rfl rfl rfl
      · cases hk
  | getProcessid | getParentprocid =>
      obtain ⟨_, _, h⟩ := bind_eq_ok.mp h
      obtain ⟨_, _, h⟩ := bind_eq_ok.mp h
      cases h
      exact .refl k
  | getMythreadid =>
      obtain ⟨_, _, h⟩ := bind_eq_ok.mp h
      cases h
      exact .refl k

end Aside

/-! ## Terminations -/

/-- What a service does to contexts and payload words. Its observations `hist` say
which threads it creates, and which ones it wakes: for these it writes NULL. -/
structure Blanks (hist : List Obs) (k k' : Kernel) : Prop where
  adds : k.Adds k' hist
  load : ∀ ptr, k'.load ptr = k.load ptr ∨ k'.load ptr = null
  unheard : ∀ u, .allocated u ∉ hist → .received u none null ∉ hist →
    (k'.tcb u).tS = (k.tcb u).tS
  heard : ∀ u, .allocated u ∉ hist → .received u none null ∈ hist →
    (k'.tcb u).tS = { (k.tcb u).tS with a1 := null } ∧
      ((k.tcb u).tS.a3 ≠ null → (k.tcb u).tS.a3.isPayloadPtr = true →
        k'.load (k.tcb u).tS.a3 = null)

namespace Blanks

variable {k k₁ k' : Kernel} {hist hist' : List Obs}

theorem of_eq (hS : ∀ u, (k'.tcb u).tS = (k.tcb u).tS) (hmem : k'.mem = k.mem)
    (hmsg : k'.ssiMsg = k.ssiMsg) (hhist : k'.history = k.history) : Blanks [] k k' where
  adds := by simp [Kernel.Adds, hhist]
  load ptr := Or.inl (congrFun (load_eq hmem hmsg) ptr)
  unheard u _ _ := hS u
  heard u _ hr := by simp at hr

theorem trans (h₁ : Blanks hist k k₁) (h₂ : Blanks hist' k₁ k') : Blanks (hist ++ hist') k k' where
  adds := by
    have ha₁ := h₁.adds
    have ha₂ := h₂.adds
    rw [Kernel.Adds, ha₂, ha₁, List.append_assoc]
  load ptr := by
    rcases h₂.load ptr with h | h
    · rw [h]
      exact h₁.load ptr
    · exact Or.inr h
  unheard u ha hr := by
    simp only [List.mem_append, not_or] at ha hr
    exact (h₂.unheard u ha.2 hr.2).trans (h₁.unheard u ha.1 hr.1)
  heard u ha hr := by
    simp only [List.mem_append, not_or] at ha
    by_cases hr₁ : .received u none null ∈ hist
    · obtain ⟨hS₁, hw₁⟩ := h₁.heard u ha.1 hr₁
      refine ⟨?_, fun hnull hptr => ?_⟩
      · by_cases hr₂ : .received u none null ∈ hist'
        · rw [(h₂.heard u ha.2 hr₂).1, hS₁]
        · rw [h₂.unheard u ha.2 hr₂, hS₁]
      · rcases h₂.load (k.tcb u).tS.a3 with h | h
        · rw [h]
          exact hw₁ hnull hptr
        · exact h
    · have hS₁ := h₁.unheard u ha.1 hr₁
      have h₂' := h₂.heard u ha.2 ((List.mem_append.mp hr).resolve_left hr₁)
      rwa [hS₁] at h₂'

theorem msgqGet {s : Tcb} {d : Option Tcb} {r : Option (Option Tcb × Value)}
    (h : MikaBoo.msgqGet k (some (some s)) d null = .ok (r, k')) : Blanks [] k k' := by
  unfold MikaBoo.msgqGet at h
  split at h
  · cases h
    exact of_eq (fun _ => rfl) rfl rfl rfl
  · obtain ⟨_, _, h⟩ := bind_eq_ok.mp h
    split at h <;> cases h <;> exact of_eq (fun _ => rfl) rfl rfl rfl
  · obtain ⟨_, _, h⟩ := bind_eq_ok.mp h
    split at h <;> cases h <;> exact of_eq (fun _ => rfl) rfl rfl rfl

theorem chore (c : Chore k k') : ∃ hist, Blanks hist k k' := by
  cases c with
  | clean get => exact ⟨[], msgqGet get⟩
  | drop | count | manage | wait | engage => exact ⟨[], of_eq (fun _ => rfl) rfl rfl rfl⟩
  | abort u =>
      let k₁ := k.modTcb u fun d => { d with errno := 1 }
      have hS : ∀ w, (k₁.tcb w).tS = (k.tcb w).tS := fun w =>
        congrFun (Frame.modTcb_field k u (fun d => { d with errno := 1 }) TcbT.tS rfl) w
      have h₁ : Blanks [] k k₁ := of_eq hS rfl rfl rfl
      obtain ⟨htcb, hword, hload, hhist⟩ := resumeThread_effect k₁ u none null
      suffices h₂ : Blanks [.received u none null] k₁ (resumeThread k₁ u none null) from
        ⟨_, h₁.trans h₂⟩
      refine ⟨hhist, hload, ?_, ?_⟩
      · intro w _ hw
        have hwu : w ≠ u := by
          rintro rfl
          simp at hw
        have ht := congrFun htcb w
        rw [Function.update_of_ne hwu] at ht
        exact congrArg TcbT.tS ht
      · intro w _ hw
        obtain rfl : w = u := by simpa using hw
        have ht := congrFun htcb w
        rw [Function.update_self] at ht
        exact ⟨congrArg TcbT.tS ht, hword⟩
  | free t =>
      unfold threadFree
      split
      · exact ⟨[], of_eq (fun _ => rfl) rfl rfl rfl⟩
      · split
        · exact ⟨[], of_eq (fun _ => rfl) rfl rfl rfl⟩
        · have hS : ∀ w, ((cleanThreadData k t).tcb w).tS = (k.tcb w).tS := fun w =>
            congrFun (Frame.modTcb_field k t _ TcbT.tS rfl) w
          exact ⟨[.freed t], rfl, fun ptr => Or.inl (congrFun (load_eq rfl rfl) ptr),
            fun w _ _ => hS w, fun w _ hw => by simp at hw⟩
  | delete p =>
      unfold procDelete
      split <;> exact ⟨[], of_eq (fun _ => rfl) rfl rfl rfl⟩
  | alloc alloc =>
      obtain ⟨_, _, h⟩ := bind_eq_ok.mp alloc
      split at h <;> cases h <;> exact ⟨[], of_eq (fun _ => rfl) rfl rfl rfl⟩
  | @create _ _ t s alloc =>
      obtain ⟨_, _, h⟩ := bind_eq_ok.mp alloc
      split at h <;> cases h
      refine ⟨[.allocated t], rfl, fun ptr => Or.inl (congrFun (load_eq rfl rfl) ptr), ?_, ?_⟩
      · intro w hw _
        have hwt : w ≠ t := by
          rintro rfl
          simp at hw
        simp [threadEnqueue, Kernel.modTcb, Kernel.record, hwt]
      · intro w _ hw
        simp at hw

theorem chores (cs : Chores k k') : ∃ hist, Blanks hist k k' := by
  induction cs with
  | refl => exact ⟨[], of_eq (fun _ => rfl) rfl rfl rfl⟩
  | tail _ c ih =>
      obtain ⟨hist, h⟩ := ih
      obtain ⟨hist', h'⟩ := chore c
      exact ⟨_, h.trans h'⟩

end Blanks

/-! ## Steps -/

/-- The end of a kernel entry concerns no thread but that it loads the context of
the one it starts. -/
theorem leave_contexts {P : Tcb → Prop} {k k' : Kernel} {x : Exit} (h : leave k x = .ok k') :
    Aside P k k' ∧ (x = .schedule → ∀ t, k'.currentThread = some t → k'.cpu = (k'.tcb t).tS) ∧
      (x ≠ .schedule → k'.currentThread = k.currentThread) := by
  cases x with
  | resume s =>
      cases h
      exact ⟨.of_eq (fun _ _ => rfl) rfl rfl rfl, (by rintro ⟨⟩), fun _ => rfl⟩
  | schedule =>
      obtain ⟨⟨o, k₁⟩, hk₁, h⟩ := bind_eq_ok.mp h
      have h₁ : Aside P k k₁ := by
        obtain ⟨_, _, hk₁⟩ := bind_eq_ok.mp hk₁
        split at hk₁ <;> cases hk₁ <;> exact .of_eq (fun _ _ => rfl) rfl rfl rfl
      cases o with
      | some t =>
          cases h
          refine ⟨h₁.trans (.of_eq (fun _ _ => rfl) rfl rfl rfl), fun _ u hu => ?_,
            fun hx => absurd rfl hx⟩
          obtain rfl := Option.some.inj hu
          rfl
      | none =>
          simp only [emptyReadyqH] at h
          split at h
          · cases h
          · split at h
            · cases h
            · obtain ⟨_, _, h⟩ := bind_eq_ok.mp h
              cases h
              exact ⟨h₁.trans (.of_eq (fun _ _ => rfl) rfl rfl rfl), (by rintro _ _ ⟨⟩),
                fun hx => absurd rfl hx⟩

namespace Good

variable {k k' : Kernel} {e : Event} {fuel : Nat} {t u : Tcb}

/-- The survivors of a termination are woken with NULL, or left alone. -/
theorem spectates_reaped (H : Good k) (hr : Regular k .ssi) (hv : k.casualties .ssi ≠ [])
    (h : MikaBoo.step fuel k .ssi = .ok k') (hu : u ∉ k.casualties .ssi) : Spectates k k' u := by
  obtain ⟨t, _, ha, hall, hreaped⟩ := H.reaped hr hv h
  obtain ⟨q, hq⟩ : ∃ q, k.request = some q := by
    cases hq : k.request with
    | none => simp [Kernel.casualties, hq] at hv
    | some q => exact ⟨q, rfl⟩
  obtain ⟨es, hes, run⟩ := hreaped.run
  obtain ⟨_, k₁, r, hk₁, hk'⟩ := ssi_step ha hq h
  have hsilent : r = none := by
    rw [Kernel.casualties_of_request ha hq] at hv
    exact (Served.of_service (k := { k with ssiPoint := .receiving }) H.rolls hk₁).silent hv
  obtain rfl : k' = k₁ := by
    rcases hk' with ⟨_, hk'⟩ | ⟨_, _, hsome, _⟩
    · exact hk'
    · rw [hsilent] at hsome
      cases hsome
  obtain ⟨hist, B⟩ := Blanks.chores (.service hk₁)
  obtain ⟨hist', hh, hkind, _, hheard⟩ := View.history_of_run run
  obtain rfl : hist' = hist := List.append_cancel_left (hh.symm.trans B.adds)
  have hkill : ∀ q, .kill u q ∉ es := by
    intro q hq
    refine hu (hes ▸ List.mem_filterMap.mpr ⟨_, hq, rfl⟩)
  have hnew : .allocated u ∉ hist' := by
    intro hm
    rcases hkind _ hm with ⟨_, h⟩ | ⟨_, h⟩ <;> cases h
  have S := View.survives_of_run run hkill
  by_cases ho : View.Orphaned (Kernel.view { k with ssiPoint := .receiving }) es u
  · right
    obtain ⟨w, _, _, hm⟩ := id ho
    obtain ⟨htcb, _⟩ := S.woken ho
    have htcb' : k'.tcb u = View.aborted (k.tcb u) := htcb
    have hrec := (hheard u hkill).1.mpr ho
    obtain ⟨_, hword⟩ := B.heard u hnew hrec
    refine ⟨none, null, (H.inv.scheduled.fits hm).1, ?_, ?_, ?_, hword, hist', hh, hrec, by rintro _ ⟨⟩⟩
    · rw [htcb']
      rfl
    · rw [htcb']
      rfl
    · rw [htcb']
      rfl
  · left
    obtain ⟨htcb, _⟩ := S.kept ho
    have htcb' : k'.tcb u = k.tcb u := htcb
    exact ⟨by rw [htcb'], by rw [htcb'], by rw [htcb']⟩

/-- A kernel step resumes a thread that does not run from its blocked receive, or
leaves its context alone. -/
theorem spectates (H : Good k) (hr : Regular k e) (he : ∀ t s, e ≠ .edit t s)
    (h : MikaBoo.step fuel k e = .ok k') (hcur : k.currentThread ≠ some u)
    (hlive : u ∉ k.view.threads .free) (hu : u ∉ k.casualties e) : Spectates k k' u := by
  cases hs : k.serves e with
  | false =>
      obtain ⟨⟨x, k₁⟩, hk₁, h⟩ := bind_eq_ok.mp h
      exact ((H.stopped hs he hk₁).others u hcur).within (P := fun _ => True) (.refl k)
        (leave_contexts h).1 trivial
  | true =>
      by_cases hv : k.casualties e = []
      · rcases step_served H.rolls h with ⟨hs', _⟩ | ⟨t, q, r, rfl, _, ha, hq, _⟩
        · rw [hs] at hs'
          cases hs'
        · rw [Kernel.casualties_of_request ha hq] at hv
          obtain ⟨_, k₁, r, hk₁, hk'⟩ := ssi_step ha hq h
          let k₀ : Kernel := { k with ssiPoint := .receiving }
          have hterm : k₀.terminated t k.ssiMsg q = none :=
            Kernel.terminated_eq_none (k := k₀) (q := q) H.rolls
              (by simp [show k₀.victims t k.ssiMsg q = [] from hv])
          have hq' : q ≠ .terminateThread := by
            rintro rfl
            have hterm' : k.terminated t k.ssiMsg .terminateThread = none := hterm
            simp [Kernel.victims, hterm'] at hv
          have h₀ : Aside (· ∉ k.view.threads .free) k k₀ := .of_eq (fun _ _ => rfl) rfl rfl rfl
          have h₁ : Aside (· ∉ k.view.threads .free) k₀ k₁ :=
            Aside.service (k := k₀) H.rolls hterm hq' hk₁
          rcases hk' with ⟨_, rfl⟩ | ⟨_, k₂, _, hk₂, rfl⟩
          · exact Or.inl ((h₀.trans h₁).unaltered hlive)
          · exact (Spectates.msgsend hk₂ u).within (h₀.trans h₁)
              (.of_eq (fun _ _ => rfl) rfl rfl rfl) hlive
      · obtain ⟨_, rfl, _⟩ := H.reaped hr hv h
        exact H.spectates_reaped hr hv h hu

/-- The thread that an event stops is saved as `stopped` says. -/
theorem departs (H : Good k) (h : MikaBoo.step fuel k e = .ok k') (hc : k.currentThread = some t)
    (hleaves : (k.ending e).isSome ∨ k'.currentThread ≠ some t) :
    (k.stopped e).Saved (k'.tcb t) := by
  obtain ⟨⟨x, k₁⟩, hk₁, h⟩ := bind_eq_ok.mp h
  obtain ⟨ha, _, hstays⟩ := leave_contexts (P := fun _ => True) h
  have hsame : x ≠ .schedule → k₁.currentThread = k.currentThread → k.ending e = none → False := by
    intro hx hk hnone
    have hk' := (hstays hx).trans (hk.trans hc)
    simp [hnone, hk'] at hleaves
  rcases entry_spares hk₁ with ⟨hs, hx, _⟩ | ⟨hs, hx, S⟩
  · have hr : Regular k e := by
      cases e with
      | ssi => simp [Regular, request_of_idle hs]
      | _ => trivial
    have hsched : x = .schedule := by
      by_contra hne
      have hstill : k.reschedules e = false := by
        rw [← hx]
        cases x with
        | schedule => exact absurd rfl hne
        | resume s => rfl
      refine hsame hne (H.entry hr hk₁).1.thread ?_
      cases e with
      | interrupt pending => simp_all [Kernel.reschedules, Kernel.ending]
      | start => cases hstill
      | _ => simpa [Kernel.reschedules] using hstill
    have hedit : ∀ u s, e ≠ .edit u s := by
      rintro u s rfl
      subst hsched
      cases hx
    rw [ha.tcb t trivial]
    exact (H.stopped hs hedit hk₁).saved hsched t hc
  · have hnone : k.ending e = none := by
      cases e <;> simp_all [Kernel.serves, Kernel.ending]
    refine (hsame ?_ (congrArg Processor.currentThread S.processor) hnone).elim
    rintro rfl
    cases hx

end Good

end MikaBoo
