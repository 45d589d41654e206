import MikaBoo.Abstract.Casualties

/-!
# Arrivals in the ready queue

What a kernel entry does to the ready queue: the threads that it terminates leave
it, all others keep their places, and newcomers are put behind them.
-/

namespace MikaBoo

open Intrusive Fuel Transition

/-- The ready queue, in the order of its links. -/
def Kernel.readyq (k : Kernel) : List Tcb := k.view.sched .readyq

theorem Refines.readyq {k : Kernel} {v : View} (R : Refines k v) :
    k.readyq = v.sched .readyq := by
  rw [Kernel.readyq, ← R.eq_view]

theorem Kernel.readyq_eq {k k' : Kernel} (h : k'.schedLinks = k.schedLinks) :
    k'.readyq = k.readyq := by
  simp only [Kernel.readyq, Kernel.view, h]

/-- A handler that leaves the links of the queues alone. -/
theorem Kernel.readyq_prefix {k k' : Kernel} (h : k'.schedLinks = k.schedLinks) :
    k.readyq <+: k'.readyq := by
  rw [readyq_eq h]

/-! ## Operations on views -/

namespace View

variable {v v' : View} {t : Tcb} {h : SchedQueue}

theorem enqueue_readyq (v : View) (t : Tcb) (h : SchedQueue) :
    v.sched .readyq <+: (v.enqueue t h).sched .readyq := by
  by_cases hh : h = .readyq
  · subst hh
    simp [enqueue]
  · simp [enqueue, Ne.symm hh]

theorem wake_readyq {src : Option Tcb} {pl : Value} (hh : h ≠ .readyq) :
    v.sched .readyq <+: (v.wake t h src pl).sched .readyq := by
  simp [wake, deliver, modTcb, outqueue, enqueue, Ne.symm hh]

/-- A terminated thread is taken out of the ready queue, and those that waited for
it are put at its end. -/
theorem reap_readyq {p : Pcb} (hr : Realised v) (hs : t ∈ v.sched h) :
    ∃ new, (v.reap t p h).sched .readyq = (v.sched .readyq).filter (· ≠ t) ++ new := by
  obtain ⟨k, R⟩ := hr.abort t
  have hnodup := R.sched.nodup .readyq
  have hplace := mem_abort_place hs
  have habort : ((v.drain t).abort t).sched .readyq =
      v.sched .readyq ++ v.sched (.tWait4me t) := by
    simp [abort, drain]
  have herase : (v.reap t p h).sched .readyq =
      (((v.drain t).abort t).sched .readyq).filter (· ≠ t) := by
    by_cases hh : placeAfterAbort t h = .readyq
    · have hf := hnodup.erase_eq_filter t
      simp only [reap, dismiss, retire, addCount, outqueue, hh, Function.update_self]
      rw [hf]
      exact List.filter_congr fun u _ => by simp [bne, beq_eq_decide]
    · have hnot : t ∉ ((v.drain t).abort t).sched .readyq := fun hm =>
        hh (R.sched.disjoint hplace hm)
      rw [List.filter_eq_self.mpr fun u hu => ?_]
      · simp [reap, dismiss, retire, addCount, outqueue, Ne.symm hh]
      · rw [decide_eq_true_iff]
        rintro rfl
        exact hnot hu
  exact ⟨(v.sched (.tWait4me t)).filter (· ≠ t), by rw [herase, habort, List.filter_append]⟩

theorem clean_sched (v : View) (t : Tcb) (d : Option Tcb) : (v.clean t d).sched = v.sched := rfl

/-- A termination takes its victims out of the ready queue. -/
theorem readyq_of_run {a : Option Tcb} {es : List Reaping} (run : Run (ReapStep a) v es v') :
    ∃ new, v'.sched .readyq =
      (v.sched .readyq).filter (· ∉ es.filterMap Reaping.victim?) ++ new := by
  induction run with
  | nil => exact ⟨[], by simp⟩
  | snoc run last ih =>
      obtain ⟨new, hnew⟩ := ih
      cases last with
      | orphan => exact ⟨new, by simpa [Reaping.victim?, View.orphan] using hnew⟩
      | @kill t p h hr ht hs =>
          obtain ⟨new', hnew'⟩ := reap_readyq (p := p) (hr.clean t _) hs
          refine ⟨new.filter (· ≠ t) ++ new', ?_⟩
          rw [hnew', clean_sched, hnew, List.filter_append, List.filter_filter,
            List.append_assoc]
          congr 2
          funext u
          simp [Reaping.victim?, and_comm, not_or]

end View

/-! ## Handlers -/

theorem deliverMsg_schedLinks {k k' : Kernel} {d : Tcb} {s : Option Tcb} {pl : Value} {w : Word}
    (h : MikaBoo.deliverMsg k d s pl = .ok (w, k')) : k'.schedLinks = k.schedLinks := by
  obtain ⟨⟨r, k₁⟩, hk₁, h⟩ := bind_eq_ok.mp h
  have h₁ : k₁.schedLinks = k.schedLinks := by
    obtain ⟨_, _, hk₁⟩ := bind_eq_ok.mp hk₁
    split at hk₁ <;> cases hk₁ <;> rfl
  dsimp only at h
  split at h <;> cases h <;> exact h₁

namespace Goes

variable {scope : Scope} {c : Config} {k k' : Kernel} {r : Option Tcb} {t d : Tcb} {fuel : Nat}
  {x : Exit} {s : Option Tcb} {pl : Value}

/-- A thread that was in no queue is put in one. -/
theorem enqueue_readyq (G : Goes scope c k r) (ht : ∀ h, t ∉ k.view.sched h) (h : SchedQueue) :
    k.readyq <+: (threadEnqueue k t h).readyq := by
  rw [(G.refines.enqueue ht h).readyq]
  exact View.enqueue_readyq k.view t h

/-- A thread that is resumed was not in the ready queue, and is put at its end. -/
theorem send_readyq {w : Word} (G : Goes scope c k r)
    (h : MikaBoo.send k d s pl = .ok (w, k')) : k.readyq <+: k'.readyq := by
  obtain ⟨⟨w', k₁⟩, hk₁, h⟩ := bind_eq_ok.mp h
  cases h
  have hrecord : ∀ o, (k₁.record o).readyq = k₁.readyq := fun _ => Kernel.readyq_eq rfl
  rw [hrecord]
  unfold sendSwitch at hk₁
  split at hk₁
  · exact Kernel.readyq_prefix (deliverMsg_schedLinks hk₁)
  · rename_i hblocked
    split at hk₁
    · cases hk₁
      have hblocked' : (k.view.tcb d).tStatus = .w4msg := hblocked
      have hoff : r ≠ some d := by
        intro hr
        rw [G.inv.scheduled.running hr] at hblocked'
        cases hblocked'
      obtain ⟨q, hq⟩ := (G.inv.scheduled.somewhere (by simp [hblocked'])).resolve_left hoff
      have hready : q ≠ .readyq := by
        rintro rfl
        have hfits : (k.view.tcb d).tStatus = .ready := G.inv.scheduled.fits hq
        rw [hblocked'] at hfits
        cases hfits
      rw [(G.refines.resumeThread (s := s) (p := pl) hq).readyq]
      exact View.wake_readyq hready
    · exact Kernel.readyq_prefix (deliverMsg_schedLinks hk₁)
  · cases hk₁
    exact List.prefix_refl _

theorem msgsend_readyq {caller : State} (G : Goes scope c k r)
    (h : MikaBoo.msgsend k caller d pl = .ok k') : k.readyq <+: k'.readyq := by
  obtain ⟨⟨w, k₂⟩, hk₂, h⟩ := bind_eq_ok.mp h
  cases h
  let k₁ : Kernel := { k.enter with sysbkOldarea :=
    { caller with a1 := SYS_SEND, a2 := .tcb d, a3 := pl, a4 := null } }
  have G₁ : Goes scope c k₁ r := G.same { G.refines with }
  have h₁ : k.readyq <+: k₂.readyq := G₁.send_readyq (k := k₁) hk₂
  exact h₁

theorem recv_readyq {src : Option Tcb} {ptr : Value} (G : Goes scope c k (some t))
    (hc : k.currentThread = some t) (h : MikaBoo.recv fuel k src ptr = .ok (x, k')) :
    k.readyq <+: k'.readyq := by
  simp only [MikaBoo.recv, hc] at h
  split at h
  · cases h
  · cases hp : k.view.pick src t with
    | some m =>
        obtain ⟨k₁, hk₁, R₁⟩ := G.refines.msgqGet_some (p := ptr) hp
        simp only [hk₁, ok_bind, Except.ok.injEq, Prod.mk.injEq] at h
        obtain ⟨rfl, rfl⟩ := h
        have h₁ : k₁.readyq = k.readyq := R₁.readyq
        rw [← h₁]
        exact Kernel.readyq_prefix rfl
    | none =>
        let f : TcbT → TcbT := fun d =>
          { d with tS := k.sysbkOldarea, tStatus := .w4msg, tWait4sender := src
                   runTime := d.runTime + k.timer }
        let k₂ : Kernel := { k with timeSliceLeft := k.timer }.modTcb t f
        have h' : (MikaBoo.updateClock fuel k₂ k.timer >>= fun k =>
            .ok (Exit.schedule, threadEnqueue k t (.waiting src))) = .ok (x, k') := by
          rw [← h, G.refines.msgqGet_none hp]
          cases src <;> rfl
        obtain ⟨k₃, hk₃, h'⟩ := bind_eq_ok.mp h'
        obtain ⟨pc, rfl⟩ := updateClock_of_empty (k := k₂) G.clockNext hk₃
        cases h'
        exact G.enqueue_readyq (fun _ hm => G.inv.scheduled.off hm rfl) _

theorem terminateRequest_readyq {tag : Word} (G : Goes scope c k (some t))
    (hc : k.currentThread = some t) (hu : t ≠ .ssi)
    (h : MikaBoo.terminateRequest fuel k tag = .ok (x, k')) : k.readyq <+: k'.readyq := by
  have G₀ : Goes scope c (k.writeReq tag) (some t) := G.same { G.refines with }
  obtain ⟨k₁, hk₁, G₁, hg₁⟩ := G₀.msgsend (a := handlerState) (d := .ssi) (p := .req tag) hc
    G.allocated fun h => absurd h hu
  have hc₁ : k₁.currentThread = some t := (congrArg Globals.currentThread hg₁).trans hc
  have h₁ := G.msgsend_readyq hk₁
  simp only [MikaBoo.terminateRequest, hk₁, ok_bind] at h
  obtain ⟨⟨x₂, k₂⟩, hk₂, h⟩ := bind_eq_ok.mp h
  let k₃ : Kernel := { k₁.enter with sysbkOldarea :=
    { handlerState with a1 := SYS_RECV, a2 := .tcb .ssi, a3 := null, a4 := null } }
  have G₃ : Goes scope c k₃ (some t) := G₁.same { G₁.refines with }
  have h₂ : k₁.readyq <+: k₂.readyq := G₃.recv_readyq (k := k₃) hc₁ hk₂
  cases x₂ with
  | resume _ => cases h
  | schedule =>
      cases h
      exact h₁.trans h₂

/-- A thread that is passed up goes to `blockedq`. -/
theorem passUp_readyq (G : Goes scope c k (some t)) :
    k.readyq <+: (threadEnqueue k t .blockedq).readyq :=
  G.enqueue_readyq (fun _ hm => G.inv.scheduled.off hm rfl) _

theorem rawTrapH_readyq {mgr : Option Tcb} {oldarea : State} (G : Goes scope c k (some t))
    (hc : k.currentThread = some t) (hu : t ≠ .ssi)
    (h : MikaBoo.rawTrapH fuel k mgr oldarea = .ok (x, k')) : k.readyq <+: k'.readyq := by
  simp only [MikaBoo.rawTrapH, hc] at h
  cases mgr with
  | none => exact G.terminateRequest_readyq hc hu h
  | some m =>
      have G₁ := G.modTcb (t := t) (f := fun d => { d with tS := oldarea.stepBack })
        ⟨rfl, rfl, rfl⟩ (Or.inl rfl)
      obtain ⟨k₂, hk₂, G₂, _⟩ := G₁.msgsend (a := handlerState) (d := m) (p := .tS t) hc
        G₁.allocated fun h => absurd h hu
      simp only [hk₂, ok_bind] at h
      cases h
      have h₁ : k.readyq <+: k₂.readyq := G₁.msgsend_readyq hk₂
      exact h₁.trans G₂.passUp_readyq

theorem pgmtrapH_readyq (G : Goes scope c k (some t)) (hc : k.currentThread = some t)
    (hu : t ≠ .ssi) (h : MikaBoo.pgmtrapH fuel k = .ok (x, k')) : k.readyq <+: k'.readyq := by
  obtain ⟨_, _, h⟩ := bind_eq_ok.mp h
  exact G.rawTrapH_readyq hc hu h

theorem tlbtrapH_readyq (G : Goes scope c k (some t)) (hc : k.currentThread = some t)
    (hu : t ≠ .ssi) (h : MikaBoo.tlbtrapH fuel k = .ok (x, k')) : k.readyq <+: k'.readyq := by
  obtain ⟨_, _, h⟩ := bind_eq_ok.mp h
  exact G.rawTrapH_readyq hc hu h

theorem raiseReservedInstruction_readyq (G : Goes scope c k (some t))
    (hc : k.currentThread = some t) (hu : t ≠ .ssi)
    (h : MikaBoo.raiseReservedInstruction fuel k = .ok (x, k')) : k.readyq <+: k'.readyq := by
  let k₁ : Kernel := { k with
    pgmtrapOldarea := { k.sysbkOldarea with cp15Cause := EXC_RESERVEDINSTR } }
  have G₁ : Goes scope c k₁ (some t) := G.same { G.refines with }
  exact G₁.pgmtrapH_readyq (k := k₁) hc hu h

theorem syscallOther_readyq {a₁ a₂ a₃ a₄ : Value} (G : Goes scope c k (some t))
    (hc : k.currentThread = some t) (hu : t ≠ .ssi)
    (h : MikaBoo.syscallOther fuel k a₁ a₂ a₃ a₄ = .ok (x, k')) : k.readyq <+: k'.readyq := by
  simp only [MikaBoo.syscallOther, hc] at h
  obtain ⟨p, hp, h⟩ := bind_eq_ok.mp h
  cases hsys : (k.pcb p).sysMgr with
  | some m =>
      simp only [hsys] at h
      let k₁ : Kernel := (k.modTcb t fun d => { d with tS := k.sysbkOldarea }).writeSysMsg
        [a₁, a₂, a₃, a₄]
      have G₀ := G.modTcb (t := t) (f := fun d => { d with tS := k.sysbkOldarea })
        ⟨rfl, rfl, rfl⟩ (Or.inl rfl)
      have G₁ : Goes scope c k₁ (some t) := G₀.same { G₀.refines with }
      obtain ⟨w, k₂, hk₂, G₂, _⟩ := G₁.send (d := m) (p := .sysMsg) G₁.allocated
        fun h => absurd h hu
      rw [show MikaBoo.send _ m (some t) .sysMsg = .ok (w, k₂) from hk₂] at h
      cases h
      have h₁ : k.readyq <+: k₂.readyq := G₁.send_readyq hk₂
      exact h₁.trans G₂.passUp_readyq
  | none =>
      cases hpgm : (k.pcb p).pgmMgr with
      | some m =>
          simp only [hsys, hpgm] at h
          have G₁ := G.modTcb (t := t) (f := fun d => { d with tS := k.sysbkOldarea.stepBack })
            ⟨rfl, rfl, rfl⟩ (Or.inl rfl)
          obtain ⟨w, k₂, hk₂, G₂, _⟩ := G₁.send (d := m) (p := .tS t) G₁.allocated
            fun h => absurd h hu
          rw [show MikaBoo.send _ m (some t) (.tS t) = .ok (w, k₂) from hk₂] at h
          cases h
          have h₁ : k.readyq <+: k₂.readyq := G₁.send_readyq hk₂
          exact h₁.trans G₂.passUp_readyq
      | none =>
          simp only [hsys, hpgm] at h
          exact G.terminateRequest_readyq hc hu h

theorem syscallH_readyq (G : Goes scope c k (some t)) (hc : k.currentThread = some t)
    (hu : t ≠ .ssi) (h : MikaBoo.syscallH fuel k = .ok (x, k')) : k.readyq <+: k'.readyq := by
  unfold MikaBoo.syscallH at h
  dsimp only at h
  split at h
  · exact G.raiseReservedInstruction_readyq hc hu h
  · split at h
    · unfold MikaBoo.sendKernel at h
      split at h
      · obtain ⟨d, _, h⟩ := bind_eq_ok.mp h
        cases d with
        | none => cases h
        | some d =>
            obtain ⟨⟨w, k₂⟩, hk₂, h⟩ := bind_eq_ok.mp h
            cases h
            have h₁ : k.readyq <+: k₂.readyq := G.send_readyq hk₂
            exact h₁
      · exact G.raiseReservedInstruction_readyq hc hu h
    · split at h
      · unfold MikaBoo.recvKernel at h
        split at h
        · obtain ⟨_, _, h⟩ := bind_eq_ok.mp h
          exact G.recv_readyq hc h
        · exact G.raiseReservedInstruction_readyq hc hu h
      · exact G.syscallOther_readyq hc hu h

/-- A thread whose time slice is over goes to the end of the ready queue. -/
theorem intervalTimerH_readyq (G : Goes scope c k r) (hc : k.currentThread = r)
    (hu : r ≠ some .ssi) (h : MikaBoo.intervalTimerH fuel k = .ok (x, k')) :
    k.readyq <+: k'.readyq := by
  simp only [MikaBoo.intervalTimerH, hc] at h
  obtain ⟨k₂, hk₂, h⟩ := bind_eq_ok.mp h
  cases h
  cases r with
  | none =>
      obtain ⟨pc, rfl⟩ := updateClock_of_empty G.clockNext hk₂
      exact Kernel.readyq_prefix rfl
  | some t =>
      let f : TcbT → TcbT := fun d =>
        { d with tS := k.intOldarea, runTime := d.runTime + k.clockPerTimeslice }
      have G₁ := G.modTcb (t := t) (f := f) ⟨rfl, rfl, rfl⟩ (Or.inl rfl)
      have hoff : ∀ h, t ∉ (k.modTcb t f).view.sched h :=
        fun _ hm => G₁.inv.scheduled.off hm rfl
      have G₂ := G₁.act (.preempt (by simpa using hu)) (G₁.refines.enqueue hoff .readyq)
      obtain ⟨pc, rfl⟩ := updateClock_of_empty G₂.clockNext hk₂
      exact G₁.enqueue_readyq hoff .readyq

theorem acknowledge_readyq {i : Fin 5} (G : Goes scope c k r)
    (h : MikaBoo.acknowledge k i = .ok (x, k')) : k.readyq <+: k'.readyq := by
  unfold MikaBoo.acknowledge at h
  obtain ⟨_, _, h⟩ := bind_eq_ok.mp h
  split at h
  · cases h
  · obtain ⟨⟨w, k₂⟩, hk₂, h⟩ := bind_eq_ok.mp h
    obtain ⟨_, _, h⟩ := bind_eq_ok.mp h
    let k₁ : Kernel := { k with transmCommand := DEV_C_ACK }
    have G₁ : Goes scope c k₁ r := G.same { G.refines with }
    have h₁ : k.readyq <+: k₂.readyq := G₁.send_readyq (k := k₁) hk₂
    dsimp only at h
    split at h
    · cases h
      exact h₁
    · split at h <;> cases h
      exact h₁

theorem interruptH_readyq {pending : Fin 5 → Word} (G : Goes scope c k r)
    (hc : k.currentThread = r) (hu : r ≠ some .ssi)
    (h : MikaBoo.interruptH fuel k pending = .ok (x, k')) : k.readyq <+: k'.readyq := by
  let k₁ : Kernel := { k with timeSliceLeft := k.timer }
  have G₁ : Goes scope c k₁ r := G.same { G.refines with }
  unfold MikaBoo.interruptH at h
  dsimp only at h
  split at h
  · unfold ioH at h
    split at h
    · exact G₁.acknowledge_readyq (k := k₁) h
    · cases h
  · exact G₁.intervalTimerH_readyq (k := k₁) hc hu h

/-- The SSI receives a request, or waits for one. -/
theorem ssi_readyq (G : Goes scope c k (some .ssi)) (hc : k.currentThread = some .ssi)
    (hp : k.ssiPoint = .receiving) (h : MikaBoo.ssi fuel k = .ok (x, k')) :
    k.readyq <+: k'.readyq := by
  simp only [MikaBoo.ssi, hp] at h
  let k₁ : Kernel := { k.enter with
    ssiPoint := .serving
    sysbkOldarea := { k.cpu with a1 := SYS_RECV, a2 := null, a3 := .ssiMsg, a4 := null } }
  have G₁ : Goes scope c k₁ (some .ssi) :=
    G.setGlobals { G.refines with globals := rfl } rfl (Or.inl rfl) fun _ hi => hi
  exact G₁.recv_readyq (k := k₁) hc h

end Goes

/-! ## Services -/

namespace Goes

variable {c : Config} {k k' : Kernel} {r : Option Tcb} {t : Tcb} {fuel : Nat} {st : State}
  {o : Option Tcb}

/-- A thread that is created goes to the end of the ready queue. -/
theorem rawCreateThreadS_readyq {scope : Scope} {proc : Option Pcb} (G : Goes scope c k r)
    (h : MikaBoo.rawCreateThreadS k st proc = .ok (o, k')) : k.readyq <+: k'.readyq := by
  unfold MikaBoo.rawCreateThreadS at h
  by_cases hnone : proc = none ∨ k.view.threads .free = []
  · rw [G.refines.threadAlloc_none hnone] at h
    cases h
    exact List.prefix_refl _
  · rw [not_or] at hnone
    obtain ⟨p, rfl⟩ := Option.ne_none_iff_exists'.mp hnone.1
    obtain ⟨t, rest, hq⟩ := List.exists_cons_of_ne_nil hnone.2
    have ht : t ∈ k.view.threads .free := by simp [hq]
    obtain ⟨k₁, hk₁, R₁⟩ := G.refines.threadAlloc_some (p := p) hq
    rw [hk₁] at h
    cases h
    have hoff : ∀ h, t ∉ k.view.sched h := by
      intro h hm
      exact G.inv.scheduled.allocated hm (G.inv.owned.status.mpr (G.inv.owned.free.mp ht))
    have R₂ := ((R₁.modTcb t fun d => { d with tS := st }).enqueue hoff .readyq).addCount 1
    rw [show Kernel.readyq _ = _ from R₂.readyq]
    exact View.enqueue_readyq _ t .readyq

theorem createProcessS_readyq (G : Goes .create c k r)
    (h : MikaBoo.createProcessS k st t = .ok (o, k')) : k.readyq <+: k'.readyq := by
  unfold MikaBoo.createProcessS at h
  by_cases hnone : (k.tcb t).tPcb = none ∨ k.view.procs .free = []
  · rw [G.refines.procAlloc_none hnone] at h
    cases h
    exact List.prefix_refl _
  · rw [not_or] at hnone
    obtain ⟨parent, hparent⟩ := Option.ne_none_iff_exists'.mp hnone.1
    obtain ⟨p, rest, hq⟩ := List.exists_cons_of_ne_nil hnone.2
    have hfree : p ∈ k.view.procs .free := by simp [hq]
    have hroot := (G.inv.tree.free.mp hfree).1
    obtain ⟨k₁, hk₁, R₁⟩ := G.refines.procAlloc_some parent hq hroot
    rw [hparent, hk₁] at h
    simp only [ok_bind] at h
    have G₁ := G.act (.adopt rfl hfree (G.inv.tree.owner_alive hparent)) R₁
    obtain ⟨⟨o₂, k₂⟩, hk₂, h'⟩ := bind_eq_ok.mp h
    have h₂ := G₁.rawCreateThreadS_readyq hk₂
    rw [R₁.readyq] at h₂
    cases o₂ with
    | some u =>
        cases h'
        exact h₂
    | none =>
        cases h'
        have h₃ : (procDelete k₂ p).2.readyq = k₂.readyq := by
          apply Kernel.readyq_eq
          unfold procDelete
          split <;> rfl
        rw [h₃]
        exact h₂

theorem rawSetmgr_readyq (role : Role) {v : Option Value}
    (hset : ∀ m, o = some m → ((k.tcb t).tPcb.bind fun p => role.get (k.pcb p)) = none)
    (h : MikaBoo.rawSetmgr role.get role.set fuel k o t = .ok (v, k')) :
    k.readyq <+: k'.readyq := by
  cases o with
  | none =>
      cases h
      exact List.prefix_refl _
  | some m =>
      have hnone := hset m rfl
      simp only [MikaBoo.rawSetmgr] at h
      cases hp : (k.tcb t).tPcb with
      | none => simp [hp] at h
      | some p =>
          have hm : role.get (k.pcb p) = none := by simpa [hp] using hnone
          simp only [hp, hm] at h
          cases h
          exact Kernel.readyq_prefix rfl

/-- A service that frees nobody. -/
theorem service_readyq {q : Request} {msg : Value} {v : Option Value}
    (G : Goes q.scope c k r) (hterm : k.terminated t msg q = none)
    (hq : q ≠ .terminateThread) (hclock : q ≠ .waitForClock)
    (h : MikaBoo.service fuel k t msg q = .ok (v, k')) : k.readyq <+: k'.readyq := by
  cases q with
  | getErrno | getCputime =>
      cases h
      exact List.prefix_refl _
  | waitForClock => exact absurd rfl hclock
  | createProcess =>
      obtain ⟨_, _, h⟩ := bind_eq_ok.mp h
      obtain ⟨_, _, h⟩ := bind_eq_ok.mp h
      obtain ⟨_, hk, h⟩ := bind_eq_ok.mp h
      cases h
      exact G.createProcessS_readyq hk
  | createThread =>
      obtain ⟨_, _, h⟩ := bind_eq_ok.mp h
      obtain ⟨_, _, h⟩ := bind_eq_ok.mp h
      obtain ⟨_, hk, h⟩ := bind_eq_ok.mp h
      cases h
      exact G.rawCreateThreadS_readyq hk
  | terminateProcess =>
      obtain ⟨_, hk, h⟩ := bind_eq_ok.mp h
      unfold MikaBoo.terminateProcessS at hk
      have hp : (k.tcb t).tPcb = none := hterm
      simp [hp] at hk
  | terminateThread => exact absurd rfl hq
  | setpgmmgr | settlbmgr | setsysmgr =>
      obtain ⟨u, hu, h⟩ := bind_eq_ok.mp h
      obtain ⟨o, ho, h⟩ := bind_eq_ok.mp h
      exact rawSetmgr_readyq _
        (Kernel.manager_eq_none hterm rfl (bind_eq_ok.mpr ⟨u, hu, ho⟩)) h
  | doIo =>
      obtain ⟨_, _, h⟩ := bind_eq_ok.mp h
      obtain ⟨_, _, h⟩ := bind_eq_ok.mp h
      obtain ⟨_, _, h⟩ := bind_eq_ok.mp h
      obtain ⟨_, _, h⟩ := bind_eq_ok.mp h
      obtain ⟨_, hk, h⟩ := bind_eq_ok.mp h
      cases h
      unfold MikaBoo.doIoS at hk
      split at hk
      · dsimp only at hk
        split at hk <;> cases hk
        exact Kernel.readyq_prefix rfl
      · cases hk
  | getProcessid | getParentprocid =>
      obtain ⟨_, _, h⟩ := bind_eq_ok.mp h
      obtain ⟨_, _, h⟩ := bind_eq_ok.mp h
      cases h
      exact List.prefix_refl _
  | getMythreadid =>
      obtain ⟨_, _, h⟩ := bind_eq_ok.mp h
      cases h
      exact List.prefix_refl _

end Goes

/-! ## Kernel entries -/

namespace Good

variable {k k' : Kernel} {e : Event} {fuel : Nat} {x : Exit}

/-- A kernel entry that serves no request lets everybody keep their places. -/
theorem handler_readyq (H : Good k) (hs : k.serves e = false)
    (h : MikaBoo.entry fuel k e = .ok (x, k')) : k.readyq <+: k'.readyq := by
  cases e with
  | start | run | elapse | edit =>
      simp only [MikaBoo.entry] at h
      split at h <;> cases h
      exact Kernel.readyq_prefix rfl
  | syscall =>
      simp only [MikaBoo.entry] at h
      split at h
      · rename_i hu
        obtain ⟨i, hi⟩ := user_of_userRuns hu
        let k₁ : Kernel := { k.enter with sysbkOldarea := k.cpu }
        have G : Goes .plain ⟨k.view, k.currentThread⟩ k₁ k.currentThread :=
          H.goes.same { H.refines with }
        rw [hi] at G
        exact G.syscallH_readyq (k := k₁) hi (by simp) h
      · cases h
  | pgmtrap cause =>
      simp only [MikaBoo.entry] at h
      split at h
      · rename_i hu
        obtain ⟨i, hi⟩ := user_of_userRuns hu
        let k₁ : Kernel := { k.enter with pgmtrapOldarea := { k.cpu with cp15Cause := cause } }
        have G : Goes .plain ⟨k.view, k.currentThread⟩ k₁ k.currentThread :=
          H.goes.same { H.refines with }
        rw [hi] at G
        exact G.pgmtrapH_readyq (k := k₁) hi (by simp) h
      · cases h
  | tlbtrap cause =>
      simp only [MikaBoo.entry] at h
      split at h
      · rename_i hu
        obtain ⟨i, hi⟩ := user_of_userRuns hu
        let k₁ : Kernel := { k.enter with tlbOldarea := { k.cpu with cp15Cause := cause } }
        have G : Goes .plain ⟨k.view, k.currentThread⟩ k₁ k.currentThread :=
          H.goes.same { H.refines with }
        rw [hi] at G
        exact G.tlbtrapH_readyq (k := k₁) hi (by simp) h
      · cases h
  | interrupt pending =>
      simp only [MikaBoo.entry] at h
      split at h
      · rename_i hp
        have hssi : k.currentThread ≠ some .ssi := by
          rcases hp.1 with hu | hw
          · obtain ⟨i, hi⟩ := user_of_userRuns hu
            simp [hi]
          · simp [(H.waiting hw).1]
        let k₁ : Kernel := { k.enter with intOldarea := k.cpu }
        have G : Goes .plain ⟨k.view, k.currentThread⟩ k₁ k.currentThread :=
          H.goes.same { H.refines with }
        exact G.interruptH_readyq (k := k₁) rfl hssi h
      · cases h
  | ssi =>
      simp only [MikaBoo.entry] at h
      split at h
      · rename_i hm
        have G : Goes .plain ⟨k.view, k.currentThread⟩ k k.currentThread := H.goes
        rw [hm.2] at G
        have hp : k.ssiPoint = .receiving := by
          cases hp : k.ssiPoint with
          | receiving => rfl
          | serving => simp [Kernel.serves, hp] at hs
        exact G.ssi_readyq hm.2 hp h
      · cases h

/-- A request that frees nobody lets everybody keep their places. -/
theorem serving_readyq {t : Tcb} {q : Request} (H : Good k) (hr : Regular k .ssi)
    (ha : k.applicant = some t) (hq : k.request = some q) (hv : k.casualties .ssi = [])
    (h : MikaBoo.step fuel k .ssi = .ok k') : k.readyq <+: k'.readyq := by
  rw [Kernel.casualties_of_request ha hq] at hv
  obtain ⟨hc, k₁, o, hk₁, hk'⟩ := ssi_step ha hq h
  have hu : t ≠ .ssi := by
    obtain ⟨u, hu, hne⟩ := H.holds hc (point_of_request hq)
    have hut : u = t := by simpa [Kernel.applicant, hu] using ha
    exact hut ▸ hne
  let k₀ : Kernel := { k with ssiPoint := .receiving }
  have G₀ : Goes q.scope ⟨k.view, k.currentThread⟩ k k.currentThread := H.goes
  rw [hc] at G₀
  have G : Goes q.scope ⟨k.view, some .ssi⟩ k₀ (some .ssi) :=
    G₀.setGlobals { G₀.refines with globals := rfl } rfl (Or.inl rfl) fun _ hi => hi
  obtain ⟨hclock, hall⟩ := hr q hq
  have hterm : k₀.terminated t k.ssiMsg q = none :=
    Kernel.terminated_eq_none (k := k₀) (q := q) H.rolls
      (by simp [show k₀.victims t k.ssiMsg q = [] from hv])
  have hthread : q ≠ .terminateThread := by
    rintro rfl
    have hterm' : k.terminated t k.ssiMsg .terminateThread = none := hterm
    simp [Kernel.victims, hterm'] at hv
  have h₁ : k.readyq <+: k₁.readyq :=
    G.service_readyq (k := k₀) hterm hthread hclock hk₁
  rcases hk' with ⟨_, rfl⟩ | ⟨_, k₂, _, hk₂, rfl⟩
  · exact h₁
  · have G₁ := (G.service (k := k₀) hclock hu (fun hs => hall hs t ha) hk₁).1
    have h₂ : k₁.readyq <+: k₂.readyq := G₁.msgsend_readyq hk₂
    exact h₁.trans h₂

/-- The threads that a kernel entry frees leave the ready queue, all others keep
their order, and newcomers go to its end. -/
theorem entry_readyq (H : Good k) (hr : Regular k e)
    (h : MikaBoo.entry fuel k e = .ok (x, k')) :
    ∃ new, k'.readyq = k.readyq.filter (· ∉ k.casualties e) ++ new := by
  have hspared : k.casualties e = [] → k.readyq <+: k'.readyq →
      ∃ new, k'.readyq = k.readyq.filter (· ∉ k.casualties e) ++ new := by
    rintro hv ⟨new, hnew⟩
    exact ⟨new, by simp [hv, hnew]⟩
  cases hs : k.serves e with
  | false => exact hspared (Kernel.casualties_of_idle hs) (H.handler_readyq hs h)
  | true =>
      obtain ⟨st, rfl⟩ : ∃ st, x = .resume st := by
        rcases entry_spares h with ⟨hs', _⟩ | ⟨_, hx, _⟩
        · rw [hs] at hs'
          cases hs'
        · cases x with
          | resume st => exact ⟨st, rfl⟩
          | schedule => cases hx
      have hstep : MikaBoo.step fuel k e = .ok { k' with cpu := st } :=
        bind_eq_ok.mpr ⟨_, h, rfl⟩
      have hsame : Kernel.readyq { k' with cpu := st } = k'.readyq := rfl
      by_cases hv : k.casualties e = []
      · rcases step_served H.rolls hstep with ⟨hs', _⟩ | ⟨t, q, _, rfl, _, ha, hq, _⟩
        · rw [hs] at hs'
          cases hs'
        · have hserved := H.serving_readyq hr ha hq hv hstep
          rw [hsame] at hserved
          exact hspared hv hserved
      · obtain ⟨t, rfl, _, _, hreaped⟩ := H.reaped hr hv hstep
        obtain ⟨es, hes, run⟩ := hreaped.run
        obtain ⟨new, hnew⟩ := View.readyq_of_run run
        rw [hes] at hnew
        exact ⟨new, hnew⟩

end Good

end MikaBoo
