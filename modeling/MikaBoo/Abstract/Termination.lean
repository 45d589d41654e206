import MikaBoo.Abstract.Operations

/-!
# Termination of a thread

The two loops of `__terminate_thread_s` as operations on views, `clean_sys_msg`,
and what they leave alone.
-/

namespace MikaBoo

open Intrusive Fuel

namespace View

/-- The messages in the queue of `t` go back to the free list. -/
def drain (v : View) (t : Tcb) : View :=
  { v with
    msgs := Function.update (Function.update v.msgs (.of t) []) .free
      (v.msgs .free ++ v.msgs (.of t))
    msg := fun m => if m ∈ v.msgs (.of t) then { v.msg m with mSender := none } else v.msg m }

/-- A thread that waited for a terminated thread, once it has been woken. -/
def aborted (d : TcbT) : TcbT :=
  { d with tS := { d.tS with a1 := null }, tStatus := .ready, tWait4sender := none, errno := 1 }

/-- The threads that wait for `t` are woken with an error. -/
def abort (v : View) (t : Tcb) : View :=
  { v with
    sched := Function.update (Function.update v.sched (.tWait4me t) []) .readyq
      (v.sched .readyq ++ v.sched (.tWait4me t))
    tcb := fun u => if u ∈ v.sched (.tWait4me t) then aborted (v.tcb u) else v.tcb u
    history := v.history ++ (v.sched (.tWait4me t)).map fun u => .received u none null }

/-- One round of `abort`, for the thread `u`. -/
def abortOne (v : View) (t u : Tcb) : View :=
  (v.modTcb u fun d => { d with errno := 1 }).wake u (.tWait4me t) none null

/-- Where `t`, queued in `h`, is when the threads that wait for `t` have been woken. -/
def placeAfterAbort (t : Tcb) (h : SchedQueue) : SchedQueue :=
  if h = .tWait4me t then .readyq else h

/-- The thread `t` of `p`, in the queue `h`, is terminated. -/
def reap (v : View) (t : Tcb) (p : Pcb) (h : SchedQueue) : View :=
  ((v.drain t).abort t).dismiss t p (placeAfterAbort t h)

/-- The queue that `clean_sys_msg` searches for a message from `t`, a thread of `p`. -/
def cleanTarget (v : View) (t : Tcb) (p : Pcb) : Option Tcb :=
  if (v.tcb t).tWait4sender = some .ssi then some .ssi
  else if (v.tcb t).tWait4sender = (v.pcb p).sysMgr then (v.pcb p).sysMgr
  else if (v.tcb t).tWait4sender = (v.pcb p).pgmMgr then (v.pcb p).sysMgr
  else none

/-- Free the first message from `t` in the queue of `dest`. -/
def clean (v : View) (t : Tcb) (dest : Option Tcb) : View :=
  let w :=
    match dest with
    | none => v
    | some d =>
        match v.pick (some t) d with
        | none => v
        | some m => v.freeMsg d m
  { v with msgs := w.msgs, msg := w.msg }

/-- The queue searched when `applicant` has the process `p` of `t` terminated. -/
def cleanDest (v : View) (applicant : Option Tcb) (t : Tcb) (p : Pcb) : Option Tcb :=
  if some t ≠ applicant ∧ (v.tcb t).tStatus = .w4msg then v.cleanTarget t p else none

variable {v : View} {t u : Tcb}

theorem drain_nil (hq : v.msgs (.of t) = []) : v.drain t = v := by
  have hm : Function.update (Function.update v.msgs (.of t) []) .free (v.msgs .free) = v.msgs := by
    rw [← hq, Function.update_eq_self, Function.update_eq_self]
  simp [drain, hq, hm]

/-- The first round of a drain. -/
theorem drain_freeMsg {m : Msg} {ms : List Msg} (hq : v.msgs (.of t) = m :: ms) :
    (v.freeMsg t m).drain t = v.drain t := by
  have hm : (v.freeMsg t m).msgs (.of t) = ms := by simp [freeMsg, hq]
  have hf : (v.freeMsg t m).msgs .free = v.msgs .free ++ [m] := by simp [freeMsg]
  unfold drain
  rw [hm, hf, hq]
  simp only [freeMsg, View.mk.injEq, true_and, and_true]
  constructor
  · funext l
    cases l with
    | free => simp
    | of d => by_cases hd : d = t <;> simp [hd]
  · funext n
    by_cases hn : n = m <;> simp [hn]

theorem abort_nil (hq : v.sched (.tWait4me t) = []) : v.abort t = v := by
  have hs : Function.update (Function.update v.sched (.tWait4me t) []) .readyq (v.sched .readyq) =
      v.sched := by
    rw [← hq, Function.update_eq_self, Function.update_eq_self]
  simp [abort, hq, hs]

/-- The first round of an abort. -/
theorem abort_abortOne {us : List Tcb} (hq : v.sched (.tWait4me t) = u :: us) :
    (v.abortOne t u).abort t = v.abort t := by
  have hs : (v.abortOne t u).sched (.tWait4me t) = us := by
    simp [abortOne, wake, deliver, modTcb, outqueue, enqueue, hq]
  have hr : (v.abortOne t u).sched .readyq = v.sched .readyq ++ [u] := by
    simp [abortOne, wake, deliver, modTcb, outqueue, enqueue]
  have hu : (v.abortOne t u).tcb u = aborted (v.tcb u) := by
    simp [abortOne, wake, deliver, modTcb, outqueue, enqueue, aborted, tcbPtr]
  have ho : ∀ w, w ≠ u → (v.abortOne t u).tcb w = v.tcb w := by
    intro w hw
    simp [abortOne, wake, deliver, modTcb, outqueue, enqueue, hw]
  unfold abort
  rw [hs, hr, hq]
  simp only [View.mk.injEq]
  refine ⟨rfl, rfl, ?_, rfl, rfl, ?_, rfl, rfl, ?_⟩
  · funext l
    by_cases hl : l = .readyq
    · simp [hl]
    · by_cases hl' : l = .tWait4me t
      · simp [hl']
      · simp [hl, hl', abortOne, wake, deliver, modTcb, outqueue, enqueue]
  · funext w
    by_cases hw : w = u
    · subst hw
      rw [hu]
      simp [aborted]
    · simp [ho w hw, hw]
  · simp [abortOne, wake, deliver, modTcb, outqueue, enqueue]

@[simp] theorem clean_none : v.clean t none = v := rfl

theorem clean_of_pick_none {d : Tcb} (hp : v.pick (some t) d = none) : v.clean t (some d) = v := by
  simp [clean, hp]

theorem clean_of_pick_some {d : Tcb} {m : Msg} (hp : v.pick (some t) d = some m) :
    v.clean t (some d) = v.freeMsg d m := by
  simp only [clean, hp]
  rfl

theorem mem_abort {h : SchedQueue} : u ∈ (v.abort t).sched h ↔
    u ∈ v.sched h ∧ h ≠ .tWait4me t ∨ u ∈ v.sched (.tWait4me t) ∧ h = .readyq := by
  by_cases hr : h = .readyq
  · simp [abort, hr]
  · by_cases hw : h = .tWait4me t
    · simp [abort, hw]
    · simp [abort, hr, hw]

theorem mem_abort_place {h : SchedQueue} (hs : t ∈ v.sched h) :
    t ∈ ((v.drain t).abort t).sched (placeAfterAbort t h) := by
  rw [mem_abort, placeAfterAbort]
  split
  · rename_i hw
    exact Or.inr ⟨hw ▸ hs, rfl⟩
  · rename_i hw
    exact Or.inl ⟨hs, hw⟩

end View

/-! ## The loops end -/

namespace Refines

variable {k : Kernel} {v : View} {t : Tcb} {h : SchedQueue}

theorem msgsEmpty (R : Refines k v) (t : Tcb) :
    k.msgLinks.listEmpty (.tMsgq t) = (v.msgs (.of t)).isEmpty :=
  R.msgs.listEmpty (.of t)

theorem drainMsgq (R : Refines k v) (t : Tcb) :
    Returns .unfinished (fun n => MikaBoo.drainMsgq n k t) fun k' => Refines k' (v.drain t) := by
  induction hq : v.msgs (.of t) generalizing k v with
  | nil =>
      apply Returns.round (f := fun _ => .ok k) (by rfl)
      · intro n
        simp [MikaBoo.drainMsgq, R.msgsEmpty, hq]
      · rw [View.drain_nil hq]
        exact Returns.of_ok R fun _ => rfl
  | cons m ms ih =>
      have R' := R.msgFree (d := t) (m := m) (by simp [hq])
      apply Returns.round (by rfl)
      · intro n
        simp only [MikaBoo.drainMsgq, R.msgsEmpty, hq, R.msgQhead]
        rfl
      · rw [← View.drain_freeMsg hq]
        exact ih R' (by simp [View.freeMsg, hq])

theorem deliverDirectly (R : Refines k v) (t : Tcb) (src : Option Tcb) (pl : Value) :
    Refines (MikaBoo.deliverDirectly k t src pl) (v.deliver t src pl) := by
  have R' := R.modTcb t fun d => { d with tS := { d.tS with a1 := tcbPtr src } }
  unfold MikaBoo.deliverDirectly
  dsimp only
  split
  · exact R'.record _
  · exact (R'.store _ _).record _

theorem resumeThread {s : Option Tcb} {p : Value} (R : Refines k v) (ht : t ∈ v.sched h) :
    Refines (MikaBoo.resumeThread k t s p) (v.wake t h s p) := by
  have R' := ((R.deliverDirectly t s p).modTcb t fun d =>
    { d with tStatus := .ready, tWait4sender := none }).outqueue (h := h) ht
  exact R'.enqueue (fun h' hm => R.sched.not_mem_erase ht h' hm) .readyq

theorem abortWaiters (R : Refines k v) (t : Tcb) :
    Returns .unfinished (fun n => MikaBoo.abortWaiters n k t) fun k' => Refines k' (v.abort t) := by
  induction hq : v.sched (.tWait4me t) generalizing k v with
  | nil =>
      apply Returns.round (f := fun _ => .ok k) (by rfl)
      · intro n
        simp [MikaBoo.abortWaiters, R.qhead, hq]
      · rw [View.abort_nil hq]
        exact Returns.of_ok R fun _ => rfl
  | cons u us ih =>
      have R' := (R.modTcb u fun d => { d with errno := 1 }).resumeThread (s := none)
        (p := null) (show u ∈ v.sched (.tWait4me t) by simp [hq])
      apply Returns.round (by rfl)
      · intro n
        simp only [MikaBoo.abortWaiters, R.qhead, hq]
        rfl
      · rw [← View.abort_abortOne hq]
        apply ih R'
        simp [View.wake, View.deliver, View.modTcb, View.outqueue, View.enqueue, hq]

theorem addCount (R : Refines k v) (n : Word) :
    Refines { k with threadCount := k.threadCount + n } (v.addCount n) :=
  { R with globals := by simp [View.addCount, Kernel.globals, R.globals] }

/-- `__terminate_thread_s` of a queued thread frees it. -/
theorem rawTerminateThreadS {p : Pcb} (R : Refines k v) (ht : t ∈ v.threads (.of p))
    (hs : t ∈ v.sched h) :
    Returns .unfinished (fun n => MikaBoo.rawTerminateThreadS n k t)
      fun k' => Refines k' (v.reap t p h) := by
  apply (R.drainMsgq t).bind
  intro k₁ R₁
  apply (R₁.abortWaiters t).bind
  intro k₂ R₂
  obtain ⟨k₃, hk₃, R₃⟩ := R₂.threadFree_ok (t := t) (p := p) (h := View.placeAfterAbort t h) ht
    (View.mem_abort_place hs) (by simp [View.abort, View.drain]) (by simp [View.abort])
  have R₄ := R₃.addCount (-1)
  apply Returns.of_ok (P := fun k' => Refines k' (v.reap t p h)) R₄
  intro n
  simp [hk₃, sub_eq_add_neg]

/-- `msgq_get` for a given sender, whether or not the destination is NULL. -/
theorem clean {p : Value} (R : Refines k v) (t : Tcb) (d : Option Tcb) :
    ∃ r k', msgqGet k (some (some t)) d p = .ok (r, k') ∧ Refines k' (v.clean t d) := by
  cases d with
  | none => exact ⟨none, k, rfl, R⟩
  | some d =>
      cases hp : v.pick (some t) d with
      | none => exact ⟨_, _, R.msgqGet_none hp, by rwa [View.clean_of_pick_none hp]⟩
      | some m =>
          obtain ⟨k', hk', R'⟩ := R.msgqGet_some (p := p) hp
          exact ⟨_, k', hk', by rwa [View.clean_of_pick_some hp]⟩

theorem cleanSysMsg {p : Pcb} (R : Refines k v) (hp : (v.tcb t).tPcb = some p) :
    ∃ k', MikaBoo.cleanSysMsg k t = .ok k' ∧ Refines k' (v.clean t (v.cleanTarget t p)) := by
  rw [R.tcb] at hp
  simp only [MikaBoo.cleanSysMsg, View.cleanTarget, R.tcb, R.pcb, hp]
  split
  · obtain ⟨r, k', hk', R'⟩ := R.clean (p := null) t (some .ssi)
    exact ⟨k', by simp [hk'], R'⟩
  · split
    · obtain ⟨r, k', hk', R'⟩ := R.clean (p := null) t (k.pcb p).sysMgr
      exact ⟨k', by simp [hk'], R'⟩
    · split
      · obtain ⟨r, k', hk', R'⟩ := R.clean (p := null) t (k.pcb p).sysMgr
        exact ⟨k', by simp [hk'], R'⟩
      · exact ⟨k, rfl, R⟩

end Refines

/-! ## The invariant -/

namespace View

variable {k : Kernel} {v : View} {r : Option Tcb} {t : Tcb}

theorem Inv.clean (I : v.Inv r) (R : Refines k v) (t : Tcb) (d : Option Tcb) :
    (v.clean t d).Inv r := by
  cases d with
  | none => exact I
  | some d =>
      cases hp : v.pick (some t) d with
      | none => rwa [clean_of_pick_none hp]
      | some m =>
          rw [clean_of_pick_some hp]
          exact I.freeMsg R (mem_of_pick hp)

theorem Inv.drain (I : v.Inv r) (R : Refines k v) (t : Tcb) : (v.drain t).Inv r := by
  induction hq : v.msgs (.of t) generalizing k v with
  | nil => rwa [drain_nil hq]
  | cons m ms ih =>
      have hm : m ∈ v.msgs (.of t) := by simp [hq]
      rw [← drain_freeMsg hq]
      exact ih (I.freeMsg R hm) (R.msgFree hm) (by simp [View.freeMsg, hq])

theorem Inv.abort (I : v.Inv r) (R : Refines k v) (t : Tcb) : (v.abort t).Inv r := by
  induction hq : v.sched (.tWait4me t) generalizing k v with
  | nil => rwa [abort_nil hq]
  | cons u us ih =>
      have hu : u ∈ v.sched (.tWait4me t) := by simp [hq]
      have hw : (v.tcb u).tStatus = .w4msg := (I.scheduled.fits hu).1
      have I' := I.modTcb (t := u) (f := fun d => { d with errno := 1 }) ⟨rfl, rfl, rfl⟩
      have R' := R.modTcb u fun d => { d with errno := 1 }
      rw [← abort_abortOne hq]
      apply ih (I'.wake R' hu _) (R'.resumeThread (s := none) (p := null) hu)
      · simp [View.wake, View.deliver, View.modTcb, outqueue, enqueue, hq]
      · simp [View.modTcb, hw]

end View

end MikaBoo
