import MikaBoo.Abstract.Calls
import MikaBoo.Abstract.Descriptors
import MikaBoo.Abstract.Words
import MikaBoo.Properties.ClockQueue
import MikaBoo.Properties.Messages

/-!
# Waking the threads that wait for the clock

A tick sends every thread in `t_wait4clock` one message, in the name of the thread that
runs. A waiter that is blocked and may take it gets it at once. For another one it is
queued, as long as there are message descriptors.
-/

namespace MikaBoo

open Intrusive Fuel Transition Replay

/-- The threads of `ws` that are blocked in a receive which a message from `r` ends. -/
def Kernel.sleepers (k : Kernel) (r : Tcb) (ws : List Tcb) : List Tcb :=
  ws.filter fun w => (k.tcb w).Awaits r

/-- The allocated threads of `ws` that a message from `r` has to be queued for. -/
def Kernel.busy (k : Kernel) (r : Tcb) (ws : List Tcb) : List Tcb :=
  ws.filter fun w => ¬ (k.tcb w).Awaits r ∧ (k.tcb w).tStatus ≠ .none

/-- What is written when the threads of `ws` are sent NULL by `r`: a word for each that is
blocked for it. -/
def Kernel.wakeWords (k : Kernel) (r : Tcb) (ws : List Tcb) : List (Value × Value) :=
  (k.sleepers r ws).filterMap fun w =>
    Obs.word (fun u => (k.tcb u).tS.a3) (.received w (some r) null)

/-- `w` has got one message from `r`. If it was blocked in a receive, this has come back,
and otherwise the message is pending. -/
def Woken (r : Tcb) (k k' : Kernel) (w : Tcb) : Prop :=
  if (k.tcb w).Awaits r then
    (k'.tcb w).tStatus = .ready ∧ (k'.tcb w).tS.a1 = .tcb r ∧
      received k'.history r w = received k.history r w ++ [null] ∧
      k'.view.pending r w = k.view.pending r w
  else
    received k'.history r w = received k.history r w ∧
      k'.view.pending r w = k.view.pending r w ++ [null]

/-! ## The two queues -/

/-- The queue of the clock is a well-formed list of `ws`, and the ready queue one of `rs` if
that is known. -/
structure Kernel.Queued (k : Kernel) (ws : List Tcb) (rs : Option (List Tcb)) : Prop where
  clock : Lists k.schedLinks .tWait4clock ws
  ready : ∀ r ∈ rs, Lists k.schedLinks .readyq r

/-- The queue of the clock and the ready queue. -/
def tickLayout : Layout Bool Tcb SchedNode where
  head b := SchedQueue.head (if b then .readyq else .tWait4clock)
  link := .tSched
  head_inj := by decide
  link_inj _ _ h := SchedNode.tSched.inj h

/-- The round in which `w` is sent a message. -/
def wakeRound (k : Kernel) (w : Tcb) : Exec Kernel :=
  msgsend (threadOutqueue k w) handlerState w null

namespace Kernel.Queued

variable {k k' : Kernel} {w : Tcb} {ws : List Tcb} {rs : Option (List Tcb)}

theorem represents {rs : List Tcb} (Q : k.Queued ws (some rs)) :
    Represents tickLayout k.schedLinks fun b => if b then rs else ws := by
  have hready : Lists k.schedLinks .readyq rs := Q.ready rs rfl
  refine ⟨?_, ?_, ?_⟩
  · rintro (_ | _)
    · exact Q.clock
    · exact hready
  · intro b b' w hw hw'
    have hfar : w ∈ rs → w ∉ ws := by
      intro hr hc
      refine hready.far Q.clock (by simp) (x := .tSched w) ?_ ?_
      · exact List.mem_cons_of_mem _ (List.mem_map_of_mem hr)
      · exact List.mem_cons_of_mem _ (List.mem_map_of_mem hc)
    cases b <;> cases b'
    · rfl
    · exact absurd hw (hfar hw')
    · exact absurd hw' (hfar hw)
    · rfl
  · rintro _ (_ | _) _ _ h <;> cases h

theorem of_represents {q : Bool → List Tcb} (R : Represents tickLayout k.schedLinks q) :
    k.Queued (q false) (some (q true)) := by
  refine ⟨R.circ false, ?_⟩
  rintro _ ⟨⟩
  exact R.circ true

theorem wake_nil (Q : k.Queued [] rs) (n : Nat) : wakeClockWaiters (n + 1) k = .ok k := by
  have hn : k.schedLinks.listNext .tWait4clock = none := Q.clock.listNext
  simp [wakeClockWaiters, threadDequeue, SchedQueue.head, hn, containerOf]

theorem wake_cons (Q : k.Queued (w :: ws) rs) (n : Nat) :
    wakeClockWaiters (n + 1) k = wakeRound k w >>= wakeClockWaiters n := by
  have hn : k.schedLinks.listNext .tWait4clock = some (.tSched w) := Q.clock.listNext
  simp [wakeClockWaiters, threadDequeue, SchedQueue.head, hn, containerOf, wakeRound, threadOutqueue,
    SchedNode.container]

theorem head_notMem (Q : k.Queued (w :: ws) rs) : w ∉ ws := by
  have hnodup := (List.nodup_cons.mp Q.clock.nodup).2
  exact fun hw => (List.nodup_cons.mp hnodup).1 (List.mem_map_of_mem hw)

/-- A round takes the first waiter out of the queue of the clock. -/
theorem unlink (Q : k.Queued (w :: ws) rs)
    (links : k'.schedLinks = k.schedLinks.listDel (.tSched w)) : k'.Queued ws rs := by
  cases rs with
  | none =>
      have hc : k.schedLinks.Circ (tickLayout.head false)
          ([] ++ tickLayout.link w :: ws.map tickLayout.link) := Q.clock
      refine ⟨?_, by simp⟩
      rw [links]
      exact hc.listDel
  | some rs =>
      have R' := Q.represents.listDel (h := false) List.mem_cons_self
      rw [← show k'.schedLinks = k.schedLinks.listDel (tickLayout.link w) from links] at R'
      simpa using of_represents R'

/-- A round may put it into the ready queue. -/
theorem move {rs : List Tcb} (Q : k.Queued (w :: ws) (some rs))
    (links : k'.schedLinks = (k.schedLinks.listDel (.tSched w)).listAddTail (.tSched w) .readyq) :
    k'.Queued ws (some (rs ++ [w])) := by
  have hfresh : ∀ b, tickLayout.link w ≠ tickLayout.head b := by
    rintro (_ | _) h <;> cases h
  have hlinks : k'.schedLinks = (k.schedLinks.listDel (tickLayout.link w)).listAddTail
      (tickLayout.link w) (tickLayout.head true) := links
  have R' := Q.represents.move (h := false) List.mem_cons_self hfresh true
  rw [← hlinks] at R'
  simpa using of_represents R'

end Kernel.Queued

theorem resumeThread_schedLinks (k : Kernel) (t : Tcb) (s : Option Tcb) (pl : Value) :
    (resumeThread k t s pl).schedLinks =
      (k.schedLinks.listDel (.tSched t)).listAddTail (.tSched t) .readyq := by
  rw [← (deliverDirectly_links k t s pl).2]
  rfl

/-- The kernel in which the round for `w` calls `send`. -/
def Kernel.calling (k : Kernel) (w : Tcb) : Kernel :=
  { (threadOutqueue k w).enter with
    sysbkOldarea := { handlerState with a1 := SYS_SEND, a2 := .tcb w, a3 := null, a4 := null } }

/-! ## Whom the loop sends messages -/

/-- The thread that `send` is called for. -/
def Obs.dest : Obs → Option Tcb
  | .sent _ d _ _ => some d
  | _ => none

section sends

variable {k k' : Kernel} {d w : Tcb} {s : Option Tcb} {pl : Value} {r : Word} {ws rs : List Tcb}
  {fuel : Nat}

/-- `send` changes the scheduling queues only for a thread that it resumes. -/
theorem send_calls (h : send k d s pl = .ok (r, k')) :
    (∃ hist, k'.history = k.history ++ hist ∧ hist.filterMap Obs.dest = [d]) ∧
      (k'.schedLinks = k.schedLinks ∨ k'.schedLinks =
        (k.schedLinks.listDel (.tSched d)).listAddTail (.tSched d) .readyq) := by
  obtain ⟨⟨_, k₁⟩, hk₁, h⟩ := bind_eq_ok.mp h
  cases h
  have hdeliver : deliverMsg k d s pl = .ok (r, k₁) →
      k₁.history = k.history ∧ k₁.schedLinks = k.schedLinks := by
    intro h
    obtain ⟨⟨b, k₂⟩, hk₂, h⟩ := bind_eq_ok.mp h
    have h₂ : k₂.history = k.history ∧ k₂.schedLinks = k.schedLinks := by
      obtain ⟨_, _, hk₂⟩ := bind_eq_ok.mp hk₂
      split at hk₂ <;> cases hk₂ <;> exact ⟨rfl, rfl⟩
    dsimp only at h
    split at h <;> cases h <;> exact h₂
  have hqueued : k₁.history = k.history ∧ k₁.schedLinks = k.schedLinks →
      (∃ hist, (k₁.record (.sent s d pl (r = SEND_SUCCESS))).history = k.history ++ hist ∧
        hist.filterMap Obs.dest = [d]) ∧ (k₁.schedLinks = k.schedLinks ∨ k₁.schedLinks =
          (k.schedLinks.listDel (.tSched d)).listAddTail (.tSched d) .readyq) := by
    rintro ⟨hhist, hlinks⟩
    exact ⟨⟨_, congrArg (· ++ _) hhist, rfl⟩, Or.inl hlinks⟩
  unfold sendSwitch at hk₁
  split at hk₁
  · exact hqueued (hdeliver hk₁)
  · split at hk₁
    · cases hk₁
      have hhist := (resumeThread_mail k d s pl).1
      refine ⟨⟨_, (congrArg (· ++ _) hhist).trans (List.append_assoc _ _ _), rfl⟩, Or.inr ?_⟩
      exact resumeThread_schedLinks k d s pl
    · exact hqueued (hdeliver hk₁)
  · cases hk₁
    exact hqueued ⟨rfl, rfl⟩

theorem Kernel.Queued.calls (Q : k.Queued (w :: ws) (some rs)) (h : wakeRound k w = .ok k') :
    (∃ hist, k'.history = k.history ++ hist ∧ hist.filterMap Obs.dest = [w]) ∧
      ∃ rs', k'.Queued ws (some rs') := by
  obtain ⟨⟨r, k₁⟩, hk₁, h⟩ := bind_eq_ok.mp h
  cases h
  have hk₁ : send (k.calling w) w k.currentThread null = .ok (r, k₁) := hk₁
  have hsame : (k.calling w).schedLinks = k.schedLinks.listDel (.tSched w) := rfl
  obtain ⟨⟨hist, hh, hdest⟩, hlinks⟩ := send_calls hk₁
  rw [hsame, Links.listDel_listDel] at hlinks
  refine ⟨⟨hist, hh, hdest⟩, ?_⟩
  rcases hlinks with hlinks | hlinks
  · have Q' : (storeReturnValue k₁ (.int r)).Queued ws (some rs) := Q.unlink hlinks
    exact ⟨rs, Q'⟩
  · have Q' : (storeReturnValue k₁ (.int r)).Queued ws (some (rs ++ [w])) := Q.move hlinks
    exact ⟨rs ++ [w], Q'⟩

/-- The loop sends every waiter one message, in their order. -/
theorem Kernel.Queued.sends (Q : k.Queued ws (some rs))
    (h : wakeClockWaiters fuel k = .ok k') :
    ∃ hist, k'.history = k.history ++ hist ∧ hist.filterMap Obs.dest = ws := by
  induction ws generalizing k rs fuel with
  | nil =>
      cases fuel with
      | zero => cases h
      | succ fuel =>
          cases (Q.wake_nil fuel).symm.trans h
          exact ⟨[], by simp, rfl⟩
  | cons w ws ih =>
      cases fuel with
      | zero => cases h
      | succ fuel =>
          rw [Q.wake_cons] at h
          obtain ⟨k₁, hk₁, h⟩ := bind_eq_ok.mp h
          obtain ⟨⟨hist, hh, hw⟩, rs', Q'⟩ := Q.calls hk₁
          obtain ⟨hist', hh', hws⟩ := ih Q' h
          refine ⟨hist ++ hist', by rw [hh', hh, List.append_assoc], ?_⟩
          rw [List.filterMap_append, hw, hws, List.singleton_append]

end sends

/-! ## One round, while `r` runs -/

/-- What the round for `w` does. -/
structure Roused (k : Kernel) (r w : Tcb) (k' : Kernel) : Prop where
  filed : k'.Filed
  spared : ∀ u, u ≠ w → k'.tcb u = k.tcb u ∧
    received k'.history r u = received k.history r u ∧
    k'.view.mailbox u = k.view.mailbox u
  woken : Woken r k k' w ↔ k.Reaches r w
  free : k'.view.msgs .free = (k.view.msgs .free).drop (k.busy r [w]).length
  load : k'.load = replay (k.wakeWords r [w]) k.load
  links : k'.schedLinks = if (k.tcb w).Awaits r then
    (k.schedLinks.listDel (.tSched w)).listAddTail (.tSched w) .readyq
    else k.schedLinks.listDel (.tSched w)

namespace Kernel.Queued

variable {k k' : Kernel} {r w : Tcb} {ws : List Tcb} {rs : Option (List Tcb)}

/-- The round takes the first waiter out of the queue of the clock. -/
theorem roused (Q : k.Queued (w :: ws) rs) (T : Roused k r w k')
    (hrs : rs = none → k.sleepers r (w :: ws) = []) :
    k'.Queued ws (rs.map (· ++ k.sleepers r [w])) := by
  by_cases ha : (k.tcb w).Awaits r
  · cases rs with
    | none => simp [sleepers, ha] at hrs
    | some rs => simpa [sleepers, ha] using Q.move (T.links.trans (if_pos ha))
  · have Q' := Q.unlink (T.links.trans (if_neg ha))
    cases rs with
    | none => exact Q'
    | some rs => simpa [sleepers, ha] using Q'

end Kernel.Queued

theorem pending_of_links {k k' : Kernel} (hlinks : k'.msgLinks = k.msgLinks)
    (hmsg : k'.msg = k.msg) (s d : Tcb) : k'.view.pending s d = k.view.pending s d := by
  rw [View.pending, Kernel.mailbox_of_links hlinks hmsg, View.pending]

section round

variable {k k₂ : Kernel} {r w : Tcb}

theorem wakeRound_of_send {x : Word}
    (h : send (k.calling w) w k.currentThread null = .ok (x, k₂)) :
    wakeRound k w = .ok (storeReturnValue k₂ (.int x)) := by
  change (send (k.calling w) w k.currentThread null >>= _) = _
  rw [h]
  rfl

/-- A waiter that is blocked for the message is resumed. -/
theorem Roused.direct (F : k.Filed) (ha : (k.tcb w).Awaits r) (v : Value) :
    Roused k r w (storeReturnValue ((resumeThread (k.calling w) w (some r) null).record
      (.sent (some r) w null true)) v) := by
  obtain ⟨htcb, _, _, hhist⟩ := resumeThread_effect (k.calling w) w (some r) null
  obtain ⟨_, hlinks, hmsg⟩ := resumeThread_mail (k.calling w) w (some r) null
  obtain ⟨_, hload⟩ := resumeThread_words (k.calling w) w (some r) null
  generalize hk' : storeReturnValue ((resumeThread (k.calling w) w (some r) null).record
    (.sent (some r) w null true)) v = k'
  have htcb' : k'.tcb = Function.update k.tcb w { k.tcb w with
      tS := { (k.tcb w).tS with a1 := .tcb r }, tStatus := .ready, tWait4sender := none } := by
    rw [← hk']
    exact htcb
  have hhist' : k'.history =
      k.history ++ [.received w (some r) null] ++ [.sent (some r) w null true] := by
    rw [← hk']
    exact congrArg (· ++ _) hhist
  have hlinks' : k'.msgLinks = k.msgLinks := by rw [← hk']; exact hlinks
  have hmsg' : k'.msg = k.msg := by rw [← hk']; exact hmsg
  have hsched : k'.schedLinks =
      (k.schedLinks.listDel (.tSched w)).listAddTail (.tSched w) .readyq := by
    have h := resumeThread_schedLinks (k.calling w) w (some r) null
    rw [show (k.calling w).schedLinks = k.schedLinks.listDel (.tSched w) from rfl,
      Links.listDel_listDel] at h
    rw [← hk']
    exact h
  refine ⟨F.congr hlinks', fun u hu => ⟨?_, ?_, ?_⟩, ?_, ?_, ?_, ?_⟩
  · rw [htcb', Function.update_of_ne hu]
  · simp [hhist', received, Ne.symm hu]
  · rw [Kernel.mailbox_of_links hlinks' hmsg']
  · have hwoken : Woken r k k' w := by
      rw [Woken, if_pos ha]
      refine ⟨?_, ?_, ?_, pending_of_links hlinks' hmsg' r w⟩
      · simp [htcb']
      · simp [htcb']
      · simp [hhist', received]
    exact iff_of_true hwoken (Or.inl ha)
  · have hidle : k.busy r [w] = [] := by simp [Kernel.busy, ha]
    rw [hidle, Kernel.msgs_of_links hlinks']
    rfl
  · have hwords : k.wakeWords r [w] = [Obs.received w (some r) null].filterMap
        (Obs.word fun u => (k.tcb u).tS.a3) := by
      simp [Kernel.wakeWords, Kernel.sleepers, ha, List.filterMap_cons]
    rw [hwords, ← hk']
    exact hload
  · rw [if_pos ha, hsched]

/-- A message for another waiter is queued. -/
theorem Roused.queued {m : Msg} {rest : List Msg} (F : k.Filed) (hb : ¬ (k.tcb w).Awaits r)
    (hs : (k.tcb w).tStatus ≠ .none) (hq : k.view.msgs .free = m :: rest)
    (P : Kernel.Posted (k.calling w) r w null m k₂)
    (hhist : k₂.history = k.history ++ [.sent (some r) w null true]) (v : Value) :
    Roused k r w (storeReturnValue k₂ v) := by
  have hreach : k.Reaches r w := Or.inr ⟨hs, by simp [hq]⟩
  have hm : m ∈ k.view.msgs .free := by simp [hq]
  have hmail : ∀ u, k₂.view.mailbox u = if u = w then
      k.view.mailbox u ++ [{ mSender := some r, mValue := null }] else k.view.mailbox u := by
    intro u
    rw [View.mailbox, P.msgs, P.msg, ← View.mailbox]
    exact View.mailbox_post (F : Represents msgLayout k.msgLinks k.view.msgs) hm
  have hrecv : ∀ u, received k₂.history r u = received k.history r u := by
    intro u
    simp [hhist, received]
  refine ⟨P.filed.congr rfl, fun u hu => ⟨congrFun P.tcb u, hrecv u, ?_⟩, ?_, ?_, ?_, ?_⟩
  · change k₂.view.mailbox u = _
    rw [hmail, if_neg hu]
  · have hwoken : Woken r k (storeReturnValue k₂ v) w := by
      rw [Woken, if_neg hb]
      refine ⟨hrecv w, ?_⟩
      change k₂.view.pending r w = _
      rw [View.pending, hmail, if_pos rfl, List.filter_append, List.map_append, View.pending]
      simp
    exact iff_of_true hwoken hreach
  · have hone : k.busy r [w] = [w] := by simp [Kernel.busy, hb, hs]
    change k₂.view.msgs .free = _
    rw [P.free hq, hq, hone]
    rfl
  · have hnone : k.wakeWords r [w] = [] := by simp [Kernel.wakeWords, Kernel.sleepers, hb]
    rw [hnone]
    exact P.load
  · rw [if_neg hb]
    change k₂.schedLinks = _
    rw [P.rest]
    rfl

/-- Nothing comes of a message that cannot be queued. -/
theorem Roused.failed (F : k.Filed) (hu : ¬ k.Reaches r w) (v : Value) :
    Roused k r w (storeReturnValue ((k.calling w).record (.sent (some r) w null false)) v) := by
  have hb : ¬ (k.tcb w).Awaits r := fun ha => hu (Or.inl ha)
  generalize hk' : storeReturnValue ((k.calling w).record (.sent (some r) w null false)) v = k'
  obtain ⟨hlinks, hmsg, htcb, hmem, hword, hhist, hsched⟩ : k'.msgLinks = k.msgLinks ∧
      k'.msg = k.msg ∧ k'.tcb = k.tcb ∧ k'.mem = k.mem ∧ k'.ssiMsg = k.ssiMsg ∧
      k'.history = k.history ++ [.sent (some r) w null false] ∧
      k'.schedLinks = k.schedLinks.listDel (.tSched w) := by
    simp only [← hk', storeReturnValue, Kernel.record, Kernel.calling, threadOutqueue,
      Kernel.enter, and_self]
  have hmail := Kernel.mailbox_of_links hlinks hmsg
  have hrecv : ∀ u, received k'.history r u = received k.history r u := by
    intro u
    simp [hhist, received]
  refine ⟨F.congr hlinks, fun u _ => ⟨by rw [htcb], hrecv u, by rw [hmail]⟩, ?_, ?_, ?_, ?_⟩
  · refine iff_of_false ?_ hu
    rw [Woken, if_neg hb]
    rintro ⟨_, hpend⟩
    rw [View.pending, hmail, View.pending] at hpend
    simp at hpend
  · rw [Kernel.msgs_of_links hlinks]
    by_cases hs : (k.tcb w).tStatus = .none
    · simp [Kernel.busy, hs]
    · have hempty : k.view.msgs .free = [] := by
        by_contra hfree
        exact hu (Or.inr ⟨hs, hfree⟩)
      simp [hempty]
  · have hnone : k.wakeWords r [w] = [] := by simp [Kernel.wakeWords, Kernel.sleepers, hb]
    rw [hnone]
    exact load_eq hmem hword
  · rw [if_neg hb, hsched]

/-- While a thread runs, every round comes back. -/
theorem Kernel.Filed.wakeRound (F : k.Filed) (hc : k.currentThread = some r) (w : Tcb) :
    ∃ k', MikaBoo.wakeRound k w = .ok k' ∧ Roused k r w k' := by
  have F₁ : (k.calling w).Filed := F.congr rfl
  obtain ⟨x, k₂, hk₂, P⟩ := F₁.send r w null
  have hround := wakeRound_of_send (hc ▸ hk₂)
  cases P with
  | direct awaits => exact ⟨_, hround, .direct F awaits _⟩
  | queued busy alive room mailbox rest =>
      obtain ⟨m, free, hq⟩ := List.exists_cons_of_ne_nil room
      obtain ⟨k₃, hk₃, P⟩ := F₁.send_queues hq alive busy
      cases hk₃.symm.trans hk₂
      exact ⟨_, hround, .queued F busy alive hq P (congrArg Kernel.history rest) _⟩
  | failed unreached => exact ⟨_, hround, .failed F unreached _⟩

end round

/-! ## The loop, while `r` runs -/

/-- What the loop does to `ws`, the threads in the queue of the clock. -/
structure Waking (k : Kernel) (r : Tcb) (ws : List Tcb) (rs : Option (List Tcb)) (k' : Kernel) :
    Prop where
  filed : k'.Filed
  queued : k'.Queued [] (rs.map (· ++ k.sleepers r ws))
  spared : ∀ u, u ∉ ws → k'.tcb u = k.tcb u ∧
    received k'.history r u = received k.history r u ∧
    k'.view.mailbox u = k.view.mailbox u
  woken : (∀ w ∈ ws, Woken r k k' w) ↔
    (∀ w ∈ ws, (k.tcb w).tStatus ≠ .none) ∧ (k.busy r ws).length ≤ (k.view.msgs .free).length
  free : k'.view.msgs .free = (k.view.msgs .free).drop (k.busy r ws).length
  load : k'.load = replay (k.wakeWords r ws) k.load

section loop

variable {k k₁ k' : Kernel} {r w u : Tcb} {ws : List Tcb} {rs : Option (List Tcb)}

/-- `Woken` speaks of three things. -/
theorem woken_congr {k₂ k₃ : Kernel} (hb : k₂.tcb u = k.tcb u ∧
      received k₂.history r u = received k.history r u ∧
      k₂.view.mailbox u = k.view.mailbox u)
    (ha : k₃.tcb u = k'.tcb u ∧
      received k₃.history r u = received k'.history r u ∧
      k₃.view.mailbox u = k'.view.mailbox u) : Woken r k₂ k₃ u ↔ Woken r k k' u := by
  simp only [Woken, View.pending, hb.1, hb.2.1, hb.2.2, ha.1, ha.2.1, ha.2.2]

theorem Kernel.busy_cons (k : Kernel) (r w : Tcb) (ws : List Tcb) :
    (k.busy r (w :: ws)).length = (k.busy r [w]).length + (k.busy r ws).length := by
  rw [busy, busy, busy, ← List.length_append, ← List.filter_append, List.singleton_append]

theorem Kernel.sleepers_cons (k : Kernel) (r w : Tcb) (ws : List Tcb) :
    k.sleepers r (w :: ws) = k.sleepers r [w] ++ k.sleepers r ws := by
  rw [sleepers, sleepers, sleepers, ← List.filter_append, List.singleton_append]

/-- What the loop does depends on the descriptors of the waiters. -/
theorem Kernel.waiters_congr (h : ∀ u ∈ ws, k₁.tcb u = k.tcb u) :
    k₁.busy r ws = k.busy r ws ∧ k₁.sleepers r ws = k.sleepers r ws ∧
      k₁.wakeWords r ws = k.wakeWords r ws := by
  have hsleepers : k₁.sleepers r ws = k.sleepers r ws :=
    List.filter_congr fun u hu => by rw [h u hu]
  refine ⟨List.filter_congr fun u hu => by rw [h u hu], hsleepers, ?_⟩
  rw [wakeWords, wakeWords, hsleepers]
  refine List.filterMap_congr fun u hu => ?_
  simp only [Obs.word, h u (List.mem_of_mem_filter hu)]

/-- One round before the others. -/
theorem Roused.waking (T : Roused k r w k₁) (hw : w ∉ ws)
    (W : Waking k₁ r ws (rs.map (· ++ k.sleepers r [w])) k') : Waking k r (w :: ws) rs k' := by
  have htcb : ∀ u ∈ ws, k₁.tcb u = k.tcb u := by
    intro u hu
    refine (T.spared u ?_).1
    rintro rfl
    exact hw hu
  obtain ⟨hbusy, hsleepers, hwords⟩ := Kernel.waiters_congr (r := r) htcb
  have hstatus : (∀ u ∈ ws, (k₁.tcb u).tStatus ≠ .none) ↔ ∀ u ∈ ws, (k.tcb u).tStatus ≠ .none :=
    forall₂_congr fun u hu => by rw [htcb u hu]
  refine ⟨W.filed, ?_, fun u hu => ?_, ?_, ?_, ?_⟩
  · have hall : rs.map (· ++ k.sleepers r (w :: ws)) =
        (rs.map (· ++ k.sleepers r [w])).map (· ++ k₁.sleepers r ws) := by
      cases rs with
      | none => rfl
      | some rs => simp [k.sleepers_cons r w ws, hsleepers]
    rw [hall]
    exact W.queued
  · rw [List.mem_cons, not_or] at hu
    obtain ⟨htcb₁, hrecv₁, hmail₁⟩ := T.spared u hu.1
    obtain ⟨htcb₂, hrecv₂, hmail₂⟩ := W.spared u hu.2
    exact ⟨htcb₂.trans htcb₁, hrecv₂.trans hrecv₁, hmail₂.trans hmail₁⟩
  · have hfirst : Woken r k k' w ↔ k.Reaches r w :=
      (woken_congr ⟨rfl, rfl, rfl⟩ (W.spared w hw)).trans T.woken
    have hrest : (∀ u ∈ ws, Woken r k k' u) ↔ ∀ u ∈ ws, Woken r k₁ k' u := by
      refine forall₂_congr fun u hu => ?_
      refine (woken_congr (T.spared u ?_) ⟨rfl, rfl, rfl⟩).symm
      rintro rfl
      exact hw hu
    have hroom := congrArg List.length T.free
    rw [List.length_drop] at hroom
    rw [List.forall_mem_cons, List.forall_mem_cons, hfirst, hrest, W.woken, hstatus, hbusy,
      k.busy_cons r w ws, hroom]
    by_cases ha : (k.tcb w).Awaits r
    · have hreach : k.Reaches r w := Or.inl ha
      have halive : (k.tcb w).tStatus ≠ .none := by simp [ha.1]
      have hidle : k.busy r [w] = [] := by simp [Kernel.busy, ha]
      simp [hreach, halive, hidle]
    · by_cases hs : (k.tcb w).tStatus = .none
      · have hunreached : ¬ k.Reaches r w := by simp [Kernel.Reaches, ha, hs]
        simp [hunreached, hs]
      · have hone : k.busy r [w] = [w] := by simp [Kernel.busy, ha, hs]
        have hreach : k.Reaches r w ↔ 0 < (k.view.msgs .free).length := by
          simp [Kernel.Reaches, ha, hs, List.length_pos_iff]
        rw [hreach, hone, List.length_singleton]
        simp only [hs, ne_eq, not_false_eq_true, true_and]
        constructor
        · rintro ⟨hpos, halive, hle⟩
          exact ⟨halive, by omega⟩
        · rintro ⟨halive, hle⟩
          exact ⟨by omega, halive, by omega⟩
  · rw [W.free, T.free, hbusy, List.drop_drop, k.busy_cons r w ws]
  · have hall : k.wakeWords r (w :: ws) = k.wakeWords r [w] ++ k.wakeWords r ws := by
      rw [Kernel.wakeWords, k.sleepers_cons r w ws, List.filterMap_append]
      rfl
    rw [W.load, T.load, hwords, hall, replay_append]

/-- What is known of the ready queue when a blocked waiter has to be put there. -/
theorem Kernel.queued_of_sleepers (C : Lists k.schedLinks .tWait4clock ws)
    (hready : k.sleepers r ws ≠ [] → ∃ rs, Lists k.schedLinks .readyq rs) :
    ∃ rs, k.Queued ws rs ∧ (rs = none → k.sleepers r ws = []) := by
  by_cases hs : k.sleepers r ws = []
  · exact ⟨none, ⟨C, by simp⟩, fun _ => hs⟩
  · obtain ⟨rs, Q⟩ := hready hs
    exact ⟨some rs, ⟨C, by simpa using Q⟩, by simp⟩

/-- The loop comes back when it may make a round for each waiter, and one more. -/
theorem Kernel.Queued.waking (Q : k.Queued ws rs) (F : k.Filed)
    (hc : k.currentThread = some r) (hrs : rs = none → k.sleepers r ws = []) :
    ∃ k', Waking k r ws rs k' ∧ ∀ n, wakeClockWaiters n k =
      if ws.length < n then .ok k' else .error .unfinished := by
  induction ws generalizing k rs with
  | nil =>
      refine ⟨k, ⟨F, ?_, fun _ _ => ⟨rfl, rfl, rfl⟩, ?_, rfl, rfl⟩, fun n => ?_⟩
      · simpa [Kernel.sleepers] using Q
      · simp [Kernel.busy]
      · cases n with
        | zero => rfl
        | succ n => exact Q.wake_nil n
  | cons w ws ih =>
      have hw : w ∉ ws := Q.head_notMem
      obtain ⟨k₁, hk₁, T⟩ := F.wakeRound hc w
      have hc₁ : k₁.currentThread = some r :=
        (congrArg Kept.currentThread (Frame.msgsend hk₁) :).trans hc
      have hrs₁ : rs.map (· ++ k.sleepers r [w]) = none → k₁.sleepers r ws = [] := by
        intro hnone
        have hall := hrs (Option.map_eq_none_iff.mp hnone)
        rw [k.sleepers_cons, List.append_eq_nil_iff] at hall
        rw [← hall.2]
        refine (Kernel.waiters_congr fun u hu => (T.spared u ?_).1).2.1
        rintro rfl
        exact hw hu
      obtain ⟨k', W, hloop⟩ := ih (Q.roused T hrs) T.filed hc₁ hrs₁
      refine ⟨k', T.waking hw W, fun n => ?_⟩
      cases n with
      | zero => rfl
      | succ n =>
          rw [Q.wake_cons, hk₁, ok_bind, hloop]
          simp

/-- Whatever number of rounds the loop makes, this is what it does. -/
theorem Kernel.Queued.waking_of_ok (Q : k.Queued ws rs) (F : k.Filed)
    (hc : k.currentThread = some r) (hrs : rs = none → k.sleepers r ws = []) {n : Nat}
    (h : wakeClockWaiters n k = .ok k') : Waking k r ws rs k' := by
  obtain ⟨k₁, W, hloop⟩ := Q.waking F hc hrs
  rw [hloop] at h
  split at h <;> cases h
  exact W

end loop

end MikaBoo
