import MikaBoo.Abstract.Census

/-!
# The message lists in any run

Kernel code changes the message lists by `msgq_add`, by `msgq_get` and by freeing
the first message of a queue, and in no other way. So the lists stay in order in
every run, whatever happens to the scheduling queues.
-/

namespace MikaBoo

open Intrusive Fuel Transition

/-- One change of the message lists. -/
inductive Mailing (k k' : Kernel) : Prop
  | none (links : k'.msgLinks = k.msgLinks) (msg : k'.msg = k.msg)
  | add {s d : Option Tcb} {pl : Value} {r : Int} (added : msgqAdd k s d pl = .ok (r, k'))
  | get {src : Option (Option Tcb)} {d : Option Tcb} {ptr : Value}
      {r : Option (Option Tcb × Value)} (got : msgqGet k src d ptr = .ok (r, k'))
  | free {d : Tcb} {m : Msg} (head : msgQhead k (.of d) = .ok (some m)) (freed : k' = msgFree k m)

/-- What kernel code does to the message lists. -/
abbrev Mails : Kernel → Kernel → Prop := Relation.ReflTransGen Mailing

/-- The message lists are in order. -/
def Kernel.Filed (k : Kernel) : Prop := Represents msgLayout k.msgLinks k.view.msgs

namespace Kernel.Filed

variable {k k' : Kernel} {s d : Option Tcb} {pl ptr : Value} {m : Msg}

theorem of_represents {q : MsgList → List Msg} (R : Represents msgLayout k.msgLinks q) :
    k.Filed ∧ k.view.msgs = q := by
  have h : k.view.msgs = q := funext fun l =>
    filterMap_walk R (f := MsgNode.container) (fun _ => rfl) (n := MAXMSG) (by simp) l
  exact ⟨by rw [Kernel.Filed, h]; exact R, h⟩

theorem congr (F : k.Filed) (h : k'.msgLinks = k.msgLinks) : k'.Filed := by
  refine (of_represents (q := k.view.msgs) ?_).1
  rw [h]
  exact F

theorem msgQhead (F : k.Filed) (l : MsgList) :
    MikaBoo.msgQhead k l = .ok (k.view.msgs l).head? := by
  have hn := F.listNext l
  simp only [msgLayout] at hn
  rw [MikaBoo.msgQhead, hn]
  cases k.view.msgs l <;> rfl

theorem msgFree {l : MsgList} (F : k.Filed) (hm : m ∈ k.view.msgs l) :
    (MikaBoo.msgFree k m).Filed :=
  (of_represents (F.move hm (msg_link_ne_head m) .free)).1

theorem storeVal (F : k.Filed) (ptr : Value) (m : Msg) : (MikaBoo.storeVal k ptr m).Filed := by
  unfold MikaBoo.storeVal
  split
  · exact F
  · refine F.congr ?_
    cases ptr <;> rfl

theorem msgqFind {u v : Tcb} (F : k.Filed) : MikaBoo.msgqFind k u v (MAXMSG + 1) (.tMsgq v) =
    .ok ((k.view.msgs (.of v)).find? fun m => (k.msg m).mSender = some u) := by
  refine Refines.msgqFind_seg (v := k.view) rfl (F.circ (.of v)).seg ?_
  have hl := (F.nodup (.of v)).length_le_card
  simp only [Fintype.card_fin] at hl
  exact Nat.lt_succ_of_le hl

theorem msgqAdd {r : Int} (F : k.Filed) (h : MikaBoo.msgqAdd k s d pl = .ok (r, k')) :
    k'.Filed := by
  have hn : k.msgLinks.listNext .messageH = _ := F.listNext .free
  obtain ⟨o, ho, h⟩ := bind_eq_ok.mp h
  rw [hn] at ho
  split at h
  · rename_i m u v _
    cases hq : k.view.msgs .free with
    | nil => simp [hq, containerOf] at ho
    | cons n rest =>
        simp only [hq, List.head?_cons, Option.map_some, containerOf] at ho
        cases ho
        cases h
        have hm : m ∈ k.view.msgs .free := by simp [hq]
        exact (of_represents (F.move hm (msg_link_ne_head m) (.of v))).1
  · cases h
    exact F

theorem msgqAdd_nil {s d : Tcb} (F : k.Filed) (hq : k.view.msgs .free = []) :
    MikaBoo.msgqAdd k (some s) (some d) pl = .ok (-1, k) := by
  have hn : k.msgLinks.listNext .messageH = _ := F.listNext .free
  rw [MikaBoo.msgqAdd, msgqInsert, hn, hq]
  rfl

/-- `msgq_add` moves the first free message to one queue. -/
theorem msgqAdd_cons {rest : List Msg} (F : k.Filed) (s d : Tcb) (pl : Value)
    (hq : k.view.msgs .free = m :: rest) :
    ∃ k', MikaBoo.msgqAdd k (some s) (some d) pl = .ok (0, k') ∧
      k' = { k with msgLinks := k'.msgLinks, msg := k'.msg } ∧ k'.Filed ∧
      k'.view.msgs = (k.view.post s d pl m).msgs ∧ k'.msg = (k.view.post s d pl m).msg := by
  have hn : k.msgLinks.listNext .messageH = _ := F.listNext .free
  have hm : m ∈ k.view.msgs .free := by simp [hq]
  let k₁ : Kernel := { k with
    msgLinks := (k.msgLinks.listDel (.mNext m)).listAddTail (.mNext m) (.tMsgq d)
    msg := Function.update k.msg m { mSender := some s, mValue := pl } }
  have hadd : MikaBoo.msgqAdd k (some s) (some d) pl = .ok (0, k₁) := by
    rw [MikaBoo.msgqAdd, msgqInsert, hn, hq]
    rfl
  obtain ⟨F₁, hmsgs⟩ : k₁.Filed ∧ k₁.view.msgs = (k.view.post s d pl m).msgs :=
    of_represents (F.move hm (msg_link_ne_head m) (.of d))
  exact ⟨k₁, hadd, rfl, F₁, hmsgs, rfl⟩

/-- `msgq_add` fails when the pool is empty, and else appends to one mailbox. -/
theorem msgqAdd_cases (F : k.Filed) (s d : Tcb) (pl : Value) :
    (k.view.msgs .free = [] ∧ MikaBoo.msgqAdd k (some s) (some d) pl = .ok (-1, k)) ∨
    k.view.msgs .free ≠ [] ∧ ∃ k', MikaBoo.msgqAdd k (some s) (some d) pl = .ok (0, k') ∧
      k' = { k with msgLinks := k'.msgLinks, msg := k'.msg } ∧
      ∀ u, k'.view.mailbox u = if u = d then
        k.view.mailbox u ++ [{ mSender := some s, mValue := pl }] else k.view.mailbox u := by
  cases hq : k.view.msgs .free with
  | nil => exact Or.inl ⟨rfl, F.msgqAdd_nil hq⟩
  | cons m rest =>
      obtain ⟨k₁, hadd, hrest, _, hmsgs, hmsg⟩ := F.msgqAdd_cons s d pl hq
      refine Or.inr ⟨List.cons_ne_nil _ _, k₁, hadd, hrest, fun u => ?_⟩
      rw [← View.mailbox_post F (m := m) (by simp [hq]), View.mailbox, hmsgs]
      exact congrArg (List.map · _) hmsg

theorem msgqGet {src : Option (Option Tcb)} {r : Option (Option Tcb × Value)} (F : k.Filed)
    (h : MikaBoo.msgqGet k src d ptr = .ok (r, k')) : k'.Filed := by
  have hfree : ∀ {u m}, m ∈ k.view.msgs (.of u) →
      (MikaBoo.msgFree (MikaBoo.storeVal k ptr m) m).Filed := by
    intro u m hm
    have hs : (MikaBoo.storeVal k ptr m).view.msgs = k.view.msgs := by
      unfold MikaBoo.storeVal
      split
      · rfl
      · generalize (k.msg m).mValue = v
        cases ptr <;> rfl
    exact (F.storeVal ptr m).msgFree (l := .of u) (by rwa [hs])
  unfold MikaBoo.msgqGet at h
  split at h
  · cases h
    exact F
  · rename_i u v
    obtain ⟨o, ho, h⟩ := bind_eq_ok.mp h
    rw [F.msgqFind] at ho
    split at h
    · cases h
      exact F
    · cases h
      exact hfree (List.mem_of_find?_eq_some (Except.ok.inj ho))
  · rename_i v _
    obtain ⟨o, ho, h⟩ := bind_eq_ok.mp h
    rw [F.msgQhead] at ho
    split at h
    · cases h
      exact F
    · cases h
      exact hfree (List.mem_of_mem_head? (Except.ok.inj ho))

theorem mails (F : k.Filed) (h : Mails k k') : k'.Filed := by
  induction h with
  | refl => exact F
  | @tail k₁ k' _ last ih =>
      cases last with
      | none links => exact ih.congr links
      | add added => exact ih.msgqAdd added
      | get got => exact ih.msgqGet got
      | free head freed =>
          rw [ih.msgQhead] at head
          rw [freed]
          exact ih.msgFree (List.mem_of_mem_head? (Except.ok.inj head))

/-- The words outside the kernel are not part of the message lists. -/
theorem view_storeVal (k : Kernel) (ptr : Value) (m : Msg) :
    (MikaBoo.storeVal k ptr m).view = k.view := by
  unfold MikaBoo.storeVal
  split
  · rfl
  · generalize (k.msg m).mValue = v
    cases ptr <;> rfl

theorem msgqGet_none {src : Option Tcb} {d : Tcb} (F : k.Filed) (hp : k.view.pick src d = none) :
    MikaBoo.msgqGet k (some src) (some d) ptr = .ok (none, k) := by
  cases src with
  | none =>
      have hhead : (k.view.msgs (.of d)).head? = none := hp
      simp only [MikaBoo.msgqGet, F.msgQhead, hhead, bind, Except.bind]
  | some s =>
      have hfind : (k.view.msgs (.of d)).find? (fun m => (k.msg m).mSender = some s) = none := hp
      simp only [MikaBoo.msgqGet, F.msgqFind, hfind, bind, Except.bind]

/-- `msgq_get` stores and frees the first eligible message. -/
theorem msgqGet_some {src : Option Tcb} {d : Tcb} (F : k.Filed) (hp : k.view.pick src d = some m) :
    MikaBoo.msgqGet k (some src) (some d) ptr = .ok (some ((k.msg m).mSender, (k.msg m).mValue),
      MikaBoo.msgFree (MikaBoo.storeVal k ptr m) m) := by
  cases src with
  | none =>
      have hhead : (k.view.msgs (.of d)).head? = some m := hp
      simp only [MikaBoo.msgqGet, F.msgQhead, hhead, bind, Except.bind]
  | some s =>
      have hfind : (k.view.msgs (.of d)).find? (fun m => (k.msg m).mSender = some s) = some m := hp
      have hs : (k.msg m).mSender = some s := View.sender_of_pick hp
      simp only [MikaBoo.msgqGet, F.msgqFind, hfind, hs, bind, Except.bind]

theorem view_msgFree {d : Tcb} (F : k.Filed) (hm : m ∈ k.view.msgs (.of d)) :
    (MikaBoo.msgFree k m).view.msgs = (k.view.freeMsg d m).msgs ∧
      (MikaBoo.msgFree k m).msg = (k.view.freeMsg d m).msg :=
  ⟨(of_represents (F.move hm (msg_link_ne_head m) .free)).2, rfl⟩

/-- `msgq_get` takes the first eligible message out of one mailbox. -/
theorem msgqGet_pick {src : Option Tcb} {d : Tcb} (F : k.Filed) (hp : k.view.pick src d = some m)
    (ptr : Value) :
    ∃ k', MikaBoo.msgqGet k (some src) (some d) ptr =
        .ok (some ((k.msg m).mSender, (k.msg m).mValue), k') ∧
      k'.history = k.history ∧ ∀ u, k'.view.mailbox u = (k.view.freeMsg d m).mailbox u := by
  have hview := view_storeVal k ptr m
  have hhist : (MikaBoo.storeVal k ptr m).history = k.history := congrArg View.history hview
  refine ⟨_, F.msgqGet_some hp, hhist, fun u => ?_⟩
  obtain ⟨hmsgs, hmsg⟩ := (F.storeVal ptr m).view_msgFree (m := m) (d := d)
    (by rw [hview]; exact View.mem_of_pick hp)
  rw [hview] at hmsgs hmsg
  rw [View.mailbox, View.mailbox, hmsgs, ← hmsg]
  rfl

end Kernel.Filed

/-! ## Posting -/

/-- The thread is blocked until `s`, or anybody, sends it a message. -/
def TcbT.Awaits (d : TcbT) (s : Tcb) : Prop :=
  d.tStatus = .w4msg ∧ (d.tWait4sender = some s ∨ d.tWait4sender = none)

instance (d : TcbT) (s : Tcb) : Decidable (d.Awaits s) := inferInstanceAs (Decidable (_ ∧ _))

/-- A message from `s` would get through to `d`. -/
def Kernel.Reaches (k : Kernel) (s d : Tcb) : Prop :=
  (k.tcb d).Awaits s ∨ (k.tcb d).tStatus ≠ .none ∧ k.view.msgs .free ≠ []

instance (k : Kernel) (s d : Tcb) : Decidable (k.Reaches s d) := inferInstanceAs (Decidable (_ ∨ _))

/-- A thread that is resumed gets the payload, and the queues stay as they are. -/
theorem resumeThread_mail (k : Kernel) (t : Tcb) (s : Option Tcb) (pl : Value) :
    (resumeThread k t s pl).history = k.history ++ [.received t s pl] ∧
      (resumeThread k t s pl).msgLinks = k.msgLinks ∧ (resumeThread k t s pl).msg = k.msg := by
  have hstore : ∀ (k : Kernel) (ptr v : Value), (k.store ptr v).history = k.history ∧
      (k.store ptr v).msgLinks = k.msgLinks ∧ (k.store ptr v).msg = k.msg := by
    intro k ptr v
    cases ptr <;> exact ⟨rfl, rfl, rfl⟩
  change (deliverDirectly k t s pl).history = _ ∧ (deliverDirectly k t s pl).msgLinks = _ ∧
    (deliverDirectly k t s pl).msg = _
  unfold deliverDirectly
  dsimp only [Kernel.record]
  split
  · exact ⟨rfl, rfl, rfl⟩
  · obtain ⟨hhist, hrest⟩ := hstore
      (k.modTcb t fun d => { d with tS := { d.tS with a1 := tcbPtr s } }) _ pl
    exact ⟨congrArg (· ++ _) hhist, hrest⟩

/-- What `send` makes of a message: a blocked receiver gets it at once, another one
in its queue, and without a message descriptor nobody does. -/
inductive Posting (k : Kernel) (s d : Tcb) (pl : Value) : Word → Kernel → Prop
  | direct (awaits : (k.tcb d).Awaits s) :
      Posting k s d pl SEND_SUCCESS
        ((resumeThread k d (some s) pl).record (.sent (some s) d pl true))
  | queued {k'} (busy : ¬ (k.tcb d).Awaits s) (alive : (k.tcb d).tStatus ≠ .none)
      (room : k.view.msgs .free ≠ []) (mailbox : ∀ u, k'.view.mailbox u = if u = d then
        k.view.mailbox u ++ [{ mSender := some s, mValue := pl }] else k.view.mailbox u)
      (rest : k' = { k with
        msgLinks := k'.msgLinks, msg := k'.msg, history := k.history ++ [.sent (some s) d pl true] }) :
      Posting k s d pl SEND_SUCCESS k'
  | failed (unreached : ¬ k.Reaches s d) :
      Posting k s d pl SEND_FAILURE (k.record (.sent (some s) d pl false))

/-- `send` comes back with one of these outcomes. -/
theorem Kernel.Filed.send {k : Kernel} (F : k.Filed) (s d : Tcb) (pl : Value) :
    ∃ w k', MikaBoo.send k d (some s) pl = .ok (w, k') ∧ Posting k s d pl w k' := by
  by_cases hw : (k.tcb d).Awaits s
  · refine ⟨_, _, ?_, .direct hw⟩
    simp [MikaBoo.send, sendSwitch, hw.1, hw.2, bind, Except.bind]
  · by_cases hs : (k.tcb d).tStatus = .none
    · refine ⟨_, _, ?_, .failed (by simp [Reaches, hw, hs])⟩
      simp [MikaBoo.send, sendSwitch, hs, bind, Except.bind]
    · have hdeliver : sendSwitch k d (some s) pl = deliverMsg k d (some s) pl := by
        unfold sendSwitch
        cases hst : (k.tcb d).tStatus with
        | ready => rfl
        | w4msg =>
            rw [TcbT.Awaits, hst] at hw
            exact if_neg fun h => hw ⟨rfl, h⟩
        | none => exact absurd hst hs
      rcases F.msgqAdd_cases s d pl with ⟨hfull, hadd⟩ | ⟨hroom, k₁, hadd, hrest, hmail⟩
      · refine ⟨_, _, ?_, .failed (by simp [Reaches, hw, hfull])⟩
        simp [MikaBoo.send, hdeliver, deliverMsg, hadd, bind, Except.bind]
      · have hqueued : Posting k s d pl SEND_SUCCESS (k₁.record (.sent (some s) d pl true)) := by
          refine .queued hw hs hroom hmail ?_
          rw [hrest]
          rfl
        refine ⟨_, _, ?_, hqueued⟩
        simp [MikaBoo.send, hdeliver, deliverMsg, hadd, bind, Except.bind]

namespace Mails

variable {k k₁ k' : Kernel} {t d : Tcb} {s o : Option Tcb} {w : Word} {fuel : Nat} {x : Exit}
  {caller : State} {v pl ptr : Value} {p : Pcb}

theorem of_eq (links : k'.msgLinks = k.msgLinks) (msg : k'.msg = k.msg) : Mails k k' :=
  .single (.none links msg)

/-- Other changes before. -/
theorem of_head (h : Mails k₁ k') (links : k₁.msgLinks = k.msgLinks) (msg : k₁.msg = k.msg) :
    Mails k k' :=
  (of_eq links msg).trans h

/-- Other changes after. -/
theorem of_tail (h : Mails k k₁) (links : k'.msgLinks = k₁.msgLinks) (msg : k'.msg = k₁.msg) :
    Mails k k' :=
  h.trans (of_eq links msg)

theorem store (k : Kernel) (ptr v : Value) : Mails k (k.store ptr v) := by
  cases ptr <;> exact of_eq rfl rfl

theorem threadDequeue {h : SchedQueue} (hk : MikaBoo.threadDequeue k h = .ok (o, k')) :
    Mails k k' := by
  obtain ⟨_, _, hk⟩ := bind_eq_ok.mp hk
  split at hk <;> cases hk <;> exact of_eq rfl rfl

/-! ### Sending and receiving -/

theorem deliverMsg (hk : MikaBoo.deliverMsg k d s pl = .ok (w, k')) : Mails k k' := by
  obtain ⟨⟨r, k₁⟩, hk₁, hk⟩ := bind_eq_ok.mp hk
  dsimp only at hk
  split at hk <;> cases hk <;> exact .single (.add hk₁)

theorem deliverDirectly (k : Kernel) (d : Tcb) (s : Option Tcb) (pl : Value) :
    Mails k (MikaBoo.deliverDirectly k d s pl) := by
  let k₁ := k.modTcb d fun d => { d with tS := { d.tS with a1 := tcbPtr s } }
  have h : Mails k (if (k₁.tcb d).tS.a3 = null then k₁ else k₁.store (k₁.tcb d).tS.a3 pl) := by
    split
    · exact of_eq rfl rfl
    · exact of_head (store k₁ _ pl) rfl rfl
  exact of_tail h rfl rfl

theorem resumeThread (k : Kernel) (t : Tcb) (s : Option Tcb) (pl : Value) :
    Mails k (MikaBoo.resumeThread k t s pl) :=
  of_tail (deliverDirectly k t s pl) rfl rfl

theorem send (hk : MikaBoo.send k d s pl = .ok (w, k')) : Mails k k' := by
  obtain ⟨⟨r, k₁⟩, hk₁, hk⟩ := bind_eq_ok.mp hk
  cases hk
  refine of_tail (?_ : Mails k k₁) rfl rfl
  unfold sendSwitch at hk₁
  split at hk₁
  · exact deliverMsg hk₁
  · split at hk₁
    · cases hk₁
      exact resumeThread k d s pl
    · exact deliverMsg hk₁
  · cases hk₁
    exact .refl

theorem msgsend (hk : MikaBoo.msgsend k caller d pl = .ok k') : Mails k k' := by
  obtain ⟨⟨r, k₁⟩, hk₁, hk⟩ := bind_eq_ok.mp hk
  cases hk
  exact of_tail (of_head (send hk₁) rfl rfl) rfl rfl

theorem wakeClockWaiters (hk : MikaBoo.wakeClockWaiters fuel k = .ok k') : Mails k k' := by
  induction fuel generalizing k with
  | zero => cases hk
  | succ fuel ih =>
      obtain ⟨⟨o, k₁⟩, hk₁, hk⟩ := bind_eq_ok.mp hk
      have h₁ := threadDequeue hk₁
      cases o with
      | none =>
          cases hk
          exact h₁
      | some t =>
          obtain ⟨k₂, hk₂, hk⟩ := bind_eq_ok.mp hk
          exact h₁.trans ((msgsend hk₂).trans (ih hk))

theorem updateClock {ms : Word} (hk : MikaBoo.updateClock fuel k ms = .ok k') : Mails k k' := by
  unfold MikaBoo.updateClock at hk
  dsimp only at hk
  split at hk
  · exact of_head (wakeClockWaiters hk) rfl rfl
  · cases hk
    exact of_eq rfl rfl

theorem recv (hk : MikaBoo.recv fuel k s ptr = .ok (x, k')) : Mails k k' := by
  unfold MikaBoo.recv at hk
  split at hk
  · cases hk
  · split at hk
    · cases hk
    · obtain ⟨⟨r, k₁⟩, hk₁, hk⟩ := bind_eq_ok.mp hk
      have h₁ : Mails k k₁ := .single (.get hk₁)
      cases r with
      | some r =>
          cases hk
          exact of_tail h₁ rfl rfl
      | none =>
          obtain ⟨k₂, hk₂, hk⟩ := bind_eq_ok.mp hk
          have h₂ : Mails k₁ k₂ := of_head (updateClock hk₂) rfl rfl
          refine h₁.trans (h₂.trans ?_)
          split at hk <;> cases hk <;> exact of_eq rfl rfl

theorem msgrecv (hk : MikaBoo.msgrecv fuel k caller s ptr = .ok (x, k')) : Mails k k' :=
  of_head (recv hk) rfl rfl

/-! ### Handlers -/

theorem terminateRequest (hk : MikaBoo.terminateRequest fuel k w = .ok (x, k')) : Mails k k' := by
  obtain ⟨k₁, hk₁, hk⟩ := bind_eq_ok.mp hk
  obtain ⟨⟨x₂, k₂⟩, hk₂, hk⟩ := bind_eq_ok.mp hk
  cases x₂ <;> cases hk
  have h₁ : Mails k k₁ := of_head (msgsend hk₁) rfl rfl
  exact h₁.trans (msgrecv hk₂)

theorem rawTrapH {old : State} (hk : MikaBoo.rawTrapH fuel k o old = .ok (x, k')) : Mails k k' := by
  unfold MikaBoo.rawTrapH at hk
  split at hk
  · cases hk
  · split at hk
    · obtain ⟨k₁, hk₁, hk⟩ := bind_eq_ok.mp hk
      cases hk
      exact of_tail (of_head (msgsend hk₁) rfl rfl) rfl rfl
    · exact terminateRequest hk

theorem pgmtrapH (hk : MikaBoo.pgmtrapH fuel k = .ok (x, k')) : Mails k k' := by
  obtain ⟨p, _, hk⟩ := bind_eq_ok.mp hk
  exact rawTrapH hk

theorem tlbtrapH (hk : MikaBoo.tlbtrapH fuel k = .ok (x, k')) : Mails k k' := by
  obtain ⟨p, _, hk⟩ := bind_eq_ok.mp hk
  exact rawTrapH hk

theorem raiseReservedInstruction (hk : MikaBoo.raiseReservedInstruction fuel k = .ok (x, k')) :
    Mails k k' :=
  of_head (pgmtrapH hk) rfl rfl

theorem syscallOther {a1 a2 a3 a4 : Value}
    (hk : MikaBoo.syscallOther fuel k a1 a2 a3 a4 = .ok (x, k')) : Mails k k' := by
  unfold MikaBoo.syscallOther at hk
  split at hk
  · cases hk
  · obtain ⟨p, _, hk⟩ := bind_eq_ok.mp hk
    split at hk
    · obtain ⟨⟨r, k₁⟩, hk₁, hk⟩ := bind_eq_ok.mp hk
      cases hk
      exact of_tail (of_head (send hk₁) rfl rfl) rfl rfl
    · obtain ⟨⟨r, k₁⟩, hk₁, hk⟩ := bind_eq_ok.mp hk
      cases hk
      exact of_tail (of_head (send hk₁) rfl rfl) rfl rfl
    · exact terminateRequest hk

theorem syscallH (hk : MikaBoo.syscallH fuel k = .ok (x, k')) : Mails k k' := by
  unfold MikaBoo.syscallH at hk
  dsimp only at hk
  split at hk
  · exact raiseReservedInstruction hk
  · split at hk
    · unfold sendKernel at hk
      split at hk
      · obtain ⟨d, _, hk⟩ := bind_eq_ok.mp hk
        cases d with
        | none => cases hk
        | some d =>
            obtain ⟨⟨r, k₁⟩, hk₁, hk⟩ := bind_eq_ok.mp hk
            cases hk
            exact of_tail (send hk₁) rfl rfl
      · exact raiseReservedInstruction hk
    · split at hk
      · unfold recvKernel at hk
        split at hk
        · obtain ⟨s, _, hk⟩ := bind_eq_ok.mp hk
          exact recv hk
        · exact raiseReservedInstruction hk
      · exact syscallOther hk

theorem interruptH {pending : Fin 5 → Word} (hk : MikaBoo.interruptH fuel k pending = .ok (x, k')) :
    Mails k k' := by
  unfold MikaBoo.interruptH at hk
  dsimp only at hk
  split at hk
  · unfold ioH at hk
    split at hk
    · obtain ⟨_, _, hk⟩ := bind_eq_ok.mp hk
      split at hk
      · cases hk
      · obtain ⟨⟨r, k₁⟩, hk₁, hk⟩ := bind_eq_ok.mp hk
        obtain ⟨_, _, hk⟩ := bind_eq_ok.mp hk
        have h₁ : Mails k k₁ := of_head (send hk₁) rfl rfl
        refine h₁.trans ?_
        dsimp only at hk
        split at hk
        · cases hk
          exact of_eq rfl rfl
        · split at hk <;> cases hk
          exact of_eq rfl rfl
    · cases hk
  · obtain ⟨k₂, hk₂, hk⟩ := bind_eq_ok.mp hk
    cases hk
    refine Relation.ReflTransGen.trans ?_ (updateClock hk₂)
    split <;> exact of_eq rfl rfl

theorem scheduler (hk : MikaBoo.scheduler k = .ok k') : Mails k k' := by
  obtain ⟨⟨o, k₁⟩, hk₁, hk⟩ := bind_eq_ok.mp hk
  refine (threadDequeue hk₁).trans ?_
  cases o with
  | some t =>
      cases hk
      exact of_eq rfl rfl
  | none =>
      simp only [emptyReadyqH] at hk
      split at hk
      · cases hk
      · split at hk
        · cases hk
        · obtain ⟨_, _, hk⟩ := bind_eq_ok.mp hk
          cases hk
          exact of_eq rfl rfl

end Mails

/-! ## Services -/

/-- A send, or the receipt of somebody's message. -/
def Obs.isMail : Obs → Bool
  | .sent .. => true
  | .received _ s _ => s.isSome
  | .allocated _ | .freed _ => false

/-- The sends and receipts so far. -/
def Kernel.mail (k : Kernel) : List Obs := k.history.filter Obs.isMail

/-- No message is sent and none is received. -/
structure Quiet (k k' : Kernel) : Prop where
  mails : Mails k k'
  mail : k'.mail = k.mail

namespace Quiet

variable {k k₁ k' : Kernel} {t : Tcb} {o : Option Tcb} {fuel : Nat} {ptr : Value} {p : Pcb}

theorem refl (k : Kernel) : Quiet k k := ⟨.refl, rfl⟩

theorem trans (h₁ : Quiet k k₁) (h₂ : Quiet k₁ k') : Quiet k k' :=
  ⟨h₁.mails.trans h₂.mails, h₂.mail.trans h₁.mail⟩

theorem of_eq (links : k'.msgLinks = k.msgLinks) (msg : k'.msg = k.msg) (mail : k'.mail = k.mail) :
    Quiet k k' :=
  ⟨.of_eq links msg, mail⟩

theorem of_head (h : Quiet k₁ k') (links : k₁.msgLinks = k.msgLinks) (msg : k₁.msg = k.msg)
    (mail : k₁.mail = k.mail) : Quiet k k' :=
  (of_eq links msg mail).trans h

theorem of_tail (h : Quiet k k₁) (links : k'.msgLinks = k₁.msgLinks) (msg : k'.msg = k₁.msg)
    (mail : k'.mail = k₁.mail) : Quiet k k' :=
  h.trans (of_eq links msg mail)

theorem mail_record (k : Kernel) {o : Obs} (ho : o.isMail = false) : (k.record o).mail = k.mail := by
  simp [Kernel.mail, Kernel.record, ho]

theorem mail_store (k : Kernel) (ptr v : Value) : (k.store ptr v).mail = k.mail := by
  cases ptr <;> rfl

theorem msgqGet {src : Option (Option Tcb)} {r : Option (Option Tcb × Value)}
    (h : MikaBoo.msgqGet k src o ptr = .ok (r, k')) : Quiet k k' := by
  refine ⟨.single (.get h), ?_⟩
  have hfree : ∀ m, (msgFree (storeVal k ptr m) m).mail = k.mail := by
    intro m
    change (storeVal k ptr m).mail = k.mail
    unfold storeVal
    split
    · rfl
    · exact mail_store k ptr _
  unfold MikaBoo.msgqGet at h
  split at h
  · cases h
    rfl
  · obtain ⟨_, _, h⟩ := bind_eq_ok.mp h
    split at h <;> cases h
    · rfl
    · exact hfree _
  · obtain ⟨_, _, h⟩ := bind_eq_ok.mp h
    split at h <;> cases h
    · rfl
    · exact hfree _

/-- An aborted receive is not a receipt. -/
theorem resumeThread (k : Kernel) (t : Tcb) (pl : Value) :
    Quiet k (MikaBoo.resumeThread k t none pl) := by
  refine ⟨Mails.resumeThread k t none pl, ?_⟩
  change (deliverDirectly k t none pl).mail = k.mail
  unfold deliverDirectly
  dsimp only
  rw [mail_record _ rfl]
  split
  · rfl
  · exact mail_store _ _ _

theorem chore (c : Chore k k') : Quiet k k' := by
  cases c with
  | clean get => exact msgqGet get
  | drop head => exact ⟨.single (.free head rfl), rfl⟩
  | abort u =>
      have h₁ := resumeThread (k.modTcb u fun d => { d with errno := 1 }) u null
      exact of_head h₁ rfl rfl rfl
  | free t =>
      unfold threadFree
      split
      · exact .refl k
      · split
        · exact .refl k
        · exact of_eq rfl rfl (mail_record _ rfl)
  | delete p =>
      unfold procDelete
      split <;> exact of_eq rfl rfl rfl
  | alloc alloc =>
      obtain ⟨_, _, h⟩ := bind_eq_ok.mp alloc
      split at h <;> cases h <;> exact of_eq rfl rfl rfl
  | create s alloc =>
      obtain ⟨_, _, h⟩ := bind_eq_ok.mp alloc
      split at h <;> cases h
      exact of_eq rfl rfl (mail_record _ rfl)
  | count | manage | wait | engage => exact of_eq rfl rfl rfl

theorem chores (cs : Chores k k') : Quiet k k' := by
  induction cs with
  | refl => exact .refl k
  | tail _ c ih => exact ih.trans (chore c)

end Quiet

/-! ## Steps -/

namespace Mails

variable {k k' : Kernel} {fuel : Nat} {x : Exit}

theorem ssi (h : MikaBoo.ssi fuel k = .ok (x, k')) : Mails k k' := by
  cases hp : k.ssiPoint with
  | receiving =>
      simp only [MikaBoo.ssi, hp] at h
      exact of_head (msgrecv h) rfl rfl
  | serving =>
      obtain ⟨t, q, k₁, r, _, _, hk₁, hr⟩ := ssi_serves hp h
      have h₁ : Mails k k₁ := of_head (Quiet.chores (.service hk₁)).mails rfl rfl
      rcases hr with ⟨_, _, rfl⟩ | ⟨_, _, hsend, _⟩
      · exact h₁
      · exact h₁.trans (msgsend hsend)

theorem entry {e : Event} (h : MikaBoo.entry fuel k e = .ok (x, k')) : Mails k k' := by
  cases e with
  | start | run | elapse | edit =>
      simp only [MikaBoo.entry] at h
      split at h <;> cases h
      exact of_eq rfl rfl
  | syscall =>
      simp only [MikaBoo.entry] at h
      split at h
      · exact of_head (syscallH h) rfl rfl
      · cases h
  | pgmtrap cause =>
      simp only [MikaBoo.entry] at h
      split at h
      · exact of_head (pgmtrapH h) rfl rfl
      · cases h
  | tlbtrap cause =>
      simp only [MikaBoo.entry] at h
      split at h
      · exact of_head (tlbtrapH h) rfl rfl
      · cases h
  | interrupt pending =>
      simp only [MikaBoo.entry] at h
      split at h
      · exact of_head (interruptH h) rfl rfl
      · cases h
  | ssi =>
      simp only [MikaBoo.entry] at h
      split at h
      · exact ssi h
      · cases h

theorem step {e : Event} (h : MikaBoo.step fuel k e = .ok k') : Mails k k' := by
  obtain ⟨⟨x, k₁⟩, hk₁, h⟩ := bind_eq_ok.mp h
  refine (entry hk₁).trans ?_
  cases x with
  | resume s =>
      cases h
      exact of_eq rfl rfl
  | schedule => exact scheduler h

end Mails

/-- The end of a kernel entry changes no message and no thread descriptor. -/
theorem leave_mail {k k' : Kernel} {x : Exit} (h : leave k x = .ok k') :
    k'.history = k.history ∧ k'.msgLinks = k.msgLinks ∧ k'.msg = k.msg ∧ k'.tcb = k.tcb := by
  cases x with
  | resume s =>
      cases h
      exact ⟨rfl, rfl, rfl, rfl⟩
  | schedule =>
      obtain ⟨⟨o, k₁⟩, hk₁, h⟩ := bind_eq_ok.mp h
      have h₁ : k₁.history = k.history ∧ k₁.msgLinks = k.msgLinks ∧ k₁.msg = k.msg ∧
          k₁.tcb = k.tcb := by
        obtain ⟨_, _, hk₁⟩ := bind_eq_ok.mp hk₁
        split at hk₁ <;> cases hk₁ <;> exact ⟨rfl, rfl, rfl, rfl⟩
      cases o with
      | some t =>
          cases h
          exact h₁
      | none =>
          simp only [emptyReadyqH] at h
          split at h
          · cases h
          · split at h
            · cases h
            · obtain ⟨_, _, h⟩ := bind_eq_ok.mp h
              cases h
              exact h₁

/-- The message lists are in order in every state that any run reaches. -/
theorem Kernel.Filed.run {hw : Hardware} {k₀ k : Kernel} {es : List Event} (hb : boot hw = .ok k₀)
    (run : Run Step k₀ es k) : k.Filed := by
  have F : k₀.Filed := (Good.boot hb).refines.msgs
  exact run.invariant (P := Kernel.Filed) (fun _ _ _ F ⟨_, h⟩ => F.mails (Mails.step h)) F

end MikaBoo
