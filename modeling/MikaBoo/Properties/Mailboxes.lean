import MikaBoo.Abstract.Calls
import MikaBoo.Abstract.Letters

/-!
# Message queues as lists

Read as a list of senders and payloads, the queue of a thread is what the calls of the
functions on messages make of it: `msgq_add` appends, `msgq_add_head` prepends, and
`msgq_get` takes the first eligible pair. Every descriptor is always in one list.
-/

namespace MikaBoo

open Intrusive Fuel Transition

/-- What a call of a function on messages does to the mailboxes and the caller's words. -/
def Call.Delivers (k : Kernel) (a : Answer) (k' : Kernel) : Call → Prop
  | .msgqAdd s d pl =>
      ((a = .code (-1) ∧ k' = k) ↔ s = none ∨ d = none ∨ k.view.msgs .free = []) ∧
        ∀ s' ∈ s, ∀ d' ∈ d, k.view.msgs .free ≠ [] → a = .code 0 ∧ ∀ u, k'.view.mailbox u =
          if u = d' then k.view.mailbox u ++ [{ mSender := some s', mValue := pl }]
          else k.view.mailbox u
  | .msgqAddHead s d pl =>
      ((a = .code (-1) ∧ k' = k) ↔ s = none ∨ d = none ∨ k.view.msgs .free = []) ∧
        ∀ s' ∈ s, ∀ d' ∈ d, k.view.msgs .free ≠ [] → a = .code 0 ∧ ∀ u, k'.view.mailbox u =
          if u = d' then { mSender := some s', mValue := pl } :: k.view.mailbox u
          else k.view.mailbox u
  | .msgqGet s d ptr =>
      ((a = .message none ∧ k' = k) ↔
        ∀ d' ∈ d, (k.view.mailbox d').find? (MsgT.eligible s.join) = none) ∧
      ∀ d' ∈ d, ∀ e ∈ (k.view.mailbox d').find? (MsgT.eligible s.join),
        a = .message (some (e.mSender, e.mValue)) ∧
        (∀ u, k'.view.mailbox u =
          if u = d' then (k.view.mailbox u).eraseP (MsgT.eligible s.join)
          else k.view.mailbox u) ∧
        (k'.mem, k'.ssiMsg) = if ptr = null then (k.mem, k.ssiMsg)
          else ((k.store ptr e.mValue).mem, (k.store ptr e.mValue).ssiMsg)
  | .msgFree m =>
      ∀ d as bs, k.view.msgs (.of d) = as ++ m :: bs →
        k'.view.mailbox d = as.map k.msg ++ bs.map k.msg ∧
        ∀ u ≠ d, k'.view.mailbox u = k.view.mailbox u
  | _ => True

namespace View

variable {k : Kernel} {v : View} {s d u : Tcb} {src : Option Tcb} {m : Msg} {pl : Value}

/-- `msgq_add_head` prepends to one mailbox. -/
theorem mailbox_postHead (R : Represents msgLayout k.msgLinks v.msgs) (hm : m ∈ v.msgs .free) :
    (v.postHead s d pl m).mailbox u =
      if u = d then { mSender := some s, mValue := pl } :: v.mailbox u else v.mailbox u := by
  have hmap : (v.msgs (.of u)).map (v.postHead s d pl m).msg = v.mailbox u := by
    apply List.map_congr_left
    intro n hn
    have hne : n ≠ m := by
      rintro rfl
      have := R.disjoint hm hn
      cases this
    simp [postHead, hne]
  by_cases hd : u = d
  · subst hd
    have hq : (v.postHead s u pl m).msgs (.of u) = m :: v.msgs (.of u) := by simp [postHead]
    rw [mailbox, hq, List.map_cons, hmap]
    simp [postHead]
  · have hq : (v.postHead s d pl m).msgs (.of u) = v.msgs (.of u) := by simp [postHead, hd]
    rw [mailbox, hq, hmap, if_neg hd]

/-- The message that a receive takes is the first eligible one in the mailbox. -/
theorem find_mailbox : (v.mailbox d).find? (MsgT.eligible src) = (v.pick src d).map v.msg := by
  rw [mailbox, List.find?_map, pick_eq_find]
  rfl

end View

namespace Kernel.Intact

variable {k : Kernel} (I : k.Intact)

include I

theorem delivers_msgqAdd (s d : Option Tcb) (pl : Value) :
    (∃ a k', (Call.msgqAdd s d pl).exec k = .ok (a, k') ∧
      (Call.msgqAdd s d pl).Delivers k a k') ∧
    ∃ a k', (Call.msgqAddHead s d pl).exec k = .ok (a, k') ∧
      (Call.msgqAddHead s d pl).Delivers k a k' := by
  have R := I.refines
  by_cases h : s = none ∨ d = none ∨ k.view.msgs .free = []
  · obtain ⟨hadd, hhead⟩ := R.msgqAdd_fail pl h
    have hfail : ∀ s' ∈ s, ∀ d' ∈ d, k.view.msgs .free ≠ [] → False := by
      rintro s' hs d' hd hroom
      rcases h with rfl | rfl | h
      · cases hs
      · cases hd
      · exact hroom h
    exact ⟨⟨.code (-1), k, by simp [Call.exec, hadd], iff_of_true ⟨rfl, rfl⟩ h,
        fun s' hs d' hd hroom => (hfail s' hs d' hd hroom).elim⟩,
      .code (-1), k, by simp [Call.exec, hhead], iff_of_true ⟨rfl, rfl⟩ h,
        fun s' hs d' hd hroom => (hfail s' hs d' hd hroom).elim⟩
  · have h' := h
    simp only [not_or] at h'
    obtain ⟨hs, hd, hq⟩ := h'
    obtain ⟨s, rfl⟩ := Option.ne_none_iff_exists'.mp hs
    obtain ⟨d, rfl⟩ := Option.ne_none_iff_exists'.mp hd
    obtain ⟨m, rest, hq⟩ := List.exists_cons_of_ne_nil hq
    have hm : m ∈ k.view.msgs .free := by simp [hq]
    obtain ⟨k₁, hk₁, R₁⟩ := R.msgqAdd_cons (s := s) (d := d) (p := pl) hq
    obtain ⟨k₂, hk₂, R₂⟩ := R.msgqAddHead_cons s d pl hq
    refine ⟨⟨.code 0, k₁, by simp [Call.exec, hk₁], iff_of_false (by simp) h, ?_⟩,
      .code 0, k₂, by simp [Call.exec, hk₂], iff_of_false (by simp) h, ?_⟩
    · rintro s' hs' d' hd' -
      cases hs'
      cases hd'
      refine ⟨rfl, fun u => ?_⟩
      rw [← R₁.eq_view, View.mailbox_post R.msgs hm]
    · rintro s' hs' d' hd' -
      cases hs'
      cases hd'
      refine ⟨rfl, fun u => ?_⟩
      rw [← R₂.eq_view, View.mailbox_postHead R.msgs hm]

theorem delivers_msgqGet (s : Option (Option Tcb)) (d : Option Tcb) (ptr : Value) :
    ∃ a k', (Call.msgqGet s d ptr).exec k = .ok (a, k') ∧
      (Call.msgqGet s d ptr).Delivers k a k' := by
  have F : k.Filed := I.refines.msgs
  cases d with
  | none =>
      refine ⟨.message none, k, ?_, iff_of_true ⟨rfl, rfl⟩ nofun, nofun⟩
      rcases s with _ | _ | s <;> rfl
  | some d =>
      cases hp : k.view.pick s.join d with
      | none =>
          have hnone : (k.view.mailbox d).find? (MsgT.eligible s.join) = none := by
            rw [View.find_mailbox, hp]
            rfl
          refine ⟨.message none, k, ?_, iff_of_true ⟨rfl, rfl⟩ ?_, ?_⟩
          · simp [Call.exec, Refines.msgqGet_join, F.msgqGet_none hp]
          · rintro d' hd'
            cases hd'
            exact hnone
          · rintro d' hd' e he
            cases hd'
            rw [hnone] at he
            cases he
      | some m =>
          have hsome : (k.view.mailbox d).find? (MsgT.eligible s.join) = some (k.msg m) := by
            rw [View.find_mailbox, hp]
            rfl
          have hm := View.mem_of_pick hp
          have hview := Filed.view_storeVal k ptr m
          obtain ⟨hmsgs, hmsg⟩ := (F.storeVal ptr m).view_msgFree (m := m) (d := d)
            (by rwa [hview])
          rw [hview] at hmsgs hmsg
          refine ⟨.message (some ((k.msg m).mSender, (k.msg m).mValue)),
            msgFree (storeVal k ptr m) m, ?_, iff_of_false (by simp) fun h => ?_, ?_⟩
          · simp [Call.exec, Refines.msgqGet_join, F.msgqGet_some hp]
          · have := h d rfl
            rw [hsome] at this
            cases this
          · rintro d' hd' e he
            cases hd'
            rw [hsome] at he
            cases he
            refine ⟨rfl, fun u => ?_, ?_⟩
            · rw [← View.mailbox_freeMsg F hp, View.mailbox, View.mailbox, hmsgs, ← hmsg]
              rfl
            · change ((storeVal k ptr m).mem, (storeVal k ptr m).ssiMsg) = _
              unfold storeVal
              split <;> rfl

theorem delivers_msgFree (m : Msg) :
    ∃ a k', (Call.msgFree m).exec k = .ok (a, k') ∧ (Call.msgFree m).Delivers k a k' := by
  have R := I.refines
  refine ⟨.nothing, msgFree k m, rfl, fun d as bs hq => ?_⟩
  have hm : m ∈ k.view.msgs (.of d) := by simp [hq]
  rw [← (R.msgFree hm).eq_view]
  exact ⟨View.mailbox_freeMsg_self R.msgs hq, fun u hu => View.mailbox_freeMsg_of_ne R.msgs hm hu⟩

end Kernel.Intact

/-- After any calls, every message is in one list, and every call on messages comes
back and does to the mailboxes what lists would. -/
theorem mailboxes {hw : Hardware} {cs : List Call} {k : Kernel}
    (run : Run (CallStep fun k c => c.Sound k) (prepared hw) cs k) :
    Represents msgLayout k.msgLinks k.view.msgs ∧ (∀ m, ∃! l, m ∈ k.view.msgs l) ∧
      ∀ c : Call, c.Sound k → ∃ a k', c.exec k = .ok (a, k') ∧ c.Delivers k a k' := by
  have I := intact_of_run (fun _ _ h => h) run
  have R := I.refines
  refine ⟨R.msgs, fun m => ?_, fun c hc => ?_⟩
  · obtain ⟨l, hl⟩ := I.kept m
    exact ⟨l, hl, fun l' hl' => R.msgs.disjoint hl' hl⟩
  · cases c with
    | msgqAdd s d pl => exact (I.delivers_msgqAdd s d pl).1
    | msgqAddHead s d pl => exact (I.delivers_msgqAdd s d pl).2
    | msgqGet s d ptr => exact I.delivers_msgqGet s d ptr
    | msgFree m => exact I.delivers_msgFree m
    | _ =>
        obtain ⟨a, k', _, h, _⟩ := I.exec hc
        exact ⟨a, k', h, trivial⟩

/-- Three threads; two messages of the first and one of the third to the second, one of the third
ahead of them, a receive from the third and a receive from anybody. -/
def Sample.mailing : List Call :=
  [.threadAlloc (some root), .threadAlloc (some root), .threadAlloc (some root),
    .msgqAdd (some (.thread 0)) (some (.thread 1)) (.int 42),
    .msgqAdd (some (.thread 0)) (some (.thread 1)) (.int 48),
    .msgqAdd (some (.thread 2)) (some (.thread 1)) (.int 2017),
    .msgqAddHead (some (.thread 2)) (some (.thread 1)) (.int 7),
    .msgqGet (some (some (.thread 2))) (some (.thread 1)) (.int 0x200),
    .msgqGet (some none) (some (.thread 1)) null]

/-- The next message from the third thread is taken out of the middle. -/
theorem mailboxes_sample : ∃ k a k',
    Run (CallStep fun k c => c.Sound k) (prepared Sample.hardware) Sample.mailing k ∧
    (Call.msgqGet (some (some (.thread 2))) (some (.thread 1)) null).exec k = .ok (a, k') ∧
    a = .message (some (some (.thread 2), .int 2017)) ∧
    k'.view.mailbox (.thread 1) = [{ mSender := some (.thread 0), mValue := .int 48 }] := by
  let check : Kernel → Bool := fun k =>
    k.view.mailbox (.thread 1) = [{ mSender := some (.thread 0), mValue := .int 48 },
      { mSender := some (.thread 2), mValue := .int 2017 }]
  have h : (callAll (fun k c => c.Sound k) (prepared Sample.hardware) Sample.mailing).any check =
      true := by
    decide +kernel
  obtain ⟨k, hk, hmail⟩ := Option.any_eq_true _ _ |>.mp h
  have hmail := of_decide_eq_true hmail
  have run := run_of_callAll hk
  obtain ⟨_, _, hcall⟩ := mailboxes run
  obtain ⟨a, k', hexec, _, hget⟩ :=
    hcall (.msgqGet (some (some (.thread 2))) (some (.thread 1)) null) trivial
  have hfind : (k.view.mailbox (.thread 1)).find? (MsgT.eligible (some (.thread 2))) =
      some { mSender := some (.thread 2), mValue := .int 2017 } := by
    rw [hmail]
    rfl
  obtain ⟨ha, hrest, _⟩ := hget (.thread 1) rfl _ hfind
  refine ⟨k, a, k', run, hexec, ha, ?_⟩
  rw [hrest, if_pos rfl, hmail]
  rfl

end MikaBoo
