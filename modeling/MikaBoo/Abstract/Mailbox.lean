import MikaBoo.Abstract.Purge

/-!
# Mailboxes

The queue of a thread as the list of the senders and payloads in it, and what
the operations on messages make of it.
-/

namespace MikaBoo

open Intrusive

/-- A receive from `src` may take the message. -/
def MsgT.eligible (src : Option Tcb) (e : MsgT) : Bool := src = none ∨ e.mSender = src

namespace View

/-- The contents of the message queue of `d`. -/
def mailbox (v : View) (d : Tcb) : List MsgT := (v.msgs (.of d)).map v.msg

variable {k : Kernel} {v v' : View} {s d t u : Tcb} {src : Option Tcb} {m : Msg} {pl : Value}

theorem pick_eq_find : v.pick src d = (v.msgs (.of d)).find? fun m => (v.msg m).eligible src := by
  cases src with
  | none => cases h : v.msgs (.of d) <;> simp [pick, MsgT.eligible, h]
  | some s => simp [pick, MsgT.eligible]

theorem not_eligible_of_pick (hp : v.pick src d = none) {e : MsgT} (he : e ∈ v.mailbox d) :
    e.eligible src = false := by
  obtain ⟨m, hm, rfl⟩ := List.mem_map.mp he
  rw [pick_eq_find, List.find?_eq_none] at hp
  simpa using hp m hm

theorem mailbox_congr (hmsgs : v'.msgs (.of d) = v.msgs (.of d))
    (hmsg : ∀ m ∈ v.msgs (.of d), v'.msg m = v.msg m) : v'.mailbox d = v.mailbox d := by
  rw [mailbox, hmsgs]
  exact List.map_congr_left hmsg

/-- `msgq_add` appends to one mailbox. -/
theorem mailbox_post (R : Represents msgLayout k.msgLinks v.msgs) (hm : m ∈ v.msgs .free) :
    (v.post s d pl m).mailbox u =
      if u = d then v.mailbox u ++ [{ mSender := some s, mValue := pl }] else v.mailbox u := by
  have hu : m ∉ v.msgs (.of u) := by
    intro h
    have := R.disjoint hm h
    cases this
  have hmap : (v.msgs (.of u)).map (v.post s d pl m).msg = v.mailbox u := by
    apply List.map_congr_left
    intro n hn
    have hne : n ≠ m := by
      rintro rfl
      exact hu hn
    simp [post, hne]
  by_cases hd : u = d
  · subst hd
    have hq : (v.post s u pl m).msgs (.of u) = v.msgs (.of u) ++ [m] := by simp [post]
    rw [mailbox, hq, List.map_append, hmap]
    simp [post]
  · have hq : (v.post s d pl m).msgs (.of u) = v.msgs (.of u) := by simp [post, hd]
    rw [mailbox, hq, hmap, if_neg hd]

/-- A message that goes back to the free list leaves a gap in its mailbox. -/
theorem mailbox_freeMsg_self {as bs : List Msg} (R : Represents msgLayout k.msgLinks v.msgs)
    (hq : v.msgs (.of d) = as ++ m :: bs) :
    (v.freeMsg d m).mailbox d = as.map v.msg ++ bs.map v.msg := by
  have hnodup := R.nodup (.of d)
  rw [hq, List.nodup_append] at hnodup
  have hma : m ∉ as := fun h => hnodup.2.2 m h m (by simp) rfl
  have hmb : m ∉ bs := (List.nodup_cons.mp hnodup.2.1).1
  have hq' : (v.freeMsg d m).msgs (.of d) = as ++ bs := by
    simp [freeMsg, hq, List.erase_append_right _ hma]
  have hmap : ∀ n ∈ as ++ bs, (v.freeMsg d m).msg n = v.msg n := by
    intro n hn
    have hne : n ≠ m := by
      rintro rfl
      simp [hma, hmb] at hn
    simp [freeMsg, hne]
  rw [mailbox, hq', List.map_congr_left hmap, List.map_append]

theorem mailbox_freeMsg_of_ne (R : Represents msgLayout k.msgLinks v.msgs)
    (hm : m ∈ v.msgs (.of d)) (hu : u ≠ d) : (v.freeMsg d m).mailbox u = v.mailbox u := by
  apply mailbox_congr
  · simp [freeMsg, hu]
  · intro n hn
    have hne : n ≠ m := by
      rintro rfl
      have := R.disjoint hn hm
      cases this
      exact hu rfl
    simp [freeMsg, hne]

/-- `msgq_get` takes the first eligible message out of one mailbox. -/
theorem mailbox_freeMsg (R : Represents msgLayout k.msgLinks v.msgs)
    (hp : v.pick src d = some m) :
    (v.freeMsg d m).mailbox u =
      if u = d then (v.mailbox u).eraseP (MsgT.eligible src) else v.mailbox u := by
  have hmd := mem_of_pick hp
  by_cases hu : u = d
  · subst hu
    rw [pick_eq_find, List.find?_eq_some_iff_append] at hp
    obtain ⟨hel, as, bs, hq, has⟩ := hp
    rw [if_pos rfl, mailbox_freeMsg_self R hq, mailbox, hq, List.map_append,
      List.eraseP_append_right, List.map_cons, List.eraseP_cons_of_pos hel]
    intro e he
    obtain ⟨a, ha, rfl⟩ := List.mem_map.mp he
    simpa using has a ha
  · rw [if_neg hu, mailbox_freeMsg_of_ne R hmd hu]

/-! ## Termination -/

theorem mailbox_clean (hr : Realised v) {dest : Option Tcb} :
    (v.clean t dest).mailbox u =
      if dest = some u then (v.mailbox u).eraseP (MsgT.eligible (some t)) else v.mailbox u := by
  cases dest with
  | none => simp
  | some d =>
      obtain ⟨k, R⟩ := hr
      cases hp : v.pick (some t) d with
      | none =>
          rw [clean_of_pick_none hp]
          split
          · rename_i hu
            cases hu
            rw [List.eraseP_of_forall_not fun e he => by simp [not_eligible_of_pick hp he]]
          · rfl
      | some m =>
          rw [clean_of_pick_some hp, mailbox_freeMsg R.msgs hp]
          simp [eq_comm]

variable {p : Pcb} {h : SchedQueue}

theorem mailbox_reap_self : (v.reap t p h).mailbox t = [] := by
  simp [mailbox, reap, dismiss, retire, addCount, outqueue, abort, drain]

theorem mailbox_reap_of_ne (hr : Realised v) (hu : u ≠ t) :
    (v.reap t p h).mailbox u = v.mailbox u := by
  obtain ⟨k, R⟩ := hr
  apply mailbox_congr
  · simp [reap, dismiss, retire, addCount, outqueue, abort, drain, hu]
  · intro m hm
    have hne : m ∉ v.msgs (.of t) := by
      intro h
      have := R.msgs.disjoint hm h
      cases this
      exact hu rfl
    simp [reap, dismiss, retire, addCount, outqueue, abort, drain, hne]

end View

end MikaBoo
