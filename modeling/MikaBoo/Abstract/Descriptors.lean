import MikaBoo.Abstract.Contexts
import MikaBoo.Abstract.Letters

/-!
# The message descriptors

`send` takes a descriptor from the free list for a message that it queues, and a
receive that finds a message gives its descriptor back.
-/

namespace MikaBoo

open Intrusive Fuel Transition

namespace View

variable {k : Kernel} {w : View} {s d : Tcb} {src : Option Tcb} {m n : Msg} {rest : List Msg}
  {v : Value}

/-- A queued message does not hide the one that a receive takes. -/
theorem pick_post_of_some (R : Represents msgLayout k.msgLinks w.msgs) (hm : m ∈ w.msgs .free)
    (hp : w.pick src d = some n) : (w.post s d v m).pick src d = some n := by
  have hq : (w.post s d v m).msgs (.of d) = w.msgs (.of d) ++ [m] := by simp [post]
  have hsame : ∀ n' ∈ w.msgs (.of d), (w.post s d v m).msg n' = w.msg n' := by
    intro n' hn'
    have hne : n' ≠ m := by
      rintro rfl
      have := R.disjoint hm hn'
      cases this
    simp [post, hne]
  rw [pick_eq_find, List.find?_eq_some_iff_append] at hp ⊢
  obtain ⟨hel, as, bs, hsplit, has⟩ := hp
  have hn : n ∈ w.msgs (.of d) := by simp [hsplit]
  refine ⟨by rwa [hsame n hn], as, bs ++ [m], by simp [hq, hsplit], fun a ha => ?_⟩
  rw [hsame a (by simp [hsplit, ha])]
  exact has a ha

/-- When nothing is eligible, a receive takes the message just queued, if it may. -/
theorem pick_post_of_none (R : Represents msgLayout k.msgLinks w.msgs) (hm : m ∈ w.msgs .free)
    (hp : w.pick src d = none) : (w.post s d v m).pick src d =
      if src = none ∨ src = some s then some m else none := by
  have hq : (w.post s d v m).msgs (.of d) = w.msgs (.of d) ++ [m] := by simp [post]
  have hold : (w.msgs (.of d)).find? (fun n => ((w.post s d v m).msg n).eligible src) = none := by
    rw [pick_eq_find, List.find?_eq_none] at hp
    rw [List.find?_eq_none]
    intro n hn
    have hne : n ≠ m := by
      rintro rfl
      have := R.disjoint hm hn
      cases this
    simpa [post, hne] using hp n hn
  have hel : ((w.post s d v m).msg m).eligible src = decide (src = none ∨ src = some s) := by
    simp [post, MsgT.eligible, eq_comm]
  rw [pick_eq_find, hq, List.find?_append, hold]
  by_cases h : src = none ∨ src = some s <;> simp [hel, h]

theorem free_post (hq : w.msgs .free = m :: rest) : (w.post s d v m).msgs .free = rest := by
  simp [post, hq]

theorem free_freeMsg : (w.freeMsg d m).msgs .free = w.msgs .free ++ [m] := by
  simp [freeMsg]

end View

namespace Kernel

variable {k k' : Kernel} {s d : Tcb} {src : Option Tcb} {m n : Msg} {rest : List Msg} {v : Value}

theorem msgs_of_links (hlinks : k'.msgLinks = k.msgLinks) : k'.view.msgs = k.view.msgs := by
  simp only [view, hlinks]

theorem mailbox_of_links (hlinks : k'.msgLinks = k.msgLinks) (hmsg : k'.msg = k.msg) :
    k'.view.mailbox = k.view.mailbox := by
  funext u
  rw [View.mailbox, View.mailbox, msgs_of_links hlinks, show k'.view.msg = _ from hmsg]
  rfl

/-- `send` has queued the message, in the descriptor `m`. -/
structure Posted (k : Kernel) (s d : Tcb) (v : Value) (m : Msg) (k' : Kernel) : Prop where
  filed : k'.Filed
  msgs : k'.view.msgs = (k.view.post s d v m).msgs
  msg : k'.view.msg = (k.view.post s d v m).msg
  rest : k' = { k with msgLinks := k'.msgLinks, msg := k'.msg, history := k'.history }

/-- `recv` has taken the message in the descriptor `n`. -/
structure Taken (k : Kernel) (d : Tcb) (n : Msg) (p : Value) (k' : Kernel) : Prop where
  filed : k'.Filed
  msgs : k'.view.msgs = (k.view.freeMsg d n).msgs
  msg : k'.view.msg = (k.view.freeMsg d n).msg
  tcb : k'.tcb = k.tcb
  word : k'.load p = if p = null then k.load p else (k.msg n).mValue
  history : k'.history = k.history ++ [.received d (k.msg n).mSender (k.msg n).mValue]

namespace Posted

variable (P : Posted k s d v m k')

include P

theorem tcb : k'.tcb = k.tcb := by rw [P.rest]

theorem load : k'.load = k.load := by
  rw [P.rest]
  exact load_eq rfl rfl

theorem mailbox (F : k.Filed) (hm : m ∈ k.view.msgs .free) :
    k'.view.mailbox d = k.view.mailbox d ++ [{ mSender := some s, mValue := v }] := by
  rw [View.mailbox, P.msgs, P.msg, ← View.mailbox, View.mailbox_post F hm, if_pos rfl]

theorem free (hq : k.view.msgs .free = m :: rest) : k'.view.msgs .free = rest := by
  rw [P.msgs, View.free_post hq]

theorem pick : k'.view.pick src d = (k.view.post s d v m).pick src d := by
  rw [View.pick_eq_find, View.pick_eq_find, P.msgs, P.msg]

theorem msg_of_ne (hne : n ≠ m) : k'.msg n = k.msg n := by
  rw [show k'.msg = _ from P.msg]
  simp [View.post, hne, Kernel.view]

end Posted

namespace Taken

variable {p : Value} (T : Taken k d n p k')

include T

theorem mailbox (F : k.Filed) (hp : k.view.pick src d = some n) :
    k'.view.mailbox d = (k.view.mailbox d).eraseP (MsgT.eligible src) := by
  rw [View.mailbox, T.msgs, T.msg, ← View.mailbox, View.mailbox_freeMsg F hp, if_pos rfl]

theorem free : k'.view.msgs .free = k.view.msgs .free ++ [n] := by
  rw [T.msgs, View.free_freeMsg]

end Taken

/-- A message that cannot be handed over is queued, while there is a descriptor. -/
theorem Filed.send_queues (F : k.Filed) (hq : k.view.msgs .free = m :: rest)
    (halive : (k.tcb d).tStatus ≠ .none) (hbusy : ¬ (k.tcb d).Awaits s) :
    ∃ k', MikaBoo.send k d (some s) v = .ok (SEND_SUCCESS, k') ∧ Posted k s d v m k' := by
  obtain ⟨k₁, hadd, hrest, F₁, hmsgs, hmsg⟩ := F.msgqAdd_cons s d v hq
  have hswitch : sendSwitch k d (some s) v = deliverMsg k d (some s) v := by
    unfold sendSwitch
    cases hst : (k.tcb d).tStatus with
    | ready => rfl
    | w4msg =>
        rw [TcbT.Awaits, hst] at hbusy
        exact if_neg fun h => hbusy ⟨rfl, h⟩
    | none => exact absurd hst halive
  refine ⟨k₁.record (.sent (some s) d v true), ?_, F₁.congr rfl, hmsgs, hmsg, ?_⟩
  · simp [MikaBoo.send, hswitch, deliverMsg, hadd, bind, Except.bind]
  · rw [hrest]
    rfl

end Kernel

end MikaBoo
