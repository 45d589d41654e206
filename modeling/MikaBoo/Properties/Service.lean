import MikaBoo.Abstract.Motions
import MikaBoo.Abstract.Provenance
import MikaBoo.Properties.Exchange
import MikaBoo.Properties.Waiters

/-!
# The order of service

The SSI receives the requests of all threads in the order in which they were sent, and does not
wait while there is one.
-/

namespace MikaBoo

open Intrusive Fuel Transition

/-- The messages that `d` has been sent, with their senders. -/
def arrivals (hist : List Obs) (d : Tcb) : List (Tcb × Value) :=
  hist.filterMap fun
    | .sent (some s) d' pl true => if d' = d then some (s, pl) else none
    | _ => none

/-- The messages that `d` has received, with their senders. -/
def receipts (hist : List Obs) (d : Tcb) : List (Tcb × Value) :=
  hist.filterMap fun
    | .received d' (some s) pl => if d' = d then some (s, pl) else none
    | _ => none

/-- The messages that the SSI has sent, whether they arrived or not, with their receivers. -/
def replies (hist : List Obs) : List (Tcb × Value) :=
  hist.filterMap fun
    | .sent (some .ssi) d pl _ => some (d, pl)
    | _ => none

/-- The messages in the queue of `d`, with their senders. -/
def View.letters (v : View) (d : Tcb) : List (Tcb × Value) :=
  (v.mailbox d).filterMap fun e => e.mSender.map fun s => (s, e.mValue)

/-- What the SSI has received and what waits for it is, in this order, among what it has been
sent. While it is blocked, nothing waits for it, and it takes messages from anybody. -/
structure Kernel.Orderly (k : Kernel) : Prop where
  order : (receipts k.history .ssi ++ k.view.letters .ssi).Sublist (arrivals k.history .ssi)
  prompt : (k.tcb .ssi).tStatus = .w4msg →
    (k.tcb .ssi).tWait4sender = none ∧ k.view.mailbox .ssi = []

@[simp] theorem arrivals_append (h h' : List Obs) (d : Tcb) :
    arrivals (h ++ h') d = arrivals h d ++ arrivals h' d := List.filterMap_append

@[simp] theorem receipts_append (h h' : List Obs) (d : Tcb) :
    receipts (h ++ h') d = receipts h d ++ receipts h' d := List.filterMap_append

theorem mem_receipts {hist : List Obs} {s d : Tcb} {pl : Value} :
    (s, pl) ∈ receipts hist d ↔ .received d (some s) pl ∈ hist := by
  rw [receipts, List.mem_filterMap]
  constructor
  · rintro ⟨o, ho, hsome⟩
    split at hsome
    · split at hsome <;> cases hsome
      rename_i hd
      exact hd ▸ ho
    · cases hsome
  · intro hm
    exact ⟨_, hm, by simp⟩

@[simp] theorem replies_append (h h' : List Obs) :
    replies (h ++ h') = replies h ++ replies h' := List.filterMap_append

theorem replies_of_mail {k k' : Kernel} (h : k'.mail = k.mail) :
    replies k'.history = replies k.history := by
  have hmail : ∀ hist, replies hist = replies (hist.filter Obs.isMail) := by
    intro hist
    rw [replies, replies, List.filterMap_filter]
    refine List.filterMap_congr fun o _ => ?_
    cases o with
    | received d s pl => cases s <;> simp [Obs.isMail]
    | _ => simp [Obs.isMail]
  rw [hmail, hmail k.history]
  exact congrArg replies h

/-- Only mail counts. -/
theorem order_of_mail {k k' : Kernel} (h : k'.mail = k.mail) (d : Tcb) :
    arrivals k'.history d = arrivals k.history d ∧ receipts k'.history d = receipts k.history d := by
  have harrivals : ∀ hist, arrivals hist d = arrivals (hist.filter Obs.isMail) d := by
    intro hist
    rw [arrivals, arrivals, List.filterMap_filter]
    refine List.filterMap_congr fun o _ => ?_
    cases o with
    | received d' s pl => cases s <;> simp [Obs.isMail]
    | _ => simp [Obs.isMail]
  have hreceipts : ∀ hist, receipts hist d = receipts (hist.filter Obs.isMail) d := by
    intro hist
    rw [receipts, receipts, List.filterMap_filter]
    refine List.filterMap_congr fun o _ => ?_
    cases o with
    | received d' s pl => cases s <;> simp [Obs.isMail]
    | _ => simp [Obs.isMail]
  rw [harrivals, hreceipts, harrivals k.history, hreceipts k.history]
  exact ⟨congrArg (arrivals · d) h, congrArg (receipts · d) h⟩

/-! ## Chores -/

namespace Chore

variable {k k' : Kernel}

theorem mailbox_of_eq (hlinks : k'.msgLinks = k.msgLinks) (hmsg : k'.msg = k.msg) (u : Tcb) :
    (k'.view.mailbox u).Sublist (k.view.mailbox u) := by
  rw [Kernel.mailbox_of_links hlinks hmsg]

/-- A termination only takes messages away. -/
theorem mailbox (F : k.Filed) (c : Chore k k') (u : Tcb) :
    (k'.view.mailbox u).Sublist (k.view.mailbox u) := by
  cases c with
  | @clean _ s d r get =>
      cases d with
      | none =>
          cases get
          exact .refl _
      | some d =>
          cases hp : k.view.pick (some s) d with
          | none =>
              rw [F.msgqGet_none hp] at get
              cases get
              exact .refl _
          | some m =>
              obtain ⟨k₁, hk₁, _, hmail⟩ := F.msgqGet_pick hp null
              obtain ⟨_, rfl⟩ := Prod.mk.inj (Except.ok.inj (hk₁.symm.trans get))
              rw [hmail, View.mailbox_freeMsg F hp]
              split
              · exact List.eraseP_sublist
              · exact .refl _
  | @drop t m head =>
      rw [F.msgQhead] at head
      have hp : k.view.pick none t = some m := Except.ok.inj head
      obtain ⟨hmsgs, hmsg⟩ := F.view_msgFree (View.mem_of_pick hp)
      rw [View.mailbox, hmsgs, show (msgFree k m).view.msg = _ from hmsg]
      change ((k.view.freeMsg t m).mailbox u).Sublist _
      rw [View.mailbox_freeMsg F hp]
      split
      · exact List.eraseP_sublist
      · exact .refl _
  | abort t =>
      obtain ⟨_, hlinks, hmsg⟩ := resumeThread_mail (k.modTcb t fun d => { d with errno := 1 }) t
        none null
      exact mailbox_of_eq hlinks hmsg u
  | free t =>
      unfold threadFree
      split
      · exact .refl _
      · split
        · exact .refl _
        · exact mailbox_of_eq rfl rfl u
  | delete p =>
      unfold procDelete
      split
      · exact .refl _
      · exact mailbox_of_eq rfl rfl u
  | alloc alloc =>
      obtain ⟨_, _, h⟩ := bind_eq_ok.mp alloc
      split at h <;> cases h
      · exact mailbox_of_eq rfl rfl u
      · exact .refl _
  | create s alloc =>
      obtain ⟨_, _, h⟩ := bind_eq_ok.mp alloc
      split at h <;> cases h
      exact mailbox_of_eq rfl rfl u
  | count | manage | wait | engage => exact mailbox_of_eq rfl rfl u

end Chore

/-! ## Operations -/

namespace Kernel.Orderly

variable {k k' : Kernel}

/-- Nothing has changed for the SSI. -/
theorem congr (O : k.Orderly)
    (harrivals : arrivals k'.history .ssi = arrivals k.history .ssi)
    (hreceipts : receipts k'.history .ssi = receipts k.history .ssi)
    (hmail : (k'.view.mailbox .ssi).Sublist (k.view.mailbox .ssi))
    (hblocked : (k'.tcb .ssi).tStatus = .w4msg → (k.tcb .ssi).tStatus = .w4msg ∧
      (k'.tcb .ssi).tWait4sender = (k.tcb .ssi).tWait4sender) : k'.Orderly := by
  constructor
  · rw [harrivals, hreceipts]
    exact ((List.Sublist.refl _).append (hmail.filterMap _)).trans O.order
  · intro hb
    obtain ⟨hb, hw⟩ := hblocked hb
    obtain ⟨hnone, hempty⟩ := O.prompt hb
    exact ⟨hw.trans hnone, List.sublist_nil.mp (hempty ▸ hmail)⟩

/-- A message for the SSI goes to its queue, or to the SSI if that waits. -/
theorem post {s : Option Tcb} {d : Tcb} {pl : Value} {w : Word} (O : k.Orderly) (F : k.Filed)
    (h : send k d s pl = .ok (w, k')) : k'.Orderly := by
  cases F.delivery h with
  | direct blocked _ resumed =>
      subst resumed
      obtain ⟨htcb, _, _, hhist⟩ := resumeThread_effect k d s pl
      obtain ⟨_, hlinks, hmsg⟩ := resumeThread_mail k d s pl
      have hmail : ((resumeThread k d s pl).record (.sent s d pl true)).view.mailbox =
          k.view.mailbox := Kernel.mailbox_of_links hlinks hmsg
      have hhist' : ((resumeThread k d s pl).record (.sent s d pl true)).history =
          k.history ++ [.received d s pl, .sent s d pl true] := by
        simp [Kernel.record, hhist]
      have hready : (((resumeThread k d s pl).record (.sent s d pl true)).tcb d).tStatus = .ready := by
        simp [Kernel.record, htcb]
      by_cases hd : d = .ssi
      · subst hd
        obtain ⟨_, hempty⟩ := O.prompt blocked
        have hletters : k.view.letters .ssi = [] := by simp [View.letters, hempty]
        refine ⟨?_, fun hb => ?_⟩
        · rw [hhist', View.letters, hmail, ← View.letters, hletters, arrivals_append,
            receipts_append, List.append_nil]
          have horder := O.order
          rw [hletters, List.append_nil] at horder
          refine horder.append ?_
          cases s <;> simp [receipts, arrivals]
        · rw [hready] at hb
          cases hb
      · have hother : ((resumeThread k d s pl).record (.sent s d pl true)).tcb .ssi = k.tcb .ssi := by
          simp [Kernel.record, htcb, Ne.symm hd]
        apply O.congr
        · rw [hhist', arrivals_append]
          cases s <;> simp [arrivals, hd]
        · rw [hhist', receipts_append]
          cases s <;> simp [receipts, hd]
        · rw [hmail]
        · rw [hother]
          exact fun hb => ⟨hb, rfl⟩
  | queued a signed busy mailbox rest =>
      subst signed
      have hhist : k'.history = k.history ++ [.sent (some a) d pl true] := by rw [rest]
      have htcb : k'.tcb = k.tcb := by rw [rest]
      by_cases hd : d = .ssi
      · subst hd
        refine ⟨?_, fun hb => ?_⟩
        · have hletters : k'.view.letters .ssi = k.view.letters .ssi ++ [(a, pl)] := by
            simp [View.letters, mailbox]
          rw [hhist, hletters, arrivals_append, receipts_append, ← List.append_assoc]
          have hnew : receipts [.sent (some a) .ssi pl true] .ssi = [] := rfl
          have harr : arrivals [.sent (some a) .ssi pl true] .ssi = [(a, pl)] := by
            simp [arrivals]
          rw [hnew, harr, List.append_nil]
          exact O.order.append (.refl _)
        · -- the SSI would have got the message at once
          rw [htcb] at hb
          exact absurd ⟨hb, Or.inr (O.prompt hb).1⟩ busy
      · apply O.congr
        · rw [hhist, arrivals_append]
          simp [arrivals, hd]
        · rw [hhist, receipts_append]
          simp [receipts]
        · rw [mailbox, if_neg (Ne.symm hd)]
        · rw [htcb]
          exact fun hb => ⟨hb, rfl⟩
  | failed lost =>
      subst lost
      apply O.congr
      · change arrivals (k.history ++ [_]) _ = _
        rw [arrivals_append]
        cases s <;> simp [arrivals]
      · change receipts (k.history ++ [_]) _ = _
        rw [receipts_append]
        simp [receipts]
      · exact .refl _
      · exact fun hb => ⟨hb, rfl⟩

/-- The SSI takes the first message in its queue. -/
theorem take {t : Tcb} {src : Option Tcb} {ptr : Value} {o : Option Tcb} {pl : Value} {k₁ : Kernel}
    (O : k.Orderly) (F : k.Filed) (anybody : t = .ssi → src = none)
    (h : msgqGet k (some src) (some t) ptr = .ok (some (o, pl), k₁)) :
    (k₁.record (.received t o pl)).Orderly := by
  obtain ⟨m, hp, rfl, rfl, htcb, hhist, hmail⟩ := F.taking h
  have hmailbox : (k₁.record (.received t (k.msg m).mSender (k.msg m).mValue)).view.mailbox .ssi =
      (k.view.freeMsg t m).mailbox .ssi := hmail .ssi
  have hhist' : (k₁.record (.received t (k.msg m).mSender (k.msg m).mValue)).history =
      k.history ++ [.received t (k.msg m).mSender (k.msg m).mValue] := by
    simp [Kernel.record, hhist]
  rw [View.mailbox_freeMsg F hp] at hmailbox
  by_cases ht : t = .ssi
  · subst ht
    obtain rfl := anybody rfl
    obtain ⟨rest, hq⟩ : ∃ rest, k.view.msgs (.of .ssi) = m :: rest :=
      List.head?_eq_some_iff.mp hp
    have hbox : k.view.mailbox .ssi = k.msg m :: rest.map k.msg := by
      rw [View.mailbox, hq, List.map_cons]
      rfl
    rw [if_pos rfl, hbox, List.eraseP_cons_of_pos (by simp [MsgT.eligible])] at hmailbox
    constructor
    · have hold := O.order
      rw [View.letters, hbox] at hold
      rw [hhist', View.letters, hmailbox, arrivals_append, receipts_append, List.append_assoc]
      have hnone : arrivals [.received .ssi (k.msg m).mSender (k.msg m).mValue] .ssi = [] := rfl
      rw [hnone, List.append_nil]
      cases hs : (k.msg m).mSender with
      | none => simpa [receipts, hs] using hold
      | some s => simpa [receipts, hs] using hold
    · intro hb
      change (k₁.tcb .ssi).tStatus = .w4msg at hb
      rw [htcb] at hb
      have hempty := (O.prompt hb).2
      rw [hbox] at hempty
      cases hempty
  · apply O.congr
    · rw [hhist', arrivals_append]
      exact List.append_nil _
    · rw [hhist', receipts_append]
      cases hs : (k.msg m).mSender <;> simp [receipts, ht]
    · rw [hmailbox, if_neg (Ne.symm ht)]
    · change (k₁.tcb .ssi).tStatus = .w4msg → _
      rw [htcb]
      exact fun hb => ⟨hb, congrArg TcbT.tWait4sender (congrFun htcb .ssi)⟩

theorem motion (F : k.Filed) (O : k.Orderly) {r : Option Tcb} (m : Motion r k k') : k'.Orderly := by
  cases m with
  | still same =>
      apply O.congr
      · rw [same.history]
      · rw [same.history]
      · rw [Kernel.mailbox_of_links same.links same.msg]
      · rw [same.status, same.wait]
        exact fun hb => ⟨hb, rfl⟩
  | post _ sent => exact O.post F sent
  | complete _ sent cleared =>
      have O₁ := O.post F sent
      rw [cleared]
      exact ⟨O₁.order, O₁.prompt⟩
  | turn _ turned =>
      rw [turned]
      exact ⟨O.order, O.prompt⟩
  | take _ anybody got recorded =>
      rw [recorded]
      exact O.take F anybody got
  | @block t src ptr _ anybody got blocked =>
      subst blocked
      by_cases ht : t = .ssi
      · subst ht
        obtain rfl := anybody rfl
        refine ⟨O.order, fun _ => ⟨?_, ?_⟩⟩
        · simp [Kernel.blocking, Kernel.modTcb]
        · cases hp : k.view.pick none .ssi with
          | some m =>
              rw [F.msgqGet_some hp] at got
              cases got
          | none =>
              have hempty : k.view.msgs (.of .ssi) = [] := List.head?_eq_none_iff.mp hp
              change k.view.mailbox .ssi = []
              rw [View.mailbox, hempty, List.map_nil]
      · refine O.congr rfl rfl (.refl _) ?_
        have hother : (k.blocking t src).tcb .ssi = k.tcb .ssi := by
          simp [Kernel.blocking, Kernel.modTcb, Ne.symm ht]
        rw [hother]
        exact fun hb => ⟨hb, rfl⟩
  | chore _ c =>
      obtain ⟨harrivals, hreceipts⟩ := order_of_mail (Quiet.chore c).mail .ssi
      exact O.congr harrivals hreceipts (c.mailbox F .ssi) c.blocked

end Kernel.Orderly

/-! ## Runs -/

/-- A sublist with as many elements of each kind is the whole list. -/
theorem eq_of_sublist_of_filter {A B : Type} [DecidableEq B] (key : A → B) {l₁ l₂ : List A}
    (h : l₁.Sublist l₂)
    (hk : ∀ b, (l₁.filter fun a => key a = b).length = (l₂.filter fun a => key a = b).length) :
    l₁ = l₂ := by
  induction h with
  | slnil => rfl
  | @cons l₁ l₂ a h ih =>
      -- the element that is left out is missing among those of its kind
      have hle := (h.filter fun a' => decide (key a' = key a)).length_le
      have heq := hk (key a)
      simp only [List.filter_cons, decide_true, if_true, List.length_cons] at heq
      omega
  | @cons_cons l₁ l₂ a h ih =>
      congr 1
      refine ih fun b => ?_
      have heq := hk b
      by_cases hb : key a = b <;> simpa [List.filter_cons, hb] using heq

theorem received_eq (hist : List Obs) (s d : Tcb) :
    received hist s d = ((receipts hist d).filter fun m => m.1 = s).map Prod.snd := by
  induction hist with
  | nil => rfl
  | cons o hist ih =>
      simp only [received, receipts, List.filterMap_cons] at ih ⊢
      cases o with
      | received d' a pl =>
          cases a with
          | none => simpa using ih
          | some a => by_cases hd : d' = d <;> by_cases ha : a = s <;> simp [hd, ha, ih]
      | _ => exact ih

theorem sent_eq (hist : List Obs) (s d : Tcb) :
    sent hist s d = ((arrivals hist d).filter fun m => m.1 = s).map Prod.snd := by
  induction hist with
  | nil => rfl
  | cons o hist ih =>
      simp only [sent, arrivals, List.filterMap_cons] at ih ⊢
      cases o with
      | sent a d' pl success =>
          cases a with
          | none => simpa using ih
          | some a =>
              cases success
              · simpa using ih
              · by_cases hd : d' = d <;> by_cases ha : a = s <;> simp [hd, ha, ih]
      | _ => exact ih

theorem pending_eq (v : View) (s d : Tcb) :
    v.pending s d = ((v.letters d).filter fun m => m.1 = s).map Prod.snd := by
  simp only [View.pending, View.letters]
  induction v.mailbox d with
  | nil => rfl
  | cons e rest ih =>
      cases hs : e.mSender with
      | none => simp [hs, ih]
      | some a => by_cases ha : a = s <;> simp [hs, ha, ih]

/-- While nobody is freed, the accounts of `d` are kept. -/
theorem Good.accounts_of_unfreed {k k' : Kernel} {es : List Event} (d : Tcb) (H : Good k)
    (A : (∀ t, .freed t ∉ k.history) → k.view.Accounts d) (run : Run RegularStep k es k')
    (hfree : ∀ t, .freed t ∉ k'.history) : k'.view.Accounts d := by
  have hboth : Good k' ∧ ((∀ t, .freed t ∉ k'.history) → k'.view.Accounts d) := by
    apply run.invariant (P := fun k => Good k ∧ ((∀ t, .freed t ∉ k.history) → k.view.Accounts d))
      _ ⟨H, A⟩
    rintro k e k' ⟨H, A⟩ ⟨hr, fuel, h⟩
    refine ⟨(H.step hr h).1, fun hfree => ?_⟩
    have hv : k.casualties e = [] := by
      by_contra hv
      obtain ⟨hist, hh, _, hfreed⟩ := H.history_of_casualties hr hv h
      obtain ⟨t, ht⟩ := List.exists_mem_of_ne_nil _ hv
      refine hfree t ?_
      rw [hh]
      exact List.mem_append_right _ ((hfreed t).mpr ht)
    have hold : ∀ t, .freed t ∉ k.history := by
      intro t
      have hinc := congrFun (H.unreaped hv h).1 t
      rw [Kernel.incarnation, Kernel.incarnation] at hinc
      rw [← List.count_eq_zero, ← hinc, List.count_eq_zero]
      exact hfree t
    exact H.accounts hr h (A hold) (by simp [hv])
  exact hboth.2 hfree

theorem Kernel.Orderly.boot {hw : Hardware} {k : Kernel} (hb : MikaBoo.boot hw = .ok k) :
    k.Orderly := by
  obtain ⟨k', hk', R⟩ := boot_ok hw
  obtain rfl := Except.ok.inj (hb.symm.trans hk')
  have hhist : k.history = [.allocated (.thread 0)] := R.history.symm
  have hmail : k.view.mailbox .ssi = [] := by
    rw [← R.eq_view]
    rfl
  have hready : (k.tcb .ssi).tStatus = .ready := by
    rw [← R.tcb]
    rfl
  constructor
  · rw [hhist, View.letters, hmail]
    exact .refl _
  · rw [hready]
    rintro ⟨⟩

theorem Kernel.Orderly.run {hw : Hardware} {k₀ k : Kernel} {es : List Event}
    (hb : MikaBoo.boot hw = .ok k₀) (run : Run Step k₀ es k) : k.Orderly :=
  Motions.run (fun F O m => O.motion F m) hb (.boot hb) run

/-- Unless threads are freed, nothing that the SSI has been sent is lost. -/
theorem Kernel.Orderly.conserved {hw : Hardware} {k₀ k : Kernel} {es : List Event} (O : k.Orderly)
    (hb : MikaBoo.boot hw = .ok k₀) (run : Run RegularStep k₀ es k)
    (hfree : ∀ t, .freed t ∉ k.history) :
    receipts k.history .ssi ++ k.view.letters .ssi = arrivals k.history .ssi := by
  have A := (Good.boot hb).accounts_of_unfreed .ssi (fun _ => Good.accounts_boot hb .ssi) run hfree
  refine eq_of_sublist_of_filter Prod.fst O.order fun s => ?_
  have hpresent : present k.history s .ssi = k.history := by
    rw [present, List.rtakeWhile_eq_self_iff]
    intro o ho
    have hne : ∀ t, o ≠ .freed t := by
      rintro t rfl
      exact hfree t ho
    simp [hne]
  have hcarried := congrArg List.length (A.carried s)
  change (received (present k.history s .ssi) s .ssi ++ _).length =
    (sent (present k.history s .ssi) s .ssi).length at hcarried
  rw [hpresent, received_eq, sent_eq, pending_eq] at hcarried
  simpa [List.filter_append] using hcarried

/-- The SSI takes requests in the order in which they were sent, whoever sent them, and is never
blocked while there is one. In a regular run none is lost unless threads are terminated. -/
theorem requests_in_order {hw : Hardware} {k₀ k : Kernel} {es : List Event}
    (hb : boot hw = .ok k₀) (run : Run Step k₀ es k) :
    (receipts k.history .ssi ++ k.view.letters .ssi).Sublist (arrivals k.history .ssi) ∧
      ((k.tcb .ssi).tStatus = .w4msg → k.view.mailbox .ssi = []) ∧
      (Run RegularStep k₀ es k → (∀ t, .freed t ∉ k.history) →
        receipts k.history .ssi ++ k.view.letters .ssi = arrivals k.history .ssi) := by
  have O : k.Orderly := .run hb run
  exact ⟨O.order, fun hw => (O.prompt hw).2, fun run hfree => O.conserved hb run hfree⟩

/-- A thread has sent two requests, and the SSI has taken the first one. -/
theorem requests_in_order_sample : ∃ k₀ k : Kernel, boot Sample.hardware = .ok k₀ ∧
    receipts k.history .ssi = [(.thread 0, .int 0x100)] ∧
    k.view.letters .ssi = [(.thread 0, .int 0x104)] ∧
    receipts k.history .ssi ++ k.view.letters .ssi = arrivals k.history .ssi := by
  let es := [.start, .ssi] ++ Sample.request [.int 8] ++ Sample.send .ssi (.int 0x104) [.int 8]
  let check : Kernel → Bool := fun k =>
    receipts k.history .ssi = [(.thread 0, .int 0x100)] ∧
      k.view.letters .ssi = [(.thread 0, .int 0x104)] ∧
      k.history.all fun | .freed _ => false | _ => true
  have h : (execute Regular Sample.hardware 100 es).any check = true := by decide +kernel
  obtain ⟨k, hk, hprops⟩ := Option.any_eq_true _ _ |>.mp h
  obtain ⟨k₀, hb, run⟩ := run_of_execute hk
  obtain ⟨hreceipts, hletters, hall⟩ := of_decide_eq_true hprops
  refine ⟨k₀, k, hb, hreceipts, hletters, ?_⟩
  apply (requests_in_order hb (forget_guard run)).2.2 run
  intro t ht
  have hfalse := List.all_eq_true.mp hall _ ht
  cases hfalse

end MikaBoo
