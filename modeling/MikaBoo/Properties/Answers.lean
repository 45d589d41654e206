import MikaBoo.Properties.Memory
import MikaBoo.Properties.Service
import MikaBoo.Properties.Slots

/-!
# The SSI as a server

The SSI holds at most one request. It serves every request that it has received once, in the order
in which it has received them, and sends at most one message for each.
-/

namespace MikaBoo

open Intrusive Fuel Transition

/-- The requests that the SSI has served and the threads that they are from, in this order. -/
abbrev ServiceLog := List (Tcb × Value)

/-- The log after a step from `k`. -/
def ServiceLog.after (g : ServiceLog) (k : Kernel) (e : Event) : ServiceLog :=
  if k.serves e then g ++ (k.applicant.map fun t => (t, k.ssiMsg)).toList else g

/-- A step, and the log that is kept of it. -/
def Logged (guard : Kernel → Event → Prop) (s : Kernel × ServiceLog) (e : Event)
    (s' : Kernel × ServiceLog) : Prop :=
  GuardedStep guard s.1 e s'.1 ∧ s'.2 = s.2.after s.1 e

/-- The number of messages that the SSI has sent to `t`. -/
def answers (hist : List Obs) (t : Tcb) : Nat := ((replies hist).map Prod.fst).count t

namespace Kernel

/-- The threads that the SSI has received messages from, in this order. -/
def callers (k : Kernel) : List Tcb := (receipts k.history .ssi).map Prod.fst

/-- The thread whose message the SSI has received and not yet served. -/
def held (k : Kernel) : Option Tcb :=
  if k.ssiPoint = .serving ∧ (k.tcb .ssi).tStatus = .ready then
    (if k.currentThread = some .ssi then k.cpu.a1 else (k.tcb .ssi).tS.a1).tcb?
  else none

/-- The thread whose request the event serves. -/
def served (k : Kernel) (e : Event) : List Tcb :=
  if k.serves e then k.applicant.toList else []

/-- The devices that the thread waits for. -/
def engagements (k : Kernel) (t : Tcb) : Nat :=
  (Finset.univ.filter fun i => k.softBlockedThread i = some t).card

end Kernel

@[simp] theorem answers_append (h h' : List Obs) (t : Tcb) :
    answers (h ++ h') t = answers h t + answers h' t := by
  simp [answers]

theorem answers_of_mail {k k' : Kernel} (h : k'.mail = k.mail) (t : Tcb) :
    answers k'.history t = answers k.history t := by
  rw [answers, answers, replies_of_mail h]

theorem answers_of_foreign {s : Option Tcb} (hs : s ≠ some .ssi) (d t : Tcb) (pl : Value)
    (success : Bool) : answers [.sent s d pl success] t = 0 := by
  cases s with
  | none => rfl
  | some s => cases s <;> first | rfl | exact absurd rfl hs

theorem answers_of_ssi (d t : Tcb) (pl : Value) (success : Bool) :
    answers [.sent (some .ssi) d pl success] t = if d = t then 1 else 0 := by
  simp [answers, replies, List.count_singleton]

theorem answers_received (d t : Tcb) (o : Option Tcb) (pl : Value) :
    answers [.received d o pl] t = 0 := rfl

namespace Kernel

variable {k k' : Kernel} {t u : Tcb} {i : Fin 5}

theorem engagements_congr (h : k'.softBlockedThread = k.softBlockedThread) :
    k'.engagements t = k.engagements t := by
  rw [engagements, engagements, h]

/-- A thread whose completion has arrived waits for one device less. -/
theorem engagements_clear (hi : k.softBlockedThread i = some u)
    (h : k'.softBlockedThread = Function.update k.softBlockedThread i none) :
    k'.engagements t + (if u = t then 1 else 0) = k.engagements t := by
  have hset : (Finset.univ.filter fun j => k'.softBlockedThread j = some t) =
      (Finset.univ.filter fun j => k.softBlockedThread j = some t).erase i := by
    ext j
    rw [Finset.mem_erase, Finset.mem_filter, Finset.mem_filter, h]
    by_cases hj : j = i
    · subst hj
      simp
    · simp [hj]
  rw [engagements, engagements, hset]
  by_cases hu : u = t
  · subst hu
    have hm : i ∈ Finset.univ.filter fun j => k.softBlockedThread j = some u := by simp [hi]
    rw [if_pos rfl, Finset.card_erase_add_one hm]
  · have hm : i ∉ Finset.univ.filter fun j => k.softBlockedThread j = some t := by simp [hi, hu]
    rw [if_neg hu, Finset.erase_eq_of_notMem hm, Nat.add_zero]

/-- A device has at most one thread waiting for it. -/
theorem engagements_fill
    (h : k'.softBlockedThread = Function.update k.softBlockedThread i (some u)) :
    k'.engagements t ≤ k.engagements t + if u = t then 1 else 0 := by
  have hsub : (Finset.univ.filter fun j => k'.softBlockedThread j = some t) ⊆
      (Finset.univ.filter fun j => k.softBlockedThread j = some t) ∪ if u = t then {i} else ∅ := by
    intro j hj
    rw [Finset.mem_filter, h] at hj
    rw [Finset.mem_union, Finset.mem_filter]
    by_cases hji : j = i
    · subst hji
      have hu : u = t := by simpa using hj.2
      simp [hu]
    · simp only [Function.update_of_ne hji] at hj
      exact Or.inl hj
  have hcard := (Finset.card_le_card hsub).trans (Finset.card_union_le _ _)
  refine hcard.trans (Nat.add_le_add_left ?_ _)
  by_cases hu : u = t <;> simp [hu]

end Kernel

/-! ## What others do -/

/-- What happens to the SSI while another thread is on the processor: completions are sent in its
name, and if it waits it may get one message. -/
structure Relay (k k' : Kernel) : Prop where
  past : k.history ⊆ k'.history
  point : k'.ssiPoint = k.ssiPoint
  talk : ∀ t, answers k'.history t + k'.engagements t = answers k.history t + k.engagements t
  hear : (∀ d pl success, .sent none d pl success ∉ k'.history) →
    ((k'.tcb .ssi).tStatus = (k.tcb .ssi).tStatus ∧ k'.callers = k.callers) ∨
      ((k.tcb .ssi).tStatus = .w4msg ∧ (k'.tcb .ssi).tStatus = .ready ∧
        ∃ a, k'.callers = k.callers ++ [a])

namespace Relay

variable {k k₁ k' : Kernel} {s r : Option Tcb} {d : Tcb} {pl : Value} {w : Word}

theorem refl (k : Kernel) : Relay k k :=
  ⟨List.Subset.refl _, rfl, fun _ => rfl, fun _ => Or.inl ⟨rfl, rfl⟩⟩

theorem trans (h₁ : Relay k k₁) (h₂ : Relay k₁ k') : Relay k k' := by
  refine ⟨List.Subset.trans h₁.past h₂.past, h₂.point.trans h₁.point,
    fun t => (h₂.talk t).trans (h₁.talk t), fun hsigned => ?_⟩
  have hlast := h₂.hear hsigned
  rcases h₁.hear (fun d pl success hm => hsigned d pl success (h₂.past hm)) with
    ⟨hst₁, hc₁⟩ | ⟨hw₁, hr₁, a, hc₁⟩
  · rw [hst₁, hc₁] at hlast
    exact hlast
  · rcases hlast with ⟨hst₂, hc₂⟩ | ⟨hw₂, _⟩
    · exact Or.inr ⟨hw₁, hst₂.trans hr₁, a, hc₂.trans hc₁⟩
    · rw [hr₁] at hw₂
      cases hw₂

end Relay

theorem resumeThread_point (k : Kernel) (d : Tcb) (s : Option Tcb) (pl : Value) :
    (resumeThread k d s pl).ssiPoint = k.ssiPoint := by
  change (deliverDirectly k d s pl).ssiPoint = k.ssiPoint
  unfold deliverDirectly
  dsimp only [Kernel.record]
  split
  · rfl
  · cases ((k.modTcb d _).tcb d).tS.a3 <;> rfl

/-- What one `send` means for the SSI. -/
structure Sending (k : Kernel) (s : Option Tcb) (d : Tcb) (pl : Value) (k' : Kernel) : Prop where
  past : k.history ⊆ k'.history
  point : k'.ssiPoint = k.ssiPoint
  slots : k'.softBlockedThread = k.softBlockedThread
  sent : ∃ success, .sent s d pl success ∈ k'.history ∧
    ∀ t, answers k'.history t = answers k.history t + answers [.sent s d pl success] t
  other : d ≠ .ssi → (k'.tcb .ssi).tStatus = (k.tcb .ssi).tStatus ∧ k'.callers = k.callers
  hear : s ≠ none → ((k'.tcb .ssi).tStatus = (k.tcb .ssi).tStatus ∧ k'.callers = k.callers) ∨
    ((k.tcb .ssi).tStatus = .w4msg ∧ (k'.tcb .ssi).tStatus = .ready ∧
      ∃ a, k'.callers = k.callers ++ [a])

theorem Kernel.callers_append {k k' : Kernel} {hist : List Obs}
    (h : k'.history = k.history ++ hist) :
    k'.callers = k.callers ++ (receipts hist .ssi).map Prod.fst := by
  rw [Kernel.callers, Kernel.callers, h, receipts_append, List.map_append]

theorem Kernel.Filed.sending {k k' : Kernel} {s : Option Tcb} {d : Tcb} {pl : Value} {w : Word}
    (F : k.Filed) (h : MikaBoo.send k d s pl = .ok (w, k')) : Sending k s d pl k' := by
  have slots : k'.softBlockedThread = k.softBlockedThread :=
    (congrArg (fun c : Kept => c.counts.softBlockedThread) (Frame.send h) :)
  -- only a message that wakes the SSI means anything to it
  have quiet : ∀ {success}, k'.history = k.history ++ [.sent s d pl success] → k'.tcb = k.tcb →
      k'.ssiPoint = k.ssiPoint → Sending k s d pl k' := by
    intro success adds htcb point
    have same : (k'.tcb .ssi).tStatus = (k.tcb .ssi).tStatus ∧ k'.callers = k.callers := by
      refine ⟨by rw [htcb], ?_⟩
      rw [Kernel.callers_append adds]
      exact List.append_nil _
    exact ⟨adds ▸ List.subset_append_left _ _, point, slots,
      ⟨success, by simp [adds], fun t => by rw [adds, answers_append]⟩, fun _ => same,
      fun _ => Or.inl same⟩
  cases F.delivery h with
  | direct blocked eligible resumed =>
      subst resumed
      obtain ⟨htcb, _, _, hhist⟩ := resumeThread_effect k d s pl
      have adds : ((resumeThread k d s pl).record (.sent s d pl true)).history =
          k.history ++ ([.received d s pl] ++ [.sent s d pl true]) := by
        simp [Kernel.record, hhist]
      have hcallers := Kernel.callers_append adds
      have other : d ≠ .ssi →
          (((resumeThread k d s pl).record (.sent s d pl true)).tcb .ssi).tStatus =
            (k.tcb .ssi).tStatus ∧
          ((resumeThread k d s pl).record (.sent s d pl true)).callers = k.callers := by
        intro hd
        refine ⟨by simp [Kernel.record, htcb, Ne.symm hd], ?_⟩
        rw [hcallers]
        cases s <;> simp [receipts, hd]
      refine ⟨adds ▸ List.subset_append_left _ _, resumeThread_point k d s pl, slots,
        ⟨true, by simp [adds], fun t => ?_⟩, other, fun hs => ?_⟩
      · rw [adds, answers_append, answers_append, answers_received, Nat.zero_add]
      · obtain ⟨a, rfl⟩ := Option.ne_none_iff_exists'.mp hs
        by_cases hd : d = .ssi
        · subst hd
          refine Or.inr ⟨blocked, ?_, a, ?_⟩
          · simp [Kernel.record, htcb]
          · rw [hcallers]
            simp [receipts]
        · exact Or.inl (other hd)
  | queued a signed busy mailbox rest =>
      subst signed
      exact quiet (by rw [rest]) (by rw [rest]) (by rw [rest])
  | failed lost =>
      subst lost
      exact quiet rfl rfl rfl

namespace Relay

variable {k k₁ k' : Kernel} {s r : Option Tcb} {d : Tcb} {pl : Value} {w : Word}

/-- A message in the name of another thread. -/
theorem of_post (F : k.Filed) (hs : s ≠ some .ssi) (h : send k d s pl = .ok (w, k')) :
    Relay k k' := by
  have S := F.sending h
  obtain ⟨success, hm, hanswers⟩ := S.sent
  refine ⟨S.past, S.point, fun t => ?_, fun hsigned => S.hear ?_⟩
  · rw [hanswers, answers_of_foreign hs, Kernel.engagements_congr S.slots, Nat.add_zero]
  · rintro rfl
    exact hsigned d pl success hm

/-- A completion in the name of the SSI. -/
theorem of_complete {i : Fin 5} (F : k.Filed) (awaited : k.softBlockedThread i = some d)
    (h : send k d (some .ssi) pl = .ok (w, k₁)) :
    Relay k { k₁ with softBlockedThread := Function.update k₁.softBlockedThread i none } := by
  have S := F.sending h
  obtain ⟨success, _, hanswers⟩ := S.sent
  let k₂ : Kernel := { k₁ with softBlockedThread := Function.update k₁.softBlockedThread i none }
  have hslots : k₂.softBlockedThread = Function.update k.softBlockedThread i none :=
    congrArg (Function.update · i none) S.slots
  refine ⟨S.past, S.point, fun t => ?_, fun _ => S.hear (by simp)⟩
  change answers k₁.history t + k₂.engagements t = _
  rw [hanswers, answers_of_ssi, ← Kernel.engagements_clear awaited hslots]
  omega

theorem motion (F : k.Filed) (hr : r ≠ some .ssi) (m : Motion r k k') : Relay k k' := by
  cases m with
  | still same =>
      refine ⟨by rw [same.history]; exact List.Subset.refl _, same.point, fun t => ?_,
        fun _ => Or.inl ⟨same.status .ssi, ?_⟩⟩
      · rw [same.history, Kernel.engagements_congr same.slots]
      · rw [Kernel.callers, Kernel.callers, same.history]
  | post signed sent => exact of_post F (signed ▸ hr) sent
  | complete awaited sent cleared =>
      rw [cleared]
      exact of_complete F awaited sent
  | turn running => exact absurd running hr
  | @take t src ptr o pl k₁ running _ got recorded =>
      have ht : t ≠ .ssi := by
        rintro rfl
        exact hr running
      obtain ⟨m, hp, _, _, htcb, hhist, _⟩ := F.taking got
      have adds : k'.history = k.history ++ [.received t o pl] := by
        rw [recorded, Kernel.record, hhist]
      have hkept : k₁.kept = k.kept := Frame.msgqGet got
      have hpoint : k₁.ssiPoint = k.ssiPoint := by
        rw [F.msgqGet_some hp] at got
        obtain ⟨_, rfl⟩ := Prod.mk.inj (Except.ok.inj got)
        exact congrArg (fun v : View => v.globals.ssiPoint) (Kernel.Filed.view_storeVal k ptr m)
      refine ⟨adds ▸ List.subset_append_left _ _, by rw [recorded]; exact hpoint, fun t => ?_,
        fun _ => Or.inl ⟨?_, ?_⟩⟩
      · rw [adds, answers_append, answers_received, Nat.add_zero, Kernel.engagements_congr]
        rw [recorded]
        exact (congrArg (fun c : Kept => c.counts.softBlockedThread) hkept :)
      · rw [recorded]
        exact congrArg TcbT.tStatus (congrFun htcb .ssi)
      · rw [Kernel.callers_append adds]
        cases o <;> simp [receipts, ht]
  | @block t src ptr running _ _ blocked =>
      have ht : t ≠ .ssi := by
        rintro rfl
        exact hr running
      subst blocked
      refine ⟨List.Subset.refl _, rfl, fun _ => rfl, fun _ => Or.inl ⟨?_, rfl⟩⟩
      simp [Kernel.blocking, Kernel.modTcb, Ne.symm ht]
  | chore running => exact absurd running hr

theorem motions (F : k.Filed) (hr : r ≠ some .ssi) (ms : Motions r k k') : Relay k k' :=
  ms.keeps (P := Relay k) (fun F h m => h.trans (motion F hr m)) F (.refl k)

end Relay

/-! ## What the SSI does -/

/-- A receive that blocks charges the clock, and does nothing else to others. -/
theorem Goes.recv_blocks {scope : Scope} {c : Config} {k k' : Kernel} {t : Tcb} {fuel : Nat}
    {src : Option Tcb} {ptr : Value} (G : Goes scope c k (some t)) (hc : k.currentThread = some t)
    (h : MikaBoo.recv fuel k src ptr = .ok (.schedule, k')) : k.view.pick src t = none ∧
      ∃ pc, k' = threadEnqueue { k.blocking t src with pseudoclock := pc } t
        (src.elim .blockedq .tWait4me) := by
  have F : k.Filed := G.refines.msgs
  simp only [MikaBoo.recv, hc] at h
  split at h
  · cases h
  · cases hp : k.view.pick src t with
    | some m =>
        rw [F.msgqGet_some hp] at h
        cases h
    | none =>
        rw [F.msgqGet_none hp, ok_bind] at h
        have hclock : (k.blocking t src).schedLinks.listNext .tWait4clock = none := G.clockNext
        obtain ⟨k₂, hk₂, h⟩ := bind_eq_ok.mp h
        obtain ⟨pc, rfl⟩ := updateClock_of_empty (k := k.blocking t src) hclock hk₂
        refine ⟨rfl, pc, ?_⟩
        cases src <;> cases h <;> rfl

/-- The SSI has received requests from the threads `g`, which it has served, and the one that it
holds. -/
structure Kernel.Sequential (k : Kernel) (g : List Tcb) : Prop where
  good : Good k
  holding : k.view.Holding
  holds : k.Holds (Latest k.history)
  signed : ∀ d pl success, .sent none d pl success ∉ k.history
  order : k.callers = g ++ k.held.toList
  awake : k.ssiPoint = .receiving → (k.tcb .ssi).tStatus = .ready
  answered : ∀ t, answers k.history t + k.engagements t ≤ g.count t

namespace Kernel

variable {k k' : Kernel} {g : List Tcb} {t a : Tcb} {e : Event} {fuel : Nat}

theorem callers_of_latest (h : Latest k.history t) : ∃ l, k.callers = l ++ [t] := by
  obtain ⟨h, h', pl, hhist, _, hr⟩ := h
  have hnone : receipts h' .ssi = [] := by
    rw [receipts, List.filterMap_eq_nil_iff]
    intro o ho
    cases o with
    | received d s pl =>
        have hd : d ≠ .ssi := by
          rintro rfl
          exact hr s pl ho
        cases s <;> simp [hd]
    | _ => rfl
  have hone : receipts (.received .ssi (some t) pl :: h') .ssi = [(t, pl)] := by
    rw [← List.singleton_append, receipts_append, hnone]
    simp [receipts]
  refine ⟨(receipts h .ssi).map Prod.fst, ?_⟩
  rw [callers, hhist, receipts_append, hone, List.map_append]
  rfl

theorem held_of_free (h : k.ssiPoint = .receiving ∨ (k.tcb .ssi).tStatus ≠ .ready) :
    k.held = none := by
  rw [held, if_neg]
  rintro ⟨hp, hs⟩
  rcases h with h | h
  · rw [hp] at h
    cases h
  · exact h hs

/-- The SSI that has a message and is not waiting knows whom it has it from. -/
theorem held_of_busy (H : Good k) (K : k.view.Holding) (hl : k.Holds (Latest k.history))
    (hp : k.ssiPoint = .serving) (hs : (k.tcb .ssi).tStatus = .ready) :
    ∃ t, k.held = some t ∧ Latest k.history t := by
  by_cases hc : k.currentThread = some .ssi
  · obtain ⟨t, ht, L⟩ := hl hc hp
    refine ⟨t, ?_, L⟩
    simp [held, hp, hs, hc, ht, Value.tcb?]
  · have hne : (k.view.tcb .ssi).tStatus ≠ .none := by
      rw [show (k.view.tcb .ssi).tStatus = .ready from hs]
      simp
    obtain ⟨h, hm⟩ := (H.inv.scheduled.somewhere hne).resolve_left hc
    obtain ⟨t, ht, L⟩ := K h hm hs hp
    refine ⟨t, ?_, L⟩
    have ht : (k.tcb .ssi).tS.a1 = .tcb t := ht
    simp [held, hp, hs, hc, ht, Value.tcb?]

/-- If it has received one message more than it has served, that is the one that it holds. -/
theorem order_of_busy (H : Good k) (K : k.view.Holding) (hl : k.Holds (Latest k.history))
    (hp : k.ssiPoint = .serving) (hs : (k.tcb .ssi).tStatus = .ready) (h : k.callers = g ++ [a]) :
    k.callers = g ++ k.held.toList := by
  obtain ⟨t, hheld, L⟩ := held_of_busy H K hl hp hs
  obtain ⟨l, hcallers⟩ := callers_of_latest L
  obtain ⟨_, ha⟩ := List.append_inj' (h.symm.trans hcallers) rfl
  rw [h, hheld, ha]
  rfl

theorem held_eq_applicant (hc : k.currentThread = some .ssi) (hp : k.ssiPoint = .serving)
    (hs : (k.tcb .ssi).tStatus = .ready) : k.held = k.applicant := by
  rw [held, if_pos ⟨hp, hs⟩, if_pos hc, applicant]
  cases k.cpu.a1 <;> rfl

/-- DO_IO gets no reply. -/
theorem silent_of_doIo {msg : Value} {o : Option Value}
    (h : service fuel k t msg .doIo = .ok (o, k')) : o = none := by
  obtain ⟨_, _, h⟩ := bind_eq_ok.mp h
  obtain ⟨_, _, h⟩ := bind_eq_ok.mp h
  obtain ⟨_, _, h⟩ := bind_eq_ok.mp h
  obtain ⟨_, _, h⟩ := bind_eq_ok.mp h
  obtain ⟨_, _, h⟩ := bind_eq_ok.mp h
  cases h
  rfl

/-- A service engages its applicant for one device, or nobody. -/
theorem engagements_served {msg : Value} {q : Request} {r : Option Value}
    (S : Served k t msg q r k') (u : Tcb) :
    (q ≠ .doIo → k'.engagements u = k.engagements u) ∧
      k'.engagements u ≤ k.engagements u + if t = u then 1 else 0 := by
  by_cases hq : q = .doIo
  · refine ⟨fun hne => absurd hq hne, ?_⟩
    cases S with
    | engage _ _ engaged =>
        exact engagements_fill (congrArg (fun c : Kept => c.counts.softBlockedThread) engaged)
    | plain same =>
        rw [engagements_congr (congrArg (fun c : Kept => c.counts.softBlockedThread) same)]
        exact Nat.le_add_right _ _
    | create scope | free request =>
        subst hq
        first | cases scope | cases request
    | terminate process =>
        subst hq
        simp [terminated, Request.role] at process
    | appoint manager =>
        subst hq
        rw [Served.appointment_of_role rfl] at manager
        cases manager
  · have hsame := engagements_congr (t := u) (S.slots hq)
    exact ⟨fun _ => hsame, by rw [hsame]; exact Nat.le_add_right _ _⟩

/-- The reply to another thread. -/
theorem reply_sent {caller : State} {v : Value} (F : k.Filed) (hc : k.currentThread = some .ssi)
    (ht : t ≠ .ssi) (h : msgsend k caller t v = .ok k') :
    k'.callers = k.callers ∧
      ∀ u, answers k'.history u = answers k.history u + if t = u then 1 else 0 := by
  obtain ⟨⟨w, k₂⟩, hk₂, h⟩ := bind_eq_ok.mp h
  cases h
  let k₁ : Kernel := { k.enter with
    sysbkOldarea := { caller with a1 := SYS_SEND, a2 := .tcb t, a3 := v, a4 := null } }
  have F₁ : k₁.Filed := F.congr rfl
  have S : Sending k₁ k₁.currentThread t v k₂ := F₁.sending hk₂
  obtain ⟨success, _, hanswers⟩ := S.sent
  refine ⟨(S.other ht).2, fun u => ?_⟩
  change answers k₂.history u = _
  rw [hanswers, show k₁.currentThread = some .ssi from hc, answers_of_ssi]
  rfl

/-- Only time passes while the SSI is on the processor and does nothing. -/
theorem elapses (H : Good k) (hc : k.currentThread = some .ssi) (he : e ≠ .ssi)
    (h : MikaBoo.step fuel k e = .ok k') : ∃ n, k' = { k with timer := k.timer - n } := by
  obtain ⟨⟨x, k₁⟩, hk₁, hleave⟩ := bind_eq_ok.mp h
  obtain ⟨n, rfl⟩ := (Vouched.event_of_ssi H hc hk₁).resolve_left he
  simp only [entry] at hk₁
  split at hk₁
  · cases hk₁
    cases hleave
    exact ⟨n, rfl⟩
  · cases hk₁

/-- The SSI has no request when it runs without serving one. -/
theorem receiving_of_idle (hs : ¬ k.serves .ssi = true) : k.ssiPoint = .receiving := by
  cases hp : k.ssiPoint with
  | receiving => rfl
  | serving => exact absurd (by simp [serves, hp]) hs

namespace Sequential

/-- The SSI serves the request that it holds. -/
theorem serve (S : k.Sequential g) (hr : Regular k e) (hs : k.serves e = true)
    (h : step fuel k e = .ok k') :
    k'.callers = g ++ k.applicant.toList ∧ k'.ssiPoint = .receiving ∧
      (k'.tcb .ssi).tStatus = .ready ∧ ∀ u, answers k'.history u + k'.engagements u ≤
        answers k.history u + k.engagements u + k.applicant.toList.count u := by
  have H := S.good
  have H' : Good k' := (H.step hr h).1
  rcases step_served H.rolls h with ⟨hns, _⟩ | ⟨t, q, r, rfl, _, ha, hq, V⟩
  · rw [hs] at hns
    cases hns
  obtain ⟨hc, k₁, o, hk₁, hrest⟩ := ssi_step ha hq h
  have hp := point_of_request hq
  have hready : (k.tcb .ssi).tStatus = .ready := H.inv.scheduled.running hc
  have hne : t ≠ .ssi := by
    obtain ⟨u, hu, hne⟩ := H.holds hc hp
    simp only [Kernel.applicant, hu] at ha
    exact Option.some.inj ha ▸ hne
  have hcallers : k.callers = g ++ k.applicant.toList := by
    rw [← held_eq_applicant hc hp hready]
    exact S.order
  -- the end of the step
  have hend : k'.ssiPoint = .receiving ∧ k'.currentThread = some .ssi := by
    obtain ⟨⟨x, k₂⟩, hk₂, hleave⟩ := bind_eq_ok.mp h
    have hthread := (H.entry hr hk₂).1.thread.trans hc
    simp only [entry] at hk₂
    split at hk₂
    · obtain ⟨_, _, _, _, _, _, _, hx⟩ := ssi_serves hp hk₂
      obtain ⟨st, rfl⟩ : ∃ st, x = .resume st := by
        rcases hx with ⟨_, hx, _⟩ | ⟨_, _, _, hx⟩ <;> exact ⟨_, hx⟩
      have G : Goes (ssiScope k) ⟨k.view, k.currentThread⟩ k (some .ssi) := by
        rw [← hc]
        exact H.goes
      have happ : k.ssiPoint = .serving → k.applicant ≠ some .ssi := by
        rw [ha]
        exact fun _ heq => hne (Option.some.inj heq)
      cases hleave
      refine ⟨?_, hthread⟩
      cases hp₂ : k₂.ssiPoint with
      | receiving => rfl
      | serving =>
          have hback := ((G.ssi hc happ hr hk₂).2 st rfl hp₂).1
          rw [hp] at hback
          cases hback
    · cases hk₂
  have Q : Quiet { k with ssiPoint := .receiving } k₁ := .chores (.service hk₁)
  have F : k.Filed := H.refines.msgs
  have F₀ : ({ k with ssiPoint := .receiving } : Kernel).Filed := F.congr rfl
  have F₁ : k₁.Filed := F₀.mails Q.mails
  have hc₁ : k₁.currentThread = some .ssi :=
    (congrArg Processor.currentThread (Kept.Spares.chores (.service hk₁)).processor :).trans hc
  have hcallers₁ : k₁.callers = k.callers :=
    congrArg (List.map Prod.fst) (order_of_mail Q.mail .ssi).2
  have hanswers₁ : ∀ u, answers k₁.history u = answers k.history u := answers_of_mail Q.mail
  have hcount : ∀ u, k.applicant.toList.count u = if t = u then 1 else 0 := by
    intro u
    rw [ha]
    by_cases hu : t = u <;> simp [hu]
  refine ⟨?_, hend.1, H'.inv.scheduled.running hend.2, fun u => ?_⟩
  · rw [← hcallers, ← hcallers₁]
    rcases hrest with ⟨_, rfl⟩ | ⟨reply, k₂, _, hsend, rfl⟩
    · rfl
    · exact (reply_sent F₁ hc₁ hne hsend).1
  · rw [hcount]
    obtain ⟨hslots, hle⟩ := engagements_served V u
    rcases hrest with ⟨_, rfl⟩ | ⟨reply, k₂, hsome, hsend, rfl⟩
    · rw [hanswers₁]
      omega
    · have hq : q ≠ .doIo := by
        rintro rfl
        rw [silent_of_doIo hk₁] at hsome
        cases hsome
      have hsame := hslots hq
      change answers k₂.history u + _ ≤ _
      rw [(reply_sent F₁ hc₁ hne hsend).2, hanswers₁, hsame]
      omega

/-- The SSI takes a message or waits. -/
theorem receive (S : k.Sequential g) (hr : Regular k .ssi) (hp : k.ssiPoint = .receiving)
    (h : step fuel k .ssi = .ok k') :
    k'.callers = g ++ k'.held.toList ∧ k'.ssiPoint = .serving ∧
      ∀ u, answers k'.history u + k'.engagements u ≤ answers k.history u + k.engagements u := by
  have H := S.good
  have H' : Good k' := (H.step hr h).1
  obtain ⟨hholding', hholds'⟩ := Vouched.holds_step H S.holding S.holds hr h
  have hcallers : k.callers = g := by
    rw [S.order, held_of_free (Or.inl hp)]
    exact List.append_nil g
  obtain ⟨⟨x, k₁⟩, hk₁, hleave⟩ := bind_eq_ok.mp h
  have hend := Still.leave hleave
  simp only [entry] at hk₁
  split at hk₁
  · rename_i hrun
    have hssi := hk₁
    simp only [ssi, hp] at hk₁
    let k₂ : Kernel := { k with ssiPoint := .serving }
    have G : Goes (ssiScope k) ⟨k.view, k.currentThread⟩ k (some .ssi) := by
      rw [← hrun.2]
      exact H.goes
    have G₂ : Goes (ssiScope k) ⟨k.view, k.currentThread⟩ k₂ (some .ssi) :=
      G.setGlobals { G.refines with globals := rfl } rfl (Or.inl rfl) fun _ hi => hi
    obtain ⟨hg, hx⟩ := G₂.msgrecv hrun.2 hk₁
    have hpoint : k'.ssiPoint = .serving := hend.point.trans (congrArg Globals.ssiPoint hg)
    have hslots : ∀ u, k'.engagements u = k.engagements u := fun u =>
      engagements_congr (hend.slots.trans (congrArg Globals.softBlockedThread hg))
    rcases hx with ⟨st, m, rfl, _⟩ | ⟨rfl, hpick, _⟩
    · obtain ⟨s, pl, ha1, hhist⟩ := ssi_receives H.refines.msgs hp hrun.2 hssi
      cases hleave
      have hc' : k₁.currentThread = some .ssi := (congrArg Globals.currentThread hg).trans hrun.2
      have hready : (k₁.tcb .ssi).tStatus = .ready := H'.inv.scheduled.running hc'
      obtain ⟨t, ht, _⟩ := hholds' hc' hpoint
      obtain rfl : s = some t := by
        have hptr : tcbPtr s = .tcb t := ha1.symm.trans ht
        cases s <;> cases hptr
        rfl
      have hadds : { k₁ with cpu := st }.callers = g ++ [t] := by
        change k₁.callers = g ++ [t]
        rw [callers_append hhist, hcallers]
        simp [receipts]
      refine ⟨order_of_busy H' hholding' hholds' hpoint hready hadds, hpoint, fun u => ?_⟩
      rw [hslots]
      change answers k₁.history u + _ ≤ _
      rw [hhist, answers_append, answers_received, Nat.add_zero]
    · let k₃ : Kernel := { k₂.enter with
        sysbkOldarea := { k.cpu with a1 := SYS_RECV, a2 := null, a3 := .ssiMsg, a4 := null } }
      have G₃ : Goes (ssiScope k) ⟨k.view, k.currentThread⟩ k₃ (some .ssi) :=
        G₂.same { G₂.refines with }
      obtain ⟨_, pc, rfl⟩ := G₃.recv_blocks (k := k₃) hrun.2 hk₁
      have hkept : k'.history = k.history := hend.history
      have hheld : k'.held = none := by
        refine held_of_free (Or.inr ?_)
        rw [hend.status]
        simp [threadEnqueue, Kernel.blocking, Kernel.modTcb]
      refine ⟨?_, hpoint, fun u => ?_⟩
      · rw [hheld, callers, hkept]
        exact hcallers.trans (List.append_nil g).symm
      · rw [hslots, hkept]
  · cases hk₁

/-- What happens while another thread is on the processor. -/
theorem relayed (S : k.Sequential g) (hr : Regular k e) (he : e ≠ .ssi)
    (h : step fuel k e = .ok k') :
    k'.callers = g ++ k'.held.toList ∧
      (k'.ssiPoint = .receiving → (k'.tcb .ssi).tStatus = .ready) ∧
      ∀ u, answers k'.history u + k'.engagements u ≤ answers k.history u + k.engagements u := by
  have H := S.good
  have H' : Good k' := (H.step hr h).1
  obtain ⟨hholding', hholds'⟩ := Vouched.holds_step H S.holding S.holds hr h
  by_cases hc : k.currentThread = some .ssi
  · obtain ⟨n, rfl⟩ := elapses H hc he h
    exact ⟨S.order, S.awake, fun _ => le_rfl⟩
  · have R : Relay k k' := Relay.motions H.refines.msgs hc (Motions.step h)
    obtain ⟨hist, adds, attested⟩ := Attested.moves (H.step hr h).2
    have adds : k'.history = k.history ++ hist := adds
    have hsigned : ∀ d pl success, .sent none d pl success ∉ k'.history := by
      intro d pl success hm
      rw [adds, List.mem_append] at hm
      rcases hm with hm | hm
      · exact S.signed d pl success hm
      · exact attested.signed d pl success hm
    have answered : ∀ u, answers k'.history u + k'.engagements u ≤
        answers k.history u + k.engagements u := fun u => (R.talk u).le
    rcases R.hear hsigned with ⟨hst, hcallers⟩ | ⟨hwait, hready, a, hcallers⟩
    · refine ⟨?_, fun hp => ?_, answered⟩
      · by_cases hbusy : k.ssiPoint = .serving ∧ (k.tcb .ssi).tStatus = .ready
        · obtain ⟨a, hheld, _⟩ := held_of_busy H S.holding S.holds hbusy.1 hbusy.2
          have hadds : k'.callers = g ++ [a] := by
            rw [hcallers, S.order, hheld]
            rfl
          exact order_of_busy H' hholding' hholds' (R.point.trans hbusy.1) (hst.trans hbusy.2) hadds
        · have hfree : k.held = none := if_neg hbusy
          have hfree' : k'.held = none := by
            refine if_neg ?_
            rw [R.point, hst]
            exact hbusy
          rw [hcallers, S.order, hfree, hfree']
      · rw [hst]
        exact S.awake (R.point.symm.trans hp)
    · have hserving : k.ssiPoint = .serving := by
        cases hp : k.ssiPoint with
        | serving => rfl
        | receiving =>
            have hawake := S.awake hp
            rw [hwait] at hawake
            cases hawake
      have hfree : k.held = none := by
        refine held_of_free (Or.inr ?_)
        rw [hwait]
        simp
      have hadds : k'.callers = g ++ [a] := by
        rw [hcallers, S.order, hfree]
        simp
      refine ⟨?_, fun _ => hready, answered⟩
      exact order_of_busy H' hholding' hholds' (R.point.trans hserving) hready hadds

/-- What a step adds to what the SSI has received and sent. -/
theorem progress (S : k.Sequential g) (hr : Regular k e) (h : step fuel k e = .ok k') :
    k'.callers = g ++ k.served e ++ k'.held.toList ∧
      (k'.ssiPoint = .receiving → (k'.tcb .ssi).tStatus = .ready) ∧
      ∀ u, answers k'.history u + k'.engagements u ≤
        answers k.history u + k.engagements u + (k.served e).count u := by
  by_cases hs : k.serves e = true
  · obtain ⟨hcallers, hpoint, hready, answered⟩ := S.serve hr hs h
    rw [served, if_pos hs, held_of_free (Or.inl hpoint)]
    exact ⟨hcallers.trans (List.append_nil _).symm, fun _ => hready, answered⟩
  · rw [served, if_neg hs, List.append_nil]
    by_cases he : e = .ssi
    · subst he
      obtain ⟨hcallers, hpoint, answered⟩ := S.receive hr (receiving_of_idle hs) h
      refine ⟨hcallers, fun hp' => ?_, answered⟩
      rw [hpoint] at hp'
      cases hp'
    · exact S.relayed hr he h

/-- Every step keeps the order of the requests. -/
theorem step (S : k.Sequential g) (hr : Regular k e) (h : MikaBoo.step fuel k e = .ok k') :
    k'.Sequential (g ++ k.served e) := by
  have H := S.good
  obtain ⟨hholding', hholds'⟩ := Vouched.holds_step H S.holding S.holds hr h
  obtain ⟨hist, adds, attested⟩ := Attested.moves (H.step hr h).2
  have signed : ∀ d pl success, .sent none d pl success ∉ k'.history := by
    intro d pl success hm
    rw [show k'.history = k.history ++ hist from adds, List.mem_append] at hm
    exact hm.elim (S.signed d pl success) (attested.signed d pl success)
  obtain ⟨order, awake, hpaid⟩ := S.progress hr h
  refine ⟨(H.step hr h).1, hholding', hholds', signed, order, awake, fun u => ?_⟩
  have hold := S.answered u
  have hstep := hpaid u
  rw [List.count_append]
  omega

theorem boot {hw : Hardware} (hb : MikaBoo.boot hw = .ok k) : k.Sequential [] := by
  have V : k.Vouched := .boot hb
  have hpoint := Vouched.point_boot hb
  obtain ⟨k', hk', R⟩ := boot_ok hw
  obtain rfl := Except.ok.inj (hb.symm.trans hk')
  have hhist : k.history = [.allocated (.thread 0)] := R.history.symm
  have hready : (k.tcb .ssi).tStatus = .ready := by
    rw [← R.tcb]
    rfl
  refine ⟨V.good, V.holding, V.holds, by simp [hhist], ?_, fun _ => hready, fun t => ?_⟩
  · rw [held_of_free (Or.inl hpoint), callers, hhist]
    rfl
  · rw [hhist, engagements, Slots.empty_boot hb]
    simp [answers, replies]

end Sequential

end Kernel

theorem ServiceLog.after_threads (g : ServiceLog) (k : Kernel) (e : Event) :
    (g.after k e).map Prod.fst = g.map Prod.fst ++ k.served e := by
  unfold ServiceLog.after Kernel.served
  split
  · cases k.applicant <;> simp
  · simp

theorem Kernel.Sequential.logged {k₀ k : Kernel} {g : ServiceLog} {es : List Event} {hw : Hardware}
    (hb : MikaBoo.boot hw = .ok k₀) (run : Run (Logged Regular) (k₀, []) es (k, g)) :
    k.Sequential (g.map Prod.fst) := by
  refine run.invariant (P := fun s => s.1.Sequential (s.2.map Prod.fst)) ?_ (.boot hb)
  rintro s e s' S ⟨⟨hr, _, h⟩, hg⟩
  rw [hg, ServiceLog.after_threads]
  exact S.step hr h

theorem Kernel.Sequential.exists_run {k k' : Kernel} {es : List Event}
    (S : ∃ g, k.Sequential g) (run : Run RegularStep k es k') : ∃ g, k'.Sequential g := by
  refine run.invariant (P := fun k => ∃ g, k.Sequential g) ?_ S
  rintro k e k' ⟨g, S⟩ ⟨hr, _, h⟩
  exact ⟨_, S.step hr h⟩

/-! ## The requests -/

namespace Kernel

variable {k k' : Kernel} {g : ServiceLog} {e : Event} {fuel : Nat}

/-- No other thread has the address of the variable `msg` of the SSI in `a3`. -/
def Private (k : Kernel) : Prop := ∀ t, t ≠ .ssi → k.pmsg (.resume k.cpu) t ≠ .ssiMsg

instance (k : Kernel) : Decidable k.Private := inferInstanceAs (Decidable (∀ _, _))

/-- The request that the SSI has received and not yet served. -/
def heldRequest (k : Kernel) : Option (Tcb × Value) := k.held.map fun t => (t, k.ssiMsg)

/-- The SSI has received the requests `g`, which it has served, and the one in `msg`. -/
structure Faithful (k : Kernel) (g : ServiceLog) : Prop where
  sequential : k.Sequential (g.map Prod.fst)
  pointer : k.ssiPoint = .serving → k.pmsg (.resume k.cpu) .ssi = .ssiMsg
  order : receipts k.history .ssi = g ++ k.heldRequest.toList

theorem ssi_runs (h : MikaBoo.step fuel k .ssi = .ok k') : k.currentThread = some .ssi := by
  obtain ⟨_, hk₁, _⟩ := bind_eq_ok.mp h
  simp only [entry] at hk₁
  split at hk₁
  · rename_i hrun
    exact hrun.2
  · cases hk₁

/-- The receive of the SSI returns with the payload in `msg`, or blocks. -/
theorem ssi_reads (H : Good k) (hp : k.ssiPoint = .receiving)
    (h : MikaBoo.step fuel k .ssi = .ok k') :
    (k'.currentThread = some .ssi ∧ k'.cpu.a3 = .ssiMsg ∧
      ∃ o, k'.history = k.history ++ [.received .ssi o k'.ssiMsg]) ∨
    ((k'.tcb .ssi).tStatus = .w4msg ∧ (k'.tcb .ssi).tS.a3 = .ssiMsg) := by
  obtain ⟨⟨x, k₁⟩, hk₁, hleave⟩ := bind_eq_ok.mp h
  obtain ⟨ha, _, hstays⟩ := leave_contexts (P := fun _ => True) hleave
  have hentry := hk₁
  simp only [entry] at hk₁
  split at hk₁
  · rename_i hrun
    let k₀ : Kernel := { k with ssiPoint := .serving }
    let regs : State := { k.cpu with a1 := SYS_RECV, a2 := null, a3 := .ssiMsg, a4 := null }
    have F : k.Filed := H.refines.msgs
    have F₀ : k₀.Filed := F.congr rfl
    have hrecv : receive fuel k₀ .ssi none regs = .ok (x, k₁) := by
      rw [← hk₁, ssi, hp]
      exact (msgrecv_eq_receive (k := k₀) hrun.2 fuel k.cpu none .ssiMsg).symm
    cases hpick : k₀.view.pick none .ssi with
    | some m =>
        have hptr : regs.a3.isPayloadPtr = true := rfl
        obtain ⟨k₂, hk₂, T⟩ := F₀.receive_takes hptr hpick fuel
        obtain ⟨rfl, rfl⟩ := Prod.mk.inj (Except.ok.inj (hk₂.symm.trans hrecv))
        have hthread : k₂.currentThread = some .ssi := (Idle.entry_processor hentry).1.trans hrun.2
        have hword : k₂.ssiMsg = (k₀.msg m).mValue := T.word
        cases hleave
        exact Or.inl ⟨hthread, rfl, (k₀.msg m).mSender, hword ▸ T.history⟩
    | none =>
        obtain rfl := F₀.receive_leaves hpick hrecv
        obtain ⟨hS, hblocked, _⟩ := (H.saves hrun.2 hentry).1
        rw [ha.tcb .ssi trivial]
        exact Or.inr ⟨hblocked, congrArg State.a3 hS⟩
  · cases hk₁

/-- While another thread is on the processor, the SSI receives nothing or the one message that it
waits for. -/
theorem bystander_of_ssi (H : Good k) (hr : Regular k e) (h : MikaBoo.step fuel k e = .ok k')
    (hc : k.currentThread ≠ some .ssi) : BystanderStep .ssi k e k' := by
  have H' : Good k' := (H.step hr h).1
  refine ⟨⟨hr, fuel, h⟩, hc, ?_, H'.live_ssi⟩
  rintro s rfl
  obtain ⟨_, hk₁, _⟩ := bind_eq_ok.mp h
  simp only [entry] at hk₁
  split at hk₁
  · rename_i hedit
    exact hedit.2.2.2 rfl
  · cases hk₁

theorem pmsg_of_ssi (hc : k.currentThread = some .ssi) :
    k.pmsg (.resume k.cpu) .ssi = k.cpu.a3 := if_pos hc

theorem pmsg_of_other (hc : k.currentThread ≠ some .ssi) :
    k.pmsg (.resume k.cpu) .ssi = (k.tcb .ssi).tS.a3 := if_neg hc

namespace Faithful

/-- The SSI receives into its variable. -/
theorem pointer_step (F : k.Faithful g) (hr : Regular k e) (h : MikaBoo.step fuel k e = .ok k') :
    k'.ssiPoint = .serving → k'.pmsg (.resume k'.cpu) .ssi = .ssiMsg := by
  have S := F.sequential
  have H := S.good
  have H' : Good k' := (H.step hr h).1
  intro hpoint
  by_cases hs : k.serves e = true
  · rw [(S.serve hr hs h).2.1] at hpoint
    cases hpoint
  by_cases he : e = .ssi
  · subst he
    rcases ssi_reads H (receiving_of_idle hs) h with ⟨hc', ha3, _⟩ | ⟨hblocked, ha3⟩
    · rw [pmsg_of_ssi hc', ha3]
    · have hc' : k'.currentThread ≠ some .ssi := by
        intro hc'
        have hready := H'.inv.scheduled.running hc'
        cases hblocked.symm.trans hready
      rw [pmsg_of_other hc', ha3]
  · by_cases hc : k.currentThread = some .ssi
    · obtain ⟨n, rfl⟩ := elapses H hc he h
      exact F.pointer hpoint
    · have R : Relay k k' := Relay.motions H.refines.msgs hc (Motions.step h)
      have hptr := F.pointer (R.point ▸ hpoint)
      rw [pmsg_of_other hc] at hptr
      have B := bystander_of_ssi H hr h hc
      have ha3 : (k'.tcb .ssi).tS.a3 = .ssiMsg := by
        rcases H.bystands H.live_ssi B with U | ⟨o, pl, R⟩
        · rw [U.context, hptr]
        · rw [R.context]
          exact hptr
      by_cases hc' : k'.currentThread = some .ssi
      · rw [pmsg_of_ssi hc', Good.loads B hc', ha3]
      · rw [pmsg_of_other hc', ha3]

/-- The SSI receives a request: it is in its variable. -/
theorem arrived {hist : List Obs} {t : Tcb} {pl : Value} (F : k.Faithful g) (hr : Regular k e)
    (hs : k.serves e = false) (h : MikaBoo.step fuel k e = .ok k') (adds : k.Adds k' hist)
    (hheld : k'.held = some t) (hnew : receipts hist .ssi = [(t, pl)]) : k'.ssiMsg = pl := by
  have S := F.sequential
  have H := S.good
  have hm : .received .ssi (some t) pl ∈ hist := mem_receipts.mp (by simp [hnew])
  by_cases he : e = .ssi
  · subst he
    have hp : k.ssiPoint = .receiving := by
      cases hp : k.ssiPoint with
      | receiving => rfl
      | serving => simp [serves, hp] at hs
    rcases ssi_reads H hp h with ⟨_, _, o, hhist⟩ | ⟨hblocked, _⟩
    · obtain rfl := List.append_cancel_left (adds.symm.trans hhist)
      cases List.mem_singleton.mp hm
      rfl
    · rw [held_of_free (Or.inr (by rw [hblocked]; simp))] at hheld
      cases hheld
  · by_cases hc : k.currentThread = some .ssi
    · obtain ⟨n, rfl⟩ := elapses H hc he h
      obtain rfl : hist = [] := List.append_right_eq_self.mp adds.symm
      cases hm
    · have B := bystander_of_ssi H hr h hc
      obtain ⟨hist', adds', hheard⟩ := H.hears H.live_ssi B
      obtain rfl : hist' = hist := List.append_cancel_left (adds'.symm.trans adds)
      have hfound := mem_filter_receives.mpr hm
      rcases hheard with ⟨_, silent⟩ | ⟨o, pl', R, heard, _⟩
      · rw [silent] at hfound
        cases hfound
      · rw [heard] at hfound
        obtain ⟨_, rfl⟩ := (Obs.received.inj (List.mem_singleton.mp hfound)).2
        have hserving : k.ssiPoint = .serving := by
          cases hp : k.ssiPoint with
          | serving => rfl
          | receiving =>
              have hawake := S.awake hp
              rw [R.blocked] at hawake
              cases hawake
        have hptr := F.pointer hserving
        rw [pmsg_of_other hc] at hptr
        have hword := R.word
        rw [hptr] at hword
        exact hword (by simp) rfl

/-- Nobody else writes to the variable of the SSI. -/
theorem undisturbed {hist : List Obs} (F : k.Faithful g) (hr : Regular k e)
    (hs : k.serves e = false) (h : MikaBoo.step fuel k e = .ok k') (hp : k'.Private)
    (adds : k.Adds k' hist) (hnew : receipts hist .ssi = []) : k'.ssiMsg = k.ssiMsg := by
  have H := F.sequential.good
  have hcomputed : (k.computed e).load .ssiMsg = k.ssiMsg := by cases e <;> rfl
  have adds₀ : (k.computed e).Adds k' hist := by
    cases e <;> exact adds
  rw [← hcomputed]
  change k'.load .ssiMsg = _
  refine (H.step_stores ⟨hr, fuel, h⟩).load_of_ne adds₀ fun t s pl hm => ?_
  by_cases ht : t = .ssi
  · subst ht
    exfalso
    cases s with
    | some a =>
        have hmem := mem_receipts.mpr hm
        simp [hnew] at hmem
    | none =>
        have hv : k.casualties e = [] := by
          cases e with
          | ssi =>
              have hreq := request_of_idle (k := k) hs
              simp [casualties, hreq]
          | _ => rfl
        obtain ⟨hist', adds', attested⟩ := Attested.moves (H.step hr h).2
        obtain rfl : hist' = hist := List.append_cancel_left (adds'.symm.trans adds)
        obtain rfl := attested.empty _ pl hm
        obtain ⟨_, hvictim, _⟩ := (H.aborted_iff hr h adds (by simp [hv])).mp hm
        simp [hv] at hvictim
  · exact hp t ht

/-- Every step keeps the order of the requests. -/
theorem step (F : k.Faithful g) (hr : Regular k e) (h : MikaBoo.step fuel k e = .ok k')
    (hp : k'.Private) : k'.Faithful (g.after k e) := by
  have S := F.sequential
  have H := S.good
  have S' := S.step hr h
  obtain ⟨hist, adds, _⟩ := Attested.moves (H.step hr h).2
  have adds : k.Adds k' hist := adds
  refine ⟨by rwa [ServiceLog.after_threads], F.pointer_step hr h, ?_⟩
  have hcallers := callers_append adds
  have hreceipts : receipts k'.history .ssi = receipts k.history .ssi ++ receipts hist .ssi := by
    rw [adds, receipts_append]
  rw [hreceipts, F.order]
  cases hs : k.serves e with
  | true =>
      obtain ⟨hserved, hpoint, _⟩ := S.serve hr hs h
      have hc : k.currentThread = some .ssi ∧ k.ssiPoint = .serving := by
        cases e with
        | ssi => exact ⟨ssi_runs h, of_decide_eq_true hs⟩
        | _ => cases hs
      have happ : k.held = k.applicant := held_eq_applicant hc.1 hc.2 (H.inv.scheduled.running hc.1)
      have hnew : receipts hist .ssi = [] := by
        rw [hcallers, S.order, happ, List.append_right_eq_self, List.map_eq_nil_iff] at hserved
        exact hserved
      rw [hnew, List.append_nil, heldRequest, heldRequest, happ, held_of_free (Or.inl hpoint),
        ServiceLog.after, if_pos hs]
      simp
  | false =>
      have hlog : g.after k e = g := by simp [ServiceLog.after, hs]
      have hnone : k.served e = [] := by simp [served, hs]
      have horder : k.held.toList ++ (receipts hist .ssi).map Prod.fst = k'.held.toList := by
        have hall := hcallers.symm.trans S'.order
        rw [S.order, hnone, List.append_nil, List.append_assoc] at hall
        exact List.append_cancel_left hall
      rw [hlog, List.append_assoc]
      congr 1
      cases hnew : receipts hist .ssi with
      | nil =>
          have hheld : k'.held = k.held := by
            rw [hnew, List.map_nil, List.append_nil] at horder
            simpa using (congrArg List.head? horder).symm
          rw [List.append_nil, heldRequest, heldRequest, hheld,
            F.undisturbed hr hs h hp adds hnew]
      | cons r l =>
          -- it held none, and now holds the one that it has received
          have hlen := congrArg List.length horder
          have hone : k'.held.toList.length ≤ 1 := by cases k'.held <;> simp
          rw [hnew, List.length_append, List.map_cons, List.length_cons] at hlen
          obtain rfl : l = [] := by
            rw [List.length_map] at hlen
            exact List.length_eq_zero_iff.mp (by omega)
          have hfree : k.held = none := by
            cases hh : k.held with
            | none => rfl
            | some t =>
                rw [hh] at hlen
                simp at hlen
                omega
          have hheld : k'.held = some r.1 := by
            rw [hfree, hnew] at horder
            exact Option.toList_eq_singleton_iff.mp horder.symm
          rw [heldRequest, heldRequest, hfree, hheld, F.arrived hr hs h adds hheld hnew]
          rfl

theorem boot {hw : Hardware} (hb : MikaBoo.boot hw = .ok k) : k.Faithful [] := by
  have S := Sequential.boot hb
  have hpoint := Vouched.point_boot hb
  refine ⟨S, fun hp => ?_, ?_⟩
  · rw [hpoint] at hp
    cases hp
  rw [heldRequest, held_of_free (Or.inl hpoint)]
  have horder := S.order
  rw [held_of_free (Or.inl hpoint)] at horder
  exact List.map_eq_nil_iff.mp horder

theorem run {k₀ : Kernel} {es : List Event} {hw : Hardware} (hb : MikaBoo.boot hw = .ok k₀)
    (run : Run (Logged fun k e => Regular k e ∧ k.Private) (k₀, []) es (k, g)) (hp : k.Private) :
    k.Faithful g := by
  refine run.invariant (P := fun s => s.1.Private → s.1.Faithful s.2) ?_ (fun _ => .boot hb) hp
  rintro s e s' F ⟨⟨⟨hr, hp⟩, _, h⟩, hg⟩ hp'
  rw [hg]
  exact (F hp).step hr h hp'

end Faithful

end Kernel

/-- The SSI serves every request that it receives once and in the order in which it receives them,
and holds at most one. A thread has got at most one message from it for each request that has been
served, and waits for no more devices than it has such requests without a message. When the SSI
waits and no thread has been freed, it has served every request that was sent. The requests are the
payloads, as long as no other thread receives into the variable of the SSI. -/
theorem answers_solicited {hw : Hardware} {k₀ k : Kernel} {g : ServiceLog} {es : List Event}
    (hb : boot hw = .ok k₀) (run : Run (Logged Regular) (k₀, []) es (k, g)) :
    k.callers = g.map Prod.fst ++ k.held.toList ∧
      (∀ t, answers k.history t + k.engagements t ≤ (g.map Prod.fst).count t) ∧
      ((k.tcb .ssi).tStatus = .w4msg → (∀ t, .freed t ∉ k.history) →
        g.map Prod.fst = (arrivals k.history .ssi).map Prod.fst) ∧
      (Run (Logged fun k e => Regular k e ∧ k.Private) (k₀, []) es (k, g) → k.Private →
        receipts k.history .ssi = g ++ k.heldRequest.toList ∧
          ((k.tcb .ssi).tStatus = .w4msg → (∀ t, .freed t ∉ k.history) →
            g = arrivals k.history .ssi)) := by
  have S := Kernel.Sequential.logged hb run
  have run₁ : Run RegularStep k₀ es k := run.map Prod.fst fun _ _ _ h => h.1
  have hall : (k.tcb .ssi).tStatus = .w4msg → (∀ t, .freed t ∉ k.history) →
      k.held = none ∧ receipts k.history .ssi = arrivals k.history .ssi := by
    intro hw hfree
    have O : k.Orderly := .run hb (forget_guard run₁)
    have hletters : k.view.letters .ssi = [] := by simp [View.letters, (O.prompt hw).2]
    refine ⟨Kernel.held_of_free (Or.inr (by rw [hw]; simp)), ?_⟩
    have hconserved := O.conserved hb run₁ hfree
    rwa [hletters, List.append_nil] at hconserved
  refine ⟨S.order, S.answered, fun hw hfree => ?_, fun run hp => ?_⟩
  · obtain ⟨hheld, hserved⟩ := hall hw hfree
    have horder := S.order
    rw [Kernel.callers, hserved, hheld] at horder
    exact (horder.trans (List.append_nil _)).symm
  · have F := Kernel.Faithful.run hb run hp
    refine ⟨F.order, fun hw hfree => ?_⟩
    obtain ⟨hheld, hserved⟩ := hall hw hfree
    have horder := F.order
    rw [hserved, Kernel.heldRequest, hheld] at horder
    exact (horder.trans (List.append_nil _)).symm

/-- The first thread waits for a device, and the SSI has served its request. -/
theorem answers_solicited_sample : ∃ (k₀ k : Kernel) (g : ServiceLog),
    boot Sample.hardware = .ok k₀ ∧
    Run (Logged fun k e => Regular k e ∧ k.Private) (k₀, []) Sample.writing (k, g) ∧
    k.callers = [.thread 0] ∧ receipts k.history .ssi = g ∧ g = arrivals k.history .ssi ∧
    g ≠ [] ∧ answers k.history (.thread 0) + k.engagements (.thread 0) ≤ 1 := by
  let check : Kernel × ServiceLog → Bool := fun s => s.2.map Prod.fst = [.thread 0] ∧
    s.1.held = none ∧ s.1.Private ∧ (s.1.tcb .ssi).tStatus = .w4msg ∧
    s.1.history.all fun | .freed _ => false | _ => true
  have h : ((boot Sample.hardware).toOption.bind fun k =>
      (proceedWith (fun k _ e => Regular k e ∧ k.Private) (fun g k e _ => ServiceLog.after g k e)
        100 (k, []) Sample.writing).map fun s => (k, s)).any
      (fun r => check r.2) = true := by
    decide +kernel
  obtain ⟨⟨k₀, k, g⟩, hr, hm⟩ := Option.any_eq_true _ _ |>.mp h
  obtain ⟨k₁, hb, hr⟩ := Option.bind_eq_some_iff.mp hr
  obtain ⟨s, hs, hks⟩ := Option.map_eq_some_iff.mp hr
  cases hks
  have hb := exec_eq_ok hb
  have run : Run (Logged fun k e => Regular k e ∧ k.Private) (k₀, []) Sample.writing (k, g) :=
    (run_of_proceedWith hs).mono_of_mem fun _ _ _ _ ⟨hg, hstep, hafter⟩ => ⟨⟨hg, hstep⟩, hafter⟩
  have run₁ : Run (Logged Regular) (k₀, []) Sample.writing (k, g) :=
    run.mono_of_mem fun _ _ _ _ ⟨⟨hg, hstep⟩, hafter⟩ => ⟨⟨hg.1, hstep⟩, hafter⟩
  obtain ⟨hg, hheld, hp, hw, hall⟩ := of_decide_eq_true hm
  have hg : g.map Prod.fst = [.thread 0] := hg
  have hfree : ∀ t, .freed t ∉ k.history := by
    intro t ht
    have hfalse := List.all_eq_true.mp hall _ ht
    cases hfalse
  obtain ⟨hcallers, hanswers, _, hrequests⟩ := answers_solicited hb run₁
  obtain ⟨horder, hserved⟩ := hrequests run hp
  have hheld : k.held = none := hheld
  refine ⟨k₀, k, g, hb, run, ?_, ?_, hserved hw hfree, ?_, ?_⟩
  · rw [hcallers, hheld, hg]
    rfl
  · rw [horder, Kernel.heldRequest, hheld]
    exact List.append_nil g
  · rintro rfl
    cases hg
  · have hone := hanswers (.thread 0)
    rwa [hg] at hone

end MikaBoo
