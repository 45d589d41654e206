import MikaBoo.Abstract.Leftovers
import MikaBoo.Abstract.Letters
import Mathlib.Data.List.DropRight

/-!
# Which incarnation sent a message

A message carries the address of its sender's TCB. It is from the thread that has that
TCB now if the TCB has not been freed since the message was sent.
-/

namespace MikaBoo

open Intrusive Fuel Transition

/-- What has happened since `s` or `d` was freed for the last time. -/
def present (hist : List Obs) (s d : Tcb) : List Obs :=
  hist.rtakeWhile fun o => o ≠ .freed s ∧ o ≠ .freed d

section present

variable {hist hist' : List Obs} {s d t : Tcb} {o : Obs}

theorem present_append (h : ∀ t, t = s ∨ t = d → .freed t ∉ hist') :
    present (hist ++ hist') s d = present hist s d ++ hist' := by
  rw [present, List.rtakeWhile, List.reverse_append, List.takeWhile_append_of_pos]
  · simp [present, List.rtakeWhile]
  · intro o ho
    have hne : ∀ t, t = s ∨ t = d → o ≠ .freed t := by
      rintro t ht rfl
      exact h t ht (List.mem_reverse.mp ho)
    simp [hne]

/-- A life that ends in `hist'` leaves nothing before it. -/
theorem mem_of_mem_present (ht : t = s ∨ t = d) (h : .freed t ∈ hist')
    (ho : o ∈ present (hist ++ hist') s d) : o ∈ hist' := by
  have hsuffix : present (hist ++ hist') s d <:+ hist ++ hist' := List.rtakeWhile_suffix _ _
  rcases List.suffix_or_suffix_of_suffix hsuffix (List.suffix_append hist hist') with hin | hout
  · exact hin.mem ho
  · have hend := List.mem_rtakeWhile_imp (hout.mem h)
    rcases ht with rfl | rfl <;> simp at hend

end present

/-- In their present lives `d` has got from `s`, or has pending, what `s` has sent to it, and a
free thread has sent nothing. -/
structure View.Accounts (v : View) (d : Tcb) : Prop where
  carried : ∀ s, received (present v.history s d) s d ++ v.pending s d =
    sent (present v.history s d) s d
  silent : ∀ s ∈ v.threads .free, sent (present v.history s d) s d = []

namespace View.Accounts

variable {v v' : View} {s d : Tcb} {hist : List Obs}

theorem pending_free (A : v.Accounts d) (hs : s ∈ v.threads .free) : v.pending s d = [] := by
  have hc := A.carried s
  rw [A.silent s hs, List.append_eq_nil_iff] at hc
  exact hc.2

theorem conveys (A : v.Accounts d) (h : Conveys v v' hist) (O : v.Owned)
    (hfree : ∀ s ∈ v'.threads .free, s ∈ v.threads .free) : v'.Accounts d where
  carried s := by
    calc received (present v'.history s d) s d ++ v'.pending s d
        = received (present v.history s d) s d ++ (received hist s d ++ v'.pending s d) := by
          rw [h.history, present_append fun t _ => h.freed t, received_append, List.append_assoc]
      _ = received (present v.history s d) s d ++ v.pending s d ++ sent hist s d := by
          rw [h.channel, List.append_assoc]
      _ = sent (present v'.history s d) s d := by
          rw [A.carried, h.history, present_append fun t _ => h.freed t, sent_append]
  silent s hs := by
    have hs := hfree s hs
    have hsent : sent hist s d = [] := by
      by_contra hne
      refine h.senders s d hne ?_
      exact O.status.mpr (O.free.mp hs)
    rw [h.history, present_append fun t _ => h.freed t, sent_append, A.silent s hs, hsent, List.append_nil]

/-- A step of a termination frees a thread, or touches no messages. -/
theorem of_reap {a : Option Tcb} {e : Reaping} (A : v.Accounts d) (step : ReapStep a v e v')
    (hfree : ∀ t ∈ v'.threads .free, t ∈ v.threads .free) : v'.Accounts d := by
  cases step with
  | orphan => exact ⟨A.carried, A.silent⟩
  | @kill u p h hr member queued =>
      -- `u` is not free before it is killed
      have hfreed := hfree u
        ((mem_reap_threads (hr.clean u _) member).mpr (Or.inr ⟨rfl, rfl⟩))
      obtain ⟨k, R⟩ := hr
      have := R.threads.disjoint hfreed member
      cases this

end View.Accounts

/-! ## Steps that free nobody -/

/-- Moves that free nobody keep the accounts. -/
theorem Moves.accounts {scope : Scope} {c c' : Config} {d : Tcb} (ms : Moves scope c c')
    (hfree : scope = .terminate → ∀ t ∈ c'.view.threads .free, t ∈ c.view.threads .free)
    (A : c.view.Accounts d) : c'.view.Accounts d := by
  induction ms with
  | refl => exact A
  | @tail c₁ c' ms m ih =>
      have hlast : scope = .terminate → ∀ t ∈ c'.view.threads .free, t ∈ c₁.view.threads .free :=
        fun hscope t ht => Moves.free ms (by simp [hscope]) (hfree hscope t ht)
      have A₁ := ih fun hscope t ht =>
        hfree hscope t (m.act.free m.ok (by simp [hscope]) ht)
      rcases m.act.conveys m.ok with ⟨hist, h⟩ | ⟨hscope, b, e, step⟩
      · apply A₁.conveys h m.ok.inv.owned
        intro t ht
        by_cases hscope : scope = .terminate
        · exact hlast hscope t ht
        · exact m.act.of_free m.ok hscope ht
      · exact A₁.of_reap step (hlast hscope)

/-! ## Terminations -/

/-- Aborts and deaths are no messages. -/
theorem no_messages {hist : List Obs}
    (hkind : ∀ o ∈ hist, (∃ u, o = .received u none null) ∨ ∃ t, o = .freed t) (s d : Tcb) :
    received hist s d = [] ∧ sent hist s d = [] := by
  constructor
  · rw [received, List.filterMap_eq_nil_iff]
    intro o ho
    rcases hkind o ho with ⟨u, rfl⟩ | ⟨t, rfl⟩ <;> simp
  · rw [sent, List.filterMap_eq_nil_iff]
    intro o ho
    rcases hkind o ho with ⟨u, rfl⟩ | ⟨t, rfl⟩ <;> rfl

namespace Good

variable {k k' : Kernel} {e : Event} {fuel : Nat} {d t : Tcb}

/-- What a step that terminates threads puts down. -/
theorem history_of_casualties (H : Good k) (hr : Regular k e) (hv : k.casualties e ≠ [])
    (h : MikaBoo.step fuel k e = .ok k') : ∃ hist, k'.history = k.history ++ hist ∧
      (∀ o ∈ hist, (∃ u, o = .received u none null) ∨ ∃ t, o = .freed t) ∧
      ∀ t, .freed t ∈ hist ↔ t ∈ k.casualties e := by
  obtain ⟨_, _, _, _, hreaped⟩ := H.reaped hr hv h
  obtain ⟨es, hes, run⟩ := hreaped.run
  obtain ⟨hist, hh, hkind, hfreed, _⟩ := View.history_of_run run
  refine ⟨hist, hh, hkind, fun t => ?_⟩
  rw [hfreed, ← hes, List.mem_filterMap]
  constructor
  · rintro ⟨q, hq⟩
    exact ⟨_, hq, rfl⟩
  · rintro ⟨r, hr, hrt⟩
    obtain ⟨q, rfl⟩ := View.victim?_eq_some.mp hrt
    exact ⟨q, hr⟩

/-- A thread that is terminated has no messages. -/
theorem pending_dead (H : Good k) (hr : Regular k e) (h : MikaBoo.step fuel k e = .ok k')
    (hd : d ∈ k.casualties e) (s : Tcb) : k'.view.pending s d = [] := by
  obtain ⟨_, _, _, _, hreaped⟩ := H.reaped hr (List.ne_nil_of_mem hd) h
  obtain ⟨es, hes, run⟩ := hreaped.run
  obtain ⟨r, hr, hrd⟩ := List.mem_filterMap.mp (hes ▸ hd)
  obtain ⟨q, rfl⟩ := View.victim?_eq_some.mp hrd
  have hnone : k'.view.msgs (.of d) = [] := (View.gone_of_run run hr).noMessage
  rw [View.pending, View.mailbox, hnone]
  rfl

/-- The messages between threads that a termination spares stay. -/
theorem pending_spared (H : Good k) (hr : Regular k e) (h : MikaBoo.step fuel k e = .ok k')
    (hv : k.casualties e ≠ []) (ht : t ∉ k.casualties e) (hd : d ∉ k.casualties e) :
    k'.view.pending t d = k.view.pending t d := by
  obtain ⟨_, _, _, _, hreaped⟩ := H.reaped hr hv h
  obtain ⟨es, hes, run⟩ := hreaped.run
  have hspared : ∀ {u}, u ∉ k.casualties e → ∀ q, .kill u q ∉ es := by
    intro u hu q hq
    exact hu (hes ▸ List.mem_filterMap.mpr ⟨_, hq, rfl⟩)
  have hp := View.pending_of_run run (hspared hd) (hspared ht)
  exact hp

/-- A step keeps the accounts of `d` if it leaves no message of a terminated thread to it. -/
theorem accounts (H : Good k) (hr : Regular k e) (h : MikaBoo.step fuel k e = .ok k')
    (A : k.view.Accounts d)
    (hleft : d ∉ k.casualties e → ∀ t ∈ k.casualties e, k.leftover e t d = []) :
    k'.view.Accounts d := by
  by_cases hv : k.casualties e = []
  · refine Moves.accounts (H.step hr h).2 (fun _ t ht => ?_) A
    by_contra hlive
    exact H.live_of_spared h (by simp [hv]) hlive ht
  · obtain ⟨hist, hh, hkind, hfreed⟩ := H.history_of_casualties hr hv h
    have hhist : k'.view.history = k.view.history ++ hist := hh
    -- nothing is left of a life that the step has ended
    have hdead : ∀ {s t}, t = s ∨ t = d → t ∈ k.casualties e →
        received (present k'.view.history s d) s d = [] ∧
          sent (present k'.view.history s d) s d = [] := by
      intro s t hts ht
      rw [hhist]
      exact no_messages
        (fun o ho => hkind o (mem_of_mem_present hts ((hfreed t).mpr ht) ho)) s d
    have hspared : ∀ {s}, s ∉ k.casualties e → d ∉ k.casualties e →
        present k'.view.history s d = present k.view.history s d ++ hist := by
      intro s hs hd
      rw [hhist]
      apply present_append
      rintro t (rfl | rfl) ht
      · exact hs ((hfreed t).mp ht)
      · exact hd ((hfreed t).mp ht)
    constructor
    · intro s
      by_cases hd : d ∈ k.casualties e
      · obtain ⟨hrecv, hsent⟩ := hdead (s := s) (Or.inr rfl) hd
        rw [hrecv, hsent, H.pending_dead hr h hd, List.append_nil]
      · by_cases hs : s ∈ k.casualties e
        · obtain ⟨hrecv, hsent⟩ := hdead (s := s) (Or.inl rfl) hs
          rw [hrecv, hsent, H.pending_casualty hr h hs hd, hleft hd s hs, List.append_nil]
        · obtain ⟨hrecv, hsent⟩ := no_messages hkind s d
          rw [hspared hs hd, received_append, sent_append, hrecv, hsent, List.append_nil,
            List.append_nil, H.pending_spared hr h hv hs hd, A.carried]
    · intro s hfree
      by_cases hd : d ∈ k.casualties e
      · exact (hdead (Or.inr rfl) hd).2
      · by_cases hs : s ∈ k.casualties e
        · exact (hdead (Or.inl rfl) hs).2
        · have hold : s ∈ k.view.threads .free := by
            by_contra hlive
            exact H.live_of_spared h hs hlive hfree
          rw [hspared hs hd, sent_append, A.silent s hold, (no_messages hkind s d).2]
          rfl

theorem accounts_boot {hw : Hardware} (hb : MikaBoo.boot hw = .ok k) (d : Tcb) :
    k.view.Accounts d := by
  have hpresent : ∀ s, (received (present k.view.history s d) s d).Sublist
      (received k.view.history s d) ∧
      (sent (present k.view.history s d) s d).Sublist (sent k.view.history s d) := by
    intro s
    have hsub : (present k.view.history s d).Sublist k.view.history :=
      (List.rtakeWhile_suffix _ _).sublist
    exact ⟨hsub.filterMap _, hsub.filterMap _⟩
  have hnone : ∀ s, received (present k.view.history s d) s d = [] ∧
      sent (present k.view.history s d) s d = [] := by
    intro s
    obtain ⟨hrecv, hsent⟩ := history_boot hb s d
    obtain ⟨h₁, h₂⟩ := hpresent s
    change List.Sublist _ (received k.history s d) at h₁
    change List.Sublist _ (sent k.history s d) at h₂
    rw [hrecv] at h₁
    rw [hsent] at h₂
    exact ⟨List.sublist_nil.mp h₁, List.sublist_nil.mp h₂⟩
  refine ⟨fun s => ?_, fun s _ => (hnone s).2⟩
  rw [(hnone s).1, (hnone s).2, pending_boot hb]
  rfl

end Good

/-! ## The request that the SSI holds -/

/-- The SSI has received nothing since it got a message of `t`, and nobody has been freed. -/
def Latest (hist : List Obs) (t : Tcb) : Prop :=
  ∃ h h' pl, hist = h ++ .received .ssi (some t) pl :: h' ∧ (∀ u, .freed u ∉ h') ∧
    ∀ o pl, .received .ssi o pl ∉ h'

namespace Latest

variable {hist hist' : List Obs} {t : Tcb}

theorem append (L : Latest hist t) (hfreed : ∀ u, .freed u ∉ hist')
    (hrecv : ∀ o pl, .received .ssi o pl ∉ hist') : Latest (hist ++ hist') t := by
  obtain ⟨h, h', pl, rfl, hf, hr⟩ := L
  refine ⟨h, h' ++ hist', pl, by simp, fun u hu => ?_, fun o pl ho => ?_⟩
  · exact (List.mem_append.mp hu).elim (hf u) (hfreed u)
  · exact (List.mem_append.mp ho).elim (hr o pl) (hrecv o pl)

theorem received_present (L : Latest hist t) : received (present hist t .ssi) t .ssi ≠ [] := by
  obtain ⟨h, h', pl, rfl, hf, _⟩ := L
  have hnone : ∀ u, .freed u ∉ .received .ssi (some t) pl :: h' := by
    intro u hu
    exact hf u ((List.mem_cons.mp hu).resolve_left (by rintro ⟨⟩))
  rw [present_append fun u _ => hnone u, received_append]
  simp [received]

end Latest

/-- While the SSI, which is not on the processor, holds a request, that is the last message that
it has got, and nobody has been freed since. -/
def View.Holding (v : View) : Prop :=
  ∀ h, .ssi ∈ v.sched h → (v.tcb .ssi).tStatus = .ready → v.globals.ssiPoint = .serving →
    ∃ s, (v.tcb .ssi).tS.a1 = .tcb s ∧ Latest v.history s

namespace View.Holding

variable {v v' : View} {hist : List Obs}

theorem of_running (I : v.Inv (some .ssi)) : v.Holding :=
  fun _ hm => absurd rfl (I.scheduled.off hm)

/-- Others send and receive. -/
theorem keep (K : v.Holding) (hh : v'.history = v.history ++ hist)
    (hhist : ∀ o ∈ hist, (∃ s d pl b, o = .sent s d pl b) ∨ (∃ t, o = .allocated t) ∨
      ∃ d s pl, d ≠ .ssi ∧ o = .received d s pl)
    (hsched : ∀ h, .ssi ∈ v'.sched h → ∃ h', .ssi ∈ v.sched h') (htcb : v'.tcb .ssi = v.tcb .ssi)
    (hpoint : v'.globals.ssiPoint = v.globals.ssiPoint) : v'.Holding := by
  intro h hm hready hserving
  obtain ⟨h', hm'⟩ := hsched h hm
  rw [htcb] at hready ⊢
  obtain ⟨s, hs, L⟩ := K h' hm' hready (hpoint ▸ hserving)
  refine ⟨s, hs, ?_⟩
  rw [hh]
  apply L.append
  · intro u hu
    rcases hhist _ hu with ⟨_, _, _, _, ho⟩ | ⟨_, ho⟩ | ⟨_, _, _, _, ho⟩ <;> cases ho
  · intro o pl hu
    rcases hhist _ hu with ⟨_, _, _, _, ho⟩ | ⟨_, ho⟩ | ⟨_, _, _, hd, ho⟩ <;> cases ho
    exact hd rfl

end View.Holding

theorem Action.holding {scope : Scope} {c c' : Config} (hc : c.Ok) (a : Action scope c c')
    (K : c.view.Holding) : c'.view.Holding := by
  have I' := a.inv hc
  obtain ⟨⟨k, R⟩, I, _, _⟩ := hc
  cases a with
  | @adjust v r t f same user =>
      by_cases ht : t = .ssi
      · obtain rfl := user.resolve_right (by simp [ht])
        subst ht
        exact .of_running I'
      · exact K.keep (List.append_nil _).symm (by simp) (fun h hm => ⟨h, hm⟩)
          (by simp [View.modTcb, Ne.symm ht]) rfl
  | globals count point soft =>
      rcases point with rfl | point
      · exact .of_running I'
      · exact K.keep (List.append_nil _).symm (by simp) (fun h hm => ⟨h, hm⟩) rfl point
  | manage | adopt | abandon =>
      exact K.keep (List.append_nil _).symm (by simp) (fun h hm => ⟨h, hm⟩) rfl rfl
  | refuse | queue =>
      exact K.keep rfl (by simp) (fun h hm => ⟨h, hm⟩) rfl rfl
  | @direct v r s d pl h sender queued waits eligible foreign =>
      by_cases hd : d = .ssi
      · subst hd
        intro h' _ _ _
        refine ⟨s, ?_, v.history, [.sent (some s) .ssi pl true], pl, ?_, by simp, by simp⟩
        · change ((v.wake .ssi h (some s) pl).tcb .ssi).tS.a1 = _
          rw [View.wake_tcb_self]
          rfl
        · exact List.append_assoc _ _ _
      · have hadds : ((v.wake d h (some s) pl).record (.sent (some s) d pl true)).history =
            v.history ++ [.received d (some s) pl, .sent (some s) d pl true] :=
          List.append_assoc _ _ _
        refine K.keep hadds (by simp [hd]) (fun h' hm => ?_) ?_ rfl
        · exact ⟨h', ((R.mem_wake queued).mp hm).elim (fun hm => hm.2)
            fun hm => absurd hm.1 (Ne.symm hd)⟩
        · exact View.wake_tcb_of_ne (h := h) (Ne.symm hd)
  | @receive v d src m first =>
      by_cases hd : d = .ssi
      · subst hd
        exact .of_running I'
      · exact K.keep rfl (by simp [hd]) (fun h hm => ⟨h, hm⟩) rfl rfl
  | @block v t src f none owner status wait =>
      by_cases ht : t = .ssi
      · subst ht
        intro h _ hready
        have hs : ((v.modTcb .ssi f).tcb .ssi).tStatus = .w4msg := by
          simpa [View.modTcb] using status
        rw [show ((v.modTcb .ssi f).enqueue .ssi (.waiting src)).tcb = (v.modTcb .ssi f).tcb
          from rfl, hs] at hready
        cases hready
      · refine K.keep (List.append_nil _).symm (by simp) (fun h hm => ?_) ?_ rfl
        · exact ⟨h, (View.mem_enqueue.mp hm).resolve_right fun hm => ht hm.1.symm⟩
        · simp [View.enqueue, View.modTcb, Ne.symm ht]
  | preempt user | passUp _ user =>
      refine K.keep (List.append_nil _).symm (by simp) (fun h hm => ?_) rfl rfl
      exact ⟨h, (View.mem_enqueue.mp hm).resolve_right fun hm => user hm.1.symm⟩
  | dispatch head =>
      exact K.keep (List.append_nil _).symm (by simp)
        (fun h hm => ⟨h, ((R.mem_outqueue (by simp [head])).mp hm).2⟩) rfl rfl
  | @create v r t p s _ free alive =>
      have ht : t ≠ .ssi := (I.owned.free.mp free).1
      have hadds : (v.create t p s).history = v.history ++ [.allocated t] := rfl
      refine K.keep hadds (by simp) (fun h hm => ?_) (View.create_tcb_of_ne (Ne.symm ht)) rfl
      exact ⟨h, (View.mem_enqueue.mp hm).resolve_right fun hm => ht hm.1.symm⟩
  | reap _ step => exact .of_running I'

theorem Moves.holding {scope : Scope} {c c' : Config} (ms : Moves scope c c')
    (K : c.view.Holding) : c'.view.Holding := by
  induction ms with
  | refl => exact K
  | tail _ m ih => exact m.act.holding m.ok ih

/-! ## Runs -/

/-- The SSI serves no WAIT_FOR_CLOCK request. -/
def Unclocked (k : Kernel) : Event → Prop
  | .ssi => k.request ≠ some .waitForClock
  | _ => True

instance (k : Kernel) (e : Event) : Decidable (Unclocked k e) :=
  match e with
  | .ssi => inferInstanceAs (Decidable (k.request ≠ some .waitForClock))
  | .start | .run _ _ _ | .elapse _ | .edit _ _ | .syscall | .pgmtrap _ | .tlbtrap _
  | .interrupt _ => inferInstanceAs (Decidable True)

/-- The event leaves no message of a thread that it terminates in the queue of `d`, unless it
terminates `d`. -/
def Swept (k : Kernel) (e : Event) (d : Tcb) : Prop :=
  d ∉ k.casualties e → ∀ t ∈ k.casualties e, k.leftover e t d = []

instance (k : Kernel) (e : Event) (d : Tcb) : Decidable (Swept k e d) :=
  inferInstanceAs (Decidable (_ → _))

/-- The requests of the SSI are from allocated threads, and the one that it holds is recent. -/
structure Kernel.Vouched (k : Kernel) : Prop where
  good : Good k
  accounts : k.view.Accounts .ssi
  holding : k.view.Holding
  holds : k.Holds (Latest k.history)

/-- A receive that does not block leaves the sender in `a1`. -/
theorem recv_receives {k k' : Kernel} {fuel : Nat} {t : Tcb} {src : Option Tcb} {ptr : Value}
    {st : State} (F : k.Filed) (hc : k.currentThread = some t)
    (h : recv fuel k src ptr = .ok (.resume st, k')) :
    ∃ s pl, st.a1 = tcbPtr s ∧ k'.history = k.history ++ [.received t s pl] := by
  unfold recv at h
  rw [hc] at h
  dsimp only at h
  split at h
  · cases h
  · cases hpick : k.view.pick src t with
    | none =>
        rw [F.msgqGet_none hpick, ok_bind] at h
        obtain ⟨_, _, h⟩ := bind_eq_ok.mp h
        cases src <;> cases h
    | some m =>
        obtain ⟨k₁, hget, hhist, _⟩ := F.msgqGet_pick hpick ptr
        rw [hget, ok_bind] at h
        cases h
        exact ⟨_, _, rfl, congrArg (· ++ _) hhist⟩

/-- The SSI gets the first message in its queue. -/
theorem ssi_receives {k k' : Kernel} {fuel : Nat} {st : State} (F : k.Filed)
    (hp : k.ssiPoint = .receiving) (hc : k.currentThread = some .ssi)
    (h : ssi fuel k = .ok (.resume st, k')) :
    ∃ s pl, st.a1 = tcbPtr s ∧ k'.history = k.history ++ [.received .ssi s pl] := by
  simp only [ssi, hp] at h
  exact recv_receives (k := { k.enter with
    ssiPoint := .serving
    sysbkOldarea := { k.cpu with a1 := SYS_RECV, a2 := tcbPtr none, a3 := .ssiMsg, a4 := null } })
    (F.congr rfl) hc h

namespace Kernel.Vouched

variable {k k' k₁ : Kernel} {e : Event} {fuel : Nat} {x : Exit} {t : Tcb}

/-- The SSI serves allocated threads. -/
theorem allocated (V : k.Vouched) (hc : k.currentThread = some .ssi) (hp : k.ssiPoint = .serving)
    (ht : k.applicant = some t) : k.Allocated t ∧ Latest k.history t := by
  have hcpu : k.cpu.a1 = .tcb t := by
    unfold Kernel.applicant at ht
    split at ht <;> cases ht
    assumption
  obtain ⟨u, hu, hne⟩ := V.good.holds hc hp
  obtain ⟨u', hu', hlatest⟩ := V.holds hc hp
  obtain rfl : u = t := by simpa [hcpu] using hu.symm
  obtain rfl : u' = u := by simpa [hcpu] using hu'.symm
  refine ⟨⟨hne, fun hfree => hlatest.received_present ?_⟩, hlatest⟩
  have hcarried := V.accounts.carried u'
  rw [V.accounts.silent u' hfree, List.append_eq_nil_iff] at hcarried
  exact hcarried.1

theorem regular (V : k.Vouched) (hu : Unclocked k e) (h : entry fuel k e = .ok (x, k₁)) :
    Regular k e := by
  cases e with
  | ssi =>
      intro q hq
      refine ⟨fun hclock => hu (by rw [← hclock, hq]), fun _ t ht => ?_⟩
      simp only [entry] at h
      split at h
      · rename_i hrun
        exact (V.allocated hrun.2 (point_of_request hq) ht).1
      · cases h
  | _ => trivial

/-- While the SSI is on the processor, time passes or it runs. -/
theorem event_of_ssi (H : Good k) (hc : k.currentThread = some .ssi)
    (h : entry fuel k e = .ok (x, k₁)) : e = .ssi ∨ ∃ n, e = .elapse n := by
  have huser : k.userRuns = true → False := by
    intro hu
    obtain ⟨i, hi⟩ := Good.user_of_userRuns hu
    rw [hc] at hi
    cases hi
  cases e with
  | ssi => exact Or.inl rfl
  | elapse n => exact Or.inr ⟨n, rfl⟩
  | start =>
      simp only [entry] at h
      split at h
      · rename_i hm
        rw [H.booting hm] at hc
        cases hc
      · cases h
  | interrupt pending =>
      simp only [entry] at h
      split at h
      · rename_i hp
        rcases hp.1 with hu | hw
        · exact (huser hu).elim
        · rw [(H.waiting hw).1] at hc
          cases hc
      · cases h
  | edit =>
      simp only [entry] at h
      split at h
      · rename_i hu
        exact (huser hu.1).elim
      · cases h
  | run | syscall | pgmtrap | tlbtrap =>
      simp only [entry] at h
      split at h
      · rename_i hu
        exact (huser hu).elim
      · cases h

/-- The request that the SSI holds after a kernel entry is the last message that it got. -/
theorem resumes_of_holds (H : Good k) (hl : k.Holds (Latest k.history)) (hr : Regular k e)
    {st : State} (h : entry fuel k e = .ok (.resume st, k₁)) (hc : k₁.currentThread = some .ssi)
    (hp : k₁.ssiPoint = .serving) : ∃ t, st.a1 = .tcb t ∧ Latest k₁.history t := by
  have hssi : k.currentThread = some .ssi := (H.entry hr h).1.thread.symm.trans hc
  rcases event_of_ssi H hssi h with rfl | ⟨n, rfl⟩
  · simp only [entry] at h
    split at h
    · have G : Goes (ssiScope k) ⟨k.view, k.currentThread⟩ k (some .ssi) := by
        rw [← hssi]
        exact H.goes
      have ha : k.ssiPoint = .serving → k.applicant ≠ some .ssi := by
        intro hp ht
        obtain ⟨u, hu, hne⟩ := H.holds hssi hp
        simp only [Kernel.applicant, hu] at ht
        exact hne (Option.some.inj ht)
      obtain ⟨hrecv, m, hm, ha1⟩ := (G.ssi hssi ha hr h).2 st rfl hp
      obtain ⟨s, hs, _⟩ := H.ok.desk.queued hm
      obtain ⟨s', pl, ha1', hhist⟩ := ssi_receives H.refines.msgs hrecv hssi h
      have hptr : tcbPtr s' = .tcb s := by
        rw [← ha1', ha1, hs]
        rfl
      obtain rfl : s' = some s := by
        cases s' <;> cases hptr
        rfl
      exact ⟨s, ha1'.trans hptr, k.history, [], pl, hhist, by simp, by simp⟩
    · cases h
  · simp only [entry] at h
    split at h
    · cases h
      exact hl hssi hp
    · cases h

/-- The request that the SSI holds stays the last message that it got. -/
theorem holds_step (H : Good k) (K : k.view.Holding) (hl : k.Holds (Latest k.history))
    (hr : Regular k e) (h : MikaBoo.step fuel k e = .ok k') :
    k'.view.Holding ∧ k'.Holds (Latest k'.history) := by
  obtain ⟨⟨x, k₁⟩, hk₁, hleave⟩ := bind_eq_ok.mp h
  obtain ⟨L, _⟩ := H.entry hr hk₁
  refine ⟨(H.step hr h).2.holding K, ?_⟩
  rw [(leave_mail hleave).1]
  have hholding : k₁.view.Holding := L.goes.moves.holding K
  refine leave_holds L.goes (fun hm => hholding _ hm) (fun st hst hc hp => ?_) hleave
  subst hst
  exact resumes_of_holds H hl hr hk₁ hc hp

/-- Without WAIT_FOR_CLOCK, and if no request of a terminated thread is left, the SSI only serves
allocated threads. -/
theorem step (V : k.Vouched) (hu : Unclocked k e) (hs : Swept k e .ssi)
    (h : MikaBoo.step fuel k e = .ok k') : Regular k e ∧ k'.Vouched := by
  obtain ⟨⟨x, k₁⟩, hk₁, _⟩ := bind_eq_ok.mp h
  have hr := V.regular hu hk₁
  have H := V.good
  obtain ⟨hholding, hholds⟩ := holds_step H V.holding V.holds hr h
  exact ⟨hr, (H.step hr h).1, H.accounts hr h V.accounts hs, hholding, hholds⟩

/-- The SSI starts before its first receive. -/
theorem point_boot {hw : Hardware} (hb : MikaBoo.boot hw = .ok k) : k.ssiPoint = .receiving := by
  obtain ⟨k', hk', R⟩ := boot_ok hw
  obtain rfl := Except.ok.inj (hb.symm.trans hk')
  have hcreate : ∀ (v : View) (t p s), (v.create t p s).globals.ssiPoint = v.globals.ssiPoint :=
    fun _ _ _ _ => rfl
  rw [← (bootView_processor hw).2.2.2, ← hcreate (bootView hw) (.thread 0) root _, ← bootedView,
    R.globals]
  rfl

theorem boot {hw : Hardware} (hb : MikaBoo.boot hw = .ok k) : k.Vouched := by
  have hpoint := point_boot hb
  refine ⟨Good.boot hb, Good.accounts_boot hb .ssi, fun _ _ _ hp => ?_, fun _ hp => ?_⟩
  · have hp : k.ssiPoint = .serving := hp
    rw [hpoint] at hp
    cases hp
  · rw [hpoint] at hp
    cases hp

end Kernel.Vouched

end MikaBoo
