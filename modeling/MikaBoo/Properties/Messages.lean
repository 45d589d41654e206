import MikaBoo.Abstract.Reachable

/-!
# Message passing

No message is lost, duplicated, reordered or attributed to another sender, and no
receiver is blocked while a message it waits for is pending.
-/

namespace MikaBoo

open Intrusive Fuel Transition

/-- The payloads that `d` has received from `s`. -/
def received (hist : List Obs) (s d : Tcb) : List Value :=
  hist.filterMap fun
    | .received d' s' pl => if d' = d ∧ s' = some s then some pl else none
    | _ => none

/-- The payloads of the successful calls of `send` from `s` to `d`. -/
def sent (hist : List Obs) (s d : Tcb) : List Value :=
  hist.filterMap fun
    | .sent s' d' pl success => if s' = some s ∧ d' = d ∧ success then some pl else none
    | _ => none

/-- The payloads from `s` in the queue of `d`. -/
def View.pending (v : View) (s d : Tcb) : List Value :=
  ((v.mailbox d).filter fun e => e.mSender = some s).map MsgT.mValue

/-- The SSI, or an allocated thread. -/
def Kernel.Live (k : Kernel) (t : Tcb) : Prop := t ∉ k.view.threads .free

instance (k : Kernel) (t : Tcb) : Decidable (k.Live t) := inferInstanceAs (Decidable (¬ _))

theorem Good.live_ssi {k : Kernel} (H : Good k) : k.Live .ssi :=
  fun hfree => (H.inv.owned.free.mp hfree).1 rfl

@[simp] theorem received_append (h h' : List Obs) (s d : Tcb) :
    received (h ++ h') s d = received h s d ++ received h' s d := List.filterMap_append

@[simp] theorem sent_append (h h' : List Obs) (s d : Tcb) :
    sent (h ++ h') s d = sent h s d ++ sent h' s d := List.filterMap_append

/-- Between the two views the channel from `s` to `d` has carried its messages in
order: what was received and is pending is what was pending and has been sent. -/
def Carries (s d : Tcb) (v v' : View) : Prop :=
  ∃ hist, v'.history = v.history ++ hist ∧
    received hist s d ++ v'.pending s d = v.pending s d ++ sent hist s d

namespace Carries

variable {s d : Tcb} {v v₁ v' : View}

theorem of_same (hhist : v'.history = v.history) (hpend : v'.pending s d = v.pending s d) :
    Carries s d v v' :=
  ⟨[], by simp [hhist], by simp [received, sent, hpend]⟩

theorem refl (v : View) : Carries s d v v := .of_same rfl rfl

theorem trans (h₁ : Carries s d v v₁) (h₂ : Carries s d v₁ v') : Carries s d v v' := by
  obtain ⟨hist₁, hh₁, hc₁⟩ := h₁
  obtain ⟨hist₂, hh₂, hc₂⟩ := h₂
  refine ⟨hist₁ ++ hist₂, by rw [hh₂, hh₁, List.append_assoc], ?_⟩
  calc received (hist₁ ++ hist₂) s d ++ v'.pending s d
      = received hist₁ s d ++ (received hist₂ s d ++ v'.pending s d) := by simp
    _ = received hist₁ s d ++ v₁.pending s d ++ sent hist₂ s d := by
        rw [hc₂, List.append_assoc]
    _ = v.pending s d ++ sent (hist₁ ++ hist₂) s d := by simp [hc₁]

end Carries

/-! ## One action -/

namespace View

variable {k : Kernel} {v v' : View} {s d u : Tcb} {src : Option Tcb} {m : Msg} {pl : Value}
  {r : Option Tcb}

theorem pending_congr (h : v'.mailbox d = v.mailbox d) : v'.pending s d = v.pending s d := by
  rw [pending, h, pending]

/-- A blocked receiver has no eligible message. -/
theorem Mail.not_eligible (M : v.Mail) (hw : (v.tcb d).tStatus = .w4msg) {e : MsgT}
    (he : e ∈ v.mailbox d) : e.eligible (v.tcb d).tWait4sender = false := by
  obtain ⟨m, hm, rfl⟩ := List.mem_map.mp he
  obtain ⟨h₁, h₂⟩ := M.awaited hm hw
  simp [MsgT.eligible, h₁, h₂]

/-- A receive takes the first message of its sender. -/
theorem pending_receive (R : Represents msgLayout k.msgLinks v.msgs)
    (hp : v.pick src d = some m) :
    received [.received d (v.msg m).mSender (v.msg m).mValue] s u ++
      (v.freeMsg d m).pending s u = v.pending s u := by
  by_cases hu : u = d
  · subst hu
    have hmail := View.mailbox_freeMsg (u := u) R hp
    rw [if_pos rfl] at hmail
    rw [pick_eq_find, List.find?_eq_some_iff_append] at hp
    obtain ⟨hel, as, bs, hq, has⟩ := hp
    have has' : ∀ e ∈ as.map v.msg, ¬ e.eligible src = true := by
      intro e he
      obtain ⟨a, ha, rfl⟩ := List.mem_map.mp he
      simpa using has a ha
    have hold : v.mailbox u = as.map v.msg ++ v.msg m :: bs.map v.msg := by
      simp [mailbox, hq]
    rw [pending, hmail, pending, hold, List.eraseP_append_right _ has',
      List.eraseP_cons_of_pos hel]
    by_cases hs : (v.msg m).mSender = some s
    · -- the messages before the first eligible one are not from its sender
      have hnil : (as.map v.msg).filter (fun e => e.mSender = some s) = [] := by
        rw [List.filter_eq_nil_iff]
        intro e he hes
        apply has' e he
        simp only [decide_eq_true_eq] at hes
        simpa [MsgT.eligible, hes, hs] using hel
      simp [List.filter_append, hnil, received, hs]
    · simp [List.filter_append, received, hs]
  · rw [pending_congr (v := v) (by rw [View.mailbox_freeMsg R hp, if_neg hu])]
    simp [received, Ne.symm hu]

/-- Termination takes away messages of the terminated threads only. -/
theorem Carries.reapStep {a : Option Tcb} {e : Reaping} (step : ReapStep a v e v')
    (hs : s ∉ v'.threads .free) (hd : d ∉ v'.threads .free) : Carries s d v v' := by
  cases step with
  | orphan => exact .of_same rfl rfl
  | @kill t p h hr member queued =>
      have hfree : t ∈ ((v.clean t (v.cleanDest a t p)).reap t p h).threads .free :=
        (mem_reap_threads (hr.clean t _) member).mpr (Or.inr ⟨rfl, rfl⟩)
      have hst : s ≠ t := by
        rintro rfl
        exact hs hfree
      have hdt : d ≠ t := by
        rintro rfl
        exact hd hfree
      refine ⟨(v.sched (.tWait4me t)).map (fun u => .received u none null) ++ [.freed t], ?_, ?_⟩
      · exact List.append_assoc _ _ _
      · have hrecv : received ((v.sched (.tWait4me t)).map fun u => .received u none null) s d =
            [] := by
          simp [received, List.filterMap_map]
        have hsent : sent ((v.sched (.tWait4me t)).map fun u => .received u none null) s d =
            [] := by
          simp [sent, List.filterMap_map]
        have hpend : ((v.clean t (v.cleanDest a t p)).reap t p h).pending s d = v.pending s d := by
          rw [pending, mailbox_reap_of_ne (hr.clean t _) hdt, mailbox_clean hr, pending]
          split
          · -- only a message from `t` is removed
            congr 1
            induction v.mailbox d with
            | nil => rfl
            | cons e es ih =>
                by_cases he : e.mSender = some t
                · rw [List.eraseP_cons_of_pos (by simp [MsgT.eligible, he])]
                  simp [he, Ne.symm hst]
                · rw [List.eraseP_cons_of_neg (by simp [MsgT.eligible, he]), List.filter_cons,
                    List.filter_cons, ih]
          · rfl
        simp [hpend, received, sent]

end View

/-- From `v` to `v'` messages are sent and received as `hist` says, and nobody is freed. -/
structure Conveys (v v' : View) (hist : List Obs) : Prop where
  history : v'.history = v.history ++ hist
  freed : ∀ t, .freed t ∉ hist
  channel : ∀ s d, received hist s d ++ v'.pending s d = v.pending s d ++ sent hist s d
  senders : ∀ s d, sent hist s d ≠ [] → (v.tcb s).tStatus ≠ .none

theorem Conveys.of_same {v v' : View} (hhist : v'.history = v.history)
    (hmail : ∀ d, v'.mailbox d = v.mailbox d) : Conveys v v' [] where
  history := by simp [hhist]
  freed := by simp
  channel s d := by simp [received, sent, View.pending_congr (hmail d)]
  senders s d := by simp [sent]

/-- Every action conveys messages, or is part of a termination. -/
theorem Action.conveys {scope : Scope} {c c' : Config} (hc : c.Ok) (a : Action scope c c') :
    (∃ hist, Conveys c.view c'.view hist) ∨
      scope = .terminate ∧ ∃ b e, ReapStep b c.view e c'.view := by
  obtain ⟨⟨k, R⟩, I, _, _⟩ := hc
  cases a with
  | adjust | globals | manage | block | preempt | passUp | dispatch | adopt | abandon =>
      exact Or.inl ⟨[], .of_same rfl fun _ => rfl⟩
  | @refuse v r s' d' pl =>
      refine Or.inl ⟨[.sent (some s') d' pl false], rfl, by simp, fun s d => ?_, by simp [sent]⟩
      have hp : (v.record (.sent (some s') d' pl false)).pending s d = v.pending s d := rfl
      simp [received, sent, hp]
  | @queue v r s' d' pl m sender free =>
      refine Or.inl ⟨[.sent (some s') d' pl true], rfl, by simp, fun s d => ?_, fun s d hsent => ?_⟩
      · have hp : ((v.post s' d' pl m).record (.sent (some s') d' pl true)).pending s d =
            v.pending s d ++ sent [.sent (some s') d' pl true] s d := by
          change (v.post s' d' pl m).pending s d = _
          rw [View.pending, View.mailbox_post R.msgs free, View.pending]
          by_cases hd' : d = d'
          · subst hd'
            by_cases hs' : s' = s <;> simp [sent, hs']
          · simp [sent, hd', Ne.symm hd']
        simp [hp, received]
      · obtain ⟨rfl, _⟩ : s' = s ∧ d' = d := by simpa [sent] using hsent
        exact sender
  | @direct v r s' d' pl h sender queued waits eligible =>
      refine Or.inl ⟨[.received d' (some s') pl, .sent (some s') d' pl true],
        List.append_assoc _ _ _, by simp, fun s d => ?_, fun s d hsent => ?_⟩
      · have hp : ((v.wake d' h (some s') pl).record (.sent (some s') d' pl true)).pending s d =
            v.pending s d := rfl
        rw [hp]
        by_cases hsd : d' = d ∧ s' = s
        · obtain ⟨rfl, rfl⟩ := hsd
          -- the receiver waits for this sender, so nothing from it is pending
          have hnil : v.pending s' d' = [] := by
            rw [View.pending, List.map_eq_nil_iff, List.filter_eq_nil_iff]
            intro e he hes
            have hne := I.mail.not_eligible waits he
            rw [decide_eq_true_eq] at hes
            rcases eligible with hw | hw <;> simp [MsgT.eligible, hw, hes] at hne
          simp [hnil, received, sent]
        · have hsd' : ¬ (s' = s ∧ d' = d) := fun h => hsd h.symm
          simp [received, sent, hsd, hsd']
      · obtain ⟨rfl, _⟩ : s' = s ∧ d' = d := by simpa [sent] using hsent
        exact sender
  | @receive v d' src m first =>
      refine Or.inl ⟨[.received d' (v.msg m).mSender (v.msg m).mValue], rfl, by simp,
        fun s d => ?_, by simp [sent]⟩
      have hp := View.pending_receive (s := s) (u := d) R.msgs first
      change received _ s d ++ (v.freeMsg d' m).pending s d = v.pending s d ++ sent _ s d
      rw [hp]
      simp [sent]
  | @create v r t p st =>
      refine Or.inl ⟨[.allocated t], rfl, by simp, fun s d => ?_, by simp [sent]⟩
      have hp : (v.create t p st).pending s d = v.pending s d := rfl
      simp [hp, received, sent]
  | reap allowed step => exact Or.inr ⟨allowed, _, _, step⟩

/-- Every action carries the messages between threads that are allocated after it. -/
theorem Action.carries {scope : Scope} {c c' : Config} {s d : Tcb} (hc : c.Ok)
    (a : Action scope c c') (hs : s ∉ c'.view.threads .free) (hd : d ∉ c'.view.threads .free) :
    Carries s d c.view c'.view := by
  rcases a.conveys hc with ⟨hist, h⟩ | ⟨_, _, _, step⟩
  · exact ⟨hist, h.history, h.channel s d⟩
  · exact View.Carries.reapStep step hs hd

/-! ## Many actions -/

/-- Only the create services take threads from the free list. -/
theorem Action.free {scope : Scope} {c c' : Config} {t : Tcb} (hc : c.Ok) (a : Action scope c c')
    (hscope : scope ≠ .create) (ht : t ∈ c.view.threads .free) : t ∈ c'.view.threads .free := by
  cases a with
  | create allowed => exact absurd allowed hscope
  | reap allowed step =>
      cases step with
      | orphan => exact ht
      | @kill u p h hr member queued =>
          change t ∈ (View.reap _ u p h).threads .free
          rw [View.mem_reap_threads (hr.clean u _) member]
          by_cases htu : t = u
          · exact Or.inr ⟨htu, rfl⟩
          · exact Or.inl ⟨htu, ht⟩
  | _ => exact ht

/-- Only terminations put threads on the free list. -/
theorem Action.of_free {scope : Scope} {c c' : Config} {t : Tcb} (hc : c.Ok)
    (a : Action scope c c') (hscope : scope ≠ .terminate) (ht : t ∈ c'.view.threads .free) :
    t ∈ c.view.threads .free := by
  obtain ⟨⟨k, R⟩, I, _, _⟩ := hc
  cases a with
  | @create v r u p st _ free =>
      have h := (R.mem_hire (p := p) (u := t) (l := .free) free).mp ht
      exact (h.resolve_right (by simp)).2
  | reap allowed => exact absurd allowed hscope
  | _ => exact ht

theorem Moves.free {scope : Scope} {c c' : Config} {t : Tcb} (ms : Moves scope c c')
    (hscope : scope ≠ .create) (ht : t ∈ c.view.threads .free) : t ∈ c'.view.threads .free := by
  induction ms with
  | refl => exact ht
  | tail _ m ih => exact m.act.free m.ok hscope ih

theorem Moves.of_free {scope : Scope} {c c' : Config} {t : Tcb} (ms : Moves scope c c')
    (hscope : scope ≠ .terminate) (ht : t ∈ c'.view.threads .free) : t ∈ c.view.threads .free := by
  induction ms with
  | refl => exact ht
  | tail _ m ih => exact ih (m.act.of_free m.ok hscope ht)

/-- A thread that is allocated before and after a kernel entry is so all along. -/
theorem Moves.live {scope : Scope} {c c₁ c' : Config} {t : Tcb} (h₁ : Moves scope c c₁)
    (h₂ : Moves scope c₁ c') (ht : t ∉ c.view.threads .free) (ht' : t ∉ c'.view.threads .free) :
    t ∉ c₁.view.threads .free := by
  intro hfree
  by_cases hscope : scope = .create
  · exact ht (Moves.of_free h₁ (by simp [hscope]) hfree)
  · exact ht' (Moves.free h₂ hscope hfree)

/-- The moves of a kernel entry carry the messages between threads that are
allocated before and after it. -/
theorem Moves.carries {scope : Scope} {c c' : Config} {s d : Tcb} (ms : Moves scope c c')
    (hs : s ∉ c.view.threads .free) (hd : d ∉ c.view.threads .free)
    (hs' : s ∉ c'.view.threads .free) (hd' : d ∉ c'.view.threads .free) :
    Carries s d c.view c'.view := by
  induction ms with
  | refl => exact .refl _
  | tail ms m ih =>
      have hs₁ := Moves.live ms (.single m) hs hs'
      have hd₁ := Moves.live ms (.single m) hd hd'
      exact (ih hs₁ hd₁).trans (m.act.carries m.ok hs' hd')

/-! ## Runs -/

theorem carries_run {k k' : Kernel} {es : List Event} {s d : Tcb}
    (H : Good k) (run : Run (GuardedStep fun k e => Regular k e ∧ k.Live s ∧ k.Live d) k es k')
    (hs : k'.Live s) (hd : k'.Live d) : Good k' ∧ Carries s d k.view k'.view := by
  induction run with
  | nil => exact ⟨H, .refl _⟩
  | snoc _ last ih =>
      obtain ⟨⟨hr, hs₁, hd₁⟩, fuel, h⟩ := last
      obtain ⟨H₁, hc⟩ := ih hs₁ hd₁
      obtain ⟨H₂, ms⟩ := H₁.step hr h
      exact ⟨H₂, hc.trans (ms.carries hs₁ hd₁ hs hd)⟩

theorem pending_boot {hw : Hardware} {k : Kernel} (h : boot hw = .ok k) (s d : Tcb) :
    k.view.pending s d = [] := by
  obtain ⟨k', hk', R⟩ := boot_ok hw
  obtain rfl := Except.ok.inj (h.symm.trans hk')
  rw [← R.eq_view]
  rfl

theorem history_boot {hw : Hardware} {k : Kernel} (h : boot hw = .ok k) (s d : Tcb) :
    received k.history s d = [] ∧ sent k.history s d = [] := by
  obtain ⟨k', hk', R⟩ := boot_ok hw
  obtain rfl := Except.ok.inj (h.symm.trans hk')
  rw [← R.history]
  exact ⟨rfl, rfl⟩

/-- A `send` that fails changes nothing. -/
theorem send_failure {k k' : Kernel} {d : Tcb} {s : Option Tcb} {pl : Value} {w : Word}
    (h : send k d s pl = .ok (w, k')) (hw : w ≠ SEND_SUCCESS) :
    k' = k.record (.sent s d pl false) := by
  have hdeliver : ∀ {w k'}, deliverMsg k d s pl = .ok (w, k') → w ≠ SEND_SUCCESS → k' = k := by
    intro w k' h hw
    obtain ⟨⟨r, k₁⟩, hk₁, h⟩ := bind_eq_ok.mp h
    dsimp only at h
    split at h
    · cases h
      exact absurd rfl hw
    · rename_i hr
      cases h
      obtain ⟨o, _, hk₁⟩ := bind_eq_ok.mp hk₁
      split at hk₁
      · cases hk₁
        exact absurd rfl hr
      · cases hk₁
        rfl
  obtain ⟨⟨w₁, k₁⟩, hk₁, h⟩ := bind_eq_ok.mp h
  cases h
  have hsame : k₁ = k := by
    unfold sendSwitch at hk₁
    split at hk₁
    · exact hdeliver hk₁ hw
    · split at hk₁
      · cases hk₁
        exact absurd rfl hw
      · exact hdeliver hk₁ hw
    · cases hk₁
      rfl
  rw [hsame, decide_eq_false hw]

/-- Messages between two threads that stay allocated are received in the order in
which they were sent, none lost and none twice, from any state of a regular run
on, and so from the boot state on. A `send` that fails changes nothing. -/
theorem fifo {hw : Hardware} {k₀ k₁ k : Kernel} {es es₁ : List Event} {s d : Tcb}
    (hb : boot hw = .ok k₀) (run : Run RegularStep k₀ es k₁)
    (run₁ : Run (GuardedStep fun k e => Regular k e ∧ k.Live s ∧ k.Live d) k₁ es₁ k)
    (hs : k.Live s) (hd : k.Live d) :
    (∃ hist, k.history = k₁.history ++ hist ∧
      received hist s d ++ k.view.pending s d = k₁.view.pending s d ++ sent hist s d) ∧
    (k₁ = k₀ → received k.history s d ++ k.view.pending s d = sent k.history s d) ∧
    ∀ (k k' : Kernel) (d : Tcb) (s : Option Tcb) (pl : Value) (w : Word),
      send k d s pl = .ok (w, k') → w ≠ SEND_SUCCESS → k' = k.record (.sent s d pl false) := by
  obtain ⟨_, hist, hh, hc⟩ := carries_run ((Good.boot hb).run run) run₁ hs hd
  refine ⟨⟨hist, hh, hc⟩, ?_, fun _ _ _ _ _ _ => send_failure⟩
  rintro rfl
  obtain ⟨hr, hs₀⟩ := history_boot hb s d
  rw [pending_boot hb] at hc
  change k.history = _ at hh
  rw [hh, received_append, sent_append]
  change received k₁.history s d ++ _ ++ _ = sent k₁.history s d ++ _
  rw [hr, hs₀]
  exact hc

/-- The first thread sends two requests to the SSI, which has received one of them. -/
theorem fifo_sample : ∃ k₀ k : Kernel, boot Sample.hardware = .ok k₀ ∧
    sent k.history (.thread 0) .ssi = [.int 0x100, .int 0x104] ∧
    received k.history (.thread 0) .ssi = [.int 0x100] ∧
    received k.history (.thread 0) .ssi ++ k.view.pending (.thread 0) .ssi =
      sent k.history (.thread 0) .ssi := by
  let guard : Kernel → Event → Prop := fun k e =>
    Regular k e ∧ k.Live (.thread 0) ∧ k.Live .ssi
  let es := [.start, .ssi] ++ Sample.request [.int 8] ++ Sample.send .ssi (.int 0x104) [.int 8]
  have h : (execute guard Sample.hardware 100 es).any (fun k =>
      sent k.history (.thread 0) .ssi = [.int 0x100, .int 0x104] ∧
      received k.history (.thread 0) .ssi = [.int 0x100] ∧
      k.Live (.thread 0) ∧ k.Live .ssi) = true := by
    decide +kernel
  obtain ⟨k, hk, hprops⟩ := Option.any_eq_true _ _ |>.mp h
  obtain ⟨k₀, hb, run⟩ := run_of_execute hk
  obtain ⟨hsent, hrecv, hs, hd⟩ := of_decide_eq_true hprops
  exact ⟨k₀, k, hb, hsent, hrecv, (fifo hb .nil run hs hd).2.1 rfl⟩

/-! ## Lost wake-ups -/

/-- No thread is blocked while a message that it waits for is pending. -/
def Kernel.Awake (k : Kernel) : Prop :=
  ∀ t, (k.tcb t).tStatus = .w4msg →
    ((k.tcb t).tWait4sender = none → k.view.mailbox t = []) ∧
    ∀ s, (k.tcb t).tWait4sender = some s → ∀ e ∈ k.view.mailbox t, e.mSender ≠ some s

theorem View.Mail.awake {k : Kernel} (M : k.view.Mail) : k.Awake := by
  intro t ht
  have hel : ∀ e ∈ k.view.mailbox t, e.eligible (k.tcb t).tWait4sender = false :=
    fun e he => M.not_eligible ht he
  constructor
  · intro hw
    rw [List.eq_nil_iff_forall_not_mem]
    intro e he
    have := hel e he
    simp [MsgT.eligible, hw] at this
  · intro s hw e he hes
    have := hel e he
    simp [MsgT.eligible, hw, hes] at this

/-- No wake-up is lost in a regular run, neither between two kernel entries nor
when a handler ends. -/
theorem no_lost_wakeup {hw : Hardware} {k₀ k : Kernel} {es : List Event}
    (hb : boot hw = .ok k₀) (run : Run RegularStep k₀ es k) :
    k.Awake ∧ ∀ fuel e x k', Regular k e → entry fuel k e = .ok (x, k') → k'.Awake := by
  have H := (Good.boot hb).run run
  exact ⟨H.inv.mail.awake, fun _ _ _ _ hr h => (H.entry hr h).1.goes.inv.mail.awake⟩

/-- The second thread waits for the SSI, and the first one sends it a message. -/
def Sample.overlooked : List Event :=
  [.start, .ssi] ++ Sample.service [.int 2, .int 0x200] ++ Sample.recv (some .ssi) [] ++
    Sample.send (.thread 1) (.int 7) []

/-- The second thread is blocked while a message that it does not wait for is pending. -/
theorem no_lost_wakeup_sample : ∃ k₀ k : Kernel, boot Sample.hardware = .ok k₀ ∧
    Run RegularStep k₀ Sample.overlooked k ∧ (k.tcb (.thread 1)).tStatus = .w4msg ∧
    (k.tcb (.thread 1)).tWait4sender = some .ssi ∧
    k.view.mailbox (.thread 1) = [{ mSender := some (.thread 0), mValue := .int 7 }] ∧
    k.Awake := by
  let check : Kernel → Bool := fun k => (k.tcb (.thread 1)).tStatus = .w4msg ∧
    (k.tcb (.thread 1)).tWait4sender = some .ssi ∧
    k.view.mailbox (.thread 1) = [{ mSender := some (.thread 0), mValue := .int 7 }]
  have h : (execute Regular Sample.hardware 100 Sample.overlooked).any check = true := by
    decide +kernel
  obtain ⟨k, hk, hprops⟩ := Option.any_eq_true _ _ |>.mp h
  obtain ⟨k₀, hb, run⟩ := run_of_execute hk
  obtain ⟨hblocked, hwait, hmail⟩ := of_decide_eq_true hprops
  exact ⟨k₀, k, hb, run, hblocked, hwait, hmail, (no_lost_wakeup hb run).1⟩

end MikaBoo
