import MikaBoo.Properties.Service

/-!
# Error codes

`errno` of a thread is set when a receive of it is aborted, and is reset with the descriptor only.
-/

namespace MikaBoo

open Intrusive Fuel Transition

/-- The error code of a thread says whether a receive of it has been aborted in its present life. -/
def Kernel.Flagged (k : Kernel) : Prop :=
  ∀ t, (k.tcb t).errno = if .received t none null ∈ present k.history t t then 1 else 0

/-- Every message in a queue has a sender. If every message sent had one, the error codes are as
they should be. -/
structure Kernel.Marked (k : Kernel) : Prop where
  signed : ∀ d, ∀ e ∈ k.view.mailbox d, e.mSender ≠ none
  flagged : (∀ d pl success, .sent none d pl success ∉ k.history) → k.Flagged

namespace Kernel.Flagged

variable {k k' : Kernel} {hist : List Obs}

/-- No receive is aborted, and no thread is freed. -/
theorem append (f : k.Flagged) (herrno : ∀ t, (k'.tcb t).errno = (k.tcb t).errno)
    (hhist : k'.history = k.history ++ hist) (hfreed : ∀ t, .freed t ∉ hist)
    (haborted : ∀ t, .received t none null ∉ hist) : k'.Flagged := by
  intro t
  rw [herrno, f t, hhist, present_append fun u _ => hfreed u]
  simp only [List.mem_append, haborted, or_false]

/-- Nothing happens. -/
theorem congr (f : k.Flagged) (herrno : ∀ t, (k'.tcb t).errno = (k.tcb t).errno)
    (hhist : k'.history = k.history) : k'.Flagged := by
  intro t
  rw [herrno, f t, hhist]

theorem abort (f : k.Flagged) (t : Tcb) :
    (resumeThread (k.modTcb t fun d => { d with errno := 1 }) t none null).Flagged := by
  let k₁ := k.modTcb t fun d => { d with errno := 1 }
  obtain ⟨htcb, _, _, hhist⟩ := resumeThread_effect k₁ t none null
  have hhist' : (resumeThread k₁ t none null).history = k.history ++ [.received t none null] := hhist
  intro u
  rw [hhist', present_append (by simp), htcb]
  by_cases hu : u = t
  · subst hu
    simp [k₁, Kernel.modTcb]
  · have hold := f u
    simpa [k₁, Kernel.modTcb, hu] using hold

theorem free (f : k.Flagged) (t : Tcb) : (threadFree k t).2.Flagged := by
  unfold threadFree
  split
  · exact f
  · split
    · exact f
    · intro u
      change ((cleanThreadData k t).tcb u).errno =
        if .received u none null ∈ present (k.history ++ [.freed t]) u u then 1 else 0
      by_cases hu : u = t
      · subst hu
        have hend : present (k.history ++ [.freed u]) u u = [] := by simp [present]
        simp [hend, cleanThreadData, Kernel.modTcb]
      · have hne : ∀ w, w = u ∨ w = u → (.freed w : Obs) ∉ [.freed t] := by
          rintro w (rfl | rfl) <;> simp [hu]
        have hold := f u
        rw [present_append hne]
        simpa [cleanThreadData, Kernel.modTcb, hu] using hold

end Kernel.Flagged

namespace Kernel.Marked

variable {k k' : Kernel}

theorem post {s : Option Tcb} {d : Tcb} {pl : Value} {w : Word} (M : k.Marked) (F : k.Filed)
    (h : send k d s pl = .ok (w, k')) : k'.Marked := by
  cases F.delivery h with
  | direct blocked _ resumed =>
      subst resumed
      obtain ⟨htcb, _, _, hhist⟩ := resumeThread_effect k d s pl
      obtain ⟨_, hlinks, hmsg⟩ := resumeThread_mail k d s pl
      have hhist' : ((resumeThread k d s pl).record (.sent s d pl true)).history =
          k.history ++ [.received d s pl, .sent s d pl true] := by
        simp [Kernel.record, hhist]
      have hmail : ((resumeThread k d s pl).record (.sent s d pl true)).view.mailbox =
          k.view.mailbox := Kernel.mailbox_of_links hlinks hmsg
      constructor
      · rw [hmail]
        exact M.signed
      · intro hsent
        rw [hhist'] at hsent
        cases s with
        | none => exact absurd (by simp) (hsent d pl true)
        | some a =>
            have f := M.flagged fun d pl success hm =>
              hsent d pl success (List.mem_append_left _ hm)
            refine f.append ?_ hhist' (by simp) (by simp)
            intro t
            by_cases ht : t = d
            · subst ht
              simp [Kernel.record, htcb]
            · simp [Kernel.record, htcb, ht]
  | queued a signed _ mailbox rest =>
      have hhist : k'.history = k.history ++ [.sent (some a) d pl true] := by rw [rest]
      have htcb : k'.tcb = k.tcb := by rw [rest]
      constructor
      · intro u e he
        rw [mailbox] at he
        split at he
        · rcases List.mem_append.mp he with he | he
          · exact M.signed u e he
          · rw [List.mem_singleton.mp he]
            simp
        · exact M.signed u e he
      · intro hsent
        rw [hhist] at hsent
        have f := M.flagged fun d pl success hm => hsent d pl success (List.mem_append_left _ hm)
        exact f.append (fun t => by rw [htcb]) hhist (by simp) (by simp)
  | failed lost =>
      subst lost
      refine ⟨M.signed, fun hsent => ?_⟩
      have f := M.flagged fun d pl success hm => hsent d pl success (List.mem_append_left _ hm)
      exact f.append (fun _ => rfl) rfl (by simp) (by simp)

theorem chore (M : k.Marked) (F : k.Filed) (c : Chore k k') : k'.Marked := by
  have hsigned : ∀ d, ∀ e ∈ k'.view.mailbox d, e.mSender ≠ none := fun d e he =>
    M.signed d e ((c.mailbox F d).subset he)
  have hsame : k'.tcb = k.tcb → k'.history = k.history → k'.Marked := by
    intro htcb hhist
    refine ⟨hsigned, fun hsent => ?_⟩
    rw [hhist] at hsent
    exact (M.flagged hsent).congr (fun t => by rw [htcb]) hhist
  cases c with
  | clean get =>
      unfold msgqGet at get
      split at get
      · cases get
        exact M
      · obtain ⟨_, _, get⟩ := bind_eq_ok.mp get
        split at get <;> cases get
        · exact M
        · exact hsame rfl rfl
      · obtain ⟨_, _, get⟩ := bind_eq_ok.mp get
        split at get <;> cases get
        · exact M
        · exact hsame rfl rfl
  | abort t =>
      refine ⟨hsigned, fun hsent => (M.flagged fun d pl success hm => ?_).abort t⟩
      refine hsent d pl success ?_
      have hhist := (resumeThread_mail (k.modTcb t fun d => { d with errno := 1 }) t none null).1
      rw [hhist]
      exact List.mem_append_left _ hm
  | free t =>
      refine ⟨hsigned, fun hsent => (M.flagged fun d pl success hm => ?_).free t⟩
      refine hsent d pl success ?_
      unfold threadFree
      split
      · exact hm
      · split
        · exact hm
        · exact List.mem_append_left _ hm
  | delete p =>
      apply hsame
      · unfold procDelete
        split <;> rfl
      · unfold procDelete
        split <;> rfl
  | alloc alloc =>
      obtain ⟨_, _, h⟩ := bind_eq_ok.mp alloc
      split at h <;> cases h
      · exact hsame rfl rfl
      · exact M
  | @create _ p t s alloc =>
      obtain ⟨_, _, h⟩ := bind_eq_ok.mp alloc
      split at h <;> cases h
      refine ⟨hsigned, fun hsent => ?_⟩
      have f := M.flagged fun d pl success hm => hsent d pl success (List.mem_append_left _ hm)
      refine f.append (fun u => ?_) (rfl : _ = k.history ++ [.allocated t]) (by simp) (by simp)
      by_cases hu : u = t
      · subst hu
        simp [threadEnqueue, Kernel.modTcb, Kernel.record]
      · simp [threadEnqueue, Kernel.modTcb, Kernel.record, hu]
  | drop | count | manage | wait | engage => exact hsame rfl rfl

theorem motion (F : k.Filed) (M : k.Marked) {r : Option Tcb} (m : Motion r k k') : k'.Marked := by
  cases m with
  | still same =>
      refine ⟨?_, fun hsent => ?_⟩
      · rw [Kernel.mailbox_of_links same.links same.msg]
        exact M.signed
      · rw [same.history] at hsent
        exact (M.flagged hsent).congr same.errno same.history
  | post _ sent => exact M.post F sent
  | complete _ sent cleared =>
      have M₁ := M.post F sent
      rw [cleared]
      exact ⟨M₁.signed, M₁.flagged⟩
  | turn _ turned =>
      rw [turned]
      exact ⟨M.signed, M.flagged⟩
  | @take t src ptr o pl k₁ _ anybody got recorded =>
      subst recorded
      obtain ⟨m, hp, rfl, rfl, htcb, hhist, hmail⟩ := F.taking got
      have hsender : (k.msg m).mSender ≠ none :=
        M.signed t _ (List.mem_map_of_mem (View.mem_of_pick hp))
      constructor
      · intro d e he
        change e ∈ k₁.view.mailbox d at he
        rw [hmail, View.mailbox_freeMsg F hp] at he
        split at he
        · exact M.signed d e (List.mem_of_mem_eraseP he)
        · exact M.signed d e he
      · intro hsent
        have hhist' : (k₁.record (.received t (k.msg m).mSender (k.msg m).mValue)).history =
            k.history ++ [.received t (k.msg m).mSender (k.msg m).mValue] := by
          simp [Kernel.record, hhist]
        rw [hhist'] at hsent
        have f := M.flagged fun d pl success hm => hsent d pl success (List.mem_append_left _ hm)
        refine f.append (fun u => ?_) hhist' (by simp) ?_
        · change (k₁.tcb u).errno = _
          rw [htcb]
        · intro u hm
          simp only [List.mem_singleton, Obs.received.injEq] at hm
          exact hsender hm.2.1.symm
  | @block t src ptr _ anybody got blocked =>
      subst blocked
      refine ⟨M.signed, fun hsent => ?_⟩
      refine (M.flagged hsent).congr (fun u => ?_) rfl
      by_cases hu : u = t
      · subst hu
        simp [blocking, modTcb]
      · simp [blocking, modTcb, hu]
  | chore _ c => exact M.chore F c

end Kernel.Marked

/-! ## Regular runs -/

/-- What a regular run puts down: every message has a sender, a receive without a sender gets NULL,
and a receive is aborted only if a thread is freed. -/
structure Attested (hist : List Obs) : Prop where
  signed : ∀ d pl success, .sent none d pl success ∉ hist
  empty : ∀ t pl, .received t none pl ∈ hist → pl = null
  aborted : ∀ t, .received t none null ∈ hist → ∃ u, .freed u ∈ hist

namespace Attested

variable {hist hist' : List Obs} {scope : Scope} {c c' : Config}

theorem append (h : Attested hist) (h' : Attested hist') : Attested (hist ++ hist') where
  signed d pl success hm := (List.mem_append.mp hm).elim (h.signed d pl success)
    (h'.signed d pl success)
  empty t pl hm := (List.mem_append.mp hm).elim (h.empty t pl) (h'.empty t pl)
  aborted t hm := by
    rcases List.mem_append.mp hm with hm | hm
    · obtain ⟨u, hu⟩ := h.aborted t hm
      exact ⟨u, List.mem_append_left _ hu⟩
    · obtain ⟨u, hu⟩ := h'.aborted t hm
      exact ⟨u, List.mem_append_right _ hu⟩

theorem nil : Attested [] := ⟨by simp, by simp, by simp⟩

theorem action (hc : c.Ok) (a : Action scope c c') :
    ∃ hist, c'.view.history = c.view.history ++ hist ∧ Attested hist := by
  cases a with
  | adjust | globals | manage | block | preempt | passUp | dispatch | adopt | abandon =>
      exact ⟨[], (List.append_nil _).symm, nil⟩
  | refuse => exact ⟨_, rfl, by simp, by simp, by simp⟩
  | queue => exact ⟨_, rfl, by simp, by simp, by simp⟩
  | direct => exact ⟨_, List.append_assoc _ _ _, by simp, by simp, by simp⟩
  | @receive v d src m first =>
      have hsigned : (v.msg m).mSender ≠ none := hc.inv.mail.signed (View.mem_of_pick first)
      have hnone : ∀ t pl, .received t none pl ∉ [Obs.received d (v.msg m).mSender
          (v.msg m).mValue] := by
        intro t pl hm
        simp only [List.mem_singleton, Obs.received.injEq] at hm
        exact hsigned hm.2.1.symm
      refine ⟨_, rfl, by simp, fun t pl hm => absurd hm (hnone t pl),
        fun t hm => absurd hm (hnone t null)⟩
  | create => exact ⟨[.allocated _], rfl, by simp, by simp, by simp⟩
  | @reap v b e v' allowed step =>
      obtain ⟨hist, hh, hkind, hfreed, _⟩ := View.history_of_run (Run.single step)
      refine ⟨hist, hh, fun d pl success hm => ?_, fun t pl hm => ?_, fun t hm => ?_⟩
      · rcases hkind _ hm with ⟨u, hu⟩ | ⟨u, hu⟩ <;> cases hu
      · rcases hkind _ hm with ⟨u, hu⟩ | ⟨u, hu⟩
        · exact (Obs.received.inj hu).2.2
        · cases hu
      · cases e with
        | kill u q => exact ⟨u, (hfreed u).mpr ⟨q, List.mem_singleton_self _⟩⟩
        | orphan p =>
            cases step with
            | orphan =>
                have hnil : hist = [] := List.self_eq_append_right.mp hh
                simp [hnil] at hm

theorem moves (ms : Moves scope c c') :
    ∃ hist, c'.view.history = c.view.history ++ hist ∧ Attested hist := by
  induction ms with
  | refl => exact ⟨[], (List.append_nil _).symm, nil⟩
  | tail _ m ih =>
      obtain ⟨hist, hh, h⟩ := ih
      obtain ⟨hist', hh', h'⟩ := action m.ok m.act
      exact ⟨hist ++ hist', by rw [hh', hh, List.append_assoc], h.append h'⟩

end Attested

namespace Good

variable {k k' : Kernel} {e : Event} {fuel : Nat} {t : Tcb}

/-- The receive of a survivor is aborted in a step exactly if it waits for a casualty. -/
theorem aborted_iff {hist : List Obs} (H : Good k) (hr : Regular k e)
    (h : MikaBoo.step fuel k e = .ok k') (hh : k'.history = k.history ++ hist)
    (ht : t ∉ k.casualties e) :
    .received t none null ∈ hist ↔ ∃ s ∈ k.casualties e,
      (k.tcb t).tStatus = .w4msg ∧ (k.tcb t).tWait4sender = some s := by
  by_cases hv : k.casualties e = []
  · refine iff_of_false (fun hm => ?_) (by simp [hv])
    obtain ⟨hist', hh', hatt⟩ := Attested.moves (H.step hr h).2
    obtain rfl : hist' = hist := List.append_cancel_left (hh'.symm.trans hh)
    obtain ⟨u, hu⟩ := hatt.aborted t hm
    have hinc := congrFun (H.unreaped hv h).1 u
    rw [Kernel.incarnation, Kernel.incarnation, hh, List.count_append] at hinc
    have hpos := List.count_pos_iff.mpr hu
    omega
  · obtain ⟨_, _, _, _, hreaped⟩ := H.reaped hr hv h
    obtain ⟨es, hes, run⟩ := hreaped.run
    obtain ⟨hist', hh', _, _, hheard⟩ := View.history_of_run run
    obtain rfl : hist' = hist := List.append_cancel_left (hh'.symm.trans hh)
    have hspared : ∀ q, .kill t q ∉ es := fun q hq =>
      ht (hes ▸ List.mem_filterMap.mpr ⟨_, hq, rfl⟩)
    rw [(hheard t hspared).1, ← hes]
    constructor
    · rintro ⟨s, q, hs, hm⟩
      exact ⟨s, List.mem_filterMap.mpr ⟨_, hs, rfl⟩, H.inv.scheduled.mem_waiting.mp hm⟩
    · rintro ⟨s, hs, hwait⟩
      obtain ⟨r, hr, hrs⟩ := List.mem_filterMap.mp hs
      obtain ⟨q, rfl⟩ := View.victim?_eq_some.mp hrs
      exact ⟨s, q, hr, H.inv.scheduled.mem_waiting.mpr hwait⟩

/-- A step aborts at most one receive of a survivor. -/
theorem aborted_once {hist : List Obs} (H : Good k) (hr : Regular k e)
    (h : MikaBoo.step fuel k e = .ok k') (hh : k'.history = k.history ++ hist)
    (ht : t ∉ k.casualties e) : hist.count (.received t none null) ≤ 1 := by
  by_cases hm : .received t none null ∈ hist
  · obtain ⟨s, hs, _⟩ := (H.aborted_iff hr h hh ht).mp hm
    obtain ⟨_, _, _, _, hreaped⟩ := H.reaped hr (List.ne_nil_of_mem hs) h
    obtain ⟨es, hes, run⟩ := hreaped.run
    obtain ⟨hist', hh', _, _, hheard⟩ := View.history_of_run run
    obtain rfl : hist' = hist := List.append_cancel_left (hh'.symm.trans hh)
    exact (hheard t fun q hq => ht (hes ▸ List.mem_filterMap.mpr ⟨_, hq, rfl⟩)).2
  · simp [List.count_eq_zero_of_not_mem hm]

/-- A step puts nothing about the end of a thread that it spares. -/
theorem spared_history (H : Good k) (hr : Regular k e) (h : MikaBoo.step fuel k e = .ok k')
    (ht : t ∉ k.casualties e) : ∃ hist, k'.history = k.history ++ hist ∧ .freed t ∉ hist := by
  by_cases hv : k.casualties e = []
  · obtain ⟨hist, hh, _⟩ := Attested.moves (H.step hr h).2
    refine ⟨hist, hh, fun hm => ?_⟩
    have hinc := congrFun (H.unreaped hv h).1 t
    have hh : k'.history = k.history ++ hist := hh
    rw [Kernel.incarnation, Kernel.incarnation, hh, List.count_append] at hinc
    have hpos := List.count_pos_iff.mpr hm
    omega
  · obtain ⟨hist, hh, _, hfreed⟩ := H.history_of_casualties hr hv h
    exact ⟨hist, hh, fun hm => ht ((hfreed t).mp hm)⟩

end Good

theorem Kernel.Marked.boot {hw : Hardware} {k : Kernel} (hb : MikaBoo.boot hw = .ok k) :
    k.Marked := by
  obtain ⟨k', hk', R⟩ := boot_ok hw
  obtain rfl := Except.ok.inj (hb.symm.trans hk')
  have hhist : k.history = [.allocated (.thread 0)] := R.history.symm
  constructor
  · intro d e he
    have hmail : k.view.mailbox d = [] := by
      rw [← R.eq_view]
      rfl
    rw [hmail] at he
    cases he
  · intro _ t
    have herrno : (k.tcb t).errno = 0 := by
      rw [← R.tcb]
      cases t with
      | ssi => rfl
      | thread i =>
          by_cases hi : i = 0
          · subst hi
            rfl
          · simp [bootedView, View.create, View.addCount, View.enqueue, View.modTcb, View.hire,
              bootView, hi]
    rw [herrno, hhist, if_neg]
    simp [present, List.rtakeWhile]

/-- Every message sent in a regular run has a sender. -/
theorem signed_of_regular {hw : Hardware} {k₀ k : Kernel} {es : List Event}
    (hb : boot hw = .ok k₀) (run : Run RegularStep k₀ es k) :
    ∀ d pl success, .sent none d pl success ∉ k.history := by
  induction run with
  | nil =>
      obtain ⟨k', hk', R⟩ := boot_ok hw
      obtain rfl := Except.ok.inj (hb.symm.trans hk')
      have hhist : k₀.history = [.allocated (.thread 0)] := R.history.symm
      simp [hhist]
  | @snoc k k' es e run last ih =>
      obtain ⟨hr, _, h⟩ := last
      obtain ⟨hist, hh, hatt⟩ := Attested.moves (((Good.boot hb).run run).step hr h).2
      have hh : k'.history = k.history ++ hist := hh
      intro d pl success hm
      rw [hh] at hm
      exact (List.mem_append.mp hm).elim (ih d pl success) (hatt.signed d pl success)

theorem Kernel.Flagged.of_regular {hw : Hardware} {k₀ k : Kernel} {es : List Event}
    (hb : boot hw = .ok k₀) (run : Run RegularStep k₀ es k) : k.Flagged := by
  have M₀ : k₀.Marked := .boot hb
  have M : k.Marked := Motions.run (fun F M m => M.motion F m) hb M₀ (forget_guard run)
  exact M.flagged (signed_of_regular hb run)

/-- In a regular run `errno` of a thread is 1 if a receive of it has been aborted since the thread
was created, and 0 otherwise. A step aborts the receives from the threads that it terminates, and
resets no error code of a thread that it spares. -/
theorem errno_of_aborts {hw : Hardware} {k₀ k : Kernel} {es : List Event}
    (hb : boot hw = .ok k₀) (run : Run RegularStep k₀ es k) :
    (∀ t, (k.tcb t).errno = if .received t none null ∈ present k.history t t then 1 else 0) ∧
    ∀ e k', RegularStep k e k' → ∀ t, t ∉ k.casualties e →
      (k'.tcb t).errno = if ∃ s ∈ k.casualties e,
        (k.tcb t).tStatus = .w4msg ∧ (k.tcb t).tWait4sender = some s then 1 else (k.tcb t).errno := by
  refine ⟨Kernel.Flagged.of_regular hb run, fun e k' last t ht => ?_⟩
  have H : Good k := (Good.boot hb).run run
  have f : k.Flagged := .of_regular hb run
  have f' : k'.Flagged := .of_regular hb (run.snoc last)
  obtain ⟨hr, _, h⟩ := last
  obtain ⟨hist, hh, hfreed⟩ := H.spared_history hr h ht
  have hne : ∀ u, u = t ∨ u = t → (.freed u : Obs) ∉ hist := by
    rintro u (rfl | rfl) <;> exact hfreed
  have haborted := H.aborted_iff hr h hh ht
  rw [f' t, f t, hh, present_append hne]
  by_cases ha : .received t none null ∈ hist
  · rw [if_pos (List.mem_append_right _ ha), if_pos (haborted.mp ha)]
  · rw [if_neg (mt haborted.mpr ha)]
    simp only [List.mem_append, ha, or_false]

/-- The second thread asks for its termination while the first one waits for it. -/
theorem errno_of_aborts_sample : ∃ k₀ k k' : Kernel, ∃ es : List Event,
    boot Sample.hardware = .ok k₀ ∧ Run RegularStep k₀ es k ∧ RegularStep k .ssi k' ∧
    .received (.thread 0) none null ∉ present k.history (.thread 0) (.thread 0) ∧
    (k.tcb (.thread 0)).errno = 0 ∧ (k'.tcb (.thread 0)).errno = 1 := by
  let check : Kernel → Prop := fun k => .thread 0 ∉ k.casualties .ssi ∧
    .thread 1 ∈ k.casualties .ssi ∧ (k.tcb (.thread 0)).tStatus = .w4msg ∧
    (k.tcb (.thread 0)).tWait4sender = some (.thread 1) ∧
    .received (.thread 0) none null ∉ present k.history (.thread 0) (.thread 0) ∧
    Regular k .ssi ∧ (step 100 k .ssi).toOption.isSome
  have h : (execute Regular Sample.hardware 100 Sample.mourn.dropLast.dropLast).any check = true := by
    decide +kernel
  obtain ⟨k, hk, hprops⟩ := Option.any_eq_true _ _ |>.mp h
  obtain ⟨k₀, hb, run⟩ := run_of_execute hk
  obtain ⟨ht, hs, hblocked, hwait, hpresent, hr, hstep⟩ := of_decide_eq_true hprops
  obtain ⟨k', hk'⟩ := Option.isSome_iff_exists.mp hstep
  have last : RegularStep k .ssi k' := ⟨hr, 100, exec_eq_ok hk'⟩
  obtain ⟨hold, hnew⟩ := errno_of_aborts hb run
  refine ⟨k₀, k, k', _, hb, run, last, hpresent, ?_, ?_⟩
  · rw [hold, if_neg hpresent]
  · rw [hnew .ssi k' last (.thread 0) ht, if_pos ⟨.thread 1, hs, hblocked, hwait⟩]

end MikaBoo
