import MikaBoo.Abstract.Motions

/-!
# Who calls `send`

Only the running thread sends, and the SSI for it when a request is complete. A handler
that passes the running thread up sends its manager one message.
-/

namespace MikaBoo

open Fuel Transition

/-- The messages of the calls of `send` from `s` to `d`, and whether they got through. -/
def posts (hist : List Obs) (s d : Tcb) : List (Value × Bool) :=
  hist.filterMap fun
    | .sent s' d' pl success => if s' = some s ∧ d' = d then some (pl, success) else none
    | _ => none

@[simp] theorem posts_append (h h' : List Obs) (s d : Tcb) :
    posts (h ++ h') s d = posts h s d ++ posts h' s d := List.filterMap_append

theorem posts_of_mail {k k' : Kernel} (h : k'.mail = k.mail) (s d : Tcb) :
    posts k'.history s d = posts k.history s d := by
  have hmail : ∀ hist, posts hist s d = posts (hist.filter Obs.isMail) s d := by
    intro hist
    rw [posts, posts, List.filterMap_filter]
    refine List.filterMap_congr fun o _ => ?_
    cases o with
    | received _ s' _ => cases s' <;> simp [Obs.isMail]
    | _ => simp [Obs.isMail]
  rw [hmail, hmail k.history]
  exact congrArg (posts · s d) h

/-- From `k` to `k'` the thread `s` calls `send` once, for `d`, and no other thread does. -/
def Posts (s d : Tcb) (pl : Value) (k k' : Kernel) : Prop :=
  ∀ a b, posts k'.history a b =
    posts k.history a b ++ if a = s ∧ b = d then [(pl, decide (k.Reaches s d))] else []

/-- A call of `send` is put down after what it does. -/
theorem last_of_send {k k' : Kernel} {d : Tcb} {s : Option Tcb} {pl : Value} {w : Word}
    (h : send k d s pl = .ok (w, k')) : ∃ r, k'.history.getLast? = some (.sent s d pl r) := by
  obtain ⟨⟨r, k₁⟩, _, h⟩ := bind_eq_ok.mp h
  cases h
  exact ⟨_, List.getLast?_concat⟩

section operations

variable {k k' : Kernel} {s d t m : Tcb} {pl : Value} {w : Word} {fuel : Nat} {x : Exit}

theorem Kernel.Filed.send_posts (F : k.Filed) (h : MikaBoo.send k d (some s) pl = .ok (w, k')) :
    Posts s d pl k k' := by
  obtain ⟨w', k₁, hk₁, P⟩ := F.send s d pl
  obtain ⟨rfl, rfl⟩ := Prod.mk.inj (Except.ok.inj (hk₁.symm.trans h))
  intro a b
  have hnew : ∀ success, posts [.sent (some s) d pl success] a b =
      if a = s ∧ b = d then [(pl, success)] else [] := by
    intro success
    by_cases hab : a = s ∧ b = d
    · obtain ⟨rfl, rfl⟩ := hab
      simp [posts]
    · have hsd : ¬ (s = a ∧ d = b) := fun h => hab ⟨h.1.symm, h.2.symm⟩
      simp [posts, hab, hsd]
  cases P with
  | direct awaits =>
      have hreach : k.Reaches s d := Or.inl awaits
      obtain ⟨hhist, _⟩ := resumeThread_mail k d (some s) pl
      rw [Kernel.record, hhist, posts_append, posts_append, hnew]
      simp [hreach, posts]
  | queued _ alive room mailbox rest =>
      have hreach : k.Reaches s d := Or.inr ⟨alive, room⟩
      rw [rest, posts_append, hnew]
      simp [hreach]
  | failed unreached =>
      rw [Kernel.record, posts_append, hnew]
      simp [unreached]

/-- Sends in somebody else's name, receives and services are no sends of `s`. -/
theorem Motion.posts {r : Option Tcb} (F : k.Filed) (hr : r ≠ some s) (hssi : s ≠ .ssi)
    (M : Motion r k k') (d : Tcb) : posts k'.history s d = posts k.history s d := by
  have hsent : ∀ {o : Option Tcb} {d' pl w k₁}, o ≠ some s → send k d' o pl = .ok (w, k₁) →
      MikaBoo.posts k₁.history s d = MikaBoo.posts k.history s d := by
    intro o d' pl w k₁ ho h
    cases F.delivery h with
    | direct _ _ resumed =>
        obtain ⟨hhist, _⟩ := resumeThread_mail k d' o pl
        rw [resumed, Kernel.record, hhist]
        simp [MikaBoo.posts, ho]
    | queued a signed _ _ rest =>
        rw [rest]
        simp [MikaBoo.posts, ← signed, ho]
    | failed lost =>
        rw [lost]
        simp [MikaBoo.posts, Kernel.record, ho]
  cases M with
  | still same => rw [same.history]
  | post signed sent => exact hsent (signed ▸ hr) sent
  | complete _ sent cleared =>
      rw [cleared]
      have hforeign : some Tcb.ssi ≠ some s := fun h => hssi (Option.some.inj h).symm
      have h := hsent hforeign sent
      exact h
  | turn _ turned => rw [turned]
  | take _ _ got recorded =>
      obtain ⟨_, _, _, _, _, hhist, _⟩ := F.taking got
      rw [recorded, Kernel.record, hhist]
      simp [MikaBoo.posts]
  | block _ _ _ blocked => rw [blocked]; rfl
  | chore _ c => exact posts_of_mail (Quiet.chore c).mail s d

/-- Only the running thread sends, and the SSI. -/
theorem step_posts {e : Event} (F : k.Filed) (hr : k.currentThread ≠ some s) (hssi : s ≠ .ssi)
    (h : step fuel k e = .ok k') (d : Tcb) : posts k'.history s d = posts k.history s d :=
  (Motions.step h).keeps (P := fun k' => posts k'.history s d = posts k.history s d)
    (fun F hk M => (M.posts F hr hssi d).trans hk) F rfl

/-! ## Passing up -/

theorem Posts.of_head {k₁ : Kernel} (h : Posts s d pl k₁ k') (hhist : k₁.history = k.history)
    (hreach : k₁.Reaches s d ↔ k.Reaches s d) : Posts s d pl k k' := by
  intro a b
  rw [h a b, hhist, decide_eq_decide.mpr hreach]

theorem Kernel.Filed.msgsend_posts {caller : State} (F : k.Filed) (hc : k.currentThread = some t)
    (h : MikaBoo.msgsend k caller d pl = .ok k') : Posts t d pl k k' := by
  obtain ⟨⟨w, k₁⟩, hk₁, h⟩ := bind_eq_ok.mp h
  cases h
  let k₀ : Kernel := { k.enter with
    sysbkOldarea := { caller with a1 := SYS_SEND, a2 := .tcb d, a3 := pl, a4 := null } }
  have F₀ : k₀.Filed := F.congr rfl
  have hsend : MikaBoo.send k₀ d (some t) pl = .ok (w, k₁) := by
    rw [← hc]
    exact hk₁
  have P : Posts t d pl k₀ k₁ := F₀.send_posts hsend
  exact P

/-- Saving a context changes nothing for a sender. -/
theorem Kernel.Reaches.modTcb_iff (k : Kernel) (u : Tcb) (f : TcbT → TcbT)
    (hstatus : (f (k.tcb u)).tStatus = (k.tcb u).tStatus)
    (hwait : (f (k.tcb u)).tWait4sender = (k.tcb u).tWait4sender) :
    (k.modTcb u f).Reaches s d ↔ k.Reaches s d := by
  have hs := congrFun (Frame.modTcb_field k u f TcbT.tStatus hstatus) d
  have hw := congrFun (Frame.modTcb_field k u f TcbT.tWait4sender hwait) d
  unfold Kernel.Reaches TcbT.Awaits
  rw [hs, hw]
  rfl

theorem Kernel.Filed.rawTrapH_posts {old : State} (F : k.Filed) (hc : k.currentThread = some t)
    (h : rawTrapH fuel k (some m) old = .ok (x, k')) : Posts t m (.tS t) k k' := by
  simp only [rawTrapH, hc] at h
  obtain ⟨k₁, hk₁, h⟩ := bind_eq_ok.mp h
  cases h
  have F₀ : (k.modTcb t fun d => { d with tS := old.stepBack }).Filed := F.congr rfl
  have P : Posts t m (.tS t) _ k₁ := F₀.msgsend_posts hc hk₁
  exact P.of_head rfl (Kernel.Reaches.modTcb_iff k t _ rfl rfl)

theorem Kernel.Filed.pgmtrapH_posts (F : k.Filed) (hc : k.currentThread = some t)
    (hm : k.managers.pgmMgr = some m) (h : pgmtrapH fuel k = .ok (x, k')) :
    Posts t m (.tS t) k k' := by
  obtain ⟨p, hp, h⟩ := bind_eq_ok.mp h
  rw [currentProcess_ok hp] at hm
  rw [hm] at h
  exact F.rawTrapH_posts hc h

theorem Kernel.Filed.tlbtrapH_posts (F : k.Filed) (hc : k.currentThread = some t)
    (hm : k.managers.tlbMgr = some m) (h : tlbtrapH fuel k = .ok (x, k')) :
    Posts t m (.tS t) k k' := by
  obtain ⟨p, hp, h⟩ := bind_eq_ok.mp h
  rw [currentProcess_ok hp] at hm
  rw [hm] at h
  exact F.rawTrapH_posts hc h

theorem Kernel.Filed.raise_posts (F : k.Filed) (hc : k.currentThread = some t)
    (hm : k.managers.pgmMgr = some m) (h : raiseReservedInstruction fuel k = .ok (x, k')) :
    Posts t m (.tS t) k k' := by
  let k₁ : Kernel := { k with
    pgmtrapOldarea := { k.sysbkOldarea with cp15Cause := EXC_RESERVEDINSTR } }
  have F₁ : k₁.Filed := F.congr rfl
  have P : Posts t m (.tS t) k₁ k' := F₁.pgmtrapH_posts hc hm h
  exact P

theorem Kernel.Filed.syscallOther_posts {a1 a2 a3 a4 : Value} (F : k.Filed)
    (hc : k.currentThread = some t) (hm : k.managers.sysMgr.or k.managers.pgmMgr = some m)
    (h : syscallOther fuel k a1 a2 a3 a4 = .ok (x, k')) : ∃ pl, Posts t m pl k k' := by
  simp only [syscallOther, hc] at h
  obtain ⟨p, hp, h⟩ := bind_eq_ok.mp h
  rw [currentProcess_ok hp] at hm
  cases hsys : (k.pcb p).sysMgr with
  | some m' =>
      obtain rfl : m' = m := by simpa [hsys] using hm
      simp only [hsys] at h
      obtain ⟨⟨w, k₂⟩, hk₂, h⟩ := bind_eq_ok.mp h
      cases h
      let k₁ : Kernel := (k.modTcb t fun d => { d with tS := k.sysbkOldarea }).writeSysMsg
        [a1, a2, a3, a4]
      have F₁ : k₁.Filed := F.congr rfl
      have P : Posts t m' .sysMsg k₁ k₂ := F₁.send_posts hk₂
      have hreach : k₁.Reaches t m' ↔ k.Reaches t m' :=
        Kernel.Reaches.modTcb_iff k t (fun d => { d with tS := k.sysbkOldarea }) rfl rfl
      exact ⟨_, P.of_head rfl hreach⟩
  | none =>
      have hpgm : (k.pcb p).pgmMgr = some m := by simpa [hsys] using hm
      simp only [hsys, hpgm] at h
      obtain ⟨⟨w, k₂⟩, hk₂, h⟩ := bind_eq_ok.mp h
      cases h
      have F₁ : (k.modTcb t fun d => { d with tS := k.sysbkOldarea.stepBack }).Filed := F.congr rfl
      have P : Posts t m (.tS t) _ k₂ := F₁.send_posts hk₂
      exact ⟨_, P.of_head rfl (Kernel.Reaches.modTcb_iff k t _ rfl rfl)⟩

/-- A system call with a manager raises a trap for `pgm_mgr`, or is one for `syscall_other`. -/
theorem syscallH_of_manager (hm : syscallManager k = some m) (fuel : Nat) :
    (k.managers.pgmMgr = some m ∧ syscallH fuel k = raiseReservedInstruction fuel k) ∨
    (k.managers.sysMgr.or k.managers.pgmMgr = some m ∧ syscallH fuel k =
      syscallOther fuel k k.sysbkOldarea.a1 k.sysbkOldarea.a2 k.sysbkOldarea.a3
        k.sysbkOldarea.a4) := by
  unfold syscallManager at hm
  by_cases h₀ : k.sysbkOldarea.a1 = null
  · rw [if_pos h₀] at hm
    exact Or.inl ⟨hm, if_pos h₀⟩
  rw [if_neg h₀] at hm
  have h₀' : syscallH fuel k = _ := if_neg h₀
  rw [h₀']
  by_cases hcall : k.sysbkOldarea.a1 = SYS_SEND ∨ k.sysbkOldarea.a1 = SYS_RECV
  · rw [if_pos hcall] at hm
    cases hk : isKernelMode k with
    | true => simp [hk] at hm
    | false =>
        have hpgm : k.managers.pgmMgr = some m := by simpa [hk] using hm
        refine Or.inl ⟨hpgm, ?_⟩
        rcases hcall with h₁ | h₂
        · rw [if_pos h₁, sendKernel, if_neg (by simp [hk])]
        · rw [if_neg (by simp [h₂]), if_pos h₂, recvKernel, if_neg (by simp [hk])]
  · rw [if_neg hcall] at hm
    rw [not_or] at hcall
    exact Or.inr ⟨hm, by rw [if_neg hcall.1, if_neg hcall.2]⟩

theorem Kernel.Filed.syscallH_posts (F : k.Filed) (hc : k.currentThread = some t)
    (hm : syscallManager k = some m) (h : syscallH fuel k = .ok (x, k')) :
    ∃ pl, Posts t m pl k k' := by
  rcases syscallH_of_manager hm fuel with ⟨hpgm, hcall⟩ | ⟨hsys, hcall⟩
  · rw [hcall] at h
    exact ⟨_, F.raise_posts hc hpgm h⟩
  · rw [hcall] at h
    exact F.syscallOther_posts hc hsys h

/-- A step that passes `t` up to `m` sends `m` one message. -/
theorem step_posts_once {e : Event} (F : k.Filed) (hc : k.currentThread = some t)
    (hm : passesUpTo k e = some m) (h : step fuel k e = .ok k') : ∃ pl, Posts t m pl k k' := by
  obtain ⟨⟨x, k₁⟩, hk₁, h⟩ := bind_eq_ok.mp h
  have hhist : k'.history = k₁.history := (leave_mail h).1
  suffices hP : ∃ pl, Posts t m pl k k₁ by
    obtain ⟨pl, P⟩ := hP
    exact ⟨pl, fun a b => hhist ▸ P a b⟩
  cases e with
  | syscall =>
      simp only [entry] at hk₁
      split at hk₁
      · let k₀ : Kernel := { k.enter with sysbkOldarea := k.cpu }
        have F₀ : k₀.Filed := F.congr rfl
        obtain ⟨pl, P⟩ : ∃ pl, Posts t m pl k₀ k₁ := F₀.syscallH_posts hc hm hk₁
        exact ⟨pl, P⟩
      · cases hk₁
  | pgmtrap cause =>
      simp only [entry] at hk₁
      split at hk₁
      · let k₀ : Kernel := { k.enter with pgmtrapOldarea := { k.cpu with cp15Cause := cause } }
        have F₀ : k₀.Filed := F.congr rfl
        have P : Posts t m (.tS t) k₀ k₁ := F₀.pgmtrapH_posts hc hm hk₁
        exact ⟨_, P⟩
      · cases hk₁
  | tlbtrap cause =>
      simp only [entry] at hk₁
      split at hk₁
      · let k₀ : Kernel := { k.enter with tlbOldarea := { k.cpu with cp15Cause := cause } }
        have F₀ : k₀.Filed := F.congr rfl
        have P : Posts t m (.tS t) k₀ k₁ := F₀.tlbtrapH_posts hc hm hk₁
        exact ⟨_, P⟩
      · cases hk₁
  | _ => cases hm

end operations

end MikaBoo
