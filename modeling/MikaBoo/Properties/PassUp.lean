import MikaBoo.Abstract.Casualties
import MikaBoo.Abstract.Lifecycle
import MikaBoo.Abstract.Posts
import MikaBoo.Abstract.Provenance

/-!
# Threads that are passed up

A pass-up blocks the thread by hand and leaves its status `T_STATUS_READY`, so
`send` queues the manager's answer and nobody wakes the thread.
-/

namespace MikaBoo

open Fuel Transition

/-- A passed-up thread stays so until it is freed. -/
theorem Lifecycle.of_passedUp {scope : Scope} {s' : Standing} (h : Lifecycle scope .passedUp s') :
    s' = .passedUp ∨ (scope = .terminate ∧ s' = .free) := by
  cases h with
  | stay => exact Or.inl rfl
  | terminate allowed => exact Or.inr ⟨allowed, rfl⟩

/-! ## The step that passes a thread up -/

section pass

variable {k k' : Kernel} {c : Config} {t m : Tcb} {fuel : Nat} {x : Exit} {e : Event}

theorem pgmtrapH_pass (G : Goes .passUp c k (some t)) (hc : k.currentThread = some t)
    (hu : t ≠ .ssi) (hm : k.managers.pgmMgr = some m) (h : pgmtrapH fuel k = .ok (x, k')) :
    Goes.PassedUp c k t x k' := by
  obtain ⟨p, hp, h⟩ := bind_eq_ok.mp h
  rw [currentProcess_ok hp] at hm
  rw [hm] at h
  exact Goes.rawTrapH_pass G hc hu h

theorem tlbtrapH_pass (G : Goes .passUp c k (some t)) (hc : k.currentThread = some t)
    (hu : t ≠ .ssi) (hm : k.managers.tlbMgr = some m) (h : tlbtrapH fuel k = .ok (x, k')) :
    Goes.PassedUp c k t x k' := by
  obtain ⟨p, hp, h⟩ := bind_eq_ok.mp h
  rw [currentProcess_ok hp] at hm
  rw [hm] at h
  exact Goes.rawTrapH_pass G hc hu h

theorem raiseReservedInstruction_pass (G : Goes .passUp c k (some t))
    (hc : k.currentThread = some t) (hu : t ≠ .ssi) (hm : k.managers.pgmMgr = some m)
    (h : raiseReservedInstruction fuel k = .ok (x, k')) : Goes.PassedUp c k t x k' := by
  let k₁ : Kernel := { k with
    pgmtrapOldarea := { k.sysbkOldarea with cp15Cause := EXC_RESERVEDINSTR } }
  have G₁ : Goes .passUp c k₁ (some t) := G.same { G.refines with }
  exact pgmtrapH_pass (k := k₁) G₁ hc hu hm h

theorem syscallH_pass (G : Goes .passUp c k (some t)) (hc : k.currentThread = some t)
    (hu : t ≠ .ssi) (hm : syscallManager k = some m) (h : syscallH fuel k = .ok (x, k')) :
    Goes.PassedUp c k t x k' := by
  rcases syscallH_of_manager hm fuel with ⟨hpgm, hcall⟩ | ⟨hsys, hcall⟩
  · rw [hcall] at h
    exact raiseReservedInstruction_pass G hc hu hpgm h
  · rw [hcall] at h
    exact Goes.syscallOther_pass G hc hu hsys h

/-- A thread that is passed up is ready, by its status, and linked in `blockedq`. -/
theorem Goes.PassedUp.stands (P : Goes.PassedUp c k t x k') (hu : t ≠ .ssi) :
    Goes .passUp c k' none ∧ k'.view.Stands none t .passedUp := by
  obtain ⟨_, k₂, rfl, G, _⟩ := P
  have hoff : ∀ q, t ∉ k₂.view.sched q := fun _ hm => G.inv.scheduled.off hm rfl
  have hview := (G.refines.enqueue hoff .blockedq).eq_view
  have G₁ := G.passUp hu
  have hmem : t ∈ (threadEnqueue k₂ t .blockedq).view.sched .blockedq := by
    rw [← hview]
    exact View.mem_enqueue.mpr (Or.inr ⟨rfl, rfl⟩)
  obtain ⟨s, hs⟩ := G₁.inv.stands G₁.ok.real t
  obtain rfl := hs.of_queue .passedUp G₁.ok.real hmem rfl G.ready
  exact ⟨G₁, hs⟩

/-- The event passes the running thread up. -/
theorem entry_pass (H : Good k) (ht : k.currentThread = some t) (hm : passesUpTo k e = some m)
    (h : entry fuel k e = .ok (x, k')) :
    t ≠ .ssi ∧ Goes.PassedUp ⟨k.view, some t⟩ k t x k' := by
  have G : Goes .passUp ⟨k.view, some t⟩ k (some t) := by
    rw [← ht]
    exact H.goes
  have huser : k.userRuns = true → t ≠ .ssi := by
    rintro hu rfl
    obtain ⟨i, hi⟩ := Good.user_of_userRuns hu
    rw [ht] at hi
    cases hi
  cases e with
  | syscall =>
      simp only [entry] at h
      split at h
      · rename_i hu
        have hu := huser hu
        let k₁ : Kernel := { k.enter with sysbkOldarea := k.cpu }
        have G₁ : Goes .passUp ⟨k.view, some t⟩ k₁ (some t) := G.same { G.refines with }
        exact ⟨hu, syscallH_pass (k := k₁) G₁ ht hu hm h⟩
      · cases h
  | pgmtrap cause =>
      simp only [entry] at h
      split at h
      · rename_i hu
        have hu := huser hu
        let k₁ : Kernel := { k.enter with pgmtrapOldarea := { k.cpu with cp15Cause := cause } }
        have G₁ : Goes .passUp ⟨k.view, some t⟩ k₁ (some t) := G.same { G.refines with }
        exact ⟨hu, pgmtrapH_pass (k := k₁) G₁ ht hu hm h⟩
      · cases h
  | tlbtrap cause =>
      simp only [entry] at h
      split at h
      · rename_i hu
        have hu := huser hu
        let k₁ : Kernel := { k.enter with tlbOldarea := { k.cpu with cp15Cause := cause } }
        have G₁ : Goes .passUp ⟨k.view, some t⟩ k₁ (some t) := G.same { G.refines with }
        exact ⟨hu, tlbtrapH_pass (k := k₁) G₁ ht hu hm h⟩
      · cases h
  | _ => cases hm

/-- After the step the thread is ready, by its status, and linked in `blockedq`. -/
theorem step_pass (H : Good k) (ht : k.currentThread = some t) (hm : passesUpTo k e = some m)
    (h : step fuel k e = .ok k') : k'.view.Stands k'.currentThread t .passedUp := by
  obtain ⟨⟨x, k₁⟩, hk₁, h⟩ := bind_eq_ok.mp h
  obtain ⟨hssi, P⟩ := entry_pass H ht hm hk₁
  obtain ⟨G₁, hs⟩ := P.stands hssi
  obtain rfl := P.1
  -- the scheduler starts another thread
  have G₂ : Goes .plain _ k₁ none := .start G₁.refines G₁.ok
  obtain ⟨G₃, _⟩ := G₂.scheduler h
  obtain ⟨s', rfl, hs'⟩ := Moves.lifecycle (P := (· = .passedUp)) (fun s s' hl he => by
    subst he
    exact hl.of_passedUp.resolve_right nofun) G₃.moves hs rfl
  exact hs'

end pass

/-! ## Afterwards -/

/-- A step of a regular run, from a state in which `t` is allocated. -/
abbrev LiveStep (t : Tcb) : Kernel → Event → Kernel → Prop :=
  GuardedStep fun k e => Regular k e ∧ k.Live t

theorem live_of_run {k k' : Kernel} {es : List Event} {t : Tcb} (run : Run (LiveStep t) k es k')
    (ht : k'.Live t) : k.Live t := by
  induction run with
  | nil => exact ht
  | snoc _ last ih => exact ih last.1.2

/-- The thread `t` received nothing between the two views. -/
def Deaf (t : Tcb) (v v' : View) : Prop :=
  ∃ hist, v'.history = v.history ++ hist ∧ ∀ s pl, .received t s pl ∉ hist

namespace Deaf

variable {t : Tcb} {v v₁ v' : View}

theorem of_same (h : v'.history = v.history) : Deaf t v v' := ⟨[], by simp [h], by simp⟩

theorem trans (h₁ : Deaf t v v₁) (h₂ : Deaf t v₁ v') : Deaf t v v' := by
  obtain ⟨hist₁, hh₁, hn₁⟩ := h₁
  obtain ⟨hist₂, hh₂, hn₂⟩ := h₂
  refine ⟨hist₁ ++ hist₂, by rw [hh₂, hh₁, List.append_assoc], fun s pl hm => ?_⟩
  exact (List.mem_append.mp hm).elim (hn₁ s pl) (hn₂ s pl)

end Deaf

/-- A passed-up thread is neither running nor waiting, so no action gives it a message. -/
theorem Action.deaf {scope : Scope} {c c' : Config} {t : Tcb} (hc : c.Ok) (a : Action scope c c')
    (hs : c.view.Stands c.on t .passedUp) : Deaf t c.view c'.view := by
  have hqueue : ∀ h, t ∈ c.view.sched h → h = .blockedq := by
    intro h hm
    exact (Option.some.inj ((hs.mem_iff hc.real h).mp hm)).symm
  cases a with
  | adjust | globals | manage | block | preempt | passUp | dispatch | adopt | abandon =>
      exact .of_same rfl
  | refuse => exact ⟨_, rfl, by simp⟩
  | queue => exact ⟨_, rfl, by simp⟩
  | create => exact ⟨_, rfl, by simp⟩
  | @direct v r s d pl h sender queued waits =>
      have hd : t ≠ d := by
        rintro rfl
        have := hs.status.symm.trans waits
        cases this
      exact ⟨_, List.append_assoc _ _ _, by simp [hd]⟩
  | @receive v d src m first =>
      have hd : t ≠ d := by
        rintro rfl
        exact hc.inv.scheduled.off ((hs.mem_iff hc.real .blockedq).mpr rfl) rfl
      exact ⟨_, rfl, by simp [hd]⟩
  | reap _ step =>
      cases step with
      | orphan => exact .of_same rfl
      | @kill u p h hr member queued =>
          have hw : t ∉ View.sched _ (.tWait4me u) := fun hm => by cases hqueue _ hm
          refine ⟨_, List.append_assoc _ _ _, fun s pl hm => ?_⟩
          rcases List.mem_append.mp hm with hm | hm
          · obtain ⟨w, hw', he⟩ := List.mem_map.mp hm
            cases he
            exact hw hw'
          · rw [List.mem_singleton] at hm
            cases hm

/-- A kernel entry leaves a passed-up thread passed up and gives it no message,
unless it frees it. -/
theorem Moves.stuck {scope : Scope} {c c' : Config} {t : Tcb} (ms : Moves scope c c')
    (hs : c.view.Stands c.on t .passedUp) (hc : c'.Ok) (ht : t ∉ c'.view.threads .free) :
    c'.view.Stands c'.on t .passedUp ∧ Deaf t c.view c'.view := by
  induction ms with
  | refl => exact ⟨hs, .of_same rfl⟩
  | @tail c₁ c' ms m ih =>
      obtain ⟨s₁, hP, hs₁⟩ := Moves.lifecycle
        (P := fun s => s = .passedUp ∨ (scope = .terminate ∧ s = .free)) (fun s s' hl hP => by
          rcases hP with rfl | ⟨hscope, rfl⟩
          · exact hl.of_passedUp
          · cases hl with
            | create allowed => simp [hscope] at allowed
            | _ => exact Or.inr ⟨hscope, rfl⟩) ms hs (Or.inl rfl)
      have ht₁ : t ∉ c₁.view.threads .free := by
        intro hfree
        have hs₁' := hs₁.status
        have hn := m.ok.inv.owned.status.mpr (m.ok.inv.owned.free.mp hfree)
        rcases hP with rfl | ⟨hscope, _⟩
        · rw [hn] at hs₁'
          cases hs₁'
        · exact ht (m.act.free m.ok (by simp [hscope]) hfree)
      obtain ⟨hs₁, hdeaf⟩ := ih m.ok ht₁
      obtain ⟨s', hl, hs'⟩ := m.act.lifecycle m.ok m.real hs₁
      rcases hl.of_passedUp with rfl | ⟨_, rfl⟩
      · exact ⟨hs', hdeaf.trans (m.act.deaf m.ok hs₁)⟩
      · have hne : t ≠ .ssi := by
          rintro rfl
          have := hs'.status
          exact (hc.inv.owned.status.mp this).1 rfl
        exact absurd (hc.inv.owned.free.mpr (hc.inv.owned.status.mp hs'.status)) ht

theorem stuck_run {k k' : Kernel} {es : List Event} {t : Tcb} (H : Good k)
    (hs : k.view.Stands k.currentThread t .passedUp)
    (run : Run (LiveStep t) k es k') (ht : k'.Live t) :
    Good k' ∧ k'.view.Stands k'.currentThread t .passedUp ∧ Deaf t k.view k'.view := by
  induction run with
  | nil => exact ⟨H, hs, .of_same rfl⟩
  | snoc _ last ih =>
      obtain ⟨⟨hr, ht₁⟩, fuel, h⟩ := last
      obtain ⟨H₁, hs₁, hdeaf⟩ := ih ht₁
      obtain ⟨H₂, ms⟩ := H₁.step hr h
      obtain ⟨hs₂, hdeaf₂⟩ := Moves.stuck ms hs₁ H₂.ok ht
      exact ⟨H₂, hs₂, hdeaf.trans hdeaf₂⟩

/-- From a pass-up on, as long as the thread is not freed, it is linked in `blockedq`
only, so it is neither ready nor running, and gets no message: what a live thread
sends it, its manager included, piles up in its queue. -/
theorem passedUp_forever {hw : Hardware} {k₀ k k₁ k₂ : Kernel} {es es₁ : List Event} {e : Event}
    {t m : Tcb} (hb : boot hw = .ok k₀) (run : Run RegularStep k₀ es k)
    (ht : k.currentThread = some t) (hm : passesUpTo k e = some m) (hstep : RegularStep k e k₁)
    (run₁ : Run (LiveStep t) k₁ es₁ k₂) (hlive : k₂.Live t) :
    (k₂.tcb t).tStatus = .ready ∧ k₂.view.Linked t (some .blockedq) ∧
      k₂.currentThread ≠ some t ∧
      ∃ hist, k₂.history = k₁.history ++ hist ∧ (∀ s pl, .received t s pl ∉ hist) ∧
        ∀ s, Run (GuardedStep fun k e => Regular k e ∧ k.Live s ∧ k.Live t) k₁ es₁ k₂ →
          k₂.Live s → k₂.view.pending s t = k₁.view.pending s t ++ sent hist s t := by
  have H := (Good.boot hb).run run
  obtain ⟨hr, fuel, hstep⟩ := hstep
  have H₁ := (H.step hr hstep).1
  have hs₁ := step_pass H ht hm hstep
  obtain ⟨H₂, hs₂, hist, hh, hdeaf⟩ := stuck_run H₁ hs₁ run₁ hlive
  refine ⟨hs₂.status, hs₂.linked, fun hcur => ?_, hist, hh, hdeaf, fun s run₂ hs => ?_⟩
  · exact H₂.inv.scheduled.off ((hs₂.mem_iff H₂.ok.real .blockedq).mpr rfl) hcur
  · obtain ⟨_, hist', hh', hc⟩ := carries_run H₁ run₂ hs hlive
    obtain rfl := List.append_cancel_left (hh.symm.trans hh')
    have hnil : received hist s t = [] := by
      rw [received, List.filterMap_eq_nil_iff]
      intro o ho
      cases o with
      | received d s' pl =>
          have hne : d ≠ t := by
            rintro rfl
            exact hdeaf s' pl ho
          simp [hne]
      | _ => rfl
    rwa [hnil, List.nil_append] at hc

/-! ## What the manager owes -/

/-- The step puts `t` back in the ready queue, with the context that it has, and leaves no
message of `m` in its message queue. -/
structure PutBack (t m : Tcb) (k k' : Kernel) : Prop where
  ready : (k'.view.sched .readyq).count t = 1
  unqueued : k'.view.pending m t = k.view.pending m t
  context : (k'.tcb t).tS = (k.tcb t).tS

/-- What a pass-up of `t` to `m` in the state `k` is to lead to, in a run of the events `es` from
the state `k₁` after it to `k₂`. -/
structure Attended (t m : Tcb) (k k₁ : Kernel) (es : List Event) (k₂ : Kernel) : Prop where
  /-- `m` gets exactly one message of `t`. -/
  told : k.Reaches t m → k₂.incarnation m = k.incarnation m → ∃ pl,
    received (k₂.history.drop k.history.length) t m ++ k₂.view.pending t m =
      k.view.pending t m ++ [pl]
  /-- `t` does not run until `m` answers. -/
  rests : k.Reaches t m → k₂.incarnation m = k.incarnation m →
    posts k₂.history m t = posts k₁.history m t → k₂.currentThread ≠ some t
  /-- The first answer puts `t` back in the ready queue. -/
  resumed : posts k₂.history m t ≠ posts k₁.history m t → ∃ es' e es'' u u',
    es = es' ++ e :: es'' ∧ Run (LiveStep t) k₁ es' u ∧ LiveStep t u e u' ∧
      Run (LiveStep t) u' es'' k₂ ∧ posts u.history m t = posts k₁.history m t ∧
      posts u'.history m t ≠ posts k₁.history m t ∧ PutBack t m u u'
  /-- If the message does not get through or `m` is freed before it answers, `t` is woken. -/
  woken : posts k₂.history m t = posts k₁.history m t →
    ¬ k.Reaches t m ∨ k₂.incarnation m ≠ k.incarnation m → t ∉ k₂.view.sched .blockedq

namespace Good

variable {k k' k₁ : Kernel} {e : Event} {es : List Event} {fuel : Nat} {s t m : Tcb}

theorem live_of_status (H : Good k) (hm : (k.tcb m).tStatus ≠ .none) : k.Live m := fun hfree =>
  hm (H.inv.owned.status.mpr (H.inv.owned.free.mp hfree))

/-- An incarnation that does not end in a step is alive after it. -/
theorem live_of_incarnation (H : Good k) (hr : Regular k e) (h : MikaBoo.step fuel k e = .ok k') :
    k.incarnation m ≤ k'.incarnation m ∧
      (k'.incarnation m = k.incarnation m → k.Live m → k'.Live m) := by
  by_cases hv : k.casualties e = []
  · obtain ⟨hinc, hlive⟩ := H.unreaped hv h
    exact ⟨(congrFun hinc m).ge, fun _ => hlive m⟩
  · obtain ⟨hist, hh, _, hfreed⟩ := H.history_of_casualties hr hv h
    have hinc : k'.incarnation m = k.incarnation m + hist.count (.freed m) := by
      rw [Kernel.incarnation, hh, List.count_append]
      rfl
    refine ⟨by omega, fun hsame => H.live_of_spared h fun hm => ?_⟩
    have hpos := List.count_pos_iff.mpr ((hfreed m).mpr hm)
    omega

/-- While `t` lives and the incarnation of `m` does not end, both live. -/
theorem live_run (H : Good k) (run : Run (LiveStep t) k es k') (hm : k.Live m) :
    Good k' ∧ k.incarnation m ≤ k'.incarnation m ∧ (k'.incarnation m = k.incarnation m →
      Run (GuardedStep fun k e => Regular k e ∧ k.Live t ∧ k.Live m) k es k' ∧ k'.Live m) := by
  induction run with
  | nil => exact ⟨H, le_rfl, fun _ => ⟨.nil, hm⟩⟩
  | snoc _ last ih =>
      obtain ⟨H₁, hle, hlive⟩ := ih
      obtain ⟨⟨hr, ht⟩, fuel, h⟩ := last
      obtain ⟨hle', hlive'⟩ := H₁.live_of_incarnation hr h (m := m)
      refine ⟨(H₁.step hr h).1, hle.trans hle', fun hsame => ?_⟩
      obtain ⟨run, hm₁⟩ := hlive (by omega)
      exact ⟨run.snoc ⟨⟨hr, ht, hm₁⟩, fuel, h⟩, hlive' (by omega) hm₁⟩

end Good

/-- A thread that is passed up calls `send` for nobody. -/
theorem posts_of_stuck {k k' : Kernel} {es : List Event} {t d : Tcb} (H : Good k)
    (hs : k.view.Stands k.currentThread t .passedUp) (hssi : t ≠ .ssi)
    (run : Run (LiveStep t) k es k') : posts k'.history t d = posts k.history t d := by
  induction run with
  | nil => rfl
  | snoc run last ih =>
      obtain ⟨⟨hr, ht⟩, fuel, h⟩ := last
      obtain ⟨H₁, hs₁, _⟩ := stuck_run H hs run ht
      have hcur : _ ≠ some t := fun hc =>
        H₁.inv.scheduled.off ((hs₁.mem_iff H₁.ok.real .blockedq).mpr rfl) hc
      exact (step_posts H₁.refines.msgs hcur hssi h d).trans ih

/-- The messages that get through. -/
theorem sent_eq_posts (hist : List Obs) (s d : Tcb) :
    sent hist s d = (posts hist s d).filterMap fun p => if p.2 then some p.1 else none := by
  rw [sent, posts, List.filterMap_filterMap]
  refine List.filterMap_congr fun o _ => ?_
  cases o with
  | sent s' d' pl success => by_cases h : s' = some s ∧ d' = d <;> simp [h, ← and_assoc]
  | _ => rfl

/-- A pass-up ends no incarnation. -/
theorem casualties_of_passUp {k : Kernel} {e : Event} {m : Tcb} (hm : passesUpTo k e = some m) :
    k.casualties e = [] := by
  cases e with
  | ssi => cases hm
  | _ => rfl

/-- The manager has got one message of the thread, or has it in its queue. -/
theorem passUp_told {k k₁ k₂ : Kernel} {es : List Event} {e : Event} {t m : Tcb} {fuel : Nat}
    (H : Good k) (ht : k.currentThread = some t) (hm : passesUpTo k e = some m)
    (hr : Regular k e) (h : step fuel k e = .ok k₁) (run : Run (LiveStep t) k₁ es k₂)
    (hlive : k₂.Live t) (hreach : k.Reaches t m) (hinc : k₂.incarnation m = k.incarnation m) :
    ∃ pl, received (k₂.history.drop k.history.length) t m ++ k₂.view.pending t m =
      k.view.pending t m ++ [pl] := by
  obtain ⟨H₁, ms⟩ := H.step hr h
  have hs₁ := step_pass H ht hm h
  have hssi : t ≠ .ssi := by
    obtain ⟨⟨x, k'⟩, hk', _⟩ := bind_eq_ok.mp h
    exact (entry_pass H ht hm hk').1
  -- both threads are allocated all the time
  have ht₀ : k.Live t := H.live_of_status fun hnone => by
    have hready := (H.inv.scheduled.running ht).symm.trans hnone
    cases hready
  have ht₁ : k₁.Live t := live_of_run run hlive
  have hm₀ : k.Live m := H.live_of_status (by
    rcases hreach with hawaits | ⟨hstatus, _⟩
    · simp [hawaits.1]
    · exact hstatus)
  obtain ⟨hinc₁, hspared⟩ := H.unreaped (casualties_of_passUp hm) h
  have hm₁ : k₁.Live m := hspared m hm₀
  obtain ⟨_, _, hguarded⟩ := H₁.live_run run hm₁
  obtain ⟨run', hm₂⟩ := hguarded (by rw [hinc, hinc₁])
  -- what is sent to the manager is the message of the pass-up
  obtain ⟨hist, hh, hc⟩ := (ms.carries ht₀ hm₀ ht₁ hm₁).trans (carries_run H₁ run' hlive hm₂).2
  change k₂.history = k.history ++ hist at hh
  obtain ⟨pl, hpost⟩ := step_posts_once H.refines.msgs ht hm h
  have hposts : posts hist t m = [(pl, true)] := by
    have hstuck := posts_of_stuck H₁ hs₁ hssi run (d := m)
    rw [hpost t m, hh, posts_append] at hstuck
    simpa [hreach] using hstuck
  refine ⟨pl, ?_⟩
  rw [hh, List.drop_left, hc, sent_eq_posts, hposts]
  rfl

/-- The second thread becomes the system call manager of the first, which makes
an unknown system call. -/
def Sample.passUp : List Event :=
  [.start, .ssi] ++ service [.int 2, .int 0x200] ++ recv none [] ++
    service [.int 7, .tcb (.thread 1)] ++
    [.run { a1 := .int 42, cpsr := SYS_MODE_INT_DISABLED } (memory []) 0]

/-- The manager answers. -/
theorem Sample.passUp_answered : ∃ k₀ k k₁ k₂ : Kernel, boot hardware = .ok k₀ ∧
    Run RegularStep k₀ passUp k ∧ k.currentThread = some (.thread 0) ∧
    passesUpTo k .syscall = some (.thread 1) ∧ RegularStep k .syscall k₁ ∧
    Run (LiveStep (.thread 0)) k₁ (send (.thread 0) null []) k₂ ∧ k₂.Live (.thread 0) ∧
    k.Reaches (.thread 0) (.thread 1) ∧
    k₁.incarnation (.thread 1) = k.incarnation (.thread 1) ∧
    posts k₂.history (.thread 1) (.thread 0) =
      posts k₁.history (.thread 1) (.thread 0) ++ [(null, true)] ∧
    Tcb.thread 0 ∉ k₂.view.sched .readyq ∧ k₂.currentThread ≠ some (.thread 0) ∧
    k₂.view.pending (.thread 1) (.thread 0) = [null] := by
  let check : Kernel → Bool := fun k =>
    k.currentThread = some (.thread 0) ∧ passesUpTo k .syscall = some (.thread 1) ∧
    k.Reaches (.thread 0) (.thread 1) ∧
    (proceed Regular 100 k [.syscall]).any fun k₁ =>
      k₁.incarnation (.thread 1) = k.incarnation (.thread 1) ∧
      (proceed (fun k e => Regular k e ∧ k.Live (.thread 0)) 100 k₁
        (send (.thread 0) null [])).any fun k₂ => k₂.Live (.thread 0) ∧
          posts k₂.history (.thread 1) (.thread 0) =
            posts k₁.history (.thread 1) (.thread 0) ++ [(null, true)] ∧
          Tcb.thread 0 ∉ k₂.view.sched .readyq ∧ k₂.currentThread ≠ some (.thread 0) ∧
          k₂.view.pending (.thread 1) (.thread 0) = [null]
  have h : (execute Regular hardware 100 passUp).any check = true := by
    decide +kernel
  obtain ⟨k, hk, hprops⟩ := Option.any_eq_true _ _ |>.mp h
  obtain ⟨k₀, hb, run⟩ := run_of_execute hk
  obtain ⟨ht, hm, hreach, hprops⟩ := of_decide_eq_true hprops
  obtain ⟨k₁, hk₁, hprops⟩ := Option.any_eq_true _ _ |>.mp hprops
  obtain ⟨hinc, hprops⟩ := of_decide_eq_true hprops
  obtain ⟨k₂, hk₂, hprops⟩ := Option.any_eq_true _ _ |>.mp hprops
  obtain ⟨hlive, hposts, hprops⟩ := of_decide_eq_true hprops
  exact ⟨k₀, k, k₁, k₂, hb, run, ht, hm, (run_of_proceed hk₁).of_single, run_of_proceed hk₂,
    hlive, hreach, hinc, hposts, hprops⟩

end MikaBoo
