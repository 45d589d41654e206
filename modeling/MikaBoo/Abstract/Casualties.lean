import MikaBoo.Abstract.Aftermath
import MikaBoo.Abstract.Survivors

/-!
# Terminations in regular runs

A step of a regular run that frees threads is a run of the steps of a termination,
and every other step frees nobody.
-/

namespace MikaBoo

open Intrusive Fuel Transition

/-- The threads that the event frees. -/
def Kernel.casualties (k : Kernel) : Event → List Tcb
  | .ssi =>
      match k.applicant, k.request with
      | some t, some q => k.victims t k.ssiMsg q
      | _, _ => []
  | _ => []

theorem Kernel.casualties_of_request {k : Kernel} {t : Tcb} {q : Request}
    (ha : k.applicant = some t) (hq : k.request = some q) :
    k.casualties .ssi = k.victims t k.ssiMsg q := by
  simp [Kernel.casualties, ha, hq]

theorem Kernel.casualties_of_idle {k : Kernel} {e : Event} (hs : k.serves e = false) :
    k.casualties e = [] := by
  cases e with
  | ssi =>
      unfold Kernel.casualties
      rw [request_of_idle hs]
      split <;> simp_all
  | _ => rfl

namespace Kernel

variable {k : Kernel} {t : Tcb} {msg : Value} {q : Request} {role : Role}

/-- The other threads of the process that is terminated are victims as well. -/
theorem terminated_eq_none (C : k.kept.Rolls) (ht : t ∉ k.victims t msg q) :
    k.terminated t msg q = none := by
  cases hterm : k.terminated t msg q with
  | none => rfl
  | some p =>
      have hp : (k.tcb t).tPcb = some p := by
        unfold Kernel.terminated at hterm
        split at hterm
        · exact hterm
        · exact (Option.filter_eq_some_iff.mp hterm).1
        · exact (Option.filter_eq_some_iff.mp hterm).1
      refine absurd ?_ ht
      simp only [Kernel.victims, hterm]
      exact C.mem_staff.mpr ⟨p, .refl p, hp⟩

/-- A request that sets a manager and terminates nothing finds none set. -/
theorem manager_eq_none {o : Option Tcb} (hterm : k.terminated t msg q = none)
    (hrole : q.role = some role) (ha : (reqField k msg 1 >>= Value.toTcb) = .ok o) :
    ∀ m, o = some m → ((k.tcb t).tPcb.bind fun p => role.get (k.pcb p)) = none := by
  rintro m rfl
  have harg := argument_of_toTcb ha
  cases hp : (k.tcb t).tPcb with
  | none => rfl
  | some p =>
      cases q <;> cases hrole
      all_goals simpa [Kernel.terminated, hp, harg, Request.role] using hterm

end Kernel

namespace Served

variable {k k' : Kernel} {t m : Tcb} {msg : Value} {q : Request} {r : Option Value}

/-- A request without victims ends no incarnation. -/
theorem incarnation (S : Served k t msg q r k') (C : k.kept.Rolls)
    (hv : k.victims t msg q = []) : k'.incarnation = k.incarnation := by
  have hrun : ∀ {ds}, Run Kept.Step k.kept ds k'.kept → (∀ m, .fire m ∉ ds) →
      k'.incarnation = k.incarnation := by
    intro ds run hds
    funext m
    have hi := Kept.incarnation_of_run run m
    rwa [List.count_eq_zero_of_not_mem (hds m)] at hi
  have hkept : ∀ {c : Kept}, k'.kept = c → c.incarnation = k.incarnation →
      k'.incarnation = k.incarnation := by
    rintro _ rfl h
    exact h
  cases S with
  | plain same => exact hkept same rfl
  | create _ run creates => exact hrun run fun m hm => creates _ hm
  | @terminate p process _ pruned =>
      obtain ⟨ds, run, hds⟩ := pruned.run
      refine hrun run fun m hm => ?_
      have hstaff : m ∈ k.kept.staff p := C.mem_staff.mpr (hds _ hm)
      simp [Kernel.victims, process] at hv
      simp [hv] at hstaff
  | free request process =>
      subst request
      simp [Kernel.victims, process] at hv
  | appoint _ _ set => exact hkept set rfl
  | engage _ _ engaged => exact hkept engaged rfl

/-- A request with victims gets no reply. -/
theorem silent (S : Served k t msg q r k') (hv : k.victims t msg q ≠ []) : r = none := by
  have hnone : k.terminated t msg q = none → q ≠ .terminateThread → r = none := by
    intro hp hq
    simp [Kernel.victims, hp, hq] at hv
  cases S with
  | plain _ process thread => exact hnone process thread
  | create scope =>
      refine hnone (terminated_of_scope scope) ?_
      rintro rfl
      cases scope
  | terminate _ silent => exact silent
  | free _ _ silent => exact silent
  | appoint manager =>
      obtain ⟨hterm, hq⟩ := terminated_of_appointment manager
      exact hnone hterm hq
  | engage request =>
      subst request
      simp [Kernel.victims, Kernel.terminated, Request.role] at hv

end Served

/-! ## Services that free threads -/

/-- The service for `t` that led from `k` to `k'` was a termination of the threads `us`. -/
structure Reaped (k : Kernel) (t : Tcb) (us : List Tcb) (k' : Kernel) : Prop where
  refines : Refines k' k'.view
  run : ∃ es, es.filterMap Reaping.victim? = us ∧ Run (ReapStep (some t)) k.view es k'.view

namespace Goes

variable {c : Config} {k k' : Kernel} {t : Tcb} {p : Pcb} {fuel : Nat} {q : Request} {msg : Value}
  {r : Option Value}

theorem terminateProcessS_reaped (G : Goes .terminate c k (some .ssi))
    (hp : (k.tcb t).tPcb = some p) (h : MikaBoo.terminateProcessS fuel k t = .ok k') :
    Reaped k t (k.kept.staff p) k' := by
  obtain ⟨v', R', run⟩ := (G.refines.terminateProcessS G.inv.terminable hp).sound h
  obtain rfl := R'.eq_view
  exact ⟨R', _, rfl, run⟩

theorem rawTerminateThreadS_reaped (G : Goes .terminate c k (some .ssi)) (ht : t ≠ .ssi)
    (hp : (k.tcb t).tPcb = some p) (h : MikaBoo.rawTerminateThreadS fuel k t = .ok k') :
    Reaped k t [t] k' := by
  have hm : t ∈ k.view.threads (.of p) := G.inv.owned.owned.mpr hp
  have hst : (k.view.tcb t).tStatus ≠ .none := by
    rw [Ne, G.inv.owned.status]
    simp [show (k.view.tcb t).tPcb = _ from hp]
  obtain ⟨w, hw⟩ := G.inv.terminable.queued.somewhere ht hst
  have R' := (G.refines.rawTerminateThreadS hm hw).sound h
  have s : ReapStep (some t) k.view (.kill t p) ((k.view.clean t _).reap t p w) :=
    .kill ⟨k, G.refines⟩ hm hw
  have hv := R'.eq_view
  rw [hv] at R'
  refine ⟨R', [.kill t p], rfl, .single ?_⟩
  rw [← hv]
  simpa [View.cleanDest] using s

/-- A request with victims, served for an allocated applicant. -/
theorem reaped (G : Goes .terminate c k (some .ssi)) (ht : k.Allocated t)
    (hv : k.victims t msg q ≠ []) (h : MikaBoo.service fuel k t msg q = .ok (r, k')) :
    Reaped k t (k.victims t msg q) k' := by
  obtain ⟨p, hp⟩ := G.owner_of_allocated ht
  have hset : ∀ role o, q.role = some role → (reqField k msg 1 >>= Value.toTcb) = .ok o →
      MikaBoo.rawSetmgr role.get role.set fuel k o t = .ok (r, k') →
      Reaped k t (k.victims t msg q) k' := by
    intro role o hrole ha hk
    have harg := Kernel.argument_of_toTcb ha
    have hq : q ≠ .terminateProcess ∧ q ≠ .terminateThread := by
      constructor <;> rintro rfl <;> cases hrole
    have hterm : k.terminated t msg q =
        (some p).filter fun p => o.isSome && (role.get (k.pcb p)).isSome := by
      rw [← harg, ← hp]
      cases q <;> cases hrole
      all_goals simp [Kernel.terminated, Request.role]
    cases o with
    | none => simp [Kernel.victims, hterm, hq.2] at hv
    | some m =>
        simp only [MikaBoo.rawSetmgr, hp] at hk
        split at hk
        · rename_i hsome
          obtain ⟨k₁, hk₁, hk⟩ := bind_eq_ok.mp hk
          cases hk
          have hproc : k.terminated t msg q = some p := by simp [hterm, hsome]
          simpa [Kernel.victims, hproc] using G.terminateProcessS_reaped hp hk₁
        · rename_i hnone
          have hproc : k.terminated t msg q = none := by simp [hterm, hnone]
          simp [Kernel.victims, hproc, hq.2] at hv
  cases q with
  | terminateProcess =>
      obtain ⟨_, hk, h⟩ := bind_eq_ok.mp h
      cases h
      simpa [Kernel.victims, Kernel.terminated, hp] using G.terminateProcessS_reaped hp hk
  | terminateThread =>
      obtain ⟨_, hk, h⟩ := bind_eq_ok.mp h
      cases h
      simp only [MikaBoo.terminateThreadS, hp] at hk
      split at hk
      · rename_i honly
        have hproc : k.terminated t msg .terminateThread = some p := by
          simp [Kernel.terminated, hp, honly]
        simpa [Kernel.victims, hproc] using G.terminateProcessS_reaped hp hk
      · rename_i honly
        have hproc : k.terminated t msg .terminateThread = none := by
          simp [Kernel.terminated, hp, honly]
        simpa [Kernel.victims, hproc] using G.rawTerminateThreadS_reaped ht.1 hp hk
  | setpgmmgr =>
      obtain ⟨v, hv, h⟩ := bind_eq_ok.mp h
      obtain ⟨o, ho, h⟩ := bind_eq_ok.mp h
      exact hset .pgmMgr o rfl (bind_eq_ok.mpr ⟨v, hv, ho⟩) h
  | settlbmgr =>
      obtain ⟨v, hv, h⟩ := bind_eq_ok.mp h
      obtain ⟨o, ho, h⟩ := bind_eq_ok.mp h
      exact hset .tlbMgr o rfl (bind_eq_ok.mpr ⟨v, hv, ho⟩) h
  | setsysmgr =>
      obtain ⟨v, hv, h⟩ := bind_eq_ok.mp h
      obtain ⟨o, ho, h⟩ := bind_eq_ok.mp h
      exact hset .sysMgr o rfl (bind_eq_ok.mpr ⟨v, hv, ho⟩) h
  | _ => simp [Kernel.victims, Kernel.terminated, Request.role] at hv

end Goes

/-! ## Steps -/

namespace Good

variable {k k' : Kernel} {e : Event} {fuel : Nat} {m : Tcb}

theorem rolls (H : Good k) : k.kept.Rolls := .of_inv H.refines H.inv

/-- A step that frees threads terminates them, in the order of the code, and does no more. -/
theorem reaped (H : Good k) (hr : Regular k e) (hv : k.casualties e ≠ [])
    (h : MikaBoo.step fuel k e = .ok k') : ∃ t, e = .ssi ∧ k.applicant = some t ∧
      k.Allocated t ∧ Reaped { k with ssiPoint := .receiving } t (k.casualties e) k' := by
  obtain ⟨t, q, rfl, ha, hq⟩ : ∃ t q, e = .ssi ∧ k.applicant = some t ∧ k.request = some q := by
    cases e with
    | ssi =>
        cases ha : k.applicant with
        | none => simp [Kernel.casualties, ha] at hv
        | some t =>
            cases hq : k.request with
            | none => simp [Kernel.casualties, hq] at hv
            | some q => exact ⟨t, q, rfl, rfl, rfl⟩
    | _ => exact absurd rfl hv
  obtain ⟨hc, k₁, r, hk₁, hk'⟩ := ssi_step ha hq h
  rw [Kernel.casualties_of_request ha hq] at hv ⊢
  have hscope : q.scope = .terminate := by
    cases q <;> first | rfl | simp [Kernel.victims, Kernel.terminated, Request.role] at hv
  have hall := (hr q hq).2 hscope t ha
  have G : Goes .terminate ⟨k.view, some .ssi⟩ { k with ssiPoint := .receiving } (some .ssi) := by
    have G₀ : Goes .terminate ⟨k.view, k.currentThread⟩ k k.currentThread := H.goes
    rw [hc] at G₀
    exact G₀.setGlobals { G₀.refines with globals := rfl } rfl (Or.inl rfl) fun _ hi => hi
  have P : Reaped { k with ssiPoint := .receiving } t (k.victims t k.ssiMsg q) k₁ :=
    G.reaped hall hv hk₁
  obtain rfl := (Served.of_service (k := { k with ssiPoint := .receiving }) H.rolls hk₁).silent hv
  rcases hk' with ⟨_, rfl⟩ | ⟨_, _, hsome, _⟩
  · exact ⟨t, rfl, ha, hall, P⟩
  · cases hsome

/-- A step takes its casualties to the free list. -/
theorem free_of_casualty (H : Good k) (hr : Regular k e) (h : MikaBoo.step fuel k e = .ok k')
    (hm : m ∈ k.casualties e) : m ∈ k'.view.threads .free := by
  obtain ⟨_, _, _, _, hreaped⟩ := H.reaped hr (List.ne_nil_of_mem hm) h
  obtain ⟨es, hes, run⟩ := hreaped.run
  obtain ⟨d, hd, hdm⟩ := List.mem_filterMap.mp (hes ▸ hm)
  obtain ⟨q, rfl⟩ := View.victim?_eq_some.mp hdm
  exact (View.gone_of_run run hd).free

/-- Nobody else becomes free. -/
theorem live_of_spared (H : Good k) (h : MikaBoo.step fuel k e = .ok k')
    (hm : m ∉ k.casualties e) (hlive : m ∉ k.view.threads .free) :
    m ∉ k'.view.threads .free := by
  have C := H.rolls
  rcases step_served C h with ⟨_, _, _, _, hcounts⟩ | ⟨t, q, r, rfl, _, ha, hq, S⟩
  · have hl : k'.threadLinks = k.threadLinks := (congrArg Counts.threadLinks hcounts :)
    simpa only [Kernel.view, hl] using hlive
  · rw [Kernel.casualties_of_request ha hq] at hm
    have hlive' := C.live_iff.mp hlive
    have howner := (S.spared C hm hlive').2
    have hssi : t ≠ .ssi := by
      obtain ⟨u, hu, hne⟩ := H.holds (ssi_step ha hq h).1 (point_of_request hq)
      have ht : u = t := by simpa [Kernel.applicant, hu] using ha
      exact ht ▸ hne
    have C' : k'.kept.Rolls := S.rolls C fun _ => hssi
    refine C'.live_iff.mpr (hlive'.imp_right fun ho => ?_)
    rwa [howner]

/-- A step that frees no thread ends no incarnation, and no thread becomes free. -/
theorem unreaped (H : Good k) (hv : k.casualties e = []) (h : MikaBoo.step fuel k e = .ok k') :
    k'.incarnation = k.incarnation ∧
      ∀ m, m ∉ k.view.threads .free → m ∉ k'.view.threads .free := by
  refine ⟨?_, fun m => H.live_of_spared h (by simp [hv])⟩
  rcases step_served H.rolls h with ⟨_, _, _, hinc, _⟩ | ⟨t, q, r, rfl, _, ha, hq, S⟩
  · exact hinc
  · rw [Kernel.casualties_of_request ha hq] at hv
    exact S.incarnation H.rolls hv

end Good

end MikaBoo
