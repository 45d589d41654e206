import MikaBoo.Abstract.Letters
import MikaBoo.Abstract.Survivors
import MikaBoo.Properties.Messages

/-!
# Managers

A manager is a bare TCB pointer in a process descriptor. It stays valid as long as
no termination frees a manager of a process that survives it.
-/

namespace MikaBoo

open Fuel Transition Forest

/-- The incarnations of the managers when they were appointed. -/
abbrev Register := Pcb → Role → Nat

/-- The manager that the event sets. -/
def Kernel.appoints (k : Kernel) (e : Event) : Option (Pcb × Role × Tcb) :=
  match e, k.applicant, k.request with
  | .ssi, some t, some q => k.appointment t k.ssiMsg q
  | _, _, _ => none

/-- The register after a step from `k`. -/
def Register.after (g : Register) (k : Kernel) (e : Event) : Register :=
  match k.appoints e with
  | some (p, role, m) => Function.update g p (Function.update (g p) role (k.incarnation m))
  | none => g

/-- A step, and the register that is kept of it. -/
def Registered (guard : Kernel → Event → Prop) (s : Kernel × Register) (e : Event)
    (s' : Kernel × Register) : Prop :=
  GuardedStep guard s.1 e s'.1 ∧ s'.2 = s.2.after s.1 e

/-- A set-manager request names a thread that is not free. -/
def NamesLive (k : Kernel) (e : Event) : Prop :=
  ∀ a ∈ k.appoints e, k.Live a.2.2

/-- A served request frees no manager of a process that it does not delete. -/
def SparesManagers (k : Kernel) (e : Event) : Prop :=
  e = .ssi → ∀ t ∈ k.applicant, ∀ q ∈ k.request, ∀ m ∈ k.victims t k.ssiMsg q, ∀ (p : Pcb),
    ∀ role ∈ [Role.pgmMgr, .tlbMgr, .sysMgr],
      role.get (k.pcb p) = some m → p ∈ k.deleted t k.ssiMsg q

/-- Every manager is the incarnation that was registered, and alive. -/
def ManagersValid (k : Kernel) (g : Register) : Prop :=
  ∀ p (role : Role) m, role.get (k.pcb p) = some m → k.Live m ∧ k.incarnation m = g p role

namespace Managers

variable {k k' k₁ : Kernel} {e : Event} {fuel : Nat} {x : Exit} {t m : Tcb} {p : Pcb} {role : Role}
  {g : Register}

theorem mem_roles (role : Role) : role ∈ [Role.pgmMgr, .tlbMgr, .sysMgr] := by
  cases role <;> simp

theorem appoints_eq {q : Request} (ha : k.applicant = some t) (hq : k.request = some q) :
    k.appoints .ssi = k.appointment t k.ssiMsg q := by
  simp [Kernel.appoints, ha, hq]

/-- A manager that was there before keeps its entry in the register. -/
theorem after_old (hm : role.get (k.pcb p) = some m) : g.after k e p role = g p role := by
  cases happ : k.appoints e with
  | none => simp only [Register.after, happ]
  | some a =>
      obtain ⟨p', role', m'⟩ := a
      simp only [Register.after, happ]
      unfold Kernel.appoints at happ
      split at happ
      · obtain ⟨_, _, _, hnone⟩ := Served.appointment_some happ
        by_cases hp : p = p'
        · subst hp
          have hrole : role ≠ role' := by
            rintro rfl
            rw [hnone] at hm
            cases hm
          simp [hrole]
        · simp [hp]
      · cases happ

theorem after_new (happ : k.appoints e = some (p, role, m)) :
    g.after k e p role = k.incarnation m := by
  simp [Register.after, happ]

/-- Only allocated processes have managers. -/
theorem alive_of_manager (C : k.kept.Rolls) (hm : role.get (k.pcb p) = some m) :
    k.view.Alive p := by
  by_contra hp
  obtain ⟨hroot, hnone⟩ := not_or.mp hp
  have hpcb : k.pcb p = {} := C.tree.cleared hroot (not_not.mp hnone)
  rw [hpcb] at hm
  cases role <;> cases hm

/-- The managers are valid after a step exactly when it frees no manager of a
surviving process. -/
theorem valid_iff (C : k.kept.Rolls) (V : ManagersValid k g) (hn : NotSelf k e)
    (hl : NamesLive k e) (h : step fuel k e = .ok k') :
    ManagersValid k' (g.after k e) ↔ SparesManagers k e := by
  have C' : k'.kept.Rolls := C.step hn h
  have hlive : ∀ {m}, k.Live m ↔ m = .ssi ∨ k.kept.counts.owner m ≠ none := C.live_iff
  have hlive' : ∀ {m}, k'.Live m ↔ m = .ssi ∨ k'.kept.counts.owner m ≠ none := C'.live_iff
  rcases step_served C h with ⟨hs, hpcb, _, hinc, hcounts⟩ | ⟨t, q, r, he, _, ha, hq, S⟩
  · have howner : k'.kept.counts.owner = k.kept.counts.owner := (congrArg Counts.owner hcounts :)
    refine iff_of_true (fun p role m hm => ?_) ?_
    · rw [hpcb] at hm
      obtain ⟨hm₁, hm₂⟩ := V p role m hm
      rw [hlive', howner, hinc, after_old hm]
      exact ⟨hlive.mp hm₁, hm₂⟩
    · rintro rfl t _ q hq
      rw [request_of_idle hs] at hq
      cases hq
  · subst he
    constructor
    · intro V' _ t' ha' q' hq' m hm p role _ hp
      obtain rfl := Option.some.inj (ha.symm.trans ha')
      obtain rfl := Option.some.inj (hq.symm.trans hq')
      by_contra hdel
      obtain ⟨hlive₁, _⟩ := V' p role m (S.manager_kept C (alive_of_manager C hp) hdel hp)
      obtain ⟨hssi, hfree, _⟩ := S.killed C (fun hqt => by
        rintro rfl
        exact hn rfl (hqt ▸ hq) ha) hm
      exact (hlive'.mp hlive₁).elim hssi (fun ho => ho hfree)
    · intro hspares p role m hm'
      rcases S.manager hm' with hm | happ
      · obtain ⟨hm₁, hm₂⟩ := V p role m hm
        have hvictim : m ∉ k.victims t k.ssiMsg q := by
          intro hv
          have hdel := hspares rfl t ha q hq m hv p role (mem_roles role) hm
          rw [S.deleted_pcb C hdel] at hm'
          cases role <;> cases hm'
        obtain ⟨hinc, howner⟩ := S.spared C hvictim (hlive.mp hm₁)
        rw [hlive', howner, after_old hm, ← hm₂]
        exact ⟨hlive.mp hm₁, hinc⟩
      · have hkept := S.appointed happ
        have howner : k'.kept.counts.owner = k.kept.counts.owner := by
          rw [hkept]
          rfl
        have hinc : k'.kept.incarnation = k.kept.incarnation := by
          rw [hkept]
          rfl
        have happ' := (appoints_eq ha hq).trans happ
        rw [hlive', howner, after_new happ']
        exact ⟨hlive.mp (hl _ happ'), congrFun hinc m⟩

/-- A process that lives on keeps its managers. -/
theorem manager_step (C : k.kept.Rolls) (h : step fuel k e = .ok k') (hp : k'.view.Alive p)
    (hm : role.get (k.pcb p) = some m) : role.get (k'.pcb p) = some m := by
  rcases step_served C h with ⟨_, hpcb, _⟩ | ⟨t, q, r, _, _, _, _, S⟩
  · rwa [hpcb]
  · refine S.manager_kept C (alive_of_manager C hm) (fun hdel => ?_) hm
    have hpcb := S.deleted_pcb C hdel
    have hroot : p ≠ root := by
      unfold Kernel.deleted at hdel
      cases hterm : k.terminated t k.ssiMsg q with
      | none => simp [hterm] at hdel
      | some p' =>
          rw [hterm] at hdel
          exact (C.mem_subtree.mp hdel).2
    rcases hp with hp | hp
    · exact hroot hp
    · exact hp (congrArg PcbT.pParent hpcb)

/-- A request for a manager that is set terminates the process of its applicant and
gets no reply. -/
theorem second_setmgr {q : Request} {m' : Tcb} (C : k.kept.Rolls) (hn : NotSelf k .ssi)
    (ha : k.applicant = some t) (hq : k.request = some q) (hrole : q.role = some role)
    (harg : k.argument k.ssiMsg = some m') (hp : (k.tcb t).tPcb = some p)
    (hm : role.get (k.pcb p) = some m) (h : step fuel k .ssi = .ok k') :
    k'.mail = k.mail ∧
      (∀ u r, k.view.Below r p → (k.tcb u).tPcb = some r → ¬ k'.Live u) ∧
      ∀ r, k.view.Below r p → r ≠ root → ¬ k'.view.Alive r := by
  have C' : k'.kept.Rolls := C.step hn h
  have hterm : k.terminated t k.ssiMsg q = some p := by
    cases q <;> cases hrole <;> simp [Kernel.terminated, hp, harg, Request.role, hm]
  obtain ⟨_, k₁, r, hk₁, hr⟩ := ssi_step ha hq h
  have C₀ : Kernel.kept { k with ssiPoint := .receiving } |>.Rolls := C
  obtain ⟨rfl, P⟩ := (Served.of_service C₀ hk₁).of_point.pruned hterm
  rcases hr with ⟨_, rfl⟩ | ⟨_, _, hsome, _⟩
  · have hquiet := (Quiet.chores (.service hk₁)).mail
    refine ⟨hquiet, fun u r hr hu hlive => ?_, fun r hr hroot halive => ?_⟩
    · rcases C'.live_iff.mp hlive with rfl | hlive
      · exact absurd (C.ssi.symm.trans hu) (by rintro ⟨⟩)
      · exact hlive (P.freed C hr hu)
    · exact halive.elim hroot fun hpar => hpar (P.gone C hr hroot)
  · cases hsome

/-- The lists are in order after a run in which the SSI does not terminate itself. -/
theorem rolls_run {es : List Event} (C : k.kept.Rolls)
    (run : Run (GuardedStep fun k e => NotSelf k e ∧ k.view.Alive p) k es k') : k'.kept.Rolls :=
  run.invariant (P := fun k => k.kept.Rolls) (fun _ _ _ C ⟨⟨hn, _⟩, _, h⟩ => C.step hn h) C

/-- The managers of a process stay as long as it lives. -/
theorem manager_run {es : List Event} (C : k.kept.Rolls)
    (run : Run (GuardedStep fun k e => NotSelf k e ∧ k.view.Alive p) k es k')
    (hp : k'.view.Alive p) (hm : role.get (k.pcb p) = some m) : role.get (k'.pcb p) = some m := by
  induction run with
  | nil => exact hm
  | snoc run last ih =>
      obtain ⟨⟨_, hp₁⟩, _, h⟩ := last
      exact manager_step (rolls_run C run) h hp (ih hp₁)

/-- The kernel boots without managers. -/
theorem valid_boot {hw : Hardware} (hb : boot hw = .ok k) : ManagersValid k fun _ _ => 0 := by
  intro p role m hm
  obtain ⟨k', hk', R⟩ := boot_ok hw
  obtain rfl := Except.ok.inj (hb.symm.trans hk')
  have hpcb : k.pcb p = {} := by
    rw [← R.pcb]
    rfl
  rw [hpcb] at hm
  cases role <;> cases hm

end Managers

/-- What the theorem asks of a step: a set-manager request names a thread that is not
free, and the SSI is not asked to terminate itself or a manager of a process that survives. -/
def RespectsManagers (k : Kernel) (e : Event) : Prop :=
  NamesLive k e ∧ NotSelf k e ∧ SparesManagers k e

/-- As long as no request frees a manager of a process that it does not delete, every
manager is the thread that was registered, and the first such request leaves a
stale pointer. A manager does not change while its process lives, and a second
request for it terminates the process of the applicant, without a reply. -/
theorem managers_valid {hw : Hardware} {k₀ k : Kernel} {g : Register} {es : List Event}
    (hb : boot hw = .ok k₀) (run : Run (Registered RespectsManagers) (k₀, fun _ _ => 0) es (k, g)) :
    ManagersValid k g ∧
      (∀ e k', NamesLive k e → NotSelf k e → Step k e k' →
        (ManagersValid k' (g.after k e) ↔ SparesManagers k e)) ∧
      (∀ es' k' p (role : Role) m,
        Run (GuardedStep fun k e => NotSelf k e ∧ k.view.Alive p) k es' k' → k'.view.Alive p →
        role.get (k.pcb p) = some m → role.get (k'.pcb p) = some m) ∧
      ∀ t q role m m' p k', k.applicant = some t → k.request = some q → q.role = some role →
        k.argument k.ssiMsg = some m' → (k.tcb t).tPcb = some p → role.get (k.pcb p) = some m →
        NotSelf k .ssi → Step k .ssi k' →
        k'.mail = k.mail ∧
          (∀ u r, k.view.Below r p → (k.tcb u).tPcb = some r → ¬ k'.Live u) ∧
          ∀ r, k.view.Below r p → r ≠ root → ¬ k'.view.Alive r := by
  have H := Good.boot hb
  have hinv : k.kept.Rolls ∧ ManagersValid k g := by
    refine run.invariant (P := fun s => s.1.kept.Rolls ∧ ManagersValid s.1 s.2)
      (fun s e s' inv h => ?_) ⟨.of_inv H.refines H.inv, Managers.valid_boot hb⟩
    obtain ⟨⟨⟨hl, hn, hs⟩, fuel, h⟩, hg⟩ := h
    refine ⟨inv.1.step hn h, ?_⟩
    rw [hg]
    exact (Managers.valid_iff inv.1 inv.2 hn hl h).mpr hs
  obtain ⟨C, V⟩ := hinv
  refine ⟨V, ?_, ?_, ?_⟩
  · rintro e k' hl hn ⟨fuel, h⟩
    exact Managers.valid_iff C V hn hl h
  · intro es' k' p role m run hp hm
    exact Managers.manager_run C run hp hm
  · rintro t q role m m' p k' ha hq hrole harg hp hm hn ⟨fuel, h⟩
    exact Managers.second_setmgr C hn ha hq hrole harg hp hm h

instance (k : Kernel) (e : Event) : Decidable (NamesLive k e) :=
  inferInstanceAs (Decidable (∀ a ∈ k.appoints e, k.Live a.2.2))

instance (k : Kernel) (e : Event) : Decidable (SparesManagers k e) :=
  match e with
  | .ssi => decidable_of_iff (∀ t ∈ k.applicant, ∀ q ∈ k.request, ∀ m ∈ k.victims t k.ssiMsg q,
      ∀ (p : Pcb), ∀ role ∈ [Role.pgmMgr, .tlbMgr, .sysMgr], role.get (k.pcb p) = some m →
        p ∈ k.deleted t k.ssiMsg q)
      ⟨fun h _ => h, fun h => h rfl⟩
  | .start | .run .. | .elapse _ | .edit .. | .syscall | .pgmtrap _ | .tlbtrap _ | .interrupt _ =>
      isTrue nofun

instance (k : Kernel) (e : Event) : Decidable (RespectsManagers k e) :=
  inferInstanceAs (Decidable (_ ∧ _ ∧ _))

namespace Sample

/-- The second thread becomes the system call manager of the first, and both live on. -/
def manager : List Event :=
  [.start, .ssi] ++ service [.int 2, .int 0x200] ++ recv none [] ++ service [.int 7, .tcb (.thread 1)]

/-- The first thread wakes the second one and waits, and the second one terminates itself. -/
def managerQuits : List Event :=
  send (.thread 1) null [] ++ recv none [] ++ request [.int 4] ++ recv (some .ssi) [.int 4] ++ [.ssi]

end Sample

/-- The system call manager of the first thread is the thread that it has named. -/
theorem managers_valid_sample : ∃ (k₀ k : Kernel) (g : Register), boot Sample.hardware = .ok k₀ ∧
    Run (Registered RespectsManagers) (k₀, fun _ _ => 0) Sample.manager (k, g) ∧
    (k.pcb root).sysMgr = some (.thread 1) ∧ k.Live (.thread 1) := by
  have h : ((boot Sample.hardware).toOption.bind fun k =>
      (proceedWith (fun k _ e => RespectsManagers k e) (fun g k e _ => Register.after g k e) 100
        (k, fun _ _ => 0) Sample.manager).map fun s => (k, s)).any
      (fun r => (r.2.1.pcb root).sysMgr = some (.thread 1)) = true := by
    decide +kernel
  obtain ⟨⟨k₀, k, g⟩, hr, hm⟩ := Option.any_eq_true _ _ |>.mp h
  obtain ⟨k₁, hb, hr⟩ := Option.bind_eq_some_iff.mp hr
  obtain ⟨s, hs, hks⟩ := Option.map_eq_some_iff.mp hr
  cases hks
  have hb := exec_eq_ok hb
  have run : Run (Registered RespectsManagers) (k₀, fun _ _ => 0) Sample.manager (k, g) :=
    (run_of_proceedWith hs).mono_of_mem fun _ _ _ _ ⟨hg, hstep, hafter⟩ => ⟨⟨hg, hstep⟩, hafter⟩
  have hm := of_decide_eq_true hm
  exact ⟨k₀, k, g, hb, run, hm, ((managers_valid hb run).1 root .sysMgr _ hm).1⟩

/-- The system call manager of the first thread terminates, and the process of the
first thread keeps the pointer to it. -/
theorem managers_stale : ∃ k₀ k k' : Kernel, boot Sample.hardware = .ok k₀ ∧
    Run (GuardedStep NamesLive) k₀ Sample.manager k ∧ (k.pcb root).sysMgr = some (.thread 1) ∧
    Run (GuardedStep NamesLive) k Sample.managerQuits k' ∧ k'.view.Alive root ∧
    (k'.pcb root).sysMgr = some (.thread 1) ∧ ¬ k'.Live (.thread 1) := by
  let check : Kernel → Bool := fun k => (k.pcb root).sysMgr = some (.thread 1) ∧
    (proceed NamesLive 100 k Sample.managerQuits).any fun k' =>
      (k'.pcb root).sysMgr = some (.thread 1) ∧ ¬ k'.Live (.thread 1)
  have h : (execute NamesLive Sample.hardware 100 Sample.manager).any check = true := by
    decide +kernel
  obtain ⟨k, hk, hprops⟩ := Option.any_eq_true _ _ |>.mp h
  obtain ⟨hm, hprops⟩ := of_decide_eq_true hprops
  obtain ⟨k', hk', hprops⟩ := Option.any_eq_true _ _ |>.mp hprops
  obtain ⟨k₀, hb, run⟩ := run_of_execute hk
  obtain ⟨hm', hdead⟩ := of_decide_eq_true hprops
  exact ⟨k₀, k, k', hb, run, hm, run_of_proceed hk', Or.inl rfl, hm', hdead⟩

end MikaBoo
