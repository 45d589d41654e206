import MikaBoo.Abstract.Registry
import MikaBoo.Properties.Authority
import MikaBoo.Properties.Managers
import MikaBoo.Properties.Ownership
import MikaBoo.Properties.Service
import MikaBoo.Properties.Staffing

/-!
# The SSI keeps the registry

In every run the requests that the SSI serves, in this order and with the replies that it sends,
are transactions of one registry of processes, and the kernel lists what is in it.
-/

namespace MikaBoo

open Intrusive Fuel Transition Forest

/-- The processes and threads that the kernel lists. -/
def Kept.Rolls.registry {c : Kept} (C : c.Rolls) : Registry Pcb Tcb Role where
  root := root
  server := .ssi
  parent p := (c.pcb p).pParent
  home := c.counts.owner
  manager p role := role.get (c.pcb p)
  root_parent := C.tree.root_parent
  server_home := C.ssi
  rooted _ hp := C.tree.below_root (Or.inr hp)
  home_alive _ _ h := C.tree.owner_alive h
  cleared p hroot hp role := by
    have hclear : c.pcb p = {} := C.tree.cleared hroot hp
    cases role <;> simp [hclear, Role.get]

/-- What the registry is asked for by a request with the parameters in `msg`. -/
def Kernel.order (k : Kernel) (msg : Value) : Request → Order Pcb Tcb Role
  | .createProcess => .createProcess
  | .createThread => .createThread
  | .terminateProcess => .terminateProcess
  | .terminateThread => .terminateThread
  | .setpgmmgr => .appoint .pgmMgr (k.argument msg)
  | .settlbmgr => .appoint .tlbMgr (k.argument msg)
  | .setsysmgr => .appoint .sysMgr (k.argument msg)
  | .getProcessid =>
      match reqField k msg 1 with
      | .ok (.tcb t) => .homeOf t
      | _ => .other
  | .getParentprocid =>
      match reqField k msg 1 with
      | .ok (.pcb p) => .parentOf p
      | _ => .other
  | _ => .other

/-- What the SSI has been asked for, and what it has sent. -/
abbrev Journal := List (Registry.Transaction Pcb Tcb Role Value)

/-- The journal after a step. -/
def Journal.after (g : Journal) (k : Kernel) (e : Event) (k' : Kernel) : Journal :=
  match e, k.applicant, k.request with
  | .ssi, some t, some q =>
      g ++ [⟨t, k.order k.ssiMsg q, (replies k'.history).drop (replies k.history).length⟩]
  | _, _, _ => g

/-- A step, and the journal that is kept of it. -/
def Journaled (guard : Kernel → Event → Prop) (s : Kernel × Journal) (e : Event)
    (s' : Kernel × Journal) : Prop :=
  GuardedStep guard s.1 e s'.1 ∧ s'.2 = s.2.after s.1 e s'.1

namespace Registration

variable {k k' : Kernel} {c c' : Kept} {e : Event} {fuel : Nat} {t u : Tcb} {p r : Pcb}
  {msg : Value} {q : Request} {o : Option Value} {s : State}

/-! ## Deeds -/

theorem registry_congr (C : c.Rolls) (C' : c'.Rolls) (hpcb : c'.pcb = c.pcb)
    (howner : c'.counts.owner = c.counts.owner) : C'.registry = C.registry := by
  apply Registry.ext
  · rfl
  · rfl
  · funext p
    exact congrArg PcbT.pParent (congrFun hpcb p)
  · exact howner
  · funext p role
    exact congrArg role.get (congrFun hpcb p)

theorem registry_hire (C : c.Rolls) (C' : c'.Rolls) (h : c' = c.after (.hire t p))
    (ht : t ≠ .ssi) (hp : c.view.Alive p) : C'.registry = C.registry.employ t p ht hp := by
  subst h
  rfl

theorem registry_adopt (C : c.Rolls) (C' : c'.Rolls) (h : c' = c.after (.adopt p r))
    (hp : ¬ c.view.Alive p) (hr : c.view.Alive r) :
    C'.registry = C.registry.found p r hp hr := by
  subst h
  apply Registry.ext
  · rfl
  · rfl
  · funext p'
    by_cases hpp : p' = p <;>
      simp [Kept.Rolls.registry, Registry.found, Kept.after, Function.update_apply, hpp]
  · rfl
  · funext p' role
    by_cases hpp : p' = p
    · subst hpp
      cases role <;> simp [Kept.Rolls.registry, Registry.found, Kept.after, Role.get]
    · simp [Kept.Rolls.registry, Registry.found, Kept.after, hpp]

theorem registry_fire (C : c.Rolls) (C' : c'.Rolls) (h : c' = c.after (.fire t)) :
    C'.registry = C.registry.dismiss t := by
  subst h
  rfl

theorem registry_manage {role : Role} {m : Tcb} (C : c.Rolls) (C' : c'.Rolls)
    (h : c' = c.after (.manage p (role.set (c.pcb p) (some m)))) (hp : c.view.Alive p) :
    C'.registry = C.registry.appoint p role m hp := by
  subst h
  apply Registry.ext
  · rfl
  · rfl
  · funext p'
    by_cases hpp : p' = p
    · subst hpp
      cases role <;> simp [Kept.Rolls.registry, Registry.appoint, Kept.after, Role.set]
    · simp [Kept.Rolls.registry, Registry.appoint, Kept.after, hpp]
  · rfl
  · funext p' role'
    by_cases hpp : p' = p
    · subst hpp
      cases role <;> cases role' <;>
        simp [Kept.Rolls.registry, Registry.appoint, Kept.after, Role.set, Role.get]
    · simp [Kept.Rolls.registry, Registry.appoint, Kept.after, hpp]

theorem registry_pruned (C : c.Rolls) (C' : c'.Rolls) (P : Kept.Pruned c p c') :
    C'.registry = C.registry.dissolve p := by
  have hspared : ∀ q, ¬ (c.view.Below q p ∧ q ≠ root) → c'.pcb q = c.pcb q := fun q hq =>
    P.spared_pcb C fun hm => hq (C.mem_subtree.mp hm)
  have hgone : ∀ q, c.view.Below q p → (c'.pcb q).pParent = none := by
    intro q hb
    by_cases hroot : q = root
    · subst hroot
      exact C'.tree.root_parent
    · exact P.gone C hb hroot
  apply Registry.ext
  · rfl
  · rfl
  · funext q
    by_cases hb : c.view.Below q p
    · rw [C.registry.dissolve_parent_below hb]
      exact hgone q hb
    · rw [C.registry.dissolve_parent hb]
      exact congrArg PcbT.pParent (hspared q fun h => hb h.1)
  · funext t
    by_cases hm : t ∈ c.staff p
    · obtain ⟨q, hb, ho⟩ := C.mem_staff.mp hm
      rw [C.registry.dissolve_home_below ho hb]
      exact P.freed C hb ho
    · rw [C.registry.dissolve_home fun q ho hb => hm (C.mem_staff.mpr ⟨q, hb, ho⟩)]
      exact (P.spared C hm).2
  · funext q
    by_cases hb : c.view.Below q p ∧ q ≠ root
    · rw [C.registry.dissolve_manager_below hb.1 hb.2]
      have hclear : c'.pcb q = {} := C'.tree.cleared hb.2 (P.gone C hb.1 hb.2)
      funext role
      change role.get (c'.pcb q) = none
      cases role <;> simp [hclear, Role.get]
    · rw [C.registry.dissolve_manager hb]
      funext role
      exact congrArg role.get (hspared q hb)

/-! ## Services -/

/-- The SSI serves the order, and sends TCB and PCB pointers. -/
abbrev Grants (D : Registry Pcb Tcb Role) (t : Tcb) (x : Order Pcb Tcb Role) (o : Option Value)
    (D' : Registry Pcb Tcb Role) : Prop :=
  D.Serves tcbPtr pcbPtr t x o D'

/-- A creation of a thread fails if there is no free one or no process for it. -/
theorem full_of_rawCreateThreadS {proc : Option Pcb} (C : k.kept.Rolls)
    (h : rawCreateThreadS k s proc = .ok (none, k')) :
    proc = none ∨ ∀ u, ¬ C.registry.Free u := by
  cases proc with
  | none => exact Or.inl rfl
  | some p =>
      right
      have hn : k.threadLinks.listNext .threadH = _ := C.threads.listNext .free
      have hempty : k.kept.view.threads .free = [] := by
        cases hq : k.kept.view.threads .free with
        | nil => rfl
        | cons u rest =>
            obtain ⟨⟨o₁, k₁⟩, hk₁, h⟩ := bind_eq_ok.mp h
            simp only [threadAlloc, hn, hq, containerOf, ThreadNode.container,
              List.head?_cons] at hk₁
            cases hk₁
            cases h
      rintro u ⟨hssi, hfree⟩
      have hm : u ∈ k.kept.view.threads .free := C.listed.mpr ⟨hssi, hfree⟩
      simp [hempty] at hm

/-- A creation of a process fails only if there is no free one or no parent. -/
theorem full_of_procAlloc {parent : Option Pcb} (C : k.kept.Rolls)
    (h : procAlloc k parent = .ok (none, k')) : parent = none ∨ ∀ p, C.registry.Alive p := by
  cases parent with
  | none => exact Or.inl rfl
  | some r =>
      right
      have hn : k.procLinks.listNext (.pSiblings root) = _ := C.procs.listNext .free
      have hempty : k.kept.view.procs .free = [] := by
        cases hq : k.kept.view.procs .free with
        | nil => rfl
        | cons p rest =>
            obtain ⟨o, ho, h⟩ := bind_eq_ok.mp h
            simp only [hn, hq, containerOf, List.head?_cons] at ho
            cases ho
            cases h
      intro p
      by_contra hp
      obtain ⟨hroot, hnone⟩ := not_or.mp hp
      have hm : p ∈ k.kept.view.procs .free := C.tree.free.mpr ⟨hroot, not_not.mp hnone⟩
      simp [hempty] at hm

theorem grants_createThread {t' : Option Tcb} (C : k.kept.Rolls) (C' : k'.kept.Rolls)
    (h : createThreadS k s t = .ok (t', k')) :
    Grants C.registry t .createThread (some (tcbPtr t')) C'.registry := by
  have halive : ∀ p ∈ (k.tcb t).tPcb, k.kept.view.Alive p :=
    fun p hp => C.tree.owner_alive (t := t) hp
  rcases Deeds.rawCreateThreadS C halive h with ⟨rfl, hsame⟩ | ⟨u, p, rfl, hp, ha, hu⟩
  · rw [registry_congr C C' (by rw [hsame]) (by rw [hsame])]
    exact .noThread (full_of_rawCreateThreadS C h)
  · rw [registry_hire C C' hu ha.1 ha.2.2]
    exact .createThread hp ⟨ha.1, ha.2.1⟩

theorem grants_createProcess {t' : Option Tcb} (C : k.kept.Rolls) (C' : k'.kept.Rolls)
    (h : createProcessS k s t = .ok (t', k')) :
    Grants C.registry t .createProcess (some (tcbPtr t')) C'.registry := by
  have hparent : ∀ p ∈ (k.tcb t).tPcb, k.kept.view.Alive p :=
    fun p hp => C.tree.owner_alive (t := t) hp
  obtain ⟨⟨q, k₁⟩, hk₁, h'⟩ := bind_eq_ok.mp h
  rcases Deeds.procAlloc C hparent hk₁ with ⟨rfl, rfl⟩ | ⟨p, r, rfl, hr, ha₁, h₁⟩
  · cases h'
    exact .noProcess ((full_of_procAlloc C hk₁).imp id Or.inl)
  · obtain ⟨⟨o', k₂⟩, hk₂, h''⟩ := bind_eq_ok.mp h'
    have C₁ : k₁.kept.Rolls := C.run (Deeds.one ha₁ h₁)
    have hdead : ¬ C.registry.Alive p := Deeds.not_alive ha₁.1 ha₁.2.1
    have D₁ := registry_adopt C C₁ h₁ hdead ha₁.2.2
    have halive : ∀ q ∈ some p, k₁.kept.view.Alive q := by
      rintro q hq
      cases hq
      exact Or.inr (by simp [h₁, Kept.view, Kept.after])
    rcases Deeds.rawCreateThreadS C₁ halive hk₂ with ⟨rfl, h₂⟩ | ⟨u, p', rfl, hp', ha₂, h₂⟩
    · -- the new process is deleted again
      cases h''
      have C₂ : k₂.kept.Rolls := by rwa [h₂]
      have hfull := (full_of_rawCreateThreadS C₁ hk₂).resolve_left (by simp)
      have hall := Kept.Staffed.allows_orphan C ha₁
      rw [← h₁, ← h₂] at hall
      obtain ⟨_, h₃⟩ := (Deeds.procDelete C₂ p).resolve_right fun hno => hno.1 hall
      have hclear : k.kept.pcb p = {} := C.tree.cleared ha₁.1 ha₁.2.1
      have hsame : C'.registry = C.registry := by
        apply registry_congr C C'
        · rw [h₃, h₂, h₁]
          simp [Kept.after, ← hclear]
        · rw [h₃, h₂, h₁]
          rfl
      rw [hsame]
      refine .noProcess (Or.inr (Or.inr fun u hu => hfull u ?_))
      rw [D₁]
      exact hu
    · cases h''
      cases hp'
      have hfree : C.registry.Free u := by
        rw [h₁] at ha₂
        exact ⟨ha₂.1, ha₂.2.1⟩
      have hnew : C'.registry = (C.registry.found p r hdead (Registry.alive_home hr)).employ u p
          hfree.1 (C.registry.alive_found hdead _) :=
        (registry_hire C₁ C' h₂ ha₂.1 ha₂.2.2).trans (Registry.employ_congr D₁)
      rw [hnew]
      exact .createProcess hr hdead hfree

theorem grants_terminateThread (C : k.kept.Rolls) (C' : k'.kept.Rolls)
    (h : service fuel k t msg .terminateThread = .ok (o, k')) :
    Grants C.registry t .terminateThread o C'.registry := by
  cases Served.of_service C h with
  | plain _ _ thread => exact absurd rfl thread
  | create scope => cases scope
  | @terminate p process silent pruned =>
      subst silent
      have hterm : (k.tcb t).tPcb.filter
          (fun p => k.threadLinks.listIsOnly (.tNext t) (.pThreads p)) = some p := process
      obtain ⟨hp, honly⟩ := Option.filter_eq_some_iff.mp hterm
      have hmem : ∀ {u}, u ∈ k.kept.view.threads (.of p) ↔ u ≠ .ssi ∧ (k.tcb u).tPcb = some p :=
        C.listed
      have hssi : ∀ {u}, (k.tcb u).tPcb = some p → u ≠ .ssi := by
        rintro u hu rfl
        rw [show (k.tcb .ssi).tPcb = none from C.ssi] at hu
        cases hu
      have hone := (C.threads.listIsOnly (hmem.mpr ⟨hssi hp, hp⟩)).mp honly
      rw [registry_pruned C C' pruned]
      refine .lastThread hp fun u hu => ?_
      have hu : u ∈ k.kept.view.threads (.of p) := hmem.mpr ⟨hssi hu, hu⟩
      rw [hone] at hu
      exact List.mem_singleton.mp hu
  | free _ process silent freed =>
      subst silent
      rw [registry_fire C C' freed]
      exact .terminateThread fun p hp => Kept.Staffed.sibling C process hp
  | appoint manager =>
      rw [Served.appointment_of_role rfl] at manager
      cases manager
  | engage request => cases request

theorem grants_rawSetmgr (role : Role) {m : Option Tcb} (C : k.kept.Rolls) (C' : k'.kept.Rolls)
    (h : rawSetmgr role.get role.set fuel k m t = .ok (o, k')) :
    Grants C.registry t (.appoint role m) o C'.registry := by
  unfold rawSetmgr at h
  split at h
  · cases h
    exact .noManager
  · rename_i m
    split at h
    · cases h
    · rename_i p hp
      split at h
      · rename_i m' hset
        obtain ⟨k₁, hk₁, h⟩ := bind_eq_ok.mp h
        cases h
        obtain ⟨p', hp', P⟩ := Deeds.terminateProcessS C hk₁
        obtain rfl := Option.some.inj (hp.symm.trans hp')
        rw [registry_pruned C C' P]
        refine .secondManager hp ?_
        rw [show C.registry.manager p role = some m' from hset]
        simp
      · rename_i hnone
        cases h
        rw [registry_manage C C' rfl (C.tree.owner_alive (t := t) hp)]
        exact .appoint hp hnone

/-- Every service serves the order that the request is. -/
theorem grants_of_service (C : k.kept.Rolls) (C' : k'.kept.Rolls)
    (h : service fuel k t msg q = .ok (o, k')) :
    Grants C.registry t (k.order msg q) o C'.registry := by
  have hsame : k'.kept.pcb = k.kept.pcb → k'.kept.counts.owner = k.kept.counts.owner →
      C'.registry = C.registry := registry_congr C C'
  cases q with
  | createProcess =>
      obtain ⟨_, _, h⟩ := bind_eq_ok.mp h
      obtain ⟨_, _, h⟩ := bind_eq_ok.mp h
      obtain ⟨_, hk, h⟩ := bind_eq_ok.mp h
      cases h
      exact grants_createProcess C C' hk
  | createThread =>
      obtain ⟨_, _, h⟩ := bind_eq_ok.mp h
      obtain ⟨_, _, h⟩ := bind_eq_ok.mp h
      obtain ⟨_, hk, h⟩ := bind_eq_ok.mp h
      cases h
      exact grants_createThread C C' hk
  | terminateProcess =>
      obtain ⟨_, hk, h⟩ := bind_eq_ok.mp h
      cases h
      obtain ⟨p, hp, P⟩ := Deeds.terminateProcessS C hk
      rw [registry_pruned C C' P]
      exact .terminateProcess hp
  | terminateThread => exact grants_terminateThread C C' h
  | setpgmmgr =>
      obtain ⟨v, hv, h⟩ := bind_eq_ok.mp h
      obtain ⟨m, hm, h⟩ := bind_eq_ok.mp h
      have harg := Kernel.argument_of_toTcb (bind_eq_ok.mpr ⟨v, hv, hm⟩)
      rw [Kernel.order, harg]
      exact grants_rawSetmgr .pgmMgr C C' h
  | settlbmgr =>
      obtain ⟨v, hv, h⟩ := bind_eq_ok.mp h
      obtain ⟨m, hm, h⟩ := bind_eq_ok.mp h
      have harg := Kernel.argument_of_toTcb (bind_eq_ok.mpr ⟨v, hv, hm⟩)
      rw [Kernel.order, harg]
      exact grants_rawSetmgr .tlbMgr C C' h
  | setsysmgr =>
      obtain ⟨v, hv, h⟩ := bind_eq_ok.mp h
      obtain ⟨m, hm, h⟩ := bind_eq_ok.mp h
      have harg := Kernel.argument_of_toTcb (bind_eq_ok.mpr ⟨v, hv, hm⟩)
      rw [Kernel.order, harg]
      exact grants_rawSetmgr .sysMgr C C' h
  | getProcessid =>
      obtain ⟨v, hv, h⟩ := bind_eq_ok.mp h
      obtain ⟨w, hw, h⟩ := bind_eq_ok.mp h
      cases h
      rw [hsame rfl rfl, Kernel.order, hv]
      cases v with
      | tcb u =>
          cases hw
          exact .homeOf
      | _ => exact .other
  | getParentprocid =>
      obtain ⟨v, hv, h⟩ := bind_eq_ok.mp h
      obtain ⟨w, hw, h⟩ := bind_eq_ok.mp h
      cases h
      rw [hsame rfl rfl, Kernel.order, hv]
      cases v with
      | pcb p =>
          cases hw
          exact .parentOf
      | _ => exact .other
  | doIo =>
      cases Served.of_service C h with
      | plain same =>
          rw [hsame (by rw [same]) (by rw [same])]
          exact .other
      | engage _ _ engaged =>
          rw [hsame (by rw [engaged]; rfl) (by rw [engaged]; rfl)]
          exact .other
      | create scope => cases scope
      | free request => cases request
      | terminate process => simp [Kernel.terminated, Request.role] at process
      | appoint manager =>
          rw [Served.appointment_of_role rfl] at manager
          cases manager
  | getErrno | getCputime | waitForClock =>
      cases h
      rw [hsame rfl rfl]
      exact .other
  | getMythreadid =>
      obtain ⟨_, _, h⟩ := bind_eq_ok.mp h
      cases h
      rw [hsame rfl rfl]
      exact .other

/-! ## Runs -/

/-- A reply is one message. -/
theorem replies_msgsend {caller : State} {v : Value} (F : k.Filed)
    (hc : k.currentThread = some .ssi) (h : msgsend k caller t v = .ok k') :
    replies k'.history = replies k.history ++ [(t, v)] := by
  obtain ⟨⟨w, k₂⟩, hk₂, h⟩ := bind_eq_ok.mp h
  cases h
  let k₁ : Kernel := { k.enter with
    sysbkOldarea := { caller with a1 := SYS_SEND, a2 := .tcb t, a3 := v, a4 := null } }
  have F₁ : k₁.Filed := F.congr rfl
  have hsend : send k₁ t (some .ssi) v = .ok (w, k₂) := by
    rw [← hc]
    exact hk₂
  change replies k₂.history = _
  cases F₁.delivery hsend with
  | direct _ _ resumed =>
      obtain ⟨_, _, _, hhist⟩ := resumeThread_effect k₁ t (some .ssi) v
      rw [resumed, Kernel.record, hhist]
      simp [replies, k₁, Kernel.enter]
  | queued a signed _ _ rest =>
      cases signed
      rw [rest]
      simp [replies, k₁, Kernel.enter]
  | failed lost =>
      rw [lost]
      simp [replies, Kernel.record, k₁, Kernel.enter]

/-- The SSI serves one order in a step. -/
theorem grants_step (C : k.kept.Rolls) (C' : k'.kept.Rolls) (F : k.Filed)
    (ha : k.applicant = some t) (hq : k.request = some q) (h : step fuel k .ssi = .ok k') :
    ∃ o, Grants C.registry t (k.order k.ssiMsg q) o C'.registry ∧
      replies k'.history = replies k.history ++ o.toList.map (t, ·) := by
  obtain ⟨hc, k₁, o, hk₁, hrest⟩ := ssi_step ha hq h
  have Q : Quiet { k with ssiPoint := .receiving } k₁ := .chores (.service hk₁)
  have F₀ : ({ k with ssiPoint := .receiving } : Kernel).Filed := F.congr rfl
  have hc₁ : k₁.currentThread = some .ssi :=
    (congrArg Processor.currentThread (Kept.Spares.chores (.service hk₁)).processor :).trans hc
  have hreplies : replies k₁.history = replies k.history := replies_of_mail Q.mail
  have hkept : k'.kept = k₁.kept := by
    rcases hrest with ⟨_, rfl⟩ | ⟨_, k₂, _, hsend, rfl⟩
    · rfl
    · exact (Frame.msgsend hsend :)
  have C₀ : Kernel.kept { k with ssiPoint := .receiving } |>.Rolls := C
  have C₁ : k₁.kept.Rolls := hkept ▸ C'
  refine ⟨o, ?_, ?_⟩
  · rw [registry_congr C₁ C' (by rw [hkept]) (by rw [hkept])]
    exact grants_of_service C₀ C₁ hk₁
  · rcases hrest with ⟨rfl, rfl⟩ | ⟨reply, k₂, rfl, hsend, rfl⟩
    · rw [hreplies]
      exact (List.append_nil _).symm
    · change replies k₂.history = _
      rw [← hreplies]
      exact replies_msgsend (F₀.mails Q.mails) hc₁ hsend

/-- A step is a transaction, or the registry stays as it is. -/
theorem journal_step {D : Registry Pcb Tcb Role} {g : Journal} (C : k.kept.Rolls)
    (C' : k'.kept.Rolls) (F : k.Filed) (run : Run (Registry.Step tcbPtr pcbPtr) D g C.registry)
    (h : step fuel k e = .ok k') :
    Run (Registry.Step tcbPtr pcbPtr) D (g.after k e k') C'.registry := by
  rcases step_served C h with ⟨hs, hpcb, _, _, hcounts⟩ | ⟨t, q, _, rfl, _, ha, hq, _⟩
  · have howner : k'.kept.counts.owner = k.kept.counts.owner := (congrArg Counts.owner hcounts :)
    have hafter : g.after k e k' = g := by
      unfold Journal.after
      split
      · rename_i hq
        rw [request_of_idle hs] at hq
        cases hq
      · rfl
    rw [hafter, registry_congr C C' hpcb howner]
    exact run
  · obtain ⟨o, hgrants, hreplies⟩ := grants_step C C' F ha hq h
    have hafter : g.after k .ssi k' =
        g ++ [⟨t, k.order k.ssiMsg q, (replies k'.history).drop (replies k.history).length⟩] := by
      simp [Journal.after, ha, hq]
    rw [hafter]
    refine run.snoc ⟨o, hgrants, ?_⟩
    simp [hreplies]

theorem registry_boot {hw : Hardware} (hb : boot hw = .ok k) (C : k.kept.Rolls) :
    C.registry = .initial root .ssi (.thread 0) (by simp) := by
  obtain ⟨k', hk', R⟩ := boot_ok hw
  obtain rfl := Except.ok.inj (hb.symm.trans hk')
  have hpcb : ∀ p, k.pcb p = {} := by
    intro p
    rw [← R.pcb]
    rfl
  apply Registry.ext
  · rfl
  · rfl
  · funext p
    exact congrArg PcbT.pParent (hpcb p)
  · funext t
    change (k.tcb t).tPcb = Function.update (fun _ => none) (.thread 0) (some root) t
    rw [← R.tcb]
    cases t with
    | ssi => rfl
    | thread i =>
        by_cases hi : i = 0
        · subst hi
          rfl
        · simp [bootedView, View.create, View.addCount, View.enqueue, View.modTcb, View.hire,
            bootView, hi]
  · funext p role
    change role.get (k.pcb p) = none
    rw [hpcb]
    cases role <;> rfl

end Registration

/-- In every run in which the SSI does not terminate itself, the requests that it serves and the
replies that it sends are, in this order, transactions of one registry, which has at first one
thread of the root process. What the kernel lists is what the transactions have left in it. -/
theorem registry_kept {hw : Hardware} {k₀ k : Kernel} {g : Journal} {es : List Event}
    (hb : boot hw = .ok k₀) (run : Run (Journaled NotSelf) (k₀, []) es (k, g)) :
    ∃ D, Run (Registry.Step tcbPtr pcbPtr) (.initial root .ssi (.thread 0) (by simp)) g D ∧
      (∀ p, (k.pcb p).pParent = D.parent p) ∧ (∀ t, (k.tcb t).tPcb = D.home t) ∧
      ∀ p role, role.get (k.pcb p) = D.manager p role := by
  have F₀ : k₀.Filed := (Good.boot hb).refines.msgs
  have C₀ : k₀.kept.Rolls := (Good.boot hb).rolls
  have hboth : k.Filed ∧ ∃ C : k.kept.Rolls,
      Run (Registry.Step tcbPtr pcbPtr) C₀.registry g C.registry := by
    apply run.invariant (P := fun s => s.1.Filed ∧ ∃ C : s.1.kept.Rolls,
      Run (Registry.Step tcbPtr pcbPtr) C₀.registry s.2 C.registry) _ ⟨F₀, C₀, .nil⟩
    rintro s e s' ⟨F, C, run⟩ ⟨⟨hn, _, h⟩, hg⟩
    have C' := C.step hn h
    rw [hg]
    exact ⟨F.mails (Mails.step h), C', Registration.journal_step C C' F run h⟩
  obtain ⟨_, C, run'⟩ := hboth
  rw [Registration.registry_boot hb] at run'
  exact ⟨C.registry, run', fun _ => rfl, fun _ => rfl, fun _ _ => rfl⟩

/-- The first thread creates another one and makes it the system call manager. -/
theorem registry_kept_sample : ∃ (k₀ k : Kernel) (g : Journal), boot Sample.hardware = .ok k₀ ∧
    Run (Journaled NotSelf) (k₀, []) Sample.manager (k, g) ∧
    g = [⟨.thread 0, .createThread, [(.thread 0, .tcb (.thread 1))]⟩,
      ⟨.thread 0, .appoint .sysMgr (some (.thread 1)), [(.thread 0, .tcb (.thread 1))]⟩] ∧
    ∃ D, Run (Registry.Step tcbPtr pcbPtr) (.initial root .ssi (.thread 0) (by simp)) g D ∧
      D.home (.thread 1) = some root ∧ D.manager root .sysMgr = some (.thread 1) := by
  let journal : Journal := [⟨.thread 0, .createThread, [(.thread 0, .tcb (.thread 1))]⟩,
    ⟨.thread 0, .appoint .sysMgr (some (.thread 1)), [(.thread 0, .tcb (.thread 1))]⟩]
  let check : Kernel × Journal → Bool := fun s => s.2 = journal ∧
    (s.1.tcb (.thread 1)).tPcb = some root ∧ (s.1.pcb root).sysMgr = some (.thread 1)
  have h : ((boot Sample.hardware).toOption.bind fun k =>
      (proceedWith (fun k _ e => NotSelf k e) Journal.after 100 (k, []) Sample.manager).map
        fun s => (k, s)).any (fun r => check r.2) = true := by
    decide +kernel
  obtain ⟨⟨k₀, k, g⟩, hr, hm⟩ := Option.any_eq_true _ _ |>.mp h
  obtain ⟨k₁, hb, hr⟩ := Option.bind_eq_some_iff.mp hr
  obtain ⟨s, hs, hks⟩ := Option.map_eq_some_iff.mp hr
  cases hks
  have hb := exec_eq_ok hb
  have run : Run (Journaled NotSelf) (k₀, []) Sample.manager (k, g) :=
    (run_of_proceedWith hs).mono_of_mem fun _ _ _ _ ⟨hg, hstep, hafter⟩ => ⟨⟨hg, hstep⟩, hafter⟩
  obtain ⟨hg, howner, hmanager⟩ := of_decide_eq_true hm
  obtain ⟨D, run', _, hhome, hrole⟩ := registry_kept hb run
  exact ⟨k₀, k, g, hb, run, hg, D, run', (hhome _).symm.trans howner,
    (hrole root .sysMgr).symm.trans hmanager⟩

end MikaBoo
