import MikaBoo.Abstract.Census

/-!
# What survives a service

The threads that a request frees and the processes that it deletes are known
before it is served. All others keep their owner, their incarnation and their managers.
-/

namespace MikaBoo

open Intrusive Fuel Transition Forest

/-- The process that a step of a termination deletes. -/
def Reaping.orphan? : Reaping → Option Pcb
  | .kill _ _ => none
  | .orphan p => some p

/-- The processes that the termination of `p` deletes: `p` and its descendants but the root. -/
def Kept.subtree (c : Kept) (p : Pcb) : List Pcb :=
  (c.view.script MAXPROC p).filterMap Reaping.orphan?

/-- The processes that a request for `t` deletes. -/
def Kernel.deleted (k : Kernel) (t : Tcb) (msg : Value) (q : Request) : List Pcb :=
  (k.terminated t msg q).elim [] k.kept.subtree

/-- The deed changes the owner of the thread. -/
def Deed.moves (t : Tcb) : Deed → Prop
  | .hire u _ | .fire u => u = t
  | _ => False

/-- The deed sets managers. -/
def Deed.manages : Deed → Prop
  | .manage .. => True
  | _ => False

namespace Kept

variable {c c' : Kept} {ds : List Deed} {t m : Tcb} {p q : Pcb} {role : Role}

theorem Rolls.mem_subtree (C : c.Rolls) : q ∈ c.subtree p ↔ c.view.Below q p ∧ q ≠ root := by
  rw [subtree, List.mem_filterMap, ← orphan_mem_script C.tree (C.tree.shallow p)]
  constructor
  · rintro ⟨e, he, hv⟩
    cases e with
    | kill u q => cases hv
    | orphan q =>
        cases hv
        exact he
  · exact fun h => ⟨_, h, rfl⟩

/-- The threads that are not free are the SSI and those with a process. -/
theorem Rolls.live_iff (C : c.Rolls) :
    t ∉ c.view.threads .free ↔ t = .ssi ∨ c.counts.owner t ≠ none := by
  rw [C.listed, not_and_or, not_not]
  rfl

theorem owner_of_run (run : Run Kept.Step c ds c') (h : ∀ d ∈ ds, ¬ d.moves t) :
    c'.counts.owner t = c.counts.owner t := by
  induction run with
  | nil => rfl
  | @snoc c₁ c' es d _ last ih =>
      obtain ⟨_, rfl⟩ := last
      rw [← ih fun d hd => h d (by simp [hd])]
      have hd := h d (by simp)
      cases d with
      | hire u _ | fire u =>
          have hu : t ≠ u := fun h => hd h.symm
          simp [Kept.after, hu]
      | _ => rfl

/-- Only an appointment makes a thread a manager. -/
theorem manager_of_run (run : Run Kept.Step c ds c') (h : ∀ d ∈ ds, ¬ d.manages)
    (hm : role.get (c'.pcb p) = some m) : role.get (c.pcb p) = some m := by
  induction run with
  | nil => exact hm
  | @snoc c₁ c' es d _ last ih =>
      obtain ⟨_, rfl⟩ := last
      refine ih (fun d hd => h d (by simp [hd])) ?_
      have hd := h d (by simp)
      cases d with
      | manage => exact absurd trivial hd
      | adopt q r =>
          by_cases hq : p = q
          · subst hq
            cases role <;> simpa [Kept.after, Role.get] using hm
          · simpa [Kept.after, hq] using hm
      | orphan q =>
          by_cases hq : p = q
          · subst hq
            cases role <;> simp [Kept.after, Role.get] at hm
          · simpa [Kept.after, hq] using hm
      | _ => exact hm

/-- A thread that is not free is not created. -/
theorem spared_of_creates {c₀ : Kept} (run : Run Kept.Step c ds c')
    (hds : ∀ d ∈ ds, Deeds.Creates c₀ d) (hm : m = .ssi ∨ c.counts.owner m ≠ none) :
    c'.incarnation m = c.incarnation m ∧ c'.counts.owner m = c.counts.owner m := by
  induction run with
  | nil => exact ⟨rfl, rfl⟩
  | @snoc c₁ c' es d _ last ih =>
      obtain ⟨ha, rfl⟩ := last
      obtain ⟨hi, ho⟩ := ih fun d hd => hds d (by simp [hd])
      rw [← hi, ← ho]
      have hd := hds d (by simp)
      cases d with
      | hire u _ =>
          have hne : m ≠ u := by
            rintro rfl
            rcases hm with hssi | hm
            · exact ha.1 hssi
            · exact hm (ho.symm.trans ha.2.1)
          simp [Kept.after, hne]
      | adopt | orphan => exact ⟨rfl, rfl⟩
      | _ => exact hd.elim

/-- The root is never deleted. -/
theorem Rolls.root_of_run (C : c.Rolls) (run : Run Kept.Step c ds c')
    (hs : ∀ d ∈ ds, d.shrinks = true) : c'.pcb root = c.pcb root := by
  induction run with
  | nil => rfl
  | @snoc c₁ c' es d run last ih =>
      obtain ⟨ha, rfl⟩ := last
      rw [← ih fun d hd => hs d (by simp [hd])]
      have hd := hs d (by simp)
      cases d with
      | fire u => rfl
      | orphan q =>
          have hq : root ≠ q := by
            rintro rfl
            exact ha.1 (C.run run).tree.root_parent
          simp [Kept.after, hq]
      | _ => cases hd

namespace Pruned

theorem owner_of_not_fired (run : Run Kept.Step c ds c') (hds : ∀ d ∈ ds, d.Under c p)
    (hm : .fire m ∉ ds) : c'.counts.owner m = c.counts.owner m := by
  refine owner_of_run run fun d hd hmoves => ?_
  have hu := hds d hd
  cases d with
  | fire u =>
      subst hmoves
      exact hm hd
  | hire u _ => exact hu
  | _ => exact hmoves

/-- The threads of other processes are as before. -/
theorem spared (h : Pruned c p c') (C : c.Rolls) (hm : m ∉ c.staff p) :
    c'.incarnation m = c.incarnation m ∧ c'.counts.owner m = c.counts.owner m := by
  obtain ⟨ds, run, hds⟩ := h.run
  have hfire : .fire m ∉ ds := fun hf => hm (C.mem_staff.mpr (hds _ hf))
  refine ⟨?_, owner_of_not_fired run hds hfire⟩
  rw [incarnation_of_run run, List.count_eq_zero_of_not_mem hfire, Nat.add_zero]

theorem killed (h : Pruned c p c') (C : c.Rolls) (hm : m ∈ c.staff p) :
    c'.counts.owner m = none ∧ c.incarnation m < c'.incarnation m := by
  obtain ⟨q, hq, ho⟩ := C.mem_staff.mp hm
  have hfree := h.freed C hq ho
  refine ⟨hfree, ?_⟩
  obtain ⟨ds, run, hds⟩ := h.run
  have hfire : .fire m ∈ ds := by
    by_contra hf
    have hsame := owner_of_not_fired run hds hf
    rw [hfree, ho] at hsame
    cases hsame
  rw [incarnation_of_run run]
  exact Nat.lt_add_of_pos_right (List.count_pos_iff.mpr hfire)

/-- The processes of the subtree are deleted. -/
theorem deleted_pcb (h : Pruned c p c') (C : c.Rolls) (hq : q ∈ c.subtree p) : c'.pcb q = {} := by
  obtain ⟨hb, hroot⟩ := C.mem_subtree.mp hq
  exact (h.rolls C).tree.cleared hroot (h.gone C hb hroot)

/-- The other processes are as before. -/
theorem spared_pcb (h : Pruned c p c') (C : c.Rolls) (hq : q ∉ c.subtree p) :
    c'.pcb q = c.pcb q := by
  obtain ⟨ds, run, hds⟩ := h.run
  by_cases hroot : q = root
  · subst hroot
    exact C.root_of_run run fun d hd => shrinks_of_under (hds d hd)
  · refine pcb_of_run run fun d hd hconc => hq (C.mem_subtree.mpr ?_)
    have hu := hds d hd
    cases d with
    | orphan r =>
        subst hconc
        exact ⟨hu, hroot⟩
    | _ => first | exact hu.elim | exact hconc.elim

end Pruned

end Kept

namespace Served

variable {k k' : Kernel} {t m : Tcb} {msg : Value} {q : Request} {r : Option Value} {p : Pcb}
  {role : Role}

/-- A request that sets no manager and terminates nothing frees nobody. -/
theorem terminated_of_scope (hq : q.scope = .create) : k.terminated t msg q = none := by
  cases q <;> first | exact absurd hq (by decide) | simp [Kernel.terminated, Request.role]

theorem appointment_of_role (hq : q.role = none) : k.appointment t msg q = none := by
  unfold Kernel.appointment
  rw [hq]
  split <;> simp_all

theorem appointment_some (h : k.appointment t msg q = some (p, role, m)) :
    (k.tcb t).tPcb = some p ∧ q.role = some role ∧ k.argument msg = some m ∧
      role.get (k.pcb p) = none := by
  unfold Kernel.appointment at h
  split at h
  · split at h
    · cases h
      exact ⟨by assumption, by assumption, by assumption, by assumption⟩
    · cases h
  · cases h

/-- A request that appoints a manager terminates nothing. -/
theorem terminated_of_appointment (h : k.appointment t msg q = some (p, role, m)) :
    k.terminated t msg q = none ∧ q ≠ .terminateThread := by
  obtain ⟨hp, hrole, _, hnone⟩ := appointment_some h
  cases q <;> cases hrole
  all_goals exact ⟨by simp [Kernel.terminated, hp, Request.role, hnone], (by rintro ⟨⟩)⟩

/-- What the appointment of a manager does. -/
theorem appointed (S : Served k t msg q r k') (h : k.appointment t msg q = some (p, role, m)) :
    k'.kept = k.kept.after (.manage p (role.set (k.pcb p) (some m))) := by
  obtain ⟨hterm, hq⟩ := terminated_of_appointment h
  cases S with
  | plain _ _ _ manager => simp [manager] at h
  | create scope =>
      have hrole : q.role = none := by cases q <;> first | rfl | cases scope
      simp [appointment_of_role hrole] at h
  | terminate process => simp [hterm] at process
  | free request => exact absurd request hq
  | appoint manager _ set =>
      rw [manager] at h
      cases h
      exact set
  | engage request =>
      subst request
      rw [appointment_of_role rfl] at h
      cases h

theorem get_set (role role' : Role) (d : PcbT) (m : Option Tcb) :
    role.get (role'.set d m) = if role = role' then m else role.get d := by
  cases role <;> cases role' <;> rfl

/-- A thread that is not among the victims lives on. -/
theorem spared (S : Served k t msg q r k') (C : k.kept.Rolls) (hm : m ∉ k.victims t msg q)
    (hlive : m = .ssi ∨ k.kept.counts.owner m ≠ none) :
    k'.kept.incarnation m = k.kept.incarnation m ∧
      k'.kept.counts.owner m = k.kept.counts.owner m := by
  cases S with
  | plain same => exact ⟨by rw [same], by rw [same]⟩
  | create _ run creates => exact Kept.spared_of_creates run creates hlive
  | terminate process _ pruned =>
      refine pruned.spared C ?_
      simpa [Kernel.victims, process] using hm
  | free request process _ freed =>
      subst request
      have hne : m ≠ t := by simpa [Kernel.victims, process] using hm
      rw [freed]
      simp [Kept.after, hne]
  | appoint _ _ set =>
      rw [set]
      exact ⟨rfl, rfl⟩
  | engage _ _ engaged =>
      rw [engaged]
      exact ⟨rfl, rfl⟩

/-- The victims are freed. -/
theorem killed (S : Served k t msg q r k') (C : k.kept.Rolls)
    (hself : q = .terminateThread → t ≠ .ssi) (hm : m ∈ k.victims t msg q) :
    m ≠ .ssi ∧ k'.kept.counts.owner m = none ∧ k.kept.incarnation m < k'.kept.incarnation m := by
  have hnone : k.terminated t msg q = none → q ≠ .terminateThread → m ∉ k.victims t msg q := by
    intro hp hq
    simp [Kernel.victims, hp, hq]
  cases S with
  | plain _ process thread => exact absurd hm (hnone process thread)
  | create scope =>
      refine absurd hm (hnone (terminated_of_scope scope) ?_)
      rintro rfl
      cases scope
  | @terminate p process _ pruned =>
      have hm' : m ∈ k.kept.staff p := by simpa [Kernel.victims, process] using hm
      obtain ⟨hfree, hdead⟩ := pruned.killed C hm'
      refine ⟨?_, hfree, hdead⟩
      rintro rfl
      obtain ⟨_, _, ho⟩ := C.mem_staff.mp hm'
      rw [C.ssi] at ho
      cases ho
  | free request process _ freed =>
      subst request
      obtain rfl : m = t := by simpa [Kernel.victims, process] using hm
      rw [freed]
      exact ⟨hself rfl, by simp [Kept.after], by simp [Kept.after]⟩
  | appoint manager =>
      obtain ⟨hterm, hq⟩ := terminated_of_appointment manager
      exact absurd hm (hnone hterm hq)
  | engage request =>
      refine absurd hm (hnone ?_ ?_)
      · simp [Kernel.terminated, request, Request.role]
      · simp [request]

/-- A manager was the manager before, or the request appoints it. -/
theorem manager (S : Served k t msg q r k') (hm : role.get (k'.pcb p) = some m) :
    role.get (k.pcb p) = some m ∨ k.appointment t msg q = some (p, role, m) := by
  have hpcb : k'.kept.pcb = k.kept.pcb → role.get (k.pcb p) = some m := fun h => by
    rwa [← show k'.pcb = k.pcb from h]
  cases S with
  | plain same => exact Or.inl (hpcb (by rw [same]))
  | create _ run creates =>
      refine Or.inl (Kept.manager_of_run run (fun d hd hman => ?_) hm)
      have hc := creates d hd
      cases d <;> first | exact hman | exact hc
  | terminate _ _ pruned =>
      obtain ⟨ds, run, hds⟩ := pruned.run
      refine Or.inl (Kept.manager_of_run run (fun d hd hman => ?_) hm)
      have hu := hds d hd
      cases d <;> first | exact hman | exact hu
  | free _ _ _ freed => exact Or.inl (hpcb (by rw [freed]; rfl))
  | @appoint p' role' m' manager _ set =>
      have hk : k'.pcb = Function.update k.pcb p' (role'.set (k.pcb p') (some m')) :=
        congrArg Kept.pcb set
      rw [hk] at hm
      by_cases hp : p = p'
      · subst hp
        rw [Function.update_self, get_set] at hm
        split at hm
        · subst role
          cases hm
          exact Or.inr manager
        · exact Or.inl hm
      · rw [Function.update_of_ne hp] at hm
        exact Or.inl hm
  | engage _ _ engaged => exact Or.inl (hpcb (by rw [engaged]; rfl))

/-- The processes that are not deleted keep their managers. -/
theorem manager_kept (S : Served k t msg q r k') (C : k.kept.Rolls) (hp : k.kept.view.Alive p)
    (hdel : p ∉ k.deleted t msg q) (hm : role.get (k.pcb p) = some m) :
    role.get (k'.pcb p) = some m := by
  have hpcb : k'.kept.pcb p = k.kept.pcb p → role.get (k'.pcb p) = some m := fun h => by
    rwa [show k'.pcb p = k.pcb p from h]
  cases S with
  | plain same => exact hpcb (by rw [same])
  | create _ run creates =>
      refine hpcb (Kept.pcb_of_run run fun d hd hconc => ?_)
      have hc := creates d hd
      cases d with
      | adopt _ _ | orphan _ =>
          subst hconc
          exact hc hp
      | manage => exact hc
      | _ => exact hconc
  | @terminate p' process _ pruned =>
      refine hpcb (pruned.spared_pcb C ?_)
      simpa [Kernel.deleted, process] using hdel
  | free _ _ _ freed => exact hpcb (by rw [freed]; rfl)
  | @appoint p' role' m' manager _ set =>
      have hk : k'.pcb = Function.update k.pcb p' (role'.set (k.pcb p') (some m')) :=
        congrArg Kept.pcb set
      rw [hk]
      by_cases hp' : p = p'
      · subst hp'
        rw [Function.update_self, get_set, if_neg]
        · exact hm
        · rintro rfl
          obtain ⟨_, _, _, hnone⟩ := appointment_some manager
          rw [hnone] at hm
          cases hm
      · rwa [Function.update_of_ne hp']
  | engage _ _ engaged => exact hpcb (by rw [engaged]; rfl)

/-- A request that terminates a process gets no reply. -/
theorem pruned (S : Served k t msg q r k') (hterm : k.terminated t msg q = some p) :
    r = none ∧ Kept.Pruned k.kept p k'.kept := by
  cases S with
  | plain _ process => simp [hterm] at process
  | create scope => simp [terminated_of_scope scope] at hterm
  | terminate process silent pruned =>
      obtain rfl := Option.some.inj (hterm.symm.trans process)
      exact ⟨silent, pruned⟩
  | free _ process => simp [hterm] at process
  | appoint manager => simp [terminated_of_appointment manager] at hterm
  | engage request =>
      subst request
      simp [Kernel.terminated, Request.role] at hterm

/-- The deleted processes lose their managers. -/
theorem deleted_pcb (S : Served k t msg q r k') (C : k.kept.Rolls) (hdel : p ∈ k.deleted t msg q) :
    k'.pcb p = {} := by
  unfold Kernel.deleted at hdel
  cases hterm : k.terminated t msg q with
  | none => simp [hterm] at hdel
  | some p' =>
      rw [hterm] at hdel
      exact (S.pruned hterm).2.deleted_pcb C hdel

/-- Only DO_IO fills a slot. -/
theorem slots (S : Served k t msg q r k') (hq : q ≠ .doIo) :
    k'.softBlockedThread = k.softBlockedThread := by
  have hkept : ∀ {c : Kept}, k'.kept = c → c.counts.softBlockedThread = k.softBlockedThread →
      k'.softBlockedThread = k.softBlockedThread := by
    rintro _ rfl h
    exact h
  cases S with
  | plain same => exact hkept same rfl
  | create _ run creates =>
      refine (Kept.soft_of_run run fun d hd => ?_).2
      have hc := creates d hd
      cases d <;> first | rfl | exact hc.elim
  | terminate _ _ pruned =>
      obtain ⟨ds, run, hds⟩ := pruned.run
      refine (Kept.soft_of_run run fun d hd => ?_).2
      have hu := hds d hd
      cases d <;> first | rfl | exact hu.elim
  | free _ _ _ freed => exact hkept freed rfl
  | appoint _ _ set => exact hkept set rfl
  | engage request => exact absurd request hq

end Served

/-- A step serves a request, or leaves processes, managers, owners and incarnations alone. -/
theorem step_served {k k' : Kernel} {e : Event} {fuel : Nat} (C : k.kept.Rolls)
    (h : step fuel k e = .ok k') :
    (k.serves e = false ∧ k'.pcb = k.pcb ∧ k'.procLinks = k.procLinks ∧
      k'.incarnation = k.incarnation ∧
      k'.counts = { k.counts with softBlockedThread := (k.onEntry e).counts.softBlockedThread }) ∨
    ∃ t q r, e = .ssi ∧ k.serves e = true ∧ k.applicant = some t ∧ k.request = some q ∧
      Served k t k.ssiMsg q r k' := by
  obtain ⟨⟨x, k₁⟩, hk₁, h⟩ := bind_eq_ok.mp h
  rcases entry_served C hk₁ with ⟨hs, _, hk⟩ | ⟨t, q, r, he, ha, hq, hx, S⟩
  · have hl := Frame.leave h
    obtain ⟨hpcb, hprocs, hinc, hcounts⟩ := k.onEntry_lists e
    rw [← hk] at hpcb hprocs hinc hcounts
    have hpcb' : k'.pcb = k₁.pcb := (congrArg Kept.pcb hl :)
    have hprocs' : k'.procLinks = k₁.procLinks := (congrArg Kept.procLinks hl :)
    have hinc' : k'.incarnation = k₁.incarnation := (congrArg Kept.incarnation hl :)
    have hcounts' : k'.counts = k₁.counts := (congrArg Kept.counts hl :)
    refine Or.inl ⟨hs, hpcb'.trans hpcb, hprocs'.trans hprocs, hinc'.trans hinc, ?_⟩
    rw [hcounts', ← hk]
    exact hcounts
  · cases x with
    | schedule => cases hx
    | resume s =>
        cases h
        have hs : k.serves e = true := by
          subst he
          simp [Kernel.serves, point_of_request hq]
        exact Or.inr ⟨t, q, r, he, hs, ha, hq, S.congr rfl⟩

end MikaBoo
