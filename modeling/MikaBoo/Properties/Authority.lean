import MikaBoo.Abstract.Casualties
import MikaBoo.Abstract.Survivors
import MikaBoo.Properties.Messages

/-!
# Authority over processes

Processes have no rights but the place in the tree. The SSI creates and terminates on
behalf of the process of its applicant, and only that process and its descendants are concerned.
-/

namespace MikaBoo

open Intrusive Fuel Transition Forest

/-- The process of the thread that the SSI serves in the step. -/
def Kernel.petitioner (k : Kernel) (e : Event) : Option Pcb :=
  match e, k.applicant, k.request with
  | .ssi, some t, some _ => (k.tcb t).tPcb
  | _, _, _ => none

/-- What a step for a thread of the process `r` may do to processes and threads. -/
structure Lawful (k : Kernel) (r : Option Pcb) (k' : Kernel) : Prop where
  parent : ∀ p, k.view.Alive p → k'.view.Alive p → (k'.pcb p).pParent = (k.pcb p).pParent
  managers : ∀ p, k.view.Alive p → k'.view.Alive p → r ≠ some p → k'.pcb p = k.pcb p
  owner : ∀ t, k.Live t → k'.Live t →
    (k'.tcb t).tPcb = (k.tcb t).tPcb ∧ k'.incarnation t = k.incarnation t
  deleted : ∀ p, k.view.Alive p → ¬ k'.view.Alive p → ∃ q ∈ r, k.view.Below p q
  freed : ∀ t, k.Live t → ¬ k'.Live t → ∃ q ∈ r, ∃ p, (k.tcb t).tPcb = some p ∧ k.view.Below p q
  founded : ∀ p, ¬ k.view.Alive p → k'.view.Alive p → (k'.pcb p).pParent = r
  hired : ∀ t, ¬ k.Live t → k'.Live t →
    (k'.tcb t).tPcb = r ∨ ∃ p, (k'.tcb t).tPcb = some p ∧ ¬ k.view.Alive p

/-- The process `p`, its threads and the line of its ancestors are as they were. -/
structure Untouched (p : Pcb) (k k' : Kernel) : Prop where
  alive : k'.view.Alive p
  pcb : k'.pcb p = k.pcb p
  staff : ∀ t, (k'.tcb t).tPcb = some p ↔ (k.tcb t).tPcb = some p
  incarnation : ∀ t, (k.tcb t).tPcb = some p → k'.incarnation t = k.incarnation t
  line : ∀ q, k'.view.Below p q ↔ k.view.Below p q

/-- Neither the process `p` nor an ancestor of it is served. -/
def Spared (p : Pcb) (k : Kernel) (e : Event) : Prop :=
  ∀ q ∈ k.petitioner e, ¬ k.view.Below p q

namespace Authority

variable {k k₁ k' : Kernel} {c c' : Kept} {ds : List Deed} {e : Event} {fuel : Nat} {t : Tcb}
  {p : Pcb} {r : Option Pcb} {msg : Value} {q : Request} {o : Option Value} {s : State}

/-! ## Creations -/

theorem alive_congr (h : c'.pcb p = c.pcb p) : c'.view.Alive p ↔ c.view.Alive p := by
  change p = root ∨ (c'.pcb p).pParent ≠ none ↔ p = root ∨ (c.pcb p).pParent ≠ none
  rw [h]

theorem alive_of_pcb (h : k'.pcb p = k.pcb p) : k'.view.Alive p ↔ k.view.Alive p :=
  @alive_congr k.kept k'.kept p h

/-- The processes that a creation founds are children of the process that asks for it. -/
theorem founded_of_run (run : Run Kept.Step c ds c') (hds : ∀ d ∈ ds, Deeds.Founds c r d)
    (hp : c'.view.Alive p) : c.view.Alive p ∨ (c'.pcb p).pParent = r := by
  induction run with
  | nil => exact Or.inl hp
  | @snoc c₁ c' es d _ last ih =>
      obtain ⟨_, rfl⟩ := last
      have ih := ih fun d hd => hds d (by simp [hd])
      have hd := hds d (by simp)
      cases d with
      | adopt p' parent =>
          by_cases hpp : p = p'
          · subst hpp
            right
            simp [Kept.after, hd.1]
          · have hpcb : (c₁.after (.adopt p' parent)).pcb p = c₁.pcb p := by
              simp [Kept.after, hpp]
            rw [hpcb]
            exact ih ((alive_congr hpcb).mp hp)
      | orphan p' =>
          by_cases hpp : p = p'
          · subst hpp
            refine Or.inl (hp.elim Or.inl fun h => absurd ?_ h)
            simp [Kept.after, Kept.view]
          · have hpcb : (c₁.after (.orphan p')).pcb p = c₁.pcb p := by
              simp [Kept.after, hpp]
            rw [hpcb]
            exact ih ((alive_congr hpcb).mp hp)
      | hire => exact ih hp
      | _ => exact hd.elim

/-- The threads that a creation hires belong to the process that asks for it or to a new one. -/
theorem hired_of_run (run : Run Kept.Step c ds c') (hds : ∀ d ∈ ds, Deeds.Founds c r d) (t : Tcb) :
    c'.counts.owner t = c.counts.owner t ∨
      c'.counts.owner t = r ∨ ∃ p, c'.counts.owner t = some p ∧ ¬ c.view.Alive p := by
  induction run with
  | nil => exact Or.inl rfl
  | @snoc c₁ c' es d _ last ih =>
      obtain ⟨_, rfl⟩ := last
      have ih := ih fun d hd => hds d (by simp [hd])
      have hd := hds d (by simp)
      cases d with
      | hire u p =>
          by_cases hu : t = u
          · subst hu
            have howner : (c₁.after (.hire t p)).counts.owner t = some p := by
              simp [Kept.after]
            rw [howner]
            exact Or.inr (hd.imp Eq.symm fun hdead => ⟨p, rfl, hdead⟩)
          · have howner : (c₁.after (.hire u p)).counts.owner t = c₁.counts.owner t := by
              simp [Kept.after, hu]
            rwa [howner]
      | adopt | orphan => exact ih
      | _ => exact hd.elim

/-- CREATE_PROCESS and CREATE_THREAD create for the process of the applicant. -/
theorem founds_of_service (C : k.kept.Rolls) (hq : q.scope = .create)
    (h : MikaBoo.service fuel k t msg q = .ok (o, k')) :
    ∃ ds, Run Kept.Step k.kept ds k'.kept ∧ ∀ d ∈ ds, Deeds.Founds k.kept (k.tcb t).tPcb d := by
  have halive : ∀ p ∈ (k.tcb t).tPcb, k.kept.view.Alive p :=
    fun p hp => C.tree.owner_alive (t := t) hp
  cases q with
  | createThread =>
      obtain ⟨_, _, h⟩ := bind_eq_ok.mp h
      obtain ⟨_, _, h⟩ := bind_eq_ok.mp h
      obtain ⟨_, hk, h⟩ := bind_eq_ok.mp h
      cases h
      rcases Deeds.rawCreateThreadS C halive hk with ⟨_, hsame⟩ | ⟨u, p, _, hp, ha, hu⟩
      · exact ⟨[], Deeds.none hsame, by simp⟩
      · refine ⟨_, Deeds.one ha hu, ?_⟩
        simp [Deeds.Founds, hp]
  | createProcess =>
      obtain ⟨_, _, h⟩ := bind_eq_ok.mp h
      obtain ⟨_, _, h⟩ := bind_eq_ok.mp h
      obtain ⟨_, hk, h⟩ := bind_eq_ok.mp h
      cases h
      exact Deeds.createProcessS_founds C hk
  | _ => cases hq

/-! ## Steps -/

theorem petitioner_eq (ha : k.applicant = some t) (hq : k.request = some q) :
    k.petitioner .ssi = (k.tcb t).tPcb := by
  simp [Kernel.petitioner, ha, hq]

/-- The tree stays, and threads go only at the request of their own process. -/
theorem lawful_of_parents (C : k.kept.Rolls) (C' : k'.kept.Rolls)
    (hparent : ∀ p, (k'.pcb p).pParent = (k.pcb p).pParent)
    (hpcb : ∀ p, r ≠ some p → k'.pcb p = k.pcb p)
    (howner : ∀ t, (k'.tcb t).tPcb = (k.tcb t).tPcb ∧ k'.incarnation t = k.incarnation t ∨
      t ≠ .ssi ∧ (k'.tcb t).tPcb = none ∧ r = (k.tcb t).tPcb) : Lawful k r k' := by
  have hlive : ∀ {t}, k.Live t ↔ t = .ssi ∨ (k.tcb t).tPcb ≠ none := C.live_iff
  have hlive' : ∀ {t}, k'.Live t ↔ t = .ssi ∨ (k'.tcb t).tPcb ≠ none := C'.live_iff
  have halive : ∀ p, k'.view.Alive p ↔ k.view.Alive p := fun p => by
    change p = root ∨ (k'.pcb p).pParent ≠ none ↔ p = root ∨ (k.pcb p).pParent ≠ none
    rw [hparent]
  refine ⟨fun p _ _ => hparent p, fun p _ _ => hpcb p, fun t _ ht' => ?_, fun p hp hp' => ?_,
    fun t ht ht' => ?_, fun p hp hp' => ?_, fun t ht ht' => ?_⟩
  · rcases howner t with hsame | ⟨hssi, hnone, _⟩
    · exact hsame
    · exact absurd hnone ((hlive'.mp ht').resolve_left hssi)
  · exact absurd ((halive p).mpr hp) hp'
  · rw [hlive'] at ht'
    rcases howner t with ⟨hsame, _⟩ | ⟨hssi, _, hr⟩
    · rw [hsame] at ht'
      exact absurd (hlive.mp ht) ht'
    · obtain ⟨p, hp⟩ := Option.ne_none_iff_exists'.mp ((hlive.mp ht).resolve_left hssi)
      exact ⟨p, hr.trans hp, p, hp, Below.refl p⟩
  · exact absurd ((halive p).mp hp') hp
  · rw [hlive] at ht
    rcases howner t with ⟨hsame, _⟩ | ⟨hssi, hnone, _⟩
    · rw [← hsame] at ht
      exact absurd (hlive'.mp ht') ht
    · exact absurd hnone ((hlive'.mp ht').resolve_left hssi)

/-- A termination reaches the process that asks for it and its descendants. -/
theorem lawful_of_pruned (C : k.kept.Rolls) (P : Kept.Pruned k.kept p k'.kept) :
    Lawful k (some p) k' := by
  have C' : k'.kept.Rolls := P.rolls C
  have hlive : ∀ {t}, k.Live t ↔ t = .ssi ∨ k.kept.counts.owner t ≠ none := C.live_iff
  have hlive' : ∀ {t}, k'.Live t ↔ t = .ssi ∨ k'.kept.counts.owner t ≠ none := C'.live_iff
  have hpcb : ∀ q, k'.view.Alive q → k'.pcb q = k.pcb q := by
    intro q hq
    refine P.spared_pcb C fun hm => ?_
    obtain ⟨hb, hroot⟩ := C.mem_subtree.mp hm
    exact hq.elim hroot fun hne => hne (P.gone C hb hroot)
  refine ⟨fun q _ hq => by rw [hpcb q hq], fun q _ hq _ => hpcb q hq, fun t ht ht' => ?_,
    fun q hq hq' => ?_, fun t ht ht' => ?_, fun q hq hq' => ?_, fun t ht ht' => ?_⟩
  · have hm : t ∉ k.kept.staff p := by
      intro hm
      obtain ⟨_, _, ho⟩ := C.mem_staff.mp hm
      refine (hlive'.mp ht').elim ?_ fun hne => hne (P.killed C hm).1
      rintro rfl
      rw [C.ssi] at ho
      cases ho
    exact (P.spared C hm).symm
  · refine ⟨p, rfl, (C.mem_subtree.mp ?_).1⟩
    by_contra hm
    exact hq' ((alive_of_pcb (P.spared_pcb C hm)).mpr hq)
  · have hm : t ∈ k.kept.staff p := by
      by_contra hm
      rw [hlive', (P.spared C hm).2] at ht'
      exact ht' (hlive.mp ht)
    obtain ⟨q, hb, ho⟩ := C.mem_staff.mp hm
    exact ⟨p, rfl, q, ho, hb⟩
  · exact absurd ((alive_of_pcb (hpcb q hq')).mp hq') hq
  · rw [hlive, not_or, not_not] at ht
    refine absurd ?_ ((hlive'.mp ht').resolve_left ht.1)
    exact (P.remains.owner t).elim id fun ho => ho.trans ht.2

/-- A creation adds children and threads to the process that asks for it. -/
theorem lawful_of_founds (C : k.kept.Rolls) (run : Run Kept.Step k.kept ds k'.kept)
    (hds : ∀ d ∈ ds, Deeds.Founds k.kept r d) : Lawful k r k' := by
  have C' : k'.kept.Rolls := C.run run
  have hlive : ∀ {t}, k.Live t ↔ t = .ssi ∨ k.kept.counts.owner t ≠ none := C.live_iff
  have hlive' : ∀ {t}, k'.Live t ↔ t = .ssi ∨ k'.kept.counts.owner t ≠ none := C'.live_iff
  have hpcb : ∀ p, k.view.Alive p → k'.pcb p = k.pcb p := by
    intro p hp
    refine Kept.pcb_of_run run fun d hd hconc => ?_
    have hf := Deeds.creates_of_founds (hds d hd)
    cases d with
    | adopt _ _ | orphan _ =>
        subst hconc
        exact hf hp
    | manage => exact hf
    | _ => exact hconc
  have hspared : ∀ t, k.Live t → k'.incarnation t = k.incarnation t ∧
      (k'.tcb t).tPcb = (k.tcb t).tPcb := fun t ht =>
    Kept.spared_of_creates run (fun d hd => Deeds.creates_of_founds (hds d hd)) (hlive.mp ht)
  refine ⟨fun p hp _ => by rw [hpcb p hp], fun p hp _ _ => hpcb p hp,
    fun t ht _ => (hspared t ht).symm, fun p hp hp' => ?_, fun t ht ht' => ?_, fun p hp hp' => ?_,
    fun t ht ht' => ?_⟩
  · exact absurd ((alive_of_pcb (hpcb p hp)).mpr hp) hp'
  · rw [hlive'] at ht'
    refine absurd ((hlive.mp ht).imp id fun ho => ?_) ht'
    rwa [show k'.kept.counts.owner t = k.kept.counts.owner t from (hspared t ht).2]
  · exact (founded_of_run run hds hp').resolve_left hp
  · rw [hlive, not_or, not_not] at ht
    refine (hired_of_run run hds t).resolve_left fun hsame => ?_
    exact (hlive'.mp ht').elim ht.1 fun ho => ho (hsame.trans ht.2)

theorem terminated_owner (h : k.terminated t msg q = some p) : (k.tcb t).tPcb = some p := by
  unfold Kernel.terminated at h
  split at h
  · exact h
  · exact (Option.filter_eq_some_iff.mp h).1
  · exact (Option.filter_eq_some_iff.mp h).1

theorem lawful_step (C : k.kept.Rolls) (hn : NotSelf k e) (h : step fuel k e = .ok k') :
    Lawful k (k.petitioner e) k' := by
  have C' : k'.kept.Rolls := C.step hn h
  rcases step_served C h with ⟨_, hpcb, _, hinc, hcounts⟩ | ⟨t, q, o, rfl, _, ha, hq, S⟩
  · have howner : k'.kept.counts.owner = k.kept.counts.owner := (congrArg Counts.owner hcounts :)
    exact lawful_of_parents C C' (fun p => by rw [hpcb]) (fun p _ => by rw [hpcb]) fun t =>
      Or.inl ⟨congrFun howner t, congrFun hinc t⟩
  · rw [petitioner_eq ha hq]
    have hsame : ∀ {c : Kept}, k'.kept = c → c.pcb = k.pcb →
        c.counts.owner = k.kept.counts.owner → c.incarnation = k.incarnation →
        Lawful k (k.tcb t).tPcb k' := by
      rintro _ rfl hpcb howner hinc
      exact lawful_of_parents C C' (fun p => congrArg PcbT.pParent (congrFun hpcb p))
        (fun p _ => congrFun hpcb p) fun u => Or.inl ⟨congrFun howner u, congrFun hinc u⟩
    cases S with
    | plain same => exact hsame same rfl rfl rfl
    | engage _ _ engaged => exact hsame engaged rfl rfl rfl
    | create scope =>
        obtain ⟨_, k₁, o', hk₁, hrest⟩ := ssi_step ha hq h
        have hkept : k'.kept = k₁.kept := by
          rcases hrest with ⟨_, rfl⟩ | ⟨_, k₂, _, hsend, rfl⟩
          · rfl
          · exact (Frame.msgsend hsend :)
        have C₀ : Kernel.kept { k with ssiPoint := .receiving } |>.Rolls := C
        obtain ⟨ds, run, hds⟩ := founds_of_service C₀ scope hk₁
        rw [← hkept] at run
        exact lawful_of_founds C run hds
    | terminate process _ pruned =>
        rw [terminated_owner process]
        exact lawful_of_pruned C pruned
    | free request _ _ freed =>
        subst request
        have hpcb : k'.pcb = k.pcb := congrArg Kept.pcb freed
        refine lawful_of_parents C C' (fun p => by rw [hpcb]) (fun p _ => by rw [hpcb]) fun u => ?_
        have howner : (k'.tcb u).tPcb = (k.kept.after (.fire t)).counts.owner u :=
          congrArg (fun c : Kept => c.counts.owner u) freed
        have hinc : k'.incarnation u = (k.kept.after (.fire t)).incarnation u :=
          congrArg (fun c : Kept => c.incarnation u) freed
        by_cases hu : u = t
        · subst hu
          refine Or.inr ⟨?_, by rw [howner]; simp [Kept.after], rfl⟩
          rintro rfl
          exact hn rfl hq ha
        · left
          rw [howner, hinc]
          simp only [Kept.after, Function.update_of_ne hu]
          exact ⟨rfl, rfl⟩
    | @appoint p role m manager _ set =>
        obtain ⟨hp, _⟩ := Served.appointment_some manager
        have hpcb : k'.pcb = Function.update k.pcb p (role.set (k.pcb p) (some m)) :=
          congrArg Kept.pcb set
        have howner : k'.kept.counts.owner = k.kept.counts.owner := by
          rw [set]
          rfl
        have hinc : k'.kept.incarnation = k.kept.incarnation := by
          rw [set]
          rfl
        refine lawful_of_parents C C' (fun p' => ?_) (fun p' hne => ?_) fun u =>
          Or.inl ⟨congrFun howner u, congrFun hinc u⟩
        · rw [hpcb]
          by_cases hpp : p' = p
          · subst hpp
            rw [Function.update_self]
            cases role <;> rfl
          · rw [Function.update_of_ne hpp]
        · rw [hpcb, Function.update_of_ne]
          rintro rfl
          exact hne hp

/-! ## Runs -/

/-- The ancestors of a process are processes. -/
theorem alive_above (C : k.kept.Rolls) (hp : k.view.Alive p) {a : Pcb} (h : k.view.Below p a) :
    k.view.Alive a := by
  induction h with
  | refl => exact hp
  | tail _ hc _ => exact C.tree.parent_alive hc

/-- What a step for somebody else leaves of a process. -/
theorem untouched_of_lawful (C : k.kept.Rolls) (C' : k'.kept.Rolls) (L : Lawful k r k')
    (hp : k.view.Alive p) (hr : ∀ q ∈ r, ¬ k.view.Below p q) : Untouched p k k' := by
  have hlive : ∀ {t}, k.Live t ↔ t = .ssi ∨ (k.tcb t).tPcb ≠ none := C.live_iff
  have hlive' : ∀ {t}, k'.Live t ↔ t = .ssi ∨ (k'.tcb t).tPcb ≠ none := C'.live_iff
  have halive : ∀ a, k.view.Below p a → k'.view.Alive a := by
    intro a ha
    by_contra hdead
    obtain ⟨q, hq, hb⟩ := L.deleted a (alive_above C hp ha) hdead
    exact hr q hq (Relation.ReflTransGen.trans ha hb)
  have hself : r ≠ some p := fun hrp => hr p hrp (Below.refl p)
  have hkept : ∀ t, (k.tcb t).tPcb = some p →
      (k'.tcb t).tPcb = some p ∧ k'.incarnation t = k.incarnation t := by
    intro t ht
    have hlt : k.Live t := hlive.mpr (Or.inr (by simp [ht]))
    by_cases hlt' : k'.Live t
    · obtain ⟨ho, hi⟩ := L.owner t hlt hlt'
      exact ⟨ho.trans ht, hi⟩
    · obtain ⟨q, hq, p', hp', hb⟩ := L.freed t hlt hlt'
      obtain rfl := Option.some.inj (ht.symm.trans hp')
      exact absurd hb (hr q hq)
  refine ⟨halive p (Below.refl p), L.managers p hp (halive p (Below.refl p)) hself,
    fun t => ⟨fun ht => ?_, fun ht => (hkept t ht).1⟩, fun t ht => (hkept t ht).2, fun q => ?_⟩
  · have hlt' : k'.Live t := hlive'.mpr (Or.inr (by simp [ht]))
    by_cases hlt : k.Live t
    · rw [← ht, (L.owner t hlt hlt').1]
    · rcases L.hired t hlt hlt' with ho | ⟨p', hp', hdead⟩
      · exact absurd (ho.symm.trans ht) hself
      · obtain rfl := Option.some.inj (ht.symm.trans hp')
        exact absurd hp hdead
  · exact below_congr (fun a ha => L.parent a (alive_above C hp ha) (halive a ha)) q

theorem untouched_refl (hp : k.view.Alive p) : Untouched p k k :=
  ⟨hp, rfl, fun _ => Iff.rfl, fun _ _ => rfl, fun _ => Iff.rfl⟩

theorem untouched_trans (h₁ : Untouched p k k₁) (h₂ : Untouched p k₁ k') : Untouched p k k' where
  alive := h₂.alive
  pcb := h₂.pcb.trans h₁.pcb
  staff t := (h₂.staff t).trans (h₁.staff t)
  incarnation t ht := by
    rw [h₂.incarnation t ((h₁.staff t).mpr ht), h₁.incarnation t ht]
  line q := (h₂.line q).trans (h₁.line q)

theorem untouched_run {es : List Event} (C : k.kept.Rolls) (hp : k.view.Alive p)
    (run : Run (GuardedStep fun k e => NotSelf k e ∧ Spared p k e) k es k') :
    k'.kept.Rolls ∧ Untouched p k k' := by
  induction run with
  | nil => exact ⟨C, untouched_refl hp⟩
  | snoc _ last ih =>
      obtain ⟨⟨hn, hs⟩, _, h⟩ := last
      obtain ⟨C₁, U⟩ := ih
      have C' := C₁.step hn h
      exact ⟨C', untouched_trans U (untouched_of_lawful C₁ C' (lawful_step C₁ hn h) U.alive hs)⟩

end Authority

/-- In every run in which the SSI does not terminate itself, a step founds processes and hires
threads only for the process that it serves, and deletes and frees only below that process; who
stays keeps parent and owner. So a process is as it was as long as neither it nor an ancestor of
it is served, whatever all other processes do. -/
theorem authority {hw : Hardware} {k₀ k : Kernel} {es : List Event} (hb : boot hw = .ok k₀)
    (run : Run (GuardedStep NotSelf) k₀ es k) :
    (∀ e k', NotSelf k e → Step k e k' → Lawful k (k.petitioner e) k') ∧
    ∀ p es' k', k.view.Alive p →
      Run (GuardedStep fun k e => NotSelf k e ∧ Spared p k e) k es' k' → Untouched p k k' := by
  have C : k.kept.Rolls := run.invariant (P := fun k => k.kept.Rolls)
    (fun _ _ _ C h => C.step h.1 h.2.choose_spec) (Good.boot hb).rolls
  constructor
  · rintro e k' hn ⟨fuel, h⟩
    exact Authority.lawful_step C hn h
  · intro p es' k' hp run'
    exact (Authority.untouched_run C hp run').2

namespace Sample

/-- The first thread makes a process, whose thread waits, and then another one. -/
def siblings : List Event :=
  [.start, .ssi] ++ service [.int 1, .int 0x200] ++ recv none [] ++ service [.int 1, .int 0x200]

/-- The second of them asks for its own termination, and the first thread waits. -/
def siblingQuits : List Event :=
  request [.int 3] ++ recv (some .ssi) [.int 3] ++ recv none [.int 3] ++ [.ssi]

/-- Only the process 2 is served, and its sibling 1 is a child of the root. -/
def servesSibling (k : Kernel) (e : Event) : Prop :=
  NotSelf k e ∧ ∀ q ∈ k.petitioner e, q = 2 ∧ (k.pcb 1).pParent = some root ∧
    (k.pcb root).pParent = none

instance (k : Kernel) (e : Event) : Decidable (servesSibling k e) :=
  inferInstanceAs (Decidable (_ ∧ _))

theorem spared_of_servesSibling {k : Kernel} {e : Event} (h : servesSibling k e) :
    Spared 1 k e := by
  intro q hq hb
  obtain ⟨rfl, hparent, htop⟩ := h.2 q hq
  rcases Relation.ReflTransGen.cases_head hb with heq | ⟨a, ha, hb⟩
  · cases heq
  · obtain rfl := Option.some.inj (hparent.symm.trans ha)
    cases Below.eq_of_top hb htop

end Sample

/-- A process goes and its sibling does not notice. -/
theorem authority_sample : ∃ k₀ k k' : Kernel, boot Sample.hardware = .ok k₀ ∧
    Run (GuardedStep NotSelf) k₀ Sample.siblings k ∧ k.view.Alive 2 ∧
    (k.tcb (.thread 1)).tPcb = some 1 ∧
    Run (GuardedStep fun k e => NotSelf k e ∧ Spared 1 k e) k Sample.siblingQuits k' ∧
    ¬ k'.view.Alive 2 ∧ Untouched 1 k k' := by
  let check : Kernel → Bool := fun k => (k.pcb 2).pParent = some root ∧
    (k.pcb 1).pParent = some root ∧ (k.tcb (.thread 1)).tPcb = some 1 ∧
    (proceed Sample.servesSibling 100 k Sample.siblingQuits).any fun k' =>
      (k'.pcb 2).pParent = none
  have h : (execute NotSelf Sample.hardware 100 Sample.siblings).any check = true := by
    decide +kernel
  obtain ⟨k, hk, hprops⟩ := Option.any_eq_true _ _ |>.mp h
  obtain ⟨h₂, h₁, ht, hprops⟩ := of_decide_eq_true hprops
  obtain ⟨k', hk', hdead⟩ := Option.any_eq_true _ _ |>.mp hprops
  obtain ⟨k₀, hb, run⟩ := run_of_execute hk
  have run' : Run (GuardedStep fun k e => NotSelf k e ∧ Spared 1 k e) k Sample.siblingQuits k' :=
    weaken_guard (fun k e hs => ⟨hs.1, Sample.spared_of_servesSibling hs⟩) (run_of_proceed hk')
  have halive : k.view.Alive 1 := Or.inr (by rw [show (k.view.pcb 1).pParent = _ from h₁]; simp)
  have hdead : (k'.pcb 2).pParent = none := of_decide_eq_true hdead
  refine ⟨k₀, k, k', hb, run, Or.inr ?_, ht, run', ?_, (authority hb run).2 1 _ k' halive run'⟩
  · rw [show (k.view.pcb 2).pParent = _ from h₂]
    simp
  · rintro (hroot | hne)
    · cases hroot
    · exact hne hdead

end MikaBoo
