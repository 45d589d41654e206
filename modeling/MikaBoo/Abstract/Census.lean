import MikaBoo.Abstract.Chores
import MikaBoo.Abstract.Deeds
import MikaBoo.Abstract.Reachable

/-!
# The services in any run

What each service does to the lists of processes and threads, as a sequence of
deeds, whatever has happened to the scheduling queues. Nothing is assumed of the
applicant: it may have been freed since it made the request.
-/

namespace MikaBoo

open Intrusive Fuel Transition Forest

/-- The manager fields of a process descriptor. -/
inductive Role
  | pgmMgr
  | tlbMgr
  | sysMgr
deriving DecidableEq

def Role.get : Role → PcbT → Option Tcb
  | .pgmMgr => PcbT.pgmMgr
  | .tlbMgr => PcbT.tlbMgr
  | .sysMgr => PcbT.sysMgr

def Role.set : Role → PcbT → Option Tcb → PcbT
  | .pgmMgr, d, m => { d with pgmMgr := m }
  | .tlbMgr, d, m => { d with tlbMgr := m }
  | .sysMgr, d, m => { d with sysMgr := m }

/-- The manager that a request sets. -/
def Request.role : Request → Option Role
  | .setpgmmgr => some .pgmMgr
  | .settlbmgr => some .tlbMgr
  | .setsysmgr => some .sysMgr
  | _ => none

/-- The threads of the process `p` and of its descendants. -/
def Kept.staff (c : Kept) (p : Pcb) : List Tcb :=
  (c.view.script MAXPROC p).filterMap Reaping.victim?

namespace Kernel

/-- The TCB pointer in the second word of a request. -/
def argument (k : Kernel) (msg : Value) : Option Tcb :=
  match reqField k msg 1 with
  | .ok (.tcb t) => some t
  | _ => none

/-- The thread that a request makes a manager of the applicant's process, and the field. -/
def appointment (k : Kernel) (t : Tcb) (msg : Value) (q : Request) : Option (Pcb × Role × Tcb) :=
  match (k.tcb t).tPcb, q.role, k.argument msg with
  | some p, some r, some m => if r.get (k.pcb p) = none then some (p, r, m) else none
  | _, _, _ => none

/-- The process that a request for `t` terminates. -/
def terminated (k : Kernel) (t : Tcb) (msg : Value) (q : Request) : Option Pcb :=
  match q with
  | .terminateProcess => (k.tcb t).tPcb
  | .terminateThread =>
      (k.tcb t).tPcb.filter fun p => k.threadLinks.listIsOnly (.tNext t) (.pThreads p)
  | _ =>
      (k.tcb t).tPcb.filter fun p =>
        (k.argument msg).isSome && q.role.any fun r => (r.get (k.pcb p)).isSome

/-- The threads that a request for `t` frees. -/
def victims (k : Kernel) (t : Tcb) (msg : Value) (q : Request) : List Tcb :=
  match k.terminated t msg q with
  | some p => k.kept.staff p
  | none => if q = .terminateThread then [t] else []

end Kernel

theorem Kernel.argument_of_toTcb {k : Kernel} {msg : Value} {o : Option Tcb}
    (ha : (reqField k msg 1 >>= Value.toTcb) = .ok o) : k.argument msg = o := by
  obtain ⟨v, hv, ho⟩ := bind_eq_ok.mp ha
  unfold Value.toTcb at ho
  split at ho <;> cases ho <;> simp [Kernel.argument, hv]

/-- A deed that the termination of the process `p` consists of. -/
def Deed.Under (c : Kept) (p : Pcb) : Deed → Prop
  | .fire t => ∃ q, c.view.Below q p ∧ c.counts.owner t = some q
  | .orphan q => c.view.Below q p
  | _ => False

namespace Kept

variable {c c' : Kept} {t : Tcb} {p q : Pcb} {d : Deed}

theorem Rolls.mem_staff (C : c.Rolls) :
    t ∈ c.staff p ↔ ∃ q, c.view.Below q p ∧ c.counts.owner t = some q := by
  have hmem : ∀ {q}, t ∈ c.view.threads (.of q) ↔ c.counts.owner t = some q := by
    intro q
    rw [C.listed]
    refine ⟨And.right, fun h => ⟨?_, h⟩⟩
    rintro rfl
    rw [C.ssi] at h
    cases h
  rw [staff, List.mem_filterMap]
  constructor
  · rintro ⟨e, he, hv⟩
    cases e with
    | kill u q =>
        cases hv
        obtain ⟨hb, ht⟩ := (kill_mem_script C.tree (C.tree.shallow p)).mp he
        exact ⟨q, hb, hmem.mp ht⟩
    | orphan q => cases hv
  · rintro ⟨q, hb, ho⟩
    exact ⟨.kill t q, (kill_mem_script C.tree (C.tree.shallow p)).mpr ⟨hb, hmem.mpr ho⟩, rfl⟩

theorem shrinks_of_under (h : d.Under c p) : d.shrinks = true := by
  cases d <;> first | rfl | exact h.elim

theorem Remains.below (h : Remains c c') (hq : c'.view.Below q p) : c.view.Below q p :=
  Below.mono hq fun _ _ hr => h.parent hr

theorem Remains.under (h : Remains c c') (hd : d.Under c' p) : d.Under c p := by
  cases d with
  | fire t =>
      obtain ⟨q, hq, ho⟩ := hd
      exact ⟨q, h.below hq, h.owner_eq ho⟩
  | orphan q => exact h.below hd
  | _ => exact hd.elim

/-- What the termination of the process `p` leaves, whatever scheduling queues it found. -/
structure Pruned (c : Kept) (p : Pcb) (c' : Kept) : Prop where
  run : ∃ ds, Run Kept.Step c ds c' ∧ ∀ d ∈ ds, d.Under c p
  leaf : c'.view.procs (.children p) = []
  vacant : c'.view.threads (.of p) = []
  deleted : p ≠ root → (c'.pcb p).pParent = none

namespace Pruned

variable {t : Tcb} {p q : Pcb}

theorem rolls (h : Pruned c p c') (C : c.Rolls) : c'.Rolls := by
  obtain ⟨ds, run, _⟩ := h.run
  exact C.run run

theorem remains (h : Pruned c p c') : Remains c c' := by
  obtain ⟨ds, run, hds⟩ := h.run
  exact remains_of_run run fun d hd => shrinks_of_under (hds d hd)

/-- All descendants have been deleted. By induction on the descent: a survivor's
parent survives, and is not `p`, which has no children left. -/
theorem gone (h : Pruned c p c') (C : c.Rolls) (hq : c.view.Below q p) (hroot : q ≠ root) :
    (c'.pcb q).pParent = none := by
  have C' := h.rolls C
  induction hq using Relation.ReflTransGen.head_induction_on with
  | refl => exact h.deleted hroot
  | @head q r hqr hrp ih =>
      by_contra hne
      obtain ⟨r', hr'⟩ := Option.ne_none_iff_exists'.mp hne
      obtain rfl : r' = r := Option.some.inj ((h.remains.parent hr').symm.trans hqr)
      rcases C'.tree.parent_alive hr' with rfl | hr
      · obtain rfl := Below.eq_of_top hrp C.tree.root_parent
        have hm : q ∈ c'.view.procs (.children root) := C'.tree.children.mpr hr'
        simp [h.leaf] at hm
      · by_cases hrr : r' = root
        · subst hrr
          exact hr C'.tree.root_parent
        · exact hr (ih hrr)

/-- All threads of the process and its descendants have been freed. -/
theorem freed (h : Pruned c p c') (C : c.Rolls) (hq : c.view.Below q p)
    (ht : c.counts.owner t = some q) : c'.counts.owner t = none := by
  have C' := h.rolls C
  refine (h.remains.owner t).resolve_right fun ho => ?_
  rw [ht] at ho
  have hm : t ∈ c'.view.threads (.of q) := by
    obtain ⟨l, hl, hlo⟩ := C'.mem (t := t) (fun hs => by subst hs; simp [C.ssi] at ht)
    rw [ho] at hlo
    cases l <;> simp_all [ThreadList.owner]
  rcases C'.tree.owner_alive (t := t) ho with rfl | hr
  · obtain rfl := Below.eq_of_top hq C.tree.root_parent
    simp [h.vacant] at hm
  · by_cases hroot : q = root
    · subst hroot
      exact hr C'.tree.root_parent
    · exact hr (h.gone C hq hroot)

end Pruned

end Kept

/-! ## Creation -/

namespace Deeds

variable {k k' : Kernel} {t u : Tcb} {p q : Pcb} {fuel : Nat} {s : State} {o : Option Tcb}

/-- No deed at all. -/
theorem none (h : k'.kept = k.kept) : Run Kept.Step k.kept [] k'.kept := by
  rw [h]
  exact .nil

/-- One deed. -/
theorem one {d : Deed} (ha : k.kept.Allows d) (h : k'.kept = k.kept.after d) :
    Run Kept.Step k.kept [d] k'.kept :=
  .single ⟨ha, h⟩

/-- A deed is known by its effect on the functions on threads and on the rest. -/
theorem kept_eq {c : Kept} (ho : k'.kept.counts.owner = c.counts.owner)
    (hr : k'.kept.runTime = c.runTime) (hi : k'.kept.incarnation = c.incarnation)
    (hrest : { k'.kept with
      counts := { k'.kept.counts with owner := c.counts.owner }
      runTime := c.runTime, incarnation := c.incarnation } = c) : k'.kept = c := by
  rw [← ho, ← hr, ← hi] at hrest
  exact hrest

theorem rawCreateThreadS {proc : Option Pcb} (C : k.kept.Rolls)
    (hp : ∀ p ∈ proc, k.kept.view.Alive p)
    (h : MikaBoo.rawCreateThreadS k s proc = .ok (o, k')) :
    (o = .none ∧ k'.kept = k.kept) ∨
      ∃ t p, o = some t ∧ proc = some p ∧ k.kept.Allows (.hire t p) ∧
        k'.kept = k.kept.after (.hire t p) := by
  have hn := C.threads.listNext .free
  simp only [threadLayout, ThreadList.head] at hn
  obtain ⟨⟨o₁, k₁⟩, hk₁, h⟩ := bind_eq_ok.mp h
  have hn' : k.threadLinks.listNext .threadH = _ := hn
  cases hq : k.kept.view.threads .free with
  | nil =>
      simp [threadAlloc, hn', hq, containerOf] at hk₁
      obtain ⟨rfl, rfl⟩ := hk₁
      cases h
      exact Or.inl ⟨rfl, rfl⟩
  | cons t rest =>
      have ht : t ∈ k.kept.view.threads .free := by simp [hq]
      obtain ⟨hssi, hfree⟩ := C.listed.mp ht
      cases proc with
      | none =>
          simp [threadAlloc, hn', hq, containerOf, ThreadNode.container] at hk₁
          obtain ⟨rfl, rfl⟩ := hk₁
          cases h
          exact Or.inl ⟨rfl, rfl⟩
      | some p =>
          simp only [threadAlloc, hn', hq, containerOf, ThreadNode.container, List.head?_cons] at hk₁
          obtain ⟨rfl, rfl⟩ := hk₁
          cases h
          refine Or.inr ⟨t, p, rfl, rfl, ⟨hssi, hfree, hp p rfl⟩, ?_⟩
          refine kept_eq ?_ ?_ ?_ rfl
          · funext u
            by_cases hu : u = t <;>
              simp [Kernel.kept, Kernel.counts, Kept.after, Kernel.modTcb, Kernel.record,
                threadEnqueue, hu]
          · funext u
            by_cases hu : u = t <;>
              simp [Kernel.kept, Kept.after, Kernel.modTcb, Kernel.record, threadEnqueue, hu]
          · funext u
            simp [Kernel.kept, Kept.after, Kernel.incarnation, Kernel.modTcb, Kernel.record,
              threadEnqueue]

theorem procAlloc {parent q : Option Pcb} (C : k.kept.Rolls)
    (hp : ∀ p ∈ parent, k.kept.view.Alive p) (h : MikaBoo.procAlloc k parent = .ok (q, k')) :
    (q = .none ∧ k' = k) ∨
      ∃ p r, q = some p ∧ parent = some r ∧ k.kept.Allows (.adopt p r) ∧
        k'.kept = k.kept.after (.adopt p r) := by
  have hn : k.procLinks.listNext (.pSiblings root) = _ := C.procs.listNext .free
  obtain ⟨o, ho, h⟩ := bind_eq_ok.mp h
  cases hq : k.kept.view.procs .free with
  | nil =>
      simp only [hn, hq, containerOf, List.head?_nil] at ho
      cases ho
      cases h
      exact Or.inl ⟨rfl, rfl⟩
  | cons p rest =>
      simp only [hn, hq, containerOf, List.head?_cons] at ho
      cases ho
      have hm : p ∈ k.kept.view.procs .free := by simp [hq]
      obtain ⟨hroot, hnone⟩ := C.tree.free.mp hm
      cases parent with
      | none =>
          cases h
          exact Or.inl ⟨rfl, rfl⟩
      | some r =>
          cases h
          exact Or.inr ⟨p, r, rfl, rfl, ⟨hroot, hnone, hp r rfl⟩, rfl⟩

/-- `proc_delete` refuses the root, free processes and processes in use. -/
theorem procDelete (C : k.kept.Rolls) (p : Pcb) :
    k.kept.Allows (.orphan p) ∧ (MikaBoo.procDelete k p).2.kept = k.kept.after (.orphan p) ∨
      ¬ k.kept.Allows (.orphan p) ∧ (MikaBoo.procDelete k p).2 = k := by
  have hc : k.procLinks.listEmpty (.pChildren p) = _ := C.procs.listEmpty (.children p)
  have ht : k.threadLinks.listEmpty (.pThreads p) = _ := C.threads.listEmpty (.of p)
  have hiff : k.kept.Allows (.orphan p) ↔ ¬ ((k.pcb p).pParent = .none ∨
      k.procLinks.listEmpty (.pChildren p) = false ∨
      k.threadLinks.listEmpty (.pThreads p) = false) := by
    simp [hc, ht, Kept.Allows, Kernel.kept]
  by_cases ha : k.kept.Allows (.orphan p)
  · refine Or.inl ⟨ha, ?_⟩
    rw [MikaBoo.procDelete, if_neg (hiff.mp ha)]
    have hpcb : (MikaBoo.cleanMgr (k.modPcb p fun d => { d with pParent := .none }) p).pcb =
        Function.update k.pcb p {} := by
      simp [cleanMgr, Kernel.modPcb]
    exact congrArg (fun f => { k.kept.after (.orphan p) with pcb := f }) hpcb
  · refine Or.inr ⟨ha, ?_⟩
    rw [MikaBoo.procDelete, if_pos (not_not.mp fun h => ha (hiff.mpr h))]

/-- Creations do not touch the live processes. -/
def Creates (c : Kept) : Deed → Prop
  | .hire .. => True
  | .adopt p _ | .orphan p => ¬ c.view.Alive p
  | _ => False

theorem not_alive (hroot : p ≠ root) (hnone : (k.kept.pcb p).pParent = .none) :
    ¬ k.kept.view.Alive p := by
  rintro (h | h)
  · exact hroot h
  · exact h hnone

/-- A process creates its own threads and children, and the threads of new ones. -/
def Founds (c : Kept) (r : Option Pcb) : Deed → Prop
  | .hire _ p => r = some p ∨ ¬ c.view.Alive p
  | .adopt p parent => r = some parent ∧ ¬ c.view.Alive p
  | .orphan p => ¬ c.view.Alive p
  | _ => False

theorem creates_of_founds {c : Kept} {r : Option Pcb} {d : Deed} (h : Founds c r d) :
    Creates c d := by
  cases d with
  | hire => trivial
  | adopt p parent => exact h.2
  | _ => exact h

theorem createProcessS_founds (C : k.kept.Rolls)
    (h : MikaBoo.createProcessS k s t = .ok (o, k')) :
    ∃ ds, Run Kept.Step k.kept ds k'.kept ∧ ∀ d ∈ ds, Founds k.kept (k.tcb t).tPcb d := by
  have hparent : ∀ p ∈ (k.tcb t).tPcb, k.kept.view.Alive p := fun p hp =>
    C.tree.owner_alive (t := t) hp
  obtain ⟨⟨q, k₁⟩, hk₁, h'⟩ := bind_eq_ok.mp h
  rcases procAlloc C hparent hk₁ with ⟨rfl, rfl⟩ | ⟨p, r, rfl, hr, ha₁, h₁⟩
  · cases h'
    exact ⟨[], .nil, by simp⟩
  · obtain ⟨⟨o', k₂⟩, hk₂, h''⟩ := bind_eq_ok.mp h'
    have hdead : ¬ k.kept.view.Alive p := not_alive ha₁.1 ha₁.2.1
    have run₁ := one ha₁ h₁
    have C₁ : k₁.kept.Rolls := C.run run₁
    have halive : ∀ q ∈ some p, k₁.kept.view.Alive q := by
      rintro q hq
      cases hq
      exact Or.inr (by simp [h₁, Kept.view, Kept.after])
    rcases rawCreateThreadS C₁ halive hk₂ with ⟨rfl, h₂⟩ | ⟨u, p', rfl, hp', ha₂, h₂⟩
    · cases h''
      have C₂ : k₂.kept.Rolls := by rwa [h₂]
      rcases procDelete C₂ p with ⟨ha₃, h₃⟩ | ⟨_, h₃⟩
      · rw [h₂] at ha₃ h₃
        refine ⟨[.adopt p r] ++ [.orphan p], run₁.append (.single ⟨ha₃, h₃⟩), ?_⟩
        simp [Founds, hdead, hr]
      · rw [h₃, h₂]
        exact ⟨[.adopt p r], run₁, by simp [Founds, hdead, hr]⟩
    · cases h''
      cases hp'
      refine ⟨[.adopt p r] ++ [.hire u p], run₁.append (one ha₂ h₂), ?_⟩
      simp [Founds, hdead, hr]

theorem createProcessS (C : k.kept.Rolls) (h : MikaBoo.createProcessS k s t = .ok (o, k')) :
    ∃ ds, Run Kept.Step k.kept ds k'.kept ∧ ∀ d ∈ ds, Creates k.kept d := by
  obtain ⟨ds, run, hds⟩ := createProcessS_founds C h
  exact ⟨ds, run, fun d hd => creates_of_founds (hds d hd)⟩

/-! ## Termination -/

theorem drainMsgq_empty (h : MikaBoo.drainMsgq fuel k t = .ok k') :
    k'.msgLinks.listEmpty (.tMsgq t) = true := by
  induction fuel generalizing k with
  | zero => cases h
  | succ fuel ih =>
      unfold MikaBoo.drainMsgq at h
      split at h
      · cases h
        assumption
      · obtain ⟨o, _, h⟩ := bind_eq_ok.mp h
        cases o with
        | none => cases h
        | some m => exact ih h

theorem abortWaiters_empty (h : MikaBoo.abortWaiters fuel k t = .ok k') :
    k'.schedLinks.listEmpty (.tWait4me t) = true ∧ k'.msgLinks = k.msgLinks := by
  induction fuel generalizing k with
  | zero => cases h
  | succ fuel ih =>
      obtain ⟨o, ho, h⟩ := bind_eq_ok.mp h
      cases o with
      | none =>
          cases h
          exact ⟨empty_of_containerOf ho, rfl⟩
      | some u =>
          obtain ⟨he, hm⟩ := ih h
          exact ⟨he, hm.trans (deliverDirectly_links _ u .none null).1⟩

/-- `thread_free` succeeds at the end of a termination. -/
theorem rawTerminateThreadS (h : MikaBoo.rawTerminateThreadS fuel k t = .ok k') :
    k'.kept = k.kept.after (.fire t) := by
  obtain ⟨k₁, hk₁, h⟩ := bind_eq_ok.mp h
  obtain ⟨k₂, hk₂, h⟩ := bind_eq_ok.mp h
  obtain ⟨hwait, hmsgs⟩ := abortWaiters_empty hk₂
  have hmsgq := drainMsgq_empty hk₁
  rw [← hmsgs] at hmsgq
  simp only [threadFree, hmsgq, hwait, Bool.true_eq_false, ↓reduceIte] at h
  cases h
  rw [← (Frame.abortWaiters hk₂).trans (Frame.drainMsgq hk₁)]
  refine kept_eq ?_ ?_ ?_ rfl
  · funext u
    by_cases hu : u = t <;>
      simp [Kernel.kept, Kernel.counts, Kept.after, cleanThreadData, Kernel.modTcb, Kernel.record, hu]
  · funext u
    by_cases hu : u = t <;>
      simp [Kernel.kept, Kept.after, cleanThreadData, Kernel.modTcb, Kernel.record, hu]
  · funext u
    by_cases hu : u = t
    · subst hu
      simp [Kernel.kept, Kept.after, Kernel.incarnation, cleanThreadData, Kernel.modTcb,
        Kernel.record]
    · simp [Kernel.kept, Kept.after, Kernel.incarnation, cleanThreadData, Kernel.modTcb,
        Kernel.record, hu, Ne.symm hu]

theorem procFirstthread (C : k.kept.Rolls) (p : Pcb) :
    MikaBoo.procFirstthread k p = .ok (k.kept.view.threads (.of p)).head? :=
  procFirstthread_eq C.threads p

theorem procFirstchild (C : k.kept.Rolls) (p : Pcb) :
    MikaBoo.procFirstchild k p = .ok (k.kept.view.procs (.children p)).head? := by
  have hn : k.procLinks.listNext (.pChildren p) = _ := C.procs.listNext (.children p)
  rw [MikaBoo.procFirstchild, hn]
  cases k.kept.view.procs (.children p) <;> rfl

/-- The first loop frees the threads of the process. -/
theorem terminateThreads (C : k.kept.Rolls)
    (h : MikaBoo.terminateThreads fuel k p o = .ok k') :
    (∃ ds, Run Kept.Step k.kept ds k'.kept ∧
      ∀ d ∈ ds, ∃ t, d = .fire t ∧ k.kept.counts.owner t = some p) ∧
      k'.kept.view.threads (.of p) = [] := by
  induction fuel generalizing k with
  | zero => cases h
  | succ fuel ih =>
      obtain ⟨q, hq, h⟩ := bind_eq_ok.mp h
      rw [procFirstthread C, Except.ok.injEq] at hq
      cases q with
      | none =>
          cases h
          exact ⟨⟨[], .nil, by simp⟩, List.head?_eq_none_iff.mp hq⟩
      | some t =>
          obtain ⟨k₁, h₁, h⟩ : ∃ k₁, k₁.kept = k.kept ∧ (do
              MikaBoo.terminateThreads fuel (← MikaBoo.rawTerminateThreadS fuel k₁ t) p o) =
              .ok k' := by
            dsimp only at h
            split at h
            · obtain ⟨k₁, hk₁, h⟩ := bind_eq_ok.mp h
              exact ⟨k₁, Frame.cleanSysMsg hk₁, h⟩
            · exact ⟨k, rfl, h⟩
          obtain ⟨k₂, hk₂, h⟩ := bind_eq_ok.mp h
          obtain ⟨hssi, ho⟩ := C.listed.mp (List.mem_of_head? hq)
          have h₂ := rawTerminateThreadS hk₂
          rw [h₁] at h₂
          have ha : k.kept.Allows (.fire t) := ⟨hssi, fun hn => by simp [hn, ThreadList.owner] at ho⟩
          have run₂ := one ha h₂
          obtain ⟨⟨ds, run, hds⟩, hempty⟩ := ih (C.run run₂) h
          refine ⟨⟨.fire t :: ds, run.cons ⟨ha, h₂⟩, ?_⟩, hempty⟩
          intro d hd
          rcases List.mem_cons.mp hd with rfl | hd
          · exact ⟨t, rfl, ho⟩
          · obtain ⟨u, rfl, hu⟩ := hds d hd
            refine ⟨u, rfl, ?_⟩
            by_cases hut : u = t
            · subst hut
              exact ho
            · simpa [h₂, Kept.after, hut] using hu

/-- By induction on the rounds: a subtree, and the subtrees of the children. -/
theorem subtree (fuel : Nat) :
    (∀ {k k' p o}, k.kept.Rolls → MikaBoo.rawTerminateProcessS fuel k p o = .ok k' →
      Kept.Pruned k.kept p k'.kept) ∧
    (∀ {k k' p}, k.kept.Rolls → MikaBoo.terminateChildren fuel k p = .ok k' →
      (∃ ds, Run Kept.Step k.kept ds k'.kept ∧ ∀ d ∈ ds, d.Under k.kept p) ∧
        k'.kept.view.procs (.children p) = []) := by
  induction fuel with
  | zero => exact ⟨fun _ h => (by cases h), fun _ h => (by cases h)⟩
  | succ fuel ih =>
      obtain ⟨ihp, ihc⟩ := ih
      constructor
      · intro k k' p o C h
        obtain ⟨k₁, hk₁, h⟩ := bind_eq_ok.mp h
        obtain ⟨k₂, hk₂, h⟩ := bind_eq_ok.mp h
        obtain ⟨⟨ds₁, run₁, hds₁⟩, ht₁⟩ := terminateThreads C hk₁
        have C₁ := C.run run₁
        obtain ⟨⟨ds₂, run₂, hds₂⟩, hc₂⟩ := ihc C₁ hk₂
        have C₂ := C₁.run run₂
        cases h
        have under₁ : ∀ d ∈ ds₁, d.Under k.kept p := by
          intro d hd
          obtain ⟨t, rfl, ho⟩ := hds₁ d hd
          exact ⟨p, Below.refl p, ho⟩
        have rem₁ := Kept.remains_of_run run₁ fun d hd => Kept.shrinks_of_under (under₁ d hd)
        have rem₂ := Kept.remains_of_run run₂ fun d hd => Kept.shrinks_of_under (hds₂ d hd)
        have under : ∀ d ∈ ds₁ ++ ds₂, d.Under k.kept p := by
          intro d hd
          rcases List.mem_append.mp hd with hd | hd
          · exact under₁ d hd
          · exact rem₁.under (hds₂ d hd)
        have ht₂ : k₂.kept.view.threads (.of p) = [] := by
          rw [List.eq_nil_iff_forall_not_mem]
          intro t ht
          obtain ⟨hssi, ho⟩ := C₂.listed.mp ht
          have hm : t ∈ k₁.kept.view.threads (.of p) := C₁.listed.mpr ⟨hssi, rem₂.owner_eq ho⟩
          simp [ht₁] at hm
        have run₁₂ := run₁.append run₂
        rcases procDelete C₂ p with ⟨ha₃, h₃⟩ | ⟨ha₃, h₃⟩
        · have run₃ := one ha₃ h₃
          have C₃ := C₂.run run₃
          have hself : ((MikaBoo.procDelete k₂ p).2.kept.pcb p).pParent = .none := by
            simp [h₃, Kept.after]
          refine ⟨⟨_, run₁₂.append run₃, ?_⟩, ?_, ?_, fun _ => hself⟩
          · intro d hd
            rcases List.mem_append.mp hd with hd | hd
            · exact under d hd
            · obtain rfl := List.mem_singleton.mp hd
              exact Below.refl p
          · rw [List.eq_nil_iff_forall_not_mem]
            intro q hq
            have hpar := C₃.tree.children.mp hq
            have hne : q ≠ p := by
              rintro rfl
              exact absurd (hself.symm.trans hpar) (by rintro ⟨⟩)
            have hm : q ∈ k₂.kept.view.procs (.children p) := by
              apply C₂.tree.children.mpr
              simpa [h₃, Kept.view, Kept.after, hne] using hpar
            simp [hc₂] at hm
          · have hlinks : (MikaBoo.procDelete k₂ p).2.kept.view.threads = k₂.kept.view.threads := by
              rw [h₃]
              rfl
            rw [hlinks]
            exact ht₂
        · rw [h₃]
          refine ⟨⟨_, run₁₂, under⟩, hc₂, ht₂, fun hroot => ?_⟩
          by_contra hpar
          exact ha₃ ⟨hpar, hc₂, ht₂⟩
      · intro k k' p C h
        obtain ⟨q, hq, h⟩ := bind_eq_ok.mp h
        rw [procFirstchild C, Except.ok.injEq] at hq
        cases q with
        | none =>
            cases h
            exact ⟨⟨[], .nil, by simp⟩, List.head?_eq_none_iff.mp hq⟩
        | some q =>
            obtain ⟨k₁, hk₁, h⟩ := bind_eq_ok.mp h
            have P := ihp C hk₁
            obtain ⟨⟨ds, run, hds⟩, hempty⟩ := ihc (P.rolls C) h
            obtain ⟨ds₁, run₁, hds₁⟩ := P.run
            have hpar : (k.kept.view.pcb q).pParent = some p :=
              C.tree.children.mp (List.mem_of_head? hq)
            refine ⟨⟨_, run₁.append run, fun d hd => ?_⟩, hempty⟩
            rcases List.mem_append.mp hd with hd | hd
            · have hu := hds₁ d hd
              cases d with
              | fire t =>
                  obtain ⟨r, hr, ho⟩ := hu
                  exact ⟨r, Below.child hr hpar, ho⟩
              | orphan r => exact Below.child hu hpar
              | _ => exact hu.elim
            · exact P.remains.under (hds d hd)

theorem terminateProcessS (C : k.kept.Rolls) (h : MikaBoo.terminateProcessS fuel k t = .ok k') :
    ∃ p, (k.tcb t).tPcb = some p ∧ Kept.Pruned k.kept p k'.kept := by
  unfold MikaBoo.terminateProcessS at h
  split at h
  · cases h
  · rename_i p hp
    exact ⟨p, hp, (subtree fuel).1 C h⟩

end Deeds

/-! ## Services -/

/-- What serving the request `q` for `t`, with the reply `r`, does to the lists
of processes and threads. -/
inductive Served (k : Kernel) (t : Tcb) (msg : Value) (q : Request) (r : Option Value)
    (k' : Kernel) : Prop
  | plain (same : k'.kept = k.kept) (process : k.terminated t msg q = none)
      (thread : q ≠ .terminateThread) (manager : k.appointment t msg q = none)
  | create {ds} (scope : q.scope = .create) (run : Run Kept.Step k.kept ds k'.kept)
      (creates : ∀ d ∈ ds, Deeds.Creates k.kept d)
  | terminate {p} (process : k.terminated t msg q = some p) (silent : r = none)
      (pruned : Kept.Pruned k.kept p k'.kept)
  | free (request : q = .terminateThread) (process : k.terminated t msg q = none) (silent : r = none)
      (freed : k'.kept = k.kept.after (.fire t))
  | appoint {p role m} (manager : k.appointment t msg q = some (p, role, m))
      (alive : k.kept.view.Alive p)
      (set : k'.kept = k.kept.after (.manage p (role.set (k.pcb p) (some m))))
  | engage (request : q = .doIo)
      (free : k.softBlockedThread TERMINAL_REQUESTER_INDEX = none)
      (engaged : k'.kept = k.kept.after (.engage TERMINAL_REQUESTER_INDEX t))

namespace Served

variable {k k' : Kernel} {t : Tcb} {msg : Value} {q : Request} {r : Option Value} {fuel : Nat}

/-- A service that sets a manager. -/
theorem of_rawSetmgr (role : Role) {o : Option Tcb} (C : k.kept.Rolls)
    (hrole : q.role = some role) (ha : (reqField k msg 1 >>= Value.toTcb) = .ok o)
    (h : MikaBoo.rawSetmgr role.get role.set fuel k o t = .ok (r, k')) :
    Served k t msg q r k' := by
  have harg := Kernel.argument_of_toTcb ha
  have hq : q ≠ .terminateProcess ∧ q ≠ .terminateThread := by
    constructor <;> rintro rfl <;> cases hrole
  have hterm : k.terminated t msg q = (k.tcb t).tPcb.filter fun p =>
      (k.argument msg).isSome && q.role.any fun r => (r.get (k.pcb p)).isSome := by
    cases q <;> first | rfl | cases hrole
  unfold MikaBoo.rawSetmgr at h
  split at h
  · cases h
    refine .plain rfl ?_ hq.2 ?_
    · cases hp : (k.tcb t).tPcb <;> simp [hterm, harg, hp]
    · cases hp : (k.tcb t).tPcb <;> simp [Kernel.appointment, harg, hp, hrole]
  · rename_i m
    split at h
    · cases h
    · rename_i p hp
      split at h
      · rename_i _ hset
        obtain ⟨k₁, hk₁, h⟩ := bind_eq_ok.mp h
        cases h
        obtain ⟨p', hp', P⟩ := Deeds.terminateProcessS C hk₁
        obtain rfl := Option.some.inj (hp.symm.trans hp')
        exact .terminate (by simp [hterm, harg, hp, hrole, hset]) rfl P
      · rename_i hnone
        cases h
        exact .appoint (m := m) (by simp [Kernel.appointment, hp, hrole, harg, hnone])
          (C.tree.owner_alive (t := t) hp) rfl

/-- Every service, WAIT_FOR_CLOCK included. -/
theorem of_service (C : k.kept.Rolls) (h : MikaBoo.service fuel k t msg q = .ok (r, k')) :
    Served k t msg q r k' := by
  cases q with
  | getErrno | getCputime =>
      cases h
      exact .plain rfl (by simp [Kernel.terminated, Request.role]) (by rintro ⟨⟩)
        (by simp [Kernel.appointment, Request.role])
  | waitForClock =>
      cases h
      exact .plain rfl (by simp [Kernel.terminated, Request.role]) (by rintro ⟨⟩)
        (by simp [Kernel.appointment, Request.role])
  | createProcess =>
      obtain ⟨_, _, h⟩ := bind_eq_ok.mp h
      obtain ⟨_, _, h⟩ := bind_eq_ok.mp h
      obtain ⟨_, hk, h⟩ := bind_eq_ok.mp h
      cases h
      obtain ⟨ds, run, hds⟩ := Deeds.createProcessS C hk
      exact .create rfl run hds
  | createThread =>
      obtain ⟨_, _, h⟩ := bind_eq_ok.mp h
      obtain ⟨_, _, h⟩ := bind_eq_ok.mp h
      obtain ⟨_, hk, h⟩ := bind_eq_ok.mp h
      cases h
      rcases Deeds.rawCreateThreadS C (fun p hp => C.tree.owner_alive (t := t) hp) hk with
        ⟨_, hsame⟩ | ⟨u, p, _, _, ha, hu⟩
      · exact .create rfl (Deeds.none hsame) (by simp)
      · exact .create rfl (Deeds.one ha hu) (by simp [Deeds.Creates])
  | terminateProcess =>
      obtain ⟨_, hk, h⟩ := bind_eq_ok.mp h
      cases h
      obtain ⟨p, hp, P⟩ := Deeds.terminateProcessS C hk
      exact .terminate hp rfl P
  | terminateThread =>
      obtain ⟨_, hk, h⟩ := bind_eq_ok.mp h
      cases h
      unfold MikaBoo.terminateThreadS at hk
      split at hk
      · rename_i p hp
        split at hk
        · rename_i honly
          obtain ⟨p', hp', P⟩ := Deeds.terminateProcessS C hk
          obtain rfl := Option.some.inj (hp.symm.trans hp')
          exact .terminate (by simp [Kernel.terminated, hp, honly]) rfl P
        · rename_i honly
          exact .free rfl (by simp [Kernel.terminated, hp, honly]) rfl
            (Deeds.rawTerminateThreadS hk)
      · rename_i hp
        exact .free rfl (by simp [Kernel.terminated, hp]) rfl (Deeds.rawTerminateThreadS hk)
  | setpgmmgr =>
      obtain ⟨v, hv, h⟩ := bind_eq_ok.mp h
      obtain ⟨o, ho, h⟩ := bind_eq_ok.mp h
      exact of_rawSetmgr .pgmMgr C rfl (bind_eq_ok.mpr ⟨v, hv, ho⟩) h
  | settlbmgr =>
      obtain ⟨v, hv, h⟩ := bind_eq_ok.mp h
      obtain ⟨o, ho, h⟩ := bind_eq_ok.mp h
      exact of_rawSetmgr .tlbMgr C rfl (bind_eq_ok.mpr ⟨v, hv, ho⟩) h
  | setsysmgr =>
      obtain ⟨v, hv, h⟩ := bind_eq_ok.mp h
      obtain ⟨o, ho, h⟩ := bind_eq_ok.mp h
      exact of_rawSetmgr .sysMgr C rfl (bind_eq_ok.mpr ⟨v, hv, ho⟩) h
  | doIo =>
      obtain ⟨_, _, h⟩ := bind_eq_ok.mp h
      obtain ⟨_, _, h⟩ := bind_eq_ok.mp h
      obtain ⟨_, _, h⟩ := bind_eq_ok.mp h
      obtain ⟨_, _, h⟩ := bind_eq_ok.mp h
      obtain ⟨_, hk, h⟩ := bind_eq_ok.mp h
      cases h
      unfold doIoS at hk
      split at hk
      · dsimp only at hk
        split at hk <;> cases hk
        exact .engage rfl (by assumption) rfl
      · cases hk
  | getProcessid | getParentprocid =>
      obtain ⟨_, _, h⟩ := bind_eq_ok.mp h
      obtain ⟨_, _, h⟩ := bind_eq_ok.mp h
      cases h
      exact .plain rfl (by simp [Kernel.terminated, Request.role]) (by rintro ⟨⟩)
        (by simp [Kernel.appointment, Request.role])
  | getMythreadid =>
      obtain ⟨_, _, h⟩ := bind_eq_ok.mp h
      cases h
      exact .plain rfl (by simp [Kernel.terminated, Request.role]) (by rintro ⟨⟩)
        (by simp [Kernel.appointment, Request.role])

/-- Where the loop of the SSI is does not matter to a service. -/
theorem of_point {p : SsiPoint} (h : Served { k with ssiPoint := p } t msg q r k') :
    Served k t msg q r k' := by
  cases h with
  | plain same process thread manager => exact .plain same process thread manager
  | create scope run creates => exact .create scope run creates
  | terminate process silent pruned => exact .terminate process silent pruned
  | free request process silent freed => exact .free request process silent freed
  | appoint manager alive set => exact .appoint manager alive set
  | engage request free engaged => exact .engage request free engaged

/-- What the service leaves of a state with the same lists. -/
theorem congr {k₁ : Kernel} (h : Served k t msg q r k') (h₁ : k₁.kept = k'.kept) :
    Served k t msg q r k₁ := by
  cases h with
  | plain same process thread manager => exact .plain (h₁.trans same) process thread manager
  | create scope run creates =>
      rw [← h₁] at run
      exact .create scope run creates
  | terminate process silent pruned =>
      rw [← h₁] at pruned
      exact .terminate process silent pruned
  | free request process silent freed => exact .free request process silent (h₁.trans freed)
  | appoint manager alive set => exact .appoint manager alive (h₁.trans set)
  | engage request free engaged => exact .engage request free (h₁.trans engaged)

/-- The service keeps the lists in order, unless it frees the SSI. -/
theorem rolls (h : Served k t msg q r k') (C : k.kept.Rolls)
    (ht : q = .terminateThread → t ≠ .ssi) : k'.kept.Rolls := by
  cases h with
  | plain same => rwa [same]
  | create _ run _ => exact C.run run
  | terminate _ _ pruned => exact pruned.rolls C
  | free request _ _ freed =>
      rw [freed]
      exact C.fire (ht request)
  | @appoint p role m _ alive set =>
      rw [set]
      refine C.after ⟨alive, ?_⟩
      cases role <;> rfl
  | engage _ free engaged =>
      rw [engaged]
      exact C.after free

end Served

/-! ## Times

What follows does not depend on the lists. -/

/-- The processor and the clock are unchanged, and the time of each thread is
kept or, if the thread has been freed, forgotten. -/
structure Kept.Spares (c c' : Kept) : Prop where
  processor : c'.processor = c.processor
  times : ∀ t, c'.incarnation t = c.incarnation t ∧ c'.runTime t = c.runTime t ∨
    c.incarnation t < c'.incarnation t ∧ c'.runTime t = 0

namespace Kept.Spares

variable {k k' : Kernel}

theorem of_eq (h : k'.kept = k.kept) : k.kept.Spares k'.kept := by
  rw [h]
  exact ⟨rfl, fun _ => Or.inl ⟨rfl, rfl⟩⟩

theorem trans {c c₁ c' : Kept} (h₁ : c.Spares c₁) (h₂ : c₁.Spares c') : c.Spares c' := by
  refine ⟨h₂.processor.trans h₁.processor, fun t => ?_⟩
  rcases h₁.times t with ⟨hi₁, hr₁⟩ | ⟨hi₁, hr₁⟩ <;>
    rcases h₂.times t with ⟨hi₂, hr₂⟩ | ⟨hi₂, hr₂⟩
  · exact Or.inl ⟨hi₂.trans hi₁, hr₂.trans hr₁⟩
  · exact Or.inr ⟨hi₁ ▸ hi₂, hr₂⟩
  · exact Or.inr ⟨hi₂ ▸ hi₁, hr₂.trans hr₁⟩
  · exact Or.inr ⟨hi₁.trans hi₂, hr₂⟩

/-- What is charged to a thread is forgotten when the thread is freed. -/
theorem threadFree (k : Kernel) (t : Tcb) : k.kept.Spares (MikaBoo.threadFree k t).2.kept := by
  unfold MikaBoo.threadFree
  split
  · exact of_eq rfl
  · split
    · exact of_eq rfl
    · refine ⟨rfl, fun u => ?_⟩
      by_cases hu : u = t
      · subst hu
        right
        simp [Kernel.kept, Kernel.incarnation, Kernel.record, cleanThreadData, Kernel.modTcb]
      · left
        simp [Kernel.kept, Kernel.incarnation, Kernel.record, cleanThreadData, Kernel.modTcb, hu,
          Ne.symm hu]

theorem chore (c : Chore k k') : k.kept.Spares k'.kept := by
  have hsame : ∀ {k' : Kernel}, k'.kept.processor = k.kept.processor →
      k'.incarnation = k.incarnation → (∀ u, (k'.tcb u).runTime = (k.tcb u).runTime) →
      k.kept.Spares k'.kept := fun hp hi hr =>
    ⟨hp, fun u => Or.inl ⟨congrFun hi u, hr u⟩⟩
  cases c with
  | clean get => exact of_eq (Frame.msgqGet get)
  | drop | wait => exact of_eq rfl
  | abort u =>
      have h₁ := Frame.modTcb k u (fun d => { d with errno := 1 }) rfl rfl
      exact of_eq ((Frame.resumeThread _ u none null).trans h₁)
  | free t => exact threadFree k t
  | delete p =>
      unfold MikaBoo.procDelete
      split <;> exact hsame rfl rfl fun _ => rfl
  | alloc alloc =>
      obtain ⟨_, _, h⟩ := bind_eq_ok.mp alloc
      split at h <;> cases h <;> exact hsame rfl rfl fun _ => rfl
  | @create _ _ t s alloc =>
      obtain ⟨_, _, h⟩ := bind_eq_ok.mp alloc
      split at h <;> cases h
      refine hsame rfl ?_ fun u => ?_
      · funext u
        simp [Kernel.incarnation, Kernel.record, Kernel.modTcb, threadEnqueue]
      · by_cases hu : u = t <;> simp [Kernel.record, Kernel.modTcb, threadEnqueue, hu]
  | count | manage | engage => exact hsame rfl rfl fun _ => rfl

theorem chores (cs : Chores k k') : k.kept.Spares k'.kept := by
  induction cs with
  | refl => exact of_eq rfl
  | tail _ c ih => exact ih.trans (chore c)

end Kept.Spares

/-! ## The SSI -/

/-- The SSI serves a request that it holds, and may reply. -/
theorem ssi_serves {k k' : Kernel} {fuel : Nat} {x : Exit} (hp : k.ssiPoint = .serving)
    (h : MikaBoo.ssi fuel k = .ok (x, k')) :
    ∃ t q k₁ r, k.applicant = some t ∧ k.request = some q ∧
      service fuel { k with ssiPoint := .receiving } t k.ssiMsg q = .ok (r, k₁) ∧
      ((r = none ∧ x = .resume k₁.cpu ∧ k' = k₁) ∨ ∃ reply, r = some reply ∧
        MikaBoo.msgsend k₁ k₁.cpu t reply = .ok k' ∧ x = .resume k'.sysbkOldarea) := by
  unfold MikaBoo.ssi at h
  simp only [hp] at h
  obtain ⟨o, ho, h⟩ := bind_eq_ok.mp h
  cases o with
  | none => cases h
  | some t =>
      have hcpu : k.cpu.a1 = .tcb t := by
        unfold Value.toTcb at ho
        split at ho <;> cases ho
        assumption
      obtain ⟨tag, htag, h⟩ := bind_eq_ok.mp h
      cases hq : Request.ofTag tag with
      | none => simp [hq] at h
      | some q =>
          have hreq : k.request = some q := by
            have htag' : reqField k k.ssiMsg 0 = .ok tag := htag
            simp [Kernel.request, hp, requestOf, htag', hq]
          simp only [hq] at h
          obtain ⟨⟨r, k₁⟩, hk₁, h⟩ := bind_eq_ok.mp h
          refine ⟨t, q, k₁, r, by simp [Kernel.applicant, hcpu], hreq, hk₁, ?_⟩
          cases r with
          | none =>
              cases h
              exact Or.inl ⟨rfl, rfl, rfl⟩
          | some reply =>
              obtain ⟨k₂, hk₂, h⟩ := bind_eq_ok.mp h
              cases h
              exact Or.inr ⟨reply, rfl, hk₂, rfl⟩

theorem point_of_request {k : Kernel} {q : Request} (hq : k.request = some q) :
    k.ssiPoint = .serving := by
  unfold Kernel.request at hq
  split at hq
  · cases hq
  · assumption

theorem request_of_idle {k : Kernel} (hs : k.serves .ssi = false) : k.request = none := by
  cases hq : k.request with
  | none => rfl
  | some q => simp [Kernel.serves, point_of_request hq] at hs

/-- The SSI, holding a request, serves it and goes on, with or without a reply. -/
theorem ssi_step {k k' : Kernel} {fuel : Nat} {t : Tcb} {q : Request} (ha : k.applicant = some t)
    (hq : k.request = some q) (h : step fuel k .ssi = .ok k') :
    k.currentThread = some .ssi ∧ ∃ k₁ r,
      service fuel { k with ssiPoint := .receiving } t k.ssiMsg q = .ok (r, k₁) ∧
      ((r = none ∧ k' = k₁) ∨ ∃ reply k₂, r = some reply ∧
        msgsend k₁ k₁.cpu t reply = .ok k₂ ∧ k' = { k₂ with cpu := k₂.sysbkOldarea }) := by
  obtain ⟨⟨x, k₂⟩, hk₂, h⟩ := bind_eq_ok.mp h
  simp only [entry] at hk₂
  split at hk₂
  · rename_i hrun
    obtain ⟨t', q', k₁, r, ha', hq', hk₁, hr⟩ := ssi_serves (point_of_request hq) hk₂
    obtain rfl := Option.some.inj (ha.symm.trans ha')
    obtain rfl := Option.some.inj (hq.symm.trans hq')
    refine ⟨hrun.2, k₁, r, hk₁, ?_⟩
    rcases hr with ⟨hnone, rfl, rfl⟩ | ⟨reply, hsome, hsend, rfl⟩
    · cases h
      exact Or.inl ⟨hnone, rfl⟩
    · cases h
      exact Or.inr ⟨reply, k₂, hsome, hsend, rfl⟩
  · cases hk₂

/-- The service determines the step that serves a request. -/
theorem step_serving {k : Kernel} {fuel : Nat} {t : Tcb} {q : Request} (hm : k.mode = .running)
    (hcur : k.currentThread = some .ssi) (ha : k.applicant = some t) (hq : k.request = some q) :
    step fuel k .ssi = (do
      let (r, k₁) ← service fuel { k with ssiPoint := .receiving } t k.ssiMsg q
      r.elim (.ok k₁) fun reply => do
        let k₂ ← msgsend k₁ k₁.cpu t reply
        return { k₂ with cpu := k₂.sysbkOldarea }) := by
  have ha : k.cpu.a1 = .tcb t := by
    unfold Kernel.applicant at ha
    split at ha <;> cases ha
    assumption
  obtain ⟨tag, htag, hreq⟩ : ∃ tag, reqField k k.ssiMsg 0 = .ok tag ∧
      Request.ofTag tag = some q := by
    simp only [Kernel.request, point_of_request hq, requestOf] at hq
    split at hq
    · exact ⟨_, by assumption, hq⟩
    · cases hq
  have hentry : entry fuel k .ssi = MikaBoo.ssi fuel k := if_pos ⟨hm, hcur⟩
  have hssi : MikaBoo.ssi fuel k =
      ssiServe fuel { k with ssiPoint := .receiving } t k.ssiMsg := by
    simp only [MikaBoo.ssi, point_of_request hq, ha, Value.toTcb, ok_bind]
  have htag' : reqField { k with ssiPoint := .receiving } k.ssiMsg 0 = .ok tag := htag
  rw [step, hentry, hssi, ssiServe, htag', ok_bind, hreq]
  dsimp only
  cases service fuel { k with ssiPoint := .receiving } t k.ssiMsg q with
  | error e => rfl
  | ok s =>
      obtain ⟨r, k₁⟩ := s
      cases r with
      | none => rfl
      | some reply =>
          simp only [bind, Except.bind, Option.elim_some]
          cases msgsend k₁ k₁.cpu t reply <;> rfl

/-! ## Steps of any run -/

/-- A kernel entry serves a request of the SSI, or does what `onEntry` says. -/
theorem entry_spares {k k' : Kernel} {e : Event} {fuel : Nat} {x : Exit}
    (h : entry fuel k e = .ok (x, k')) :
    (k.serves e = false ∧ x.leaves = k.reschedules e ∧ k'.kept = k.onEntry e) ∨
      (k.serves e = true ∧ x.leaves = false ∧ k.kept.Spares k'.kept) := by
  cases hs : k.serves e with
  | false =>
      obtain ⟨hx, hk⟩ := entry_kept hs h
      exact Or.inl ⟨rfl, hx, hk⟩
  | true =>
      obtain ⟨rfl, hp⟩ : e = .ssi ∧ k.ssiPoint = .serving := by
        cases e <;> simp_all [Kernel.serves]
      simp only [entry] at h
      split at h
      · obtain ⟨t, q, k₁, r, _, _, hk₁, hr⟩ := ssi_serves hp h
        have S : Kernel.kept { k with ssiPoint := .receiving } |>.Spares k₁.kept :=
          .chores (.service hk₁)
        rcases hr with ⟨_, rfl, rfl⟩ | ⟨reply, _, hsend, rfl⟩
        · exact Or.inr ⟨rfl, rfl, S⟩
        · exact Or.inr ⟨rfl, rfl, S.trans (.of_eq (Frame.msgsend hsend))⟩
      · cases h

/-- The same, when the lists are in order. -/
theorem entry_served {k k' : Kernel} {e : Event} {fuel : Nat} {x : Exit} (C : k.kept.Rolls)
    (h : entry fuel k e = .ok (x, k')) :
    (k.serves e = false ∧ x.leaves = k.reschedules e ∧ k'.kept = k.onEntry e) ∨
      ∃ t q r, e = .ssi ∧ k.applicant = some t ∧ k.request = some q ∧ x.leaves = false ∧
        Served k t k.ssiMsg q r k' := by
  cases hs : k.serves e with
  | false =>
      obtain ⟨hx, hk⟩ := entry_kept hs h
      exact Or.inl ⟨rfl, hx, hk⟩
  | true =>
      obtain ⟨rfl, hp⟩ : e = .ssi ∧ k.ssiPoint = .serving := by
        cases e <;> simp_all [Kernel.serves]
      simp only [entry] at h
      split at h
      · obtain ⟨t, q, k₁, r, ha, hq, hk₁, hr⟩ := ssi_serves hp h
        have C₀ : Kernel.kept { k with ssiPoint := .receiving } |>.Rolls := C
        have S := (Served.of_service C₀ hk₁).of_point
        rcases hr with ⟨rfl, rfl, rfl⟩ | ⟨reply, rfl, hsend, rfl⟩
        · exact Or.inr ⟨t, q, none, rfl, ha, hq, rfl, S⟩
        · exact Or.inr ⟨t, q, some reply, rfl, ha, hq, rfl, S.congr (Frame.msgsend hsend)⟩
      · cases h

/-- The SSI does not serve its own termination. -/
def NotSelf (k : Kernel) (e : Event) : Prop :=
  e = .ssi → k.request = some .terminateThread → k.applicant ≠ some .ssi

instance (k : Kernel) (e : Event) : Decidable (NotSelf k e) :=
  match e with
  | .ssi => decidable_of_iff (k.request = some .terminateThread → k.applicant ≠ some .ssi)
      ⟨fun h _ => h, fun h => h rfl⟩
  | .start | .run .. | .elapse _ | .edit .. | .syscall | .pgmtrap _ | .tlbtrap _ | .interrupt _ =>
      isTrue nofun

/-- Every step of any run keeps the lists of processes and threads in order. -/
theorem Kept.Rolls.entry {k k' : Kernel} {e : Event} {fuel : Nat} {x : Exit} (C : k.kept.Rolls)
    (hn : NotSelf k e) (h : MikaBoo.entry fuel k e = .ok (x, k')) : k'.kept.Rolls := by
  rcases entry_served C h with ⟨_, _, hk⟩ | ⟨t, q, r, he, ha, hq, _, S⟩
  · obtain ⟨hpcb, hprocs, _, hcounts⟩ := k.onEntry_lists e
    rw [← hk] at hpcb hprocs hcounts
    have hlinks : k'.kept.counts.threadLinks = k.kept.counts.threadLinks :=
      (congrArg Counts.threadLinks hcounts :)
    have howner : k'.kept.counts.owner = k.kept.counts.owner := (congrArg Counts.owner hcounts :)
    exact C.congr hlinks howner hprocs hpcb
  · refine S.rolls C fun hqt => ?_
    rintro rfl
    exact hn he (by rw [hq, hqt]) ha

/-- The end of a kernel entry does not matter to the lists. -/
theorem Kept.Rolls.leave {k k' : Kernel} {x : Exit} (C : k.kept.Rolls)
    (h : MikaBoo.leave k x = .ok k') : k'.kept.Rolls := by
  have hk := Frame.leave h
  have hcounts : k'.kept.counts = k.kept.counts := (congrArg Kept.counts hk :)
  exact C.congr (congrArg Counts.threadLinks hcounts) (congrArg Counts.owner hcounts)
    (congrArg Kept.procLinks hk :) (congrArg Kept.pcb hk :)

theorem Kept.Rolls.step {k k' : Kernel} {e : Event} {fuel : Nat} (C : k.kept.Rolls)
    (hn : NotSelf k e) (h : MikaBoo.step fuel k e = .ok k') : k'.kept.Rolls := by
  obtain ⟨⟨x, k₁⟩, hk₁, h⟩ := bind_eq_ok.mp h
  exact (C.entry hn hk₁).leave h

/-- The lists are in order when the kernel has booted. -/
theorem Kept.Rolls.of_inv {k : Kernel} {r : Option Tcb} (R : Refines k k.view) (I : k.view.Inv r) :
    k.kept.Rolls where
  procs := R.procs
  threads := R.threads
  tree := I.tree.congr rfl rfl fun _ => rfl
  listed := by
    intro t l
    cases l with
    | free => exact I.owned.free
    | of p =>
        change t ∈ k.view.threads (.of p) ↔ _
        rw [I.owned.owned]
        refine ⟨fun h => ⟨?_, h⟩, And.right⟩
        rintro rfl
        rw [I.owned.ssi] at h
        cases h
  ssi := I.owned.ssi

end MikaBoo
