import MikaBoo.Abstract.Survivors
import MikaBoo.Properties.Ownership

/-!
# No process without threads

Every allocated process but the root has a thread, and its parents lead to the root.
A creation that finds no thread gives the process back, and the termination of the
last thread of a process deletes the process and its descendants.
-/

namespace MikaBoo

open Intrusive Fuel Transition Forest

namespace Kept

variable {c c' : Kept} {t : Tcb} {p r : Pcb}

/-- Every allocated process but the root has a thread. -/
def Staffed (c : Kept) : Prop :=
  ∀ p, c.view.Alive p → p ≠ root → ∃ t, c.counts.owner t = some p

namespace Staffed

theorem congr (S : c.Staffed) (hparent : ∀ p, (c'.pcb p).pParent = (c.pcb p).pParent)
    (howner : c'.counts.owner = c.counts.owner) : c'.Staffed := by
  intro p hp hroot
  have hp : c.view.Alive p := hp.imp id fun h => (hparent p).symm ▸ h
  obtain ⟨t, ht⟩ := S p hp hroot
  exact ⟨t, by rw [howner, ht]⟩

/-- A new thread leaves the other threads where they are. -/
theorem hire (S : c.Staffed) (ha : c.Allows (.hire t p)) : (c.after (.hire t p)).Staffed := by
  intro q hq hroot
  obtain ⟨u, hu⟩ := S q hq hroot
  have hut : u ≠ t := by
    rintro rfl
    exact absurd (ha.2.1.symm.trans hu) nofun
  exact ⟨u, by simp [Kept.after, hut, hu]⟩

/-- A new process gets a thread. -/
theorem adopt_hire (S : c.Staffed) (ha : (c.after (.adopt p r)).Allows (.hire t p)) :
    ((c.after (.adopt p r)).after (.hire t p)).Staffed := by
  intro q hq hroot
  by_cases hqp : q = p
  · subst hqp
    exact ⟨t, by simp [Kept.after]⟩
  · have hq : c.view.Alive q := hq.congr (by simp [view, Kept.after, hqp])
    obtain ⟨u, hu⟩ := S q hq hroot
    have hut : u ≠ t := by
      rintro rfl
      exact absurd (ha.2.1.symm.trans hu) (by rintro ⟨⟩)
    exact ⟨u, by simp [Kept.after, hut, hu]⟩

/-- A new process without a thread is deleted again. -/
theorem adopt_orphan (S : c.Staffed) (hroot : p ≠ root) :
    ((c.after (.adopt p r)).after (.orphan p)).Staffed := by
  intro q hq hqroot
  have hqp : q ≠ p := by
    rintro rfl
    exact hq.elim hroot fun h => h (by simp [view, Kept.after])
  exact S q (hq.congr (by simp [view, Kept.after, hqp])) hqroot

/-- A process that has just been handed out has no children and no threads. -/
theorem allows_orphan (C : c.Rolls) (ha : c.Allows (.adopt p r)) :
    (c.after (.adopt p r)).Allows (.orphan p) := by
  have C₁ := C.after ha
  obtain ⟨hroot, hnone, halive⟩ := ha
  have hdead : ¬ c.view.Alive p := fun h => h.elim hroot fun h => h hnone
  refine ⟨by simp [Kept.after], ?_, ?_⟩
  · rw [List.eq_nil_iff_forall_not_mem]
    intro q hq
    have hpar := C₁.tree.children.mp hq
    by_cases hqp : q = p
    · subst hqp
      have hr : r = q := by simpa [view, Kept.after] using hpar
      exact hdead (hr ▸ halive)
    · have hpar : (c.view.pcb q).pParent = some p := by simpa [view, Kept.after, hqp] using hpar
      exact hdead (C.tree.parent_alive hpar)
  · rw [List.eq_nil_iff_forall_not_mem]
    intro t ht
    have howner : (c.view.tcb t).tPcb = some p := (C₁.listed.mp ht).2
    exact hdead (C.tree.owner_alive howner)

/-- A termination leaves no process without its threads. -/
theorem pruned (S : c.Staffed) (C : c.Rolls) (P : Pruned c p c') : c'.Staffed := by
  intro q hq hroot
  have hsame : c.view.pcb q = c'.view.pcb q := by
    refine ((P.remains.pcb q).resolve_left fun hclear => ?_).symm
    exact hq.elim hroot fun h => h (congrArg PcbT.pParent hclear)
  have hbelow : ¬ c.view.Below q p := by
    intro hb
    exact hq.elim hroot fun h => h (P.gone C hb hroot)
  obtain ⟨t, ht⟩ := S q (hq.congr hsame) hroot
  refine ⟨t, ?_⟩
  rw [(P.spared C ?_).2, ht]
  rw [C.mem_staff]
  rintro ⟨q', hq', ht'⟩
  obtain rfl := Option.some.inj (ht.symm.trans ht')
  exact hbelow hq'

/-- A thread that is not the only one of its process may go. -/
theorem fire (S : c.Staffed) (ht : ∀ p, c.counts.owner t = some p → ∃ u ≠ t, c.counts.owner u = some p) :
    (c.after (.fire t)).Staffed := by
  intro q hq hroot
  obtain ⟨u, hu⟩ := S q hq hroot
  by_cases hut : u = t
  · subst hut
    obtain ⟨u', hne, hu'⟩ := ht q hu
    exact ⟨u', by simp [Kept.after, hne, hu']⟩
  · exact ⟨u, by simp [Kept.after, hut, hu]⟩

end Staffed

end Kept

/-! ## Services -/

namespace Kept.Staffed

variable {k k' : Kernel} {e : Event} {t : Tcb} {q : Request} {msg : Value} {r : Option Value}
  {s : State} {o : Option Tcb} {fuel : Nat}

theorem createProcessS (S : k.kept.Staffed) (C : k.kept.Rolls)
    (h : MikaBoo.createProcessS k s t = .ok (o, k')) : k'.kept.Staffed := by
  obtain ⟨⟨q, k₁⟩, hk₁, h'⟩ := bind_eq_ok.mp h
  rcases Deeds.procAlloc C (fun p hp => C.tree.owner_alive (t := t) hp) hk₁ with
    ⟨rfl, rfl⟩ | ⟨p, r, rfl, _, ha₁, h₁⟩
  · cases h'
    exact S
  · obtain ⟨⟨o', k₂⟩, hk₂, h''⟩ := bind_eq_ok.mp h'
    have C₁ : k₁.kept.Rolls := C.run (Deeds.one ha₁ h₁)
    have halive : ∀ q ∈ some p, k₁.kept.view.Alive q := by
      rintro q hq
      cases hq
      exact Or.inr (by simp [h₁, Kept.view, Kept.after])
    rcases Deeds.rawCreateThreadS C₁ halive hk₂ with ⟨rfl, h₂⟩ | ⟨u, p', rfl, hp', ha₂, h₂⟩
    · cases h''
      have C₂ : k₂.kept.Rolls := by rwa [h₂]
      rcases Deeds.procDelete C₂ p with ⟨_, h₃⟩ | ⟨hno, _⟩
      · rw [h₃, h₂, h₁]
        exact S.adopt_orphan ha₁.1
      · rw [h₂, h₁] at hno
        exact absurd (allows_orphan C ha₁) hno
    · cases h''
      cases hp'
      rw [h₁] at ha₂
      rw [h₂, h₁]
      exact S.adopt_hire ha₂

/-- A request that creates leaves every process with a thread. -/
theorem created (S : k.kept.Staffed) (C : k.kept.Rolls) (hq : q.scope = .create)
    (h : MikaBoo.service fuel k t msg q = .ok (r, k')) : k'.kept.Staffed := by
  cases q with
  | createProcess =>
      obtain ⟨_, _, h⟩ := bind_eq_ok.mp h
      obtain ⟨_, _, h⟩ := bind_eq_ok.mp h
      obtain ⟨_, hk, h⟩ := bind_eq_ok.mp h
      cases h
      exact S.createProcessS C hk
  | createThread =>
      obtain ⟨_, _, h⟩ := bind_eq_ok.mp h
      obtain ⟨_, _, h⟩ := bind_eq_ok.mp h
      obtain ⟨_, hk, h⟩ := bind_eq_ok.mp h
      cases h
      rcases Deeds.rawCreateThreadS C (fun p hp => C.tree.owner_alive (t := t) hp) hk with
        ⟨_, hsame⟩ | ⟨u, p, _, _, ha, hu⟩
      · rwa [hsame]
      · rw [hu]
        exact S.hire ha
  | _ => cases hq

/-- A thread that TERMINATE_THREAD frees alone has a sibling. -/
theorem sibling (C : k.kept.Rolls) (hterm : k.terminated t msg .terminateThread = none) {p : Pcb}
    (hp : k.kept.counts.owner t = some p) : ∃ u ≠ t, k.kept.counts.owner u = some p := by
  have hp' : (k.tcb t).tPcb = some p := hp
  have hssi : t ≠ .ssi := by
    rintro rfl
    exact absurd (C.ssi.symm.trans hp) nofun
  have ht : t ∈ k.kept.view.threads (.of p) := C.listed.mpr ⟨hssi, hp⟩
  have honly : k.kept.view.threads (.of p) ≠ [t] := by
    intro h
    have h' : k.threadLinks.listIsOnly (.tNext t) (.pThreads p) = true :=
      (C.threads.listIsOnly ht).mpr h
    simp [Kernel.terminated, hp', h'] at hterm
  rcases ((C.threads.nodup (.of p)).ne_singleton_iff t).mp honly with hnil | ⟨u, hu, hne⟩
  · simp [hnil] at ht
  · exact ⟨u, hne, (C.listed.mp hu).2⟩

/-- Every service leaves every process with a thread. -/
theorem service (S : k.kept.Staffed) (C : k.kept.Rolls)
    (h : MikaBoo.service fuel k t msg q = .ok (r, k')) : k'.kept.Staffed := by
  cases Served.of_service C h with
  | plain same => rwa [same]
  | create scope => exact S.created C scope h
  | terminate _ _ pruned => exact S.pruned C pruned
  | free request process _ freed =>
      subst request
      rw [freed]
      exact S.fire fun p hp => sibling C process hp
  | @appoint p role m _ _ set =>
      rw [set]
      refine S.congr (fun p' => ?_) rfl
      by_cases hp : p' = p
      · subst hp
        cases role <;> simp [Kept.after, Role.set, Kernel.kept]
      · simp [Kept.after, hp]
  | engage _ _ engaged =>
      rw [engaged]
      exact S.congr (fun _ => rfl) rfl

/-- Every step of any run leaves every process with a thread. -/
theorem step (S : k.kept.Staffed) (C : k.kept.Rolls) (h : MikaBoo.step fuel k e = .ok k') :
    k'.kept.Staffed := by
  rcases step_served C h with ⟨_, hpcb, _, _, hcounts⟩ | ⟨t, q, r, rfl, _, ha, hq, _⟩
  · have howner : k'.kept.counts.owner = k.kept.counts.owner := (congrArg Counts.owner hcounts :)
    have hpcb : k'.kept.pcb = k.kept.pcb := hpcb
    exact S.congr (fun p => by rw [hpcb]) howner
  · obtain ⟨_, k₁, r, hk₁, hr⟩ := ssi_step ha hq h
    have C₀ : Kernel.kept { k with ssiPoint := .receiving } |>.Rolls := C
    have S₀ : Kernel.kept { k with ssiPoint := .receiving } |>.Staffed := S
    have S₁ := S₀.service C₀ hk₁
    rcases hr with ⟨_, rfl⟩ | ⟨reply, k₂, _, hsend, rfl⟩
    · exact S₁
    · have hkept : k₂.kept = k₁.kept := Frame.msgsend hsend
      change k₂.kept.Staffed
      rwa [hkept]

end Kept.Staffed

/-! ## Terminations -/

/-- The request of `t`, a thread of the process `p`, ends the process: it asks for that, `t`
is the last thread, or a manager is set for the second time. -/
inductive Kernel.Ends (k : Kernel) (t : Tcb) (p : Pcb) (q : Request) : Prop
  | process (request : q = .terminateProcess)
  | last (request : q = .terminateThread) (only : k.view.threads (.of p) = [t])
  | manager {role m m'} (request : q.role = some role) (named : k.argument k.ssiMsg = some m')
      (set : role.get (k.pcb p) = some m)

/-- From `v` to `v'` the process `p` and its descendants have been freed with their threads.
The descriptor of the root stays. -/
structure View.Dissolved (v : View) (p : Pcb) (v' : View) : Prop where
  processes : ∀ q, v.Below q p → q ≠ root → q ∈ v'.procs .free
  threads : ∀ q, v.Below q p → ∀ t ∈ v.threads (.of q), t ∈ v'.threads .free
  others : ∀ q, ¬ v.Below q p → v'.pcb q = v.pcb q ∧ ∀ t ∈ v.threads (.of q), t ∈ v'.threads (.of q)

/-- From `v` to `v'` the thread `t` has been freed, and no other thread and no process. -/
structure View.Dismissed (v : View) (t : Tcb) (v' : View) : Prop where
  freed : t ∈ v'.threads .free
  others : ∀ l, ∀ u ≠ t, u ∈ v'.threads l ↔ u ∈ v.threads l
  processes : v'.pcb = v.pcb

namespace Staffing

variable {k k' : Kernel} {t : Tcb} {p : Pcb} {q : Request} {fuel : Nat}

theorem terminated_of_ends (C : k.kept.Rolls) (hp : (k.tcb t).tPcb = some p) (E : k.Ends t p q) :
    k.terminated t k.ssiMsg q = some p := by
  cases E with
  | process request =>
      subst request
      exact hp
  | last request only =>
      subst request
      have ht : t ∈ k.kept.view.threads (.of p) := by
        change t ∈ k.view.threads (.of p)
        simp [only]
      have honly : k.threadLinks.listIsOnly (.tNext t) (.pThreads p) = true :=
        (C.threads.listIsOnly ht).mpr only
      simp [Kernel.terminated, hp, honly]
  | manager request named set =>
      cases q <;> cases request <;> simp [Kernel.terminated, hp, named, Request.role, set]

/-- A termination in terms of the lists. -/
theorem dissolved (C : k.kept.Rolls) (P : Kept.Pruned k.kept p k'.kept) :
    k.view.Dissolved p k'.view := by
  have C' := P.rolls C
  refine ⟨fun q hq hroot => ?_, fun q hq t ht => ?_, fun q hq => ⟨?_, fun t ht => ?_⟩⟩
  · exact C'.tree.free.mpr ⟨hroot, P.gone C hq hroot⟩
  · obtain ⟨hssi, ho⟩ := C.listed.mp ht
    exact C'.listed.mpr ⟨hssi, P.freed C hq ho⟩
  · exact P.spared_pcb C fun hm => hq (C.mem_subtree.mp hm).1
  · obtain ⟨hssi, ho⟩ := C.listed.mp ht
    refine C'.listed.mpr ⟨hssi, ?_⟩
    rw [(P.spared C ?_).2, ho]
    rw [C.mem_staff]
    rintro ⟨q', hq', ho'⟩
    obtain rfl : q = q' := Option.some.inj (ho.symm.trans ho')
    exact hq hq'

/-- The end of one thread in terms of the lists. -/
theorem dismissed (C : k.kept.Rolls) (ht : t ≠ .ssi) (h : k'.kept = k.kept.after (.fire t)) :
    k.view.Dismissed t k'.view := by
  have C' : k'.kept.Rolls := by
    rw [h]
    exact C.fire ht
  have howner : k'.kept.counts.owner = Function.update k.kept.counts.owner t none := by
    rw [h]
    rfl
  refine ⟨C'.listed.mpr ⟨ht, by simp [howner, ThreadList.owner]⟩, fun l u hu => ?_,
    congrArg Kept.pcb h⟩
  have hu' : k'.kept.counts.owner u = k.kept.counts.owner u := by simp [howner, hu]
  change u ∈ k'.kept.view.threads l ↔ u ∈ k.kept.view.threads l
  rw [C'.listed, C.listed, hu']

/-- What the step does that serves a request of `t`, a thread of the process `p`. -/
theorem step_ends (C : k.kept.Rolls) (ha : k.applicant = some t) (hq : k.request = some q)
    (hp : (k.tcb t).tPcb = some p) (h : step fuel k .ssi = .ok k') :
    (k.Ends t p q → k.view.Dissolved p k'.view) ∧
      (q = .terminateThread → k.view.threads (.of p) ≠ [t] → k.view.Dismissed t k'.view) := by
  rcases step_served C h with ⟨hs, _⟩ | ⟨t', q', r, _, _, ha', hq', S⟩
  · exact absurd ((request_of_idle hs).symm.trans hq) nofun
  · obtain rfl := Option.some.inj (ha.symm.trans ha')
    obtain rfl := Option.some.inj (hq.symm.trans hq')
    refine ⟨fun E => dissolved C (S.pruned (terminated_of_ends C hp E)).2, ?_⟩
    rintro rfl honly
    have hssi : t ≠ .ssi := by
      rintro rfl
      exact absurd (C.ssi.symm.trans hp) nofun
    have ht : t ∈ k.kept.view.threads (.of p) := C.listed.mpr ⟨hssi, hp⟩
    have hterm : k.terminated t k.ssiMsg .terminateThread = none := by
      have hnot : ¬ k.threadLinks.listIsOnly (.tNext t) (.pThreads p) = true :=
        mt (C.threads.listIsOnly ht).mp honly
      simp [Kernel.terminated, hp, hnot]
    cases S with
    | plain _ _ thread => exact absurd rfl thread
    | create scope => cases scope
    | terminate process => exact absurd (hterm.symm.trans process) nofun
    | free _ _ _ freed => exact dismissed C hssi freed
    | appoint manager => exact absurd rfl (Served.terminated_of_appointment manager).2
    | engage request => cases request

/-- The kernel boots with the root only. -/
theorem boot {hw : Hardware} (hb : MikaBoo.boot hw = .ok k) : k.kept.Staffed := by
  intro p hp hroot
  obtain ⟨k', hk', R⟩ := boot_ok hw
  obtain rfl := Except.ok.inj (hb.symm.trans hk')
  have hpcb : k.pcb p = {} := by
    rw [← R.pcb]
    rfl
  exact hp.elim (fun h => absurd h hroot) fun h => absurd (congrArg PcbT.pParent hpcb) h

/-- The terminations that serve the request of an allocated thread come back. -/
theorem returns (H : Good k) (hcur : k.currentThread = some .ssi) (hp : (k.tcb t).tPcb = some p)
    (hq : k.Ends t p q ∨ q = .terminateThread) :
    ∃ fuel k₁, service fuel { k with ssiPoint := .receiving } t k.ssiMsg q = .ok (none, k₁) := by
  let k₀ : Kernel := { k with ssiPoint := .receiving }
  have R : Refines k₀ { k.view with globals := k₀.globals } := { H.refines with globals := rfl }
  have I := H.inv
  rw [hcur] at I
  have I₀ : View.Inv { k.view with globals := k₀.globals } (some .ssi) := I.setGlobals rfl
  have hprocess : ∃ fuel k₁, terminateProcessS fuel k₀ t = .ok k₁ := by
    obtain ⟨fuel, k₁, hk₁, _⟩ := (R.terminateProcessS I₀.terminable hp).complete
    exact ⟨fuel, k₁, hk₁⟩
  have hthread : ∃ fuel k₁, terminateThreadS fuel k₀ t = .ok k₁ := by
    have hp₀ : (k₀.tcb t).tPcb = some p := hp
    by_cases honly : k₀.threadLinks.listIsOnly (.tNext t) (.pThreads p) = true
    · obtain ⟨fuel, k₁, hk₁⟩ := hprocess
      exact ⟨fuel, k₁, by simpa only [terminateThreadS, hp₀, honly, if_true] using hk₁⟩
    · have hm : t ∈ k.view.threads (.of p) := I.owned.owned.mpr hp
      have hssi : t ≠ .ssi := by
        rintro rfl
        exact absurd (I.owned.ssi.symm.trans hp) (by rintro ⟨⟩)
      have hst : (k.view.tcb t).tStatus ≠ .none := by
        rw [Ne, I.owned.status]
        simp [show (k.view.tcb t).tPcb = _ from hp]
      obtain ⟨w, hw⟩ := I₀.terminable.queued.somewhere hssi hst
      obtain ⟨fuel, k₁, hk₁, _⟩ := (R.rawTerminateThreadS hm hw).complete
      exact ⟨fuel, k₁, by simpa only [terminateThreadS, hp₀, honly, Bool.false_eq_true, if_false] using hk₁⟩
  rcases hq with E | rfl
  · cases E with
    | process request =>
        subst request
        obtain ⟨fuel, k₁, hk₁⟩ := hprocess
        exact ⟨fuel, k₁, by rw [service, hk₁]; rfl⟩
    | last request =>
        subst request
        obtain ⟨fuel, k₁, hk₁⟩ := hthread
        exact ⟨fuel, k₁, by rw [service, hk₁]; rfl⟩
    | @manager role m m' request named set =>
        obtain ⟨fuel, k₁, hk₁⟩ := hprocess
        have hset : rawSetmgr role.get role.set fuel k₀ (some m') t = .ok (none, k₁) := by
          have hp₀ : (k₀.tcb t).tPcb = some p := hp
          have hm : role.get (k₀.pcb p) = some m := set
          simp only [rawSetmgr, hp₀, hm, hk₁, ok_bind]
        refine ⟨fuel, k₁, ?_⟩
        have harg : reqField k₀ k.ssiMsg 1 = .ok (.tcb m') := by
          have hnamed : k₀.argument k.ssiMsg = some m' := named
          unfold Kernel.argument at hnamed
          split at hnamed <;> cases hnamed
          assumption
        cases q <;> cases request <;> rw [service, harg] <;> exact hset
  · obtain ⟨fuel, k₁, hk₁⟩ := hthread
    exact ⟨fuel, k₁, by rw [service, hk₁]; rfl⟩

end Staffing

/-- In every run in which the SSI does not terminate itself, even when it serves requests of
threads that have been freed, every allocated process but the root has a thread, and its
parents lead to the root. The end of the last thread of a process, and a second manager,
free the process with its descendants; the end of another thread frees that thread. In
regular runs these terminations come back. -/
theorem staffing {hw : Hardware} {k₀ k : Kernel} {es : List Event} (hb : boot hw = .ok k₀)
    (run : Run (GuardedStep NotSelf) k₀ es k) :
    (∀ p, k.view.Alive p → (p ≠ root → k.view.threads (.of p) ≠ []) ∧ k.view.Below p root ∧
      ∀ q, k.view.Below p q → k.view.Alive q) ∧
    ∀ t q p, k.applicant = some t → k.request = some q → (k.tcb t).tPcb = some p →
      (∀ k', Step k .ssi k' → (k.Ends t p q → k.view.Dissolved p k'.view) ∧
        (q = .terminateThread → k.view.threads (.of p) ≠ [t] → k.view.Dismissed t k'.view)) ∧
      (Run RegularStep k₀ es k → k.mode = .running → k.currentThread = some .ssi →
        k.Ends t p q ∨ q = .terminateThread → ∃ k', Step k .ssi k') := by
  have H := Good.boot hb
  have hinv : k.kept.Rolls ∧ k.kept.Staffed := by
    refine run.invariant (P := fun k => k.kept.Rolls ∧ k.kept.Staffed)
      (fun k e k' inv h => ?_) ⟨.of_inv H.refines H.inv, Staffing.boot hb⟩
    obtain ⟨hn, fuel, h⟩ := h
    exact ⟨inv.1.step hn h, inv.2.step inv.1 h⟩
  obtain ⟨C, S⟩ := hinv
  refine ⟨fun p hp => ⟨fun hroot => ?_, C.tree.below_root hp, fun q hq => ?_⟩, ?_⟩
  · obtain ⟨t, ht⟩ := S p hp hroot
    have hssi : t ≠ .ssi := by
      rintro rfl
      exact absurd (C.ssi.symm.trans ht) nofun
    exact List.ne_nil_of_mem (C.listed.mpr ⟨hssi, ht⟩)
  · induction hq with
    | refl => exact hp
    | tail _ hr => exact C.tree.parent_alive hr
  · intro t q p ha hq hp
    refine ⟨?_, fun run' hm hcur hends => ?_⟩
    · rintro k' ⟨fuel, h⟩
      exact Staffing.step_ends C ha hq hp h
    · obtain ⟨fuel, k₁, hk₁⟩ := Staffing.returns (H.run run') hcur hp hends
      refine ⟨k₁, fuel, ?_⟩
      rw [step_serving hm hcur ha hq, hk₁]
      rfl

/-- The first thread makes a process, the only thread of that process asks for its own
termination and both wait; the SSI holds the request. -/
def Sample.lastThread : List Event :=
  [.start, .ssi] ++ Sample.service [.int 1, .int 0x200] ++ Sample.request [.int 4] ++
    Sample.recv (some .ssi) [.int 4] ++ Sample.recv none [.int 4]

/-- The process goes with its only thread. -/
theorem staffing_sample : ∃ k₀ k k' : Kernel, boot Sample.hardware = .ok k₀ ∧
    Run (GuardedStep NotSelf) k₀ Sample.lastThread k ∧ k.view.threads (.of 1) = [.thread 1] ∧
    Step k .ssi k' ∧ k.view.Dissolved 1 k'.view := by
  let check : Kernel → Bool := fun k => k.mode = .running ∧ k.currentThread = some .ssi ∧
    k.applicant = some (.thread 1) ∧ k.request = some .terminateThread ∧
    (k.tcb (.thread 1)).tPcb = some 1 ∧ k.view.threads (.of 1) = [.thread 1]
  have h : (execute Regular Sample.hardware 100 Sample.lastThread).any check = true := by
    decide +kernel
  obtain ⟨k, hk, hprops⟩ := Option.any_eq_true _ _ |>.mp h
  obtain ⟨hm, hcur, ha, hq, hp, honly⟩ := of_decide_eq_true hprops
  obtain ⟨k₀, hb, run⟩ := run_of_execute hk
  have run' : Run (GuardedStep NotSelf) k₀ Sample.lastThread k :=
    weaken_guard (fun k e hr => by
      rintro rfl hq ha
      exact ((hr _ hq).2 rfl _ ha).1 rfl) run
  obtain ⟨hstep, hreturns⟩ := (staffing hb run').2 _ _ _ ha hq hp
  obtain ⟨k', hk'⟩ := hreturns run hm hcur (Or.inr rfl)
  exact ⟨k₀, k, k', hb, run', honly, hk', (hstep k' hk').1 (.last rfl honly)⟩

end MikaBoo
