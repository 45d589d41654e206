import MikaBoo.Properties.Messages
import MikaBoo.Abstract.Contexts

/-!
# Receives from dead threads

The termination of a thread wakes those that wait for it, with an error. A receive
that names a thread which is free already blocks all the same, and nobody ends it.
-/

namespace MikaBoo

open Intrusive Fuel Transition

/-- Nobody waits for a free thread, and it has no messages. -/
def Kernel.Rested (k : Kernel) : Prop :=
  ∀ s ∈ k.view.threads .free, k.view.sched (.tWait4me s) = [] ∧ k.view.msgs (.of s) = []

/-- The running thread executes a receive from `s`, and has no message from it. -/
def Kernel.BlocksFor (k : Kernel) (s : Tcb) : Event → Prop
  | .syscall => k.cpu.a1 = SYS_RECV ∧ isKernelMode { k with sysbkOldarea := k.cpu } = true ∧
      k.cpu.a2 = .tcb s ∧ k.recvEnding (some s) = some .blocked
  | _ => False

/-- No receive that blocks names a free thread. -/
def ReceivesLive (k : Kernel) (e : Event) : Prop := ∀ s, k.BlocksFor s e → k.Live s

/-- A regular step in which no receive that blocks names a free thread. -/
def Hears (k : Kernel) (e : Event) : Prop := Regular k e ∧ ReceivesLive k e

instance (k : Kernel) (s : Tcb) (e : Event) : Decidable (k.BlocksFor s e) := by
  unfold Kernel.BlocksFor
  split <;> infer_instance

instance (k : Kernel) (e : Event) : Decidable (ReceivesLive k e) :=
  inferInstanceAs (Decidable (∀ s, k.BlocksFor s e → k.Live s))

instance (k : Kernel) (e : Event) : Decidable (Hears k e) :=
  inferInstanceAs (Decidable (_ ∧ _))

/-! ## Who blocks -/

/-- A chore blocks nobody. -/
theorem Chore.blocked {k k' : Kernel} {u : Tcb} (c : Chore k k')
    (h : (k'.tcb u).tStatus = .w4msg) : (k.tcb u).tStatus = .w4msg ∧
      (k'.tcb u).tWait4sender = (k.tcb u).tWait4sender := by
  have hsame : ∀ {k₁ : Kernel}, k₁.tcb = k.tcb → (k₁.tcb u).tStatus = .w4msg →
      (k.tcb u).tStatus = .w4msg ∧ (k₁.tcb u).tWait4sender = (k.tcb u).tWait4sender := by
    intro k₁ htcb h
    rw [htcb] at h ⊢
    exact ⟨h, rfl⟩
  cases c with
  | clean get =>
      refine hsame ?_ h
      unfold msgqGet at get
      split at get
      · cases get
        rfl
      · obtain ⟨_, _, get⟩ := bind_eq_ok.mp get
        split at get <;> cases get <;> rfl
      · obtain ⟨_, _, get⟩ := bind_eq_ok.mp get
        split at get <;> cases get <;> rfl
  | drop | count | manage | wait | engage => exact hsame rfl h
  | abort w =>
      obtain ⟨htcb, _⟩ :=
        resumeThread_effect (k.modTcb w fun d => { d with errno := 1 }) w none null
      rw [htcb] at h ⊢
      by_cases hu : u = w
      · simp [hu] at h
      · simpa [Kernel.modTcb, hu] using h
  | free t =>
      have hfree : (threadFree k t).2.tcb = k.tcb ∨
          (threadFree k t).2.tcb = (cleanThreadData k t).tcb := by
        unfold threadFree
        split
        · exact Or.inl rfl
        · split
          · exact Or.inl rfl
          · exact Or.inr rfl
      rcases hfree with hfree | hfree
      · exact hsame hfree h
      · rw [hfree] at h ⊢
        by_cases hu : u = t
        · simp [cleanThreadData, Kernel.modTcb, hu] at h
        · simpa [cleanThreadData, Kernel.modTcb, hu] using h
  | delete p =>
      have hdelete : (procDelete k p).2.tcb = k.tcb := by
        unfold procDelete
        split <;> rfl
      exact hsame hdelete h
  | alloc alloc =>
      refine hsame ?_ h
      obtain ⟨_, _, alloc⟩ := bind_eq_ok.mp alloc
      split at alloc <;> cases alloc <;> rfl
  | @create _ _ t s alloc =>
      obtain ⟨_, _, alloc⟩ := bind_eq_ok.mp alloc
      split at alloc <;> cases alloc
      by_cases hu : u = t
      · simp [threadEnqueue, Kernel.modTcb, Kernel.record, hu] at h
      · simpa [threadEnqueue, Kernel.modTcb, Kernel.record, hu] using h

theorem Chores.blocked {k k' : Kernel} {u : Tcb} (cs : Chores k k')
    (h : (k'.tcb u).tStatus = .w4msg) : (k.tcb u).tStatus = .w4msg ∧
      (k'.tcb u).tWait4sender = (k.tcb u).tWait4sender := by
  induction cs with
  | refl => exact ⟨h, rfl⟩
  | tail _ c ih =>
      obtain ⟨h₁, hw⟩ := c.blocked h
      obtain ⟨h₀, hw₀⟩ := ih h₁
      exact ⟨h₀, hw.trans hw₀⟩

theorem Spectates.blocked {k k' : Kernel} {u : Tcb} (s : Spectates k k' u)
    (h : (k'.tcb u).tStatus = .w4msg) : (k.tcb u).tStatus = .w4msg ∧
      (k'.tcb u).tWait4sender = (k.tcb u).tWait4sender := by
  rcases s with s | ⟨_, _, s⟩
  · exact ⟨s.status ▸ h, s.wait⟩
  · rw [s.ready] at h
    cases h

namespace Good

variable {k k' : Kernel} {e : Event} {fuel : Nat} {t u s : Tcb}

/-- Only the running thread can block. -/
theorem blocked_before (H : Good k) (h : MikaBoo.step fuel k e = .ok k')
    (hcur : k.currentThread ≠ some u) (hb : (k'.tcb u).tStatus = .w4msg) :
    (k.tcb u).tStatus = .w4msg ∧ (k'.tcb u).tWait4sender = (k.tcb u).tWait4sender := by
  rcases step_served H.rolls h with ⟨hs, _⟩ | ⟨a, q, _, rfl, _, ha, hq, _⟩
  · obtain ⟨⟨x, k₁⟩, hk₁, hl⟩ := bind_eq_ok.mp h
    have htcb : k'.tcb u = k₁.tcb u := (leave_contexts (P := fun _ => True) hl).1.tcb u trivial
    rw [htcb] at hb ⊢
    by_cases he : ∃ w st, e = .edit w st
    · obtain ⟨w, st, rfl⟩ := he
      simp only [MikaBoo.entry] at hk₁
      split at hk₁ <;> cases hk₁
      by_cases hw : u = w
      · subst hw
        simpa [Kernel.modTcb] using hb
      · simpa [Kernel.modTcb, hw] using hb
    · push Not at he
      exact ((H.stopped hs he hk₁).others u hcur).blocked hb
  · obtain ⟨_, k₁, _, hk₁, hk'⟩ := ssi_step ha hq h
    have hchores := Chores.service hk₁
    rcases hk' with ⟨_, rfl⟩ | ⟨_, k₂, _, hk₂, rfl⟩
    · exact hchores.blocked hb
    · obtain ⟨hb₁, hw₁⟩ := (Spectates.msgsend hk₂ u).blocked hb
      obtain ⟨hb₀, hw₀⟩ := hchores.blocked hb₁
      exact ⟨hb₀, hw₁.trans hw₀⟩

/-- The event lets the thread leave the processor. -/
theorem ending_of_blocked (H : Good k) (hr : Regular k e) (h : MikaBoo.step fuel k e = .ok k')
    (hc : k.currentThread = some t) (hb : (k'.tcb t).tStatus = .w4msg) :
    k'.currentThread ≠ some t ∧ k.reschedules e = true := by
  have hleft : k'.currentThread ≠ some t := by
    intro hcur
    have hready := (H.step hr h).1.inv.scheduled.running hcur
    have hb' : (k'.view.tcb t).tStatus = .w4msg := hb
    rw [hb'] at hready
    cases hready
  refine ⟨hleft, ?_⟩
  obtain ⟨⟨x, k₁⟩, hk₁, hl⟩ := bind_eq_ok.mp h
  cases x with
  | resume st =>
      have hstay := (leave_contexts (P := fun _ => True) hl).2.2 (by simp)
      exact absurd (hstay.trans ((H.entry hr hk₁).1.thread.trans hc)) hleft
  | schedule =>
      rcases entry_spares hk₁ with ⟨_, hx, _⟩ | ⟨_, hx, _⟩
      · exact hx.symm
      · cases hx

/-- The running thread blocks for the SSI, or with a receive. -/
theorem blocksFor_of_blocked (H : Good k) (hr : Regular k e) (h : MikaBoo.step fuel k e = .ok k')
    (hc : k.currentThread = some t) (hb : (k'.tcb t).tStatus = .w4msg)
    (hw : (k'.tcb t).tWait4sender = some s) : s = .ssi ∨ k.BlocksFor s e := by
  obtain ⟨hleft, hends⟩ := H.ending_of_blocked hr h hc hb
  have hsaved := (H.departs h hc (Or.inr hleft)).2
  have htrap : ∀ m a, (trapStopped m a).source = some (some s) → s = .ssi := by
    intro m a hm
    unfold trapStopped at hm
    split at hm <;> simp_all [requestStopped]
  have hsource : (k.stopped e).source = some (some s) := by
    cases hsrc : (k.stopped e).source with
    | none => simp [hsrc, hb] at hsaved
    | some src =>
        simp only [hsrc] at hsaved
        rw [← hw, hsaved.2]
  cases e with
  | pgmtrap | tlbtrap => exact Or.inl (htrap _ _ hsource)
  | syscall =>
      simp only [Kernel.reschedules, Kernel.ending, syscallEnding] at hends
      simp only [Kernel.stopped, syscallStopped] at hsource
      split at hsource
      · rename_i hcall
        rw [if_pos hcall] at hends
        split at hends
        · cases hends
        · rename_i hsend
          have ha2 : k.cpu.a2 = .tcb s := by
            cases ha2 : k.cpu.a2 <;> simp_all [Value.tcb?]
          simp only [ha2, Value.toTcb] at hends
          have hblocked : k.recvEnding (some s) = some .blocked := Frame.blocked_of_isSome hends
          exact Or.inr ⟨hcall.1.resolve_left hsend, hcall.2, ha2, hblocked⟩
      · split at hsource
        · exact Or.inl (htrap _ _ hsource)
        · split at hsource
          · cases hsource
          · exact Or.inl (htrap _ _ hsource)
  | _ => simp [Kernel.stopped] at hsource

/-- A receive from `s` that finds no message blocks. -/
theorem blocked_of_blocksFor (H : Good k) (h : MikaBoo.step fuel k e = .ok k')
    (hc : k.currentThread = some t) (ha : k.BlocksFor s e) :
    (k'.tcb t).tStatus = .w4msg ∧ (k'.tcb t).tWait4sender = some s := by
  cases e with
  | syscall =>
      obtain ⟨ha1, hmode, ha2, hblocked⟩ := ha
      have hsend : k.cpu.a1 ≠ SYS_SEND := by simp [ha1]
      have hcall : (k.cpu.a1 = SYS_SEND ∨ k.cpu.a1 = SYS_RECV) ∧
          isKernelMode { k with sysbkOldarea := k.cpu } = true := ⟨Or.inr ha1, hmode⟩
      have hends : (k.ending .syscall).isSome = true := by
        simp only [Kernel.ending, syscallEnding]
        rw [if_pos hcall, if_neg hsend, ha2]
        exact congrArg Option.isSome hblocked
      have hsaved := (H.departs h hc (Or.inl hends)).2
      simp only [Kernel.stopped, syscallStopped] at hsaved
      rw [if_pos hcall, ha2] at hsaved
      exact hsaved
  | _ => exact ha.elim

/-! ## Free threads -/

theorem rested_iff (H : Good k) : k.Rested ↔
    ∀ t s, (k.tcb t).tStatus = .w4msg → (k.tcb t).tWait4sender = some s → k.Live s := by
  constructor
  · intro R t s hs hw hfree
    have hm : t ∈ k.view.sched (.tWait4me s) := H.inv.scheduled.mem_waiting.mpr ⟨hs, hw⟩
    simp [(R s hfree).1] at hm
  · intro L s hfree
    constructor
    · rw [List.eq_nil_iff_forall_not_mem]
      intro t hm
      obtain ⟨hs, hw⟩ := H.inv.scheduled.mem_waiting.mp hm
      exact L t s hs hw hfree
    · rw [List.eq_nil_iff_forall_not_mem]
      intro m hm
      exact H.inv.mail.addressed hm (H.inv.owned.status.mpr (H.inv.owned.free.mp hfree))

/-- The termination of `s` wakes a thread that waits for it, with an error. -/
theorem aborted (H : Good k) (hr : Regular k e) (h : MikaBoo.step fuel k e = .ok k')
    (hb : (k.tcb t).tStatus = .w4msg) (hw : (k.tcb t).tWait4sender = some s)
    (hs : s ∈ k.casualties e) (ht : t ∉ k.casualties e) :
    k'.tcb t = View.aborted (k.tcb t) ∧ ∀ h, t ∈ k'.view.sched h ↔ h = .readyq := by
  obtain ⟨_, _, _, _, hreaped⟩ := H.reaped hr (List.ne_nil_of_mem hs) h
  obtain ⟨es, hes, run⟩ := hreaped.run
  rw [← hes] at hs ht
  obtain ⟨d, hd, hds⟩ := List.mem_filterMap.mp hs
  obtain ⟨q, rfl⟩ := View.victim?_eq_some.mp hds
  have S := View.survives_of_run run fun q hq => ht (List.mem_filterMap.mpr ⟨_, hq, rfl⟩)
  have hm : t ∈ k.view.sched (.tWait4me s) := H.inv.scheduled.mem_waiting.mpr ⟨hb, hw⟩
  exact S.woken ⟨s, q, hd, hm⟩

/-- A step of a regular run lets nobody wait for a free thread exactly if no receive
that blocks names one. -/
theorem rested_step_iff (H : Good k) (R : k.Rested) (hr : Regular k e)
    (h : MikaBoo.step fuel k e = .ok k') : k'.Rested ↔ ReceivesLive k e := by
  have H' := (H.step hr h).1
  rw [H'.rested_iff]
  constructor
  · intro L s ha
    cases e with
    | syscall =>
        obtain ⟨t, hc⟩ : ∃ t, k.currentThread = some t := by
          obtain ⟨⟨x, k₁⟩, hk₁, _⟩ := bind_eq_ok.mp h
          simp only [MikaBoo.entry] at hk₁
          split at hk₁
          · rename_i hu
            obtain ⟨i, hi⟩ := user_of_userRuns hu
            exact ⟨_, hi⟩
          · cases hk₁
        obtain ⟨hb, hw⟩ := H.blocked_of_blocksFor h hc ha
        have hlive := L t s hb hw
        rcases step_served H.rolls h with ⟨_, _, _, _, hcounts⟩ | ⟨_, _, _, he, _⟩
        · have hl : k'.threadLinks = k.threadLinks := (congrArg Counts.threadLinks hcounts :)
          simpa only [Kernel.Live, Kernel.view, hl] using hlive
        · cases he
    | _ => exact ha.elim
  · intro L t s hb hw
    by_cases hc : k.currentThread = some t
    · rcases H.blocksFor_of_blocked hr h hc hb hw with rfl | ha
      · exact H'.live_ssi
      · refine H.live_of_spared h ?_ (L s ha)
        cases e with
        | syscall => exact List.not_mem_nil
        | _ => exact ha.elim
    · obtain ⟨hb₀, hw₀⟩ := H.blocked_before h hc hb
      have hlive := H.rested_iff.mp R t s hb₀ (hw₀ ▸ hw)
      refine H.live_of_spared h (fun hs => ?_) hlive
      by_cases ht : t ∈ k.casualties e
      · have hfree := H.free_of_casualty hr h ht
        have hnone := H'.inv.owned.status.mpr (H'.inv.owned.free.mp hfree)
        have hb' : (k'.view.tcb t).tStatus = .w4msg := hb
        rw [hnone] at hb'
        cases hb'
      · have hwoken := (H.aborted hr h hb₀ (hw₀ ▸ hw) hs ht).1
        rw [hwoken] at hb
        cases hb

end Good

/-- The thread that `thread_alloc` hands out has neither waiters nor messages. -/
theorem threadAlloc_rested {k k' : Kernel} {p : Option Pcb} {t : Tcb} (R : Refines k k.view)
    (hr : k.Rested) (h : threadAlloc k p = .ok (some t, k')) :
    k'.view.sched (.tWait4me t) = [] ∧ k'.view.msgs (.of t) = [] := by
  by_cases hnone : p = none ∨ k.view.threads .free = []
  · rw [R.threadAlloc_none hnone] at h
    cases h
  · rw [not_or] at hnone
    obtain ⟨q, rfl⟩ := Option.ne_none_iff_exists'.mp hnone.1
    obtain ⟨u, rest, hq⟩ := List.exists_cons_of_ne_nil hnone.2
    obtain ⟨k₁, hk₁, R₁⟩ := R.threadAlloc_some (p := q) hq
    rw [hk₁] at h
    cases h
    rw [← R₁.eq_view]
    exact hr t (by simp [hq])

theorem rested_boot {hw : Hardware} {k : Kernel} (h : boot hw = .ok k) : k.Rested := by
  rw [(Good.boot h).rested_iff]
  intro t s hs hwait
  have hm : t ∈ k.view.sched (.tWait4me s) :=
    (Good.boot h).inv.scheduled.mem_waiting.mpr ⟨hs, hwait⟩
  obtain ⟨k', hk', R⟩ := boot_ok hw
  obtain rfl := Except.ok.inj (h.symm.trans hk')
  rw [← R.eq_view] at hm
  cases hm

/-- In every run in which no receive that blocks names a free thread: nobody waits for
a free thread, and it has no messages, so that a thread which is allocated inherits
neither; a step that terminates `s` wakes each surviving thread that waits for `s`, READY
with NULL and an error; and the next step keeps this exactly if it meets the condition. -/
theorem dead_senders {hw : Hardware} {k₀ k : Kernel} {es : List Event} (hb : boot hw = .ok k₀)
    (run : Run (GuardedStep Hears) k₀ es k) :
    k.Rested ∧
    (∀ t s, (k.tcb t).tStatus = .w4msg → (k.tcb t).tWait4sender = some s → k.Live s) ∧
    (∀ p t k', threadAlloc k p = .ok (some t, k') →
      k'.view.sched (.tWait4me t) = [] ∧ k'.view.msgs (.of t) = []) ∧
    (∀ e k' t s, Regular k e → Step k e k' → (k.tcb t).tStatus = .w4msg →
      (k.tcb t).tWait4sender = some s → s ∈ k.casualties e → t ∉ k.casualties e →
      (k'.tcb t).tStatus = .ready ∧ (k'.tcb t).tS.a1 = null ∧ (k'.tcb t).errno = 1 ∧
        ∀ h, t ∈ k'.view.sched h ↔ h = .readyq) ∧
    ∀ e k', Regular k e → Step k e k' → (k'.Rested ↔ ReceivesLive k e) := by
  obtain ⟨H, R⟩ : Good k ∧ k.Rested := by
    refine run.invariant (P := fun k => Good k ∧ k.Rested) (fun k e k' inv h => ?_)
      ⟨.boot hb, rested_boot hb⟩
    obtain ⟨⟨hr, hlive⟩, fuel, h⟩ := h
    exact ⟨(inv.1.step hr h).1, (inv.1.rested_step_iff inv.2 hr h).mpr hlive⟩
  refine ⟨R, H.rested_iff.mp R, fun p t k' h => threadAlloc_rested H.refines R h, ?_, ?_⟩
  · rintro e k' t s hr ⟨fuel, h⟩ hblocked hwait hs ht
    obtain ⟨htcb, hsched⟩ := H.aborted hr h hblocked hwait hs ht
    rw [htcb]
    exact ⟨rfl, rfl, rfl, hsched⟩
  · rintro e k' hr ⟨fuel, h⟩
    exact H.rested_step_iff R hr h

namespace Sample

/-- The time slice of the running thread, with the given words in its memory, ends. -/
def preempt (ws : List Value) : List Event :=
  [.run {} (memory ws) 5000, .interrupt fun _ => 0]

/-- The first thread creates a second one, which asks for its termination while the
first one waits for it. -/
def mourn : List Event :=
  [.start, .ssi] ++ service [.int 2, .int 0x200] ++ request [.int 4] ++
    recv (some .ssi) [.int 4] ++ recv (some (.thread 1)) [.int 4] ++ [.ssi, .ssi]

/-- The second thread creates a third one and is terminated; then the first thread
receives from it. -/
def haunt : List Event :=
  [.start, .ssi] ++ service [.int 2, .int 0x200] ++ request [.int 2, .int 0x200] ++
    recv (some .ssi) [.int 2, .int 0x200] ++ preempt [.int 2, .int 0x200] ++ [.ssi, .ssi] ++
    preempt [] ++ preempt [] ++ request [.int 4] ++ recv (some .ssi) [.int 4] ++
    preempt [.int 4] ++ preempt [.int 4] ++ [.ssi, .ssi] ++ recv (some (.thread 1)) []

end Sample

/-- The second thread dies while the first one waits for it, which is woken. -/
theorem dead_senders_sample : ∃ k₀ k : Kernel, boot Sample.hardware = .ok k₀ ∧
    Run (GuardedStep Hears) k₀ Sample.mourn k ∧ .thread 1 ∈ k.view.threads .free ∧
    (k.tcb (.thread 0)).tStatus = .ready ∧ (k.tcb (.thread 0)).tS.a1 = null ∧
    (k.tcb (.thread 0)).errno = 1 ∧ k.Rested := by
  let check : Kernel → Prop := fun k => .thread 1 ∈ k.view.threads .free ∧
    (k.tcb (.thread 0)).tStatus = .ready ∧ (k.tcb (.thread 0)).tS.a1 = null ∧
    (k.tcb (.thread 0)).errno = 1
  have h : (execute Hears Sample.hardware 100 Sample.mourn).any check = true := by
    decide +kernel
  obtain ⟨k, hk, hprops⟩ := Option.any_eq_true _ _ |>.mp h
  obtain ⟨k₀, hb, run⟩ := run_of_execute hk
  obtain ⟨hfree, hready, ha1, herrno⟩ := of_decide_eq_true hprops
  exact ⟨k₀, k, hb, run, hfree, hready, ha1, herrno, (dead_senders hb run).1⟩

/-- The second thread is dead already when the first one receives from it: the first
one blocks, without an error, in the list of waiters of a free thread. -/
theorem dead_senders_wrong : ∃ k₀ k : Kernel, boot Sample.hardware = .ok k₀ ∧
    Run RegularStep k₀ Sample.haunt k ∧ .thread 1 ∈ k.view.threads .free ∧
    k.view.sched (.tWait4me (.thread 1)) = [.thread 0] ∧
    (k.tcb (.thread 0)).tStatus = .w4msg ∧ (k.tcb (.thread 0)).errno = 0 ∧ ¬ k.Rested := by
  let check : Kernel → Prop := fun k => .thread 1 ∈ k.view.threads .free ∧
    k.view.sched (.tWait4me (.thread 1)) = [.thread 0] ∧
    (k.tcb (.thread 0)).tStatus = .w4msg ∧ (k.tcb (.thread 0)).errno = 0
  have h : (execute Regular Sample.hardware 100 Sample.haunt).any check = true := by
    decide +kernel
  obtain ⟨k, hk, hprops⟩ := Option.any_eq_true _ _ |>.mp h
  obtain ⟨k₀, hb, run⟩ := run_of_execute hk
  obtain ⟨hfree, hwait, hblocked, herrno⟩ := of_decide_eq_true hprops
  refine ⟨k₀, k, hb, run, hfree, hwait, hblocked, herrno, fun hrested => ?_⟩
  exact List.cons_ne_nil _ _ (hwait.symm.trans (hrested _ hfree).1)

end MikaBoo
