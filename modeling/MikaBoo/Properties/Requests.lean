import MikaBoo.Abstract.Provenance

/-!
# Requests of terminated threads

`clean_sys_msg` takes at most one message of a terminated thread back, and looks for it
in the queue of the SSI or of the `sys_mgr`.
-/

namespace MikaBoo

open Intrusive Fuel Transition

/-- `d` is the SSI or a manager of a process that the event takes threads from. -/
def Kernel.Concerned (k : Kernel) (e : Event) (d : Tcb) : Prop :=
  d = .ssi ∨ ∃ t ∈ k.casualties e, ∃ p ∈ (k.tcb t).tPcb,
    some d ∈ [(k.pcb p).sysMgr, (k.pcb p).pgmMgr, (k.pcb p).tlbMgr]

instance (k : Kernel) (e : Event) (d : Tcb) : Decidable (k.Concerned e d) :=
  inferInstanceAs (Decidable (_ ∨ _))

/-- After the event neither the SSI nor a manager that survives has a message of a thread that
the event has terminated. -/
def Cleared (k : Kernel) (e : Event) (k' : Kernel) : Prop :=
  ∀ d, k.Concerned e d → d ∉ k.casualties e → ∀ t ∈ k.casualties e,
    ∀ m ∈ k'.view.mailbox d, m.mSender ≠ some t

/-- What the threads to be terminated have sent to the SSI and to the managers is no more than
what `clean_sys_msg` takes. -/
def Clearable (k : Kernel) (e : Event) : Prop := ∀ d, k.Concerned e d → Swept k e d

instance (k : Kernel) (e : Event) : Decidable (Clearable k e) :=
  inferInstanceAs (Decidable (∀ _, _))

/-- The SSI serves no WAIT_FOR_CLOCK request, and `clean_sys_msg` takes all that it should. -/
def Thorough (k : Kernel) (e : Event) : Prop := Unclocked k e ∧ Clearable k e

instance (k : Kernel) (e : Event) : Decidable (Thorough k e) := inferInstanceAs (Decidable (_ ∧ _))

theorem View.pending_eq_nil {v : View} {s d : Tcb} :
    v.pending s d = [] ↔ ∀ m ∈ v.mailbox d, m.mSender ≠ some s := by
  simp [pending, List.filter_eq_nil_iff]

namespace Kernel.Vouched

variable {k k' : Kernel} {e : Event} {fuel : Nat} {m : MsgT}

theorem thorough (V : k.Vouched) (ht : Thorough k e) (h : MikaBoo.step fuel k e = .ok k') :
    k'.Vouched :=
  (V.step ht.1 (ht.2 .ssi (Or.inl rfl)) h).2

theorem run {es : List Event} (V : k.Vouched) (run : Run (GuardedStep Thorough) k es k') :
    k'.Vouched :=
  run.invariant (P := Kernel.Vouched) (fun _ _ _ V ⟨ht, _, h⟩ => V.thorough ht h) V

/-- The requests that wait for the SSI are from allocated threads. -/
theorem sender (V : k.Vouched) (hm : m ∈ k.view.mailbox .ssi) :
    ∃ s, m.mSender = some s ∧ k.Allocated s := by
  obtain ⟨s, hs, hne⟩ := V.good.ok.desk.queued hm
  refine ⟨s, hs, hne, fun hfree => ?_⟩
  exact View.pending_eq_nil.mp (V.accounts.pending_free hfree) m hm hs

end Kernel.Vouched

/-- A termination clears the queues iff there is no more in them than it takes. -/
theorem Good.cleared_iff {k k' : Kernel} {e : Event} {fuel : Nat} (H : Good k) (hr : Regular k e)
    (h : MikaBoo.step fuel k e = .ok k') : Cleared k e k' ↔ Clearable k e := by
  refine forall_congr' fun d => imp_congr_right fun _ => imp_congr_right fun hd => ?_
  refine forall_congr' fun t => imp_congr_right fun ht => ?_
  rw [← View.pending_eq_nil, H.pending_casualty hr h ht hd]

/-- A termination clears the queues of the SSI and of the managers iff it finds them clearable.
In a run in which every termination does, the SSI serves allocated threads only, whose request
is more recent than any termination, and the requests in its queue are from allocated threads,
which have sent them in their present lives. -/
theorem requests_cleared {hw : Hardware} {k₀ k : Kernel} {es : List Event}
    (hb : boot hw = .ok k₀) :
    (Run RegularStep k₀ es k → ∀ fuel e k', Regular k e → step fuel k e = .ok k' →
      (Cleared k e k' ↔ Clearable k e)) ∧
    (Run (GuardedStep Thorough) k₀ es k →
      (∀ e k', GuardedStep Thorough k e k' → Regular k e ∧ Cleared k e k') ∧
      (∀ t, k.currentThread = some .ssi → k.ssiPoint = .serving → k.applicant = some t →
        k.Allocated t ∧ Latest k.history t) ∧
      (∀ m ∈ k.view.mailbox .ssi, ∃ s, m.mSender = some s ∧ k.Allocated s) ∧
      ∀ s, received (present k.history s .ssi) s .ssi ++ k.view.pending s .ssi =
        sent (present k.history s .ssi) s .ssi) := by
  refine ⟨fun run fuel e k' hr h => ((Good.boot hb).run run).cleared_iff hr h, fun run => ?_⟩
  have V := (Kernel.Vouched.boot hb).run run
  refine ⟨?_, fun t hc hp ht => V.allocated hc hp ht, fun m hm => V.sender hm,
    fun s => V.accounts.carried s⟩
  rintro e k' ⟨ht, fuel, h⟩
  have hr := (V.step ht.1 (ht.2 .ssi (Or.inl rfl)) h).1
  exact ⟨hr, (V.good.cleared_iff hr h).mpr ht.2⟩

/-- A second thread, created by the first one, has its own termination waiting. -/
def Sample.leaving : List Event :=
  [.start, .ssi] ++ Sample.service [.int 2, .int 0x200] ++ Sample.request [.int 4] ++
    Sample.recv (some .ssi) [.int 4] ++ Sample.recv none [.int 4]

/-- Nothing of it is left. -/
theorem requests_cleared_sample : ∃ k₀ k k' : Kernel, boot Sample.hardware = .ok k₀ ∧
    Run (GuardedStep Thorough) k₀ Sample.leaving k ∧ step 100 k .ssi = .ok k' ∧
    k.casualties .ssi = [.thread 1] ∧ Cleared k .ssi k' := by
  let check : Kernel → Bool := fun k => Thorough k .ssi ∧ k.casualties .ssi = [.thread 1] ∧
    (step 100 k .ssi).toOption.isSome
  have h : (execute Thorough Sample.hardware 100 Sample.leaving).any check = true := by
    decide +kernel
  obtain ⟨k, hk, hprops⟩ := Option.any_eq_true _ _ |>.mp h
  obtain ⟨k₀, hb, run⟩ := run_of_execute hk
  obtain ⟨ht, hv, hstep⟩ := of_decide_eq_true hprops
  obtain ⟨k', hk'⟩ := Option.isSome_iff_exists.mp hstep
  have hk' := exec_eq_ok hk'
  exact ⟨k₀, k, k', hb, run, hk', hv,
    (((requests_cleared hb).2 run).1 _ _ ⟨ht, 100, hk'⟩).2⟩

/-- The second thread has two requests sent before it is terminated. -/
def Sample.twoRequests : List Event :=
  [.start, .ssi] ++ Sample.service [.int 2, .int 0x200] ++ Sample.request [.int 4] ++
    Sample.request [.int 4] ++ Sample.recv (some .ssi) [.int 4] ++ Sample.recv none [.int 4]

/-- The second one stays in the queue of the SSI, which then serves it for the free TCB. -/
theorem requests_outlive : ∃ k₀ k k' k'' : Kernel, boot Sample.hardware = .ok k₀ ∧
    Run (GuardedStep Unclocked) k₀ Sample.twoRequests k ∧ k.casualties .ssi = [.thread 1] ∧
    step 100 k .ssi = .ok k' ∧ ¬ Cleared k .ssi k' ∧ step 100 k' .ssi = .ok k'' ∧
    k''.currentThread = some .ssi ∧ k''.ssiPoint = .serving ∧
    k''.applicant = some (.thread 1) ∧ ¬ k''.Allocated (.thread 1) := by
  let check₂ : Kernel → Bool := fun k'' => k''.currentThread = some .ssi ∧
    k''.ssiPoint = .serving ∧ k''.applicant = some (.thread 1) ∧ ¬ k''.Allocated (.thread 1)
  let check₁ : Kernel → Bool := fun k' => (∃ m ∈ k'.view.mailbox .ssi,
    m.mSender = some (.thread 1)) ∧ (step 100 k' .ssi).toOption.any check₂
  let check : Kernel → Bool := fun k => k.casualties .ssi = [.thread 1] ∧
    (step 100 k .ssi).toOption.any check₁
  have h : (execute Unclocked Sample.hardware 100 Sample.twoRequests).any check = true := by
    decide +kernel
  obtain ⟨k, hk, hprops⟩ := Option.any_eq_true _ _ |>.mp h
  obtain ⟨k₀, hb, run⟩ := run_of_execute hk
  obtain ⟨hv, hstep⟩ := of_decide_eq_true hprops
  obtain ⟨k', hk', hprops'⟩ := Option.any_eq_true _ _ |>.mp hstep
  obtain ⟨⟨m, hm, hs⟩, hstep'⟩ := of_decide_eq_true hprops'
  obtain ⟨k'', hk'', hprops''⟩ := Option.any_eq_true _ _ |>.mp hstep'
  obtain ⟨hc, hp, ha, hfree⟩ := of_decide_eq_true hprops''
  refine ⟨k₀, k, k', k'', hb, run, hv, exec_eq_ok hk', fun hcleared => ?_, exec_eq_ok hk'', hc, hp,
    ha, hfree⟩
  exact hcleared .ssi (Or.inl rfl) (by simp [hv]) (.thread 1) (by simp [hv]) m hm hs

end MikaBoo
