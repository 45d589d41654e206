import MikaBoo.Abstract.Provenance

/-!
# Attribution of messages

`recv` returns the address of a TCB. It is that of the thread that sent the message if no
thread is freed while a message of it is pending in the queue of another thread.
-/

namespace MikaBoo

open Intrusive Fuel Transition

/-- The SSI serves no WAIT_FOR_CLOCK request, and when it terminates a thread no message of it
stays behind in the queue of a thread that it does not terminate. -/
def Traced (k : Kernel) (e : Event) : Prop := Unclocked k e ∧ ∀ d, Swept k e d

instance (k : Kernel) (e : Event) : Decidable (Traced k e) := inferInstanceAs (Decidable (_ ∧ _))

/-- The requests that the SSI holds, and all messages that are pending, are from allocated
threads. -/
structure Kernel.Attributed (k : Kernel) : Prop where
  vouched : k.Vouched
  accounts : ∀ d, k.view.Accounts d

namespace Kernel.Attributed

variable {k k' : Kernel} {e : Event} {fuel : Nat} {s d : Tcb} {pl : Value} {hist : List Obs}

theorem boot {hw : Hardware} (hb : MikaBoo.boot hw = .ok k) : k.Attributed :=
  ⟨.boot hb, Good.accounts_boot hb⟩

theorem step (A : k.Attributed) (ht : Traced k e) (h : MikaBoo.step fuel k e = .ok k') :
    Regular k e ∧ k'.Attributed := by
  obtain ⟨hr, V'⟩ := A.vouched.step ht.1 (ht.2 .ssi) h
  exact ⟨hr, V', fun d => A.vouched.good.accounts hr h (A.accounts d) (ht.2 d)⟩

theorem run {es : List Event} (A : k.Attributed) (run : Run (GuardedStep Traced) k es k') :
    k'.Attributed :=
  run.invariant (P := Kernel.Attributed) (fun _ _ _ A ⟨ht, _, h⟩ => (A.step ht h).2) A

/-- A step in which a message is received frees nobody. -/
theorem casualties_of_receipt (A : k.Attributed) (hr : Regular k e)
    (h : MikaBoo.step fuel k e = .ok k') (hh : k'.history = k.history ++ hist)
    (hrecv : .received d (some s) pl ∈ hist) : k.casualties e = [] := by
  by_contra hv
  obtain ⟨hist', hh', hkind, _⟩ := A.vouched.good.history_of_casualties hr hv h
  obtain rfl : hist' = hist := List.append_cancel_left (hh'.symm.trans hh)
  rcases hkind _ hrecv with ⟨u, hu⟩ | ⟨t, ht⟩
  · cases hu
  · cases ht

/-- A message that is received was sent by the thread that has the TCB of its sender. -/
theorem receipt (A : k.Attributed) (ht : Traced k e) (h : MikaBoo.step fuel k e = .ok k')
    (hh : k'.history = k.history ++ hist) (hrecv : .received d (some s) pl ∈ hist) :
    k'.Live s ∧ pl ∈ sent (present k'.history s d) s d := by
  obtain ⟨hr, A'⟩ := A.step ht h
  have hv := A.casualties_of_receipt hr h hh hrecv
  have hnone : ∀ t, .freed t ∉ hist := by
    intro t hm
    have hinc := congrFun (A.vouched.good.unreaped hv h).1 t
    rw [Kernel.incarnation, Kernel.incarnation, hh, List.count_append] at hinc
    have hpos := List.count_pos_iff.mpr hm
    omega
  have hmem : pl ∈ received (present k'.history s d) s d := by
    rw [hh, present_append fun t _ => hnone t, received_append, List.mem_append]
    exact Or.inr (List.mem_filterMap.mpr ⟨_, hrecv, by simp⟩)
  have hsent : pl ∈ sent (present k'.history s d) s d := by
    have hcarried : received (present k'.history s d) s d ++ k'.view.pending s d =
        sent (present k'.history s d) s d := (A'.accounts d).carried s
    rw [← hcarried]
    exact List.mem_append_left _ hmem
  refine ⟨fun hfree => ?_, hsent⟩
  have hsilent : sent (present k'.history s d) s d = [] := (A'.accounts d).silent s hfree
  simp [hsilent] at hsent

end Kernel.Attributed

/-- What `d` has got from `s`, and what is pending, is in this order what `s` has sent to `d` in
their present lives, and a message that is received is one of these. -/
theorem messages_attributed {hw : Hardware} {k₀ k : Kernel} {es : List Event}
    (hb : boot hw = .ok k₀) (run : Run (GuardedStep Traced) k₀ es k) :
    (∀ s d, received (present k.history s d) s d ++ k.view.pending s d =
      sent (present k.history s d) s d) ∧
    ∀ e k' hist s d pl, GuardedStep Traced k e k' → k'.history = k.history ++ hist →
      .received d (some s) pl ∈ hist →
        k'.Live s ∧ pl ∈ sent (present k'.history s d) s d := by
  have A := (Kernel.Attributed.boot hb).run run
  refine ⟨fun s d => (A.accounts d).carried s, ?_⟩
  rintro e k' hist s d pl ⟨ht, fuel, h⟩ hh hrecv
  exact A.receipt ht h hh hrecv

/-- The words of the requests CREATE_THREAD, at 0x100, and TERMINATE_THREAD, at 0x108. -/
def Sample.requests : List Value := [.int 2, .int 0x200, .int 4]

/-- The first thread creates another one, which sends it a message. -/
def Sample.message : List Event :=
  [.start, .ssi] ++ Sample.service Sample.requests ++
    Sample.send (.thread 0) (.int 7) Sample.requests

/-- The message is received before its sender is terminated. -/
theorem messages_attributed_sample : ∃ k₀ k k' : Kernel, boot Sample.hardware = .ok k₀ ∧
    Run (GuardedStep Traced) k₀ (Sample.message ++ Sample.recv none Sample.requests ++
      (Sample.recv (some (.thread 1)) Sample.requests).take 1) k ∧
    Step k .syscall k' ∧ k'.history = k.history ++ [.received (.thread 0) (some (.thread 1)) (.int 7)] ∧
    k'.Live (.thread 1) ∧
    (.int 7) ∈ sent (present k'.history (.thread 1) (.thread 0)) (.thread 1) (.thread 0) := by
  let check : Kernel → Bool := fun k => (step 100 k .syscall).toOption.any fun k' =>
    k'.history = k.history ++ [.received (.thread 0) (some (.thread 1)) (.int 7)]
  have h : (execute Traced Sample.hardware 100 (Sample.message ++
      Sample.recv none Sample.requests ++
      (Sample.recv (some (.thread 1)) Sample.requests).take 1)).any check = true := by
    decide +kernel
  obtain ⟨k, hk, hprops⟩ := Option.any_eq_true _ _ |>.mp h
  obtain ⟨k₀, hb, run⟩ := run_of_execute hk
  obtain ⟨k', hk', hhist⟩ := Option.any_eq_true _ _ |>.mp hprops
  have hhist := of_decide_eq_true hhist
  have hstep : Step k .syscall k' := ⟨100, exec_eq_ok hk'⟩
  have ht : Traced k .syscall := ⟨trivial, fun _ _ _ ht => by cases ht⟩
  obtain ⟨hlive, hsent⟩ := (messages_attributed hb run).2 _ _ _ _ _ _ ⟨ht, hstep⟩ hhist
    (List.mem_singleton_self _)
  exact ⟨k₀, k, k', hb, run, hstep, hhist, hlive, hsent⟩

/-- The sender of the message is terminated, and 29 threads are created. -/
def Sample.reuse : List Event :=
  Sample.message ++ Sample.send .ssi (.int 0x108) Sample.requests ++
    Sample.recv (some .ssi) Sample.requests ++
    (List.replicate 29 (Sample.request Sample.requests)).flatten ++
    Sample.recv (some .ssi) Sample.requests ++ List.replicate 60 .ssi ++
    Sample.recv none Sample.requests

/-- The last of them has the TCB of the sender. It has sent nothing to the first thread, which
asks for a message of it and gets the old one. -/
theorem messages_misattributed : ∃ k₀ k k' : Kernel, boot Sample.hardware = .ok k₀ ∧
    Run Step k₀ (Sample.reuse ++ (Sample.recv (some (.thread 1)) Sample.requests).take 1) k ∧
    k.Live (.thread 1) ∧ Step k .syscall k' ∧ k'.cpu.a1 = .tcb (.thread 1) ∧
    k'.history = k.history ++ [.received (.thread 0) (some (.thread 1)) (.int 7)] ∧
    sent (present k'.history (.thread 1) (.thread 0)) (.thread 1) (.thread 0) = [] := by
  let check : Kernel → Bool := fun k => k.Live (.thread 1) ∧
    (step 100 k .syscall).toOption.any fun k' => k'.cpu.a1 = .tcb (.thread 1) ∧
      k'.history = k.history ++ [.received (.thread 0) (some (.thread 1)) (.int 7)] ∧
      sent (present k'.history (.thread 1) (.thread 0)) (.thread 1) (.thread 0) = []
  have h : (execute (fun _ _ => True) Sample.hardware 100 (Sample.reuse ++
      (Sample.recv (some (.thread 1)) Sample.requests).take 1)).any check = true := by
    decide +kernel
  obtain ⟨k, hk, hprops⟩ := Option.any_eq_true _ _ |>.mp h
  obtain ⟨k₀, hb, run⟩ := run_of_execute hk
  obtain ⟨hlive, hstep⟩ := of_decide_eq_true hprops
  obtain ⟨k', hk', hprops'⟩ := Option.any_eq_true _ _ |>.mp hstep
  obtain ⟨ha1, hhist, hsent⟩ := of_decide_eq_true hprops'
  exact ⟨k₀, k, k', hb, forget_guard run, hlive, ⟨100, exec_eq_ok hk'⟩, ha1, hhist, hsent⟩

end MikaBoo
