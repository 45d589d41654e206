import MikaBoo.Abstract.HandlerStack
import MikaBoo.Properties.PassUp

/-!
# System-call arguments

A call that goes to a `sys_mgr` leaves its number and arguments in the stack frame
of `syscall_other`, and its message points there. The next handler puts its frames
over them.
-/

namespace MikaBoo

open Fuel Transition

/-- No handler is entered. -/
def Unentered (_ : Kernel) (e : Event) : Prop := e.enters = false

instance (k : Kernel) (e : Event) : Decidable (Unentered k e) :=
  inferInstanceAs (Decidable (_ = _))

/-- No call goes to a `sys_mgr`. -/
def NoCall (k : Kernel) (e : Event) : Prop := e = .syscall → ¬ k.callsManager

namespace Arguments

variable {k k' k₁ : Kernel} {e : Event} {es : List Event} {fuel : Nat} {x : Exit} {t m : Tcb}

/-- The message that goes to the `sys_mgr` points to the frame. -/
theorem step_sent (ht : k.currentThread = some t) (hm : k.managers.sysMgr = some m)
    (hc : k.callsManager) (h : step fuel k .syscall = .ok k') :
    ∃ r, k'.history.getLast? = some (.sent (some t) m .sysMsg r) := by
  obtain ⟨⟨x, k₁⟩, hk₁, h⟩ := bind_eq_ok.mp h
  obtain ⟨h₀, h₁, h₂, _⟩ := hc
  simp only [entry] at hk₁
  split at hk₁
  · simp only [syscallH, h₀, h₁, h₂, if_false, syscallOther] at hk₁
    split at hk₁
    · cases hk₁
    · rename_i current hcur
      obtain rfl := Option.some.inj (hcur.symm.trans ht)
      obtain ⟨p, hp, hk₁⟩ := bind_eq_ok.mp hk₁
      have hp : k.managers = k.pcb p := currentProcess_ok hp
      rw [hp] at hm
      simp only [Kernel.enter, hm] at hk₁
      obtain ⟨⟨w, k₂⟩, hk₂, hk₁⟩ := bind_eq_ok.mp hk₁
      cases hk₁
      obtain ⟨r, hr⟩ := last_of_send hk₂
      exact ⟨r, (congrArg List.getLast? (leave_mail h).1).trans hr⟩
  · cases hk₁

/-- A run in which no handler is entered keeps the frames. -/
theorem run_keeps_frames (run : Run (GuardedStep Unentered) k es k') : Enters 0 k k' := by
  induction run with
  | nil => exact .refl k
  | snoc _ last ih =>
      obtain ⟨he, fuel, h⟩ := last
      exact ih.trans (step_keeps_frames he h)

/-- A run without calls to a `sys_mgr` enters a handler at each exception, and maybe others. -/
theorem run_enters (run : Run (GuardedStep NoCall) k es k') :
    ∃ n, Enters n k k' ∧ es.countP Event.raises ≤ n := by
  induction run with
  | nil => exact ⟨0, .refl k, le_rfl⟩
  | @snoc t u es e _ last ih =>
      obtain ⟨n, hn, hle⟩ := ih
      obtain ⟨hcall, fuel, h⟩ := last
      obtain ⟨m, hm, hpos⟩ := step_enters hcall h
      refine ⟨m + n, hn.trans hm, ?_⟩
      rw [List.countP_append, List.countP_singleton]
      split
      · rename_i hr
        have := hpos hr
        omega
      · omega

end Arguments

/-- The message of a thread that calls a manager points to the words that it has called it with,
as long as no handler is entered. From then on it points to what the frames of handlers leave
there, of as many handlers at least as there are exceptions, until the next such call. -/
theorem syscall_arguments {k k₁ : Kernel} {t m : Tcb} (ht : k.currentThread = some t)
    (hm : k.managers.sysMgr = some m) (hc : k.callsManager) (h : Step k .syscall k₁) :
    (∃ r, k₁.history.getLast? = some (.sent (some t) m .sysMsg r)) ∧
      (∀ es k', Run (GuardedStep Unentered) k₁ es k' →
        ∀ i (hi : i < k.callArgs.length), loadWord k' .sysMsg i = .ok k.callArgs[i]) ∧
      ∀ es k', Run (GuardedStep NoCall) k₁ es k' → ∃ n, es.countP Event.raises ≤ n ∧
        ∀ i, loadWord k' .sysMsg i = .ok ((k₁.frames n).sysMsg i) := by
  obtain ⟨fuel, h⟩ := h
  have hleaves := step_leaves_args hc h
  refine ⟨Arguments.step_sent ht hm hc h, fun es k' run i hi => ?_, fun es k' run => ?_⟩
  · have hkept : k'.frames 0 = _ := (hleaves.trans (Arguments.run_keeps_frames run)) 0
    have hword : k'.handlerStack.sysMsg i = k.callArgs[i] := by
      change (k'.frames 0).sysMsg i = _
      rw [hkept]
      simp [Kernel.frames, Kernel.writeSysMsg, hi]
    exact congrArg Except.ok hword
  · obtain ⟨n, hn, hle⟩ := Arguments.run_enters run
    have hframe : k'.frames 0 = k₁.frames n := by simpa using hn 0
    refine ⟨n, hle, fun i => ?_⟩
    rw [← hframe]
    rfl

/-- The second thread is the system call manager of the first and waits for a
message; the first thread has made a system call with the number 42. -/
theorem syscall_arguments_sample : ∃ k₀ k k₁ k' : Kernel, boot Sample.hardware = .ok k₀ ∧
    Run Step k₀ Sample.passUp k ∧ Step k .syscall k₁ ∧
    Run (GuardedStep Unentered) k₁ [.run {} (fun _ => null) 100] k' ∧
    k'.currentThread = some (.thread 1) ∧ loadWord k' .sysMsg 0 = .ok (.int 42) := by
  let check : Kernel → Bool := fun k =>
    k.currentThread = some (.thread 0) ∧ k.managers.sysMgr = some (.thread 1) ∧ k.callsManager ∧
    k.cpu.a1 = .int 42 ∧
    (proceed (fun _ _ => True) 100 k [.syscall]).any fun k₁ =>
      (proceed Unentered 100 k₁ [.run {} (fun _ => null) 100]).any fun k' =>
        k'.currentThread = some (.thread 1)
  have h : (execute (fun _ _ => True) Sample.hardware 100 Sample.passUp).any check = true := by
    decide +kernel
  obtain ⟨k, hk, hprops⟩ := Option.any_eq_true _ _ |>.mp h
  obtain ⟨k₀, hb, run⟩ := run_of_execute hk
  obtain ⟨ht, hm, hc, ha, hprops⟩ := of_decide_eq_true hprops
  obtain ⟨k₁, hk₁, hprops⟩ := Option.any_eq_true _ _ |>.mp hprops
  obtain ⟨k', hk', hcur⟩ := Option.any_eq_true _ _ |>.mp hprops
  have hstep : Step k .syscall k₁ := (forget_guard (run_of_proceed hk₁)).of_single
  have run' := run_of_proceed hk'
  obtain ⟨_, hload, _⟩ := syscall_arguments ht hm hc hstep
  refine ⟨k₀, k, k₁, k', hb, forget_guard run, hstep, run', of_decide_eq_true hcur, ?_⟩
  have h₀ : loadWord k' .sysMsg 0 = .ok k.cpu.a1 := hload _ k' run' 0 (by simp [Kernel.callArgs])
  rw [h₀, ha]

/-- Two threads of a process call its manager before it runs. The message of the
first says 42, and the manager finds the 43 of the second. -/
theorem syscall_arguments_wrong : ∃ k₀ k k₁ k' : Kernel, boot Sample.hardware = .ok k₀ ∧
    Run Step k₀ ([.start, .ssi] ++ Sample.service [.int 2, .int 0x200] ++ Sample.recv none [] ++
      Sample.service [.int 7, .tcb (.thread 1)] ++ Sample.service [.int 2, .int 0x200] ++
      [.run { a1 := .int 42, cpsr := SYS_MODE_INT_DISABLED } (fun _ => null) 0]) k ∧
    k.currentThread = some (.thread 2) ∧ k.cpu.a1 = .int 42 ∧ Step k .syscall k₁ ∧
    k₁.history.getLast? = some (.sent (some (.thread 2)) (.thread 1) .sysMsg true) ∧
    Run Step k₁ (Sample.call (.int 43) null null []) k' ∧ k'.currentThread = some (.thread 1) ∧
    loadWord k' .sysMsg 0 = .ok (.int 43) := by
  let check : Kernel → Bool := fun k =>
    k.currentThread = some (.thread 2) ∧ k.cpu.a1 = .int 42 ∧
    (proceed (fun _ _ => True) 100 k [.syscall]).any fun k₁ =>
      k₁.history.getLast? = some (.sent (some (.thread 2)) (.thread 1) .sysMsg true) ∧
      (proceed (fun _ _ => True) 100 k₁ (Sample.call (.int 43) null null [])).any fun k' =>
        k'.currentThread = some (.thread 1) ∧ k'.handlerStack.sysMsg 0 = .int 43
  have h : (execute (fun _ _ => True) Sample.hardware 100 ([.start, .ssi] ++
      Sample.service [.int 2, .int 0x200] ++ Sample.recv none [] ++
      Sample.service [.int 7, .tcb (.thread 1)] ++ Sample.service [.int 2, .int 0x200] ++
      [.run { a1 := .int 42, cpsr := SYS_MODE_INT_DISABLED } (fun _ => null) 0])).any check =
      true := by
    decide +kernel
  obtain ⟨k, hk, hprops⟩ := Option.any_eq_true _ _ |>.mp h
  obtain ⟨k₀, hb, run⟩ := run_of_execute hk
  obtain ⟨ht, ha, hprops⟩ := of_decide_eq_true hprops
  obtain ⟨k₁, hk₁, hprops⟩ := Option.any_eq_true _ _ |>.mp hprops
  obtain ⟨hsent, hprops⟩ := of_decide_eq_true hprops
  obtain ⟨k', hk', hprops⟩ := Option.any_eq_true _ _ |>.mp hprops
  obtain ⟨hcur, hmsg⟩ := of_decide_eq_true hprops
  exact ⟨k₀, k, k₁, k', hb, forget_guard run, ht, ha, (forget_guard (run_of_proceed hk₁)).of_single,
    hsent, forget_guard (run_of_proceed hk'), hcur, congrArg Except.ok hmsg⟩

end MikaBoo
