import MikaBoo.Properties.Slots
import MikaBoo.Abstract.Contexts

/-!
# Device interrupts

Which device an interrupt is attributed to. Five external lines have eight devices
each; `io_h` looks for a pending one and then acknowledges terminal 0 in any case.
-/

namespace MikaBoo

open Fuel Transition

/-- A device: its external line, counted from 0, and its number on the line. -/
abbrev Device := Fin 5 × Fin 8

namespace Device

/-- Terminal 0. -/
def terminal0 : Device := (4, 0)

/-- `DEV_REG_ADDR`. -/
def DEV_REG_ADDR (d : Device) : Nat := 0x40 + d.1 * 8 * 16 + d.2 * 16

/-- The register at the address is one of the four registers of the device. -/
def Owns (d : Device) (address : Value) : Prop :=
  ∃ field : Fin 4, address = .int (BitVec.ofNat 32 (d.DEV_REG_ADDR + 4 * field))

/-- The device has an interrupt pending in the bitmaps of the lines. -/
def Pending (d : Device) (pending : Fin 5 → Word) : Prop := (pending d.1).getLsbD d.2 = true

/-- The index of the device in `soft_blocked_thread`, which has one entry for each line. -/
def requesterIndex (d : Device) : Option (Fin 5) := if d.2 = 0 then some d.1 else none

/-- The recorded requester of the device. -/
def requester (k : Kernel) (d : Device) : Option Tcb := d.requesterIndex.bind k.softBlockedThread

instance (d : Device) (address : Value) : Decidable (d.Owns address) :=
  inferInstanceAs (Decidable (∃ _, _))

instance (d : Device) (pending : Fin 5 → Word) : Decidable (d.Pending pending) :=
  inferInstanceAs (Decidable (_ = true))

end Device

/-- The call of `acknowledge` that the loops of `io_h` make, with the address of a command
register and the index of a requester. -/
def ioCall (pending : Fin 5 → Word) : Option (Value × Fin 5) :=
  (List.finRange 5).findSome? fun i => (List.finRange 8).findSome? fun j =>
    if (pending i >>> j.val) &&& 1 = 1 then
      some (TERMINAL0_TRANSM_COMMAND, TERMINAL_REQUESTER_INDEX)
    else none

/-- The state in which a handler ends, also in `PANIC`. -/
def EndsIn (x : Exec (Exit × Kernel)) (k : Kernel) : Prop :=
  (∃ e, x = .ok (e, k)) ∨ x = .error (.panic k)

/-- The device interrupt is attributed to a pending device: the acknowledged register is
its own, and nobody is woken but its requester. If no pending device has a requester, then
no register of another device is acknowledged and nobody is woken. -/
structure Attributed (k : Kernel) (pending : Fin 5 → Word) : Prop where
  device : ∀ a i, ioCall pending = some (a, i) → ∃ d : Device, d.Pending pending ∧ d.Owns a ∧
    ∀ k', EndsIn (ioH k pending) k' → ∀ u, k'.tcb u ≠ k.tcb u → d.requester k = some u
  spared : (∀ d : Device, d.Pending pending → d.requester k = none) →
    (∀ a i, ioCall pending = some (a, i) → ∀ d : Device, d.Owns a → d.Pending pending) ∧
    ∀ k', EndsIn (ioH k pending) k' → k'.tcb = k.tcb

/-! ## The search -/

theorem shift_and_one (w : Word) (j : Nat) : (w >>> j) &&& 1 = 1 ↔ w.getLsbD j = true := by
  have hone : (w >>> j) &&& 1 = BitVec.setWidth 32 (BitVec.ofBool (w.getLsbD j)) := by
    have hbit := BitVec.and_one_eq_setWidth_ofBool_getLsbD (x := w >>> j)
    rwa [BitVec.getLsbD_ushiftRight, Nat.add_zero] at hbit
  rw [hone]
  cases w.getLsbD j <;> decide

/-- If a device is pending, `io_h` acknowledges the transmitter of terminal 0. -/
theorem ioCall_eq {pending : Fin 5 → Word} (h : ∃ d : Device, d.Pending pending) :
    ioCall pending = some (TERMINAL0_TRANSM_COMMAND, TERMINAL_REQUESTER_INDEX) := by
  cases hcall : ioCall pending with
  | none =>
      obtain ⟨d, hd⟩ := h
      have hnone := List.findSome?_eq_none_iff.mp hcall d.1 (List.mem_finRange _)
      have hfree := List.findSome?_eq_none_iff.mp hnone d.2 (List.mem_finRange _)
      rw [if_pos ((shift_and_one _ _).mpr hd)] at hfree
      cases hfree
  | some call =>
      obtain ⟨i, _, hline⟩ := List.exists_of_findSome?_eq_some hcall
      obtain ⟨j, _, hdev⟩ := List.exists_of_findSome?_eq_some hline
      split at hdev
      · exact hdev.symm
      · cases hdev

/-- `io_h` makes that call. -/
theorem ioH_eq (k : Kernel) (pending : Fin 5 → Word) : ioH k pending =
    match ioCall pending with
    | some (_, i) => acknowledge k i
    | none => .error (.panic k) := by
  by_cases h : ∃ d : Device, d.Pending pending
  · rw [ioCall_eq h, ioH, if_pos ⟨h.choose.1, h.choose.2, h.choose_spec⟩]
  · have hnone : ioCall pending = none := by
      refine List.findSome?_eq_none_iff.mpr fun i _ => List.findSome?_eq_none_iff.mpr fun j _ => ?_
      rw [if_neg fun hbit => h ⟨(i, j), (shift_and_one _ _).mp hbit⟩]
    have hclear : ¬ ∃ i : Fin 5, ∃ j : Fin 8, (pending i).getLsbD j = true := by
      rintro ⟨i, j, hbit⟩
      exact h ⟨(i, j), hbit⟩
    rw [hnone, ioH, if_neg hclear]

/-- The register belongs to terminal 0 alone. -/
theorem owns_transmCommand (d : Device) :
    d.Owns TERMINAL0_TRANSM_COMMAND ↔ d = .terminal0 := by
  obtain ⟨i, j⟩ := d
  revert i j
  decide

/-! ## Who is woken -/

theorem msgqAdd_tcb {k k' : Kernel} {s d : Option Tcb} {v : Value} {r : Int}
    (h : msgqAdd k s d v = .ok (r, k')) : k'.tcb = k.tcb := by
  obtain ⟨_, _, h⟩ := bind_eq_ok.mp h
  split at h <;> cases h <;> rfl

/-- A send changes no descriptor but that of its destination. -/
theorem send_tcb {k k' : Kernel} {s : Option Tcb} {d u : Tcb} {v : Value} {w : Word}
    (h : MikaBoo.send k d s v = .ok (w, k')) (hu : u ≠ d) : k'.tcb u = k.tcb u := by
  obtain ⟨⟨r, k₁⟩, hk₁, h⟩ := bind_eq_ok.mp h
  cases h
  have hqueued : deliverMsg k d s v = .ok (w, k₁) → k₁.tcb u = k.tcb u := by
    intro hk
    obtain ⟨⟨_, k₂⟩, hk₂, hk⟩ := bind_eq_ok.mp hk
    have htcb := msgqAdd_tcb hk₂
    dsimp only at hk
    split at hk <;> cases hk <;> rw [htcb]
  unfold sendSwitch at hk₁
  split at hk₁
  · exact hqueued hk₁
  · split at hk₁
    · cases hk₁
      obtain ⟨htcb, _⟩ := resumeThread_effect k d s v
      simp [Kernel.record, htcb, hu]
    · exact hqueued hk₁
  · cases hk₁
    rfl

/-- A send does not end in `PANIC`. -/
theorem send_error {k : Kernel} {s : Option Tcb} {d : Tcb} {v : Value} {e : Stop}
    (h : MikaBoo.send k d s v = .error e) : e = .undefined := by
  have hqueue : ∀ {e}, deliverMsg k d s v = .error e → e = .undefined := by
    intro e hk
    rcases bind_eq_error.mp hk with hk | ⟨⟨_, k₂⟩, _, hk⟩
    · rcases bind_eq_error.mp hk with hk | ⟨_, _, hk⟩
      · unfold containerOf at hk
        split at hk
        · cases hk
        · split at hk <;> cases hk
          rfl
      · split at hk <;> cases hk
    · dsimp only at hk
      split at hk <;> cases hk
  rcases bind_eq_error.mp h with h | ⟨_, _, h⟩
  · unfold sendSwitch at h
    split at h
    · exact hqueue h
    · split at h
      · cases h
      · exact hqueue h
    · cases h
  · cases h

/-- An acknowledgement wakes nobody but the requester in its slot. -/
theorem acknowledge_tcb {k k' : Kernel} {i : Fin 5} {u : Tcb}
    (h : EndsIn (acknowledge k i) k') (hu : k.softBlockedThread i ≠ some u) :
    k'.tcb u = k.tcb u := by
  cases hi : k.softBlockedThread i with
  | none =>
      have hpanic : acknowledge k i = .error (.panic { k with transmCommand := DEV_C_ACK }) := by
        simp [acknowledge, assert, hi]
      rw [hpanic] at h
      rcases h with ⟨_, h⟩ | h <;> cases h
      rfl
  | some t =>
      have hut : u ≠ t := by
        rintro rfl
        exact hu hi
      have hack : acknowledge k i = (do
          let r ← send { k with transmCommand := DEV_C_ACK } t (some .ssi) null
          assert r.2 (r.1 = SEND_SUCCESS)
          let k := { r.2 with softBlockedThread := Function.update r.2.softBlockedThread i none }
          if k.isIdle then .ok (.schedule, { k with isIdle := false })
          else if k.mode = .waiting then .error .undefined
          else .ok (.resume k.intOldarea, k)) := by
        simp only [acknowledge, hi, Option.isSome_some, assert, if_true]
        rfl
      rw [hack] at h
      rcases h with ⟨e, h⟩ | h
      · obtain ⟨⟨w, k₁⟩, hk₁, h⟩ := bind_eq_ok.mp h
        obtain ⟨_, _, h⟩ := bind_eq_ok.mp h
        dsimp only at h
        have htcb := send_tcb hk₁ hut
        split at h
        · cases h
          exact htcb
        · split at h <;> cases h
          exact htcb
      · rcases bind_eq_error.mp h with h | ⟨⟨w, k₁⟩, hk₁, h⟩
        · cases send_error h
        · have htcb := send_tcb hk₁ hut
          rcases bind_eq_error.mp h with h | ⟨_, _, h⟩
          · unfold assert at h
            split at h <;> cases h
            exact htcb
          · dsimp only at h
            split at h
            · cases h
            · split at h <;> cases h

/-! ## Attribution -/

/-- Whatever is pending, the interrupt is attributed to a pending device exactly if
terminal 0 is pending. -/
theorem interrupt_attributed (k : Kernel) {pending : Fin 5 → Word}
    (h : ∃ d : Device, d.Pending pending) :
    Attributed k pending ↔ Device.terminal0.Pending pending := by
  have hcall := ioCall_eq h
  have hio : ioH k pending = acknowledge k TERMINAL_REQUESTER_INDEX := by
    rw [ioH_eq, hcall]
  constructor
  · intro A
    obtain ⟨d, hd, hown, _⟩ := A.device _ _ hcall
    rwa [(owns_transmCommand d).mp hown] at hd
  · intro hterm
    refine ⟨fun a i hai => ?_, fun hnone => ⟨fun a i hai d hown => ?_, fun k' hk' => ?_⟩⟩
    · rw [hcall] at hai
      cases hai
      refine ⟨.terminal0, hterm, (owns_transmCommand _).mpr rfl, fun k' hk' u hu => ?_⟩
      rw [hio] at hk'
      by_contra hreq
      exact hu (acknowledge_tcb hk' hreq)
    · rw [hcall] at hai
      cases hai
      rwa [(owns_transmCommand d).mp hown]
    · rw [hio] at hk'
      have hslot : k.softBlockedThread TERMINAL_REQUESTER_INDEX = none := hnone _ hterm
      funext u
      refine acknowledge_tcb hk' ?_
      rw [hslot]
      exact nofun

namespace Sample

/-- The bitmaps of an interrupt of the first disk. -/
def diskPending : Fin 5 → Word := Function.update (fun _ => 0) 0 1

end Sample

/-- A completion at the terminal. -/
theorem interrupt_attributed_sample : ∃ k₀ k : Kernel, boot Sample.hardware = .ok k₀ ∧
    Run RegularStep k₀ Sample.writing k ∧ Device.terminal0.requester k = some (.thread 0) ∧
    Attributed k Sample.terminalPending := by
  have h : (execute Regular Sample.hardware 100 Sample.writing).any (fun k =>
      k.softBlockedThread TERMINAL_REQUESTER_INDEX = some (.thread 0)) = true := by
    decide +kernel
  obtain ⟨k, hk, hslot⟩ := Option.any_eq_true _ _ |>.mp h
  obtain ⟨k₀, hb, run⟩ := run_of_execute hk
  have hterm : Device.terminal0.Pending Sample.terminalPending := rfl
  exact ⟨k₀, k, hb, run, of_decide_eq_true hslot,
    (interrupt_attributed k ⟨_, hterm⟩).mpr hterm⟩

/-- The first thread waits for the terminal, and the disk interrupts: the terminal is
acknowledged, and the thread is woken. -/
theorem interrupt_misattributed : ∃ k₀ k k' : Kernel, boot Sample.hardware = .ok k₀ ∧
    Run RegularStep k₀ Sample.writing k ∧ (k.tcb (.thread 0)).tStatus = .w4msg ∧
    k.transmCommand = .int 2 ∧ Step k (.interrupt Sample.diskPending) k' ∧
    k'.transmCommand = DEV_C_ACK ∧ k'.currentThread = some (.thread 0) ∧
    ¬ Device.terminal0.Pending Sample.diskPending ∧ ¬ Attributed k Sample.diskPending := by
  let check : Kernel → Bool := fun k =>
    (k.tcb (.thread 0)).tStatus = .w4msg ∧ k.transmCommand = .int 2 ∧
      (step 100 k (.interrupt Sample.diskPending)).toOption.any fun k' =>
        k'.transmCommand = DEV_C_ACK ∧ k'.currentThread = some (.thread 0)
  have h : (execute Regular Sample.hardware 100 Sample.writing).any check = true := by
    decide +kernel
  obtain ⟨k, hk, hcheck⟩ := Option.any_eq_true _ _ |>.mp h
  obtain ⟨k₀, hb, run⟩ := run_of_execute hk
  obtain ⟨hblocked, hcommand, hstep⟩ := of_decide_eq_true hcheck
  obtain ⟨k', hk', hafter⟩ := Option.any_eq_true _ _ |>.mp hstep
  obtain ⟨hack, hwoken⟩ := of_decide_eq_true hafter
  refine ⟨k₀, k, k', hb, run, hblocked, hcommand, ⟨100, exec_eq_ok hk'⟩, hack, hwoken,
    by decide, fun A => ?_⟩
  obtain ⟨d, hd, hown, _⟩ := A.device TERMINAL0_TRANSM_COMMAND TERMINAL_REQUESTER_INDEX
    (ioCall_eq ⟨(0, 0), rfl⟩)
  rw [(owns_transmCommand d).mp hown] at hd
  exact absurd hd (by decide)

end MikaBoo
