import MikaBoo.Abstract.Transmitter
import MikaBoo.Properties.Slots

/-!
# Terminal output

The transmitter of terminal 0 has one command register and one slot for the thread that
waits for it. `do_io_s` writes the register before it looks at the slot, and panics when
the slot is taken: no other request can wait for its turn.
-/

namespace MikaBoo

open Intrusive Fuel Transition

/-- The commands that have been accepted and not been completed, with the threads that
asked for them. -/
abbrev Outstanding := List (Tcb × Value)

/-- The outstanding commands after a step. A completion is that of the oldest command. -/
def Outstanding.after (out : Outstanding) (k : Kernel) (e : Event) : Outstanding :=
  (if k.completes e then out.tail else out) ++ (k.written e).toList

/-- A step, with the stamps and the outstanding commands that are kept of it. -/
def Issued (guard : Kernel → Stamps → Event → Prop) (s : Kernel × Stamps × Outstanding) (e : Event)
    (s' : Kernel × Stamps × Outstanding) : Prop :=
  guard s.1 s.2.1 e ∧ Step s.1 e s'.1 ∧ s'.2 = (s.2.1.after s.1 e s'.1, s.2.2.after s.1 e)

/-- At most one command is outstanding, it is in the register, and the slot holds its
requester and nobody else. -/
structure Serialised (k : Kernel) (out : Outstanding) : Prop where
  one : out.length ≤ 1
  slot : ∀ t, k.softBlockedThread TERMINAL_REQUESTER_INDEX = some t ↔ ∃ c, (t, c) ∈ out
  register : ∀ t c, (t, c) ∈ out → k.transmCommand = c

/-- DO_IO is served only when the slot of the terminal is empty. -/
def TakesTurns (k : Kernel) (e : Event) : Prop :=
  e = .ssi → k.request = some .doIo → k.softBlockedThread TERMINAL_REQUESTER_INDEX = none

/-- What the theorem asks of a step: requests take turns, and none frees a thread in the slot. -/
def RespectsTerminal (k : Kernel) (g : Stamps) (e : Event) : Prop :=
  NotSelf k e ∧ RespectsSlots k g e ∧ TakesTurns k e

instance (k : Kernel) (e : Event) : Decidable (TakesTurns k e) :=
  match e with
  | .ssi => decidable_of_iff (k.request = some .doIo →
      k.softBlockedThread TERMINAL_REQUESTER_INDEX = none) ⟨fun h _ => h, fun h => h rfl⟩
  | .start | .run .. | .elapse _ | .edit .. | .syscall | .pgmtrap _ | .tlbtrap _ | .interrupt _ =>
      isTrue nofun

instance (k : Kernel) (g : Stamps) (e : Event) : Decidable (RespectsTerminal k g e) :=
  inferInstanceAs (Decidable (_ ∧ _ ∧ _))

/-- The SSI, on the processor, holds a request of `t` to write the command `c` to the
transmitter. -/
structure Kernel.Writes (k : Kernel) (t : Tcb) (c : Value) : Prop where
  running : k.mode = .running
  current : k.currentThread = some .ssi
  applicant : k.applicant = some t
  request : k.request = some .doIo
  device : reqField k k.ssiMsg 1 = .ok TERMINAL0_TRANSM_COMMAND
  command : reqField k k.ssiMsg 2 = .ok c
  data : ∃ d₁ d₂, reqField k k.ssiMsg 3 = .ok d₁ ∧ reqField k k.ssiMsg 4 = .ok d₂

namespace Serialised

variable {k k' : Kernel} {out : Outstanding} {e : Event} {fuel : Nat} {t : Tcb} {c : Value}

theorem nil_iff (S : Serialised k out) :
    out = [] ↔ k.softBlockedThread TERMINAL_REQUESTER_INDEX = none := by
  constructor
  · rintro rfl
    refine Option.eq_none_iff_forall_not_mem.mpr fun t ht => ?_
    obtain ⟨c, hc⟩ := (S.slot t).mp ht
    cases hc
  · intro hnone
    refine List.eq_nil_iff_forall_not_mem.mpr fun ⟨t, c⟩ hc => ?_
    have hslot := (S.slot t).mpr ⟨c, hc⟩
    rw [hnone] at hslot
    cases hslot

theorem congr (S : Serialised k out) (hc : k'.transmCommand = k.transmCommand)
    (hs : k'.softBlockedThread TERMINAL_REQUESTER_INDEX =
      k.softBlockedThread TERMINAL_REQUESTER_INDEX) : Serialised k' out := by
  refine ⟨S.one, ?_, ?_⟩
  · rw [hs]
    exact S.slot
  · rw [hc]
    exact S.register

/-- What a step that serves DO_IO does. -/
theorem engaged (ha : k.applicant = some t) (hq : k.request = some .doIo)
    (h : step fuel k .ssi = .ok k') : ∃ c, k.written .ssi = some (t, c) ∧ k'.transmCommand = c ∧
      k'.softBlockedThread TERMINAL_REQUESTER_INDEX = some t := by
  obtain ⟨_, hk'⟩ := Slots.step_doIo ha hq h
  have hslots : k'.softBlockedThread =
      Function.update k.softBlockedThread TERMINAL_REQUESTER_INDEX (some t) :=
    (congrArg (fun c => c.counts.softBlockedThread) hk' :)
  obtain ⟨_, k₁, r, hk₁, hr⟩ := ssi_step ha hq h
  obtain ⟨_, _, hk₁⟩ := bind_eq_ok.mp hk₁
  obtain ⟨c, hc, hk₁⟩ := bind_eq_ok.mp hk₁
  obtain ⟨_, _, hk₁⟩ := bind_eq_ok.mp hk₁
  obtain ⟨_, _, hk₁⟩ := bind_eq_ok.mp hk₁
  obtain ⟨_, hio, hk₁⟩ := bind_eq_ok.mp hk₁
  cases hk₁
  have hc : reqField k k.ssiMsg 2 = .ok c := hc
  refine ⟨c, by simp [Kernel.written, ha, hq, hc], ?_, by simp [hslots]⟩
  rcases hr with ⟨_, rfl⟩ | ⟨_, _, hsome, _⟩
  · unfold doIoS at hio
    split at hio
    · dsimp only at hio
      split at hio <;> cases hio
      rfl
    · cases hio
  · cases hsome

/-- A step that serves no request leaves the slot alone, unless it is a completion. -/
theorem slot_idle (he : k.serves e = false) : (k.onEntry e).counts.softBlockedThread
      TERMINAL_REQUESTER_INDEX = if k.completes e then none
        else k.softBlockedThread TERMINAL_REQUESTER_INDEX := by
  have hleave : ∀ u o, (k.kept.leave u o).counts.softBlockedThread = k.softBlockedThread := by
    rintro u (_ | _ | _ | _) <;> rfl
  cases e with
  | interrupt pending =>
      cases hf : k.timerFired with
      | true =>
          simp only [Kernel.onEntry, Kernel.completes, hf, if_true, Bool.not_true, Bool.false_eq_true,
            if_false]
          exact congrFun (hleave _ _) _
      | false => simp [Kernel.onEntry, Kernel.completes, hf, Kept.complete]
  | run | elapse => rfl
  | _ => exact congrFun (hleave _ _) _

/-- Every step that comes back keeps the commands apart. -/
theorem step (S : Serialised k out) (C : k.kept.Rolls) (h : MikaBoo.step fuel k e = .ok k') :
    Serialised k' (out.after k e) := by
  rcases step_served C h with ⟨hs, _, _, _, hcounts⟩ | ⟨t, q, r, rfl, _, ha, hq, P⟩
  · have hslot := congrFun (congrArg Counts.softBlockedThread hcounts) TERMINAL_REQUESTER_INDEX
    have hslot : k'.softBlockedThread TERMINAL_REQUESTER_INDEX = _ := hslot.trans (slot_idle hs)
    have hcommand := SameCommand.idle hs h
    rw [Outstanding.after, Kernel.written_of_idle hs]
    cases hc : k.completes e with
    | false =>
        rw [hc] at hslot hcommand
        simpa using S.congr hcommand hslot
    | true =>
        rw [hc] at hslot
        have htail : out.tail = [] := by
          have hone := S.one
          match out with
          | [] => rfl
          | [_] => rfl
          | _ :: _ :: _ => simp at hone
        simp only [htail, if_true, Option.toList_none, List.append_nil]
        exact ⟨by simp, by simp [hslot], by simp⟩
  · have hcompletes : k.completes .ssi = false := rfl
    rw [Outstanding.after, hcompletes]
    by_cases hio : q = .doIo
    · subst hio
      obtain ⟨c, hwritten, hcommand, hslot⟩ := engaged ha hq h
      have hout : out = [] := S.nil_iff.mpr (Slots.step_doIo ha hq h).1
      subst hout
      rw [hwritten]
      refine ⟨by simp, fun u => ?_, fun u c' hc => ?_⟩
      · rw [hslot]
        simp [eq_comm]
      · obtain ⟨_, rfl⟩ : u = t ∧ c' = c := by simpa using hc
        exact hcommand
    · have hwritten : k.written .ssi = none := by
        simp only [Kernel.written, ha, hq]
        cases q <;> simp_all
      rw [hwritten]
      simpa using S.congr (SameCommand.serving ha hq hio h) (congrFun (P.slots hio) _)

theorem singleton (S : Serialised k out)
    (ht : k.softBlockedThread TERMINAL_REQUESTER_INDEX = some t) : ∃ c, out = [(t, c)] := by
  obtain ⟨c, hc⟩ := (S.slot t).mp ht
  have hone := S.one
  match out, hc with
  | [_], hc => exact ⟨c, by rw [List.mem_singleton.mp hc]⟩
  | _ :: _ :: _, _ => simp at hone

theorem boot {hw : Hardware} (hb : MikaBoo.boot hw = .ok k) : Serialised k [] :=
  ⟨by simp, by simp [Slots.empty_boot hb], by simp⟩

end Serialised

namespace Kernel.Writes

variable {k : Kernel} {t : Tcb} {c : Value}

theorem service_eq (fuel : Nat) (W : k.Writes t c) :
    service fuel { k with ssiPoint := .receiving } t k.ssiMsg .doIo =
      (doIoS { k with ssiPoint := .receiving } TERMINAL0_TRANSM_COMMAND c null null t >>= fun k =>
        .ok (none, k)) := by
  let k₀ : Kernel := { k with ssiPoint := .receiving }
  obtain ⟨d₁, d₂, hd₁, hd₂⟩ := W.data
  have h₁ : reqField k₀ k.ssiMsg 1 = .ok TERMINAL0_TRANSM_COMMAND := W.device
  have h₂ : reqField k₀ k.ssiMsg 2 = .ok c := W.command
  have h₃ : reqField k₀ k.ssiMsg 3 = .ok d₁ := hd₁
  have h₄ : reqField k₀ k.ssiMsg 4 = .ok d₂ := hd₂
  change (reqField k₀ k.ssiMsg 1 >>= fun _ => _) = _
  rw [h₁, ok_bind, h₂, ok_bind, h₃, ok_bind, h₄, ok_bind]
  rfl

/-- With the slot empty, the request is accepted. -/
theorem accepted (fuel : Nat) (W : k.Writes t c)
    (hnone : k.softBlockedThread TERMINAL_REQUESTER_INDEX = none) :
    ∃ k', step fuel k .ssi = .ok k' := by
  rw [step_serving W.running W.current W.applicant W.request, W.service_eq fuel]
  simp only [doIoS, if_true, hnone, ok_bind]
  exact ⟨_, rfl⟩

/-- With the slot taken, the kernel panics, with the new command in the register. -/
theorem refused {u : Tcb} (W : k.Writes t c)
    (hsome : k.softBlockedThread TERMINAL_REQUESTER_INDEX = some u) :
    ∃ k', (∀ fuel, step fuel k .ssi = .error (.panic k')) ∧ k'.transmCommand = c ∧
      k'.softBlockedThread = k.softBlockedThread := by
  refine ⟨{ k with
    ssiPoint := .receiving, softBlockCount := k.softBlockCount + 1, transmCommand := c },
    fun fuel => ?_, rfl, rfl⟩
  rw [step_serving W.running W.current W.applicant W.request, W.service_eq fuel]
  simp only [doIoS, if_true, hsome, error_bind]

end Kernel.Writes

/-- In every state of every run in which no request frees a thread in the slot, at most one
command is outstanding, the register holds it and the slot holds its requester, alive and
of the same incarnation. The next DO_IO for the transmitter is accepted exactly when the
slot is empty. Otherwise it overwrites the outstanding command and the kernel panics. A
completion answers the requester of the outstanding command and nobody else. -/
theorem terminal_output {hw : Hardware} {k₀ k : Kernel} {g₀ g : Stamps} {out : Outstanding}
    {es : List Event} (hb : boot hw = .ok k₀)
    (run : Run (Issued RespectsTerminal) (k₀, g₀, []) es (k, g, out)) :
    Serialised k out ∧ SlotsValid k g ∧
    (∀ t c, k.Writes t c → (TakesTurns k .ssi ↔ ∃ k', Step k .ssi k') ∧
      (¬ TakesTurns k .ssi → (∃ u c₀, out = [(u, c₀)] ∧ k.transmCommand = c₀) ∧
        ∃ k', (∀ fuel, step fuel k .ssi = .error (.panic k')) ∧ k'.transmCommand = c)) ∧
    ∀ pending, k.completes (.interrupt pending) = true →
      (∀ t c, (t, c) ∈ out →
        ((∃ k', acknowledge { k.enter with intOldarea := k.cpu, timeSliceLeft := k.timer }
          TERMINAL_REQUESTER_INDEX = .error (.panic k')) ↔ ¬ k.Reaches .ssi t)) ∧
      ∀ k', Step k (.interrupt pending) k' → ∃ t c, out = [(t, c)] ∧ Replied k k' t null ∧
        ∀ u, u ≠ t → ∀ s, received k'.history s u = received k.history s u ∧
          k'.view.pending s u = k.view.pending s u := by
  have H := Good.boot hb
  have hinv : k.kept.Rolls ∧ SlotsValid k g ∧ k.Filed ∧ Serialised k out := by
    refine run.invariant
      (P := fun s => s.1.kept.Rolls ∧ SlotsValid s.1 s.2.1 ∧ s.1.Filed ∧ Serialised s.1 s.2.2)
      (fun s e s' inv h => ?_)
      ⟨.of_inv H.refines H.inv, Slots.valid_boot hb, H.refines.msgs, Serialised.boot hb⟩
    obtain ⟨⟨hn, hs, _⟩, ⟨fuel, h⟩, hg⟩ := h
    obtain ⟨C, V, F, S⟩ := inv
    refine ⟨C.step hn h, ?_, F.mails (Mails.step h), ?_⟩
    · rw [hg]
      exact (Slots.valid_iff C V hn h).mpr hs
    · rw [hg]
      exact S.step C h
  obtain ⟨C, V, F, S⟩ := hinv
  refine ⟨S, V, fun t c W => ⟨⟨fun hturn => ?_, ?_⟩, fun hturn => ?_⟩, fun pending hc => ⟨?_, ?_⟩⟩
  · obtain ⟨k', hk'⟩ := W.accepted 0 (hturn rfl W.request)
    exact ⟨k', 0, hk'⟩
  · rintro ⟨k', fuel, h⟩ _ _
    exact (Slots.step_doIo W.applicant W.request h).1
  · have hsome : k.softBlockedThread TERMINAL_REQUESTER_INDEX ≠ none :=
      fun hnone => hturn fun _ _ => hnone
    obtain ⟨u, hu⟩ := Option.ne_none_iff_exists'.mp hsome
    obtain ⟨k', hpanic, hcommand, _⟩ := W.refused hu
    obtain ⟨c₀, hout⟩ := S.singleton hu
    exact ⟨⟨u, c₀, hout, S.register u c₀ (by simp [hout])⟩, k', hpanic, hcommand⟩
  · intro t c htc
    exact Slots.assertion_iff F ((S.slot t).mpr ⟨c, htc⟩)
  · rintro k' ⟨fuel, h⟩
    have hf : k.timerFired = false := by simpa [Kernel.completes] using hc
    obtain ⟨t, ht⟩ := Option.ne_none_iff_exists'.mp (Slots.occupied hf h)
    obtain ⟨c, hout⟩ := S.singleton ht
    exact ⟨t, c, hout, Slots.completion F ht hf h⟩

namespace Sample

/-- Two DO_IO requests for the terminal, with different commands. -/
def ioRequests : List Value :=
  ioRequest ++ [.int 10, TERMINAL0_TRANSM_COMMAND, .int 3, null, null]

/-- The first thread creates another one, both ask for output and wait, and the SSI has served
the first request and holds the second. -/
def twoWriters : List Event :=
  [.start, .ssi] ++ service [.int 2, .int 0x200] ++ send .ssi (.int 0x100) ioRequests ++
    recv (some .ssi) ioRequests ++ send .ssi (.int 0x118) ioRequests ++
    recv (some .ssi) ioRequests ++ [.ssi, .ssi]

/-- A run from boot, with the stamps and the outstanding commands. -/
def issue (es : List Event) : Option (Kernel × Kernel × Stamps × Outstanding) :=
  (boot hardware).toOption.bind fun k =>
    (proceedWith (fun k (g : Stamps × Outstanding) e => RespectsTerminal k g.1 e)
      (fun g k e k' => (g.1.after k e k', g.2.after k e)) 100
      (k, ⟨fun _ => 0, 0, fun _ => 0⟩, []) es).map fun s => (k, s)

theorem run_of_issue {es : List Event} {s : Kernel × Kernel × Stamps × Outstanding}
    (h : issue es = some s) : boot hardware = .ok s.1 ∧
      Run (Issued RespectsTerminal) (s.1, ⟨fun _ => 0, 0, fun _ => 0⟩, []) es s.2 := by
  obtain ⟨k₁, hb, hr⟩ := Option.bind_eq_some_iff.mp h
  obtain ⟨s, hs, rfl⟩ := Option.map_eq_some_iff.mp hr
  exact ⟨exec_eq_ok hb, run_of_proceedWith hs⟩

end Sample

/-- The first thread writes to the terminal: its command is outstanding, and the completion
answers it. -/
theorem terminal_output_sample : ∃ (k₀ k k' : Kernel) (g : Stamps) (c : Value),
    boot Sample.hardware = .ok k₀ ∧ Run (Issued RespectsTerminal) (k₀, ⟨fun _ => 0, 0, fun _ => 0⟩, [])
      Sample.writing (k, g, [(.thread 0, c)]) ∧ k.transmCommand = c ∧
    Step k (.interrupt Sample.terminalPending) k' ∧ Replied k k' (.thread 0) null := by
  have h : (Sample.issue Sample.writing).any (fun r =>
      r.2.2.2 = [(.thread 0, .int 2)] ∧ r.2.1.timerFired = false ∧
        (step 100 r.2.1 (.interrupt Sample.terminalPending)).toOption.isSome) = true := by
    decide +kernel
  obtain ⟨⟨k₀, k, g, out⟩, hr, hprops⟩ := Option.any_eq_true _ _ |>.mp h
  obtain ⟨hout, hf, hsome⟩ := of_decide_eq_true hprops
  obtain ⟨hb, run⟩ := Sample.run_of_issue hr
  obtain ⟨k', hk'⟩ := Option.isSome_iff_exists.mp hsome
  have hstep : Step k (.interrupt Sample.terminalPending) k' := ⟨100, exec_eq_ok hk'⟩
  have hout : out = [(.thread 0, .int 2)] := hout
  subst hout
  obtain ⟨S, _, _, hdone⟩ := terminal_output hb run
  have hcompletes : k.completes (.interrupt Sample.terminalPending) = true := by
    change (!k.timerFired) = true
    rw [show k.timerFired = false from hf]
    rfl
  obtain ⟨t, c, hsingle, hreplied, _⟩ := (hdone _ hcompletes).2 k' hstep
  cases hsingle
  exact ⟨k₀, k, k', g, .int 2, hb, run, S.register (.thread 0) _ (by simp), hstep, hreplied⟩

/-- Two threads write to the terminal: the second request overwrites the command of the
first one, which is outstanding, and the kernel panics. -/
theorem terminal_output_wrong : ∃ (k₀ k k' : Kernel) (g : Stamps), boot Sample.hardware = .ok k₀ ∧
    Run (Issued RespectsTerminal) (k₀, ⟨fun _ => 0, 0, fun _ => 0⟩, []) Sample.twoWriters
      (k, g, [(.thread 1, .int 2)]) ∧ k.Writes (.thread 0) (.int 3) ∧
    step 100 k .ssi = .error (.panic k') ∧ k'.transmCommand = .int 3 := by
  let check (k : Kernel) : Bool := k.mode = .running ∧ k.currentThread = some .ssi ∧
    k.applicant = some (.thread 0) ∧ k.request = some .doIo ∧
    (reqField k k.ssiMsg 1).toOption = some TERMINAL0_TRANSM_COMMAND ∧
    (reqField k k.ssiMsg 2).toOption = some (.int 3) ∧
    (reqField k k.ssiMsg 3).toOption = some null ∧ (reqField k k.ssiMsg 4).toOption = some null ∧
    k.softBlockedThread TERMINAL_REQUESTER_INDEX = some (.thread 1)
  have h : (Sample.issue Sample.twoWriters).any (fun r =>
      r.2.2.2 = [(.thread 1, .int 2)] ∧ check r.2.1 = true) = true := by
    decide +kernel
  obtain ⟨⟨k₀, k, g, out⟩, hr, hprops⟩ := Option.any_eq_true _ _ |>.mp h
  obtain ⟨hout, hprops⟩ := of_decide_eq_true hprops
  obtain ⟨hm, hcur, ha, hq, h₁, h₂, h₃, h₄, hslot⟩ := of_decide_eq_true hprops
  obtain ⟨hb, run⟩ := Sample.run_of_issue hr
  have hout : out = [(.thread 1, .int 2)] := hout
  subst hout
  have W : k.Writes (.thread 0) (.int 3) := ⟨hm, hcur, ha, hq, exec_eq_ok h₁, exec_eq_ok h₂,
    _, _, exec_eq_ok h₃, exec_eq_ok h₄⟩
  obtain ⟨k', hpanic, hcommand, _⟩ := W.refused hslot
  exact ⟨k₀, k, k', g, hb, run, W, hpanic 100, hcommand⟩

end MikaBoo
