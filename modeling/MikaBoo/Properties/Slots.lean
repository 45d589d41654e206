import MikaBoo.Properties.Replies

/-!
# The threads that wait for a device

`soft_blocked_thread` holds the bare TCB pointer of a requester, from the DO_IO
request to the completion interrupt. Nothing clears it when the requester is
terminated in between.
-/

namespace MikaBoo

open Intrusive Fuel Transition

/-- The incarnations that the senders of messages had when they sent them: of the
queued messages, of the request that the SSI holds, and of the requests that filled
the slots. -/
structure Stamps where
  queued : Msg → Nat
  held : Nat
  slot : Fin 5 → Nat

/-- The stamps after a step. A message that was in the pool has been sent in the
step. The SSI takes the first message of its queue, or is woken with one. -/
def Stamps.after (g : Stamps) (k : Kernel) (e : Event) (k' : Kernel) : Stamps where
  queued m :=
    match (k'.msg m).mSender with
    | some s => if m ∈ k.view.msgs .free then k.incarnation s else g.queued m
    | none => g.queued m
  held :=
    match e, k.ssiPoint with
    | .ssi, .receiving => ((k.view.msgs (.of .ssi)).head?.map g.queued).getD g.held
    | _, _ =>
        match (k.tcb .ssi).tStatus, (k'.tcb .ssi).tStatus, (k'.tcb .ssi).tS.a1 with
        | .w4msg, .ready, .tcb s => k.incarnation s
        | _, _, _ => g.held
  slot i := if k.softBlockedThread i = none then g.held else g.slot i

/-- A step, and the stamps that are kept of it. -/
def Stamped (guard : Kernel → Stamps → Event → Prop) (s : Kernel × Stamps) (e : Event)
    (s' : Kernel × Stamps) : Prop :=
  guard s.1 s.2 e ∧ Step s.1 e s'.1 ∧ s'.2 = s.2.after s.1 e s'.1

/-- Every slot holds the incarnation that asked for the I/O, and it is alive. -/
def SlotsValid (k : Kernel) (g : Stamps) : Prop :=
  ∀ i t, k.softBlockedThread i = some t → k.Live t ∧ k.incarnation t = g.slot i

/-- DO_IO is served for a thread that has not been freed since it sent the request,
and no served request frees a thread in a slot. -/
def RespectsSlots (k : Kernel) (g : Stamps) (e : Event) : Prop :=
  e = .ssi → ∀ t ∈ k.applicant, ∀ q ∈ k.request,
    (q = .doIo → k.Live t ∧ k.incarnation t = g.held) ∧
    ∀ m ∈ k.victims t k.ssiMsg q, ∀ i, k.softBlockedThread i ≠ some m

namespace Slots

variable {k k' k₁ : Kernel} {e : Event} {fuel : Nat} {t : Tcb} {g : Stamps} {i : Fin 5}

/-- A step that serves DO_IO fills the slot of the terminal, which was empty. -/
theorem step_doIo (ha : k.applicant = some t) (hq : k.request = some .doIo)
    (h : step fuel k .ssi = .ok k') : k.softBlockedThread TERMINAL_REQUESTER_INDEX = none ∧
      k'.kept = k.kept.after (.engage TERMINAL_REQUESTER_INDEX t) := by
  obtain ⟨_, k₁, r, hk₁, hr⟩ := ssi_step ha hq h
  obtain ⟨_, _, hk₁⟩ := bind_eq_ok.mp hk₁
  obtain ⟨_, _, hk₁⟩ := bind_eq_ok.mp hk₁
  obtain ⟨_, _, hk₁⟩ := bind_eq_ok.mp hk₁
  obtain ⟨_, _, hk₁⟩ := bind_eq_ok.mp hk₁
  obtain ⟨_, hio, hk₁⟩ := bind_eq_ok.mp hk₁
  cases hk₁
  rcases hr with ⟨_, rfl⟩ | ⟨_, _, hsome, _⟩
  · unfold doIoS at hio
    split at hio
    · dsimp only at hio
      split at hio <;> cases hio
      exact ⟨by assumption, rfl⟩
    · cases hio
  · cases hsome

/-- A step that serves no request fills no slot. -/
theorem slot_idle (h : (k.onEntry e).counts.softBlockedThread i = some t) :
    k.softBlockedThread i = some t := by
  have hleave : ∀ u o, (k.kept.leave u o).counts.softBlockedThread i = some t →
      k.softBlockedThread i = some t := by
    rintro u (_ | _ | _ | _) h <;> exact h
  cases e with
  | run | elapse => exact h
  | interrupt pending =>
      cases hf : k.timerFired with
      | true =>
          simp only [Kernel.onEntry, hf, if_true] at h
          exact hleave _ _ h
      | false =>
          simp only [Kernel.onEntry, hf, Bool.false_eq_true, if_false, Kept.complete] at h
          by_cases hi : i = TERMINAL_REQUESTER_INDEX
          · simp [hi] at h
          · rwa [Function.update_of_ne hi] at h
  | _ => exact hleave _ _ h

theorem slot_after (h : k.softBlockedThread i = some t) : (g.after k e k').slot i = g.slot i := by
  simp [Stamps.after, h]

theorem slot_filled (h : k.softBlockedThread i = none) : (g.after k e k').slot i = g.held := by
  simp [Stamps.after, h]

/-- The slots are valid after a step exactly when it meets the condition. -/
theorem valid_iff (C : k.kept.Rolls) (V : SlotsValid k g) (hn : NotSelf k e)
    (h : step fuel k e = .ok k') : SlotsValid k' (g.after k e k') ↔ RespectsSlots k g e := by
  have C' : k'.kept.Rolls := C.step hn h
  have hlive : ∀ {m}, k.Live m ↔ m = .ssi ∨ k.kept.counts.owner m ≠ none := C.live_iff
  have hlive' : ∀ {m}, k'.Live m ↔ m = .ssi ∨ k'.kept.counts.owner m ≠ none := C'.live_iff
  rcases step_served C h with ⟨hs, _, _, hinc, hcounts⟩ | ⟨t, q, r, rfl, _, ha, hq, S⟩
  · have howner : k'.kept.counts.owner = k.kept.counts.owner := (congrArg Counts.owner hcounts :)
    have hslots : k'.softBlockedThread = (k.onEntry e).counts.softBlockedThread :=
      (congrArg Counts.softBlockedThread hcounts :)
    refine iff_of_true (fun i t hi => ?_) ?_
    · rw [hslots] at hi
      obtain ⟨hl, hg⟩ := V i t (slot_idle hi)
      rw [hlive', howner, hinc, slot_after (slot_idle hi)]
      exact ⟨hlive.mp hl, hg⟩
    · rintro rfl t _ q hq
      rw [request_of_idle hs] at hq
      cases hq
  · have hself : q = .terminateThread → t ≠ .ssi := by
      rintro hqt rfl
      exact hn rfl (hqt ▸ hq) ha
    -- a thread in a slot that lives on
    have hkept : ∀ {i m}, k.softBlockedThread i = some m → m ∉ k.victims t k.ssiMsg q →
        k'.Live m ∧ k'.incarnation m = (g.after k .ssi k').slot i := by
      intro i m hi hm
      obtain ⟨hl, hg⟩ := V i m hi
      obtain ⟨hinc, howner⟩ := S.spared C hm (hlive.mp hl)
      rw [hlive', howner, slot_after hi, ← hg]
      exact ⟨hlive.mp hl, hinc⟩
    have hguard : RespectsSlots k g .ssi ↔ (q = .doIo → k.Live t ∧ k.incarnation t = g.held) ∧
        ∀ m ∈ k.victims t k.ssiMsg q, ∀ i, k.softBlockedThread i ≠ some m := by
      refine ⟨fun hg => hg rfl t ha q hq, fun hg _ t' ha' q' hq' => ?_⟩
      obtain rfl := Option.some.inj (ha.symm.trans ha')
      obtain rfl := Option.some.inj (hq.symm.trans hq')
      exact hg
    rw [hguard]
    by_cases hio : q = .doIo
    · subst hio
      obtain ⟨hfree, hk'⟩ := step_doIo ha hq h
      have howner : k'.kept.counts.owner = k.kept.counts.owner := by
        rw [hk']
        rfl
      have hinc : k'.incarnation = k.incarnation := (congrArg Kept.incarnation hk' :)
      have hslots : k'.softBlockedThread =
          Function.update k.softBlockedThread TERMINAL_REQUESTER_INDEX (some t) :=
        (congrArg (fun c => c.counts.softBlockedThread) hk' :)
      have hvictims : k.victims t k.ssiMsg .doIo = [] := by
        simp [Kernel.victims, Kernel.terminated, Request.role]
      constructor
      · intro V'
        refine ⟨fun _ => ?_, by simp [hvictims]⟩
        obtain ⟨hl, hg⟩ := V' TERMINAL_REQUESTER_INDEX t (by simp [hslots])
        rw [hlive', howner] at hl
        rw [hinc, slot_filled hfree] at hg
        exact ⟨hlive.mpr hl, hg⟩
      · rintro ⟨hnew, _⟩ i m hi
        by_cases hterm : i = TERMINAL_REQUESTER_INDEX
        · subst hterm
          rw [hslots, Function.update_self] at hi
          obtain rfl := Option.some.inj hi
          obtain ⟨hl, hg⟩ := hnew rfl
          rw [hlive', howner, hinc, slot_filled hfree]
          exact ⟨hlive.mp hl, hg⟩
        · rw [hslots, Function.update_of_ne hterm] at hi
          exact hkept hi (by simp [hvictims])
    · have hslots := S.slots hio
      constructor
      · intro V'
        refine ⟨fun h => absurd h hio, fun m hm i hi => ?_⟩
        rw [← hslots] at hi
        obtain ⟨hssi, hfree, _⟩ := S.killed C hself hm
        exact (hlive'.mp (V' i m hi).1).elim hssi fun ho => ho hfree
      · rintro ⟨_, hnone⟩ i m hi
        rw [hslots] at hi
        exact hkept hi fun hm => hnone m hm i hi

/-! ### Completions -/

/-- The state in which `acknowledge` runs. -/
abbrev interrupted (k : Kernel) : Kernel := { k.enter with intOldarea := k.cpu, timeSliceLeft := k.timer }

/-- `acknowledge` sends the requester a message of the SSI, and then goes on if the
message gets through. -/
theorem acknowledge_cases (F : k.Filed) (hi : k.softBlockedThread i = some t) :
    ∃ w k₁, Posting { k with transmCommand := DEV_C_ACK } .ssi t null w k₁ ∧
      acknowledge k i = (do
        assert k₁ (w = SEND_SUCCESS)
        let k₁ := { k₁ with softBlockedThread := Function.update k₁.softBlockedThread i none }
        if k₁.isIdle then .ok (.schedule, { k₁ with isIdle := false })
        else if k₁.mode = .waiting then .error .undefined
        else .ok (.resume k₁.intOldarea, k₁)) := by
  have F₁ : Kernel.Filed { k with transmCommand := DEV_C_ACK } := F.congr rfl
  obtain ⟨w, k₁, hsend, P⟩ := F₁.send .ssi t null
  refine ⟨w, k₁, P, ?_⟩
  simp only [acknowledge, hi, Option.isSome_some, assert, if_true, hsend]
  rfl

theorem success_iff {s : Tcb} {v : Value} {w : Word} (P : Posting k s t v w k₁) :
    w = SEND_SUCCESS ↔ k.Reaches s t := by
  cases P with
  | direct awaits => exact iff_of_true rfl (Or.inl awaits)
  | queued _ alive room => exact iff_of_true rfl (Or.inr ⟨alive, room⟩)
  | failed unreached => exact iff_of_false (by decide) unreached

/-- The assertion on the result of the send fails exactly when the requester cannot be
reached. -/
theorem assertion_iff (F : k.Filed) (hi : k.softBlockedThread i = some t) :
    (∃ k₂, acknowledge (interrupted k) i = .error (.panic k₂)) ↔ ¬ k.Reaches .ssi t := by
  have F₁ : (interrupted k).Filed := F.congr rfl
  obtain ⟨w, k₁, P, hack⟩ := acknowledge_cases F₁ hi
  rw [hack, show k.Reaches .ssi t ↔ w = SEND_SUCCESS from (success_iff P).symm]
  by_cases hw : w = SEND_SUCCESS
  · refine iff_of_false ?_ (not_not.mpr hw)
    rintro ⟨k₂, h⟩
    simp only [assert, hw, decide_true, if_true, bind, Except.bind] at h
    split at h
    · cases h
    · split at h <;> cases h
  · refine iff_of_true ⟨k₁, ?_⟩ hw
    simp only [assert, hw, decide_false, Bool.false_eq_true, if_false, bind, Except.bind]

/-- A completion without a requester does not come back. -/
theorem occupied {pending : Fin 5 → Word} (hf : k.timerFired = false)
    (h : step fuel k (.interrupt pending) = .ok k') :
    k.softBlockedThread TERMINAL_REQUESTER_INDEX ≠ none := by
  intro hnone
  obtain ⟨_, hk₁, _⟩ := bind_eq_ok.mp h
  simp only [entry] at hk₁
  split at hk₁
  · have htimer : 0 < k.timer ∧ k.timer < k.clockPerTimeslice := by
      rwa [Kernel.timerFired, decide_eq_false_iff_not, not_not] at hf
    simp only [interruptH, Kernel.enter, htimer, and_self, if_true, ioH] at hk₁
    split at hk₁
    · simp [acknowledge, hnone, assert] at hk₁
    · cases hk₁
  · cases hk₁

/-- A completion hands the message to the requester, and nothing to anybody else. -/
theorem completion {pending : Fin 5 → Word} (F : k.Filed)
    (hi : k.softBlockedThread TERMINAL_REQUESTER_INDEX = some t) (hf : k.timerFired = false)
    (h : step fuel k (.interrupt pending) = .ok k') :
    Replied k k' t null ∧ ∀ u, u ≠ t → ∀ s, received k'.history s u = received k.history s u ∧
      k'.view.pending s u = k.view.pending s u := by
  obtain ⟨⟨x, k₂⟩, hk₂, h⟩ := bind_eq_ok.mp h
  obtain ⟨hhist', hlinks', hmsg', htcb'⟩ := leave_mail h
  simp only [entry] at hk₂
  split at hk₂
  · have htimer : 0 < k.timer ∧ k.timer < k.clockPerTimeslice := by
      rwa [Kernel.timerFired, decide_eq_false_iff_not, not_not] at hf
    simp only [interruptH, Kernel.enter, htimer, and_self, if_true, ioH] at hk₂
    split at hk₂
    · have F₁ : (interrupted k).Filed := F.congr rfl
      obtain ⟨w, k₁, P, hack⟩ := acknowledge_cases F₁ hi
      change acknowledge (interrupted k) TERMINAL_REQUESTER_INDEX = _ at hk₂
      rw [hack] at hk₂
      obtain ⟨_, hassert, hk₂⟩ := bind_eq_ok.mp hk₂
      have hw : w = SEND_SUCCESS := by
        unfold assert at hassert
        split at hassert
        · exact of_decide_eq_true (by assumption)
        · cases hassert
      obtain ⟨hhist, hlinks, hmsg, htcb⟩ : k₂.history = k₁.history ∧ k₂.msgLinks = k₁.msgLinks ∧
          k₂.msg = k₁.msg ∧ k₂.tcb = k₁.tcb := by
        dsimp only at hk₂
        split at hk₂
        · cases hk₂
          exact ⟨rfl, rfl, rfl, rfl⟩
        · split at hk₂ <;> cases hk₂
          exact ⟨rfl, rfl, rfl, rfl⟩
      have hreplied := P.replied_iff.mpr ((success_iff P).mp hw)
      have hpend : ∀ s u, k'.view.pending s u = k₁.view.pending s u := by
        intro s u
        simp only [View.pending, View.mailbox, Kernel.view, hlinks', hmsg', hlinks, hmsg]
      constructor
      · rw [Replied, hhist', hhist, hpend, htcb', htcb]
        exact hreplied
      · intro u hu s
        rw [hhist', hhist, hpend]
        exact P.others hu s
    · cases hk₂
  · cases hk₂

theorem empty_boot {hw : Hardware} (h : boot hw = .ok k) : k.softBlockedThread = fun _ => none := by
  obtain ⟨k', hk', R⟩ := boot_ok hw
  obtain rfl := Except.ok.inj (h.symm.trans hk')
  have hnone : k.globals.softBlockedThread = fun _ => none := by
    rw [← R.globals]
    exact funext (bootView_soft hw)
  exact hnone

theorem valid_boot {hw : Hardware} (h : boot hw = .ok k) : SlotsValid k g := by
  intro i t hi
  rw [empty_boot h] at hi
  cases hi

end Slots

/-- In every run in which DO_IO is served only for threads that have not been freed
since they asked, and no request frees a thread in a slot, every slot holds the
incarnation that asked for the I/O, and it is alive; the next step keeps that exactly
when it meets the condition. A completion hands the requester a message, and nobody
else, and its assertion fails exactly when the requester cannot be reached. -/
theorem io_slots {hw : Hardware} {k₀ k : Kernel} {g₀ g : Stamps} {es : List Event}
    (hb : boot hw = .ok k₀)
    (run : Run (Stamped fun k g e => NotSelf k e ∧ RespectsSlots k g e) (k₀, g₀) es (k, g)) :
    SlotsValid k g ∧
    (∀ e k', NotSelf k e → Step k e k' →
      (SlotsValid k' (g.after k e k') ↔ RespectsSlots k g e)) ∧
    ∀ t, k.softBlockedThread TERMINAL_REQUESTER_INDEX = some t →
      ((∃ k', acknowledge { k.enter with intOldarea := k.cpu, timeSliceLeft := k.timer }
          TERMINAL_REQUESTER_INDEX = .error (.panic k')) ↔ ¬ k.Reaches .ssi t) ∧
      ∀ pending k', k.timerFired = false → Step k (.interrupt pending) k' →
        Replied k k' t null ∧ ∀ u, u ≠ t → ∀ s,
          received k'.history s u = received k.history s u ∧
            k'.view.pending s u = k.view.pending s u := by
  have H := Good.boot hb
  have hinv : k.kept.Rolls ∧ SlotsValid k g ∧ k.Filed := by
    refine run.invariant (P := fun s => s.1.kept.Rolls ∧ SlotsValid s.1 s.2 ∧ s.1.Filed)
      (fun s e s' inv h => ?_) ⟨.of_inv H.refines H.inv, Slots.valid_boot hb, H.refines.msgs⟩
    obtain ⟨⟨hn, hs⟩, ⟨fuel, h⟩, hg⟩ := h
    obtain ⟨C, V, F⟩ := inv
    refine ⟨C.step hn h, ?_, F.mails (Mails.step h)⟩
    rw [hg]
    exact (Slots.valid_iff C V hn h).mpr hs
  obtain ⟨C, V, F⟩ := hinv
  refine ⟨V, ?_, fun t ht => ⟨Slots.assertion_iff F ht, ?_⟩⟩
  · rintro e k' hn ⟨fuel, h⟩
    exact Slots.valid_iff C V hn h
  · rintro pending k' hf ⟨fuel, h⟩
    exact Slots.completion F ht hf h

instance (k : Kernel) (g : Stamps) (e : Event) : Decidable (RespectsSlots k g e) :=
  match e with
  | .ssi => decidable_of_iff (∀ t ∈ k.applicant, ∀ q ∈ k.request,
      (q = .doIo → k.Live t ∧ k.incarnation t = g.held) ∧
        ∀ m ∈ k.victims t k.ssiMsg q, ∀ i, k.softBlockedThread i ≠ some m)
      ⟨fun h _ => h, fun h => h rfl⟩
  | .start | .run .. | .elapse _ | .edit .. | .syscall | .pgmtrap _ | .tlbtrap _ | .interrupt _ =>
      isTrue nofun

namespace Sample

/-- A DO_IO request for the terminal, and a request to terminate the thread. -/
def ioRequest : List Value := [.int 10, TERMINAL0_TRANSM_COMMAND, .int 2, null, null, .int 4]

/-- The bitmaps of a completion at the terminal. -/
def terminalPending : Fin 5 → Word := Function.update (fun _ => 0) TERMINAL_REQUESTER_INDEX 1

/-- The first thread asks for I/O and waits, and the processor is idle. -/
def writing : List Event :=
  [.start, .ssi] ++ request ioRequest ++ recv (some .ssi) ioRequest ++ [.ssi, .ssi, .elapse 1]

/-- The first thread creates another one, asks for I/O, and then for its own termination;
the other thread waits for a message. -/
def writerQuits : List Event :=
  [.start, .ssi] ++ service [.int 2, .int 0x200] ++ recv none [] ++ request ioRequest ++
    send .ssi (.int 0x114) ioRequest ++ recv (some .ssi) ioRequest ++
    [.ssi, .ssi, .ssi, .ssi, .elapse 1]

end Sample

/-- The first thread gets the message of the completion. -/
theorem io_slots_sample : ∃ (k₀ k k' : Kernel) (g : Stamps), boot Sample.hardware = .ok k₀ ∧
    Run (Stamped fun k g e => NotSelf k e ∧ RespectsSlots k g e) (k₀, ⟨fun _ => 0, 0, fun _ => 0⟩)
      Sample.writing (k, g) ∧
    k.softBlockedThread TERMINAL_REQUESTER_INDEX = some (.thread 0) ∧ k.Live (.thread 0) ∧
    Step k (.interrupt Sample.terminalPending) k' ∧ Replied k k' (.thread 0) null := by
  let start : Stamps := ⟨fun _ => 0, 0, fun _ => 0⟩
  let guard : Kernel → Stamps → Event → Prop := fun k g e => NotSelf k e ∧ RespectsSlots k g e
  let check : Kernel → Bool := fun k =>
    k.softBlockedThread TERMINAL_REQUESTER_INDEX = some (.thread 0) ∧ k.timerFired = false ∧
      (step 100 k (.interrupt Sample.terminalPending)).toOption.isSome
  have h : ((boot Sample.hardware).toOption.bind fun k =>
      (proceedWith guard Stamps.after 100 (k, start) Sample.writing).map fun s => (k, s)).any
      (fun r => check r.2.1) = true := by
    decide +kernel
  obtain ⟨⟨k₀, k, g⟩, hr, hcheck⟩ := Option.any_eq_true _ _ |>.mp h
  obtain ⟨k₁, hb, hr⟩ := Option.bind_eq_some_iff.mp hr
  obtain ⟨s, hs, hks⟩ := Option.map_eq_some_iff.mp hr
  cases hks
  obtain ⟨hslot, htimer, hsome⟩ := of_decide_eq_true hcheck
  obtain ⟨k', hk'⟩ := Option.isSome_iff_exists.mp hsome
  have hstep : Step k (.interrupt Sample.terminalPending) k' := ⟨100, exec_eq_ok hk'⟩
  have hb := exec_eq_ok hb
  have run := run_of_proceedWith hs
  obtain ⟨V, _, hdone⟩ := io_slots hb run
  exact ⟨k₀, k, k', g, hb, run, hslot, (V _ _ hslot).1, hstep,
    ((hdone _ hslot).2 _ _ htimer hstep).1⟩

/-- The requester is terminated, its slot stays, and the completion is a panic. -/
theorem io_slot_dangles : ∃ k₀ k k' : Kernel, boot Sample.hardware = .ok k₀ ∧
    Run (GuardedStep NotSelf) k₀ Sample.writerQuits k ∧
    k.softBlockedThread TERMINAL_REQUESTER_INDEX = some (.thread 0) ∧ ¬ k.Live (.thread 0) ∧
    k.timerFired = false ∧
    step 100 k (.interrupt Sample.terminalPending) = .error (.panic k') := by
  let check : Kernel → Bool := fun k =>
    k.softBlockedThread TERMINAL_REQUESTER_INDEX = some (.thread 0) ∧ ¬ k.Live (.thread 0) ∧
      k.timerFired = false ∧ panics (step 100 k (.interrupt Sample.terminalPending)) = true
  have h : (execute NotSelf Sample.hardware 100 Sample.writerQuits).any check = true := by
    decide +kernel
  obtain ⟨k, hk, hprops⟩ := Option.any_eq_true _ _ |>.mp h
  obtain ⟨k₀, hb, run⟩ := run_of_execute hk
  obtain ⟨hslot, hdead, htimer, hpanic⟩ := of_decide_eq_true hprops
  obtain ⟨k', hk'⟩ := panics_iff.mp hpanic
  exact ⟨k₀, k, k', hb, run, hslot, hdead, htimer, hk'⟩

end MikaBoo
