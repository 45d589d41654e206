import MikaBoo.Abstract.Words
import MikaBoo.Properties.Receives

/-!
# What the kernel writes

Outside its own objects the kernel writes nothing but the payloads of receives, each to the word
that the receiver's `a3` points to.

## Implementation notes

A receive changes no `a3` of a thread that waits, so the payload pointers can be read off the state
in which a kernel entry ends.
-/

namespace MikaBoo

open Intrusive Fuel Transition Replay

/-- Between the states, the words change by the receives only. -/
def Kernel.Stores (pmsg : Tcb → Value) (k k' : Kernel) : Prop :=
  ∃ hist, k.Adds k' hist ∧ k'.load = replay (hist.filterMap (Obs.word pmsg)) k.load

/-- The payload pointer of the thread `t`, when a handler leaves with `x`. -/
def Kernel.pmsg (k : Kernel) (x : Exit) (t : Tcb) : Value :=
  match x with
  | .resume s => if k.currentThread = some t then s.a3 else (k.tcb t).tS.a3
  | .schedule => (k.tcb t).tS.a3

theorem word_congr {hist : List Obs} {f g : Tcb → Value}
    (h : ∀ u s pl, .received u s pl ∈ hist → f u = g u) :
    hist.filterMap (Obs.word f) = hist.filterMap (Obs.word g) := by
  apply List.filterMap_congr
  intro o ho
  cases o with
  | received u s pl => simp only [Obs.word, h u s pl ho]
  | _ => rfl

theorem word_eq_nil {hist : List Obs} {f : Tcb → Value}
    (h : ∀ u s pl, .received u s pl ∉ hist) : hist.filterMap (Obs.word f) = [] := by
  rw [List.filterMap_eq_nil_iff]
  intro o ho
  cases o with
  | received u s pl => exact absurd ho (h u s pl)
  | _ => rfl

namespace Kernel.Stores

variable {pmsg : Tcb → Value} {k k₁ k' : Kernel}

theorem of_eq (hload : k'.load = k.load) (hhist : k'.history = k.history) : Stores pmsg k k' :=
  ⟨[], by simp [Kernel.Adds, hhist], hload⟩

theorem trans (h₁ : Stores pmsg k k₁) (h₂ : Stores pmsg k₁ k') : Stores pmsg k k' := by
  obtain ⟨hist₁, ha₁, hw₁⟩ := h₁
  obtain ⟨hist₂, ha₂, hw₂⟩ := h₂
  refine ⟨hist₁ ++ hist₂, ?_, ?_⟩
  · rw [Kernel.Adds, ha₂, ha₁, List.append_assoc]
  · rw [hw₂, hw₁, List.filterMap_append, replay_append]

/-- A word stays as it is if none of the threads that receive has a pointer to it. -/
theorem load_of_ne (S : Stores pmsg k k') {ptr : Value} {hist : List Obs} (adds : k.Adds k' hist)
    (hptr : ∀ t s pl, .received t s pl ∈ hist → pmsg t ≠ ptr) : k'.load ptr = k.load ptr := by
  obtain ⟨hist', adds', hload⟩ := S
  obtain rfl : hist' = hist := List.append_cancel_left (adds'.symm.trans adds)
  rw [hload]
  apply replay_of_forall_ne
  intro w hw
  obtain ⟨o, hm, ho⟩ := List.mem_filterMap.mp hw
  cases o with
  | received t s pl =>
      simp only [Obs.word] at ho
      split at ho <;> cases ho
      exact hptr t s pl hm
  | _ => cases ho

end Kernel.Stores

/-! ## Direct deliveries -/

/-- Between the states, receives are completed only by deliveries to threads with the property `P`
that were blocked. Of these threads no payload pointer has changed. -/
structure Pays (P : Tcb → Prop) (k k' : Kernel) : Prop where
  pointer : ∀ u, P u → (k'.tcb u).tS.a3 = (k.tcb u).tS.a3
  blocked : ∀ u, P u → (k'.tcb u).tStatus = .w4msg → (k.tcb u).tStatus = .w4msg
  adds : ∃ hist, k.Adds k' hist ∧
    (∀ u s pl, .received u s pl ∈ hist → P u ∧ (k.tcb u).tStatus = .w4msg) ∧
    k'.load = replay (hist.filterMap (Obs.word fun u => (k.tcb u).tS.a3)) k.load

namespace Pays

variable {P : Tcb → Prop} {k k₁ k₂ k' : Kernel} {d t : Tcb} {s : Option Tcb} {pl : Value} {w : Word}
  {fuel : Nat}

theorem of_eq (htcb : ∀ u, P u → k'.tcb u = k.tcb u) (hmem : k'.mem = k.mem)
    (hmsg : k'.ssiMsg = k.ssiMsg) (hhist : k'.history = k.history) : Pays P k k' where
  pointer u hu := by rw [htcb u hu]
  blocked u hu := by rw [htcb u hu]; exact id
  adds := ⟨[], by simp [Kernel.Adds, hhist], by simp, load_eq hmem hmsg⟩

theorem trans (h₁ : Pays P k k₁) (h₂ : Pays P k₁ k') : Pays P k k' where
  pointer u hu := (h₂.pointer u hu).trans (h₁.pointer u hu)
  blocked u hu hb := h₁.blocked u hu (h₂.blocked u hu hb)
  adds := by
    obtain ⟨hist₁, ha₁, hr₁, hw₁⟩ := h₁.adds
    obtain ⟨hist₂, ha₂, hr₂, hw₂⟩ := h₂.adds
    refine ⟨hist₁ ++ hist₂, ?_, fun u s pl hm => ?_, ?_⟩
    · rw [Kernel.Adds, ha₂, ha₁, List.append_assoc]
    · rcases List.mem_append.mp hm with hm | hm
      · exact hr₁ u s pl hm
      · obtain ⟨hu, hb⟩ := hr₂ u s pl hm
        exact ⟨hu, h₁.blocked u hu hb⟩
    · rw [hw₂, hw₁, List.filterMap_append, replay_append]
      congr 1
      exact word_congr fun u s pl hm => h₁.pointer u (hr₂ u s pl hm).1

theorem record {o : Obs} (ho : ∀ u s pl, o ≠ .received u s pl) : Pays P k (k.record o) where
  pointer _ _ := rfl
  blocked _ _ := id
  adds := by
    have hnone : ∀ u s pl, .received u s pl ∉ [o] := by
      intro u s pl hm
      exact ho u s pl (List.mem_singleton.mp hm).symm
    refine ⟨[o], rfl, fun u s pl hm => absurd hm (hnone u s pl), ?_⟩
    rw [word_eq_nil hnone]
    exact load_eq rfl rfl

theorem deliverMsg (h : MikaBoo.deliverMsg k d s pl = .ok (w, k')) : Pays P k k' := by
  obtain ⟨⟨r, k₁⟩, hk₁, h⟩ := bind_eq_ok.mp h
  have h₁ : Pays P k k₁ := by
    obtain ⟨_, _, hk₁⟩ := bind_eq_ok.mp hk₁
    split at hk₁ <;> cases hk₁ <;> exact of_eq (fun _ _ => rfl) rfl rfl rfl
  dsimp only at h
  split at h <;> cases h <;> exact h₁

theorem resumeThread (hd : P d) (hb : (k.tcb d).tStatus = .w4msg) :
    Pays P k (MikaBoo.resumeThread k d s pl) := by
  obtain ⟨htcb, _, _, hhist⟩ := resumeThread_effect k d s pl
  obtain ⟨hpointer, hload⟩ := resumeThread_words k d s pl
  refine ⟨fun u _ => hpointer u, fun u _ => ?_, [.received d s pl], hhist, ?_, hload⟩
  · by_cases hu : u = d <;> simp [htcb, hu]
  · intro u s' pl' hm
    obtain ⟨rfl, _⟩ := Obs.received.inj (List.mem_singleton.mp hm)
    exact ⟨hd, hb⟩

theorem send (hd : P d) (h : MikaBoo.send k d s pl = .ok (w, k')) : Pays P k k' := by
  obtain ⟨⟨r, k₁⟩, hk₁, h⟩ := bind_eq_ok.mp h
  cases h
  have h₁ : Pays P k k₁ := by
    unfold sendSwitch at hk₁
    split at hk₁
    · exact deliverMsg hk₁
    · rename_i hb
      split at hk₁
      · cases hk₁
        exact resumeThread hd hb
      · exact deliverMsg hk₁
    · cases hk₁
      exact of_eq (fun _ _ => rfl) rfl rfl rfl
  exact h₁.trans (record (by simp))

theorem msgsend {caller : State} (hd : P d) (h : MikaBoo.msgsend k caller d pl = .ok k') :
    Pays P k k' := by
  obtain ⟨⟨r, k₁⟩, hk₁, h⟩ := bind_eq_ok.mp h
  cases h
  have hset : Pays P k { k.enter with
      sysbkOldarea := { caller with a1 := SYS_SEND, a2 := .tcb d, a3 := pl, a4 := null } } :=
    of_eq (fun _ _ => rfl) rfl rfl rfl
  exact (hset.trans (send hd hk₁)).trans (of_eq (fun _ _ => rfl) rfl rfl rfl)

theorem threadDequeue {h : SchedQueue} {o : Option Tcb}
    (hk : MikaBoo.threadDequeue k h = .ok (o, k')) : Pays P k k' := by
  obtain ⟨_, _, hk⟩ := bind_eq_ok.mp hk
  split at hk <;> cases hk <;> exact of_eq (fun _ _ => rfl) rfl rfl rfl

theorem wakeClockWaiters (hP : ∀ u, P u) (h : MikaBoo.wakeClockWaiters fuel k = .ok k') :
    Pays P k k' := by
  induction fuel generalizing k with
  | zero => cases h
  | succ fuel ih =>
      obtain ⟨⟨o, k₁⟩, hk₁, h⟩ := bind_eq_ok.mp h
      have h₁ : Pays P k k₁ := threadDequeue hk₁
      cases o with
      | none =>
          cases h
          exact h₁
      | some t =>
          obtain ⟨k₂, hk₂, h⟩ := bind_eq_ok.mp h
          exact (h₁.trans (msgsend (hP t) hk₂)).trans (ih h)

theorem updateClock {ms : Word} (hP : ∀ u, P u) (h : MikaBoo.updateClock fuel k ms = .ok k') :
    Pays P k k' := by
  unfold MikaBoo.updateClock at h
  dsimp only at h
  split at h
  · let k₁ : Kernel := { k with
      pseudoclock := k.pseudoclock + ms - BitVec.ofNat 32 PSEUDOCLOCK_TICK }
    have h₁ : Pays P k k₁ := of_eq (fun _ _ => rfl) rfl rfl rfl
    exact h₁.trans (wakeClockWaiters (k := k₁) hP h)
  · cases h
    exact of_eq (fun _ _ => rfl) rfl rfl rfl

/-- The payload pointers of the threads that wait are the same for the whole kernel entry. -/
theorem stores (h : Pays P k k') {pmsg : Tcb → Value}
    (hpmsg : ∀ u, P u → (k.tcb u).tStatus = .w4msg → pmsg u = (k'.tcb u).tS.a3) :
    k.Stores pmsg k' := by
  obtain ⟨hist, ha, hr, hw⟩ := h.adds
  refine ⟨hist, ha, ?_⟩
  rw [hw]
  congr 1
  apply word_congr
  intro u s pl hm
  obtain ⟨hu, hb⟩ := hr u s pl hm
  rw [hpmsg u hu hb, h.pointer u hu]

end Pays

/-! ## Handlers -/

/-- What a receive that finds a message does to the rest of the kernel. -/
structure Fetches (ptr pl : Value) (k k' : Kernel) : Prop where
  load : k'.load = (if ptr = null then k else k.store ptr pl).load
  history : k'.history = k.history
  tcb : k'.tcb = k.tcb
  thread : k'.currentThread = k.currentThread
  sysbk : k'.sysbkOldarea = k.sysbkOldarea

theorem Fetches.msgqGet {k k' : Kernel} {src o : Option Tcb} {t : Tcb} {ptr pl : Value}
    (h : MikaBoo.msgqGet k (some src) (some t) ptr = .ok (some (o, pl), k')) :
    Fetches ptr pl k k' := by
  have htaken : ∀ m, Fetches ptr (k.msg m).mValue k (msgFree (storeVal k ptr m) m) := by
    intro m
    have hstore : Fetches ptr (k.msg m).mValue k (storeVal k ptr m) := by
      refine ⟨rfl, ?_, ?_, ?_, ?_⟩
      all_goals
        unfold storeVal
        split
        · rfl
        · cases ptr <;> rfl
    exact ⟨hstore.load ▸ load_eq rfl rfl, hstore.history, hstore.tcb, hstore.thread, hstore.sysbk⟩
  unfold MikaBoo.msgqGet at h
  split at h
  · cases h
  · obtain ⟨_, _, h⟩ := bind_eq_ok.mp h
    split at h <;> cases h
    exact htaken _
  · obtain ⟨_, _, h⟩ := bind_eq_ok.mp h
    split at h <;> cases h
    exact htaken _

namespace Kernel.Stores

variable {k k₁ k' : Kernel} {t : Tcb} {src o : Option Tcb} {ptr : Value} {w : Word} {fuel : Nat}
  {x : Exit}

/-- A receive stores its payload, or blocks with its payload pointer. -/
theorem recv (harea : k.sysbkOldarea.a3 = ptr) (h : MikaBoo.recv fuel k src ptr = .ok (x, k')) :
    k.Stores (k'.pmsg x) k' ∧
      ∀ u, k.currentThread ≠ some u → (k'.tcb u).tS.a3 = (k.tcb u).tS.a3 := by
  unfold MikaBoo.recv at h
  split at h
  · cases h
  · rename_i t hc
    split at h
    · cases h
    · obtain ⟨⟨r, k₁⟩, hk₁, h⟩ := bind_eq_ok.mp h
      cases r with
      | some r =>
          obtain ⟨src, pl⟩ := r
          have F : Fetches ptr pl k k₁ := .msgqGet hk₁
          cases h
          let k₂ := storeReturnValue (k₁.record (.received t src pl)) (tcbPtr src)
          have hptr : k₂.pmsg (.resume k₂.sysbkOldarea) t = ptr := by
            have hcur : k₂.currentThread = some t := F.thread.trans hc
            have ha3 : k₂.sysbkOldarea.a3 = ptr := (congrArg State.a3 F.sysbk).trans harea
            simp [Kernel.pmsg, hcur, ha3]
          refine ⟨⟨[.received t src pl], ?_, ?_⟩, fun u _ => ?_⟩
          · exact congrArg (· ++ [Obs.received t src pl]) F.history
          · have hload : k₂.load = k₁.load := load_eq rfl rfl
            rw [← load_deliver, hptr, ← F.load]
            exact hload
          · exact congrArg (fun d => (d u).tS.a3) F.tcb
      | none =>
          obtain ⟨k₂, hk₂, h⟩ := bind_eq_ok.mp h
          rw [msgqGet_eq_none hk₁] at hk₂
          have h₁ : ∀ pmsg, k.Stores pmsg (k.blocking t src) := fun _ =>
            of_eq (load_eq rfl rfl) rfl
          have P : Pays (fun _ => True) (k.blocking t src) k₂ :=
            .updateClock (fun _ => trivial) hk₂
          have h₂ : (k.blocking t src).Stores (fun u => (k₂.tcb u).tS.a3) k₂ :=
            P.stores fun _ _ _ => rfl
          have hothers : ∀ u, k.currentThread ≠ some u →
              (k₂.tcb u).tS.a3 = (k.tcb u).tS.a3 := by
            intro u hu
            have hut : u ≠ t := fun he => hu (he ▸ hc)
            rw [P.pointer u trivial]
            simp [Kernel.blocking, Kernel.modTcb, hut]
          have h₃ : ∀ q, k.Stores (fun u => (k₂.tcb u).tS.a3) (threadEnqueue k₂ t q) := fun _ =>
            ((h₁ _).trans h₂).trans (of_eq (load_eq rfl rfl) rfl)
          split at h <;> cases h <;> exact ⟨h₃ _, hothers⟩

theorem msgrecv {caller : State} (h : MikaBoo.msgrecv fuel k caller src ptr = .ok (x, k')) :
    k.Stores (k'.pmsg x) k' ∧
      ∀ u, k.currentThread ≠ some u → (k'.tcb u).tS.a3 = (k.tcb u).tS.a3 := by
  let k₁ : Kernel := { k.enter with
    sysbkOldarea := { caller with a1 := SYS_RECV, a2 := tcbPtr src, a3 := ptr, a4 := null } }
  obtain ⟨hstores, hothers⟩ := recv (k := k₁) rfl h
  have h₁ : k.Stores (k'.pmsg x) k₁ := of_eq (load_eq rfl rfl) rfl
  exact ⟨h₁.trans hstores, hothers⟩

/-- The SSI gets the request before the thread waits for the reply. -/
theorem terminateRequest (hssi : k.currentThread ≠ some .ssi)
    (h : MikaBoo.terminateRequest fuel k w = .ok (x, k')) : k.Stores (k'.pmsg x) k' := by
  obtain ⟨k₁, hk₁, h⟩ := bind_eq_ok.mp h
  obtain ⟨⟨x₂, k₂⟩, hk₂, h⟩ := bind_eq_ok.mp h
  have P : Pays (· = .ssi) k k₁ := .msgsend rfl hk₁
  have hthread : k₁.currentThread = k.currentThread :=
    (congrArg Kept.currentThread (Frame.msgsend hk₁) :)
  obtain ⟨hstores, hothers⟩ := msgrecv hk₂
  cases x₂ <;> cases h
  refine (P.stores ?_).trans hstores
  rintro u rfl _
  exact hothers .ssi (by rwa [hthread])

/-- A thread is saved, a message is sent, and another thread is scheduled. -/
theorem stop {k₂ : Kernel} {q : SchedQueue} (P : Pays (fun _ => True) k₁ k₂)
    (hload : k₁.load = k.load) (hhist : k₁.history = k.history) :
    k.Stores ((threadEnqueue k₂ t q).pmsg .schedule) (threadEnqueue k₂ t q) := by
  have hsent : k₁.Stores (fun u => (k₂.tcb u).tS.a3) k₂ := P.stores fun _ _ _ => rfl
  exact ((of_eq hload hhist).trans hsent).trans (of_eq (load_eq rfl rfl) rfl)

/-- A message is sent, and a thread that does not wait for one goes on. -/
theorem goOn {s : State} (P : Pays (fun _ => True) k k')
    (hready : ∀ u, k'.currentThread = some u → (k.tcb u).tStatus = .ready) :
    k.Stores (k'.pmsg (.resume s)) k' := by
  refine P.stores fun u _ hb => ?_
  have hu : k'.currentThread ≠ some u := by
    intro hu
    rw [hready u hu] at hb
    cases hb
  simp [Kernel.pmsg, hu]

theorem rawTrapH {mgr : Option Tcb} {oldarea : State} (hssi : k.currentThread ≠ some .ssi)
    (h : MikaBoo.rawTrapH fuel k mgr oldarea = .ok (x, k')) : k.Stores (k'.pmsg x) k' := by
  unfold MikaBoo.rawTrapH at h
  split at h
  · cases h
  · split at h
    · obtain ⟨k₂, hk₂, h⟩ := bind_eq_ok.mp h
      cases h
      have P := Pays.msgsend (P := fun _ => True) trivial hk₂
      exact stop P (load_eq rfl rfl) rfl
    · exact terminateRequest hssi h

theorem pgmtrapH (hssi : k.currentThread ≠ some .ssi)
    (h : MikaBoo.pgmtrapH fuel k = .ok (x, k')) : k.Stores (k'.pmsg x) k' := by
  obtain ⟨_, _, h⟩ := bind_eq_ok.mp h
  exact rawTrapH hssi h

theorem tlbtrapH (hssi : k.currentThread ≠ some .ssi)
    (h : MikaBoo.tlbtrapH fuel k = .ok (x, k')) : k.Stores (k'.pmsg x) k' := by
  obtain ⟨_, _, h⟩ := bind_eq_ok.mp h
  exact rawTrapH hssi h

theorem raiseReservedInstruction (hssi : k.currentThread ≠ some .ssi)
    (h : MikaBoo.raiseReservedInstruction fuel k = .ok (x, k')) : k.Stores (k'.pmsg x) k' := by
  let k₁ : Kernel := { k with
    pgmtrapOldarea := { k.sysbkOldarea with cp15Cause := EXC_RESERVEDINSTR } }
  have h₁ : k.Stores (k'.pmsg x) k₁ := of_eq (load_eq rfl rfl) rfl
  exact h₁.trans (pgmtrapH (k := k₁) hssi h)

theorem syscallOther {a₁ a₂ a₃ a₄ : Value} (hssi : k.currentThread ≠ some .ssi)
    (h : MikaBoo.syscallOther fuel k a₁ a₂ a₃ a₄ = .ok (x, k')) : k.Stores (k'.pmsg x) k' := by
  unfold MikaBoo.syscallOther at h
  split at h
  · cases h
  · obtain ⟨_, _, h⟩ := bind_eq_ok.mp h
    split at h
    · obtain ⟨⟨_, k₂⟩, hk₂, h⟩ := bind_eq_ok.mp h
      cases h
      have P := Pays.send (P := fun _ => True) trivial hk₂
      exact stop P (load_eq rfl rfl) rfl
    · obtain ⟨⟨_, k₂⟩, hk₂, h⟩ := bind_eq_ok.mp h
      cases h
      have P := Pays.send (P := fun _ => True) trivial hk₂
      exact stop P (load_eq rfl rfl) rfl
    · exact terminateRequest hssi h

theorem syscallH (hssi : k.currentThread ≠ some .ssi)
    (hready : ∀ u, k.currentThread = some u → (k.tcb u).tStatus = .ready)
    (h : MikaBoo.syscallH fuel k = .ok (x, k')) : k.Stores (k'.pmsg x) k' := by
  unfold MikaBoo.syscallH at h
  dsimp only at h
  split at h
  · exact raiseReservedInstruction hssi h
  · split at h
    · unfold sendKernel at h
      split at h
      · obtain ⟨d, _, h⟩ := bind_eq_ok.mp h
        cases d with
        | none => cases h
        | some d =>
            obtain ⟨⟨w, k₁⟩, hk₁, h⟩ := bind_eq_ok.mp h
            have hthread : k₁.currentThread = k.currentThread :=
              (congrArg Kept.currentThread (Frame.send hk₁) :)
            cases h
            have P : Pays (fun _ => True) k (storeReturnValue k₁ (.int w)) :=
              (Pays.send trivial hk₁).trans (.of_eq (fun _ _ => rfl) rfl rfl rfl)
            exact goOn P fun u hu => hready u (hthread ▸ hu)
      · exact raiseReservedInstruction hssi h
    · split at h
      · rename_i hrecv
        unfold recvKernel at h
        split at h
        · obtain ⟨s, _, h⟩ := bind_eq_ok.mp h
          exact (recv rfl h).1
        · exact raiseReservedInstruction hssi h
      · exact syscallOther hssi h

theorem acknowledge {i : Fin 5}
    (hready : ∀ u, k.currentThread = some u → (k.tcb u).tStatus = .ready)
    (h : MikaBoo.acknowledge k i = .ok (x, k')) : k.Stores (k'.pmsg x) k' := by
  obtain ⟨_, _, h⟩ := bind_eq_ok.mp h
  split at h
  · cases h
  · obtain ⟨⟨w, k₁⟩, hk₁, h⟩ := bind_eq_ok.mp h
    obtain ⟨_, _, h⟩ := bind_eq_ok.mp h
    have hthread : k₁.currentThread = k.currentThread :=
      (congrArg Kept.currentThread (Frame.send hk₁) :)
    let k₀ : Kernel := { k with transmCommand := DEV_C_ACK }
    have P₀ : Pays (fun _ => True) k k₀ := .of_eq (fun _ _ => rfl) rfl rfl rfl
    have P₁ : Pays (fun _ => True) k k₁ := P₀.trans (.send (k := k₀) trivial hk₁)
    dsimp only at h
    split at h
    · cases h
      exact (P₁.stores fun _ _ _ => rfl).trans (of_eq (load_eq rfl rfl) rfl)
    · split at h <;> cases h
      exact goOn (P₁.trans (.of_eq (fun _ _ => rfl) rfl rfl rfl)) fun u hu => hready u (hthread ▸ hu)

theorem interruptH {pending : Fin 5 → Word}
    (hready : ∀ u, k.currentThread = some u → (k.tcb u).tStatus = .ready)
    (h : MikaBoo.interruptH fuel k pending = .ok (x, k')) : k.Stores (k'.pmsg x) k' := by
  unfold MikaBoo.interruptH at h
  dsimp only at h
  let k₁ : Kernel := { k with timeSliceLeft := k.timer }
  have h₁ : ∀ pmsg, k.Stores pmsg k₁ := fun _ => of_eq (load_eq rfl rfl) rfl
  split at h
  · unfold ioH at h
    split at h
    · exact (h₁ _).trans (acknowledge (k := k₁) hready h)
    · cases h
  · obtain ⟨k₂, hk₂, h⟩ := bind_eq_ok.mp h
    cases h
    have P := Pays.updateClock (P := fun _ => True) (fun _ => trivial) hk₂
    refine ((h₁ _).trans (of_eq ?_ ?_)).trans (P.stores fun _ _ _ => rfl)
    · cases k.currentThread <;> exact load_eq rfl rfl
    · cases k.currentThread <;> rfl

/-- The SSI receives a request, or waits for one. -/
theorem ssi (hp : k.ssiPoint = .receiving) (h : MikaBoo.ssi fuel k = .ok (x, k')) :
    k.Stores (k'.pmsg x) k' := by
  simp only [MikaBoo.ssi, hp] at h
  let k₁ : Kernel := { k with ssiPoint := .serving }
  have h₁ : k.Stores (k'.pmsg x) k₁ := of_eq (load_eq rfl rfl) rfl
  exact h₁.trans (msgrecv (k := k₁) h).1

end Kernel.Stores

/-- The kernel when the thread that runs has computed. -/
def Kernel.computed (k : Kernel) : Event → Kernel
  | .run _ mem _ => { k with mem := mem }
  | _ => k

/-- The end of a kernel entry writes nothing. -/
theorem Kernel.Stores.leave {k k₁ k' : Kernel} {x : Exit} (S : k.Stores (k₁.pmsg x) k₁)
    (h : MikaBoo.leave k₁ x = .ok k') : k.Stores (k'.pmsg (.resume k'.cpu)) k' := by
  obtain ⟨ha, hloads, hstays⟩ := leave_contexts (P := fun _ => True) h
  have hpmsg : k'.pmsg (.resume k'.cpu) = k₁.pmsg x := by
    funext u
    have htcb := ha.tcb u trivial
    cases x with
    | resume s =>
        cases h
        rfl
    | schedule =>
        by_cases hu : k'.currentThread = some u
        · simp [Kernel.pmsg, hu, hloads rfl u hu, htcb]
        · simp [Kernel.pmsg, hu, htcb]
  rw [hpmsg]
  exact S.trans (of_eq ha.load (Still.leave h).history)

/-! ## Services -/

/-- A service that creates no thread keeps the payload pointers, and writes NULL for the receives
that it aborts. -/
def Clears (k k' : Kernel) : Prop :=
  ∃ hist, k.Adds k' hist ∧ ((∀ u, .allocated u ∉ hist) →
    (∀ u, (k'.tcb u).tS.a3 = (k.tcb u).tS.a3) ∧
      k'.load = replay (hist.filterMap (Obs.word fun u => (k.tcb u).tS.a3)) k.load)

namespace Clears

variable {k k₁ k' : Kernel}

theorem of_eq (hS : ∀ u, (k'.tcb u).tS = (k.tcb u).tS) (hload : k'.load = k.load)
    (hhist : k'.history = k.history) : Clears k k' :=
  ⟨[], by simp [Kernel.Adds, hhist], fun _ => ⟨fun u => by rw [hS u], hload⟩⟩

theorem trans (h₁ : Clears k k₁) (h₂ : Clears k₁ k') : Clears k k' := by
  obtain ⟨hist₁, ha₁, hc₁⟩ := h₁
  obtain ⟨hist₂, ha₂, hc₂⟩ := h₂
  refine ⟨hist₁ ++ hist₂, ?_, fun hnew => ?_⟩
  · rw [Kernel.Adds, ha₂, ha₁, List.append_assoc]
  · simp only [List.mem_append, not_or] at hnew
    obtain ⟨hp₁, hw₁⟩ := hc₁ fun u => (hnew u).1
    obtain ⟨hp₂, hw₂⟩ := hc₂ fun u => (hnew u).2
    refine ⟨fun u => (hp₂ u).trans (hp₁ u), ?_⟩
    rw [hw₂, hw₁, List.filterMap_append, replay_append]
    congr 1
    exact word_congr fun u _ _ _ => hp₁ u

theorem chore (c : Chore k k') : Clears k k' := by
  cases c with
  | @clean _ _ d r get =>
      cases r with
      | none =>
          rw [msgqGet_eq_none get]
          exact of_eq (fun _ => rfl) rfl rfl
      | some r =>
          cases d with
          | none => cases get
          | some d =>
              have F : Fetches null r.2 k k' := .msgqGet get
              exact of_eq (fun u => by rw [F.tcb]) F.load F.history
  | drop | count | manage | wait | engage => exact of_eq (fun _ => rfl) (load_eq rfl rfl) rfl
  | abort u =>
      let k₁ := k.modTcb u fun d => { d with errno := 1 }
      have hS : ∀ w, (k₁.tcb w).tS = (k.tcb w).tS := fun w =>
        congrFun (Frame.modTcb_field k u (fun d => { d with errno := 1 }) TcbT.tS rfl) w
      have h₁ : Clears k k₁ := of_eq hS (load_eq rfl rfl) rfl
      exact h₁.trans ⟨[.received u none null], (resumeThread_effect k₁ u none null).2.2.2,
        fun _ => resumeThread_words k₁ u none null⟩
  | free t =>
      unfold threadFree
      split
      · exact of_eq (fun _ => rfl) (load_eq rfl rfl) rfl
      · split
        · exact of_eq (fun _ => rfl) (load_eq rfl rfl) rfl
        · have hS : ∀ w, ((cleanThreadData k t).tcb w).tS = (k.tcb w).tS := fun w =>
            congrFun (Frame.modTcb_field k t _ TcbT.tS rfl) w
          exact ⟨[.freed t], rfl, fun _ => ⟨fun w => congrArg State.a3 (hS w), load_eq rfl rfl⟩⟩
  | delete p =>
      unfold procDelete
      split <;> exact of_eq (fun _ => rfl) (load_eq rfl rfl) rfl
  | alloc alloc =>
      obtain ⟨_, _, h⟩ := bind_eq_ok.mp alloc
      split at h <;> cases h <;> exact of_eq (fun _ => rfl) (load_eq rfl rfl) rfl
  | @create _ _ t s alloc =>
      obtain ⟨_, _, h⟩ := bind_eq_ok.mp alloc
      split at h <;> cases h
      exact ⟨[.allocated t], rfl, fun hnew => absurd (List.mem_singleton_self _) (hnew t)⟩

theorem chores (cs : Chores k k') : Clears k k' := by
  induction cs with
  | refl => exact of_eq (fun _ => rfl) (load_eq rfl rfl) rfl
  | tail _ c ih => exact ih.trans (chore c)

end Clears

/-! ## Events -/

namespace Good

variable {k k' : Kernel} {e : Event} {fuel : Nat} {x : Exit}

/-- A kernel entry that serves no request. -/
theorem entry_stores (H : Good k) (hs : k.serves e = false)
    (h : MikaBoo.entry fuel k e = .ok (x, k')) : (k.computed e).Stores (k'.pmsg x) k' := by
  have hready : ∀ u, k.currentThread = some u → (k.tcb u).tStatus = .ready := fun u hu =>
    H.inv.scheduled.running hu
  have hssi : k.userRuns = true → k.currentThread ≠ some .ssi := by
    intro hu hc
    obtain ⟨i, hi⟩ := user_of_userRuns hu
    rw [hi] at hc
    cases hc
  have hset : ∀ (k₁ : Kernel) {pmsg}, k₁.load = k.load → k₁.history = k.history →
      k₁.Stores pmsg k' → k.Stores pmsg k' := by
    intro k₁ pmsg hload hhist S
    exact (Kernel.Stores.of_eq hload hhist).trans S
  cases e with
  | start | run | elapse | edit =>
      simp only [MikaBoo.entry] at h
      split at h <;> cases h
      exact .of_eq (load_eq rfl rfl) rfl
  | syscall =>
      simp only [MikaBoo.entry] at h
      split at h
      · rename_i hu
        let k₁ : Kernel := { k.enter with sysbkOldarea := k.cpu }
        exact hset k₁ (load_eq rfl rfl) rfl (.syscallH (hssi hu) hready h)
      · cases h
  | pgmtrap cause =>
      simp only [MikaBoo.entry] at h
      split at h
      · rename_i hu
        let k₁ : Kernel := { k.enter with pgmtrapOldarea := { k.cpu with cp15Cause := cause } }
        exact hset k₁ (load_eq rfl rfl) rfl (.pgmtrapH (hssi hu) h)
      · cases h
  | tlbtrap cause =>
      simp only [MikaBoo.entry] at h
      split at h
      · rename_i hu
        let k₁ : Kernel := { k.enter with tlbOldarea := { k.cpu with cp15Cause := cause } }
        exact hset k₁ (load_eq rfl rfl) rfl (.tlbtrapH (hssi hu) h)
      · cases h
  | interrupt pending =>
      simp only [MikaBoo.entry] at h
      split at h
      · let k₁ : Kernel := { k.enter with intOldarea := k.cpu }
        exact hset k₁ (load_eq rfl rfl) rfl (.interruptH hready h)
      · cases h
  | ssi =>
      simp only [MikaBoo.entry] at h
      split at h
      · have hp : k.ssiPoint = .receiving := by
          cases hp : k.ssiPoint with
          | receiving => rfl
          | serving => simp [Kernel.serves, hp] at hs
        exact .ssi hp h
      · cases h

/-- The SSI keeps running while it serves a request. -/
theorem serving {q : Request} {msg : Value} {t : Tcb} {r : Option Value}
    (hc : k.currentThread = some .ssi)
    (h : MikaBoo.service fuel { k with ssiPoint := .receiving } t msg q = .ok (r, k')) :
    k'.currentThread = some .ssi :=
  (congrArg Processor.currentThread (Kept.Spares.chores (.service h)).processor :).trans hc

/-- The SSI serves a request that frees threads. -/
theorem reaped_stores (H : Good k) (hr : Regular k .ssi) (hv : k.casualties .ssi ≠ [])
    (h : MikaBoo.step fuel k .ssi = .ok k') : k.Stores (k'.pmsg (.resume k'.cpu)) k' := by
  obtain ⟨t, _, ha, _, _⟩ := H.reaped hr hv h
  obtain ⟨q, hq⟩ : ∃ q, k.request = some q := by
    cases hq : k.request with
    | none => simp [Kernel.casualties, hq] at hv
    | some q => exact ⟨q, rfl⟩
  obtain ⟨hc, k₁, r, hk₁, hk'⟩ := ssi_step ha hq h
  have hsilent : r = none := by
    have hvictims := hv
    rw [Kernel.casualties_of_request ha hq] at hvictims
    exact (Served.of_service (k := { k with ssiPoint := .receiving }) H.rolls hk₁).silent hvictims
  obtain rfl : k' = k₁ := by
    rcases hk' with ⟨_, hk'⟩ | ⟨_, _, hsome, _⟩
    · exact hk'
    · rw [hsilent] at hsome
      cases hsome
  obtain ⟨hist, hadds, hclears⟩ := Clears.chores (.service hk₁)
  obtain ⟨hist', hh, hkind, _⟩ := H.history_of_casualties hr hv h
  obtain rfl : hist' = hist := List.append_cancel_left (hh.symm.trans hadds)
  obtain ⟨hpointer, hload⟩ := hclears fun u hm => by
    rcases hkind _ hm with ⟨_, hu⟩ | ⟨_, hu⟩ <;> cases hu
  refine ⟨hist', hadds, hload.trans ?_⟩
  congr 1
  apply word_congr
  intro u s pl hm
  have hu : u ≠ .ssi := by
    rintro rfl
    have hspared : Tcb.ssi ∉ k.casualties .ssi := fun hm =>
      ((H.step hr h).1.inv.owned.free.mp (H.free_of_casualty hr h hm)).1 rfl
    obtain ⟨_, hu⟩ | ⟨_, hu⟩ := hkind _ hm
    · cases hu
      obtain ⟨_, _, hb, _⟩ := (H.aborted_iff hr h hh hspared).mp hm
      have hready : (k.tcb .ssi).tStatus = .ready := H.inv.scheduled.running hc
      rw [hready] at hb
      cases hb
    · cases hu
  simp only [Kernel.pmsg, serving hc hk₁, Option.some.injEq, Ne.symm hu, if_false]
  exact (hpointer u).symm

/-- The SSI serves a request that frees no thread. -/
theorem served_stores (H : Good k) (hr : Regular k .ssi) (hs : k.serves .ssi = true)
    (hv : k.casualties .ssi = []) (h : MikaBoo.step fuel k .ssi = .ok k') :
    k.Stores (k'.pmsg (.resume k'.cpu)) k' := by
  obtain ⟨hs', _⟩ | ⟨t, q, _, _, _, ha, hq, _⟩ := step_served H.rolls h
  · rw [hs] at hs'
    cases hs'
  obtain ⟨hc, k₁, r, hk₁, hk'⟩ := ssi_step ha hq h
  let k₀ : Kernel := { k with ssiPoint := .receiving }
  have hvictims : k₀.victims t k.ssiMsg q = [] := by
    rwa [Kernel.casualties_of_request ha hq] at hv
  have hterm : k₀.terminated t k.ssiMsg q = none :=
    Kernel.terminated_eq_none (k := k₀) (q := q) H.rolls (by simp [hvictims])
  have hq' : q ≠ .terminateThread := by
    rintro rfl
    simp [Kernel.victims, hterm] at hvictims
  have A : Aside (· ∉ k.view.threads .free) k₀ k₁ := .service (k := k₀) H.rolls hterm hq' hk₁
  obtain ⟨hist₁, hadds₁⟩ := A.adds
  have hadds₁ : k.Adds k₁ hist₁ := hadds₁
  -- the reply, if there is one, comes after the service
  obtain ⟨P, hthread⟩ : Pays (fun _ => True) k₁ k' ∧ k'.currentThread = some .ssi := by
    rcases hk' with ⟨_, rfl⟩ | ⟨_, k₂, _, hk₂, rfl⟩
    · exact ⟨.of_eq (fun _ _ => rfl) rfl rfl rfl, serving hc hk₁⟩
    · have hsame : k₂.currentThread = k₁.currentThread :=
        (congrArg Kept.currentThread (Frame.msgsend hk₂) :)
      exact ⟨(Pays.msgsend trivial hk₂).trans (.of_eq (fun _ _ => rfl) rfl rfl rfl),
        hsame.trans (serving hc hk₁)⟩
  have hmute : ∀ u s pl, .received u s pl ∉ hist₁ := by
    intro u s pl hm
    cases s with
    | some a =>
        have hmail : hist₁.filter Obs.isMail = [] := by
          have hsame : k₁.mail = k.mail := (Quiet.chores (.service hk₁)).mail
          rw [Kernel.mail, hadds₁, List.filter_append] at hsame
          exact List.append_right_eq_self.mp hsame
        exact List.filter_eq_nil_iff.mp hmail _ hm rfl
    | none =>
        obtain ⟨hist, hadds, hatt⟩ := Attested.moves (H.step hr h).2
        have hadds : k.Adds k' hist := hadds
        obtain ⟨hist₂, hadds₂, _⟩ := P.adds
        have hhist : hist = hist₁ ++ hist₂ := by
          rw [Kernel.Adds, hadds, hadds₁, List.append_assoc] at hadds₂
          exact List.append_cancel_left hadds₂
        have hm : .received u none pl ∈ hist := hhist ▸ List.mem_append_left _ hm
        obtain rfl := hatt.empty u pl hm
        obtain ⟨_, hvictim, _⟩ := (H.aborted_iff hr h hadds (by simp [hv])).mp hm
        simp [hv] at hvictim
  have S₁ : ∀ pmsg, k.Stores pmsg k₁ := fun pmsg =>
    ⟨hist₁, hadds₁, by rw [word_eq_nil hmute]; exact A.load⟩
  refine (S₁ _).trans (.goOn P fun u hu => ?_)
  obtain rfl : Tcb.ssi = u := Option.some.inj (hthread.symm.trans hu)
  have hssi : k.Live .ssi := H.live_ssi
  rw [A.tcb .ssi hssi]
  exact H.inv.scheduled.running hc

/-- A step writes the payloads of receives only. -/
theorem step_stores (H : Good k) (last : RegularStep k e k') :
    (k.computed e).Stores (k'.pmsg (.resume k'.cpu)) k' := by
  obtain ⟨hr, fuel, h⟩ := last
  cases hs : k.serves e with
  | false =>
      obtain ⟨⟨x, k₁⟩, hk₁, h⟩ := bind_eq_ok.mp h
      exact (H.entry_stores hs hk₁).leave h
  | true =>
      cases e with
      | ssi =>
          by_cases hv : k.casualties .ssi = []
          · exact H.served_stores hr hs hv h
          · exact H.reaped_stores hr hv h
      | _ => cases hs

end Good

/-- Outside its own objects the kernel writes the payloads of receives only, in their order, each to
the word that the receiver's `a3` points to. -/
theorem words_delivered {hw : Hardware} {k₀ k k' : Kernel} {es : List Event} {e : Event}
    (hb : boot hw = .ok k₀) (run : Run RegularStep k₀ es k) (last : RegularStep k e k') :
    (k.computed e).Stores (k'.pmsg (.resume k'.cpu)) k' :=
  ((Good.boot hb).run run).step_stores last

/-- The second thread waits with the payload pointer 0x140, and the first one is about to send. -/
def Sample.offering : List Event :=
  Sample.expecting ++ [.syscall] ++ (Sample.send (.thread 1) (.int 7) []).dropLast

/-- The payload of the first thread is in the memory of the second one. -/
theorem words_delivered_sample : ∃ k₀ k k' : Kernel, boot Sample.hardware = .ok k₀ ∧
    Run RegularStep k₀ Sample.offering k ∧ RegularStep k .syscall k' ∧
    k'.load (.int 0x140) = .int 7 := by
  let hist : List Obs := [.received (.thread 1) (some (.thread 0)) (.int 7),
    .sent (some (.thread 0)) (.thread 1) (.int 7) true]
  let check : Kernel → Bool := fun k => (step 100 k .syscall).toOption.any fun k' =>
    k'.history = k.history ++ hist ∧ k'.pmsg (.resume k'.cpu) (.thread 1) = .int 0x140
  have h : (execute Regular Sample.hardware 100 Sample.offering).any check = true := by
    decide +kernel
  obtain ⟨k, hk, hstep⟩ := Option.any_eq_true _ _ |>.mp h
  obtain ⟨k₀, hb, run⟩ := run_of_execute hk
  obtain ⟨k', hk', hprops⟩ := Option.any_eq_true _ _ |>.mp hstep
  obtain ⟨hhist, hptr⟩ := of_decide_eq_true hprops
  have last : RegularStep k .syscall k' := ⟨trivial, 100, exec_eq_ok hk'⟩
  refine ⟨k₀, k, k', hb, run, last, ?_⟩
  obtain ⟨hist', hadds, hload⟩ := words_delivered hb run last
  obtain rfl : hist' = hist := List.append_cancel_left (hadds.symm.trans hhist)
  have hword : hist.filterMap (Obs.word (k'.pmsg (.resume k'.cpu))) =
      [(.int 0x140, .int 7)] := by
    have hvalid : (.int 0x140 : Value) ≠ null ∧ (.int 0x140 : Value).isPayloadPtr = true := by
      decide
    simp only [hist, List.filterMap_cons, List.filterMap_nil, Obs.word, hptr, if_pos hvalid]
  rw [hload, hword, replay_cons, replay_nil, Function.update_self]

end MikaBoo
