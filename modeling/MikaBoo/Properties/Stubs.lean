import MikaBoo.Abstract.Census
import MikaBoo.Model.Nucleus

/-!
# Request wrappers and the SSI

The SSI decodes a request into the call of the wrapper that built it. The exception
is GET_MYTHREADID: the SSI replies with the word after the request.
-/

namespace MikaBoo

open Fuel Transition

namespace Wrapper

/-- The request that the wrapper makes. -/
def request : Wrapper → Request
  | geterrno => .getErrno
  | createProcess _ => .createProcess
  | createThread _ => .createThread
  | terminateProcess => .terminateProcess
  | terminateThread => .terminateThread
  | setpgmmgr _ => .setpgmmgr
  | settlbmgr _ => .settlbmgr
  | setsysmgr _ => .setsysmgr
  | getcputime => .getCputime
  | waitforclock => .waitForClock
  | doIo .. => .doIo
  | getProcessid _ => .getProcessid
  | getParentprocid _ => .getParentprocid
  | getMythreadid => .getMythreadid

/-- The structure `req` is at the address `a`. -/
def Stored (w : Wrapper) (a : Word) (mem : Word → Value) : Prop :=
  ∀ i (h : i < w.req.length), mem (a + BitVec.ofNat 32 (4 * i)) = w.req[i]

/-- The service of the arguments and of the caller `t`: the reply if there is one. -/
def serve (fuel : Nat) (k : Kernel) (t : Tcb) : Wrapper → Exec (Option Value × Kernel)
  | geterrno => .ok (some (.int (k.tcb t).errno), k)
  | createProcess s => do
      let (u, k) ← createProcessS k (← loadState k s) t
      .ok (some (tcbPtr u), k)
  | createThread s => do
      let (u, k) ← createThreadS k (← loadState k s) t
      .ok (some (tcbPtr u), k)
  | terminateProcess => do .ok (none, ← terminateProcessS fuel k t)
  | terminateThread => do .ok (none, ← terminateThreadS fuel k t)
  | setpgmmgr s => setpgmmgrS fuel k s t
  | settlbmgr s => settlbmgrS fuel k s t
  | setsysmgr s => setsysmgrS fuel k s t
  | getcputime => .ok (some (.int (k.tcb t).runTime), k)
  | waitforclock => .ok (none, waitForClockS k t)
  | doIo device command data1 data2 => do
      .ok (none, ← doIoS k device command data1 data2 t)
  | getProcessid s => .ok (some (pcbPtr (k.tcb s).tPcb), k)
  | getParentprocid s => .ok (some (pcbPtr (k.pcb s).pParent), k)
  | getMythreadid => .ok (some (.tcb t), k)

/-- The SSI does for the request what the wrapper asks for, whatever memory surrounds it. -/
def Agrees (w : Wrapper) (k : Kernel) (t : Tcb) (a : Word) : Prop :=
  ∀ mem, w.Stored a mem → ∀ fuel,
    service fuel { k with mem := mem } t (.int a) w.request = w.serve fuel { k with mem := mem } t

/-- The reply does not depend on the memory outside the structure. -/
def Independent (w : Wrapper) (k : Kernel) (t : Tcb) (a : Word) : Prop :=
  ∀ mem mem', w.Stored a mem → w.Stored a mem' → ∀ fuel fuel' r r' k₁ k₁',
    service fuel { k with mem := mem } t (.int a) w.request = .ok (r, k₁) →
    service fuel' { k with mem := mem' } t (.int a) w.request = .ok (r', k₁') → r = r'

end Wrapper

/-- The SSI is about to serve the request that `t` has made with the wrapper `w`, and
that is at the address `a`. -/
structure Kernel.HasRequest (k : Kernel) (w : Wrapper) (t : Tcb) (a : Word) : Prop where
  point : k.ssiPoint = .serving
  msg : k.ssiMsg = .int a
  applicant : k.cpu.a1 = .tcb t
  stored : w.Stored a k.mem

namespace Stubs

variable {k k' k₁ : Kernel} {t u : Tcb} {w : Wrapper} {a : Word} {mem mem' : Word → Value} {fuel : Nat}

theorem reqField_stored {i : Nat} {v : Value} (h : w.Stored a k.mem) (hv : w.req[i]? = some v) :
    reqField k (.int a) i = .ok v := by
  obtain ⟨hi, rfl⟩ := List.getElem?_eq_some_iff.mp hv
  exact congrArg Except.ok (h i hi)

theorem toTcb_tcbPtr (o : Option Tcb) : (tcbPtr o).toTcb = .ok o := by
  cases o <;> rfl

/-- The code of the request selects the right case of the `switch`. -/
theorem requestOf_stored (h : w.Stored a k.mem) : requestOf k (.int a) = some w.request := by
  have hload : ∀ {v}, w.req[0]? = some v → requestOf k (.int a) = Request.ofTag v := by
    intro v hv
    rw [requestOf, reqField_stored h hv]
  cases w <;> exact hload rfl

/-- The SSI decodes the arguments that the wrapper has encoded. -/
theorem service_stored (h : w.Stored a k.mem) (hw : w ≠ .getMythreadid) :
    service fuel k t (.int a) w.request = w.serve fuel k t := by
  have hload : ∀ {i v}, w.req[i]? = some v → reqField k (.int a) i = .ok v := fun hv =>
    reqField_stored h hv
  cases w with
  | getMythreadid => exact absurd rfl hw
  | geterrno | terminateProcess | terminateThread | getcputime | waitforclock => rfl
  | createProcess s | createThread s | getProcessid s | getParentprocid s =>
      simp only [service, Wrapper.request, hload (i := 1) rfl, ok_bind]
      rfl
  | setpgmmgr s | settlbmgr s | setsysmgr s =>
      simp only [service, Wrapper.request, hload (i := 1) rfl, ok_bind, toTcb_tcbPtr]
      rfl
  | doIo device command data1 data2 =>
      simp only [service, Wrapper.request, hload (i := 1) rfl, hload (i := 2) rfl,
        hload (i := 3) rfl, hload (i := 4) rfl, ok_bind]
      rfl

/-- GET_MYTHREADID replies with the word after the request. -/
theorem service_getMythreadid :
    service fuel k t (.int a) .getMythreadid = .ok (some (k.mem (a + 4)), k) := rfl

/-- The memory with the request GET_MYTHREADID at `a` and `v` everywhere else. -/
def beyond (a : Word) (v : Value) : Word → Value := Function.update (fun _ => v) a (.int 12)

theorem beyond_stored (a : Word) (v : Value) : Wrapper.getMythreadid.Stored a (beyond a v) := by
  intro i hi
  obtain rfl : i = 0 := by simpa [Wrapper.req] using hi
  simp [beyond, Wrapper.req]

theorem beyond_next (a : Word) (v : Value) : beyond a v (a + 4) = v := by
  simp [beyond]

theorem agrees_iff : w.Agrees k t a ↔ w ≠ .getMythreadid := by
  constructor
  · rintro h rfl
    have hr := h (beyond a null) (beyond_stored a null) 0
    rw [Wrapper.request, service_getMythreadid] at hr
    have hv := congrArg Prod.fst (Except.ok.inj hr)
    simp only [beyond_next, Option.some.injEq] at hv
    cases hv
  · exact fun hw mem hm fuel => service_stored (k := { k with mem := mem }) hm hw

/-! ## Replies -/

/-- The thread that `thread_alloc` takes is the first free one. -/
theorem rawCreateThreadS_fst {s : State} {proc : Option Pcb} {o : Option Tcb}
    (h : rawCreateThreadS k s proc = .ok (o, k')) :
    ∃ c, containerOf ThreadNode.container (k.threadLinks.listNext .threadH) = .ok c ∧
      o = proc.bind fun _ => c := by
  obtain ⟨⟨o₁, k₁⟩, hk₁, h⟩ := bind_eq_ok.mp h
  obtain ⟨c, hc, hk₁⟩ := bind_eq_ok.mp hk₁
  refine ⟨c, hc, ?_⟩
  cases c with
  | none =>
      cases hk₁
      cases h
      cases proc <;> rfl
  | some u =>
      cases proc with
      | none =>
          cases hk₁
          cases h
          rfl
      | some p =>
          cases hk₁
          cases h
          rfl

/-- The process that `proc_alloc` takes is the first free one. -/
theorem procAlloc_fst {parent q : Option Pcb} (h : procAlloc k parent = .ok (q, k')) :
    k'.threadLinks = k.threadLinks ∧
      ∃ c, containerOf ProcNode.container (k.procLinks.listNext (.pSiblings root)) = .ok c ∧
        q = parent.bind fun _ => c := by
  obtain ⟨c, hc, h⟩ := bind_eq_ok.mp h
  cases c with
  | none =>
      cases h
      exact ⟨rfl, none, hc, by cases parent <;> rfl⟩
  | some p =>
      cases parent with
      | none =>
          cases h
          exact ⟨rfl, _, hc, rfl⟩
      | some r =>
          cases h
          exact ⟨rfl, _, hc, rfl⟩

theorem createThreadS_fst {s : State} {o : Option Tcb} (h : createThreadS k s t = .ok (o, k')) :
    ∃ c, containerOf ThreadNode.container (k.threadLinks.listNext .threadH) = .ok c ∧
      o = (k.tcb t).tPcb.bind fun _ => c :=
  rawCreateThreadS_fst h

theorem createProcessS_fst {s : State} {o : Option Tcb} (h : createProcessS k s t = .ok (o, k')) :
    ∃ c, containerOf ProcNode.container (k.procLinks.listNext (.pSiblings root)) = .ok c ∧
      (((k.tcb t).tPcb.bind fun _ => c) = none ∧ o = none ∨
        ((k.tcb t).tPcb.bind fun _ => c) ≠ none ∧
          containerOf ThreadNode.container (k.threadLinks.listNext .threadH) = .ok o) := by
  obtain ⟨⟨q, k₁⟩, hk₁, h⟩ := bind_eq_ok.mp h
  obtain ⟨hlinks, c, hc, hq⟩ := procAlloc_fst hk₁
  refine ⟨c, hc, ?_⟩
  rw [← hq]
  cases q with
  | none =>
      cases h
      exact Or.inl ⟨rfl, rfl⟩
  | some p =>
      refine Or.inr ⟨nofun, ?_⟩
      obtain ⟨⟨o', k₂⟩, hk₂, h⟩ := bind_eq_ok.mp h
      obtain ⟨d, hd, ho⟩ := rawCreateThreadS_fst hk₂
      rw [hlinks] at hd
      rw [hd]
      cases o' with
      | none =>
          cases h
          exact congrArg Except.ok ho.symm
      | some u =>
          cases h
          exact congrArg Except.ok ho.symm

/-- A set-manager request: what the reply depends on. -/
theorem rawSetmgr_fst (role : Role) {o : Option Tcb} {r : Option Value}
    (h : rawSetmgr role.get role.set fuel k o t = .ok (r, k')) :
    r = o.elim (some null) fun m =>
      if ((k.tcb t).tPcb.bind fun p => role.get (k.pcb p)).isSome then none else some (.tcb m) := by
  cases o with
  | none =>
      cases h
      rfl
  | some m =>
      simp only [rawSetmgr] at h
      cases hp : (k.tcb t).tPcb with
      | none => simp [hp] at h
      | some p =>
          simp only [hp] at h
          cases hm : role.get (k.pcb p) with
          | none =>
              simp only [hm] at h
              cases h
              simp [hm]
          | some m' =>
              simp only [hm] at h
              obtain ⟨_, _, h⟩ := bind_eq_ok.mp h
              cases h
              simp [hm]

theorem rawSetmgr_reply (role : Role) {fuel' : Nat} {o : Option Tcb} {r r' : Option Value}
    (h : rawSetmgr role.get role.set fuel k o t = .ok (r, k₁))
    (h' : rawSetmgr role.get role.set fuel' { k with mem := mem' } o t = .ok (r', k')) : r = r' :=
  (rawSetmgr_fst role h).trans (rawSetmgr_fst role h').symm

/-- The memory outside the kernel does not matter to the reply. -/
theorem serve_reply {fuel' : Nat} {r r' : Option Value}
    (h : w.serve fuel k t = .ok (r, k₁))
    (h' : w.serve fuel' { k with mem := mem' } t = .ok (r', k')) : r = r' := by
  cases w with
  | geterrno | getcputime | getProcessid _ | getParentprocid _ | getMythreadid =>
      cases h
      cases h'
      rfl
  | waitforclock =>
      cases h
      cases h'
      rfl
  | terminateProcess | terminateThread =>
      obtain ⟨_, _, h⟩ := bind_eq_ok.mp h
      obtain ⟨_, _, h'⟩ := bind_eq_ok.mp h'
      cases h
      cases h'
      rfl
  | doIo device command data1 data2 =>
      obtain ⟨_, _, h⟩ := bind_eq_ok.mp h
      obtain ⟨_, _, h'⟩ := bind_eq_ok.mp h'
      cases h
      cases h'
      rfl
  | setpgmmgr s => exact rawSetmgr_reply .pgmMgr h h'
  | settlbmgr s => exact rawSetmgr_reply .tlbMgr h h'
  | setsysmgr s => exact rawSetmgr_reply .sysMgr h h'
  | createThread s =>
      obtain ⟨_, _, h⟩ := bind_eq_ok.mp h
      obtain ⟨_, _, h'⟩ := bind_eq_ok.mp h'
      obtain ⟨⟨o, _⟩, ho, h⟩ := bind_eq_ok.mp h
      obtain ⟨⟨o', _⟩, ho', h'⟩ := bind_eq_ok.mp h'
      obtain ⟨c, hc, rfl⟩ := createThreadS_fst ho
      obtain ⟨c', hc', rfl⟩ := createThreadS_fst ho'
      obtain rfl : c = c' := Except.ok.inj (hc.symm.trans hc')
      cases h
      cases h'
      rfl
  | createProcess s =>
      obtain ⟨_, _, h⟩ := bind_eq_ok.mp h
      obtain ⟨_, _, h'⟩ := bind_eq_ok.mp h'
      obtain ⟨⟨o, _⟩, ho, h⟩ := bind_eq_ok.mp h
      obtain ⟨⟨o', _⟩, ho', h'⟩ := bind_eq_ok.mp h'
      cases h
      cases h'
      obtain ⟨c, hc, hr⟩ := createProcessS_fst ho
      obtain ⟨c', hc', hr'⟩ := createProcessS_fst ho'
      obtain rfl : c = c' := Except.ok.inj (hc.symm.trans hc')
      rcases hr with ⟨hnone, rfl⟩ | ⟨hsome, ht⟩ <;> rcases hr' with ⟨hnone', rfl⟩ | ⟨hsome', ht'⟩
      · rfl
      · exact absurd hnone hsome'
      · exact absurd hnone' hsome
      · rw [Except.ok.inj (ht.symm.trans ht')]

theorem independent_iff : w.Independent k t a ↔ w ≠ .getMythreadid := by
  constructor
  · rintro h rfl
    have hr := h (beyond a (.int 0)) (beyond a (.int 1)) (beyond_stored _ _) (beyond_stored _ _) 0 0
      _ _ _ _ service_getMythreadid service_getMythreadid
    simp only [beyond_next, Option.some.injEq] at hr
    cases hr
  · intro hw mem mem' hm hm' fuel fuel' r r' k₁ k₁' h h'
    rw [service_stored (k := { k with mem := mem }) hm hw] at h
    rw [service_stored (k := { k with mem := mem' }) hm' hw] at h'
    exact serve_reply (k := { k with mem := mem }) h h'

/-! ## The reply at the caller -/

theorem resumeThread_reply {o : Option Tcb} {v : Value} {b : Word}
    (hb : (k.tcb t).tS.a3 = .int b) (hne : b ≠ 0) :
    (resumeThread k t o v).mem b = v ∧ ((resumeThread k t o v).tcb t).tS.a1 = tcbPtr o ∧
      ((resumeThread k t o v).tcb t).tStatus = .ready := by
  have hnull : Value.int b ≠ null := fun h => hne (Value.int.inj h)
  let k₁ := k.modTcb t fun d => { d with tS := { d.tS with a1 := tcbPtr o } }
  have hb₁ : (k₁.tcb t).tS.a3 = .int b := by
    simpa [k₁, Kernel.modTcb] using hb
  have hk : deliverDirectly k t o v = (k₁.store (.int b) v).record (.received t o v) := by
    simp only [deliverDirectly]
    rw [hb₁, if_neg hnull]
  have htcb : (resumeThread k t o v).tcb t =
      { (deliverDirectly k t o v).tcb t with tStatus := .ready, tWait4sender := none } :=
    Function.update_self ..
  refine ⟨?_, ?_, ?_⟩
  · change (deliverDirectly k t o v).mem b = v
    rw [hk]
    exact Function.update_self ..
  · rw [htcb, hk]
    change (k₁.tcb t).tS.a1 = tcbPtr o
    simp only [k₁, Kernel.modTcb, Function.update_self]
  · rw [htcb]

theorem send_reply {o : Option Tcb} {v : Value} {x : Word} (ho : o = some .ssi)
    (h : send k t o v = .ok (x, k')) :
    (∃ r, k'.history.getLast? = some (.sent (some .ssi) t v r)) ∧
      ∀ b : Word, (k.tcb t).tStatus = .w4msg → (k.tcb t).tWait4sender = some .ssi →
        (k.tcb t).tS.a3 = .int b → b ≠ 0 →
        k'.mem b = v ∧ (k'.tcb t).tS.a1 = .tcb .ssi ∧ (k'.tcb t).tStatus = .ready := by
  subst ho
  obtain ⟨⟨r, k₁⟩, hk₁, h⟩ := bind_eq_ok.mp h
  obtain ⟨rfl, rfl⟩ := Prod.mk.inj (Except.ok.inj h)
  refine ⟨⟨_, List.getLast?_concat⟩, fun b hs hw hb hne => ?_⟩
  simp only [sendSwitch, hs, hw, true_or, if_true] at hk₁
  obtain ⟨_, rfl⟩ := Prod.mk.inj (Except.ok.inj hk₁)
  exact resumeThread_reply (o := some .ssi) (v := v) hb hne

/-- The reply is sent to the caller, and wakes it if it waits for the SSI. -/
theorem msgsend_reply {caller : State} {v : Value} (hcur : k.currentThread = some .ssi)
    (h : msgsend k caller t v = .ok k') :
    (∃ r, k'.history.getLast? = some (.sent (some .ssi) t v r)) ∧
      ∀ b : Word, (k.tcb t).tStatus = .w4msg → (k.tcb t).tWait4sender = some .ssi →
        (k.tcb t).tS.a3 = .int b → b ≠ 0 →
        k'.mem b = v ∧ (k'.tcb t).tS.a1 = .tcb .ssi ∧ (k'.tcb t).tStatus = .ready := by
  obtain ⟨⟨x, k₁⟩, hk₁, h⟩ := bind_eq_ok.mp h
  obtain rfl := Except.ok.inj h
  obtain ⟨hlast, hwoken⟩ := send_reply hcur hk₁
  exact ⟨hlast, hwoken⟩

/-- The SSI serves the request that it holds. -/
theorem step_held (H : k.HasRequest w t a) (h : step fuel k .ssi = .ok k') :
    ∃ r k₁, service fuel { k with ssiPoint := .receiving } t (.int a) w.request = .ok (r, k₁) ∧
      ∀ v, r = some v → (∃ r, k'.history.getLast? = some (.sent (some .ssi) t v r)) ∧
        ∀ b : Word, (k₁.tcb t).tStatus = .w4msg → (k₁.tcb t).tWait4sender = some .ssi →
          (k₁.tcb t).tS.a3 = .int b → b ≠ 0 →
          k'.mem b = v ∧ (k'.tcb t).tS.a1 = .tcb .ssi ∧ (k'.tcb t).tStatus = .ready := by
  have ha : k.applicant = some t := by simp [Kernel.applicant, H.applicant]
  have hq : k.request = some w.request := by
    simp [Kernel.request, H.point, H.msg, requestOf_stored H.stored]
  obtain ⟨hcur, k₁, r, hk₁, hr⟩ := ssi_step ha hq h
  refine ⟨r, k₁, by rwa [← H.msg], ?_⟩
  rintro v rfl
  rcases hr with ⟨hnone, _⟩ | ⟨reply, k₂, hreply, hsend, rfl⟩
  · cases hnone
  · obtain rfl := Option.some.inj hreply
    have hcur₁ : k₁.currentThread = some .ssi :=
      (congrArg Processor.currentThread (Kept.Spares.chores (.service hk₁)).processor).trans hcur
    obtain ⟨hsent, hwoken⟩ := msgsend_reply hcur₁ hsend
    exact ⟨hsent, hwoken⟩

end Stubs

/-- For every wrapper but `get_mythreadid`, and for no memory contents with it, the
SSI decodes from the request what the wrapper has encoded, and the reply depends on
nothing else. The reply to a held request is what the service gives; for
`get_mythreadid` it is the caller only if the word after the request is. The reply
is sent to the caller, and a caller that waits for it finds it in its `retval`. -/
theorem client_stubs {k : Kernel} {w : Wrapper} {t : Tcb} {a : Word} (held : k.HasRequest w t a) :
    (w.Agrees k t a ↔ w ≠ .getMythreadid) ∧ (w.Independent k t a ↔ w ≠ .getMythreadid) ∧
      ∀ k', Step k .ssi k' → ∃ fuel r k₁,
        service fuel { k with ssiPoint := .receiving } t (.int a) w.request = .ok (r, k₁) ∧
        (w.serve fuel { k with ssiPoint := .receiving } t = .ok (r, k₁) ↔
          (w = .getMythreadid → k.mem (a + 4) = .tcb t)) ∧
        ∀ v, r = some v → (∃ r, k'.history.getLast? = some (.sent (some .ssi) t v r)) ∧
          ∀ b : Word, (k₁.tcb t).tStatus = .w4msg → (k₁.tcb t).tWait4sender = some .ssi →
            (k₁.tcb t).tS.a3 = .int b → b ≠ 0 →
            k'.mem b = v ∧ (k'.tcb t).tS.a1 = .tcb .ssi ∧ (k'.tcb t).tStatus = .ready := by
  refine ⟨Stubs.agrees_iff, Stubs.independent_iff, fun k' hstep => ?_⟩
  obtain ⟨fuel, hstep⟩ := hstep
  obtain ⟨r, k₁, hk₁, hreply⟩ := Stubs.step_held held hstep
  refine ⟨fuel, r, k₁, hk₁, ?_, hreply⟩
  by_cases hw : w = .getMythreadid
  · subst hw
    obtain ⟨rfl, rfl⟩ := Prod.mk.inj (Except.ok.inj hk₁)
    constructor
    · intro h _
      have hv := (Prod.mk.inj (Except.ok.inj h)).1
      exact (Option.some.inj hv).symm
    · intro hv
      rw [Wrapper.serve, ← hv rfl]
      rfl
  · rw [← Stubs.service_stored (k := { k with ssiPoint := .receiving }) held.stored hw]
    exact iff_of_true hk₁ fun h => absurd h hw

instance (k : Kernel) (w : Wrapper) (t : Tcb) (a : Word) : Decidable (k.HasRequest w t a) :=
  have : Decidable (w.Stored a k.mem) := Nat.decidableBallLT _ _
  decidable_of_iff (k.ssiPoint = .serving ∧ k.ssiMsg = .int a ∧ k.cpu.a1 = .tcb t ∧ w.Stored a k.mem)
    ⟨fun ⟨hp, hm, ha, hs⟩ => ⟨hp, hm, ha, hs⟩, fun H => ⟨H.point, H.msg, H.applicant, H.stored⟩⟩

namespace Sample

/-- The running thread calls a wrapper: `req` is at 0x100, with zeros after it, and
`retval` at 0x80. -/
def wrapper (w : Wrapper) : List Event :=
  [.run (Wrapper.msgsend { cpsr := SYS_MODE_INT_DISABLED } 0x100) (memory w.req) 0, .syscall,
    .run (w.msgrecv { cpsr := SYS_MODE_INT_DISABLED } 0x80) (memory w.req) 0, .syscall]

/-- The SSI holds the request that the first thread makes with the wrapper, and the
first thread waits for the reply. -/
theorem held (w : Wrapper) (check : Kernel → Bool)
    (h : (execute (fun _ _ => True) hardware 100 ([.start, .ssi] ++ wrapper w)).any
      (fun k => decide (k.HasRequest w (.thread 0) 0x100) &&
        (step 100 k .ssi).toOption.any check) = true) :
    ∃ k₀ k k' : Kernel, boot hardware = .ok k₀ ∧ Run Step k₀ ([.start, .ssi] ++ wrapper w) k ∧
      k.HasRequest w (.thread 0) 0x100 ∧ Step k .ssi k' ∧ check k' = true := by
  obtain ⟨k, hk, hprops⟩ := Option.any_eq_true _ _ |>.mp h
  obtain ⟨held, hstep⟩ := Bool.and_eq_true_iff.mp hprops
  obtain ⟨k', hk', hcheck⟩ := Option.any_eq_true _ _ |>.mp hstep
  obtain ⟨k₀, hb, run⟩ := run_of_execute hk
  exact ⟨k₀, k, k', hb, forget_guard run, of_decide_eq_true held, ⟨100, exec_eq_ok hk'⟩, hcheck⟩

end Sample

/-- `get_processid` of the first thread returns the root process. -/
theorem client_stubs_sample : ∃ k₀ k k' : Kernel, boot Sample.hardware = .ok k₀ ∧
    Run Step k₀ ([.start, .ssi] ++ Sample.wrapper (.getProcessid (.thread 0))) k ∧ Step k .ssi k' ∧
    k'.mem 0x80 = .pcb root ∧
    (Wrapper.getProcessid (.thread 0)).Agrees k (.thread 0) 0x100 := by
  obtain ⟨k₀, k, k', hb, run, held, hstep, hmem⟩ := Sample.held (.getProcessid (.thread 0))
    (fun k' => k'.mem 0x80 = .pcb root) (by decide +kernel)
  exact ⟨k₀, k, k', hb, run, hstep, of_decide_eq_true hmem, (client_stubs held).1.mpr nofun⟩

/-- `get_mythreadid` of the first thread returns the zero after the request. -/
theorem client_stubs_wrong : ∃ k₀ k k' : Kernel, boot Sample.hardware = .ok k₀ ∧
    Run Step k₀ ([.start, .ssi] ++ Sample.wrapper .getMythreadid) k ∧
    k.HasRequest .getMythreadid (.thread 0) 0x100 ∧ Step k .ssi k' ∧
    k'.mem 0x80 = null ∧ (k'.tcb (.thread 0)).tStatus = .ready := by
  obtain ⟨k₀, k, k', hb, run, held, hstep, hprops⟩ := Sample.held .getMythreadid
    (fun k' => k'.mem 0x80 = null ∧ (k'.tcb (.thread 0)).tStatus = .ready) (by decide +kernel)
  exact ⟨k₀, k, k', hb, run, held, hstep, of_decide_eq_true hprops⟩

end MikaBoo
