import MikaBoo.Abstract.Letters
import MikaBoo.Abstract.Casualties
import MikaBoo.Properties.Messages

/-!
# Replies

The SSI answers a request with one message. It gets through when the applicant is
blocked and waits for it, or when there is a message descriptor left to queue it;
the SSI does not look at the result of its `msgsend`.
-/

namespace MikaBoo

open Intrusive Fuel Transition

/-- The SSI, on the processor, holds a request of `t` that calls for a reply. -/
structure Kernel.Owes (k : Kernel) (t : Tcb) (q : Request) : Prop where
  running : k.mode = .running
  current : k.currentThread = some .ssi
  applicant : k.applicant = some t
  request : k.request = some q
  io : q ≠ .doIo
  clock : q ≠ .waitForClock
  spared : t ∉ k.victims t k.ssiMsg q

/-- From `k` to `k'` the thread `t` has got one more message from the SSI: at once,
and then it is ready, or in its queue. -/
def Replied (k k' : Kernel) (t : Tcb) (v : Value) : Prop :=
  (received k'.history .ssi t = received k.history .ssi t ++ [v] ∧
    k'.view.pending .ssi t = k.view.pending .ssi t ∧ (k'.tcb t).tStatus = .ready) ∨
  (received k'.history .ssi t = received k.history .ssi t ∧
    k'.view.pending .ssi t = k.view.pending .ssi t ++ [v])

/-- From `k` to `k'` the thread `t` has got nothing from the SSI. -/
def Ignored (k k' : Kernel) (t : Tcb) : Prop :=
  received k'.history .ssi t = received k.history .ssi t ∧
    k'.view.pending .ssi t = k.view.pending .ssi t

theorem Ignored.not_replied {k k' : Kernel} {t : Tcb} {v : Value} (h : Ignored k k' t) :
    ¬ Replied k k' t v := by
  obtain ⟨hr, hp⟩ := h
  rintro (⟨h, _⟩ | ⟨_, h⟩)
  · simp [hr] at h
  · simp [hp] at h

theorem received_mail (hist : List Obs) (s d : Tcb) :
    received (hist.filter Obs.isMail) s d = received hist s d := by
  rw [received, List.filterMap_filter]
  refine List.filterMap_congr fun o _ => ?_
  cases o with
  | received d' s' pl => cases s' <;> simp [Obs.isMail]
  | _ => simp [Obs.isMail]

/-- What a service that replies leaves alone. -/
structure Unmoved (t : Tcb) (k k' : Kernel) : Prop where
  links : k'.msgLinks = k.msgLinks
  msg : k'.msg = k.msg
  mail : k'.mail = k.mail
  status : (k'.tcb t).tStatus = (k.tcb t).tStatus
  wait : (k'.tcb t).tWait4sender = (k.tcb t).tWait4sender
  current : k'.currentThread = k.currentThread
  mode : k'.mode = k.mode

namespace Unmoved

variable {k k₁ k' : Kernel} {t : Tcb} {fuel : Nat} {s : State} {o : Option Tcb}

theorem refl (k : Kernel) : Unmoved t k k := ⟨rfl, rfl, rfl, rfl, rfl, rfl, rfl⟩

theorem trans (h₁ : Unmoved t k k₁) (h₂ : Unmoved t k₁ k') : Unmoved t k k' where
  links := h₂.links.trans h₁.links
  msg := h₂.msg.trans h₁.msg
  mail := h₂.mail.trans h₁.mail
  status := h₂.status.trans h₁.status
  wait := h₂.wait.trans h₁.wait
  current := h₂.current.trans h₁.current
  mode := h₂.mode.trans h₁.mode

theorem procDelete (k : Kernel) (p : Pcb) : Unmoved t k (MikaBoo.procDelete k p).2 := by
  unfold MikaBoo.procDelete
  split <;> exact ⟨rfl, rfl, rfl, rfl, rfl, rfl, rfl⟩

/-- A creation takes another thread, since a free applicant has no process. -/
theorem rawCreateThreadS {proc : Option Pcb} (C : k.kept.Rolls)
    (ht : proc ≠ none → t = .ssi ∨ k.kept.counts.owner t ≠ none)
    (h : MikaBoo.rawCreateThreadS k s proc = .ok (o, k')) : Unmoved t k k' := by
  have hn : k.threadLinks.listNext .threadH = _ := C.threads.listNext .free
  obtain ⟨⟨o₁, k₁⟩, hk₁, h⟩ := bind_eq_ok.mp h
  cases hq : k.kept.view.threads .free with
  | nil =>
      simp only [threadAlloc, hn, hq, List.head?_nil, Option.map_none] at hk₁
      cases hk₁
      cases h
      exact refl k
  | cons u rest =>
      cases proc with
      | none =>
          simp only [threadAlloc, hn, hq, List.head?_cons, Option.map_some] at hk₁
          cases hk₁
          cases h
          exact refl k
      | some p =>
          simp only [threadAlloc, hn, hq, List.head?_cons, Option.map_some] at hk₁
          cases hk₁
          cases h
          have hu : u ∈ k.kept.view.threads .free := by simp [hq]
          obtain ⟨hssi, hfree⟩ := C.listed.mp hu
          have hne : t ≠ u := by
            rintro rfl
            exact (ht (by rintro ⟨⟩)).elim hssi fun ho => ho hfree
          refine ⟨rfl, rfl, Quiet.mail_record _ rfl, ?_, ?_, rfl, rfl⟩ <;>
            simp [Kernel.modTcb, Kernel.record, threadEnqueue, hne]

theorem createProcessS (C : k.kept.Rolls) (h : MikaBoo.createProcessS k s t = .ok (o, k')) :
    Unmoved t k k' := by
  obtain ⟨⟨q, k₁⟩, hk₁, h'⟩ := bind_eq_ok.mp h
  have h₁ : Unmoved t k k₁ := by
    obtain ⟨_, _, hk₁⟩ := bind_eq_ok.mp hk₁
    split at hk₁ <;> cases hk₁ <;> exact ⟨rfl, rfl, rfl, rfl, rfl, rfl, rfl⟩
  rcases Deeds.procAlloc C (fun p hp => C.tree.owner_alive (t := t) hp) hk₁ with
    ⟨rfl, rfl⟩ | ⟨p, r, rfl, hr, ha, hkept⟩
  · cases h'
    exact h₁
  · obtain ⟨⟨o', k₂⟩, hk₂, h''⟩ := bind_eq_ok.mp h'
    have C₁ : k₁.kept.Rolls := C.run (Deeds.one ha hkept)
    have howner : k₁.kept.counts.owner t ≠ none := by
      have ho : k.kept.counts.owner t = some r := hr
      rw [hkept]
      simp [Kept.after, ho]
    have h₂ := h₁.trans (rawCreateThreadS C₁ (fun _ => Or.inr howner) hk₂)
    cases o' with
    | none =>
        cases h''
        exact h₂.trans (procDelete k₂ p)
    | some u =>
        cases h''
        exact h₂

/-- A set-manager request that does not terminate the applicant is answered. -/
theorem rawSetmgr (role : Role) {r : Option Value}
    (hset : ∀ m, o = some m → ((k.tcb t).tPcb.bind fun p => role.get (k.pcb p)) = none)
    (h : MikaBoo.rawSetmgr role.get role.set fuel k o t = .ok (r, k')) :
    r.isSome ∧ Unmoved t k k' := by
  cases o with
  | none =>
      cases h
      exact ⟨rfl, refl k⟩
  | some m =>
      have hnone := hset m rfl
      simp only [MikaBoo.rawSetmgr] at h
      cases hp : (k.tcb t).tPcb with
      | none => simp [hp] at h
      | some p =>
          have hm : role.get (k.pcb p) = none := by simpa [hp] using hnone
          simp only [hp, hm] at h
          cases h
          exact ⟨rfl, rfl, rfl, rfl, rfl, rfl, rfl, rfl⟩

/-- A request that does not terminate its applicant is answered. -/
theorem service {q : Request} {msg : Value} {r : Option Value} (C : k.kept.Rolls)
    (hio : q ≠ .doIo) (hclock : q ≠ .waitForClock) (ht : t ∉ k.victims t msg q)
    (h : MikaBoo.service fuel k t msg q = .ok (r, k')) : r.isSome ∧ Unmoved t k k' := by
  have hterm := Kernel.terminated_eq_none C ht
  cases q with
  | getErrno | getCputime =>
      cases h
      exact ⟨rfl, refl k⟩
  | waitForClock => exact absurd rfl hclock
  | doIo => exact absurd rfl hio
  | createProcess =>
      obtain ⟨_, _, h⟩ := bind_eq_ok.mp h
      obtain ⟨_, _, h⟩ := bind_eq_ok.mp h
      obtain ⟨_, hk, h⟩ := bind_eq_ok.mp h
      cases h
      exact ⟨rfl, createProcessS C hk⟩
  | createThread =>
      obtain ⟨_, _, h⟩ := bind_eq_ok.mp h
      obtain ⟨_, _, h⟩ := bind_eq_ok.mp h
      obtain ⟨_, hk, h⟩ := bind_eq_ok.mp h
      cases h
      exact ⟨rfl, rawCreateThreadS C Or.inr hk⟩
  | terminateProcess =>
      obtain ⟨_, hk, h⟩ := bind_eq_ok.mp h
      unfold terminateProcessS at hk
      have hp : (k.tcb t).tPcb = none := hterm
      simp [hp] at hk
  | terminateThread => simp [Kernel.victims, hterm] at ht
  | setpgmmgr | settlbmgr | setsysmgr =>
      obtain ⟨v, hv, h⟩ := bind_eq_ok.mp h
      obtain ⟨o, ho, h⟩ := bind_eq_ok.mp h
      exact rawSetmgr _ (Kernel.manager_eq_none hterm rfl (bind_eq_ok.mpr ⟨v, hv, ho⟩)) h
  | getProcessid | getParentprocid =>
      obtain ⟨_, _, h⟩ := bind_eq_ok.mp h
      obtain ⟨_, _, h⟩ := bind_eq_ok.mp h
      cases h
      exact ⟨rfl, refl k⟩
  | getMythreadid =>
      obtain ⟨_, _, h⟩ := bind_eq_ok.mp h
      cases h
      exact ⟨rfl, refl k⟩

theorem pending (h : Unmoved t k k') (u : Tcb) :
    k'.view.pending u t = k.view.pending u t := by
  simp only [View.pending, View.mailbox, Kernel.view, h.links, h.msg]

theorem reaches (h : Unmoved t k k') (u : Tcb) : k'.Reaches u t ↔ k.Reaches u t := by
  simp only [Kernel.Reaches, TcbT.Awaits, Kernel.view, h.links, h.status, h.wait]

theorem received (h : Unmoved t k k') (u : Tcb) :
    MikaBoo.received k'.history u t = MikaBoo.received k.history u t := by
  rw [← received_mail, ← received_mail k.history]
  exact congrArg (MikaBoo.received · u t) h.mail

end Unmoved

namespace Posting

variable {k k' : Kernel} {t : Tcb} {v : Value} {w : Word}

/-- The message gets through exactly when its receiver can be reached. -/
theorem replied_iff (P : Posting k .ssi t v w k') : Replied k k' t v ↔ k.Reaches .ssi t := by
  cases P with
  | direct awaits =>
      obtain ⟨hhist, hlinks, hmsg⟩ := resumeThread_mail k t (some .ssi) v
      refine iff_of_true (Or.inl ⟨?_, ?_, ?_⟩) (Or.inl awaits)
      · simp [Kernel.record, hhist, received]
      · simp only [View.pending, View.mailbox, Kernel.view, Kernel.record, hlinks, hmsg]
      · have htcb : (resumeThread k t (some .ssi) v).tcb t =
            { (deliverDirectly k t (some .ssi) v).tcb t with
              tStatus := .ready, tWait4sender := none } := Function.update_self ..
        exact congrArg TcbT.tStatus htcb
  | queued busy alive room mailbox rest =>
      refine iff_of_true (Or.inr ⟨?_, ?_⟩) (Or.inr ⟨alive, room⟩)
      · rw [rest]
        simp [received]
      · simp [View.pending, mailbox]
  | failed unreached =>
      have hignored : Ignored k (k.record (.sent (some .ssi) t v false)) t :=
        ⟨by simp [Kernel.record, received], rfl⟩
      exact iff_of_false hignored.not_replied unreached

theorem ignored_iff (P : Posting k .ssi t v w k') : Ignored k k' t ↔ ¬ k.Reaches .ssi t := by
  refine ⟨fun h hreach => h.not_replied (P.replied_iff.mpr hreach), fun h => ?_⟩
  cases P with
  | direct awaits => exact absurd (Or.inl awaits) h
  | queued _ alive room => exact absurd (Or.inr ⟨alive, room⟩) h
  | failed => exact ⟨by simp [Kernel.record, received], rfl⟩

/-- The other threads get nothing. -/
theorem others {s : Tcb} (P : Posting k s t v w k') {u : Tcb} (hu : u ≠ t) (s' : Tcb) :
    received k'.history s' u = received k.history s' u ∧
      k'.view.pending s' u = k.view.pending s' u := by
  cases P with
  | direct awaits =>
      obtain ⟨hhist, hlinks, hmsg⟩ := resumeThread_mail k t (some s) v
      refine ⟨by simp [Kernel.record, hhist, received, Ne.symm hu], ?_⟩
      simp only [View.pending, View.mailbox, Kernel.view, Kernel.record, hlinks, hmsg]
  | queued _ _ _ mailbox rest =>
      refine ⟨?_, by simp [View.pending, mailbox, hu]⟩
      rw [rest]
      simp [received]
  | failed => exact ⟨by simp [Kernel.record, received], rfl⟩

end Posting

/-! ## One round of the SSI -/

namespace Kernel

variable {k k₁ k' : Kernel} {s t : Tcb} {q : Request} {v ptr : Value} {rest : List Value}
  {fuel : Nat} {r : Option Value}

/-- A request that is served is answered by a send, and the SSI goes on. -/
theorem Owes.step (C : k.kept.Rolls) (F : k.Filed) (owes : k.Owes t q)
    (served : service fuel { k with ssiPoint := .receiving } t k.ssiMsg q = .ok (r, k₁)) :
    ∃ v k', r = some v ∧ MikaBoo.step fuel k .ssi = .ok k' ∧
      (Replied k k' t v ↔ k.Reaches .ssi t) ∧ (Ignored k k' t ↔ ¬ k.Reaches .ssi t) := by
  have C₀ : Kernel.kept { k with ssiPoint := .receiving } |>.Rolls := C
  obtain ⟨hr, U⟩ := Unmoved.service C₀ owes.io owes.clock owes.spared served
  obtain ⟨v, rfl⟩ := Option.isSome_iff_exists.mp hr
  let k₂ : Kernel := { k₁.enter with
    sysbkOldarea := { k₁.cpu with a1 := SYS_SEND, a2 := .tcb t, a3 := v, a4 := null } }
  have U₂ : Unmoved t k k₂ := ⟨U.links, U.msg, U.mail, U.status, U.wait, U.current, U.mode⟩
  have F₂ : k₂.Filed := F.congr U₂.links
  obtain ⟨w, k₃, hsend, P⟩ := F₂.send .ssi t v
  have hreplied : ∀ v, Replied k₂ k₃ t v ↔ Replied k k₃ t v := by
    intro v
    simp only [Replied, U₂.received, U₂.pending]
  have hignored : Ignored k₂ k₃ t ↔ Ignored k k₃ t := by
    simp only [Ignored, U₂.received, U₂.pending]
  let k₄ := storeReturnValue k₃ (.int w)
  have hcur : k₂.currentThread = some .ssi := U₂.current.trans owes.current
  have hmsgsend : msgsend k₁ k₁.cpu t v = .ok k₄ := by
    unfold msgsend
    change (MikaBoo.send k₂ t k₂.currentThread v >>= _) = _
    rw [hcur, hsend]
    rfl
  refine ⟨v, { k₄ with cpu := k₄.sysbkOldarea }, rfl, ?_, ?_, ?_⟩
  · rw [step_serving owes.running owes.current owes.applicant owes.request, served]
    change (MikaBoo.msgsend k₁ k₁.cpu t v >>= _) = _
    rw [hmsgsend]
    rfl
  · exact (hreplied v).symm.trans (P.replied_iff.trans (U₂.reaches .ssi))
  · exact hignored.symm.trans (P.ignored_iff.trans (not_congr (U₂.reaches .ssi)))

/-- A receive from `s` gets the first of its messages that are pending. -/
theorem Filed.recv (F : k.Filed) (hcur : k.currentThread = some t)
    (hptr : ptr.isPayloadPtr = true) (hp : k.view.pending s t = v :: rest) :
    ∃ st k', MikaBoo.recv fuel k (some s) ptr = .ok (.resume st, k') ∧ st.a1 = .tcb s ∧
      received k'.history s t = received k.history s t ++ [v] ∧ k'.view.pending s t = rest := by
  cases hpick : k.view.pick (some s) t with
  | none =>
      have hnil : k.view.pending s t = [] := by
        rw [View.pending, List.map_eq_nil_iff, List.filter_eq_nil_iff]
        intro e he
        have hne := View.not_eligible_of_pick hpick he
        simpa [MsgT.eligible] using hne
      rw [hnil] at hp
      cases hp
  | some m =>
      have hsender : (k.view.msg m).mSender = some s := View.sender_of_pick hpick
      obtain ⟨k₁, hget, hhist, hmail⟩ := F.msgqGet_pick hpick ptr
      have hrecv := View.pending_receive (s := s) (u := t) F hpick
      rw [hp, hsender] at hrecv
      simp only [received, List.filterMap_cons, and_self, if_true, List.filterMap_nil,
        List.singleton_append] at hrecv
      obtain ⟨hv, hrest⟩ := List.cons.inj hrecv
      let k₂ := storeReturnValue (k₁.record (.received t (some s) v)) (.tcb s)
      refine ⟨k₂.sysbkOldarea, k₂, ?_, rfl, ?_, ?_⟩
      · have hget' : MikaBoo.msgqGet k (some (some s)) (some t) ptr = .ok (some (some s, v), k₁) := by
          rw [hget, ← hsender, ← hv]
          rfl
        simp only [MikaBoo.recv, hcur, hptr, hget', bind, Except.bind]
        rfl
      · change received (k₁.history ++ _) s t = _
        rw [hhist]
        simp [received]
      · change ((k₁.view.mailbox t).filter _).map _ = _
        rw [hmail]
        exact hrest

end Kernel

/-! ## Runs -/

/-- A thread that is owed a reply can be reached. -/
def Answerable (k : Kernel) (e : Event) : Prop :=
  e = .ssi → ∀ t q, k.Owes t q → k.Reaches .ssi t

/-- A step that answers the request it serves, with what the service computes. -/
def AnsweringStep (k : Kernel) (e : Event) (k' : Kernel) : Prop :=
  Step k e k' ∧ (e = .ssi → ∀ t q, k.Owes t q → ∃ fuel v k₁,
    service fuel { k with ssiPoint := .receiving } t k.ssiMsg q = .ok (some v, k₁) ∧
      Replied k k' t v)

/-- In every run in which each thread that is owed a reply can be reached, the SSI
answers every request. In any run it answers exactly those whose thread can be
reached when they are served, and an answer that is pending is there for the receive. -/
theorem one_reply {hw : Hardware} {k₀ : Kernel} (hb : boot hw = .ok k₀) :
    (∀ es k, Run (GuardedStep fun k e => NotSelf k e ∧ Answerable k e) k₀ es k →
      Run AnsweringStep k₀ es k) ∧
    ∀ es k, Run (GuardedStep NotSelf) k₀ es k → ∀ t q, k.Owes t q →
      (∀ fuel r k₁, service fuel { k with ssiPoint := .receiving } t k.ssiMsg q = .ok (r, k₁) →
        ∃ v k', r = some v ∧ step fuel k .ssi = .ok k' ∧
          (Replied k k' t v ↔ k.Reaches .ssi t) ∧ (Ignored k k' t ↔ ¬ k.Reaches .ssi t)) ∧
      ∀ k' es' k₁ fuel ptr v rest, Step k .ssi k' → Run Step k' es' k₁ →
        k₁.currentThread = some t → ptr.isPayloadPtr = true →
        k₁.view.pending .ssi t = v :: rest →
        ∃ s k₂, recv fuel k₁ (some .ssi) ptr = .ok (.resume s, k₂) ∧ s.a1 = .tcb .ssi ∧
          received k₂.history .ssi t = received k₁.history .ssi t ++ [v] ∧
          k₂.view.pending .ssi t = rest := by
  have H := Good.boot hb
  have hrolls : ∀ {es k}, Run (GuardedStep NotSelf) k₀ es k → k.kept.Rolls := by
    intro es k run
    refine run.invariant (P := fun k => k.kept.Rolls) (fun k e k' C h => ?_)
      (.of_inv H.refines H.inv)
    obtain ⟨hn, fuel, h⟩ := h
    exact C.step hn h
  refine ⟨fun es k run => ?_, fun es k run t q owes => ⟨fun fuel r k₁ served => ?_, ?_⟩⟩
  · induction run with
    | nil => exact .nil
    | @snoc es k₁ k₂ e run last ih =>
        obtain ⟨⟨hn, hans⟩, fuel, h⟩ := last
        refine ih.snoc ⟨⟨fuel, h⟩, ?_⟩
        rintro rfl t q owes
        have C := hrolls (weaken_guard (fun _ _ hg => hg.1) run)
        have F := Kernel.Filed.run hb (forget_guard run)
        obtain ⟨_, k₃, r, served, _⟩ := ssi_step owes.applicant owes.request h
        obtain ⟨v, k', rfl, h', hreplied, _⟩ := owes.step C F served
        obtain rfl := Except.ok.inj (h.symm.trans h')
        exact ⟨fuel, v, k₃, served, hreplied.mpr (hans rfl t q owes)⟩
  · exact owes.step (hrolls run) (Kernel.Filed.run hb (forget_guard run)) served
  · intro k' es' k₁ fuel ptr v rest h run' hcur hptr hp
    have F := Kernel.Filed.run hb (((forget_guard run).snoc h).append run')
    exact F.recv hcur hptr hp

instance (k : Kernel) (t : Tcb) (q : Request) : Decidable (k.Owes t q) :=
  decidable_of_iff (k.mode = .running ∧ k.currentThread = some .ssi ∧ k.applicant = some t ∧
      k.request = some q ∧ q ≠ .doIo ∧ q ≠ .waitForClock ∧ t ∉ k.victims t k.ssiMsg q)
    ⟨fun ⟨hr, hc, ha, hq, hio, hclock, hv⟩ => ⟨hr, hc, ha, hq, hio, hclock, hv⟩,
      fun H => ⟨H.running, H.current, H.applicant, H.request, H.io, H.clock, H.spared⟩⟩

namespace Sample

/-- The first thread has asked for its error number and waits for the reply. -/
def asking : List Event := [.start, .ssi] ++ request [.int 0] ++ recv (some .ssi) [.int 0]

/-- The first thread has filled the pool with messages to itself, has asked for its
error number and is preempted before it receives. -/
def flooding : List Event :=
  [.start, .ssi] ++ (List.replicate MAXMSG (send (.thread 0) null [])).flatten ++
    request [.int 0] ++ [.interrupt fun _ => 0]

end Sample

instance (k k' : Kernel) (t : Tcb) : Decidable (Ignored k k' t) :=
  inferInstanceAs (Decidable (_ ∧ _))

/-- The first thread waits for the reply and gets it. -/
theorem one_reply_sample : ∃ k₀ k k' : Kernel, boot Sample.hardware = .ok k₀ ∧
    Run (GuardedStep NotSelf) k₀ Sample.asking k ∧ step 100 k .ssi = .ok k' ∧
    Replied k k' (.thread 0) null := by
  have h : (execute NotSelf Sample.hardware 100 Sample.asking).any (fun k =>
      k.Owes (.thread 0) .getErrno ∧ k.Reaches .ssi (.thread 0) ∧
        (k.tcb (.thread 0)).errno = 0) = true := by
    decide +kernel
  obtain ⟨k, hk, hprops⟩ := Option.any_eq_true _ _ |>.mp h
  obtain ⟨k₀, hb, run⟩ := run_of_execute hk
  obtain ⟨owes, hreach, herrno⟩ := of_decide_eq_true hprops
  have hserved : service 100 { k with ssiPoint := .receiving } (.thread 0) k.ssiMsg .getErrno =
      .ok (some null, { k with ssiPoint := .receiving }) := by
    rw [service, herrno]
  obtain ⟨v, k', hv, h, hreplied, _⟩ := ((one_reply hb).2 _ _ run _ _ owes).1 _ _ _ hserved
  obtain rfl := Option.some.inj hv
  exact ⟨k₀, k, k', hb, run, h, hreplied.mpr hreach⟩

/-- The pool is empty and the first thread ready when its request is served: there
is no reply, and its receive is a deadlock. -/
theorem reply_dropped : ∃ k₀ k k' k₁ k₂ : Kernel, boot Sample.hardware = .ok k₀ ∧
    Run (GuardedStep NotSelf) k₀ Sample.flooding k ∧ k.Owes (.thread 0) .getErrno ∧
    Step k .ssi k' ∧ Ignored k k' (.thread 0) ∧ (∀ v, ¬ Replied k k' (.thread 0) v) ∧
    Run (GuardedStep NotSelf) k' ([.ssi] ++ (Sample.recv (some .ssi) []).dropLast) k₁ ∧
    k₁.currentThread = some (.thread 0) ∧ step 100 k₁ .syscall = .error (.panic k₂) := by
  let check : Kernel → Bool := fun k => k.Owes (.thread 0) .getErrno ∧
    (step 100 k .ssi).toOption.any fun k' => Ignored k k' (.thread 0) ∧
      (proceed NotSelf 100 k' ([.ssi] ++ (Sample.recv (some .ssi) []).dropLast)).any fun k₁ =>
        k₁.currentThread = some (.thread 0) ∧ panics (step 100 k₁ .syscall) = true
  have h : (execute NotSelf Sample.hardware 100 Sample.flooding).any check = true := by
    decide +kernel
  obtain ⟨k, hk, hprops⟩ := Option.any_eq_true _ _ |>.mp h
  obtain ⟨owes, hprops⟩ := of_decide_eq_true hprops
  obtain ⟨k', hk', hprops⟩ := Option.any_eq_true _ _ |>.mp hprops
  obtain ⟨hignored, hprops⟩ := of_decide_eq_true hprops
  obtain ⟨k₁, hk₁, hprops⟩ := Option.any_eq_true _ _ |>.mp hprops
  obtain ⟨hcur, hpanic⟩ := of_decide_eq_true hprops
  obtain ⟨k₂, hk₂⟩ := panics_iff.mp hpanic
  obtain ⟨k₀, hb, run⟩ := run_of_execute hk
  exact ⟨k₀, k, k', k₁, k₂, hb, run, owes, ⟨100, exec_eq_ok hk'⟩, hignored,
    fun _ => hignored.not_replied, run_of_proceed hk₁, hcur, hk₂⟩

end MikaBoo
