import MikaBoo.Properties.Errors
import MikaBoo.Properties.Exchange
import MikaBoo.Properties.Isolation

/-!
# A receive is a function call

A thread that calls `msgrecv` goes on with the registers of its call, the sender in `a1` and the
payload in the word that it passed, at once or when it has received its one message.
-/

namespace MikaBoo

open Intrusive Fuel Transition

/-! ## One message for each receive -/

/-- A receive of `t` ends. -/
def Obs.receives (t : Tcb) : Obs → Bool
  | .received d _ _ => d = t
  | _ => false

theorem mem_filter_receives {hist : List Obs} {t : Tcb} {o : Option Tcb} {pl : Value} :
    .received t o pl ∈ hist.filter (Obs.receives t) ↔ .received t o pl ∈ hist := by
  simp [Obs.receives]

/-- Between the states `k` and `k'`, the thread `t` receives no signed message, or one, which
completes the receive that blocks it in `k`. -/
inductive Listens (t : Tcb) (k k' : Kernel) : Prop
  | nothing (hist) (adds : k.Adds k' hist) (silent : receipts hist t = [])
      (blocked : (k'.tcb t).tStatus = .w4msg → (k.tcb t).tStatus = .w4msg ∧
        (k'.tcb t).tWait4sender = (k.tcb t).tWait4sender)
  | message (hist s pl) (adds : k.Adds k' hist)
      (heard : receipts hist t = [(s, pl)]) (blocked : (k.tcb t).tStatus = .w4msg)
      (eligible : (k.tcb t).tWait4sender = some s ∨ (k.tcb t).tWait4sender = none)
      (done : (k'.tcb t).tStatus ≠ .w4msg)

namespace Listens

variable {t d : Tcb} {k k₁ k' : Kernel} {r s : Option Tcb} {pl : Value} {w : Word}

theorem refl (t : Tcb) (k : Kernel) : Listens t k k :=
  .nothing [] (List.append_nil _).symm rfl fun h => ⟨h, rfl⟩

/-- Nothing happens to the receive of `t`. -/
theorem silent (L : Listens t k k₁) (hist : List Obs) (adds : k₁.Adds k' hist)
    (silent : receipts hist t = [])
    (blocked : (k'.tcb t).tStatus = .w4msg → (k₁.tcb t).tStatus = .w4msg ∧
      (k'.tcb t).tWait4sender = (k₁.tcb t).tWait4sender) : Listens t k k' := by
  have happend : ∀ {hist₁}, k.Adds k₁ hist₁ → k.Adds k' (hist₁ ++ hist) := by
    intro hist₁ h₁
    rw [Kernel.Adds, adds, h₁, List.append_assoc]
  cases L with
  | nothing _ adds₁ silent₁ blocked₁ =>
      refine .nothing _ (happend adds₁) ?_ fun hb => ?_
      · rw [receipts_append, silent₁, silent, List.append_nil]
      · obtain ⟨hb₁, hw⟩ := blocked hb
        obtain ⟨hb₂, hw₁⟩ := blocked₁ hb₁
        exact ⟨hb₂, hw.trans hw₁⟩
  | message _ s pl adds₁ heard blocked₁ eligible done =>
      refine .message _ s pl (happend adds₁) ?_ blocked₁ eligible fun hb => ?_
      · rw [receipts_append, heard, silent, List.append_nil]
      · exact done (blocked hb).1

theorem post (L : Listens t k k₁) (F : k₁.Filed) (h : send k₁ d s pl = .ok (w, k')) :
    Listens t k k' := by
  cases F.delivery h with
  | direct blocked eligible resumed =>
      subst resumed
      obtain ⟨htcb, _, _, hhist⟩ := resumeThread_effect k₁ d s pl
      have hadds : k₁.Adds ((resumeThread k₁ d s pl).record (.sent s d pl true))
          [.received d s pl, .sent s d pl true] := by
        simp [Kernel.Adds, Kernel.record, hhist]
      by_cases hd : d = t
      · subst hd
        have hready : (((resumeThread k₁ d s pl).record (.sent s d pl true)).tcb d).tStatus =
            .ready := by
          simp [Kernel.record, htcb]
        cases s with
        | none => exact L.silent _ hadds rfl fun hb => by simp [hready] at hb
        | some a =>
            cases L with
            | nothing hist₁ adds₁ silent₁ blocked₁ =>
                obtain ⟨hb, hw⟩ := blocked₁ blocked
                rw [hw] at eligible
                have hadds' : k.Adds ((resumeThread k₁ d (some a) pl).record
                    (.sent (some a) d pl true))
                    (hist₁ ++ [.received d (some a) pl, .sent (some a) d pl true]) := by
                  rw [Kernel.Adds, hadds, adds₁, List.append_assoc]
                have hnew : receipts (hist₁ ++ [.received d (some a) pl,
                    .sent (some a) d pl true]) d = [(a, pl)] := by
                  rw [receipts_append, silent₁]
                  simp [receipts]
                exact .message _ a pl hadds' hnew hb eligible (by simp [hready])
            | message _ _ _ _ _ _ _ done => exact absurd blocked done
      · refine L.silent _ hadds (by cases s <;> simp [receipts, hd]) ?_
        have hother : ((resumeThread k₁ d s pl).record (.sent s d pl true)).tcb t = k₁.tcb t := by
          simp [Kernel.record, htcb, Ne.symm hd]
        rw [hother]
        exact fun hb => ⟨hb, rfl⟩
  | queued a signed _ _ rest =>
      have hhist : k₁.Adds k' [.sent (some a) d pl true] := by
        rw [rest]
        rfl
      have htcb : k'.tcb = k₁.tcb := by rw [rest]
      refine L.silent _ hhist rfl ?_
      rw [htcb]
      exact fun hb => ⟨hb, rfl⟩
  | failed lost =>
      subst lost
      exact L.silent [.sent s d pl false] rfl rfl fun hb => ⟨hb, rfl⟩

/-- A termination delivers no signed message. -/
theorem chore (L : Listens t k k₁) (c : Chore k₁ k') : Listens t k k' := by
  obtain ⟨hist, B⟩ := Blanks.chore c
  refine L.silent hist B.adds ?_ c.blocked
  have hmail : hist.filter Obs.isMail = [] := by
    have hsame := (Quiet.chore c).mail
    rw [Kernel.mail, B.adds, List.filter_append] at hsame
    exact List.append_right_eq_self.mp hsame
  rw [receipts, List.filterMap_eq_nil_iff]
  intro o ho
  split
  · exact absurd rfl (List.filter_eq_nil_iff.mp hmail _ ho)
  · rfl

theorem motion (L : Listens t k k₁) (F : k₁.Filed) (hr : r ≠ some t) (m : Motion r k₁ k') :
    Listens t k k' := by
  cases m with
  | still same =>
      refine L.silent [] (by simp [Kernel.Adds, same.history]) rfl fun hb => ?_
      exact ⟨(same.status t).symm.trans hb, same.wait t⟩
  | post _ sent => exact L.post F sent
  | complete _ sent cleared =>
      refine (L.post F sent).silent [] ?_ rfl ?_
      · rw [cleared]
        exact (List.append_nil _).symm
      · rw [cleared]
        exact fun hb => ⟨hb, rfl⟩
  | turn _ turned =>
      refine L.silent [] ?_ rfl ?_
      · rw [turned]
        exact (List.append_nil _).symm
      · rw [turned]
        exact fun hb => ⟨hb, rfl⟩
  | @take t' src ptr o pl k₂ running anybody got recorded =>
      have ht : t' ≠ t := by
        rintro rfl
        exact hr running
      obtain ⟨m, _, _, _, htcb, hhist, _⟩ := F.taking got
      have htcb' : k'.tcb = k₁.tcb := by rw [recorded, ← htcb]; rfl
      refine L.silent [.received t' o pl] ?_ (by cases o <;> simp [receipts, ht]) ?_
      · rw [recorded]
        simp [Kernel.Adds, Kernel.record, hhist]
      · rw [htcb']
        exact fun hb => ⟨hb, rfl⟩
  | @block t' src ptr running anybody got blocked =>
      have ht : t ≠ t' := by
        rintro rfl
        exact hr running
      have htcb : k'.tcb t = k₁.tcb t := by
        rw [blocked]
        simp [Kernel.blocking, Kernel.modTcb, ht]
      refine L.silent [] (by simp [Kernel.Adds, blocked, Kernel.blocking, Kernel.modTcb]) rfl ?_
      rw [htcb]
      exact fun hb => ⟨hb, rfl⟩
  | chore _ c => exact L.chore c

theorem step {e : Event} {fuel : Nat} (F : k.Filed) (hcur : k.currentThread ≠ some t)
    (h : MikaBoo.step fuel k e = .ok k') : Listens t k k' :=
  (Motions.step h).keeps (P := Listens t k) (fun F L m => L.motion F hcur m) F (.refl t k)

end Listens

/-- If all that `p` holds of in a list is one element, which the list has once at most, the filtered
list is that element. -/
theorem filter_eq_singleton {A : Type*} [DecidableEq A] {p : A → Bool} {l : List A} {a : A}
    (hm : a ∈ l) (ha : p a = true) (hall : ∀ b ∈ l, p b = true → b = a) (honce : l.count a ≤ 1) :
    l.filter p = [a] := by
  have hreplicate : l.filter p = List.replicate (l.filter p).length a :=
    List.eq_replicate_of_mem fun b hb => hall b (List.mem_filter.mp hb).1 (List.mem_filter.mp hb).2
  have hcount : (l.filter p).count a = (l.filter p).length := by
    rw [hreplicate]
    simp
  have hpos : 0 < l.count a := List.count_pos_iff.mpr hm
  rw [List.count_filter ha] at hcount
  rw [hreplicate, show (l.filter p).length = 1 by omega]
  rfl

/-- The receives of a thread that are not aborted are those of signed messages. -/
theorem Attested.receives_of_signed {hist : List Obs} {t : Tcb} (A : Attested hist)
    (h : .received t none null ∉ hist) : hist.filter (Obs.receives t) =
      (receipts hist t).map fun m => .received t (some m.1) m.2 := by
  have hnull : ∀ pl, .received t none pl ∉ hist := by
    intro pl hm
    obtain rfl := A.empty t pl hm
    exact h hm
  clear A h
  induction hist with
  | nil => rfl
  | cons o hist ih =>
      have htail := ih fun pl hm => hnull pl (List.mem_cons_of_mem _ hm)
      rw [List.filter_cons, htail]
      cases o with
      | received d s pl =>
          by_cases hd : d = t
          · subst hd
            cases s with
            | none => exact absurd List.mem_cons_self (hnull pl)
            | some s => simp [Obs.receives, receipts]
          · cases s <;> simp [Obs.receives, receipts, hd]
      | _ => rfl

/-- How a receive of `t` from `src` ends, by what happens in the meantime: with a message from an
eligible sender, or with NULL as `src` is freed. -/
def Completes (hist : List Obs) (t : Tcb) (src : Option Tcb) : Option Tcb → Value → Prop
  | some s, pl => (src = some s ∨ src = none) ∧ .sent (some s) t pl true ∈ hist
  | none, pl => pl = null ∧ ∃ s, src = some s ∧ .freed s ∈ hist

theorem Completes.mono {hist hist' : List Obs} {t : Tcb} {src o : Option Tcb} {pl : Value}
    (h : Completes hist t src o pl) (hsub : hist ⊆ hist') : Completes hist' t src o pl := by
  cases o with
  | some s => exact ⟨h.1, hsub h.2⟩
  | none =>
      obtain ⟨hpl, s, hs, hfreed⟩ := h
      exact ⟨hpl, s, hs, hsub hfreed⟩

namespace Good

variable {k k' : Kernel} {e : Event} {t : Tcb}

/-- A thread that does not run and is not edited keeps its context, or is resumed. -/
theorem bystands (H : Good k) (live : k.Live t) (h : BystanderStep t k e k') :
    Spectates k k' t := by
  obtain ⟨⟨hr, fuel, h⟩, hcur, hedit, live'⟩ := h
  by_cases he : ∃ u s, e = .edit u s
  · obtain ⟨u, s, rfl⟩ := he
    have hut : t ≠ u := fun he => hedit s (he ▸ rfl)
    obtain ⟨⟨x, k₁⟩, hk₁, h⟩ := bind_eq_ok.mp h
    simp only [MikaBoo.entry] at hk₁
    split at hk₁ <;> cases hk₁
    cases h
    refine Or.inl ⟨?_, ?_, ?_⟩ <;> simp [Kernel.modTcb, hut]
  · have he : ∀ u s, e ≠ .edit u s := fun u s heq => he ⟨u, s, heq⟩
    exact (H.isolates hr he h).others t hcur live live'

/-- A step completes the receive of a thread that does not run with one message, or leaves it
alone. -/
theorem hears (H : Good k) (live : k.Live t) (h : BystanderStep t k e k') :
    ∃ hist, k.Adds k' hist ∧
      ((Unaltered k k' t ∧ hist.filter (Obs.receives t) = []) ∨
        ∃ o pl, Resumed k k' t o pl ∧ hist.filter (Obs.receives t) = [.received t o pl] ∧
          Completes hist t (k.tcb t).tWait4sender o pl) := by
  have S := H.bystands live h
  obtain ⟨⟨hr, fuel, h⟩, hcur, _, live'⟩ := h
  have spared : t ∉ k.casualties e := fun hm => live' (H.free_of_casualty hr h hm)
  obtain ⟨hist, adds, attested⟩ := Attested.moves (H.step hr h).2
  have adds : k.Adds k' hist := adds
  have hcancel : ∀ {hist'}, k.Adds k' hist' → hist' = hist := fun h' =>
    List.append_cancel_left (h'.symm.trans adds)
  have L : Listens t k k' := .step H.refines.msgs hcur h
  have haborted := H.aborted_iff hr h adds spared
  -- an aborted receive goes on with NULL
  have hwoken : .received t none null ∈ hist → k'.tcb t = View.aborted (k.tcb t) := by
    intro hm
    obtain ⟨s, hs, hb, hw⟩ := haborted.mp hm
    exact (H.aborted hr h hb hw hs spared).1
  refine ⟨hist, adds, ?_⟩
  rcases S with U | ⟨o, pl, R⟩
  · left
    have hnull : .received t none null ∉ hist := by
      intro hm
      obtain ⟨_, _, hb, _⟩ := haborted.mp hm
      have hready : (k'.tcb t).tStatus = .ready := by
        rw [hwoken hm]
        rfl
      rw [U.status, hb] at hready
      cases hready
    refine ⟨U, ?_⟩
    rw [attested.receives_of_signed hnull]
    cases L with
    | nothing _ adds' silent _ =>
        rw [hcancel adds'] at silent
        rw [silent]
        rfl
    | message _ _ _ _ _ hb _ done => exact absurd (U.status.trans hb) done
  · right
    obtain ⟨hist', adds', hm, hsent⟩ := R.heard
    rw [hcancel adds'] at hm hsent
    refine ⟨o, pl, R, ?_⟩
    cases o with
    | none =>
        obtain rfl := attested.empty t pl hm
        obtain ⟨s, hs, _, hw⟩ := haborted.mp hm
        obtain ⟨hist', adds', hkind, hfreed⟩ :=
          H.history_of_casualties hr (List.ne_nil_of_mem hs) h
        rw [hcancel adds'] at hkind hfreed
        refine ⟨?_, rfl, s, hw, (hfreed s).mpr hs⟩
        -- a termination puts down aborted receives only, and that of `t` once
        have hall : ∀ o ∈ hist, o.receives t → o = .received t none null := by
          intro o ho hrec
          rcases hkind o ho with ⟨u, rfl⟩ | ⟨u, rfl⟩
          · rw [of_decide_eq_true hrec]
          · cases hrec
        exact filter_eq_singleton hm (by simp [Obs.receives]) hall (H.aborted_once hr h adds spared)
    | some a =>
        have hnull : .received t none null ∉ hist := by
          intro hm'
          have ha1 : (k'.tcb t).tS.a1 = null := by
            rw [hwoken hm']
            rfl
          rw [R.context] at ha1
          cases ha1
        have hreceives := attested.receives_of_signed hnull
        have hfound := mem_filter_receives.mpr hm
        cases L with
        | nothing _ adds' silent _ =>
            rw [hcancel adds'] at silent
            rw [hreceives, silent] at hfound
            cases hfound
        | message _ s pl₁ adds' heard _ eligible _ =>
            rw [hcancel adds'] at heard
            rw [heard] at hreceives
            rw [hreceives] at hfound
            obtain ⟨rfl, rfl⟩ : a = s ∧ pl = pl₁ := by simpa using hfound
            exact ⟨hreceives, eligible, hsent a rfl⟩

/-- The scheduler loads the context of the thread that it starts. -/
theorem loads (h : BystanderStep t k e k') (hrun : k'.currentThread = some t) :
    k'.cpu = (k'.tcb t).tS := by
  obtain ⟨⟨_, fuel, h⟩, hcur, _⟩ := h
  obtain ⟨⟨x, k₁⟩, hk₁, h⟩ := bind_eq_ok.mp h
  obtain ⟨_, hloads, hstays⟩ := leave_contexts (P := fun _ => True) h
  by_cases hx : x = .schedule
  · exact hloads hx t hrun
  · have hsame : k'.currentThread = k.currentThread :=
      (hstays hx).trans (Idle.entry_processor hk₁).1
    exact absurd (hsame ▸ hrun) hcur

end Good

/-! ## Receives -/

/-- The running thread `t` is about to call `msgrecv(src, ..)` in kernel mode. -/
structure Kernel.Receives (k : Kernel) (t : Tcb) (src : Option Tcb) : Prop where
  running : k.currentThread = some t
  number : k.cpu.a1 = SYS_RECV
  kernel : isKernelMode { k with sysbkOldarea := k.cpu } = true
  source : k.cpu.a2.toTcb = .ok src

/-- What has become of a receive of `t` from `src` that was called with the registers `s` and had
blocked in the state `k₁`: it waits, or it has returned with one message. -/
inductive Receiving (t : Tcb) (s : State) (src : Option Tcb) (k₁ k : Kernel) : Prop
  | waiting (hist) (adds : k₁.Adds k hist) (silent : hist.filter (Obs.receives t) = [])
      (blocked : (k.tcb t).tStatus = .w4msg) (source : (k.tcb t).tWait4sender = src)
      (context : (k.tcb t).tS = s) (nothing : ∀ e ∈ k.view.mailbox t, e.eligible src = false)
  | returned (hist o pl) (adds : k₁.Adds k hist)
      (heard : hist.filter (Obs.receives t) = [.received t o pl])
      (completes : Completes hist t src o pl) (ready : (k.tcb t).tStatus = .ready)
      (context : (k.tcb t).tS = { s with a1 := tcbPtr o })
      (loaded : k.currentThread = some t → k.cpu = { s with a1 := tcbPtr o })
      (stored : s.a3 ≠ null → ∃ k₂ es₁ es₂, Run (BystanderStep t) k₁ es₁ k₂ ∧
        k₂.load s.a3 = pl ∧ Run (BystanderStep t) k₂ es₂ k)

namespace Receiving

variable {k k₁ k' : Kernel} {t : Tcb} {src : Option Tcb} {s : State} {e : Event} {es : List Event}

theorem step (R : Receiving t s src k₁ k) (H : Good k) (live : k.Live t)
    (hptr : s.a3.isPayloadPtr = true) (run : Run (BystanderStep t) k₁ es k)
    (h : BystanderStep t k e k') : Receiving t s src k₁ k' := by
  have H' : Good k' := H.regularStep h.1
  obtain ⟨hist', adds', hheard⟩ := H.hears live h
  cases R with
  | waiting hist adds silent blocked source context nothing =>
      have hadds : k₁.Adds k' (hist ++ hist') := by
        rw [Kernel.Adds, adds', adds, List.append_assoc]
      rcases hheard with ⟨U, silent'⟩ | ⟨o, pl, R, heard, completes⟩
      · have blocked' := U.status.trans blocked
        have source' := U.wait.trans source
        refine .waiting _ hadds ?_ blocked' source' (U.context.trans context) ?_
        · rw [List.filter_append, silent, silent', List.append_nil]
        · intro e he
          rw [← source']
          exact H'.inv.mail.not_eligible blocked' he
      · rw [source] at completes
        have context' : (k'.tcb t).tS = { s with a1 := tcbPtr o } := by
          rw [R.context, context]
        refine .returned _ o pl hadds ?_ ?_ R.ready context' ?_ ?_
        · rw [List.filter_append, silent, heard, List.nil_append]
        · exact completes.mono (List.subset_append_right _ _)
        · exact fun hrun => (Good.loads h hrun).trans context'
        · intro hnull
          have hword := R.word
          rw [context] at hword
          exact ⟨k', _, _, run.snoc h, hword hnull hptr, .nil⟩
  | returned hist o pl adds heard completes ready context loaded stored =>
      have hadds : k₁.Adds k' (hist ++ hist') := by
        rw [Kernel.Adds, adds', adds, List.append_assoc]
      rcases hheard with ⟨U, silent'⟩ | ⟨_, _, R, _⟩
      · have context' := U.context.trans context
        refine .returned _ o pl hadds ?_ ?_ (U.status.trans ready) context' ?_ ?_
        · rw [List.filter_append, heard, silent', List.append_nil]
        · exact completes.mono (List.subset_append_left _ _)
        · exact fun hrun => (Good.loads h hrun).trans context'
        · intro hnull
          obtain ⟨k₂, es₁, es₂, run₁, hload, run₂⟩ := stored hnull
          exact ⟨k₂, es₁, _, run₁, hload, run₂.snoc h⟩
      · have hblocked := R.blocked
        rw [ready] at hblocked
        cases hblocked

theorem run (R : Receiving t s src k₁ k₁) (H : Good k₁) (live : k₁.Live t)
    (hptr : s.a3.isPayloadPtr = true) (run : Run (BystanderStep t) k₁ es k) :
    Receiving t s src k₁ k := by
  suffices hall : Good k ∧ k.Live t ∧ Receiving t s src k₁ k from hall.2.2
  induction run with
  | nil => exact ⟨H, live, R⟩
  | snoc run last ih =>
      obtain ⟨H, live, R⟩ := ih
      exact ⟨H.regularStep last.1, last.2.2.2, R.step H live hptr run last⟩

end Receiving

namespace Kernel.Receives

variable {k k' : Kernel} {t : Tcb} {src : Option Tcb} {fuel : Nat}

/-- The system call runs `recv`. -/
theorem entry_eq (call : k.Receives t src) (huser : k.userRuns = true) (fuel : Nat) :
    entry fuel k .syscall = receive fuel k t src k.cpu := by
  rw [entry, if_pos huser]
  unfold syscallH recvKernel receive
  dsimp only
  rw [if_neg (by simp [call.number]), if_neg (by simp [call.number]), if_pos call.number,
    if_pos (by exact call.kernel), call.source, ← call.running]
  rfl

theorem runs (call : k.Receives t src) (h : MikaBoo.step fuel k .syscall = .ok k') :
    ∃ x k₁, entry fuel k .syscall = .ok (x, k₁) ∧ leave k₁ x = .ok k' ∧
      k.cpu.a3.isPayloadPtr = true ∧ receive fuel k t src k.cpu = .ok (x, k₁) := by
  obtain ⟨⟨x, k₁⟩, hk₁, h⟩ := bind_eq_ok.mp h
  have huser : k.userRuns = true := by
    by_contra hu
    rw [entry, if_neg hu] at hk₁
    cases hk₁
  have hrecv : receive fuel k t src k.cpu = .ok (x, k₁) := (call.entry_eq huser fuel).symm.trans hk₁
  refine ⟨x, k₁, hk₁, h, ?_, hrecv⟩
  by_contra hptr
  have hfalse : k.cpu.a3.isPayloadPtr = false := by simpa using hptr
  unfold receive recv at hrecv
  dsimp only at hrecv
  rw [if_pos hfalse] at hrecv
  cases hrecv

/-- A receive that finds no message blocks its thread. -/
theorem blocks (H : Good k) (call : k.Receives t src) {x : Exit} {k₁ : Kernel}
    (hp : k.view.pick src t = none) (h : receive fuel k t src k.cpu = .ok (x, k₁)) :
    Stopped.Saved ⟨k.cpu, some src⟩ (k₁.tcb t) := by
  let k₀ : Kernel := { k.enter with currentThread := some t, sysbkOldarea := k.cpu }
  have hk₀ : k₀ = { k.enter with sysbkOldarea := k.cpu } := by
    simp only [k₀, ← call.running]
    rfl
  have G : Goes .plain ⟨k.view, k.currentThread⟩ k₀ (some t) := by
    have hG : Goes .plain ⟨k.view, k.currentThread⟩ k k.currentThread := H.goes
    rw [hk₀, ← call.running]
    exact hG.same { hG.refines with }
  have hx : x = .schedule := Kernel.Filed.receive_leaves H.refines.msgs hp h
  rcases G.recv_stops (k := k₀) rfl h with ⟨hne, _⟩ | ⟨_, _, hsaved⟩
  · exact absurd hx hne
  · exact hsaved

end Kernel.Receives

/-- A receive that finds an eligible message returns with the first one at once, and the thread
goes on. One that finds none blocks; until the thread runs again, it waits and nothing in its queue
is eligible, or it has returned with the one message that it has received, from an eligible sender,
or with NULL as the thread that it waited for was freed. In each case `a1` is the only register that
changes. -/
theorem receive_returns {hw : Hardware} {k₀ k : Kernel} {es : List Event} {t : Tcb}
    {src : Option Tcb} (hb : boot hw = .ok k₀) (run : Run RegularStep k₀ es k)
    (call : k.Receives t src) :
    (∀ e, (k.view.mailbox t).find? (MsgT.eligible src) = some e →
      (k.userRuns = true → k.cpu.a3.isPayloadPtr = true → ∃ k', RegularStep k .syscall k') ∧
      ∀ k', RegularStep k .syscall k' → k'.currentThread = some t ∧
        k'.cpu = { k.cpu with a1 := tcbPtr e.mSender } ∧
        (k.cpu.a3 ≠ null → k'.load k.cpu.a3 = e.mValue)) ∧
    ((k.view.mailbox t).find? (MsgT.eligible src) = none → ∀ k' es' k₂,
      RegularStep k .syscall k' → Run (BystanderStep t) k' es' k₂ →
        Receiving t k.cpu src k' k₂) := by
  have H : Good k := (Good.boot hb).run run
  have F : k.Filed := H.refines.msgs
  have hfind : (k.view.mailbox t).find? (MsgT.eligible src) = (k.view.pick src t).map k.msg := by
    rw [View.pick_eq_find, View.mailbox, List.find?_map]
    rfl
  rw [hfind]
  constructor
  · intro e he
    obtain ⟨m, hp, rfl⟩ := Option.map_eq_some_iff.mp he
    constructor
    · intro huser hptr
      obtain ⟨k₁, hk₁, _⟩ := F.receive_takes hptr hp 0
      have hstep : MikaBoo.step 0 k .syscall =
          .ok { k₁ with cpu := { k.cpu with a1 := tcbPtr (k.msg m).mSender } } := by
        rw [MikaBoo.step, call.entry_eq huser, hk₁]
        rfl
      exact ⟨_, trivial, 0, hstep⟩
    · rintro k' ⟨_, fuel, h⟩
      obtain ⟨x, k₁, hk₁, hleave, hptr, hrecv⟩ := call.runs h
      obtain ⟨ha, _, hstays⟩ := leave_contexts (P := fun _ => True) hleave
      obtain ⟨k₂, hk₂, T⟩ := F.receive_takes hptr hp fuel
      obtain ⟨rfl, rfl⟩ := Prod.mk.inj (Except.ok.inj (hk₂.symm.trans hrecv))
      have hcur : k'.currentThread = some t :=
        (hstays (by simp)).trans ((Idle.entry_processor hk₁).1.trans call.running)
      refine ⟨hcur, ?_, fun hnull => ?_⟩
      · cases hleave
        rfl
      · rw [ha.load, T.word, if_neg hnull]
  · intro hnone k' es' k₂ last run'
    have H' : Good k' := H.regularStep last
    obtain ⟨_, fuel, h⟩ := last
    obtain ⟨x, k₁, _, hleave, hptr, hrecv⟩ := call.runs h
    obtain ⟨ha, _, _⟩ := leave_contexts (P := fun _ => True) hleave
    have hp : k.view.pick src t = none := Option.map_eq_none_iff.mp hnone
    obtain ⟨hcontext, hblocked, hwait⟩ := call.blocks H hp hrecv
    have htcb := ha.tcb t trivial
    rw [← htcb] at hcontext hblocked hwait
    have live : k'.Live t := by
      intro hfree
      have hstatus := H'.inv.owned.status.mpr (H'.inv.owned.free.mp hfree)
      exact absurd (hblocked.symm.trans hstatus) (by simp)
    have R : Receiving t k.cpu src k' k' := by
      refine .waiting [] (List.append_nil _).symm rfl hblocked hwait hcontext fun e he => ?_
      rw [← hwait]
      exact H'.inv.mail.not_eligible hblocked he
    exact R.run H' live hptr run'

namespace Sample

def edits (t : Tcb) : Event → Bool
  | .edit u _ => u = t
  | _ => false

/-- Execute a list of events in which `t` does not run. -/
def bystand (t : Tcb) (fuel : Nat) (k : Kernel) (es : List Event) : Option Kernel :=
  es.foldlM (fun k e =>
    if Regular k e ∧ k.currentThread ≠ some t ∧ edits t e = false then
      (step fuel k e).toOption.filter fun k => k.Live t
    else none) k

theorem run_of_bystand {t : Tcb} {fuel : Nat} {k k' : Kernel} {es : List Event}
    (h : bystand t fuel k es = some k') : Run (BystanderStep t) k es k' := by
  refine .of_foldlM (fun k e k' hs => ?_) h
  split at hs
  · rename_i hg
    obtain ⟨hr, hcur, hkind⟩ := hg
    obtain ⟨hk', hlive⟩ := Option.filter_eq_some_iff.mp hs
    have hedit : ∀ s, e ≠ .edit t s := by
      rintro s rfl
      simp [edits] at hkind
    exact ⟨⟨hr, fuel, exec_eq_ok hk'⟩, hcur, hedit, of_decide_eq_true hlive⟩
  · cases hs

/-- The second thread has the registers of a receive from the first one. -/
def calling : State :=
  { a1 := SYS_RECV, a2 := .tcb (.thread 0), a3 := .int 0x140, v1 := .int 5, pc := .int 0x400
    cpsr := SYS_MODE_INT_DISABLED }

/-- The first thread creates the second one, which is about to receive. -/
def expecting : List Event :=
  [.start, .ssi] ++ service [.int 2, .int 0x200] ++ [.run calling (fun _ => null) 0]

/-- The first thread sends a message to the second one and is preempted. -/
def answering : List Event :=
  send (.thread 1) (.int 7) [] ++ [.run {} (memory []) 5000, .interrupt fun _ => 0]

end Sample

/-- The second thread blocks, gets the message of the first one and goes on with it. -/
theorem receive_returns_sample : ∃ k₀ k k' k₂ : Kernel, boot Sample.hardware = .ok k₀ ∧
    Run RegularStep k₀ Sample.expecting k ∧ RegularStep k .syscall k' ∧
    Run (BystanderStep (.thread 1)) k' Sample.answering k₂ ∧
    k₂.currentThread = some (.thread 1) ∧
    k₂.cpu = { Sample.calling with a1 := .tcb (.thread 0) } := by
  let src : Option Tcb := some (.thread 0)
  let check : Kernel → Bool := fun k => k.currentThread = some (.thread 1) ∧
    k.cpu = Sample.calling ∧ (k.view.mailbox (.thread 1)).find? (MsgT.eligible src) = none ∧
    (step 100 k .syscall).toOption.any fun k' =>
      (Sample.bystand (.thread 1) 100 k' Sample.answering).any fun k₂ =>
        k₂.currentThread = some (.thread 1) ∧ (k₂.tcb (.thread 1)).tStatus = .ready ∧
        k₂.cpu.a1 = .tcb (.thread 0)
  have h : (execute Regular Sample.hardware 100 Sample.expecting).any check = true := by
    decide +kernel
  obtain ⟨k, hk, hprops⟩ := Option.any_eq_true _ _ |>.mp h
  obtain ⟨k₀, hb, run⟩ := run_of_execute hk
  obtain ⟨hc, hcpu, hnone, hstep⟩ := of_decide_eq_true hprops
  obtain ⟨k', hk', hrest⟩ := Option.any_eq_true _ _ |>.mp hstep
  obtain ⟨k₂, hk₂, hend⟩ := Option.any_eq_true _ _ |>.mp hrest
  obtain ⟨hc₂, hready, ha1⟩ := of_decide_eq_true hend
  have call : k.Receives (.thread 1) src := by
    refine ⟨hc, ?_, ?_, ?_⟩
    · rw [hcpu]
      rfl
    · rw [hcpu]
      rfl
    · rw [hcpu]
      rfl
  have last : RegularStep k .syscall k' := ⟨trivial, 100, exec_eq_ok hk'⟩
  have run' := Sample.run_of_bystand hk₂
  refine ⟨k₀, k, k', k₂, hb, run, last, run', hc₂, ?_⟩
  cases (receive_returns hb run call).2 hnone k' _ k₂ last run' with
  | waiting _ _ _ blocked =>
      rw [hready] at blocked
      cases blocked
  | returned _ o _ _ _ _ _ _ loaded _ =>
      have hloaded := loaded hc₂
      have ho : tcbPtr o = .tcb (.thread 0) := by
        rw [← ha1, hloaded]
      rw [hloaded, hcpu, ho]

end MikaBoo
