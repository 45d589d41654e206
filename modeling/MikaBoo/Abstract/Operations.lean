import MikaBoo.Abstract.Invariant

/-!
# The operations preserve the invariant

Each operation changes the data of one thread, one message or one process. The
lemmas `Scheduled.change_one` and `Owned.change_one` reduce the preservation of
the invariant to that thread.
-/

namespace MikaBoo

open Intrusive

/-! ## Membership in the lists after an operation -/

namespace View

variable {v : View} {t u : Tcb} {h h' : SchedQueue}

theorem mem_enqueue : u ∈ (v.enqueue t h).sched h' ↔ u ∈ v.sched h' ∨ (u = t ∧ h' = h) :=
  Represents.mem_append_iff

end View

namespace Refines

variable {k : Kernel} {v : View} {t u : Tcb} {h h' : SchedQueue}

theorem mem_outqueue (R : Refines k v) (ht : t ∈ v.sched h) :
    u ∈ (v.outqueue t h).sched h' ↔ u ≠ t ∧ u ∈ v.sched h' :=
  R.sched.mem_erase_iff ht

theorem mem_wake {src : Option Tcb} {pl : Value} (R : Refines k v) (ht : t ∈ v.sched h) :
    u ∈ (v.wake t h src pl).sched h' ↔ (u ≠ t ∧ u ∈ v.sched h') ∨ (u = t ∧ h' = .readyq) :=
  R.sched.mem_move_iff ht

theorem mem_freeMsg {d : Tcb} {m n : Msg} {l : MsgList} (R : Refines k v)
    (hm : m ∈ v.msgs (.of d)) :
    n ∈ (v.freeMsg d m).msgs l ↔ (n ≠ m ∧ n ∈ v.msgs l) ∨ (n = m ∧ l = .free) :=
  R.msgs.mem_move_iff hm

theorem mem_post {s d : Tcb} {pl : Value} {m n : Msg} {l : MsgList} (R : Refines k v)
    (hm : m ∈ v.msgs .free) :
    n ∈ (v.post s d pl m).msgs l ↔ (n ≠ m ∧ n ∈ v.msgs l) ∨ (n = m ∧ l = .of d) :=
  R.msgs.mem_move_iff hm

theorem mem_hire {p : Pcb} {l : ThreadList} (R : Refines k v) (ht : t ∈ v.threads .free) :
    u ∈ (v.hire t p).threads l ↔ (u ≠ t ∧ u ∈ v.threads l) ∨ (u = t ∧ l = .of p) :=
  R.threads.mem_move_iff ht

theorem mem_retire {p : Pcb} {l : ThreadList} (R : Refines k v) (ht : t ∈ v.threads (.of p)) :
    u ∈ (v.retire t p).threads l ↔ (u ≠ t ∧ u ∈ v.threads l) ∨ (u = t ∧ l = .free) :=
  R.threads.mem_move_iff ht

theorem mem_adopt {p q parent : Pcb} {l : ProcList} (R : Refines k v) (hp : p ∈ v.procs .free) :
    q ∈ (v.adopt p parent).procs l ↔ (q ≠ p ∧ q ∈ v.procs l) ∨ (q = p ∧ l = .children parent) :=
  R.procs.mem_move_iff hp

theorem mem_orphan {p q parent : Pcb} {l : ProcList} (R : Refines k v)
    (hp : p ∈ v.procs (.children parent)) :
    q ∈ (v.orphan p parent).procs l ↔ (q ≠ p ∧ q ∈ v.procs l) ∨ (q = p ∧ l = .free) :=
  R.procs.mem_move_iff hp

end Refines

namespace View

variable {k : Kernel} {v v' : View} {r r' : Option Tcb} {t : Tcb}

/-- A thread that fits a queue is allocated. -/
theorem Scheduled.allocated {h : SchedQueue} (S : v.Scheduled r) (ht : t ∈ v.sched h) :
    (v.tcb t).tStatus ≠ .none := by
  have hf := S.fits ht
  intro hn
  cases h <;> simp [Fits, hn] at hf

/-- The scheduling invariant after a change of one thread's fields and place. -/
theorem Scheduled.change_one (S : v.Scheduled r)
    (hsched : ∀ u ≠ t, ∀ h, u ∈ v'.sched h ↔ u ∈ v.sched h)
    (hstatus : ∀ u ≠ t, (v'.tcb u).tStatus = (v.tcb u).tStatus)
    (hwait : ∀ u ≠ t, (v'.tcb u).tWait4sender = (v.tcb u).tWait4sender)
    (hr : ∀ u ≠ t, r' = some u ↔ r = some u)
    (hfits : ∀ h, t ∈ v'.sched h → Fits (v'.tcb t) h ∧ r' ≠ some t)
    (hsome : (v'.tcb t).tStatus ≠ .none → r' = some t ∨ ∃ h, t ∈ v'.sched h)
    (hrun : r' = some t → (v'.tcb t).tStatus = .ready)
    (hnone : (v'.tcb t).tStatus ≠ .w4msg → (v'.tcb t).tWait4sender = none) :
    v'.Scheduled r' := by
  refine ⟨?_, ?_, ?_, ?_, ?_⟩
  · intro u h hu
    by_cases hc : u = t
    · subst hc
      exact (hfits h hu).1
    · have hf := S.fits ((hsched u hc h).mp hu)
      cases h with
      | tWait4clock => exact hf
      | _ => simpa only [Fits, hstatus u hc, hwait u hc] using hf
  · intro u h hu
    by_cases hc : u = t
    · subst hc
      exact (hfits h hu).2
    · rw [Ne, hr u hc]
      exact S.off ((hsched u hc h).mp hu)
  · intro u hu
    by_cases hc : u = t
    · subst hc
      exact hsome hu
    · rw [hstatus u hc] at hu
      simpa only [hr u hc, hsched u hc] using S.somewhere hu
  · intro u hu
    by_cases hc : u = t
    · subst hc
      exact hrun hu
    · rw [hstatus u hc]
      exact S.running ((hr u hc).mp hu)
  · intro u hu
    by_cases hc : u = t
    · subst hc
      exact hnone hu
    · rw [hwait u hc]
      rw [hstatus u hc] at hu
      exact S.wait hu

/-- Data that no part of the invariant depends on may change freely. -/
theorem Inv.quiet (I : v.Inv r) (hprocs : v'.procs = v.procs) (hthreads : v'.threads = v.threads)
    (hsched : v'.sched = v.sched) (hmsgs : v'.msgs = v.msgs) (hmsg : v'.msg = v.msg)
    (hpcb : v'.pcb = v.pcb) (hcount : v'.globals.threadCount = v.globals.threadCount)
    (howner : ∀ t, (v'.tcb t).tPcb = (v.tcb t).tPcb)
    (hstatus : ∀ t, (v'.tcb t).tStatus = (v.tcb t).tStatus)
    (hwait : ∀ t, (v'.tcb t).tWait4sender = (v.tcb t).tWait4sender) : v'.Inv r where
  tree := I.tree.congr hprocs hpcb howner
  owned := I.owned.congr hthreads howner fun t => by rw [hstatus]
  scheduled := I.scheduled.congr hsched hstatus hwait
  mail := I.mail.congr hmsgs hmsg hstatus hwait
  counted := I.counted.congr hcount howner

theorem Inv.record (I : v.Inv r) (o : Obs) : (v.record o).Inv r :=
  I.quiet rfl rfl rfl rfl rfl rfl rfl (fun _ => rfl) (fun _ => rfl) fun _ => rfl

/-- A change of fields that the queues do not depend on. -/
theorem Inv.modTcb {f : TcbT → TcbT} (I : v.Inv r) (h : SameQueueing (v.tcb t) (f (v.tcb t))) :
    (v.modTcb t f).Inv r := by
  refine I.quiet rfl rfl rfl rfl rfl rfl rfl ?_ ?_ ?_ <;> intro u <;> by_cases hu : u = t
  all_goals first
    | subst hu; simp [View.modTcb, h.owner, h.status, h.wait]
    | simp [View.modTcb, hu]

theorem Inv.deliver (I : v.Inv r) (t : Tcb) (src : Option Tcb) (pl : Value) :
    (v.deliver t src pl).Inv r :=
  (I.modTcb (f := fun d => { d with tS := { d.tS with a1 := tcbPtr src } })
    ⟨rfl, rfl, rfl⟩).record (.received t src pl)

/-! ## Waking, blocking and dispatching -/

theorem wake_tcb_self {h : SchedQueue} {src : Option Tcb} {pl : Value} :
    (v.wake t h src pl).tcb t =
      { v.tcb t with
        tS := { (v.tcb t).tS with a1 := tcbPtr src }, tStatus := .ready, tWait4sender := none } := by
  simp [wake, View.deliver, View.modTcb, outqueue, enqueue]

theorem wake_tcb_of_ne {h : SchedQueue} {src : Option Tcb} {pl : Value} {u : Tcb} (hu : u ≠ t) :
    (v.wake t h src pl).tcb u = v.tcb u := by
  simp [wake, View.deliver, View.modTcb, outqueue, enqueue, hu]

theorem wake_owner {h : SchedQueue} {src : Option Tcb} {pl : Value} (u : Tcb) :
    ((v.wake t h src pl).tcb u).tPcb = (v.tcb u).tPcb := by
  by_cases hu : u = t
  · subst hu
    rw [wake_tcb_self]
  · rw [wake_tcb_of_ne hu]

/-- Waking a blocked thread moves it to the ready queue. -/
theorem Inv.wake {h : SchedQueue} {src : Option Tcb} {pl : Value} (I : v.Inv r)
    (R : Refines k v) (ht : t ∈ v.sched h) (hw : (v.tcb t).tStatus = .w4msg) :
    (v.wake t h src pl).Inv r := by
  have hself := @wake_tcb_self v t h src pl
  have hother := @wake_tcb_of_ne v t h src pl
  have hst : ∀ u, ((v.wake t h src pl).tcb u).tStatus = .none ↔ (v.tcb u).tStatus = .none := by
    intro u
    by_cases hu : u = t
    · subst hu
      simp [hself, hw]
    · rw [hother hu]
  refine ⟨I.tree.congr rfl rfl wake_owner, I.owned.congr rfl wake_owner hst, ?_, ?_,
    I.counted.congr rfl wake_owner⟩
  · apply I.scheduled.change_one (t := t)
    · intro u hu h'
      simp [R.mem_wake ht, hu]
    · intro u hu
      rw [hother hu]
    · intro u hu
      rw [hother hu]
    · exact fun u _ => Iff.rfl
    · intro h' ht'
      obtain rfl : h' = .readyq := by simpa [R.mem_wake ht] using ht'
      exact ⟨by rw [Fits, hself], I.scheduled.off ht⟩
    · intro _
      exact Or.inr ⟨.readyq, by simp [R.mem_wake ht]⟩
    · intro _
      rw [hself]
    · intro _
      rw [hself]
  · refine ⟨I.mail.kept, ?_, I.mail.signed, ?_⟩
    · intro m d hm
      rw [Ne, hst]
      exact I.mail.addressed hm
    · intro m d hm hd
      by_cases hdt : d = t
      · subst hdt
        simp [hself] at hd
      · rw [hother hdt] at hd ⊢
        exact I.mail.awaited hm hd

/-- The running thread goes to the tail of a queue, with fields that fit it. -/
theorem Inv.park {f : TcbT → TcbT} {h : SchedQueue} (I : v.Inv (some t))
    (howner : (f (v.tcb t)).tPcb = (v.tcb t).tPcb) (hf : Fits (f (v.tcb t)) h)
    (hnone : (f (v.tcb t)).tStatus ≠ .w4msg → (f (v.tcb t)).tWait4sender = none)
    (hmail : ∀ m ∈ v.msgs (.of t), (f (v.tcb t)).tStatus = .w4msg →
      (f (v.tcb t)).tWait4sender ≠ none ∧
        (v.msg m).mSender ≠ (f (v.tcb t)).tWait4sender) :
    ((v.modTcb t f).enqueue t h).Inv none := by
  have hself : ((v.modTcb t f).enqueue t h).tcb t = f (v.tcb t) := by
    simp [View.modTcb, enqueue]
  have hother : ∀ {u}, u ≠ t → ((v.modTcb t f).enqueue t h).tcb u = v.tcb u := by
    intro u hu
    simp [View.modTcb, enqueue, hu]
  have hready : (v.tcb t).tStatus = .ready := I.scheduled.running rfl
  have hfree : (f (v.tcb t)).tStatus ≠ .none := by
    intro hn
    cases h <;> simp [Fits, hn] at hf
  have ho : ∀ u, (((v.modTcb t f).enqueue t h).tcb u).tPcb = (v.tcb u).tPcb := by
    intro u
    by_cases hu : u = t
    · subst hu
      rw [hself, howner]
    · rw [hother hu]
  have hst : ∀ u, (((v.modTcb t f).enqueue t h).tcb u).tStatus = .none ↔
      (v.tcb u).tStatus = .none := by
    intro u
    by_cases hu : u = t
    · subst hu
      simp [hself, hfree, hready]
    · rw [hother hu]
  have hoff : ∀ h', t ∉ v.sched h' := fun h' ht => I.scheduled.off ht rfl
  refine ⟨I.tree.congr rfl rfl ho, I.owned.congr rfl ho hst, ?_, ?_, I.counted.congr rfl ho⟩
  · apply I.scheduled.change_one (t := t)
    · intro u hu h'
      rw [mem_enqueue]
      simp [hu, View.modTcb]
    · intro u hu
      rw [hother hu]
    · intro u hu
      rw [hother hu]
    · intro u hu
      simpa using Ne.symm hu
    · intro h' ht
      rw [mem_enqueue] at ht
      obtain ⟨_, rfl⟩ := ht.resolve_left (hoff h')
      exact ⟨by rwa [hself], by simp⟩
    · intro _
      exact Or.inr ⟨h, by simp [mem_enqueue]⟩
    · simp
    · rw [hself]
      exact hnone
  · refine ⟨I.mail.kept, ?_, I.mail.signed, ?_⟩
    · intro m d hm
      rw [Ne, hst]
      exact I.mail.addressed hm
    · intro m d hm hd
      by_cases hdt : d = t
      · subst hdt
        rw [hself] at hd ⊢
        exact hmail m hm hd
      · rw [hother hdt] at hd ⊢
        exact I.mail.awaited hm hd

/-- The thread at the head of the ready queue goes on the processor. -/
theorem Inv.dispatch (I : v.Inv none) (R : Refines k v) (ht : t ∈ v.sched .readyq) :
    (v.outqueue t .readyq).Inv (some t) := by
  refine ⟨I.tree.congr rfl rfl fun _ => rfl, I.owned.congr rfl (fun _ => rfl) fun _ => Iff.rfl, ?_,
    I.mail.congr rfl rfl (fun _ => rfl) fun _ => rfl, I.counted.congr rfl fun _ => rfl⟩
  apply I.scheduled.change_one (t := t)
  · intro u hu h
    simp [R.mem_outqueue ht, hu]
  · exact fun _ _ => rfl
  · exact fun _ _ => rfl
  · intro u hu
    simpa using Ne.symm hu
  · intro h ht'
    simp [R.mem_outqueue ht] at ht'
  · exact fun _ => Or.inl rfl
  · exact fun _ => I.scheduled.fits ht
  · exact fun hs => I.scheduled.wait hs

/-! ## Messages -/

/-- A free message is put in a queue whose owner is not waiting for it. -/
theorem Inv.post {s d : Tcb} {pl : Value} {m : Msg} (I : v.Inv r) (R : Refines k v)
    (hm : m ∈ v.msgs .free) (hd : (v.tcb d).tStatus ≠ .none)
    (hw : (v.tcb d).tStatus = .w4msg →
      (v.tcb d).tWait4sender ≠ none ∧ (v.tcb d).tWait4sender ≠ some s) :
    (v.post s d pl m).Inv r := by
  refine ⟨I.tree.congr rfl rfl fun _ => rfl, I.owned.congr rfl (fun _ => rfl) fun _ => Iff.rfl,
    I.scheduled.congr rfl (fun _ => rfl) fun _ => rfl, ?_, I.counted.congr rfl fun _ => rfl⟩
  have hmsg : ∀ {n}, n ≠ m → (v.post s d pl m).msg n = v.msg n := by
    intro n hn
    simp [View.post, hn]
  have hself : (v.post s d pl m).msg m = { mSender := some s, mValue := pl } := by
    simp [View.post]
  refine ⟨?_, ?_, ?_, ?_⟩
  · intro n
    by_cases hn : n = m
    · exact ⟨.of d, by simp [R.mem_post hm, hn]⟩
    · obtain ⟨l, hl⟩ := I.mail.kept n
      exact ⟨l, by simp [R.mem_post hm, hn, hl]⟩
  · intro n e hn
    rcases (R.mem_post hm).mp hn with ⟨_, hn⟩ | ⟨_, he⟩
    · exact I.mail.addressed hn
    · cases he
      exact hd
  · intro n e hn
    rcases (R.mem_post hm).mp hn with ⟨hne, hn⟩ | ⟨rfl, _⟩
    · rw [hmsg hne]
      exact I.mail.signed hn
    · simp [hself]
  · intro n e hn he
    rcases (R.mem_post hm).mp hn with ⟨hne, hn⟩ | ⟨rfl, he'⟩
    · rw [hmsg hne]
      exact I.mail.awaited hn he
    · cases he'
      rw [hself]
      exact ⟨(hw he).1, fun h => (hw he).2 h.symm⟩

/-- A queued message goes back to the free list. -/
theorem Inv.freeMsg {d : Tcb} {m : Msg} (I : v.Inv r) (R : Refines k v)
    (hm : m ∈ v.msgs (.of d)) : (v.freeMsg d m).Inv r := by
  refine ⟨I.tree.congr rfl rfl fun _ => rfl, I.owned.congr rfl (fun _ => rfl) fun _ => Iff.rfl,
    I.scheduled.congr rfl (fun _ => rfl) fun _ => rfl, ?_, I.counted.congr rfl fun _ => rfl⟩
  have hold : ∀ {n e}, n ∈ (v.freeMsg d m).msgs (.of e) →
      n ∈ v.msgs (.of e) ∧ (v.freeMsg d m).msg n = v.msg n := by
    intro n e hn
    obtain ⟨hne, hn⟩ := ((R.mem_freeMsg hm).mp hn).resolve_right (by simp)
    exact ⟨hn, by simp [View.freeMsg, hne]⟩
  refine ⟨?_, ?_, ?_, ?_⟩
  · intro n
    by_cases hn : n = m
    · exact ⟨.free, by simp [R.mem_freeMsg hm, hn]⟩
    · obtain ⟨l, hl⟩ := I.mail.kept n
      exact ⟨l, by simp [R.mem_freeMsg hm, hn, hl]⟩
  · intro n e hn
    exact I.mail.addressed (hold hn).1
  · intro n e hn
    rw [(hold hn).2]
    exact I.mail.signed (hold hn).1
  · intro n e hn he
    rw [(hold hn).2]
    exact I.mail.awaited (hold hn).1 he

/-! ## Creating and freeing threads -/

/-- One more allocated thread. -/
theorem population_succ {i : Fin MAXTHREAD} (hi : (v.tcb (.thread i)).tPcb = none)
    (hi' : (v'.tcb (.thread i)).tPcb ≠ none)
    (ho : ∀ j, j ≠ i → (v'.tcb (.thread j)).tPcb = (v.tcb (.thread j)).tPcb) :
    v'.population = v.population + 1 := by
  have hset : (Finset.univ.filter fun j => (v'.tcb (.thread j)).tPcb ≠ none) =
      insert i (Finset.univ.filter fun j => (v.tcb (.thread j)).tPcb ≠ none) := by
    ext j
    by_cases hj : j = i
    · subst hj
      simp [hi']
    · simp [hj, ho j hj]
  rw [population, hset, Finset.card_insert_of_notMem (by simp [hi])]
  rfl

theorem Counted.hire (C : v.Counted) (ht : t ≠ .ssi) (hfree : (v.tcb t).tPcb = none)
    (howner : (v'.tcb t).tPcb ≠ none) (hother : ∀ u ≠ t, (v'.tcb u).tPcb = (v.tcb u).tPcb)
    (hcount : v'.globals.threadCount = v.globals.threadCount + 1) : v'.Counted := by
  cases t with
  | ssi => exact absurd rfl ht
  | thread i =>
      have hpop := population_succ hfree howner fun j hj => hother (.thread j) (by simpa using hj)
      rw [Counted] at C ⊢
      rw [hpop, ← Nat.add_assoc, BitVec.ofNat_add, ← C, hcount]
      rfl

theorem Counted.fire (C : v.Counted) (ht : t ≠ .ssi) (howner : (v.tcb t).tPcb ≠ none)
    (hfree : (v'.tcb t).tPcb = none) (hother : ∀ u ≠ t, (v'.tcb u).tPcb = (v.tcb u).tPcb)
    (hcount : v'.globals.threadCount = v.globals.threadCount - 1) : v'.Counted := by
  cases t with
  | ssi => exact absurd rfl ht
  | thread i =>
      have hpop := population_succ hfree howner fun j hj =>
        (hother (.thread j) (by simpa using hj)).symm
      rw [Counted] at C ⊢
      rw [hpop, ← Nat.add_assoc, BitVec.ofNat_add] at C
      rw [hcount, C]
      bv_omega

/-- The ownership invariant after a change of one thread's owner and list. -/
theorem Owned.change_one (O : v.Owned) (ht : t ≠ .ssi)
    (hthreads : ∀ u ≠ t, ∀ l, u ∈ v'.threads l ↔ u ∈ v.threads l)
    (howner : ∀ u ≠ t, (v'.tcb u).tPcb = (v.tcb u).tPcb)
    (hstatus : ∀ u ≠ t, (v'.tcb u).tStatus = .none ↔ (v.tcb u).tStatus = .none)
    (hfree : t ∈ v'.threads .free ↔ (v'.tcb t).tPcb = none)
    (howned : ∀ p, t ∈ v'.threads (.of p) ↔ (v'.tcb t).tPcb = some p)
    (hnone : (v'.tcb t).tStatus = .none ↔ (v'.tcb t).tPcb = none) : v'.Owned := by
  refine ⟨?_, ?_, ?_, ?_⟩
  · intro u
    by_cases hu : u = t
    · subst hu
      simp [hfree, ht]
    · rw [hthreads u hu, howner u hu]
      exact O.free
  · intro u p
    by_cases hu : u = t
    · subst hu
      exact howned p
    · rw [hthreads u hu, howner u hu]
      exact O.owned
  · intro u
    by_cases hu : u = t
    · subst hu
      simp [hnone, ht]
    · rw [hstatus u hu, howner u hu]
      exact O.status
  · rw [howner _ (Ne.symm ht)]
    exact O.ssi

/-- The tree invariant after a change of one thread's owner to a live process or to none. -/
theorem Tree.change_owner (T : v.Tree) (hprocs : v'.procs = v.procs) (hpcb : v'.pcb = v.pcb)
    (howner : ∀ u ≠ t, (v'.tcb u).tPcb = (v.tcb u).tPcb)
    (halive : ∀ p, (v'.tcb t).tPcb = some p → v.Alive p) : v'.Tree := by
  have hal : ∀ {p}, v.Alive p → v'.Alive p := fun h => h.congr (by rw [hpcb])
  refine ⟨?_, ?_, ?_, ?_, ?_, ?_, ?_⟩
  · simpa only [hprocs, hpcb] using @T.free
  · simpa only [hprocs, hpcb] using @T.children
  · simpa only [hpcb] using T.root_parent
  · intro p q h
    exact hal (T.parent_alive (by rwa [hpcb] at h))
  · simpa only [hpcb] using @T.cleared
  · intro u p h
    by_cases hu : u = t
    · subst hu
      exact hal (halive p h)
    · rw [howner u hu] at h
      exact hal (T.owner_alive h)
  · simpa only [hpcb] using T.wellFounded

theorem create_tcb_self {p : Pcb} {s : State} :
    (v.create t p s).tcb t = { v.tcb t with tPcb := some p, tStatus := .ready, tS := s } := by
  simp [create, hire, View.modTcb, enqueue, addCount]

theorem create_tcb_of_ne {p : Pcb} {s : State} {u : Tcb} (hu : u ≠ t) :
    (v.create t p s).tcb u = v.tcb u := by
  simp [create, hire, View.modTcb, enqueue, addCount, hu]

theorem Tree.create {p : Pcb} {s : State} (T : v.Tree) (hp : v.Alive p) : (v.create t p s).Tree := by
  have hprocs : (v.create t p s).procs = v.procs := rfl
  apply T.change_owner (t := t) hprocs rfl
  · intro u hu
    rw [create_tcb_of_ne hu]
  · intro q hq
    rw [create_tcb_self] at hq
    cases hq
    exact hp

theorem Owned.create {p : Pcb} {s : State} (O : v.Owned) (R : Refines k v)
    (ht : t ∈ v.threads .free) : (v.create t p s).Owned := by
  have hself := @create_tcb_self v t p s
  have hother := @create_tcb_of_ne v t p s
  have hmem : ∀ {u l}, u ∈ (v.create t p s).threads l ↔
      (u ≠ t ∧ u ∈ v.threads l) ∨ (u = t ∧ l = .of p) := R.mem_hire ht
  apply O.change_one (O.free.mp ht).1
  · intro u hu l
    simp [hmem, hu]
  · intro u hu
    rw [hother hu]
  · intro u hu
    rw [hother hu]
  · simp [hmem, hself]
  · intro q
    simp [hmem, hself, eq_comm]
  · simp [hself]

/-- A new thread is put at the tail of the ready queue. -/
theorem Inv.create {p : Pcb} {s : State} (I : v.Inv r) (R : Refines k v)
    (ht : t ∈ v.threads .free) (hp : v.Alive p) (hr : r ≠ some t) : (v.create t p s).Inv r := by
  obtain ⟨hssi, hnone⟩ := I.owned.free.mp ht
  have hst : (v.tcb t).tStatus = .none := I.owned.status.mpr ⟨hssi, hnone⟩
  have hself := @create_tcb_self v t p s
  have hother := @create_tcb_of_ne v t p s
  have hoff : ∀ h, t ∉ v.sched h := fun h hm => I.scheduled.allocated hm hst
  have hsched : ∀ {u h}, u ∈ (v.create t p s).sched h ↔
      u ∈ v.sched h ∨ (u = t ∧ h = .readyq) := Represents.mem_append_iff
  refine ⟨I.tree.create hp, I.owned.create R ht, ?_, ?_, ?_⟩
  · apply I.scheduled.change_one (t := t)
    · intro u hu h
      simp [hsched, hu]
    · intro u hu
      rw [hother hu]
    · intro u hu
      rw [hother hu]
    · exact fun u _ => Iff.rfl
    · intro h hm
      obtain ⟨_, rfl⟩ := (hsched.mp hm).resolve_left (hoff h)
      exact ⟨by rw [Fits, hself], hr⟩
    · exact fun _ => Or.inr ⟨.readyq, by simp [hsched]⟩
    · exact fun h => absurd h hr
    · intro _
      rw [hself]
      exact I.scheduled.wait (by simp [hst])
  · refine ⟨I.mail.kept, ?_, I.mail.signed, ?_⟩
    · intro m d hm
      by_cases hd : d = t
      · subst hd
        simp [hself]
      · rw [hother hd]
        exact I.mail.addressed hm
    · intro m d hm hd
      by_cases hdt : d = t
      · subst hdt
        simp [hself] at hd
      · rw [hother hdt] at hd ⊢
        exact I.mail.awaited hm hd
  · exact I.counted.hire hssi hnone (by simp [hself]) (fun u hu => by rw [hother hu]) rfl

theorem dismiss_tcb_self {p : Pcb} {h : SchedQueue} :
    (v.dismiss t p h).tcb t = { tS := (v.tcb t).tS } := by
  simp [dismiss, retire, outqueue, addCount]

theorem dismiss_tcb_of_ne {p : Pcb} {h : SchedQueue} {u : Tcb} (hu : u ≠ t) :
    (v.dismiss t p h).tcb u = v.tcb u := by
  simp [dismiss, retire, outqueue, addCount, hu]

/-- A queued thread with no messages is freed. -/
theorem Inv.dismiss {p : Pcb} {h : SchedQueue} (I : v.Inv r) (R : Refines k v)
    (ht : t ∈ v.threads (.of p)) (hs : t ∈ v.sched h) (hm : v.msgs (.of t) = []) :
    (v.dismiss t p h).Inv r := by
  have hown := I.owned.owned.mp ht
  have hssi : t ≠ .ssi := by
    rintro rfl
    rw [I.owned.ssi] at hown
    cases hown
  have hself := @dismiss_tcb_self v t p h
  have hother := @dismiss_tcb_of_ne v t p h
  have hmem : ∀ {u l}, u ∈ (v.dismiss t p h).threads l ↔
      (u ≠ t ∧ u ∈ v.threads l) ∨ (u = t ∧ l = .free) := R.mem_retire ht
  have hsched : ∀ {u h'}, u ∈ (v.dismiss t p h).sched h' ↔ u ≠ t ∧ u ∈ v.sched h' :=
    R.mem_outqueue hs
  refine ⟨?_, ?_, ?_, ?_, ?_⟩
  · have hprocs : (v.dismiss t p h).procs = v.procs := rfl
    apply I.tree.change_owner (t := t) hprocs rfl
    · intro u hu
      rw [hother hu]
    · intro q hq
      simp [hself] at hq
  · apply I.owned.change_one hssi
    · intro u hu l
      simp [hmem, hu]
    · intro u hu
      rw [hother hu]
    · intro u hu
      rw [hother hu]
    · simp [hmem, hself]
    · intro q
      simp [hmem, hself]
    · simp [hself]
  · apply I.scheduled.change_one (t := t)
    · intro u hu h'
      simp [hsched, hu]
    · intro u hu
      rw [hother hu]
    · intro u hu
      rw [hother hu]
    · exact fun u _ => Iff.rfl
    · intro h' hm'
      simp [hsched] at hm'
    · simp [hself]
    · exact fun hr => absurd hr (I.scheduled.off hs)
    · simp [hself]
  · refine ⟨I.mail.kept, ?_, I.mail.signed, ?_⟩
    · intro m d hm'
      have hd : d ≠ t := by
        rintro rfl
        change m ∈ v.msgs (.of d) at hm'
        simp [hm] at hm'
      rw [hother hd]
      exact I.mail.addressed hm'
    · intro m d hm' hd
      have hdt : d ≠ t := by
        rintro rfl
        simp [hself] at hd
      rw [hother hdt] at hd ⊢
      exact I.mail.awaited hm' hd
  · refine I.counted.fire hssi (by simp [hown]) (by simp [hself]) (fun u hu => by rw [hother hu]) ?_
    change v.globals.threadCount + -1 = _
    bv_omega

/-! ## Processes -/

/-- The process tree with a free process as a child of a live one. -/
theorem Tree.adopt {p parent : Pcb} {L : Links ProcNode} (T : v.Tree)
    (R : Represents procLayout L v.procs) (hp : p ∈ v.procs .free) (hpar : v.Alive parent) :
    (v.adopt p parent).Tree := by
  obtain ⟨hroot, hnone⟩ := T.free.mp hp
  have hself : (v.adopt p parent).pcb p = { v.pcb p with pParent := some parent } := by
    simp [View.adopt]
  have hother : ∀ {q}, q ≠ p → (v.adopt p parent).pcb q = v.pcb q := by
    intro q hq
    simp [View.adopt, hq]
  have hal : ∀ {q}, v.Alive q → (v.adopt p parent).Alive q := by
    intro q hq
    by_cases hqp : q = p
    · subst hqp
      exact Or.inr (by simp [hself])
    · exact hq.congr (hother hqp)
  have hnp : parent ≠ p := by
    rintro rfl
    exact hpar.elim hroot fun h => h hnone
  have hmem : ∀ {q l}, q ∈ (v.adopt p parent).procs l ↔
      (q ≠ p ∧ q ∈ v.procs l) ∨ (q = p ∧ l = .children parent) := R.mem_move_iff hp
  refine ⟨?_, ?_, ?_, ?_, ?_, fun h => hal (T.owner_alive h), ?_⟩
  · intro q
    rw [hmem]
    by_cases hq : q = p
    · subst hq
      simp [hself]
    · simp [hq, hother hq, T.free]
  · intro q q'
    rw [hmem]
    by_cases hq : q = p
    · subst hq
      simp [hself, eq_comm]
    · simp [hq, hother hq, T.children]
  · rw [hother (Ne.symm hroot)]
    exact T.root_parent
  · intro q q' h
    by_cases hq : q = p
    · subst hq
      rw [hself] at h
      cases h
      exact hal hpar
    · rw [hother hq] at h
      exact hal (T.parent_alive h)
  · intro q hq hn
    by_cases hqp : q = p
    · subst hqp
      simp [hself] at hn
    · rw [hother hqp] at hn ⊢
      exact T.cleared hq hn
  · -- the new process is a leaf, so chains of children still end
    have hleaf : ∀ q, ((v.adopt p parent).pcb q).pParent ≠ some p := by
      intro q h
      by_cases hq : q = p
      · subst hq
        rw [hself] at h
        exact hnp (by simpa using h)
      · rw [hother hq] at h
        exact (T.parent_alive h).elim hroot fun h => h hnone
    have hpacc : Acc (fun c q => ((v.adopt p parent).pcb c).pParent = some q) p :=
      Acc.intro p fun c hc => absurd hc (hleaf c)
    constructor
    intro q
    induction q using T.wellFounded.induction with
    | _ q ih =>
        constructor
        intro c hc
        by_cases hcp : c = p
        · subst hcp
          exact hpacc
        · rw [hother hcp] at hc
          exact ih c hc

/-- A free process becomes a child of a live one. -/
theorem Inv.adopt {p parent : Pcb} (I : v.Inv r) (R : Refines k v) (hp : p ∈ v.procs .free)
    (hpar : v.Alive parent) : (v.adopt p parent).Inv r where
  tree := I.tree.adopt R.procs hp hpar
  owned := I.owned.congr rfl (fun _ => rfl) fun _ => Iff.rfl
  scheduled := I.scheduled.congr rfl (fun _ => rfl) fun _ => rfl
  mail := I.mail.congr rfl rfl (fun _ => rfl) fun _ => rfl
  counted := I.counted.congr rfl fun _ => rfl

/-- The process tree without a leaf that has no threads. -/
theorem Tree.orphan {p parent : Pcb} {L : Links ProcNode} (T : v.Tree)
    (R : Represents procLayout L v.procs) (hpar : (v.pcb p).pParent = some parent)
    (hc : v.procs (.children p) = []) (ht : ∀ t, (v.tcb t).tPcb ≠ some p) :
    (v.orphan p parent).Tree := by
  have hp : p ∈ v.procs (.children parent) := T.children.mpr hpar
  have hroot : p ≠ root := by
    rintro rfl
    rw [T.root_parent] at hpar
    cases hpar
  have hself : (v.orphan p parent).pcb p = {} := by
    simp [View.orphan]
  have hother : ∀ {q}, q ≠ p → (v.orphan p parent).pcb q = v.pcb q := by
    intro q hq
    simp [View.orphan, hq]
  have hal : ∀ {q}, q ≠ p → v.Alive q → (v.orphan p parent).Alive q :=
    fun hqp hq => hq.congr (hother hqp)
  have hchild : ∀ {q}, (v.pcb q).pParent ≠ some p := by
    intro q h
    have := T.children.mpr h
    simp [hc] at this
  have hmem : ∀ {q l}, q ∈ (v.orphan p parent).procs l ↔
      (q ≠ p ∧ q ∈ v.procs l) ∨ (q = p ∧ l = .free) := R.mem_move_iff hp
  refine ⟨?_, ?_, ?_, ?_, ?_, ?_, ?_⟩
  · intro q
    rw [hmem]
    by_cases hq : q = p
    · subst hq
      simp [hself, hroot]
    · simp [hq, hother hq, T.free]
  · intro q q'
    rw [hmem]
    by_cases hq : q = p
    · subst hq
      simp [hself]
    · simp [hq, hother hq, T.children]
  · rw [hother (Ne.symm hroot)]
    exact T.root_parent
  · intro q q' h
    by_cases hq : q = p
    · subst hq
      simp [hself] at h
    · rw [hother hq] at h
      refine hal ?_ (T.parent_alive h)
      rintro rfl
      exact hchild h
  · intro q hq hn
    by_cases hqp : q = p
    · subst hqp
      exact hself
    · rw [hother hqp] at hn ⊢
      exact T.cleared hq hn
  · intro t q h
    refine hal ?_ (T.owner_alive h)
    rintro rfl
    exact ht t h
  · apply Subrelation.wf _ T.wellFounded
    intro c q h
    by_cases hcp : c = p
    · subst hcp
      simp [hself] at h
    · rwa [hother hcp] at h

theorem Owned.unowned {p : Pcb} (O : v.Owned) (ht : v.threads (.of p) = []) (t : Tcb) :
    (v.tcb t).tPcb ≠ some p := by
  intro h
  have := O.owned.mpr h
  simp [ht] at this

/-- A process that is not allocated has no children. -/
theorem Tree.childless {p : Pcb} (T : v.Tree) (hp : ¬ v.Alive p) : v.procs (.children p) = [] := by
  rw [List.eq_nil_iff_forall_not_mem]
  intro q hq
  exact hp (T.parent_alive (T.children.mp hq))

theorem Tree.not_alive_of_free {p : Pcb} (T : v.Tree) (hp : p ∈ v.procs .free) : ¬ v.Alive p := by
  obtain ⟨hroot, hnone⟩ := T.free.mp hp
  rintro (h | h)
  · exact hroot h
  · exact h hnone

/-- A process that is not allocated has no threads. -/
theorem Owned.vacant {p : Pcb} (O : v.Owned) (T : v.Tree) (hp : ¬ v.Alive p) :
    v.threads (.of p) = [] := by
  rw [List.eq_nil_iff_forall_not_mem]
  intro t ht
  exact hp (T.owner_alive (O.owned.mp ht))

/-- A child without threads and children goes back to the free list. -/
theorem Inv.orphan {p parent : Pcb} (I : v.Inv r) (R : Refines k v)
    (hpar : (v.pcb p).pParent = some parent) (hc : v.procs (.children p) = [])
    (ht : v.threads (.of p) = []) : (v.orphan p parent).Inv r where
  tree := I.tree.orphan R.procs hpar hc (I.owned.unowned ht)
  owned := I.owned.congr rfl (fun _ => rfl) fun _ => Iff.rfl
  scheduled := I.scheduled.congr rfl (fun _ => rfl) fun _ => rfl
  mail := I.mail.congr rfl rfl (fun _ => rfl) fun _ => rfl
  counted := I.counted.congr rfl fun _ => rfl

end View

end MikaBoo
