import MikaBoo.Abstract.Purge

/-!
# What a termination leaves

What a run of `ReapStep`s leaves of the messages, threads and processes: the
terminated threads are gone, and the survivors are as before or have been woken
with an error.
-/

namespace MikaBoo

open Intrusive Transition

namespace View

variable {v v' : View} {a : Option Tcb} {es : List Reaping} {e : Reaping} {t u : Tcb} {p q : Pcb}

/-- `t` is on the free list, and nothing refers to it in a queue. -/
structure Gone (v : View) (t : Tcb) : Prop where
  free : t ∈ v.threads .free
  noMessage : v.msgs (.of t) = []
  noWaiter : v.sched (.tWait4me t) = []

theorem victim?_eq_some : e.victim? = some t ↔ ∃ q, e = .kill t q := by
  cases e <;> simp [Reaping.victim?]

/-! ## Messages -/

/-- A message is freed or stays where it is. -/
theorem mem_freeMsg_free {d : Tcb} {m n : Msg} (hn : n ∈ v.msgs .free) :
    n ∈ (v.freeMsg d m).msgs .free := by
  simp [freeMsg, hn]

theorem clean_msgs_free {d : Option Tcb} {n : Msg} (hn : n ∈ v.msgs .free) :
    n ∈ (v.clean t d).msgs .free := by
  cases d with
  | none => exact hn
  | some d =>
      cases hp : v.pick (some t) d with
      | none => rwa [clean_of_pick_none hp]
      | some m =>
          rw [clean_of_pick_some hp]
          exact mem_freeMsg_free hn

theorem clean_msgs_of {d : Option Tcb} {n : Msg} (hr : Realised v) (hn : n ∈ v.msgs (.of u)) :
    n ∈ (v.clean t d).msgs (.of u) ∨ n ∈ (v.clean t d).msgs .free := by
  cases d with
  | none => exact Or.inl hn
  | some d =>
      cases hp : v.pick (some t) d with
      | none =>
          rw [clean_of_pick_none hp]
          exact Or.inl hn
      | some m =>
          obtain ⟨k, R⟩ := hr
          rw [clean_of_pick_some hp, R.mem_freeMsg (mem_of_pick hp), R.mem_freeMsg (mem_of_pick hp)]
          by_cases hnm : n = m
          · exact Or.inr (Or.inr ⟨hnm, rfl⟩)
          · exact Or.inl (Or.inl ⟨hnm, hn⟩)

theorem clean_msgs_sub {d : Option Tcb} {n : Msg} (hr : Realised v)
    (hn : n ∈ (v.clean t d).msgs (.of u)) : n ∈ v.msgs (.of u) := by
  cases d with
  | none => exact hn
  | some d =>
      cases hp : v.pick (some t) d with
      | none => rwa [clean_of_pick_none hp] at hn
      | some m =>
          obtain ⟨k, R⟩ := hr
          rw [clean_of_pick_some hp, R.mem_freeMsg (mem_of_pick hp)] at hn
          exact (hn.resolve_right (by simp)).2

variable {h : SchedQueue}

theorem reap_msgs_free : (v.reap t p h).msgs .free = v.msgs .free ++ v.msgs (.of t) := by
  simp [reap, dismiss, retire, addCount, outqueue, abort, drain]

theorem reap_msgs_self : (v.reap t p h).msgs (.of t) = [] := by
  simp [reap, dismiss, retire, addCount, outqueue, abort, drain]

theorem reap_msgs_of_ne (hu : u ≠ t) : (v.reap t p h).msgs (.of u) = v.msgs (.of u) := by
  simp [reap, dismiss, retire, addCount, outqueue, abort, drain, hu]

/-- No step takes a message from the free list. -/
theorem step_free {m : Msg} (s : ReapStep a v e v') (hm : m ∈ v.msgs .free) :
    m ∈ v'.msgs .free := by
  cases s with
  | kill =>
      rw [reap_msgs_free]
      exact List.mem_append_left _ (clean_msgs_free hm)
  | orphan => exact hm

/-- A queued message stays in its queue or is freed. -/
theorem step_msgs {m : Msg} (s : ReapStep a v e v') (hm : m ∈ v.msgs (.of u)) :
    m ∈ v'.msgs (.of u) ∨ m ∈ v'.msgs .free := by
  cases s with
  | @kill t p h hr ht hs =>
      rw [reap_msgs_free]
      rcases clean_msgs_of (t := t) (d := v.cleanDest a t p) hr hm with hm | hm
      · by_cases hu : u = t
        · subst hu
          exact Or.inr (List.mem_append_right _ hm)
        · rw [reap_msgs_of_ne hu]
          exact Or.inl hm
      · exact Or.inr (List.mem_append_left _ hm)
  | orphan => exact Or.inl hm

theorem run_msgs {m : Msg} (run : Run (ReapStep a) v es v') (hm : m ∈ v.msgs (.of u)) :
    m ∈ v'.msgs (.of u) ∨ m ∈ v'.msgs .free := by
  induction run with
  | nil => exact Or.inl hm
  | snoc _ last ih => exact ih.elim (step_msgs last) fun h => Or.inr (step_free last h)

/-! ## Threads -/

/-- A freed thread stays free while other threads are terminated. -/
theorem Gone.step (G : v.Gone u) (s : ReapStep a v e v') : v'.Gone u := by
  cases s with
  | @kill t p h hr ht hs =>
      have hut : u ≠ t := by
        rintro rfl
        obtain ⟨k, R⟩ := hr
        have := R.threads.disjoint G.free ht
        cases this
      have hr' := hr.clean t (v.cleanDest a t p)
      refine ⟨(mem_reap_threads hr' ht).mpr (Or.inl ⟨hut, G.free⟩), ?_, ?_⟩
      · rw [reap_msgs_of_ne hut, List.eq_nil_iff_forall_not_mem]
        intro m hm
        have := clean_msgs_sub hr hm
        simp [G.noMessage] at this
      · rw [List.eq_nil_iff_forall_not_mem]
        intro w hw
        have hw' := ((mem_reap_sched hr' hs).mp hw).2
        change w ∈ v.sched _ ∧ _ ∨ w ∈ v.sched _ ∧ _ at hw'
        simp [G.noWaiter] at hw'
  | orphan => exact ⟨G.free, G.noMessage, G.noWaiter⟩

/-- A terminated thread is gone. -/
theorem Gone.of_kill (s : ReapStep a v (.kill t p) v') : v'.Gone t := by
  cases s with
  | kill hr ht hs =>
      have hr' := hr.clean t (v.cleanDest a t p)
      refine ⟨(mem_reap_threads hr' ht).mpr (Or.inr ⟨rfl, rfl⟩), reap_msgs_self, ?_⟩
      rw [List.eq_nil_iff_forall_not_mem]
      intro w hw
      have hw' := ((mem_reap_sched hr' hs).mp hw).2
      simp at hw'

theorem gone_of_run (run : Run (ReapStep a) v es v') (ht : .kill t q ∈ es) : v'.Gone t := by
  induction run with
  | nil => simp at ht
  | snoc _ last ih =>
      rcases List.mem_append.mp ht with ht | ht
      · exact (ih ht).step last
      · rw [List.mem_singleton] at ht
        subst ht
        exact Gone.of_kill last

/-- No thread is terminated twice. -/
theorem nodup_victims (run : Run (ReapStep a) v es v') : (es.filterMap Reaping.victim?).Nodup := by
  induction run with
  | nil => simp
  | snoc run last ih =>
      rw [List.filterMap_append, List.nodup_append]
      refine ⟨ih, ?_, ?_⟩
      · simp only [List.filterMap_cons, List.filterMap_nil]
        split <;> simp
      · intro t ht u hu htu
        subst htu
        obtain ⟨e, he, het⟩ := List.mem_filterMap.mp ht
        obtain ⟨q, rfl⟩ := victim?_eq_some.mp het
        obtain ⟨e', he', het'⟩ := List.mem_filterMap.mp hu
        rw [List.mem_singleton] at he'
        subst he'
        obtain ⟨q', rfl⟩ := victim?_eq_some.mp het'
        have G := gone_of_run run he
        cases last with
        | kill hr hm hs =>
            obtain ⟨k, R⟩ := hr
            have := R.threads.disjoint G.free hm
            cases this

theorem step_threadCount (s : ReapStep a v e v') : v'.globals.threadCount =
    v.globals.threadCount - BitVec.ofNat 32 e.victim?.toList.length := by
  cases s with
  | kill => exact (sub_eq_add_neg _ _).symm
  | orphan => exact (sub_zero _).symm

/-- `thread_count` drops by one for each terminated thread. -/
theorem threadCount_of_run (run : Run (ReapStep a) v es v') :
    v'.globals.threadCount =
      v.globals.threadCount - BitVec.ofNat 32 (es.filterMap Reaping.victim?).length := by
  induction run with
  | nil => simp
  | @snoc _ _ es e _ last ih =>
      have hl : ((es ++ [e]).filterMap Reaping.victim?).length =
          (es.filterMap Reaping.victim?).length + e.victim?.toList.length := by
        cases h : e.victim? <;> simp [List.filterMap_append, h]
      rw [step_threadCount last, ih, hl, BitVec.ofNat_add]
      bv_omega

/-! ## Processes -/

/-- A freed process stays free and cleared. -/
theorem step_orphaned (T : v.Terminable) (s : ReapStep a v e v')
    (hq : q ∈ v.procs .free ∧ v.pcb q = {}) : q ∈ v'.procs .free ∧ v'.pcb q = {} := by
  cases s with
  | kill => exact hq
  | @orphan p parent hr hpar hc ht =>
      obtain ⟨k, R⟩ := hr
      have hqp : q ≠ p := by
        rintro rfl
        simp [hq.2] at hpar
      rw [R.mem_orphan (T.tree.children.mpr hpar)]
      exact ⟨Or.inl ⟨hqp, hq.1⟩, by simp [View.orphan, hqp, hq.2]⟩

theorem orphaned_of_run (T : v.Terminable) (run : Run (ReapStep a) v es v')
    (hq : .orphan q ∈ es) : q ∈ v'.procs .free ∧ v'.pcb q = {} := by
  induction run with
  | nil => simp at hq
  | snoc run last ih =>
      rcases List.mem_append.mp hq with hq | hq
      · exact step_orphaned (T.run run) last (ih hq)
      · rw [List.mem_singleton] at hq
        subst hq
        cases last with
        | orphan hr hpar hc ht =>
            obtain ⟨k, R⟩ := hr
            rw [R.mem_orphan ((T.run run).tree.children.mpr hpar)]
            exact ⟨Or.inr ⟨rfl, rfl⟩, by simp [View.orphan]⟩

/-! ## Surviving threads -/

/-- `u` waits for a thread that `es` terminates. -/
def Orphaned (v : View) (es : List Reaping) (u : Tcb) : Prop :=
  ∃ t q, .kill t q ∈ es ∧ u ∈ v.sched (.tWait4me t)

/-- A thread that `es` does not terminate is woken with an error if it waits for
one of the terminated threads, and is left alone otherwise. -/
structure Survives (v v' : View) (es : List Reaping) (u : Tcb) : Prop where
  woken : v.Orphaned es u → v'.tcb u = aborted (v.tcb u) ∧ ∀ h, u ∈ v'.sched h ↔ h = .readyq
  kept : ¬ v.Orphaned es u → v'.tcb u = v.tcb u ∧ ∀ h, u ∈ v'.sched h ↔ u ∈ v.sched h

theorem orphaned_append {fs : List Reaping} :
    v.Orphaned (es ++ fs) u ↔ v.Orphaned es u ∨ v.Orphaned fs u := by
  constructor
  · rintro ⟨t, q, ht, hm⟩
    rcases List.mem_append.mp ht with ht | ht
    · exact Or.inl ⟨t, q, ht, hm⟩
    · exact Or.inr ⟨t, q, ht, hm⟩
  · rintro (⟨t, q, ht, hm⟩ | ⟨t, q, ht, hm⟩)
    · exact ⟨t, q, List.mem_append_left _ ht, hm⟩
    · exact ⟨t, q, List.mem_append_right _ ht, hm⟩

theorem Survives.refl (u : Tcb) : Survives v v [] u := by
  constructor
  · rintro ⟨t, q, ht, _⟩
    simp at ht
  · exact fun _ => ⟨rfl, fun _ => Iff.rfl⟩

theorem Survives.append {v₁ : View} {fs : List Reaping} (S₁ : Survives v v₁ es u)
    (S₂ : Survives v₁ v' fs u) : Survives v v' (es ++ fs) u := by
  by_cases he : v.Orphaned es u
  · -- woken before, so `u` waits for nobody any more
    obtain ⟨ht, hq⟩ := S₁.woken he
    have hf : ¬ v₁.Orphaned fs u := by
      rintro ⟨t, q, _, hm⟩
      cases (hq _).mp hm
    obtain ⟨ht', hq'⟩ := S₂.kept hf
    refine ⟨fun _ => ⟨ht'.trans ht, fun h => (hq' h).trans (hq h)⟩, fun hn => ?_⟩
    exact absurd (orphaned_append.mpr (Or.inl he)) hn
  · obtain ⟨ht, hq⟩ := S₁.kept he
    have hf : v₁.Orphaned fs u ↔ v.Orphaned fs u := by
      simp only [Orphaned, hq]
    constructor
    · intro ho
      obtain ⟨ht', hq'⟩ := S₂.woken (hf.mpr ((orphaned_append.mp ho).resolve_left he))
      exact ⟨by rw [ht', ht], hq'⟩
    · intro hn
      obtain ⟨ht', hq'⟩ := S₂.kept fun h => hn (orphaned_append.mpr (Or.inr (hf.mp h)))
      exact ⟨ht'.trans ht, fun h => (hq' h).trans (hq h)⟩

theorem Survives.of_step (s : ReapStep a v e v') (hu : ∀ q, e ≠ .kill u q) :
    Survives v v' [e] u := by
  cases s with
  | orphan =>
      constructor
      · rintro ⟨t, q, ht, _⟩
        simp at ht
      · exact fun _ => ⟨rfl, fun _ => Iff.rfl⟩
  | @kill t p h hr ht hs =>
      have hut : u ≠ t := by
        rintro rfl
        exact hu p rfl
      have ho : v.Orphaned [.kill t p] u ↔ u ∈ v.sched (.tWait4me t) := by
        constructor
        · rintro ⟨w, q, hw, hm⟩
          rw [List.mem_singleton] at hw
          cases hw
          exact hm
        · exact fun hm => ⟨t, p, by simp, hm⟩
      have hmem : ∀ h', u ∈ ((v.clean t (v.cleanDest a t p)).reap t p h).sched h' ↔
          u ∈ v.sched h' ∧ h' ≠ .tWait4me t ∨ u ∈ v.sched (.tWait4me t) ∧ h' = .readyq := by
        intro h'
        rw [mem_reap_sched (hr.clean t (v.cleanDest a t p)) hs]
        exact and_iff_right hut
      have htcb : ((v.clean t (v.cleanDest a t p)).reap t p h).tcb u =
          if u ∈ v.sched (.tWait4me t) then aborted (v.tcb u) else v.tcb u := reap_tcb_of_ne hut
      obtain ⟨k, R⟩ := hr
      constructor
      · intro hw
        rw [ho] at hw
        refine ⟨by rw [htcb, if_pos hw], fun h' => ?_⟩
        rw [hmem]
        constructor
        · rintro (⟨h₁, h₂⟩ | h₁)
          · exact absurd (R.sched.disjoint h₁ hw) h₂
          · exact h₁.2
        · exact fun h₁ => Or.inr ⟨hw, h₁⟩
      · intro hw
        rw [ho] at hw
        refine ⟨by rw [htcb, if_neg hw], fun h' => ?_⟩
        rw [hmem]
        constructor
        · exact fun h₁ => (h₁.resolve_right fun h₂ => hw h₂.1).1
        · intro h₁
          refine Or.inl ⟨h₁, ?_⟩
          rintro rfl
          exact hw h₁

theorem survives_of_run (run : Run (ReapStep a) v es v') (hu : ∀ q, .kill u q ∉ es) :
    Survives v v' es u := by
  induction run with
  | nil => exact .refl u
  | snoc _ last ih =>
      apply (ih fun q hm => hu q (by simp [hm])).append
      apply Survives.of_step last
      rintro q rfl
      exact hu q (by simp)

/-- A termination puts down whom it wakes, each survivor once, and whom it frees. -/
theorem history_of_run (run : Run (ReapStep a) v es v') : ∃ hist, v'.history = v.history ++ hist ∧
    (∀ o ∈ hist, (∃ u, o = .received u none null) ∨ ∃ t, o = .freed t) ∧
    (∀ t, .freed t ∈ hist ↔ ∃ q, .kill t q ∈ es) ∧
    ∀ u, (∀ q, .kill u q ∉ es) → (.received u none null ∈ hist ↔ v.Orphaned es u) ∧
      hist.count (.received u none null) ≤ 1 := by
  induction run with
  | nil =>
      refine ⟨[], by simp, by simp, by simp, fun u _ => ⟨iff_of_false (by simp) ?_, by simp⟩⟩
      rintro ⟨t, q, ht, _⟩
      simp at ht
  | @snoc v₁ v' es e run last ih =>
      obtain ⟨hist, hh, hkind, hfreed, hheard⟩ := ih
      cases last with
      | orphan =>
          refine ⟨hist, hh, hkind, fun t => by simp [hfreed], fun u hu => ?_⟩
          obtain ⟨hiff, honce⟩ := hheard u fun q hq => hu q (by simp [hq])
          rw [hiff, orphaned_append]
          refine ⟨(or_iff_left ?_).symm, honce⟩
          rintro ⟨t, q, ht, _⟩
          simp at ht
      | @kill t p h hr ht hs =>
          refine ⟨hist ++ ((v₁.sched (.tWait4me t)).map (fun u => .received u none null) ++
            [.freed t]), ?_, ?_, fun u => ?_, fun u hu => ?_⟩
          · rw [← List.append_assoc, ← hh]
            exact List.append_assoc _ _ _
          · intro o ho
            rcases List.mem_append.mp ho with ho | ho
            · exact hkind o ho
            · rcases List.mem_append.mp ho with ho | ho
              · obtain ⟨u, _, rfl⟩ := List.mem_map.mp ho
                exact Or.inl ⟨u, rfl⟩
              · exact Or.inr ⟨t, List.mem_singleton.mp ho⟩
          · simp [hfreed, exists_or]
          · have hu₁ : ∀ q, .kill u q ∉ es := fun q hq => hu q (by simp [hq])
            have S := survives_of_run run hu₁
            have hone : v.Orphaned [.kill t p] u ↔ u ∈ v.sched (.tWait4me t) := by
              simp [Orphaned]
            obtain ⟨hiff, honce⟩ := hheard u hu₁
            constructor
            · rw [List.mem_append, hiff, orphaned_append, hone]
              by_cases ho : v.Orphaned es u
              · simp [ho]
              · simp [ho, (S.kept ho).2]
            · -- the queue has `u` once, and not if it has been woken before
              obtain ⟨k, R⟩ := hr
              have hqueue := List.nodup_iff_count_le_one.mp (R.sched.nodup (.tWait4me t)) u
              have hinj : Function.Injective fun u => Obs.received u none null :=
                fun _ _ h => (Obs.received.inj h).1
              have hcount := List.count_map_of_injective (v₁.sched (.tWait4me t)) _ hinj u
              rw [List.count_append, List.count_append, hcount, List.count_singleton]
              by_cases ho : v.Orphaned es u
              · have hgone : u ∉ v₁.sched (.tWait4me t) := by simp [(S.woken ho).2]
                simp [List.count_eq_zero_of_not_mem hgone, honce]
              · simp [List.count_eq_zero_of_not_mem (mt hiff.mp ho), hqueue]

/-- The members of `t_wait4me` are the threads that wait for its owner. -/
theorem Scheduled.mem_waiting {r : Option Tcb} (S : v.Scheduled r) :
    u ∈ v.sched (.tWait4me t) ↔ (v.tcb u).tStatus = .w4msg ∧ (v.tcb u).tWait4sender = some t := by
  refine ⟨S.fits, fun ⟨hs, hw⟩ => ?_⟩
  rcases S.somewhere (t := u) (by simp [hs]) with hr | ⟨h, hm⟩
  · have hready := S.running hr
    rw [hs] at hready
    cases hready
  · have hf := S.fits hm
    cases h with
    | readyq => simp [Fits, hs] at hf
    | blockedq => simp [Fits, hs, hw] at hf
    | tWait4clock => exact hf.elim
    | tWait4me t' =>
        obtain rfl := Option.some.inj (hw.symm.trans hf.2)
        exact hm

end View

end MikaBoo
