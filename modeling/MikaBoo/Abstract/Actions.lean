import MikaBoo.Abstract.Mailbox

/-!
# The abstract kernel

A kernel entry is a sequence of actions on views. An action says which thread is
on the processor before and after it; `none` while a handler has blocked the
thread and has not called the scheduler yet, and while the processor waits.

## Implementation notes

WAIT_FOR_CLOCK is not an action: it links a thread into a second queue, and the
result is no view.
-/

namespace MikaBoo

open Intrusive Transition

/-- A view and the thread on the processor. -/
structure Config where
  view : View
  on : Option Tcb

/-- The queue in which a receiver waits for `src`. -/
def SchedQueue.waiting : Option Tcb → SchedQueue
  | none => .blockedq
  | some s => .tWait4me s

/-- What a kernel entry may do besides what every entry may do. -/
inductive Scope
  | plain
  /-- Pass the running thread up to a manager. -/
  | passUp
  /-- Create threads and processes. -/
  | create
  /-- Terminate threads and processes. -/
  | terminate
deriving DecidableEq

/-- One action of the kernel. -/
inductive Action (scope : Scope) : Config → Config → Prop
  /-- Registers, accounting and error codes change. Nobody touches those of the SSI. -/
  | adjust {v r t f} (same : SameQueueing (v.tcb t) (f (v.tcb t))) (user : r = some t ∨ t ≠ .ssi) :
      Action scope ⟨v, r⟩ ⟨v.modTcb t f, r⟩
  /-- Globals other than the thread counter change. -/
  | globals {v r g} (count : g.threadCount = v.globals.threadCount)
      (point : r = some .ssi ∨ g.ssiPoint = v.globals.ssiPoint)
      (soft : ∀ i, g.softBlockedThread i = some .ssi → v.globals.softBlockedThread i = some .ssi) :
      Action scope ⟨v, r⟩ ⟨{ v with globals := g }, r⟩
  /-- A manager of a live process is set. -/
  | manage {v r p f} (alive : v.Alive p) (parent : (f (v.pcb p)).pParent = (v.pcb p).pParent) :
      Action scope ⟨v, r⟩ ⟨v.modPcb p f, r⟩
  /-- `send` fails. -/
  | refuse {v r s d pl} (sender : (v.tcb s).tStatus ≠ .none) :
      Action scope ⟨v, r⟩ ⟨v.record (.sent (some s) d pl false), r⟩
  /-- `send` puts the payload in the queue of `d`. -/
  | queue {v r s d pl m} (sender : (v.tcb s).tStatus ≠ .none) (free : m ∈ v.msgs .free)
      (allocated : (v.tcb d).tStatus ≠ .none)
      (other : (v.tcb d).tStatus = .w4msg →
        (v.tcb d).tWait4sender ≠ none ∧ (v.tcb d).tWait4sender ≠ some s)
      (foreign : s = .ssi → d ≠ .ssi) :
      Action scope ⟨v, r⟩ ⟨(v.post s d pl m).record (.sent (some s) d pl true), r⟩
  /-- `send` hands the payload to `d`, which waits for it in `h`. -/
  | direct {v r s d pl h} (sender : (v.tcb s).tStatus ≠ .none) (queued : d ∈ v.sched h)
      (waits : (v.tcb d).tStatus = .w4msg)
      (eligible : (v.tcb d).tWait4sender = some s ∨ (v.tcb d).tWait4sender = none)
      (foreign : s = .ssi → d ≠ .ssi) :
      Action scope ⟨v, r⟩ ⟨(v.wake d h (some s) pl).record (.sent (some s) d pl true), r⟩
  /-- `recv` takes the first eligible message. -/
  | receive {v d src m} (first : v.pick src d = some m) :
      Action scope ⟨v, some d⟩
        ⟨(v.freeMsg d m).record (.received d (v.msg m).mSender (v.msg m).mValue), some d⟩
  /-- `recv` finds no eligible message. -/
  | block {v t src f} (none : v.pick src t = none) (owner : (f (v.tcb t)).tPcb = (v.tcb t).tPcb)
      (status : (f (v.tcb t)).tStatus = .w4msg) (wait : (f (v.tcb t)).tWait4sender = src) :
      Action scope ⟨v, some t⟩ ⟨(v.modTcb t f).enqueue t (.waiting src), Option.none⟩
  /-- The running thread is preempted. -/
  | preempt {v t} (user : t ≠ .ssi) : Action scope ⟨v, some t⟩ ⟨v.enqueue t .readyq, none⟩
  /-- The running thread is passed up. -/
  | passUp {v t} (allowed : scope = .passUp) (user : t ≠ .ssi) :
      Action scope ⟨v, some t⟩ ⟨v.enqueue t .blockedq, none⟩
  /-- `scheduler` takes the head of the ready queue. -/
  | dispatch {v t rest} (head : v.sched .readyq = t :: rest) :
      Action scope ⟨v, none⟩ ⟨v.outqueue t .readyq, some t⟩
  | create {v r t p s} (allowed : scope = .create) (free : t ∈ v.threads .free) (alive : v.Alive p) :
      Action scope ⟨v, r⟩ ⟨v.create t p s, r⟩
  | adopt {v r p parent} (allowed : scope = .create) (free : p ∈ v.procs .free)
      (alive : v.Alive parent) : Action scope ⟨v, r⟩ ⟨v.adopt p parent, r⟩
  /-- `create_process_s` deletes the process it has no thread for. -/
  | abandon {v r p parent} (allowed : scope = .create) (child : (v.pcb p).pParent = some parent)
      (leaf : v.procs (.children p) = []) (vacant : v.threads (.of p) = []) :
      Action scope ⟨v, r⟩ ⟨v.orphan p parent, r⟩
  /-- A step of a termination, which only the SSI performs. -/
  | reap {v a e v'} (allowed : scope = .terminate) (step : ReapStep a v e v') :
      Action scope ⟨v, some .ssi⟩ ⟨v', some .ssi⟩

/-- The senders of the requests that wait for the SSI, and of the one that it
holds while it is not on the processor, have the property `P`. -/
structure View.Desk (v : View) (P : Tcb → Prop) : Prop where
  queued : ∀ {e}, e ∈ v.mailbox .ssi → ∃ s, e.mSender = some s ∧ P s
  held : ∀ {h}, .ssi ∈ v.sched h → (v.tcb .ssi).tStatus = .ready →
    v.globals.ssiPoint = .serving → ∃ s, (v.tcb .ssi).tS.a1 = .tcb s ∧ P s

/-- A configuration that a kernel state can be in. The SSI makes no request, and
does not wait for a device. -/
structure Config.Ok (c : Config) : Prop where
  real : Realised c.view
  inv : c.view.Inv c.on
  desk : c.view.Desk (· ≠ .ssi)
  soft : ∀ i, c.view.globals.softBlockedThread i ≠ some .ssi

/-- An action between configurations that kernel states can be in. -/
structure Move (scope : Scope) (c c' : Config) : Prop where
  ok : c.Ok
  act : Action scope c c'
  real : Realised c'.view

/-- Any number of actions. -/
abbrev Moves (scope : Scope) : Config → Config → Prop := Relation.ReflTransGen (Move scope)

/-! ## Every action keeps the invariant -/

namespace View

variable {v v' : View} {r : Option Tcb} {t : Tcb} {p : Pcb}

theorem Inv.setGlobals {g : Globals} (I : v.Inv r) (h : g.threadCount = v.globals.threadCount) :
    { v with globals := g }.Inv r :=
  I.quiet rfl rfl rfl rfl rfl rfl h (fun _ => rfl) (fun _ => rfl) fun _ => rfl

theorem Tree.manage {f : PcbT → PcbT} (T : v.Tree) (hp : v.Alive p)
    (hf : (f (v.pcb p)).pParent = (v.pcb p).pParent) : (v.modPcb p f).Tree := by
  have hpar : ∀ q, ((v.modPcb p f).pcb q).pParent = (v.pcb q).pParent := by
    intro q
    by_cases hq : q = p
    · subst hq
      simpa [View.modPcb] using hf
    · simp [View.modPcb, hq]
  have hal : ∀ {q}, v.Alive q → (v.modPcb p f).Alive q := by
    intro q hq
    unfold Alive at hq ⊢
    rwa [hpar]
  refine ⟨?_, ?_, ?_, ?_, ?_, ?_, ?_⟩
  · intro q
    rw [hpar]
    exact T.free
  · intro q q'
    rw [hpar]
    exact T.children
  · rw [hpar]
    exact T.root_parent
  · intro q q' h
    rw [hpar] at h
    exact hal (T.parent_alive h)
  · intro q hq hn
    rw [hpar] at hn
    have hqp : q ≠ p := by
      rintro rfl
      exact hp.elim hq fun h => h hn
    simpa [View.modPcb, hqp] using T.cleared hq hn
  · exact fun h => hal (T.owner_alive h)
  · simpa only [hpar] using T.wellFounded

theorem Inv.manage {f : PcbT → PcbT} (I : v.Inv r) (hp : v.Alive p)
    (hf : (f (v.pcb p)).pParent = (v.pcb p).pParent) : (v.modPcb p f).Inv r where
  tree := I.tree.manage hp hf
  owned := I.owned.congr rfl (fun _ => rfl) fun _ => Iff.rfl
  scheduled := I.scheduled.congr rfl (fun _ => rfl) fun _ => rfl
  mail := I.mail.congr rfl rfl (fun _ => rfl) fun _ => rfl
  counted := I.counted.congr rfl fun _ => rfl

/-- A thread without eligible messages may wait for one. -/
theorem not_eligible {src : Option Tcb} {m : Msg} (hp : v.pick src t = none)
    (hm : m ∈ v.msgs (.of t)) : src ≠ none ∧ (v.msg m).mSender ≠ src := by
  cases src with
  | none =>
      rw [pick, List.head?_eq_none_iff] at hp
      simp [hp] at hm
  | some s =>
      have := List.find?_eq_none.mp hp m hm
      exact ⟨by simp, by simpa using this⟩

/-- The running thread goes to a queue of ready threads or is passed up. -/
theorem Inv.yield {h : SchedQueue} (I : v.Inv (some t)) (hh : h = .readyq ∨ h = .blockedq) :
    (v.enqueue t h).Inv none := by
  have hready : (v.tcb t).tStatus = .ready := I.scheduled.running rfl
  have hwait := I.scheduled.wait (t := t) (by simp [hready])
  have hid : v.modTcb t id = v := by simp [View.modTcb]
  rw [← hid]
  apply I.park rfl
  · rcases hh with rfl | rfl
    · exact hready
    · exact Or.inl hready
  · exact fun _ => hwait
  · simp [hready]

/-- The thread on the processor is not on the free list. -/
theorem Inv.not_free (I : v.Inv r) (ht : t ∈ v.threads .free) : r ≠ some t := by
  intro hr
  have hs := I.scheduled.running hr
  rw [I.owned.status.mpr (I.owned.free.mp ht)] at hs
  cases hs

end View

/-- An action keeps the invariant. -/
theorem Action.inv {scope : Scope} {c c' : Config} (h : c.Ok) (s : Action scope c c') :
    c'.view.Inv c'.on := by
  obtain ⟨⟨k, R⟩, I, _, _⟩ := h
  cases s with
  | adjust same _ => exact I.modTcb same
  | globals count _ _ => exact I.setGlobals count
  | manage alive parent => exact I.manage alive parent
  | refuse _ => exact I.record _
  | queue _ free allocated other _ => exact (I.post R free allocated other).record _
  | direct _ queued waits _ _ => exact (I.wake R queued waits).record _
  | receive first => exact (I.freeMsg R (View.mem_of_pick first)).record _
  | @block v t src f none owner status wait =>
      apply I.park owner
      · cases src with
        | none => exact Or.inr ⟨status, wait⟩
        | some s => exact ⟨status, wait⟩
      · exact fun hs => absurd status hs
      · intro m hm _
        rw [wait]
        exact View.not_eligible none hm
  | preempt _ => exact I.yield (Or.inl rfl)
  | passUp _ _ => exact I.yield (Or.inr rfl)
  | dispatch head => exact I.dispatch R (by simp [head])
  | create _ free alive => exact I.create R free alive (I.not_free free)
  | adopt _ free alive => exact I.adopt R free alive
  | abandon _ child leaf vacant => exact I.orphan R child leaf vacant
  | reap _ step => exact I.reapStep step

/-! ## Every action keeps the desk of the SSI in order -/

section desk

variable {v v' : View} {r : Option Tcb} {P P' : Tcb → Prop}

/-- A desk where nothing has changed. -/
theorem View.Desk.congr (D : v.Desk P) (hP : ∀ s, P s → P' s)
    (hmail : ∀ e, e ∈ v'.mailbox .ssi → e ∈ v.mailbox .ssi)
    (hsched : ∀ h, .ssi ∈ v'.sched h → ∃ h', .ssi ∈ v.sched h') (htcb : v'.tcb .ssi = v.tcb .ssi)
    (hpoint : v'.globals.ssiPoint = v.globals.ssiPoint) : v'.Desk P' := by
  constructor
  · intro e he
    obtain ⟨s, hs, hPs⟩ := D.queued (hmail e he)
    exact ⟨s, hs, hP s hPs⟩
  · intro h hm hready hserving
    obtain ⟨h', hm'⟩ := hsched h hm
    rw [htcb] at hready ⊢
    obtain ⟨s, hs, hPs⟩ := D.held hm' hready (hpoint ▸ hserving)
    exact ⟨s, hs, hP s hPs⟩

/-- A desk while the SSI is on the processor, receiving or serving. -/
theorem View.Desk.of_running (D : v.Desk P) (hP : ∀ s, P s → P' s) (I : v'.Inv (some .ssi))
    (hmail : ∀ e, e ∈ v'.mailbox .ssi → e ∈ v.mailbox .ssi) : v'.Desk P' := by
  constructor
  · intro e he
    obtain ⟨s, hs, hPs⟩ := D.queued (hmail e he)
    exact ⟨s, hs, hP s hPs⟩
  · exact fun hm => absurd rfl (I.scheduled.off hm)

theorem View.mem_of_mem_mailbox_reap {a : Option Tcb} {e : Reaping} {x : MsgT}
    (s : ReapStep a v e v') {d : Tcb} (hx : x ∈ v'.mailbox d) : x ∈ v.mailbox d := by
  cases s with
  | @kill t p h hr ht hs =>
      by_cases hd : d = t
      · subst hd
        simp [View.mailbox_reap_self] at hx
      · rw [View.mailbox_reap_of_ne (hr.clean t _) hd, View.mailbox_clean hr] at hx
        split at hx
        · exact List.mem_of_mem_eraseP hx
        · exact hx
  | orphan => exact hx

/-- An action keeps the desk in order, if the property of senders lasts and the
allocated threads have it. -/
theorem Action.desk {scope : Scope} {c c' : Config} (h : c.Ok) (a : Action scope c c')
    (D : c.view.Desk P) (hP : ∀ s, P s → P' s)
    (hnew : ∀ s, s ≠ .ssi → (c.view.tcb s).tStatus ≠ .none → P' s) : c'.view.Desk P' := by
  have I' := a.inv h
  obtain ⟨⟨k, R⟩, I, _, _⟩ := h
  cases a with
  | @adjust v r t f same user =>
      by_cases ht : t = .ssi
      · subst ht
        obtain rfl := user.resolve_right (by simp)
        exact D.of_running hP I' fun _ he => he
      · exact D.congr hP (fun _ he => he) (fun h hm => ⟨h, hm⟩)
          (by simp [View.modTcb, Ne.symm ht]) rfl
  | globals count point soft =>
      rcases point with rfl | point
      · exact D.of_running hP I' fun _ he => he
      · exact D.congr hP (fun _ he => he) (fun h hm => ⟨h, hm⟩) rfl point
  | manage | refuse | adopt | abandon =>
      exact D.congr hP (fun _ he => he) (fun h hm => ⟨h, hm⟩) rfl rfl
  | @queue v r s d pl m sender free allocated other foreign =>
      constructor
      · intro e he
        change e ∈ (v.post s d pl m).mailbox .ssi at he
        rw [View.mailbox_post R.msgs free] at he
        split at he
        · rename_i hd
          rcases List.mem_append.mp he with he | he
          · obtain ⟨s', hs', hPs⟩ := D.queued he
            exact ⟨s', hs', hP s' hPs⟩
          · rw [List.mem_singleton] at he
            subst he
            exact ⟨s, rfl, hnew s (fun hs => foreign hs hd.symm) sender⟩
        · obtain ⟨s', hs', hPs⟩ := D.queued he
          exact ⟨s', hs', hP s' hPs⟩
      · intro h hm hready hserving
        obtain ⟨s', hs', hPs⟩ := D.held hm hready hserving
        exact ⟨s', hs', hP s' hPs⟩
  | @direct v r s d pl h sender queued waits eligible foreign =>
      by_cases hd : d = .ssi
      · subst hd
        constructor
        · intro e he
          obtain ⟨s', hs', hPs⟩ := D.queued he
          exact ⟨s', hs', hP s' hPs⟩
        · intro h' _ _ _
          refine ⟨s, ?_, hnew s (fun hs => foreign hs rfl) sender⟩
          change ((v.wake .ssi h (some s) pl).tcb .ssi).tS.a1 = _
          rw [View.wake_tcb_self]
          rfl
      · refine D.congr hP (fun _ he => he) (fun h' hm => ?_) ?_ rfl
        · exact ⟨h', ((R.mem_wake queued).mp hm).elim (fun hm => hm.2)
            fun hm => absurd hm.1 (Ne.symm hd)⟩
        · exact View.wake_tcb_of_ne (h := h) (Ne.symm hd)
  | @receive v d src m first =>
      refine D.congr hP (fun e he => ?_) (fun h hm => ⟨h, hm⟩) rfl rfl
      change e ∈ (v.freeMsg d m).mailbox .ssi at he
      rw [View.mailbox_freeMsg R.msgs first] at he
      split at he
      · exact List.mem_of_mem_eraseP he
      · exact he
  | @block v t src f none owner status wait =>
      by_cases ht : t = .ssi
      · subst ht
        constructor
        · intro e he
          obtain ⟨s', hs', hPs⟩ := D.queued he
          exact ⟨s', hs', hP s' hPs⟩
        · intro h _ hready
          have hs : ((v.modTcb .ssi f).tcb .ssi).tStatus = .w4msg := by
            simpa [View.modTcb] using status
          rw [show ((v.modTcb .ssi f).enqueue .ssi (.waiting src)).tcb = (v.modTcb .ssi f).tcb
            from rfl, hs] at hready
          cases hready
      · refine D.congr hP (fun _ he => he) (fun h hm => ?_) ?_ rfl
        · exact ⟨h, (View.mem_enqueue.mp hm).resolve_right fun hm => ht hm.1.symm⟩
        · simp [View.enqueue, View.modTcb, Ne.symm ht]
  | preempt user | passUp _ user =>
      refine D.congr hP (fun _ he => he) (fun h hm => ?_) rfl rfl
      exact ⟨h, (View.mem_enqueue.mp hm).resolve_right fun hm => user hm.1.symm⟩
  | dispatch head =>
      exact D.congr hP (fun _ he => he)
        (fun h hm => ⟨h, ((R.mem_outqueue (by simp [head])).mp hm).2⟩) rfl rfl
  | @create v r t p s _ free alive =>
      have ht : t ≠ .ssi := (I.owned.free.mp free).1
      refine D.congr hP (fun _ he => he) (fun h hm => ?_) (View.create_tcb_of_ne (Ne.symm ht)) rfl
      exact ⟨h, (View.mem_enqueue.mp hm).resolve_right fun hm => ht hm.1.symm⟩
  | reap _ step => exact D.of_running hP I' fun _ he => View.mem_of_mem_mailbox_reap step he

end desk

theorem Action.soft {scope : Scope} {c c' : Config} (h : c.Ok) (a : Action scope c c') :
    ∀ i, c'.view.globals.softBlockedThread i ≠ some .ssi := by
  cases a with
  | globals count point soft => exact fun i hi => h.soft i (soft i hi)
  | reap _ step => cases step <;> exact h.soft
  | _ => exact h.soft

theorem Move.ok' {scope : Scope} {c c' : Config} (m : Move scope c c') : c'.Ok where
  real := m.real
  inv := m.act.inv m.ok
  desk := m.act.desk m.ok m.ok.desk (fun _ hs => hs) fun _ hs _ => hs
  soft := m.act.soft m.ok

/-- Moves keep the invariant. -/
theorem Moves.ok {scope : Scope} {c c' : Config} (h : c.Ok) (ms : Moves scope c c') : c'.Ok := by
  induction ms with
  | refl => exact h
  | tail _ m _ => exact m.ok'

end MikaBoo
