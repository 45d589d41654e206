import MikaBoo.Abstract.Frames

/-!
# The chores of services

A service is a sequence of chores, of which there are few kinds, whatever state it
starts in. What every chore keeps, every service keeps.
-/

namespace MikaBoo

open Intrusive Fuel

/-- One operation of a service. -/
inductive Chore : Kernel → Kernel → Prop
  /-- `clean_sys_msg` takes a message out of a queue. -/
  | clean {k k' s d r} (get : msgqGet k (some (some s)) d null = .ok (r, k')) : Chore k k'
  /-- The first loop of `__terminate_thread_s` frees the first message of a queue. -/
  | drop {k t m} (head : msgQhead k (.of t) = .ok (some m)) : Chore k (msgFree k m)
  /-- The second loop of `__terminate_thread_s` wakes a thread. -/
  | abort {k} (u : Tcb) :
      Chore k (resumeThread (k.modTcb u fun d => { d with errno := 1 }) u none null)
  | free {k} (t : Tcb) : Chore k (threadFree k t).2
  | count {k} (n : Word) : Chore k { k with threadCount := n }
  | delete {k} (p : Pcb) : Chore k (procDelete k p).2
  | alloc {k k' parent q} (alloc : procAlloc k parent = .ok (q, k')) : Chore k k'
  /-- `__create_thread_s` takes a thread from the free list. -/
  | create {k k' p t} (s : State) (alloc : threadAlloc k p = .ok (some t, k')) :
      Chore k (threadEnqueue (k'.modTcb t fun d => { d with tS := s }) t .readyq)
  /-- A manager is set. -/
  | manage {k} (p : Pcb) (f : PcbT → PcbT) : Chore k (k.modPcb p f)
  /-- `wait_for_clock_s`. -/
  | wait {k} (t : Tcb) : Chore k (threadEnqueue k t .tWait4clock)
  /-- `do_io_s`. -/
  | engage {k} (n : Word) (command : Value) (slots : Fin 5 → Option Tcb) :
      Chore k { k with softBlockCount := n, transmCommand := command, softBlockedThread := slots }

/-- Any number of chores. -/
abbrev Chores : Kernel → Kernel → Prop := Relation.ReflTransGen Chore

namespace Chores

variable {k k' : Kernel} {t : Tcb} {p : Pcb} {o : Option Tcb} {fuel : Nat} {s : State}
  {r : Option Value}

/-! ## Terminations -/

theorem drainMsgq (h : MikaBoo.drainMsgq fuel k t = .ok k') : Chores k k' := by
  induction fuel generalizing k with
  | zero => cases h
  | succ fuel ih =>
      unfold MikaBoo.drainMsgq at h
      split at h
      · cases h
        exact .refl
      · obtain ⟨o, ho, h⟩ := bind_eq_ok.mp h
        cases o with
        | none => cases h
        | some m => exact .head (.drop ho) (ih h)

theorem abortWaiters (h : MikaBoo.abortWaiters fuel k t = .ok k') : Chores k k' := by
  induction fuel generalizing k with
  | zero => cases h
  | succ fuel ih =>
      obtain ⟨o, _, h⟩ := bind_eq_ok.mp h
      cases o with
      | none =>
          cases h
          exact .refl
      | some u => exact .head (.abort u) (ih h)

theorem rawTerminateThreadS (h : MikaBoo.rawTerminateThreadS fuel k t = .ok k') : Chores k k' := by
  obtain ⟨k₁, hk₁, h⟩ := bind_eq_ok.mp h
  obtain ⟨k₂, hk₂, h⟩ := bind_eq_ok.mp h
  cases h
  have h₁ := (drainMsgq hk₁).trans (abortWaiters hk₂)
  exact (h₁.tail (.free t)).tail (.count _)

theorem cleanSysMsg (h : MikaBoo.cleanSysMsg k t = .ok k') : Chores k k' := by
  have hget : ∀ {d : Option Tcb}, (msgqGet k (some (some t)) d null >>= fun r => .ok r.2) = .ok k' →
      Chores k k' := by
    intro d h
    obtain ⟨_, hk, h⟩ := bind_eq_ok.mp h
    cases h
    exact .single (.clean hk)
  unfold MikaBoo.cleanSysMsg at h
  split at h
  · exact hget h
  · split at h
    · cases h
    · split at h
      · exact hget h
      · split at h
        · exact hget h
        · cases h
          exact .refl

theorem terminateThreads (h : MikaBoo.terminateThreads fuel k p o = .ok k') : Chores k k' := by
  induction fuel generalizing k with
  | zero => cases h
  | succ fuel ih =>
      obtain ⟨q, _, h⟩ := bind_eq_ok.mp h
      cases q with
      | none =>
          cases h
          exact .refl
      | some t =>
          dsimp only at h
          split at h
          · obtain ⟨k₁, hk₁, h⟩ := bind_eq_ok.mp h
            obtain ⟨k₂, hk₂, h⟩ := bind_eq_ok.mp h
            exact (cleanSysMsg hk₁).trans ((rawTerminateThreadS hk₂).trans (ih h))
          · obtain ⟨_, hk₁, h⟩ := bind_eq_ok.mp h
            cases hk₁
            obtain ⟨k₂, hk₂, h⟩ := bind_eq_ok.mp h
            exact (rawTerminateThreadS hk₂).trans (ih h)

theorem subtree (fuel : Nat) :
    (∀ {k k' p o}, MikaBoo.rawTerminateProcessS fuel k p o = .ok k' → Chores k k') ∧
    (∀ {k k' p}, MikaBoo.terminateChildren fuel k p = .ok k' → Chores k k') := by
  induction fuel with
  | zero => exact ⟨fun h => (by cases h), fun h => (by cases h)⟩
  | succ fuel ih =>
      obtain ⟨ihp, ihc⟩ := ih
      constructor
      · intro k k' p o h
        obtain ⟨k₁, hk₁, h⟩ := bind_eq_ok.mp h
        obtain ⟨k₂, hk₂, h⟩ := bind_eq_ok.mp h
        cases h
        exact ((terminateThreads hk₁).trans (ihc hk₂)).tail (.delete p)
      · intro k k' p h
        obtain ⟨q, _, h⟩ := bind_eq_ok.mp h
        cases q with
        | none =>
            cases h
            exact .refl
        | some q =>
            obtain ⟨k₁, hk₁, h⟩ := bind_eq_ok.mp h
            exact (ihp hk₁).trans (ihc h)

theorem terminateProcessS (h : MikaBoo.terminateProcessS fuel k t = .ok k') : Chores k k' := by
  unfold MikaBoo.terminateProcessS at h
  split at h
  · cases h
  · exact (subtree fuel).1 h

theorem terminateThreadS (h : MikaBoo.terminateThreadS fuel k t = .ok k') : Chores k k' := by
  unfold MikaBoo.terminateThreadS at h
  split at h
  · split at h
    · exact terminateProcessS h
    · exact rawTerminateThreadS h
  · exact rawTerminateThreadS h

/-! ## The other services -/

theorem rawCreateThreadS {proc : Option Pcb}
    (h : MikaBoo.rawCreateThreadS k s proc = .ok (o, k')) : Chores k k' := by
  obtain ⟨⟨o₁, k₁⟩, hk₁, h⟩ := bind_eq_ok.mp h
  cases o₁ with
  | none =>
      cases h
      obtain ⟨_, _, hk₁⟩ := bind_eq_ok.mp hk₁
      split at hk₁ <;> cases hk₁
      exact .refl
  | some u =>
      cases h
      exact .head (.create s hk₁) (.single (.count _))

theorem createProcessS (h : MikaBoo.createProcessS k s t = .ok (o, k')) : Chores k k' := by
  obtain ⟨⟨q, k₁⟩, hk₁, h⟩ := bind_eq_ok.mp h
  have h₁ : Chores k k₁ := .single (.alloc hk₁)
  cases q with
  | none =>
      cases h
      exact h₁
  | some q =>
      obtain ⟨⟨o, k₂⟩, hk₂, h⟩ := bind_eq_ok.mp h
      have h₂ := h₁.trans (rawCreateThreadS hk₂)
      cases o with
      | none =>
          cases h
          exact h₂.tail (.delete q)
      | some u =>
          cases h
          exact h₂

theorem rawSetmgr {mgr : PcbT → Option Tcb} {set : PcbT → Option Tcb → PcbT}
    (h : MikaBoo.rawSetmgr mgr set fuel k o t = .ok (r, k')) : Chores k k' := by
  unfold MikaBoo.rawSetmgr at h
  split at h
  · cases h
    exact .refl
  · split at h
    · cases h
    · split at h
      · obtain ⟨k₁, hk₁, h⟩ := bind_eq_ok.mp h
        cases h
        exact terminateProcessS hk₁
      · cases h
        exact .single (.manage _ _)

theorem service {q : Request} {msg : Value}
    (h : MikaBoo.service fuel k t msg q = .ok (r, k')) : Chores k k' := by
  cases q with
  | getErrno | getCputime =>
      cases h
      exact .refl
  | waitForClock =>
      cases h
      exact .single (.wait t)
  | createProcess =>
      obtain ⟨_, _, h⟩ := bind_eq_ok.mp h
      obtain ⟨_, _, h⟩ := bind_eq_ok.mp h
      obtain ⟨_, hk, h⟩ := bind_eq_ok.mp h
      cases h
      exact createProcessS hk
  | createThread =>
      obtain ⟨_, _, h⟩ := bind_eq_ok.mp h
      obtain ⟨_, _, h⟩ := bind_eq_ok.mp h
      obtain ⟨_, hk, h⟩ := bind_eq_ok.mp h
      cases h
      exact rawCreateThreadS hk
  | terminateProcess =>
      obtain ⟨_, hk, h⟩ := bind_eq_ok.mp h
      cases h
      exact terminateProcessS hk
  | terminateThread =>
      obtain ⟨_, hk, h⟩ := bind_eq_ok.mp h
      cases h
      exact terminateThreadS hk
  | setpgmmgr | settlbmgr | setsysmgr =>
      obtain ⟨_, _, h⟩ := bind_eq_ok.mp h
      obtain ⟨_, _, h⟩ := bind_eq_ok.mp h
      exact rawSetmgr h
  | doIo =>
      obtain ⟨_, _, h⟩ := bind_eq_ok.mp h
      obtain ⟨_, _, h⟩ := bind_eq_ok.mp h
      obtain ⟨_, _, h⟩ := bind_eq_ok.mp h
      obtain ⟨_, _, h⟩ := bind_eq_ok.mp h
      obtain ⟨_, hk, h⟩ := bind_eq_ok.mp h
      cases h
      unfold doIoS at hk
      split at hk
      · dsimp only at hk
        split at hk <;> cases hk
        exact .single (.engage _ _ _)
      · cases hk
  | getProcessid | getParentprocid =>
      obtain ⟨_, _, h⟩ := bind_eq_ok.mp h
      obtain ⟨_, _, h⟩ := bind_eq_ok.mp h
      cases h
      exact .refl
  | getMythreadid =>
      obtain ⟨_, _, h⟩ := bind_eq_ok.mp h
      cases h
      exact .refl

end Chores

end MikaBoo
