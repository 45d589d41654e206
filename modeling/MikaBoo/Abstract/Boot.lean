import MikaBoo.Abstract.Actions

/-!
# The boot state

The initialisation loops build the empty queues and the free lists, and
`load_readyq` puts the SSI and the first thread in the ready queue.
-/

namespace MikaBoo

open Intrusive Fuel

/-- The kernel state after the initialisation loops. -/
def initialised (hw : Hardware) : Kernel := msgqInit (threadInit (procInit (staticData hw)))

/-- The kernel state when the descriptor of the SSI has its queues, too. -/
def prepared (hw : Hardware) : Kernel := ssiThreadInit (initialised hw)

/-- `load_readyq` up to the SSI. -/
def loadSsi (hw : Hardware) (k : Kernel) : Kernel :=
  initAndLoad (ssiThreadInit (timeInit hw k)) .ssi (stateInit hw 1 hw.ssi SYS_MODE_INT_DISABLED)

/-- The kernel state when `load_readyq` has loaded the SSI. -/
def ssiLoaded (hw : Hardware) : Kernel := loadSsi hw (initialised hw)

/-- Its view: everything is free but the SSI. -/
def bootView (hw : Hardware) : View where
  procs := Function.update (fun _ => []) .free (List.finRange MAXPROC).tail
  threads := Function.update (fun _ => []) .free ((List.finRange MAXTHREAD).map .thread)
  sched := Function.update (fun _ => []) .readyq [.ssi]
  msgs := Function.update (fun _ => []) .free (List.finRange MAXMSG).reverse
  pcb := fun _ => {}
  tcb := Function.update (fun _ => {}) .ssi
    { tS := stateInit hw 1 hw.ssi SYS_MODE_INT_DISABLED, tStatus := .ready }
  msg := fun _ => {}
  globals := (ssiLoaded hw).globals
  history := []

/-! ## The initialisation loops -/

theorem foldl_keeps {K A B : Type} {f : K → A → K} (g : K → B) (h : ∀ k a, g (f k a) = g k)
    (l : List A) (k : K) : g (l.foldl f k) = g k := by
  induction l generalizing k with
  | nil => rfl
  | cons a l ih => exact (ih (f k a)).trans (h k a)

theorem foldl_holds {K A : Type} {f : K → A → K} {P : K → Prop} (h : ∀ k a, P k → P (f k a))
    (l : List A) {k : K} (hk : P k) : P (l.foldl f k) := by
  induction l generalizing k with
  | nil => exact hk
  | cons a l ih => exact ih (h k a hk)

/-- `proc_init` before its loop. -/
def procInitRoot (k : Kernel) : Kernel :=
  let k := k.modPcb root fun d => { d with pParent := none }
  let k := { k with threadLinks := k.threadLinks.initListHead (.pThreads root) }
  let k := { k with procLinks := k.procLinks.initListHead (.pChildren root) }
  let k := { k with procLinks := k.procLinks.initListHead (.pSiblings root) }
  cleanMgr k root

theorem procInit_eq (k : Kernel) :
    procInit k = (List.finRange MAXPROC).tail.foldl procInitOne (procInitRoot k) := rfl

section keeps

variable {B : Type} (g : Kernel → B)

theorem procInit_keeps (h : ∀ k p, g (procInitOne k p) = g k)
    (h₀ : ∀ k, g (procInitRoot k) = g k) (k : Kernel) : g (procInit k) = g k := by
  rw [procInit_eq, foldl_keeps g h, h₀]

theorem threadInit_keeps (h : ∀ k i, g (threadInitOne k i) = g k) (k : Kernel) :
    g (threadInit k) = g k :=
  foldl_keeps g h _ k

theorem msgqInit_keeps (h : ∀ k m, g (msgqInitOne k m) = g k) (k : Kernel) :
    g (msgqInit k) = g k :=
  foldl_keeps g h _ k

end keeps

theorem loadSsi_procLinks (hw : Hardware) (k : Kernel) : (loadSsi hw k).procLinks = k.procLinks :=
  rfl

theorem loadSsi_threadLinks (hw : Hardware) (k : Kernel) :
    (loadSsi hw k).threadLinks = k.threadLinks := rfl

theorem loadSsi_msgLinks (hw : Hardware) (k : Kernel) :
    (loadSsi hw k).msgLinks = k.msgLinks.initListHead (.tMsgq .ssi) := rfl

theorem loadSsi_data (hw : Hardware) (k : Kernel) :
    (loadSsi hw k).pcb = k.pcb ∧ (loadSsi hw k).msg = k.msg ∧
      (loadSsi hw k).history = k.history := ⟨rfl, rfl, rfl⟩

theorem ssiThreadInit_schedLinks (k : Kernel) :
    (ssiThreadInit k).schedLinks = k.schedLinks.initListHead (.tWait4me .ssi) := rfl

theorem ssiThreadInit_tcb (k : Kernel) : (ssiThreadInit k).tcb =
    Function.update k.tcb .ssi
      { k.tcb .ssi with tPcb := none, tStatus := .ready, tWait4sender := none } := rfl

/-- Loading the SSI changes only its descriptor, its queue and a counter. -/
theorem loadSsi_rest (hw : Hardware) (k : Kernel) :
    (ssiThreadInit k).procLinks = (loadSsi hw k).procLinks ∧
      (ssiThreadInit k).threadLinks = (loadSsi hw k).threadLinks ∧
      (ssiThreadInit k).msgLinks = (loadSsi hw k).msgLinks ∧
      (ssiThreadInit k).pcb = (loadSsi hw k).pcb ∧ (ssiThreadInit k).msg = (loadSsi hw k).msg ∧
      (ssiThreadInit k).history = (loadSsi hw k).history := ⟨rfl, rfl, rfl, rfl, rfl, rfl⟩

theorem procInit_procLinks (k : Kernel) : (procInit k).procLinks =
    (List.finRange MAXPROC).tail.foldl (fun L p =>
      (L.listAddTail (.pSiblings p) (.pSiblings root)).initListHead (.pChildren p))
      ((k.procLinks.initListHead (.pChildren root)).initListHead (.pSiblings root)) :=
  (List.foldl_hom Kernel.procLinks fun _ _ => rfl).symm

theorem procInit_threadLinks (k : Kernel) : (procInit k).threadLinks =
    (List.finRange MAXPROC).tail.foldl (fun L p => L.initListHead (.pThreads p))
      (k.threadLinks.initListHead (.pThreads root)) :=
  (List.foldl_hom Kernel.threadLinks fun _ _ => rfl).symm

theorem threadInit_threadLinks (k : Kernel) : (threadInit k).threadLinks =
    (List.finRange MAXTHREAD).foldl (fun L i => L.listAddTail (.tNext (.thread i)) .threadH)
      k.threadLinks :=
  (List.foldl_hom Kernel.threadLinks fun _ _ => rfl).symm

theorem threadInit_schedLinks (k : Kernel) : (threadInit k).schedLinks =
    (List.finRange MAXTHREAD).foldl (fun L i => L.initListHead (.tWait4me (.thread i)))
      k.schedLinks :=
  (List.foldl_hom Kernel.schedLinks fun _ _ => rfl).symm

theorem threadInit_msgLinks (k : Kernel) : (threadInit k).msgLinks =
    (List.finRange MAXTHREAD).foldl (fun L i => L.initListHead (.tMsgq (.thread i)))
      k.msgLinks :=
  (List.foldl_hom Kernel.msgLinks fun _ _ => rfl).symm

theorem msgqInit_msgLinks (k : Kernel) : (msgqInit k).msgLinks =
    (List.finRange MAXMSG).foldl (fun L m => L.listAdd (.mNext m) .messageH) k.msgLinks :=
  (List.foldl_hom Kernel.msgLinks fun _ _ => rfl).symm

/-! ## The links -/

theorem finRange_procs : List.finRange MAXPROC = root :: (List.finRange MAXPROC).tail := rfl

theorem mem_procs_tail {p : Pcb} : p ∈ (List.finRange MAXPROC).tail ↔ p ≠ root := by
  have hnd : root ∉ (List.finRange MAXPROC).tail :=
    (List.nodup_cons.mp (finRange_procs ▸ List.nodup_finRange MAXPROC)).1
  constructor
  · rintro hm rfl
    exact hnd hm
  · intro hp
    have hm : p ∈ root :: (List.finRange MAXPROC).tail := finRange_procs ▸ List.mem_finRange p
    exact (List.mem_cons.mp hm).resolve_left hp

theorem boot_threads (hw : Hardware) :
    Represents threadLayout (ssiLoaded hw).threadLinks (bootView hw).threads := by
  have R₀ := RepresentsOn.empty threadLayout ⟨fun _ => .null, fun _ => .null⟩
  have R₁ := (R₀.initListHead (h := .free) rfl).initListHead (h := .of root) rfl
  have R₂ := R₁.initListHeads ((List.finRange MAXPROC).tail.map .of) (by simp)
  have R₃ := R₂.listAddTails (h := .free) ((List.finRange MAXTHREAD).map .thread)
    ((List.nodup_finRange _).map fun _ _ h => Tcb.thread.inj h) (by simp)
    (fun t _ => thread_link_ne_head t) (by simp)
  rw [List.foldl_map, List.foldl_map] at R₃
  rw [ssiLoaded, loadSsi_threadLinks, initialised, msgqInit_keeps Kernel.threadLinks fun _ _ => rfl,
    threadInit_threadLinks, procInit_threadLinks, represents_iff]
  have hS : (Set.univ : Set ThreadList) =
      insert (.of root) (insert .free ∅) ∪ {h | h ∈ (List.finRange MAXPROC).tail.map .of} := by
    ext h
    cases h with
    | free => simp
    | of p =>
        by_cases hp : p = root
        · simp [hp]
        · exact iff_of_true trivial (Or.inr (List.mem_map.mpr ⟨p, mem_procs_tail.mpr hp, rfl⟩))
  rw [hS]
  exact R₃

theorem prepared_sched (hw : Hardware) :
    Represents schedLayout (prepared hw).schedLinks fun _ => [] := by
  have R₀ := RepresentsOn.empty schedLayout ⟨fun _ => .null, fun _ => .null⟩
  have R₁ := ((R₀.initListHead (h := .readyq) rfl).initListHead (h := .blockedq) rfl).initListHead
    (h := .tWait4clock) rfl
  have R₂ := R₁.initListHeads ((List.finRange MAXTHREAD).map fun i => .tWait4me (.thread i))
    (by simp)
  have R₃ := R₂.initListHead (h := .tWait4me .ssi) rfl
  rw [List.foldl_map] at R₃
  rw [prepared, ssiThreadInit_schedLinks, initialised, msgqInit_keeps Kernel.schedLinks fun _ _ => rfl,
    threadInit_schedLinks, procInit_keeps Kernel.schedLinks (fun _ _ => rfl) fun _ => rfl,
    represents_iff]
  have hS : (Set.univ : Set SchedQueue) =
      insert (.tWait4me .ssi) (insert .tWait4clock (insert .blockedq (insert .readyq ∅)) ∪
        {h | h ∈ (List.finRange MAXTHREAD).map fun i => .tWait4me (.thread i)}) := by
    ext h
    cases h with
    | tWait4me t => cases t <;> simp
    | _ => simp
  rw [hS]
  exact R₃

theorem boot_sched (hw : Hardware) :
    Represents schedLayout (ssiLoaded hw).schedLinks (bootView hw).sched := by
  have R := (prepared_sched hw).listAddTail (e := .ssi) (by simp) (sched_link_ne_head .ssi) .readyq
  rwa [prepared, ssiThreadInit_schedLinks] at R

theorem boot_msgs (hw : Hardware) :
    Represents msgLayout (ssiLoaded hw).msgLinks (bootView hw).msgs := by
  have R₀ := RepresentsOn.empty msgLayout ⟨fun _ => .null, fun _ => .null⟩
  have R₁ := (R₀.initListHead (h := .free) rfl).initListHeads
    ((List.finRange MAXTHREAD).map fun i => .of (.thread i)) (by simp)
  have R₂ := R₁.listAdds (h := .free) (List.finRange MAXMSG) (List.nodup_finRange _) (by simp)
    (fun m _ => msg_link_ne_head m) (by simp)
  have R₃ := R₂.initListHead (h := .of .ssi) rfl
  rw [List.foldl_map, List.append_nil] at R₃
  rw [ssiLoaded, loadSsi_msgLinks, initialised, msgqInit_msgLinks, threadInit_msgLinks,
    procInit_keeps Kernel.msgLinks (fun _ _ => rfl) fun _ => rfl, represents_iff]
  have hS : (Set.univ : Set MsgList) =
      insert (.of .ssi) (insert .free ∅ ∪
        {h | h ∈ (List.finRange MAXTHREAD).map fun i => .of (.thread i)}) := by
    ext h
    cases h with
    | free => simp
    | of t => cases t <;> simp
  rw [hS]
  exact R₃

/-- The loop of `proc_init` fills the free list and creates the lists of children. -/
theorem procs_loop {L : Links ProcNode} {S : Set ProcList} {q : ProcList → List Pcb}
    (ps : List Pcb) (R : RepresentsOn procLayout L S q) (hnd : ps.Nodup) (hfree : .free ∈ S)
    (hp : ∀ p ∈ ps, p ≠ root ∧ (∀ h, p ∉ q h)) (hc : ∀ p, q (.children p) = []) :
    RepresentsOn procLayout
      (ps.foldl (fun L p =>
        (L.listAddTail (.pSiblings p) (.pSiblings root)).initListHead (.pChildren p)) L)
      (S ∪ {h | h ∈ ps.map .children}) (Function.update q .free (q .free ++ ps)) := by
  induction ps generalizing L S q with
  | nil => simpa using R
  | cons p ps ih =>
      obtain ⟨hne, hnd⟩ := List.nodup_cons.mp hnd
      obtain ⟨hroot, hoff⟩ := hp p List.mem_cons_self
      have R₁ := R.listAddTail (e := p) (h := .free) hoff (proc_link_ne_head hroot) hfree
      have R₂ := R₁.initListHead (h := .children p) (by simp [hc])
      have hp₂ : ∀ p' ∈ ps, p' ≠ root ∧
          ∀ h, p' ∉ Function.update q .free (q .free ++ [p]) h := by
        intro p' hm
        obtain ⟨hr, ho⟩ := hp p' (List.mem_cons_of_mem _ hm)
        refine ⟨hr, RepresentsOn.not_mem_insert (e := p) (by simp) ho ?_⟩
        rintro rfl
        exact hne hm
      have R₃ := ih R₂ hnd (Or.inr hfree) hp₂ (by simp [hc])
      have hS : S ∪ {h | h ∈ (p :: ps).map .children} =
          insert (.children p) S ∪ {h | h ∈ ps.map .children} := by
        ext h
        simp only [List.map_cons, List.mem_cons, Set.mem_union, Set.mem_ofPred_eq,
          Set.mem_insert_iff]
        tauto
      have hq : Function.update (Function.update q .free (q .free ++ [p])) .free
          (Function.update q .free (q .free ++ [p]) .free ++ ps) =
            Function.update q .free (q .free ++ p :: ps) := by
        simp
      rw [hS, ← hq]
      exact R₃

theorem boot_procs (hw : Hardware) :
    Represents procLayout (ssiLoaded hw).procLinks (bootView hw).procs := by
  have R₀ := RepresentsOn.empty procLayout ⟨fun _ => .null, fun _ => .null⟩
  have R₁ := (R₀.initListHead (h := .children root) rfl).initListHead (h := .free) rfl
  have R₂ := procs_loop (List.finRange MAXPROC).tail R₁
    (List.nodup_cons.mp (finRange_procs ▸ List.nodup_finRange MAXPROC)).2 (by simp)
    (fun p hp => ⟨mem_procs_tail.mp hp, by simp⟩) (by simp)
  rw [ssiLoaded, loadSsi_procLinks, initialised, msgqInit_keeps Kernel.procLinks fun _ _ => rfl,
    threadInit_keeps Kernel.procLinks fun _ _ => rfl, procInit_procLinks, represents_iff]
  have hS : (Set.univ : Set ProcList) =
      insert .free (insert (.children root) ∅) ∪
        {h | h ∈ (List.finRange MAXPROC).tail.map .children} := by
    ext h
    cases h with
    | free => simp
    | children p =>
        by_cases hp : p = root
        · simp [hp]
        · exact iff_of_true trivial (Or.inr (List.mem_map.mpr ⟨p, mem_procs_tail.mpr hp, rfl⟩))
  rw [hS]
  exact R₂

/-! ## The data -/

theorem boot_pcb (hw : Hardware) : (ssiLoaded hw).pcb = fun _ => {} := by
  have hone : ∀ (k : Kernel) p, k.pcb = (fun _ => {}) → (procInitOne k p).pcb = fun _ => {} := by
    intro k p hk
    funext q
    by_cases hq : q = p <;> simp [procInitOne, cleanMgr, Kernel.modPcb, hk, hq]
  have hroot : (procInitRoot (staticData hw)).pcb = fun _ => {} := by
    funext q
    by_cases hq : q = root <;> simp [procInitRoot, staticData, cleanMgr, Kernel.modPcb, hq]
  rw [ssiLoaded, (loadSsi_data hw _).1, initialised, msgqInit_keeps Kernel.pcb fun _ _ => rfl,
    threadInit_keeps Kernel.pcb fun _ _ => rfl, procInit_eq]
  exact foldl_holds (P := fun k : Kernel => k.pcb = fun _ => {}) hone _ hroot

theorem initialised_tcb (hw : Hardware) : (initialised hw).tcb = fun _ => {} := by
  have hproc : (procInit (staticData hw)).tcb = fun _ => {} := by
    rw [procInit_keeps Kernel.tcb (fun _ _ => rfl) fun _ => rfl]
    rfl
  have hone : ∀ (k : Kernel) i, k.tcb = (fun _ => {}) → (threadInitOne k i).tcb = fun _ => {} := by
    intro k i hk
    funext t
    by_cases ht : t = .thread i <;> simp [threadInitOne, cleanThreadData, Kernel.modTcb, hk, ht]
  rw [initialised, msgqInit_keeps Kernel.tcb fun _ _ => rfl, threadInit]
  exact foldl_holds (P := fun k : Kernel => k.tcb = fun _ => {}) hone _ hproc

theorem boot_tcb (hw : Hardware) : (ssiLoaded hw).tcb = (bootView hw).tcb := by
  have h := initialised_tcb hw
  generalize hk : initialised hw = k at h
  rw [ssiLoaded, hk]
  funext t
  by_cases ht : t = .ssi
  · simp [loadSsi, timeInit, initAndLoad, ssiThreadInit, threadEnqueue, Kernel.modTcb, bootView, h,
      ht]
  · simp [loadSsi, timeInit, initAndLoad, ssiThreadInit, threadEnqueue, Kernel.modTcb, bootView, h,
      ht]

theorem boot_msg (hw : Hardware) : (ssiLoaded hw).msg = fun _ => {} := by
  have hthread : (threadInit (procInit (staticData hw))).msg = fun _ => {} := by
    rw [threadInit_keeps Kernel.msg fun _ _ => rfl,
      procInit_keeps Kernel.msg (fun _ _ => rfl) fun _ => rfl]
    rfl
  have hone : ∀ (k : Kernel) m, k.msg = (fun _ => {}) → (msgqInitOne k m).msg = fun _ => {} := by
    intro k m hk
    funext n
    by_cases hn : n = m <;> simp [msgqInitOne, Kernel.modMsg, hk, hn]
  rw [ssiLoaded, (loadSsi_data hw _).2.1, initialised, msgqInit]
  exact foldl_holds (P := fun k : Kernel => k.msg = fun _ => {}) hone _ hthread

theorem boot_history (hw : Hardware) : (ssiLoaded hw).history = [] := by
  rw [ssiLoaded, (loadSsi_data hw _).2.2, initialised,
    msgqInit_keeps Kernel.history fun _ _ => rfl, threadInit_keeps Kernel.history fun _ _ => rfl,
    procInit_keeps Kernel.history (fun _ _ => rfl) fun _ => rfl]
  rfl

/-- The loops leave the globals alone. -/
theorem initialised_globals (hw : Hardware) :
    (initialised hw).globals = (staticData hw).globals := by
  rw [initialised, msgqInit_keeps Kernel.globals fun _ _ => rfl,
    threadInit_keeps Kernel.globals fun _ _ => rfl,
    procInit_keeps Kernel.globals (fun _ _ => rfl) fun _ => rfl]

theorem boot_refines (hw : Hardware) : Refines (ssiLoaded hw) (bootView hw) where
  procs := boot_procs hw
  threads := boot_threads hw
  sched := boot_sched hw
  msgs := boot_msgs hw
  pcb := (boot_pcb hw).symm
  tcb := (boot_tcb hw).symm
  msg := (boot_msg hw).symm
  globals := rfl
  history := (boot_history hw).symm

/-- The view of the prepared kernel: everything is free and in no queue. -/
def preparedView (hw : Hardware) : View where
  procs := (bootView hw).procs
  threads := (bootView hw).threads
  sched _ := []
  msgs := (bootView hw).msgs
  pcb := fun _ => {}
  tcb := Function.update (fun _ => {}) .ssi { tStatus := .ready }
  msg := fun _ => {}
  globals := (prepared hw).globals
  history := []

theorem prepared_refines (hw : Hardware) : Refines (prepared hw) (preparedView hw) := by
  obtain ⟨hprocs, hthreads, hmsgs, hpcb, hmsg, hhist⟩ := loadSsi_rest hw (initialised hw)
  refine ⟨?_, ?_, prepared_sched hw, ?_, ?_, ?_, ?_, rfl, ?_⟩
  · rw [prepared, hprocs]
    exact boot_procs hw
  · rw [prepared, hthreads]
    exact boot_threads hw
  · rw [prepared, hmsgs]
    exact boot_msgs hw
  · rw [prepared, hpcb]
    exact (boot_pcb hw).symm
  · rw [prepared, ssiThreadInit_tcb, initialised_tcb]
    rfl
  · rw [prepared, hmsg]
    exact (boot_msg hw).symm
  · rw [prepared, hhist]
    exact (boot_history hw).symm

/-! ## The invariant -/

theorem bootView_owner (hw : Hardware) (t : Tcb) : ((bootView hw).tcb t).tPcb = none := by
  by_cases ht : t = .ssi <;> simp [bootView, ht]

theorem bootView_count (hw : Hardware) : (bootView hw).globals.threadCount = 1 := by
  have hload : ∀ k, (loadSsi hw k).globals.threadCount = k.globals.threadCount + 1 := fun _ => rfl
  rw [bootView, ssiLoaded, hload, initialised_globals]
  rfl

/-- At boot no thread runs, the processor does not idle and the SSI has no request. -/
theorem bootView_processor (hw : Hardware) :
    (bootView hw).globals.currentThread = none ∧ (bootView hw).globals.isIdle = false ∧
      (bootView hw).globals.mode = .booting ∧ (bootView hw).globals.ssiPoint = .receiving := by
  have hload : ∀ k, (loadSsi hw k).globals.currentThread = k.globals.currentThread ∧
      (loadSsi hw k).globals.isIdle = k.globals.isIdle ∧
      (loadSsi hw k).globals.mode = k.globals.mode ∧
      (loadSsi hw k).globals.ssiPoint = k.globals.ssiPoint := fun _ => ⟨rfl, rfl, rfl, rfl⟩
  obtain ⟨hc, hi, hm, hp⟩ := hload (initialised hw)
  rw [bootView, ssiLoaded, hc, hi, hm, hp, initialised_globals]
  exact ⟨rfl, rfl, rfl, rfl⟩

theorem bootView_soft (hw : Hardware) (i : Fin 5) :
    (bootView hw).globals.softBlockedThread i = none := by
  have hload : ∀ k, (loadSsi hw k).globals.softBlockedThread = fun _ => none := fun _ => rfl
  rw [bootView, ssiLoaded, hload]

theorem bootView_inv (hw : Hardware) : (bootView hw).Inv none := by
  have hwf : WellFounded fun c p => ((bootView hw).pcb c).pParent = some p := by
    constructor
    intro p
    constructor
    intro c hc
    simp [bootView] at hc
  refine ⟨⟨?_, ?_, rfl, ?_, ?_, ?_, hwf⟩, ⟨?_, ?_, ?_, ?_⟩, ⟨?_, ?_, ?_, ?_, ?_⟩, ⟨?_, ?_, ?_, ?_⟩, ?_⟩
  · intro p
    simpa [bootView] using mem_procs_tail
  · intro p q
    simp [bootView]
  · intro p q hq
    simp [bootView] at hq
  · intro p _ _
    rfl
  · intro t p hp
    simp [bootView_owner] at hp
  · intro t
    cases t <;> simp [bootView]
  · intro t p
    rw [bootView_owner]
    simp [bootView]
  · intro t
    cases t <;> simp [bootView]
  · exact bootView_owner hw .ssi
  · intro t h ht
    cases h <;> simp [bootView] at ht
    subst ht
    simp [Fits, bootView]
  · simp
  · intro t ht
    cases t with
    | thread i => simp [bootView] at ht
    | ssi => exact Or.inr ⟨.readyq, by simp [bootView]⟩
  · simp
  · intro t _
    cases t <;> simp [bootView]
  · intro m
    exact ⟨.free, by simp [bootView]⟩
  · simp [bootView]
  · simp [bootView]
  · simp [bootView]
  · rw [View.Counted, bootView_count]
    simp [View.population, bootView_owner]

theorem bootView_ok (hw : Hardware) : Config.Ok ⟨bootView hw, none⟩ where
  real := ⟨_, boot_refines hw⟩
  inv := bootView_inv hw
  desk := by
    constructor
    · intro e he
      simp [View.mailbox, bootView] at he
    · intro h _ _ hp
      rw [(bootView_processor hw).2.2.2] at hp
      cases hp
  soft := by
    intro i
    simp [bootView_soft]

/-- The view of the state that `boot` leaves: the SSI and the first thread are ready. -/
def bootedView (hw : Hardware) : View :=
  (bootView hw).create (.thread 0) root (stateInit hw 2 hw.test SYS_MODE_INT_DISABLED)

theorem bootedView_ok {hw : Hardware} (hr : Realised (bootedView hw)) :
    Config.Ok ⟨bootedView hw, none⟩ := by
  have hfree : Tcb.thread 0 ∈ (bootView hw).threads .free := by
    simp [bootView]
  have a : Action .create ⟨bootView hw, none⟩ ⟨bootedView hw, none⟩ :=
    .create rfl hfree (Or.inl rfl)
  exact Move.ok' ⟨bootView_ok hw, a, hr⟩

/-- `boot` succeeds. -/
theorem boot_ok (hw : Hardware) : ∃ k, boot hw = .ok k ∧ Refines k (bootedView hw) := by
  have R := boot_refines hw
  have hq : (bootView hw).threads .free =
      .thread 0 :: (List.finRange MAXTHREAD).tail.map .thread := rfl
  obtain ⟨k, hk, R₁⟩ := R.threadAlloc_some (p := root) hq
  have hoff : ∀ h, Tcb.thread 0 ∉ ((bootView hw).hire (.thread 0) root).sched h := by
    intro h
    cases h <;> simp [View.hire, bootView]
  have R₂ := ((R₁.modTcb (.thread 0) fun d =>
    { d with tS := stateInit hw 2 hw.test SYS_MODE_INT_DISABLED }).enqueue hoff .readyq).addCount 1
  refine ⟨_, ?_, R₂⟩
  change (threadAlloc (ssiLoaded hw) (some root) >>= _) = _
  rw [hk]
  rfl

end MikaBoo
