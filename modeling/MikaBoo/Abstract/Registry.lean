import MikaBoo.Library.Forest
import MikaBoo.Library.Runs

/-!
# The registry of processes

What the SSI does apart from device requests and the clock. It keeps a tree of processes, the
threads of each and their managers, changes these at the request of threads, and answers questions
about them.
-/

namespace MikaBoo

open Transition Forest

/-- A tree of processes. The server is a thread without a process; the others without one are
free. -/
@[ext]
structure Registry (P T R : Type*) where
  root : P
  server : T
  parent : P → Option P
  home : T → Option P
  manager : P → R → Option T
  root_parent : parent root = none
  server_home : home server = none
  rooted : ∀ p, parent p ≠ none → Below parent p root
  home_alive : ∀ t p, home t = some p → p = root ∨ parent p ≠ none
  cleared : ∀ p, p ≠ root → parent p = none → ∀ r, manager p r = none

/-- What a thread may ask for. -/
inductive Order (P T R : Type*)
  | createProcess
  | createThread
  | terminateProcess
  | terminateThread
  /-- No manager is a request that is refused. -/
  | appoint (role : R) (manager : Option T)
  | homeOf (t : T)
  | parentOf (p : P)
  /-- It is not about the registry. -/
  | other
deriving DecidableEq

namespace Registry

variable {P T R V : Type*} {D : Registry P T R} {p q r : P} {t : T}

def Alive (D : Registry P T R) (p : P) : Prop := p = D.root ∨ D.parent p ≠ none

/-- Neither a thread of a process nor the server. -/
def Free (D : Registry P T R) (t : T) : Prop := t ≠ D.server ∧ D.home t = none

theorem below_root (hp : D.Alive p) : Below D.parent p D.root := by
  rcases hp with rfl | hp
  · exact Below.refl _
  · exact D.rooted p hp

theorem alive_parent (h : D.parent p = some q) : D.Alive q := by
  have hb : Below D.parent p D.root := D.rooted p (by simp [h])
  rcases Relation.ReflTransGen.cases_head hb with rfl | ⟨q', hq', hb⟩
  · rw [D.root_parent] at h
    cases h
  · obtain rfl := Option.some.inj (h.symm.trans hq')
    rcases Relation.ReflTransGen.cases_head hb with rfl | ⟨a, ha, _⟩
    · exact Or.inl rfl
    · exact Or.inr (by simp [ha])

theorem alive_above (hp : D.Alive p) (h : Below D.parent p q) : D.Alive q := by
  induction h with
  | refl => exact hp
  | tail _ hc _ => exact alive_parent hc

theorem alive_home (h : D.home t = some p) : D.Alive p := D.home_alive t p h

section changes

variable (D)

open Classical in
/-- The process `p` and its descendants end with all their threads. The root process itself
remains. -/
noncomputable def dissolve (p : P) : Registry P T R where
  root := D.root
  server := D.server
  parent q := if Below D.parent q p then none else D.parent q
  home t := (D.home t).filter fun q => ¬ Below D.parent q p
  manager q := if Below D.parent q p ∧ q ≠ D.root then fun _ => none else D.manager q
  root_parent := by simp [D.root_parent]
  server_home := by simp [D.server_home]
  rooted := by
    intro q hq
    have hb : ¬ Below D.parent q p := fun hb => hq (if_pos hb)
    rw [if_neg hb] at hq
    refine (below_congr (fun a ha => if_neg ?_) D.root).mpr (D.rooted q hq)
    exact fun hap => hb (Relation.ReflTransGen.trans ha hap)
  home_alive := by
    intro t q hq
    obtain ⟨hq, hb⟩ := Option.filter_eq_some_iff.mp hq
    rw [if_neg (by simpa using hb)]
    exact D.home_alive t q hq
  cleared := by
    intro q hroot hq r
    by_cases hb : Below D.parent q p
    · rw [if_pos ⟨hb, hroot⟩]
    · rw [if_neg hb] at hq
      rw [if_neg fun h => hb h.1, D.cleared q hroot hq]

theorem dissolve_parent (h : ¬ Below D.parent q p) : (D.dissolve p).parent q = D.parent q := if_neg h

theorem dissolve_parent_below (h : Below D.parent q p) : (D.dissolve p).parent q = none := if_pos h

theorem dissolve_home (h : ∀ q, D.home t = some q → ¬ Below D.parent q p) :
    (D.dissolve p).home t = D.home t := by
  cases ho : D.home t with
  | none => simp [dissolve, ho]
  | some q => simp [dissolve, ho, h q ho]

theorem dissolve_home_below (h : D.home t = some q) (hb : Below D.parent q p) :
    (D.dissolve p).home t = none := by
  simp [dissolve, h, hb]

theorem dissolve_manager (h : ¬ (Below D.parent q p ∧ q ≠ D.root)) :
    (D.dissolve p).manager q = D.manager q := if_neg h

theorem dissolve_manager_below (hb : Below D.parent q p) (hroot : q ≠ D.root) :
    (D.dissolve p).manager q = fun _ => none := if_pos ⟨hb, hroot⟩

section found

variable [DecidableEq P]

/-- A new process `p` under `r`. -/
def found (p r : P) (hp : ¬ D.Alive p) (hr : D.Alive r) : Registry P T R where
  root := D.root
  server := D.server
  parent := Function.update D.parent p (some r)
  home := D.home
  manager := D.manager
  root_parent := by
    have hne : D.root ≠ p := fun h => hp (Or.inl h.symm)
    rw [Function.update_of_ne hne, D.root_parent]
  server_home := D.server_home
  rooted := by
    -- no ancestor of a process is the new one
    have hold : ∀ q, D.Alive q → Below (Function.update D.parent p (some r)) q D.root := by
      intro q hq
      refine (below_congr (fun a ha => ?_) D.root).mpr (below_root hq)
      refine Function.update_of_ne ?_ _ _
      rintro rfl
      exact hp (alive_above hq ha)
    intro q hq
    by_cases hqp : q = p
    · subst hqp
      exact Relation.ReflTransGen.head (by simp) (hold r hr)
    · rw [Function.update_of_ne hqp] at hq
      exact hold q (Or.inr hq)
  home_alive := by
    intro t q hq
    by_cases hqp : q = p
    · exact Or.inr (by simp [hqp])
    · rw [Function.update_of_ne hqp]
      exact D.home_alive t q hq
  cleared := by
    intro q hroot hq
    have hqp : q ≠ p := by
      rintro rfl
      simp at hq
    rw [Function.update_of_ne hqp] at hq
    exact D.cleared q hroot hq

theorem alive_found (hp : ¬ D.Alive p) (hr : D.Alive r) : (D.found p r hp hr).Alive p := by
  right
  simp [found]

end found

variable [DecidableEq T]

/-- A free thread becomes a thread of `p`. -/
def employ (t : T) (p : P) (ht : t ≠ D.server) (hp : D.Alive p) : Registry P T R where
  root := D.root
  server := D.server
  parent := D.parent
  home := Function.update D.home t (some p)
  manager := D.manager
  root_parent := D.root_parent
  server_home := by rw [Function.update_of_ne ht.symm, D.server_home]
  rooted := D.rooted
  home_alive := by
    intro u q hu
    by_cases hut : u = t
    · subst hut
      obtain rfl : p = q := by simpa using hu
      exact hp
    · rw [Function.update_of_ne hut] at hu
      exact D.home_alive u q hu
  cleared := D.cleared

theorem employ_congr {D D' : Registry P T R} {t : T} {p : P} {ht : t ≠ D.server} {hp : D.Alive p}
    {ht' : t ≠ D'.server} {hp' : D'.Alive p} (h : D = D') :
    D.employ t p ht hp = D'.employ t p ht' hp' := by
  subst h
  rfl

/-- A thread is freed. -/
def dismiss (t : T) : Registry P T R where
  root := D.root
  server := D.server
  parent := D.parent
  home := Function.update D.home t none
  manager := D.manager
  root_parent := D.root_parent
  server_home := by
    by_cases ht : D.server = t
    · simp [ht]
    · rw [Function.update_of_ne ht, D.server_home]
  rooted := D.rooted
  home_alive := by
    intro u q hu
    by_cases hut : u = t
    · subst hut
      simp at hu
    · rw [Function.update_of_ne hut] at hu
      exact D.home_alive u q hu
  cleared := D.cleared

variable [DecidableEq P] [DecidableEq R]

/-- The process `p` gets a manager. -/
def appoint (p : P) (role : R) (m : T) (hp : D.Alive p) : Registry P T R where
  root := D.root
  server := D.server
  parent := D.parent
  home := D.home
  manager := Function.update D.manager p (Function.update (D.manager p) role (some m))
  root_parent := D.root_parent
  server_home := D.server_home
  rooted := D.rooted
  home_alive := D.home_alive
  cleared := by
    intro q hroot hq
    have hqp : q ≠ p := by
      rintro rfl
      exact hp.elim hroot fun h => h hq
    rw [Function.update_of_ne hqp]
    exact D.cleared q hroot hq

/-- `D` serves an order of `t`, with an answer or none. References to threads and processes are
sent as `thread` and `process` say. -/
inductive Serves (thread : Option T → V) (process : Option P → V) (t : T) :
    Order P T R → Option V → Registry P T R → Prop
  | createProcess {p r : P} {u : T} (home : D.home t = some r) (hp : ¬ D.Alive p) (hu : D.Free u) :
      Serves thread process t .createProcess (some (thread (some u)))
        ((D.found p r hp (alive_home home)).employ u p hu.1 (D.alive_found hp _))
  | noProcess (full : D.home t = none ∨ (∀ p, D.Alive p) ∨ ∀ u, ¬ D.Free u) :
      Serves thread process t .createProcess (some (thread none)) D
  | createThread {r : P} {u : T} (home : D.home t = some r) (hu : D.Free u) :
      Serves thread process t .createThread (some (thread (some u)))
        (D.employ u r hu.1 (alive_home home))
  | noThread (full : D.home t = none ∨ ∀ u, ¬ D.Free u) :
      Serves thread process t .createThread (some (thread none)) D
  | terminateProcess {p : P} (home : D.home t = some p) :
      Serves thread process t .terminateProcess none (D.dissolve p)
  | terminateThread (sibling : ∀ p, D.home t = some p → ∃ u ≠ t, D.home u = some p) :
      Serves thread process t .terminateThread none (D.dismiss t)
  /-- A process ends with its last thread. -/
  | lastThread {p : P} (home : D.home t = some p) (last : ∀ u, D.home u = some p → u = t) :
      Serves thread process t .terminateThread none (D.dissolve p)
  | noManager {role : R} : Serves thread process t (.appoint role none) (some (thread none)) D
  | appoint {role : R} {m : T} {p : P} (home : D.home t = some p) (vacant : D.manager p role = none) :
      Serves thread process t (.appoint role (some m)) (some (thread (some m)))
        (D.appoint p role m (alive_home home))
  /-- Whoever sets a manager for the second time is terminated. -/
  | secondManager {role : R} {m : T} {p : P} (home : D.home t = some p) (taken : D.manager p role ≠ none) :
      Serves thread process t (.appoint role (some m)) none (D.dissolve p)
  | homeOf {u : T} : Serves thread process t (.homeOf u) (some (process (D.home u))) D
  | parentOf {p : P} : Serves thread process t (.parentOf p) (some (process (D.parent p))) D
  | other {o : Option V} : Serves thread process t .other o D

/-- One thread of the root process. -/
def initial (root : P) (server first : T) (hne : first ≠ server) : Registry P T R where
  root := root
  server := server
  parent _ := none
  home := Function.update (fun _ => none) first (some root)
  manager _ _ := none
  root_parent := rfl
  server_home := Function.update_of_ne hne.symm _ _
  rooted _ hp := absurd rfl hp
  home_alive := by
    intro t p h
    by_cases ht : t = first
    · subst ht
      exact Or.inl (by simpa using h.symm)
    · simp [ht] at h
  cleared _ _ _ _ := rfl

end changes

/-- An order, and the messages that the server sends when it serves it. -/
structure Transaction (P T R V : Type*) where
  applicant : T
  order : Order P T R
  messages : List (T × V)
deriving DecidableEq

variable [DecidableEq P] [DecidableEq T] [DecidableEq R]

/-- The registry serves an order, and tells the applicant and nobody else. -/
def Step (thread : Option T → V) (process : Option P → V) (D : Registry P T R)
    (x : Transaction P T R V) (D' : Registry P T R) : Prop :=
  ∃ o, D.Serves thread process x.applicant x.order o D' ∧
    x.messages = o.toList.map (x.applicant, ·)

end Registry

end MikaBoo
