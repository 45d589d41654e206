import Mathlib.Order.RelClasses
import Mathlib.Data.Fintype.Card
import Mathlib.Data.List.Basic

/-!
# Finite forests and their traversal

A forest is given by the parent of each node. `visit` is the depth-first
traversal that a recursion over lists of children makes; it lists the nodes
below its start.
-/

namespace Forest

variable {P A : Type*} {parent : P → Option P} {children : P → List P}

/-- `q` is `p` or a descendant of `p`. -/
def Below (parent : P → Option P) (q p : P) : Prop :=
  Relation.ReflTransGen (fun c q => parent c = some q) q p

/-- The forest has at most `n` levels from `p` on. -/
def Shallow (children : P → List P) : Nat → P → Prop
  | 0, _ => False
  | n + 1, p => ∀ c ∈ children p, Shallow children n c

/-- The traversal of `n` levels from `p` on, with what it does before and after
the children of each node. -/
def visit (children : P → List P) (pre post : P → List A) : Nat → P → List A
  | 0, _ => []
  | n + 1, p => pre p ++ (children p).flatMap (visit children pre post n) ++ post p

theorem Below.refl (p : P) : Below parent p p := Relation.ReflTransGen.refl

theorem Below.child {q c p : P} (h : Below parent q c) (hc : parent c = some p) :
    Below parent q p := Relation.ReflTransGen.tail h hc

/-- A node below `p` is `p` itself or below a child of `p`. -/
theorem below_iff {q p : P} :
    Below parent q p ↔ q = p ∨ ∃ c, parent c = some p ∧ Below parent q c := by
  rw [Below, Relation.ReflTransGen.cases_tail_iff]
  constructor
  · rintro (rfl | ⟨c, h, hc⟩)
    · exact Or.inl rfl
    · exact Or.inr ⟨c, hc, h⟩
  · rintro (rfl | ⟨c, hc, h⟩)
    · exact Or.inl rfl
    · exact Or.inr ⟨c, h, hc⟩

/-- Descent in a part of the forest. -/
theorem Below.mono {parent' : P → Option P} {q p : P} (h : Below parent' q p)
    (hp : ∀ c r, parent' c = some r → parent c = some r) : Below parent q p :=
  Relation.ReflTransGen.mono hp _ _ h

/-- Two forests that agree on a node and on its ancestors give it the same ancestors. -/
theorem below_congr {parent' : P → Option P} {p : P}
    (h : ∀ a, Below parent p a → parent' a = parent a) (q : P) :
    Below parent' p q ↔ Below parent p q := by
  constructor
  · intro hq
    induction hq with
    | refl => exact Below.refl p
    | tail _ hc ih => exact ih.child ((h _ ih).symm.trans hc)
  · intro hq
    induction hq with
    | refl => exact Below.refl p
    | tail ha hc ih => exact ih.child ((h _ ha).trans hc)

/-- A node without a parent is below itself only. -/
theorem Below.eq_of_top {q p : P} (h : Below parent q p) (hq : parent q = none) : q = p := by
  rw [Below, Relation.ReflTransGen.cases_head_iff] at h
  rcases h with rfl | ⟨r, hr, _⟩
  · rfl
  · rw [hq] at hr
    cases hr

section wellFounded

variable (wf : WellFounded fun c p => parent c = some p)

include wf

theorem not_transGen_self (p : P) :
    ¬ Relation.TransGen (fun c p => parent c = some p) p p :=
  fun h => wf.transGen.asymmetric p p h h

/-- A parent is not below its child. -/
theorem not_below_of_parent {c p : P} (hc : parent c = some p) : ¬ Below parent p c := by
  intro h
  exact not_transGen_self wf p (Relation.TransGen.tail' h hc)

/-- The subtrees of two siblings are disjoint. -/
theorem not_below_sibling {q c c' p : P} (hc : parent c = some p) (hc' : parent c' = some p)
    (hne : c ≠ c') (h : Below parent q c) : ¬ Below parent q c' := by
  intro h'
  have hu : Relator.RightUnique fun c q => parent c = some q := by
    intro a b b' h₁ h₂
    exact Option.some.inj (h₁.symm.trans h₂)
  -- the ancestors of a node form a chain
  rcases Relation.ReflTransGen.total_of_right_unique hu h h' with ht | ht
  · rcases Relation.ReflTransGen.cases_head ht with rfl | ⟨d, hd, hd'⟩
    · exact hne rfl
    · obtain rfl := Option.some.inj (hc.symm.trans hd)
      exact not_below_of_parent wf hc' hd'
  · rcases Relation.ReflTransGen.cases_head ht with rfl | ⟨d, hd, hd'⟩
    · exact hne rfl
    · obtain rfl := Option.some.inj (hc'.symm.trans hd)
      exact not_below_of_parent wf hc hd'

/-- In a finite forest the ancestors of a node end: with the root, when every other
node that `alive` holds of has a parent that it holds of. -/
theorem below_root [Finite P] {alive : P → Prop} {root p : P}
    (hup : ∀ p, alive p → p = root ∨ ∃ q, parent p = some q ∧ alive q) (hp : alive p) :
    Below parent p root := by
  let above : P → P → Prop := fun q p => Relation.TransGen (fun c p => parent c = some p) p q
  have : IsTrans P above := ⟨fun _ _ _ h₁ h₂ => h₂.trans h₁⟩
  have : Std.Irrefl above := ⟨not_transGen_self wf⟩
  have hwf : WellFounded above := Finite.wellFounded_of_trans_of_irrefl above
  induction p using hwf.induction with
  | _ p ih =>
      rcases hup p hp with rfl | ⟨q, hq, hlive⟩
      · exact Below.refl p
      · exact Relation.ReflTransGen.head hq (ih q (Relation.TransGen.single hq) hlive)

/-- With the distinct ancestors `anc` above `p`, there are few levels left below it. -/
theorem shallow_of_ancestors [Fintype P] (hchildren : ∀ {c p}, c ∈ children p → parent c = some p)
    {n : Nat} {p : P} {anc : List P} (hnd : anc.Nodup)
    (hanc : ∀ a ∈ anc, Relation.TransGen (fun c p => parent c = some p) p a)
    (hn : Fintype.card P ≤ anc.length + n) : Shallow children n p := by
  have hp : (p :: anc).Nodup :=
    List.nodup_cons.mpr ⟨fun hm => not_transGen_self wf p (hanc p hm), hnd⟩
  induction n generalizing p anc with
  | zero =>
      have hl := hp.length_le_card
      simp only [List.length_cons] at hl
      omega
  | succ n ih =>
      intro c hc
      have hup : ∀ a ∈ p :: anc, Relation.TransGen (fun c p => parent c = some p) c a := by
        intro a ha
        rcases List.mem_cons.mp ha with rfl | ha
        · exact Relation.TransGen.single (hchildren hc)
        · exact Relation.TransGen.head (hchildren hc) (hanc a ha)
      apply ih hp hup
      · simp only [List.length_cons]
        omega
      · exact List.nodup_cons.mpr ⟨fun hm => not_transGen_self wf c (hup c hm), hp⟩

/-- A forest has at most as many levels as nodes. -/
theorem shallow_card [Fintype P] (hchildren : ∀ {c p}, c ∈ children p → parent c = some p)
    (p : P) : Shallow children (Fintype.card P) p :=
  shallow_of_ancestors wf hchildren List.nodup_nil (by simp) (by simp)

end wellFounded

/-- A complete traversal does what belongs to the nodes below its start. -/
theorem mem_visit (parent : P → Option P) {pre post : P → List A}
    (hchildren : ∀ {c p}, c ∈ children p ↔ parent c = some p)
    {n : Nat} {p : P} (hs : Shallow children n p) {a : A} :
    a ∈ visit children pre post n p ↔ ∃ q, Below parent q p ∧ (a ∈ pre q ∨ a ∈ post q) := by
  induction n generalizing p with
  | zero => exact hs.elim
  | succ n ih =>
      simp only [visit, List.mem_append, List.mem_flatMap]
      constructor
      · rintro ((h | ⟨c, hc, h⟩) | h)
        · exact ⟨p, Below.refl p, Or.inl h⟩
        · obtain ⟨q, hq, h⟩ := (ih (hs c hc)).mp h
          exact ⟨q, hq.child (hchildren.mp hc), h⟩
        · exact ⟨p, Below.refl p, Or.inr h⟩
      · rintro ⟨q, hq, h⟩
        rcases below_iff.mp hq with rfl | ⟨c, hc, hq⟩
        · exact h.elim (fun h => Or.inl (Or.inl h)) Or.inr
        · have hm := hchildren.mpr hc
          exact Or.inl (Or.inr ⟨c, hm, (ih (hs c hm)).mpr ⟨q, hq, h⟩⟩)

/-- A traversal depends on the nodes below its start only. -/
theorem visit_congr (parent : P → Option P) {children' : P → List P}
    {pre post pre' post' : P → List A}
    (hchildren : ∀ {c p}, c ∈ children p → parent c = some p) {n : Nat} {p : P}
    (h : ∀ q, Below parent q p → children' q = children q ∧ pre' q = pre q ∧ post' q = post q) :
    visit children' pre' post' n p = visit children pre post n p := by
  induction n generalizing p with
  | zero => rfl
  | succ n ih =>
      obtain ⟨hc, hpre, hpost⟩ := h p (Below.refl p)
      have hmap : (children p).flatMap (visit children' pre' post' n) =
          (children p).flatMap (visit children pre post n) := by
        apply List.flatMap_congr
        intro c hm
        exact ih fun q hq => h q (hq.child (hchildren hm))
      simp only [visit, hc, hpre, hpost, hmap]

/-- So does the number of levels. -/
theorem Shallow.congr (parent : P → Option P) {children' : P → List P}
    (hchildren : ∀ {c p}, c ∈ children p → parent c = some p) {n : Nat} {p : P}
    (h : ∀ q, Below parent q p → children' q = children q) (hs : Shallow children n p) :
    Shallow children' n p := by
  induction n generalizing p with
  | zero => exact hs
  | succ n ih =>
      intro c hc
      rw [h p (Below.refl p)] at hc
      exact ih (fun q hq => h q (hq.child (hchildren hc))) (hs c hc)

end Forest
