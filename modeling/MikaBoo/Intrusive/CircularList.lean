import Mathlib.Data.List.Nodup
import Mathlib.Logic.Function.Basic

/-!
# Intrusive circular doubly linked lists

A list node is any value of a type `N`; the links of all nodes are one pair of
functions. A list is entered through a sentinel node, and the node type does
not say which nodes are sentinels: the same node may be one or the other.

## Implementation notes

`Seg` describes an open segment by recursion on the nodes between its ends, so
insertion and removal are statements about concatenation of segments.
-/

namespace Intrusive

variable {N : Type*} [DecidableEq N]

/-- The `next` and `prev` fields of every node. -/
@[ext]
structure Links (N : Type*) where
  next : N → N
  prev : N → N

namespace Links

/-- Assignment to one `next` field. -/
def setNext (L : Links N) (a b : N) : Links N :=
  { L with next := Function.update L.next a b }

/-- Assignment to one `prev` field. -/
def setPrev (L : Links N) (a b : N) : Links N :=
  { L with prev := Function.update L.prev a b }

@[simp] theorem setNext_next (L : Links N) (a b : N) :
    (L.setNext a b).next = Function.update L.next a b := rfl

@[simp] theorem setNext_prev (L : Links N) (a b : N) : (L.setNext a b).prev = L.prev := rfl

@[simp] theorem setPrev_prev (L : Links N) (a b : N) :
    (L.setPrev a b).prev = Function.update L.prev a b := rfl

@[simp] theorem setPrev_next (L : Links N) (a b : N) : (L.setPrev a b).next = L.next := rfl

/-- `INIT_LIST_HEAD`. -/
def initListHead (L : Links N) (list : N) : Links N :=
  (L.setNext list list).setPrev list list

/-- `__list_add`: the four assignments in source order. -/
def rawListAdd (L : Links N) (new prev next : N) : Links N :=
  (((L.setPrev next new).setNext new next).setPrev new prev).setNext prev new

/-- `list_add`. -/
def listAdd (L : Links N) (new head : N) : Links N :=
  L.rawListAdd new head (L.next head)

/-- `list_add_tail`. -/
def listAddTail (L : Links N) (new head : N) : Links N :=
  L.rawListAdd new (L.prev head) head

/-- `__list_del`. -/
def rawListDel (L : Links N) (prev next : N) : Links N :=
  (L.setPrev next prev).setNext prev next

/-- `list_del`: the removed node keeps its own two fields. -/
def listDel (L : Links N) (entry : N) : Links N :=
  L.rawListDel (L.prev entry) (L.next entry)

/-- `list_is_only`. -/
def listIsOnly (L : Links N) (link head : N) : Bool :=
  L.next link = head ∧ L.prev link = head

/-- `list_empty`. -/
def listEmpty (L : Links N) (head : N) : Bool :=
  L.next head = head

/-- `list_next`: `none` is the NULL it returns on an empty list. -/
def listNext (L : Links N) (current : N) : Option N :=
  if L.listEmpty current then none else some (L.next current)

/-- The nodes met by following `next` from `a`, stopping at `stop` or after
`fuel` nodes. -/
def walk (L : Links N) (stop : N) : Nat → N → List N
  | 0, _ => []
  | fuel + 1, a =>
      if L.next a = stop then [] else L.next a :: L.walk stop fuel (L.next a)

/-- `Seg L a xs b`: following `next` from `a` meets exactly `xs` and then `b`,
and `prev` leads back. -/
def Seg (L : Links N) (a : N) : List N → N → Prop
  | [], b => L.next a = b ∧ L.prev b = a
  | x :: xs, b => (L.next a = x ∧ L.prev x = a) ∧ L.Seg x xs b

/-- A well-formed circular list with sentinel `h` and nodes `xs`. -/
structure Circ (L : Links N) (h : N) (xs : List N) : Prop where
  seg : L.Seg h xs h
  nodup : (h :: xs).Nodup

variable {L : Links N} {a b c h n : N} {xs ys : List N}

omit [DecidableEq N] in
theorem seg_append : L.Seg a (xs ++ c :: ys) b ↔ L.Seg a xs c ∧ L.Seg c ys b := by
  induction xs generalizing a with
  | nil => simp [Seg]
  | cons x xs ih => simp only [List.cons_append, Seg, ih, and_assoc]

omit [DecidableEq N] in
/-- A segment only depends on the `next` fields before its end and the `prev`
fields after its start. -/
theorem Seg.congr {L' : Links N} (hs : L.Seg a xs b)
    (hn : ∀ x ∈ a :: xs, L'.next x = L.next x)
    (hp : ∀ x ∈ b :: xs, L'.prev x = L.prev x) : L'.Seg a xs b := by
  induction xs generalizing a with
  | nil =>
      obtain ⟨h₁, h₂⟩ := hs
      exact ⟨by rw [hn a (by simp), h₁], by rw [hp b (by simp), h₂]⟩
  | cons x xs ih =>
      obtain ⟨⟨h₁, h₂⟩, h₃⟩ := hs
      refine ⟨⟨by rw [hn a (by simp), h₁], by rw [hp x (by simp), h₂]⟩, ih h₃ ?_ ?_⟩
      · intro y hy
        exact hn y (List.mem_cons_of_mem _ hy)
      · intro y hy
        apply hp
        rcases List.mem_cons.mp hy with rfl | hy
        · exact List.mem_cons_self
        · exact List.mem_cons_of_mem _ (List.mem_cons_of_mem _ hy)

omit [DecidableEq N] in
/-- The `prev` of the end of a segment is its start or one of its nodes. -/
theorem Seg.prev_mem (hs : L.Seg a xs b) : L.prev b ∈ a :: xs := by
  induction xs generalizing a with
  | nil => simp [hs.2]
  | cons x xs ih => exact List.mem_cons_of_mem _ (ih hs.2)

omit [DecidableEq N] in
/-- The `next` of the start of a segment is its end or one of its nodes. -/
theorem Seg.next_mem (hs : L.Seg a xs b) : L.next a ∈ b :: xs := by
  cases xs with
  | nil => simp [hs.1]
  | cons x xs => simp [hs.1.1]

omit [DecidableEq N] in
/-- Redirecting the last link of a segment to `c` gives the same nodes, ending in `c`. -/
theorem Seg.relink_end {L' : Links N} (hs : L.Seg a xs b) (hnd : (a :: xs).Nodup)
    (hn : ∀ x ∈ a :: xs, x ≠ L.prev b → L'.next x = L.next x)
    (hp : ∀ x ∈ xs, L'.prev x = L.prev x)
    (hnext : L'.next (L.prev b) = c) (hprev : L'.prev c = L.prev b) : L'.Seg a xs c := by
  induction xs generalizing a with
  | nil =>
      obtain ⟨_, h₂⟩ := hs
      rw [h₂] at hnext hprev
      exact ⟨hnext, hprev⟩
  | cons x xs ih =>
      obtain ⟨⟨h₁, h₂⟩, h₃⟩ := hs
      have hne : a ≠ L.prev b := by
        intro e
        exact (List.nodup_cons.mp hnd).1 (e ▸ h₃.prev_mem)
      refine ⟨⟨by rw [hn a (by simp) hne, h₁], by rw [hp x (by simp), h₂]⟩, ?_⟩
      apply ih h₃ (List.nodup_cons.mp hnd).2
      · intro y hy
        exact hn y (List.mem_cons_of_mem _ hy)
      · intro y hy
        exact hp y (List.mem_cons_of_mem _ hy)

omit [DecidableEq N] in
/-- Redirecting the first link of a segment to come from `c` gives the same
nodes, starting in `c`. -/
theorem Seg.relink_start {L' : Links N} (hs : L.Seg a xs b) (hnd : (b :: xs).Nodup)
    (hn : ∀ x ∈ xs, L'.next x = L.next x)
    (hp : ∀ x ∈ b :: xs, x ≠ L.next a → L'.prev x = L.prev x)
    (hnext : L'.next c = L.next a) (hprev : L'.prev (L.next a) = c) : L'.Seg c xs b := by
  cases xs with
  | nil =>
      obtain ⟨h₁, _⟩ := hs
      rw [h₁] at hnext hprev
      exact ⟨hnext, hprev⟩
  | cons x xs =>
      obtain ⟨⟨h₁, _⟩, h₃⟩ := hs
      rw [h₁] at hnext hprev hp
      refine ⟨⟨hnext, hprev⟩, h₃.congr hn ?_⟩
      intro y hy
      apply hp y
      · rcases List.mem_cons.mp hy with rfl | hy
        · exact List.mem_cons_self
        · exact List.mem_cons_of_mem _ (List.mem_cons_of_mem _ hy)
      · rintro rfl
        simp only [List.nodup_cons, List.mem_cons, not_or] at hnd
        rcases List.mem_cons.mp hy with rfl | hy
        · exact hnd.1.1 rfl
        · exact hnd.2.1 hy

omit [DecidableEq N] in
/-- A well-formed list only depends on the fields of its own nodes. -/
theorem Circ.congr {L' : Links N} (hc : L.Circ h xs)
    (hn : ∀ x ∈ h :: xs, L'.next x = L.next x)
    (hp : ∀ x ∈ h :: xs, L'.prev x = L.prev x) : L'.Circ h xs :=
  ⟨hc.seg.congr hn hp, hc.nodup⟩

omit [DecidableEq N] in
theorem circ_nil : L.Circ h [] ↔ L.next h = h ∧ L.prev h = h :=
  ⟨fun hc => hc.seg, fun hc => ⟨hc, by simp⟩⟩

theorem circ_initListHead : (L.initListHead h).Circ h [] := by
  rw [circ_nil]
  simp [initListHead]

/-- `list_add_tail` appends a node that was in no list. -/
theorem Circ.listAddTail (hc : L.Circ h xs) (hn : n ∉ h :: xs) :
    (L.listAddTail n h).Circ h (xs ++ [n]) := by
  have hnh : n ≠ h := fun e => hn (by simp [e])
  have hpn : L.prev h ≠ n := fun e => hn (e ▸ hc.seg.prev_mem)
  have hhx : h ∉ xs := (List.nodup_cons.mp hc.nodup).1
  refine ⟨seg_append.mpr ⟨?_, ?_⟩, ?_⟩
  · apply hc.seg.relink_end hc.nodup
    · intro x hx hne
      have hxn : x ≠ n := fun e => hn (e ▸ hx)
      simp [Links.listAddTail, rawListAdd, hne, hxn]
    · intro x hx
      have hxn : x ≠ n := fun e => hn (e ▸ List.mem_cons_of_mem _ hx)
      have hxh : x ≠ h := fun e => hhx (e ▸ hx)
      simp [Links.listAddTail, rawListAdd, hxn, hxh]
    · simp [Links.listAddTail, rawListAdd]
    · simp [Links.listAddTail, rawListAdd]
  · simp [Seg, Links.listAddTail, rawListAdd, hpn.symm, hnh.symm]
  · have hnd := hc.nodup
    rw [← List.cons_append, List.nodup_append]
    refine ⟨hnd, by simp, ?_⟩
    intro x hx y hy e
    obtain rfl := List.mem_singleton.mp hy
    exact hn (e ▸ hx)

/-- `list_add` prepends a node that was in no list. -/
theorem Circ.listAdd (hc : L.Circ h xs) (hn : n ∉ h :: xs) :
    (L.listAdd n h).Circ h (n :: xs) := by
  have hnh : n ≠ h := fun e => hn (by simp [e])
  have hnn : L.next h ≠ n := fun e => hn (e ▸ hc.seg.next_mem)
  have hhx : h ∉ xs := (List.nodup_cons.mp hc.nodup).1
  refine ⟨⟨?_, ?_⟩, ?_⟩
  · simp [Links.listAdd, rawListAdd]
  · apply hc.seg.relink_start hc.nodup
    · intro x hx
      have hxn : x ≠ n := fun e => hn (e ▸ List.mem_cons_of_mem _ hx)
      have hxh : x ≠ h := fun e => hhx (e ▸ hx)
      simp [Links.listAdd, rawListAdd, hxn, hxh]
    · intro x hx hne
      have hxn : x ≠ n := fun e => hn (e ▸ hx)
      simp [Links.listAdd, rawListAdd, hne, hxn]
    · simp [Links.listAdd, rawListAdd, hnh]
    · simp [Links.listAdd, rawListAdd, hnn]
  · have hnd := hc.nodup
    simp only [List.nodup_cons, List.mem_cons, not_or] at hn hnd ⊢
    exact ⟨⟨hnh.symm, hnd.1⟩, hn.2, hnd.2⟩

omit [DecidableEq N] in
/-- The neighbours of a listed node are listed, or the sentinel. -/
theorem Circ.neighbours (hc : L.Circ h xs) (hn : n ∈ xs) :
    L.prev n ∈ h :: xs ∧ L.next n ∈ h :: xs := by
  obtain ⟨ys, zs, rfl⟩ := List.append_of_mem hn
  obtain ⟨hy, hz⟩ := seg_append.mp hc.seg
  constructor
  · have := hy.prev_mem
    grind
  · have := hz.next_mem
    grind

/-- `list_del` changes nothing when the neighbours of the node are adjacent already. -/
theorem listDel_eq_self : L.listDel n = L ↔
    L.prev (L.next n) = L.prev n ∧ L.next (L.prev n) = L.next n := by
  have hext : L.listDel n = L ↔
      Function.update L.next (L.prev n) (L.next n) = L.next ∧
        Function.update L.prev (L.next n) (L.prev n) = L.prev := by
    cases L
    simp [Links.listDel, rawListDel, setNext, setPrev]
  rw [hext, Function.update_eq_self_iff, Function.update_eq_self_iff]
  constructor
  · rintro ⟨h₁, h₂⟩
    exact ⟨h₂.symm, h₁.symm⟩
  · rintro ⟨h₁, h₂⟩
    exact ⟨h₂.symm, h₁.symm⟩

/-- A second `list_del` of the same node changes nothing. -/
theorem listDel_listDel : (L.listDel n).listDel n = L.listDel n := by
  have hnext : (L.listDel n).next n = L.next n := by
    simp [Links.listDel, rawListDel, Function.update_apply]
  have hprev : (L.listDel n).prev n = L.prev n := by
    simp [Links.listDel, rawListDel, Function.update_apply]
  rw [listDel_eq_self, hnext, hprev]
  simp [Links.listDel, rawListDel]

/-- `list_del` takes a node out of the list it is in. -/
theorem Circ.listDel (hc : L.Circ h (xs ++ n :: ys)) :
    (L.listDel n).Circ h (xs ++ ys) := by
  obtain ⟨hx, hy⟩ := seg_append.mp hc.seg
  have hnd := hc.nodup
  have hperm : (n :: h :: (xs ++ ys)).Nodup := by
    refine hnd.perm (List.Perm.trans ?_ (List.Perm.swap _ _ _))
    exact List.Perm.cons _ List.perm_middle
  have hnn := (List.nodup_cons.mp hperm).1
  have hnd' := (List.nodup_cons.mp hperm).2
  have hp := hx.prev_mem
  have hq := hy.next_mem
  have hpy : ∀ y ∈ ys, y ≠ L.prev n := by
    rintro y hy' rfl
    simp only [List.nodup_cons, List.nodup_append, List.mem_append, not_or] at hnd'
    rcases List.mem_cons.mp hp with e | hp
    · exact hnd'.1.2 (e ▸ hy')
    · exact hnd'.2.2.2 _ hp _ hy' rfl
  have hqx : ∀ x ∈ xs, x ≠ L.next n := by
    rintro x hx' rfl
    simp only [List.nodup_cons, List.nodup_append, List.mem_append, not_or] at hnd'
    rcases List.mem_cons.mp hq with e | hq
    · exact hnd'.1.1 (e ▸ hx')
    · exact hnd'.2.2.2 _ hx' _ hq rfl
  have hleft : (L.listDel n).Seg h xs (L.next n) := by
    apply hx.relink_end (hnd'.sublist (by simp))
    · intro x _ hne
      simp [Links.listDel, rawListDel, hne]
    · intro x hx'
      simp [Links.listDel, rawListDel, hqx x hx']
    · simp [Links.listDel, rawListDel]
    · simp [Links.listDel, rawListDel]
  refine ⟨?_, hnd'⟩
  cases ys with
  | nil =>
      have e : L.next n = h := hy.1
      simpa [e] using hleft
  | cons y ys =>
      obtain ⟨⟨e, _⟩, hy'⟩ := hy
      rw [e] at hleft
      refine seg_append.mpr ⟨hleft, hy'.congr ?_ ?_⟩
      · intro x hx'
        simp [Links.listDel, rawListDel, hpy x hx']
      · intro x hx'
        have hne : x ≠ y := by
          rintro rfl
          simp only [List.nodup_cons, List.nodup_append, List.mem_append, List.mem_cons,
            not_or] at hnd'
          rcases List.mem_cons.mp hx' with rfl | hx'
          · exact hnd'.1.2.1 rfl
          · exact hnd'.2.2.1.1 hx'
        simp [Links.listDel, rawListDel, e, hne]

omit [DecidableEq N] in
theorem Circ.next_head (hc : L.Circ h xs) : L.next h = xs.head?.getD h := by
  cases xs with
  | nil => exact hc.seg.1
  | cons x xs => exact hc.seg.1.1

theorem Circ.listEmpty (hc : L.Circ h xs) : L.listEmpty h = xs.isEmpty := by
  have hn := hc.next_head
  cases xs with
  | nil => simpa [Links.listEmpty] using hn
  | cons x xs =>
      have hne : x ≠ h := fun e => (List.nodup_cons.mp hc.nodup).1 (by simp [e])
      simpa [Links.listEmpty, hn] using hne

theorem Circ.listNext (hc : L.Circ h xs) : L.listNext h = xs.head? := by
  have hn := hc.next_head
  rw [Links.listNext, hc.listEmpty]
  cases xs with
  | nil => rfl
  | cons x xs => simpa using hn

/-- `list_is_only` recognises a one-element list from its node. -/
theorem Circ.listIsOnly (hc : L.Circ h xs) (hn : n ∈ xs) :
    L.listIsOnly n h = true ↔ xs = [n] := by
  obtain ⟨ys, zs, rfl⟩ := List.append_of_mem hn
  obtain ⟨hy, hz⟩ := seg_append.mp hc.seg
  have hnd := hc.nodup
  simp only [List.nodup_cons, List.mem_append, List.mem_cons, not_or] at hnd
  simp only [Links.listIsOnly, decide_eq_true_eq]
  constructor
  · rintro ⟨h₁, h₂⟩
    have hzs : zs = [] := by
      cases zs with
      | nil => rfl
      | cons z zs =>
          have hz₁ : h = z := h₁.symm.trans hz.1.1
          exact absurd (hz₁ ▸ List.mem_cons_self) hnd.1.2.2
    have hys : ys = [] := by
      rcases List.eq_nil_or_concat ys with rfl | ⟨zs', z, rfl⟩
      · rfl
      · rw [List.concat_eq_append] at hy hnd
        have hz₁ : h = z := h₂.symm.trans (seg_append.mp hy).2.2
        exact absurd (by simp [hz₁]) hnd.1.1
    simp [hys, hzs]
  · intro e
    have hl := congrArg List.length e
    simp only [List.length_append, List.length_cons, List.length_nil] at hl
    obtain rfl : ys = [] := List.length_eq_zero_iff.mp (by omega)
    obtain rfl : zs = [] := List.length_eq_zero_iff.mp (by omega)
    exact ⟨hz.1, hy.2⟩

theorem Seg.walk (hs : L.Seg a xs b) (hb : b ∉ xs) {fuel : Nat} (hf : xs.length ≤ fuel) :
    L.walk b fuel a = xs := by
  induction fuel generalizing a xs with
  | zero => simp [Links.walk, List.length_eq_zero_iff.mp (Nat.le_zero.mp hf)]
  | succ fuel ih =>
      cases xs with
      | nil => simp [Links.walk, hs.1]
      | cons x xs =>
          obtain ⟨⟨h₁, _⟩, h₂⟩ := hs
          rw [List.mem_cons, not_or] at hb
          have hxb : x ≠ b := fun e => hb.1 e.symm
          simp only [Links.walk, h₁, hxb, ↓reduceIte]
          rw [ih h₂ hb.2 (by simpa using hf)]

/-- Walking the `next` fields of a well-formed list lists its nodes. -/
theorem Circ.walk (hc : L.Circ h xs) {fuel : Nat} (hf : xs.length ≤ fuel) :
    L.walk h fuel h = xs :=
  hc.seg.walk (List.nodup_cons.mp hc.nodup).1 hf

end Links

end Intrusive
