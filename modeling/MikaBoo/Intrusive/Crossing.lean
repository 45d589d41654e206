import MikaBoo.Intrusive.CircularList
import Mathlib.Logic.Relation

/-!
# Following links

Which nodes the `next` fields lead to, also where they form no well-formed list, and
what happens when a node is inserted that is linked somewhere already.
-/

namespace Intrusive

namespace Links

variable {N : Type*} [DecidableEq N] {L : Links N} {a b h h' n x : N} {xs ys : List N}

/-- Following `next` from `a` meets `b`. -/
def Leads (L : Links N) (a b : N) : Prop := Relation.ReflTransGen (fun x y => L.next x = y) a b

omit [DecidableEq N] in
/-- The nodes that a node leads to are in every set with it that `next` does not leave. -/
theorem Leads.mem (hl : L.Leads a b) {S : N → Prop} (closed : ∀ x, S x → S (L.next x))
    (ha : S a) : S b := by
  induction hl with
  | refl => exact ha
  | tail _ hstep ih => exact hstep ▸ closed _ ih

omit [DecidableEq N] in
/-- A segment leads to its nodes and to its end, also after changes elsewhere. -/
theorem Seg.leads {L' : Links N} (hs : L.Seg a xs b) (hn : ∀ x ∈ a :: xs, L'.next x = L.next x)
    (hx : x ∈ b :: xs) : L'.Leads a x := by
  have ha := hn a List.mem_cons_self
  induction xs generalizing a with
  | nil =>
      obtain rfl := List.mem_singleton.mp hx
      exact .single (ha.trans hs.1)
  | cons y ys ih =>
      obtain ⟨⟨hnext, _⟩, htail⟩ := hs
      have hn' : ∀ x ∈ y :: ys, L'.next x = L.next x := fun x hx => hn x (List.mem_cons_of_mem _ hx)
      have hstep : L'.next a = y := ha.trans hnext
      have hy := hn' y List.mem_cons_self
      rcases List.mem_cons.mp hx with rfl | hx
      · exact .head hstep (ih htail hn' List.mem_cons_self hy)
      · rcases List.mem_cons.mp hx with rfl | hx
        · exact .single hstep
        · exact .head hstep (ih htail hn' (List.mem_cons_of_mem _ hx) hy)

omit [DecidableEq N] in
/-- The node before the end of a segment points at the end. -/
theorem Seg.next_prev (hs : L.Seg a xs b) : L.next (L.prev b) = b := by
  induction xs generalizing a with
  | nil => rw [hs.2, hs.1]
  | cons x xs ih => exact ih hs.2

namespace Circ

omit [DecidableEq N] in
/-- Each node is a node before a segment that ends in the sentinel. -/
theorem seg_from (hc : L.Circ h xs) (hx : x ∈ h :: xs) :
    ∃ zs, L.Seg x zs h ∧ ∀ z ∈ zs, z ∈ xs := by
  rcases List.mem_cons.mp hx with rfl | hx
  · exact ⟨xs, hc.seg, fun _ hz => hz⟩
  · obtain ⟨ys, zs, rfl⟩ := List.append_of_mem hx
    exact ⟨zs, (seg_append.mp hc.seg).2, fun z hz =>
      List.mem_append_right _ (List.mem_cons_of_mem _ hz)⟩

omit [DecidableEq N] in
theorem leads_head (hc : L.Circ h xs) (hx : x ∈ h :: xs) : L.Leads x h := by
  obtain ⟨zs, hz, _⟩ := hc.seg_from hx
  exact hz.leads (fun _ _ => rfl) List.mem_cons_self

omit [DecidableEq N] in
theorem next_mem (hc : L.Circ h xs) (hx : x ∈ h :: xs) : L.next x ∈ h :: xs := by
  obtain ⟨zs, hz, hsub⟩ := hc.seg_from hx
  rcases List.mem_cons.mp hz.next_mem with he | hm
  · exact he ▸ List.mem_cons_self
  · exact List.mem_cons_of_mem _ (hsub _ hm)

omit [DecidableEq N] in
/-- `prev` is the inverse of `next`. -/
theorem prev_next (hc : L.Circ h xs) (hx : x ∈ h :: xs) : L.prev (L.next x) = x := by
  obtain ⟨zs, hz, _⟩ := hc.seg_from hx
  cases zs with
  | nil => rw [hz.1, hz.2]
  | cons z zs => rw [hz.1.1, hz.1.2]

omit [DecidableEq N] in
/-- A well-formed list leads to its own nodes and no others. -/
theorem leads_iff (hc : L.Circ h xs) : L.Leads h x ↔ x ∈ h :: xs := by
  constructor
  · intro hl
    exact hl.mem (S := (· ∈ h :: xs)) (fun _ => hc.next_mem) List.mem_cons_self
  · intro hx
    exact hc.seg.leads (fun _ _ => rfl) hx

omit [DecidableEq N] in
/-- Two lists share no node, if the sentinel of the one is not in the other. -/
theorem disjoint (hc : L.Circ h xs) (hc' : L.Circ h' ys) (hh : h ∉ h' :: ys)
    (hx : x ∈ h :: xs) : x ∉ h' :: ys := fun hx' =>
  hh ((hc.leads_head hx).mem (S := (· ∈ h' :: ys)) (fun _ => hc'.next_mem) hx')

end Circ

/-! ## Insertion -/

theorem listAddTail_next : (L.listAddTail n h).next =
    Function.update (Function.update L.next n h) (L.prev h) n := rfl

theorem listAddTail_prev : (L.listAddTail n h).prev =
    Function.update (Function.update L.prev h n) n (L.prev h) := rfl

/-- Whatever led to the node leads to it still. -/
theorem Leads.listAddTail_node (hl : L.Leads a n) : (L.listAddTail n h).Leads a n := by
  induction hl using Relation.ReflTransGen.head_induction_on with
  | refl => exact .refl
  | @head a b hstep _ ih =>
      by_cases hp : a = L.prev h
      · exact .single (by rw [listAddTail_next, hp, Function.update_self])
      · by_cases hn : a = n
        · exact hn ▸ .refl
        · refine .head ?_ ih
          rw [listAddTail_next, Function.update_of_ne hp, Function.update_of_ne hn, hstep]

/-- Whatever led to the sentinel leads to it still. -/
theorem Leads.listAddTail_head (hl : L.Leads a h) (hn : n ≠ L.prev h) :
    (L.listAddTail n h).Leads a h := by
  have hnode : (L.listAddTail n h).next n = h := by
    rw [listAddTail_next, Function.update_of_ne hn, Function.update_self]
  induction hl using Relation.ReflTransGen.head_induction_on with
  | refl => exact .refl
  | @head a b hstep _ ih =>
      by_cases hp : a = L.prev h
      · refine .head (b := n) ?_ (.single hnode)
        rw [listAddTail_next, hp, Function.update_self]
      · by_cases ha : a = n
        · rw [ha]
          exact .single hnode
        · refine .head ?_ ih
          rw [listAddTail_next, Function.update_of_ne hp, Function.update_of_ne ha, hstep]

/-- Whatever leads to the node now led to it before, or to the list. -/
theorem Leads.of_listAddTail (hc : L.Circ h xs) (hl : (L.listAddTail n h).Leads a n) :
    L.Leads a n ∨ L.Leads a h := by
  induction hl using Relation.ReflTransGen.head_induction_on with
  | refl => exact Or.inl .refl
  | @head a b hstep _ ih =>
      by_cases hp : a = L.prev h
      · exact Or.inr (.single (hp ▸ hc.seg.next_prev))
      · by_cases ha : a = n
        · exact Or.inl (ha ▸ .refl)
        · rw [listAddTail_next, Function.update_of_ne hp, Function.update_of_ne ha] at hstep
          exact ih.imp (.head hstep) (.head hstep)

/-- A list into which one of its own nodes is inserted is no longer well formed. -/
theorem Circ.not_listAddTail (hc : L.Circ h xs) (hn : n ∈ xs) :
    ¬ (L.listAddTail n h).Circ h ys := by
  intro hc'
  obtain ⟨us, vs, rfl⟩ := List.append_of_mem hn
  obtain ⟨hus, hvs⟩ := seg_append.mp hc.seg
  have hlast : L.prev h ∈ n :: vs := hvs.prev_mem
  have hfar : ∀ x ∈ h :: us, x ∉ n :: vs := by
    have hnd := hc.nodup
    rw [← List.cons_append, List.nodup_append] at hnd
    exact fun x hx hx' => hnd.2.2 x hx x hx' rfl
  have hsame : ∀ x ∈ h :: us, (L.listAddTail n h).next x = L.next x := by
    intro x hx
    have hp : x ≠ L.prev h := fun e => hfar x hx (e ▸ hlast)
    have hxn : x ≠ n := fun e => hfar x hx (e ▸ List.mem_cons_self)
    rw [listAddTail_next, Function.update_of_ne hp, Function.update_of_ne hxn]
  -- The old predecessor of the node still points at it, and so does the old last node.
  have hq : L.prev n ∈ h :: us := hus.prev_mem
  have hlead : (L.listAddTail n h).Leads h (L.prev n) := by
    rcases List.mem_cons.mp hq with e | hq
    · exact e ▸ .refl
    · exact hus.leads hsame (List.mem_cons_of_mem _ hq)
  have hback := hc'.prev_next (hc'.leads_iff.mp hlead)
  rw [hsame _ hq, hus.next_prev, listAddTail_prev, Function.update_self] at hback
  exact hfar _ hq (hback ▸ hlast)

end Links

end Intrusive
