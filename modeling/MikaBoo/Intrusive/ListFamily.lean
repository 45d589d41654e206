import MikaBoo.Intrusive.CircularList
import Mathlib.Algebra.GroupWithZero.Nat
import Mathlib.Data.List.Basic
import Mathlib.Data.Set.Insert

/-!
# Families of disjoint intrusive lists

One link field can put an element in at most one of many lists. A `Layout`
names the sentinel of each list and the link node of each element; `Represents`
says that the links realise a given family of element lists.

The rules below state each list operation on the family: what happens to the
one list it is applied to, with every other list left alone. While the sentinels
are being initialised one by one, `RepresentsOn` speaks of some of the lists.
-/

namespace Intrusive

open Links

variable {H E N : Type*} [DecidableEq H] [DecidableEq E] [DecidableEq N]

/-- Where the sentinels of the lists and the link nodes of the elements are. -/
structure Layout (H E N : Type*) where
  head : H → N
  link : E → N
  head_inj : Function.Injective head
  link_inj : Function.Injective link

/-- The links of some lists `S` of a family: these are well formed, no element is in
two lists, and no listed element's node is a sentinel. -/
structure RepresentsOn (lay : Layout H E N) (L : Links N) (S : Set H) (q : H → List E) :
    Prop where
  circ : ∀ h ∈ S, L.Circ (lay.head h) ((q h).map lay.link)
  disjoint : ∀ {h h' e}, e ∈ q h → e ∈ q h' → h = h'
  fresh : ∀ {h h' e}, e ∈ q h → lay.link e ≠ lay.head h'

/-- The links of a family of lists: each list is well formed, no element is in
two lists, and no listed element's node is a sentinel. -/
structure Represents (lay : Layout H E N) (L : Links N) (q : H → List E) : Prop where
  circ : ∀ h, L.Circ (lay.head h) ((q h).map lay.link)
  disjoint : ∀ {h h' e}, e ∈ q h → e ∈ q h' → h = h'
  fresh : ∀ {h h' e}, e ∈ q h → lay.link e ≠ lay.head h'

omit [DecidableEq H] [DecidableEq E] [DecidableEq N] in
theorem represents_iff {lay : Layout H E N} {L : Links N} {q : H → List E} :
    Represents lay L q ↔ RepresentsOn lay L Set.univ q :=
  ⟨fun R => ⟨fun h _ => R.circ h, R.disjoint, R.fresh⟩,
    fun R => ⟨fun h => R.circ h trivial, R.disjoint, R.fresh⟩⟩

omit [DecidableEq H] [DecidableEq E] [DecidableEq N] in
/-- An unlisted element's node belongs to no list. -/
theorem link_not_mem {lay : Layout H E N} {q : H → List E} {e : E} (he : ∀ h, e ∉ q h)
    (hf : ∀ h, lay.link e ≠ lay.head h) (h : H) :
    lay.link e ∉ lay.head h :: (q h).map lay.link := by
  rw [List.mem_cons, not_or]
  refine ⟨hf h, ?_⟩
  intro hm
  obtain ⟨e', he', hl⟩ := List.mem_map.mp hm
  exact he h (lay.link_inj hl ▸ he')

namespace RepresentsOn

variable {lay : Layout H E N} {L : Links N} {S : Set H} {q : H → List E} {h h' : H} {e : E}

omit [DecidableEq H] [DecidableEq E] [DecidableEq N] in
/-- Two different lists share neither sentinels nor link nodes. -/
theorem nodes_disjoint (R : RepresentsOn lay L S q) (hne : h ≠ h') {x : N}
    (hx : x ∈ lay.head h :: (q h).map lay.link) :
    x ∉ lay.head h' :: (q h').map lay.link := by
  intro hx'
  rcases List.mem_cons.mp hx with rfl | hx <;> rcases List.mem_cons.mp hx' with hx' | hx'
  · exact hne (lay.head_inj hx')
  · obtain ⟨e, he, hl⟩ := List.mem_map.mp hx'
    exact R.fresh he hl
  · obtain ⟨e, he, rfl⟩ := List.mem_map.mp hx
    exact R.fresh he hx'
  · obtain ⟨e, he, rfl⟩ := List.mem_map.mp hx
    obtain ⟨e', he', hl⟩ := List.mem_map.mp hx'
    obtain rfl := lay.link_inj hl
    exact hne (R.disjoint he he')

omit [DecidableEq H] [DecidableEq E] in
/-- `INIT_LIST_HEAD` brings a list without elements into being. -/
theorem initListHead (R : RepresentsOn lay L S q) (hq : q h = []) :
    RepresentsOn lay (L.initListHead (lay.head h)) (insert h S) q := by
  refine ⟨?_, R.disjoint, R.fresh⟩
  intro h' hh'
  by_cases hne : h' = h
  · subst hne
    rw [hq]
    exact circ_initListHead
  · have hout : ∀ x ∈ lay.head h' :: (q h').map lay.link, x ≠ lay.head h := by
      rintro x hx rfl
      exact R.nodes_disjoint hne hx List.mem_cons_self
    apply (R.circ h' (hh'.resolve_left hne)).congr
    · intro x hx
      simp [Links.initListHead, hout x hx]
    · intro x hx
      simp [Links.initListHead, hout x hx]

omit [DecidableEq H] [DecidableEq E] in
/-- Inserting next to the sentinel of `h` leaves the fields of every other list alone. -/
theorem rawListAdd_other (R : RepresentsOn lay L S q) (hS : h' ∈ S) (hne : h' ≠ h)
    (hn : lay.link e ∉ lay.head h' :: (q h').map lay.link) {p s : N}
    (hp : p ∈ lay.head h :: (q h).map lay.link) (hs : s ∈ lay.head h :: (q h).map lay.link) :
    (L.rawListAdd (lay.link e) p s).Circ (lay.head h') ((q h').map lay.link) := by
  have hp' := R.nodes_disjoint hne.symm hp
  have hs' := R.nodes_disjoint hne.symm hs
  apply (R.circ h' hS).congr
  · intro x hx
    have h₁ : x ≠ lay.link e := fun e' => hn (e' ▸ hx)
    have h₂ : x ≠ p := fun e' => hp' (e' ▸ hx)
    simp [rawListAdd, h₁, h₂]
  · intro x hx
    have h₁ : x ≠ lay.link e := fun e' => hn (e' ▸ hx)
    have h₂ : x ≠ s := fun e' => hs' (e' ▸ hx)
    simp [rawListAdd, h₁, h₂]

omit [DecidableEq E] [DecidableEq N] in
/-- Replacing the list `h` by one with the new element `e` keeps the family disjoint. -/
theorem of_insert {L' : Links N} {xs : List E} (R : RepresentsOn lay L S q)
    (he : ∀ h, e ∉ q h) (hf : ∀ h, lay.link e ≠ lay.head h)
    (hxs : ∀ x, x ∈ xs ↔ x ∈ q h ∨ x = e)
    (hh : L'.Circ (lay.head h) (xs.map lay.link))
    (ho : ∀ h' ∈ S, h' ≠ h → L'.Circ (lay.head h') ((q h').map lay.link)) :
    RepresentsOn lay L' S (Function.update q h xs) := by
  have hmem : ∀ {h' x}, x ∈ Function.update q h xs h' → x ∈ q h' ∨ (h' = h ∧ x = e) := by
    intro h' x hx
    by_cases hc : h' = h
    · subst hc
      rw [Function.update_self, hxs] at hx
      exact hx.imp_right fun hx => ⟨rfl, hx⟩
    · rw [Function.update_of_ne hc] at hx
      exact Or.inl hx
  refine ⟨?_, ?_, ?_⟩
  · intro h' hS
    by_cases hc : h' = h
    · subst hc
      simpa using hh
    · simpa [Function.update_of_ne hc] using ho h' hS hc
  · intro h₁ h₂ x hx₁ hx₂
    rcases hmem hx₁ with h₁' | ⟨h₁', rfl⟩ <;> rcases hmem hx₂ with h₂' | ⟨h₂', h₂''⟩
    · exact R.disjoint h₁' h₂'
    · exact absurd (h₂'' ▸ h₁') (he _)
    · exact absurd h₂' (he _)
    · rw [h₁', h₂']
  · intro h₁ h₂ x hx
    rcases hmem hx with h₁' | ⟨_, rfl⟩
    · exact R.fresh h₁'
    · exact hf h₂

omit [DecidableEq E] in
/-- `list_add_tail` of an unlisted element appends it to the list of the given sentinel. -/
theorem listAddTail (R : RepresentsOn lay L S q) (he : ∀ h, e ∉ q h)
    (hf : ∀ h, lay.link e ≠ lay.head h) (hS : h ∈ S) :
    RepresentsOn lay (L.listAddTail (lay.link e) (lay.head h)) S
      (Function.update q h (q h ++ [e])) := by
  have hn := link_not_mem he hf
  apply R.of_insert he hf (by simp)
  · simpa using (R.circ h hS).listAddTail (hn h)
  · intro h' hS' hne
    exact R.rawListAdd_other hS' hne (hn h') (R.circ h hS).seg.prev_mem List.mem_cons_self

omit [DecidableEq E] in
/-- `list_add` of an unlisted element prepends it to the list of the given sentinel. -/
theorem listAdd (R : RepresentsOn lay L S q) (he : ∀ h, e ∉ q h)
    (hf : ∀ h, lay.link e ≠ lay.head h) (hS : h ∈ S) :
    RepresentsOn lay (L.listAdd (lay.link e) (lay.head h)) S
      (Function.update q h (e :: q h)) := by
  have hn := link_not_mem he hf
  apply R.of_insert he hf (by simp [or_comm])
  · simpa using (R.circ h hS).listAdd (hn h)
  · intro h' hS' hne
    exact R.rawListAdd_other hS' hne (hn h') List.mem_cons_self (R.circ h hS).seg.next_mem

omit [DecidableEq H] [DecidableEq E] [DecidableEq N] in
/-- Before any initialisation. -/
theorem empty (lay : Layout H E N) (L : Links N) : RepresentsOn lay L ∅ fun _ => [] :=
  ⟨fun _ h => h.elim, by simp, by simp⟩

omit [DecidableEq H] [DecidableEq E] in
theorem initListHeads (hs : List H) (R : RepresentsOn lay L S q) (hq : ∀ h ∈ hs, q h = []) :
    RepresentsOn lay (hs.foldl (fun L h => L.initListHead (lay.head h)) L) (S ∪ {h | h ∈ hs}) q := by
  induction hs generalizing L S with
  | nil => simpa using R
  | cons h hs ih =>
      have R' := ih (R.initListHead (hq h List.mem_cons_self)) fun h' hm =>
        hq h' (List.mem_cons_of_mem _ hm)
      have hset : S ∪ {h' | h' ∈ h :: hs} = insert h S ∪ {h' | h' ∈ hs} := by
        ext h'
        simp only [List.mem_cons, Set.mem_union, Set.mem_ofPred_eq, Set.mem_insert_iff]
        tauto
      rwa [hset]

omit [DecidableEq E] [DecidableEq N] in
theorem not_mem_insert {e' : E} {xs : List E} (hxs : ∀ x, x ∈ xs ↔ x ∈ q h ∨ x = e)
    (he : ∀ h, e' ∉ q h) (hne : e' ≠ e) (h' : H) : e' ∉ Function.update q h xs h' := by
  by_cases hh : h' = h
  · subst hh
    rw [Function.update_self, hxs]
    exact not_or.mpr ⟨he h', hne⟩
  · rw [Function.update_of_ne hh]
    exact he h'

omit [DecidableEq E] in
theorem listAddTails (es : List E) (R : RepresentsOn lay L S q) (hnd : es.Nodup)
    (he : ∀ e ∈ es, ∀ h, e ∉ q h) (hf : ∀ e ∈ es, ∀ h, lay.link e ≠ lay.head h) (hS : h ∈ S) :
    RepresentsOn lay (es.foldl (fun L e => L.listAddTail (lay.link e) (lay.head h)) L) S
      (Function.update q h (q h ++ es)) := by
  induction es generalizing L q with
  | nil => simpa using R
  | cons e es ih =>
      obtain ⟨hne, hnd⟩ := List.nodup_cons.mp hnd
      have R₁ := R.listAddTail (he e List.mem_cons_self) (hf e List.mem_cons_self) hS
      have he₁ : ∀ e' ∈ es, ∀ h', e' ∉ Function.update q h (q h ++ [e]) h' := by
        intro e' hm
        apply not_mem_insert (e := e) (by simp) (he e' (List.mem_cons_of_mem _ hm))
        rintro rfl
        exact hne hm
      simpa using ih R₁ hnd he₁ fun e' hm => hf e' (List.mem_cons_of_mem _ hm)

omit [DecidableEq E] in
theorem listAdds (es : List E) (R : RepresentsOn lay L S q) (hnd : es.Nodup)
    (he : ∀ e ∈ es, ∀ h, e ∉ q h) (hf : ∀ e ∈ es, ∀ h, lay.link e ≠ lay.head h) (hS : h ∈ S) :
    RepresentsOn lay (es.foldl (fun L e => L.listAdd (lay.link e) (lay.head h)) L) S
      (Function.update q h (es.reverse ++ q h)) := by
  induction es generalizing L q with
  | nil => simpa using R
  | cons e es ih =>
      obtain ⟨hne, hnd⟩ := List.nodup_cons.mp hnd
      have R₁ := R.listAdd (he e List.mem_cons_self) (hf e List.mem_cons_self) hS
      have he₁ : ∀ e' ∈ es, ∀ h', e' ∉ Function.update q h (e :: q h) h' := by
        intro e' hm
        apply not_mem_insert (e := e) (by simp [or_comm]) (he e' (List.mem_cons_of_mem _ hm))
        rintro rfl
        exact hne hm
      simpa using ih R₁ hnd he₁ fun e' hm => hf e' (List.mem_cons_of_mem _ hm)

end RepresentsOn

namespace Represents

variable {lay : Layout H E N} {L : Links N} {q : H → List E} {h h' : H} {e : E}

omit [DecidableEq H] [DecidableEq E] [DecidableEq N] in
theorem nodup (R : Represents lay L q) (h : H) : (q h).Nodup :=
  (List.nodup_cons.mp (R.circ h).nodup).2.of_map _

omit [DecidableEq H] [DecidableEq E] [DecidableEq N] in
/-- The lengths of lists that share out some elements add up to the number of elements. -/
theorem sum_length (R : Represents lay L q) {hs : List H} {es : List E} (hnd : hs.Nodup)
    (hes : es.Nodup) (hmem : ∀ e, e ∈ es ↔ ∃ h ∈ hs, e ∈ q h) :
    (hs.map fun h => (q h).length).sum = es.length := by
  have hflat : (hs.flatMap q).Nodup := by
    rw [List.nodup_flatMap]
    refine ⟨fun h _ => R.nodup h, hnd.imp fun hne => ?_⟩
    intro e he he'
    exact hne (R.disjoint he he')
  have hperm : (hs.flatMap q).Perm es := by
    rw [List.perm_ext_iff_of_nodup hflat hes]
    intro e
    rw [hmem, List.mem_flatMap]
  rw [← hperm.length_eq, List.length_flatMap]

omit [DecidableEq H] [DecidableEq E] [DecidableEq N] in
theorem nodes_disjoint (R : Represents lay L q) (hne : h ≠ h') {x : N}
    (hx : x ∈ lay.head h :: (q h).map lay.link) :
    x ∉ lay.head h' :: (q h').map lay.link :=
  (represents_iff.mp R).nodes_disjoint hne hx

omit [DecidableEq E] in
theorem listAddTail (R : Represents lay L q) (he : ∀ h, e ∉ q h)
    (hf : ∀ h, lay.link e ≠ lay.head h) (h : H) :
    Represents lay (L.listAddTail (lay.link e) (lay.head h))
      (Function.update q h (q h ++ [e])) :=
  represents_iff.mpr ((represents_iff.mp R).listAddTail he hf trivial)

omit [DecidableEq E] in
theorem listAdd (R : Represents lay L q) (he : ∀ h, e ∉ q h)
    (hf : ∀ h, lay.link e ≠ lay.head h) (h : H) :
    Represents lay (L.listAdd (lay.link e) (lay.head h)) (Function.update q h (e :: q h)) :=
  represents_iff.mpr ((represents_iff.mp R).listAdd he hf trivial)

/-- `list_del` of an element of list `h` erases it there. -/
theorem listDel (R : Represents lay L q) (he : e ∈ q h) :
    Represents lay (L.listDel (lay.link e)) (Function.update q h ((q h).erase e)) := by
  obtain ⟨xs, ys, hx, hq, hq'⟩ := List.exists_erase_eq he
  have hc : L.Circ (lay.head h) (xs.map lay.link ++ lay.link e :: ys.map lay.link) := by
    simpa [hq] using R.circ h
  -- the two nodes that `list_del` writes are the neighbours of `e` in list `h`
  obtain ⟨hp, hn⟩ := (R.circ h).neighbours (List.mem_map_of_mem he)
  have hmem : ∀ {h' x}, x ∈ Function.update q h ((q h).erase e) h' → x ∈ q h' := by
    intro h' x hx'
    by_cases hc : h' = h
    · subst hc
      rw [Function.update_self] at hx'
      exact List.mem_of_mem_erase hx'
    · rwa [Function.update_of_ne hc] at hx'
  refine ⟨?_, fun hx₁ hx₂ => R.disjoint (hmem hx₁) (hmem hx₂), fun hx₁ => R.fresh (hmem hx₁)⟩
  intro h'
  by_cases hne : h' = h
  · subst hne
    simpa [hq'] using hc.listDel
  · rw [Function.update_of_ne hne]
    have hp' := R.nodes_disjoint (Ne.symm hne) hp
    have hn' := R.nodes_disjoint (Ne.symm hne) hn
    apply (R.circ h').congr
    · intro x hx'
      have hxp : x ≠ L.prev (lay.link e) := fun e' => hp' (e' ▸ hx')
      simp [Links.listDel, rawListDel, hxp]
    · intro x hx'
      have hxn : x ≠ L.next (lay.link e) := fun e' => hn' (e' ▸ hx')
      simp [Links.listDel, rawListDel, hxn]

omit [DecidableEq N] in
/-- After `list_del` an element is in no list. -/
theorem not_mem_erase (R : Represents lay L q) (he : e ∈ q h) (h' : H) :
    e ∉ Function.update q h ((q h).erase e) h' := by
  by_cases hc : h' = h
  · subst hc
    rw [Function.update_self]
    exact (R.nodup h').not_mem_erase
  · rw [Function.update_of_ne hc]
    exact fun he' => hc (R.disjoint he' he)

omit [DecidableEq N] in
/-- Erasing an element from every list erases it from the one it is in. -/
theorem erase_all (R : Represents lay L q) (he : e ∈ q h) :
    (fun h' => (q h').erase e) = Function.update q h ((q h).erase e) := by
  funext h'
  by_cases hc : h' = h
  · subst hc
    rw [Function.update_self]
  · rw [Function.update_of_ne hc]
    exact List.erase_of_not_mem fun he' => hc (R.disjoint he' he)

omit [DecidableEq N] in
theorem mem_erase_iff (R : Represents lay L q) (he : e ∈ q h) {h' : H} {e' : E} :
    e' ∈ Function.update q h ((q h).erase e) h' ↔ e' ≠ e ∧ e' ∈ q h' := by
  by_cases hc : h' = h
  · subst hc
    rw [Function.update_self, (R.nodup h').mem_erase_iff]
  · rw [Function.update_of_ne hc]
    refine ⟨fun he' => ⟨?_, he'⟩, fun he' => he'.2⟩
    rintro rfl
    exact hc (R.disjoint he' he)

omit [DecidableEq E] in
theorem mem_append_iff {q : H → List E} {h h' : H} {e e' : E} :
    e' ∈ Function.update q h (q h ++ [e]) h' ↔ e' ∈ q h' ∨ (e' = e ∧ h' = h) := by
  by_cases hc : h' = h
  · subst hc
    simp
  · simp [hc]

omit [DecidableEq N] in
/-- Where the elements are after one of them has been moved to the list `h'`. -/
theorem mem_move_iff (R : Represents lay L q) (he : e ∈ q h) {h' h'' : H} {e' : E} :
    e' ∈ Function.update (Function.update q h ((q h).erase e)) h'
        (Function.update q h ((q h).erase e) h' ++ [e]) h'' ↔
      (e' ≠ e ∧ e' ∈ q h'') ∨ (e' = e ∧ h'' = h') := by
  rw [mem_append_iff, R.mem_erase_iff he]

/-- `list_del` and `list_add_tail` together move an element to the tail of a list. -/
theorem move (R : Represents lay L q) (he : e ∈ q h) (hf : ∀ h, lay.link e ≠ lay.head h)
    (h' : H) :
    Represents lay ((L.listDel (lay.link e)).listAddTail (lay.link e) (lay.head h'))
      (Function.update (Function.update q h ((q h).erase e)) h'
        (Function.update q h ((q h).erase e) h' ++ [e])) :=
  (R.listDel he).listAddTail (R.not_mem_erase he) hf h'

omit [DecidableEq H] [DecidableEq E] in
theorem listEmpty (R : Represents lay L q) (h : H) :
    L.listEmpty (lay.head h) = (q h).isEmpty := by
  rw [(R.circ h).listEmpty, List.isEmpty_map]

omit [DecidableEq H] [DecidableEq E] in
theorem listNext (R : Represents lay L q) (h : H) :
    L.listNext (lay.head h) = (q h).head?.map lay.link := by
  rw [(R.circ h).listNext, List.head?_map]

omit [DecidableEq H] [DecidableEq E] in
theorem listIsOnly (R : Represents lay L q) (he : e ∈ q h) :
    L.listIsOnly (lay.link e) (lay.head h) = true ↔ q h = [e] := by
  rw [(R.circ h).listIsOnly (List.mem_map_of_mem he)]
  constructor
  · intro hl
    exact List.map_injective_iff.mpr lay.link_inj (by simpa using hl)
  · intro hl
    simp [hl]

omit [DecidableEq H] [DecidableEq E] in
/-- Walking the links from a sentinel lists the nodes of its elements. -/
theorem walk (R : Represents lay L q) (h : H) {fuel : Nat} (hf : (q h).length ≤ fuel) :
    L.walk (lay.head h) fuel (lay.head h) = (q h).map lay.link :=
  (R.circ h).walk (by simpa using hf)

end Represents

end Intrusive
