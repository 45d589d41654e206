import Mathlib.Data.List.Basic

/-!
# Lines served in order of arrival

Elements join a line at its end and are served at its front; some may drop out.
Whoever stays is overtaken by nobody.
-/

namespace Line

variable {α : Type*} [DecidableEq α] {l l' m : List α} {a b : α}

/-- Those that are before `b` in the line. -/
def ahead (l : List α) (b : α) : List α := l.takeWhile (· ≠ b)

theorem mem_of_mem_ahead (h : a ∈ ahead l b) : a ∈ l :=
  (List.takeWhile_prefix _).subset h

/-- Nobody who joins the line gets ahead of a member. -/
theorem ahead_append (hb : b ∈ l) : ahead (l ++ m) b = ahead l b := by
  induction l with
  | nil => cases hb
  | cons a l ih =>
      by_cases ha : a = b
      · simp [ahead, ha]
      · have ih' := ih ((List.mem_cons.mp hb).resolve_left (Ne.symm ha))
        simpa [ahead, ha] using ih'

/-- All of a first part that does not contain `b` are ahead of `b`. -/
theorem ahead_append_of_not_mem (hb : b ∉ l) : ahead (l ++ m) b = l ++ ahead m b := by
  apply List.takeWhile_append_of_pos
  intro a ha
  rw [decide_eq_true_iff]
  rintro rfl
  exact hb ha

theorem ahead_filter {p : α → Bool} (hb : p b = true) :
    ahead (l.filter p) b = (ahead l b).filter p := by
  induction l with
  | nil => rfl
  | cons a l ih =>
      by_cases hab : a = b
      · simp [ahead, hab, hb]
      · cases hp : p a with
        | true => simpa [ahead, hab, hp] using ih
        | false => simpa [ahead, hab, hp] using ih

/-- A round of a line: those in `gone` drop out, others join at the end, and then
those in `served` are served at the front. -/
def Round (gone served l l' : List α) : Prop :=
  ∃ new, l.filter (· ∉ gone) ++ new = served ++ l'

namespace Round

variable {gone served : List α}

/-- Of those ahead of a member who stays, the dropped and the served are no longer there. -/
theorem ahead (h : Round gone served l l') (hb : b ∈ l) (hg : b ∉ gone) (hs : b ∉ served) :
    (ahead l b).filter (· ∉ gone) = served ++ Line.ahead l' b := by
  obtain ⟨new, hnew⟩ := h
  have hmem : b ∈ l.filter (· ∉ gone) := List.mem_filter.mpr ⟨hb, by simpa using hg⟩
  calc
    (Line.ahead l b).filter (· ∉ gone) = Line.ahead (l.filter (· ∉ gone)) b :=
      (ahead_filter (by simpa using hg)).symm
    _ = Line.ahead (l.filter (· ∉ gone) ++ new) b := (ahead_append hmem).symm
    _ = Line.ahead (served ++ l') b := by rw [hnew]
    _ = served ++ Line.ahead l' b := ahead_append_of_not_mem hs

/-- Everybody drops out, is served or stays. -/
theorem mem (h : Round gone served l l') (hb : b ∈ l) (hg : b ∉ gone) : b ∈ served ∨ b ∈ l' := by
  obtain ⟨new, hnew⟩ := h
  rw [← List.mem_append, ← hnew]
  exact List.mem_append_left _ (List.mem_filter.mpr ⟨hb, by simpa using hg⟩)

/-- The order of two members who stay does not change. -/
theorem mem_ahead (h : Round gone served l l') (hb : b ∈ l) (hg : b ∉ gone) (hs : b ∉ served)
    (ha : a ∈ Line.ahead l b) (hga : a ∉ gone) (hsa : a ∉ served) : a ∈ Line.ahead l' b := by
  have hmem : a ∈ (Line.ahead l b).filter (· ∉ gone) :=
    List.mem_filter.mpr ⟨ha, by simpa using hga⟩
  rw [h.ahead hb hg hs] at hmem
  exact (List.mem_append.mp hmem).resolve_left hsa

/-- Those ahead of a member who stays were ahead of it before the round, and so
were those that the round has served. -/
theorem of_ahead (h : Round gone served l l') (hb : b ∈ l) (hg : b ∉ gone) (hs : b ∉ served)
    (ha : a ∈ served ∨ a ∈ Line.ahead l' b) : a ∈ Line.ahead l b := by
  have hmem : a ∈ (Line.ahead l b).filter (· ∉ gone) := by
    rw [h.ahead hb hg hs]
    exact List.mem_append.mpr ha
  exact List.mem_of_mem_filter hmem

/-- A member who stays gets ahead by all those who are served. -/
theorem length_ahead (h : Round gone served l l') (hb : b ∈ l) (hg : b ∉ gone)
    (hs : b ∉ served) :
    served.length + (Line.ahead l' b).length ≤ (Line.ahead l b).length := by
  rw [← List.length_append, ← h.ahead hb hg hs]
  exact List.length_filter_le _ _

end Round

end Line
