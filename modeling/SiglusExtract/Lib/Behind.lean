/-
What stands behind the last element of a list with a property, as programs take the name out of a path.
-/
import Mathlib.Data.List.DropRight

namespace Behind

variable {α : Type} {p : α → Bool}

/-- What stands behind the last element with `p`: the whole list where no element has it. -/
def behind (p : α → Bool) (l : List α) : List α := l.rtakeWhile fun a => !p a

/-- A list whose last element with `p` is named. -/
theorem exists_last {l : List α} (h : ∃ a ∈ l, p a = true) :
    ∃ pre a post, l = pre ++ a :: post ∧ p a = true ∧ ∀ b ∈ post, p b = false := by
  induction l with
  | nil => simp at h
  | cons a l ih =>
    by_cases hl : ∃ b ∈ l, p b = true
    · obtain ⟨pre, b, post, rfl, hb, hpost⟩ := ih hl
      exact ⟨a :: pre, b, post, rfl, hb, hpost⟩
    · have hnone : ∀ b ∈ l, p b = false := by simpa using hl
      obtain ⟨b, hb, hpb⟩ := h
      rcases List.mem_cons.1 hb with rfl | hb
      · exact ⟨[], b, l, rfl, hpb, hnone⟩
      · exact absurd hpb (by simp [hnone b hb])

/-- Elements without `p` at the end of a list stand behind as well. -/
theorem behind_append_none {name : List α} (h : ∀ b ∈ name, p b = false) (l : List α) :
    behind p (l ++ name) = behind p l ++ name := by
  rw [behind, List.rtakeWhile, List.reverse_append, List.takeWhile_append_of_pos (by simpa using h),
    List.reverse_append, List.reverse_reverse]
  rfl

theorem behind_none {l : List α} (h : ∀ b ∈ l, p b = false) : behind p l = l :=
  List.rtakeWhile_eq_self_iff.2 (by simpa using h)

theorem behind_last {pre post : List α} {a : α} (ha : p a = true) (hpost : ∀ b ∈ post, p b = false) :
    behind p (pre ++ a :: post) = post := by
  have hstop : behind p (pre ++ [a]) = [] := List.rtakeWhile_concat_neg _ _ a (by simp [ha])
  rw [← List.singleton_append, ← List.append_assoc, behind_append_none hpost, hstop, List.nil_append]

/-- A list behind whose last element with `p`, if it has one, `name` stands: that element ends `dir`. -/
theorem exists_behind (p : α → Bool) (l : List α) :
    ∃ dir, l = dir ++ behind p l ∧ (∀ b ∈ behind p l, p b = false) ∧ ∀ a, dir.getLast? = some a → p a = true := by
  by_cases h : ∃ a ∈ l, p a = true
  · obtain ⟨pre, a, post, rfl, ha, hpost⟩ := exists_last h
    rw [behind_last ha hpost]
    refine ⟨pre ++ [a], by simp, hpost, fun b hb => ?_⟩
    rw [List.getLast?_concat, Option.some.injEq] at hb
    exact hb ▸ ha
  · have hnone : ∀ b ∈ l, p b = false := by simpa using h
    rw [behind_none hnone]
    exact ⟨[], rfl, hnone, nofun⟩

/-- Conversely such a list is taken apart there. -/
theorem behind_append {dir name : List α} (hname : ∀ b ∈ name, p b = false)
    (hdir : ∀ a, dir.getLast? = some a → p a = true) : behind p (dir ++ name) = name := by
  rcases List.eq_nil_or_concat' dir with rfl | ⟨pre, a, rfl⟩
  · exact behind_none hname
  · rw [List.append_assoc, List.singleton_append]
    exact behind_last (hdir a List.getLast?_concat) hname

end Behind
