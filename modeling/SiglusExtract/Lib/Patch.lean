/-
Overwriting part of a byte string in place: what the result holds at the place, and that it is the
string of before everywhere else. `Mem.Same` says that two memories agree on a range.
-/
import SiglusExtract.Lib.Bytes

namespace Mem

variable {α : Type}

/-- The memories agree on the `n` cells from `p` on. -/
def Same (m m' : Mem α) (p n : Nat) : Prop := ∀ i < n, m (p + i) = m' (p + i)

/-- A range inside the range on which the memories agree. -/
theorem Same.sub {m m' : Mem α} {p n q k : Nat} (h : Same m m' p n) (hp : p ≤ q) (hn : q + k ≤ p + n) :
    Same m m' q k := by
  intro i hi
  have := h (q - p + i) (by omega)
  rwa [show p + (q - p + i) = q + i by omega] at this

theorem Holds.same {m m' : Mem α} {p : Nat} {s : List α} (h : m.Holds p s) (hs : Same m m' p s.length) :
    m'.Holds p s :=
  fun i hi => (hs i hi).symm.trans (h i hi)

/-- A string that lies in a list is a stretch of it. -/
theorem Holds.take_drop {l s : List α} {p : Nat} (h : (ofList l).Holds p s) (hs : 0 < s.length) :
    p + s.length ≤ l.length ∧ (l.drop p).take s.length = s := by
  have hle : p + s.length ≤ l.length := by
    by_contra hlt
    have := h (s.length - 1) (by omega)
    rw [ofList, List.getElem?_eq_none (by omega)] at this
    cases this
  refine ⟨hle, ?_⟩
  apply List.ext_getElem
  · rw [List.length_take, List.length_drop]
    omega
  · intro i _ hi
    have := h i hi
    rw [ofList, List.getElem?_eq_getElem (by omega), Option.some.injEq] at this
    rw [List.getElem_take, List.getElem_drop, this]

end Mem

namespace Bytes

theorem dword_same {m m' : Mem UInt8} {p : Nat} (h : m.Same m' p 4) : dword m p = dword m' p := by
  have h0 := h 0 (by decide)
  rw [Nat.add_zero] at h0
  simp only [dword, h0, h 1 (by decide), h 2 (by decide), h 3 (by decide)]

theorem word_same {m m' : Mem UInt8} {p : Nat} (h : m.Same m' p 2) : word m p = word m' p := by
  have h0 := h 0 (by decide)
  rw [Nat.add_zero] at h0
  simp only [word, h0, h 1 (by decide)]

/-- A dword inside a string of bytes. -/
theorem dword_isSome {l : List UInt8} {p : Nat} (h : p + 4 ≤ l.length) : ∃ d, dword (Mem.ofList l) p = some d := by
  simp only [dword, Mem.ofList, List.getElem?_eq_getElem (show p < l.length by omega),
    List.getElem?_eq_getElem (show p + 1 < l.length by omega),
    List.getElem?_eq_getElem (show p + 2 < l.length by omega),
    List.getElem?_eq_getElem (show p + 3 < l.length by omega)]
  exact ⟨_, rfl⟩

/-- A dword that was read lies inside the string of bytes. -/
theorem dword_inside {l : List UInt8} {p n : Nat} (h : dword (Mem.ofList l) p = some n) : p + 4 ≤ l.length :=
  ((holds_of_dword h).take_drop (by rw [le32_length]; decide)).1

theorem dword_none {l : List UInt8} {p : Nat} (h : l.length < p + 4) : dword (Mem.ofList l) p = none :=
  Option.eq_none_iff_forall_ne_some.2 fun _ hd => Nat.not_lt.2 (dword_inside hd) h

end Bytes

/-! ## Overwriting -/

namespace Patch

variable {α : Type}

/-- `l` with `s` written over it at offset `p`, where it fits. -/
def patch (l : List α) (p : Nat) (s : List α) : Option (List α) :=
  if p + s.length ≤ l.length then some (l.take p ++ s ++ l.drop (p + s.length)) else none

theorem patch_isSome {l : List α} {p : Nat} {s : List α} (h : p + s.length ≤ l.length) :
    ∃ l', patch l p s = some l' :=
  ⟨_, if_pos h⟩

theorem patch_eq_some {l l' : List α} {p : Nat} {s : List α} (h : patch l p s = some l') :
    p + s.length ≤ l.length ∧ l' = l.take p ++ s ++ l.drop (p + s.length) := by
  unfold patch at h
  split at h
  · next hle => exact ⟨hle, (Option.some.inj h).symm⟩
  · cases h

/-- Written right behind `l`. -/
theorem patch_append {l t : List α} {p : Nat} (hp : p = l.length) {s : List α} (h : s.length ≤ t.length) :
    patch (l ++ t) p s = some (l ++ s ++ t.drop s.length) := by
  subst hp
  rw [patch, if_pos (by rw [List.length_append]; omega), List.take_left, ← List.drop_drop, List.drop_left]

theorem length_of_patch {l l' : List α} {p : Nat} {s : List α} (h : patch l p s = some l') :
    l'.length = l.length := by
  obtain ⟨hle, rfl⟩ := patch_eq_some h
  simp
  omega

theorem holds_of_patch {l l' : List α} {p : Nat} {s : List α} (h : patch l p s = some l') :
    (Mem.ofList l').Holds p s := by
  obtain ⟨hle, rfl⟩ := patch_eq_some h
  have := Mem.holds_ofList (l.take p) s (l.drop (p + s.length))
  rwa [List.length_take, Nat.min_eq_left (by omega)] at this

/-- Outside the overwritten range nothing changes. -/
theorem getElem?_of_patch {l l' : List α} {p : Nat} {s : List α} (h : patch l p s = some l') {i : Nat}
    (hi : i < p ∨ p + s.length ≤ i) : l'[i]? = l[i]? := by
  obtain ⟨hle, rfl⟩ := patch_eq_some h
  rcases hi with hi | hi
  · rw [List.append_assoc, List.getElem?_append_left (by rw [List.length_take]; omega), List.getElem?_take_of_lt hi]
  · rw [List.getElem?_append_right (by simp; omega), List.getElem?_drop]
    congr 1
    simp
    omega

end Patch
