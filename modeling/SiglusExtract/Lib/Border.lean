/-
Borders of words, the combinatorics behind Knuth–Morris–Pratt search. A border of the prefix of
length `n` is a proper prefix of it that is also its suffix; shifting a partial match of a word in
a text by the part a border leaves over gives the next partial match.
-/
import Mathlib.Order.Basic
import Mathlib.Tactic.Common

namespace Border

variable {β : Type}

/-- The first `k` letters of `w` are also the last `k` of its first `n`, `k` less than `n`. -/
def IsBorder (w : Nat → β) (n k : Nat) : Prop := k < n ∧ ∀ j < k, w j = w (n - k + j)

/-- The first `i` letters of `w` stand at position `x` of the text `t`. -/
def Match (w t : Nat → β) (x i : Nat) : Prop := ∀ j < i, w j = t (x + j)

theorem isBorder_zero (w : Nat → β) {n : Nat} (h : 0 < n) : IsBorder w n 0 :=
  ⟨h, fun _ hj => absurd hj (Nat.not_lt_zero _)⟩

theorem IsBorder.succ {w : Nat → β} {n k : Nat} (h : IsBorder w n k) (heq : w k = w n) :
    IsBorder w (n + 1) (k + 1) := by
  refine ⟨Nat.succ_lt_succ h.1, fun j hj => ?_⟩
  have hk := h.1
  rw [show n + 1 - (k + 1) + j = n - k + j by omega]
  by_cases hjk : j = k
  · rw [hjk, heq]
    congr 1
    omega
  · exact h.2 j (by omega)

theorem IsBorder.trans {w : Nat → β} {n k l : Nat} (h : IsBorder w n k) (h' : IsBorder w k l) :
    IsBorder w n l := by
  have hk := h.1
  have hl := h'.1
  refine ⟨by omega, fun j hj => ?_⟩
  rw [h'.2 j hj, h.2 (k - l + j) (by omega)]
  congr 1
  omega

theorem match_zero (w t : Nat → β) (x : Nat) : Match w t x 0 :=
  fun _ hj => absurd hj (Nat.not_lt_zero _)

theorem Match.succ {w t : Nat → β} {x i : Nat} (h : Match w t x i) (heq : w i = t (x + i)) :
    Match w t x (i + 1) := by
  intro j hj
  by_cases hji : j = i
  · rw [hji, heq]
  · exact h j (by omega)

/-- The shift of Knuth–Morris–Pratt: past a mismatch behind `i` letters, a border of them still
matches. -/
theorem Match.shift {w t : Nat → β} {x i k : Nat} (h : Match w t x i) (hb : IsBorder w i k) :
    Match w t (x + (i - k)) k := by
  intro j hj
  have hk := hb.1
  rw [hb.2 j hj, h (i - k + j) (by omega), Nat.add_assoc]

/-! ## Longest borders -/

theorem IsBorder.pred {w : Nat → β} {n k : Nat} (h : IsBorder w (n + 1) (k + 1)) :
    IsBorder w n k ∧ w k = w n := by
  have hk := h.1
  refine ⟨⟨by omega, fun j hj => ?_⟩, ?_⟩
  · rw [h.2 j (by omega)]
    congr 1
    omega
  · rw [h.2 k (by omega)]
    congr 1
    omega

/-- Of two borders the shorter is one of the longer. -/
theorem IsBorder.of_lt {w : Nat → β} {n k l : Nat} (hk : IsBorder w n k) (hl : IsBorder w n l) (hlt : l < k) :
    IsBorder w k l := by
  have h := hk.1
  refine ⟨hlt, fun j hj => ?_⟩
  rw [hl.2 j hj, hk.2 (k - l + j) (by omega)]
  congr 1
  omega

/-- `k` is the longest border of the first `n` letters. -/
structure IsLongest (w : Nat → β) (n k : Nat) : Prop where
  border : IsBorder w n k
  le : ∀ l, IsBorder w n l → l ≤ k

theorem IsBorder.congr {w w' : Nat → β} {n k : Nat} (h : IsBorder w n k) (hw : ∀ j < n, w j = w' j) :
    IsBorder w' n k := by
  have hk := h.1
  refine ⟨hk, fun j hj => ?_⟩
  rw [← hw j (by omega), ← hw (n - k + j) (by omega)]
  exact h.2 j hj

/-- The borders of a prefix depend on that prefix only. -/
theorem IsLongest.congr {w w' : Nat → β} {n k : Nat} (h : IsLongest w n k) (hw : ∀ j < n, w j = w' j) :
    IsLongest w' n k :=
  ⟨h.border.congr hw, fun l hl => h.le l (hl.congr fun j hj => (hw j hj).symm)⟩

/-- `x` is a border of the first `n` letters, and one letter more than `x` bounds the borders of the
first `n + 1`. -/
structure Candidate (w : Nat → β) (n x : Nat) : Prop where
  border : IsBorder w n x
  le : ∀ l, IsBorder w (n + 1) l → l ≤ x + 1

theorem isLongest_one (w : Nat → β) : IsLongest w 1 0 :=
  ⟨isBorder_zero w Nat.one_pos, fun _ hl => Nat.le_of_lt_succ hl.1⟩

theorem IsLongest.candidate {w : Nat → β} {n k : Nat} (h : IsLongest w n k) : Candidate w n k := by
  refine ⟨h.border, fun l hl => ?_⟩
  cases l with
  | zero => exact Nat.zero_le _
  | succ l => exact Nat.succ_le_succ (h.le l hl.pred.1)

theorem Candidate.extend {w : Nat → β} {n x : Nat} (h : Candidate w n x) (heq : w x = w n) :
    IsLongest w (n + 1) (x + 1) :=
  ⟨h.border.succ heq, h.le⟩

/-- Where a candidate cannot be extended, its own longest border is the next one. -/
theorem Candidate.fall {w : Nat → β} {n x k : Nat} (h : Candidate w n x) (hne : w x ≠ w n)
    (hk : IsLongest w x k) : Candidate w n k := by
  refine ⟨h.border.trans hk.border, fun l hl => ?_⟩
  cases l with
  | zero => exact Nat.zero_le _
  | succ l =>
    have hle := h.le _ hl
    have hlx : l ≠ x := by
      rintro rfl
      exact hne hl.pred.2
    exact Nat.succ_le_succ (hk.le l (h.border.of_lt hl.pred.1 (by omega)))

theorem Candidate.none {w : Nat → β} {n : Nat} (h : Candidate w n 0) (hne : w 0 ≠ w n) :
    IsLongest w (n + 1) 0 := by
  refine ⟨isBorder_zero w (Nat.succ_pos n), fun l hl => ?_⟩
  cases l with
  | zero => exact Nat.le_refl 0
  | succ l =>
    have := h.le _ hl
    obtain rfl : l = 0 := by omega
    exact absurd hl.pred.2 hne

/-! ## Longest matches -/

/-- A mismatch bounds the matches at its position. -/
theorem Match.le_of_ne {w t : Nat → β} {x i n : Nat} (h : Match w t x n) (hne : w i ≠ t (x + i)) : n ≤ i := by
  by_contra hlt
  exact hne (h i (by omega))

/-- Two matches that overlap make a border. -/
theorem Match.border {w t : Nat → β} {x i d n : Nat} (h : Match w t x i) (h' : Match w t (x + d) n)
    (hd : 0 < d) (hdi : d ≤ i) (hn : i ≤ d + n) : IsBorder w i (i - d) := by
  refine ⟨by omega, fun j hj => ?_⟩
  rw [h' j (by omega), h (i - (i - d) + j) (by omega)]
  congr 1
  omega

/-- No position a shift by the longest border skips holds a match that reaches as far. -/
theorem Match.lt_of_skip {w t : Nat → β} {x i k y n : Nat} (h : Match w t x i) (hk : IsLongest w i k)
    (hx : x < y) (hy : y < x + (i - k)) (h' : Match w t y n) : n < i := by
  by_contra hn
  have hb : IsBorder w i (i - (y - x)) :=
    h.border (by rwa [show x + (y - x) = y by omega]) (by omega) (by omega) (by omega)
  have := hk.le _ hb
  omega

/-- The match of `m` letters at `p` is, of those up to `cap` letters at the positions below `x`, the
first of the longest. -/
structure Best (w t : Nat → β) (cap x m p : Nat) : Prop where
  here : Match w t p m
  longest : ∀ y < x, ∀ n ≤ cap, Match w t y n → n ≤ m
  first : ∀ y < p, ∀ n ≤ cap, Match w t y n → n < m

theorem best_zero (w t : Nat → β) (cap : Nat) : Best w t cap 0 0 0 :=
  ⟨match_zero w t 0, fun _ hy => absurd hy (Nat.not_lt_zero _), fun _ hy => absurd hy (Nat.not_lt_zero _)⟩

/-- A match shorter than the best one shifts the positions that are searched. -/
theorem Best.keep {w t : Nat → β} {cap x m p i x' : Nat} (h : Best w t cap x m p)
    (hi : ∀ y, x ≤ y → y < x' → ∀ n ≤ cap, Match w t y n → n ≤ i) (hle : i ≤ m) : Best w t cap x' m p := by
  refine ⟨h.here, fun y hy n hn hm => ?_, h.first⟩
  by_cases hyx : y < x
  · exact h.longest y hyx n hn hm
  · exact Nat.le_trans (hi y (by omega) hy n hn hm) hle

/-- A match longer than the best one takes its place. -/
theorem Best.replace {w t : Nat → β} {cap x m p i x' : Nat} (h : Best w t cap x m p) (hm : Match w t x i)
    (hi : ∀ y, x ≤ y → y < x' → ∀ n ≤ cap, Match w t y n → n ≤ i) (hlt : m < i) : Best w t cap x' i x := by
  refine ⟨hm, fun y hy n hn hmy => ?_, fun y hy n hn hmy => Nat.lt_of_le_of_lt (h.longest y hy n hn hmy) hlt⟩
  by_cases hyx : y < x
  · exact Nat.le_of_lt (Nat.lt_of_le_of_lt (h.longest y hyx n hn hmy) hlt)
  · exact hi y (by omega) hy n hn hmy

/-! ## Strong borders -/

/-- The strong failure entry for `n` letters: their longest border that another letter follows, or -1. -/
structure Strong (w : Nat → β) (n : Nat) (v : Int) : Prop where
  border : v = -1 ∨ ∃ k : Nat, v = k ∧ IsBorder w n k ∧ w k ≠ w n
  le : ∀ l, IsBorder w n l → w l ≠ w n → (l : Int) ≤ v

/-- `v` is -1 or a border of `n` letters, and no longer border is followed by the same letter as they are. -/
structure Extends (w : Nat → β) (n : Nat) (v : Int) : Prop where
  border : v = -1 ∨ ∃ k : Nat, v = k ∧ IsBorder w n k
  le : ∀ l, IsBorder w n l → w l = w n → (l : Int) ≤ v

theorem not_isBorder_zero (w : Nat → β) (l : Nat) : ¬ IsBorder w 0 l := fun h => Nat.not_lt_zero l h.1

theorem strong_zero (w : Nat → β) : Strong w 0 (-1) :=
  ⟨.inl rfl, fun l hl => absurd hl (not_isBorder_zero w l)⟩

theorem extends_zero (w : Nat → β) : Extends w 0 (-1) :=
  ⟨.inl rfl, fun l hl => absurd hl (not_isBorder_zero w l)⟩

/-- The border that is followed by the same letter makes the longest one of one letter more. -/
theorem Extends.longest {w : Nat → β} {n k : Nat} (h : Extends w n k) (hb : IsBorder w n k) (heq : w k = w n) :
    IsLongest w (n + 1) (k + 1) := by
  refine ⟨hb.succ heq, fun l hl => ?_⟩
  cases l with
  | zero => exact Nat.zero_le _
  | succ l =>
    have := h.le l hl.pred.1 hl.pred.2
    omega

theorem Extends.none {w : Nat → β} {n : Nat} (h : Extends w n (-1)) : IsLongest w (n + 1) 0 := by
  refine ⟨isBorder_zero w (Nat.succ_pos n), fun l hl => ?_⟩
  cases l with
  | zero => exact Nat.le_refl 0
  | succ l =>
    have := h.le l hl.pred.1 hl.pred.2
    omega

theorem extends_of_longest {w : Nat → β} {n k : Nat} (h : IsLongest w n k) : Extends w n k :=
  ⟨.inr ⟨k, rfl, h.border⟩, fun l hl _ => Int.ofNat_le.2 (h.le l hl)⟩

/-- Where the letter does not match, the entry of the border is the next candidate. -/
theorem Extends.fall {w : Nat → β} {n k : Nat} {v : Int} (h : Extends w n k) (hb : IsBorder w n k) (hne : w k ≠ w n)
    (hv : Strong w k v) : Extends w n v := by
  constructor
  · rcases hv.border with rfl | ⟨l, rfl, hl, -⟩
    · exact .inl rfl
    · exact .inr ⟨l, rfl, hb.trans hl⟩
  · intro l hl heq
    have hle := h.le l hl heq
    have hlk : l ≠ k := fun hlk => hne (hlk ▸ heq)
    exact hv.le l (hb.of_lt hl (by omega)) fun h' => hne (h'.symm.trans heq)

/-- The longest border is the entry, if another letter follows it. -/
theorem IsLongest.strong {w : Nat → β} {n k : Nat} (h : IsLongest w n k) (hne : w k ≠ w n) : Strong w n k :=
  ⟨.inr ⟨k, rfl, h.border, hne⟩, fun l hl _ => Int.ofNat_le.2 (h.le l hl)⟩

/-- Else the entry is that of the border. -/
theorem Strong.of_longest {w : Nat → β} {n k : Nat} {v : Int} (h : Strong w k v) (hk : IsLongest w n k)
    (heq : w k = w n) : Strong w n v := by
  constructor
  · rcases h.border with rfl | ⟨l, rfl, hl, hne⟩
    · exact .inl rfl
    · exact .inr ⟨l, rfl, hk.border.trans hl, heq ▸ hne⟩
  · intro l hl hne
    have hlk : l < k := Nat.lt_of_le_of_ne (hk.le l hl) fun hlk => hne (hlk ▸ heq)
    exact h.le l (hk.border.of_lt hl hlk) (heq ▸ hne)

theorem Strong.lt {w : Nat → β} {n : Nat} {v : Int} (h : Strong w n v) : v < n := by
  rcases h.border with rfl | ⟨k, rfl, hk, -⟩
  · omega
  · exact Int.ofNat_lt.2 hk.1

/-- No position that the entry skips holds the word. -/
theorem Strong.skip {w t : Nat → β} {x k y n : Nat} {v : Int} (hv : Strong w k v) (h : Match w t x k)
    (hne : w k ≠ t (x + k)) (hk : k < n) (hy : x < y) (hyk : y + v < x + k) : ¬ Match w t y n := by
  intro h'
  have hv' : -1 ≤ v := by
    rcases hv.border with rfl | ⟨l, rfl, -⟩ <;> omega
  have hxy : x + (y - x) = y := by omega
  have hb : IsBorder w k (k - (y - x)) := h.border (by rwa [hxy]) (by omega) (by omega) (by omega)
  have hletter : w (k - (y - x)) = t (x + k) := by
    rw [h' (k - (y - x)) (by omega)]
    congr 1
    omega
  have := hv.le _ hb fun heq => hne (heq.symm.trans hletter)
  omega

/-! ## Common prefixes -/

/-- How many letters two words have in common from their starts on. -/
def commonPrefix [DecidableEq β] : List β → List β → Nat
  | a :: v, b :: w => if a = b then commonPrefix v w + 1 else 0
  | [], _ => 0
  | _, [] => 0

theorem le_commonPrefix_iff [DecidableEq β] {v w : List β} {n : Nat} :
    n ≤ commonPrefix v w ↔ ∀ j < n, ∃ a, v[j]? = some a ∧ w[j]? = some a := by
  induction v generalizing w n with
  | nil =>
    cases n with
    | zero => simp
    | succ n => exact iff_of_false (Nat.not_succ_le_zero n) fun h => by simpa using h 0 (Nat.succ_pos n)
  | cons a v ih =>
    cases w with
    | nil =>
      cases n with
      | zero => simp
      | succ n => exact iff_of_false (Nat.not_succ_le_zero n) fun h => by simpa using h 0 (Nat.succ_pos n)
    | cons b w =>
      cases n with
      | zero => simp
      | succ n =>
        rw [commonPrefix]
        constructor
        · intro h j hj
          split at h
          · rename_i hab
            subst hab
            cases j with
            | zero => exact ⟨a, rfl, rfl⟩
            | succ j => exact ih.1 (Nat.le_of_succ_le_succ h) j (Nat.lt_of_succ_lt_succ hj)
          · omega
        · intro h
          obtain ⟨c, hv, hw⟩ := h 0 (Nat.succ_pos n)
          cases hv
          cases hw
          rw [if_pos rfl]
          exact Nat.succ_le_succ (ih.2 fun j hj => h (j + 1) (Nat.succ_lt_succ hj))

end Border
