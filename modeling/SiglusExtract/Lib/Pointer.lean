/-
Buffers accessed through pointers, which are offsets that may be negative: what lies outside the buffer cannot be read
or written. Writes behind each other are one write, and writes to different places can be swapped; planes of samples are
rows a stride apart.
-/
import SiglusExtract.Lib.Raster

namespace Patch

variable {α : Type}

/-- A write in two parts. -/
theorem patch_append_right {l l' s t : List α} {p : Nat} (h : patch l p (s ++ t) = some l') :
    ∃ l₁, patch l p s = some l₁ ∧ patch l₁ (p + s.length) t = some l' := by
  obtain ⟨hle, rfl⟩ := patch_eq_some h
  rw [List.length_append] at hle
  refine ⟨_, if_pos (by omega), ?_⟩
  rw [patch_append (by rw [List.length_append, List.length_take]; omega) (by rw [List.length_drop]; omega),
    List.drop_drop, List.length_append, Nat.add_assoc, List.append_assoc (l.take p)]

/-- The earlier one of two writes, the other one behind it, can be made last. -/
theorem patch_swap {l l₁ l₂ s t : List α} {p q : Nat} (hs : patch l p s = some l₁) (ht : patch l₁ q t = some l₂)
    (hpq : p + s.length ≤ q) : ∃ l', patch l q t = some l' ∧ patch l' p s = some l₂ := by
  have hlen := length_of_patch hs
  have hle := (patch_eq_some ht).1
  obtain ⟨l', hl'⟩ := patch_isSome (show q + t.length ≤ l.length by omega)
  have hlen' := length_of_patch hl'
  obtain ⟨l₃, hl₃⟩ := patch_isSome (show p + s.length ≤ l'.length by omega)
  refine ⟨l', hl', ?_⟩
  rw [hl₃, Option.some.injEq]
  refine List.ext_getElem? fun i => ?_
  by_cases hp : p ≤ i ∧ i < p + s.length
  · -- where the first one writes
    rw [getElem?_of_patch ht (by omega)]
    have h₃ := holds_of_patch hl₃ (i - p) (by omega)
    have h₁ := holds_of_patch hs (i - p) (by omega)
    rw [show p + (i - p) = i by omega] at h₁ h₃
    exact h₃.trans h₁.symm
  · rw [getElem?_of_patch hl₃ (by omega)]
    by_cases hq : q ≤ i ∧ i < q + t.length
    · have h' := holds_of_patch hl' (i - q) (by omega)
      have h₂ := holds_of_patch ht (i - q) (by omega)
      rw [show q + (i - q) = i by omega] at h' h₂
      exact h'.trans h₂.symm
    · rw [getElem?_of_patch hl' (by omega), getElem?_of_patch ht (by omega), getElem?_of_patch hs (by omega)]

end Patch

namespace Raster

open Patch

variable {α : Type}

/-- Rows that fit, the last one without what is between two rows. -/
theorem blit_isSome {w n : Nat} : ∀ {rows : List (List α)} {canvas : List α} {p : Nat}, (∀ row ∈ rows, row.length ≤ n) →
    p + (rows.length - 1) * w + n ≤ canvas.length → ∃ canvas', blit w canvas p rows = some canvas'
  | [], canvas, p, _, _ => ⟨canvas, rfl⟩
  | [row], canvas, p, hrows, hfit => by
    have hrow := hrows row List.mem_cons_self
    rw [List.length_singleton, Nat.sub_self, Nat.zero_mul] at hfit
    obtain ⟨canvas', h⟩ := patch_isSome (show p + row.length ≤ canvas.length by omega)
    refine ⟨canvas', ?_⟩
    rw [blit, h]
    rfl
  | row :: next :: rows, canvas, p, hrows, hfit => by
    have hrow := hrows row List.mem_cons_self
    rw [List.length_cons, List.length_cons, Nat.add_sub_cancel, Nat.succ_mul] at hfit
    obtain ⟨canvas₁, h₁⟩ := patch_isSome (show p + row.length ≤ canvas.length by omega)
    obtain ⟨canvas', h'⟩ := @blit_isSome w n (next :: rows) canvas₁ (p + w)
      (fun row h => hrows row (List.mem_cons_of_mem _ h)) (by
        rw [length_of_patch h₁, List.length_cons, Nat.add_sub_cancel]
        omega)
    refine ⟨canvas', ?_⟩
    rw [blit, h₁]
    exact h'

theorem length_of_blit {w : Nat} : ∀ {rows : List (List α)} {canvas canvas' : List α} {p : Nat},
    blit w canvas p rows = some canvas' → canvas'.length = canvas.length
  | [], _, _, _, h => by
    cases h
    rfl
  | row :: rows, canvas, canvas', p, h => by
    rw [blit, Option.bind_eq_some_iff] at h
    obtain ⟨canvas₁, hpatch, h⟩ := h
    rw [length_of_blit h, length_of_patch hpatch]

theorem blit_before {w : Nat} : ∀ {rows : List (List α)} {canvas canvas' : List α} {p : Nat},
    blit w canvas p rows = some canvas' → ∀ i < p, canvas'[i]? = canvas[i]?
  | [], _, _, _, h, _, _ => by
    cases h
    rfl
  | row :: rows, canvas, canvas', p, h, i, hi => by
    rw [blit, Option.bind_eq_some_iff] at h
    obtain ⟨canvas₁, hpatch, h⟩ := h
    rw [blit_before h i (by omega), getElem?_of_patch hpatch (.inl hi)]

/-- Rows that are not wider than the stride stand in the picture. -/
theorem blit_holds {w : Nat} : ∀ {rows : List (List α)} {canvas canvas' : List α} {p : Nat},
    blit w canvas p rows = some canvas' → (∀ row ∈ rows, row.length ≤ w) →
      ∀ r row, rows[r]? = some row → (Mem.ofList canvas').Holds (p + r * w) row
  | [], _, _, _, _, _, r, row, hr => by cases hr
  | first :: rows, canvas, canvas', p, h, hrows, r, row, hr => by
    rw [blit, Option.bind_eq_some_iff] at h
    obtain ⟨canvas₁, hpatch, h⟩ := h
    cases r with
    | zero =>
      cases hr
      intro i hi
      have hle := hrows first List.mem_cons_self
      rw [Nat.zero_mul, Nat.add_zero, Mem.ofList, blit_before h (p + i) (by omega)]
      exact holds_of_patch hpatch i hi
    | succ r =>
      have hrest := blit_holds h (fun row h => hrows row (List.mem_cons_of_mem _ h)) r row hr
      rwa [show p + w + r * w = p + (r + 1) * w by rw [Nat.succ_mul]; omega] at hrest

end Raster

namespace Pointer

variable {α : Type}

/-- `n` cells at `p`. -/
def load (l : List α) (p : Int) (n : Nat) : Option (List α) :=
  if 0 ≤ p ∧ p + n ≤ l.length then some ((l.drop p.toNat).take n) else none

/-- `s` written at `p`. -/
def store (l : List α) (p : Int) (s : List α) : Option (List α) :=
  if 0 ≤ p then Patch.patch l p.toNat s else none

theorem store_natCast (l : List α) (p : Nat) (s : List α) : store l p s = Patch.patch l p s := by
  rw [store, if_pos (by omega), Int.toNat_natCast]

theorem load_natCast {l : List α} {p n : Nat} (h : p + n ≤ l.length) : load l p n = some ((l.drop p).take n) := by
  rw [load, if_pos ⟨by omega, by omega⟩, Int.toNat_natCast]

/-- What is read in a part of a buffer. -/
theorem load_frame {l row : List α} {p : Int} {n : Nat} (h : load l p n = some row) (pre post : List α) :
    load (pre ++ l ++ post) (pre.length + p) n = some row := by
  unfold load at h
  split at h
  · next hin =>
    cases h
    lift p to Nat using hin.1
    have hle : p + n ≤ l.length := by omega
    rw [← Nat.cast_add, load_natCast (by simp only [List.length_append]; omega), Int.toNat_natCast, List.append_assoc,
      ← List.drop_drop, List.drop_left, List.drop_append_of_le_length (by omega),
      List.take_append_of_le_length (by rw [List.length_drop]; omega)]
  · cases h

/-- What is written in a part of a buffer. -/
theorem store_frame {l l' s : List α} {p : Int} (h : store l p s = some l') (pre post : List α) :
    store (pre ++ l ++ post) (pre.length + p) s = some (pre ++ l' ++ post) := by
  unfold store at h
  split at h
  · next hin =>
    lift p to Nat using hin
    rw [Int.toNat_natCast] at h
    obtain ⟨hle, rfl⟩ := Patch.patch_eq_some h
    rw [← Nat.cast_add, store_natCast, Patch.patch, if_pos (by simp only [List.length_append]; omega)]
    congr 1
    rw [List.append_assoc pre l post, List.take_length_add_append, Nat.add_assoc, List.drop_length_add_append,
      List.take_append_of_le_length (by omega), List.drop_append_of_le_length hle]
    simp only [List.append_assoc]
  · cases h

/-- What is copied in a part of a buffer. -/
theorem copy_frame {l l' : List α} {p q : Int} {n : Nat} (h : ((load l p n).bind fun row => store l q row) = some l')
    (pre post : List α) : ((load (pre ++ l ++ post) (pre.length + p) n).bind fun row =>
      store (pre ++ l ++ post) (pre.length + q) row) = some (pre ++ l' ++ post) := by
  obtain ⟨row, hload, hstore⟩ := Option.bind_eq_some_iff.1 h
  rw [load_frame hload, Option.bind_some, store_frame hstore]

/-- One cell copied to another. -/
theorem copy_cell {l : List α} {p q : Nat} (hp : p < l.length) (hq : q < l.length) :
    ((load l p 1).bind fun cell => store l q cell) = some (l.set q l[p]) := by
  rw [load_natCast (by omega), Option.bind_some, store_natCast, Patch.patch, List.drop_eq_getElem_cons hp,
    List.take_succ_cons, List.take_zero, if_pos (by rw [List.length_singleton]; omega),
    List.set_eq_take_append_cons_drop, if_pos hq, List.append_assoc]
  rfl

/-- One row copied to another. -/
theorem copy_row {l : List α} {w h a b : Nat} (hl : l.length = h * w) (ha : a < h) (hb : b < h) :
    ∃ l', ((load l (a * w : Nat) w).bind fun row => store l (b * w : Nat) row) = some l' ∧ l'.length = h * w ∧
      ∀ c < w, ∀ r, l'[r * w + c]? = l[(if r = b then a else r) * w + c]? := by
  have hrow : ∀ r < h, r * w + w ≤ l.length := by
    intro r hr
    rw [hl]
    exact Raster.row_le w hr
  have hlen : ((l.drop (a * w)).take w).length = w := by
    have := hrow a ha
    rw [List.length_take, List.length_drop]
    omega
  obtain ⟨l', hpatch⟩ := Patch.patch_isSome (show b * w + ((l.drop (a * w)).take w).length ≤ l.length by
    rw [hlen]
    exact hrow b hb)
  refine ⟨l', ?_, by rw [Patch.length_of_patch hpatch, hl], fun c hc r => ?_⟩
  · rw [load_natCast (hrow a ha), Option.bind_some, store_natCast, hpatch]
  · split
    · next heq =>
      subst heq
      have hheld := Patch.holds_of_patch hpatch c (by rw [hlen]; exact hc)
      rw [Mem.ofList] at hheld
      rw [hheld, List.getElem_take, List.getElem_drop, List.getElem?_eq_getElem]
    · next hne =>
      have hmem := @Raster.mem_row_iff w c r 0 b w hc (by omega)
      refine Patch.getElem?_of_patch hpatch ?_
      rw [hlen]
      omega

/-- A buffer as memory. -/
def tape (l : List α) : Tape α := fun p => if 0 ≤ p then l[p.toNat]? else none

theorem tape_natCast (l : List α) (p : Nat) : tape l p = l[p]? := by
  rw [tape, if_pos (by omega), Int.toNat_natCast]

/-- A plane of samples lies in memory, its rows `stride` apart. -/
def Plane (m : Tape α) (p stride : Int) (w h : Nat) (cell : Nat → Nat → α) : Prop :=
  ∀ x < w, ∀ y < h, m (p + stride * y + x) = some (cell x y)

end Pointer
