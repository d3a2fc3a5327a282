/-
Pictures in memory: rows of the same width, one behind the other. A rectangle written row by row changes its own
cells and no others, and of rectangles painted over each other the last one is seen.
-/
import SiglusExtract.Lib.Patch

namespace Raster

open Patch

variable {α : Type}

/-- Write rows one below the other into a picture of width `w`, the first one at offset `p`. -/
def blit (w : Nat) : List α → Nat → List (List α) → Option (List α)
  | canvas, _, [] => some canvas
  | canvas, p, row :: rows => (patch canvas p row).bind fun canvas => blit w canvas (p + w) rows

/-- A row ends inside the picture. -/
theorem row_le (w : Nat) {n r : Nat} (hr : r < n) : r * w + w ≤ n * w := by
  have := Nat.mul_le_mul_right w hr
  rwa [Nat.succ_mul] at this

/-- A cell of a row lies inside the picture. -/
theorem cell_lt {w n r x : Nat} (hr : r < n) (hx : x < w) : r * w + x < n * w := by
  have := row_le w hr
  omega

/-- The cells of a row of a rectangle, by offset and by row and column. -/
theorem mem_row_iff {w x y c r n : Nat} (hx : x < w) (hc : c + n ≤ w) :
    (r * w + c ≤ y * w + x ∧ y * w + x < r * w + c + n) ↔ y = r ∧ c ≤ x ∧ x < c + n := by
  constructor
  · rintro ⟨hlow, hup⟩
    have hy : y = r := by
      rcases Nat.lt_trichotomy y r with hlt | heq | hlt
      · have := row_le w hlt
        omega
      · exact heq
      · have := row_le w hlt
        omega
    subst hy
    exact ⟨rfl, by omega, by omega⟩
  · rintro ⟨rfl, hle, hlt⟩
    exact ⟨by omega, by omega⟩

/-- Rows that fit are written, and nothing else changes. -/
theorem blit_spec {w h c n : Nat} (hc : c + n ≤ w) : ∀ {rows : List (List α)} {canvas : List α} {r : Nat},
    (∀ row ∈ rows, row.length = n) → canvas.length = h * w → r + rows.length ≤ h →
      ∃ canvas', blit w canvas (r * w + c) rows = some canvas' ∧ canvas'.length = h * w ∧ ∀ x y, x < w →
        canvas'[y * w + x]? = if c ≤ x ∧ x < c + n ∧ r ≤ y ∧ y < r + rows.length then rows[y - r]?.bind (·[x - c]?)
          else canvas[y * w + x]?
  | [], canvas, r, _, hlen, _ => by
    refine ⟨canvas, rfl, hlen, fun x y _ => ?_⟩
    rw [if_neg (by rw [List.length_nil]; omega)]
  | row :: rows, canvas, r, hrows, hlen, hr => by
    have hrow : row.length = n := hrows row List.mem_cons_self
    rw [List.length_cons] at hr
    have hfit : r * w + c + row.length ≤ canvas.length := by
      have := row_le w (show r < h by omega)
      omega
    obtain ⟨canvas₁, hpatch⟩ := patch_isSome hfit
    have hrest : ∀ row ∈ rows, row.length = n := fun row h => hrows row (List.mem_cons_of_mem _ h)
    have hlen₁ : canvas₁.length = h * w := by rw [length_of_patch hpatch, hlen]
    obtain ⟨canvas', hblit, hlen', hcells⟩ := blit_spec hc hrest hlen₁ (r := r + 1) (by omega)
    refine ⟨canvas', ?_, hlen', fun x y hx => ?_⟩
    · rw [blit, hpatch, Option.bind_some, show r * w + c + w = (r + 1) * w + c by rw [Nat.succ_mul]; omega]
      exact hblit
    · have hmem := mem_row_iff (y := y) (r := r) hx hc
      rw [hcells x y hx]
      by_cases hin : y = r ∧ c ≤ x ∧ x < c + n
      · -- in the first row
        obtain ⟨rfl, hle, hlt⟩ := hin
        rw [if_neg (by omega), if_pos (by rw [List.length_cons]; omega), Nat.sub_self, List.getElem?_cons_zero,
          Option.bind_some]
        have := holds_of_patch hpatch (x - c) (by omega)
        rw [Mem.ofList, show y * w + c + (x - c) = y * w + x by omega] at this
        rw [this, List.getElem?_eq_getElem]
      · have hout := mt hmem.1 hin
        have hsame : canvas₁[y * w + x]? = canvas[y * w + x]? := getElem?_of_patch hpatch (by omega)
        by_cases hbelow : c ≤ x ∧ x < c + n ∧ r + 1 ≤ y ∧ y < r + 1 + rows.length
        · rw [if_pos hbelow, if_pos (by rw [List.length_cons]; omega), show y - r = (y - (r + 1)) + 1 by omega,
            List.getElem?_cons_succ]
        · rw [if_neg hbelow, if_neg (by rw [List.length_cons]; omega), hsame]

/-- `n` rows of width `w`, cut out of a list. -/
def cut (w n : Nat) (l : List α) : List (List α) := (List.range n).map fun i => (l.drop (i * w)).take w

@[simp] theorem cut_length (w n : Nat) (l : List α) : (cut w n l).length = n := by
  rw [cut, List.length_map, List.length_range]

theorem length_of_mem_cut_le {w n : Nat} {l row : List α} (hl : n * w ≤ l.length) (hrow : row ∈ cut w n l) :
    row.length = w := by
  obtain ⟨i, hi, rfl⟩ := List.mem_map.1 hrow
  have := row_le w (List.mem_range.1 hi)
  rw [List.length_take, List.length_drop]
  omega

theorem length_of_mem_cut {w n : Nat} {l row : List α} (hl : l.length = n * w) (hrow : row ∈ cut w n l) :
    row.length = w :=
  length_of_mem_cut_le hl.ge hrow

/-- The rows put together again. -/
theorem cut_flatten_take (w n : Nat) (l : List α) : (cut w n l).flatten = l.take (n * w) := by
  induction n with
  | zero =>
    rw [Nat.zero_mul]
    rfl
  | succ n ih =>
    rw [cut] at ih
    rw [cut, List.range_succ, List.map_append, List.flatten_append, ih, Nat.succ_mul, List.take_add, List.map_singleton,
      List.flatten_singleton]

theorem cut_flatten {w n : Nat} {l : List α} (hl : l.length = n * w) : (cut w n l).flatten = l := by
  rw [cut_flatten_take, List.take_of_length_le (Nat.le_of_eq hl)]

/-- A cell of a row. -/
theorem cut_cell {w n i j : Nat} {l : List α} (hi : i < n) (hj : j < w) :
    (cut w n l)[i]?.bind (·[j]?) = l[i * w + j]? := by
  rw [cut, List.getElem?_map, List.getElem?_range hi, Option.map_some, Option.bind_some, List.getElem?_take_of_lt hj,
    List.getElem?_drop]

theorem cut_cons {w n : Nat} {row rest : List α} (hrow : row.length = w) :
    cut w (n + 1) (row ++ rest) = row :: cut w n rest := by
  have hdrop (i : Nat) : ((row ++ rest).drop ((i + 1) * w)).take w = (rest.drop (i * w)).take w := by
    rw [Nat.succ_mul, Nat.add_comm, ← List.drop_drop, List.drop_left' hrow]
  rw [cut, List.range_succ_eq_map, List.map_cons, List.map_map, Nat.zero_mul, List.drop_zero, List.take_left' hrow, cut]
  congr 1
  exact List.map_congr_left fun i _ => hdrop i

/-- Rows of the same width are cut apart again. -/
theorem cut_of_flatten {w : Nat} : ∀ {rows : List (List α)}, (∀ row ∈ rows, row.length = w) →
    cut w rows.length rows.flatten = rows
  | [], _ => rfl
  | row :: rows, h => by
    obtain ⟨hrow, hrows⟩ := List.forall_mem_cons.1 h
    rw [List.flatten_cons, List.length_cons, cut_cons hrow, cut_of_flatten hrows]

/-- Only the cells of the rows count. -/
theorem cut_append {w n : Nat} {l : List α} (hl : l.length = n * w) (rest : List α) :
    cut w n (l ++ rest) = cut w n l := by
  refine List.map_congr_left fun i hi => ?_
  have := row_le w (List.mem_range.1 hi)
  rw [List.drop_append_of_le_length (by omega), List.take_append_of_le_length (by rw [List.length_drop]; omega)]

/-! ## Upside down -/

/-- The first `n` rows in reverse order. -/
def flip (w n : Nat) (l : List α) : List α := (cut w n l).reverse.flatten

theorem cut_flip {w n : Nat} {l : List α} (hl : n * w ≤ l.length) : cut w n (flip w n l) = (cut w n l).reverse := by
  have hrows : ∀ row ∈ (cut w n l).reverse, row.length = w :=
    fun row hrow => length_of_mem_cut_le hl (List.mem_reverse.1 hrow)
  have := cut_of_flatten hrows
  rwa [List.length_reverse, cut_length] at this

/-- Row `i` from above is row `i` from below. -/
theorem flip_row {w n i : Nat} {l : List α} (hl : n * w ≤ l.length) (hi : i < n) :
    ((flip w n l).drop (i * w)).take w = (l.drop ((n - 1 - i) * w)).take w := by
  have hrow (l : List α) {j : Nat} (hj : j < n) : (cut w n l)[j]? = some ((l.drop (j * w)).take w) := by
    rw [cut, List.getElem?_map, List.getElem?_range hj, Option.map_some]
  have hflip := hrow (flip w n l) hi
  rw [cut_flip hl, List.getElem?_reverse (by rw [cut_length]; exact hi), cut_length, hrow l (by omega)] at hflip
  exact (Option.some.inj hflip).symm

theorem flip_length {w n : Nat} {l : List α} (hl : n * w ≤ l.length) : (flip w n l).length = n * w := by
  have hperm := ((List.reverse_perm (cut w n l)).flatten).length_eq
  rwa [cut_flatten_take, List.length_take, Nat.min_eq_left hl] at hperm

/-- Turned twice, the rows are what they were, whatever stands behind them. -/
theorem flip_flip {w n : Nat} {l : List α} (hl : n * w ≤ l.length) (rest : List α) :
    flip w n (flip w n l ++ rest) = l.take (n * w) := by
  rw [flip, cut_append (flip_length hl), cut_flip hl, List.reverse_reverse, cut_flatten_take]

/-! ## Rectangles -/

/-- A rectangle of cells, and where it stands in a picture. -/
structure Rect (α : Type) where
  x : Nat
  y : Nat
  width : Nat
  rows : List (List α)
  width_rows : ∀ row ∈ rows, row.length = width

namespace Rect

def Covers (r : Rect α) (x y : Nat) : Prop := r.x ≤ x ∧ x < r.x + r.width ∧ r.y ≤ y ∧ y < r.y + r.rows.length

instance (r : Rect α) (x y : Nat) : Decidable (r.Covers x y) := inferInstanceAs (Decidable (_ ∧ _ ∧ _ ∧ _))

/-- The rectangle lies in a picture of this width and height. -/
def Inside (r : Rect α) (w h : Nat) : Prop := r.x + r.width ≤ w ∧ r.y + r.rows.length ≤ h

/-- The cell of the rectangle at a place of the picture. -/
def cell (r : Rect α) (x y : Nat) : Option α := r.rows[y - r.y]?.bind (·[x - r.x]?)

/-- Write the rectangle into a picture of width `w`. -/
def paint (w : Nat) (canvas : List α) (r : Rect α) : Option (List α) := blit w canvas (r.y * w + r.x) r.rows

theorem paint_spec {r : Rect α} {w h : Nat} (hin : r.Inside w h) {canvas : List α} (hlen : canvas.length = h * w) :
    ∃ canvas', r.paint w canvas = some canvas' ∧ canvas'.length = h * w ∧ ∀ x y, x < w →
      canvas'[y * w + x]? = if r.Covers x y then r.cell x y else canvas[y * w + x]? :=
  blit_spec hin.1 r.width_rows hlen hin.2

/-- The rectangle that is seen at a place: the last one that covers it. -/
def seen (rs : List (Rect α)) (x y : Nat) : Option (Rect α) := rs.reverse.find? fun r => r.Covers x y

theorem seen_cons (r : Rect α) (rs : List (Rect α)) (x y : Nat) :
    seen (r :: rs) x y = (seen rs x y).or (if r.Covers x y then some r else none) := by
  rw [seen, List.reverse_cons, List.find?_append, seen]
  by_cases hc : r.Covers x y <;> simp [hc]

/-- Rectangles painted in order: each place shows the one that is seen there, or what it held before. -/
theorem paintAll_spec {w h : Nat} : ∀ {rs : List (Rect α)} {canvas : List α}, (∀ r ∈ rs, r.Inside w h) →
    canvas.length = h * w → ∃ canvas', rs.foldlM (fun canvas r => r.paint w canvas) canvas = some canvas' ∧
      canvas'.length = h * w ∧ ∀ x y, x < w →
        canvas'[y * w + x]? = (seen rs x y).elim canvas[y * w + x]? fun r => r.cell x y
  | [], canvas, _, hlen => ⟨canvas, rfl, hlen, fun _ _ _ => rfl⟩
  | r :: rs, canvas, hin, hlen => by
    obtain ⟨canvas₁, hpaint, hlen₁, hcells₁⟩ := paint_spec (hin r List.mem_cons_self) hlen
    obtain ⟨canvas', hall, hlen', hcells⟩ := paintAll_spec (fun r h => hin r (List.mem_cons_of_mem _ h)) hlen₁
    refine ⟨canvas', ?_, hlen', fun x y hx => ?_⟩
    · rw [List.foldlM_cons, hpaint]
      exact hall
    · rw [hcells x y hx, seen_cons]
      cases seen rs x y with
      | some r' => rfl
      | none =>
        rw [Option.none_or]
        by_cases hc : r.Covers x y
        · rw [if_pos hc]
          exact (hcells₁ x y hx).trans (if_pos hc)
        · rw [if_neg hc]
          exact (hcells₁ x y hx).trans (if_neg hc)

end Rect

end Raster
