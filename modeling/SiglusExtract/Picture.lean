/-
`fix_bmp` and `EncodeBmpToPng`, as they stand in UnpackG00.h and UnpackOmv.h: the rows of a picture turned upside
down in place, and the row pointers that are handed to libpng, from the last row of a bitmap up.
-/
import SiglusExtract.Lib.CInt
import SiglusExtract.Lib.Raster
import SiglusExtract.Tool
import Mathlib.Tactic.Ring

namespace SiglusExtract

open CInt Patch

namespace Picture

/-! ## fix_bmp -/

/-- `n` bytes at offset `p` of a buffer. -/
def cells (data : List UInt8) (p n : Nat) : Option (List UInt8) :=
  if p + n ≤ data.length then some ((data.drop p).take n) else none

/-- The loop of `fix_bmp`, with `k` rows left to copy: row `m_height` of `data` goes to the row of `tmp_data` that is as
far from its end. The offsets are 32-bit. -/
def copyRows (widthlen height : Nat) (data : List UInt8) : Nat → List UInt8 → Option (List UInt8)
  | 0, tmpData => some tmpData
  | k + 1, tmpData => do
    let mHeight := height - (k + 1)
    let destbuf := (height - mHeight - 1) * widthlen % 2 ^ 32
    let srcbuf := widthlen * mHeight % 2 ^ 32
    let row ← cells data srcbuf widthlen
    let tmpData ← patch tmpData destbuf row
    copyRows widthlen height data k tmpData

/-- `fix_bmp` for pixels of `bpp` bytes. `junk` is what `tmp_data` holds; where it cannot be allocated, `new` throws. -/
def fixBmp (bpp : Nat) (junk : Nat → UInt8) (width height : Nat) (data : List UInt8) : Except Failure (List UInt8) := do
  let widthlen := width * bpp % 2 ^ 32
  let size := widthlen * height % 2 ^ 32
  heapAlloc size
  let tmpData ← orFault (copyRows widthlen height data height ((List.range size).map junk))
  orFault (patch data 0 tmpData)

/-- The rows that a loop which runs through has read lie in the buffer. -/
theorem copyRows_inside {widthlen height : Nat} {data : List UInt8} : ∀ (k : Nat) {tmpData out : List UInt8},
    copyRows widthlen height data k tmpData = some out → ∀ m < height, height - k ≤ m →
      widthlen * m % 2 ^ 32 + widthlen ≤ data.length
  | 0, _, _, _, m, hm, hle => by omega
  | k + 1, tmpData, out, h, m, hm, hle => by
    simp only [copyRows, Option.bind_eq_bind, Option.bind_eq_some_iff] at h
    obtain ⟨row, hrow, tmpData, -, h⟩ := h
    by_cases heq : m = height - (k + 1)
    · subst heq
      unfold cells at hrow
      split at hrow
      · next hin => exact hin
      · cases hrow
    · exact copyRows_inside k h m hm (by omega)

/-! ## EncodeBmpToPng -/

/-- `n` pointers from `p` on, `step` apart. -/
def pointers (step : Int) : Nat → Int → List Int
  | 0, _ => []
  | n + 1, p => p :: pointers step n (p + step)

/-- `(bit / 8 * width + 3)&~3`. -/
def bytesPerRow (width bit : Int) : Int :=
  let bytes := i32 (i32 (bit / 8 * width) + 3)
  bytes - bytes % 4

/-- What `EncodeBmpToPng` passes to `png_write_image`, as offsets from `dib`; `none` for bit depths that it
rejects. -/
def encodeBmpToPng (width height bit : Int) : Option (List Int) :=
  if bit ≠ 8 ∧ bit ≠ 24 ∧ bit ≠ 32 then none
  else
    let realHeight := if height > 0 then height else -height
    let bytesPerRow := bytesPerRow width bit
    if height < 0 then some (pointers bytesPerRow realHeight.toNat 0)
    else some (pointers (-bytesPerRow) realHeight.toNat (i32 ((realHeight - 1) * bytesPerRow)))

end Picture

/-- `UnpackG00::fix_bmp`. -/
def UnpackG00.fixBmp : (Nat → UInt8) → Nat → Nat → List UInt8 → Except Failure (List UInt8) := Picture.fixBmp 4

/-- `UnpackG00::EncodeBmpToPng`. -/
def UnpackG00.encodeBmpToPng : Int → Int → Int → Option (List Int) := Picture.encodeBmpToPng

/-- `UnpackOMV::fix_bmp`. -/
def UnpackOmv.fixBmp : (Nat → UInt8) → Nat → Nat → List UInt8 → Except Failure (List UInt8) := Picture.fixBmp 3

/-- `UnpackOMV::fix_bmp32`. -/
def UnpackOmv.fixBmp32 : (Nat → UInt8) → Nat → Nat → List UInt8 → Except Failure (List UInt8) := Picture.fixBmp 4

/-- `UnpackOMV::EncodeBmpToPng`. -/
def UnpackOmv.encodeBmpToPng : Int → Int → Int → Option (List Int) := Picture.encodeBmpToPng

/-- A picture at the start of a buffer. -/
structure Picture (bpp : Nat) where
  width : Nat
  height : Nat
  data : List UInt8
  width_pos : 0 < width
  height_pos : 0 < height
  length_le : height * (width * bpp) ≤ data.length
  allocated : heapAlloc data.length = .ok ()

namespace Picture

variable {bpp : Nat} (p : Picture bpp)

/-- The bytes of a row. -/
def row (i : Nat) : List UInt8 := (p.data.drop (i * (p.width * bpp))).take (p.width * bpp)

theorem size_lt : p.height * (p.width * bpp) < 2 ^ 31 :=
  p.length_le.trans_lt (lt_of_heapAlloc p.allocated)

theorem row_le {i : Nat} (hi : i < p.height) : i * (p.width * bpp) + p.width * bpp ≤ p.data.length :=
  (Raster.row_le (p.width * bpp) hi).trans p.length_le

/-! ## The flip -/

theorem cells_row {i : Nat} (hi : i < p.height) : cells p.data (i * (p.width * bpp)) (p.width * bpp) = some (p.row i) :=
  if_pos (p.row_le hi)

/-- A row written in front of those that are there already. -/
theorem patch_row {w k : Nat} {old done row : List UInt8} (hrow : row.length = w) (hold : k * w + w ≤ old.length) :
    patch (old.take (k * w + w) ++ done) (k * w) row = some (old.take (k * w) ++ (row ++ done)) := by
  have hlen : (old.take (k * w + w)).length = k * w + w := by rw [List.length_take, Nat.min_eq_left hold]
  rw [patch, if_pos (by rw [List.length_append, hlen]; omega), List.take_append_of_le_length (by omega), List.take_take,
    Nat.min_eq_left (Nat.le_add_right _ _), hrow, List.drop_left' hlen, List.append_assoc]

/-- With `k` rows left, the first `k` rows of the buffer are as they were, and behind them stand the rows copied. -/
theorem copyRows_eq {old : List UInt8} (hold : old.length = p.height * (p.width * bpp)) : ∀ k ≤ p.height,
    copyRows (p.width * bpp) p.height p.data k
      (old.take (k * (p.width * bpp)) ++ (Raster.cut (p.width * bpp) (p.height - k) p.data).reverse.flatten) =
        some (Raster.flip (p.width * bpp) p.height p.data)
  | 0, _ => by
    rw [copyRows, Nat.zero_mul, List.take_zero, List.nil_append, Nat.sub_zero]
    rfl
  | k + 1, hk => by
    have ih := copyRows_eq hold k (by omega)
    have hsize := p.size_lt
    have hdest := Nat.mul_le_mul_right (p.width * bpp) hk
    have hsrc := Nat.mul_le_mul_right (p.width * bpp) (show p.height - (k + 1) ≤ p.height by omega)
    have hrow := p.cells_row (i := p.height - (k + 1)) (by omega)
    have hlen : (p.row (p.height - (k + 1))).length = p.width * bpp := by
      have := p.row_le (i := p.height - (k + 1)) (by omega)
      rw [row, List.length_take, List.length_drop]
      omega
    -- the rows copied, and the one that comes next
    have hcut : Raster.cut (p.width * bpp) (p.height - k) p.data =
        Raster.cut (p.width * bpp) (p.height - (k + 1)) p.data ++ [p.row (p.height - (k + 1))] := by
      rw [show p.height - k = p.height - (k + 1) + 1 by omega, Raster.cut, List.range_succ, List.map_append]
      rfl
    rw [hcut, List.reverse_append, List.reverse_singleton, List.singleton_append, List.flatten_cons] at ih
    rw [Nat.succ_mul] at hdest
    rw [copyRows, show p.height - (p.height - (k + 1)) - 1 = k by omega, Nat.mul_comm _ (p.height - (k + 1)),
      Nat.mod_eq_of_lt (by omega), Nat.mod_eq_of_lt (by omega), hrow, Option.bind_eq_bind, Option.bind_some,
      Nat.succ_mul, patch_row hlen (by omega), Option.bind_some]
    exact ih

/-- The picture upside down. -/
def flipped : Picture bpp where
  width := p.width
  height := p.height
  data := Raster.flip (p.width * bpp) p.height p.data ++ p.data.drop (p.height * (p.width * bpp))
  width_pos := p.width_pos
  height_pos := p.height_pos
  length_le := by rw [List.length_append, Raster.flip_length p.length_le]; omega
  allocated := by
    have hle := p.length_le
    rw [List.length_append, Raster.flip_length p.length_le, List.length_drop, Nat.add_sub_cancel' hle]
    exact p.allocated

theorem flipped_row {i : Nat} (hi : i < p.height) :
    p.flipped.row i =
      ((Raster.flip (p.width * bpp) p.height p.data).drop (i * (p.width * bpp))).take (p.width * bpp) := by
  have hrow := Raster.row_le (p.width * bpp) hi
  have hlen := Raster.flip_length p.length_le
  show ((Raster.flip (p.width * bpp) p.height p.data ++ p.data.drop (p.height * (p.width * bpp))).drop
    (i * (p.width * bpp))).take (p.width * bpp) = _
  rw [List.drop_append_of_le_length (by omega), List.take_append_of_le_length (by rw [List.length_drop]; omega)]

/-- `fix_bmp` turns the picture upside down. -/
theorem fixBmp_eq (junk : Nat → UInt8) :
    fixBmp bpp junk p.width p.height p.data = .ok p.flipped.data := by
  have hsize := p.size_lt
  have hrow := Nat.mul_le_mul_right (p.width * bpp) p.height_pos
  have hloop := @copyRows_eq bpp p ((List.range (p.height * (p.width * bpp))).map junk) (by simp) p.height le_rfl
  rw [Nat.sub_self, List.take_of_length_le (by simp)] at hloop
  have hzero : (Raster.cut (p.width * bpp) 0 p.data).reverse.flatten = [] := rfl
  rw [hzero, List.append_nil] at hloop
  have hflip := Raster.flip_length p.length_le
  have hwidthlen : p.width * bpp % 2 ^ 32 = p.width * bpp := Nat.mod_eq_of_lt (by omega)
  rw [fixBmp, hwidthlen, Nat.mul_comm (p.width * bpp) p.height, Nat.mod_eq_of_lt (by omega)]
  rw [heapAlloc_ok hsize, ok_bind, hloop, orFault_some, ok_bind, patch, hflip, Nat.zero_add, if_pos p.length_le,
    List.take_zero, List.nil_append]
  rfl

/-- Applied twice, it gives the picture back. -/
theorem fixBmp_fixBmp (junk : Nat → UInt8) : fixBmp bpp junk p.width p.height p.flipped.data = .ok p.data := by
  have h := p.flipped.fixBmp_eq junk
  have hback : p.flipped.flipped.data = p.data := by
    have hrows := Raster.flip_flip p.length_le (p.data.drop (p.height * (p.width * bpp)))
    show Raster.flip (p.width * bpp) p.height _ ++ List.drop (p.height * (p.width * bpp)) _ = _
    dsimp only [flipped]
    rw [hrows, List.drop_left' (Raster.flip_length p.length_le), List.take_append_drop]
  rwa [hback] at h

/-! ## The row pointers -/

theorem pointers_eq (step : Int) : ∀ (n : Nat) (q : Int),
    pointers step n q = (List.range n).map fun i : Nat => q + i * step
  | 0, _ => rfl
  | n + 1, q => by
    rw [pointers, pointers_eq step n, List.range_succ_eq_map, List.map_cons, List.map_map]
    congr 1
    · simp
    · refine List.map_congr_left fun i _ => ?_
      show q + step + i * step = q + (i + 1 : Nat) * step
      push_cast
      ring

/-- The rounded row length is the row length, where that is a multiple of 4. -/
theorem bytesPerRow_eq (h : p.width * bpp % 4 = 0) : bytesPerRow p.width (8 * bpp : Nat) = (p.width * bpp : Nat) := by
  have hsize := p.size_lt
  have hrow := Nat.mul_le_mul_right (p.width * bpp) p.height_pos
  have hbit : ((8 * bpp : Nat) : Int) / 8 * p.width = (p.width * bpp : Nat) := by
    rw [Nat.cast_mul, Nat.cast_ofNat, Int.mul_ediv_cancel_left _ (by decide), Nat.cast_mul, mul_comm]
  have hbytes : i32 (p.width * bpp : Nat) = (p.width * bpp : Nat) := i32_eq (by omega) (by omega)
  have hround : i32 ((p.width * bpp : Nat) + 3) = (p.width * bpp : Nat) + 3 := i32_eq (by omega) (by omega)
  rw [bytesPerRow, hbit, hbytes, hround]
  omega

/-- The pointers go up from the last row. -/
theorem encodeBmpToPng_eq (hbpp : bpp = 3 ∨ bpp = 4) (h : p.width * bpp % 4 = 0) :
    encodeBmpToPng p.width p.height (8 * bpp : Nat) =
      some ((List.range p.height).map fun i => (((p.height - 1 - i) * (p.width * bpp) : Nat) : Int)) := by
  have hsize := p.size_lt
  have hpos := p.height_pos
  have hlast := Nat.mul_le_mul_right (p.width * bpp) (show p.height - 1 ≤ p.height by omega)
  have hstart : i32 (((p.height : Int) - 1) * (p.width * bpp : Nat)) = ((p.height - 1) * (p.width * bpp) : Nat) := by
    rw [show (p.height : Int) - 1 = (p.height - 1 : Nat) by omega, ← Nat.cast_mul]
    exact i32_eq (by omega) (by omega)
  have hup : (p.height : Int) > 0 := by omega
  have hdown : ¬ (p.height : Int) < 0 := by omega
  rw [encodeBmpToPng, if_neg (by omega)]
  dsimp only
  rw [p.bytesPerRow_eq h, if_pos hup, if_neg hdown, hstart, Int.toNat_natCast, pointers_eq, Option.some.injEq]
  refine List.map_congr_left fun i hi => ?_
  have hi := List.mem_range.1 hi
  rw [Nat.cast_mul (p.height - 1 - i), Nat.cast_sub (show i ≤ p.height - 1 by omega), Nat.cast_mul (p.height - 1)]
  ring

/-- `fix_bmp` and then `EncodeBmpToPng`: row `i` that libpng gets lies in the buffer and is row `i` of the picture; and
`fix_bmp` once more gives the picture back. -/
def RowsKept (fixBmp : (Nat → UInt8) → Nat → Nat → List UInt8 → Except Failure (List UInt8))
    (encodeBmpToPng : Int → Int → Int → Option (List Int)) (bit : Int) : Prop :=
  ∀ junk junk' : Nat → UInt8, ∃ fixed rows, fixBmp junk p.width p.height p.data = .ok fixed ∧
    encodeBmpToPng p.width p.height bit = some rows ∧ rows.length = p.height ∧
    (∀ i < p.height, ∃ q : Nat, rows[i]? = some (q : Int) ∧ cells fixed q (p.width * bpp) = some (p.row i)) ∧
    fixBmp junk' p.width p.height fixed = .ok p.data

/-- Where rows are multiples of 4 bytes, the pointers go up through the rows that `fix_bmp` has turned over. -/
theorem rowsKept_of_mod (hbpp : bpp = 3 ∨ bpp = 4) (h : p.width * bpp % 4 = 0) :
    p.RowsKept (fixBmp bpp) encodeBmpToPng (8 * bpp : Nat) := by
  intro junk junk'
  refine ⟨_, _, p.fixBmp_eq junk, p.encodeBmpToPng_eq hbpp h, by simp, fun i hi => ?_, p.fixBmp_fixBmp junk'⟩
  refine ⟨(p.height - 1 - i) * (p.width * bpp), ?_, ?_⟩
  · rw [List.getElem?_map, List.getElem?_range hi, Option.map_some]
  · have hrow : p.flipped.row (p.height - 1 - i) = p.row i := by
      have hflip := Raster.flip_row p.length_le (i := p.height - 1 - i) (by omega)
      have hcut := p.flipped_row (i := p.height - 1 - i) (by omega)
      rw [show p.height - 1 - (p.height - 1 - i) = i by omega] at hflip
      exact hcut.trans hflip
    rw [← hrow]
    exact p.flipped.cells_row (show p.height - 1 - i < p.height by omega)

/-- The order of the rows survives the way to a PNG file. -/
theorem rowsKept : (∀ p : Picture 4, p.RowsKept UnpackG00.fixBmp UnpackG00.encodeBmpToPng 32) ∧
    (∀ p : Picture 4, p.RowsKept UnpackOmv.fixBmp32 UnpackOmv.encodeBmpToPng 32) ∧
    ∀ p : Picture 3, p.width % 4 = 0 → p.RowsKept UnpackOmv.fixBmp UnpackOmv.encodeBmpToPng 24 := by
  have h32 (p : Picture 4) : p.RowsKept (Picture.fixBmp 4) Picture.encodeBmpToPng 32 :=
    p.rowsKept_of_mod (.inr rfl) (by omega)
  exact ⟨h32, h32, fun p hp => p.rowsKept_of_mod (.inl rfl) (by omega)⟩

theorem rowsKept_square :
    (⟨4, 4, List.replicate 48 0x80, by decide, by decide, by decide, by decide⟩ : Picture 3).RowsKept
      UnpackOmv.fixBmp UnpackOmv.encodeBmpToPng 24 :=
  rowsKept.2.2 _ (by decide)

end Picture

end SiglusExtract
