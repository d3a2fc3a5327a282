/-
`savepng` (UnpackG00.h): libpng writes the file through `PngWrite` to a buffer whose size is taken from the picture, in
32-bit arithmetic. Four times the pixels are not enough for the container where there are few of them, nor where the
product wraps round.
-/
import SiglusExtract.Tool
import Mathlib.Tactic.Ring

namespace SiglusExtract.UnpackG00

/-! ## The stream -/

/-- `MemStream`: its capacity, and what has been written to it. -/
structure MemStream where
  len : Nat
  written : List UInt8
  inside : written.length ≤ len

/-- A stream on a buffer of `len` bytes. -/
def MemStream.ofSize (len : Nat) : MemStream := ⟨len, [], Nat.zero_le len⟩

/-- `PngWrite`: `none` where it calls `png_error`. -/
def pngWrite (stream : MemStream) (buff : List UInt8) : Option MemStream :=
  if h : stream.written.length + buff.length > stream.len then none
  else some ⟨stream.len, stream.written ++ buff, by rw [List.length_append]; omega⟩

/-- Successive writes get through exactly where the stream has room for all of them. -/
theorem foldlM_pngWrite_isSome_iff {stream : MemStream} {writes : List (List UInt8)} :
    (writes.foldlM pngWrite stream).isSome ↔ stream.written.length + writes.flatten.length ≤ stream.len := by
  induction writes generalizing stream with
  | nil => exact iff_of_true rfl stream.inside
  | cons buff writes ih =>
    rw [List.foldlM_cons, List.flatten_cons, List.length_append]
    by_cases h : stream.written.length + buff.length > stream.len
    · rw [pngWrite, dif_pos h]
      refine iff_of_false (fun h' => by cases h') ?_
      omega
    · rw [pngWrite, dif_neg h]
      refine ih.trans ?_
      rw [List.length_append, Nat.add_assoc]

/-! ## Its size -/

/-- `Size` in `savepng`. -/
def savepngSize (width height : Int) : Nat := 4 * width.natAbs * height.natAbs * 4 % 2 ^ 32

/-- The rows with their filter bytes, and around them the signature, `IHDR`, the frame of `IDAT` and `IEND`. -/
def containerSize (width height : Nat) : Nat := (4 * width + 1) * height + (8 + 25 + 12 + 12)

/-- The sizes of pictures with room for the container: those with enough pixels whose size does not wrap round, and
those that wrap round once or twice, but far enough. -/
def Roomy (width height : Nat) : Prop :=
  width * height < 2 ^ 28 ∧ (5 ≤ width ∨ 3 ≤ width ∧ 2 ≤ height ∨ width = 2 ∧ 3 ≤ height ∨ 6 ≤ height) ∨
    width * height < 2 ^ 29 ∧ 2 ^ 32 + height + 57 ≤ 12 * (width * height) ∨
    width * height < 3 * 2 ^ 28 ∧ 2 ^ 33 + height + 57 ≤ 12 * (width * height)

instance (width height : Nat) : Decidable (Roomy width height) := inferInstanceAs (Decidable (_ ∨ _))

theorem savepngSize_eq (width height : Nat) : savepngSize width height = 16 * (width * height) % 2 ^ 32 := by
  rw [savepngSize, Int.natAbs_natCast, Int.natAbs_natCast]
  congr 1
  ring

theorem containerSize_eq (width height : Nat) : containerSize width height = 4 * (width * height) + height + 57 := by
  rw [containerSize]
  ring

/-- Without a wrap-round only pictures of a few pixels are too small. -/
theorem small_iff {width height : Nat} (hw : 1 ≤ width) (hh : 1 ≤ height) :
    height + 57 ≤ 12 * (width * height) ↔
      5 ≤ width ∨ 3 ≤ width ∧ 2 ≤ height ∨ width = 2 ∧ 3 ≤ height ∨ 6 ≤ height := by
  by_cases h5 : 5 ≤ width
  · have : 5 * height ≤ width * height := Nat.mul_le_mul_right height h5
    exact iff_of_true (by omega) (.inl h5)
  · obtain rfl | rfl | rfl | rfl : width = 1 ∨ width = 2 ∨ width = 3 ∨ width = 4 := by omega
    all_goals omega

/-- The buffer of `savepng` is large enough for the container, so that `PngWrite` has no error to report, exactly for
these sizes. -/
theorem containerSize_le_savepngSize_iff {width height : Nat} (hw : 1 ≤ width ∧ width ≤ 65535)
    (hh : 1 ≤ height ∧ height ≤ 65535) :
    (containerSize width height ≤ savepngSize width height ∧
        ∀ writes : List (List UInt8), writes.flatten.length = containerSize width height →
          (writes.foldlM pngWrite (.ofSize (savepngSize width height))).isSome) ↔ Roomy width height := by
  have hwrites : containerSize width height ≤ savepngSize width height →
      ∀ writes : List (List UInt8), writes.flatten.length = containerSize width height →
        (writes.foldlM pngWrite (.ofSize (savepngSize width height))).isSome := by
    intro hle writes hlen
    rw [foldlM_pngWrite_isSome_iff, hlen]
    exact (Nat.zero_add _).trans_le hle
  rw [and_iff_left_of_imp hwrites, containerSize_eq, savepngSize_eq, Roomy, ← small_iff hw.1 hh.1]
  have hmax : width * height ≤ 65535 * 65535 := Nat.mul_le_mul hw.2 hh.2
  generalize width * height = pixels at hmax ⊢
  omega

/-- The smallest picture of five pixels a row. -/
theorem containerSize_le_savepngSize_iff_row : containerSize 5 1 ≤ savepngSize 5 1 ∧
    ∀ writes : List (List UInt8), writes.flatten.length = containerSize 5 1 →
      (writes.foldlM pngWrite (.ofSize (savepngSize 5 1))).isSome :=
  (containerSize_le_savepngSize_iff (by decide) (by decide)).2 (by decide)

/-- Sixteen bytes for one pixel, and none at all for `2^28` of them. -/
theorem savepngSize_too_small :
    savepngSize 1 1 = 16 ∧ savepngSize 16384 16384 = 0 ∧
      ¬ ∀ width height : Nat, 1 ≤ width → width ≤ 65535 → 1 ≤ height → height ≤ 65535 →
        4 * width * height + height + 57 ≤ savepngSize width height := by
  refine ⟨by decide, by decide, fun h => ?_⟩
  exact absurd (h 1 1 (by decide) (by decide) (by decide) (by decide)) (by decide)

end SiglusExtract.UnpackG00
