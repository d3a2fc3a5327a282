/-
`YUV420_BGR_F` and `YUV420_BGR_F_slow` (Color2.h): pictures from a luma plane and two chroma planes of half the size
with a border of one sample. A chroma value is mixed from the nearest sample and the next ones in the row, in the column
and across; the fast converter carries the sums of the columns along a row, the slow one takes four pixels at a time.
-/
import SiglusExtract.Lib.CInt
import SiglusExtract.Lib.Pointer
import Mathlib.Data.Int.Bitwise
import Mathlib.Tactic.Ring

namespace SiglusExtract.Color

open CInt Pointer Patch

/-! ## Colours -/

/-- `Fix`. -/
def fix (x : Int) : UInt8 := UInt8.ofNat (if x < 0 then 0 else if x > 0xFF then 0xFF else x).toNat

def yuvB (y u : Int) : UInt8 := fix (i32 (y * 0x100000 + 0x7FFFF + (u - 0x80) * 1857070) >>> 20)

def yuvG (y u v : Int) : UInt8 := fix (i32 (y * 0x100000 + 0x7FFFF - (u - 0x80) * 361883 - (v - 0x80) * 748988) >>> 20)

def yuvR (y v : Int) : UInt8 := fix (i32 (y * 0x100000 + 0x7FFFF + (v - 0x80) * 1470292) >>> 20)

/-- The three bytes of a pixel. -/
def bgr (y u v : Int) : List UInt8 := [yuvB y u, yuvG y u v, yuvR y v]

/-! ## The converters -/

/-- What the converters read, in memory that nothing is written to. -/
def sample (m : Tape UInt8) (p : Int) : Option Int := (m p).map fun b => (b.toNat : Int)

/-- `src_y`, `src_u`, `src_v`, and `dst_d` as an offset from `dst`. -/
structure Pointers where
  srcY : Int
  srcU : Int
  srcV : Int
  dst : Int
  deriving DecidableEq, Repr

/-- The sum of a column for the upper row of a pair. -/
def upper (m : Tape UInt8) (strideU p : Int) : Option Int := do
  let a ← sample m p
  let b ← sample m (p + strideU)
  return a + b * 3

/-- The sum of a column for the lower row of a pair. -/
def lower (m : Tape UInt8) (strideU p : Int) : Option Int := do
  let a ← sample m (p + strideU)
  let b ← sample m (p + strideU * 2)
  return a * 3 + b

/-- The inner loops of `YUV420_BGR_F`, with `n` pairs of pixels left; they differ in how the columns are summed. -/
def rowLoop (m : Tape UInt8) (column : Int → Option Int) : Nat → Pointers → Int → Int → List UInt8 →
    Option (Pointers × List UInt8)
  | 0, p, _, _, dst => some (p, dst)
  | n + 1, p, u0, v0, dst => do
    let u1 ← column p.srcU
    let v1 ← column p.srcV
    let y ← sample m p.srcY
    let dst ← store dst p.dst (bgr y ((u0 + u1 * 3 + 8) / 16) ((v0 + v1 * 3 + 8) / 16))
    let u0 ← column (p.srcU + 1)
    let v0 ← column (p.srcV + 1)
    let y ← sample m (p.srcY + 1)
    let dst ← store dst (p.dst + 3) (bgr y ((u0 + u1 * 3 + 8) / 16) ((v0 + v1 * 3 + 8) / 16))
    rowLoop m column n ⟨p.srcY + 2, p.srcU + 1, p.srcV + 1, p.dst + 6⟩ u1 v1 dst

/-- The outer loop of `YUV420_BGR_F`, with `h` pairs of rows left. -/
def pairLoop (m : Tape UInt8) (strideY strideU strideD : Int) (w : Nat) : Nat → Pointers → List UInt8 →
    Option (List UInt8)
  | 0, _, dst => some dst
  | h + 1, p, dst => do
    let u0 ← upper m strideU (p.srcU - 1)
    let v0 ← upper m strideU (p.srcV - 1)
    let (p, dst) ← rowLoop m (upper m strideU) w p u0 v0 dst
    let p : Pointers := ⟨p.srcY + (strideY - w * 2), p.srcU - w, p.srcV - w, p.dst + (strideD - w * 6)⟩
    let u0 ← lower m strideU (p.srcU - 1)
    let v0 ← lower m strideU (p.srcV - 1)
    let (p, dst) ← rowLoop m (lower m strideU) w p u0 v0 dst
    let p : Pointers :=
      ⟨p.srcY + (strideY - w * 2), p.srcU + (strideU - w), p.srcV + (strideU - w), p.dst + (strideD - w * 6)⟩
    pairLoop m strideY strideU strideD w h p dst

/-- `src` and `stride_s`; the stride of the second chroma plane is taken to be that of the first. -/
structure Source where
  y : Int
  u : Int
  v : Int
  strideY : Int
  strideU : Int
  deriving DecidableEq, Repr

/-- `YUV420_BGR_F`. -/
def yuv420BgrF (dst : List UInt8) (strideD : Int) (m : Tape UInt8) (src : Source) (w h : Nat) : Option (List UInt8) :=
  pairLoop m src.strideY src.strideU strideD (w / 2) (h / 2)
    ⟨src.y, src.u - src.strideU, src.v - src.strideU, 0⟩ dst

/-- The four chroma values around a sample that `YUV420_BGR_F_slow` mixes from nine, from `src_u` or `src_v`: `u5`,
`u1`, `u2` and `u3`. -/
def mixes (m : Tape UInt8) (strideU p : Int) : Option (Int × Int × Int × Int) := do
  let u0 := 9 * (← sample m (p + (strideU + 1)))
  let u1 := 3 * (← sample m (p + 1))
  let u2 := 3 * (← sample m (p + strideU))
  let u3 := 3 * (← sample m (p + (strideU + 2)))
  let u4 := 3 * (← sample m (p + (strideU * 2 + 1)))
  let u5 := (u0 + u1 + u2 + (← sample m p) + 8) / 16
  let u1 := (u0 + u1 + u3 + (← sample m (p + 2)) + 8) / 16
  let u2 := (u0 + u2 + u4 + (← sample m (p + strideU * 2)) + 8) / 16
  let u3 := (u0 + u3 + u4 + (← sample m (p + (strideU * 2 + 2))) + 8) / 16
  return (u5, u1, u2, u3)

/-- The inner loop of `YUV420_BGR_F_slow`, with `n` blocks of four pixels left. -/
def blockLoop (m : Tape UInt8) (strideY strideU strideD : Int) : Nat → Pointers → List UInt8 →
    Option (Pointers × List UInt8)
  | 0, p, dst => some (p, dst)
  | n + 1, p, dst => do
    let (u5, u1, u2, u3) ← mixes m strideU p.srcU
    let (v5, v1, v2, v3) ← mixes m strideU p.srcV
    let y5 ← sample m p.srcY
    let y1 ← sample m (p.srcY + 1)
    let y2 ← sample m (p.srcY + strideY)
    let y3 ← sample m (p.srcY + (strideY + 1))
    let dst ← store dst p.dst (bgr y5 u5 v5 ++ bgr y1 u1 v1)
    let dst ← store dst (p.dst + strideD) (bgr y2 u2 v2 ++ bgr y3 u3 v3)
    blockLoop m strideY strideU strideD n ⟨p.srcY + 2, p.srcU + 1, p.srcV + 1, p.dst + 6⟩ dst

/-- The outer loop of `YUV420_BGR_F_slow`, with `h` pairs of rows left. -/
def blockRows (m : Tape UInt8) (strideY strideU strideD : Int) (w : Nat) : Nat → Pointers → List UInt8 →
    Option (List UInt8)
  | 0, _, dst => some dst
  | h + 1, p, dst => do
    let (p, dst) ← blockLoop m strideY strideU strideD w p dst
    let p : Pointers := ⟨p.srcY + (strideY * 2 - w * 2), p.srcU + (strideU - w), p.srcV + (strideU - w),
      p.dst + (strideD * 2 - w * 6)⟩
    blockRows m strideY strideU strideD w h p dst

/-- `YUV420_BGR_F_slow`. -/
def yuv420BgrFSlow (dst : List UInt8) (strideD : Int) (m : Tape UInt8) (src : Source) (w h : Nat) :
    Option (List UInt8) :=
  blockRows m src.strideY src.strideU strideD (w / 2) (h / 2)
    ⟨src.y, src.u - src.strideU - 1, src.v - src.strideU - 1, 0⟩ dst

/-! ## The picture -/

/-- The column or row of a bordered chroma plane that is nearest to a column or row of pixels. -/
def near (i : Nat) : Nat := i / 2 + 1

/-- The next one on the side of the pixel. -/
def far (i : Nat) : Nat := if i % 2 = 0 then i / 2 else i / 2 + 2

/-- The chroma of a pixel: nine parts of the nearest sample, three of the next ones in its row and its column, one of
the next one across. -/
def chroma (u : Nat → Nat → UInt8) (x y : Nat) : Int :=
  (9 * (u (near x) (near y)).toNat + 3 * (u (near x) (far y)).toNat + 3 * (u (far x) (near y)).toNat +
    (u (far x) (far y)).toNat + 8) / 16

/-- A pixel from its luma and its chroma. -/
def pixel (luma u v : Nat → Nat → UInt8) (y x : Nat) : List UInt8 := bgr (luma x y).toNat (chroma u x y) (chroma v x y)

/-- Two pixels side by side. -/
def pixels (luma u v : Nat → Nat → UInt8) (y k : Nat) : List UInt8 :=
  pixel luma u v y (2 * k) ++ pixel luma u v y (2 * k + 1)

/-- A row of `w` pairs of pixels. -/
def pixelRow (luma u v : Nat → Nat → UInt8) (w y : Nat) : List UInt8 := (List.range w).flatMap (pixels luma u v y)

/-- The rows of a picture. -/
def picture (luma u v : Nat → Nat → UInt8) (w h : Nat) : List (List UInt8) :=
  (List.range (2 * h)).map (pixelRow luma u v w)

theorem near_even (k : Nat) : near (2 * k) = k + 1 := by
  unfold near
  omega

theorem near_odd (k : Nat) : near (2 * k + 1) = k + 1 := by
  unfold near
  omega

theorem far_even (k : Nat) : far (2 * k) = k := by
  unfold far
  split <;> omega

theorem far_odd (k : Nat) : far (2 * k + 1) = k + 2 := by
  unfold far
  split <;> omega

theorem pixel_length (luma u v : Nat → Nat → UInt8) (y x : Nat) : (pixel luma u v y x).length = 3 := rfl

theorem pixels_length (luma u v : Nat → Nat → UInt8) (y k : Nat) : (pixels luma u v y k).length = 6 := rfl

theorem length_flatMap_pixels (luma u v : Nat → Nat → UInt8) (y : Nat) : ∀ l : List Nat,
    (l.flatMap (pixels luma u v y)).length = 6 * l.length
  | [] => rfl
  | k :: l => by
    rw [List.flatMap_cons, List.length_append, pixels_length, length_flatMap_pixels luma u v y l, List.length_cons]
    omega

/-- Three parts of the nearest sample of a column and one of the next. -/
def columnSum (u : Nat → Nat → UInt8) (y c : Nat) : Int := (u c (far y)).toNat + (u c (near y)).toNat * 3

/-- The chroma from the sums of two columns. -/
theorem chroma_eq (u : Nat → Nat → UInt8) (x y : Nat) :
    chroma u x y = (columnSum u y (far x) + columnSum u y (near x) * 3 + 8) / 16 := by
  unfold chroma columnSum
  congr 1
  ring

/-! ## The fast converter -/

section Columns

variable {m : Tape UInt8} {p strideU : Int} {w h : Nat} {u : Nat → Nat → UInt8} (hu : Plane m p strideU w h u)
include hu

theorem sample_plane {x y : Nat} (hx : x < w) (hy : y < h) {q : Int} (hq : q = p + strideU * y + x) :
    sample m q = some ((u x y).toNat : Int) := by
  rw [sample, hq, hu x hx y hy, Option.map_some]

theorem upper_eq {j c : Nat} (hc : c < w) (hj : j + 1 < h) :
    upper m strideU (p + strideU * j + c) = some (columnSum u (2 * j) c) := by
  rw [upper, sample_plane hu hc (show j < h by omega) rfl,
    sample_plane hu hc hj (by push_cast; ring), columnSum, far_even, near_even]
  rfl

theorem lower_eq {j c : Nat} (hc : c < w) (hj : j + 2 < h) :
    lower m strideU (p + strideU * j + c) = some (columnSum u (2 * j + 1) c) := by
  rw [lower, sample_plane hu hc (show j + 1 < h by omega) (by push_cast; ring),
    sample_plane hu hc hj (by push_cast; ring), columnSum, far_odd, near_odd, Int.add_comm]
  rfl

/-- The four values around a sample are those of the four pixels that it is nearest to. -/
theorem mixes_eq {j c : Nat} (hc : c + 2 < w) (hj : j + 2 < h) :
    mixes m strideU (p + strideU * j + c) = some (chroma u (2 * c) (2 * j), chroma u (2 * c + 1) (2 * j),
      chroma u (2 * c) (2 * j + 1), chroma u (2 * c + 1) (2 * j + 1)) := by
  have hsample : ∀ (i k : Nat) (q : Int), i < 3 → k < 3 → q = p + strideU * j + c + (strideU * k + i) →
      sample m q = some ((u (c + i) (j + k)).toNat : Int) := by
    intro i k q hi hk hq
    refine sample_plane hu (by omega) (by omega) ?_
    rw [hq]
    push_cast
    ring
  rw [mixes, hsample 1 1 _ (by decide) (by decide) (by ring), hsample 1 0 _ (by decide) (by decide) (by ring),
    hsample 0 1 _ (by decide) (by decide) (by ring), hsample 2 1 _ (by decide) (by decide) (by ring),
    hsample 1 2 _ (by decide) (by decide) (by ring), hsample 0 0 _ (by decide) (by decide) (by ring),
    hsample 2 0 _ (by decide) (by decide) (by ring), hsample 0 2 _ (by decide) (by decide) (by ring),
    hsample 2 2 _ (by decide) (by decide) (by ring)]
  simp only [Option.bind_eq_bind, Option.bind_some, chroma, near_even, near_odd, far_even, far_odd, Option.pure_def,
    Option.some.injEq, Prod.mk.injEq]
  refine ⟨?_, ?_, ?_, ?_⟩ <;> ring_nf

end Columns

/-- The inner loop from pair `i` of a row on: the sums that it carries are those of column `i`. -/
theorem rowLoop_eq {m : Tape UInt8} {column : Int → Option Int} {luma u v : Nat → Nat → UInt8} {y : Nat}
    {qY qU qV : Int} : ∀ (n i : Nat) {d : Nat} {dst dst' : List UInt8},
    (∀ c < i + n + 2, column (qU + c) = some (columnSum u y c)) →
    (∀ c < i + n + 2, column (qV + c) = some (columnSum v y c)) →
    (∀ x < 2 * (i + n), sample m (qY + x) = some ((luma x y).toNat : Int)) →
    patch dst d ((List.range' i n).flatMap (pixels luma u v y)) = some dst' →
      rowLoop m column n ⟨qY + (2 * i : Nat), qU + (i + 1 : Nat), qV + (i + 1 : Nat), d⟩ (columnSum u y i)
        (columnSum v y i) dst = some (⟨qY + (2 * (i + n) : Nat), qU + (i + n + 1 : Nat), qV + (i + n + 1 : Nat),
          (d + 6 * n : Nat)⟩, dst')
  | 0, i, d, dst, dst', _, _, _, hpatch => by
    obtain ⟨-, rfl⟩ := patch_eq_some hpatch
    simp [rowLoop]
  | n + 1, i, d, dst, dst', hu, hv, hy, hpatch => by
    rw [List.range'_succ, List.flatMap_cons, pixels, List.append_assoc] at hpatch
    obtain ⟨dst₁, h₁, hpatch⟩ := patch_append_right hpatch
    obtain ⟨dst₂, h₂, hpatch⟩ := patch_append_right hpatch
    simp only [pixel_length] at h₂ hpatch
    rw [pixel, chroma_eq, chroma_eq, near_even, far_even] at h₁
    rw [pixel, chroma_eq, chroma_eq, near_odd, far_odd] at h₂
    have hrest := rowLoop_eq n (i + 1) (fun c hc => hu c (by omega)) (fun c hc => hv c (by omega))
      (fun x hx => hy x (by omega)) hpatch
    have hnext : ∀ q : Int, q + (i + 1 : Nat) + 1 = q + (i + 1 + 1 : Nat) := fun q => by push_cast; ring
    have hluma : qY + (2 * i : Nat) + 1 = qY + (2 * i + 1 : Nat) := by push_cast; ring
    have hpair : qY + (2 * i : Nat) + 2 = qY + (2 * (i + 1) : Nat) := by push_cast; ring
    have hend : i + (n + 1) = i + 1 + n := by omega
    rw [rowLoop]
    simp only [hu (i + 1) (by omega), hv (i + 1) (by omega), hy (2 * i) (by omega), store_natCast, h₁,
      Option.bind_eq_bind, Option.bind_some, hnext, hluma, hu (i + 1 + 1) (by omega), hv (i + 1 + 1) (by omega),
      hy (2 * i + 1) (by omega), show (d : Int) + 3 = (d + 3 : Nat) from rfl, h₂]
    rw [hpair, show (d : Int) + 6 = (d + 3 + 3 : Nat) from rfl, hrest, hend,
      show d + 3 + 3 + 6 * n = d + 6 * (n + 1) by omega]

/-- The inner loop for a whole row. -/
theorem rowLoop_row {m : Tape UInt8} {column : Int → Option Int} {luma u v : Nat → Nat → UInt8} {w y : Nat}
    {qY qU qV : Int} (hu : ∀ c < w + 2, column (qU + c) = some (columnSum u y c))
    (hv : ∀ c < w + 2, column (qV + c) = some (columnSum v y c))
    (hy : ∀ x < 2 * w, sample m (qY + x) = some ((luma x y).toNat : Int)) {d : Nat} {dst dst' : List UInt8}
    (hpatch : patch dst d (pixelRow luma u v w y) = some dst') :
    rowLoop m column w ⟨qY, qU + 1, qV + 1, d⟩ (columnSum u y 0) (columnSum v y 0) dst =
      some (⟨qY + (2 * w : Nat), qU + (w + 1 : Nat), qV + (w + 1 : Nat), (d + 6 * w : Nat)⟩, dst') := by
  rw [pixelRow, List.range_eq_range'] at hpatch
  have hrow := @rowLoop_eq m column luma u v y qY qU qV w 0 d dst dst'
  simp only [Nat.zero_add, Nat.mul_zero, Nat.cast_zero, Nat.cast_one, Int.add_zero] at hrow
  exact hrow hu hv hy hpatch

section Planes

variable {m : Tape UInt8} {src : Source} {w h : Nat} {luma u v : Nat → Nat → UInt8}
  (hluma : Plane m src.y src.strideY (2 * w) (2 * h) luma)
  (hu : Plane m (src.u - src.strideU - 1) src.strideU (w + 2) (h + 2) u)
  (hv : Plane m (src.v - src.strideU - 1) src.strideU (w + 2) (h + 2) v)
include hluma hu hv

/-- The outer loop from pair `j` on draws the rows from there on. -/
theorem pairLoop_eq {strideD : Nat} : ∀ (n j : Nat) {dst dst' : List UInt8}, j + n = h →
    Raster.blit strideD dst (2 * j * strideD) ((List.range' (2 * j) (2 * n)).map (pixelRow luma u v w)) = some dst' →
      pairLoop m src.strideY src.strideU strideD w n ⟨src.y + src.strideY * (2 * j : Nat),
        src.u - src.strideU + src.strideU * j, src.v - src.strideU + src.strideU * j, (2 * j * strideD : Nat)⟩ dst =
          some dst'
  | 0, j, dst, dst', _, hblit => by
    cases hblit
    rfl
  | n + 1, j, dst, dst', hj, hblit => by
    rw [show 2 * (n + 1) = 2 * n + 1 + 1 by omega, List.range'_succ, List.range'_succ, List.map_cons, List.map_cons,
      Raster.blit, Option.bind_eq_some_iff] at hblit
    obtain ⟨dst₁, h₁, hblit⟩ := hblit
    rw [Raster.blit, Option.bind_eq_some_iff] at hblit
    obtain ⟨dst₂, h₂, hblit⟩ := hblit
    rw [show 2 * j * strideD + strideD + strideD = 2 * (j + 1) * strideD by ring] at hblit
    have hrest := pairLoop_eq n (j + 1) (by omega) hblit
    have hupper := rowLoop_row (fun c hc => upper_eq hu hc (show j + 1 < h + 2 by omega))
      (fun c hc => upper_eq hv hc (by omega)) (fun x hx => sample_plane hluma hx (by omega) rfl) h₁
    have hlower := rowLoop_row (fun c hc => lower_eq hu hc (show j + 2 < h + 2 by omega))
      (fun c hc => lower_eq hv hc (by omega)) (fun x hx => sample_plane hluma hx (by omega) rfl) h₂
    -- the pointers at the start, between the rows and at the end
    have hstart : ∀ s : Int, s - src.strideU + src.strideU * j = s - src.strideU - 1 + src.strideU * j + 1 :=
      fun s => by ring
    have hleft : ∀ s : Int, s + 1 - 1 = s + (0 : Nat) := fun s => by push_cast; ring
    have hback : ∀ s : Int, s + (w + 1 : Nat) - w = s + 1 := fun s => by push_cast; ring
    have hbelow : ∀ (s : Int) (k : Nat), s + src.strideY * k + (2 * w : Nat) + (src.strideY - w * 2) =
        s + src.strideY * (k + 1 : Nat) := fun s k => by push_cast; ring
    have hend : ∀ s : Int, s - src.strideU - 1 + src.strideU * j + (w + 1 : Nat) + (src.strideU - w) =
        s - src.strideU + src.strideU * (j + 1 : Nat) := fun s => by push_cast; ring
    have hdst : ∀ d : Nat, ((d + 6 * w : Nat) : Int) + (strideD - w * 6) = (d + strideD : Nat) :=
      fun d => by push_cast; ring
    rw [pairLoop, hstart, hstart]
    simp only [hleft]
    rw [upper_eq hu (by omega) (by omega), upper_eq hv (by omega) (by omega)]
    simp only [Option.bind_eq_bind, Option.bind_some]
    rw [hupper]
    simp only [Option.bind_some, hback, hbelow, hdst, hleft]
    rw [lower_eq hu (by omega) (by omega), lower_eq hv (by omega) (by omega), Option.bind_some, Option.bind_some,
      hlower]
    simp only [Option.bind_some, hbelow, hend, hdst]
    rw [show 2 * j * strideD + strideD + strideD = 2 * (j + 1) * strideD by ring]
    exact hrest

/-- The inner loop from block `i` on draws what is left of two rows. -/
theorem blockLoop_eq {strideD j : Nat} (hj : j < h) : ∀ (n i : Nat) {d : Nat} {dst dst₁ dst' : List UInt8}, i + n = w →
    6 * n ≤ strideD → patch dst d ((List.range' i n).flatMap (pixels luma u v (2 * j))) = some dst₁ →
      patch dst₁ (d + strideD) ((List.range' i n).flatMap (pixels luma u v (2 * j + 1))) = some dst' →
        blockLoop m src.strideY src.strideU strideD n ⟨src.y + src.strideY * (2 * j : Nat) + (2 * i : Nat),
          src.u - src.strideU - 1 + src.strideU * j + i, src.v - src.strideU - 1 + src.strideU * j + i, d⟩ dst =
            some (⟨src.y + src.strideY * (2 * j : Nat) + (2 * (i + n) : Nat),
              src.u - src.strideU - 1 + src.strideU * j + (i + n : Nat),
              src.v - src.strideU - 1 + src.strideU * j + (i + n : Nat), (d + 6 * n : Nat)⟩, dst')
  | 0, i, d, dst, dst₁, dst', _, _, h₁, h₂ => by
    obtain ⟨-, rfl⟩ := patch_eq_some h₁
    obtain ⟨-, rfl⟩ := patch_eq_some h₂
    simp [blockLoop]
  | n + 1, i, d, dst, dst₁, dst', hi, hw, h₁, h₂ => by
    rw [List.range'_succ, List.flatMap_cons] at h₁ h₂
    obtain ⟨dst₂, hupper, h₁⟩ := patch_append_right h₁
    obtain ⟨dst₃, hlower, h₂⟩ := patch_append_right h₂
    rw [pixels_length] at h₁ h₂
    -- the lower pixels of the block are drawn before the rest of the upper row
    obtain ⟨dst₄, hlower, h₁⟩ := patch_swap h₁ hlower (by
      rw [length_flatMap_pixels, List.length_range']
      omega)
    rw [show d + strideD + 6 = d + 6 + strideD by omega] at h₂
    have hrest := blockLoop_eq hj n (i + 1) (by omega) (by omega) h₁ h₂
    have hnext : ∀ (s : Int) (k : Nat), s + k + 1 = s + (k + 1 : Nat) := fun s k => by push_cast; ring
    have hpair : ∀ s : Int, s + (2 * i : Nat) + 2 = s + (2 * (i + 1) : Nat) := fun s => by push_cast; ring
    have hy : ∀ (x y : Nat) (q : Int), x < 2 * w → y < 2 * h → q = src.y + src.strideY * y + x →
        sample m q = some ((luma x y).toNat : Int) := fun x y q hx hy hq => sample_plane hluma hx hy hq
    rw [blockLoop]
    dsimp only
    rw [mixes_eq hu (by omega) (by omega), mixes_eq hv (by omega) (by omega)]
    simp only [Option.bind_eq_bind, Option.bind_some]
    rw [hy (2 * i) (2 * j) _ (by omega) (by omega) rfl,
      hy (2 * i + 1) (2 * j) _ (by omega) (by omega) (by push_cast; ring),
      hy (2 * i) (2 * j + 1) _ (by omega) (by omega) (by push_cast; ring),
      hy (2 * i + 1) (2 * j + 1) _ (by omega) (by omega) (by push_cast; ring)]
    simp only [Option.bind_some]
    unfold pixels pixel at hupper hlower
    rw [store_natCast, hupper, Option.bind_some, show (d : Int) + strideD = (d + strideD : Nat) from rfl, store_natCast,
      hlower, Option.bind_some, hnext, hnext, hpair, show (d : Int) + 6 = (d + 6 : Nat) from rfl, hrest,
      show i + (n + 1) = i + 1 + n by omega, show d + 6 * (n + 1) = d + 6 + 6 * n by omega]

omit hluma hu hv in
theorem length_pixelRow (y : Nat) : (pixelRow luma u v w y).length = 6 * w := by
  rw [pixelRow, length_flatMap_pixels, List.length_range]

/-- The outer loop from pair `j` on draws the rows from there on. -/
theorem blockRows_eq {strideD : Nat} (hw : 6 * w ≤ strideD) : ∀ (n j : Nat) {dst dst' : List UInt8}, j + n = h →
    Raster.blit strideD dst (2 * j * strideD) ((List.range' (2 * j) (2 * n)).map (pixelRow luma u v w)) = some dst' →
      blockRows m src.strideY src.strideU strideD w n ⟨src.y + src.strideY * (2 * j : Nat),
        src.u - src.strideU - 1 + src.strideU * j, src.v - src.strideU - 1 + src.strideU * j,
        (2 * j * strideD : Nat)⟩ dst = some dst'
  | 0, j, dst, dst', _, hblit => by
    cases hblit
    rfl
  | n + 1, j, dst, dst', hj, hblit => by
    rw [show 2 * (n + 1) = 2 * n + 1 + 1 by omega, List.range'_succ, List.range'_succ, List.map_cons, List.map_cons,
      Raster.blit, Option.bind_eq_some_iff] at hblit
    obtain ⟨dst₁, h₁, hblit⟩ := hblit
    rw [Raster.blit, Option.bind_eq_some_iff] at hblit
    obtain ⟨dst₂, h₂, hblit⟩ := hblit
    rw [pixelRow, List.range_eq_range'] at h₁ h₂
    rw [show 2 * j * strideD + strideD + strideD = 2 * (j + 1) * strideD by ring] at hblit
    have hrest := blockRows_eq hw n (j + 1) (by omega) hblit
    have hrows := blockLoop_eq hluma hu hv (show j < h by omega) w 0 (by omega) hw h₁ h₂
    simp only [Nat.mul_zero, Nat.zero_add, Nat.cast_zero, Int.add_zero] at hrows
    have hbelow : src.y + src.strideY * (2 * j : Nat) + (2 * w : Nat) + (src.strideY * 2 - w * 2) =
        src.y + src.strideY * (2 * (j + 1) : Nat) := by push_cast; ring
    have hend : ∀ s : Int, s - src.strideU - 1 + src.strideU * j + w + (src.strideU - w) =
        s - src.strideU - 1 + src.strideU * (j + 1 : Nat) := fun s => by push_cast; ring
    have hdst : ((2 * j * strideD + 6 * w : Nat) : Int) + (strideD * 2 - w * 6) = (2 * (j + 1) * strideD : Nat) := by
      push_cast
      ring
    rw [blockRows, hrows]
    simp only [Option.bind_eq_bind, Option.bind_some]
    rw [hbelow, hend, hend, hdst]
    exact hrest

end Planes

/-! ## Both draw the picture -/

/-- The planes of a picture of `w` times `h` pixels, the chroma planes with a border of one sample. -/
structure Planes (m : Tape UInt8) (src : Source) (w h : Nat) (luma u v : Nat → Nat → UInt8) : Prop where
  luma : Plane m src.y src.strideY w h luma
  u : Plane m (src.u - src.strideU - 1) src.strideU (w / 2 + 2) (h / 2 + 2) u
  v : Plane m (src.v - src.strideU - 1) src.strideU (w / 2 + 2) (h / 2 + 2) v

section Draw

variable {m : Tape UInt8} {src : Source} {w h strideD : Nat} {luma u v : Nat → Nat → UInt8} {dst dst' : List UInt8}

theorem blit_picture : Raster.blit strideD dst 0 (picture luma u v w h) =
    Raster.blit strideD dst (2 * 0 * strideD) ((List.range' (2 * 0) (2 * h)).map (pixelRow luma u v w)) := by
  rw [picture, List.range_eq_range', Nat.mul_zero, Nat.zero_mul]

/-- The fast converter draws the rows of the picture. -/
theorem yuv420BgrF_eq (hw : w % 2 = 0) (hh : h % 2 = 0) (hplanes : Planes m src w h luma u v)
    (hblit : Raster.blit strideD dst 0 (picture luma u v (w / 2) (h / 2)) = some dst') :
    yuv420BgrF dst strideD m src w h = some dst' := by
  obtain ⟨hluma, hu, hv⟩ := hplanes
  rw [show w = 2 * (w / 2) by omega, show h = 2 * (h / 2) by omega] at hluma
  rw [blit_picture] at hblit
  have hpairs := pairLoop_eq hluma hu hv (h / 2) 0 (by omega) hblit
  simp only [Nat.mul_zero, Nat.zero_mul, Nat.cast_zero, Int.mul_zero, Int.add_zero] at hpairs
  exact hpairs

/-- The slow converter draws the same rows. -/
theorem yuv420BgrFSlow_eq (hw : w % 2 = 0) (hh : h % 2 = 0) (hplanes : Planes m src w h luma u v)
    (hstride : 3 * w ≤ strideD)
    (hblit : Raster.blit strideD dst 0 (picture luma u v (w / 2) (h / 2)) = some dst') :
    yuv420BgrFSlow dst strideD m src w h = some dst' := by
  obtain ⟨hluma, hu, hv⟩ := hplanes
  rw [show w = 2 * (w / 2) by omega, show h = 2 * (h / 2) by omega] at hluma
  rw [blit_picture] at hblit
  have hrows := blockRows_eq hluma hu hv (show 6 * (w / 2) ≤ strideD by omega) (h / 2) 0 (by omega) hblit
  simp only [Nat.mul_zero, Nat.zero_mul, Nat.cast_zero, Int.mul_zero, Int.add_zero] at hrows
  exact hrows

/-- Where there is room for its rows, the picture can be drawn. -/
theorem picture_isSome (hh : h % 2 = 0) (hroom : (h - 1) * strideD + 3 * w ≤ dst.length) :
    ∃ dst', Raster.blit strideD dst 0 (picture luma u v (w / 2) (h / 2)) = some dst' := by
  refine @Raster.blit_isSome _ strideD (3 * w) _ _ _ ?_ ?_
  · intro row hrow
    obtain ⟨y, -, rfl⟩ := List.mem_map.1 hrow
    rw [length_pixelRow]
    omega
  · rw [picture, List.length_map, List.length_range, Nat.zero_add, show 2 * (h / 2) = h by omega]
    exact hroom

/-- A pixel in its row. -/
theorem pixelRow_split {y x : Nat} (hx : x < 2 * w) :
    ∃ pre post, pixelRow luma u v w y = pre ++ (pixel luma u v y x ++ post) ∧ pre.length = 3 * x := by
  have hrange : List.range w = List.range (x / 2) ++ x / 2 :: List.range' (x / 2 + 1) (w - x / 2 - 1) := by
    rw [← List.range'_succ, List.range_eq_range', List.range_eq_range', show w - x / 2 - 1 + 1 = w - x / 2 by omega]
    have happend := @List.range'_append_1 0 (x / 2) (w - x / 2)
    rw [Nat.zero_add] at happend
    rw [happend]
    congr 1
    omega
  have hbefore := length_flatMap_pixels luma u v y (List.range (x / 2))
  rw [List.length_range] at hbefore
  rw [pixelRow, hrange, List.flatMap_append, List.flatMap_cons, pixels]
  rcases Nat.mod_two_eq_zero_or_one x with heven | hodd
  · rw [show 2 * (x / 2) = x by omega, List.append_assoc]
    exact ⟨_, _, rfl, by omega⟩
  · rw [show 2 * (x / 2) + 1 = x by omega, List.append_assoc, ← List.append_assoc]
    refine ⟨_, _, rfl, ?_⟩
    rw [List.length_append, hbefore, pixel_length]
    omega

/-- The pixels of a picture that has been drawn. -/
theorem holds_pixel (hstride : 6 * w ≤ strideD)
    (hblit : Raster.blit strideD dst 0 (picture luma u v w h) = some dst') {x y : Nat} (hx : x < 2 * w)
    (hy : y < 2 * h) : (Mem.ofList dst').Holds (y * strideD + 3 * x) (pixel luma u v y x) := by
  have hrow := Raster.blit_holds hblit (by
    intro row hrow
    obtain ⟨y, -, rfl⟩ := List.mem_map.1 hrow
    rw [length_pixelRow]
    exact hstride) y (pixelRow luma u v w y) (by
      rw [picture, List.getElem?_map, List.getElem?_range hy]
      rfl)
  obtain ⟨pre, post, hsplit, hpre⟩ := @pixelRow_split w luma u v y x hx
  rw [hsplit, Mem.holds_append, hpre, Mem.holds_append, Nat.zero_add] at hrow
  exact hrow.2.1

end Draw

/-- For every picture with an even width and height, every stride that is no less than a row and every buffer with room
for the rows, both converters write the same bytes: those of the pixels. -/
theorem yuv420BgrF_eq_slow {m : Tape UInt8} {src : Source} {w h strideD : Nat} {luma u v : Nat → Nat → UInt8}
    (hw : w % 2 = 0) (hh : h % 2 = 0) (hplanes : Planes m src w h luma u v) (hstride : 3 * w ≤ strideD)
    {dst : List UInt8} (hroom : (h - 1) * strideD + 3 * w ≤ dst.length) :
    ∃ out, yuv420BgrF dst strideD m src w h = some out ∧ yuv420BgrFSlow dst strideD m src w h = some out ∧
      ∀ y < h, ∀ x < w, (Mem.ofList out).Holds (y * strideD + 3 * x) (pixel luma u v y x) := by
  obtain ⟨out, hblit⟩ := @picture_isSome w h strideD luma u v dst hh hroom
  refine ⟨out, yuv420BgrF_eq hw hh hplanes hblit, yuv420BgrFSlow_eq hw hh hplanes hstride hblit, fun y hy x hx => ?_⟩
  exact holds_pixel (by omega) hblit (by omega) (by omega)

/-- A frame of two rows and two columns: luma, and two planes of nine samples. -/
def twoByTwo : List UInt8 :=
  [10, 200, 30, 40] ++ [100, 110, 120, 130, 140, 150, 160, 170, 180] ++ [200, 190, 180, 170, 160, 150, 140, 130, 120]

def twoByTwoSource : Source := ⟨0, 8, 17, 2, 3⟩

theorem twoByTwo_planes : Planes (tape twoByTwo) twoByTwoSource 2 2 (fun x y => twoByTwo[y * 2 + x]?.getD 0)
    (fun x y => twoByTwo[4 + y * 3 + x]?.getD 0) (fun x y => twoByTwo[13 + y * 3 + x]?.getD 0) := by
  constructor <;> unfold Plane <;> decide

theorem yuv420BgrF_eq_slow_twoByTwo : ∃ out,
    yuv420BgrF (List.replicate 12 0) (6 : Nat) (tape twoByTwo) twoByTwoSource 2 2 = some out ∧
      yuv420BgrFSlow (List.replicate 12 0) (6 : Nat) (tape twoByTwo) twoByTwoSource 2 2 = some out ∧
      ∀ y < 2, ∀ x < 2, (Mem.ofList out).Holds (y * 6 + 3 * x) (pixel (fun x y => twoByTwo[y * 2 + x]?.getD 0)
        (fun x y => twoByTwo[4 + y * 3 + x]?.getD 0) (fun x y => twoByTwo[13 + y * 3 + x]?.getD 0) y x) :=
  yuv420BgrF_eq_slow (by decide) (by decide) twoByTwo_planes (by decide) (by decide)

end SiglusExtract.Color
