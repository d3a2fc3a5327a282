/-
`UnpackOMV::video_write_fixed` (UnpackOmv.h), as it stands in Omv2Avi.cpp and Siglus_OMV too: a frame of format 4:4:4
becomes a picture with four bytes a pixel. The upper three quarters of its planes are the colours; the lower quarters
are the alpha plane, a third of it in each.
-/
import SiglusExtract.Lib.CInt
import SiglusExtract.Lib.Gather
import SiglusExtract.Lib.Raster
import SiglusExtract.Tool
import Mathlib.Tactic.Ring

namespace SiglusExtract.Omv

open CInt Patch Gather Raster

/-! ## The loop -/

/-- `vidheight * 3 / 4`. -/
def fixedHeight (vidheight : Int) : Int := (i32 (vidheight * 3)).tdiv 4

/-- The multiple of `height` that is added for the alpha of row `y`. -/
def third (height y : Int) : Int :=
  if y < (height + 2).tdiv 3 then 1
  else if y < (height + 2).tdiv 3 * 2 then 2
  else 3

/-- The assignments for column `x` of row `y`, with the offsets of 32 bits. -/
def pixelMoves (vidwidth vidheight height : Int) (y x : Nat) : List Move :=
  let stride := i32 (vidwidth * 4)
  let offset := if stride < 0 then i32 (-stride * (vidheight - 1)) else 0
  [⟨u32 (offset + stride * y + 4 * x + 0), u32 (vidwidth * (vidheight * 0 + y) + x)⟩,
    ⟨u32 (offset + stride * y + 4 * x + 1), u32 (vidwidth * (vidheight * 1 + y) + x)⟩,
    ⟨u32 (offset + stride * y + 4 * x + 2), u32 (vidwidth * (vidheight * 2 + y) + x)⟩,
    ⟨u32 (offset + stride * y + 4 * x + 3), u32 (vidwidth * (height * third height y + y) + x)⟩]

/-- All assignments, row by row. -/
def fixedMoves (vidwidth vidheight : Int) : List Move :=
  (List.range (fixedHeight vidheight).toNat).flatMap fun y =>
    (List.range vidwidth.toNat).flatMap fun x => pixelMoves vidwidth vidheight (fixedHeight vidheight) y x

/-- A frame of three planes of one size, small enough that the buffers for them can be allocated. -/
structure Frame where
  width : Nat
  height : Nat
  planes : Fin 3 → List UInt8
  width_pos : 0 < width
  four_dvd : 4 ∣ height
  planes_length : ∀ p, (planes p).length = width * height
  allocated : heapAlloc (3 * (width * height)) = .ok ()

/-- The planes copied behind each other into `dst`, a buffer with the content `junk`. -/
def concatPlanes (f : Frame) (junk : Nat → UInt8) : Option (List UInt8) := do
  let dst := (List.range (u32 (f.height * f.width * 3 : Nat))).map junk
  let dst ← patch dst 0 (f.planes 0)
  let dst ← patch dst (u32 (f.height * f.width : Nat)) (f.planes 1)
  patch dst (u32 (f.height * f.width * 2 : Nat)) (f.planes 2)

/-- `video_write_fixed` up to the picture in `buf`, a buffer with the content `junk'`. -/
def videoWriteFixed (f : Frame) (junk junk' : Nat → UInt8) : Option (List UInt8) := do
  let dst ← concatPlanes f junk
  run dst (fixedMoves f.width f.height) ((List.range (u32 (f.width * 4 * fixedHeight f.height))).map junk')

/-! ## Where the samples come from -/

namespace Frame

variable (f : Frame)

/-- The height of the picture. -/
def rows : Nat := 3 * f.height / 4

/-- The plane that channel `c` of row `y` comes from. -/
def planeOf (y c : Nat) : Nat := if c < 3 then c else y / (f.height / 4)

/-- The row of the plane. -/
def rowOf (y c : Nat) : Nat := if c < 3 then y else f.rows + y % (f.height / 4)

/-- The index in the planes behind each other. -/
def source (y x c : Nat) : Nat := (f.planeOf y c * f.height + f.rowOf y c) * f.width + x

theorem size_lt : 3 * (f.width * f.height) < 2 ^ 31 := lt_of_heapAlloc f.allocated

theorem height_eq : f.height = 4 * (f.height / 4) := by
  have := f.four_dvd
  omega

theorem height_le : f.height ≤ f.width * f.height := Nat.le_mul_of_pos_left _ f.width_pos

theorem fixedHeight_eq : fixedHeight f.height = f.rows := by
  have := f.size_lt
  have := f.height_le
  rw [fixedHeight, i32_eq (by omega) (by omega), Int.tdiv_eq_ediv_of_nonneg (by omega), rows]
  omega

theorem rows_eq : f.rows = 3 * (f.height / 4) := by
  have := f.height_eq
  rw [rows]
  omega

theorem planeOf_lt {y : Nat} (hy : y < f.rows) (c : Nat) : f.planeOf y c < 3 := by
  rw [rows_eq] at hy
  unfold planeOf
  split
  · assumption
  · exact Nat.div_lt_of_lt_mul (by omega)

theorem rowOf_lt {y : Nat} (hy : y < f.rows) (c : Nat) : f.rowOf y c < f.height := by
  have hheight := f.height_eq
  rw [rows_eq] at hy
  have := Nat.mod_lt y (show 0 < f.height / 4 by omega)
  unfold rowOf
  split
  · omega
  · rw [rows_eq]
    omega

/-- The colours are read from the upper rows of each plane. -/
theorem colour_row {c : Nat} (hc : c < 3) (y : Nat) :
    f.planeOf y c * f.height + f.rowOf y c = c * f.height + y := by
  rw [planeOf, rowOf, if_pos hc, if_pos hc]

/-- The three multiples of the height come to the lower rows of the three planes. -/
theorem alpha_row {y : Nat} (hy : y < f.rows) :
    ((f.planeOf y 3 * f.height + f.rowOf y 3 : Nat) : Int) = f.rows * third f.rows y + y := by
  have hheight := f.height_eq
  have hdiv := Nat.div_add_mod y (f.height / 4)
  have hmod := Nat.mod_lt y (show 0 < f.height / 4 by rw [rows_eq] at hy; omega)
  have hplane := f.planeOf_lt hy 3
  rw [planeOf, rowOf, if_neg (by omega), if_neg (by omega), rows_eq, third, Int.tdiv_eq_ediv_of_nonneg (by omega)]
  rw [planeOf, if_neg (by omega)] at hplane
  generalize f.height / 4 = k at *
  generalize y / k = q at *
  generalize y % k = r at *
  rw [hheight]
  obtain rfl | rfl | rfl : q = 0 ∨ q = 1 ∨ q = 2 := by omega
  · rw [if_pos (by omega)]
    omega
  · rw [if_neg (by omega), if_pos (by omega)]
    omega
  · rw [if_neg (by omega), if_neg (by omega)]
    omega

theorem source_lt {y : Nat} (hy : y < f.rows) {x : Nat} (hx : x < f.width) (c : Nat) :
    f.source y x c < 3 * (f.width * f.height) := by
  have hcell := cell_lt (cell_lt (f.planeOf_lt hy c) (f.rowOf_lt hy c)) hx
  rwa [Nat.mul_assoc, Nat.mul_comm f.height] at hcell

theorem dest_lt {y : Nat} (hy : y < f.rows) {x : Nat} (hx : x < f.width) {c : Nat} (hc : c < 4) :
    (y * f.width + x) * 4 + c < f.rows * f.width * 4 :=
  cell_lt (cell_lt hy hx) hc

theorem rows_mul_le : f.rows * f.width * 4 = 3 * (f.width * f.height) := by
  rw [rows_eq, Nat.mul_comm _ 4, Nat.mul_comm _ f.width, ← Nat.mul_assoc, Nat.mul_comm 4, Nat.mul_assoc,
    Nat.mul_left_comm 4, ← f.height_eq, Nat.mul_left_comm]

/-- An offset that fits. -/
theorem u32_eq_of {e : Int} {n : Nat} (h : e = n) (hn : n < 3 * (f.width * f.height)) : u32 e = n := by
  have := f.size_lt
  rw [h, u32_eq (by omega) (by omega), Int.toNat_natCast]

/-- The assignments for a pixel: its four bytes, each from its place in the planes. -/
theorem pixelMoves_eq {y : Nat} (hy : y < f.rows) {x : Nat} (hx : x < f.width) :
    pixelMoves f.width f.height (fixedHeight f.height) y x =
      (List.range 4).map fun c => ⟨(y * f.width + x) * 4 + c, f.source y x c⟩ := by
  have hsize := f.size_lt
  have hrows := f.rows_mul_le
  have hstride : i32 (f.width * 4 : Int) = f.width * 4 := by
    have := Nat.mul_le_mul_right (f.width * 4) (show 1 ≤ f.rows by omega)
    rw [Nat.one_mul, ← Nat.mul_assoc] at this
    exact i32_eq (by omega) (by omega)
  have hdest : ∀ c < 4, (y * f.width + x) * 4 + c < 3 * (f.width * f.height) := by
    intro c hc
    rw [← hrows]
    exact f.dest_lt hy hx hc
  have hsrc : ∀ c : Nat, c < 3 → u32 (f.width * (f.height * c + y) + x) = f.source y x c := by
    intro c hc
    refine f.u32_eq_of ?_ (f.source_lt hy hx c)
    rw [source, f.colour_row hc]
    push_cast
    ring
  have halpha : u32 (f.width * (f.rows * third f.rows y + y) + x) = f.source y x 3 := by
    refine f.u32_eq_of ?_ (f.source_lt hy hx 3)
    rw [source, Nat.cast_add, Nat.cast_mul, f.alpha_row hy]
    ring
  rw [pixelMoves, hstride, if_neg (by omega), f.fixedHeight_eq, halpha]
  show _ = [_, _, _, _]
  simp only [List.cons.injEq, Move.mk.injEq, and_true]
  refine ⟨⟨f.u32_eq_of ?_ (hdest 0 (by decide)), hsrc 0 (by decide)⟩,
    ⟨f.u32_eq_of ?_ (hdest 1 (by decide)), hsrc 1 (by decide)⟩,
    ⟨f.u32_eq_of ?_ (hdest 2 (by decide)), hsrc 2 (by decide)⟩, f.u32_eq_of ?_ (hdest 3 (by decide))⟩
  all_goals
    push_cast
    ring

/-- All assignments. -/
theorem fixedMoves_eq : fixedMoves f.width f.height =
    (List.range f.rows).flatMap fun y => (List.range f.width).flatMap fun x =>
      (List.range 4).map fun c => ⟨(y * f.width + x) * 4 + c, f.source y x c⟩ := by
  rw [fixedMoves, Int.toNat_natCast, f.fixedHeight_eq, Int.toNat_natCast, ← f.fixedHeight_eq]
  refine List.flatMap_congr fun y hy => List.flatMap_congr fun x hx => ?_
  exact f.pixelMoves_eq (List.mem_range.1 hy) (List.mem_range.1 hx)

theorem mem_fixedMoves {m : Move} : m ∈ fixedMoves f.width f.height ↔
    ∃ y < f.rows, ∃ x < f.width, ∃ c < 4, m = ⟨(y * f.width + x) * 4 + c, f.source y x c⟩ := by
  simp only [fixedMoves_eq, List.mem_flatMap, List.mem_map, List.mem_range, eq_comm]

/-- The bytes of the picture are written from its start to its end. -/
theorem fixedMoves_dest : (fixedMoves f.width f.height).map Move.dest = List.range (f.rows * f.width * 4) := by
  rw [fixedMoves_eq, ← flatMap_range 4, ← flatMap_range f.width, List.flatMap_assoc, List.map_flatMap]
  simp only [List.map_flatMap, List.map_map, List.flatMap_map]
  rfl

/-- Every sample comes to some byte. -/
theorem source_surjective {i : Nat} (hi : i < 3 * (f.width * f.height)) :
    ∃ y < f.rows, ∃ x < f.width, ∃ c < 4, f.source y x c = i := by
  have hwidth := f.width_pos
  have hrow : i / f.width < 3 * f.height := by
    refine Nat.div_lt_of_lt_mul ?_
    rwa [Nat.mul_left_comm]
  have hheight := f.height_eq
  have hplane : i / f.width / f.height < 3 := Nat.div_lt_of_lt_mul (by omega)
  have hpos : 0 < 3 * f.height := (Nat.zero_le _).trans_lt hrow
  have hlow := Nat.mod_lt (i / f.width) (show 0 < f.height by omega)
  have hx := Nat.mod_lt i hwidth
  have hsplit : (i / f.width / f.height * f.height + i / f.width % f.height) * f.width + i % f.width = i := by
    rw [Nat.div_add_mod', Nat.div_add_mod']
  by_cases hupper : i / f.width % f.height < f.rows
  · -- a colour
    refine ⟨i / f.width % f.height, hupper, i % f.width, hx, i / f.width / f.height, by omega, ?_⟩
    rw [source, f.colour_row hplane, hsplit]
  · -- the alpha of a pixel in a third of the picture
    have hrows := f.rows_eq
    have hthird : i / f.width % f.height - f.rows < f.height / 4 := by omega
    have hy : i / f.width / f.height * (f.height / 4) + (i / f.width % f.height - f.rows) < f.rows := by
      have hcell := cell_lt hplane hthird
      rwa [← hrows] at hcell
    refine ⟨_, hy, i % f.width, hx, 3, by decide, ?_⟩
    rw [source, planeOf, rowOf, if_neg (by omega), if_neg (by omega), Nat.mul_comm _ (f.height / 4),
      Nat.mul_add_div (by omega), Nat.mul_add_mod, Nat.div_eq_of_lt hthird, Nat.mod_eq_of_lt hthird, Nat.add_zero,
      Nat.add_sub_cancel' (by omega), hsplit]

theorem fixedMoves_src : ((fixedMoves f.width f.height).map Move.src).Perm (List.range (3 * (f.width * f.height))) := by
  refine perm_range ?_ fun i hi => ?_
  · have hlen := congrArg List.length f.fixedMoves_dest
    rw [List.length_map, List.length_range, rows_mul_le] at hlen
    rw [List.length_map, hlen]
  · obtain ⟨y, hy, x, hx, c, hc, rfl⟩ := f.source_surjective hi
    exact List.mem_map.2 ⟨_, f.mem_fixedMoves.2 ⟨y, hy, x, hx, c, hc, rfl⟩, rfl⟩

/-! ## The picture -/

theorem concatPlanes_eq (junk : Nat → UInt8) :
    concatPlanes f junk = some (f.planes 0 ++ f.planes 1 ++ f.planes 2) := by
  have hsize := f.size_lt
  have hwhole : u32 (f.height * f.width * 3 : Nat) = 3 * (f.width * f.height) := by
    rw [Nat.mul_comm, Nat.mul_comm f.height, u32_eq (by omega) (by omega), Int.toNat_natCast]
  have hfirst : u32 (f.height * f.width : Nat) = f.width * f.height := by
    rw [Nat.mul_comm, u32_eq (by omega) (by omega), Int.toNat_natCast]
  have hsecond : u32 (f.height * f.width * 2 : Nat) = f.width * f.height * 2 := by
    rw [Nat.mul_comm f.height, u32_eq (by omega) (by omega), Int.toNat_natCast]
  have h0 := f.planes_length 0
  have h1 := f.planes_length 1
  have h2 := f.planes_length 2
  unfold concatPlanes
  rw [hwhole, hfirst, hsecond]
  generalize hdst : (List.range (3 * (f.width * f.height))).map junk = dst
  have hlen : dst.length = 3 * (f.width * f.height) := by rw [← hdst, List.length_map, List.length_range]
  have hstart := @patch_append _ [] dst 0 rfl (f.planes 0) (by omega)
  rw [List.nil_append, List.nil_append] at hstart
  simp only [hstart, Option.bind_eq_bind, Option.bind_some]
  rw [patch_append h0.symm (by rw [List.length_drop]; omega), Option.bind_some,
    patch_append (by rw [List.length_append]; omega) (by simp only [List.length_drop]; omega),
    List.drop_eq_nil_of_le (by simp only [List.length_drop]; omega), List.append_nil]

/-- A sample in the planes behind each other. -/
theorem concat_sample (p : Fin 3) {r : Nat} (hr : r < f.height) {x : Nat} (hx : x < f.width) :
    (f.planes 0 ++ f.planes 1 ++ f.planes 2)[(p * f.height + r) * f.width + x]? =
      (f.planes p)[r * f.width + x]? := by
  have h0 := f.planes_length 0
  have h1 := f.planes_length 1
  have hcell := cell_lt hr hx
  rw [Nat.mul_comm f.height] at hcell
  have hindex : ∀ n, (n * f.height + r) * f.width + x = n * (f.width * f.height) + (r * f.width + x) := by
    intro n
    ring
  rw [hindex]
  match p with
  | 0 =>
    show (f.planes 0 ++ f.planes 1 ++ f.planes 2)[0 * (f.width * f.height) + (r * f.width + x)]? = _
    rw [Nat.zero_mul, Nat.zero_add, List.append_assoc, List.getElem?_append_left (by omega)]
  | 1 =>
    show (f.planes 0 ++ f.planes 1 ++ f.planes 2)[1 * (f.width * f.height) + (r * f.width + x)]? = _
    rw [Nat.one_mul, List.append_assoc, List.getElem?_append_right (by omega), h0, Nat.add_sub_cancel_left,
      List.getElem?_append_left (by omega)]
  | 2 =>
    show (f.planes 0 ++ f.planes 1 ++ f.planes 2)[2 * (f.width * f.height) + (r * f.width + x)]? = _
    rw [Nat.two_mul, ← h0, List.getElem?_append_right (by rw [List.length_append, h1, h0]; omega), List.length_append,
      h1, ← h0, Nat.add_sub_cancel_left]

end Frame

/-- The loop reads inside the planes and writes each byte of the picture once; the first three bytes of a pixel are the
samples at its place, its alpha is from the lower quarter of the plane for its third of the picture; each sample is used
once. -/
theorem videoWriteFixed_eq (f : Frame) (junk junk' : Nat → UInt8) :
    (∀ m ∈ fixedMoves f.width f.height, m.src < 3 * (f.width * f.height)) ∧
      ((fixedMoves f.width f.height).map Move.dest).Perm (List.range (f.width * (3 * f.height / 4) * 4)) ∧
      ((fixedMoves f.width f.height).map Move.src).Perm (List.range (3 * (f.width * f.height))) ∧
      ∃ buf, videoWriteFixed f junk junk' = some buf ∧ buf.length = f.width * (3 * f.height / 4) * 4 ∧
        ∀ y < 3 * f.height / 4, ∀ x < f.width,
          (∀ c : Fin 3, buf[(y * f.width + x) * 4 + c]? = (f.planes c)[y * f.width + x]?) ∧
          ∃ p : Fin 3, (p : Nat) = y / (f.height / 4) ∧ buf[(y * f.width + x) * 4 + 3]? =
            (f.planes p)[(3 * f.height / 4 + y % (f.height / 4)) * f.width + x]? := by
  have hrows := f.rows_mul_le
  have hdest := f.fixedMoves_dest
  rw [Nat.mul_comm f.rows] at hdest hrows
  have hsrc : ∀ m ∈ fixedMoves f.width f.height, m.src < 3 * (f.width * f.height) := by
    intro m hm
    obtain ⟨y, hy, x, hx, c, -, rfl⟩ := f.mem_fixedMoves.1 hm
    exact f.source_lt hy hx c
  refine ⟨hsrc, by rw [hdest]; exact .rfl, f.fixedMoves_src, ?_⟩
  have hsize : u32 (f.width * 4 * fixedHeight f.height) = f.width * f.rows * 4 := by
    have := f.size_lt
    rw [f.fixedHeight_eq, show (f.width * 4 * f.rows : Int) = (f.width * f.rows * 4 : Nat) by push_cast; ring,
      u32_eq (by omega) (by omega), Int.toNat_natCast]
  have hdata : (f.planes 0 ++ f.planes 1 ++ f.planes 2).length = 3 * (f.width * f.height) := by
    simp only [List.length_append, f.planes_length]
    omega
  have hbuf : ((List.range (f.width * f.rows * 4)).map junk').length = f.width * f.rows * 4 := by
    rw [List.length_map, List.length_range]
  obtain ⟨buf, hrun, hlen, hcells, -⟩ := @run_spec _ (f.planes 0 ++ f.planes 1 ++ f.planes 2)
    (fixedMoves f.width f.height) ((List.range (f.width * f.rows * 4)).map junk') (by rwa [hdata])
    (fun m hm => by rw [hbuf, ← List.mem_range, ← hdest]; exact List.mem_map_of_mem hm)
    (by rw [hdest]; exact List.nodup_range)
  refine ⟨buf, ?_, by rw [hlen, hbuf]; rfl, fun y hy x hx => ?_⟩
  · rw [videoWriteFixed, f.concatPlanes_eq, hsize]
    exact hrun
  · -- channel `c` of the pixel
    have hpixel : ∀ c (hc : c < 4), buf[(y * f.width + x) * 4 + c]? =
        (f.planes ⟨f.planeOf y c, f.planeOf_lt hy c⟩)[f.rowOf y c * f.width + x]? := by
      intro c hc
      rw [hcells _ (f.mem_fixedMoves.2 ⟨y, hy, x, hx, c, hc, rfl⟩)]
      exact f.concat_sample ⟨f.planeOf y c, f.planeOf_lt hy c⟩ (f.rowOf_lt hy c) hx
    constructor
    · intro c
      rw [hpixel c (by omega)]
      simp only [Frame.planeOf, Frame.rowOf, if_pos c.isLt]
    · exact ⟨⟨f.planeOf y 3, f.planeOf_lt hy 3⟩, rfl, hpixel 3 (by decide)⟩

/-- A frame with one column, its samples numbered. -/
def oneColumn : Frame where
  width := 1
  height := 4
  planes p := (List.range 4).map fun y => UInt8.ofNat (4 * p + y)
  width_pos := by decide
  four_dvd := by decide
  planes_length _ := rfl
  allocated := rfl

example : videoWriteFixed oneColumn (fun _ => 0) (fun _ => 0) = some [0, 4, 8, 3, 1, 5, 9, 7, 2, 6, 10, 11] := by
  decide +kernel

end SiglusExtract.Omv
