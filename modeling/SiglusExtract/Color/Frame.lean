/-
`MakeYUV420Frame` and `CreateYUV420Frame` (Color2.h): the planes of a 4:2:0 frame copied into one allocation, the chroma
planes with a border that repeats their outermost samples; and the part of `UnpackOMV::video_write` (UnpackOmv.h) that
has such a frame converted.
-/
import SiglusExtract.Color.Yuv420
import SiglusExtract.Tool

namespace SiglusExtract.Color

open CInt Pointer Patch

/-! ## The functions -/

/-- The loop of `MakeYUV420Frame`, with `n` rows left and `p` at the first sample of the next one. -/
def borderLoop (w stride : Int) : Nat → Int → List UInt8 → Option (List UInt8)
  | 0, _, buf => some buf
  | n + 1, p, buf => do
    let buf ← (load buf p 1).bind fun cell => store buf (p - 1) cell
    let buf ← (load buf (p + (w - 1)) 1).bind fun cell => store buf (p + w) cell
    borderLoop w stride n (p + stride) buf

/-- `MakeYUV420Frame`. -/
def makeYuv420Frame (buf : List UInt8) (dst : Int) (w h : Nat) (stride : Int) : Option (List UInt8) := do
  let buf ← borderLoop w stride h dst buf
  let buf ← (load buf (dst - 1) (w + 2)).bind fun row => store buf (dst - stride - 1) row
  (load buf (dst + stride * h - stride - 1) (w + 2)).bind fun row => store buf (dst + stride * h - 1) row

/-- The loops of `CreateYUV420Frame` that copy a chroma plane, with `n` rows left and row `y` next. -/
def copyPlane (src : List UInt8) (db sb : Int) (ww ww2 : Nat) : Nat → Nat → List UInt8 → Option (List UInt8)
  | 0, _, dst => some dst
  | n + 1, y, dst => do
    let dst ← (load src (sb + y * ww) ww).bind fun row => store dst (db + y * ww2) row
    copyPlane src db sb ww ww2 n (y + 1) dst

/-- `CreateYUV420Frame`. `junk` is what the allocation holds. -/
def createYuv420Frame (junk : Nat → UInt8) (src : List UInt8) (w h : Nat) : Option (List UInt8) := do
  let wh := w * h
  let ww := w / 2
  let hh := h / 2
  let ww2 := ww + 2
  let hh2 := hh + 2
  let ww2hh2 := ww2 * hh2
  let dst := (List.range ((wh + ww2hh2 * 2) % 2 ^ 32)).map junk
  let dst ← (load src 0 wh).bind fun y => store dst 0 y
  let db : Int := wh + ww2 + 1
  let sb : Int := wh
  let dst ← copyPlane src db sb ww ww2 hh 0 dst
  let db := db + ww2hh2
  let sb := sb + (wh / 4 : Nat)
  let dst ← copyPlane src db sb ww ww2 hh 0 dst
  let dst ← makeYuv420Frame dst (wh + ww2 + 1) ww hh ww2
  makeYuv420Frame dst (wh + ww2hh2 + ww2 + 1) ww hh ww2

/-- A 4:2:0 frame with an even width and height, its planes without gaps, for which the buffers can be allocated. -/
structure Frame where
  width : Nat
  height : Nat
  y : List UInt8
  u : List UInt8
  v : List UInt8
  width_even : width % 2 = 0
  height_even : height % 2 = 0
  width_pos : 2 ≤ width
  height_pos : 2 ≤ height
  y_length : y.length = width * height
  u_length : u.length = width / 2 * (height / 2)
  v_length : v.length = width / 2 * (height / 2)
  allocated : heapAlloc (width * height + (width / 2 + 2) * (height / 2 + 2) * 2) = .ok ()
  allocated_picture : heapAlloc (width * height * 3) = .ok ()

/-- `frame_data` and `frame_size`, where `src2` starts at 0. -/
def frameData (w h : Nat) : Source where
  y := 0
  u := w * h + (w / 2 : Nat) + 3
  v := w * h + ((w / 2 + 2) * (h / 2 + 2) : Nat) + (w / 2 : Nat) + 3
  strideY := w
  strideU := (w / 2 : Nat) + 2

/-- `video_write` up to the picture in `dst`, a buffer with the content `junk'`. -/
def videoWrite (f : Frame) (junk junk' : Nat → UInt8) : Option (List UInt8) := do
  let src2 ← createYuv420Frame junk (f.y ++ f.u ++ f.v) f.width f.height
  let dst := (List.range (f.width * f.height * 3 % 2 ^ 32)).map junk'
  yuv420BgrF dst (f.width * 3 : Nat) (tape src2) (frameData f.width f.height) f.width f.height

/-! ## One plane -/

/-- The sample of a plane that is nearest to a place in the bordered plane. -/
def clamp (n i : Nat) : Nat := min (i - 1) (n - 1)

/-- The plane with its outermost samples repeated, `w` samples wide and `h` high without the border. -/
def bordered (plane : List UInt8) (w h x y : Nat) : UInt8 := plane[clamp h y * w + clamp w x]?.getD 0

section Plane

variable {w : Nat} (hw : 1 ≤ w)
include hw

/-- A row gets its first and its last sample from the ones beside. -/
theorem border_row {buf : List UInt8} {r : Nat} (hrow : r * (w + 2) + (w + 2) ≤ buf.length) :
    ∃ buf₁ buf₂,
      ((load buf (r * (w + 2) + 1 : Nat) 1).bind fun cell => store buf (r * (w + 2) : Nat) cell) = some buf₁ ∧
      ((load buf₁ (r * (w + 2) + w : Nat) 1).bind fun cell => store buf₁ (r * (w + 2) + w + 1 : Nat) cell) = some buf₂ ∧
      buf₂.length = buf.length ∧ ∀ c < w + 2, ∀ y, buf₂[y * (w + 2) + c]? =
        if y = r then buf[y * (w + 2) + (clamp w c + 1)]? else buf[y * (w + 2) + c]? := by
  have hlast : r * (w + 2) + w < (buf.set (r * (w + 2)) buf[r * (w + 2) + 1]).length := by
    rw [List.length_set]
    omega
  refine ⟨_, _, copy_cell (by omega) (by omega), copy_cell hlast (by rw [List.length_set]; omega), ?_, ?_⟩
  · rw [List.length_set, List.length_set]
  · intro c hc y
    have hmem := @Raster.mem_row_iff (w + 2) c y 0 r (w + 2) hc (by omega)
    by_cases hy : y = r
    · subst hy
      rw [if_pos rfl, List.getElem_set_ne (by omega)]
      by_cases hfirst : c = 0
      · subst hfirst
        rw [List.getElem?_set_ne (by omega), Nat.add_zero (y * (w + 2)), List.getElem?_set_self (by omega), clamp,
          Nat.zero_sub, Nat.zero_min, List.getElem?_eq_getElem]
      · by_cases hend : c = w + 1
        · subst hend
          rw [← Nat.add_assoc, List.getElem?_set_self (by rw [List.length_set]; omega), clamp,
            show min (w + 1 - 1) (w - 1) + 1 = w by omega, List.getElem?_eq_getElem]
        · rw [List.getElem?_set_ne (by omega), List.getElem?_set_ne (by omega), clamp,
            show min (c - 1) (w - 1) + 1 = c by omega]
    · rw [if_neg hy, List.getElem?_set_ne (by omega), List.getElem?_set_ne (by omega)]

/-- Row `r` and those below it get their first and last sample from the ones beside. -/
theorem borderLoop_eq : ∀ (n r : Nat) {buf : List UInt8}, (r + n) * (w + 2) ≤ buf.length →
    ∃ buf', borderLoop w (w + 2 : Nat) n (r * (w + 2) + 1 : Nat) buf = some buf' ∧ buf'.length = buf.length ∧
      ∀ c < w + 2, ∀ y, buf'[y * (w + 2) + c]? =
        if r ≤ y ∧ y < r + n then buf[y * (w + 2) + (clamp w c + 1)]? else buf[y * (w + 2) + c]?
  | 0, r, buf, _ => by
    refine ⟨buf, rfl, rfl, fun c _ y => ?_⟩
    rw [if_neg (by omega)]
  | n + 1, r, buf, hlen => by
    have hrow := Raster.row_le (w + 2) (show r < r + (n + 1) by omega)
    obtain ⟨buf₁, buf₂, hfirst, hlast, hlen₂, hcells₂⟩ := border_row hw (hrow.trans hlen)
    rw [← hlen₂, ← Nat.succ_add_eq_add_succ] at hlen
    obtain ⟨buf', hloop, hlen', hcells'⟩ := borderLoop_eq n (r + 1) hlen
    refine ⟨buf', ?_, by rw [hlen', hlen₂], fun c hc y => ?_⟩
    · have hbefore : ((r * (w + 2) + 1 : Nat) : Int) - 1 = (r * (w + 2) : Nat) := by push_cast; ring
      have hbeside : ((r * (w + 2) + 1 : Nat) : Int) + (w - 1) = (r * (w + 2) + w : Nat) := by push_cast; ring
      have hbehind : ((r * (w + 2) + 1 : Nat) : Int) + w = (r * (w + 2) + w + 1 : Nat) := by push_cast; ring
      have hnext : ((r * (w + 2) + 1 : Nat) : Int) + (w + 2 : Nat) = ((r + 1) * (w + 2) + 1 : Nat) := by push_cast; ring
      rw [borderLoop, hbefore, hbeside, hbehind, hnext, hfirst]
      simp only [Option.bind_eq_bind, Option.bind_some]
      rw [hlast, Option.bind_some, hloop]
    · rw [hcells' c hc y, hcells₂ _ (by unfold clamp; omega) y, hcells₂ c hc y]
      by_cases hy : y = r
      · rw [if_neg (by omega), if_pos hy, if_pos (by omega)]
      · rw [if_neg hy, if_neg hy]
        exact if_congr (by omega) rfl rfl

/-- The border of a plane is filled. -/
theorem makeYuv420Frame_eq {h : Nat} (hh : 1 ≤ h) {buf : List UInt8} (hlen : buf.length = (h + 2) * (w + 2)) :
    ∃ buf', makeYuv420Frame buf (w + 2 + 1 : Nat) w h (w + 2 : Nat) = some buf' ∧ buf'.length = (h + 2) * (w + 2) ∧
      ∀ c < w + 2, ∀ r < h + 2, buf'[r * (w + 2) + c]? = buf[(clamp h r + 1) * (w + 2) + (clamp w c + 1)]? := by
  obtain ⟨buf₁, hloop, hlen₁, hcells₁⟩ := borderLoop_eq hw h 1
    (by rw [hlen]; exact Nat.mul_le_mul_right (w + 2) (by omega))
  rw [hlen] at hlen₁
  obtain ⟨buf₂, htop, hlen₂, hcells₂⟩ := @copy_row _ buf₁ (w + 2) (h + 2) 1 0 hlen₁ (by omega) (by omega)
  obtain ⟨buf₃, hbottom, hlen₃, hcells₃⟩ := @copy_row _ buf₂ (w + 2) (h + 2) h (h + 1) hlen₂ (by omega) (by omega)
  refine ⟨buf₃, ?_, hlen₃, fun c hc r hr => ?_⟩
  · have hfirst : ((w + 2 + 1 : Nat) : Int) - 1 = (1 * (w + 2) : Nat) := by push_cast; ring
    have habove : ((w + 2 + 1 : Nat) : Int) - (w + 2 : Nat) - 1 = (0 * (w + 2) : Nat) := by push_cast; ring
    have hlast : ((w + 2 + 1 : Nat) : Int) + (w + 2 : Nat) * h - (w + 2 : Nat) - 1 = (h * (w + 2) : Nat) := by
      push_cast
      ring
    have hbelow : ((w + 2 + 1 : Nat) : Int) + (w + 2 : Nat) * h - 1 = ((h + 1) * (w + 2) : Nat) := by
      push_cast
      ring
    rw [Nat.one_mul] at hloop
    rw [makeYuv420Frame, hloop, hfirst, habove, hlast, hbelow]
    simp only [Option.bind_eq_bind, Option.bind_some]
    rw [htop, Option.bind_some, hbottom]
  · rw [hcells₃ c hc, hcells₂ c hc, hcells₁ c hc, if_pos (by split <;> split <;> omega)]
    congr 3
    unfold clamp
    split <;> split <;> omega

omit hw in
/-- The rows of a plane are copied into the inside of the bordered one. -/
theorem copyPlane_blit {src : List UInt8} {ww ww2 : Nat} {sb : Nat} : ∀ (n y : Nat) {dst : List UInt8},
    sb + (y + n) * ww ≤ src.length → copyPlane src (ww2 + 1 : Nat) sb ww ww2 n y dst =
      Raster.blit ww2 dst ((1 + y) * ww2 + 1) ((List.range' y n).map fun y => (src.drop (sb + y * ww)).take ww)
  | 0, _, _, _ => rfl
  | n + 1, y, dst, hlen => by
    have hrow := Raster.row_le ww (show y < y + (n + 1) by omega)
    have hsrc : (sb : Int) + y * ww = (sb + y * ww : Nat) := by push_cast; ring
    have hdst : ((ww2 + 1 : Nat) : Int) + y * ww2 = ((1 + y) * ww2 + 1 : Nat) := by push_cast; ring
    rw [copyPlane, hsrc, load_natCast (by omega), hdst, Option.bind_some, store_natCast, List.range'_succ,
      List.map_cons, Raster.blit, Option.bind_eq_bind]
    congr 1
    funext dst
    rw [copyPlane_blit n (y + 1) (by rwa [show y + 1 + n = y + (n + 1) by omega])]
    congr 1
    ring

omit hw in
/-- The inside of a bordered plane after the copy. -/
theorem copyPlane_eq {h sb : Nat} {src plane buf : List UInt8} (hplane : (Mem.ofList src).Holds sb plane)
    (hsize : plane.length = w * h) (hsrc : sb + plane.length ≤ src.length) (hlen : buf.length = (h + 2) * (w + 2)) :
    ∃ buf', copyPlane src (w + 2 + 1 : Nat) sb w (w + 2) h 0 buf = some buf' ∧ buf'.length = (h + 2) * (w + 2) ∧
      ∀ x < w, ∀ y < h, buf'[(y + 1) * (w + 2) + (x + 1)]? = plane[y * w + x]? := by
  rw [Nat.mul_comm] at hsize
  have hrow : ∀ y < h, y * w + w ≤ plane.length := by
    intro y hy
    rw [hsize]
    exact Raster.row_le w hy
  rw [copyPlane_blit h 0 (by rw [Nat.zero_add]; omega), ← List.range_eq_range', Nat.add_zero]
  obtain ⟨buf', hblit, hlen', hcells⟩ := @Raster.blit_spec _ (w + 2) (h + 2) 1 w (by omega)
    ((List.range h).map fun y => (src.drop (sb + y * w)).take w) buf 1 (by
      intro row hrow'
      obtain ⟨y, hy, rfl⟩ := List.mem_map.1 hrow'
      have := hrow y (List.mem_range.1 hy)
      rw [List.length_take, List.length_drop]
      omega) hlen (by rw [List.length_map, List.length_range]; omega)
  refine ⟨buf', hblit, hlen', fun x hx y hy => ?_⟩
  rw [hcells (x + 1) (y + 1) (by omega), if_pos (by rw [List.length_map, List.length_range]; omega), Nat.add_sub_cancel,
    Nat.add_sub_cancel, List.getElem?_map, List.getElem?_range hy, Option.map_some, Option.bind_some,
    List.getElem?_take_of_lt hx, List.getElem?_drop]
  have := hrow y hy
  have hheld := hplane (y * w + x) (by omega)
  rw [Mem.ofList, ← Nat.add_assoc] at hheld
  rw [hheld, List.getElem?_eq_getElem]

omit hw in
theorem copyPlane_frame {src : List UInt8} {db sb : Int} {ww ww2 : Nat} : ∀ {n y : Nat} {l l' : List UInt8},
    copyPlane src db sb ww ww2 n y l = some l' → ∀ pre post : List UInt8,
      copyPlane src (pre.length + db) sb ww ww2 n y (pre ++ l ++ post) = some (pre ++ l' ++ post)
  | 0, _, _, _, h, _, _ => by
    cases h
    rfl
  | n + 1, y, l, l', h, pre, post => by
    rw [copyPlane, Option.bind_eq_bind, Option.bind_eq_some_iff] at h
    obtain ⟨l₁, hcopy, h⟩ := h
    obtain ⟨row, hload, hstore⟩ := Option.bind_eq_some_iff.1 hcopy
    rw [copyPlane, hload, Option.bind_some, Int.add_assoc, store_frame hstore, Option.bind_eq_bind, Option.bind_some,
      copyPlane_frame h]

omit hw in
theorem borderLoop_frame {w stride : Int} : ∀ {n : Nat} {p : Int} {l l' : List UInt8},
    borderLoop w stride n p l = some l' → ∀ pre post : List UInt8,
      borderLoop w stride n (pre.length + p) (pre ++ l ++ post) = some (pre ++ l' ++ post)
  | 0, _, _, _, h, _, _ => by
    cases h
    rfl
  | n + 1, p, l, l', h, pre, post => by
    simp only [borderLoop, Option.bind_eq_bind] at h ⊢
    obtain ⟨l₁, hfirst, h⟩ := Option.bind_eq_some_iff.1 h
    obtain ⟨l₂, hlast, h⟩ := Option.bind_eq_some_iff.1 h
    rw [Int.add_sub_assoc, copy_frame hfirst, Option.bind_some, Int.add_assoc, Int.add_assoc, copy_frame hlast,
      Option.bind_some, Int.add_assoc, borderLoop_frame h]

omit hw in
theorem makeYuv420Frame_frame {l l' : List UInt8} {dst stride : Int} {w h : Nat}
    (hmake : makeYuv420Frame l dst w h stride = some l') (pre post : List UInt8) :
    makeYuv420Frame (pre ++ l ++ post) (pre.length + dst) w h stride = some (pre ++ l' ++ post) := by
  simp only [makeYuv420Frame, Option.bind_eq_bind] at hmake ⊢
  obtain ⟨l₁, hloop, hmake⟩ := Option.bind_eq_some_iff.1 hmake
  obtain ⟨l₂, htop, hbottom⟩ := Option.bind_eq_some_iff.1 hmake
  have habove : (pre.length : Int) + dst - stride - 1 = pre.length + (dst - stride - 1) := by ring
  have hlast : (pre.length : Int) + dst + stride * h - stride - 1 = pre.length + (dst + stride * h - stride - 1) := by
    ring
  have hbelow : (pre.length : Int) + dst + stride * h - 1 = pre.length + (dst + stride * h - 1) := by ring
  rw [borderLoop_frame hloop, Option.bind_some, habove, hlast, hbelow, Int.add_sub_assoc, copy_frame htop,
    Option.bind_some, copy_frame hbottom]

end Plane

/-! ## The frame -/

theorem clamp_lt {n : Nat} (hn : 1 ≤ n) (i : Nat) : clamp n i < n := by
  unfold clamp
  omega

theorem bordered_eq {plane : List UInt8} {w h : Nat} (hw : 1 ≤ w) (hh : 1 ≤ h) (hsize : plane.length = w * h)
    (x y : Nat) : plane[clamp h y * w + clamp w x]? = some (bordered plane w h x y) := by
  have hcell := Raster.cell_lt (clamp_lt hh y) (clamp_lt hw x)
  rw [Nat.mul_comm h] at hcell
  rw [bordered, List.getElem?_eq_getElem (by omega), Option.getD_some]

/-- A buffer that holds a bordered plane. -/
structure IsBordered (buf plane : List UInt8) (w h : Nat) : Prop where
  length : buf.length = (w + 2) * (h + 2)
  cell : ∀ x < w + 2, ∀ y < h + 2, buf[y * (w + 2) + x]? = some (bordered plane w h x y)

/-- A bordered plane in the middle of a buffer. -/
theorem IsBordered.tape {buf plane : List UInt8} {w h : Nat} (hbuf : IsBordered buf plane w h) {pre : List UInt8}
    {p : Int} (hp : p = pre.length) (post : List UInt8) :
    Plane (tape (pre ++ buf ++ post)) p (w + 2 : Nat) (w + 2) (h + 2) (bordered plane w h) := by
  intro x hx y hy
  have hcell := Raster.cell_lt hy hx
  rw [Nat.mul_comm (h + 2), ← hbuf.length] at hcell
  have hindex : (pre.length : Int) + (w + 2 : Nat) * y + x = (pre.length + (y * (w + 2) + x) : Nat) := by
    push_cast
    ring
  rw [hp, hindex, tape_natCast, List.append_assoc, List.getElem?_append_right (by omega), Nat.add_sub_cancel_left,
    List.getElem?_append_left (by omega), hbuf.cell x hx y hy]

/-- A plane copied into a part of a buffer, and its border filled later on. -/
theorem plane_eq {w h : Nat} (hw : 1 ≤ w) (hh : 1 ≤ h) {src plane buf : List UInt8} {sb : Nat}
    (hplane : (Mem.ofList src).Holds sb plane) (hsize : plane.length = w * h) (hsrc : sb + plane.length ≤ src.length)
    (hlen : buf.length = (w + 2) * (h + 2)) :
    ∃ buf₁ buf₂, copyPlane src (w + 2 + 1 : Nat) sb w (w + 2) h 0 buf = some buf₁ ∧
      makeYuv420Frame buf₁ (w + 2 + 1 : Nat) w h (w + 2 : Nat) = some buf₂ ∧ buf₁.length = (w + 2) * (h + 2) ∧
      IsBordered buf₂ plane w h := by
  rw [Nat.mul_comm] at hlen
  obtain ⟨buf₁, hcopy, hlen₁, hcells₁⟩ := copyPlane_eq hplane hsize hsrc hlen
  obtain ⟨buf₂, hmake, hlen₂, hcells₂⟩ := makeYuv420Frame_eq hw hh hlen₁
  rw [Nat.mul_comm] at hlen₁ hlen₂
  refine ⟨buf₁, buf₂, hcopy, hmake, hlen₁, hlen₂, fun x hx y hy => ?_⟩
  rw [hcells₂ x hx y hy, hcells₁ _ (clamp_lt hw x) _ (clamp_lt hh y), bordered_eq hw hh hsize]

namespace Frame

variable (f : Frame)

theorem quarter : f.width * f.height / 4 = f.width / 2 * (f.height / 2) := by
  have hw : f.width = 2 * (f.width / 2) := by have := f.width_even; omega
  have hh : f.height = 2 * (f.height / 2) := by have := f.height_even; omega
  have hwh : f.width * f.height = 4 * (f.width / 2 * (f.height / 2)) := by
    conv_lhs => rw [hw, hh, Nat.mul_mul_mul_comm]
  rw [hwh, Nat.mul_div_cancel_left _ (by decide)]

theorem size_eq : (f.width * f.height + (f.width / 2 + 2) * (f.height / 2 + 2) * 2) % 2 ^ 32 =
    f.width * f.height + (f.width / 2 + 2) * (f.height / 2 + 2) * 2 := by
  have := lt_of_heapAlloc f.allocated
  exact Nat.mod_eq_of_lt (by omega)

/-- The luma plane is copied to the start of the allocation; what is left are the parts for the chroma planes. -/
theorem luma_copied {dst : List UInt8} {n : Nat} (hdst : dst.length = f.width * f.height + n * 2) :
    ∃ ju jv, ((load (f.y ++ f.u ++ f.v) 0 (f.width * f.height)).bind fun y => store dst 0 y) = some (f.y ++ ju ++ jv) ∧
      ju.length = n ∧ jv.length = n := by
  have hy := f.y_length
  have hread : load (f.y ++ f.u ++ f.v) (0 : Nat) (f.width * f.height) = some f.y := by
    rw [load_natCast (by simp only [List.length_append]; omega), List.drop_zero, List.append_assoc, ← hy,
      List.take_left]
  have hluma := @patch_append _ [] dst 0 rfl f.y (by omega)
  rw [List.nil_append, List.nil_append, hy, ← List.take_append_drop n (dst.drop (f.width * f.height)),
    ← List.append_assoc] at hluma
  refine ⟨(dst.drop (f.width * f.height)).take n, (dst.drop (f.width * f.height)).drop n, ?_, ?_, ?_⟩
  · rw [show (0 : Int) = (0 : Nat) from rfl, hread, Option.bind_some, store_natCast, hluma]
  · rw [List.length_take, List.length_drop]
    omega
  · rw [List.length_drop, List.length_drop]
    omega

/-- The allocation: the luma plane and the two bordered planes. -/
theorem createYuv420Frame_eq (junk : Nat → UInt8) :
    ∃ bu bv, createYuv420Frame junk (f.y ++ f.u ++ f.v) f.width f.height = some (f.y ++ bu ++ bv) ∧
      IsBordered bu f.u (f.width / 2) (f.height / 2) ∧ IsBordered bv f.v (f.width / 2) (f.height / 2) := by
  have hy := f.y_length
  have hu := f.u_length
  have hv := f.v_length
  have hw : 1 ≤ f.width / 2 := by have := f.width_pos; omega
  have hh : 1 ≤ f.height / 2 := by have := f.height_pos; omega
  obtain ⟨ju, jv, hluma, hju, hjv⟩ := @luma_copied f ((List.range (f.width * f.height +
    (f.width / 2 + 2) * (f.height / 2 + 2) * 2)).map junk) ((f.width / 2 + 2) * (f.height / 2 + 2))
    (by rw [List.length_map, List.length_range])
  unfold createYuv420Frame
  dsimp only
  rw [f.size_eq, f.quarter, hluma]
  generalize f.width / 2 = ww at *
  generalize f.height / 2 = hh' at *
  generalize f.width * f.height = wh at *
  obtain ⟨bu₁, bu, hcopyU, hmakeU, hlenU, hbu⟩ := @plane_eq ww hh' hw hh (f.y ++ f.u ++ f.v) f.u ju wh
    (by rw [← hy]; exact Mem.holds_ofList f.y f.u f.v) hu (by simp only [List.length_append]; omega) hju
  obtain ⟨bv₁, bv, hcopyV, hmakeV, hlenV, hbv⟩ := @plane_eq ww hh' hw hh (f.y ++ f.u ++ f.v) f.v jv (wh + ww * hh') (by
    have hheld := Mem.holds_ofList (f.y ++ f.u) f.v []
    rwa [List.append_nil, List.length_append, hy, hu] at hheld) hv (by simp only [List.length_append]; omega) hjv
  refine ⟨bu, bv, ?_, hbu, hbv⟩
  -- each step in its part
  have hstep₁ := copyPlane_frame hcopyU f.y jv
  have hstep₂ := copyPlane_frame hcopyV (f.y ++ bu₁) []
  have hstep₃ := makeYuv420Frame_frame hmakeU f.y bv₁
  have hstep₄ := makeYuv420Frame_frame hmakeV (f.y ++ bu) []
  rw [List.append_nil, List.append_nil, List.length_append, hlenU] at hstep₂
  rw [List.append_nil, List.append_nil, List.length_append, hbu.length] at hstep₄
  rw [hy] at hstep₁ hstep₂ hstep₃ hstep₄
  have hfirst : (wh : Int) + (ww + 2 : Nat) + 1 = wh + (ww + 2 + 1 : Nat) := by push_cast; ring
  have hsecond : (wh : Int) + (ww + 2 + 1 : Nat) + ((ww + 2) * (hh' + 2) : Nat) =
      (wh + (ww + 2) * (hh' + 2) : Nat) + (ww + 2 + 1 : Nat) := by push_cast; ring
  have hthird : (wh : Int) + ((ww + 2) * (hh' + 2) : Nat) + (ww + 2 : Nat) + 1 =
      (wh + (ww + 2) * (hh' + 2) : Nat) + (ww + 2 + 1 : Nat) := by push_cast; ring
  rw [hfirst, hsecond, hthird, show (wh : Int) + (ww * hh' : Nat) = (wh + ww * hh' : Nat) from rfl]
  simp only [Option.bind_eq_bind, Option.bind_some]
  rw [hstep₁, Option.bind_some, hstep₂, Option.bind_some, hstep₃, Option.bind_some, hstep₄]

/-- The luma of a pixel. -/
def luma (x y : Nat) : UInt8 := f.y[y * f.width + x]?.getD 0

variable {f} in
/-- The planes that the converter is given are those in the allocation. -/
theorem planes {bu bv : List UInt8} (hbu : IsBordered bu f.u (f.width / 2) (f.height / 2))
    (hbv : IsBordered bv f.v (f.width / 2) (f.height / 2)) :
    Planes (tape (f.y ++ bu ++ bv)) (frameData f.width f.height) f.width f.height f.luma
      (bordered f.u (f.width / 2) (f.height / 2)) (bordered f.v (f.width / 2) (f.height / 2)) := by
  have hy := f.y_length
  have hu : (frameData f.width f.height).u - (frameData f.width f.height).strideU - 1 = (f.y.length : Int) := by
    rw [hy]
    unfold frameData
    push_cast
    ring
  have hv : (frameData f.width f.height).v - (frameData f.width f.height).strideU - 1 = ((f.y ++ bu).length : Int) := by
    rw [List.length_append, hy, hbu.length]
    unfold frameData
    push_cast
    ring
  refine ⟨fun x hx y hy' => ?_, hbu.tape hu bv, ?_⟩
  · have hcell := Raster.cell_lt hy' hx
    rw [Nat.mul_comm f.height] at hcell
    have hp : (0 : Int) + f.width * y + x = (y * f.width + x : Nat) := by push_cast; ring
    show tape (f.y ++ bu ++ bv) (0 + f.width * y + x) = _
    rw [hp, tape_natCast, List.append_assoc, List.getElem?_append_left (by omega), luma,
      List.getElem?_eq_getElem (by omega), Option.getD_some]
  · have hlast := hbv.tape hv []
    rwa [List.append_nil] at hlast

end Frame

/-- For every frame with an even width and height: the allocation gets the luma plane and the chroma planes with their
outermost samples repeated, and the converter, which reads nothing else, gives each pixel its luma and the chroma mixed
from the nearest samples. -/
theorem videoWrite_eq (f : Frame) (junk junk' : Nat → UInt8) :
    ∃ bu bv out, createYuv420Frame junk (f.y ++ f.u ++ f.v) f.width f.height = some (f.y ++ bu ++ bv) ∧
      IsBordered bu f.u (f.width / 2) (f.height / 2) ∧ IsBordered bv f.v (f.width / 2) (f.height / 2) ∧
      videoWrite f junk junk' = some out ∧ out.length = f.width * f.height * 3 ∧ ∀ y < f.height, ∀ x < f.width,
        (Mem.ofList out).Holds (y * (f.width * 3) + 3 * x) (pixel f.luma (bordered f.u (f.width / 2) (f.height / 2))
          (bordered f.v (f.width / 2) (f.height / 2)) y x) := by
  obtain ⟨bu, bv, hcreate, hbu, hbv⟩ := f.createYuv420Frame_eq junk
  have hsize : f.width * f.height * 3 % 2 ^ 32 = f.width * f.height * 3 := by
    have := lt_of_heapAlloc f.allocated_picture
    exact Nat.mod_eq_of_lt (by omega)
  have hdst : ((List.range (f.width * f.height * 3)).map junk').length = f.width * f.height * 3 := by
    rw [List.length_map, List.length_range]
  have hrows : (f.height - 1) * (f.width * 3) + f.width * 3 = f.width * f.height * 3 := by
    rw [← Nat.succ_mul, Nat.succ_eq_add_one, Nat.sub_add_cancel (by have := f.height_pos; omega)]
    ring
  have hplanes := Frame.planes hbu hbv
  obtain ⟨out, hblit⟩ := @picture_isSome f.width f.height (f.width * 3) f.luma
    (bordered f.u (f.width / 2) (f.height / 2)) (bordered f.v (f.width / 2) (f.height / 2))
    ((List.range (f.width * f.height * 3)).map junk') f.height_even (by rw [hdst]; omega)
  refine ⟨bu, bv, out, hcreate, hbu, hbv, ?_, by rw [Raster.length_of_blit hblit, hdst], fun y hy x hx => ?_⟩
  · rw [videoWrite, hcreate, hsize]
    exact yuv420BgrF_eq f.width_even f.height_even hplanes hblit
  · have hw := f.width_even
    have hh := f.height_even
    exact holds_pixel (by omega) hblit (by omega) (by omega)

/-- A frame of four columns and two rows. -/
def fourByTwo : Frame where
  width := 4
  height := 2
  y := [10, 11, 12, 13, 14, 15, 16, 17]
  u := [1, 2]
  v := [3, 4]
  width_even := rfl
  height_even := rfl
  width_pos := by decide
  height_pos := by decide
  y_length := rfl
  u_length := rfl
  v_length := rfl
  allocated := rfl
  allocated_picture := rfl

example : createYuv420Frame (fun _ => 0) (fourByTwo.y ++ fourByTwo.u ++ fourByTwo.v) 4 2 = some (fourByTwo.y ++
    [1, 1, 2, 2] ++ [1, 1, 2, 2] ++ [1, 1, 2, 2] ++ [3, 3, 4, 4] ++ [3, 3, 4, 4] ++ [3, 3, 4, 4]) := by
  decide

end SiglusExtract.Color
