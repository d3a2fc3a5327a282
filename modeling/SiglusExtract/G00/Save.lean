/-
`extract_g00_type0_pic` and `extract_g00_type1_pic` (UnpackG00.h): the picture of a file of type 0 or 1, decoded into a
buffer whose size comes from the compression header, turned over by `fix_bmp` and saved, for a size that comes
from the file header. What is touched of the buffer is a list of spans.
-/
import SiglusExtract.G00.Pixels
import SiglusExtract.Lzss.Decompress
import SiglusExtract.Picture

namespace SiglusExtract.UnpackG00

open Bytes CInt Lzss

/-- The types of files with one picture: `type_24bit` and `type_8bit`. -/
inductive PicType
  | type24bit
  | type8bit
  deriving DecidableEq, Repr

/-- `Code->G00Flag`. -/
inductive G00Flag
  | bmp
  | png
  | jpg
  deriving DecidableEq, Repr

/-! ## The buffer -/

/-- The size of the buffer that is allocated for the decompressed data, from the headers at `pheader`. -/
def bufferSize (t : PicType) (pheader : Mem UInt8) : Option Nat :=
  match t with
  | .type24bit => dword pheader (5 + 4)
  | .type8bit => do
    let comprlen := ((← dword pheader 5) + 2 ^ 32 - 8) % 2 ^ 32
    let uncomprlen ← dword pheader (5 + 4)
    return if uncomprlen ≠ 0 then (uncomprlen + 64) % 2 ^ 32 else comprlen

/-- The decoding: the buffer afterwards. -/
def decode (t : PicType) (pheader : Mem UInt8) (old : Nat → UInt8) : Except Failure (List UInt8) := do
  let size ← orFault (bufferSize t pheader)
  heapAlloc size
  match t with
  | .type24bit => orFault (extractG00Type0Pic pheader old)
  | .type8bit => orFault ((realLiveG00Type1Uncompress fun i => pheader (5 + i)).map (·.1))

/-! ## What is touched -/

/-- The bytes from `offset` on that are read or written; offsets are 32-bit. -/
structure Span where
  offset : Nat
  length : Nat
  deriving DecidableEq, Repr

def Span.Inside (s : Span) (size : Nat) : Prop := s.length = 0 ∨ s.offset + s.length ≤ size

instance (s : Span) (size : Nat) : Decidable (s.Inside size) := inferInstanceAs (Decidable (_ ∨ _))

/-- What `fix_bmp` allocates. -/
def fixBmpSize (width height : Nat) : Nat := width * 4 % 2 ^ 32 * height % 2 ^ 32

/-- What `fix_bmp` touches of `data`: it reads the rows and writes all of them back. -/
def fixBmpSpans (width height : Nat) : List Span :=
  ((List.range height).map fun mHeight => ⟨width * 4 % 2 ^ 32 * mHeight % 2 ^ 32, width * 4 % 2 ^ 32⟩) ++
    [⟨0, fixBmpSize width height⟩]

/-- `savebmp`, and `savebmp_buffer` for `savejpg`: `biSizeImage` bytes are read. -/
def savebmpSpans (width height : Nat) : List Span :=
  let nAlignWidth := (width * 32 + 31) / 32
  [⟨0, 4 * nAlignWidth * height % 2 ^ 32⟩]

/-- `savepng`: libpng reads a row at each of the pointers, where the output stream can be allocated. -/
def savepngSpans (width height : Nat) : List Span :=
  match heapAlloc (4 * width * height * 4 % 2 ^ 32) with
  | .error _ => []
  | .ok _ => ((encodeBmpToPng width height 32).getD []).map fun p => ⟨u32 p, width * 4⟩

def saveSpans : G00Flag → Nat → Nat → List Span
  | .bmp => savebmpSpans
  | .png => savepngSpans
  | .jpg => savebmpSpans

/-- What `fix_bmp` and the saver touch of the buffer; nothing where `fix_bmp` throws. -/
def touched (flag : G00Flag) (width height : Nat) : List Span :=
  match heapAlloc (fixBmpSize width height) with
  | .error _ => []
  | .ok _ => fixBmpSpans width height ++ saveSpans flag width height

/-! ## The size of the buffer -/

/-- `End` is reached where the buffer is full. -/
theorem step_exit {src : Mem UInt8} {dst : Tape UInt8} {n : Nat} {l l' : LzssAsm.Label} {r r' : LzssAsm.Regs}
    (h : Lzss24.step src dst n l r = some (l', r')) (hl : l ≠ .exit) (hl' : l' = .exit) : r'.edi.length = n := by
  subst hl'
  cases l with
  | loop1 =>
    rw [Lzss24.step] at h
    split at h
    · next hn => cases h; exact hn
    · simp [Option.bind_eq_some_iff] at h
  | loop2 =>
    rw [Lzss24.step] at h
    split at h
    · next hn => cases h; exact hn
    · split at h
      · cases h
      · simp [Option.bind_eq_some_iff] at h
  | decompTag => simp [Lzss24.step, Option.bind_eq_some_iff] at h
  | decompTag2 =>
    simp only [Lzss24.step, Option.some.injEq, Prod.mk.injEq] at h
    obtain ⟨h, -⟩ := h
    split at h <;> cases h
  | exit => exact absurd rfl hl

theorem run_length {src : Mem UInt8} {dst : Tape UInt8} {n : Nat} : ∀ (fuel : Nat) (l : LzssAsm.Label)
    (r : LzssAsm.Regs) {out : List UInt8}, (l = .exit → r.edi.length = n) →
      Lzss24.run src dst n fuel l r = some out → out.length = n
  | 0, l, r, out, hl, h => by
    cases l with
    | exit =>
      cases h
      exact hl rfl
    | _ => cases h
  | fuel + 1, l, r, out, hl, h => by
    by_cases hexit : l = .exit
    · subst hexit
      cases h
      exact hl rfl
    · have hrun : Lzss24.run src dst n (fuel + 1) l r =
          (Lzss24.step src dst n l r).bind fun x => Lzss24.run src dst n fuel x.1 x.2 := by
        cases l with
        | exit => exact absurd rfl hexit
        | _ => rfl
      rw [hrun, Option.bind_eq_some_iff] at h
      obtain ⟨⟨l', r'⟩, hstep, hrest⟩ := h
      exact run_length fuel l' r' (step_exit hstep hexit) hrest

/-- A copy within a buffer that is all there is stays in it. -/
theorem copy_length_le {n : Nat} {old : Nat → UInt8} {dist : Nat} : ∀ (len : Nat) {out out' : List UInt8},
    out.length ≤ n → (Tape.cells n old).copy dist len out = some out' → out'.length ≤ n
  | 0, _, _, hle, h => by cases h; exact hle
  | len + 1, out, out', hle, h => by
    simp only [Tape.copy, Option.bind_eq_bind, Option.bind_eq_some_iff] at h
    obtain ⟨b, -, out₁, hpoke, h⟩ := h
    obtain ⟨hlt, rfl⟩ := Tape.cells_poke.1 hpoke
    exact copy_length_le len (by rw [List.length_append]; exact hlt) h

theorem type1Loop_length_le {compr : Mem UInt8} {size uncomprlen comprlen : Nat} {old : Nat → UInt8} :
    ∀ (fuel curbyte bitCount flag : Nat) {out out' : List UInt8}, out.length ≤ size →
      type1Loop compr (.cells size old) uncomprlen comprlen fuel curbyte bitCount flag out = some out' →
        out'.length ≤ size
  | 0, _, _, _, _, _, _, h => by cases h
  | fuel + 1, curbyte, bitCount, flag, out, out', hle, h => by
    rw [type1Loop] at h
    split at h
    · simp only [Option.bind_eq_bind, Option.bind_eq_some_iff] at h
      obtain ⟨⟨curbyte, bitCount, flag⟩, -, h⟩ := h
      split at h
      · simp only [Option.bind_eq_some_iff] at h
        obtain ⟨b, -, out₁, hpoke, h⟩ := h
        obtain ⟨hlt, rfl⟩ := Tape.cells_poke.1 hpoke
        exact type1Loop_length_le fuel _ _ _ (by rw [List.length_append]; exact hlt) h
      · simp only [Option.bind_eq_some_iff] at h
        obtain ⟨lo, -, hi, -, out₁, hcopy, h⟩ := h
        exact type1Loop_length_le fuel _ _ _ (copy_length_le _ hle hcopy) h
    · cases h
      exact hle

/-- What is decoded is the whole buffer. -/
theorem decode_length {t : PicType} {pheader : Mem UInt8} {old : Nat → UInt8} {size : Nat} {debuf : List UInt8}
    (hsize : bufferSize t pheader = some size) (h : decode t pheader old = .ok debuf) :
    debuf.length = size ∧ size < 2 ^ 31 := by
  unfold decode at h
  rw [hsize, orFault_some, ok_bind] at h
  rcases Nat.lt_or_ge size (2 ^ 31) with hlt | hge
  · refine ⟨?_, hlt⟩
    rw [heapAlloc_ok hlt, ok_bind] at h
    cases t with
    | type24bit =>
      have hsize : dword pheader (5 + 4) = some size := hsize
      have h := orFault_eq_ok.1 h
      rw [extractG00Type0Pic, hsize, Option.bind_eq_bind, Option.bind_some] at h
      exact run_length _ _ _ (fun hexit => absurd hexit (by decide)) h
    | type8bit =>
      obtain ⟨⟨debuf', len⟩, hrun, rfl⟩ := Option.map_eq_some_iff.1 (orFault_eq_ok.1 h)
      have hcompr : dword (fun i => pheader (5 + i)) 0 = dword pheader 5 := rfl
      have huncompr : dword (fun i => pheader (5 + i)) 4 = dword pheader (5 + 4) := rfl
      simp only [bufferSize, Option.bind_eq_bind, Option.bind_eq_some_iff, Option.pure_def, Option.some.injEq] at hsize
      obtain ⟨comprlen, hc, uncomprlen, hu, rfl⟩ := hsize
      rw [realLiveG00Type1Uncompress, hcompr, huncompr, hc, hu, Option.bind_eq_bind, Option.bind_some, Option.bind_some]
        at hrun
      by_cases h0 : uncomprlen ≠ 0
      · rw [if_pos h0] at hrun ⊢
        simp only [Option.bind_eq_bind, Option.bind_eq_some_iff, Option.pure_def, Option.some.injEq,
          Prod.mk.injEq] at hrun
        obtain ⟨out, hloop, rfl, -⟩ := hrun
        have hle := type1Loop_length_le _ _ _ _ (Nat.zero_le _) hloop
        rw [List.length_append, List.length_replicate, Nat.add_sub_cancel' hle]
      · rw [if_neg h0] at hrun ⊢
        simp only [Option.bind_eq_bind, Option.bind_eq_some_iff, Option.pure_def, Option.some.injEq,
          Prod.mk.injEq] at hrun
        obtain ⟨actualData, hread, rfl, -⟩ := hrun
        rw [Mem.length_of_mapM hread, List.length_range]
  · rw [heapAlloc, if_neg (by omega)] at h
    cases h

/-! ## Where the spans lie -/

section Spans

variable {width height size : Nat} (hw : width < 2 ^ 16)

include hw

theorem fixBmpSize_eq (height : Nat) : fixBmpSize width height = width * 4 * height % 2 ^ 32 := by
  rw [fixBmpSize, Nat.mod_eq_of_lt (show width * 4 < 2 ^ 32 by omega)]

/-- Where `fix_bmp` gets its buffer and the rows it reads lie in `data`, all of the picture does: if the picture had
4 GiB or more, a row would start between 2 and 4 GiB. -/
theorem size_le_of_rows (hh : height < 2 ^ 16) (hsize : size < 2 ^ 31) (halloc : fixBmpSize width height < 2 ^ 31)
    (hrows : ∀ m < height, Span.Inside ⟨width * 4 % 2 ^ 32 * m % 2 ^ 32, width * 4 % 2 ^ 32⟩ size) :
    width * 4 * height ≤ size := by
  rw [fixBmpSize_eq hw] at halloc
  rw [Nat.mod_eq_of_lt (show width * 4 < 2 ^ 32 by omega)] at hrows
  rcases Nat.eq_zero_or_pos (width * 4 * height) with hzero | hpos
  · omega
  · have hw0 : 0 < width := Nat.pos_of_ne_zero (by rintro rfl; simp at hpos)
    have hh0 : 0 < height := Nat.pos_of_ne_zero (by rintro rfl; simp at hpos)
    by_cases hbig : width * 4 * height < 2 ^ 32
    · have hlast := hrows (height - 1) (by omega)
      have hsum : width * 4 * (height - 1) + width * 4 = width * 4 * height := by
        rw [← Nat.mul_succ, Nat.succ_eq_add_one, Nat.sub_add_cancel hh0]
      rw [Nat.mod_eq_of_lt (show width * 4 * (height - 1) < 2 ^ 32 by omega)] at hlast
      rcases hlast with hlast | hlast
      · dsimp only at hlast
        omega
      · dsimp only at hlast
        omega
    · -- the first row that starts at 2 GiB or behind
      exfalso
      have hdiv := Nat.div_add_mod (2 ^ 31) (width * 4)
      have hmod := Nat.mod_lt (2 ^ 31) (show width * 4 > 0 by omega)
      have hsucc : width * 4 * (2 ^ 31 / (width * 4) + 1) = width * 4 * (2 ^ 31 / (width * 4)) + width * 4 :=
        Nat.mul_succ ..
      have hlt : 2 ^ 31 / (width * 4) + 1 < height := by
        by_contra hge
        have := Nat.mul_le_mul_left (width * 4) (show height ≤ 2 ^ 31 / (width * 4) + 1 by omega)
        omega
      have hrow := hrows _ hlt
      rw [Nat.mod_eq_of_lt (show width * 4 * (2 ^ 31 / (width * 4) + 1) < 2 ^ 32 by omega)] at hrow
      rcases hrow with hrow | hrow
      · dsimp only at hrow
        omega
      · dsimp only at hrow
        omega

theorem fixBmpSpans_inside (hle : width * 4 * height ≤ size) (hsize : size < 2 ^ 31) :
    ∀ s ∈ fixBmpSpans width height, s.Inside size := by
  have hwidth : width * 4 % 2 ^ 32 = width * 4 := Nat.mod_eq_of_lt (by omega)
  intro s hs
  rw [fixBmpSpans, hwidth] at hs
  rcases List.mem_append.1 hs with hs | hs
  · obtain ⟨m, hm, rfl⟩ := List.mem_map.1 hs
    have hrow := Nat.mul_le_mul_left (width * 4) (List.mem_range.1 hm)
    rw [Nat.succ_eq_add_one, Nat.mul_succ] at hrow
    right
    show width * 4 * m % 2 ^ 32 + width * 4 ≤ size
    rw [Nat.mod_eq_of_lt (by omega)]
    omega
  · rw [List.mem_singleton.1 hs]
    right
    show 0 + fixBmpSize width height ≤ size
    rw [fixBmpSize_eq hw]
    have := Nat.mod_le (width * 4 * height) (2 ^ 32)
    omega

omit hw in
theorem savebmpSpans_inside (hle : width * 4 * height ≤ size) : ∀ s ∈ savebmpSpans width height, s.Inside size := by
  intro s hs
  rw [savebmpSpans] at hs
  rw [List.mem_singleton.1 hs]
  right
  show 0 + 4 * ((width * 32 + 31) / 32) * height % 2 ^ 32 ≤ size
  have := Nat.mod_le (4 * width * height) (2 ^ 32)
  rw [show (width * 32 + 31) / 32 = width by omega]
  rw [Nat.mul_comm 4 width] at this ⊢
  omega

omit hw in
theorem savepngSpans_inside (hle : width * 4 * height ≤ size) (hsize : size < 2 ^ 31) :
    ∀ s ∈ savepngSpans width height, s.Inside size := by
  intro s hs
  unfold savepngSpans at hs
  split at hs
  · cases hs
  · obtain ⟨p, hp, rfl⟩ := List.mem_map.1 hs
    rcases Nat.eq_zero_or_pos width with rfl | hw0
    · exact .inl rfl
    · rcases Nat.eq_zero_or_pos height with rfl | hh0
      · cases hp
      · -- the picture that lies at the start of the buffer
        have hpicture := Picture.encodeBmpToPng_eq
          (⟨width, height, List.replicate size 0, hw0, hh0, by
            rw [List.length_replicate, Nat.mul_comm]; exact hle, by
            rw [List.length_replicate]; exact heapAlloc_ok hsize⟩ : Picture 4) (.inr rfl) (by dsimp only; omega)
        have hrows : encodeBmpToPng width height 32 = _ := hpicture
        rw [hrows, Option.getD_some] at hp
        obtain ⟨i, hi, rfl⟩ := List.mem_map.1 hp
        have hi := List.mem_range.1 hi
        have hrow := Raster.row_le (width * 4) (show height - 1 - i < height by omega)
        rw [Nat.mul_comm height] at hrow
        right
        show u32 ((height - 1 - i) * (width * 4) : Nat) + width * 4 ≤ size
        rw [u32_eq (by omega) (by omega), Int.toNat_natCast]
        omega

omit hw in
theorem saveSpans_inside (hle : width * 4 * height ≤ size) (hsize : size < 2 ^ 31) (flag : G00Flag) :
    ∀ s ∈ saveSpans flag width height, s.Inside size := by
  cases flag with
  | bmp => exact savebmpSpans_inside hle
  | png => exact savepngSpans_inside hle hsize
  | jpg => exact savebmpSpans_inside hle

/-- `fix_bmp` runs through if and only if it gets its buffer and its spans lie in the picture's one. -/
theorem fixBmp_ok_iff (hh : height < 2 ^ 16) (hw0 : 0 < width) (hh0 : 0 < height) {data : List UInt8}
    (hdata : data.length < 2 ^ 31) (junk : Nat → UInt8) : (∃ fixed, fixBmp junk width height data = .ok fixed) ↔
      fixBmpSize width height < 2 ^ 31 ∧ ∀ s ∈ fixBmpSpans width height, s.Inside data.length := by
  constructor
  · rintro ⟨fixed, h⟩
    rw [fixBmp, Picture.fixBmp] at h
    by_cases hlt : fixBmpSize width height < 2 ^ 31
    · refine ⟨hlt, ?_⟩
      rw [← fixBmpSize, heapAlloc_ok hlt, ok_bind] at h
      cases hcopy : Picture.copyRows (width * 4 % 2 ^ 32) height data height
        ((List.range (fixBmpSize width height)).map junk) with
      | none => rw [hcopy] at h; cases h
      | some tmpData =>
        have hle := size_le_of_rows hw hh hdata hlt fun m hm =>
          .inr (Picture.copyRows_inside height hcopy m hm (by omega))
        exact fixBmpSpans_inside hw hle hdata
    · rw [← fixBmpSize, heapAlloc, if_neg hlt] at h
      cases h
  · rintro ⟨hlt, hspans⟩
    have hle := size_le_of_rows hw hh hdata hlt fun m hm =>
      hspans _ (List.mem_append_left _ (List.mem_map_of_mem (List.mem_range.2 hm)))
    exact ⟨_, Picture.fixBmp_eq (⟨width, height, data, hw0, hh0, by rw [Nat.mul_comm]; exact hle,
      heapAlloc_ok hdata⟩ : Picture 4) junk⟩

omit hw in
theorem fixBmp_ok_iff_onePixel : ∃ fixed, fixBmp (fun _ => 0) 1 1 [0x10, 0x20, 0x30, 0xFF] = .ok fixed :=
  (fixBmp_ok_iff (by decide) (by decide) (by decide) (by decide) (by decide) fun _ => 0).2 (by decide)

/-- All that is touched lies in the buffer if and only if the picture does, or `fix_bmp` throws. -/
theorem touched_inside_iff (hh : height < 2 ^ 16) (hsize : size < 2 ^ 31) (flag : G00Flag) :
    (∀ s ∈ touched flag width height, s.Inside size) ↔
      width * 4 * height ≤ size ∨ 2 ^ 31 ≤ width * 4 * height % 2 ^ 32 := by
  have halloc := fixBmpSize_eq hw height
  rw [touched]
  by_cases hlt : fixBmpSize width height < 2 ^ 31
  · rw [heapAlloc_ok hlt]
    dsimp only
    constructor
    · intro h
      exact .inl (size_le_of_rows hw hh hsize hlt fun m hm =>
        h _ (List.mem_append_left _ (List.mem_append_left _ (List.mem_map_of_mem (List.mem_range.2 hm)))))
    · rintro (hle | hge) s hs
      · rcases List.mem_append.1 hs with hs | hs
        · exact fixBmpSpans_inside hw hle hsize s hs
        · exact saveSpans_inside hle hsize flag s hs
      · omega
  · rw [heapAlloc, if_neg hlt]
    exact iff_of_true nofun (.inr (by omega))

end Spans

/-- For files of type 0 or 1 whose data is decoded: the bytes that `fix_bmp` and the saver touch lie in the buffer of
the decompressed data if and only if the picture fits in it, or is of a size that `fix_bmp` cannot allocate. -/
theorem extractPic_inside_iff {t : PicType} {pheader : Mem UInt8} {old : Nat → UInt8} {width height size : Nat}
    (hwidth : word pheader 1 = some width) (hheight : word pheader 3 = some height)
    (hsize : bufferSize t pheader = some size) {debuf : List UInt8} (h : decode t pheader old = .ok debuf)
    (flag : G00Flag) : (∀ s ∈ touched flag width height, s.Inside debuf.length) ↔
      width * 4 * height ≤ size ∨ 2 ^ 31 ≤ width * 4 * height % 2 ^ 32 := by
  obtain ⟨hlen, hlt⟩ := decode_length hsize h
  rw [hlen]
  exact touched_inside_iff (word_lt hwidth) (word_lt hheight) hlt flag

/-- A file of type 0 with one pixel in its data, for a width of 1. -/
def onePixelFile (height : UInt8) : List UInt8 :=
  [0, 1, 0, height, 0] ++ le32 12 ++ le32 4 ++ [0x01, 0x10, 0x20, 0x30]

theorem decode_onePixel (height : UInt8) :
    decode .type24bit (.ofList (onePixelFile height)) (fun _ => 0) = .ok [0x10, 0x20, 0x30, 0xFF] := rfl

theorem extractPic_inside_iff_onePixel : touched .png 1 1 ≠ [] ∧ ∀ s ∈ touched .png 1 1, s.Inside 4 :=
  ⟨by decide, (@extractPic_inside_iff .type24bit (.ofList (onePixelFile 1)) (fun _ => 0) 1 1 4 rfl rfl rfl _
    (decode_onePixel 1) .png).2 (.inl (Nat.le_refl 4))⟩

/-- For a height of 2 `fix_bmp` reads a second row, behind the buffer. -/
theorem not_extractPic_inside : ¬ ∀ (t : PicType) (pheader : Mem UInt8) (old : Nat → UInt8) (width height : Nat)
    (debuf : List UInt8) (flag : G00Flag), word pheader 1 = some width → word pheader 3 = some height →
      decode t pheader old = .ok debuf → ∀ s ∈ touched flag width height, s.Inside debuf.length := by
  intro h
  have hrow := h .type24bit (.ofList (onePixelFile 2)) (fun _ => 0) 1 2 _ .bmp rfl rfl (decode_onePixel 2) ⟨4, 4⟩
    (by decide)
  exact absurd hrow (by decide)

end SiglusExtract.UnpackG00
