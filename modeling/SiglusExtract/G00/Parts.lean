/-
`UnpackG00::extract_g02_part`: a part of a type 2 picture is put together from blocks, each a record followed by
its pixels, on a canvas that starts out zero. A later block covers an earlier one.
-/
import SiglusExtract.Lib.Raster
import SiglusExtract.Tool
import Mathlib.Data.List.Find

namespace SiglusExtract.G00

open Bytes Patch

/-! ## Records -/

/-- `g02_part_info_t`, the fields that decide what is extracted. -/
structure G02PartInfo where
  type : Nat
  blockCount : Nat
  hsOrigX : Nat
  hsOrigY : Nat
  width : Nat
  height : Nat
  deriving DecidableEq, Repr

/-- `g02_block_info_t`, the fields that are read. -/
structure G02BlockInfo where
  origX : Nat
  origY : Nat
  width : Nat
  height : Nat
  deriving DecidableEq, Repr

/-- `sizeof(g02_part_info_t)`. -/
def sizeofPartInfo : Nat := 2 + 2 + 8 * 4 + 20 * 4

/-- `sizeof(g02_block_info_t)`. -/
def sizeofBlockInfo : Nat := 5 * 2 + 41 * 2

def readPart (m : Mem UInt8) (p : Nat) : Option G02PartInfo := do
  let type ← word m p
  let blockCount ← word m (p + 2)
  let hsOrigX ← dword m (p + 4)
  let hsOrigY ← dword m (p + 8)
  let width ← dword m (p + 12)
  let height ← dword m (p + 16)
  return { type, blockCount, hsOrigX, hsOrigY, width, height }

def readBlock (m : Mem UInt8) (p : Nat) : Option G02BlockInfo := do
  let origX ← word m p
  let origY ← word m (p + 2)
  let width ← word m (p + 6)
  let height ← word m (p + 8)
  return { origX, origY, width, height }

/-- `g00_extract_info_t`, as it is filled in. -/
structure G00ExtractInfo where
  type : Nat
  width : Nat
  height : Nat
  deriving DecidableEq, Repr

/-! ## Extraction -/

/-- The rows of a block: `hot` bytes each at `src`, written at `dst` of the canvas. -/
def copyRows (m : Mem UInt8) (hot widthLength : Nat) : Nat → Nat → Nat → List UInt8 → Option (List UInt8)
  | 0, _, _, canvas => some canvas
  | n + 1, src, dst, canvas => do
    let row ← (List.range hot).mapM fun i => m (src + i)
    let canvas ← patch canvas dst row
    copyRows m hot widthLength n (src + hot) ((dst + widthLength) % 2 ^ 32) canvas

/-- `part_extract_buf`. -/
def partExtractBuf (m : Mem UInt8) (info : G00ExtractInfo) (widthLength src dst : Nat) (canvas : List UInt8) :
    Option (List UInt8) :=
  match info.type with
  | 2 => copyRows m (info.width * 4 % 2 ^ 32) widthLength info.height src dst canvas
  | _ => some canvas

/-- Subtraction of unsigned 32-bit integers. -/
def sub32 (a b : Nat) : Nat := (a + (2 ^ 32 - b)) % 2 ^ 32

/-- The loop over `n` blocks from `buf` on: the canvas, and where the next record would stand. -/
def extractBlocks (m : Mem UInt8) (part : G02PartInfo) : Nat → Nat → List UInt8 → Option (List UInt8 × Nat)
  | 0, buf, dib => some (dib, buf)
  | n + 1, buf, dib => do
    let block ← readBlock m buf
    let info : G00ExtractInfo := { type := 2, width := block.width, height := block.height }
    let buf := buf + sizeofBlockInfo
    let widthLength := part.width * 4 % 2 ^ 32
    let dst := (sub32 block.origY part.hsOrigY * widthLength + sub32 block.origX part.hsOrigX * 4) % 2 ^ 32
    let dib ← partExtractBuf m info widthLength buf dst dib
    extractBlocks m part n (buf + block.width * block.height * 4 % 2 ^ 32) dib

/-- `extract_g02_part`: the picture and the bytes that are taken, or no picture at all. `memset` writes through the
pointer of `malloc`, which is null for 2 GiB and more. -/
def extractG02Part (m : Mem UInt8) : Except Failure (Option (List UInt8 × Nat)) := do
  let part ← orFault (readPart m 0)
  if part.type = 1 ∨ part.type = 2 then
    let dibLength := part.width * part.height * 4 % 2 ^ 32
    if dibLength < 2 ^ 31 then
      let result ← orFault (extractBlocks m part part.blockCount sizeofPartInfo (List.replicate dibLength 0))
      return some result
    else .error .fault
  else return none

/-! ## Blocks -/

/-- A block of a part: its record, and four bytes for each pixel, row after row. -/
structure Block where
  origX : Nat
  origY : Nat
  info : Nat
  width : Nat
  height : Nat
  reserved : List UInt8
  pixels : List UInt8
  words : origX < 2 ^ 16 ∧ origY < 2 ^ 16 ∧ width < 2 ^ 16 ∧ height < 2 ^ 16
  reserved_length : reserved.length = 41 * 2
  pixels_length : pixels.length = height * (4 * width)

namespace Block

def bytes (b : Block) : List UInt8 :=
  le16 b.origX ++ (le16 b.origY ++ (le16 b.info ++ (le16 b.width ++ (le16 b.height ++ (b.reserved ++ b.pixels)))))

/-- The fields that are read. -/
def record (b : Block) : G02BlockInfo := ⟨b.origX, b.origY, b.width, b.height⟩

/-- The block lies inside the rectangle of the part. -/
def Inside (part : G02PartInfo) (b : Block) : Prop :=
  part.hsOrigX ≤ b.origX ∧ b.origX + b.width ≤ part.hsOrigX + part.width ∧
    part.hsOrigY ≤ b.origY ∧ b.origY + b.height ≤ part.hsOrigY + part.height

instance (part : G02PartInfo) (b : Block) : Decidable (b.Inside part) := inferInstanceAs (Decidable (_ ∧ _ ∧ _ ∧ _))

/-- The block covers this pixel of the part. -/
def Covers (part : G02PartInfo) (x y : Nat) (b : Block) : Prop :=
  b.origX ≤ part.hsOrigX + x ∧ part.hsOrigX + x < b.origX + b.width ∧
    b.origY ≤ part.hsOrigY + y ∧ part.hsOrigY + y < b.origY + b.height

instance (part : G02PartInfo) (x y : Nat) (b : Block) : Decidable (b.Covers part x y) :=
  inferInstanceAs (Decidable (_ ∧ _ ∧ _ ∧ _))

theorem bytes_length (b : Block) : b.bytes.length = sizeofBlockInfo + b.height * (4 * b.width) := by
  simp only [bytes, List.length_append, le16_length, b.reserved_length, b.pixels_length, sizeofBlockInfo]
  omega

/-- The record of a block, and its pixels behind it. -/
theorem holds_bytes {m : Mem UInt8} {p : Nat} {b : Block} (h : m.Holds p b.bytes) :
    readBlock m p = some b.record ∧ m.Holds (p + sizeofBlockInfo) b.pixels := by
  obtain ⟨hx, hy, hw, hh⟩ := b.words
  unfold bytes at h
  simp only [Mem.holds_append, le16_length, b.reserved_length] at h
  obtain ⟨horigX, horigY, -, hwidth, hheight, -, hpixels⟩ := h
  constructor
  · simp only [readBlock, word_of_holds horigX hx, word_of_holds horigY hy, word_of_holds hwidth hw,
      word_of_holds hheight hh, Option.bind_eq_bind, Option.bind_some]
    rfl
  · exact hpixels

/-- The bytes of the block in the canvas. -/
def rect (part : G02PartInfo) (b : Block) : Raster.Rect UInt8 where
  x := 4 * (b.origX - part.hsOrigX)
  y := b.origY - part.hsOrigY
  width := 4 * b.width
  rows := Raster.cut (4 * b.width) b.height b.pixels
  width_rows _ hrow := Raster.length_of_mem_cut b.pixels_length hrow

end Block

/-! ## Rows are written as a rectangle -/

/-- The rows of a block, copied one by one where no address wraps. -/
theorem copyRows_eq {m : Mem UInt8} {hot widthLength : Nat} : ∀ {rows : List (List UInt8)} {src dst : Nat}
    {canvas : List UInt8}, (∀ row ∈ rows, row.length = hot) → m.Holds src rows.flatten →
      (∀ n < rows.length, dst + n * widthLength < 2 ^ 32) →
        copyRows m hot widthLength rows.length src dst canvas = Raster.blit widthLength canvas dst rows
  | [], _, _, _, _, _, _ => rfl
  | row :: rows, src, dst, canvas, hrows, hm, hdst => by
    have hrow : row.length = hot := hrows row List.mem_cons_self
    rw [List.flatten_cons, Mem.holds_append, hrow] at hm
    have hread := hm.1.mapM_range
    rw [hrow] at hread
    rw [List.length_cons, copyRows, hread, Raster.blit]
    simp only [Option.bind_eq_bind, Option.bind_some]
    cases rows with
    | nil => rfl
    | cons next rows =>
      -- there is a row below
      have hnext := hdst 1 (by simp)
      rw [Nat.one_mul] at hnext
      rw [Nat.mod_eq_of_lt hnext]
      congr 1
      funext canvas
      refine copyRows_eq (fun row h => hrows row (List.mem_cons_of_mem _ h)) hm.2 fun n hn => ?_
      have := hdst (n + 1) (by rw [List.length_cons]; omega)
      rw [Nat.succ_mul] at this
      omega

theorem copyRows_length {m : Mem UInt8} {hot widthLength : Nat} : ∀ {n src dst : Nat} {canvas canvas' : List UInt8},
    copyRows m hot widthLength n src dst canvas = some canvas' → canvas'.length = canvas.length
  | 0, _, _, _, _, h => by
    cases h
    rfl
  | n + 1, src, dst, canvas, canvas', h => by
    simp only [copyRows, Option.bind_eq_bind, Option.bind_eq_some_iff] at h
    obtain ⟨row, -, canvas₁, hpatch, h⟩ := h
    rw [copyRows_length h, length_of_patch hpatch]

/-- The canvas keeps its size. -/
theorem extractBlocks_length {m : Mem UInt8} {part : G02PartInfo} : ∀ {n buf buf' : Nat} {dib dib' : List UInt8},
    extractBlocks m part n buf dib = some (dib', buf') → dib'.length = dib.length
  | 0, _, _, _, _, h => by
    cases h
    rfl
  | n + 1, buf, buf', dib, dib', h => by
    simp only [extractBlocks, partExtractBuf, Option.bind_eq_bind, Option.bind_eq_some_iff] at h
    obtain ⟨block, -, dib₁, hcopy, h⟩ := h
    rw [extractBlocks_length h, copyRows_length hcopy]

theorem sub32_eq {a b : Nat} (h : b ≤ a) (ha : a < 2 ^ 32) : sub32 a b = a - b := by
  unfold sub32
  omega

section Part

variable {m : Mem UInt8} {part : G02PartInfo} (hfit : part.height * (4 * part.width) < 2 ^ 31)
include hfit

/-- A block inside the part is painted where it stands. -/
theorem partExtractBuf_eq {b : Block} (hin : b.Inside part) {src : Nat} (hm : m.Holds src b.pixels)
    (canvas : List UInt8) :
    partExtractBuf m ⟨2, b.width, b.height⟩ (part.width * 4 % 2 ^ 32) src
        ((sub32 b.origY part.hsOrigY * (part.width * 4 % 2 ^ 32) + sub32 b.origX part.hsOrigX * 4) % 2 ^ 32) canvas =
      (b.rect part).paint (4 * part.width) canvas := by
  obtain ⟨hx, hxw, hy, hyh⟩ := hin
  obtain ⟨hx16, hy16, hw16, -⟩ := b.words
  have hhot : b.width * 4 % 2 ^ 32 = 4 * b.width := by omega
  unfold partExtractBuf Raster.Rect.paint
  rcases Nat.eq_zero_or_pos b.height with hzero | hpos
  · -- no row
    have hnone : Raster.cut (4 * b.width) b.height b.pixels = [] := List.eq_nil_of_length_eq_zero (by simp [hzero])
    dsimp only [Block.rect]
    rw [hzero] at hnone ⊢
    rw [hnone]
    rfl
  · -- the offsets stay below the size of the canvas
    have hrow : ∀ n ≤ part.height, n * (4 * part.width) < 2 ^ 31 := by
      intro n hn
      exact Nat.lt_of_le_of_lt (Nat.mul_le_mul_right (4 * part.width) hn) hfit
    have hwidth : part.width * 4 % 2 ^ 32 = 4 * part.width := by
      have := hrow 1 (by omega)
      omega
    have hdst : ∀ n < b.height, (b.origY - part.hsOrigY) * (4 * part.width) + 4 * (b.origX - part.hsOrigX) +
        n * (4 * part.width) < 2 ^ 32 := by
      intro n hn
      have := hrow (b.origY - part.hsOrigY + n + 1) (by omega)
      rw [Nat.succ_mul, Nat.add_mul] at this
      omega
    have hstart := hdst 0 hpos
    rw [Nat.zero_mul, Nat.add_zero] at hstart
    rw [sub32_eq hx (by omega), sub32_eq hy (by omega), hwidth, Nat.mul_comm (b.origX - part.hsOrigX) 4,
      Nat.mod_eq_of_lt hstart]
    show copyRows m (b.width * 4 % 2 ^ 32) (4 * part.width) b.height src _ canvas = _
    rw [hhot, ← Raster.cut_length (4 * b.width) b.height b.pixels]
    refine copyRows_eq (fun row hrow => Raster.length_of_mem_cut b.pixels_length hrow)
      (by rw [Raster.cut_flatten b.pixels_length]; exact hm) fun n hn => hdst n (by simpa using hn)

/-- The blocks are painted in order, and their records and pixels are all that is taken. -/
theorem extractBlocks_eq : ∀ {blocks : List Block} {buf : Nat} {canvas : List UInt8},
    (∀ b ∈ blocks, b.Inside part) → m.Holds buf (blocks.flatMap Block.bytes) →
      extractBlocks m part blocks.length buf canvas =
        ((blocks.map (Block.rect part)).foldlM (Raster.Rect.paint (4 * part.width)) canvas).map fun dib =>
          (dib, buf + (blocks.flatMap Block.bytes).length)
  | [], buf, canvas, _, _ => rfl
  | b :: blocks, buf, canvas, hin, hm => by
    rw [List.flatMap_cons, Mem.holds_append, b.bytes_length] at hm
    obtain ⟨hrecord, hpixels⟩ := b.holds_bytes hm.1
    have hb := hin b List.mem_cons_self
    have hsize : b.width * b.height * 4 % 2 ^ 32 = b.height * (4 * b.width) := by
      have hle := Nat.mul_le_mul (show b.height ≤ part.height by have := hb.2.2; omega)
        (show 4 * b.width ≤ 4 * part.width by have := hb.1; have := hb.2.1; omega)
      rw [Nat.mul_comm b.width, Nat.mul_assoc, Nat.mul_comm b.width, Nat.mod_eq_of_lt (by omega)]
    have hpaint := partExtractBuf_eq hfit hb hpixels canvas
    rw [List.length_cons, extractBlocks, hrecord]
    simp only [Option.bind_eq_bind, Option.bind_some, Block.record]
    rw [hpaint, hsize, List.map_cons, List.foldlM_cons]
    cases (b.rect part).paint (4 * part.width) canvas with
    | none => rfl
    | some canvas' =>
      rw [Option.bind_some, Nat.add_assoc, extractBlocks_eq (fun b h => hin b (List.mem_cons_of_mem _ h)) hm.2,
        List.flatMap_cons, List.length_append, b.bytes_length, Nat.add_assoc]
      rfl

end Part

/-! ## Pixels -/

/-- A block inside the part fits into the canvas. -/
theorem inside_rect {part : G02PartInfo} {b : Block} (hin : b.Inside part) :
    (b.rect part).Inside (4 * part.width) part.height := by
  obtain ⟨hx, hxw, hy, hyh⟩ := hin
  refine ⟨?_, ?_⟩
  · show 4 * (b.origX - part.hsOrigX) + 4 * b.width ≤ 4 * part.width
    omega
  · show b.origY - part.hsOrigY + (Raster.cut (4 * b.width) b.height b.pixels).length ≤ part.height
    rw [Raster.cut_length]
    omega

/-- The pixel at a place of a picture of width `w`. -/
def pixelAt (picture : List UInt8) (w x y : Nat) : List UInt8 := (picture.drop (4 * (y * w + x))).take 4

/-- The block that is seen at a pixel of the part: the last one that covers it. -/
def seen (part : G02PartInfo) (blocks : List Block) (x y : Nat) : Option Block :=
  blocks.reverse.find? fun b => b.Covers part x y

/-- The pixel of the part that the blocks make. -/
def composed (part : G02PartInfo) (blocks : List Block) (x y : Nat) : List UInt8 :=
  match seen part blocks x y with
  | some b => pixelAt b.pixels b.width (part.hsOrigX + x - b.origX) (part.hsOrigY + y - b.origY)
  | none => [0, 0, 0, 0]

theorem covers_rect_iff {part : G02PartInfo} {b : Block} (hin : b.Inside part) {x y j : Nat} (hj : j < 4) :
    (b.rect part).Covers (4 * x + j) y ↔ b.Covers part x y := by
  obtain ⟨hx, -, hy, -⟩ := hin
  unfold Raster.Rect.Covers Block.Covers
  simp only [Block.rect, Raster.cut_length]
  omega

/-- A byte of the canvas shows the block that is seen at its pixel. -/
theorem seen_rect {part : G02PartInfo} {blocks : List Block} (hin : ∀ b ∈ blocks, b.Inside part) {x y j : Nat}
    (hj : j < 4) : Raster.Rect.seen (blocks.map (Block.rect part)) (4 * x + j) y =
      (seen part blocks x y).map (Block.rect part) := by
  rw [Raster.Rect.seen, ← List.map_reverse, List.find?_map, seen]
  congr 1
  refine List.find?_congr fun b hb => ?_
  exact decide_eq_decide.2 (covers_rect_iff (hin b (List.mem_reverse.1 hb)) hj)

/-- A byte of a block. -/
theorem cell_rect {part : G02PartInfo} {b : Block} (hin : b.Inside part) {x y j : Nat} (hj : j < 4)
    (hc : b.Covers part x y) : (b.rect part).cell (4 * x + j) y =
      b.pixels[4 * ((part.hsOrigY + y - b.origY) * b.width + (part.hsOrigX + x - b.origX)) + j]? := by
  obtain ⟨hx, -, hy, -⟩ := hin
  obtain ⟨hc1, hc2, hc3, hc4⟩ := hc
  have hrow : y - (b.origY - part.hsOrigY) = part.hsOrigY + y - b.origY := by omega
  have hcolumn : 4 * x + j - 4 * (b.origX - part.hsOrigX) = 4 * (part.hsOrigX + x - b.origX) + j := by omega
  unfold Raster.Rect.cell
  dsimp only [Block.rect]
  rw [Raster.cut_cell (by omega) (by omega), hrow, hcolumn, Nat.mul_left_comm, Nat.mul_add, Nat.add_assoc]

/-- A pixel, byte by byte. -/
theorem pixelAt_getElem? (picture : List UInt8) (w x y j : Nat) :
    (pixelAt picture w x y)[j]? = if j < 4 then picture[4 * (y * w + x) + j]? else none := by
  rw [pixelAt, List.getElem?_take, List.getElem?_drop]

/-- The canvas shows at each pixel what the blocks make of it. -/
theorem pixelAt_painted {part : G02PartInfo} {blocks : List Block} (hin : ∀ b ∈ blocks, b.Inside part)
    {canvas : List UInt8} (hcells : ∀ x y, x < 4 * part.width → canvas[y * (4 * part.width) + x]? =
      (Raster.Rect.seen (blocks.map (Block.rect part)) x y).elim
        (List.replicate (part.height * (4 * part.width)) (0 : UInt8))[y * (4 * part.width) + x]? fun r => r.cell x y)
    {x y : Nat} (hx : x < part.width) (hy : y < part.height) :
    pixelAt canvas part.width x y = composed part blocks x y := by
  apply List.ext_getElem?
  intro j
  by_cases hj : j < 4
  · have hcell := hcells (4 * x + j) y (by omega)
    rw [← Nat.add_assoc, Nat.mul_left_comm y 4, ← Nat.mul_add, seen_rect hin hj] at hcell
    rw [pixelAt_getElem?, if_pos hj, hcell, composed]
    cases hs : seen part blocks x y with
    | none =>
      -- no block: the canvas is still zero there
      have hle := Nat.mul_le_mul_right (4 * part.width) hy
      rw [Nat.succ_mul, Nat.mul_left_comm y] at hle
      show (List.replicate _ (0 : UInt8))[_]? = [0, 0, 0, 0][j]?
      rw [List.getElem?_replicate, if_pos (by omega)]
      rcases j with _ | _ | _ | _ | j
      · rfl
      · rfl
      · rfl
      · rfl
      · omega
    | some b =>
      have hb : b ∈ blocks := List.mem_reverse.1 (List.mem_of_find?_eq_some hs)
      have hc : b.Covers part x y := by simpa using List.find?_some hs
      rw [Option.map_some]
      dsimp only [Option.elim_some]
      rw [cell_rect (hin b hb) hj hc, pixelAt_getElem?, if_pos hj]
  · rw [pixelAt_getElem?, if_neg hj, composed]
    cases seen part blocks x y with
    | none => exact (List.getElem?_eq_none (Nat.not_lt.1 hj)).symm
    | some b =>
      dsimp only
      rw [pixelAt_getElem?, if_neg hj]

/-- A part whose size does not wrap: the blocks are composed, the last one on top; any other part is not as
large as it should be. -/
theorem extractG02Part_composes_iff {m : Mem UInt8} {part : G02PartInfo} {blocks : List Block}
    (hpart : readPart m 0 = some part) (htype : part.type = 1 ∨ part.type = 2)
    (hcount : part.blockCount = blocks.length) (hblocks : m.Holds sizeofPartInfo (blocks.flatMap Block.bytes))
    (hin : ∀ b ∈ blocks, b.Inside part) :
    (∃ canvas, extractG02Part m = .ok (some (canvas, sizeofPartInfo + (blocks.flatMap Block.bytes).length)) ∧
        canvas.length = part.width * part.height * 4 ∧
        ∀ x y, x < part.width → y < part.height → pixelAt canvas part.width x y = composed part blocks x y) ↔
      part.width * part.height * 4 < 2 ^ 31 := by
  have hsize : part.height * (4 * part.width) = part.width * part.height * 4 := by
    rw [Nat.mul_comm 4, ← Nat.mul_assoc, Nat.mul_comm part.height]
  have hextract : extractG02Part m = if part.width * part.height * 4 % 2 ^ 32 < 2 ^ 31 then do
      let result ← orFault (extractBlocks m part blocks.length sizeofPartInfo
        (List.replicate (part.width * part.height * 4 % 2 ^ 32) 0))
      return some result
    else .error .fault := by
    rw [extractG02Part, hpart, orFault_some, ok_bind, if_pos htype, hcount]
  constructor
  · -- the canvas has as many bytes as are allocated
    rintro ⟨canvas, hok, hlen, -⟩
    rw [hextract] at hok
    split at hok
    · cases hblocks' : extractBlocks m part blocks.length sizeofPartInfo
        (List.replicate (part.width * part.height * 4 % 2 ^ 32) 0) with
      | none =>
        rw [hblocks'] at hok
        cases hok
      | some result =>
        rw [hblocks'] at hok
        cases hok
        have hsame := extractBlocks_length hblocks'
        rw [List.length_replicate] at hsame
        omega
    · cases hok
  · intro hfit
    rw [Nat.mod_eq_of_lt (by omega), if_pos hfit, ← hsize] at hextract
    rw [← hsize] at hfit
    have hrects : ∀ r ∈ blocks.map (Block.rect part), r.Inside (4 * part.width) part.height := by
      intro r hr
      obtain ⟨b, hb, rfl⟩ := List.mem_map.1 hr
      exact inside_rect (hin b hb)
    have hzero : (List.replicate (part.height * (4 * part.width)) (0 : UInt8)).length =
        part.height * (4 * part.width) :=
      List.length_replicate
    obtain ⟨canvas, hpaint, hlen, hcells⟩ := Raster.Rect.paintAll_spec hrects hzero
    refine ⟨canvas, ?_, hlen.trans hsize, fun x y hx hy => pixelAt_painted hin hcells hx hy⟩
    rw [hextract, extractBlocks_eq hfit hin hblocks, hpaint]
    rfl

/-- A part that starts at `(10, 20)`. -/
def partFile (width height : Nat) (blocks : List Block) : List UInt8 :=
  le16 1 ++ le16 blocks.length ++ le32 10 ++ le32 20 ++ le32 width ++ le32 height ++ List.replicate 96 0 ++
    blocks.flatMap Block.bytes

/-- Two pixels side by side. -/
def wide : Block where
  origX := 10
  origY := 20
  info := 0
  width := 2
  height := 1
  reserved := List.replicate 82 0
  pixels := [1, 2, 3, 4, 5, 6, 7, 8]
  words := by decide
  reserved_length := rfl
  pixels_length := rfl

/-- The second one of them. -/
def dot : Block where
  origX := 11
  origY := 20
  info := 0
  width := 1
  height := 1
  reserved := List.replicate 82 0
  pixels := [9, 9, 9, 9]
  words := by decide
  reserved_length := rfl
  pixels_length := rfl

theorem holds_partFile (width height : Nat) (blocks : List Block) :
    (Mem.ofList (partFile width height blocks)).Holds sizeofPartInfo (blocks.flatMap Block.bytes) := by
  have h := Mem.holds_ofList (le16 1 ++ le16 blocks.length ++ le32 10 ++ le32 20 ++ le32 width ++ le32 height ++
    List.replicate 96 0) (blocks.flatMap Block.bytes) []
  rwa [List.append_nil] at h

/-- The later block is on top. -/
theorem extractG02Part_composes_two : ∃ canvas, extractG02Part (Mem.ofList (partFile 2 1 [wide, dot])) =
      .ok (some (canvas, 312)) ∧ pixelAt canvas 2 0 0 = [1, 2, 3, 4] ∧ pixelAt canvas 2 1 0 = [9, 9, 9, 9] := by
  have hpart : readPart (Mem.ofList (partFile 2 1 [wide, dot])) 0 = some ⟨1, 2, 10, 20, 2, 1⟩ := by decide +kernel
  obtain ⟨canvas, hok, -, hpixels⟩ :=
    (extractG02Part_composes_iff hpart (.inl rfl) rfl (holds_partFile 2 1 [wide, dot]) (by decide)).2 (by decide)
  rw [show sizeofPartInfo + ([wide, dot].flatMap Block.bytes).length = 312 by decide +kernel] at hok
  exact ⟨canvas, hok, hpixels 0 0 (by decide) (by decide), hpixels 1 0 (by decide) (by decide)⟩

/-- One pixel of a part of 65536 by 65536: the canvas has no byte, and the write is outside of it. -/
theorem extractG02Part_wraps : ¬ ∀ (m : Mem UInt8) (part : G02PartInfo) (blocks : List Block),
    readPart m 0 = some part → part.type = 1 ∨ part.type = 2 → part.blockCount = blocks.length →
      m.Holds sizeofPartInfo (blocks.flatMap Block.bytes) → (∀ b ∈ blocks, b.Inside part) →
        ∃ canvas consumed, extractG02Part m = .ok (some (canvas, consumed)) := by
  intro hall
  obtain ⟨canvas, consumed, hok⟩ := hall (Mem.ofList (partFile 65536 65536 [dot])) ⟨1, 1, 10, 20, 65536, 65536⟩ [dot]
    (by decide +kernel) (.inl rfl) rfl (holds_partFile 65536 65536 _) (by decide)
  have hfault : extractG02Part (Mem.ofList (partFile 65536 65536 [dot])) = .error .fault := by decide +kernel
  rw [hfault] at hok
  cases hok

end SiglusExtract.G00
