/-
`NWAData` and `ConvertNwaToWav` (nwa2wav.cpp): an NWA file read block by block and written as a WAV.
Memory that the code has not written holds whatever was there before; the accesses that the sizes in the
file decide are events of a run, and the run stops where one leaves its buffer.
-/
import SiglusExtract.Lib.Machine
import SiglusExtract.Nwa.Decode
import SiglusExtract.Tool
import Mathlib.Data.Int.Bitwise

namespace SiglusExtract.Nwa

open Bytes CInt Machine

/-- What the stack and the heap hold where `ConvertNwaToWav` has not written yet: the header buffer of
`ReadHeader`, and its three allocations. -/
structure Junk where
  header : Nat → UInt8
  offsets : Nat → UInt8
  tmpdata : Nat → UInt8
  data : Nat → UInt8

/-! ## The header of a WAV file -/

def ascii (s : String) : List UInt8 := s.toList.map fun c => UInt8.ofNat c.toNat

/-- `make_wavheader`. -/
def makeWavheader (size channels bps freq : Int) : List UInt8 :=
  let byps := i32 (bps + 7) >>> 3
  ascii "RIFF" ++ le32 (u32 (size + 0x24)) ++ ascii "WAVE" ++
    ascii "fmt " ++ le32 16 ++ le16 1 ++ le16 (u32 channels) ++ le32 (u32 freq) ++
    le32 (u32 (freq * byps * channels)) ++ le16 (u32 (byps * channels)) ++ le16 (u32 bps) ++
    ascii "data" ++ le32 (u32 size)

theorem makeWavheader_length (size channels bps freq : Int) : (makeWavheader size channels bps freq).length = 44 := by
  have hascii : (ascii "RIFF").length + (ascii "WAVE").length + (ascii "fmt ").length + (ascii "data").length = 16 := by
    decide
  simp only [makeWavheader, List.length_append, le32_length, le16_length]
  omega

/-! ## The header of an NWA file -/

/-- The fields of `NWAData` that `ReadHeader` sets and nothing changes afterwards; `offsets` is `none`
where the pointer is null. -/
structure NwaData where
  channels : Nat
  bps : Nat
  freq : Int
  complevel : Int
  useRunlength : Int
  blocks : Int
  datasize : Int
  compdatasize : Int
  samplecount : Int
  blocksize : Int
  restsize : Int
  offsets : Option (List Int)
  offsetStart : Int
  filesize : Int
  deriving DecidableEq, Repr

namespace NwaData

/-- `bps / 8`. -/
def byps (h : NwaData) : Nat := h.bps / 8

/-- The fields as they stand in the header. -/
def ofHeader (m : Nat → UInt8) (offsetStart filesize : Int) : NwaData where
  channels := shortAt m 0x00
  bps := shortAt m 0x02
  freq := intAt m 0x04
  complevel := intAt m 0x08
  useRunlength := intAt m 0x0c
  blocks := intAt m 0x10
  datasize := intAt m 0x14
  compdatasize := intAt m 0x18
  samplecount := intAt m 0x1c
  blocksize := intAt m 0x20
  restsize := intAt m 0x24
  offsets := none
  offsetStart := offsetStart
  filesize := filesize

/-- The block sizes of raw data are not those of the header; a sample without a byte divides by zero. -/
def rawSizes (h : NwaData) : Option NwaData :=
  if h.complevel ≠ -1 then some h
  else if h.byps = 0 then none
  else
    let block : Int := 65536 * h.byps
    let restsize := (h.datasize.tmod block).tdiv h.byps
    some { h with
      blocksize := 65536
      restsize
      blocks := h.datasize.tdiv block + if restsize > 0 then 1 else 0 }

/-- The end of `ReadHeader`: the table of offsets, which raw data does not have. -/
def readOffsets (junk : Junk) (h : NwaData) (file : NtFileDisk) : NwaData × NtFileDisk :=
  if h.complevel = -1 then (h, file)
  else
    let (bytes, file) := file.read (u32 (h.blocks * 4))
    let m := overlay junk.offsets bytes
    ({ h with offsets := some ((List.range h.blocks.toNat).map fun i => intAt m (4 * i)) }, file)

/-- `ReadHeader`; `none` is a division by zero. -/
def readHeader (junk : Junk) (file : NtFileDisk) (fileSize : Int) : Option (NwaData × NtFileDisk) := do
  let start := i32 file.position
  let (bytes, file) := file.read 0x2c
  let h := ofHeader (overlay junk.header bytes) (if start = -1 then 0 else start)
    (if fileSize ≠ -1 then fileSize else 0)
  let h ← h.rawSizes
  if h.blocks ≤ 0 ∨ h.blocks > 1000000 then return (h, file)
  if h.filesize ≠ 0 then return readOffsets junk h file
  let h := { h with filesize := i32 file.fileSize }
  if i32 (i32 file.position + h.blocks * 4) ≥ h.filesize then return (h, file)
  return readOffsets junk h file

/-- `offsets[k]`. -/
def offset (h : NwaData) (k : Int) : Int := ((h.offsets.getD [])[k.toNat]?).getD 0

/-- The sizes of the data agree: the end of `CheckHeader` for raw and for compressed data. -/
def sizesAgree (h : NwaData) : Bool :=
  h.datasize = i32 (h.samplecount * h.byps) ∧ h.samplecount = i32 ((h.blocks - 1) * h.blocksize + h.restsize)

/-- `CheckHeader`. -/
def checkHeader (h : NwaData) : Bool :=
  if h.complevel ≠ -1 ∧ h.offsets = none then false
  else if h.channels ≠ 1 ∧ h.channels ≠ 2 then false
  else if h.bps ≠ 8 ∧ h.bps ≠ 16 then false
  else if h.complevel = -1 then h.sizesAgree
  else if h.complevel < 0 ∨ h.complevel > 5 then false
  else if h.filesize ≠ 0 ∧ h.filesize ≠ h.compdatasize then false
  else if h.offset (h.blocks - 1) ≥ h.compdatasize then false
  else h.sizesAgree

/-- The bytes of a block. -/
def blockBytes (h : NwaData) : Int := i32 (h.blocksize * h.byps)

/-- `tmpdata` is there: `CheckHeader` allocates it at its end, for compressed data only. -/
def hasTmpdata (h : NwaData) : Bool := h.complevel ≠ -1 ∧ h.checkHeader

/-- The size of `tmpdata`. -/
def tmpdataSize (h : NwaData) : Int := i32 (h.blockBytes * 2)

/-- `BlockLength`. -/
def blockLength (h : NwaData) : Int := if h.complevel ≠ -1 ∧ ¬ h.hasTmpdata then 0 else h.blockBytes

/-- What `Decode` passes to `NWADecode`. -/
def info (h : NwaData) : NwaInfo :=
  if h.channels = 2 ∧ h.bps = 16 ∧ h.complevel = 2 then .sw2
  else ⟨h.channels, h.bps, h.complevel.toNat, h.useRunlength ≠ 0⟩

def wavheader (h : NwaData) : List UInt8 := makeWavheader h.datasize h.channels h.bps h.freq

end NwaData

/-! ## Decoding -/

/-- What a run shows: the bytes a read has put into `tmpdata`, the bytes written to the caller's buffer,
how far `memmove` reads in it, each result of `Decode`, and what is passed to `out.Write`. -/
inductive Event
  | read (transferred : Nat)
  | write (bytes : Nat)
  | fetch (upTo : Nat)
  | ret (err : Int)
  | chunk (bytes : List UInt8)
  deriving DecidableEq, Repr

/-- The bytes passed to `out.Write`. -/
def Event.chunk? : Event → Option (List UInt8)
  | .chunk bytes => some bytes
  | _ => none

/-- The result of a call of `Decode`. -/
def Event.ret? : Event → Option Int
  | .ret err => some err
  | _ => none

/-- How `ConvertNwaToWav` ends: it returns, or memory is touched that is not its own, or an exception
goes uncaught. -/
inductive Stop
  | returned (file : NtFileDisk)
  | fault

/-- `n` bytes at an offset of a buffer. -/
def bytesAt (m : Nat → UInt8) (p n : Nat) : List UInt8 := (List.range n).map fun i => m (p + i)

theorem bytesAt_length (m : Nat → UInt8) (p n : Nat) : (bytesAt m p n).length = n := by
  rw [bytesAt, List.length_map, List.length_range]

theorem bytesAt_overlay (old : Nat → UInt8) (l : List UInt8) : bytesAt (overlay old l) 0 l.length = l := by
  apply List.ext_getElem
  · simp [bytesAt]
  · intro i h h'
    simp [bytesAt, overlay, h']

/-- A part of a buffer, with what stands in front of it and behind it. -/
theorem bytesAt_middle (old : Nat → UInt8) {l a b c : List UInt8} {p n : Nat} (hl : l = a ++ (b ++ c))
    (hp : a.length = p) (hn : b.length = n) : bytesAt (overlay old l) p n = b := by
  subst hl hp hn
  apply List.ext_getElem
  · simp [bytesAt]
  · intro i h h'
    simp only [bytesAt, overlay, List.getElem_map, List.getElem_range]
    rw [List.getElem?_append_right (Nat.le_add_right _ _), Nat.add_sub_cancel_left, List.getElem?_append_left h',
      List.getElem?_eq_getElem h', Option.getD_some]

/-- A dword in the middle of a buffer. -/
theorem u32_intAt_middle (old : Nat → UInt8) {l a c : List UInt8} {p n : Nat} (hl : l = a ++ (le32 n ++ c))
    (hp : a.length = p) (hn : n < 2 ^ 32) : u32 (intAt (overlay old l) p) = n := by
  have hbytes : bytesAt (overlay old l) p 4 = le32 n := bytesAt_middle old hl hp rfl
  exact (u32_intAt hbytes).trans (Nat.mod_eq_of_lt hn)

/-- What changes from one `Decode` to the next; `data` is the caller's buffer. -/
structure NwaState where
  curblock : Int
  tmpdata : Nat → UInt8
  data : Nat → UInt8
  file : NtFileDisk
  skipCount : Int

namespace NwaData

/-- The first call of `Decode`: the WAV header. -/
def decodeHeader (h : NwaData) (s : NwaState) : NwaState :=
  { s with data := overlay s.data h.wavheader, curblock := s.curblock + 1 }

theorem decodeHeader_data (h : NwaData) (s : NwaState) : (h.decodeHeader s).data = overlay s.data h.wavheader := by
  rw [decodeHeader]

/-- A block that is skipped whole: `size` bytes of the file. -/
def skipBlock (h : NwaData) (size : Int) (s : NwaState) : NwaState :=
  { s with
    skipCount := i32 (s.skipCount - h.blocksize.tdiv h.channels)
    file := s.file.seek (s.file.position + size)
    curblock := s.curblock + 1 }

/-- `Decode` for raw data: the accesses, the result and the next state; `none` is a division by zero. -/
def decodeRaw (h : NwaData) (s : NwaState) : Option (List Event × Int × NwaState) :=
  if s.curblock = -1 then
    let s := h.decodeHeader s
    some ([.write 0x2c], 0x2c, { s with file := s.file.seek (i32 (h.offsetStart + 0x2c)) })
  else if h.channels = 0 then none
  else if s.skipCount > h.blocksize.tdiv h.channels then some ([], -2, h.skipBlock h.blockBytes s)
  else if s.curblock < h.blocks then
    let file := if s.skipCount ≠ 0 then s.file.seek (s.file.position + i32 (s.skipCount * h.channels * h.byps))
      else s.file
    let readsize := i32 (h.blocksize - s.skipCount * h.channels)
    let (bytes, file) := file.read (u32 (readsize * h.byps))
    some ([.write bytes.length], i32 bytes.length,
      { s with data := overlay s.data bytes, file, skipCount := 0, curblock := s.curblock + 1 })
  else some ([], -1, s)

/-- The compressed size of a block; the last one is not known and gets the whole buffer. -/
def curcompsize (h : NwaData) (curblock : Int) : Int :=
  if curblock ≠ h.blocks - 1 then i32 (h.offset (curblock + 1) - h.offset curblock) else h.tmpdataSize

/-- The decoded size of a block. -/
def curblocksize (h : NwaData) (curblock : Int) : Int :=
  if curblock ≠ h.blocks - 1 then h.blockBytes else i32 (h.restsize * h.byps)

/-- The compressed bytes of a block, and the file behind them. -/
def readBlock (h : NwaData) (s : NwaState) : List UInt8 × NtFileDisk := s.file.read (u32 (h.curcompsize s.curblock))

/-- What `NWADecode` writes for a block. -/
def blockPcm (h : NwaData) (s : NwaState) : List UInt8 :=
  nwaDecode h.info (overlay s.tmpdata (h.readBlock s).1) (h.curcompsize s.curblock) (h.curblocksize s.curblock)

/-- The state after a block has been read and decoded. -/
def nextBlock (h : NwaData) (s : NwaState) : NwaState where
  curblock := s.curblock + 1
  tmpdata := overlay s.tmpdata (h.readBlock s).1
  data := overlay s.data (h.blockPcm s)
  file := (h.readBlock s).2
  skipCount := 0

/-- A block read and decoded; where samples are skipped, as many bytes as are dropped are moved up from
behind them. -/
def decodeBlock (h : NwaData) (s : NwaState) : List Event × Int × NwaState :=
  let accesses := [.read (h.readBlock s).1.length, .write (h.blockPcm s).length]
  let retsize := h.curblocksize s.curblock
  let next := h.nextBlock s
  if s.skipCount = 0 then (accesses, retsize, next)
  else
    let skip := i32 (s.skipCount * h.channels * h.byps)
    (accesses ++ [.fetch (u32 skip + u32 skip), .write (u32 skip)], i32 (retsize - skip),
      { next with data := overlay next.data (bytesAt next.data (u32 skip) (u32 skip)) })

/-- `Decode` for compressed data. -/
def decodeCompressed (h : NwaData) (s : NwaState) : List Event × Int × NwaState :=
  if ¬ h.hasTmpdata then ([], -1, s)
  else if h.blocks = s.curblock then ([], 0, s)
  else if s.curblock = -1 then ([.write 0x2c], 0x2c, h.decodeHeader s)
  else if s.curblock ≠ h.blocks - 1 ∧ h.blockBytes ≥ i32 (h.blockBytes * 2) then ([], -1, s)
  else if s.skipCount > h.blocksize.tdiv h.channels then ([], -2, h.skipBlock (h.curcompsize s.curblock) s)
  else h.decodeBlock s

/-- `Decode`. -/
def decode (h : NwaData) (s : NwaState) : Option (List Event × Int × NwaState) :=
  if h.complevel = -1 then h.decodeRaw s else some (h.decodeCompressed s)

/-! ## ConvertNwaToWav -/

/-- An access stays inside its buffer, and a result is one the caller is told of. -/
def Fits (h : NwaData) : Event → Prop
  | .read transferred => transferred ≤ h.tmpdataSize
  | .write bytes => bytes ≤ h.blockLength
  | .fetch upTo => upTo ≤ h.blockLength
  | .ret err => err = -1 ∨ err = -2 ∨ 0 ≤ err ∧ err ≤ h.blockLength
  | .chunk _ => True

instance (h : NwaData) : ∀ e, Decidable (h.Fits e)
  | .read transferred => inferInstanceAs (Decidable ((transferred : Int) ≤ h.tmpdataSize))
  | .write bytes => inferInstanceAs (Decidable ((bytes : Int) ≤ h.blockLength))
  | .fetch upTo => inferInstanceAs (Decidable ((upTo : Int) ≤ h.blockLength))
  | .ret err => inferInstanceAs (Decidable (err = -1 ∨ err = -2 ∨ 0 ≤ err ∧ err ≤ h.blockLength))
  | .chunk _ => inferInstanceAs (Decidable True)

/-- One turn of the loop of `ConvertNwaToWav`. -/
def turn (h : NwaData) (s : NwaState) : Step Event Stop NwaState :=
  match h.decode s with
  | none => .halt [] .fault
  | some (accesses, err, s) =>
    let events := accesses ++ [.ret err]
    if ∀ e ∈ events, h.Fits e then
      if err = 0 ∨ err = -1 then .halt events (.returned s.file)
      else if err = -2 then .more events s
      else .more (events ++ [.chunk (bytesAt s.data 0 err.toNat)]) s
    else .halt events .fault

end NwaData

/-- `ConvertNwaToWav` with the `skip_count` of every call, 0: all that happens, and how it ends. An
allocation of negative size throws. -/
def convertNwaToWav (junk : Junk) (file : NtFileDisk) (inSize : Int) : List Event × Option Stop :=
  match NwaData.readHeader junk file inSize with
  | none => ([], some .fault)
  | some (h, file) =>
    if h.hasTmpdata ∧ h.tmpdataSize < 0 ∨ h.blockLength < 0 then ([], some .fault)
    else run h.turn (h.blocks.toNat + 2) ⟨-1, junk.tmpdata, junk.data, file, 0⟩

/-- What `ConvertNwaToWav` passes to `out.Write`. -/
def chunks (events : List Event) : List (List UInt8) := events.filterMap Event.chunk?

/-- The results of the calls of `Decode`, one for each call. -/
def results (events : List Event) : List Int := events.filterMap Event.ret?

@[simp] theorem chunks_append (a b : List Event) : chunks (a ++ b) = chunks a ++ chunks b := List.filterMap_append

@[simp] theorem results_append (a b : List Event) : results (a ++ b) = results a ++ results b := List.filterMap_append

@[simp] theorem results_replicate (n : Nat) (err : Int) :
    results (List.replicate n (.ret err)) = List.replicate n err := by
  induction n with
  | zero => rfl
  | succ n ih => exact congrArg (err :: ·) ih

@[simp] theorem chunks_replicate (n : Nat) (err : Int) : chunks (List.replicate n (.ret err)) = [] := by
  induction n with
  | zero => rfl
  | succ n ih => exact ih

/-! ## What the header guarantees -/

namespace NwaData

theorem wavheader_length (h : NwaData) : h.wavheader.length = 44 := makeWavheader_length _ _ _ _

/-- The first chunk, read back from the buffer. -/
theorem bytesAt_wavheader (h : NwaData) (old : Nat → UInt8) :
    bytesAt (overlay old h.wavheader) 0 (Int.toNat 44) = h.wavheader := by
  rw [show Int.toNat 44 = h.wavheader.length from h.wavheader_length.symm, bytesAt_overlay]

/-- What `CheckHeader` has tested where it returns true. -/
structure Checked (h : NwaData) : Prop where
  offsets : h.complevel = -1 ∨ h.offsets ≠ none
  channels : h.channels = 1 ∨ h.channels = 2
  bps : h.bps = 8 ∨ h.bps = 16
  complevel : -1 ≤ h.complevel ∧ h.complevel ≤ 5
  datasize : h.datasize = i32 (h.samplecount * h.byps)
  samplecount : h.samplecount = i32 ((h.blocks - 1) * h.blocksize + h.restsize)

theorem checked_of_checkHeader {h : NwaData} (hc : h.checkHeader) : h.Checked := by
  unfold checkHeader at hc
  split at hc
  · cases hc
  · next hoff =>
    have hoff : h.complevel = -1 ∨ h.offsets ≠ none := by
      rw [not_and_or, not_not] at hoff
      exact hoff
    split at hc
    · cases hc
    · next hchan =>
      split at hc
      · cases hc
      · next hbps =>
        split at hc
        · obtain ⟨hdata, hsamples⟩ := of_decide_eq_true hc
          exact ⟨hoff, by omega, by omega, by omega, hdata, hsamples⟩
        · split at hc
          · cases hc
          · split at hc
            · cases hc
            · split at hc
              · cases hc
              · obtain ⟨hdata, hsamples⟩ := of_decide_eq_true hc
                exact ⟨hoff, by omega, by omega, by omega, hdata, hsamples⟩

theorem compressed_of_tmpdata {h : NwaData} (hc : h.hasTmpdata) : h.complevel ≠ -1 := (of_decide_eq_true hc).1

theorem checked_of_tmpdata {h : NwaData} (hc : h.hasTmpdata) : h.Checked :=
  checked_of_checkHeader (of_decide_eq_true hc).2

theorem offsets_of_tmpdata {h : NwaData} (hc : h.hasTmpdata) : h.offsets ≠ none :=
  (checked_of_tmpdata hc).offsets.resolve_left (compressed_of_tmpdata hc)

theorem byps_info {h : NwaData} (hc : h.Checked) : h.info.byps = h.byps ∧ (h.info.bps = 8 ∨ h.info.bps = 16) := by
  have hinfo : h.info.bps = h.bps := by
    unfold info
    split
    · next hsw => exact hsw.2.1.symm
    · rfl
  refine ⟨?_, hinfo ▸ hc.bps⟩
  unfold NwaInfo.byps byps
  rw [hinfo]
  rcases hc.bps with h8 | h8 <;> simp [h8]

theorem compLevel_le {h : NwaData} (hc : h.hasTmpdata) : h.info.compLevel ≤ 5 := by
  have := (checked_of_tmpdata hc).complevel
  unfold info
  split
  · decide
  · simp only
    omega

/-- The table of offsets changes nothing else. -/
theorem readOffsets_fields (junk : Junk) (h : NwaData) (file : NtFileDisk) :
    ∃ o, (readOffsets junk h file).1 = { h with offsets := o } ∧ (h.complevel = -1 → o = h.offsets) := by
  unfold readOffsets
  split
  · exact ⟨h.offsets, rfl, fun _ => rfl⟩
  · next hl => exact ⟨_, rfl, fun h => absurd h hl⟩

/-- The sizes of the blocks are all that raw data changes. -/
theorem rawSizes_fields {h h₀ : NwaData} (h0 : h.rawSizes = some h₀) :
    ∃ blocksize restsize blocks, h₀ = { h with blocksize, restsize, blocks } := by
  unfold rawSizes at h0
  split at h0
  · exact ⟨h.blocksize, h.restsize, h.blocks, (Option.some.inj h0).symm⟩
  · split at h0
    · cases h0
    · exact ⟨_, _, _, (Option.some.inj h0).symm⟩

/-- The header without its table: the fields as they stand there, with the sizes of raw data. -/
theorem readHeader_fields {junk : Junk} {file file' : NtFileDisk} {inSize : Int} {h : NwaData}
    (hr : readHeader junk file inSize = some (h, file')) :
    ∃ start size h₀, (ofHeader (overlay junk.header (file.read 0x2c).1) start size).rawSizes = some h₀ ∧
      ∃ o filesize, h = { h₀ with offsets := o, filesize } ∧
        (o ≠ none → h₀.complevel ≠ -1 ∧ 0 < h₀.blocks ∧ h₀.blocks ≤ 1000000) := by
  unfold readHeader at hr
  rw [Option.bind_eq_bind, Option.bind_eq_some_iff] at hr
  rcases hr with ⟨h₀, h0, hr⟩
  have hnone : h₀.offsets = none := by
    obtain ⟨_, _, _, hsame⟩ := rawSizes_fields h0
    rw [hsame]
    rfl
  refine ⟨_, _, h₀, h0, ?_⟩
  split at hr
  · cases hr
    exact ⟨none, h.filesize, by rw [← hnone], fun h => absurd rfl h⟩
  · next hblocks =>
    have htable : ∀ h₁ : NwaData, h₁ = { h₀ with filesize := h₁.filesize } →
        some (readOffsets junk h₁ (file.read 0x2c).2) = some (h, file') →
        ∃ o filesize, h = { h₀ with offsets := o, filesize } ∧
          (o ≠ none → h₀.complevel ≠ -1 ∧ 0 < h₀.blocks ∧ h₀.blocks ≤ 1000000) := by
      intro h₁ h1 hr
      -- whichever size of the file was taken, the table is read the same way
      obtain ⟨o, ho, hraw⟩ := readOffsets_fields junk h₁ (file.read 0x2c).2
      simp only [Option.some.inj hr] at ho
      refine ⟨o, h₁.filesize, by rw [ho, h1], fun hne => ⟨fun hlevel => hne ?_, by omega, by omega⟩⟩
      rw [hraw (by rw [h1]; exact hlevel), h1]
      exact hnone
    split at hr
    · exact htable h₀ rfl hr
    · dsimp only at hr
      split at hr
      · cases hr
        exact ⟨none, i32 (file.read 0x2c).2.fileSize, by rw [← hnone], fun h => absurd rfl h⟩
      · exact htable _ rfl hr

/-- Where there is a table of offsets, the number of blocks has been tested. -/
theorem readHeader_offsets {junk : Junk} {file file' : NtFileDisk} {inSize : Int} {h : NwaData}
    (hr : readHeader junk file inSize = some (h, file')) (ho : h.offsets ≠ none) :
    0 < h.blocks ∧ h.blocks ≤ 1000000 := by
  obtain ⟨start, size, h₀, -, o, filesize, rfl, hb⟩ := readHeader_fields hr
  exact (hb ho).2

/-- The sizes of raw data. -/
theorem readHeader_raw {junk : Junk} {file file' : NtFileDisk} {inSize : Int} {h : NwaData}
    (hr : readHeader junk file inSize = some (h, file')) (hraw : h.complevel = -1) :
    h.blocksize = 65536 ∧ 0 < h.byps ∧ h.bps < 2 ^ 16 ∧ h.channels < 2 ^ 16 := by
  obtain ⟨start, size, h₀, h0, o, filesize, rfl, -⟩ := readHeader_fields hr
  generalize overlay junk.header (file.read 0x2c).1 = m at h0
  unfold rawSizes at h0
  split at h0
  · next hl =>
    rw [← Option.some.inj h0] at hraw
    exact absurd hraw hl
  · split at h0
    · cases h0
    · next hbyps =>
      rw [Option.some.injEq] at h0
      have hbps : h₀.bps = shortAt m 0x02 := by simp only [← h0, ofHeader]
      have hchan : h₀.channels = shortAt m 0x00 := by simp only [← h0, ofHeader]
      have hpos : h₀.byps ≠ 0 := by simpa only [← h0, byps] using hbyps
      refine ⟨by rw [← h0], Nat.pos_of_ne_zero hpos, ?_, ?_⟩
      · exact hbps ▸ shortAt_lt m 0x02
      · exact hchan ▸ shortAt_lt m 0x00

end NwaData

end SiglusExtract.Nwa
