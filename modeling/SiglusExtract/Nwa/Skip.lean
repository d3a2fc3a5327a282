/-
`skip_count` of `ConvertNwaToWav` (nwa2wav.cpp): blocks that are skipped whole, a block of which a part is
skipped, and the blocks behind it. Compared with a run that skips nothing, the samples skipped should be
missing and nothing else; where a block ends or the rest of a block is longer than what is skipped of it, it
is not so.
-/
import SiglusExtract.Nwa.Raw
import SiglusExtract.Nwa.Wav

namespace SiglusExtract.Nwa

open Bytes CInt BitStream Machine

/-- `ConvertNwaToWav` with any `skip_count`. -/
def convertNwaToWavSkip (junk : Junk) (file : NtFileDisk) (skipCount inSize : Int) : List Event × Option Stop :=
  match NwaData.readHeader junk file inSize with
  | none => ([], some .fault)
  | some (h, file) =>
    if h.hasTmpdata ∧ h.tmpdataSize < 0 ∨ h.blockLength < 0 then ([], some .fault)
    else run h.turn (h.blocks.toNat + skipCount.toNat + 2) ⟨-1, junk.tmpdata, junk.data, file, skipCount⟩

/-- The bytes behind the WAV header. -/
def pcmBytes (events : List Event) : List UInt8 := (chunks events).flatten.drop 44

/-- The samples of `k` frames are missing and nothing else, `Decode` is called for every block, and the run returns:
no access has left its buffer. -/
def NwaData.DropsFrames (h : NwaData) (junk : Junk) (file : NtFileDisk) (inSize : Int) (k : Nat) : Prop :=
  pcmBytes (convertNwaToWavSkip junk file k inSize).1 =
      (pcmBytes (convertNwaToWav junk file inSize).1).drop (k * h.channels * h.byps) ∧
    h.blocks + 1 ≤ (results (convertNwaToWavSkip junk file k inSize).1).length ∧
    ∃ file', (convertNwaToWavSkip junk file k inSize).2 = some (.returned file')

theorem convertNwaToWavSkip_zero (junk : Junk) (file : NtFileDisk) (inSize : Int) :
    convertNwaToWavSkip junk file 0 inSize = convertNwaToWav junk file inSize := rfl

namespace NwaData

/-! ## The first turn -/

theorem pcmBytes_header (h : NwaData) (events : List Event) :
    pcmBytes ([.write 0x2c, .ret 0x2c, .chunk h.wavheader] ++ events) = (chunks events).flatten := by
  have hchunks : chunks ([.write 0x2c, .ret 0x2c, .chunk h.wavheader] ++ events) = h.wavheader :: chunks events := by
    rw [chunks_append]
    rfl
  rw [pcmBytes, hchunks, List.flatten_cons]
  exact List.drop_left' h.wavheader_length

theorem results_header (h : NwaData) (events : List Event) :
    (results ([.write 0x2c, .ret 0x2c, .chunk h.wavheader] ++ events)).length = (results events).length + 1 := by
  rw [results_append, List.length_append, Nat.add_comm]
  rfl

/-! ## Whole blocks -/

/-- The file in front of block `k` where all blocks before it, of these sizes, are skipped. -/
def skipFile (size : Nat → Int) (file : NtFileDisk) : Nat → NtFileDisk
  | 0 => file
  | k + 1 => (skipFile size file k).seek ((skipFile size file k).position + size k)

/-- In front of block `k`, with samples left to skip. -/
structure Skipping (size : Nat → Int) (file : NtFileDisk) (k : Nat) (skip : Int) (s : NwaState) : Prop where
  curblock : s.curblock = k
  file : s.file = skipFile size file k
  skipCount : s.skipCount = skip

section Skips

variable {h : NwaData} (size : Nat → Int) (file : NtFileDisk) (last : Nat) {frames : Nat}
  (hskip : ∀ k s, k < last → Skipping size file k s.skipCount s → s.skipCount > frames →
    h.decode s = some ([], -2, h.skipBlock (size k) s))
  (hframes : h.blocksize.tdiv h.channels = frames)
include hskip hframes

/-- The turns that skip `m` blocks, all of whose samples are skipped. -/
theorem run_skips {part : Nat} (hpart : 0 < part) (fuel : Nat) : ∀ {m k : Nat} {s : NwaState}, k + m ≤ last →
    m * frames + part < 2 ^ 31 → Skipping size file k (m * frames + part : Nat) s →
      ∃ s', Skipping size file (k + m) part s' ∧ run h.turn (m + fuel) s =
        (List.replicate m (.ret (-2)) ++ (run h.turn fuel s').1, (run h.turn fuel s').2)
  | 0, k, s, _, _, hs => by
    rw [Nat.zero_mul, Nat.zero_add] at hs
    rw [Nat.zero_add]
    exact ⟨s, hs, rfl⟩
  | m + 1, k, s, hk, hlt, hs => by
    rw [Nat.succ_mul] at hs hlt
    have hd := hskip k s (by omega) ⟨hs.curblock, hs.file, rfl⟩ (by have := hs.skipCount; omega)
    have hs' : Skipping size file (k + 1) (m * frames + part : Nat) (h.skipBlock (size k) s) := by
      refine ⟨?_, ?_, ?_⟩
      · simp only [skipBlock, hs.curblock]
        omega
      · simp only [skipBlock, hs.file]
        rfl
      · simp only [skipBlock, hs.skipCount, hframes]
        rw [i32_eq (by omega) (by omega)]
        omega
    obtain ⟨s', hs'', hrun⟩ := run_skips hpart fuel (m := m) (k := k + 1) (by omega) (by omega) hs'
    refine ⟨s', by rwa [show k + (m + 1) = k + 1 + m by omega], ?_⟩
    rw [Nat.add_right_comm, run_more (turn_skip hd), hrun]
    rfl

end Skips

/-! ## Raw data -/

section Raw

variable {h : NwaData} (hraw : h.complevel = -1) (hch : h.channels = 1 ∨ h.channels = 2) (hbps : h.bps = 8 ∨ h.bps = 16)
  (hsize : h.blocksize = 65536)
include hraw hch

theorem decode_rawSkip {s : NwaState} (h0 : 0 ≤ s.curblock) (hskip : s.skipCount > h.blocksize.tdiv h.channels) :
    h.decode s = some ([], -2, h.skipBlock h.blockBytes s) := by
  rw [decode, if_pos hraw, decodeRaw, if_neg (by omega), if_neg (by omega), if_pos hskip]

omit hraw in
include hsize in
theorem rawFrames : h.blocksize.tdiv h.channels = (65536 / h.channels : Nat) := by
  rw [hsize]
  rcases hch with hc | hc <;> rw [hc] <;> rfl

include hbps hsize

/-- A block of which some samples are skipped, or all: the seek, and a read of what is left of it. -/
theorem decode_rawPart {s : NwaState} (h0 : 0 ≤ s.curblock) (hlt : s.curblock < h.blocks) {part : Nat}
    (hskip : s.skipCount = part) (hpos : 0 < part) (hle : part * h.channels ≤ 65536) {file : NtFileDisk}
    (hfile : file = s.file.seek (s.file.position + part * h.channels * h.byps : Nat)) {size : Nat}
    (hread : size = (65536 - part * h.channels) * h.byps) :
    h.decode s = some ([.write (file.read size).1.length], i32 (file.read size).1.length,
      { s with
        data := overlay s.data (file.read size).1
        file := (file.read size).2
        skipCount := 0
        curblock := s.curblock + 1 }) := by
  have hbyps : h.byps = 1 ∨ h.byps = 2 := by
    unfold byps
    omega
  have hframes := rawFrames hch hsize
  have hno : ¬ s.skipCount > h.blocksize.tdiv h.channels := by
    rw [hframes, hskip]
    rcases hch with hc | hc <;> rw [hc] at hle ⊢ <;> omega
  have hseek : (s.file.position : Int) + i32 (s.skipCount * h.channels * h.byps) =
      (s.file.position + part * h.channels * h.byps : Nat) := by
    rw [hskip]
    rcases hch with hc | hc <;> rcases hbyps with hb | hb <;> rw [hc] at hle ⊢ <;>
      rw [hb, i32_eq (by omega) (by omega)] <;> omega
  have hbytes : u32 (i32 (h.blocksize - s.skipCount * h.channels) * h.byps) = size := by
    rw [hread, hsize, hskip]
    rcases hch with hc | hc <;> rcases hbyps with hb | hb <;> rw [hc] at hle ⊢ <;> rw [hb, i32_eq (by omega) (by omega),
      u32_eq (by omega) (by omega)] <;> omega
  rw [decode, if_pos hraw, decodeRaw, if_neg (by omega), if_neg (by omega), if_neg hno, if_pos hlt]
  dsimp only
  rw [if_pos (by omega), hseek, hbytes, ← hfile]

/-- A part of a block is skipped: the rest of it is passed on, and no rest ends the loop. -/
theorem turn_rawPart {s : NwaState} (h0 : 0 ≤ s.curblock) (hlt : s.curblock < h.blocks) {part : Nat}
    (hskip : s.skipCount = part) (hpos : 0 < part) (hle : part * h.channels < 65536) {skip left : Nat}
    (hsk : skip = part * h.channels * h.byps) (hleft : left = (65536 - part * h.channels) * h.byps) :
    ∃ s' n, s'.curblock = s.curblock + 1 ∧ s'.skipCount = 0 ∧ s'.file.rest = s.file.rest.drop (skip + left) ∧
      h.turn s =
        if s.file.rest.drop skip = [] then .halt [.write n, .ret n] (.returned s'.file)
        else .more [.write n, .ret n, .chunk ((s.file.rest.drop skip).take left)] s' := by
  have hbyps : 0 < h.byps := by
    unfold byps
    omega
  have hne : left ≠ 0 := by
    rw [hleft]
    exact Nat.mul_ne_zero (by omega) (by omega)
  have hrest : (s.file.seek (s.file.position + part * h.channels * h.byps : Nat)).rest = s.file.rest.drop skip :=
    hsk ▸ s.file.seek_forward _
  have hd := decode_rawPart hraw hch hbps hsize h0 hlt hskip hpos (Nat.le_of_lt hle) rfl hleft
  generalize s.file.seek (s.file.position + part * h.channels * h.byps : Nat) = file at hrest hd
  have hbytes : (file.read left).1 = (s.file.rest.drop skip).take left := by rw [file.read_eq hne, hrest]
  have hfit : left ≤ 65536 * h.byps := by
    rw [hleft]
    exact Nat.mul_le_mul_right _ (by omega)
  refine ⟨{ s with
    data := overlay s.data (file.read left).1
    file := (file.read left).2
    skipCount := 0
    curblock := s.curblock + 1 }, (file.read left).1.length, rfl, rfl, ?_, ?_⟩
  · rw [← List.drop_drop, ← hrest]
    exact file.read_rest hne
  · rw [turn_rawRead hraw hbps hsize hd rfl (Nat.le_trans (file.read_length_le _ hne) hfit), hbytes]
    by_cases hnil : s.file.rest.drop skip = []
    · rw [if_pos hnil, if_pos (by rw [hnil, List.take_nil])]
    · rw [if_neg hnil, if_neg fun h => (List.take_eq_nil_iff.1 h).elim hne hnil]

/-- From a block on of which a part is skipped, to the end of the file. -/
theorem run_rawPart {n fuel : Nat} {s : NwaState} (h0 : 0 ≤ s.curblock) (hn : s.curblock + n + 1 = h.blocks)
    {part : Nat} (hskip : s.skipCount = part) (hpos : 0 < part) (hlt : part * h.channels < 65536)
    (hlast : n * (65536 * h.byps) < s.file.rest.length) (hall : s.file.rest.length ≤ (n + 1) * (65536 * h.byps))
    (hfuel : n + 1 < fuel) :
    (chunks (run h.turn fuel s).1).flatten = s.file.rest.drop (part * h.channels * h.byps) ∧
      n + 1 ≤ (results (run h.turn fuel s).1).length ∧ ∃ file, (run h.turn fuel s).2 = some (.returned file) := by
  obtain ⟨fuel, rfl⟩ : ∃ m, fuel = m + 1 := ⟨fuel - 1, by omega⟩
  -- what the skipped part and the rest of its block come to
  have hblock : part * h.channels * h.byps + (65536 - part * h.channels) * h.byps = 65536 * h.byps := by
    rw [← Nat.add_mul, Nat.add_sub_of_le (Nat.le_of_lt hlt)]
  obtain ⟨s', w, hcur, hskip', hrest, hturn⟩ :=
    turn_rawPart hraw hch hbps hsize h0 (by omega) hskip hpos hlt rfl rfl
  rw [Nat.succ_mul] at hall
  rw [hblock] at hrest
  generalize part * h.channels * h.byps = skip at hblock hturn ⊢
  generalize (65536 - part * h.channels) * h.byps = left at hblock hturn
  by_cases hnil : s.file.rest.drop skip = []
  · -- all the samples are skipped: the block is the last one
    have hle := List.drop_eq_nil_iff.1 hnil
    have hzero : n < 1 := Nat.lt_of_mul_lt_mul_right (a := 65536 * h.byps) (by omega)
    rw [if_pos hnil] at hturn
    rw [run_halt hturn, hnil]
    exact ⟨rfl, Nat.succ_le_succ (Nat.le_of_lt_succ hzero), s'.file, rfl⟩
  · rw [if_neg hnil] at hturn
    rw [run_more hturn]
    obtain ⟨hrun, hcalls, file, hfile⟩ :=
      run_rawBlocks hraw hch hbps hsize n fuel (s := s') (by omega) (by omega) hskip' (by omega)
    rw [hrest, List.length_drop] at hcalls
    refine ⟨?_, Nat.succ_le_succ (hcalls (by omega)), file, hfile⟩
    have hbehind : (s.file.rest.drop (65536 * h.byps)).take (n * (65536 * h.byps)) =
        (s.file.rest.drop skip).drop left := by
      rw [List.take_of_length_le (by rw [List.length_drop]; omega), List.drop_drop, hblock]
    rw [chunks_append, List.flatten_append, hrun, hrest, hbehind]
    exact (congrArg (· ++ _) (List.append_nil _)).trans (List.take_append_drop _ _)

/-- A whole block is skipped with nothing left to skip behind it: the read of no bytes reads all that is left of
the file, and goes wrong where that is more than a block. -/
theorem turn_rawWhole {s : NwaState} (h0 : 0 ≤ s.curblock) (hlt : s.curblock < h.blocks) {part : Nat}
    (hskip : s.skipCount = part) (hpart : part * h.channels = 65536) (hfile : s.file.fileSize = s.file.data.length)
    (hin : s.file.position + 65536 * h.byps < s.file.data.length) (hsmall : s.file.data.length < 2 ^ 32)
    {tail : List UInt8} (htail : tail = s.file.rest.drop (65536 * h.byps)) :
    (tail.length ≤ 65536 * h.byps → ∃ s' n, s'.curblock = s.curblock + 1 ∧ s'.skipCount = 0 ∧ s'.file.rest = [] ∧
      h.turn s = .more [.write n, .ret n, .chunk tail] s') ∧
    (65536 * h.byps < tail.length → ∃ n err, h.turn s = .halt [.write n, .ret err] .fault) := by
  have hpos : 0 < part := Nat.pos_of_ne_zero fun h => by rw [h, Nat.zero_mul] at hpart; cases hpart
  have hd := decode_rawPart hraw hch hbps hsize h0 hlt hskip hpos (Nat.le_of_eq hpart) rfl rfl
  rw [hpart, Nat.sub_self, Nat.zero_mul] at hd
  have hrest : (s.file.seek (s.file.position + 65536 * h.byps : Nat)).rest = tail := by
    rw [NtFileDisk.seek_forward, htail]
  have hfull : tail.length ≤ (s.file.seek (s.file.position + 65536 * h.byps : Nat)).fileSize % 2 ^ 32 := by
    rw [NtFileDisk.seek_inside (by omega), htail, List.length_drop, NtFileDisk.rest, List.length_drop]
    show _ ≤ s.file.fileSize % 2 ^ 32
    omega
  generalize s.file.seek (s.file.position + 65536 * h.byps : Nat) = file at hd hrest hfull
  obtain ⟨hbytes, hbehind⟩ := NtFileDisk.read_zero (hrest ▸ hfull)
  rw [hrest] at hbytes
  rw [hbytes] at hd
  have hne : tail ≠ [] := by
    rw [htail, NtFileDisk.rest, List.drop_drop]
    exact List.ne_nil_of_length_pos (by rw [List.length_drop]; omega)
  constructor
  · intro hle
    refine ⟨{ s with
      data := overlay s.data tail
      file := (file.read 0).2
      skipCount := 0
      curblock := s.curblock + 1 }, tail.length, rfl, rfl, hbehind, ?_⟩
    rw [turn_rawRead hraw hbps hsize hd rfl hle, if_neg hne]
  · intro hlt
    have hover : ¬ h.Fits (.write tail.length) := by
      have hlen := blockLength_raw hraw hsize hbps
      show ¬ (tail.length : Int) ≤ h.blockLength
      omega
    refine ⟨tail.length, i32 tail.length, ?_⟩
    unfold turn
    simp only [hd]
    rw [if_neg fun hall => hover (hall _ (by simp))]
    rfl

/-- From a block on that is skipped to its last sample: right where a single block is left behind it. -/
theorem run_rawWhole {n fuel : Nat} {s : NwaState} (h0 : 0 ≤ s.curblock) (hn : s.curblock + n + 1 = h.blocks)
    {part : Nat} (hskip : s.skipCount = part) (hpart : part * h.channels = 65536)
    (hfile : s.file.fileSize = s.file.data.length)
    (hin : s.file.position + 65536 * h.byps < s.file.data.length) (hsmall : s.file.data.length < 2 ^ 32)
    (hlast : n * (65536 * h.byps) < s.file.rest.length) (hfuel : n + 1 < fuel) :
    (chunks (run h.turn fuel s).1).flatten = s.file.rest.drop (65536 * h.byps) ∧
        n + 1 ≤ (results (run h.turn fuel s).1).length ∧ (∃ file, (run h.turn fuel s).2 = some (.returned file)) ↔
      s.file.rest.length ≤ 2 * (65536 * h.byps) := by
  obtain ⟨fuel, rfl⟩ : ∃ m, fuel = m + 1 := ⟨fuel - 1, by omega⟩
  obtain ⟨hfit, hover⟩ := turn_rawWhole hraw hch hbps hsize h0 (by omega) hskip hpart hfile hin hsmall rfl
  rw [List.length_drop] at hfit hover
  constructor
  · rintro ⟨hbytes, -⟩
    by_contra hlong
    obtain ⟨w, err, hturn⟩ := hover (by omega)
    rw [run_halt hturn] at hbytes
    have hnil := List.drop_eq_nil_iff.1 hbytes.symm
    omega
  · intro hshort
    obtain ⟨s', w, hcur, hskip', hrest, hturn⟩ := hfit (by omega)
    have hone : n * (65536 * h.byps) < 2 * (65536 * h.byps) := Nat.lt_of_lt_of_le hlast hshort
    obtain ⟨hrun, hcalls, hreturn⟩ :=
      run_rawBlocks hraw hch hbps hsize n fuel (s := s') (by omega) (by omega) hskip' (by omega)
    rw [hrest, List.length_nil] at hcalls
    rw [hrest, List.take_nil] at hrun
    rw [run_more hturn]
    constructor
    · rw [chunks_append, List.flatten_append, hrun, List.append_nil]
      exact List.append_nil _
    · exact ⟨Nat.succ_le_succ (hcalls (by rw [Nat.zero_add]; exact hone)), hreturn⟩

end Raw

theorem skipFile_const {file : NtFileDisk} {size : Nat} : ∀ {m : Nat}, file.position + m * size ≤ file.fileSize →
    skipFile (fun _ => (size : Int)) file m = { file with position := file.position + m * size }
  | 0, _ => by
    rw [Nat.zero_mul]
    rfl
  | m + 1, h => by
    rw [Nat.succ_mul, ← Nat.add_assoc] at h ⊢
    rw [skipFile, skipFile_const (by omega)]
    exact NtFileDisk.seek_inside (f := { file with position := file.position + m * size }) h

end NwaData

/-- A raw file that holds its data and nothing else, opened: full blocks of data and one that is not full. -/
structure RawFile (h : NwaData) (file' : NtFileDisk) (full part : Nat) : Prop where
  blocks : h.blocks = full + 1
  samplecount : h.samplecount = full * 65536 + part
  bound : 0 < part ∧ part < 65536
  byps : h.byps = 1 ∨ h.byps = 2
  length : file'.rest.length = (full * 65536 + part) * h.byps
  start : file'.seek h.rawStart = file'
  position : file'.position + file'.rest.length = file'.data.length
  size : file'.fileSize = file'.data.length ∧ file'.data.length < 2 ^ 32

/-- The file behind `m` full blocks: the data that is left, and the blocks that it takes. -/
theorem RawFile.behind {h : NwaData} {file file' : NtFileDisk} {full part m : Nat} (hf : RawFile h file' full part)
    (hm : m ≤ full) (hfile : file = { file' with position := file'.position + m * (65536 * h.byps) }) :
    file.rest = file'.rest.drop (m * (65536 * h.byps)) ∧ file.rest.length = ((full - m) * 65536 + part) * h.byps ∧
      (full - m) * (65536 * h.byps) < file.rest.length ∧ file.rest.length ≤ (full - m + 1) * (65536 * h.byps) := by
  have hbound := hf.bound
  have hrest : file.rest = file'.rest.drop (m * (65536 * h.byps)) := by
    rw [hfile, NtFileDisk.rest, NtFileDisk.rest, List.drop_drop]
  have hlen : file.rest.length = ((full - m) * 65536 + part) * h.byps := by
    rw [hrest, List.length_drop, hf.length]
    rcases hf.byps with hb | hb <;> rw [hb] <;> omega
  refine ⟨hrest, hlen, ?_, ?_⟩
  · rcases hf.byps with hb | hb <;> rw [hb] at hlen ⊢ <;> omega
  · rcases hf.byps with hb | hb <;> rw [hb] at hlen ⊢ <;> omega

section RawFile

variable {junk : Junk} {data : List UInt8} {inSize : Int} {h : NwaData} {file' : NtFileDisk}
  (hr : NwaData.readHeader junk (.openFile data) inSize = some (h, file')) (hraw : h.complevel = -1)
  (hc : h.checkHeader) (hfull : (file'.rest.length : Int) = h.datasize)
include hr hraw hc hfull

theorem rawFile_of_checkHeader : ∃ full part, RawFile h file' full part := by
  have hh := NwaData.rawHeader_of_checkHeader hr hraw hc
  have hrest := hh.restsize
  have hblocks := hh.blocks
  have hsize := hh.datasize
  have hlt := hh.datasize_lt
  have hpos := hh.datasize_bounds.1
  have hsamples := (NwaData.checked_of_checkHeader hc).samplecount
  rw [hh.blocksize] at hsamples
  -- the header is read whole: there is data behind it
  have hfile : file' = ⟨data, data.length, 44⟩ := by
    have hlen := NtFileDisk.read_rest (.openFile data) (show 0x2c ≠ 0 by decide)
    rw [← hh.file] at hlen
    rw [hlen, List.length_drop] at hfull
    have htake : ((NtFileDisk.openFile data).rest.take 0x2c).length = 44 := by
      rw [List.length_take]
      omega
    rw [hh.file, NtFileDisk.read_eq _ (by decide), htake]
    rfl
  have hstart : h.rawStart = (44 : Nat) := by
    have hzero : i32 (NtFileDisk.openFile data).position = 0 := by
      show i32 (0 : Nat) = 0
      exact i32_eq (by decide) (by decide)
    rw [NwaData.rawStart, hh.start, hzero, if_neg (by decide)]
    exact i32_eq (by decide) (by decide)
  have hlen : file'.rest.length = data.length - 44 := by
    rw [hfile]
    exact List.length_drop
  refine ⟨(h.blocks - 1).toNat, h.restsize.toNat, by omega, ?_, by omega, hh.byps_cases, ?_, ?_, ?_, ?_⟩
  · rcases hh.byps_cases with hb | hb <;> rw [hb] at hsize <;> rw [hsamples, i32_eq (by omega) (by omega)] <;> omega
  · rcases hh.byps_cases with hb | hb <;> rw [hb] at hsize ⊢ <;> omega
  · rw [hstart, hfile]
    exact NtFileDisk.seek_inside (show 44 ≤ data.length by omega)
  · rw [hlen, hfile]
    show 44 + (data.length - 44) = data.length
    omega
  · rw [hfile]
    exact ⟨rfl, show data.length < 2 ^ 32 by omega⟩

/-- The WAV header is written: what follows is a run from the first block on. -/
theorem convertNwaToWavSkip_raw (k : Nat) : ∃ s : NwaState, s.curblock = 0 ∧ s.file = file' ∧ s.skipCount = k ∧
    pcmBytes (convertNwaToWavSkip junk (.openFile data) k inSize).1 =
      (chunks (run h.turn (h.blocks.toNat + k + 1) s).1).flatten ∧
    (results (convertNwaToWavSkip junk (.openFile data) k inSize).1).length =
      (results (run h.turn (h.blocks.toNat + k + 1) s).1).length + 1 ∧
    (convertNwaToWavSkip junk (.openFile data) k inSize).2 = (run h.turn (h.blocks.toNat + k + 1) s).2 := by
  obtain ⟨full, part, hf⟩ := rawFile_of_checkHeader hr hraw hc hfull
  have hch := NwaData.checked_of_checkHeader hc
  have hsize := (NwaData.readHeader_raw hr hraw).1
  have hlen := NwaData.blockLength_raw hraw hsize hch.bps
  have htmp : ¬ h.hasTmpdata := fun htmp => NwaData.compressed_of_tmpdata htmp hraw
  refine ⟨{ h.decodeHeader ⟨-1, junk.tmpdata, junk.data, file', k⟩ with file := file' }, rfl, rfl, rfl, ?_⟩
  have hconv : convertNwaToWavSkip junk (.openFile data) k inSize =
      run h.turn (h.blocks.toNat + k + 1 + 1) ⟨-1, junk.tmpdata, junk.data, file', k⟩ := by
    rw [convertNwaToWavSkip, hr]
    exact if_neg fun hno => hno.elim (fun hno => htmp hno.1) (by omega)
  have hturn := NwaData.turn_rawHeader (s := ⟨-1, junk.tmpdata, junk.data, file', k⟩) hraw
      (NwaData.room_raw hr hraw) rfl
  rw [hf.start] at hturn
  rw [hconv, run_more hturn]
  exact ⟨h.pcmBytes_header _, h.results_header _, rfl⟩

/-- Nothing skipped: all the data. -/
theorem pcmBytes_raw : pcmBytes (convertNwaToWav junk (.openFile data) inSize).1 = file'.rest ∧
    h.blocks + 1 ≤ (results (convertNwaToWav junk (.openFile data) inSize).1).length ∧
    ∃ file, (convertNwaToWav junk (.openFile data) inSize).2 = some (.returned file) := by
  obtain ⟨full, part, hf⟩ := rawFile_of_checkHeader hr hraw hc hfull
  have hch := NwaData.checked_of_checkHeader hc
  have hblocks := hf.blocks
  obtain ⟨s, hcur, hfile, hskip, hbytes, hcalls, hstop⟩ := convertNwaToWavSkip_raw hr hraw hc hfull 0
  rw [Nat.cast_zero, convertNwaToWavSkip_zero] at hbytes hcalls hstop
  obtain ⟨hrun, hturns, hreturn⟩ :=
    NwaData.run_rawBlocks hraw hch.channels hch.bps (NwaData.readHeader_raw hr hraw).1 (full + 1)
    (h.blocks.toNat + 0 + 1) (s := s) (by omega) (by omega) hskip (by omega)
  rw [hfile] at hrun hturns
  have hlen : file'.rest.length ≤ (full + 1) * (65536 * h.byps) ∧
      (full + 1) * (65536 * h.byps) < file'.rest.length + 2 * (65536 * h.byps) := by
    have hbound := hf.bound
    have hlength := hf.length
    rcases hf.byps with hb | hb <;> rw [hb] at hlength ⊢ <;> omega
  rw [hbytes, hcalls, hstop, hrun, List.take_of_length_le hlen.1]
  exact ⟨rfl, by have := hturns hlen.2; omega, hreturn⟩

/-- In front of the block in which the skipping ends: `m` blocks are skipped whole, and `left` frames are left. -/
theorem convertNwaToWavSkip_rawAt {full part : Nat} (hf : RawFile h file' full part) {m left : Nat} (hm : m ≤ full)
    (hleft : 0 < left) (hsmall : m * (65536 / h.channels) + left < 2 ^ 31) :
    ∃ s : NwaState, s.curblock = m ∧ s.skipCount = left ∧
      s.file = { file' with position := file'.position + m * (65536 * h.byps) } ∧
      ∃ fuel, full - m + 1 < fuel ∧
        pcmBytes (convertNwaToWavSkip junk (.openFile data) (m * (65536 / h.channels) + left : Nat) inSize).1 =
          (chunks (run h.turn fuel s).1).flatten ∧
        (results (convertNwaToWavSkip junk (.openFile data) (m * (65536 / h.channels) + left : Nat) inSize).1).length =
          (results (run h.turn fuel s).1).length + m + 1 ∧
        (convertNwaToWavSkip junk (.openFile data) (m * (65536 / h.channels) + left : Nat) inSize).2 =
          (run h.turn fuel s).2 := by
  have hch := NwaData.checked_of_checkHeader hc
  have hsize := (NwaData.readHeader_raw hr hraw).1
  have hblocks := hf.blocks
  have hbytes : h.blockBytes = (65536 * h.byps : Nat) := by
    rcases hf.byps with hb | hb <;> rw [NwaData.blockBytes, hsize, hb] <;> exact i32_eq (by decide) (by decide)
  have hfiles : NwaData.skipFile (fun _ => h.blockBytes) file' m =
      { file' with position := file'.position + m * (65536 * h.byps) } := by
    rw [hbytes]
    refine NwaData.skipFile_const ?_
    have hposition := hf.position
    have hfull' := hf.size.1
    have hlength := hf.length
    rcases hf.byps with hb | hb <;> rw [hb] at hlength ⊢ <;> omega
  obtain ⟨s, hcur, hfile, hskip, hpcm, hcalls, hstop⟩ :=
    convertNwaToWavSkip_raw hr hraw hc hfull (m * (65536 / h.channels) + left)
  obtain ⟨fuel, hfuel, hlt⟩ : ∃ fuel, h.blocks.toNat + (m * (65536 / h.channels) + left) + 1 = m + fuel ∧
      full - m + 1 < fuel := by
    refine ⟨h.blocks.toNat + (m * (65536 / h.channels) + left) + 1 - m, ?_, ?_⟩ <;>
      rcases hch.channels with hc' | hc' <;> rw [hc'] <;> omega
  obtain ⟨s', hs', hrun⟩ := NwaData.run_skips (fun _ => h.blockBytes) file' m
    (fun k s _ hs hskip => NwaData.decode_rawSkip hraw hch.channels (by have := hs.curblock; omega)
      (by rw [NwaData.rawFrames hch.channels hsize]; exact hskip))
    (NwaData.rawFrames hch.channels hsize) hleft fuel (k := 0) (Nat.le_of_eq (Nat.zero_add m)) hsmall
    ⟨hcur, hfile, hskip⟩
  rw [hfuel, hrun] at hpcm hcalls hstop
  refine ⟨s', ?_, hs'.skipCount, ?_, fuel, hlt, ?_, ?_, hstop⟩
  · rw [hs'.curblock, Nat.zero_add]
  · rw [hs'.file, Nat.zero_add, hfiles]
  · rw [hpcm, chunks_append, chunks_replicate, List.nil_append]
  · rw [hcalls, results_append, results_replicate, List.length_append, List.length_replicate]
    omega

/-- Raw data: right unless the skipping ends where a block does, with more than a block behind it. -/
theorem dropsFrames_raw_iff {k : Nat} (hk : (k * h.channels : Nat) ≤ h.samplecount) :
    h.DropsFrames junk (.openFile data) inSize k ↔
      k = 0 ∨ ¬ 65536 / h.channels ∣ k ∨ h.samplecount - (k * h.channels : Nat) ≤ 65536 := by
  obtain ⟨full, part, hf⟩ := rawFile_of_checkHeader hr hraw hc hfull
  obtain ⟨hpcm, hcalls, hreturn⟩ := pcmBytes_raw hr hraw hc hfull
  rcases Nat.eq_zero_or_pos k with rfl | hpos
  · rw [NwaData.DropsFrames, Nat.cast_zero, convertNwaToWavSkip_zero, Nat.zero_mul, Nat.zero_mul]
    exact ⟨fun _ => .inl rfl, fun _ => ⟨rfl, hcalls, hreturn⟩⟩
  have hch := NwaData.checked_of_checkHeader hc
  have hsize := (NwaData.readHeader_raw hr hraw).1
  have hblocks := hf.blocks
  have hsamples := hf.samplecount
  have hbound := hf.bound
  have hlength := hf.length
  have hF : 0 < 65536 / h.channels ∧ 65536 / h.channels * h.channels = 65536 := by
    rcases hch.channels with hc' | hc' <;> rw [hc'] <;> decide
  obtain ⟨m, left, hleft, hle, rfl⟩ : ∃ m left, 0 < left ∧ left ≤ 65536 / h.channels ∧
      k = m * (65536 / h.channels) + left := by
    refine ⟨(k - 1) / (65536 / h.channels), (k - 1) % (65536 / h.channels) + 1, Nat.succ_pos _, Nat.mod_lt _ hF.1, ?_⟩
    have := Nat.div_add_mod' (k - 1) (65536 / h.channels)
    omega
  have hskipped : (m * (65536 / h.channels) + left) * h.channels = m * 65536 + left * h.channels := by
    rw [Nat.add_mul, Nat.mul_assoc, hF.2]
  rw [hskipped] at hk ⊢
  have hm : m ≤ full := by omega
  obtain ⟨s, hcur, hskip, hfile, fuel, hfuel, hbytes, hresults, hstop⟩ :=
    convertNwaToWavSkip_rawAt hr hraw hc hfull hf hm hleft (by
      have hup : h.samplecount < 2 ^ 31 := hch.samplecount ▸ i32_upper _
      have hmul : (m * (65536 / h.channels) + left) * 1 ≤ (m * (65536 / h.channels) + left) * h.channels :=
        Nat.mul_le_mul_left _ (by have := hch.channels; omega)
      omega)
  obtain ⟨hrest, hlen, hlast, hall⟩ := hf.behind hm hfile
  rw [NwaData.DropsFrames, hbytes, hresults, hstop, hpcm, hskipped, Nat.add_mul, Nat.mul_assoc m,
    ← List.drop_drop, ← hrest]
  rcases Nat.lt_or_eq_of_le hle with hlt | rfl
  · -- a part of a block
    have hlt' : left * h.channels < 65536 := hF.2 ▸ Nat.mul_lt_mul_of_pos_right hlt (by have := hch.channels; omega)
    obtain ⟨hrun, hturns, hreturn⟩ :=
      NwaData.run_rawPart hraw hch.channels hch.bps hsize (n := full - m) (by omega) (by omega) hskip
      hleft hlt' hlast hall hfuel
    have hno : ¬ 65536 / h.channels ∣ m * (65536 / h.channels) + left := by
      rw [Nat.dvd_add_right (Nat.dvd_mul_left _ m)]
      exact fun hdvd => absurd (Nat.le_of_dvd hleft hdvd) (Nat.not_le.2 hlt)
    exact ⟨fun _ => .inr (.inl hno), fun _ => ⟨hrun, by omega, hreturn⟩⟩
  · -- a whole block
    rw [hF.2] at hk ⊢
    have hin : s.file.position + 65536 * h.byps < s.file.data.length := by
      have hposition := hf.position
      rw [hfile]
      show file'.position + m * (65536 * h.byps) + 65536 * h.byps < file'.data.length
      rcases hf.byps with hb | hb <;> rw [hb] at hlength ⊢ <;> omega
    have hwhole := NwaData.run_rawWhole hraw hch.channels hch.bps hsize (n := full - m) (by omega) (by omega) hskip hF.2
      (by rw [hfile]; exact hf.size.1) hin (by rw [hfile]; exact hf.size.2) hlast hfuel
    rw [hlen] at hwhole
    have hdvd : 65536 / h.channels ∣ m * (65536 / h.channels) + 65536 / h.channels :=
      Nat.dvd_add (Nat.dvd_mul_left _ m) (Nat.dvd_refl _)
    constructor
    · rintro ⟨hrun, hturns, hreturn⟩
      have hshort := hwhole.1 ⟨hrun, by omega, hreturn⟩
      right
      right
      rcases hf.byps with hb | hb <;> rw [hb] at hshort <;> omega
    · rintro (hzero | hno | hshort)
      · omega
      · exact absurd hdvd hno
      · obtain ⟨hrun, hturns, hreturn⟩ := hwhole.2 (by rcases hf.byps with hb | hb <;> rw [hb] <;> omega)
        exact ⟨hrun, by omega, hreturn⟩

end RawFile

end SiglusExtract.Nwa
