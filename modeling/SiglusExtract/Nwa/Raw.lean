/-
Uncompressed NWA data (nwa2wav.cpp): `ReadHeader` derives its blocks from the size of the data, and `Decode`
reads every one of them whole. So the last block, which is never full, takes what follows the data in a
larger file along.
-/
import SiglusExtract.Nwa.Safety
import Mathlib.Tactic.Ring

namespace SiglusExtract.Nwa

open Bytes CInt Machine

namespace NwaData

/-! ## The blocks of raw data -/

/-- What `CheckHeader` makes sure of for sizes that `ReadHeader` has derived: the last block is there and is
not full. -/
theorem rawSizes_checked {byps : Nat} (hb : byps = 1 ∨ byps = 2) {d samples restsize blocks : Int}
    (hlow : -2 ^ 31 ≤ d) (hup : d < 2 ^ 31) (hrest : restsize = (d.tmod (65536 * byps)).tdiv byps)
    (hblocks : blocks = d.tdiv (65536 * byps) + if restsize > 0 then 1 else 0) (hd : d = i32 (samples * byps))
    (hs : samples = i32 ((blocks - 1) * 65536 + restsize)) :
    0 < restsize ∧ restsize < 65536 ∧ 0 < blocks ∧ d = ((blocks - 1) * 65536 + restsize) * byps := by
  have hd' := i32_emod (samples * byps)
  have hs' := i32_emod ((blocks - 1) * 65536 + restsize)
  rw [← hd] at hd'
  rw [← hs] at hs'
  rcases Int.eq_nat_or_neg d with ⟨e, rfl | rfl⟩
  · rw [Int.tmod_eq_emod_of_nonneg (by omega), Int.tdiv_eq_ediv_of_nonneg (by
      exact Int.emod_nonneg _ (by omega))] at hrest
    rw [Int.tdiv_eq_ediv_of_nonneg (by omega)] at hblocks
    rcases hb with rfl | rfl <;> split at hblocks <;> omega
  · rw [Int.neg_tmod, Int.neg_tdiv, Int.tmod_eq_emod_of_nonneg (by omega), Int.tdiv_eq_ediv_of_nonneg (by
      exact Int.emod_nonneg _ (by omega))] at hrest
    rw [Int.neg_tdiv, Int.tdiv_eq_ediv_of_nonneg (by omega)] at hblocks
    rcases hb with rfl | rfl <;> split at hblocks <;> omega

/-- An accepted header of raw data: the sizes, and where the data begins. -/
structure RawHeader (h : NwaData) (file file' : NtFileDisk) : Prop where
  complevel : h.complevel = -1
  channels : h.channels = 1 ∨ h.channels = 2
  bps : h.bps = 8 ∨ h.bps = 16
  blocksize : h.blocksize = 65536
  restsize : 0 < h.restsize ∧ h.restsize < 65536
  blocks : 0 < h.blocks
  datasize : h.datasize = ((h.blocks - 1) * 65536 + h.restsize) * h.byps
  datasize_lt : h.datasize < 2 ^ 31
  start : h.offsetStart = if i32 file.position = -1 then 0 else i32 file.position
  file : file' = (file.read 0x2c).2

/-- Raw data has no table of offsets: the file stands behind the header. -/
theorem readHeader_rawFile {junk : Junk} {file file' : NtFileDisk} {inSize : Int} {h : NwaData}
    (hr : readHeader junk file inSize = some (h, file')) (hraw : h.complevel = -1) :
    file' = (file.read 0x2c).2 ∧ ∃ m start size h₀ filesize,
      start = (if i32 file.position = -1 then 0 else i32 file.position) ∧
        (ofHeader m start size).rawSizes = some h₀ ∧ h = { h₀ with filesize } := by
  unfold readHeader at hr
  rw [Option.bind_eq_bind, Option.bind_eq_some_iff] at hr
  obtain ⟨h₀, h0, hr⟩ := hr
  have htable : ∀ h₁ : NwaData, h₁ = { h₀ with filesize := h₁.filesize } →
      some (readOffsets junk h₁ (file.read 0x2c).2) = some (h, file') →
      file' = (file.read 0x2c).2 ∧ ∃ filesize, h = { h₀ with filesize } := by
    intro h₁ h1 hr
    rw [Option.some.injEq] at hr
    by_cases hl : h₁.complevel = -1
    · rw [readOffsets, if_pos hl, Prod.mk.injEq] at hr
      exact ⟨hr.2.symm, h₁.filesize, hr.1 ▸ h1⟩
    · obtain ⟨o, ho, -⟩ := readOffsets_fields junk h₁ (file.read 0x2c).2
      rw [hr] at ho
      exact absurd ((congrArg NwaData.complevel ho).symm.trans hraw) hl
  suffices hsame : file' = (file.read 0x2c).2 ∧ ∃ filesize, h = { h₀ with filesize } by
    obtain ⟨hfile, filesize, hh⟩ := hsame
    exact ⟨hfile, _, _, _, h₀, filesize, rfl, h0, hh⟩
  split at hr
  · cases hr
    exact ⟨rfl, _, rfl⟩
  · split at hr
    · exact htable h₀ rfl hr
    · dsimp only at hr
      split at hr
      · cases hr
        exact ⟨rfl, _, rfl⟩
      · exact htable _ rfl hr

/-- Where the data of a raw file begins. -/
theorem readHeader_rawStart {junk : Junk} {file file' : NtFileDisk} {inSize : Int} {h : NwaData}
    (hr : readHeader junk file inSize = some (h, file')) (hraw : h.complevel = -1) :
    file' = (file.read 0x2c).2 ∧ h.offsetStart = if i32 file.position = -1 then 0 else i32 file.position := by
  obtain ⟨hfile, m, start, size, h₀, filesize, hstart, h0, rfl⟩ := readHeader_rawFile hr hraw
  obtain ⟨_, _, _, rfl⟩ := rawSizes_fields h0
  exact ⟨hfile, hstart⟩

theorem readHeader_rawOffsets {junk : Junk} {file file' : NtFileDisk} {inSize : Int} {h : NwaData}
    (hr : readHeader junk file inSize = some (h, file')) (hraw : h.complevel = -1) : h.offsets = none := by
  obtain ⟨-, m, start, size, h₀, filesize, -, h0, rfl⟩ := readHeader_rawFile hr hraw
  obtain ⟨_, _, _, rfl⟩ := rawSizes_fields h0
  rfl

theorem intAt_bounds (m : Nat → UInt8) (p : Nat) : -2 ^ 31 ≤ intAt m p ∧ intAt m p < 2 ^ 31 := by
  unfold intAt
  exact ⟨i32_lower _, i32_upper _⟩

theorem rawHeader_of_checkHeader {junk : Junk} {file file' : NtFileDisk} {inSize : Int} {h : NwaData}
    (hr : readHeader junk file inSize = some (h, file')) (hraw : h.complevel = -1) (hc : h.checkHeader) :
    h.RawHeader file file' := by
  have hch := checked_of_checkHeader hc
  have hsize := (readHeader_raw hr hraw).1
  have hbyps : h.byps = 1 ∨ h.byps = 2 := by
    have := hch.bps
    unfold byps
    omega
  obtain ⟨hfile, m, start, size, h₀, filesize, hstart, h0, rfl⟩ := readHeader_rawFile hr hraw
  have hdata := intAt_bounds m 0x14
  have hsamples := hch.samplecount
  rw [hsize] at hsamples
  unfold rawSizes at h0
  rw [if_neg (not_not.2 (by
    obtain ⟨_, _, _, rfl⟩ := rawSizes_fields h0
    exact hraw))] at h0
  split at h0
  · cases h0
  · rw [Option.some.injEq] at h0
    subst h0
    obtain ⟨hpos, hlt, hblocks, heq⟩ := rawSizes_checked hbyps hdata.1 hdata.2 rfl rfl hch.datasize hsamples
    exact ⟨hraw, hch.channels, hch.bps, rfl, ⟨hpos, hlt⟩, hblocks, heq, hdata.2, hstart, hfile⟩

/-- Where the seek behind the header goes to. -/
def rawStart (h : NwaData) : Int := i32 (h.offsetStart + 0x2c)

/-! ## Block by block -/

/-- A block of raw data has room for the WAV header. -/
theorem room_raw {junk : Junk} {file file' : NtFileDisk} {inSize : Int} {h : NwaData}
    (hr : readHeader junk file inSize = some (h, file')) (hraw : h.complevel = -1) : 44 ≤ h.blockLength := by
  obtain ⟨hsize, hbyps, hup, -⟩ := readHeader_raw hr hraw
  have hlt : h.byps < 2 ^ 13 := Nat.div_lt_of_lt_mul hup
  rw [blockLength, if_neg (fun hno => hno.1 hraw), blockBytes, hsize, i32_eq (by omega) (by omega)]
  omega

/-- The WAV header. -/
theorem turn_rawHeader {h : NwaData} (hraw : h.complevel = -1) (hlen : 44 ≤ h.blockLength) {s : NwaState}
    (hs : s.curblock = -1) : h.turn s = .more [.write 0x2c, .ret 0x2c, .chunk h.wavheader]
      { h.decodeHeader s with file := s.file.seek h.rawStart } := by
  apply turn_header hlen (decode_rawHeader hraw hs)
  dsimp only
  rw [decodeHeader_data]

section Raw

variable {h : NwaData} (hraw : h.complevel = -1) (hch : h.channels = 1 ∨ h.channels = 2) (hbps : h.bps = 8 ∨ h.bps = 16)
  (hsize : h.blocksize = 65536)
include hraw hch hbps hsize

omit hch in
/-- Bytes read straight into the caller's buffer: they are passed on, and no bytes end the loop. -/
theorem turn_rawRead {s s' : NwaState} {bytes : List UInt8}
    (hd : h.decode s = some ([.write bytes.length], i32 bytes.length, s')) (hdata : s'.data = overlay s.data bytes)
    (hle : bytes.length ≤ 65536 * h.byps) : h.turn s =
      if bytes = [] then .halt [.write bytes.length, .ret bytes.length] (.returned s'.file)
      else .more [.write bytes.length, .ret bytes.length, .chunk bytes] s' := by
  have hbyps : h.byps = 1 ∨ h.byps = 2 := by
    unfold byps
    omega
  have hlen := blockLength_raw hraw hsize hbps
  rw [i32_eq (by omega) (by omega)] at hd
  have hfits : ∀ e ∈ [Event.write bytes.length], h.Fits e := by
    intro e he
    rw [List.mem_singleton.1 he]
    show (bytes.length : Int) ≤ h.blockLength
    omega
  by_cases hnil : bytes = []
  · subst hnil
    rw [if_pos rfl, turn_return hd hfits (by omega)]
    rfl
  · have hpos := List.length_pos_iff.2 hnil
    rw [if_neg hnil, turn_chunk hd hfits (by omega) (by omega), hdata, Int.toNat_natCast, bytesAt_overlay]
    rfl

/-- A block: as much of it as the file has, and no more turns where the file is at its end. -/
theorem turn_rawBlock {s : NwaState} (h0 : 0 ≤ s.curblock) (hlt : s.curblock < h.blocks) (hskip : s.skipCount = 0) :
    ∃ s' n, s'.curblock = s.curblock + 1 ∧ s'.skipCount = 0 ∧ s'.file.rest = s.file.rest.drop (65536 * h.byps) ∧
      h.turn s =
        if s.file.rest = [] then .halt [.write n, .ret n] (.returned s'.file)
        else .more [.write n, .ret n, .chunk (s.file.rest.take (65536 * h.byps))] s' := by
  have hbyps : h.byps = 1 ∨ h.byps = 2 := by
    unfold byps
    omega
  have hbytes : (s.file.read (65536 * h.byps)).1 = s.file.rest.take (65536 * h.byps) := by
    rw [s.file.read_eq (by omega)]
  refine ⟨{ s with
    data := overlay s.data (s.file.read (65536 * h.byps)).1
    file := (s.file.read (65536 * h.byps)).2
    skipCount := 0
    curblock := s.curblock + 1 }, (s.file.read (65536 * h.byps)).1.length, rfl, rfl, s.file.read_rest (by omega), ?_⟩
  rw [turn_rawRead hraw hbps hsize (decode_rawBlock hraw (by omega) (by omega) hsize (by omega) hskip hlt) rfl
    (s.file.read_length_le _ (by omega)), hbytes]
  by_cases hnil : s.file.rest = []
  · rw [if_pos hnil, if_pos (by rw [hnil, List.take_nil])]
  · rw [if_neg hnil, if_neg fun h => (List.take_eq_nil_iff.1 h).elim (by omega) hnil]

/-- The turns from a block on: the bytes of the blocks, as far as the file has them, and then the loop stops.
Where the last block has any bytes, `Decode` is called for it. -/
theorem run_rawBlocks : ∀ (n fuel : Nat) {s : NwaState}, 0 ≤ s.curblock → s.curblock + n = h.blocks →
    s.skipCount = 0 → n < fuel →
      (chunks (run h.turn fuel s).1).flatten = s.file.rest.take (n * (65536 * h.byps)) ∧
      (n * (65536 * h.byps) < s.file.rest.length + 2 * (65536 * h.byps) → n ≤ (results (run h.turn fuel s).1).length) ∧
      ∃ file, (run h.turn fuel s).2 = some (.returned file)
  | _, 0, _, _, _, _, hfuel => absurd hfuel (Nat.not_lt_zero _)
  | 0, fuel + 1, s, h0, hn, hskip, _ => by
    rw [run_halt (turn_end (decode_rawEnd hraw (by omega) (by omega) (by omega) hskip (by omega))), Nat.zero_mul,
      List.take_zero]
    exact ⟨rfl, fun _ => Nat.zero_le _, s.file, rfl⟩
  | n + 1, fuel + 1, s, h0, hn, hskip, hfuel => by
    obtain ⟨s', w, hcur, hskip', hrest, hturn⟩ := turn_rawBlock hraw hch hbps hsize h0 (by omega) hskip
    by_cases hnil : s.file.rest = []
    · rw [if_pos hnil] at hturn
      rw [run_halt hturn, hnil, List.take_nil, List.length_nil]
      refine ⟨rfl, fun hlt => ?_, s'.file, rfl⟩
      have : n + 1 < 2 := Nat.lt_of_mul_lt_mul_right (a := 65536 * h.byps) (by omega)
      exact Nat.le_of_lt_succ this
    · rw [if_neg hnil] at hturn
      obtain ⟨ih, hcalls, file, hfile⟩ := run_rawBlocks n fuel (s := s') (by omega) (by omega) hskip' (by omega)
      rw [run_more hturn]
      refine ⟨?_, fun hlt => ?_, file, hfile⟩
      · rw [chunks_append, List.flatten_append, ih, hrest,
          show (n + 1) * (65536 * h.byps) = 65536 * h.byps + n * (65536 * h.byps) by ring, List.take_add]
        exact congrArg (· ++ _) (List.append_nil _)
      · rw [hrest, List.length_drop] at hcalls
        rw [show (n + 1) * (65536 * h.byps) = 65536 * h.byps + n * (65536 * h.byps) by ring] at hlt
        exact Nat.succ_le_succ (hcalls (by omega))

end Raw

end NwaData

/-! ## The data and what follows it -/

/-- The seek of `Decode` behind the header does not move a file that stands there: its target is the same
place, or negative and refused. -/
def SeeksBack (position : Nat) : Prop := position + 44 < 2 ^ 31 ∨ 2 ^ 31 ≤ (position + 44) % 2 ^ 32

instance (position : Nat) : Decidable (SeeksBack position) := inferInstanceAs (Decidable (_ ∨ _))

namespace NwaData.RawHeader

variable {h : NwaData} {file file' : NtFileDisk} (hh : h.RawHeader file file')
include hh

theorem rawStart_le : h.rawStart ≤ file.position + 44 := by
  rw [rawStart, hh.start]
  simp only [i32_def]
  split <;> split <;> omega

theorem seeksBack_iff : SeeksBack file.position ↔ h.rawStart < 0 ∨ h.rawStart = file.position + 44 := by
  rw [SeeksBack, rawStart, hh.start]
  simp only [i32_def]
  split <;> split <;> omega

theorem byps_cases : h.byps = 1 ∨ h.byps = 2 := by
  have := hh.bps
  unfold byps
  omega

/-- The blocks hold more than the data. -/
theorem datasize_bounds : 0 < h.datasize ∧ h.datasize < h.blocks * (65536 * h.byps) := by
  have hrest := hh.restsize
  have hblocks := hh.blocks
  have hsize := hh.datasize
  rcases byps_cases hh with hb | hb <;> rw [hb] at hsize ⊢ <;> omega

end NwaData.RawHeader

section Convert

variable {junk : Junk} {file file' : NtFileDisk} {inSize : Int} {h : NwaData}
  (hr : NwaData.readHeader junk file inSize = some (h, file')) (hraw : h.complevel = -1) (hc : h.checkHeader)
include hr hraw hc

/-- What is written for raw data: the WAV header, and all the bytes of the file that lie in the blocks. -/
theorem convertNwaToWav_raw : (chunks (convertNwaToWav junk file inSize).1).flatten =
    h.wavheader ++ (file'.seek h.rawStart).rest.take (h.blocks.toNat * (65536 * h.byps)) := by
  have hh := NwaData.rawHeader_of_checkHeader hr hraw hc
  have hblocks := hh.blocks
  have hlen := NwaData.blockLength_raw hraw hh.blocksize hh.bps
  have htmp : ¬ h.hasTmpdata := fun htmp => NwaData.compressed_of_tmpdata htmp hraw
  rw [convertNwaToWav_eq hr, if_neg (fun hno => hno.elim (fun hno => htmp hno.1) (by omega)),
    run_more (NwaData.turn_rawHeader hraw (NwaData.room_raw hr hraw) rfl)]
  obtain ⟨hrun, -, -⟩ := NwaData.run_rawBlocks hraw hh.channels hh.bps hh.blocksize h.blocks.toNat
    (h.blocks.toNat + 1)
    (s := { h.decodeHeader ⟨-1, junk.tmpdata, junk.data, file', 0⟩ with file := file'.seek h.rawStart })
    (by simp [NwaData.decodeHeader]) (by simp [NwaData.decodeHeader]; omega) rfl (Nat.lt_succ_self _)
  rw [chunks_append, List.flatten_append, hrun]
  exact congrArg (· ++ _) (List.append_nil _)

/-- The data of a file that has all of it: exactly that is written behind the WAV header where the file ends with
it and the seek behind the header leads there. -/
theorem convertNwaToWav_raw_iff (hcover : h.datasize ≤ file'.rest.length) :
    (chunks (convertNwaToWav junk file inSize).1).flatten = h.wavheader ++ file'.rest.take h.datasize.toNat ↔
      (file'.rest.length : Int) = h.datasize ∧ SeeksBack file.position := by
  have hh := NwaData.rawHeader_of_checkHeader hr hraw hc
  obtain ⟨hpos, hlt⟩ := hh.datasize_bounds
  have hblocks : ((h.blocks.toNat * (65536 * h.byps) : Nat) : Int) = h.blocks * (65536 * h.byps) := by
    rw [Int.natCast_mul, Int.toNat_of_nonneg (by have := hh.blocks; omega)]
    rfl
  have hposition : file'.position = file.position + 44 := by
    have hrest := file.read_rest (show 0x2c ≠ 0 by decide)
    rw [hh.file] at hcover ⊢
    rw [hrest, List.length_drop] at hcover
    rw [file.read_eq (by decide)]
    simp only [List.length_take]
    omega
  have hrest : file'.rest.length = file'.data.length - (file.position + 44) := by
    rw [NtFileDisk.rest, List.length_drop, hposition]
  rw [convertNwaToWav_raw hr hraw hc, List.append_cancel_left_eq, hh.seeksBack_iff]
  generalize h.blocks.toNat * (65536 * h.byps) = size at hblocks ⊢
  constructor
  · intro heq
    -- the blocks hold more than the data, so that what is read ends where the file does
    have hlen := congrArg List.length heq
    rw [List.length_take, List.length_take] at hlen
    have hle := hh.rawStart_le
    unfold NtFileDisk.seek at hlen
    split at hlen
    · exact ⟨by omega, .inl (by assumption)⟩
    · rw [NtFileDisk.rest, List.length_drop] at hlen
      dsimp only at hlen
      omega
  · rintro ⟨hlen, hseek⟩
    have hsame : (file'.seek h.rawStart).rest = file'.rest := by
      unfold NtFileDisk.seek
      split
      · rfl
      · rw [NtFileDisk.rest, NtFileDisk.rest, hposition, show h.rawStart.toNat = file.position + 44 by omega]
    rw [hsame, List.take_of_length_le (by omega), List.take_of_length_le (by omega)]

end Convert

/-- A mono file of 16 bits with raw data. -/
def rawFile (data : List UInt8) : List UInt8 :=
  le16 1 ++ le16 16 ++ le32 44100 ++ le32 0xFFFFFFFF ++ le32 0 ++ le32 0 ++ le32 data.length ++ le32 0 ++
    le32 (data.length / 2) ++ le32 0 ++ le32 0 ++ le32 0 ++ data

/-- One sample at the end of a file. -/
theorem convertNwaToWav_raw_one : (chunks (convertNwaToWav noJunk (.openFile (rawFile [1, 2])) (-1)).1).flatten =
    makeWavheader 2 1 16 44100 ++ [1, 2] :=
  (@convertNwaToWav_raw_iff noJunk (.openFile (rawFile [1, 2])) ⟨rawFile [1, 2], 46, 44⟩ (-1)
    ⟨1, 16, 44100, -1, 0, 1, 2, 0, 1, 65536, 1, none, 0, 46⟩ (by decide +kernel) (by decide) (by decide +kernel)
    (by decide +kernel)).2 (by decide +kernel)

/-- One sample in front of two bytes of another file: they are taken along. -/
theorem convertNwaToWav_raw_behind : ¬ ∀ (file file' : NtFileDisk) (h : NwaData),
    NwaData.readHeader noJunk file (-1) = some (h, file') → h.complevel = -1 → h.checkHeader →
      h.datasize ≤ file'.rest.length →
        (chunks (convertNwaToWav noJunk file (-1)).1).flatten = h.wavheader ++ file'.rest.take h.datasize.toNat := by
  intro hall
  have := hall (.openFile (rawFile [1, 2] ++ [3, 4])) ⟨rawFile [1, 2] ++ [3, 4], 48, 44⟩
    ⟨1, 16, 44100, -1, 0, 1, 2, 0, 1, 65536, 1, none, 0, 48⟩ (by decide +kernel) (by decide) (by decide +kernel)
    (by decide +kernel)
  exact absurd this (by decide +kernel)

end SiglusExtract.Nwa
