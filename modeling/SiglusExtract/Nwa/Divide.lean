/-
The divisions of nwa2wav.cpp and what they divide by. `ConvertNwaToWav` goes on where `CheckHeader` has
rejected the header: compressed data is refused by `Decode` then, raw data is not.
-/
import SiglusExtract.Nwa.Skip

namespace SiglusExtract.Nwa

open Bytes CInt Machine

namespace NwaData

/-! ## Divisors -/

/-- The divisors in `ReadHeader`, with the fields as they stand in the header. -/
def readHeaderDivisors (h : NwaData) : List Int :=
  if h.complevel = -1 then [8, 65536 * h.byps, 8, h.byps, 8, 65536 * h.byps] else []

/-- The divisors in `CheckHeader`. -/
def checkHeaderDivisors (h : NwaData) : List Int :=
  if h.complevel ≠ -1 ∧ h.offsets = none then []
  else if h.channels ≠ 1 ∧ h.channels ≠ 2 then []
  else if h.bps ≠ 8 ∧ h.bps ≠ 16 then []
  else if h.complevel = -1 then [8]
  else if h.complevel < 0 ∨ h.complevel > 5 then []
  else if h.filesize ≠ 0 ∧ h.filesize ≠ h.compdatasize then []
  else if h.offset (h.blocks - 1) ≥ h.compdatasize then []
  else [8]

/-- The divisors in `BlockLength`. -/
def blockLengthDivisors (h : NwaData) : List Int := if h.complevel ≠ -1 ∧ ¬ h.hasTmpdata then [] else [8]

/-- The divisors in `NWADecode`. -/
def nwaDecodeDivisors (info : NwaInfo) : List Int := [8, (info.bps / 8 : Nat)]

/-- The divisors in `Decode` for raw data. -/
def decodeRawDivisors (h : NwaData) (s : NwaState) : List Int :=
  if s.curblock = -1 then []
  else
    (h.channels : Int) ::
      if s.skipCount > h.blocksize.tdiv h.channels then [(h.channels : Int), 8]
      else if s.curblock < h.blocks then (if s.skipCount ≠ 0 then [8] else []) ++ [8]
      else []

/-- The divisors in `Decode` for compressed data. -/
def decodeCompressedDivisors (h : NwaData) (s : NwaState) : List Int :=
  if ¬ h.hasTmpdata then []
  else if h.blocks = s.curblock then []
  else if s.curblock = -1 then []
  else
    [8, 8] ++
      if s.curblock ≠ h.blocks - 1 ∧ h.blockBytes ≥ i32 (h.blockBytes * 2) then []
      else
        (h.channels : Int) ::
          if s.skipCount > h.blocksize.tdiv h.channels then [(h.channels : Int)]
          else nwaDecodeDivisors h.info ++ if s.skipCount ≠ 0 then [8] else []

/-- The divisors in `Decode`. -/
def decodeDivisors (h : NwaData) (s : NwaState) : List Int :=
  if h.complevel = -1 then h.decodeRawDivisors s else h.decodeCompressedDivisors s

/-- The fields that `ReadHeader` starts with. -/
def header (junk : Junk) (file : NtFileDisk) (fileSize : Int) : NwaData :=
  ofHeader (overlay junk.header (file.read 0x2c).1) (if i32 file.position = -1 then 0 else i32 file.position)
    (if fileSize ≠ -1 then fileSize else 0)

end NwaData

/-- `ConvertNwaToWav` divides by `d`: in the header, or in a call of `Decode`. -/
inductive Divides (junk : Junk) (file : NtFileDisk) (skipCount inSize d : Int) : Prop
  | readHeader (hd : d ∈ (NwaData.header junk file inSize).readHeaderDivisors)
  | checkHeader {h : NwaData} {file' : NtFileDisk} (hr : NwaData.readHeader junk file inSize = some (h, file'))
      (hd : d ∈ h.checkHeaderDivisors)
  | blockLength {h : NwaData} {file' : NtFileDisk} (hr : NwaData.readHeader junk file inSize = some (h, file'))
      (hd : d ∈ h.blockLengthDivisors)
  | decode {h : NwaData} {file' : NtFileDisk} (hr : NwaData.readHeader junk file inSize = some (h, file'))
      (halloc : ¬ (h.hasTmpdata ∧ h.tmpdataSize < 0 ∨ h.blockLength < 0)) {s : NwaState}
      (hs : Visits h.turn ⟨-1, junk.tmpdata, junk.data, file', skipCount⟩ s) (hd : d ∈ h.decodeDivisors s)

namespace NwaData

/-! ## Where a divisor is zero -/

/-- The header divides by zero where the sizes of raw data have no value. -/
theorem rawSizes_eq_none_iff (h : NwaData) : h.rawSizes = none ↔ 0 ∈ h.readHeaderDivisors := by
  unfold rawSizes readHeaderDivisors
  by_cases hl : h.complevel = -1
  · rw [if_neg (not_not.2 hl), if_pos hl]
    by_cases hb : h.byps = 0
    · simp [hb]
    · simp [hb]
      omega
  · simp [hl]

/-- `Decode` for raw data divides by the number of channels, and else by 8 only. -/
theorem mem_decodeRawDivisors {h : NwaData} {s : NwaState} {d : Int} (hd : d ∈ h.decodeRawDivisors s) :
    s.curblock ≠ -1 ∧ (d = h.channels ∨ d = 8) := by
  unfold decodeRawDivisors at hd
  split at hd
  · cases hd
  · next hfirst =>
    refine ⟨hfirst, ?_⟩
    rcases List.mem_cons.1 hd with rfl | hd
    · exact .inl rfl
    · split at hd
      · simpa using hd
      · split at hd
        · split at hd <;> exact .inr (by simpa using hd)
        · cases hd

/-- Compressed data comes to a division only where `CheckHeader` has accepted the header. -/
theorem mem_decodeCompressedDivisors {h : NwaData} {s : NwaState} {d : Int} (hd : d ∈ h.decodeCompressedDivisors s) :
    h.hasTmpdata ∧ (d = h.channels ∨ d = (h.info.bps / 8 : Nat) ∨ d = 8) := by
  unfold decodeCompressedDivisors at hd
  split at hd
  · cases hd
  · next hc =>
    refine ⟨not_not.1 hc, ?_⟩
    split at hd
    · cases hd
    · split at hd
      · cases hd
      · rcases List.mem_append.1 hd with hd | hd
        · exact .inr (.inr (by simpa using hd))
        · split at hd
          · cases hd
          · rcases List.mem_cons.1 hd with rfl | hd
            · exact .inl rfl
            · split at hd
              · exact .inl (List.mem_singleton.1 hd)
              · rcases List.mem_append.1 hd with hd | hd
                · simp only [nwaDecodeDivisors, List.mem_cons, List.not_mem_nil, or_false] at hd
                  exact .inr hd.symm
                · split at hd
                  · exact .inr (.inr (List.mem_singleton.1 hd))
                  · cases hd

theorem eight_of_mem_blockLengthDivisors {h : NwaData} {d : Int} (hd : d ∈ h.blockLengthDivisors) : d = 8 := by
  unfold blockLengthDivisors at hd
  split at hd
  · cases hd
  · exact List.mem_singleton.1 hd

theorem eight_of_mem_checkHeaderDivisors {h : NwaData} {d : Int} (hd : d ∈ h.checkHeaderDivisors) : d = 8 := by
  unfold checkHeaderDivisors at hd
  split at hd
  · cases hd
  · split at hd
    · cases hd
    · split at hd
      · cases hd
      · split at hd
        · exact List.mem_singleton.1 hd
        · split at hd
          · cases hd
          · split at hd
            · cases hd
            · split at hd
              · cases hd
              · exact List.mem_singleton.1 hd

/-- What of the header is read in any file. -/
theorem readHeader_kept {junk : Junk} {file file' : NtFileDisk} {inSize : Int} {h : NwaData}
    (hr : readHeader junk file inSize = some (h, file')) : h.complevel = (header junk file inSize).complevel ∧
      h.bps = (header junk file inSize).bps ∧ h.channels = (header junk file inSize).channels := by
  obtain ⟨start, size, h₀, h0, o, filesize, rfl, -⟩ := readHeader_fields hr
  obtain ⟨_, _, _, rfl⟩ := rawSizes_fields h0
  exact ⟨rfl, rfl, rfl⟩

/-- Without a division by zero in it, the header is read. -/
theorem readHeader_some {junk : Junk} {file : NtFileDisk} {inSize : Int}
    (h0 : 0 ∉ (header junk file inSize).readHeaderDivisors) :
    ∃ h file', readHeader junk file inSize = some (h, file') := by
  obtain ⟨h₀, hsizes⟩ := Option.ne_none_iff_exists'.1 (mt (rawSizes_eq_none_iff _).1 h0)
  suffices hsome : readHeader junk file inSize ≠ none by
    obtain ⟨⟨h, file'⟩, hr⟩ := Option.ne_none_iff_exists'.1 hsome
    exact ⟨h, file', hr⟩
  intro hnone
  unfold readHeader at hnone
  rw [Option.bind_eq_bind, Option.bind_eq_none_iff] at hnone
  have hend := hnone h₀ hsizes
  split at hend
  · cases hend
  · split at hend
    · cases hend
    · dsimp only at hend
      split at hend <;> cases hend

end NwaData

/-! ## The conversion -/

section Convert

variable {junk : Junk} {file : NtFileDisk} {skipCount inSize : Int}
  (hraw : (NwaData.header junk file inSize).complevel = -1)
include hraw

/-- A sample without a byte. -/
theorem divides_byps (hbps : (NwaData.header junk file inSize).bps < 8) : Divides junk file skipCount inSize 0 := by
  have hzero : (NwaData.header junk file inSize).byps = 0 := Nat.div_eq_of_lt hbps
  refine .readHeader ?_
  rw [NwaData.readHeaderDivisors, if_pos hraw, hzero]
  decide

/-- Raw data without channels: the second call of `Decode`. -/
theorem divides_channels (hbps : 8 ≤ (NwaData.header junk file inSize).bps)
    (hch : (NwaData.header junk file inSize).channels = 0) : Divides junk file skipCount inSize 0 := by
  have hpos : (NwaData.header junk file inSize).byps ≠ 0 := by
    unfold NwaData.byps
    omega
  have hsizes : 0 ∉ (NwaData.header junk file inSize).readHeaderDivisors := by
    rw [← NwaData.rawSizes_eq_none_iff, NwaData.rawSizes, if_neg (not_not.2 hraw), if_neg hpos]
    exact nofun
  obtain ⟨h, file', hr⟩ := NwaData.readHeader_some hsizes
  obtain ⟨hlevel, -, hchan⟩ := NwaData.readHeader_kept hr
  rw [← hlevel] at hraw
  rw [← hchan] at hch
  have hlen := NwaData.room_raw hr hraw
  -- the first call writes the WAV header, the second one comes to the division
  have hturn := NwaData.turn_rawHeader (s := ⟨-1, junk.tmpdata, junk.data, file', skipCount⟩) hraw hlen rfl
  refine .decode hr (fun hno => ?_) (.more hturn (.here _)) ?_
  · rcases hno with hno | hno
    · exact NwaData.compressed_of_tmpdata hno.1 hraw
    · omega
  · rw [NwaData.decodeDivisors, if_pos hraw, NwaData.decodeRawDivisors, hch]
    exact List.mem_cons_self

end Convert

/-- No division by zero, unless the header says raw data and has no channels or samples of less than a byte. -/
theorem convertNwaToWav_divides_iff (junk : Junk) (file : NtFileDisk) (skipCount inSize : Int) :
    ¬ Divides junk file skipCount inSize 0 ↔
      (NwaData.header junk file inSize).complevel ≠ -1 ∨
        8 ≤ (NwaData.header junk file inSize).bps ∧ (NwaData.header junk file inSize).channels ≠ 0 := by
  constructor
  · intro hno
    by_contra hbad
    rw [not_or, not_not, not_and_or, not_le, not_not] at hbad
    obtain ⟨hraw, hbad⟩ := hbad
    rcases lt_or_ge (NwaData.header junk file inSize).bps 8 with hbps | hbps
    · exact hno (divides_byps hraw hbps)
    · exact hno (divides_channels hraw hbps (hbad.resolve_left (by omega)))
  · intro hgood hdiv
    cases hdiv with
    | readHeader hd =>
      unfold NwaData.readHeaderDivisors at hd
      split at hd
      · next hraw =>
        have hbps := (hgood.resolve_left (not_not.2 hraw)).1
        simp [NwaData.byps] at hd
        omega
      · cases hd
    | checkHeader hr hd => cases NwaData.eight_of_mem_checkHeaderDivisors hd
    | blockLength hr hd => cases NwaData.eight_of_mem_blockLengthDivisors hd
    | decode hr halloc hs hd =>
      obtain ⟨hlevel, -, hchan⟩ := NwaData.readHeader_kept hr
      rw [← hlevel, ← hchan] at hgood
      unfold NwaData.decodeDivisors at hd
      split at hd
      · next hraw =>
        have hch := (hgood.resolve_left (not_not.2 hraw)).2
        have := (NwaData.mem_decodeRawDivisors hd).2
        omega
      · obtain ⟨hc, hd⟩ := NwaData.mem_decodeCompressedDivisors hd
        have hch := (NwaData.checked_of_tmpdata hc).channels
        have hbps := (NwaData.byps_info (NwaData.checked_of_tmpdata hc)).2
        omega

/-- A header of raw data, and nothing behind it. -/
def rawHeader (channels bps : Nat) : List UInt8 :=
  le16 channels ++ le16 bps ++ le32 44100 ++ le32 0xFFFFFFFF ++ List.replicate 32 0

/-- Samples of four bits, and samples of no channel. -/
theorem convertNwaToWav_divides : Divides noJunk (.openFile (rawHeader 1 4)) 0 (-1) 0 ∧
    Divides noJunk (.openFile (rawHeader 0 16)) 0 (-1) 0 :=
  ⟨divides_byps (by decide +kernel) (by decide +kernel),
    divides_channels (by decide +kernel) (by decide +kernel) (by decide +kernel)⟩

end SiglusExtract.Nwa
