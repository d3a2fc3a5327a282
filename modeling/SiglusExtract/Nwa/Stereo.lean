/-
`NWAInfo_sw2` (nwa2wav.cpp): stereo data of 16 bits at level 2 has a decoder of its own, which takes it for
granted that nothing is run-length encoded. It agrees with the general decoder where the header says so too,
and else only where there is no second sample for the length of a run to get in front of.
-/
import SiglusExtract.Nwa.Safety

namespace SiglusExtract.Nwa

open Bytes CInt

namespace NwaData

/-- `NWAInfo info(channels, bps, complevel, use_runlength)`. -/
def generalInfo (h : NwaData) : NwaInfo := ⟨h.channels, h.bps, h.complevel.toNat, h.useRunlength ≠ 0⟩

/-- What the general decoder makes of the bytes of a block. -/
def generalPcm (h : NwaData) (s : NwaState) : List UInt8 :=
  nwaDecode h.generalInfo (overlay s.tmpdata (h.readBlock s).1) (h.curcompsize s.curblock) (h.curblocksize s.curblock)

/-- Data that `NWAInfo_sw2` is for. -/
structure Sw2 (h : NwaData) : Prop where
  channels : h.channels = 2
  bps : h.bps = 16
  complevel : h.complevel = 2

end NwaData

/-! ## Up to the length of a run -/

/-- `NWAInfo_sw2` with the flag of the header. -/
def NwaInfo.stereo (runs : Bool) : NwaInfo := ⟨2, 16, 2, runs⟩

/-- The first sample of a block: the length of a run matters from the next one on. -/
theorem readSample_sw2 (runs : Bool) (m : Nat → UInt8) (c : Cursor) {p : Predictor} (hp : p.runlength = 0) :
    (readSample .sw2 m c p).2.emit .sw2 = (readSample (.stereo runs) m c p).2.emit (.stereo runs) := by
  unfold readSample
  rw [if_pos hp, if_pos hp]
  unfold readCode
  dsimp only
  split
  · split <;> rfl
  · split
    · rfl
    · cases runs
      · rfl
      · rw [if_neg (by decide), if_pos (show (NwaInfo.stereo true).useRunLength = true from rfl)]
        split
        · split <;> rfl
        · rfl

/-- The decoders start alike. -/
theorem nwaDecode_stereo (runs : Bool) (m : Nat → UInt8) (datasize outdatasize : Int) :
    nwaDecode (.stereo runs) m datasize outdatasize =
      decodeLoop (.stereo runs) m datasize (outdatasize.tdiv 2).toNat ⟨4, 0⟩ (firstSamples .sw2 m) := by
  have hbyps : (NwaInfo.stereo runs).bps / 8 = 2 := by simp [NwaInfo.stereo]
  rw [nwaDecode, hbyps]
  rfl

theorem decodeLoop_succ {info : NwaInfo} {m : Nat → UInt8} {dataend : Int} {c : Cursor} (h : (c.data : Int) < dataend)
    (n : Nat) (p : Predictor) : decodeLoop info m dataend (n + 1) c p =
      (readSample info m c p).2.emit info ++
        decodeLoop info m dataend n (readSample info m c p).1 ((readSample info m c p).2.next info) := by
  rw [decodeLoop, if_neg (Int.not_le.2 h)]

/-- With at most one sample to write, and without a byte to read, both decoders write the same. -/
theorem nwaDecode_sw2 (runs : Bool) (m : Nat → UInt8) {datasize outdatasize : Int}
    (h : outdatasize.tdiv 2 ≤ 1 ∨ datasize ≤ 4) :
    nwaDecode .sw2 m datasize outdatasize = nwaDecode (.stereo runs) m datasize outdatasize := by
  show nwaDecode (.stereo false) m datasize outdatasize = _
  rw [nwaDecode_stereo, nwaDecode_stereo]
  cases hn : (outdatasize.tdiv 2).toNat with
  | zero => rfl
  | succ n =>
    rcases Int.lt_or_le 4 datasize with hgo | hend
    · obtain rfl : n = 0 := by omega
      rw [decodeLoop_succ hgo, decodeLoop_succ hgo]
      exact congrArg (· ++ []) (readSample_sw2 runs m ⟨4, 0⟩ rfl)
    · rw [decodeLoop, decodeLoop, if_pos (show ((4 : Nat) : Int) ≥ datasize from hend),
        if_pos (show ((4 : Nat) : Int) ≥ datasize from hend)]

/-- A token of type 0, behind which the two decoders find different tokens. -/
def runBlock : Nat → UInt8 := overlay (fun _ => 0) [0, 0, 0, 0, 0x90]

/-- The second sample is 32 if the length of a run is read, and else 128. -/
theorem readSample_runBlock (runs : Bool) :
    ∃ c p, readSample (.stereo runs) runBlock ⟨4, 0⟩ (firstSamples .sw2 runBlock) = (c, p) ∧ c.data = 4 ∧
      p.emit (.stereo runs) = [0, 0] ∧
      (readSample (.stereo runs) runBlock c (p.next (.stereo runs))).2.emit (.stereo runs) =
        [if runs then 32 else 128, 0] := by
  cases runs
  · exact ⟨⟨4, 3⟩, ⟨0, 0, false, 0⟩, by decide +kernel⟩
  · exact ⟨⟨4, 4⟩, ⟨0, 0, false, 0⟩, by decide +kernel⟩

theorem nwaDecode_runBlock {datasize outdatasize : Int} (hd : 4 < datasize) (ho : 1 < outdatasize.tdiv 2) :
    nwaDecode .sw2 runBlock datasize outdatasize ≠ nwaDecode (.stereo true) runBlock datasize outdatasize := by
  show nwaDecode (.stereo false) _ datasize outdatasize ≠ _
  obtain ⟨n, hn⟩ : ∃ n, (outdatasize.tdiv 2).toNat = n + 2 := ⟨(outdatasize.tdiv 2).toNat - 2, by omega⟩
  have hsecond : ∀ runs, (nwaDecode (.stereo runs) runBlock datasize outdatasize)[2]? =
      some (if runs then 32 else 128) := by
    intro runs
    obtain ⟨c, p, hread, hdata, hfirst, hnext⟩ := readSample_runBlock runs
    rw [nwaDecode_stereo, hn, decodeLoop_succ hd, hread, hfirst, decodeLoop_succ (by rw [hdata]; exact hd), hnext]
    rfl
  intro heq
  exact absurd ((hsecond false).symm.trans ((congrArg (·[2]?) heq).trans (hsecond true))) (by decide)

/-! ## Headers -/

namespace NwaData

theorem curcompsize_lt (h : NwaData) (k : Int) : h.curcompsize k < 2 ^ 31 := by
  unfold curcompsize tmpdataSize
  split <;> exact i32_upper _

/-- Stereo data of 16 bits at level 2: the decoder of its own and the general one agree on a block, whatever
its bytes, exactly where the header denies run-length encoding, or the block has no second sample, or no
stream behind its raw samples. -/
theorem blockPcm_eq_generalPcm_iff {h : NwaData} (hs : h.Sw2) (k : Int) :
    (∀ s : NwaState, s.curblock = k → h.blockPcm s = h.generalPcm s) ↔
      h.useRunlength = 0 ∨ (h.curblocksize k).tdiv 2 ≤ 1 ∨ h.curcompsize k ≤ 4 := by
  have hinfo : h.info = .sw2 := if_pos ⟨hs.channels, hs.bps, hs.complevel⟩
  have hgeneral : h.generalInfo = .stereo (h.useRunlength ≠ 0) := by
    rw [generalInfo, hs.channels, hs.bps, hs.complevel]
    rfl
  constructor
  · intro hall
    by_contra hno
    rw [not_or, not_or, Int.not_le, Int.not_le] at hno
    obtain ⟨hrun, hsize, hcomp⟩ := hno
    -- a file that ends inside the block, behind a token of type 0
    have hsame := hall ⟨k, fun _ => 0, fun _ => 0, .openFile [0, 0, 0, 0, 0x90], 0⟩ rfl
    have hread : u32 (h.curcompsize k) = (h.curcompsize k).toNat := u32_eq (by omega) (by
      have := curcompsize_lt h k
      omega)
    have hblock : (h.readBlock ⟨k, fun _ => 0, fun _ => 0, .openFile [0, 0, 0, 0, 0x90], 0⟩).1 =
        [0, 0, 0, 0, 0x90] := by
      rw [readBlock, hread, NtFileDisk.read_eq _ (by omega)]
      exact List.take_of_length_le (show 5 ≤ (h.curcompsize k).toNat by omega)
    rw [blockPcm, generalPcm, hblock, hinfo, hgeneral, decide_eq_true hrun] at hsame
    exact nwaDecode_runBlock hcomp hsize hsame
  · rintro hok s rfl
    rw [blockPcm, generalPcm, hinfo, hgeneral]
    rcases hok with hrun | hok
    · rw [hrun]
      rfl
    · exact nwaDecode_sw2 _ _ hok

/-- The header of a stereo file of 16 bits at level 2, with one block of two samples. -/
def stereoHeader (useRunlength : Int) : NwaData :=
  ⟨2, 16, 44100, 2, useRunlength, 1, 4, 54, 2, 22, 2, some [48], 0, 54⟩

/-- Without run-length encoding. -/
theorem blockPcm_eq_generalPcm_plain : (stereoHeader 0).checkHeader ∧
    ∀ s : NwaState, s.curblock = 0 → (stereoHeader 0).blockPcm s = (stereoHeader 0).generalPcm s :=
  ⟨by decide +kernel, (blockPcm_eq_generalPcm_iff (h := stereoHeader 0) ⟨rfl, rfl, rfl⟩ 0).2 (.inl rfl)⟩

/-- A file with such a header, which announces run-length encoding. -/
def stereoFile : List UInt8 :=
  le16 2 ++ le16 16 ++ le32 44100 ++ le32 2 ++ le32 1 ++ le32 1 ++ le32 4 ++ le32 54 ++ le32 2 ++ le32 22 ++ le32 2 ++
    le32 0 ++ le32 48 ++ [0, 0, 0, 0, 0x90, 0]

/-- The second sample of the file is 128 where the general decoder finds 32. -/
theorem blockPcm_ne_generalPcm : ¬ ∀ (file file' : NtFileDisk) (h : NwaData),
    readHeader noJunk file (-1) = some (h, file') → h.checkHeader → h.Sw2 →
      ∀ s : NwaState, 0 ≤ s.curblock → s.curblock < h.blocks → h.blockPcm s = h.generalPcm s := by
  intro hall
  have hsame := hall (.openFile stereoFile) ⟨stereoFile, 54, 48⟩ (stereoHeader 1) (by decide +kernel)
    (by decide +kernel) ⟨rfl, rfl, rfl⟩ ⟨0, noJunk.tmpdata, noJunk.data, ⟨stereoFile, 54, 48⟩, 0⟩ (by decide)
    (by decide)
  exact absurd hsame (by decide +kernel)

end NwaData

end SiglusExtract.Nwa
