/-
The accesses of `ConvertNwaToWav`. What `CheckHeader` tests does not bound them: the 44 bytes of the WAV
header go into a buffer of one block, the sizes of the compressed blocks are differences of offsets that
nobody has compared, and the last block may be longer than the others. These are the only ways out.
-/
import SiglusExtract.Nwa.Data

namespace SiglusExtract.Nwa

open Bytes CInt Machine

namespace NwaData

/-! ## Turns of the loop -/

section Turn

variable {h : NwaData} {s s' : NwaState} {accesses : List Event} {err : Int}

theorem turn_emit (hd : h.decode s = some (accesses, err, s')) :
    ∀ e ∈ accesses ++ [.ret err], e ∈ (h.turn s).emit := by
  intro e he
  simp only [turn, hd]
  split
  · split
    · exact he
    · split
      · exact he
      · exact List.mem_append_left _ he
  · exact he

theorem turn_fits (hd : h.decode s = some (accesses, err, s')) (ha : ∀ e ∈ accesses, h.Fits e)
    (he : h.Fits (.ret err)) : ∀ e ∈ (h.turn s).emit, h.Fits e := by
  have hall : ∀ e ∈ accesses ++ [.ret err], h.Fits e := by
    intro e hmem
    rw [List.mem_append, List.mem_singleton] at hmem
    rcases hmem with hmem | rfl
    · exact ha e hmem
    · exact he
  simp only [turn, hd, if_pos hall]
  split
  · exact hall
  · split
    · exact hall
    · intro e hmem
      rw [Step.emit, List.mem_append, List.mem_singleton] at hmem
      rcases hmem with hmem | rfl
      · exact hall e hmem
      · trivial

theorem turn_more {emit : List Event} (ht : h.turn s = .more emit s') :
    ∃ accesses err, h.decode s = some (accesses, err, s') ∧ err ≠ 0 ∧ err ≠ -1 := by
  unfold turn at ht
  cases hd : h.decode s with
  | none => rw [hd] at ht; cases ht
  | some r =>
    obtain ⟨accesses, err, s''⟩ := r
    simp only [hd] at ht
    split at ht
    · split at ht
      · cases ht
      · next h0 =>
        rw [not_or] at h0
        split at ht <;> cases ht <;> exact ⟨accesses, err, rfl, h0⟩
    · cases ht

/-- A block that was decoded is passed on. -/
theorem turn_chunk (hd : h.decode s = some (accesses, err, s')) (ha : ∀ e ∈ accesses, h.Fits e) (hpos : 0 < err)
    (hle : err ≤ h.blockLength) :
    h.turn s = .more (accesses ++ [.ret err] ++ [.chunk (bytesAt s'.data 0 err.toNat)]) s' := by
  have hall : ∀ e ∈ accesses ++ [.ret err], h.Fits e := by
    intro e hmem
    rw [List.mem_append, List.mem_singleton] at hmem
    rcases hmem with hmem | rfl
    · exact ha e hmem
    · exact .inr (.inr ⟨Int.le_of_lt hpos, hle⟩)
  simp only [turn, hd, if_pos hall]
  rw [if_neg (by omega), if_neg (by omega)]

/-- A first turn with room for the WAV header. -/
theorem turn_header (hlen : 44 ≤ h.blockLength) (hd : h.decode s = some ([.write 0x2c], 0x2c, s'))
    (hs' : s'.data = overlay s.data h.wavheader) :
    h.turn s = .more [.write 0x2c, .ret 0x2c, .chunk h.wavheader] s' := by
  have hfits : ∀ e ∈ [Event.write 0x2c], h.Fits e := by
    intro e he
    rw [List.mem_singleton.1 he]
    exact hlen
  rw [turn_chunk hd hfits (by decide) hlen, hs', h.bytesAt_wavheader]
  rfl

/-- A first turn without. -/
theorem turn_headerFault (hlen : ¬ 44 ≤ h.blockLength) (hd : h.decode s = some ([.write 0x2c], 0x2c, s')) :
    h.turn s = .halt [.write 0x2c, .ret 0x2c] .fault := by
  have hno : ¬ ∀ e ∈ [Event.write 0x2c] ++ [.ret 0x2c], h.Fits e := fun hall => hlen (hall (.write 0x2c) (by simp))
  simp only [turn, hd, if_neg hno]
  rfl

/-- No bytes: the loop ends. -/
theorem turn_return (hd : h.decode s = some (accesses, 0, s')) (ha : ∀ e ∈ accesses, h.Fits e)
    (hlen : 0 ≤ h.blockLength) : h.turn s = .halt (accesses ++ [.ret 0]) (.returned s'.file) := by
  have hall : ∀ e ∈ accesses ++ [.ret 0], h.Fits e := by
    intro e hmem
    rw [List.mem_append, List.mem_singleton] at hmem
    rcases hmem with hmem | rfl
    · exact ha e hmem
    · exact .inr (.inr ⟨Int.le_refl 0, hlen⟩)
  simp only [turn, hd, if_pos hall, true_or, if_true]

/-- The end of the data: the loop ends. -/
theorem turn_end (hd : h.decode s = some ([], -1, s')) : h.turn s = .halt [.ret (-1)] (.returned s'.file) := by
  have hall : ∀ e ∈ [Event.ret (-1)], h.Fits e := by
    intro e he
    rw [List.mem_singleton.1 he]
    exact .inl rfl
  simp only [turn, hd, List.nil_append, if_pos hall, or_true, if_true]

/-- Compressed data that `CheckHeader` rejects ends the loop at once. -/
theorem turn_rejected (hl : h.complevel ≠ -1) (hc : ¬ h.hasTmpdata) :
    h.turn s = .halt [.ret (-1)] (.returned s.file) := by
  refine turn_end ?_
  rw [decode, if_neg hl, decodeCompressed, if_pos hc]

/-- A turn whose accesses fit goes on where the result does not end the loop. -/
theorem turn_go (hd : h.decode s = some (accesses, err, s')) (hall : ∀ e ∈ (h.turn s).emit, h.Fits e)
    (h0 : err ≠ 0) (h1 : err ≠ -1) : ∃ emit, h.turn s = .more emit s' := by
  have hfit := fun e he => hall e (turn_emit hd e he)
  simp only [turn, hd, if_pos hfit, h0, h1, or_self, if_false]
  split <;> exact ⟨_, rfl⟩

end Turn

/-! ## Compressed data -/

/-- The skip count in front of block `k`, 0 at first: only a negative `blocksize` makes it grow, and blocks are skipped
until it wraps round. -/
def skipAt (h : NwaData) : Nat → Int
  | 0 => 0
  | k + 1 =>
    if h.skipAt k > h.blocksize.tdiv h.channels then i32 (h.skipAt k - h.blocksize.tdiv h.channels) else 0

/-- Block `k` is passed over. -/
def Skipped (h : NwaData) (k : Nat) : Prop := h.skipAt k > h.blocksize.tdiv h.channels

instance (h : NwaData) (k : Nat) : Decidable (h.Skipped k) := inferInstanceAs (Decidable (_ > _))

/-- The bytes dropped of block `k` where it is not passed over. -/
def dropped (h : NwaData) (k : Nat) : Nat := u32 (i32 (h.skipAt k * h.channels * h.byps))

/-- Where block `k` starts, the blocks starting at `file`, and the size the file object keeps by then: behind the sizes
of the blocks before it, as far as the file goes. A block that is passed over may lead behind the end, and not in front
of the file. -/
def place (h : NwaData) (file : NtFileDisk) : Nat → Nat × Nat
  | 0 => (file.position, file.fileSize)
  | k + 1 =>
    let p := h.place file k
    if h.Skipped k then
      let target := p.1 + h.curcompsize k
      if target < 0 then p else (target.toNat, max p.2 target.toNat)
    else (p.1 + min (NtFileDisk.asked p.2 (u32 (h.curcompsize k))) (file.data.length - p.1), p.2)

/-- The sizes with which block `k` stays inside the buffers, the blocks starting at `file`: what is moved up to the
front of the block, what is read, and what is decoded. -/
structure BlockFits (h : NwaData) (file : NtFileDisk) (k : Nat) : Prop where
  dropped : 2 * h.dropped k ≤ h.blockLength
  read : NtFileDisk.asked (h.place file k).2 (u32 (h.curcompsize k)) ≤ h.tmpdataSize ∨
    file.data.length ≤ (h.place file k).1 + h.tmpdataSize
  size : -2 ≤ h.curblocksize k - h.dropped k ∧ h.curblocksize k ≤ h.blockLength

/-- The sizes with which compressed data stays inside the buffers, the blocks starting at `file`. -/
structure InBounds (h : NwaData) (file : NtFileDisk) : Prop where
  header : 44 ≤ h.blockLength
  blocks : ∀ k : Nat, k < h.blocks → h.Skipped k ∨ h.BlockFits file k

theorem curblocksize_inner {h : NwaData} {k : Nat} (hk : (k : Int) + 1 < h.blocks) : h.curblocksize k = h.blockBytes :=
  if_pos (by omega)

theorem curblocksize_last {h : NwaData} {k : Nat} (hk : (k : Int) + 1 = h.blocks) :
    h.curblocksize k = i32 (h.restsize * h.byps) :=
  if_neg (by omega)

theorem curcompsize_last {h : NwaData} {k : Nat} (hk : (k : Int) + 1 = h.blocks) :
    h.curcompsize k = h.tmpdataSize :=
  if_neg (by omega)

theorem blockLength_eq {h : NwaData} (hc : h.hasTmpdata) : h.blockLength = h.blockBytes := by
  unfold blockLength
  rw [if_neg (by simp [hc])]

/-- Where both allocations succeed, `tmpdata` has twice the size of a block. -/
theorem tmpdataSize_eq {h : NwaData} (hL : 0 ≤ h.blockBytes) (hT : 0 ≤ h.tmpdataSize) :
    h.tmpdataSize = 2 * h.blockBytes := by
  have hlt : h.blockBytes < 2 ^ 31 := i32_upper _
  unfold tmpdataSize at hT ⊢
  rw [i32_def] at hT ⊢
  split at hT
  · next hmod =>
    rw [if_pos hmod]
    omega
  · omega

theorem tmpdataSize_upper (h : NwaData) : h.tmpdataSize < 2 ^ 31 := i32_upper _

/-! ### Blocks that are passed over -/

/-- With a block size that is not negative nothing is skipped. -/
theorem skipAt_nonneg {h : NwaData} (hsize : 0 ≤ h.blocksize) : ∀ k, h.skipAt k = 0 ∧ ¬ h.Skipped k
  | 0 => ⟨rfl, Int.not_lt.2 (Int.tdiv_nonneg hsize (Int.natCast_nonneg _))⟩
  | k + 1 => by
    obtain ⟨-, hno⟩ := skipAt_nonneg hsize k
    have hzero : h.skipAt (k + 1) = 0 := if_neg hno
    refine ⟨hzero, ?_⟩
    rw [Skipped, hzero]
    exact Int.not_lt.2 (Int.tdiv_nonneg hsize (Int.natCast_nonneg _))

/-- The file in front of block `k`. -/
def blockFile (h : NwaData) (file : NtFileDisk) (k : Nat) : NtFileDisk :=
  ⟨file.data, (h.place file k).2, (h.place file k).1⟩

theorem blockFile_skipped {h : NwaData} {file : NtFileDisk} {k : Nat} (hk : h.Skipped k) :
    h.blockFile file (k + 1) = (h.blockFile file k).seek ((h.blockFile file k).position + h.curcompsize k) := by
  simp only [blockFile, place, if_pos hk, NtFileDisk.seek]
  by_cases htarget : ((h.place file k).1 : Int) + h.curcompsize k < 0
  · simp only [if_pos htarget]
    exact (if_pos htarget).symm
  · simp only [if_neg htarget]
    exact (if_neg htarget).symm

theorem blockFile_read {h : NwaData} {file : NtFileDisk} {k : Nat} (hk : ¬ h.Skipped k) :
    h.blockFile file (k + 1) = ((h.blockFile file k).read (u32 (h.curcompsize k))).2 := by
  rw [NtFileDisk.read_asked, NtFileDisk.rest]
  simp only [blockFile, place, if_neg hk, List.length_take, List.length_drop]

/-- The bytes that `Read` is asked for before block `k`, in a file of this size. -/
def askedBefore (h : NwaData) (fileSize k : Nat) : Nat :=
  ((List.range k).map fun j : Nat => NtFileDisk.asked fileSize (u32 (h.curcompsize j))).sum

/-- With a block size that is not negative the blocks follow one another. -/
theorem blockFile_nonneg {h : NwaData} (hsize : 0 ≤ h.blocksize) (file : NtFileDisk) : ∀ k,
    (h.blockFile file k).fileSize = file.fileSize ∧
      (h.blockFile file k).rest = file.rest.drop (h.askedBefore file.fileSize k)
  | 0 => ⟨rfl, rfl⟩
  | k + 1 => by
    obtain ⟨hfile, hrest⟩ := blockFile_nonneg hsize file k
    rw [blockFile_read (skipAt_nonneg hsize k).2]
    refine ⟨hfile, ?_⟩
    rw [NtFileDisk.read_asked_rest, hfile, hrest, List.drop_drop, askedBefore, askedBefore, List.range_succ,
      List.map_append, List.sum_append]
    rfl

/-! ### Turns -/

/-- The state in front of block `k`, with the WAV header written. -/
structure AtBlock (h : NwaData) (file : NtFileDisk) (k : Nat) (s : NwaState) : Prop where
  curblock : s.curblock = k
  le : (k : Int) ≤ h.blocks
  file : s.file = h.blockFile file k
  skipCount : s.skipCount = h.skipAt k

/-- The states of a run: at first the WAV header is to be written. -/
def OnBlocks (h : NwaData) (file : NtFileDisk) (s : NwaState) : Prop :=
  s.curblock = -1 ∧ s.file = file ∧ s.skipCount = 0 ∨ ∃ k, h.AtBlock file k s

section Compressed

variable {h : NwaData} (hc : h.hasTmpdata)
include hc

theorem decode_compressed (s : NwaState) : h.decode s = some (h.decodeCompressed s) := by
  rw [decode, if_neg (compressed_of_tmpdata hc)]

theorem decode_first (hb : 0 < h.blocks) {s : NwaState} (hs : s.curblock = -1) :
    h.decode s = some ([.write 0x2c], 0x2c, h.decodeHeader s) := by
  rw [decode_compressed hc, decodeCompressed, if_neg (by simp [hc]), if_neg (by omega), if_pos hs]

theorem decode_end {s : NwaState} (hs : s.curblock = h.blocks) : h.decode s = some ([], 0, s) := by
  rw [decode_compressed hc, decodeCompressed, if_neg (by simp [hc]), if_pos hs.symm]

section Block

variable (hL : 0 < h.blockBytes) (hT : 0 ≤ h.tmpdataSize)
include hL hT

/-- A block is passed over or decoded: the test for a fatal error never holds. -/
theorem decode_turn {s : NwaState} (h0 : 0 ≤ s.curblock) (hlt : s.curblock < h.blocks) : h.decode s = some
    (if s.skipCount > h.blocksize.tdiv h.channels then ([], -2, h.skipBlock (h.curcompsize s.curblock) s)
      else h.decodeBlock s) := by
  have htmp := tmpdataSize_eq (Int.le_of_lt hL) hT
  unfold tmpdataSize at htmp
  rw [decode_compressed hc, decodeCompressed, if_neg (by simp [hc]), if_neg (by omega), if_neg (by omega),
    if_neg (by omega)]

theorem decode_skipped {file : NtFileDisk} {k : Nat} {s : NwaState} (hs : h.AtBlock file k s)
    (hlt : (k : Int) < h.blocks) (hk : h.Skipped k) :
    h.decode s = some ([], -2, h.skipBlock (h.curcompsize k) s) ∧
      h.AtBlock file (k + 1) (h.skipBlock (h.curcompsize k) s) := by
  have hcur := hs.curblock
  constructor
  · rw [decode_turn hc hL hT (by omega) (by omega), if_pos (hs.skipCount ▸ hk), hcur]
  · refine ⟨?_, by omega, ?_, ?_⟩
    · rw [skipBlock, hcur]
      rfl
    · rw [skipBlock, blockFile_skipped hk, hs.file]
    · rw [skipBlock, hs.skipCount]
      exact (if_pos hk).symm

omit hc hL hT in
theorem decodeBlock_next (s : NwaState) : ∃ data, (h.decodeBlock s).2.2 = { h.nextBlock s with data } := by
  unfold decodeBlock
  dsimp only
  split
  · exact ⟨_, rfl⟩
  · exact ⟨_, rfl⟩

omit hc hL hT in
theorem nextBlock_atBlock {file : NtFileDisk} {k : Nat} {s : NwaState} (hs : h.AtBlock file k s)
    (hlt : (k : Int) < h.blocks) (hk : ¬ h.Skipped k) : h.AtBlock file (k + 1) (h.nextBlock s) := by
  refine ⟨?_, by omega, ?_, (if_neg hk).symm⟩
  · rw [nextBlock, hs.curblock]
    rfl
  · rw [nextBlock, readBlock, hs.file, hs.curblock, blockFile_read hk]

theorem decode_kept {file : NtFileDisk} {k : Nat} {s : NwaState} (hs : h.AtBlock file k s) (hlt : (k : Int) < h.blocks)
    (hk : ¬ h.Skipped k) : h.decode s = some (h.decodeBlock s) ∧ h.AtBlock file (k + 1) (h.decodeBlock s).2.2 := by
  have hcur := hs.curblock
  constructor
  · rw [decode_turn hc hL hT (by omega) (by omega), if_neg (hs.skipCount ▸ hk)]
  · obtain ⟨data, hnext⟩ := decodeBlock_next (h := h) s
    obtain ⟨hcur', hle, hfile, hskip⟩ := nextBlock_atBlock hs hlt hk
    rw [hnext]
    exact ⟨hcur', hle, hfile, hskip⟩

/-- A block where nothing is skipped. -/
theorem decode_block (hsize : 0 ≤ h.blocksize) {s : NwaState} (h0 : 0 ≤ s.curblock) (hlt : s.curblock < h.blocks)
    (hs : s.skipCount = 0) : h.decode s = some ([.read (h.readBlock s).1.length, .write (h.blockPcm s).length],
      h.curblocksize s.curblock, h.nextBlock s) := by
  have hskip : ¬ s.skipCount > h.blocksize.tdiv h.channels := by
    rw [hs]
    exact Int.not_lt.2 (Int.tdiv_nonneg hsize (Int.natCast_nonneg _))
  rw [decode_turn hc hL hT h0 hlt, if_neg hskip, decodeBlock]
  exact congrArg some (if_pos hs)

end Block

/-! ### Sizes -/

/-- Room for the samples of a full block and one more in `tmpdata`, whatever codes they have. -/
theorem blockPcm_length (hL : 44 ≤ h.blockBytes) (hT : 0 ≤ h.tmpdataSize) {k : Nat} {s : NwaState}
    (hs : s.curblock = k) (hk : (k : Int) + 1 = h.blocks) (hlong : h.blockBytes < h.curblocksize k) :
    h.blockBytes < (h.blockPcm s).length := by
  have hcheck := checked_of_tmpdata hc
  have htmp := tmpdataSize_eq (by omega) hT
  have hbyps := (byps_info hcheck).1
  have hbps : h.byps = 1 ∨ h.byps = 2 := by
    have := hcheck.bps
    unfold byps
    omega
  have hstart : h.info.streamStart ≤ 4 := by
    unfold NwaInfo.streamStart
    split <;> omega
  -- both sizes are whole samples
  have heven : h.byps = 2 → h.blockBytes % 2 = 0 ∧ h.curblocksize k % 2 = 0 := by
    intro h2
    rw [curblocksize_last hk, blockBytes, h2, i32_def, i32_def]
    constructor <;> split <;> omega
  have hn : (((h.blockBytes / h.byps).toNat + 1) * h.info.byps : Nat) ≤ h.curblocksize k := by
    rw [hbyps]
    rcases hbps with hb | hb <;> rw [hb] at heven ⊢ <;> omega
  have hroom : 8 * h.info.streamStart + 14 * ((h.blockBytes / h.byps).toNat + 1) ≤ 8 * h.curcompsize k := by
    rw [curcompsize_last hk]
    rcases hbps with hb | hb <;> rw [hb] <;> omega
  have hlen := nwaDecode_length_ge (byps_info hcheck).2 (compLevel_le hc) (m := overlay s.tmpdata (h.readBlock s).1) hn
    hroom
  rw [hbyps] at hlen
  rw [blockPcm, hs]
  rcases hbps with hb | hb <;> rw [hb] at heven hlen <;> omega

omit hc in
theorem decodeBlock_whole {file : NtFileDisk} {k : Nat} {s : NwaState} (hs : h.AtBlock file k s)
    (h0 : h.skipAt k = 0) : (h.decodeBlock s).1 = [.read (h.readBlock s).1.length, .write (h.blockPcm s).length] ∧
      (h.decodeBlock s).2.1 = h.curblocksize k ∧ h.dropped k = 0 := by
  rw [decodeBlock, hs.curblock, if_pos (hs.skipCount.trans h0), dropped, h0, Int.zero_mul, Int.zero_mul,
    i32_eq (by decide) (by decide)]
  exact ⟨rfl, rfl, rfl⟩

omit hc in
theorem decodeBlock_part {file : NtFileDisk} {k : Nat} {s : NwaState} (hs : h.AtBlock file k s)
    (h0 : h.skipAt k ≠ 0) : (h.decodeBlock s).1 = [.read (h.readBlock s).1.length, .write (h.blockPcm s).length] ++
        [.fetch (h.dropped k + h.dropped k), .write (h.dropped k)] ∧
      (h.decodeBlock s).2.1 = i32 (h.curblocksize k - i32 (h.skipAt k * h.channels * h.byps)) := by
  rw [decodeBlock, hs.curblock, hs.skipCount, if_neg h0]
  exact ⟨rfl, rfl⟩

omit hc in
theorem dropped_eq {k : Nat} (hd : 2 * h.dropped k ≤ h.blockLength) (hL : h.blockLength < 2 ^ 31) :
    i32 (h.skipAt k * h.channels * h.byps) = h.dropped k := by
  have := i32_lower (h.skipAt k * h.channels * h.byps)
  have := i32_upper (h.skipAt k * h.channels * h.byps)
  unfold dropped u32 at hd ⊢
  omega

omit hc in
theorem blockLength_lt (h : NwaData) : h.blockLength < 2 ^ 31 := by
  unfold blockLength
  split
  · decide
  · exact i32_upper _

omit hc in
/-- What is left of a block whose front is dropped. -/
theorem decodeBlock_ret {file : NtFileDisk} {k : Nat} {s : NwaState} (hs : h.AtBlock file k s)
    (hb : h.BlockFits file k) : (h.decodeBlock s).2.1 = h.curblocksize k - h.dropped k := by
  by_cases h0 : h.skipAt k = 0
  · obtain ⟨-, hret, hzero⟩ := decodeBlock_whole hs h0
    rw [hret, hzero]
    exact (Int.sub_zero _).symm
  · have hL := h.blockLength_lt
    have := hb.size
    rw [(decodeBlock_part hs h0).2, dropped_eq hb.dropped hL, i32_eq (by omega) (by omega)]

/-- A block that is decoded stays inside the buffers if and only if its sizes do. -/
theorem decodeBlock_fits_iff (hL : 44 ≤ h.blockLength) (hT : 0 ≤ h.tmpdataSize) {file : NtFileDisk} {k : Nat}
    {s : NwaState} (hs : h.AtBlock file k s) (hlt : (k : Int) < h.blocks) :
    ((∀ e ∈ (h.decodeBlock s).1, h.Fits e) ∧ h.Fits (.ret (h.decodeBlock s).2.1)) ↔ h.BlockFits file k := by
  have hlen := blockLength_eq hc
  have htmp := tmpdataSize_eq (by omega) hT
  have hup := h.tmpdataSize_upper
  have hread : h.Fits (.read (h.readBlock s).1.length) ↔
      NtFileDisk.asked (h.place file k).2 (u32 (h.curcompsize k)) ≤ h.tmpdataSize ∨
        file.data.length ≤ (h.place file k).1 + h.tmpdataSize := by
    show ((h.readBlock s).1.length : Int) ≤ h.tmpdataSize ↔ _
    rw [readBlock, hs.file, hs.curblock, NtFileDisk.read_asked, List.length_take, NtFileDisk.rest, List.length_drop]
    show ((min (NtFileDisk.asked (h.place file k).2 _) (file.data.length - (h.place file k).1) : Nat) : Int) ≤
      h.tmpdataSize ↔ _
    omega
  -- a block longer than the buffer is the last one, and more samples are written than the buffer has
  have hpcm : h.Fits (.write (h.blockPcm s).length) ↔ h.curblocksize k ≤ h.blockLength := by
    constructor
    · intro hfit
      by_contra hlong
      rcases Int.lt_or_eq_of_le (show (k : Int) + 1 ≤ h.blocks by omega) with hk | hk
      · rw [curblocksize_inner hk] at hlong
        omega
      · have := blockPcm_length hc (by omega) hT hs.curblock hk (by omega)
        have hfit : ((h.blockPcm s).length : Int) ≤ h.blockLength := hfit
        omega
    · intro hle
      have := nwaDecode_length_le (byps_info (checked_of_tmpdata hc)).2 (overlay s.tmpdata (h.readBlock s).1)
        (h.curcompsize s.curblock) (h.curblocksize s.curblock)
      rw [hs.curblock] at this
      show ((h.blockPcm s).length : Int) ≤ h.blockLength
      rw [blockPcm, hs.curblock]
      omega
  have hlower : -2 ^ 31 ≤ h.curblocksize k := by
    unfold curblocksize
    split <;> exact i32_lower _
  have hret : ∀ err : Int, h.Fits (.ret err) ↔ err = -1 ∨ err = -2 ∨ 0 ≤ err ∧ err ≤ h.blockLength := fun _ => Iff.rfl
  by_cases h0 : h.skipAt k = 0
  · obtain ⟨hacc, hresult, hzero⟩ := decodeBlock_whole hs h0
    rw [hacc, hresult, List.forall_mem_cons, List.forall_mem_singleton, hread, hpcm, hret]
    constructor
    · rintro ⟨⟨hr, hw⟩, hret⟩
      exact ⟨by omega, hr, by omega, hw⟩
    · rintro ⟨-, hr, hlow, hw⟩
      exact ⟨⟨hr, hw⟩, by omega⟩
  · obtain ⟨hacc, hresult⟩ := decodeBlock_part hs h0
    have hmove : h.Fits (.fetch (h.dropped k + h.dropped k)) ↔ 2 * h.dropped k ≤ h.blockLength := by
      show ((h.dropped k + h.dropped k : Nat) : Int) ≤ h.blockLength ↔ _
      omega
    rw [hacc, hresult, List.forall_mem_append, List.forall_mem_cons, List.forall_mem_singleton, List.forall_mem_cons,
      List.forall_mem_singleton, hread, hpcm, hmove, hret]
    constructor
    · rintro ⟨⟨⟨hr, hw⟩, hm, -⟩, hret⟩
      -- a result that wraps round would be larger than the buffer
      rw [dropped_eq hm h.blockLength_lt, i32_def] at hret
      refine ⟨hm, hr, ?_, hw⟩
      split at hret <;> omega
    · rintro ⟨hm, hr, hlow, hw⟩
      have hfront : h.Fits (.write (h.dropped k)) := by
        show (h.dropped k : Int) ≤ h.blockLength
        omega
      rw [dropped_eq hm h.blockLength_lt, i32_eq (by omega) (by omega)]
      exact ⟨⟨⟨hr, hw⟩, hm, hfront⟩, by omega⟩

end Compressed

/-! ### Runs -/

theorem ret_skipped (h : NwaData) : ∀ e ∈ [Event.ret (-2)], h.Fits e := by
  intro e he
  rw [List.mem_singleton.1 he]
  exact .inr (.inl rfl)

theorem turn_skip {h : NwaData} {s s' : NwaState} (hd : h.decode s = some ([], -2, s')) :
    h.turn s = .more [.ret (-2)] s' := by
  simp only [turn, hd, List.nil_append, if_pos h.ret_skipped]
  rfl

/-- Compressed data with such sizes: no access of the run leaves its buffer. -/
theorem fits_of_inBounds {h : NwaData} (hc : h.hasTmpdata) (hpos : 0 < h.blocks) (hT : 0 ≤ h.tmpdataSize)
    {file : NtFileDisk} (hb : h.InBounds file) {fuel : Nat} {s : NwaState} (hs : h.OnBlocks file s) :
    ∀ e ∈ (run h.turn fuel s).1, h.Fits e := by
  have hlen := blockLength_eq hc
  have hheader := hb.header
  have hL : 0 < h.blockBytes := by omega
  refine run_emit (h.OnBlocks file) h.Fits ?_ ?_ hs
  · rintro s (⟨hs, -, -⟩ | ⟨k, hs⟩)
    · refine turn_fits (decode_first hc hpos hs) ?_ (.inr (.inr ⟨by decide, hheader⟩))
      intro e he
      rw [List.mem_singleton.1 he]
      exact hheader
    · rcases Int.lt_or_eq_of_le hs.le with hlt | hend
      · by_cases hk : h.Skipped k
        · rw [turn_skip (decode_skipped hc hL hT hs hlt hk).1]
          exact h.ret_skipped
        · have hfits := (decodeBlock_fits_iff hc hheader hT hs hlt).2 ((hb.blocks k hlt).resolve_left hk)
          exact turn_fits (decode_kept hc hL hT hs hlt hk).1 hfits.1 hfits.2
      · refine turn_fits (decode_end hc (by rw [hs.curblock, hend])) (fun e he => by cases he) ?_
        exact .inr (.inr ⟨by decide, by omega⟩)
  · rintro s emit s' (⟨hs, hfile, hskip⟩ | ⟨k, hs⟩) hmore
    · obtain ⟨accesses, err, hd, -, -⟩ := turn_more hmore
      rw [decode_first hc hpos hs] at hd
      cases hd
      exact .inr ⟨0, by simp [decodeHeader, hs], by omega, hfile, hskip⟩
    · obtain ⟨accesses, err, hd, h0, -⟩ := turn_more hmore
      rcases Int.lt_or_eq_of_le hs.le with hlt | hend
      · by_cases hk : h.Skipped k
        · obtain ⟨hd', hs'⟩ := decode_skipped hc hL hT hs hlt hk
          rw [hd'] at hd
          cases hd
          exact .inr ⟨k + 1, hs'⟩
        · obtain ⟨hd', hs'⟩ := decode_kept hc hL hT hs hlt hk
          rw [hd', Option.some.injEq] at hd
          rw [hd] at hs'
          exact .inr ⟨k + 1, hs'⟩
      · rw [decode_end hc (by rw [hs.curblock, hend])] at hd
        cases hd
        exact absurd rfl h0

/-- From block `k` on: a run whose accesses fit shows that the sizes of the blocks do. -/
theorem sizes_of_fits {h : NwaData} (hc : h.hasTmpdata) (hL : 44 ≤ h.blockLength) (hT : 0 ≤ h.tmpdataSize)
    {file : NtFileDisk} : ∀ {fuel k : Nat} {s : NwaState}, h.AtBlock file k s → h.blocks < k + fuel →
      (∀ e ∈ (run h.turn fuel s).1, h.Fits e) →
        ∀ j : Nat, k ≤ j → j < h.blocks → h.Skipped j ∨ h.BlockFits file j
  | 0, k, s, hs, hfuel, _ => by
    have := hs.le
    omega
  | fuel + 1, k, s, hs, hfuel, hall => by
    intro j hj hjlt
    have hlen := blockLength_eq hc
    have hlt : (k : Int) < h.blocks := by omega
    by_cases hk : h.Skipped k
    · obtain ⟨hd, hs'⟩ := decode_skipped hc (by omega) hT hs hlt hk
      rw [run_more (turn_skip hd)] at hall
      rcases Nat.lt_or_eq_of_le hj with hj | rfl
      · exact sizes_of_fits hc hL hT hs' (by omega) (fun e he => hall e (List.mem_append_right _ he)) j hj hjlt
      · exact .inl hk
    · obtain ⟨hd, hs'⟩ := decode_kept hc (by omega) hT hs hlt hk
      have hturn : ∀ e ∈ (h.turn s).emit, h.Fits e := fun e he => hall e (emit_mem_run he fuel)
      have hblock : h.BlockFits file k := (decodeBlock_fits_iff hc hL hT hs hlt).1
        ⟨fun e he => hturn e (turn_emit hd e (List.mem_append_left _ he)),
          hturn _ (turn_emit hd _ (List.mem_append_right _ (List.mem_singleton_self _)))⟩
      rcases Nat.lt_or_eq_of_le hj with hj | rfl
      · -- a block that is not the last one leaves at least half of its bytes, so the loop goes on
        have hret := decodeBlock_ret hs hblock
        rw [curblocksize_inner (by omega)] at hret
        have hdropped := hblock.dropped
        have hgo : (h.decodeBlock s).2.1 ≠ 0 ∧ (h.decodeBlock s).2.1 ≠ -1 := by omega
        obtain ⟨emit, hmore⟩ := turn_go hd hturn hgo.1 hgo.2
        rw [run_more hmore] at hall
        exact sizes_of_fits hc hL hT hs' (by omega) (fun e he => hall e (List.mem_append_right _ he)) j hj hjlt
      · exact .inr hblock

theorem inBounds_of_fits {h : NwaData} (hc : h.hasTmpdata) (hpos : 0 < h.blocks) (hT : 0 ≤ h.tmpdataSize)
    {file : NtFileDisk} {fuel : Nat} (hfuel : h.blocks + 1 < fuel)
    {s : NwaState} (hs : s.curblock = -1 ∧ s.file = file ∧ s.skipCount = 0)
    (hall : ∀ e ∈ (run h.turn fuel s).1, h.Fits e) : h.InBounds file := by
  obtain ⟨fuel, rfl⟩ : ∃ n, fuel = n + 1 := ⟨fuel - 1, by omega⟩
  have hd := decode_first hc hpos hs.1
  have hturn : ∀ e ∈ (h.turn s).emit, h.Fits e := fun e he => hall e (emit_mem_run he fuel)
  have hheader : (44 : Int) ≤ h.blockLength := hturn (.write 0x2c) (turn_emit hd _ (by simp))
  -- the WAV header is there: from now on the blocks follow one after the other
  obtain ⟨emit, hmore⟩ := turn_go hd hturn (by decide) (by decide)
  rw [run_more hmore] at hall
  have hfirst : h.AtBlock file 0 (h.decodeHeader s) := ⟨by simp [decodeHeader, hs.1], by omega, hs.2.1, hs.2.2⟩
  exact ⟨hheader, fun k hk => sizes_of_fits hc hheader hT hfirst (by omega)
    (fun e he => hall e (List.mem_append_right _ he)) k (Nat.zero_le k) hk⟩

section Nonneg

variable {h : NwaData} (hsize : 0 ≤ h.blocksize) (file : NtFileDisk)
include hsize

theorem blockFits_iff (hL : 0 ≤ h.blockLength) (hT : 0 ≤ h.tmpdataSize) (k : Nat) : h.BlockFits file k ↔
    (NtFileDisk.asked file.fileSize (u32 (h.curcompsize k)) ≤ h.tmpdataSize ∨
      file.rest.length ≤ h.askedBefore file.fileSize k + h.tmpdataSize) ∧
    -2 ≤ h.curblocksize k ∧ h.curblocksize k ≤ h.blockLength := by
  have hzero : h.dropped k = 0 := by
    rw [dropped, (skipAt_nonneg hsize k).1, Int.zero_mul, Int.zero_mul, i32_eq (by decide) (by decide)]
    rfl
  obtain ⟨hfile, hrest⟩ := blockFile_nonneg hsize file k
  have hfile : (h.place file k).2 = file.fileSize := hfile
  have hlen := congrArg List.length hrest
  rw [NtFileDisk.rest, List.length_drop, List.length_drop] at hlen
  have hleft : (file.data.length : Int) ≤ (h.place file k).1 + h.tmpdataSize ↔
      (file.rest.length : Int) ≤ h.askedBefore file.fileSize k + h.tmpdataSize := by
    have hlen : file.data.length - (h.place file k).1 = file.rest.length - h.askedBefore file.fileSize k := hlen
    omega
  constructor
  · rintro ⟨-, hread, hblock⟩
    rw [hfile, hleft] at hread
    rw [hzero] at hblock
    exact ⟨hread, by omega, hblock.2⟩
  · rintro ⟨hread, hblock⟩
    refine ⟨by omega, ?_, by omega⟩
    rw [hfile, hleft]
    exact hread

/-- With a block size that is not negative the blocks are read one behind the other: all but the last have to fit into
`tmpdata`, or the file ends, and the last one into the buffer. -/
theorem inBounds_iff (hc : h.hasTmpdata) (hpos : 0 < h.blocks) (hT : 0 ≤ h.tmpdataSize) :
    h.InBounds file ↔ 44 ≤ h.blockLength ∧
      (∀ k : Nat, k + 1 < h.blocks → NtFileDisk.asked file.fileSize (u32 (h.curcompsize k)) ≤ h.tmpdataSize ∨
        file.rest.length ≤ h.askedBefore file.fileSize k + h.tmpdataSize) ∧
      -2 ≤ i32 (h.restsize * h.byps) ∧ i32 (h.restsize * h.byps) ≤ h.blockLength := by
  have hlen := blockLength_eq hc
  have hup := h.tmpdataSize_upper
  constructor
  · rintro ⟨hheader, hblocks⟩
    have hfits := fun k hk =>
      (blockFits_iff hsize file (by omega) hT k).1 ((hblocks k hk).resolve_left (skipAt_nonneg hsize k).2)
    refine ⟨hheader, fun k hk => (hfits k (by omega)).1, ?_⟩
    have hlast := (hfits (h.blocks.toNat - 1) (by omega)).2
    rwa [curblocksize_last (by omega)] at hlast
  · rintro ⟨hheader, hinner, hlast⟩
    have htmp := tmpdataSize_eq (by omega) hT
    refine ⟨hheader, fun k hk => .inr ((blockFits_iff hsize file (by omega) hT k).2 ?_)⟩
    rcases Int.lt_or_eq_of_le (show (k : Int) + 1 ≤ h.blocks by omega) with hk | hk
    · rw [curblocksize_inner hk]
      exact ⟨hinner k hk, by omega, by omega⟩
    · rw [curblocksize_last hk, curcompsize_last hk, u32_eq hT (by omega), NtFileDisk.asked, if_neg (by omega)]
      exact ⟨.inl (by omega), hlast⟩

end Nonneg

/-! ## Raw data -/

section Raw

variable {h : NwaData} (hraw : h.complevel = -1)
include hraw

theorem decode_rawHeader {s : NwaState} (hs : s.curblock = -1) :
    h.decode s = some ([.write 0x2c], 0x2c,
      { h.decodeHeader s with file := s.file.seek (i32 (h.offsetStart + 0x2c)) }) := by
  rw [decode, if_pos hraw, decodeRaw, if_pos hs]
  rfl

theorem decode_rawEnd {s : NwaState} (hs : s.curblock ≠ -1) (hch : h.channels ≠ 0) (hsize : 0 ≤ h.blocksize)
    (hskip : s.skipCount = 0) (hend : h.blocks ≤ s.curblock) : h.decode s = some ([], -1, s) := by
  have hno : ¬ s.skipCount > h.blocksize.tdiv h.channels := by
    rw [hskip]
    exact Int.not_lt.2 (Int.tdiv_nonneg hsize (Int.natCast_nonneg _))
  rw [decode, if_pos hraw, decodeRaw, if_neg hs, if_neg hch, if_neg hno, if_neg (Int.not_lt.2 hend)]

/-- A block of raw data goes straight into the caller's buffer. -/
theorem decode_rawBlock {s : NwaState} (hs : s.curblock ≠ -1) (hch : h.channels ≠ 0) (hsize : h.blocksize = 65536)
    (hbps : h.bps < 2 ^ 16) (hskip : s.skipCount = 0) (hlt : s.curblock < h.blocks) :
    h.decode s = some ([.write (s.file.read (65536 * h.byps)).1.length], i32 (s.file.read (65536 * h.byps)).1.length,
      { s with
        data := overlay s.data (s.file.read (65536 * h.byps)).1
        file := (s.file.read (65536 * h.byps)).2
        skipCount := 0
        curblock := s.curblock + 1 }) := by
  have hno : ¬ s.skipCount > h.blocksize.tdiv h.channels := by
    rw [hskip, hsize]
    exact Int.not_lt.2 (Int.tdiv_nonneg (by decide) (Int.natCast_nonneg _))
  have hread : u32 (i32 (h.blocksize - s.skipCount * h.channels) * h.byps) = 65536 * h.byps := by
    have : h.byps ≤ 8192 := by
      unfold byps
      omega
    rw [hskip, hsize, Int.zero_mul, i32_eq (by decide) (by decide), u32_eq (by omega) (by omega)]
    omega
  rw [decode, if_pos hraw, decodeRaw, if_neg hs, if_neg hch, if_neg hno, if_pos hlt]
  dsimp only
  rw [hread, if_neg (not_not.2 hskip)]

theorem blockLength_raw (hsize : h.blocksize = 65536) (hbps : h.bps = 8 ∨ h.bps = 16) :
    h.blockLength = 65536 * h.byps := by
  have hbyps : h.byps = 1 ∨ h.byps = 2 := by
    unfold byps
    omega
  rw [blockLength, if_neg (by simp [hraw]), blockBytes, hsize, i32_eq (by omega) (by omega)]

/-- Raw data that `CheckHeader` accepts stays inside the buffer. -/
theorem fits_raw (hch : h.channels ≠ 0) (hsize : h.blocksize = 65536) (hbps : h.bps = 8 ∨ h.bps = 16) {fuel : Nat}
    {s : NwaState} (hs : s.skipCount = 0) : ∀ e ∈ (run h.turn fuel s).1, h.Fits e := by
  have hbyps : h.byps = 1 ∨ h.byps = 2 := by
    unfold byps
    omega
  have hlen := blockLength_raw hraw hsize hbps
  refine run_emit (fun s => s.skipCount = 0) h.Fits ?_ ?_ hs
  · intro s hs
    by_cases h1 : s.curblock = -1
    · have hheader : (44 : Int) ≤ h.blockLength := by omega
      refine turn_fits (decode_rawHeader hraw h1) ?_ (.inr (.inr ⟨by decide, hheader⟩))
      intro e he
      rw [List.mem_singleton.1 he]
      exact hheader
    · rcases Int.lt_or_le s.curblock h.blocks with hlt | hle
      · have hread := s.file.read_length_le (65536 * h.byps) (by omega)
        refine turn_fits (decode_rawBlock hraw h1 hch hsize (by omega) hs hlt) ?_ ?_
        · intro e he
          rw [List.mem_singleton.1 he]
          show ((s.file.read (65536 * h.byps)).1.length : Int) ≤ h.blockLength
          omega
        · refine .inr (.inr ?_)
          rw [i32_eq (by omega) (by omega)]
          omega
      · exact turn_fits (decode_rawEnd hraw h1 hch (by omega) hs hle) (fun e he => by cases he) (.inl rfl)
  · intro s emit s' hs hmore
    obtain ⟨accesses, err, hd, -, hne⟩ := turn_more hmore
    by_cases h1 : s.curblock = -1
    · rw [decode_rawHeader hraw h1] at hd
      cases hd
      exact hs
    · rcases Int.lt_or_le s.curblock h.blocks with hlt | hle
      · rw [decode_rawBlock hraw h1 hch hsize (by omega) hs hlt, Option.some.injEq, Prod.mk.injEq, Prod.mk.injEq] at hd
        rw [← hd.2.2]
      · rw [decode_rawEnd hraw h1 hch (by omega) hs hle] at hd
        cases hd
        exact absurd rfl hne

end Raw

/-! ## Every run comes to an end -/

/-- The states of any run: a block that is skipped or read moves `curblock` on, up to the number of blocks. -/
structure Progress (h : NwaData) (s : NwaState) : Prop where
  lower : -1 ≤ s.curblock
  raw : h.complevel = -1 → s.skipCount = 0
  upper : h.hasTmpdata → s.curblock ≤ h.blocks

theorem decodeCompressed_progress {h : NwaData} {s s' : NwaState} {accesses : List Event} {err : Int}
    (hd : h.decodeCompressed s = (accesses, err, s')) (h0 : err ≠ 0) (h1 : err ≠ -1) :
    h.hasTmpdata ∧ s'.curblock = s.curblock + 1 ∧ h.blocks ≠ s.curblock := by
  unfold decodeCompressed at hd
  split at hd
  · cases hd
    exact absurd rfl h1
  · next htmp =>
    split at hd
    · cases hd
      exact absurd rfl h0
    · next hend =>
      -- header, skipped or decoded: `curblock` moves on by one each time
      refine ⟨not_not.1 htmp, ?_, hend⟩
      split at hd
      · cases hd
        rfl
      · split at hd
        · cases hd
          exact absurd rfl h1
        · split at hd
          · cases hd
            rfl
          · unfold decodeBlock at hd
            dsimp only at hd
            split at hd <;> cases hd <;> rfl

theorem turn_progress {h : NwaData} (hsize : h.complevel = -1 → h.blocksize = 65536 ∧ h.bps < 2 ^ 16)
    {s s' : NwaState} {emit : List Event} (hs : h.Progress s) (hmore : h.turn s = .more emit s') :
    h.Progress s' ∧ (max 0 h.blocks - s'.curblock).toNat < (max 0 h.blocks - s.curblock).toNat := by
  obtain ⟨accesses, err, hd, h0, h1⟩ := turn_more hmore
  have hlow := hs.lower
  by_cases hlevel : h.complevel = -1
  · have hskip := hs.raw hlevel
    -- raw data: the header, or a block that is there
    have hnext : s'.curblock = s.curblock + 1 ∧ s'.skipCount = 0 ∧ s.curblock < max 0 h.blocks := by
      by_cases hfirst : s.curblock = -1
      · rw [decode_rawHeader hlevel hfirst, Option.some.injEq, Prod.mk.injEq, Prod.mk.injEq] at hd
        rw [← hd.2.2]
        exact ⟨rfl, hskip, by omega⟩
      · by_cases hch : h.channels = 0
        · rw [decode, if_pos hlevel, decodeRaw, if_neg hfirst, if_pos hch] at hd
          cases hd
        · rcases Int.lt_or_le s.curblock h.blocks with hlt | hle
          · rw [decode_rawBlock hlevel hfirst hch (hsize hlevel).1 (hsize hlevel).2 hskip hlt, Option.some.injEq,
              Prod.mk.injEq, Prod.mk.injEq] at hd
            rw [← hd.2.2]
            exact ⟨rfl, rfl, by omega⟩
          · rw [decode_rawEnd hlevel hfirst hch (by rw [(hsize hlevel).1]; decide) hskip hle] at hd
            cases hd
            exact absurd rfl h1
    obtain ⟨hcur, hskip', hlt⟩ := hnext
    have htmp : ¬ h.hasTmpdata := fun hc => compressed_of_tmpdata hc hlevel
    exact ⟨⟨by omega, fun _ => hskip', fun hc => absurd hc htmp⟩, by omega⟩
  · rw [decode, if_neg hlevel, Option.some.injEq] at hd
    obtain ⟨htmp, hcur, hne⟩ := decodeCompressed_progress hd h0 h1
    have hup := hs.upper htmp
    exact ⟨⟨by omega, fun hraw => absurd hraw hlevel, fun _ => by omega⟩, by omega⟩

end NwaData

section Convert

variable {junk : Junk} {file file' : NtFileDisk} {inSize : Int} {h : NwaData}
  (hr : NwaData.readHeader junk file inSize = some (h, file'))
include hr

theorem convertNwaToWav_eq : convertNwaToWav junk file inSize =
    if h.hasTmpdata ∧ h.tmpdataSize < 0 ∨ h.blockLength < 0 then ([], some .fault)
    else run h.turn (h.blocks.toNat + 2) ⟨-1, junk.tmpdata, junk.data, file', 0⟩ := by
  rw [convertNwaToWav, hr]

theorem blocks_pos (hc : h.hasTmpdata) : 0 < h.blocks :=
  (NwaData.readHeader_offsets hr (NwaData.offsets_of_tmpdata hc)).1

theorem progress_start : h.Progress ⟨-1, junk.tmpdata, junk.data, file', 0⟩ :=
  ⟨Int.le_refl _, fun _ => rfl, fun hc => by
    have := blocks_pos hr hc
    simp only
    omega⟩

theorem raw_size (hraw : h.complevel = -1) : h.blocksize = 65536 ∧ h.bps < 2 ^ 16 :=
  ⟨(NwaData.readHeader_raw hr hraw).1, (NwaData.readHeader_raw hr hraw).2.2.1⟩

end Convert

/-- The loop of `ConvertNwaToWav` ends for every file: the fuel of the model is enough. -/
theorem convertNwaToWav_halts (junk : Junk) (file : NtFileDisk) (inSize : Int) :
    ∃ r, (convertNwaToWav junk file inSize).2 = some r := by
  cases hr : NwaData.readHeader junk file inSize with
  | none => exact ⟨.fault, by rw [convertNwaToWav, hr]⟩
  | some p =>
    obtain ⟨h, file'⟩ := p
    rw [convertNwaToWav_eq hr]
    split
    · exact ⟨.fault, rfl⟩
    · refine run_halts h.Progress (fun s => (max 0 h.blocks - s.curblock).toNat) ?_ (progress_start hr) ?_
      · intro s emit s' hs hmore
        exact NwaData.turn_progress (raw_size hr) hs hmore
      · simp only
        omega

/-! ## Files -/

/-- A mono file of 16-bit samples at level 0 with these blocks. -/
def nwaFile (blocksize restsize : Nat) (blocks : List (List UInt8)) : List UInt8 :=
  let samples := (blocks.length - 1) * blocksize + restsize
  let start := 44 + 4 * blocks.length
  le16 1 ++ le16 16 ++ le32 44100 ++ le32 0 ++ le32 0 ++ le32 blocks.length ++ le32 (2 * samples) ++
    le32 (start + blocks.flatten.length) ++ le32 samples ++ le32 blocksize ++ le32 restsize ++ le32 0 ++
    ((List.range blocks.length).flatMap fun k => le32 (start + (blocks.take k).flatten.length)) ++ blocks.flatten

def noJunk : Junk := ⟨fun _ => 0, fun _ => 0, fun _ => 0, fun _ => 0⟩

/-! ## What keeps a run inside its buffers -/

/-- Raw data; or no run at all, since an allocation of negative size throws; or sizes that fit. -/
def NwaData.Bounded (h : NwaData) (file : NtFileDisk) : Prop :=
  h.complevel = -1 ∨ h.tmpdataSize < 0 ∨ h.blockLength < 0 ∨ h.InBounds file

/-- An accepted file is read without an access outside the buffers if and only if it has such sizes. -/
theorem convertNwaToWav_fits {junk : Junk} {file : NtFileDisk} {inSize : Int} {h : NwaData} {file' : NtFileDisk}
    (hr : NwaData.readHeader junk file inSize = some (h, file')) (hc : h.checkHeader) :
    (∀ e ∈ (convertNwaToWav junk file inSize).1, h.Fits e) ↔ h.Bounded file' := by
  rw [convertNwaToWav_eq hr]
  by_cases hraw : h.complevel = -1
  · -- raw data
    have hch := NwaData.checked_of_checkHeader hc
    have hsize := (NwaData.readHeader_raw hr hraw).1
    have htmp : ¬ h.hasTmpdata := fun htmp => NwaData.compressed_of_tmpdata htmp hraw
    have hlen : ¬ h.blockLength < 0 := by
      rw [NwaData.blockLength_raw hraw hsize hch.bps]
      omega
    rw [if_neg fun hno => hno.elim (fun hno => htmp hno.1) hlen]
    exact ⟨fun _ => .inl hraw, fun _ => NwaData.fits_raw hraw (by have := hch.channels; omega) hsize hch.bps rfl⟩
  · have htmp : h.hasTmpdata := by simp [NwaData.hasTmpdata, hraw, hc]
    have hpos := blocks_pos hr htmp
    by_cases hthrow : h.tmpdataSize < 0 ∨ h.blockLength < 0
    · rw [if_pos (hthrow.imp_left fun hT => ⟨htmp, hT⟩)]
      exact ⟨fun _ => .inr (hthrow.imp_right .inl), fun _ e he => (List.not_mem_nil he).elim⟩
    · rw [not_or] at hthrow
      rw [if_neg fun hno => hno.elim (fun hno => hthrow.1 hno.2) hthrow.2]
      constructor
      · intro hall
        refine .inr (.inr (.inr ?_))
        exact NwaData.inBounds_of_fits htmp hpos (by omega) (by omega) ⟨rfl, rfl, rfl⟩ hall
      · rintro (hno | hno | hno | hb)
        · exact absurd hno hraw
        · exact absurd hno hthrow.1
        · exact absurd hno hthrow.2
        · exact NwaData.fits_of_inBounds htmp hpos (by omega) hb (.inl ⟨rfl, rfl, rfl⟩)

/-- The sizes of one full block fit. -/
theorem convertNwaToWav_fits_full :
    (chunks (convertNwaToWav noJunk (.openFile (nwaFile 22 22 [List.replicate 11 0])) (-1)).1).length = 2 ∧
    ∀ e ∈ (convertNwaToWav noJunk (.openFile (nwaFile 22 22 [List.replicate 11 0])) (-1)).1,
      NwaData.Fits ⟨1, 16, 44100, 0, 0, 1, 44, 59, 22, 22, 22, some [48], 0, 59⟩ e :=
  ⟨by decide +kernel, (@convertNwaToWav_fits noJunk (.openFile (nwaFile 22 22 [List.replicate 11 0])) (-1)
    ⟨1, 16, 44100, 0, 0, 1, 44, 59, 22, 22, 22, some [48], 0, 59⟩
    ⟨nwaFile 22 22 [List.replicate 11 0], 59, 48⟩ (by decide +kernel) (by decide +kernel)).2
    (.inr (.inr (.inr ((NwaData.inBounds_iff (by decide) _ (by decide +kernel) (by decide) (by decide +kernel)).2
      ⟨by decide +kernel, fun k hk => absurd hk (by simp only; omega), by decide +kernel⟩))))⟩

/-- A negative `blocksize` whose bytes wrap round to a buffer of 200: the only block is passed over. -/
example : results (convertNwaToWav noJunk (.openFile (nwaFile 2147483748 22 [List.replicate 11 0])) (-1)).1 =
    [44, -2, 0] := by decide +kernel

/-- A last block of 23 samples in a file with blocks of 22: `CheckHeader` accepts it, and 46 bytes are
written to a buffer of 44. -/
theorem convertNwaToWav_overflows : ¬ ∀ (junk : Junk) (file file' : NtFileDisk) (inSize : Int) (h : NwaData),
    NwaData.readHeader junk file inSize = some (h, file') → h.checkHeader →
      ∀ e ∈ (convertNwaToWav junk file inSize).1, h.Fits e := by
  intro hall
  have := hall noJunk (.openFile (nwaFile 22 23 [List.replicate 11 0])) ⟨nwaFile 22 23 [List.replicate 11 0], 59, 48⟩
    (-1) ⟨1, 16, 44100, 0, 0, 1, 46, 59, 23, 22, 23, some [48], 0, 59⟩ (by decide +kernel) (by decide +kernel)
    (.write 46) (by decide +kernel)
  exact absurd this (by decide +kernel)

end SiglusExtract.Nwa
