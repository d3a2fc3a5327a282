/-
`skip_count` in compressed data (nwa2wav.cpp): of the block in which the skipping ends only as many bytes are
moved up as are skipped, and a block that is skipped to its end looks like the end of the file.
-/
import SiglusExtract.Nwa.Skip

namespace SiglusExtract.Nwa

open Bytes CInt BitStream Machine

/-! ## What a turn shows -/

theorem chunks_turn {accesses : List Event} (h : chunks accesses = []) (err : Int) (bytes : List UInt8) :
    chunks (accesses ++ [.ret err] ++ [.chunk bytes]) = [bytes] := by
  rw [chunks_append, chunks_append, h]
  rfl

theorem results_turn {accesses : List Event} (h : results accesses = []) (err : Int) (bytes : List UInt8) :
    results (accesses ++ [.ret err] ++ [.chunk bytes]) = [err] := by
  rw [results_append, results_append, h]
  rfl

/-! ## The bytes that are moved -/

theorem bytesAt_getElem? (m : Nat → UInt8) (p n i : Nat) :
    (bytesAt m p n)[i]? = if i < n then some (m (p + i)) else none := by
  rw [bytesAt, List.getElem?_map]
  split
  · next h => rw [List.getElem?_range h, Option.map_some]
  · next h => rw [List.getElem?_eq_none (by rw [List.length_range]; omega), Option.map_none]

/-- From `skip` on the buffer keeps what it holds: right where that repeats what is behind it. -/
theorem moved_eq_drop_iff (old : Nat → UInt8) {l : List UInt8} {skip : Nat} (h : skip ≤ l.length) :
    bytesAt (overlay (overlay old l) (bytesAt (overlay old l) skip skip)) 0 (l.length - skip) = l.drop skip ↔
      ∀ i < l.length - skip, skip ≤ i → l[i]? = l[i + skip]? := by
  have hold : ∀ i, i < l.length → some (overlay old l i) = l[i]? := by
    intro i hi
    rw [overlay_starts old l i hi, List.getElem?_eq_getElem hi]
  have hmoved : ∀ i, i + skip < l.length →
      some (overlay (overlay old l) (bytesAt (overlay old l) skip skip) i) =
        if i < skip then l[i + skip]? else l[i]? := by
    intro i hi
    rw [overlay, bytesAt_getElem?]
    split
    · rw [Option.getD_some, hold (skip + i) (by omega), Nat.add_comm]
    · rw [Option.getD_none, hold i (by omega)]
  constructor
  · intro heq i hi hle
    have hi' := congrArg (·[i]?) heq
    simp only [bytesAt_getElem?, Nat.zero_add, List.getElem?_drop] at hi'
    rwa [if_pos (by omega), hmoved i (by omega), if_neg (by omega), Nat.add_comm] at hi'
  · intro hall
    apply List.ext_getElem?
    intro i
    rw [bytesAt_getElem?, Nat.zero_add, List.getElem?_drop, Nat.add_comm]
    split
    · rw [hmoved i (by omega)]
      split
      · rfl
      · exact hall i (by omega) (by omega)
    · exact (List.getElem?_eq_none (by omega)).symm

/-! ## Files whose blocks hold whole frames -/

namespace NwaData

section WellFormed

variable {h : NwaData} {rest : List UInt8} {bs : List (List UInt8)} (hw : h.WellFormed rest bs)
include hw

/-- The frames of a full block. -/
theorem frames_wellFormed (hframes : (h.channels : Int) ∣ h.blocksize) : ∃ frames : Nat, 0 < frames ∧
    h.blocksize = (frames * h.channels : Nat) ∧ h.blocksize.tdiv h.channels = frames := by
  have hch := (checked_of_tmpdata hw.compressed).channels
  have h1 := hw.blocksize
  obtain ⟨q, hq⟩ := hframes
  have hq0 : 0 < q := by
    by_contra hno
    have := Int.mul_nonpos_of_nonneg_of_nonpos (Int.natCast_nonneg h.channels) (Int.not_lt.1 hno)
    omega
  refine ⟨q.toNat, by omega, ?_, ?_⟩
  · rw [hq, Int.natCast_mul, Int.toNat_of_nonneg (by omega), Int.mul_comm]
  · rw [hq, Int.mul_tdiv_cancel_left _ (by omega)]
    omega

/-- A block in front of the last one that is skipped whole. -/
theorem decode_skip_wellFormed {s : NwaState} (h0 : 0 ≤ s.curblock) (hlt : s.curblock < h.blocks)
    (hskip : s.skipCount > h.blocksize.tdiv h.channels) :
    h.decode s = some ([], -2, h.skipBlock (h.curcompsize s.curblock) s) := by
  obtain ⟨-, hpos, htmp⟩ := blockBytes_wellFormed hw
  unfold tmpdataSize at htmp
  rw [decode_compressed hw.compressed, decodeCompressed, if_neg (by simp [hw.compressed]), if_neg (by omega),
    if_neg (by omega), if_neg (by omega), if_pos hskip]

/-- The file behind blocks that are skipped whole: the other blocks. -/
theorem skipFile_wellFormed {file : NtFileDisk} (hfile : file.rest = rest) : ∀ {k : Nat}, k < bs.length →
    (skipFile (fun j => h.curcompsize j) file k).rest = (bs.drop k).flatten
  | 0, _ => by
    rw [List.drop_zero, ← hw.data]
    exact hfile
  | k + 1, hk => by
    have hb : bs[k]? = some bs[k] := List.getElem?_eq_getElem (by omega)
    have ih := skipFile_wellFormed hfile (k := k) (by omega)
    rw [List.drop_eq_getElem_cons (by omega), List.flatten_cons] at ih
    rw [skipFile, ((curcompsize_wellFormed hw hb).1 hk).1]
    exact (NtFileDisk.seek_forward _ _).trans (by rw [ih, List.drop_left])

variable {k : Nat} {b : List UInt8} (hb : bs[k]? = some b)
include hb

/-- The block in which the skipping ends. -/
theorem decode_part_wellFormed {s : NwaState} (hs : s.curblock = k) {left skip : Nat} (hskip : s.skipCount = left)
    (hpos : 0 < left) (hle : (left : Int) ≤ h.blocksize.tdiv h.channels) (hbytes : skip = left * h.channels * h.byps)
    (hin : skip ≤ (h.decoded b k).length) {post : List UInt8} (hrest : s.file.rest = b ++ post) :
    ∃ (accesses : List Event) (s' : NwaState),
      h.decode s = some (accesses, (((h.decoded b k).length - skip : Nat) : Int), s') ∧
      ((∀ e ∈ accesses, h.Fits e) ↔ ((skip + skip : Nat) : Int) ≤ h.blockLength) ∧ chunks accesses = [] ∧
      results accesses = [] ∧
      s'.curblock = k + 1 ∧ s'.skipCount = 0 ∧ (k + 1 < bs.length → s'.file.rest = post) ∧
      s'.data = overlay (overlay s.data (h.decoded b k)) (bytesAt (overlay s.data (h.decoded b k)) skip skip) := by
  obtain ⟨-, hbpos, htmp⟩ := blockBytes_wellFormed hw
  have hk : k < bs.length := (List.getElem?_eq_some_iff.1 hb).1
  have hnum := hw.number
  obtain ⟨hread, hwrite, hpcm, hpost⟩ := nextBlock_wellFormed hw hb hs hrest
  have hlen := decoded_length hw hb
  have hfit := (curblocksize_wellFormed hw hk).2
  have hup : h.blockLength < 2 ^ 31 := by
    rw [blockLength_eq hw.compressed]
    exact i32_upper _
  have hskipped : i32 (s.skipCount * h.channels * h.byps) = skip := by
    rw [hskip, hbytes, ← Int.natCast_mul, ← Int.natCast_mul, i32_eq (by omega) (by omega)]
  refine ⟨[.read (h.readBlock s).1.length, .write (h.blockPcm s).length, .fetch (skip + skip), .write skip],
    { h.nextBlock s with
      data := overlay (overlay s.data (h.decoded b k)) (bytesAt (overlay s.data (h.decoded b k)) skip skip) },
    ?_, ?_, rfl, rfl, ?_, rfl, hpost, rfl⟩
  · have hno : ¬ s.skipCount > h.blocksize.tdiv h.channels := by omega
    unfold tmpdataSize at htmp
    rw [decode_compressed hw.compressed, decodeCompressed, if_neg (by simp [hw.compressed]), if_neg (by omega),
      if_neg (by omega), if_neg (by omega), if_neg hno, decodeBlock]
    dsimp only
    rw [if_neg (by omega), hskipped, u32_eq (by omega) (by omega), Int.toNat_natCast, hs, ← hlen, nextBlock, hpcm,
      i32_eq (by omega) (by omega)]
    rw [← Int.ofNat_sub hin]
    rfl
  · constructor
    · intro hall
      exact hall (.fetch (skip + skip)) (by simp)
    · intro hfetch e he
      simp only [List.mem_cons, List.not_mem_nil, or_false] at he
      rcases he with rfl | rfl | rfl | rfl
      · exact hread
      · exact hwrite
      · exact hfetch
      · show (skip : Int) ≤ h.blockLength
        omega
  · simp only [nextBlock, hs]

omit hb in
/-- From the block on in which the skipping ends. -/
theorem run_part_wellFormed {n fuel : Nat} (hk : k + n + 1 = bs.length) {s : NwaState} (hs : s.curblock = k)
    {left skip : Nat} (hskip : s.skipCount = left) (hpos : 0 < left) (hle : (left : Int) ≤ h.blocksize.tdiv h.channels)
    (hbytes : skip = left * h.channels * h.byps) {b : List UInt8} (hb : bs[k]? = some b)
    (hin : skip ≤ (h.decoded b k).length) (hrest : s.file.rest = (bs.drop k).flatten) (hfuel : n + 1 < fuel) :
    (chunks (run h.turn fuel s).1).flatten = (h.decoded b k).drop skip ++ (h.pcm (bs.drop (k + 1)) (k + 1)).flatten ∧
        n + 1 ≤ (results (run h.turn fuel s).1).length ∧ (∃ file, (run h.turn fuel s).2 = some (.returned file)) ↔
      ((skip + skip : Nat) : Int) ≤ h.blockLength ∧ ((h.decoded b k).length = skip → n = 0) ∧
        ∀ i < (h.decoded b k).length - skip, skip ≤ i → (h.decoded b k)[i]? = (h.decoded b k)[i + skip]? := by
  obtain ⟨fuel, rfl⟩ : ∃ m, fuel = m + 1 := ⟨fuel - 1, by omega⟩
  obtain ⟨hlt, rfl⟩ := List.getElem?_eq_some_iff.1 hb
  rw [List.drop_eq_getElem_cons hlt, List.flatten_cons] at hrest
  obtain ⟨accesses, s', hd, hfits, hchunks, hresults, hcur, hskip', hpost, hdata⟩ :=
    decode_part_wellFormed hw hb hs hskip hpos hle hbytes hin hrest
  have hlen := decoded_length hw hb
  have hfit := (curblocksize_wellFormed hw hlt).2
  generalize h.decoded bs[k] k = l at *
  by_cases hfetch : ((skip + skip : Nat) : Int) ≤ h.blockLength
  case neg =>
    -- `memmove` reads behind the buffer
    have hturn : h.turn s = .halt (accesses ++ [.ret ((l.length - skip : Nat) : Int)]) .fault := by
      unfold turn
      simp only [hd]
      exact if_neg fun hall => hfetch (hfits.1 fun e he => hall e (List.mem_append_left _ he))
    rw [run_halt hturn]
    constructor
    · rintro ⟨-, -, file, hfile⟩
      cases hfile
    · rintro ⟨hno, -⟩
      exact absurd hno hfetch
  replace hfits := hfits.2 hfetch
  rw [and_iff_right hfetch]
  rcases Nat.lt_or_eq_of_le hin with hmore | hnone
  · -- a rest of the block: it is passed on, and the blocks behind it
    have hturn := turn_chunk hd hfits (by omega) (by omega)
    rw [hdata, Int.toNat_natCast] at hturn
    obtain ⟨hrun, hcalls, hreturn⟩ := run_wellFormed hw (n := n) fuel (k := k + 1) (s := s') (by omega) hcur hskip'
      (fun hn => ⟨[], by rw [hpost (by omega), List.append_nil]⟩) (by omega)
    rw [run_more hturn, chunks_append, chunks_turn hchunks, hrun, results_append, List.length_append,
      results_turn hresults, List.length_singleton, List.flatten_append, List.flatten_singleton,
      List.append_cancel_right_eq, moved_eq_drop_iff s.data hin]
    constructor
    · rintro ⟨hmoved, -⟩
      exact ⟨fun heq => by omega, hmoved⟩
    · rintro ⟨-, hmoved⟩
      exact ⟨hmoved, by omega, hreturn⟩
  · -- the block is skipped to its end: no more turns
    rw [show l.length - skip = 0 by omega] at hd
    have hturn := turn_return hd hfits (by omega)
    have hshown : chunks (accesses ++ [.ret 0]) = [] := by
      rw [chunks_append, hchunks]
      rfl
    have hcalled : results (accesses ++ [.ret 0]) = [0] := by
      rw [results_append, hresults]
      rfl
    rw [run_halt hturn, hshown, hcalled, List.drop_eq_nil_of_le (by omega), List.nil_append]
    constructor
    · rintro ⟨-, hturns, -⟩
      exact ⟨fun _ => by simpa using hturns, fun i hi _ => by omega⟩
    · rintro ⟨hzero, -⟩
      obtain rfl := hzero hnone.symm
      rw [List.drop_eq_nil_of_le (by omega)]
      exact ⟨rfl, Nat.le_refl 1, s'.file, rfl⟩

omit hb in
/-- The samples behind `m` full blocks. -/
theorem pcm_drop {size : Nat} (hsize : h.blockBytes = size) : ∀ {m : Nat}, m < bs.length →
    (h.pcm bs 0).flatten.drop (m * size) = (h.pcm (bs.drop m) m).flatten
  | 0, _ => by rw [Nat.zero_mul, List.drop_zero, List.drop_zero]
  | m + 1, hm => by
    have hb : bs[m]? = some bs[m] := List.getElem?_eq_getElem (by omega)
    have hlen : (h.decoded bs[m] m).length = size := by
      have := decoded_length hw hb
      rw [curblocksize_inner (by have := hw.number; omega), hsize] at this
      omega
    rw [Nat.succ_mul, ← List.drop_drop, pcm_drop hsize (m := m) (by omega),
      List.drop_eq_getElem_cons (show m < bs.length by omega), pcm_cons_flatten]
    exact List.drop_left' hlen

end WellFormed

/-- Where the skipping of `k` frames ends: the block, and how many frames of it are skipped. -/
def skipEnd (h : NwaData) (k : Nat) : Nat × Nat :=
  let frames := (h.blocksize.tdiv h.channels).toNat
  ((k - 1) / frames, (k - 1) % frames + 1)

/-- The samples of block `k`, as its bits say. -/
def content (h : NwaData) (bs : List (List UInt8)) (k : Nat) : List UInt8 :=
  (blockSamples h.info (bs[k]?.getD []) (h.samplesOf k)).getD []

/-- As many bytes as are skipped stand behind them in the buffer, the skipping does not end with a block, the last one
apart, and what the block holds behind as many bytes as are skipped repeats as it is left in place. -/
def SkipsInside (h : NwaData) (bs : List (List UInt8)) (k : Nat) : Prop :=
  let j := (h.skipEnd k).1
  let skip := (h.skipEnd k).2 * h.channels * h.byps
  ((skip + skip : Nat) : Int) ≤ h.blockLength ∧ ((h.content bs j).length = skip → j + 1 = bs.length) ∧
    ∀ i < (h.content bs j).length - skip, skip ≤ i → (h.content bs j)[i]? = (h.content bs j)[i + skip]?

instance (h : NwaData) (bs : List (List UInt8)) (k : Nat) : Decidable (h.SkipsInside bs k) :=
  inferInstanceAs (Decidable (_ ∧ _ ∧ ∀ i < _, _ → _))

end NwaData

section Convert

variable {junk : Junk} {data : List UInt8} {inSize : Int} {h : NwaData} {file' : NtFileDisk} {bs : List (List UInt8)}
  (hr : NwaData.readHeader junk (.openFile data) inSize = some (h, file')) (hw : h.WellFormed file'.rest bs)
include hr hw

theorem convertNwaToWavSkip_eq (k : Nat) : convertNwaToWavSkip junk (.openFile data) k inSize =
    run h.turn (h.blocks.toNat + k + 1 + 1) ⟨-1, junk.tmpdata, junk.data, file', k⟩ := by
  obtain ⟨-, hpos, htmp⟩ := NwaData.blockBytes_wellFormed hw
  have hlen := NwaData.blockLength_eq hw.compressed
  rw [convertNwaToWavSkip, hr]
  exact if_neg fun hno => hno.elim (fun hno => by omega) (by omega)

/-- A WAV header that does not fit: no call of `Decode` but the first. -/
theorem results_overflow (k : Nat) (hlen : h.blockLength < 44) :
    results (convertNwaToWavSkip junk (.openFile data) k inSize).1 = [0x2c] := by
  have hfirst := NwaData.decode_first hw.compressed (blocks_pos hr hw.compressed)
    (s := ⟨-1, junk.tmpdata, junk.data, file', k⟩) rfl
  have hover : ¬ h.Fits (.write 0x2c) := Int.not_le.2 hlen
  have hturn : h.turn ⟨-1, junk.tmpdata, junk.data, file', k⟩ = .halt [.write 0x2c, .ret 0x2c] .fault := by
    unfold NwaData.turn
    simp only [hfirst]
    rw [if_neg fun hall => hover (hall _ (by simp))]
    rfl
  rw [convertNwaToWavSkip_eq hr hw, run_halt hturn]
  rfl

/-- The WAV header is written: what follows is a run from the first block on. -/
theorem convertNwaToWavSkip_blocks (k : Nat) (hlen : 44 ≤ h.blockLength) : ∃ s : NwaState, s.curblock = 0 ∧
    s.file = file' ∧ s.skipCount = k ∧
    pcmBytes (convertNwaToWavSkip junk (.openFile data) k inSize).1 =
      (chunks (run h.turn (h.blocks.toNat + k + 1) s).1).flatten ∧
    (results (convertNwaToWavSkip junk (.openFile data) k inSize).1).length =
      (results (run h.turn (h.blocks.toNat + k + 1) s).1).length + 1 ∧
    (convertNwaToWavSkip junk (.openFile data) k inSize).2 = (run h.turn (h.blocks.toNat + k + 1) s).2 := by
  have hfirst := NwaData.turn_header (s := ⟨-1, junk.tmpdata, junk.data, file', k⟩) hlen
    (NwaData.decode_first hw.compressed (blocks_pos hr hw.compressed) rfl) (h.decodeHeader_data _)
  refine ⟨h.decodeHeader ⟨-1, junk.tmpdata, junk.data, file', k⟩, rfl, rfl, rfl, ?_⟩
  rw [convertNwaToWavSkip_eq hr hw, run_more hfirst]
  exact ⟨h.pcmBytes_header _, h.results_header _, rfl⟩

/-- Nothing skipped: the samples of all the blocks. -/
theorem pcmBytes_blocks (hlen : 44 ≤ h.blockLength) :
    pcmBytes (convertNwaToWav junk (.openFile data) inSize).1 = (h.pcm bs 0).flatten ∧
      h.blocks + 1 ≤ (results (convertNwaToWav junk (.openFile data) inSize).1).length ∧
      ∃ file, (convertNwaToWav junk (.openFile data) inSize).2 = some (.returned file) := by
  have hnum := hw.number
  obtain ⟨s, hcur, hfile, hskip, hbytes, hcalls, hstop⟩ := convertNwaToWavSkip_blocks hr hw 0 hlen
  rw [Nat.cast_zero, convertNwaToWavSkip_zero] at hbytes hcalls hstop
  obtain ⟨hrun, hturns, hreturn⟩ := NwaData.run_wellFormed hw (n := bs.length) (h.blocks.toNat + 0 + 1) (k := 0)
    (s := s) (Nat.zero_add _) hcur hskip (fun _ => ⟨[], by rw [hfile, List.append_nil]; exact hw.data⟩) (by omega)
  rw [hbytes, hcalls, hstop, hrun]
  exact ⟨rfl, by omega, hreturn⟩

/-- In front of the block in which the skipping ends: `m` blocks are skipped whole, and `left` frames are left. -/
theorem convertNwaToWavSkip_blocksAt (hlen : 44 ≤ h.blockLength) {frames : Nat}
    (hframes : h.blocksize.tdiv h.channels = frames) {m left : Nat} (hm : m < bs.length)
    (hleft : 0 < left) (hsmall : m * frames + left < 2 ^ 31) :
    ∃ s : NwaState, s.curblock = m ∧ s.skipCount = left ∧ s.file.rest = (bs.drop m).flatten ∧
      ∃ fuel, bs.length - m < fuel ∧
        pcmBytes (convertNwaToWavSkip junk (.openFile data) (m * frames + left : Nat) inSize).1 =
          (chunks (run h.turn fuel s).1).flatten ∧
        (results (convertNwaToWavSkip junk (.openFile data) (m * frames + left : Nat) inSize).1).length =
          (results (run h.turn fuel s).1).length + m + 1 ∧
        (convertNwaToWavSkip junk (.openFile data) (m * frames + left : Nat) inSize).2 = (run h.turn fuel s).2 := by
  have hnum := hw.number
  obtain ⟨s, hcur, hfile, hskip, hpcm, hcalls, hstop⟩ := convertNwaToWavSkip_blocks hr hw (m * frames + left) hlen
  obtain ⟨fuel, hfuel, hlt⟩ : ∃ fuel, h.blocks.toNat + (m * frames + left) + 1 = m + fuel ∧ bs.length - m < fuel :=
    ⟨h.blocks.toNat + (m * frames + left) + 1 - m, by omega, by omega⟩
  obtain ⟨s', hs', hrun⟩ := NwaData.run_skips (fun j => h.curcompsize j) file' m
    (fun k s hk hs hskip => by
      have hcur := hs.curblock
      rw [NwaData.decode_skip_wellFormed hw (by omega) (by omega) (by rw [hframes]; exact hskip), hcur])
    hframes hleft fuel (k := 0) (Nat.le_of_eq (Nat.zero_add m)) hsmall ⟨hcur, hfile, hskip⟩
  rw [hfuel, hrun] at hpcm hcalls hstop
  refine ⟨s', ?_, hs'.skipCount, ?_, fuel, hlt, ?_, ?_, hstop⟩
  · rw [hs'.curblock, Nat.zero_add]
  · rw [hs'.file, Nat.zero_add]
    exact NwaData.skipFile_wellFormed hw rfl hm
  · rw [hpcm, chunks_append, chunks_replicate, List.nil_append]
  · rw [hcalls, results_append, results_replicate, List.length_append, List.length_replicate]
    omega

/-- How far the skipping of `k` frames goes: `m` blocks, and into the next one. -/
theorem skipEnd_wellFormed (hwhole : (h.channels : Int) ∣ h.blocksize) {k : Nat} (hpos : 0 < k)
    (hk : (k * h.channels : Nat) ≤ h.samplecount) : ∃ frames m left : Nat,
      h.blocksize.tdiv h.channels = frames ∧ h.blocksize = (frames * h.channels : Nat) ∧ k = m * frames + left ∧
      h.skipEnd k = (m, left) ∧ 0 < left ∧ left ≤ frames ∧ m < bs.length ∧ m * frames + left < 2 ^ 31 ∧
      left * h.channels ≤ h.samplesOf m := by
  have hchecked := NwaData.checked_of_tmpdata hw.compressed
  have hchannels : 0 < h.channels := by have := hchecked.channels; omega
  have hblocks := blocks_pos hr hw.compressed
  have hnum := hw.number
  obtain ⟨frames, hframes, hsize, hdiv⟩ := NwaData.frames_wellFormed hw hwhole
  have hmod := Nat.div_add_mod' (k - 1) frames
  have hlt := Nat.mod_lt (k - 1) hframes
  have hend : h.skipEnd k = ((k - 1) / frames, (k - 1) % frames + 1) := by
    rw [NwaData.skipEnd, hdiv, Int.toNat_natCast]
  generalize (k - 1) / frames = m at *
  generalize (k - 1) % frames = part at *
  obtain rfl : k = m * frames + (part + 1) := by omega
  -- the samples of the file, and those in front of the end of the skipping
  obtain ⟨n, hn⟩ : ∃ n, bs.length = n + 1 := ⟨bs.length - 1, by omega⟩
  obtain ⟨hrest0, hrest⟩ := hw.restsize
  obtain ⟨r, hr⟩ := Int.eq_ofNat_of_zero_le hrest0
  have hcount : h.samplecount = (n * (frames * h.channels) + r : Nat) := by
    have htotal := hw.total
    have hsamples := hchecked.samplecount
    rw [show h.blocks - 1 = n by omega, hsize, hr, ← Int.natCast_mul, ← Int.natCast_add] at htotal hsamples
    rw [hsamples, i32_eq (by omega) ?_]
    rcases NwaData.byps_cases hw with hb | hb <;> rw [hb] at htotal <;> omega
  have hskipped : m * (frames * h.channels) + (part + 1) * h.channels ≤ n * (frames * h.channels) + r := by
    rw [Nat.add_mul, Nat.mul_assoc, hcount] at hk
    exact Int.ofNat_le.1 hk
  have hpart : (part + 1) * h.channels ≤ frames * h.channels := Nat.mul_le_mul_right _ hlt
  have hsome : 0 < (part + 1) * h.channels := Nat.mul_pos (Nat.succ_pos part) hchannels
  rw [hr, hsize] at hrest
  have hrest := Int.ofNat_le.1 hrest
  have hm : m < n + 1 := by
    refine Nat.lt_of_mul_lt_mul_right (a := frames * h.channels) ?_
    rw [Nat.succ_mul]
    omega
  refine ⟨frames, m, part + 1, hdiv, hsize, rfl, hend, Nat.succ_pos part, hlt, by omega, ?_, ?_⟩
  · have hmul := Nat.mul_le_mul_left (m * frames + (part + 1)) hchannels
    have hup : h.samplecount < 2 ^ 31 := hchecked.samplecount ▸ i32_upper _
    omega
  · rw [NwaData.samplesOf]
    split
    · obtain rfl : m = n := by omega
      rw [hr, Int.toNat_natCast]
      omega
    · rw [hsize, Int.toNat_natCast]
      exact hpart

/-- Compressed data: right where the WAV header fits into a block and the block in which the skipping ends allows
it. -/
theorem dropsFrames_blocks_iff (hwhole : (h.channels : Int) ∣ h.blocksize) {k : Nat}
    (hk : (k * h.channels : Nat) ≤ h.samplecount) :
    h.DropsFrames junk (.openFile data) inSize k ↔ 44 ≤ h.blockLength ∧ (k = 0 ∨ h.SkipsInside bs k) := by
  have hblocks := blocks_pos hr hw.compressed
  rcases lt_or_ge h.blockLength 44 with hshort | hlen
  · constructor
    · rintro ⟨-, hcalls, -⟩
      rw [results_overflow hr hw k hshort, List.length_singleton] at hcalls
      omega
    · rintro ⟨hlen, -⟩
      omega
  rw [and_iff_right hlen]
  obtain ⟨hpcm, hcalls, hreturn⟩ := pcmBytes_blocks hr hw hlen
  rcases Nat.eq_zero_or_pos k with rfl | hpos
  · rw [NwaData.DropsFrames, Nat.cast_zero, convertNwaToWavSkip_zero, Nat.zero_mul, Nat.zero_mul]
    exact ⟨fun _ => .inl rfl, fun _ => ⟨rfl, hcalls, hreturn⟩⟩
  have hnum := hw.number
  obtain ⟨frames, m, left, hdiv, hsize, rfl, hend, hleft, hle, hm, hsmall, hin⟩ :=
    skipEnd_wellFormed hr hw hwhole hpos hk
  have hb : bs[m]? = some bs[m] := List.getElem?_eq_getElem hm
  have hcontent : h.content bs m = h.decoded bs[m] m := by
    rw [NwaData.content, hb, Option.getD_some, NwaData.decoded_wellFormed hw hb, Option.getD_some]
  have hlength : (h.decoded bs[m] m).length = h.samplesOf m * h.byps := by
    have := NwaData.decoded_length hw hb
    rw [(NwaData.curblocksize_wellFormed hw hm).1,
      (NwaData.byps_info (NwaData.checked_of_tmpdata hw.compressed)).1] at this
    exact Int.ofNat.inj this
  have hbytes : h.blockBytes = (frames * h.channels * h.byps : Nat) := by
    rw [(NwaData.blockBytes_wellFormed hw).1, hsize, ← Int.natCast_mul]
  obtain ⟨s, hcur, hskip, hrest, fuel, hfuel, hshown, hresults, hstop⟩ :=
    convertNwaToWavSkip_blocksAt hr hw hlen hdiv hm hleft hsmall
  have hskipped : left * h.channels * h.byps ≤ (h.decoded bs[m] m).length :=
    hlength ▸ Nat.mul_le_mul_right _ hin
  have hmore : bs.length - m - 1 + 1 < fuel := by omega
  have hpart := NwaData.run_part_wellFormed hw (by omega) hcur hskip hleft
    (by rw [hdiv]; exact Int.ofNat_le.2 hle) rfl hb hskipped hrest hmore
  have hdrop : (h.pcm bs 0).flatten.drop ((m * frames + left) * h.channels * h.byps) =
      (h.decoded bs[m] m).drop (left * h.channels * h.byps) ++ (h.pcm (bs.drop (m + 1)) (m + 1)).flatten := by
    rw [Nat.add_mul, Nat.add_mul, Nat.mul_assoc m, Nat.mul_assoc m, ← List.drop_drop, NwaData.pcm_drop hw hbytes hm,
      List.drop_eq_getElem_cons hm, NwaData.pcm_cons_flatten, List.drop_append_of_le_length hskipped]
  rw [NwaData.DropsFrames, hshown, hresults, hstop, hpcm, hdrop, NwaData.SkipsInside, hend]
  dsimp only
  rw [hcontent]
  constructor
  · rintro ⟨hrun, hturns, hreturn⟩
    obtain ⟨hfetch, hlast, hsame⟩ := hpart.1 ⟨hrun, by omega, hreturn⟩
    exact .inr ⟨hfetch, fun heq => by have := hlast heq; omega, hsame⟩
  · rintro (hzero | ⟨hfetch, hlast, hsame⟩)
    · omega
    · obtain ⟨hrun, hturns, hreturn⟩ := hpart.2 ⟨hfetch, fun heq => by have := hlast heq; omega, hsame⟩
      exact ⟨hrun, by omega, hreturn⟩

end Convert

/-! ## Well-formed files -/

/-- A file that `CheckHeader` accepts and that ends with its data: raw, or blocks of whole frames. -/
inductive NwaData.WholeFrames (h : NwaData) (rest : List UInt8) : List (List UInt8) → Prop
  | raw : h.complevel = -1 → h.checkHeader → (rest.length : Int) = h.datasize → WholeFrames h rest []
  | blocks (bs : List (List UInt8)) : h.WellFormed rest bs → (h.channels : Int) ∣ h.blocksize → WholeFrames h rest bs

/-- Skipping samples is dropping them, and no block is missed: the exact condition for raw and for compressed
data. -/
theorem convertNwaToWavSkip_iff {junk : Junk} {data : List UInt8} {inSize : Int} {h : NwaData} {file' : NtFileDisk}
    {bs : List (List UInt8)} {k : Nat} (hr : NwaData.readHeader junk (.openFile data) inSize = some (h, file'))
    (hw : h.WholeFrames file'.rest bs) (hk : (k * h.channels : Nat) ≤ h.samplecount) :
    h.DropsFrames junk (.openFile data) inSize k ↔
      if h.complevel = -1 then
        k = 0 ∨ ¬ 65536 / h.channels ∣ k ∨ h.samplecount - (k * h.channels : Nat) ≤ 65536
      else 44 ≤ h.blockLength ∧ (k = 0 ∨ h.SkipsInside bs k) := by
  cases hw with
  | raw hraw hc hfull =>
    rw [if_pos hraw]
    exact dropsFrames_raw_iff hr hraw hc hfull hk
  | blocks _ hw hwhole =>
    rw [if_neg (NwaData.compressed_of_tmpdata hw.compressed)]
    exact dropsFrames_blocks_iff hr hw hwhole hk

/-- A block of 22 samples, and one of 3 that are alike. -/
def twoBlocks : List UInt8 := nwaFile 22 3 [List.replicate 11 0, [5, 0, 0, 0]]

/-- The header of `twoBlocks`. -/
def twoHeader : NwaData := ⟨1, 16, 44100, 0, 0, 2, 50, 67, 25, 22, 3, some [52, 63], 0, 67⟩

theorem twoBlocks_wholeFrames : NwaData.readHeader noJunk (.openFile twoBlocks) (-1) =
      some (twoHeader, ⟨twoBlocks, 67, 52⟩) ∧
    twoHeader.WholeFrames (NtFileDisk.rest ⟨twoBlocks, 67, 52⟩) [List.replicate 11 0, [5, 0, 0, 0]] :=
  ⟨by decide +kernel, .blocks _
    ⟨by decide +kernel, by decide, by decide, by decide, by decide, by decide, by decide +kernel, by decide +kernel,
      by decide +kernel, by decide +kernel⟩ (by decide)⟩

/-- The first block and one sample of the second one. -/
theorem convertNwaToWavSkip_two :
    pcmBytes (convertNwaToWavSkip noJunk (.openFile twoBlocks) 23 (-1)).1 = [5, 0, 5, 0] :=
  ((convertNwaToWavSkip_iff (k := 23) twoBlocks_wholeFrames.1 twoBlocks_wholeFrames.2 (by decide)).2
    (by decide +kernel)).1.trans (by decide +kernel)

/-- The first block alone: the loop ends there. -/
theorem convertNwaToWavSkip_stops : ¬ ∀ (data : List UInt8) (h : NwaData) (file' : NtFileDisk) (bs : List (List UInt8))
    (k : Nat), NwaData.readHeader noJunk (.openFile data) (-1) = some (h, file') → h.WholeFrames file'.rest bs →
      (k * h.channels : Nat) ≤ h.samplecount → h.DropsFrames noJunk (.openFile data) (-1) k := by
  intro hall
  have := (hall twoBlocks twoHeader ⟨twoBlocks, 67, 52⟩ _ 22 twoBlocks_wholeFrames.1 twoBlocks_wholeFrames.2
    (by decide)).1
  exact absurd this (by decide +kernel)

end SiglusExtract.Nwa
