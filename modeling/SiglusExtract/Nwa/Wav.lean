/-
A well-formed compressed NWA file becomes the WAV file that its header announces: the WAV header, and the
samples of block after block, each decoded from the bytes of that block whatever `tmpdata` held before
and whatever the last read brings in from behind the block.
-/
import SiglusExtract.Nwa.Safety

namespace SiglusExtract.Nwa

open Bytes CInt BitStream Machine

namespace NwaData

/-! ## Well-formed files -/

/-- The samples of block `k`. -/
def samplesOf (h : NwaData) (k : Nat) : Nat := if (k : Int) + 1 = h.blocks then h.restsize.toNat else h.blocksize.toNat

/-- A header that `CheckHeader` accepts for compressed data, in front of these blocks: they fill the rest of
the file, the table tells where each one starts, and each holds the codes of its samples. -/
structure WellFormed (h : NwaData) (rest : List UInt8) (bs : List (List UInt8)) : Prop where
  compressed : h.hasTmpdata
  number : bs.length = h.blocks
  blocksize : 1 ≤ h.blocksize
  restsize : 0 ≤ h.restsize ∧ h.restsize ≤ h.blocksize
  tmpdata : h.blocksize * h.byps * 2 < 2 ^ 31
  total : ((h.blocks - 1) * h.blocksize + h.restsize) * h.byps < 2 ^ 31
  data : rest = bs.flatten
  offsets : ∀ k : Nat, k < bs.length → h.offset k = 44 + 4 * h.blocks + (bs.take k).flatten.length
  fits : ∀ b ∈ bs, (b.length : Int) ≤ h.blocksize * h.byps * 2
  complete : ∀ p ∈ bs.zipIdx, (blockSamples h.info p.1 (h.samplesOf p.2)).isSome

/-- The samples of a block on its own. -/
def decoded (h : NwaData) (b : List UInt8) (k : Nat) : List UInt8 :=
  nwaDecode h.info (overlay (fun _ => 0) b) b.length (h.curblocksize k)

/-- The samples of the blocks from block `k` on, where there are any. -/
def pcm (h : NwaData) (bs : List (List UInt8)) (k : Nat) : List (List UInt8) :=
  ((bs.zipIdx k).map fun (b, k) => h.decoded b k).filter (· ≠ [])

section WellFormed

variable {h : NwaData} {rest : List UInt8} {bs : List (List UInt8)} (hw : h.WellFormed rest bs)
include hw

theorem byps_cases : h.byps = 1 ∨ h.byps = 2 := by
  have := (checked_of_tmpdata hw.compressed).bps
  unfold byps
  omega

theorem blockBytes_wellFormed : h.blockBytes = h.blocksize * h.byps ∧ 0 < h.blockBytes ∧
    h.tmpdataSize = 2 * h.blockBytes := by
  have h1 := hw.blocksize
  have h2 := hw.tmpdata
  have hbytes : h.blockBytes = h.blocksize * h.byps := by
    rcases byps_cases hw with hb | hb <;> rw [hb] at h2 <;> rw [blockBytes, hb, i32_eq (by omega) (by omega)]
  have hpos : 0 < h.blockBytes := by
    rw [hbytes]
    rcases byps_cases hw with hb | hb <;> rw [hb] <;> omega
  refine ⟨hbytes, hpos, ?_⟩
  rw [tmpdataSize, i32_eq (by omega) (by omega), Int.mul_comm]

/-- The decoded size of a block, from the number of its samples. -/
theorem curblocksize_wellFormed {k : Nat} (hk : k < bs.length) :
    h.curblocksize k = (h.samplesOf k * h.info.byps : Nat) ∧ h.curblocksize k ≤ h.blockLength := by
  obtain ⟨hbytes, hpos, -⟩ := blockBytes_wellFormed hw
  have hnum := hw.number
  have h1 := hw.blocksize
  have h2 := hw.restsize
  have h3 := hw.tmpdata
  rw [(byps_info (checked_of_tmpdata hw.compressed)).1, blockLength_eq hw.compressed]
  rcases Nat.lt_or_eq_of_le (show k + 1 ≤ bs.length from hk) with hlt | hlast
  · rw [curblocksize_inner (by omega), samplesOf, if_neg (by omega), hbytes, Int.natCast_mul,
      Int.toNat_of_nonneg (by omega)]
    exact ⟨rfl, Int.le_refl _⟩
  · rw [curblocksize_last (by omega), samplesOf, if_pos (by omega), hbytes, Int.natCast_mul,
      Int.toNat_of_nonneg (by omega)]
    rcases byps_cases hw with hb | hb <;> rw [hb] at h3 ⊢ <;> rw [i32_eq (by omega) (by omega)] <;>
      exact ⟨rfl, by omega⟩

variable {k : Nat} {b : List UInt8} (hb : bs[k]? = some b)
include hb

theorem complete_wellFormed : ∃ out, blockSamples h.info b (h.samplesOf k) = some out :=
  Option.isSome_iff_exists.1 (hw.complete (b, k) (List.mk_mem_zipIdx_iff_getElem?.2 hb))

/-- The compressed size of a block: its length, and for the last one at least that. -/
theorem curcompsize_wellFormed : (k + 1 < bs.length → h.curcompsize k = b.length ∧ b.length ≠ 0) ∧
    b.length ≤ h.curcompsize k ∧ 0 < h.curcompsize k ∧ h.curcompsize k ≤ h.tmpdataSize := by
  obtain ⟨hbytes, hpos, htmp⟩ := blockBytes_wellFormed hw
  have hk : k < bs.length := (List.getElem?_eq_some_iff.1 hb).1
  have hnum := hw.number
  have h1 := hw.blocksize
  have hfits := hw.fits b (List.mem_of_getElem? hb)
  have htmpdata := hw.tmpdata
  rcases Nat.lt_or_eq_of_le (show k + 1 ≤ bs.length from hk) with hlt | hlast
  · have hoff : h.offset (k + 1 : Nat) - h.offset k = b.length := by
      rw [hw.offsets (k + 1) hlt, hw.offsets k hk, List.take_add_one, hb, List.flatten_append, List.length_append]
      simp
    have hcomp : h.curcompsize k = b.length := by
      rw [curcompsize, if_pos (by omega), show (k : Int) + 1 = (k + 1 : Nat) by omega, hoff,
        i32_eq (by omega) (by omega)]
    have hne : b.length ≠ 0 := by
      obtain ⟨out, hout⟩ := complete_wellFormed hw hb
      have := blockSamples_pos hout (by rw [samplesOf, if_neg (by omega)]; omega)
      omega
    rw [hcomp, htmp, hbytes]
    refine ⟨fun _ => ⟨rfl, hne⟩, ?_, ?_, ?_⟩ <;> omega
  -- the last block is read into the whole of `tmpdata`, however long it is
  · have hcomp : h.curcompsize k = h.tmpdataSize := if_neg (by omega)
    rw [hcomp, htmp, hbytes]
    refine ⟨fun hlt => absurd hlt (by omega), ?_, ?_, ?_⟩
    · rw [Int.mul_comm]
      exact hfits
    · omega
    · exact Int.le_refl _

/-- The samples of a block on its own are the ones its codes say. -/
theorem decoded_wellFormed : blockSamples h.info b (h.samplesOf k) = some (h.decoded b k) := by
  obtain ⟨out, hout⟩ := complete_wellFormed hw hb
  obtain ⟨hsize, -⟩ := curblocksize_wellFormed hw (List.getElem?_eq_some_iff.1 hb).1
  rw [decoded, hsize, nwaDecode_eq (byps_info (checked_of_tmpdata hw.compressed)).2 (compLevel_le hw.compressed)
    (overlay_starts _ b) hout (Int.le_refl _), hout]

theorem decoded_length : ((h.decoded b k).length : Int) = h.curblocksize k := by
  rw [blockSamples_length (decoded_wellFormed hw hb), (curblocksize_wellFormed hw (List.getElem?_eq_some_iff.1 hb).1).1]

/-- Block by block, whatever else has been read: the samples of the block on its own. -/
theorem blockPcm_wellFormed {s : NwaState} (hs : s.curblock = k) {more : List UInt8}
    (hread : (h.readBlock s).1 = b ++ more) : h.blockPcm s = h.decoded b k := by
  obtain ⟨hsize, -⟩ := curblocksize_wellFormed hw (List.getElem?_eq_some_iff.1 hb).1
  -- `tmpdata` starts with the block; what is behind it, read or left over, is not looked at
  have hmem : Starts (overlay s.tmpdata (h.readBlock s).1) b := by
    rw [hread]
    exact (overlay_starts s.tmpdata (b ++ more)).of_append
  rw [blockPcm, hs, hsize]
  exact nwaDecode_eq (byps_info (checked_of_tmpdata hw.compressed)).2 (compLevel_le hw.compressed) hmem
    (decoded_wellFormed hw hb) (curcompsize_wellFormed hw hb).2.1

/-- A block in front of which a turn stands: what is read and decoded, and the file behind it. -/
theorem nextBlock_wellFormed {s : NwaState} (hs : s.curblock = k) {post : List UInt8}
    (hrest : s.file.rest = b ++ post) :
    h.Fits (.read (h.readBlock s).1.length) ∧ h.Fits (.write (h.blockPcm s).length) ∧ h.blockPcm s = h.decoded b k ∧
      (k + 1 < bs.length → (h.nextBlock s).file.rest = post) := by
  obtain ⟨hbytes, hpos, htmp⟩ := blockBytes_wellFormed hw
  obtain ⟨hinner, hle, hcpos, hctmp⟩ := curcompsize_wellFormed hw hb
  have hup : h.tmpdataSize < 2 ^ 31 := i32_upper _
  have hread : h.readBlock s = s.file.read (h.curcompsize k).toNat := by
    rw [readBlock, hs, u32_eq (by omega) (by omega)]
  -- what is read starts with the block, and for all but the last block is the block
  obtain ⟨more, hmore⟩ : ∃ more, (h.readBlock s).1 = b ++ more := by
    rw [hread]
    exact NtFileDisk.read_prefix hrest (by omega) (by omega)
  have hpcm := blockPcm_wellFormed hw hb hs hmore
  have hlen := decoded_length hw hb
  have hfit := (curblocksize_wellFormed hw (List.getElem?_eq_some_iff.1 hb).1).2
  refine ⟨?_, ?_, hpcm, ?_⟩
  · show ((h.readBlock s).1.length : Int) ≤ h.tmpdataSize
    have := s.file.read_length_le ((h.curcompsize k).toNat) (by omega)
    rw [hread]
    omega
  · show ((h.blockPcm s).length : Int) ≤ h.blockLength
    rw [hpcm]
    omega
  · intro hlt
    obtain ⟨hcomp, hne⟩ := hinner hlt
    rw [nextBlock, hread, hcomp, Int.toNat_natCast]
    exact (NtFileDisk.read_append hrest hne).2

/-- The block read and decoded whole. -/
theorem decode_wellFormed {s : NwaState} (hs : s.curblock = k) (hskip : s.skipCount = 0) {post : List UInt8}
    (hrest : s.file.rest = b ++ post) :
    ∃ n m s', h.decode s = some ([.read n, .write m], h.curblocksize k, s') ∧ h.Fits (.read n) ∧ h.Fits (.write m) ∧
      s'.curblock = k + 1 ∧ s'.skipCount = 0 ∧ (k + 1 < bs.length → s'.file.rest = post) ∧
      bytesAt s'.data 0 (h.curblocksize k).toNat = h.decoded b k := by
  obtain ⟨-, hpos, htmp⟩ := blockBytes_wellFormed hw
  have hk : k < bs.length := (List.getElem?_eq_some_iff.1 hb).1
  have hnum := hw.number
  have hsize := hw.blocksize
  obtain ⟨hread, hwrite, hpcm, hpost⟩ := nextBlock_wellFormed hw hb hs hrest
  have hlen := decoded_length hw hb
  refine ⟨(h.readBlock s).1.length, (h.blockPcm s).length, h.nextBlock s, ?_, hread, hwrite, ?_, rfl, hpost, ?_⟩
  · exact hs ▸ decode_block hw.compressed hpos (by omega) (by omega) (by omega) (by omega) hskip
  · simp only [nextBlock, hs]
  · rw [nextBlock, hpcm, ← hlen, Int.toNat_natCast]
    exact bytesAt_overlay s.data _

end WellFormed

theorem pcm_cons (h : NwaData) (b : List UInt8) (bs : List (List UInt8)) (k : Nat) :
    h.pcm (b :: bs) k = if h.decoded b k = [] then h.pcm bs (k + 1) else h.decoded b k :: h.pcm bs (k + 1) := by
  rw [pcm, List.zipIdx_cons, List.map_cons, List.filter_cons, pcm]
  by_cases hne : h.decoded b k = [] <;> simp [hne]

/-- The turns from block `k` on: the samples of each block in turn, and then the loop stops. `Decode` is called for
each of them. -/
theorem run_wellFormed {h : NwaData} {rest : List UInt8} {bs : List (List UInt8)} (hw : h.WellFormed rest bs) :
    ∀ {n : Nat} (fuel : Nat) {k : Nat} {s : NwaState}, k + n = bs.length → s.curblock = k → s.skipCount = 0 →
      (0 < n → ∃ post, s.file.rest = (bs.drop k).flatten ++ post) → n < fuel →
      chunks (run h.turn fuel s).1 = h.pcm (bs.drop k) k ∧ n ≤ (results (run h.turn fuel s).1).length ∧
        ∃ file, (run h.turn fuel s).2 = some (.returned file)
  | _, 0, _, _, _, _, _, _, hfuel => absurd hfuel (Nat.not_lt_zero _)
  | 0, fuel + 1, k, s, hk, hs, hskip, _, _ => by
    have hlen : 0 ≤ h.blockLength := by
      obtain ⟨-, hpos, -⟩ := blockBytes_wellFormed hw
      rw [blockLength_eq hw.compressed]
      omega
    have hturn := turn_return (decode_end hw.compressed (s := s) (by have := hw.number; omega))
      (fun e he => by cases he) hlen
    rw [run_halt hturn, List.drop_eq_nil_of_le (by omega)]
    exact ⟨rfl, Nat.zero_le _, s.file, rfl⟩
  | n + 1, fuel + 1, k, s, hk, hs, hskip, hrest, hfuel => by
    obtain ⟨post, hrest⟩ := hrest (Nat.succ_pos n)
    have hlt : k < bs.length := by omega
    have hb : bs[k]? = some bs[k] := List.getElem?_eq_getElem hlt
    rw [List.drop_eq_getElem_cons hlt, List.flatten_cons, List.append_assoc] at hrest
    rw [List.drop_eq_getElem_cons hlt, pcm_cons]
    obtain ⟨r, w, s', hd, hfr, hfw, hcur, hskip', hpost, hout⟩ := decode_wellFormed hw hb hs hskip hrest
    obtain ⟨hsize, hle⟩ := curblocksize_wellFormed hw hlt
    have hlen := decoded_length hw hb
    have hfits : ∀ e ∈ [Event.read r, .write w], h.Fits e := by
      intro e he
      rw [List.mem_cons, List.mem_singleton] at he
      rcases he with rfl | rfl
      · exact hfr
      · exact hfw
    -- a block without samples makes `Decode` return 0, which ends the loop
    rcases Int.lt_or_eq_of_le (show 0 ≤ h.curblocksize k by omega) with hpos | hzero
    · rw [run_more (turn_chunk hd hfits hpos hle), if_neg (by intro hnil; rw [hnil] at hlen; simp at hlen; omega)]
      obtain ⟨ih, hcalls, file, hfile⟩ := run_wellFormed hw (n := n) fuel (k := k + 1) (s := s') (by omega) hcur hskip'
        (fun hn => ⟨post, hpost (by omega)⟩) (by omega)
      refine ⟨?_, Nat.succ_le_succ hcalls, file, hfile⟩
      rw [chunks_append, ih, hout]
      rfl
    · -- only the last block can be empty
      have hlast : n = 0 := by
        by_contra hn
        rw [curblocksize_inner (by have := hw.number; omega)] at hzero
        exact absurd hzero (Int.ne_of_lt (blockBytes_wellFormed hw).2.1)
      subst hlast
      rw [← hzero] at hd
      rw [run_halt (turn_return hd hfits (by omega)), if_pos (List.length_eq_zero_iff.1 (by omega)),
        List.drop_eq_nil_of_le (by omega)]
      exact ⟨rfl, Nat.le_refl 1, s'.file, rfl⟩

theorem pcm_cons_flatten (h : NwaData) (b : List UInt8) (bs : List (List UInt8)) (k : Nat) :
    (h.pcm (b :: bs) k).flatten = h.decoded b k ++ (h.pcm bs (k + 1)).flatten := by
  rw [pcm_cons]
  split
  · next hnil => rw [hnil, List.nil_append]
  · rw [List.flatten_cons]

/-- The samples of the last `n` blocks. -/
theorem pcm_length {h : NwaData} {rest : List UInt8} {bs : List (List UInt8)} (hw : h.WellFormed rest bs) :
    ∀ {n k : Nat}, k + n = bs.length → ((h.pcm (bs.drop k) k).flatten.length : Int) =
      if n = 0 then 0 else ((n - 1) * h.blocksize + h.restsize) * h.byps
  | 0, k, hk => by
    rw [List.drop_eq_nil_of_le (by omega)]
    rfl
  | n + 1, k, hk => by
    have hlt : k < bs.length := by omega
    have hnum := hw.number
    have h1 := hw.blocksize
    have h2 := hw.restsize
    have ih := pcm_length hw (n := n) (k := k + 1) (by omega)
    rw [List.drop_eq_getElem_cons hlt, pcm_cons_flatten, List.length_append, Int.natCast_add,
      decoded_length hw (List.getElem?_eq_getElem hlt), ih, (curblocksize_wellFormed hw hlt).1,
      (byps_info (checked_of_tmpdata hw.compressed)).1, samplesOf, if_neg (Nat.succ_ne_zero n)]
    cases n with
    | zero =>
      rw [if_pos (by omega), if_pos rfl, Int.natCast_mul, Int.toNat_of_nonneg h2.1]
      push_cast
      ring
    | succ n =>
      rw [if_neg (by omega), if_neg (Nat.succ_ne_zero n), Int.natCast_mul, Int.toNat_of_nonneg (by omega)]
      push_cast
      ring

/-- The size in the header is the size of the samples. -/
theorem datasize_wellFormed {h : NwaData} {rest : List UInt8} {bs : List (List UInt8)} (hw : h.WellFormed rest bs)
    (hpos : 0 < h.blocks) : ((h.pcm bs 0).flatten.length : Int) = h.datasize := by
  have hnum := hw.number
  have h1 := hw.blocksize
  have h2 := hw.restsize
  have htotal := hw.total
  have hdata := (checked_of_tmpdata hw.compressed).datasize
  have hsamples := (checked_of_tmpdata hw.compressed).samplecount
  have hlen := pcm_length hw (n := bs.length) (k := 0) (Nat.zero_add _)
  rw [List.drop_zero, if_neg (by omega), hnum] at hlen
  have hnonneg : 0 ≤ (h.blocks - 1) * h.blocksize + h.restsize :=
    Int.add_nonneg (Int.mul_nonneg (by omega) (by omega)) h2.1
  generalize (h.blocks - 1) * h.blocksize + h.restsize = samples at *
  rcases byps_cases hw with hb | hb <;> rw [hb] at hlen hdata htotal <;>
    rw [i32_eq (by omega) (by omega)] at hsamples <;> rw [hlen, hdata, hsamples, i32_eq (by omega) (by omega)]

end NwaData

/-- A well-formed compressed file: `out.Write` gets the WAV header and the samples of the blocks that have
any, in order and each from the bytes of its block alone, as many bytes as the header announces, and the
loop stops. -/
theorem convertNwaToWav_wellFormed {junk : Junk} {file : NtFileDisk} {inSize : Int} {h : NwaData}
    {file' : NtFileDisk} {bs : List (List UInt8)} (hr : NwaData.readHeader junk file inSize = some (h, file'))
    (hw : h.WellFormed file'.rest bs) (hlen : 44 ≤ h.blockLength) :
    chunks (convertNwaToWav junk file inSize).1 = h.wavheader :: h.pcm bs 0 ∧
      ((h.pcm bs 0).flatten.length : Int) = h.datasize ∧
      ∃ file'', (convertNwaToWav junk file inSize).2 = some (.returned file'') := by
  have hpos := blocks_pos hr hw.compressed
  have hnum := hw.number
  obtain ⟨-, hbytes, htmp⟩ := NwaData.blockBytes_wellFormed hw
  have hfirst := NwaData.turn_header (s := ⟨-1, junk.tmpdata, junk.data, file', 0⟩) hlen
    (NwaData.decode_first hw.compressed hpos rfl) (h.decodeHeader_data _)
  rw [convertNwaToWav_eq hr, if_neg (by omega), run_more hfirst]
  obtain ⟨hrun, -, file'', hfile⟩ := NwaData.run_wellFormed hw (n := bs.length) (h.blocks.toNat + 1) (k := 0)
    (s := h.decodeHeader ⟨-1, junk.tmpdata, junk.data, file', 0⟩) (by omega) rfl rfl
    (fun _ => ⟨[], by rw [List.append_nil]; exact hw.data⟩) (by omega)
  refine ⟨?_, NwaData.datasize_wellFormed hw hpos, file'', hfile⟩
  rw [chunks_append, hrun, List.drop_zero]
  rfl

/-- A block of 22 samples and one of 3. -/
theorem convertNwaToWav_wellFormed_two :
    chunks (convertNwaToWav noJunk (.openFile (nwaFile 22 3 [List.replicate 11 0, [5, 0, 0, 0]])) (-1)).1 =
      [makeWavheader 50 1 16 44100, List.replicate 44 0, [5, 0, 5, 0, 5, 0]] := by
  have h := (@convertNwaToWav_wellFormed noJunk (.openFile (nwaFile 22 3 [List.replicate 11 0, [5, 0, 0, 0]])) (-1)
    ⟨1, 16, 44100, 0, 0, 2, 50, 67, 25, 22, 3, some [52, 63], 0, 67⟩
    ⟨nwaFile 22 3 [List.replicate 11 0, [5, 0, 0, 0]], 67, 52⟩ [List.replicate 11 0, [5, 0, 0, 0]]
    (by decide +kernel)
    ⟨by decide +kernel, by decide, by decide, by decide, by decide, by decide, by decide +kernel, by decide +kernel,
      by decide +kernel, by decide +kernel⟩ (by decide +kernel)).1
  rw [h]
  decide +kernel

/-- Two ways to miss a chunk: the WAV header does not fit into a block of one sample, and an empty last
block ends the loop like the end of the file. -/
theorem convertNwaToWav_wellFormed_fails :
    ¬ (∀ (file file' : NtFileDisk) (h : NwaData) (bs : List (List UInt8)),
        NwaData.readHeader noJunk file (-1) = some (h, file') → h.WellFormed file'.rest bs → 0 < h.restsize →
          chunks (convertNwaToWav noJunk file (-1)).1 = h.wavheader :: bs.zipIdx.map fun (b, k) => h.decoded b k) ∧
      ¬ (∀ (file file' : NtFileDisk) (h : NwaData) (bs : List (List UInt8)),
        NwaData.readHeader noJunk file (-1) = some (h, file') → h.WellFormed file'.rest bs → 44 ≤ h.blockLength →
          chunks (convertNwaToWav noJunk file (-1)).1 = h.wavheader :: bs.zipIdx.map fun (b, k) => h.decoded b k) := by
  constructor
  · intro hall
    have := hall (.openFile (nwaFile 1 1 [[0, 0, 0]])) ⟨nwaFile 1 1 [[0, 0, 0]], 51, 48⟩
      ⟨1, 16, 44100, 0, 0, 1, 2, 51, 1, 1, 1, some [48], 0, 51⟩ [[0, 0, 0]] (by decide +kernel)
      ⟨by decide +kernel, by decide, by decide, by decide, by decide, by decide, by decide +kernel, by decide +kernel,
        by decide +kernel, by decide +kernel⟩ (by decide)
    exact absurd this (by decide +kernel)
  · intro hall
    have := hall (.openFile (nwaFile 22 0 [List.replicate 11 0, [0]])) ⟨nwaFile 22 0 [List.replicate 11 0, [0]], 64, 52⟩
      ⟨1, 16, 44100, 0, 0, 2, 44, 64, 22, 22, 0, some [52, 63], 0, 64⟩ [List.replicate 11 0, [0]] (by decide +kernel)
      ⟨by decide +kernel, by decide, by decide, by decide, by decide, by decide, by decide +kernel, by decide +kernel,
        by decide +kernel, by decide +kernel⟩ (by decide +kernel)
    exact absurd this (by decide +kernel)

end SiglusExtract.Nwa
