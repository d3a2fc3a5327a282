/-
An NWA file inside a larger file: `ConvertNwaToWav` is told the size of the part but never stops there. It
still writes what it writes for the part alone where all that it asks for lies in the part, where nothing
follows the part, or where the last block holds all its codes, so that what the last read brings in from
behind it is not looked at.
-/
import SiglusExtract.Nwa.Raw
import SiglusExtract.Nwa.Wav

namespace SiglusExtract.Nwa

open Bytes CInt BitStream Machine

namespace NwaData

/-- The same header at another place of a file. -/
def moved (h : NwaData) (start : Int) : NwaData := { h with offsetStart := start }

theorem ofHeader_moved (m : Nat → UInt8) (start start' size : Int) :
    ofHeader m start size = (ofHeader m start' size).moved start := rfl

theorem rawSizes_moved (h : NwaData) (start : Int) : (h.moved start).rawSizes = h.rawSizes.map (·.moved start) := by
  unfold rawSizes
  split
  · next hl => rw [if_pos (show h.complevel ≠ -1 from hl), Option.map_some]
  · next hl =>
    rw [if_neg (show ¬ h.complevel ≠ -1 from hl)]
    split
    · next hb => rw [if_pos (show h.byps = 0 from hb), Option.map_none]
    · next hb => rw [if_neg (show ¬ h.byps = 0 from hb), Option.map_some]; rfl

/-! ## The header -/

/-- `ReadHeader` where the size is known: the size of the file is not asked for. -/
theorem readHeader_sized (junk : Junk) (file : NtFileDisk) {inSize : Int} (hin : inSize ≠ -1 ∧ inSize ≠ 0) :
    readHeader junk file inSize =
      (ofHeader (overlay junk.header (file.read 0x2c).1) (if i32 file.position = -1 then 0 else i32 file.position)
        inSize).rawSizes.map fun h =>
          if h.blocks ≤ 0 ∨ h.blocks > 1000000 then (h, (file.read 0x2c).2)
          else readOffsets junk h (file.read 0x2c).2 := by
  unfold readHeader
  dsimp only
  rw [if_pos hin.1]
  cases hh : (ofHeader (overlay junk.header (file.read 0x2c).1)
      (if i32 file.position = -1 then 0 else i32 file.position) inSize).rawSizes with
  | none => rfl
  | some h =>
    have hne : h.filesize ≠ 0 := by
      obtain ⟨_, _, _, rfl⟩ := rawSizes_fields hh
      exact hin.2
    rw [Option.bind_eq_bind, Option.bind_some, Option.map_some]
    split
    · rfl
    · rfl

section Header

variable (junk : Junk) {f g : NtFileDisk} {off : Nat} {tail : List UInt8} (hw : f.Within g off tail)
include hw

theorem readOffsets_behind (h : NwaData) (start : Int) (hblocks : 0 < h.blocks ∧ h.blocks ≤ 1000000)
    (hs : (readOffsets junk h f).1.offsets ≠ none → tail = [] ∨ 4 * h.blocks ≤ f.rest.length) :
    ∃ g', readOffsets junk (h.moved start) g = ((readOffsets junk h f).1.moved start, g') ∧
      (readOffsets junk h f).2.Within g' off tail ∧ g'.fileSize = g.fileSize := by
  unfold readOffsets at hs ⊢
  by_cases hl : h.complevel = -1
  · rw [if_pos hl, if_pos (show (h.moved start).complevel = -1 from hl)]
    exact ⟨g, rfl, hw, rfl⟩
  · have hsize : u32 (h.blocks * 4) = (h.blocks * 4).toNat := u32_eq (by omega) (by omega)
    rw [if_neg hl] at hs
    have hs := hs (by simp)
    rw [if_neg hl, if_neg (show ¬ (h.moved start).complevel = -1 from hl)]
    have hread : tail = [] ∧ (u32 (h.blocks * 4) = 0 → g.fileSize < 2 ^ 32) ∨
        u32 (h.blocks * 4) ≠ 0 ∧ u32 (h.blocks * 4) ≤ f.rest.length :=
      hs.imp (fun hs => ⟨hs, fun h0 => by omega⟩) fun hs => ⟨by omega, by omega⟩
    obtain ⟨hbytes, hw'⟩ := hw.read hread
    refine ⟨(g.read (u32 (h.blocks * 4))).2, ?_, hw', rfl⟩
    simp only [moved, hbytes]

/-- `ReadHeader` finds the same header in both files, where it is in the part or nothing follows the part. -/
theorem readHeader_behind {inSize : Int} (hin : inSize ≠ -1 ∧ inSize ≠ 0) (hg : i32 g.position ≠ -1)
    (h44 : tail = [] ∨ 44 ≤ f.rest.length) :
    (readHeader junk f inSize = none → readHeader junk g inSize = none) ∧
      ∀ h f', readHeader junk f inSize = some (h, f') →
        (h.offsets ≠ none → tail = [] ∨ 44 + 4 * h.blocks ≤ f.rest.length) →
          ∃ g', readHeader junk g inSize = some (h.moved (i32 g.position), g') ∧ f'.Within g' off tail ∧
            g'.fileSize = g.fileSize := by
  have hread : tail = [] ∧ (0x2c = 0 → g.fileSize < 2 ^ 32) ∨ 0x2c ≠ 0 ∧ 0x2c ≤ f.rest.length :=
    h44.imp (fun htail => ⟨htail, fun h0 => by omega⟩) fun h44 => ⟨by decide, h44⟩
  obtain ⟨hbytes, hw'⟩ := hw.read hread
  have hrest := f.read_rest_length (show 0x2c ≠ 0 by decide)
  rw [readHeader_sized junk f hin, readHeader_sized junk g hin, hbytes, if_neg hg,
    ofHeader_moved _ (i32 g.position) (if i32 f.position = -1 then 0 else i32 f.position), rawSizes_moved]
  cases hh : (ofHeader (overlay junk.header (f.read 0x2c).1)
      (if i32 f.position = -1 then 0 else i32 f.position) inSize).rawSizes with
  | none => exact ⟨fun _ => rfl, fun h f' hr => by cases hr⟩
  | some h₀ =>
    refine ⟨fun hr => (by cases hr), fun h f' hr hs => ?_⟩
    rw [Option.map_some, Option.some.injEq] at hr
    rw [Option.map_some, Option.map_some]
    by_cases hblocks : h₀.blocks ≤ 0 ∨ h₀.blocks > 1000000
    · rw [if_pos hblocks, Prod.mk.injEq] at hr
      rw [if_pos (show (h₀.moved (i32 g.position)).blocks ≤ 0 ∨
        (h₀.moved (i32 g.position)).blocks > 1000000 from hblocks),
        ← hr.1, ← hr.2]
      exact ⟨_, rfl, hw', rfl⟩
    · rw [if_neg hblocks] at hr
      rw [if_neg (show ¬ ((h₀.moved (i32 g.position)).blocks ≤ 0 ∨ (h₀.moved (i32 g.position)).blocks > 1000000)
        from hblocks)]
      have hsame : h.blocks = h₀.blocks := by
        obtain ⟨o, ho, -⟩ := readOffsets_fields junk h₀ (f.read 0x2c).2
        rw [hr] at ho
        have hfield := congrArg NwaData.blocks ho
        exact hfield
      obtain ⟨g', hg', hwithin, hsize⟩ := readOffsets_behind junk hw' h₀ (i32 g.position) (by omega) (by
        rw [hr, ← hsame]
        exact fun hne => (hs hne).imp_right fun hs => by omega)
      rw [hr] at hg' hwithin
      exact ⟨g', congrArg some hg', hwithin, hsize⟩

end Header

/-! ## Turns in step -/

/-- Both runs return, or both stop short. -/
def Ends : Stop → Stop → Prop
  | .returned _, .returned _ => True
  | .fault, .fault => True
  | _, _ => False

/-- Two turns with the same result that pass on the same bytes. -/
theorem turn_match {h h' : NwaData} {R : NwaState → NwaState → Prop} {s t s' t' : NwaState} {acc acc' : List Event}
    {err : Int} (hd : h.decode s = some (acc, err, s')) (hd' : h'.decode t = some (acc', err, t'))
    (hfits : (∀ e ∈ acc, h.Fits e) ↔ ∀ e ∈ acc', h'.Fits e) (hret : h.Fits (.ret err) ↔ h'.Fits (.ret err))
    (hacc : chunks acc = []) (hacc' : chunks acc' = []) (hdata : t'.data = s'.data)
    (hR : (∀ e ∈ acc, h.Fits e) → err ≠ 0 → err ≠ -1 → R s' t') :
    Match Event.chunk? Event.chunk? R Ends (h.turn s) (h'.turn t) := by
  have hall : (∀ e ∈ acc ++ [.ret err], h.Fits e) ↔ ∀ e ∈ acc' ++ [.ret err], h'.Fits e := by
    simp only [List.forall_mem_append, List.forall_mem_singleton, hfits, hret]
  have hshow : (acc ++ [Event.ret err]).filterMap Event.chunk? = (acc' ++ [Event.ret err]).filterMap Event.chunk? := by
    rw [List.filterMap_append, List.filterMap_append]
    exact congrArg (· ++ _) (hacc.trans hacc'.symm)
  simp only [turn, hd, hd', hdata, ← hall]
  split
  · next hfit =>
    split
    · exact .halt hshow trivial
    · next hgo =>
      rw [not_or] at hgo
      have hnext := hR (fun e he => hfit e (List.mem_append_left _ he)) hgo.1 hgo.2
      split
      · exact .more hshow hnext
      · refine .more ?_ hnext
        rw [List.filterMap_append, hshow, ← List.filterMap_append]
  · exact .halt hshow trivial

/-! ## Compressed data -/

/-- `Decode` gets past the WAV header: both allocations succeed, and the buffer holds it. -/
structure Decodes (h : NwaData) : Prop where
  tmpdata : h.hasTmpdata
  allocated : 0 ≤ h.tmpdataSize
  header : 44 ≤ h.blockLength

/-- What a part must have for `ConvertNwaToWav` to write the same whatever `tail` follows it: the part is the
file `f`, its blocks start at `f'`. -/
structure Embedded (h : NwaData) (f f' : NtFileDisk) (tail : List UInt8) : Prop where
  table : h.offsets ≠ none → tail = [] ∨ 44 + 4 * h.blocks ≤ f.rest.length
  raw : h.complevel = -1 → tail = [] ∨ h.blocks * (65536 * h.byps) ≤ f'.rest.length
  skipped : h.Decodes → ∀ k : Nat, k < h.blocks → h.Skipped k →
    0 ≤ (h.place f' k).1 + h.curcompsize k ∧ (h.place f' k).1 + h.curcompsize k ≤ f'.data.length
  inner : h.Decodes → ∀ k : Nat, k + 1 < h.blocks → ¬ h.Skipped k → tail = [] ∨
    u32 (h.curcompsize k) ≠ 0 ∧ (h.place f' k).1 + u32 (h.curcompsize k) ≤ f'.data.length
  last : h.Decodes → ∀ k : Nat, k + 1 = h.blocks → ¬ h.Skipped k → tail = [] ∨
    (h.place f' k).1 + h.tmpdataSize ≤ f'.data.length ∨ 0 ≤ h.restsize ∧ h.restsize * h.byps < 2 ^ 31 ∧
      (blockSamples h.info (f'.data.drop (h.place f' k).1) h.restsize.toNat).isSome

theorem decode_moved {h : NwaData} (hl : h.complevel ≠ -1) (start : Int) (s : NwaState) :
    (h.moved start).decode s = h.decode s := by
  rw [decode, decode, if_neg hl, if_neg (show (h.moved start).complevel ≠ -1 from hl)]
  rfl

/-- The runs for the part and in the larger file, in front of the same block. -/
structure InStep (h : NwaData) (f' : NtFileDisk) (off : Nat) (tail : List UInt8) (s t : NwaState) : Prop where
  onBlocks : h.OnBlocks f' s
  curblock : t.curblock = s.curblock
  skipCount : t.skipCount = s.skipCount
  data : t.data = s.data
  behind : s.curblock < h.blocks → t.tmpdata = s.tmpdata ∧ s.file.Within t.file off tail ∧
    (tail = [] → t.file.fileSize < 2 ^ 32)

/-- Two states in front of a block that show the decoder the same codes: all but the bytes read is the same. -/
theorem decodeBlock_alike {h : NwaData} {s t : NwaState} (hcur : t.curblock = s.curblock)
    (hskip : t.skipCount = s.skipCount) (hdata : t.data = s.data) (hpcm : h.blockPcm t = h.blockPcm s) :
    ∃ acc, (h.decodeBlock s).1 = .read (h.readBlock s).1.length :: acc ∧
      (h.decodeBlock t).1 = .read (h.readBlock t).1.length :: acc ∧ chunks acc = [] ∧
      (h.decodeBlock t).2.1 = (h.decodeBlock s).2.1 ∧ (h.decodeBlock t).2.2.data = (h.decodeBlock s).2.2.data := by
  have hnext : (h.nextBlock t).data = (h.nextBlock s).data := by rw [nextBlock, nextBlock, hdata, hpcm]
  rw [decodeBlock, decodeBlock, hcur, hskip, hpcm, hnext]
  split
  · exact ⟨_, rfl, rfl, rfl, rfl, hnext⟩
  · exact ⟨_, rfl, rfl, rfl, rfl, rfl⟩

section Compressed

variable {h : NwaData} (hd : h.Decodes) {f f' : NtFileDisk} {off : Nat} {tail : List UInt8} (he : h.Embedded f f' tail)
include hd he

/-- A block in both runs: the same samples, and all but the last read the same bytes. -/
theorem readBlock_inStep {s t : NwaState} {k : Nat} (hs : h.AtBlock f' k s) (hlt : (k : Int) < h.blocks)
    (hk : ¬ h.Skipped k) (hst : h.InStep f' off tail s t) : h.blockPcm t = h.blockPcm s ∧
      ((k : Int) + 1 < h.blocks → (h.readBlock t).1 = (h.readBlock s).1 ∧
        (h.readBlock s).2.Within (h.readBlock t).2 off tail) ∧
      (h.Fits (.read (h.readBlock t).1.length) ↔ h.Fits (.read (h.readBlock s).1.length)) := by
  have hc := hd.tmpdata
  have hT := hd.allocated
  have hheader := hd.header
  obtain ⟨htmp, hwithin, hsized⟩ := hst.behind (by rw [hs.curblock]; exact hlt)
  have hfile := hs.file
  have hcur := hs.curblock
  have hlen := blockLength_eq hc
  have htmpdata := tmpdataSize_eq (by omega) hT
  have hup := h.tmpdataSize_upper
  have hleft : s.file.rest.length = f'.data.length - (h.place f' k).1 := by
    rw [hfile]
    exact List.length_drop
  -- a read that both files serve alike
  have hsame : (tail = [] ∨ u32 (h.curcompsize k) ≠ 0 ∧ (h.place f' k).1 + u32 (h.curcompsize k) ≤ f'.data.length) →
      (h.readBlock t).1 = (h.readBlock s).1 ∧ (h.readBlock s).2.Within (h.readBlock t).2 off tail := by
    intro hserved
    rw [readBlock, readBlock, hst.curblock, hcur]
    exact hwithin.read (hserved.imp (fun htail => ⟨htail, fun _ => hsized htail⟩) fun hall => ⟨hall.1, by omega⟩)
  have hpcm : (h.readBlock t).1 = (h.readBlock s).1 → h.blockPcm t = h.blockPcm s := by
    intro hread
    rw [blockPcm, blockPcm, hread, htmp, hst.curblock]
  rcases Int.lt_or_eq_of_le (show (k : Int) + 1 ≤ h.blocks by omega) with hinner | hlast
  · obtain ⟨hread, hbehind⟩ := hsame (he.inner hd k hinner hk)
    exact ⟨hpcm hread, fun _ => ⟨hread, hbehind⟩, by rw [hread]⟩
  · -- the last block: `tmpdata` is filled from behind the part, but the codes are all in the part
    have hu : u32 (h.curcompsize k) = h.tmpdataSize.toNat := by rw [curcompsize_last hlast, u32_eq hT (by omega)]
    have hfit : ∀ r : NwaState, r.curblock = k → h.Fits (.read (h.readBlock r).1.length) := by
      intro r hr
      have := r.file.read_length_le (h.tmpdataSize.toNat) (by omega)
      show ((h.readBlock r).1.length : Int) ≤ h.tmpdataSize
      rw [readBlock, hr, hu]
      omega
    refine ⟨?_, fun hlt => absurd hlt (by omega), iff_of_true (hfit t (by rw [hst.curblock, hcur])) (hfit s hcur)⟩
    rcases he.last hd k hlast hk with htail | hall | ⟨h0, hmax, hsome⟩
    · exact hpcm (hsame (.inl htail)).1
    · exact hpcm (hsame (.inr ⟨by omega, by omega⟩)).1
    · rcases Int.lt_or_le s.file.rest.length h.tmpdataSize with hshort | hall
      · obtain ⟨out, hout⟩ := Option.isSome_iff_exists.1 hsome
        have hcheck := checked_of_tmpdata hc
        have hout' : ∀ r : NwaState, r.curblock = k → (∃ more, r.file.rest = s.file.rest ++ more) →
            h.blockPcm r = out := by
          rintro r hr ⟨more, hmore⟩
          obtain ⟨more', hread⟩ := NtFileDisk.read_prefix hmore (show h.tmpdataSize.toNat ≠ 0 by omega) (by omega)
          have hmem : Starts (overlay r.tmpdata (h.readBlock r).1) s.file.rest := by
            rw [readBlock, hr, hu, hread]
            exact (overlay_starts r.tmpdata _).of_append
          have hbytes : h.curblocksize k = (h.restsize.toNat * h.info.byps : Nat) := by
            rw [curblocksize_last hlast, (byps_info hcheck).1, Int.natCast_mul, Int.toNat_of_nonneg h0,
              i32_eq (Int.le_trans (by decide) (Int.mul_nonneg h0 (Int.natCast_nonneg _))) hmax]
          rw [hfile] at hmem
          rw [blockPcm, hr, hbytes, curcompsize_last hlast]
          rw [hfile] at hshort
          exact nwaDecode_eq (byps_info hcheck).2 (compLevel_le hc) hmem hout (Int.le_of_lt hshort)
        rw [hout' s hcur ⟨[], (List.append_nil _).symm⟩, hout' t (by rw [hst.curblock, hcur]) ⟨tail, hwithin.rest⟩]
      · exact hpcm (hsame (.inr ⟨by omega, by omega⟩)).1

theorem turn_inStep (hpos : 0 < h.blocks) (start : Int) {s t : NwaState} (hst : h.InStep f' off tail s t) :
    Match Event.chunk? Event.chunk? (h.InStep f' off tail) Ends (h.turn s) ((h.moved start).turn t) := by
  have hc := hd.tmpdata
  have hT := hd.allocated
  have hheader := hd.header
  have hmoved := decode_moved (compressed_of_tmpdata hc) start t
  have hL : 0 < h.blockBytes := by
    rw [blockLength_eq hc] at hheader
    omega
  rcases hst.onBlocks with ⟨hs, hfile, hskip⟩ | ⟨k, hs⟩
  · obtain ⟨htmp, hrest⟩ := hst.behind (by omega)
    refine turn_match (decode_first hc hpos hs) (hmoved.trans (decode_first hc hpos (by rw [hst.curblock, hs]))) Iff.rfl
      Iff.rfl rfl rfl (by rw [decodeHeader, decodeHeader, hst.data]) fun _ _ _ => ?_
    refine ⟨.inr ⟨0, by simp [decodeHeader, hs], by omega, hfile, hskip⟩, ?_, hst.skipCount, ?_,
      fun _ => ⟨htmp, hrest⟩⟩
    · rw [decodeHeader, decodeHeader, hst.curblock]
    · rw [decodeHeader, decodeHeader, hst.data]
  · have hcur := hs.curblock
    rcases Int.lt_or_eq_of_le hs.le with hlt | hend
    · by_cases hk : h.Skipped k
      · -- both pass over the block
        obtain ⟨hskip, hs'⟩ := decode_skipped hc hL hT hs hlt hk
        have hskip' : h.decode t = some ([], -2, h.skipBlock (h.curcompsize k) t) := by
          rw [decode_turn hc hL hT (by rw [hst.curblock]; omega) (by rw [hst.curblock]; omega), hst.skipCount,
            hs.skipCount, if_pos (show h.skipAt k > h.blocksize.tdiv h.channels from hk), hst.curblock, hcur]
        refine turn_match hskip (hmoved.trans hskip') Iff.rfl Iff.rfl rfl rfl hst.data fun _ _ _ => ?_
        obtain ⟨htmp, hwithin, hsized⟩ := hst.behind (by omega)
        obtain ⟨h0, hle⟩ := he.skipped hd k hlt hk
        have hplace : s.file.position = (h.place f' k).1 ∧ s.file.data = f'.data := by
          rw [hs.file]
          exact ⟨rfl, rfl⟩
        obtain ⟨hwithin', hsize⟩ := hwithin.seek (n := h.curcompsize k) (by omega) (by rw [hplace.2]; omega)
        refine ⟨.inr ⟨k + 1, hs'⟩, ?_, ?_, hst.data, fun _ => ⟨htmp, hwithin', ?_⟩⟩
        · rw [skipBlock, skipBlock, hst.curblock]
        · rw [skipBlock, skipBlock, hst.skipCount]
        · intro htail
          rw [skipBlock, hsize]
          exact hsized htail
      · obtain ⟨hpcm, hinner, hfit⟩ := readBlock_inStep hd he hs hlt hk hst
        obtain ⟨hkept, hs'⟩ := decode_kept hc hL hT hs hlt hk
        have hkept' : h.decode t = some (h.decodeBlock t) := by
          rw [decode_turn hc hL hT (by rw [hst.curblock]; omega) (by rw [hst.curblock]; omega), hst.skipCount,
            hs.skipCount, if_neg (show ¬ h.skipAt k > h.blocksize.tdiv h.channels from hk)]
        obtain ⟨acc, hacc, hacc', hnone, hret, hdata⟩ := decodeBlock_alike hst.curblock hst.skipCount hst.data hpcm
        obtain ⟨data, hnext⟩ := decodeBlock_next (h := h) s
        obtain ⟨data', hnext'⟩ := decodeBlock_next (h := h) t
        have hd' : h.decode t = some ((h.decodeBlock t).1, (h.decodeBlock s).2.1, (h.decodeBlock t).2.2) := by
          rw [hkept', ← hret]
        have hs₀ : h.decode s = some ((h.decodeBlock s).1, (h.decodeBlock s).2.1, (h.decodeBlock s).2.2) := hkept
        refine turn_match hs₀ (hmoved.trans hd') ?_ Iff.rfl ?_ ?_ hdata fun _ _ _ => ?_
        · rw [hacc, hacc', List.forall_mem_cons, List.forall_mem_cons]
          exact and_congr_left fun _ => hfit.symm
        · rw [hacc]
          exact hnone
        · rw [hacc']
          exact hnone
        · refine ⟨.inr ⟨k + 1, hs'⟩, ?_, ?_, hdata, fun hk => ?_⟩
          · rw [hnext, hnext', nextBlock, nextBlock, hst.curblock]
          · rw [hnext, hnext', nextBlock, nextBlock]
          · have hk : (k : Int) + 1 < h.blocks := by
              rw [hnext, nextBlock, hcur] at hk
              exact hk
            obtain ⟨hbytes, hwithin⟩ := hinner hk
            obtain ⟨htmp, -, hsized⟩ := hst.behind (by omega)
            rw [hnext, hnext', nextBlock, nextBlock, hbytes, htmp]
            exact ⟨rfl, hwithin, hsized⟩
    · exact turn_match (decode_end hc (by rw [hs.curblock, hend]))
        (hmoved.trans (decode_end hc (by rw [hst.curblock, hs.curblock, hend]))) Iff.rfl Iff.rfl rfl rfl hst.data
        fun _ h0 _ => absurd rfl h0

end Compressed

/-! ## Raw data -/

/-- The runs for raw data: at first both files stand behind the header. -/
structure RawInStep (h : NwaData) (f' g' : NtFileDisk) (tail : List UInt8) (s t : NwaState) : Prop where
  curblock : t.curblock = s.curblock
  skipCount : s.skipCount = 0 ∧ t.skipCount = 0
  data : t.data = s.data
  files : s.curblock = -1 ∧ s.file = f' ∧ t.file = g' ∨ 0 ≤ s.curblock ∧ t.file.rest = s.file.rest ++ tail ∧
    (tail = [] ∨ (h.blocks - s.curblock) * (65536 * h.byps) ≤ s.file.rest.length)

theorem turn_rawInStep {h : NwaData} (hraw : h.complevel = -1) (hsize : h.blocksize = 65536) (hbps : h.bps < 2 ^ 16)
    (hbyps : 0 < h.byps) {f' g' : NtFileDisk} {tail : List UInt8} {start : Int}
    (hf : (f'.seek (i32 (h.offsetStart + 0x2c))).rest = f'.rest) (hg : (g'.seek (i32 (start + 0x2c))).rest = g'.rest)
    (hfg : g'.rest = f'.rest ++ tail) (hall : tail = [] ∨ h.blocks * (65536 * h.byps) ≤ f'.rest.length) {s t : NwaState}
    (hst : h.RawInStep f' g' tail s t) :
    Match Event.chunk? Event.chunk? (h.RawInStep f' g' tail) Ends (h.turn s) ((h.moved start).turn t) := by
  rcases hst.files with ⟨hs, rfl, rfl⟩ | ⟨h0, hrest, hleft⟩
  · refine turn_match (decode_rawHeader hraw hs)
      (decode_rawHeader (h := h.moved start) hraw (by rw [hst.curblock, hs])) Iff.rfl Iff.rfl rfl rfl ?_ fun _ _ _ => ?_
    · simp only [decodeHeader, hst.data]
      rfl
    · refine ⟨?_, hst.skipCount, ?_, .inr ⟨?_, ?_, ?_⟩⟩
      · simp only [decodeHeader, hst.curblock]
      · simp only [decodeHeader, hst.data]
        rfl
      · simp only [decodeHeader, hs]
        decide
      · exact hg.trans (hfg.trans (congrArg (· ++ tail) hf.symm))
      · refine hall.imp_right fun hall => ?_
        simp only [decodeHeader, hs, hf]
        exact (Int.sub_zero h.blocks).symm ▸ hall
  · have hne : s.curblock ≠ -1 := by omega
    have hne' : t.curblock ≠ -1 := by rw [hst.curblock]; exact hne
    -- `Decode` divides by the number of channels; the check of it was ignored
    by_cases hch : h.channels = 0
    · have hd : h.turn s = .halt [] .fault := by
        rw [turn, decode, if_pos hraw, decodeRaw, if_neg hne, if_pos hch]
      have hd' : (h.moved start).turn t = .halt [] .fault := by
        rw [turn, decode, if_pos (show (h.moved start).complevel = -1 from hraw), decodeRaw, if_neg hne',
          if_pos (show (h.moved start).channels = 0 from hch)]
      rw [hd, hd']
      exact .halt rfl trivial
    · rcases Int.lt_or_le s.curblock h.blocks with hlt | hle
      · have hserved : tail = [] ∨ 65536 * h.byps ≤ s.file.rest.length := by
          refine hleft.imp_right fun hleft => ?_
          have := Int.mul_le_mul_of_nonneg_right (show 1 ≤ h.blocks - s.curblock by omega)
            (show (0 : Int) ≤ 65536 * h.byps by omega)
          omega
        obtain ⟨hbytes, hrest'⟩ := NtFileDisk.read_behind hrest (show 65536 * h.byps ≠ 0 by omega) hserved
        have hd := decode_rawBlock hraw hne hch hsize hbps hst.skipCount.1 hlt
        have hd' := decode_rawBlock (h := h.moved start) hraw hne' hch hsize hbps hst.skipCount.2
          (by rw [hst.curblock]; exact hlt)
        rw [show (h.moved start).byps = h.byps from rfl, hbytes] at hd'
        refine turn_match hd hd' Iff.rfl Iff.rfl rfl rfl (by simp only [hst.data]) fun _ _ _ => ?_
        refine ⟨by simp only [hst.curblock], ⟨rfl, rfl⟩, by simp only [hst.data],
            .inr ⟨by simp only; omega, hrest', ?_⟩⟩
        refine hleft.imp_right fun hleft => ?_
        -- one full block less is left to ask for
        have hmul : (h.blocks - (s.curblock + 1)) * (65536 * h.byps : Int) =
            (h.blocks - s.curblock) * (65536 * h.byps) - 65536 * h.byps := by ring
        have hlen := s.file.read_rest_length (show 65536 * h.byps ≠ 0 by omega)
        simp only [hlen, hmul]
        omega
      · refine turn_match (decode_rawEnd hraw hne hch (by omega) hst.skipCount.1 hle)
          (decode_rawEnd (h := h.moved start) hraw hne' hch
            (by rw [show (h.moved start).blocksize = 65536 from hsize]; decide)
            hst.skipCount.2 (by rw [hst.curblock]; exact hle)) Iff.rfl Iff.rfl rfl rfl hst.data
            fun _ _ h1 => absurd rfl h1

end NwaData

/-- `Decode` goes back to the end of the header, where `ReadHeader` has stopped, or would have in a longer file. -/
theorem NwaData.seek_header {f : NtFileDisk} {start : Int} (hs : start = f.position) (hf : f.position < 2 ^ 31) :
    ((f.read 0x2c).2.seek (i32 (start + 0x2c))).rest = (f.read 0x2c).2.rest := by
  refine f.seek_read_rest (by decide) ?_
  rw [hs, i32_def]
  split
  · right
    rw [Int.emod_eq_of_lt (by omega) (by omega)]
    rfl
  · left
    omega

/-- A part of a larger file is converted as if it stood alone. A read of 0 bytes goes as far as the size of the larger
file says. -/
theorem convertNwaToWav_behind (junk : Junk) {f g : NtFileDisk} {off : Nat} {tail : List UInt8} {inSize : Int}
    (hw : f.Within g off tail) (hin : inSize ≠ -1 ∧ inSize ≠ 0) (hf : f.position < 2 ^ 31)
    (hg : g.position < 2 ^ 31) (h44 : tail = [] ∨ 44 ≤ f.rest.length)
    (he : ∀ h f', NwaData.readHeader junk f inSize = some (h, f') → h.Embedded f f' tail ∧
      (h.Decodes → tail = [] → g.fileSize < 2 ^ 32)) :
    chunks (convertNwaToWav junk f inSize).1 = chunks (convertNwaToWav junk g inSize).1 ∧
      Option.Rel NwaData.Ends (convertNwaToWav junk f inSize).2 (convertNwaToWav junk g inSize).2 := by
  have hpf : i32 f.position = f.position := i32_eq (by omega) (by omega)
  have hpg : i32 g.position = g.position := i32_eq (by omega) (by omega)
  obtain ⟨hnone, hsome⟩ := NwaData.readHeader_behind junk hw hin (by omega) h44
  cases hr : NwaData.readHeader junk f inSize with
  | none =>
    rw [convertNwaToWav, hr, convertNwaToWav, hnone hr]
    exact ⟨rfl, .some trivial⟩
  | some p =>
    obtain ⟨h, f'⟩ := p
    obtain ⟨hemb, hsized⟩ := he h f' hr
    obtain ⟨g', hr', hw', hsize⟩ := hsome h f' hr hemb.table
    generalize i32 (g.position : Int) = start at hr' hpg
    rw [convertNwaToWav_eq hr, convertNwaToWav_eq hr']
    by_cases hthrow : h.hasTmpdata ∧ h.tmpdataSize < 0 ∨ h.blockLength < 0
    · rw [if_pos hthrow, if_pos (show (h.moved start).hasTmpdata ∧ (h.moved start).tmpdataSize < 0 ∨
        (h.moved start).blockLength < 0 from hthrow)]
      exact ⟨rfl, .some trivial⟩
    · rw [if_neg hthrow, if_neg (show ¬ ((h.moved start).hasTmpdata ∧ (h.moved start).tmpdataSize < 0 ∨
        (h.moved start).blockLength < 0) from hthrow)]
      by_cases hraw : h.complevel = -1
      · obtain ⟨hblocksize, hbyps, hbps, -⟩ := NwaData.readHeader_raw hr hraw
        obtain ⟨rfl, hstart⟩ := NwaData.readHeader_rawStart hr hraw
        obtain ⟨rfl, -⟩ := NwaData.readHeader_rawStart hr' hraw
        rw [hpf, if_neg (by omega)] at hstart
        refine run_match (fun s t hst => NwaData.turn_rawInStep hraw hblocksize hbps hbyps
          (NwaData.seek_header hstart hf) (NwaData.seek_header hpg hg) hw'.rest (hemb.raw hraw) hst) _ ?_
        exact ⟨rfl, ⟨rfl, rfl⟩, rfl, .inl ⟨rfl, rfl, rfl⟩⟩
      · by_cases hc : h.hasTmpdata
        · rw [not_or, not_and] at hthrow
          have hpos := blocks_pos hr hc
          by_cases hheader : 44 ≤ h.blockLength
          · have hd : h.Decodes := ⟨hc, Int.not_lt.1 (hthrow.1 hc), hheader⟩
            refine run_match
              (fun s t (hst : h.InStep f' off tail s t) => NwaData.turn_inStep hd hemb hpos start hst) _ ?_
            refine ⟨.inl ⟨rfl, rfl, rfl⟩, rfl, rfl, rfl, fun _ => ⟨rfl, hw', fun htail => ?_⟩⟩
            rw [hsize]
            exact hsized hd htail
          · -- the WAV header does not fit: both stop at once
            rw [run_halt (NwaData.turn_headerFault hheader (NwaData.decode_first hc hpos rfl)),
              run_halt (NwaData.turn_headerFault (h := h.moved start) hheader
                (NwaData.decode_first (h := h.moved start) hc hpos rfl))]
            exact ⟨rfl, .some trivial⟩
        · rw [run_halt (NwaData.turn_rejected hraw hc),
            run_halt (NwaData.turn_rejected (h := h.moved start) hraw hc)]
          exact ⟨rfl, .some trivial⟩

/-! ## What a conversion leaves behind -/

namespace NwaData

theorem decodeCompressed_kept (h : NwaData) (s : NwaState) : s.file.Kept (h.decodeCompressed s).2.2.file := by
  unfold decodeCompressed
  split
  · exact ⟨rfl, Nat.le_refl _⟩
  · split
    · exact ⟨rfl, Nat.le_refl _⟩
    · split
      · exact ⟨rfl, Nat.le_refl _⟩
      · split
        · exact ⟨rfl, Nat.le_refl _⟩
        · split
          · exact NtFileDisk.seek_kept _ _
          · obtain ⟨data, hnext⟩ := decodeBlock_next (h := h) s
            rw [hnext]
            exact ⟨rfl, Nat.le_refl _⟩

/-- Decoding moves the position in the file and leaves its bytes alone. -/
theorem decode_file {h : NwaData} {s s' : NwaState} {accesses : List Event} {err : Int}
    (hd : h.decode s = some (accesses, err, s')) : s.file.Kept s'.file := by
  unfold decode at hd
  split at hd
  · unfold decodeRaw at hd
    split at hd
    · cases hd
      exact NtFileDisk.seek_kept _ _
    · split at hd
      · cases hd
      · split at hd
        · cases hd
          exact NtFileDisk.seek_kept _ _
        · split at hd
          · cases hd
            have hseek : s.file.Kept (if s.skipCount ≠ 0 then
                s.file.seek (s.file.position + i32 (s.skipCount * h.channels * h.byps)) else s.file) := by
              split
              · exact NtFileDisk.seek_kept _ _
              · exact ⟨rfl, Nat.le_refl _⟩
            exact hseek
          · cases hd
            exact ⟨rfl, Nat.le_refl _⟩
  · rw [Option.some.injEq] at hd
    have hkept := h.decodeCompressed_kept s
    rw [hd] at hkept
    exact hkept

/-- A run that returns does so from a turn. -/
theorem turn_returned {h : NwaData} {s : NwaState} {emit : List Event} {file : NtFileDisk}
    (hhalt : h.turn s = .halt emit (.returned file)) : ∃ accesses err s', h.decode s = some (accesses, err, s') ∧
      (err = 0 ∨ err = -1) ∧ s'.file = file ∧ ∀ e ∈ accesses ++ [.ret err], h.Fits e := by
  unfold turn at hhalt
  cases hd : h.decode s with
  | none =>
    rw [hd] at hhalt
    cases hhalt
  | some r =>
    obtain ⟨accesses, err, s'⟩ := r
    simp only [hd] at hhalt
    split at hhalt
    · next hfits =>
      split at hhalt
      · next hstop =>
        cases hhalt
        exact ⟨accesses, err, s', rfl, hstop, rfl, hfits⟩
      · split at hhalt <;> cases hhalt
    · cases hhalt

/-- `ReadHeader` only reads. -/
theorem readHeader_file {junk : Junk} {file file' : NtFileDisk} {inSize : Int} {h : NwaData}
    (hr : readHeader junk file inSize = some (h, file')) :
    file'.data = file.data ∧ file'.fileSize = file.fileSize := by
  have htable : ∀ h₀ : NwaData, (readOffsets junk h₀ (file.read 0x2c).2).2.data = file.data ∧
      (readOffsets junk h₀ (file.read 0x2c).2).2.fileSize = file.fileSize := by
    intro h₀
    unfold readOffsets
    split <;> exact ⟨rfl, rfl⟩
  unfold readHeader at hr
  rw [Option.bind_eq_bind, Option.bind_eq_some_iff] at hr
  rcases hr with ⟨h₀, -, hr⟩
  split at hr
  · cases hr
    exact ⟨rfl, rfl⟩
  · split at hr
    · have hkept := htable h₀
      rw [Option.some.inj hr] at hkept
      exact hkept
    · dsimp only at hr
      split at hr
      · cases hr
        exact ⟨rfl, rfl⟩
      · have hkept := htable { h₀ with filesize := i32 (file.read 0x2c).2.fileSize }
        rw [Option.some.inj hr] at hkept
        exact hkept

end NwaData

theorem convertNwaToWav_kept {junk : Junk} {file file' : NtFileDisk} {inSize : Int}
    (hc : (convertNwaToWav junk file inSize).2 = some (.returned file')) : file.Kept file' := by
  cases hr : NwaData.readHeader junk file inSize with
  | none =>
    rw [convertNwaToWav, hr] at hc
    cases hc
  | some p =>
    obtain ⟨h, f'⟩ := p
    rw [convertNwaToWav_eq hr] at hc
    split at hc
    · cases hc
    · obtain ⟨hdata, hsize⟩ := NwaData.readHeader_file hr
      refine run_result (fun s => file.Kept s.file) (fun r => ∀ f, r = .returned f → file.Kept f) ?_ ?_
        ⟨hdata, Nat.le_of_eq hsize.symm⟩ hc file' rfl
      · rintro s emit r hs hhalt f rfl
        obtain ⟨accesses, err, s', hd, -, rfl, -⟩ := NwaData.turn_returned hhalt
        have hkept := NwaData.decode_file hd
        exact ⟨hkept.1.trans hs.1, Nat.le_trans hs.2 hkept.2⟩
      · intro s emit s' hs hmore
        obtain ⟨accesses, err, hd, -, -⟩ := NwaData.turn_more hmore
        have hkept := NwaData.decode_file hd
        exact ⟨hkept.1.trans hs.1, Nat.le_trans hs.2 hkept.2⟩

/-- The file behind all blocks, the blocks starting at `file`: raw data goes back to the end of the header first. -/
def NwaData.behindBlocks (h : NwaData) (file : NtFileDisk) : NtFileDisk :=
  if h.complevel = -1 then (file.seek (i32 (h.offsetStart + 0x2c))).pass (h.blocks.toNat * (65536 * h.byps))
  else if h.hasTmpdata then
    { file with fileSize := (h.place file h.blocks.toNat).2, position := (h.place file h.blocks.toNat).1 }
  else file

namespace NwaData

/-- The states of a run over raw data: at first the WAV header is to be written. -/
def OnRawBlocks (h : NwaData) (file : NtFileDisk) (s : NwaState) : Prop :=
  s.skipCount = 0 ∧ (s.curblock = -1 ∧ s.file = file ∨ ∃ k : Nat, s.curblock = k ∧ k ≤ h.blocks.toNat ∧
    s.file = (file.seek (i32 (h.offsetStart + 0x2c))).pass (k * (65536 * h.byps)))

/-- A turn over raw data: another block, none of which is left where the file has ended, or the end of the blocks. -/
theorem decode_onRawBlocks {h : NwaData} (hraw : h.complevel = -1) (hsize : h.blocksize = 65536) (hbps : h.bps < 2 ^ 16)
    (hbyps : 0 < h.byps) {file : NtFileDisk} {s s' : NwaState} (hs : h.OnRawBlocks file s) {accesses : List Event}
    {err : Int} (hd : h.decode s = some (accesses, err, s')) : h.OnRawBlocks file s' ∧ err ≠ -1 ∧
        (err = 0 → s'.file = (file.seek (i32 (h.offsetStart + 0x2c))).pass (h.blocks.toNat * (65536 * h.byps))) ∨
      err = -1 ∧ s'.file = (file.seek (i32 (h.offsetStart + 0x2c))).pass (h.blocks.toNat * (65536 * h.byps)) := by
  obtain ⟨hskip, ⟨hfirst, rfl⟩ | ⟨k, hk, hle, hfile⟩⟩ := hs
  · rw [decode_rawHeader hraw hfirst] at hd
    cases hd
    refine .inl ⟨⟨hskip, .inr ⟨0, ?_, Nat.zero_le _, ?_⟩⟩, by decide, fun h0 => absurd h0 (by decide)⟩
    · simp [decodeHeader, hfirst]
    · rw [Nat.zero_mul, NtFileDisk.pass_zero]
  · by_cases hch : h.channels = 0
    · rw [decode, if_pos hraw, decodeRaw, if_neg (by omega), if_pos hch] at hd
      cases hd
    · have hn : h.byps ≤ 8192 := by
        unfold byps
        omega
      rcases Int.lt_or_le s.curblock h.blocks with hlt | hend
      · have hlen := s.file.read_length_le (65536 * h.byps) (by omega)
        rw [decode_rawBlock hraw (by omega) hch hsize hbps hskip hlt, i32_eq (by omega) (by omega)] at hd
        have hpass : (s.file.read (65536 * h.byps)).2 =
            (file.seek (i32 (h.offsetStart + 0x2c))).pass ((k + 1) * (65536 * h.byps)) := by
          rw [NtFileDisk.read_pass, NtFileDisk.asked, if_neg (by omega), hfile, NtFileDisk.pass_pass,
            Nat.succ_mul k (65536 * h.byps)]
        cases hd
        refine .inl ⟨⟨rfl, .inr ⟨k + 1, ?_, by omega, hpass⟩⟩, by omega, fun h0 => ?_⟩
        · simp only [hk]
          omega
        -- nothing was left: the blocks behind this one are empty as well
        · have hnone : s.file.rest = [] := by
            have hread : (s.file.read (65536 * h.byps)).1.length = 0 := by omega
            rw [NtFileDisk.read_eq _ (by omega), List.length_take] at hread
            exact List.eq_nil_of_length_eq_zero (by omega)
          have hrest : h.blocks.toNat * (65536 * h.byps) = k * (65536 * h.byps) +
              (h.blocks.toNat - k) * (65536 * h.byps) := by
            rw [← Nat.add_mul, Nat.add_sub_cancel' hle]
          rw [hrest, ← NtFileDisk.pass_pass, ← hfile, NtFileDisk.pass_end hnone, NtFileDisk.read_pass,
            NtFileDisk.pass_end hnone]
      · rw [decode_rawEnd hraw (by omega) hch (by omega) hskip hend] at hd
        cases hd
        rw [hfile, show k = h.blocks.toNat by omega]
        exact .inr ⟨rfl, rfl⟩

/-- The turn over compressed data that ends the loop stands behind the last block. -/
theorem decode_onBlocks_end {h : NwaData} (hd : h.Decodes) (hpos : 0 < h.blocks) {file : NtFileDisk} {s s' : NwaState}
    (hs : h.OnBlocks file s) {accesses : List Event} {err : Int} (hdec : h.decode s = some (accesses, err, s'))
    (hend : err = 0 ∨ err = -1) (hfits : ∀ e ∈ accesses ++ [.ret err], h.Fits e) :
    s'.file = h.blockFile file h.blocks.toNat := by
  have hc := hd.tmpdata
  have hT := hd.allocated
  have hheader := hd.header
  have hlen := blockLength_eq hc
  have hL : 0 < h.blockBytes := by omega
  rcases hs with ⟨hs, -, -⟩ | ⟨k, hs⟩
  · rw [decode_first hc hpos hs] at hdec
    cases hdec
    omega
  · rcases Int.lt_or_eq_of_le hs.le with hlt | hlast
    · by_cases hk : h.Skipped k
      · rw [(decode_skipped hc hL hT hs hlt hk).1] at hdec
        cases hdec
        omega
      · obtain ⟨hkept, hs'⟩ := decode_kept hc hL hT hs hlt hk
        rw [hkept, Option.some.injEq] at hdec
        have hblock : h.BlockFits file k := by
          rw [← decodeBlock_fits_iff hc hheader hT hs hlt, hdec]
          exact ⟨fun e he => hfits e (List.mem_append_left _ he),
            hfits _ (List.mem_append_right _ (List.mem_singleton_self _))⟩
        have hret := decodeBlock_ret hs hblock
        have hdropped := hblock.dropped
        rw [hdec] at hret hs'
        rcases Int.lt_or_eq_of_le (show (k : Int) + 1 ≤ h.blocks by omega) with hk | hk
        · rw [curblocksize_inner hk] at hret
          simp only at hret
          omega
        · rw [hs'.file, show k + 1 = h.blocks.toNat by omega]
    · rw [decode_end hc (by rw [hs.curblock, hlast])] at hdec
      cases hdec
      rw [hs.file, show k = h.blocks.toNat by omega]

/-- Whatever the run goes through: the states in front of the blocks. -/
theorem decode_onBlocks {h : NwaData} (hd : h.Decodes) (hpos : 0 < h.blocks) {file : NtFileDisk} {s s' : NwaState}
    (hs : h.OnBlocks file s) {accesses : List Event} {err : Int} (hdec : h.decode s = some (accesses, err, s'))
    (h0 : err ≠ 0) : h.OnBlocks file s' := by
  have hc := hd.tmpdata
  have hT := hd.allocated
  have hheader := hd.header
  have hL : 0 < h.blockBytes := by
    rw [blockLength_eq hc] at hheader
    omega
  rcases hs with ⟨hs, hfile, hskip⟩ | ⟨k, hs⟩
  · rw [decode_first hc hpos hs] at hdec
    cases hdec
    exact .inr ⟨0, by simp [decodeHeader, hs], by omega, hfile, hskip⟩
  · rcases Int.lt_or_eq_of_le hs.le with hlt | hend
    · by_cases hk : h.Skipped k
      · obtain ⟨hd', hs'⟩ := decode_skipped hc hL hT hs hlt hk
        rw [hd'] at hdec
        cases hdec
        exact .inr ⟨k + 1, hs'⟩
      · obtain ⟨hd', hs'⟩ := decode_kept hc hL hT hs hlt hk
        rw [hd', Option.some.injEq] at hdec
        rw [hdec] at hs'
        exact .inr ⟨k + 1, hs'⟩
    · rw [decode_end hc (by rw [hs.curblock, hend])] at hdec
      cases hdec
      exact absurd rfl h0

end NwaData

/-- Where a conversion that returns leaves the file. -/
theorem convertNwaToWav_file {junk : Junk} {file file' f : NtFileDisk} {inSize : Int} {h : NwaData}
    (hr : NwaData.readHeader junk file inSize = some (h, file'))
    (hret : (convertNwaToWav junk file inSize).2 = some (.returned f)) : f = h.behindBlocks file' := by
  rw [convertNwaToWav_eq hr] at hret
  split at hret
  · cases hret
  · next hthrow =>
    by_cases hraw : h.complevel = -1
    · obtain ⟨hsize, hbyps, hbps, -⟩ := NwaData.readHeader_raw hr hraw
      refine run_result (h.OnRawBlocks file') (fun r => ∀ f, r = .returned f → f = h.behindBlocks file') ?_ ?_
        ⟨rfl, .inl ⟨rfl, rfl⟩⟩ hret f rfl
      · rintro s emit r hs hhalt f rfl
        obtain ⟨accesses, err, s', hd, hstop, rfl, -⟩ := NwaData.turn_returned hhalt
        rw [NwaData.behindBlocks, if_pos hraw]
        rcases NwaData.decode_onRawBlocks hraw hsize hbps hbyps hs hd with ⟨-, hne, hzero⟩ | ⟨-, hfile⟩
        · exact hzero (hstop.resolve_right hne)
        · exact hfile
      · intro s emit s' hs hmore
        obtain ⟨accesses, err, hd, -, hne⟩ := NwaData.turn_more hmore
        rcases NwaData.decode_onRawBlocks hraw hsize hbps hbyps hs hd with ⟨hs', -, -⟩ | ⟨hend, -⟩
        · exact hs'
        · exact absurd hend hne
    · by_cases hc : h.hasTmpdata
      · rw [not_or, not_and] at hthrow
        have hpos := blocks_pos hr hc
        by_cases hheader : 44 ≤ h.blockLength
        · have hd : h.Decodes := ⟨hc, Int.not_lt.1 (hthrow.1 hc), hheader⟩
          refine run_result (h.OnBlocks file') (fun r => ∀ f, r = .returned f → f = h.behindBlocks file') ?_ ?_
            (.inl ⟨rfl, rfl, rfl⟩) hret f rfl
          · rintro s emit r hs hhalt f rfl
            obtain ⟨accesses, err, s', hdec, hstop, rfl, hfits⟩ := NwaData.turn_returned hhalt
            rw [NwaData.behindBlocks, if_neg hraw, if_pos hc]
            exact NwaData.decode_onBlocks_end hd hpos hs hdec hstop hfits
          · intro s emit s' hs hmore
            obtain ⟨accesses, err, hdec, h0, -⟩ := NwaData.turn_more hmore
            exact NwaData.decode_onBlocks hd hpos hs hdec h0
        · rw [run_halt (NwaData.turn_headerFault hheader (NwaData.decode_first hc hpos rfl))] at hret
          cases hret
      · rw [run_halt (NwaData.turn_rejected hraw hc)] at hret
        cases hret
        rw [NwaData.behindBlocks, if_neg hraw, if_neg hc]

/-- A header that is rejected is all that has been read. -/
theorem convertNwaToWav_rejected {junk : Junk} {file file' f : NtFileDisk} {inSize : Int} {h : NwaData}
    (hr : NwaData.readHeader junk file inSize = some (h, file')) (hl : h.complevel ≠ -1) (hc : h.checkHeader = false)
    (hret : (convertNwaToWav junk file inSize).2 = some (.returned f)) : f = file' := by
  rw [convertNwaToWav_file hr hret, NwaData.behindBlocks, if_neg hl, if_neg (by simp [NwaData.hasTmpdata, hc])]

/-! ## How much is written -/

namespace NwaData

theorem decodeBlock_chunks (h : NwaData) (s : NwaState) : chunks (h.decodeBlock s).1 = [] := by
  unfold decodeBlock
  dsimp only
  split <;> rfl

theorem decodeBlock_sizes (h : NwaData) {s t : NwaState} (hcur : t.curblock = s.curblock)
    (hskip : t.skipCount = s.skipCount) : (h.decodeBlock t).2.1 = (h.decodeBlock s).2.1 ∧
      (h.decodeBlock t).2.2.curblock = (h.decodeBlock s).2.2.curblock ∧
      (h.decodeBlock t).2.2.skipCount = (h.decodeBlock s).2.2.skipCount := by
  obtain ⟨data, hs⟩ := decodeBlock_next (h := h) s
  obtain ⟨data', ht⟩ := decodeBlock_next (h := h) t
  refine ⟨?_, ?_, ?_⟩
  · unfold decodeBlock
    rw [hcur, hskip]
    dsimp only
    split <;> rfl
  · rw [hs, ht, nextBlock, nextBlock, hcur]
  · rw [hs, ht, nextBlock, nextBlock]

/-- `Decode` in front of the same block with the same skip count: the same result, whatever the file holds. -/
theorem decodeCompressed_alike (h : NwaData) {s t : NwaState} (hcur : t.curblock = s.curblock)
    (hskip : t.skipCount = s.skipCount) : (h.decodeCompressed t).2.1 = (h.decodeCompressed s).2.1 ∧
      (h.decodeCompressed t).2.2.curblock = (h.decodeCompressed s).2.2.curblock ∧
      (h.decodeCompressed t).2.2.skipCount = (h.decodeCompressed s).2.2.skipCount ∧
      chunks (h.decodeCompressed s).1 = [] ∧ chunks (h.decodeCompressed t).1 = [] := by
  have hheader : (h.decodeHeader t).curblock = (h.decodeHeader s).curblock := by rw [decodeHeader, decodeHeader, hcur]
  have hpassed : ∀ size, (h.skipBlock size t).curblock = (h.skipBlock size s).curblock ∧
      (h.skipBlock size t).skipCount = (h.skipBlock size s).skipCount := by
    intro size
    rw [skipBlock, skipBlock, hcur, hskip]
    exact ⟨rfl, rfl⟩
  obtain ⟨hret, hcur', hskip'⟩ := h.decodeBlock_sizes hcur hskip
  unfold decodeCompressed
  rw [hcur, hskip]
  split
  · exact ⟨rfl, hcur, hskip, rfl, rfl⟩
  · split
    · exact ⟨rfl, hcur, hskip, rfl, rfl⟩
    · split
      · exact ⟨rfl, hheader, hskip, rfl, rfl⟩
      · split
        · exact ⟨rfl, hcur, hskip, rfl, rfl⟩
        · split
          · exact ⟨rfl, (hpassed _).1, (hpassed _).2, rfl, rfl⟩
          · exact ⟨hret, hcur', hskip', h.decodeBlock_chunks s, h.decodeBlock_chunks t⟩

/-- What a turn that goes on writes, and what one that ends does not. -/
theorem turn_chunks {h : NwaData} {s s' : NwaState} {accesses : List Event} {err : Int}
    (hd : h.decode s = some (accesses, err, s')) (hnone : chunks accesses = []) :
    (∃ emit r, h.turn s = .halt emit r ∧ chunks emit = [] ∧ ((err = 0 ∨ err = -1) ∨ r = .fault)) ∨
      ∃ emit, h.turn s = .more emit s' ∧ (err ≠ 0 ∧ err ≠ -1) ∧
        (chunks emit).flatten.length = if err = -2 then 0 else err.toNat := by
  have hevents : chunks (accesses ++ [.ret err]) = [] := by
    rw [chunks_append, hnone]
    rfl
  simp only [turn, hd]
  split
  · split
    · next hstop => exact .inl ⟨_, _, rfl, hevents, .inl hstop⟩
    · next hgo =>
      rw [not_or] at hgo
      split
      · exact .inr ⟨_, rfl, hgo, by rw [hevents]; rfl⟩
      · refine .inr ⟨_, rfl, hgo, ?_⟩
        rw [chunks_append, hevents]
        exact (congrArg List.length (List.append_nil _)).trans (bytesAt_length _ _ _)
  · exact .inl ⟨_, _, rfl, hevents, .inr rfl⟩

/-- The sizes of the blocks say how much a run over compressed data writes, whatever the file holds: a run that returns
has written as much as any other. -/
theorem run_length_le {h : NwaData} (hl : h.complevel ≠ -1) : ∀ {fuel : Nat} {s t : NwaState} {file : NtFileDisk},
    t.curblock = s.curblock → t.skipCount = s.skipCount → (run h.turn fuel s).2 = some (.returned file) →
      (chunks (run h.turn fuel t).1).flatten.length ≤ (chunks (run h.turn fuel s).1).flatten.length
  | 0, s, t, file, _, _, hret => by cases hret
  | fuel + 1, s, t, file, hcur, hskip, hret => by
    obtain ⟨herr, hcur', hskip', hnone, hnone'⟩ := h.decodeCompressed_alike hcur hskip
    have hd : h.decode s = some ((h.decodeCompressed s).1, (h.decodeCompressed s).2.1, (h.decodeCompressed s).2.2) :=
      if_neg hl
    have hd' : h.decode t =
        some ((h.decodeCompressed t).1, (h.decodeCompressed s).2.1, (h.decodeCompressed t).2.2) := by
      rw [← herr]
      exact if_neg hl
    rcases turn_chunks hd' hnone' with ⟨emit', r', ht, hempty, -⟩ | ⟨emit', ht, hgo, hlen'⟩
    · rw [run_halt ht, hempty]
      exact Nat.zero_le _
    · rcases turn_chunks hd hnone with ⟨emit, r, hs, -, hstop⟩ | ⟨emit, hs, -, hlen⟩
      · rw [run_halt hs, Option.some.injEq] at hret
        rw [hret] at hstop
        rcases hstop with hstop | hstop
        · omega
        · cases hstop
      · rw [run_more hs] at hret ⊢
        rw [run_more ht, chunks_append, chunks_append, List.flatten_append, List.flatten_append, List.length_append,
          List.length_append, hlen, hlen']
        exact Nat.add_le_add_left (run_length_le hl hcur' hskip' hret) _

end NwaData

/-- Whatever size the file object keeps: a conversion in a larger file that returns has written as much as that of the
part alone. -/
theorem convertNwaToWav_length_le (junk : Junk) {f g file : NtFileDisk} {off : Nat} {tail : List UInt8} {inSize : Int}
    (hw : f.Within g off tail) (hin : inSize ≠ -1 ∧ inSize ≠ 0) (hf : f.position < 2 ^ 31)
    (hg : g.position < 2 ^ 31) (h44 : tail = [] ∨ 44 ≤ f.rest.length)
    (he : ∀ h f', NwaData.readHeader junk f inSize = some (h, f') → h.Embedded f f' tail)
    (hret : (convertNwaToWav junk g inSize).2 = some (.returned file)) :
    (chunks (convertNwaToWav junk f inSize).1).flatten.length ≤
      (chunks (convertNwaToWav junk g inSize).1).flatten.length := by
  by_cases hcomp : ∃ h f', NwaData.readHeader junk f inSize = some (h, f') ∧ h.Decodes
  · obtain ⟨h, f', hr, hd⟩ := hcomp
    have hl := NwaData.compressed_of_tmpdata hd.tmpdata
    obtain ⟨g', hr', -, -⟩ := (NwaData.readHeader_behind junk hw hin (by rw [i32_eq (by omega) (by omega)]; omega)
      h44).2 h f' hr (he h f' hr).table
    generalize i32 (g.position : Int) = start at hr'
    have hmoved : (h.moved start).turn = h.turn := by
      funext s
      rw [NwaData.turn, NwaData.turn, NwaData.decode_moved hl]
      rfl
    have hgo : ¬ (h.hasTmpdata ∧ h.tmpdataSize < 0 ∨ h.blockLength < 0) := by
      have := hd.allocated
      have := hd.header
      omega
    rw [convertNwaToWav_eq hr', if_neg (show ¬ ((h.moved start).hasTmpdata ∧ (h.moved start).tmpdataSize < 0 ∨
      (h.moved start).blockLength < 0) from hgo), hmoved] at hret ⊢
    rw [convertNwaToWav_eq hr, if_neg hgo]
    exact NwaData.run_length_le hl rfl rfl hret
  · rw [(convertNwaToWav_behind junk hw hin hf hg h44 fun h f' hr =>
      ⟨he h f' hr, fun hd => absurd ⟨h, f', hr, hd⟩ hcomp⟩).1]

/-- Raw data that goes on behind the part is longer in the larger file. -/
theorem NwaData.embedded_of_raw {junk : Junk} {f g f' : NtFileDisk} {off : Nat} {tail : List UInt8} {inSize : Int}
    {h : NwaData} (hw : f.Within g off tail) (hin : inSize ≠ -1 ∧ inSize ≠ 0) (hf : f.position < 2 ^ 31)
    (hg : g.position < 2 ^ 31) (h44 : tail = [] ∨ 44 ≤ f.rest.length)
    (hr : NwaData.readHeader junk f inSize = some (h, f')) (hraw : h.complevel = -1) (hc : h.checkHeader)
    (hle : (chunks (convertNwaToWav junk g inSize).1).flatten.length ≤
      (chunks (convertNwaToWav junk f inSize).1).flatten.length) : h.Embedded f f' tail := by
  have hno : ¬ h.Decodes := fun hd => compressed_of_tmpdata hd.tmpdata hraw
  have htable : h.offsets ≠ none → tail = [] ∨ 44 + 4 * h.blocks ≤ f.rest.length :=
    fun hne => absurd (readHeader_rawOffsets hr hraw) hne
  refine ⟨htable, fun _ => ?_, fun hd => absurd hd hno, fun hd => absurd hd hno, fun hd => absurd hd hno⟩
  have hpf : i32 f.position = f.position := i32_eq (by omega) (by omega)
  have hpg : i32 g.position = g.position := i32_eq (by omega) (by omega)
  obtain ⟨g', hr', hw', -⟩ := (readHeader_behind junk hw hin (by omega) h44).2 h f' hr htable
  have hh := rawHeader_of_checkHeader hr hraw hc
  -- both files stand behind the header again
  have hstart : h.rawStart = i32 (f.position + 0x2c) := by
    rw [rawStart, hh.start, hpf, if_neg (by omega)]
  have hback : (f'.seek h.rawStart).rest = f'.rest := by
    rw [hh.file, hstart]
    exact seek_header rfl hf
  have hback' : (g'.seek (h.moved (i32 g.position)).rawStart).rest = f'.rest ++ tail := by
    rw [← hw'.rest, (readHeader_rawStart hr' hraw).1, rawStart, hpg]
    exact seek_header rfl hg
  rw [convertNwaToWav_raw hr hraw hc, convertNwaToWav_raw hr' hraw hc, hback, hback'] at hle
  have hbytes : h.blocks * (65536 * h.byps) = (h.blocks.toNat * (65536 * h.byps) : Nat) := by
    rw [Int.natCast_mul, Int.toNat_of_nonneg (Int.le_of_lt hh.blocks)]
    rfl
  have hheader : (h.moved (i32 g.position)).wavheader = h.wavheader := rfl
  have hsame : (h.moved (i32 g.position)).blocks.toNat * (65536 * (h.moved (i32 g.position)).byps) =
      h.blocks.toNat * (65536 * h.byps) := rfl
  rw [hheader, hsame, List.length_append, List.length_append, List.length_take, List.length_take,
    List.length_append] at hle
  rw [hbytes]
  rcases Nat.eq_zero_or_pos tail.length with htail | htail
  · exact .inl (List.eq_nil_of_length_eq_zero htail)
  · exact .inr (by omega)

/-! ## When nothing is written -/

/-- `ConvertNwaToWav` finds the header of compressed data that `CheckHeader` rejects. -/
def Rejects (junk : Junk) (file : NtFileDisk) (inSize : Int) : Prop :=
  ∃ h file', NwaData.readHeader junk file inSize = some (h, file') ∧ h.complevel ≠ -1 ∧ h.checkHeader = false

/-- The WAV header is passed on before anything else, where the loop gets past it. -/
theorem NwaData.run_header {h : NwaData} {s s' : NwaState} (hd : h.decode s = some ([.write 0x2c], 0x2c, s'))
    {fuel : Nat} {file : NtFileDisk} (hret : (run h.turn (fuel + 1) s).2 = some (.returned file)) :
    (chunks (run h.turn (fuel + 1) s).1).flatten ≠ [] := by
  by_cases hlen : 44 ≤ h.blockLength
  · have hfits : ∀ e ∈ [Event.write 0x2c], h.Fits e := by
      intro e he
      rw [List.mem_singleton.1 he]
      exact hlen
    rw [run_more (turn_chunk hd hfits (by decide) hlen)]
    exact List.cons_ne_nil _ _
  -- a block shorter than the WAV header: the first write leaves the buffer
  · rw [run_halt (turn_headerFault hlen hd)] at hret
    cases hret

/-- A conversion that returns has written nothing if and only if the header was rejected. -/
theorem convertNwaToWav_empty {junk : Junk} {file file' : NtFileDisk} {inSize : Int}
    (hc : (convertNwaToWav junk file inSize).2 = some (.returned file')) :
    (chunks (convertNwaToWav junk file inSize).1).flatten = [] ↔ Rejects junk file inSize := by
  cases hr : NwaData.readHeader junk file inSize with
  | none =>
    rw [convertNwaToWav, hr] at hc
    cases hc
  | some p =>
    obtain ⟨h, f'⟩ := p
    have hrej : Rejects junk file inSize ↔ h.complevel ≠ -1 ∧ h.checkHeader = false := by
      constructor
      · rintro ⟨h', f'', hr', hrej⟩
        rw [hr] at hr'
        cases hr'
        exact hrej
      · exact fun hrej => ⟨h, f', hr, hrej⟩
    rw [hrej]
    rw [convertNwaToWav_eq hr] at hc ⊢
    split at hc
    · cases hc
    · next hthrow =>
      rw [if_neg hthrow]
      by_cases hraw : h.complevel = -1
      · exact iff_of_false (NwaData.run_header (NwaData.decode_rawHeader hraw rfl) hc) fun hno => hno.1 hraw
      · by_cases htmp : h.hasTmpdata
        · refine iff_of_false (NwaData.run_header (NwaData.decode_first htmp (blocks_pos hr htmp) rfl) hc) fun hno => ?_
          rw [(of_decide_eq_true htmp).2] at hno
          cases hno.2
        · rw [run_halt (NwaData.turn_rejected hraw htmp)]
          refine iff_of_true rfl ⟨hraw, ?_⟩
          cases hcheck : h.checkHeader with
          | false => rfl
          | true => exact absurd (by simp [NwaData.hasTmpdata, hraw, hcheck]) htmp

end SiglusExtract.Nwa
