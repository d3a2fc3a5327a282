/-
`ConvertNwaToFlacInternalV2` (Nwa2Flac.cpp): a WAV stream in memory encoded as FLAC. Its header has to be
that of two channels with samples of 16 bits, byte for byte; the samples are passed to the library in whole
frames.
-/
import SiglusExtract.Nwa.WavStream

namespace SiglusExtract.Nwa

open Bytes CInt

/-! ## The calls of the library -/

/-- The calls of the FLAC library for the encoder; those for the tags and the padding are not among them. -/
inductive FlacCall
  | new
  | setVerify (verify : Bool)
  | setCompressionLevel (level : Nat)
  | setChannels (channels : Nat)
  | setBitsPerSample (bps : Nat)
  | setSampleRate (rate : Nat)
  | setTotalSamplesEstimate (samples : Nat)
  | setMetadata
  | initFile
  | processInterleaved (pcm : List Int) (samples : Nat)
  | finish
  deriving DecidableEq, Repr

/-- The comparison of the header; sample rate, byte rate and sizes are not compared. -/
def compareHeader (buffer : Nat → UInt8) : Bool :=
  bytesAt buffer 0 4 = ascii "RIFF" ∧
    bytesAt buffer 8 16 = ascii "WAVEfmt " ++ [16, 0, 0, 0, 1, 0, 2, 0] ∧
    bytesAt buffer 32 8 = [4, 0, 16, 0] ++ ascii "data"

/-- The settings of the encoder. -/
def settings (sampleRate totalSamples : Nat) : List FlacCall :=
  [.setVerify true, .setCompressionLevel 5, .setChannels 2, .setBitsPerSample 16, .setSampleRate sampleRate,
    .setTotalSamplesEstimate totalSamples]

section Encoder

-- whether the library reports success for the last one of these calls
variable (answer : List FlacCall → Bool)

/-- `ok &=` a call: it is made whatever `ok` is. -/
def andCall (s : Bool × List FlacCall) (call : FlacCall) : Bool × List FlacCall :=
  (s.1 && answer (s.2 ++ [call]), s.2 ++ [call])

/-- A call that is made only where all is well so far. -/
def ifOk (s : Bool × List FlacCall) (call : FlacCall) : Bool × List FlacCall :=
  if s.1 then (answer (s.2 ++ [call]), s.2 ++ [call]) else s

/-- The loop over the samples that are left, at most 1024 frames a time: a short read ends it. -/
def processLoop : Nat → Nat → NtFileMemory → List FlacCall → List FlacCall
  | 0, _, _, calls => calls
  | fuel + 1, left, f, calls =>
    if left = 0 then calls
    else
      let need := if left > 1024 then 1024 else left
      let (bytes, f) := f.read (2 * (16 / 8) * need)
      if bytes.length ≠ need * (2 * (16 / 8)) then calls
      else
        let calls := calls ++ [.processInterleaved (samples bytes) need]
        if answer calls then processLoop fuel (left - need) f calls else calls

/-- `ConvertNwaToFlacInternalV2`: the calls that are made, in order. -/
def convertNwaToFlacInternalV2 (junk : Nat → UInt8) (f : NtFileMemory) : List FlacCall :=
  let (bytes, f) := f.read 44
  let buffer := overlay junk bytes
  if ¬ compareHeader buffer then []
  else
    let sampleRate := u32 (intAt buffer 24)
    let totalSamples := u32 (intAt buffer 40) / 4
    if ¬ answer [.new] then [.new]
    else
      let s := (settings sampleRate totalSamples).foldl (andCall answer) (true, [.new])
      let (ok, calls) := ifOk answer (ifOk answer s .setMetadata) .initFile
      (if ok then processLoop answer totalSamples totalSamples f calls else calls) ++ [.finish]

end Encoder

/-! ## The header -/

/-- The samples passed on, block after block. -/
def processCalls (blocks : List (List Int)) : List FlacCall :=
  blocks.map fun pcm => .processInterleaved pcm (pcm.length / 2)

section Answers

variable {answer : List FlacCall → Bool} (hanswer : ∀ calls, answer calls = true)
include hanswer

/-- The frames of one turn are there: they are passed on. -/
theorem processLoop_turn {fuel left need : Nat} {f : NtFileMemory} {calls : List FlacCall} (hpos : left ≠ 0)
    (hneed : need = if left > 1024 then 1024 else left) (hlen : need * 4 ≤ f.rest.length) :
    processLoop answer (fuel + 1) left f calls = processLoop answer fuel (left - need) (f.read (2 * (2 * need))).2
      (calls ++ [.processInterleaved (samples (f.rest.take (2 * (2 * need)))) need]) := by
  have hread : f.read (2 * (16 / 8) * need) = (f.rest.take (2 * (2 * need)), (f.read (2 * (2 * need))).2) := by
    rw [Nat.mul_assoc]
    rfl
  rw [processLoop, if_neg hpos]
  dsimp only
  rw [← hneed, hread]
  dsimp only
  rw [if_neg (by rw [List.length_take]; omega), if_pos (hanswer _)]

/-- A stream that is long enough: all the samples that are left are passed on. -/
theorem processLoop_samples : ∀ {fuel left : Nat} {f : NtFileMemory} (calls : List FlacCall), left ≤ fuel →
    2 * (2 * left) ≤ f.rest.length → ∃ blocks, processLoop answer fuel left f calls = calls ++ processCalls blocks ∧
      blocks.flatten = samples (f.rest.take (2 * (2 * left)))
  | 0, left, f, calls, hfuel, _ => by
    obtain rfl : left = 0 := by omega
    exact ⟨[], (List.append_nil calls).symm, rfl⟩
  | fuel + 1, left, f, calls, hfuel, hlen => by
    by_cases hzero : left = 0
    · subst hzero
      exact ⟨[], (List.append_nil calls).symm, rfl⟩
    · obtain ⟨need, hneed⟩ : ∃ need, need = if left > 1024 then 1024 else left := ⟨_, rfl⟩
      obtain ⟨hpos, hle⟩ : 0 < need ∧ need ≤ left := by
        rw [hneed]
        split <;> omega
      have hrest := f.read_rest (2 * (2 * need))
      have hleft : left - need ≤ fuel := by omega
      have hlen' : 2 * (2 * (left - need)) ≤ (f.read (2 * (2 * need))).2.rest.length := by
        rw [hrest, List.length_drop]
        omega
      obtain ⟨blocks, hloop, hflat⟩ := processLoop_samples
        (calls ++ [.processInterleaved (samples (f.rest.take (2 * (2 * need)))) need]) hleft hlen'
      refine ⟨samples (f.rest.take (2 * (2 * need))) :: blocks, ?_, ?_⟩
      · have hframes : (samples (f.rest.take (2 * (2 * need)))).length / 2 = need := by
          rw [samples_length, List.length_take]
          omega
        rw [processLoop_turn hanswer hzero hneed (by omega), hloop, List.append_assoc, processCalls, processCalls,
          List.map_cons, hframes]
        rfl
      · have hsplit := samples_split (2 * need) (f.rest.take (2 * (2 * left)))
        rw [List.take_take, List.drop_take, Nat.min_eq_left (by omega)] at hsplit
        rw [List.flatten_cons, hflat, hrest, ← hsplit, Nat.mul_sub, Nat.mul_sub]

/-- Every setting is accepted. -/
theorem foldl_andCall (cs calls : List FlacCall) : cs.foldl (andCall answer) (true, calls) = (true, calls ++ cs) := by
  induction cs generalizing calls with
  | nil => rw [List.foldl_nil, List.append_nil]
  | cons c cs ih =>
    have hc : andCall answer (true, calls) c = (true, calls ++ [c]) := by rw [andCall, hanswer, Bool.true_and]
    rw [List.foldl_cons, hc, ih, List.append_assoc, List.singleton_append]

end Answers

section Header

variable (junk : Nat → UInt8) (size channels bps freq : Int)

/-- The fields that are compared: channels, block alignment, bits per sample. -/
theorem compareHeader_eq : compareHeader (overlay junk (makeWavheader size channels bps freq)) =
    decide (le16 (u32 channels) = [2, 0] ∧ le16 (u32 (i32 (bps + 7) >>> 3 * channels)) = [4, 0] ∧
      le16 (u32 bps) = [16, 0]) := by
  have hwave : ascii "WAVEfmt " ++ [16, 0, 0, 0, 1, 0, 2, 0] =
      ascii "WAVE" ++ ascii "fmt " ++ le32 16 ++ le16 1 ++ [2, 0] := by decide
  have hriff : bytesAt (overlay junk (makeWavheader size channels bps freq)) 0 4 = ascii "RIFF" :=
    bytesAt_middle junk (a := []) (by simp only [makeWavheader, List.append_assoc]; rfl) rfl rfl
  have hfmt : bytesAt (overlay junk (makeWavheader size channels bps freq)) 8 16 =
      ascii "WAVE" ++ ascii "fmt " ++ le32 16 ++ le16 1 ++ le16 (u32 channels) :=
    bytesAt_middle junk (a := ascii "RIFF" ++ le32 (u32 (size + 0x24)))
      (by simp only [makeWavheader, List.append_assoc]; rfl) rfl rfl
  have hdata : bytesAt (overlay junk (makeWavheader size channels bps freq)) 32 8 =
      le16 (u32 (i32 (bps + 7) >>> 3 * channels)) ++ le16 (u32 bps) ++ ascii "data" :=
    bytesAt_middle junk (a := ascii "RIFF" ++ le32 (u32 (size + 0x24)) ++ (ascii "WAVE" ++ ascii "fmt " ++ le32 16 ++
      le16 1 ++ le16 (u32 channels)) ++ le32 (u32 freq) ++ le32 (u32 (freq * (i32 (bps + 7) >>> 3) * channels)))
      (by simp only [makeWavheader, List.append_assoc]; rfl) rfl rfl
  rw [compareHeader, hriff, hfmt, hdata, hwave, decide_eq_decide, List.append_cancel_left_eq,
    List.append_cancel_right_eq]
  simp [le16, and_assoc]

theorem sampleRate_eq : u32 (intAt (overlay junk (makeWavheader size channels bps freq)) 24) = u32 freq :=
  u32_intAt_middle junk (a := ascii "RIFF" ++ le32 (u32 (size + 0x24)) ++ (ascii "WAVE" ++ ascii "fmt " ++ le32 16 ++
    le16 1 ++ le16 (u32 channels))) (by simp only [makeWavheader, List.append_assoc]; rfl) rfl (u32_lt freq)

theorem dataSize_eq : u32 (intAt (overlay junk (makeWavheader size channels bps freq)) 40) = u32 size :=
  u32_intAt_middle junk (c := []) (by rw [List.append_nil]; rfl) rfl (u32_lt size)

end Header

/-- The header of a stream is read whole, and its samples follow. -/
theorem read_header (header pcm : List UInt8) (h : header.length = 44) :
    ((NtFileMemory.openBuffer (header ++ pcm)).read 44).1 = header ∧
      ((NtFileMemory.openBuffer (header ++ pcm)).read 44).2.rest = pcm := by
  have hstart : (NtFileMemory.openBuffer (header ++ pcm)).rest = header ++ pcm := rfl
  obtain ⟨hread, hrest⟩ := NtFileMemory.read_append hstart
  rw [h] at hread hrest
  exact ⟨congrArg Prod.fst hread, hrest⟩

/-- A header that `CheckHeader` accepts: two channels with samples of 16 bits are encoded, with all the whole frames
of the data, and of any other format nothing is. -/
theorem convertNwaToFlac_checked {answer : List FlacCall → Bool} (hanswer : ∀ calls, answer calls = true)
    (junk : Nat → UInt8) {channels bps : Int} (hch : channels = 1 ∨ channels = 2) (hbps : bps = 8 ∨ bps = 16)
    (freq : Int) {datasize : Nat} (hint : datasize < 2 ^ 31) {pcm : List UInt8} (hsize : datasize ≤ pcm.length) :
    let calls := convertNwaToFlacInternalV2 answer junk
      (.openBuffer (makeWavheader datasize channels bps freq ++ pcm))
    if channels = 2 ∧ bps = 16 then
      ∃ blocks, calls = .new :: settings (u32 freq) (datasize / 4) ++ [.setMetadata, .initFile] ++
          processCalls blocks ++ [.finish] ∧
        blocks.flatten = samples (pcm.take (2 * (2 * (datasize / 4))))
    else calls = [] := by
  intro calls
  obtain ⟨hread, hrest⟩ := read_header (makeWavheader datasize channels bps freq) pcm (makeWavheader_length _ _ _ _)
  have hcompare : compareHeader (overlay junk (makeWavheader datasize channels bps freq)) =
      decide (channels = 2 ∧ bps = 16) := by
    rw [compareHeader_eq]
    rcases hch with rfl | rfl <;> rcases hbps with rfl | rfl <;> decide +kernel
  have hcalls : calls = convertNwaToFlacInternalV2 answer junk
    (.openBuffer (makeWavheader datasize channels bps freq ++ pcm)) := rfl
  unfold convertNwaToFlacInternalV2 at hcalls
  dsimp only at hcalls
  have hdatasize : u32 datasize = datasize := by rw [u32_eq (by omega) (by omega), Int.toNat_natCast]
  rw [hread, hcompare, sampleRate_eq, dataSize_eq, hdatasize] at hcalls
  split
  · next hstereo =>
    have hlen : 2 * (2 * (datasize / 4)) ≤
        ((NtFileMemory.openBuffer (makeWavheader datasize channels bps freq ++ pcm)).read 44).2.rest.length := by
      rw [hrest]
      omega
    obtain ⟨blocks, hloop, hflat⟩ := processLoop_samples hanswer
      (.new :: settings (u32 freq) (datasize / 4) ++ [.setMetadata, .initFile]) (Nat.le_refl (datasize / 4)) hlen
    refine ⟨blocks, ?_, by rw [hflat, hrest]⟩
    rw [if_neg (by simp [hstereo]), if_neg (by simp [hanswer]), foldl_andCall hanswer] at hcalls
    simp only [ifOk, hanswer, if_true] at hcalls
    rw [hcalls, ← hloop]
    simp
  · next hother =>
    rw [hcalls, if_pos (by simpa using hother)]

/-- One frame. -/
theorem convertNwaToFlac_frame : ∃ blocks, convertNwaToFlacInternalV2 (fun _ => true) (fun _ => 0)
      (.openBuffer (makeWavheader (4 : Nat) 2 16 44100 ++ [1, 0, 0xff, 0xff])) =
        .new :: settings (u32 44100) (4 / 4) ++ [.setMetadata, .initFile] ++ processCalls blocks ++ [.finish] ∧
    blocks.flatten = [1, -1] := by
  have hanswer : ∀ calls, (fun _ : List FlacCall => true) calls = true := fun _ => rfl
  have h := convertNwaToFlac_checked hanswer (fun _ => 0) (.inr rfl) (.inr rfl) 44100 (show 4 < 2 ^ 31 by decide)
    (show 4 ≤ [1, 0, 0xff, 0xff].length by decide)
  rwa [if_pos ⟨rfl, rfl⟩] at h

/-- One sample of one channel: the library is not called at all. One sample of two channels is no frame, and is not
passed on. -/
theorem convertNwaToFlac_loses :
    (¬ ∀ (channels bps freq : Int) (datasize : Nat) (pcm : List UInt8),
      channels = 1 ∨ channels = 2 → bps = 8 ∨ bps = 16 → datasize ≤ pcm.length →
        .setChannels channels.toNat ∈ convertNwaToFlacInternalV2 (fun _ => true) (fun _ => 0)
          (.openBuffer (makeWavheader datasize channels bps freq ++ pcm))) ∧
      ¬ ∀ (freq : Int) (datasize : Nat) (pcm : List UInt8), datasize ≤ pcm.length → ∃ front blocks back,
        convertNwaToFlacInternalV2 (fun _ => true) (fun _ => 0)
            (.openBuffer (makeWavheader datasize 2 16 freq ++ pcm)) = front ++ processCalls blocks ++ back ∧
          blocks.flatten = samples (pcm.take datasize) := by
  refine ⟨fun hall => ?_, fun hall => ?_⟩
  · have := hall 1 16 44100 2 [1, 0] (.inl rfl) (.inr rfl) (by decide)
    exact absurd this (by decide +kernel)
  · obtain ⟨front, blocks, back, hcalls, hflat⟩ := hall 44100 2 [1, 0] (by decide)
    have hnone : (convertNwaToFlacInternalV2 (fun _ => true) (fun _ => 0)
        (.openBuffer (makeWavheader (2 : Nat) 2 16 44100 ++ [1, 0]))).all
          (fun | .processInterleaved _ _ => false | _ => true) = true := by decide +kernel
    cases blocks with
    | nil => exact absurd hflat (by decide)
    | cons block blocks =>
      rw [hcalls] at hnone
      simp [processCalls] at hnone

end SiglusExtract.Nwa
