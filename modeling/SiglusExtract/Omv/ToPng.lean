/-
`UnpackOMV::OmvToPng_Normal` and `OmvToPng_Fixed` (UnpackOmv.h): the main decode loop, which writes one
PNG file for each frame. The loop goes by whether a frame is ready, and stops where none is and the
pointer into the file is at its end; the two positions are compared in their low 32 bits.
-/
import SiglusExtract.Lib.Machine
import SiglusExtract.Omv.Frames
import SiglusExtract.Scene.Pack
import Mathlib.Data.Nat.Digits.Lemmas

namespace SiglusExtract

open Machine

/-! ## The input file -/

namespace NtFileDisk

/-- A `ULONG_PTR`, of 32 bits. -/
def getCurrentPos (f : NtFileDisk) : Nat := f.position % 2 ^ 32

/-- A `ULONG_PTR`, of 32 bits. -/
def getSize32 (f : NtFileDisk) : Nat := f.fileSize % 2 ^ 32

/-- The position is within the size the object keeps, and that is the file's unless the position has been
moved behind the end and counts as the size. -/
structure Consistent (f : NtFileDisk) : Prop where
  held : f.data.length ≤ f.fileSize
  within : f.position ≤ f.fileSize
  size : f.position < f.fileSize → f.fileSize = f.data.length

theorem Consistent.seek {f : NtFileDisk} (h : f.fileSize = f.data.length) (hpos : f.position ≤ f.fileSize)
    (offset : Int) : (f.seek offset).Consistent := by
  unfold NtFileDisk.seek
  split
  · exact ⟨h.ge, hpos, fun _ => h⟩
  · refine ⟨h ▸ Nat.le_max_left _ _, Nat.le_max_right _ _, fun hlt => ?_⟩
    have hlt : offset.toNat < max f.fileSize offset.toNat := hlt
    show max f.fileSize offset.toNat = f.data.length
    omega

/-- A read of a consistent file moves the position on by what is left, up to its size. -/
theorem Consistent.read_position {f : NtFileDisk} (h : f.Consistent) {size : Nat} (hsize : size ≠ 0) :
    (f.read size).2.position = f.position + min size (f.fileSize - f.position) := by
  have hheld := h.held
  have hwithin := h.within
  have hlength : f.fileSize - f.position = f.data.length - f.position := by
    rcases Nat.lt_or_ge f.position f.fileSize with hlt | hge
    · rw [h.size hlt]
    · omega
  rw [read_eq f hsize]
  show f.position + (f.rest.take size).length = _
  rw [List.length_take, rest, List.length_drop, hlength]

theorem Consistent.read {f : NtFileDisk} (h : f.Consistent) {size : Nat} (hsize : size ≠ 0) :
    (f.read size).2.Consistent := by
  have hposition := h.read_position hsize
  have hwithin := h.within
  refine ⟨h.held, ?_, fun hlt => h.size ?_⟩
  · rw [hposition]
    show _ ≤ f.fileSize
    omega
  · rw [hposition] at hlt
    have hlt : f.position + min size (f.fileSize - f.position) < f.fileSize := hlt
    omega

/-- What `Unpack` hands over: it reads the OMV header and moves to the offset that the header names. -/
theorem consistent_unpack (data : List UInt8) (offset : Nat) :
    (((openFile data).read 168).2.seek offset).Consistent := by
  refine Consistent.seek rfl ?_ offset
  have hopen : (openFile data).Consistent := ⟨Nat.le_refl _, Nat.zero_le _, fun _ => rfl⟩
  exact (hopen.read (by decide)).within

end NtFileDisk

namespace Omv

/-- The input file of the main loop. -/
def OmvFile : Type := { f : NtFileDisk // f.Consistent }

namespace OmvFile

/-- What `buffer_data` does to the file. -/
def bufferData (infile : OmvFile) : OmvFile := ⟨(infile.1.read 4096).2, infile.2.read (by decide)⟩

/-- The bytes left to read. -/
def left (infile : OmvFile) : Nat := infile.1.fileSize - infile.1.position

/-- The reads that get all of the file. -/
def readsToEnd (infile : OmvFile) : Nat := (infile.left + 4095) / 4096

/-- The reads after which the low words of position and size agree for the first time. -/
def readsMade (infile : OmvFile) : Nat :=
  if infile.left % 4096 = 0 then infile.left % 2 ^ 32 / 4096 else infile.readsToEnd

variable {infile : OmvFile}

theorem atEnd_iff : infile.1.getCurrentPos = infile.1.getSize32 ↔ infile.left % 2 ^ 32 = 0 := by
  have hwithin := infile.2.within
  unfold NtFileDisk.getCurrentPos NtFileDisk.getSize32 left
  omega

theorem left_bufferData (infile : OmvFile) : infile.bufferData.left = infile.left - 4096 := by
  have hposition := infile.2.read_position (by decide : 4096 ≠ 0)
  unfold left
  show infile.1.fileSize - (infile.1.read 4096).2.position = _
  rw [hposition]
  omega

theorem readsMade_of_end (h : infile.1.getCurrentPos = infile.1.getSize32) : infile.readsMade = 0 := by
  rw [atEnd_iff] at h
  unfold readsMade
  rw [if_pos (by omega), h]

/-- A read away from the end leaves one read less. -/
theorem readsMade_of_not_end (h : infile.1.getCurrentPos ≠ infile.1.getSize32) :
    infile.readsMade = infile.bufferData.readsMade + 1 := by
  rw [Ne, atEnd_iff] at h
  unfold readsMade readsToEnd
  rw [left_bufferData]
  split <;> split <;> omega

theorem readsMade_le (infile : OmvFile) : infile.readsMade ≤ infile.readsToEnd := by
  unfold readsMade readsToEnd
  split <;> omega

end OmvFile

/-! ## The names of the files -/

/-- `%06d` of a number that is not negative. -/
def sixDigits (n : Nat) : WString :=
  ((Nat.digitsAppend 10 6 n).map fun d => UInt16.ofNat (48 + d)).reverse

/-- `WriteFileName`: `FilePath` and `\%06d.png` of the frame. -/
def writeFileName (filePath : WString) (frames : Nat) : WString :=
  filePath ++ (92 :: sixDigits frames ++ wide ".png")

/-- The number that the digits say. -/
theorem ofDigits_sixDigits (n : Nat) : Nat.ofDigits 10 ((sixDigits n).reverse.map fun u => u.toNat - 48) = n := by
  have hback : ∀ d ∈ Nat.digitsAppend 10 6 n, (UInt16.ofNat (48 + d)).toNat - 48 = d := by
    intro d hd
    have hlt : d < 10 := Nat.lt_of_mem_digitsAppend (by decide) 6 d hd
    rw [UInt16.toNat_ofNat', Nat.mod_eq_of_lt (by omega), Nat.add_sub_cancel_left]
  have hmap : (sixDigits n).reverse.map (fun u => u.toNat - 48) = Nat.digitsAppend 10 6 n := by
    rw [sixDigits, List.reverse_reverse, List.map_map]
    exact (List.map_congr_left hback).trans (List.map_id _)
  rw [hmap, Nat.digitsAppend, Nat.ofDigits_append_replicate_zero, Nat.ofDigits_digits]

theorem writeFileName_injective (filePath : WString) : Function.Injective (writeFileName filePath) := by
  intro m n h
  have hdigits : sixDigits m = sixDigits n :=
    List.append_cancel_right (List.cons.inj (List.append_cancel_left h)).2
  rw [← ofDigits_sixDigits m, hdigits, ofDigits_sixDigits n]

/-! ## The decode loop -/

/-- The variables of the main loop, with the count of the reads it has made. -/
structure PngState (δ π : Type) where
  infile : OmvFile
  reads : Nat
  frames : Nat
  td : δ
  ops : List π

section

variable {δ π ω : Type} (c : Codec δ π) (arrive : Nat → List (List π)) (write : δ → ω) (filePath : WString)

/-- One turn of `while (!got_sigint)`. The read `k` completes the pages `arrive k`; `write` makes the file
from what the decoder shows. -/
def pngTurn (s : PngState δ π) : Step (WString × ω) Outcome (PngState δ π) :=
  match c.packetLoop s.td s.ops with
  | (true, td, ops) =>
    if s.frames + 1 < 2 ^ 31 then
      .more [(writeFileName filePath (s.frames + 1), write td)] { s with frames := s.frames + 1, td, ops }
    else .halt [] .overflow
  | (false, td, ops) =>
    if s.infile.1.getCurrentPos = s.infile.1.getSize32 then .halt [] .finished
    else
      .more []
        { s with infile := s.infile.bufferData, reads := s.reads + 1, td, ops := c.queuePages ops (arrive s.reads) }

/-- The files of the frames shown, numbered from `frames + 1` on. -/
def frameFiles (frames : Nat) (shown : List δ) : List (WString × ω) :=
  numbered (fun number td => (writeFileName filePath number, write td)) frames shown

end

variable {δ π ω : Type} {c : Codec δ π} {arrive : Nat → List (List π)} {write : δ → ω} {filePath : WString}

theorem pngTurn_ready {s : PngState δ π} {td : δ} {ops : List π} (h : c.packetLoop s.td s.ops = (true, td, ops))
    (hframes : s.frames + 1 < 2 ^ 31) :
    pngTurn c arrive write filePath s =
      .more [(writeFileName filePath (s.frames + 1), write td)] { s with frames := s.frames + 1, td, ops } := by
  unfold pngTurn
  rw [h]
  exact if_pos hframes

theorem pngTurn_overflow {s : PngState δ π} {td : δ} {ops : List π} (h : c.packetLoop s.td s.ops = (true, td, ops))
    (hframes : ¬ s.frames + 1 < 2 ^ 31) : pngTurn c arrive write filePath s = .halt [] .overflow := by
  unfold pngTurn
  rw [h]
  exact if_neg hframes

theorem pngTurn_end {s : PngState δ π} {td : δ} {ops : List π} (h : c.packetLoop s.td s.ops = (false, td, ops))
    (hend : s.infile.1.getCurrentPos = s.infile.1.getSize32) :
    pngTurn c arrive write filePath s = .halt [] .finished := by
  unfold pngTurn
  rw [h]
  exact if_pos hend

theorem pngTurn_read {s : PngState δ π} {td : δ} {ops : List π} (h : c.packetLoop s.td s.ops = (false, td, ops))
    (hend : s.infile.1.getCurrentPos ≠ s.infile.1.getSize32) :
    pngTurn c arrive write filePath s =
      .more []
        { s with infile := s.infile.bufferData, reads := s.reads + 1, td,
                 ops := c.queuePages ops (arrive s.reads) } := by
  unfold pngTurn
  rw [h]
  exact if_neg hend

/-- The loop writes the frames of the packets that the reads it makes complete, as far as the counter goes. -/
theorem pngTurn_ends (n : Nat) (shown : List δ) {s : PngState δ π} (hreads : s.infile.readsMade = n)
    (hshown : c.decoded s.td (s.ops ++ arrived arrive s.reads n) = shown) (hframes : s.frames < 2 ^ 31) :
    Ends (pngTurn c arrive write filePath) s
      (frameFiles write filePath s.frames (shown.take (2 ^ 31 - 1 - s.frames)))
      (if s.frames + shown.length < 2 ^ 31 then .finished else .overflow) := by
  rcases hloop : c.packetLoop s.td s.ops with ⟨_ | _, td, ops⟩
  · by_cases hend : s.infile.1.getCurrentPos = s.infile.1.getSize32
    · -- no read is left: nothing of the queue was a frame
      rw [OmvFile.readsMade_of_end hend] at hreads
      rw [← hreads, arrived, List.append_nil, (packetLoop_stall hloop []).1] at hshown
      subst hshown
      rw [List.take_nil, List.length_nil, Nat.add_zero, if_pos hframes]
      exact .halt (pngTurn_end hloop hend)
    · rw [OmvFile.readsMade_of_not_end hend] at hreads
      obtain ⟨m, rfl⟩ : ∃ m, n = m + 1 := ⟨_, hreads.symm⟩
      rw [arrived, (packetLoop_stall hloop _).2, ← decoded_queuePages] at hshown
      exact .more (pngTurn_read hloop hend) (pngTurn_ends m shown (Nat.add_right_cancel hreads) hshown hframes)
  · rw [packetLoop_ready hloop] at hshown
    obtain ⟨rest, hrest⟩ : ∃ rest, c.decoded td (ops ++ arrived arrive s.reads n) = rest := ⟨_, rfl⟩
    rw [hrest] at hshown
    have hless : rest.length < shown.length := by
      rw [← hshown]
      exact Nat.lt_succ_self _
    rw [← hshown]
    by_cases hnext : s.frames + 1 < 2 ^ 31
    · have htake : 2 ^ 31 - 1 - s.frames = (2 ^ 31 - 1 - (s.frames + 1)) + 1 := by omega
      have hcount : s.frames + (td :: rest).length = s.frames + 1 + rest.length := by
        rw [List.length_cons]
        omega
      rw [htake, List.take_succ_cons, hcount]
      exact .more (pngTurn_ready hloop hnext)
        (pngTurn_ends n rest (s := { s with frames := s.frames + 1, td, ops }) hreads hrest hnext)
    · have htake : 2 ^ 31 - 1 - s.frames = 0 := by omega
      rw [htake, List.take_zero, if_neg (by rw [List.length_cons]; omega)]
      exact .halt (pngTurn_overflow hloop hnext)
termination_by (n, shown.length)

/-- No file is written over another. -/
theorem frameFiles_nodup (write : δ → ω) (filePath : WString) (shown : List δ) (frames : Nat) :
    ((frameFiles write filePath frames shown).map Prod.fst).Nodup := by
  have hlater : ∀ (shown : List δ) (frames : Nat), ∀ file ∈ (frameFiles write filePath frames shown).map Prod.fst,
      ∃ m, frames < m ∧ file = writeFileName filePath m := by
    intro shown
    induction shown with
    | nil => rintro _ _ ⟨⟩
    | cons td shown ih =>
      rintro frames file hfile
      rcases List.mem_cons.1 hfile with rfl | hfile
      · exact ⟨frames + 1, Nat.lt_succ_self _, rfl⟩
      · obtain ⟨m, hm, rfl⟩ := ih (frames + 1) file hfile
        exact ⟨m, by omega, rfl⟩
  induction shown generalizing frames with
  | nil => exact List.nodup_nil
  | cons td shown ih =>
    refine List.nodup_cons.2 ⟨fun hmem => ?_, ih (frames + 1)⟩
    obtain ⟨m, hm, h⟩ := hlater shown (frames + 1) _ hmem
    exact absurd (writeFileName_injective filePath h) (by omega)

/-! ## `OmvToPng_Normal` and `OmvToPng_Fixed` -/

/-- `video_write` and `video_write_fixed`: the PNG file of what the decoder shows. -/
structure VideoWrite (δ ω : Type) where
  videoWrite : δ → ω
  videoWriteFixed : δ → ω

/-- The main loop of `OmvToPng_Normal`, on what the header phase leaves. -/
def omvToPngNormal (c : Codec δ π) (arrive : Nat → List (List π)) (v : VideoWrite δ ω) (filePath : WString)
    (infile : OmvFile) (td : δ) (ops : List π) (fuel : Nat) : List (WString × ω) × Option Outcome :=
  run (pngTurn c arrive v.videoWrite filePath) fuel ⟨infile, 0, 0, td, ops⟩

/-- The main loop of `OmvToPng_Fixed`. -/
def omvToPngFixed (c : Codec δ π) (arrive : Nat → List (List π)) (v : VideoWrite δ ω) (filePath : WString)
    (infile : OmvFile) (td : δ) (ops : List π) (fuel : Nat) : List (WString × ω) × Option Outcome :=
  run (pngTurn c arrive v.videoWriteFixed filePath) fuel ⟨infile, 0, 0, td, ops⟩

/-- The decoder at each frame of the whole file. -/
def allFrames (c : Codec δ π) (arrive : Nat → List (List π)) (infile : OmvFile) (td : δ) (ops : List π) : List δ :=
  c.decoded td (ops ++ arrived arrive 0 infile.readsToEnd)

/-- The frames in what the reads would complete that are left when the low words of position and size agree. -/
def framesBehind (c : Codec δ π) (arrive : Nat → List (List π)) (infile : OmvFile) (td : δ) (ops : List π) : List δ :=
  c.decoded (c.after td (ops ++ arrived arrive 0 infile.readsMade))
    (arrived arrive infile.readsMade (infile.readsToEnd - infile.readsMade))

theorem allFrames_eq (c : Codec δ π) (arrive : Nat → List (List π)) (infile : OmvFile) (td : δ) (ops : List π) :
    allFrames c arrive infile td ops =
      c.decoded td (ops ++ arrived arrive 0 infile.readsMade) ++ framesBehind c arrive infile td ops := by
  have hsplit : infile.readsToEnd = infile.readsMade + (infile.readsToEnd - infile.readsMade) :=
    (Nat.add_sub_cancel' infile.readsMade_le).symm
  rw [framesBehind, ← decoded_append, List.append_assoc, allFrames, hsplit, arrived_add, Nat.zero_add,
    Nat.add_sub_cancel_left]

theorem pngLoop_ends (infile : OmvFile) (td : δ) (ops : List π) :
    ∃ fuel log r, run (pngTurn c arrive write filePath) fuel ⟨infile, 0, 0, td, ops⟩ = (log, some r) := by
  obtain ⟨fuel, hrun⟩ := @pngTurn_ends _ _ _ c arrive write filePath infile.readsMade _ ⟨infile, 0, 0, td, ops⟩ rfl rfl
    (by show 0 < 2 ^ 31; decide)
  exact ⟨fuel, _, _, hrun⟩

theorem pngLoop_all_iff (infile : OmvFile) (td : δ) (ops : List π) :
    Ends (pngTurn c arrive write filePath) ⟨infile, 0, 0, td, ops⟩
        (frameFiles write filePath 0 (allFrames c arrive infile td ops)) .finished ↔
      (allFrames c arrive infile td ops).length < 2 ^ 31 ∧ framesBehind c arrive infile td ops = [] := by
  obtain ⟨shown, hshown⟩ : ∃ shown, c.decoded td (ops ++ arrived arrive 0 infile.readsMade) = shown := ⟨_, rfl⟩
  have hends : Ends (pngTurn c arrive write filePath) ⟨infile, 0, 0, td, ops⟩
      (frameFiles write filePath 0 (shown.take (2 ^ 31 - 1)))
      (if 0 + shown.length < 2 ^ 31 then .finished else .overflow) :=
    pngTurn_ends infile.readsMade shown rfl hshown (by show 0 < 2 ^ 31; decide)
  have hall := allFrames_eq c arrive infile td ops
  rw [hshown] at hall
  rw [Nat.zero_add] at hends
  constructor
  · intro h
    obtain ⟨hlog, hfin⟩ := h.unique hends
    have hfew : shown.length < 2 ^ 31 := by
      by_contra hmany
      rw [if_neg hmany] at hfin
      cases hfin
    -- as many files as frames: nothing is left for the reads not made
    have hlen := congrArg List.length hlog
    rw [frameFiles, frameFiles, numbered_length, numbered_length, List.take_of_length_le (by omega), hall,
      List.length_append] at hlen
    have hrest := List.length_eq_zero_iff.1 (show (framesBehind c arrive infile td ops).length = 0 by omega)
    rw [hall, hrest, List.append_nil]
    exact ⟨hfew, rfl⟩
  · rintro ⟨hfew, hrest⟩
    rw [hrest, List.append_nil] at hall
    rw [hall] at hfew
    rw [List.take_of_length_le (by omega), if_pos hfew] at hends
    rw [hall]
    exact hends

/-- Both loops stop. They stop with one file for each frame of the input, in order and under names of their
own, exactly where the counter holds the number of frames and no frame is left behind. -/
theorem omvToPng_frames_iff (c : Codec δ π) (arrive : Nat → List (List π)) (v : VideoWrite δ ω) (filePath : WString)
    (infile : OmvFile) (td : δ) (ops : List π) :
    (∃ fuel log r, omvToPngNormal c arrive v filePath infile td ops fuel = (log, some r)) ∧
      (∃ fuel log r, omvToPngFixed c arrive v filePath infile td ops fuel = (log, some r)) ∧
      ((∃ fuel, omvToPngNormal c arrive v filePath infile td ops fuel =
          (frameFiles v.videoWrite filePath 0 (allFrames c arrive infile td ops), some .finished)) ↔
        (allFrames c arrive infile td ops).length < 2 ^ 31 ∧ framesBehind c arrive infile td ops = []) ∧
      ((∃ fuel, omvToPngFixed c arrive v filePath infile td ops fuel =
          (frameFiles v.videoWriteFixed filePath 0 (allFrames c arrive infile td ops), some .finished)) ↔
        (allFrames c arrive infile td ops).length < 2 ^ 31 ∧ framesBehind c arrive infile td ops = []) ∧
      ((frameFiles v.videoWrite filePath 0 (allFrames c arrive infile td ops)).map Prod.fst).Nodup ∧
      ((frameFiles v.videoWriteFixed filePath 0 (allFrames c arrive infile td ops)).map Prod.fst).Nodup :=
  ⟨pngLoop_ends infile td ops, pngLoop_ends infile td ops, pngLoop_all_iff infile td ops, pngLoop_all_iff infile td ops,
    frameFiles_nodup _ filePath _ 0, frameFiles_nodup _ filePath _ 0⟩

/-- A file with 4 GiB left behind the position 8360. -/
def fourGiB : OmvFile :=
  ⟨⟨List.replicate 4294975656 0, 4294975656, 8360⟩, ⟨(List.length_replicate ..).le, by decide,
    fun _ => (List.length_replicate ..).symm⟩⟩

/-- With 4 GiB left to read and a frame in the first 4096 bytes of them, the loop stops before its first read
and writes nothing. -/
theorem omvToPng_stops_early :
    omvToPngNormal counting (fun k => if k = 0 then [[()]] else []) ⟨id, id⟩ [] fourGiB 0 [] 1 = ([], some .finished) ∧
      ¬ ∃ fuel, omvToPngNormal counting (fun k => if k = 0 then [[()]] else []) ⟨id, id⟩ [] fourGiB 0 [] fuel =
        (frameFiles id [] 0 (allFrames counting (fun k => if k = 0 then [[()]] else []) fourGiB 0 []),
          some .finished) := by
  have hend : fourGiB.1.getCurrentPos = fourGiB.1.getSize32 := by decide
  have hloop : counting.packetLoop 0 [] = (false, 0, []) := rfl
  have hstop : Ends (pngTurn counting (fun k => if k = 0 then [[()]] else []) id []) ⟨fourGiB, 0, 0, 0, []⟩ []
      .finished := .halt (pngTurn_end hloop hend)
  refine ⟨run_halt (pngTurn_end hloop hend) 0, ?_⟩
  rintro ⟨fuel, h⟩
  have hnone := congrArg List.length (Ends.unique ⟨fuel, h⟩ hstop).1
  have hreads : fourGiB.readsToEnd = 1 + 1048575 := by decide
  rw [frameFiles, numbered_length, allFrames, hreads, arrived_add, List.nil_append, decoded_append,
    List.length_append] at hnone
  have hone : (counting.decoded 0 (arrived (fun k => if k = 0 then [[()]] else []) 0 1)).length = 1 := by decide
  rw [hone, List.length_nil] at hnone
  omega

end Omv

end SiglusExtract
