/-
`ExtractOmvType2Internal` (Omv2Avi.cpp): the same decode loop as that of the PNG writers, but for the end
of file, which is `feof`, and for the call of `video_write`, which stands behind the refill and not beside
it: every turn that reads on writes a frame, too.
-/
import SiglusExtract.Lib.Machine
import SiglusExtract.Omv.Frames
import Mathlib.Algebra.Group.Nat.Defs

namespace SiglusExtract.Omv

open Machine

/-- A `FILE` opened in binary mode: the bytes left and the end-of-file indicator. -/
structure CFile where
  left : Nat
  eof : Bool
  deriving DecidableEq, Repr

namespace CFile

/-- What `buffer_data` does to the file: `fread` asks for 4096 bytes and sets the indicator where it falls
short of them. -/
def bufferData (infile : CFile) : CFile := ⟨infile.left - 4096, infile.eof || infile.left < 4096⟩

/-- The reads until `feof` holds. -/
def readsToEnd (infile : CFile) : Nat := if infile.eof then 0 else infile.left / 4096 + 1

theorem readsToEnd_eq_zero {infile : CFile} : infile.readsToEnd = 0 ↔ infile.eof = true := by
  unfold readsToEnd
  split
  · rename_i heof
    exact iff_of_true rfl heof
  · rename_i heof
    exact iff_of_false (Nat.succ_ne_zero _) heof

theorem readsToEnd_bufferData {infile : CFile} (h : infile.eof = false) :
    infile.readsToEnd = infile.bufferData.readsToEnd + 1 := by
  unfold readsToEnd bufferData
  rw [h, Bool.false_or, if_neg Bool.false_ne_true]
  by_cases hshort : infile.left < 4096
  · rw [if_pos (decide_eq_true hshort), Nat.div_eq_of_lt hshort]
  · rw [if_neg (by rw [decide_eq_false hshort]; exact Bool.false_ne_true)]
    show infile.left / 4096 + 1 = (infile.left - 4096) / 4096 + 1 + 1
    omega

end CFile

/-- The variables of the main loop, with the count of the reads it has made. -/
structure AviState (δ π : Type) where
  infile : CFile
  reads : Nat
  frames : Nat
  td : δ
  ops : List π

variable {δ π : Type}

/-- One turn of `while (!got_sigint)`: a call of `video_write` is its argument and the decoder, whose
picture it writes. -/
def aviTurn (c : Codec δ π) (arrive : Nat → List (List π)) (s : AviState δ π) :
    Step (Nat × δ) Outcome (AviState δ π) :=
  match c.packetLoop s.td s.ops with
  | (true, td, ops) =>
    if s.frames + 1 < 2 ^ 31 then .more [(s.frames + 1, td)] { s with frames := s.frames + 1, td, ops }
    else .halt [] .overflow
  | (false, td, ops) =>
    if s.infile.eof then .halt [] .finished
    else
      -- no frame is ready, and `video_write(frames)` is called all the same
      .more [(s.frames, td)]
        { s with infile := s.infile.bufferData, reads := s.reads + 1, td, ops := c.queuePages ops (arrive s.reads) }

/-- The main loop of `ExtractOmvType2Internal`, on what the header phase leaves. -/
def extractOmvType2Internal (c : Codec δ π) (arrive : Nat → List (List π)) (infile : CFile) (td : δ) (ops : List π)
    (fuel : Nat) : List (Nat × δ) × Option Outcome :=
  run (aviTurn c arrive) fuel ⟨infile, 0, 0, td, ops⟩

variable {c : Codec δ π} {arrive : Nat → List (List π)}

theorem aviTurn_ready (arrive : Nat → List (List π)) {s : AviState δ π} {td : δ} {ops : List π}
    (h : c.packetLoop s.td s.ops = (true, td, ops)) :
    aviTurn c arrive s =
      if s.frames + 1 < 2 ^ 31 then .more [(s.frames + 1, td)] { s with frames := s.frames + 1, td, ops }
      else .halt [] .overflow := by
  unfold aviTurn
  rw [h]

theorem aviTurn_stall (arrive : Nat → List (List π)) {s : AviState δ π} {td : δ} {ops : List π}
    (h : c.packetLoop s.td s.ops = (false, td, ops)) :
    aviTurn c arrive s =
      if s.infile.eof then .halt [] .finished
      else
        .more [(s.frames, td)]
          { s with infile := s.infile.bufferData, reads := s.reads + 1, td,
                   ops := c.queuePages ops (arrive s.reads) } := by
  unfold aviTurn
  rw [h]

/-- The loop stops. It calls `video_write` for each frame, in order, and once more for each read. -/
theorem aviTurn_ends (n : Nat) (shown : List δ) {s : AviState δ π} (hreads : s.infile.readsToEnd = n)
    (hshown : c.decoded s.td (s.ops ++ arrived arrive s.reads n) = shown) (hframes : s.frames < 2 ^ 31) :
    ∃ log, Ends (aviTurn c arrive) s log (if s.frames + shown.length < 2 ^ 31 then .finished else .overflow) ∧
      (s.frames + shown.length < 2 ^ 31 →
        (numbered Prod.mk s.frames shown).Sublist log ∧ log.length = shown.length + n) := by
  rcases hloop : c.packetLoop s.td s.ops with ⟨_ | _, td, ops⟩
  · have hturn := aviTurn_stall arrive hloop
    cases n with
    | zero =>
      rw [CFile.readsToEnd_eq_zero] at hreads
      rw [if_pos hreads] at hturn
      rw [arrived, List.append_nil, (packetLoop_stall hloop []).1] at hshown
      subst hshown
      rw [List.length_nil, Nat.add_zero, if_pos hframes]
      exact ⟨[], .halt hturn, fun _ => ⟨List.Sublist.refl [], Nat.zero_add 0⟩⟩
    | succ n =>
      have heof : s.infile.eof = false := by
        rw [← Bool.not_eq_true, ← CFile.readsToEnd_eq_zero, hreads]
        exact Nat.succ_ne_zero n
      rw [if_neg (by rw [heof]; exact Bool.false_ne_true)] at hturn
      rw [CFile.readsToEnd_bufferData heof, Nat.add_right_cancel_iff] at hreads
      rw [arrived, (packetLoop_stall hloop _).2, ← decoded_queuePages] at hshown
      -- a call with the number of the frame before, whatever the read completes
      obtain ⟨log, hends, hlog⟩ := aviTurn_ends n shown
        (s := ⟨s.infile.bufferData, s.reads + 1, s.frames, td, c.queuePages ops (arrive s.reads)⟩) hreads hshown hframes
      refine ⟨_, .more hturn hends, fun hfew => ?_⟩
      obtain ⟨hsub, hlen⟩ := hlog hfew
      exact ⟨hsub.cons _, by rw [List.singleton_append, List.length_cons, hlen, Nat.add_assoc]⟩
  · have hturn := aviTurn_ready arrive hloop
    rw [packetLoop_ready hloop] at hshown
    obtain ⟨rest, hrest⟩ : ∃ rest, c.decoded td (ops ++ arrived arrive s.reads n) = rest := ⟨_, rfl⟩
    rw [hrest] at hshown
    have hless : rest.length < shown.length := by
      rw [← hshown]
      exact Nat.lt_succ_self _
    have hcount : s.frames + shown.length = s.frames + 1 + rest.length := by
      rw [← hshown, List.length_cons]
      omega
    by_cases hnext : s.frames + 1 < 2 ^ 31
    · rw [if_pos hnext] at hturn
      obtain ⟨log, hends, hlog⟩ :=
        aviTurn_ends n rest (s := { s with frames := s.frames + 1, td, ops }) hreads hrest hnext
      rw [hcount]
      refine ⟨_, .more hturn hends, fun hfew => ?_⟩
      obtain ⟨hsub, hlen⟩ := hlog hfew
      rw [← hshown, numbered]
      exact ⟨hsub.cons_cons _, by rw [List.singleton_append, List.length_cons, hlen, List.length_cons]; omega⟩
    · rw [if_neg hnext] at hturn
      rw [if_neg (by omega)]
      exact ⟨[], .halt hturn, fun hfew => absurd hfew (by omega)⟩
termination_by (n, shown.length)

/-- The loop calls `video_write` once for each frame of the file, with the numbers from 1 on, exactly where
the file is at its end before the loop begins, and the counter holds the number of frames. -/
theorem extractOmvType2Internal_once_iff (c : Codec δ π) (arrive : Nat → List (List π)) (infile : CFile) (td : δ)
    (ops : List π) :
    (∃ fuel, extractOmvType2Internal c arrive infile td ops fuel =
        (numbered Prod.mk 0 (c.decoded td (ops ++ arrived arrive 0 infile.readsToEnd)), some .finished)) ↔
      infile.eof = true ∧ (c.decoded td (ops ++ arrived arrive 0 infile.readsToEnd)).length < 2 ^ 31 := by
  obtain ⟨log, hends, hlog⟩ := @aviTurn_ends _ _ c arrive infile.readsToEnd _ ⟨infile, 0, 0, td, ops⟩ rfl rfl
    (by show 0 < 2 ^ 31; decide)
  simp only [Nat.zero_add] at hends hlog
  generalize c.decoded td (ops ++ arrived arrive 0 infile.readsToEnd) = shown at hends hlog ⊢
  rw [← CFile.readsToEnd_eq_zero]
  constructor
  · intro h
    obtain ⟨rfl, hfin⟩ := Ends.unique h hends
    have hfew : shown.length < 2 ^ 31 := by
      by_contra hmany
      rw [if_neg hmany] at hfin
      cases hfin
    have hlen := (hlog hfew).2
    rw [numbered_length] at hlen
    exact ⟨by omega, hfew⟩
  · rintro ⟨hread, hfew⟩
    obtain ⟨hsub, hlen⟩ := hlog hfew
    have hsame : (numbered Prod.mk 0 shown).length = log.length := by rw [numbered_length, hlen, hread, Nat.add_zero]
    rw [if_pos hfew, ← hsub.eq_of_length hsame] at hends
    exact hends

/-- A file with less than 4096 bytes left and one frame in them. Where the first read of the loop completes
the packet, a frame 0 is written before it is decoded; where it was queued before, it is written twice. -/
theorem extractOmvType2Internal_twice :
    (extractOmvType2Internal counting (fun k => if k = 0 then [[()]] else []) ⟨100, false⟩ 0 [] 3 =
          ([(0, 0), (1, 1)], some .finished) ∧
        numbered Prod.mk 0 (counting.decoded 0 (arrived (fun k => if k = 0 then [[()]] else []) 0 1)) = [(1, 1)]) ∧
      extractOmvType2Internal counting (fun _ => []) ⟨100, false⟩ 0 [()] 3 = ([(1, 1), (1, 1)], some .finished) ∧
        numbered Prod.mk 0 (counting.decoded 0 [()]) = [(1, 1)] := by
  decide +kernel

end SiglusExtract.Omv
