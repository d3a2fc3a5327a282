/-
`StreamWriter` (StreamWriter.h) against the file it stands for. Every call is compared by what a
caller sees of it: the result, the bytes copied to the caller, and then size, content and position.
-/
import Mathlib.Data.List.Basic
import Mathlib.Tactic.Linarith

namespace SiglusExtract

/-- A buffer a caller passes with its `ULONG` size. -/
abbrev Chunk := { b : List UInt8 // b.length < 2 ^ 32 }

/-- The calls of `StreamWriter`; `Read` and `Seek` take a `ULONG`. -/
inductive Call
  | write (buffer : Chunk)
  | read (size : UInt32)
  | seek (absolutelyOffset : UInt32)
  | tell

/-- The bytes a call asks to transfer. -/
def Call.size : Call → Nat
  | .write buffer => buffer.1.length
  | .read size => size.toNat
  | _ => 0

/-- What a caller sees of a call. -/
structure Observation where
  result : Nat
  copied : List UInt8
  getSize : Nat
  getBuffer : List UInt8
  tell : Nat
  deriving DecidableEq, Repr

/-! ## The reference file -/

/-- A file with a position inside it. -/
structure PosFile where
  data : List UInt8
  pos : Nat
  pos_le : pos ≤ data.length

namespace PosFile

def empty : PosFile := ⟨[], 0, Nat.le_refl 0⟩

/-- Overwrite from the position on; the file grows where the bytes go past its end. -/
def write (f : PosFile) (buffer : List UInt8) : PosFile where
  data := f.data.take f.pos ++ buffer ++ f.data.drop (f.pos + buffer.length)
  pos := f.pos + buffer.length
  pos_le := by
    have := f.pos_le
    simp
    omega

/-- The bytes from the position on, as far as there are `size`. -/
def read (f : PosFile) (size : Nat) : List UInt8 × PosFile :=
  ((f.data.drop f.pos).take size,
    { f with
      pos := f.pos + min size (f.data.length - f.pos)
      pos_le := by have := f.pos_le; omega })

/-- Move to a position of the file. -/
def seek (f : PosFile) (offset : Nat) : Option PosFile :=
  if h : offset ≤ f.data.length then some { f with pos := offset, pos_le := h } else none

def observe (f : PosFile) (result : Nat) (copied : List UInt8) : Observation :=
  ⟨result, copied, f.data.length, f.data, f.pos⟩

def step (f : PosFile) : Call → Observation × PosFile
  | .write buffer => ((f.write buffer.1).observe buffer.1.length [], f.write buffer.1)
  | .read size =>
    let (bytes, f) := f.read size.toNat
    (f.observe bytes.length bytes, f)
  | .seek offset =>
    match f.seek offset.toNat with
    | some f => (f.observe 1 [], f)
    | none => (f.observe 0 [], f)
  | .tell => (f.observe f.pos [], f)

/-- What the calls of a run show. -/
def run (f : PosFile) : List Call → List Observation
  | [] => []
  | c :: calls => (f.step c).1 :: run (f.step c).2 calls

/-- The size grows to the end of what is written, no further. -/
theorem length_write (f : PosFile) (buffer : List UInt8) :
    (f.write buffer).data.length = max f.data.length (f.pos + buffer.length) := by
  have := f.pos_le
  simp only [write, List.length_append, List.length_take, List.length_drop]
  omega

end PosFile

/-! ## StreamWriter -/

/-- A `StreamWriter`. Its offset stays inside the stream: `Seek` refuses to leave it, and `Write` makes
the stream longer than it moves the offset. -/
structure StreamWriter where
  stream : List UInt8
  offset : Nat
  offset_le : offset ≤ stream.length

namespace StreamWriter

def empty : StreamWriter := ⟨[], 0, Nat.le_refl 0⟩

/-- The stream after the two loops of `Write`: zeros up to `m_Offset + Size`, which is a `ULONG`, and
then the bytes of the buffer. -/
def pushed (w : StreamWriter) (buffer : List UInt8) : List UInt8 :=
  w.stream ++ List.replicate ((w.offset + buffer.length) % 2 ^ 32 - w.stream.length) 0 ++ buffer

theorem length_pushed (w : StreamWriter) (buffer : List UInt8) :
    (w.pushed buffer).length =
      max w.stream.length ((w.offset + buffer.length) % 2 ^ 32) + buffer.length := by
  simp only [pushed, List.length_append, List.length_replicate]
  omega

/-- `Write`. -/
def write (w : StreamWriter) (buffer : List UInt8) : StreamWriter where
  stream := (w.pushed buffer).take w.offset ++ buffer ++ (w.pushed buffer).drop (w.offset + buffer.length)
  offset := (w.offset + buffer.length) % 2 ^ 32
  offset_le := by
    have := w.offset_le
    have := w.length_pushed buffer
    have := Nat.mod_le (w.offset + buffer.length) (2 ^ 32)
    simp only [List.length_append, List.length_take, List.length_drop]
    omega

/-- The result of `Read`. -/
def readResult (w : StreamWriter) (size : Nat) : Nat :=
  if (w.offset + size) % 2 ^ 32 > w.stream.length then w.stream.length - w.offset else size

/-- `Read`: the result, and the bytes copied, which are always `Size`; behind the stream lies `past`. -/
def read (past : Nat → UInt8) (w : StreamWriter) (size : Nat) : Nat × List UInt8 × StreamWriter :=
  (w.readResult size, (w.stream.drop w.offset ++ (List.range size).map past).take size,
    { w with
      offset := (w.offset + w.readResult size) % 2 ^ 32
      offset_le := by
        have := w.offset_le
        have := Nat.mod_le w.stream.length (2 ^ 32)
        unfold readResult
        split
        · rwa [Nat.add_sub_cancel' w.offset_le]
        · omega })

/-- `Seek`. -/
def seek (w : StreamWriter) (absolutelyOffset : Nat) : Option StreamWriter :=
  if h : absolutelyOffset ≤ w.stream.length then some { w with offset := absolutelyOffset, offset_le := h }
  else none

def observe (w : StreamWriter) (result : Nat) (copied : List UInt8) : Observation :=
  ⟨result, copied, w.stream.length % 2 ^ 32, w.stream, w.offset⟩

def step (past : Nat → UInt8) (w : StreamWriter) : Call → Observation × StreamWriter
  | .write buffer => ((w.write buffer.1).observe buffer.1.length [], w.write buffer.1)
  | .read size =>
    let (result, copied, w) := w.read past size.toNat
    (w.observe result copied, w)
  | .seek offset =>
    match w.seek offset.toNat with
    | some w => (w.observe 1 [], w)
    | none => (w.observe 0 [], w)
  | .tell => (w.observe w.offset [], w)

/-- What the calls of a run show. -/
def run (past : Nat → UInt8) (w : StreamWriter) : List Call → List Observation
  | [] => []
  | c :: calls => (w.step past c).1 :: run past (w.step past c).2 calls

/-- The size grows to the end of what is written, and by the bytes of the buffer once more. -/
theorem length_write (w : StreamWriter) (buffer : List UInt8) (h : w.offset + buffer.length < 2 ^ 32) :
    (w.write buffer).stream.length = max w.stream.length (w.offset + buffer.length) + buffer.length := by
  have := w.offset_le
  have hp := w.length_pushed buffer
  rw [Nat.mod_eq_of_lt h] at hp
  simp only [write, List.length_append, List.length_take, List.length_drop]
  omega

/-- `Read` copies as many bytes as it was asked for, whatever it returns. -/
theorem length_read_copied (past : Nat → UInt8) (w : StreamWriter) (size : Nat) :
    (w.read past size).2.1.length = size := by
  simp [read]

/-! ## Runs from a fresh writer -/

/-- On empty files a call that transfers nothing shows the same and changes nothing. -/
theorem step_empty (past : Nat → UInt8) {c : Call} (hc : c.size = 0) :
    ∃ o, empty.step past c = (o, empty) ∧ PosFile.empty.step c = (o, PosFile.empty) := by
  cases c with
  | write buffer =>
    obtain ⟨b, hb⟩ := buffer
    obtain rfl : b = [] := List.length_eq_zero_iff.1 hc
    exact ⟨⟨0, [], 0, [], 0⟩, rfl, rfl⟩
  | read size =>
    obtain rfl : size = 0 := UInt32.toNat_inj.1 hc
    exact ⟨⟨0, [], 0, [], 0⟩, rfl, rfl⟩
  | seek offset =>
    by_cases h : offset.toNat = 0
    · obtain rfl : offset = 0 := UInt32.toNat_inj.1 h
      exact ⟨⟨1, [], 0, [], 0⟩, rfl, rfl⟩
    · refine ⟨⟨0, [], 0, [], 0⟩, ?_, ?_⟩
      · have : empty.seek offset.toNat = none := dif_neg (by simp [empty]; omega)
        simp only [step, this]
        rfl
      · have : PosFile.empty.seek offset.toNat = none := dif_neg (by simp [PosFile.empty]; omega)
        simp only [PosFile.step, this]
        rfl
  | tell => exact ⟨⟨0, [], 0, [], 0⟩, rfl, rfl⟩

/-- A call that transfers something shows a difference on empty files: `GetSize` counts the bytes of a
`Write` twice, and `Read` copies bytes that are not there. -/
theorem step_empty_ne (past : Nat → UInt8) {c : Call} (hc : c.size ≠ 0) :
    (empty.step past c).1 ≠ (PosFile.empty.step c).1 := by
  intro h
  cases c with
  | write buffer =>
    have hlt := buffer.2
    simp only [Call.size] at hc
    -- the sizes differ: twice the bytes here, once there
    have hw := empty.length_write buffer.1 (by simpa [empty] using hlt)
    have hf := PosFile.empty.length_write buffer.1
    have := congrArg Observation.getSize h
    simp only [step, PosFile.step, observe, PosFile.observe, hw, hf] at this
    simp only [empty, PosFile.empty, List.length_nil, Nat.zero_add, Nat.zero_max] at this
    omega
  | read size =>
    -- the bytes copied differ: `Size` here, none there
    simp only [Call.size] at hc
    have := congrArg (fun o => o.copied.length) h
    simp only [step, PosFile.step, observe, PosFile.observe, length_read_copied] at this
    simp [PosFile.read, PosFile.empty] at this
    omega
  | seek => exact hc rfl
  | tell => exact hc rfl

/-- A run from a fresh writer shows what the reference file shows just when no call transfers a byte. -/
theorem run_eq_iff (past : Nat → UInt8) : ∀ calls : List Call,
    run past empty calls = PosFile.empty.run calls ↔ ∀ c ∈ calls, c.size = 0
  | [] => by simp [run, PosFile.run]
  | c :: calls => by
    rw [List.forall_mem_cons, run, PosFile.run, List.cons.injEq]
    constructor
    · rintro ⟨h, hrest⟩
      -- the first call that transfers something would show a difference
      have hc : c.size = 0 := by
        by_contra hc
        exact step_empty_ne past hc h
      obtain ⟨o, hw, hf⟩ := step_empty past hc
      rw [hw, hf] at hrest
      exact ⟨hc, (run_eq_iff past calls).1 hrest⟩
    · rintro ⟨hc, hrest⟩
      obtain ⟨o, hw, hf⟩ := step_empty past hc
      rw [hw, hf]
      exact ⟨rfl, (run_eq_iff past calls).2 hrest⟩

/-- One byte written: the writer has size 2. -/
theorem run_write_one :
    run (fun _ => 0) empty [.write ⟨[7], by decide⟩] ≠ PosFile.empty.run [.write ⟨[7], by decide⟩] := by
  decide

end StreamWriter

end SiglusExtract
