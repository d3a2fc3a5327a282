/-
What the tools share: how a run stops short, the settings of an extraction, and the calls of the
native file library that they make.
-/
import SiglusExtract.Crypt
import SiglusExtract.Lib.Mem

namespace SiglusExtract

/-! ## Outcomes -/

/-- The status codes with which the tools stop. -/
inductive NtStatus
  | noSuchFile
  | noMemory
  | unsuccessful
  deriving DecidableEq, Repr

/-- How a tool stops short: it returns a status, or it touches memory that is not its own. -/
inductive Failure
  | status (s : NtStatus)
  | fault
  deriving DecidableEq, Repr

/-- A step on memory, which may fault. -/
def orFault {α : Type} : Option α → Except Failure α
  | some a => .ok a
  | none => .error .fault

@[simp] theorem ok_bind {ε α β : Type} (a : α) (f : α → Except ε β) :
    (Except.ok a >>= f) = f a := rfl

@[simp] theorem orFault_some {α : Type} (a : α) : orFault (some a) = .ok a := rfl

theorem orFault_eq_ok {α : Type} {x : Option α} {a : α} : orFault x = .ok a ↔ x = some a := by
  cases x with
  | none => exact iff_of_false nofun nofun
  | some b => rw [orFault_some, Except.ok.injEq, Option.some.injEq]

/-- `HeapAlloc`: a 32-bit process has no block of 2 GiB, smaller requests are served. -/
def heapAlloc (size : Nat) : Except Failure Unit :=
  if size < 2 ^ 31 then .ok () else .error (.status .noMemory)

theorem lt_of_heapAlloc {size : Nat} (h : heapAlloc size = .ok ()) : size < 2 ^ 31 := by
  unfold heapAlloc at h
  split at h
  · assumption
  · cases h

theorem heapAlloc_ok {size : Nat} (h : size < 2 ^ 31) : heapAlloc size = .ok () := if_pos h

/-! ## Settings -/

/-- `SSDecode`: whether the strings of a script are encrypted. -/
inductive SSDecode
  | ssV1
  | ssV2
  deriving DecidableEq, Repr

/-- The fields of `DecodeControl` that the unpackers of packed files read. -/
structure DecodeControl where
  privateKey : PrivateKey
  pckNeedKey : Bool
  datNeedKey : Bool
  ssDecode : SSDecode

/-! ## Files -/

/-- Behind what a read of `n` bytes at `p` transfers, whether or not there are as many. -/
theorem drop_transferred (data : List UInt8) (p n : Nat) :
    data.drop (p + ((data.drop p).take n).length) = (data.drop p).drop n := by
  rw [← List.drop_drop, List.length_take]
  rcases Nat.le_total n (data.drop p).length with hle | hle
  · rw [Nat.min_eq_left hle]
  · rw [Nat.min_eq_right hle, List.drop_eq_nil_of_le hle, List.drop_eq_nil_of_le (Nat.le_refl _)]

/-- An `NtFileDisk` open for reading: the file, and the size and the position the object keeps. -/
structure NtFileDisk where
  data : List UInt8
  fileSize : Nat
  position : Nat
  deriving DecidableEq, Repr

namespace NtFileDisk

/-- `Open`. -/
def openFile (data : List UInt8) : NtFileDisk := ⟨data, data.length, 0⟩

/-- `Read`: the bytes transferred, none at the end of the file. A size of 0 asks for the whole file. -/
def read (f : NtFileDisk) (size : Nat) : List UInt8 × NtFileDisk :=
  let size := if size = 0 then f.fileSize % 2 ^ 32 else size
  let bytes := (f.data.drop f.position).take size
  (bytes, { f with position := f.position + bytes.length })

/-- `Seek` to an offset: one before the file is refused, one behind its end counts as its new size. -/
def seek (f : NtFileDisk) (offset : Int) : NtFileDisk :=
  if offset < 0 then f
  else { f with position := offset.toNat, fileSize := max f.fileSize offset.toNat }

@[simp] theorem seek_data (f : NtFileDisk) (offset : Int) : (f.seek offset).data = f.data := by
  unfold seek
  split <;> rfl

/-- What is left of the file. -/
def rest (f : NtFileDisk) : List UInt8 := f.data.drop f.position

/-- The bytes that a read asks for. -/
def asked (fileSize size : Nat) : Nat := if size = 0 then fileSize % 2 ^ 32 else size

theorem read_asked (f : NtFileDisk) (size : Nat) : f.read size = (f.rest.take (asked f.fileSize size),
    { f with position := f.position + (f.rest.take (asked f.fileSize size)).length }) := rfl

/-- Behind a read, whether or not it got what it asked for. -/
theorem read_asked_rest (f : NtFileDisk) (size : Nat) :
    (f.read size).2.rest = f.rest.drop (asked f.fileSize size) := drop_transferred f.data f.position _

theorem read_eq (f : NtFileDisk) {size : Nat} (h : size ≠ 0) :
    f.read size = (f.rest.take size, { f with position := f.position + (f.rest.take size).length }) := by
  rw [read, if_neg h]
  rfl

/-- A read of 0 bytes gets what is left of the file. -/
theorem read_zero {f : NtFileDisk} (h : f.rest.length ≤ f.fileSize % 2 ^ 32) :
    (f.read 0).1 = f.rest ∧ (f.read 0).2.rest = [] := by
  have hread : f.read 0 = (f.rest, { f with position := f.position + f.rest.length }) := by
    have htake : f.rest.take (f.fileSize % 2 ^ 32) = f.rest := List.take_of_length_le h
    unfold read
    rw [if_pos rfl]
    exact congrArg (fun bytes => (bytes, { f with position := f.position + bytes.length })) htake
  rw [hread]
  refine ⟨rfl, List.drop_eq_nil_of_le ?_⟩
  rw [rest, List.length_drop]
  show f.data.length ≤ f.position + _
  omega

/-- A read that gets what it asks for. -/
theorem read_append {f : NtFileDisk} {bytes post : List UInt8} (hf : f.rest = bytes ++ post) (h : bytes.length ≠ 0) :
    (f.read bytes.length).1 = bytes ∧ (f.read bytes.length).2.rest = post := by
  have htake : f.rest.take bytes.length = bytes := by rw [hf, List.take_left']; rfl
  rw [read_eq f h, htake]
  refine ⟨rfl, ?_⟩
  rw [rest, ← List.drop_drop]
  show f.rest.drop bytes.length = post
  rw [hf, List.drop_left']
  rfl

/-- A read that asks for more than the bytes that matter. -/
theorem read_prefix {f : NtFileDisk} {bytes post : List UInt8} (hf : f.rest = bytes ++ post) {size : Nat}
    (h : size ≠ 0) (hle : bytes.length ≤ size) : ∃ more, (f.read size).1 = bytes ++ more := by
  refine ⟨post.take (size - bytes.length), ?_⟩
  rw [read_eq f h, hf, List.take_append, List.take_of_length_le hle]

/-- A read in a file behind whose content more bytes follow: the same bytes, where they are all asked for or
nothing follows. -/
theorem read_behind {f g : NtFileDisk} {tail : List UInt8} (hfg : g.rest = f.rest ++ tail) {size : Nat} (h : size ≠ 0)
    (hs : tail = [] ∨ size ≤ f.rest.length) :
    (g.read size).1 = (f.read size).1 ∧ (g.read size).2.rest = (f.read size).2.rest ++ tail := by
  have htake : g.rest.take size = f.rest.take size := by
    rcases hs with rfl | hs
    · rw [hfg, List.append_nil]
    · rw [hfg, List.take_append_of_le_length hs]
  rw [read_eq g h, read_eq f h, htake]
  refine ⟨rfl, ?_⟩
  show g.data.drop (g.position + _) = f.data.drop (f.position + _) ++ tail
  rw [← List.drop_drop, ← List.drop_drop]
  show g.rest.drop _ = f.rest.drop _ ++ tail
  rw [hfg, List.drop_append_of_le_length (List.length_take_le' _ _)]

/-- Behind `n` bytes, or at the end of the file. -/
def pass (f : NtFileDisk) (n : Nat) : NtFileDisk := { f with position := f.position + min n f.rest.length }

theorem read_pass (f : NtFileDisk) (size : Nat) : (f.read size).2 = f.pass (asked f.fileSize size) := by
  rw [read_asked, pass, List.length_take]

@[simp] theorem pass_zero (f : NtFileDisk) : f.pass 0 = f := by
  rw [pass, Nat.zero_min, Nat.add_zero]

theorem pass_rest_length (f : NtFileDisk) (n : Nat) : (f.pass n).rest.length = f.rest.length - n := by
  rw [rest, rest, List.length_drop, List.length_drop]
  show f.data.length - (f.position + min n f.rest.length) = _
  rw [rest, List.length_drop]
  omega

theorem pass_pass (f : NtFileDisk) (m n : Nat) : (f.pass m).pass n = f.pass (m + n) := by
  have hlen := f.pass_rest_length m
  rw [pass, hlen, pass, pass, NtFileDisk.mk.injEq]
  refine ⟨rfl, rfl, ?_⟩
  simp only
  omega

theorem pass_end {f : NtFileDisk} (h : f.rest = []) (n : Nat) : f.pass n = f := by
  rw [pass, h, List.length_nil, Nat.min_zero, Nat.add_zero]

/-- The same bytes, in a file whose size has not become smaller. -/
def Kept (f f' : NtFileDisk) : Prop := f'.data = f.data ∧ f.fileSize ≤ f'.fileSize

theorem seek_kept (f : NtFileDisk) (offset : Int) : f.Kept (f.seek offset) := by
  unfold seek
  split
  · exact ⟨rfl, Nat.le_refl _⟩
  · exact ⟨rfl, Nat.le_max_left _ _⟩

/-- `g` holds `f` from `off` on, with `tail` behind it, and both stand at the same byte of it. -/
structure Within (f g : NtFileDisk) (off : Nat) (tail : List UInt8) : Prop where
  data : g.data.drop off = f.data ++ tail
  position : g.position = off + f.position
  inside : f.position ≤ f.data.length
  fileSize : f.fileSize = f.data.length ∧ f.data.length < 2 ^ 32
  room : off + f.data.length ≤ g.fileSize

theorem Within.rest {f g : NtFileDisk} {off : Nat} {tail : List UInt8} (h : Within f g off tail) :
    g.rest = f.rest ++ tail := by
  rw [NtFileDisk.rest, h.position, ← List.drop_drop, h.data, List.drop_append_of_le_length h.inside]
  rfl

/-- A read that both serve alike: of bytes that `f` has, or of any number where nothing follows `f`. -/
theorem Within.read {f g : NtFileDisk} {off : Nat} {tail : List UInt8} (h : Within f g off tail) {size : Nat}
    (hs : tail = [] ∧ (size = 0 → g.fileSize < 2 ^ 32) ∨ size ≠ 0 ∧ size ≤ f.rest.length) :
    (g.read size).1 = (f.read size).1 ∧ Within (f.read size).2 (g.read size).2 off tail := by
  have hlen : f.rest.length = f.data.length - f.position := List.length_drop
  have hroom := h.room
  have hsize := h.fileSize
  have hbytes : g.rest.take (asked g.fileSize size) = f.rest.take (asked f.fileSize size) := by
    rw [h.rest]
    rcases hs with ⟨rfl, hzero⟩ | ⟨hne, hle⟩
    · rw [List.append_nil]
      unfold asked
      split
      · next h0 =>
        have hlt := hzero h0
        rw [List.take_of_length_le (by omega), List.take_of_length_le (by omega)]
      · rfl
    · rw [asked, if_neg hne, asked, if_neg hne, List.take_append_of_le_length hle]
  rw [read_asked, read_asked, hbytes]
  refine ⟨rfl, h.data, ?_, ?_, hsize, hroom⟩
  · show g.position + _ = off + (f.position + _)
    rw [h.position, Nat.add_assoc]
  · show f.position + _ ≤ f.data.length
    have hinside := h.inside
    have := List.length_take_le' (asked f.fileSize size) f.rest
    omega

/-- A move to another byte of `f`. -/
theorem Within.seek {f g : NtFileDisk} {off : Nat} {tail : List UInt8} (h : Within f g off tail) {n : Int}
    (h0 : 0 ≤ f.position + n) (hle : f.position + n ≤ f.data.length) :
    Within (f.seek (f.position + n)) (g.seek (g.position + n)) off tail ∧
      (g.seek (g.position + n)).fileSize = g.fileSize := by
  have hpos := h.position
  have hsize := h.fileSize
  have hroom := h.room
  unfold NtFileDisk.seek
  rw [if_neg (by omega), if_neg (by omega)]
  refine ⟨⟨h.data, ?_, ?_, ⟨?_, hsize.2⟩, ?_⟩, ?_⟩ <;> simp only <;> omega

theorem read_length_le (f : NtFileDisk) (size : Nat) (h : size ≠ 0) : (f.read size).1.length ≤ size := by
  simp only [read, if_neg h, List.length_take]
  exact Nat.min_le_left _ _

/-- Behind a read, whether or not it got what it asked for. -/
theorem read_rest (f : NtFileDisk) {size : Nat} (h : size ≠ 0) : (f.read size).2.rest = f.rest.drop size := by
  rw [read_eq f h]
  exact drop_transferred f.data f.position size

theorem read_rest_length (f : NtFileDisk) {size : Nat} (h : size ≠ 0) :
    (f.read size).2.rest.length = f.rest.length - size := by
  rw [read_rest f h, List.length_drop]

/-- A seek forward passes over bytes, and does not change the size of a file that has them. -/
theorem seek_forward (f : NtFileDisk) (n : Nat) : (f.seek (f.position + n : Nat)).rest = f.rest.drop n := by
  unfold seek
  rw [if_neg (by omega)]
  show f.data.drop (Int.toNat (f.position + n : Nat)) = f.rest.drop n
  rw [Int.toNat_natCast, ← List.drop_drop]
  rfl

theorem seek_inside {f : NtFileDisk} {p : Nat} (h : p ≤ f.fileSize) : f.seek (p : Nat) = { f with position := p } := by
  unfold seek
  rw [if_neg (by omega), Int.toNat_natCast, Nat.max_eq_left h]

/-- Back to where a read has ended, or would have ended in a longer file: there is as much left. -/
theorem seek_read_rest (f : NtFileDisk) {size : Nat} (h : size ≠ 0) {target : Int}
    (ht : target < 0 ∨ target = f.position + size) : ((f.read size).2.seek target).rest = (f.read size).2.rest := by
  unfold seek
  split
  · rfl
  · next h0 =>
    rw [read_rest f h]
    show f.data.drop target.toNat = f.rest.drop size
    rw [show target.toNat = f.position + size by omega, ← List.drop_drop]
    rfl

end NtFileDisk

/-- An `NtFileMemory`: a copy of the bytes it was opened with, and the position in them. -/
structure NtFileMemory where
  data : List UInt8
  position : Nat
  deriving DecidableEq, Repr

namespace NtFileMemory

/-- `Open` with a buffer. -/
def openBuffer (data : List UInt8) : NtFileMemory := ⟨data, 0⟩

/-- `Read`: as many bytes as there are, at most `size`. -/
def read (f : NtFileMemory) (size : Nat) : List UInt8 × NtFileMemory :=
  let bytes := (f.data.drop f.position).take size
  (bytes, { f with position := f.position + bytes.length })

/-- What is left of the bytes. -/
def rest (f : NtFileMemory) : List UInt8 := f.data.drop f.position

/-- Behind a read, whether or not it got what it asked for. -/
theorem read_rest (f : NtFileMemory) (size : Nat) : (f.read size).2.rest = f.rest.drop size :=
  drop_transferred f.data f.position size

/-- A read that gets what it asks for. -/
theorem read_append {f : NtFileMemory} {bytes post : List UInt8} (hf : f.rest = bytes ++ post) :
    f.read bytes.length = (bytes, { f with position := f.position + bytes.length }) ∧
      (f.read bytes.length).2.rest = post := by
  have htake : f.rest.take bytes.length = bytes := by rw [hf, List.take_left]
  constructor
  · exact congrArg (fun bytes => (bytes, { f with position := f.position + bytes.length })) htake
  · rw [read_rest, hf, List.drop_left]

end NtFileMemory

/-- A buffer after `bytes` have been read into it. -/
def readInto (buffer bytes : List UInt8) : List UInt8 := bytes ++ buffer.drop bytes.length

end SiglusExtract
