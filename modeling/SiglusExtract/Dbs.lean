/-
`UnpackDbs::Unpack` (UnpackDbs.h): a database file is decrypted, decompressed or copied, and decrypted
once more. Which of the two it is, is decided by comparing the sizes in the header, and the one is
overwritten by the other where it is zero.
-/
import SiglusExtract.Lib.CInt
import SiglusExtract.Lib.Patch
import SiglusExtract.Lzss.Extent
import SiglusExtract.Lzss.Fixed
import SiglusExtract.Lzss.RoundTrip
import SiglusExtract.Tool

namespace SiglusExtract.UnpackDbs

open Lz Bytes CInt Lzss Compression Xor

/-! ## The two keys -/

/-- The key stream of a loop over dwords, byte by byte. -/
def dwordStream (key : Nat → Nat) (i : Nat) : UInt8 := (le32 (key (i / 4))).getD (i % 4) 0

/-- The key of the file. -/
def fileKey : Nat → UInt8 := dwordStream fun _ => 0x89f4622d

/-- `StatusKey2`. -/
def statusKey2 : List Nat := [
  0x7190c70e, 0x499bf135, 0x499bf135, 0x7190c70e, 0x7190c70e,
  0x499bf135, 0x499bf135, 0x7190c70e, 0x7190c70e, 0x499bf135,
  0x7190c70e, 0x7190c70e, 0x7190c70e, 0x499bf135, 0x7190c70e,
  0x499bf135, 0x499bf135, 0x7190c70e, 0x499bf135, 0x499bf135,
  0x499bf135, 0x499bf135, 0x499bf135, 0x7190c70e, 0x7190c70e]

/-- `Line` and `Row` at the end of a turn. -/
def nextCounters (line row : Nat) : Nat × Nat :=
  let row := row + 1
  let (line, row) := if row ≥ 16 then (line + 1, 0) else (line, row)
  (if line ≥ 5 then 0 else line, row)

/-- The loop over the body, `n` turns from dword `i` on; `none` where it leaves the table or the buffer. -/
def statusLoop : Nat → Nat → Nat → Nat → List UInt8 → Option (List UInt8)
  | 0, _, _, _, buffer => some buffer
  | n + 1, i, line, row, buffer => do
    let key ← statusKey2[line * 5 + row % 5]?
    let word ← dword (Mem.ofList buffer) (4 * i)
    let buffer ← Patch.patch buffer (4 * i) (le32 (word ^^^ key))
    let (line, row) := nextCounters line row
    statusLoop n (i + 1) line row buffer

/-! ## Unpack -/

/-- The statuses with which `Unpack` ends before it writes. -/
inductive Status
  | success
  | bufferTooSmall
  | bufferOverflow
  | noMemory
  deriving DecidableEq, Repr

/-- How `Unpack` stops short: it returns a status, or it touches memory that is not its own. -/
inductive Stop
  | status (s : Status)
  | fault
  deriving DecidableEq, Repr

/-- A step on memory, which may fault. -/
def inBuffer {α : Type} : Option α → Except Stop α
  | some a => .ok a
  | none => .error .fault

/-- `AllocateMemorySafe`, with what `Unpack` returns where there is no such block. -/
def allocate (size : Nat) (s : Status) : Except Stop Unit := if size < 2 ^ 31 then .ok () else .error (.status s)

/-- `GetSize32`. -/
def size32 (file : List UInt8) : Nat := file.length % 2 ^ 32

/-- `Buffer` after the file has been read into it and its dwords, from the second on, have been decrypted. -/
def decrypted (file : List UInt8) : Option (List UInt8) :=
  let size := size32 file
  let buffer := file.take size
  let alignedSize := (size - 4) / 4
  (xorLoop fileKey (4 * alignedSize) (buffer.drop 4)).map (buffer.take 4 ++ ·)

/-- A body as it is stored: what `DecompressData` is called with, or the bytes that are copied. -/
inductive Body
  | compressed (input : Mem UInt8) (uncompressedSize : Nat)
  | raw (bytes : List UInt8)

/-- `Unpack` up to the body: the header, the checks of its sizes, and the copy. -/
def body (file : List UInt8) : Except Stop Body := do
  let size := size32 file
  if size ≤ 12 then throw (.status .bufferTooSmall)
  allocate size .success
  let buffer := Mem.ofList (← inBuffer (decrypted file))
  let compressedSize := u32 ((← inBuffer (dword buffer 4)) - 8)
  let uncompressedSize ← inBuffer (dword buffer 8)
  let uncompressedSize := if uncompressedSize = 0 then compressedSize else uncompressedSize
  if compressedSize > size then throw (.status .bufferOverflow)
  allocate uncompressedSize .noMemory
  if uncompressedSize ≠ compressedSize then return .compressed (fun i => buffer (12 + i)) uncompressedSize
  return .raw (← inBuffer ((List.range uncompressedSize).mapM fun i => buffer (12 + i)))

/-- `Unpack`: what it writes to the file it creates. -/
def unpack (file : List UInt8) : Except Stop (List UInt8) := do
  let uncompressed ← match ← body file with
    | .compressed input uncompressedSize =>
      (inBuffer (decompressData input (.cells uncompressedSize fun _ => 0) uncompressedSize)).map Prod.snd
    | .raw bytes => .ok bytes
  inBuffer (statusLoop (uncompressed.length / 4) 0 0 0 uncompressed)

/-! ## What is read of the buffer -/

/-- The sizes in the header: the first one without the eight bytes that it counts of the header. -/
def compressedSize (file : List UInt8) : Nat :=
  u32 ((dword (Mem.ofList ((decrypted file).getD [])) 4).getD 0 - 8)

def storedSize (file : List UInt8) : Nat := (dword (Mem.ofList ((decrypted file).getD [])) 8).getD 0

theorem decrypted_length (file : List UInt8) (h : 4 ≤ size32 file) :
    ∃ buffer, decrypted file = some buffer ∧ buffer.length = size32 file := by
  have hle : size32 file ≤ file.length := Nat.mod_le _ _
  have hdrop : ((file.take (size32 file)).drop 4).length = size32 file - 4 := by
    rw [List.length_drop, List.length_take, Nat.min_eq_left hle]
  simp only [decrypted, xorLoop]
  rw [if_pos (by rw [hdrop]; omega), Option.map_some]
  refine ⟨_, rfl, ?_⟩
  simp only [List.length_append, xorKs_length, List.length_take, List.length_drop]
  omega

/-- The copy of `n` bytes from behind the header. -/
theorem mapM_copy {l : List UInt8} (hl : 12 ≤ l.length) (n : Nat) :
    (List.range n).mapM (fun i => Mem.ofList l (12 + i)) =
      if 12 + n ≤ l.length then some ((l.drop 12).take n) else none := by
  by_cases h : 12 + n ≤ l.length
  · rw [if_pos h]
    have hlen : ((l.drop 12).take n).length = n := by
      rw [List.length_take, List.length_drop]
      omega
    have hold : (Mem.ofList l).Holds 12 ((l.drop 12).take n) := by
      intro i hi
      rw [List.getElem_take, List.getElem_drop]
      exact List.getElem?_eq_getElem _
    have := hold.mapM_range
    rwa [hlen] at this
  · rw [if_neg h]
    obtain ⟨m, rfl⟩ : ∃ m, n = m + 1 := ⟨n - 1, by omega⟩
    have hnone : Mem.ofList l (12 + m) = none := List.getElem?_eq_none (by omega)
    rw [List.range_succ, List.mapM_append]
    cases (List.range m).mapM fun i => Mem.ofList l (12 + i) with
    | none => rfl
    | some a => simp [hnone]

/-- `Unpack` up to the body, for a file of which it looks at the header. -/
theorem body_eq {file : List UInt8} (h12 : 12 < size32 file) (h31 : size32 file < 2 ^ 31) :
    ∃ buffer, decrypted file = some buffer ∧ buffer.length = size32 file ∧
      body file =
        if size32 file < compressedSize file then .error (.status .bufferOverflow)
        else if storedSize file = 0 ∨ storedSize file = compressedSize file then
          if 12 + compressedSize file ≤ size32 file then .ok (.raw ((buffer.drop 12).take (compressedSize file)))
          else .error .fault
        else if storedSize file < 2 ^ 31 then .ok (.compressed (fun i => Mem.ofList buffer (12 + i)) (storedSize file))
        else .error (.status .noMemory) := by
  obtain ⟨buffer, hbuf, hlen⟩ := decrypted_length file (by omega)
  obtain ⟨c, hc⟩ := dword_isSome (l := buffer) (p := 4) (by omega)
  obtain ⟨u, hu⟩ := dword_isSome (l := buffer) (p := 8) (by omega)
  have hC : compressedSize file = u32 (c - 8) := by
    rw [compressedSize, hbuf, Option.getD_some, hc, Option.getD_some]
  have hU : storedSize file = u := by rw [storedSize, hbuf, Option.getD_some, hu, Option.getD_some]
  refine ⟨buffer, hbuf, hlen, ?_⟩
  simp only [body, if_neg (Nat.not_le.2 h12), allocate, if_pos h31, hbuf, inBuffer, hc, hu, ← hC, ← hU, ok_bind]
  by_cases hover : size32 file < compressedSize file
  · rw [if_pos hover, if_pos hover]
    rfl
  rw [if_neg hover, if_neg hover]
  by_cases hraw : storedSize file = 0 ∨ storedSize file = compressedSize file
  · -- the two sizes are the same, the one read or the one put in its place
    have hsame : (if storedSize file = 0 then compressedSize file else storedSize file) = compressedSize file := by
      split
      · rfl
      · exact hraw.resolve_left ‹_›
    rw [if_pos hraw, hsame, if_pos (by omega), if_neg (fun h => h rfl), mapM_copy (by omega), hlen]
    by_cases hfit : 12 + compressedSize file ≤ size32 file
    · rw [if_pos hfit, if_pos hfit]
      rfl
    · rw [if_neg hfit, if_neg hfit]
      rfl
  · rw [if_neg hraw]
    rw [not_or] at hraw
    rw [if_neg hraw.1, if_pos hraw.2]
    split <;> rfl

/-- `Unpack` reads inside the buffer, up to the body, unless it copies one of which the header says that it
ends up to twelve bytes behind the file. -/
theorem body_inside_iff (file : List UInt8) :
    body file ≠ .error .fault ↔
      (12 < size32 file → size32 file < 2 ^ 31 → storedSize file = 0 ∨ storedSize file = compressedSize file →
        compressedSize file ≤ size32 file → compressedSize file + 12 ≤ size32 file) := by
  by_cases h12 : 12 < size32 file
  · by_cases h31 : size32 file < 2 ^ 31
    · obtain ⟨buffer, -, -, hbody⟩ := body_eq h12 h31
      rw [hbody]
      by_cases hover : size32 file < compressedSize file
      · rw [if_pos hover]
        exact iff_of_true (fun h => by cases h) fun _ _ _ hle => absurd hover (Nat.not_lt.2 hle)
      rw [if_neg hover]
      by_cases hraw : storedSize file = 0 ∨ storedSize file = compressedSize file
      · rw [if_pos hraw]
        by_cases hfit : 12 + compressedSize file ≤ size32 file
        · rw [if_pos hfit]
          exact iff_of_true (fun h => by cases h) fun _ _ _ _ => by omega
        · rw [if_neg hfit]
          exact iff_of_false (fun h => h rfl) fun h => hfit (by have := h h12 h31 hraw (by omega); omega)
      · rw [if_neg hraw]
        refine iff_of_true ?_ fun _ _ h => absurd h hraw
        split <;> exact fun h => by cases h
    · refine iff_of_true ?_ fun _ h => absurd h h31
      simp only [body, if_neg (Nat.not_le.2 h12), allocate, if_neg h31]
      exact fun h => by cases h
  · refine iff_of_true ?_ fun h => absurd h h12
    simp only [body, if_pos (Nat.not_lt.1 h12)]
    exact fun h => by cases h

/-- The header of a file of 16 bytes announces five bytes behind it. -/
theorem body_copies_past :
    body [0, 0, 0, 0, 0x20, 0x62, 0xf4, 0x89, 0x2d, 0x62, 0xf4, 0x89, 1, 2, 3, 4] = .error .fault := by
  rfl

/-! ## The loop over the body -/

/-- The word of the table for dword `i`. -/
def statusKey (i : Nat) : Nat := statusKey2.getD (5 * (i / 16 % 5) + i % 16 % 5) 0

theorem statusKey_index (i : Nat) : statusKey2[5 * (i / 16 % 5) + i % 16 % 5]? = some (statusKey i) := by
  have hlt : 5 * (i / 16 % 5) + i % 16 % 5 < statusKey2.length := by
    show _ < 25
    omega
  rw [statusKey, List.getD_eq_getElem?_getD, List.getElem?_eq_getElem hlt, Option.getD_some]

theorem statusKey_lt (i : Nat) : statusKey i < 2 ^ 32 := by
  have hall : ∀ key ∈ statusKey2, key < 2 ^ 32 := by decide
  exact hall _ (List.mem_of_getElem? (statusKey_index i))

/-- The counters in front of dword `i`: a line has sixteen dwords, and there are five lines. -/
theorem nextCounters_eq (i : Nat) : nextCounters (i / 16 % 5) (i % 16) = ((i + 1) / 16 % 5, (i + 1) % 16) := by
  unfold nextCounters
  dsimp only
  by_cases hrow : i % 16 + 1 ≥ 16
  · rw [if_pos hrow, Prod.mk.injEq]
    constructor
    · split <;> omega
    · omega
  · rw [if_neg hrow, Prod.mk.injEq]
    constructor
    · rw [if_neg (by omega)]
      omega
    · omega

theorem xor_le32 (w key : Nat) : xorKs (dwordStream fun _ => key) (le32 w) = le32 (w ^^^ key) := by
  have hdiv : ∀ n, (w ^^^ key) / 2 ^ n = w / 2 ^ n ^^^ key / 2 ^ n := fun n => Nat.xor_div_two_pow
  have h8 := hdiv 8
  have h16 := hdiv 16
  have h24 := hdiv 24
  norm_num at h8 h16 h24
  simp [xorKs, dwordStream, le32, h8, h16, h24]

theorem dwordStream_add (key : Nat → Nat) (i j : Nat) :
    dwordStream key (4 * i + j) = dwordStream (fun m => key (i + m)) j := by
  unfold dwordStream
  rw [Nat.mul_add_div (by decide), Nat.mul_add_mod]

theorem xorKs_le32_append (key : Nat → Nat) (w : Nat) (rest : List UInt8) :
    xorKs (dwordStream key) (le32 w ++ rest) =
      le32 (w ^^^ key 0) ++ xorKs (dwordStream fun m => key (m + 1)) rest := by
  have hfirst : xorKs (dwordStream key) (le32 w) = xorKs (dwordStream fun _ => key 0) (le32 w) := by
    refine xorKs_congr fun j hj => ?_
    rw [le32_length] at hj
    rw [dwordStream, dwordStream, Nat.div_eq_of_lt hj]
  have hrest : (fun j => dwordStream key ((le32 w).length + j)) = dwordStream fun m => key (m + 1) := by
    funext j
    rw [le32_length, show 4 + j = 4 * 1 + j by omega, dwordStream_add]
    simp only [Nat.add_comm 1]
  rw [xorKs_append, hfirst, xor_le32, hrest]

/-- A string of four bytes or more starts with a dword. -/
theorem exists_le32 {rest : List UInt8} (h : 4 ≤ rest.length) :
    ∃ w < 2 ^ 32, ∃ rest', rest = le32 w ++ rest' ∧ rest'.length = rest.length - 4 := by
  obtain ⟨w, hw⟩ := @dword_isSome rest 0 (by omega)
  have htake := ((holds_of_dword hw).take_drop (by rw [le32_length]; decide)).2
  rw [List.drop_zero, le32_length] at htake
  refine ⟨w, dword_lt hw, rest.drop 4, ?_, by rw [List.length_drop]⟩
  rw [← htake, List.take_append_drop]

/-- The loop from dword `i` on, behind what it has decrypted: no index leaves the table or the buffer, and each dword
is decrypted with the word of its place. -/
theorem statusLoop_append (n i : Nat) (pre rest : List UInt8) (hpre : pre.length = 4 * i)
    (hrest : 4 * n ≤ rest.length) :
    statusLoop n i (i / 16 % 5) (i % 16) (pre ++ rest) =
      some (pre ++ xorKs (dwordStream fun m => statusKey (i + m)) (rest.take (4 * n)) ++ rest.drop (4 * n)) := by
  induction n generalizing i pre rest with
  | zero => rw [statusLoop, Nat.mul_zero, List.take_zero, List.drop_zero, List.append_assoc]; rfl
  | succ n ih =>
    obtain ⟨w, hw, rest, rfl, hlen⟩ := exists_le32 (show 4 ≤ rest.length by omega)
    have hread : dword (Mem.ofList (pre ++ (le32 w ++ rest))) (4 * i) = some w := by
      rw [← List.append_assoc, ← hpre]
      exact dword_of_holds (Mem.holds_ofList pre (le32 w) rest) hw
    have hwrite : Patch.patch (pre ++ (le32 w ++ rest)) (4 * i) (le32 (w ^^^ statusKey i)) =
        some (pre ++ le32 (w ^^^ statusKey i) ++ rest) := by
      rw [Patch.patch_append hpre.symm (by rw [List.length_append, le32_length, le32_length]; omega), le32_length,
        List.drop_left' (le32_length w)]
    have hindex : i / 16 % 5 * 5 + i % 16 % 5 = 5 * (i / 16 % 5) + i % 16 % 5 := by rw [Nat.mul_comm]
    have hstep : statusLoop (n + 1) i (i / 16 % 5) (i % 16) (pre ++ (le32 w ++ rest)) =
        statusLoop n (i + 1) ((i + 1) / 16 % 5) ((i + 1) % 16) (pre ++ le32 (w ^^^ statusKey i) ++ rest) := by
      simp only [statusLoop, hindex, statusKey_index, hread, hwrite, Option.bind_eq_bind, Option.bind_some,
        nextCounters_eq]
    have hshift : (fun m => statusKey (i + 1 + m)) = fun m => statusKey (i + (m + 1)) := by
      funext m
      rw [Nat.add_assoc, Nat.add_comm 1]
    rw [hstep, ih (i + 1) _ rest (by rw [List.length_append, le32_length]; omega)
        (by rw [List.length_append, le32_length] at hrest; omega),
      show 4 * (n + 1) = (le32 w).length + 4 * n by rw [le32_length]; omega, List.take_length_add_append,
      List.drop_length_add_append, xorKs_le32_append, hshift, Nat.add_zero]
    simp only [List.append_assoc]

/-- What the loop makes of a body: the bytes behind the last whole dword stay as they are. -/
def statusLayer (body : List UInt8) : List UInt8 :=
  xorKs (dwordStream statusKey) (body.take (4 * (body.length / 4))) ++ body.drop (4 * (body.length / 4))


theorem statusLoop_eq (body : List UInt8) : statusLoop (body.length / 4) 0 0 0 body = some (statusLayer body) := by
  have hloop := statusLoop_append (body.length / 4) 0 [] body rfl (by omega)
  simp only [Nat.zero_add, List.nil_append] at hloop
  exact hloop

@[simp] theorem statusLayer_length (l : List UInt8) : (statusLayer l).length = l.length := by
  simp only [statusLayer, List.length_append, xorKs_length, List.length_take, List.length_drop]
  omega

/-- The layer is its own inverse. -/
theorem statusLayer_statusLayer (l : List UInt8) : statusLayer (statusLayer l) = l := by
  have hlen : (xorKs (dwordStream statusKey) (l.take (4 * (l.length / 4)))).length = 4 * (l.length / 4) := by
    rw [xorKs_length, List.length_take]
    omega
  rw [statusLayer, statusLayer_length]
  simp only [statusLayer]
  rw [List.take_left' hlen, List.drop_left' hlen, xorKs_xorKs, List.take_append_drop]

theorem statusLayer_inj {l l' : List UInt8} (h : statusLayer l = statusLayer l') : l = l' := by
  rw [← statusLayer_statusLayer l, h, statusLayer_statusLayer]

theorem dword_statusLayer {body : List UInt8} {i : Nat} (hi : i < body.length / 4) :
    ∃ word, dword (Mem.ofList body) (4 * i) = some word ∧
      dword (Mem.ofList (statusLayer body)) (4 * i) = some (word ^^^ statusKey i) := by
  obtain ⟨w, hw, rest, hrest, hlen⟩ := exists_le32 (show 4 ≤ (body.drop (4 * i)).length by rw [List.length_drop]; omega)
  have hpre : (body.take (4 * i)).length = 4 * i := by
    rw [List.length_take]
    omega
  have hbody : body = body.take (4 * i) ++ le32 w ++ rest := by
    rw [List.append_assoc, ← hrest, List.take_append_drop]
  generalize body.take (4 * i) = pre at hpre hbody
  obtain ⟨k, hk⟩ : ∃ k, 4 * (body.length / 4) = (pre ++ le32 w).length + k := by
    refine ⟨4 * (body.length / 4) - (4 * i + 4), ?_⟩
    rw [List.length_append, le32_length]
    omega
  have hwhole : body.take (4 * (body.length / 4)) = pre ++ (le32 w ++ rest.take k) := by
    rw [hk, congrArg (List.take _) hbody, List.take_length_add_append, List.append_assoc]
  have hkey : (fun j => dwordStream statusKey (pre.length + j)) = dwordStream fun m => statusKey (i + m) := by
    funext j
    rw [hpre, dwordStream_add]
  refine ⟨w, ?_, ?_⟩
  · rw [hbody, ← hpre]
    exact dword_of_holds (Mem.holds_ofList pre (le32 w) rest) hw
  · have hold := Mem.holds_ofList (xorKs (dwordStream statusKey) pre) (le32 (w ^^^ statusKey i))
      (xorKs (dwordStream fun m => statusKey (i + (m + 1))) (rest.take k) ++ body.drop (4 * (body.length / 4)))
    rw [xorKs_length, hpre] at hold
    rw [statusLayer, hwhole, xorKs_append, hkey, xorKs_le32_append]
    simp only [List.append_assoc, Nat.add_zero] at hold ⊢
    exact dword_of_holds hold (Nat.xor_lt_two_pow hw (statusKey_lt i))

/-- For every body the loop stays inside the table and the body, XORs dword `i` with the word
`5 * (i / 16 mod 5) + (i mod 16) mod 5` of the table, leaves the bytes behind the last whole dword as they are, and
a second run restores the body. -/
theorem statusLoop_spec (body : List UInt8) :
    ∃ out, statusLoop (body.length / 4) 0 0 0 body = some out ∧ out.length = body.length ∧
      (∀ i < body.length / 4, ∃ key word, statusKey2[5 * (i / 16 % 5) + i % 16 % 5]? = some key ∧
        dword (Mem.ofList body) (4 * i) = some word ∧ dword (Mem.ofList out) (4 * i) = some (word ^^^ key)) ∧
      out.drop (4 * (body.length / 4)) = body.drop (4 * (body.length / 4)) ∧
      statusLoop (out.length / 4) 0 0 0 out = some body := by
  refine ⟨statusLayer body, statusLoop_eq body, statusLayer_length body, fun i hi => ?_, ?_, ?_⟩
  · obtain ⟨word, hword, hout⟩ := dword_statusLayer hi
    exact ⟨statusKey i, word, statusKey_index i, hword, hout⟩
  · rw [statusLayer, List.drop_left']
    rw [xorKs_length, List.length_take]
    omega
  · rw [statusLoop_eq, statusLayer_statusLayer]

/-! ## Payloads -/

/-- The file of a compressed payload: four bytes, and the `complen` bytes with their padding under the key. -/
def packed (head : List UInt8) (c : Compressed) (pad : List UInt8) : List UInt8 :=
  head ++ xorKs fileKey (c.buffer.take c.complen ++ pad)

theorem decrypted_packed {head : List UInt8} (hhead : head.length = 4) {c : Compressed} {pad : List UInt8}
    (hpad : (c.buffer.take c.complen ++ pad).length % 4 = 0)
    (hsize : (c.buffer.take c.complen ++ pad).length < 2 ^ 31) :
    size32 (packed head c pad) = 4 + (c.buffer.take c.complen ++ pad).length ∧
      decrypted (packed head c pad) = some (head ++ (c.buffer.take c.complen ++ pad)) := by
  unfold packed
  generalize c.buffer.take c.complen ++ pad = body at *
  have hsize32 : size32 (head ++ xorKs fileKey body) = 4 + body.length := by
    rw [size32, List.length_append, xorKs_length, hhead, Nat.mod_eq_of_lt (by omega)]
  have hwhole : 4 * ((4 + body.length - 4) / 4) = (xorKs fileKey body).length := by
    rw [xorKs_length]
    omega
  have htake : (head ++ xorKs fileKey body).take (4 + body.length) = head ++ xorKs fileKey body := by
    apply List.take_of_length_le
    rw [List.length_append, xorKs_length, hhead]
  refine ⟨hsize32, ?_⟩
  have hloop := xorLoop_append fileKey (xorKs fileKey body) []
  rw [List.append_nil, List.append_nil, xorKs_xorKs] at hloop
  simp only [decrypted, hsize32]
  rw [htake, List.drop_left' hhead, List.take_left' hhead, hwhole, hloop, Option.map_some]

/-- The two sizes in the header, the first one without the eight bytes of both. -/
theorem sizes_of_decrypted {file head rest : List UInt8} {c n : Nat} (hhead : head.length = 4)
    (hdec : decrypted file = some (head ++ le32 c ++ le32 n ++ rest)) (h8 : 8 ≤ c) (hc : c < 2 ^ 32) (hn : n < 2 ^ 32) :
    compressedSize file = c - 8 ∧ storedSize file = n := by
  constructor
  · have hold := Mem.holds_ofList head (le32 c) (le32 n ++ rest)
    rw [hhead, ← List.append_assoc] at hold
    rw [compressedSize, hdec, Option.getD_some, dword_of_holds hold hc, Option.getD_some, u32_eq (by omega) (by omega)]
    omega
  · have hold := Mem.holds_ofList (head ++ le32 c) (le32 n) rest
    rw [List.length_append, hhead, le32_length] at hold
    rw [storedSize, hdec, Option.getD_some, dword_of_holds hold hn, Option.getD_some]

/-- What `Unpack` finds in the file of a compressed payload. -/
theorem body_packed {t : OffTable} {input : Mem UInt8} {data : List UInt8} {past : UInt8}
    (hin : input.Holds 0 (data ++ [past])) (hne : data ≠ []) (hlen : data.length < 2 ^ 29) {compression : Int}
    {c : Compressed} (hc : compressData t input data.length compression = some c) {head pad : List UInt8}
    (hhead : head.length = 4) (hpad : (c.complen + pad.length) % 4 = 0) (hpad' : pad.length < 4) :
    ∃ ts s, Frame 0 0 ts s ∧ expand ts [] = some data ∧ Chosen data compression 0 ts ∧ c.complen = 8 + s.length ∧
      body (packed head c pad) =
        if s.length = data.length then .ok (.raw s)
        else .ok (.compressed (fun i => Mem.ofList (head ++ le32 c.complen ++ le32 data.length ++ s ++ pad) (12 + i))
          data.length) := by
  obtain ⟨c', ts, s, hc', hbuf, hcomplen, hf, he, hchosen⟩ := compressData_chosen t hin compression hlen
  obtain rfl : c = c' := Option.some.inj (hc.symm.trans hc')
  have hpos := List.length_pos_iff.2 hne
  rw [if_neg (by omega), Nat.add_zero] at hcomplen
  have hslen := hf.stream_length_le he
  have htokens := tokens_ne_nil hpos he
  have hspos := List.length_pos_iff.2 (hf.ne_nil htokens)
  have htake : c.buffer.take c.complen = le32 c.complen ++ le32 data.length ++ s := by
    rw [hbuf, List.take_left']
    simp only [List.length_append, le32_length]
    omega
  have hbody : (c.buffer.take c.complen ++ pad).length = c.complen + pad.length := by
    rw [htake]
    simp only [List.length_append, le32_length]
    omega
  obtain ⟨hsize, hdec⟩ := decrypted_packed hhead (by rw [hbody]; exact hpad) (by rw [hbody]; omega)
  rw [hbody] at hsize
  rw [htake] at hdec
  have hdec : decrypted (packed head c pad) = some (head ++ le32 c.complen ++ le32 data.length ++ s ++ pad) := by
    rw [hdec]
    simp only [List.append_assoc]
  refine ⟨ts, s, hf, he, hchosen, hcomplen, ?_⟩
  obtain ⟨hcomp, hstored⟩ := sizes_of_decrypted hhead (by rw [hdec, List.append_assoc _ s pad]) (by omega) (by omega)
    (show data.length < 2 ^ 32 by omega)
  rw [hcomplen, Nat.add_sub_cancel_left] at hcomp
  generalize hbuffer : head ++ le32 c.complen ++ le32 data.length ++ s ++ pad = buffer at hdec
  have hbounds : 12 < size32 (packed head c pad) ∧ size32 (packed head c pad) < 2 ^ 31 := by omega
  obtain ⟨buffer', hdec', -, heq⟩ := body_eq hbounds.1 hbounds.2
  obtain rfl : buffer = buffer' := Option.some.inj (hdec.symm.trans hdec')
  rw [heq, hcomp, hstored, hsize, if_neg (by omega)]
  by_cases hsame : s.length = data.length
  · rw [if_pos hsame, if_pos (.inr hsame.symm), if_pos (by omega), ← hbuffer, List.append_assoc _ s pad,
      List.drop_left' (by simp [hhead]), List.take_left' rfl]
  · rw [if_neg hsame, if_neg (by omega), if_pos (by omega)]

/-- The file of a compressed payload is unpacked to that payload unless its two sizes are the same: then the
compressed bytes are copied, and no payload is compressed to itself. -/
theorem unpack_packed_iff {t : OffTable} {input : Mem UInt8} {p : List UInt8} (hin : input.Holds 0 (statusLayer p))
    (hne : p ≠ []) (hlen : p.length < 2 ^ 29) {compression : Int} {c : Compressed}
    (hc : compressData t input p.length compression = some c) {head pad : List UInt8}
    (hhead : head.length = 4) (hpad : (c.complen + pad.length) % 4 = 0) (hpad' : pad.length < 4) :
    unpack (packed head c pad) = .ok p ↔ c.complen - 8 ≠ p.length := by
  obtain ⟨past, hpast⟩ : ∃ past, input p.length = some past := by
    cases hpast : input p.length with
    | some past => exact ⟨past, rfl⟩
    | none =>
      have hnone := compressData_past_none t hin (by rwa [statusLayer_length]) compression
      rw [statusLayer_length, hc] at hnone
      cases hnone
  have hin' : input.Holds 0 (statusLayer p ++ [past]) :=
    Mem.holds_concat.2 ⟨hin, by rwa [Nat.zero_add, statusLayer_length]⟩
  have hne' : statusLayer p ≠ [] := fun h => hne (List.length_eq_zero_iff.1 (by rw [← statusLayer_length, h]; rfl))
  rw [← statusLayer_length] at hlen hc
  obtain ⟨ts, s, hf, he, hchosen, hcomplen, hbody⟩ := body_packed hin' hne' hlen hc hhead hpad hpad'
  rw [unpack, hbody, ← statusLayer_length p, show c.complen - 8 = s.length by omega]
  by_cases hsame : s.length = (statusLayer p).length
  · rw [if_pos hsame]
    refine iff_of_false (fun h => ?_) (fun h => h hsame)
    -- the stream would be the payload
    have hs : statusLayer s = p := by
      simp only [ok_bind, statusLoop_eq, inBuffer] at h
      exact Except.ok.inj h
    rw [← statusLayer_statusLayer p] at hs
    obtain rfl := statusLayer_inj hs
    exact frame_ne_self hne' hf he hchosen
  · rw [if_neg hsame]
    refine iff_of_true ?_ hsame
    have hs : Mem.Holds (fun i =>
        Mem.ofList (head ++ le32 c.complen ++ le32 (statusLayer p).length ++ s ++ pad) (12 + i)) 0 s := by
      have := Mem.holds_ofList (head ++ le32 c.complen ++ le32 (statusLayer p).length) s pad
      simp only [List.length_append, hhead, le32_length] at this
      intro i hi
      simpa only [Nat.zero_add] using this i hi
    simp only [ok_bind, decompressData_frame (Tape.cells_room _ _) hf hs he rfl, inBuffer, Except.map, statusLoop_eq]
    exact congrArg Except.ok (statusLayer_statusLayer p)

/-- Forty bytes that the layer makes periodic. -/
theorem unpack_packed_repeats :
    ∃ c, compressData (fun _ => 0) (Mem.ofList (statusLayer (List.replicate 40 7) ++ [0])) 40 17 = some c ∧
      unpack (packed [1, 2, 3, 4] c [0, 0, 0]) = .ok (List.replicate 40 7) := by
  have hlen : (compressData (fun _ => 0) (Mem.ofList (statusLayer (List.replicate 40 7) ++ [0])) 40 17).map
      Compressed.complen = some 29 := by decide +kernel
  obtain ⟨c, hc, hcomplen⟩ := Option.map_eq_some_iff.1 hlen
  refine ⟨c, hc, (unpack_packed_iff (Mem.holds_ofList_self _ _) (by decide) (by decide) hc rfl ?_ (by decide)).2 ?_⟩
  · rw [hcomplen]
    rfl
  · rw [hcomplen]
    decide

/-- Seven literals and a copy of three bytes take as many bytes as they stand for. -/
theorem unpack_packed_copied :
    ∃ c, compressData (fun _ => 0) (Mem.ofList (statusLayer [111, 165, 243, 21, 80, 151, 252, 40, 98, 99] ++ [0]))
        10 17 = some c ∧ c.complen = 18 ∧
      unpack (packed [1, 2, 3, 4] c [0, 0]) = .ok [113, 166, 242, 18, 81, 148, 253, 46, 113, 0] := by
  have hbuf : (compressData (fun _ => 0) (Mem.ofList (statusLayer [111, 165, 243, 21, 80, 151, 252, 40, 98, 99] ++ [0]))
      10 17).map (fun c => (c.complen, c.buffer)) =
        some (18, [18, 0, 0, 0, 10, 0, 0, 0, 127, 97, 98, 99, 100, 101, 102, 103, 113, 0, 1, 0]) := by decide +kernel
  obtain ⟨c, hc, hfields⟩ := Option.map_eq_some_iff.1 hbuf
  rw [Prod.mk.injEq] at hfields
  refine ⟨c, hc, hfields.1, ?_⟩
  rw [packed, hfields.1, hfields.2]
  rfl

end SiglusExtract.UnpackDbs
