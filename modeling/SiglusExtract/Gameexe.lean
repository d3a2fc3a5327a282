/-
`Gameexe.dat`: `CreateGameexe` packs a text file, `UnpackGameexe::Unpack` restores it, and
`SiglusHook::DetactNeedDumper` reads from the packed file whether the private key is needed.
-/
import SiglusExtract.Lib.CInt
import SiglusExtract.Lib.Patch
import SiglusExtract.Lzss.RoundTrip
import SiglusExtract.Tool

namespace SiglusExtract

open Lz Bytes Lzss Compression Xor CInt

/-! ## CreateGameexe -/

/-- The two XOR passes of the packer and the unpacker. -/
def gameExeStream (i : Nat) : UInt8 := keyAt gameExeKey (i &&& 0xff)

def privateStream (privateKey : PrivateKey) (i : Nat) : UInt8 := keyAt privateKey.toList (i &&& 0x0f)

/-- The text that is packed: `i` takes the first two bytes of the file, as far as there are two, and
the file is read from the start again where they are no byte order mark. -/
def readText (infile : List UInt8) : List UInt8 :=
  let i := leWord (infile.getD 0 0) (infile.getD 1 0)
  if i ≠ 0xfeff then infile else infile.drop 2

/-- `CreateGameexe`: the file it writes for the text file `infile`. `past` is the heap byte behind the
text, which `CompressData` may look at. -/
def createGameexe (t : OffTable) (infile : List UInt8) (past : UInt8) (privateKey : PrivateKey)
    (needExtraKey : Bool) : Option (List UInt8) := do
  let buffer := readText infile
  let c ← compressDataInBlock t (Mem.ofList (buffer ++ [past])) buffer.length 17
  let output ← xorLoop gameExeStream c.complen c.buffer
  let output ← if needExtraKey then xorLoop (privateStream privateKey) c.complen output else some output
  return [0, 0, 0, 0] ++ (if needExtraKey then [1, 0, 0, 0] else [0, 0, 0, 0]) ++ output.take c.complen

/-! ## UnpackGameexe and DetactNeedDumper -/

namespace UnpackGameexe

/-- `GetSize32`. -/
def size32 (file : List UInt8) : Nat := file.length % 2 ^ 32

/-- One byte under the two keys. -/
def plainByte (code : DecodeControl) (i : Nat) (b : UInt8) : UInt8 :=
  (if code.datNeedKey then b ^^^ privateStream code.privateKey i else b) ^^^ gameExeStream i

/-- The XOR pass over the first `n` bytes at `CorrentBuffer`; `none` where there are not as many. -/
def xorPass (code : DecodeControl) (n : Nat) (corrent : List UInt8) : Option (List UInt8) :=
  if n ≤ corrent.length then some ((corrent.take n).mapIdx (plainByte code) ++ corrent.drop n) else none

/-- `Unpack` up to the end of `DecompressData`: the text in the memory that stands at the output buffer.
`Size - 8` is unsigned, so a file of less than eight bytes sends the XOR loop out of the buffer. -/
def decompress (code : DecodeControl) (outbuffer : Nat → Tape UInt8) (file : List UInt8) :
    Except Failure (List UInt8) := do
  let size := size32 file
  heapAlloc size
  let buffer := file.take size
  let corrent ← orFault (xorPass code (u32 (size - 8)) (buffer.drop 8))
  let _ ← orFault (dword (Mem.ofList corrent) 0)
  let decompLen ← orFault (dword (Mem.ofList corrent) 4)
  heapAlloc decompLen
  let (_, out) ← orFault (decompressData (Mem.ofList (corrent.drop 8)) (outbuffer decompLen) decompLen)
  return out

/-- `UnpackGameexe::Unpack`: the text file it writes for `Gameexe.dat`, with an output buffer of just the
length that is announced. -/
def unpack (code : DecodeControl) (file : List UInt8) : Except Failure (List UInt8) := do
  let out ← decompress code (fun decompLen => .cells decompLen fun _ => 0) file
  return [0xff, 0xfe] ++ out

end UnpackGameexe

/-- The flags of `SiglusHook` that say which archive carries the second layer. -/
structure SiglusHook where
  extraDecInPck : Bool
  extraDecInDat : Bool

/-- `DetactNeedDumper`, as far as it decides the flags, on the two files; both are read into the same
`Buffer`, which holds 100 bytes. -/
def SiglusHook.detactNeedDumper (h : SiglusHook) (buffer scene gameexe : List UInt8) : Option SiglusHook := do
  let buffer := readInto buffer ((NtFileDisk.openFile scene).read 92).1
  let extraKeyUse ← dword (Mem.ofList buffer) 84
  let buffer := readInto buffer ((NtFileDisk.openFile gameexe).read (8 + 16)).1
  let flag ← dword (Mem.ofList buffer) 4
  return ⟨if extraKeyUse = 0 then false else h.extraDecInPck, if flag = 0 then false else h.extraDecInDat⟩

/-! ## Round trip -/

/-- A text without its byte order mark. -/
def dropBom : List UInt8 → List UInt8
  | 0xff :: 0xfe :: text => text
  | text => text

theorem leWord_eq_bom {lo hi : UInt8} : leWord lo hi = 0xfeff ↔ lo = 0xff ∧ hi = 0xfe := by
  constructor
  · intro h
    have := lo.toNat_lt
    have := hi.toNat_lt
    unfold leWord at h
    exact ⟨UInt8.toNat_inj.1 (show lo.toNat = 255 by omega), UInt8.toNat_inj.1 (show hi.toNat = 254 by omega)⟩
  · rintro ⟨rfl, rfl⟩
    rfl

theorem readText_eq : ∀ infile, readText infile = dropBom infile
  | [] => rfl
  | [a] => by
    have h : ¬ leWord a 0 = 0xfeff := by
      rw [leWord_eq_bom]
      rintro ⟨-, h⟩
      exact absurd h (by decide)
    simp [readText, dropBom, h]
  | a :: b :: text => by
    by_cases h : a = 0xff ∧ b = 0xfe
    · obtain ⟨rfl, rfl⟩ := h
      simp [readText, dropBom, leWord_eq_bom.2]
    · have hd : dropBom (a :: b :: text) = a :: b :: text := by
        unfold dropBom
        split
        · next h' =>
          cases h'
          exact absurd ⟨rfl, rfl⟩ h
        · rfl
      have hw : ¬ leWord a b = 0xfeff := by rwa [leWord_eq_bom]
      simp [readText, hd, hw]

/-- What `CreateGameexe` writes: the flag, then the compressed text under the two streams. -/
theorem createGameexe_spec (t : OffTable) (infile : List UInt8) (past : UInt8) (code : DecodeControl)
    (h4 : 4 ≤ (dropBom infile).length) (hlen : (dropBom infile).length < 2 ^ 29) :
    ∃ complen s, createGameexe t infile past code.privateKey code.datNeedKey =
        some ([0, 0, 0, 0] ++ le32 (if code.datNeedKey then 1 else 0) ++
          if code.datNeedKey then
            xorKs (privateStream code.privateKey)
              (xorKs gameExeStream (le32 complen ++ le32 (dropBom infile).length ++ s))
          else xorKs gameExeStream (le32 complen ++ le32 (dropBom infile).length ++ s)) ∧
      8 + s.length < 2 ^ 31 - 8 ∧ ∃ ts, Frame 0 0 ts s ∧ expand ts [] = some (dropBom infile) := by
  obtain ⟨c, ts, s, junk, hc, hbuf, hj, hcomplen, hle, hf, he⟩ := compressData_stream t
    (Mem.holds_ofList_self (dropBom infile ++ [past]) []) 17 h4 hlen
  rw [List.append_nil] at hc
  have hbody : c.complen = (le32 c.complen ++ le32 (dropBom infile).length ++ s).length := by
    simp
    omega
  refine ⟨c.complen, s, ?_, by omega, ts, hf, he⟩
  rw [createGameexe, readText_eq]
  simp only [hc, Option.bind_eq_bind, Option.bind_some]
  rw [hbuf]
  generalize le32 c.complen ++ le32 (dropBom infile).length ++ s = body at hbody
  rw [hbody, xorLoop_append]
  cases code.datNeedKey with
  | false => simp [le32]
  | true =>
    have := xorLoop_append (privateStream code.privateKey) (xorKs gameExeStream body) junk
    rw [xorKs_length] at this
    simp [this, le32]

namespace UnpackGameexe

/-- The bytes behind the first eight under the two keys. -/
def plain (code : DecodeControl) (file : List UInt8) : List UInt8 :=
  ((file.take (size32 file)).drop 8).mapIdx (plainByte code)

/-- The second length, which `Unpack` takes for that of the output. -/
def decompLen (code : DecodeControl) (file : List UInt8) : Nat := (dword (Mem.ofList (plain code file)) 4).getD 0

theorem plain_length (code : DecodeControl) (file : List UInt8) : (plain code file).length = size32 file - 8 := by
  have hle : size32 file ≤ file.length := Nat.mod_le _ _
  rw [plain, List.length_mapIdx, List.length_drop, List.length_take, Nat.min_eq_left hle]

/-- The pass fits where the buffer has eight bytes, and only there. -/
theorem xorPass_eq (code : DecodeControl) (file : List UInt8) :
    xorPass code (u32 ((size32 file : Int) - 8)) ((file.take (size32 file)).drop 8) =
      if 8 ≤ size32 file then some (plain code file) else none := by
  have hlen : ((file.take (size32 file)).drop 8).length = size32 file - 8 := by
    rw [← plain_length code, plain, List.length_mapIdx]
  have hlt : size32 file < 2 ^ 32 := Nat.mod_lt _ (by decide)
  rw [xorPass]
  by_cases h8 : 8 ≤ size32 file
  · have hn : u32 ((size32 file : Int) - 8) = size32 file - 8 := by
      rw [u32_eq (by omega) (by omega)]
      omega
    rw [hn, if_pos hlen.ge, if_pos h8, List.take_of_length_le hlen.le, List.drop_eq_nil_of_le hlen.le, List.append_nil]
    rfl
  · -- the difference wraps round
    have hn : u32 ((size32 file : Int) - 8) = 2 ^ 32 + size32 file - 8 := by
      unfold u32
      omega
    rw [hn, if_neg (by omega), if_neg h8]

/-- The two headers, where the file is large enough for them. -/
theorem dword_plain (code : DecodeControl) {file : List UInt8} (h16 : 16 ≤ size32 file) :
    (∃ compLen, dword (Mem.ofList (plain code file)) 0 = some compLen) ∧
      dword (Mem.ofList (plain code file)) 4 = some (decompLen code file) := by
  have hlen := plain_length code file
  obtain ⟨n, hn⟩ := dword_isSome (l := plain code file) (p := 4) (by omega)
  exact ⟨dword_isSome (by omega), by rw [decompLen, hn, Option.getD_some]⟩

theorem dword_plain_none (code : DecodeControl) {file : List UInt8} (h16 : size32 file < 16) :
    dword (Mem.ofList (plain code file)) 4 = none :=
  dword_none (by rw [plain_length]; omega)

/-- A file that has a buffer: both headers are read, and the decoder is run where the output has one. -/
theorem decompress_eq (code : DecodeControl) (outbuffer : Nat → Tape UInt8) {file : List UInt8}
    (h31 : size32 file < 2 ^ 31) :
    decompress code outbuffer file =
      if size32 file < 16 then .error .fault
      else if decompLen code file < 2 ^ 31 then
        orFault ((decompressData (Mem.ofList ((plain code file).drop 8)) (outbuffer (decompLen code file))
          (decompLen code file)).map (·.2))
      else .error (.status .noMemory) := by
  unfold decompress
  dsimp only
  rw [heapAlloc_ok h31, xorPass_eq]
  by_cases h16 : size32 file < 16
  · rw [if_pos h16]
    split
    · -- one of the headers is not there
      rw [orFault_some, ok_bind, ok_bind, dword_plain_none code h16]
      cases dword (Mem.ofList (plain code file)) 0 <;> rfl
    · rfl
  · obtain ⟨⟨compLen, hcomp⟩, hdecomp⟩ := dword_plain code (Nat.not_lt.1 h16)
    rw [if_neg h16, if_pos (by omega)]
    simp only [hcomp, hdecomp, orFault_some, ok_bind]
    by_cases hn31 : decompLen code file < 2 ^ 31
    · rw [heapAlloc_ok hn31, if_pos hn31]
      cases decompressData (Mem.ofList ((plain code file).drop 8)) (outbuffer (decompLen code file))
        (decompLen code file) <;> rfl
    · rw [heapAlloc, if_neg hn31, if_neg hn31]
      rfl

/-- The interleaved passes of the unpacker are the two passes of the packer, one after the other. -/
theorem mapIdx_eq_xorKs (code : DecodeControl) (d : List UInt8) :
    d.mapIdx (plainByte code) =
      xorKs gameExeStream (if code.datNeedKey then xorKs (privateStream code.privateKey) d else d) := by
  unfold plainByte
  cases code.datNeedKey with
  | false => rfl
  | true =>
    simp only [if_true, xorKs, List.mapIdx_mapIdx]
    rfl

/-- A header of eight bytes and a compressed text under the two streams become the text, wherever there is room for
it. -/
theorem decompress_spec (code : DecodeControl) {outbuffer : Nat → Tape UInt8} {head s text : List UInt8}
    {complen : Nat} {ts : List (Token UInt8)} (hroom : (outbuffer text.length).Room text.length)
    (hhead : head.length = 8) (hlen : text.length < 2 ^ 31) (hsize : 8 + s.length < 2 ^ 31 - 8) (hf : Frame 0 0 ts s)
    (he : expand ts [] = some text) :
    decompress code outbuffer (head ++
      if code.datNeedKey then
        xorKs (privateStream code.privateKey) (xorKs gameExeStream (le32 complen ++ le32 text.length ++ s))
      else xorKs gameExeStream (le32 complen ++ le32 text.length ++ s)) = .ok text := by
  obtain ⟨body, hbody⟩ : ∃ body, body = le32 complen ++ le32 text.length ++ s := ⟨_, rfl⟩
  rw [← hbody]
  generalize hfile : (head ++ if code.datNeedKey then
    xorKs (privateStream code.privateKey) (xorKs gameExeStream body) else xorKs gameExeStream body) = file
  have hl : body.length = 8 + s.length := by simp [hbody]; omega
  have hfl : file.length = 8 + body.length := by
    rw [← hfile, List.length_append, hhead]
    split <;> simp only [xorKs_length]
  have hs32 : size32 file = file.length := Nat.mod_eq_of_lt (by omega)
  -- the streams of the packer cancel out
  have hplain : plain code file = body := by
    rw [plain, hs32, List.take_length, ← hfile, List.drop_left' hhead, mapIdx_eq_xorKs]
    cases code.datNeedKey <;> simp [xorKs_xorKs]
  have hm : (Mem.ofList body).Holds 0 (le32 complen ++ le32 text.length ++ s) := by
    simpa [hbody] using Mem.holds_ofList_self body []
  rw [Mem.holds_append, Mem.holds_append] at hm
  have hd : decompLen code file = text.length := by
    rw [decompLen, hplain, show dword (Mem.ofList body) 4 = some text.length from dword_of_holds hm.1.2 (by omega),
      Option.getD_some]
  have hdrop : body.drop 8 = s := by rw [hbody, List.drop_left' (by simp)]
  have hdec := decompressData_frame hroom hf (by simpa using Mem.holds_ofList_self s []) he rfl
  rw [decompress_eq code _ (by omega), if_neg (by omega), hd, if_pos hlen, hplain, hdrop, hdec]
  rfl

end UnpackGameexe

theorem readInto_length {buffer bytes : List UInt8} (h : bytes.length ≤ buffer.length) :
    (readInto buffer bytes).length = buffer.length := by
  simp [readInto]
  omega

/-- The test of `DetactNeedDumper` on a file that starts with four bytes and a flag. -/
theorem SiglusHook.detactNeedDumper_spec (h : SiglusHook) (buffer : Vector UInt8 100) (scene : List UInt8)
    {head : List UInt8} (flag : Nat) (body : List UInt8) (hhead : head.length = 4) (hflag : flag < 2 ^ 32) :
    ∃ h', h.detactNeedDumper buffer.toList scene (head ++ le32 flag ++ body) = some h' ∧
      h'.extraDecInDat = if flag = 0 then false else h.extraDecInDat := by
  have hl : (readInto buffer.toList ((NtFileDisk.openFile scene).read 92).1).length = 100 := by
    rw [readInto_length (by simp [NtFileDisk.read, NtFileDisk.openFile])]
    simp
  obtain ⟨d, hd⟩ := dword_isSome (p := 84) (Nat.le_of_lt (Nat.lt_of_lt_of_eq (by decide) hl.symm))
  have hread : ((NtFileDisk.openFile (head ++ le32 flag ++ body)).read (8 + 16)).1 =
      head ++ le32 flag ++ body.take 16 := by
    have h4 : (head ++ le32 flag).length = 8 := by simp [hhead]
    simp only [NtFileDisk.read, NtFileDisk.openFile, List.drop_zero]
    rw [if_neg (by decide), List.take_append, List.take_of_length_le (by omega), h4]
  have hfl : ∀ buf, dword (Mem.ofList (readInto buf (head ++ le32 flag ++ body.take 16))) 4 = some flag := by
    intro buf
    refine dword_of_holds ?_ hflag
    rw [readInto, List.append_assoc _ (body.take 16) _, ← hhead]
    exact Mem.holds_ofList head (le32 flag) _
  refine ⟨⟨if d = 0 then false else h.extraDecInPck, if flag = 0 then false else h.extraDecInDat⟩, ?_, rfl⟩
  unfold detactNeedDumper
  simp only [hd, hread, hfl, Option.bind_eq_bind, Option.bind_some]
  rfl

/-- The round trip of a text file, with the key and the flag of the packer: the unpacker writes the byte
order mark and the text without its own. The dword at offset 4 of the packed file is non-zero just when
the private key was applied, and it is what `DetactNeedDumper` goes by. -/
def GameexeRoundTrip (t : OffTable) (infile : List UInt8) (past : UInt8) (code : DecodeControl) : Prop :=
  ∃ dat, createGameexe t infile past code.privateKey code.datNeedKey = some dat ∧
    UnpackGameexe.unpack code dat = .ok ([0xff, 0xfe] ++ dropBom infile) ∧
    (∃ flag, dword (Mem.ofList dat) 4 = some flag ∧ (flag ≠ 0 ↔ code.datNeedKey = true)) ∧
    ∀ (buffer : Vector UInt8 100) (scene : List UInt8), ∃ hook,
      SiglusHook.detactNeedDumper ⟨true, true⟩ buffer.toList scene dat = some hook ∧
        hook.extraDecInDat = code.datNeedKey

/-- Where `CreateGameexe` writes a file, `CompressData` had a block for what it wrote. -/
theorem length_of_createGameexe {t : OffTable} {infile dat : List UInt8} {past : UInt8} {privateKey : PrivateKey}
    {needExtraKey : Bool} (h : createGameexe t infile past privateKey needExtraKey = some dat) :
    4 ≤ (dropBom infile).length ∧ (dropBom infile).length < 2 ^ 29 := by
  have hin : (Mem.ofList (dropBom infile ++ [past])).Holds 0 (dropBom infile ++ [past]) := by
    simpa using Mem.holds_ofList_self (dropBom infile ++ [past]) []
  rw [createGameexe, readText_eq] at h
  simp only [Option.bind_eq_bind, Option.bind_eq_some_iff] at h
  obtain ⟨c, hc, -⟩ := h
  obtain ⟨hc, hfit⟩ := compressDataInBlock_eq_some.1 hc
  exact ⟨(compressData_inside_iff t hin 17 hc).1 hfit, (compressData_allocated hc).1⟩

/-- `Gameexe.dat` round trip: it holds just for the texts of four bytes or more, less than `2^29`, behind
their byte order mark. -/
theorem createGameexe_unpack_iff (t : OffTable) (infile : List UInt8) (past : UInt8) (code : DecodeControl) :
    GameexeRoundTrip t infile past code ↔ 4 ≤ (dropBom infile).length ∧ (dropBom infile).length < 2 ^ 29 := by
  refine ⟨fun ⟨_, hdat, _⟩ => length_of_createGameexe hdat, fun ⟨h4, hlen⟩ => ?_⟩
  obtain ⟨complen, s, hc, hsize, ts, hf, he⟩ := createGameexe_spec t infile past code h4 hlen
  refine ⟨_, hc, ?_, ⟨if code.datNeedKey then 1 else 0, ?_, ?_⟩, fun buffer scene => ?_⟩
  · rw [UnpackGameexe.unpack, UnpackGameexe.decompress_spec code (Tape.cells_room _ _) rfl (by omega) hsize hf he]
    rfl
  · exact dword_of_holds (Mem.holds_ofList [0, 0, 0, 0] (le32 _) _) (by split <;> decide)
  · cases code.datNeedKey <;> simp
  · obtain ⟨hook, h1, h2⟩ := SiglusHook.detactNeedDumper_spec ⟨true, true⟩ buffer scene
      (if code.datNeedKey then 1 else 0) _ (show [0, 0, 0, 0].length = 4 from rfl) (by split <;> decide)
    refine ⟨hook, h1, h2.trans ?_⟩
    cases code.datNeedKey <;> rfl

/-- A text file of one byte: twelve bytes are written to a block of four. -/
theorem not_gameexeRoundTrip :
    ¬ GameexeRoundTrip (fun _ => 0) [65] 0 ⟨Vector.replicate 16 0, false, false, .ssV2⟩ := by
  rintro ⟨dat, hdat, -⟩
  exact absurd (length_of_createGameexe hdat).1 (by decide)

end SiglusExtract
