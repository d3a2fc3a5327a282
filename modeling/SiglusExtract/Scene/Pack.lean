/-
`CreateScenePck` (CreateScenePck.cpp): packs the script files of a folder into a new `Scene.pck`, with
the header and the tables of the original one.
-/
import SiglusExtract.Lib.Wide
import SiglusExtract.Lzss.RoundTrip
import SiglusExtract.Tool

namespace SiglusExtract

open Lz Bytes Lzss Compression Xor Wide Patch

/-! ## SCENEHEADER -/

namespace SceneHeader

/-- The offsets of the pairs of `SCENEHEADER` that the tools read. -/
def sceneNameIndex : Nat := 52

def sceneName : Nat := 60

def sceneInfo : Nat := 68

def sceneData : Nat := 76

end SceneHeader

/-- A `HEADERPAIR`, as unsigned numbers. -/
structure HeaderPair where
  offset : Nat
  count : Nat
  deriving DecidableEq, Repr

/-- The entry `i` of a table of pairs. Addresses are 32 bits wide. -/
def headerPair (m : Mem UInt8) (table i : Nat) : Option HeaderPair := do
  let offset ← dword m ((table + 8 * i) % 2 ^ 32)
  let count ← dword m ((table + 8 * i) % 2 ^ 32 + 4)
  return ⟨offset, count⟩

/-! ## File names -/

/-- `MAX_PATH`, the size of the name buffers in units. -/
def maxPath : Nat := 260

def wide (s : String) : WString := s.toList.map fun c => UInt16.ofNat c.toNat

/-- `%d` of a `DWORD`, which it takes as an `int`. -/
def decimal (i : Nat) : WString := wide (toString (if i < 2 ^ 31 then (i : Int) else i - 2 ^ 32))

/-- `wcsncpy` into a zeroed buffer: at most `count` units, up to a NUL. -/
def wcsncpy (m : Mem UInt8) : Nat → Nat → Option WString
  | _, 0 => some []
  | p, count + 1 => do
    let u ← unit m p
    if u = 0 then some []
    else do
      let s ← wcsncpy m (p + 2) count
      return u :: s

/-- A string with its NUL in a name buffer. -/
def nameBuffer (s : WString) : Option WString := if s.length < maxPath then some s else none

/-- `L"%d.%s.ss"`, the name of the file of script `i`. -/
def scriptFileName (i : Nat) (name : WString) : WString := decimal i ++ wide "." ++ name ++ wide ".ss"

/-- The separator of a path, slash or backslash. -/
def isSeparator (u : UInt16) : Bool := u == 92 || u == 47

/-- The path of a file in the folder `path`. The last unit of `path` tells whether it ends in a
separator; of an empty path it is the unit in front of it, `before`. -/
def fullPath (before : UInt16) (path name : WString) : WString :=
  if isSeparator ((before :: path).getLast (List.cons_ne_nil _ _)) then path ++ name
  else path ++ [92] ++ name

/-! ## CreateScenePck -/

/-- What `CreateScenePck` finds around it: the original pack, the folder, the files that open, and
the byte behind script `i`, which `CompressData` looks at. -/
structure PackEnv where
  pck : Option (List UInt8)
  before : UInt16
  path : WString
  disk : WString → Option (List UInt8)
  past : Nat → UInt8
  newf : Bool

/-- What the loop carries from script to script: the table of `CompressData`, the pack in memory, the
new data section and its length. -/
structure PackState where
  offTable : OffTable
  buf : List UInt8
  diskBuffer : List UInt8
  diskOffset : Nat

/-- The first `n` bytes of the block of `CompressData`, after the XOR passes turned what was written into
`outbuffer`: behind it the block is still zero. -/
def outBytes (outbuffer : List UInt8) (allocated n : Nat) : Option (List UInt8) :=
  if n ≤ allocated then some ((outbuffer ++ List.replicate (allocated - outbuffer.length) 0).take n) else none

/-- The two passes over a compressed script. -/
def encryptScript (privateKey : PrivateKey) (needExtraKey : Bool) (outbuffer : List UInt8) (complen : Nat) :
    Option (List UInt8) := do
  let outbuffer ← decrypt2 outbuffer complen
  if needExtraKey then decrypt1 outbuffer complen privateKey else some outbuffer

/-- One turn of the loop, for script `i`. -/
def packScript (env : PackEnv) (privateKey : PrivateKey) (needExtraKey : Bool) (nameIndex name info i : Nat)
    (st : PackState) : Except Failure PackState := do
  let m := Mem.ofList st.buf
  let entry ← orFault (headerPair m nameIndex i)
  if maxPath < entry.count then throw .fault
  let scriptName ← orFault (wcsncpy m ((name + 2 * entry.offset) % 2 ^ 32) entry.count)
  let scriptName ← orFault (nameBuffer scriptName)
  let outScriptFileName ← orFault (nameBuffer (scriptFileName i scriptName))
  let path ← orFault (nameBuffer (fullPath env.before env.path outScriptFileName))
  match env.disk path with
  | none => throw (.status .noSuchFile)
  | some ss => do
    let c ← orFault (compressDataInBlock st.offTable (Mem.ofList (ss ++ [env.past i])) ss.length 17)
    let buf ← orFault (patch st.buf ((info + 8 * i) % 2 ^ 32) (le32 st.diskOffset ++ le32 c.complen))
    let outbuffer ← orFault (encryptScript privateKey needExtraKey c.buffer c.complen)
    let chunk ← orFault (outBytes outbuffer c.allocated (c.complen + 8))
    return ⟨c.offTable, buf, st.diskBuffer ++ chunk, (st.diskOffset + c.complen + 8) % 2 ^ 32⟩

/-- The loop over the scripts, from script `i` on. The count is read again in every turn. -/
def packLoop (env : PackEnv) (privateKey : PrivateKey) (needExtraKey : Bool) (nameIndex name info : Nat) :
    Nat → Nat → PackState → Except Failure PackState
  | 0, _, st => .ok st
  | fuel + 1, i, st => do
    let count ← orFault (dword (Mem.ofList st.buf) (SceneHeader.sceneNameIndex + 4))
    if i < count then do
      let st ← packScript env privateKey needExtraKey nameIndex name info i st
      packLoop env privateKey needExtraKey nameIndex name info fuel (i + 1) st
    else .ok st

/-- `CreateScenePck`: the pack it writes. A `DWORD` counts the scripts, so `2^32` turns are enough. -/
def createScenePck (t : OffTable) (env : PackEnv) (privateKey : PrivateKey) (needExtraKey : Bool) :
    Except Failure (List UInt8) :=
  match env.pck with
  | none => throw (.status .noSuchFile)
  | some buf => do
    let m := Mem.ofList buf
    let nameIndex ← orFault (dword m SceneHeader.sceneNameIndex)
    let name ← orFault (dword m SceneHeader.sceneName)
    let info ← orFault (dword m SceneHeader.sceneInfo)
    let _ ← orFault (dword m SceneHeader.sceneData)
    let st ← packLoop env privateKey needExtraKey nameIndex name info (2 ^ 32) 0 ⟨t, buf, [], 0⟩
    if env.newf = false then throw (.status .unsuccessful)
    let data ← orFault (dword (Mem.ofList st.buf) SceneHeader.sceneData)
    if st.buf.length < data then throw .fault
    return st.buf.take data ++ st.diskBuffer

end SiglusExtract
