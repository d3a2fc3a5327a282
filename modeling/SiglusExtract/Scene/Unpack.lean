/-
`UnpackScene::Unpack` (UnpackScene.h): writes the scripts of a `Scene.pck` to files, and the text of
each beside it.
-/
import SiglusExtract.Lzss.Asm
import SiglusExtract.Scene.Pack
import SiglusExtract.Script.Text

namespace SiglusExtract

open Lz Bytes Lzss Xor Wide Patch

namespace UnpackScene

/-- What a run leaves behind: the script files and the text files in the order they were written, and
how the run stopped where it did not return `STATUS_SUCCESS`. -/
structure Run where
  scripts : List (WString × List UInt8)
  texts : List (WString × List UInt8)
  stop : Option Failure
  deriving DecidableEq, Repr

/-- A step of a run: what is in the files already stays there when the step fails. -/
def Run.andThen {α : Type} (step : Except Failure α) (rest : α → Run) : Run :=
  match step with
  | .ok a => rest a
  | .error e => ⟨[], [], some e⟩

/-- A pass over `n` bytes of a buffer in place. -/
def inPlace (pass : List UInt8 → Nat → Option (List UInt8)) (buffer : List UInt8) (p n : Nat) :
    Option (List UInt8) :=
  if p + n ≤ buffer.length then do
    let bytes ← pass ((buffer.drop p).take n) n
    patch buffer p bytes
  else none

/-- The two passes of `Unpack` over the `n` bytes of a script. -/
def decryptScript (code : DecodeControl) (buffer : List UInt8) (p n : Nat) : Option (List UInt8) :=
  (if code.pckNeedKey then inPlace (fun debuf desize => decrypt1 debuf desize code.privateKey) buffer p n
    else some buffer).bind fun buffer => inPlace decrypt2 buffer p n

/-- The name and the bytes of script `i`, and the buffer after it has been decrypted in place. -/
def readScript (code : DecodeControl) (nameIndex name info data i : Nat) (buffer : List UInt8) :
    Except Failure (WString × List UInt8 × List UInt8) := do
  let m := Mem.ofList buffer
  let entry ← orFault (headerPair m nameIndex i)
  if 2 * maxPath < 2 * entry.count % 2 ^ 32 then throw .fault
  let scriptName ← orFault (units m ((name + 2 * entry.offset) % 2 ^ 32) (2 * entry.count % 2 ^ 32 / 2))
  let scriptName ← orFault (nameBuffer (scriptName.takeWhile (· ≠ 0)))
  let outScriptFileName ← orFault (nameBuffer (scriptFileName i scriptName))
  let range ← orFault (headerPair m info i)
  let p := (data + range.offset) % 2 ^ 32
  let buffer ← orFault (decryptScript code buffer p range.count)
  let m := Mem.ofList buffer
  let _ ← orFault (dword m p)
  let decompSize ← orFault (dword m (p + 4))
  heapAlloc decompSize
  let decompressBuf ← orFault (decompressData (fun k => m (p + 8 + k)) (.cells decompSize fun _ => 0) decompSize)
  return (outScriptFileName, decompressBuf, buffer)

/-- The name of the text file of a script. -/
def textName (file : WString) : WString := file ++ wide ".txt"

/-- The loop of `Unpack`, from script `i` on. `create` tells which files can be created; a script whose
file cannot be is passed over. -/
def unpackLoop (create : WString → Bool) (code : DecodeControl) (nameIndex name info data : Nat) :
    Nat → Nat → List UInt8 → Run
  | 0, _, _ => ⟨[], [], none⟩
  | fuel + 1, i, buffer =>
    Run.andThen (orFault (dword (Mem.ofList buffer) (SceneHeader.sceneNameIndex + 4))) fun count =>
      if i < count then
        Run.andThen (readScript code nameIndex name info data i buffer) fun (file, script, buffer) =>
          if create file then
            let run := Run.andThen (orFault (extractText (create (textName file)) code.ssDecode script)) fun text =>
              let run := unpackLoop create code nameIndex name info data fuel (i + 1) buffer
              { run with texts := (text.map fun text => (textName file, text)).toList ++ run.texts }
            { run with scripts := (file, script) :: run.scripts }
          else unpackLoop create code nameIndex name info data fuel (i + 1) buffer
      else ⟨[], [], none⟩

/-- `Unpack` on the bytes of a pack. -/
def unpack (create : WString → Bool) (code : DecodeControl) (file : List UInt8) : Run :=
  let m := Mem.ofList file
  Run.andThen (heapAlloc file.length) fun _ =>
    Run.andThen (orFault (dword m SceneHeader.sceneNameIndex)) fun nameIndex =>
      Run.andThen (orFault (dword m SceneHeader.sceneName)) fun name =>
        Run.andThen (orFault (dword m SceneHeader.sceneInfo)) fun info =>
          Run.andThen (orFault (dword m SceneHeader.sceneData)) fun data =>
            unpackLoop create code nameIndex name info data (2 ^ 32) 0 file

end UnpackScene

end SiglusExtract
