/-
The string table of a script and `UnpackScene::ExtractText`, which writes the strings to a text file
for the translator.
-/
import SiglusExtract.Lib.Wide
import SiglusExtract.Tool

namespace SiglusExtract

open Bytes Wide

/-! ## String tables -/

/-- Where `SCENEHEADERV2` keeps the place of the string index and of the strings. -/
def stringIndexPair : Nat := 12

def stringDataPair : Nat := 20

/-- An entry of the string index: the place of a string and its length, both in units. -/
structure FileInfo where
  offset : Nat
  length : Nat
  deriving DecidableEq, Repr

/-- The entry `x` of the string index at `index`. Addresses are 32 bits wide. -/
def fileInfo (m : Mem UInt8) (index x : Nat) : Option FileInfo := do
  let offset ← dword m ((index + 8 * x) % 2 ^ 32)
  let length ← dword m ((index + 8 * x) % 2 ^ 32 + 4)
  return ⟨offset, length⟩

/-- `decrypt_string`: the key is multiplied by `0x7087` and its low 16 bits go into every unit. -/
def decryptString (str : WString) (key : Nat) : WString := str.map (· ^^^ UInt16.ofNat (key * 0x7087))

@[simp] theorem decryptString_length (str : WString) (key : Nat) : (decryptString str key).length = str.length :=
  List.length_map _

theorem decryptString_decryptString (str : WString) (key : Nat) :
    decryptString (decryptString str key) key = str := by
  rw [decryptString, decryptString, List.map_map]
  conv => rhs; rw [← List.map_id str]
  congr 1
  funext u
  show u ^^^ _ ^^^ _ = u
  rw [UInt16.xor_assoc, UInt16.xor_self, UInt16.xor_zero]

/-- The string of an entry, as `ExtractText` restores it. From `2^29` units on the size of `new_str`,
four bytes a unit, is refused or wraps around, and the loops run out of the buffer. -/
def scriptString (ssDecode : SSDecode) (m : Mem UInt8) (data x : Nat) (info : FileInfo) : Option WString :=
  if 2 ^ 29 ≤ info.length then none
  else do
    let infoStr ← units m ((data + 2 * info.offset) % 2 ^ 32) info.length
    return match ssDecode with
      | .ssV1 => infoStr
      | .ssV2 => decryptString infoStr x

/-! ## ExtractText -/

/-- The loop of `ExtractText` over `count` entries, from entry `x` on. -/
def extractLoop (ssDecode : SSDecode) (m : Mem UInt8) (index data : Nat) : Nat → Nat → Option (List WString)
  | _, 0 => some []
  | x, count + 1 => do
    let info ← fileInfo m index x
    let newStr ← scriptString ssDecode m data x info
    let rest ← extractLoop ssDecode m index data (x + 1) count
    return newStr :: rest

/-- The text file of a list of strings: the byte order mark, then each string and a line break. -/
def textFile (strings : List WString) : List UInt8 :=
  [0xff, 0xfe] ++ strings.flatMap fun str => bytes str ++ bytes [13, 10]

/-- `ExtractText` on the script in `buffer`, which is all the memory there is: the text file it writes,
if the file could be created, or a fault. -/
def extractText (created : Bool) (ssDecode : SSDecode) (buffer : List UInt8) : Option (Option (List UInt8)) := do
  let m := Mem.ofList buffer
  let index ← dword m stringIndexPair
  let data ← dword m stringDataPair
  if created then do
    let count ← dword m (stringIndexPair + 4)
    let strings ← extractLoop ssDecode m index data 0 count
    return some (textFile strings)
  else return none

end SiglusExtract
