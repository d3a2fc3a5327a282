/-
`EATLookupRoutineByHashPNoFix` with `IsValidImage` and `HashAPI` (my.cpp): an export of an image is looked up by a hash
of its name. The table of a 32-bit image is found as its directory says.
-/
import SiglusExtract.Lib.Journal
import SiglusExtract.PeImage

namespace SiglusExtract.ExportTable

open Bytes PeImage

/-! ## The hash -/

/-- A round of `HashAPI`. -/
def hashStep (hash : UInt32) (c : UInt8) : UInt32 := (hash <<< 13 ||| hash >>> 19) ^^^ c.toUInt32

/-- `HashAPI` from `pszName` on; the NUL is among so many bytes. -/
def hashLoop (image : Mem UInt8) : Nat → UInt32 → Nat → Option UInt32
  | 0, _, _ => none
  | fuel + 1, hash, pszName => (image pszName).bind fun c =>
    if c = 0 then some hash else hashLoop image fuel (hashStep hash c) (pszName + 1)

/-- `HashAPI`. -/
def hashApi (image : Mem UInt8) (pszName : Nat) : Option UInt32 := hashLoop image (2 ^ 32) 0 pszName

/-! ## The image -/

/-- `ValidateDataDirectory`. -/
def validateDataDirectory (virtualAddress size sizeOfImage : Nat) : Bool :=
  size ≠ 0 ∧ virtualAddress + size ≤ 0xFFFFFFFF ∧ virtualAddress ≤ sizeOfImage ∧ virtualAddress + size ≤ sizeOfImage

/-- `DataDirectory` by the magic of the optional header, if it has one of the two. -/
def dataDirectory (lfanew magic : Nat) : Option Nat :=
  if magic = 0x10B then some (lfanew + 120) else if magic = 0x20B then some (lfanew + 136) else none

/-- `IsValidImage` with `IMAGE_VALID_EXPORT_ADDRESS_TABLE`. -/
def isValidImage (image : Mem UInt8) : Option Bool := do
  let dosMagic ← word image 0
  if dosMagic ≠ 0x5A4D then return false
  let lfanew ← dword image 0x3C
  let signature ← dword image lfanew
  if signature ≠ 0x4550 then return false
  let magic ← word image (lfanew + 24)
  match dataDirectory lfanew magic with
  | none => return false
  | some directory =>
    let sizeOfImage ← dword image (lfanew + 80)
    let virtualAddress ← dword image directory
    let size ← dword image (directory + 4)
    if !validateDataDirectory virtualAddress size sizeOfImage then return false
    let addressOfFunctions ← dword image (virtualAddress + 28)
    return addressOfFunctions < sizeOfImage

/-! ## The lookup -/

/-- The loop over the names, with so many rounds left: the entry of the table of ordinals, if there is one. -/
def lookupLoop (image : Mem UInt8) (hash : UInt32) : Nat → Nat → Nat → Option (Option Nat)
  | 0, _, _ => some none
  | n + 1, addressOfNames, addressOfNameOrdinals => do
    let name ← dword image addressOfNames
    let found ← hashApi image name
    if found = hash then (word image addressOfNameOrdinals).map some
    else lookupLoop image hash n (addressOfNames + 4) (addressOfNameOrdinals + 2)

/-- The rounds of `do … while (--NumberOfNames)`. -/
def rounds (numberOfNames : Nat) : Nat := if numberOfNames = 0 then 2 ^ 32 else numberOfNames

/-- The export directory and the loop, with the factors of the pointer arithmetic. -/
def lookupExport (image : Mem UInt8) (hash : UInt32) (directory dwords words : Nat) : Option (Option Nat) := do
  let exports ← dword image directory
  let numberOfNames ← dword image (exports + 24)
  let addressOfFunctions ← dword image (exports + 28)
  let addressOfNames ← dword image (exports + 32)
  let addressOfNameOrdinals ← dword image (exports + 36)
  let ordinal ← lookupLoop image hash (rounds numberOfNames) (dwords * addressOfNames) (words * addressOfNameOrdinals)
  return ordinal.map fun i => dwords * addressOfFunctions + 4 * i

/-- `EATLookupRoutineByHashNoFix64`, that adds to pointers to integers. -/
def eatLookupRoutineByHashNoFix64 (image : Mem UInt8) (hash : UInt32) : Option (Option Nat) := do
  let valid ← if hash = 0 then some true else isValidImage image
  if !valid then return none
  let lfanew ← dword image 0x3C
  if hash = 0 then return some (lfanew + 40)
  lookupExport image hash (lfanew + 136) 4 2

/-- `EATLookupRoutineByHashNoFix`: where the RVA of the routine stands in the image, or a null pointer. -/
def eatLookupRoutineByHashNoFix (image : Mem UInt8) (hash : UInt32) : Option (Option Nat) := do
  let valid ← if hash = 0 then some true else isValidImage image
  if !valid then return none
  let lfanew ← dword image 0x3C
  let magic ← word image (lfanew + 24)
  if magic = 0x20B then eatLookupRoutineByHashNoFix64 image hash
  else if hash = 0 then return some (lfanew + 40)
  else lookupExport image hash (lfanew + 120) 1 1

/-- `EATLookupRoutineByHashPNoFix`: the address of the routine, or a null pointer. -/
def eatLookupRoutineByHashPNoFix (mem : Mem UInt8) (imageBase : Nat) (hash : UInt32) : Option (Option Nat) := do
  let image := fromBase mem imageBase
  match ← eatLookupRoutineByHashNoFix image hash with
  | none => return none
  | some pointer =>
    let rva ← dword image pointer
    return some ((imageBase + rva) % 2 ^ 32)

/-! ## Images with exports -/

/-- A named export: its name, where that stands, and its place in the table of functions. -/
structure Export where
  name : List UInt8
  nameRva : Nat
  ordinal : Nat

/-- What the headers say of the exports, and the exports: those with names, and the RVAs of all. -/
structure Exports where
  lfanew : Nat
  sizeOfImage : Nat
  directory : Nat
  size : Nat
  addressOfFunctions : Nat
  addressOfNames : Nat
  addressOfNameOrdinals : Nat
  names : List Export
  functions : List Nat
  size_pos : 0 < size
  size_le : directory + size ≤ sizeOfImage
  functions_lt : addressOfFunctions < sizeOfImage
  names_nul : ∀ e ∈ names, 0 ∉ e.name ∧ e.name.length < 2 ^ 32
  ordinals : ∀ e ∈ names, e.ordinal < functions.length

/-- The name of entry `e` and its ordinal stand in the tables at these places. -/
structure Export.Stands (image : Mem UInt8) (namesAt ordinalsAt : Nat) (e : Export) : Prop where
  pointer : dword image namesAt = some e.nameRva
  string : image.Holds e.nameRva (e.name ++ [0])
  index : word image ordinalsAt = some e.ordinal

/-- A 32-bit image lies in the memory. -/
structure Exports.Loaded (image : Mem UInt8) (t : Exports) : Prop where
  dosMagic : word image 0 = some 0x5A4D
  header : dword image 0x3C = some t.lfanew
  signature : dword image t.lfanew = some 0x4550
  magic : word image (t.lfanew + 24) = some 0x10B
  imageSize : dword image (t.lfanew + 80) = some t.sizeOfImage
  exports : dword image (t.lfanew + 120) = some t.directory
  exportSize : dword image (t.lfanew + 124) = some t.size
  count : dword image (t.directory + 24) = some t.names.length
  functionsAt : dword image (t.directory + 28) = some t.addressOfFunctions
  namesAt : dword image (t.directory + 32) = some t.addressOfNames
  ordinalsAt : dword image (t.directory + 36) = some t.addressOfNameOrdinals
  stands : ∀ i (hi : i < t.names.length),
    t.names[i].Stands image (t.addressOfNames + 4 * i) (t.addressOfNameOrdinals + 2 * i)
  rvas : ∀ i (hi : i < t.functions.length), dword image (t.addressOfFunctions + 4 * i) = some t.functions[i]

/-- The RVA of the export with that name. -/
def Exports.lookup (t : Exports) (name : List UInt8) : Option Nat :=
  (t.names.find? fun e => e.name = name).bind fun e => t.functions[e.ordinal]?

/-- The hash of a name. -/
def hashName (name : List UInt8) : UInt32 := name.foldl hashStep 0

section Lookup

variable {image : Mem UInt8} {t : Exports}

theorem hashLoop_of_holds : ∀ {name : List UInt8} {fuel : Nat} {hash : UInt32} {p : Nat}, 0 ∉ name →
    name.length < fuel → image.Holds p (name ++ [0]) → hashLoop image fuel hash p = some (name.foldl hashStep hash)
  | [], fuel + 1, hash, p, _, _, h => by
    rw [hashLoop, (Mem.holds_cons.1 h).1, Option.bind_some, if_pos rfl]
    rfl
  | c :: name, fuel + 1, hash, p, hnul, hfuel, h => by
    rw [List.mem_cons, not_or] at hnul
    rw [List.cons_append, Mem.holds_cons] at h
    rw [hashLoop, h.1, Option.bind_some, if_neg (Ne.symm hnul.1),
      hashLoop_of_holds hnul.2 (Nat.lt_of_succ_lt_succ hfuel) h.2]
    rfl

theorem hashApi_of_holds {name : List UInt8} {p : Nat} (hnul : 0 ∉ name) (hlen : name.length < 2 ^ 32)
    (h : image.Holds p (name ++ [0])) : hashApi image p = some (hashName name) :=
  hashLoop_of_holds hnul hlen h

theorem isValidImage_of_loaded (h : t.Loaded image) : isValidImage image = some true := by
  have himage : t.sizeOfImage < 2 ^ 32 := dword_lt h.imageSize
  have hsize := t.size_le
  have hdir : validateDataDirectory t.directory t.size t.sizeOfImage = true :=
    decide_eq_true ⟨Nat.pos_iff_ne_zero.1 t.size_pos, by omega, by omega, by omega⟩
  simp [isValidImage, dataDirectory, h.dosMagic, h.header, h.signature, h.magic, h.imageSize, h.exports, h.exportSize,
    h.functionsAt, hdir, t.functions_lt]

/-- The loop finds the first name with the hash. -/
theorem lookupLoop_eq (hash : UInt32) : ∀ {names : List Export} {p q : Nat},
    (∀ e ∈ names, 0 ∉ e.name ∧ e.name.length < 2 ^ 32) →
    (∀ i (hi : i < names.length), names[i].Stands image (p + 4 * i) (q + 2 * i)) →
    lookupLoop image hash names.length p q =
      some ((names.find? fun e => hashName e.name = hash).map Export.ordinal)
  | [], _, _, _, _ => rfl
  | e :: names, p, q, hnul, h => by
    rw [List.forall_mem_cons] at hnul
    have hhere : e.Stands image p q := h 0 (Nat.zero_lt_succ _)
    have hrest (i : Nat) (hi : i < names.length) : names[i].Stands image (p + 4 + 4 * i) (q + 2 + 2 * i) := by
      have := h (i + 1) (Nat.succ_lt_succ hi)
      rwa [Nat.mul_succ, Nat.mul_succ, Nat.add_comm (4 * i), Nat.add_comm (2 * i), ← Nat.add_assoc,
        ← Nat.add_assoc] at this
    rw [List.length_cons, lookupLoop, hhere.pointer]
    simp only [Option.bind_eq_bind, Option.bind_some, hashApi_of_holds hnul.1.1 hnul.1.2 hhere.string]
    let hashed (e : Export) : Bool := hashName e.name = hash
    by_cases hhash : hashName e.name = hash
    · rw [if_pos hhash, hhere.index, List.find?_cons_of_pos (p := hashed) (decide_eq_true hhash)]
      rfl
    · rw [if_neg hhash, List.find?_cons_of_neg (p := hashed) (by rwa [decide_eq_true_eq]),
        lookupLoop_eq hash hnul.2 hrest]

/-- The routine of the first name with the hash. -/
theorem eatLookupRoutineByHashPNoFix_eq {mem : Mem UInt8} {imageBase : Nat} (h : t.Loaded (fromBase mem imageBase))
    (hnames : t.names ≠ []) {hash : UInt32} (hhash : hash ≠ 0) :
    eatLookupRoutineByHashPNoFix mem imageBase hash =
      some (((t.names.find? fun e => hashName e.name = hash).bind fun e => t.functions[e.ordinal]?).map fun rva =>
        (imageBase + rva) % 2 ^ 32) := by
  have hrounds : rounds t.names.length = t.names.length := if_neg fun hzero => hnames (List.length_eq_zero_iff.1 hzero)
  have hpointer : eatLookupRoutineByHashNoFix (fromBase mem imageBase) hash =
      some ((t.names.find? fun e => hashName e.name = hash).map fun e => t.addressOfFunctions + 4 * e.ordinal) := by
    simp [eatLookupRoutineByHashNoFix, lookupExport, hhash, isValidImage_of_loaded h, h.header, h.magic, h.exports,
      h.count, h.functionsAt, h.namesAt, h.ordinalsAt, hrounds, lookupLoop_eq hash t.names_nul h.stands,
      Function.comp_def]
  rw [eatLookupRoutineByHashPNoFix, hpointer]
  cases hfind : t.names.find? fun e => hashName e.name = hash with
  | none => rfl
  | some e =>
    have hlt := t.ordinals e (List.mem_of_find?_eq_some hfind)
    simp [h.rvas e.ordinal hlt, List.getElem?_eq_getElem hlt]

/-- An exported routine is found by the hash of its name, and a null pointer for a name that is not exported, unless
another name has the hash. -/
theorem eatLookupRoutineByHashPNoFix_name {mem : Mem UInt8} {imageBase : Nat} (h : t.Loaded (fromBase mem imageBase))
    (hnames : t.names ≠ []) {name : List UInt8} (hhash : hashName name ≠ 0)
    (halone : ∀ e ∈ t.names, hashName e.name = hashName name → e.name = name) :
    eatLookupRoutineByHashPNoFix mem imageBase (hashName name) =
      some ((t.lookup name).map fun rva => (imageBase + rva) % 2 ^ 32) := by
  have hfind : (t.names.find? fun e => hashName e.name = hashName name) = t.names.find? fun e => e.name = name :=
    List.find?_congr fun e he => decide_eq_decide.2 ⟨halone e he, fun heq => heq ▸ rfl⟩
  rw [eatLookupRoutineByHashPNoFix_eq h hnames hhash, hfind, Exports.lookup]

/-- An image that exports "Ab" and "B". -/
def sampleImage : Mem UInt8 :=
  let zeros : Mem UInt8 := fun a => if 0x10000 ≤ a ∧ a < 0x10200 then some 0 else none
  let headers := ((zeros.write 0x10000 (le16 0x5A4D)).write 0x1003C (le32 0x40)).write 0x10040 (le32 0x4550)
  let optional := (headers.write 0x10058 (le16 0x10B)).write 0x10090 (le32 0x200)
  let directories := optional.write 0x100B8 (le32 0x100 ++ le32 0x28)
  let exports := directories.write 0x10118 (le32 2 ++ le32 0x128 ++ le32 0x134 ++ le32 0x13C)
  exports.write 0x10128 (le32 0x180 ++ le32 0x190 ++ le32 0x1A0 ++ (le32 0x140 ++ le32 0x143) ++ (le16 2 ++ le16 0) ++
    ([65, 98, 0] ++ [66, 0]))

/-- Its exports. -/
def sampleExports : Exports where
  lfanew := 0x40
  sizeOfImage := 0x200
  directory := 0x100
  size := 0x28
  addressOfFunctions := 0x128
  addressOfNames := 0x134
  addressOfNameOrdinals := 0x13C
  names := [⟨[65, 98], 0x140, 2⟩, ⟨[66], 0x143, 0⟩]
  functions := [0x180, 0x190, 0x1A0]
  size_pos := by decide
  size_le := by decide
  functions_lt := by decide
  names_nul := by decide
  ordinals := by decide

theorem stands_Ab : Export.Stands (fromBase sampleImage 0x10000) 0x134 0x13C ⟨[65, 98], 0x140, 2⟩ :=
  ⟨by decide +kernel, by decide +kernel, by decide +kernel⟩

theorem stands_B : Export.Stands (fromBase sampleImage 0x10000) 0x138 0x13E ⟨[66], 0x143, 0⟩ :=
  ⟨by decide +kernel, by decide +kernel, by decide +kernel⟩

theorem sampleExports_loaded : sampleExports.Loaded (fromBase sampleImage 0x10000) where
  dosMagic := by decide +kernel
  header := by decide +kernel
  signature := by decide +kernel
  magic := by decide +kernel
  imageSize := by decide +kernel
  exports := by decide +kernel
  exportSize := by decide +kernel
  count := by decide +kernel
  functionsAt := by decide +kernel
  namesAt := by decide +kernel
  ordinalsAt := by decide +kernel
  stands
    | 0, _ => stands_Ab
    | 1, _ => stands_B
  rvas := by decide +kernel

theorem eatLookupRoutineByHashPNoFix_name_sample :
    eatLookupRoutineByHashPNoFix sampleImage 0x10000 (hashName [65, 98]) =
      some ((sampleExports.lookup [65, 98]).map fun rva => (0x10000 + rva) % 2 ^ 32) :=
  eatLookupRoutineByHashPNoFix_name sampleExports_loaded (by decide) (by decide) (by decide)

end Lookup

/-- `NTDLL_LdrLoadDll`. -/
example : hashName [76, 100, 114, 76, 111, 97, 100, 68, 108, 108] = 0x8F8ED6B0 := by decide

end SiglusExtract.ExportTable
