/-
The patch of the bundled DLL in `HookZwAllocateVirtualMemory` (SiglusExtract.cpp, SiglusUniversalPatch.cpp). The file
of the DLL lies in memory; its entry point becomes `ret 0xc`, with a `ret` behind it to which its first export is led.
-/
import SiglusExtract.Lib.Journal
import SiglusExtract.Mp.Machine
import SiglusExtract.PeImage

namespace SiglusExtract.AlphaRom

open Bytes Lde Mem Mp PeImage

/-- A `DWORD` stored through a pointer, into memory that is there. -/
def writeDword (m : Mem UInt8) (p v : Nat) : Option (Mem UInt8) := (dword m p).map fun _ => m.write p (le32 v)

/-- `NtHeader->OptionalHeader.AddressOfEntryPoint`. -/
def addressOfEntryPoint (m : Mem UInt8) (pBuffer : Nat) : Option Nat := do
  let lfanew ← dword (fromBase m pBuffer) 0x3c
  dword (fromBase m pBuffer) (lfanew + 0x28)

/-- `pIET`, the export directory. -/
def exportDirectory (m : Mem UInt8) (pBuffer : Nat) : Option Nat := do
  let lfanew ← dword (fromBase m pBuffer) 0x3c
  let virtualAddress ← dword (fromBase m pBuffer) (lfanew + 0x78)
  getOffset m pBuffer virtualAddress

/-- The place of its `AddressOfFunctions`. -/
def functionTable (m : Mem UInt8) (pBuffer : Nat) : Option Nat := do
  let pIET ← exportDirectory m pBuffer
  let addressOfFunctions ← dword (fromBase m pIET) 0x1c
  getOffset m pBuffer addressOfFunctions

/-- What is written to the entry point. -/
def retCode : Nat := 0xC3000CC2

/-- The patch of the file at `pBuffer`. -/
def patchImage (m : Mem UInt8) (pBuffer : Nat) : Option (Mem UInt8) := do
  let entry ← addressOfEntryPoint m pBuffer
  let pEntryPoint ← getOffset m pBuffer entry
  let pFunctions ← functionTable m pBuffer
  let m ← writeDword m pFunctions (entry + 3)
  writeDword m pEntryPoint retCode

/-! ## What is read of the headers -/

variable {m m' : Mem UInt8} {pBuffer lfanew n : Nat}

/-- The offset behind the headers of `n` sections. -/
def headersEnd (lfanew n : Nat) : Nat := sizeofNtHeaders32 + lfanew + n * sizeofSectionHeader

/-- The headers of the file in two memories. -/
structure SameHeaders (m m' : Mem UInt8) (pBuffer lfanew n : Nat) : Prop where
  start : dword (fromBase m pBuffer) 0x3c = some lfanew
  count : word (fromBase m pBuffer) (lfanew + 6) = some n
  same : ∀ off < headersEnd lfanew n, fromBase m' pBuffer off = fromBase m pBuffer off

theorem readHeader_congr {p : Nat} (h : ∀ k < sizeofSectionHeader, m' (p + k) = m (p + k)) :
    readHeader m' p = readHeader m p := by
  rw [readHeader, readHeader, Mem.mapM_congr fun k hk => h k (List.mem_range.1 hk)]

theorem SameHeaders.dword_eq (h : SameHeaders m m' pBuffer lfanew n) {off : Nat}
    (hoff : off + 4 ≤ headersEnd lfanew n) : dword (fromBase m' pBuffer) off = dword (fromBase m pBuffer) off :=
  dword_congr fun k hk => h.same _ (by omega)

theorem SameHeaders.start' (h : SameHeaders m m' pBuffer lfanew n) :
    dword (fromBase m' pBuffer) 0x3c = some lfanew := by
  rw [← h.start]
  refine h.dword_eq ?_
  rw [headersEnd, sizeofNtHeaders32]
  omega

theorem SameHeaders.readTable_eq (h : SameHeaders m m' pBuffer lfanew n) :
    readTable (fromBase m' pBuffer) = readTable (fromBase m pBuffer) := by
  have hcount : word (fromBase m' pBuffer) (lfanew + 6) = word (fromBase m pBuffer) (lfanew + 6) := by
    refine word_congr fun k hk => h.same _ ?_
    rw [headersEnd, sizeofNtHeaders32]
    omega
  have hrows : (List.range n).mapM (fun i => readHeader (fromBase m' pBuffer)
        (sizeofNtHeaders32 + lfanew + i * sizeofSectionHeader)) =
      (List.range n).mapM fun i => readHeader (fromBase m pBuffer)
        (sizeofNtHeaders32 + lfanew + i * sizeofSectionHeader) := by
    refine Mem.mapM_congr fun i hi => readHeader_congr fun k hk => h.same _ ?_
    have := List.mem_range.1 hi
    unfold headersEnd sizeofSectionHeader at *
    omega
  rw [readTable, readTable, h.start, h.start', Option.bind_eq_bind, Option.bind_some, Option.bind_some,
    hcount, h.count, Option.bind_some, Option.bind_some, hrows]

/-- The patch of another place of the file does not disturb the search. -/
theorem SameHeaders.getOffset_eq (h : SameHeaders m m' pBuffer lfanew n) (v : Nat) :
    getOffset m' pBuffer v = getOffset m pBuffer v := by
  rw [getOffset, getOffset, h.readTable_eq]

theorem SameHeaders.addressOfEntryPoint_eq (h : SameHeaders m m' pBuffer lfanew n) :
    addressOfEntryPoint m' pBuffer = addressOfEntryPoint m pBuffer := by
  rw [addressOfEntryPoint, addressOfEntryPoint, h.start, h.start', Option.bind_eq_bind,
    Option.bind_some, Option.bind_some]
  refine h.dword_eq ?_
  rw [headersEnd, sizeofNtHeaders32]
  omega

theorem SameHeaders.exportDirectory_eq (h : SameHeaders m m' pBuffer lfanew n) :
    exportDirectory m' pBuffer = exportDirectory m pBuffer := by
  have hread : dword (fromBase m' pBuffer) (lfanew + 0x78) = dword (fromBase m pBuffer) (lfanew + 0x78) := by
    refine h.dword_eq ?_
    rw [headersEnd, sizeofNtHeaders32]
    omega
  simp only [exportDirectory, h.start, h.start', Option.bind_eq_bind, Option.bind_some, hread, h.getOffset_eq]

/-! ## The patch -/

/-- A DLL with an entry point and exports. Its headers, the four bytes of code at the entry point, the export directory
and the first of the functions lie apart, and the code lies in one section. -/
structure Patchable (m : Mem UInt8) (pBuffer entry pEntryPoint pIET pFunctions : Nat) : Prop where
  header_lt : entry + 3 < 2 ^ 32
  header : addressOfEntryPoint m pBuffer = some entry
  code : getOffset m pBuffer entry = some pEntryPoint
  code_end : getOffset m pBuffer (entry + 3) = some (pEntryPoint + 3)
  directory : exportDirectory m pBuffer = some pIET
  directory_lt : pIET + 0x20 ≤ 2 ^ 32
  table : functionTable m pBuffer = some pFunctions
  readable : (dword m pEntryPoint).isSome ∧ (dword m pFunctions).isSome
  headers : ∃ lfanew n, dword (fromBase m pBuffer) 0x3c = some lfanew ∧
    word (fromBase m pBuffer) (lfanew + 6) = some n ∧ pBuffer + headersEnd lfanew n ≤ pEntryPoint ∧
      pBuffer + headersEnd lfanew n ≤ pFunctions
  apart : Apart pFunctions 4 pEntryPoint 4
  directory_apart : Apart pFunctions 4 (pIET + 0x1c) 4 ∧ Apart pEntryPoint 4 (pIET + 0x1c) 4

theorem getOffset_lt {v p : Nat} (h : getOffset m pBuffer v = some p) : p < 2 ^ 32 := by
  rw [getOffset, Option.bind_eq_bind, Option.bind_eq_some_iff] at h
  obtain ⟨sections, -, h⟩ := h
  rw [Option.pure_def, Option.some.injEq] at h
  omega

/-- The first export, found as a loader of the file finds it. -/
def firstExport (m : Mem UInt8) (pBuffer : Nat) : Option Nat := do
  let pFunctions ← functionTable m pBuffer
  let function ← dword m pFunctions
  getOffset m pBuffer function

/-- The entry point in the file. -/
def entryPoint (m : Mem UInt8) (pBuffer : Nat) : Option Nat := do
  let entry ← addressOfEntryPoint m pBuffer
  getOffset m pBuffer entry

theorem fetch_ret {p : Nat} (h : m.Holds p (le32 retCode)) :
    fetch m p = some [0xC2, 0x0C, 0x00] ∧ fetch m (p + 3) = some [0xC3] := by
  have h : m.Holds p ([0xC2, 0x0C, 0x00] ++ [0xC3]) := h
  rw [Mem.holds_append] at h
  have hfirst (b : UInt8) (bytes : List UInt8) (q : Nat) (hq : m.Holds q (b :: bytes)) :
      m.Holds q (Opcode.one b).bytes := Mem.holds_cons.2 ⟨(Mem.holds_cons.1 hq).1, Mem.holds_nil m _⟩
  constructor
  · exact fetch_eq_some.2 ⟨lde_plain (one_ok (by decide) (by decide)) (by decide) (hfirst _ _ _ h.1), h.1⟩
  · exact fetch_eq_some.2 ⟨lde_plain (one_ok (by decide) (by decide)) (by decide) (hfirst _ _ _ h.2), h.2⟩

section Patch

variable {entry pEntryPoint pIET pFunctions : Nat}

/-- The memory with both stores. -/
def patched (m : Mem UInt8) (entry pEntryPoint pFunctions : Nat) : Mem UInt8 :=
  (m.write pFunctions (le32 (entry + 3))).write pEntryPoint (le32 retCode)

theorem patched_outside {a : Nat} (ha : ¬ Within pEntryPoint 4 a) (ha' : ¬ Within pFunctions 4 a) :
    patched m entry pEntryPoint pFunctions a = m a := by
  rw [patched, write_outside (l := le32 retCode) ha, write_outside (l := le32 (entry + 3)) ha']

variable (h : Patchable m pBuffer entry pEntryPoint pIET pFunctions)
include h

theorem Patchable.patchImage_eq : patchImage m pBuffer = some (patched m entry pEntryPoint pFunctions) := by
  obtain ⟨_, hcode⟩ := Option.isSome_iff_exists.1 h.readable.1
  obtain ⟨_, htable⟩ := Option.isSome_iff_exists.1 h.readable.2
  have hcode' : dword (m.write pFunctions (le32 (entry + 3))) pEntryPoint = dword m pEntryPoint := by
    refine dword_congr fun k hk => write_outside ?_
    rintro ⟨hle, hgt⟩
    rw [le32_length] at hgt
    rcases h.apart with ha | ha <;> omega
  simp only [patchImage, h.header, h.code, h.table, writeDword, htable, hcode', hcode, Option.bind_eq_bind,
    Option.bind_some, Option.map_some]
  rfl

/-- The stores are behind the headers. -/
theorem Patchable.sameHeaders :
    ∃ lfanew n, SameHeaders m (patched m entry pEntryPoint pFunctions) pBuffer lfanew n := by
  obtain ⟨lfanew, n, hlfanew, hn, hbelow, hbelow'⟩ := h.headers
  have hlt := getOffset_lt h.code
  refine ⟨lfanew, n, hlfanew, hn, fun off hoff => ?_⟩
  show patched m entry pEntryPoint pFunctions ((pBuffer + off) % 2 ^ 32) = m ((pBuffer + off) % 2 ^ 32)
  rw [Nat.mod_eq_of_lt (by omega)]
  exact patched_outside (fun hin => by omega) fun hin => by omega

/-- The export directory still leads to the table. -/
theorem Patchable.functionTable_eq :
    functionTable (patched m entry pEntryPoint pFunctions) pBuffer = some pFunctions := by
  obtain ⟨lfanew, n, hsame⟩ := h.sameHeaders
  have hdir : dword (fromBase (patched m entry pEntryPoint pFunctions) pIET) 0x1c = dword (fromBase m pIET) 0x1c := by
    refine dword_congr fun k hk => ?_
    have := h.directory_lt
    show patched m entry pEntryPoint pFunctions ((pIET + (0x1c + k)) % 2 ^ 32) = m ((pIET + (0x1c + k)) % 2 ^ 32)
    rw [Nat.mod_eq_of_lt (by omega)]
    refine patched_outside (fun hin => ?_) fun hin => ?_
    · rcases h.directory_apart.2 with ha | ha <;> omega
    · rcases h.directory_apart.1 with ha | ha <;> omega
  rw [← h.table, functionTable, functionTable, hsame.exportDirectory_eq, h.directory, Option.bind_eq_bind,
    Option.bind_some, Option.bind_some, hdir]
  exact congrArg _ (funext hsame.getOffset_eq)

theorem Patchable.entryPoint_eq :
    entryPoint (patched m entry pEntryPoint pFunctions) pBuffer = some pEntryPoint := by
  obtain ⟨lfanew, n, hsame⟩ := h.sameHeaders
  rw [entryPoint, hsame.addressOfEntryPoint_eq, h.header, Option.bind_eq_bind, Option.bind_some, hsame.getOffset_eq,
    h.code]

theorem Patchable.firstExport_eq :
    firstExport (patched m entry pEntryPoint pFunctions) pBuffer = some (pEntryPoint + 3) := by
  obtain ⟨lfanew, n, hsame⟩ := h.sameHeaders
  have hfunction : dword (patched m entry pEntryPoint pFunctions) pFunctions = some (entry + 3) :=
    dword_of_holds (Holds.write (holds_write m pFunctions (le32 (entry + 3))) h.apart.symm) h.header_lt
  rw [firstExport, h.functionTable_eq, Option.bind_eq_bind, Option.bind_some, hfunction, Option.bind_some,
    hsame.getOffset_eq, h.code_end]

/-- The patched DLL returns from its entry point and from its first export at once; nothing else of it has changed. -/
theorem patchImage_returns :
    ∃ m', patchImage m pBuffer = some m' ∧
      (∃ p, entryPoint m' pBuffer = some p ∧ fetch m' p = some [0xC2, 0x0C, 0x00]) ∧
      (∃ p, firstExport m' pBuffer = some p ∧ fetch m' p = some [0xC3]) ∧
      ∀ a, ¬ Within pEntryPoint 4 a → ¬ Within pFunctions 4 a → m' a = m a := by
  obtain ⟨hret, hret'⟩ := fetch_ret (holds_write (m.write pFunctions (le32 (entry + 3))) pEntryPoint (le32 retCode))
  exact ⟨_, h.patchImage_eq, ⟨_, h.entryPoint_eq, hret⟩, ⟨_, h.firstExport_eq, hret'⟩,
    fun a ha ha' => patched_outside ha ha'⟩

end Patch

/-- A DLL with one section: the entry point at its start, then the export directory and the table of functions. -/
def sampleDll : Mem UInt8 :=
  let zeros : Mem UInt8 := fun a => if a < 0x400300 then some 0 else none
  let headers := ((zeros.write 0x40003c (le32 0x40)).write 0x400046 (le16 1)).write 0x400068 (le32 0x1000)
  let sections := (headers.write 0x4000b8 (le32 0x1010)).write 0x400144 (le32 0x1000 ++ le32 0x100 ++ le32 0x200)
  sections.write 0x40022c (le32 0x1040)

theorem sampleDll_patchable : Patchable sampleDll 0x400000 0x1000 0x400200 0x400210 0x400240 where
  header_lt := by decide
  header := by decide +kernel
  code := by decide +kernel
  code_end := by decide +kernel
  directory := by decide +kernel
  directory_lt := by decide
  table := by decide +kernel
  readable := by decide +kernel
  headers := ⟨0x40, 1, by decide +kernel, by decide +kernel, by decide, by decide⟩
  apart := by decide
  directory_apart := by decide

theorem patchImage_returns_sampleDll :
    ∃ m', patchImage sampleDll 0x400000 = some m' ∧
      (∃ p, entryPoint m' 0x400000 = some p ∧ fetch m' p = some [0xC2, 0x0C, 0x00]) ∧
      (∃ p, firstExport m' 0x400000 = some p ∧ fetch m' p = some [0xC3]) ∧
      ∀ a, ¬ Within 0x400200 4 a → ¬ Within 0x400240 4 a → m' a = sampleDll a :=
  patchImage_returns sampleDll_patchable

end SiglusExtract.AlphaRom
