/-
The file redirection of the universal patch (SiglusUniversalPatch.cpp): `HookCreateFileW` looks the
extension of a file name up in the table `ExtensionReplacer` of the configuration and its base name in
the table `FileMapper`, and passes a name on to `StubCreateFileW`. The second stage overwrites what the
first one found, and reads the entry of the first table where it should read its own.
-/
import SiglusExtract.Lib.Behind
import SiglusExtract.Scene.Pack

namespace SiglusExtract.UniversalPatch

open Behind

/-! ## File names -/

/-- `find_last_of` for one character. -/
def findLastOf : WString → UInt16 → Option Nat
  | [], _ => none
  | a :: path, c =>
    match findLastOf path c with
    | some ptr => some (ptr + 1)
    | none => if a = c then some 0 else none

/-- `ReplaceFileNameExtension`. -/
def replaceFileNameExtension (path newExtensionName : WString) : WString :=
  match findLastOf path 46 with
  | none => path ++ newExtensionName
  | some ptr => path.take ptr ++ newExtensionName

/-- `GetFileNameAndBaseDir`: the directory down to its last backslash, and the name behind it. -/
def getFileNameAndBaseDir (path : WString) : WString × WString :=
  match findLastOf path 92 with
  | none => ([], path)
  | some ptr => (path.take (ptr + 1), path.drop (ptr + 1))

/-- `GetFileNameExtension`: without a dot it makes a string of the null pointer. -/
def getFileNameExtension (path : WString) : Option WString :=
  (findLastOf path 46).map fun ptr => path.drop (ptr + 1)

/-- `LowerString`. -/
def lowerString (path : WString) : WString := path.map fun ch => if 65 ≤ ch ∧ ch ≤ 90 then ch + 32 else ch

theorem findLastOf_isSome_iff {path : WString} {c : UInt16} : (findLastOf path c).isSome ↔ c ∈ path := by
  induction path with
  | nil => simp [findLastOf]
  | cons a path ih =>
    rw [findLastOf, List.mem_cons, ← ih]
    cases findLastOf path c with
    | none =>
      by_cases h : a = c
      · simp [h]
      · simp [h, Ne.symm h]
    | some ptr => simp

theorem findLastOf_none {path : WString} {c : UInt16} (h : c ∉ path) : findLastOf path c = none := by
  rwa [← Option.not_isSome_iff_eq_none, findLastOf_isSome_iff]

theorem findLastOf_last {pre post : WString} {c : UInt16} (h : c ∉ post) :
    findLastOf (pre ++ c :: post) c = some pre.length := by
  induction pre with
  | nil =>
    rw [List.nil_append, findLastOf, findLastOf_none h]
    exact if_pos rfl
  | cons a pre ih => rw [List.cons_append, findLastOf, ih, List.length_cons]

theorem forall_beq_iff {name : WString} {c : UInt16} : (∀ u ∈ name, (u == c) = false) ↔ c ∉ name := by
  constructor
  · exact fun h hmem => Bool.false_ne_true ((h c hmem).symm.trans (beq_self_eq_true c))
  · rintro h u hu
    rw [beq_eq_false_iff_ne]
    rintro rfl
    exact h hu

/-- A path that has the character, taken apart at the last one. -/
theorem exists_last_of {path : WString} {c : UInt16} (h : c ∈ path) :
    ∃ pre post, path = pre ++ c :: post ∧ c ∉ post := by
  obtain ⟨pre, a, post, rfl, ha, hpost⟩ := exists_last (p := (· == c)) ⟨c, h, beq_self_eq_true c⟩
  obtain rfl : a = c := eq_of_beq ha
  exact ⟨pre, post, rfl, forall_beq_iff.1 hpost⟩

section Dot

variable {pre post path : WString}

theorem getFileNameExtension_dot (h : 46 ∉ post) : getFileNameExtension (pre ++ 46 :: post) = some post := by
  rw [getFileNameExtension, findLastOf_last h, Option.map_some, ← List.singleton_append, ← List.append_assoc,
    List.drop_left' (by rw [List.length_append, List.length_singleton])]

theorem replaceFileNameExtension_dot (h : 46 ∉ post) (ext : WString) :
    replaceFileNameExtension (pre ++ 46 :: post) ext = pre ++ ext := by
  rw [replaceFileNameExtension, findLastOf_last h]
  exact congrArg (· ++ ext) List.take_left

theorem replaceFileNameExtension_none (h : 46 ∉ path) (ext : WString) :
    replaceFileNameExtension path ext = path ++ ext := by
  rw [replaceFileNameExtension, findLastOf_none h]

theorem getFileNameExtension_none (h : 46 ∉ path) : getFileNameExtension path = none := by
  rw [getFileNameExtension, findLastOf_none h, Option.map_none]

end Dot

theorem getFileNameAndBaseDir_split {dir base : WString} (hbase : 92 ∉ base)
    (hdir : ∀ u, dir.getLast? = some u → u = 92) : getFileNameAndBaseDir (dir ++ base) = (dir, base) := by
  unfold getFileNameAndBaseDir
  rcases List.eq_nil_or_concat' dir with rfl | ⟨pre, u, rfl⟩
  · rw [List.nil_append, findLastOf_none hbase]
  · obtain rfl : u = 92 := hdir u List.getLast?_concat
    rw [List.append_assoc, List.singleton_append, findLastOf_last hbase, ← List.singleton_append, ← List.append_assoc]
    have hlen : (pre ++ [(92 : UInt16)]).length = pre.length + 1 := by rw [List.length_append, List.length_singleton]
    exact congrArg₂ Prod.mk (List.take_left' hlen) (List.drop_left' hlen)

/-! ## The hook -/

/-- The two tables of `g_SiglusConfig`, each a `std::unordered_map`. -/
structure SiglusConfig where
  extensionNameReplace : WString → Option WString
  fileMapper : WString → Option WString

/-- The test on what `GetFileAttributesW` returns: there is no file of the name, or a directory. -/
def notAFile (attr : UInt32) : Bool := attr = 0xffffffff || attr &&& 0x10 ≠ 0

/-- An entry of `ExtensionReplacer` as an extension, with its dot. -/
def withDot (replacer : WString) : WString := if replacer.head? ≠ some 46 then 46 :: replacer else replacer

/-- The first stage: `CurFileName` after the extension has been looked up. -/
def replaceStage (attributes : WString → UInt32) (lpFileName : WString) : Option WString → WString
  | none => lpFileName
  | some replacer =>
    if replacer.length = 0 then lpFileName
    else
      let curFileName := replaceFileNameExtension lpFileName (withDot replacer)
      if notAFile (attributes curFileName) then lpFileName else curFileName

/-- The second stage where the base name has an entry: it dereferences `Finder`, the iterator of the
first stage, which found nothing where it is `none`. -/
def mapStage (attributes : WString → UInt32) (lpFileName fileBaseDir : WString) : Option WString → Option WString
  | none => none
  | some replacer =>
    if replacer.length = 0 then some lpFileName
    else
      let curFileName := fileBaseDir ++ replacer
      if notAFile (attributes curFileName) then some lpFileName else some curFileName

/-- `HookCreateFileW`: the name passed to `StubCreateFileW`, `none` where a lookup that found nothing is
dereferenced. `attributes` is `GetFileAttributesW`. -/
def hookCreateFileW (config : SiglusConfig) (attributes : WString → UInt32) (lpFileName : WString) :
    Option WString := do
  let nameExtension ← getFileNameExtension lpFileName
  let (fileBaseDir, filePath) := getFileNameAndBaseDir lpFileName
  let nameExtensionLower := lowerString nameExtension
  let finder := config.extensionNameReplace nameExtensionLower
  -- nothing reads what the first stage leaves: both branches below assign `CurFileName` anew
  let _curFileName := replaceStage attributes lpFileName finder
  match config.fileMapper filePath with
  | none => some lpFileName
  | some _ => mapStage attributes lpFileName fileBaseDir finder

/-! ## What the configuration asks for -/

/-- There is a file of the name, and it is no directory: `attributes` does not return `INVALID_FILE_ATTRIBUTES`, and the
bit `FILE_ATTRIBUTE_DIRECTORY` is not set. -/
def IsFile (attributes : WString → UInt32) (name : WString) : Prop :=
  (attributes name).toNat ≠ 4294967295 ∧ (attributes name).toNat.testBit 4 = false

instance (attributes : WString → UInt32) (name : WString) : Decidable (IsFile attributes name) :=
  inferInstanceAs (Decidable (_ ∧ _))

/-- `lower` is `s` with small letters for the capitals of ASCII. -/
def IsLower (s lower : WString) : Prop :=
  List.Forall₂ (fun c l => l.toNat = if 65 ≤ c.toNat ∧ c.toNat ≤ 90 then c.toNat + 32 else c.toNat) s lower

/-- The parts of a file name with an extension: the directory and the base name behind its last backslash; what stands
in front of its last dot and the extension behind it, which is looked up in small letters. -/
structure NameParts (lpFileName : WString) where
  dir : WString
  base : WString
  stem : WString
  ext : WString
  lower : WString
  dir_base : lpFileName = dir ++ base
  dir_end : ∀ u, dir.getLast? = some u → u = 92
  base_plain : 92 ∉ base
  stem_ext : lpFileName = stem ++ 46 :: ext
  ext_plain : 46 ∉ ext
  ext_lower : IsLower ext lower

/-- An entry without the dot that it may start with. -/
def bare (entry : WString) : WString := if entry.head? = some 46 then entry.tail else entry

/-- An entry that is not empty, and leads to a file. -/
def Leads (attributes : WString → UInt32) (entry name : WString) : Prop := entry ≠ [] ∧ IsFile attributes name

instance (attributes : WString → UInt32) (entry name : WString) : Decidable (Leads attributes entry name) :=
  inferInstanceAs (Decidable (_ ∧ _))

/-- The name that an entry of a table leads to. -/
def target (attributes : WString → UInt32) (entry : Option WString) (name : WString → WString) : Option WString :=
  match entry with
  | none => none
  | some r => if Leads attributes r (name r) then some (name r) else none

namespace NameParts

variable {lpFileName : WString} (p : NameParts lpFileName)

/-- The name with another base name. -/
def mapped (entry : WString) : WString := p.dir ++ entry

/-- The name with another extension. -/
def replaced (entry : WString) : WString := p.stem ++ 46 :: bare entry

/-- The name the tables ask for: the mapped name where the base name has an entry that leads to a file; else the name
with its extension replaced, where the extension has one; else the original name. -/
def configuredName (config : SiglusConfig) (attributes : WString → UInt32) : WString :=
  match target attributes (config.fileMapper p.base) p.mapped with
  | some name => name
  | none => (target attributes (config.extensionNameReplace p.lower) p.replaced).getD lpFileName

/-- Where the hook does what the tables ask for: `t` is the entry of the base name, `r` that of the extension, which the
hook takes for a mapped name where there is `t`. A name is then right because `r` is the entry asked for, because the
entry asked for gives the original name, or because both readings of `r` give one name. -/
def Agrees (attributes : WString → UInt32) : Option WString → Option WString → Prop
  | none, none => True
  | none, some r => Leads attributes r (p.replaced r) → bare r = p.ext
  | some _, none => False
  | some t, some r =>
    if Leads attributes t (p.mapped t) then r = t ∨ t = p.base ∧ ¬ Leads attributes r (p.mapped r)
    else if Leads attributes r (p.replaced r) then
      if Leads attributes r (p.mapped r) then r.head? = some 46 ∧ p.stem = p.dir else bare r = p.ext
    else Leads attributes r (p.mapped r) → r = p.base

theorem head_bare {r : WString} (h : r.head? = some 46) : 46 :: bare r = r := by
  rw [bare, if_pos h]
  exact List.cons_head?_tail h

end NameParts

theorem lowerString_toNat (c : UInt16) :
    (if 65 ≤ c ∧ c ≤ 90 then c + 32 else c).toNat = if 65 ≤ c.toNat ∧ c.toNat ≤ 90 then c.toNat + 32 else c.toNat := by
  have hcapital : (65 ≤ c ∧ c ≤ 90) ↔ (65 ≤ c.toNat ∧ c.toNat ≤ 90) := by
    rw [UInt16.le_iff_toNat_le, UInt16.le_iff_toNat_le]
    rfl
  have hadd : (c + 32).toNat = (c.toNat + 32) % 65536 := UInt16.toNat_add c 32
  by_cases hc : 65 ≤ c.toNat ∧ c.toNat ≤ 90
  · rw [if_pos hc, if_pos (hcapital.2 hc), hadd]
    exact Nat.mod_eq_of_lt (by omega)
  · rw [if_neg hc, if_neg fun h => hc (hcapital.1 h)]

theorem isLower_iff {s lower : WString} : IsLower s lower ↔ lowerString s = lower := by
  constructor
  · intro h
    induction h with
    | nil => rfl
    | @cons c l s lower hcl _ ih =>
      rw [← ih]
      exact congrArg (· :: lowerString s) (UInt16.toNat_inj.1 ((lowerString_toNat c).trans hcl.symm))
  · rintro rfl
    rw [lowerString, IsLower, List.forall₂_map_right_iff, List.forall₂_same]
    exact fun c _ => lowerString_toNat c

theorem notAFile_iff (attributes : WString → UInt32) (name : WString) :
    notAFile (attributes name) = true ↔ ¬ IsFile attributes name := by
  generalize hattr : attributes name = attr
  have hbit : attr &&& 0x10 = 0 ↔ attr.toNat.testBit 4 = false := by
    have hand : (attr &&& 0x10).toNat = attr.toNat &&& 2 ^ 4 := UInt32.toNat_and attr 0x10
    rw [← UInt32.toNat_inj, hand, Nat.and_two_pow]
    cases attr.toNat.testBit 4 <;> decide
  have hinvalid : attr = 0xffffffff ↔ attr.toNat = 4294967295 := by
    rw [← UInt32.toNat_inj]
    rfl
  rw [notAFile, IsFile, hattr, Bool.or_eq_true, decide_eq_true_iff, decide_eq_true_iff, hinvalid, ne_eq, hbit]
  tauto

section

variable {attributes : WString → UInt32} {lpFileName : WString}

/-- A stage on an entry: the name it leads to, or the one the game asked for. -/
theorem stage_eq (entry path : WString) :
    (if entry.length = 0 then lpFileName else if notAFile (attributes path) then lpFileName else path) =
      if Leads attributes entry path then path else lpFileName := by
  by_cases h : entry = []
  · rw [if_pos (by rw [h]; rfl), if_neg fun h' : Leads attributes entry path => h'.1 h]
  · rw [if_neg fun h' => h (List.length_eq_zero_iff.1 h')]
    by_cases hf : IsFile attributes path
    · rw [if_neg fun h' => (notAFile_iff attributes path).1 h' hf,
        if_pos (show Leads attributes entry path from ⟨h, hf⟩)]
    · rw [if_pos ((notAFile_iff attributes path).2 hf), if_neg fun h' : Leads attributes entry path => hf h'.2]

variable (p : NameParts lpFileName)

theorem NameParts.mapped_eq_iff {r : WString} : p.mapped r = lpFileName ↔ r = p.base := by
  constructor
  · intro h
    exact List.append_cancel_left (h.trans p.dir_base)
  · rintro rfl
    exact p.dir_base.symm

theorem NameParts.replaced_eq_iff {r : WString} : p.replaced r = lpFileName ↔ bare r = p.ext := by
  constructor
  · intro h
    exact List.tail_eq_of_cons_eq (List.append_cancel_left (h.trans p.stem_ext))
  · intro h
    rw [NameParts.replaced, h]
    exact p.stem_ext.symm

/-- The two names that an entry leads to are the same only where it starts with the dot of a base name that is all
extension. -/
theorem NameParts.mapped_eq_replaced_iff {r : WString} :
    p.mapped r = p.replaced r ↔ r.head? = some 46 ∧ p.stem = p.dir := by
  unfold NameParts.mapped NameParts.replaced
  by_cases h : r.head? = some 46
  · rw [NameParts.head_bare h, List.append_left_inj, eq_comm, and_iff_right h]
  · refine iff_of_false (fun hsame => ?_) fun hno => h hno.1
    rw [bare, if_neg h, ← List.singleton_append, ← List.append_assoc, List.append_left_inj] at hsame
    have hend := p.dir_end 46 (by rw [hsame, List.getLast?_concat])
    exact absurd hend (by decide)

/-- The hook on the parts of a name: the entry of the extension is taken for a mapped name. -/
theorem hookCreateFileW_eq (config : SiglusConfig) : hookCreateFileW config attributes lpFileName =
    match config.fileMapper p.base, config.extensionNameReplace p.lower with
    | none, _ => some lpFileName
    | some _, none => none
    | some _, some r => some (if Leads attributes r (p.mapped r) then p.mapped r else lpFileName) := by
  have hext : getFileNameExtension lpFileName = some p.ext := by
    conv_lhs => rw [p.stem_ext]
    exact getFileNameExtension_dot p.ext_plain
  have hsplit : getFileNameAndBaseDir lpFileName = (p.dir, p.base) := by
    conv_lhs => rw [p.dir_base]
    exact getFileNameAndBaseDir_split p.base_plain p.dir_end
  simp only [hookCreateFileW, hext, hsplit, isLower_iff.1 p.ext_lower, Option.bind_eq_bind, Option.bind_some]
  cases config.fileMapper p.base with
  | none => rfl
  | some t =>
    cases config.extensionNameReplace p.lower with
    | none => rfl
    | some r =>
      dsimp only
      rw [← stage_eq, apply_ite some, apply_ite some]
      rfl

end

/-- For every configuration and every set of files, a name with an extension is passed on as configured,
and no lookup that found nothing dereferenced, exactly where `Agrees` holds. -/
theorem hookCreateFileW_configured_iff (config : SiglusConfig) (attributes : WString → UInt32) {lpFileName : WString}
    (hdot : 46 ∈ lpFileName) : Nonempty (NameParts lpFileName) ∧ ∀ p : NameParts lpFileName,
      (hookCreateFileW config attributes lpFileName = some (p.configuredName config attributes) ↔
        p.Agrees attributes (config.fileMapper p.base) (config.extensionNameReplace p.lower)) := by
  constructor
  · obtain ⟨dir, hdir, hbase, hlast⟩ := exists_behind (· == 92) lpFileName
    obtain ⟨stem, ext, hext, hplain⟩ := exists_last_of hdot
    exact ⟨⟨dir, _, stem, ext, lowerString ext, hdir, fun u hu => eq_of_beq (hlast u hu), forall_beq_iff.1 hbase, hext,
      hplain, isLower_iff.2 rfl⟩⟩
  · intro p
    rw [hookCreateFileW_eq p, NameParts.configuredName]
    cases config.fileMapper p.base with
    | none =>
      cases config.extensionNameReplace p.lower with
      | none => exact iff_of_true rfl trivial
      | some r =>
        simp only [target, NameParts.Agrees, Option.some.injEq]
        by_cases hr : Leads attributes r (p.replaced r)
        · rw [if_pos hr, Option.getD_some, eq_comm, p.replaced_eq_iff, imp_iff_right hr]
        · rw [if_neg hr]
          exact iff_of_true rfl fun h => absurd h hr
    | some t =>
      cases config.extensionNameReplace p.lower with
      | none => exact iff_of_false (fun h => absurd h.symm (Option.some_ne_none _)) id
      | some r =>
        simp only [target, NameParts.Agrees, Option.some.injEq]
        by_cases ht : Leads attributes t (p.mapped t)
        -- the base name is mapped: to the same name as by `r`, or to itself
        · rw [if_pos ht, if_pos ht]
          dsimp only
          by_cases hr : Leads attributes r (p.mapped r)
          · rw [if_pos hr, or_iff_left fun h => h.2 hr]
            exact List.append_right_inj p.dir
          · rw [if_neg hr, eq_comm, p.mapped_eq_iff]
            refine ⟨fun h => .inr ⟨h, hr⟩, ?_⟩
            rintro (rfl | h)
            · exact absurd ht hr
            · exact h.1
        · rw [if_neg ht, if_neg ht]
          dsimp only
          by_cases hx : Leads attributes r (p.replaced r)
          · rw [if_pos hx, if_pos hx, Option.getD_some]
            by_cases hr : Leads attributes r (p.mapped r)
            · rw [if_pos hr, if_pos hr, p.mapped_eq_replaced_iff]
            · rw [if_neg hr, if_neg hr, eq_comm, p.replaced_eq_iff]
          · rw [if_neg hx, if_neg hx, Option.getD_none]
            by_cases hr : Leads attributes r (p.mapped r)
            · rw [if_pos hr, p.mapped_eq_iff, imp_iff_right hr]
            · rw [if_neg hr]
              exact iff_of_true rfl fun h => absurd h hr

/-- A name mapped to the entry its extension happens to have as well. -/
theorem hookCreateFileW_configured_same :
    hookCreateFileW ⟨fun _ => some (wide "b.g"), fun _ => some (wide "b.g")⟩ (fun _ => 0x20) (wide "d\\a.g") =
      some (wide "d\\b.g") := by
  let p : NameParts (wide "d\\a.g") := ⟨wide "d\\", wide "a.g", wide "d\\a", wide "g", wide "g", by decide +kernel,
    fun u hu => (Option.some.inj ((show (wide "d\\").getLast? = some 92 by decide +kernel).symm.trans hu)).symm,
    by decide +kernel, by decide +kernel, by decide +kernel, isLower_iff.2 (by decide +kernel)⟩
  have hname : p.configuredName ⟨fun _ => some (wide "b.g"), fun _ => some (wide "b.g")⟩ (fun _ => 0x20) =
      wide "d\\b.g" := by decide +kernel
  rw [← hname]
  refine ((hookCreateFileW_configured_iff ⟨fun _ => some (wide "b.g"), fun _ => some (wide "b.g")⟩ (fun _ => 0x20)
    (by decide +kernel)).2 p).2 ?_
  -- the mapped file is there, and both entries are the same
  have hleads : Leads (fun _ => 0x20) (wide "b.g") (p.mapped (wide "b.g")) := by decide +kernel
  rw [NameParts.Agrees, if_pos hleads]
  exact .inl rfl

/-! ## The shipped configuration -/

/-- The tables of `SiglusCfg.json`. -/
def shippedConfig : SiglusConfig where
  extensionNameReplace ext :=
    if ext = wide "omv" then some (wide "omv2")
    else if ext = wide "pck" then some (wide "pck2")
    else if ext = wide "dat" then some (wide "dat2")
    else none
  fileMapper name := if name = wide "_va00.g00" then some (wide "_va00.g01") else none

/-- With it no file is redirected: `a.dat` is opened although `a.dat2` exists, and the mapped picture
makes the hook dereference the end of the other table. -/
theorem hookCreateFileW_shipped :
    hookCreateFileW shippedConfig (fun _ => 0x20) (wide "a.dat") = some (wide "a.dat") ∧
      (∃ p : NameParts (wide "a.dat"), p.configuredName shippedConfig (fun _ => 0x20) = wide "a.dat2") ∧
      hookCreateFileW shippedConfig (fun _ => 0x20) (wide "_va00.g00") = none :=
  ⟨by decide +kernel,
    ⟨⟨[], wide "a.dat", wide "a", wide "dat", wide "dat", by decide +kernel, nofun, by decide +kernel,
      by decide +kernel, by decide +kernel, isLower_iff.2 (by decide +kernel)⟩, by decide +kernel⟩, by decide +kernel⟩

end SiglusExtract.UniversalPatch
