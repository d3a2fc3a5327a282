/-
The path helpers (Tool.h, and with the same text SiglusUniversalPatch.cpp), and what a file that is dropped on the
dialog is taken for (`CreateAddObject`, SiglusExtractDialog.cpp). The last dot is looked for in the whole path: where
the last component has none, it is found in a directory, or not at all.
-/
import SiglusExtract.UniversalPatch

namespace SiglusExtract.FileName

open Behind UniversalPatch

/-! ## The helpers -/

/-- `GetFileName`. -/
def getFileName (path : WString) : WString :=
  match findLastOf path 92 with
  | none => path
  | some ptr => path.drop (ptr + 1)

/-- `GetFileNamePrefix`. -/
def getFileNamePrefix (path : WString) : WString :=
  match findLastOf path 46 with
  | none => path
  | some ptr => path.take ptr

/-! ## The last component -/

/-- The part of a path behind its last backslash. -/
abbrev lastComponent (path : WString) : WString := behind (· == 92) path

theorem getFileNamePrefix_dot {pre post : WString} (h : 46 ∉ post) : getFileNamePrefix (pre ++ 46 :: post) = pre := by
  rw [getFileNamePrefix, findLastOf_last h]
  exact List.take_left

/-- `GetFileName` is the last component. -/
theorem getFileName_eq (path : WString) : getFileName path = lastComponent path := by
  by_cases h : 92 ∈ path
  · obtain ⟨pre, post, rfl, hpost⟩ := exists_last_of h
    have hlast : lastComponent (pre ++ 92 :: post) = post :=
      behind_last (beq_self_eq_true _) (forall_beq_iff.2 hpost)
    rw [getFileName, findLastOf_last hpost, hlast, ← List.singleton_append, ← List.append_assoc]
    exact List.drop_left' (by rw [List.length_append, List.length_singleton])
  · rw [getFileName, findLastOf_none h]
    exact (behind_none (forall_beq_iff.2 h)).symm

/-- A path is its directory, down to the last backslash, and its last component. -/
theorem exists_dir (path : WString) :
    ∃ dir, path = dir ++ lastComponent path ∧ 92 ∉ lastComponent path ∧ ∀ u, dir.getLast? = some u → u = 92 := by
  obtain ⟨dir, hdir, hname, hlast⟩ := exists_behind (· == 92) path
  exact ⟨dir, hdir, forall_beq_iff.1 hname, fun u hu => eq_of_beq (hlast u hu)⟩

theorem lastComponent_append {dir name : WString} (hname : 92 ∉ name) (hdir : ∀ u, dir.getLast? = some u → u = 92) :
    lastComponent (dir ++ name) = name :=
  behind_append (forall_beq_iff.2 hname) fun u hu => by rw [hdir u hu]; rfl

/-! ## What the helpers are for -/

/-- The helpers act on the last component of `path`: they take it apart at its last dot, or find no extension there,
and a replacement does not touch the directory. -/
structure ActsOnLast (path ext : WString) : Prop where
  dot : 46 ∈ lastComponent path → ∃ nameExtension, getFileNameExtension path = some nameExtension ∧
    getFileNamePrefix path ++ 46 :: nameExtension = path ∧
    replaceFileNameExtension path ext = getFileNamePrefix path ++ ext
  noDot : 46 ∉ lastComponent path → getFileNameExtension path = some [] ∧ getFileNamePrefix path = path ∧
    replaceFileNameExtension path ext = path ++ ext
  name : getFileName (replaceFileNameExtension path ext) = replaceFileNameExtension (getFileName path) ext

/-- Behind a dot that is not in the last component a backslash follows. -/
theorem backslash_of_dir {pre post : WString} (h : 46 ∉ lastComponent (pre ++ 46 :: post)) :
    92 ∈ post := by
  by_contra hno
  have hno' : (92 : UInt16) ∉ 46 :: post := by simpa using hno
  rw [lastComponent, behind_append_none (forall_beq_iff.2 hno')] at h
  exact h (List.mem_append_right _ List.mem_cons_self)

/-- Without a dot in its last component a path has no empty extension: it has none, or one with a backslash. -/
theorem getFileNameExtension_ne_nil {path : WString} (h : 46 ∉ lastComponent path) :
    getFileNameExtension path ≠ some [] := by
  by_cases hdot : 46 ∈ path
  · obtain ⟨pre, post, rfl, hpost⟩ := exists_last_of hdot
    have hmem := backslash_of_dir h
    rw [getFileNameExtension_dot hpost, ne_eq, Option.some.injEq]
    rintro rfl
    exact List.not_mem_nil hmem
  · rw [getFileNameExtension_none hdot]
    exact nofun

/-- A path with a dot in its last component: the directory, what stands in front of the dot, and the extension. -/
theorem exists_dot {path : WString} (h : 46 ∈ lastComponent path) :
    ∃ dir name nameExtension, path = dir ++ name ++ 46 :: nameExtension ∧ 46 ∉ nameExtension ∧ 92 ∉ name ∧
      lastComponent path = name ++ 46 :: nameExtension ∧ ∀ u, dir.getLast? = some u → u = 92 := by
  obtain ⟨dir, hdir, hname, hlast⟩ := exists_dir path
  obtain ⟨name, nameExtension, hsplit, hext⟩ := exists_last_of h
  refine ⟨dir, name, nameExtension, ?_, hext, ?_, hsplit, hlast⟩
  · rw [List.append_assoc, ← hsplit, ← hdir]
  · rw [hsplit] at hname
    exact fun hmem => hname (List.mem_append_left _ hmem)

theorem replaceFileNameExtension_suffix (path ext : WString) : ext <:+ replaceFileNameExtension path ext := by
  unfold replaceFileNameExtension
  split <;> exact List.suffix_append _ _

/-- The helpers act on the last component exactly where it has a dot, and the new extension has no backslash. -/
theorem actsOnLast_iff (path ext : WString) : ActsOnLast path ext ↔ 46 ∈ lastComponent path ∧ 92 ∉ ext := by
  constructor
  · intro h
    constructor
    · by_contra hno
      exact getFileNameExtension_ne_nil hno (h.noDot hno).1
    · intro hmem
      obtain ⟨dir, -, hname, -⟩ := exists_dir (replaceFileNameExtension path ext)
      rw [← getFileName_eq, h.name] at hname
      exact hname ((replaceFileNameExtension_suffix _ ext).subset hmem)
  · rintro ⟨hdot, hext⟩
    refine ⟨fun _ => ?_, fun hno => absurd hdot hno, ?_⟩
    · obtain ⟨pre, post, rfl, hpost⟩ := exists_last_of ((List.rtakeWhile_suffix _ path).subset hdot)
      refine ⟨post, getFileNameExtension_dot hpost, ?_, ?_⟩
      · rw [getFileNamePrefix_dot hpost]
      · rw [getFileNamePrefix_dot hpost, replaceFileNameExtension_dot hpost]
    · obtain ⟨dir, name, nameExtension, rfl, hpost, hname, hlast, hdir⟩ := exists_dot hdot
      have hnew : 92 ∉ name ++ ext := by
        rw [List.mem_append, not_or]
        exact ⟨hname, hext⟩
      rw [replaceFileNameExtension_dot hpost, getFileName_eq, getFileName_eq, hlast, List.append_assoc,
        lastComponent_append hnew hdir, replaceFileNameExtension_dot hpost]

/-- A file without an extension, and one in a directory whose name has a dot. -/
theorem not_actsOnLast : getFileNameExtension (wide "README") = none ∧
    replaceFileNameExtension (wide "v1.2\\README") (wide ".txt") = wide "v1.txt" ∧
    ¬ ∀ path ext, 92 ∉ ext → ActsOnLast path ext := by
  refine ⟨by decide +kernel, by decide +kernel, fun hall => ?_⟩
  have h := hall (wide "README") (wide ".txt") (by decide +kernel)
  have hext := (h.noDot (by decide +kernel)).1
  exact absurd hext (by decide +kernel)

/-! ## Output files -/

/-- `FullPath`, where an unpacker writes what it gets out of the file at `path`. -/
def outPath (fullOutDirectory path newExtensionName : WString) : WString :=
  replaceFileNameExtension (fullOutDirectory ++ getFileName path) newExtensionName

/-- The output stands in the output directory, under the name with the new extension, unless the name has no dot and
the directory has one. -/
theorem outPath_inside_iff (fullOutDirectory path newExtensionName : WString) :
    outPath fullOutDirectory path newExtensionName =
        fullOutDirectory ++ replaceFileNameExtension (getFileName path) newExtensionName ↔
      46 ∈ getFileName path ∨ 46 ∉ fullOutDirectory := by
  rw [outPath]
  generalize getFileName path = name
  by_cases hname : 46 ∈ name
  · obtain ⟨pre, post, rfl, hpost⟩ := exists_last_of hname
    refine iff_of_true ?_ (.inl hname)
    rw [← List.append_assoc, replaceFileNameExtension_dot hpost, replaceFileNameExtension_dot hpost, List.append_assoc]
  · rw [replaceFileNameExtension_none hname, or_iff_right hname]
    by_cases hdir : 46 ∈ fullOutDirectory
    · refine iff_of_false ?_ (not_not_intro hdir)
      obtain ⟨pre, post, rfl, hpost⟩ := exists_last_of hdir
      have hboth : 46 ∉ post ++ name := by
        rw [List.mem_append, not_or]
        exact ⟨hpost, hname⟩
      rw [List.append_assoc, List.cons_append, replaceFileNameExtension_dot hboth]
      intro h
      -- the new path is shorter than the directory, the name and the extension together
      have hlen := congrArg List.length h
      simp only [List.length_append, List.length_cons] at hlen
      omega
    · refine iff_of_true ?_ hdir
      have hboth : 46 ∉ fullOutDirectory ++ name := by
        rw [List.mem_append, not_or]
        exact ⟨hdir, hname⟩
      rw [replaceFileNameExtension_none hboth, List.append_assoc]

/-! ## Dropped files -/

/-- The objects that `CreateAddObject` makes. -/
inductive UnpackObject
  | ogg
  | nwa
  | g00
  | omv
  | ovk
  | nwk
  | dbs
  | gameexe
  | scene
  deriving DecidableEq, Repr

/-- `CreateAddObject`: the object it adds to the list for a dropped file, if any; `none` where it makes a string of the
null pointer. `same` says that `lstrcmpiW` finds no difference. -/
def createAddObject (same : WString → WString → Bool) (forbiddenPrivateKey : Bool) (fileName : WString) :
    Option (Option UnpackObject) :=
  (getFileNameExtension fileName).map fun extensionFileName =>
    let currentFileName := getFileName fileName
    if same extensionFileName (wide "OWP") then some .ogg
    else if same extensionFileName (wide "NWA") then some .nwa
    else if same extensionFileName (wide "G00") || same extensionFileName (wide "G01") then some .g00
    else if same extensionFileName (wide "OMV") then some .omv
    else if same extensionFileName (wide "OVK") then some .ovk
    else if same extensionFileName (wide "NWK") then some .nwk
    else if same extensionFileName (wide "DBS") then some .dbs
    else if same currentFileName (wide "GAMEEXE.DAT") && !forbiddenPrivateKey then some .gameexe
    else if same currentFileName (wide "SCENE.PCK") && !forbiddenPrivateKey then some .scene
    else none

section Drop

variable {same : WString → WString → Bool} {forbiddenPrivateKey : Bool} {fileName : WString}

end Drop

end SiglusExtract.FileName
