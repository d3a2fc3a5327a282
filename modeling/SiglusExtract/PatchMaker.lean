/-
The universal patch as the dialog makes it (SiglusExtractDialog.cpp: `LoadFromResource`, `OnBnClickedPatchButton`), and
as its loader uses it (PatchLoader.cpp): the name of the game is put into the image of the loader, and the icon of the
game becomes resources of it.
-/
import SiglusExtract.Kmp
import SiglusExtract.Lib.Journal
import SiglusExtract.Lib.Wide

namespace SiglusExtract.PatchMaker

open Bytes Kmp Wide

/-! ## The name of the game -/

/-- `KeyWord`, "SiglInfoXmoeAnzu". -/
def keyWord : List UInt8 :=
  [0x53, 0x69, 0x67, 0x6C, 0x49, 0x6E, 0x66, 0x6F, 0x58, 0x6D, 0x6F, 0x65, 0x41, 0x6E, 0x7A, 0x75]

/-- `MAX_PATH`. -/
def maxPath : Nat := 260

/-- `Nt_GetModuleFileBaseName`, on what stands at `BaseDllName.Buffer`. `Length` is in bytes, and one more than that
many characters are copied, into a buffer of `MAX_PATH`. -/
def ntGetModuleFileBaseName (buffer : WString) (length : Nat) : Option WString :=
  if length + 1 ≤ maxPath ∧ length + 1 ≤ buffer.length then some (buffer.take (length + 1)) else none

/-- `lstrlenW` and the characters it counts. -/
def upToNul (s : WString) : Option WString := if 0 ∈ s then some (s.takeWhile (· ≠ 0)) else none

/-- `LoadFromResource`, where it injects: the memory with the name in the image, or the message that the keyword is not
there. -/
def injectName (m : Mem UInt8) (stack : Next) (lpByte dwSize keyWordAt : Nat) (baseDllName : WString) (length : Nat) :
    Option (Option (Mem UInt8)) :=
  (kmp m stack lpByte dwSize keyWordAt keyWord.length).bind fun
    | none => some none
    | some shellData => do
      let exeFileBaseName ← ntGetModuleFileBaseName baseDllName length
      let name ← upToNul exeFileBaseName
      if shellData + 16 + 2 * name.length ≤ lpByte + dwSize then
        return some ((m.write shellData (List.replicate 16 0)).write (shellData + 16) (bytes name))
      else none

/-- `LinkerData.FileName`, which the loader passes on as the command line. -/
def linkerFileName (m : Mem UInt8) (linkerData : Nat) : Option WString := wcs m maxPath (linkerData + 16)

/-- `SHELL_DATA` as it stands in the image of the loader: the keyword, and no name. -/
def linkerData : List UInt8 := keyWord ++ List.replicate (2 * maxPath) 0

@[simp] theorem linkerData_length : linkerData.length = 536 := by
  rw [linkerData, List.length_append, List.length_replicate]
  rfl

section Name

variable {m : Mem UInt8} {lpByte dwSize keyWordAt x : Nat}

/-- The image of a loader as it is shipped: the keyword stands in it first where `LinkerData` is. -/
structure Shipped (m : Mem UInt8) (lpByte dwSize keyWordAt x : Nat) : Prop where
  image : ∀ j < dwSize, (m (lpByte + j)).isSome
  key : m.Holds keyWordAt (keyWord ++ [0])
  size : x + linkerData.length ≤ dwSize
  data : m.Holds (lpByte + x) linkerData
  first : ∀ y < x, ¬ Found m lpByte keyWordAt keyWord.length y

theorem found_of_holds {y : Nat} (hkey : m.Holds keyWordAt keyWord) (h : m.Holds (lpByte + y) keyWord) :
    Found m lpByte keyWordAt keyWord.length y := by
  intro k hk
  rw [Kmp.word, Kmp.word, hkey k hk, ← Nat.add_assoc, h k hk]

/-- The search finds `LinkerData`. -/
theorem Shipped.kmp (h : Shipped m lpByte dwSize keyWordAt x) (stack : Next) :
    kmp m stack lpByte dwSize keyWordAt keyWord.length = some (some (lpByte + x)) := by
  have hsize := h.size
  rw [linkerData_length] at hsize
  have hfound := found_of_holds (Mem.holds_append.1 h.key).1 (Mem.holds_append.1 h.data).1
  have hkeyLen : keyWord.length = 16 := rfl
  have hread : ∀ j ≤ keyWord.length, (Kmp.word m keyWordAt j).isSome := by
    intro j hj
    rw [Kmp.word, h.key j (by rw [List.length_append, List.length_singleton]; omega)]
    rfl
  obtain ⟨r, hrun, hr⟩ := kmp_result stack hread h.image (by omega)
  cases r with
  | none => exact absurd hfound (hr x (by omega))
  | some p =>
    obtain ⟨x', rfl, -, hfound', hfirst⟩ := hr
    rcases Nat.lt_trichotomy x' x with hlt | rfl | hlt
    · exact absurd hfound' (h.first x' hlt)
    · exact hrun
    · exact absurd hfound (hfirst x hlt)

theorem upToNul_take {name rest : WString} {n : Nat} (hname : 0 ∉ name) (hn : name.length < n) :
    upToNul ((name ++ 0 :: rest).take n) = some name := by
  obtain ⟨k, rfl⟩ := Nat.exists_eq_add_of_lt hn
  have htake : (name ++ 0 :: rest).take (name.length + k + 1) = name ++ 0 :: rest.take k := by
    rw [Nat.add_assoc, List.take_length_add_append, List.take_succ_cons]
  rw [htake, upToNul, if_pos (by simp), List.takeWhile_append_of_pos fun c hc => by
    simpa using ne_of_mem_of_not_mem hc hname]
  simp

/-- The copy of the base name is one of twice its length, and fits up to 129 characters. -/
theorem ntGetModuleFileBaseName_eq {name rest : WString} (hrest : name.length ≤ rest.length) :
    ntGetModuleFileBaseName (name ++ 0 :: rest) (2 * name.length) =
      if name.length ≤ 129 then some ((name ++ 0 :: rest).take (2 * name.length + 1)) else none := by
  have hlen : (name ++ 0 :: rest).length = name.length + rest.length + 1 := by
    rw [List.length_append, List.length_cons, Nat.add_assoc]
  rw [ntGetModuleFileBaseName, hlen]
  exact if_congr ⟨fun h => by have := h.1; rw [maxPath] at this; omega, fun h => by rw [maxPath]; omega⟩ rfl rfl

/-- The name comes into the loader that starts it, and nothing else of the memory changes, if it has at most 129
characters. A longer one is copied past the end of the buffer. -/
theorem injectName_fileName (stack : Next) {name rest : WString} (h : Shipped m lpByte dwSize keyWordAt x)
    (hname : 0 ∉ name) (hrest : name.length ≤ rest.length) :
    if name.length ≤ 129 then
      ∃ m', injectName m stack lpByte dwSize keyWordAt (name ++ 0 :: rest) (2 * name.length) = some (some m') ∧
        linkerFileName m' (lpByte + x) = some name ∧
        ∀ a, ¬ Mem.Within (lpByte + x) (16 + 2 * name.length) a → m' a = m a
    else injectName m stack lpByte dwSize keyWordAt (name ++ 0 :: rest) (2 * name.length) = none := by
  have hsize := h.size
  rw [linkerData_length] at hsize
  rw [injectName, h.kmp stack, Option.bind_some, ntGetModuleFileBaseName_eq hrest]
  split
  · next hlen =>
    refine ⟨(m.write (lpByte + x) (List.replicate 16 0)).write (lpByte + x + 16) (bytes name), ?_, ?_, ?_⟩
    · simp only [upToNul_take hname (by omega : name.length < 2 * name.length + 1), Option.bind_eq_bind,
        Option.bind_some, Option.pure_def]
      exact if_pos (by omega)
    · refine wcs_of_holds hname (show name.length < 260 by omega) ?_
      have hzeros : m.Holds (lpByte + x + 16) (List.replicate 520 0) := (Mem.holds_append.1 h.data).2
      have hbytes : bytes (name ++ [0]) = bytes name ++ List.replicate 2 0 := by simp [bytes, le16]
      rw [hbytes, Mem.holds_append]
      refine ⟨Mem.holds_write _ _ _, fun i hi => ?_⟩
      rw [List.length_replicate] at hi
      rw [bytes_length, Mem.write_outside (by rw [bytes_length]; omega),
        Mem.write_outside (by rw [List.length_replicate]; omega), Nat.add_assoc (lpByte + x + 16),
        hzeros _ (by rw [List.length_replicate]; omega), List.getElem_replicate, List.getElem_replicate]
    · intro a ha
      rw [Mem.write_outside (by rw [bytes_length]; omega), Mem.write_outside (by rw [List.length_replicate]; omega)]
  · rfl

/-- A loader of one byte before its data, with the keyword behind it, and a game "SE". -/
def sampleLoader : Mem UInt8 := Mem.ofList ([0x4D] ++ linkerData ++ (keyWord ++ [0]))

theorem shipped_sampleLoader : Shipped sampleLoader 0 537 537 1 := by
  have hlen : ([0x4D] ++ linkerData ++ (keyWord ++ [0])).length = 554 := by
    rw [List.length_append, List.length_append, linkerData_length]
    rfl
  have hkey : sampleLoader.Holds 537 (keyWord ++ [0]) := by
    have := Mem.holds_ofList ([0x4D] ++ linkerData) (keyWord ++ [0]) []
    rwa [List.append_nil, List.length_append, linkerData_length] at this
  refine ⟨fun j hj => ?_, hkey, by rw [linkerData_length], Mem.holds_ofList [0x4D] linkerData _, ?_⟩
  · rw [sampleLoader, Mem.ofList, List.getElem?_eq_getElem (by omega)]
    rfl
  · intro y hy hfound
    obtain rfl : y = 0 := Nat.lt_one_iff.1 hy
    have hfirst : some 0x53 = sampleLoader 0 := (hkey 0 (by decide)).symm.trans (hfound 0 (by decide))
    exact absurd hfirst (by decide)

theorem injectName_fileName_sample :
    ∃ m', injectName sampleLoader (fun _ => 0) 0 537 537 ([83, 69] ++ 0 :: [0, 0]) 4 = some (some m') ∧
      linkerFileName m' 1 = some [83, 69] ∧ ∀ a, ¬ Mem.Within 1 20 a → m' a = sampleLoader a := by
  have h := @injectName_fileName sampleLoader 0 537 537 1 (fun _ => 0) [83, 69] [0, 0] shipped_sampleLoader (by decide)
    (by decide)
  rwa [if_pos (by decide)] at h

end Name

/-! ## The icon -/

/-- `MY_ICON_ENTRY`, without `Reserved`. -/
structure MyIconEntry where
  width : UInt8
  height : UInt8
  colorCount : UInt8
  planes : Nat
  bitCount : Nat
  imageSize : Nat
  imageOffset : Nat

/-- The entry at `p`. -/
def myIconEntry (m : Mem UInt8) (p : Nat) : Option MyIconEntry := do
  let width ← m p
  let height ← m (p + 1)
  let colorCount ← m (p + 2)
  let planes ← Bytes.word m (p + 4)
  let bitCount ← Bytes.word m (p + 6)
  let imageSize ← dword m (p + 8)
  let imageOffset ← dword m (p + 12)
  return ⟨width, height, colorCount, planes, bitCount, imageSize, imageOffset⟩

/-- `GROUPICON`, as it is filled from an entry. -/
def groupIcon (entry : MyIconEntry) (resourceId : Nat) : List UInt8 :=
  [entry.width, entry.height, entry.colorCount, 0] ++ le16 entry.planes ++ le16 entry.bitCount ++
    le32 entry.imageSize ++ le16 resourceId

/-- `MAKEINTRESOURCE`, or a string. -/
inductive ResourceName where
  | id (n : Nat)
  | name (s : String)
  deriving DecidableEq

/-- Type, name and language of a resource. -/
structure ResourceKey where
  type : ResourceName
  name : ResourceName
  language : Nat
  deriving DecidableEq

/-- The resources of an image file. -/
abbrev Resources := ResourceKey → Option (List UInt8)

/-- The functions of the system that change the resources of a file, with what stands in its resource table. -/
structure ResourceApi (File Update : Type) where
  beginUpdateResourceW : File → Update
  updateResourceW : Update → ResourceKey → List UInt8 → Update
  endUpdateResourceW : Update → File
  resources : File → Resources

variable {File Update : Type} (api : ResourceApi File Update)

/-- The table, if the update ended here. -/
def ResourceApi.pending (u : Update) : Resources := api.resources (api.endUpdateResourceW u)

/-- What the functions do where they do not fail: data that is not empty becomes the resource that is named, if the name
is not a null pointer, and no other resource changes. -/
structure ResourceApi.Succeeds : Prop where
  begin : ∀ file, api.pending (api.beginUpdateResourceW file) = api.resources file
  update : ∀ u key data, key.name ≠ .id 0 → data ≠ [] → api.pending (api.updateResourceW u key data) key = some data
  frame : ∀ u key data key', key.name ≠ .id 0 → data ≠ [] → key' ≠ key →
    api.pending (api.updateResourceW u key data) key' = api.pending u key'

/-- `RT_ICON`, and the name of entry `i`, in `LANG_ENGLISH` with `SUBLANG_DEFAULT`. -/
def iconKey (i : Nat) : ResourceKey := ⟨.id 3, .id ((i + 114514) % 65536), 0x409⟩

/-- `RT_GROUP_ICON` and "MAINICON". -/
def mainIcon : ResourceKey := ⟨.id 14, .name "MAINICON", 0x409⟩

/-- The image of an entry. -/
def imageOf (buffer : List UInt8) (entry : MyIconEntry) : Option (List UInt8) :=
  if entry.imageOffset + entry.imageSize ≤ buffer.length then
    some ((buffer.drop entry.imageOffset).take entry.imageSize)
  else none

/-- The loop over the entries, of which `n` are left: the update, and what is written behind `UpdateHeader`. What
`UpdateResourceW` returns is not looked at. -/
def injectLoop (buffer : List UInt8) : Nat → Nat → Update → Option (Update × List UInt8)
  | 0, _, u => some (u, [])
  | n + 1, i, u => do
    let entry ← myIconEntry (Mem.ofList buffer) (6 + 16 * (i - 1))
    let image ← imageOf buffer entry
    let (u, data) ← injectLoop buffer n (i + 1) (api.updateResourceW u (iconKey i) image)
    return (u, groupIcon entry ((i + 114514) % 65536) ++ data)

/-- `InjectMainIcon` with the file `What`, if it can be opened. `room` is whether there is memory for the file, and
`roomData` for the group; the second is not looked at, and nothing is written where an update does not end. -/
def injectMainIcon (what : Option (List UInt8)) (room roomData : Bool) (file : File) : Option File :=
  match what with
  | none => some file
  | some icon =>
    if room then do
      let u := api.beginUpdateResourceW file
      let buffer := icon.take (icon.length % 2 ^ 32)
      let count ← Bytes.word (Mem.ofList buffer) 4
      if !roomData then none
      let (u, data) ← injectLoop api buffer count 1 u
      return api.endUpdateResourceW (api.updateResourceW u mainIcon (le16 0 ++ le16 1 ++ le16 count ++ data))
    else some file

/-! ### What the icon is -/

/-- One of the images of an icon. -/
structure IconImage where
  width : UInt8
  height : UInt8
  colors : UInt8
  planes : Nat
  bitsPerPixel : Nat
  bits : List UInt8
  deriving DecidableEq

/-- The images of an icon file, of which `n` are left at `p`. -/
def fileImages (file : List UInt8) : Nat → Nat → Option (List IconImage)
  | 0, _ => some []
  | n + 1, p => do
    let entry ← myIconEntry (Mem.ofList file) p
    let image ← imageOf file entry
    let rest ← fileImages file n (p + 16)
    return ⟨entry.width, entry.height, entry.colorCount, entry.planes, entry.bitCount, image⟩ :: rest

/-- An icon file. -/
def fileIcon (file : List UInt8) : Option (List IconImage) :=
  (Bytes.word (Mem.ofList file) 4).bind fun count => fileImages file count 6

/-- The images of a group, of which `n` are left at `p`, looked up by their names. -/
def groupImages (r : Resources) (group : Mem UInt8) : Nat → Nat → Option (List IconImage)
  | 0, _ => some []
  | n + 1, p => do
    let width ← group p
    let height ← group (p + 1)
    let colors ← group (p + 2)
    let planes ← Bytes.word group (p + 4)
    let bitsPerPixel ← Bytes.word group (p + 6)
    let imageSize ← dword group (p + 8)
    let resourceId ← Bytes.word group (p + 12)
    let image ← r ⟨.id 3, .id resourceId, 0x409⟩
    let rest ← groupImages r group n (p + 14)
    if image.length = imageSize then
      return ⟨width, height, colors, planes, bitsPerPixel, image⟩ :: rest
    else none

/-- The main icon of an image. -/
def resourceIcon (r : Resources) : Option (List IconImage) := do
  let group ← r mainIcon
  let count ← Bytes.word (Mem.ofList group) 4
  groupImages r (Mem.ofList group) count 6

section Icon

variable {buffer : List UInt8} {r : Resources} {m : Mem UInt8} {api : ResourceApi File Update}

theorem iconKey_ne {i j : Nat} (hij : i ≠ j) (hi : i < 65536) (hj : j < 65536) : iconKey i ≠ iconKey j := by
  simp only [iconKey, ne_eq, ResourceKey.mk.injEq, ResourceName.id.injEq, true_and, and_true]
  omega

theorem iconKey_name {i : Nat} (hi : 0 < i) (hi2 : i ≤ 16557) : (iconKey i).name ≠ .id 0 := by
  simp only [iconKey, ne_eq, ResourceName.id.injEq]
  omega

/-- The fields of an entry have their widths. -/
theorem myIconEntry_lt {p : Nat} {entry : MyIconEntry} (h : myIconEntry m p = some entry) :
    entry.planes < 2 ^ 16 ∧ entry.bitCount < 2 ^ 16 ∧ entry.imageSize < 2 ^ 32 := by
  simp only [myIconEntry, Option.bind_eq_bind, Option.bind_eq_some_iff, Option.pure_def, Option.some.injEq] at h
  obtain ⟨_, -, _, -, _, -, planes, hplanes, bits, hbits, size, hsize, _, -, rfl⟩ := h
  exact ⟨word_lt hplanes, word_lt hbits, dword_lt hsize⟩

/-- An entry of a group is read as it was filled. -/
theorem groupImages_succ {p n resourceId : Nat} {entry : MyIconEntry} {image : List UInt8} {rest : List IconImage}
    (hplanes : entry.planes < 2 ^ 16) (hbits : entry.bitCount < 2 ^ 16) (hsize : entry.imageSize < 2 ^ 32)
    (hid : resourceId < 2 ^ 16) (hheld : m.Holds p (groupIcon entry resourceId))
    (himage : r ⟨.id 3, .id resourceId, 0x409⟩ = some image) (hlen : image.length = entry.imageSize)
    (hrest : groupImages r m n (p + 14) = some rest) :
    groupImages r m (n + 1) p =
      some (⟨entry.width, entry.height, entry.colorCount, entry.planes, entry.bitCount, image⟩ :: rest) := by
  rw [groupIcon] at hheld
  simp only [Mem.holds_append, Mem.holds_cons, List.length_append, le16_length, le32_length, List.length_cons,
    List.length_nil, Nat.reduceAdd] at hheld
  obtain ⟨⟨⟨⟨⟨h0, h1, h2, -⟩, h4⟩, h6⟩, h8⟩, h12⟩ := hheld
  have h2 : m (p + 2) = some entry.colorCount := h2
  rw [groupImages, h0, h1, h2, word_of_holds h4 hplanes, word_of_holds h6 hbits, dword_of_holds h8 hsize,
    word_of_holds h12 hid]
  simp only [Option.bind_eq_bind, Option.bind_some, himage, hrest]
  exact if_pos hlen

theorem imageOf_length {entry : MyIconEntry} {image : List UInt8} (h : imageOf buffer entry = some image) :
    image.length = entry.imageSize := by
  rw [imageOf] at h
  split at h
  · cases h
    rw [List.length_take, List.length_drop]
    omega
  · cases h

theorem fileImages_length {file : List UInt8} : ∀ {n p : Nat} {images : List IconImage},
    fileImages file n p = some images → images.length = n
  | 0, _, _, h => by
    cases h
    rfl
  | n + 1, p, _, h => by
    simp only [fileImages, Option.bind_eq_bind, Option.bind_eq_some_iff, Option.pure_def, Option.some.injEq] at h
    obtain ⟨_, -, _, -, rest, hrest, rfl⟩ := h
    rw [List.length_cons, fileImages_length hrest]

/-- The loop puts the images where the group it fills names them, and changes nothing else. -/
theorem injectLoop_spec (hapi : api.Succeeds) : ∀ {n i : Nat} {u : Update} {images : List IconImage},
    i + 1 + n ≤ 16558 → fileImages buffer n (6 + 16 * i) = some images → (∀ image ∈ images, image.bits ≠ []) →
    ∃ u' data, injectLoop api buffer n (i + 1) u = some (u', data) ∧
      (∀ (r : Resources) (m : Mem UInt8) (p : Nat), m.Holds p data →
        (∀ j, i < j → j ≤ i + n → r (iconKey j) = api.pending u' (iconKey j)) → groupImages r m n p = some images) ∧
      ∀ key, (∀ j, i < j → j ≤ i + n → key ≠ iconKey j) → api.pending u' key = api.pending u key
  | 0, i, u, images, _, h, _ => by
    cases h
    exact ⟨u, [], rfl, fun _ _ _ _ _ => rfl, fun _ _ => rfl⟩
  | n + 1, i, u, images, hi, h, hbits => by
    simp only [fileImages, Option.bind_eq_bind, Option.bind_eq_some_iff, Option.pure_def, Option.some.injEq] at h
    obtain ⟨entry, hentry, image, himage, rest, hrest, rfl⟩ := h
    obtain ⟨hplanes, hbitCount, hsize⟩ := myIconEntry_lt hentry
    obtain ⟨hne, hbits⟩ := List.forall_mem_cons.1 hbits
    have hname := iconKey_name (Nat.succ_pos i) (by omega : i + 1 ≤ 16557)
    obtain ⟨u', data, hloop, hgroup, hframe⟩ := injectLoop_spec hapi
      (u := api.updateResourceW u (iconKey (i + 1)) image) (by omega : i + 1 + 1 + n ≤ 16558) hrest hbits
    refine ⟨u', groupIcon entry ((i + 1 + 114514) % 65536) ++ data, ?_, fun r m p hheld hr => ?_, fun key hkey => ?_⟩
    · rw [injectLoop, Nat.add_sub_cancel, hentry]
      simp only [Option.bind_eq_bind, Option.bind_some, himage, hloop, Option.pure_def]
    · rw [Mem.holds_append] at hheld
      -- the later entries have other names
      have hhere : r (iconKey (i + 1)) = some image := by
        rw [hr _ (Nat.lt_succ_self i) (by omega),
          hframe _ fun j hj hjn => iconKey_ne (Nat.ne_of_lt hj) (by omega) (by omega), hapi.update _ _ _ hname hne]
      exact groupImages_succ hplanes hbitCount hsize (Nat.mod_lt _ (by decide)) hheld.1 hhere (imageOf_length himage)
        (hgroup r m (p + 14) hheld.2 fun j hj hjn => hr j (by omega) (by omega))
    · rw [hframe key fun j hj hjn => hkey j (by omega) (by omega),
        hapi.frame _ _ _ _ hname hne (hkey (i + 1) (Nat.lt_succ_self i) (by omega))]

/-- Updates in memory: no data deletes a resource, and a null pointer names none. -/
def sampleApi : ResourceApi Resources Resources where
  beginUpdateResourceW r := r
  updateResourceW r key data :=
    if key.name = .id 0 then r else Function.update r key (if data = [] then none else some data)
  endUpdateResourceW r := r
  resources r := r

theorem sampleApi_succeeds : sampleApi.Succeeds where
  begin _ := rfl
  update u key data hname hdata := by
    show (if _ then _ else _ : Resources) key = _
    rw [if_neg hname, Function.update_self, if_neg hdata]
  frame u key data key' hname hdata hkey := by
    show (if _ then _ else _ : Resources) key' = _
    rw [if_neg hname, Function.update_of_ne hkey]
    rfl

/-- An icon of two images. -/
def sampleIcon : List UInt8 :=
  [0, 0, 1, 0, 2, 0] ++ [16, 16, 0, 0, 1, 0, 32, 0, 2, 0, 0, 0, 38, 0, 0, 0] ++
    [32, 32, 0, 0, 1, 0, 8, 0, 1, 0, 0, 0, 40, 0, 0, 0] ++ [7, 8, 9]

end Icon

end SiglusExtract.PatchMaker
