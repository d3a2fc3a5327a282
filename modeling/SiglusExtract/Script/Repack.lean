/-
ScriptRepacker (ScriptRepacker.cpp): puts the lines of a translation behind a script and points its
string index at them.
-/
import SiglusExtract.Script.Text
import Mathlib.Data.List.TakeWhile

namespace SiglusExtract

open Bytes Wide Patch

/-! ## The string table in memory -/

/-- The first loop of `wmain`: the strings of the script, decrypted. There is no buffer for a string of
2 GiB. -/
def oldStrings (m : Mem UInt8) (index data : Nat) : Nat → Nat → Option (List WString)
  | _, 0 => some []
  | x, count + 1 => do
    let info ← fileInfo m index x
    if 2 ^ 30 ≤ info.length then none
    else do
      let infoStr ← units m ((data + 2 * info.offset) % 2 ^ 32) info.length
      let rest ← oldStrings m index data (x + 1) count
      return decryptString infoStr x :: rest

/-- An item of `string_table`. -/
structure StringTableItem where
  oldString : WString
  newString : Option WString

/-- The strings a pointer of type `wchar_t*` gives: up to the first NUL. -/
def cString (s : WString) : WString := s.takeWhile (· ≠ 0)

/-- The second loop: the lines become the new strings. With more lines than strings the program ends. -/
def stringTable : List WString → List WString → Option (List StringTableItem)
  | old, [] => some (old.map fun s => ⟨s, none⟩)
  | [], _ :: _ => none
  | s :: old, line :: lines => do
    let rest ← stringTable old lines
    return ⟨s, some (cString line)⟩ :: rest

/-! ## Repacking -/

/-- `wcscpy` into `tmp_buffer`, which has 2048 units. -/
def tmpBuffer (s : WString) : Option WString :=
  if (cString s).length < 2048 then some (cString s) else none

/-- What the third loop changes: the script, whose index it rewrites, and the new string data. -/
structure RepackState where
  scriptBuf : List UInt8
  buffer : List UInt8

/-- The third loop, from item `x` on. -/
def repackLoop (index : Nat) : Nat → List StringTableItem → RepackState → Option RepackState
  | _, [], st => some st
  | x, item :: items, st => do
    let tmp ← tmpBuffer (item.newString.getD item.oldString)
    let offsets := st.buffer.length
    let scriptBuf ← patch st.scriptBuf ((index + 8 * x) % 2 ^ 32) (le32 (offsets / 2) ++ le32 (2 * tmp.length / 2))
    repackLoop index (x + 1) items ⟨scriptBuf, st.buffer ++ bytes (decryptString tmp x)⟩

/-- ScriptRepacker on a script and the lines of the text file: the new script. `realloc` has no block of
2 GiB. -/
def repack (script : List UInt8) (lines : List WString) : Option (List UInt8) := do
  let m := Mem.ofList script
  let index ← dword m stringIndexPair
  let data ← dword m stringDataPair
  let count ← dword m (stringIndexPair + 4)
  let old ← oldStrings m index data 0 count
  let items ← stringTable old lines
  let st ← repackLoop index 0 items ⟨script, []⟩
  let scriptBuf ← patch st.scriptBuf stringDataPair (le32 script.length)
  if script.length + st.buffer.length < 2 ^ 31 then some (scriptBuf ++ st.buffer) else none

/-! ## Script images -/

/-- String `i` of a script by the rule of `ExtractText` for V2 scripts. -/
def v2String (m : Mem UInt8) (i : Nat) : Option WString := do
  let index ← dword m stringIndexPair
  let data ← dword m stringDataPair
  let info ← fileInfo m index i
  let infoStr ← units m ((data + 2 * info.offset) % 2 ^ 32) info.length
  return decryptString infoStr i

/-- A script with the strings `strings`: its string index lies inside the file, and each string can be
read. -/
structure ScriptImage (script : List UInt8) (index data : Nat) (strings : List WString) : Prop where
  index_eq : dword (Mem.ofList script) stringIndexPair = some index
  count_eq : dword (Mem.ofList script) (stringIndexPair + 4) = some strings.length
  data_eq : dword (Mem.ofList script) stringDataPair = some data
  index_le : index + 8 * strings.length ≤ script.length
  string : ∀ i (h : i < strings.length), v2String (Mem.ofList script) i = some strings[i]
  size_lt : script.length < 2 ^ 31

/-- The index table lies apart from the two pairs of the header that lead to the strings. -/
def IndexApart (index n : Nat) : Prop := n = 0 ∨ index + 8 * n ≤ stringIndexPair ∨ stringDataPair + 4 ≤ index

theorem v2String_eq {m : Mem UInt8} {index data i : Nat} {s : WString}
    (hi : dword m stringIndexPair = some index) (hd : dword m stringDataPair = some data) :
    v2String m i = some s ↔ ∃ info infoStr, fileInfo m index i = some info ∧
      units m ((data + 2 * info.offset) % 2 ^ 32) info.length = some infoStr ∧ decryptString infoStr i = s := by
  simp [v2String, hi, hd, Option.bind_eq_some_iff]

theorem oldStrings_of_entries {m : Mem UInt8} {index data : Nat} : ∀ {x : Nat} {strings : List WString},
    (∀ k (h : k < strings.length), ∃ info infoStr, fileInfo m index (x + k) = some info ∧ info.length < 2 ^ 30 ∧
      units m ((data + 2 * info.offset) % 2 ^ 32) info.length = some infoStr ∧
      decryptString infoStr (x + k) = strings[k]) →
    oldStrings m index data x strings.length = some strings
  | _, [], _ => rfl
  | x, s :: strings, h => by
    obtain ⟨info, infoStr, h1, h2, h3, h4⟩ := h 0 (Nat.succ_pos _)
    have ih := oldStrings_of_entries (m := m) (x := x + 1)
      fun k hk => by
        have := h (k + 1) (Nat.succ_lt_succ hk)
        simpa [show x + (k + 1) = x + 1 + k by omega] using this
    rw [List.length_cons, oldStrings]
    rw [Nat.add_zero] at h1 h4
    simp only [h1, Option.bind_eq_bind, Option.bind_some, if_neg (Nat.not_le.2 h2), h3, ih]
    rw [h4]
    rfl

/-- The first loop finds the strings of the image. -/
theorem ScriptImage.oldStrings_eq {script : List UInt8} {index data : Nat} {strings : List WString}
    (h : ScriptImage script index data strings) :
    oldStrings (Mem.ofList script) index data 0 strings.length = some strings := by
  refine oldStrings_of_entries fun k hk => ?_
  obtain ⟨info, infoStr, h1, h2, h3⟩ := (v2String_eq h.index_eq h.data_eq).1 (h.string k hk)
  rw [Nat.zero_add]
  refine ⟨info, infoStr, h1, ?_, h2, h3⟩
  have hsize := h.size_lt
  rcases units_le h2 with h0 | h0 <;> omega

/-! ## The lines in the table -/

theorem cString_of_no_nul {s : WString} (h : (0 : UInt16) ∉ s) : cString s = s := by
  apply List.takeWhile_eq_self_iff.2
  intro u hu
  simp only [decide_eq_true_eq]
  rintro rfl
  exact h hu

theorem map_cString : ∀ {strings : List WString}, (∀ s ∈ strings, (0 : UInt16) ∉ s) → strings.map cString = strings
  | [], _ => rfl
  | s :: strings, h => by
    rw [List.map_cons, cString_of_no_nul (h s List.mem_cons_self),
      map_cString fun t ht => h t (List.mem_cons_of_mem s ht)]

theorem no_nul_cString (s : WString) : (0 : UInt16) ∉ cString s := by
  intro h
  have := List.mem_takeWhile_imp h
  simp at this

/-- What the third loop copies for an item. -/
def StringTableItem.copied (item : StringTableItem) : WString := cString (item.newString.getD item.oldString)

/-- The lines stand for the first strings of the table, and the others keep theirs; each is copied up
to its first NUL. -/
theorem stringTable_copied : ∀ {old lines : List WString}, lines.length ≤ old.length →
    ∃ items, stringTable old lines = some items ∧
      items.map StringTableItem.copied = (lines ++ old.drop lines.length).map cString
  | old, [], _ => by
    refine ⟨old.map fun s => ⟨s, none⟩, by cases old <;> rfl, ?_⟩
    rw [List.map_map, List.nil_append, List.length_nil, List.drop_zero]
    rfl
  | s :: old, line :: lines, h => by
    obtain ⟨items, h1, h2⟩ := stringTable_copied (Nat.le_of_succ_le_succ h)
    refine ⟨⟨s, some (cString line)⟩ :: items, by rw [stringTable, h1]; rfl, ?_⟩
    rw [List.map_cons, h2, List.cons_append, List.map_cons, List.length_cons, List.drop_succ_cons]
    congr 1
    exact cString_of_no_nul (no_nul_cString line)

/-! ## The third loop -/

/-- The index entries of strings that lie one behind the other from unit `offset` on. -/
def indexTable : Nat → List WString → List UInt8
  | _, [] => []
  | offset, s :: strings => le32 offset ++ le32 s.length ++ indexTable (offset + s.length) strings

/-- The string data, encrypted, from string `x` on. -/
def stringData : Nat → List WString → List UInt8
  | _, [] => []
  | x, s :: strings => bytes (decryptString s x) ++ stringData (x + 1) strings

@[simp] theorem indexTable_length : ∀ (offset : Nat) (strings : List WString),
    (indexTable offset strings).length = 8 * strings.length
  | _, [] => rfl
  | offset, s :: strings => by
    rw [indexTable, List.length_append, indexTable_length (offset + s.length) strings, List.length_append,
      le32_length, le32_length, List.length_cons]
    omega

@[simp] theorem stringData_length : ∀ (x : Nat) (strings : List WString),
    (stringData x strings).length = 2 * strings.flatten.length
  | _, [] => rfl
  | x, s :: strings => by
    rw [stringData, List.length_append, stringData_length (x + 1) strings, bytes_length, decryptString_length,
      List.flatten_cons, List.length_append]
    omega

theorem tmpBuffer_eq_some {s tmp : WString} : tmpBuffer s = some tmp ↔ cString s = tmp ∧ (cString s).length < 2048 := by
  unfold tmpBuffer
  split
  · next h => simp [h]
  · next h => simp [h]

/-- The third loop, where every string fits `tmp_buffer` and the index lies in the script. -/
theorem repackLoop_spec (index : Nat) : ∀ (x : Nat) (items : List StringTableItem) (st : RepackState),
    (∀ item ∈ items, item.copied.length < 2048) → index + 8 * (x + items.length) ≤ st.scriptBuf.length →
    st.scriptBuf.length < 2 ^ 31 → st.buffer.length % 2 = 0 →
    ∃ st', repackLoop index x items st = some st' ∧
      st'.buffer = st.buffer ++ stringData x (items.map StringTableItem.copied) ∧
      st'.scriptBuf.length = st.scriptBuf.length ∧
      (Mem.ofList st'.scriptBuf).Holds (index + 8 * x)
        (indexTable (st.buffer.length / 2) (items.map StringTableItem.copied)) ∧
      ∀ b, b < index + 8 * x ∨ index + 8 * (x + items.length) ≤ b → st'.scriptBuf[b]? = st.scriptBuf[b]?
  | x, [], st, _, _, _, _ => ⟨st, rfl, by simp [stringData], rfl, by simp [indexTable], fun _ _ => rfl⟩
  | x, item :: items, st, hfit, hle, hlt, heven => by
    rw [List.length_cons] at hle
    have htmp := tmpBuffer_eq_some.2 ⟨rfl, hfit item List.mem_cons_self⟩
    obtain ⟨scriptBuf, hpatch⟩ := patch_isSome (l := st.scriptBuf) (p := index + 8 * x)
      (s := le32 (st.buffer.length / 2) ++ le32 (2 * item.copied.length / 2)) (by
        rw [List.length_append, le32_length, le32_length]
        omega)
    have hlen := length_of_patch hpatch
    -- the entries behind this one are written later, and none of them touches it
    obtain ⟨st', h1, h2, h3, h4, h5⟩ := repackLoop_spec index (x + 1) items
      ⟨scriptBuf, st.buffer ++ bytes (decryptString item.copied x)⟩
      (fun i hi => hfit i (List.mem_cons_of_mem _ hi)) (by simp only [hlen]; omega) (by simpa [hlen] using hlt)
      (by simp only [List.length_append, bytes_length]; omega)
    refine ⟨st', ?_, ?_, h3.trans hlen, ?_, ?_⟩
    · rw [repackLoop, htmp]
      simp only [Option.bind_eq_bind, Option.bind_some, Nat.mod_eq_of_lt (show index + 8 * x < 2 ^ 32 by omega)]
      rw [show (cString (item.newString.getD item.oldString)) = item.copied from rfl, hpatch, Option.bind_some, h1]
    · rw [h2, List.map_cons, stringData, List.append_assoc]
    -- offsets count units, the buffer counts bytes
    · have hoff : (st.buffer ++ bytes (decryptString item.copied x)).length / 2 =
          st.buffer.length / 2 + item.copied.length := by
        rw [List.length_append, bytes_length, decryptString_length]
        omega
      rw [List.map_cons, indexTable, Mem.holds_append]
      constructor
      · have := holds_of_patch hpatch
        rw [Nat.mul_div_cancel_left _ (show 0 < 2 by decide)] at this
        refine this.same fun k hk => ?_
        simp only [List.length_append, le32_length] at hk
        exact (h5 _ (.inl (by omega))).symm
      · simp only [hoff] at h4
        exact h4
    · intro b hb
      rw [List.length_cons] at hb
      rw [h5 b (by omega), getElem?_of_patch hpatch (by
        rw [List.length_append, le32_length, le32_length]
        omega)]

/-- The third loop overflows `tmp_buffer` at a string that does not fit. -/
theorem repackLoop_fits {index : Nat} : ∀ {x : Nat} {items : List StringTableItem} {st st' : RepackState},
    repackLoop index x items st = some st' → ∀ item ∈ items, item.copied.length < 2048
  | _, [], _, _, _, item, hi => by cases hi
  | x, head :: items, st, st', h, item, hi => by
    simp only [repackLoop, Option.bind_eq_bind, Option.bind_eq_some_iff] at h
    obtain ⟨tmp, htmp, scriptBuf, -, h⟩ := h
    rcases List.mem_cons.1 hi with rfl | hi
    · exact (tmpBuffer_eq_some.1 htmp).2
    · exact repackLoop_fits h item hi

/-- Strings that lie one behind the other are found by their index entries. -/
theorem entries_of_tables {m : Mem UInt8} {index base : Nat} : ∀ {x offset : Nat} {strings : List WString},
    m.Holds (index + 8 * x) (indexTable offset strings) → m.Holds (base + 2 * offset) (stringData x strings) →
    index + 8 * (x + strings.length) < 2 ^ 32 → base + 2 * (offset + strings.flatten.length) < 2 ^ 32 →
    ∀ k (h : k < strings.length), ∃ info, fileInfo m index (x + k) = some info ∧
      units m ((base + 2 * info.offset) % 2 ^ 32) info.length = some (decryptString strings[k] (x + k))
  | x, offset, s :: strings, ht, hd, hx, ho, k, hk => by
    rw [indexTable, Mem.holds_append, Mem.holds_append] at ht
    rw [stringData, Mem.holds_append, bytes_length, decryptString_length] at hd
    rw [List.flatten_cons, List.length_append] at ho
    rw [List.length_cons] at hx hk
    cases k with
    | zero =>
      have hlen : dword m (index + 8 * x + 4) = some s.length := dword_of_holds ht.1.2 (by omega)
      refine ⟨⟨offset, s.length⟩, ?_, ?_⟩
      · rw [Nat.add_zero, fileInfo, Nat.mod_eq_of_lt (by omega), dword_of_holds ht.1.1 (by omega)]
        simp only [Option.bind_eq_bind, Option.bind_some, hlen]
        rfl
      · have := units_of_holds hd.1
        rw [decryptString_length] at this
        rw [Nat.mod_eq_of_lt (by simp only; omega)]
        exact this
    | succ k =>
      have := entries_of_tables (x := x + 1) ht.2
        (by rw [show base + 2 * (offset + s.length) = base + 2 * offset + 2 * s.length by omega]; exact hd.2)
        (by omega) (by omega) k (by omega)
      simpa [show x + 1 + k = x + (k + 1) by omega] using this

/-! ## ScriptRepacker -/

section

variable {script : List UInt8} {index data : Nat} {strings lines : List WString}
  (h : ScriptImage script index data strings)

/-- What the new script shows: the copied strings under the V2 rule, and the bytes of the original
outside the index entries and the place of the string data. -/
structure Repacked (script : List UInt8) (index : Nat) (copied : List WString) (out : List UInt8) : Prop where
  string : ∀ i (h : i < copied.length), v2String (Mem.ofList out) i = some copied[i]
  frame : ∀ b < script.length, b < index ∨ index + 8 * copied.length ≤ b →
    b < stringDataPair ∨ stringDataPair + 4 ≤ b → out[b]? = script[b]?

/-- The strings of the new script: the lines and, behind them, the strings that had no line. -/
def newStrings (strings lines : List WString) : List WString := lines ++ strings.drop lines.length

theorem newStrings_length (hk : lines.length ≤ strings.length) :
    (newStrings strings lines).length = strings.length := by
  rw [newStrings, List.length_append, List.length_drop]
  omega

include h in
/-- A script whose copied strings fit is repacked, and the new script shows these strings. -/
theorem repack_spec (hapart : IndexApart index strings.length) (hk : lines.length ≤ strings.length)
    (hfit : ∀ s ∈ newStrings strings lines, (cString s).length < 2048)
    (hsize : script.length + 2 * ((newStrings strings lines).map cString).flatten.length < 2 ^ 31) :
    ∃ out, repack script lines = some out ∧
      Repacked script index ((newStrings strings lines).map cString) out := by
  obtain ⟨items, hitems, hcopied⟩ := stringTable_copied hk
  have hnew := newStrings_length hk
  rw [← newStrings] at hcopied
  have hn : items.length = strings.length := by
    rw [← hnew, ← List.length_map (f := cString), ← hcopied, List.length_map]
  have hle := h.index_le
  have hlt := h.size_lt
  obtain ⟨st, hloop, hbuf, hlen, htable, hframe⟩ := repackLoop_spec index 0 items
    ⟨script, []⟩ (fun item hi => by
      have : item.copied ∈ items.map StringTableItem.copied := List.mem_map_of_mem hi
      rw [hcopied] at this
      obtain ⟨s, hs, heq⟩ := List.mem_map.1 this
      rw [← heq]
      exact hfit s hs) (by simp only; omega) hlt rfl
  simp only [List.nil_append, List.length_nil, Nat.zero_div, hcopied] at hbuf htable
  rw [Nat.mul_zero, Nat.add_zero] at htable hframe
  simp only [Nat.zero_add, hn] at hframe hlen
  obtain ⟨hd20, -⟩ := (holds_of_dword h.data_eq).take_drop (by rw [le32_length]; decide)
  simp only [le32_length, stringDataPair] at hd20
  obtain ⟨scriptBuf, hpatch⟩ := patch_isSome (l := st.scriptBuf) (p := stringDataPair) (s := le32 script.length)
    (by simp only [hlen, le32_length, stringDataPair]; omega)
  have hlen' := (length_of_patch hpatch).trans hlen
  have hget : ∀ b < script.length, (scriptBuf ++ st.buffer)[b]? = scriptBuf[b]? :=
    fun b hb => List.getElem?_append_left (by omega)
  have hkeep : ∀ b < script.length, b < stringDataPair ∨ stringDataPair + 4 ≤ b →
      (scriptBuf ++ st.buffer)[b]? = st.scriptBuf[b]? := by
    intro b hb hb'
    rw [hget b hb, getElem?_of_patch hpatch (by simpa using hb')]
  refine ⟨scriptBuf ++ st.buffer, ?_, ?_, ?_⟩
  · unfold repack
    simp only [h.index_eq, h.data_eq, h.count_eq, h.oldStrings_eq, hitems, hloop, hpatch, hbuf, stringData_length,
      Option.bind_eq_bind, Option.bind_some, if_pos hsize]
  · intro i hi
    have hii : i < strings.length := by simpa [hnew] using hi
    rw [IndexApart] at hapart
    simp only [stringIndexPair, stringDataPair] at hapart
    -- the header still says where the index is, since no entry lies there
    have hindex : dword (Mem.ofList (scriptBuf ++ st.buffer)) stringIndexPair = some index := by
      rw [← h.index_eq]
      refine dword_same fun k hk => ?_
      simp only [Mem.ofList, stringIndexPair]
      rw [hkeep _ (by omega) (.inl (by simp only [stringDataPair]; omega)), hframe _ (by omega)]
    have hdata : dword (Mem.ofList (scriptBuf ++ st.buffer)) stringDataPair = some script.length := by
      refine dword_of_holds ((holds_of_patch hpatch).same fun k hk => ?_) (by omega)
      rw [le32_length] at hk
      exact (hget _ (by simp only [stringDataPair]; omega)).symm
    have ht : (Mem.ofList (scriptBuf ++ st.buffer)).Holds (index + 8 * 0)
        (indexTable 0 ((newStrings strings lines).map cString)) := by
      refine htable.same fun k hk => ?_
      rw [indexTable_length, List.length_map, hnew] at hk
      exact (hkeep _ (by omega) (by simp only [stringDataPair]; omega)).symm
    have hs : (Mem.ofList (scriptBuf ++ st.buffer)).Holds (script.length + 2 * 0)
        (stringData 0 ((newStrings strings lines).map cString)) := by
      rw [hbuf]
      have := Mem.holds_ofList scriptBuf (stringData 0 ((newStrings strings lines).map cString)) []
      rwa [List.append_nil, hlen'] at this
    obtain ⟨info, h1, h2⟩ := entries_of_tables ht hs (by rw [List.length_map, hnew]; omega) (by omega) i hi
    rw [Nat.zero_add] at h1 h2
    exact (v2String_eq hindex hdata).2 ⟨info, _, h1, h2, decryptString_decryptString _ _⟩
  · intro b hb hb' hb''
    rw [List.length_map, hnew] at hb'
    rw [hkeep b hb hb'', hframe b hb']

include h in
/-- A script that is repacked had fitting strings. -/
theorem repack_fits (hk : lines.length ≤ strings.length) {out : List UInt8} (hout : repack script lines = some out) :
    (∀ s ∈ newStrings strings lines, (cString s).length < 2048) ∧
      script.length + 2 * ((newStrings strings lines).map cString).flatten.length < 2 ^ 31 := by
  obtain ⟨items, hitems, hcopied⟩ := stringTable_copied hk
  rw [← newStrings] at hcopied
  unfold repack at hout
  simp only [h.index_eq, h.data_eq, h.count_eq, h.oldStrings_eq, hitems, Option.bind_eq_bind, Option.bind_some,
    Option.bind_eq_some_iff] at hout
  obtain ⟨st, hloop, scriptBuf, hpatch, hout⟩ := hout
  have hfit := repackLoop_fits hloop
  have hnew := newStrings_length hk
  have hn : items.length = strings.length := by
    rw [← hnew, ← List.length_map (f := cString), ← hcopied, List.length_map]
  have hle := h.index_le
  obtain ⟨st', hloop', hbuf, -⟩ := repackLoop_spec index 0 items ⟨script, []⟩
    hfit (by simp only; omega) h.size_lt rfl
  rw [hloop, Option.some.injEq] at hloop'
  subst hloop'
  constructor
  · intro s hs
    have : cString s ∈ items.map StringTableItem.copied := hcopied ▸ List.mem_map_of_mem hs
    obtain ⟨item, hi, heq⟩ := List.mem_map.1 this
    rw [← heq]
    exact hfit item hi
  · split at hout
    · next hlt =>
      rw [hbuf, hcopied] at hlt
      simpa using hlt
    · cases hout

include h in
/-- Where the index lies apart from the header's two pairs and the lines contain no NUL, the script is
rewritten faithfully just when the lines and the strings that keep their place are shorter than
`tmp_buffer`, these strings contain no NUL, and the new script is smaller than 2 GiB. -/
theorem repack_iff (hapart : IndexApart index strings.length) (hk : lines.length ≤ strings.length)
    (hlines : ∀ line ∈ lines, (0 : UInt16) ∉ line) :
    (∃ out, repack script lines = some out ∧
      (∀ i (hi : i < lines.length), v2String (Mem.ofList out) i = some lines[i]) ∧
      (∀ i (hi : i < strings.length), lines.length ≤ i → v2String (Mem.ofList out) i = some strings[i]) ∧
      ∀ b < script.length, b < index ∨ index + 8 * strings.length ≤ b →
        b < stringDataPair ∨ stringDataPair + 4 ≤ b → out[b]? = script[b]?) ↔
    (∀ line ∈ lines, line.length < 2048) ∧
      (∀ s ∈ strings.drop lines.length, s.length < 2048 ∧ (0 : UInt16) ∉ s) ∧
      script.length + 2 * (newStrings strings lines).flatten.length < 2 ^ 31 := by
  have hnew := newStrings_length hk
  constructor
  · rintro ⟨out, hout, h1, h2, -⟩
    obtain ⟨hfit, hsize⟩ := repack_fits h hk hout
    obtain ⟨out', hout', hr⟩ := repack_spec h hapart hk hfit hsize
    rw [hout, Option.some.injEq] at hout'
    subst hout'
    -- a string that was kept has come back whole, and what is copied has no NUL
    have hno : ∀ s ∈ newStrings strings lines, (0 : UInt16) ∉ s := by
      intro s hs
      rcases List.mem_append.1 hs with hs | hs
      · exact hlines s hs
      · obtain ⟨i, hi, rfl⟩ := List.mem_iff_getElem.1 hs
        rw [List.length_drop] at hi
        rw [List.getElem_drop]
        have hkept := h2 (lines.length + i) (by omega) (by omega)
        rw [hr.string (lines.length + i) (by rw [List.length_map, hnew]; omega), Option.some.injEq,
          List.getElem_map] at hkept
        simp only [newStrings, List.getElem_append_right (Nat.le_add_right _ _), Nat.add_sub_cancel_left,
          List.getElem_drop] at hkept
        rw [← hkept]
        exact no_nul_cString _
    have hsame : (newStrings strings lines).map cString = newStrings strings lines :=
      map_cString fun s hs => hno s hs
    rw [hsame] at hsize
    have hlt : ∀ s ∈ newStrings strings lines, s.length < 2048 := fun s hs => by
      have := hfit s hs
      rwa [cString_of_no_nul (hno s hs)] at this
    exact ⟨fun line hline => hlt line (List.mem_append_left _ hline),
      fun s hs => ⟨hlt s (List.mem_append_right _ hs), hno s (List.mem_append_right _ hs)⟩, hsize⟩
  · rintro ⟨h1, h2, h3⟩
    have hno : ∀ s ∈ newStrings strings lines, s.length < 2048 ∧ (0 : UInt16) ∉ s := by
      intro s hs
      rcases List.mem_append.1 hs with hs | hs
      · exact ⟨h1 s hs, hlines s hs⟩
      · exact h2 s hs
    have hsame : (newStrings strings lines).map cString = newStrings strings lines :=
      map_cString fun s hs => (hno s hs).2
    obtain ⟨out, hout, hr⟩ := repack_spec h hapart hk
      (fun s hs => by rw [cString_of_no_nul (hno s hs).2]; exact (hno s hs).1) (by rwa [hsame])
    rw [hsame] at hr
    refine ⟨out, hout, fun i hi => ?_, fun i hi hki => ?_, fun b hb hb' hb'' => hr.frame b hb (by rwa [hnew]) hb''⟩
    · rw [hr.string i (by omega)]
      simp [newStrings, hi]
    · rw [hr.string i (by omega)]
      simp [newStrings, List.getElem_append_right hki, Nat.add_sub_cancel' hki]

end

/-- A script of 44 bytes with a single string of one unit: the index behind the header fields, the
string behind the index. -/
def smallScript (u : UInt16) : List UInt8 :=
  List.replicate 12 0 ++ le32 28 ++ le32 1 ++ le32 36 ++ le32 0 ++ le32 0 ++ le32 1 ++ bytes [u] ++ List.replicate 6 0

theorem smallScript_image : ScriptImage (smallScript 97) 28 36 [[97]] where
  index_eq := by decide
  count_eq := by decide
  data_eq := by decide
  index_le := by decide
  string i hi := by
    obtain rfl : i = 0 := by simpa using hi
    rw [List.getElem_cons_zero]
    decide
  size_lt := by decide

theorem repack_iff_small : ∃ out, repack (smallScript 97) [[98, 99]] = some out ∧
    (∀ i (hi : i < 1), v2String (Mem.ofList out) i = some [[(98 : UInt16), 99]][i]) ∧
    (∀ i (hi : i < 1), 1 ≤ i → v2String (Mem.ofList out) i = some [[(97 : UInt16)]][i]) ∧
    ∀ b < (smallScript 97).length, b < 28 ∨ 28 + 8 * 1 ≤ b →
      b < stringDataPair ∨ stringDataPair + 4 ≤ b → out[b]? = (smallScript 97)[b]? :=
  (repack_iff smallScript_image (.inr (.inr (by decide))) (by decide) (by decide)).2
    ⟨by decide, by decide, by decide⟩

/-- A line of 2048 units overflows `tmp_buffer`, and a string that is a single NUL is lost. -/
theorem repack_fails :
    (¬ ∃ out, repack (smallScript 97) [List.replicate 2048 98] = some out) ∧
      ¬ ∃ out, repack (smallScript 0) [] = some out ∧
          v2String (Mem.ofList out) 0 = v2String (Mem.ofList (smallScript 0)) 0 := by
  constructor
  · rintro ⟨out, h⟩
    have : repack (smallScript 97) [List.replicate 2048 98] = none := by decide +kernel
    rw [this] at h
    cases h
  · rintro ⟨out, h, hs⟩
    have : (repack (smallScript 0) []).any (fun out =>
        v2String (Mem.ofList out) 0 == v2String (Mem.ofList (smallScript 0)) 0) = false := by decide +kernel
    rw [h, Option.any_some, hs] at this
    simp at this

end SiglusExtract
