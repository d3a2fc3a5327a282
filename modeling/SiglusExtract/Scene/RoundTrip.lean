/-
The round trip of `Scene.pck`: what `CreateScenePck` writes for a folder of scripts is unpacked to
these scripts by `UnpackScene::Unpack`, with the header and the tables of the original pack.
-/
import SiglusExtract.Scene.Unpack
import Mathlib.Data.List.Forall2
import Mathlib.Data.List.TakeWhile

namespace SiglusExtract

open Lz Bytes Lzss Compression Xor Wide Patch

/-! ## Original packs -/

/-- The bytes of a pack that stay in the new pack: below the data section and outside `SceneInfo`,
which has `n` entries. -/
def Kept (info data n b : Nat) : Prop := b < data ∧ (b < info ∨ info + 8 * n ≤ b)

/-- The two packs agree on what stays. -/
def Agree (info data n : Nat) (l l' : List UInt8) : Prop := ∀ b, Kept info data n b → l[b]? = l'[b]?

/-- An original pack with the scene names `names`: its tables are in range, `SceneInfo` lies below the
data section, the header pairs, the name index and the names are kept, and the names contain no NUL
and fit their buffers. -/
structure OriginalPack (before : UInt16) (path : WString) (pck : List UInt8) (nameIndex name info data : Nat)
    (names : List WString) : Prop where
  nameIndexOffset : dword (Mem.ofList pck) SceneHeader.sceneNameIndex = some nameIndex
  count : dword (Mem.ofList pck) (SceneHeader.sceneNameIndex + 4) = some names.length
  nameOffset : dword (Mem.ofList pck) SceneHeader.sceneName = some name
  infoOffset : dword (Mem.ofList pck) SceneHeader.sceneInfo = some info
  dataOffset : dword (Mem.ofList pck) SceneHeader.sceneData = some data
  header_kept : ∀ b, SceneHeader.sceneNameIndex ≤ b → b < SceneHeader.sceneData + 4 →
    Kept info data names.length b
  index_kept : ∀ b, nameIndex ≤ b → b < nameIndex + 8 * names.length → Kept info data names.length b
  entry : ∀ i (h : i < names.length), ∃ offset,
    headerPair (Mem.ofList pck) nameIndex i = some ⟨offset, names[i].length⟩ ∧
    units (Mem.ofList pck) ((name + 2 * offset) % 2 ^ 32) names[i].length = some names[i] ∧
    ∀ b, (name + 2 * offset) % 2 ^ 32 ≤ b → b < (name + 2 * offset) % 2 ^ 32 + 2 * names[i].length →
      Kept info data names.length b
  no_nul : ∀ s ∈ names, (0 : UInt16) ∉ s
  fits : ∀ i (h : i < names.length), (scriptFileName i names[i]).length < maxPath ∧
    (fullPath before path (scriptFileName i names[i])).length < maxPath
  info_le : info + 8 * names.length ≤ data
  data_le : data ≤ pck.length
  size_lt : pck.length < 2 ^ 31

theorem headerPair_same {m m' : Mem UInt8} {table i : Nat} (h : m.Same m' ((table + 8 * i) % 2 ^ 32) 8) :
    headerPair m table i = headerPair m' table i := by
  rw [headerPair, headerPair, dword_same (h.sub (Nat.le_refl _) (by omega)),
    dword_same (h.sub (Nat.le_add_right _ 4) (by omega))]

theorem headerPair_of_holds {m : Mem UInt8} {table i offset count : Nat} (hlt : table + 8 * i < 2 ^ 32)
    (h : m.Holds (table + 8 * i) (le32 offset ++ le32 count)) (ho : offset < 2 ^ 32) (hc : count < 2 ^ 32) :
    headerPair m table i = some ⟨offset, count⟩ := by
  rw [Mem.holds_append] at h
  have hcount : dword m (table + 8 * i + 4) = some count := dword_of_holds h.2 hc
  rw [headerPair, Nat.mod_eq_of_lt hlt, dword_of_holds h.1 ho]
  simp only [Option.bind_eq_bind, Option.bind_some, hcount]
  rfl

section Tables

variable {before : UInt16} {path : WString} {pck : List UInt8} {nameIndex name info data : Nat}
  {names : List WString} (h : OriginalPack before path pck nameIndex name info data names)
  {l : List UInt8} (hl : Agree info data names.length l pck)

include hl in
/-- Where every byte of a range is kept, a pack that agrees has the same range. -/
theorem Agree.same {p n : Nat} (hk : ∀ b, p ≤ b → b < p + n → Kept info data names.length b) :
    (Mem.ofList l).Same (Mem.ofList pck) p n :=
  fun i hi => hl _ (hk _ (by omega) (by omega))

include h hl in
/-- A pair of the header. -/
theorem OriginalPack.dword_header {p : Nat} (hp : SceneHeader.sceneNameIndex ≤ p) (hp' : p ≤ SceneHeader.sceneData) :
    dword (Mem.ofList l) p = dword (Mem.ofList pck) p :=
  dword_same (hl.same fun b _ _ => h.header_kept b (by omega) (by omega))

include h hl in
/-- The name of a scene, read from a pack that agrees. -/
theorem OriginalPack.read_name {i : Nat} (hi : i < names.length) : ∃ offset,
    headerPair (Mem.ofList l) nameIndex i = some ⟨offset, names[i].length⟩ ∧
      units (Mem.ofList l) ((name + 2 * offset) % 2 ^ 32) names[i].length = some names[i] := by
  obtain ⟨offset, h1, h2, h3⟩ := h.entry i hi
  have hlt : nameIndex + 8 * i < 2 ^ 32 := by
    have := (h.index_kept (nameIndex + 8 * i) (by omega) (by omega)).1
    have := h.data_le
    have := h.size_lt
    omega
  refine ⟨offset, ?_, ?_⟩
  · rw [headerPair_same (hl.same ?_), h1]
    rw [Nat.mod_eq_of_lt hlt]
    exact fun b _ _ => h.index_kept b (by omega) (by omega)
  · rw [units_same (hl.same h3), h2]

include h in
theorem OriginalPack.name_lt {i : Nat} (hi : i < names.length) : names[i].length < maxPath := by
  have := (h.fits i hi).1
  simp only [scriptFileName, List.length_append] at this
  omega

end Tables

/-! ## Packed scripts -/

/-- The layers over a compressed script. -/
def layers (code : DecodeControl) (d : List UInt8) : List UInt8 :=
  if code.pckNeedKey then xorKs (keyStream1 code.privateKey) (xorKs keyStream2 d) else xorKs keyStream2 d

@[simp] theorem layers_length (code : DecodeControl) (d : List UInt8) : (layers code d).length = d.length := by
  unfold layers
  split <;> simp

/-- `chunk` is what stands for the script `ss` in the data section: its compressed form under the
layers, then eight more bytes. -/
def PackedScript (code : DecodeControl) (ss chunk : List UInt8) : Prop :=
  ∃ complen ts s tail, chunk = layers code (le32 complen ++ le32 ss.length ++ s) ++ tail ∧
    tail.length = 8 ∧ Frame 0 0 ts s ∧ expand ts [] = some ss ∧ ss.length < 2 ^ 29

theorem PackedScript.length_le {code : DecodeControl} {ss chunk : List UInt8} (h : PackedScript code ss chunk) :
    16 ≤ chunk.length := by
  obtain ⟨complen, ts, s, tail, rfl, ht, -⟩ := h
  simp
  omega

/-- The entries of `SceneInfo` for chunks that lie one behind the other from `offset` on. -/
def infoTable : Nat → List (List UInt8) → List UInt8
  | _, [] => []
  | offset, chunk :: chunks => le32 offset ++ le32 (chunk.length - 8) ++ infoTable (offset + chunk.length) chunks

/-- Offsets count modulo `2^32`. -/
theorem infoTable_congr : ∀ {a b : Nat}, a % 2 ^ 32 = b % 2 ^ 32 → ∀ chunks, infoTable a chunks = infoTable b chunks
  | _, _, _, [] => rfl
  | a, b, h, chunk :: chunks => by
    rw [infoTable, infoTable, le32_congr h, infoTable_congr (b := b + chunk.length) (by omega)]

@[simp] theorem infoTable_length : ∀ (offset : Nat) (chunks : List (List UInt8)),
    (infoTable offset chunks).length = 8 * chunks.length
  | _, [] => rfl
  | offset, chunk :: chunks => by
    rw [infoTable, List.length_append, infoTable_length (offset + chunk.length) chunks, List.length_append,
      le32_length, le32_length, List.length_cons]
    omega

/-! ## Packing -/

theorem wcsncpy_of_units {m : Mem UInt8} : ∀ {p n : Nat} {s : WString}, units m p n = some s → (0 : UInt16) ∉ s →
    wcsncpy m p n = some s
  | _, 0, s, h, _ => h
  | p, n + 1, s, h, hs => by
    simp only [units, Option.bind_eq_bind, Option.bind_eq_some_iff, Option.pure_def, Option.some.injEq] at h
    obtain ⟨u, hu, t, ht, rfl⟩ := h
    rw [List.mem_cons, not_or] at hs
    rw [wcsncpy, hu]
    simp only [Option.bind_eq_bind, Option.bind_some, if_neg (Ne.symm hs.1), wcsncpy_of_units ht hs.2]
    rfl

theorem nameBuffer_of_lt {s : WString} (h : s.length < maxPath) : nameBuffer s = some s := if_pos h

theorem encryptScript_append (code : DecodeControl) (d e : List UInt8) :
    encryptScript code.privateKey code.pckNeedKey (d ++ e) d.length = some (layers code d ++ e) := by
  unfold encryptScript layers
  rw [decrypt2_append]
  cases code.pckNeedKey with
  | false => rfl
  | true =>
    have := decrypt1_append code.privateKey (xorKs keyStream2 d) e
    rw [xorKs_length] at this
    exact this

/-- The block behind the first `d` bytes, where eight more are in it. -/
theorem outBytes_append {d e : List UInt8} {allocated : Nat} (hfit : d.length + 8 ≤ allocated) :
    ∃ tail, outBytes (d ++ e) allocated (d.length + 8) = some (d ++ tail) ∧ tail.length = 8 := by
  rw [outBytes, if_pos hfit, List.append_assoc, List.take_append, List.take_of_length_le (by omega),
    Nat.add_sub_cancel_left]
  refine ⟨_, rfl, ?_⟩
  simp
  omega

/-- The block of `CompressData` under the layers, as far as it is copied: from six bytes on the eight bytes
behind `complen` are in it. -/
theorem compressData_packed (code : DecodeControl) (t : OffTable) {ss : List UInt8} (h6 : 6 ≤ ss.length)
    (hss : ss.length < 2 ^ 29) (past : UInt8) :
    ∃ c outbuffer chunk, compressDataInBlock t (Mem.ofList (ss ++ [past])) ss.length 17 = some c ∧
      encryptScript code.privateKey code.pckNeedKey c.buffer c.complen = some outbuffer ∧
      outBytes outbuffer c.allocated (c.complen + 8) = some chunk ∧ chunk.length = c.complen + 8 ∧
      PackedScript code ss chunk := by
  obtain ⟨c, ts, s, junk, hc, hbuf, hj, hcomplen, hle, hf, he⟩ := compressData_stream t
    (Mem.holds_ofList_self (ss ++ [past]) []) 17 (by omega) hss
  rw [List.append_nil] at hc
  have halloc := (compressData_allocated (compressDataInBlock_eq_some.1 hc).1).2
  obtain ⟨d, hd⟩ : ∃ d, d = le32 c.complen ++ le32 ss.length ++ s := ⟨_, rfl⟩
  have hlen : c.complen = d.length := by
    simp only [hd, List.length_append, le32_length]
    omega
  have hs := hf.stream_length_le he
  have hfit : (layers code d).length + 8 ≤ c.allocated := by
    rw [layers_length]
    omega
  obtain ⟨tail, hout, htail⟩ := outBytes_append (e := junk) hfit
  rw [layers_length] at hout
  refine ⟨c, layers code d ++ junk, layers code d ++ tail, hc, ?_, ?_, ?_, c.complen, ts, s, tail, ?_, htail,
    hf, he, hss⟩
  · rw [hbuf, ← hd, hlen, encryptScript_append code d junk]
  · rw [hlen, hout]
  · rw [List.length_append, layers_length, htail, hlen]
  · rw [hd]

section Packing

variable {env : PackEnv} {code : DecodeControl} {pck : List UInt8} {nameIndex name info data : Nat}
  {names : List WString} (h : OriginalPack env.before env.path pck nameIndex name info data names)

include h in
/-- One turn of the packing loop: the chunk goes to the end of the data section, its entry into
`SceneInfo`. -/
theorem packScript_spec {st : PackState} (hl : Agree info data names.length st.buf pck)
    (hlen : st.buf.length = pck.length) {i : Nat} (hi : i < names.length) {ss : List UInt8}
    (hdisk : env.disk (fullPath env.before env.path (scriptFileName i names[i])) = some ss)
    (h6 : 6 ≤ ss.length) (hss : ss.length < 2 ^ 29) :
    ∃ st' chunk, packScript env code.privateKey code.pckNeedKey nameIndex name info i st = .ok st' ∧
      PackedScript code ss chunk ∧
      patch st.buf (info + 8 * i) (le32 st.diskOffset ++ le32 (chunk.length - 8)) = some st'.buf ∧
      st'.diskBuffer = st.diskBuffer ++ chunk ∧
      st'.diskOffset = (st.diskOffset + chunk.length) % 2 ^ 32 := by
  obtain ⟨offset, hentry, hunits⟩ := h.read_name hl hi
  obtain ⟨hf1, hf2⟩ := h.fits i hi
  have hname := h.name_lt hi
  have hwcs := wcsncpy_of_units hunits (h.no_nul _ (List.getElem_mem hi))
  obtain ⟨c, outbuffer, chunk, hc, henc, hout, hchunk, hp⟩ := compressData_packed code st.offTable h6 hss (env.past i)
  have hsize := h.size_lt
  have hinfo := h.info_le
  have hdata := h.data_le
  obtain ⟨buf, hbuf⟩ := patch_isSome (l := st.buf) (p := info + 8 * i)
    (s := le32 st.diskOffset ++ le32 c.complen) (by
      rw [List.length_append, le32_length, le32_length]
      omega)
  refine ⟨⟨c.offTable, buf, st.diskBuffer ++ chunk, (st.diskOffset + c.complen + 8) % 2 ^ 32⟩, chunk, ?_, hp, ?_,
    rfl, ?_⟩
  · unfold packScript
    simp only [hentry, orFault_some, ok_bind, if_neg (Nat.not_lt.2 (Nat.le_of_lt hname)), hwcs,
      nameBuffer_of_lt hname, nameBuffer_of_lt hf1, nameBuffer_of_lt hf2, hdisk, hc,
      Nat.mod_eq_of_lt (show info + 8 * i < 2 ^ 32 by omega), hbuf, henc, hout]
    rfl
  · rw [hchunk, Nat.add_sub_cancel, hbuf]
  · rw [hchunk, Nat.add_assoc]

include h in
/-- The packing loop from script `i` on, by recursion on the scripts that are left. -/
theorem packLoop_spec : ∀ (scripts : List (List UInt8)) (fuel i : Nat) (st : PackState), scripts.length < fuel →
    i + scripts.length = names.length → Agree info data names.length st.buf pck → st.buf.length = pck.length →
    (∀ k (hk : k < scripts.length) (hik : i + k < names.length),
      env.disk (fullPath env.before env.path (scriptFileName (i + k) names[i + k])) = some scripts[k]) →
    (∀ ss ∈ scripts, 6 ≤ ss.length ∧ ss.length < 2 ^ 29) →
    ∃ st' chunks, packLoop env code.privateKey code.pckNeedKey nameIndex name info fuel i st = .ok st' ∧
      List.Forall₂ (PackedScript code) scripts chunks ∧ st'.diskBuffer = st.diskBuffer ++ chunks.flatten ∧
      st'.buf.length = pck.length ∧ Agree info data names.length st'.buf pck ∧
      (Mem.ofList st'.buf).Holds (info + 8 * i) (infoTable st.diskOffset chunks) ∧
      ∀ b < info + 8 * i, st'.buf[b]? = st.buf[b]?
  | [], fuel + 1, i, st, _, hn, hl, hlen, _, _ => by
    have hcount := h.dword_header hl (p := SceneHeader.sceneNameIndex + 4) (by decide) (by decide)
    rw [List.length_nil, Nat.add_zero] at hn
    refine ⟨st, [], ?_, .nil, by simp, hlen, hl, by simp [infoTable], fun _ _ => rfl⟩
    rw [packLoop, hcount, h.count, orFault_some, ok_bind, if_neg (by omega)]
  | ss :: scripts, fuel + 1, i, st, hfuel, hn, hl, hlen, hdisk, hss => by
    rw [List.length_cons] at hn hfuel
    have hcount := h.dword_header hl (p := SceneHeader.sceneNameIndex + 4) (by decide) (by decide)
    obtain ⟨st', chunk, hstep, hp, hpatch, hbuf, hoff⟩ := packScript_spec h hl hlen
      (show i < names.length by omega) (hdisk 0 (by simp) (by omega)) (hss ss List.mem_cons_self).1
      (hss ss List.mem_cons_self).2
    have hl' : Agree info data names.length st'.buf pck := by
      intro b hb
      rw [getElem?_of_patch hpatch (by
        rcases hb.2 with hb | hb
        · exact .inl (by omega)
        · exact .inr (by simp only [List.length_append, le32_length]; omega))]
      exact hl b hb
    obtain ⟨st'', chunks, hloop, hps, hbuf', hlen', hl'', htable, hframe⟩ := packLoop_spec scripts fuel
      (i + 1) st' (by omega) (by omega) hl' ((length_of_patch hpatch).trans hlen)
      (fun k hk hik => by
        have := hdisk (k + 1) (by simp only [List.length_cons]; omega) (by omega)
        simpa [show i + (k + 1) = i + 1 + k by omega] using this)
      (fun s hs => hss s (List.mem_cons_of_mem _ hs))
    refine ⟨st'', chunk :: chunks, ?_, .cons hp hps, ?_, hlen', hl'', ?_, ?_⟩
    · rw [packLoop, hcount, h.count, orFault_some, ok_bind, if_pos (by omega), hstep, ok_bind, hloop]
    · rw [hbuf', hbuf, List.append_assoc, List.flatten_cons]
    · rw [infoTable, Mem.holds_append]
      constructor
      · apply (holds_of_patch hpatch).same
        intro k hk
        simp only [List.length_append, le32_length] at hk
        exact (hframe _ (by omega)).symm
      · rw [hoff, infoTable_congr (b := st.diskOffset + chunk.length) (by omega)] at htable
        exact htable
    · intro b hb
      rw [hframe b (by omega), getElem?_of_patch hpatch (.inl hb)]

end Packing

/-! ## Unpacking -/

namespace UnpackScene

/-- A pass in place over a string that lies in the buffer. -/
theorem inPlace_spec (pass : List UInt8 → Nat → Option (List UInt8)) {l d d' : List UInt8} {p : Nat}
    (hd : (Mem.ofList l).Holds p d) (hne : 0 < d.length) (hpass : pass d d.length = some d')
    (hlen : d'.length = d.length) :
    ∃ l', inPlace pass l p d.length = some l' ∧ (Mem.ofList l').Holds p d' ∧ l'.length = l.length ∧
      ∀ b, b < p ∨ p + d.length ≤ b → l'[b]? = l[b]? := by
  obtain ⟨hle, htake⟩ := hd.take_drop hne
  obtain ⟨l', hl'⟩ := patch_isSome (l := l) (p := p) (s := d') (by omega)
  refine ⟨l', ?_, holds_of_patch hl', length_of_patch hl', fun b hb => getElem?_of_patch hl' (by rwa [hlen])⟩
  rw [inPlace, if_pos hle, htake, hpass]
  exact hl'

/-- The two passes of `Unpack` take the layers off. -/
theorem decryptScript_spec (code : DecodeControl) {l d : List UInt8} {p : Nat} (hne : 0 < d.length)
    (hd : (Mem.ofList l).Holds p (layers code d)) :
    ∃ l', decryptScript code l p d.length = some l' ∧ (Mem.ofList l').Holds p d ∧ l'.length = l.length ∧
      ∀ b, b < p ∨ p + d.length ≤ b → l'[b]? = l[b]? := by
  have h2 : decrypt2 (xorKs keyStream2 d) (xorKs keyStream2 d).length = some d := by
    have := decrypt2_append (xorKs keyStream2 d) []
    rwa [List.append_nil, xorKs_xorKs, List.append_nil] at this
  obtain ⟨l', hl', hholds, hlen, hout⟩ : ∃ l', (if code.pckNeedKey then
        inPlace (fun debuf desize => decrypt1 debuf desize code.privateKey) l p d.length else some l) = some l' ∧
      (Mem.ofList l').Holds p (xorKs keyStream2 d) ∧ l'.length = l.length ∧
      ∀ b, b < p ∨ p + d.length ≤ b → l'[b]? = l[b]? := by
    unfold layers at hd
    cases hkey : code.pckNeedKey with
    | false =>
      rw [hkey] at hd
      exact ⟨l, rfl, hd, rfl, fun _ _ => rfl⟩
    | true =>
      rw [hkey, if_pos rfl] at hd
      have h1 := decrypt1_append code.privateKey (xorKs (keyStream1 code.privateKey) (xorKs keyStream2 d)) []
      rw [List.append_nil, xorKs_xorKs, List.append_nil] at h1
      obtain ⟨l', hin, hholds, hlen, hout⟩ := inPlace_spec
        (fun debuf desize => decrypt1 debuf desize code.privateKey) hd (by simpa using hne) h1 (by simp)
      simp only [xorKs_length] at hin hout
      exact ⟨l', by rw [if_pos rfl, hin], hholds, hlen, hout⟩
  obtain ⟨l'', hin, hholds', hlen', hout'⟩ := inPlace_spec decrypt2 hholds (by simpa using hne) h2 (by simp)
  rw [xorKs_length] at hin hout'
  exact ⟨l'', by rw [decryptScript, hl', Option.bind_some, hin], hholds', hlen'.trans hlen,
    fun b hb => (hout' b hb).trans (hout b hb)⟩

theorem takeWhile_of_no_nul {s : WString} (h : (0 : UInt16) ∉ s) : s.takeWhile (· ≠ 0) = s := by
  apply List.takeWhile_eq_self_iff.2
  intro u hu
  simp only [decide_eq_true_eq]
  rintro rfl
  exact h hu

@[simp] theorem Run.andThen_ok {α : Type} (a : α) (rest : α → Run) : Run.andThen (.ok a) rest = rest a := rfl

theorem Run.andThen_error {α : Type} (e : Failure) (rest : α → Run) :
    Run.andThen (.error e) rest = ⟨[], [], some e⟩ := rfl

/-! The script files of a run -/

/-- `ExtractText` does not stop the run at the script of a file: it is not called, or it returns. -/
def Extracts (create : WString → Bool) (code : DecodeControl) (f : WString × List UInt8) : Prop :=
  create f.1 = true → (extractText (create (textName f.1)) code.ssDecode f.2).isSome = true

instance (create : WString → Bool) (code : DecodeControl) (f : WString × List UInt8) :
    Decidable (Extracts create code f) :=
  inferInstanceAs (Decidable (_ → _))

/-- The scripts that a run over `files` writes: those whose file can be created, up to the first that
stops the run, which is still written. -/
def writtenScripts (create : WString → Bool) (code : DecodeControl) :
    List (WString × List UInt8) → List (WString × List UInt8)
  | [] => []
  | f :: files =>
    (if create f.1 then [f] else []) ++ if Extracts create code f then writtenScripts create code files else []

theorem mem_of_writtenScripts {create : WString → Bool} {code : DecodeControl} {f : WString × List UInt8} :
    ∀ {files}, f ∈ writtenScripts create code files → f ∈ files
  | g :: files, h => by
    rw [writtenScripts, List.mem_append] at h
    rcases h with h | h
    · split at h
      · rw [List.mem_singleton.1 h]
        exact List.mem_cons_self
      · cases h
    · split at h
      · exact List.mem_cons_of_mem _ (mem_of_writtenScripts h)
      · cases h

theorem writtenScripts_mem {create : WString → Bool} {code : DecodeControl} :
    ∀ {files : List (WString × List UInt8)} {i : Nat} (hi : i < files.length), create files[i].1 = true →
      (∀ j (hj : j < i), Extracts create code files[j]) → files[i] ∈ writtenScripts create code files
  | f :: files, 0, _, hc, _ => by
    rw [List.getElem_cons_zero] at hc ⊢
    rw [writtenScripts, if_pos hc]
    exact List.mem_append_left _ (List.mem_singleton_self f)
  | f :: files, i + 1, hi, hc, hx => by
    have h0 := hx 0 (Nat.succ_pos i)
    rw [List.getElem_cons_zero] at h0
    rw [writtenScripts, if_pos h0]
    exact List.mem_append_right _ (writtenScripts_mem (Nat.lt_of_succ_lt_succ hi) hc
      fun j hj => hx (j + 1) (Nat.succ_lt_succ hj))

/-- The files of the scripts from script `i` on. -/
def sceneFiles (names : List WString) : Nat → List (List UInt8) → List (WString × List UInt8)
  | _, [] => []
  | i, ss :: scripts => (scriptFileName i (names.getD i []), ss) :: sceneFiles names (i + 1) scripts

@[simp] theorem sceneFiles_length (names : List WString) : ∀ (i : Nat) (scripts : List (List UInt8)),
    (sceneFiles names i scripts).length = scripts.length
  | _, [] => rfl
  | i, ss :: scripts => by rw [sceneFiles, List.length_cons, sceneFiles_length names, List.length_cons]

theorem sceneFiles_getElem? (names : List WString) : ∀ (i : Nat) (scripts : List (List UInt8)) {k : Nat}
    (hk : k < scripts.length), (sceneFiles names i scripts)[k]? =
      some (scriptFileName (i + k) (names.getD (i + k) []), scripts[k])
  | i, ss :: scripts, 0, _ => rfl
  | i, ss :: scripts, k + 1, hk => by
    have := sceneFiles_getElem? names (i + 1) scripts (k := k) (Nat.lt_of_succ_lt_succ hk)
    simpa [sceneFiles, show i + 1 + k = i + (k + 1) by omega] using this

section Unpacking

variable {before : UInt16} {path : WString} {code : DecodeControl} {pck : List UInt8}
  {nameIndex name info data : Nat} {names : List WString}
  (h : OriginalPack before path pck nameIndex name info data names)

include h in
/-- One script is read back from its entry and its chunk; outside the chunk the buffer stays. -/
theorem readScript_spec {l : List UInt8} (hl : Agree info data names.length l pck) (hlen : l.length < 2 ^ 31)
    {i : Nat} (hi : i < names.length) {offset : Nat} {ss chunk : List UInt8} (hp : PackedScript code ss chunk)
    (hentry : (Mem.ofList l).Holds (info + 8 * i) (le32 offset ++ le32 (chunk.length - 8)))
    (hchunk : (Mem.ofList l).Holds (data + offset) chunk) :
    ∃ l', readScript code nameIndex name info data i l = .ok (scriptFileName i names[i], ss, l') ∧
      l'.length = l.length ∧ ∀ b, b < data + offset ∨ data + offset + chunk.length ≤ b → l'[b]? = l[b]? := by
  obtain ⟨nameOffset, hname, hunits⟩ := h.read_name hl hi
  obtain ⟨hf1, hf2⟩ := h.fits i hi
  have hnl := h.name_lt hi
  have h16 := hp.length_le
  obtain ⟨hle, -⟩ := hchunk.take_drop (by omega)
  -- the chunk: what is encrypted (header and stream), and the bytes `count` leaves out
  obtain ⟨complen, ts, s, tail, rfl, htail, hf, he, hss⟩ := hp
  obtain ⟨d, hd⟩ : ∃ d, d = le32 complen ++ le32 ss.length ++ s := ⟨_, rfl⟩
  rw [← hd] at hentry hchunk hle h16 ⊢
  simp only [List.length_append, layers_length, htail, Nat.add_sub_cancel] at hentry hle ⊢
  have hpos : 0 < d.length := by simp [hd]
  have hinfo := h.info_le
  have hpair := headerPair_of_holds (by omega) hentry (by omega) (by omega)
  rw [Mem.holds_append, layers_length] at hchunk
  obtain ⟨l'', hl'', hplain, hlen'', hout⟩ := decryptScript_spec code hpos hchunk.1
  obtain ⟨c, hc⟩ : ∃ c, dword (Mem.ofList l'') (data + offset) = some c := dword_isSome (by omega)
  -- `decompress_data` may read one byte behind the stream: eight more bytes of the chunk lie there
  have hbyte : ∃ b, Mem.ofList l'' (data + offset + 8 + s.length) = some b := by
    have : data + offset + 8 + s.length < l''.length := by
      have : d.length = 8 + s.length := by
        simp [hd]
        omega
      omega
    exact ⟨_, List.getElem?_eq_getElem this⟩
  obtain ⟨b, hb⟩ := hbyte
  rw [hd, Mem.holds_append, Mem.holds_append] at hplain
  have hsize : dword (Mem.ofList l'') (data + offset + 4) = some ss.length :=
    dword_of_holds hplain.1.2 (by omega)
  have hstream : Mem.Holds (fun k => Mem.ofList l'' (data + offset + 8 + k)) 0 s := by
    intro k hk
    rw [Nat.zero_add]
    exact hplain.2 k hk
  have hdec := decompressData_frame (Tape.cells_room ss.length fun _ => 0) hf hstream hb he rfl
  refine ⟨l'', ?_, hlen'', fun b hb => hout b (by omega)⟩
  have hcount : 2 * names[i].length % 2 ^ 32 = 2 * names[i].length := Nat.mod_eq_of_lt (by
    unfold maxPath at hnl
    omega)
  unfold readScript
  simp only [hname, orFault_some, ok_bind, hcount, Nat.mul_div_cancel_left _ (show 0 < 2 by decide), hunits,
    takeWhile_of_no_nul (h.no_nul _ (List.getElem_mem hi)), nameBuffer_of_lt hnl, nameBuffer_of_lt hf1, hpair,
    Nat.mod_eq_of_lt (show data + offset < 2 ^ 32 by omega)]
  rw [if_neg (by omega), hl'']
  simp only [orFault_some, ok_bind, hc, hsize, heapAlloc_ok (show ss.length < 2 ^ 31 by omega), hdec]
  rfl

include h in
/-- The unpacking loop from script `i` on, by recursion on the scripts that are left. -/
theorem unpackLoop_spec (create : WString → Bool) : ∀ (scripts chunks : List (List UInt8)) (fuel i offset : Nat)
    (l : List UInt8), scripts.length < fuel → i + scripts.length = names.length →
    Agree info data names.length l pck → l.length < 2 ^ 31 →
    List.Forall₂ (PackedScript code) scripts chunks →
    (Mem.ofList l).Holds (info + 8 * i) (infoTable offset chunks) →
    (Mem.ofList l).Holds (data + offset) chunks.flatten →
    (unpackLoop create code nameIndex name info data fuel i l).scripts =
      writtenScripts create code (sceneFiles names i scripts)
  | [], _, fuel + 1, i, offset, l, _, hn, hl, _, .nil, _, _ => by
    have hcount := h.dword_header hl (p := SceneHeader.sceneNameIndex + 4) (by decide) (by decide)
    rw [List.length_nil, Nat.add_zero] at hn
    rw [unpackLoop, hcount, h.count, orFault_some, Run.andThen_ok, if_neg (by omega)]
    rfl
  | ss :: scripts, chunk :: chunks, fuel + 1, i, offset, l, hfuel, hn, hl, hlen, .cons hp hps, htable, hdata => by
    rw [List.length_cons] at hfuel hn
    have hi : i < names.length := by omega
    have hcount := h.dword_header hl (p := SceneHeader.sceneNameIndex + 4) (by decide) (by decide)
    rw [infoTable, Mem.holds_append] at htable
    rw [List.flatten_cons, Mem.holds_append] at hdata
    obtain ⟨l', hread, hlen', hout⟩ := readScript_spec h hl hlen hi hp htable.1 hdata.1
    have hl' : Agree info data names.length l' pck :=
      fun b hb => (hout b (.inl (by have := hb.1; omega))).trans (hl b hb)
    have hinfo := h.info_le
    -- the next chunk starts behind this one, so decrypting this one has left it alone
    have hrest := unpackLoop_spec create scripts chunks fuel (i + 1)
      (offset + chunk.length) l' (by omega) (by omega) hl' (by omega) hps
      (htable.2.same fun k hk => (hout _ (.inl (by
        have := infoTable_length (offset + chunk.length) chunks
        have := hps.length_eq
        simp only [List.length_append, le32_length]
        omega))).symm)
      (by
        rw [← Nat.add_assoc]
        exact hdata.2.same fun k hk => (hout _ (.inr (by omega))).symm)
    have hname : names.getD i [] = names[i] := by simp [hi]
    rw [unpackLoop, hcount, h.count, orFault_some, Run.andThen_ok, if_pos hi, hread, Run.andThen_ok, sceneFiles,
      writtenScripts, hname]
    by_cases hc : create (scriptFileName i names[i]) = true
    · simp only [if_pos hc]
      cases hx : extractText (create (textName (scriptFileName i names[i]))) code.ssDecode ss with
      | none => simp [orFault, Run.andThen_error, Extracts, hc, hx]
      | some text => simp [orFault, Extracts, hx, hrest]
    · simp only [if_neg hc, hrest]
      simp [Extracts, hc]

end Unpacking

end UnpackScene

/-! ## Round trip -/

/-- The ranges of chunks that lie one behind the other from `offset` on. -/
def sceneRanges : Nat → List (List UInt8) → List HeaderPair
  | _, [] => []
  | offset, chunk :: chunks => ⟨offset, chunk.length - 8⟩ :: sceneRanges (offset + chunk.length) chunks

@[simp] theorem sceneRanges_length : ∀ (offset : Nat) (chunks : List (List UInt8)),
    (sceneRanges offset chunks).length = chunks.length
  | _, [] => rfl
  | offset, chunk :: chunks => by
    rw [sceneRanges, List.length_cons, sceneRanges_length (offset + chunk.length) chunks, List.length_cons]

/-- Every range lies between the start of its section and the end of the last chunk. -/
theorem sceneRanges_mem : ∀ {offset : Nat} {chunks : List (List UInt8)} {r : HeaderPair},
    r ∈ sceneRanges offset chunks → offset ≤ r.offset ∧ r.offset + r.count ≤ offset + chunks.flatten.length
  | offset, chunk :: chunks, r, hr => by
    rw [sceneRanges, List.mem_cons] at hr
    rw [List.flatten_cons, List.length_append]
    rcases hr with rfl | hr
    · simp only
      omega
    · have := sceneRanges_mem hr
      omega

theorem sceneRanges_pairwise : ∀ (offset : Nat) (chunks : List (List UInt8)),
    (sceneRanges offset chunks).Pairwise fun r r' => r.offset + r.count ≤ r'.offset
  | _, [] => .nil
  | offset, chunk :: chunks => by
    refine .cons (fun r hr => ?_) (sceneRanges_pairwise _ chunks)
    have := (sceneRanges_mem hr).1
    simp only
    omega

/-- The table of the entries holds the ranges. -/
theorem headerPair_of_infoTable {m : Mem UInt8} {info : Nat} : ∀ {offset i : Nat} {chunks : List (List UInt8)},
    m.Holds (info + 8 * i) (infoTable offset chunks) → offset + chunks.flatten.length < 2 ^ 32 →
    info + 8 * (i + chunks.length) < 2 ^ 32 → ∀ k < chunks.length,
    headerPair m info (i + k) = (sceneRanges offset chunks)[k]?
  | offset, i, chunk :: chunks, h, ho, hi, k, hk => by
    rw [infoTable, Mem.holds_append] at h
    rw [List.flatten_cons, List.length_append] at ho
    rw [List.length_cons] at hi hk
    cases k with
    | zero => exact headerPair_of_holds (by omega) h.1 (by omega) (by omega)
    | succ k =>
      have := headerPair_of_infoTable (i := i + 1) h.2 (by omega) (by omega) k (by omega)
      rwa [show i + 1 + k = i + (k + 1) by omega] at this

/-- What `CreateScenePck` writes: the original up to the data section, with a new `SceneInfo`, then the
packed scripts. -/
theorem createScenePck_spec (t : OffTable) (env : PackEnv) (code : DecodeControl) {pck : List UInt8}
    {nameIndex name info data : Nat} {names : List WString}
    (h : OriginalPack env.before env.path pck nameIndex name info data names) (hpck : env.pck = some pck)
    (hnew : env.newf = true) {scripts : List (List UInt8)} (hn : scripts.length = names.length)
    (hdisk : ∀ i (hi : i < names.length),
      env.disk (fullPath env.before env.path (scriptFileName i names[i])) = some scripts[i])
    (hss : ∀ ss ∈ scripts, 6 ≤ ss.length ∧ ss.length < 2 ^ 29) :
    ∃ out chunks, createScenePck t env code.privateKey code.pckNeedKey = .ok out ∧
      List.Forall₂ (PackedScript code) scripts chunks ∧ Agree info data names.length out pck ∧
      (Mem.ofList out).Holds info (infoTable 0 chunks) ∧ (Mem.ofList out).Holds data chunks.flatten ∧
      out.length = data + chunks.flatten.length := by
  have hcount := dword_lt h.count
  obtain ⟨st, chunks, hloop, hps, hbuf, hlen, hl, htable, -⟩ := packLoop_spec h scripts
    (2 ^ 32) 0 ⟨t, pck, [], 0⟩ (by omega) (by omega) (fun _ _ => rfl) rfl
    (fun k hk hik => by simpa using hdisk k (by omega)) hss
  have hdata := h.dword_header hl (p := SceneHeader.sceneData) (by decide) (by decide)
  rw [h.dataOffset] at hdata
  have hle := h.data_le
  have hinfo := h.info_le
  have htake : (st.buf.take data).length = data := by
    rw [List.length_take, hlen, Nat.min_eq_left hle]
  rw [List.nil_append] at hbuf
  -- only the part below the data section comes from the buffer
  have hget : ∀ b < data, (st.buf.take data ++ st.diskBuffer)[b]? = st.buf[b]? := by
    intro b hb
    rw [List.getElem?_append_left (by omega), List.getElem?_take_of_lt hb]
  refine ⟨st.buf.take data ++ st.diskBuffer, chunks, ?_, hps, fun b hb => (hget b hb.1).trans (hl b hb), ?_, ?_, ?_⟩
  · unfold createScenePck
    rw [hpck]
    simp only [h.nameIndexOffset, h.nameOffset, h.infoOffset, h.dataOffset, orFault_some, ok_bind, hloop, hnew, hdata,
      hlen, if_neg (Nat.not_lt.2 hle)]
    rfl
  · rw [Nat.mul_zero, Nat.add_zero] at htable
    refine htable.same fun k hk => (hget _ ?_).symm
    rw [infoTable_length] at hk
    have := hps.length_eq
    omega
  · have := Mem.holds_ofList (st.buf.take data) st.diskBuffer []
    rw [List.append_nil, htake, hbuf] at this
    rwa [hbuf]
  · rw [List.length_append, htake, hbuf]

/-- `Scene.pck` round trip for scripts of six bytes or more, with the key and the flag of the packer. The new pack
agrees with the original below the data section and outside `SceneInfo`. Where it is shorter than 2 GiB, the ranges of
`SceneInfo` follow each other inside the data section, and a script whose file can be created is unpacked as it was
packed, as long as `ExtractText` returned on the scripts before it; no other file is written for a script. -/
theorem createScenePck_unpack (t : OffTable) (env : PackEnv) (code : DecodeControl) (create : WString → Bool)
    {pck : List UInt8} {nameIndex name info data : Nat} {names : List WString}
    (h : OriginalPack env.before env.path pck nameIndex name info data names) (hpck : env.pck = some pck)
    (hnew : env.newf = true) {scripts : List (List UInt8)} (hn : scripts.length = names.length)
    (hdisk : ∀ i (hi : i < names.length),
      env.disk (fullPath env.before env.path (scriptFileName i names[i])) = some scripts[i])
    (hss : ∀ ss ∈ scripts, 6 ≤ ss.length ∧ ss.length < 2 ^ 29) :
    ∃ out, createScenePck t env code.privateKey code.pckNeedKey = .ok out ∧
      (∀ b < data, b < info ∨ info + 8 * names.length ≤ b → out[b]? = pck[b]?) ∧
      (out.length < 2 ^ 31 →
        (∃ ranges : List HeaderPair, ranges.length = names.length ∧
          (∀ i < names.length, headerPair (Mem.ofList out) info i = ranges[i]?) ∧
          ranges.Pairwise (fun r r' => r.offset + r.count ≤ r'.offset) ∧
          ∀ r ∈ ranges, data + r.offset + r.count ≤ out.length) ∧
        (∀ i (hi : i < names.length), create (scriptFileName i names[i]) = true →
          (∀ j (hj : j < i), UnpackScene.Extracts create code (scriptFileName j names[j], scripts[j])) →
          (scriptFileName i names[i], scripts[i]) ∈ (UnpackScene.unpack create code out).scripts) ∧
        ∀ f ∈ (UnpackScene.unpack create code out).scripts,
          ∃ (i : Nat) (hi : i < names.length), f = (scriptFileName i names[i], scripts[i])) := by
  obtain ⟨out, chunks, hout, hps, hagree, htable, hchunks, hlen⟩ := createScenePck_spec t env code h hpck hnew hn
    hdisk hss
  have hcl := hps.length_eq
  have hinfo := h.info_le
  refine ⟨out, hout, fun b hb hb' => hagree b ⟨hb, hb'⟩, fun hlt => ⟨⟨sceneRanges 0 chunks, ?_, ?_, ?_, ?_⟩, ?_⟩⟩
  · rw [sceneRanges_length, ← hcl, hn]
  · intro i hi
    have := headerPair_of_infoTable (i := 0) (by simpa using htable) (by omega) (by omega) i (by omega)
    rwa [Nat.zero_add] at this
  · exact sceneRanges_pairwise 0 chunks
  · intro r hr
    have := (sceneRanges_mem hr).2
    omega
  -- the new pack has the header of the original, so the loop starts from the same tables
  · have hrun : (UnpackScene.unpack create code out).scripts =
        UnpackScene.writtenScripts create code (UnpackScene.sceneFiles names 0 scripts) := by
      have hcount := dword_lt h.count
      have h1 := (h.dword_header hagree (by decide) (by decide)).trans h.nameIndexOffset
      have h2 := (h.dword_header hagree (by decide) (by decide)).trans h.nameOffset
      have h3 := (h.dword_header hagree (by decide) (by decide)).trans h.infoOffset
      have h4 := (h.dword_header hagree (by decide) (by decide)).trans h.dataOffset
      unfold UnpackScene.unpack
      simp only [heapAlloc_ok hlt, h1, h2, h3, h4, orFault_some, UnpackScene.Run.andThen_ok]
      exact UnpackScene.unpackLoop_spec h create scripts chunks _ 0 0 out (by omega) (by omega) hagree hlt hps
        (by simpa using htable) (by simpa using hchunks)
    have hlen : (UnpackScene.sceneFiles names 0 scripts).length = names.length := by
      rw [UnpackScene.sceneFiles_length, hn]
    have hget : ∀ i (hi : i < names.length), (UnpackScene.sceneFiles names 0 scripts)[i] =
        (scriptFileName i names[i], scripts[i]) := by
      intro i hi
      rw [← Option.some_inj, ← List.getElem?_eq_getElem, UnpackScene.sceneFiles_getElem? names 0 scripts (by omega)]
      simp [hi]
    rw [hrun]
    constructor
    · intro i hi hc hx
      rw [← hget i hi]
      refine UnpackScene.writtenScripts_mem _ ?_ fun j hj => ?_
      · rw [hget i hi]
        exact hc
      · rw [hget j (by omega)]
        exact hx j hj
    · intro f hf
      obtain ⟨i, hi, rfl⟩ := List.mem_iff_getElem.1 (UnpackScene.mem_of_writtenScripts hf)
      rw [hlen] at hi
      exact ⟨i, hi, hget i hi⟩

/-! ## Small packs -/

/-- A pack with `n` scenes and the given table offsets; behind the header lies `rest`. -/
def smallPack (n nameIndex name info data : Nat) (rest : List UInt8) : List UInt8 :=
  List.replicate 52 0 ++ le32 nameIndex ++ le32 n ++ le32 name ++ le32 n ++ le32 info ++ le32 n ++ le32 data ++
    List.replicate 12 0 ++ rest

/-- The tool on a pack, with the folder `s` that holds the given files. -/
def smallEnv (pck : List UInt8) (files : List (WString × List UInt8)) : PackEnv where
  pck := some pck
  before := 0
  path := [115]
  disk := fun p => (files.find? fun f => fullPath 0 [115] f.1 == p).map (·.2)
  past := fun _ => 0
  newf := true

/-- The pack of one scene `a`, with the tables one behind the other. -/
def onePack : List UInt8 := smallPack 1 92 100 102 110 (le32 0 ++ le32 1 ++ [97, 0] ++ List.replicate 8 0)

theorem onePack_original : OriginalPack 0 [115] onePack 92 100 102 110 [[97]] where
  nameIndexOffset := by decide
  count := by decide
  nameOffset := by decide
  infoOffset := by decide
  dataOffset := by decide
  header_kept b h h' := by
    simp only [SceneHeader.sceneData] at h'
    simp only [Kept]
    omega
  index_kept b h h' := by
    simp only [List.length_singleton] at h'
    simp only [Kept]
    omega
  entry i hi := by
    obtain rfl : i = 0 := by simpa using hi
    rw [List.getElem_cons_zero]
    refine ⟨0, by decide, by decide, fun b h h' => ?_⟩
    simp only [List.length_singleton] at h'
    simp only [Kept]
    omega
  no_nul s hs := by
    rw [List.mem_singleton.1 hs]
    decide
  fits i hi := by
    obtain rfl : i = 0 := by simpa using hi
    rw [List.getElem_cons_zero]
    decide
  info_le := by decide
  data_le := by decide
  size_lt := by decide

theorem createScenePck_unpack_one :
    ∃ out, createScenePck (fun _ => 0) (smallEnv onePack [(scriptFileName 0 [97], [7, 7, 7, 7, 7, 7])])
        (Vector.replicate 16 9) true = .ok out ∧
      (∀ b < 110, b < 102 ∨ 102 + 8 * 1 ≤ b → out[b]? = onePack[b]?) ∧
      (out.length < 2 ^ 31 →
        (∃ ranges : List HeaderPair, ranges.length = 1 ∧
          (∀ i < 1, headerPair (Mem.ofList out) 102 i = ranges[i]?) ∧
          ranges.Pairwise (fun r r' => r.offset + r.count ≤ r'.offset) ∧
          ∀ r ∈ ranges, 110 + r.offset + r.count ≤ out.length) ∧
        (∀ i (hi : i < 1), true = true →
          (∀ j (hj : j < i), UnpackScene.Extracts (fun _ => true) ⟨Vector.replicate 16 9, true, true, .ssV2⟩
            (scriptFileName j [[(97 : UInt16)]][j], [[(7 : UInt8), 7, 7, 7, 7, 7]][j])) →
          (scriptFileName i [[(97 : UInt16)]][i], [[(7 : UInt8), 7, 7, 7, 7, 7]][i]) ∈
            (UnpackScene.unpack (fun _ => true) ⟨Vector.replicate 16 9, true, true, .ssV2⟩ out).scripts) ∧
        ∀ f ∈ (UnpackScene.unpack (fun _ => true) ⟨Vector.replicate 16 9, true, true, .ssV2⟩ out).scripts,
          ∃ (i : Nat) (hi : i < 1), f = (scriptFileName i [[(97 : UInt16)]][i], [[(7 : UInt8), 7, 7, 7, 7, 7]][i])) :=
  createScenePck_unpack (fun _ => 0) (smallEnv onePack [(scriptFileName 0 [97], [7, 7, 7, 7, 7, 7])])
    ⟨Vector.replicate 16 9, true, true, .ssV2⟩ (fun _ => true) onePack_original rfl rfl rfl
    (fun i hi => by
      obtain rfl : i = 0 := by simpa using hi
      rw [List.getElem_cons_zero, List.getElem_cons_zero]
      decide)
    (by decide)

/-- `CompressData` has no buffer for a script of `2^29` bytes. -/
theorem createScenePck_overflow (t : OffTable) (env : PackEnv) (code : DecodeControl) {pck : List UInt8}
    {nameIndex name info data : Nat} {names : List WString}
    (h : OriginalPack env.before env.path pck nameIndex name info data names) (hpck : env.pck = some pck)
    (h0 : 0 < names.length) {ss : List UInt8}
    (hdisk : env.disk (fullPath env.before env.path (scriptFileName 0 names[0])) = some ss)
    (hss : 2 ^ 29 ≤ ss.length) :
    createScenePck t env code.privateKey code.pckNeedKey = .error .fault := by
  obtain ⟨offset, hentry, hunits⟩ := h.read_name (fun _ _ => rfl) h0
  obtain ⟨hf1, hf2⟩ := h.fits 0 h0
  have hname := h.name_lt h0
  have hwcs := wcsncpy_of_units hunits (h.no_nul _ (List.getElem_mem h0))
  have hstep : packScript env code.privateKey code.pckNeedKey nameIndex name info 0 ⟨t, pck, [], 0⟩ =
      .error .fault := by
    unfold packScript
    simp only [hentry, orFault_some, ok_bind, if_neg (Nat.not_lt.2 (Nat.le_of_lt hname)), hwcs,
      nameBuffer_of_lt hname, nameBuffer_of_lt hf1, nameBuffer_of_lt hf2, hdisk, compressDataInBlock, compressData,
      if_pos (show 2 ^ 31 ≤ ss.length * 4 by omega)]
    rfl
  unfold createScenePck
  rw [hpck]
  simp only [h.nameIndexOffset, h.nameOffset, h.infoOffset, h.dataOffset, orFault_some, ok_bind]
  rw [show 2 ^ 32 = 4294967295 + 1 from rfl, packLoop]
  simp only [h.count, orFault_some, ok_bind, if_pos h0, hstep]
  rfl

/-- Five packs that do not come back: a name that lies behind the start of the data section, a name
inside `SceneInfo`, a first script that `ExtractText` reads out of bounds, a script of five bytes, and one
of `2^29` bytes. -/
theorem createScenePck_unpack_fails :
    (¬ ∃ out, createScenePck (fun _ => 0)
        (smallEnv (smallPack 1 92 124 100 108 (le32 0 ++ le32 1 ++ List.replicate 24 0 ++ [97, 0]))
          [(scriptFileName 0 [97], [7, 7, 7, 7, 7, 7])]) (Vector.replicate 16 9) true = .ok out ∧
      (scriptFileName 0 [97], [7, 7, 7, 7, 7, 7]) ∈
        (UnpackScene.unpack (fun _ => true) ⟨Vector.replicate 16 9, true, true, .ssV2⟩ out).scripts) ∧
    (¬ ∃ out, createScenePck (fun _ => 0)
        (smallEnv (smallPack 1 92 100 100 108 (le32 0 ++ le32 1 ++ [97, 0] ++ List.replicate 6 0))
          [(scriptFileName 0 [97], [7, 7, 7, 7, 7, 7])]) (Vector.replicate 16 9) true = .ok out ∧
      (scriptFileName 0 [97], [7, 7, 7, 7, 7, 7]) ∈
        (UnpackScene.unpack (fun _ => true) ⟨Vector.replicate 16 9, true, true, .ssV2⟩ out).scripts) ∧
    (¬ ∃ out, createScenePck (fun _ => 0)
        (smallEnv (smallPack 2 92 108 110 126 (le32 0 ++ le32 1 ++ le32 0 ++ le32 1 ++ [97, 0] ++ List.replicate 16 0))
          [(scriptFileName 0 [97], [7, 7, 7, 7, 7, 7]), (scriptFileName 1 [97], [8, 8, 8, 8, 8, 8])])
        (Vector.replicate 16 9) true = .ok out ∧
      (scriptFileName 1 [97], [8, 8, 8, 8, 8, 8]) ∈
        (UnpackScene.unpack (fun _ => true) ⟨Vector.replicate 16 9, true, true, .ssV2⟩ out).scripts) ∧
    (¬ ∃ out, createScenePck (fun _ => 0) (smallEnv onePack [(scriptFileName 0 [97], [7, 7, 7, 7, 7])])
      (Vector.replicate 16 9) true = .ok out) ∧
    ¬ ∃ out, createScenePck (fun _ => 0) (smallEnv onePack [(scriptFileName 0 [97], List.replicate (2 ^ 29) 7)])
      (Vector.replicate 16 9) true = .ok out := by
  have hrun : ∀ (env : PackEnv) (f : WString × List UInt8),
      ((createScenePck (fun _ => 0) env (Vector.replicate 16 9) true).toOption.any fun out =>
        (UnpackScene.unpack (fun _ => true) ⟨Vector.replicate 16 9, true, true, .ssV2⟩ out).scripts.contains f) =
          false →
      ¬ ∃ out, createScenePck (fun _ => 0) env (Vector.replicate 16 9) true = .ok out ∧
        f ∈ (UnpackScene.unpack (fun _ => true) ⟨Vector.replicate 16 9, true, true, .ssV2⟩ out).scripts := by
    rintro env f h ⟨out, hout, hmem⟩
    rw [hout] at h
    simp only [Except.toOption, Option.any_some] at h
    simp [hmem] at h
  have hfive : (createScenePck (fun _ => 0) (smallEnv onePack [(scriptFileName 0 [97], [7, 7, 7, 7, 7])])
      (Vector.replicate 16 9) true).toOption = none := by decide +kernel
  refine ⟨hrun _ _ (by decide +kernel), hrun _ _ (by decide +kernel), hrun _ _ (by decide +kernel), ?_, ?_⟩
  · rintro ⟨out, hout⟩
    rw [hout] at hfive
    cases hfive
  rintro ⟨out, hout⟩
  have := createScenePck_overflow (fun _ => 0) (smallEnv onePack [(scriptFileName 0 [97], List.replicate (2 ^ 29) 7)])
    ⟨Vector.replicate 16 9, true, true, .ssV2⟩ onePack_original rfl (by decide) rfl (by rw [List.length_replicate])
  rw [this] at hout
  cases hout

end SiglusExtract
