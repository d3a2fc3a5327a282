/-
`UnpackOVK::Unpack` (UnpackOvk.h): the Ogg files of an archive, each copied in pieces of 32 KiB. The range check
compares with the low half of the file's size.
-/
import SiglusExtract.Nwa.Data

namespace SiglusExtract.UnpackOvk

open CInt Nwa

/-- An entry of the index: `tbl_siz`, `tbl_off`, `tbl_cnt`, the number that names the output, and
`tbl_origsiz`. -/
structure Entry where
  siz : Int
  off : Int
  cnt : Int
  origsiz : Int
  deriving DecidableEq, Repr

/-- What is copied for an entry: the buffers passed to `out.Write`. -/
structure Output where
  index : Nat
  entry : Entry
  chunks : List (List UInt8)
  deriving DecidableEq, Repr

/-! ## The index -/

/-- The loop that reads the index; where the file has ended, `buf` keeps the last entry. -/
def readTable : Nat → (Nat → UInt8) → NtFileDisk → List Entry × NtFileDisk
  | 0, _, file => ([], file)
  | n + 1, buf, file =>
    let (bytes, file) := file.read 16
    let buf := overlay buf bytes
    let (entries, file) := readTable n buf file
    (⟨intAt buf 0, intAt buf 4, intAt buf 8, intAt buf 12⟩ :: entries, file)

/-- The index of an archive, and the file behind it. -/
def readIndex (archive : List UInt8) : Except Failure (List Entry × NtFileDisk) :=
  let (bytes, file) := (NtFileDisk.openFile archive).read 4
  let buf := overlay (fun _ => 0) bytes
  let index := intAt buf 0
  if index ≤ 0 then .error (.status .unsuccessful)
  else if 4 * index.toNat ≥ 2 ^ 31 then .error .fault
  else .ok (readTable index.toNat buf file)

/-- The range check, of an `int` sum and an unsigned size. -/
def inRange (fsize : Nat) (e : Entry) : Bool := ¬ (e.off ≤ 0 ∨ e.siz ≤ 0 ∨ u32 (e.off + e.siz) > fsize)

/-! ## The copy -/

/-- `while (sz > 32 * 1024)`, and what is left of `sz` behind it. All of the buffer is written, whether or not the
read has filled it. -/
def copyLoop (buf : Nat → UInt8) (file : NtFileDisk) (sz : Int) : List (List UInt8) × NtFileDisk :=
  if 32 * 1024 < sz then
    let (bytes, file) := file.read (32 * 1024)
    let buf := overlay buf bytes
    let rest := copyLoop buf file (sz - 1024 * 32)
    (bytesAt buf 0 (32 * 1024) :: rest.1, rest.2)
  else if 0 < sz then
    let (bytes, file) := file.read sz.toNat
    ([bytesAt (overlay buf bytes) 0 sz.toNat], file)
  else ([], file)
termination_by sz.toNat

/-- The loop over the entries, from entry `i` on. `create` tells which files can be created, and `junk i` is what
the buffer of entry `i` holds. -/
def unpackLoop (create : Int → Bool) (junk : Nat → Nat → UInt8) (fsize : Nat) :
    Nat → List Entry → NtFileDisk → List Output
  | _, [], _ => []
  | i, e :: entries, file =>
    if inRange fsize e ∧ create e.cnt then
      let (chunks, file) := copyLoop (junk i) (file.seek e.off) e.siz
      ⟨i, e, chunks⟩ :: unpackLoop create junk fsize (i + 1) entries file
    else unpackLoop create junk fsize (i + 1) entries file

/-- `Unpack` on the bytes of an archive. -/
def unpack (create : Int → Bool) (junk : Nat → Nat → UInt8) (archive : List UInt8) : List Output × Option Failure :=
  match readIndex archive with
  | .error e => ([], some e)
  | .ok (entries, file) => (unpackLoop create junk (file.fileSize % 2 ^ 32) 0 entries file, none)

/-! ## What an entry stands for -/

/-- The bytes of an entry. -/
def slice (archive : List UInt8) (e : Entry) : List UInt8 := (archive.drop e.off.toNat).take e.siz.toNat

/-- The entry lies in the archive. -/
def Fits (archive : List UInt8) (e : Entry) : Prop := 0 < e.off ∧ 0 < e.siz ∧ e.off + e.siz ≤ archive.length

/-- The entry lies in the archive, but not in the low half of its size. -/
def CutOff (archive : List UInt8) (e : Entry) : Prop :=
  Fits archive e ∧ ((archive.length % 2 ^ 32 : Nat) : Int) < e.off + e.siz

/-- The fields of an entry are `int`s. -/
def Entry.Ints (e : Entry) : Prop := e.off < 2 ^ 31 ∧ e.siz < 2 ^ 31

/-! ## Reading the index -/

theorem readTable_spec : ∀ (n : Nat) (buf : Nat → UInt8) (file : NtFileDisk),
    (∀ e ∈ (readTable n buf file).1, e.Ints) ∧ (readTable n buf file).2.data = file.data ∧
      (readTable n buf file).2.fileSize = file.fileSize
  | 0, _, _ => ⟨by simp [readTable], rfl, rfl⟩
  | n + 1, buf, file => by
    obtain ⟨hints, hdata, hsize⟩ := readTable_spec n (overlay buf (file.read 16).1) (file.read 16).2
    refine ⟨?_, hdata, hsize⟩
    rw [readTable, List.forall_mem_cons]
    exact ⟨⟨i32_upper _, i32_upper _⟩, hints⟩

theorem readIndex_spec {archive : List UInt8} {entries : List Entry} {file : NtFileDisk}
    (h : readIndex archive = .ok (entries, file)) :
    (∀ e ∈ entries, e.Ints) ∧ file.data = archive ∧ file.fileSize = archive.length := by
  unfold readIndex at h
  dsimp only at h
  split at h
  · cases h
  · split at h
    · cases h
    · have hspec := readTable_spec (intAt (overlay (fun _ => 0) ((NtFileDisk.openFile archive).read 4).1) 0).toNat
        (overlay (fun _ => 0) ((NtFileDisk.openFile archive).read 4).1) ((NtFileDisk.openFile archive).read 4).2
      rw [Except.ok.injEq] at h
      rw [h] at hspec
      exact hspec

/-- The sum does not wrap: the check is that of the integers, against the size modulo `2^32`. -/
theorem inRange_iff {fsize : Nat} {e : Entry} (h : e.Ints) :
    inRange fsize e ↔ 0 < e.off ∧ 0 < e.siz ∧ e.off + e.siz ≤ fsize := by
  obtain ⟨hoff, hsiz⟩ := h
  rw [inRange, decide_eq_true_iff]
  by_cases hpos : 0 < e.off ∧ 0 < e.siz
  · have hsum : u32 (e.off + e.siz) = (e.off + e.siz).toNat := u32_eq (by omega) (by omega)
    rw [hsum]
    omega
  · omega

/-! ## Copying -/

/-- A piece that is there is written as it is. -/
theorem bytesAt_read (buf : Nat → UInt8) (file : NtFileDisk) {size : Nat} (h : size ≠ 0)
    (hle : size ≤ file.rest.length) :
    bytesAt (overlay buf (file.read size).1) 0 size = file.rest.take size := by
  rw [NtFileDisk.read_eq file h]
  have hlen : (file.rest.take size).length = size := by rw [List.length_take, Nat.min_eq_left hle]
  have := bytesAt_overlay buf (file.rest.take size)
  rwa [hlen] at this

/-- What the loop writes for a size that the file has left: the pieces together are the bytes of the file. -/
theorem copyLoop_flatten (buf : Nat → UInt8) (file : NtFileDisk) (sz : Int) (h : sz ≤ file.rest.length) :
    (copyLoop buf file sz).1.flatten = file.rest.take sz.toNat := by
  fun_induction copyLoop buf file sz with
  | case1 buf file sz hsz bytes file' hread buf' rest ih =>
    have hfile' : file' = (file.read (32 * 1024)).2 := by rw [hread]
    have hrest : file'.rest = file.rest.drop (32 * 1024) := by
      rw [hfile', NtFileDisk.read_rest file (by decide)]
    have hpiece : bytesAt buf' 0 (32 * 1024) = file.rest.take (32 * 1024) := by
      have := @bytesAt_read buf file (32 * 1024) (by decide) (by omega)
      rwa [hread] at this
    have hlen : file'.rest.length = file.rest.length - 32 * 1024 := by rw [hrest, List.length_drop]
    have hsum : sz.toNat = 32 * 1024 + (sz - 1024 * 32).toNat := by omega
    show bytesAt buf' 0 (32 * 1024) ++ rest.1.flatten = _
    rw [hpiece, ih (by omega), hrest, hsum, List.take_add]
  | case2 buf file sz hsz hpos bytes file' hread =>
    have hpiece := @bytesAt_read buf file sz.toNat (by omega) (by omega)
    rw [hread] at hpiece
    simpa using hpiece
  | case3 buf file sz hsz hpos =>
    rw [show sz.toNat = 0 by omega]
    rfl

theorem copyLoop_frame (buf : Nat → UInt8) (file : NtFileDisk) (sz : Int) :
    (copyLoop buf file sz).2.data = file.data := by
  fun_induction copyLoop buf file sz with
  | case1 buf file sz hsz bytes file' hread buf' rest ih =>
    have hfile' : file' = (file.read (32 * 1024)).2 := by rw [hread]
    exact ih.trans (by rw [hfile']; rfl)
  | case2 buf file sz hsz hpos bytes file' hread =>
    have hfile' : file' = (file.read sz.toNat).2 := by rw [hread]
    rw [hfile']
    rfl
  | case3 => rfl

/-- An entry in the archive is copied as it is, wherever the file stood before. -/
theorem copyLoop_slice {archive : List UInt8} {file : NtFileDisk} (hdata : file.data = archive) (buf : Nat → UInt8)
    {e : Entry} (h : Fits archive e) : (copyLoop buf (file.seek e.off) e.siz).1.flatten = slice archive e := by
  obtain ⟨hoff, hsiz, hend⟩ := h
  have hrest : (file.seek e.off).rest = archive.drop e.off.toNat := by
    rw [NtFileDisk.seek, if_neg (by omega), ← hdata]
    rfl
  rw [copyLoop_flatten _ _ _ (by rw [hrest, List.length_drop]; omega), hrest]
  rfl

/-- The outputs are those of the entries in range whose files can be created, each with its bytes. -/
theorem unpackLoop_spec {archive : List UInt8} (create : Int → Bool) (junk : Nat → Nat → UInt8) {fsize : Nat}
    (hfsize : fsize ≤ archive.length) : ∀ (entries : List Entry) (i : Nat) (file : NtFileDisk),
      (∀ e ∈ entries, e.Ints) → file.data = archive →
        (∀ o ∈ unpackLoop create junk fsize i entries file, o.chunks.flatten = slice archive o.entry) ∧
          (unpackLoop create junk fsize i entries file).map (fun o => (o.entry, o.index)) =
            (entries.zipIdx i).filter fun p => inRange fsize p.1 ∧ create p.1.cnt
  | [], _, _, _, _ => ⟨by simp [unpackLoop], rfl⟩
  | e :: entries, i, file, hints, hdata => by
    obtain ⟨he, hes⟩ := List.forall_mem_cons.1 hints
    rw [unpackLoop, List.zipIdx_cons, List.filter_cons]
    by_cases h : inRange fsize e ∧ create e.cnt
    · obtain ⟨hoff, hsiz, hend⟩ := (inRange_iff he).1 h.1
      have hframe : (copyLoop (junk i) (file.seek e.off) e.siz).2.data = archive := by
        rw [copyLoop_frame, NtFileDisk.seek_data, hdata]
      obtain ⟨ih, ihmap⟩ := unpackLoop_spec create junk hfsize entries (i + 1) _ hes hframe
      rw [if_pos h, if_pos (by simpa using h), List.map_cons, ihmap, List.forall_mem_cons]
      exact ⟨⟨copyLoop_slice hdata _ ⟨hoff, hsiz, by omega⟩, ih⟩, rfl⟩
    · rw [if_neg h, if_neg (by simpa using h)]
      exact unpackLoop_spec create junk hfsize entries (i + 1) file hes hdata

/-- What `Unpack` writes for the entries that its check accepts. -/
theorem unpack_spec (create : Int → Bool) (junk : Nat → Nat → UInt8) {archive : List UInt8} {entries : List Entry}
    {file : NtFileDisk} (h : readIndex archive = .ok (entries, file)) :
    (∀ o ∈ (unpack create junk archive).1, o.chunks.flatten = slice archive o.entry) ∧
      (unpack create junk archive).1.map (fun o => (o.entry, o.index)) =
        entries.zipIdx.filter fun p => inRange (archive.length % 2 ^ 32) p.1 ∧ create p.1.cnt := by
  obtain ⟨hints, hdata, hsize⟩ := readIndex_spec h
  rw [unpack, h, ← hsize]
  exact unpackLoop_spec create junk (hsize ▸ Nat.mod_le _ _) entries 0 file hints hdata

section Entry

variable {archive : List UInt8} {entries : List Entry} {file : NtFileDisk} (h : readIndex archive = .ok (entries, file))
  {i : Nat} {e : Entry} (he : entries[i]? = some e)

include h he

theorem unpack_entry {create : Int → Bool} {junk : Nat → Nat → UInt8} {o : Output}
    (ho : o ∈ (unpack create junk archive).1) (hi : o.index = i) : o.entry = e := by
  have hmem := List.mem_map_of_mem (f := fun o => (o.entry, o.index)) ho
  rw [(unpack_spec create junk h).2, List.mem_filter, List.mem_zipIdx_iff_getElem?, hi, he] at hmem
  exact (Option.some.inj hmem.1).symm

/-- There is an output for an entry if it is in range and its file can be created. -/
theorem unpack_accepts (create : Int → Bool) (junk : Nat → Nat → UInt8) :
    (∃ o ∈ (unpack create junk archive).1, o.index = i) ↔ inRange (archive.length % 2 ^ 32) e ∧ create e.cnt := by
  have hfilter := (unpack_spec create junk h).2
  constructor
  · rintro ⟨o, ho, hi⟩
    have hmem := List.mem_map_of_mem (f := fun o => (o.entry, o.index)) ho
    rw [hfilter, List.mem_filter, unpack_entry h he ho hi] at hmem
    exact of_decide_eq_true hmem.2
  · intro hr
    have hmem : (e, i) ∈ entries.zipIdx.filter fun p => inRange (archive.length % 2 ^ 32) p.1 ∧ create p.1.cnt :=
      List.mem_filter.2 ⟨List.mem_zipIdx_iff_getElem?.2 he, decide_eq_true hr⟩
    rw [← hfilter] at hmem
    obtain ⟨o, ho, heq⟩ := List.mem_map.1 hmem
    exact ⟨o, ho, congrArg Prod.snd heq⟩

/-- An entry is accepted if and only if it lies in the archive, and what is written for it where it is accepted
are its bytes, unless the low half of the size cuts it off. -/
theorem unpack_exact_iff :
    ((∀ (create : Int → Bool) (junk : Nat → Nat → UInt8), create e.cnt →
        ((∃ o ∈ (unpack create junk archive).1, o.index = i) ↔ Fits archive e)) ∧
      ∀ (create : Int → Bool) (junk : Nat → Nat → UInt8), ∀ o ∈ (unpack create junk archive).1, o.index = i →
        o.chunks.flatten = slice archive e) ↔ ¬ CutOff archive e := by
  have hint := (readIndex_spec h).1 e (List.mem_of_getElem? he)
  have hle := Nat.mod_le archive.length (2 ^ 32)
  constructor
  · rintro ⟨haccepts, -⟩ ⟨hfits, hcut⟩
    have hin := (unpack_accepts h he (fun _ => true) fun _ _ => 0).1 ((haccepts (fun _ => true) _ rfl).2 hfits)
    have hend := ((inRange_iff hint).1 hin.1).2.2
    omega
  · intro hcut
    constructor
    · intro create junk hc
      rw [unpack_accepts h he, and_iff_left hc, inRange_iff hint]
      constructor
      · rintro ⟨hoff, hsiz, hend⟩
        exact ⟨hoff, hsiz, by omega⟩
      · intro hfits
        refine ⟨hfits.1, hfits.2.1, ?_⟩
        by_contra hlt
        exact hcut ⟨hfits, by omega⟩
    · intro create junk o ho hi
      rw [(unpack_spec create junk h).1 o ho, unpack_entry h he ho hi]

end Entry

/-! ## An archive of 4 GiB -/

/-- An archive with one entry, of two bytes behind the index. -/
def oneEntry (tail : List UInt8) : List UInt8 :=
  Bytes.le32 1 ++ (Bytes.le32 2 ++ (Bytes.le32 20 ++ (Bytes.le32 0 ++ (Bytes.le32 0 ++ tail))))

theorem oneEntry_length (tail : List UInt8) : (oneEntry tail).length = 20 + tail.length := by
  simp [oneEntry]
  omega

theorem readIndex_oneEntry (tail : List UInt8) : ∃ file, readIndex (oneEntry tail) = .ok ([⟨2, 20, 0, 0⟩], file) := by
  refine ⟨⟨oneEntry tail, (oneEntry tail).length, 20⟩, ?_⟩
  have hfirst : (NtFileDisk.openFile (oneEntry tail)).read 4 =
      (Bytes.le32 1, ⟨oneEntry tail, (oneEntry tail).length, 4⟩) := rfl
  have hsecond : (NtFileDisk.mk (oneEntry tail) (oneEntry tail).length 4).read 16 =
      (Bytes.le32 2 ++ Bytes.le32 20 ++ Bytes.le32 0 ++ Bytes.le32 0,
        ⟨oneEntry tail, (oneEntry tail).length, 20⟩) := rfl
  have hcount : intAt (overlay (fun _ => 0) (Bytes.le32 1)) 0 = 1 := by decide +kernel
  have hentry : Entry.mk (intAt (overlay (overlay (fun _ => 0) (Bytes.le32 1))
      (Bytes.le32 2 ++ Bytes.le32 20 ++ Bytes.le32 0 ++ Bytes.le32 0)) 0)
      (intAt (overlay (overlay (fun _ => 0) (Bytes.le32 1))
        (Bytes.le32 2 ++ Bytes.le32 20 ++ Bytes.le32 0 ++ Bytes.le32 0)) 4)
      (intAt (overlay (overlay (fun _ => 0) (Bytes.le32 1))
        (Bytes.le32 2 ++ Bytes.le32 20 ++ Bytes.le32 0 ++ Bytes.le32 0)) 8)
      (intAt (overlay (overlay (fun _ => 0) (Bytes.le32 1))
        (Bytes.le32 2 ++ Bytes.le32 20 ++ Bytes.le32 0 ++ Bytes.le32 0)) 12) = ⟨2, 20, 0, 0⟩ := by
    decide +kernel
  rw [readIndex, hfirst]
  simp only [hcount]
  rw [if_neg (by decide), if_neg (by decide)]
  show Except.ok (readTable 1 _ _) = _
  simp only [readTable, hsecond, hentry]

/-- In an archive of 22 bytes the entry is accepted and copied. -/
theorem unpack_exact_iff_oneEntry :
    (∀ (create : Int → Bool) (junk : Nat → Nat → UInt8), create 0 →
      ((∃ o ∈ (unpack create junk (oneEntry [0x4f, 0x67])).1, o.index = 0) ↔
        Fits (oneEntry [0x4f, 0x67]) ⟨2, 20, 0, 0⟩)) ∧
      ∀ (create : Int → Bool) (junk : Nat → Nat → UInt8), ∀ o ∈ (unpack create junk (oneEntry [0x4f, 0x67])).1,
        o.index = 0 → o.chunks.flatten = [0x4f, 0x67] := by
  obtain ⟨file, h⟩ := readIndex_oneEntry [0x4f, 0x67]
  have huncut : ¬ CutOff (oneEntry [0x4f, 0x67]) ⟨2, 20, 0, 0⟩ := fun hcut => absurd hcut.2 (by decide)
  exact (unpack_exact_iff h (i := 0) rfl).2 huncut

/-- In an archive of 4 GiB it is passed over: the low half of the size is 0. -/
theorem unpack_passes_over : ¬ ∀ (archive : List UInt8) (entries : List Entry) (file : NtFileDisk) (i : Nat)
    (e : Entry), readIndex archive = .ok (entries, file) → entries[i]? = some e →
      (∀ (create : Int → Bool) (junk : Nat → Nat → UInt8), create e.cnt →
        ((∃ o ∈ (unpack create junk archive).1, o.index = i) ↔ Fits archive e)) ∧
      ∀ (create : Int → Bool) (junk : Nat → Nat → UInt8), ∀ o ∈ (unpack create junk archive).1, o.index = i →
        o.chunks.flatten = slice archive e := by
  intro hexact
  obtain ⟨file, h⟩ := readIndex_oneEntry (List.replicate (2 ^ 32 - 20) 0)
  have hlen : (oneEntry (List.replicate (2 ^ 32 - 20) 0)).length = 2 ^ 32 := by
    rw [oneEntry_length, List.length_replicate]
    omega
  have hfits : Fits (oneEntry (List.replicate (2 ^ 32 - 20) 0)) ⟨2, 20, 0, 0⟩ := by
    rw [Fits, hlen]
    decide
  have haccept := ((hexact _ _ _ 0 _ h rfl).1 (fun _ => true) (fun _ _ => 0) rfl).2 hfits
  rw [unpack_accepts h rfl, hlen] at haccept
  exact absurd haccept.1 (by decide)

end SiglusExtract.UnpackOvk
