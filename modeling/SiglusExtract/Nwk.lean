/-
`UnpackNWK::Unpack` (UnpackNwk.h): the NWA files of an archive, converted one after the other. The stream
they are written to is the same for all of them, and a file that is saved as WAV is converted twice.
-/
import SiglusExtract.Nwa.Embed

namespace SiglusExtract

open Bytes CInt Nwa

/-- `NWAFlag`. -/
inductive NwaFlag
  | wav
  | flac
  | vorbis
  deriving DecidableEq, Repr

namespace UnpackNwk

/-- An entry of the index: `tbl_siz`, `tbl_off` and `tbl_cnt`, the number that names the output. -/
structure Entry where
  siz : Int
  off : Int
  cnt : Int
  deriving DecidableEq, Repr

/-- What is saved or handed to an encoder for an entry. -/
structure Output where
  index : Nat
  entry : Entry
  bytes : List UInt8
  deriving DecidableEq, Repr

/-! ## The index -/

/-- The loop that reads the index; where the file has ended, `buf` keeps the last entry. -/
def readTable : Nat → (Nat → UInt8) → NtFileDisk → List Entry × NtFileDisk
  | 0, _, file => ([], file)
  | n + 1, buf, file =>
    let (bytes, file) := file.read 12
    let buf := overlay buf bytes
    let (entries, file) := readTable n buf file
    (⟨intAt buf 0, intAt buf 4, intAt buf 8⟩ :: entries, file)

/-- The index of an archive, and the file behind it. -/
def readIndex (archive : List UInt8) : Except Failure (List Entry × NtFileDisk) :=
  let (bytes, file) := (NtFileDisk.openFile archive).read 4
  let buf := overlay (fun _ => 0) bytes
  let index := intAt buf 0
  if index ≤ 0 then .error (.status .unsuccessful)
  else if 4 * index.toNat ≥ 2 ^ 31 then .error .fault
  else .ok (readTable index.toNat buf file)

/-- The range check. -/
def inRange (fsize : Nat) (e : Entry) : Bool := ¬ (e.off ≤ 0 ∨ e.siz ≤ 0 ∨ u32 (e.off + e.siz) > fsize)

/-! ## The entries -/

/-- `ConvertNwaToWav` with the stream for all entries; `none` where it does not return. -/
def convertInto (junk : Junk) (file : NtFileDisk) (inSize : Int) (stream : List UInt8) :
    Option (List UInt8 × NtFileDisk) :=
  match convertNwaToWav junk file inSize with
  | (events, some (.returned file)) => some (stream ++ (chunks events).flatten, file)
  | _ => none

/-- The conversions of an entry. -/
def unpackEntry (flag : NwaFlag) (junk : Junk × Junk) (e : Entry) (file : NtFileDisk) (stream : List UInt8) :
    Option (List UInt8 × NtFileDisk) := do
  let (stream, file) ← convertInto junk.1 (file.seek e.off) e.siz stream
  match flag with
  | .wav => convertInto junk.2 file (-1) stream
  | .flac => return (stream, file)
  | .vorbis => return (stream, file)

/-- The loop over the entries, from entry `i` on. `create` tells which files can be created; a WAV file that
cannot be is passed over. -/
def unpackLoop (create : Int → Bool) (flag : NwaFlag) (junk : Nat → Junk × Junk) (fsize : Nat) :
    Nat → List Entry → NtFileDisk → List UInt8 → List Output × Option Failure
  | _, [], _, _ => ([], none)
  | i, e :: entries, file, stream =>
    if inRange fsize e then
      match unpackEntry flag (junk i) e file stream with
      | none => ([], some .fault)
      | some (stream, file) =>
        let rest := unpackLoop create flag junk fsize (i + 1) entries file stream
        if flag = .wav ∧ ¬ create e.cnt then rest else (⟨i, e, stream⟩ :: rest.1, rest.2)
    else unpackLoop create flag junk fsize (i + 1) entries file stream

/-- `Unpack` on the bytes of an archive. -/
def unpack (create : Int → Bool) (flag : NwaFlag) (junk : Nat → Junk × Junk) (archive : List UInt8) :
    List Output × Option Failure :=
  match readIndex archive with
  | .error e => ([], some e)
  | .ok (entries, file) => unpackLoop create flag junk (file.fileSize % 2 ^ 32) 0 entries file []

/-! ## The slices -/

/-- The bytes of an entry. -/
def slice (archive : List UInt8) (e : Entry) : List UInt8 := (archive.drop e.off.toNat).take e.siz.toNat

/-- The bytes behind an entry. -/
def behind (archive : List UInt8) (e : Entry) : List UInt8 := (archive.drop e.off.toNat).drop e.siz.toNat

/-- The WAV conversion of an entry's slice by itself. -/
def alone (junk : Junk) (archive : List UInt8) (e : Entry) : List UInt8 :=
  (chunks (convertNwaToWav junk (.openFile (slice archive e)) e.siz).1).flatten

/-- The conversion of an entry gets by with its slice. -/
structure Isolated (junk : Junk) (archive : List UInt8) (e : Entry) : Prop where
  header : behind archive e = [] ∨ 44 ≤ (slice archive e).length
  embedded : ∀ h file, NwaData.readHeader junk (.openFile (slice archive e)) e.siz = some (h, file) →
    h.Embedded (.openFile (slice archive e)) file (behind archive e)

/-- The slice is raw data with a header that `CheckHeader` accepts. -/
def AcceptedRaw (junk : Junk) (archive : List UInt8) (e : Entry) : Prop :=
  (behind archive e = [] ∨ 44 ≤ (slice archive e).length) ∧
    ∃ h file, NwaData.readHeader junk (.openFile (slice archive e)) e.siz = some (h, file) ∧ h.complevel = -1 ∧
      h.checkHeader

/-- The entries of the index. -/
def entries (archive : List UInt8) : List Entry :=
  match readIndex archive with
  | .error _ => []
  | .ok (entries, _) => entries

/-- The archive, opened at an entry. -/
def atEntry (archive : List UInt8) (e : Entry) : NtFileDisk := ⟨archive, archive.length, e.off.toNat⟩

/-- Nothing is written for an entry: its header is of compressed data that `CheckHeader` rejects, and so is what the
second conversion finds behind the header. -/
def Silent (flag : NwaFlag) (junk : Junk × Junk) (archive : List UInt8) (e : Entry) : Prop :=
  ∃ h file, NwaData.readHeader junk.1 (atEntry archive e) e.siz = some (h, file) ∧ h.complevel ≠ -1 ∧
    h.checkHeader = false ∧ (flag = .wav → Rejects junk.2 file (-1))

/-- Nothing but the first conversion of entry `i` is in the stream when it is saved: the entries before it are silent,
and the second conversion finds a header that is rejected behind the blocks of the first. -/
structure Quiet (flag : NwaFlag) (junk : Nat → Junk × Junk) (archive : List UInt8) (i : Nat) (e : Entry) : Prop where
  before : ∀ j < i, ∀ e', (entries archive)[j]? = some e' → inRange (archive.length % 2 ^ 32) e' →
    Silent flag (junk j) archive e'
  second : flag = .wav → ∀ h file, NwaData.readHeader (junk i).1 (atEntry archive e) e.siz = some (h, file) →
    Rejects (junk i).2 (h.behindBlocks file) (-1)

/-! ## The conversions of an entry -/

theorem convertInto_some {junk : Junk} {file file' : NtFileDisk} {inSize : Int} {stream out : List UInt8}
    (hc : convertInto junk file inSize stream = some (out, file')) :
    (convertNwaToWav junk file inSize).2 = some (.returned file') ∧
      out = stream ++ (chunks (convertNwaToWav junk file inSize).1).flatten := by
  unfold convertInto at hc
  split at hc
  · next events f hrun =>
    cases hc
    rw [hrun]
    exact ⟨rfl, rfl⟩
  · cases hc

/-- What the conversions of an entry append: `between` is the file that the first one leaves. -/
theorem unpackEntry_some {flag : NwaFlag} {junk : Junk × Junk} {e : Entry} {file file' : NtFileDisk}
    {stream out : List UInt8} (hu : unpackEntry flag junk e file stream = some (out, file')) :
    ∃ between second, (convertNwaToWav junk.1 (file.seek e.off) e.siz).2 = some (.returned between) ∧
      out = stream ++ (chunks (convertNwaToWav junk.1 (file.seek e.off) e.siz).1).flatten ++ second ∧
      between.Kept file' ∧
      (flag = .wav → (convertNwaToWav junk.2 between (-1)).2 = some (.returned file') ∧
        second = (chunks (convertNwaToWav junk.2 between (-1)).1).flatten) ∧
      (flag ≠ .wav → file' = between ∧ second = []) := by
  unfold unpackEntry at hu
  rw [Option.bind_eq_bind, Option.bind_eq_some_iff] at hu
  obtain ⟨⟨first, between⟩, hfirst, hu⟩ := hu
  obtain ⟨hret, rfl⟩ := convertInto_some hfirst
  cases flag with
  | wav =>
    obtain ⟨hret', rfl⟩ := convertInto_some hu
    exact ⟨between, _, hret, rfl, convertNwaToWav_kept hret', fun _ => ⟨hret', rfl⟩, fun hno => absurd rfl hno⟩
  | flac =>
    cases hu
    exact ⟨_, [], hret, (List.append_nil _).symm, ⟨rfl, Nat.le_refl _⟩, fun hwav => (by cases hwav),
      fun _ => ⟨rfl, rfl⟩⟩
  | vorbis =>
    cases hu
    exact ⟨_, [], hret, (List.append_nil _).symm, ⟨rfl, Nat.le_refl _⟩, fun hwav => (by cases hwav),
      fun _ => ⟨rfl, rfl⟩⟩

theorem inRange_bounds {length : Nat} {e : Entry} (hin : inRange (length % 2 ^ 32) e) (hoff : e.off < 2 ^ 31)
    (hsiz : e.siz < 2 ^ 31) : 0 < e.off ∧ 0 < e.siz ∧ e.off + e.siz ≤ length := by
  have hrange : ¬ (e.off ≤ 0 ∨ e.siz ≤ 0 ∨ u32 (e.off + e.siz) > length % 2 ^ 32) := of_decide_eq_true hin
  rw [not_or, not_or, u32_eq (by omega) (by omega)] at hrange
  omega

/-- An entry in range is a part of the archive, wherever the conversions before it have left the file. -/
theorem seek_within {archive : List UInt8} {file : NtFileDisk} {e : Entry} (hdata : file.data = archive)
    (hsize : archive.length ≤ file.fileSize) (hpos : 0 < e.off ∧ 0 < e.siz ∧ e.off + e.siz ≤ archive.length)
    (hsiz : e.siz < 2 ^ 31) :
    (NtFileDisk.openFile (slice archive e)).Within (file.seek e.off) e.off.toNat (behind archive e) ∧
      (file.seek e.off).position = e.off.toNat ∧ (file.seek e.off).fileSize = file.fileSize := by
  have hlen : (slice archive e).length ≤ e.siz.toNat := List.length_take_le _ _
  rw [NtFileDisk.seek, if_neg (by omega)]
  refine ⟨⟨?_, rfl, Nat.zero_le _, ⟨rfl, ?_⟩, ?_⟩, rfl, Nat.max_eq_left (by omega)⟩
  · show file.data.drop e.off.toNat = slice archive e ++ behind archive e
    rw [slice, behind, List.take_append_drop, hdata]
  · show (slice archive e).length < 2 ^ 32
    omega
  · show e.off.toNat + (slice archive e).length ≤ max file.fileSize e.off.toNat
    omega

/-! ## The stream in front of an entry -/

/-- In front of entry `i`: the stream is empty as long as the entries have been silent, and then the file object keeps
the size of the archive. -/
structure Front (flag : NwaFlag) (junk : Nat → Junk × Junk) (archive : List UInt8) (i : Nat) (file : NtFileDisk)
    (stream : List UInt8) : Prop where
  data : file.data = archive
  fileSize : archive.length ≤ file.fileSize
  silent : stream = [] ↔ ∀ j < i, ∀ e', (entries archive)[j]? = some e' → inRange (archive.length % 2 ^ 32) e' →
    Silent flag (junk j) archive e'
  empty : stream = [] → file.fileSize = archive.length

section Front

variable {flag : NwaFlag} {junk : Nat → Junk × Junk} {archive : List UInt8} {i : Nat} {file : NtFileDisk}
  {stream : List UInt8} (hf : Front flag junk archive i file stream) {e : Entry}
  (he : (entries archive)[i]? = some e)
include hf he

/-- One entry more. -/
theorem silent_succ : (∀ j < i + 1, ∀ e', (entries archive)[j]? = some e' → inRange (archive.length % 2 ^ 32) e' →
      Silent flag (junk j) archive e') ↔
    stream = [] ∧ (inRange (archive.length % 2 ^ 32) e → Silent flag (junk i) archive e) := by
  rw [hf.silent]
  constructor
  · intro hall
    exact ⟨fun j hj => hall j (by omega), hall i (by omega) e he⟩
  · rintro ⟨hbefore, hlast⟩ j hj e' he'
    rcases Nat.lt_or_eq_of_le (Nat.le_of_lt_succ hj) with hj | rfl
    · exact hbefore j hj e' he'
    · rw [he, Option.some.injEq] at he'
      exact he' ▸ hlast

theorem front_skip (hin : ¬ inRange (archive.length % 2 ^ 32) e) : Front flag junk archive (i + 1) file stream := by
  refine ⟨hf.data, hf.fileSize, ?_, hf.empty⟩
  rw [silent_succ hf he]
  exact ⟨fun hs => ⟨hs, fun h => absurd h hin⟩, fun hs => hs.1⟩

omit hf he in
/-- Where nothing has been written before: nothing is written for an entry if and only if it is silent, and then the
file object keeps the size of the archive. -/
theorem silent_iff (hfile : file.seek e.off = atEntry archive e) {between file' : NtFileDisk} {second : List UInt8}
    (hret : (convertNwaToWav (junk i).1 (file.seek e.off) e.siz).2 = some (.returned between))
    (hwav : flag = .wav → (convertNwaToWav (junk i).2 between (-1)).2 = some (.returned file') ∧
      second = (chunks (convertNwaToWav (junk i).2 between (-1)).1).flatten)
    (hother : flag ≠ .wav → file' = between ∧ second = []) :
    ((chunks (convertNwaToWav (junk i).1 (file.seek e.off) e.siz).1).flatten = [] ∧ second = [] ↔
        Silent flag (junk i) archive e) ∧
      (Silent flag (junk i) archive e → file'.fileSize = archive.length) := by
  rw [hfile] at hret ⊢
  have hsecond : second = [] ↔ (flag = .wav → Rejects (junk i).2 between (-1)) := by
    by_cases hflag : flag = .wav
    · obtain ⟨hret', rfl⟩ := hwav hflag
      rw [convertNwaToWav_empty hret', imp_iff_right hflag]
    · exact iff_of_true (hother hflag).2 fun hno => absurd hno hflag
  rw [convertNwaToWav_empty hret, hsecond]
  refine ⟨⟨?_, ?_⟩, ?_⟩
  · rintro ⟨⟨h, f, hr, hl, hc⟩, hrej⟩
    rw [convertNwaToWav_rejected hr hl hc hret] at hrej
    exact ⟨h, f, hr, hl, hc, hrej⟩
  · rintro ⟨h, f, hr, hl, hc, hrej⟩
    rw [convertNwaToWav_rejected hr hl hc hret]
    exact ⟨⟨h, f, hr, hl, hc⟩, hrej⟩
  · rintro ⟨h, f, hr, hl, hc, hrej⟩
    have hbetween := convertNwaToWav_rejected hr hl hc hret
    have hsize : between.fileSize = archive.length := hbetween ▸ (NwaData.readHeader_file hr).2
    by_cases hflag : flag = .wav
    · obtain ⟨h', f', hr', hl', hc'⟩ := hrej hflag
      obtain ⟨hret', -⟩ := hwav hflag
      rw [hbetween] at hret' hsize
      rw [convertNwaToWav_rejected hr' hl' hc' hret', (NwaData.readHeader_file hr').2, hsize]
    · rw [(hother hflag).1, hsize]

omit he in
theorem seek_atEntry (hstream : stream = []) (hpos : 0 < e.off ∧ 0 < e.siz ∧ e.off + e.siz ≤ archive.length) :
    file.seek e.off = atEntry archive e := by
  have hsize := hf.empty hstream
  rw [NtFileDisk.seek, if_neg (by omega), atEntry, hf.data, hsize, Nat.max_eq_left (by omega)]

/-- An empty stream stays empty behind an entry if and only if the entry is silent. -/
theorem front_convert (hin : inRange (archive.length % 2 ^ 32) e) (hoff : e.off < 2 ^ 31) (hsiz : e.siz < 2 ^ 31)
    {out : List UInt8} {file' : NtFileDisk} (hu : unpackEntry flag (junk i) e file stream = some (out, file')) :
    Front flag junk archive (i + 1) file' out := by
  obtain ⟨between, second, hret, rfl, hkept, hwav, hother⟩ := unpackEntry_some hu
  have hfirst := convertNwaToWav_kept hret
  have hseek := file.seek_kept e.off
  have hpos := inRange_bounds hin hoff hsiz
  have hdata : file'.data = archive := hkept.1.trans (hfirst.1.trans (hseek.1.trans hf.data))
  have hempty : stream ++ (chunks (convertNwaToWav (junk i).1 (file.seek e.off) e.siz).1).flatten ++ second = [] ↔
      stream = [] ∧ Silent flag (junk i) archive e := by
    rw [List.append_eq_nil_iff, List.append_eq_nil_iff, and_assoc]
    exact and_congr_right fun hs => (silent_iff (seek_atEntry hf hs hpos) hret hwav hother).1
  refine ⟨hdata, Nat.le_trans hf.fileSize (Nat.le_trans hseek.2 (Nat.le_trans hfirst.2 hkept.2)), ?_, fun hno => ?_⟩
  · rw [silent_succ hf he, hempty, imp_iff_right hin]
  · obtain ⟨hs, hsilent⟩ := hempty.1 hno
    exact (silent_iff (seek_atEntry hf hs hpos) hret hwav hother).2 hsilent

end Front

/-! ## Every entry -/

theorem readTable_spec : ∀ (n : Nat) (buf : Nat → UInt8) (file : NtFileDisk),
    ((readTable n buf file).2.data = file.data ∧ (readTable n buf file).2.fileSize = file.fileSize) ∧
      ∀ e ∈ (readTable n buf file).1, e.off < 2 ^ 31 ∧ e.siz < 2 ^ 31
  | 0, _, file => ⟨⟨rfl, rfl⟩, fun e he => by cases he⟩
  | n + 1, buf, file => by
    obtain ⟨hfile, hoff⟩ := readTable_spec n (overlay buf (file.read 12).1) (file.read 12).2
    refine ⟨hfile, fun e he => ?_⟩
    rw [readTable, List.mem_cons] at he
    rcases he with rfl | he
    · exact ⟨i32_upper _, i32_upper _⟩
    · exact hoff e he

theorem readIndex_spec {archive : List UInt8} {es : List Entry} {file : NtFileDisk}
    (hindex : readIndex archive = .ok (es, file)) :
    (file.data = archive ∧ file.fileSize = archive.length) ∧ ∀ e ∈ es, e.off < 2 ^ 31 ∧ e.siz < 2 ^ 31 := by
  unfold readIndex at hindex
  dsimp only at hindex
  split at hindex
  · cases hindex
  · split at hindex
    · cases hindex
    · rw [Except.ok.injEq] at hindex
      have hspec := readTable_spec (intAt (overlay (fun _ => 0) ((NtFileDisk.openFile archive).read 4).1) 0).toNat
        (overlay (fun _ => 0) ((NtFileDisk.openFile archive).read 4).1) ((NtFileDisk.openFile archive).read 4).2
      rw [hindex] at hspec
      exact hspec

/-- What is saved for an entry: what was in the stream in front of it, and what its conversions append. -/
theorem unpackLoop_output {create : Int → Bool} {flag : NwaFlag} {junk : Nat → Junk × Junk} {archive : List UInt8}
    (hbounds : ∀ e ∈ entries archive, e.off < 2 ^ 31 ∧ e.siz < 2 ^ 31) {o : Output} :
    ∀ (es : List Entry) (i : Nat) (file : NtFileDisk) (stream : List UInt8), (entries archive).drop i = es →
      Front flag junk archive i file stream →
      o ∈ (unpackLoop create flag junk (archive.length % 2 ^ 32) i es file stream).1 →
        ∃ file stream file', Front flag junk archive o.index file stream ∧
          (entries archive)[o.index]? = some o.entry ∧ inRange (archive.length % 2 ^ 32) o.entry ∧
            unpackEntry flag (junk o.index) o.entry file stream = some (o.bytes, file')
  | [], _, _, _, _, _, ho => by cases ho
  | e :: es, i, file, stream, hes, hf, ho => by
    have he : (entries archive)[i]? = some e := by
      rw [← List.head?_drop, hes]
      rfl
    have hes' : (entries archive).drop (i + 1) = es := by
      rw [← List.drop_drop, hes]
      rfl
    rw [unpackLoop] at ho
    by_cases hin : inRange (archive.length % 2 ^ 32) e
    · rw [if_pos hin] at ho
      cases hu : unpackEntry flag (junk i) e file stream with
      | none =>
        rw [hu] at ho
        cases ho
      | some p =>
        obtain ⟨out, file'⟩ := p
        obtain ⟨hoff, hsiz⟩ := hbounds e (List.mem_of_getElem? he)
        have hrest := @unpackLoop_output create _ _ _ hbounds o es (i + 1) file' out hes'
          (front_convert hf he hin hoff hsiz hu)
        simp only [hu] at ho
        split at ho
        · exact hrest ho
        · rcases List.mem_cons.1 ho with rfl | ho
          · exact ⟨file, stream, file', hf, he, hin, hu⟩
          · exact hrest ho
    · rw [if_neg hin] at ho
      exact unpackLoop_output hbounds es (i + 1) file stream hes' (front_skip hf he hin) ho

theorem unpack_output {create : Int → Bool} {flag : NwaFlag} {junk : Nat → Junk × Junk} {archive : List UInt8}
    {o : Output} (ho : o ∈ (unpack create flag junk archive).1) :
    ∃ file stream file', Front flag junk archive o.index file stream ∧
      (0 < o.entry.off ∧ 0 < o.entry.siz ∧ o.entry.off + o.entry.siz ≤ archive.length) ∧
        (o.entry.off < 2 ^ 31 ∧ o.entry.siz < 2 ^ 31) ∧
          unpackEntry flag (junk o.index) o.entry file stream = some (o.bytes, file') := by
  unfold unpack at ho
  cases hindex : readIndex archive with
  | error e =>
    rw [hindex] at ho
    cases ho
  | ok p =>
    obtain ⟨es, file₀⟩ := p
    have hes : entries archive = es := by
      unfold entries
      rw [hindex]
    obtain ⟨hfile, hbounds⟩ := readIndex_spec hindex
    rw [hindex] at ho
    simp only [hfile.2] at ho
    have hstart : Front flag junk archive 0 file₀ [] :=
      ⟨hfile.1, Nat.le_of_eq hfile.2.symm, iff_of_true rfl fun j hj => absurd hj (Nat.not_lt_zero j), fun _ => hfile.2⟩
    obtain ⟨file, stream, file', hf, he, hin, hu⟩ := unpackLoop_output (hes.symm ▸ hbounds) es 0 file₀ []
      (by rw [List.drop_zero, hes]) hstart ho
    have hint := hbounds o.entry (hes ▸ List.mem_of_getElem? he)
    exact ⟨file, stream, file', hf, inRange_bounds hin hint.1 hint.2, hint, hu⟩

section Own

variable {flag : NwaFlag} {junk : Nat → Junk × Junk} {archive : List UInt8} {i : Nat} {file file' : NtFileDisk}
  {stream out : List UInt8} {e : Entry} (hf : Front flag junk archive i file stream)
  (hpos : 0 < e.off ∧ 0 < e.siz ∧ e.off + e.siz ≤ archive.length) (hint : e.off < 2 ^ 31 ∧ e.siz < 2 ^ 31)
  (hu : unpackEntry flag (junk i) e file stream = some (out, file'))
include hf hpos hint hu

/-- Raw data that is saved as its slice says does not go on behind the slice. -/
theorem isolated_of_raw (hraw : AcceptedRaw (junk i).1 archive e) (hown : out = alone (junk i).1 archive e) :
    Isolated (junk i).1 archive e := by
  obtain ⟨between, second, -, hbytes, -⟩ := unpackEntry_some hu
  obtain ⟨hwithin, hposition, -⟩ := seek_within hf.data hf.fileSize hpos hint.2
  obtain ⟨h44, h, f, hr, hlevel, hc⟩ := hraw
  refine ⟨h44, fun h' f' hr' => ?_⟩
  obtain ⟨rfl, rfl⟩ := Prod.mk.inj (Option.some.inj (hr.symm.trans hr'))
  refine NwaData.embedded_of_raw hwithin (by omega) (Nat.two_pow_pos 31) (by omega) h44 hr hlevel hc ?_
  have hlen := congrArg List.length (hbytes.symm.trans hown)
  rw [List.length_append, List.length_append, alone] at hlen
  omega

/-- What gets by with its slice is saved as the slice says if and only if the stream has nothing else in it by then. -/
theorem own_iff_quiet (hiso : Isolated (junk i).1 archive e) :
    out = alone (junk i).1 archive e ↔ Quiet flag junk archive i e := by
  obtain ⟨between, second, hret, hbytes, -, hwav, hother⟩ := unpackEntry_some hu
  obtain ⟨hwithin, hposition, hsame⟩ := seek_within hf.data hf.fileSize hpos hint.2
  have hsize : e.siz ≠ -1 ∧ e.siz ≠ 0 := by omega
  have hslice : (NtFileDisk.openFile (slice archive e)).position < 2 ^ 31 := Nat.two_pow_pos 31
  rw [hbytes]
  constructor
  · intro hown
    -- the first conversion has written at least as much as the slice's: nothing else is in the stream
    have hle := convertNwaToWav_length_le _ hwithin hsize hslice (by omega) hiso.header hiso.embedded hret
    have hlen := congrArg List.length hown
    rw [List.length_append, List.length_append, alone] at hlen
    have hstream : stream = [] := List.eq_nil_of_length_eq_zero (by omega)
    have hsecond : second = [] := List.eq_nil_of_length_eq_zero (by omega)
    rw [seek_atEntry hf hstream hpos] at hret
    refine ⟨hf.silent.1 hstream, fun hflag h f hr => ?_⟩
    obtain ⟨hret', rfl⟩ := hwav hflag
    rw [← convertNwaToWav_file hr hret]
    exact (convertNwaToWav_empty hret').1 hsecond
  · intro hq
    have hstream := hf.silent.2 hq.before
    have hkept := hf.empty hstream
    have hsecond : second = [] := by
      by_cases hflag : flag = .wav
      · obtain ⟨hret', rfl⟩ := hwav hflag
        rw [seek_atEntry hf hstream hpos] at hret
        rw [convertNwaToWav_empty hret']
        cases hr : NwaData.readHeader (junk i).1 (atEntry archive e) e.siz with
        | none =>
          rw [convertNwaToWav, hr] at hret
          cases hret
        | some p =>
          rw [convertNwaToWav_file hr hret]
          exact hq.second hflag p.1 p.2 hr
      · exact (hother hflag).2
    -- a slice that ends the archive ends before 4 GiB
    have hend (htail : behind archive e = []) : (file.seek e.off).fileSize < 2 ^ 32 := by
      have hlen := congrArg List.length htail
      rw [behind, List.length_drop, List.length_drop, List.length_nil] at hlen
      omega
    have hfirst := (convertNwaToWav_behind _ hwithin hsize hslice (by omega) hiso.header fun h f hr =>
      ⟨hiso.embedded h f hr, fun _ => hend⟩).1
    rw [hstream, hsecond, ← hfirst, alone, List.nil_append, List.append_nil]

end Own

/-- The archive of these files. -/
def nwkFile (slices : List (List UInt8)) : List UInt8 :=
  let start := 4 + 12 * slices.length
  le32 slices.length ++
    ((List.range slices.length).flatMap fun k =>
      le32 (slices[k]?.getD []).length ++ le32 (start + (slices.take k).flatten.length) ++ le32 k) ++
    slices.flatten

end UnpackNwk

end SiglusExtract
