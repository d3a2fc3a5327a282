/-
`UnpackOMV::Unpack` and `ExtractOmvTypeUnk` (UnpackOmv.h): the payload of an OMV file, copied in pieces of 4 KiB where
it is not decoded to pictures. The loop goes on by the size that the read reports, which a read that fails leaves as
it was.
-/
import SiglusExtract.Nwa.Data
import SiglusExtract.Omv.ToPng

namespace SiglusExtract.Omv

open CInt Machine Nwa

/-! ## The header -/

/-- The fields of `OMVHeader` that `Unpack` reads. -/
structure OmvHeader where
  dataOffset : Nat
  mainVersion : Nat
  subVersion : Nat
  encryptType : Nat
  dataPackageCount : Nat
  frameCount : Nat
  deriving DecidableEq, Repr

/-- `HeaderBuffer` as a header; `sizeof(HeaderBuffer)` is 0xA8. -/
def omvHeader (headerBuffer : Nat → UInt8) : OmvHeader where
  dataOffset := u32 (intAt headerBuffer 0)
  mainVersion := (headerBuffer 4).toNat
  subVersion := (headerBuffer 5).toNat
  encryptType := u32 (intAt headerBuffer 40)
  dataPackageCount := u32 (intAt headerBuffer 76)
  frameCount := u32 (intAt headerBuffer 80)

/-- `Offset`: that of the Ogg stream itself in version 1.0, and of the tables in front of it in version 1.1. It
is not set for other versions. -/
def OmvHeader.offset (h : OmvHeader) (uninit : Nat) : Nat :=
  if h.subVersion = 1 then (h.dataOffset + h.dataPackageCount * 28 + h.frameCount * 32) % 2 ^ 32
  else if h.subVersion = 0 then h.dataOffset
  else uninit

/-! ## The copy -/

/-- What `NtReadFile` does: it transfers some of the bytes asked for, or it fails. -/
inductive ReadResult
  | transferred (n : Nat)
  | failed
  deriving DecidableEq, Repr

/-- A turn of the loop: the bytes that its read transfers, what `TranslatedSize` says, and what is written. -/
structure Piece where
  transferred : Nat
  reported : Nat
  written : List UInt8
  deriving DecidableEq, Repr

/-- The variables of the loop, with the count of the reads it has made. -/
structure CopyState where
  file : NtFileDisk
  size : Nat
  readSize : Nat
  translatedSize : Nat
  buffer : Nat → UInt8
  reads : Nat

/-- How the loop ends: it returns, or writes from behind the end of `Buffer`. -/
inductive CopyEnd
  | success
  | fault
  deriving DecidableEq, Repr

/-- `File.Read(Buffer, NeedRead, &TranslatedSize)`, and the bytes it transfers; where it fails it changes
nothing. -/
def CopyState.read (s : CopyState) (result : ReadResult) (needRead : Nat) : Nat × CopyState :=
  match result with
  | .transferred n =>
    let bytes := s.file.rest.take (min n needRead)
    (bytes.length,
      { s with
        file := { s.file with position := s.file.position + bytes.length }
        translatedSize := bytes.length
        buffer := overlay s.buffer bytes })
  | .failed => (0, s)

/-- `NeedRead`. -/
def CopyState.needRead (s : CopyState) : Nat := if s.size - s.readSize ≥ 0x1000 then 0x1000 else s.size - s.readSize

/-- One turn of `while (ReadSize < Size)`. -/
def copyTurn (result : Nat → ReadResult) (s : CopyState) : Step Piece CopyEnd CopyState :=
  if s.readSize < s.size then
    let (transferred, t) := s.read (result s.reads) s.needRead
    if t.translatedSize > 0x1000 then .halt [] .fault
    else
      .more [⟨transferred, t.translatedSize, bytesAt t.buffer 0 t.translatedSize⟩]
        { t with readSize := (t.readSize + t.translatedSize) % 2 ^ 32, reads := t.reads + 1 }
  else .halt [] .success

/-- What is written. -/
def written (log : List Piece) : List UInt8 := (log.map (·.written)).flatten

/-- What the locals hold that are not set: the header buffer, `Offset`, the tag, `TranslatedSize` and
`Buffer`. -/
structure CopyJunk where
  headerBuffer : Nat → UInt8
  offset : Nat
  oggsTag : Nat → UInt8
  translatedSize : Nat
  buffer : Nat → UInt8

/-- `ExtractOmvTypeUnk` up to its loop; `create` tells whether the output can be created. -/
def extractOmvTypeUnk (create : Bool) (junk : CopyJunk) (file : NtFileDisk) : Option CopyState :=
  let (bytes, file) := file.read 4
  let oggsTag := overlay junk.oggsTag bytes
  if bytesAt oggsTag 0 4 ≠ [0x4f, 0x67, 0x67, 0x53] then none
  else
    let file := file.seek (file.position - 4)
    if create then
      some
        { file
          size := (file.getSize32 + 2 ^ 32 - file.getCurrentPos) % 2 ^ 32
          readSize := 0
          translatedSize := junk.translatedSize
          buffer := junk.buffer
          reads := 0 }
    else none

/-- `OGVDecode`: whether the types 1 and 2 are copied or decoded to pictures. -/
inductive OgvDecode
  | decode
  | png
  deriving DecidableEq, Repr

/-- The decoder of a type writes pictures; every other type, and 1 and 2 by default, is copied. -/
def OmvHeader.pictures (h : OmvHeader) (ogvFlag : OgvDecode) : Prop :=
  (h.encryptType = 1 ∨ h.encryptType = 2) ∧ ogvFlag = .png

instance (h : OmvHeader) (ogvFlag : OgvDecode) : Decidable (h.pictures ogvFlag) := inferInstanceAs (Decidable (_ ∧ _))

/-- `Unpack` up to the loop of `ExtractOmvTypeUnk`; `none` where it stops before, or goes to one of the decoders. -/
def unpackTypeUnk (create : Bool) (ogvFlag : OgvDecode) (junk : CopyJunk) (data : List UInt8) : Option CopyState :=
  let (bytes, file) := (NtFileDisk.openFile data).read 0xA8
  let header := omvHeader (overlay junk.headerBuffer bytes)
  if header.mainVersion ≠ 1 then none
  else
    let file := file.seek (header.offset junk.offset)
    if header.pictures ogvFlag then none
    else extractOmvTypeUnk create junk file

/-! ## Reads that deliver the payload -/

/-- What a read of `n` bytes gets, with `p` bytes of the payload read and `w` written. -/
def nextBytes (suffix : List UInt8) (p w n : Nat) : List UInt8 :=
  (suffix.drop p).take (min n (min 0x1000 (suffix.length % 2 ^ 32 - w % 2 ^ 32)))

/-- From read `i` on, with `p` bytes of the payload read and `w` written, the reads fill the size of the payload modulo
`2^32`, transferring these many bytes. A read that fails gets the bytes reported last, `last`, once more: they have
to be the next ones of the payload, and so have the bytes of the reads behind it. -/
inductive Fills (result : Nat → ReadResult) (suffix : List UInt8) :
    Nat → Nat → Nat → List UInt8 → List Nat → Prop
  | done {i p w : Nat} {last : List UInt8} (hfull : suffix.length % 2 ^ 32 ≤ w % 2 ^ 32) :
      Fills result suffix i p w last []
  | transferred {i p w n : Nat} {last : List UInt8} {sizes : List Nat}
      (hleft : w % 2 ^ 32 < suffix.length % 2 ^ 32) (h : result i = .transferred n)
      (hnext : nextBytes suffix p w n <+: suffix.drop w)
      (hrest : Fills result suffix (i + 1) (p + (nextBytes suffix p w n).length)
        (w + (nextBytes suffix p w n).length) (nextBytes suffix p w n) sizes) :
      Fills result suffix i p w last ((nextBytes suffix p w n).length :: sizes)
  | failed {i p w : Nat} {last : List UInt8} {sizes : List Nat} (hleft : w % 2 ^ 32 < suffix.length % 2 ^ 32)
      (h : result i = .failed) (hlast : last.length ≤ 0x1000) (hnext : last <+: suffix.drop w)
      (hrest : Fills result suffix (i + 1) p (w + last.length) last sizes) :
      Fills result suffix i p w last (0 :: sizes)

/-- Where the loop stands: `p` bytes of the payload read, `w` written, `last` reported last. -/
structure CopyState.At (s : CopyState) (suffix : List UInt8) (p w : Nat) (last : List UInt8) : Prop where
  size_eq : s.size = suffix.length % 2 ^ 32
  readSize_eq : s.readSize = w % 2 ^ 32
  rest_eq : s.file.rest = suffix.drop p
  reported : s.translatedSize = last.length
  buffer : bytesAt s.buffer 0 last.length = last

variable {result : Nat → ReadResult} {s : CopyState} {suffix last : List UInt8} {p w : Nat}

theorem copyTurn_done (h : s.At suffix p w last) (hfull : suffix.length % 2 ^ 32 ≤ w % 2 ^ 32) :
    copyTurn result s = .halt [] .success := by
  rw [copyTurn, h.size_eq, h.readSize_eq, if_neg (Nat.not_lt.2 hfull)]

/-- The state behind a read that transfers these bytes. -/
def CopyState.advance (s : CopyState) (bytes : List UInt8) : CopyState :=
  { s with
    file := { s.file with position := s.file.position + bytes.length }
    readSize := (s.readSize + bytes.length) % 2 ^ 32
    translatedSize := bytes.length
    buffer := overlay s.buffer bytes
    reads := s.reads + 1 }

theorem CopyState.At.advance (h : s.At suffix p w last) (bytes : List UInt8) :
    (s.advance bytes).At suffix (p + bytes.length) (w + bytes.length) bytes where
  size_eq := h.size_eq
  readSize_eq := by
    show (s.readSize + bytes.length) % 2 ^ 32 = _
    rw [h.readSize_eq, Nat.mod_add_mod]
  rest_eq := by
    have hrest := h.rest_eq
    rw [NtFileDisk.rest] at hrest
    rw [CopyState.advance, NtFileDisk.rest, ← List.drop_drop, hrest, List.drop_drop]
  reported := rfl
  buffer := bytesAt_overlay s.buffer bytes

/-- A read that succeeds: what it transfers is written. -/
theorem copyTurn_transferred (h : s.At suffix p w last) (hleft : w % 2 ^ 32 < suffix.length % 2 ^ 32) {n : Nat}
    (hn : result s.reads = .transferred n) :
    copyTurn result s =
      .more [⟨(nextBytes suffix p w n).length, (nextBytes suffix p w n).length, nextBytes suffix p w n⟩]
        (s.advance (nextBytes suffix p w n)) := by
  have hneed : s.needRead = min 0x1000 (suffix.length % 2 ^ 32 - w % 2 ^ 32) := by
    rw [CopyState.needRead, h.size_eq, h.readSize_eq]
    split <;> omega
  have hbytes : s.file.rest.take (min n s.needRead) = nextBytes suffix p w n := by rw [h.rest_eq, hneed, nextBytes]
  have hle : (nextBytes suffix p w n).length ≤ 0x1000 := by
    rw [nextBytes, List.length_take]
    omega
  rw [copyTurn, h.size_eq, h.readSize_eq, if_pos hleft, hn, CopyState.read]
  dsimp only
  rw [hbytes, if_neg (Nat.not_lt.2 hle), bytesAt_overlay]
  rfl

/-- The state behind a read that fails. -/
def CopyState.repeated (s : CopyState) : CopyState :=
  { s with readSize := (s.readSize + s.translatedSize) % 2 ^ 32, reads := s.reads + 1 }

theorem CopyState.At.repeated (h : s.At suffix p w last) : s.repeated.At suffix p (w + last.length) last where
  size_eq := h.size_eq
  readSize_eq := by
    show (s.readSize + s.translatedSize) % 2 ^ 32 = _
    rw [h.readSize_eq, h.reported, Nat.mod_add_mod]
  rest_eq := h.rest_eq
  reported := h.reported
  buffer := h.buffer

/-- A read that fails: what was reported last is written again. -/
theorem copyTurn_failed (h : s.At suffix p w last) (hleft : w % 2 ^ 32 < suffix.length % 2 ^ 32)
    (hfail : result s.reads = .failed) :
    copyTurn result s =
      if last.length > 0x1000 then .halt [] .fault else .more [⟨0, last.length, last⟩] s.repeated := by
  rw [copyTurn, h.size_eq, h.readSize_eq, if_pos hleft, hfail, CopyState.read]
  dsimp only
  rw [h.reported, h.buffer, CopyState.repeated, h.readSize_eq, h.reported]

theorem written_cons (q : Piece) (log : List Piece) : written (q :: log) = q.written ++ written log := rfl

/-- One piece behind the other: each is what stands next. -/
theorem append_prefix_drop_iff {bytes more : List UInt8} :
    bytes ++ more <+: suffix.drop w ↔ bytes <+: suffix.drop w ∧ more <+: suffix.drop (w + bytes.length) := by
  rw [← List.drop_drop]
  generalize suffix.drop w = l
  constructor
  · rintro ⟨t, rfl⟩
    rw [List.append_assoc, List.drop_left]
    exact ⟨List.prefix_append .., List.prefix_append ..⟩
  · rintro ⟨⟨t, rfl⟩, hmore⟩
    rw [List.drop_left] at hmore
    exact (List.prefix_append_right_inj bytes).2 hmore

/-- Reads that fill the size: the loop returns, and what it has written stands in the payload. Where no read
transfers 0 bytes it is as much as the size. -/
theorem Fills.ends {i : Nat} {sizes : List Nat} (hf : Fills result suffix i p w last sizes) :
    ∀ {s : CopyState}, s.reads = i → s.At suffix p w last →
      ∃ log, Ends (copyTurn result) s log .success ∧ log.map (·.transferred) = sizes ∧
        written log <+: suffix.drop w ∧
        (0 ∉ sizes → w ≤ suffix.length % 2 ^ 32 → (written log).length = suffix.length % 2 ^ 32 - w) := by
  induction hf with
  | done hfull =>
    intro s _ h
    refine ⟨[], Ends.halt (copyTurn_done h hfull), rfl, List.nil_prefix, fun _ hw => ?_⟩
    show 0 = _
    omega
  | @transferred i p w n last sizes hleft hn hnext hrest ih =>
    rintro s rfl h
    obtain ⟨log, hends, hsizes, hwritten, hlength⟩ := ih rfl (h.advance _)
    refine ⟨_, hends.more (copyTurn_transferred h hleft hn), by simp [hsizes], ?_, fun hzero hw => ?_⟩
    · rw [List.singleton_append, written_cons]
      exact append_prefix_drop_iff.2 ⟨hnext, hwritten⟩
    · have hle : (nextBytes suffix p w n).length ≤ suffix.length % 2 ^ 32 - w % 2 ^ 32 := by
        rw [nextBytes, List.length_take]
        omega
      rw [List.mem_cons, not_or] at hzero
      rw [List.singleton_append, written_cons, List.length_append, hlength hzero.2 (by omega)]
      dsimp only
      omega
  | @failed i p w last sizes hleft hfail hlast hnext hrest ih =>
    rintro s rfl h
    obtain ⟨log, hends, hsizes, hwritten, -⟩ := ih rfl h.repeated
    have hturn := copyTurn_failed h hleft hfail
    rw [if_neg (Nat.not_lt.2 hlast)] at hturn
    refine ⟨_, hends.more hturn, by simp [hsizes], ?_, fun hzero => absurd List.mem_cons_self hzero⟩
    rw [List.singleton_append, written_cons]
    exact append_prefix_drop_iff.2 ⟨hnext, hwritten⟩

/-- Where the loop returns with bytes of the payload written, the reads have filled the size. -/
theorem fills_of_run : ∀ {fuel : Nat} {s : CopyState} {p w : Nat} {last : List UInt8} {log : List Piece},
    s.At suffix p w last → run (copyTurn result) fuel s = (log, some .success) → written log <+: suffix.drop w →
      Fills result suffix s.reads p w last (log.map (·.transferred))
  | 0, _, _, _, _, _, _, hrun, _ => by cases hrun
  | fuel + 1, s, p, w, last, log, h, hrun, hwritten => by
    rcases Nat.lt_or_ge (w % 2 ^ 32) (suffix.length % 2 ^ 32) with hleft | hfull
    · cases hresult : result s.reads with
      | transferred n =>
        rw [run_more (copyTurn_transferred h hleft hresult), Prod.mk.injEq] at hrun
        obtain ⟨rfl, hsuccess⟩ := hrun
        rw [List.singleton_append, written_cons, append_prefix_drop_iff] at hwritten
        exact .transferred hleft hresult hwritten.1
          (fills_of_run (h.advance _) (Prod.ext_iff.2 ⟨rfl, hsuccess⟩) hwritten.2)
      | failed =>
        have hturn := copyTurn_failed h hleft hresult
        split at hturn
        · rw [run_halt hturn] at hrun
          cases hrun
        · rw [run_more hturn, Prod.mk.injEq] at hrun
          obtain ⟨rfl, hsuccess⟩ := hrun
          rw [List.singleton_append, written_cons, append_prefix_drop_iff] at hwritten
          exact .failed hleft hresult (Nat.le_of_not_lt ‹_›) hwritten.1
            (fills_of_run h.repeated (Prod.ext_iff.2 ⟨rfl, hsuccess⟩) hwritten.2)
    · rw [run_halt (copyTurn_done h hfull), Prod.mk.injEq] at hrun
      rw [← hrun.1]
      exact .done hfull

/-! ## The payload -/

/-- The header of the file is of version 1.0 or 1.1 and of a type that is copied, and the offset that it names is that
of an "OggS" in the file. -/
structure Payload (ogvFlag : OgvDecode) (junk : CopyJunk) (data : List UInt8) (offset : Nat) : Prop where
  mainVersion : (omvHeader (overlay junk.headerBuffer (data.take 0xA8))).mainVersion = 1
  subVersion : (omvHeader (overlay junk.headerBuffer (data.take 0xA8))).subVersion ≤ 1
  copied : ¬ (omvHeader (overlay junk.headerBuffer (data.take 0xA8))).pictures ogvFlag
  offset_eq : (omvHeader (overlay junk.headerBuffer (data.take 0xA8))).offset junk.offset = offset
  oggS : (data.drop offset).take 4 = [0x4f, 0x67, 0x67, 0x53]

/-- The loop returns, and what is written is a prefix of the suffix, and all of it if no read transfers 0 bytes. -/
def CopiesSuffix (result : Nat → ReadResult) (s : CopyState) (suffix : List UInt8) : Prop :=
  ∃ log, Ends (copyTurn result) s log .success ∧ written log <+: suffix ∧
    ((∀ p ∈ log, p.transferred ≠ 0) → written log = suffix)

/-- The reads fill the size of the suffix modulo `2^32`, and that is the suffix's own, or one of them transfers 0
bytes. What `TranslatedSize` holds at the start counts as reported by a read before the first. -/
def Delivers (result : Nat → ReadResult) (junk : CopyJunk) (suffix : List UInt8) : Prop :=
  ∃ sizes, Fills result suffix 0 0 0 (bytesAt junk.buffer 0 junk.translatedSize) sizes ∧
    (suffix.length < 2 ^ 32 ∨ 0 ∈ sizes)

theorem Payload.inside {ogvFlag : OgvDecode} {junk : CopyJunk} {data : List UInt8} {offset : Nat}
    (h : Payload ogvFlag junk data offset) : offset + 4 ≤ data.length := by
  have hlen := congrArg List.length h.oggS
  rw [List.length_take, List.length_drop] at hlen
  simp at hlen
  omega

/-- Where the loop starts: at the "OggS". -/
theorem extractOmvTypeUnk_eq (junk : CopyJunk) {data : List UInt8} {offset : Nat}
    (h : (data.drop offset).take 4 = [0x4f, 0x67, 0x67, 0x53]) (hinside : offset + 4 ≤ data.length) :
    extractOmvTypeUnk true junk ⟨data, data.length, offset⟩ =
      some ⟨⟨data, data.length, offset⟩, (data.length - offset) % 2 ^ 32, 0, junk.translatedSize, junk.buffer, 0⟩ := by
  have hread : NtFileDisk.read ⟨data, data.length, offset⟩ 4 =
      ([0x4f, 0x67, 0x67, 0x53], ⟨data, data.length, offset + 4⟩) := by
    rw [NtFileDisk.read, if_neg (by decide), h]
    rfl
  have htag : bytesAt (overlay junk.oggsTag [0x4f, 0x67, 0x67, 0x53]) 0 4 = [0x4f, 0x67, 0x67, 0x53] :=
    bytesAt_overlay junk.oggsTag [0x4f, 0x67, 0x67, 0x53]
  have hback : NtFileDisk.seek ⟨data, data.length, offset + 4⟩ (((offset + 4 : Nat) : Int) - 4) =
      ⟨data, data.length, offset⟩ := by
    rw [show ((offset + 4 : Nat) : Int) - 4 = (offset : Nat) by omega]
    exact NtFileDisk.seek_inside (show offset ≤ data.length by omega)
  have hsize : (NtFileDisk.getSize32 ⟨data, data.length, offset⟩ + 2 ^ 32 -
      NtFileDisk.getCurrentPos ⟨data, data.length, offset⟩) % 2 ^ 32 = (data.length - offset) % 2 ^ 32 := by
    show (data.length % 2 ^ 32 + 2 ^ 32 - offset % 2 ^ 32) % 2 ^ 32 = _
    omega
  rw [extractOmvTypeUnk, hread]
  dsimp only
  rw [htag, if_neg (fun hne => hne rfl), hback, if_pos rfl, hsize]

/-- `Unpack` comes to the loop with the file at the payload. -/
theorem unpackTypeUnk_eq {ogvFlag : OgvDecode} {junk : CopyJunk} {data : List UInt8} {offset : Nat}
    (h : Payload ogvFlag junk data offset) : unpackTypeUnk true ogvFlag junk data =
      some ⟨⟨data, data.length, offset⟩, (data.length - offset) % 2 ^ 32, 0, junk.translatedSize, junk.buffer, 0⟩ := by
  have hinside := h.inside
  have hbytes : ((NtFileDisk.openFile data).read 0xA8).1 = data.take 0xA8 := rfl
  have hseek : ((NtFileDisk.openFile data).read 0xA8).2.seek offset = ⟨data, data.length, offset⟩ :=
    NtFileDisk.seek_inside (show offset ≤ data.length by omega)
  rw [unpackTypeUnk]
  dsimp only
  rw [hbytes, if_neg (fun hne => hne h.mainVersion), if_neg h.copied, h.offset_eq, hseek,
    extractOmvTypeUnk_eq junk h.oggS hinside]

/-- The loop starts at the payload. -/
theorem copy_start (junk : CopyJunk) (data : List UInt8) (offset : Nat) :
    CopyState.At ⟨⟨data, data.length, offset⟩, (data.length - offset) % 2 ^ 32, 0, junk.translatedSize, junk.buffer, 0⟩
      (data.drop offset) 0 0 (bytesAt junk.buffer 0 junk.translatedSize) where
  size_eq := by rw [List.length_drop]
  readSize_eq := rfl
  rest_eq := rfl
  reported := (bytesAt_length ..).symm
  buffer := by rw [bytesAt_length]

/-- The loop copies the payload if and only if the reads deliver it. -/
theorem copiesSuffix_iff {ogvFlag : OgvDecode} {junk : CopyJunk} {data : List UInt8} {offset : Nat}
    (h : Payload ogvFlag junk data offset) (result : Nat → ReadResult) :
    ∃ s, unpackTypeUnk true ogvFlag junk data = some s ∧
      (CopiesSuffix result s (data.drop offset) ↔ Delivers result junk (data.drop offset)) := by
  refine ⟨_, unpackTypeUnk_eq h, ?_⟩
  have hstart := copy_start junk data offset
  constructor
  · rintro ⟨log, ⟨fuel, hrun⟩, hpre, hall⟩
    have hfills := fills_of_run hstart hrun hpre
    refine ⟨_, hfills, ?_⟩
    by_cases hzero : 0 ∈ log.map (·.transferred)
    · exact .inr hzero
    · left
      have hfull := hall fun p hp h0 => hzero (List.mem_map.2 ⟨p, hp, h0⟩)
      obtain ⟨log', hends', -, -, hlength⟩ := hfills.ends rfl hstart
      rw [← (Ends.unique ⟨fuel, hrun⟩ hends').1, hfull] at hlength
      have := hlength hzero (Nat.zero_le _)
      omega
  · rintro ⟨sizes, hfills, hcase⟩
    obtain ⟨log, hends, hsizes, hwritten, hlength⟩ := hfills.ends rfl hstart
    refine ⟨log, hends, hwritten, fun hall => ?_⟩
    have hzero : 0 ∉ sizes := by
      rw [← hsizes]
      intro h0
      obtain ⟨p, hp, h0⟩ := List.mem_map.1 h0
      exact hall p hp h0
    have hlt := hcase.resolve_right hzero
    refine hwritten.eq_of_length ?_
    rw [hlength hzero (Nat.zero_le _), Nat.mod_eq_of_lt hlt]
    rfl

/-! ## A payload of four bytes -/

/-- A file of version 1.0 and of type 1 whose payload is "OggS". -/
def oggSFile : List UInt8 :=
  Bytes.le32 0xA8 ++ [1, 0, 0, 0] ++ List.replicate 32 0 ++ Bytes.le32 1 ++ List.replicate 124 0 ++
    [0x4f, 0x67, 0x67, 0x53]

/-- Locals that happen to be 0. -/
def zeroJunk : CopyJunk := ⟨fun _ => 0, 0, fun _ => 0, 0, fun _ => 0⟩

theorem oggSFile_payload : Payload .decode zeroJunk oggSFile 0xA8 where
  mainVersion := by decide +kernel
  subVersion := by decide +kernel
  copied := by decide +kernel
  offset_eq := by decide +kernel
  oggS := by decide +kernel

/-- Reads of three bytes: the second gets the one byte that is left. -/
theorem copiesSuffix_oggS : ∃ s, unpackTypeUnk true .decode zeroJunk oggSFile = some s ∧
    CopiesSuffix (fun _ => .transferred 3) s (oggSFile.drop 0xA8) := by
  obtain ⟨s, hs, hiff⟩ := copiesSuffix_iff oggSFile_payload fun _ => .transferred 3
  refine ⟨s, hs, hiff.2 ⟨[3, 1], ?_, .inl (by decide)⟩⟩
  have hpayload : oggSFile.drop 0xA8 = [0x4f, 0x67, 0x67, 0x53] := by decide +kernel
  rw [hpayload]
  exact .transferred (n := 3) (by decide) rfl (by decide) (.transferred (n := 3) (by decide) rfl (by decide)
    (.done (by decide)))

/-- Reads that fail from the start on: where `TranslatedSize` is 0, the loop does not return. -/
theorem copy_never_ends (hfail : ∀ i, result i = .failed) (hleft : 0 < suffix.length % 2 ^ 32) (fuel : Nat)
    {s : CopyState} (h : s.At suffix 0 0 []) : (run (copyTurn result) fuel s).2 = none := by
  refine run_never (fun s => s.At suffix 0 0 []) ?_ fuel h
  intro s h
  have hturn := copyTurn_failed h hleft (hfail s.reads)
  rw [if_neg (by decide)] at hturn
  exact ⟨_, _, hturn, h.repeated⟩

theorem not_copiesSuffix : ¬ ∀ (junk : CopyJunk) (data : List UInt8) (offset : Nat) (result : Nat → ReadResult),
    Payload .decode junk data offset → ∃ s, unpackTypeUnk true .decode junk data = some s ∧
      CopiesSuffix result s (data.drop offset) := by
  intro hcopies
  obtain ⟨s, hs, log, ⟨fuel, hrun⟩, -⟩ := hcopies zeroJunk oggSFile 0xA8 (fun _ => .failed) oggSFile_payload
  rw [unpackTypeUnk_eq oggSFile_payload, Option.some.injEq] at hs
  have hnever := @copy_never_ends (fun _ => .failed) _ (fun _ => rfl) (by decide +kernel) fuel s
    (hs ▸ copy_start zeroJunk oggSFile 0xA8)
  rw [hrun] at hnever
  cases hnever

end SiglusExtract.Omv
