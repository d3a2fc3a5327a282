/-
`ConvertNwaToVorbisInternal` (Nwa2Ogg.cpp): the samples are looked for behind the first `da` at an even
place of the stream, and what follows is read block by block for the encoder. A word of the header that
looks like the tag is taken for it.
-/
import SiglusExtract.Lib.Machine
import SiglusExtract.Nwa.WavStream

namespace SiglusExtract.Nwa

open Bytes CInt Machine

/-! ## The tag -/

/-- The scan for the tag: at most `n` reads of two bytes, and the six bytes behind the tag. Whether it was found is
not looked at. -/
def scan : Nat → List UInt8 → NtFileMemory → Bool × NtFileMemory
  | 0, _, f => (false, f)
  | n + 1, readbuffer, f =>
    if f.position = f.data.length then (false, f)
    else
      let (bytes, f) := f.read 2
      let readbuffer := readInto readbuffer bytes
      if readbuffer.take 2 = ascii "da" then (true, (f.read 6).2) else scan n readbuffer f

theorem scan_data (n : Nat) (readbuffer : List UInt8) (f : NtFileMemory) : (scan n readbuffer f).2.data = f.data := by
  induction n generalizing readbuffer f with
  | zero => rfl
  | succ n ih =>
    unfold scan
    split
    · rfl
    · dsimp only
      split
      · rfl
      · exact ih _ _

section Scan

variable {n w : Nat} {readbuffer post : List UInt8} {f : NtFileMemory}

theorem le16_tag_iff (hw : w < 2 ^ 16) : le16 w = ascii "da" ↔ w = 0x6164 := by
  constructor
  · intro h
    have hlo := congrArg (fun l => leWord (l[0]?.getD 0) (l[1]?.getD 0)) h
    have htag : leWord ((ascii "da")[0]?.getD 0) ((ascii "da")[1]?.getD 0) = 0x6164 := by decide
    rw [htag] at hlo
    simp only [le16, List.getElem?_cons_zero, List.getElem?_cons_succ, Option.getD_some, leWord,
      UInt8.toNat_ofNat'] at hlo
    omega
  · rintro rfl
    decide

/-- What a turn of the scan finds in front of it. -/
theorem scan_read (hf : f.rest = le16 w ++ post) : scan (n + 1) readbuffer f =
    if le16 w = ascii "da" then (true, (NtFileMemory.read { f with position := f.position + 2 } 6).2)
    else scan n (readInto readbuffer (le16 w)) { f with position := f.position + 2 } := by
  have hread := (NtFileMemory.read_append hf).1
  rw [le16_length] at hread
  have hmore : f.position ≠ f.data.length := by
    intro hend
    have hnil : f.rest = [] := List.drop_eq_nil_of_le (Nat.le_of_eq hend.symm)
    rw [hf] at hnil
    cases hnil
  rw [scan, if_neg hmore, hread]
  rfl

theorem rest_advance (hf : f.rest = le16 w ++ post) :
    NtFileMemory.rest { f with position := f.position + 2 } = post := by
  rw [NtFileMemory.rest, ← List.drop_drop]
  exact congrArg (List.drop 2) hf

/-- The tag: the scan stops behind the size that follows it. -/
theorem scan_tag (hf : f.rest = le16 0x6164 ++ post) (hpost : 6 ≤ post.length) :
    (scan (n + 1) readbuffer f).2.position = f.position + 8 := by
  have hrest := rest_advance hf
  rw [scan_read hf, if_pos (by decide)]
  show f.position + 2 + ((NtFileMemory.rest { f with position := f.position + 2 }).take 6).length = f.position + 8
  rw [hrest, List.length_take, Nat.min_eq_left hpost]

end Scan

/-- The first tag ends the scan: it stops behind the last word where no word before that looks like one. -/
theorem scan_position_iff {post : List UInt8} (hpost : 6 ≤ post.length) : ∀ {ws : List Nat} {n : Nat}
    (readbuffer : List UInt8) {f : NtFileMemory}, f.rest = ws.flatMap le16 ++ (le16 0x6164 ++ post) →
      (∀ w ∈ ws, w < 2 ^ 16) → ws.length < n →
        ((scan n readbuffer f).2.position = f.position + (2 * ws.length + 8) ↔ ∀ w ∈ ws, w ≠ 0x6164)
  | _, 0, _, _, _, _, h => absurd h (Nat.not_lt_zero _)
  | [], n + 1, readbuffer, f, hf, _, _ => by
    rw [scan_tag hf hpost]
    exact ⟨fun _ w hw => (List.not_mem_nil hw).elim, fun _ => rfl⟩
  | w :: ws, n + 1, readbuffer, f, hf, hlt, hn => by
    rw [List.flatMap_cons, List.append_assoc] at hf
    by_cases hw : w = 0x6164
    · -- the word looks like the tag
      subst hw
      rw [scan_tag hf (by rw [List.length_append, List.length_append]; omega), List.forall_mem_cons, List.length_cons]
      exact iff_of_false (by omega) fun h => h.1 rfl
    · have ih := scan_position_iff hpost (readInto readbuffer (le16 w)) (rest_advance hf)
        (fun v hv => hlt v (List.mem_cons_of_mem w hv)) (Nat.lt_of_succ_lt_succ hn)
      rw [scan_read hf, if_neg (mt (le16_tag_iff (hlt w List.mem_cons_self)).1 hw), List.forall_mem_cons, ← ih,
        and_iff_right hw, List.length_cons]
      dsimp only
      omega

/-! ## The encoder -/

/-- The frames of a block: a sample for each of two channels. -/
def uninterleave : List UInt8 → List (Int × Int)
  | l0 :: l1 :: r0 :: r1 :: rest => (sample l0 l1, sample r0 r1) :: uninterleave rest
  | _ => []

/-- The Vorbis library: what `vorbis_encode_init_vbr` returns for two channels and 44100 samples a second, and
whether the page that ends the stream is out after these calls of `vorbis_analysis_wrote`. -/
structure VorbisEncoder where
  encodeInitVbr : Int
  eos : List (List (Int × Int)) → Bool

/-- The settings are taken, and a call without frames ends the stream, but none with frames does. -/
structure VorbisEncoder.Documented (enc : VorbisEncoder) : Prop where
  settings : enc.encodeInitVbr = 0
  opened : ∀ calls, [] ∉ calls → enc.eos calls = false
  ended : ∀ calls, enc.eos (calls ++ [[]]) = true

/-- One turn of the loop: a block is read, and its frames are submitted. -/
def encodeTurn (enc : VorbisEncoder) (s : NtFileMemory × List (List (Int × Int))) :
    Step (List UInt8) Unit (NtFileMemory × List (List (Int × Int))) :=
  let (bytes, f) := s.1.read 4096
  let calls := s.2 ++ [uninterleave bytes]
  if enc.eos calls then .halt [bytes] () else .more [bytes] (f, calls)

/-- `ConvertNwaToVorbisInternal`: the blocks that are read for the encoder. -/
def convertNwaToVorbisInternal (enc : VorbisEncoder) (junk : List UInt8) (f : NtFileMemory) (fuel : Nat) :
    List (List UInt8) × Option Unit :=
  let f := (scan 30 (0 :: junk) f).2
  if enc.encodeInitVbr ≠ 0 then ([], some ()) else run (encodeTurn enc) fuel (f, [])

/-! ## What the encoder gets -/

theorem uninterleave_eq_nil_iff (l : List UInt8) : uninterleave l = [] ↔ l.length < 4 := by
  match l with
  | _ :: _ :: _ :: _ :: _ => simp [uninterleave]
  | [] | [_] | [_, _] | [_, _, _] => simp [uninterleave]

/-- Frames are taken one after the other: those of whole frames in front, and those of what follows. -/
theorem uninterleave_split (k : Nat) (l : List UInt8) :
    uninterleave (l.take (4 * k)) ++ uninterleave (l.drop (4 * k)) = uninterleave l := by
  induction k generalizing l with
  | zero => rfl
  | succ k ih =>
    match l with
    | l0 :: l1 :: r0 :: r1 :: rest =>
      rw [show 4 * (k + 1) = 4 * k + 1 + 1 + 1 + 1 by omega]
      simp only [List.take_succ_cons, List.drop_succ_cons, uninterleave, List.cons_append]
      rw [ih rest]
    | [] | [_] | [_, _] | [_, _, _] =>
      -- no frame at all
      rw [List.take_of_length_le (by simp <;> omega), List.drop_eq_nil_of_le (by simp <;> omega)]
      exact List.append_nil _

section Encode

variable {enc : VorbisEncoder} (henc : enc.Documented)
include henc

/-- All that is left of the stream is read for the encoder, and it gets the frames that this makes. -/
theorem encodeTurn_ends : ∀ {n : Nat} {f : NtFileMemory} (calls : List (List (Int × Int))), [] ∉ calls →
    f.rest.length < n → ∃ log, Ends (encodeTurn enc) (f, calls) log () ∧ log.flatten = f.rest ∧
      (log.map uninterleave).flatten = uninterleave f.rest
  | 0, _, _, _, hlen => absurd hlen (Nat.not_lt_zero _)
  | n + 1, f, calls, hcalls, hlen => by
    have hrest := f.read_rest 4096
    have hsplit := uninterleave_split 1024 f.rest
    by_cases hshort : (f.rest.take 4096).length < 4
    · -- no frame: the stream has come to its end
      have hnone := (uninterleave_eq_nil_iff _).2 hshort
      have hall : f.rest.take 4096 = f.rest := List.take_of_length_le (by rw [List.length_take] at hshort; omega)
      have hturn : encodeTurn enc (f, calls) = .halt [f.rest.take 4096] () := by
        show (if enc.eos (calls ++ [uninterleave (f.rest.take 4096)]) then _ else _) = _
        rw [hnone, if_pos (henc.ended calls)]
        rfl
      refine ⟨_, .halt hturn, ?_, ?_⟩
      · rw [List.flatten_singleton, hall]
      · rw [List.map_singleton, List.flatten_singleton, hall]
    · have hopen : [] ∉ calls ++ [uninterleave (f.rest.take 4096)] := by
        rw [List.mem_append, List.mem_singleton, not_or]
        exact ⟨hcalls, fun h => hshort ((uninterleave_eq_nil_iff _).1 h.symm)⟩
      have hturn : encodeTurn enc (f, calls) =
          .more [f.rest.take 4096] ((f.read 4096).2, calls ++ [uninterleave (f.rest.take 4096)]) := by
        show (if enc.eos (calls ++ [uninterleave (f.rest.take 4096)]) then _ else _) = _
        rw [henc.opened _ hopen]
        rfl
      obtain ⟨log, hends, hbytes, hframes⟩ := encodeTurn_ends (n := n) (f := (f.read 4096).2) _ hopen (by
        rw [List.length_take] at hshort
        rw [hrest, List.length_drop]
        omega)
      refine ⟨_, .more hturn hends, ?_, ?_⟩
      · rw [List.singleton_append, List.flatten_cons, hbytes, hrest, List.take_append_drop]
      · rw [List.singleton_append, List.map_cons, List.flatten_cons, hframes, hrest]
        exact hsplit

end Encode

/-- The scan finds the samples, and all of them reach the encoder, where no word of the header looks like the tag. -/
theorem convertNwaToVorbis_iff {enc : VorbisEncoder} (henc : enc.Documented) (junk : List UInt8)
    (size channels bps freq : Int) (pcm : List UInt8) :
    let f := NtFileMemory.openBuffer (makeWavheader size channels bps freq ++ pcm)
    ((scan 30 (0 :: junk) f).2.position = 44 ∧ ∃ fuel log, convertNwaToVorbisInternal enc junk f fuel = (log, some ()) ∧
        log.flatten = pcm ∧ (log.map uninterleave).flatten = uninterleave pcm) ↔
      ∀ w ∈ fieldWords size channels bps freq, w ≠ 0x6164 := by
  intro f
  have hrest : f.rest = (headerWords size channels bps freq).flatMap le16 ++
      (le16 0x6164 ++ (le16 0x6174 ++ le32 (u32 size) ++ pcm)) := by
    have htag : ascii "data" = le16 0x6164 ++ le16 0x6174 := by decide
    show makeWavheader size channels bps freq ++ pcm = _
    rw [makeWavheader_words, htag]
    simp only [List.append_assoc]
  have hlen : (headerWords size channels bps freq).length < 30 := by
    rw [headerWords_length]
    decide
  have hscan := scan_position_iff (by simp; omega) (0 :: junk) hrest (headerWords_lt size channels bps freq) hlen
  rw [← headerWords_ne_iff, ← hscan]
  show _ ↔ (scan 30 (0 :: junk) f).2.position = 44
  refine ⟨fun h => h.1, fun hpos => ⟨hpos, ?_⟩⟩
  have hbehind : (scan 30 (0 :: junk) f).2.rest = pcm := by
    rw [NtFileMemory.rest, scan_data, hpos]
    exact List.drop_left' (makeWavheader_length size channels bps freq)
  obtain ⟨log, ⟨fuel, hrun⟩, hbytes, hframes⟩ := encodeTurn_ends henc [] List.not_mem_nil
    (Nat.lt_succ_self (scan 30 (0 :: junk) f).2.rest.length)
  rw [hbehind] at hbytes hframes
  refine ⟨fuel, log, ?_, hbytes, hframes⟩
  rw [convertNwaToVorbisInternal, if_neg (not_not.2 henc.settings), hrun]

/-- A library that ends the stream at the first call without frames. -/
def plainEncoder : VorbisEncoder := ⟨0, fun calls => [] ∈ calls⟩

theorem plainEncoder_documented : plainEncoder.Documented where
  settings := rfl
  opened _ h := decide_eq_false h
  ended calls := decide_eq_true (List.mem_append_right calls (List.mem_singleton_self []))

/-- One frame at 44100 samples a second. -/
theorem convertNwaToVorbis_frame : ∃ fuel log, convertNwaToVorbisInternal plainEncoder []
      (.openBuffer (makeWavheader 4 2 16 44100 ++ [1, 0, 2, 0])) fuel = (log, some ()) ∧
    log.flatten = [1, 0, 2, 0] ∧ (log.map uninterleave).flatten = [(1, 2)] :=
  ((convertNwaToVorbis_iff plainEncoder_documented [] 4 2 16 44100 [1, 0, 2, 0]).2 (by decide +kernel)).2

/-- One frame at 24932 samples a second: that is `da`, and the scan stops at byte 32. -/
theorem convertNwaToVorbis_misled : ¬ ∀ (size channels bps freq : Int) (pcm : List UInt8),
    (scan 30 [0, 0] (.openBuffer (makeWavheader size channels bps freq ++ pcm))).2.position = 44 := by
  intro hall
  have := hall 4 2 16 24932 [1, 0, 2, 0]
  exact absurd this (by decide +kernel)

end SiglusExtract.Nwa
