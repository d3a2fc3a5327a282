/-
How ScriptRepacker reads the translator's text file back (ScriptRepacker.cpp): `wmain` skips the byte
order mark and splits the rest with `GetLines`, to which it passes the number of bytes as the number
of characters.
-/
import SiglusExtract.Script.Text

namespace SiglusExtract

open Bytes Wide

/-! ## GetLines -/

/-- The variables of `GetLines`. -/
structure LineState where
  readPool : List WString
  readLine : WString
  iPos : Nat
  deriving DecidableEq, Repr

/-- The line is pushed and the character that ends it passed over. -/
def LineState.pushLine (st : LineState) : LineState := ⟨st.readPool ++ [st.readLine], [], st.iPos + 1⟩

/-- The branch on `\r`, which also passes over a `\n` behind it. -/
def LineState.carriageReturn (buffer : Mem UInt16) (st : LineState) : Option LineState := do
  let c ← buffer st.iPos
  if c = 13 then do
    let st := st.pushLine
    let c ← buffer st.iPos
    return if c = 10 then { st with iPos := st.iPos + 1 } else st
  else return st

/-- The branch on `\n`. -/
def LineState.lineFeed (buffer : Mem UInt16) (st : LineState) : Option LineState := do
  let c ← buffer st.iPos
  return if c = 10 then st.pushLine else st

/-- The end of a turn: the character at `iPos` belongs to the line, whatever it is. -/
def LineState.append (buffer : Mem UInt16) (st : LineState) : Option LineState := do
  let c ← buffer st.iPos
  return { st with readLine := st.readLine ++ [c], iPos := st.iPos + 1 }

/-- The loop of `GetLines`; every turn advances `iPos`. -/
def getLinesLoop (buffer : Mem UInt16) (size : Nat) : Nat → LineState → Option LineState
  | 0, _ => none
  | fuel + 1, st =>
    if st.iPos ≥ size then some st
    else do
      let st ← st.carriageReturn buffer
      let st ← st.lineFeed buffer
      let st ← st.append buffer
      getLinesLoop buffer size fuel st

/-- `GetLines`: the lines of `size` characters; a rest without a line break is a line as well. -/
def getLines (buffer : Mem UInt16) (size : Nat) : Option (List WString) := do
  let st ← getLinesLoop buffer size (size + 1) ⟨[], [], 0⟩
  return if st.readLine.length ≠ 0 then st.readPool ++ [st.readLine] else st.readPool

/-- What `wmain` reads from the text file. Its memory is the text that was read, and a file without
room for the byte order mark ends the program. -/
def readLines (file : List UInt8) : Option (List WString) :=
  let size := file.length % 2 ^ 32
  if size < 2 then none
  else
    let size := size - 2
    let text := (NtFileDisk.read ⟨file, file.length, 2⟩ size).1
    getLines (fun i => unit (Mem.ofList text) (2 * i)) size

/-! ## Accesses behind the text -/

section

variable {buffer : Mem UInt16} {w : Nat} (hw : buffer w = none)

include hw in
theorem le_of_read {iPos : Nat} (h : iPos ≤ w) {c : UInt16} (hc : buffer iPos = some c) : iPos + 1 ≤ w := by
  rcases Nat.lt_or_eq_of_le h with h | rfl
  · exact h
  · rw [hw] at hc
    cases hc

include hw in
theorem carriageReturn_iPos {st st' : LineState} (h : st.iPos ≤ w) (hst : st.carriageReturn buffer = some st') :
    st'.iPos ≤ w := by
  simp only [LineState.carriageReturn, Option.bind_eq_bind, Option.bind_eq_some_iff] at hst
  obtain ⟨c, hc, hst⟩ := hst
  -- the two reads in front of the step have succeeded, so neither was at `w`
  have h1 := le_of_read hw h hc
  split at hst
  · simp only [Option.bind_eq_some_iff, Option.pure_def, Option.some.injEq] at hst
    obtain ⟨d, hd, rfl⟩ := hst
    have h2 := le_of_read hw (show st.pushLine.iPos ≤ w from h1) hd
    split
    · exact h2
    · exact h1
  · rw [Option.pure_def, Option.some.injEq] at hst
    rwa [← hst]

include hw in
theorem lineFeed_iPos {st st' : LineState} (h : st.iPos ≤ w) (hst : st.lineFeed buffer = some st') :
    st'.iPos ≤ w := by
  simp only [LineState.lineFeed, Option.bind_eq_bind, Option.bind_eq_some_iff, Option.pure_def,
    Option.some.injEq] at hst
  obtain ⟨c, hc, rfl⟩ := hst
  have h1 := le_of_read hw h hc
  split
  · exact h1
  · exact h

include hw in
theorem append_iPos {st st' : LineState} (h : st.iPos ≤ w) (hst : st.append buffer = some st') :
    st'.iPos ≤ w := by
  simp only [LineState.append, Option.bind_eq_bind, Option.bind_eq_some_iff, Option.pure_def,
    Option.some.injEq] at hst
  obtain ⟨c, hc, rfl⟩ := hst
  exact le_of_read hw h hc

include hw in
/-- The loop reads every character on its way, so it does not get past one that may not be read. -/
theorem getLinesLoop_none {size : Nat} (hsize : w < size) : ∀ (fuel : Nat) (st : LineState), st.iPos ≤ w →
    getLinesLoop buffer size fuel st = none
  | 0, _, _ => rfl
  | fuel + 1, st, h => by
    rw [getLinesLoop, if_neg (by omega)]
    cases h1 : st.carriageReturn buffer with
    | none => rfl
    | some st1 =>
      have hi1 := carriageReturn_iPos hw h h1
      cases h2 : st1.lineFeed buffer with
      | none => simp [h2]
      | some st2 =>
        have hi2 := lineFeed_iPos hw hi1 h2
        cases h3 : st2.append buffer with
        | none => simp [h2, h3]
        | some st3 => simpa [h2, h3] using getLinesLoop_none hsize fuel st3 (append_iPos hw hi2 h3)

end

/-- Taken as a number of characters, the number of bytes of a text leads out of it. -/
theorem getLines_bytes (text : List UInt8) {size : Nat} (hsize : 0 < size) (hle : text.length ≤ size) :
    getLines (fun i => unit (Mem.ofList text) (2 * i)) size = none := by
  -- the first unit that does not lie in the text
  have hw : unit (Mem.ofList text) (2 * (text.length / 2)) = none := by
    have : Mem.ofList text (2 * (text.length / 2) + 1) = none := List.getElem?_eq_none (by omega)
    simp [unit, word, this]
  rw [getLines, getLinesLoop_none (w := text.length / 2) hw (by omega) _ _ (Nat.zero_le _)]
  rfl

theorem read_length_le (file : List UInt8) {size : Nat} (h : 0 < size) :
    (NtFileDisk.read ⟨file, file.length, 2⟩ size).1.length ≤ size := by
  rw [NtFileDisk.read, if_neg (by omega)]
  exact List.length_take_le _ _

/-- The text that `ExtractText` writes for a list of strings is read back, without an access behind the
text, just for the empty list. -/
theorem readLines_textFile (strings : List WString) : readLines (textFile strings) = some strings ↔ strings = [] := by
  constructor
  · intro h
    unfold readLines at h
    simp only at h
    split at h
    · cases h
    · by_cases h0 : 0 < (textFile strings).length % 2 ^ 32 - 2
      · rw [getLines_bytes _ h0 (read_length_le _ h0)] at h
        cases h
      · rw [show (textFile strings).length % 2 ^ 32 - 2 = 0 by omega] at h
        simpa [getLines, getLinesLoop] using h
  · rintro rfl
    rfl

/-- A single line `a`. -/
theorem readLines_a : readLines (textFile [[97]]) ≠ some [[97]] := by decide

end SiglusExtract
