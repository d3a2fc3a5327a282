/-
The key trap (SiglusHook.cpp): `HookCreateFileW` remembers the handle that the game gets for
`Gameexe.dat`, and `HookReadFile` sets a write breakpoint into the buffer of the first read through it.
The hooks see handle values only: they learn neither that an open or a read failed nor that a handle was
closed and its value given to another file.
-/
import SiglusExtract.Lib.Behind
import SiglusExtract.Lib.Machine
import SiglusExtract.Scene.Pack

namespace SiglusExtract.SiglusHook

open Behind Machine

/-! ## The name -/

/-- The loop of `IsGameExe`: `iPos` is the index of the last separator, or 0. -/
def separatorLoop : WString → Nat → Nat → Nat
  | [], _, iPos => iPos
  | u :: fileName, i, iPos => separatorLoop fileName (i + 1) (if u = 92 ∨ u = 47 then i else iPos)

/-- `IsGameExe`. -/
def isGameExe (gameexeName fileName : WString) : Bool :=
  let iPos := separatorLoop fileName 0 0
  fileName.drop (if iPos ≠ 0 then iPos + 1 else iPos) = gameexeName

/-- The file name ends in `gameexeName`, which stands alone or behind a separator. -/
def Named (gameexeName fileName : WString) : Prop :=
  ∃ dir, fileName = dir ++ gameexeName ∧ ∀ u, dir.getLast? = some u → u = 92 ∨ u = 47

/-- The characters after which the loop looks. -/
def isSeparator (u : UInt16) : Bool := u = 92 ∨ u = 47

/-- The part of a path behind its last separator. -/
abbrev lastComponent (fileName : WString) : WString := behind isSeparator fileName

theorem isSeparator_iff {u : UInt16} : isSeparator u = true ↔ u = 92 ∨ u = 47 := decide_eq_true_iff

theorem isSeparator_false_iff {u : UInt16} : isSeparator u = false ↔ ¬ (u = 92 ∨ u = 47) := decide_eq_false_iff_not

theorem separatorLoop_none {fileName : WString} (h : ∀ u ∈ fileName, isSeparator u = false) (i iPos : Nat) :
    separatorLoop fileName i iPos = iPos := by
  induction fileName generalizing i with
  | nil => rfl
  | cons u fileName ih =>
    rw [List.forall_mem_cons] at h
    rw [separatorLoop, if_neg (isSeparator_false_iff.1 h.1), ih h.2]

/-- The loop finds the last separator, whatever it has found before. -/
theorem separatorLoop_last {dir name : WString} {u : UInt16} (hu : isSeparator u = true)
    (hname : ∀ v ∈ name, isSeparator v = false) (i iPos : Nat) :
    separatorLoop (dir ++ u :: name) i iPos = i + dir.length := by
  induction dir generalizing i iPos with
  | nil => rw [List.nil_append, separatorLoop, if_pos (isSeparator_iff.1 hu), separatorLoop_none hname, List.length_nil,
      Nat.add_zero]
  | cons v dir ih =>
    rw [List.cons_append, separatorLoop, ih, List.length_cons]
    omega

/-- The only separator is the first character: the loop leaves the 0 that stands for none. -/
def OnlyFirst (fileName name : WString) : Prop :=
  ∃ u, fileName = u :: name ∧ isSeparator u = true ∧ ∀ v ∈ name, isSeparator v = false

theorem OnlyFirst.lastComponent {fileName name : WString} (h : OnlyFirst fileName name) :
    lastComponent fileName = name := by
  obtain ⟨u, rfl, hu, hname⟩ := h
  exact @behind_last _ _ [] _ _ hu hname

theorem isGameExe_onlyFirst {fileName name : WString} (h : OnlyFirst fileName name) (gameexeName : WString) :
    isGameExe gameexeName fileName = true ↔ fileName = gameexeName := by
  obtain ⟨u, rfl, hu, hname⟩ := h
  have hpos : separatorLoop (u :: name) 0 0 = 0 := @separatorLoop_last [] name u hu hname 0 0
  rw [isGameExe, hpos, if_neg (not_not_intro rfl), List.drop_zero, decide_eq_true_iff]

/-- In every other path the last component is compared. -/
theorem isGameExe_not_onlyFirst {fileName : WString} (h : ∀ name, ¬ OnlyFirst fileName name) (gameexeName : WString) :
    isGameExe gameexeName fileName = true ↔ lastComponent fileName = gameexeName := by
  rw [isGameExe, decide_eq_true_iff]
  by_cases hsep : ∃ u ∈ fileName, isSeparator u = true
  · obtain ⟨dir, u, name, rfl, hu, hname⟩ := exists_last hsep
    have hdir : dir.length ≠ 0 := by
      intro h0
      obtain rfl := List.length_eq_zero_iff.1 h0
      exact h name ⟨u, rfl, hu, hname⟩
    have hdrop : (dir ++ u :: name).drop (dir.length + 1) = name := by
      rw [List.drop_append, Nat.add_sub_cancel_left, List.drop_eq_nil_of_le (Nat.le_succ _)]
      rfl
    rw [separatorLoop_last hu hname, Nat.zero_add, if_pos hdir, hdrop, lastComponent, behind_last hu hname]
  · have hnone : ∀ u ∈ fileName, isSeparator u = false := by simpa using hsep
    rw [separatorLoop_none hnone, if_neg (not_not_intro rfl), List.drop_zero, lastComponent, behind_none hnone]

theorem isGameExe_named {gameexeName fileName : WString} (h : isGameExe gameexeName fileName = true) :
    Named gameexeName fileName := by
  by_cases hfirst : ∃ name, OnlyFirst fileName name
  · obtain ⟨name, hfirst⟩ := hfirst
    exact ⟨[], (isGameExe_onlyFirst hfirst gameexeName).1 h, nofun⟩
  · obtain ⟨dir, hdir, -, hlast⟩ := exists_behind isSeparator fileName
    obtain rfl := (isGameExe_not_onlyFirst (not_exists.1 hfirst) gameexeName).1 h
    exact ⟨dir, hdir, fun u hu => isSeparator_iff.1 (hlast u hu)⟩

/-- `IsGameExe` says whether the last component of a path is the name, unless the only separator of the path is its
first character and the name is the path itself or the rest of it. -/
theorem isGameExe_lastComponent_iff (gameexeName fileName : WString) :
    (isGameExe gameexeName fileName = true ↔ lastComponent fileName = gameexeName) ↔
      ¬ ∃ name, OnlyFirst fileName name ∧ (gameexeName = fileName ∨ gameexeName = name) := by
  by_cases hfirst : ∃ name, OnlyFirst fileName name
  · obtain ⟨name, hfirst⟩ := hfirst
    have hlast := hfirst.lastComponent
    have hne : fileName ≠ name := by
      obtain ⟨u, rfl, -⟩ := hfirst
      exact List.cons_ne_self u name
    rw [isGameExe_onlyFirst hfirst, hlast]
    constructor
    · rintro hiff ⟨name', hfirst', hname⟩
      obtain rfl : name' = name := hfirst'.lastComponent.symm.trans hlast
      rcases hname with rfl | rfl
      · exact hne (hiff.1 rfl).symm
      · exact hne (hiff.2 rfl)
    · intro hno
      constructor
      · exact fun h => absurd ⟨name, hfirst, .inl h.symm⟩ hno
      · exact fun h => absurd ⟨name, hfirst, .inr h.symm⟩ hno
  · refine iff_of_true (isGameExe_not_onlyFirst (not_exists.1 hfirst) gameexeName) ?_
    rintro ⟨name, h, -⟩
    exact hfirst ⟨name, h⟩

/-- A file of the root directory. -/
theorem isGameExe_root : isGameExe (wide "Gameexe.dat") (wide "\\Gameexe.dat") = false ∧
    lastComponent (wide "\\Gameexe.dat") = wide "Gameexe.dat" := by
  decide +kernel

/-! ## The game, the system and the hooks -/

/-- `INVALID_HANDLE_VALUE`. -/
def invalidHandleValue : UInt32 := 0xffffffff

/-- What an open handle stands for: the name it was opened under and the file pointer. -/
structure OpenFile where
  name : WString
  position : Nat
  deriving DecidableEq, Repr

/-- The handles of the system, and the variables of the hooks. -/
structure State where
  files : UInt32 → Option OpenFile
  initKey : Bool
  gameexeHandle : UInt32
  hookOnce : Bool
  accessPtr : Nat

def start : State where
  files _ := none
  initKey := false
  gameexeHandle := invalidHandleValue
  hookOnce := false
  accessPtr := 0

/-- A call of the game, with what the system answers: the handle of an open that succeeds, the bytes that
a read has transferred when it returns. A call comes from the main program or from another module; a read
may name an offset in its `OVERLAPPED`. -/
inductive Call
  | createFileW (lpFileName : WString) (mainExe : Bool) (handle : Option UInt32)
  | closeHandle (hObject : UInt32)
  | readFile (hFile : UInt32) (lpBuffer nNumberOfBytesToRead : Nat) (lpOverlapped received : Option Nat)
  deriving DecidableEq, Repr

/-- What the system may answer: a handle of no other open file, and no more bytes than asked for. -/
def Possible (s : State) : Call → Prop
  | .createFileW _ _ (some handle) => handle ≠ invalidHandleValue ∧ s.files handle = none
  | .readFile hFile _ n _ (some received) => s.files hFile ≠ none ∧ received ≤ n
  | _ => True

instance (s : State) (call : Call) : Decidable (Possible s call) := by
  unfold Possible
  split <;> infer_instance

/-- `SetFilePointer(hFile, 0, NULL, FILE_CURRENT)`: the low word cannot stand for a pointer beyond 4 GiB. -/
def setFilePointer (s : State) (hFile : UInt32) : Nat :=
  match s.files hFile with
  | some file => if file.position < 2 ^ 32 then file.position else 2 ^ 32 - 1
  | none => 2 ^ 32 - 1

/-- `StubCreateFileW`. -/
def stubCreateFileW (files : UInt32 → Option OpenFile) (lpFileName : WString) :
    Option UInt32 → UInt32 → Option OpenFile
  | none => files
  | some handle => Function.update files handle (some ⟨lpFileName, 0⟩)

/-- `StubReadFile`: the pointer moves behind what was read, if anything was. -/
def stubReadFile (files : UInt32 → Option OpenFile) (hFile : UInt32) (lpOverlapped : Option Nat) :
    Option Nat → UInt32 → Option OpenFile
  | none => files
  | some received => Function.update files hFile
      ((files hFile).map fun file => { file with position := lpOverlapped.getD file.position + received })

/-- Where `HookReadFile` sets the breakpoint, if the call makes it do so. -/
def breakpoint (s : State) : Call → Option Nat
  | .readFile hFile lpBuffer _ _ _ =>
    if hFile = s.gameexeHandle ∧ setFilePointer s hFile = 0 ∧ s.hookOnce = false then some (lpBuffer + 8 + 16)
    else none
  | _ => none

/-- `HookCreateFileW`. -/
def hookCreateFileW (gameexeName : WString) (s : State) (lpFileName : WString) (mainExe : Bool)
    (handle : Option UInt32) : State :=
  let s := { s with files := stubCreateFileW s.files lpFileName handle }
  -- the handle is not looked at: after a failed open `InitKey` is set and the trap is not
  if isGameExe gameexeName lpFileName && mainExe && !s.initKey then
    { s with gameexeHandle := handle.getD invalidHandleValue, initKey := true }
  else s

/-- `HookReadFile`. -/
def hookReadFile (s : State) (hFile : UInt32) (lpBuffer n : Nat) (lpOverlapped received : Option Nat) : State :=
  let files := stubReadFile s.files hFile lpOverlapped received
  match breakpoint s (.readFile hFile lpBuffer n lpOverlapped received) with
  | some accessPtr => { s with files, accessPtr, gameexeHandle := invalidHandleValue, hookOnce := false }
  | none => { s with files }

/-- `CloseHandle` is not hooked. -/
def next (gameexeName : WString) (s : State) : Call → State
  | .createFileW lpFileName mainExe handle => hookCreateFileW gameexeName s lpFileName mainExe handle
  | .closeHandle hObject => { s with files := Function.update s.files hObject none }
  | .readFile hFile lpBuffer n lpOverlapped received => hookReadFile s hFile lpBuffer n lpOverlapped received

variable {gameexeName : WString} {s : State} {call : Call}

/-! ## What a call does -/

theorem setFilePointer_eq_zero {hFile : UInt32} :
    setFilePointer s hFile = 0 ↔ ∃ file, s.files hFile = some file ∧ file.position = 0 := by
  unfold setFilePointer
  cases s.files hFile with
  | none => exact iff_of_false (by decide) fun ⟨_, h, _⟩ => by cases h
  | some file =>
    dsimp only
    constructor
    · intro h
      split at h
      · exact ⟨file, rfl, h⟩
      · cases h
    · rintro ⟨_, hfile, h⟩
      cases hfile
      rw [h]
      rfl

/-- The trap stays as it is, is set by the first open of the name, or has gone off. -/
theorem next_cases (gameexeName : WString) (s : State) (call : Call) :
    (breakpoint s call = none ∧ (next gameexeName s call).gameexeHandle = s.gameexeHandle ∧
        (next gameexeName s call).initKey = s.initKey ∧ (next gameexeName s call).hookOnce = s.hookOnce) ∨
      (∃ name handle, call = .createFileW name true handle ∧ isGameExe gameexeName name = true ∧ s.initKey = false ∧
        breakpoint s call = none ∧ (next gameexeName s call).gameexeHandle = handle.getD invalidHandleValue ∧
        (next gameexeName s call).initKey = true ∧ (next gameexeName s call).hookOnce = s.hookOnce) ∨
      ∃ accessPtr, breakpoint s call = some accessPtr ∧
        (next gameexeName s call).gameexeHandle = invalidHandleValue ∧
        (next gameexeName s call).initKey = s.initKey ∧ (next gameexeName s call).hookOnce = false := by
  cases call with
  | createFileW name mainExe handle =>
    by_cases htrap : isGameExe gameexeName name = true ∧ mainExe = true ∧ s.initKey = false
    · obtain ⟨hname, rfl, hinit⟩ := htrap
      refine .inr (.inl ⟨name, handle, rfl, hname, hinit, rfl, ?_⟩)
      simp [next, hookCreateFileW, hname, hinit]
    · have hno : (isGameExe gameexeName name && mainExe && !s.initKey) = false := by
        rw [Bool.eq_false_iff]
        simpa [and_assoc] using htrap
      exact .inl ⟨rfl, by simp [next, hookCreateFileW, hno]⟩
  | closeHandle hObject => exact .inl ⟨rfl, rfl, rfl, rfl⟩
  | readFile hFile lpBuffer n lpOverlapped received =>
    cases hbreak : breakpoint s (.readFile hFile lpBuffer n lpOverlapped received) with
    | none => exact .inl ⟨rfl, by simp [next, hookReadFile, hbreak]⟩
    | some accessPtr => exact .inr (.inr ⟨accessPtr, rfl, by simp [next, hookReadFile, hbreak]⟩)

theorem of_update_eq_some {files : UInt32 → Option OpenFile} {h h' : UInt32} {v : Option OpenFile} {file : OpenFile}
    (hfile : Function.update files h' v h = some file) : files h = some file ∨ h = h' ∧ v = some file := by
  by_cases hh : h = h'
  · rw [hh, Function.update_self] at hfile
    exact .inr ⟨hh, hfile⟩
  · rw [Function.update_of_ne hh] at hfile
    exact .inl hfile

/-- A file open after a call was open before it, under the same name, or is the one opened. -/
theorem next_files {h : UInt32} {file : OpenFile} (hfile : (next gameexeName s call).files h = some file) :
    (∃ before, s.files h = some before ∧ before.name = file.name) ∨
      ∃ mainExe, call = .createFileW file.name mainExe (some h) := by
  cases call with
  | createFileW name mainExe handle =>
    have hfiles : (next gameexeName s (.createFileW name mainExe handle)).files =
        stubCreateFileW s.files name handle := by
      show (hookCreateFileW gameexeName s name mainExe handle).files = _
      unfold hookCreateFileW
      dsimp only
      split <;> rfl
    rw [hfiles] at hfile
    cases handle with
    | none => exact .inl ⟨file, hfile, rfl⟩
    | some h' =>
      rcases of_update_eq_some hfile with hbefore | ⟨rfl, hnew⟩
      · exact .inl ⟨file, hbefore, rfl⟩
      · cases hnew
        exact .inr ⟨mainExe, rfl⟩
  | closeHandle hObject =>
    rcases of_update_eq_some hfile with hbefore | ⟨-, hnone⟩
    · exact .inl ⟨file, hbefore, rfl⟩
    · cases hnone
  | readFile hFile lpBuffer n lpOverlapped received =>
    have hfiles : (next gameexeName s (.readFile hFile lpBuffer n lpOverlapped received)).files =
        stubReadFile s.files hFile lpOverlapped received := by
      show (hookReadFile s hFile lpBuffer n lpOverlapped received).files = _
      unfold hookReadFile
      dsimp only
      split <;> rfl
    rw [hfiles] at hfile
    cases received with
    | none => exact .inl ⟨file, hfile, rfl⟩
    | some received =>
      rcases of_update_eq_some hfile with hbefore | ⟨rfl, hread⟩
      · exact .inl ⟨file, hbefore, rfl⟩
      · -- the name stays, the pointer moves
        obtain ⟨before, hbefore, rfl⟩ := Option.map_eq_some_iff.1 hread
        exact .inl ⟨before, hbefore, rfl⟩

/-- The breakpoint is set on a read through the trapped handle of an open file whose pointer is at 0. -/
theorem breakpoint_eq_some {accessPtr : Nat} (h : breakpoint s call = some accessPtr) :
    ∃ lpBuffer n lpOverlapped received file,
      call = .readFile s.gameexeHandle lpBuffer n lpOverlapped received ∧ s.files s.gameexeHandle = some file ∧
        file.position = 0 ∧ accessPtr = lpBuffer + 24 := by
  cases call with
  | createFileW name mainExe handle => cases h
  | closeHandle hObject => cases h
  | readFile hFile lpBuffer n lpOverlapped received =>
    rw [breakpoint] at h
    split at h
    · rename_i hcond
      obtain ⟨rfl, hpointer, -⟩ := hcond
      rw [Option.some.injEq] at h
      subst h
      obtain ⟨file, hfile, hposition⟩ := setFilePointer_eq_zero.1 hpointer
      exact ⟨lpBuffer, n, lpOverlapped, received, file, rfl, hfile, hposition, rfl⟩
    · cases h

/-! ## The trap goes off once -/

/-- No file is open under the invalid handle, and a trap that is set was set by an open. -/
structure Sound (s : State) : Prop where
  invalid : s.files invalidHandleValue = none
  init : s.gameexeHandle ≠ invalidHandleValue → s.initKey = true
  once : s.hookOnce = false

theorem sound_start : Sound start := ⟨rfl, fun h => absurd rfl h, rfl⟩

theorem next_invalid (h : s.files invalidHandleValue = none) (hcall : Possible s call) :
    (next gameexeName s call).files invalidHandleValue = none := by
  by_contra hopen
  obtain ⟨file, hfile⟩ := Option.ne_none_iff_exists'.1 hopen
  rcases next_files hfile with ⟨before, hbefore, -⟩ | ⟨mainExe, rfl⟩
  · rw [h] at hbefore
    cases hbefore
  · exact hcall.1 rfl

theorem Sound.next (hs : Sound s) (hcall : Possible s call) : Sound (next gameexeName s call) := by
  refine ⟨next_invalid hs.invalid hcall, ?_, ?_⟩
  · rcases next_cases gameexeName s call with ⟨-, hhandle, hinit, -⟩ | ⟨_, _, _, _, _, _, -, hinit, -⟩ |
      ⟨_, _, hhandle, -⟩
    · rw [hhandle, hinit]
      exact hs.init
    · exact fun _ => hinit
    · exact fun hne => absurd hhandle hne
  · rcases next_cases gameexeName s call with ⟨-, -, -, honce⟩ | ⟨_, _, _, _, _, _, -, -, honce⟩ | ⟨_, _, -, -, honce⟩
    · rw [honce, hs.once]
    · rw [honce, hs.once]
    · exact honce

/-- In every run the system allows, one breakpoint is set at most. -/
theorem breakpoint_once {calls : List Call} (h : Along (next gameexeName) Possible start calls) :
    (outputs (next gameexeName) breakpoint start calls).length ≤ 1 := by
  refine outputs_length_le_one Sound
    (fun s => s.files invalidHandleValue = none ∧ s.gameexeHandle = invalidHandleValue ∧ s.initKey = true) ?_ ?_ h
    sound_start
  · intro s call hs hcall
    cases hbreak : breakpoint s call with
    | none => exact hs.next hcall
    | some accessPtr =>
      rw [Option.isSome_some, if_pos rfl]
      refine ⟨next_invalid hs.invalid hcall, ?_⟩
      obtain ⟨_, _, _, _, file, -, hfile, -⟩ := breakpoint_eq_some hbreak
      have hinit : s.initKey = true := hs.init fun hhandle => by
        rw [hhandle, hs.invalid] at hfile
        cases hfile
      rcases next_cases gameexeName s call with ⟨hnone, -⟩ | ⟨_, _, _, _, _, hnone, -⟩ | ⟨_, _, hhandle, hkey, -⟩
      · rw [hbreak] at hnone
        cases hnone
      · rw [hbreak] at hnone
        cases hnone
      · exact ⟨hhandle, hkey.trans hinit⟩
  · rintro s call ⟨hinvalid, hhandle, hinit⟩ hcall
    have hnone : breakpoint s call = none := by
      by_contra hsome
      obtain ⟨accessPtr, hbreak⟩ := Option.ne_none_iff_exists'.1 hsome
      obtain ⟨_, _, _, _, file, -, hfile, -⟩ := breakpoint_eq_some hbreak
      rw [hhandle, hinvalid] at hfile
      cases hfile
    refine ⟨⟨next_invalid hinvalid hcall, ?_⟩, hnone⟩
    rcases next_cases gameexeName s call with ⟨-, hsame, hkey, -⟩ | ⟨_, _, _, _, hkey, -⟩ | ⟨_, hbreak, -⟩
    · exact ⟨hsame.trans hhandle, hkey.trans hinit⟩
    · rw [hinit] at hkey
      cases hkey
    · rw [hnone] at hbreak
      cases hbreak

/-! ## The trap is set on the right buffer -/

/-- The call has just filled the buffer with the first bytes of the file of the name, at least the 24 up to
`accessPtr`. -/
def FirstBytes (gameexeName : WString) (s : State) (call : Call) (accessPtr : Nat) : Prop :=
  ∃ hFile lpBuffer n lpOverlapped received file, call = .readFile hFile lpBuffer n lpOverlapped (some received) ∧
    s.files hFile = some file ∧ Named gameexeName file.name ∧ lpOverlapped.getD file.position = 0 ∧ 24 ≤ received ∧
    accessPtr = lpBuffer + 24

/-- The main program opens the file of the name. -/
def Opened (gameexeName : WString) : Call → Prop
  | .createFileW name mainExe handle => isGameExe gameexeName name = true ∧ mainExe = true ∧ handle ≠ none
  | _ => False

/-- What the key trap is for, in a run of calls: a breakpoint is set on nothing but the first bytes of the
file, and once at most; and the first open of the file to succeed sets the trap, whatever failed before. -/
structure KeyTrap (gameexeName : WString) (calls : List Call) : Prop where
  firstBytes : ∀ before call after accessPtr, calls = before ++ call :: after →
    breakpoint (before.foldl (next gameexeName) start) call = some accessPtr →
      FirstBytes gameexeName (before.foldl (next gameexeName) start) call accessPtr
  once : (outputs (next gameexeName) breakpoint start calls).length ≤ 1
  opened : ∀ before name handle after, calls = before ++ .createFileW name true (some handle) :: after →
    isGameExe gameexeName name = true → (∀ call ∈ before, ¬ Opened gameexeName call) →
      ∀ lpBuffer n lpOverlapped received,
        breakpoint ((before ++ [.createFileW name true (some handle)]).foldl (next gameexeName) start)
          (.readFile handle lpBuffer n lpOverlapped received) = some (lpBuffer + 24)

/-- Where the hooks see what they need: the first open of the name by the main program succeeds, the value
of the trapped handle goes to no file of another name, and the first read through it, with the pointer at 0,
gets 24 bytes or more from the offset 0. -/
def Regular (gameexeName : WString) (s : State) : Call → Prop
  | .createFileW name mainExe handle =>
    (isGameExe gameexeName name = true → mainExe = true → s.initKey = false → handle ≠ none) ∧
      (handle = some s.gameexeHandle → isGameExe gameexeName name = true)
  | .closeHandle _ => True
  | .readFile hFile _ _ lpOverlapped received =>
    hFile = s.gameexeHandle → setFilePointer s hFile = 0 → lpOverlapped.getD 0 = 0 ∧ 24 ≤ received.getD 0

instance (gameexeName : WString) (s : State) (call : Call) : Decidable (Regular gameexeName s call) := by
  unfold Regular
  split <;> infer_instance

/-- The file that is open under the trapped handle, if any, has the name. -/
def Trapped (gameexeName : WString) (s : State) : Prop :=
  ∀ file, s.files s.gameexeHandle = some file → Named gameexeName file.name

theorem Trapped.next (hs : Sound s) (ht : Trapped gameexeName s) (hcall : Possible s call)
    (hreg : Regular gameexeName s call) : Trapped gameexeName (next gameexeName s call) := by
  intro file hfile
  have hclosed : ¬ (SiglusHook.next gameexeName s call).files invalidHandleValue = some file := by
    rw [next_invalid hs.invalid hcall]
    exact fun h => by cases h
  rcases next_cases gameexeName s call with ⟨-, hsame, -⟩ | ⟨name, handle, rfl, hname, -, -, hhandle, -⟩ |
    ⟨_, -, hhandle, -⟩
  · rw [hsame] at hfile
    rcases next_files hfile with ⟨before, hbefore, hname⟩ | ⟨mainExe, rfl⟩
    · exact hname ▸ ht before hbefore
    · exact isGameExe_named (hreg.2 rfl)
  · rw [hhandle] at hfile
    cases handle with
    | none => exact absurd hfile hclosed
    | some h =>
      rcases next_files hfile with ⟨before, hbefore, -⟩ | ⟨mainExe, heq⟩
      · -- the system gives out no handle that is open
        have hfree : s.files h = none := hcall.2
        rw [Option.getD_some, hfree] at hbefore
        cases hbefore
      · rw [Call.createFileW.injEq] at heq
        exact heq.1 ▸ isGameExe_named hname
  · rw [hhandle] at hfile
    exact absurd hfile hclosed

theorem firstBytes_of_breakpoint {accessPtr : Nat} (ht : Trapped gameexeName s) (hreg : Regular gameexeName s call)
    (h : breakpoint s call = some accessPtr) : FirstBytes gameexeName s call accessPtr := by
  obtain ⟨lpBuffer, n, lpOverlapped, received, file, rfl, hfile, hposition, hptr⟩ := breakpoint_eq_some h
  obtain ⟨hoffset, hmany⟩ := hreg rfl (setFilePointer_eq_zero.2 ⟨file, hfile, hposition⟩)
  cases received with
  | none => exact absurd hmany (by decide)
  | some received =>
    exact ⟨s.gameexeHandle, lpBuffer, n, lpOverlapped, received, file, rfl, hfile, ht file hfile, hposition ▸ hoffset,
      hmany, hptr⟩

/-- As long as no open of the file has succeeded, no other has used the trap up. -/
theorem initKey_of_not_opened {calls : List Call} (h : Along (next gameexeName) (Regular gameexeName) s calls)
    (hinit : s.initKey = false) (hno : ∀ call ∈ calls, ¬ Opened gameexeName call) :
    (calls.foldl (next gameexeName) s).initKey = false := by
  induction calls generalizing s with
  | nil => exact hinit
  | cons call calls ih =>
    refine ih h.2 ?_ fun call hcall => hno call (List.mem_cons_of_mem _ hcall)
    rcases next_cases gameexeName s call with ⟨-, -, hsame, -⟩ | ⟨name, handle, rfl, hname, -⟩ | ⟨_, -, -, hsame, -⟩
    · exact hsame.trans hinit
    · exact absurd ⟨hname, rfl, h.1.1 hname rfl hinit⟩ (hno _ List.mem_cons_self)
    · exact hsame.trans hinit

/-- An open that sets the trap: the next read through the handle sets the breakpoint. -/
theorem breakpoint_after_open {name : WString} (hname : isGameExe gameexeName name = true) (hinit : s.initKey = false)
    (honce : s.hookOnce = false) (handle : UInt32) (lpBuffer n : Nat) (lpOverlapped received : Option Nat) :
    breakpoint (next gameexeName s (.createFileW name true (some handle)))
      (.readFile handle lpBuffer n lpOverlapped received) = some (lpBuffer + 24) := by
  have hnext : next gameexeName s (.createFileW name true (some handle)) =
      { s with files := stubCreateFileW s.files name (some handle), gameexeHandle := handle, initKey := true } := by
    simp [next, hookCreateFileW, hname, hinit]
  have hpointer : setFilePointer (next gameexeName s (.createFileW name true (some handle))) handle = 0 := by
    rw [setFilePointer_eq_zero, hnext]
    exact ⟨⟨name, 0⟩, Function.update_self handle _ _, rfl⟩
  rw [breakpoint, if_pos ⟨by rw [hnext], hpointer, by rw [hnext, honce]⟩]

/-- In every run whose calls are all possible and regular the key trap does what it is for. -/
theorem keyTrap_of_regular (gameexeName : WString) {calls : List Call}
    (h : Along (next gameexeName) (fun s call => Possible s call ∧ Regular gameexeName s call) start calls) :
    KeyTrap gameexeName calls := by
  have hposs : Along (next gameexeName) Possible start calls := h.imp fun _ _ => And.left
  have hinv : ∀ before after, calls = before ++ after →
      Sound (before.foldl (next gameexeName) start) ∧ Trapped gameexeName (before.foldl (next gameexeName) start) := by
    rintro before after rfl
    refine h.of_append.1.keeps (fun s => Sound s ∧ Trapped gameexeName s) ?_
      ⟨sound_start, fun file hfile => by cases hfile⟩
    rintro s call ⟨hs, ht⟩ ⟨hcall, hreg⟩
    exact ⟨hs.next hcall, ht.next hs hcall hreg⟩
  refine ⟨?_, breakpoint_once hposs, ?_⟩
  · rintro before call after accessPtr rfl hbreak
    exact firstBytes_of_breakpoint (hinv before _ rfl).2 h.of_append.2.1.2 hbreak
  · rintro before name handle after rfl hname hno lpBuffer n lpOverlapped received
    rw [List.foldl_append]
    exact breakpoint_after_open hname
      (initKey_of_not_opened (h.of_append.1.imp fun _ _ => And.right) rfl hno) (hinv before _ rfl).1.once handle
      lpBuffer n lpOverlapped received

/-- A session in which the trap goes off, on the buffer at 4096. -/
theorem keyTrap_of_regular_session :
    outputs (next (wide "Gameexe.dat")) breakpoint start
        [.createFileW (wide "g\\Scene.pck") true (some 4), .createFileW (wide "g\\Gameexe.dat") true (some 8),
          .readFile 8 4096 100 none (some 100), .closeHandle 8] = [4120] ∧
      KeyTrap (wide "Gameexe.dat")
        [.createFileW (wide "g\\Scene.pck") true (some 4), .createFileW (wide "g\\Gameexe.dat") true (some 8),
          .readFile 8 4096 100 none (some 100), .closeHandle 8] :=
  ⟨by decide +kernel, keyTrap_of_regular (wide "Gameexe.dat") (by decide +kernel)⟩

/-! ## Where it is not -/

/-- The file is opened once it is there; the first attempt has used the trap up. -/
def openedTooEarly : List Call :=
  [.createFileW (wide "Gameexe.dat") true none, .createFileW (wide "Gameexe.dat") true (some 4),
    .readFile 4 4096 100 none (some 100)]

/-- The file is closed unread, and its handle's value goes to the next file. -/
def handleReused : List Call :=
  [.createFileW (wide "Gameexe.dat") true (some 4), .closeHandle 4, .createFileW (wide "Scene.pck") true (some 4),
    .readFile 4 4096 100 none (some 100)]

/-- The version number is read before the rest. -/
def readShort : List Call :=
  [.createFileW (wide "Gameexe.dat") true (some 4), .readFile 4 4096 4 none (some 4)]

/-- The first read is of the middle of the file. -/
def readElsewhere : List Call :=
  [.createFileW (wide "Gameexe.dat") true (some 4), .readFile 4 4096 100 (some 256) (some 100)]

theorem keyTrap_fails :
    (Along (next (wide "Gameexe.dat")) Possible start openedTooEarly ∧
        ¬ KeyTrap (wide "Gameexe.dat") openedTooEarly) ∧
      (Along (next (wide "Gameexe.dat")) Possible start handleReused ∧ ¬ KeyTrap (wide "Gameexe.dat") handleReused) ∧
      (Along (next (wide "Gameexe.dat")) Possible start readShort ∧ ¬ KeyTrap (wide "Gameexe.dat") readShort) ∧
      Along (next (wide "Gameexe.dat")) Possible start readElsewhere ∧
        ¬ KeyTrap (wide "Gameexe.dat") readElsewhere := by
  have hearly : ¬ KeyTrap (wide "Gameexe.dat") openedTooEarly := by
    intro h
    have hno : ∀ call ∈ [Call.createFileW (wide "Gameexe.dat") true none], ¬ Opened (wide "Gameexe.dat") call := by
      intro call hcall hopened
      rw [List.mem_singleton.1 hcall] at hopened
      exact hopened.2.2 rfl
    have htrap := h.opened _ (wide "Gameexe.dat") 4 _ rfl (by decide +kernel) hno 4096 100 none (some 100)
    exact absurd htrap (by decide +kernel)
  have hreused : ¬ KeyTrap (wide "Gameexe.dat") handleReused := by
    intro h
    have hother : ¬ wide "Gameexe.dat" <:+ wide "Scene.pck" := by decide +kernel
    obtain ⟨_, _, _, _, _, file, hcall, hfile, ⟨dir, hname, -⟩, -⟩ :=
      h.firstBytes (handleReused.take 3) (.readFile 4 4096 100 none (some 100)) [] 4120 rfl (by decide +kernel)
    cases hcall
    have hscene : file.name = wide "Scene.pck" := congrArg OpenFile.name (Option.some.inj hfile.symm)
    exact hother ⟨dir, hname.symm.trans hscene⟩
  have hshort : ¬ KeyTrap (wide "Gameexe.dat") readShort := by
    intro h
    obtain ⟨_, _, _, _, _, _, hcall, -, -, -, hmany, -⟩ :=
      h.firstBytes (readShort.take 1) (.readFile 4 4096 4 none (some 4)) [] 4120 rfl (by decide +kernel)
    cases hcall
    exact absurd hmany (by decide)
  have helse : ¬ KeyTrap (wide "Gameexe.dat") readElsewhere := by
    intro h
    obtain ⟨_, _, _, _, _, _, hcall, -, -, hoffset, -⟩ :=
      h.firstBytes (readElsewhere.take 1) (.readFile 4 4096 100 (some 256) (some 100)) [] 4120 rfl (by decide +kernel)
    cases hcall
    cases hoffset
  exact ⟨⟨by decide +kernel, hearly⟩, ⟨by decide +kernel, hreused⟩, ⟨by decide +kernel, hshort⟩,
    by decide +kernel, helse⟩

end SiglusExtract.SiglusHook
