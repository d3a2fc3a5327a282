/-
The hooks against AlphaROM (SiglusExtract.cpp, SiglusUniversalPatch.cpp): `HookVirtualAlloc` waits for the loader of
the bundled DLL and makes way for `HookZwAllocateVirtualMemory`, which waits for the DLL itself; where the game has no
such loader, `HookGetProcAddress` waits for `Sarcheck`. A function whose code could not be restored stays hooked.
-/
import SiglusExtract.AlphaRom.Bundle
import SiglusExtract.AlphaRom.Sections
import SiglusExtract.Lib.Machine
import Mathlib.Data.List.Induction

namespace SiglusExtract.AlphaRom

open Bytes Machine

/-! ## The game, the system and the hooks -/

/-- The functions that are hooked. -/
inductive Hook
  | virtualAlloc
  | zwAllocateVirtualMemory
  | getProcAddress
  deriving DecidableEq, Repr

/-- The functions that are hooked, one of them twice where it is hooked again, the variable `pSarcheck` (`NULL` is 0)
and the memory. -/
structure State where
  hooked : List Hook
  pSarcheck : Nat
  mem : Mem UInt8

/-- What the system's function returns, and the memory that it leaves. -/
structure Answer where
  result : Nat
  mem : Mem UInt8

/-- A call of the game, or whatever else writes to its memory. `restored` is whether `Mp::RestoreMemory` succeeds where
it is called, and `patched` whether `Mp::PatchMemory` does. -/
inductive Call
  | virtualAlloc (returnAddress : Nat) (restored patched : Bool) (answer : Answer)
  | zwAllocateVirtualMemory (restored : Bool) (answer : Answer)
  | getProcAddress (lpProcName : Nat) (restored : Bool) (answer : Answer)
  | other (answer : Answer)

def Call.answer : Call → Answer
  | .virtualAlloc _ _ _ answer => answer
  | .zwAllocateVirtualMemory _ answer => answer
  | .getProcAddress _ _ answer => answer
  | .other answer => answer

/-- No `Mp::RestoreMemory` fails. -/
def Call.Restores : Call → Prop
  | .virtualAlloc _ restored _ _ => restored = true
  | .zwAllocateVirtualMemory restored _ => restored = true
  | .getProcAddress _ restored _ => restored = true
  | .other _ => True

/-- What the hooks do of their own: they take an allocation for that of the loader, patch the DLL, or hand out
`SarCheckFake`. -/
inductive Act
  | adopt
  | patch
  | fake
  deriving DecidableEq, Repr

/-- The functions of the system that the hooks ask about the memory, and the address of `SarCheckFake`. -/
structure Env where
  isBadReadPtr : Mem UInt8 → Nat → Nat → Bool
  lstrlenA : Mem UInt8 → Nat → Nat
  sarCheckFake : Nat

variable (env : Env)

/-- `MAX_PATH`. -/
def maxPath : Nat := 260

/-- The test of `HookZwAllocateVirtualMemory`: the file of the DLL begins behind its name and five bytes. -/
def isBundle (m : Mem UInt8) (pSarcheck : Nat) : Option Bool :=
  if pSarcheck = 0 then some false
  else do
    let pDllName ← dword m pSarcheck
    if env.isBadReadPtr m pDllName maxPath then return false
    let pBuffer ← dword m (pSarcheck + 4)
    let dwSize ← dword m (pSarcheck + 8)
    if env.isBadReadPtr m pBuffer dwSize then return false
    if (pDllName + env.lstrlenA m pDllName + 5) % 2 ^ 32 ≠ pBuffer then return false
    let magic ← word m pBuffer
    return magic = 0x5A4D

/-- The patch of the DLL that `pSarcheck` tells of. -/
def patchBundle (m : Mem UInt8) (pSarcheck : Nat) : Option (Mem UInt8) := do
  let pBuffer ← dword m (pSarcheck + 4)
  patchImage m pBuffer

/-- `strnicmp` against letters in lower case: whether they are the same up to the NUL. -/
def strnicmp (m : Mem UInt8) (p : Nat) : List UInt8 → Option Bool
  | [] => some true
  | c :: rest => (m p).bind fun b =>
    if (if 65 ≤ b ∧ b ≤ 90 then b + 32 else b) ≠ c then some false
    else if c = 0 then some true
    else strnicmp m (p + 1) rest

/-- The test of `HookGetProcAddress` for `Sarcheck` and its NUL. -/
def isSarcheck (m : Mem UInt8) (lpProcName : Nat) : Option Bool :=
  if env.isBadReadPtr m lpProcName 9 then some false
  else strnicmp m lpProcName [115, 97, 114, 99, 104, 101, 99, 107, 0]

/-- The call of the system's function by itself. -/
def pass (s : State) (a : Answer) : Option (State × Nat × Option Act) := some ({ s with mem := a.mem }, a.result, none)

/-- The functions that are hooked behind `Mp::RestoreMemory`. -/
def State.restore (s : State) (hook : Hook) (restored : Bool) : List Hook :=
  if restored then s.hooked.erase hook else s.hooked

/-- `HookVirtualAlloc`: the return address stands behind `call dword ptr [ebp+…]`. -/
def hookVirtualAlloc (s : State) (returnAddress : Nat) (restored patched : Bool) (a : Answer) :
    Option (State × Nat × Option Act) :=
  (word s.mem ((returnAddress + 2 ^ 32 - 6) % 2 ^ 32)).bind fun w =>
    if w = 0x95FF then
      let kept := s.restore .virtualAlloc restored
      some (⟨if patched then .zwAllocateVirtualMemory :: kept else kept, a.result, a.mem⟩, a.result, some .adopt)
    else pass s a

/-- `HookZwAllocateVirtualMemory`. -/
def hookZwAllocateVirtualMemory (s : State) (restored : Bool) (a : Answer) : Option (State × Nat × Option Act) :=
  (isBundle env s.mem s.pSarcheck).bind fun bundle =>
    if bundle then
      (patchBundle a.mem s.pSarcheck).map fun mem =>
        (⟨s.restore .zwAllocateVirtualMemory restored, s.pSarcheck, mem⟩, a.result, some .patch)
    else pass s a

/-- `HookGetProcAddress`; the system's function is not called for `Sarcheck`. -/
def hookGetProcAddress (s : State) (lpProcName : Nat) (restored : Bool) (a : Answer) :
    Option (State × Nat × Option Act) :=
  (isSarcheck env s.mem lpProcName).bind fun sarcheck =>
    if sarcheck then
      some (⟨s.restore .getProcAddress restored, s.pSarcheck, s.mem⟩, env.sarCheckFake, some .fake)
    else pass s a

/-- A call: the state behind it, what it returns and what the hook has done of its own. `none` is a fault. -/
def handle (s : State) : Call → Option (State × Nat × Option Act)
  | .virtualAlloc returnAddress restored patched a =>
    if .virtualAlloc ∈ s.hooked then hookVirtualAlloc s returnAddress restored patched a else pass s a
  | .zwAllocateVirtualMemory restored a =>
    -- the trampoline of a second hook leads to the first one, so that the hook calls itself until the stack is full
    if 1 < s.hooked.count .zwAllocateVirtualMemory then none
    else if .zwAllocateVirtualMemory ∈ s.hooked then hookZwAllocateVirtualMemory env s restored a
    else pass s a
  | .getProcAddress lpProcName restored a =>
    if .getProcAddress ∈ s.hooked then hookGetProcAddress env s lpProcName restored a else pass s a
  | .other a => pass s a

/-! ## What a call does -/

/-- A run goes on from call to call; after a fault there is no state. -/
def next (s : Option State) (call : Call) : Option State := s.bind fun s => (handle env s call).map fun x => x.1

/-- What the hook does of its own. -/
def act (s : Option State) (call : Call) : Option Act := s.bind fun s => (handle env s call).bind fun x => x.2.2

/-- What the hook that is installed leads to. -/
def Hook.left : Hook → List Act
  | .virtualAlloc => [.adopt, .patch]
  | .zwAllocateVirtualMemory => [.patch]
  | .getProcAddress => [.fake]

/-- What may still be done. -/
def left (s : Option State) : List Act := ((s.bind fun s => s.hooked.head?).map Hook.left).getD []

/-- The code in front of the return address of a `VirtualAlloc` is `call dword ptr [ebp+…]`. -/
def Call.FromLoader (m : Mem UInt8) : Call → Prop
  | .virtualAlloc returnAddress _ _ _ => word m ((returnAddress + 2 ^ 32 - 6) % 2 ^ 32) = some 0x95FF
  | _ => False

variable {env} {s s' : State} {call : Call} {r : Nat}

/-- A call goes through to the system, or a hook that is installed does its work and is taken away if it can be. -/
theorem handle_cases {a : Option Act} (h : handle env s call = some (s', r, a)) :
    (a = none ∧ s' = { s with mem := call.answer.mem } ∧ r = call.answer.result) ∨
    (a = some .adopt ∧ .virtualAlloc ∈ s.hooked ∧ s'.mem = call.answer.mem ∧ r = call.answer.result ∧
      (call.FromLoader s.mem ∧ s'.pSarcheck = r) ∧
      (call.Restores → s'.hooked = .zwAllocateVirtualMemory :: s.hooked.erase .virtualAlloc ∨
        s'.hooked = s.hooked.erase .virtualAlloc)) ∨
    (a = some .patch ∧ .zwAllocateVirtualMemory ∈ s.hooked ∧ isBundle env s.mem s.pSarcheck = some true ∧
      patchBundle call.answer.mem s.pSarcheck = some s'.mem ∧ r = call.answer.result ∧
      s'.pSarcheck = s.pSarcheck ∧ (call.Restores → s'.hooked = s.hooked.erase .zwAllocateVirtualMemory)) ∨
    (a = some .fake ∧ .getProcAddress ∈ s.hooked ∧ s'.mem = s.mem ∧ r = env.sarCheckFake ∧
      s'.pSarcheck = s.pSarcheck ∧ (call.Restores → s'.hooked = s.hooked.erase .getProcAddress)) := by
  have hpass (h : pass s call.answer = some (s', r, a)) :
      a = none ∧ s' = { s with mem := call.answer.mem } ∧ r = call.answer.result := by
    cases h
    exact ⟨rfl, rfl, rfl⟩
  cases call with
  | virtualAlloc returnAddress restored patched answer =>
    rw [handle] at h
    split at h
    · next hooked =>
      rw [hookVirtualAlloc, Option.bind_eq_some_iff] at h
      obtain ⟨w, hw, h⟩ := h
      split at h
      · next hcall =>
        cases h
        rw [hcall] at hw
        refine .inr (.inl ⟨rfl, hooked, rfl, rfl, ⟨hw, rfl⟩, fun hrestored : restored = true => ?_⟩)
        rw [State.restore, if_pos hrestored]
        cases patched with
        | true => exact .inl rfl
        | false => exact .inr rfl
      · exact .inl (hpass h)
    · exact .inl (hpass h)
  | zwAllocateVirtualMemory restored answer =>
    rw [handle] at h
    split at h
    · cases h
    split at h
    · next hooked =>
      rw [hookZwAllocateVirtualMemory, Option.bind_eq_some_iff] at h
      obtain ⟨bundle, hbundle, h⟩ := h
      cases bundle with
      | true =>
        rw [if_pos rfl, Option.map_eq_some_iff] at h
        obtain ⟨mem, hmem, h⟩ := h
        cases h
        exact .inr (.inr (.inl ⟨rfl, hooked, hbundle, hmem, rfl, rfl, fun h => if_pos h⟩))
      | false => exact .inl (hpass h)
    · exact .inl (hpass h)
  | getProcAddress lpProcName restored answer =>
    rw [handle] at h
    split at h
    · next hooked =>
      rw [hookGetProcAddress, Option.bind_eq_some_iff] at h
      obtain ⟨sarcheck, -, h⟩ := h
      cases sarcheck with
      | true =>
        cases h
        exact .inr (.inr (.inr ⟨rfl, hooked, rfl, rfl, rfl, fun h => if_pos h⟩))
      | false => exact .inl (hpass h)
    · exact .inl (hpass h)
  | other answer => exact .inl (hpass h)

/-- No more than one function is hooked. -/
def Single (s : Option State) : Prop := ∀ s₀, s = some s₀ → s₀.hooked.length ≤ 1

theorem hooked_eq {hook : Hook} {l : List Hook} (hl : l.length ≤ 1) (h : hook ∈ l) : l = [hook] := by
  match l with
  | [_] => rw [List.mem_singleton.1 h]
  | _ :: _ :: _ => exact absurd hl (by simp)

/-- A call takes what is done off the front of what is left. -/
theorem act_left (env : Env) {s : Option State} {call : Call} (hs : Single s) (hrestores : call.Restores) :
    Single (next env s call) ∧ (act env s call).toList ++ left (next env s call) <+: left s := by
  cases s with
  | none => exact ⟨nofun, List.prefix_refl _⟩
  | some s =>
    rw [act, next, Option.bind_some, Option.bind_some]
    cases h : handle env s call with
    | none => exact ⟨nofun, List.nil_prefix⟩
    | some x =>
      obtain ⟨s', r, a⟩ := x
      have hlen := hs s rfl
      rw [Option.bind_some, Option.map_some]
      have hsingle (h : s'.hooked.length ≤ 1) : Single (some s') := by
        rintro _ ⟨⟩
        exact h
      rcases handle_cases h with ⟨rfl, rfl, -⟩ | ⟨rfl, hin, -, -, -, hs'⟩ | ⟨rfl, hin, -, -, -, -, hs'⟩ |
        ⟨rfl, hin, -, -, -, hs'⟩
      · exact ⟨hsingle hlen, List.prefix_refl _⟩
      · have hs := hooked_eq hlen hin
        rcases hs' hrestores with hs' | hs' <;> rw [hs, List.erase_cons_head] at hs' <;>
          exact ⟨hsingle (by simp [hs']), by simp [left, hs, hs', Hook.left]⟩
      · have hs := hooked_eq hlen hin
        have hs' := hs' hrestores
        rw [hs, List.erase_cons_head] at hs'
        exact ⟨hsingle (by simp [hs']), by simp [left, hs, hs', Hook.left]⟩
      · have hs := hooked_eq hlen hin
        have hs' := hs' hrestores
        rw [hs, List.erase_cons_head] at hs'
        exact ⟨hsingle (by simp [hs']), by simp [left, hs, hs', Hook.left]⟩

/-! ## Runs -/

/-- What `InitializeFuckAlphaRom` installs. -/
def Trap.hook : Trap → Hook
  | .virtualAlloc => .virtualAlloc
  | .getProcAddress => .getProcAddress

/-- The state behind it. -/
def start (trap : Option Trap) (mem : Mem UInt8) : State := ⟨(trap.map Trap.hook).toList, 0, mem⟩

/-- The call returns what the system returns and leaves the memory as the system does, but for `SarCheckFake` in the
place of the one and the patch of a DLL in the other. -/
def Passes (env : Env) (s : Option State) (call : Call) : Prop :=
  ∀ s₀ s' r a, s = some s₀ → handle env s₀ call = some (s', r, a) →
    (r = call.answer.result ∧ (s'.mem = call.answer.mem ∨
      a = some .patch ∧ isBundle env s₀.mem s₀.pSarcheck = some true ∧
        patchBundle call.answer.mem s₀.pSarcheck = some s'.mem)) ∨
    a = some .fake ∧ r = env.sarCheckFake ∧ s'.mem = s₀.mem

theorem passes (env : Env) (s : Option State) (call : Call) : Passes env s call := by
  rintro s₀ s' r a rfl h
  rcases handle_cases h with ⟨rfl, rfl, rfl⟩ | ⟨rfl, -, hmem, rfl, -⟩ | ⟨rfl, -, hbundle, hmem, rfl, -⟩ |
    ⟨rfl, -, hmem, rfl, -⟩
  · exact .inl ⟨rfl, .inl rfl⟩
  · exact .inl ⟨rfl, .inl hmem⟩
  · exact .inl ⟨rfl, .inr ⟨rfl, hbundle, hmem⟩⟩
  · exact .inr ⟨rfl, rfl, hmem⟩

/-- The memory behind a call. -/
def memory (s : Option State) : Option (Mem UInt8) := s.map State.mem

/-- `pSarcheck` is not set, or what one of the calls has returned to the loader. -/
def Adopted (env : Env) (s₀ : Option State) (calls : List Call) : Prop :=
  ∀ s, calls.foldl (next env) s₀ = some s → s.pSarcheck = 0 ∨ ∃ before call after m,
    calls = before ++ call :: after ∧ memory (before.foldl (next env) s₀) = some m ∧ call.FromLoader m ∧
      call.answer.result = s.pSarcheck

theorem Adopted.concat {s₀ : Option State} {calls : List Call} {call : Call} (h : Adopted env s₀ calls) :
    Adopted env s₀ (calls ++ [call]) := by
  intro s' hs'
  rw [List.foldl_append, List.foldl_cons, List.foldl_nil] at hs'
  generalize hs : calls.foldl (next env) s₀ = o at hs'
  rw [next, Option.bind_eq_some_iff] at hs'
  obtain ⟨s, rfl, hs'⟩ := hs'
  rw [Option.map_eq_some_iff] at hs'
  obtain ⟨⟨s', r, a⟩, hcall, rfl⟩ := hs'
  -- where `pSarcheck` stays, the call that has set it is one of those before
  have hkeep (heq : s'.pSarcheck = s.pSarcheck) : s'.pSarcheck = 0 ∨ ∃ before call' after m,
      calls ++ [call] = before ++ call' :: after ∧ memory (before.foldl (next env) s₀) = some m ∧
        call'.FromLoader m ∧ call'.answer.result = s'.pSarcheck := by
    rw [heq]
    rcases h s hs with h0 | ⟨before, call', after, m, rfl, hm, hloader, hresult⟩
    · exact .inl h0
    · exact .inr ⟨before, call', after ++ [call], m, by simp, hm, hloader, hresult⟩
  rcases handle_cases hcall with ⟨-, rfl, -⟩ | ⟨-, -, -, hr, ⟨hloader, hp⟩, -⟩ | ⟨-, -, -, -, -, hp, -⟩ |
    ⟨-, -, -, -, hp, -⟩
  · exact hkeep rfl
  · refine .inr ⟨calls, call, [], s.mem, rfl, ?_, hloader, ?_⟩
    · rw [hs, memory, Option.map_some]
    · rw [hp, hr]
  · exact hkeep hp
  · exact hkeep hp

theorem adopted (env : Env) (trap : Option Trap) (mem : Mem UInt8) (calls : List Call) :
    Adopted env (some (start trap mem)) calls := by
  induction calls using List.reverseRecOn with
  | nil =>
    rintro s hs
    cases hs
    exact .inl rfl
  | append_singleton calls call ih => exact ih.concat

/-- In every run in which the code can be restored the hooks do what is left to them at the start in this order, each
at most once, and after the last of it none is installed. In every run what the DLL is looked for in has been returned
to the loader, and all else goes through. -/
theorem hooks_run (env : Env) (trap : Option Trap) (mem : Mem UInt8) (calls : List Call) :
    ((∀ call ∈ calls, call.Restores) → outputs (next env) (act env) (some (start trap mem)) calls ++
        left (calls.foldl (next env) (some (start trap mem))) <+: left (some (start trap mem))) ∧
      Along (next env) (Passes env) (some (start trap mem)) calls ∧
      Adopted env (some (start trap mem)) calls := by
  refine ⟨fun hrestores => ?_, ?_, adopted env trap mem calls⟩
  · have hstart : Single (some (start trap mem)) := by
      rintro _ ⟨⟩
      cases trap <;> simp [start]
    exact outputs_front Single left (fun _ _ => act_left env) (along_of_forall _ hrestores) hstart
  generalize some (start trap mem) = s
  induction calls generalizing s with
  | nil => trivial
  | cons call calls ih => exact ⟨passes env s call, ih _⟩

/-- The bytes in front of a NUL, where one comes before memory that cannot be read. -/
def strlen (m : Mem UInt8) : Nat → Nat → Option Nat
  | 0, _ => none
  | fuel + 1, p => (m p).bind fun c => if c = 0 then some 0 else (strlen m fuel (p + 1)).map (· + 1)

/-- The functions of the system, on memory that nothing else uses; strings have less than a hundred letters. -/
def sampleEnv : Env where
  isBadReadPtr m p n := (List.range n).any fun i => (m (p + i)).isNone
  lstrlenA m p := (strlen m 100 p).getD 0
  sarCheckFake := 0

/-- The sample DLL behind an empty name, with what the loader says of it at 0x1000, and the call of the loader. -/
def loaderMem : Mem UInt8 :=
  ((sampleDll.write 0x400000 [0x4D, 0x5A]).write 0x1000 (le32 0x3ffffb ++ le32 0x400000 ++ le32 0x300)).write 0x2000
    [0xFF, 0x95]

def loaderCalls : List Call :=
  [.virtualAlloc 0x3000 true true ⟨0x5000, loaderMem⟩, .zwAllocateVirtualMemory true ⟨0, loaderMem⟩,
    .virtualAlloc 0x2006 true true ⟨0x1000, loaderMem⟩, .zwAllocateVirtualMemory true ⟨0, loaderMem⟩,
    .zwAllocateVirtualMemory true ⟨0, loaderMem⟩]

theorem hooks_run_loader : outputs (next sampleEnv) (act sampleEnv) (some (start (some .virtualAlloc) loaderMem))
    loaderCalls = [.adopt, .patch] ∧
      left (loaderCalls.foldl (next sampleEnv) (some (start (some .virtualAlloc) loaderMem))) = [] := by
  have hrestores : ∀ call ∈ loaderCalls, call.Restores := by simp [loaderCalls, Call.Restores]
  have hrun := (hooks_run sampleEnv (some .virtualAlloc) loaderMem loaderCalls).1 hrestores
  have hacts : outputs (next sampleEnv) (act sampleEnv) (some (start (some .virtualAlloc) loaderMem)) loaderCalls =
      [.adopt, .patch] := by decide +kernel
  rw [hacts] at hrun
  exact ⟨hacts, List.prefix_nil.1 ((List.prefix_append_right_inj [Act.adopt, Act.patch]).1 hrun)⟩

end SiglusExtract.AlphaRom
