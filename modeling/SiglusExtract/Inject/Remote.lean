/-
`InjectDllToRemoteProcess` (my.cpp) beside the thread it sends into its code: the thread loads the DLL and goes back to
where it was interrupted, while the function looks for the zero in front of the context, and in the end frees the page.
-/
import SiglusExtract.Inject.Stub
import Mathlib.Logic.Relation

namespace SiglusExtract.Inject

open Bytes Machine

/-! ## The thread in its process -/

/-- A call of `LdrLoadDll`: its arguments, with the characters of the `UNICODE_STRING`. -/
structure Load where
  pathToFile : Nat
  flags : Nat
  dllName : List UInt8
  moduleHandle : Nat
  deriving DecidableEq

/-- The characters of a `UNICODE_STRING`. -/
def unicodeString (m : Mem UInt8) (p : Nat) : Option (List UInt8) := do
  let length ← word m p
  let buffer ← dword m (p + 4)
  (List.range length).mapM fun i => m (buffer + i)

/-- The arguments of a call that is about to be made. -/
def loadOf (m : Mem UInt8) (esp : Nat) : Option Load := do
  let pathToFile ← dword m esp
  let flags ← dword m (esp + 4)
  let name ← dword m (esp + 8)
  let dllName ← unicodeString m name
  let moduleHandle ← dword m (esp + 12)
  return ⟨pathToFile, flags, dllName, moduleHandle⟩

/-- Where the thread is: in front of an instruction of the code, in `LdrLoadDll`, called with the arguments by the
thread as it was then, or in its program. -/
inductive Place
  | stub (i : Nat)
  | loading (back : Nat) (caller : Thread) (load : Load)
  | program

/-- The thread, the calls of `LdrLoadDll` it has made, and with what it has gone back to its program. -/
structure Target where
  place : Place
  eip : Nat
  thread : Thread
  loads : List Load
  resumed : Option (Nat × Thread)

/-- What `LdrLoadDll` does to the memory: it keeps to itself, but for the handle that it stores. It changes neither the
page nor the stack of its callers. -/
structure Kept (s : Setup) (caller : Thread) (load : Load) (m m' : Mem UInt8) : Prop where
  page : ∀ a, Mem.Within s.buffer 4096 a → m' a = m a
  stack : ∀ a, caller.esp + 16 ≤ a → a < s.stackBase → ¬ Mem.Within load.moduleHandle 4 a → m' a = m a
  handle : (dword m load.moduleHandle).isSome → (dword m' load.moduleHandle).isSome

theorem Kept.refl (s : Setup) (caller : Thread) (load : Load) (m : Mem UInt8) : Kept s caller load m m :=
  ⟨fun _ _ => rfl, fun _ _ _ _ => rfl, id⟩

theorem Kept.trans {s : Setup} {caller : Thread} {load : Load} {m m' m'' : Mem UInt8} (h : Kept s caller load m m')
    (h' : Kept s caller load m' m'') : Kept s caller load m m'' :=
  ⟨fun a ha => (h'.page a ha).trans (h.page a ha),
    fun a ha ha' hne => (h'.stack a ha ha' hne).trans (h.stack a ha ha' hne), fun hm => h'.handle (h.handle hm)⟩

/-- What `LdrLoadDll` returns with: it takes its arguments off the stack and keeps four registers. -/
structure Returned (caller t : Thread) : Prop where
  esp : t.esp = caller.esp + 16
  ebx : t.ebx = caller.ebx
  ebp : t.ebp = caller.ebp
  esi : t.esi = caller.esi
  edi : t.edi = caller.edi

/-- The address is not in the page. -/
abbrev Away (s : Setup) (eip : Nat) : Prop := ¬ Mem.Within s.buffer 4096 eip

/-- A step of the thread. In `LdrLoadDll` and in its program it does what it likes, away from the page. -/
inductive Target.Step (alu : Alu) (s : Setup) : Target → Target → Prop
  | instr {i t u loads resumed} (h : stubStep alu s (i, t) = some (i + 1, u)) :
    Step alu s ⟨.stub i, s.addr i, t, loads, resumed⟩ ⟨.stub (i + 1), s.addr (i + 1), u, loads, resumed⟩
  | call {i t loads resumed eip load} (hins : injectRemoteLoadDll[i]? = some .callEax) (heax : t.eax = s.ldrLoadDll)
    (hload : loadOf t.mem t.esp = some load) (haway : Away s eip) :
    Step alu s ⟨.stub i, s.addr i, t, loads, resumed⟩
      ⟨.loading (i + 1) t load, eip, t.push (s.addr (i + 1)), loads ++ [load], resumed⟩
  | inside {back caller load eip t loads resumed eip' t'} (hkept : Kept s caller load t.mem t'.mem)
    (haway : Away s eip') :
    Step alu s ⟨.loading back caller load, eip, t, loads, resumed⟩ ⟨.loading back caller load, eip', t', loads, resumed⟩
  | leave {back caller load eip t loads resumed t'} (hkept : Kept s caller load t.mem t'.mem)
    (hret : Returned caller t') :
    Step alu s ⟨.loading back caller load, eip, t, loads, resumed⟩ ⟨.stub back, s.addr back, t', loads, resumed⟩
  | ret {i t loads resumed eip} (hins : injectRemoteLoadDll[i]? = some .ret) (htop : t.top = some eip) :
    Step alu s ⟨.stub i, s.addr i, t, loads, resumed⟩
      ⟨.program, eip, { t with esp := t.esp + 4 }, loads, some (eip, { t with esp := t.esp + 4 })⟩
  | program {eip t loads resumed eip' t'} (haway : Away s eip') :
    Step alu s ⟨.program, eip, t, loads, resumed⟩ ⟨.program, eip', t', loads, resumed⟩

/-! ## The function -/

/-- What `InjectDllToRemoteProcess` returns, once the thread runs. -/
inductive Status
  | success
  | unsuccessful
  | failed
  deriving DecidableEq, Repr

/-- The function after `NtResumeThread`: in the loop, with so many tries left, behind it, or at its end, where the page
is freed. `seen` is whether it has read the zero. -/
inductive Injector
  | poll (tryTimes : Nat)
  | settle (seen : Bool)
  | done (status : Status) (seen : Bool)
  deriving DecidableEq, Repr

/-- The test on `Eip` in the end. -/
def outside (s : Setup) (eip : Nat) : Bool := eip < s.buffer ∨ eip > s.buffer + 4096

/-- A step of the thread, or of the function beside it. A call of the system may fail. -/
inductive Step (alu : Alu) (s : Setup) : Injector × Target → Injector × Target → Prop
  | target {inj tg tg'} (h : Target.Step alu s tg tg') : Step alu s (inj, tg) (inj, tg')
  | wait {n v tg} (hread : dword tg.thread.mem s.buffer = some v) (hv : v ≠ 0) :
    Step alu s (.poll (n + 1), tg) (.poll n, tg)
  | see {n tg} (hread : dword tg.thread.mem s.buffer = some 0) : Step alu s (.poll (n + 1), tg) (.settle true, tg)
  | tire {tg} : Step alu s (.poll 0, tg) (.settle false, tg)
  | check {seen tg} :
    Step alu s (.settle seen, tg) (.done (if outside s tg.eip then .success else .unsuccessful) seen, tg)
  | failPoll {n tg} : Step alu s (.poll n, tg) (.done .failed false, tg)
  | failSettle {seen tg} : Step alu s (.settle seen, tg) (.done .failed seen, tg)

/-- What the function writes into the process: the context, the path and the code. -/
def Setup.put (s : Setup) (shellCode : List UInt8) (t : Thread) : Thread :=
  { t with mem := ((t.mem.write s.buffer s.context).write (s.buffer + 16) s.path).write s.entry shellCode }

/-- The thread is resumed with its `eip` at the code. -/
def start (s : Setup) (shellCode : List UInt8) (t : Thread) : Injector × Target :=
  (.poll 30, ⟨.stub 0, s.addr 0, s.put shellCode t, [], none⟩)

/-- The call that the code makes. -/
def theLoad (s : Setup) (t : Thread) : Load := ⟨0, 0, s.path, t.esp - 44⟩

/-! ## What the thread finds -/

section Thread

variable {alu : Alu} {s : Setup} {t t₀ : Thread} {low : Nat}

theorem ready_put {shellCode : List UInt8} (h : Free s t) : Ready s (s.put shellCode t) := by
  have hentry : s.buffer + 16 + s.path.length ≤ s.entry := by
    unfold Setup.entry
    omega
  have hlen : s.context.length = 16 := rfl
  refine ⟨⟨h.page, h.high, h.fits, h.length, h.eip, h.away, h.ldrLoadDll, h.regs, h.up, h.stack, h.apart⟩, ?_, ?_⟩
  · exact ((Mem.holds_write _ _ _).write (.inr (by omega))).write (.inr (by omega))
  · exact (Mem.holds_write _ _ _).write (.inr (by omega))

theorem unicodeString_of_holds {m : Mem UInt8} {p buffer maximum : Nat} {name : List UInt8}
    (h : m.Holds p (le16 name.length ++ (le16 maximum ++ le32 buffer))) (hname : m.Holds buffer name)
    (hlen : name.length < 2 ^ 16) (hbuffer : buffer < 2 ^ 32) : unicodeString m p = some name := by
  simp only [Mem.holds_append, le16_length, Nat.add_assoc, Nat.reduceAdd] at h
  simp only [unicodeString, word_of_holds h.1 hlen, dword_of_holds h.2.2 hbuffer, Option.bind_eq_bind, Option.bind_some]
  exact hname.mapM_range

theorem Intact.apart {m : Mem UInt8} (h : Ready s t₀) (hlow : t₀.esp = low + 64) (hm : Intact low t₀.mem m) {a : Nat}
    (ha : Mem.Within s.buffer 4096 a) : m a = t₀.mem a := by
  have hstack := h.stack
  refine hm a ?_
  rcases h.apart with h | h <;> omega

/-- The arguments are those that the code means. -/
theorem loadOf_calls (h : Ready s t₀) (hlow : t₀.esp = low + 64) (ht : Calls s t₀ low t) :
    loadOf t.mem t.esp = some ⟨0, 0, s.path, low + 20⟩ := by
  have hfits := h.fits
  have hhigh := h.high
  have hregs := h.regs
  have hentry : s.buffer + 16 + s.path.length ≤ s.entry := by
    unfold Setup.entry
    omega
  rw [Setup.addr, offset_eq.2] at hfits
  simp only [List.forall_mem_cons] at hregs
  have hargs := ht.args
  simp only [Mem.holds_append, le32_length, Nat.add_assoc, Nat.reduceAdd] at hargs
  obtain ⟨h0, h4, h8, h12, -⟩ := hargs
  have hpage : ∀ {l : List UInt8} {p : Nat}, t₀.mem.Holds p l → s.buffer ≤ p → p + l.length ≤ s.buffer + 4096 →
      t.mem.Holds p l := by
    intro l p hl hp hpl i hi
    rw [ht.intact.apart h hlow ⟨by omega, by omega⟩]
    exact hl i hi
  have hcontext := h.context
  rw [Setup.context, List.append_assoc, List.append_assoc, List.append_assoc, Mem.holds_append,
    Mem.holds_append] at hcontext
  have hname : unicodeString t.mem (s.buffer + 8) = some s.path := by
    refine unicodeString_of_holds (hpage hcontext.2.2 (by omega) ?_) (hpage h.path (by omega) (by omega)) h.length
      (by omega)
    simp only [List.length_append, le16_length, le32_length]
    omega
  rw [loadOf, ht.esp]
  simp only [Nat.add_assoc, Nat.reduceAdd, dword_of_holds h0 (by decide), dword_of_holds h4 (by decide),
    dword_of_holds h8 (show s.buffer + 8 < 2 ^ 32 by omega), hname,
    dword_of_holds h12 (show low + 20 < 2 ^ 32 by omega), Option.bind_eq_bind, Option.bind_some, Option.pure_def]

end Thread

/-! ## The invariant -/

section Run

variable (alu : Alu) (s : Setup) (t₀ : Thread) (low : Nat)

/-- The thread on its way: up to the call and from the call on the code runs on to a known state, whatever the function
does meanwhile. -/
inductive Inv : Target → Prop
  | before {n i t u} (hn : n + i = 15) (hleads : Leads (stubStep alu s) (Untouched low t₀) n (i, t) (15, u))
    (hcalls : Calls s t₀ low u) : Inv ⟨.stub i, s.addr i, t, [], none⟩
  | loading {caller eip t} (hcalls : Calls s t₀ low caller) (haway : Away s eip)
    (hkept : Kept s caller (theLoad s t₀) caller.mem t.mem) :
    Inv ⟨.loading 16 caller (theLoad s t₀), eip, t, [theLoad s t₀], none⟩
  | after {n i t m} (hn : n + i = 22)
    (hleads : Leads (stubStep alu s) (Waits s) n (i, t) (22, { t₀ with esp := low + 60, mem := m }))
    (htop : dword m (low + 60) = some s.eip) (hstack : ∀ a, t₀.esp ≤ a → a < s.stackBase → m a = t₀.mem a) :
    Inv ⟨.stub i, s.addr i, t, [theLoad s t₀], none⟩
  | program {eip t m} (haway : Away s eip) (hstack : ∀ a, t₀.esp ≤ a → a < s.stackBase → m a = t₀.mem a) :
    Inv ⟨.program, eip, t, [theLoad s t₀], some (s.eip, { t₀ with mem := m })⟩

variable {alu s t₀ low}

/-- At a jump the code does not run on. -/
theorem stubStep_jump {i : Nat} {ins : Instr} (t : Thread) (hins : injectRemoteLoadDll[i]? = some ins)
    (hjump : ins = .callEax ∨ ins = .ret) : stubStep alu s (i, t) = none := by
  rw [stubStep, hins]
  rcases hjump with rfl | rfl <;> rfl

theorem theLoad_eq (hlow : t₀.esp = low + 64) : theLoad s t₀ = ⟨0, 0, s.path, low + 20⟩ := by
  rw [theLoad, hlow, show low + 64 - 44 = low + 20 by omega]

section Back

variable {caller t : Thread} (h : Ready s t₀) (hlow : t₀.esp = low + 64) (hcalls : Calls s t₀ low caller)
  (hkept : Kept s caller (theLoad s t₀) caller.mem t.mem)

include hlow hcalls hkept in
/-- The stack above the handle is as it was before the call. -/
theorem same_stack {a : Nat} (ha : low + 24 ≤ a) (ha' : a < s.stackBase) : t.mem a = caller.mem a := by
  refine hkept.stack a (by rw [hcalls.esp]; omega) ha' ?_
  rw [theLoad_eq hlow]
  show ¬ Mem.Within (low + 20) 4 a
  omega

include h hlow hcalls hkept in
/-- What the code finds behind the call, as `LdrLoadDll` has kept it. -/
theorem returns_of_kept (hret : Returned caller t) : Returns s t₀ low t := by
  have hstack := h.stack
  refine ⟨by rw [hret.esp, hcalls.esp], by rw [hret.esi, hcalls.esi], ?_, ?_, ?_⟩
  · intro i hi
    rw [same_stack hlow hcalls hkept (by omega) (by simp at hi; omega)]
    exact hcalls.saved i hi
  · have hhandle := hkept.handle
    rw [theLoad_eq hlow] at hhandle
    have hargs := hcalls.args
    simp only [Mem.holds_append, le32_length, Nat.add_assoc, Nat.reduceAdd] at hargs
    exact hhandle (by rw [dword_of_holds hargs.2.2.2.2 (by decide)]; rfl)
  · rw [← (h.dwords hlow hcalls.intact).1]
    exact dword_congr fun k hk => hkept.page _ ⟨by omega, by omega⟩

include h hlow hcalls hkept in
/-- Behind the call the code runs on to the end. -/
theorem after_return (hret : Returned caller t) :
    Inv alu s t₀ low ⟨.stub 16, s.addr 16, t, [theLoad s t₀], none⟩ := by
  have hstack := h.stack
  obtain ⟨hleads, htop⟩ := @leads_return alu s t t₀ low h hlow (returns_of_kept h hlow hcalls hkept hret)
  refine .after (m := t.mem.write s.buffer (le32 0)) rfl hleads htop fun a ha ha' => ?_
  rw [Mem.write_outside (by rw [le32_length]; rcases h.apart with h | h <;> omega),
    same_stack hlow hcalls hkept (by omega) ha', hcalls.intact a (by omega)]

end Back

/-- The call stores its return address below the arguments. -/
theorem kept_push {t : Thread} (h : Ready s t₀) (hlow : t₀.esp = low + 64) (ht : Calls s t₀ low t) (v : Nat) :
    Kept s t (theLoad s t₀) t.mem (t.push v).mem := by
  have hstack := h.stack
  have hesp := ht.esp
  have hwrite : ∀ a, ¬ Mem.Within low 4 a → (t.push v).mem a = t.mem a := by
    intro a ha
    exact Mem.write_outside (by rw [le32_length]; omega)
  refine ⟨fun a ha => hwrite a ?_, fun a ha _ _ => hwrite a (by omega), fun hm => ?_⟩
  · rcases h.apart with h | h <;> omega
  · rw [theLoad_eq hlow] at hm ⊢
    rwa [dword_congr fun k hk => hwrite _ (by show ¬ Mem.Within low 4 (low + 20 + k); omega)]

/-- A step of the thread keeps the invariant. -/
theorem Inv.step {tg tg' : Target} (h : Ready s t₀) (hlow : t₀.esp = low + 64) (hinv : Inv alu s t₀ low tg)
    (hstep : Target.Step alu s tg tg') : Inv alu s t₀ low tg' := by
  cases hinv with
  | before hn hleads hcalls =>
    cases hstep with
    | instr hrun =>
      obtain ⟨k, rfl, hnext⟩ := hleads.next_of (stubStep_jump _ rfl (.inl rfl)) hrun
      exact .before (n := k) (by omega) hnext hcalls
    | call hins heax hload haway =>
      obtain ⟨rfl, heq⟩ := hleads.stop (stubStep_jump _ hins (.inl rfl))
      cases heq
      rw [loadOf_calls h hlow hcalls, ← theLoad_eq hlow, Option.some.injEq] at hload
      rw [← hload]
      exact .loading hcalls haway (kept_push h hlow hcalls _)
    | ret hins htop =>
      obtain ⟨rfl, heq⟩ := hleads.stop (stubStep_jump _ hins (.inr rfl))
      cases heq
      cases hins
  | loading hcalls haway hkept =>
    cases hstep with
    | inside hkept' haway' => exact .loading hcalls haway' (hkept.trans hkept')
    | leave hkept' hret => exact after_return h hlow hcalls (hkept.trans hkept') hret
  | @after n i t m hn hleads htop hstack =>
    cases hstep with
    | instr hrun =>
      obtain ⟨k, rfl, hnext⟩ := hleads.next_of (stubStep_jump _ rfl (.inr rfl)) hrun
      exact .after (n := k) (by omega) hnext htop hstack
    | call hins heax hload haway =>
      obtain ⟨rfl, heq⟩ := hleads.stop (stubStep_jump _ hins (.inl rfl))
      cases heq
      cases hins
    | ret hins htop' =>
      obtain ⟨rfl, heq⟩ := hleads.stop (stubStep_jump _ hins (.inr rfl))
      cases heq
      obtain rfl : s.eip = _ := Option.some.inj (htop.symm.trans htop')
      have hback : ({ t₀ with esp := low + 60 + 4, mem := m } : Thread) = { t₀ with mem := m } := by
        rw [show low + 60 + 4 = t₀.esp by omega]
      rw [hback]
      exact .program h.away hstack
  | program haway hstack =>
    cases hstep with
    | program haway' => exact .program haway' hstack

theorem inv_start {shellCode : List UInt8} {t : Thread} (h : Ready s (s.put shellCode t)) (hlow : t.esp = low + 64) :
    Inv alu s (s.put shellCode t) low (start s shellCode t).2 := by
  obtain ⟨u, hleads, hcalls⟩ := @leads_call alu s _ low h hlow
  exact .before rfl hleads hcalls

/-! ## What the function sees -/

/-- The code has written the zero. -/
def Place.Reported : Place → Prop
  | .stub i => 20 ≤ i
  | .loading _ _ _ => False
  | .program => True

theorem offset_lt : ∀ i < 23, offset i < 43 := by decide

theorem callEax_at {i : Nat} (h : injectRemoteLoadDll[i]? = some .callEax) : i = 15 := by
  have hlt : i < injectRemoteLoadDll.length := (List.getElem?_eq_some_iff.1 h).1
  have hall : ∀ i < 23, injectRemoteLoadDll[i]? = some .callEax → i = 15 := by decide
  exact hall i hlt h

/-- A zero in front of the context is the code's report. -/
theorem Inv.reported {tg : Target} (h : Ready s t₀) (hlow : t₀.esp = low + 64) (hinv : Inv alu s t₀ low tg)
    (hzero : dword tg.thread.mem s.buffer = some 0) : tg.place.Reported := by
  have hwait : dword tg.thread.mem s.buffer ≠ some s.eip := by
    rw [hzero, Ne, Option.some.injEq]
    exact Nat.ne_of_lt h.eip.1
  cases hinv with
  | @before n i t u hn hleads hcalls =>
    refine absurd (h.dwords hlow ?_).1 hwait
    cases n with
    | zero =>
      cases hleads
      exact hcalls.intact
    | succ n => exact hleads.1
  | loading hcalls haway hkept =>
    refine absurd ?_ hwait
    rw [← (h.dwords hlow hcalls.intact).1]
    exact dword_congr fun k hk => hkept.page _ ⟨by omega, by omega⟩
  | @after n i t m hn hleads htop hstack =>
    show 20 ≤ i
    cases n with
    | zero => omega
    | succ n =>
      by_contra hlt
      exact hwait (hleads.1 (show i ≤ 19 by omega))
  | program haway hstack => trivial

theorem reported_step {tg tg' : Target} (hstep : Target.Step alu s tg tg') (hreported : tg.place.Reported) :
    tg'.place.Reported := by
  cases hstep with
  | instr hrun => exact Nat.le_succ_of_le hreported
  | call hins heax hload haway =>
    have h20 : 20 ≤ _ := hreported
    rw [callEax_at hins] at h20
    exact absurd h20 (by decide)
  | inside hkept haway => exact hreported
  | leave hkept hret => exact hreported.elim
  | ret hins htop => trivial
  | program haway => trivial

/-- A thread outside of the page that has reported is back in its program. -/
theorem Inv.program_of_outside {tg : Target} (h : Ready s t₀) (hinv : Inv alu s t₀ low tg)
    (hreported : tg.place.Reported) (hout : outside s tg.eip = true) : tg.place = .program := by
  have hfits := h.fits
  have hentry := entry_ge s
  have hinside : ∀ i < 23, outside s (s.addr i) = false := by
    intro i hi
    have hlt := offset_lt i hi
    rw [Setup.addr, offset_eq.2] at hfits
    rw [outside, Setup.addr, decide_eq_false_iff_not]
    omega
  cases hinv with
  | before hn hleads hcalls =>
    rw [hinside _ (by omega)] at hout
    cases hout
  | loading hcalls haway hkept => exact hreported.elim
  | after hn hleads htop hstack =>
    rw [hinside _ (by omega)] at hout
    cases hout
  | program haway hstack => rfl

/-- Whether the function has read the zero. -/
def Injector.seen : Injector → Bool
  | .poll _ => false
  | .settle seen => seen
  | .done _ seen => seen

/-- The invariant of the function and the thread. -/
structure Both (alu : Alu) (s : Setup) (t₀ : Thread) (low : Nat) (c : Injector × Target) : Prop where
  thread : Inv alu s t₀ low c.2
  seen : c.1.seen = true → c.2.place.Reported
  done : c.1 = .done .success true → c.2.place = .program

theorem Both.step {c c' : Injector × Target} (h : Ready s t₀) (hlow : t₀.esp = low + 64) (hboth : Both alu s t₀ low c)
    (hstep : Step alu s c c') : Both alu s t₀ low c' := by
  obtain ⟨hinv, hseen, hdone⟩ := hboth
  cases hstep with
  | target htarget =>
    refine ⟨hinv.step h hlow htarget, fun hs => reported_step htarget (hseen hs), fun hd => ?_⟩
    have hprogram := hdone hd
    cases htarget <;> first | rfl | cases hprogram
  | wait hread hv => exact ⟨hinv, nofun, nofun⟩
  | see hread => exact ⟨hinv, fun _ => hinv.reported h hlow hread, nofun⟩
  | tire => exact ⟨hinv, nofun, nofun⟩
  | check =>
    refine ⟨hinv, hseen, fun hd => ?_⟩
    rw [Injector.done.injEq] at hd
    obtain ⟨hstatus, hs⟩ := hd
    refine hinv.program_of_outside h (hseen hs) ?_
    by_contra hout
    rw [if_neg hout] at hstatus
    cases hstatus
  | failPoll => exact ⟨hinv, nofun, nofun⟩
  | failSettle => exact ⟨hinv, hseen, nofun⟩

theorem both_start {shellCode : List UInt8} {t : Thread} (h : Ready s (s.put shellCode t)) (hlow : t.esp = low + 64) :
    Both alu s (s.put shellCode t) low (start s shellCode t) := ⟨inv_start h hlow, nofun, nofun⟩

end Run

/-! ## Runs -/

section Runs

variable {alu : Alu} {s : Setup} {t : Thread} {shellCode : List UInt8} {inj : Injector} {tg : Target}

/-- The runs of the function and the thread, from where the thread is resumed. -/
abbrev Reaches (alu : Alu) (s : Setup) (shellCode : List UInt8) (t : Thread) (c : Injector × Target) : Prop :=
  Relation.ReflTransGen (Step alu s) (start s shellCode t) c

theorem Reaches.both {c : Injector × Target} (h : Free s t) (hrun : Reaches alu s shellCode t c) :
    Both alu s (s.put shellCode t) (t.esp - 64) c := by
  have hready := @ready_put s t shellCode h
  have hlow : t.esp = t.esp - 64 + 64 := by
    have := h.stack
    omega
  induction hrun with
  | refl => exact both_start hready hlow
  | tail _ hstep ih => exact ih.step hready hlow hstep

/-! ## Runs to the end -/

/-- The code runs on while the function waits. -/
theorem steps_of_leads {P : Nat × Thread → Prop} {loads : List Load} {resumed : Option (Nat × Thread)} {j : Nat}
    {u : Thread} : ∀ {n i : Nat} {t : Thread}, n + i = j → Leads (stubStep alu s) P n (i, t) (j, u) →
      Relation.ReflTransGen (Step alu s) (inj, ⟨.stub i, s.addr i, t, loads, resumed⟩)
        (inj, ⟨.stub j, s.addr j, u, loads, resumed⟩)
  | 0, i, t, _, h => by
    cases h
    exact .refl
  | n + 1, i, t, hn, ⟨_, c, hc, h⟩ => by
    obtain ⟨i', t'⟩ := c
    obtain rfl : i' = i + 1 := by
      simp only [stubStep, Option.bind_eq_some_iff, Option.map_eq_some_iff, Prod.mk.injEq] at hc
      obtain ⟨_, _, _, _, hi, _⟩ := hc
      exact hi.symm
    exact .head (.target (.instr hc)) (steps_of_leads (by omega) h)

/-- The tries run out while there is no zero. -/
theorem steps_wait {v : Nat} (hread : dword tg.thread.mem s.buffer = some v) (hv : v ≠ 0) :
    ∀ n, Relation.ReflTransGen (Step alu s) (.poll n, tg) (.poll 0, tg)
  | 0 => .refl
  | n + 1 => .head (.wait hread hv) (steps_wait hread hv n)

/-- The thread comes to `LdrLoadDll`. -/
theorem reaches_loading (alu : Alu) (shellCode : List UInt8) (h : Free s t) : ∃ caller u,
    Reaches alu s shellCode t
      (.poll 30, ⟨.loading 16 caller (theLoad s t), s.buffer + 5000, u, [theLoad s t], none⟩) := by
  have hready := @ready_put s t shellCode h
  have hlow : (s.put shellCode t).esp = t.esp - 64 + 64 := by
    have := h.stack
    show t.esp = _
    omega
  obtain ⟨caller, hleads, hcalls⟩ := @leads_call alu s _ _ hready hlow
  have hload := loadOf_calls hready hlow hcalls
  rw [← theLoad_eq hlow] at hload
  exact ⟨caller, caller.push (s.addr 16),
    (steps_of_leads rfl hleads).tail (.target (.call rfl hcalls.eax hload (by omega)))⟩

theorem outside_far (s : Setup) : outside s (s.buffer + 5000) = true := by
  rw [outside, decide_eq_true_iff]
  omega

theorem Reaches.check {seen : Bool} (hrun : Reaches alu s shellCode t (.settle seen, tg))
    (hout : outside s tg.eip = true) : Reaches alu s shellCode t (.done .success seen, tg) := by
  have hcheck := @Step.check alu s seen tg
  rw [if_pos hout] at hcheck
  exact hrun.tail hcheck

/-- A load that is done in time. -/
theorem injectDllToRemoteProcess_succeeds (alu : Alu) (shellCode : List UInt8) (h : Free s t) :
    ∃ tg, Reaches alu s shellCode t (.done .success true, tg) := by
  obtain ⟨caller, u, hrun⟩ := reaches_loading alu shellCode h
  have hready := @ready_put s t shellCode h
  have hlow : (s.put shellCode t).esp = t.esp - 64 + 64 := by
    have := h.stack
    show t.esp = _
    omega
  cases (hrun.both h).thread with
  | loading hcalls haway hkept =>
    let back : Thread := { caller with esp := caller.esp + 16, mem := u.mem }
    let reported := back.mem.write s.buffer (le32 0)
    have hret : Returned caller back := ⟨rfl, rfl, rfl, rfl, rfl⟩
    have hback : Kept s caller (theLoad s t) u.mem back.mem := Kept.refl _ _ _ _
    obtain ⟨hleads, htop⟩ := @leads_return alu s back _ _ hready hlow
      (returns_of_kept (t := back) hready hlow hcalls hkept hret)
    have hleave := hrun.tail (.target (.leave hback hret))
    have hprogram := (hleave.trans (steps_of_leads rfl hleads)).tail (.target (.ret rfl htop))
    have hzero : dword reported s.buffer = some 0 := dword_of_holds (Mem.holds_write _ _ _) (by decide)
    let resumed : Thread := { t with esp := t.esp - 64 + 60 + 4, mem := reported }
    have hgo := @Target.Step.program alu s s.eip resumed [theLoad s t] (some (s.eip, resumed)) (s.buffer + 5000) t
      (by omega)
    exact ⟨_, Reaches.check ((hprogram.tail (.see hzero)).tail (.target hgo)) (outside_far s)⟩

end Runs

/-! ## A thread that is interrupted -/

/-- A page for the path of two characters, below the stack. -/
def sampleSetup : Setup where
  buffer := 0x20000
  eip := 0x401000
  stackBase := 0x130000
  ldrLoadDll := 0x77001234
  path := [0x61, 0, 0x62, 0]

def sampleThread : Thread where
  eax := 1
  ecx := 2
  edx := 3
  ebx := 4
  esp := 0x12FF00
  ebp := 0x12FF20
  esi := 5
  edi := 6
  eflags := 0x246
  mem := fun _ => none

/-- The length of the code. -/
def sampleCode : List UInt8 := List.replicate 43 0x90

theorem sample_free : Free sampleSetup sampleThread := by
  constructor <;> decide

/-! ## The injection -/

section Injection

variable {alu : Alu} {s : Setup} {t : Thread} {shellCode : List UInt8} {inj : Injector} {tg : Target}

/-- Whatever the order of their steps: the thread calls `LdrLoadDll` once at most, with the path, and goes back to its
program where it was interrupted, with the registers and the stack it had then, and the DLL loaded. -/
theorem injectDllToRemoteProcess_resumes (h : Free s t) (hcode : s.entry + shellCode.length ≤ s.buffer + 4096)
    (hrun : Reaches alu s shellCode t (inj, tg)) :
    (tg.loads = [] ∨ tg.loads = [⟨0, 0, s.path, t.esp - 44⟩]) ∧
      ∀ r, tg.resumed = some r → tg.loads = [⟨0, 0, s.path, t.esp - 44⟩] ∧
        ∃ m, r = (s.eip, { t with mem := m }) ∧ ∀ a, t.esp ≤ a → a < s.stackBase → m a = t.mem a := by
  have hentry := entry_ge s
  have hput : ∀ a, t.esp ≤ a → a < s.stackBase → (s.put shellCode t).mem a = t.mem a := by
    intro a ha ha'
    have haway : ¬ Mem.Within s.buffer 4096 a := by
      rcases h.apart with h | h <;> omega
    have hlen : s.context.length = 16 := rfl
    have hpath : s.buffer + 16 + s.path.length ≤ s.entry := by
      unfold Setup.entry
      omega
    show Mem.write _ _ _ a = _
    rw [Mem.write_outside (by omega), Mem.write_outside (by omega), Mem.write_outside (by omega)]
  cases (hrun.both h).thread with
  | before hn hleads hcalls => exact ⟨.inl rfl, nofun⟩
  | loading hcalls haway hkept => exact ⟨.inr rfl, nofun⟩
  | after hn hleads htop hstack => exact ⟨.inr rfl, nofun⟩
  | @program eip u m haway hstack =>
    refine ⟨.inr rfl, fun r hr => ⟨rfl, m, (Option.some.inj hr).symm, fun a ha ha' => ?_⟩⟩
    exact (hstack a ha ha').trans (hput a ha ha')

theorem injectDllToRemoteProcess_resumes_sample : ∃ tg,
    Reaches ⟨fun eflags _ => eflags, fun _ _ => rfl⟩ sampleSetup sampleCode sampleThread (.done .success true, tg) ∧
      (tg.loads = [] ∨ tg.loads = [⟨0, 0, [0x61, 0, 0x62, 0], 0x12FED4⟩]) ∧
      ∀ r, tg.resumed = some r → ∃ m, r = (0x401000, { sampleThread with mem := m }) := by
  obtain ⟨tg, hrun⟩ := injectDllToRemoteProcess_succeeds ⟨fun eflags _ => eflags, fun _ _ => rfl⟩ sampleCode sample_free
  have h := injectDllToRemoteProcess_resumes sample_free (by decide) hrun
  refine ⟨tg, hrun, h.1, fun r hr => ?_⟩
  obtain ⟨-, m, hm, -⟩ := h.2 r hr
  exact ⟨m, hm⟩

/-- Where the function has read the zero and reports success, the thread is in its program: it has loaded the DLL, and
does not come back to the page that is freed. -/
theorem injectDllToRemoteProcess_frees (h : Free s t) (hrun : Reaches alu s shellCode t (.done .success true, tg)) :
    tg.place = .program ∧ Away s tg.eip ∧ tg.loads = [⟨0, 0, s.path, t.esp - 44⟩] := by
  have hboth := hrun.both h
  have hprogram : tg.place = .program := hboth.done rfl
  cases hboth.thread with
  | before hn hleads hcalls => cases hprogram
  | loading hcalls haway hkept => cases hprogram
  | after hn hleads htop hstack => cases hprogram
  | program haway hstack => exact ⟨rfl, haway, rfl⟩

theorem injectDllToRemoteProcess_frees_sample : ∃ tg,
    Reaches ⟨fun eflags _ => eflags, fun _ _ => rfl⟩ sampleSetup sampleCode sampleThread (.done .success true, tg) ∧
      tg.place = .program ∧ Away sampleSetup tg.eip ∧ tg.loads = [⟨0, 0, [0x61, 0, 0x62, 0], 0x12FED4⟩] := by
  obtain ⟨tg, hrun⟩ := injectDllToRemoteProcess_succeeds ⟨fun eflags _ => eflags, fun _ _ => rfl⟩ sampleCode sample_free
  exact ⟨tg, hrun, injectDllToRemoteProcess_frees sample_free hrun⟩

/-- A load that takes longer than all the tries: the function reports success, and frees the page that the thread comes
back to. -/
theorem injectDllToRemoteProcess_slow (alu : Alu) (shellCode : List UInt8) (h : Free s t) : ∃ caller u,
    Reaches alu s shellCode t
      (.done .success false, ⟨.loading 16 caller (theLoad s t), s.buffer + 5000, u, [theLoad s t], none⟩) := by
  obtain ⟨caller, u, hrun⟩ := reaches_loading alu shellCode h
  have hready := @ready_put s t shellCode h
  have hlow : (s.put shellCode t).esp = t.esp - 64 + 64 := by
    have := h.stack
    show t.esp = _
    omega
  have hread : dword u.mem s.buffer = some s.eip := by
    cases (hrun.both h).thread with
    | loading hcalls haway hkept =>
      rw [← (hready.dwords hlow hcalls.intact).1]
      exact dword_congr fun k hk => hkept.page _ ⟨by omega, by omega⟩
  have hsettle := (hrun.trans (steps_wait hread (Nat.ne_of_gt h.eip.1) 30)).tail .tire
  exact ⟨caller, u, Reaches.check hsettle (outside_far s)⟩

end Injection

end SiglusExtract.Inject
