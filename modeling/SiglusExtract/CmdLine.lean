/-
The command line (my.cpp: `CmdLineToArgvWorkerW`, `CmdLineToArgvW`) and what the loader takes from it (Loader.cpp):
one pass counts the arguments, and a second one, over a copy behind the pointers, ends each of them where it stands.
-/
import Mathlib.Data.List.Forall2
import Mathlib.Data.List.TakeWhile
import Mathlib.Tactic.Linarith

namespace SiglusExtract.CmdLine

def quote : UInt16 := 34
def space : UInt16 := 32
def tab : UInt16 := 9

/-! ## The two passes -/

/-- The inner loop: where it stops, and whether it stops at the separator. -/
def scanArg (separator : UInt16) : List UInt16 → Nat → Option (Nat × Bool)
  | [], _ => none
  | ch :: s, p =>
    if ch = separator then some (p, true) else if ch = 0 then some (p, false) else scanArg separator s (p + 1)

/-- The loop over what separates two arguments. -/
def skipBlanks : List UInt16 → Nat → Option Nat
  | [], _ => none
  | ch :: s, p => if ch = tab ∨ ch = space then skipBlanks s (p + 1) else some p

/-- `pszCmdLine` with the text it points into, `argc`, and what is stored behind `pArgv`. -/
structure Worker where
  text : List UInt16
  pos : Nat
  argc : Nat
  argv : List Nat

/-- `separator`, which the first character of an argument tells. -/
def separator (ch : UInt16) : UInt16 := if ch = quote then quote else space

/-- A round of the outer loop, for an argument that begins with `ch`; `pArgv` is whether there is one. -/
def workerArg (pArgv : Bool) (ch : UInt16) (w : Worker) : Option Worker :=
  let p := w.pos + 1
  (scanArg (separator ch) (w.text.drop p) p).bind fun (stop, found) =>
    let text := if found ∧ pArgv then w.text.set stop 0 else w.text
    let next := if found then stop + 1 else stop
    (skipBlanks (text.drop next) next).map fun next =>
      { text := text, pos := next, argc := w.argc + 1,
        argv := if pArgv then w.argv ++ [p - 1 + if separator ch = quote then 1 else 0] else w.argv }

/-- The outer loop. -/
def workerLoop (pArgv : Bool) : Nat → Worker → Option Worker
  | 0, _ => none
  | fuel + 1, w =>
    w.text[w.pos]?.bind fun ch =>
      if ch = 0 then some { w with pos := w.pos + 1 } else (workerArg pArgv ch w).bind (workerLoop pArgv fuel)

/-- `CmdLineToArgvWorkerW`. The length of the command line is the position behind it. -/
def cmdLineToArgvWorkerW (pArgv : Bool) (text : List UInt16) : Option Worker :=
  workerLoop pArgv (text.length + 1) ⟨text, 0, 0, []⟩

/-- The block that `CmdLineToArgvW` returns: the pointers, the last of them `NULL`, and behind them the text. A pointer
is the offset into the block. -/
structure Block where
  argc : Nat
  argv : List (Option Nat)
  text : List UInt16

/-- `CmdLineToArgvW`, with pointers of 32 bits, if there is memory. The size of the block wraps. -/
def cmdLineToArgvW (cmdLine : List UInt16) : Option Block :=
  (cmdLineToArgvWorkerW false cmdLine).bind fun count =>
    let first := 4 * (count.argc + 1)
    if first + 2 * count.pos ≤ (count.pos * 2 + (count.argc + 1) * 4) % 2 ^ 32 then
      (cmdLineToArgvWorkerW true (cmdLine.take count.pos)).bind fun w =>
        if w.argv.length ≤ count.argc then
          some {
            argc := w.argc
            argv := w.argv.map (fun p => some (first + 2 * p)) ++
              List.replicate (count.argc + 1 - w.argv.length) none
            text := w.text }
        else none
    else none

/-- The string to which a pointer of the block points. -/
def Block.string (b : Block) (p : Nat) : Option (List UInt16) :=
  let first := 4 * b.argv.length
  if first ≤ p ∧ p % 2 = 0 then
    let s := b.text.drop ((p - first) / 2)
    if 0 ∈ s then some (s.takeWhile (· ≠ 0)) else none
  else none

/-! ## The arguments of a line -/

/-- What is left of a line behind an argument. -/
def behindArg (separator : UInt16) (s : List UInt16) : List UInt16 :=
  ((s.dropWhile (· ≠ separator)).drop 1).dropWhile fun ch => ch = tab ∨ ch = space

theorem behindArg_length (separator : UInt16) (s : List UInt16) : (behindArg separator s).length ≤ s.length := by
  unfold behindArg
  have h₁ := (List.dropWhile_suffix (fun ch => decide (ch = tab ∨ ch = space))
    (l := (s.dropWhile (· ≠ separator)).drop 1)).length_le
  have h₂ := (List.dropWhile_suffix (· ≠ separator) (l := s)).length_le
  rw [List.length_drop] at h₁
  omega

theorem behindArg_subset (separator : UInt16) (s : List UInt16) : behindArg separator s ⊆ s :=
  fun _ h => (List.dropWhile_suffix _).subset ((List.drop_suffix _ _).subset ((List.dropWhile_suffix _).subset h))

/-- The arguments: one that begins with a quote ends before the next quote, any other before the next space. -/
def args : List UInt16 → List (List UInt16)
  | [] => []
  | ch :: s =>
    let arg := s.takeWhile (· ≠ separator ch)
    (if ch = quote then arg else ch :: arg) :: args (behindArg (separator ch) s)
termination_by line => line.length
decreasing_by exact Nat.lt_succ_of_le (behindArg_length _ _)

/-! ## A round -/

theorem scanArg_eq {separator : UInt16} (hsep : separator ≠ 0) (rest : List UInt16) :
    ∀ {s : List UInt16} (_ : 0 ∉ s) (p : Nat), scanArg separator (s ++ 0 :: rest) p =
      some (p + (s.takeWhile (· ≠ separator)).length, decide (separator ∈ s))
  | [], _, p => by simp [scanArg, hsep.symm]
  | ch :: s, h, p => by
    rw [List.mem_cons, not_or] at h
    rw [List.cons_append, scanArg]
    by_cases hch : ch = separator
    · simp [hch]
    · rw [if_neg hch, if_neg (Ne.symm h.1), scanArg_eq hsep rest h.2, List.takeWhile_cons_of_pos (by simpa using hch)]
      simp [Ne.symm hch]
      omega

theorem skipBlanks_eq (rest : List UInt16) : ∀ (s : List UInt16) (p : Nat), skipBlanks (s ++ 0 :: rest) p =
      some (p + (s.takeWhile fun ch => ch = tab ∨ ch = space).length)
  | [], p => by simp [skipBlanks, tab, space]
  | ch :: s, p => by
    rw [List.cons_append, skipBlanks]
    by_cases hch : ch = tab ∨ ch = space
    · rw [if_pos hch, skipBlanks_eq rest s, List.takeWhile_cons_of_pos (by simpa using hch), List.length_cons]
      congr 1
      omega
    · rw [if_neg hch, List.takeWhile_cons_of_neg (by simpa using hch)]
      rfl

/-- A separator ends the argument, and blanks follow it. -/
theorem line_of_mem {separator : UInt16} {s : List UInt16} (h : separator ∈ s) :
    s = s.takeWhile (· ≠ separator) ++ separator ::
      (((s.dropWhile (· ≠ separator)).drop 1).takeWhile (fun ch => ch = tab ∨ ch = space) ++
        behindArg separator s) := by
  have hdrop : s.dropWhile (· ≠ separator) = separator :: (s.dropWhile (· ≠ separator)).drop 1 := by
    have hne : s.dropWhile (· ≠ separator) ≠ [] := by
      rw [Ne, List.dropWhile_eq_nil_iff]
      exact fun hall => by simpa using hall separator h
    have hhead := List.head_dropWhile_not (fun ch => decide (ch ≠ separator)) hne
    rw [decide_eq_false_iff_not, not_not] at hhead
    conv_lhs => rw [← List.cons_head_tail hne, hhead]
    rw [List.drop_one]
  rw [behindArg, List.takeWhile_append_dropWhile, ← hdrop, List.takeWhile_append_dropWhile]

theorem line_of_not_mem {separator : UInt16} {s : List UInt16} (h : separator ∉ s) :
    s.takeWhile (· ≠ separator) = s ∧ behindArg separator s = [] := by
  have hall : ∀ ch ∈ s, decide (ch ≠ separator) = true := fun ch hch => by
    simpa using ne_of_mem_of_not_mem hch h
  refine ⟨List.takeWhile_eq_self_iff.2 hall, ?_⟩
  rw [behindArg, List.dropWhile_eq_nil_iff.2 hall]
  rfl

/-- The string lies at position `p` of the text, with the NUL that ends it. -/
def Lies (text : List UInt16) (p : Nat) (arg : List UInt16) : Prop := arg ++ [0] <+: text.drop p

theorem separator_ne_zero (ch : UInt16) : separator ch ≠ 0 := by
  unfold separator
  split <;> decide

/-- The store over the separator, if there is one. -/
theorem stored_text (pArgv : Bool) (pre a after : List UInt16) (ch separator : UInt16) :
    (if pArgv = true then (pre ++ ch :: (a ++ separator :: after)).set (pre.length + 1 + a.length) 0
      else pre ++ ch :: (a ++ separator :: after)) =
      pre ++ ch :: a ++ [if pArgv then 0 else separator] ++ after := by
  have hcut : pre ++ ch :: (a ++ separator :: after) = (pre ++ ch :: a) ++ separator :: after := by simp
  have hlen : pre.length + 1 + a.length = (pre ++ ch :: a).length := by
    simp
    omega
  rw [hcut, hlen, List.set_append_right _ _ (le_refl _), Nat.sub_self, List.set_cons_zero]
  cases pArgv <;> simp

/-- A round takes one argument with the blanks behind it. If it stores, the argument is ended where it stands, whatever
becomes of the rest of the line; if it does not, the text stays. -/
theorem workerArg_eq (pArgv : Bool) (pre rest : List UInt16) {ch : UInt16} {s : List UInt16} (hs : 0 ∉ s)
    (argc : Nat) (argv : List Nat) :
    ∃ tail, workerArg pArgv ch ⟨pre ++ (ch :: s ++ 0 :: rest), pre.length, argc, argv⟩ =
        some ⟨pre ++ (ch :: s.takeWhile (· ≠ separator ch) ++ tail) ++ (behindArg (separator ch) s ++ 0 :: rest),
          (pre ++ (ch :: s.takeWhile (· ≠ separator ch) ++ tail)).length, argc + 1,
          if pArgv then argv ++ [pre.length + if separator ch = quote then 1 else 0] else argv⟩ ∧
      (s.takeWhile (· ≠ separator ch)).length + tail.length + (behindArg (separator ch) s).length = s.length ∧
      if pArgv then
        ∀ mid : List UInt16, mid.length = (behindArg (separator ch) s).length →
          s.takeWhile (· ≠ separator ch) ++ [0] <+: s.takeWhile (· ≠ separator ch) ++ (tail ++ (mid ++ 0 :: rest))
      else s.takeWhile (· ≠ separator ch) ++ (tail ++ behindArg (separator ch) s) = s := by
  have hread : (pre ++ (ch :: s ++ 0 :: rest)).drop (pre.length + 1) = s ++ 0 :: rest := by
    rw [← List.drop_drop, List.drop_left, List.cons_append, List.drop_one, List.tail_cons]
  have hscan := scanArg_eq (separator_ne_zero ch) rest hs (pre.length + 1)
  by_cases hmem : separator ch ∈ s
  · have hline := line_of_mem hmem
    set a := s.takeWhile (· ≠ separator ch) with ha
    set r := behindArg (separator ch) s with hr
    set after := (s.dropWhile (· ≠ separator ch)).drop 1 with hafter
    set g := after.takeWhile (fun c => c = tab ∨ c = space) with hg
    set x := if pArgv then 0 else separator ch with hx
    have hgr : g ++ r = after := List.takeWhile_append_dropWhile
    have htext : pre ++ (ch :: s ++ 0 :: rest) = pre ++ ch :: (a ++ separator ch :: (after ++ 0 :: rest)) := by
      conv_lhs => rw [hline, hgr]
      simp
    have hnext : pre.length + 1 + a.length + 1 = (pre ++ ch :: a ++ [x]).length := by simp; omega
    refine ⟨x :: g, ?_, ?_, ?_⟩
    · simp only [workerArg, hread, hscan, hmem, decide_true, Option.bind_some, if_true, true_and]
      rw [htext, stored_text, ← hx, hnext, List.drop_left, skipBlanks_eq, ← hg, Option.map_some,
        Option.some.injEq, ← hgr]
      simp [Nat.add_assoc]
      omega
    · conv_rhs => rw [hline]
      simp
      omega
    · split
      · rename_i hp
        intro mid _
        exact ⟨g ++ (mid ++ 0 :: rest), by simp [x, hp]⟩
      · rename_i hp
        conv_rhs => rw [hline]
        simp [x, hp]
  · obtain ⟨hall, hnil⟩ := line_of_not_mem hmem
    rw [hall] at hscan
    refine ⟨[], ?_, ?_, ?_⟩
    · have hdrop : (pre ++ (ch :: s ++ 0 :: rest)).drop (pre.length + 1 + s.length) = 0 :: rest := by
        rw [← List.drop_drop, hread, List.drop_left]
      have hskip := skipBlanks_eq rest [] (pre.length + 1 + s.length)
      simp only [workerArg, hread, hscan, hmem, decide_false, Option.bind_some, if_false, false_and, hdrop,
        Bool.false_eq_true]
      rw [List.nil_append] at hskip
      rw [hskip, hall, hnil]
      simp
      omega
    · rw [hall, hnil]
      rfl
    · rw [hall, hnil]
      split
      · intro mid hmid
        rw [List.eq_nil_of_length_eq_zero hmid]
        exact ⟨rest, by simp⟩
      · simp

theorem args_cons (ch : UInt16) (s : List UInt16) : args (ch :: s) =
    (if ch = quote then s.takeWhile (· ≠ separator ch) else ch :: s.takeWhile (· ≠ separator ch)) ::
      args (behindArg (separator ch) s) := by
  rw [args]

/-- An argument takes two characters of the line, but for the last. -/
theorem args_length (line : List UInt16) : 2 * (args line).length ≤ line.length + 1 := by
  induction line using args.induct with
  | case1 => simp [args]
  | case2 ch s ih =>
    rw [args_cons, List.length_cons, List.length_cons]
    by_cases hmem : separator ch ∈ s
    · have hlen := congrArg List.length (line_of_mem hmem)
      rw [List.length_append, List.length_cons, List.length_append] at hlen
      omega
    · rw [(line_of_not_mem hmem).2, args, List.length_nil]
      omega

theorem args_no_nul (line : List UInt16) (h : 0 ∉ line) : ∀ a ∈ args line, 0 ∉ a := by
  induction line using args.induct with
  | case1 => simp [args]
  | case2 ch s ih =>
    rw [List.mem_cons, not_or] at h
    have harg : 0 ∉ s.takeWhile (· ≠ separator ch) := fun hin => h.2 ((List.takeWhile_prefix _).subset hin)
    rw [args_cons, List.forall_mem_cons]
    refine ⟨?_, ih fun hin => h.2 (behindArg_subset _ _ hin)⟩
    split
    · exact harg
    · rw [List.mem_cons, not_or]
      exact ⟨h.1, harg⟩

/-! ## A pass -/

/-- A pass over a line of which `args` are the arguments: the positions that are stored, and the text behind it. -/
theorem workerLoop_eq (pArgv : Bool) (rest : List UInt16) : ∀ (fuel : Nat) (line pre : List UInt16) (argc : Nat)
    (argv : List Nat), 0 ∉ line → line.length < fuel →
    ∃ mid stored, workerLoop pArgv fuel ⟨pre ++ (line ++ 0 :: rest), pre.length, argc, argv⟩ =
        some ⟨pre ++ (mid ++ 0 :: rest), pre.length + line.length + 1, argc + (args line).length, argv ++ stored⟩ ∧
      mid.length = line.length ∧
      if pArgv then List.Forall₂ (Lies (pre ++ (mid ++ 0 :: rest))) stored (args line)
      else mid = line ∧ stored = []
  | 0, _, _, _, _, _, hfuel => absurd hfuel (Nat.not_lt_zero _)
  | fuel + 1, [], pre, argc, argv, _, _ => by
    refine ⟨[], [], ?_, rfl, by cases pArgv <;> simp [args]⟩
    simp [workerLoop, args]
  | fuel + 1, ch :: s, pre, argc, argv, hline, hfuel => by
    rw [List.mem_cons, not_or] at hline
    obtain ⟨tail, harg, hlen, hlies⟩ := @workerArg_eq pArgv pre rest ch s hline.2 argc argv
    set a := s.takeWhile (· ≠ separator ch) with ha
    have hbehind : 0 ∉ behindArg (separator ch) s := fun h => hline.2 (behindArg_subset _ _ h)
    have hfuel' : (behindArg (separator ch) s).length < fuel := by
      have := behindArg_length (separator ch) s
      rw [List.length_cons] at hfuel
      omega
    have hread : (pre ++ (ch :: s ++ 0 :: rest))[pre.length]? = some ch := by simp
    have hargs : args (ch :: s) = (if ch = quote then a else ch :: a) :: args (behindArg (separator ch) s) :=
      args_cons ch s
    have hquote : separator ch = quote ↔ ch = quote := by
      unfold separator
      split <;> simp_all [quote, space]
    obtain ⟨mid, stored, hrun, hmid, hpass⟩ := workerLoop_eq pArgv rest fuel (behindArg (separator ch) s)
      (pre ++ (ch :: a ++ tail)) (argc + 1) _ hbehind hfuel'
    rw [workerLoop, hread, Option.bind_some, if_neg (Ne.symm hline.1), harg, Option.bind_some, hrun]
    cases pArgv with
    | false =>
      obtain ⟨rfl, rfl⟩ := hpass
      have hs : a ++ (tail ++ behindArg (separator ch) s) = s := by simpa using hlies
      have htext : pre ++ (ch :: a ++ tail) ++ (behindArg (separator ch) s ++ 0 :: rest) =
          pre ++ (ch :: s ++ 0 :: rest) := by
        conv_rhs => rw [← hs]
        simp
      refine ⟨ch :: s, [], ?_, rfl, by simp⟩
      rw [htext, hargs, Option.some.injEq, Worker.mk.injEq]
      refine ⟨rfl, ?_, ?_, by simp⟩ <;> simp <;> omega
    | true =>
      have hat : a ++ [0] <+: a ++ (tail ++ (mid ++ 0 :: rest)) := hlies mid hmid
      have htext : pre ++ (ch :: a ++ tail) ++ (mid ++ 0 :: rest) =
          pre ++ (ch :: a ++ tail ++ mid ++ 0 :: rest) := by simp
      rw [htext] at hpass ⊢
      refine ⟨ch :: a ++ tail ++ mid, (pre.length + if separator ch = quote then 1 else 0) :: stored, ?_, ?_, ?_⟩
      · rw [hargs, Option.some.injEq, Worker.mk.injEq]
        refine ⟨rfl, ?_, ?_, by simp⟩ <;> simp <;> omega
      · simp
        omega
      · rw [if_pos rfl] at hpass ⊢
        rw [hargs]
        refine List.Forall₂.cons ?_ hpass
        rw [Lies, ← List.drop_drop, List.drop_left, if_congr hquote rfl rfl]
        split
        · simpa using hat
        · simpa using hat

/-! ## The block -/

/-- A string that lies in the text is what a pointer to it points to. -/
theorem string_of_lies {b : Block} {p : Nat} {arg : List UInt16} (harg : 0 ∉ arg) (h : Lies b.text p arg) :
    b.string (4 * b.argv.length + 2 * p) = some arg := by
  obtain ⟨behind, hdrop⟩ := h
  rw [Block.string, if_pos ⟨by omega, by omega⟩, show (4 * b.argv.length + 2 * p - 4 * b.argv.length) / 2 = p by omega,
    ← hdrop, if_pos (by simp), List.append_assoc, List.takeWhile_append_of_pos (by
      intro c hc
      simpa using ne_of_mem_of_not_mem hc harg)]
  simp

theorem strings_of_lie {b : Block} : ∀ {stored : List Nat} {as : List (List UInt16)},
    List.Forall₂ (Lies b.text) stored as → (∀ a ∈ as, 0 ∉ a) →
    stored.map (fun p => b.string (4 * b.argv.length + 2 * p)) = as.map some
  | _, _, .nil, _ => rfl
  | _, _, .cons h hs, hno => by
    rw [List.forall_mem_cons] at hno
    rw [List.map_cons, List.map_cons, string_of_lies hno.1 h, strings_of_lie hs hno.2]

/-- The strings are what the block gives: `argv` points to them in order, each ended by a NUL, and `NULL` ends it. -/
def Block.Gives (b : Block) (as : List (List UInt16)) : Prop :=
  b.argc = as.length ∧ ∃ pointers : List Nat, b.argv = pointers.map some ++ [none] ∧ pointers.map b.string = as.map some

/-- The block with strings at the positions stored. -/
def blockOf (stored : List Nat) (text : List UInt16) : Block :=
  ⟨stored.length, stored.map (fun p => some (4 * (stored.length + 1) + 2 * p)) ++ [none], text⟩

theorem blockOf_gives {stored : List Nat} {text : List UInt16} {as : List (List UInt16)}
    (h : List.Forall₂ (Lies text) stored as) (hno : ∀ a ∈ as, 0 ∉ a) : (blockOf stored text).Gives as := by
  have hstrings := strings_of_lie (b := blockOf stored text) h hno
  rw [show (blockOf stored text).argv.length = stored.length + 1 by simp [blockOf]] at hstrings
  refine ⟨h.length_eq, stored.map fun p => 4 * (stored.length + 1) + 2 * p, ?_, ?_⟩
  · rw [List.map_map]
    rfl
  · rw [List.map_map, ← hstrings]
    rfl

/-- Both passes count the same arguments, and the second one finds room for them. -/
theorem cmdLineToArgvW_eq {line : List UInt16} (rest : List UInt16) (hline : 0 ∉ line)
    (hlen : line.length + 2 < 2 ^ 30) :
    ∃ stored text, cmdLineToArgvW (line ++ 0 :: rest) = some (blockOf stored text) ∧
      List.Forall₂ (Lies text) stored (args line) := by
  have hfuel : line.length < (line ++ 0 :: rest).length + 1 := by
    rw [List.length_append]
    omega
  obtain ⟨mid₀, stored₀, hcount, -, hsame⟩ := workerLoop_eq false rest _ line [] 0 [] hline hfuel
  obtain ⟨hmid₀, hstored₀⟩ : mid₀ = line ∧ stored₀ = [] := hsame
  rw [hmid₀, hstored₀] at hcount
  obtain ⟨mid, stored, hrun, hmid, hpass⟩ := workerLoop_eq true [] ((line ++ [0]).length + 1) line [] 0 [] hline
    (by rw [List.length_append]; omega)
  rw [if_pos rfl] at hpass
  have hstored := hpass.length_eq
  have htake : (line ++ 0 :: rest).take (line.length + 1) = line ++ [0] := by
    rw [List.take_append, List.take_of_length_le (by omega), Nat.add_sub_cancel_left]
    rfl
  have hargs := args_length line
  simp only [List.nil_append, List.length_nil, Nat.zero_add] at hcount hrun hpass
  refine ⟨stored, mid ++ [0], ?_, hpass⟩
  simp only [cmdLineToArgvW, cmdLineToArgvWorkerW, hcount, Option.bind_some]
  rw [if_pos (by rw [Nat.mod_eq_of_lt (by omega)]; omega), htake, hrun, Option.bind_some, if_pos (by simp [hstored])]
  simp [blockOf, hstored]

/-- `CmdLineToArgvW` gives the arguments of the line. -/
theorem cmdLineToArgvW_args {line : List UInt16} (rest : List UInt16) (hline : 0 ∉ line)
    (hlen : line.length + 2 < 2 ^ 30) : ∃ b, cmdLineToArgvW (line ++ 0 :: rest) = some b ∧ b.Gives (args line) := by
  obtain ⟨stored, text, hrun, hlies⟩ := cmdLineToArgvW_eq rest hline hlen
  exact ⟨_, hrun, blockOf_gives hlies (args_no_nul line hline)⟩

theorem cmdLineToArgvW_args_sample : ∃ b, cmdLineToArgvW ([34, 97, 32, 98, 34, 9, 99, 34, 32] ++ 0 :: [7]) = some b ∧
    b.Gives [[97, 32, 98], [99, 34]] := by
  have hargs : args [34, 97, 32, 98, 34, 9, 99, 34, 32] = [[97, 32, 98], [99, 34]] := by
    simp [args, behindArg, separator, quote, space, tab]
  exact hargs ▸ cmdLineToArgvW_args [7] (by decide) (by decide)

/-! ## Quoted arguments -/

/-- The arguments, each in quotes, with a space between two. -/
def quoted (as : List (List UInt16)) : List UInt16 := [space].intercalate (as.map fun a => quote :: a ++ [quote])

theorem quoted_cons (a : List UInt16) (as : List (List UInt16)) :
    quoted (a :: as) = quote :: (a ++ quote :: if as = [] then [] else space :: quoted as) := by
  cases as with
  | nil => simp [quoted]
  | cons b as => simp [quoted, List.intercalate_cons_cons]

/-- Arguments without a quote can be written so that they are read back. -/
theorem args_quoted : ∀ {as : List (List UInt16)}, (∀ a ∈ as, quote ∉ a) → args (quoted as) = as
  | [], _ => by simp [quoted, args]
  | a :: as, h => by
    rw [List.forall_mem_cons] at h
    have htake : ∀ s, (a ++ quote :: s).takeWhile (· ≠ quote) = a := by
      intro s
      rw [List.takeWhile_append_of_pos fun c hc => by simpa using ne_of_mem_of_not_mem hc h.1]
      simp
    have hdrop : ∀ s, (a ++ quote :: s).dropWhile (· ≠ quote) = quote :: s := by
      intro s
      rw [List.dropWhile_append_of_pos fun c hc => by simpa using ne_of_mem_of_not_mem hc h.1]
      simp
    have hsep : separator quote = quote := rfl
    rw [quoted_cons, args_cons, if_pos rfl, hsep, htake, behindArg, hdrop]
    congr 1
    cases as with
    | nil => simp [args]
    | cons b as =>
      rw [if_neg (List.cons_ne_nil _ _), List.drop_one, List.tail_cons, List.dropWhile_cons_of_pos (by decide),
        quoted_cons, List.dropWhile_cons_of_neg (by decide), ← quoted_cons]
      exact args_quoted h.2

theorem quoted_no_nul {as : List (List UInt16)} (h : ∀ a ∈ as, 0 ∉ a) : 0 ∉ quoted as := by
  induction as with
  | nil => simp [quoted]
  | cons a as ih =>
    rw [List.forall_mem_cons] at h
    have ih := ih h.2
    have ha := h.1
    rw [quoted_cons]
    split <;> simp_all [quote, space]

/-- Strings without a quote go through a command line. -/
theorem cmdLineToArgvW_quoted {as : List (List UInt16)} (rest : List UInt16) (h : ∀ a ∈ as, quote ∉ a ∧ 0 ∉ a)
    (hlen : (quoted as).length + 2 < 2 ^ 30) : ∃ b, cmdLineToArgvW (quoted as ++ 0 :: rest) = some b ∧ b.Gives as := by
  obtain ⟨stored, text, hrun, hlies⟩ := cmdLineToArgvW_eq rest (quoted_no_nul fun a ha => (h a ha).2) hlen
  rw [args_quoted fun a ha => (h a ha).1] at hlies
  exact ⟨_, hrun, blockOf_gives hlies fun a ha => (h a ha).2⟩

theorem cmdLineToArgvW_quoted_sample : ∃ b, cmdLineToArgvW (quoted [[97, 32, 98], [], [99]] ++ 0 :: []) = some b ∧
    b.Gives [[97, 32, 98], [], [99]] :=
  cmdLineToArgvW_quoted [] (by decide) (by decide)

/-! ## The loader -/

/-- What the loader starts. -/
inductive Program
  | targetFile
  | file (name : List UInt16)
  deriving DecidableEq, Repr

/-- `WinMain`, up to the program it starts; without one it exits. `found` is whether `SiglusEngine.exe` is there. -/
def winMain (found : Bool) (cmdLine : List UInt16) : Option (Option Program) :=
  (cmdLineToArgvW cmdLine).bind fun b =>
    if b.argc ≠ 1 ∧ b.argc ≠ 0 then some none
    else if found then some (some .targetFile)
    else if b.argc < 1 then some none
    else b.argv[0]?.join.bind fun p => (b.string p).map fun name => some (.file name)

end SiglusExtract.CmdLine
