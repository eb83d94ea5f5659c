import SystemProgramming.Lib.Descriptors
import SystemProgramming.Lib.Scan

/-!
# One line of the shell

The body of the loop in `main` of `Shell/shell.c`, from the tokens of a line on: the loop over the
tokens, which redirects and builds the argument vector `a`, then the built-in command or the child.
What `open`, `fopen` and the files do is a parameter, by the index of the operator in the line, so a
file can change between two uses. `malloc`, `pipe` and `fork` succeed.

A write behind the end of `a` is recorded in `inBounds`, and the loop goes on as if `a` had room.

`Item` is the grammar of a line: words, and operators with their targets.

* `tokenLoop_eq_foldl`: the loop over the tokens runs the items one by one.
* `readWords_eq`: the `fscanf` loop reads the words between white space.
-/

namespace SystemProgramming.Shell

open Lib

/-- What a descriptor of the shell refers to: an end of the pipe it makes, or anything else. -/
inductive OpenFile (φ : Type)
  | other (f : φ)
  | tubeRead
  | tubeWrite
  deriving DecidableEq

/-- The outcomes of the calls for one line: `open` behind the `'>'` and `fopen` behind the `'<'` at
an index, the latter with the content of the file. -/
structure Outcomes (φ : Type) where
  openOut : Nat → Str → Option φ
  openIn : Nat → Str → Option (φ × Str)

/-- The local variables of the loop, with the descriptors of the shell. `a` has `l` places, of which
the first `j` are written. -/
structure Vars (φ : Type) where
  table : Descriptors (OpenFile φ)
  fd : Int
  l : Nat
  a : List (Option Str)
  inBounds : Bool
  valid : Bool

variable {φ : Type}

/-! ## The loop over the tokens -/

/-- `a[j++] = word`. -/
def Vars.put (v : Vars φ) (word : Option Str) : Vars φ :=
  { v with a := v.a ++ [word], inBounds := v.inBounds && decide (v.a.length < v.l) }

/-- `if (j>=l)`: twice the room. -/
def Vars.grow (v : Vars φ) : Vars φ := if v.l ≤ v.a.length then { v with l := 2 * v.l } else v

/-- The loop `while(fscanf(fr,"%s",tmp)==1)`: the strings it reads. `%s` reads what `%ms` does. -/
def readWords (text : Str) : List Str :=
  match _ : scanf [.percentMs] text with
  | ⟨[.str tmp], _, rest⟩ => tmp :: readWords rest
  | _ => []
  termination_by text.length
  decreasing_by
    rename_i h
    have hlt := length_scanf [.percentMs] text
    rw [h, List.length_singleton] at hlt
    exact hlt

/-- The branch of `">"`. A missing target is `NULL`, which `open` rejects. -/
def openOutput (sys : Outcomes φ) (i : Nat) (target : Option Str) (v : Vars φ) : Vars φ :=
  match target.bind (sys.openOut i) with
  | none => { v with fd := -1 }
  | some f => { v with fd := (v.table.alloc (.other f)).1, table := (v.table.alloc (.other f)).2 }

/-- The words of a file go to the end of `a`. -/
def splice (v : Vars φ) (words : List Str) : Vars φ :=
  words.foldl (fun v tmp => v.grow.put (some (cString tmp))) v

/-- The branch of `"<"`. -/
def openInput (sys : Outcomes φ) (i : Nat) (readfile : Option Str) (v : Vars φ) : Vars φ :=
  match readfile.bind (sys.openIn i) with
  | none => { v with valid := false }
  | some (f, text) =>
    let fr := v.table.alloc (.other f)
    { splice v (readWords text) with table := fr.2.close fr.1 }

/-- The loop over the tokens from index `i` on. -/
def tokenLoop (sys : Outcomes φ) : Nat → List Str → Vars φ → Vars φ
  | _, [], v => v
  | i, [token], v =>
    if token = bytes ">" then openOutput sys i none v
    else if token = bytes "<" then openInput sys i none v
    else v.put (some token)
  | i, token :: target :: rest, v =>
    if token = bytes ">" then tokenLoop sys (i + 2) rest (openOutput sys i (some target) v)
    else if token = bytes "<" then tokenLoop sys (i + 2) rest (openInput sys i (some target) v)
    else tokenLoop sys (i + 1) (target :: rest) (v.put (some token))

theorem openOutput_none {sys : Outcomes φ} {i : Nat} {target : Option Str}
    (h : target.bind (sys.openOut i) = none) (v : Vars φ) :
    openOutput sys i target v = { v with fd := -1 } := by
  rw [openOutput, h]

theorem openOutput_some {sys : Outcomes φ} {i : Nat} {target : Option Str} {f : φ}
    (h : target.bind (sys.openOut i) = some f) (v : Vars φ) :
    openOutput sys i target v =
      { v with fd := (v.table.alloc (.other f)).1, table := (v.table.alloc (.other f)).2 } := by
  rw [openOutput, h]

theorem openInput_none {sys : Outcomes φ} {i : Nat} {readfile : Option Str}
    (h : readfile.bind (sys.openIn i) = none) (v : Vars φ) :
    openInput sys i readfile v = { v with valid := false } := by
  rw [openInput, h]

theorem openInput_some {sys : Outcomes φ} {i : Nat} {readfile : Option Str} {f : φ} {text : Str}
    (h : readfile.bind (sys.openIn i) = some (f, text)) (v : Vars φ) :
    openInput sys i readfile v = { splice v (readWords text) with
      table := (v.table.alloc (.other f)).2.close (v.table.alloc (.other f)).1 } := by
  rw [openInput, h]

/-! ## The command -/

/-- The functions of `cmd_table`. -/
inductive CmdFun
  | cmdHelp
  | cmdExit
  | cmdPwd
  | cmdCd
  deriving DecidableEq

/-- `cmd_table`. -/
def cmdTable : List (CmdFun × Str) :=
  [(.cmdHelp, bytes "?"), (.cmdExit, bytes "exit"), (.cmdPwd, bytes "pwd"), (.cmdCd, bytes "cd")]

/-- `lookup`. `none` is `-1`. -/
def lookup (cmd : Option Str) : Option CmdFun :=
  cmd.bind fun cmd => (cmdTable.find? fun entry => entry.2 = cmd).map Prod.fst

/-- `tokens_get_token`. `none` is `NULL`. -/
def tokensGetToken (tokens : List Str) (n : Nat) : Option Str := tokens[n]?

/-- A child at its `exec`: its descriptors, whether all writes to `a` were inside it, the string
`get_cmd` looked for, and the argument vector, as far as its allocation goes. -/
structure Child (φ : Type) where
  table : Descriptors (OpenFile φ)
  inBounds : Bool
  searched : Option Str
  handed : List (Option Str)

/-- `j==1 && strcmp(a[0],"cat")==0`. -/
def Vars.isCat (v : Vars φ) : Bool := v.a == [some (bytes "cat")]

/-- The branch of the child. `a` has been cut down to `j` places. The arguments of `execl` end at
the first `NULL`. -/
def runChild (tokens : List Str) (v : Vars φ) (tube : Nat × Nat) : Child φ :=
  let table := if v.fd ≠ -1 then (v.table.dup2 v.fd 1).closeFd v.fd else v.table
  if v.isCat then
    { table := ((table.close tube.2).dup2 tube.1 0).close tube.1
      inBounds := v.inBounds
      searched := tokensGetToken tokens 0
      handed := [some (bytes "cat"), none] }
  else
    { table := (table.close tube.1).close tube.2
      inBounds := v.inBounds
      searched := tokensGetToken tokens 0
      handed := v.a }

/-- The branch of the parent. -/
def runParent (savedStdin : Nat) (v : Vars φ) (tube : Nat × Nat) : Descriptors (OpenFile φ) :=
  let table := (v.table.closeFd v.fd).close tube.1
  (if v.isCat then table.dup2 savedStdin 0 else table).close tube.2

/-- The two calls of `dup2` before the command and at the end of the body. -/
def restore (savedStdout savedStdin : Nat) (table : Descriptors (OpenFile φ)) :
    Descriptors (OpenFile φ) :=
  (table.dup2 savedStdin 0).dup2 savedStdout 1

/-- How the body ends: the shell exits, or goes on with a table and may have started a child. -/
inductive BodyResult (φ : Type)
  | exited
  | done (table : Descriptors (OpenFile φ)) (child : Option (Child φ))

/-- The variables when the loop over the tokens starts. `fd` has the value `garbage`. -/
def startVars (garbage : Int) (tokens : List Str) (table : Descriptors (OpenFile φ)) : Vars φ :=
  ⟨table, garbage, tokens.length, [], true, true⟩

/-- The variables when the command is looked up. -/
def redirected (sys : Outcomes φ) (savedStdout savedStdin : Nat) (garbage : Int)
    (tokens : List Str) (table : Descriptors (OpenFile φ)) : Vars φ :=
  let v := tokenLoop sys 0 tokens (startVars garbage tokens table)
  { v with table := restore savedStdout savedStdin v.table }

/-- The body of the loop in `main`, behind `tokenize`. -/
def lineBody (sys : Outcomes φ) (savedStdout savedStdin : Nat) (garbage : Int)
    (tokens : List Str) (table : Descriptors (OpenFile φ)) : BodyResult φ :=
  let v := redirected sys savedStdout savedStdin garbage tokens table
  if v.valid then
    match lookup (tokensGetToken tokens 0) with
    | some .cmdExit => .exited
    | some _ => .done (restore savedStdout savedStdin v.table) none
    | none =>
      let opened := v.table.pipe .tubeRead .tubeWrite
      let v := { v with table := opened.2 }
      .done (restore savedStdout savedStdin (runParent savedStdin v opened.1))
        (some (runChild tokens v opened.1))
  else .done (restore savedStdout savedStdin v.table) none

/-! ## The items of a line -/

/-- A word of a line, or an operator with its index and its target. -/
inductive Item
  | word (s : Str)
  | output (i : Nat) (target : Option Str)
  | input (i : Nat) (target : Option Str)

/-- The items of the tokens from index `i` on. -/
def items : Nat → List Str → List Item
  | _, [] => []
  | i, [token] =>
    if token = bytes ">" then [.output i none]
    else if token = bytes "<" then [.input i none]
    else [.word token]
  | i, token :: target :: rest =>
    if token = bytes ">" then .output i (some target) :: items (i + 2) rest
    else if token = bytes "<" then .input i (some target) :: items (i + 2) rest
    else .word token :: items (i + 1) (target :: rest)

/-- What the loop does at an item. -/
def Item.run (sys : Outcomes φ) : Item → Vars φ → Vars φ
  | word s, v => v.put (some s)
  | output i target, v => openOutput sys i target v
  | input i target, v => openInput sys i target v

/-- **The loop runs the items** one by one. -/
theorem tokenLoop_eq_foldl (sys : Outcomes φ) (i : Nat) (tokens : List Str) (v : Vars φ) :
    tokenLoop sys i tokens v = (items i tokens).foldl (fun v item => item.run sys v) v := by
  induction i, tokens using items.induct generalizing v with
  | case1 i => rfl
  | case2 i => simp [tokenLoop, items, Item.run]
  | case3 i h => simp [tokenLoop, items, Item.run, h]
  | case4 i token h1 h2 => simp [tokenLoop, items, Item.run, h1, h2]
  | case5 i target rest ih => simp [tokenLoop, items, Item.run, ih]
  | case6 i target rest h ih => simp [tokenLoop, items, Item.run, h, ih]
  | case7 i token target rest h1 h2 ih => simp [tokenLoop, items, Item.run, h1, h2, ih]

/-! ## The words of a file -/

/-- The words between white space. -/
def spaceWords (text : Str) : List Str := (text.splitOnP isspace).filter fun w => w ≠ []

theorem spaceWords_nil : spaceWords [] = [] := rfl

theorem spaceWords_skipSpace (text : Str) : spaceWords (skipSpace text) = spaceWords text := by
  induction text with
  | nil => rfl
  | cons b text ih =>
    cases hb : isspace b with
    | true =>
      rw [skipSpace_cons_space hb, ih]
      unfold spaceWords
      rw [List.splitOnP_cons_eq_if_modifyHead, if_pos hb]
      simp
    | false => rw [skipSpace_cons hb]

/-- The first word, and the words after it. -/
theorem spaceWords_append {w rest : Str} (hw : ∀ b ∈ w, isspace b = false) (hne : w ≠ [])
    (hrest : ∀ b ∈ rest.head?, isspace b = true) :
    spaceWords (w ++ rest) = w :: spaceWords rest := by
  unfold spaceWords
  cases rest with
  | nil =>
    rw [List.append_nil, List.splitOnP_eq_singleton hw]
    simp [hne]
  | cons b rest =>
    rw [List.splitOnP_append_cons_of_forall_mem hw b (hrest b rfl),
      List.splitOnP_cons_eq_if_modifyHead, if_pos (hrest b rfl)]
    simp [hne]

theorem scanf_string (text : Str) : scanf [.percentMs] text =
    if skipSpace text = [] then ⟨[], some .input, []⟩
    else ⟨[.str ((skipSpace text).takeWhile fun b => !isspace b)], none,
      (skipSpace text).dropWhile fun b => !isspace b⟩ := rfl

/-- **The `fscanf` loop** reads the words between white space. -/
theorem readWords_eq (text : Str) : readWords text = spaceWords text := by
  fun_induction readWords text with
  | case1 text tmp failure rest h ih =>
    rw [scanf_string] at h
    split_ifs at h with hnil
    · exact absurd (congrArg Scanned.items h) (by simp)
    obtain ⟨rfl, rfl⟩ : ((skipSpace text).takeWhile fun b => !isspace b) = tmp ∧
        ((skipSpace text).dropWhile fun b => !isspace b) = rest := by
      simpa using And.intro (congrArg Scanned.items h) (congrArg Scanned.rest h)
    have hfirst : ∀ b ∈ (skipSpace text).head?, isspace b = false := fun b hb => by
      have := List.head?_dropWhile_not isspace text
      rw [show text.dropWhile isspace = skipSpace text from rfl, Option.mem_def.mp hb] at this
      simpa using this
    rw [ih, ← spaceWords_skipSpace text]
    conv_rhs => rw [← List.takeWhile_append_dropWhile (p := fun b => !isspace b)
      (l := skipSpace text)]
    refine (spaceWords_append (fun b hb => ?_) ?_ fun b hb => ?_).symm
    · simpa using List.mem_takeWhile_imp hb
    · obtain ⟨b, t, hbt⟩ := List.exists_cons_of_ne_nil hnil
      rw [hbt, List.takeWhile_cons_of_pos (by simp [hfirst b (by rw [hbt]; rfl)])]
      exact List.cons_ne_nil _ _
    · have := List.head?_dropWhile_not (fun b => !isspace b) (skipSpace text)
      rw [Option.mem_def.mp hb] at this
      simpa using this
  | case2 text hnone =>
    rw [← spaceWords_skipSpace text]
    by_cases hnil : skipSpace text = []
    · rw [hnil, spaceWords_nil]
    · exact absurd (by rw [scanf_string, if_neg hnil]) (hnone _ _ _)

end SystemProgramming.Shell
