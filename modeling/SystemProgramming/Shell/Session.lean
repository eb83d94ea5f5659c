import SystemProgramming.Lib.Lines
import SystemProgramming.Shell.ArgumentArray
import SystemProgramming.Shell.MissingWords
import SystemProgramming.Shell.Pwd
import SystemProgramming.Shell.Redirection

/-!
# A session

The loop of `main` in `Shell/shell.c` over all lines of standard input: `fgets`, `tokenize` and the
body. A program that is `cat` without arguments gets the rest of the input through the pipe, since
the parent reads it with `fgets` too. Programs do not read standard input by themselves, and the
shell is not interactive, so it prints no prompt.

Nothing puts a `NULL` behind the words in `a`, so `execv` reads on behind its allocation. What lies
there is a part of the setting, and what a program gets depends on it.

`Command` is a line of a script, which renders words, and `Executes` says what it means to execute
a script.

* `argv_words`: a program gets the words of its line and then what lies behind them.
* `session_script`: on the bytes of a script the shell executes the script.
-/

namespace SystemProgramming.Shell

open Lib

variable {φ : Type}

/-- What a session meets: the outcomes of the calls in each round, the value of `fd` at its start,
what `access` says, the working directory, and what lies in memory behind `a` when `execv` reads it;
`PATH`, and where `dup` has saved standard output and input. Behind `a` there are words up to a
`NULL`, or something that is no word. -/
structure Setting (φ : Type) where
  sys : Nat → Outcomes φ
  garbage : Nat → Int
  access : Nat → Access
  cwd : Nat → WorkingDir
  behind : Nat → Option (List Str)
  path : Str
  savedStdout : Nat
  savedStdin : Nat

/-- The line of round `k`. -/
def Setting.line (e : Setting φ) (k : Nat) (tokens : List Str) : Line φ :=
  ⟨e.sys k, e.garbage k, tokens⟩

/-- A round of the loop: the tokens, how the body ends, and what the parent writes into the pipe. -/
structure Round (φ : Type) where
  tokens : List Str
  result : BodyResult φ
  fed : Str

/-- **The loop of `main`** over the lines that `fgets` returns, from round `k` on. The inner loop
behind `fork` reads the lines that are left and writes each up to its first NUL. -/
def session (e : Setting φ) : Nat → List Str → Descriptors (OpenFile φ) → List (Round φ)
  | _, [], _ => []
  | k, line :: rest, t =>
    match tokenize 4096 line with
    | some (.returned tokens) =>
      match (e.line k tokens).body e.savedStdout e.savedStdin t with
      | .exited => [⟨tokens, .exited, []⟩]
      | .done t' none => ⟨tokens, .done t' none, []⟩ :: session e (k + 1) rest t'
      | .done t' (some child) =>
        if ((e.line k tokens).vars e.savedStdout e.savedStdin t).isCat then
          [⟨tokens, .done t' (some child), rest.flatMap cString⟩]
        else ⟨tokens, .done t' (some child), []⟩ :: session e (k + 1) rest t'
    | _ => []

/-! ## Scripts -/

/-- A line of a script, without its newline. -/
structure Command where
  words : List Str
  text : Str
  renders : Renders words text
  isWord : ∀ w ∈ words, IsWord w
  no_newline : 10 ∉ text

namespace Command

/-- The line with its newline. -/
def line (c : Command) : Str := c.text ++ [10]

theorem isLine (c : Command) : IsLine c.line := ⟨c.text, rfl, c.no_newline⟩

end Command

theorem Segment.text_eq_nil {segment : Segment} (h : segment.render = []) : segment.text = [] := by
  cases segment with
  | bare s _ => exact h
  | escaped b => exact absurd h (by simp [render])
  | single s => exact absurd h (by simp [render])
  | double s => exact absurd h (by simp [render])

/-- A line has no more words than bytes. -/
theorem Renders.length_le {words : List Str} {text : Str} (h : Renders words text) :
    (∀ w ∈ words, w ≠ []) → words.length ≤ text.length := by
  have hpos : ∀ {segments : List Segment}, segments.flatMap Segment.text ≠ [] →
      0 < (segments.flatMap Segment.render).length := fun {segments} hne =>
    List.length_pos_iff.mpr fun he => hne (List.flatMap_eq_nil_iff.mpr fun segment hmem =>
      Segment.text_eq_nil (List.flatMap_eq_nil_iff.mp he segment hmem))
  induction h with
  | nil => exact fun _ => Nat.le_refl _
  | space hb _ ih => exact fun hw => Nat.le_succ_of_le (ih hw)
  | last segments => exact fun hw => hpos (hw _ List.mem_cons_self)
  | word segments hb _ ih =>
    intro hw
    have hrest := ih fun w hmem => hw w (List.mem_cons_of_mem _ hmem)
    have hfirst := hpos (hw _ List.mem_cons_self)
    simp only [List.length_cons, List.length_append]
    omega

/-- A newline ends the last word. -/
theorem Renders.newline {words : List Str} {text : Str} (h : Renders words text) :
    Renders words (text ++ [10]) := by
  have hspace : isspace 10 = true := by decide
  induction h with
  | nil => exact .space hspace .nil
  | space hb _ ih => exact .space hb ih
  | last segments => exact .word segments hspace .nil
  | word segments hb _ ih =>
    rw [List.append_assoc]
    exact .word segments hb ih

namespace Command

/-- **The tokens of a line** that fits into the buffer of `fgets` are its words. -/
theorem tokenize_line (c : Command) (hlen : c.line.length ≤ 4095) :
    tokenize 4096 c.line = some (.returned c.words) := by
  have hall : c.words.filter (· ≠ []) = c.words :=
    List.filter_eq_self.mpr fun w hmem => by simpa using (c.isWord w hmem).ne_nil
  have hrun := (tokenize_eq c.renders.newline fun w hmem _ => c.isWord w hmem).1
    (Nat.lt_of_le_of_lt hlen (by decide)) 4096 (Nat.lt_succ_of_le hlen)
  rwa [hall] at hrun

theorem length_words (c : Command) (hlen : c.line.length ≤ 4095) : c.words.length ≤ cIntMax := by
  have hle := c.renders.newline.length_le fun w hmem => (c.isWord w hmem).ne_nil
  exact (hle.trans hlen).trans (by decide)

/-- It is one C string. -/
theorem cString_line (c : Command) : cString c.line = c.line :=
  cString_of_not_mem (c.renders.newline.no_nul fun w hmem => (c.isWord w hmem).no_nul)

end Command

/-! ## What a program gets -/

/-- **The arguments that a program gets**: its vector up to the first `NULL`. If there is none in
the vector, they go on with what lies behind it. Where that is no word, `execv` fails. -/
def argv : List (Option Str) → Option (List Str) → Option (List Str)
  | [], behind => behind
  | none :: _, _ => some []
  | some word :: rest, behind => (argv rest behind).map (word :: ·)

theorem argv_words (words : List Str) (behind : Option (List Str)) :
    argv (words.map some) behind = behind.map (words ++ ·) := by
  induction words with
  | nil => simp [argv]
  | cons word words ih =>
    rw [List.map_cons, argv, ih, Option.map_map]
    rfl

/-- **A line of round `k` with no undefined step before `execv`**: it has a word and no operator
without a target, a word of a file comes whenever `a` is full, and the words of files fit into
`tmp`. For a program, `get_cmd` stays inside its buffer and returns a string, and `pwd` comes to an
end. What `execv` reads behind `a` is not among these steps. -/
structure Prepared (e : Setting φ) (k : Nat) (tokens : List Str) : Prop where
  ne_nil : tokens ≠ []
  targets : endsInOperator tokens = false
  room : GrowsInTime tokens.length (origins (e.sys k) (items 0 tokens))
  short : ∀ i target opened, .input i target ∈ items 0 tokens →
    target.bind ((e.sys k).openIn i) = some opened → ∀ w ∈ readWords opened.2, w.length < 1024
  found : (e.line k tokens).isProgram = true → ∀ token ∈ tokens.head?,
    (getCmd (e.access k) token e.path).2.inBounds = true ∧
      (getCmd (e.access k) token e.path).1 ≠ none
  ends : (e.line k tokens).builtin = some .cmdPwd → PwdEnds (e.cwd k)

/-- **The program of a line** is looked up by the first word, and has the right standard output. The
words of the line are stored inside `a`, and nothing else is: the program gets them and what lies
behind them, so it gets exactly them only if a `NULL` happens to follow. -/
structure Runs (line : Line φ) (behind : Option (List Str)) (t : Descriptors (OpenFile φ))
    (child : Child φ) : Prop where
  in_bounds : (argArray line.sys line.tokens).inBounds = true
  searched : child.searched = line.tokens.head?
  handed : child.handed = (argumentVector line.sys line.tokens).map some
  arguments : argv child.handed behind = behind.map (argumentVector line.sys line.tokens ++ ·)
  exact_iff : argv child.handed behind = some (argumentVector line.sys line.tokens) ↔
    behind = some []
  stdout : child.table.file 1 = line.stdout t

/-- **The program of a line that is `cat`** reads from the pipe. Its vector ends with a `NULL`. -/
structure Copies (line : Line φ) (behind : Option (List Str)) (t : Descriptors (OpenFile φ))
    (child : Child φ) : Prop where
  in_bounds : (argArray line.sys line.tokens).inBounds = true
  searched : child.searched = line.tokens.head?
  handed : child.handed = [some (bytes "cat"), none]
  arguments : argv child.handed behind = some [bytes "cat"]
  stdin : child.table.file 0 = some .tubeRead
  stdout : child.table.file 1 = line.stdout t

/-- **What it means to execute a script**, from round `k` on: the lines one after the other, each
with the descriptors `t`, up to an `exit` or a `cat` that gets the rest of the script. -/
inductive Executes (e : Setting φ) (t : Descriptors (OpenFile φ)) :
    Nat → List Command → List (Round φ) → Prop
  | finished (k : Nat) : Executes e t k [] []
  | exit (k : Nat) (c : Command) (cmds : List Command)
      (hb : (e.line k c.words).builtin = some .cmdExit) :
      Executes e t k (c :: cmds) [⟨c.words, .exited, []⟩]
  | noProgram (k : Nat) (c : Command) (cmds : List Command) (rounds : List (Round φ))
      (t' : Descriptors (OpenFile φ)) (hp : (e.line k c.words).isProgram = false)
      (hb : (e.line k c.words).builtin ≠ some .cmdExit) (hsame : t'.file = t.file)
      (hrest : Executes e t (k + 1) cmds rounds) :
      Executes e t k (c :: cmds) (⟨c.words, .done t' none, []⟩ :: rounds)
  | program (k : Nat) (c : Command) (cmds : List Command) (rounds : List (Round φ))
      (t' : Descriptors (OpenFile φ)) (child : Child φ)
      (hp : (e.line k c.words).isProgram = true)
      (hcat : argumentVector (e.sys k) c.words ≠ [bytes "cat"])
      (hruns : Runs (e.line k c.words) (e.behind k) t child) (hsame : t'.file = t.file)
      (hrest : Executes e t (k + 1) cmds rounds) :
      Executes e t k (c :: cmds) (⟨c.words, .done t' (some child), []⟩ :: rounds)
  | cat (k : Nat) (c : Command) (cmds : List Command) (t' : Descriptors (OpenFile φ))
      (child : Child φ) (hp : (e.line k c.words).isProgram = true)
      (hcat : argumentVector (e.sys k) c.words = [bytes "cat"])
      (hcopies : Copies (e.line k c.words) (e.behind k) t child) (hsame : t'.file = t.file) :
      Executes e t k (c :: cmds)
        [⟨c.words, .done t' (some child), cmds.flatMap Command.line⟩]

/-! ## One round -/

variable {savedStdout savedStdin : Nat} {t t' : Descriptors (OpenFile φ)} {line : Line φ}

/-- Only the files matter. -/
theorem Meets.congr (h : Meets line t) (hfile : t'.file = t.file) : Meets line t' where
  no_program := h.no_program
  last_output := h.last_output
  no_output := fun hp hnil => by
    have hpipe := Descriptors.pipe_congr hfile (OpenFile.tubeRead : OpenFile φ) .tubeWrite
    have hof : t'.fileOf line.garbage = t.fileOf line.garbage := by
      unfold Descriptors.fileOf
      rw [hfile]
    rw [hof, hpipe, hfile]
    exact h.no_output hp hnil

theorem Line.stdout_congr (hfile : t'.file = t.file) : line.stdout t' = line.stdout t := by
  unfold Line.stdout
  rw [hfile]

theorem Runs.congr {behind : Option (List Str)} {child : Child φ} (h : Runs line behind t' child)
    (hfile : t'.file = t.file) : Runs line behind t child :=
  { h with stdout := h.stdout.trans (Line.stdout_congr hfile) }

theorem Copies.congr {behind : Option (List Str)} {child : Child φ}
    (h : Copies line behind t' child) (hfile : t'.file = t.file) : Copies line behind t child :=
  { h with stdout := h.stdout.trans (Line.stdout_congr hfile) }

/-- `a` holds the words of the line. -/
theorem vars_a (savedStdout savedStdin : Nat) (line : Line φ) (t : Descriptors (OpenFile φ)) :
    (line.vars savedStdout savedStdin t).a = (argumentVector line.sys line.tokens).map some :=
  redirected_a

theorem vars_isCat_iff (savedStdout savedStdin : Nat) (line : Line φ)
    (t : Descriptors (OpenFile φ)) : (line.vars savedStdout savedStdin t).isCat = true ↔
      argumentVector line.sys line.tokens = [bytes "cat"] := isCat_iff (vars_a ..)

/-- `fd` is not the descriptor that the child reads the pipe with. -/
theorem fd_ne_tube (h : Steady savedStdout savedStdin t) (hp : line.isProgram = true)
    (hm : Meets line t) : (line.vars savedStdout savedStdin t).fd ≠
      (tubeOf (line.vars savedStdout savedStdin t)).1 := by
  obtain ⟨hfile, hfd, -⟩ := vars_spec line h
  by_cases hnil : line.outputs = []
  · obtain ⟨hsame, hgarbage⟩ := vars_of_no_output h hnil
    have htube : tubeOf (line.vars savedStdout savedStdin t) =
        (t.pipe .tubeRead .tubeWrite).1 := Descriptors.pipe_congr hsame _ _
    rw [hgarbage]
    rcases hm.no_output hp hnil with ⟨-, hne, -⟩ | ⟨hzero, -⟩
    · rwa [htube]
    · have hopen : (line.vars savedStdout savedStdin t).table.file 0 ≠ none := by
        rw [hsame]
        exact h.stdin_open
      have := (ne_tube hopen).1
      omega
  · rw [hfd]
    rcases loop_last line.sys (items 0 line.tokens) (v := startVars line.garbage line.tokens t)
      (hm.last_output hp hnil) with hnone | ⟨f, d, -, -, hupdate, hdfd⟩
    · obtain ⟨-, hneg⟩ := loop_closed line.sys (items 0 line.tokens)
        (v := startVars line.garbage line.tokens t) hnone
      have hneg : (line.loop t).fd = -1 := hneg.trans (if_neg hnil)
      omega
    · have hopen : (line.vars savedStdout savedStdin t).table.file d ≠ none := by
        rw [hfile]
        show (runItems _ _ _).table.file d ≠ none
        rw [hupdate, Function.update_self]
        simp
      have hdfd : (line.loop t).fd = d := hdfd
      have := (ne_tube hopen).1
      omega

/-- **Standard input of `cat`** is the pipe. -/
theorem child_stdin_of_isCat (tokens : List Str) {v : Vars φ} (hcat : v.isCat = true)
    (hfd : v.fd ≠ (tubeOf v).1) (h0 : v.table.file 0 ≠ none) (h1 : v.table.file 1 ≠ none) :
    (runChild tokens (withTube v) (tubeOf v)).table.file 0 = some .tubeRead := by
  obtain ⟨hne, -, -, hfile⟩ := tube_spec v
  obtain ⟨h01, h02⟩ := ne_tube h0
  obtain ⟨h11, -⟩ := ne_tube h1
  have hcat : (withTube v).isCat = true := hcat
  have hread : (withTube v).table.file (tubeOf v).1 = some .tubeRead := by
    rw [hfile, if_neg hne, if_pos rfl]
  -- the redirection of standard output leaves the pipe alone
  have hkeep : (if (withTube v).fd ≠ -1 then
      ((withTube v).table.dup2 (withTube v).fd 1).closeFd (withTube v).fd
      else (withTube v).table).file (tubeOf v).1 = some .tubeRead := by
    split_ifs
    · have hne : ((tubeOf v).1 : Int) ≠ (withTube v).fd := Ne.symm hfd
      rw [Descriptors.closeFd_file, if_neg hne, Descriptors.dup2_file_of_ne _ _ (Ne.symm h11),
        hread]
    · exact hread
  unfold runChild
  dsimp only
  rw [if_pos hcat]
  dsimp only
  rw [Descriptors.close_file_of_ne _ h01, Descriptors.dup2_file_self, Descriptors.fileOf_natCast,
    Descriptors.close_file_of_ne _ hne, hkeep, Option.some_or]

/-- The words of the line are stored inside `a`. -/
theorem argArray_of_prepared {e : Setting φ} {k : Nat} {tokens : List Str}
    (h : Prepared e k tokens) (hlen : tokens.length ≤ cIntMax) :
    (argArray (e.sys k) tokens).inBounds = true := by
  rw [argArray, storeLoop_eq_foldl, toCInt_of_le hlen]
  exact (stored_inBounds_iff (List.length_pos_iff.mpr h.ne_nil) hlen _).mpr h.room

/-- **A line that runs a program** and meets the condition. -/
theorem body_program_of_meets (behind : Option (List Str)) (h : Steady savedStdout savedStdin t)
    (hp : line.isProgram = true) (hm : Meets line t)
    (hin : (argArray line.sys line.tokens).inBounds = true) : ∃ t' child,
      line.body savedStdout savedStdin t = .done t' (some child) ∧ t'.file = t.file ∧
      (argumentVector line.sys line.tokens ≠ [bytes "cat"] → Runs line behind t child) ∧
      (argumentVector line.sys line.tokens = [bytes "cat"] → Copies line behind t child) := by
  have hbody := body_program savedStdout savedStdin t hp
  rcases body_of_meets h hm with hexit | ⟨t', child, hdone, hfile, hout⟩
  · exact absurd (hbody.symm.trans hexit) (by simp)
  obtain ⟨rfl, rfl⟩ := BodyResult.done.inj (hbody.symm.trans hdone)
  have hout := hout _ rfl
  have ha := vars_a savedStdout savedStdin line t
  have hfd := fd_ne_tube h hp hm
  obtain ⟨hvars, -, -⟩ := vars_spec line h
  have hkeep : ∀ {n}, t.file n ≠ none →
      (line.vars savedStdout savedStdin t).table.file n ≠ none := fun hn => by
    rw [hvars, line.loop_file hn]
    exact hn
  refine ⟨_, _, hbody, hfile, fun hcat => ?_, fun hcat => ?_⟩
  · have hcat := mt (vars_isCat_iff savedStdout savedStdin line t).mp hcat
    generalize line.vars savedStdout savedStdin t = v at ha hcat hout
    have hchild : runChild line.tokens (withTube v) (tubeOf v) = _ := if_neg hcat
    have hhanded := (congrArg Child.handed hchild).trans ha
    refine ⟨hin, ?_, hhanded, ?_, ?_, hout⟩
    · rw [hchild, List.head?_eq_getElem?]
      rfl
    · rw [hhanded, argv_words]
    · rw [hhanded, argv_words, Option.map_eq_some_iff]
      simp
  · have hcat := (vars_isCat_iff savedStdout savedStdin line t).mpr hcat
    have hstdin := child_stdin_of_isCat line.tokens hcat hfd (hkeep h.stdin_open)
      (hkeep h.stdout_open)
    generalize line.vars savedStdout savedStdin t = v at ha hcat hout hstdin
    have hchild : runChild line.tokens (withTube v) (tubeOf v) = _ := if_pos hcat
    have hhanded := congrArg Child.handed hchild
    refine ⟨hin, ?_, hhanded, ?_, hstdin, hout⟩
    · rw [hchild, List.head?_eq_getElem?]
      rfl
    · rw [hhanded]
      rfl

/-! ## The session -/

variable {e : Setting φ}

/-- The shell over the lines of a script. -/
theorem session_lines (h : Steady e.savedStdout e.savedStdin t) (cmds : List Command) (k : Nat)
    (hlen : ∀ c ∈ cmds, c.line.length ≤ 4095)
    (hmeets : ∀ i c, cmds[i]? = some c →
      Meets (e.line (k + i) c.words) t ∧ Prepared e (k + i) c.words)
    (hfile : t'.file = t.file) :
    Executes e t k cmds (session e k (cmds.map Command.line) t') := by
  induction cmds generalizing k t' with
  | nil => exact .finished k
  | cons c cmds ih =>
    obtain ⟨hc, hcmds⟩ := List.forall_mem_cons.mp hlen
    have h' : Steady e.savedStdout e.savedStdin t' := h.congr hfile
    have hm : Meets (e.line k c.words) t' := (hmeets 0 c rfl).1.congr hfile
    have hin := argArray_of_prepared (hmeets 0 c rfl).2 (c.length_words hc)
    have hrest : ∀ {t'' : Descriptors (OpenFile φ)}, t''.file = t.file →
        Executes e t (k + 1) cmds (session e (k + 1) (cmds.map Command.line) t'') := by
      refine fun hsame => ih (k + 1) hcmds (fun i c' hi => ?_) hsame
      have hnext := hmeets (i + 1) c' (by simpa using hi)
      rwa [show k + 1 + i = k + (i + 1) by omega]
    rw [List.map_cons, session, c.tokenize_line hc]
    dsimp only
    cases hp : (e.line k c.words).isProgram with
    | true =>
      obtain ⟨t'', child, hbody, hsame, hruns, hcopies⟩ :=
        body_program_of_meets (e.behind k) h' hp hm hin
      have hsame := hsame.trans hfile
      rw [hbody]
      dsimp only
      split_ifs with hcat
      · have hcat := (vars_isCat_iff _ _ (e.line k c.words) t').mp hcat
        have hfed : (cmds.map Command.line).flatMap cString = cmds.flatMap Command.line := by
          rw [List.flatMap_map]
          exact List.flatMap_congr fun c _ => c.cString_line
        have hcopies := (hcopies hcat).congr hfile
        rw [hfed]
        exact .cat k c cmds t'' child hp hcat hcopies hsame
      · have hcat := mt (vars_isCat_iff _ _ (e.line k c.words) t').mpr hcat
        have hruns := (hruns hcat).congr hfile
        exact .program k c cmds _ t'' child hp hcat hruns hsame (hrest hsame)
    | false =>
      by_cases hb : (e.line k c.words).builtin = some .cmdExit
      · rw [body_exit h' hb]
        exact .exit k c cmds hb
      · obtain ⟨t'', hbody, hloop⟩ := body_no_program h' hp hb
        obtain ⟨hclosed, -⟩ := loop_closed (e.line k c.words).sys (items 0 c.words)
          (v := startVars (e.line k c.words).garbage c.words t') (hm.no_program hp hb)
        have hsame : t''.file = t.file := (hloop.trans hclosed).trans hfile
        rw [hbody]
        exact .noProgram k c cmds _ t'' hp hb hsame (hrest hsame)

/-- **On the bytes of a script the shell executes the script**, if every line fits into the buffer
of `fgets`, meets the condition for the descriptors and takes no undefined step before `execv`. The
programs leave the script alone: only a lone `cat` gets some of it. -/
theorem session_script (e : Setting φ) (t : Descriptors (OpenFile φ)) (cmds : List Command)
    {t₀ : Descriptors (OpenFile φ)} (h : Started t₀ e.savedStdout e.savedStdin t)
    (hlen : ∀ c ∈ cmds, c.line.length ≤ 4095)
    (hmeets : ∀ k c, cmds[k]? = some c →
      Meets (e.line k c.words) t ∧ Prepared e k c.words) :
    Executes e t 0 cmds (session e 0 (fgetsAll 4094 (cmds.flatMap Command.line)) t) := by
  have hlines : fgetsAll 4094 (cmds.flatMap Command.line) = cmds.map Command.line := by
    refine (fgetsAll_eq_iff fun line hmem => ?_).mpr fun line hmem => ?_
    · obtain ⟨c, -, rfl⟩ := List.mem_map.mp hmem
      exact c.isLine
    · obtain ⟨c, hc, rfl⟩ := List.mem_map.mp hmem
      exact hlen c hc
  rw [hlines]
  exact session_lines h.steady cmds 0 hlen (fun i c hi => (Nat.zero_add i).symm ▸ hmeets i c hi) rfl

/-! ## Lines without operators -/

/-- The line has no operator. -/
def Plain (tokens : List Str) : Prop := ∀ token ∈ tokens, token ≠ bytes ">" ∧ token ≠ bytes "<"

variable {tokens : List Str}

theorem items_of_plain (h : Plain tokens) (i : Nat) : items i tokens = tokens.map .word := by
  induction i, tokens using items.induct with
  | case1 i => rfl
  | case2 i => exact absurd rfl (h _ List.mem_cons_self).1
  | case3 i hne => exact absurd rfl (h _ List.mem_cons_self).2
  | case4 i token h1 h2 => simp [items, h1, h2]
  | case5 i target rest ih => exact absurd rfl (h _ List.mem_cons_self).1
  | case6 i target rest hne ih => exact absurd rfl (h _ List.mem_cons_self).2
  | case7 i token target rest h1 h2 ih =>
    rw [items, if_neg h1, if_neg h2, ih fun w hw => h w (List.mem_cons_of_mem _ hw)]
    rfl

theorem origins_words (sys : Outcomes φ) (tokens : List Str) :
    origins sys (tokens.map .word) = tokens.map fun _ => false := by
  induction tokens with
  | nil => rfl
  | cons token tokens ih => rw [List.map_cons, origins_word, ih, List.map_cons]

theorem endsInOperator_of_plain (h : Plain tokens) : endsInOperator tokens = false := by
  fun_induction endsInOperator tokens with
  | case1 => rfl
  | case2 token => simpa using h token List.mem_cons_self
  | case3 token target rest hop =>
    have hop : token = bytes ">" ∨ token = bytes "<" := by simpa using hop
    exact absurd hop (not_or.mpr (h token List.mem_cons_self))
  | case4 token target rest hop ih =>
    exact ih fun w hw => h w (List.mem_cons_of_mem _ hw)

theorem prepared_of_plain {e : Setting φ} {k : Nat} (haccess : ∀ token, e.access k 0 token = true)
    (hcwd : PwdEnds (e.cwd k)) (hne : tokens ≠ []) (h : Plain tokens) : Prepared e k tokens where
  ne_nil := hne
  targets := endsInOperator_of_plain h
  room := fun i hi => by
    have hlen : (origins (e.sys k) (items 0 tokens)).length = tokens.length := by
      rw [items_of_plain h, origins_words, List.length_map]
    have hle := (doubled_strictMono (List.length_pos_iff.mpr hne)).monotone (Nat.zero_le i)
    rw [hlen] at hi
    exact absurd hi (Nat.not_lt.mpr hle)
  short := fun i target opened hmem => by
    rw [items_of_plain h] at hmem
    simp at hmem
  found := fun _ token _ => by
    rw [getCmd, if_pos (haccess token)]
    exact ⟨rfl, by simp⟩
  ends := fun _ => hcwd

theorem meets_of_plain (sys : Outcomes φ) (t : Descriptors (OpenFile φ)) (h : Plain tokens) :
    Meets ⟨sys, -1, tokens⟩ t := by
  have hnil : Line.outputs ⟨sys, -1, tokens⟩ = [] := by
    unfold Line.outputs
    dsimp only
    rw [items_of_plain h]
    simp [outcomes]
  refine ⟨fun _ _ o ho => ?_, fun _ hne => absurd hnil hne, fun _ _ => Or.inl ⟨rfl, ?_, ?_⟩⟩
  · rw [hnil] at ho
    exact absurd ho List.not_mem_nil
  · dsimp only
    omega
  · dsimp only
    omega

/-- The command `ls -l`. -/
def listCommand : Command where
  words := [bytes "ls", bytes "-l"]
  text := bytes "ls -l"
  renders := .word [.bare (bytes "ls") (List.all_eq_true.mp (by decide))] (b := 32) (by decide)
    (.last [.bare (bytes "-l") (List.all_eq_true.mp (by decide))])
  isWord := List.forall_mem_cons.mpr ⟨⟨by decide, by decide, by decide⟩,
    List.forall_mem_singleton.mpr ⟨by decide, by decide, by decide⟩⟩
  no_newline := by decide

/-- The command `cat`. -/
def catCommand : Command where
  words := [bytes "cat"]
  text := bytes "cat"
  renders := .last [.bare (bytes "cat") (List.all_eq_true.mp (by decide))]
  isWord := List.forall_mem_singleton.mpr ⟨by decide, by decide, by decide⟩
  no_newline := by decide

/-- The shell when it starts a session in `/`: no call but `fork` and `access` succeeds, `fd` is -1,
and behind `a` lies a word that is not on the line. -/
def closedSetting : Setting Unit where
  sys := fun _ => ⟨fun _ _ => none, fun _ _ => none⟩
  garbage := fun _ => -1
  access := fun _ _ _ => true
  cwd := fun _ => ⟨some (bytes "/"), by decide⟩
  behind := fun _ => some [bytes "x"]
  path := bytes "/bin"
  savedStdout := 3
  savedStdin := 4

/-- The script `ls -l`, `cat`, `ls -l`: the second `ls -l` goes to `cat`. -/
theorem session_script_cat : ∃ t, Started threeFiles 3 4 t ∧
    Executes closedSetting t 0 [listCommand, catCommand, listCommand]
      (session closedSetting 0 (fgetsAll 4094 (bytes "ls -l\ncat\nls -l\n")) t) := by
  obtain ⟨t, h⟩ := threeFiles_started
  have hlist : listCommand.words ≠ [] ∧ Plain listCommand.words ∧
      listCommand.line.length ≤ 4095 := by
    unfold Plain
    decide
  have hcat : catCommand.words ≠ [] ∧ Plain catCommand.words ∧
      catCommand.line.length ≤ 4095 := by
    unfold Plain
    decide
  have hall : ∀ c ∈ [listCommand, catCommand, listCommand],
      c.words ≠ [] ∧ Plain c.words ∧ c.line.length ≤ 4095 :=
    List.forall_mem_cons.mpr ⟨hlist, List.forall_mem_cons.mpr
      ⟨hcat, List.forall_mem_singleton.mpr hlist⟩⟩
  refine ⟨t, h, session_script closedSetting t [listCommand, catCommand, listCommand] h
    (fun c hc => (hall c hc).2.2) fun k c hk => ?_⟩
  obtain ⟨hne, hp, -⟩ := hall c (List.mem_of_getElem? hk)
  have hcwd : PwdEnds (closedSetting.cwd k) := pwdEnds_of_path rfl (by decide)
  exact ⟨meets_of_plain _ _ hp, prepared_of_plain (fun _ => rfl) hcwd hne hp⟩

end SystemProgramming.Shell
