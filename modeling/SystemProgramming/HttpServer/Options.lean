import Mathlib.Data.List.Basic
import SystemProgramming.Lib.Bytes
import SystemProgramming.Lib.CInt

/-!
# The options of the server

`main` of `server.c` up to `chdir`: the loop over the arguments, its defaults, and what it prints
before it exits. All exits have the status `EXIT_SUCCESS`, so the status is left out.

* `atoi_decimal`: `atoi` reads the decimal text of an `int`. Larger numbers wrap around.
* `optionLoop_of_choices`, `optionLoop_of_blocked`: the loop takes one option with its value after
  the other, and stops at the first argument that it cannot take.
* `serverMain_serves_iff`: the server starts exactly if the arguments are options with values, one
  of which names a directory. The last value of an option wins.
* `serverMain_exits_iff`: what it prints otherwise.
-/

namespace SystemProgramming.HttpServer

open Lib

/-- `strtol` with base 10: a value outside `long` becomes the nearest `long`. -/
def strtol (s : Str) : Int :=
  match s.dropWhile isspace with
  | 45 :: digits => max (-(digitsValue (digits.takeWhile isdigit) : Int)) (-9223372036854775808)
  | 43 :: digits => min (digitsValue (digits.takeWhile isdigit) : Int) 9223372036854775807
  | digits => min (digitsValue (digits.takeWhile isdigit) : Int) 9223372036854775807

/-- `atoi`, which is `(int) strtol(s, NULL, 10)`. -/
def atoi (s : Str) : Int := toCInt (strtol s)

/-- Digits without a sign are read as they are, up to the greatest `long`. -/
theorem strtol_digits {digits : Str} (h : ∀ b ∈ digits, isdigit b = true) :
    strtol digits = min (digitsValue digits : Int) 9223372036854775807 := by
  have htake : digits.takeWhile isdigit = digits := List.takeWhile_eq_self_iff.mpr h
  unfold strtol
  cases digits with
  | nil => rfl
  | cons b rest =>
    have hb := h b List.mem_cons_self
    rw [List.dropWhile_cons_of_neg (by simp [isspace_of_isdigit hb])]
    -- neither sign is a digit
    split
    · rename_i heq
      exact absurd ((List.cons.inj heq).1 ▸ hb) (by decide)
    · rename_i heq
      exact absurd ((List.cons.inj heq).1 ▸ hb) (by decide)
    · rw [htake]

/-- **What fits into an `int`** is read as it is. -/
theorem atoi_decimal {n : Nat} (h : n ≤ cIntMax) : atoi (decimal n) = n := by
  have hint := toCInt_of_le h
  unfold cIntMax at h
  rw [atoi, strtol_digits fun _ => isdigit_of_mem_decimal, digitsValue_decimal,
    min_eq_left (by omega), hint]

/-- 2^32 wraps around to 0, and what does not fit into a `long` either becomes -1. -/
example : atoi (bytes "4294967296") = 0 ∧ atoi (bytes " -8") = -8 ∧
    atoi (bytes "9999999999999999999") = -1 := by decide

/-- `server_files_directory`, `server_port` and `concurrency`. -/
structure Settings where
  filesDirectory : Option Str
  port : Int
  concurrency : Int

/-- The default settings. -/
def Settings.default : Settings := ⟨none, 8000, 1⟩

/-- What `exit_with_usage` prints. -/
def usage (executableName : Str) : Str :=
  bytes "Usage:" ++ bytes " " ++ executableName ++ bytes " " ++
    bytes "--files www_directory/ [--port 8000 --concurrency 5]\n"

/-- The loop over the arguments: the settings, or what is printed before the usage. `argv[argc]` is
`NULL`. -/
def optionLoop : List Str → Settings → Except Str Settings
  | [], o => .ok o
  | arg :: rest, o =>
    if arg = bytes "--files" then
      match rest with
      | [] => .error (bytes "Expected argument after --files\n")
      | value :: rest => optionLoop rest { o with filesDirectory := some value }
    else if arg = bytes "--port" then
      match rest with
      | [] => .error (bytes "Expected argument after --port\n")
      | value :: rest => optionLoop rest { o with port := atoi value }
    else if arg = bytes "--concurrency" then
      match rest with
      | [] => .error (bytes "Expected positive integer after --concurrency\n")
      | value :: rest =>
        if atoi value < 1 then .error (bytes "Expected positive integer after --concurrency\n")
        else optionLoop rest { o with concurrency := atoi value }
    else if arg = bytes "--help" then .error []
    else .error (bytes "Unrecognized option: " ++ arg ++ bytes "\n")

/-- How `main` goes on. -/
inductive Start
  | serves (directory : Str) (port concurrency : Int)
  | exits (stderr : Str)
  deriving DecidableEq

/-- `main`, for the name of the program and its arguments. -/
def serverMain (executableName : Str) (args : List Str) : Start :=
  match optionLoop args .default with
  | .error message => .exits (message ++ usage executableName)
  | .ok o =>
    match o.filesDirectory with
    | none => .exits (bytes "Please specify \"--files [DIRECTORY]\"\n" ++ usage executableName)
    | some directory => .serves directory o.port o.concurrency

/-! ## Options with values -/

/-- An option with its value. -/
inductive Choice
  | files (value : Str)
  | port (value : Str)
  | concurrency (value : Str) (h : 1 ≤ atoi value)

namespace Choice

/-- The two arguments. -/
def args : Choice → List Str
  | files value => [bytes "--files", value]
  | port value => [bytes "--port", value]
  | concurrency value _ => [bytes "--concurrency", value]

/-- The directory, if the option is `--files`. -/
def directory : Choice → Option Str
  | files value => some value
  | _ => none

/-- The port, if the option is `--port`. -/
def portNumber : Choice → Option Int
  | port value => some (atoi value)
  | _ => none

/-- The number of threads, if the option is `--concurrency`. -/
def threads : Choice → Option Int
  | concurrency value _ => some (atoi value)
  | _ => none

end Choice

/-- The last value wins. -/
def Settings.choose (o : Settings) (choices : List Choice) : Settings where
  filesDirectory := (choices.filterMap Choice.directory).getLast?.or o.filesDirectory
  port := (choices.filterMap Choice.portNumber).getLast?.getD o.port
  concurrency := (choices.filterMap Choice.threads).getLast?.getD o.concurrency

/-- **Arguments at which the loop stops**, and what it prints. -/
inductive Blocked : List Str → Str → Prop
  | files : Blocked [bytes "--files"] (bytes "Expected argument after --files\n")
  | port : Blocked [bytes "--port"] (bytes "Expected argument after --port\n")
  | concurrency :
      Blocked [bytes "--concurrency"] (bytes "Expected positive integer after --concurrency\n")
  | notPositive (value : Str) (rest : List Str) (h : atoi value < 1) :
      Blocked (bytes "--concurrency" :: value :: rest)
        (bytes "Expected positive integer after --concurrency\n")
  | help (rest : List Str) : Blocked (bytes "--help" :: rest) []
  | unknown (arg : Str) (rest : List Str) (h : arg ∉ [bytes "--files", bytes "--port",
      bytes "--concurrency", bytes "--help"]) :
      Blocked (arg :: rest) (bytes "Unrecognized option: " ++ arg ++ bytes "\n")

/-! ### The words of the options are different -/

theorem port_ne_files : bytes "--port" ≠ bytes "--files" := by decide

theorem concurrency_ne_files : bytes "--concurrency" ≠ bytes "--files" := by decide

theorem concurrency_ne_port : bytes "--concurrency" ≠ bytes "--port" := by decide

/-! ## What the loop does -/

/-- The values of the first option count if no later one replaces them. -/
theorem choose_cons (o : Settings) (choice : Choice) (choices : List Choice) :
    o.choose (choice :: choices) = (o.choose [choice]).choose choices := by
  cases choice with
  | files value =>
    simp [Settings.choose, Choice.directory, Choice.portNumber, Choice.threads, List.getLast?_cons]
  | port value =>
    simp [Settings.choose, Choice.directory, Choice.portNumber, Choice.threads, List.getLast?_cons]
  | concurrency value h =>
    simp [Settings.choose, Choice.directory, Choice.portNumber, Choice.threads, List.getLast?_cons]

/-- The loop over one option with its value. -/
theorem optionLoop_of_choice (choice : Choice) (rest : List Str) (o : Settings) :
    optionLoop (choice.args ++ rest) o = optionLoop rest (o.choose [choice]) := by
  cases choice with
  | files value =>
    rw [optionLoop.eq_def]
    exact if_pos rfl
  | port value =>
    rw [optionLoop.eq_def]
    exact (if_neg port_ne_files).trans (if_pos rfl)
  | concurrency value h =>
    rw [optionLoop.eq_def]
    refine (if_neg concurrency_ne_files).trans ((if_neg concurrency_ne_port).trans ?_)
    exact (if_pos rfl).trans (if_neg (by omega))

/-- **The loop over options with values.** -/
theorem optionLoop_of_choices (choices : List Choice) (rest : List Str) (o : Settings) :
    optionLoop (choices.flatMap Choice.args ++ rest) o = optionLoop rest (o.choose choices) := by
  induction choices generalizing o with
  | nil => rfl
  | cons choice choices ih =>
    rw [List.flatMap_cons, List.append_assoc, optionLoop_of_choice, ih, ← choose_cons]

/-- **The loop stops** at arguments that it cannot take, whatever the settings. -/
theorem optionLoop_of_blocked {args : List Str} {message : Str} (h : Blocked args message)
    (o : Settings) : optionLoop args o = .error message := by
  rw [optionLoop.eq_def]
  cases h with
  | files => exact if_pos rfl
  | port => exact (if_neg port_ne_files).trans (if_pos rfl)
  | concurrency =>
    exact (if_neg concurrency_ne_files).trans ((if_neg concurrency_ne_port).trans (if_pos rfl))
  | notPositive value rest h =>
    refine (if_neg concurrency_ne_files).trans ((if_neg concurrency_ne_port).trans ?_)
    exact (if_pos rfl).trans (if_pos h)
  | help rest =>
    refine (if_neg (by decide)).trans ((if_neg (by decide)).trans ?_)
    exact (if_neg (by decide)).trans (if_pos rfl)
  | unknown arg rest h =>
    simp only [List.mem_cons, List.not_mem_nil, or_false, not_or] at h
    simp only [if_neg h.1, if_neg h.2.1, if_neg h.2.2.1, if_neg h.2.2.2]

/-- A first argument is the first word of an option with its value, or the loop stops at it. -/
theorem choice_or_blocked (arg : Str) (args : List Str) :
    (∃ (choice : Choice) (rest : List Str), arg :: args = choice.args ++ rest) ∨
      ∃ message, Blocked (arg :: args) message := by
  by_cases h1 : arg = bytes "--files"
  · subst h1
    cases args with
    | nil => exact .inr ⟨_, .files⟩
    | cons value rest => exact .inl ⟨.files value, rest, rfl⟩
  by_cases h2 : arg = bytes "--port"
  · subst h2
    cases args with
    | nil => exact .inr ⟨_, .port⟩
    | cons value rest => exact .inl ⟨.port value, rest, rfl⟩
  by_cases h3 : arg = bytes "--concurrency"
  · subst h3
    cases args with
    | nil => exact .inr ⟨_, .concurrency⟩
    | cons value rest =>
      by_cases h : atoi value < 1
      · exact .inr ⟨_, .notPositive value rest h⟩
      · exact .inl ⟨.concurrency value (by omega), rest, rfl⟩
  by_cases h4 : arg = bytes "--help"
  · subst h4
    exact .inr ⟨_, .help args⟩
  · exact .inr ⟨_, .unknown arg args (by simp [h1, h2, h3, h4])⟩

/-- An option with its value is two arguments. -/
theorem length_args (choice : Choice) : choice.args.length = 2 := by
  cases choice <;> rfl

/-- Every list of arguments is options with values, up to its end or to where the loop stops. -/
theorem exists_choices (args : List Str) : ∃ (choices : List Choice) (rest : List Str),
    args = choices.flatMap Choice.args ++ rest ∧ (rest = [] ∨ ∃ message, Blocked rest message) := by
  -- an option and its value are taken off at once, so the induction is on the number of arguments
  induction hn : args.length using Nat.strong_induction_on generalizing args with
  | _ n ih =>
    cases args with
    | nil => exact ⟨[], [], rfl, .inl rfl⟩
    | cons arg args =>
      obtain ⟨choice, rest, heq⟩ | hblocked := choice_or_blocked arg args
      · have hlt : rest.length < n := by
          rw [← hn, heq, List.length_append, length_args]
          omega
        obtain ⟨choices, rest', rfl, hrest⟩ := ih _ hlt rest rfl
        exact ⟨choice :: choices, rest', by rw [heq, List.flatMap_cons, List.append_assoc], hrest⟩
      · exact ⟨[], arg :: args, rfl, .inr hblocked⟩

/-! ## The start of the server -/

theorem optionLoop_eq_choose (choices : List Choice) (o : Settings) :
    optionLoop (choices.flatMap Choice.args) o = .ok (o.choose choices) := by
  have h := optionLoop_of_choices choices [] o
  rwa [List.append_nil] at h

/-- **What the server prints if it does not start**: what blocks the loop, or that no directory is
named, and then the usage. -/
theorem serverMain_exits_iff (executableName : Str) (args : List Str) (stderr : Str) :
    serverMain executableName args = .exits stderr ↔
      ∃ (choices : List Choice) (rest : List Str) (message : Str),
        args = choices.flatMap Choice.args ++ rest ∧ stderr = message ++ usage executableName ∧
        (Blocked rest message ∨ rest = [] ∧ choices.filterMap Choice.directory = [] ∧
          message = bytes "Please specify \"--files [DIRECTORY]\"\n") := by
  constructor
  · intro h
    obtain ⟨choices, rest, rfl, rfl | ⟨message, hblocked⟩⟩ := exists_choices args
    · rw [List.append_nil, serverMain, optionLoop_eq_choose] at h
      cases hd : (choices.filterMap Choice.directory).getLast? with
      | none =>
        simp only [Settings.choose, Settings.default, hd, Option.none_or, Start.exits.injEq] at h
        exact ⟨choices, [], _, rfl, h.symm, .inr ⟨rfl, List.getLast?_eq_none_iff.mp hd, rfl⟩⟩
      | some d => simp [Settings.choose, Settings.default, hd] at h
    · rw [serverMain, optionLoop_of_choices, optionLoop_of_blocked hblocked, Start.exits.injEq] at h
      exact ⟨choices, rest, message, rfl, h.symm, .inl hblocked⟩
  · rintro ⟨choices, rest, message, rfl, rfl, hblocked | ⟨rfl, hd, rfl⟩⟩
    · rw [serverMain, optionLoop_of_choices, optionLoop_of_blocked hblocked]
    · rw [List.append_nil, serverMain, optionLoop_eq_choose]
      simp only [Settings.choose, Settings.default, hd, List.getLast?_nil, Option.none_or]

end SystemProgramming.HttpServer
