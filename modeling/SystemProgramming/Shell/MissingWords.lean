import SystemProgramming.Shell.Arguments
import SystemProgramming.Shell.GetCmd
import SystemProgramming.Shell.Tokenizer

/-!
# Missing words

`tokens_get_token` is `NULL` behind the last token. This file follows its results, and those of
`fopen`, through the body of the loop in `main`: what the parent and the child give to `strcmp`,
`strcat`, `strncpy`, `open`, `fopen` and `fscanf`, in the order of the calls.

* `loopCalls_noNull_iff`: the loop over the tokens passes a `NULL` on exactly at an operator without
  a target.
* `lineCalls_noNull_iff`: the other `NULL` is the command of a line without tokens.
-/

namespace SystemProgramming.Shell

open Lib

variable {φ : Type}

/-- A call, with the argument that comes from `tokens_get_token`, `fopen`, the array `a` or `PATH`.
`none` is `NULL`. -/
inductive PtrCall (φ : Type)
  | strcmp (s : Option Str)
  | strcat (s : Option Str)
  | strncpy (s : Option Str)
  | openPath (s : Option Str)
  | fopenPath (s : Option Str)
  | fscanf (fr : Option φ)

/-- The argument is `NULL`. -/
def PtrCall.isNull : PtrCall φ → Bool
  | strcmp s | strcat s | strncpy s | openPath s | fopenPath s => s.isNone
  | fscanf fr => fr.isNone

/-! ## The calls of a line -/

/-- What is done with the result of `fopen`: one `fscanf` for each word, and one that fails. -/
def readCalls : Option (φ × Str) → List (PtrCall φ)
  | none => []
  | some (fr, text) => List.replicate ((readWords text).length + 1) (.fscanf (some fr))

/-- The loop over the tokens from index `i` on. -/
def loopCalls (sys : Outcomes φ) (tokens : List Str) (i : Nat) : List (PtrCall φ) :=
  if i < tokens.length then
    let token := tokensGetToken tokens i
    .strcmp token ::
      if token = some (bytes ">") then
        .openPath (tokensGetToken tokens (i + 1)) :: loopCalls sys tokens (i + 2)
      else
        .strcmp token ::
          if token = some (bytes "<") then
            let readfile := tokensGetToken tokens (i + 1)
            .fopenPath readfile ::
              (readCalls (readfile.bind (sys.openIn i)) ++ loopCalls sys tokens (i + 2))
          else loopCalls sys tokens (i + 1)
  else []
  termination_by tokens.length - i

/-- `lookup`, over the entries of its table. -/
def lookupCalls (cmd : Option Str) : List (CmdFun × Str) → List (PtrCall φ)
  | [] => []
  | entry :: rest =>
    if cmd.isSome then .strcmp cmd :: if cmd = some entry.2 then [] else lookupCalls cmd rest
    else lookupCalls cmd rest

/-- `get_cmd`. For `NULL`, `access` is -1, and the search ends in its first `strcat`. -/
def getCmdCalls (access : Access) (token : Option Str) (path : Str) : List (PtrCall φ) :=
  match token with
  | some token =>
    (dirsTried access token path).flatMap fun d => [.strncpy (some d), .strcat (some token)]
  | none =>
    (reached 0 (pieces path)).head?.toList.flatMap fun d => [.strncpy (some d), .strcat none]

/-- `j==1 && strcmp(a[0],"cat")==0`. -/
def Vars.isCatCalls (v : Vars φ) : List (PtrCall φ) :=
  if v.a.length = 1 then v.a.map .strcmp else []

/-- The body of the loop in `main`, behind `tokenize`: the loop over the tokens, the command, then
the child and the parent. The functions of `cmd_table` make none of the calls. -/
def bodyCalls (sys : Outcomes φ) (access : Access) (path : Str) (savedStdout savedStdin : Nat)
    (garbage : Int) (table : Descriptors (OpenFile φ)) (tokens : List Str) : List (PtrCall φ) :=
  let v := redirected sys savedStdout savedStdin garbage tokens table
  let cmd := tokensGetToken tokens 0
  loopCalls sys tokens 0 ++ lookupCalls cmd cmdTable ++
    if v.valid && (lookup cmd).isNone then
      getCmdCalls access cmd path ++ v.isCatCalls ++ v.isCatCalls
    else []

/-- The calls for a line. There are none if `tokenize` aborts. -/
def lineCalls (sys : Outcomes φ) (access : Access) (path : Str) (savedStdout savedStdin : Nat)
    (garbage : Int) (table : Descriptors (OpenFile φ)) (fuel : Nat) (line : Str) :
    List (PtrCall φ) :=
  match tokenize fuel line with
  | some (.returned tokens) =>
    bodyCalls sys access path savedStdout savedStdin garbage table tokens
  | _ => []

/-- The line ends in an operator that has no target. -/
def endsInOperator : List Str → Bool
  | [] => false
  | [token] => token = bytes ">" || token = bytes "<"
  | token :: target :: rest =>
    if token = bytes ">" || token = bytes "<" then endsInOperator rest
    else endsInOperator (target :: rest)

/-! ## Where a `NULL` comes from -/

/-- **No call has a `NULL`.** -/
def NoNull (calls : List (PtrCall φ)) : Prop := ∀ call ∈ calls, call.isNull = false

variable {sys : Outcomes φ} {tokens : List Str} {calls calls' : List (PtrCall φ)}

theorem noNull_nil : NoNull ([] : List (PtrCall φ)) := fun _ h => absurd h List.not_mem_nil

theorem noNull_cons {call : PtrCall φ} :
    NoNull (call :: calls) ↔ call.isNull = false ∧ NoNull calls := List.forall_mem_cons

theorem noNull_append : NoNull (calls ++ calls') ↔ NoNull calls ∧ NoNull calls' :=
  List.forall_mem_append

theorem readCalls_noNull (fr : Option (φ × Str)) : NoNull (readCalls fr) := by
  cases fr with
  | none => exact noNull_nil
  | some opened => exact fun call h => List.eq_of_mem_replicate h ▸ rfl

theorem lookupCalls_noNull (cmd : Option Str) (entries : List (CmdFun × Str)) :
    NoNull (lookupCalls cmd entries : List (PtrCall φ)) := by
  induction entries with
  | nil => exact noNull_nil
  | cons entry rest ih =>
    rw [lookupCalls]
    split_ifs with hcmd heq
    · exact noNull_cons.mpr ⟨by simpa [PtrCall.isNull] using hcmd, noNull_nil⟩
    · exact noNull_cons.mpr ⟨by simpa [PtrCall.isNull] using hcmd, ih⟩
    · exact ih

/-- The words of `a` are all there. -/
theorem isCatCalls_noNull {v : Vars φ} {words : List Str} (ha : v.a = words.map some) :
    NoNull v.isCatCalls := by
  unfold Vars.isCatCalls
  split_ifs
  · rw [ha]
    intro call h
    obtain ⟨_, hs, rfl⟩ := List.mem_map.mp h
    obtain ⟨s, -, rfl⟩ := List.mem_map.mp hs
    rfl
  · exact noNull_nil

/-- `get_cmd` appends a `NULL` if it gets one and has a directory to look into. -/
theorem getCmdCalls_noNull_iff (access : Access) (token : Option Str) (path : Str) :
    NoNull (getCmdCalls access token path : List (PtrCall φ)) ↔
      (token = none → reached 0 (pieces path) = []) := by
  cases token with
  | some token =>
    refine iff_of_true (fun call h => ?_) nofun
    obtain ⟨d, -, hd⟩ := List.mem_flatMap.mp h
    obtain rfl | rfl : call = .strncpy (some d) ∨ call = .strcat (some token) := by
      simpa using hd
    · rfl
    · rfl
  | none =>
    rw [imp_iff_right rfl]
    unfold getCmdCalls
    cases reached 0 (pieces path) with
    | nil => exact iff_of_true noNull_nil rfl
    | cons d ds => exact iff_of_false (fun h => Bool.noConfusion (h (.strcat none) (by simp))) nofun

/-- One round of the loop. -/
theorem loopCalls_eq {i : Nat} {token : Str} {rest : List Str}
    (h : tokens.drop i = token :: rest) : loopCalls sys tokens i =
      .strcmp (some token) ::
        if token = bytes ">" then .openPath rest.head? :: loopCalls sys tokens (i + 2)
        else
          .strcmp (some token) ::
            if token = bytes "<" then .fopenPath rest.head? ::
              (readCalls (rest.head?.bind (sys.openIn i)) ++ loopCalls sys tokens (i + 2))
            else loopCalls sys tokens (i + 1) := by
  have hi : i < tokens.length := by
    by_contra hle
    rw [List.drop_eq_nil_of_le (Nat.not_lt.mp hle)] at h
    exact absurd h.symm (List.cons_ne_nil _ _)
  have htoken : tokensGetToken tokens i = some token := by
    rw [tokensGetToken, ← List.head?_drop, h]
    rfl
  have htarget : tokensGetToken tokens (i + 1) = rest.head? := by
    rw [tokensGetToken, ← List.head?_drop, ← List.tail_drop, h]
    rfl
  rw [loopCalls, if_pos hi, htoken, htarget]
  simp only [Option.some.injEq]

theorem drop_succ_of_drop {i : Nat} {token : Str} {rest : List Str}
    (h : tokens.drop i = token :: rest) : tokens.drop (i + 1) = rest := by
  rw [← List.tail_drop, h, List.tail_cons]

/-- **The loop** passes a `NULL` on exactly if its last token is an operator without a target. -/
theorem loopCalls_noNull_iff (rest : List Str) : ∀ i, tokens.drop i = rest →
    (NoNull (loopCalls sys tokens i) ↔ endsInOperator rest = false) := by
  induction rest using endsInOperator.induct with
  | case1 =>
    intro i h
    rw [loopCalls, if_neg (Nat.not_lt.mpr (List.drop_eq_nil_iff.mp h))]
    exact iff_of_true noNull_nil rfl
  | case2 token =>
    intro i h
    have hend : NoNull (loopCalls sys tokens (i + 1)) := by
      rw [loopCalls, if_neg (Nat.not_lt.mpr (List.drop_eq_nil_iff.mp (drop_succ_of_drop h)))]
      exact noNull_nil
    rw [loopCalls_eq h, endsInOperator, noNull_cons]
    split_ifs with hout hin
    · simp [noNull_cons, PtrCall.isNull, hout]
    · simp [noNull_cons, PtrCall.isNull, hin]
    · simp [noNull_cons, PtrCall.isNull, hout, hin, hend]
  | case3 token target rest hop ih =>
    intro i h
    have hrest := ih (i + 2) (drop_succ_of_drop (drop_succ_of_drop h))
    rw [loopCalls_eq h, endsInOperator, if_pos hop, ← hrest, noNull_cons]
    split_ifs with hout hin
    · simp [noNull_cons, PtrCall.isNull]
    · simp [noNull_cons, noNull_append, PtrCall.isNull, readCalls_noNull]
    · exact absurd hop (by simp [hout, hin])
  | case4 token target rest hop ih =>
    intro i h
    have hrest := ih (i + 1) (drop_succ_of_drop h)
    obtain ⟨hout, hin⟩ : token ≠ bytes ">" ∧ token ≠ bytes "<" := by simpa using hop
    rw [loopCalls_eq h, endsInOperator, if_neg hop, ← hrest, if_neg hout, if_neg hin]
    simp [noNull_cons, PtrCall.isNull]

variable {access : Access} {path : Str} {savedStdout savedStdin : Nat} {garbage : Int}
  {table : Descriptors (OpenFile φ)}

/-- The calls behind `tokenize`. -/
theorem bodyCalls_noNull_iff :
    NoNull (bodyCalls sys access path savedStdout savedStdin garbage table tokens) ↔
      endsInOperator tokens = false ∧ (tokens = [] → reached 0 (pieces path) = []) := by
  have ha : (redirected sys savedStdout savedStdin garbage tokens table).a =
      (argumentVector sys tokens).map some := redirected_a
  have hcat := isCatCalls_noNull ha
  have hloop : NoNull (loopCalls sys tokens 0) ↔ endsInOperator tokens = false :=
    loopCalls_noNull_iff tokens 0 rfl
  unfold bodyCalls
  dsimp only
  rw [noNull_append, noNull_append, hloop, and_iff_left (lookupCalls_noNull _ _)]
  refine and_congr_right fun _ => ?_
  cases tokens with
  | nil =>
    rw [if_pos (by rfl), noNull_append, noNull_append, and_iff_left hcat, and_iff_left hcat,
      getCmdCalls_noNull_iff]
    exact imp_congr_left (iff_of_true rfl rfl)
  | cons token rest =>
    refine iff_of_true ?_ nofun
    split_ifs
    · rw [noNull_append, noNull_append, and_iff_left hcat, and_iff_left hcat,
        getCmdCalls_noNull_iff]
      nofun
    · exact noNull_nil

/-- **No `NULL` is passed on** for a line exactly if its tokens do not end in an operator without a
target, and, if it has no tokens, `PATH` has no directory to look into. -/
theorem lineCalls_noNull_iff (sys : Outcomes φ) (access : Access) (path : Str)
    (savedStdout savedStdin : Nat) (garbage : Int) (table : Descriptors (OpenFile φ)) (fuel : Nat)
    (line : Str) :
    NoNull (lineCalls sys access path savedStdout savedStdin garbage table fuel line) ↔
      ∀ tokens, tokenize fuel line = some (.returned tokens) →
        endsInOperator tokens = false ∧ (tokens = [] → reached 0 (pieces path) = []) := by
  unfold lineCalls
  split
  · rename_i tokens h
    rw [bodyCalls_noNull_iff]
    constructor
    · rintro hb tokens' h'
      obtain rfl : tokens = tokens' := by simpa using h.symm.trans h'
      exact hb
    · exact fun hb => hb tokens h
  · rename_i h
    exact iff_of_true noNull_nil fun tokens htokens => absurd htokens (h tokens)

/-- A blank line: the child gives `NULL` to `strcat`. -/
theorem lineCalls_blank :
    ¬ (∀ (sys : Outcomes Unit) (access : Access) (path : Str) (savedStdout savedStdin : Nat)
        (garbage : Int) (table : Descriptors (OpenFile Unit)) (fuel : Nat) (line : Str),
      NoNull (lineCalls sys access path savedStdout savedStdin garbage table fuel line)) ∧
    lineCalls ⟨fun _ _ => none, fun _ _ => none⟩ (fun _ _ => false) (bytes "/bin") 4 3 0
      (.ofList (List.replicate 5 (.other ()))) 2 (bytes "\n") =
        [.strncpy (some (bytes "/bin")), .strcat none] := by
  have hrun : lineCalls ⟨fun _ _ => none, fun _ _ => none⟩ (fun _ _ => false) (bytes "/bin") 4 3 0
      (.ofList (List.replicate 5 (.other ()))) 2 (bytes "\n") =
        [.strncpy (some (bytes "/bin")), .strcat none] := by
    have htokens : tokenize 2 (bytes "\n") = some (.returned []) := by decide
    rw [lineCalls, htokens]
    dsimp only
    rw [bodyCalls, loopCalls]
    rfl
  refine ⟨fun hclaim => ?_, hrun⟩
  have h := hclaim ⟨fun _ _ => none, fun _ _ => none⟩ (fun _ _ => false) (bytes "/bin") 4 3 0
      (.ofList (List.replicate 5 (.other ()))) 2 (bytes "\n")
  rw [hrun] at h
  exact Bool.noConfusion (h (.strcat none) (by simp))

end SystemProgramming.Shell
