import SystemProgramming.Shell.CommandLine

/-!
# The argument vector

What the shell hands to a program. `argumentVector` is the specification: the words of the line,
with the words of a `'<'` file in the place of the operator.

* `run_a`, `loop_a`: the loop puts exactly these words into `a`.
* `loop_inBounds`: it stays inside `a` if the line has room for them.
* `runChild_right_iff`: nobody puts a `NULL` behind them, so the vector is right for the one line
  whose vector `execl` spells out.
-/

namespace SystemProgramming.Shell

open Lib

variable {φ : Type} {sys : Outcomes φ}

/-- What an item adds to the vector: a word itself, a `'<'` operator the words of its file. -/
def Item.arguments (sys : Outcomes φ) : Item → List Str
  | word s => [s]
  | output _ _ => []
  | input i target => match target.bind (sys.openIn i) with
    | none => []
    | some (_, text) => (spaceWords text).map cString

/-- **The argument vector of a line**, without the `NULL`. -/
def argumentVector (sys : Outcomes φ) (tokens : List Str) : List Str :=
  (items 0 tokens).flatMap (Item.arguments sys)

/-! ## The loop -/

theorem splice_cons (v : Vars φ) (w : Str) (words : List Str) :
    splice v (w :: words) = splice (v.grow.put (some (cString w))) words := rfl

theorem splice_a (words : List Str) (v : Vars φ) :
    (splice v words).a = v.a ++ words.map fun w => some (cString w) := by
  induction words generalizing v with
  | nil => simp [splice]
  | cons w words ih =>
    have hgrow : v.grow.a = v.a := by
      unfold Vars.grow
      split_ifs <;> rfl
    rw [splice_cons, ih]
    simp [Vars.put, hgrow]

theorem arguments_input_none {i : Nat} {target : Option Str}
    (h : target.bind (sys.openIn i) = none) : (Item.input i target).arguments sys = [] := by
  rw [Item.arguments, h]

theorem arguments_input_some {i : Nat} {target : Option Str} {f : φ} {text : Str}
    (h : target.bind (sys.openIn i) = some (f, text)) :
    (Item.input i target).arguments sys = (spaceWords text).map cString := by
  rw [Item.arguments, h]

/-- **An item** puts its words at the end of `a`. -/
theorem run_a (item : Item) (v : Vars φ) :
    (item.run sys v).a = v.a ++ (item.arguments sys).map some := by
  cases item with
  | word s => rfl
  | output i target =>
    rw [Item.arguments, List.map_nil, List.append_nil, Item.run]
    cases h : target.bind (sys.openOut i) with
    | none => rw [openOutput_none h]
    | some f => rw [openOutput_some h]
  | input i target =>
    rw [Item.run]
    cases h : target.bind (sys.openIn i) with
    | none => rw [openInput_none h, arguments_input_none h, List.map_nil, List.append_nil]
    | some opened =>
      rw [openInput_some h, arguments_input_some h, List.map_map, readWords_eq]
      exact splice_a _ v

/-- **The loop** puts the words of the line into `a`. -/
theorem loop_a (items : List Item) (v : Vars φ) :
    (items.foldl (fun v item => item.run sys v) v).a =
      v.a ++ (items.flatMap (Item.arguments sys)).map some := by
  induction items generalizing v with
  | nil => simp
  | cons item items ih =>
    rw [List.foldl_cons, ih, run_a, List.flatMap_cons, List.map_append, List.append_assoc]

/-- `n` more words have room. -/
def Vars.Room (v : Vars φ) (n : Nat) : Prop := v.inBounds = true ∧ v.a.length + n ≤ v.l

theorem put_room {v : Vars φ} {n : Nat} (h : v.Room (n + 1)) (word : Option Str) :
    (v.put word).Room n := by
  obtain ⟨hin, hle⟩ := h
  refine ⟨?_, ?_⟩
  · simp only [Vars.put, hin, Bool.true_and, decide_eq_true_eq]
    omega
  · simp only [Vars.put, List.length_append, List.length_singleton]
    omega

theorem splice_room (words : List Str) {v : Vars φ} {n : Nat} (h : v.Room (words.length + n)) :
    (splice v words).Room n := by
  induction words generalizing v with
  | nil => simpa [splice] using h
  | cons w words ih =>
    obtain ⟨hin, hle⟩ := h
    rw [List.length_cons] at hle
    have hgrow : v.grow = v := if_neg (by omega)
    rw [splice_cons, hgrow]
    exact ih (put_room ⟨hin, by omega⟩ _)

/-- An item keeps room for the words behind it. -/
theorem run_room (item : Item) {v : Vars φ} {n : Nat}
    (h : v.Room ((item.arguments sys).length + n)) : (item.run sys v).Room n := by
  cases item with
  | word s => exact put_room (by rwa [Item.arguments, List.length_singleton, Nat.add_comm] at h) _
  | output i target =>
    rw [Item.arguments, List.length_nil, Nat.zero_add] at h
    rw [Item.run]
    cases ho : target.bind (sys.openOut i) with
    | none => rwa [openOutput_none ho]
    | some f => rwa [openOutput_some ho]
  | input i target =>
    rw [Item.run]
    cases ho : target.bind (sys.openIn i) with
    | none =>
      rw [arguments_input_none ho, List.length_nil, Nat.zero_add] at h
      rwa [openInput_none ho]
    | some opened =>
      rw [arguments_input_some ho, List.length_map, ← readWords_eq] at h
      rw [openInput_some ho]
      exact splice_room _ h

/-- **The loop stays inside `a`** if the line has room for its words. -/
theorem loop_room (items : List Item) {v : Vars φ}
    (h : v.Room (items.flatMap (Item.arguments sys)).length) :
    (items.foldl (fun v item => item.run sys v) v).inBounds = true := by
  induction items generalizing v with
  | nil => exact h.1
  | cons item items ih =>
    rw [List.flatMap_cons, List.length_append] at h
    exact ih (run_room item h)

/-! ## The child -/

/-- **The vector is right**: it is the vector of the line with a `NULL` behind it inside the
allocation, which no write has left, and the program searched for is its first element. -/
structure RightVector (sys : Outcomes φ) (tokens : List Str) (child : Child φ) : Prop where
  in_bounds : child.inBounds = true
  vector : (argumentVector sys tokens).map some ++ [none] <+: child.handed
  searched : child.handed.head? = some child.searched

variable {tokens : List Str} {savedStdout savedStdin : Nat} {garbage : Int}
  {table table' : Descriptors (OpenFile φ)} {child : Child φ}

/-- What `a` holds at the command. -/
theorem redirected_a : (redirected sys savedStdout savedStdin garbage tokens table).a =
    (argumentVector sys tokens).map some := by
  unfold redirected argumentVector
  dsimp only
  rw [tokenLoop_eq_foldl, loop_a, startVars, List.nil_append]

theorem redirected_inBounds (h : (argumentVector sys tokens).length ≤ tokens.length) :
    (redirected sys savedStdout savedStdin garbage tokens table).inBounds = true := by
  unfold redirected
  dsimp only
  rw [tokenLoop_eq_foldl]
  exact loop_room _ ⟨rfl, (Nat.zero_add _).trans_le h⟩

/-- The child of a line, from the variables at the command. -/
theorem lineBody_child
    (h : lineBody sys savedStdout savedStdin garbage tokens table = .done table' (some child)) :
    ∃ v tube, v.a = (argumentVector sys tokens).map some ∧
      v.inBounds = (redirected sys savedStdout savedStdin garbage tokens table).inBounds ∧
      child = runChild tokens v tube := by
  have ha : (redirected sys savedStdout savedStdin garbage tokens table).a =
      (argumentVector sys tokens).map some := redirected_a
  unfold lineBody at h
  generalize redirected sys savedStdout savedStdin garbage tokens table = v at h ha ⊢
  dsimp only at h
  split at h
  · split at h
    · exact absurd h (by simp)
    · exact absurd h (by simp)
    · obtain ⟨-, hchild⟩ := BodyResult.done.inj h
      exact ⟨{ v with table := (v.table.pipe .tubeRead .tubeWrite).2 }, _, ha, rfl,
        (Option.some.inj hchild).symm⟩
  · exact absurd h (by simp)

theorem isCat_iff {v : Vars φ} {words : List Str} (ha : v.a = words.map some) :
    v.isCat = true ↔ words = [bytes "cat"] := by
  rw [Vars.isCat, ha, beq_iff_eq]
  exact (List.map_injective_iff.mpr fun _ _ => Option.some.inj).eq_iff (b := [bytes "cat"])

/-- **The vector is right for exactly one kind of line**: its only word is `cat`, and this is its
first token. -/
theorem lineBody_right_iff
    (h : lineBody sys savedStdout savedStdin garbage tokens table = .done table' (some child)) :
    RightVector sys tokens child ↔
      argumentVector sys tokens = [bytes "cat"] ∧ tokens.head? = some (bytes "cat") := by
  obtain ⟨v, tube, ha, hin, rfl⟩ := lineBody_child h
  by_cases hcat : argumentVector sys tokens = [bytes "cat"]
  · have hc : v.isCat = true := (isCat_iff ha).mpr hcat
    have hsearched : (runChild tokens v tube).searched = tokens.head? := by
      rw [runChild, if_pos hc, List.head?_eq_getElem?]
      rfl
    have hhanded : (runChild tokens v tube).handed = [some (bytes "cat"), none] := by
      rw [runChild, if_pos hc]
    constructor
    · intro hr
      have := hr.searched
      rw [hhanded, hsearched] at this
      exact ⟨hcat, (Option.some.inj this).symm⟩
    · rintro ⟨-, hhead⟩
      refine ⟨?_, ?_, ?_⟩
      · rw [runChild, if_pos hc]
        refine hin.trans (redirected_inBounds ?_)
        rw [hcat]
        exact List.length_pos_iff.mpr (by rintro rfl; exact absurd hhead (by simp))
      · rw [hhanded, hcat]
        exact List.prefix_rfl
      · rw [hhanded, hsearched, hhead]
        rfl
  · -- `execv` gets `a`, whose places are all taken by words
    have hc : ¬ v.isCat = true := fun hc => hcat ((isCat_iff ha).mp hc)
    refine iff_of_false (fun hr => ?_) fun hr => hcat hr.1
    have hlen := hr.vector.length_le
    have hhanded : (runChild tokens v tube).handed = v.a := by rw [runChild, if_neg hc]
    rw [hhanded, ha, List.length_append, List.length_singleton] at hlen
    omega

/-- The line `cat > out`, when `out` opens. -/
theorem lineBody_right_iff_cat :
    (∃ table' child, lineBody ⟨fun _ _ => some (), fun _ _ => none⟩ 4 3 0
        [bytes "cat", bytes ">", bytes "out"] (.ofList (List.replicate 5 (.other ()))) =
          .done table' (some child) ∧
      (RightVector ⟨fun _ _ => some (), fun _ _ => none⟩ [bytes "cat", bytes ">", bytes "out"]
          child ↔
        argumentVector ⟨fun _ _ => some (), fun _ _ => none⟩
            [bytes "cat", bytes ">", bytes "out"] = [bytes "cat"] ∧
          [bytes "cat", bytes ">", bytes "out"].head? = some (bytes "cat"))) :=
  ⟨_, _, rfl, lineBody_right_iff rfl⟩

/-- The line `ls`: `execv` gets an array of one place, with no `NULL` in it. -/
theorem lineBody_no_null :
    ¬ (∀ (sys : Outcomes Unit) (savedStdout savedStdin : Nat) (garbage : Int) (tokens : List Str)
        (table table' : Descriptors (OpenFile Unit)) (child : Child Unit), tokens ≠ [] →
      lineBody sys savedStdout savedStdin garbage tokens table = .done table' (some child) →
        RightVector sys tokens child) ∧
    ∃ table' child, lineBody ⟨fun _ _ => none, fun _ _ => none⟩ 4 3 0 [bytes "ls"]
        (.ofList (List.replicate 5 (.other ()))) = .done table' (some child) ∧
      child.searched = some (bytes "ls") ∧ child.handed = [some (bytes "ls")] := by
  have hrun : ∃ table' child, lineBody ⟨fun _ _ => none, fun _ _ => none⟩ 4 3 0 [bytes "ls"]
        (.ofList (List.replicate 5 (.other ()))) = .done table' (some child) ∧
      child.searched = some (bytes "ls") ∧ child.handed = [some (bytes "ls")] :=
    ⟨_, _, rfl, rfl, rfl⟩
  refine ⟨fun hclaim => ?_, hrun⟩
  obtain ⟨table', child, hbody, -, hhanded⟩ := hrun
  have hvector := (hclaim _ _ _ _ _ _ _ _ (by simp) hbody).vector.length_le
  rw [hhanded, List.length_append] at hvector
  exact absurd hvector (by decide)

end SystemProgramming.Shell
