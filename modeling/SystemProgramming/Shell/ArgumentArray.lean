import SystemProgramming.Lib.Growth
import SystemProgramming.Shell.Arguments

/-!
# The allocation of the argument vector

The loop over the tokens once more, with `a` as what `malloc` and `realloc` have made of it: `l` is
an `int`, so doubling it can overflow.

* `storeLoop_eq_foldl`: the loop stores the words of the line one by one.
* `stored_inBounds_iff`: when they all fit.
* `argArray_inBounds_iff`: a line stays inside `a` exactly if a word of a file comes first into each
  size that `a` grows to.
* `redirected_inBounds_eq`: the loop of `CommandLine` agrees as long as `l` does not overflow.
-/

namespace SystemProgramming.Shell

open Lib

/-- The allocation `a`: `l` places, of which `j` have been written. `inBounds` says whether all
writes were to one of them. -/
structure ArgArray where
  l : Int
  j : Nat
  inBounds : Bool

namespace ArgArray

/-- `a[j++] = word`. -/
def put (a : ArgArray) : ArgArray :=
  { a with j := a.j + 1, inBounds := a.inBounds && decide ((a.j : Int) < a.l) }

/-- `if (j>=l)`: `l *= 2`, and `realloc`. -/
def grow (a : ArgArray) : ArgArray := if a.l ≤ a.j then { a with l := toCInt (2 * a.l) } else a

/-- The branch of `"<"`: every word that `fscanf` reads makes room for itself. -/
def readFile (a : ArgArray) (words : List Str) : ArgArray :=
  words.foldl (fun a _ => a.grow.put) a

end ArgArray

variable {φ : Type}

/-- The branch of `"<"`, with the result of `fopen`. -/
def storeInput (sys : Outcomes φ) (i : Nat) (readfile : Option Str) (a : ArgArray) : ArgArray :=
  match readfile.bind (sys.openIn i) with
  | none => a
  | some (_, text) => a.readFile (readWords text)

/-- The loop over the tokens from index `i` on. The branch of `">"` stores nothing. -/
def storeLoop (sys : Outcomes φ) : Nat → List Str → ArgArray → ArgArray
  | _, [], a => a
  | i, [token], a =>
    if token = bytes ">" then a
    else if token = bytes "<" then storeInput sys i none a
    else a.put
  | i, token :: target :: rest, a =>
    if token = bytes ">" then storeLoop sys (i + 2) rest a
    else if token = bytes "<" then storeLoop sys (i + 2) rest (storeInput sys i (some target) a)
    else storeLoop sys (i + 1) (target :: rest) a.put

/-- The allocation behind the loop of a line: `malloc` makes a place for each token. -/
def argArray (sys : Outcomes φ) (tokens : List Str) : ArgArray :=
  storeLoop sys 0 tokens ⟨toCInt tokens.length, 0, true⟩

/-! ## The words of a line, one by one -/

/-- Storing a word, which is from a file or from the line. -/
def ArgArray.store (a : ArgArray) (fromFile : Bool) : ArgArray :=
  if fromFile then a.grow.put else a.put

/-- Whether the words of an item are from a file. -/
def Item.isInput : Item → Bool
  | input _ _ => true
  | _ => false

/-- For each word that items add to the vector, whether it is from a file. -/
def origins (sys : Outcomes φ) (items : List Item) : List Bool :=
  items.flatMap fun item => (item.arguments sys).map fun _ => item.isInput

variable {sys : Outcomes φ}

theorem origins_cons (item : Item) (items : List Item) : origins sys (item :: items) =
    ((item.arguments sys).map fun _ => item.isInput) ++ origins sys items := rfl

theorem origins_word (s : Str) (items : List Item) :
    origins sys (.word s :: items) = false :: origins sys items := rfl

theorem origins_output (i : Nat) (target : Option Str) (items : List Item) :
    origins sys (.output i target :: items) = origins sys items := rfl

theorem readFile_eq_foldl (words : List Str) (a : ArgArray) :
    a.readFile words = (words.map fun _ => true).foldl ArgArray.store a := by
  rw [List.foldl_map]
  rfl

theorem storeInput_eq_foldl (i : Nat) (target : Option Str) (a : ArgArray) :
    storeInput sys i target a =
      (((Item.input i target).arguments sys).map fun _ => true).foldl ArgArray.store a := by
  rw [storeInput]
  cases h : target.bind (sys.openIn i) with
  | none => rw [arguments_input_none h]; rfl
  | some opened =>
    rw [arguments_input_some h, List.map_map, ← readWords_eq]
    exact readFile_eq_foldl _ a

/-- **The loop stores the words** one by one. -/
theorem storeLoop_eq_foldl (i : Nat) (tokens : List Str) (a : ArgArray) :
    storeLoop sys i tokens a = (origins sys (items i tokens)).foldl ArgArray.store a := by
  induction i, tokens using items.induct generalizing a with
  | case1 i => rfl
  | case2 i => rfl
  | case3 i h =>
    rw [storeLoop, items, if_neg h, if_neg h, if_pos rfl, if_pos rfl, storeInput_eq_foldl,
      origins_cons, origins, List.flatMap_nil, List.append_nil]
    rfl
  | case4 i token h1 h2 =>
    rw [storeLoop, items, if_neg h1, if_neg h1, if_neg h2, if_neg h2]
    rfl
  | case5 i target rest ih =>
    rw [storeLoop, items, if_pos rfl, if_pos rfl, origins_output, ih]
  | case6 i target rest h ih =>
    rw [storeLoop, items, if_neg h, if_neg h, if_pos rfl, if_pos rfl, ih, origins_cons,
      List.foldl_append, storeInput_eq_foldl]
    rfl
  | case7 i token target rest h1 h2 ih =>
    rw [storeLoop, items, if_neg h1, if_neg h1, if_neg h2, if_neg h2, ih, origins_word]
    rfl

/-! ## When all words fit -/

/-- **Each size is left by a word of a file**, and the next size is an `int`. -/
def GrowsInTime (n : Nat) (words : List Bool) : Prop :=
  ∀ i, doubled n i < words.length →
    words[doubled n i]? = some true ∧ doubled n (i + 1) ≤ cIntMax

variable {n : Nat} {words : List Bool}

/-- A word that is stored at an index needs the places up to it. The room is looked at before a
word of a file. -/
def demandAt (j : Nat) (fromFile : Bool) : Demand :=
  ⟨j + 1, if fromFile then some (j + 1) else none⟩

/-- What the words need of the allocation. -/
def demands (words : List Bool) : List Demand := words.mapIdx demandAt

theorem demands_append (b : Bool) :
    demands (words ++ [b]) = demands words ++ [demandAt words.length b] := List.mapIdx_concat

theorem store_eq_demand (b : Growing) (j : Nat) (fromFile : Bool) :
    ArgArray.store ⟨b.size, j, b.inBounds⟩ fromFile = ⟨(b.demand (demandAt j fromFile)).size, j + 1,
      (b.demand (demandAt j fromFile)).inBounds⟩ := by
  have hput : ∀ l : Int, ArgArray.put ⟨l, j, b.inBounds⟩ =
      ⟨l, j + 1, b.inBounds && decide (((j + 1 : Nat) : Int) ≤ l)⟩ := fun l => by
    rw [ArgArray.put, decide_eq_decide.mpr (by omega : (j : Int) < l ↔ ((j + 1 : Nat) : Int) ≤ l)]
  rw [Growing.inBounds_demand]
  cases fromFile with
  | false =>
    have hsize : (b.demand (demandAt j false)).size = b.size := by
      rw [Growing.demand, if_neg]
      rintro ⟨s, hs, -⟩
      exact absurd hs (by simp [demandAt])
    rw [hsize]
    exact hput b.size
  | true =>
    have hgrow : ArgArray.grow ⟨b.size, j, b.inBounds⟩ =
        ⟨(b.demand (demandAt j true)).size, j, b.inBounds⟩ := by
      rw [ArgArray.grow, Growing.demand]
      by_cases hfull : b.size ≤ j
      · rw [if_pos hfull, if_pos ⟨j + 1, rfl, by omega⟩]
      · rw [if_neg hfull, if_neg]
        rintro ⟨s, hs, hlt⟩
        obtain rfl := Option.mem_some_iff.mp hs
        omega
    rw [ArgArray.store, if_pos rfl, hgrow]
    exact hput _

/-- **The stores** are uses of a buffer that doubles. -/
theorem stored_eq (words : List Bool) : words.foldl ArgArray.store ⟨n, 0, true⟩ =
    ⟨((demands words).foldl Growing.demand ⟨n, true⟩).size, words.length,
      ((demands words).foldl Growing.demand ⟨n, true⟩).inBounds⟩ := by
  induction words using List.reverseRecOn with
  | nil => rfl
  | append_singleton words b ih =>
    rw [List.foldl_append, List.foldl_cons, List.foldl_nil, ih, store_eq_demand, demands_append,
      List.foldl_append, List.foldl_cons, List.foldl_nil, List.length_append]
    rfl

/-- The first word that needs more than `m` places is the one at index `m`. -/
theorem find?_demands (m : Nat) : (demands words).find? (fun d => decide (m < d.need)) =
    words[m]?.map (demandAt m) := by
  induction words using List.reverseRecOn with
  | nil => rfl
  | append_singleton words b ih =>
    rw [demands_append, List.find?_append, ih, List.find?_singleton]
    obtain hlt | rfl | hgt := lt_trichotomy m words.length
    · rw [List.getElem?_append_left hlt, List.getElem?_eq_getElem hlt]
      rfl
    · rw [List.getElem?_concat_length, List.getElem?_eq_none (Nat.le_refl _)]
      simp [demandAt]
    · have hneed : ¬ m < (demandAt words.length b).need := Nat.not_lt.mpr hgt
      have hlen : (words ++ [b]).length ≤ m := by
        rw [List.length_append]
        exact hgt
      rw [List.getElem?_eq_none hgt.le, List.getElem?_eq_none hlen, decide_eq_false hneed]
      rfl

theorem inTime_demands_iff (hn : 0 < n) : InTime n (demands words) ↔ GrowsInTime n words := by
  have hmet : ∀ i b, Met n i (demandAt (doubled n i) b) ↔
      b = true ∧ doubled n (i + 1) ≤ cIntMax := fun i b => by
    have hlt : doubled n i < doubled n (i + 1) := doubled_strictMono hn (Nat.lt_succ_self i)
    constructor
    · rintro ⟨⟨s, hs, -⟩, -, hmax⟩
      cases b with
      | false => exact absurd hs (by simp [demandAt])
      | true => exact ⟨rfl, hmax⟩
    · rintro ⟨rfl, hmax⟩
      exact ⟨⟨_, rfl, Nat.lt_succ_self _⟩, hlt, hmax⟩
  constructor
  · intro h i hi
    have hfind := (find?_demands (doubled n i)).trans
      (congrArg (Option.map _) (List.getElem?_eq_getElem hi))
    obtain ⟨hb, hmax⟩ := (hmet i _).mp (h i _ hfind)
    exact ⟨by rw [List.getElem?_eq_getElem hi, hb], hmax⟩
  · intro h i d hd
    rw [find?_demands, Option.map_eq_some_iff] at hd
    obtain ⟨b, hb, rfl⟩ := hd
    obtain ⟨hfile, hmax⟩ := h i (List.getElem?_eq_some_iff.mp hb).1
    exact (hmet i b).mpr ⟨Option.some.inj (hb.symm.trans hfile), hmax⟩

/-- **Words fit** exactly if each size is left in time. -/
theorem stored_inBounds_iff (hn : 0 < n) (hmax : n ≤ cIntMax) (words : List Bool) :
    (words.foldl ArgArray.store ⟨n, 0, true⟩).inBounds = true ↔ GrowsInTime n words := by
  rw [stored_eq, ← inTime_demands_iff hn]
  refine Growing.inBounds_iff hn hmax _ fun d hd s hs => ?_
  obtain ⟨j, hj, rfl⟩ := List.mem_mapIdx.mp hd
  rw [demandAt] at hs ⊢
  cases words[j] <;> simp_all

/-- **The stores of a line stay inside `a`** exactly if, whenever `a` is full, the next word is one
of a file, and twice the size is an `int`. -/
theorem argArray_inBounds_iff (sys : Outcomes φ) (tokens : List Str)
    (hlen : tokens.length ≤ cIntMax) : (argArray sys tokens).inBounds = true ↔
      GrowsInTime tokens.length (origins sys (items 0 tokens)) := by
  rw [argArray, storeLoop_eq_foldl, toCInt_of_le hlen]
  cases tokens with
  | nil => exact iff_of_true rfl fun i hi => absurd hi (Nat.not_lt_zero _)
  | cons token rest => exact stored_inBounds_iff (Nat.succ_pos _) hlen _

/-- The line `cat < f`, where `f` has two words. -/
theorem argArray_inBounds_iff_cat :
    [bytes "cat", bytes "<", bytes "f"].length ≤ cIntMax ∧
    ((argArray ⟨fun _ _ => none, fun _ _ => some ((), bytes "x y")⟩
        [bytes "cat", bytes "<", bytes "f"]).inBounds = true ↔
      GrowsInTime 3 (origins ⟨fun _ _ => none, fun _ _ => some ((), bytes "x y")⟩
        (items 0 [bytes "cat", bytes "<", bytes "f"]))) :=
  ⟨by decide, argArray_inBounds_iff _ _ (by decide)⟩

/-- The line `cat < f b`, where `f` has three words: `b` is written behind the four places. -/
theorem argArray_overruns :
    ¬ (∀ (sys : Outcomes Unit) (tokens : List Str), tokens.length ≤ cIntMax →
      (argArray sys tokens).inBounds = true) ∧
    argArray ⟨fun _ _ => none, fun _ _ => some ((), bytes "x y z")⟩
      [bytes "cat", bytes "<", bytes "f", bytes "b"] = ⟨4, 5, false⟩ := by
  have hrun : argArray ⟨fun _ _ => none, fun _ _ => some ((), bytes "x y z")⟩
      [bytes "cat", bytes "<", bytes "f", bytes "b"] = ⟨4, 5, false⟩ := by
    rw [argArray, storeLoop_eq_foldl]
    rfl
  refine ⟨fun hclaim => ?_, hrun⟩
  have h := hclaim _ _ (by decide) |>.symm.trans (congrArg ArgArray.inBounds hrun)
  exact absurd h (by decide)

/-! ## The loop without overflow -/

/-- The variables of the loop and the allocation agree. -/
structure Agrees (v : Vars φ) (a : ArgArray) : Prop where
  l : a.l = v.l
  j : a.j = v.a.length
  inBounds : a.inBounds = v.inBounds

variable {v : Vars φ} {a : ArgArray}

theorem Agrees.put (h : Agrees v a) (word : Option Str) : Agrees (v.put word) a.put := by
  refine ⟨h.l, ?_, ?_⟩
  · simp only [ArgArray.put, Vars.put, List.length_append, List.length_singleton, h.j]
  · simp only [ArgArray.put, Vars.put, h.l, h.j, h.inBounds, Int.ofNat_lt]

theorem Agrees.grow (h : Agrees v a) (hmax : 2 * v.a.length ≤ cIntMax) : Agrees v.grow a.grow := by
  by_cases hfull : v.l ≤ v.a.length
  · have hv : v.grow = { v with l := 2 * v.l } := if_pos hfull
    have ha : a.grow = { a with l := (2 * v.l : Nat) } := by
      rw [ArgArray.grow, if_pos (by rw [h.l, h.j]; omega), h.l,
        ← toCInt_of_le (by omega : 2 * v.l ≤ cIntMax)]
      rfl
    rw [hv, ha]
    exact ⟨rfl, h.j, h.inBounds⟩
  · have hv : v.grow = v := if_neg hfull
    have ha : a.grow = a := if_neg (by rw [h.l, h.j]; omega)
    rwa [hv, ha]

theorem Agrees.splice (words : List Str) {v : Vars φ} {a : ArgArray} (h : Agrees v a)
    (hmax : 2 * (v.a.length + words.length) ≤ cIntMax) :
    Agrees (splice v words) ((words.map fun _ => true).foldl ArgArray.store a) := by
  induction words generalizing v a with
  | nil => exact h
  | cons w words ih =>
    rw [List.length_cons] at hmax
    have hgrow : v.grow.a = v.a := by
      unfold Vars.grow
      split_ifs <;> rfl
    rw [splice_cons, List.map_cons, List.foldl_cons]
    refine ih ((h.grow (by omega)).put _) ?_
    rw [Vars.put, hgrow, List.length_append, List.length_singleton]
    omega

/-- An item does the same to both. -/
theorem Agrees.run (item : Item) (h : Agrees v a)
    (hmax : 2 * (v.a.length + (item.arguments sys).length) ≤ cIntMax) :
    Agrees (item.run sys v)
      (((item.arguments sys).map fun _ => item.isInput).foldl ArgArray.store a) := by
  cases item with
  | word s => exact h.put _
  | output i target =>
    rw [Item.run]
    cases ho : target.bind (sys.openOut i) with
    | none => rw [openOutput_none ho]; exact ⟨h.l, h.j, h.inBounds⟩
    | some f => rw [openOutput_some ho]; exact ⟨h.l, h.j, h.inBounds⟩
  | input i target =>
    rw [Item.run]
    cases ho : target.bind (sys.openIn i) with
    | none =>
      rw [openInput_none ho, arguments_input_none ho]
      exact ⟨h.l, h.j, h.inBounds⟩
    | some opened =>
      rw [arguments_input_some ho, List.length_map, ← readWords_eq] at hmax
      rw [openInput_some ho, arguments_input_some ho, List.map_map, ← readWords_eq]
      have := h.splice (readWords opened.2) hmax
      exact ⟨this.l, this.j, this.inBounds⟩

theorem Agrees.loop (items : List Item) {v : Vars φ} {a : ArgArray} (h : Agrees v a)
    (hmax : 2 * (v.a.length + (items.flatMap (Item.arguments sys)).length) ≤ cIntMax) :
    Agrees (items.foldl (fun v item => item.run sys v) v)
      ((origins sys items).foldl ArgArray.store a) := by
  induction items generalizing v a with
  | nil => exact h
  | cons item items ih =>
    rw [List.flatMap_cons, List.length_append] at hmax
    rw [List.foldl_cons, origins_cons, List.foldl_append]
    refine ih (h.run item (by omega)) ?_
    rw [run_a, List.length_append, List.length_map]
    omega

/-- **Without overflow** the variables say of the writes what the allocation says. -/
theorem redirected_inBounds_eq {tokens : List Str} (hlen : tokens.length ≤ cIntMax)
    (hmax : 2 * (argumentVector sys tokens).length ≤ cIntMax) (savedStdout savedStdin : Nat)
    (garbage : Int) (table : Descriptors (OpenFile φ)) :
    (redirected sys savedStdout savedStdin garbage tokens table).inBounds =
      (argArray sys tokens).inBounds := by
  have hstart : Agrees (startVars garbage tokens table) ⟨toCInt tokens.length, 0, true⟩ := by
    rw [toCInt_of_le hlen]
    exact ⟨rfl, rfl, rfl⟩
  have hroom : 2 * ((startVars garbage tokens table).a.length +
      ((items 0 tokens).flatMap (Item.arguments sys)).length) ≤ cIntMax := by
    simpa only [startVars, argumentVector, List.length_nil, Nat.zero_add] using hmax
  have h := hstart.loop _ hroom
  rw [← tokenLoop_eq_foldl, ← storeLoop_eq_foldl] at h
  exact h.inBounds.symm

end SystemProgramming.Shell
