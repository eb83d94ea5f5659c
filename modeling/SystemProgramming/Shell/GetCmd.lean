import Mathlib.Algebra.GroupWithZero.Nat
import Mathlib.Data.List.GetD
import SystemProgramming.Lib.Bytes
import SystemProgramming.Lib.Growth

/-!
# The search of `PATH`

`get_cmd` of `Shell/shell.c`. What `access` answers is a parameter, by the number of the call and
its argument. A write behind the end of the candidate buffer is recorded in `inBounds`, and the
search goes on as if the buffer had room.

* `searchLoop_eq`: the loop tries the pieces of `PATH` one by one. They are its components, but the
  first byte is never taken for a separator.
* `getCmd_likeReference_iff`: when the candidates are those of a plain search.
* `getCmd_inBounds_iff`: when all of them fit into the buffer.
-/

namespace SystemProgramming.Shell

open Lib

/-- What `access(_, F_OK) != -1` says at a call. -/
abbrev Access := Nat → Str → Bool

/-- The variables of the search beside its indices: the string in the buffer `cmd` of `len` bytes,
where `none` is a buffer that has not been written to, and the candidates given to `access`. -/
structure Search where
  len : Int
  cmd : Option Str
  tested : List Str
  inBounds : Bool

/-- The name of the token in a directory. -/
def candidate (token dir : Str) : Str := dir ++ bytes "/" ++ token

/-- From `if(j-i > len)` to the second `access`: `strncpy` writes the directory, and `strcat` ends
with the `NUL` behind the token. -/
def Search.build (token dir : Str) (v : Search) : Search :=
  let len := if v.len < dir.length then toCInt (2 * v.len) else v.len
  { len := len
    cmd := some (candidate token dir)
    tested := v.tested ++ [candidate token dir]
    inBounds := v.inBounds && decide (((dir.length + 1 + token.length : Nat) : Int) < len) }

/-- The loop. -/
def searchLoop (access : Access) (token s : Str) (j i : Nat) (v : Search) : Search :=
  -- behind `INT_MAX`, `j` is negative, which as a `size_t` is more than `strlen(s)`
  if j ≤ s.length ∧ j ≤ cIntMax then
    if s.getD j 0 = 58 ∨ s.getD j 0 = 0 then
      let dir := (s.drop i).take (j - i)
      let v := v.build token dir
      if access v.tested.length (candidate token dir) then v
      else searchLoop access token s (j + 1) (j + 1) v
    else searchLoop access token s (j + 1) i v
  else v
  termination_by s.length + 1 - j

/-- `get_cmd`, with the variables of its search. -/
def getCmd (access : Access) (token s : Str) : Option Str × Search :=
  if access 0 token then (some token, ⟨128, none, [], true⟩)
  else
    let v := searchLoop access token s 1 0 ⟨128, none, [], true⟩
    (v.cmd, v)

/-! ## The pieces of `PATH` -/

/-- The directories of `PATH`. -/
def dirs (s : Str) : List Str := s.splitOn 58

/-- What the loop takes for directories. -/
def pieces : Str → List Str
  | [] => []
  | c :: s => (dirs s).modifyHead (c :: ·)

/-- The pieces from index `i` on whose ends are numbers of type `int`. -/
def reached : Nat → List Str → List Str
  | _, [] => []
  | i, d :: ds => if i + d.length ≤ cIntMax then d :: reached (i + d.length + 1) ds else []

/-- Directories up to the first that has the token. The next call of `access` has number `n`. -/
def tried (access : Access) (token : Str) : Nat → List Str → List Str
  | _, [] => []
  | n, d :: ds =>
    if access n (candidate token d) then [d] else d :: tried access token (n + 1) ds

theorem dirs_nil : dirs [] = [[]] := rfl

theorem dirs_cons (c : UInt8) (s : Str) :
    dirs (c :: s) = if c = 58 then [] :: dirs s else (dirs s).modifyHead (c :: ·) := by
  unfold dirs List.splitOn
  rw [List.splitOnP_cons_eq_if_modifyHead]
  simp only [beq_iff_eq]

theorem dirs_ne_nil (s : Str) : dirs s ≠ [] := List.splitOn_ne_nil _ _

variable {access : Access} {token s : Str}

theorem tested_build (dir : Str) (v : Search) :
    (v.build token dir).tested.length = v.tested.length + 1 := List.length_append

/-- Where the loop stops. -/
theorem searchLoop_stop {j : Nat} (h : ¬ (j ≤ s.length ∧ j ≤ cIntMax)) (i : Nat) (v : Search) :
    searchLoop access token s j i v = v := by
  rw [searchLoop, if_neg h]

/-- Behind a piece. -/
theorem searchLoop_build {pre cur rest : Str} (hmax : (pre ++ cur).length ≤ cIntMax)
    (hrest : rest.getD 0 0 = 58 ∨ rest.getD 0 0 = 0) (v : Search) :
    searchLoop access token (pre ++ cur ++ rest) (pre ++ cur).length pre.length v =
      if access (v.tested.length + 1) (candidate token cur) then v.build token cur
      else searchLoop access token (pre ++ cur ++ rest) ((pre ++ cur).length + 1)
        ((pre ++ cur).length + 1) (v.build token cur) := by
  have hlen : (pre ++ cur).length ≤ (pre ++ cur ++ rest).length :=
    (List.prefix_append ..).length_le
  have hchar : (pre ++ cur ++ rest).getD (pre ++ cur).length 0 = rest.getD 0 0 := by
    rw [List.getD_append_right _ _ _ _ (Nat.le_refl _), Nat.sub_self]
  have hdir : ((pre ++ cur ++ rest).drop pre.length).take ((pre ++ cur).length - pre.length) =
      cur := by
    rw [List.append_assoc, List.drop_left, List.length_append, Nat.add_sub_cancel_left,
      List.take_left]
  rw [searchLoop, if_pos ⟨hlen, hmax⟩, hchar, if_pos hrest]
  simp only [hdir, tested_build]

/-- Inside a piece. -/
theorem searchLoop_skip {pre cur rest : Str} {c : UInt8} (hmax : (pre ++ cur).length ≤ cIntMax)
    (hcolon : c ≠ 58) (hnul : c ≠ 0) (v : Search) :
    searchLoop access token (pre ++ cur ++ c :: rest) (pre ++ cur).length pre.length v =
      searchLoop access token (pre ++ cur ++ c :: rest) ((pre ++ cur).length + 1) pre.length v := by
  have hlen : (pre ++ cur).length ≤ (pre ++ cur ++ c :: rest).length :=
    (List.prefix_append ..).length_le
  have hchar : (pre ++ cur ++ c :: rest).getD (pre ++ cur).length 0 = c := by
    rw [List.getD_append_right _ _ _ _ (Nat.le_refl _), Nat.sub_self]
    rfl
  rw [searchLoop, if_pos ⟨hlen, hmax⟩, hchar, if_neg (not_or.mpr ⟨hcolon, hnul⟩)]

/-- **The loop tries the pieces.** `cur` is the part of the present one in front of `j`. -/
theorem searchLoop_eq (rest : Str) : ∀ (pre cur : Str) (v : Search), 0 ∉ rest →
    searchLoop access token (pre ++ cur ++ rest) (pre ++ cur).length pre.length v =
      (tried access token (v.tested.length + 1)
        (reached pre.length ((dirs rest).modifyHead (cur ++ ·)))).foldl
          (fun v d => v.build token d) v := by
  induction rest with
  | nil =>
    intro pre cur v hs
    have hpieces : (dirs []).modifyHead (cur ++ ·) = [cur] := by simp [dirs_nil]
    rw [hpieces, reached, ← List.length_append]
    by_cases hmax : (pre ++ cur).length ≤ cIntMax
    · rw [searchLoop_build hmax (.inr rfl), searchLoop_stop (by simp), ite_self, if_pos hmax,
        reached, tried, tried, ite_self]
      rfl
    · rw [searchLoop_stop (fun h => hmax h.2), if_neg hmax]
      rfl
  | cons c rest ih =>
    intro pre cur v hs
    obtain ⟨hc, hrest⟩ := not_or.mp (List.mem_cons.not.mp hs)
    by_cases hcolon : c = 58
    · subst hcolon
      have hpieces : (dirs (58 :: rest)).modifyHead (cur ++ ·) = cur :: dirs rest := by
        simp [dirs_cons]
      rw [hpieces, reached, ← List.length_append]
      by_cases hmax : (pre ++ cur).length ≤ cIntMax
      · rw [searchLoop_build hmax (.inl rfl), if_pos hmax, tried]
        split_ifs with hfound
        · rfl
        · have h := ih (pre ++ cur ++ [58]) [] (v.build token cur) hrest
          have hhead : (dirs rest).modifyHead ([] ++ ·) = dirs rest := by
            cases dirs rest <;> rfl
          rw [hhead, tested_build] at h
          simpa [Nat.add_assoc] using h
      · rw [searchLoop_stop (fun h => hmax h.2), if_neg hmax]
        rfl
    · have hpieces : (dirs (c :: rest)).modifyHead (cur ++ ·) =
          (dirs rest).modifyHead (cur ++ [c] ++ ·) := by
        rw [dirs_cons, if_neg hcolon, List.modifyHead_modifyHead]
        simp [Function.comp_def]
      rw [hpieces]
      by_cases hmax : (pre ++ cur).length ≤ cIntMax
      · have h := ih pre (cur ++ [c]) v hrest
        rw [searchLoop_skip hmax hcolon (Ne.symm hc)]
        simpa [Nat.add_assoc] using h
      · -- the piece ends behind `INT_MAX`
        obtain ⟨d, ds, hd⟩ := List.exists_cons_of_ne_nil (dirs_ne_nil rest)
        rw [searchLoop_stop (fun h => hmax h.2), hd, List.modifyHead_cons, reached, if_neg]
        · rfl
        · simp only [List.length_append] at hmax ⊢
          omega

/-- The directories that `get_cmd` tries. -/
def dirsTried (access : Access) (token s : Str) : List Str :=
  if access 0 token then [] else tried access token 1 (reached 0 (pieces s))

/-- **The search** tries these directories. -/
theorem getCmd_search (access : Access) (token : Str) (hs : 0 ∉ s) :
    (getCmd access token s).2 = (dirsTried access token s).foldl (fun v d => v.build token d)
      ⟨128, none, [], true⟩ := by
  unfold getCmd dirsTried
  split_ifs
  · rfl
  · cases s with
    | nil => exact searchLoop_stop (by simp) _ _
    | cons c s => exact searchLoop_eq s [] [c] _ fun h => hs (List.mem_cons_of_mem _ h)

/-! ## The candidates -/

/-- The directories that a plain search looks into: those in front of the first that has the file,
and this one. -/
def visited (files : Str → Bool) (token : Str) (ds : List Str) : List Str :=
  ds.takeWhile (fun d => !files (candidate token d)) ++
    (ds.find? fun d => files (candidate token d)).toList

/-- What directories take of `PATH`, each with the separator or the `NUL` behind it. -/
def span (ds : List Str) : Nat := (ds.map fun d => d.length + 1).sum

/-- **The search is that of the reference**: it tests the directories of `PATH` in order up to the
first that has the file, and returns its name there. -/
structure LikeReference (files : Str → Bool) (token s : Str) (r : Option Str × Search) : Prop where
  tested : r.2.tested = (visited files token (dirs s)).map (candidate token)
  returned : ∀ d, (dirs s).find? (fun d => files (candidate token d)) = some d →
    r.1 = some (candidate token d)
  found : (∃ d ∈ dirs s, files (candidate token d) = true) →
    ∃ cmd, r.1 = some cmd ∧ files cmd = true

variable {files : Str → Bool} {ds : List Str} {n i : Nat}

theorem candidate_injective (token : Str) : Function.Injective (candidate token) := fun d d' h => by
  unfold candidate at h
  rwa [List.append_assoc, List.append_assoc, List.append_left_inj] at h

theorem tried_eq_visited : tried (fun _ => files) token n ds = visited files token ds := by
  induction ds generalizing n with
  | nil => rfl
  | cons d ds ih =>
    rw [tried, ih]
    by_cases hd : files (candidate token d) = true
    · simp [visited, hd]
    · simp [visited, hd]

/-- All pieces that would be tried are reached exactly if they end early enough. -/
theorem tried_reached_iff (hi : i ≤ cIntMax + 1) :
    tried access token n (reached i ds) = tried access token n ds ↔
      i + span (tried access token n ds) ≤ cIntMax + 1 := by
  induction ds generalizing n i with
  | nil => exact iff_of_true rfl hi
  | cons d ds ih =>
    have hspan : ∀ ds, span (d :: ds) = d.length + 1 + span ds := fun ds => by
      simp [span]
    rw [reached]
    by_cases hd : i + d.length ≤ cIntMax
    · rw [if_pos hd, tried, tried]
      split_ifs with hfound
      · refine iff_of_true rfl ?_
        rw [hspan, span, List.map_nil, List.sum_nil]
        omega
      · rw [List.cons.injEq, and_iff_right rfl, ih (by omega), hspan]
        omega
    · rw [if_neg hd]
      refine iff_of_false ?_ ?_
      · rw [tried, tried]
        split_ifs <;> simp
      · rw [tried]
        split_ifs <;> rw [hspan] <;> omega

theorem head?_tried : (tried access token n ds).head? = ds.head? := by
  cases ds with
  | nil => rfl
  | cons d ds =>
    rw [tried]
    split_ifs <;> rfl

theorem head?_reached {d : Str} (h : (reached i ds).head? = some d) : ds.head? = some d := by
  cases ds with
  | nil => exact h
  | cons d' ds =>
    rw [reached] at h
    split_ifs at h
    · exact h
    · exact absurd h (by simp)

/-- **The first byte is not taken for a separator**, so the first piece is not empty. -/
theorem head?_pieces (s : Str) : (pieces s).head? ≠ some [] := by
  cases s with
  | nil => simp [pieces]
  | cons c s =>
    obtain ⟨d, ds, hd⟩ := List.exists_cons_of_ne_nil (dirs_ne_nil s)
    simp [pieces, hd]

/-- If the first directory is not empty, the pieces are the directories. -/
theorem pieces_eq_dirs (h : (dirs s).head? ≠ some []) : pieces s = dirs s := by
  cases s with
  | nil => exact absurd rfl h
  | cons c s =>
    rw [dirs_cons] at h ⊢
    split_ifs at h ⊢ with hc
    · exact absurd rfl h
    · rfl

theorem foldl_build_tested (ds : List Str) (v : Search) :
    (ds.foldl (fun v d => v.build token d) v).tested = v.tested ++ ds.map (candidate token) := by
  induction ds generalizing v with
  | nil => simp
  | cons d ds ih =>
    rw [List.foldl_cons, ih]
    simp [Search.build]

theorem foldl_build_cmd (d : Str) (v : Search) :
    ((ds ++ [d]).foldl (fun v d => v.build token d) v).cmd = some (candidate token d) := by
  rw [List.foldl_append]
  rfl

/-- **The search is that of the reference** exactly if the first directory is not empty and the
others end early enough. -/
theorem getCmd_likeReference_iff (files : Str → Bool) (token s : Str) (hs : 0 ∉ s)
    (htoken : files token = false) :
    LikeReference files token s (getCmd (fun _ => files) token s) ↔
      (dirs s).head? ≠ some [] ∧ span (visited files token (dirs s)) ≤ cIntMax + 1 := by
  have hsearch := getCmd_search (fun _ => files) token hs
  have hcmd : (getCmd (fun _ => files) token s).1 = (getCmd (fun _ => files) token s).2.cmd := by
    rw [getCmd, if_neg (by simp [htoken])]
  have htried : dirsTried (fun _ => files) token s =
      tried (fun _ => files) token 1 (reached 0 (pieces s)) := if_neg (by simp [htoken])
  have hvisited : tried (fun _ => files) token 1 (dirs s) = visited files token (dirs s) :=
    tried_eq_visited
  have hspan : tried (fun _ => files) token 1 (reached 0 (dirs s)) = visited files token (dirs s) ↔
      span (visited files token (dirs s)) ≤ cIntMax + 1 := by
    rw [← hvisited, tried_reached_iff (Nat.zero_le _), Nat.zero_add]
  rw [htried] at hsearch
  constructor
  · intro h
    have htested := h.tested
    rw [hsearch, foldl_build_tested, List.nil_append,
      (List.map_injective_iff.mpr (candidate_injective token)).eq_iff] at htested
    have hhead : (dirs s).head? ≠ some [] := fun hhead => by
      have : (visited files token (dirs s)).head? = some [] := by
        rw [← tried_eq_visited (n := 1), head?_tried, hhead]
      rw [← htested, head?_tried] at this
      exact head?_pieces s (head?_reached this)
    rw [pieces_eq_dirs hhead] at htested
    exact ⟨hhead, hspan.mp htested⟩
  · rintro ⟨hhead, hle⟩
    rw [pieces_eq_dirs hhead, hspan.mpr hle] at hsearch
    have hreturned : ∀ d, (dirs s).find? (fun d => files (candidate token d)) = some d →
        (getCmd (fun _ => files) token s).1 = some (candidate token d) := fun d hd => by
      rw [hcmd, hsearch, visited, hd]
      exact foldl_build_cmd d _
    refine ⟨?_, hreturned, fun ⟨d, hd, hfile⟩ => ?_⟩
    · rw [hsearch, foldl_build_tested, List.nil_append]
    · obtain ⟨d', hd'⟩ := Option.isSome_iff_exists.mp
        (List.find?_isSome (p := fun d => files (candidate token d)) |>.mpr ⟨d, hd, hfile⟩)
      exact ⟨_, hreturned d' hd', by simpa using List.find?_some hd'⟩

/-- The token `ls`, and `/bin:/usr/bin`, when `/usr/bin` has it. -/
theorem getCmd_likeReference_iff_ls :
    0 ∉ bytes "/bin:/usr/bin" ∧ (bytes "ls" == bytes "/usr/bin/ls") = false ∧
    (LikeReference (· == bytes "/usr/bin/ls") (bytes "ls") (bytes "/bin:/usr/bin")
        (getCmd (fun _ => (· == bytes "/usr/bin/ls")) (bytes "ls") (bytes "/bin:/usr/bin")) ↔
      (dirs (bytes "/bin:/usr/bin")).head? ≠ some [] ∧
        span (visited (· == bytes "/usr/bin/ls") (bytes "ls") (dirs (bytes "/bin:/usr/bin"))) ≤
          cIntMax + 1) :=
  ⟨by decide, by decide, getCmd_likeReference_iff _ _ _ (by decide) (by decide)⟩

/-- The token `ls`, and `:/bin`, which starts with an empty directory: `get_cmd` tests `:/bin/ls`
and returns this, though `/bin` has the file. -/
theorem getCmd_misses :
    ¬ (∀ (files : Str → Bool) (token s : Str), 0 ∉ s → files token = false →
      LikeReference files token s (getCmd (fun _ => files) token s)) ∧
    (getCmd (fun _ => (· == bytes "/bin/ls")) (bytes "ls") (bytes ":/bin")).1 =
      some (bytes ":/bin/ls") ∧
    (getCmd (fun _ => (· == bytes "/bin/ls")) (bytes "ls") (bytes ":/bin")).2.tested =
      [bytes ":/bin/ls"] := by
  have hsearch := getCmd_search (fun _ => (· == bytes "/bin/ls")) (bytes "ls")
    (s := bytes ":/bin") (by decide)
  have hcmd : (getCmd (fun _ => (· == bytes "/bin/ls")) (bytes "ls") (bytes ":/bin")).1 =
      some (bytes ":/bin/ls") := by
    have : (getCmd (fun _ => (· == bytes "/bin/ls")) (bytes "ls") (bytes ":/bin")).1 =
        (getCmd (fun _ => (· == bytes "/bin/ls")) (bytes "ls") (bytes ":/bin")).2.cmd := by
      rw [getCmd, if_neg (by decide)]
    rw [this, hsearch]
    decide
  refine ⟨fun hclaim => ?_, hcmd, by rw [hsearch]; decide⟩
  have h := (hclaim (· == bytes "/bin/ls") (bytes "ls") (bytes ":/bin") (by decide)
    (by decide)).returned (bytes "/bin") (by decide)
  rw [hcmd] at h
  exact absurd h (by decide)

/-! ## The buffer -/

/-- What the candidate in a directory needs: the directory, the slash, the token and the `NUL`. Only
the directory is compared with the size. -/
def room (token dir : Str) : Demand := ⟨dir.length + 1 + token.length + 1, some dir.length⟩

/-- **The candidates** are uses of a buffer that doubles. -/
theorem foldl_build_inBounds (ds : List Str) : ∀ (v : Search) (b : Growing), v.len = b.size →
    v.inBounds = b.inBounds → (ds.foldl (fun v d => v.build token d) v).inBounds =
      ((ds.map (room token)).foldl Growing.demand b).inBounds := by
  induction ds with
  | nil => exact fun v b _ hin => hin
  | cons d ds ih =>
    intro v b hlen hin
    rw [List.foldl_cons, List.map_cons, List.foldl_cons]
    have hsize : (v.build token d).len = (b.demand (room token d)).size := by
      simp [Search.build, Growing.demand, room, hlen]
    have hneed : ∀ l : Int, ((d.length + 1 + token.length : Nat) : Int) < l ↔
        ((room token d).need : Int) ≤ l := fun l => by
      rw [room]
      dsimp only
      omega
    have hbuild : (v.build token d).inBounds = (v.inBounds &&
        decide (((d.length + 1 + token.length : Nat) : Int) < (v.build token d).len)) := rfl
    refine ih _ _ hsize ?_
    rw [hbuild, Growing.inBounds_demand, hin, hsize, decide_eq_decide.mpr (hneed _)]

/-- **All writes stay inside the buffer** exactly if, for each size, the first directory whose
candidate needs more is longer than the size itself, and twice the size is enough. -/
theorem getCmd_inBounds_iff (access : Access) (token s : Str) (hs : 0 ∉ s) :
    (getCmd access token s).2.inBounds = true ↔
      InTime 128 ((dirsTried access token s).map (room token)) := by
  rw [getCmd_search access token hs,
    foldl_build_inBounds _ _ ⟨(128 : Nat), true⟩ (by rfl) (by rfl)]
  refine Growing.inBounds_iff (by decide) (by decide) _ fun d hd n hn => ?_
  obtain ⟨dir, -, rfl⟩ := List.mem_map.mp hd
  obtain rfl := Option.mem_some_iff.mp hn
  exact Nat.le_trans (Nat.le_add_right _ _) (Nat.le_trans (Nat.le_add_right _ _) (Nat.le_succ _))

/-- The token `ls`, and `/bin:/usr/bin`. -/
theorem getCmd_inBounds_iff_ls : 0 ∉ bytes "/bin:/usr/bin" ∧
    ((getCmd (fun _ _ => false) (bytes "ls") (bytes "/bin:/usr/bin")).2.inBounds = true ↔
      InTime 128 ((dirsTried (fun _ _ => false) (bytes "ls") (bytes "/bin:/usr/bin")).map
        (room (bytes "ls")))) :=
  ⟨by decide, getCmd_inBounds_iff _ _ _ (by decide)⟩

/-- A token of 123 letters, and `/bin`: the `NUL` is written behind the 128 bytes. -/
theorem getCmd_overruns :
    ¬ (∀ (access : Access) (token s : Str), 0 ∉ s → (getCmd access token s).2.inBounds = true) ∧
    (getCmd (fun _ _ => false) (List.replicate 123 97) (bytes "/bin")).2.inBounds = false := by
  have hrun : (getCmd (fun _ _ => false) (List.replicate 123 97) (bytes "/bin")).2.inBounds =
      false := by
    have hdirs : dirsTried (fun _ _ => false) (List.replicate 123 97) (bytes "/bin") =
        [bytes "/bin"] := rfl
    rw [getCmd_search _ _ (by decide), hdirs]
    simp [Search.build, bytes]
  refine ⟨fun hclaim => ?_, hrun⟩
  have h := hclaim (fun _ _ => false) (List.replicate 123 97) (bytes "/bin") (by decide)
  exact absurd (hrun.symm.trans h) (by decide)

end SystemProgramming.Shell
