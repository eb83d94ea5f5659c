import Mathlib.Data.List.Infix
import SystemProgramming.Lib.Bytes

/-!
# Path resolution

A path is resolved component by component from a directory: empty components and `.` stay, `..` goes
up, names go down (symbolic links aside). `depth` is how far below the directory a list of
components ends, and a path is `Inside` if it is relative and no prefix of its components ends
above.

* `inside_of_not_mem`: a relative path without a `..` component is inside.
* `infix_of_mem_components`: so is one without two dots in a row.
* `samePlace_resolve_iff`: a name, resolved against a path as a relative reference, is a name in the
  directory with this path exactly if the path ends in a slash, or in a slash and a dot.
-/

namespace SystemProgramming.Lib

/-- The components of a path: what stands between its slashes. -/
def components : Str → List Str
  | [] => [[]]
  | b :: s =>
    if b = 47 then [] :: components s
    else match components s with
      | [] => [[b]]
      | c :: cs => (b :: c) :: cs

/-- One component of a path, resolved at depth `d`. -/
def descend (d : Int) (c : Str) : Int :=
  if c = [] ∨ c = [46] then d
  else if c = [46, 46] then d - 1
  else d + 1

/-- How far below the directory the components end. -/
def depth (cs : List Str) : Int := cs.foldl descend 0

/-- **The path stays inside the directory** it is resolved from. -/
structure Inside (path : Str) : Prop where
  relative : path.head? ≠ some 47
  depth_nonneg : ∀ pre, pre <+: components path → 0 ≤ depth pre

theorem components_ne_nil (s : Str) : components s ≠ [] := by
  cases s with
  | nil => simp [components]
  | cons b s =>
    unfold components
    split_ifs
    · simp
    · split <;> simp

theorem components_cons {b : UInt8} (hb : b ≠ 47) (s : Str) :
    ∃ c cs, components s = c :: cs ∧ components (b :: s) = (b :: c) :: cs := by
  obtain ⟨c, cs, hc⟩ := List.exists_cons_of_ne_nil (components_ne_nil s)
  exact ⟨c, cs, hc, by rw [components, if_neg hb, hc]⟩

/-- A slash separates components. -/
theorem components_append_slash (s t : Str) :
    components (s ++ 47 :: t) = components s ++ components t := by
  induction s with
  | nil => simp [components]
  | cons b s ih =>
    rw [List.cons_append]
    by_cases hb : b = 47
    · rw [components, if_pos hb, components, if_pos hb, ih, List.cons_append]
    · obtain ⟨c, cs, hc, hbc⟩ := components_cons hb s
      rw [components, if_neg hb, ih, hc, hbc]
      rfl

/-- A component is a piece of the path, and the first one is at its front. -/
theorem components_infix {s c : Str} {cs : List Str} (h : components s = c :: cs) :
    c <+: s ∧ ∀ d ∈ cs, d <:+: s := by
  induction s generalizing c cs with
  | nil =>
    obtain ⟨rfl, rfl⟩ := List.cons.inj h
    exact ⟨List.nil_prefix, by simp⟩
  | cons b s ih =>
    obtain ⟨c', cs', hc⟩ := List.exists_cons_of_ne_nil (components_ne_nil s)
    obtain ⟨hpre, hin⟩ := ih hc
    by_cases hb : b = 47
    · rw [components, if_pos hb] at h
      obtain ⟨rfl, rfl⟩ := List.cons.inj h
      refine ⟨List.nil_prefix, ?_⟩
      intro d hd
      rw [hc] at hd
      rcases List.mem_cons.mp hd with rfl | hd
      · exact (hpre.isInfix).trans (List.suffix_cons b s).isInfix
      · exact (hin d hd).trans (List.suffix_cons b s).isInfix
    · rw [components, if_neg hb, hc] at h
      obtain ⟨rfl, rfl⟩ := List.cons.inj h
      exact ⟨(List.prefix_cons_inj b).mpr hpre,
        fun d hd => (hin d hd).trans (List.suffix_cons b s).isInfix⟩

theorem infix_of_mem_components {s c : Str} (h : c ∈ components s) : c <:+: s := by
  obtain ⟨c', cs, hc⟩ := List.exists_cons_of_ne_nil (components_ne_nil s)
  obtain ⟨hpre, hin⟩ := components_infix hc
  rw [hc] at h
  rcases List.mem_cons.mp h with rfl | h
  · exact hpre.isInfix
  · exact hin c h

/-- Without `..` a path only goes down. -/
theorem depth_nonneg {cs : List Str} (h : [46, 46] ∉ cs) : 0 ≤ depth cs := by
  have hgo : ∀ (cs : List Str) (d : Int), [46, 46] ∉ cs → 0 ≤ d → 0 ≤ cs.foldl descend d := by
    intro cs
    induction cs with
    | nil => exact fun d _ hd => hd
    | cons c cs ih =>
      intro d hmem hd
      rw [List.mem_cons, not_or] at hmem
      refine ih _ hmem.2 ?_
      unfold descend
      split_ifs with h1 h2
      · exact hd
      · exact absurd h2.symm hmem.1
      · omega
  exact hgo cs 0 h (Int.le_refl 0)

/-- **A relative path without a `..` component stays inside.** -/
theorem inside_of_not_mem {path : Str} (hrel : path.head? ≠ some 47)
    (h : [46, 46] ∉ components path) : Inside path :=
  ⟨hrel, fun _ hpre => depth_nonneg fun hmem => h (hpre.subset hmem)⟩

/-! ## Relative references -/

/-- A path up to its last slash. -/
def dirPart (s : Str) : Str := (s.reverse.dropWhile (· != 47)).reverse

/-- What is behind the last slash. -/
def lastPart (s : Str) : Str := (s.reverse.takeWhile (· != 47)).reverse

/-- A reference, resolved against a path: it replaces everything behind the last slash. -/
def resolve (base href : Str) : Str := dirPart base ++ href

/-- The components of a path that go somewhere. -/
def names (s : Str) : List Str := (components s).filter fun c => c ≠ [] ∧ c ≠ [46]

/-- **The paths lead to the same place** from a directory, if there are no components `..`. -/
def SamePlace (p q : Str) : Prop := names p = names q

theorem dirPart_append_lastPart (s : Str) : dirPart s ++ lastPart s = s := by
  rw [dirPart, lastPart, ← List.reverse_append, List.takeWhile_append_dropWhile,
    List.reverse_reverse]

theorem slash_not_mem_lastPart (s : Str) : 47 ∉ lastPart s := fun h => by
  simpa using List.mem_takeWhile_imp (List.mem_reverse.mp h)

/-- A path with a slash ends with its last slash and what is behind it. -/
theorem exists_dirPart {s : Str} (h : 47 ∈ s) : ∃ d, dirPart s = d ++ [47] := by
  have hne : s.reverse.dropWhile (· != 47) ≠ [] := fun hnil => by
    have hall := List.dropWhile_eq_nil_iff.mp hnil 47 (List.mem_reverse.mpr h)
    exact absurd hall (by decide)
  obtain ⟨b, u, hu⟩ := List.exists_cons_of_ne_nil hne
  have hb : b = 47 := by
    have := List.head?_dropWhile_not (· != 47) s.reverse
    rw [hu] at this
    simpa using this
  exact ⟨u.reverse, by rw [dirPart, hu, List.reverse_cons, hb]⟩

theorem names_append_slash (s t : Str) : names (s ++ 47 :: t) = names s ++ names t := by
  rw [names, components_append_slash, List.filter_append]
  rfl

/-- What has no slash is one component. -/
theorem components_of_not_mem {s : Str} (h : 47 ∉ s) : components s = [s] := by
  induction s with
  | nil => rfl
  | cons b s ih =>
    obtain ⟨hb, hs⟩ := not_or.mp (List.mem_cons.not.mp h)
    rw [components, if_neg (Ne.symm hb), ih hs]

/-- **When a name is resolved into the directory** whose path it is resolved against. -/
theorem samePlace_resolve_iff {base name : Str} (h : 47 ∈ base) :
    SamePlace (resolve base name) (base ++ 47 :: name) ↔
      lastPart base = [] ∨ lastPart base = [46] := by
  obtain ⟨d, hd⟩ := exists_dirPart h
  have hbase : base = d ++ 47 :: lastPart base := by
    conv_lhs => rw [← dirPart_append_lastPart base, hd]
    simp
  have hresolve : resolve base name = d ++ 47 :: name := by
    rw [resolve, hd]
    simp
  have hlast : names (lastPart base) = [] ↔ lastPart base = [] ∨ lastPart base = [46] := by
    rw [names, components_of_not_mem (slash_not_mem_lastPart base)]
    simp [List.filter_eq_nil_iff, or_iff_not_imp_left]
  rw [SamePlace, hresolve, names_append_slash, names_append_slash]
  conv_lhs =>
    rw [hbase, names_append_slash, List.append_assoc]
  rw [List.append_cancel_left_eq, List.self_eq_append_left, hlast]

/-- Two dots in a row do not arise across a slash. -/
theorem dots_infix_of_append_slash {s t : Str} (h : [46, 46] <:+: s ++ 47 :: t) :
    [46, 46] <:+: s ∨ [46, 46] <:+: t := by
  induction s with
  | nil =>
    rw [List.nil_append, List.infix_cons_iff] at h
    refine Or.inr (h.resolve_left fun hp => ?_)
    exact absurd (List.cons_prefix_cons.mp hp).1 (by decide)
  | cons b s ih =>
    rw [List.cons_append, List.infix_cons_iff] at h
    obtain hp | hi := h
    · obtain ⟨rfl, htail⟩ := List.cons_prefix_cons.mp hp
      cases s with
      | nil => exact absurd (List.cons_prefix_cons.mp htail).1 (by decide)
      | cons c s =>
        obtain ⟨rfl, -⟩ := List.cons_prefix_cons.mp htail
        exact Or.inl ⟨[], s, rfl⟩
    · exact (ih hi).imp_left fun h => h.trans (List.suffix_cons b s).isInfix

end SystemProgramming.Lib
