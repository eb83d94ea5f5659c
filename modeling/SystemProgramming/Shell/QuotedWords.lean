import SystemProgramming.Shell.Tokenizer

/-!
# Empty words

What `tokenize` makes of a line with words that are written as nothing but pairs of quotes. Its
length counter `n` is `0` at the end of such a word as it is where there is no word at all.

* `Written.renders`: a line of words that are all visible is one that the words can be written as.
* `tokenize_written_iff`: `tokenize` returns the words of the line exactly if none of them is empty.
-/

namespace SystemProgramming.Shell

open Lib

/-- **The lines in which the words stand**, each written as something: a word that is empty is
written as pairs of quotes. -/
inductive Written : List Str → Str → Prop
  | nil : Written [] []
  | space {words : List Str} {line : Str} {b : UInt8} (hb : isspace b = true)
      (h : Written words line) : Written words (b :: line)
  | last (segments : List Segment) (hseen : segments.flatMap Segment.render ≠ []) :
      Written [segments.flatMap Segment.text] (segments.flatMap Segment.render)
  | word (segments : List Segment) (hseen : segments.flatMap Segment.render ≠ [])
      {words : List Str} {line : Str} {b : UInt8} (hb : isspace b = true)
      (h : Written words line) :
      Written (segments.flatMap Segment.text :: words)
        (segments.flatMap Segment.render ++ b :: line)

variable {words : List Str} {line : Str}

theorem Written.renders (h : Written words line) : Renders words line := by
  induction h with
  | nil => exact .nil
  | space hb _ ih => exact .space hb ih
  | last segments _ => exact .last segments
  | word segments _ hb _ ih => exact .word segments hb ih

/-- **`tokenize` returns the words of a line** exactly if none of them is empty, and the line is
shorter than `2 ^ 32` bytes. -/
theorem tokenize_written_iff (words : List Str) (line : Str)
    (hw : ∀ w ∈ words, 0 ∉ w ∧ w.length ≤ 4094) (hl : Written words line) :
    (∃ n, ∀ fuel, n ≤ fuel → tokenize fuel line = some (.returned words)) ↔
      [] ∉ words ∧ line.length < 2 ^ 32 := by
  obtain ⟨hshort, hlong⟩ := tokenize_eq hl.renders fun w hmem hne =>
    ⟨hne, (hw w hmem).1, (hw w hmem).2⟩
  have hall : words.filter (· ≠ []) = words ↔ [] ∉ words := by
    rw [List.filter_eq_self]
    simp only [decide_eq_true_eq]
    exact ⟨fun h hmem => h [] hmem rfl, fun h w hmem hw => h (hw ▸ hmem)⟩
  constructor
  · rintro ⟨n, hret⟩
    have hlen : line.length < 2 ^ 32 := Nat.lt_of_not_le fun h =>
      hlong h n words (hret n (Nat.le_refl n))
    have h := (hshort hlen (n + line.length + 1) (by omega)).symm.trans (hret _ (by omega))
    exact ⟨hall.mp (Outcome.returned.inj (Option.some.inj h)), hlen⟩
  · rintro ⟨hnone, hlen⟩
    refine ⟨line.length + 1, fun fuel hfuel => ?_⟩
    rw [hshort hlen fuel hfuel, hall.mpr hnone]

theorem isBare_letter {b : UInt8} (hb : isBare b = true) : ∀ c ∈ [b], isBare c = true :=
  fun c hc => by rwa [List.mem_singleton.mp hc]

/-- The line `a '' b` has three words. -/
theorem written_three : Written [bytes "a", [], bytes "b"] (bytes "a '' b") :=
  .word [.bare (bytes "a") (isBare_letter (b := 97) (by decide))] (by decide) (b := 32) (by decide)
    (.word [.single []] (by decide) (b := 32) (by decide)
      (.last [.bare (bytes "b") (isBare_letter (b := 98) (by decide))] (by decide)))

/-- The three words of the line `a '' b`. -/
theorem tokenize_written_iff_three :
    (∀ w ∈ [bytes "a", [], bytes "b"], 0 ∉ w ∧ w.length ≤ 4094) ∧
    Written [bytes "a", [], bytes "b"] (bytes "a '' b") ∧
    ((∃ n, ∀ fuel, n ≤ fuel →
        tokenize fuel (bytes "a '' b") = some (.returned [bytes "a", [], bytes "b"])) ↔
      [] ∉ [bytes "a", [], bytes "b"] ∧ (bytes "a '' b").length < 2 ^ 32) := by
  have hw : ∀ w ∈ [bytes "a", [], bytes "b"], 0 ∉ w ∧ w.length ≤ 4094 := by decide
  exact ⟨hw, written_three, tokenize_written_iff _ _ hw written_three⟩

/-- The empty word is dropped, and `b` takes its place. -/
theorem tokenize_drops :
    ¬ (∀ (words : List Str) (line : Str), (∀ w ∈ words, 0 ∉ w ∧ w.length ≤ 4094) →
      Written words line → line.length < 2 ^ 32 →
        ∃ n, ∀ fuel, n ≤ fuel → tokenize fuel line = some (.returned words)) ∧
    ∀ fuel, 6 < fuel →
      tokenize fuel (bytes "a '' b") = some (.returned [bytes "a", bytes "b"]) := by
  have hw : ∀ w ∈ [bytes "a", [], bytes "b"], 0 ∉ w ∧ w.length ≤ 4094 := by decide
  have hrun : ∀ fuel, 6 < fuel →
      tokenize fuel (bytes "a '' b") = some (.returned [bytes "a", bytes "b"]) := by
    refine (tokenize_eq written_three.renders fun w hmem hne => ?_).1 (by decide)
    exact ⟨hne, (hw w hmem).1, (hw w hmem).2⟩
  refine ⟨fun hclaim => ?_, hrun⟩
  obtain ⟨n, hret⟩ := hclaim _ _ hw written_three (by decide)
  have h := (hrun (n + 7) (by omega)).symm.trans (hret (n + 7) (by omega))
  exact absurd h (by decide)

end SystemProgramming.Shell
