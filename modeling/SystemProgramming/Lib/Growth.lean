import Mathlib.Data.List.Induction
import SystemProgramming.Lib.CInt

/-!
# Buffers that double

A buffer whose size is an `int`, and which is doubled at most once before each use. A use needs some
room, and whether the buffer is doubled depends on what the program compares with its size.

* `Growing.inBounds_iff`: all uses fit exactly if, for each size, the first use that needs more is
  seen to, and has enough after one doubling.
-/

namespace SystemProgramming.Lib

/-- A use of a buffer: the room it needs, and the number that is compared with the size, if any. -/
structure Demand where
  need : Nat
  seen : Option Nat

/-- A buffer: its size, and whether all uses so far had room. -/
structure Growing where
  size : Int
  inBounds : Bool

/-- One use. -/
def Growing.demand (b : Growing) (d : Demand) : Growing :=
  let size := if ∃ s ∈ d.seen, b.size < (s : Nat) then toCInt (2 * b.size) else b.size
  { size := size, inBounds := b.inBounds && decide ((d.need : Int) ≤ size) }

/-- The use has room after one doubling of a buffer that has been doubled `i` times. -/
structure Met (n i : Nat) (d : Demand) : Prop where
  seen : ∃ s ∈ d.seen, doubled n i < s
  enough : d.need ≤ doubled n (i + 1)
  max : doubled n (i + 1) ≤ cIntMax

/-- **The first use that needs more than a size is met** by one doubling. -/
def InTime (n : Nat) (ds : List Demand) : Prop :=
  ∀ i d, ds.find? (fun d => decide (doubled n i < d.need)) = some d → Met n i d

variable {n k : Nat} {ds : List Demand} {d : Demand} {b : Growing}

theorem Growing.inBounds_demand (b : Growing) (d : Demand) : (b.demand d).inBounds =
    (b.inBounds && decide ((d.need : Int) ≤ (b.demand d).size)) := rfl

theorem inTime_append : InTime n (ds ++ [d]) ↔ InTime n ds ∧
    ∀ i, (∀ d' ∈ ds, d'.need ≤ doubled n i) → doubled n i < d.need → Met n i d := by
  have hfind : ∀ i, ds.find? (fun d => decide (doubled n i < d.need)) = none ↔
      ∀ d' ∈ ds, d'.need ≤ doubled n i := fun i => by
    simp only [List.find?_eq_none, decide_eq_true_eq, Nat.not_lt]
  constructor
  · intro h
    refine ⟨fun i d' hd' => h i d' ?_, fun i hle hlt => h i d ?_⟩
    · rw [List.find?_append, hd', Option.some_or]
    · rw [List.find?_append, (hfind i).mpr hle, Option.none_or,
        List.find?_singleton, if_pos (decide_eq_true hlt)]
  · rintro ⟨h, hlast⟩ i d' hd'
    rw [List.find?_append] at hd'
    cases hds : ds.find? (fun d => decide (doubled n i < d.need)) with
    | some d'' =>
      rw [hds, Option.some_or] at hd'
      exact Option.some.inj hd' ▸ h i d'' hds
    | none =>
      rw [hds, Option.none_or, List.find?_singleton] at hd'
      split_ifs at hd' with hlt
      exact Option.some.inj hd' ▸ hlast i ((hfind i).mp hds) (of_decide_eq_true hlt)

/-- A buffer after uses that all had room. It has been doubled `k` times, each time because of a use
that needed more. -/
structure Grown (n : Nat) (ds : List Demand) (b : Growing) (k : Nat) : Prop where
  inBounds : b.inBounds = true
  size : b.size = doubled n k
  max : doubled n k ≤ cIntMax
  room : ∀ d ∈ ds, d.need ≤ doubled n k
  outgrown : ∀ i, i < k → ∃ d ∈ ds, doubled n i < d.need

/-- Only the present size can be the first that the next use exceeds. -/
theorem Grown.inTime_iff (hn : 0 < n) (h : Grown n ds b k) :
    InTime n (ds ++ [d]) ↔ InTime n ds ∧ (doubled n k < d.need → Met n k d) := by
  rw [inTime_append]
  refine and_congr_right fun _ => ⟨fun hlast => hlast k h.room, fun hk i hle hlt => ?_⟩
  obtain hik | rfl | hki := lt_trichotomy i k
  · obtain ⟨d', hd', hlt'⟩ := h.outgrown i hik
    exact absurd hlt' (Nat.not_lt.mpr (hle d' hd'))
  · exact hk hlt
  · -- one doubling would not be enough
    have hmono := (doubled_strictMono hn).monotone
    have := (hk (lt_of_le_of_lt (hmono hki.le) hlt)).enough
    exact absurd (hlt.trans_le this) (Nat.not_lt.mpr (hmono hki))

/-- A use that has room. -/
theorem Grown.fit (h : Grown n ds b k) (hseen : ∀ s ∈ d.seen, s ≤ d.need)
    (hroom : d.need ≤ doubled n k) : Grown n (ds ++ [d]) (b.demand d) k := by
  have hkeep : b.demand d = ⟨b.size, b.inBounds && decide ((d.need : Int) ≤ b.size)⟩ := by
    rw [Growing.demand, if_neg]
    rintro ⟨s, hs, hlt⟩
    have := hseen s hs
    rw [h.size] at hlt
    omega
  rw [hkeep]
  refine ⟨?_, h.size, h.max, ?_, fun i hi => ?_⟩
  · simp only [h.inBounds, Bool.true_and, decide_eq_true_eq, h.size]
    omega
  · simpa [or_imp, forall_and] using ⟨h.room, hroom⟩
  · obtain ⟨d', hd', hlt⟩ := h.outgrown i hi
    exact ⟨d', List.mem_append_left _ hd', hlt⟩

/-- A use that is met by doubling. -/
theorem Grown.grow (hn : 0 < n) (h : Grown n ds b k) (hneed : doubled n k < d.need)
    (hmet : Met n k d) : Grown n (ds ++ [d]) (b.demand d) (k + 1) := by
  have hlt : doubled n k < doubled n (k + 1) := doubled_strictMono hn (Nat.lt_succ_self k)
  have hsize : toCInt (2 * b.size) = doubled n (k + 1) := h.size ▸ toCInt_doubled hmet.max
  obtain ⟨s, hs, hseen⟩ := hmet.seen
  have hdouble : b.demand d = ⟨doubled n (k + 1),
      b.inBounds && decide ((d.need : Int) ≤ doubled n (k + 1))⟩ := by
    rw [Growing.demand, if_pos ⟨s, hs, by rw [h.size]; omega⟩, hsize]
  have henough := hmet.enough
  rw [hdouble]
  refine ⟨?_, rfl, hmet.max, fun d' hd' => ?_, fun i hi => ?_⟩
  · simp only [h.inBounds, Bool.true_and, decide_eq_true_eq]
    omega
  · obtain hd' | hd' := List.mem_append.mp hd'
    · exact (h.room d' hd').trans hlt.le
    · exact List.mem_singleton.mp hd' ▸ henough
  · obtain hi | rfl := Nat.lt_succ_iff_lt_or_eq.mp hi
    · obtain ⟨d', hd', hlt'⟩ := h.outgrown i hi
      exact ⟨d', List.mem_append_left _ hd', hlt'⟩
    · exact ⟨d, List.mem_append_right _ List.mem_cons_self, hneed⟩

/-- Any other use has no room. -/
theorem Grown.overrun (h : Grown n ds b k) (hneed : doubled n k < d.need) (hmet : ¬ Met n k d) :
    (b.demand d).inBounds = false := by
  have hnot : ¬ (d.need : Int) ≤ (b.demand d).size := by
    rw [Growing.demand, h.size]
    dsimp only
    split_ifs with hseen
    · by_cases hmax : doubled n (k + 1) ≤ cIntMax
      · rw [toCInt_doubled hmax]
        obtain ⟨s, hs, hlt⟩ := hseen
        exact fun henough => hmet ⟨⟨s, hs, by omega⟩, by omega, hmax⟩
      · have := toCInt_doubled_neg h.max hmax
        omega
    · omega
  exact Bool.and_eq_false_imp.mpr fun _ => decide_eq_false hnot

/-- **All uses have room** exactly if they are met in time. -/
theorem Growing.inBounds_iff (hn : 0 < n) (hmax : n ≤ cIntMax) (ds : List Demand)
    (hseen : ∀ d ∈ ds, ∀ s ∈ d.seen, s ≤ d.need) :
    (ds.foldl Growing.demand ⟨n, true⟩).inBounds = true ↔ InTime n ds := by
  suffices h : ((ds.foldl Growing.demand ⟨n, true⟩).inBounds = true ↔ InTime n ds) ∧
      (InTime n ds → ∃ k, Grown n ds (ds.foldl Growing.demand ⟨n, true⟩) k) from h.1
  induction ds using List.reverseRecOn with
  | nil => exact ⟨iff_of_true rfl fun i d hd => absurd hd (by simp), fun _ =>
      ⟨0, rfl, rfl, hmax, fun d hd => absurd hd List.not_mem_nil,
        fun i hi => absurd hi (Nat.not_lt_zero i)⟩⟩
  | append_singleton ds d ih =>
    replace ih := ih fun d' hd' => hseen d' (List.mem_append_left _ hd')
    replace hseen := hseen d (List.mem_append_right _ List.mem_cons_self)
    rw [List.foldl_append, List.foldl_cons, List.foldl_nil]
    generalize ds.foldl Growing.demand ⟨n, true⟩ = b at ih
    by_cases hds : InTime n ds
    · obtain ⟨k, hk⟩ := ih.2 hds
      rw [hk.inTime_iff hn, and_iff_right hds]
      by_cases hneed : doubled n k < d.need
      · by_cases hmet : Met n k d
        · have hgrown := hk.grow hn hneed hmet
          exact ⟨iff_of_true hgrown.inBounds fun _ => hmet, fun _ => ⟨_, hgrown⟩⟩
        · have hover := hk.overrun hneed hmet
          exact ⟨iff_of_false (by rw [hover]; exact Bool.false_ne_true) fun h => hmet (h hneed),
            fun h => absurd (h hneed) hmet⟩
      · have hgrown := hk.fit hseen (Nat.not_lt.mp hneed)
        exact ⟨iff_of_true hgrown.inBounds fun h => absurd h hneed, fun _ => ⟨_, hgrown⟩⟩
    · have hnot : ¬ InTime n (ds ++ [d]) := fun h => hds (inTime_append.mp h).1
      have hkept : (b.demand d).inBounds = true → b.inBounds = true := fun h =>
        (Bool.and_eq_true_iff.mp h).1
      exact ⟨iff_of_false (fun h => hds (ih.1.mp (hkept h))) hnot, fun h => absurd h hnot⟩

end SystemProgramming.Lib
