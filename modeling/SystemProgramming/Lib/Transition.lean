import Mathlib.Algebra.BigOperators.Group.Finset.Piecewise
import Mathlib.Data.List.Count
import Mathlib.Data.Fintype.Card
import Mathlib.Logic.Relation

/-!
# Transition systems and families of threads

Reachability over a relation, the induction rule that every safety result is an instance of
(`System.invariant`), the rule that carries invariants from one system to a finer one
(`System.simulation`), and runs restricted to steps of one kind (`System.restrict`).

A family of threads is a function `ι → φ` from a finite index type to local states. `count p f`
is the number of threads whose local state satisfies `p`. Moving one thread changes it by at most
one, and `count_update` says so in a form `omega` can use.

A history that names the thread of each entry is the sum of the threads' histories, which are its
fibres (`count_filterMap_fibres`). `callsOf` is the history of one thread.
-/

namespace SystemProgramming.Lib

/-! ## Reachable states -/

/-- A transition system: initial states and a step relation. -/
structure System (σ : Type) where
  init : σ → Prop
  next : σ → σ → Prop

namespace System

variable {σ τ : Type} {S : System σ} {T : System τ}

/-- The states of the runs of `S`. -/
def Reachable (S : System σ) (s : σ) : Prop :=
  ∃ s₀, S.init s₀ ∧ Relation.ReflTransGen S.next s₀ s

theorem Reachable.start {s : σ} (h : S.init s) : S.Reachable s :=
  ⟨s, h, Relation.ReflTransGen.refl⟩

theorem Reachable.step {s s' : σ} (h : S.Reachable s) (hs : S.next s s') : S.Reachable s' := by
  obtain ⟨s₀, h0, hr⟩ := h
  exact ⟨s₀, h0, hr.tail hs⟩

/-- **The invariant rule.** What holds initially and is kept by every step from a reachable
state holds of every reachable state. -/
theorem invariant {I : σ → Prop} (h0 : ∀ s, S.init s → I s)
    (hs : ∀ s s', S.Reachable s → I s → S.next s s' → I s') {s : σ} (h : S.Reachable s) : I s := by
  obtain ⟨s₀, hi, hr⟩ := h
  induction hr with
  | refl => exact h0 s₀ hi
  | tail hab hbc ih => exact hs _ _ ⟨s₀, hi, hab⟩ ih hbc

/-- **The simulation rule.** If `f` maps initial states to initial states and every step to a
step or to nothing, it maps reachable states to reachable states. -/
theorem simulation (f : σ → τ) (h0 : ∀ s, S.init s → T.init (f s))
    (hs : ∀ s s', S.Reachable s → S.next s s' → f s' = f s ∨ T.next (f s) (f s'))
    {s : σ} (h : S.Reachable s) : T.Reachable (f s) := by
  refine invariant (I := fun s => T.Reachable (f s)) (fun s hi => .start (h0 s hi)) ?_ h
  intro a b ha hfa hab
  rcases hs a b ha hab with he | hn
  · rw [he]
    exact hfa
  · exact hfa.step hn

/-- A state found by running a list of actions is reachable. -/
theorem Reachable.foldlM {α : Type} {step : σ → α → Option σ}
    (hstep : ∀ s a s', step s a = some s' → S.next s s') {as : List α} {s s' : σ}
    (h : S.Reachable s) (hr : as.foldlM step s = some s') : S.Reachable s' := by
  induction as generalizing s with
  | nil => exact Option.some.inj hr ▸ h
  | cons a as ih =>
    obtain ⟨s₁, h1, h2⟩ := Option.bind_eq_some_iff.mp (List.foldlM_cons.symm.trans hr)
    exact ih (h.step (hstep s a s₁ h1)) h2

/-- **The ranking rule.** If every step lowers a number, there is no endless run. -/
theorem wellFounded_of_rank (rank : σ → Nat) (h : ∀ s s', S.next s s' → rank s' < rank s) :
    WellFounded fun s' s => S.next s s' :=
  Subrelation.wf (fun {s' s} hn => h s s' hn) (InvImage.wf rank Nat.lt_wfRel.wf)

/-- A run of `k` steps leads from one state to another. -/
inductive Steps (S : System σ) : Nat → σ → σ → Prop
  | refl (a : σ) : Steps S 0 a a
  | tail {k : Nat} {a b c : σ} (h : Steps S k a b) (hs : S.next b c) : Steps S (k + 1) a c

theorem Reachable.steps {k : Nat} {a b : σ} (ha : S.Reachable a) (h : S.Steps k a b) :
    S.Reachable b := by
  induction h with
  | refl a => exact ha
  | tail _ hs ih => exact (ih ha).step hs

/-- If every step from a reachable state lowers a number, a run has at most as many steps. -/
theorem Steps.rank_le (rank : σ → Nat)
    (hrank : ∀ s s', S.Reachable s → S.next s s' → rank s' < rank s) {k : Nat} {a b : σ}
    (ha : S.Reachable a) (h : S.Steps k a b) : k + rank b ≤ rank a := by
  induction h with
  | refl a => exact (Nat.zero_add _).le
  | tail h hs ih =>
    have hlt := hrank _ _ (ha.steps h) hs
    have hle := ih ha
    omega

/-- The runs of `S` all of whose steps satisfy `P`. -/
def restrict (S : System σ) (P : σ → σ → Prop) : System σ where
  init := S.init
  next := fun s s' => S.next s s' ∧ P s s'

theorem Reachable.of_restrict {P : σ → σ → Prop} {s : σ} (h : (S.restrict P).Reachable s) :
    S.Reachable s := by
  obtain ⟨s₀, h0, hr⟩ := h
  exact ⟨s₀, h0, Relation.ReflTransGen.mono (fun _ _ hab => hab.1) _ _ hr⟩

end System

/-! ## Histories -/

section Histories

variable {ι β : Type} [DecidableEq ι]

/-- The entries of thread `t` in a log, in order. -/
def callsOf (t : ι) (log : List (ι × β)) : List β :=
  (log.filter fun e => e.1 = t).map Prod.snd

theorem callsOf_snoc (t u : ι) (log : List (ι × β)) (x : β) :
    callsOf t (log ++ [(u, x)]) = callsOf t log ++ (if u = t then [x] else []) := by
  unfold callsOf
  rw [List.filter_append, List.map_append]
  congr 1
  by_cases h : u = t <;> simp [h]

theorem mem_log_of_callsOf {t : ι} {log : List (ι × β)} {x : β} (h : x ∈ callsOf t log) :
    (t, x) ∈ log := by
  obtain ⟨⟨u, x'⟩, he, rfl⟩ := List.mem_map.mp h
  obtain ⟨hl, hu⟩ := List.mem_filter.mp he
  obtain rfl : u = t := by simpa using hu
  exact hl

end Histories

/-! ## Counting threads -/

section Count

variable {ι φ : Type} [Fintype ι]

/-- The number of threads whose local state satisfies `p`. -/
def count (p : φ → Bool) (f : ι → φ) : Nat :=
  (Finset.univ.filter fun t => p (f t) = true).card

theorem count_eq_sum (p : φ → Bool) (f : ι → φ) :
    count p f = ∑ t, if p (f t) = true then 1 else 0 :=
  Finset.card_filter _ _

theorem count_le_card (p : φ → Bool) (f : ι → φ) : count p f ≤ Fintype.card ι :=
  Finset.card_le_univ _

/-- Changing a function at one point takes its old value out of the sum and puts the new one in. -/
theorem sum_change [DecidableEq ι] {f g : ι → Nat} {t : ι} (h : ∀ u, u ≠ t → g u = f u) :
    ∑ u, g u + f t = ∑ u, f u + g t := by
  have hrest : ∑ u ∈ Finset.univ.erase t, g u = ∑ u ∈ Finset.univ.erase t, f u :=
    Finset.sum_congr rfl fun u hu => h u (Finset.ne_of_mem_erase hu)
  rw [← Finset.add_sum_erase _ g (Finset.mem_univ t),
    ← Finset.add_sum_erase _ f (Finset.mem_univ t), hrest]
  omega

/-- **Moving one thread** takes its old state out of the count and puts the new one in. -/
theorem count_update [DecidableEq ι] (p : φ → Bool) (f : ι → φ) (t : ι) (x : φ) :
    count p (Function.update f t x) + (if p (f t) = true then 1 else 0) =
      count p f + (if p x = true then 1 else 0) := by
  have h := sum_change (f := fun u => if p (f u) = true then 1 else 0)
    (g := fun u => if p (Function.update f t x u) = true then 1 else 0) (t := t)
    fun u hu => by rw [Function.update_of_ne hu]
  rw [count_eq_sum, count_eq_sum]
  simpa using h

theorem count_pos_iff {p : φ → Bool} {f : ι → φ} : 0 < count p f ↔ ∃ t, p (f t) = true := by
  unfold count
  rw [Finset.card_pos]
  constructor
  · rintro ⟨t, ht⟩
    exact ⟨t, (Finset.mem_filter.mp ht).2⟩
  · rintro ⟨t, ht⟩
    exact ⟨t, Finset.mem_filter.mpr ⟨Finset.mem_univ t, ht⟩⟩

theorem count_eq_zero_iff {p : φ → Bool} {f : ι → φ} :
    count p f = 0 ↔ ∀ t, p (f t) = false := by
  rw [← Nat.le_zero, ← not_lt, count_pos_iff, not_exists]
  simp only [Bool.not_eq_true]

/-- At most one thread in `p` means that any two threads in `p` are the same. -/
theorem count_le_one_iff {p : φ → Bool} {f : ι → φ} :
    count p f ≤ 1 ↔ ∀ t u, p (f t) = true → p (f u) = true → t = u := by
  unfold count
  rw [Finset.card_le_one]
  simp only [Finset.mem_filter, Finset.mem_univ, true_and]
  exact ⟨fun h t u ht hu => h t ht u hu, fun h t ht u hu => h t u ht hu⟩

theorem count_congr {p q : φ → Bool} {f g : ι → φ} (h : ∀ t, p (f t) = q (g t)) :
    count p f = count q g := by
  unfold count
  simp only [h]

/-- **A list is the sum of its fibres**, counted. -/
theorem count_filterMap_fibres {β γ : Type} [DecidableEq ι] [BEq γ] (key : β → ι)
    (f : β → Option γ) (x : γ) (l : List β) :
    (l.filterMap f).count x = ∑ t, ((l.filter fun e => key e = t).filterMap f).count x := by
  induction l with
  | nil => simp
  | cons a l ih =>
    have hcons : ∀ l : List β, ((a :: l).filterMap f).count x =
        ([a].filterMap f).count x + (l.filterMap f).count x := fun l => by
      rw [← List.singleton_append, List.filterMap_append, List.count_append]
    have hsplit : ∀ t, (((a :: l).filter fun e => key e = t).filterMap f).count x =
        (if key a = t then ([a].filterMap f).count x else 0) +
          ((l.filter fun e => key e = t).filterMap f).count x := fun t => by
      by_cases h : key a = t
      · rw [List.filter_cons_of_pos (by simpa using h), hcons, if_pos h]
      · rw [List.filter_cons_of_neg (by simpa using h), if_neg h, Nat.zero_add]
    rw [hcons, ih, Finset.sum_congr rfl fun t _ => hsplit t, Finset.sum_add_distrib,
      Finset.sum_ite_eq, if_pos (Finset.mem_univ _)]

end Count

end SystemProgramming.Lib
