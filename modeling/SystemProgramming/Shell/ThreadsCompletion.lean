import SystemProgramming.Shell.Threads

/-!
# The threads that count come to an end

That no run of `Shell/threads.c` is endless and none gets stuck, whoever gets the lock and whenever
a thread is scheduled.

* `Order` says what main has done with the threads, and that it owns the lock only while it creates
  them.
* `rank` is lowered by every step: a count still to come is worth one round of a thread's loop.
* `threads_terminate`: a run has a bounded number of steps, and where no step is left main has
  joined all threads and no count is lost.
-/

namespace SystemProgramming.Shell.Threads

open Lib

variable {limit n : Nat} {s s' : State n} {t : Fin n}

/-! ## What main has done -/

/-- **Main and the threads.** -/
structure Order (s : State n) : Prop where
  owner : s.owner = some none → s.main = .exited ∨ ∃ i, s.main = .create i
  created : ∀ i, s.main = .create i → i ≤ n ∧ ∀ t : Fin n, t < i → s.thread t ≠ none
  joining : ∀ i, s.main = .join i →
    i ≤ n ∧ (∀ t, s.thread t ≠ none) ∧ ∀ t : Fin n, t < i → finished (s.thread t) = true

namespace Order

/-- A thread that goes on from a place in its loop. -/
theorem goto (h : Order s) {w : TWork} (ht : s.thread t = some w)
    (hw : finished (some w) = false) {phase : Phase} {c g : Nat} {o : Option (Agent n)}
    (ho : o = some none → s.owner = some none) :
    Order { s.goto t phase c with owner := o, globalCount := g } := by
  have hthere : ∀ {u}, s.thread u ≠ none → (s.goto t phase c).thread u ≠ none := fun {u} hu => by
    by_cases hut : u = t
    · rw [hut, goto_thread_self]
      simp
    · rwa [goto_thread_of_ne s phase c hut]
  refine ⟨fun he => h.owner (ho he), fun i hm => ?_, fun i hm => ?_⟩
  · obtain ⟨hi, hall⟩ := h.created i hm
    exact ⟨hi, fun u hu => hthere (hall u hu)⟩
  · obtain ⟨hi, hall, hdone⟩ := h.joining i hm
    refine ⟨hi, fun u => hthere (hall u), fun u hu => ?_⟩
    have hut : u ≠ t := by
      rintro rfl
      exact absurd ((hdone u hu).symm.trans (ht ▸ hw)) (by simp)
    show finished ((s.goto t phase c).thread u) = true
    rw [goto_thread_of_ne s phase c hut]
    exact hdone u hu

theorem threadStep (h : Order s) (hs : ThreadStep limit t s s') : Order s' := by
  cases hs with
  | pass ht hlt => exact h.goto ht rfl id
  | stop ht hge => exact h.goto ht rfl id
  | lock ht hfree => exact h.goto ht rfl fun he => absurd he (by simp)
  | incGlobal ht => exact h.goto ht rfl id
  | incLocal ht => exact h.goto ht rfl id
  | unlock ht => exact h.goto ht rfl fun he => absurd he (by simp)

theorem mainStep (h : Order s) (hs : MainStep s s') : Order s' := by
  cases hs with
  | lock hm hfree =>
    refine ⟨fun _ => Or.inr ⟨0, rfl⟩, fun i hm' => ?_, fun i hm' => absurd hm' (by simp)⟩
    obtain rfl := Main.create.inj hm'
    exact ⟨Nat.zero_le n, fun t ht => absurd ht (Nat.not_lt_zero _)⟩
  | @create i hm =>
    refine ⟨fun _ => Or.inr ⟨_, rfl⟩, fun j hm' => ?_, fun j hm' => absurd hm' (by simp)⟩
    obtain rfl := Main.create.inj hm'
    refine ⟨i.isLt, fun t ht => ?_⟩
    show (s.goto i .test 0).thread t ≠ none
    by_cases hti : t = i
    · rw [hti, goto_thread_self]
      simp
    · rw [goto_thread_of_ne s _ _ hti]
      refine (h.created i hm).2 t ?_
      have : (t : Nat) ≠ i := fun he => hti (Fin.ext he)
      omega
  | createFailed hm =>
    exact ⟨fun _ => Or.inl rfl, fun i hm' => absurd hm' (by simp),
      fun i hm' => absurd hm' (by simp)⟩
  | unlock hm =>
    refine ⟨fun he => absurd he (by simp), fun i hm' => absurd hm' (by simp), fun i hm' => ?_⟩
    obtain rfl := Main.join.inj hm'
    exact ⟨Nat.zero_le n, fun t => (h.created n hm).2 t t.isLt,
      fun t ht => absurd ht (Nat.not_lt_zero _)⟩
  | @join i c hm ht =>
    obtain ⟨hi, hall, hdone⟩ := h.joining i hm
    refine ⟨fun he => ?_, fun j hm' => absurd hm' (by simp), fun j hm' => ?_⟩
    · rcases h.owner he with hj | ⟨j, hj⟩ <;> exact absurd (hm.symm.trans hj) (by simp)
    · obtain rfl := Main.join.inj hm'
      refine ⟨i.isLt, hall, fun u hu => ?_⟩
      by_cases hui : u = i
      · show finished (s.thread u) = true
        rw [hui, ht]
        rfl
      · have : (u : Nat) ≠ i := fun he => hui (Fin.ext he)
        exact hdone u (by omega)

end Order

theorem order_of_reachable (h : (system limit n).Reachable s) : Order s := by
  refine System.invariant (fun s h0 => ?_) (fun s s' _ hi hs => ?_) h
  · obtain rfl : s = .start n := h0
    exact ⟨fun he => absurd he (by simp [State.start]),
      fun i hm => absurd hm (by simp [State.start]), fun i hm => absurd hm (by simp [State.start])⟩
  · rcases hs with hs | ⟨-, t, hs⟩
    · exact hi.mainStep hs
    · exact hi.threadStep hs

/-! ## The rank -/

/-- How many steps a thread may still take before it comes back to the test or ends. -/
def Phase.rank : Phase → Nat
  | test => 1
  | lock => 5
  | incGlobal => 4
  | incLocal => 3
  | unlock => 2
  | done => 0

/-- The rank of a thread, if there is one. -/
def rankOf : Option TWork → Nat
  | some w => w.phase.rank
  | none => 0

/-- The rank of main. A thread that main creates has a rank of its own. -/
def Main.rank (n : Nat) : Main → Nat
  | lock => 3 * n + 2
  | create i => 2 * (n - i) + n + 1
  | join i => n - i
  | exited => 0

/-- **The rank of a state**: five for each count still to come, and the ranks of the threads and of
main. -/
def State.rank (limit : Nat) (s : State n) : Nat :=
  5 * (limit + n - (s.globalCount + count passed s.thread)) + ∑ t, rankOf (s.thread t) +
    s.main.rank n

/-- Moving one thread takes its old rank out of the sum and puts the new one in. -/
theorem sum_rankOf_goto (s : State n) (t : Fin n) (phase : Phase) (c : Nat) :
    ∑ u, rankOf ((s.goto t phase c).thread u) + rankOf (s.thread t) =
      ∑ u, rankOf (s.thread u) + phase.rank := by
  have h := sum_change (f := fun u => rankOf (s.thread u))
    (g := fun u => rankOf ((s.goto t phase c).thread u)) (t := t) fun u hu => by
      rw [goto_thread_of_ne s phase c hu]
  rw [goto_thread_self] at h
  exact h

/-- A thread that goes on lowers the rank, if it gives up more than it gets for the `d` counts that
are not to come any more. -/
theorem rank_goto {old phase : Phase} {b c g d : Nat} {o : Option (Agent n)}
    (ht : s.thread t = some ⟨old, b⟩)
    (hbound : g + count passed (s.goto t phase c).thread < limit + n)
    (hcount : g + (if passed (some ⟨phase, c⟩) = true then 1 else 0) =
      s.globalCount + (if passed (some ⟨old, b⟩) = true then 1 else 0) + d)
    (hrank : phase.rank < old.rank + 5 * d) :
    State.rank limit { s.goto t phase c with owner := o, globalCount := g } < s.rank limit := by
  have hsum := sum_rankOf_goto s t phase c
  have hpassed := count_goto passed s t phase c
  rw [ht] at hsum hpassed
  have hold : rankOf (some ⟨old, b⟩) = old.rank := rfl
  have hmain : (s.goto t phase c).main = s.main := rfl
  unfold State.rank
  dsimp only
  rw [hmain]
  omega

/-- **A step of a thread lowers the rank.** Passing the test uses up a count. -/
theorem rank_threadStep (h : Inv limit s) (hs : ThreadStep limit t s s') :
    s'.rank limit < s.rank limit := by
  have hbound := (h.threadStep hs).bound
  cases hs with
  | pass ht hlt => exact rank_goto (d := 1) ht hbound rfl (by decide)
  | stop ht hge => exact rank_goto (d := 0) ht hbound rfl (by decide)
  | lock ht hfree => exact rank_goto (d := 0) ht hbound rfl (by decide)
  | incGlobal ht => exact rank_goto (d := 0) ht hbound rfl (by decide)
  | incLocal ht => exact rank_goto (d := 0) ht hbound rfl (by decide)
  | unlock ht => exact rank_goto (d := 0) ht hbound rfl (by decide)

/-- **A step of main lowers the rank.** -/
theorem rank_mainStep (h : Inv limit s) (hs : MainStep s s') :
    s'.rank limit < s.rank limit := by
  cases hs with
  | lock hm hfree =>
    simp only [State.rank, hm, Main.rank]
    omega
  | @create i hm =>
    have hnone := (h.creating i hm).2 i le_rfl
    have hsum := sum_rankOf_goto s i .test 0
    have hpassed := count_goto passed s i .test 0
    have hrank : rankOf none = 0 ∧ Phase.test.rank = 1 := ⟨rfl, rfl⟩
    simp only [hnone, hrank] at hsum
    simp only [hnone, passed, Bool.false_eq_true, if_false] at hpassed
    have hi := i.isLt
    have hcount : (s.goto i .test 0).globalCount = s.globalCount := rfl
    unfold State.rank
    dsimp only
    rw [hm, hcount]
    simp only [Main.rank]
    omega
  | @createFailed i hm =>
    simp only [State.rank, hm, Main.rank]
    omega
  | unlock hm =>
    simp only [State.rank, hm, Main.rank]
    omega
  | @join i c hm ht =>
    have hi := i.isLt
    simp only [State.rank, hm, Main.rank]
    omega

/-- The rank at the start. -/
theorem rank_start : (State.start n).rank limit = 5 * limit + 8 * n + 2 := by
  have hpassed : count passed (State.start n).thread = 0 := count_eq_zero_iff.mpr fun _ => rfl
  have hsum : ∑ t, rankOf ((State.start n).thread t) = 0 :=
    Finset.sum_eq_zero fun _ _ => rfl
  unfold State.rank
  rw [hpassed, hsum]
  simp only [State.start, Main.rank]
  omega

/-! ## Where no step is left -/

/-- **A thread in its loop can go on** if nobody owns the lock, or if it does. -/
theorem exists_threadStep (h : Inv limit s) {w : TWork} (ht : s.thread t = some w)
    (hw : finished (some w) = false)
    (ho : s.owner = none ∨ s.owner = some (some t)) : ∃ s', ThreadStep limit t s s' := by
  obtain ⟨phase, c⟩ := w
  cases phase with
  | test =>
    by_cases hlt : s.globalCount < limit
    · exact ⟨_, .pass ht hlt⟩
    · exact ⟨_, .stop ht hlt⟩
  | lock =>
    refine ⟨_, .lock ht (ho.resolve_right fun hown => ?_)⟩
    have hin := (h.owner_iff t).mpr hown
    rw [ht] at hin
    exact absurd hin (by simp [inside])
  | incGlobal => exact ⟨_, .incGlobal ht⟩
  | incLocal => exact ⟨_, .incLocal ht⟩
  | unlock => exact ⟨_, .unlock ht⟩
  | done => exact absurd hw (by simp [finished])

/-- **Main exits or has joined all threads**, where no step is left. -/
theorem main_of_stuck (h : Inv limit s) (ho : Order s)
    (hs : ∀ s', ¬ (system limit n).next s s') :
    s.main = .exited ∨ (s.main = .join n ∧ ∀ t, finished (s.thread t) = true) := by
  have hmain : ∀ s', ¬ MainStep s s' := fun s' hstep => hs s' (Or.inl hstep)
  cases hm : s.main with
  | exited => exact Or.inl rfl
  | lock =>
    refine absurd (MainStep.lock hm ?_) (hmain _)
    cases hown : s.owner with
    | none => rfl
    | some a =>
      cases a with
      | none => rcases ho.owner hown with he | ⟨i, he⟩ <;> exact absurd (hm.symm.trans he) (by simp)
      | some t =>
        have hin := (h.owner_iff t).mpr hown
        rw [h.fresh hm t] at hin
        exact absurd hin (by simp [inside])
  | create i =>
    rcases (ho.created i hm).1.lt_or_eq with hlt | rfl
    · exact absurd (MainStep.create (i := ⟨i, hlt⟩) hm) (hmain _)
    · exact absurd (MainStep.unlock hm) (hmain _)
  | join i =>
    obtain ⟨hle, hall, hdone⟩ := ho.joining i hm
    have hthread : ∀ t s', ¬ ThreadStep limit t s s' := fun t s' hstep =>
      hs s' (Or.inr ⟨by simp [hm], t, hstep⟩)
    rcases hle.lt_or_eq with hlt | rfl
    · -- a thread that is not over can go on, unless another is behind the lock, which can
      obtain ⟨w, hw⟩ := Option.ne_none_iff_exists'.mp (hall ⟨i, hlt⟩)
      cases hfin : finished (some w) with
      | true =>
        obtain ⟨phase, c⟩ := w
        cases phase with
        | done => exact absurd (MainStep.join (i := ⟨i, hlt⟩) hm hw) (hmain _)
        | _ => exact absurd hfin (by simp [finished])
      | false =>
        cases hown : s.owner with
        | none =>
          obtain ⟨s', hstep⟩ := exists_threadStep h hw hfin (Or.inl hown)
          exact absurd hstep (hthread _ _)
        | some a =>
          cases a with
          | none =>
            rcases ho.owner hown with he | ⟨j, he⟩ <;> exact absurd (hm.symm.trans he) (by simp)
          | some t =>
            obtain ⟨v, hv⟩ := Option.ne_none_iff_exists'.mp (hall t)
            have hin := (h.owner_iff t).mpr hown
            rw [hv] at hin
            have hvfin : finished (some v) = false := by
              obtain ⟨phase, c⟩ := v
              cases phase with
              | done => exact absurd hin (by simp [inside])
              | _ => rfl
            obtain ⟨s', hstep⟩ := exists_threadStep h hv hvfin (Or.inr hown)
            exact absurd hstep (hthread _ _)
    · exact Or.inr ⟨rfl, fun t => hdone t t.isLt⟩

/-- Conversely, no step is left when main has joined all threads. -/
theorem stuck_of_joined (hm : s.main = .join n) (hall : ∀ t, finished (s.thread t) = true)
    (s' : State n) : ¬ (system limit n).next s s' := by
  have hjoin : ∀ {m : Main}, m ≠ .join n → s.main ≠ m := fun hne he => hne (he.symm.trans hm)
  have hthread : ∀ {t : Fin n} {phase : Phase} {c : Nat}, phase ≠ .done →
      s.thread t ≠ some ⟨phase, c⟩ := fun {t phase c} hne ht => by
    have hfin := hall t
    rw [ht] at hfin
    cases phase with
    | done => exact hne rfl
    | _ => exact absurd hfin (by simp [finished])
  rintro (hs | ⟨-, t, hs⟩)
  · cases hs with
    | lock hm' hfree => exact hjoin (by simp) hm'
    | create hm' => exact hjoin (by simp) hm'
    | createFailed hm' => exact hjoin (by simp) hm'
    | unlock hm' => exact hjoin (by simp) hm'
    | @join i c hm' ht =>
      have hi := Main.join.inj (hm'.symm.trans hm)
      exact absurd i.isLt (by omega)
  · cases hs with
    | pass ht hlt => exact hthread (by simp) ht
    | stop ht hge => exact hthread (by simp) ht
    | lock ht hfree => exact hthread (by simp) ht
    | incGlobal ht => exact hthread (by simp) ht
    | incLocal ht => exact hthread (by simp) ht
    | unlock ht => exact hthread (by simp) ht

/-- Threads that are over have counted for themselves what they have counted. -/
theorem sum_of_finished (h : Inv limit s) (hall : ∀ t, finished (s.thread t) = true) :
    s.sum = s.globalCount := by
  have hnone : count between s.thread = 0 := count_eq_zero_iff.mpr fun t => by
    have ht := hall t
    cases hw : s.thread t with
    | none => rfl
    | some w =>
      obtain ⟨phase, c⟩ := w
      rw [hw] at ht
      cases phase with
      | done => rfl
      | _ => exact absurd ht (by simp [finished])
  have hsum := h.sum
  omega

/-- **The program comes to its end.** A run has at most a bounded number of steps. Where no step is
left, main has exited since a thread could not be created, or it has joined all threads, and the
counts add up to at least the limit and less than one for each thread above it. -/
theorem threads_terminate (limit n : Nat) (hn : 0 < n) :
    (∀ k s, (system limit n).Steps k (.start n) s → k ≤ 5 * limit + 8 * n + 2) ∧
    ∀ s, (system limit n).Reachable s → (∀ s', ¬ (system limit n).next s s') →
      s.main = .exited ∨ (s.main = .join n ∧ (∀ t, finished (s.thread t) = true) ∧
        s.sum = s.globalCount ∧ limit ≤ s.globalCount ∧ s.globalCount < limit + n) := by
  refine ⟨fun k s hsteps => ?_, fun s h hs => ?_⟩
  · have hle := hsteps.rank_le (State.rank limit) (fun s s' h hs => ?_) (.start rfl)
    · rw [rank_start] at hle
      omega
    · have hi := inv_of_reachable hn h
      rcases hs with hs | ⟨-, t, hs⟩
      · exact rank_mainStep hi hs
      · exact rank_threadStep hi hs
  · have hi := inv_of_reachable hn h
    refine (main_of_stuck hi (order_of_reachable h) hs).imp_right fun ⟨hm, hall⟩ => ?_
    have hbound := hi.bound
    exact ⟨hm, hall, sum_of_finished hi hall, hi.reached ⟨0, hn⟩ (hall _), by omega⟩

/-- One thread that counts once. -/
theorem threads_terminate_one : ∃ s, (system 1 1).Steps 10 (.start 1) s ∧
    10 ≤ 5 * 1 + 8 * 1 + 2 ∧ s.main = .join 1 ∧ s.sum = s.globalCount ∧ s.globalCount = 1 := by
  have main : ∀ {k : Nat} {s s' : State 1}, (system 1 1).Steps k (.start 1) s → MainStep s s' →
      (system 1 1).Steps (k + 1) (.start 1) s' := fun h hs => h.tail (Or.inl hs)
  have thread : ∀ {k : Nat} {s s' : State 1}, (system 1 1).Steps k (.start 1) s →
      s.main ≠ .exited → ThreadStep 1 0 s s' → (system 1 1).Steps (k + 1) (.start 1) s' :=
    fun h hm hs => h.tail (Or.inr ⟨hm, 0, hs⟩)
  have h₀ : (system 1 1).Steps 0 (.start 1) (.start 1) := .refl _
  have h₁ := main h₀ (.lock rfl rfl)
  have h₂ := main h₁ (.create (i := 0) rfl)
  have h₃ := main h₂ (.unlock rfl)
  have h₄ := thread h₃ (by simp) (.pass rfl (by decide))
  have h₅ := thread h₄ (by simp [State.goto]) (.lock rfl rfl)
  have h₆ := thread h₅ (by simp [State.goto]) (.incGlobal rfl)
  have h₇ := thread h₆ (by simp [State.goto]) (.incLocal rfl)
  have h₈ := thread h₇ (by simp [State.goto]) (.unlock rfl)
  have h₉ := thread h₈ (by simp [State.goto]) (.stop rfl (by decide))
  have h₁₀ := main h₉ (.join (i := 0) rfl rfl)
  obtain ⟨hbound, hends⟩ := threads_terminate 1 1 Nat.one_pos
  have hreach : (system 1 1).Reachable (State.start 1) := .start rfl
  have hends := hends _ (hreach.steps h₁₀) (stuck_of_joined rfl (Fin.forall_fin_one.mpr rfl))
  refine ⟨_, h₁₀, hbound _ _ h₁₀, rfl, ?_, rfl⟩
  exact (hends.resolve_left (by simp)).2.2.1

end SystemProgramming.Shell.Threads
