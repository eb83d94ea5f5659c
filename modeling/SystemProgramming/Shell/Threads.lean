import SystemProgramming.Lib.Transition

/-!
# Threads that count under a lock

`Shell/threads.c`: main creates the threads while it holds `count_lock`, releases it and joins them.
Each thread counts one up, in `global_count` and for itself, until it finds that the limit is
reached. That test is made without the lock, as one read. The counters do not overflow. What `watch`
prints, and what main prints at the end, is left out.

* `Inv` says who is behind the lock, how the counters compare, and how many threads have passed the
  test without having counted. `Inv.step` keeps it.
* `globalCount_of_finished`: no count is lost, and less than one for each thread is too many.
-/

namespace SystemProgramming.Shell.Threads

open Lib

/-- Where a thread stands in `threadfun`: at the test, at `pthread_mutex_lock`, at the two
increments, at `pthread_mutex_unlock`, or at its end. -/
inductive Phase
  | test
  | lock
  | incGlobal
  | incLocal
  | unlock
  | done
  deriving DecidableEq

/-- A thread that has been created, with its `count`. -/
structure TWork where
  phase : Phase
  count : Nat
  deriving DecidableEq

/-- Where main stands: about to lock, to create `threads[i]`, or to unlock if there is none, about
to join `threads[i]`, or to print if there is none, or after `exit`. -/
inductive Main
  | lock
  | create (i : Nat)
  | join (i : Nat)
  | exited
  deriving DecidableEq

/-- Main, or a thread. -/
abbrev Agent (n : Nat) := Option (Fin n)

/-- The state of the program: who owns `count_lock`, the counter, the threads created so far, and
main. -/
structure State (n : Nat) where
  owner : Option (Agent n)
  globalCount : Nat
  thread : Fin n → Option TWork
  main : Main

variable {n : Nat}

/-- The state at the start. -/
def State.start (n : Nat) : State n := ⟨none, 0, fun _ => none, .lock⟩

/-- Thread `t` goes on. -/
def State.goto (s : State n) (t : Fin n) (phase : Phase) (count : Nat) : State n :=
  { s with thread := Function.update s.thread t (some ⟨phase, count⟩) }

/-- A step of `threadfun`. -/
inductive ThreadStep (limit : Nat) (t : Fin n) (s : State n) : State n → Prop
  | pass {c : Nat} (ht : s.thread t = some ⟨.test, c⟩) (hlt : s.globalCount < limit) :
      ThreadStep limit t s (s.goto t .lock c)
  | stop {c : Nat} (ht : s.thread t = some ⟨.test, c⟩) (hge : ¬ s.globalCount < limit) :
      ThreadStep limit t s (s.goto t .done c)
  | lock {c : Nat} (ht : s.thread t = some ⟨.lock, c⟩) (hfree : s.owner = none) :
      ThreadStep limit t s { s.goto t .incGlobal c with owner := some (some t) }
  | incGlobal {c : Nat} (ht : s.thread t = some ⟨.incGlobal, c⟩) :
      ThreadStep limit t s { s.goto t .incLocal c with globalCount := s.globalCount + 1 }
  | incLocal {c : Nat} (ht : s.thread t = some ⟨.incLocal, c⟩) :
      ThreadStep limit t s (s.goto t .unlock (c + 1))
  | unlock {c : Nat} (ht : s.thread t = some ⟨.unlock, c⟩) :
      ThreadStep limit t s { s.goto t .test c with owner := none }

/-- A step of main. -/
inductive MainStep (s : State n) : State n → Prop
  | lock (hm : s.main = .lock) (hfree : s.owner = none) :
      MainStep s { s with main := .create 0, owner := some none }
  | create {i : Fin n} (hm : s.main = .create i) :
      MainStep s { s.goto i .test 0 with main := .create (i + 1) }
  | createFailed {i : Fin n} (hm : s.main = .create i) : MainStep s { s with main := .exited }
  | unlock (hm : s.main = .create n) : MainStep s { s with main := .join 0, owner := none }
  | join {i : Fin n} {c : Nat} (hm : s.main = .join i) (ht : s.thread i = some ⟨.done, c⟩) :
      MainStep s { s with main := .join (i + 1) }

/-- The program with `n` threads and the limit `limit`. -/
def system (limit n : Nat) : System (State n) where
  init := fun s => s = .start n
  next := fun s s' => MainStep s s' ∨ (s.main ≠ .exited ∧ ∃ t, ThreadStep limit t s s')

/-! ## The invariant -/

/-- The thread is between lock and unlock. -/
def inside : Option TWork → Bool
  | some ⟨.incGlobal, _⟩ | some ⟨.incLocal, _⟩ | some ⟨.unlock, _⟩ => true
  | _ => false

/-- The thread has passed the test and has not counted yet. -/
def passed : Option TWork → Bool
  | some ⟨.lock, _⟩ | some ⟨.incGlobal, _⟩ => true
  | _ => false

/-- The thread has counted in `global_count`, but not for itself. -/
def between : Option TWork → Bool
  | some ⟨.incLocal, _⟩ => true
  | _ => false

/-- The thread has left its loop. -/
def finished : Option TWork → Bool
  | some ⟨.done, _⟩ => true
  | _ => false

/-- The count of a thread, if there is one. -/
def countOf : Option TWork → Nat
  | some w => w.count
  | none => 0

/-- The sum of the threads' counts. -/
def State.sum (s : State n) : Nat := ∑ t, countOf (s.thread t)

/-- **The invariant.** -/
structure Inv (limit : Nat) (s : State n) : Prop where
  owner_iff : ∀ t, inside (s.thread t) = true ↔ s.owner = some (some t)
  sum : s.sum + count between s.thread = s.globalCount
  bound : s.globalCount + count passed s.thread < limit + n
  reached : ∀ t, finished (s.thread t) = true → limit ≤ s.globalCount
  creating : ∀ i, s.main = .create i → s.owner = some none ∧
    ∀ t : Fin n, i ≤ t → s.thread t = none
  fresh : s.main = .lock → ∀ t, s.thread t = none

variable {limit : Nat} {s s' : State n} {t : Fin n}

@[simp] theorem goto_thread_self (s : State n) (t : Fin n) (phase : Phase) (c : Nat) :
    (s.goto t phase c).thread t = some ⟨phase, c⟩ := Function.update_self ..

theorem goto_thread_of_ne (s : State n) {t u : Fin n} (phase : Phase) (c : Nat) (h : u ≠ t) :
    (s.goto t phase c).thread u = s.thread u := Function.update_of_ne h ..

/-- Moving one thread takes its old count out of the sum and puts the new one in. -/
theorem sum_goto (s : State n) (t : Fin n) (phase : Phase) (c : Nat) :
    (s.goto t phase c).sum + countOf (s.thread t) = s.sum + c := by
  have h := sum_change (f := fun u => countOf (s.thread u))
    (g := fun u => countOf ((s.goto t phase c).thread u)) (t := t) fun u hu => by
      rw [goto_thread_of_ne s phase c hu]
  rw [goto_thread_self] at h
  exact h

/-- It changes the number of threads that are at some place accordingly. -/
theorem count_goto (p : Option TWork → Bool) (s : State n) (t : Fin n) (phase : Phase) (c : Nat) :
    count p (s.goto t phase c).thread + (if p (s.thread t) = true then 1 else 0) =
      count p s.thread + if p (some ⟨phase, c⟩) = true then 1 else 0 :=
  count_update p s.thread t _

/-- **What a step of a thread has to keep**: the lock, the counters and the number of threads that
have passed the test. -/
theorem Inv.goto (h : Inv limit s) {w : TWork} (ht : s.thread t = some w) {phase : Phase}
    {c g : Nat} {o : Option (Agent n)}
    (hself : inside (some ⟨phase, c⟩) = true ↔ o = some (some t))
    (hother : ∀ a, a ≠ some t → (o = some a ↔ s.owner = some a))
    (hsum : c + (if between (some ⟨phase, c⟩) = true then 1 else 0) + s.globalCount =
      w.count + (if between (some w) = true then 1 else 0) + g)
    (hbound : g + count passed (s.goto t phase c).thread < limit + n)
    (hreached : finished (some ⟨phase, c⟩) = true → limit ≤ g) (hmono : s.globalCount ≤ g) :
    Inv limit { s.goto t phase c with owner := o, globalCount := g } := by
  constructor
  case owner_iff =>
    intro u
    by_cases hu : u = t
    · subst hu
      rw [goto_thread_self]
      exact hself
    · rw [goto_thread_of_ne s phase c hu, h.owner_iff u]
      exact (hother (some u) fun he => hu (Option.some.inj he)).symm
  case sum =>
    have h1 := sum_goto s t phase c
    have h2 := count_goto between s t phase c
    have h3 := h.sum
    rw [ht] at h1 h2
    show (s.goto t phase c).sum + count between (s.goto t phase c).thread = g
    simp only [countOf] at h1
    omega
  case bound => exact hbound
  case reached =>
    intro u hu
    by_cases hut : u = t
    · subst hut
      rw [goto_thread_self] at hu
      exact hreached hu
    · rw [goto_thread_of_ne s phase c hut] at hu
      exact (h.reached u hu).trans hmono
  case creating =>
    intro i hm
    obtain ⟨howner, hnone⟩ := h.creating i hm
    refine ⟨(hother none (by simp)).mpr howner, fun u hu => ?_⟩
    have hut : u ≠ t := fun he => by
      rw [he] at hu
      exact absurd (ht.symm.trans (hnone t hu)) (by simp)
    rw [goto_thread_of_ne s phase c hut]
    exact hnone u hu
  case fresh => exact fun hm => absurd (ht.symm.trans (h.fresh hm t)) (by simp)

/-- The bound is kept if the thread counts only after it has passed the test. -/
theorem Inv.bound_goto (h : Inv limit s) {w : TWork} (ht : s.thread t = some w) {phase : Phase}
    {c g : Nat} (hle : g + (if passed (some ⟨phase, c⟩) = true then 1 else 0) ≤
      s.globalCount + if passed (some w) = true then 1 else 0) :
    g + count passed (s.goto t phase c).thread < limit + n := by
  have hcount := count_goto passed s t phase c
  have hbound := h.bound
  rw [ht] at hcount
  omega

/-- **A step of a thread.** -/
theorem Inv.threadStep (h : Inv limit s) (hs : ThreadStep limit t s s') : Inv limit s' := by
  have hsame : ∀ a, a ≠ some t → (s.owner = some a ↔ s.owner = some a) := fun _ _ => Iff.rfl
  -- a thread owns the lock between lock and unlock
  have hout : inside (s.thread t) = false → s.owner ≠ some (some t) := fun hno ho => by
    rw [(h.owner_iff t).mpr ho] at hno
    exact absurd hno (by simp)
  cases hs with
  | @pass c ht hlt =>
    rw [ht] at hout
    refine h.goto ht (iff_of_false (by simp [inside]) (hout rfl)) hsame rfl ?_ (by simp [finished])
      le_rfl
    -- at most `n` threads have passed a test, and the count was below the limit
    have hle := count_le_card passed (s.goto t .lock c).thread
    rw [Fintype.card_fin] at hle
    omega
  | @stop c ht hge =>
    rw [ht] at hout
    exact h.goto ht (iff_of_false (by simp [inside]) (hout rfl)) hsame rfl
      (h.bound_goto ht (by simp [passed])) (fun _ => Nat.le_of_not_lt hge) le_rfl
  | @lock c ht hfree =>
    exact h.goto (g := s.globalCount) ht (iff_of_true rfl rfl) (by simp [hfree, eq_comm]) rfl
      (h.bound_goto ht (by simp [passed])) (by simp [finished]) le_rfl
  | @incGlobal c ht =>
    have hown := (h.owner_iff t).mp (by rw [ht]; rfl)
    have hsum : c + 1 + s.globalCount = c + 0 + (s.globalCount + 1) := by omega
    exact h.goto ht (iff_of_true rfl hown) hsame hsum (h.bound_goto ht (by simp [passed]))
      (by simp [finished]) (Nat.le_succ _)
  | @incLocal c ht =>
    have hown := (h.owner_iff t).mp (by rw [ht]; rfl)
    exact h.goto ht (iff_of_true rfl hown) hsame rfl (h.bound_goto ht (by simp [passed]))
      (by simp [finished]) le_rfl
  | @unlock c ht =>
    have hown := (h.owner_iff t).mp (by rw [ht]; rfl)
    exact h.goto (g := s.globalCount) ht (by simp [inside]) (by simp [hown, eq_comm]) rfl
      (h.bound_goto ht (by simp [passed])) (by simp [finished]) le_rfl

/-- **What a step of main has to keep** that creates no thread. -/
theorem Inv.main (h : Inv limit s) {m : Main} {o : Option (Agent n)} (hm : ∀ i, m ≠ .create i)
    (hm' : m ≠ .lock) (ho : ∀ t : Fin n, s.owner = some (some t) ↔ o = some (some t)) :
    Inv limit { s with main := m, owner := o } :=
  ⟨fun t => (h.owner_iff t).trans (ho t), h.sum, h.bound, h.reached, fun i hi => absurd hi (hm i),
    fun hlock => absurd hlock hm'⟩

/-- Main creates a thread while it owns the lock. -/
theorem Inv.create (h : Inv limit s) {i : Fin n} (hm : s.main = .create i) :
    Inv limit { s.goto i .test 0 with main := .create (i + 1) } := by
  obtain ⟨howner, hnone⟩ := h.creating i hm
  have hi := hnone i le_rfl
  have h1 := sum_goto s i .test 0
  have h2 := count_goto between s i .test 0
  have h3 := count_goto passed s i .test 0
  have hsum := h.sum
  have hbound := h.bound
  simp only [hi, countOf, between, passed, Bool.false_eq_true, if_false] at h1 h2 h3
  constructor
  case owner_iff =>
    intro t
    show inside ((s.goto i .test 0).thread t) = true ↔ s.owner = some (some t)
    rcases eq_or_ne t i with rfl | ht
    · rw [goto_thread_self, howner]
      simp [inside]
    · rw [goto_thread_of_ne s _ _ ht, h.owner_iff t]
  case sum =>
    show (s.goto i .test 0).sum + count between (s.goto i .test 0).thread = s.globalCount
    omega
  case bound =>
    show s.globalCount + count passed (s.goto i .test 0).thread < limit + n
    omega
  case reached =>
    intro t ht
    refine h.reached t ?_
    rcases eq_or_ne t i with rfl | hti
    · rw [show _ = some _ from goto_thread_self s t .test 0] at ht
      exact absurd ht (by simp [finished])
    · exact (congrArg finished (goto_thread_of_ne s .test 0 hti)).symm.trans ht
  case creating =>
    intro j hj
    obtain rfl : (i : Nat) + 1 = j := Main.create.inj hj
    refine ⟨howner, fun t ht => ?_⟩
    have hti : t ≠ i := by
      rintro rfl
      omega
    exact (goto_thread_of_ne s .test 0 hti).trans (hnone t (by omega))
  case fresh => exact fun hm' => absurd hm' (by simp)

/-- **A step of main.** -/
theorem Inv.mainStep (h : Inv limit s) (hs : MainStep s s') : Inv limit s' := by
  cases hs with
  | lock hm hfree =>
    have hnone := h.fresh hm
    refine ⟨fun t => ?_, h.sum, h.bound, h.reached, fun i _ => ⟨rfl, fun t _ => hnone t⟩,
      fun hm' => absurd hm' (by simp)⟩
    rw [h.owner_iff t, hfree]
    simp
  | create hm => exact h.create hm
  | createFailed hm => exact h.main (by simp) (by simp) fun t => Iff.rfl
  | unlock hm =>
    obtain ⟨howner, -⟩ := h.creating n hm
    exact h.main (by simp) (by simp) fun t => by simp [howner]
  | join hm ht => exact h.main (by simp) (by simp) fun t => Iff.rfl

theorem inv_start (hn : 0 < n) : Inv limit (State.start n) where
  owner_iff := fun t => by simp [State.start, inside]
  sum := by
    have h : count between (State.start n).thread = 0 := count_eq_zero_iff.mpr fun _ => rfl
    rw [h]
    simp [State.sum, State.start, countOf]
  bound := by
    have h : count passed (State.start n).thread = 0 := count_eq_zero_iff.mpr fun _ => rfl
    rw [h]
    exact Nat.lt_of_lt_of_le hn (Nat.le_add_left n limit)
  reached := fun t h => absurd h (by simp [State.start, finished])
  creating := fun i h => absurd h (by simp [State.start])
  fresh := fun _ _ => rfl

theorem inv_of_reachable (hn : 0 < n) (h : (system limit n).Reachable s) : Inv limit s := by
  refine System.invariant (fun s h0 => ?_) (fun s s' _ hi hs => ?_) h
  · exact (show s = .start n from h0) ▸ inv_start hn
  · rcases hs with hs | ⟨-, t, hs⟩
    · exact hi.mainStep hs
    · exact hi.threadStep hs

/-! ## The counters -/

theorem inside_of_between {w : Option TWork} (h : between w = true) : inside w = true := by
  unfold between at h
  split at h
  · rfl
  · exact absurd h (by simp)

/-- **No count is lost, and less than one for each thread is too many.** While `count_lock` is free,
the threads' counts add up to `global_count`, and when all threads have left their loops, it is at
least the limit and at most `n - 1` above it. -/
theorem globalCount_of_finished (limit n : Nat) (hn : 0 < n) (s : State n)
    (h : (system limit n).Reachable s) :
    (s.owner = none → s.sum = s.globalCount) ∧
    ((∀ t, finished (s.thread t) = true) →
      limit ≤ s.globalCount ∧ s.globalCount ≤ limit + n - 1) := by
  have hi := inv_of_reachable hn h
  refine ⟨fun hfree => ?_, fun hall => ⟨hi.reached ⟨0, hn⟩ (hall _), ?_⟩⟩
  · have hnone : count between s.thread = 0 := count_eq_zero_iff.mpr fun t => by
      by_contra hb
      have hown := (hi.owner_iff t).mp (inside_of_between (Bool.eq_true_of_not_eq_false hb))
      exact absurd (hfree.symm.trans hown) (by simp)
    have := hi.sum
    omega
  · have := hi.bound
    omega

/-- Two threads that have both passed the test when the limit of one is reached. -/
theorem globalCount_of_finished_two : ∃ s : State 2, (system 1 2).Reachable s ∧
    s.owner = none ∧ (∀ t, finished (s.thread t) = true) ∧ s.globalCount = 2 ∧
    s.sum = s.globalCount ∧ 1 ≤ s.globalCount ∧ s.globalCount ≤ 1 + 2 - 1 := by
  have main : ∀ {s s' : State 2}, (system 1 2).Reachable s → MainStep s s' →
      (system 1 2).Reachable s' := fun h hs => h.step (Or.inl hs)
  have thread : ∀ {s s' : State 2} (t : Fin 2), (system 1 2).Reachable s → s.main ≠ .exited →
      ThreadStep 1 t s s' → (system 1 2).Reachable s' := fun t h hm hs =>
    h.step (Or.inr ⟨hm, t, hs⟩)
  have h₀ : (system 1 2).Reachable (State.start 2) := .start rfl
  have h₁ := main h₀ (.lock rfl rfl)
  have h₂ := main h₁ (.create (i := 0) rfl)
  have h₃ := main h₂ (.create (i := 1) rfl)
  have h₄ := main h₃ (.unlock rfl)
  have h₅ := thread 0 h₄ (by simp) (.pass rfl (by decide))
  have h₆ := thread 1 h₅ (by simp [State.goto]) (.pass rfl (by decide))
  have h₇ := thread 0 h₆ (by simp [State.goto]) (.lock rfl rfl)
  have h₈ := thread 0 h₇ (by simp [State.goto]) (.incGlobal rfl)
  have h₉ := thread 0 h₈ (by simp [State.goto]) (.incLocal rfl)
  have h₁₀ := thread 0 h₉ (by simp [State.goto]) (.unlock rfl)
  have h₁₁ := thread 1 h₁₀ (by simp [State.goto]) (.lock rfl rfl)
  have h₁₂ := thread 1 h₁₁ (by simp [State.goto]) (.incGlobal rfl)
  have h₁₃ := thread 1 h₁₂ (by simp [State.goto]) (.incLocal rfl)
  have h₁₄ := thread 1 h₁₃ (by simp [State.goto]) (.unlock rfl)
  have h₁₅ := thread 0 h₁₄ (by simp [State.goto]) (.stop rfl (by decide))
  have h₁₆ := thread 1 h₁₅ (by simp [State.goto]) (.stop rfl (by decide))
  obtain ⟨hsum, hcount⟩ := globalCount_of_finished 1 2 (by decide) _ h₁₆
  refine ⟨_, h₁₆, rfl, ?hall, rfl, hsum rfl, hcount ?hall⟩
  exact Fin.forall_fin_two.mpr ⟨rfl, rfl⟩

end SystemProgramming.Shell.Threads
