import SystemProgramming.HttpServer.Dispatch

/-!
# The children that the server with processes reaps

`dispatch` of `httpserver_process.c` with the two calls of `waitpid` at its end, on top of the model
of `Dispatch.lean`. A child is named by its connection. Its task runs on at any time, and a child
whose task is over has finished.

* `reachable_server`: without the calls of `waitpid`, the runs are those of the dispatcher.
* `swept_of_covered`: the children that had finished before a `dispatch` are reaped after it, as
  long as a last `waitpid` that finds one of them finds no other child.
-/

namespace SystemProgramming.HttpServer.Reaping

open Lib

/-- Where the parent stands: it does not wait, or it is about to call `waitpid` with what `fork` has
returned, where `none` is the `-1` of a `fork` that has failed, or with `-1`. -/
inductive Wait
  | idle
  | named (cpid : Option Nat)
  | any
  deriving DecidableEq

/-- The state: the server, the parent's calls of `waitpid`, the children that have been reaped, and
those that had finished, but had not been reaped, when `dispatch` was called last. -/
structure State where
  server : Dispatch.State
  wait : Wait
  reaped : Nat → Bool
  old : Nat → Bool

namespace State

/-- Nothing has been accepted. -/
def start : State := ⟨.start, .idle, fun _ => false, fun _ => false⟩

/-- The child has finished and has not been reaped. -/
def zombie (s : State) (c : Nat) : Bool := s.server.task c == .finished && !s.reaped c

/-- `dispatch` has returned. -/
def Accepting (s : State) : Prop := s.server.main = .accepting ∧ s.wait = .idle

/-- **No child that had finished before the last `dispatch` is unreaped.** -/
def Swept (s : State) : Prop := ∀ c, s.old c = true → s.zombie c = false

/-- A child that had finished before the last `dispatch` and is unreaped is the only finished child
that is. -/
def Covered (s : State) : Prop :=
  ∀ c d, s.old c = true → s.zombie c = true → s.zombie d = true → d = c

end State

/-- What `fork` has returned in the parent. -/
def cpid (server : Dispatch.State) : Option Nat :=
  if server.current ∈ server.failed then none else some server.current

/-- Behind its `close`, the parent waits. -/
def waitAfter (s : State) (server : Dispatch.State) : Wait :=
  if s.server.main ≠ .accepting ∧ server.main = .accepting then .named (cpid server) else s.wait

/-- `waitpid` with `WNOHANG`: it reaps the child that it is called for, or any one for `none`, if
that has finished. -/
inductive Waitpid (s : State) (pid : Option Nat) : State → Prop
  | reap (c : Nat) (hpid : pid = none ∨ pid = some c) (hz : s.zombie c = true) :
      Waitpid s pid { s with reaped := Function.update s.reaped c true }
  | nothing (h : ∀ c, pid = none ∨ pid = some c → s.zombie c = false) : Waitpid s pid s

/-- **A step of the server with processes.** -/
inductive Step (s : State) : State → Prop
  | accept {server : Dispatch.State} (hw : s.wait = .idle) (hs : Dispatch.Accept s.server server) :
      Step s { s with server := server, old := s.zombie }
  | work {server : Dispatch.State} (hs : Dispatch.Work .process s.server server) :
      Step s { s with server := server, wait := waitAfter s server }
  | waitNamed {pid : Option Nat} {t : State} (hw : s.wait = .named pid) (hs : Waitpid s pid t) :
      Step s { t with wait := .any }
  | waitAny {t : State} (hw : s.wait = .any) (hs : Waitpid s none t) :
      Step s { t with wait := .idle }

/-- The server with processes. -/
def system : System State where
  init := fun s => s = .start
  next := Step

/-- The last `waitpid` of a `dispatch` is not made while it could miss a child. -/
def LastWaitCovered (s s' : State) : Prop := s.wait = .any → s'.wait = .idle → s.Covered

variable {s s' t : State} {pid : Option Nat} {c : Nat}

/-! ## The server -/

/-- `waitpid` reaps at most, and changes nothing else. -/
theorem Waitpid.keeps (h : Waitpid s pid t) :
    t.server = s.server ∧ t.old = s.old ∧ ∀ c, t.zombie c = true → s.zombie c = true := by
  cases h with
  | nothing => exact ⟨rfl, rfl, fun c hc => hc⟩
  | reap d =>
    refine ⟨rfl, rfl, fun c hc => ?_⟩
    obtain ⟨htask, hreaped⟩ := Bool.and_eq_true_iff.mp hc
    by_cases hcd : c = d
    · subst hcd
      assumption
    · dsimp only at hreaped
      rw [Function.update_of_ne hcd] at hreaped
      exact Bool.and_eq_true_iff.mpr ⟨htask, hreaped⟩

/-- **Without the calls of `waitpid`** the runs are those of the dispatcher. -/
theorem reachable_server (h : system.Reachable s) :
    (Dispatch.system .process).Reachable s.server := by
  refine System.simulation State.server (fun s h0 => ?_) (fun s s' _ hs => ?_) h
  · rw [show s = .start from h0]
    rfl
  · cases hs with
    | accept hw hs => exact Or.inr (Or.inl hs)
    | work hs => exact Or.inr (Or.inr hs)
    | waitNamed hw hs => exact Or.inl hs.keeps.1
    | waitAny hw hs => exact Or.inl hs.keeps.1

/-- A task that is over stays over. -/
theorem finished_of_work {server server' : Dispatch.State} (hi : Dispatch.Inv .process server)
    (h : Dispatch.Work .process server server') (hc : server.task c = .finished) :
    server'.task c = .finished := by
  -- a step moves a task that is not over
  have hgoto : ∀ {d : Nat} {x : Dispatch.Task}, server.task d ≠ .finished →
      (server.goto d x).task c = .finished := fun {d x} hd => by
    have hcd : c ≠ d := by
      rintro rfl
      exact hd hc
    rw [Dispatch.goto_task_of_ne server x hcd, hc]
  cases h with
  | basic fd hk hm => exact absurd hk (by decide)
  | fork fd hk hm =>
    have habs := (hi.stage.fresh fd hm).2.1
    exact hgoto (habs ▸ by decide)
  | forkFailed fd hk hm => exact hc
  | parentClose fd hm => exact hc
  | create fd hk hm => exact absurd hk (by decide)
  | createFailed fd hk hm => exact hc
  | call d fd ht => exact hgoto (ht ▸ by simp)
  | handled d fd ht => exact hgoto (ht ▸ by simp)
  | closeChild d fd hk ht => exact hgoto (ht ▸ by simp)
  | exit d hk ht => exact hgoto (ht ▸ by simp)
  | closeThread d fd hk ht => exact absurd hk (by decide)
  | closeBasic d fd hk ht => exact absurd hk (by decide)

/-- The parent that is in `accept` stays there while the children run on. -/
theorem accepting_of_work {server server' : Dispatch.State}
    (h : Dispatch.Work .process server server') (hm : server.main = .accepting) :
    server'.main = .accepting := by
  cases h with
  | basic fd hk => exact absurd hk (by decide)
  | fork fd hk hm' => exact absurd (hm.symm.trans hm') (by simp)
  | forkFailed fd hk hm' => exact absurd (hm.symm.trans hm') (by simp)
  | parentClose fd hm' => rfl
  | create fd hk => rfl
  | createFailed fd hk => rfl
  | call | handled | closeChild | exit | closeThread => exact hm
  | closeBasic c fd hk => rfl

/-- **The invariant.** -/
structure Inv (s : State) : Prop where
  old_finished : ∀ c, s.old c = true → s.server.task c = .finished
  waiting : s.wait ≠ .idle → s.server.main = .accepting

theorem zombie_finished (h : s.zombie c = true) : s.server.task c = .finished :=
  eq_of_beq (Bool.and_eq_true_iff.mp h).1

/-- `waitpid` keeps the invariant. -/
theorem Inv.waitpid (h : Inv s) (hs : Waitpid s pid t) (hm : s.server.main = .accepting)
    (w : Wait) : Inv { t with wait := w } := by
  obtain ⟨hserver, hold, -⟩ := hs.keeps
  constructor
  case old_finished =>
    intro c hc
    dsimp only at hc ⊢
    rw [hserver]
    exact h.old_finished c (hold ▸ hc)
  case waiting =>
    intro _
    dsimp only
    rw [hserver, hm]

/-- **Every step keeps the invariant.** -/
theorem Inv.step (h : Inv s) (hi : Dispatch.Inv .process s.server) (hs : Step s s') : Inv s' := by
  cases hs with
  | accept hw hs =>
    refine ⟨fun c hc => ?_, fun hne => absurd hw hne⟩
    cases hs
    exact zombie_finished hc
  | work hs =>
    refine ⟨fun c hc => finished_of_work hi hs (h.old_finished c hc), fun hne => ?_⟩
    by_cases hm : s.server.main = .accepting
    · exact accepting_of_work hs hm
    · by_contra hm'
      dsimp only at hne hm'
      rw [waitAfter, if_neg fun hboth => hm' hboth.2] at hne
      exact hm (h.waiting hne)
  | waitNamed hw hs => exact h.waitpid hs (h.waiting (by simp [hw])) _
  | waitAny hw hs => exact h.waitpid hs (h.waiting (by simp [hw])) _

theorem inv_of_reachable (h : system.Reachable s) : Inv s := by
  refine System.invariant (fun s h0 => ?_) (fun s s' hr hi hs => ?_) h
  · rw [show s = .start from h0]
    exact ⟨fun c hc => absurd hc (by simp [State.start]), fun hne => absurd rfl hne⟩
  · exact hi.step (Dispatch.inv_of_reachable (reachable_server hr)) hs

/-! ## The children that are reaped -/

/-- A last `waitpid` that is covered leaves no old child. -/
theorem swept_of_waitAny (hc : s.Covered) (hs : Waitpid s none t) : t.Swept := by
  intro e he
  cases hs with
  | nothing h => exact h e (Or.inl rfl)
  | reap c _ hz =>
    by_contra hne
    have hze : s.zombie e = true :=
      (Waitpid.reap c (Or.inl rfl) hz).keeps.2.2 e (Bool.eq_true_of_not_eq_false hne)
    obtain rfl := hc e c he hze hz
    exact hne (by simp [State.zombie])

/-- One that is not can leave one. -/
theorem exists_missed (h : s.server.main = .accepting) (hw : s.wait = .any) (hc : ¬ s.Covered) :
    ∃ s', Step s s' ∧ s'.Accepting ∧ ¬ s'.Swept := by
  simp only [State.Covered, not_forall] at hc
  obtain ⟨c, d, hold, hz, hzd, hne⟩ := hc
  refine ⟨_, .waitAny hw (.reap d (Or.inl rfl) hzd), ⟨h, rfl⟩, fun hswept => ?_⟩
  have hkept : (s.server.task c == .finished && !Function.update s.reaped d true c) = true := by
    rw [Function.update_of_ne (Ne.symm hne)]
    exact hz
  exact absurd ((hswept c hold).symm.trans hkept) (by simp)

/-- **Every step that is covered** leaves no old child behind `dispatch`. -/
theorem swept_step (hi : Inv s) (h : s.Accepting → s.Swept) (hs : Step s s')
    (hc : LastWaitCovered s s') : s'.Accepting → s'.Swept := by
  intro ha
  cases hs with
  | accept hw hs =>
    cases hs
    exact absurd ha.1 (by simp)
  | waitNamed hw hs => exact absurd ha.2 (by simp)
  | waitAny hw hs =>
    have hswept := swept_of_waitAny (hc hw rfl) hs
    exact hswept
  | work hs =>
    have hm : s.server.main = .accepting := by
      by_contra hm
      have hw := ha.2
      dsimp only at hw
      rw [waitAfter, if_pos ⟨hm, ha.1⟩] at hw
      exact absurd hw (by simp)
    have hw : s.wait = .idle := by
      have hw := ha.2
      dsimp only at hw
      rwa [waitAfter, if_neg fun hboth => hboth.1 hm] at hw
    intro c hold
    -- the old children are over, and have been reaped
    have hreaped := h ⟨hm, hw⟩ c hold
    rw [State.zombie, hi.old_finished c hold, beq_self_eq_true, Bool.true_and] at hreaped
    show (_ && !s.reaped c) = false
    rw [hreaped, Bool.and_false]

/-- **The children that had finished before a `dispatch` are reaped after it**, if every last
`waitpid` that finds one of them finds no other child. One that finds two may leave one. -/
theorem swept_of_covered (s : State) :
    ((system.restrict LastWaitCovered).Reachable s → s.Accepting → s.Swept) ∧
    (system.Reachable s → s.wait = .any → ¬ s.Covered →
      ∃ s', system.next s s' ∧ s'.Accepting ∧ ¬ s'.Swept) := by
  refine ⟨fun h => ?_, fun h hw hc => ?_⟩
  · refine System.invariant (I := fun s => s.Accepting → s.Swept) (fun s h0 _ c hold => ?_)
      (fun s s' hr hi hs => ?_) h
    · rw [show s = .start from h0] at hold
      exact absurd hold (by simp [State.start])
    · exact swept_step (inv_of_reachable hr.of_restrict) hi hs.1 hs.2
  · exact exists_missed ((inv_of_reachable h).waiting (by simp [hw])) hw hc

/-! ## Runs -/

/-- A run on the descriptor 4, in which every `fork` has worked, has come to a state in which the
parent is in `accept` or waits. -/
structure At (s : State) (wait : Wait) (accepted : Nat) (task : Nat → Dispatch.Task)
    (reaped old : Nat → Bool) : Prop where
  reachable : (system.restrict LastWaitCovered).Reachable s
  main : s.server.main = .accepting
  free : s.server.table 4 = none
  failed : s.server.failed = []
  wait_eq : s.wait = wait
  accepted_eq : s.server.accepted = accepted
  task_eq : s.server.task = task
  reaped_eq : s.reaped = reaped
  old_eq : s.old = old

variable {wait : Wait} {accepted : Nat} {task : Nat → Dispatch.Task} {reaped old : Nat → Bool}

theorem at_start : At .start .idle 0 (fun _ => .absent) (fun _ => false) fun _ => false :=
  ⟨.start rfl, rfl, rfl, rfl, rfl, rfl, rfl, rfl, rfl⟩

/-- While the parent is in `accept` or waits, a step of a child leaves it there. -/
theorem At.work (h : At s wait accepted task reaped old) {server : Dispatch.State}
    (hs : Dispatch.Work .process s.server server)
    (hserver : server.main = s.server.main ∧ server.table = s.server.table ∧
      server.failed = s.server.failed ∧ server.accepted = s.server.accepted) :
    ∃ s', At s' wait accepted server.task reaped old ∧ s'.server = server := by
  obtain ⟨hm, htable, hfailed, haccepted⟩ := hserver
  have hwait : waitAfter s server = s.wait := if_neg fun hboth => hboth.1 h.main
  have hcovered : LastWaitCovered s { s with server := server, wait := waitAfter s server } :=
    fun hany hidle => by
      dsimp only at hidle
      rw [hwait, hany] at hidle
      exact absurd hidle (by simp)
  exact ⟨_, ⟨h.reachable.step ⟨.work hs, hcovered⟩, hm.trans h.main, htable ▸ h.free,
    hfailed.trans h.failed, hwait.trans h.wait_eq, haccepted.trans h.accepted_eq, rfl, h.reaped_eq,
    h.old_eq⟩, rfl⟩

/-- **A child can finish** at any time. -/
theorem At.finish (h : At s wait accepted task reaped old) (hc : task c = .call 4) :
    ∃ s', At s' wait accepted (Function.update task c .finished) reaped old := by
  obtain rfl := h.task_eq
  obtain ⟨s₁, h₁, he₁⟩ := h.work (.call c 4 hc) ⟨rfl, rfl, rfl, rfl⟩
  obtain ⟨s₂, h₂, he₂⟩ := h₁.work (.handled c 4 (by simp [he₁])) ⟨rfl, rfl, rfl, rfl⟩
  obtain ⟨s₃, h₃, he₃⟩ := h₂.work (.closeChild c 4 rfl (by simp [he₂])) ⟨rfl, rfl, rfl, rfl⟩
  obtain ⟨s₄, h₄, -⟩ := h₃.work (.exit c rfl (by simp [he₃])) ⟨rfl, rfl, rfl, rfl⟩
  refine ⟨s₄, ?_⟩
  convert h₄ using 1
  simp [he₁, he₂, he₃, Dispatch.State.goto]

/-- The parent can go through a `dispatch`, up to its last `waitpid`. -/
theorem At.dispatch (h : At s .idle accepted task reaped old) :
    ∃ s', At s' .any (accepted + 1) (Function.update task accepted (.call 4)) reaped
      fun c => task c == .finished && !reaped c := by
  obtain ⟨⟨n, main, table, tasks, childTable, failed, log⟩, w, r, o⟩ := s
  obtain ⟨hr, hm, hfree, hfailed, hw, ha, ht, hre, -⟩ := h
  dsimp only at hm hfree hfailed hw ha ht hre
  subst hm hfailed hw ha ht hre
  have hnone : ∀ {s s' : State}, s.wait ≠ .any → LastWaitCovered s s' := fun hne hany =>
    absurd hany hne
  -- the tables and the old children do not matter from here on
  obtain ⟨table', htable⟩ : ∃ t, t = Function.update table 4 (some n) := ⟨_, rfl⟩
  obtain ⟨old', hold⟩ : ∃ o' : Nat → Bool, o' = fun c => tasks c == .finished && !r c := ⟨_, rfl⟩
  have h₁ : (system.restrict LastWaitCovered).Reachable
      ⟨⟨n + 1, .dispatching 4, table', tasks, childTable, [], log⟩, .idle, r, old'⟩ := by
    rw [htable, hold]
    exact hr.step ⟨.accept rfl (.accept 4 rfl hfree), hnone (by simp)⟩
  have h₂ : (system.restrict LastWaitCovered).Reachable
      ⟨⟨n + 1, .parentClose 4, table', Function.update tasks n (.call 4),
        Function.update childTable n table', [], log⟩, .idle, r, old'⟩ :=
    h₁.step ⟨.work (.fork 4 rfl rfl), hnone (by simp)⟩
  have h₃ : (system.restrict LastWaitCovered).Reachable
      ⟨⟨n + 1, .accepting, Function.update table' 4 none, Function.update tasks n (.call 4),
        Function.update childTable n table', [], log ++ [.closed none (table' 4)]⟩,
        .named (some n), r, old'⟩ :=
    h₂.step ⟨.work (.parentClose 4 rfl), hnone (by simp)⟩
  have h₄ : (system.restrict LastWaitCovered).Reachable
      ⟨⟨n + 1, .accepting, Function.update table' 4 none, Function.update tasks n (.call 4),
        Function.update childTable n table', [], log ++ [.closed none (table' 4)]⟩,
        .any, r, old'⟩ := by
    refine h₃.step ⟨.waitNamed rfl (.nothing fun c hc => ?_), hnone (by simp)⟩
    obtain rfl := Option.some.inj (hc.resolve_left (by simp))
    simp [State.zombie]
  have hclosed : Function.update table' 4 none 4 = none := Function.update_self ..
  exact ⟨_, h₄, rfl, hclosed, rfl, rfl, rfl, rfl, rfl, hold⟩

/-- If no child has finished, the last `waitpid` changes nothing. -/
theorem At.sweep (h : At s .any accepted task reaped old) (hnone : ∀ c, task c ≠ .finished) :
    ∃ s', At s' .idle accepted task reaped old := by
  have hz : ∀ c, s.zombie c = false := fun c => by
    rw [State.zombie, h.task_eq, beq_eq_false_iff_ne.mpr (hnone c), Bool.false_and]
  have hcovered : s.Covered := fun c d _ hc => absurd (hc.symm.trans (hz c)) (by simp)
  exact ⟨_, h.reachable.step ⟨.waitAny h.wait_eq (.nothing fun c _ => hz c), fun _ _ => hcovered⟩,
    h.main, h.free, h.failed, rfl, h.accepted_eq, h.task_eq, h.reaped_eq, h.old_eq⟩

/-- A child that has not been reaped is a zombie if its task is over. -/
theorem At.zombie_eq (h : At s wait accepted task reaped old) (c : Nat) :
    s.zombie c = (task c == .finished && !reaped c) := by
  rw [State.zombie, h.task_eq, h.reaped_eq]

/-- One child finishes between two calls of `accept`, and is reaped. -/
theorem swept_of_covered_one : ∃ s, (system.restrict LastWaitCovered).Reachable s ∧
    s.old 0 = true ∧ s.Swept := by
  obtain ⟨s₁, h₁⟩ := at_start.dispatch
  obtain ⟨s₂, h₂⟩ := h₁.sweep fun c => by
    rcases eq_or_ne c 0 with rfl | hc
    · simp
    · simp [hc]
  obtain ⟨s₃, h₃⟩ := h₂.finish (c := 0) rfl
  obtain ⟨s₄, h₄⟩ := h₃.dispatch
  have hzero : s₄.zombie 0 = true := h₄.zombie_eq 0
  have honly : ∀ c, s₄.zombie c = true → c = 0 := fun c hc => by
    by_contra hne
    rw [h₄.zombie_eq] at hc
    rcases eq_or_ne c 1 with rfl | hc1
    · exact absurd hc (by simp)
    · exact absurd hc (by simp [hne, hc1])
  have hcovered : s₄.Covered := fun c d _ hc hd => (honly d hd).trans (honly c hc).symm
  have h₅ := h₄.reachable.step
    ⟨.waitAny h₄.wait_eq (.reap 0 (Or.inl rfl) hzero), fun _ _ => hcovered⟩
  refine ⟨_, h₅, ?_, (swept_of_covered _).1 h₅ ⟨h₄.main, rfl⟩⟩
  exact congrFun h₄.old_eq 0

/-- **Two children finish between two calls of `accept`**: the next `dispatch` reaps one of them. -/
theorem swept_misses :
    ¬ (∀ s, system.Reachable s → s.Accepting → s.Swept) ∧
    ∃ s, system.Reachable s ∧ s.Accepting ∧ s.old 1 = true ∧ s.zombie 1 = true := by
  have hrun : ∃ s, system.Reachable s ∧ s.Accepting ∧ s.old 1 = true ∧ s.zombie 1 = true := by
    obtain ⟨s₁, h₁⟩ := at_start.dispatch
    obtain ⟨s₂, h₂⟩ := h₁.sweep fun c => by
      rcases eq_or_ne c 0 with rfl | hc
      · simp
      · simp [hc]
    obtain ⟨s₃, h₃⟩ := h₂.dispatch
    obtain ⟨s₄, h₄⟩ := h₃.sweep fun c => by
      rcases eq_or_ne c 1 with rfl | hc1
      · simp
      rcases eq_or_ne c 0 with rfl | hc
      · simp
      · simp [hc, hc1]
    obtain ⟨s₅, h₅⟩ := h₄.finish (c := 0) rfl
    obtain ⟨s₆, h₆⟩ := h₅.finish (c := 1) rfl
    obtain ⟨s₇, h₇⟩ := h₆.dispatch
    have h₈ := h₇.reachable.of_restrict.step
      (.waitAny h₇.wait_eq (.reap 0 (Or.inl rfl) (h₇.zombie_eq 0)))
    refine ⟨_, h₈, ⟨h₇.main, rfl⟩, congrFun h₇.old_eq 1, ?_⟩
    show (s₇.server.task 1 == .finished && !Function.update s₇.reaped 0 true 1) = true
    rw [h₇.task_eq, h₇.reaped_eq]
    rfl
  refine ⟨fun hclaim => ?_, hrun⟩
  obtain ⟨s, h, ha, hold, hz⟩ := hrun
  exact absurd ((hclaim s h ha 1 hold).symm.trans hz) (by simp)

end SystemProgramming.HttpServer.Reaping
