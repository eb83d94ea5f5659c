import SystemProgramming.HttpServer.Contract
import SystemProgramming.Lib.Transition

/-!
# The dispatchers that start a handler at once

`dispatch` of `httpserver_basic.c`, `httpserver_process.c` and `httpserver_thread.c`, under the
loop of `serve_forever` in `server.c`. Connections are numbered in the order of `accept`. The tables
have the client sockets only, and `accept` returns any free descriptor. The three dispatchers differ
in who runs a connection's task, in whose table, and in what happens when it cannot be started.

* `Inv` says which tasks have been started, what the log says, and who has what open. `Inv.accept`
  and `Inv.work` keep it.
* `contract_iff`: at rest the contract holds iff no `fork` and no `pthread_create` has failed.
-/

namespace SystemProgramming.HttpServer.Dispatch

open Lib

/-- The dispatcher the server is linked with. -/
inductive Kind
  | basic
  | process
  | thread
  deriving DecidableEq

/-- Where the main thread stands: in `accept`, in `dispatch`, in the parent's branch behind `fork`,
or in the handler, if it runs that itself. -/
inductive Main
  | accepting
  | dispatching (fd : Int)
  | parentClose (fd : Int)
  | busy
  deriving DecidableEq

/-- Where the task of a connection stands: it has not been started, it is about to call
`request_handler`, is in it, is about to call `close`, about to exit, or over. -/
inductive Task
  | absent
  | call (fd : Int)
  | inHandler (fd : Int)
  | close (fd : Int)
  | exit
  | finished
  deriving DecidableEq

namespace Task

/-- The descriptor the task has. -/
def fd : Task → Option Int
  | call fd | inHandler fd | close fd => some fd
  | _ => none

/-- It has called `request_handler`. -/
def handled : Task → Bool
  | inHandler _ | close _ | exit | finished => true
  | _ => false

/-- It has called `close`. -/
def ended : Task → Bool
  | exit | finished => true
  | _ => false

end Task

/-- The state: the connections so far, the main thread, the table of the server, the task of each
connection, the tables of the children, the connections whose task could not be started, and the
log. The agent `none` is the main thread, `some c` the one started for connection `c`. -/
structure State where
  accepted : Nat
  main : Main
  table : Int → Option Nat
  task : Nat → Task
  childTable : Nat → Int → Option Nat
  failed : List Nat
  log : List (Event (Option Nat))

namespace State

/-- Nothing has been accepted. -/
def start : State :=
  ⟨0, .accepting, fun _ => none, fun _ => .absent, fun _ _ => none, [], []⟩

/-- The connection accepted last. -/
def current (s : State) : Nat := s.accepted - 1

/-- The task of `c` moves on. -/
def goto (s : State) (c : Nat) (task : Task) : State :=
  { s with task := Function.update s.task c task }

/-- The table of the process that runs the task of `c`. -/
def tableOf (kind : Kind) (s : State) (c : Nat) : Int → Option Nat :=
  if kind = .process then s.childTable c else s.table

end State

theorem tableOf_process {kind : Kind} (hk : kind = .process) (s : State) (c : Nat) :
    s.tableOf kind c = s.childTable c := if_pos hk

theorem tableOf_of_ne {kind : Kind} (hk : kind ≠ .process) (s : State) (c : Nat) :
    s.tableOf kind c = s.table := if_neg hk

@[simp] theorem goto_task_self (s : State) (c : Nat) (task : Task) :
    (s.goto c task).task c = task := Function.update_self ..

theorem goto_task_of_ne (s : State) {c d : Nat} (task : Task) (h : d ≠ c) :
    (s.goto c task).task d = s.task d := Function.update_of_ne h ..

/-- Who runs the task of `c`. -/
def agent (kind : Kind) (c : Nat) : Option Nat := if kind = .basic then none else some c

/-- `accept` returns a descriptor. -/
inductive Accept (s : State) : State → Prop
  | accept (fd : Int) (hm : s.main = .accepting) (hfree : s.table fd = none) :
      Accept s { s with
        accepted := s.accepted + 1
        main := .dispatching fd
        table := Function.update s.table fd (some s.accepted) }

/-- **A step of a dispatcher.** -/
inductive Work (kind : Kind) (s : State) : State → Prop
  | basic (fd : Int) (hk : kind = .basic) (hm : s.main = .dispatching fd) :
      Work kind s { s.goto s.current (.call fd) with main := .busy }
  | fork (fd : Int) (hk : kind = .process) (hm : s.main = .dispatching fd) :
      Work kind s { s.goto s.current (.call fd) with
        main := .parentClose fd
        childTable := Function.update s.childTable s.current s.table }
  | forkFailed (fd : Int) (hk : kind = .process) (hm : s.main = .dispatching fd) :
      Work kind s { s with main := .parentClose fd, failed := s.current :: s.failed }
  | parentClose (fd : Int) (hm : s.main = .parentClose fd) :
      Work kind s { s with
        main := .accepting
        table := Function.update s.table fd none
        log := s.log ++ [.closed none (s.table fd)] }
  | create (fd : Int) (hk : kind = .thread) (hm : s.main = .dispatching fd) :
      Work kind s { s.goto s.current (.call fd) with main := .accepting }
  | createFailed (fd : Int) (hk : kind = .thread) (hm : s.main = .dispatching fd) :
      Work kind s { s with main := .accepting, failed := s.current :: s.failed }
  | call (c : Nat) (fd : Int) (ht : s.task c = .call fd) :
      Work kind s { s.goto c (.inHandler fd) with
        log := s.log ++ [.handled (agent kind c) (s.tableOf kind c fd)] }
  | handled (c : Nat) (fd : Int) (ht : s.task c = .inHandler fd) :
      Work kind s (s.goto c (.close fd))
  | closeChild (c : Nat) (fd : Int) (hk : kind = .process) (ht : s.task c = .close fd) :
      Work kind s { s.goto c .exit with
        childTable := Function.update s.childTable c (Function.update (s.childTable c) fd none)
        log := s.log ++ [.closed (agent kind c) (s.childTable c fd)] }
  | exit (c : Nat) (hk : kind = .process) (ht : s.task c = .exit) :
      Work kind s { s.goto c .finished with
        childTable := Function.update s.childTable c fun _ => none }
  | closeThread (c : Nat) (fd : Int) (hk : kind = .thread) (ht : s.task c = .close fd) :
      Work kind s { s.goto c .finished with
        table := Function.update s.table fd none
        log := s.log ++ [.closed (agent kind c) (s.table fd)] }
  | closeBasic (c : Nat) (fd : Int) (hk : kind = .basic) (ht : s.task c = .close fd) :
      Work kind s { s.goto c .finished with
        main := .accepting
        table := Function.update s.table fd none
        log := s.log ++ [.closed (agent kind c) (s.table fd)] }

/-- The server with a dispatcher. -/
def system (kind : Kind) : System State where
  init := fun s => s = .start
  next := fun s s' => Accept s s' ∨ Work kind s s'

/-! ## Which tasks have been started -/

/-- Every connection has a task, but for those whose task could not be started and the one that the
main thread is about to start. -/
structure Stage (accepted : Nat) (main : Main) (task : Nat → Task) (failed : List Nat) : Prop where
  fresh : ∀ fd, main = .dispatching fd →
    0 < accepted ∧ task (accepted - 1) = .absent ∧ accepted - 1 ∉ failed
  future : ∀ c, accepted ≤ c → task c = .absent ∧ c ∉ failed
  absent : ∀ c, c < accepted → task c = .absent →
    c ∈ failed ∨ (c = accepted - 1 ∧ ∃ fd, main = .dispatching fd)
  failed : ∀ c ∈ failed, task c = .absent

namespace Stage

variable {accepted : Nat} {main main' : Main} {task : Nat → Task} {failed : List Nat}
variable {c : Nat} {fd : Int} {x : Task}

/-- A connection is accepted. -/
theorem accept (h : Stage accepted main task failed) (hm : main = .accepting) (fd : Int) :
    Stage (accepted + 1) (.dispatching fd) task failed where
  fresh := fun _ _ => ⟨Nat.succ_pos _, h.future accepted (Nat.le_refl _)⟩
  future := fun c hc => h.future c (Nat.le_of_succ_le hc)
  absent := fun c hc habs => by
    rcases Nat.lt_succ_iff_lt_or_eq.mp hc with hlt | rfl
    · refine Or.inl ((h.absent c hlt habs).resolve_right ?_)
      rintro ⟨-, fd', hm'⟩
      exact absurd (hm.symm.trans hm') (by simp)
    · exact Or.inr ⟨rfl, fd, rfl⟩
  failed := h.failed

/-- A task goes on. -/
theorem move (h : Stage accepted main task failed) (hc : task c ≠ .absent) (hx : x ≠ .absent) :
    Stage accepted main (Function.update task c x) failed := by
  have hback : ∀ {d}, Function.update task c x d = .absent → task d = .absent := fun {d} hd => by
    by_cases hdc : d = c
    · rw [hdc, Function.update_self] at hd
      exact absurd hd hx
    · rwa [Function.update_of_ne hdc] at hd
  have hgo : ∀ {d}, task d = .absent → Function.update task c x d = .absent := fun {d} hd => by
    have hdc : d ≠ c := fun he => hc (he ▸ hd)
    rwa [Function.update_of_ne hdc]
  exact ⟨fun fd hm => ⟨(h.fresh fd hm).1, hgo (h.fresh fd hm).2.1, (h.fresh fd hm).2.2⟩,
    fun d hd => ⟨hgo (h.future d hd).1, (h.future d hd).2⟩,
    fun d hlt hd => h.absent d hlt (hback hd), fun d hd => hgo (h.failed d hd)⟩

/-- The main thread goes from one state outside `dispatch` to another. -/
theorem leave (h : Stage accepted main task failed) (hold : ∀ fd, main ≠ .dispatching fd)
    (hnew : ∀ fd, main' ≠ .dispatching fd) : Stage accepted main' task failed where
  fresh := fun fd hm => absurd hm (hnew fd)
  future := h.future
  absent := fun c hlt habs =>
    Or.inl ((h.absent c hlt habs).resolve_right fun ⟨_, fd, hm⟩ => hold fd hm)
  failed := h.failed

/-- The task of the connection is started. -/
theorem start (h : Stage accepted main task failed) (hm : main = .dispatching fd)
    (hx : x ≠ .absent) (hnew : ∀ fd, main' ≠ .dispatching fd) :
    Stage accepted main' (Function.update task (accepted - 1) x) failed := by
  obtain ⟨hpos, -, hnot⟩ := h.fresh fd hm
  constructor
  case fresh => exact fun fd' hm' => absurd hm' (hnew fd')
  case future =>
    intro c hc
    rw [Function.update_of_ne (show c ≠ accepted - 1 by omega)]
    exact h.future c hc
  case absent =>
    intro c hlt habs
    have hc : c ≠ accepted - 1 := by
      rintro rfl
      rw [Function.update_self] at habs
      exact hx habs
    rw [Function.update_of_ne hc] at habs
    exact Or.inl ((h.absent c hlt habs).resolve_right fun hr => hc hr.1)
  case failed =>
    intro c hf
    have hc : c ≠ accepted - 1 := fun he => hnot (he ▸ hf)
    rw [Function.update_of_ne hc]
    exact h.failed c hf

/-- It cannot be started. -/
theorem fail (h : Stage accepted main task failed) (hm : main = .dispatching fd)
    (hnew : ∀ fd, main' ≠ .dispatching fd) :
    Stage accepted main' task ((accepted - 1) :: failed) := by
  obtain ⟨hpos, habs, -⟩ := h.fresh fd hm
  constructor
  case fresh => exact fun fd' hm' => absurd hm' (hnew fd')
  case future =>
    intro c hc
    refine ⟨(h.future c hc).1, fun hmem => ?_⟩
    rcases List.mem_cons.mp hmem with rfl | hmem
    · omega
    · exact (h.future c hc).2 hmem
  case absent =>
    intro c hlt hc
    rcases h.absent c hlt hc with hf | ⟨rfl, -⟩
    · exact Or.inl (List.mem_cons_of_mem _ hf)
    · exact Or.inl List.mem_cons_self
  case failed =>
    intro c hc
    rcases List.mem_cons.mp hc with rfl | hc
    · exact habs
    · exact h.failed c hc

end Stage

/-! ## What the log says -/

/-- The log agrees with the tasks. -/
structure Books (kind : Kind) (task : Nat → Task) (log : List (Event (Option Nat))) : Prop where
  counts : ∀ c, handledCount log c = (task c).handled.toNat
  closed : ∀ a c, .closed a (some c) ∈ log →
    (kind = .process ∧ a = none) ∨ (task c).ended = true
  ordered : Ordered log

namespace Books

variable {kind : Kind} {task : Nat → Task} {log : List (Event (Option Nat))}
variable {c : Nat} {fd : Int} {x : Task}

/-- A task goes on, but not into the handler. -/
theorem move (h : Books kind task log) (hhandled : x.handled = (task c).handled)
    (hended : (task c).ended = true → x.ended = true) :
    Books kind (Function.update task c x) log := by
  constructor
  case counts =>
    intro d
    rw [h.counts d]
    by_cases hd : d = c
    · rw [hd, Function.update_self, hhandled]
    · rw [Function.update_of_ne hd]
  case closed =>
    intro a d hmem
    refine (h.closed a d hmem).imp_right fun he => ?_
    by_cases hd : d = c
    · rw [hd, Function.update_self]
      exact hended (hd ▸ he)
    · rwa [Function.update_of_ne hd]
  case ordered => exact h.ordered

/-- **A task calls `request_handler`.** -/
theorem call (h : Books kind task log) (ht : task c = .call fd) :
    Books kind (Function.update task c (.inHandler fd))
      (log ++ [.handled (agent kind c) (some c)]) := by
  have hended : (task c).ended = false := by rw [ht]; rfl
  constructor
  case counts =>
    intro d
    rw [handledCount_handled, h.counts d]
    by_cases hd : d = c
    · rw [if_pos hd, hd, Function.update_self, ht]
      rfl
    · rw [if_neg hd, Function.update_of_ne hd, Nat.add_zero]
  case closed =>
    intro a d hmem
    have hold := h.closed a d ((List.mem_append.mp hmem).resolve_right (by simp))
    refine hold.imp_right fun he => ?_
    have hd : d ≠ c := by
      rintro rfl
      exact absurd (hended.symm.trans he) (by simp)
    rwa [Function.update_of_ne hd]
  case ordered =>
    refine h.ordered.handled fun hmem => ?_
    rcases h.closed _ _ hmem with ⟨rfl, ha⟩ | he
    · exact absurd ha (by simp [agent])
    · exact absurd (hended.symm.trans he) (by simp)

/-- A task that has ended has closed its connection. -/
theorem close (h : Books kind task log) (hc : (task c).ended = true) (a : Option Nat) :
    Books kind task (log ++ [.closed a (some c)]) where
  counts := fun d => (handledCount_closed ..).trans (h.counts d)
  closed := fun b d hmem => by
    rcases List.mem_append.mp hmem with hmem | hmem
    · exact h.closed b d hmem
    · obtain ⟨-, hd⟩ := Event.closed.inj (List.mem_singleton.mp hmem)
      exact Or.inr (Option.some.inj hd ▸ hc)
  ordered := h.ordered.closed ..

/-- The parent closes its copy. -/
theorem parentClose (h : Books .process task log) (conn : Option Nat) :
    Books .process task (log ++ [.closed none conn]) where
  counts := fun d => (handledCount_closed ..).trans (h.counts d)
  closed := fun b d hmem => by
    rcases List.mem_append.mp hmem with hmem | hmem
    · exact h.closed b d hmem
    · exact Or.inl ⟨rfl, (Event.closed.inj (List.mem_singleton.mp hmem)).1⟩
  ordered := h.ordered.closed ..

end Books

/-! ## Who has which connection open -/

/-- Who has which connection open, and where. -/
structure Tables (kind : Kind) (s : State) : Prop where
  current : ∀ fd, s.main = .dispatching fd ∨ s.main = .parentClose fd →
    s.table fd = some s.current
  parent : ∀ fd, s.main = .parentClose fd → kind = .process
  running : ∀ c fd, (s.task c).fd = some fd → s.tableOf kind c fd = some c
  running_basic : kind = .basic → ∀ c, (s.task c).fd ≠ none → s.main = .busy ∧ c = s.current
  open_table : ∀ fd c, s.table fd = some c →
    (c = s.current ∧ (s.main = .dispatching fd ∨ s.main = .parentClose fd)) ∨
      (kind ≠ .process ∧ (s.task c).fd = some fd) ∨ c ∈ s.failed
  open_child : ∀ c fd, s.childTable c fd ≠ none →
    kind = .process ∧ ((s.task c).fd ≠ none ∨ s.task c = .exit)

namespace Tables

variable {kind : Kind} {s : State} {c : Nat} {fd : Int} {main : Main}

/-- A connection is accepted. -/
theorem accept (h : Tables kind s) (hm : s.main = .accepting) (hfree : s.table fd = none) :
    Tables kind { s with
      accepted := s.accepted + 1
      main := .dispatching fd
      table := Function.update s.table fd (some s.accepted) } := by
  have hidle : ∀ {m : Main}, m ≠ .accepting → s.main ≠ m := fun hne he => hne (he.symm.trans hm)
  constructor
  case current =>
    intro fd' hm'
    obtain rfl : fd = fd' := by simpa using hm'
    exact Function.update_self ..
  case parent => exact fun fd' hm' => absurd hm' (by simp)
  case running =>
    intro c fd' hc
    have hold := h.running c fd' hc
    by_cases hk : kind = .process
    · rwa [tableOf_process hk] at hold ⊢
    · rw [tableOf_of_ne hk] at hold ⊢
      have hne : fd' ≠ fd := by
        rintro rfl
        exact absurd (hfree.symm.trans hold) (by simp)
      exact (Function.update_of_ne hne _ _).trans hold
  case running_basic => exact fun hk c hc => absurd (h.running_basic hk c hc).1 (hidle (by simp))
  case open_table =>
    intro fd' c hc
    dsimp only at hc
    by_cases hfd : fd' = fd
    · subst hfd
      rw [Function.update_self] at hc
      exact Or.inl ⟨(Option.some.inj hc).symm, Or.inl rfl⟩
    · rw [Function.update_of_ne hfd] at hc
      refine Or.inr ((h.open_table fd' c hc).resolve_left ?_)
      rintro ⟨-, hm' | hm'⟩
      · exact hidle (by simp) hm'
      · exact hidle (by simp) hm'
  case open_child => exact h.open_child

/-- **The task of the connection is started**: the main thread is in state `main` from then on, and
the children have the tables `childTable`. -/
theorem start (h : Tables kind s) (hm : s.main = .dispatching fd)
    (habs : s.task s.current = .absent) {task : Nat → Task}
    {childTable : Nat → Int → Option Nat}
    (hself : task s.current = .call fd) (hne : ∀ c, c ≠ s.current → task c = s.task c)
    (hparent : ∀ fd', main = .dispatching fd' ∨ main = .parentClose fd' →
      fd' = fd ∧ kind = .process)
    (hprocess : kind = .process → main = .parentClose fd ∧ childTable s.current = s.table)
    (hother : ∀ c, kind ≠ .process ∨ c ≠ s.current → childTable c = s.childTable c)
    (hbasic : kind = .basic → main = .busy) :
    Tables kind ⟨s.accepted, main, s.table, task, childTable, s.failed, s.log⟩ := by
  have htable := h.current fd (Or.inl hm)
  constructor
  case current =>
    intro fd' hm'
    obtain ⟨rfl, -⟩ := hparent fd' hm'
    exact htable
  case parent => exact fun fd' hm' => (hparent fd' (Or.inr hm')).2
  case running =>
    intro c fd' hc
    dsimp only at hc
    by_cases hcur : c = s.current
    · subst hcur
      rw [hself] at hc
      obtain rfl := Option.some.inj hc
      by_cases hk : kind = .process
      · rw [tableOf_process hk]
        exact (congrFun (hprocess hk).2 fd).trans htable
      · rw [tableOf_of_ne hk]
        exact htable
    · rw [hne c hcur] at hc
      have hold := h.running c fd' hc
      by_cases hk : kind = .process
      · rw [tableOf_process hk] at hold ⊢
        exact (congrFun (hother c (Or.inr hcur)) fd').trans hold
      · rwa [tableOf_of_ne hk] at hold ⊢
  case running_basic =>
    intro hk c hc
    refine ⟨hbasic hk, ?_⟩
    by_contra hcur
    dsimp only at hc
    rw [hne c hcur] at hc
    exact absurd (hm.symm.trans (h.running_basic hk c hc).1) (by simp)
  case open_table =>
    intro fd' c hc
    dsimp only at hc ⊢
    rcases h.open_table fd' c hc with ⟨rfl, hm'⟩ | ⟨hk, hfd⟩ | hf
    · obtain rfl : fd = fd' := by simpa [hm] using hm'
      by_cases hk : kind = .process
      · exact Or.inl ⟨rfl, Or.inr (hprocess hk).1⟩
      · exact Or.inr (Or.inl ⟨hk, congrArg Task.fd hself⟩)
    · have hcur : c ≠ s.current := by
        rintro rfl
        rw [habs] at hfd
        exact absurd hfd (by simp [Task.fd])
      rw [hne c hcur]
      exact Or.inr (Or.inl ⟨hk, hfd⟩)
    · exact Or.inr (Or.inr hf)
  case open_child =>
    intro c fd' hc
    dsimp only at hc ⊢
    by_cases hk : kind = .process ∧ c = s.current
    · obtain ⟨hk, rfl⟩ := hk
      rw [hself]
      exact ⟨hk, Or.inl (by simp [Task.fd])⟩
    · rw [hother c (not_and_or.mp hk)] at hc
      obtain ⟨hk', hc⟩ := h.open_child c fd' hc
      rw [hne c fun he => hk ⟨hk', he⟩]
      exact ⟨hk', hc⟩

/-- It cannot be started. -/
theorem fail (h : Tables kind s) (hm : s.main = .dispatching fd)
    (hparent : ∀ fd', main = .dispatching fd' ∨ main = .parentClose fd' →
      fd' = fd ∧ kind = .process)
    (hbasic : kind ≠ .basic) :
    Tables kind { s with main := main, failed := s.current :: s.failed } where
  current := fun fd' hm' => by
    obtain ⟨rfl, -⟩ := hparent fd' hm'
    exact h.current fd' (Or.inl hm)
  parent := fun fd' hm' => (hparent fd' (Or.inr hm')).2
  running := h.running
  running_basic := fun hk => absurd hk hbasic
  open_table := fun fd' c hc => by
    refine Or.inr ?_
    rcases h.open_table fd' c hc with ⟨rfl, -⟩ | hr | hf
    · exact Or.inr List.mem_cons_self
    · exact Or.inl hr
    · exact Or.inr (List.mem_cons_of_mem _ hf)
  open_child := h.open_child

/-- The parent closes its copy. -/
theorem parentClose (h : Tables .process s) (hm : s.main = .parentClose fd)
    {log : List (Event (Option Nat))} :
    Tables .process { s with
      main := .accepting
      table := Function.update s.table fd none
      log := log } where
  current := fun fd' hm' => absurd hm' (by simp)
  parent := fun fd' hm' => absurd hm' (by simp)
  running := h.running
  running_basic := fun hk => absurd hk (by simp)
  open_table := fun fd' c hc => by
    dsimp only at hc
    by_cases hfd : fd' = fd
    · rw [hfd, Function.update_self] at hc
      exact absurd hc (by simp)
    · rw [Function.update_of_ne hfd] at hc
      refine Or.inr ((h.open_table fd' c hc).resolve_left ?_)
      rintro ⟨-, hm' | hm'⟩
      · exact absurd (hm.symm.trans hm') (by simp)
      · exact hfd (Main.parentClose.inj (hm.symm.trans hm')).symm
  open_child := h.open_child

/-- A task that has its descriptor goes on with it. -/
theorem advance (h : Tables kind s) {x : Task} {log : List (Event (Option Nat))}
    (hp : (s.task c).fd = some fd) (hx : x.fd = some fd) :
    Tables kind { s.goto c x with log := log } := by
  have hfd : ∀ d, ((s.goto c x).task d).fd = (s.task d).fd := fun d => by
    by_cases hd : d = c
    · rw [hd, goto_task_self, hp, hx]
    · rw [goto_task_of_ne s x hd]
  constructor
  case current => exact h.current
  case parent => exact h.parent
  case running => exact fun d fd' hd => h.running d fd' ((hfd d).symm.trans hd)
  case running_basic => exact fun hk d hd => h.running_basic hk d ((hfd d).symm.trans_ne hd)
  case open_table =>
    intro fd' d hd
    exact (h.open_table fd' d hd).imp_right (Or.imp_left fun hr => ⟨hr.1, (hfd d).trans hr.2⟩)
  case open_child =>
    intro d fd' hd
    refine ⟨(h.open_child d fd' hd).1, ?_⟩
    rcases (h.open_child d fd' hd).2 with hr | hr
    · exact Or.inl ((hfd d).trans_ne hr)
    · have hdc : d ≠ c := by
        rintro rfl
        rw [hr] at hp
        exact absurd hp (by simp [Task.fd])
      exact Or.inr ((goto_task_of_ne s x hdc).trans hr)

/-- What `update` at `c` says about the tasks that have a descriptor, if `x` has none. -/
theorem fd_update {task : Nat → Task} {x : Task} (hx : x.fd = none) {d : Nat} {fd : Int}
    (hd : (Function.update task c x d).fd = some fd) : d ≠ c ∧ (task d).fd = some fd := by
  by_cases hdc : d = c
  · rw [hdc, Function.update_self, hx] at hd
    exact absurd hd (by simp)
  · rw [Function.update_of_ne hdc] at hd
    exact ⟨hdc, hd⟩

/-- **A child closes its descriptor, or exits.** -/
theorem finishChild (h : Tables .process s) {x : Task} {childTable : Nat → Int → Option Nat}
    {log : List (Event (Option Nat))} (hx : x.fd = none)
    (hexit : ∀ fd, childTable c fd ≠ none → x = .exit)
    (hother : ∀ d, d ≠ c → childTable d = s.childTable d) :
    Tables .process { s.goto c x with childTable := childTable, log := log } where
  current := h.current
  parent := h.parent
  running := fun d fd hd => by
    obtain ⟨hdc, hd⟩ := fd_update hx hd
    exact (congrFun (hother d hdc) fd).trans (h.running d fd hd)
  running_basic := fun hk => absurd hk (by simp)
  open_table := fun fd d hd => (h.open_table fd d hd).imp_right
    (Or.imp_left fun hr => absurd rfl hr.1)
  open_child := fun d fd hd => by
    refine ⟨rfl, ?_⟩
    dsimp only at hd ⊢
    by_cases hdc : d = c
    · subst hdc
      exact Or.inr ((goto_task_self s d x).trans (hexit fd hd))
    · rw [hother d hdc] at hd
      rw [goto_task_of_ne s x hdc]
      exact (h.open_child d fd hd).2

/-- **A thread of the server closes its descriptor**, perhaps the main thread itself. -/
theorem finishShared (h : Tables kind s) (hk : kind ≠ .process) (hp : (s.task c).fd = some fd)
    (hcur : ∀ fd, s.main = .dispatching fd → c ≠ s.current) {x : Task}
    {log : List (Event (Option Nat))} (hx : x.fd = none)
    (hmain : main = s.main ∨ (main = .accepting ∧ s.main = .busy)) :
    Tables kind { s.goto c x with
      main := main
      table := Function.update s.table fd none
      log := log } := by
  have hrun := h.running c fd hp
  rw [tableOf_of_ne hk] at hrun
  -- the other connections stay in the table
  have hkeep : ∀ {d fd'}, s.table fd' = some d → d ≠ c →
      Function.update s.table fd none fd' = some d := fun {d fd'} hd hdc => by
    refine (Function.update_of_ne ?_ _ _).trans hd
    rintro rfl
    exact hdc (Option.some.inj (hd.symm.trans hrun))
  have hback : ∀ {fd'}, main = .dispatching fd' ∨ main = .parentClose fd' →
      s.main = .dispatching fd' := fun {fd'} hm => by
    rcases hmain with rfl | ⟨rfl, -⟩
    · exact hm.resolve_right fun hm => hk (h.parent fd' hm)
    · exact absurd hm (by simp)
  constructor
  case current =>
    intro fd' hm
    exact hkeep (h.current fd' (Or.inl (hback hm))) (hcur fd' (hback hm)).symm
  case parent =>
    intro fd' hm
    rcases hmain with rfl | ⟨rfl, -⟩
    · exact h.parent fd' hm
    · exact absurd hm (by simp)
  case running =>
    intro d fd' hd
    obtain ⟨hdc, hd⟩ := fd_update hx hd
    have hold := h.running d fd' hd
    rw [tableOf_of_ne hk] at hold ⊢
    exact hkeep hold hdc
  case running_basic =>
    intro hb d hd
    obtain ⟨fd', hd⟩ := Option.ne_none_iff_exists'.mp hd
    obtain ⟨hdc, hd⟩ := fd_update hx hd
    -- the main thread runs one handler at a time
    exact absurd ((h.running_basic hb d (by rw [hd]; simp)).2.trans
      (h.running_basic hb c (by rw [hp]; simp)).2.symm) hdc
  case open_table =>
    intro fd' d hd
    dsimp only at hd ⊢
    have hfd : fd' ≠ fd := by
      rintro rfl
      rw [Function.update_self] at hd
      exact absurd hd (by simp)
    rw [Function.update_of_ne hfd] at hd
    rcases h.open_table fd' d hd with ⟨hcur, hm⟩ | ⟨-, hr⟩ | hf
    · refine Or.inl ⟨hcur, ?_⟩
      rcases hmain with rfl | ⟨-, hbusy⟩
      · exact hm
      · exact absurd hm (by simp [hbusy])
    · have hdc : d ≠ c := by
        rintro rfl
        exact hfd (Option.some.inj (hr.symm.trans hp))
      rw [goto_task_of_ne s x hdc]
      exact Or.inr (Or.inl ⟨hk, hr⟩)
    · exact Or.inr (Or.inr hf)
  case open_child => exact fun d fd' hd => absurd (h.open_child d fd' hd).1 hk

end Tables

/-! ## The invariant -/

/-- **The invariant.** -/
structure Inv (kind : Kind) (s : State) : Prop where
  stage : Stage s.accepted s.main s.task s.failed
  books : Books kind s.task s.log
  tables : Tables kind s

variable {kind : Kind} {s s' : State}

theorem inv_start : Inv kind .start where
  stage := {
    fresh := fun fd h => absurd h (by simp [State.start])
    future := fun c _ => ⟨rfl, by simp [State.start]⟩
    absent := fun c h => absurd h (by simp [State.start])
    failed := fun c h => absurd h (by simp [State.start]) }
  books := {
    counts := fun c => rfl
    closed := fun a c h => absurd h (by simp [State.start])
    ordered := ordered_nil }
  tables := {
    current := fun fd h => absurd h (by simp [State.start])
    parent := fun fd h => absurd h (by simp [State.start])
    running := fun c fd h => absurd h (by simp [State.start, Task.fd])
    running_basic := fun _ c h => absurd h (by simp [State.start, Task.fd])
    open_table := fun fd c h => absurd h (by simp [State.start])
    open_child := fun c fd h => absurd h (by simp [State.start]) }

namespace Inv

/-- **`accept`.** -/
theorem accept (h : Inv kind s) (hs : Accept s s') : Inv kind s' := by
  cases hs with
  | accept fd hm hfree => exact ⟨h.stage.accept hm fd, h.books, h.tables.accept hm hfree⟩

/-- **The task of the connection is started.** -/
theorem start (h : Inv kind s) {fd : Int} (hm : s.main = .dispatching fd) {main : Main}
    {childTable : Nat → Int → Option Nat} (hnew : ∀ fd, main ≠ .dispatching fd)
    (hparent : ∀ fd', main = .parentClose fd' → fd' = fd ∧ kind = .process)
    (hprocess : kind = .process → main = .parentClose fd ∧ childTable s.current = s.table)
    (hother : ∀ c, kind ≠ .process ∨ c ≠ s.current → childTable c = s.childTable c)
    (hbasic : kind = .basic → main = .busy) :
    Inv kind { s.goto s.current (.call fd) with main := main, childTable := childTable } := by
  obtain ⟨-, habs, -⟩ := h.stage.fresh fd hm
  have habs : s.task s.current = .absent := habs
  refine ⟨h.stage.start hm (by simp) hnew, h.books.move ?_ ?_, ?_⟩
  · rw [habs]
    rfl
  · rw [habs]
    exact fun he => absurd he (by simp [Task.ended])
  · exact h.tables.start hm habs (Function.update_self ..)
      (fun c hc => Function.update_of_ne hc _ _)
      (fun fd' hm' => hparent fd' (hm'.resolve_left (hnew fd'))) hprocess hother hbasic

/-- **It cannot be started.** -/
theorem fail (h : Inv kind s) {fd : Int} (hm : s.main = .dispatching fd) {main : Main}
    (hnew : ∀ fd, main ≠ .dispatching fd)
    (hparent : ∀ fd', main = .parentClose fd' → fd' = fd ∧ kind = .process)
    (hbasic : kind ≠ .basic) :
    Inv kind { s with main := main, failed := s.current :: s.failed } :=
  ⟨h.stage.fail hm hnew, h.books,
    h.tables.fail hm (fun fd' hm' => hparent fd' (hm'.resolve_left (hnew fd'))) hbasic⟩

/-- **The parent closes its copy** of the connection. -/
theorem parentClose (h : Inv kind s) {fd : Int} (hm : s.main = .parentClose fd) :
    Inv kind { s with
      main := .accepting
      table := Function.update s.table fd none
      log := s.log ++ [.closed none (s.table fd)] } := by
  obtain rfl := h.tables.parent fd hm
  exact ⟨h.stage.leave (by simp [hm]) (by simp), h.books.parentClose _, h.tables.parentClose hm⟩

/-- **The call of `request_handler`**: the descriptor still refers to the connection. -/
theorem call (h : Inv kind s) {c : Nat} {fd : Int} (ht : s.task c = .call fd) :
    Inv kind { s.goto c (.inHandler fd) with
      log := s.log ++ [.handled (agent kind c) (s.tableOf kind c fd)] } := by
  have hfd : (s.task c).fd = some fd := by rw [ht]; rfl
  rw [h.tables.running c fd hfd]
  exact ⟨h.stage.move (by simp [ht]) (by simp), h.books.call ht, h.tables.advance hfd rfl⟩

/-- **`request_handler` returns.** -/
theorem handled (h : Inv kind s) {c : Nat} {fd : Int} (ht : s.task c = .inHandler fd) :
    Inv kind (s.goto c (.close fd)) := by
  refine ⟨h.stage.move (by simp [ht]) (by simp), h.books.move ?_ ?_, h.tables.advance ?_ rfl⟩
  · rw [ht]
    rfl
  · rw [ht]
    exact fun he => absurd he (by simp [Task.ended])
  · rw [ht]
    rfl

/-- What `close` by a task and its end leave in the log. -/
theorem books_close (h : Inv kind s) {c : Nat} {fd : Int} {x : Task} (ht : s.task c = .close fd)
    (hhandled : x.handled = true) (hended : x.ended = true) (a : Option Nat) :
    Books kind (Function.update s.task c x) (s.log ++ [.closed a (some c)]) := by
  refine (h.books.move (hhandled.trans ?_) fun _ => hended).close ?_ a
  · rw [ht]
    rfl
  · rw [Function.update_self]
    exact hended

/-- **A child closes its descriptor.** -/
theorem closeChild (h : Inv .process s) {c : Nat} {fd : Int} (ht : s.task c = .close fd) :
    Inv .process { s.goto c .exit with
      childTable := Function.update s.childTable c (Function.update (s.childTable c) fd none)
      log := s.log ++ [.closed (agent .process c) (s.childTable c fd)] } := by
  have hrun := h.tables.running c fd (by rw [ht]; rfl)
  rw [tableOf_process rfl] at hrun
  rw [hrun]
  exact ⟨h.stage.move (by simp [ht]) (by simp), h.books_close ht rfl rfl _,
    h.tables.finishChild rfl (fun _ _ => rfl) fun d hd => Function.update_of_ne hd _ _⟩

/-- **A child exits.** -/
theorem exit (h : Inv .process s) {c : Nat} (ht : s.task c = .exit) :
    Inv .process { s.goto c .finished with
      childTable := Function.update s.childTable c fun _ => none } := by
  refine ⟨h.stage.move (by simp [ht]) (by simp), h.books.move ?_ fun _ => rfl,
    h.tables.finishChild rfl (fun fd hfd => absurd hfd (by simp)) fun d hd =>
      Function.update_of_ne hd _ _⟩
  rw [ht]
  rfl

/-- **A thread of the server closes its descriptor**: the one started for the connection, or the
main thread. -/
theorem closeShared (h : Inv kind s) {c : Nat} {fd : Int} {main : Main} (hk : kind ≠ .process)
    (ht : s.task c = .close fd) (hmain : main = s.main ∨ (main = .accepting ∧ s.main = .busy)) :
    Inv kind { s.goto c .finished with
      main := main
      table := Function.update s.table fd none
      log := s.log ++ [.closed (agent kind c) (s.table fd)] } := by
  have hfd : (s.task c).fd = some fd := by rw [ht]; rfl
  have hrun := h.tables.running c fd hfd
  rw [tableOf_of_ne hk] at hrun
  have hstage := h.stage.move (x := .finished) (by simp [ht] : s.task c ≠ .absent) (by simp)
  rw [hrun]
  refine ⟨?_, h.books_close ht rfl rfl _, h.tables.finishShared hk hfd ?_ rfl hmain⟩
  · rcases hmain with rfl | ⟨rfl, hbusy⟩
    · exact hstage
    · exact hstage.leave (by simp [hbusy]) (by simp)
  · rintro fd' hm rfl
    exact absurd (ht.symm.trans (h.stage.fresh fd' hm).2.1) (by simp)

/-- **Every step of a dispatcher keeps the invariant.** -/
theorem work (h : Inv kind s) (hs : Work kind s s') : Inv kind s' := by
  cases hs with
  | basic fd hk hm =>
    exact h.start hm (by simp) (by simp) (by simp [hk]) (fun _ _ => rfl) fun _ => rfl
  | fork fd hk hm =>
    refine h.start hm (by simp) (fun fd' hm' => ?_) (fun _ => ⟨rfl, ?_⟩) (fun c hc => ?_)
      (by simp [hk])
    · exact ⟨(Main.parentClose.inj hm').symm, hk⟩
    · exact Function.update_self ..
    · exact Function.update_of_ne (hc.resolve_left fun hk' => hk' hk) _ _
  | forkFailed fd hk hm =>
    exact h.fail hm (by simp) (fun fd' hm' => ⟨(Main.parentClose.inj hm').symm, hk⟩) (by simp [hk])
  | parentClose fd hm => exact h.parentClose hm
  | create fd hk hm =>
    exact h.start hm (by simp) (by simp) (by simp [hk]) (fun _ _ => rfl) (by simp [hk])
  | createFailed fd hk hm => exact h.fail hm (by simp) (by simp) (by simp [hk])
  | call c fd ht => exact h.call ht
  | handled c fd ht => exact h.handled ht
  | closeChild c fd hk ht =>
    subst hk
    exact h.closeChild ht
  | exit c hk ht =>
    subst hk
    exact h.exit ht
  | closeThread c fd hk ht => exact h.closeShared (by simp [hk]) ht (Or.inl rfl)
  | closeBasic c fd hk ht =>
    have hbusy := (h.tables.running_basic hk c (by rw [ht]; simp [Task.fd])).1
    exact h.closeShared (by simp [hk]) ht (Or.inr ⟨rfl, hbusy⟩)

end Inv

theorem inv_of_reachable (h : (system kind).Reachable s) : Inv kind s := by
  refine System.invariant (fun s h0 => ?_) (fun s s' _ hi hs => ?_) h
  · exact (show s = .start from h0) ▸ inv_start
  · exact hs.elim hi.accept hi.work

/-! ## The contract -/

/-- `dispatch` has returned for every connection, and every task that was started is over. -/
structure State.Quiet (s : State) : Prop where
  accepting : s.main = .accepting
  finished : ∀ c, s.task c = .absent ∨ s.task c = .finished

/-- The server or a child has connection `c` open. -/
def State.Held (s : State) (c : Nat) : Prop :=
  (∃ fd, s.table fd = some c) ∨ ∃ d fd, s.childTable d fd = some c

/-- **At rest the contract holds iff every task could be started.** -/
theorem contract_iff (h : (system kind).Reachable s) (hq : s.Quiet) :
    Contract s.accepted s.log s.Held ↔ s.failed = [] := by
  have hi := inv_of_reachable h
  have hidle : ∀ {m : Main}, m ≠ .accepting → s.main ≠ m := fun hne he =>
    hne (he.symm.trans hq.accepting)
  have hfd : ∀ c, (s.task c).fd = none ∧ s.task c ≠ .exit := fun c => by
    rcases hq.finished c with hc | hc <;> rw [hc] <;> simp [Task.fd]
  constructor
  · intro hc
    refine List.eq_nil_iff_forall_not_mem.mpr fun c hf => ?_
    have hlt : c < s.accepted := by
      by_contra hge
      exact (hi.stage.future c (Nat.le_of_not_lt hge)).2 hf
    have hcount := hi.books.counts c
    rw [hi.stage.failed c hf, hc.once c hlt] at hcount
    exact absurd hcount (by simp [Task.handled])
  · intro hf
    have hnone : ∀ c, c ∉ s.failed := fun c => by simp [hf]
    refine ⟨fun c hlt => ?_, fun c _ => ?_, hi.books.ordered⟩
    · have hfin : s.task c = .finished := (hq.finished c).resolve_left fun habs => by
        rcases hi.stage.absent c hlt habs with hf' | ⟨-, fd, hm⟩
        · exact hnone c hf'
        · exact hidle (by simp) hm
      rw [hi.books.counts c, hfin]
      rfl
    · rintro (⟨fd, hopen⟩ | ⟨d, fd, hopen⟩)
      · rcases hi.tables.open_table fd c hopen with ⟨-, hm | hm⟩ | ⟨-, hr⟩ | hf'
        · exact hidle (by simp) hm
        · exact hidle (by simp) hm
        · exact absurd ((hfd c).1.symm.trans hr) (by simp)
        · exact hnone c hf'
      · rcases (hi.tables.open_child d fd (by rw [hopen]; simp)).2 with hr | hr
        · exact hr (hfd d).1
        · exact (hfd d).2 hr

end SystemProgramming.HttpServer.Dispatch
