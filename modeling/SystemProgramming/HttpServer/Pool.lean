import Mathlib.Data.Int.Interval
import SystemProgramming.HttpServer.Contract
import SystemProgramming.HttpServer.QueueHistory
import SystemProgramming.Lib.Custody

/-!
# The dispatcher with a thread pool

`dispatch` and `handle_clients` of `httpserver_pool.c`, under the loop of `serve_forever`, over the
statements of the work queue. All workers have been created, and `concurrency` is at least one.
Thread `none` is the main thread, `some w` a worker.

* `Inv` says who has which descriptor, and `Inv.accept` and `Inv.work` keep it.
* `contract`: the contract holds whenever the pool does nothing more of itself until the next
  connection. Nobody is rescued by a spurious wake-up.
-/

namespace SystemProgramming.HttpServer

open Lib

namespace Pool

open Wq (Phase)

/-! ## The pool -/

/-- Where a worker stands in the loop of `handle_clients`: in `wq_pop`, or just before it, about to
call `request_handler`, in it, or about to call `close`. -/
inductive Worker
  | popping
  | call (fd : Int)
  | inHandler (fd : Int)
  | close (fd : Int)
  deriving DecidableEq

namespace Worker

/-- The descriptor the worker has got from `wq_pop`. -/
def fd : Worker → Option Int
  | popping => none
  | call fd | inHandler fd | close fd => some fd

/-- The descriptor it has passed to `request_handler` and not closed yet. -/
def handling : Worker → Option Int
  | inHandler fd | close fd => some fd
  | _ => none

theorem fd_of_handling {x : Worker} {fd : Int} (h : x.handling = some fd) : x.fd = some fd := by
  cases x with
  | popping => exact absurd h (by simp [handling])
  | call fd' => exact absurd h (by simp [handling])
  | inHandler fd' => exact h
  | close fd' => exact h

end Worker

/-- The state: the work queue, the connections so far, the descriptor that `accept` has returned to
the main thread and that it has not passed to `wq_push` yet, the descriptors, the workers, and the
log. -/
structure State (ι : Type) where
  wq : Wq.State (Option ι)
  accepted : Nat
  main : Option Int
  table : Int → Option Nat
  worker : ι → Worker
  log : List (Event (Option ι))

variable {ι : Type}

/-- `wq_init`, and the workers before their first call of `wq_pop`. -/
def State.start : State ι := ⟨.start, 0, none, fun _ => none, fun _ => .popping, []⟩

/-- The descriptor a thread has. -/
def State.has (s : State ι) : Option ι → Option Int
  | none => s.main.or (s.wq.phase none).hand
  | some w => (s.worker w).fd.or (s.wq.phase (some w)).hand

section Steps

variable [DecidableEq ι]

/-- `accept` returns a descriptor, which `serve_forever` tests for a negative one. -/
inductive Accept (s : State ι) : State ι → Prop
  | accept (fd : Int) (hm : s.main = none) (hidle : s.wq.phase none = .idle)
      (hfree : s.table fd = none) (hfd : 0 ≤ fd ∧ fd ≤ cIntMax) :
      Accept s { s with
        accepted := s.accepted + 1
        main := some fd
        table := Function.update s.table fd (some s.accepted) }

/-- **A step of the pool**: a statement of the queue, spurious wake-ups included, or a step of the
loops around it. -/
inductive Work (s : State ι) : State ι → Prop
  | dispatch (fd : Int) (hm : s.main = some fd) (hidle : s.wq.phase none = .idle) :
      Work s { s with wq := s.wq.callPush none fd, main := none }
  | inner (t : Option ι) {wq : Wq.State (Option ι)} (h : Wq.Inner s.wq t wq) :
      Work s { s with wq := wq }
  | spurious (w : ι) (hp : s.wq.phase (some w) = .popBlocked) :
      Work s { s with wq := s.wq.goto (some w) .popWoken }
  | callPop (w : ι) (hw : s.worker w = .popping) (hp : s.wq.phase (some w) = .idle) :
      Work s { s with wq := s.wq.goto (some w) .popLock }
  | popReturn (w : ι) (fd : Int) (hp : s.wq.phase (some w) = .popReturn fd) :
      Work s { s with
        wq := s.wq.popReturn (some w) fd
        worker := Function.update s.worker w (.call fd) }
  | call (w : ι) (fd : Int) (hw : s.worker w = .call fd) :
      Work s { s with
        worker := Function.update s.worker w (.inHandler fd)
        log := s.log ++ [.handled (some w) (s.table fd)] }
  | handled (w : ι) (fd : Int) (hw : s.worker w = .inHandler fd) :
      Work s { s with worker := Function.update s.worker w (.close fd) }
  | close (w : ι) (fd : Int) (hw : s.worker w = .close fd) :
      Work s { s with
        worker := Function.update s.worker w .popping
        table := Function.update s.table fd none
        log := s.log ++ [.closed (some w) (s.table fd)] }

/-- A worker wakes up though nobody has called `pthread_cond_broadcast`. -/
def Spurious (s s' : State ι) : Prop :=
  ∃ w, s.wq.phase (some w) = .popBlocked ∧ s' = { s with wq := s.wq.goto (some w) .popWoken }

/-- A step that the pool makes of itself. -/
def Own (s s' : State ι) : Prop := Work s s' ∧ ¬ Spurious s s'

/-- The server with the pool. -/
def system : System (State ι) where
  init := fun s => s = .start
  next := fun s s' => Accept s s' ∨ Work s s'

variable {s s' : State ι}

/-- **The pool refines the work queue.** -/
theorem reachable_wq (h : system.Reachable s) : Wq.system.Reachable s.wq := by
  refine System.simulation (T := Wq.system) State.wq (fun s h0 => ?_) (fun s s' _ hs => ?_) h
  · rw [show s = .start from h0]
    rfl
  · rcases hs with hs | hs
    · cases hs with
      | accept => exact Or.inl rfl
    · cases hs with
      | dispatch fd hm hidle => exact Or.inr (.callPush none fd hidle)
      | inner t h => exact Or.inr (.inner t h)
      | spurious w hp => exact Or.inr (.spurious (some w) hp)
      | callPop w hw hp => exact Or.inr (.callPop (some w) hp)
      | popReturn w fd hp => exact Or.inr (.popReturn (some w) fd hp)
      | call w fd hw => exact Or.inl rfl
      | handled w fd hw => exact Or.inl rfl
      | close w fd hw => exact Or.inl rfl

end Steps

/-! ## The invariant -/

/-- What the descriptors, the workers and the log say about the connections. -/
structure Ledger (accepted : Nat) (table : Int → Option Nat) (worker : ι → Worker)
    (log : List (Event (Option ι))) : Prop where
  table_lt : ∀ fd c, table fd = some c → c < accepted
  table_inj : ∀ fd fd' c, table fd = some c → table fd' = some c → fd = fd'
  counted : ∀ fd c, table fd = some c →
    ((∃ w, (worker w).handling = some fd) ∧ handledCount log c = 1) ∨
      ((∀ w, (worker w).handling ≠ some fd) ∧ handledCount log c = 0)
  gone : ∀ c, c < accepted → (∀ fd, table fd ≠ some c) → handledCount log c = 1
  future : ∀ c, accepted ≤ c → handledCount log c = 0
  closed : ∀ a c, .closed a (some c) ∈ log → c < accepted ∧ ∀ fd, table fd ≠ some c
  ordered : Ordered log

namespace Ledger

variable {accepted : Nat} {table : Int → Option Nat} {worker worker' : ι → Worker}
variable {log : List (Event (Option ι))} {w : ι} {fd fd' : Int} {c : Nat}

/-- Workers that handle what they handled. -/
theorem congr (h : Ledger accepted table worker log)
    (hw : ∀ w, (worker' w).handling = (worker w).handling) :
    Ledger accepted table worker' log where
  table_lt := h.table_lt
  table_inj := h.table_inj
  counted := fun fd c hc => by
    simp only [hw]
    exact h.counted fd c hc
  gone := h.gone
  future := h.future
  closed := h.closed
  ordered := h.ordered

/-- A connection is accepted. -/
theorem accept (h : Ledger accepted table worker log) (hfree : table fd = none)
    (hno : ∀ w, (worker w).handling ≠ some fd) :
    Ledger (accepted + 1) (Function.update table fd (some accepted)) worker log := by
  have hself : Function.update table fd (some accepted) fd = some accepted :=
    Function.update_self ..
  have hcases : ∀ {fd' c}, Function.update table fd (some accepted) fd' = some c →
      (fd' = fd ∧ c = accepted) ∨ (fd' ≠ fd ∧ table fd' = some c) := fun {fd' c} hc => by
    by_cases hfd : fd' = fd
    · rw [hfd, hself] at hc
      exact Or.inl ⟨hfd, (Option.some.inj hc).symm⟩
    · rw [Function.update_of_ne hfd] at hc
      exact Or.inr ⟨hfd, hc⟩
  -- the other connections stay where they are
  have hkeep : ∀ {fd' c}, table fd' = some c →
      Function.update table fd (some accepted) fd' = some c := fun {fd' c} hc => by
    refine (Function.update_of_ne ?_ _ _).trans hc
    rintro rfl
    exact absurd (hfree.symm.trans hc) (by simp)
  constructor
  case table_lt =>
    intro fd' c hc
    rcases hcases hc with ⟨-, rfl⟩ | ⟨-, hc⟩
    · exact Nat.lt_succ_self _
    · exact Nat.lt_succ_of_lt (h.table_lt fd' c hc)
  case table_inj =>
    intro fd₁ fd₂ c h₁ h₂
    rcases hcases h₁ with ⟨rfl, rfl⟩ | ⟨-, hold₁⟩
    · rcases hcases h₂ with ⟨rfl, -⟩ | ⟨-, hold₂⟩
      · rfl
      · exact absurd (h.table_lt fd₂ _ hold₂) (Nat.lt_irrefl _)
    · rcases hcases h₂ with ⟨rfl, rfl⟩ | ⟨-, hold₂⟩
      · exact absurd (h.table_lt fd₁ _ hold₁) (Nat.lt_irrefl _)
      · exact h.table_inj fd₁ fd₂ c hold₁ hold₂
  case counted =>
    intro fd' c hc
    rcases hcases hc with ⟨rfl, rfl⟩ | ⟨-, hc⟩
    · exact Or.inr ⟨hno, h.future _ (Nat.le_refl _)⟩
    · exact h.counted fd' c hc
  case gone =>
    intro c hlt hc
    rcases Nat.lt_succ_iff_lt_or_eq.mp hlt with hlt | rfl
    · exact h.gone c hlt fun fd' hc' => hc fd' (hkeep hc')
    · exact absurd hself (hc fd)
  case future => exact fun c hc => h.future c (Nat.le_of_succ_le hc)
  case closed =>
    intro a c hc
    obtain ⟨hlt, hne⟩ := h.closed a c hc
    refine ⟨Nat.lt_succ_of_lt hlt, fun fd' hc' => ?_⟩
    rcases hcases hc' with ⟨-, rfl⟩ | ⟨-, hc'⟩
    · exact Nat.lt_irrefl _ hlt
    · exact hne fd' hc'
  case ordered => exact h.ordered

variable [DecidableEq ι]

/-- A worker that has to do with `fd` only moves on: the other descriptors do not see it. -/
theorem handling_update {x : Worker} (hold : (worker w).handling ≠ some fd')
    (hnew : x.handling ≠ some fd') (u : ι) :
    (Function.update worker w x u).handling = some fd' ↔ (worker u).handling = some fd' := by
  by_cases hu : u = w
  · rw [hu, Function.update_self]
    exact iff_of_false hnew hold
  · rw [Function.update_of_ne hu]

/-- **A worker calls `request_handler`.** -/
theorem call (h : Ledger accepted table worker log) (hw : worker w = .call fd)
    (hc : table fd = some c) (hno : ∀ u, (worker u).handling ≠ some fd) :
    Ledger accepted table (Function.update worker w (.inHandler fd))
      (log ++ [.handled (some w) (some c)]) := by
  have hother : ∀ {d}, d ≠ c → handledCount (log ++ [.handled (some w) (some c)]) d =
      handledCount log d := fun hd => by
    rw [handledCount_handled, if_neg hd, Nat.add_zero]
  constructor
  case table_lt => exact h.table_lt
  case table_inj => exact h.table_inj
  case counted =>
    intro fd' d hd
    by_cases hfd : fd' = fd
    · subst hfd
      obtain rfl := Option.some.inj (hc.symm.trans hd)
      refine Or.inl ⟨⟨w, by rw [Function.update_self]; rfl⟩, ?_⟩
      rw [handledCount_handled, if_pos rfl]
      rcases h.counted fd' c hc with ⟨⟨u, hu⟩, -⟩ | ⟨-, hcount⟩
      · exact absurd hu (hno u)
      · rw [hcount]
    · have hdc : d ≠ c := fun he => hfd (h.table_inj fd' fd c (he ▸ hd) hc)
      have hupdate : ∀ u, (Function.update worker w (.inHandler fd) u).handling = some fd' ↔
          (worker u).handling = some fd' :=
        handling_update (by simp [hw, Worker.handling]) fun he => hfd (Option.some.inj he).symm
      simp only [ne_eq, hupdate]
      rw [hother hdc]
      exact h.counted fd' d hd
  case gone =>
    intro d hlt hd
    have hdc : d ≠ c := fun he => hd fd (he ▸ hc)
    rw [hother hdc]
    exact h.gone d hlt hd
  case future =>
    intro d hd
    have hdc : d ≠ c := fun he => absurd (h.table_lt fd c hc) (Nat.not_lt.mpr (he ▸ hd))
    rw [hother hdc]
    exact h.future d hd
  case closed => exact fun a d hd => h.closed a d ((List.mem_append.mp hd).resolve_right (by simp))
  case ordered => exact h.ordered.handled fun hmem => (h.closed _ _ hmem).2 fd hc

/-- **A worker closes its descriptor.** -/
theorem close (h : Ledger accepted table worker log) (hw : worker w = .close fd)
    (hc : table fd = some c) :
    Ledger accepted (Function.update table fd none) (Function.update worker w .popping)
      (log ++ [.closed (some w) (some c)]) := by
  have hback : ∀ {fd' d}, Function.update table fd none fd' = some d →
      fd' ≠ fd ∧ table fd' = some d := fun {fd' d} hd => by
    have hfd : fd' ≠ fd := by
      rintro rfl
      rw [Function.update_self] at hd
      exact absurd hd (by simp)
    exact ⟨hfd, by rwa [Function.update_of_ne hfd] at hd⟩
  constructor
  case table_lt => exact fun fd' d hd => h.table_lt fd' d (hback hd).2
  case table_inj => exact fun fd₁ fd₂ d h₁ h₂ => h.table_inj fd₁ fd₂ d (hback h₁).2 (hback h₂).2
  case counted =>
    intro fd' d hd
    obtain ⟨hfd, hd⟩ := hback hd
    have hupdate : ∀ u, (Function.update worker w .popping u).handling = some fd' ↔
        (worker u).handling = some fd' :=
      handling_update (fun he => hfd (Option.some.inj (by rwa [hw] at he)).symm)
        (by simp [Worker.handling])
    simp only [ne_eq, hupdate]
    rw [handledCount_closed]
    exact h.counted fd' d hd
  case gone =>
    intro d hlt hd
    rw [handledCount_closed]
    by_cases hdc : d = c
    · subst hdc
      rcases h.counted fd d hc with ⟨-, hcount⟩ | ⟨hnone, -⟩
      · exact hcount
      · exact absurd (congrArg Worker.handling hw) (hnone w)
    · refine h.gone d hlt fun fd' hd' => hd fd' ((Function.update_of_ne ?_ _ _).trans hd')
      rintro rfl
      exact hdc (Option.some.inj (hd'.symm.trans hc))
  case future => exact fun d hd => (handledCount_closed ..).trans (h.future d hd)
  case closed =>
    intro a d hd
    rcases List.mem_append.mp hd with hd | hd
    · exact ⟨(h.closed a d hd).1, fun fd' hd' => (h.closed a d hd).2 fd' (hback hd').2⟩
    · obtain ⟨-, hd⟩ := Event.closed.inj (List.mem_singleton.mp hd)
      obtain rfl := Option.some.inj hd
      refine ⟨h.table_lt fd d hc, fun fd' hd' => ?_⟩
      exact (hback hd').1 (h.table_inj fd' fd d (hback hd').2 hc)
  case ordered => exact h.ordered.closed ..

end Ledger

/-- **The invariant**: every open descriptor has one place, which is a thread or the queue. -/
structure Inv (s : State ι) (place : Int → Option (Place (Option ι))) : Prop where
  custody : Custody s.has s.wq.queue place
  opened : ∀ fd, s.table fd = none ↔ place fd = none
  range : ∀ fd, s.table fd ≠ none → 0 ≤ fd ∧ fd ≤ cIntMax
  idle_main : s.main ≠ none → s.wq.phase none = .idle
  idle_worker : ∀ w, s.worker w ≠ .popping → s.wq.phase (some w) = .idle
  pops : ∀ w, (s.wq.phase (some w)).pops = true
  ledger : Ledger s.accepted s.table s.worker s.log

theorem has_start : (State.start : State ι).has = fun _ => none := by
  funext t
  cases t <;> rfl

theorem inv_start : Inv (State.start : State ι) fun _ => none where
  custody := has_start ▸ custody_empty
  opened := fun fd => by simp [State.start]
  range := fun fd h => absurd rfl h
  idle_main := fun h => absurd rfl h
  idle_worker := fun w h => absurd rfl h
  pops := fun w => rfl
  ledger := {
    table_lt := fun fd c h => absurd h (by simp [State.start])
    table_inj := fun fd fd' c h => absurd h (by simp [State.start])
    counted := fun fd c h => absurd h (by simp [State.start])
    gone := fun c h => absurd h (by simp [State.start])
    future := fun c _ => rfl
    closed := fun a c h => absurd h (by simp [State.start])
    ordered := ordered_nil }

namespace Inv

variable {s s' : State ι} {place : Int → Option (Place (Option ι))}

theorem main_of_busy (h : Inv s place) (hp : s.wq.phase none ≠ .idle) : s.main = none := by
  by_contra hm
  exact hp (h.idle_main hm)

theorem worker_of_busy (h : Inv s place) {w : ι} (hp : s.wq.phase (some w) ≠ .idle) :
    s.worker w = .popping := by
  by_contra hw
  exact hp (h.idle_worker w hw)

/-- A thread in the queue's code has what it has there. -/
theorem has_of_busy (h : Inv s place) {t : Option ι} (ht : s.wq.phase t ≠ .idle) :
    s.has t = (s.wq.phase t).hand := by
  cases t with
  | none => simp [State.has, h.main_of_busy ht]
  | some w => simp [State.has, h.worker_of_busy ht, Worker.fd]

variable [DecidableEq ι]

/-- A statement of the queue changes what its thread has. -/
theorem has_inner (h : Inv s place) {t : Option ι} {wq : Wq.State (Option ι)}
    (he : Wq.Effect s.wq wq t) :
    State.has { s with wq := wq } = Function.update s.has t (wq.phase t).hand := by
  funext u
  by_cases hut : u = t
  · subst hut
    rw [Function.update_self]
    cases u with
    | none => simp [State.has, h.main_of_busy he.busy]
    | some w => simp [State.has, h.worker_of_busy he.busy, Worker.fd]
  · rw [Function.update_of_ne hut]
    have hhand : (wq.phase u).hand = (s.wq.phase u).hand := by
      rcases he.other u hut with hu | ⟨hu, hu'⟩
      · rw [hu]
      · rw [hu, hu']
        rfl
    cases u with
    | none => exact congrArg (s.main.or ·) hhand
    | some w => exact congrArg ((s.worker w).fd.or ·) hhand

/-- **A statement of the queue.** -/
theorem inner (h : Inv s place) {t : Option ι} {wq : Wq.State (Option ι)}
    {nodes nodes' : List (Addr × Int)} (hold : Wq.Inv s.wq nodes) (hnew : Wq.Inv wq nodes')
    (hs : Wq.Inner s.wq t wq) : ∃ place', Inv { s with wq := wq } place' := by
  have he := hs.effect (hnew.ne_crashed t)
  have hidle : ∀ u, s.wq.phase u = .idle → wq.phase u = .idle := fun u hu => by
    have hut : u ≠ t := fun hut => he.busy (hut ▸ hu)
    rcases he.other u hut with hr | ⟨hr, -⟩
    · exact hr.trans hu
    · exact absurd (hu.symm.trans hr) (by simp)
  have hpops : ∀ w, (wq.phase (some w)).pops = true := fun w => by
    by_cases hut : some w = t
    · exact hut ▸ he.pops (hut ▸ h.pops w)
    · rcases he.other (some w) hut with hr | ⟨-, hr⟩
      · rw [hr]
        exact h.pops w
      · rw [hr]
        rfl
  -- what is left is the place of the descriptor that moves
  have hrest : ∀ {place'}, Custody (Function.update s.has t (wq.phase t).hand) wq.queue place' →
      (∀ fd, place' fd = none ↔ place fd = none) → Inv { s with wq := wq } place' :=
    fun hcustody hplace =>
      ⟨(h.has_inner he).symm ▸ hcustody, fun fd => (h.opened fd).trans (hplace fd).symm, h.range,
        fun hm => hidle none (h.idle_main hm), fun w hw => hidle _ (h.idle_worker w hw), hpops,
        h.ledger⟩
  have hupdate : ∀ {fd p q}, place fd = some p →
      ∀ fd', Function.update place fd (some q) fd' = none ↔ place fd' = none :=
    fun {fd p q} hp fd' => by
      by_cases hfd : fd' = fd
      · rw [hfd, Function.update_self, hp]
        simp
      · rw [Function.update_of_ne hfd]
  have hhas := h.has_of_busy he.busy
  cases he.moves with
  | silent hargument hresult hpushed hpopped =>
    refine ⟨place, hrest ?_ fun _ => Iff.rfl⟩
    have hqueue : wq.queue = s.wq.queue := by
      unfold Wq.State.queue
      rw [hpushed, hpopped]
    rw [Phase.hand_eq, hargument, hresult, ← Phase.hand_eq, ← hhas, Function.update_eq_self, hqueue]
    exact h.custody
  | append fd hargument hargument' hresult hpushed hpopped =>
    have hhand' : (wq.phase t).hand = none := by
      rw [Phase.hand_eq, hargument', hresult.2]
      rfl
    rw [Phase.hand_eq, hargument, Option.some_or] at hhas
    have hput := h.custody.put hhas
    rw [← hold.queue_append hpushed hpopped, ← hhand'] at hput
    exact ⟨_, hrest hput (hupdate ((h.custody.agent_iff t fd).mp hhas))⟩
  | take fd hargument hresult hresult' hpushed hpopped =>
    have hhand' : (wq.phase t).hand = some fd := by
      rw [Phase.hand_eq, hargument.2, hresult']
      rfl
    rw [Phase.hand_eq, hargument.1, hresult, Option.none_or] at hhas
    have hqueue := hnew.queue_take hpushed hpopped
    have hmem : fd ∈ s.wq.queue := hqueue ▸ List.mem_cons_self
    have htake := (hqueue ▸ h.custody).take hhas
    rw [← hhand'] at htake
    exact ⟨_, hrest htake (hupdate ((h.custody.mem_queue fd).mp hmem))⟩

omit [DecidableEq ι] in
/-- **No descriptor changes its place**, and no worker goes into its handler or out of it. -/
theorem relabel (h : Inv s place) {wq : Wq.State (Option ι)} {main : Option Int}
    {worker : ι → Worker} (hqueue : wq.queue = s.wq.queue)
    (hhas_main : main.or (wq.phase none).hand = s.has none)
    (hhas_worker : ∀ w, (worker w).fd.or (wq.phase (some w)).hand = s.has (some w))
    (hidle_main : main ≠ none → wq.phase none = .idle)
    (hidle_worker : ∀ w, worker w ≠ .popping → wq.phase (some w) = .idle)
    (hpops : ∀ w, (wq.phase (some w)).pops = true)
    (hhandling : ∀ w, (worker w).handling = (s.worker w).handling) :
    Inv ⟨wq, s.accepted, main, s.table, worker, s.log⟩ place where
  custody := by
    have hhas : State.has ⟨wq, s.accepted, main, s.table, worker, s.log⟩ = s.has := by
      funext t
      cases t with
      | none => exact hhas_main
      | some w => exact hhas_worker w
    rw [hhas, show _ = s.wq.queue from hqueue]
    exact h.custody
  opened := h.opened
  range := h.range
  idle_main := hidle_main
  idle_worker := hidle_worker
  pops := hpops
  ledger := h.ledger.congr hhandling

/-- `dispatch` calls `wq_push`. -/
theorem dispatch (h : Inv s place) {fd : Int} (hm : s.main = some fd) :
    Inv { s with wq := s.wq.callPush none fd, main := none } place := by
  have hne : ∀ w : ι, (s.wq.callPush none fd).phase (some w) = s.wq.phase (some w) :=
    fun w => Wq.callPush_of_ne _ _ (by simp)
  refine h.relabel rfl ?_ (fun w => by rw [hne]; rfl) (fun hn => absurd rfl hn)
    (fun w hw => (hne w).trans (h.idle_worker w hw)) (fun w => by rw [hne]; exact h.pops w)
    fun _ => rfl
  rw [Wq.callPush_self]
  simp [State.has, hm, Phase.hand]

/-- A worker that has nothing moves to a phase where it has nothing. -/
theorem goto_worker (h : Inv s place) {w : ι} {q : Phase} (hw : s.worker w = .popping)
    (hq : q.pops = true) (hhand : q.hand = (s.wq.phase (some w)).hand) :
    Inv { s with wq := s.wq.goto (some w) q } place := by
  have hne : ∀ {t}, t ≠ some w → (s.wq.goto (some w) q).phase t = s.wq.phase t :=
    fun ht => Wq.goto_of_ne _ _ ht
  have hmain := hne (t := none) (by simp)
  refine h.relabel rfl (by rw [hmain]; rfl) (fun u => ?_) (fun hm => hmain.trans (h.idle_main hm))
    (fun u hu => ?_) (fun u => ?_) fun _ => rfl
  · by_cases huw : u = w
    · subst huw
      rw [Wq.goto_self, hhand]
      rfl
    · rw [hne (by simpa using huw)]
      rfl
  · have huw : u ≠ w := fun he => hu (he ▸ hw)
    exact (hne (by simpa using huw)).trans (h.idle_worker u hu)
  · by_cases huw : u = w
    · rw [huw, Wq.goto_self, hq]
    · rw [hne (by simpa using huw)]
      exact h.pops u

/-- `wq_pop` returns to the loop of `handle_clients`. -/
theorem popReturn (h : Inv s place) {w : ι} {fd : Int}
    (hp : s.wq.phase (some w) = .popReturn fd) :
    Inv { s with
      wq := s.wq.popReturn (some w) fd
      worker := Function.update s.worker w (.call fd) } place := by
  have hw := h.worker_of_busy (w := w) (by simp [hp])
  have hne : ∀ {t}, t ≠ some w → (s.wq.popReturn (some w) fd).phase t = s.wq.phase t :=
    fun ht => Wq.popReturn_of_ne _ _ ht
  have hmain := hne (t := none) (by simp)
  refine h.relabel rfl (by rw [hmain]; rfl) (fun u => ?_) (fun hm => hmain.trans (h.idle_main hm))
    (fun u hu => ?_) (fun u => ?_) fun u => ?_
  · by_cases huw : u = w
    · subst huw
      rw [Wq.popReturn_self, Function.update_self]
      simp [State.has, hw, hp, Worker.fd, Phase.hand]
    · rw [hne (by simpa using huw), Function.update_of_ne huw]
      rfl
  · by_cases huw : u = w
    · rw [huw, Wq.popReturn_self]
    · rw [Function.update_of_ne huw] at hu
      exact (hne (by simpa using huw)).trans (h.idle_worker u hu)
  · by_cases huw : u = w
    · rw [huw, Wq.popReturn_self]
      rfl
    · rw [hne (by simpa using huw)]
      exact h.pops u
  · by_cases huw : u = w
    · subst huw
      rw [Function.update_self, hw]
      rfl
    · rw [Function.update_of_ne huw]

omit [DecidableEq ι] in
/-- What a worker has got from `wq_pop` is in its custody. -/
theorem has_of_fd {w : ι} {fd : Int} (hw : (s.worker w).fd = some fd) :
    s.has (some w) = some fd := by
  simp [State.has, hw]

omit [DecidableEq ι] in
/-- It refers to a connection. -/
theorem exists_conn (h : Inv s place) {w : ι} {fd : Int} (hw : (s.worker w).fd = some fd) :
    ∃ c, s.table fd = some c := by
  refine Option.ne_none_iff_exists'.mp fun hnone => ?_
  have hplace := (h.custody.agent_iff (some w) fd).mp (has_of_fd hw)
  exact absurd (((h.opened fd).mp hnone).symm.trans hplace) (by simp)

/-- A worker outside `wq_pop` goes on with its descriptor. -/
theorem worker_step (h : Inv s place) {w : ι} {x : Worker} {log : List (Event (Option ι))}
    (hw : s.worker w ≠ .popping) (hfd : x.fd = (s.worker w).fd)
    (hledger : Ledger s.accepted s.table (Function.update s.worker w x) log) :
    Inv { s with worker := Function.update s.worker w x, log := log } place where
  custody := by
    have hhas :
        State.has { s with worker := Function.update s.worker w x, log := log } = s.has := by
      funext t
      cases t with
      | none => rfl
      | some u =>
        by_cases huw : u = w
        · subst huw
          simp only [State.has, Function.update_self, hfd]
        · simp only [State.has, Function.update_of_ne huw]
    rw [hhas]
    exact h.custody
  opened := h.opened
  range := h.range
  idle_main := h.idle_main
  idle_worker := fun u hu => by
    by_cases huw : u = w
    · exact huw ▸ h.idle_worker w hw
    · dsimp only at hu
      rw [Function.update_of_ne huw] at hu
      exact h.idle_worker u hu
  pops := h.pops
  ledger := hledger

/-- **A worker calls `request_handler`.** -/
theorem call (h : Inv s place) {w : ι} {fd : Int} (hw : s.worker w = .call fd) :
    Inv { s with
      worker := Function.update s.worker w (.inHandler fd)
      log := s.log ++ [.handled (some w) (s.table fd)] } place := by
  have hfd : (s.worker w).fd = some fd := by rw [hw]; rfl
  obtain ⟨c, hc⟩ := h.exists_conn hfd
  rw [hc]
  refine h.worker_step (by simp [hw]) (by rw [hw]; rfl) (h.ledger.call hw hc fun u hu => ?_)
  have huw := h.custody.agent_unique (has_of_fd (Worker.fd_of_handling hu)) (has_of_fd hfd)
  rw [Option.some.inj huw, hw] at hu
  exact absurd hu (by simp [Worker.handling])

/-- **`request_handler` returns.** -/
theorem handled (h : Inv s place) {w : ι} {fd : Int} (hw : s.worker w = .inHandler fd) :
    Inv { s with worker := Function.update s.worker w (.close fd) } place := by
  refine h.worker_step (by simp [hw]) (by rw [hw]; rfl) (h.ledger.congr fun u => ?_)
  by_cases huw : u = w
  · rw [huw, Function.update_self, hw]
    rfl
  · rw [Function.update_of_ne huw]

/-- **A worker closes its descriptor.** -/
theorem close (h : Inv s place) {w : ι} {fd : Int} (hw : s.worker w = .close fd) :
    Inv { s with
      worker := Function.update s.worker w .popping
      table := Function.update s.table fd none
      log := s.log ++ [.closed (some w) (s.table fd)] } (Function.update place fd none) := by
  have hfd : (s.worker w).fd = some fd := by rw [hw]; rfl
  have hidle := h.idle_worker w (by simp [hw])
  obtain ⟨c, hc⟩ := h.exists_conn hfd
  rw [hc]
  constructor
  case custody =>
    have hhas : State.has { s with
        worker := Function.update s.worker w .popping
        table := Function.update s.table fd none
        log := s.log ++ [.closed (some w) (some c)] } = Function.update s.has (some w) none := by
      funext t
      cases t with
      | none => rw [Function.update_of_ne (by simp)]; rfl
      | some u =>
        by_cases huw : u = w
        · subst huw
          simp [State.has, hidle, Worker.fd, Phase.hand]
        · rw [Function.update_of_ne (by simpa using huw)]
          simp only [State.has, Function.update_of_ne huw]
    rw [hhas]
    exact h.custody.drop (has_of_fd hfd)
  case opened =>
    intro fd'
    dsimp only
    by_cases hfd' : fd' = fd
    · rw [hfd', Function.update_self, Function.update_self]
      simp
    · rw [Function.update_of_ne hfd', Function.update_of_ne hfd']
      exact h.opened fd'
  case range =>
    intro fd' hne
    dsimp only at hne
    by_cases hfd' : fd' = fd
    · rw [hfd', Function.update_self] at hne
      exact absurd rfl hne
    · rw [Function.update_of_ne hfd'] at hne
      exact h.range fd' hne
  case idle_main => exact h.idle_main
  case idle_worker =>
    intro u hu
    dsimp only at hu
    by_cases huw : u = w
    · exact huw ▸ hidle
    · rw [Function.update_of_ne huw] at hu
      exact h.idle_worker u hu
  case pops => exact h.pops
  case ledger => exact h.ledger.close hw hc

/-- **`accept`.** -/
theorem accept (h : Inv s place) (hs : Accept s s') : ∃ place', Inv s' place' := by
  cases hs with
  | accept fd hm hidle hfree hfd =>
    have hplace := (h.opened fd).mp hfree
    have hnone : s.has none = none := by simp [State.has, hm, hidle, Phase.hand]
    have hno : ∀ w, (s.worker w).handling ≠ some fd := fun w hw => by
      have hw := (h.custody.agent_iff (some w) fd).mp (has_of_fd (Worker.fd_of_handling hw))
      exact absurd (hplace.symm.trans hw) (by simp)
    refine ⟨Function.update place fd (some (.agent none)), ?_⟩
    constructor
    case custody =>
      have hhas : State.has { s with
          accepted := s.accepted + 1
          main := some fd
          table := Function.update s.table fd (some s.accepted) } =
            Function.update s.has none (some fd) := by
        funext t
        cases t with
        | none => rw [Function.update_self]; rfl
        | some u => rw [Function.update_of_ne (by simp)]; rfl
      rw [hhas]
      exact h.custody.give hnone hplace
    case opened =>
      intro fd'
      dsimp only
      by_cases hfd' : fd' = fd
      · rw [hfd', Function.update_self, Function.update_self]
        simp
      · rw [Function.update_of_ne hfd', Function.update_of_ne hfd']
        exact h.opened fd'
    case range =>
      intro fd' hne
      dsimp only at hne
      by_cases hfd' : fd' = fd
      · exact hfd' ▸ hfd
      · rw [Function.update_of_ne hfd'] at hne
        exact h.range fd' hne
    case idle_main => exact fun _ => hidle
    case idle_worker => exact h.idle_worker
    case pops => exact h.pops
    case ledger => exact h.ledger.accept hfree hno

/-- **Every step of the pool keeps the invariant.** -/
theorem work (h : Inv s place) {nodes nodes' : List (Addr × Int)} (hold : Wq.Inv s.wq nodes)
    (hnew : Wq.Inv s'.wq nodes') (hs : Work s s') : ∃ place', Inv s' place' := by
  cases hs with
  | dispatch fd hm hidle => exact ⟨place, h.dispatch hm⟩
  | inner t hs => exact h.inner hold hnew hs
  | spurious w hp =>
    have hw := h.worker_of_busy (w := w) (by simp [hp])
    exact ⟨place, h.goto_worker hw rfl (by rw [hp]; rfl)⟩
  | callPop w hw hp => exact ⟨place, h.goto_worker hw rfl (by rw [hp]; rfl)⟩
  | popReturn w fd hp => exact ⟨place, h.popReturn hp⟩
  | call w fd hw => exact ⟨place, h.call hw⟩
  | handled w fd hw => exact ⟨place, h.handled hw⟩
  | close w fd hw => exact ⟨_, h.close hw⟩

omit [DecidableEq ι] in
/-- The sockets in the queue are different descriptors, so there are at most 2^31 of them. -/
theorem queue_length_le (h : Inv s place) : s.wq.queue.length ≤ cIntMax + 1 := by
  have hsub : s.wq.queue.toFinset ⊆ Finset.Icc 0 (cIntMax : Int) := fun fd hfd => by
    have hplace := (h.custody.mem_queue fd).mp (List.mem_toFinset.mp hfd)
    refine Finset.mem_Icc.mpr (h.range fd fun hnone => ?_)
    exact absurd (((h.opened fd).mp hnone).symm.trans hplace) (by simp)
  have hcard := Finset.card_le_card hsub
  rwa [List.toFinset_card_of_nodup h.custody.nodup, Int.card_Icc, sub_zero] at hcard

omit [DecidableEq ι] in
/-- So the wrapped count is zero only if the queue is empty. -/
theorem size_eq_zero (h : Inv s place) {nodes : List (Addr × Int)} (hi : Wq.Inv s.wq nodes) :
    toCInt nodes.length = 0 ↔ nodes = [] := by
  have hle := h.queue_length_le
  rw [hi.queue_eq, List.length_map] at hle
  unfold cIntMax at hle
  rw [toCInt_eq_zero (by omega), List.length_eq_zero_iff]

end Inv

section Reachable

variable [DecidableEq ι] {s : State ι}

theorem exists_inv (h : system.Reachable s) : ∃ place, Inv s place := by
  refine System.invariant (I := fun s => ∃ place, Inv s place) (fun s h0 => ?_)
    (fun s s' hr hi hs => ?_) h
  · rw [show s = .start from h0]
    exact ⟨_, inv_start⟩
  · obtain ⟨place, hi⟩ := hi
    obtain ⟨nodes, hold⟩ := Wq.exists_inv (reachable_wq hr)
    obtain ⟨nodes', hnew⟩ := Wq.exists_inv (reachable_wq (hr.step hs))
    exact hs.elim hi.accept (hi.work hold hnew)

end Reachable

/-! ## Progress -/

section Progress

variable [DecidableEq ι] {s s' : State ι} {w : ι} {fd : Int}

/-! ### Steps of its own -/

theorem not_spurious_of_phase {t : Option ι} (hp : s.wq.phase t ≠ .popBlocked)
    (hne : s'.wq.phase t ≠ s.wq.phase t) : ¬ Spurious s s' := by
  rintro ⟨w, hw, rfl⟩
  by_cases ht : t = some w
  · exact hp (ht ▸ hw)
  · exact hne (Wq.goto_of_ne _ _ ht)

theorem not_spurious_of_worker (hne : s'.worker w ≠ s.worker w) : ¬ Spurious s s' := by
  rintro ⟨u, -, rfl⟩
  exact hne rfl

/-- A statement is a step of the pool's own. -/
theorem own_inner {t : Option ι} {wq : Wq.State (Option ι)} (h : Wq.Inner s.wq t wq) :
    Own s { s with wq := wq } :=
  ⟨.inner t h, not_spurious_of_phase h.busy.2 h.phase_ne⟩

theorem own_callPop (hw : s.worker w = .popping) (hp : s.wq.phase (some w) = .idle) :
    Own s { s with wq := s.wq.goto (some w) .popLock } :=
  ⟨.callPop w hw hp, not_spurious_of_phase (t := some w) (by simp [hp])
    (by simp [Wq.goto_self, hp])⟩

theorem own_popReturn (hp : s.wq.phase (some w) = .popReturn fd) :
    Own s { s with
      wq := s.wq.popReturn (some w) fd
      worker := Function.update s.worker w (.call fd) } :=
  ⟨.popReturn w fd hp, not_spurious_of_phase (t := some w) (by simp [hp])
    (by simp [Wq.popReturn_self, hp])⟩

theorem own_call (hw : s.worker w = .call fd) :
    Own s { s with
      worker := Function.update s.worker w (.inHandler fd)
      log := s.log ++ [.handled (some w) (s.table fd)] } :=
  ⟨.call w fd hw, not_spurious_of_worker (w := w) (by simp [hw])⟩

theorem own_handled (hw : s.worker w = .inHandler fd) :
    Own s { s with worker := Function.update s.worker w (.close fd) } :=
  ⟨.handled w fd hw, not_spurious_of_worker (w := w) (by simp [hw])⟩

theorem own_close (hw : s.worker w = .close fd) :
    Own s { s with
      worker := Function.update s.worker w .popping
      table := Function.update s.table fd none
      log := s.log ++ [.closed (some w) (s.table fd)] } :=
  ⟨.close w fd hw, not_spurious_of_worker (w := w) (by simp [hw])⟩

/-! ### What the pool can still do -/

/-- The pool can of itself still call a handler or close a descriptor. -/
def State.Live (s : State ι) : Prop :=
  ∃ s', Relation.ReflTransGen Own s s' ∧ s'.log ≠ s.log

theorem live_of_log {e : Event (Option ι)} (hs : Own s s') (hlog : s'.log = s.log ++ [e]) :
    s.Live := by
  refine ⟨s', .single hs, ?_⟩
  rw [hlog]
  simp

theorem live_of_own (hs : Own s s') (hlog : s'.log = s.log) (h : s'.Live) : s.Live := by
  obtain ⟨s₁, hr, hne⟩ := h
  exact ⟨s₁, hr.head hs, hlog ▸ hne⟩

/-- A worker that has got a descriptor will close it. -/
theorem live_worker (hw : s.worker w ≠ .popping) : s.Live := by
  cases hx : s.worker w with
  | popping => exact absurd hx hw
  | call fd => exact live_of_log (own_call hx) rfl
  | inHandler fd =>
    have hclose : Function.update s.worker w (.close fd) w = .close fd := Function.update_self ..
    exact live_of_own (own_handled hx) rfl (live_of_log (own_close hclose) rfl)
  | close fd => exact live_of_log (own_close hx) rfl

theorem live_popReturn (hp : s.wq.phase (some w) = .popReturn fd) : s.Live := by
  refine live_of_own (own_popReturn hp) rfl (live_worker (w := w) ?_)
  simp

theorem live_inner {t : Option ι} {wq : Wq.State (Option ι)} (hs : Wq.Inner s.wq t wq)
    (h : State.Live { s with wq := wq }) : s.Live :=
  live_of_own (own_inner hs) rfl h

/-- A worker that has taken a descriptor from the queue will close it. -/
theorem live_hand (hpops : (s.wq.phase (some w)).pops = true)
    (hp : (s.wq.phase (some w)).hand = some fd) : s.Live := by
  have hfree : ∀ {s : State ι} {a fd}, s.wq.phase (some w) = .popFree a fd → s.Live :=
    fun hp => live_inner (.popFree _ _ hp) (live_popReturn (Wq.goto_self ..))
  cases hx : s.wq.phase (some w) with
  | popUnlock a fd => exact live_inner (.popUnlock a fd hx) (hfree (Wq.goto_self ..))
  | popFree a fd => exact hfree hx
  | popReturn fd => exact live_popReturn hx
  | _ =>
    rw [hx] at hpops hp
    simp [Phase.pops, Phase.hand] at hpops hp

variable {nodes : List (Addr × Int)}

theorem live_popDelete {a : Addr} (hi : Wq.Inv s.wq nodes)
    (hp : s.wq.phase (some w) = .popDelete a fd) : s.Live := by
  have hs := Wq.Inner.popDelete a fd hp
  obtain ⟨nodes', hi'⟩ := hi.inner hs
  generalize dlDelete s.wq.heap s.wq.head id = r at hs hi'
  cases r with
  | none => exact absurd (Wq.goto_self ..) (hi'.ne_crashed (some w))
  | some p =>
    have hp' := Wq.goto_self s.wq (some w) (.popUnlock a fd)
    exact live_inner hs (live_hand (congrArg Phase.pops hp') (congrArg Phase.hand hp'))

theorem live_popSize {a : Addr} (hi : Wq.Inv s.wq nodes)
    (hp : s.wq.phase (some w) = .popSize a fd) : s.Live := by
  have hs := Wq.Inner.popSize a fd hp
  obtain ⟨nodes', hi'⟩ := hi.inner hs
  exact live_inner hs (live_popDelete hi' (Wq.goto_self ..))

theorem live_popHead (hi : Wq.Inv s.wq nodes) (hp : s.wq.phase (some w) = .popHead) : s.Live := by
  have hs := Wq.Inner.popHead hp
  obtain ⟨nodes', hi'⟩ := hi.inner hs
  generalize s.wq.readHead = r at hs hi'
  cases r with
  | none => exact absurd (Wq.goto_self ..) (hi'.ne_crashed (some w))
  | some p => exact live_inner hs (live_popSize hi' (Wq.goto_self ..))

theorem live_popTest (hi : Wq.Inv s.wq nodes) (hp : s.wq.phase (some w) = .popTest)
    (hsize : s.wq.size ≠ 0) : s.Live := by
  have hs := Wq.Inner.popTest hp
  obtain ⟨nodes', hi'⟩ := hi.inner hs
  rw [if_neg hsize] at hs hi'
  exact live_inner hs (live_popHead hi' (Wq.goto_self ..))

theorem live_popLock (hi : Wq.Inv s.wq nodes)
    (hp : s.wq.phase (some w) = .popLock ∨ s.wq.phase (some w) = .popWoken)
    (hf : s.wq.owner = none) (hsize : s.wq.size ≠ 0) : s.Live := by
  have hs := Wq.Inner.popLock hp hf
  obtain ⟨nodes', hi'⟩ := hi.inner hs
  exact live_inner hs (live_popTest hi' (Wq.goto_self ..) hsize)

/-- **A worker gets what is in the queue** once the mutex is free. It is not blocked: while the
queue is not empty, the thread that has still to broadcast has the mutex. -/
theorem live_of_free (hi : Wq.Inv s.wq nodes) (hpops : (s.wq.phase (some w)).pops = true)
    (hf : s.wq.owner = none) (hsize : s.wq.size ≠ 0) : s.Live := by
  have hnot : ∀ t, (s.wq.phase t).holds = false := fun t => by
    rw [← Bool.not_eq_true, ← hi.mutex, hf]
    simp
  by_cases hw : s.worker w = .popping
  · have hholds := hnot (some w)
    cases hx : s.wq.phase (some w) with
    | idle =>
      have hi' : Wq.Inv (s.wq.goto (some w) .popLock) nodes := by
        exact hi.outside (hnot _) rfl rfl (by simp)
      exact live_of_own (own_callPop hw hx) rfl
        (live_popLock hi' (Or.inl (Wq.goto_self ..)) hf hsize)
    | popLock => exact live_popLock hi (Or.inl hx) hf hsize
    | popWoken => exact live_popLock hi (Or.inr hx) hf hsize
    | popBlocked =>
      obtain ⟨u, hu⟩ := (hi.blocked _ hx).resolve_left hsize
      exact absurd (hnot u) (by rw [hu]; simp [Phase.holds])
    | popFree a fd => exact live_hand hpops (congrArg Phase.hand hx)
    | popReturn fd => exact live_popReturn hx
    | _ =>
      rw [hx] at hpops hholds
      simp [Phase.pops, Phase.holds] at hpops hholds
  · exact live_worker hw

/-- **The owner of the mutex takes what is in the queue**, if it is a worker. -/
theorem live_of_owner (hi : Wq.Inv s.wq nodes) (hpops : (s.wq.phase (some w)).pops = true)
    (ho : s.wq.owner = some (some w)) (hne : toCInt nodes.length ≠ 0) : s.Live := by
  have ht : (s.wq.phase (some w)).holds = true := (hi.mutex _).mp ho
  have hk := hi.known (some w)
  cases hx : s.wq.phase (some w) with
  | popTest =>
    have hsize := hi.size_eq ht (by rw [hx]; rfl)
    exact live_popTest hi hx (hsize ▸ hne)
  | popWait =>
    have hsize := hi.size_eq ht (by rw [hx]; rfl)
    rw [hx] at hk
    exact absurd (hsize.symm.trans hk) hne
  | popHead => exact live_popHead hi hx
  | popSize a fd => exact live_popSize hi hx
  | popDelete a fd => exact live_popDelete hi hx
  | popUnlock a fd => exact live_hand hpops (congrArg Phase.hand hx)
  | _ =>
    rw [hx] at hpops ht
    simp [Phase.pops, Phase.holds] at hpops ht

end Progress

/-! ## The contract -/

section Contract

variable [DecidableEq ι] {s : State ι}

/-- `dispatch` has returned for every connection, and whatever the workers do of themselves, none
will call `request_handler` or `close` until the next connection is accepted. A worker that would
go on only after a spurious wake-up does nothing of itself. -/
structure State.Quiet (s : State ι) : Prop where
  accepting : s.main = none ∧ s.wq.phase none = .idle
  finished : ∀ s', Relation.ReflTransGen Own s s' → s'.log = s.log

/-- The server has connection `c` open. -/
def State.Held (s : State ι) (c : Nat) : Prop := ∃ fd, s.table fd = some c

/-- **At rest no connection is open.** -/
theorem Inv.table_eq_none [Nonempty ι] {place : Int → Option (Place (Option ι))}
    {nodes : List (Addr × Int)} (h : Inv s place) (hi : Wq.Inv s.wq nodes) (hq : s.Quiet)
    (fd : Int) : s.table fd = none := by
  have hdead : ¬ s.Live := fun ⟨s', hr, hne⟩ => hne (hq.finished s' hr)
  have hnodes : nodes = [] := by
    by_contra hne
    rw [← h.size_eq_zero hi] at hne
    cases ho : s.wq.owner with
    | none =>
      obtain ⟨w⟩ := ‹Nonempty ι›
      exact hdead (live_of_free hi (h.pops w) ho (hi.size_free ho ▸ hne))
    | some t =>
      cases t with
      | none =>
        have ht := (hi.mutex none).mp ho
        rw [hq.accepting.2] at ht
        exact absurd ht (by simp [Phase.holds])
      | some w => exact hdead (live_of_owner hi (h.pops w) ho hne)
  rw [h.opened]
  by_contra hplace
  obtain ⟨p, hp⟩ := Option.ne_none_iff_exists'.mp hplace
  cases p with
  | queue =>
    have hmem := (h.custody.mem_queue fd).mpr hp
    rw [hi.queue_eq, hnodes] at hmem
    exact absurd hmem (by simp)
  | agent t =>
    have hhas := (h.custody.agent_iff t fd).mpr hp
    cases t with
    | none =>
      simp only [State.has, hq.accepting.1, hq.accepting.2] at hhas
      exact absurd hhas (by simp [Phase.hand])
    | some w =>
      by_cases hw : s.worker w = .popping
      · simp only [State.has, hw, Worker.fd, Option.none_or] at hhas
        exact hdead (live_hand (h.pops w) hhas)
      · exact hdead (live_worker hw)

/-- **At rest the contract holds.** -/
theorem contract [Nonempty ι] (h : system.Reachable s) (hq : s.Quiet) :
    Contract s.accepted s.log s.Held := by
  obtain ⟨place, hi⟩ := exists_inv h
  obtain ⟨nodes, hwq⟩ := Wq.exists_inv (reachable_wq h)
  have hnone := hi.table_eq_none hwq hq
  have hne : ∀ c fd, s.table fd ≠ some c := fun c fd => by
    rw [hnone fd]
    simp
  exact ⟨fun c hlt => hi.ledger.gone c hlt (hne c), fun c _ ⟨fd, hfd⟩ => hne c fd hfd,
    hi.ledger.ordered⟩

/-- Conversely, when every connection is closed, nothing more happens. -/
theorem quiet_of_released (h : system.Reachable s) (hm : s.main = none)
    (hidle : s.wq.phase none = .idle) (hnone : ∀ fd, s.table fd = none) : s.Quiet := by
  refine ⟨⟨hm, hidle⟩, fun s' hr => ?_⟩
  suffices hs' : system.Reachable s' ∧ (∀ fd, s'.table fd = none) ∧ s'.log = s.log from hs'.2.2
  induction hr with
  | refl => exact ⟨h, hnone, rfl⟩
  | tail hr hs ih =>
    obtain ⟨hreach, htable, hlog⟩ := ih
    obtain ⟨place, hi⟩ := exists_inv hreach
    refine ⟨hreach.step (Or.inr hs.1), ?_⟩
    have hno : ∀ w fd, (State.worker _ w).fd = some fd → False := fun w fd hw => by
      obtain ⟨c, hc⟩ := hi.exists_conn hw
      exact absurd ((htable fd).symm.trans hc) (by simp)
    cases hs.1 with
    | dispatch => exact ⟨htable, hlog⟩
    | inner => exact ⟨htable, hlog⟩
    | spurious => exact ⟨htable, hlog⟩
    | callPop => exact ⟨htable, hlog⟩
    | popReturn => exact ⟨htable, hlog⟩
    | handled => exact ⟨htable, hlog⟩
    | call w fd hw => exact (hno w fd (by rw [hw]; rfl)).elim
    | close w fd hw => exact (hno w fd (by rw [hw]; rfl)).elim

end Contract

end Pool

end SystemProgramming.HttpServer
