import SystemProgramming.HttpServer.Answers
import SystemProgramming.HttpServer.Dispatchers
import SystemProgramming.Lib.Handlers

/-!
# What the clients get

The four dispatchers with the bytes that `handle_files_request` writes. A handler writes in pieces,
to whatever its descriptor refers to at that moment, in the table of its process. Between two pieces
the server accepts other connections, and other handlers write and close. Clients stay connected, so
reads and writes do not fail.

* `Dispatch.handlers_lawful`, `Pool.handlers_lawful`: a connection gets one handler, and the
  descriptor of the handler refers to it as long as the handler runs.
* `own_response`: every client gets its own response, whichever dispatcher the server has.
-/

namespace SystemProgramming.HttpServer

open Lib

/-! ## The dispatchers that start a handler at once -/

namespace Dispatch

/-- The descriptor that the task has passed to `request_handler`, while it is in it. -/
def Task.serving : Task → Option Int
  | inHandler fd => some fd
  | _ => none

theorem Task.eq_of_serving {x : Task} {fd : Int} (h : x.serving = some fd) : x = .inHandler fd := by
  cases x with
  | inHandler fd' => exact congrArg _ (Option.some.inj h)
  | _ => exact absurd h (by simp [serving])

/-- The handlers. The one for connection `c` runs in the task of `c`. -/
def handlers (kind : Kind) : Handlers State Nat Nat Int where
  server := system kind
  running := fun s c => (s.task c).serving
  refers := fun s c => s.tableOf kind c
  started := fun s c => handledCount s.log c

variable {kind : Kind} {s s' : State}

/-- A task that goes on, but not into the handler. -/
theorem goes_of_update {c : Nat} {x : Task} (hx : x.serving = none)
    (htask : s'.task = Function.update s.task c x)
    (hlog : ∀ d, handledCount s'.log d = handledCount s.log d) : (handlers kind).Change s s' := by
  refine .goes (fun d => ?_) hlog
  show (s'.task d).serving = _ ∨ (s'.task d).serving = _
  rw [htask]
  by_cases hd : d = c
  · rw [hd, Function.update_self]
    exact Or.inr hx
  · rw [Function.update_of_ne hd]
    exact Or.inl rfl

/-- **What a step does with the handlers.** -/
theorem change (hi : Inv kind s) (hs : Accept s s' ∨ Work kind s s') :
    (handlers kind).Change s s' := by
  rcases hs with hs | hs
  · cases hs with
    | accept fd hm hfree => exact .goes (fun _ => Or.inl rfl) fun _ => rfl
  · cases hs with
    | basic fd hk hm => exact goes_of_update rfl rfl fun _ => rfl
    | fork fd hk hm => exact goes_of_update rfl rfl fun _ => rfl
    | forkFailed fd hk hm => exact .goes (fun _ => Or.inl rfl) fun _ => rfl
    | parentClose fd hm => exact .goes (fun _ => Or.inl rfl) fun _ => handledCount_closed ..
    | create fd hk hm => exact goes_of_update rfl rfl fun _ => rfl
    | createFailed fd hk hm => exact .goes (fun _ => Or.inl rfl) fun _ => rfl
    | call c fd ht =>
      have hrun := hi.tables.running c fd (by rw [ht]; rfl)
      refine .begins c fd c ?_ ?_ (fun d hd => ?_) hrun ?_ fun d hd => ?_
      · exact (congrArg Task.serving ht).trans rfl
      · exact congrArg Task.serving (goto_task_self ..)
      · exact congrArg Task.serving (goto_task_of_ne s _ hd)
      · exact (hi.books.counts c).trans (by rw [ht]; rfl)
      · show handledCount (_ ++ [.handled _ (s.tableOf kind c fd)]) d = handledCount s.log d
        rw [hrun, handledCount_handled, if_neg hd, Nat.add_zero]
    | handled c fd ht => exact goes_of_update rfl rfl fun _ => rfl
    | closeChild c fd hk ht => exact goes_of_update rfl rfl fun _ => handledCount_closed ..
    | exit c hk ht => exact goes_of_update rfl rfl fun _ => rfl
    | closeThread c fd hk ht => exact goes_of_update rfl rfl fun _ => handledCount_closed ..
    | closeBasic c fd hk ht => exact goes_of_update rfl rfl fun _ => handledCount_closed ..

theorem refers_of_serving (hi : Inv kind s) {c : Nat} {fd : Int}
    (hr : (s.task c).serving = some fd) : s.tableOf kind c fd = some c :=
  hi.tables.running c fd (by rw [Task.eq_of_serving hr]; rfl)

theorem handlers_lawful (kind : Kind) : (handlers kind).Lawful where
  start := fun s h0 => by
    obtain rfl : s = .start := h0
    exact ⟨fun _ => rfl, fun _ => rfl⟩
  change := fun s s' hreach hs => change (inv_of_reachable hreach) hs
  refers := fun s c fd hreach hr => by
    have hi := inv_of_reachable hreach
    refine ⟨c, refers_of_serving hi hr, ?_⟩
    show handledCount s.log c ≠ 0
    rw [hi.books.counts c, Task.eq_of_serving hr]
    exact Nat.one_ne_zero
  unique := fun s c d fd fd' e hreach hr hr' hc hd => by
    have hi := inv_of_reachable hreach
    have hc' := (refers_of_serving hi hr).symm.trans hc
    exact Option.some.inj (hc'.trans ((refers_of_serving hi hr').symm.trans hd).symm)
  stable := fun s s' c fd hreach hs hr hr' =>
    (refers_of_serving (inv_of_reachable (hreach.step hs)) hr').trans
      (refers_of_serving (inv_of_reachable hreach) hr).symm

end Dispatch

/-! ## The pool -/

namespace Pool

variable {ι : Type}

/-- The descriptor that the worker has passed to `request_handler`, while it is in it. -/
def Worker.serving : Worker → Option Int
  | inHandler fd => some fd
  | _ => none

theorem Worker.eq_of_serving {x : Worker} {fd : Int} (h : x.serving = some fd) :
    x = .inHandler fd := by
  cases x with
  | inHandler fd' => exact congrArg _ (Option.some.inj h)
  | _ => exact absurd h (by simp [serving])

theorem Worker.fd_of_serving {x : Worker} {fd : Int} (h : x.serving = some fd) :
    x.fd = some fd := by
  rw [eq_of_serving h]
  rfl

variable {s s' : State ι} {place : Int → Option (Place (Option ι))}

/-- A descriptor is with one worker. -/
theorem Inv.worker_unique (h : Inv s place) {w u : ι} {fd : Int}
    (hw : (s.worker w).fd = some fd) (hu : (s.worker u).fd = some fd) : w = u :=
  Option.some.inj (h.custody.agent_unique (Inv.has_of_fd hw) (Inv.has_of_fd hu))

variable [DecidableEq ι]

/-- The handlers. Each worker runs one after the other. -/
def handlers : Handlers (State ι) ι Nat Int where
  server := system
  running := fun s w => (s.worker w).serving
  refers := fun s _ => s.table
  started := fun s c => handledCount s.log c

/-- A worker that goes on, but not into the handler. -/
theorem goes_of_update {w : ι} {x : Worker} (hx : x.serving = none)
    (hworker : s'.worker = Function.update s.worker w x)
    (hlog : ∀ c, handledCount s'.log c = handledCount s.log c) : handlers.Change s s' := by
  refine .goes (fun u => ?_) hlog
  show (s'.worker u).serving = _ ∨ (s'.worker u).serving = _
  rw [hworker]
  by_cases hu : u = w
  · rw [hu, Function.update_self]
    exact Or.inr hx
  · rw [Function.update_of_ne hu]
    exact Or.inl rfl

/-- **A worker starts on a connection that has had no handler.** -/
theorem change_call (h : Inv s place) {w : ι} {fd : Int} (hw : s.worker w = .call fd) :
    handlers.Change s { s with
      worker := Function.update s.worker w (.inHandler fd)
      log := s.log ++ [.handled (some w) (s.table fd)] } := by
  have hfd : (s.worker w).fd = some fd := by rw [hw]; rfl
  obtain ⟨c, hc⟩ := h.exists_conn hfd
  refine .begins w fd c ?_ ?_ (fun u hu => ?_) hc ?_ fun d hd => ?_
  · exact (congrArg Worker.serving hw).trans rfl
  · show (Function.update s.worker w (.inHandler fd) w).serving = some fd
    rw [Function.update_self]
    rfl
  · exact congrArg Worker.serving (Function.update_of_ne hu _ _)
  · refine ((h.ledger.counted fd c hc).resolve_left ?_).2
    rintro ⟨⟨u, hu⟩, -⟩
    obtain rfl := h.worker_unique hfd (Worker.fd_of_handling hu)
    rw [hw] at hu
    exact absurd hu (by simp [Worker.handling])
  · show handledCount (_ ++ [.handled _ (s.table fd)]) d = handledCount s.log d
    rw [hc, handledCount_handled, if_neg hd, Nat.add_zero]

/-- **What a step does with the handlers.** -/
theorem change (h : Inv s place) (hs : Accept s s' ∨ Work s s') : handlers.Change s s' := by
  rcases hs with hs | hs
  · cases hs with
    | accept fd hm hidle hfree => exact .goes (fun _ => Or.inl rfl) fun _ => rfl
  · cases hs with
    | dispatch fd hm hidle => exact .goes (fun _ => Or.inl rfl) fun _ => rfl
    | inner t hs => exact .goes (fun _ => Or.inl rfl) fun _ => rfl
    | spurious w hp => exact .goes (fun _ => Or.inl rfl) fun _ => rfl
    | callPop w hw hp => exact .goes (fun _ => Or.inl rfl) fun _ => rfl
    | popReturn w fd hp => exact goes_of_update rfl rfl fun _ => rfl
    | call w fd hw => exact change_call h hw
    | handled w fd hw => exact goes_of_update rfl rfl fun _ => rfl
    | close w fd hw => exact goes_of_update rfl rfl fun _ => handledCount_closed ..

/-- **The descriptor of a worker refers to the same connection** as long as its handler runs. -/
theorem table_eq (h : Inv s place) (hs : Accept s s' ∨ Work s s') {w : ι} {fd : Int}
    (hr : (s.worker w).serving = some fd) (hr' : (s'.worker w).serving = some fd) :
    s'.table fd = s.table fd := by
  have hfd := Worker.fd_of_serving hr
  rcases hs with hs | hs
  · cases hs with
    | accept fd' hm hidle hfree =>
      -- `accept` returns a descriptor that is not open
      refine Function.update_of_ne ?_ _ _
      rintro rfl
      obtain ⟨c, hc⟩ := h.exists_conn hfd
      exact absurd (hfree.symm.trans hc) (by simp)
  · cases hs with
    | close u fd' hu =>
      refine Function.update_of_ne ?_ _ _
      rintro rfl
      obtain rfl := h.worker_unique hfd (by rw [hu]; rfl : (s.worker u).fd = some fd)
      dsimp only at hr'
      rw [Function.update_self] at hr'
      exact absurd hr' (by simp [Worker.serving])
    | _ => rfl

theorem handlers_lawful : (handlers (ι := ι)).Lawful where
  start := fun s h0 => by
    obtain rfl : s = .start := h0
    exact ⟨fun _ => rfl, fun _ => rfl⟩
  change := fun s s' hreach hs => by
    obtain ⟨place, hi⟩ := exists_inv hreach
    exact change hi hs
  refers := fun s w fd hreach hr => by
    obtain ⟨place, hi⟩ := exists_inv hreach
    obtain ⟨c, hc⟩ := hi.exists_conn (Worker.fd_of_serving hr)
    refine ⟨c, hc, ?_⟩
    rcases hi.ledger.counted fd c hc with ⟨-, hone⟩ | ⟨hno, -⟩
    · exact fun h0 => Nat.one_ne_zero (hone.symm.trans h0)
    · refine absurd ?_ (hno w)
      rw [Worker.eq_of_serving hr]
      rfl
  unique := fun s w u fd fd' c hreach hr hr' hc hc' => by
    obtain ⟨place, hi⟩ := exists_inv hreach
    obtain rfl := hi.ledger.table_inj fd fd' c hc hc'
    exact hi.worker_unique (Worker.fd_of_serving hr) (Worker.fd_of_serving hr')
  stable := fun s s' w fd hreach hs hr hr' => by
    obtain ⟨place, hi⟩ := exists_inv hreach
    exact table_eq hi hs hr hr'

end Pool

/-! ## The four dispatchers -/

/-- How many connections the server has accepted. -/
def Server.accepted {ι : Type} : Server ι → Nat
  | immediate _ s => s.accepted
  | pool s => s.accepted

/-- A server with the bytes that its handlers write. -/
inductive Served (ι : Type)
  | immediate (kind : Dispatch.Kind) (s : Handlers.Serving Dispatch.State Nat Nat UInt8)
  | pool (s : Handlers.Serving (Pool.State ι) ι Nat UInt8)

namespace Served

variable {ι : Type}

/-- The server without the bytes. -/
def server : Served ι → Server ι
  | immediate kind s => .immediate kind s.server
  | pool s => .pool s.server

/-- What the client of connection `c` has got. -/
def stream : Served ι → Nat → Str
  | immediate _ s => s.stream
  | pool s => s.stream

/-- The state is one of a run in which the handler of `c` writes `reply c`. -/
def Reachable [DecidableEq ι] (reply : Nat → Str) : Served ι → Prop
  | immediate kind s => ((Dispatch.handlers kind).serving reply).Reachable s
  | pool s => (Pool.handlers.serving reply).Reachable s

variable [DecidableEq ι] {reply : Nat → Str} {served : Served ι}

theorem stream_isPrefix (h : served.Reachable reply) (c : Nat) : served.stream c <+: reply c := by
  cases served with
  | immediate kind s =>
    exact (Handlers.Sent.of_reachable (Dispatch.handlers_lawful kind) h).isPrefix c
  | pool s => exact (Handlers.Sent.of_reachable Pool.handlers_lawful h).isPrefix c

/-- **At rest** a connection has got its whole reply, or nothing if no handler was started. -/
theorem stream_of_quiet [Nonempty ι] (h : served.Reachable reply) (hq : served.server.Quiet)
    {c : Nat} (hc : c < served.server.accepted) :
    served.stream c = if c ∈ served.server.failed then [] else reply c := by
  cases served with
  | immediate kind s =>
    have hsent := Handlers.Sent.of_reachable (Dispatch.handlers_lawful kind) h
    have hi := Dispatch.inv_of_reachable hsent.reachable
    have hq : s.server.Quiet := hq
    have hcount : handledCount s.server.log c = (s.server.task c).handled.toNat :=
      hi.books.counts c
    show s.stream c = if c ∈ s.server.failed then [] else reply c
    split_ifs with hf
    · rw [hi.stage.failed c hf] at hcount
      exact hsent.fresh c hcount
    · have hfin : s.server.task c = .finished := (hq.finished c).resolve_left fun habs => by
        rcases hi.stage.absent c hc habs with hf' | ⟨-, fd, hm⟩
        · exact hf hf'
        · exact absurd (hm.symm.trans hq.accepting) (by simp)
      rw [hfin] at hcount
      refine hsent.whole (fun h0 => Nat.one_ne_zero (hcount.symm.trans h0)) fun d => ?_
      show (s.server.task d).serving = none
      rcases hq.finished d with hd | hd <;> rw [hd] <;> rfl
  | pool s =>
    have hsent := Handlers.Sent.of_reachable Pool.handlers_lawful h
    have hq : s.server.Quiet := hq
    have hone := (Pool.contract hsent.reachable hq).once c hc
    show s.stream c = if c ∈ [] then [] else reply c
    rw [if_neg (by simp)]
    refine hsent.whole (fun h0 => Nat.one_ne_zero (hone.symm.trans h0)) fun w => ?_
    have hw : s.server.worker w = .popping := by
      by_contra hw
      obtain ⟨s', hr, hne⟩ := Pool.live_worker hw
      exact hne (hq.finished s' hr)
    exact congrArg Pool.Worker.serving hw

/-- Every run of the server is one with bytes. -/
theorem exists_reachable (reply : Nat → Str) {server : Server ι} (h : server.Reachable) :
    ∃ served : Served ι, served.Reachable reply ∧ served.server = server := by
  cases server with
  | immediate kind s =>
    obtain ⟨t, ht, rfl, -⟩ := Handlers.exists_serving (Dispatch.handlers_lawful kind) reply h
    exact ⟨.immediate kind t, ht, rfl⟩
  | pool s =>
    obtain ⟨t, ht, rfl, -⟩ := Handlers.exists_serving Pool.handlers_lawful reply h
    exact ⟨.pool t, ht, rfl⟩

end Served

/-- **Every client gets its own response**, if what `stat` finds for each request can be served. At
any moment it has got the first bytes of the one answer to its own request and nothing else. At rest
it has got all of it, unless `fork` or `pthread_create` has failed for it. -/
theorem own_response {ι : Type} [DecidableEq ι] [Nonempty ι] (fs : Nat → FileSystem)
    (w : Nat → Writes) (socket : Nat → Socket) (hserv : ∀ c, Servable (fs c) (socket c))
    (served : Served ι)
    (h : served.Reachable fun c => (handleFilesRequest (fs c) (w c) (socket c)).sent) (c : Nat) :
    ∃ r, (∀ r', Answer (fs c) (socket c) r' ↔ r' = r) ∧ served.stream c <+: r.render ∧
      (served.server.Quiet → c < served.server.accepted →
        served.stream c = if c ∈ served.server.failed then [] else r.render) := by
  obtain ⟨r, hanswer, hr⟩ := exists_answer_iff (w c) (hserv c)
  refine ⟨r, hanswer, ?_, fun hq hc => ?_⟩
  · rw [← hr]
    exact Served.stream_isPrefix h c
  · rw [Served.stream_of_quiet h hq hc, hr]

theorem servable_oneFile (fd : Socket) : Servable (oneFile (bytes "hi")) fd := fun _ _ =>
  ⟨fun _ => ⟨_, rfl, by decide⟩, fun h => absurd h (by simp [oneFile])⟩

/-- A child and a worker that serve one file each. -/
theorem own_response_runs :
    (∃ kind s, (Served.immediate (ι := Unit) kind s).server.accepted = 1 ∧
      ∃ r, Answer (oneFile (bytes "hi")) [bytes "GET /a HTTP/1.0\n"] r ∧ s.stream 0 = r.render) ∧
    ∃ s, (Served.pool (ι := Unit) s).server.accepted = 1 ∧
      ∃ r, Answer (oneFile (bytes "hi")) [bytes "GET /a HTTP/1.0\n"] r ∧ s.stream 0 = r.render := by
  have hrun : ∀ server : Server Unit, server.Reachable → server.Quiet → server.accepted = 1 →
      server.failed = [] → ∃ served : Served Unit, served.server = server ∧
        ∃ r, Answer (oneFile (bytes "hi")) [bytes "GET /a HTTP/1.0\n"] r ∧
          served.stream 0 = r.render := by
    intro server hreach hq haccepted hfailed
    obtain ⟨served, h, rfl⟩ := Served.exists_reachable _ hreach
    obtain ⟨r, hanswer, -, hwhole⟩ := own_response (fun _ => oneFile (bytes "hi"))
      (fun _ => wholeWrites) (fun _ => [bytes "GET /a HTTP/1.0\n"])
      (fun _ => servable_oneFile _) served h 0
    refine ⟨served, rfl, r, (hanswer r).mpr rfl, (hwhole hq (haccepted ▸ Nat.one_pos)).trans ?_⟩
    rw [hfailed]
    rfl
  constructor
  · obtain ⟨s, h, hq, haccepted, hfailed⟩ := exists_forked
    obtain ⟨served, hserver, hr⟩ := hrun (.immediate .process s) h hq haccepted hfailed
    cases served with
    | immediate kind t => exact ⟨kind, t, hserver ▸ haccepted, hr⟩
    | pool t => exact absurd hserver (by simp [Served.server])
  · obtain ⟨s, h, hq, haccepted⟩ := exists_pooled
    obtain ⟨served, hserver, hr⟩ := hrun (.pool s) h hq haccepted rfl
    cases served with
    | immediate kind t => exact absurd hserver (by simp [Served.server])
    | pool t => exact ⟨t, hserver ▸ haccepted, hr⟩

end SystemProgramming.HttpServer
