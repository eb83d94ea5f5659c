import SystemProgramming.Lib.Fifo
import SystemProgramming.Lib.Monitor.Wakeup
import SystemProgramming.Spooler.Ring

/-!
# The thread-safe spoolers

The three pairs of procedures over one `spool_t` and its `buf_lock`, as monitor procedures:
`spooler_safe.c` (spinning), `spooler_one_cv.c` (one condition variable) and `spooler_two_cv.c`
(two). `code` is `spool_insert` and `spool_remove` of `spooler.c`, which choose the pair by the
build. Any number of threads may call them. `spool_shutdown_efficient` sets the flag and
broadcasts without the lock, which is `shutdownWrites` and the monitor's broadcast.

* `spooler_outline`: the buffer is a ring that never overwrote anything and holds what the
  history of critical sections leaves in a bounded FIFO queue.
* `spooler_linearizable`: so, in every reachable state of every build, the calls form a history of
  that queue, in the order of the critical sections.
-/

namespace SystemProgramming.Spooler

open Lib Lib.Monitor

/-- The condition variables of `spool_t`. -/
inductive Cv where
  | conCv
  | proCv
  deriving DecidableEq

/-- A call of `spool_insert` with a pointer that is not `NULL`, or of `spool_remove`. -/
inductive Op (α : Type) where
  | insert (item : α)
  | remove
  deriving DecidableEq

/-- What a call returns. -/
inductive Ret (α : Type) where
  | void
  | ptr (p : Ptr α)
  deriving DecidableEq

variable {α : Type}

/-! ## The procedures -/

/-- The critical section of the inserts. -/
def insertBody (item : α) (sp : Spool α) : Ret α × Spool α :=
  (.void, spoolInsertUnchecked sp (some item))

/-- The critical section of the removals. -/
def removeBody (sp : Spool α) : Ret α × Spool α :=
  (.ptr (spoolRemoveUnchecked sp).1, (spoolRemoveUnchecked sp).2)

/-- `spool_insert_safe`. -/
def spoolInsertSafe (item : α) : Proc Cv (Spool α) (Ret α) where
  waits := spoolFull
  retry := .spin
  body := insertBody item
  notify := none

/-- `spool_remove_safe`. -/
def spoolRemoveSafe : Proc Cv (Spool α) (Ret α) where
  waits := spoolEmpty
  retry := .spin
  body := removeBody
  notify := none

/-- `spool_insert_cv1`. -/
def spoolInsertCv1 (item : α) : Proc Cv (Spool α) (Ret α) where
  waits := spoolFull
  retry := .wait (some .conCv) .conCv
  body := insertBody item
  notify := some .conCv

/-- `spool_remove_cv1`. -/
def spoolRemoveCv1 : Proc Cv (Spool α) (Ret α) where
  waits sp := spoolEmpty sp && !sp.shutdown
  retry := .wait (some .conCv) .conCv
  body := removeBody
  notify := some .conCv

/-- `spool_insert_cv2`. -/
def spoolInsertCv2 (item : α) : Proc Cv (Spool α) (Ret α) where
  waits := spoolFull
  retry := .wait (some .conCv) .proCv
  body := insertBody item
  notify := some .conCv

/-- `spool_remove_cv2`. -/
def spoolRemoveCv2 : Proc Cv (Spool α) (Ret α) where
  waits sp := spoolEmpty sp && !sp.shutdown
  retry := .wait (some .proCv) .conCv
  body := removeBody
  notify := some .proCv

/-- The build: `PART2`, `PART3` or `PART4` is defined. -/
inductive Build where
  | part2
  | part3
  | part4
  deriving DecidableEq

/-- `spool_insert`. -/
def spoolInsert (b : Build) (item : α) : Proc Cv (Spool α) (Ret α) :=
  match b with
  | .part4 => spoolInsertCv2 item
  | .part3 => spoolInsertCv1 item
  | .part2 => spoolInsertSafe item

/-- `spool_remove`. -/
def spoolRemove (b : Build) : Proc Cv (Spool α) (Ret α) :=
  match b with
  | .part4 => spoolRemoveCv2
  | .part3 => spoolRemoveCv1
  | .part2 => spoolRemoveSafe

/-- The calls of the spooler's interface. -/
def code (b : Build) : Op α → Proc Cv (Spool α) (Ret α)
  | .insert item => spoolInsert b item
  | .remove => spoolRemove b

/-- The write of `spool_shutdown_efficient`. -/
def shutdownWrites (sp sp' : Spool α) : Prop := sp' = { sp with shutdown := true }

/-! ## What all builds share -/

theorem code_insert_waits (b : Build) (item : α) (sp : Spool α) :
    (code b (.insert item)).waits sp = spoolFull sp := by
  cases b <;> rfl

theorem code_insert_body (b : Build) (item : α) :
    (code b (.insert item)).body = insertBody item := by
  cases b <;> rfl

theorem code_remove_body (b : Build) : (code (α := α) b .remove).body = removeBody := by
  cases b <;> rfl

theorem code_remove_waits_empty {b : Build} {sp : Spool α}
    (h : (code b .remove).waits sp = true) : spoolEmpty sp = true := by
  cases b with
  | part2 => exact h
  | part3 => exact (Bool.and_eq_true_iff.mp h).1
  | part4 => exact (Bool.and_eq_true_iff.mp h).1

/-- A removal that goes on finds an item, or, with a condition variable, the flag. -/
theorem code_remove_goes {b : Build} {sp : Spool α} (h : (code b .remove).waits sp = false) :
    spoolEmpty sp = false ∨ (b ≠ .part2 ∧ sp.shutdown = true) := by
  cases he : spoolEmpty sp with
  | false => exact Or.inl rfl
  | true =>
    right
    cases b with
    | part2 => exact absurd (he.symm.trans h) (by simp)
    | part3 => exact ⟨by simp, by simpa [code, spoolRemove, spoolRemoveCv1, he] using h⟩
    | part4 => exact ⟨by simp, by simpa [code, spoolRemove, spoolRemoveCv2, he] using h⟩

/-- Setting the flag makes nobody wait who did not. -/
theorem waits_shutdown {b : Build} {o : Op α} {sp : Spool α} (h : (code b o).waits sp = false) :
    (code b o).waits { sp with shutdown := true } = false := by
  cases o with
  | insert item =>
    rw [code_insert_waits] at h ⊢
    exact h
  | remove =>
    cases b with
    | part2 => exact h
    | part3 => exact Bool.and_false _
    | part4 => exact Bool.and_false _

/-! ## Histories -/

variable {ι : Type}

/-- A critical section as an operation of the abstract queue. -/
def event (e : ι × Op α × Ret α) : Fifo.Event α :=
  match e.2 with
  | (.insert item, _) => .put item
  | (.remove, .ptr p) => .get p
  | (.remove, .void) => .get none

/-- The item that a finished call inserted. -/
def insertedItem : Op α × Ret α → Option α
  | (.insert item, _) => some item
  | (.remove, _) => none

/-- The item that a finished call removed, unless it got `NULL`. -/
def removedItem : Op α × Ret α → Option α
  | (.remove, .ptr p) => p
  | _ => none

/-- The items inserted so far, in the order of the inserting critical sections. -/
def inserted (log : List (ι × Op α × Ret α)) : List α := log.filterMap fun e => insertedItem e.2

/-- The items returned so far that are not `NULL`, in the order of the removing critical
sections. -/
def returned (log : List (ι × Op α × Ret α)) : List α := log.filterMap fun e => removedItem e.2

theorem puts_event (log : List (ι × Op α × Ret α)) : Fifo.puts (log.map event) = inserted log := by
  unfold Fifo.puts inserted
  rw [List.filterMap_map]
  congr 1
  funext e
  obtain ⟨t, (x | _), (_ | p)⟩ := e <;> rfl

theorem gets_event (log : List (ι × Op α × Ret α)) : Fifo.gets (log.map event) = returned log := by
  unfold Fifo.gets returned
  rw [List.filterMap_map]
  congr 1
  funext e
  obtain ⟨t, (x | _), (_ | p)⟩ := e <;> rfl

/-- **The spooler's assertion**: the buffer is a ring of size `n` that never overwrote anything
and holds what the history of critical sections leaves in a queue of at most `n` items. -/
structure Data (b : Build) (n : Nat) (log : List (ι × Op α × Ret α)) (sp : Spool α) : Prop where
  ring : Ring sp
  size : sp.size = n
  freed : sp.freed = []
  queue : ∃ q, contents sp = q.map some ∧ Fifo.Run n (log.map event) q
  found : b = .part2 → ∀ e ∈ log, e.2.2 ≠ .ptr none

/-- What a critical section may assume: the test failed, and still would. -/
def Goes (b : Build) (o : Op α) (sp : Spool α) : Prop := (code b o).waits sp = false

/-- What a thread about to wait may assume. The flag may have been set since its test. -/
def Stops (o : Op α) (sp : Spool α) : Prop :=
  match o with
  | .insert _ => spoolFull sp = true
  | .remove => spoolEmpty sp = true

/-- **First in, first out**, on the state. -/
theorem Data.fifo {b : Build} {n : Nat} {log : List (ι × Op α × Ret α)} {sp : Spool α}
    (h : Data b n log sp) :
    (returned log).map some ++ contents sp = (inserted log).map some := by
  obtain ⟨q, hq, hrun⟩ := h.queue
  have := hrun.fifo
  rw [puts_event, gets_event] at this
  rw [this, List.map_append, hq]

/-- A removal from a non-empty buffer returns an item. -/
theorem Data.removeBody_item {b : Build} {n : Nat} {log : List (ι × Op α × Ret α)} {sp : Spool α}
    (h : Data b n log sp) (he : spoolEmpty sp = false) :
    ∃ x, (removeBody sp).1 = .ptr (some x) := by
  obtain ⟨q, hq, -⟩ := h.queue
  have hc := contents_spoolRemoveUnchecked h.ring he
  rw [hq] at hc
  cases q with
  | nil => exact absurd hc (by simp)
  | cons x q => exact ⟨x, congrArg Ret.ptr (List.cons.inj hc).1.symm⟩

theorem data_insert {b : Build} {n : Nat} {log : List (ι × Op α × Ret α)} {sp : Spool α}
    (h : Data b n log sp) (hf : spoolFull sp = false) (t : ι) (item : α) :
    Data b n (log ++ [(t, .insert item, .void)]) (spoolInsertUnchecked sp (some item)) := by
  obtain ⟨hring, hsize, hfreed, ⟨q, hq, hrun⟩, hfound⟩ := h
  have hlen : q.length < n := by
    have h1 := congrArg List.length hq
    rw [contents_length, List.length_map] at h1
    have h2 := capacity_pos_of_room hf
    have h3 := hring.capacity_le
    unfold stored at h1
    omega
  refine ⟨ring_spoolInsertUnchecked hring hf _, by rw [size_spoolInsertUnchecked, hsize], by rw
    [freed_spoolInsertUnchecked hring hf, hfreed], ⟨q ++ [item], ?_, ?_⟩, ?_⟩
  · rw [contents_spoolInsertUnchecked hring hf, hq, List.map_append, List.map_singleton]
  · rw [List.map_append, List.map_singleton]
    exact hrun.snoc (.put q item hlen)
  · intro hb e he
    rcases List.mem_append.mp he with he | he
    · exact hfound hb e he
    · rw [List.mem_singleton.mp he]
      simp

theorem data_remove {b : Build} {n : Nat} {log : List (ι × Op α × Ret α)} {sp : Spool α}
    (h : Data b n log sp) (hg : Goes b .remove sp) (t : ι) :
    Data b n (log ++ [(t, .remove, .ptr (spoolRemoveUnchecked sp).1)])
      (spoolRemoveUnchecked sp).2 := by
  have hitem := h.removeBody_item
  obtain ⟨hring, hsize, hfreed, ⟨q, hq, hrun⟩, hfound⟩ := h
  -- what the removal returns and leaves, as a step of the abstract queue
  obtain ⟨q', hq', hstep⟩ : ∃ q', contents (spoolRemoveUnchecked sp).2 = q'.map some ∧
      Fifo.Step n q (.get (spoolRemoveUnchecked sp).1) q' := by
    cases he : spoolEmpty sp with
    | true =>
      have h0 : q = [] := by
        have := (spoolEmpty_iff_contents hring).mp he
        rw [hq] at this
        exact List.map_eq_nil_iff.mp this
      rw [spoolRemoveUnchecked_of_empty he, h0]
      exact ⟨[], by rw [hq, h0], .miss⟩
    | false =>
      have hc := contents_spoolRemoveUnchecked hring he
      rw [hq] at hc
      cases q with
      | nil => exact absurd hc (by simp)
      | cons x q' =>
        obtain ⟨h1, h2⟩ := List.cons.inj hc
        rw [← h1, ← h2]
        exact ⟨q', rfl, .get q' x⟩
  refine ⟨ring_spoolRemoveUnchecked hring, by rw [size_spoolRemoveUnchecked, hsize], by rw
    [freed_spoolRemoveUnchecked, hfreed], ⟨q', hq', ?_⟩, ?_⟩
  · rw [List.map_append, List.map_singleton]
    exact hrun.snoc hstep
  · intro hb e he
    rcases List.mem_append.mp he with he | he
    · exact hfound hb e he
    · rw [List.mem_singleton.mp he]
      rcases code_remove_goes hg with hne | ⟨hnb, -⟩
      · intro h0
        have h0 : (spoolRemoveUnchecked sp).1 = none := by simpa using h0
        have hc := contents_spoolRemoveUnchecked hring hne
        rw [hq, h0] at hc
        cases q with
        | nil => exact absurd hc (by simp)
        | cons x q' => exact absurd hc (by simp)
      · exact absurd hb hnb

/-- **The spooler obeys the monitor rule.** -/
theorem spooler_outline (b : Build) (n : Nat) (mem : Nat → Ptr α) :
    Outline (ι := ι) (code b) shutdownWrites (spoolInitShared mem n) (Data b n) (Goes b) Stops where
  init := ⟨ring_spoolInitShared mem n, rfl, rfl, ⟨[], contents_spoolInitShared mem n, .nil⟩,
    fun _ e he => absurd he List.not_mem_nil⟩
  test_go := fun _ _ _ _ hw => hw
  test_stop := fun _ o sp _ hw => by
    cases o with
    | insert item => exact (code_insert_waits b item sp).symm.trans hw
    | remove => exact code_remove_waits_empty hw
  body := fun _ t o sp hd hg => by
    cases o with
    | insert item =>
      rw [code_insert_body]
      exact data_insert hd ((code_insert_waits b item sp).symm.trans hg) t item
    | remove =>
      rw [code_remove_body]
      exact data_remove hd hg t
  env_data := fun _ _ _ hd he => by
    subst he
    exact ⟨⟨hd.ring.capacity_le, hd.ring.write_eq, hd.ring.read_lt⟩, hd.size, hd.freed, hd.queue,
      hd.found⟩
  env_go := fun _ _ _ he hg => by
    subst he
    exact waits_shutdown hg
  env_stop := fun o _ _ he hs => by
    subst he
    cases o <;> exact hs

/-! ## The spoolers are bounded FIFO queues -/

/-- The open system of the build `b`, with a buffer of `n` slots: any thread may call. -/
def spooler (b : Build) (ι : Type) [DecidableEq ι] (mem : Nat → Ptr α) (n : Nat) :
    System (State ι (Op α) (Spool α) (Ret α)) :=
  system (code b) shutdownWrites (spoolInitShared mem n)

theorem spooler_start (b : Build) (ι : Type) [DecidableEq ι] (mem : Nat → Ptr α) (n : Nat) :
    (spooler b ι mem n).Reachable (.start (spoolInitShared mem n)) :=
  .start rfl

variable [DecidableEq ι]

/-- **The locked spoolers are linearizable bounded FIFO queues.** With `buf_lock` free: what was
returned followed by the buffer, of at most `n` items, is what was inserted; every thread's
finished calls are its critical sections, each once; `spool_remove_safe` never returned `NULL`;
nothing was overwritten and freed; and a removal that returned `NULL` found the queue empty. -/
theorem spooler_linearizable (b : Build) (mem : Nat → Ptr α) (n : Nat)
    {s : State ι (Op α) (Spool α) (Ret α)} (h : (spooler b ι mem n).Reachable s)
    (hfree : s.owner = none) :
    (returned s.log).map some ++ contents s.shared = (inserted s.log).map some ∧
      (contents s.shared).length ≤ n ∧
      (∀ t, callsOf t s.log = s.returns t) ∧
      (b = .part2 → ∀ t, ∀ c ∈ s.returns t, c.2 ≠ .ptr none) ∧
      s.shared.freed = [] ∧
      ∀ pre t post, s.log = pre ++ (t, .remove, .ptr none) :: post →
        inserted pre = returned pre := by
  have hwf := reachable_wf h
  have hd := ((spooler_outline b n mem).holds h).data
  have hfifo := hd.fifo
  obtain ⟨-, -, hfreed, ⟨q, hq, hrun⟩, hfound⟩ := hd
  have hcalls : ∀ t, callsOf t s.log = s.returns t := fun t => by
    rw [hwf.calls t]
    have hout := hwf.mutex.out_of_free hfree t
    cases hp : s.phase t with
    | notify o r | release o r => rw [hp] at hout; exact absurd hout (by simp [Phase.holds])
    | _ => exact List.append_nil _
  refine ⟨hfifo, ?_, hcalls, ?_, hfreed, ?_⟩
  · rw [hq, List.length_map]
    exact hrun.length_le
  · intro hb t c hc
    rw [← hcalls t] at hc
    obtain ⟨e, he, rfl⟩ := List.mem_map.mp hc
    exact hfound hb e (List.mem_filter.mp he).1
  · intro pre t post hl
    rw [hl, List.map_append, List.map_cons] at hrun
    have := hrun.miss
    rwa [puts_event, gets_event] at this

/-- A removal that finds the spool empty and spins, an insert by another thread, and the removal. -/
theorem spooler_linearizable_removal :
    ∃ s : State Bool (Op Nat) (Spool Nat) (Ret Nat),
      (spooler .part2 Bool (fun _ => none) 1).Reachable s ∧
        s.log = [(false, .insert 7, .void), (true, .remove, .ptr (some 7))] ∧
        (returned s.log).map some ++ contents s.shared = (inserted s.log).map some ∧
        ∀ t, callsOf t s.log = s.returns t := by
  have h0 := spooler_start (α := Nat) .part2 Bool (fun _ => none) 1
  have h1 := h0.step (.call true .remove rfl)
  have h2 := h1.step (.move true _ (.acquire .remove (Or.inl rfl) rfl))
  have h3 := h2.step (.move true _ (.stop .remove rfl rfl))
  have h4 := h3.step (.call false (.insert 7) rfl)
  have h5 := h4.step (.move true _ (.spin .remove rfl))
  have h6 := h5.step (.move false _ (.acquire (.insert 7) (Or.inl rfl) rfl))
  have h7 := h6.step (.move false _ (.proceed (.insert 7) rfl rfl))
  have h8 := h7.step (.move false _ (.body (.insert 7) rfl))
  have h9 := h8.step (.move false _ (.release (.insert 7) .void rfl))
  have h10 := h9.step (.move true _ (.acquire .remove (Or.inl rfl) rfl))
  have h11 := h10.step (.move true _ (.proceed .remove rfl rfl))
  have h12 := h11.step (.move true _ (.body .remove rfl))
  have h13 := h12.step (.move true _ (.release .remove (.ptr (some 7)) rfl))
  obtain ⟨hfifo, -, hcalls, -⟩ := spooler_linearizable .part2 (fun _ => none) 1 h13 rfl
  exact ⟨_, h13, rfl, hfifo, hcalls⟩

end SystemProgramming.Spooler
