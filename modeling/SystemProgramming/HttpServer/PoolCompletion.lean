import Mathlib.Algebra.Order.BigOperators.Group.Finset
import SystemProgramming.HttpServer.WorkItems

/-!
# The thread pool comes to rest

`State.rank` bounds the steps that the pool can make until the next connection is accepted. A
descriptor in the queue weighs more than all that a worker does with it, and a broadcast pays for
the workers that it wakes up and that go back to sleep.

* `Wq.Inner.rank_lt`: every statement of the queue lowers the rank, for any number of threads.
* `pool_rests`: a run is at most as long as a bound in its connections and spurious wake-ups, and
  when it cannot go on by itself, every connection has been handled once and closed, the workers
  are blocked, and all items are free.
-/

namespace SystemProgramming.HttpServer

open Lib

namespace Wq

/-! ## The rank of the queue -/

/-- How far a thread is from its caller, a wait or an item, where a broadcast wakes at most `n`
threads. An item of the queue counts 12. -/
def Phase.rank (n : Nat) : Phase → Nat
  | .popBlocked | .popDelete _ _ | .crashed => 0
  | .popWait | .popSize _ _ => 1
  | .popHead => 2
  | .popTest => 3
  | .popLock | .popWoken => 4
  | .idle => 5
  | .pushUnlock => 6
  | .popReturn _ => 9
  | .popFree _ _ => 10
  | .popUnlock _ _ => 11
  | .pushBroadcast => 4 * n + 7
  | .pushSize => 4 * n + 8
  | .pushAppend _ _ => 4 * n + 21
  | .pushSet _ _ => 4 * n + 22
  | .pushCalloc _ => 4 * n + 23
  | .pushLock _ => 4 * n + 24

variable {κ : Type} [Fintype κ] {s s' : State κ} {nodes nodes' : List (Addr × Int)} {t : κ}
  {q : Phase} {n : Nat}

/-- **The rank of a state** of the queue. -/
def State.rank (n : Nat) (s : State κ) : Nat := ∑ t, (s.phase t).rank n + 12 * s.queue.length

omit [Fintype κ] in
theorem queue_of_histories (hpushed : s'.pushed = s.pushed) (hpopped : s'.popped = s.popped) :
    s'.queue = s.queue := by
  unfold State.queue
  rw [hpushed, hpopped]

variable [DecidableEq κ]

/-- What a thread's own move does to the rank. -/
theorem rank_goto (hphase : s'.phase = (s.goto t q).phase) :
    s'.rank n + ((s.phase t).rank n + 12 * s.queue.length) =
      s.rank n + (q.rank n + 12 * s'.queue.length) := by
  have h := sum_change (f := fun u => (s.phase u).rank n)
    (g := fun u => ((s.goto t q).phase u).rank n) (t := t) fun u hu => by rw [goto_of_ne s q hu]
  rw [goto_self] at h
  unfold State.rank
  rw [hphase]
  omega

/-- A move that leaves the queue. -/
theorem rank_lt_of_goto (hphase : s'.phase = (s.goto t q).phase) (hpushed : s'.pushed = s.pushed)
    (hpopped : s'.popped = s.popped) (hq : q.rank n < (s.phase t).rank n) :
    s'.rank n < s.rank n := by
  have h := rank_goto (n := n) hphase
  rw [queue_of_histories hpushed hpopped] at h
  omega

/-- A move that takes an item: the item pays for what is done with it. -/
theorem rank_lt_of_take (hphase : s'.phase = (s.goto t q).phase) {fd : Int}
    (hqueue : s.queue = fd :: s'.queue) (hq : q.rank n < (s.phase t).rank n + 12) :
    s'.rank n < s.rank n := by
  have h := rank_goto (n := n) hphase
  rw [hqueue, List.length_cons] at h
  omega

/-- A move that appends an item. -/
theorem rank_lt_of_append (hphase : s'.phase = (s.goto t q).phase) {fd : Int}
    (hqueue : s'.queue = s.queue ++ [fd]) (hq : q.rank n + 12 < (s.phase t).rank n) :
    s'.rank n < s.rank n := by
  have h := rank_goto (n := n) hphase
  rw [hqueue, List.length_append, List.length_singleton] at h
  omega

/-- A broadcast wakes the other threads only. -/
theorem rank_broadcast (hn : Fintype.card κ ≤ n + 1) (hp : s.phase t = .pushBroadcast) :
    (s.broadcast t).rank n < s.rank n := by
  have hself : ((s.broadcast t).phase t).rank n + (4 * n + 1) = (s.phase t).rank n := by
    rw [broadcast_self, hp]
    simp only [Phase.rank]
    omega
  have hother : ∀ u ∈ Finset.univ.erase t,
      ((s.broadcast t).phase u).rank n ≤ (s.phase u).rank n + 4 := fun u hu => by
    rcases broadcast_of_ne s (Finset.ne_of_mem_erase hu) with ⟨hw, -⟩ | ⟨hw, -⟩
    · rw [hw]
      exact Nat.le_add_left ..
    · rw [hw]
      exact Nat.le_add_right ..
  have hsum := Finset.sum_le_sum hother
  rw [Finset.sum_add_distrib, Finset.sum_const,
    Finset.card_erase_of_mem (Finset.mem_univ t), Finset.card_univ, Nat.nsmul_eq_mul] at hsum
  have hqueue : (s.broadcast t).queue = s.queue := rfl
  have hold := Finset.add_sum_erase _ (fun u => (s.phase u).rank n) (Finset.mem_univ t)
  have hnew := Finset.add_sum_erase _ (fun u => ((s.broadcast t).phase u).rank n)
    (Finset.mem_univ t)
  unfold State.rank
  rw [hqueue]
  omega

/-- **Every statement lowers the rank.** -/
theorem Inner.rank_lt (hn : Fintype.card κ ≤ n + 1) (h : Inner s t s') (hi : Inv s nodes)
    (hi' : Inv s' nodes') : s'.rank n < s.rank n := by
  have hcrash := hi'.ne_crashed t
  cases h with
  | popLock hp hf =>
    refine rank_lt_of_goto (t := t) (q := .popTest) rfl rfl rfl ?_
    rcases hp with hp | hp <;> rw [hp] <;> simp only [Phase.rank] <;> omega
  | popTest hp =>
    refine rank_lt_of_goto (t := t) rfl rfl rfl ?_
    rw [hp]
    split_ifs <;> simp only [Phase.rank] <;> omega
  | popWait hp =>
    exact rank_lt_of_goto (t := t) (q := .popBlocked) rfl rfl rfl (by rw [hp]; exact Nat.one_pos)
  | popHead hp =>
    rw [goto_self] at hcrash
    generalize s.readHead = r at hcrash
    cases r with
    | none => exact absurd rfl hcrash
    | some p =>
      exact rank_lt_of_goto (t := t) rfl rfl rfl (by rw [hp]; exact Nat.one_lt_two)
  | popSize a fd hp =>
    exact rank_lt_of_goto (t := t) (q := .popDelete a fd) rfl rfl rfl
      (by rw [hp]; exact Nat.one_pos)
  | popDelete a fd hp =>
    generalize dlDelete s.heap s.head id = r at hcrash hi'
    cases r with
    | none => exact absurd (goto_self s t _) hcrash
    | some p =>
      exact rank_lt_of_take (t := t) (q := .popUnlock a fd) rfl (hi'.queue_take (s := s) rfl rfl)
        (by rw [hp]; exact Nat.lt_succ_self 11)
  | popUnlock a fd hp =>
    exact rank_lt_of_goto (t := t) (q := .popFree a fd) rfl rfl rfl
      (by rw [hp]; exact Nat.lt_succ_self 10)
  | popFree a fd hp =>
    exact rank_lt_of_goto (t := t) (q := .popReturn fd) rfl rfl rfl
      (by rw [hp]; exact Nat.lt_succ_self 9)
  | pushLock fd hp hf =>
    exact rank_lt_of_goto (t := t) (q := .pushCalloc fd) rfl rfl rfl
      (by rw [hp]; exact Nat.lt_succ_self _)
  | pushCalloc fd a hp hfree =>
    exact rank_lt_of_goto (t := t) (q := .pushSet a fd) rfl rfl rfl
      (by rw [hp]; exact Nat.lt_succ_self _)
  | pushSet a fd hp =>
    generalize s.heap.modify (some a) (fun n => { n with payload := fd }) = r at hcrash
    cases r with
    | none => exact absurd (goto_self s t _) hcrash
    | some heap =>
      exact rank_lt_of_goto (t := t) (q := .pushAppend a fd) rfl rfl rfl
        (by rw [hp]; exact Nat.lt_succ_self _)
  | pushAppend a fd hp =>
    generalize dlAppend s.heap s.head a = r at hcrash
    cases r with
    | none => exact absurd (goto_self s t _) hcrash
    | some p =>
      exact rank_lt_of_append (t := t) (q := .pushSize) rfl (hi.queue_append rfl rfl)
        (by rw [hp]; exact Nat.lt_succ_self _)
  | pushSize hp =>
    exact rank_lt_of_goto (t := t) (q := .pushBroadcast) rfl rfl rfl
      (by rw [hp]; exact Nat.lt_succ_self _)
  | pushBroadcast hp => exact rank_broadcast hn hp
  | pushUnlock hp =>
    exact rank_lt_of_goto (t := t) (q := .idle) rfl rfl rfl
      (by rw [hp]; exact Nat.lt_succ_self 5)

/-! ## What a thread can do -/

omit [Fintype κ] in
/-- A thread that is not in `wq_pop` returns from `wq_push`, or stays in it. -/
theorem Inner.pushes (h : Inner s t s') (hp : s.phase t = .idle ∨ (s.phase t).pops = false) :
    s'.phase t = .idle ∨ (s'.phase t).pops = false := by
  have hno : ∀ {p : Phase}, s.phase t = p → p ≠ .idle → p.pops = true → False :=
    fun he hidle hpops => by
      rw [he] at hp
      rcases hp with hp | hp
      · exact hidle hp
      · exact absurd (hp.symm.trans hpops) (by simp)
  have hstays : ∀ q : Phase, q.pops = false → (s.goto t q).phase t = .idle ∨
      ((s.goto t q).phase t).pops = false :=
    fun q hq => Or.inr ((congrArg Phase.pops (goto_self s t q)).trans hq)
  cases h with
  | pushLock fd _ _ => exact hstays (.pushCalloc fd) rfl
  | pushCalloc fd a _ _ => exact hstays (.pushSet a fd) rfl
  | pushSet a fd _ => split <;> exact hstays _ rfl
  | pushAppend a fd _ => split <;> exact hstays _ rfl
  | pushSize _ => exact hstays .pushBroadcast rfl
  | pushBroadcast _ => exact Or.inr (congrArg Phase.pops (broadcast_self s t))
  | pushUnlock _ => exact Or.inl (goto_self s t _)
  | popLock he _ => rcases he with he | he <;> exact (hno he (by simp) rfl).elim
  | popTest he => exact (hno he (by simp) rfl).elim
  | popWait he => exact (hno he (by simp) rfl).elim
  | popHead he => exact (hno he (by simp) rfl).elim
  | popSize a fd he => exact (hno he (by simp) rfl).elim
  | popDelete a fd he => exact (hno he (by simp) rfl).elim
  | popUnlock a fd he => exact (hno he (by simp) rfl).elim
  | popFree a fd he => exact (hno he (by simp) rfl).elim

/-- **The owner of the mutex can go on.** -/
theorem exists_inner (h : system.Reachable s) (ht : (s.phase t).holds = true) :
    ∃ s', Inner s t s' := by
  cases hp : s.phase t with
  | popTest => exact ⟨_, .popTest hp⟩
  | popWait => exact ⟨_, .popWait hp⟩
  | popHead => exact ⟨_, .popHead hp⟩
  | popSize a fd => exact ⟨_, .popSize a fd hp⟩
  | popDelete a fd => exact ⟨_, .popDelete a fd hp⟩
  | popUnlock a fd => exact ⟨_, .popUnlock a fd hp⟩
  | pushCalloc fd =>
    obtain ⟨a, ha⟩ := exists_free h
    exact ⟨_, .pushCalloc fd a hp ha⟩
  | pushSet a fd => exact ⟨_, .pushSet a fd hp⟩
  | pushAppend a fd => exact ⟨_, .pushAppend a fd hp⟩
  | pushSize => exact ⟨_, .pushSize hp⟩
  | pushBroadcast => exact ⟨_, .pushBroadcast hp⟩
  | pushUnlock => exact ⟨_, .pushUnlock hp⟩
  | crashed => exact absurd hp (not_crashed h t)
  | _ => rw [hp] at ht; exact absurd ht (by simp [Phase.holds])

omit [Fintype κ] in
/-- With the mutex free, only a thread outside and a thread that waits cannot go on. -/
theorem exists_inner_of_free (hf : s.owner = none) (ht : (s.phase t).holds = false)
    (hidle : s.phase t ≠ .idle) (hblocked : s.phase t ≠ .popBlocked)
    (hreturn : ∀ fd, s.phase t ≠ .popReturn fd) : ∃ s', Inner s t s' := by
  cases hp : s.phase t with
  | idle => exact absurd hp hidle
  | popBlocked => exact absurd hp hblocked
  | popReturn fd => exact absurd hp (hreturn fd)
  | popLock => exact ⟨_, .popLock (Or.inl hp) hf⟩
  | popWoken => exact ⟨_, .popLock (Or.inr hp) hf⟩
  | popFree a fd => exact ⟨_, .popFree a fd hp⟩
  | pushLock fd => exact ⟨_, .pushLock fd hp hf⟩
  | _ => rw [hp] at ht; exact absurd ht (by simp [Phase.holds])

end Wq

namespace Pool

open Wq (Phase)

variable {ι : Type} [DecidableEq ι] [Fintype ι] {s s' : State ι}

/-! ## The rank of the pool -/

/-- What a worker does with a descriptor that it has got. -/
def Worker.rank : Worker → Nat
  | .popping => 0
  | .call _ => 3
  | .inHandler _ => 2
  | .close _ => 1

/-- **The rank of a state.** -/
def State.rank (s : State ι) : Nat :=
  s.wq.rank (Fintype.card ι) + ∑ w, (s.worker w).rank +
    if s.main = none then 0 else 4 * Fintype.card ι + 20

/-- A worker moves on, with the descriptor it has. -/
theorem rank_lt_of_worker {w : ι} {x : Worker} {table : Int → Option Nat}
    {log : List (Event (Option ι))} (hx : x.rank < (s.worker w).rank) :
    State.rank { s with worker := Function.update s.worker w x, table := table, log := log } <
      s.rank := by
  have h := sum_change (f := fun u => (s.worker u).rank)
    (g := fun u => (Function.update s.worker w x u).rank) (t := w)
    fun u hu => by rw [Function.update_of_ne hu]
  rw [Function.update_self] at h
  unfold State.rank
  simp only
  omega

/-- A statement of the queue. -/
theorem rank_lt_of_inner (hr : system.Reachable s) {t : Option ι} {wq : Wq.State (Option ι)}
    (h : Wq.Inner s.wq t wq) : State.rank { s with wq := wq } < s.rank := by
  obtain ⟨nodes, hi⟩ := Wq.exists_inv (reachable_wq hr)
  obtain ⟨nodes', hi'⟩ := hi.inner h
  have hlt := h.rank_lt (Fintype.card_option).le hi hi'
  exact Nat.add_lt_add_right (Nat.add_lt_add_right hlt _) _

/-- `dispatch` calls `wq_push`. -/
theorem rank_lt_of_dispatch {fd : Int} (hm : s.main = some fd) (hidle : s.wq.phase none = .idle) :
    State.rank { s with wq := s.wq.callPush none fd, main := none } < s.rank := by
  have h := Wq.rank_goto (s := s.wq) (n := Fintype.card ι) (t := none) (q := .pushLock fd) rfl
  have hrank : (s.wq.callPush none fd).rank (Fintype.card ι) =
      (s.wq.goto none (.pushLock fd)).rank (Fintype.card ι) := rfl
  have hqueue : (s.wq.goto none (.pushLock fd)).queue = s.wq.queue := rfl
  rw [hidle, hqueue, ← hrank] at h
  simp only [Phase.rank] at h
  simp only [State.rank, hm, reduceCtorEq, if_false, if_true]
  omega

/-- A worker calls `wq_pop`. -/
theorem rank_lt_of_callPop {w : ι} (hp : s.wq.phase (some w) = .idle) :
    State.rank { s with wq := s.wq.goto (some w) .popLock } < s.rank := by
  have hlt : (s.wq.goto (some w) .popLock).rank (Fintype.card ι) < s.wq.rank (Fintype.card ι) :=
    Wq.rank_lt_of_goto (t := some w) rfl rfl rfl (by rw [hp]; exact Nat.lt_succ_self 4)
  exact Nat.add_lt_add_right (Nat.add_lt_add_right hlt _) _

/-- `wq_pop` returns to a worker. -/
theorem rank_lt_of_popReturn {w : ι} {fd : Int} (hw : s.worker w = .popping)
    (hp : s.wq.phase (some w) = .popReturn fd) :
    State.rank { s with
      wq := s.wq.popReturn (some w) fd
      worker := Function.update s.worker w (.call fd) } < s.rank := by
  have h := Wq.rank_goto (s := s.wq) (n := Fintype.card ι) (t := some w) (q := .idle) rfl
  have hrank : (s.wq.popReturn (some w) fd).rank (Fintype.card ι) =
      (s.wq.goto (some w) .idle).rank (Fintype.card ι) := rfl
  have hqueue : (s.wq.goto (some w) .idle).queue = s.wq.queue := rfl
  have hsum := sum_change (f := fun u => (s.worker u).rank)
    (g := fun u => (Function.update s.worker w (.call fd) u).rank) (t := w)
    fun u hu => by rw [Function.update_of_ne hu]
  have hcall : (Worker.call fd).rank = 3 := rfl
  have hpopping : Worker.popping.rank = 0 := rfl
  rw [hp, hqueue, ← hrank] at h
  rw [Function.update_self, hw, hcall, hpopping] at hsum
  simp only [Phase.rank] at h
  simp only [State.rank]
  omega

/-- **Every step of the pool but a spurious wake-up lowers the rank.** -/
theorem rank_lt_of_work (hr : system.Reachable s) (hs : Work s s') (hn : ¬ Spurious s s') :
    s'.rank < s.rank := by
  cases hs with
  | dispatch fd hm hidle => exact rank_lt_of_dispatch hm hidle
  | inner t h => exact rank_lt_of_inner hr h
  | spurious w hp => exact absurd ⟨w, hp, rfl⟩ hn
  | callPop w hw hp => exact rank_lt_of_callPop hp
  | popReturn w fd hp =>
    obtain ⟨place, hi⟩ := exists_inv hr
    exact rank_lt_of_popReturn (hi.worker_of_busy (by rw [hp]; simp)) hp
  | call w fd hw => exact rank_lt_of_worker (by rw [hw]; exact Nat.lt_succ_self 2)
  | handled w fd hw =>
    exact rank_lt_of_worker (by rw [hw]; exact Nat.one_lt_two)
  | close w fd hw => exact rank_lt_of_worker (by rw [hw]; exact Nat.one_pos)

/-- A spurious wake-up raises the rank by 4. -/
theorem rank_of_spurious (h : Spurious s s') : s'.rank = s.rank + 4 := by
  obtain ⟨w, hp, rfl⟩ := h
  have h := Wq.rank_goto (s := s.wq) (n := Fintype.card ι) (t := some w) (q := .popWoken) rfl
  have hqueue : (s.wq.goto (some w) .popWoken).queue = s.wq.queue := rfl
  rw [hp, hqueue] at h
  simp only [Phase.rank] at h
  simp only [State.rank]
  omega

omit [DecidableEq ι] in
/-- A new connection raises the rank by what its way through the queue may take. -/
theorem rank_of_accept (h : Accept s s') :
    s'.rank = s.rank + (4 * Fintype.card ι + 20) ∧ s'.accepted = s.accepted + 1 := by
  cases h with
  | accept fd hm hidle hfree hfd =>
    refine ⟨?_, rfl⟩
    simp only [State.rank, hm, reduceCtorEq, if_false, if_true]
    omega

omit [DecidableEq ι] in
theorem rank_start : (State.start : State ι).rank = 5 * (Fintype.card ι + 1) := by
  have hcard : Fintype.card (Option ι) = Fintype.card ι + 1 := Fintype.card_option
  simp [State.rank, State.start, Wq.State.rank, Wq.State.start, Wq.State.queue, Phase.rank,
    Worker.rank, hcard, Nat.mul_comm]

/-! ## How long a run is -/

/-- A run of `k` steps, of which `p` are spurious wake-ups. -/
inductive Run : Nat → Nat → State ι → Prop
  | start : Run 0 0 .start
  | accept {k p : Nat} {s s' : State ι} (h : Run k p s) (hs : Accept s s') : Run (k + 1) p s'
  | work {k p : Nat} {s s' : State ι} (h : Run k p s) (hs : Work s s') (hn : ¬ Spurious s s') :
      Run (k + 1) p s'
  | spurious {k p : Nat} {s s' : State ι} (h : Run k p s) (hs : Spurious s s') :
      Run (k + 1) (p + 1) s'

variable {k p : Nat}

omit [Fintype ι] in
theorem accepted_of_work (h : Work s s') : s'.accepted = s.accepted := by
  cases h <;> rfl

omit [Fintype ι] in
theorem Spurious.work (h : Spurious s s') : Work s s' := by
  obtain ⟨w, hp, rfl⟩ := h
  exact .spurious w hp

omit [Fintype ι] in
theorem Run.reachable (h : Run k p s) : system.Reachable s := by
  induction h with
  | start => exact .start rfl
  | accept _ hs ih => exact ih.step (Or.inl hs)
  | work _ hs _ ih => exact ih.step (Or.inr hs)
  | spurious _ hs ih => exact ih.step (Or.inr hs.work)

/-- The length of a run against what its steps leave of the rank. -/
theorem Run.length_add_rank_le (h : Run k p s) :
    k + s.rank ≤ 5 * (Fintype.card ι + 1) + (4 * Fintype.card ι + 21) * s.accepted + 5 * p := by
  induction h with
  | start => rw [rank_start, Nat.zero_add, Nat.mul_zero]; exact Nat.le_add_right _ _
  | accept _ hs ih =>
    obtain ⟨hrank, haccepted⟩ := rank_of_accept hs
    rw [haccepted, Nat.mul_succ (4 * Fintype.card ι + 21)]
    omega
  | work h hs hn ih =>
    have hlt := rank_lt_of_work h.reachable hs hn
    rw [accepted_of_work hs]
    omega
  | spurious _ hs ih =>
    have hrank := rank_of_spurious hs
    rw [accepted_of_work hs.work]
    omega

/-! ## How a run ends -/

/-- Main never calls `wq_pop`. -/
def State.Pushes (s : State ι) : Prop :=
  s.wq.phase none = .idle ∨ (s.wq.phase none).pops = false

omit [Fintype ι] in
theorem reachable_pushes (h : system.Reachable s) : s.Pushes := by
  refine System.invariant (I := State.Pushes) (fun s h0 => ?_) (fun s s' hr hi hs => ?_) h
  · rw [show s = .start from h0]
    exact Or.inl rfl
  have hgoto : ∀ (w : ι) (q : Phase), State.Pushes { s with wq := s.wq.goto (some w) q } :=
    fun w q => by
      unfold State.Pushes
      rwa [Wq.goto_of_ne s.wq q (by simp)]
  rcases hs with hs | hs
  · cases hs with
    | accept => exact hi
  · cases hs with
    | dispatch fd hm hidle => exact Or.inr (congrArg Phase.pops (Wq.callPush_self s.wq none fd))
    | inner t hs =>
      obtain ⟨nodes, hwq⟩ := Wq.exists_inv (reachable_wq hr)
      obtain ⟨nodes', hwq'⟩ := hwq.inner hs
      cases t with
      | none => exact hs.pushes hi
      | some w =>
        have he := hs.effect (hwq'.ne_crashed (some w))
        rcases he.other none (by simp) with hu | ⟨hu, -⟩
        · unfold State.Pushes
          rwa [hu]
        · exact absurd hi (by simp [State.Pushes, hu, Phase.pops])
    | spurious w hp => exact hgoto w _
    | callPop w hw hp => exact hgoto w _
    | popReturn w fd hp =>
      unfold State.Pushes
      rwa [Wq.popReturn_of_ne s.wq fd (by simp)]
    | call | handled | close => exact hi

/-- **What is stuck.** When nothing but a spurious wake-up can happen until the next connection,
the mutex is free, main is back in `serve_forever`, and all workers wait in `wq_pop`. -/
theorem blocked_of_stuck (hr : system.Reachable s) (hstuck : ∀ s', Work s s' → Spurious s s') :
    s.wq.owner = none ∧ s.main = none ∧ s.wq.phase none = .idle ∧
      ∀ w, s.worker w = .popping ∧ s.wq.phase (some w) = .popBlocked := by
  obtain ⟨place, hi⟩ := exists_inv hr
  obtain ⟨nodes, hwq⟩ := Wq.exists_inv (reachable_wq hr)
  have hno : ∀ {s'}, Work s s' → ¬ s'.rank < s.rank := fun hs hlt => by
    have := rank_of_spurious (hstuck _ hs)
    omega
  have hinner : ∀ t, ¬ ∃ wq, Wq.Inner s.wq t wq := fun t ⟨wq, hs⟩ =>
    hno (.inner t hs) (rank_lt_of_inner hr hs)
  have hfree : s.wq.owner = none := by
    by_contra hne
    obtain ⟨t, ht⟩ := Option.ne_none_iff_exists'.mp hne
    exact hinner t (Wq.exists_inner (reachable_wq hr) ((hwq.mutex t).mp ht))
  have hnot : ∀ t, (s.wq.phase t).holds = false := fun t => by
    rw [← Bool.not_eq_true, ← hwq.mutex, hfree]
    simp
  -- main is in `wq_push` or back from it
  have hidle : s.wq.phase none = .idle := by
    refine (reachable_pushes hr).resolve_right fun hpops => ?_
    refine hinner none (Wq.exists_inner_of_free hfree (hnot none) ?_ ?_ fun fd => ?_) <;>
      intro he <;> rw [he] at hpops <;> exact absurd hpops (by simp [Phase.pops])
  have hmain : s.main = none := by
    by_contra hne
    obtain ⟨fd, hm⟩ := Option.ne_none_iff_exists'.mp hne
    exact hno (.dispatch fd hm hidle) (rank_lt_of_dispatch hm hidle)
  refine ⟨hfree, hmain, hidle, fun w => ?_⟩
  have hw : s.worker w = .popping := by
    cases hw : s.worker w with
    | popping => rfl
    | call fd =>
      exact absurd (rank_lt_of_worker (by rw [hw]; exact Nat.lt_succ_self 2))
        (hno (.call w fd hw))
    | inHandler fd =>
      exact (hno (.handled w fd hw) (rank_lt_of_worker (by rw [hw]; exact Nat.one_lt_two))).elim
    | close fd =>
      exact absurd (rank_lt_of_worker (by rw [hw]; exact Nat.one_pos)) (hno (.close w fd hw))
  refine ⟨hw, ?_⟩
  by_contra hblocked
  refine hinner (some w) (Wq.exists_inner_of_free hfree (hnot _) (fun hp => ?_) hblocked
    fun fd hp => ?_)
  · exact hno (.callPop w hw hp) (rank_lt_of_callPop hp)
  · exact hno (.popReturn w fd hp) (rank_lt_of_popReturn hw hp)

/-- **The pool comes to rest.** A run is at most as long as a bound in the number of workers, of
connections and of spurious wake-ups. When nothing but a spurious wake-up can happen until the next
connection, every connection has been passed to `request_handler` exactly once and closed, the queue
is empty with all its items freed, and all workers wait in `wq_pop`. -/
theorem pool_rests [Nonempty ι] (h : Run k p s) :
    k ≤ 5 * (Fintype.card ι + 1) + (4 * Fintype.card ι + 21) * s.accepted + 5 * p ∧
      ((∀ s', Work s s' → Spurious s s') →
        (∀ c, c < s.accepted → handledCount s.log c = 1 ∧ ¬ s.Held c) ∧
          s.wq.queue = [] ∧ (∀ a, s.wq.heap a = none) ∧
          ∀ w, s.wq.phase (some w) = .popBlocked) := by
  refine ⟨le_trans (Nat.le_add_right _ _) h.length_add_rank_le, fun hstuck => ?_⟩
  have hr := h.reachable
  obtain ⟨hfree, hmain, hidle, hworkers⟩ := blocked_of_stuck hr hstuck
  obtain ⟨place, hi⟩ := exists_inv hr
  obtain ⟨nodes, hwq, howned⟩ := Wq.exists_owned (reachable_wq hr)
  have hphase : ∀ t, s.wq.phase t = .idle ∨ s.wq.phase t = .popBlocked := fun t => by
    cases t with
    | none => exact Or.inl hidle
    | some w => exact Or.inr (hworkers w).2
  -- a blocked worker means an empty queue
  have hnodes : nodes = [] := by
    obtain ⟨w⟩ := ‹Nonempty ι›
    have hsize : s.wq.size = 0 := by
      refine (hwq.blocked _ (hworkers w).2).resolve_right ?_
      rintro ⟨u, hu⟩
      rcases hphase u with hp | hp <;> exact absurd (hp.symm.trans hu) (by simp)
    exact (hi.size_eq_zero hwq).mp ((hwq.size_free hfree).symm.trans hsize)
  have hqueue : s.wq.queue = [] := by rw [hwq.queue_eq, hnodes]; rfl
  have hhas : s.has = fun _ => none := by
    funext t
    cases t with
    | none => simp [State.has, hmain, hidle, Phase.hand]
    | some w => simp [State.has, (hworkers w).1, (hworkers w).2, Worker.fd, Phase.hand]
  have hnone : ∀ fd, s.table fd = none := fun fd => by
    rw [hi.opened]
    by_contra hplace
    obtain ⟨x, hx⟩ := Option.ne_none_iff_exists'.mp hplace
    cases x with
    | queue => exact absurd ((hi.custody.mem_queue fd).mpr hx) (by simp [hqueue])
    | agent t => exact absurd ((hi.custody.agent_iff t fd).mpr hx) (by simp [hhas])
  have hheld : ∀ c, ¬ s.Held c := fun c => by
    rintro ⟨fd, hfd⟩
    rw [hnone fd] at hfd
    exact absurd hfd (by simp)
  refine ⟨fun c hc => ⟨hi.ledger.gone c hc fun fd hfd => hheld c ⟨fd, hfd⟩, hheld c⟩, hqueue,
    fun a => ?_, fun w => (hworkers w).2⟩
  by_contra ha
  rcases howned a (Option.isSome_iff_ne_none.mpr ha) with hmem | ⟨t, ht⟩
  · rw [hnodes] at hmem
    exact absurd hmem (by simp)
  · rcases hphase t with hp | hp <;> rw [hp] at ht <;> exact absurd ht (by simp [Phase.item])

omit [Fintype ι] in
/-- Conversely, blocked workers stay blocked until the next connection. -/
theorem stuck_of_blocked (hmain : s.main = none) (hidle : s.wq.phase none = .idle)
    (hworkers : ∀ w, s.worker w = .popping ∧ s.wq.phase (some w) = .popBlocked) :
    ∀ s', Work s s' → Spurious s s' := by
  intro s' hs
  cases hs with
  | spurious w hp => exact ⟨w, hp, rfl⟩
  | dispatch fd hm _ => exact absurd (hmain.symm.trans hm) (by simp)
  | inner t h =>
    have hp : s.wq.phase t = .idle ∨ s.wq.phase t = .popBlocked := by
      cases t with
      | none => exact Or.inl hidle
      | some w => exact Or.inr (hworkers w).2
    rcases hp with hp | hp
    · exact absurd hp h.busy.1
    · exact absurd hp h.busy.2
  | callPop w _ hp => exact absurd ((hworkers w).2.symm.trans hp) (by simp)
  | popReturn w fd hp => exact absurd ((hworkers w).2.symm.trans hp) (by simp)
  | call w fd hw => exact absurd ((hworkers w).1.symm.trans hw) (by simp)
  | handled w fd hw => exact absurd ((hworkers w).1.symm.trans hw) (by simp)
  | close w fd hw => exact absurd ((hworkers w).1.symm.trans hw) (by simp)

/-- A worker handles one connection and waits for the next. -/
theorem pool_rests_one : ∃ s : State Unit, s.accepted = 1 ∧ 25 ≤ 5 * (1 + 1) + (4 * 1 + 21) * 1 ∧
    handledCount s.log 0 = 1 ∧ ¬ s.Held 0 ∧ ∀ a, s.wq.heap a = none := by
  have step : ∀ {k : Nat} {s s' : State Unit}, Run k 0 s → Work s s' →
      s.wq.phase (some ()) ≠ .popBlocked → Run (k + 1) 0 s' := fun h hs hp =>
    h.work hs fun ⟨_, hw, _⟩ => hp hw
  have h₀ : Run 0 0 (State.start : State Unit) := .start
  have h₁ := h₀.accept (.accept 4 rfl rfl rfl (by decide))
  have h₂ := step h₁ (.dispatch 4 rfl rfl) (by decide)
  have h₃ := step h₂ (.inner none (.pushLock 4 rfl rfl)) (by decide)
  have h₄ := step h₃ (.inner none (.pushCalloc 4 8 rfl rfl)) (by decide)
  have h₅ := step h₄ (.inner none (.pushSet 8 4 rfl)) (by decide)
  have h₆ := step h₅ (.inner none (.pushAppend 8 4 rfl)) (by decide)
  have h₇ := step h₆ (.inner none (.pushSize rfl)) (by decide)
  have h₈ := step h₇ (.inner none (.pushBroadcast rfl)) (by decide)
  have h₉ := step h₈ (.inner none (.pushUnlock rfl)) (by decide)
  have h₁₀ := step h₉ (.callPop () rfl rfl) (by decide)
  have h₁₁ := step h₁₀ (.inner (some ()) (.popLock (Or.inl rfl) rfl)) (by decide)
  have h₁₂ := step h₁₁ (.inner (some ()) (.popTest rfl)) (by decide)
  have h₁₃ := step h₁₂ (.inner (some ()) (.popHead rfl)) (by decide)
  have h₁₄ := step h₁₃ (.inner (some ()) (.popSize 8 4 rfl)) (by decide)
  have h₁₅ := step h₁₄ (.inner (some ()) (.popDelete 8 4 rfl)) (by decide)
  have h₁₆ := step h₁₅ (.inner (some ()) (.popUnlock 8 4 rfl)) (by decide)
  have h₁₇ := step h₁₆ (.inner (some ()) (.popFree 8 4 rfl)) (by decide)
  have h₁₈ := step h₁₇ (.popReturn () 4 rfl) (by decide)
  have h₁₉ := step h₁₈ (.call () 4 rfl) (by decide)
  have h₂₀ := step h₁₉ (.handled () 4 rfl) (by decide)
  have h₂₁ := step h₂₀ (.close () 4 rfl) (by decide)
  have h₂₂ := step h₂₁ (.callPop () rfl rfl) (by decide)
  have h₂₃ := step h₂₂ (.inner (some ()) (.popLock (Or.inl rfl) rfl)) (by decide)
  have h₂₄ := step h₂₃ (.inner (some ()) (.popTest rfl)) (by decide)
  have h₂₅ := step h₂₄ (.inner (some ()) (.popWait rfl)) (by decide)
  obtain ⟨hle, hrest⟩ := pool_rests h₂₅
  obtain ⟨hall, -, hheap, -⟩ := hrest (stuck_of_blocked rfl rfl fun _ => ⟨rfl, rfl⟩)
  exact ⟨_, rfl, hle, (hall 0 Nat.one_pos).1, (hall 0 Nat.one_pos).2, hheap⟩

end Pool

end SystemProgramming.HttpServer
