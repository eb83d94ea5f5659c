import SystemProgramming.HttpServer.WorkQueue

/-!
# The histories of the work queue

What the statements of `wq_pop` and `wq_push` do with descriptors, and what the two histories of
the queue say about the calls: a descriptor is appended once for every call of `wq_push`, and what
`wq_pop` returns is what its thread has taken from the list.

* `Effect` says what a statement does with the descriptors, and `Inner.effect` that every statement
  does so.
* `Recorded` says that the two histories are the threads' calls, up to what a call has in hand.
* `workQueue_fifo`: the queue is a blocking first-in first-out queue whenever the mutex is free.
-/

namespace SystemProgramming.HttpServer.Wq

open Lib

namespace Phase

/-- The descriptor that the thread's `wq_push` has not appended to the list yet. -/
def argument : Phase → Option Int
  | pushLock fd | pushCalloc fd | pushSet _ fd | pushAppend _ fd => some fd
  | _ => none

/-- The descriptor that the thread's `wq_pop` has taken from the list and not returned yet. -/
def result : Phase → Option Int
  | popUnlock _ fd | popFree _ fd | popReturn fd => some fd
  | _ => none

/-- The descriptor that the thread has and the queue has not. -/
def hand : Phase → Option Int
  | pushLock fd | pushCalloc fd | pushSet _ fd | pushAppend _ fd => some fd
  | popUnlock _ fd | popFree _ fd | popReturn fd => some fd
  | _ => none

theorem hand_eq (p : Phase) : p.hand = p.argument.or p.result := by
  cases p <;> rfl

/-- The thread is in `wq_pop`, or outside. -/
def pops : Phase → Bool
  | idle | popLock | popTest | popWait | popBlocked | popWoken | popHead => true
  | popSize _ _ | popDelete _ _ | popUnlock _ _ | popFree _ _ | popReturn _ => true
  | _ => false

end Phase

variable {κ : Type} {s s' : State κ} {t u : κ}

/-! ## What is in the queue -/

/-- What is in the queue. -/
def State.queue (s : State κ) : List Int := (s.pushed.drop s.popped.length).map Prod.snd

theorem Inv.queue_eq {nodes : List (Addr × Int)} (h : Inv s nodes) :
    s.queue = nodes.map Prod.snd := by
  unfold State.queue
  rw [List.map_drop, ← h.history, ← List.length_map (f := Prod.snd), List.drop_left]

theorem Inv.queue_append {nodes : List (Addr × Int)} {fd : Int} (h : Inv s nodes)
    (hpushed : s'.pushed = s.pushed ++ [(t, fd)]) (hpopped : s'.popped = s.popped) :
    s'.queue = s.queue ++ [fd] := by
  have hle : s.popped.length ≤ s.pushed.length := by
    have := congrArg List.length h.history
    simp only [List.length_append, List.length_map] at this
    omega
  unfold State.queue
  rw [hpushed, hpopped, List.drop_append_of_le_length hle, List.map_append]
  rfl

theorem Inv.queue_take {nodes : List (Addr × Int)} {fd : Int} (h : Inv s' nodes)
    (hpushed : s'.pushed = s.pushed) (hpopped : s'.popped = s.popped ++ [(t, fd)]) :
    s.queue = fd :: s'.queue := by
  have hhistory := h.history
  rw [hpushed, hpopped, List.map_append, List.append_assoc] at hhistory
  rw [h.queue_eq]
  unfold State.queue
  rw [List.map_drop, ← hhistory, ← List.length_map (f := Prod.snd), List.drop_left]
  rfl

/-! ## What a statement does -/

/-- The descriptors of thread `t` and of the queue before and after a statement. -/
inductive Moves (s s' : State κ) (t : κ) : Prop
  | silent (hargument : (s'.phase t).argument = (s.phase t).argument)
      (hresult : (s'.phase t).result = (s.phase t).result) (hpushed : s'.pushed = s.pushed)
      (hpopped : s'.popped = s.popped)
  | append (fd : Int) (hargument : (s.phase t).argument = some fd)
      (hargument' : (s'.phase t).argument = none)
      (hresult : (s.phase t).result = none ∧ (s'.phase t).result = none)
      (hpushed : s'.pushed = s.pushed ++ [(t, fd)]) (hpopped : s'.popped = s.popped)
  | take (fd : Int) (hargument : (s.phase t).argument = none ∧ (s'.phase t).argument = none)
      (hresult : (s.phase t).result = none) (hresult' : (s'.phase t).result = some fd)
      (hpushed : s'.pushed = s.pushed) (hpopped : s'.popped = s.popped ++ [(t, fd)])

/-- **What a statement of thread `t` does** with the descriptors and with the other threads. -/
structure Effect (s s' : State κ) (t : κ) : Prop where
  busy : s.phase t ≠ .idle
  pops : (s.phase t).pops = true → (s'.phase t).pops = true
  other : ∀ u, u ≠ t → s'.phase u = s.phase u ∨
    (s.phase u = .popBlocked ∧ s'.phase u = .popWoken)
  called : s'.called = s.called
  returned : s'.returned = s.returned
  moves : Moves s s' t

/-- A broadcast leaves the descriptors of the other threads where they are. -/
theorem Effect.other_hand (h : Effect s s' t) (hu : u ≠ t) :
    (s'.phase u).argument = (s.phase u).argument ∧ (s'.phase u).result = (s.phase u).result := by
  rcases h.other u hu with hr | ⟨hr, hr'⟩
  · rw [hr]
    exact ⟨rfl, rfl⟩
  · rw [hr, hr']
    exact ⟨rfl, rfl⟩

variable [DecidableEq κ]

theorem goto_self (s : State κ) (t : κ) (q : Phase) : (s.goto t q).phase t = q :=
  Function.update_self ..

theorem goto_of_ne (s : State κ) {t u : κ} (q : Phase) (h : u ≠ t) :
    (s.goto t q).phase u = s.phase u := Function.update_of_ne h ..

theorem callPush_self (s : State κ) (t : κ) (fd : Int) :
    (s.callPush t fd).phase t = .pushLock fd := Function.update_self ..

theorem callPush_of_ne (s : State κ) {t u : κ} (fd : Int) (h : u ≠ t) :
    (s.callPush t fd).phase u = s.phase u := Function.update_of_ne h ..

theorem popReturn_self (s : State κ) (t : κ) (fd : Int) : (s.popReturn t fd).phase t = .idle :=
  Function.update_self ..

theorem popReturn_of_ne (s : State κ) {t u : κ} (fd : Int) (h : u ≠ t) :
    (s.popReturn t fd).phase u = s.phase u := Function.update_of_ne h ..

/-- Statements are for threads that neither wait nor are at their caller. -/
theorem Inner.busy (h : Inner s t s') : s.phase t ≠ .idle ∧ s.phase t ≠ .popBlocked := by
  cases h with
  | popLock hp _ => rcases hp with hp | hp <;> simp [hp]
  | _ => simp [‹s.phase t = _›]

/-- Every statement takes its thread to another one. -/
theorem Inner.phase_ne (h : Inner s t s') : s'.phase t ≠ s.phase t := by
  have hgoto : ∀ {q : Phase}, q ≠ s.phase t → (s.goto t q).phase t ≠ s.phase t := fun hq => by
    rw [goto_self]
    exact hq
  cases h with
  | popLock hp _ => exact hgoto (by rcases hp with hp | hp <;> simp [hp])
  | popTest hp => exact hgoto (by rw [hp]; split_ifs <;> simp)
  | popHead hp => exact hgoto (by rw [hp]; split <;> simp)
  | popDelete a fd hp => split <;> exact hgoto (by simp [hp])
  | pushSet a fd hp => split <;> exact hgoto (by simp [hp])
  | pushAppend a fd hp => split <;> exact hgoto (by simp [hp])
  | pushBroadcast hp => simp [broadcast_self, hp]
  | _ => exact hgoto (by simp [‹s.phase t = _›])

/-- A thread moves on, and the histories and calls stay what they are. -/
theorem effect_goto {q : Phase} (hphase : s'.phase = (s.goto t q).phase)
    (hcalls : (s'.pushed, s'.popped, s'.called, s'.returned) =
      (s.pushed, s.popped, s.called, s.returned)) (hbusy : s.phase t ≠ .idle)
    (hpops : (s.phase t).pops = true → q.pops = true)
    (hhand : q.argument = (s.phase t).argument ∧ q.result = (s.phase t).result) :
    Effect s s' t := by
  simp only [Prod.mk.injEq] at hcalls
  obtain ⟨hpushed, hpopped, hcalled, hreturned⟩ := hcalls
  refine ⟨hbusy, fun h => ?_, fun u hu => Or.inl ?_, hcalled, hreturned, .silent ?_ ?_ hpushed
    hpopped⟩
  · rw [hphase, goto_self]
    exact hpops h
  · rw [hphase, goto_of_ne s q hu]
  · rw [hphase, goto_self, hhand.1]
  · rw [hphase, goto_self, hhand.2]

/-- **The effect of every statement** that does not follow a bad pointer. -/
theorem Inner.effect (h : Inner s t s') (hcrash : s'.phase t ≠ .crashed) : Effect s s' t := by
  cases h with
  | popLock hp hf =>
    rcases hp with hp | hp
    · exact effect_goto (q := .popTest) rfl rfl (by simp [hp]) (fun _ => rfl)
        (by rw [hp]; exact ⟨rfl, rfl⟩)
    · exact effect_goto (q := .popTest) rfl rfl (by simp [hp]) (fun _ => rfl)
        (by rw [hp]; exact ⟨rfl, rfl⟩)
  | popTest hp =>
    refine effect_goto rfl rfl (by simp [hp]) (fun _ => ?_) ?_
    · split_ifs <;> rfl
    · rw [hp]
      split_ifs <;> exact ⟨rfl, rfl⟩
  | popWait hp =>
    exact effect_goto (q := .popBlocked) rfl rfl (by simp [hp]) (fun _ => rfl)
      (by rw [hp]; exact ⟨rfl, rfl⟩)
  | popHead hp =>
    rw [goto_self] at hcrash
    generalize s.readHead = r at hcrash
    cases r with
    | none => exact absurd rfl hcrash
    | some p =>
      exact effect_goto rfl rfl (by simp [hp]) (fun _ => rfl) (by rw [hp]; exact ⟨rfl, rfl⟩)
  | popSize a fd hp =>
    exact effect_goto (q := .popDelete a fd) rfl rfl (by simp [hp]) (fun _ => rfl)
      (by rw [hp]; exact ⟨rfl, rfl⟩)
  | popDelete a fd hp =>
    generalize dlDelete s.heap s.head id = r at hcrash
    cases r with
    | none => exact absurd (goto_self s t _) hcrash
    | some p =>
      have hself := goto_self s t (.popUnlock a fd)
      exact ⟨by simp [hp], fun _ => congrArg Phase.pops hself,
        fun u hu => Or.inl (goto_of_ne s _ hu), rfl, rfl,
        .take fd ⟨by rw [hp]; rfl, congrArg Phase.argument hself⟩ (by rw [hp]; rfl)
          (congrArg Phase.result hself) rfl rfl⟩
  | popUnlock a fd hp =>
    exact effect_goto (q := .popFree a fd) rfl rfl (by simp [hp]) (fun _ => rfl)
      (by rw [hp]; exact ⟨rfl, rfl⟩)
  | popFree a fd hp =>
    exact effect_goto (q := .popReturn fd) rfl rfl (by simp [hp]) (fun _ => rfl)
      (by rw [hp]; exact ⟨rfl, rfl⟩)
  | pushLock fd hp hf =>
    exact effect_goto (q := .pushCalloc fd) rfl rfl (by simp [hp]) (by simp [hp, Phase.pops])
      (by rw [hp]; exact ⟨rfl, rfl⟩)
  | pushCalloc fd a hp hfree =>
    exact effect_goto (q := .pushSet a fd) rfl rfl (by simp [hp]) (by simp [hp, Phase.pops])
      (by rw [hp]; exact ⟨rfl, rfl⟩)
  | pushSet a fd hp =>
    generalize s.heap.modify (some a) (fun n => { n with payload := fd }) = r at hcrash
    cases r with
    | none => exact absurd (goto_self s t _) hcrash
    | some heap =>
      exact effect_goto (q := .pushAppend a fd) rfl rfl (by simp [hp]) (by simp [hp, Phase.pops])
        (by rw [hp]; exact ⟨rfl, rfl⟩)
  | pushAppend a fd hp =>
    generalize dlAppend s.heap s.head a = r at hcrash
    cases r with
    | none => exact absurd (goto_self s t _) hcrash
    | some p =>
      have hself := goto_self s t .pushSize
      exact ⟨by simp [hp], by simp [hp, Phase.pops], fun u hu => Or.inl (goto_of_ne s _ hu),
        rfl, rfl, .append fd (by rw [hp]; rfl) (congrArg Phase.argument hself)
          ⟨by rw [hp]; rfl, congrArg Phase.result hself⟩ rfl rfl⟩
  | pushSize hp =>
    exact effect_goto (q := .pushBroadcast) rfl rfl (by simp [hp]) (by simp [hp, Phase.pops])
      (by rw [hp]; exact ⟨rfl, rfl⟩)
  | pushBroadcast hp =>
    refine ⟨by simp [hp], by simp [hp, Phase.pops], fun u hu => ?_, rfl, rfl, .silent ?_ ?_ rfl rfl⟩
    · exact (broadcast_of_ne s hu).elim (fun hr => Or.inr ⟨hr.2, hr.1⟩) fun hr => Or.inl hr.1
    · rw [broadcast_self, hp]
      rfl
    · rw [broadcast_self, hp]
      rfl
  | pushUnlock hp =>
    exact effect_goto (q := .idle) rfl rfl (by simp [hp]) (fun _ => rfl)
      (by rw [hp]; exact ⟨rfl, rfl⟩)

/-! ## The histories are the calls -/

/-- **The histories are the threads' calls.** What a thread has passed to `wq_push` is what it has
appended and what its call has in hand. What it has taken from the list is what `wq_pop` has
returned to it and what its call has in hand. -/
structure Recorded (s : State κ) : Prop where
  calls : ∀ t, s.called t = callsOf t s.pushed ++ (s.phase t).argument.toList
  results : ∀ t, callsOf t s.popped = s.returned t ++ (s.phase t).result.toList

namespace Recorded

theorem start : Recorded (State.start : State κ) := ⟨fun _ => rfl, fun _ => rfl⟩

/-- **Every statement** that does not follow a bad pointer. -/
theorem inner (h : Recorded s) (hs : Inner s t s') (hcrash : s'.phase t ≠ .crashed) :
    Recorded s' := by
  have he := hs.effect hcrash
  constructor
  case calls =>
    intro u
    rw [he.called, h.calls u]
    by_cases hut : u = t
    · subst hut
      cases he.moves with
      | silent hargument _ hpushed _ => rw [hargument, hpushed]
      | append fd hargument hargument' _ hpushed _ =>
        rw [hargument, hargument', hpushed, callsOf_snoc, if_pos rfl]
        exact (List.append_nil _).symm
      | take fd hargument _ _ hpushed _ => rw [hargument.1, hargument.2, hpushed]
    · rw [(he.other_hand hut).1]
      cases he.moves with
      | silent _ _ hpushed _ => rw [hpushed]
      | append fd _ _ _ hpushed _ =>
        rw [hpushed, callsOf_snoc, if_neg (Ne.symm hut), List.append_nil]
      | take fd _ _ _ hpushed _ => rw [hpushed]
  case results =>
    intro u
    rw [he.returned]
    have hold := h.results u
    by_cases hut : u = t
    · subst hut
      cases he.moves with
      | silent _ hresult _ hpopped => rw [hresult, hpopped, hold]
      | append fd _ _ hresult _ hpopped => rw [hresult.2, hpopped, hold, hresult.1]
      | take fd _ hresult hresult' _ hpopped =>
        rw [hresult', hpopped, callsOf_snoc, if_pos rfl, hold, hresult]
        exact congrArg (· ++ [fd]) (List.append_nil _)
    · rw [(he.other_hand hut).2]
      cases he.moves with
      | silent _ _ _ hpopped => rw [hpopped, hold]
      | append fd _ _ _ _ hpopped => rw [hpopped, hold]
      | take fd _ _ _ _ hpopped =>
        rw [hpopped, callsOf_snoc, if_neg (Ne.symm hut), List.append_nil, hold]

/-- A thread moves on, and its `wq_push` keeps what it has in hand. -/
theorem goto_calls (h : Recorded s) {q : Phase} (hq : q.argument = (s.phase t).argument) (u : κ) :
    s.called u = callsOf u s.pushed ++ ((s.goto t q).phase u).argument.toList := by
  by_cases hut : u = t
  · rw [hut, goto_self, hq]
    exact h.calls t
  · rw [goto_of_ne s q hut]
    exact h.calls u

/-- A thread moves on, and its `wq_pop` keeps what it has in hand. -/
theorem goto_results (h : Recorded s) {q : Phase} (hq : q.result = (s.phase t).result) (u : κ) :
    callsOf u s.popped = s.returned u ++ ((s.goto t q).phase u).result.toList := by
  by_cases hut : u = t
  · rw [hut, goto_self, hq]
    exact h.results t
  · rw [goto_of_ne s q hut]
    exact h.results u

/-- A call of `wq_push` has its argument in hand. -/
theorem callPush (h : Recorded s) (hp : s.phase t = .idle) (fd : Int) :
    Recorded (s.callPush t fd) where
  calls := fun u => by
    have hold := h.calls u
    change Function.update s.called t (s.called t ++ [fd]) u =
      callsOf u s.pushed ++ ((s.goto t (.pushLock fd)).phase u).argument.toList
    by_cases hut : u = t
    · subst hut
      rw [Function.update_self, goto_self, hold, hp]
      exact congrArg (· ++ [fd]) (List.append_nil _)
    · rw [Function.update_of_ne hut, goto_of_ne s _ hut, hold]
  results := h.goto_results (by rw [hp]; rfl)

/-- `wq_pop` returns what it has in hand. -/
theorem popReturn (h : Recorded s) {fd : Int} (hp : s.phase t = .popReturn fd) :
    Recorded (s.popReturn t fd) where
  calls := h.goto_calls (by rw [hp]; rfl)
  results := fun u => by
    have hold := h.results u
    change callsOf u s.popped = Function.update s.returned t (s.returned t ++ [fd]) u ++
      ((s.goto t .idle).phase u).result.toList
    by_cases hut : u = t
    · subst hut
      rw [Function.update_self, goto_self, hold, hp]
      exact (List.append_nil _).symm
    · rw [Function.update_of_ne hut, goto_of_ne s _ hut, hold]

/-- **Every step** keeps the histories the threads' calls. -/
theorem step {nodes : List (Addr × Int)} (h : Recorded s) (hi' : Inv s' nodes) (hs : Step s s') :
    Recorded s' := by
  cases hs with
  | callPop t hp =>
    exact ⟨h.goto_calls (by rw [hp]; rfl), h.goto_results (by rw [hp]; rfl)⟩
  | callPush t fd hp => exact h.callPush hp fd
  | inner t hs => exact h.inner hs (hi'.ne_crashed t)
  | popReturn t fd hp => exact h.popReturn hp
  | spurious t hp =>
    exact ⟨h.goto_calls (by rw [hp]; rfl), h.goto_results (by rw [hp]; rfl)⟩

end Recorded

/-! ## Every reachable state -/

theorem reachable_recorded (h : system.Reachable s) : Recorded s := by
  refine System.invariant (I := Recorded) (fun s h0 => ?_) (fun s s' hr hi hs => ?_) h
  · rw [show s = .start from h0]
    exact .start
  · obtain ⟨nodes, hi'⟩ := exists_inv (hr.step hs)
    exact hi.step hi' hs

/-- **The work queue is a blocking first-in first-out queue.** Whenever the mutex is free, `head`
starts a list that ends in `NULL` and whose `prev` pointers are right, and `size` is the number of
its nodes, which it can hold up to `INT_MAX`. What has been taken and what is in the list is what
has been appended, in order. A thread's calls of `wq_push` are its entries among what has been
appended, and the one that still waits for the mutex. What `wq_pop` has returned to it are its
entries among what has been taken, but for the call that is about to return. A thread is blocked
only if the queue is empty. -/
theorem workQueue_fifo (h : system.Reachable s) (hfree : s.owner = none) :
    ∃ nodes : List (Addr × Int), IsDll s.heap s.head nodes ∧
      s.size = toCInt nodes.length ∧ (nodes.length ≤ cIntMax → s.size = nodes.length) ∧
      s.popped.map Prod.snd ++ nodes.map Prod.snd = s.pushed.map Prod.snd ∧
      (∀ t, s.called t = callsOf t s.pushed ++ (s.phase t).argument.toList) ∧
      (∀ t, callsOf t s.popped = s.returned t ++ (s.phase t).result.toList) ∧
      ((∃ t, s.phase t = .popBlocked) → s.size = 0) := by
  obtain ⟨nodes, hi⟩ := exists_inv h
  have hsize := hi.size_free hfree
  have hrecorded := reachable_recorded h
  refine ⟨nodes, hi.list, hsize, fun hle => hsize.trans (toCInt_of_le hle), hi.history,
    hrecorded.calls, hrecorded.results, ?_⟩
  rintro ⟨t, ht⟩
  refine (hi.blocked t ht).resolve_right ?_
  rintro ⟨u, hu⟩
  have := (hi.mutex u).mpr (by rw [hu]; rfl)
  rw [hfree] at this
  exact absurd this (by simp)

/-- Thread `true` waits in `wq_pop`, thread `false` pushes 7 and 8, and `true` gets 7. -/
theorem exists_popped : ∃ s : State Bool, system.Reachable s ∧ s.owner = none ∧
    s.pushed = [(false, 7), (false, 8)] ∧ s.popped = [(true, 7)] ∧
    s.phase false = .idle ∧ s.phase true = .idle := by
  have step : ∀ {s s' : State Bool}, system.Reachable s → Step s s' → system.Reachable s' :=
    fun h hs => h.step hs
  have h₀ : (system : System (State Bool)).Reachable .start := .start rfl
  have h₁ := step h₀ (.callPop true rfl)
  have h₂ := step h₁ (.inner true (.popLock (Or.inl rfl) rfl))
  have h₃ := step h₂ (.inner true (.popTest rfl))
  have h₄ := step h₃ (.inner true (.popWait rfl))
  have h₅ := step h₄ (.callPush false 7 rfl)
  have h₆ := step h₅ (.inner false (.pushLock 7 rfl rfl))
  have h₇ := step h₆ (.inner false (.pushCalloc 7 5 rfl rfl))
  have h₈ := step h₇ (.inner false (.pushSet 5 7 rfl))
  have h₉ := step h₈ (.inner false (.pushAppend 5 7 rfl))
  have h₁₀ := step h₉ (.inner false (.pushSize rfl))
  have h₁₁ := step h₁₀ (.inner false (.pushBroadcast rfl))
  have h₁₂ := step h₁₁ (.inner false (.pushUnlock rfl))
  have h₁₃ := step h₁₂ (.callPush false 8 rfl)
  have h₁₄ := step h₁₃ (.inner false (.pushLock 8 rfl rfl))
  have h₁₅ := step h₁₄ (.inner false (.pushCalloc 8 6 rfl rfl))
  have h₁₆ := step h₁₅ (.inner false (.pushSet 6 8 rfl))
  have h₁₇ := step h₁₆ (.inner false (.pushAppend 6 8 rfl))
  have h₁₈ := step h₁₇ (.inner false (.pushSize rfl))
  have h₁₉ := step h₁₈ (.inner false (.pushBroadcast rfl))
  have h₂₀ := step h₁₉ (.inner false (.pushUnlock rfl))
  have h₂₁ := step h₂₀ (.inner true (.popLock (Or.inr rfl) rfl))
  have h₂₂ := step h₂₁ (.inner true (.popTest rfl))
  have h₂₃ := step h₂₂ (.inner true (.popHead rfl))
  have h₂₄ := step h₂₃ (.inner true (.popSize 5 7 rfl))
  have h₂₅ := step h₂₄ (.inner true (.popDelete 5 7 rfl))
  have h₂₆ := step h₂₅ (.inner true (.popUnlock 5 7 rfl))
  have h₂₇ := step h₂₆ (.inner true (.popFree 5 7 rfl))
  exact ⟨_, step h₂₇ (.popReturn true 7 rfl), rfl, rfl, rfl, rfl, rfl⟩

/-- The queue after these calls: 8 is left, and 7 has been returned. -/
theorem workQueue_fifo_popped : ∃ s : State Bool, s.called false = [7, 8] ∧
    s.returned true = [7] ∧ s.size = 1 ∧
    ∃ nodes : List (Addr × Int), IsDll s.heap s.head nodes ∧ nodes.map Prod.snd = [8] := by
  obtain ⟨s, h, hfree, hpushed, hpopped, hfalse, htrue⟩ := exists_popped
  obtain ⟨nodes, hlist, -, hsize, hhistory, hcalls, hresults, -⟩ := workQueue_fifo h hfree
  rw [hpushed, hpopped] at hhistory
  have hnodes : nodes.map Prod.snd = [8] := (List.cons.inj hhistory).2
  have hlength : nodes.length = 1 := by
    rw [← List.length_map (f := Prod.snd), hnodes]
    rfl
  have hcalled := hcalls false
  have hreturned := hresults true
  rw [hpushed, hfalse] at hcalled
  rw [hpopped, htrue] at hreturned
  refine ⟨s, hcalled, ?_, ?_, nodes, hlist, hnodes⟩
  · exact ((List.append_nil _).symm.trans hreturned.symm).trans rfl
  · rw [hsize (by rw [hlength]; decide), hlength]
    rfl

end SystemProgramming.HttpServer.Wq
