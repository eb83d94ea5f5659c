import Mathlib.Data.Fintype.Sum
import SystemProgramming.Lib.Bytes
import SystemProgramming.Lib.CInt
import SystemProgramming.Lib.Cursor
import SystemProgramming.Spooler.Wakeups

/-!
# The spooler program

`run_threads` of `Spooler/main.c` with `producer` (`producer.c`) and `consumer` (`consumer.c`) on
one spool: main creates the threads, joins the producers, calls `spool_shutdown` and joins the
consumers. `step` is the executable semantics. An action is a step of a worker thread, a spurious
wake-up, or a step of main, and the scheduler picks any enabled one. `pthread_create` is taken to
succeed. All files are taken to be compiled with the one define of the build, which the `Makefile`
gives to `spooler.c` only. The build `PART2` has no shutdown, so there main joins the consumers at
once.

* `next_of_step`: what a step can do, one constructor per kind (`Next`).
* `reachable_mon`: the program is a run of the open spooler system, so everything proved there
  holds here.
* `prodString_injective`: the producers' strings are pairwise different.
-/

namespace SystemProgramming.Spooler

open Lib Lib.Monitor

/-- The build and the command line: `n_proids`, `n_cons`, `n_strings` and the buffer's entries. -/
structure Config where
  build : Build
  nprods : Nat
  ncons : Nat
  nstrs : Nat
  bufsize : Nat
  bufsize_pos : 1 ≤ bufsize
  nthreads_le : nprods + ncons ≤ cIntMax
  nstrs_le : nstrs ≤ cIntMax

variable (cfg : Config)

/-- A worker thread: a producer or a consumer. -/
abbrev Thread := Fin cfg.nprods ⊕ Fin cfg.ncons

/-- The index of a thread in `threads`. -/
def tid : Thread cfg → Nat
  | .inl p => p
  | .inr c => c + cfg.nprods

/-! ## The producers' strings -/

/-- What `producer` inserts as its `n`-th string: `snprintf` of `"Prod %d String %d"` into 100
bytes, copied. -/
def prodString (prodId n : Nat) : Str :=
  (bytes "Prod " ++ decimal prodId ++ bytes " String " ++ decimal n).take 99

/-- Numbers of at most 10 digits fit the buffer. -/
theorem prodString_eq {p n : Nat} (hp : p ≤ cIntMax) (hn : n ≤ cIntMax) :
    prodString p n = bytes "Prod " ++ decimal p ++ bytes " String " ++ decimal n := by
  unfold cIntMax at hp hn
  have h1 : (decimal p).length ≤ 10 := (length_decimal_le_iff (by omega)).mpr (by omega)
  have h2 : (decimal n).length ≤ 10 := (length_decimal_le_iff (by omega)).mpr (by omega)
  refine List.take_of_length_le ?_
  have h3 : (bytes "Prod ").length = 5 := by decide
  have h4 : (bytes " String ").length = 8 := by decide
  simp only [List.length_append, h3, h4]
  omega

/-- **The strings of the producers are pairwise different.** -/
theorem prodString_injective {p n q m : Nat} (hp : p ≤ cIntMax) (hn : n ≤ cIntMax)
    (hq : q ≤ cIntMax) (hm : m ≤ cIntMax) (h : prodString p n = prodString q m) :
    p = q ∧ n = m := by
  rw [prodString_eq hp hn, prodString_eq hq hm] at h
  simp only [List.append_assoc] at h
  have hs : bytes " String " = 32 :: bytes "String " := by decide
  rw [hs, List.cons_append] at h
  obtain ⟨hpq, hnm⟩ := append_cons_inj (p := isdigit) (fun _ => isdigit_of_mem_decimal)
    (fun _ => isdigit_of_mem_decimal) (by decide) (by decide) (List.append_cancel_left h)
  exact ⟨decimal_injective hpq,
    decimal_injective (List.append_cancel_left (List.cons.inj hnm).2)⟩

/-! ## States -/

/-- Where a consumer stands between its calls of `spool_remove`. -/
inductive Consumer where
  /-- At the call in the loop condition. -/
  | calling
  /-- In the loop body with the string it got. -/
  | printing (str : Str)
  /-- Back from `consumer`. -/
  | returned
  deriving DecidableEq

/-- The loop condition of `consumer`, on the pointer returned. -/
def Consumer.got : Ret Str → Consumer
  | .ptr (some str) => .printing str
  | _ => .returned

/-- Where main stands in `run_threads`. -/
inductive Main where
  /-- About to create `threads[i]`. -/
  | create (i : Nat)
  /-- About to join the producer `threads[i]`. -/
  | joinProds (i : Nat)
  /-- About to call `spool_shutdown`. -/
  | shutdown
  /-- In `spool_shutdown_efficient`, with the flag set. -/
  | broadcast
  /-- Back from `spool_shutdown`, about to join `threads[i]`. -/
  | joinCons (i : Nat)
  | returned
  deriving DecidableEq

/-- `threads[i]` has been created. -/
def Main.created (i : Nat) : Main → Bool
  | .create j => i < j
  | _ => true

/-- `spool_shutdown` has been called. -/
def Main.shutdownCalled : Main → Bool
  | .create _ | .joinProds _ | .shutdown => false
  | .broadcast | .joinCons _ | .returned => true

/-- `spool_shutdown` has returned. -/
def Main.shutdownReturned : Main → Bool
  | .create _ | .joinProds _ | .shutdown | .broadcast => false
  | .joinCons _ | .returned => true

/-- The state of the program: the spooler with its threads, the loop variable `n` of each
producer, where each consumer and main stand, and what the consumers have printed: the arguments
of the calls `printf("C%d: %s\n", con_id, str)`, in order. -/
structure Run where
  mon : State (Thread cfg) (Op Str) (Spool Str) (Ret Str)
  sent : Fin cfg.nprods → Nat
  con : Fin cfg.ncons → Consumer
  main : Main
  stdout : List (Fin cfg.ncons × Str)

variable {cfg}

/-- The function of thread `t` has returned. -/
def Run.terminated (s : Run cfg) : Thread cfg → Bool
  | .inl p => s.mon.phase (.inl p) = .idle ∧ cfg.nstrs ≤ s.sent p
  | .inr c => s.con c = .returned

/-! ## Steps -/

/-- A step of a worker thread. `w` chooses the thread that a signal wakes up. -/
def workerStep (s : Run cfg) (t : Thread cfg) (w : Option (Thread cfg)) : Option (Run cfg) :=
  match s.mon.phase t with
  | .idle =>
    if s.main.created (tid cfg t) then
      match t with
      | .inl p =>
        if s.sent p < cfg.nstrs then
          some { s with mon := s.mon.goto (.inl p) (.lock (.insert (prodString p (s.sent p)))) }
        else none
      | .inr c =>
        match s.con c with
        | .calling => some { s with mon := s.mon.goto (.inr c) (.lock .remove) }
        | .printing str =>
          some { s with
            con := Function.update s.con c .calling
            stdout := s.stdout ++ [(c, str)] }
        | .returned => none
    else none
  | .returned _ r =>
    match t with
    | .inl p =>
      some { s with
        mon := s.mon.goto (.inl p) .idle
        sent := Function.update s.sent p (s.sent p + 1) }
    | .inr c =>
      some { s with
        mon := s.mon.goto (.inr c) .idle
        con := Function.update s.con c (.got r) }
  | _ => (Monitor.step (code cfg.build) s.mon t w).map fun m => { s with mon := m }

/-- A step of main. -/
def mainStep (s : Run cfg) : Option (Run cfg) :=
  match s.main with
  | .create i =>
    if i < cfg.nprods + cfg.ncons then some { s with main := .create (i + 1) }
    else some { s with main := .joinProds 0 }
  | .joinProds i =>
    if i < cfg.nprods then
      if ∀ t, tid cfg t = i → s.terminated t = true then some { s with main := .joinProds (i + 1) }
      else none
    else some { s with main := .shutdown }
  | .shutdown =>
    if cfg.build = .part2 then some { s with main := .joinCons cfg.nprods }
    else some { s with
      mon := { s.mon with shared := { s.mon.shared with shutdown := true } }
      main := .broadcast }
  | .broadcast =>
    some { s with
      mon := s.mon.wakeAll (code cfg.build) .conCv
      main := .joinCons cfg.nprods }
  | .joinCons i =>
    if i < cfg.nprods + cfg.ncons then
      if ∀ t, tid cfg t = i → s.terminated t = true then some { s with main := .joinCons (i + 1) }
      else none
    else some { s with main := .returned }
  | .returned => none

/-- What the scheduler picks. -/
inductive Action (cfg : Config) where
  | worker (t : Thread cfg) (w : Option (Thread cfg))
  | spurious (t : Thread cfg)
  | main

/-- **The program**, executable. -/
def step (s : Run cfg) : Action cfg → Option (Run cfg)
  | .worker t w => workerStep s t w
  | .spurious t =>
    match s.mon.phase t with
    | .blocked o => some { s with mon := s.mon.goto t (.woken o) }
    | _ => none
  | .main => mainStep s

/-- `run_threads` is called. `mem` is what the block for `elements` holds. -/
def Run.start (cfg : Config) (mem : Nat → Ptr Str) : Run cfg where
  mon := .start (spoolInitShared mem cfg.bufsize)
  sent := fun _ => 0
  con := fun _ => .calling
  main := .create 0
  stdout := []

/-- The runs of the program. -/
def program (cfg : Config) (mem : Nat → Ptr Str) : System (Run cfg) where
  init := fun s => s = .start cfg mem
  next := fun s s' => ∃ a, step s a = some s'

/-- The schedule `as` from `s`, executable, as long as every step satisfies `P`. -/
def runFrom (P : Run cfg → Run cfg → Prop) [DecidableRel P] (s : Run cfg) :
    List (Action cfg) → Option (Run cfg)
  | [] => some s
  | a :: as => (step s a).bind fun s' => if P s s' then runFrom P s' as else none

theorem reachable_runFrom {mem : Nat → Ptr Str} {P : Run cfg → Run cfg → Prop} [DecidableRel P] :
    ∀ {as : List (Action cfg)} {s s' : Run cfg}, ((program cfg mem).restrict P).Reachable s →
      runFrom P s as = some s' → ((program cfg mem).restrict P).Reachable s'
  | [], _, _, h, hr => Option.some.inj hr ▸ h
  | a :: as, s, s', h, hr => by
    obtain ⟨s₁, h1, h2⟩ := Option.bind_eq_some_iff.mp hr
    split_ifs at h2 with hP
    exact reachable_runFrom (h.step ⟨⟨a, h1⟩, hP⟩) h2

/-- A state found by running a schedule is reachable. -/
theorem reachable_of_any (mem : Nat → Ptr Str) (P : Run cfg → Run cfg → Prop) [DecidableRel P]
    (as : List (Action cfg)) {p : Run cfg → Bool}
    (h : (runFrom P (.start cfg mem) as).any p = true) :
    ∃ s, ((program cfg mem).restrict P).Reachable s ∧ p s = true := by
  cases hs : runFrom P (.start cfg mem) as with
  | none => rw [hs] at h; exact absurd h (by simp)
  | some s => exact ⟨s, reachable_runFrom (.start rfl) hs, by rwa [hs] at h⟩

/-- Every step. -/
abbrev AnyStep (cfg : Config) (_ _ : Run cfg) : Prop := True

/-- One producer of one string and one consumer on a spool of two slots. -/
def onePair (b : Build) : Config where
  build := b
  nprods := 1
  ncons := 1
  nstrs := 1
  bufsize := 2
  bufsize_pos := by decide
  nthreads_le := by decide
  nstrs_le := by decide

/-- The two workers of `onePair`. -/
abbrev theProducer (b : Build) : Fin (onePair b).nprods := ⟨0, Nat.one_pos⟩

abbrev theConsumer (b : Build) : Fin (onePair b).ncons := ⟨0, Nat.one_pos⟩

/-- `k` steps of one thread in which no signal finds anybody. -/
def steps {b : Build} (k : Nat) (t : Thread (onePair b)) : List (Action (onePair b)) :=
  List.replicate k (.worker t none)

/-- `k` steps of main. -/
def mainSteps {b : Build} (k : Nat) : List (Action (onePair b)) := List.replicate k .main

/-! ## What a step can do -/

/-- **What a step can do**, one constructor per kind of step. -/
inductive Next (s : Run cfg) : Run cfg → Prop
  | move (t : Thread cfg) (m : State (Thread cfg) (Op Str) (Spool Str) (Ret Str))
      (hm : Move (code cfg.build) s.mon t m) : Next s { s with mon := m }
  | spurious (t : Thread cfg) (o : Op Str) (hp : s.mon.phase t = .blocked o) :
      Next s { s with mon := s.mon.goto t (.woken o) }
  | insert (p : Fin cfg.nprods) (hp : s.mon.phase (.inl p) = .idle) (hn : s.sent p < cfg.nstrs) :
      Next s { s with mon := s.mon.goto (.inl p) (.lock (.insert (prodString p (s.sent p)))) }
  | inserted (p : Fin cfg.nprods) (o : Op Str) (r : Ret Str)
      (hp : s.mon.phase (.inl p) = .returned o r) :
      Next s { s with
        mon := s.mon.goto (.inl p) .idle
        sent := Function.update s.sent p (s.sent p + 1) }
  | remove (c : Fin cfg.ncons) (hp : s.mon.phase (.inr c) = .idle) (hc : s.con c = .calling) :
      Next s { s with mon := s.mon.goto (.inr c) (.lock .remove) }
  | removed (c : Fin cfg.ncons) (o : Op Str) (r : Ret Str)
      (hp : s.mon.phase (.inr c) = .returned o r) :
      Next s { s with
        mon := s.mon.goto (.inr c) .idle
        con := Function.update s.con c (.got r) }
  | print (c : Fin cfg.ncons) (str : Str) (hp : s.mon.phase (.inr c) = .idle)
      (hc : s.con c = .printing str) :
      Next s { s with
        con := Function.update s.con c .calling
        stdout := s.stdout ++ [(c, str)] }
  | create (i j : Nat) (m : Main) (hm : s.main = .create i)
      (hm' : m = .create j ∨ m = .joinProds 0) : Next s { s with main := m }
  | joinProd (i : Nat) (hm : s.main = .joinProds i)
      (hj : ∀ t, tid cfg t = i → s.terminated t = true) :
      Next s { s with main := .joinProds (i + 1) }
  | joinedProds (i : Nat) (hm : s.main = .joinProds i) (hi : cfg.nprods ≤ i) :
      Next s { s with main := .shutdown }
  | joinCon (i j : Nat) (m : Main) (hm : s.main = .joinCons i)
      (hm' : m = .joinCons j ∨ m = .returned) : Next s { s with main := m }
  | skip (hb : cfg.build = .part2) (hm : s.main = .shutdown) :
      Next s { s with main := .joinCons cfg.nprods }
  | shutdown (hb : cfg.build ≠ .part2) (hm : s.main = .shutdown) :
      Next s { s with
        mon := { s.mon with shared := { s.mon.shared with shutdown := true } }
        main := .broadcast }
  | broadcast (hm : s.main = .broadcast) :
      Next s { s with
        mon := s.mon.wakeAll (code cfg.build) .conCv
        main := .joinCons cfg.nprods }

theorem next_of_workerStep {s s' : Run cfg} {t : Thread cfg} {w : Option (Thread cfg)}
    (h : workerStep s t w = some s') : Next s s' := by
  unfold workerStep at h
  split at h
  · rename_i hp
    split_ifs at h
    cases t with
    | inl p =>
      simp only at h
      split_ifs at h with hn
      obtain rfl := Option.some.inj h
      exact .insert p hp hn
    | inr c =>
      simp only at h
      split at h
      · rename_i hc
        obtain rfl := Option.some.inj h
        exact .remove c hp hc
      · rename_i str hc
        obtain rfl := Option.some.inj h
        exact .print c str hp hc
      · exact absurd h (by simp)
  · rename_i o r hp
    cases t with
    | inl p =>
      obtain rfl := Option.some.inj h
      exact .inserted p o r hp
    | inr c =>
      obtain rfl := Option.some.inj h
      exact .removed c o r hp
  · obtain ⟨m, hm, rfl⟩ := Option.map_eq_some_iff.mp h
    exact .move t m ((step_iff _).mp ⟨w, hm⟩)

theorem next_of_mainStep {s s' : Run cfg} (h : mainStep s = some s') : Next s s' := by
  unfold mainStep at h
  split at h
  · rename_i i hm
    split_ifs at h <;> obtain rfl := Option.some.inj h
    · exact .create i (i + 1) _ hm (Or.inl rfl)
    · exact .create i 0 _ hm (Or.inr rfl)
  · rename_i i hm
    split_ifs at h with hi hj <;> obtain rfl := Option.some.inj h
    · exact .joinProd i hm hj
    · exact .joinedProds i hm (by omega)
  · rename_i hm
    split_ifs at h with hb <;> obtain rfl := Option.some.inj h
    · exact .skip hb hm
    · exact .shutdown hb hm
  · rename_i hm
    obtain rfl := Option.some.inj h
    exact .broadcast hm
  · rename_i i hm
    split_ifs at h <;> obtain rfl := Option.some.inj h
    · exact .joinCon i (i + 1) _ hm (Or.inl rfl)
    · exact .joinCon i 0 _ hm (Or.inr rfl)
  · exact absurd h (by simp)

theorem next_of_step {s s' : Run cfg} {a : Action cfg} (h : step s a = some s') : Next s s' := by
  cases a with
  | worker t w => exact next_of_workerStep h
  | spurious t =>
    simp only [step] at h
    split at h
    · rename_i o hp
      obtain rfl := Option.some.inj h
      exact .spurious t o hp
    · exact absurd h (by simp)
  | main => exact next_of_mainStep h

variable {mem : Nat → Ptr Str}

/-- The invariant rule of the program. -/
theorem program_invariant {I : Run cfg → Prop} (h0 : I (.start cfg mem))
    (hs : ∀ s s', (program cfg mem).Reachable s → I s → Next s s' → I s') {s : Run cfg}
    (h : (program cfg mem).Reachable s) : I s := by
  refine System.invariant (I := I) (fun s hi => ?_) (fun s s' hr hi hn => ?_) h
  · rw [hi]
    exact h0
  · obtain ⟨a, ha⟩ := hn
    exact hs s s' hr hi (next_of_step ha)

/-! ## The program runs the open spooler -/

/-- A step of the program is a step of the spooler, or leaves it alone. -/
theorem next_mon {s s' : Run cfg} (h : Next s s') :
    s'.mon = s.mon ∨ Step (code cfg.build) shutdownWrites s.mon s'.mon := by
  cases h with
  | move t m hm => exact Or.inr (.move t m hm)
  | spurious t o hp => exact Or.inr (.spurious t o hp)
  | insert p hp hn => exact Or.inr (.call _ _ hp)
  | inserted p o r hp => exact Or.inr (.collect _ o r hp)
  | remove c hp hc => exact Or.inr (.call _ _ hp)
  | removed c o r hp => exact Or.inr (.collect _ o r hp)
  | print | create | joinProd | joinedProds | joinCon | skip => exact Or.inl rfl
  | shutdown hb hm => exact Or.inr (.write _ rfl)
  | broadcast hm => exact Or.inr (.broadcast Cv.conCv)

/-- **Every run of the program is a run of the open spooler.** -/
theorem reachable_mon {s : Run cfg} (h : (program cfg mem).Reachable s) :
    (spooler cfg.build (Thread cfg) mem cfg.bufsize).Reachable s.mon := by
  refine System.simulation (T := spooler cfg.build (Thread cfg) mem cfg.bufsize) Run.mon
    (fun s hs => ?_) (fun s s' _ hs => ?_) h
  · subst hs
    rfl
  · obtain ⟨a, ha⟩ := hs
    exact next_mon (next_of_step ha)

end SystemProgramming.Spooler
