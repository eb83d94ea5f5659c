import Mathlib.Algebra.GroupWithZero.Nat
import SystemProgramming.Lib.Monitor.Invariant
import SystemProgramming.Words.Main

/-!
# The `pwords` program

`main` and `thread_count_words` of `pwords.c` over the list of `word_count_p.c`: main opens the
files and creates a thread for each, joins them, and prints the sorted list. `add_word` is a monitor
procedure without condition variables. Every thread reads its own file. `step` is the executable
semantics, and the scheduler picks any enabled action. `pthread_create` is taken to succeed.

* `next_of_step`: what a step can do, one constructor per kind (`Next`).
* `reachable_mon`: the program is a run of the open monitor of `add_word`.
* `program_terminates`: every run ends.
-/

namespace SystemProgramming.Words.Pwords

open Lib Lib.Monitor

/-! ## The shared list -/

/-- `add_word` of `word_count_p.c`. The pointer it returns is only compared with `NULL`. -/
def addWord (word : Str) : Proc Empty (List WordCount) Unit where
  waits := fun _ => false
  retry := .spin
  body := fun wclist => ((), Locked.addWord wclist word)
  notify := none

/-- The open monitor of `add_word` on the list that `init_words` makes. -/
abbrev wordList (ι : Type) [DecidableEq ι] : System (State ι Str (List WordCount) Unit) :=
  system addWord (fun _ _ => False) []

/-- The words added so far, in order. -/
def added {ι : Type} (log : List (ι × Str × Unit)) : List Str := log.map fun e => e.2.1

/-- **The list is what adding the words of the log one after the other makes.** -/
theorem shared_eq {ι : Type} [DecidableEq ι] {s : State ι Str (List WordCount) Unit}
    (h : (wordList ι).Reachable s) : s.shared = (added s.log).foldl Locked.addWord [] := by
  have A : Outline addWord (fun _ _ => False) []
      (fun (log : List (ι × Str × Unit)) x => x = (added log).foldl Locked.addWord [])
      (fun _ _ => True) (fun _ _ => True) := by
    refine ⟨rfl, fun _ _ _ _ _ => trivial, fun _ _ _ _ _ => trivial, ?_, ?_, ?_, ?_⟩
    · intro log t word x hx _
      rw [added, List.map_append, List.foldl_append, hx]
      rfl
    · exact fun _ _ _ _ he => he.elim
    · exact fun _ _ _ he => he.elim
    · exact fun _ _ _ he => he.elim
  exact (A.holds h).data

/-! ## States -/

/-- A file on the command line: its name, and its contents if `fopen` succeeds. -/
structure Arg where
  name : Str
  contents : Option Stream

/-- The arguments of a call with `argc > 1`. -/
structure CommandLine where
  args : List Arg
  args_ne : args ≠ []

variable (cl : CommandLine)

/-- A counting thread. -/
abbrev Thread := Fin cl.args.length

/-- Where a thread stands in `count_words` between its calls of `add_word`. -/
inductive Reader where
  /-- Not created. -/
  | absent
  /-- At the call of `get_word`, with this to be read. -/
  | counting (infile : Stream)
  /-- After `pthread_exit`. -/
  | ended
  deriving DecidableEq

/-- Where main stands. -/
inductive Main where
  /-- About to open `argv[i + 1]` and create `threads[i]`. -/
  | create (i : Nat)
  /-- About to join `threads[i]`. -/
  | join (i : Nat)
  /-- About to sort and print. -/
  | output
  | exited (exit : Exit)
  deriving DecidableEq

/-- The state of the program: the list with the threads' calls of `add_word`, where every thread
stands in `count_words`, and main. -/
structure Run where
  mon : State (Thread cl) Str (List WordCount) Unit
  reader : Thread cl → Reader
  main : Main

variable {cl}

/-- The implementation that `pwords` is compiled with. -/
def pwords : WordCountImpl := ⟨Locked.addWord, Locked.wordcountSort⟩

/-! ## Steps -/

/-- A step of a counting thread. -/
def workerStep (s : Run cl) (t : Thread cl) : Option (Run cl) :=
  match s.mon.phase t with
  | .idle =>
    match s.reader t with
    | .counting infile =>
      (getWord infile).map fun r =>
        if r.1 = [] then { s with reader := Function.update s.reader t .ended }
        else if r.1.length = 1 then { s with reader := Function.update s.reader t (.counting r.2) }
        else { s with
          mon := s.mon.goto t (.lock r.1)
          reader := Function.update s.reader t (.counting r.2) }
    | _ => none
  | .returned _ _ => some { s with mon := s.mon.goto t .idle }
  | _ => (Monitor.step addWord s.mon t none).map fun m => { s with mon := m }

/-- A step of main. A file that cannot be opened ends the process with status -1. -/
def mainStep (s : Run cl) : Option (Run cl) :=
  match s.main with
  | .create i =>
    if h : i < cl.args.length then
      match cl.args[i].contents with
      | some f =>
        some { s with
          reader := Function.update s.reader ⟨i, h⟩ (.counting f)
          main := .create (i + 1) }
      | none =>
        some { s with
          main := .exited ⟨255, bytes "ERROR; cannot open file " ++ cl.args[i].name ++ [10]⟩ }
    else some { s with main := .join 0 }
  | .join i =>
    if h : i < cl.args.length then
      if s.reader ⟨i, h⟩ = .ended then some { s with main := .join (i + 1) } else none
    else some { s with main := .output }
  | .output => (output pwords s.mon.shared).map fun text => { s with main := .exited ⟨0, text⟩ }
  | .exited _ => none

/-- What the scheduler picks. -/
inductive Action (cl : CommandLine) where
  | worker (t : Thread cl)
  | main

/-- **The program**, executable. When main has exited nothing runs any more. -/
def step (s : Run cl) (a : Action cl) : Option (Run cl) :=
  match s.main, a with
  | .exited _, _ => none
  | _, .worker t => workerStep s t
  | _, .main => mainStep s

/-- `main` is called. -/
def Run.start (cl : CommandLine) : Run cl where
  mon := .start []
  reader := fun _ => .absent
  main := .create 0

/-- The runs of the program. -/
def program (cl : CommandLine) : System (Run cl) where
  init := fun s => s = .start cl
  next := fun s s' => ∃ a, step s a = some s'

/-! ## What a step can do -/

/-- **What a step can do**, one constructor per kind of step. -/
inductive Next (s : Run cl) : Run cl → Prop
  | move (t : Thread cl) (m : State (Thread cl) Str (List WordCount) Unit)
      (hm : Move addWord s.mon t m) : Next s { s with mon := m }
  | finish (t : Thread cl) (infile rest : Stream) (hp : s.mon.phase t = .idle)
      (hr : s.reader t = .counting infile) (hw : getWord infile = some ([], rest)) :
      Next s { s with reader := Function.update s.reader t .ended }
  | letter (t : Thread cl) (infile rest : Stream) (word : Str) (hp : s.mon.phase t = .idle)
      (hr : s.reader t = .counting infile) (hw : getWord infile = some (word, rest))
      (h1 : word.length = 1) :
      Next s { s with reader := Function.update s.reader t (.counting rest) }
  | call (t : Thread cl) (infile rest : Stream) (word : Str) (hp : s.mon.phase t = .idle)
      (hr : s.reader t = .counting infile) (hw : getWord infile = some (word, rest))
      (hne : word ≠ []) (h1 : word.length ≠ 1) :
      Next s { s with
        mon := s.mon.goto t (.lock word)
        reader := Function.update s.reader t (.counting rest) }
  | collect (t : Thread cl) (word : Str) (r : Unit) (hp : s.mon.phase t = .returned word r) :
      Next s { s with mon := s.mon.goto t .idle }
  | create (i : Nat) (h : i < cl.args.length) (f : Stream) (hm : s.main = .create i)
      (hf : cl.args[i].contents = some f) :
      Next s { s with
        reader := Function.update s.reader ⟨i, h⟩ (.counting f), main := .create (i + 1) }
  | fail (i : Nat) (h : i < cl.args.length) (exit : Exit) (hm : s.main = .create i)
      (hf : cl.args[i].contents = none) : Next s { s with main := .exited exit }
  | created (i : Nat) (hm : s.main = .create i) (hi : cl.args.length ≤ i) :
      Next s { s with main := .join 0 }
  | join (i : Nat) (h : i < cl.args.length) (hm : s.main = .join i)
      (hr : s.reader ⟨i, h⟩ = .ended) : Next s { s with main := .join (i + 1) }
  | joined (i : Nat) (hm : s.main = .join i) (hi : cl.args.length ≤ i) :
      Next s { s with main := .output }
  | print (text : Str) (hm : s.main = .output) (ho : output pwords s.mon.shared = some text) :
      Next s { s with main := .exited ⟨0, text⟩ }

theorem next_of_workerStep {s s' : Run cl} {t : Thread cl} (h : workerStep s t = some s') :
    Next s s' := by
  unfold workerStep at h
  split at h
  · rename_i hp
    split at h
    · rename_i infile hr
      obtain ⟨⟨word, rest⟩, hw, h⟩ := Option.map_eq_some_iff.mp h
      simp only at h
      split_ifs at h with hnil h1
      · subst hnil h
        exact .finish t infile rest hp hr hw
      · subst h
        exact .letter t infile rest word hp hr hw h1
      · subst h
        exact .call t infile rest word hp hr hw hnil h1
    · exact absurd h (by simp)
  · rename_i word r hp
    obtain rfl := Option.some.inj h
    exact .collect t word r hp
  · obtain ⟨m, hm, rfl⟩ := Option.map_eq_some_iff.mp h
    exact .move t m ((step_iff _).mp ⟨none, hm⟩)

theorem next_of_mainStep {s s' : Run cl} (h : mainStep s = some s') : Next s s' := by
  unfold mainStep at h
  split at h
  · rename_i i hm
    split_ifs at h with hi
    · split at h
      · rename_i f hf
        obtain rfl := Option.some.inj h
        exact .create i hi f hm hf
      · rename_i hf
        obtain rfl := Option.some.inj h
        exact .fail i hi _ hm hf
    · obtain rfl := Option.some.inj h
      exact .created i hm (by omega)
  · rename_i i hm
    split_ifs at h with hi hr
    · obtain rfl := Option.some.inj h
      exact .join i hi hm hr
    · obtain rfl := Option.some.inj h
      exact .joined i hm (by omega)
  · rename_i hm
    obtain ⟨text, ho, rfl⟩ := Option.map_eq_some_iff.mp h
    exact .print text hm ho
  · exact absurd h (by simp)

theorem step_live {s : Run cl} (h : ∀ exit, s.main ≠ .exited exit) (a : Action cl) :
    step s a = match a with
      | .worker t => workerStep s t
      | .main => mainStep s := by
  unfold step
  split
  next hm => exact absurd hm (h _)
  all_goals rfl

theorem next_of_step {s s' : Run cl} {a : Action cl} (h : step s a = some s') :
    (∀ exit, s.main ≠ .exited exit) ∧ Next s s' := by
  have hlive : ∀ exit, s.main ≠ .exited exit := fun exit hm => by
    simp [step, hm] at h
  rw [step_live hlive] at h
  cases a with
  | worker t => exact ⟨hlive, next_of_workerStep h⟩
  | main => exact ⟨hlive, next_of_mainStep h⟩

/-- The invariant rule on the steps of `Next`. -/
theorem program_invariant {I : Run cl → Prop} (h0 : I (.start cl))
    (hs : ∀ s s', (program cl).Reachable s → I s → (∀ exit, s.main ≠ .exited exit) → Next s s' →
      I s') {s : Run cl} (h : (program cl).Reachable s) : I s := by
  refine System.invariant (fun s hi => hi ▸ h0) (fun s s' hr hi hn => ?_) h
  obtain ⟨a, ha⟩ := hn
  exact hs s s' hr hi (next_of_step ha).1 (next_of_step ha).2

/-- **Every run of the program is a run of the open monitor.** -/
theorem reachable_mon {s : Run cl} (h : (program cl).Reachable s) :
    (wordList (Thread cl)).Reachable s.mon := by
  refine System.simulation (T := wordList (Thread cl)) Run.mon (fun s hs => ?_)
    (fun s s' _ hs => ?_) h
  · subst hs
    rfl
  · obtain ⟨a, ha⟩ := hs
    cases (next_of_step ha).2 with
    | move t m hm => exact Or.inr (.move t m hm)
    | call t infile rest word hp hr hw hne h1 => exact Or.inr (.call t word hp)
    | collect t word r hp => exact Or.inr (.collect t word r hp)
    | _ => exact Or.inl rfl

/-! ## Termination -/

/-- How many steps a call of `add_word` still takes at most. -/
def phaseRank : Phase Str Unit → Nat
  | .idle => 0
  | .returned _ _ => 1
  | .release _ _ => 2
  | .notify _ _ => 3
  | .body _ => 4
  | .test _ => 5
  | .lock _ | .woken _ => 6
  | .retry _ | .blocked _ => 7
  | .wait _ => 8
  | .passOn _ => 9

/-- A move of `add_word` lowers the rank of its thread and leaves the others. -/
theorem move_rank {m m' : State (Thread cl) Str (List WordCount) Unit} {t : Thread cl}
    (h : Move addWord m t m') :
    phaseRank (m'.phase t) < phaseRank (m.phase t) ∧ ∀ u, u ≠ t → m'.phase u = m.phase u := by
  have hgoto : ∀ {p : Phase Str Unit}, phaseRank p < phaseRank (m.phase t) →
      phaseRank ((m.goto t p).phase t) < phaseRank (m.phase t) ∧
        ∀ u, u ≠ t → (m.goto t p).phase u = m.phase u := fun hp =>
    ⟨by rwa [goto_phase_self], fun u hu => goto_phase_of_ne m _ hu⟩
  cases h with
  | acquire o hp hf =>
    refine hgoto ?_
    rcases hp with hp | hp <;> rw [hp] <;> exact Nat.lt_succ_self _
  | proceed o hp hw => exact hgoto (by rw [hp]; exact Nat.lt_succ_self _)
  | stop o hp hw => exact absurd hw (by simp [addWord])
  | passOn o c d s₁ hp hr hs => exact c.elim
  | wait o hp => exact hgoto (by rw [hp]; exact Nat.lt_succ_self _)
  | spin o hp => exact hgoto (by rw [hp]; exact Nat.lt_succ_self _)
  | body o hp => exact hgoto (by rw [hp]; simp [Proc.after, addWord, phaseRank])
  | notify o r c s₁ hp hn hs => exact c.elim
  | release o r hp => exact hgoto (by rw [hp]; exact Nat.lt_succ_self _)

/-- How many steps a thread takes at most apart from the call it is in. -/
def readerRank : Reader → Nat
  | .absent | .ended => 0
  | .counting infile => 7 * infile.length + 7

/-- How many steps the thread of a file takes at most, and main to create it. -/
def argRank (a : Arg) : Nat := 7 * (a.contents.getD []).length + 8

/-- How many steps main takes at most, with those of the threads it has still to create. -/
def mainRank (cl : CommandLine) : Main → Nat
  | .create i => ((cl.args.drop i).map argRank).sum + (cl.args.length + 3)
  | .join i => (cl.args.length - i) + 2
  | .output => 1
  | .exited _ => 0

/-- A bound for the steps a thread has left. -/
def threadRank (s : Run cl) (t : Thread cl) : Nat :=
  readerRank (s.reader t) + phaseRank (s.mon.phase t)

/-- A bound for the steps left. -/
def rank (s : Run cl) : Nat := ∑ t, threadRank s t + mainRank cl s.main

/-- A step of one thread lowers the bound. -/
theorem rank_lt_of_thread {s s' : Run cl} (t : Thread cl) (hm : s'.main = s.main)
    (ht : threadRank s' t < threadRank s t)
    (hu : ∀ u, u ≠ t → s'.reader u = s.reader u ∧ s'.mon.phase u = s.mon.phase u) :
    rank s' < rank s := by
  have hsum := sum_change (f := threadRank s) (g := threadRank s') (t := t) fun u hut => by
    unfold threadRank
    rw [(hu u hut).1, (hu u hut).2]
  unfold rank
  rw [hm]
  omega

/-- A step of main alone. -/
theorem rank_lt_of_main {s : Run cl} {m : Main} (h : mainRank cl m < mainRank cl s.main) :
    rank { s with main := m } < rank s := Nat.add_lt_add_left h _

theorem next_rank {s s' : Run cl} (h : Next s s') : rank s' < rank s := by
  cases h with
  | move t m hm =>
    exact rank_lt_of_thread t rfl (Nat.add_lt_add_left (move_rank hm).1 _)
      fun u hu => ⟨rfl, (move_rank hm).2 u hu⟩
  | finish t infile rest hp hr hw =>
    refine rank_lt_of_thread t rfl ?_ fun u hu => ⟨Function.update_of_ne hu .., rfl⟩
    simp [threadRank, hr, readerRank]
  | letter t infile rest word hp hr hw h1 =>
    have := length_getWord hw (by rintro rfl; exact absurd h1 (by decide))
    refine rank_lt_of_thread t rfl ?_ fun u hu => ⟨Function.update_of_ne hu .., rfl⟩
    simp only [threadRank, hr, readerRank, Function.update_self]
    omega
  | call t infile rest word hp hr hw hne h1 =>
    have := length_getWord hw hne
    refine rank_lt_of_thread t rfl ?_
      fun u hu => ⟨Function.update_of_ne hu .., goto_phase_of_ne _ _ hu⟩
    simp only [threadRank, hr, hp, readerRank, Function.update_self, goto_phase_self, phaseRank]
    omega
  | collect t word r hp =>
    refine rank_lt_of_thread t rfl ?_ fun u hu => ⟨rfl, goto_phase_of_ne _ _ hu⟩
    simp [threadRank, hp, phaseRank]
  | create i hi f hm hf =>
    -- the thread's steps are no longer main's
    have hsum := sum_change (f := threadRank s) (g := threadRank { s with
        reader := Function.update s.reader ⟨i, hi⟩ (.counting f), main := .create (i + 1) })
      (t := ⟨i, hi⟩) fun u hu => by
        unfold threadRank
        simp only [Function.update_of_ne hu]
    have hnew : threadRank { s with
        reader := Function.update s.reader ⟨i, hi⟩ (.counting f), main := .create (i + 1) }
        ⟨i, hi⟩ = 7 * f.length + 7 + phaseRank (s.mon.phase ⟨i, hi⟩) := by
      simp [threadRank, readerRank]
    have hold : phaseRank (s.mon.phase ⟨i, hi⟩) ≤ threadRank s ⟨i, hi⟩ := Nat.le_add_left ..
    have harg : argRank cl.args[i] = 7 * f.length + 8 := by simp [argRank, hf]
    unfold rank
    rw [hm, mainRank, mainRank, List.drop_eq_getElem_cons hi, List.map_cons, List.sum_cons, harg]
    omega
  | fail i hi exit hm hf =>
    refine rank_lt_of_main ?_
    rw [hm, mainRank, mainRank]
    omega
  | created i hm hi =>
    refine rank_lt_of_main ?_
    rw [hm, mainRank, mainRank]
    omega
  | join i hi hm hr =>
    refine rank_lt_of_main ?_
    rw [hm, mainRank, mainRank]
    omega
  | joined i hm hi =>
    refine rank_lt_of_main ?_
    rw [hm, mainRank, mainRank]
    omega
  | print text hm ho =>
    refine rank_lt_of_main ?_
    rw [hm, mainRank, mainRank]
    omega

/-- **Every run ends.** -/
theorem program_terminates (cl : CommandLine) :
    WellFounded fun s' s : Run cl => (program cl).next s s' :=
  System.wellFounded_of_rank rank fun _ _ ⟨_, ha⟩ => next_rank (next_of_step ha).2

end SystemProgramming.Words.Pwords
