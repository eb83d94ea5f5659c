import SystemProgramming.Lib.Monitor.Refinement
import SystemProgramming.Words.InMemory
import SystemProgramming.Words.Schedule

/-!
# `pwords` in memory

The program of `pwords.c` on the elements in memory of `word_count_p.c`: the shared value is what
the memory holds, and `none` if a pointer that leads nowhere has been followed. `malloc i` is the
address of the element if the call number `i` of `add_word` makes one. A loop over the list makes
at most two rounds more than there have been calls of `add_word`, which is enough for it to end.
The body of `add_word` under the lock is one step, and counts are taken to fit an `int`.

* `stepAt_over`, `stepAt_of_over`: the program takes the steps of the program on entries, and
  those only.
* `pwords_in_memory`: so in every run the list stays well formed, and the output is that of `words`.
-/

namespace SystemProgramming.Words.Pwords

open Lib Lib.Monitor

/-! ## The program -/

section Program

variable (malloc : Nat → Addr) (wclist : PintosList)

/-- `add_word` of `word_count_p.c`. What it does to the list is what `add_word` of `word_count_l.c`
does. -/
def addWordAt (word : Str) : Proc Empty (Option Pintos.State) Unit where
  waits := fun _ => false
  retry := .spin
  body := fun memory =>
    ((), memory.bind fun s => (Pintos.memoryImpl malloc wclist).addWord (s.calls + 2) s word)
  notify := none

variable {cl : CommandLine}

/-- The state of the program: what the memory holds, with the threads' calls of `add_word`, where
every thread stands in `count_words`, and main. -/
structure MemoryRun (cl : CommandLine) where
  mon : State (Thread cl) Str (Option Pintos.State) Unit
  reader : Thread cl → Reader
  main : Main

/-- A step of a counting thread. -/
def workerStepAt (s : MemoryRun cl) (t : Thread cl) : Option (MemoryRun cl) :=
  match s.mon.phase t with
  | .idle =>
    match s.reader t with
    | .counting infile =>
      (getWord infile).map fun r =>
        if r.1 = [] then { s with reader := Function.update s.reader t .ended }
        else if r.1.length = 1 then { s with reader := Function.update s.reader t (.counting r.2) }
        else { s with
          mon := s.mon.goto t (.lock r.1)
          reader := Function.update s.reader t (.counting r.2) }
    | _ => none
  | .returned _ _ => some { s with mon := s.mon.goto t .idle }
  | _ => (Monitor.step (addWordAt malloc wclist) s.mon t none).map fun m => { s with mon := m }

/-- A step of main. -/
def mainStepAt (s : MemoryRun cl) : Option (MemoryRun cl) :=
  match s.main with
  | .create i =>
    if h : i < cl.args.length then
      match cl.args[i].contents with
      | some f =>
        some { s with
          reader := Function.update s.reader ⟨i, h⟩ (.counting f)
          main := .create (i + 1) }
      | none =>
        some { s with
          main := .exited ⟨255, bytes "ERROR; cannot open file " ++ cl.args[i].name ++ [10]⟩ }
    else some { s with main := .join 0 }
  | .join i =>
    if h : i < cl.args.length then
      if s.reader ⟨i, h⟩ = .ended then some { s with main := .join (i + 1) } else none
    else some { s with main := .output }
  | .output =>
    (s.mon.shared.bind fun m => (Pintos.memoryImpl malloc wclist).output (m.calls + 2) m).map
      fun text => { s with main := .exited ⟨0, text⟩ }
  | .exited _ => none

/-- **The program**, executable. -/
def stepAt (s : MemoryRun cl) (a : Action cl) : Option (MemoryRun cl) :=
  match s.main, a with
  | .exited _, _ => none
  | _, .worker t => workerStepAt malloc wclist s t
  | _, .main => mainStepAt malloc wclist s

/-- `main` is called, and has called `init_words`. -/
def MemoryRun.start (cl : CommandLine) (heap : Heap WordCount) : MemoryRun cl where
  mon := .start ((Pintos.memoryImpl malloc wclist).initWords ⟨heap, 0⟩)
  reader := fun _ => .absent
  main := .create 0

/-- The runs of the program. -/
def programAt (cl : CommandLine) (heap : Heap WordCount) : System (MemoryRun cl) where
  init := fun s => s = .start malloc wclist cl heap
  next := fun s s' => ∃ a, stepAt malloc wclist s a = some s'

/-! ## The entries -/

/-- **The memory holds a list of these entries**, and the addresses that `malloc` still hands out
are free. -/
def Holds (memory : Option Pintos.State) (l : List WordCount) : Prop :=
  ∃ s nodes, memory = some s ∧ Pintos.Counting malloc wclist (s.calls + 2) 1 s nodes ∧
    nodes.map Prod.snd = l

end Program

/-- The state of the program on entries. -/
def MemoryRun.over {cl : CommandLine} (s : MemoryRun cl) (l : List WordCount) : Run cl :=
  ⟨s.mon.withShared l, s.reader, s.main⟩

variable {malloc : Nat → Addr} {wclist : PintosList} {cl : CommandLine} {s s' : MemoryRun cl}
  {l : List WordCount}

/-- **`add_word` in memory** is `add_word` on the entries that it holds. -/
theorem addWordAt_over (hinj : Function.Injective malloc) (word : Str) :
    ProcOver (Holds malloc wclist) (addWordAt malloc wclist word) (addWord word) where
  retry := rfl
  notify := rfl
  waits _ _ _ := rfl
  body := by
    rintro _ _ ⟨m, nodes, rfl, hm, rfl⟩
    have hroom := hm.room
    obtain ⟨heap, nodes', hrun, hm', hmap⟩ := hm.addWord (n := 0) hinj word
    have hroom' := hm'.room
    exact ⟨rfl, _, nodes', hrun, ⟨hm'.list, hm'.free, by dsimp only; omega⟩, hmap⟩

/-! ## Steps -/

/-- A thread that is not in `add_word`. -/
def Outside (p : Phase Str Unit) : Prop := p = .idle ∨ ∃ word r, p = .returned word r

variable (malloc wclist l) in
/-- Outside of `add_word` a thread does not look at the list, -/
theorem workerStepAt_outside {t : Thread cl} (hp : Outside (s.mon.phase t)) :
    workerStep (s.over l) t = (workerStepAt malloc wclist s t).map fun s' => s'.over l := by
  rcases hp with hp | ⟨word, r, hp⟩
  · have hp' : (s.over l).mon.phase t = .idle := hp
    have hreader : (s.over l).reader t = s.reader t := rfl
    simp only [workerStep, workerStepAt, hp, hp', hreader]
    cases s.reader t with
    | counting infile =>
      dsimp only
      cases getWord infile with
      | none => rfl
      | some r =>
        simp only [Option.map_some]
        split_ifs <;> rfl
    | _ => rfl
  · have hp' : (s.over l).mon.phase t = .returned word r := hp
    simp only [workerStep, workerStepAt, hp, hp']
    rfl

/-- and does not change it. -/
theorem workerStepAt_shared {t : Thread cl} (hp : Outside (s.mon.phase t))
    (h : workerStepAt malloc wclist s t = some s') : s'.mon.shared = s.mon.shared := by
  unfold workerStepAt at h
  rcases hp with hp | ⟨word, r, hp⟩
  · simp only [hp] at h
    split at h
    · obtain ⟨r, -, rfl⟩ := Option.map_eq_some_iff.mp h
      split_ifs <;> rfl
    · exact absurd h (by simp)
  · simp only [hp] at h
    obtain rfl := Option.some.inj h
    rfl

variable (malloc wclist l) in
/-- Inside, it takes a step of the monitor. -/
theorem workerStepAt_inside {t : Thread cl} (hp : ¬ Outside (s.mon.phase t)) :
    workerStepAt malloc wclist s t =
        (Monitor.step (addWordAt malloc wclist) s.mon t none).map (fun m => { s with mon := m }) ∧
      workerStep (s.over l) t =
        (Monitor.step addWord (s.over l).mon t none).map fun m => { s.over l with mon := m } := by
  unfold workerStepAt workerStep
  have hphase : (s.over l).mon.phase t = s.mon.phase t := rfl
  rw [hphase]
  cases hph : s.mon.phase t with
  | idle => exact absurd (.inl hph) hp
  | returned word r => exact absurd (.inr ⟨word, r, hph⟩) hp
  | _ => exact ⟨rfl, rfl⟩

/-- **A step of a counting thread** is one of the program on entries. -/
theorem workerStepAt_over (hinj : Function.Injective malloc) {t : Thread cl}
    (hl : Holds malloc wclist s.mon.shared l) (h : workerStepAt malloc wclist s t = some s') :
    ∃ l', workerStep (s.over l) t = some (s'.over l') ∧ Holds malloc wclist s'.mon.shared l' := by
  by_cases hp : Outside (s.mon.phase t)
  · have hout := workerStepAt_outside malloc wclist l hp
    rw [h] at hout
    exact ⟨l, hout, (workerStepAt_shared hp h).symm ▸ hl⟩
  · obtain ⟨hat, hstep⟩ := workerStepAt_inside malloc wclist l hp
    rw [hat] at h
    obtain ⟨m, hm, rfl⟩ := Option.map_eq_some_iff.mp h
    obtain ⟨l', hmove, hl'⟩ := ((step_iff _).mp ⟨none, hm⟩).withShared (addWordAt_over hinj) hl
    obtain ⟨w, hw⟩ := (step_iff _).mpr hmove
    have hnone : Monitor.step addWord (s.over l).mon t none = some (m.withShared l') :=
      (step_addWord _ t w).symm.trans hw
    exact ⟨l', by rw [hstep, hnone]; rfl, hl'⟩

/-- A counting thread that has a step in the program on entries has one. -/
theorem workerStepAt_of_over (hinj : Function.Injective malloc) {t : Thread cl} {r : Run cl}
    (hl : Holds malloc wclist s.mon.shared l) (h : workerStep (s.over l) t = some r) :
    ∃ s', workerStepAt malloc wclist s t = some s' := by
  by_cases hp : Outside (s.mon.phase t)
  · rw [workerStepAt_outside malloc wclist l hp] at h
    obtain ⟨s', hs', -⟩ := Option.map_eq_some_iff.mp h
    exact ⟨s', hs'⟩
  · obtain ⟨hat, hstep⟩ := workerStepAt_inside malloc wclist l hp
    rw [hstep] at h
    obtain ⟨m, hm, -⟩ := Option.map_eq_some_iff.mp h
    obtain ⟨m', hmove⟩ := ((step_iff _).mp ⟨none, hm⟩).of_withShared (addWordAt_over hinj) hl
    obtain ⟨w, hw⟩ := (step_iff _).mpr hmove
    have hnone : Monitor.step (addWordAt malloc wclist) s.mon t none = some m' := by
      rw [← hw]
      unfold Monitor.step
      cases s.mon.phase t <;> rfl
    exact ⟨_, by rw [hat, hnone]; rfl⟩

/-- **What main prints** is what it prints on the entries. -/
theorem output_over (hinj : Function.Injective malloc) {memory : Option Pintos.State}
    (hl : Holds malloc wclist memory l) :
    (memory.bind fun m => (Pintos.memoryImpl malloc wclist).output (m.calls + 2) m) =
      output pwords l := by
  obtain ⟨m, nodes, rfl, hm, rfl⟩ := hl
  have hne : wclist.head ≠ wclist.tail := fun heq => by
    have hnd := hm.list.nodup
    simp [PintosList.elems, heq] at hnd
  have hrep := Pintos.represents hinj (m.calls + 2) hne
    (hm.list.live _ (by simp [PintosList.elems])) (hm.list.live _ (by simp [PintosList.elems]))
    hm.free
  obtain ⟨l', hsort, -⟩ := pwords_lawful.sort (nodes.map Prod.snd)
  have hout : output pwords (nodes.map Prod.snd) = some (fprintWords l') := by
    rw [output, hsort]
    rfl
  obtain ⟨text, htext, rfl⟩ := output_implements hrep ⟨nodes, hm, rfl⟩ _ hout
  rw [Option.bind_some, htext, hout]

/-- **A step of main** is one of the program on entries. -/
theorem mainStepAt_over (hinj : Function.Injective malloc)
    (hl : Holds malloc wclist s.mon.shared l) :
    mainStep (s.over l) = (mainStepAt malloc wclist s).map fun s' => s'.over l := by
  have hmain : (s.over l).main = s.main := rfl
  have hreader : (s.over l).reader = s.reader := rfl
  have hshared : (s.over l).mon.shared = l := rfl
  unfold mainStep mainStepAt
  rw [hmain]
  cases s.main with
  | create i =>
    dsimp only
    split_ifs with hi
    · cases cl.args[i].contents <;> rfl
    · rfl
  | join i =>
    dsimp only
    rw [hreader]
    split_ifs <;> rfl
  | output =>
    dsimp only
    rw [hshared, output_over hinj hl]
    cases output pwords l <;> rfl
  | exited exit => rfl

theorem mainStepAt_shared (h : mainStepAt malloc wclist s = some s') :
    s'.mon.shared = s.mon.shared := by
  unfold mainStepAt at h
  split at h
  · split_ifs at h
    · split at h <;> (obtain rfl := Option.some.inj h; rfl)
    · obtain rfl := Option.some.inj h
      rfl
  · split_ifs at h <;> (obtain rfl := Option.some.inj h; rfl)
  · obtain ⟨text, -, rfl⟩ := Option.map_eq_some_iff.mp h
    rfl
  · exact absurd h (by simp)

theorem stepAt_live (hlive : ∀ exit, s.main ≠ .exited exit) (a : Action cl) :
    stepAt malloc wclist s a = match a with
      | .worker t => workerStepAt malloc wclist s t
      | .main => mainStepAt malloc wclist s := by
  unfold stepAt
  split
  next hm => exact absurd hm (hlive _)
  all_goals rfl

/-- **A step in memory** is a step of the program on entries. -/
theorem stepAt_over (hinj : Function.Injective malloc) {a : Action cl}
    (hl : Holds malloc wclist s.mon.shared l) (h : stepAt malloc wclist s a = some s') :
    ∃ l', step (s.over l) a = some (s'.over l') ∧ Holds malloc wclist s'.mon.shared l' := by
  have hlive : ∀ exit, s.main ≠ .exited exit := fun exit hm => by
    simp [stepAt, hm] at h
  rw [stepAt_live hlive] at h
  rw [step_live hlive]
  cases a with
  | worker t => exact workerStepAt_over hinj hl h
  | main =>
    refine ⟨l, ?_, (mainStepAt_shared h).symm ▸ hl⟩
    have hstep := mainStepAt_over hinj hl
    rwa [show mainStepAt malloc wclist s = some s' from h] at hstep

/-- **Where the program on entries has a step**, the program in memory has one. -/
theorem stepAt_of_over (hinj : Function.Injective malloc) {a : Action cl} {r : Run cl}
    (hl : Holds malloc wclist s.mon.shared l) (h : step (s.over l) a = some r) :
    ∃ s', stepAt malloc wclist s a = some s' := by
  have hlive : ∀ exit, s.main ≠ .exited exit := (next_of_step h).1
  rw [step_live hlive] at h
  rw [stepAt_live hlive]
  cases a with
  | worker t => exact workerStepAt_of_over hinj hl h
  | main =>
    have hstep := (mainStepAt_over hinj hl).symm.trans h
    obtain ⟨s', hs', -⟩ := Option.map_eq_some_iff.mp hstep
    exact ⟨s', hs'⟩

/-! ## Runs -/

variable {heap : Heap WordCount}

/-- What is there before `main`: the two ends of the list, and room for all elements. -/
structure Fresh (malloc : Nat → Addr) (wclist : PintosList) (heap : Heap WordCount) : Prop where
  inj : Function.Injective malloc
  ends : wclist.head ≠ wclist.tail
  head : heap.live wclist.head = true
  tail : heap.live wclist.tail = true
  free : ∀ i, heap.live (malloc i) = false

/-- **Every reachable state** holds the entries of a reachable state of the program on entries. -/
theorem reachable_over (hfresh : Fresh malloc wclist heap)
    (h : (programAt malloc wclist cl heap).Reachable s) :
    ∃ l, Holds malloc wclist s.mon.shared l ∧ (program cl).Reachable (s.over l) := by
  refine System.invariant (S := programAt malloc wclist cl heap) (I := fun s =>
    ∃ l, Holds malloc wclist s.mon.shared l ∧ (program cl).Reachable (s.over l)) ?_ ?_ h
  · rintro _ rfl
    refine ⟨[], ?_, .start rfl⟩
    obtain ⟨h', hinit, hl, hlive, -⟩ := listInit_isList hfresh.ends hfresh.head hfresh.tail
    have hrun : (Pintos.memoryImpl malloc wclist).initWords ⟨heap, 0⟩ = some ⟨h', 0⟩ := by
      simp [Pintos.memoryImpl, Heap.initWords, hinit]
    refine ⟨⟨h', 0⟩, [], hrun, ⟨hl, fun i _ => ?_, by simp⟩, rfl⟩
    rw [hlive]
    exact hfresh.free i
  · rintro s s' - ⟨l, hl, hr⟩ ⟨a, ha⟩
    obtain ⟨l', hstep, hl'⟩ := stepAt_over hfresh.inj hl ha
    exact ⟨l', hl', hr.step ⟨a, hstep⟩⟩

/-- A state in memory has as few endless runs as the state of the program on entries. -/
theorem acc_over (hinj : Function.Injective malloc) {r : Run cl}
    (hacc : Acc (fun s₂ s₁ => (program cl).next s₁ s₂) r) : ∀ {s : MemoryRun cl} {l},
      s.over l = r → Holds malloc wclist s.mon.shared l →
        Acc (fun s₂ s₁ => (programAt malloc wclist cl heap).next s₁ s₂) s := by
  induction hacc with
  | intro r _ ih =>
    rintro s l rfl hl
    refine ⟨_, fun s' hs' => ?_⟩
    obtain ⟨a, ha⟩ := hs'
    obtain ⟨l', hstep, hl'⟩ := stepAt_over hinj hl ha
    exact ih _ ⟨a, hstep⟩ rfl hl'

/-- What main has joined and printed, on readable files. -/
theorem joined_report {r : Run cl} {files : List Stream}
    (hf : cl.args.map Arg.contents = files.map some) (h : (program cl).Reachable r)
    (hj : r.main.joinedAll = true) :
    Tallies r.mon.shared (occ (files.flatMap wordsOf)) ∧
      ∀ exit, r.main = .exited exit →
        (output pwords r.mon.shared).map (fun text => ⟨0, text⟩) = some exit := by
  have hread : ¬ ∃ a ∈ cl.args, a.contents = none := by
    rintro ⟨a, ha, hnone⟩
    have hmem : a.contents ∈ files.map some := hf ▸ List.mem_map_of_mem ha
    rw [hnone] at hmem
    simp at hmem
  have ho := reachable_order h
  unfold Order at ho
  cases hm : r.main with
  | output =>
    rw [hm] at ho
    exact ⟨shared_tally h ho hf, fun exit hexit => absurd hexit (by simp)⟩
  | exited exit =>
    rw [hm] at ho
    obtain ⟨he, hout⟩ := ho.resolve_left hread
    refine ⟨shared_tally h he hf, fun exit' hexit => ?_⟩
    rw [hout, Main.exited.inj hexit]
  | _ => rw [hm] at hj; exact absurd hj (by simp [Main.joinedAll])

/-- **`pwords` in memory.** In every run on readable files: no pointer that leads nowhere is
followed, and whenever no body of `add_word` is under way the shared list is well formed; when main
has joined all threads, its elements tally the words of the files; main exits with the report of the
files; and the run ends, with main exited. -/
theorem pwords_in_memory (hfresh : Fresh malloc wclist heap) {files : List Stream}
    (hf : cl.args.map Arg.contents = files.map some)
    (h : (programAt malloc wclist cl heap).Reachable s) :
    (∃ m nodes, s.mon.shared = some m ∧ IsList m.heap wclist nodes ∧
      (s.main.joinedAll = true →
        Tallies (nodes.map Prod.snd) (occ (files.flatMap wordsOf)))) ∧
    (∀ exit, s.main = .exited exit → ∃ entries, exit = ⟨0, fprintWords entries⟩ ∧
      IsReport (occ (files.flatMap wordsOf)) entries) ∧
    ((∀ s', ¬ (programAt malloc wclist cl heap).next s s') → ∃ exit, s.main = .exited exit) ∧
    Acc (fun s₂ s₁ => (programAt malloc wclist cl heap).next s₁ s₂) s := by
  obtain ⟨l, hl, hr⟩ := reachable_over hfresh h
  refine ⟨?_, fun exit hexit => ?_, fun hstuck => ?_,
    acc_over hfresh.inj ((program_terminates cl).apply _) rfl hl⟩
  · obtain ⟨m, nodes, hm, hcount, rfl⟩ := hl
    exact ⟨m, nodes, hm, hcount.list, fun hj => (joined_report hf hr hj).1⟩
  · have hj : (s.over l).main.joinedAll = true := by
      rw [show (s.over l).main = .exited exit from hexit]
      rfl
    obtain ⟨htally, hexited⟩ := joined_report hf hr hj
    obtain ⟨entries, hout, hrep⟩ := output_isReport pwords_lawful htally
    have hprinted := hexited exit hexit
    rw [hout] at hprinted
    exact ⟨entries, (Option.some.inj hprinted).symm, hrep⟩
  · by_contra hlive
    obtain ⟨r, a, ha⟩ := program_enabled hr fun exit hm => hlive ⟨exit, hm⟩
    obtain ⟨s', hs'⟩ := stepAt_of_over hfresh.inj hl ha
    exact hstuck s' ⟨a, hs'⟩

theorem fresh_emptyHeap : Fresh (· + 2) ⟨0, 1⟩ emptyHeap :=
  ⟨fun i j hij => Nat.add_right_cancel hij, Nat.zero_ne_one, rfl, rfl, by simp [emptyHeap]⟩

/-- The first thread runs while the second is about to lock the list. -/
theorem pwords_in_memory_two : ∃ (s : MemoryRun twoFiles) (m : Pintos.State)
    (nodes : List (Addr × WordCount)),
      (programAt (· + 2) ⟨0, 1⟩ twoFiles emptyHeap).Reachable s ∧ s.mon.shared = some m ∧
      IsList m.heap ⟨0, 1⟩ nodes ∧
      Tallies (nodes.map Prod.snd) (occ ([bytes "ab", bytes "cd ab"].flatMap wordsOf)) := by
  have hrun : ((List.replicate 3 Action.main ++ [Action.worker ⟨1, by decide⟩] ++
      List.replicate 7 (Action.worker ⟨0, by decide⟩) ++
      List.replicate 12 (Action.worker ⟨1, by decide⟩) ++ List.replicate 3 Action.main).foldlM
        (stepAt (· + 2) ⟨0, 1⟩) (MemoryRun.start (· + 2) ⟨0, 1⟩ twoFiles emptyHeap)).any
        (fun s : MemoryRun twoFiles => s.main.joinedAll) = true := by decide
  obtain ⟨s, hs, hj⟩ := (Option.any_eq_true _ _).mp hrun
  have hstep : ∀ (s : MemoryRun twoFiles) a s', stepAt (· + 2) ⟨0, 1⟩ s a = some s' →
      (programAt (· + 2) ⟨0, 1⟩ twoFiles emptyHeap).next s s' := fun _ a _ hs => ⟨a, hs⟩
  have h : (programAt (· + 2) ⟨0, 1⟩ twoFiles emptyHeap).Reachable s :=
    System.Reachable.foldlM hstep (.start rfl) hs
  have hf : twoFiles.args.map Arg.contents = [bytes "ab", bytes "cd ab"].map some := rfl
  obtain ⟨⟨m, nodes, hm, hl, htally⟩, -⟩ := pwords_in_memory fresh_emptyHeap hf h
  exact ⟨s, m, nodes, h, hm, hl, htally hj⟩

end SystemProgramming.Words.Pwords
