import Mathlib.Algebra.BigOperators.Fin
import SystemProgramming.Words.Pwords

/-!
# `pwords` does not depend on the schedule

What the program keeps over every run, and what it prints.

* `Books`: the words a thread has added, the one it is adding and those of the rest of its file are
  the words of the file.
* `Order`: main has created and joined the threads that its place says.
* `occ_added`: when all threads have ended, the words added are those of the files.
* `program_enabled`: until main has exited there is something to do.
* `pwords_independent`: every run ends with the output of `words`.
-/

namespace SystemProgramming.Words.Pwords

open Lib Lib.Monitor

variable {cl : CommandLine} {s s' : Run cl}

/-! ## What the threads have done -/

/-- The word a thread is adding. -/
def inCall (p : Phase Str Unit) : List Str := if p.result = none then p.op.toList else []

/-- The words a thread has still to read. -/
def Reader.left : Reader → List Str
  | .counting infile => wordsOf infile
  | _ => []

/-- The words of the file of a thread. -/
def argWords (t : Thread cl) : List Str := wordsOf ((cl.args.get t).contents.getD [])

/-- **The books**: what a thread has added, is adding and has left to read. -/
structure Books (m : State (Thread cl) Str (List WordCount) Unit) (reader : Thread cl → Reader) :
    Prop where
  calling : ∀ t, m.phase t ≠ .idle → ∃ infile, reader t = .counting infile
  fresh : ∀ t, reader t = .absent → m.returns t = []
  words : ∀ t, reader t ≠ .absent →
    (m.returns t).map Prod.fst ++ inCall (m.phase t) ++ (reader t).left = argWords t

variable {m m' : State (Thread cl) Str (List WordCount) Unit} {reader : Thread cl → Reader}

/-- A thread that is not reading its file is in no call. -/
theorem Books.idle (h : Books m reader) {t : Thread cl}
    (ht : ∀ infile, reader t ≠ .counting infile) : m.phase t = .idle := by
  by_contra hp
  obtain ⟨infile, hr⟩ := h.calling t hp
  exact ht infile hr

/-- A thread reads on. The word it reads is added next, unless it is too short. -/
theorem books_read (h : Books m reader) {t : Thread cl} {infile : Stream} (hp : m.phase t = .idle)
    (hr : reader t = .counting infile) {r : Reader} (hne : r ≠ .absent) {p : Phase Str Unit}
    (hw : wordsOf infile = inCall p ++ r.left)
    (hc : p ≠ .idle → ∃ infile, r = .counting infile) :
    Books (m.goto t p) (Function.update reader t r) := by
  refine ⟨?_, ?_, ?_⟩
  · intro u hu
    rw [goto_phase] at hu
    rw [Function.update_apply]
    split_ifs at hu ⊢
    · exact hc hu
    · exact h.calling u hu
  · intro u hu
    rw [Function.update_apply] at hu
    split_ifs at hu
    · exact absurd hu hne
    · exact h.fresh u hu
  · intro u hu
    rw [goto_returns, goto_phase]
    rw [Function.update_apply] at hu ⊢
    split_ifs at hu ⊢ with hut
    · subst hut
      have hb := h.words u (by rw [hr]; simp)
      rw [hp, hr, Reader.left, hw] at hb
      rw [← hb]
      simp [inCall, Phase.op, Phase.result]
    · exact h.words u hu

/-- A call of `add_word` goes on. -/
theorem books_move (h : Books m reader) {t : Thread cl} (hm : Move addWord m t m') :
    Books m' reader := by
  have hcall : ∀ u, m'.phase u ≠ .idle → ∃ infile, reader u = .counting infile := by
    intro u hu
    refine h.calling u fun hidle => hu ?_
    rw [← op_eq_none_iff, hm.op, hidle]
    rfl
  rcases hm.finish with ⟨hret, hres⟩ | ⟨o, r, hp, hret, hph⟩
  · refine ⟨hcall, ?_, ?_⟩
    · intro u hu
      rw [hret]
      exact h.fresh u hu
    · intro u hu
      have hin : inCall (m'.phase u) = inCall (m.phase u) := by
        unfold inCall
        rw [hres, hm.op]
      rw [hret, hin]
      exact h.words u hu
  · -- the word of the call that returns moves from the second part to the first
    have hne : reader t ≠ .absent := by
      intro ha
      obtain ⟨infile, hr⟩ := h.calling t (by rw [hp]; simp)
      exact absurd (ha.symm.trans hr) (by simp)
    refine ⟨hcall, ?_, ?_⟩
    · intro u hu
      have hut : u ≠ t := fun he => hne (he ▸ hu)
      rw [hret, Function.update_of_ne hut]
      exact h.fresh u hu
    · intro u hu
      have hb := h.words u hu
      rw [hret, hph, Function.update_apply, Function.update_apply]
      split_ifs with hut
      · subst hut
        rw [← hb, hp]
        simp [inCall, Phase.op, Phase.result]
      · exact hb

/-- A thread takes the result of its call. -/
theorem books_collect (h : Books m reader) {t : Thread cl} {word : Str} {r : Unit}
    (hp : m.phase t = .returned word r) : Books (m.goto t .idle) reader := by
  refine ⟨?_, h.fresh, ?_⟩
  · intro u hu
    rw [goto_phase] at hu
    split_ifs at hu
    · exact absurd rfl hu
    · exact h.calling u hu
  · intro u hu
    have hb := h.words u hu
    rw [goto_returns, goto_phase]
    split_ifs with hut
    · subst hut
      rw [hp] at hb
      exact hb
    · exact hb

/-- Main creates a thread on its file. -/
theorem books_create (h : Books m reader) {t : Thread cl} (ha : reader t = .absent) {f : Stream}
    (hf : (cl.args.get t).contents = some f) :
    Books m (Function.update reader t (.counting f)) := by
  refine ⟨?_, ?_, ?_⟩
  · intro u hu
    rw [Function.update_apply]
    split_ifs
    · exact ⟨f, rfl⟩
    · exact h.calling u hu
  · intro u hu
    rw [Function.update_apply] at hu
    split_ifs at hu
    exact h.fresh u hu
  · intro u hu
    rw [Function.update_apply] at hu ⊢
    split_ifs at hu ⊢ with hut
    · subst hut
      have hidle : m.phase u = .idle := h.idle (by simp [ha])
      simp only [h.fresh u ha, hidle, argWords, hf, Reader.left]
      rfl
    · exact h.words u hu

/-! ## What main has seen -/

/-- **The order of the threads**, against where main stands. -/
def Order (s : Run cl) : Prop :=
  match s.main with
  | .create i => ∀ t : Thread cl, s.reader t = .absent ↔ i ≤ t
  | .join i => ∀ t : Thread cl, s.reader t ≠ .absent ∧ (t < i → s.reader t = .ended)
  | .output => ∀ t : Thread cl, s.reader t = .ended
  | .exited exit =>
    (∃ a ∈ cl.args, a.contents = none) ∨
      (∀ t : Thread cl, s.reader t = .ended) ∧
        (output pwords s.mon.shared).map (fun text => ⟨0, text⟩) = some exit

/-- Threads that read on or end keep the order while main runs. -/
theorem order_read (h : Order s) (hlive : ∀ exit, s.main ≠ .exited exit) (hm : s'.main = s.main)
    (ha : ∀ t, s'.reader t = .absent ↔ s.reader t = .absent)
    (he : ∀ t, s.reader t = .ended → s'.reader t = .ended) : Order s' := by
  unfold Order at h ⊢
  rw [hm]
  cases hmain : s.main with
  | create i =>
    rw [hmain] at h
    exact fun t => (ha t).trans (h t)
  | join i =>
    rw [hmain] at h
    exact fun t => ⟨fun hab => (h t).1 ((ha t).mp hab), fun hlt => he t ((h t).2 hlt)⟩
  | output =>
    rw [hmain] at h
    exact fun t => he t (h t)
  | exited exit => exact absurd hmain (hlive exit)

/-- A thread that was reading reads on or ends. -/
theorem order_update (h : Order s) (hlive : ∀ exit, s.main ≠ .exited exit) {t : Thread cl}
    {infile : Stream} (hr : s.reader t = .counting infile) {r : Reader} (hne : r ≠ .absent)
    (m : State (Thread cl) Str (List WordCount) Unit) :
    Order { s with mon := m, reader := Function.update s.reader t r } := by
  refine order_read h hlive rfl (fun u => ?_) fun u hu => ?_
  · show Function.update s.reader t r u = .absent ↔ _
    rw [Function.update_apply]
    split_ifs with hut
    · rw [hut, hr]
      exact iff_of_false hne (by simp)
    · exact Iff.rfl
  · have hut : u ≠ t := by
      rintro rfl
      exact absurd (hu.symm.trans hr) (by simp)
    exact (Function.update_of_ne hut ..).trans hu

theorem next_order (h : Order s) (hlive : ∀ exit, s.main ≠ .exited exit) (hn : Next s s') :
    Order s' := by
  cases hn with
  | move t m hm => exact order_read h hlive rfl (fun _ => Iff.rfl) fun _ hu => hu
  | finish t infile rest hp hr hw => exact order_update h hlive hr (by simp) s.mon
  | letter t infile rest word hp hr hw h1 => exact order_update h hlive hr (by simp) s.mon
  | call t infile rest word hp hr hw hne h1 => exact order_update h hlive hr (by simp) _
  | collect t word r hp => exact order_read h hlive rfl (fun _ => Iff.rfl) fun _ hu => hu
  | create i hi f hm hf =>
    unfold Order at h ⊢
    rw [hm] at h
    intro t
    show Function.update s.reader ⟨i, hi⟩ (.counting f) t = .absent ↔ i + 1 ≤ t
    rw [Function.update_apply]
    split_ifs with ht
    · rw [ht]
      exact iff_of_false (by simp) (by simp)
    · have hti : (t : Nat) ≠ i := fun he => ht (Fin.ext he)
      rw [h t]
      omega
  | fail i hi exit hm hf => exact Or.inl ⟨cl.args[i], List.getElem_mem hi, hf⟩
  | created i hm hi =>
    unfold Order at h ⊢
    rw [hm] at h
    intro t
    refine ⟨?_, fun hlt => absurd hlt (by simp)⟩
    intro ha
    have := (h t).mp ha
    have := t.isLt
    omega
  | join i hi hm hr =>
    unfold Order at h ⊢
    rw [hm] at h
    intro t
    refine ⟨(h t).1, ?_⟩
    intro hlt
    rcases Nat.lt_succ_iff_lt_or_eq.mp hlt with hlt | heq
    · exact (h t).2 hlt
    · rw [← hr]
      exact congrArg s.reader (Fin.ext heq)
  | joined i hm hi =>
    unfold Order at h ⊢
    rw [hm] at h
    exact fun t => (h t).2 (Nat.lt_of_lt_of_le t.isLt hi)
  | print text hm ho =>
    unfold Order at h ⊢
    rw [hm] at h
    exact Or.inr ⟨h, by rw [ho]; rfl⟩

theorem reachable_order (h : (program cl).Reachable s) : Order s :=
  program_invariant (I := Order) (fun _ => ⟨fun _ => Nat.zero_le _, fun _ => rfl⟩)
    (fun _ _ _ hi hlive hn => next_order hi hlive hn) h

theorem next_books (h : Books s.mon s.reader) (ho : Order s) (hn : Next s s') :
    Books s'.mon s'.reader := by
  cases hn with
  | move t m hm => exact books_move h hm
  | finish t infile rest hp hr hw =>
    obtain ⟨-, hs, -⟩ := (wordsOf_getWord hw).resolve_right fun hne => hne.1 rfl
    have := books_read h hp hr (r := .ended) (p := .idle) (by simp) (by rw [hs]; rfl) (by simp)
    rwa [goto_eq_self hp] at this
  | letter t infile rest word hp hr hw h1 =>
    obtain ⟨-, hs⟩ := (wordsOf_getWord hw).resolve_left fun he => by
      rw [he.1] at h1
      exact absurd h1 (by decide)
    rw [if_pos h1] at hs
    have := books_read h hp hr (r := .counting rest) (p := .idle) (by simp) hs (by simp)
    rwa [goto_eq_self hp] at this
  | call t infile rest word hp hr hw hne h1 =>
    obtain ⟨-, hs⟩ := (wordsOf_getWord hw).resolve_left fun he => hne he.1
    rw [if_neg h1] at hs
    exact books_read h hp hr (by simp) hs fun _ => ⟨rest, rfl⟩
  | collect t word r hp => exact books_collect h hp
  | create i hi f hm hf =>
    unfold Order at ho
    rw [hm] at ho
    exact books_create h ((ho ⟨i, hi⟩).mpr (Nat.le_refl i)) hf
  | fail | created | join | joined | print => exact h

theorem reachable_books (h : (program cl).Reachable s) : Books s.mon s.reader :=
  program_invariant (I := fun s => Books s.mon s.reader)
    ⟨fun _ ht => absurd rfl ht, fun _ _ => rfl, fun _ ht => absurd rfl ht⟩
    (fun _ _ hr hi _ hn => next_books hi (reachable_order hr) hn) h

/-! ## The list in the end -/

/-- What a thread that has ended has added. -/
theorem callsOf_ended (h : (program cl).Reachable s) {t : Thread cl} (ht : s.reader t = .ended) :
    (callsOf t s.mon.log).map Prod.fst = argWords t := by
  have hb := reachable_books h
  have hidle : s.mon.phase t = .idle := hb.idle (by simp [ht])
  have hwords := hb.words t (by rw [ht]; simp)
  rw [hidle, ht] at hwords
  rw [(reachable_wf (reachable_mon h)).calls t, hidle, ← hwords]
  simp [pending, inCall, Phase.op, Phase.result, Reader.left]

/-- **When all threads have ended, the words added are those of the files**, as often as they
occur there. -/
theorem occ_added (h : (program cl).Reachable s) (he : ∀ t, s.reader t = .ended)
    {files : List Stream} (hf : cl.args.map Arg.contents = files.map some) :
    occ (added s.mon.log) = occ (files.flatMap wordsOf) := by
  have hargs : (cl.args.map fun a => wordsOf (a.contents.getD [])) = files.map wordsOf := by
    have := congrArg (List.map fun c : Option Stream => wordsOf (c.getD [])) hf
    rwa [List.map_map, List.map_map] at this
  funext w
  have hfib := count_filterMap_fibres (fun e : Thread cl × Str × Unit => e.1)
    (some ∘ fun e => e.2.1) w s.mon.log
  have hthread : ∀ t, ((s.mon.log.filter fun e => e.1 = t).map fun e => e.2.1).count w =
      (argWords t).count w := fun t => by
    rw [← callsOf_ended h (he t), callsOf, List.map_map]
    rfl
  have hsum : ∑ t : Thread cl, (argWords t).count w =
      ((files.map wordsOf).map (List.count w)).sum := by
    rw [← hargs, List.map_map]
    exact Fin.sum_univ_fun_getElem cl.args fun a => (wordsOf (a.contents.getD [])).count w
  simp only [List.filterMap_eq_map] at hfib
  rw [Finset.sum_congr rfl fun t _ => hthread t, hsum, List.map_map] at hfib
  unfold occ
  rw [List.count_flatMap, ← hfib]
  rfl

/-- The list then tallies the words of the files. -/
theorem shared_tally (h : (program cl).Reachable s) (he : ∀ t, s.reader t = .ended)
    {files : List Stream} (hf : cl.args.map Arg.contents = files.map some) :
    Tallies s.mon.shared (occ (files.flatMap wordsOf)) := by
  have := foldl_occ Locked.addWord_tally (added s.mon.log) isTally_nil
  rwa [zero_add, ← shared_eq (reachable_mon h), occ_added h he hf] at this

theorem pwords_lawful : pwords.Lawful :=
  ⟨Locked.addWord_tally, listSort_spec lessCount_strictWeak⟩

/-- Without arguments main counts `stdin` alone, and prints what `words` prints. -/
theorem pwords_stdin (stdin : Stream) : wordsMain pwords [] stdin = wordsMain words [] stdin := by
  rw [wordsMain_stdin, wordsMain_stdin, wordsOutput_same pwords_lawful words_lawful]

/-! ## Progress -/

/-- `add_word` gives no signals. -/
theorem step_addWord (m : State (Thread cl) Str (List WordCount) Unit) (t : Thread cl)
    (w : Option (Thread cl)) : Monitor.step addWord m t w = Monitor.step addWord m t none := by
  unfold Monitor.step
  cases m.phase t <;> rfl

/-- A thread that has a step in `add_word` has a step. -/
theorem workerStep_of_move {t : Thread cl} {m : State (Thread cl) Str (List WordCount) Unit}
    (h : Move addWord s.mon t m) : ∃ s', workerStep s t = some s' := by
  obtain ⟨w, hw⟩ := (step_iff addWord).mpr h
  rw [step_addWord] at hw
  unfold workerStep
  split
  · next hp => simp [Monitor.step, hp] at hw
  · next hp => simp [Monitor.step, hp] at hw
  · exact ⟨_, by rw [hw]; rfl⟩

/-- A thread that is inside `add_word` or reads its file means that some thread has a step. -/
theorem exists_workerStep (h : (program cl).Reachable s) {t : Thread cl}
    (ht : s.mon.phase t ≠ .idle ∨ ∃ infile, s.reader t = .counting infile) :
    ∃ u s', workerStep s u = some s' := by
  have hwf := reachable_wf (reachable_mon h)
  cases hp : s.mon.phase t with
  | idle =>
    obtain ⟨infile, hr⟩ := ht.resolve_left fun hne => hne hp
    exact ⟨t, _, by rw [workerStep, hp]; simp only [hr, getWord_spec]; rfl⟩
  | returned word r => exact ⟨t, _, by rw [workerStep, hp]⟩
  | blocked word =>
    have hc := hwf.coherent t
    rw [hp] at hc
    obtain ⟨c, d, hc⟩ := hc
    exact absurd hc (by simp [addWord])
  | _ =>
    obtain ⟨u, m, hm⟩ := hwf.enabled (t := t) (by rw [hp]; rfl)
    obtain ⟨s', hs'⟩ := workerStep_of_move hm
    exact ⟨u, s', hs'⟩

/-- **Until main has exited there is something to do.** -/
theorem program_enabled (h : (program cl).Reachable s) (hlive : ∀ exit, s.main ≠ .exited exit) :
    ∃ s', (program cl).next s s' := by
  by_cases hw : ∃ t, s.mon.phase t ≠ .idle ∨ ∃ infile, s.reader t = .counting infile
  · obtain ⟨t, ht⟩ := hw
    obtain ⟨u, s', hs'⟩ := exists_workerStep h ht
    exact ⟨s', .worker u, by rw [step_live hlive]; exact hs'⟩
  · suffices hm : ∃ s', mainStep s = some s' by
      obtain ⟨s', hs'⟩ := hm
      exact ⟨s', .main, by rw [step_live hlive]; exact hs'⟩
    have ho := reachable_order h
    unfold Order at ho
    unfold mainStep
    cases hm : s.main with
    | create i =>
      simp only
      split_ifs
      · split <;> exact ⟨_, rfl⟩
      · exact ⟨_, rfl⟩
    | join i =>
      rw [hm] at ho
      simp only
      split_ifs with hi hr
      · exact ⟨_, rfl⟩
      · cases hr' : s.reader ⟨i, hi⟩ with
        | absent => exact absurd hr' (ho ⟨i, hi⟩).1
        | counting infile => exact absurd ⟨⟨i, hi⟩, Or.inr ⟨infile, hr'⟩⟩ hw
        | ended => exact absurd hr' hr
      · exact ⟨_, rfl⟩
    | output =>
      obtain ⟨l, hl, -⟩ := pwords_lawful.sort s.mon.shared
      exact ⟨_, by simp only [output, hl]; rfl⟩
    | exited exit => exact absurd hm (hlive exit)

/-! ## The result -/

/-- Main has joined all threads. -/
def Main.joinedAll : Main → Bool
  | .output | .exited _ => true
  | _ => false

/-- **`pwords` does not depend on the schedule.** On readable files, in every run: when main has
joined all threads, the list has every word of the files once, with the number of its occurrences
over all files; main exits with what `words` prints; and the run ends, with main exited. -/
theorem pwords_independent {files : List Stream} (hf : cl.args.map Arg.contents = files.map some)
    (h : (program cl).Reachable s) (stdin : Stream) :
    (s.main.joinedAll = true → (s.mon.shared.map WordCount.word).Nodup ∧
      ∀ wc, wc ∈ s.mon.shared ↔ (∃ f ∈ files, wc.word ∈ wordsOf f) ∧
        wc.count = (files.map fun f => (wordsOf f).count wc.word).sum) ∧
    (∀ exit, s.main = .exited exit → wordsMain words (files.map some) stdin = some exit) ∧
    ((∀ s', ¬ (program cl).next s s') → ∃ exit, s.main = .exited exit) ∧
    Acc (fun s₂ s₁ => (program cl).next s₁ s₂) s := by
  have hread : ¬ ∃ a ∈ cl.args, a.contents = none := by
    rintro ⟨a, ha, hnone⟩
    have hmem : a.contents ∈ files.map some := hf ▸ List.mem_map_of_mem ha
    rw [hnone] at hmem
    simp at hmem
  have hne : files ≠ [] := by
    rintro rfl
    exact cl.args_ne (List.map_eq_nil_iff.mp hf)
  have ho := reachable_order h
  unfold Order at ho
  refine ⟨?_, ?_, ?_, (program_terminates cl).apply s⟩
  · intro hj
    have he : ∀ t, s.reader t = .ended := by
      cases hm : s.main with
      | output => rwa [hm] at ho
      | exited exit =>
        rw [hm] at ho
        exact (ho.resolve_left hread).1
      | _ => rw [hm] at hj; exact absurd hj (by simp [Main.joinedAll])
    have ht := shared_tally h he hf
    refine ⟨ht.nodup, ?_⟩
    intro wc
    rw [mem_iff_of_tallies ht, List.mem_flatMap, List.count_flatMap]
    rfl
  · intro exit hm
    rw [hm] at ho
    obtain ⟨he, hout⟩ := ho.resolve_left hread
    obtain ⟨entries, ho', hr⟩ := output_isReport pwords_lawful (shared_tally h he hf)
    obtain ⟨entries', hw, hr'⟩ := wordsOutput_isReport words_lawful files
    obtain rfl := hr.unique hr'
    rw [wordsMain_readable words hne, hw, ← hout, ho']
  · intro hstuck
    by_contra hlive
    obtain ⟨s', hs'⟩ := program_enabled h fun exit hm => hlive ⟨exit, hm⟩
    exact hstuck s' hs'

/-- Two files with a word in common. -/
def twoFiles : CommandLine where
  args := [⟨bytes "f", some (bytes "ab")⟩, ⟨bytes "g", some (bytes "cd ab")⟩]
  args_ne := List.cons_ne_nil _ _

/-- The first thread runs while the second is about to lock the list. -/
theorem pwords_independent_two : ∃ s : Run twoFiles, (program twoFiles).Reachable s ∧
    s.main.joinedAll = true ∧ ⟨bytes "ab", 2⟩ ∈ s.mon.shared := by
  have hrun : ((List.replicate 3 Action.main ++ [Action.worker ⟨1, by decide⟩] ++
      List.replicate 7 (Action.worker ⟨0, by decide⟩) ++
      List.replicate 12 (Action.worker ⟨1, by decide⟩) ++ List.replicate 3 Action.main).foldlM step
        (Run.start twoFiles)).any (fun s : Run twoFiles => s.main.joinedAll) = true := by decide
  obtain ⟨s, hs, hj⟩ := (Option.any_eq_true _ _).mp hrun
  have hstep : ∀ (s : Run twoFiles) a s', step s a = some s' → (program twoFiles).next s s' :=
    fun _ a _ hs => ⟨a, hs⟩
  have h : (program twoFiles).Reachable s := System.Reachable.foldlM hstep (.start rfl) hs
  have hf : twoFiles.args.map Arg.contents = [bytes "ab", bytes "cd ab"].map some := rfl
  have hlist := (pwords_independent hf h []).1 hj
  exact ⟨s, h, hj, (hlist.2 ⟨bytes "ab", 2⟩).mpr (by decide)⟩

end SystemProgramming.Words.Pwords
