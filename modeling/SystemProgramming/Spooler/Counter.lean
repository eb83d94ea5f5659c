import SystemProgramming.Spooler.Strings

/-!
# The output and its counter

`Spooler/consumer_counter.py` counts the lines of an output file that start with a match of
`C\d+: Prod \d+ String \d+`. The programs write status lines besides the consumers' lines. Every
`printf` is one piece of the output, and the threads' pieces come in any order, so an output is any
list of `Line`s that has the consumers' lines of the run in their order.

* `splitLines_flatMap`: the lines of the file are the lines written.
* `consumerCounter_eq`: the counter finds the consumers' lines and no other.
* `counted_completed`, `counted_killed`: what it reports of a finished run.
-/

namespace SystemProgramming.Spooler

open Lib Lib.Monitor

/-! ## The counter -/

/-- `\d+`: what is behind the digits, of which there has to be one. -/
def digits (s : Str) : Option Str :=
  if s.takeWhile isdigit = [] then none else some (s.dropWhile isdigit)

/-- A literal: what is behind it. -/
def literal (l s : Str) : Option Str := if l <+: s then some (s.drop l.length) else none

/-- `matcher.match(line)`. No repetition can take less than all digits, since no literal behind
one starts with a digit. -/
def matcher (line : Str) : Bool :=
  ((literal (bytes "C") line).bind digits |>.bind (literal (bytes ": Prod "))
    |>.bind digits |>.bind (literal (bytes " String ")) |>.bind digits).isSome

/-- The translation of line ends in a text file. -/
def universalNewlines : Str → Str
  | [] => []
  | [b] => [if b = 13 then 10 else b]
  | b :: b' :: s =>
    if b = 13 then if b' = 10 then 10 :: universalNewlines s else 10 :: universalNewlines (b' :: s)
    else b :: universalNewlines (b' :: s)

/-- The lines of a text, each with its line end. -/
def splitLines : Str → List Str
  | [] => []
  | b :: s =>
    if b = 10 then [b] :: splitLines s
    else match splitLines s with
      | [] => [[b]]
      | line :: lines => (b :: line) :: lines

/-- `main` of `consumer_counter.py`: the number it reports. -/
def consumerCounter (file : Str) : Nat := (splitLines (universalNewlines file)).countP matcher

/-! ## What the programs write -/

variable {cfg : Config} {mem : Nat → Ptr Str} {s : Run cfg}

/-- The calls of `printf` in `main.c`, `main_killed.c` and `consumer.c`. -/
inductive Line (cfg : Config)
  | writersCreated
  | readersCreated
  | writerDone (p : Fin cfg.nprods)
  | readerStarted (c : Fin cfg.ncons)
  | readerDone (c : Fin cfg.ncons)
  | consumed (c : Fin cfg.ncons) (str : Str)

/-- What a call of `printf` writes, without the line end. -/
def Line.text : Line cfg → Str
  | writersCreated => decimal cfg.nprods ++ bytes " Writers created"
  | readersCreated => decimal cfg.ncons ++ bytes " Readers created"
  | writerDone p => bytes "Writer Thread #" ++ decimal p ++ bytes " done"
  | readerStarted c =>
    bytes "Reader " ++ decimal c ++ bytes " Thread " ++ decimal (c + cfg.nprods) ++
      bytes " started"
  | readerDone c =>
    bytes "Reader " ++ decimal c ++ bytes " Thread " ++ decimal (c + cfg.nprods) ++ bytes " done"
  | consumed c str => bytes "C" ++ decimal c ++ bytes ": " ++ str

/-- The consumer's string in a line. -/
def Line.string : Line cfg → Option (Fin cfg.ncons × Str)
  | consumed c str => some (c, str)
  | _ => none

/-- The bytes of the lines. -/
def written (lines : List (Line cfg)) : Str := lines.flatMap fun line => line.text ++ [10]

/-- `lines` is what the run has written: the consumers' lines are those of the run, in order. -/
def IsOutput (s : Run cfg) (lines : List (Line cfg)) : Prop :=
  lines.filterMap Line.string = s.stdout

/-! ## Lines -/

theorem universalNewlines_of_not_mem {s : Str} (h : 13 ∉ s) : universalNewlines s = s := by
  induction s using universalNewlines.induct with
  | case1 => rfl
  | case2 b => simp [universalNewlines, show b ≠ 13 from fun hb => h (hb ▸ List.mem_cons_self)]
  | case3 s => exact absurd List.mem_cons_self h
  | case4 b' s hb' ih => exact absurd List.mem_cons_self h
  | case5 b b' s hb ih =>
    rw [universalNewlines, if_neg hb, ih fun hm => h (List.mem_cons_of_mem b hm)]

theorem splitLines_append {l : Str} (h : 10 ∉ l) (rest : Str) :
    splitLines (l ++ [10] ++ rest) = (l ++ [10]) :: splitLines rest := by
  induction l with
  | nil => simp [splitLines]
  | cons b l ih =>
    have hb : b ≠ 10 := fun hb => h (hb ▸ List.mem_cons_self)
    rw [List.cons_append, List.cons_append, splitLines, if_neg hb,
      ih fun hm => h (List.mem_cons_of_mem b hm)]

/-- **The lines of the file** are the lines written. -/
theorem splitLines_flatMap (texts : List Str) (h : ∀ text ∈ texts, 10 ∉ text) :
    splitLines (texts.flatMap fun text => text ++ [10]) = texts.map fun text => text ++ [10] := by
  induction texts with
  | nil => rfl
  | cons text texts ih =>
    rw [List.flatMap_cons, splitLines_append (h text List.mem_cons_self),
      ih fun t ht => h t (List.mem_cons_of_mem text ht)]
    rfl

/-! ## What matches -/

theorem literal_append (l s : Str) : literal l (l ++ s) = some s := by
  rw [literal, if_pos (List.prefix_append l s), List.drop_left]

/-- A number in front of something that is no digit. -/
theorem digits_decimal (n : Nat) {rest : Str} (h : ∀ b ∈ rest.head?, isdigit b = false) :
    digits (decimal n ++ rest) = some rest := by
  have hall : ∀ b ∈ decimal n, isdigit b = true := fun b hb => isdigit_of_mem_decimal hb
  have hrest : rest.takeWhile isdigit = [] ∧ rest.dropWhile isdigit = rest := by
    cases rest with
    | nil => exact ⟨rfl, rfl⟩
    | cons b rest =>
      have hb := h b rfl
      exact ⟨List.takeWhile_cons_of_neg (by simp [hb]), List.dropWhile_cons_of_neg (by simp [hb])⟩
  rw [digits, List.takeWhile_append_of_pos hall, hrest.1, List.append_nil,
    if_neg (decimal_ne_nil n), List.dropWhile_append_of_pos hall, hrest.2]

/-- A line that starts with something else than `C` does not match. -/
theorem matcher_of_head {line : Str} (h : line.head? ≠ some 67) : matcher line = false := by
  have hnone : literal (bytes "C") line = none := by
    refine if_neg ?_
    rintro ⟨t, rfl⟩
    exact h rfl
  rw [matcher, hnone]
  rfl

/-- **A consumer's line matches.** -/
theorem matcher_consumed (c : Nat) {p n : Nat} (hp : p ≤ cIntMax) (hn : n ≤ cIntMax) :
    matcher (bytes "C" ++ decimal c ++ bytes ": " ++ prodString p n ++ [10]) = true := by
  have hsplit : bytes "C" ++ decimal c ++ bytes ": " ++ prodString p n ++ [10] =
      bytes "C" ++ (decimal c ++ (bytes ": Prod " ++ (decimal p ++ (bytes " String " ++
        (decimal n ++ [10]))))) := by
    rw [prodString_eq hp hn, show bytes ": Prod " = bytes ": " ++ bytes "Prod " from rfl]
    simp only [List.append_assoc]
  unfold matcher
  rw [hsplit, literal_append, Option.bind_some, digits_decimal _ (by rintro b ⟨⟩; rfl),
    Option.bind_some, literal_append, Option.bind_some, digits_decimal _ (by rintro b ⟨⟩; rfl),
    Option.bind_some, literal_append, Option.bind_some, digits_decimal _ (by rintro b ⟨⟩; rfl)]
  rfl

theorem head_decimal_append (n : Nat) (s : Str) : (decimal n ++ s).head? ≠ some 67 := by
  cases hd : decimal n with
  | nil => exact absurd hd (decimal_ne_nil n)
  | cons b t =>
    intro h
    have hb : isdigit b = true := isdigit_of_mem_decimal (n := n) (hd ▸ List.mem_cons_self)
    obtain rfl : b = 67 := by simpa using h
    exact absurd hb (by decide)

/-- Which of the lines match. -/
theorem matcher_text {line : Line cfg} (h : ∀ e ∈ line.string, e.2 ∈ prodStrings cfg) :
    matcher (line.text ++ [10]) = line.string.isSome := by
  cases line with
  | consumed c str =>
    obtain ⟨p, hp, n, hn, rfl⟩ := mem_prodStrings.mp (h (c, str) rfl)
    have h1 := cfg.nthreads_le
    have h2 := cfg.nstrs_le
    exact matcher_consumed c (by omega) (by omega)
  | writersCreated | readersCreated =>
    refine matcher_of_head ?_
    simp only [Line.text, List.append_assoc]
    exact head_decimal_append _ _
  | writerDone | readerStarted | readerDone => exact matcher_of_head (fun h => absurd h (by
      simp [Line.text, bytes]))

/-- The bytes that the lines are made of: no line end, no carriage return. -/
theorem printable {line : Line cfg} (h : ∀ e ∈ line.string, e.2 ∈ prodStrings cfg) {b : UInt8}
    (hb : b ∈ line.text) : 32 ≤ b := by
  have hdec : ∀ {n : Nat}, b ∈ decimal n → 32 ≤ b := fun hm => by
    have := isdigit_iff.mp (isdigit_of_mem_decimal hm)
    rw [UInt8.le_iff_toNat_le]
    exact le_trans (by decide) this.1
  have hlit : ∀ {l : Str}, (l.all fun b => 32 ≤ b) = true → b ∈ l → 32 ≤ b := fun hl hm => by
    simpa using List.all_eq_true.mp hl b hm
  cases line with
  | consumed c str =>
    obtain ⟨p, hp, n, hn, rfl⟩ := mem_prodStrings.mp (h (c, str) rfl)
    have hb := List.mem_append.mp hb
    rcases hb with hb | hb
    · simp only [List.mem_append] at hb
      rcases hb with (hb | hb) | hb
      exacts [hlit rfl hb, hdec hb, hlit rfl hb]
    · have hb := List.mem_of_mem_take hb
      simp only [List.mem_append] at hb
      rcases hb with ((hb | hb) | hb) | hb
      exacts [hlit rfl hb, hdec hb, hlit rfl hb, hdec hb]
  | writersCreated | readersCreated =>
    rcases List.mem_append.mp hb with hb | hb
    exacts [hdec hb, hlit rfl hb]
  | writerDone p =>
    simp only [Line.text, List.mem_append] at hb
    rcases hb with (hb | hb) | hb
    exacts [hlit rfl hb, hdec hb, hlit rfl hb]
  | readerStarted | readerDone =>
    simp only [Line.text, List.mem_append] at hb
    rcases hb with (((hb | hb) | hb) | hb) | hb
    exacts [hlit rfl hb, hdec hb, hlit rfl hb, hdec hb, hlit rfl hb]

/-- **The counter finds the consumers' lines** and no other. -/
theorem consumerCounter_eq {lines : List (Line cfg)}
    (h : ∀ e ∈ lines.filterMap Line.string, e.2 ∈ prodStrings cfg) :
    consumerCounter (written lines) = (lines.filterMap Line.string).length := by
  have hstr : ∀ line ∈ lines, ∀ e ∈ line.string, e.2 ∈ prodStrings cfg := fun line hl e he =>
    h e (List.mem_filterMap.mpr ⟨line, hl, he⟩)
  have hcr : 13 ∉ written lines := fun hm => by
    obtain ⟨line, hl, hb⟩ := List.mem_flatMap.mp hm
    rcases List.mem_append.mp hb with hb | hb
    · exact absurd (printable (hstr line hl) hb) (by decide)
    · exact absurd hb (by decide)
  have hlines : splitLines (written lines) = lines.map fun line => line.text ++ [10] := by
    have := splitLines_flatMap (lines.map Line.text) fun text ht hm => by
      obtain ⟨line, hl, rfl⟩ := List.mem_map.mp ht
      exact absurd (printable (hstr line hl) hm) (by decide)
    rwa [List.flatMap_map, List.map_map] at this
  rw [consumerCounter, universalNewlines_of_not_mem hcr, hlines, List.countP_map]
  clear hcr hlines h
  induction lines with
  | nil => rfl
  | cons line lines ih =>
    have hm := matcher_text (hstr line List.mem_cons_self)
    have ih := ih fun l hl => hstr l (List.mem_cons_of_mem line hl)
    rw [List.countP_cons, ih, Function.comp_apply, hm]
    cases hl : line.string with
    | none => rw [List.filterMap_cons_none hl]; rfl
    | some e => rw [List.filterMap_cons_some hl]; rfl

/-! ## What it reports -/

/-- What has been printed was inserted by a producer. -/
theorem mem_prodStrings_of_stdout (h : (program cfg mem).Reachable s) {e : Fin cfg.ncons × Str}
    (he : e ∈ s.stdout) : e.2 ∈ prodStrings cfg := by
  have hp := returned_perm h
  have hm : e.2 ∈ returned s.mon.log :=
    hp.mem_iff.mpr (List.mem_append_left _ (List.mem_map_of_mem he))
  have hd := ((spooler_outline cfg.build cfg.bufsize mem).holds (reachable_mon h)).data.fifo
  have hi : some e.2 ∈ (inserted s.mon.log).map some := by
    rw [← hd]
    exact List.mem_append_left _ (List.mem_map_of_mem hm)
  have hi : e.2 ∈ inserted s.mon.log := by simpa using hi
  exact (begunStrings_sublist h).subset ((inserted_perm h).mem_iff.mp hi)

theorem consumerCounter_stdout (h : ∀ e ∈ s.stdout, e.2 ∈ prodStrings cfg)
    {lines : List (Line cfg)} (hl : IsOutput s lines) :
    consumerCounter (written lines) = s.stdout.length := by
  rw [consumerCounter_eq (fun e he => h e (hl ▸ he)), hl]

/-- **The counter on the output of a completed run** reports the number of strings that the
producers made, whatever the order of the threads' lines. -/
theorem counted_completed (hc : 1 ≤ cfg.ncons) (h : (program cfg mem).Reachable s)
    (hret : ∀ c, s.con c = .returned) {lines : List (Line cfg)} (hl : IsOutput s lines) :
    consumerCounter (written lines) = cfg.nprods * cfg.nstrs := by
  rw [consumerCounter_stdout (fun e he => mem_prodStrings_of_stdout h he) hl,
    ← length_prodStrings, ← (printed_perm hc h hret).length_eq, List.length_map]

/-- One string, made, printed and counted. -/
theorem counted_completed_onePair :
    ∃ s : Run (onePair .part3), (program (onePair .part3) fun _ => none).Reachable s ∧
      s.con (theConsumer .part3) = .returned ∧
        consumerCounter (written [.writersCreated,
          .consumed (theConsumer .part3) (prodString 0 0),
          .readerDone (theConsumer .part3)]) = 1 := by
  obtain ⟨s, hr, hs⟩ := reachable_of_any (fun _ => none) (AnyStep _)
    (mainSteps 3 ++ steps 7 (.inl (theProducer .part3)) ++ mainSteps 4 ++
      steps 15 (.inr (theConsumer .part3)))
    (p := fun s => s.con (theConsumer .part3) = .returned ∧
      s.stdout = [(theConsumer .part3, prodString 0 0)]) (by decide)
  obtain ⟨hcon, hout⟩ := of_decide_eq_true hs
  refine ⟨s, hr.of_restrict, hcon, ?_⟩
  refine counted_completed (le_refl 1) hr.of_restrict (fun c => ?_) ?_
  · obtain rfl : c = theConsumer .part3 := Subsingleton.elim (α := Fin 1) _ _
    exact hcon
  · exact hout.symm

/-- **The counter on the output of the killed program** reports at least the number of strings
made, less a full buffer and one string for each consumer, and at most that number. -/
theorem counted_killed (h : (killed cfg mem).Reachable s) (hm : s.main = .returned)
    {lines : List (Line cfg)} (hl : IsOutput s lines) :
    (s.stdout.map Prod.snd).Nodup ∧
      consumerCounter (written lines) ≤ cfg.nprods * cfg.nstrs ∧
      cfg.nprods * cfg.nstrs ≤ consumerCounter (written lines) + cfg.bufsize + cfg.ncons := by
  obtain ⟨hnd, hmem, hle⟩ := killed_printed h hm
  rw [consumerCounter_stdout (fun e he => hmem e.2 (List.mem_map_of_mem he)) hl]
  refine ⟨hnd, ?_, hle⟩
  rw [← length_prodStrings, ← List.length_map (f := Prod.snd)]
  exact (hnd.subperm hmem).length_le

/-- The process ends before the consumer has started. -/
theorem counted_killed_onePair :
    ∃ s : Run (onePair .part3), (killed (onePair .part3) fun _ => none).Reachable s ∧
      s.main = .returned ∧
        1 * 1 ≤ consumerCounter (written [(.writersCreated : Line (onePair .part3))]) + 2 + 1 := by
  let as : List (Action (onePair .part3)) :=
    mainSteps 3 ++ steps 7 (.inl (theProducer .part3)) ++ mainSteps 2
  have h : (as.foldlM killedStep (Run.start (onePair .part3) fun _ => none)).any
      (fun s : Run (onePair .part3) => decide (s.main = .returned ∧ s.stdout = [])) = true := by
    decide
  cases hs : as.foldlM killedStep (Run.start (onePair .part3) fun _ => none) with
  | none => rw [hs] at h; exact absurd h (by simp)
  | some s =>
    rw [hs] at h
    obtain ⟨hm, hout⟩ := of_decide_eq_true h
    have h0 : (killed (onePair .part3) fun _ => none).Reachable (.start _ fun _ => none) :=
      .start rfl
    have hstep : ∀ s a s', killedStep s a = some s' →
        (killed (onePair .part3) fun _ => none).next s s' := fun _ a _ ha => ⟨a, ha⟩
    have hr := h0.foldlM hstep hs
    have hl : IsOutput s [.writersCreated] := hout.symm
    exact ⟨s, hr, hm, (counted_killed hr hm hl).2.2⟩

end SystemProgramming.Spooler
