import Mathlib.Data.List.Range
import SystemProgramming.Lib.Monitor.Rank
import SystemProgramming.Spooler.Delivery

/-!
# Where the strings are

A string that a producer has inserted is in the buffer, in the hands of the one consumer that
removed it, or printed. The removals follow the order of the inserts, so a consumer prints the
strings of one producer in the order that producer made them.

`Spooler/main_killed.c` is the program without the shutdown: main returns when it has joined the
producers, and the process ends with the consumers wherever they are.

* `strings_conserved`: at every moment each inserted string is in exactly one place.
* `printed_in_order`: a consumer prints the strings of a producer in their order.
* `killed_printed`: what the killed program leaves unprinted is in the buffer or in the hands of a
  consumer.
-/

namespace SystemProgramming.Spooler

open Lib Lib.Monitor

variable {cfg : Config} {mem : Nat → Ptr Str} {s s' : Run cfg}

/-! ## What a thread has inserted or removed -/

/-- How many strings producer `p` has inserted: the finished calls, and the one whose critical
section is over. -/
def Run.begun (s : Run cfg) (p : Fin cfg.nprods) : Nat :=
  s.sent p + if (s.mon.phase (.inl p)).ran.isSome then 1 else 0

/-- The string that consumer `c` has removed and not printed. -/
def Run.held (s : Run cfg) (c : Fin cfg.ncons) : List Str :=
  match s.con c with
  | .printing str => [str]
  | _ => ((s.mon.phase (.inr c)).ran.bind fun r => removedItem (.remove, r)).toList

/-- What consumer `c` has printed, in order. -/
def Run.printed (s : Run cfg) (c : Fin cfg.ncons) : List Str :=
  (s.stdout.filter fun e => e.1 = c).map Prod.snd

theorem length_held_le (s : Run cfg) (c : Fin cfg.ncons) : (s.held c).length ≤ 1 := by
  unfold Run.held
  split
  · exact le_refl 1
  · exact Option.length_toList_le

theorem begun_le (h : (program cfg mem).Reachable s) (p : Fin cfg.nprods) :
    s.begun p ≤ cfg.nstrs := by
  have hle := (reachable_books h).sent_le p
  unfold Run.begun
  cases hp : (s.mon.phase (.inl p)).ran with
  | none => simpa using hle
  | some r =>
    -- the call is not back at its caller, so it is the insert of a string to come
    obtain ⟨o, ho⟩ : ∃ o, (s.mon.phase (.inl p)).op = some o := by
      cases hph : s.mon.phase (.inl p) <;> rw [hph] at hp <;>
        first | exact ⟨_, rfl⟩ | exact absurd hp (by simp [Phase.ran])
    have := ((reachable_calls h).producer p o ho).2
    simp only [Option.isSome_some, if_true]
    omega

/-- **The critical sections of a producer** are the inserts of its strings, in order. -/
theorem producer_calls (h : (program cfg mem).Reachable s) (p : Fin cfg.nprods) :
    (callsOf (.inl p) s.mon.log).map Prod.fst =
      (List.range (s.begun p)).map fun n => Op.insert (prodString p n) := by
  have hb := (reachable_books h).producer p
  have hop := (reachable_calls h).producer p
  rw [(reachable_wf (reachable_mon h)).calls, List.map_append, hb]
  unfold Run.begun
  cases hp : s.mon.phase (.inl p) with
  | notify o r | release o r | returned o r =>
    obtain ⟨rfl, -⟩ := hop o (by rw [hp]; rfl)
    simp [Phase.result, pending, Phase.ran, List.range_succ]
  | _ => simp [Phase.result, pending, Phase.ran]

theorem producer_inserted (h : (program cfg mem).Reachable s) (p : Fin cfg.nprods) :
    (callsOf (.inl p) s.mon.log).filterMap insertedItem =
      (List.range (s.begun p)).map (prodString p) := by
  calc (callsOf (.inl p) s.mon.log).filterMap insertedItem
      = ((callsOf (.inl p) s.mon.log).map Prod.fst).filterMap
          fun o => insertedItem (o, .void) := by
        rw [List.filterMap_map]
        congr 1
        funext ⟨o, r⟩
        cases o <;> rfl
    _ = (List.range (s.begun p)).map (prodString p) := by
        rw [producer_calls h, List.filterMap_map]
        exact List.filterMap_eq_map ▸ rfl

theorem producer_removed (h : (program cfg mem).Reachable s) (p : Fin cfg.nprods) :
    (callsOf (.inl p) s.mon.log).filterMap removedItem = [] := by
  refine List.filterMap_eq_nil_iff.mpr fun e he => ?_
  obtain ⟨n, -, hn⟩ := List.mem_map.mp (producer_calls h p ▸ List.mem_map_of_mem he)
  obtain ⟨o, r⟩ := e
  obtain rfl : Op.insert _ = o := hn
  rfl

/-- The critical sections of a consumer are removals. -/
theorem consumer_calls (h : (program cfg mem).Reachable s) {c : Fin cfg.ncons}
    {e : Op Str × Ret Str} (he : e ∈ callsOf (.inr c) s.mon.log) : e.1 = .remove := by
  rw [(reachable_wf (reachable_mon h)).calls] at he
  rcases List.mem_append.mp he with he | he
  · exact (reachable_books h).removes c e he
  · have hop := (reachable_calls h).consumer c
    cases hp : s.mon.phase (.inr c) with
    | notify o r | release o r =>
      rw [hp] at he
      rw [List.mem_singleton.mp he]
      exact (hop o (by rw [hp]; rfl)).1
    | _ => rw [hp] at he; exact absurd he List.not_mem_nil

theorem consumer_inserted (h : (program cfg mem).Reachable s) (c : Fin cfg.ncons) :
    (callsOf (.inr c) s.mon.log).filterMap insertedItem = [] := by
  refine List.filterMap_eq_nil_iff.mpr fun e he => ?_
  obtain ⟨o, r⟩ := e
  obtain rfl : o = .remove := consumer_calls h he
  rfl

/-- **What a consumer has removed** is what it has printed and what it holds. -/
theorem consumer_removed (h : (program cfg mem).Reachable s) (c : Fin cfg.ncons) :
    (callsOf (.inr c) s.mon.log).filterMap removedItem = s.printed c ++ s.held c := by
  have hb := (reachable_books h).consumer c
  have hop := (reachable_calls h).consumer c
  rw [(reachable_wf (reachable_mon h)).calls, List.filterMap_append, hb, List.append_assoc]
  show s.printed c ++ _ = _
  congr 1
  unfold Run.held
  cases hp : s.mon.phase (.inr c) with
  | idle => cases s.con c <;> rfl
  | notify o r | release o r | returned o r =>
    obtain ⟨rfl, hcon⟩ := hop o (by rw [hp]; rfl)
    rw [hcon]
    cases hi : removedItem (.remove, r) <;> simp [hand, pending, Phase.result, Phase.ran, hi]
  | _ =>
    rw [(hop _ (by rw [hp]; rfl)).2]
    rfl

/-! ## Every inserted string is in one place -/

/-- The strings inserted so far. -/
def Run.begunStrings (s : Run cfg) : List Str :=
  (List.finRange cfg.nprods).flatMap fun p => (List.range (s.begun p)).map (prodString p)

theorem begunStrings_sublist (h : (program cfg mem).Reachable s) :
    s.begunStrings.Sublist (prodStrings cfg) :=
  List.Sublist.flatMap_right _ fun p _ => (List.range_sublist.mpr (begun_le h p)).map _

/-- A history, counted, is the sum of the threads' critical sections. -/
theorem count_history (log : List (Thread cfg × Op Str × Ret Str))
    (f : Op Str × Ret Str → Option Str) (x : Str) :
    (log.filterMap fun e => f e.2).count x =
      ∑ p, ((callsOf (.inl p) log).filterMap f).count x +
        ∑ c, ((callsOf (.inr c) log).filterMap f).count x := by
  rw [count_filterMap_fibres Prod.fst, Fintype.sum_sum_type]
  simp only [callsOf, List.filterMap_map]
  rfl

theorem inserted_perm (h : (program cfg mem).Reachable s) :
    (inserted s.mon.log).Perm s.begunStrings := by
  refine List.perm_iff_count.mpr fun x => ?_
  rw [inserted, count_history, Run.begunStrings, List.count_flatMap]
  simp only [producer_inserted h, consumer_inserted h, List.count_nil, Finset.sum_const_zero,
    Nat.add_zero]
  rw [Fin.sum_univ_def]
  rfl

theorem returned_perm (h : (program cfg mem).Reachable s) : (returned s.mon.log).Perm
    (s.stdout.map Prod.snd ++ (List.finRange cfg.ncons).flatMap s.held) := by
  refine List.perm_iff_count.mpr fun x => ?_
  have hprinted : (s.stdout.map Prod.snd).count x = ∑ c, (s.printed c).count x := by
    simp only [Run.printed, ← List.filterMap_eq_map]
    exact count_filterMap_fibres Prod.fst _ x _
  rw [returned, count_history, List.count_append, List.count_flatMap, hprinted]
  simp only [producer_removed h, consumer_removed h, List.count_nil, Finset.sum_const_zero,
    Nat.zero_add, List.count_append, Finset.sum_add_distrib]
  rw [Fin.sum_univ_def fun c => (s.held c).count x]
  rfl

/-- What is printed, held or stored is what has been inserted. -/
theorem placed_perm (h : (program cfg mem).Reachable s) :
    ∃ q, contents s.mon.shared = q.map some ∧ q.length ≤ cfg.bufsize ∧
      (s.stdout.map Prod.snd ++ (List.finRange cfg.ncons).flatMap s.held ++ q).Perm
        s.begunStrings := by
  have hd := ((spooler_outline cfg.build cfg.bufsize mem).holds (reachable_mon h)).data
  have hfifo := hd.fifo
  obtain ⟨q, hq, hrun⟩ := hd.queue
  rw [hq, ← List.map_append] at hfifo
  have hlog := List.map_injective_iff.mpr (Option.some_injective _) hfifo
  refine ⟨q, hq, hrun.length_le, ((returned_perm h).symm.append_right q).trans ?_⟩
  rw [hlog]
  exact inserted_perm h

/-- Producers that have terminated have inserted all their strings. -/
theorem begunStrings_of_terminated (h : (program cfg mem).Reachable s)
    (ht : ∀ p, s.terminated (.inl p) = true) : s.begunStrings = prodStrings cfg := by
  unfold Run.begunStrings prodStrings
  refine congrArg (List.flatMap · _) (funext fun p => ?_)
  have hsent := (terminated_inl.mp (ht p)).2
  have hb : s.begun p = cfg.nstrs := by
    have := begun_le h p
    unfold Run.begun at this ⊢
    omega
  rw [hb]

/-- **Every inserted string is in exactly one place**: printed, in the hands of a consumer, or in
the buffer. A consumer holds one string at most, the buffer no more than its size, and no insert
has freed a string to make room. -/
theorem strings_conserved (h : (program cfg mem).Reachable s) :
    ((s.stdout.map Prod.snd ++ (List.finRange cfg.ncons).flatMap s.held).map some ++
        contents s.mon.shared).Perm (s.begunStrings.map some) ∧
      s.begunStrings.Nodup ∧ s.begunStrings.Sublist (prodStrings cfg) ∧
      (∀ c, (s.held c).length ≤ 1) ∧ (contents s.mon.shared).length ≤ cfg.bufsize ∧
      s.mon.shared.freed = [] := by
  have hd := ((spooler_outline cfg.build cfg.bufsize mem).holds (reachable_mon h)).data
  obtain ⟨q, hq, hlen, hperm⟩ := placed_perm h
  refine ⟨?_, (begunStrings_sublist h).nodup (prodStrings_nodup cfg), begunStrings_sublist h,
    length_held_le s, ?_, hd.freed⟩
  · rw [hq, ← List.map_append]
    exact hperm.map some
  · rw [hq, List.length_map]
    exact hlen

/-- The producer's string is on its way: the consumer has removed it and not printed it. -/
theorem strings_conserved_onePair :
    ∃ s : Run (onePair .part3), (program (onePair .part3) fun _ => none).Reachable s ∧
      s.held (theConsumer .part3) = [prodString 0 0] ∧ s.stdout = [] ∧
        (s.begunStrings).Nodup := by
  obtain ⟨s, hr, hs⟩ := reachable_of_any (fun _ => none) (AnyStep _)
    (mainSteps 3 ++ steps 7 (.inl (theProducer .part3)) ++ steps 7 (.inr (theConsumer .part3)))
    (p := fun s => s.held (theConsumer .part3) = [prodString 0 0] ∧ s.stdout = []) (by decide)
  obtain ⟨hheld, hout⟩ := of_decide_eq_true hs
  exact ⟨s, hr.of_restrict, hheld, hout, (strings_conserved hr.of_restrict).2.1⟩

/-! ## The order of one producer's strings -/

/-- The strings of producer `p`, in the order it makes them. -/
def stringsOf (cfg : Config) (p : Fin cfg.nprods) : List Str :=
  (List.range cfg.nstrs).map (prodString p)

/-- A string of one producer is not a string of another. -/
theorem producer_of_mem {p q : Fin cfg.nprods} {n : Nat} (hn : n < cfg.nstrs)
    (h : prodString q n ∈ stringsOf cfg p) : q = p := by
  obtain ⟨m, hm, he⟩ := List.mem_map.mp h
  have hm := List.mem_range.mp hm
  have h1 := cfg.nthreads_le
  have h2 := cfg.nstrs_le
  exact Fin.ext (prodString_injective (by omega) (by omega) (by omega) (by omega) he).1.symm

/-- Filtering the items of a history by a property that only the events of one key have. -/
theorem filter_filterMap_of_key {β γ : Type} (key : β → Prop) [DecidablePred key]
    {f : β → Option γ} {P : γ → Prop} [DecidablePred P] {l : List β}
    (h : ∀ e ∈ l, ∀ x, f e = some x → (P x ↔ key e)) :
    (l.filterMap f).filter (fun x => P x) = (l.filter fun e => key e).filterMap f := by
  induction l with
  | nil => rfl
  | cons e l ih =>
    have ih := ih fun e' he' => h e' (List.mem_cons_of_mem e he')
    cases hf : f e with
    | none =>
      rw [List.filterMap_cons_none hf, ih]
      by_cases hk : key e
      · rw [List.filter_cons_of_pos (by simpa using hk), List.filterMap_cons_none hf]
      · rw [List.filter_cons_of_neg (by simpa using hk)]
    | some x =>
      have hP := h e List.mem_cons_self x hf
      rw [List.filterMap_cons_some hf]
      by_cases hk : key e
      · rw [List.filter_cons_of_pos (by simpa using hP.mpr hk), ih,
          List.filter_cons_of_pos (by simpa using hk), List.filterMap_cons_some hf]
      · rw [List.filter_cons_of_neg (by simpa using mt hP.mp hk), ih,
          List.filter_cons_of_neg (by simpa using hk)]

/-- **The strings of `p` among all inserted** are the first strings that `p` makes. -/
theorem inserted_filter (h : (program cfg mem).Reachable s) (p : Fin cfg.nprods) :
    (inserted s.mon.log).filter (fun str => str ∈ stringsOf cfg p) =
      (List.range (s.begun p)).map (prodString p) := by
  rw [inserted, filter_filterMap_of_key fun e => e.1 = .inl p, ← producer_inserted h,
    callsOf, List.filterMap_map]
  · rfl
  intro e he x hx
  obtain ⟨t, e⟩ := e
  have hmem : e ∈ callsOf t s.mon.log :=
    List.mem_map.mpr ⟨(t, e), List.mem_filter.mpr ⟨he, by simp⟩, rfl⟩
  cases t with
  | inl q =>
    obtain ⟨n, hn, rfl⟩ : ∃ n < s.begun q, prodString q n = x := by
      have : x ∈ (callsOf (.inl q) s.mon.log).filterMap insertedItem :=
        List.mem_filterMap.mpr ⟨e, hmem, hx⟩
      rw [producer_inserted h] at this
      obtain ⟨n, hn, hx⟩ := List.mem_map.mp this
      exact ⟨n, List.mem_range.mp hn, hx⟩
    have hlt : n < cfg.nstrs := lt_of_lt_of_le hn (begun_le h q)
    constructor
    · intro hP
      rw [producer_of_mem hlt hP]
    · intro hq
      obtain rfl := Sum.inl.inj hq
      exact List.mem_map.mpr ⟨n, List.mem_range.mpr hlt, rfl⟩
  | inr c =>
    obtain ⟨o, r⟩ := e
    obtain rfl : o = .remove := consumer_calls h hmem
    exact absurd hx (by simp [insertedItem])

/-- What a consumer has printed was removed in this order. -/
theorem printed_sublist (h : (program cfg mem).Reachable s) (c : Fin cfg.ncons) :
    (s.printed c).Sublist (inserted s.mon.log) := by
  have hd := ((spooler_outline cfg.build cfg.bufsize mem).holds (reachable_mon h)).data
  have hfifo := hd.fifo
  obtain ⟨q, hq, -⟩ := hd.queue
  rw [hq, ← List.map_append] at hfifo
  have hremoved : (s.printed c).Sublist ((callsOf (.inr c) s.mon.log).filterMap removedItem) := by
    rw [consumer_removed h]
    exact List.sublist_append_left _ _
  have hreturned : ((callsOf (.inr c) s.mon.log).filterMap removedItem).Sublist
      (returned s.mon.log) := by
    rw [callsOf, List.filterMap_map]
    exact List.filter_sublist.filterMap _
  rw [← List.map_injective_iff.mpr (Option.some_injective _) hfifo]
  exact hremoved.trans (hreturned.trans (List.sublist_append_left _ _))

/-- **A consumer prints the strings of a producer in the order the producer makes them**, each
once at most. -/
theorem printed_in_order (h : (program cfg mem).Reachable s) (c : Fin cfg.ncons)
    (p : Fin cfg.nprods) :
    ((s.printed c).filter fun str => str ∈ stringsOf cfg p).Sublist (stringsOf cfg p) := by
  refine ((printed_sublist h c).filter _).trans ?_
  rw [inserted_filter h]
  exact (List.range_sublist.mpr (begun_le h p)).map _

/-- The consumer has printed the producer's string. -/
theorem printed_in_order_onePair :
    ∃ s : Run (onePair .part3), (program (onePair .part3) fun _ => none).Reachable s ∧
      s.printed (theConsumer .part3) = [prodString 0 0] ∧
        ((s.printed (theConsumer .part3)).filter fun str =>
          str ∈ stringsOf (onePair .part3) (theProducer .part3)).Sublist
            (stringsOf (onePair .part3) (theProducer .part3)) := by
  obtain ⟨s, hr, hs⟩ := reachable_of_any (fun _ => none) (AnyStep _)
    (mainSteps 3 ++ steps 7 (.inl (theProducer .part3)) ++ steps 9 (.inr (theConsumer .part3)))
    (p := fun s => s.printed (theConsumer .part3) = [prodString 0 0]) (by decide)
  exact ⟨s, hr.of_restrict, of_decide_eq_true hs, printed_in_order hr.of_restrict _ _⟩

/-! ## Without the shutdown -/

/-- A step of main in `main_killed.c`: `run_threads` ends with the joins of the producers. -/
def killedMainStep (s : Run cfg) : Option (Run cfg) :=
  match s.main with
  | .create _ => mainStep s
  | .joinProds i => if i < cfg.nprods then mainStep s else some { s with main := .returned }
  | _ => none

/-- The program of `main_killed.c`. When main returns, the process ends with all its threads. -/
def killedStep (s : Run cfg) (a : Action cfg) : Option (Run cfg) :=
  match s.main, a with
  | .returned, _ => none
  | _, .main => killedMainStep s
  | _, a => step s a

/-- The runs of `main_killed.c`. -/
def killed (cfg : Config) (mem : Nat → Ptr Str) : System (Run cfg) where
  init := fun s => s = .start cfg mem
  next := fun s s' => ∃ a, killedStep s a = some s'

/-- A step of a worker leaves main where it is. -/
theorem main_of_step {a : Action cfg} (ha : a ≠ .main) (h : step s a = some s') :
    s'.main = s.main := by
  cases a with
  | main => exact absurd rfl ha
  | spurious t =>
    simp only [step] at h
    split at h
    · obtain rfl := Option.some.inj h
      rfl
    · exact absurd h (by simp)
  | worker t w =>
    have h : workerStep s t w = some s' := h
    unfold workerStep at h
    split at h
    · split_ifs at h
      cases t with
      | inl p =>
        simp only at h
        split_ifs at h
        obtain rfl := Option.some.inj h
        rfl
      | inr c =>
        simp only at h
        split at h
        · obtain rfl := Option.some.inj h
          rfl
        · obtain rfl := Option.some.inj h
          rfl
        · exact absurd h (by simp)
    · cases t <;> obtain rfl := Option.some.inj h <;> rfl
    · obtain ⟨m, -, rfl⟩ := Option.map_eq_some_iff.mp h
      rfl

/-- **A killed run is a run of the program up to the joins**, and then main returns. -/
theorem reachable_killed (h : (killed cfg mem).Reachable s) :
    ((program cfg mem).Reachable s ∧ s.main ≠ .returned) ∨
      ∃ s₀ i, (program cfg mem).Reachable s₀ ∧ s₀.main = .joinProds i ∧ cfg.nprods ≤ i ∧
        s = { s₀ with main := .returned } := by
  refine System.invariant (I := fun s => ((program cfg mem).Reachable s ∧ s.main ≠ .returned) ∨
    ∃ s₀ i, (program cfg mem).Reachable s₀ ∧ s₀.main = .joinProds i ∧ cfg.nprods ≤ i ∧
      s = { s₀ with main := .returned }) (fun s hs => ?_) (fun s s' _ ih hn => ?_) h
  · obtain rfl : s = .start cfg mem := hs
    exact Or.inl ⟨.start rfl, by simp [Run.start]⟩
  obtain ⟨a, ha⟩ := hn
  rcases ih with ⟨hr, hm⟩ | ⟨s₀, i, -, -, -, rfl⟩
  swap
  · simp [killedStep] at ha
  by_cases hmain : a = .main
  · subst hmain
    have ha : killedMainStep s = some s' := by
      unfold killedStep at ha
      split at ha
      · exact absurd ‹_› hm
      · exact ha
      · exact absurd rfl ‹_›
    unfold killedMainStep at ha
    split at ha
    · rename_i i hi
      refine Or.inl ⟨hr.step ⟨.main, ha⟩, ?_⟩
      unfold mainStep at ha
      rw [hi] at ha
      simp only at ha
      split_ifs at ha <;> obtain rfl := Option.some.inj ha <;> simp
    · rename_i i hi
      split_ifs at ha with hlt
      · refine Or.inl ⟨hr.step ⟨.main, ha⟩, ?_⟩
        unfold mainStep at ha
        rw [hi] at ha
        simp only [if_pos hlt] at ha
        split_ifs at ha
        obtain rfl := Option.some.inj ha
        simp
      · exact Or.inr ⟨s, i, hr, hi, Nat.le_of_not_lt hlt, (Option.some.inj ha).symm⟩
    · exact absurd ha (by simp)
  · have ha : step s a = some s' := by
      unfold killedStep at ha
      split at ha
      · exact absurd ‹_› hm
      · exact absurd rfl hmain
      · exact ha
    exact Or.inl ⟨hr.step ⟨a, ha⟩, by rwa [main_of_step hmain ha]⟩

theorem length_prodStrings (cfg : Config) :
    (prodStrings cfg).length = cfg.nprods * cfg.nstrs := by
  unfold prodStrings
  simp [List.length_flatMap]

/-- **What the killed program has printed** when it ends: strings of the producers, none twice,
and all of them but for a full buffer and one string in the hands of each consumer. -/
theorem killed_printed (h : (killed cfg mem).Reachable s) (hm : s.main = .returned) :
    (s.stdout.map Prod.snd).Nodup ∧ (∀ str ∈ s.stdout.map Prod.snd, str ∈ prodStrings cfg) ∧
      cfg.nprods * cfg.nstrs ≤ s.stdout.length + cfg.bufsize + cfg.ncons := by
  rcases reachable_killed h with ⟨-, hne⟩ | ⟨s₀, i, hr, hi, hle, rfl⟩
  · exact absurd hm hne
  show (s₀.stdout.map Prod.snd).Nodup ∧ _ ∧ _ ≤ s₀.stdout.length + _ + _
  obtain ⟨q, -, hq, hperm⟩ := placed_perm hr
  rw [begunStrings_of_terminated hr fun p =>
    (reachable_order hr).joined p (by rw [hi]; exact decide_eq_true (by omega))] at hperm
  have hprinted : (s₀.stdout.map Prod.snd).Sublist
      (s₀.stdout.map Prod.snd ++ (List.finRange cfg.ncons).flatMap s₀.held ++ q) :=
    (List.sublist_append_left _ _).trans (List.sublist_append_left _ _)
  have hheld : ((List.finRange cfg.ncons).flatMap s₀.held).length ≤ cfg.ncons := by
    rw [List.length_flatMap]
    refine (List.sum_le_card_nsmul _ 1 fun k hk => ?_).trans_eq (by simp)
    obtain ⟨c, -, rfl⟩ := List.mem_map.mp hk
    exact length_held_le s₀ c
  have := hperm.length_eq
  rw [length_prodStrings, List.length_append, List.length_append, List.length_map] at this
  exact ⟨hprinted.nodup (hperm.nodup_iff.mpr (prodStrings_nodup cfg)),
    fun str hstr => hperm.mem_iff.mp (hprinted.subset hstr), by omega⟩

end SystemProgramming.Spooler
