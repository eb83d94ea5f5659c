import Mathlib.Algebra.BigOperators.Group.Finset.Piecewise
import Mathlib.Data.Finset.Max
import SystemProgramming.Words.Processes

/-!
# The runs of `fwords`

What the processes of `fwords` come to, whatever the order of their steps. The descriptors that the
parent takes come in a row (`RowFree`).

* `fwordsMain_of_ended`: the parent ends as `fwordsMain` says, and the children too, unless the
  parent has complained about what they write.
* `ends_of_stuck`: no process is left waiting for another, and no run is endless.
* `stuck_of_gap`: a descriptor in the way can leave the parent waiting for itself.
* `report_of_stuck`: files that cannot be read are skipped.
-/

namespace SystemProgramming.Words.Fwords

open Lib

variable {S : Setting} {s s' : State S} {t : Fin S.files}

/-! ## What the parent prints -/

theorem exists_output (wclist : List WordCount) : ∃ text, output lwords wclist = some text := by
  obtain ⟨l, hl, -⟩ := lwords_lawful.sort wclist
  exact ⟨fprintWords l, by rw [output, hl]; rfl⟩

/-- A file of one word, a pipe of 8 bytes, and a text in two blocks. -/
def oneFile : Setting where
  argv := [some (bytes "ab")]
  argv_ne_nil := List.cons_ne_nil _ _
  opened := {0, 1, 2}
  std_opened := by decide
  capacity := 8
  blocks := fun _ => [bytes "       1", bytes "\tab\n"]
  flatten_blocks := by decide
  fits := by decide

theorem oneFile_rowFree : RowFree oneFile.opened oneFile.files := fun k h1 hk => by
  obtain rfl : k = 1 := Nat.le_antisymm hk h1
  decide

/-- The parent reads the first block before the second one is written. -/
theorem oneFile_run :
    ∃ s text, (system oneFile).Reachable s ∧ s.parent = .ended ⟨0, text⟩ ∧
      ∀ t, (s.child t).phase.over = true := by
  let t : Fin oneFile.files := ⟨0, Nat.one_pos⟩
  have h0 : (system oneFile).Reachable (.start oneFile) := .start rfl
  have h1 := h0.step (Step.fork t rfl)
  have h2 := h1.step (Step.forked rfl)
  have h3 := h2.step (Step.count t rfl)
  have h4 := h3.step (Step.write t _ _ rfl (Or.inl ⟨fun _ => nofun, 3, rfl⟩) (by decide))
  have h5 := h4.step (Step.read t _ (3, 4) (bytes "       1") [] rfl (by decide) ⟨rfl, rfl⟩ rfl
    (by decide))
  have h6 := h5.step (Step.write t _ _ rfl (Or.inl ⟨fun _ => nofun, 3, rfl⟩) (by decide))
  have h7 := h6.step (Step.exit t rfl)
  have h8 := h7.step (Step.read t _ (3, 4) (bytes "\tab\n") [] rfl (by decide) ⟨rfl, rfl⟩ rfl
    (by decide))
  have hover := (tables_of_reachable oneFile_rowFree h8).writeEnd_iff (t := t)
  have h9 := h8.step (Step.close t _ (3, 4) rfl ⟨rfl, rfl⟩
    (Or.inr ⟨rfl, fun hopen => absurd (hover.mp hopen) (by decide)⟩))
  obtain ⟨text, ho⟩ := exists_output [⟨bytes "ab", 1⟩]
  have h10 := h9.step (Step.print _ text rfl ho)
  refine ⟨_, text, h10, rfl, fun u => ?_⟩
  rw [show u = t from Fin.ext (Nat.lt_one_iff.mp u.isLt)]
  rfl

/-- What child `t` may still do, once it is born, and the bytes that are still in its pipe. -/
def childRank (S : Setting) (t : Fin S.files) (p : ChildProcess) : Nat :=
  p.pipe.length + match p.phase with
  | .counting => 2 * (text S t).length + (S.blocks t).length + 2
  | .writing blocks => 2 * blocks.flatten.length + blocks.length + 1
  | _ => 0

/-- What the children from `k` on will do. -/
def unbornRank (S : Setting) (k : Nat) : Nat :=
  ∑ t : Fin S.files, if k ≤ t then 2 * (text S t).length + (S.blocks t).length + 3 else 0

/-- What the parent may still do, and the children that are not born. -/
def parentRank (S : Setting) : ParentPhase → Nat
  | .forking k => unbornRank S k + (S.files + 3)
  | .merging t _ => S.files - t + 2
  | .ended _ => 0

/-- **The rank** of a state. -/
def rank (s : State S) : Nat := parentRank S s.parent + ∑ t, childRank S t (s.child t)

/-- Moving one child changes the sum by what it changes for the child. -/
theorem sum_goto (s : State S) (t : Fin S.files) (p : ChildProcess) :
    ∑ u, childRank S u ((s.goto t p).child u) + childRank S t (s.child t) =
      ∑ u, childRank S u (s.child u) + childRank S t p := by
  have := sum_change (f := fun u => childRank S u (s.child u))
    (g := fun u => childRank S u ((s.goto t p).child u)) (t := t)
    fun u hu => by rw [goto_child_of_ne s hu]
  rwa [goto_child_self] at this

/-- Child `t` is the first of those that are not born. -/
theorem unbornRank_succ (S : Setting) (t : Fin S.files) :
    unbornRank S (t + 1) + (2 * (text S t).length + (S.blocks t).length + 3) = unbornRank S t := by
  have := sum_change (f := fun u : Fin S.files =>
      if (t : Nat) ≤ u then 2 * (text S u).length + (S.blocks u).length + 3 else 0)
    (g := fun u => if (t : Nat) + 1 ≤ u then
      2 * (text S u).length + (S.blocks u).length + 3 else 0) (t := t)
    fun u hu => by
      have hut : (u : Nat) ≠ t := fun h => hu (Fin.ext h)
      have hiff : (t : Nat) + 1 ≤ u ↔ (t : Nat) ≤ u := by omega
      simp only [hiff]
  simp only [if_pos (Nat.le_refl _), if_neg (Nat.not_succ_le_self _), Nat.add_zero] at this
  exact this

/-- A step of a child that lowers its rank lowers the rank. -/
theorem rank_goto {p : ChildProcess} (h : childRank S t p < childRank S t (s.child t)) :
    rank (s.goto t p) < rank s := by
  have := sum_goto s t p
  unfold rank
  show parentRank S s.parent + _ < _
  omega

/-- **Every step lowers the rank.** -/
theorem rank_lt (hs : Step s s') : rank s' < rank s := by
  cases hs with
  | fork t hp =>
    have hsum := sum_goto s t ⟨.counting, [], [], childTable t s.table⟩
    have hunborn := unbornRank_succ S t
    have hnew : childRank S t ⟨.counting, [], [], childTable t s.table⟩ =
        2 * (text S t).length + (S.blocks t).length + 2 := Nat.zero_add _
    unfold rank
    rw [hp]
    show unbornRank S (t + 1) + _ + ∑ u, childRank S u ((s.goto t _).child u) <
      unbornRank S t + _ + _
    omega
  | forked hp =>
    unfold rank
    rw [hp]
    simp only [parentRank]
    omega
  | count t hc =>
    refine rank_goto ?_
    have : (S.blocks t).flatten.length = (text S t).length := by rw [S.flatten_blocks]; rfl
    unfold childRank
    rw [hc]
    simp only [this]
    omega
  | write t b bs hc hr hroom =>
    refine rank_goto ?_
    unfold childRank
    rw [hc]
    simp only [List.flatten_cons, List.length_append, List.length_cons]
    omega
  | signal t b bs hc hr =>
    refine rank_goto ?_
    unfold childRank
    rw [hc]
    simp only
    omega
  | exit t hc =>
    refine rank_goto ?_
    unfold childRank
    rw [hc]
    simp only
    omega
  | read t reader fd chunk rest hp hf hfd hpipe hne =>
    have hchunk := List.length_pos_iff.mpr hne
    have hlower : rank (s.goto t { s.child t with pipe := rest }) < rank s := by
      refine rank_goto ?_
      unfold childRank
      rw [hpipe]
      simp only [List.length_append]
      omega
    unfold rank at hlower ⊢
    have hsame : (s.goto t { s.child t with pipe := rest }).parent = .merging t reader := hp
    rw [hsame, hp] at hlower
    rw [hp]
    exact hlower
  | close t reader fd hp hfd hend =>
    unfold rank
    rw [hp]
    simp only [parentRank]
    omega
  | print reader text hp ho =>
    unfold rank
    rw [hp]
    simp only [parentRank]
    omega

/-- A child that has not ended can go on, if there is room for what it writes. -/
theorem exists_step_of_child (hborn : (s.child t).phase ≠ .unborn)
    (hover : (s.child t).phase.over = false)
    (hroom : ∀ b bs, (s.child t).phase = .writing (b :: bs) → s.IsOpen (.readEnd t) →
      (s.child t).pipe.length + b.length ≤ S.capacity) : ∃ s', Step s s' := by
  cases hc : (s.child t).phase with
  | unborn => exact absurd hc hborn
  | counting => exact ⟨_, .count t hc⟩
  | writing blocks =>
    cases blocks with
    | nil => exact ⟨_, .exit t hc⟩
    | cons b bs =>
      by_cases hr : s.IsOpen (.readEnd t)
      · exact ⟨_, .write t b bs hc hr (hroom b bs hc hr)⟩
      · exact ⟨_, .signal t b bs hc hr⟩
  | ended st => exact absurd hover (by rw [hc]; simp [ChildPhase.over])
  | killed => exact absurd hover (by rw [hc]; simp [ChildPhase.over])

/-- **The parent or its child can go on** while the parent merges. -/
theorem exists_step_of_merging {k : Nat} {reader : Reader} (h : Inv s) (htables : Tables s)
    (hrow : RowFree S.opened S.files) (hp : s.parent = .merging k reader) : ∃ s', Step s s' := by
  obtain ⟨got, hparent, hchild⟩ := h
  rw [ParentOk, hp] at hparent
  obtain ⟨hk, -, -, -, hborn⟩ := hparent
  rcases Nat.lt_or_eq_of_le hk with hlt | rfl
  · obtain ⟨t, rfl⟩ : ∃ t : Fin S.files, (t : Nat) = k := ⟨⟨k, hlt⟩, rfl⟩
    have hm : s.merged = t := by rw [State.merged, hp]
    obtain ⟨fd, hfd⟩ := htables.fd_eq hrow hp
    by_cases hf : reader.place = .failed
    · exact ⟨_, .close t reader fd hp hfd (Or.inl hf)⟩
    · by_cases hpipe : (s.child t).pipe = []
      · by_cases hover : (s.child t).phase.over = true
        · refine ⟨_, .close t reader fd hp hfd (Or.inr ⟨hpipe, ?_⟩)⟩
          rw [htables.writeEnd_iff]
          exact not_alive_of_over hover
        · refine exists_step_of_child (hborn t) (by simpa using hover) fun b bs hc _ => ?_
          rw [hpipe, List.length_nil, Nat.zero_add]
          exact (hchild t).fits _ hc b List.mem_cons_self
      · exact ⟨_, .read t reader fd _ [] hp hf hfd (List.append_nil _).symm hpipe⟩
  · obtain ⟨text, ho⟩ := exists_output reader.wclist
    exact ⟨_, .print reader text hp ho⟩

/-- **The last child can go on** when the parent has ended: nobody has the read end of its pipe. -/
theorem exists_step_of_ended {exit : Exit} (h : Inv s) (htables : Tables s)
    (hrow : RowFree S.opened S.files) (hp : s.parent = .ended exit)
    (hrun : ∃ t, (s.child t).phase.over = false) : ∃ s', Step s s' := by
  obtain ⟨got, hparent, -⟩ := h
  rw [ParentOk, hp] at hparent
  obtain ⟨-, -, -, hborn⟩ := hparent
  have hm : s.merged = S.files := by rw [State.merged, hp]
  obtain ⟨t₀, ht₀⟩ := hrun
  obtain ⟨t, ht, hlast⟩ := Finset.exists_max_image
    (Finset.univ.filter fun t => (s.child t).phase.over = false) (fun t => (t : Nat))
    ⟨t₀, Finset.mem_filter.mpr ⟨Finset.mem_univ t₀, ht₀⟩⟩
  refine exists_step_of_child (hborn t) (Finset.mem_filter.mp ht).2 fun b bs _ hr => ?_
  rcases (htables.readEnd_iff hrow (hborn t)).mp hr with hle | ⟨u, hu, halive⟩
  · exact absurd hle (by rw [hm]; omega)
  · refine absurd hu (Nat.not_lt_of_le (hlast u (Finset.mem_filter.mpr ⟨Finset.mem_univ u, ?_⟩)))
    exact Bool.eq_false_iff.mpr fun hover => not_alive_of_over hover halive

/-- Where no process can take a step, all have ended. -/
theorem over_of_stuck (h : Inv s) (htables : Tables s) (hrow : RowFree S.opened S.files)
    (hstuck : ∀ s', ¬ Step s s') :
    (∃ exit, s.parent = .ended exit) ∧ ∀ t, (s.child t).phase.over = true := by
  have hno : ¬ ∃ s', Step s s' := fun hex => hstuck _ hex.choose_spec
  cases hp : s.parent with
  | forking k =>
    obtain ⟨got, hparent, -⟩ := h
    rw [ParentOk, hp] at hparent
    rcases Nat.lt_or_eq_of_le hparent.1 with hlt | rfl
    · exact absurd ⟨_, .fork ⟨k, hlt⟩ hp⟩ hno
    · exact absurd ⟨_, .forked hp⟩ hno
  | merging k reader => exact absurd (exists_step_of_merging h htables hrow hp) hno
  | ended exit =>
    refine ⟨⟨exit, rfl⟩, fun t => ?_⟩
    by_contra hover
    exact hno (exists_step_of_ended h htables hrow hp ⟨t, by simpa using hover⟩)

/-- Where all have ended, no process can take a step. -/
theorem stuck_of_over {exit : Exit} (hp : s.parent = .ended exit)
    (hover : ∀ t, (s.child t).phase.over = true) (s' : State S) : ¬ Step s s' := by
  have hphase : ∀ {t phase}, (s.child t).phase = phase → phase.over = true :=
    fun {t phase} h => h ▸ hover t
  intro hs
  cases hs with
  | fork t hp' => exact absurd (hp.symm.trans hp') (by simp)
  | forked hp' => exact absurd (hp.symm.trans hp') (by simp)
  | count t hc => exact absurd (hphase hc) (by simp [ChildPhase.over])
  | write t b bs hc _ _ => exact absurd (hphase hc) (by simp [ChildPhase.over])
  | signal t b bs hc _ => exact absurd (hphase hc) (by simp [ChildPhase.over])
  | exit t hc => exact absurd (hphase hc) (by simp [ChildPhase.over])
  | read t reader fd chunk rest hp' _ _ _ _ => exact absurd (hp.symm.trans hp') (by simp)
  | close t reader fd hp' _ _ => exact absurd (hp.symm.trans hp') (by simp)
  | print reader text hp' _ => exact absurd (hp.symm.trans hp') (by simp)

/-- **Every process ends.** There is no endless run of `fwords`. If the descriptors come in a row,
the parent and all children have ended in a state where no process can take a step: nobody waits for
room in a pipe that is no longer read, or for the end of a pipe that somebody still has open. -/
theorem ends_of_stuck (S : Setting) (hrow : RowFree S.opened S.files) :
    (WellFounded fun s' s : State S => (system S).next s s') ∧
      ∀ s, (system S).Reachable s → (∀ s', ¬ (system S).next s s') →
        (∃ exit, s.parent = .ended exit) ∧ ∀ t, (s.child t).phase.over = true :=
  ⟨System.wellFounded_of_rank rank fun _ _ hs => rank_lt hs, fun _ hr hstuck =>
    over_of_stuck (inv_of_reachable hrow hr) (tables_of_reachable hrow hr) hrow hstuck⟩

/-- One file, with three descriptors open. -/
theorem ends_of_stuck_oneFile : ∃ s, (system oneFile).Reachable s ∧
    (∃ exit, s.parent = .ended exit) ∧ ∀ t, (s.child t).phase.over = true := by
  obtain ⟨s, text, hr, hp, hover⟩ := oneFile_run
  exact ⟨s, hr, (ends_of_stuck oneFile oneFile_rowFree).2 s hr (stuck_of_over hp hover)⟩

/-- The same file, with descriptor 4 open too. -/
def gapFile : Setting := { oneFile with opened := {0, 1, 2, 4}, std_opened := by decide }

/-- **With a descriptor in the way** the parent waits for ever: after the `fork` it closes 4, and
the write end 5 stays open. -/
theorem stuck_of_gap : ∃ s, (system gapFile).Reachable s ∧ (∀ s', ¬ (system gapFile).next s s') ∧
    ∀ exit, s.parent ≠ .ended exit := by
  let t : Fin gapFile.files := ⟨0, Nat.one_pos⟩
  have h0 : (system gapFile).Reachable (.start gapFile) := .start rfl
  have h1 := h0.step (Step.fork t rfl)
  have h2 := h1.step (Step.forked rfl)
  have h3 := h2.step (Step.count t rfl)
  have h4 := h3.step (Step.write t _ _ rfl (Or.inl ⟨fun _ => nofun, 3, rfl⟩) (by decide))
  have h5 := h4.step (Step.read t _ (3, 5) (bytes "       1") [] rfl (by decide) ⟨rfl, rfl⟩ rfl
    (by decide))
  have h6 := h5.step (Step.write t _ _ rfl (Or.inl ⟨fun _ => nofun, 3, rfl⟩) (by decide))
  have h7 := h6.step (Step.exit t rfl)
  have h8 := h7.step (Step.read t _ (3, 5) (bytes "\tab\n") [] rfl (by decide) ⟨rfl, rfl⟩ rfl
    (by decide))
  refine ⟨_, h8, fun s' hs => ?_, fun _ => nofun⟩
  have honly : ∀ u : Fin gapFile.files, u = t := fun u => Fin.ext (Nat.lt_one_iff.mp u.isLt)
  cases hs with
  | fork u hp => exact nomatch hp
  | forked hp => exact nomatch hp
  | count u hc => rw [honly u] at hc; exact nomatch hc
  | write u b bs hc _ _ => rw [honly u] at hc; exact nomatch hc
  | signal u b bs hc _ => rw [honly u] at hc; exact nomatch hc
  | exit u hc => rw [honly u] at hc; exact nomatch hc
  | read u reader fd chunk rest _ _ _ hpipe hne =>
    rw [honly u] at hpipe
    exact hne (List.append_eq_nil_iff.mp hpipe.symm).1
  | close u reader fd hp _ hend =>
    obtain ⟨-, rfl⟩ := ParentPhase.merging.inj hp
    rcases hend with hfailed | ⟨-, hclosed⟩
    · exact absurd hfailed (by decide)
    · rw [honly u] at hclosed
      exact hclosed (Or.inl ⟨fun _ => nofun, 5, rfl⟩)
  | print reader text hp _ => exact absurd (ParentPhase.merging.inj hp).1 (by decide)

/-! ## Files that cannot be read -/

/-- What the parent merges of a child, whether or not the child could read its file. -/
theorem mergeCounts_childOf {f : Option Stream}
    (hshort : ∀ g ∈ f, ∀ word, (wordsOf g).count word < 10 ^ 8) (wclist : List WordCount) :
    (mergeCounts true wclist (childOf f).pipe).stderr = [] ∧
      ∀ g, Tallies wclist g → Tallies (mergeCounts true wclist (childOf f).pipe).wclist
        (g + occ (f.elim [] wordsOf)) := by
  cases f with
  | none =>
    show (mergeCounts true wclist []).stderr = [] ∧ _
    rw [show (childOf none).pipe = [] from rfl, mergeCounts_nil]
    exact ⟨rfl, fun g hg => by simpa using hg⟩
  | some f =>
    show (mergeCounts true wclist (fprintWords (childCounts f))).stderr = [] ∧ _
    rw [show (childOf (some f)).pipe = fprintWords (childCounts f) from rfl,
      mergeCounts_child (hshort f rfl)]
    exact ⟨rfl, fun g hg => addCounts_tally (childCounts_tally f) hg⟩

/-- The merging loop adds up the counts of the files that can be read. -/
theorem mergeChildren_readable {argv : List (Option Stream)}
    (hshort : ∀ f, some f ∈ argv → ∀ word, (wordsOf f).count word < 10 ^ 8)
    {wclist : List WordCount} {g : Str → ℤ} (hw : Tallies wclist g) :
    ∃ l, mergeChildren wclist (argv.map childOf) = (l, []) ∧
      Tallies l (g + occ ((argv.filterMap id).flatMap wordsOf)) := by
  induction argv generalizing wclist g with
  | nil => exact ⟨wclist, rfl, by simpa using hw⟩
  | cons f argv ih =>
    obtain ⟨herr, htally⟩ := mergeCounts_childOf (f := f)
      (fun f' hf' => hshort f' (by rw [Option.mem_def.mp hf']; exact List.mem_cons_self)) wclist
    obtain ⟨l, hl, ht⟩ := ih (fun f' hf' => hshort f' (List.mem_cons_of_mem f hf')) (htally g hw)
    refine ⟨l, ?_, ?_⟩
    · rw [List.map_cons, mergeChildren]
      simp only [hl, herr, List.append_nil]
    · cases f with
      | none =>
        rw [List.filterMap_cons_none rfl]
        simpa using ht
      | some f =>
        rw [List.filterMap_cons_some (f := id) rfl, List.flatMap_cons, occ_append, ← add_assoc]
        exact ht

/-- **`fwords` skips what it cannot read.** If the descriptors come in a row, a run that cannot go
on has printed the report of the files that can be read, and the status is 0. No child has been
killed: a child ends with 2, or with 1 if it could not open its file. -/
theorem report_of_stuck (hrow : RowFree S.opened S.files)
    (hshort : ∀ f, some f ∈ S.argv → ∀ word, (wordsOf f).count word < 10 ^ 8)
    (h : (system S).Reachable s) (hstuck : ∀ s', ¬ (system S).next s s') :
    ∃ entries, s.parent = .ended ⟨0, fprintWords entries⟩ ∧
      IsReport (occ ((S.argv.filterMap id).flatMap wordsOf)) entries ∧ s.stderr = [] ∧
      ∀ t, (s.child t).phase = .ended (if S.argv[t] = none then 1 else 2) := by
  have hinv := inv_of_reachable hrow h
  obtain ⟨⟨exit, hended⟩, hover⟩ := over_of_stuck hinv (tables_of_reachable hrow h) hrow hstuck
  obtain ⟨got, hparent, hchild⟩ := hinv
  rw [ParentOk, hended] at hparent
  obtain ⟨ho, hx, he, -⟩ := hparent
  obtain ⟨l, hl, ht⟩ := mergeChildren_readable hshort isTally_nil
  rw [zero_add] at ht
  obtain ⟨entries, ho', hr⟩ := output_isReport lwords_lawful ht
  rw [before_files, hl] at ho he
  obtain ⟨status, stdout⟩ := exit
  obtain rfl : status = 0 := hx
  obtain rfl : stdout = fprintWords entries := Option.some.inj (ho.symm.trans ho')
  refine ⟨entries, hended, hr, he, fun t => ?_⟩
  cases hph : (s.child t).phase with
  | ended st =>
    rw [(hchild t).status st hph]
    cases hf : S.argv[t] with
    | none => rfl
    | some f => rfl
  | killed =>
    refine absurd (mergeCounts_childOf (fun f hf => hshort f ?_) _).1 ((hchild t).killed hph).2
    exact Option.mem_def.mp hf ▸ List.getElem_mem t.isLt
  | _ => exact absurd (hover t) (by rw [hph]; simp [ChildPhase.over])

/-- One file, and its report. -/
theorem report_of_stuck_oneFile :
    ∃ (s : State oneFile) (entries : List WordCount),
      s.parent = .ended ⟨0, fprintWords entries⟩ ∧
      IsReport (occ ((oneFile.argv.filterMap id).flatMap wordsOf)) entries := by
  obtain ⟨s, text, hr, hp, hover⟩ := oneFile_run
  have hlen : (wordsOf (bytes "ab")).length < 10 ^ 8 := by decide
  obtain ⟨entries, hp', hreport, -, -⟩ := report_of_stuck oneFile_rowFree (fun f hf word => by
    obtain rfl : f = bytes "ab" := Option.some.inj (List.mem_singleton.mp hf)
    exact Nat.lt_of_le_of_lt List.count_le_length hlen) hr (stuck_of_over hp hover)
  exact ⟨s, entries, hp', hreport⟩

end SystemProgramming.Words.Fwords
