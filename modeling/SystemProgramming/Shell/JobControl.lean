import Mathlib.Logic.Function.Basic
import SystemProgramming.Lib.Transition

/-!
# Who has the terminal

The process groups and the terminal of an interactive shell: `init_shell` has found it in the
foreground, and `main` calls `fork`, `setpgid`, `getpgid`, `tcsetpgrp`, `waitpid` and `tcsetpgrp`
again for each command, while its children and the programs that they execute take their own steps
in any order. `ignore_signal` lets the shell call `tcsetpgrp` from the background, and lets children
that end disappear at once.

Programs join the groups in `allowed`, and give the terminal to them. They call `tcsetpgrp` from the
foreground only, since `SIGTTOU` stops them else. What the shell relies on is that its own group is
not allowed, and that nobody else is in it at the start.

* `reachable_inv`: the invariant, kept by every step of the shell and of the others.
* `foreground_iff`: the shell is in the foreground exactly unless it has given the terminal away.
* `foreground_returned`: a program that is allowed to brings the shell back unnoticed.
-/

namespace SystemProgramming.Shell.JobControl

open Lib

/-- Where the shell stands: it reads lines, it is about to call `setpgid`, `getpgid` or `tcsetpgrp`
for a command, it copies its input to a lone `cat`, it waits, or it is about to take the terminal
back. `cpid` is what `fork` has returned, and `none` stands for `-1`. `given` says whether its
`tcsetpgrp` has succeeded. -/
inductive Phase
  | reading
  | forked (cpid : Option Nat)
  | placed (cpid : Option Nat)
  | giving (pgid : Option Nat)
  | copying (given : Bool)
  | waiting (given : Bool)
  | taking (given : Bool)

/-- The shell has given the terminal away. -/
def Phase.given : Phase → Bool
  | copying given | waiting given | taking given => given
  | _ => false

/-- What a process executes: the code of the shell before and behind `setpgrp`, or a program. -/
inductive Code
  | forked
  | grouped
  | program
  deriving DecidableEq

/-- The shell, the foreground group of the terminal, and the processes that exist, with their groups
and what they execute. -/
structure State where
  shell : Phase
  foreground : Nat
  group : Nat → Option Nat
  code : Nat → Code

namespace State

/-- The group has a member. -/
def HasGroup (s : State) (g : Nat) : Prop := ∃ p, s.group p = some g

/-- A number that `fork` may give to a new process. -/
def Unused (s : State) (c : Nat) : Prop := s.group c = none ∧ ¬ s.HasGroup c

/-- `setpgid(cpid, cpid)`: it fails if there is no such child, and if the child has called
`exec`. -/
def setpgid (s : State) : Option Nat → Nat → Option Nat
  | none => s.group
  | some c =>
    if s.group c ≠ none ∧ s.code c ≠ .program then Function.update s.group c (some c) else s.group

end State

variable (me home : Nat) (allowed : Nat → Prop)

/-- **A step of the shell**, whose number is `me`. -/
inductive ShellStep (s : State) : State → Prop
  | fork (c : Nat) (hs : s.shell = .reading) (hnew : s.Unused c) :
      ShellStep s { s with
        shell := .forked (some c)
        group := Function.update s.group c (s.group me)
        code := Function.update s.code c .forked }
  | forkFails (hs : s.shell = .reading) : ShellStep s { s with shell := .forked none }
  | setpgid {cpid : Option Nat} (hs : s.shell = .forked cpid) :
      ShellStep s { s with shell := .placed cpid, group := s.setpgid cpid }
  | getpgid {cpid : Option Nat} (hs : s.shell = .placed cpid) :
      ShellStep s { s with shell := .giving (cpid.bind s.group) }
  | give {g : Nat} (hs : s.shell = .giving (some g)) (hg : s.HasGroup g) :
      ShellStep s { s with shell := .copying true, foreground := g }
  | giveFails {pgid : Option Nat} (hs : s.shell = .giving pgid) (hg : ∀ g ∈ pgid, ¬ s.HasGroup g) :
      ShellStep s { s with shell := .copying false }
  | copied {given : Bool} (hs : s.shell = .copying given) :
      ShellStep s { s with shell := .waiting given }
  -- with `WUNTRACED`, `waitpid` returns when the child stops as well
  | waitpid {given : Bool} (hs : s.shell = .waiting given) :
      ShellStep s { s with shell := .taking given }
  | take {given : Bool} {g : Nat} (hs : s.shell = .taking given) (hg : s.group me = some g) :
      ShellStep s { s with shell := .reading, foreground := g }

/-- **A step of another process.** -/
inductive OtherStep (s : State) : State → Prop
  | setpgrp (c : Nat) (hc : s.group c ≠ none) (hcode : s.code c = .forked) :
      OtherStep s { s with
        group := Function.update s.group c (some c)
        code := Function.update s.code c .grouped }
  | exec (c : Nat) (hc : s.group c ≠ none) (hcode : s.code c = .grouped) :
      OtherStep s { s with code := Function.update s.code c .program }
  | exit (p : Nat) (hp : p ≠ me) : OtherStep s { s with group := Function.update s.group p none }
  | fork (p c : Nat) (hp : p ≠ me) (hex : s.group p ≠ none) (hcode : s.code p = .program)
      (hnew : s.Unused c) :
      OtherStep s { s with
        group := Function.update s.group c (s.group p)
        code := Function.update s.code c .program }
  | setpgid (p g : Nat) (hp : p ≠ me) (hex : s.group p ≠ none) (hcode : s.code p = .program)
      (hg : g = p ∨ s.HasGroup g) (hg' : allowed g) :
      OtherStep s { s with group := Function.update s.group p (some g) }
  | tcsetpgrp (p g : Nat) (hp : p ≠ me) (hcode : s.code p = .program)
      (hfore : s.group p = some s.foreground) (hg : s.HasGroup g) (hg' : allowed g) :
      OtherStep s { s with foreground := g }

/-- The shell and the other processes. At first the shell is in the foreground, and nobody else is
in its group `home`. -/
def system : System State where
  init s := s.shell = .reading ∧ s.foreground = home ∧ s.group me = some home ∧
    (∀ p, s.code p = .program) ∧ ∀ p, p ≠ me → s.group p ≠ some home
  next s s' := ShellStep me s s' ∨ OtherStep me allowed s s'

/-! ## The invariant -/

/-- What holds of each process that exists. -/
structure ProcOk (p g : Nat) (code : Code) : Prop where
  shell : p = me → g = home ∧ code = .program
  away : p ≠ me → code ≠ .forked → g ≠ home
  number : code ≠ .program → p ≠ home
  own : code = .grouped → g = p

/-- What the shell relies on. -/
def ShellOk (s : State) : Phase → Prop
  | .reading => s.foreground = home
  | .forked cpid => s.foreground = home ∧ me ∉ cpid
  | .placed cpid => s.foreground = home ∧ me ∉ cpid ∧ ∀ c ∈ cpid, s.group c ≠ some home
  | .giving pgid => s.foreground = home ∧ home ∉ pgid
  | .copying given | .waiting given | .taking given => s.foreground = home ↔ given = false

/-- **The invariant.** -/
structure Inv (s : State) : Prop where
  member : s.group me = some home
  procs : ∀ p g, s.group p = some g → ProcOk me home p g (s.code p)
  shell : ShellOk me home s s.shell

variable {me home allowed} {s s' : State}

/-- The number of a new process is neither the shell's nor that of its group. -/
theorem Inv.unused (h : Inv me home s) {c : Nat} (hc : s.Unused c) : c ≠ me ∧ c ≠ home := by
  refine ⟨?_, ?_⟩
  · rintro rfl
    exact absurd h.member (by simp [hc.1])
  · rintro rfl
    exact hc.2 ⟨me, h.member⟩

/-- A process with a new group, and maybe with new code. -/
theorem procs_update (h : ∀ p g, s.group p = some g → ProcOk me home p g (s.code p)) {c : Nat}
    {x : Option Nat} {code : Code} (hx : ∀ g, x = some g → ProcOk me home c g code) :
    ∀ p g, Function.update s.group c x p = some g →
      ProcOk me home p g (Function.update s.code c code p) := by
  intro p g hg
  by_cases hp : p = c
  · subst hp
    rw [Function.update_self] at hg ⊢
    exact hx g hg
  · rw [Function.update_of_ne hp] at hg ⊢
    exact h p g hg

/-- The same, where only the group is new. -/
theorem procs_setGroup (h : ∀ p g, s.group p = some g → ProcOk me home p g (s.code p)) {c : Nat}
    {x : Option Nat} (hx : ∀ g, x = some g → ProcOk me home c g (s.code c)) :
    ∀ p g, Function.update s.group c x p = some g → ProcOk me home p g (s.code p) := by
  have hall := procs_update h hx
  rwa [Function.update_eq_self] at hall

/-- The shell does not mind what group another process gets, as long as it is not its own. -/
theorem ShellOk.setGroup {ph : Phase} (h : ShellOk me home s ph) {c : Nat} {x : Option Nat}
    (hx : x ≠ some home) (code : Nat → Code) :
    ShellOk me home { s with group := Function.update s.group c x, code := code } ph := by
  cases ph with
  | placed cpid =>
    obtain ⟨hfore, hme, haway⟩ := h
    refine ⟨hfore, hme, fun d hd => ?_⟩
    dsimp only
    by_cases hdc : d = c
    · rw [hdc, Function.update_self]
      exact hx
    · rw [Function.update_of_ne hdc]
      exact haway d hd
  | _ => exact h

/-- From the background it does not mind which group is in the foreground, either. -/
theorem ShellOk.setForeground {ph : Phase} (h : ShellOk me home s ph) (hnot : s.foreground ≠ home)
    {g : Nat} (hg : g ≠ home) : ShellOk me home { s with foreground := g } ph := by
  cases ph with
  | reading => exact absurd h hnot
  | forked cpid => exact absurd h.1 hnot
  | placed cpid => exact absurd h.1 hnot
  | giving pgid => exact absurd h.1 hnot
  | copying given => exact ⟨fun heq => absurd heq hg, fun hgiven => absurd (h.mpr hgiven) hnot⟩
  | waiting given => exact ⟨fun heq => absurd heq hg, fun hgiven => absurd (h.mpr hgiven) hnot⟩
  | taking given => exact ⟨fun heq => absurd heq hg, fun hgiven => absurd (h.mpr hgiven) hnot⟩

/-- The child is not in the group of the shell once `setpgid` has been called for it. -/
theorem Inv.placed (h : Inv me home s) {c : Nat} (hc : c ≠ me) :
    s.setpgid (some c) c ≠ some home := by
  unfold State.setpgid
  dsimp only
  split_ifs with hchild
  · rw [Function.update_self]
    obtain ⟨g, hg⟩ := Option.ne_none_iff_exists'.mp hchild.1
    exact fun heq => (h.procs c g hg).number hchild.2 (Option.some.inj heq)
  · intro heq
    have hcode : s.code c = .program := by
      by_contra hcode
      exact hchild ⟨by simp [heq], hcode⟩
    exact (h.procs c home heq).away hc (by simp [hcode]) rfl

/-- `setpgid` moves a child into a group of its own. -/
theorem Inv.setpgid (h : Inv me home s) {c : Nat} (hc : c ≠ me) :
    s.setpgid (some c) me = some home ∧
      ∀ p g, s.setpgid (some c) p = some g → ProcOk me home p g (s.code p) := by
  unfold State.setpgid
  dsimp only
  split_ifs with hchild
  · obtain ⟨g, hg⟩ := Option.ne_none_iff_exists'.mp hchild.1
    have hok := h.procs c g hg
    refine ⟨(Function.update_of_ne hc.symm ..).trans h.member, procs_setGroup h.procs ?_⟩
    intro g' hg'
    obtain rfl := Option.some.inj hg'
    exact ⟨fun heq => absurd heq hc, fun _ _ => hok.number hchild.2, hok.number, fun _ => rfl⟩
  · exact ⟨h.member, h.procs⟩

/-- **The steps of the shell** keep the invariant. -/
theorem Inv.shellStep (h : Inv me home s) (hs : ShellStep me s s') : Inv me home s' := by
  have hshell := h.shell
  cases hs with
  | fork c hs hnew =>
    obtain ⟨hme, hhome⟩ := h.unused hnew
    rw [hs] at hshell
    refine ⟨by rw [← h.member]; exact Function.update_of_ne hme.symm .., procs_update h.procs ?_,
      hshell, by simpa using hme⟩
    intro g hg
    exact ⟨fun heq => absurd heq hme, fun _ hcode => absurd rfl hcode, fun _ => hhome,
      fun hcode => absurd hcode (by simp)⟩
  | forkFails hs =>
    rw [hs] at hshell
    exact ⟨h.member, h.procs, hshell, by simp⟩
  | @setpgid cpid hs =>
    rw [hs] at hshell
    cases cpid with
    | none => exact ⟨h.member, h.procs, hshell.1, hshell.2, by simp⟩
    | some c =>
      have hc : c ≠ me := fun heq => hshell.2 (by simp [heq])
      obtain ⟨hmember, hprocs⟩ := h.setpgid hc
      refine ⟨hmember, hprocs, hshell.1, hshell.2, fun d hd => ?_⟩
      obtain rfl := Option.some.inj hd
      exact h.placed hc
  | @getpgid cpid hs =>
    rw [hs] at hshell
    obtain ⟨hfore, -, haway⟩ := hshell
    refine ⟨h.member, h.procs, hfore, fun hmem => ?_⟩
    obtain ⟨c, hc, hg⟩ := Option.bind_eq_some_iff.mp hmem
    exact haway c hc hg
  | @give g hs hg =>
    rw [hs] at hshell
    refine ⟨h.member, h.procs, fun heq => absurd ?_ hshell.2, fun heq => absurd heq (by simp)⟩
    exact congrArg some heq
  | giveFails hs hg =>
    rw [hs] at hshell
    exact ⟨h.member, h.procs, fun _ => rfl, fun _ => hshell.1⟩
  | copied hs =>
    rw [hs] at hshell
    exact ⟨h.member, h.procs, hshell⟩
  | waitpid hs =>
    rw [hs] at hshell
    exact ⟨h.member, h.procs, hshell⟩
  | take hs hg => exact ⟨h.member, h.procs, Option.some.inj (hg.symm.trans h.member)⟩

/-- **The steps of the others** keep the invariant. -/
theorem Inv.otherStep (hhome : ¬ allowed home) (h : Inv me home s)
    (hs : OtherStep me allowed s s') : Inv me home s' := by
  have hme : s.code me = .program := ((h.procs me home h.member).shell rfl).2
  cases hs with
  | setpgrp c hc hcode =>
    obtain ⟨g, hg⟩ := Option.ne_none_iff_exists'.mp hc
    have hcm : c ≠ me := fun heq => absurd (heq ▸ hcode) (by simp [hme])
    have hnum : c ≠ home := (h.procs c g hg).number (by simp [hcode])
    refine ⟨(Function.update_of_ne hcm.symm ..).trans h.member, procs_update h.procs ?_,
      h.shell.setGroup (by simpa using hnum) _⟩
    intro g' hg'
    obtain rfl := Option.some.inj hg'
    exact ⟨fun heq => absurd heq hcm, fun _ _ => hnum, fun _ => hnum, fun _ => rfl⟩
  | exec c hc hcode =>
    have hcm : c ≠ me := fun heq => absurd (heq ▸ hcode) (by simp [hme])
    have hok : ∀ g, s.group c = some g → ProcOk me home c g .program := fun g hg =>
      ⟨fun heq => absurd heq hcm, fun _ _ => (h.procs c g hg).away hcm (by simp [hcode]),
        fun hne => absurd rfl hne, fun hgrp => absurd hgrp (by simp)⟩
    have hprocs := procs_update h.procs hok
    rw [Function.update_eq_self] at hprocs
    exact ⟨h.member, hprocs, h.shell⟩
  | exit p hp =>
    exact ⟨(Function.update_of_ne hp.symm ..).trans h.member,
      procs_setGroup h.procs fun g hg => absurd hg (by simp), h.shell.setGroup (by simp) _⟩
  | fork p c hp hex hcode hnew =>
    obtain ⟨hcm, hch⟩ := h.unused hnew
    obtain ⟨g, hg⟩ := Option.ne_none_iff_exists'.mp hex
    have hgh : g ≠ home := (h.procs p g hg).away hp (by simp [hcode])
    refine ⟨(Function.update_of_ne hcm.symm ..).trans h.member, procs_update h.procs ?_,
      h.shell.setGroup (by simpa [hg] using hgh) _⟩
    intro g' hg'
    obtain rfl := Option.some.inj (hg.symm.trans hg')
    exact ⟨fun heq => absurd heq hcm, fun _ _ => hgh, fun hne => absurd rfl hne,
      fun hcode => absurd hcode (by simp)⟩
  | setpgid p g hp hex hcode hg hg' =>
    have hgh : g ≠ home := fun heq => hhome (heq ▸ hg')
    refine ⟨(Function.update_of_ne hp.symm ..).trans h.member, procs_setGroup h.procs ?_,
      h.shell.setGroup (by simpa using hgh) _⟩
    intro g' hg'
    obtain rfl := Option.some.inj hg'
    exact ⟨fun heq => absurd heq hp, fun _ _ => hgh, fun hne => absurd hcode hne,
      fun hgrp => absurd (hcode.symm.trans hgrp) (by simp)⟩
  | tcsetpgrp p g hp hcode hfore hg hg' =>
    have hgh : g ≠ home := fun heq => hhome (heq ▸ hg')
    have hnot : s.foreground ≠ home := (h.procs p _ hfore).away hp (by simp [hcode])
    exact ⟨h.member, h.procs, h.shell.setForeground hnot hgh⟩

/-- **Every reachable state** satisfies the invariant. -/
theorem reachable_inv (hhome : ¬ allowed home) (h : (system me home allowed).Reachable s) :
    Inv me home s := by
  refine System.invariant (fun s h0 => ?_) (fun s s' _ hi hs => ?_) h
  · obtain ⟨hshell, hfore, hmember, hcode, hothers⟩ := h0
    refine ⟨hmember, fun p g hg => ?_, by rwa [hshell]⟩
    refine ⟨fun heq => ⟨?_, hcode p⟩, fun hp _ heq => hothers p hp (heq ▸ hg),
      fun hne => absurd (hcode p) hne, fun hgrp => absurd ((hcode p).symm.trans hgrp) (by simp)⟩
    rw [heq] at hg
    exact Option.some.inj (hg.symm.trans hmember)
  · rcases hs with hs | hs
    · exact hi.shellStep hs
    · exact hi.otherStep hhome hs

/-- **The shell is in the foreground** exactly unless it has given the terminal away, and so it is
whenever it reads a line, if programs leave its group alone. Every child executes its program in a
group of its own. -/
theorem foreground_iff (hhome : ¬ allowed home) (h : (system me home allowed).Reachable s) :
    (s.foreground = home ↔ s.shell.given = false) ∧
    ∀ p g, s.group p = some g → s.code p = .grouped → g = p := by
  have hi := reachable_inv hhome h
  refine ⟨?_, fun p g hg => (hi.procs p g hg).own⟩
  have hshell := hi.shell
  cases hph : s.shell with
  | reading => simpa [hph, ShellOk, Phase.given] using hshell
  | forked cpid => rw [hph] at hshell; exact ⟨fun _ => rfl, fun _ => hshell.1⟩
  | placed cpid => rw [hph] at hshell; exact ⟨fun _ => rfl, fun _ => hshell.1⟩
  | giving pgid => rw [hph] at hshell; exact ⟨fun _ => rfl, fun _ => hshell.1⟩
  | copying given => rwa [hph] at hshell
  | waiting given => rwa [hph] at hshell
  | taking given => rwa [hph] at hshell

/-- The shell alone. -/
def alone : State := ⟨.reading, 1, fun p => if p = 1 then some 1 else none, fun _ => .program⟩

/-- The shell gives the terminal to its first child, which has not taken a step. -/
theorem exists_given (allowed : Nat → Prop) : ∃ s, (system 1 1 allowed).Reachable s ∧
    s.shell = .copying true ∧ s.foreground = 2 ∧ s.group 1 = some 1 ∧ s.group 2 = some 2 ∧
      s.code 2 = .forked := by
  have h₀ : (system 1 1 allowed).Reachable alone :=
    .start ⟨rfl, rfl, rfl, fun _ => rfl, by simp [alone]⟩
  have hnew : alone.Unused 2 := ⟨rfl, fun ⟨p, hp⟩ => by
    by_cases h : p = 1 <;> simp [alone, h] at hp⟩
  have h₁ := h₀.step (.inl (.fork 2 rfl hnew))
  have h₂ := h₁.step (.inl (.setpgid rfl))
  have h₃ := h₂.step (.inl (.getpgid rfl))
  have h₄ := h₃.step (.inl (.give (g := 2) rfl ⟨2, rfl⟩))
  exact ⟨_, h₄, rfl, rfl, rfl, rfl, rfl⟩

/-- A command has been given the terminal. Programs join every group but the shell's. -/
theorem foreground_iff_command : ∃ s, (system 1 1 (· ≠ 1)).Reachable s ∧
    s.shell.given = true ∧ s.group 2 = some 2 ∧ s.foreground ≠ 1 := by
  obtain ⟨s, h, hshell, -, -, hgroup, -⟩ := exists_given (· ≠ 1)
  have hgiven : s.shell.given = true := by rw [hshell]; rfl
  exact ⟨s, h, hgiven, hgroup, fun heq =>
    absurd ((foreground_iff (fun hne => hne rfl) h).1.mp heq) (by simp [hgiven])⟩

/-- A program that is allowed to do so makes the shell's group the foreground group again, and the
shell does not know. -/
theorem foreground_returned : ∃ s, (system 1 1 fun _ => True).Reachable s ∧
    s.shell.given = true ∧ s.foreground = 1 := by
  obtain ⟨s, h, hshell, hfore, hme, hgroup, hcode⟩ := exists_given fun _ => True
  have h₁ := h.step (.inr (.setpgrp 2 (by simp [hgroup]) hcode))
  have h₂ := h₁.step (.inr (.exec 2 (by simp) (by simp)))
  have h₃ := h₂.step (.inr (.tcsetpgrp 2 1 (by decide) (by simp) (by simp [hfore])
    ⟨1, by simpa using hme⟩ trivial))
  exact ⟨_, h₃, by rw [hshell]; rfl, rfl⟩

end SystemProgramming.Shell.JobControl
