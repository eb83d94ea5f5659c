import Mathlib.Data.List.Chain
import Mathlib.Data.List.Nodup
import Mathlib.Logic.Function.Basic

/-!
# Links

Places that point at each other, as the elements of a doubly linked list do. A list of places is
`Chained` if each two neighbours point at each other, and `join a b` is the pair of writes that
makes `a` and `b` neighbours.

* `Chained.append_join`: joining the last place of a chain to the first of another one.
* `Chained.insert`, `Chained.remove`, `Chained.splice`: the chains that two, one and three joins
  make.
* `Chained.flipOn`: a chain whose places have exchanged their links, read backwards.
-/

namespace SystemProgramming.Lib

variable {ι : Type}

/-- Parts of a list without repetitions have no places in common. -/
theorem parts_disjoint {A B S C : List ι} (hnd : (A ++ B ++ S ++ C).Nodup) :
    (∀ x ∈ A, ∀ y ∈ B, x ≠ y) ∧ (∀ x ∈ A, ∀ y ∈ S, x ≠ y) ∧ (∀ x ∈ B, ∀ y ∈ S, x ≠ y) ∧
      (∀ x ∈ A, ∀ y ∈ C, x ≠ y) ∧ (∀ x ∈ B, ∀ y ∈ C, x ≠ y) ∧ ∀ x ∈ S, ∀ y ∈ C, x ≠ y := by
  simp only [List.nodup_append, List.mem_append] at hnd
  obtain ⟨⟨⟨-, -, dAB⟩, -, dS⟩, -, dC⟩ := hnd
  exact ⟨dAB, fun x hx => dS x (.inl hx), fun x hx => dS x (.inr hx),
    fun x hx => dC x (.inl (.inl hx)), fun x hx => dC x (.inl (.inr hx)),
    fun x hx => dC x (.inr hx)⟩

/-- What the places point at. -/
structure Links (ι : Type) where
  prev : ι → Option ι
  next : ι → Option ι

namespace Links

/-- `a` and `b` point at each other. -/
def Joined (k : Links ι) (a b : ι) : Prop := k.next a = some b ∧ k.prev b = some a

/-- Each two neighbours of the list point at each other. -/
def Chained (k : Links ι) (l : List ι) : Prop := l.IsChain k.Joined

variable {k : Links ι} {l m A B C S : List ι} {a b e f p q r t : ι}

theorem Chained.left (h : k.Chained (l ++ m)) : k.Chained l := h.left_of_append

theorem Chained.right (h : k.Chained (l ++ m)) : k.Chained m := h.right_of_append

/-- The places where two parts of a chain meet. -/
theorem Chained.joined (h : k.Chained (l ++ m)) (ha : a ∈ l.getLast?) (hb : b ∈ m.head?) :
    k.Joined a b := (List.isChain_append.mp h).2.2 a ha b hb

/-- A chain, in links that are the same on its places. -/
theorem Chained.congr {k' : Links ι} (h : k.Chained l)
    (hs : ∀ a ∈ l, k'.prev a = k.prev a ∧ k'.next a = k.next a) : k'.Chained l := by
  refine List.IsChain.imp_of_mem_imp (fun a b ha hb hab => ?_) h
  exact ⟨(hs a ha).2.trans hab.1, (hs b hb).1.trans hab.2⟩

variable [DecidableEq ι]

/-- The two writes that make `a` and `b` neighbours. -/
def join (k : Links ι) (a b : ι) : Links ι where
  prev := Function.update k.prev b (some a)
  next := Function.update k.next a (some b)

theorem prev_join_of_ne {x : ι} (h : x ≠ b) : (k.join a b).prev x = k.prev x :=
  Function.update_of_ne h ..

theorem next_join_of_ne {x : ι} (h : x ≠ a) : (k.join a b).next x = k.next x :=
  Function.update_of_ne h ..

theorem joined_join (k : Links ι) (a b : ι) : (k.join a b).Joined a b :=
  ⟨Function.update_self .., Function.update_self ..⟩

/-- A chain stays, if `a` may be its last place only and `b` its first. -/
theorem Chained.frame : ∀ {l : List ι}, k.Chained l → a ∉ l.dropLast → b ∉ l.tail →
    (k.join a b).Chained l
  | [], _, _, _ => .nil
  | [x], _, _, _ => .singleton x
  | x :: y :: l, h, ha, hb => by
    obtain ⟨⟨hnext, hprev⟩, hrest⟩ := List.isChain_cons_cons.mp h
    rw [List.dropLast_cons_cons, List.mem_cons, not_or] at ha
    rw [List.tail_cons, List.mem_cons, not_or] at hb
    refine List.isChain_cons_cons.mpr ⟨⟨?_, ?_⟩, Chained.frame hrest ha.2 hb.2⟩
    · exact (next_join_of_ne (Ne.symm ha.1)).trans hnext
    · exact (prev_join_of_ne (Ne.symm hb.1)).trans hprev

/-- A chain that `a` and `b` are not on. -/
theorem Chained.frame_of_not_mem (h : k.Chained l) (ha : a ∉ l) (hb : b ∉ l) :
    (k.join a b).Chained l :=
  h.frame (fun h => ha (List.dropLast_subset l h)) fun h => hb (List.mem_of_mem_tail h)

/-- **Joining two chains.** -/
theorem Chained.append_join (hl : k.Chained l) (hm : k.Chained m) (hnd : (l ++ m).Nodup)
    (ha : a ∈ l.getLast?) (hb : b ∈ m.head?) : (k.join a b).Chained (l ++ m) := by
  obtain ⟨l, rfl⟩ := List.getLast?_eq_some_iff.mp ha
  obtain ⟨m, rfl⟩ := List.head?_eq_some_iff.mp hb
  have hdisj := List.disjoint_of_nodup_append hnd
  have hal : a ∉ (l ++ [a]).dropLast := by
    rw [List.dropLast_concat]
    exact fun h => List.disjoint_of_nodup_append hnd.of_append_left h (List.mem_singleton_self a)
  have hbm : b ∉ (b :: m).tail := (List.nodup_cons.mp hnd.of_append_right).1
  have ham : a ∉ b :: m := hdisj (by simp)
  have hbl : b ∉ l ++ [a] := fun h => hdisj h (by simp)
  refine List.isChain_append.mpr ⟨hl.frame hal fun h => hbl (List.mem_of_mem_tail h),
    hm.frame (fun h => ham (List.dropLast_subset _ h)) hbm, ?_⟩
  intro x hx y hy
  obtain rfl : a = x := by simpa using hx
  obtain rfl : b = y := by simpa using hy
  exact k.joined_join a b

/-- **Inserting a place** into a chain. -/
theorem Chained.insert (h : k.Chained (A ++ C)) (hnd : (A ++ e :: C).Nodup)
    (hr : r ∈ A.getLast?) (hq : q ∈ C.head?) : ((k.join r e).join e q).Chained (A ++ e :: C) := by
  have hA : (k.join r e).Chained (A ++ [e]) :=
    h.left.append_join (.singleton e) (hnd.sublist (by simp)) hr rfl
  have hC : (k.join r e).Chained C := by
    have hr' : r ∈ A := List.mem_of_getLast? hr
    refine h.right.frame_of_not_mem ?_ (List.nodup_cons.mp hnd.of_append_right).1
    exact fun hC => List.disjoint_of_nodup_append hnd hr' (List.mem_cons_of_mem e hC)
  have hAC : ((k.join r e).join e q).Chained (A ++ [e] ++ C) :=
    hA.append_join hC (by simpa using hnd) (by simp) hq
  simpa using hAC

/-- **Removing a place** from a chain. -/
theorem Chained.remove (h : k.Chained (A ++ e :: C)) (hnd : (A ++ e :: C).Nodup)
    (hr : r ∈ A.getLast?) (hq : q ∈ C.head?) : (k.join r q).Chained (A ++ C) :=
  h.left.append_join h.right.tail (hnd.sublist (by simp)) hr hq

/-- The places of a list exchange their links. -/
def flipOn (k : Links ι) (l : List ι) : Links ι where
  prev := fun a => if a ∈ l then k.next a else k.prev a
  next := fun a => if a ∈ l then k.prev a else k.next a

/-- **A chain backwards.** -/
theorem Chained.flipOn (h : k.Chained l) : (k.flipOn l).Chained l.reverse := by
  refine List.isChain_reverse.mpr (List.IsChain.imp_of_mem_imp (fun a b ha hb hab => ?_) h)
  exact ⟨(if_pos hb).trans hab.2, (if_pos ha).trans hab.1⟩

/-- **Moving a part of a chain** to the front of the part before it. -/
theorem Chained.splice (h : k.Chained (A ++ B ++ S ++ C)) (hnd : (A ++ B ++ S ++ C).Nodup)
    (hr : r ∈ A.getLast?) (hb : b ∈ B.head?) (hp : p ∈ B.getLast?) (hf : f ∈ S.head?)
    (ht : t ∈ S.getLast?) (hq : q ∈ C.head?) :
    (((k.join p q).join r f).join t b).Chained (A ++ S ++ B ++ C) := by
  have hr' := List.mem_of_getLast? hr
  have hp' := List.mem_of_getLast? hp
  have hf' := List.mem_of_head? hf
  have hq' := List.mem_of_head? hq
  obtain ⟨dAB, dAS, dBS, dAC, dBC, dSC⟩ := parts_disjoint hnd
  have ndAS : (A ++ S).Nodup := List.nodup_append.mpr
    ⟨hnd.of_append_left.of_append_left.of_append_left, hnd.of_append_left.of_append_right, dAS⟩
  have ndBC : (B ++ C).Nodup := List.nodup_append.mpr
    ⟨hnd.of_append_left.of_append_left.of_append_right, hnd.of_append_right, dBC⟩
  -- the part behind the moved one, then the part before it, then the two
  have hBC : (k.join p q).Chained (B ++ C) := h.left.left.right.append_join h.right ndBC hp hq
  have hA : (k.join p q).Chained A :=
    h.left.left.left.frame_of_not_mem (fun hA => dAB p hA p hp' rfl) fun hA => dAC q hA q hq' rfl
  have hS : (k.join p q).Chained S :=
    h.left.right.frame_of_not_mem (fun hS => dBS p hp' p hS rfl) fun hS => dSC q hS q hq' rfl
  have hAS : ((k.join p q).join r f).Chained (A ++ S) := hA.append_join hS ndAS hr hf
  have hBC' : ((k.join p q).join r f).Chained (B ++ C) := by
    refine hBC.frame_of_not_mem (fun hm => ?_) fun hm => ?_
    · rcases List.mem_append.mp hm with hm | hm
      · exact dAB r hr' r hm rfl
      · exact dAC r hr' r hm rfl
    · rcases List.mem_append.mp hm with hm | hm
      · exact dBS f hm f hf' rfl
      · exact dSC f hf' f hm rfl
  have := hAS.append_join hBC' ?_ (a := t) (b := b) ?_ ?_
  · simpa using this
  · refine (List.Perm.nodup_iff ?_).mp hnd
    simp only [List.append_assoc]
    refine List.Perm.append_left A ?_
    simp only [← List.append_assoc]
    exact List.perm_append_comm.append_right C
  · exact List.mem_getLast?_append_of_mem_getLast? ht
  · exact List.mem_head?_append_of_mem_head? hb

end Links

end SystemProgramming.Lib
