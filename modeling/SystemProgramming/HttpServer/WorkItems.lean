import Mathlib.Data.Set.Finite.Lattice
import SystemProgramming.HttpServer.Pool

/-!
# The memory of the work queue

`wq_push` allocates an item for every descriptor, and `wq_pop` frees the item it has taken out of
the list. `Owned` says who owns an allocated item: the list, or the one thread that is about to link
it or to free it.

* `IsDll.unique`: the pointers determine the list.
* `exists_owned`: in every reachable state each allocated item has an owner, so no item leaks.
* `exists_free`: with finitely many threads some address is free, so `calloc` can return one.
-/

namespace SystemProgramming.HttpServer

open Lib

/-! ## The list at a head -/

/-- **The pointers determine the list.** -/
theorem IsDll.unique {β : Type} {h : Heap β} {head : Option Addr} {xs ys : List (Addr × β)}
    (hx : IsDll h head xs) (hy : IsDll h head ys) : xs = ys := by
  have haddr : ∀ i, addr xs i = addr ys i := fun i => by
    induction i with
    | zero => rw [← hx.head_eq, ← hy.head_eq]
    | succ i ih =>
      cases hxi : xs[i]? with
      | none =>
        have hyi : ys[i]? = none := by
          rw [addr, addr, hxi, Option.map_none] at ih
          exact Option.map_eq_none_iff.mp ih.symm
        have hx := List.getElem?_eq_none (Nat.le_succ_of_le (List.getElem?_eq_none_iff.mp hxi))
        have hy := List.getElem?_eq_none (Nat.le_succ_of_le (List.getElem?_eq_none_iff.mp hyi))
        rw [addr, addr, hx, hy]
      | some p =>
        obtain ⟨a, b⟩ := p
        obtain ⟨⟨a', c⟩, hyi, rfl⟩ := Option.map_eq_some_iff.mp (ih ▸ addr_eq_some hxi)
        have hcell := (hx.cell i a' b hxi).symm.trans (hy.cell i a' c hyi)
        exact congrArg Node.next (Option.some.inj hcell)
  refine List.ext_getElem? fun i => ?_
  have hi := haddr i
  cases hxi : xs[i]? with
  | none =>
    rw [addr, addr, hxi, Option.map_none] at hi
    exact (Option.map_eq_none_iff.mp hi.symm).symm
  | some p =>
    obtain ⟨a, b⟩ := p
    obtain ⟨⟨a', c⟩, hyi, rfl⟩ := Option.map_eq_some_iff.mp (hi ▸ addr_eq_some hxi)
    have hcell := (hx.cell i a' b hxi).symm.trans (hy.cell i a' c hyi)
    obtain rfl : b = c := congrArg Node.payload (Option.some.inj hcell)
    exact hyi.symm

namespace Wq

variable {ι : Type} {s s' : State ι} {nodes nodes' : List (Addr × Int)} {t : ι} {q : Phase}

/-! ## Who owns an item -/

/-- **Every allocated item has an owner**: it is a node of the list, or the item of a thread. -/
def Owned (s : State ι) (nodes : List (Addr × Int)) : Prop :=
  ∀ a, (s.heap a).isSome = true → a ∈ nodes.map Prod.fst ∨ ∃ t, (s.phase t).item = some a

theorem owned_start : Owned (State.start : State ι) [] := fun a ha =>
  absurd ha (by simp [State.start])

/-- The items and the threads' own items stay what they are. -/
theorem Owned.keep (h : Owned s nodes) (hheap : s'.heap = s.heap)
    (hitem : ∀ u, (s'.phase u).item = (s.phase u).item) : Owned s' nodes := fun a ha => by
  rw [hheap] at ha
  exact (h a ha).imp_right fun ⟨u, hu⟩ => ⟨u, (hitem u).trans hu⟩

variable [DecidableEq ι]

/-- A thread moves on with the item it has. -/
theorem Owned.goto (h : Owned s nodes) (hheap : s'.heap = s.heap)
    (hphase : s'.phase = (s.goto t q).phase) (hq : q.item = (s.phase t).item) : Owned s' nodes :=
  h.keep hheap fun u => by
    rw [hphase]
    by_cases hu : u = t
    · rw [hu, goto_self, hq]
    · rw [goto_of_ne s q hu]

/-- A thread that had no item has one now, and the other threads' items stay. -/
theorem Owned.other (h : Owned s nodes) (ht : (s.phase t).item = none) {a : Addr}
    (ha : (s.heap a).isSome = true) :
    a ∈ nodes.map Prod.fst ∨ ∃ u, ((s.goto t q).phase u).item = some a := by
  refine (h a ha).imp_right fun ⟨u, hu⟩ => ⟨u, ?_⟩
  have hut : u ≠ t := fun he => by
    rw [he, ht] at hu
    exact absurd hu (by simp)
  rwa [goto_of_ne s q hut]

/-- A thread that had item `b` gives it up, and the other items stay. -/
theorem Owned.rest (h : Owned s nodes) {a b : Addr} (ht : (s.phase t).item = some b) (hne : a ≠ b)
    (ha : (s.heap a).isSome = true) :
    a ∈ nodes.map Prod.fst ∨ ∃ u, ((s.goto t q).phase u).item = some a := by
  refine (h a ha).imp_right fun ⟨u, hu⟩ => ⟨u, ?_⟩
  have hut : u ≠ t := fun he => by
    rw [he, ht] at hu
    exact hne (Option.some.inj hu).symm
  rwa [goto_of_ne s q hut]

/-! ## The statements -/

/-- **Every statement leaves each item with an owner.** -/
theorem Owned.inner (h : Owned s nodes) (hi : Inv s nodes) (hs : Inner s t s')
    (hl : IsDll s'.heap s'.head nodes') : Owned s' nodes' := by
  -- statements that leave the list and the thread's item
  have hgoto : ∀ q : Phase, s'.heap = s.heap → s'.head = s.head →
      s'.phase = (s.goto t q).phase → q.item = (s.phase t).item → Owned s' nodes' :=
    fun q hheap hhead hphase hq => by
      rw [hheap, hhead] at hl
      exact hi.list.unique hl ▸ h.goto hheap hphase hq
  cases hs with
  | popLock hp hf => exact hgoto _ rfl rfl rfl (by rcases hp with hp | hp <;> rw [hp] <;> rfl)
  | popTest hp => exact hgoto _ rfl rfl rfl (by rw [hp]; split_ifs <;> rfl)
  | popWait hp => exact hgoto _ rfl rfl rfl (by rw [hp]; rfl)
  | popHead hp => exact hgoto _ rfl rfl rfl (by rw [hp]; split <;> rfl)
  | popSize a fd hp => exact hgoto _ rfl rfl rfl (by rw [hp]; rfl)
  | popUnlock a fd hp => exact hgoto _ rfl rfl rfl (by rw [hp]; rfl)
  | pushLock fd hp hf => exact hgoto _ rfl rfl rfl (by rw [hp]; rfl)
  | pushSize hp => exact hgoto _ rfl rfl rfl (by rw [hp]; rfl)
  | pushUnlock hp => exact hgoto _ rfl rfl rfl (by rw [hp]; rfl)
  | popDelete a fd hp =>
    -- the first node becomes the thread's own
    have hk := hi.known t
    rw [hp] at hk
    obtain ⟨rest, rfl⟩ : ∃ rest, nodes = (a, fd) :: rest := by
      cases nodes with
      | nil => exact absurd hk (by simp [Local])
      | cons p rest => exact ⟨rest, by rw [Option.some.inj hk]⟩
    obtain ⟨heap, head, hdelete, hlist, hheap⟩ := dlDelete_head_spec hi.list
    rw [hdelete] at hl ⊢
    obtain rfl := hlist.unique hl
    intro b hb
    by_cases hmem : b ∈ rest.map Prod.fst
    · exact Or.inl hmem
    by_cases hba : b = a
    · exact Or.inr ⟨t, by rw [hba]; exact congrArg Phase.item (goto_self s t _)⟩
    · refine (h.other (q := .popUnlock a fd) (by rw [hp]; rfl) (hheap b hmem ▸ hb)).imp_left ?_
      intro hb
      exact (List.mem_cons.mp hb).resolve_left hba
  | popFree a fd hp =>
    have hitem : (s.phase t).item = some a := by rw [hp]; rfl
    have hmem := (hi.detached hitem).not_mem
    obtain rfl : nodes = nodes' := IsDll.unique (hi.list.congr fun x hx =>
      Function.update_of_ne (show x ≠ a from fun he => hmem (he ▸ hx)) _ _) hl
    intro b hb
    have hba : b ≠ a := fun he => by simp [he] at hb
    exact h.rest hitem hba (by simpa [Function.update_of_ne hba] using hb)
  | pushCalloc fd a hp hfree =>
    have hne : ∀ {b : Addr}, (s.heap b).isSome = true → b ≠ a := fun hb he => by
      rw [he, hfree] at hb
      exact absurd hb (by simp)
    obtain rfl : nodes = nodes' := IsDll.unique (hi.list.congr fun x hx =>
      Function.update_of_ne (hne (hi.list.isSome hx)) _ _) hl
    intro b hb
    by_cases hba : b = a
    · exact Or.inr ⟨t, by rw [hba]; exact congrArg Phase.item (goto_self s t _)⟩
    · exact h.other (by rw [hp]; rfl) (by simpa [Function.update_of_ne hba] using hb)
  | pushSet a fd hp =>
    have hitem : (s.phase t).item = some a := by rw [hp]; rfl
    obtain ⟨hsome, hmem⟩ := hi.detached hitem
    obtain ⟨heap, hmodify, hheap⟩ := modify_some hsome fun n => { n with payload := fd }
    have hold : ∀ {b : Addr}, b ≠ a → heap b = s.heap b := fun hb => by rw [hheap, if_neg hb]
    rw [hmodify] at hl ⊢
    obtain rfl : nodes = nodes' :=
      IsDll.unique (hi.list.congr fun x hx => hold fun he => hmem (he ▸ hx)) hl
    intro b hb
    by_cases hba : b = a
    · exact Or.inr ⟨t, by rw [hba]; exact congrArg Phase.item (goto_self s t _)⟩
    · exact h.rest hitem hba (hold hba ▸ hb)
  | pushAppend a fd hp =>
    -- the thread's item becomes the last node
    have hitem : (s.phase t).item = some a := by rw [hp]; rfl
    have hk := hi.known t
    rw [hp] at hk
    obtain ⟨⟨-, hmem⟩, hpayload⟩ := hk
    obtain ⟨n, hn, rfl⟩ := Option.map_eq_some_iff.mp hpayload
    obtain ⟨heap, head, happend, hlist, hheap⟩ := dlAppend_spec hi.list hmem hn
    rw [happend] at hl ⊢
    obtain rfl := hlist.unique hl
    intro b hb
    rw [List.map_append, List.mem_append]
    by_cases hold : b ∈ nodes.map Prod.fst
    · exact Or.inl (Or.inl hold)
    by_cases hba : b = a
    · exact Or.inl (Or.inr (List.mem_singleton.mpr hba))
    · exact (h.rest (q := .pushSize) hitem hba (hheap b hold hba ▸ hb)).imp_left Or.inl
  | pushBroadcast hp =>
    obtain rfl := hi.list.unique hl
    refine h.keep rfl fun u => ?_
    by_cases hu : u = t
    · rw [hu, broadcast_self, hp]
      rfl
    · rcases broadcast_of_ne s hu with ⟨hw, hb⟩ | ⟨hw, -⟩
      · rw [hw, hb]
        rfl
      · rw [hw]

/-- **Every step leaves each item with an owner.** -/
theorem Owned.step (h : Owned s nodes) (hi : Inv s nodes) (hs : Step s s')
    (hl : IsDll s'.heap s'.head nodes') : Owned s' nodes' := by
  cases hs with
  | inner t hs => exact h.inner hi hs hl
  | callPop t hp =>
    exact hi.list.unique hl ▸ h.goto (t := t) (q := .popLock) rfl rfl (by rw [hp]; rfl)
  | callPush t fd hp =>
    exact hi.list.unique hl ▸ h.goto (t := t) (q := .pushLock fd) rfl rfl (by rw [hp]; rfl)
  | popReturn t fd hp =>
    exact hi.list.unique hl ▸ h.goto (t := t) (q := .idle) rfl rfl (by rw [hp]; rfl)
  | spurious t hp =>
    exact hi.list.unique hl ▸ h.goto (t := t) (q := .popWoken) rfl rfl (by rw [hp]; rfl)

/-! ## Every reachable state -/

/-- **No item leaks.** -/
theorem exists_owned (h : system.Reachable s) : ∃ nodes, Inv s nodes ∧ Owned s nodes := by
  refine System.invariant (I := fun s => ∃ nodes, Inv s nodes ∧ Owned s nodes) (fun s h0 => ?_)
    (fun s s' _ hi hs => ?_) h
  · rw [show s = .start from h0]
    exact ⟨[], inv_start, owned_start⟩
  · obtain ⟨nodes, hi, ho⟩ := hi
    obtain ⟨nodes', hi'⟩ := hi.step hs
    exact ⟨nodes', hi', ho.step hi hs hi'.list⟩

/-- **`calloc` can find a free address.** -/
theorem exists_free [Finite ι] (h : system.Reachable s) : ∃ a, s.heap a = none := by
  obtain ⟨nodes, -, ho⟩ := exists_owned h
  have hfin : {a | (s.heap a).isSome = true}.Finite := by
    refine Set.Finite.subset ((nodes.map Prod.fst).finite_toSet.union
      (Set.finite_range fun t => (s.phase t).item.getD 0)) fun a ha => ?_
    exact (ho a ha).imp_right fun ⟨t, ht⟩ => ⟨t, by simp [ht]⟩
  obtain ⟨a, ha⟩ := hfin.exists_notMem
  exact ⟨a, by simpa using ha⟩

end Wq

end SystemProgramming.HttpServer
