import SystemProgramming.HttpServer.Utlist
import SystemProgramming.Lib.CInt
import SystemProgramming.Lib.Transition

/-!
# The work queue

`wq_push` and `wq_pop` of `HTTP_Server/wq.c`, called by any threads in any order. Every statement is
a step of its own, `free` behind the unlock included. `calloc` succeeds, with any address that is
free. `size` is an `int` and wraps around. A thread that follows a bad pointer is `crashed`.

The state records two histories, the descriptors appended to the list and the descriptors taken from
it, each with its thread and in the order in which the mutex was held, and for each thread what it
has passed to `wq_push` and what `wq_pop` has returned to it.

* `Inv` is the invariant: the list is well formed, `size` counts its nodes up to what the owner of
  the mutex still has to do, and an item that a thread holds is no node of the list.
* `Inv.inner`, `Inv.step`: every step keeps it, one case for each statement.
* `not_crashed`: no thread follows a bad pointer.
-/

namespace SystemProgramming.HttpServer.Wq

open Lib

/-- Where a thread stands: the statement that comes next. -/
inductive Phase
  | idle
  | popLock
  | popTest
  | popWait
  | popBlocked
  | popWoken
  | popHead
  | popSize (wqItem : Addr) (clientSocketFd : Int)
  | popDelete (wqItem : Addr) (clientSocketFd : Int)
  | popUnlock (wqItem : Addr) (clientSocketFd : Int)
  | popFree (wqItem : Addr) (clientSocketFd : Int)
  | popReturn (clientSocketFd : Int)
  | pushLock (clientSocketFd : Int)
  | pushCalloc (clientSocketFd : Int)
  | pushSet (wqItem : Addr) (clientSocketFd : Int)
  | pushAppend (wqItem : Addr) (clientSocketFd : Int)
  | pushSize
  | pushBroadcast
  | pushUnlock
  | crashed
  deriving DecidableEq

namespace Phase

/-- The thread has the mutex. -/
def holds : Phase → Bool
  | idle | popLock | popBlocked | popWoken | popFree _ _ | popReturn _ | pushLock _ => false
  | _ => true

/-- What `size` lacks while the thread is between the list and `size`. -/
def owed : Phase → Int
  | popDelete _ _ | pushSize => 1
  | _ => 0

/-- The item that is the thread's own. -/
def item : Phase → Option Addr
  | popUnlock a _ | popFree a _ | pushSet a _ | pushAppend a _ => some a
  | _ => none

end Phase

/-- The state: the items on the heap, `wq`, where every thread stands, the two histories, and the
arguments of every thread's calls of `wq_push` and the results of its calls of `wq_pop`. -/
structure State (ι : Type) where
  heap : Heap Int
  size : Int
  head : Option Addr
  owner : Option ι
  phase : ι → Phase
  pushed : List (ι × Int)
  popped : List (ι × Int)
  called : ι → List Int
  returned : ι → List Int

variable {ι : Type}

/-- `wq_init`. -/
def State.start : State ι where
  heap := fun _ => none
  size := 0
  head := none
  owner := none
  phase := fun _ => .idle
  pushed := []
  popped := []
  called := fun _ => []
  returned := fun _ => []

/-- `wq->head`, and `wq->head->client_socket_fd`. -/
def State.readHead (s : State ι) : Option (Addr × Int) :=
  s.head.bind fun a => (s.heap a).map fun item => (a, item.payload)

section Steps

variable [DecidableEq ι]

/-- Thread `t` moves to phase `p`. -/
def State.goto (s : State ι) (t : ι) (p : Phase) : State ι :=
  { s with phase := Function.update s.phase t p }

/-- Thread `t` calls `wq_push`. -/
def State.callPush (s : State ι) (t : ι) (fd : Int) : State ι :=
  { s.goto t (.pushLock fd) with called := Function.update s.called t (s.called t ++ [fd]) }

/-- `wq_pop` returns to thread `t`. -/
def State.popReturn (s : State ι) (t : ι) (fd : Int) : State ι :=
  { s.goto t .idle with returned := Function.update s.returned t (s.returned t ++ [fd]) }

/-- `pthread_cond_broadcast` by thread `t`, which goes on to unlock. -/
def State.broadcast (s : State ι) (t : ι) : State ι :=
  { s with phase := fun u => if u = t then .pushUnlock
    else if s.phase u = .popBlocked then .popWoken else s.phase u }

theorem broadcast_self (s : State ι) (t : ι) : (s.broadcast t).phase t = .pushUnlock := if_pos rfl

/-- What a broadcast makes of another thread. -/
theorem broadcast_of_ne (s : State ι) {t u : ι} (h : u ≠ t) :
    ((s.broadcast t).phase u = .popWoken ∧ s.phase u = .popBlocked) ∨
      ((s.broadcast t).phase u = s.phase u ∧ s.phase u ≠ .popBlocked) := by
  unfold State.broadcast
  dsimp only
  rw [if_neg h]
  split_ifs with hb
  · exact Or.inl ⟨rfl, hb⟩
  · exact Or.inr ⟨rfl, hb⟩

/-- **One statement of `wq_pop` or `wq_push`**, by thread `t`. -/
inductive Inner (s : State ι) (t : ι) : State ι → Prop
  | popLock (hp : s.phase t = .popLock ∨ s.phase t = .popWoken) (hf : s.owner = none) :
      Inner s t { s.goto t .popTest with owner := some t }
  | popTest (hp : s.phase t = .popTest) :
      Inner s t (s.goto t (if s.size = 0 then .popWait else .popHead))
  | popWait (hp : s.phase t = .popWait) : Inner s t { s.goto t .popBlocked with owner := none }
  | popHead (hp : s.phase t = .popHead) :
      Inner s t (s.goto t (match s.readHead with
        | none => .crashed
        | some (wqItem, fd) => .popSize wqItem fd))
  | popSize (wqItem : Addr) (fd : Int) (hp : s.phase t = .popSize wqItem fd) :
      Inner s t { s.goto t (.popDelete wqItem fd) with size := toCInt (s.size - 1) }
  | popDelete (wqItem : Addr) (fd : Int) (hp : s.phase t = .popDelete wqItem fd) :
      Inner s t (match dlDelete s.heap s.head id with
        | none => s.goto t .crashed
        | some (heap, head) => { s.goto t (.popUnlock wqItem fd) with
            heap := heap, head := head, popped := s.popped ++ [(t, fd)] })
  | popUnlock (wqItem : Addr) (fd : Int) (hp : s.phase t = .popUnlock wqItem fd) :
      Inner s t { s.goto t (.popFree wqItem fd) with owner := none }
  | popFree (wqItem : Addr) (fd : Int) (hp : s.phase t = .popFree wqItem fd) :
      Inner s t { s.goto t (.popReturn fd) with heap := Function.update s.heap wqItem none }
  | pushLock (fd : Int) (hp : s.phase t = .pushLock fd) (hf : s.owner = none) :
      Inner s t { s.goto t (.pushCalloc fd) with owner := some t }
  | pushCalloc (fd : Int) (wqItem : Addr) (hp : s.phase t = .pushCalloc fd)
      (hfree : s.heap wqItem = none) :
      Inner s t { s.goto t (.pushSet wqItem fd) with
        heap := Function.update s.heap wqItem (some ⟨0, none, none⟩) }
  | pushSet (wqItem : Addr) (fd : Int) (hp : s.phase t = .pushSet wqItem fd) :
      Inner s t (match s.heap.modify (some wqItem) fun n => { n with payload := fd } with
        | none => s.goto t .crashed
        | some heap => { s.goto t (.pushAppend wqItem fd) with heap := heap })
  | pushAppend (wqItem : Addr) (fd : Int) (hp : s.phase t = .pushAppend wqItem fd) :
      Inner s t (match dlAppend s.heap s.head wqItem with
        | none => s.goto t .crashed
        | some (heap, head) => { s.goto t .pushSize with
            heap := heap, head := head, pushed := s.pushed ++ [(t, fd)] })
  | pushSize (hp : s.phase t = .pushSize) :
      Inner s t { s.goto t .pushBroadcast with size := toCInt (s.size + 1) }
  | pushBroadcast (hp : s.phase t = .pushBroadcast) :
      Inner s t (s.broadcast t)
  | pushUnlock (hp : s.phase t = .pushUnlock) :
      Inner s t { s.goto t .idle with owner := none }

/-- **One step**: a call, a statement, the return of `wq_pop`, or a spurious wake-up. -/
inductive Step (s : State ι) : State ι → Prop
  | callPop (t : ι) (hp : s.phase t = .idle) : Step s (s.goto t .popLock)
  | callPush (t : ι) (fd : Int) (hp : s.phase t = .idle) : Step s (s.callPush t fd)
  | inner (t : ι) {s' : State ι} (h : Inner s t s') : Step s s'
  | popReturn (t : ι) (fd : Int) (hp : s.phase t = .popReturn fd) : Step s (s.popReturn t fd)
  | spurious (t : ι) (hp : s.phase t = .popBlocked) : Step s (s.goto t .popWoken)

/-- The work queue with its threads. -/
def system : System (State ι) where
  init := fun s => s = .start
  next := Step

end Steps

/-! ## The invariant -/

/-- An item that is allocated and no node of the list. -/
structure Detached (heap : Heap Int) (nodes : List (Addr × Int)) (a : Addr) : Prop where
  allocated : (heap a).isSome = true
  not_mem : a ∉ nodes.map Prod.fst

/-- What a thread knows in a phase. -/
def Local (heap : Heap Int) (size : Int) (nodes : List (Addr × Int)) : Phase → Prop
  | .popWait => size = 0
  | .popHead => size ≠ 0
  | .popSize a fd => size ≠ 0 ∧ nodes.head? = some (a, fd)
  | .popDelete a fd => nodes.head? = some (a, fd)
  | .popUnlock a _ | .popFree a _ | .pushSet a _ => Detached heap nodes a
  | .pushAppend a fd => Detached heap nodes a ∧ (heap a).map Node.payload = some fd
  | .crashed => False
  | _ => True

/-- **The invariant.** -/
structure Inv (s : State ι) (nodes : List (Addr × Int)) : Prop where
  mutex : ∀ t, s.owner = some t ↔ (s.phase t).holds = true
  list : IsDll s.heap s.head nodes
  history : s.popped.map Prod.snd ++ nodes.map Prod.snd = s.pushed.map Prod.snd
  size_free : s.owner = none → s.size = toCInt nodes.length
  size_held : ∀ t, (s.phase t).holds = true → s.size = toCInt (nodes.length - (s.phase t).owed)
  known : ∀ t, Local s.heap s.size nodes (s.phase t)
  item_ne : ∀ t u a, (s.phase t).item = some a → (s.phase u).item = some a → t = u
  blocked : ∀ t, s.phase t = .popBlocked → s.size = 0 ∨ ∃ u, s.phase u = .pushBroadcast

theorem inv_start : Inv (State.start : State ι) [] where
  mutex := fun t => by simp [State.start, Phase.holds]
  list := isDll_nil _
  history := rfl
  size_free := fun _ => rfl
  size_held := fun t h => absurd h (by simp [State.start, Phase.holds])
  known := fun t => trivial
  item_ne := fun t u a h => absurd h (by simp [State.start, Phase.item])
  blocked := fun t h => absurd h (by simp [State.start])

/-- A thread without the mutex knows about its own item only. -/
theorem local_iff {heap : Heap Int} {size : Int} {nodes : List (Addr × Int)} {p : Phase}
    (hp : p.holds = false) :
    Local heap size nodes p ↔ ∀ a, p.item = some a → Detached heap nodes a := by
  cases p <;> simp_all [Local, Phase.item, Phase.holds]

namespace Inv

variable {s : State ι} {nodes nodes' : List (Addr × Int)} {t u : ι} {q : Phase}

theorem not_holds (h : Inv s nodes) (ht : (s.phase t).holds = true) (hne : u ≠ t) :
    (s.phase u).holds = false := by
  rw [← Bool.not_eq_true, ← h.mutex u, (h.mutex t).mpr ht]
  exact fun he => hne (Option.some.inj he).symm

theorem owner_eq (h : Inv s nodes) (ht : (s.phase t).holds = true) : s.owner = some t :=
  (h.mutex t).mpr ht

theorem detached (h : Inv s nodes) {a : Addr} (ha : (s.phase t).item = some a) :
    Detached s.heap nodes a := by
  have hk := h.known t
  generalize s.phase t = p at ha hk
  cases p with
  | popUnlock b fd => exact Option.some.inj ha ▸ hk
  | popFree b fd => exact Option.some.inj ha ▸ hk
  | pushSet b fd => exact Option.some.inj ha ▸ hk
  | pushAppend b fd => exact Option.some.inj ha ▸ hk.1
  | _ => exact absurd ha (by simp [Phase.item])

theorem ne_crashed (h : Inv s nodes) (t : ι) : s.phase t ≠ .crashed := fun hp => by
  have hk := h.known t
  rw [hp] at hk
  exact hk

/-- While a thread other than a broadcaster has the mutex, a blocked thread means an empty queue. -/
theorem size_of_blocked (h : Inv s nodes) (ht : (s.phase t).holds = true)
    (hne : s.phase t ≠ .pushBroadcast) (hu : s.phase u = .popBlocked) : s.size = 0 := by
  refine (h.blocked u hu).resolve_right ?_
  rintro ⟨v, hv⟩
  by_cases hvt : v = t
  · exact hne (hvt ▸ hv)
  · exact absurd (h.not_holds ht hvt) (by rw [hv]; simp [Phase.holds])

/-- What the owner of the mutex reads at the head of a list that is not empty. -/
theorem readHead_eq (h : Inv s nodes) {a : Addr} {fd : Int} (hn : nodes.head? = some (a, fd)) :
    s.readHead = some (a, fd) := by
  obtain ⟨rest, rfl⟩ : ∃ rest, nodes = (a, fd) :: rest := by
    cases nodes with
    | nil => exact absurd hn (by simp)
    | cons p rest => exact ⟨rest, by rw [Option.some.inj hn]⟩
  unfold State.readHead
  rw [h.list.head_eq, addr_eq_some (a := a) (b := fd) rfl, Option.bind_some,
    h.list.cell 0 a fd rfl, Option.map_some]

/-- An item goes back to the heap. -/
theorem free (h : Inv s nodes) {a : Addr} (ha : a ∉ nodes.map Prod.fst)
    (hitem : ∀ u, (s.phase u).item ≠ some a) :
    Inv { s with heap := Function.update s.heap a none } nodes where
  mutex := h.mutex
  list := h.list.congr fun x hx =>
    Function.update_of_ne (show x ≠ a from fun he => ha (he ▸ hx)) _ _
  history := h.history
  size_free := h.size_free
  size_held := h.size_held
  known := fun u => by
    have hd : ∀ {b : Addr}, (s.phase u).item = some b → Detached s.heap nodes b →
        Detached (Function.update s.heap a none) nodes b := fun {b} hb hd => by
      have hba : b ≠ a := fun he => hitem u (he ▸ hb)
      exact ⟨by rw [Function.update_of_ne hba]; exact hd.allocated, hd.not_mem⟩
    have hk := h.known u
    have hiu := hitem u
    generalize s.phase u = p at hk hd hiu
    cases p with
    | popUnlock b fd => exact hd rfl hk
    | popFree b fd => exact hd rfl hk
    | pushSet b fd => exact hd rfl hk
    | pushAppend b fd =>
      have hba : b ≠ a := fun he => hiu (he ▸ rfl)
      exact ⟨hd rfl hk.1, (congrArg _ (Function.update_of_ne hba _ _)).trans hk.2⟩
    | _ => exact hk
  item_ne := h.item_ne
  blocked := h.blocked

/-- `size` counts the nodes while its owner owes it nothing. -/
theorem size_eq (h : Inv s nodes) (ht : (s.phase t).holds = true) (ho : (s.phase t).owed = 0) :
    s.size = toCInt nodes.length := by
  have := h.size_held t ht
  rwa [ho, sub_zero] at this

variable [DecidableEq ι]

/-- **A thread moves** and changes nothing but, perhaps, the owner of the mutex. -/
theorem goto (h : Inv s nodes) {owner : Option ι}
    (hmutex : ∀ u, owner = some u ↔ (Function.update s.phase t q u).holds = true)
    (hfree : owner = none → s.size = toCInt nodes.length)
    (hheld : q.holds = true → s.size = toCInt (nodes.length - q.owed))
    (hknown : Local s.heap s.size nodes q)
    (hitem : ∀ a, q.item = some a → (s.phase t).item = some a)
    (hblocked : q = .popBlocked → s.size = 0) (hne : s.phase t ≠ .pushBroadcast) :
    Inv { s.goto t q with owner := owner } nodes where
  mutex := hmutex
  list := h.list
  history := h.history
  size_free := hfree
  size_held := fun u => by
    by_cases hu : u = t
    · subst hu
      simpa only [State.goto, Function.update_self] using hheld
    · simpa only [State.goto, Function.update_of_ne hu] using h.size_held u
  known := fun u => by
    by_cases hu : u = t
    · subst hu
      simpa only [State.goto, Function.update_self] using hknown
    · simpa only [State.goto, Function.update_of_ne hu] using h.known u
  item_ne := by
    have hback : ∀ u a, (Function.update s.phase t q u).item = some a →
        (s.phase u).item = some a := fun u a hu => by
      by_cases hut : u = t
      · subst hut
        rw [Function.update_self] at hu
        exact hitem a hu
      · rwa [Function.update_of_ne hut] at hu
    exact fun u v a hu hv => h.item_ne u v a (hback u a hu) (hback v a hv)
  blocked := by
    intro u hu
    by_cases hut : u = t
    · subst hut
      simp only [State.goto, Function.update_self] at hu
      exact Or.inl (hblocked hu)
    · simp only [State.goto, Function.update_of_ne hut] at hu
      refine (h.blocked u hu).imp_right ?_
      rintro ⟨v, hv⟩
      refine ⟨v, ?_⟩
      have hvt : v ≠ t := by
        rintro rfl
        exact hne hv
      simpa only [State.goto, Function.update_of_ne hvt] using hv

/-- The mutex while its owner goes on with it. -/
theorem mutex_keep (h : Inv s nodes) (hq : q.holds = (s.phase t).holds) (u : ι) :
    s.owner = some u ↔ (Function.update s.phase t q u).holds = true := by
  by_cases hu : u = t
  · subst hu
    rw [Function.update_self, hq]
    exact h.mutex u
  · rw [Function.update_of_ne hu]
    exact h.mutex u

/-- The mutex when a thread takes it. -/
theorem mutex_lock (h : Inv s nodes) (hq : q.holds = true) (hf : s.owner = none) (u : ι) :
    some t = some u ↔ (Function.update s.phase t q u).holds = true := by
  by_cases hu : u = t
  · subst hu
    simp [hq]
  · rw [Function.update_of_ne hu, ← h.mutex u, hf]
    exact iff_of_false (fun he => hu (Option.some.inj he).symm) (by simp)

/-- The mutex when its owner gives it back. -/
theorem mutex_unlock (h : Inv s nodes) (ht : (s.phase t).holds = true) (hq : q.holds = false)
    (u : ι) : (none : Option ι) = some u ↔ (Function.update s.phase t q u).holds = true := by
  refine iff_of_false (by simp) ?_
  by_cases hu : u = t
  · subst hu
    rw [Function.update_self, hq]
    simp
  · rw [Function.update_of_ne hu, h.not_holds ht hu]
    simp

/-- **The owner of the mutex changes the list**, `size` or the two histories. -/
theorem act (h : Inv s nodes) (ht : (s.phase t).holds = true) (hq : q.holds = true)
    {heap : Heap Int} {size : Int} {head : Option Addr} {pushed popped : List (ι × Int)}
    (hlist : IsDll heap head nodes')
    (hhistory : popped.map Prod.snd ++ nodes'.map Prod.snd = pushed.map Prod.snd)
    (hsize : size = toCInt (nodes'.length - q.owed)) (hknown : Local heap size nodes' q)
    (hdetached : ∀ u a, u ≠ t → (s.phase u).item = some a → Detached heap nodes' a)
    (hitem : ∀ u a, u ≠ t → (s.phase u).item = some a → q.item ≠ some a)
    (hblocked : ∀ u, s.phase u = .popBlocked → size = 0 ∨ q = .pushBroadcast) :
    Inv ⟨heap, size, head, s.owner, Function.update s.phase t q, pushed, popped, s.called,
      s.returned⟩ nodes' where
  mutex := h.mutex_keep (hq.trans ht.symm)
  list := hlist
  history := hhistory
  size_free := fun hf => absurd (h.owner_eq ht) (by rw [hf]; simp)
  size_held := fun u hu => by
    by_cases hut : u = t
    · subst hut
      simpa only [Function.update_self] using hsize
    · simp only [Function.update_of_ne hut, h.not_holds ht hut] at hu
      exact absurd hu (by simp)
  known := fun u => by
    by_cases hut : u = t
    · subst hut
      simpa only [Function.update_self] using hknown
    · simp only [Function.update_of_ne hut]
      exact (local_iff (h.not_holds ht hut)).mpr fun a ha => hdetached u a hut ha
  item_ne := by
    intro u v a hu hv
    by_cases hut : u = t
    · by_cases hvt : v = t
      · rw [hut, hvt]
      · simp only [hut, Function.update_self, Function.update_of_ne hvt] at hu hv
        exact absurd hu (hitem v a hvt hv)
    · by_cases hvt : v = t
      · simp only [hvt, Function.update_self, Function.update_of_ne hut] at hu hv
        exact absurd hv (hitem u a hut hu)
      · simp only [Function.update_of_ne hut, Function.update_of_ne hvt] at hu hv
        exact h.item_ne u v a hu hv
  blocked := by
    intro u hu
    by_cases hut : u = t
    · simp only [hut, Function.update_self] at hu
      exact absurd hq (by rw [hu]; simp [Phase.holds])
    · simp only [Function.update_of_ne hut] at hu
      exact (hblocked u hu).imp_right fun hqb => ⟨t, by simp only [Function.update_self, hqb]⟩

/-! ### The statements -/

theorem popHead (h : Inv s nodes) (hp : s.phase t = .popHead) :
    Inv (s.goto t (match s.readHead with
      | none => .crashed
      | some (wqItem, fd) => .popSize wqItem fd)) nodes := by
  have hheld := h.size_held t (by rw [hp]; rfl)
  have hsize : s.size ≠ 0 := by
    have hk := h.known t
    rwa [hp] at hk
  rw [hp] at hheld
  cases hn : nodes.head? with
  | none =>
    rw [List.head?_eq_none_iff.mp hn] at hheld
    exact absurd hheld hsize
  | some p =>
    obtain ⟨a, fd⟩ := p
    rw [h.readHead_eq hn]
    exact h.goto (h.mutex_keep (by rw [hp]; rfl)) (fun hf => h.size_free hf)
      (fun _ => hheld) ⟨hsize, hn⟩
      (fun b hb => absurd hb (by simp [Phase.item])) (fun hb => absurd hb (by simp))
      (by rw [hp]; simp)

theorem popSize (h : Inv s nodes) {a : Addr} {fd : Int} (hp : s.phase t = .popSize a fd) :
    Inv { s.goto t (.popDelete a fd) with size := toCInt (s.size - 1) } nodes := by
  have ht : (s.phase t).holds = true := by rw [hp]; rfl
  have hsize := h.size_eq ht (by rw [hp]; rfl)
  have hk := h.known t
  rw [hp] at hk
  -- nobody is blocked, as `size` is not zero
  exact h.act ht rfl h.list h.history (by rw [hsize, toCInt_sub]; rfl) hk.2
    (fun u b _ hb => h.detached hb) (fun u b _ _ => by simp [Phase.item])
    fun u hu => absurd (h.size_of_blocked ht (by rw [hp]; simp) hu) hk.1

theorem popDelete (h : Inv s nodes) {a : Addr} {fd : Int} (hp : s.phase t = .popDelete a fd) :
    ∃ nodes', Inv (match dlDelete s.heap s.head id with
      | none => s.goto t .crashed
      | some (heap, head) => { s.goto t (.popUnlock a fd) with
          heap := heap, head := head, popped := s.popped ++ [(t, fd)] }) nodes' := by
  have ht : (s.phase t).holds = true := by rw [hp]; rfl
  have hheld := h.size_held t ht
  have hk := h.known t
  rw [hp] at hheld hk
  obtain ⟨rest, rfl⟩ : ∃ rest, nodes = (a, fd) :: rest := by
    cases nodes with
    | nil => exact absurd hk (by simp [Local])
    | cons p rest => exact ⟨rest, by rw [Option.some.inj hk]⟩
  obtain ⟨heap, head, hdelete, hlist, hheap⟩ := dlDelete_head_spec h.list
  have hnodup := h.list.nodup
  rw [List.map_cons, List.nodup_cons] at hnodup
  have hrest : ∀ {b : Addr}, b ∉ ((a, fd) :: rest).map Prod.fst → b ∉ rest.map Prod.fst :=
    fun hb hmem => hb (List.mem_cons_of_mem _ hmem)
  rw [hdelete]
  refine ⟨rest, h.act ht rfl hlist ?_ ?_ ?_ (fun u b _ hb => ?_) (fun u b _ hb hab => ?_)
    fun u hu => Or.inl (h.size_of_blocked ht (by rw [hp]; simp) hu)⟩
  · rw [List.map_append, List.append_assoc]
    exact h.history
  · rw [show (State.goto s t (.popUnlock a fd)).size = s.size from rfl, hheld]
    simp [Phase.owed]
  · exact ⟨by rw [hheap a hnodup.1]; exact h.list.isSome (by simp), hnodup.1⟩
  · obtain ⟨hsome, hmem⟩ := h.detached hb
    exact ⟨by rw [hheap b (hrest hmem)]; exact hsome, hrest hmem⟩
  · obtain rfl := Option.some.inj hab
    exact (h.detached hb).not_mem (by simp)

theorem popFree (h : Inv s nodes) {a : Addr} {fd : Int} (hp : s.phase t = .popFree a fd) :
    Inv { s.goto t (.popReturn fd) with heap := Function.update s.heap a none } nodes := by
  have hitem : (s.phase t).item = some a := by rw [hp]; rfl
  have hmoved : Inv (s.goto t (.popReturn fd)) nodes :=
    h.goto (h.mutex_keep (by rw [hp]; rfl)) (fun hf => h.size_free hf)
      (fun hq => absurd hq (by simp [Phase.holds])) trivial
      (fun b hb => absurd hb (by simp [Phase.item])) (fun hb => absurd hb (by simp))
      (by rw [hp]; simp)
  refine hmoved.free (h.detached hitem).not_mem fun u hu => ?_
  by_cases hut : u = t
  · simp only [hut, State.goto, Function.update_self] at hu
    exact absurd hu (by simp [Phase.item])
  · simp only [State.goto, Function.update_of_ne hut] at hu
    exact hut (h.item_ne u t a hu hitem)

theorem pushCalloc (h : Inv s nodes) {a : Addr} {fd : Int} (hp : s.phase t = .pushCalloc fd)
    (hfree : s.heap a = none) :
    Inv { s.goto t (.pushSet a fd) with
      heap := Function.update s.heap a (some ⟨0, none, none⟩) } nodes := by
  have ht : (s.phase t).holds = true := by rw [hp]; rfl
  have hheld := h.size_held t ht
  rw [hp] at hheld
  have hne : ∀ {b : Addr}, (s.heap b).isSome = true → b ≠ a := fun hb he => by
    rw [he, hfree] at hb
    exact absurd hb (by simp)
  have hmem : a ∉ nodes.map Prod.fst := fun hmem => hne (h.list.isSome hmem) rfl
  refine h.act ht rfl (h.list.congr fun x hx => ?_) h.history hheld ?_ (fun u b _ hb => ?_)
    (fun u b _ hb => ?_) fun u hu => Or.inl (h.size_of_blocked ht (by rw [hp]; simp) hu)
  · exact Function.update_of_ne (hne (h.list.isSome hx)) _ _
  · exact ⟨by rw [Function.update_self]; rfl, hmem⟩
  · obtain ⟨hsome, hb⟩ := h.detached hb
    exact ⟨by rw [Function.update_of_ne (hne hsome)]; exact hsome, hb⟩
  · exact fun he => hne (h.detached hb).allocated (Option.some.inj he).symm

theorem pushSet (h : Inv s nodes) {a : Addr} {fd : Int} (hp : s.phase t = .pushSet a fd) :
    Inv (match s.heap.modify (some a) fun n => { n with payload := fd } with
      | none => s.goto t .crashed
      | some heap => { s.goto t (.pushAppend a fd) with heap := heap }) nodes := by
  have ht : (s.phase t).holds = true := by rw [hp]; rfl
  have hitem : (s.phase t).item = some a := by rw [hp]; rfl
  have hheld := h.size_held t ht
  rw [hp] at hheld
  obtain ⟨hsome, hmem⟩ := h.detached hitem
  obtain ⟨heap, hmodify, hheap⟩ := modify_some hsome fun n => { n with payload := fd }
  have hother : ∀ {b : Addr}, b ≠ a → heap b = s.heap b := fun hb => by rw [hheap, if_neg hb]
  rw [hmodify]
  refine h.act ht rfl (h.list.congr fun x hx => hother fun he => hmem (he ▸ hx)) h.history hheld
    ⟨⟨?_, hmem⟩, ?_⟩ (fun u b hut hb => ?_) (fun u b hut hb he => ?_)
    fun u hu => Or.inl (h.size_of_blocked ht (by rw [hp]; simp) hu)
  · rw [hheap, if_pos rfl, Option.isSome_map]
    exact hsome
  · obtain ⟨n, hn⟩ := Option.isSome_iff_exists.mp hsome
    rw [hheap, if_pos rfl, hn]
    rfl
  · obtain ⟨hsome, hb'⟩ := h.detached hb
    have hba : b ≠ a := fun he => hut (h.item_ne u t a (he ▸ hb) hitem)
    exact ⟨by rw [hother hba]; exact hsome, hb'⟩
  · obtain rfl := Option.some.inj he
    exact hut (h.item_ne u t _ hb hitem)

theorem pushAppend (h : Inv s nodes) {a : Addr} {fd : Int} (hp : s.phase t = .pushAppend a fd) :
    ∃ nodes', Inv (match dlAppend s.heap s.head a with
      | none => s.goto t .crashed
      | some (heap, head) => { s.goto t .pushSize with
          heap := heap, head := head, pushed := s.pushed ++ [(t, fd)] }) nodes' := by
  have ht : (s.phase t).holds = true := by rw [hp]; rfl
  have hitem : (s.phase t).item = some a := by rw [hp]; rfl
  have hheld := h.size_held t ht
  have hk := h.known t
  rw [hp] at hheld hk
  obtain ⟨⟨-, hmem⟩, hpayload⟩ := hk
  obtain ⟨n, hn, rfl⟩ := Option.map_eq_some_iff.mp hpayload
  obtain ⟨heap, head, happend, hlist, hheap⟩ := dlAppend_spec h.list hmem hn
  rw [happend]
  refine ⟨nodes ++ [(a, n.payload)], h.act ht rfl hlist ?_ ?_ trivial (fun u b hut hb => ?_)
    (fun u b _ _ => by simp [Phase.item])
    fun u hu => Or.inl (h.size_of_blocked ht (by rw [hp]; simp) hu)⟩
  · simp only [State.goto]
    rw [List.map_append, ← List.append_assoc, h.history, List.map_append]
    rfl
  · rw [show (State.goto s t .pushSize).size = s.size from rfl, hheld]
    simp [Phase.owed]
  · obtain ⟨hsome, hb'⟩ := h.detached hb
    have hba : b ≠ a := fun he => hut (h.item_ne u t a (he ▸ hb) hitem)
    refine ⟨by rw [hheap b hb' hba]; exact hsome, ?_⟩
    simp only [List.map_append, List.mem_append, not_or]
    exact ⟨hb', by simpa using hba⟩

theorem pushSize (h : Inv s nodes) (hp : s.phase t = .pushSize) :
    Inv { s.goto t .pushBroadcast with size := toCInt (s.size + 1) } nodes := by
  have ht : (s.phase t).holds = true := by rw [hp]; rfl
  have hheld := h.size_held t ht
  rw [hp] at hheld
  exact h.act ht rfl h.list h.history (by rw [hheld, toCInt_add]; simp [Phase.owed]) trivial
    (fun u b _ hb => h.detached hb) (fun u b _ _ => by simp [Phase.item]) fun u _ => Or.inr rfl

theorem pushBroadcast (h : Inv s nodes) (hp : s.phase t = .pushBroadcast) :
    Inv (s.broadcast t) nodes := by
  have ht : (s.phase t).holds = true := by rw [hp]; rfl
  have hheld := h.size_held t ht
  rw [hp] at hheld
  have hitem : ∀ u a, ((s.broadcast t).phase u).item = some a →
      (s.phase u).item = some a := fun u a hu => by
    by_cases hut : u = t
    · rw [hut, broadcast_self] at hu
      exact absurd hu (by simp [Phase.item])
    · rcases broadcast_of_ne s hut with ⟨he, -⟩ | ⟨he, -⟩
      · rw [he] at hu
        exact absurd hu (by simp [Phase.item])
      · rwa [he] at hu
  refine ⟨fun u => ?_, h.list, h.history, h.size_free, fun u hu => ?_, fun u => ?_,
    fun u v a hu hv => h.item_ne u v a (hitem u a hu) (hitem v a hv), fun u hu => ?_⟩
  · by_cases hut : u = t
    · rw [hut, broadcast_self]
      exact iff_of_true (h.owner_eq ht) rfl
    · refine iff_of_false (fun he => hut (Option.some.inj ((h.owner_eq ht).symm.trans he)).symm) ?_
      rcases broadcast_of_ne s hut with ⟨he, -⟩ | ⟨he, -⟩
      · simp [he, Phase.holds]
      · simp [he, h.not_holds ht hut]
  · by_cases hut : u = t
    · rw [hut, broadcast_self]
      exact hheld
    · rcases broadcast_of_ne s hut with ⟨he, -⟩ | ⟨he, -⟩
      · exact absurd hu (by simp [he, Phase.holds])
      · exact absurd hu (by simp [he, h.not_holds ht hut])
  · by_cases hut : u = t
    · rw [hut, broadcast_self]
      trivial
    · rcases broadcast_of_ne s hut with ⟨he, -⟩ | ⟨he, -⟩
      · rw [he]
        trivial
      · rw [he]
        exact h.known u
  · by_cases hut : u = t
    · rw [hut, broadcast_self] at hu
      exact absurd hu (by simp)
    · rcases broadcast_of_ne s hut with ⟨he, -⟩ | ⟨he, hb⟩
      · exact absurd (he.symm.trans hu) (by simp)
      · exact absurd (he.symm.trans hu) hb

theorem item_of_none {p p' : Phase} (hn : p.item = none) (a : Addr) (ha : p.item = some a) :
    p'.item = some a := by
  rw [hn] at ha
  exact absurd ha (by simp)

/-- **Every statement keeps the invariant.** -/
theorem inner {s' : State ι} (h : Inv s nodes) (hs : Inner s t s') : ∃ nodes', Inv s' nodes' := by
  cases hs with
  | popLock hp hf =>
    exact ⟨nodes, h.goto (h.mutex_lock rfl hf) (fun hn => absurd hn (by simp))
      (fun _ => by simpa [Phase.owed] using h.size_free hf) trivial (item_of_none rfl) (by simp)
      (by rcases hp with hp | hp <;> rw [hp] <;> simp)⟩
  | popTest hp =>
    have hsize := h.size_eq (t := t) (by rw [hp]; rfl) (by rw [hp]; rfl)
    by_cases hz : s.size = 0
    · rw [if_pos hz]
      exact ⟨nodes, h.goto (h.mutex_keep (by rw [hp]; rfl)) (fun hf => h.size_free hf)
        (fun _ => by simpa [Phase.owed] using hsize) hz (item_of_none rfl) (by simp)
        (by rw [hp]; simp)⟩
    · rw [if_neg hz]
      exact ⟨nodes, h.goto (h.mutex_keep (by rw [hp]; rfl)) (fun hf => h.size_free hf)
        (fun _ => by simpa [Phase.owed] using hsize) hz (item_of_none rfl) (by simp)
        (by rw [hp]; simp)⟩
  | popWait hp =>
    have hz : s.size = 0 := by
      have hk := h.known t
      rwa [hp] at hk
    exact ⟨nodes, h.goto (h.mutex_unlock (by rw [hp]; rfl) rfl)
      (fun _ => h.size_eq (t := t) (by rw [hp]; rfl) (by rw [hp]; rfl))
      (fun hq => absurd hq (by simp [Phase.holds])) trivial (item_of_none rfl) (fun _ => hz)
      (by rw [hp]; simp)⟩
  | popHead hp => exact ⟨nodes, h.popHead hp⟩
  | popSize a fd hp => exact ⟨nodes, h.popSize hp⟩
  | popDelete a fd hp => exact h.popDelete hp
  | popUnlock a fd hp =>
    have hk := h.known t
    rw [hp] at hk
    exact ⟨nodes, h.goto (h.mutex_unlock (by rw [hp]; rfl) rfl)
      (fun _ => h.size_eq (t := t) (by rw [hp]; rfl) (by rw [hp]; rfl))
      (fun hq => absurd hq (by simp [Phase.holds])) hk (fun b hb => by rw [hp]; exact hb)
      (by simp) (by rw [hp]; simp)⟩
  | popFree a fd hp => exact ⟨nodes, h.popFree hp⟩
  | pushLock fd hp hf =>
    exact ⟨nodes, h.goto (h.mutex_lock rfl hf) (fun hn => absurd hn (by simp))
      (fun _ => by simpa [Phase.owed] using h.size_free hf) trivial (item_of_none rfl) (by simp)
      (by rw [hp]; simp)⟩
  | pushCalloc fd a hp hfree => exact ⟨nodes, h.pushCalloc hp hfree⟩
  | pushSet a fd hp => exact ⟨nodes, h.pushSet hp⟩
  | pushAppend a fd hp => exact h.pushAppend hp
  | pushSize hp => exact ⟨nodes, h.pushSize hp⟩
  | pushBroadcast hp => exact ⟨nodes, h.pushBroadcast hp⟩
  | pushUnlock hp =>
    exact ⟨nodes, h.goto (h.mutex_unlock (by rw [hp]; rfl) rfl)
      (fun _ => h.size_eq (t := t) (by rw [hp]; rfl) (by rw [hp]; rfl))
      (fun hq => absurd hq (by simp [Phase.holds])) trivial (item_of_none rfl) (by simp)
      (by rw [hp]; simp)⟩

/-- A thread without the mutex and without an item moves to another such phase. -/
theorem outside (h : Inv s nodes) (hp : (s.phase t).holds = false) (hq : q.holds = false)
    (hitem : q.item = none) (hne : q ≠ .popBlocked) : Inv (s.goto t q) nodes :=
  h.goto (h.mutex_keep (hq.trans hp.symm)) (fun hf => h.size_free hf)
    (fun hq' => absurd (hq.symm.trans hq') (by simp))
    ((local_iff hq).mpr fun a ha => absurd ha (by simp [hitem])) (item_of_none hitem)
    (fun he => absurd he hne) fun he => by simp [he, Phase.holds] at hp

omit [DecidableEq ι] in
/-- The invariant does not look at the threads' calls. -/
theorem calls (h : Inv s nodes) (called returned : ι → List Int) :
    Inv { s with called := called, returned := returned } nodes :=
  ⟨h.mutex, h.list, h.history, h.size_free, h.size_held, h.known, h.item_ne, h.blocked⟩

theorem callPush (h : Inv s nodes) (hp : s.phase t = .idle) (fd : Int) :
    Inv (s.callPush t fd) nodes :=
  (h.outside (q := .pushLock fd) (by rw [hp]; rfl) rfl rfl (by simp)).calls _ _

theorem popReturn (h : Inv s nodes) {fd : Int} (hp : s.phase t = .popReturn fd) :
    Inv (s.popReturn t fd) nodes :=
  (h.outside (q := .idle) (by rw [hp]; rfl) rfl rfl (by simp)).calls _ _

/-- **Every step keeps the invariant.** -/
theorem step {s' : State ι} (h : Inv s nodes) (hs : Step s s') : ∃ nodes', Inv s' nodes' := by
  cases hs with
  | callPop t hp => exact ⟨nodes, h.outside (by rw [hp]; rfl) rfl rfl (by simp)⟩
  | callPush t fd hp => exact ⟨nodes, h.callPush hp fd⟩
  | inner t hs => exact h.inner hs
  | popReturn t fd hp => exact ⟨nodes, h.popReturn hp⟩
  | spurious t hp => exact ⟨nodes, h.outside (by rw [hp]; rfl) rfl rfl (by simp)⟩

end Inv

/-! ## Every reachable state -/

section Reachable

variable [DecidableEq ι] {s : State ι}

theorem exists_inv (h : system.Reachable s) : ∃ nodes, Inv s nodes := by
  refine System.invariant (I := fun s => ∃ nodes, Inv s nodes) (fun s h0 => ?_)
    (fun s s' _ hi hs => ?_) h
  · rw [show s = .start from h0]
    exact ⟨[], inv_start⟩
  · obtain ⟨nodes, hi⟩ := hi
    exact hi.step hs

/-- No thread ever follows a bad pointer. -/
theorem not_crashed (h : system.Reachable s) (t : ι) : s.phase t ≠ .crashed := by
  obtain ⟨nodes, hi⟩ := exists_inv h
  exact hi.ne_crashed t

end Reachable

end SystemProgramming.HttpServer.Wq
