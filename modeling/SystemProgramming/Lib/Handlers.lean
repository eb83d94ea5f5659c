import SystemProgramming.Lib.Transition

/-!
# Handlers that write to connections

A server starts handlers. While a handler runs it has a descriptor, and the descriptor refers to a
connection in the table of the handler. What the handler writes goes to that connection, in pieces
of any size, and between two pieces the server and the other handlers may do anything.

* `Handlers` is what a server shows of its handlers, and `Lawful` what it promises.
* `Next` is a step of the server with the bytes: what a handler has left to write, and what each
  connection has got.
* `Sent.of_reachable`, `Sent.isPrefix`, `Sent.whole`: every connection gets its own reply, in order.
* `exists_serving`: the bytes exclude no run of the server.
-/

namespace SystemProgramming.Lib

/-- A server seen from its handlers: the descriptor of a handler that runs, what a descriptor refers
to in the table of a handler, and how many handlers have been started for a connection. -/
structure Handlers (σ η γ δ : Type) where
  server : System σ
  running : σ → η → Option δ
  refers : σ → η → δ → Option γ
  started : σ → γ → Nat

namespace Handlers

variable {σ η γ δ β : Type} (H : Handlers σ η γ δ)

/-- What a step of the server does with the handlers: it starts one, or ends some, or neither. -/
inductive Change (s s' : σ) : Prop
  | begins (h : η) (fd : δ) (c : γ) (hold : H.running s h = none) (hnew : H.running s' h = some fd)
      (hother : ∀ k, k ≠ h → H.running s' k = H.running s k) (hrefers : H.refers s' h fd = some c)
      (hfirst : H.started s c = 0) (hstarted : ∀ d, d ≠ c → H.started s' d = H.started s d)
  | goes (hrunning : ∀ h, H.running s' h = H.running s h ∨ H.running s' h = none)
      (hstarted : ∀ c, H.started s' c = H.started s c)

/-- **What the server promises**: a connection gets one handler, and the descriptor of the handler
refers to it as long as the handler runs. -/
structure Lawful : Prop where
  start : ∀ s, H.server.init s → (∀ h, H.running s h = none) ∧ ∀ c, H.started s c = 0
  change : ∀ s s', H.server.Reachable s → H.server.next s s' → H.Change s s'
  refers : ∀ s h fd, H.server.Reachable s → H.running s h = some fd →
    ∃ c, H.refers s h fd = some c ∧ H.started s c ≠ 0
  unique : ∀ s h k fd fd' c, H.server.Reachable s → H.running s h = some fd →
    H.running s k = some fd' → H.refers s h fd = some c → H.refers s k fd' = some c → h = k
  stable : ∀ s s' h fd, H.server.Reachable s → H.server.next s s' → H.running s h = some fd →
    H.running s' h = some fd → H.refers s' h fd = H.refers s h fd

/-- The server, the pieces that each handler has left to write, and the bytes that each connection
has got. -/
structure Serving (σ η γ β : Type) where
  server : σ
  left : η → List (List β)
  stream : γ → List β

/-- What handler `h` has left to write, before and after a step of the server. It starts with the
reply to the connection its descriptor refers to, and it ends when it has written everything. -/
structure Keeps (reply : γ → List β) (s s' : σ) (h : η) (left left' : List (List β)) : Prop where
  begins : ∀ fd c, H.running s h = none → H.running s' h = some fd → H.refers s' h fd = some c →
    left'.flatten = reply c
  goes : H.running s' h = H.running s h → left' = left
  ends : H.running s h ≠ none → H.running s' h = none → left = []

/-- **The invariant**: a connection has got nothing before its handler starts, then what the handler
has not left, and everything when it is over. -/
structure Sent (reply : γ → List β) (s : Serving σ η γ β) : Prop where
  reachable : H.server.Reachable s.server
  fresh : ∀ c, H.started s.server c = 0 → s.stream c = []
  running : ∀ h fd c, H.running s.server h = some fd → H.refers s.server h fd = some c →
    s.stream c ++ (s.left h).flatten = reply c
  ended : ∀ c, H.started s.server c ≠ 0 →
    (∀ h fd, H.running s.server h = some fd → H.refers s.server h fd ≠ some c) →
    s.stream c = reply c

variable {H} {reply : γ → List β} {s s' : Serving σ η γ β}

namespace Sent

/-- **A step of the server keeps it.** -/
theorem server (hH : H.Lawful) (hi : H.Sent reply s) {server : σ} {left : η → List (List β)}
    (hs : H.server.next s.server server)
    (hleft : ∀ h, H.Keeps reply s.server server h (s.left h) (left h)) :
    H.Sent reply { s with server := server, left := left } := by
  have hchange := hH.change _ _ hi.reachable hs
  -- a handler that runs before and after
  have hgoes : ∀ h fd c, H.running s.server h = some fd → H.running server h = some fd →
      H.refers server h fd = some c → s.stream c ++ (left h).flatten = reply c :=
    fun h fd c hr hr' hc => by
      rw [(hleft h).goes (hr'.trans hr.symm)]
      exact hi.running h fd c hr ((hH.stable _ _ h fd hi.reachable hs hr hr').symm.trans hc)
  -- a connection without a handler after the step, and with a handler or none before
  have hended : ∀ c, H.started s.server c ≠ 0 →
      (∀ h, H.running server h = H.running s.server h ∨ H.running server h = none ∨
        H.running s.server h = none) →
      (∀ h fd, H.running server h = some fd → H.refers server h fd ≠ some c) →
      s.stream c = reply c := fun c hc hrunning hno => by
    by_cases hex : ∃ h fd, H.running s.server h = some fd ∧ H.refers s.server h fd = some c
    · obtain ⟨h, fd, hr, hrefers⟩ := hex
      have hsent := hi.running h fd c hr hrefers
      rcases hrunning h with hsame | hend | hnone
      · have hr' := hsame.trans hr
        exact absurd ((hH.stable _ _ h fd hi.reachable hs hr hr').trans hrefers) (hno h fd hr')
      · rw [(hleft h).ends (by simp [hr]) hend] at hsent
        simpa using hsent
      · exact absurd (hnone.symm.trans hr) (by simp)
    · exact hi.ended c hc fun h fd hr hrefers => hex ⟨h, fd, hr, hrefers⟩
  cases hchange with
  | begins h fd c hold hnew hother hrefers hfirst hstarted =>
    have hne : ∀ d, H.started server d = 0 → d ≠ c := fun d hd hdc => by
      obtain ⟨c', hc', hpos⟩ := hH.refers _ h fd (hi.reachable.step hs) hnew
      obtain rfl := Option.some.inj (hrefers.symm.trans hc')
      exact hpos (hdc ▸ hd)
    constructor
    case reachable => exact hi.reachable.step hs
    case fresh => exact fun d hd => hi.fresh d ((hstarted d (hne d hd)).symm.trans hd)
    case running =>
      intro k fd' d hr hd
      by_cases hk : k = h
      · subst hk
        obtain rfl := Option.some.inj (hnew.symm.trans hr)
        obtain rfl := Option.some.inj (hrefers.symm.trans hd)
        rw [hi.fresh c hfirst, List.nil_append]
        exact (hleft k).begins fd c hold hnew hrefers
      · exact hgoes k fd' d ((hother k hk).symm.trans hr) hr hd
    case ended =>
      intro d hd hno
      have hdc : d ≠ c := fun hdc => hno h fd hnew (hdc ▸ hrefers)
      refine hended d (fun h0 => hd ((hstarted d hdc).trans h0)) (fun k => ?_) hno
      by_cases hk : k = h
      · exact Or.inr (Or.inr (hk ▸ hold))
      · exact Or.inl (hother k hk)
  | goes hrunning hstarted =>
    constructor
    case reachable => exact hi.reachable.step hs
    case fresh => exact fun d hd => hi.fresh d ((hstarted d).symm.trans hd)
    case running =>
      intro k fd d hr hd
      rcases hrunning k with hsame | hend
      · exact hgoes k fd d (hsame.symm.trans hr) hr hd
      · exact absurd (hend.symm.trans hr) (by simp)
    case ended =>
      intro d hd hno
      exact hended d (fun h0 => hd ((hstarted d).trans h0))
        (fun k => (hrunning k).imp_right Or.inl) hno

/-- **A connection has always got the first part of its reply**, and nothing else. -/
theorem isPrefix (hi : H.Sent reply s) (c : γ) : s.stream c <+: reply c := by
  by_cases hstarted : H.started s.server c = 0
  · rw [hi.fresh c hstarted]
    exact List.nil_prefix
  · by_cases hex : ∃ h fd, H.running s.server h = some fd ∧ H.refers s.server h fd = some c
    · obtain ⟨h, fd, hr, hc⟩ := hex
      exact ⟨_, hi.running h fd c hr hc⟩
    · rw [hi.ended c hstarted fun h fd hr hc => hex ⟨h, fd, hr, hc⟩]

/-- **It has got all of it** once a handler has been started for it and none runs. -/
theorem whole (hi : H.Sent reply s) {c : γ} (hstarted : H.started s.server c ≠ 0)
    (hrest : ∀ h, H.running s.server h = none) : s.stream c = reply c :=
  hi.ended c hstarted fun h fd hr => absurd ((hrest h).symm.trans hr) (by simp)

end Sent

section Steps

variable [DecidableEq η] [DecidableEq γ]

variable (H) in
/-- **A step**: of the server, or of a handler that writes its next piece. A descriptor that refers
to nothing loses it. -/
inductive Next (reply : γ → List β) (s : Serving σ η γ β) : Serving σ η γ β → Prop
  | server {server : σ} {left : η → List (List β)} (hs : H.server.next s.server server)
      (hleft : ∀ h, H.Keeps reply s.server server h (s.left h) (left h)) :
      Next reply s { s with server := server, left := left }
  | write (h : η) (fd : δ) (c : γ) (piece : List β) (rest : List (List β))
      (hr : H.running s.server h = some fd) (hl : s.left h = piece :: rest)
      (hc : H.refers s.server h fd = some c) :
      Next reply s { s with
        left := Function.update s.left h rest
        stream := Function.update s.stream c (s.stream c ++ piece) }
  | lost (h : η) (fd : δ) (piece : List β) (rest : List (List β))
      (hr : H.running s.server h = some fd) (hl : s.left h = piece :: rest)
      (hc : H.refers s.server h fd = none) :
      Next reply s { s with left := Function.update s.left h rest }

variable (H) in
/-- The server with the bytes. -/
def serving (reply : γ → List β) : System (Serving σ η γ β) where
  init := fun s => H.server.init s.server ∧ (∀ h, s.left h = []) ∧ ∀ c, s.stream c = []
  next := H.Next reply

namespace Sent

theorem start (hH : H.Lawful) (h0 : (H.serving reply).init s) : H.Sent reply s where
  reachable := .start h0.1
  fresh := fun c _ => h0.2.2 c
  running := fun h fd c hr => absurd (((hH.start _ h0.1).1 h).symm.trans hr) (by simp)
  ended := fun c hc => absurd ((hH.start _ h0.1).2 c) hc

/-- **A piece that is written** comes next in the reply, and no other connection gets it. -/
theorem write (hH : H.Lawful) (hi : H.Sent reply s) {h : η} {fd : δ} {c : γ} {piece : List β}
    {rest : List (List β)} (hr : H.running s.server h = some fd) (hl : s.left h = piece :: rest)
    (hc : H.refers s.server h fd = some c) :
    H.Sent reply { s with
      left := Function.update s.left h rest
      stream := Function.update s.stream c (s.stream c ++ piece) } := by
  obtain ⟨c', hc', hpos⟩ := hH.refers _ h fd hi.reachable hr
  obtain rfl := Option.some.inj (hc.symm.trans hc')
  constructor
  case reachable => exact hi.reachable
  case fresh =>
    intro d hd
    have hdc : d ≠ c := fun hdc => hpos (hdc ▸ hd)
    exact (Function.update_of_ne hdc _ _).trans (hi.fresh d hd)
  case running =>
    intro k fd' d hk hd
    by_cases hkh : k = h
    · subst hkh
      obtain rfl := Option.some.inj (hr.symm.trans hk)
      obtain rfl := Option.some.inj (hc.symm.trans hd)
      have hsent := hi.running k fd c hr hc
      rw [hl, List.flatten_cons, ← List.append_assoc] at hsent
      dsimp only
      rwa [Function.update_self, Function.update_self]
    · have hdc : d ≠ c := fun hdc =>
        hkh (hH.unique _ k h fd' fd d hi.reachable hk hr hd (hdc ▸ hc))
      dsimp only
      rw [Function.update_of_ne hkh, Function.update_of_ne hdc]
      exact hi.running k fd' d hk hd
  case ended =>
    intro d hd hno
    have hdc : d ≠ c := fun hdc => hno h fd hr (hdc ▸ hc)
    exact (Function.update_of_ne hdc _ _).trans (hi.ended d hd hno)

theorem next (hH : H.Lawful) (hi : H.Sent reply s) (hs : H.Next reply s s') : H.Sent reply s' := by
  cases hs with
  | server hs hleft => exact hi.server hH hs hleft
  | write h fd c piece rest hr hl hc => exact hi.write hH hr hl hc
  | lost h fd piece rest hr hl hc =>
    obtain ⟨c, hc', -⟩ := hH.refers _ h fd hi.reachable hr
    exact absurd (hc.symm.trans hc') (by simp)

theorem of_reachable (hH : H.Lawful) (h : (H.serving reply).Reachable s) : H.Sent reply s :=
  System.invariant (fun _ h0 => start hH h0)
    (fun s s' _ hi (hs : H.Next reply s s') => hi.next hH hs) h

end Sent

/-- **Every run of the server is one with bytes**: each handler may write its reply in one piece as
soon as it has started. -/
theorem exists_serving (hH : H.Lawful) (reply : γ → List β) {a : σ} (h : H.server.Reachable a) :
    ∃ s, (H.serving reply).Reachable s ∧ s.server = a ∧ ∀ k, s.left k = [] := by
  refine System.invariant
    (I := fun a => ∃ s, (H.serving reply).Reachable s ∧ s.server = a ∧ ∀ k, s.left k = [])
    (fun a h0 => ?_) (fun a a' ha hi hs => ?_) h
  · have hstart : (H.serving reply).Reachable ⟨a, fun _ => [], fun _ => []⟩ :=
      .start ⟨h0, fun _ => rfl, fun _ => rfl⟩
    exact ⟨_, hstart, rfl, fun _ => rfl⟩
  obtain ⟨s, hr, rfl, hleft⟩ := hi
  cases hH.change _ _ ha hs with
  | begins h fd c hold hnew hother hrefers hfirst hstarted =>
    have hkeeps : ∀ k, H.Keeps reply s.server a' k (s.left k)
        (Function.update s.left h [reply c] k) := fun k => by
      by_cases hk : k = h
      · subst hk
        rw [Function.update_self]
        refine ⟨fun fd' d _ hr' hd => ?_, fun hsame => ?_, fun hne => absurd hold hne⟩
        · obtain rfl := Option.some.inj (hnew.symm.trans hr')
          obtain rfl := Option.some.inj (hrefers.symm.trans hd)
          exact List.append_nil _
        · exact absurd (hnew.symm.trans (hsame.trans hold)) (by simp)
      · rw [Function.update_of_ne hk]
        refine ⟨fun fd' d hnone hr' _ => ?_, fun _ => rfl, fun _ _ => hleft k⟩
        exact absurd (hnone.symm.trans ((hother k hk).symm.trans hr')) (by simp)
    have hbegun := hr.step (Next.server hs hkeeps)
    refine ⟨_, hbegun.step (Next.write h fd c (reply c) [] hnew (Function.update_self ..) hrefers),
      rfl, fun k => ?_⟩
    dsimp only
    by_cases hk : k = h
    · rw [hk, Function.update_self]
    · rw [Function.update_of_ne hk, Function.update_of_ne hk]
      exact hleft k
  | goes hrunning hstarted =>
    refine ⟨_, hr.step (.server hs fun k => ?_), rfl, hleft⟩
    refine ⟨fun fd c hnone hr' _ => ?_, fun _ => rfl, fun _ _ => hleft k⟩
    rcases hrunning k with hsame | hend
    · exact absurd (hnone.symm.trans (hsame.symm.trans hr')) (by simp)
    · exact absurd (hend.symm.trans hr') (by simp)

end Steps

end Handlers

end SystemProgramming.Lib
