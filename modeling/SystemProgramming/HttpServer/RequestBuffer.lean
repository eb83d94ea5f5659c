import SystemProgramming.HttpServer.Request
import SystemProgramming.Lib.Indexed

/-!
# The buffer of a request

`http_request_parse` of `HTTP_Server/libhttp.c` after the call of `read`, with indices into
`read_buffer`: the value that `read` has returned may be any that it can return, and the buffer
may hold anything. There is memory for the copies of the method and the path.

* `httpRequestParseAt_eq`: as long as `read` has not failed, the indices follow the cursors of
  `scanRequest`.
* `staysInside_iff`: the function stays inside its buffer exactly if `read` has not failed.
-/

namespace SystemProgramming.HttpServer

open Lib

/-- What `read` leaves: the value it returns, and `read_buffer`. -/
structure ReadOutcome where
  bytesRead : Int
  readBuffer : Str
  length_eq : readBuffer.length = libhttpRequestMaxSize + 1
  bytesRead_ge : -1 ≤ bytesRead
  bytesRead_le : bytesRead ≤ libhttpRequestMaxSize

/-- The scan of `read_buffer` by indices, from the path on. `none` is `NULL`. -/
def scanPathAt (fuel : Nat) (readBuffer method : Str) (readStart : Int) :
    Except IndexFault (Option HttpRequest) := do
  let (path, readEnd) ← fieldAt isPathChar readBuffer fuel readStart
  if path = [] then .ok none
  else do
    let readEnd ← scanAt isLineChar readBuffer fuel readEnd
    let c ← loadAt readBuffer readEnd
    if c ≠ 10 then .ok none else .ok (some ⟨method, path⟩)

/-- The scan of `read_buffer` by indices. -/
def scanRequestAt (fuel : Nat) (readBuffer : Str) : Except IndexFault (Option HttpRequest) := do
  let (method, readEnd) ← fieldAt isMethodChar readBuffer fuel 0
  if method = [] then .ok none
  else do
    let c ← loadAt readBuffer readEnd
    if c ≠ 32 then .ok none else scanPathAt fuel readBuffer method (readEnd + 1)

/-- `http_request_parse` behind the call of `read`. -/
def httpRequestParseAt (fuel : Nat) (r : ReadOutcome) :
    Except IndexFault (Option HttpRequest) := do
  let readBuffer ← storeAt r.readBuffer r.bytesRead 0
  scanRequestAt fuel readBuffer

/-- **The parser stays inside its buffer**: it comes to an end without an access at another index
than those from 0 to 8192, and returns `NULL` if nothing has been read. -/
def StaysInside (r : ReadOutcome) : Prop :=
  ∃ n result, (∀ fuel, n ≤ fuel → httpRequestParseAt fuel r = .ok result) ∧
    (r.bytesRead ≤ 0 → result = none)

variable {r : ReadOutcome} {s t : Str} {fuel n : Nat} {result : Option HttpRequest}

/-! ## The ways through the parser -/

/-- Where the scan of `s` ends, and with which result. -/
inductive ScanEnd (s : Str) : Option HttpRequest → Prop
  | noMethod {w} (h : scanWhile isMethodChar s = some ([], w)) : ScanEnd s none
  | noBlank {method c w} (h : scanWhile isMethodChar s = some (method, c :: w))
      (hm : method ≠ []) (hc : c ≠ 32) : ScanEnd s none
  | noPath {method v w} (h : scanWhile isMethodChar s = some (method, 32 :: v))
      (hm : method ≠ []) (hv : scanWhile isPathChar v = some ([], w)) : ScanEnd s none
  | noNewline {method path rest c u v w} (h : scanWhile isMethodChar s = some (method, 32 :: v))
      (hm : method ≠ []) (hv : scanWhile isPathChar v = some (path, u)) (hp : path ≠ [])
      (hu : scanWhile isLineChar u = some (rest, c :: w)) (hc : c ≠ 10) : ScanEnd s none
  | line {method path rest u v w} (h : scanWhile isMethodChar s = some (method, 32 :: v))
      (hm : method ≠ []) (hv : scanWhile isPathChar v = some (path, u)) (hp : path ≠ [])
      (hu : scanWhile isLineChar u = some (rest, 10 :: w)) : ScanEnd s (some ⟨method, path⟩)

theorem scanRequest_of_end (h : ScanEnd s result) : scanRequest s = some result := by
  unfold scanRequest
  cases h with
  | noMethod h => simp [h]
  | noBlank h hm hc => simp [h, hm, hc, deref]
  | noPath h hm hv => simp [h, hm, hv, deref]
  | noNewline h hm hv hp hu hc => simp [h, hm, hv, hp, hu, hc, deref]
  | line h hm hv hp hu => simp [h, hm, hv, hp, hu, deref]

/-- A scan that stays inside the buffer ends in one of these ways. -/
theorem scanEnd_of_some (h : scanRequest s = some result) : ScanEnd s result := by
  unfold scanRequest at h
  obtain ⟨⟨method, s1⟩, h1, hblank⟩ := Option.bind_eq_some_iff.mp h
  dsimp only at hblank
  split_ifs at hblank with hm
  · obtain rfl := Option.some.inj hblank
    subst hm
    exact .noMethod h1
  obtain ⟨c, hc, hpath⟩ := Option.bind_eq_some_iff.mp hblank
  obtain ⟨v, rfl⟩ := List.head?_eq_some_iff.mp hc
  split_ifs at hpath with h32
  · obtain rfl := Option.some.inj hpath
    exact .noBlank h1 hm h32
  obtain rfl := not_not.mp h32
  obtain ⟨⟨path, u⟩, h2, hrest⟩ := Option.bind_eq_some_iff.mp hpath
  dsimp only at hrest
  split_ifs at hrest with hp
  · obtain rfl := Option.some.inj hrest
    subst hp
    exact .noPath h1 hm h2
  obtain ⟨⟨rest, s3⟩, h3, hend⟩ := Option.bind_eq_some_iff.mp hrest
  obtain ⟨c, hc, hresult⟩ := Option.bind_eq_some_iff.mp hend
  obtain ⟨w, rfl⟩ := List.head?_eq_some_iff.mp hc
  split_ifs at hresult with h10
  · obtain rfl := Option.some.inj hresult
    exact .noNewline h1 hm h2 hp h3 h10
  · obtain rfl := Option.some.inj hresult
    obtain rfl := not_not.mp h10
    exact .line h1 hm h2 hp h3

/-- Where the scan ends does not depend on what follows. -/
theorem ScanEnd.append (h : ScanEnd s result) (t : Str) : ScanEnd (s ++ t) result := by
  cases h with
  | noMethod h => exact .noMethod (scanWhile_extend h t)
  | noBlank h hm hc => exact .noBlank (scanWhile_extend h t) hm hc
  | noPath h hm hv => exact .noPath (scanWhile_extend h t) hm (scanWhile_extend hv t)
  | noNewline h hm hv hp hu hc =>
    exact .noNewline (scanWhile_extend h t) hm (scanWhile_extend hv t) hp (scanWhile_extend hu t) hc
  | line h hm hv hp hu =>
    exact .line (scanWhile_extend h t) hm (scanWhile_extend hv t) hp (scanWhile_extend hu t)

/-! ## Indices -/

/-- A loop passes over less than the buffer. -/
theorem length_lt_of_scanWhile {p : UInt8 → Bool} {i : Nat} {u w : Str}
    (h : scanWhile p (s.drop i) = some (u, w)) (hfuel : s.length < fuel) : u.length < fuel := by
  have hlen := congrArg List.length (eq_of_scanWhile h)
  rw [List.length_append, List.length_drop] at hlen
  omega

/-- The method and the byte behind it. -/
theorem scanRequestAt_method {method w : Str} {c : UInt8}
    (h : scanWhile isMethodChar s = some (method, c :: w)) (hm : method ≠ [])
    (hfuel : s.length < fuel) :
    scanRequestAt fuel s =
      if c ≠ 32 then .ok none else scanPathAt fuel s method ((method.length + 1 : Nat) : Int) := by
  have hfield := fieldAt_eq (i := 0) h (length_lt_of_scanWhile (i := 0) h hfuel)
  have hload := loadAt_of_drop (drop_add_of_append (i := 0) (eq_of_scanWhile h))
  rw [Nat.zero_add] at hfield hload
  simp only [scanRequestAt, ← Int.natCast_zero, hfield, hload, bind, Except.bind, hm, if_false]
  rfl

/-- The path, and the byte behind the rest of the line. -/
theorem scanPathAt_line {i : Nat} {method path rest u w : Str} {c : UInt8}
    (hv : scanWhile isPathChar (s.drop i) = some (path, u)) (hp : path ≠ [])
    (hu : scanWhile isLineChar u = some (rest, c :: w)) (hfuel : s.length < fuel) :
    scanPathAt fuel s method i = if c ≠ 10 then .ok none else .ok (some ⟨method, path⟩) := by
  have hdrop := drop_add_of_append (eq_of_scanWhile hv)
  have hload := loadAt_of_drop (drop_add_of_append (hdrop.trans (eq_of_scanWhile hu)))
  rw [← hdrop] at hu
  have hfield := fieldAt_eq hv (length_lt_of_scanWhile hv hfuel)
  have hscan := scanAt_eq hu (length_lt_of_scanWhile hu hfuel)
  simp only [scanPathAt, hfield, hscan, hload, bind, Except.bind, hp, if_false]

/-- **The indices follow the cursors.** -/
theorem scanRequestAt_of_end (h : ScanEnd s result) (hfuel : s.length < fuel) :
    scanRequestAt fuel s = .ok result := by
  have hafter : ∀ {method v}, scanWhile isMethodChar s = some (method, 32 :: v) →
      s.drop (method.length + 1) = v := fun {method v} h => by
    rw [eq_of_scanWhile h, ← List.drop_drop, List.drop_left]
    rfl
  cases h with
  | noMethod h =>
    have hfield := fieldAt_eq (i := 0) h (length_lt_of_scanWhile (i := 0) h hfuel)
    simp only [scanRequestAt, ← Int.natCast_zero, hfield, bind, Except.bind, if_true]
  | noBlank h hm hc => rw [scanRequestAt_method h hm hfuel, if_pos hc]
  | noPath h hm hv =>
    rw [← hafter h] at hv
    have hfield := fieldAt_eq hv (length_lt_of_scanWhile hv hfuel)
    rw [scanRequestAt_method h hm hfuel, if_neg (by simp)]
    simp only [scanPathAt, hfield, bind, Except.bind, if_true]
  | noNewline h hm hv hp hu hc =>
    rw [← hafter h] at hv
    rw [scanRequestAt_method h hm hfuel, if_neg (by simp), scanPathAt_line hv hp hu hfuel,
      if_pos hc]
  | line h hm hv hp hu =>
    rw [← hafter h] at hv
    rw [scanRequestAt_method h hm hfuel, if_neg (by simp), scanPathAt_line hv hp hu hfuel,
      if_neg (by simp)]

/-! ## The results of `read` -/

/-- A scan of a buffer that holds a `NUL` ends. -/
theorem exists_scanEnd (h0 : 0 ∈ s) : ∃ result, ScanEnd s result := by
  rcases scanRequest_cases h0 with h | ⟨method, path, rest, tail, hline, hp, hr⟩
  · exact ⟨_, scanEnd_of_some h⟩
  · exact ⟨_, scanEnd_of_some (scanRequest_complete hline hp hr)⟩

/-- **The parser by indices** gives what the scan of the bytes that have been read gives. -/
theorem httpRequestParseAt_eq (r : ReadOutcome) (h : 0 ≤ r.bytesRead) :
    ∃ result, scanRequest (r.readBuffer.take r.bytesRead.toNat ++ [0]) = some result ∧
      ∀ fuel, libhttpRequestMaxSize + 2 ≤ fuel → httpRequestParseAt fuel r = .ok result := by
  obtain ⟨n, hn⟩ := Int.eq_ofNat_of_zero_le h
  have hlt : n < r.readBuffer.length := by
    have := r.bytesRead_le
    rw [r.length_eq]
    omega
  rw [hn, Int.toNat_natCast]
  obtain ⟨result, hend⟩ := exists_scanEnd (s := r.readBuffer.take n ++ [0]) (by simp)
  refine ⟨result, scanRequest_of_end hend, fun fuel hfuel => ?_⟩
  have hset : r.readBuffer.set n 0 = r.readBuffer.take n ++ [0] ++ r.readBuffer.drop (n + 1) := by
    rw [List.set_eq_take_append_cons_drop, if_pos hlt, List.append_assoc]
    rfl
  have hlen : (r.readBuffer.set n 0).length < fuel := by
    rw [List.length_set, r.length_eq]
    exact hfuel
  rw [hset] at hlen
  rw [httpRequestParseAt, hn, storeAt_of_lt hlt, hset]
  exact scanRequestAt_of_end (hend.append _) hlen

/-- What `httpRequestParse` gives is what the parser by indices gives. -/
theorem httpRequestParse_refines {fd : Socket} (h : 0 ≤ r.bytesRead)
    (hread : (read libhttpRequestMaxSize fd).1 = r.readBuffer.take r.bytesRead.toNat) :
    ∃ result, (httpRequestParse fd).1 = some result ∧
      ∀ fuel, libhttpRequestMaxSize + 2 ≤ fuel → httpRequestParseAt fuel r = .ok result := by
  obtain ⟨result, hscan, hrun⟩ := httpRequestParseAt_eq r h
  exact ⟨result, by rw [httpRequestParse, hread, hscan], hrun⟩

/-- A `read` that has failed makes the parser store the terminator in front of the buffer. -/
theorem httpRequestParseAt_failed (h : r.bytesRead = -1) (fuel : Nat) :
    httpRequestParseAt fuel r = .error (.outside (-1)) := by
  rw [httpRequestParseAt, h, storeAt_of_neg (by decide)]
  rfl

/-- **`http_request_parse` stays inside its buffer** exactly if `read` has not failed. -/
theorem staysInside_iff (r : ReadOutcome) : StaysInside r ↔ r.bytesRead ≠ -1 := by
  constructor
  · rintro ⟨n, result, hrun, -⟩ hfailed
    have := hrun n (Nat.le_refl n)
    rw [httpRequestParseAt_failed hfailed] at this
    exact absurd this (by simp)
  · intro hne
    have h : 0 ≤ r.bytesRead := by
      have := r.bytesRead_ge
      omega
    obtain ⟨result, hscan, hrun⟩ := httpRequestParseAt_eq r h
    refine ⟨libhttpRequestMaxSize + 2, result, hrun, fun hnone => ?_⟩
    rw [show r.bytesRead = 0 by omega, Int.toNat_zero, List.take_zero] at hscan
    have hempty : scanRequest ([] ++ [0]) = some none := by decide
    exact Option.some.inj (hscan.symm.trans hempty)

/-- A `read` that fails, with a buffer that holds an `A` everywhere. -/
def failedRead : ReadOutcome where
  bytesRead := -1
  readBuffer := List.replicate (libhttpRequestMaxSize + 1) 65
  length_eq := List.length_replicate
  bytesRead_ge := by decide
  bytesRead_le := by decide

/-- The terminator goes to the index -1. -/
theorem staysInside_failedRead : ¬ (∀ r : ReadOutcome, StaysInside r) ∧
    ∀ fuel, httpRequestParseAt fuel failedRead = .error (.outside (-1)) := by
  refine ⟨fun hclaim => ?_, httpRequestParseAt_failed (r := failedRead) rfl⟩
  obtain ⟨n, result, hrun, -⟩ := hclaim failedRead
  have := hrun n (Nat.le_refl n)
  rw [httpRequestParseAt_failed rfl] at this
  exact absurd this (by simp)

end SystemProgramming.HttpServer
