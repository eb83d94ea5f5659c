import SystemProgramming.Lib.Bytes
import SystemProgramming.Lib.Cursor

/-!
# The request parser

`http_request_parse` of `HTTP_Server/libhttp.c`. A socket is the list of byte strings that
successive calls of `read` deliver. The parser calls `read` once and puts a NUL behind what it gets.
Its three loops run through the buffer by pointers, and an access outside the buffer would make
`httpRequestParse` give `none`.

`RequestLine` is the grammar of what it accepts, up to the first NUL.

* `httpRequestParse_iff`: the parser stays inside the buffer, accepts exactly the grammar and
  returns the method and the path, which the text determines.
* `httpRequestParse_chunks`: what it makes of a text that comes in several pieces.
-/

namespace SystemProgramming.HttpServer

open Lib

/-- What successive reads on a socket deliver. -/
abbrev Socket := List Str

/-- `LIBHTTP_REQUEST_MAX_SIZE`. -/
def libhttpRequestMaxSize : Nat := 8192

/-- `read` of at most `size` bytes: what it delivers, and the socket after. -/
def read (size : Nat) : Socket → Str × Socket
  | [] => ([], [])
  | chunk :: fd =>
    (chunk.take size, if chunk.length ≤ size then fd else chunk.drop size :: fd)

/-- `struct http_request`. -/
structure HttpRequest where
  method : Str
  path : Str
  deriving DecidableEq

/-- `*p >= 'A' && *p <= 'Z'`. -/
def isMethodChar (b : UInt8) : Bool := 65 ≤ b && b ≤ 90

/-- `*p != '\0' && *p != ' ' && *p != '\n'`. -/
def isPathChar (b : UInt8) : Bool := b != 0 && b != 32 && b != 10

/-- `*p != '\0' && *p != '\n'`. -/
def isLineChar (b : UInt8) : Bool := b != 0 && b != 10

/-- The scan of `read_buffer`. The inner `none` is `NULL`, the outer one an access outside the
buffer. -/
def scanRequest (readBuffer : Str) : Option (Option HttpRequest) :=
  (scanWhile isMethodChar readBuffer).bind fun (method, readEnd) =>
    if method = [] then some none
    else (deref readEnd).bind fun c =>
      if c ≠ 32 then some none
      else (scanWhile isPathChar readEnd.tail).bind fun (path, readEnd) =>
        if path = [] then some none
        else (scanWhile isLineChar readEnd).bind fun (_, readEnd) =>
          (deref readEnd).bind fun c =>
            if c ≠ 10 then some none else some (some ⟨method, path⟩)

/-- `http_request_parse`: what it returns, and the socket after. -/
def httpRequestParse (fd : Socket) : Option (Option HttpRequest) × Socket :=
  (scanRequest ((read libhttpRequestMaxSize fd).1 ++ [0]), (read libhttpRequestMaxSize fd).2)

/-! ## The grammar -/

/-- **The request line**: `s` is a method, a blank, a path, the rest of the line, which is empty or
starts with a blank, a newline, and anything. -/
structure RequestLine (s method path rest tail : Str) : Prop where
  eq : s = method ++ 32 :: (path ++ (rest ++ 10 :: tail))
  method_ne : method ≠ []
  method_char : ∀ b ∈ method, 65 ≤ b ∧ b ≤ 90
  path_ne : path ≠ []
  path_char : ∀ b ∈ path, b ≠ 32 ∧ b ≠ 10
  rest_blank : rest = [] ∨ ∃ r, rest = 32 :: r
  rest_char : 10 ∉ rest

variable {s method path rest tail : Str}

theorem isMethodChar_iff {b : UInt8} : isMethodChar b = true ↔ 65 ≤ b ∧ b ≤ 90 := by
  simp [isMethodChar]

theorem isPathChar_iff {b : UInt8} : isPathChar b = true ↔ b ≠ 0 ∧ b ≠ 32 ∧ b ≠ 10 := by
  simp [isPathChar, and_assoc]

theorem isLineChar_iff {b : UInt8} : isLineChar b = true ↔ b ≠ 0 ∧ b ≠ 10 := by
  simp [isLineChar]

/-- What follows the path starts with a blank or the newline. -/
theorem RequestLine.after_path (h : RequestLine s method path rest tail) :
    ∃ c w, rest ++ 10 :: tail = c :: w ∧ isPathChar c = false := by
  rcases h.rest_blank with rfl | ⟨r, rfl⟩
  · exact ⟨10, tail, rfl, by decide⟩
  · exact ⟨32, r ++ 10 :: tail, rfl, by decide⟩

/-- **The scan accepts the grammar.** -/
theorem scanRequest_complete (h : RequestLine s method path rest tail) (hp : 0 ∉ path)
    (hr : 0 ∉ rest) : scanRequest s = some (some ⟨method, path⟩) := by
  obtain ⟨c, w, hcw, hc⟩ := h.after_path
  have hm : ∀ b ∈ method, isMethodChar b = true := fun b hb =>
    isMethodChar_iff.mpr (h.method_char b hb)
  have hpath : ∀ b ∈ path, isPathChar b = true := fun b hb =>
    isPathChar_iff.mpr ⟨fun h0 => hp (h0 ▸ hb), h.path_char b hb⟩
  have hrest : ∀ b ∈ rest, isLineChar b = true := fun b hb =>
    isLineChar_iff.mpr ⟨fun h0 => hr (h0 ▸ hb), fun h10 => h.rest_char (h10 ▸ hb)⟩
  unfold scanRequest
  rw [h.eq, scanWhile_append hm (by decide), Option.bind_some]
  simp only [h.method_ne, if_false, deref, List.head?_cons, Option.bind_some, ne_eq,
    not_true_eq_false, List.tail_cons]
  rw [hcw, scanWhile_append hpath hc, Option.bind_some]
  simp only [h.path_ne, if_false]
  rw [← hcw, scanWhile_append hrest (by decide), Option.bind_some]
  simp

/-- **The scan stays inside a buffer that holds a NUL**, and what it accepts is in the grammar. -/
theorem scanRequest_cases (h0 : 0 ∈ s) :
    scanRequest s = some none ∨ ∃ method path rest tail,
      RequestLine s method path rest tail ∧ 0 ∉ path ∧ 0 ∉ rest := by
  obtain ⟨method, c, w, rfl, hm, hc⟩ := exists_stop h0 (p := isMethodChar) (by decide)
  unfold scanRequest
  rw [scanWhile_append hm hc, Option.bind_some]
  by_cases hmne : method = []
  · exact Or.inl (by simp [hmne])
  simp only [hmne, if_false, deref, List.head?_cons, Option.bind_some]
  by_cases hc32 : c = 32
  swap
  · exact Or.inl (by simp [hc32])
  subst hc32
  have hmem : (0 : UInt8) ∈ w := by
    rcases List.mem_append.mp h0 with h | h
    · exact absurd (hm 0 h) (by decide)
    · exact (List.mem_cons.mp h).resolve_left (by decide)
  obtain ⟨path, d, v, rfl, hp, hd⟩ := exists_stop hmem (p := isPathChar) (by decide)
  simp only [ne_eq, not_true_eq_false, if_false, List.tail_cons]
  rw [scanWhile_append hp hd, Option.bind_some]
  by_cases hpne : path = []
  · exact Or.inl (by simp [hpne])
  simp only [hpne, if_false]
  have hmem' : (0 : UInt8) ∈ d :: v := by
    rcases List.mem_append.mp hmem with h | h
    · exact absurd (hp 0 h) (by decide)
    · exact h
  obtain ⟨rest, e, tail, hev, hr, he⟩ := exists_stop hmem' (p := isLineChar) (by decide)
  rw [hev, scanWhile_append hr he, Option.bind_some]
  by_cases he10 : e = 10
  swap
  · exact Or.inl (by simp [he10])
  subst he10
  refine Or.inr ⟨method, path, rest, tail, ⟨rfl, hmne, ?_, hpne, ?_, ?_, ?_⟩, ?_, ?_⟩
  · exact fun b hb => isMethodChar_iff.mp (hm b hb)
  · exact fun b hb => (isPathChar_iff.mp (hp b hb)).2
  · -- the path ended at the first byte of the rest, which is no newline
    cases rest with
    | nil => exact Or.inl rfl
    | cons b r =>
      obtain ⟨rfl, -⟩ := List.cons.inj hev
      obtain ⟨hne0, hne10⟩ := isLineChar_iff.mp (hr d List.mem_cons_self)
      have : d = 32 := by
        by_contra hne32
        rw [isPathChar_iff.mpr ⟨hne0, hne32, hne10⟩] at hd
        exact absurd hd (by simp)
      exact Or.inr ⟨r, by rw [this]⟩
  · exact fun h => (isLineChar_iff.mp (hr 10 h)).2 rfl
  · exact fun h => (isPathChar_iff.mp (hp 0 h)).1 rfl
  · exact fun h => (isLineChar_iff.mp (hr 0 h)).1 rfl

/-! ## Strings in a buffer -/

/-- Bytes behind a request do not matter. -/
theorem RequestLine.append (h : RequestLine s method path rest tail) (t : Str) :
    RequestLine (s ++ t) method path rest (tail ++ t) :=
  { h with eq := by rw [h.eq]; simp }

/-- A request line without NULs lies in the C string. -/
theorem RequestLine.cString (h : RequestLine s method path rest tail) (hp : 0 ∉ path)
    (hr : 0 ∉ rest) : RequestLine (cString s) method path rest (Lib.cString tail) := by
  have hm : 0 ∉ method := fun h0 => absurd (h.method_char 0 h0) (by decide)
  refine { h with eq := ?_ }
  have hkeep : ∀ {u : Str}, 0 ∉ u → ∀ v, Lib.cString (u ++ v) = u ++ Lib.cString v :=
    fun {u} hu v => List.takeWhile_append_of_pos fun b hb => by
      simp only [bne_iff_ne, ne_eq]
      rintro rfl
      exact hu hb
  have hcons : ∀ {b : UInt8}, b ≠ 0 → ∀ v, Lib.cString (b :: v) = b :: Lib.cString v :=
    fun hb v => List.takeWhile_cons_of_pos (by simpa using hb)
  rw [h.eq, hkeep hm, hcons (by decide), hkeep hp, hkeep hr, hcons (by decide)]

/-- **The scan of a text and its terminator** accepts exactly the grammar. -/
theorem scanRequest_iff (s : Str) :
    ∃ result, scanRequest (s ++ [0]) = some result ∧ ∀ request, result = some request ↔
      ∃ rest tail, RequestLine (cString s) request.method request.path rest tail := by
  have hcomplete : ∀ {m p r t}, RequestLine (cString s) m p r t →
      scanRequest (s ++ [0]) = some (some ⟨m, p⟩) := fun {m p r t} h => by
    have h0 := not_mem_cString s
    rw [h.eq] at h0
    have hp : 0 ∉ p := fun hm => h0 (by simp [hm])
    have hr : 0 ∉ r := fun hm => h0 (by simp [hm])
    have hfull := h.append (s.dropWhile (· != 0) ++ [0])
    rw [← List.append_assoc, Lib.cString, List.takeWhile_append_dropWhile] at hfull
    exact scanRequest_complete hfull hp hr
  rcases scanRequest_cases (s := s ++ [0]) (by simp) with h | ⟨m, p, r, t, h, hp, hr⟩
  · refine ⟨none, h, fun request => ⟨by simp, ?_⟩⟩
    rintro ⟨rest, tail, hline⟩
    exact absurd (h.symm.trans (hcomplete hline)) (by simp)
  · refine ⟨some ⟨m, p⟩, scanRequest_complete h hp hr, fun request => ⟨?_, ?_⟩⟩
    · intro he
      obtain rfl := Option.some.inj he
      have hc := h.cString hp hr
      rw [cString_append_nul] at hc
      exact ⟨r, _, hc⟩
    · rintro ⟨rest, tail, hline⟩
      have he := (scanRequest_complete h hp hr).symm.trans (hcomplete hline)
      exact Option.some.inj he

/-- The parts of a request line are determined by the text. -/
theorem RequestLine.unique {method' path' rest' tail' : Str} (h0 : 0 ∉ s)
    (h : RequestLine s method path rest tail) (h' : RequestLine s method' path' rest' tail') :
    method = method' ∧ path = path' ∧ rest = rest' ∧ tail = tail' := by
  obtain ⟨result, -, hiff⟩ := scanRequest_iff s
  rw [cString_of_not_mem h0] at hiff
  have h1 := (hiff ⟨method, path⟩).mpr ⟨rest, tail, h⟩
  have h2 := (hiff ⟨method', path'⟩).mpr ⟨rest', tail', h'⟩
  rw [h1] at h2
  obtain ⟨rfl, rfl⟩ : method = method' ∧ path = path' := by simpa using h2
  have heq := h.eq.symm.trans h'.eq
  have htail := (List.cons.inj (List.append_cancel_left heq)).2
  have hline : ∀ {r : Str}, 10 ∉ r → ∀ b ∈ r, (b != 10) = true := fun hr b hb => by
    simp only [bne_iff_ne, ne_eq]
    rintro rfl
    exact hr hb
  obtain ⟨rfl, hcons⟩ := append_cons_inj (hline h.rest_char) (hline h'.rest_char) (by decide)
    (by decide) (List.append_cancel_left htail)
  exact ⟨rfl, rfl, rfl, (List.cons.inj hcons).2⟩

/-! ## One read -/

/-- One read delivers a chunk that fits. -/
theorem httpRequestParse_chunk {chunk : Str} (h : chunk.length ≤ libhttpRequestMaxSize)
    (fd : Socket) : (httpRequestParse (chunk :: fd)).1 = scanRequest (chunk ++ [0]) := by
  unfold httpRequestParse
  simp only [read, List.take_of_length_le h]

/-- **`http_request_parse` accepts exactly its request-line grammar.** On what one read delivers it
stays inside its buffer. It returns a request iff the text up to the first NUL is a request line,
whose parts the text determines, and the request is the method and the path. -/
theorem httpRequestParse_iff (text : Str) (h : text.length ≤ libhttpRequestMaxSize) (fd : Socket) :
    (∃ result, (httpRequestParse (text :: fd)).1 = some result ∧
      ((∃ request, result = some request) ↔
        ∃ m p r t, RequestLine (cString text) m p r t) ∧
      ∀ m p r t, RequestLine (cString text) m p r t → result = some ⟨m, p⟩) ∧
    ∀ m p r t m' p' r' t', RequestLine (cString text) m p r t →
      RequestLine (cString text) m' p' r' t' → m = m' ∧ p = p' ∧ r = r' ∧ t = t' := by
  refine ⟨?_, fun m p r t m' p' r' t' h1 h2 => h1.unique (not_mem_cString text) h2⟩
  rw [httpRequestParse_chunk h]
  obtain ⟨result, hres, hiff⟩ := scanRequest_iff text
  refine ⟨result, hres, ⟨?_, ?_⟩, ?_⟩
  · rintro ⟨request, hr⟩
    obtain ⟨r, t, hline⟩ := (hiff request).mp hr
    exact ⟨_, _, r, t, hline⟩
  · rintro ⟨m, p, r, t, hline⟩
    exact ⟨⟨m, p⟩, (hiff ⟨m, p⟩).mpr ⟨r, t, hline⟩⟩
  · intro m p r t hline
    exact (hiff ⟨m, p⟩).mpr ⟨r, t, hline⟩

/-- A request with a NUL behind its first line. -/
theorem httpRequestParse_iff_get :
    (bytes "GET / HTTP/1.0\n" ++ [0, 65]).length ≤ libhttpRequestMaxSize ∧
      ∃ result, (httpRequestParse [bytes "GET / HTTP/1.0\n" ++ [0, 65]]).1 = some result ∧
        ((∃ request, result = some request) ↔
          ∃ m p r t, RequestLine (cString (bytes "GET / HTTP/1.0\n" ++ [0, 65])) m p r t) :=
  ⟨by decide, by
    obtain ⟨⟨result, h1, h2, -⟩, -⟩ :=
      httpRequestParse_iff (bytes "GET / HTTP/1.0\n" ++ [0, 65]) (by decide) []
    exact ⟨result, h1, h2⟩⟩

/-! ## Several reads -/

/-- The text is a request line, up to its first NUL. -/
def Accepted (text : Str) : Prop := ∃ m p r t, RequestLine (cString text) m p r t

/-- The first newline of a request line ends it. -/
theorem RequestLine.no_newline (h : RequestLine s method path rest tail) :
    10 ∉ method ++ 32 :: (path ++ rest) := by
  simp only [List.mem_append, List.mem_cons, not_or]
  refine ⟨fun hm => absurd (h.method_char 10 hm) (by decide), by decide,
    fun hp => (h.path_char 10 hp).2 rfl, h.rest_char⟩

/-- More text behind a request line leaves it one. -/
theorem RequestLine.extend (h : RequestLine (Lib.cString s) method path rest tail)
    (u : Str) : ∃ tail', RequestLine (Lib.cString (s ++ u)) method path rest tail' := by
  unfold Lib.cString
  rw [List.takeWhile_append]
  split_ifs with hs
  · rw [← (List.takeWhile_prefix _).eq_of_length hs]
    exact ⟨_, h.append _⟩
  · exact ⟨tail, h⟩

/-- The part of a text up to its first newline decides. -/
theorem RequestLine.shorten {u : Str}
    (h : RequestLine (Lib.cString (s ++ u)) method path rest tail) (h10 : 10 ∈ s) :
    ∃ tail', RequestLine (Lib.cString s) method path rest tail' := by
  have h0 := not_mem_cString (s ++ u)
  have hfull := h.append ((s ++ u).dropWhile (· != 0))
  rw [Lib.cString, List.takeWhile_append_dropWhile] at hfull
  have hno := h.no_newline
  obtain ⟨a, b, v, rfl, ha, hb⟩ := exists_stop h10 (p := fun b => b != 10) (by decide)
  obtain rfl : b = 10 := by simpa using hb
  have heq : a ++ 10 :: (v ++ u) = (method ++ 32 :: (path ++ rest)) ++
      10 :: (tail ++ (a ++ 10 :: v ++ u).dropWhile (· != 0)) := by
    have := hfull.eq
    simpa using this
  obtain ⟨rfl, -⟩ := append_cons_inj (p := fun b => b != 10) ha (fun b hb => by
    simp only [bne_iff_ne, ne_eq]
    rintro rfl
    exact hno hb) (by decide) (by decide) heq
  have hline : RequestLine ((method ++ 32 :: (path ++ rest)) ++ 10 :: v) method path rest v :=
    { h with eq := by simp }
  rw [h.eq] at h0
  exact ⟨_, hline.cString (fun hm => h0 (by simp [hm])) (fun hm => h0 (by simp [hm]))⟩

theorem RequestLine.newline_mem (h : RequestLine (Lib.cString s) method path rest tail) :
    10 ∈ s := by
  refine (List.takeWhile_prefix _).subset (?_ : 10 ∈ Lib.cString s)
  rw [h.eq]
  simp

/-- **What the parser makes of a text in several chunks is what it makes of the whole text iff the
whole text is not accepted, or its first chunk holds a newline.** It reads the first chunk only. -/
theorem httpRequestParse_chunks (chunks : List Str)
    (hlen : chunks.flatten.length ≤ libhttpRequestMaxSize) :
    (httpRequestParse chunks).1 = (httpRequestParse [chunks.flatten]).1 ↔
      ¬ Accepted chunks.flatten ∨ 10 ∈ chunks.headD [] := by
  cases chunks with
  | nil => exact iff_of_true rfl (Or.inl (by rintro ⟨m, p, r, t, h⟩; simpa using h.newline_mem))
  | cons c fd =>
    rw [List.flatten_cons] at hlen ⊢
    rw [httpRequestParse_chunk hlen, httpRequestParse_chunk (by
      rw [List.length_append] at hlen
      omega), List.headD_cons]
    obtain ⟨result, hres, hiff⟩ := scanRequest_iff c
    obtain ⟨result', hres', hiff'⟩ := scanRequest_iff (c ++ fd.flatten)
    rw [hres, hres', Option.some.injEq]
    constructor
    · rintro rfl
      by_cases hacc : Accepted (c ++ fd.flatten)
      · right
        obtain ⟨m, p, r, t, h⟩ := hacc
        obtain ⟨r', t', h'⟩ := (hiff ⟨m, p⟩).mp ((hiff' ⟨m, p⟩).mpr ⟨r, t, h⟩)
        exact h'.newline_mem
      · exact Or.inl hacc
    · intro hcond
      refine Option.ext fun request => ?_
      rw [hiff, hiff']
      constructor
      · rintro ⟨r, t, h⟩
        obtain ⟨t', h'⟩ := h.extend fd.flatten
        exact ⟨r, t', h'⟩
      · rintro ⟨r, t, h⟩
        have h10 := hcond.resolve_left (not_not.mpr ⟨_, _, r, t, h⟩)
        obtain ⟨t', h'⟩ := h.shorten h10
        exact ⟨r, t', h'⟩

/-- A request line that comes in two chunks, with the newline in the first. -/
theorem httpRequestParse_chunks_two :
    (httpRequestParse [bytes "GET / HTTP/1.0\n", bytes "Host: a\n\n"]).1 =
      (httpRequestParse [bytes "GET / HTTP/1.0\n" ++ bytes "Host: a\n\n"]).1 :=
  (httpRequestParse_chunks [bytes "GET / HTTP/1.0\n", bytes "Host: a\n\n"] (by decide)).mpr
    (Or.inr (by decide))

/-- A request that comes in two chunks, the first without the newline, is rejected. In one chunk it
is accepted. -/
theorem httpRequestParse_split :
    ¬ (∀ chunks : List Str, (∀ chunk ∈ chunks, chunk ≠ []) →
      chunks.flatten.length ≤ libhttpRequestMaxSize → Accepted chunks.flatten →
        (httpRequestParse chunks).1 = (httpRequestParse [chunks.flatten]).1) ∧
    (httpRequestParse [bytes "GET / HT", bytes "TP/1.0\n"]).1 = some none ∧
    (httpRequestParse [bytes "GET / HTTP/1.0\n"]).1 = some (some ⟨bytes "GET", bytes "/"⟩) := by
  have h1 : (httpRequestParse [bytes "GET / HT", bytes "TP/1.0\n"]).1 = some none := by decide
  have h2 : (httpRequestParse [bytes "GET / HTTP/1.0\n"]).1 =
      some (some ⟨bytes "GET", bytes "/"⟩) := by decide
  refine ⟨?_, h1, h2⟩
  intro hclaim
  have he : [bytes "GET / HT", bytes "TP/1.0\n"].flatten = bytes "GET / HTTP/1.0\n" := by decide
  have hacc : Accepted (bytes "GET / HTTP/1.0\n") := by
    obtain ⟨result, hres, hiff⟩ := scanRequest_iff (bytes "GET / HTTP/1.0\n")
    rw [httpRequestParse_chunk (by decide), hres] at h2
    obtain ⟨r, t, h⟩ := (hiff _).mp (Option.some.inj h2)
    exact ⟨_, _, r, t, h⟩
  have := hclaim [bytes "GET / HT", bytes "TP/1.0\n"] (by decide) (by decide) (he ▸ hacc)
  rw [he, h1, h2] at this
  exact absurd this (by simp)

end SystemProgramming.HttpServer
