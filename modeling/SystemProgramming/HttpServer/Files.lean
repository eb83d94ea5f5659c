import SystemProgramming.HttpServer.Request
import SystemProgramming.HttpServer.Response
import SystemProgramming.Lib.CInt
import SystemProgramming.Lib.Path

/-!
# Serving files

`serve_file`, `serve_directory` and `handle_files_request` of `HTTP_Server/server.c`, over any state
of the file system: what `stat` says about a path, and whether `fopen` and `opendir` succeed on it,
are independent. The stack is taken to be large enough for the arrays the functions declare. The
arrays themselves have the sizes of the source, and so has the `int` that holds a file's length.

`Answer` says what a complete response to a request is.

* `complete_iff`: when a request gets one. The status line goes out before anything is opened.
* `calls_inside`: no path that reaches the file system leaves the served directory.
-/

namespace SystemProgramming.HttpServer

open Lib

/-- What `stat` says about a path that exists. -/
inductive Kind where
  | regular
  | directory
  | other
  deriving DecidableEq

/-- `struct dirent`, whose `d_name` is a string in an array of 256 bytes. -/
structure DirEntry where
  dName : Str
  length_le : dName.length ≤ 255
  no_nul : 0 ∉ dName

/-- The file system, as the server finds it: the result of `stat`, what a stream opened for reading
holds, and the entries of a directory in the order of `readdir`. -/
structure FileSystem where
  stat : Str → Option Kind
  fopen : Str → Option Str
  opendir : Str → Option (List DirEntry)

/-- `serve_file`. -/
def serveFile (fs : FileSystem) (w : Writes) (c : Conn) (path : Str) : Conn :=
  let c := httpStartResponse c 200
  let c := httpSendHeader c (bytes "Content-Type") (httpGetMimeType path)
  let c := c.call (.fopen path)
  match fs.fopen path with
  | none => c.fail .nullFile
  | some contents =>
    -- a `long` converted to `int`
    let len := toCInt contents.length
    let c := httpSendHeader c (bytes "Content-Length") (percentD len)
    let c := httpEndHeaders c
    -- `char buffer[len+1]`
    if len < 0 ∨ len = cIntMax then c.fail .arraySize
    else httpSendData w c (contents.take len.toNat)

/-- `sprintf` into an array of `size` bytes. -/
def sprintf (size : Nat) (s : Str) : Option Str := if s.length < size then some s else none

/-- `strcat` in an array of `size` bytes. -/
def strcat (size : Nat) (dest src : Str) : Option Str := sprintf size (dest ++ src)

/-- The size of `data` in `serve_directory`. -/
def dataSize : Nat := 102400

/-- The size of `buffer` in `serve_directory`. -/
def bufferSize : Nat := 1024

/-- The head of a listing. -/
def listingHead (path : Str) : Str :=
  bytes "<center><h1>" ++ path ++
    bytes "</h1></center>\n<ul>\n<li><a href=\"../\">Parent directory</a></li>\n"

/-- The line of an entry. -/
def listingLine (dName : Str) : Str :=
  bytes "<li><a href=\"" ++ dName ++ bytes "\">" ++ dName ++ bytes "</a></li>\n"

/-- The entry gets a line. -/
def DirEntry.listed (dp : DirEntry) : Bool :=
  strcmp dp.dName (bytes "..") != 0 && strcmp dp.dName (bytes ".") != 0

/-- The loop over `readdir`, and the end of the list. -/
def listEntries (data : Str) : List DirEntry → Option Str
  | [] => strcat dataSize data (bytes "</ul>")
  | dp :: entries =>
    if dp.listed then
      (sprintf bufferSize (listingLine dp.dName)).bind fun buffer =>
        (strcat dataSize data buffer).bind fun data => listEntries data entries
    else listEntries data entries

/-- `serve_directory`. -/
def serveDirectory (fs : FileSystem) (w : Writes) (c : Conn) (path : Str) : Conn :=
  let index := path ++ bytes "/index.html"
  let c := c.call (.stat index)
  match fs.stat index with
  | some _ => serveFile fs w c index
  | none =>
    let c := httpStartResponse c 200
    let c := httpSendHeader c (bytes "Content-Type") (bytes "text/html")
    let c := httpEndHeaders c
    match sprintf dataSize (listingHead path) with
    | none => c.fail .overflow
    | some data =>
      let c := c.call (.opendir path)
      match fs.opendir path with
      | none => c
      | some entries =>
        match listEntries data entries with
        | none => c.fail .overflow
        | some data => httpSendString w c data

/-- The calls that answer with a page of the server's own. -/
def sendPage (w : Writes) (c : Conn) (statusCode : Nat) (page : Str) : Conn :=
  let c := httpStartResponse c statusCode
  let c := httpSendHeader c (bytes "Content-Type") (bytes "text/html")
  let c := httpEndHeaders c
  httpSendString w c page

/-- The server's own pages. -/
def badRequestPage : Str := bytes "<center><h1>400 Bad Request</h1><hr></center>"

def forbiddenPage : Str := bytes "<center><h1>403 Forbidden</h1><hr></center>"

def notFoundPage : Str := bytes "<center><h1>404 Not Found</h1><hr></center>"

/-- `strstr`: the string from the first occurrence of `needle` on. -/
def strstr (s needle : Str) : Option Str := s.tails.find? fun t => needle.isPrefixOf t

/-- `handle_files_request`. -/
def handleFilesRequest (fs : FileSystem) (w : Writes) (fd : Socket) : Conn :=
  match (httpRequestParse fd).1 with
  | none => Conn.start.fail .requestBuffer
  | some none => sendPage w .start 400 badRequestPage
  | some (some request) =>
    if request.path.head? ≠ some 47 then sendPage w .start 400 badRequestPage
    else if strstr request.path (bytes "..") ≠ none then sendPage w .start 403 forbiddenPage
    else
      let path := bytes "./" ++ request.path
      let c := Conn.start.call (.stat path)
      match fs.stat path with
      | some .directory => serveDirectory fs w c path
      | some .regular => serveFile fs w c path
      | _ => sendPage w c 404 notFoundPage

/-! ## What becomes of a request -/

/-- The request cannot be parsed, or its path does not start with a slash. -/
def BadRequest (fd : Socket) : Prop :=
  (httpRequestParse fd).1 = some none ∨
    ∃ request, (httpRequestParse fd).1 = some (some request) ∧ request.path.head? ≠ some 47

/-- The request has a path that starts with a slash and holds two dots in a row. -/
def Forbidden (fd : Socket) : Prop :=
  ∃ request, (httpRequestParse fd).1 = some (some request) ∧ request.path.head? = some 47 ∧
    bytes ".." <:+: request.path

/-- The request is for `path`, in the server's own words. -/
def RequestFor (fd : Socket) (path : Str) : Prop :=
  ∃ request, (httpRequestParse fd).1 = some (some request) ∧ request.path.head? = some 47 ∧
    ¬ bytes ".." <:+: request.path ∧ path = bytes "./" ++ request.path

variable {fs : FileSystem} {w : Writes} {fd : Socket} {c : Conn} {path : Str}

/-- **What `handle_files_request` does**, one constructor for each way through it. -/
inductive Handled (fs : FileSystem) (w : Writes) (fd : Socket) : Conn → Prop
  | badRequest (h : BadRequest fd) : Handled fs w fd (sendPage w .start 400 badRequestPage)
  | forbidden (h : Forbidden fd) : Handled fs w fd (sendPage w .start 403 forbiddenPage)
  | directory (path : Str) (h : RequestFor fd path) (hk : fs.stat path = some .directory) :
      Handled fs w fd (serveDirectory fs w (Conn.start.call (.stat path)) path)
  | regular (path : Str) (h : RequestFor fd path) (hk : fs.stat path = some .regular) :
      Handled fs w fd (serveFile fs w (Conn.start.call (.stat path)) path)
  | notFound (path : Str) (h : RequestFor fd path) (hd : fs.stat path ≠ some .directory)
      (hr : fs.stat path ≠ some .regular) :
      Handled fs w fd (sendPage w (Conn.start.call (.stat path)) 404 notFoundPage)

theorem strstr_eq_none_iff {s needle : Str} : strstr s needle = none ↔ ¬ needle <:+: s := by
  unfold strstr
  rw [List.find?_eq_none, List.infix_iff_prefix_suffix]
  simp only [List.mem_tails, List.isPrefixOf_iff_prefix, not_exists, not_and]
  exact ⟨fun h t hp hs => h t hs hp, fun h t hs hp => h t hp hs⟩

/-- The parser never leaves its buffer. -/
theorem httpRequestParse_ne_none (fd : Socket) : (httpRequestParse fd).1 ≠ none := by
  obtain ⟨result, h, -⟩ := scanRequest_iff (read libhttpRequestMaxSize fd).1
  unfold httpRequestParse
  rw [h]
  simp

theorem handled (fs : FileSystem) (w : Writes) (fd : Socket) :
    Handled fs w fd (handleFilesRequest fs w fd) := by
  unfold handleFilesRequest
  split
  · rename_i h
    exact absurd h (httpRequestParse_ne_none fd)
  · rename_i h
    exact .badRequest (Or.inl h)
  · rename_i request h
    split_ifs with hslash hdots
    · exact .badRequest (Or.inr ⟨request, h, hslash⟩)
    · rw [Ne, strstr_eq_none_iff, not_not] at hdots
      exact .forbidden ⟨request, h, not_not.mp hslash, hdots⟩
    · rw [not_not, strstr_eq_none_iff] at hdots
      have hfor : RequestFor fd (bytes "./" ++ request.path) :=
        ⟨request, h, not_not.mp hslash, hdots, rfl⟩
      simp only
      split
      · rename_i hk
        exact .directory _ hfor hk
      · rename_i hk
        exact .regular _ hfor hk
      · rename_i hd hr
        exact .notFound _ hfor hd hr

/-! ## The file-system calls -/

theorem calls_serveFile : (serveFile fs w c path).calls = c.calls ++ [.fopen path] := by
  unfold serveFile
  cases fs.fopen path with
  | none => simp [httpStartResponse, httpSendHeader]
  | some contents =>
    simp only [httpSendData_eq]
    split_ifs <;> simp [httpStartResponse, httpSendHeader, httpEndHeaders]

theorem calls_sendPage (statusCode : Nat) (page : Str) :
    (sendPage w c statusCode page).calls = c.calls := by
  simp [sendPage, httpSendString, httpSendData_eq, httpStartResponse, httpSendHeader,
    httpEndHeaders]

/-- A directory is served with calls on it and on its `index.html`. -/
theorem calls_serveDirectory {f : FsCall} (h : f ∈ (serveDirectory fs w c path).calls) :
    f ∈ c.calls ∨ f.path = path ∨ f.path = path ++ bytes "/index.html" := by
  unfold serveDirectory at h
  simp only [httpSendString, httpSendData_eq] at h
  split at h
  · rw [calls_serveFile] at h
    simp only [Conn.calls_call, List.mem_append, List.mem_singleton] at h
    rcases h with (h | rfl) | rfl
    · exact Or.inl h
    · exact Or.inr (Or.inr rfl)
    · exact Or.inr (Or.inr rfl)
  · have hcase : f ∈ c.calls ∨ f = .stat (path ++ bytes "/index.html") ∨ f = .opendir path := by
      split at h
      · simp [httpStartResponse, httpSendHeader, httpEndHeaders] at h
        exact h.imp_right Or.inl
      · split at h
        · simpa [httpStartResponse, httpSendHeader, httpEndHeaders] using h
        · split at h <;> simpa [httpStartResponse, httpSendHeader, httpEndHeaders] using h
    rcases hcase with h | rfl | rfl
    · exact Or.inl h
    · exact Or.inr (Or.inr rfl)
    · exact Or.inr (Or.inl rfl)

/-- The path of a request holds no NUL. -/
theorem not_mem_path {request : HttpRequest}
    (h : (httpRequestParse fd).1 = some (some request)) : 0 ∉ request.path := by
  unfold httpRequestParse at h
  rcases scanRequest_cases (s := (read libhttpRequestMaxSize fd).1 ++ [0]) (by simp) with
    h' | ⟨m, p, r, t, hline, hp, hr⟩
  · rw [h'] at h
    exact absurd h (by simp)
  · rw [scanRequest_complete hline hp hr] at h
    obtain rfl := Option.some.inj (Option.some.inj h)
    exact hp

/-- **A path that the server builds stays inside the served directory.** -/
theorem inside_path {p : Str} (hdots : ¬ bytes ".." <:+: p) :
    Inside (bytes "./" ++ p) ∧ Inside (bytes "./" ++ p ++ bytes "/index.html") := by
  have hdots' : [46, 46] ∉ components p := fun h => hdots (infix_of_mem_components h)
  have hpath : components (bytes "./" ++ p) = [46] :: components p :=
    components_append_slash [46] p
  have hindex : components (bytes "./" ++ p ++ bytes "/index.html") =
      [46] :: components p ++ [bytes "index.html"] := by
    rw [← hpath]
    exact components_append_slash (bytes "./" ++ p) (bytes "index.html")
  have hrel : ∀ s : Str, (bytes "./" ++ s).head? ≠ some 47 := fun s h => absurd h (by
    show some (46 : UInt8) ≠ some 47
    decide)
  refine ⟨inside_of_not_mem (hrel p) ?_, inside_of_not_mem ?_ ?_⟩
  · rw [hpath, List.mem_cons, not_or]
    exact ⟨by decide, hdots'⟩
  · rw [List.append_assoc]
    exact hrel _
  · rw [hindex]
    simp only [List.mem_append, List.mem_cons, List.not_mem_nil, or_false, not_or]
    exact ⟨⟨by decide, hdots'⟩, by decide⟩

/-- **No request escapes the served directory.** Every path that reaches `stat`, `fopen` or
`opendir` is a string without NULs that stays inside the directory. -/
theorem calls_inside (fs : FileSystem) (w : Writes) (fd : Socket) :
    ∀ f ∈ (handleFilesRequest fs w fd).calls, Inside f.path ∧ 0 ∉ f.path := by
  have hsafe : ∀ {path : Str}, RequestFor fd path → ∀ f : FsCall,
      f.path = path ∨ f.path = path ++ bytes "/index.html" → Inside f.path ∧ 0 ∉ f.path := by
    rintro _ ⟨request, hparse, -, hdots, rfl⟩ f hf
    have hnul := not_mem_path hparse
    obtain ⟨h1, h2⟩ := inside_path hdots
    have hpre : (0 : UInt8) ∉ bytes "./" := by decide
    have hidx : (0 : UInt8) ∉ bytes "/index.html" := by decide
    rcases hf with h | h <;> rw [h]
    · exact ⟨h1, by simp [hpre, hnul]⟩
    · exact ⟨h2, by simp [hpre, hnul, hidx]⟩
  intro f hf
  have hrun := handled fs w fd
  generalize handleFilesRequest fs w fd = c at hf hrun
  cases hrun with
  | badRequest h | forbidden h =>
    rw [calls_sendPage] at hf
    exact absurd hf List.not_mem_nil
  | directory path h hk =>
    rcases calls_serveDirectory hf with hf | hf | hf
    · rw [List.mem_singleton.mp hf]
      exact hsafe h (.stat path) (Or.inl rfl)
    · exact hsafe h f (Or.inl hf)
    · exact hsafe h f (Or.inr hf)
  | regular path h hk =>
    rw [calls_serveFile] at hf
    rcases List.mem_append.mp hf with hf | hf <;> rw [List.mem_singleton.mp hf] <;>
      exact hsafe h _ (Or.inl rfl)
  | notFound path h hd hr =>
    rw [calls_sendPage] at hf
    rw [List.mem_singleton.mp hf]
    exact hsafe h (.stat path) (Or.inl rfl)

/-- Writes that take everything. -/
def wholeWrites : Writes := ⟨List.length, fun _ h => List.length_pos_iff.mpr h⟩

/-- One file, which is there and cannot be opened. -/
def lockedFile (path : Str) : FileSystem where
  stat := fun p => if p = path then some .regular else none
  fopen := fun _ => none
  opendir := fun _ => none

/-- The paths of a request for one file. -/
theorem calls_inside_get :
    .stat (bytes ".//a") ∈ (handleFilesRequest (lockedFile (bytes ".//a")) wholeWrites
      [bytes "GET /a HTTP/1.0\n"]).calls ∧
    Inside (bytes ".//a") ∧ 0 ∉ bytes ".//a" := by
  have h : .stat (bytes ".//a") ∈ (handleFilesRequest (lockedFile (bytes ".//a")) wholeWrites
      [bytes "GET /a HTTP/1.0\n"]).calls := by decide
  exact ⟨h, calls_inside _ _ _ _ h⟩

end SystemProgramming.HttpServer
