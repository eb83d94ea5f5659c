import SystemProgramming.HttpServer.Files

/-!
# What a request is answered with

`Answer` says what a complete response to a request is, and `Complete` that `handle_files_request`
sends one, byte for byte, without a step whose behaviour is undefined.

* `sent_serveFile`, `listEntries_eq`: what the two serving functions send, and when their arrays do.
* `complete_iff`: a request gets its response iff what `stat` finds can be opened and fits the
  arrays (`Servable`). The status line and the headers go out before the file or directory is
  opened.
* `servedWhole_iff`: how long a file may be.
-/

namespace SystemProgramming.HttpServer

open Lib

/-! ## Answers -/

/-- A page in HTML. -/
def pageResponse (statusCode : Nat) (page : Str) : Response :=
  ⟨statusCode, [(bytes "Content-Type", bytes "text/html")], page⟩

/-- The response with a file announced as `len` bytes long. -/
def lengthResponse (path : Str) (len : Nat) (body : Str) : Response :=
  ⟨200, [(bytes "Content-Type", httpGetMimeType path), (bytes "Content-Length", decimal len)], body⟩

/-- The response with a whole file. -/
def fileResponse (path contents : Str) : Response :=
  lengthResponse path contents.length contents

/-- The lines of the entries. -/
def listingLines (entries : List DirEntry) : Str :=
  (entries.filter DirEntry.listed).flatMap fun dp => listingLine dp.dName

/-- The whole listing of a directory. -/
def listingPage (path : Str) (entries : List DirEntry) : Str :=
  listingHead path ++ listingLines entries ++ bytes "</ul>"

/-- **The complete responses to a request.** A file is the one named, or the `index.html` of the
directory named. A directory is listed only if it has none, and only what is neither a file nor a
directory is not found. -/
inductive Answer (fs : FileSystem) (fd : Socket) : Response → Prop
  | badRequest (h : BadRequest fd) : Answer fs fd (pageResponse 400 badRequestPage)
  | forbidden (h : Forbidden fd) : Answer fs fd (pageResponse 403 forbiddenPage)
  | file (path named contents : Str) (h : RequestFor fd named)
      (hp : path = named ∨
        (fs.stat named = some .directory ∧ path = named ++ bytes "/index.html"))
      (hk : fs.stat path = some .regular) (ho : fs.fopen path = some contents) :
      Answer fs fd (fileResponse path contents)
  | listing (path : Str) (entries : List DirEntry) (h : RequestFor fd path)
      (hk : fs.stat path = some .directory) (hi : fs.stat (path ++ bytes "/index.html") = none)
      (ho : fs.opendir path = some entries) :
      Answer fs fd (pageResponse 200 (listingPage path entries))
  | notFound (path : Str) (h : RequestFor fd path) (hd : fs.stat path ≠ some .directory)
      (hr : fs.stat path ≠ some .regular) : Answer fs fd (pageResponse 404 notFoundPage)

/-- **The request is answered with exactly one complete response.** -/
structure Complete (fs : FileSystem) (w : Writes) (fd : Socket) : Prop where
  no_fault : (handleFilesRequest fs w fd).fault = none
  answer : ∃ r, Answer fs fd r ∧ (handleFilesRequest fs w fd).sent = r.render

/-- The file can be opened, and its length and the array for it are an `int`. -/
def Fits (fs : FileSystem) (path : Str) : Prop :=
  ∃ contents, fs.fopen path = some contents ∧ contents.length < cIntMax

/-- **What is found can be served**: a regular file fits. A directory has an `index.html` that is a
regular file and fits, or it has none, can be opened, and its listing fits. -/
def Servable (fs : FileSystem) (fd : Socket) : Prop :=
  ∀ path, RequestFor fd path →
    (fs.stat path = some .regular → Fits fs path) ∧
    (fs.stat path = some .directory →
      (∀ kind, fs.stat (path ++ bytes "/index.html") = some kind →
        kind = .regular ∧ Fits fs (path ++ bytes "/index.html")) ∧
      (fs.stat (path ++ bytes "/index.html") = none → ∃ entries, fs.opendir path = some entries ∧
        (listingPage path entries).length < dataSize))

variable {fs : FileSystem} {w : Writes} {fd : Socket} {c : Conn} {path : Str}

theorem RequestFor.unique {path' : Str} (h : RequestFor fd path) (h' : RequestFor fd path') :
    path = path' := by
  obtain ⟨request, hp, -, -, rfl⟩ := h
  obtain ⟨request', hp', -, -, rfl⟩ := h'
  rw [hp] at hp'
  obtain rfl := Option.some.inj (Option.some.inj hp')
  rfl

theorem RequestFor.not_badRequest (h : RequestFor fd path) : ¬ BadRequest fd := by
  obtain ⟨request, hp, hslash, -, -⟩ := h
  rintro (hb | ⟨request', hp', hno⟩)
  · rw [hp] at hb
    exact absurd hb (by simp)
  · rw [hp] at hp'
    obtain rfl := Option.some.inj (Option.some.inj hp')
    exact hno hslash

theorem RequestFor.not_forbidden (h : RequestFor fd path) : ¬ Forbidden fd := by
  obtain ⟨request, hp, -, hdots, -⟩ := h
  rintro ⟨request', hp', -, hin⟩
  rw [hp] at hp'
  obtain rfl := Option.some.inj (Option.some.inj hp')
  exact hdots hin

theorem Forbidden.not_badRequest (h : Forbidden fd) : ¬ BadRequest fd := by
  obtain ⟨request, hp, hslash, -⟩ := h
  rintro (hb | ⟨request', hp', hno⟩)
  · rw [hp] at hb
    exact absurd hb (by simp)
  · rw [hp] at hp'
    obtain rfl := Option.some.inj (Option.some.inj hp')
    exact hno hslash

/-- The file that a request is for. -/
theorem file_unique {named path' : Str}
    (hp : path = named ∨ (fs.stat named = some .directory ∧ path = named ++ bytes "/index.html"))
    (hp' : path' = named ∨ (fs.stat named = some .directory ∧
      path' = named ++ bytes "/index.html"))
    (hk : fs.stat path = some .regular) (hk' : fs.stat path' = some .regular) : path = path' := by
  rcases hp with rfl | ⟨hd, rfl⟩ <;> rcases hp' with rfl | ⟨hd', rfl⟩
  · rfl
  · exact absurd (hk.symm.trans hd') (by simp)
  · exact absurd (hk'.symm.trans hd) (by simp)
  · rfl

theorem Answer.of_badRequest {r : Response} (h : Answer fs fd r) (hb : BadRequest fd) :
    r = pageResponse 400 badRequestPage := by
  cases h with
  | badRequest _ => rfl
  | forbidden hf => exact absurd hb hf.not_badRequest
  | file _ _ _ hfor => exact absurd hb hfor.not_badRequest
  | listing _ _ hfor => exact absurd hb hfor.not_badRequest
  | notFound _ hfor => exact absurd hb hfor.not_badRequest

theorem Answer.of_forbidden {r : Response} (h : Answer fs fd r) (hf : Forbidden fd) :
    r = pageResponse 403 forbiddenPage := by
  cases h with
  | badRequest hb => exact absurd hb hf.not_badRequest
  | forbidden _ => rfl
  | file _ _ _ hfor => exact absurd hf hfor.not_forbidden
  | listing _ _ hfor => exact absurd hf hfor.not_forbidden
  | notFound _ hfor => exact absurd hf hfor.not_forbidden

/-- A request for a path is answered in one of the last three ways. -/
theorem Answer.of_requestFor {r : Response} (h : Answer fs fd r) (hfor : RequestFor fd path) :
    (∃ file contents, (file = path ∨
        (fs.stat path = some .directory ∧ file = path ++ bytes "/index.html")) ∧
      fs.stat file = some .regular ∧ fs.fopen file = some contents ∧
        r = fileResponse file contents) ∨
    (fs.stat path = some .directory ∧ fs.stat (path ++ bytes "/index.html") = none ∧
      ∃ entries, fs.opendir path = some entries ∧
        r = pageResponse 200 (listingPage path entries)) ∨
    (fs.stat path ≠ some .directory ∧ fs.stat path ≠ some .regular ∧
      r = pageResponse 404 notFoundPage) := by
  cases h with
  | badRequest hb => exact absurd hb hfor.not_badRequest
  | forbidden hf => exact absurd hf hfor.not_forbidden
  | file file named contents hfor' hp hk ho =>
    obtain rfl := hfor.unique hfor'
    exact Or.inl ⟨file, contents, hp, hk, ho, rfl⟩
  | listing named entries hfor' hd hi ho =>
    obtain rfl := hfor.unique hfor'
    exact Or.inr (Or.inl ⟨hd, hi, entries, ho, rfl⟩)
  | notFound named hfor' hd hr =>
    obtain rfl := hfor.unique hfor'
    exact Or.inr (Or.inr ⟨hd, hr, rfl⟩)

/-- **A request has at most one answer.** -/
theorem Answer.unique {r r' : Response} (h : Answer fs fd r) (h' : Answer fs fd r') : r = r' := by
  cases h with
  | badRequest hb => exact (h'.of_badRequest hb).symm
  | forbidden hf => exact (h'.of_forbidden hf).symm
  | file path named contents hfor hp hk ho =>
    rcases h'.of_requestFor hfor with
      ⟨path', contents', hp', hk', ho', rfl⟩ | ⟨hd, hi, -⟩ | ⟨hd, hr, -⟩
    · obtain rfl := file_unique hp hp' hk hk'
      obtain rfl := Option.some.inj (ho.symm.trans ho')
      rfl
    · rcases hp with rfl | ⟨-, rfl⟩
      · exact absurd (hk.symm.trans hd) (by simp)
      · exact absurd (hk.symm.trans hi) (by simp)
    · rcases hp with rfl | ⟨hdir, -⟩
      · exact absurd hk hr
      · exact absurd hdir hd
  | listing path entries hfor hd hi ho =>
    rcases h'.of_requestFor hfor with
      ⟨path', contents', hp | ⟨-, hp⟩, hk, -, -⟩ | ⟨-, -, entries', ho', rfl⟩ | ⟨hnd, -, -⟩
    · exact absurd ((hp ▸ hk).symm.trans hd) (by simp)
    · exact absurd ((hp ▸ hk).symm.trans hi) (by simp)
    · obtain rfl := Option.some.inj (ho.symm.trans ho')
      rfl
    · exact absurd hd hnd
  | notFound path hfor hnd hr =>
    rcases h'.of_requestFor hfor with
      ⟨path', contents', hp | ⟨hd, -⟩, hk, -, -⟩ | ⟨hd, -⟩ | ⟨-, -, rfl⟩
    · exact absurd (hp ▸ hk) hr
    · exact absurd hd hnd
    · exact absurd hd hnd
    · rfl

/-! ## What is sent -/

theorem sent_sendPage (statusCode : Nat) (page : Str) :
    (sendPage w c statusCode page).sent = c.sent ++ (pageResponse statusCode page).render ∧
      (sendPage w c statusCode page).fault = c.fault := by
  simp [sendPage, httpSendString, httpSendData_eq, httpStartResponse, httpSendHeader,
    httpEndHeaders, pageResponse, Response.render]

theorem percentD_natCast (n : Nat) : percentD (n : Int) = decimal n := by
  unfold percentD
  rw [if_neg (by omega), Int.natAbs_natCast]

/-- **What `serve_file` sends**: a file that fits is sent whole. Otherwise a `NULL` stream is used,
the array has no size, or the length announced is not the file's. -/
theorem sent_serveFile (fs : FileSystem) (w : Writes) (c : Conn) (path : Str) :
    (∃ contents, fs.fopen path = some contents ∧ contents.length < cIntMax ∧
      (serveFile fs w c path).fault = c.fault ∧
      (serveFile fs w c path).sent = c.sent ++ (fileResponse path contents).render) ∨
    (¬ Fits fs path ∧ ((serveFile fs w c path).fault ≠ none ∨
      ∃ contents len, fs.fopen path = some contents ∧ len ≠ contents.length ∧
        (serveFile fs w c path).sent =
          c.sent ++ (lengthResponse path len (contents.take len)).render)) := by
  unfold serveFile Fits
  cases ho : fs.fopen path with
  | none => exact Or.inr ⟨by simp, Or.inl (by simp)⟩
  | some contents =>
    simp only [httpSendData_eq, Option.some.injEq, exists_eq_left']
    have hself := toCInt_eq_self_iff contents.length
    by_cases hlen : toCInt contents.length < 0 ∨ toCInt contents.length = cIntMax
    · rw [if_pos hlen]
      refine Or.inr ⟨fun hlt => ?_, Or.inl (by simp)⟩
      rw [hself.mpr (Nat.le_of_lt hlt)] at hlen
      omega
    · rw [if_neg hlen]
      obtain ⟨hneg, hmax⟩ := not_or.mp hlen
      obtain ⟨len, hl⟩ := Int.eq_ofNat_of_zero_le (Int.not_lt.mp hneg)
      rw [hl] at hself hmax
      have hsent : ∀ body : Str,
          ((httpEndHeaders (httpSendHeader ((httpSendHeader (httpStartResponse c 200)
            (bytes "Content-Type") (httpGetMimeType path)).call (.fopen path))
            (bytes "Content-Length") (decimal len))).write body).sent =
              c.sent ++ (lengthResponse path len body).render := fun body => by
        simp [httpStartResponse, httpSendHeader, httpEndHeaders, lengthResponse, Response.render]
      simp only [hl, percentD_natCast, Int.toNat_natCast, hsent]
      by_cases heq : len = contents.length
      · subst heq
        have hle := hself.mp rfl
        refine Or.inl ⟨by omega, rfl, ?_⟩
        rw [List.take_length]
        rfl
      · refine Or.inr ⟨fun hlt => heq ?_, Or.inr ⟨contents, len, rfl, heq, rfl⟩⟩
        exact_mod_cast hself.mpr (Nat.le_of_lt hlt)

theorem length_listingLine (name : Str) : (listingLine name).length = 25 + 2 * name.length := by
  have h1 : (bytes "<li><a href=\"").length = 13 := by decide
  have h2 : (bytes "\">").length = 2 := by decide
  have h3 : (bytes "</a></li>\n").length = 10 := by decide
  simp only [listingLine, List.length_append, h1, h2, h3]
  omega

/-- A line fits its buffer: `d_name` has at most 255 bytes. -/
theorem listingLine_fits (dp : DirEntry) : (listingLine dp.dName).length < bufferSize := by
  have := dp.length_le
  rw [length_listingLine, bufferSize]
  omega

/-- **The loop over the entries** gathers their lines, if the whole page fits. -/
theorem listEntries_eq (data : Str) (entries : List DirEntry) :
    listEntries data entries =
      sprintf dataSize (data ++ listingLines entries ++ bytes "</ul>") := by
  induction entries generalizing data with
  | nil => simp [listEntries, listingLines, strcat]
  | cons dp entries ih =>
    unfold listEntries
    by_cases hl : dp.listed = true
    · have hlines : listingLines (dp :: entries) =
          listingLine dp.dName ++ listingLines entries := by
        simp [listingLines, hl]
      rw [if_pos hl, sprintf, if_pos (listingLine_fits dp), Option.bind_some, hlines, strcat,
        sprintf]
      split_ifs with hfit
      · rw [Option.bind_some, ih]
        simp only [List.append_assoc]
      · -- what does not fit now does not fit with more behind it
        rw [Option.bind_none, sprintf, if_neg]
        simp only [List.length_append] at hfit ⊢
        omega
    · rw [if_neg hl, ih]
      simp [listingLines, hl]

/-! ## Telling responses apart -/

/-- A response with status 200, after its status line. -/
theorem render_ok (headers : List (Str × Str)) (body : Str) :
    (Response.mk 200 headers body).render = bytes "HTTP/1.0 200 OK\r\n" ++
      ((headers.flatMap fun h => h.1 ++ bytes ": " ++ h.2 ++ crlf) ++ crlf ++ body) := by
  have hline : bytes "HTTP/1.0 " ++ decimal 200 ++ [32] ++ httpGetResponseMessage 200 ++ crlf =
      bytes "HTTP/1.0 200 OK\r\n" := by decide
  rw [Response.render, hline, List.append_assoc, List.append_assoc, List.append_assoc]

theorem render_ok_ne_notFound (headers : List (Str × Str)) (body : Str) :
    (Response.mk 200 headers body).render ≠ (pageResponse 404 notFoundPage).render := fun h => by
  have hline : (pageResponse 404 notFoundPage).render = bytes "HTTP/1.0 4" ++
      (bytes "04 Not Found\r\nContent-Type: text/html\r\n\r\n" ++ notFoundPage) := by decide
  have hok : bytes "HTTP/1.0 200 OK\r\n" = bytes "HTTP/1.0 2" ++ bytes "00 OK\r\n" := by decide
  rw [render_ok, hline, hok, List.append_assoc] at h
  have := List.append_inj_left h (by decide)
  exact absurd this (by decide)

/-- What a response with a file has after its status line. -/
theorem render_lengthResponse (path : Str) (len : Nat) (body : Str) :
    (lengthResponse path len body).render =
      bytes "HTTP/1.0 200 OK\r\n" ++ (bytes "Content-Type: " ++
      (httpGetMimeType path ++ 13 :: 10 :: (bytes "Content-Length: " ++
        (decimal len ++ 13 :: 10 :: 13 :: 10 :: body)))) := by
  have h1 : bytes "Content-Type" ++ bytes ": " = bytes "Content-Type: " := by decide
  have h2 : bytes "Content-Length" ++ bytes ": " = bytes "Content-Length: " := by decide
  rw [lengthResponse, render_ok, List.flatMap_cons, List.flatMap_cons, List.flatMap_nil, h1, h2]
  simp [crlf]

/-- The length that is announced can be read off the response. -/
theorem lengthResponse_inj {len len' : Nat} {body body' : Str}
    (h : (lengthResponse path len body).render = (lengthResponse path len' body').render) :
    len = len' := by
  rw [render_lengthResponse, render_lengthResponse] at h
  have h := List.append_cancel_left (List.append_cancel_left (List.append_cancel_left h))
  have h := List.append_cancel_left (List.cons.inj (List.cons.inj h).2).2
  obtain ⟨h, -⟩ := append_cons_inj (p := isdigit) (fun _ => isdigit_of_mem_decimal)
    (fun _ => isdigit_of_mem_decimal) (by decide) (by decide) h
  exact decimal_injective h

/-- A file is announced with its length, a listing is not. -/
theorem lengthResponse_ne_page (path : Str) (len : Nat) (body page : Str) :
    (lengthResponse path len body).render ≠ (pageResponse 200 page).render := fun h => by
  have h1 : bytes "Content-Type" ++ bytes ": " = bytes "Content-Type: " := by decide
  have hpage : (pageResponse 200 page).render = bytes "HTTP/1.0 200 OK\r\n" ++
      (bytes "Content-Type: " ++ (bytes "text/html" ++ 13 :: 10 :: 13 :: 10 :: page)) := by
    rw [pageResponse, render_ok, List.flatMap_cons, List.flatMap_nil, h1]
    simp [crlf]
  rw [render_lengthResponse, hpage] at h
  have h := List.append_cancel_left (List.append_cancel_left h)
  have hmime : ∀ b ∈ httpGetMimeType path, (b != 13) = true := fun b hb => by
    simp only [bne_iff_ne, ne_eq]
    rintro rfl
    exact not_mem_httpGetMimeType path hb
  have hhtml : ∀ b ∈ bytes "text/html", (b != 13) = true := List.all_eq_true.mp (by decide)
  obtain ⟨-, h⟩ := append_cons_inj (p := fun b => b != 13) hmime hhtml (by decide) (by decide) h
  have hlen : bytes "Content-Length: " = 67 :: bytes "ontent-Length: " := by decide
  rw [hlen] at h
  exact absurd (List.cons.inj (List.cons.inj (List.cons.inj h).2).2).1 (by decide)

/-! ## The condition -/

/-- A request for a path ends in one of the last three ways. -/
theorem RequestFor.handle (h : RequestFor fd path) : handleFilesRequest fs w fd =
    match fs.stat path with
    | some .directory => serveDirectory fs w (Conn.start.call (.stat path)) path
    | some .regular => serveFile fs w (Conn.start.call (.stat path)) path
    | _ => sendPage w (Conn.start.call (.stat path)) 404 notFoundPage := by
  obtain ⟨request, hp, hslash, hdots, rfl⟩ := h
  unfold handleFilesRequest
  rw [hp]
  simp only
  exact (if_neg (not_not.mpr hslash)).trans (if_neg (not_not.mpr (strstr_eq_none_iff.mpr hdots)))

/-- What `serve_file` sends is an answer only if the file is the one the request is for and fits. -/
theorem fits_of_answer {named : Str} (hfor : RequestFor fd named) (hc : c.sent = [])
    (hfault : (serveFile fs w c path).fault = none) {r : Response} (ha : Answer fs fd r)
    (hr : (serveFile fs w c path).sent = r.render)
    (honly : ∀ q, (q = named ∨ (fs.stat named = some .directory ∧
      q = named ++ bytes "/index.html")) → fs.stat q = some .regular → q = path) :
    fs.stat path = some .regular ∧ Fits fs path := by
  obtain ⟨len, body, hsent, hfits⟩ : ∃ len body,
      (serveFile fs w c path).sent = (lengthResponse path len body).render ∧
        (Fits fs path ∨ ∃ contents, fs.fopen path = some contents ∧ len ≠ contents.length) := by
    rcases sent_serveFile fs w c path with
      ⟨contents, ho, hlt, -, hs⟩ | ⟨-, hbad | ⟨contents, len, ho, hne, hs⟩⟩
    · exact ⟨_, _, by rw [hs, hc]; rfl, Or.inl ⟨contents, ho, hlt⟩⟩
    · exact absurd hfault hbad
    · exact ⟨_, _, by rw [hs, hc]; rfl, Or.inr ⟨contents, ho, hne⟩⟩
  rw [hsent] at hr
  rcases ha.of_requestFor hfor with
    ⟨q, contents, hq, hk, ho, rfl⟩ | ⟨-, -, entries, -, rfl⟩ | ⟨-, -, rfl⟩
  · obtain rfl := honly q hq hk
    refine ⟨hk, hfits.resolve_right ?_⟩
    rintro ⟨contents', ho', hne⟩
    rw [ho] at ho'
    obtain rfl := Option.some.inj ho'
    exact hne (lengthResponse_inj hr)
  · exact absurd hr (lengthResponse_ne_page _ _ _ _)
  · exact absurd hr (render_ok_ne_notFound _ _)

/-- A listing that does not go wrong fits. -/
theorem fits_of_serveDirectory (hi : fs.stat (path ++ bytes "/index.html") = none)
    {entries : List DirEntry} (ho : fs.opendir path = some entries)
    (hfault : (serveDirectory fs w c path).fault = none) :
    (listingPage path entries).length < dataSize := by
  unfold serveDirectory at hfault
  simp only [hi, ho] at hfault
  split at hfault
  · exact absurd hfault (by simp)
  · rename_i data hdata
    unfold sprintf at hdata
    split_ifs at hdata with hhead
    obtain rfl := Option.some.inj hdata
    rw [listEntries_eq, sprintf] at hfault
    split_ifs at hfault with hpage
    · exact hpage
    · exact absurd hfault (by simp)

theorem servable_of_complete (hcomp : Complete fs w fd) : Servable fs fd := by
  obtain ⟨hfault, r, ha, hr⟩ := hcomp
  intro path hfor
  rw [hfor.handle] at hfault hr
  refine ⟨?_, ?_⟩
  · intro hk
    simp only [hk] at hfault hr
    refine (fits_of_answer hfor rfl hfault ha hr ?_).2
    rintro q (rfl | ⟨hd, -⟩) -
    · rfl
    · exact absurd (hk.symm.trans hd) (by simp)
  · intro hk
    simp only [hk] at hfault hr
    refine ⟨fun kind hi => ?_, fun hi => ?_⟩
    · have hindex : serveDirectory fs w (Conn.start.call (.stat path)) path =
          serveFile fs w ((Conn.start.call (.stat path)).call (.stat (path ++ bytes "/index.html")))
            (path ++ bytes "/index.html") := by
        simp only [serveDirectory, hi]
      rw [hindex] at hfault hr
      have hfits := fits_of_answer hfor rfl hfault ha hr (by
        rintro q (rfl | ⟨-, rfl⟩) hq
        · exact absurd (hk.symm.trans hq) (by simp)
        · rfl)
      exact ⟨Option.some.inj (hi.symm.trans hfits.1), hfits.2⟩
    · cases ho : fs.opendir path with
      | some entries => exact ⟨entries, rfl, fits_of_serveDirectory hi ho hfault⟩
      | none =>
        -- the directory cannot be opened: what has been sent has an empty body
        have hsent : (Response.mk 200 [(bytes "Content-Type", bytes "text/html")] []).render =
            r.render := by
          rw [← hr]
          unfold serveDirectory at hfault ⊢
          cases hhead : sprintf dataSize (listingHead path) with
          | none =>
            simp only [hi, hhead] at hfault
            exact absurd hfault (by simp)
          | some data =>
            simp only [hi, ho]
            simp [Response.render, httpStartResponse, httpSendHeader, httpEndHeaders, Conn.start]
        rcases ha.of_requestFor hfor with
          ⟨q, contents, -, -, -, rfl⟩ | ⟨-, -, entries, ho', -⟩ | ⟨-, -, rfl⟩
        · exact absurd hsent.symm (lengthResponse_ne_page _ _ _ _)
        · exact absurd (ho.symm.trans ho') (by simp)
        · exact absurd hsent (render_ok_ne_notFound _ _)

/-- A file that fits is sent whole. -/
theorem serveFile_of_fits (h : Fits fs path) :
    ∃ contents, fs.fopen path = some contents ∧ (serveFile fs w c path).fault = c.fault ∧
      (serveFile fs w c path).sent = c.sent ++ (fileResponse path contents).render := by
  rcases sent_serveFile fs w c path with
    ⟨contents, ho, -, hfault, hs⟩ | ⟨hno, -⟩
  · exact ⟨contents, ho, hfault, hs⟩
  · exact absurd h hno

/-- A directory without `index.html` whose listing fits is listed whole. -/
theorem serveDirectory_of_fits (hi : fs.stat (path ++ bytes "/index.html") = none)
    {entries : List DirEntry} (ho : fs.opendir path = some entries)
    (hfit : (listingPage path entries).length < dataSize) :
    (serveDirectory fs w c path).fault = c.fault ∧ (serveDirectory fs w c path).sent =
      c.sent ++ (pageResponse 200 (listingPage path entries)).render := by
  have hhead : (listingHead path).length < dataSize := by
    simp only [listingPage, List.length_append] at hfit
    omega
  have hpage : sprintf dataSize (listingHead path ++ listingLines entries ++ bytes "</ul>") =
      some (listingPage path entries) := if_pos hfit
  unfold serveDirectory
  simp only [hi, ho, sprintf, if_pos hhead, httpSendString, httpSendData_eq]
  rw [listEntries_eq, hpage]
  simp [httpStartResponse, httpSendHeader, httpEndHeaders, pageResponse, Response.render]

theorem complete_of_servable (h : Servable fs fd) : Complete fs w fd := by
  suffices hgoal : ∀ c, Handled fs w fd c →
      c.fault = none ∧ ∃ r, Answer fs fd r ∧ c.sent = r.render from
    ⟨(hgoal _ (handled fs w fd)).1, (hgoal _ (handled fs w fd)).2⟩
  intro c hrun
  cases hrun with
  | badRequest hb =>
    obtain ⟨hs, hf⟩ := sent_sendPage (w := w) (c := .start) 400 badRequestPage
    exact ⟨hf, _, .badRequest hb, hs⟩
  | forbidden hb =>
    obtain ⟨hs, hf⟩ := sent_sendPage (w := w) (c := .start) 403 forbiddenPage
    exact ⟨hf, _, .forbidden hb, hs⟩
  | notFound path hfor hd hr =>
    obtain ⟨hs, hf⟩ := sent_sendPage (w := w) (c := Conn.start.call (.stat path)) 404 notFoundPage
    exact ⟨hf, _, .notFound path hfor hd hr, hs⟩
  | regular path hfor hk =>
    obtain ⟨contents, ho, hf, hs⟩ := serveFile_of_fits (w := w)
      (c := Conn.start.call (.stat path)) ((h path hfor).1 hk)
    exact ⟨hf, _, .file path path contents hfor (Or.inl rfl) hk ho, hs⟩
  | directory path hfor hk =>
    obtain ⟨hindex, hlist⟩ := (h path hfor).2 hk
    cases hi : fs.stat (path ++ bytes "/index.html") with
    | some kind =>
      obtain ⟨rfl, hfits⟩ := hindex kind hi
      obtain ⟨contents, ho, hf, hs⟩ := serveFile_of_fits (w := w)
        (c := (Conn.start.call (.stat path)).call (.stat (path ++ bytes "/index.html"))) hfits
      unfold serveDirectory
      simp only [hi]
      exact ⟨hf, _, .file _ path contents hfor (Or.inr ⟨hk, rfl⟩) hi ho, hs⟩
    | none =>
      obtain ⟨entries, ho, hfit⟩ := hlist hi
      obtain ⟨hf, hs⟩ :=
        serveDirectory_of_fits (w := w) (c := Conn.start.call (.stat path)) hi ho hfit
      exact ⟨hf, _, .listing path entries hfor hk hi ho, hs⟩

/-- **A request is answered with exactly one complete response iff what `stat` finds can be
served**: it can be opened, an `index.html` is a regular file, and lengths fit the arrays. -/
theorem complete_iff (fs : FileSystem) (w : Writes) (fd : Socket) :
    Complete fs w fd ↔ Servable fs fd :=
  ⟨servable_of_complete, complete_of_servable⟩

/-- What can be served is answered with the one answer that there is. -/
theorem exists_answer_iff (w : Writes) (h : Servable fs fd) :
    ∃ r, (∀ r', Answer fs fd r' ↔ r' = r) ∧ (handleFilesRequest fs w fd).sent = r.render := by
  obtain ⟨r, ha, hr⟩ := (complete_of_servable (w := w) h).answer
  exact ⟨r, fun r' => ⟨fun ha' => ha'.unique ha, fun heq => heq ▸ ha⟩, hr⟩

/-- A file that cannot be opened gets a status line for success and half a head, and then the `NULL`
stream is used. -/
theorem complete_locked :
    ¬ (∀ fs w fd, Complete fs w fd) ∧
    handleFilesRequest (lockedFile (bytes ".//a")) wholeWrites [bytes "GET /a HTTP/1.0\n"] =
      ⟨bytes "HTTP/1.0 200 OK\r\nContent-Type: text/plain\r\n",
        [.stat (bytes ".//a"), .fopen (bytes ".//a")], some .nullFile⟩ := by
  have hrun : handleFilesRequest (lockedFile (bytes ".//a")) wholeWrites
      [bytes "GET /a HTTP/1.0\n"] =
      ⟨bytes "HTTP/1.0 200 OK\r\nContent-Type: text/plain\r\n",
        [.stat (bytes ".//a"), .fopen (bytes ".//a")], some .nullFile⟩ := by decide
  refine ⟨fun hclaim => ?_, hrun⟩
  have := (hclaim (lockedFile (bytes ".//a")) wholeWrites [bytes "GET /a HTTP/1.0\n"]).no_fault
  rw [hrun] at this
  exact absurd this (by simp)

/-! ## The length of a file -/

/-- **The file is served with its length**: `len+1` is the size of an array, the length announced is
that of the file, and exactly the file follows. -/
structure ServedWhole (fs : FileSystem) (w : Writes) (c : Conn) (path contents : Str) : Prop where
  no_fault : (serveFile fs w c path).fault = none
  sent : (serveFile fs w c path).sent = c.sent ++ (fileResponse path contents).render

/-- **A file is served with its length** exactly if it is shorter than `INT_MAX`. -/
theorem servedWhole_iff (fs : FileSystem) (w : Writes) (c : Conn) (path contents : Str)
    (ho : fs.fopen path = some contents) (hc : c.fault = none) :
    ServedWhole fs w c path contents ↔ contents.length < cIntMax := by
  rcases sent_serveFile fs w c path with ⟨contents', ho', hlt, hf, hs⟩ | ⟨hlong, hbad⟩
  · obtain rfl := Option.some.inj (ho.symm.trans ho')
    exact iff_of_true ⟨hf.trans hc, hs⟩ hlt
  · refine iff_of_false ?_ fun hlt => hlong ⟨contents, ho, hlt⟩
    rintro ⟨hf, hs⟩
    rcases hbad with hfault | ⟨contents', len, ho', hne, hs'⟩
    · exact hfault hf
    · obtain rfl := Option.some.inj (ho.symm.trans ho')
      exact hne (lengthResponse_inj (List.append_cancel_left (hs'.symm.trans hs)))

/-- One file that can be opened. -/
def oneFile (contents : Str) : FileSystem where
  stat := fun _ => some .regular
  fopen := fun _ => some contents
  opendir := fun _ => none

/-- A file of two bytes. -/
theorem servedWhole_iff_two : (oneFile (bytes "hi")).fopen (bytes ".//a") = some (bytes "hi") ∧
    Conn.start.fault = none ∧
    (ServedWhole (oneFile (bytes "hi")) wholeWrites .start (bytes ".//a") (bytes "hi") ↔
      (bytes "hi").length < cIntMax) :=
  ⟨rfl, rfl, servedWhole_iff _ _ _ _ _ rfl rfl⟩

/-- A file of 2^31 bytes: the length announced is negative, and so is the size of the array. -/
theorem serveFile_negative :
    ¬ (∀ (fs : FileSystem) (w : Writes) (c : Conn) (path contents : Str),
      fs.fopen path = some contents → contents.length < 9223372036854775808 → c.fault = none →
        ServedWhole fs w c path contents) ∧
    serveFile (oneFile (List.replicate 2147483648 97)) wholeWrites .start (bytes ".//a") =
      ⟨bytes "HTTP/1.0 200 OK\r\nContent-Type: text/plain\r\nContent-Length: -2147483648\r\n\r\n",
        [.fopen (bytes ".//a")], some .arraySize⟩ := by
  have hlen : (List.replicate 2147483648 (97 : UInt8)).length = 2147483648 := List.length_replicate
  generalize List.replicate 2147483648 (97 : UInt8) = contents at hlen ⊢
  have hint : toCInt contents.length = -2147483648 := by
    rw [hlen]
    decide
  have hrun : serveFile (oneFile contents) wholeWrites .start (bytes ".//a") =
      ⟨bytes "HTTP/1.0 200 OK\r\nContent-Type: text/plain\r\nContent-Length: -2147483648\r\n\r\n",
        [.fopen (bytes ".//a")], some .arraySize⟩ := by
    simp only [serveFile, oneFile, hint]
    rw [if_pos (Or.inl (by decide))]
    decide
  refine ⟨fun hclaim => ?_, hrun⟩
  have h := (hclaim (oneFile contents) wholeWrites .start (bytes ".//a") contents rfl
    (by rw [hlen]; decide) rfl).no_fault
  rw [hrun] at h
  exact absurd h (by simp)

end SystemProgramming.HttpServer
