import SystemProgramming.HttpServer.Answers

/-!
# The links of a listing

Where the links of the page that `serve_directory` sends lead, when a browser resolves them against
the path of its request and requests the result.

* `hrefs_listingPage`: the page has a link to the parent, and one for each entry that is listed.
* `linksToEntries_iff`: the links lead to the entries exactly if the path of the request ends in a
  slash, or in a slash and a dot.
-/

namespace SystemProgramming.HttpServer

open Lib

/-- What starts a link. -/
def anchor : Str := bytes "<a href=\""

/-- The references of the links in a page. -/
def hrefs : Str → List Str
  | [] => []
  | b :: page =>
    if anchor.isPrefixOf (b :: page) then
      ((b :: page).drop anchor.length).takeWhile (· != 34) :: hrefs page
    else hrefs page

/-- The path that `handle_files_request` looks at for the path of a request, if it accepts it. -/
def servedPath (requestPath : Str) : Option Str :=
  if requestPath.head? ≠ some 47 then none
  else if strstr requestPath (bytes "..") ≠ none then none
  else some (bytes "./" ++ requestPath)

/-- A character that needs no escape in a reference. -/
def isUnreserved (b : UInt8) : Bool :=
  isalpha b || isdigit b || b == 45 || b == 46 || b == 95 || b == 126

/-- A name of such characters, without two dots in a row. -/
structure PlainName (name : Str) : Prop where
  chars : ∀ b ∈ name, isUnreserved b = true
  dots : ¬ bytes ".." <:+: name

/-- **The listing links to the entries.** It is sent, it has a link for each entry that is listed,
in order, behind the one to the parent, and the server takes the path that a link leads to for the
path of the entry. -/
structure LinksToEntries (fs : FileSystem) (w : Writes) (fd : Socket) (requestPath path : Str)
    (entries : List DirEntry) : Prop where
  no_fault : (handleFilesRequest fs w fd).fault = none
  links : ∃ page, (handleFilesRequest fs w fd).sent = (pageResponse 200 page).render ∧
    hrefs page = bytes "../" :: (entries.filter DirEntry.listed).map DirEntry.dName
  resolved : ∀ dp ∈ entries, dp.listed = true →
    ∃ p, servedPath (resolve requestPath dp.dName) = some p ∧
      SamePlace p (path ++ bytes "/" ++ dp.dName)

variable {fs : FileSystem} {w : Writes} {fd : Socket} {path name u s : Str}
  {request : HttpRequest} {entries : List DirEntry}

/-! ## The links of a page -/

theorem anchor_eq : anchor = 60 :: 97 :: 32 :: bytes "href=\"" := by decide

theorem hrefs_cons_of_ne {b : UInt8} (hb : b ≠ 60) (s : Str) : hrefs (b :: s) = hrefs s := by
  rw [hrefs, if_neg]
  rw [List.isPrefixOf_iff_prefix, anchor_eq, List.cons_prefix_cons]
  exact fun h => hb h.1.symm

/-- Text without a `'<'` has no link. -/
theorem hrefs_append_of_not_mem (hu : 60 ∉ u) (s : Str) : hrefs (u ++ s) = hrefs s := by
  induction u with
  | nil => rfl
  | cons b u ih =>
    obtain ⟨hb, hu⟩ := not_or.mp (List.mem_cons.not.mp hu)
    rw [List.cons_append, hrefs_cons_of_ne (Ne.symm hb), ih hu]

/-- Nor has text without a space in front of a `'<'`. -/
theorem hrefs_append_of_no_space (hu : 32 ∉ u) (s : Str) :
    hrefs (u ++ 60 :: s) = hrefs (60 :: s) := by
  induction u with
  | nil => rfl
  | cons b u ih =>
    obtain ⟨-, hu'⟩ := not_or.mp (List.mem_cons.not.mp hu)
    rw [List.cons_append, hrefs, if_neg, ih hu']
    rw [List.isPrefixOf_iff_prefix, anchor_eq]
    -- the space of the link would be the third character
    rintro ⟨t, ht⟩
    match u, hu', ht with
    | [], _, ht => simp at ht
    | [c], _, ht => simp at ht
    | c :: d :: u, hu', ht =>
      obtain ⟨-, -, rfl, -⟩ : 60 = b ∧ 97 = c ∧ 32 = d ∧ _ := by simpa using ht
      exact hu' (by simp)

/-- The line of an entry has one link. -/
theorem hrefs_listingLine (h34 : 34 ∉ name) (h60 : 60 ∉ name) (s : Str) :
    hrefs (listingLine name ++ s) = name :: hrefs s := by
  have hstart : ∀ s, hrefs (bytes "<li><a href=\"" ++ s) =
      s.takeWhile (· != 34) :: hrefs s := fun s => rfl
  have hquote : ∀ s, hrefs (bytes "\">" ++ s) = hrefs s := fun s => rfl
  have hend : ∀ s, hrefs (bytes "</a></li>\n" ++ s) = hrefs s := fun s => rfl
  have hname : ∀ s, (name ++ (bytes "\">" ++ s)).takeWhile (· != 34) = name := fun s => by
    have hne : ∀ b ∈ name, (b != 34) = true := fun b hb => by
      simp only [bne_iff_ne, ne_eq]
      rintro rfl
      exact h34 hb
    rw [List.takeWhile_append_of_pos hne]
    exact List.append_nil name
  rw [listingLine]
  simp only [List.append_assoc]
  rw [hstart, hname, hrefs_append_of_not_mem h60, hquote, hrefs_append_of_not_mem h60, hend]

/-- The head of a listing has the link to the parent. -/
theorem hrefs_listingHead (h32 : 32 ∉ path) (s : Str) :
    hrefs (listingHead path ++ s) = bytes "../" :: hrefs s := by
  have hopen : ∀ s, hrefs (bytes "<center><h1>" ++ s) = hrefs s := fun s => rfl
  rw [listingHead, List.append_assoc, List.append_assoc, hopen]
  exact (hrefs_append_of_no_space h32 _).trans rfl

theorem PlainName.not_mem (h : PlainName name) : 34 ∉ name ∧ 60 ∉ name :=
  ⟨fun hb => absurd (h.chars _ hb) (by decide), fun hb => absurd (h.chars _ hb) (by decide)⟩

/-- **The links of a listing**: the parent, and the entries that are listed. -/
theorem hrefs_listingPage (h32 : 32 ∉ path)
    (hn : ∀ dp ∈ entries, dp.listed = true → PlainName dp.dName) :
    hrefs (listingPage path entries) =
      bytes "../" :: (entries.filter DirEntry.listed).map DirEntry.dName := by
  have hlines : ∀ (l : List DirEntry) (s : Str), (∀ dp ∈ l, PlainName dp.dName) →
      hrefs ((l.flatMap fun dp => listingLine dp.dName) ++ s) =
        l.map DirEntry.dName ++ hrefs s := by
    intro l s hl
    induction l with
    | nil => rfl
    | cons dp l ih =>
      obtain ⟨h34, h60⟩ := (hl dp List.mem_cons_self).not_mem
      rw [List.flatMap_cons, List.append_assoc, hrefs_listingLine h34 h60,
        ih fun dp hdp => hl dp (List.mem_cons_of_mem _ hdp)]
      rfl
  have hend : hrefs (bytes "</ul>") = [] := rfl
  rw [listingPage, List.append_assoc, hrefs_listingHead h32, listingLines, hlines, hend,
    List.append_nil]
  exact fun dp hdp => hn dp (List.mem_filter.mp hdp).1 (List.mem_filter.mp hdp).2

/-! ## Where they lead -/

theorem requestFor_of_servedPath (hp : (httpRequestParse fd).1 = some (some request))
    (hs : servedPath request.path = some path) : RequestFor fd path := by
  unfold servedPath at hs
  split_ifs at hs with hslash hdots
  exact ⟨request, hp, not_not.mp hslash, strstr_eq_none_iff.mp (not_not.mp hdots),
    (Option.some.inj hs).symm⟩

theorem handle_directory (hfor : RequestFor fd path) (hk : fs.stat path = some .directory) :
    handleFilesRequest fs w fd = serveDirectory fs w (Conn.start.call (.stat path)) path := by
  rw [hfor.handle, hk]

theorem servedPath_eq_some {p : Str} (hslash : p.head? = some 47) (hdots : ¬ bytes ".." <:+: p) :
    servedPath p = some (bytes "./" ++ p) := by
  rw [servedPath, if_neg (not_not.mpr hslash),
    if_neg (not_not.mpr (strstr_eq_none_iff.mpr hdots))]

/-- The path of a request has no space. -/
theorem space_not_mem_path (hp : (httpRequestParse fd).1 = some (some request)) :
    32 ∉ request.path := by
  unfold httpRequestParse at hp
  rcases scanRequest_cases (s := (read libhttpRequestMaxSize fd).1 ++ [0]) (by simp) with
    h | ⟨m, p, r, t, hline, hnul, hr⟩
  · rw [h] at hp
    exact absurd hp (by simp)
  · rw [scanRequest_complete hline hnul hr] at hp
    obtain rfl := Option.some.inj (Option.some.inj hp)
    exact fun h => (hline.path_char 32 h).1 rfl

theorem names_dot (s : Str) : names (bytes "./" ++ s) = names s := names_append_slash [46] s

/-- **A link is accepted**, and leads to its entry exactly if the path of the request ends in a
slash, or in a slash and a dot. -/
theorem resolved_iff {p : Str} (hslash : p.head? = some 47) (hdots : ¬ bytes ".." <:+: p)
    (hn : PlainName name) :
    (∃ q, servedPath (resolve p name) = some q ∧
      SamePlace q (bytes "./" ++ p ++ bytes "/" ++ name)) ↔
        lastPart p = [] ∨ lastPart p = [46] := by
  have hmem : 47 ∈ p := List.mem_of_head? hslash
  obtain ⟨d, hd⟩ := exists_dirPart hmem
  have hp : d ++ 47 :: lastPart p = p := by
    conv_rhs => rw [← dirPart_append_lastPart p, hd, List.append_assoc]
    rfl
  have hresolve : resolve p name = d ++ 47 :: name := by
    rw [resolve, hd, List.append_assoc]
    rfl
  have hslash' : (resolve p name).head? = some 47 := by
    rw [← hp] at hslash
    rw [hresolve]
    cases d with
    | nil => rfl
    | cons b d => exact hslash
  have hdots' : ¬ bytes ".." <:+: resolve p name := fun h => by
    rw [hresolve] at h
    obtain h | h := dots_infix_of_append_slash h
    · exact hdots (h.trans (hp ▸ (List.prefix_append d _).isInfix))
    · exact hn.dots h
  have htarget : names (bytes "./" ++ p ++ bytes "/" ++ name) = names (p ++ 47 :: name) := by
    rw [List.append_assoc, List.append_assoc, names_dot]
    rfl
  rw [servedPath_eq_some hslash' hdots', ← samePlace_resolve_iff hmem]
  unfold SamePlace
  rw [htarget, ← names_dot (resolve p name)]
  constructor
  · rintro ⟨q, hq, h⟩
    exact Option.some.inj hq ▸ h
  · exact fun h => ⟨_, rfl, h⟩

/-- **The listing links to the entries** exactly if it fits, and the path of the request ends in a
slash, or in a slash and a dot. (A listing without entries has no links to go wrong.) -/
theorem linksToEntries_iff (fs : FileSystem) (w : Writes) (fd : Socket) (request : HttpRequest)
    (path : Str) (entries : List DirEntry)
    (hp : (httpRequestParse fd).1 = some (some request))
    (hs : servedPath request.path = some path) (hk : fs.stat path = some .directory)
    (hi : fs.stat (path ++ bytes "/index.html") = none) (ho : fs.opendir path = some entries)
    (hn : ∀ dp ∈ entries, dp.listed = true → PlainName dp.dName) :
    LinksToEntries fs w fd request.path path entries ↔
      (listingPage path entries).length < dataSize ∧
        ((∀ dp ∈ entries, dp.listed = false) ∨
          lastPart request.path = [] ∨ lastPart request.path = [46]) := by
  have hfor := requestFor_of_servedPath hp hs
  have hrun := handle_directory (w := w) hfor hk
  obtain ⟨request', hp', hslash, hdots, rfl⟩ := hfor
  obtain rfl := Option.some.inj (Option.some.inj (hp.symm.trans hp'))
  have h32 : 32 ∉ bytes "./" ++ request.path := fun h =>
    (List.mem_append.mp h).elim (by decide) (space_not_mem_path hp)
  constructor
  · intro h
    have hfault := h.no_fault
    rw [hrun] at hfault
    refine ⟨fits_of_serveDirectory hi ho hfault, or_iff_not_imp_left.mpr fun hsome => ?_⟩
    obtain ⟨dp, hdp, hlisted⟩ : ∃ dp ∈ entries, dp.listed = true := by simpa using hsome
    exact (resolved_iff hslash hdots (hn dp hdp hlisted)).mp (h.resolved dp hdp hlisted)
  · rintro ⟨hfit, hlast⟩
    obtain ⟨hfault, hsent⟩ := serveDirectory_of_fits (w := w)
      (c := Conn.start.call (.stat (bytes "./" ++ request.path))) hi ho hfit
    refine ⟨by rw [hrun, hfault]; rfl, ⟨_, by rw [hrun, hsent]; rfl, hrefs_listingPage h32 hn⟩,
      fun dp hdp hlisted => ?_⟩
    refine (resolved_iff hslash hdots (hn dp hdp hlisted)).mpr (hlast.resolve_left fun hall => ?_)
    rw [hall dp hdp] at hlisted
    exact absurd hlisted (by decide)

/-- A directory with one entry, `a`. -/
def oneEntry (path : Str) : FileSystem where
  stat := fun p => if p = path then some .directory else none
  fopen := fun _ => none
  opendir := fun _ => some [⟨bytes "a", by decide, by decide⟩]

theorem plainName_a : PlainName (bytes "a") :=
  ⟨List.forall_mem_singleton.mpr (by decide), by decide⟩

/-- The request for `/dir/`. -/
theorem linksToEntries_iff_slash :
    (httpRequestParse [bytes "GET /dir/ HTTP/1.0\n"]).1 =
      some (some ⟨bytes "GET", bytes "/dir/"⟩) ∧
    servedPath (bytes "/dir/") = some (bytes ".//dir/") ∧
    (LinksToEntries (oneEntry (bytes ".//dir/")) wholeWrites [bytes "GET /dir/ HTTP/1.0\n"]
        (bytes "/dir/") (bytes ".//dir/") [⟨bytes "a", by decide, by decide⟩] ↔
      (listingPage (bytes ".//dir/") [⟨bytes "a", by decide, by decide⟩]).length < dataSize ∧
        ((∀ dp ∈ [(⟨bytes "a", by decide, by decide⟩ : DirEntry)], dp.listed = false) ∨
          lastPart (bytes "/dir/") = [] ∨ lastPart (bytes "/dir/") = [46])) := by
  have hparse : (httpRequestParse [bytes "GET /dir/ HTTP/1.0\n"]).1 =
      some (some ⟨bytes "GET", bytes "/dir/"⟩) := by decide
  exact ⟨hparse, by decide, linksToEntries_iff _ _ _ _ _ _ hparse (by decide) (by decide)
    (by decide) rfl fun dp hdp _ => List.mem_singleton.mp hdp ▸ plainName_a⟩

/-- The request for `/dir`: the link to `a` leads to `/a`. -/
theorem linksToEntries_dir :
    ¬ (∀ (fs : FileSystem) (w : Writes) (fd : Socket) (request : HttpRequest) (path : Str)
        (entries : List DirEntry), (httpRequestParse fd).1 = some (some request) →
      servedPath request.path = some path → fs.stat path = some .directory →
      fs.stat (path ++ bytes "/index.html") = none → fs.opendir path = some entries →
      (∀ dp ∈ entries, dp.listed = true → PlainName dp.dName) →
        LinksToEntries fs w fd request.path path entries) ∧
    (handleFilesRequest (oneEntry (bytes ".//dir")) wholeWrites
        [bytes "GET /dir HTTP/1.0\n"]).sent =
      (pageResponse 200 (listingPage (bytes ".//dir")
        [⟨bytes "a", by decide, by decide⟩])).render ∧
    servedPath (resolve (bytes "/dir") (bytes "a")) = some (bytes ".//a") ∧
    ¬ SamePlace (bytes ".//a") (bytes ".//dir/a") := by
  have hserved : servedPath (resolve (bytes "/dir") (bytes "a")) = some (bytes ".//a") := by decide
  have hother : ¬ SamePlace (bytes ".//a") (bytes ".//dir/a") := by
    unfold SamePlace
    decide
  have hfor : RequestFor [bytes "GET /dir HTTP/1.0\n"] (bytes ".//dir") :=
    ⟨⟨bytes "GET", bytes "/dir"⟩, by decide, rfl, by decide, rfl⟩
  have hlen : (listingPage (bytes ".//dir") [⟨bytes "a", by decide, by decide⟩]).length = 114 := rfl
  have hfit : (114 : Nat) < dataSize := by decide
  have hsent : (handleFilesRequest (oneEntry (bytes ".//dir")) wholeWrites
      [bytes "GET /dir HTTP/1.0\n"]).sent = (pageResponse 200 (listingPage (bytes ".//dir")
        [⟨bytes "a", by decide, by decide⟩])).render := by
    rw [handle_directory hfor (by decide)]
    exact (serveDirectory_of_fits (by decide) rfl (hlen.trans_lt hfit)).2
  refine ⟨fun hclaim => ?_, hsent, hserved, hother⟩
  have h := hclaim (oneEntry (bytes ".//dir")) wholeWrites [bytes "GET /dir HTTP/1.0\n"]
    ⟨bytes "GET", bytes "/dir"⟩ (bytes ".//dir") [⟨bytes "a", by decide, by decide⟩]
    (by decide) (by decide) (by decide) (by decide) rfl
    fun dp hdp _ => List.mem_singleton.mp hdp ▸ plainName_a
  obtain ⟨p, hp, hsame⟩ := h.resolved _ List.mem_cons_self (by decide)
  obtain rfl := Option.some.inj (hserved.symm.trans hp)
  exact hother hsame

end SystemProgramming.HttpServer
