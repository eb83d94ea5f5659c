import Mathlib.Algebra.GroupWithZero.Nat
import SystemProgramming.HttpServer.Answers

/-!
# The size of a listing

How large the listings are that `serve_directory` gathers in its array `data`, and for which
directories they are too large. The lines of the entries always fit their own array
(`listingLine_fits`), and the head of the listing fits `data`, since the path comes from a request
that the server has read.

* `length_listingPage`: how long a listing is.
* `inArrays_iff`: no `sprintf` and no `strcat` leaves its array exactly if the listing is shorter
  than `data`.
-/

namespace SystemProgramming.HttpServer

open Lib

/-- The bytes of a listing, without the `NUL`: the page without path and entries, the path once,
and for each entry that is listed its name twice with 25 bytes around it. -/
def listingSize (path : Str) (entries : List DirEntry) : Nat :=
  81 + path.length + ((entries.filter DirEntry.listed).map fun dp => 25 + 2 * dp.dName.length).sum

variable {fs : FileSystem} {w : Writes} {fd : Socket} {c : Conn} {path : Str}

theorem length_listingHead (path : Str) : (listingHead path).length = 76 + path.length := by
  have h1 : (bytes "<center><h1>").length = 12 := by decide
  have h2 : (bytes "</h1></center>\n<ul>\n<li><a href=\"../\">Parent directory</a></li>\n").length =
      64 := by decide
  simp only [listingHead, List.length_append, h1, h2]
  omega

/-- **The size of a listing.** -/
theorem length_listingPage (path : Str) (entries : List DirEntry) :
    (listingPage path entries).length = listingSize path entries := by
  have hend : (bytes "</ul>").length = 5 := by decide
  simp only [listingPage, List.length_append, length_listingHead, hend, listingLines,
    List.length_flatMap, length_listingLine, listingSize]
  omega

/-- The path of a request is shorter than the buffer for requests. -/
theorem RequestFor.length_le (h : RequestFor fd path) : path.length ≤ libhttpRequestMaxSize := by
  obtain ⟨request, hp, -, -, rfl⟩ := h
  unfold httpRequestParse at hp
  rcases scanRequest_cases (s := (read libhttpRequestMaxSize fd).1 ++ [0]) (by simp) with
    h | ⟨m, p, r, t, hline, hnul, hr⟩
  · rw [h] at hp
    exact absurd hp (by simp)
  · rw [scanRequest_complete hline hnul hr] at hp
    obtain rfl := Option.some.inj (Option.some.inj hp)
    have hread : (read libhttpRequestMaxSize fd).1.length ≤ libhttpRequestMaxSize := by
      cases fd with
      | nil => exact Nat.zero_le _
      | cons chunk fd => exact List.length_take_le ..
    have hlen := congrArg List.length hline.eq
    have hm := List.length_pos_iff.mpr hline.method_ne
    have h2 : (bytes "./").length = 2 := by decide
    simp only [List.length_append, List.length_cons, List.length_nil] at hlen
    show (bytes "./" ++ p).length ≤ libhttpRequestMaxSize
    rw [List.length_append, h2]
    omega

/-! ## Overflows -/

theorem fault_serveFile (hc : c.fault ≠ some .overflow) :
    (serveFile fs w c path).fault ≠ some .overflow := by
  unfold serveFile
  cases fs.fopen path with
  | none => simp
  | some contents =>
    simp only [httpSendData_eq]
    split_ifs
    · simp
    · simpa [httpStartResponse, httpSendHeader, httpEndHeaders] using hc

/-- **`serve_directory` leaves an array** exactly if the listing is too large. -/
theorem fault_serveDirectory (hc : c.fault ≠ some .overflow)
    (hpath : path.length ≤ libhttpRequestMaxSize) :
    (serveDirectory fs w c path).fault ≠ some .overflow ↔
      ∀ entries, fs.stat (path ++ bytes "/index.html") = none → fs.opendir path = some entries →
        listingSize path entries < dataSize := by
  have hhead : (listingHead path).length < dataSize := by
    rw [length_listingHead]
    unfold libhttpRequestMaxSize at hpath
    unfold dataSize
    omega
  cases hi : fs.stat (path ++ bytes "/index.html") with
  | some kind =>
    refine iff_of_true ?_ fun entries h => absurd h (by simp)
    unfold serveDirectory
    simp only [hi]
    exact fault_serveFile hc
  | none =>
    cases ho : fs.opendir path with
    | none =>
      refine iff_of_true ?_ fun entries _ h => absurd h (by simp)
      unfold serveDirectory
      simp only [hi, ho, sprintf, if_pos hhead]
      simpa [httpStartResponse, httpSendHeader, httpEndHeaders] using hc
    | some entries =>
      simp only [Option.some.injEq, forall_eq', forall_const, ← length_listingPage]
      constructor
      · intro hfault
        by_contra hlarge
        refine hfault ?_
        have hpage : sprintf dataSize
            (listingHead path ++ listingLines entries ++ bytes "</ul>") = none := if_neg hlarge
        unfold serveDirectory
        simp only [hi, ho, sprintf, if_pos hhead]
        rw [listEntries_eq, hpage]
        rfl
      · intro hfit
        rw [(serveDirectory_of_fits hi ho hfit).1]
        exact hc

/-- **Every `sprintf` and `strcat` stays inside its array** exactly if the request is not for a
directory whose listing has 102400 bytes or more. -/
theorem inArrays_iff (fs : FileSystem) (w : Writes) (fd : Socket) :
    (handleFilesRequest fs w fd).fault ≠ some .overflow ↔
      ∀ path entries, RequestFor fd path → fs.stat path = some .directory →
        fs.stat (path ++ bytes "/index.html") = none → fs.opendir path = some entries →
          listingSize path entries < 102400 := by
  have hpage : ∀ c code page, c.fault = none → (sendPage w c code page).fault ≠ some .overflow :=
    fun c code page hc => by
      rw [(sent_sendPage code page).2, hc]
      simp
  have hstart : ∀ path, (Conn.start.call (.stat path)).fault ≠ some .overflow := fun path => by
    simp [Conn.start]
  have hrun := handled fs w fd
  generalize handleFilesRequest fs w fd = c at hrun
  cases hrun with
  | badRequest h =>
    exact iff_of_true (hpage _ _ _ rfl) fun path entries hfor => absurd h hfor.not_badRequest
  | forbidden h =>
    exact iff_of_true (hpage _ _ _ rfl) fun path entries hfor => absurd h hfor.not_forbidden
  | regular path h hk =>
    refine iff_of_true (fault_serveFile (hstart path)) fun path' entries hfor hd => ?_
    obtain rfl := h.unique hfor
    exact absurd (hk.symm.trans hd) (by simp)
  | notFound path h hd hr =>
    refine iff_of_true (hpage _ _ _ rfl) fun path' entries hfor hd' => ?_
    obtain rfl := h.unique hfor
    exact absurd hd' hd
  | directory path h hk =>
    rw [fault_serveDirectory (hstart path) h.length_le]
    refine ⟨fun hall path' entries hfor _ => ?_, fun hall entries => hall path entries h hk⟩
    obtain rfl := h.unique hfor
    exact hall entries

/-- An entry with a name of 255 bytes, the first of which is `i + 48`. -/
def longEntry (i : Fin 192) : DirEntry where
  dName := UInt8.ofNat (i + 48) :: List.replicate 254 97
  length_le := by rw [List.length_cons, List.length_replicate]
  no_nul := by
    refine List.not_mem_cons_of_ne_of_not_mem (fun h => ?_) fun h => ?_
    · have h := congrArg UInt8.toNat h
      rw [UInt8.toNat_ofNat', Nat.mod_eq_of_lt (by omega)] at h
      exact absurd h.symm (by simp)
    · exact absurd (List.eq_of_mem_replicate h) (by decide)

/-- A directory of 192 such entries. -/
def longListing (path : Str) : FileSystem where
  stat := fun p => if p = path then some .directory else none
  fopen := fun _ => none
  opendir := fun _ => some ((List.finRange 192).map longEntry)

theorem longListing_stat (path : Str) : (longListing path).stat path = some .directory :=
  if_pos rfl

theorem longListing_index (path : Str) :
    (longListing path).stat (path ++ bytes "/index.html") = none :=
  if_neg fun h => absurd (List.append_right_eq_self.mp h) (by decide)

theorem longListing_opendir (path : Str) :
    (longListing path).opendir path = some ((List.finRange 192).map longEntry) :=
  rfl

theorem listingSize_longEntry (path : Str) :
    listingSize path ((List.finRange 192).map longEntry) = 102801 + path.length := by
  have hlen : ∀ i, (longEntry i).dName.length = 255 := fun i => by
    rw [longEntry, List.length_cons, List.length_replicate]
  have hlisted : ∀ i, (longEntry i).listed = true := fun i => by
    have hne : ∀ s : Str, s.length < 255 → (strcmp (longEntry i).dName s != 0) = true :=
      fun s hs => by
        rw [bne_iff_ne, Ne, strcmp_eq_zero_iff]
        rintro rfl
        exact absurd (hlen i) (Nat.ne_of_lt hs)
    rw [DirEntry.listed, hne _ (by decide), hne _ (by decide), Bool.and_self]
  rw [listingSize, List.filter_eq_self.mpr (by simp [hlisted]), List.map_map]
  simp only [Function.comp_def, hlen, List.map_const', List.length_finRange, List.sum_replicate_nat]
  omega

/-- A request for a directory with too large a listing makes `serve_directory` leave `data`. -/
theorem RequestFor.overflow {entries : List DirEntry} (h : RequestFor fd path)
    (hk : fs.stat path = some .directory)
    (hi : fs.stat (path ++ bytes "/index.html") = none) (ho : fs.opendir path = some entries)
    (hlarge : ¬ listingSize path entries < dataSize) :
    (handleFilesRequest fs w fd).fault = some .overflow := by
  rw [h.handle, hk]
  have hc : (Conn.start.call (.stat path)).fault ≠ some .overflow := by simp [Conn.start]
  by_contra hfault
  exact hlarge ((fault_serveDirectory hc h.length_le).mp hfault entries hi ho)

/-- The request for a directory with 192 entries whose names have 255 bytes: a `strcat` writes
behind `data`. -/
theorem inArrays_overflow :
    ¬ (∀ (fs : FileSystem) (w : Writes) (fd : Socket),
      (handleFilesRequest fs w fd).fault ≠ some .overflow) ∧
    (handleFilesRequest (longListing (bytes ".//d")) wholeWrites
      [bytes "GET /d HTTP/1.0\n"]).fault = some .overflow := by
  have hfor : RequestFor [bytes "GET /d HTTP/1.0\n"] (bytes ".//d") :=
    ⟨⟨bytes "GET", bytes "/d"⟩, by decide, rfl, by decide, rfl⟩
  have hlarge : ¬ listingSize (bytes ".//d") ((List.finRange 192).map longEntry) < dataSize := by
    have hlen : (bytes ".//d").length = 4 := by decide
    rw [listingSize_longEntry, hlen]
    decide
  have hrun := hfor.overflow (w := wholeWrites) (longListing_stat _)
    (longListing_index _) (longListing_opendir _) hlarge
  exact ⟨fun hclaim => hclaim _ _ _ hrun, hrun⟩

end SystemProgramming.HttpServer
