import CPrograms.UringHttp.Request

/-!
# What `uring_test/uring_http.c` answers

The two static answers, the five iovecs of `send_headers`, and the blocks that
`copy_file_contents` cuts a file into: as many as `handle_get_method` counted
(`length_blockLens`), of `st_size` bytes together (`sum_blockLens`).
-/

namespace CPrograms.UringHttp

def unimplementedContent : List UInt8 := ascii <|
  "HTTP/1.1 400 Bad Request\r\n" ++
  "Content-type: text/html\r\n" ++
  "\r\n" ++
  "<html> <head><title>SimpleHTTPd: Unimplemented</title></head>" ++
  "<body>" ++
  "<h1>Bad Request (Unimplemented)</h1>" ++
  "<p>Your client sent a request SimpleHTTPd did not understand and it is probably not your fault.</p>" ++
  "</body>" ++
  "</html>"

def http404Content : List UInt8 := ascii <|
  "HTTP/1.1 404 Not Found\r\n" ++
  "Content-type: text/html\r\n" ++
  "\r\n" ++
  "<html> <head><title>SimpleHTTPd: Not Found</title></head>" ++
  "<body>" ++
  "<h1>Not Found</h1>" ++
  "<p>Your client is asking for an object that was not found on this server.</p>" ++
  "</body>" ++
  "</html>"

def serverString : List UInt8 := ascii "Server: simplehttpd/0.1\r\n"

def dot : UInt8 := 46

/-- What follows the last dot, unless that is the first byte. -/
def getFilenameExt (filename : List UInt8) : List UInt8 :=
  match filename.reverse.dropWhile (· ≠ dot) with
  | [] => []
  | [_] => []
  | _ => (filename.reverse.takeWhile (· ≠ dot)).reverse

/-- `str` after the `Content-Type` chain. -/
def contentType (fileExt str : List UInt8) : List UInt8 :=
  let str := if fileExt = ascii "jpg" ∨ fileExt = ascii "jpeg" then ascii "Content-Type: image/jpeg\r\n" else str
  let str := if fileExt = ascii "png" then ascii "Content-Type: image/png\r\n" else str
  let str := if fileExt = ascii "gif" then ascii "Content-Type: image/gif\r\n" else str
  let str := if fileExt = ascii "htm" ∨ fileExt = ascii "html" then ascii "Content-Type: text/html\r\n" else str
  let str := if fileExt = ascii "css" then ascii "Content-Type: text/css\r\n" else str
  let str := if fileExt = ascii "js" then ascii "Content-Type: application/javascript\r\n" else str
  if fileExt = ascii "txt" then ascii "Content-Type: text/plain\r\n" else str

def sendHeaders (path : List UInt8) (contentLength : Nat) : List (List UInt8) :=
  let str := ascii "HTTP/1.1 200 OK\r\n"
  let fileExt := getFilenameExt (strtolower path)
  [str, serverString, contentType fileExt str,
    ascii "Content-Length: " ++ ascii (toString contentLength) ++ crlf, crlf]

/-- The `iov_len`s that the loop of `copy_file_contents` sets. -/
def blockLens (remaining : Nat) : List Nat :=
  if 0 < remaining then
    let bytesToRead := if remaining > readSz then readSz else remaining
    bytesToRead :: blockLens (remaining - bytesToRead)
  else []
termination_by remaining
decreasing_by
  have : 0 < readSz := by decide
  split <;> omega

theorem length_sendHeaders (path : List UInt8) (n : Nat) : (sendHeaders path n).length = 5 := rfl

theorem sum_blockLens (n : Nat) : (blockLens n).sum = n := by
  fun_induction blockLens n with
  | case1 n hn b ih =>
    have : b ≤ n := by
      show (if n > readSz then readSz else n) ≤ n
      split <;> omega
    rw [List.sum_cons, ih]
    omega
  | case2 n hn =>
    rw [List.sum_nil]
    omega

theorem length_blockLens (n : Nat) : (blockLens n).length = iovecCount n := by
  fun_induction blockLens n with
  | case1 n hn b ih =>
    rw [List.length_cons, ih]
    by_cases h : n > readSz
    · have hb : b = readSz := if_pos h
      rw [hb]
      unfold iovecCount readSz at *
      have h1 : (n - 4096) / 4096 = n / 4096 - 1 := by omega
      have h2 : (n - 4096) % 4096 = n % 4096 := by omega
      rw [h1, h2]
      omega
    · have hb : b = n := if_neg h
      rw [hb, Nat.sub_self]
      unfold iovecCount readSz at *
      split <;> split <;> omega
  | case2 n hn =>
    obtain rfl : n = 0 := by omega
    rfl

end CPrograms.UringHttp
