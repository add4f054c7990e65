import CPrograms.Lib.Lines
import Mathlib.Algebra.GroupWithZero.Nat
import Mathlib.Data.List.TakeWhile

/-!
# How `uring_test/uring_http.c` reads a request

A `READ_SOCK` completion is answered from its own zeroed buffer alone: the first line is cut
out (`getLine`), its first two tokens are the method and the path (`handleHttpMethod`), and
the file system decides the rest (`handleGetMethod`).  A buffer without a line end in its
first 1024 bytes stops the server; one that holds a whole request gets that request's
response (`handleClientRequest_request`).
-/

namespace CPrograms.UringHttp

open Lines (cr newline)

def readSz : Nat := 4096

/-- Size of `http_request` and of `final_path`. -/
def lineSz : Nat := 1024

def ascii (s : String) : List UInt8 := s.toList.map fun c => UInt8.ofNat c.toNat

def space : UInt8 := 32

def slash : UInt8 := 47

def tolower (c : UInt8) : UInt8 := if 65 ≤ c ∧ c ≤ 90 then c + 32 else c

def strtolower (s : List UInt8) : List UInt8 := s.map tolower

/-- The C string that a buffer starts with. -/
def cstr (buf : List UInt8) : List UInt8 := buf.takeWhile (· ≠ 0)

/-- `strtok_r(s, " ", &saveptr)`: the token and what `saveptr` points to. -/
def strtok (s : List UInt8) : Option (List UInt8 × List UInt8) :=
  match s.dropWhile (· = space) with
  | [] => none
  | c :: t => some ((c :: t).takeWhile (· ≠ space), ((c :: t).dropWhile (· ≠ space)).drop 1)

/-- The bytes before the first CRLF, if it starts among the first `n`. -/
def getLine : List UInt8 → Nat → Option (List UInt8)
  | _, 0 => none
  | [], _ + 1 => none
  | c :: src, n + 1 =>
    if c = cr ∧ src.head? = some newline then some [] else (getLine src n).map (c :: ·)

/-! ## The file system and the answers -/

/-- What `stat` and `open` say of a path that exists. -/
structure File where
  regular : Bool
  opens : Bool
  content : List UInt8
deriving DecidableEq

abbrev Fs := List UInt8 → Option File

inductive Response
  | unimplemented
  | notFound
  | file (path : List UInt8) (f : File)
deriving DecidableEq

/-- `exit`: `exit` is called.  `crash`: a string function is applied to `NULL`, or an array
of the program is written past its end. -/
inductive Outcome
  | answer (r : Response)
  | exit
  | crash
deriving DecidableEq

def finalPath (path : List UInt8) : List UInt8 :=
  if path.getLast? = some slash then ascii "public" ++ path ++ ascii "index.html"
  else ascii "public" ++ path

/-- `iovec_count` of the file's blocks. -/
def iovecCount (size : Nat) : Nat := size / readSz + if size % readSz ≠ 0 then 1 else 0

def handleGetMethod (fs : Fs) (path : List UInt8) : Outcome :=
  if (finalPath path).length + 1 > lineSz then .crash
  else
    match fs (finalPath path) with
    | none => .answer .notFound
    | some f =>
      if f.regular then
        -- a larger count does not fit its `int`
        if iovecCount f.content.length ≥ 2 ^ 31 then .crash
        else if f.opens then .answer (.file (finalPath path) f)
        else .exit
      else .answer .notFound

def handleHttpMethod (fs : Fs) (line : List UInt8) : Outcome :=
  match strtok (cstr line) with
  | none => .crash
  | some (method, save) =>
    if strtolower method = ascii "get" then
      match strtok save with
      | none => .crash
      | some (path, _) => handleGetMethod fs path
    else .answer .unimplemented

def handleClientRequest (fs : Fs) (buf : List UInt8) : Outcome :=
  match getLine buf lineSz with
  | none => .exit
  | some line => handleHttpMethod fs line

/-- The buffer of `add_read_request` after a read. -/
def readBuffer (read : List UInt8) : List UInt8 :=
  read ++ List.replicate (readSz - read.length) 0

/-! ## Requests -/

def crlf : List UInt8 := [cr, newline]

structure Request where
  method : List UInt8
  target : List UInt8
  version : List UInt8
  headers : List (List UInt8)

def Request.line (q : Request) : List UInt8 := q.method ++ space :: (q.target ++ space :: q.version)

def Request.bytes (q : Request) : List UInt8 :=
  q.line ++ crlf ++ q.headers.flatMap (· ++ crlf) ++ crlf

def Token (s : List UInt8) : Prop := s ≠ [] ∧ ∀ c ∈ s, c ≠ 0 ∧ c ≠ space ∧ c ≠ cr

/-- A request line of method, target and version. -/
structure Request.WellFormed (q : Request) : Prop where
  method : Token q.method
  target : Token q.target
  version : ∀ c ∈ q.version, c ≠ 0 ∧ c ≠ cr

/-- What the request asks for. -/
def respond (fs : Fs) (q : Request) : Response :=
  if strtolower q.method = ascii "get" then
    match fs (finalPath q.target) with
    | some f => if f.regular then .file (finalPath q.target) f else .notFound
    | none => .notFound
  else .unimplemented

/-- The server can take the request: it fits a read, its line and its path fit their
buffers, and a regular file that it asks for opens. -/
structure Request.Fits (fs : Fs) (q : Request) : Prop where
  read : q.bytes.length ≤ readSz
  line : q.line.length < lineSz
  path : strtolower q.method = ascii "get" → (finalPath q.target).length < lineSz
  opens : strtolower q.method = ascii "get" → ∀ f, fs (finalPath q.target) = some f → f.regular = true →
    f.opens = true ∧ iovecCount f.content.length < 2 ^ 31

section
variable {fs : Fs} {s t rest line : List UInt8}

theorem strtok_token (ht : Token t) (rest : List UInt8) : strtok (t ++ space :: rest) = some (t, rest) := by
  obtain ⟨hne, hc⟩ := ht
  obtain ⟨c, t, rfl⟩ := List.exists_cons_of_ne_nil hne
  have hall : ∀ x ∈ c :: t, (x ≠ space : Bool) = true := fun x hx => by simpa using (hc x hx).2.1
  have hdrop : (c :: t ++ space :: rest).dropWhile (· = space) = c :: t ++ space :: rest := by
    have := (hc c List.mem_cons_self).2.1
    simp [this]
  unfold strtok
  rw [hdrop, List.cons_append]
  dsimp only
  rw [← List.cons_append, List.takeWhile_append_of_pos hall, List.dropWhile_append_of_pos hall]
  simp

theorem getLine_line (hline : ∀ c ∈ line, c ≠ cr) (rest : List UInt8) {n : Nat} (hn : line.length < n) :
    getLine (line ++ crlf ++ rest) n = some line := by
  induction line generalizing n with
  | nil =>
    obtain ⟨n, rfl⟩ := Nat.exists_eq_succ_of_ne_zero (Nat.ne_of_gt hn)
    simp [getLine, crlf]
  | cons c line ih =>
    obtain ⟨n, rfl⟩ := Nat.exists_eq_succ_of_ne_zero (Nat.ne_of_gt (Nat.lt_of_le_of_lt (Nat.zero_le _) hn))
    have hc := hline c List.mem_cons_self
    have := ih (n := n) (fun x hx => hline x (List.mem_cons_of_mem _ hx)) (Nat.lt_of_succ_lt_succ hn)
    simp only [List.cons_append, getLine, hc, false_and, if_false, this, Option.map_some]

theorem cstr_of_no_nul (h : ∀ c ∈ line, c ≠ 0) : cstr line = line :=
  List.takeWhile_eq_self_iff.2 fun c hc => by simpa using h c hc

theorem Request.WellFormed.mem_line {q : Request} (h : q.WellFormed) : ∀ c ∈ q.line, c ≠ 0 ∧ c ≠ cr := by
  intro c hc
  simp only [Request.line, List.mem_append, List.mem_cons] at hc
  rcases hc with hc | rfl | hc | rfl | hc
  · exact ⟨(h.method.2 c hc).1, (h.method.2 c hc).2.2⟩
  · decide
  · exact ⟨(h.target.2 c hc).1, (h.target.2 c hc).2.2⟩
  · decide
  · exact h.version c hc

/-- A read that is one request gets that request's response. -/
theorem handleClientRequest_request {q : Request} (hw : q.WellFormed) (hf : q.Fits fs) :
    handleClientRequest fs (readBuffer q.bytes) = .answer (respond fs q) := by
  have hmem := hw.mem_line
  have hline : getLine (readBuffer q.bytes) lineSz = some q.line := by
    unfold readBuffer Request.bytes
    rw [List.append_assoc, List.append_assoc]
    exact getLine_line (fun c hc => (hmem c hc).2) _ hf.line
  unfold handleClientRequest
  rw [hline]
  show handleHttpMethod fs q.line = _
  unfold handleHttpMethod respond
  rw [cstr_of_no_nul fun c hc => (hmem c hc).1, Request.line, strtok_token hw.method]
  dsimp only
  by_cases hget : strtolower q.method = ascii "get"
  · rw [if_pos hget, if_pos hget, strtok_token hw.target]
    dsimp only
    have hpath := hf.path hget
    unfold handleGetMethod
    rw [if_neg (by omega)]
    cases hfs : fs (finalPath q.target) with
    | none => rfl
    | some f =>
      dsimp only
      by_cases hreg : f.regular = true
      · obtain ⟨hopen, hcount⟩ := hf.opens hget f hfs hreg
        rw [if_pos hreg, if_pos hreg, if_neg (by omega), if_pos hopen]
      · rw [if_neg hreg, if_neg hreg]
  · rw [if_neg hget, if_neg hget]

end

end CPrograms.UringHttp
