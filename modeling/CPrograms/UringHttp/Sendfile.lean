import CPrograms.UringHttp.Server

/-!
# The server of `uring_test/uring_http.c`, built with `SENDFILE`

Two places differ from the other build.  `handle_get_method` sends the header only, and sets
`path_fd` and `file_size` in its context when the request is already submitted; and behind every
completed write `server_loop` calls `sendfile` on `path_fd` and closes it.

The state is that of the other build, with the `file_size` of each context and the descriptor
table, which says who opened a descriptor.  The server never sees `replies`, the response that a
context was made for, and `uses`, the calls on descriptors with the owner that they found.  The
memory that `malloc` returns holds anything, and each turn may see another file system.
-/

namespace CPrograms.UringHttp.Sendfile

open Uring Runs

/-- Who opened a descriptor: `accept`, `handle_get_method` for the response of a context, or nobody
in `server_loop`. -/
inductive Owner
  | other
  | client
  | file (ctx : Nat)
deriving DecidableEq

/-- A static answer, or a file with what `open` returned. -/
inductive Reply
  | static
  | file (fd : Int)
deriving DecidableEq

/-- A call, with the owner of its descriptor; `handler` is the case of `server_loop`. -/
inductive Use
  | sendfile (ctx : Nat) (fd count : Int) (owner : Option Owner)
  | close (handler : EventType) (ctx : Nat) (fd : Int) (owner : Option Owner)
deriving DecidableEq

structure Srv extends UringHttp.Srv where
  fileSize : Nat → Int
  fds : Int → Option Owner
  replies : Nat → Option Reply
  uses : List Use

/-- What the turn's calls of `malloc` and `open` return. -/
structure Answers where
  first : Context
  second : Context
  fd : Int

inductive Event
  | execute (p : Nat) (act : Act)
  | loop (p : Nat) (fs : Fs) (a : Answers)

/-- `open` fails, or returns a descriptor that is not open. -/
def Answers.Legal (a : Answers) (s : Srv) : Prop := a.fd = -1 ∨ 0 ≤ a.fd ∧ s.fds a.fd = none

instance (a : Answers) (s : Srv) : Decidable (a.Legal s) := inferInstanceAs (Decidable (_ ∨ _))

/-- The table after an accept; an open descriptor is not returned again. -/
def accepted (fds : Int → Option Owner) : Act → Option (Int → Option Owner)
  | .accepted sock => if fds sock = none then some (Function.update fds sock (some .client)) else none
  | _ => some fds

/-! ## The request -/

def handleGetMethod (fs : Fs) (path : List UInt8) : Outcome :=
  if (finalPath path).length + 1 > lineSz then .crash
  else
    match fs (finalPath path) with
    | none => .answer .notFound
    | some f => if f.regular then .answer (.file (finalPath path) f) else .answer .notFound

def handleHttpMethod (fs : Fs) (line : List UInt8) : Outcome :=
  match strtok (cstr line) with
  | none => .crash
  | some (method, save) =>
    if strtolower method = ascii "get" then
      match strtok save with
      | none => .crash
      | some (path, _) => handleGetMethod fs path
    else .answer .unimplemented

def handleClientRequest (fs : Fs) (buf : List UInt8) : Outcome :=
  match getLine buf lineSz with
  | none => .exit
  | some line => handleHttpMethod fs line

/-! ## The server -/

namespace Srv

/-- What both builds do. -/
def common (f : UringHttp.Srv → UringHttp.Srv) (s : Srv) : Srv := { s with toSrv := f s.toSrv }

def execute (p : Nat) (act : Act) (s : Srv) : Option Srv :=
  (accepted s.fds act).bind fun fds =>
    (s.toSrv.execute p act).map fun t => { s with toSrv := t, fds := fds }

def sendfile (x : Nat) (fd : Int) (s : Srv) : Srv :=
  { s with uses := s.uses ++ [.sendfile x fd (s.fileSize x) (s.fds fd)] }

def close (handler : EventType) (x : Nat) (fd : Int) (s : Srv) : Srv :=
  { s with toSrv := s.toSrv.close fd, fds := Function.update s.fds fd none,
           uses := s.uses ++ [.close handler x fd (s.fds fd)] }

/-- `open` for the response of context `x`. -/
def openFile (x : Nat) (fd : Int) (s : Srv) : Srv :=
  { s with fds := if fd < 0 then s.fds else Function.update s.fds fd (some (.file x)),
           replies := Function.update s.replies x (some (.file fd)) }

def setPathFd (x : Nat) (fd : Int) (s : Srv) : Srv :=
  { s with heap := Function.update s.heap x ((s.heap x).map fun c => { c with pathFd := fd }) }

def setFileSize (x : Nat) (size : Int) (s : Srv) : Srv :=
  { s with fileSize := Function.update s.fileSize x size }

def sendStaticStringContent (str : List UInt8) (junk : Context) (sock : Int) (s : Srv) : Srv :=
  { s.common (·.sendStaticStringContent str junk sock) with
      replies := Function.update s.replies s.brk (some .static) }

/-- The end of `handle_get_method`: the header, and then the fields for the file. -/
def sendFile (path : List UInt8) (f : File) (a : Answers) (sock : Int) (s : Srv) : Srv :=
  let size := f.content.length
  let ctx := s.brk
  let header := { a.first with iovecCount := 5, clientSocket := sock,
                               iov := (sendHeaders path size).map (·.map some) }
  let fd := if f.opens then a.fd else -1
  let s := s.common fun s => (s.malloc header).addWriteRequest ctx header
  ((s.openFile ctx fd).setPathFd ctx fd).setFileSize ctx size

def answer (a : Answers) (sock : Int) (s : Srv) : Response → Srv
  | .unimplemented => s.sendStaticStringContent unimplementedContent a.first sock
  | .notFound => s.sendStaticStringContent http404Content a.first sock
  | .file path f => s.sendFile path f a sock

end Srv

/-- `none`: the server stops. -/
def handleCompletion (fs : Fs) (a : Answers) (x : Nat) (c : Context) (res : Int) (s : Srv) : Option Srv :=
  if res < 0 then none
  else
    match c.eventType with
    | .accept => some (s.common fun s => ((s.addAcceptRequest a.first).addReadRequest a.second res).free x)
    | .readSock =>
      if res = 0 then some ((s.close .readSock x c.clientSocket).common (·.free x))
      else
        match handleClientRequest fs c.buffer with
        | .answer r => some ((s.answer a c.clientSocket r).common (·.free x))
        | _ => none
    | .readFile =>
      if res = 0 then some (s.close .readFile x c.pathFd)
      else some ((s.common (·.addWriteRequest x c)).close .readFile x c.pathFd)
    | .write =>
      -- whichever response the context was made for
      let s := (s.sendfile x c.pathFd).close .write x c.pathFd
      if c.pathFd ≠ 0 then some (s.common fun s => (s.addReadRequest a.first c.clientSocket).free x)
      else some (s.common (·.free x))

/-- One turn.  `io_uring_cqe_seen` is not reached where the server stops. -/
def Srv.serverLoop (fs : Fs) (p : Nat) (a : Answers) (s : Srv) : Option Srv :=
  (take p s.ring).bind fun d =>
    (s.heap d.1.1.ctx).map fun c =>
      (handleCompletion fs a d.1.1.ctx c d.1.2 { s with ring := d.2 }).getD { s with running := false }

def stepFn (s : Srv) : Event → Option Srv
  | .execute p act => if s.running then s.execute p act else none
  | .loop p fs a => if s.running ∧ a.Legal s then s.serverLoop fs p a else none

def step (s : Srv) (e : Event) (t : Srv) : Prop := stepFn s e = some t

/-- `inherited` are the descriptors that are open before the loop; the listening socket is one. -/
def start (junk : Context) (fileSize : Nat → Int) (inherited : List Nat) : Srv :=
  { UringHttp.start junk with
      fileSize := fileSize
      fds := fun fd => if fd ∈ inherited.map Int.ofNat then some .other else none
      replies := fun _ => none
      uses := [] }

/-! ## Ownership -/

/-- The case of a completed write calls on a descriptor that was opened for its own response. -/
def Use.Proper : Use → Prop
  | .sendfile x _ _ o => o = some (.file x)
  | .close .write x _ o => o = some (.file x)
  | .close _ _ _ _ => True

/-- The call closes the descriptor that was opened for the response of context `x`. -/
def Use.closesFile (x : Nat) : Use → Bool
  | .sendfile .. => false
  | .close _ _ _ o => decide (o = some (.file x))

/-- `open` succeeded. -/
def Reply.Opened : Reply → Prop
  | .static => False
  | .file fd => 0 ≤ fd

instance : (r : Reply) → Decidable r.Opened
  | .static => inferInstanceAs (Decidable False)
  | .file _ => inferInstanceAs (Decidable (_ ≤ _))

/-- A descriptor was opened for the response of context `x`. -/
def Srv.Opened (s : Srv) (x : Nat) : Prop := ∃ r ∈ s.replies x, r.Opened

instance (s : Srv) (x : Nat) : Decidable (s.Opened x) := inferInstanceAs (Decidable (∃ r ∈ s.replies x, r.Opened))

/-- A completed write makes calls on its own file only; and each descriptor that was opened for a
file is closed once, when the write of that response is done. -/
structure Owned (s : Srv) : Prop where
  proper : ∀ u ∈ s.uses, u.Proper
  once : ∀ x, s.Opened x →
    s.uses.countP (Use.closesFile x) = if x ∈ (requests s.ring).map Req.ctx then 0 else 1

/-- The context of the write whose completion a turn handles. -/
def finished (s : Srv) : Event → Option Nat
  | .execute .. => none
  | .loop p _ _ =>
    (s.ring.cq[p]?).bind fun d =>
      (s.heap d.1.ctx).bind fun c => if c.eventType = .write ∧ 0 ≤ d.2 then some d.1.ctx else none

/-- If the turn handles the completion of a write, it is of a response with an open file. -/
def FromFile (s : Srv) (e : Event) : Prop := ∀ x ∈ finished s e, s.Opened x

instance (s : Srv) (e : Event) : Decidable (FromFile s e) :=
  inferInstanceAs (Decidable (∀ x ∈ finished s e, s.Opened x))

/-! ## What a turn does -/

/-- What `handleCompletion` can do with context `c` at `x` and the result `res`. -/
inductive Handled (fs : Fs) (a : Answers) (x : Nat) (c : Context) (res : Int) (s : Srv) : Srv → Prop
  | accepted : c.eventType = .accept → 0 ≤ res →
      Handled fs a x c res s (((s.common (·.spawn { a.first with eventType := .accept } .accept)).common
        (·.spawn (readCtx a.second res) (.recv res))).common (·.free x))
  | hungUp : c.eventType = .readSock → res = 0 →
      Handled fs a x c res s ((s.close .readSock x c.clientSocket).common (·.free x))
  | answered (r : Response) : c.eventType = .readSock → 0 < res →
      handleClientRequest fs c.buffer = .answer r →
      Handled fs a x c res s ((s.answer a c.clientSocket r).common (·.free x))
  | readFile {t} : c.eventType = .readFile → (t = s ∨ t = s.common (·.addWriteRequest x c)) →
      Handled fs a x c res s (t.close .readFile x c.pathFd)
  | rearmed : c.eventType = .write → 0 ≤ res → c.pathFd ≠ 0 →
      Handled fs a x c res s ((((s.sendfile x c.pathFd).close .write x c.pathFd).common
        (·.spawn (readCtx a.first c.clientSocket) (.recv c.clientSocket))).common (·.free x))
  | written : c.eventType = .write → 0 ≤ res → c.pathFd = 0 →
      Handled fs a x c res s (((s.sendfile x c.pathFd).close .write x c.pathFd).common (·.free x))

section
variable {fs : Fs} {a : Answers} {x p : Nat} {c : Context} {res : Int} {s t : Srv} {e : Event}

theorem handled_of_handleCompletion (h : handleCompletion fs a x c res s = some t) :
    Handled fs a x c res s t := by
  unfold handleCompletion at h
  split at h
  · cases h
  next hres =>
  split at h
  · next hc =>
    cases h
    exact .accepted hc (by omega)
  · next hc =>
    split at h
    · next h0 =>
      cases h
      exact .hungUp hc h0
    · next h0 =>
      split at h
      · next r hr =>
        cases h
        exact .answered r hc (by omega) hr
      · cases h
  · next hc =>
    split at h
    · cases h
      exact .readFile hc (.inl rfl)
    · cases h
      exact .readFile hc (.inr rfl)
  · next hc =>
    dsimp only at h
    split at h
    · next hfd =>
      cases h
      exact .rearmed hc (by omega) hfd
    · next hfd =>
      cases h
      exact .written hc (by omega) (not_not.1 hfd)

/-- What a step can do: the kernel performs a request, a turn handles a completion, or the
server stops. -/
theorem step_cases (h : step s e t) :
    (∃ p act fds u, e = .execute p act ∧ accepted s.fds act = some fds ∧ s.toSrv.execute p act = some u ∧
      t = { s with toSrv := u, fds := fds }) ∨
    (∃ p fs a q c res ring, e = .loop p fs a ∧ a.Legal s ∧ take p s.ring = some ((q, res), ring) ∧
      s.heap q.ctx = some c ∧ Handled fs a q.ctx c res { s with ring := ring } t) ∨
    t = { s with running := false } := by
  cases e with
  | execute p act =>
    change (if s.running = true then s.execute p act else none) = some t at h
    split at h
    · obtain ⟨fds, hfds, h⟩ := Option.bind_eq_some_iff.1 h
      obtain ⟨u, hu, rfl⟩ := Option.map_eq_some_iff.1 h
      exact .inl ⟨p, act, fds, u, rfl, hfds, hu, rfl⟩
    · cases h
  | loop p fs a =>
    change (if s.running = true ∧ a.Legal s then s.serverLoop fs p a else none) = some t at h
    split at h
    · next hlegal =>
      obtain ⟨⟨⟨q, res⟩, ring⟩, hd, h⟩ := Option.bind_eq_some_iff.1 h
      obtain ⟨c, hc, h⟩ := Option.map_eq_some_iff.1 h
      cases hh : handleCompletion fs a q.ctx c res { s with ring := ring } with
      | none =>
        rw [hh] at h
        exact .inr (.inr h.symm)
      | some u =>
        rw [hh] at h
        obtain rfl : u = t := h
        exact .inr (.inl ⟨p, fs, a, q, c, res, ring, rfl, hlegal.2, hd, hc, handled_of_handleCompletion hh⟩)
    · cases h

end

end CPrograms.UringHttp.Sendfile
