import CPrograms.UringHttp.Response
import CPrograms.Lib.Uring
import CPrograms.Lib.Runs
import Mathlib.Logic.Function.Basic

/-!
# The server of `uring_test/uring_http.c`, built without `SENDFILE`

The state is the heap of `struct context`s, named in the order of their allocation, the
ring, and the open connections.  `execute` is the kernel's part: it performs any submitted
request, may move any non-empty part of what is asked, and writes what it did into `log`,
which the server never sees.  `serverLoop` is one turn of `server_loop`, with any of the
completions that are ready; what `malloc` and `open` return comes with the turn.  Memory
from `malloc` holds anything: a constructor of a context keeps the fields that it does not
set.

`handled_of_handleCompletion` says what a turn can do, in terms of `spawn`: a new context
with its request.
-/

namespace CPrograms.UringHttp

open Uring Runs

inductive EventType
  | accept
  | readSock
  | readFile
  | write
deriving DecidableEq

/-- `iov` lists the buffers; `none` is a byte that nothing has written yet. -/
structure Context where
  eventType : EventType
  iovecCount : Nat
  clientSocket : Int
  pathFd : Int
  iov : List (List (Option UInt8))

/-- What `io_uring_prep_*` puts into the submission. -/
inductive Op
  | accept
  | recv (sock : Int)
  | readv (content : List UInt8) (count : Nat)
  | writev (sock : Int) (count : Nat)
deriving DecidableEq

structure Req where
  ctx : Nat
  op : Op
deriving DecidableEq

/-- What happened to the request of a context: a transfer, or that its completion made the
server read from `sock` again. -/
inductive Note
  | read (ctx asked got : Nat)
  | sent (ctx : Nat) (sock : Int) (asked : Nat) (bytes : List (Option UInt8))
  | armed (ctx : Nat) (sock : Int)
deriving DecidableEq

def Note.ctx : Note → Nat
  | read x _ _ => x
  | sent x _ _ _ => x
  | armed x _ => x

structure Srv where
  heap : Nat → Option Context
  brk : Nat
  ring : Queues Req
  conns : List Int
  log : List Note
  running : Bool

/-- What the turn's calls of `malloc` and `open` return. -/
structure Answers where
  first : Context
  second : Context
  fd : Nat

/-- What the kernel does with a request. -/
inductive Act
  | accepted (sock : Int)
  | received (data : List UInt8)
  | moved (n : Nat)
  | failed (err : Nat)

inductive Event
  | execute (p : Nat) (act : Act)
  | loop (p : Nat) (a : Answers)

/-! ## The kernel -/

/-- `data` goes into the buffers in order. -/
def fill : List (List (Option UInt8)) → List UInt8 → List (List (Option UInt8))
  | [], _ => []
  | b :: bs, data => ((data.take b.length).map some ++ b.drop data.length) :: fill bs (data.drop b.length)

def Context.fill (c : Context) (count : Nat) (data : List UInt8) : Context :=
  { c with iov := UringHttp.fill (c.iov.take count) data ++ c.iov.drop count }

/-- A non-empty part of `n`, where there is one. -/
def Moves (m n : Nat) : Prop := m ≤ n ∧ (m = 0 → n = 0)

instance (m n : Nat) : Decidable (Moves m n) := inferInstanceAs (Decidable (_ ∧ _))

/-- A request of context `x` is performed: the context, the result and the notes. -/
def perform (x : Nat) (op : Op) (c : Context) : Act → Option (Context × Int × List Note)
  | .accepted sock => if op = .accept ∧ 0 ≤ sock then some (c, sock, []) else none
  | .received data =>
    match op with
    | .recv _ =>
      if data.length ≤ (c.iov.take 1).flatten.length then some (c.fill 1 data, data.length, []) else none
    | _ => none
  | .moved m =>
    match op with
    | .readv content n =>
      if Moves m (min (c.iov.take n).flatten.length content.length) then
        some (c.fill n (content.take m), m, [.read x (c.iov.take n).flatten.length m])
      else none
    | .writev sock n =>
      if Moves m (c.iov.take n).flatten.length then
        some (c, m, [.sent x sock (c.iov.take n).flatten.length ((c.iov.take n).flatten.take m)])
      else none
    | _ => none
  | .failed err => some (c, Int.negSucc err, [])

/-- The connections after an accept; an open socket is not returned again. -/
def opened (conns : List Int) : Act → Option (List Int)
  | .accepted sock => if sock ∈ conns then none else some (sock :: conns)
  | _ => some conns

namespace Srv

/-- The state after the request of context `x` was performed with `r`. -/
def record (x : Nat) (r : Context × Int × List Note) (ring : Queues Req) (conns : List Int) (s : Srv) : Srv :=
  { s with heap := Function.update s.heap x (some r.1), ring := ring, conns := conns, log := s.log ++ r.2.2 }

def execute (p : Nat) (act : Act) (s : Srv) : Option Srv :=
  (s.ring.inflight[p]?).bind fun q =>
    (s.heap q.ctx).bind fun c =>
      (perform q.ctx q.op c act).bind fun r =>
        (opened s.conns act).bind fun conns =>
          (complete p r.2.1 s.ring).map fun d => s.record q.ctx r d.2 conns

/-! ## The server -/

def malloc (c : Context) (s : Srv) : Srv :=
  { s with heap := Function.update s.heap s.brk (some c), brk := s.brk + 1 }

def set (x : Nat) (c : Context) (s : Srv) : Srv := { s with heap := Function.update s.heap x (some c) }

/-- The context and its buffers. -/
def free (x : Nat) (s : Srv) : Srv := { s with heap := Function.update s.heap x none }

/-- `io_uring_get_sqe`, `io_uring_prep_*`, `io_uring_sqe_set_data` and `io_uring_submit`. -/
def submit (x : Nat) (op : Op) (s : Srv) : Srv := { s with ring := enqueue ⟨x, op⟩ s.ring }

def note (n : Note) (s : Srv) : Srv := { s with log := s.log ++ [n] }

def close (sock : Int) (s : Srv) : Srv := { s with conns := s.conns.filter (· ≠ sock) }

def addAcceptRequest (junk : Context) (s : Srv) : Srv :=
  (s.malloc { junk with eventType := .accept }).submit s.brk .accept

def addReadRequest (junk : Context) (sock : Int) (s : Srv) : Srv :=
  (s.malloc { junk with iov := [List.replicate readSz (some 0)], eventType := .readSock,
                        clientSocket := sock }).submit s.brk (.recv sock)

def addWriteRequest (x : Nat) (c : Context) (s : Srv) : Srv :=
  (s.set x { c with eventType := .write }).submit x (.writev c.clientSocket c.iovecCount)

def sendStaticStringContent (str : List UInt8) (junk : Context) (sock : Int) (s : Srv) : Srv :=
  let c := { junk with iovecCount := 1, clientSocket := sock, iov := [str.map some] }
  (s.malloc c).addWriteRequest s.brk c

def copyFileContents (x : Nat) (c : Context) (f : File) (fd : Nat) (s : Srv) : Srv :=
  (s.set x { c with iov := (blockLens f.content.length).map (List.replicate · none), pathFd := fd,
                    eventType := .readFile }).submit x (.readv f.content c.iovecCount)

/-- The end of `handle_get_method`: headers, then the file. -/
def sendFile (path : List UInt8) (f : File) (a : Answers) (sock : Int) (s : Srv) : Srv :=
  let size := f.content.length
  let header := { a.first with iovecCount := 5, clientSocket := sock,
                               iov := (sendHeaders path size).map (·.map some) }
  let s := (s.malloc header).addWriteRequest s.brk header
  let body := { a.second with iovecCount := iovecCount size, clientSocket := sock }
  (s.malloc body).copyFileContents s.brk body f a.fd

def answer (a : Answers) (sock : Int) (s : Srv) : Response → Srv
  | .unimplemented => s.sendStaticStringContent unimplementedContent a.first sock
  | .notFound => s.sendStaticStringContent http404Content a.first sock
  | .file path f => s.sendFile path f a sock

end Srv

/-- The buffer of `add_read_request`, which `memset` has written. -/
def Context.buffer (c : Context) : List UInt8 := (c.iov.headD []).map (·.getD 0)

/-- `none`: the server stops. -/
def handleCompletion (fs : Fs) (a : Answers) (x : Nat) (c : Context) (res : Int) (s : Srv) : Option Srv :=
  if res < 0 then none
  else
    match c.eventType with
    | .accept => some (((s.addAcceptRequest a.first).addReadRequest a.second res).free x)
    | .readSock =>
      if res = 0 then some ((s.close c.clientSocket).free x)
      else
        match handleClientRequest fs c.buffer with
        | .answer r => some ((s.answer a c.clientSocket r).free x)
        | _ => none
    | .readFile => if res = 0 then some s else some (s.addWriteRequest x c)
    | .write =>
      if c.pathFd ≠ 0 then
        some (((s.addReadRequest a.first c.clientSocket).note (.armed x c.clientSocket)).free x)
      else some (s.free x)

/-- One turn.  `io_uring_cqe_seen` is not reached where the server stops. -/
def Srv.serverLoop (fs : Fs) (p : Nat) (a : Answers) (s : Srv) : Option Srv :=
  (take p s.ring).bind fun d =>
    (s.heap d.1.1.ctx).map fun c =>
      (handleCompletion fs a d.1.1.ctx c d.1.2 { s with ring := d.2 }).getD { s with running := false }

def stepFn (fs : Fs) (s : Srv) : Event → Option Srv
  | .execute p act => if s.running then s.execute p act else none
  | .loop p a => if s.running then s.serverLoop fs p a else none

def step (fs : Fs) (s : Srv) (e : Event) (t : Srv) : Prop := stepFn fs s e = some t

def start (junk : Context) : Srv := Srv.addAcceptRequest junk ⟨fun _ => none, 0, empty, [], [], true⟩

/-- The connection and the response, where a turn answers a request. -/
def answered (fs : Fs) (s : Srv) : Event → Option (Int × Response)
  | .execute .. => none
  | .loop p _ =>
    (s.ring.cq[p]?).bind fun d =>
      (s.heap d.1.ctx).bind fun c =>
        if c.eventType = .readSock ∧ 0 < d.2 then
          match handleClientRequest fs c.buffer with
          | .answer r => some (c.clientSocket, r)
          | _ => none
        else none

/-! ## What the kernel does -/

/-- What `perform` can do with a request of context `c` at `x`. -/
inductive Performed (x : Nat) (c : Context) : Op → Context → Int → List Note → Prop
  | accepted {sock} : 0 ≤ sock → Performed x c .accept c sock []
  | received {sock data} : data.length ≤ (c.iov.take 1).flatten.length →
      Performed x c (.recv sock) (c.fill 1 data) data.length []
  | read {content n m} : Moves m (min (c.iov.take n).flatten.length content.length) →
      Performed x c (.readv content n) (c.fill n (content.take m)) m
        [.read x (c.iov.take n).flatten.length m]
  | sent {sock n m} : Moves m (c.iov.take n).flatten.length →
      Performed x c (.writev sock n) c m
        [.sent x sock (c.iov.take n).flatten.length ((c.iov.take n).flatten.take m)]
  | failed {op err} : Performed x c op c (Int.negSucc err) []

theorem performed_of_perform {x : Nat} {op : Op} {c c' : Context} {act : Act} {res : Int} {ns : List Note}
    (h : perform x op c act = some (c', res, ns)) : Performed x c op c' res ns := by
  cases act with
  | accepted sock =>
    simp only [perform] at h
    split at h
    · next hs =>
      cases h
      rw [hs.1]
      exact .accepted hs.2
    · cases h
  | received data =>
    cases op with
    | recv sock =>
      simp only [perform] at h
      split at h
      · next hd =>
        cases h
        exact .received hd
      · cases h
    | accept | readv | writev => cases h
  | moved m =>
    cases op with
    | readv content n =>
      simp only [perform] at h
      split at h
      · next hm =>
        cases h
        exact .read hm
      · cases h
    | writev sock n =>
      simp only [perform] at h
      split at h
      · next hm =>
        cases h
        exact .sent hm
      · cases h
    | accept | recv => cases h
  | failed err =>
    cases h
    exact .failed

/-- Only `accept` returns a socket, and it fails or does so. -/
theorem perform_accept {x : Nat} {op : Op} {c c' : Context} {act : Act} {res : Int} {ns : List Note}
    (h : perform x op c act = some (c', res, ns)) : (act = .accepted res ∧ op = .accept ∧ 0 ≤ res) ∨
      (∀ sock, act ≠ .accepted sock) ∧ (op = .accept → res < 0) := by
  cases act with
  | accepted sock =>
    simp only [perform] at h
    split at h
    · next hs =>
      cases h
      exact .inl ⟨rfl, hs⟩
    · cases h
  | received data | moved m =>
    refine .inr ⟨by simp, ?_⟩
    rintro rfl
    cases h
  | failed err =>
    cases h
    exact .inr ⟨by simp, fun _ => Int.negSucc_lt_zero err⟩

theorem opened_cases {x : Nat} {op : Op} {c c' : Context} {act : Act} {res : Int} {ns : List Note}
    {conns conns' : List Int} (h : perform x op c act = some (c', res, ns))
    (ho : opened conns act = some conns') :
    (conns' = conns ∧ (op = .accept → res < 0)) ∨ (op = .accept ∧ res ∉ conns ∧ conns' = res :: conns) := by
  rcases perform_accept h with ⟨rfl, hop, -⟩ | ⟨hact, hneg⟩
  · simp only [opened] at ho
    split at ho
    · cases ho
    · next hmem =>
      cases ho
      exact .inr ⟨hop, hmem, rfl⟩
  · refine .inl ⟨?_, hneg⟩
    cases act with
    | accepted sock => exact absurd rfl (hact sock)
    | received | moved | failed =>
      cases ho
      rfl

/-! ## What a turn does -/

/-- A new context and its request. -/
def Srv.spawn (c : Context) (op : Op) (s : Srv) : Srv := (s.malloc c).submit s.brk op

def readCtx (junk : Context) (sock : Int) : Context :=
  { junk with iov := [List.replicate readSz (some 0)], eventType := .readSock, clientSocket := sock }

def staticCtx (str : List UInt8) (junk : Context) (sock : Int) : Context :=
  { junk with iovecCount := 1, clientSocket := sock, iov := [str.map some], eventType := .write }

def headerCtx (path : List UInt8) (size : Nat) (junk : Context) (sock : Int) : Context :=
  { junk with iovecCount := 5, clientSocket := sock, iov := (sendHeaders path size).map (·.map some),
              eventType := .write }

def bodyCtx (size fd : Nat) (junk : Context) (sock : Int) : Context :=
  { junk with iovecCount := iovecCount size, clientSocket := sock, pathFd := fd, eventType := .readFile,
              iov := (blockLens size).map (List.replicate · none) }

/-- The contexts and requests that a response consists of. -/
def parts (a : Answers) (sock : Int) : Response → List (Context × Op)
  | .unimplemented => [(staticCtx unimplementedContent a.first sock, .writev sock 1)]
  | .notFound => [(staticCtx http404Content a.first sock, .writev sock 1)]
  | .file path f =>
    [(headerCtx path f.content.length a.first sock, .writev sock 5),
      (bodyCtx f.content.length a.fd a.second sock, .readv f.content (iovecCount f.content.length))]

def Srv.spawnAll (s : Srv) (l : List (Context × Op)) : Srv := l.foldl (fun s c => s.spawn c.1 c.2) s

/-- What `handleCompletion` can do with context `c` at `x` and the result `res`; the list has
the contexts that it spawns. -/
inductive Handled (fs : Fs) (a : Answers) (x : Nat) (c : Context) (res : Int) (s : Srv) :
    List (Context × Op) → Srv → Prop
  | accepted {l} : c.eventType = .accept → 0 ≤ res →
      l = [({ a.first with eventType := .accept }, .accept), (readCtx a.second res, .recv res)] →
      Handled fs a x c res s l ((s.spawnAll l).free x)
  | hungUp : c.eventType = .readSock → res = 0 → Handled fs a x c res s [] ((s.close c.clientSocket).free x)
  | answered (r : Response) : c.eventType = .readSock → 0 < res →
      handleClientRequest fs c.buffer = .answer r →
      Handled fs a x c res s (parts a c.clientSocket r) ((s.spawnAll (parts a c.clientSocket r)).free x)
  | ended : c.eventType = .readFile → res = 0 → Handled fs a x c res s [] s
  | readDone : c.eventType = .readFile → 0 < res → Handled fs a x c res s [] (s.addWriteRequest x c)
  | written : c.eventType = .write → 0 ≤ res → c.pathFd = 0 → Handled fs a x c res s [] (s.free x)
  | rearmed {l} : c.eventType = .write → 0 ≤ res → c.pathFd ≠ 0 →
      l = [(readCtx a.first c.clientSocket, .recv c.clientSocket)] →
      Handled fs a x c res s l (((s.spawnAll l).note (.armed x c.clientSocket)).free x)

section
variable {fs : Fs} {a : Answers} {x : Nat} {c : Context} {res sock : Int} {s t : Srv}

/-- A context that is set as soon as it is allocated. -/
theorem set_malloc (c c' : Context) (s : Srv) : (s.malloc c).set s.brk c' = s.malloc c' := by
  unfold Srv.malloc Srv.set
  simp only [Function.update_idem]

/-- A context that is written as soon as it is allocated. -/
theorem addWriteRequest_malloc (c : Context) (s : Srv) : (s.malloc c).addWriteRequest s.brk c =
    s.spawn { c with eventType := .write } (.writev c.clientSocket c.iovecCount) := by
  unfold Srv.addWriteRequest
  rw [set_malloc]
  rfl

theorem sendStaticStringContent_eq (str : List UInt8) (junk : Context) (sock : Int) (s : Srv) :
    s.sendStaticStringContent str junk sock = s.spawn (staticCtx str junk sock) (.writev sock 1) :=
  addWriteRequest_malloc _ s

theorem sendFile_eq (path : List UInt8) (f : File) (a : Answers) (sock : Int) (s : Srv) :
    s.sendFile path f a sock = s.spawnAll (parts a sock (.file path f)) := by
  unfold Srv.sendFile Srv.copyFileContents
  dsimp only
  rw [addWriteRequest_malloc, set_malloc]
  rfl

theorem answer_eq (a : Answers) (sock : Int) (s : Srv) (r : Response) :
    s.answer a sock r = s.spawnAll (parts a sock r) := by
  cases r with
  | unimplemented => exact sendStaticStringContent_eq _ _ _ _
  | notFound => exact sendStaticStringContent_eq _ _ _ _
  | file path f => exact sendFile_eq _ _ _ _ _

theorem handled_of_handleCompletion (h : handleCompletion fs a x c res s = some t) :
    ∃ l, Handled fs a x c res s l t := by
  unfold handleCompletion at h
  split at h
  · cases h
  next hres =>
  split at h
  · next hc =>
    cases h
    exact ⟨_, .accepted hc (by omega) rfl⟩
  · next hc =>
    split at h
    · next h0 =>
      cases h
      exact ⟨_, .hungUp hc h0⟩
    · next h0 =>
      split at h
      · next r hr =>
        cases h
        rw [answer_eq]
        exact ⟨_, .answered r hc (by omega) hr⟩
      · cases h
  · next hc =>
    split at h
    · next h0 =>
      cases h
      exact ⟨_, .ended hc h0⟩
    · next h0 =>
      cases h
      exact ⟨_, .readDone hc (by omega)⟩
  · next hc =>
    split at h
    · next hfd =>
      cases h
      exact ⟨_, .rearmed hc (by omega) hfd rfl⟩
    · next hfd =>
      cases h
      exact ⟨_, .written hc (by omega) (not_not.1 hfd)⟩

/-- What the kernel does with the `p`-th request. -/
theorem execute_eq {p : Nat} {act : Act} (h : s.execute p act = some t) :
    ∃ q c r conns ring, s.heap q.ctx = some c ∧ perform q.ctx q.op c act = some r ∧
      opened s.conns act = some conns ∧ complete p r.2.1 s.ring = some (q, ring) ∧
      t = s.record q.ctx r ring conns := by
  obtain ⟨q, hq, h⟩ := Option.bind_eq_some_iff.1 h
  obtain ⟨c, hc, h⟩ := Option.bind_eq_some_iff.1 h
  obtain ⟨r, hr, h⟩ := Option.bind_eq_some_iff.1 h
  obtain ⟨conns, hconns, h⟩ := Option.bind_eq_some_iff.1 h
  obtain ⟨⟨q', ring⟩, hd, h⟩ := Option.map_eq_some_iff.1 h
  obtain rfl := Option.some.inj ((getElem?_of_complete hd).symm.trans hq)
  exact ⟨q', c, r, conns, ring, hc, hr, hconns, hd, h.symm⟩

/-- What a turn does with the `p`-th completion. -/
theorem serverLoop_eq {p : Nat} (h : s.serverLoop fs p a = some t) :
    ∃ q c res ring, take p s.ring = some ((q, res), ring) ∧ s.heap q.ctx = some c ∧
      ((∃ l, Handled fs a q.ctx c res { s with ring := ring } l t) ∨
        handleCompletion fs a q.ctx c res { s with ring := ring } = none ∧ t = { s with running := false }) := by
  obtain ⟨⟨⟨q, res⟩, ring⟩, hd, h⟩ := Option.bind_eq_some_iff.1 h
  obtain ⟨c, hc, h⟩ := Option.map_eq_some_iff.1 h
  refine ⟨q, c, res, ring, hd, hc, ?_⟩
  cases hh : handleCompletion fs a q.ctx c res { s with ring := ring } with
  | none =>
    rw [hh] at h
    exact .inr ⟨rfl, h.symm⟩
  | some u =>
    rw [hh] at h
    obtain rfl : u = t := h
    exact .inl (handled_of_handleCompletion hh)

/-- What a step can do: the kernel performs a request, a turn handles a completion, or the
server stops. -/
theorem step_cases {e : Event} (h : step fs s e t) : s.running = true ∧
    ((∃ p act q c r conns ring, e = .execute p act ∧ s.heap q.ctx = some c ∧
        perform q.ctx q.op c act = some r ∧ opened s.conns act = some conns ∧
        complete p r.2.1 s.ring = some (q, ring) ∧ t = s.record q.ctx r ring conns) ∨
      (∃ p a q c res ring l, e = .loop p a ∧ take p s.ring = some ((q, res), ring) ∧
        s.heap q.ctx = some c ∧ Handled fs a q.ctx c res { s with ring := ring } l t) ∨
      t = { s with running := false }) := by
  cases e with
  | execute p act =>
    change (if s.running = true then s.execute p act else none) = some t at h
    split at h
    · next hrun =>
      obtain ⟨q, c, r, conns, ring, h⟩ := execute_eq h
      exact ⟨hrun, .inl ⟨p, act, q, c, r, conns, ring, rfl, h⟩⟩
    · cases h
  | loop p a =>
    change (if s.running = true then s.serverLoop fs p a else none) = some t at h
    split at h
    · next hrun =>
      refine ⟨hrun, .inr ?_⟩
      obtain ⟨q, c, res, ring, hd, hc, ⟨l, hl⟩ | ⟨-, ht⟩⟩ := serverLoop_eq h
      · exact .inl ⟨p, a, q, c, res, ring, l, rfl, hd, hc, hl⟩
      · exact .inr ht
    · cases h

end

end CPrograms.UringHttp
