import CPrograms.Lib.Custody
import CPrograms.Lib.Lifetimes
import CPrograms.Lib.Runs

/-!
# The TLS server of `ssl/use_ssl.c`

The main loop from the first `epoll_wait` on.  The `conn_t`s are numbered: 0 is that of the
listening socket, the others are numbered as the connections are accepted, and so are their
descriptors and their `SSL`s.  `epoll` are the registered descriptors, each with its `data.ptr`;
closing a descriptor takes it away.  `batch` is what is left of `events` in the inner loop.

What the system and OpenSSL answer is in the event; allocations, `SSL_new` and `epoll_ctl`
succeed.  Where the process ends there is no next state.
-/

namespace CPrograms.UseSsl

open Lifetimes

def maxEvents : Nat := 64

def eagain : Int := 11

inductive Resource
  | descriptor (k : Nat)
  | conn (k : Nat)
  | ssl (k : Nat)
deriving DecidableEq

def Resource.number : Resource → Nat
  | .descriptor k => k
  | .conn k => k
  | .ssl k => k

/-- `conn_t`; `ssl` is not set for the listening socket. -/
structure Conn where
  fd : Nat
  ssl : Nat

structure Flags where
  err : Bool
  hup : Bool
  input : Bool

/-- The test for an error, with `EPOLLERR`, `EPOLLHUP`, or no `EPOLLIN`. -/
def Flags.fails (f : Flags) : Bool := f.err || f.hup || !f.input

structure Sys where
  conns : Nat → Option Conn
  /-- the open descriptors, each with the number of its connection -/
  fds : Nat → Option Nat
  epoll : List (Nat × Nat)
  /-- how many connections were accepted -/
  accepted : Nat
  batch : List (Nat × Flags)
  acts : List (Act Resource)

inductive SslError
  | wantRead
  | wantWrite
  | other
deriving DecidableEq

/-- What the calls answer while one event is handled. -/
structure Calls where
  /-- of `accept`, until it fails -/
  accepted : List Nat
  initFinished : Bool
  /-- of `SSL_do_handshake`, and of `SSL_get_error` after it -/
  handshake : Int
  handshakeError : SslError
  /-- of `SSL_read`, and of `SSL_get_error` after it -/
  count : Int
  readError : SslError

def Sys.act (s : Sys) (a : Act Resource) : Sys := { s with acts := s.acts ++ [a] }

/-- `close`: of whosever descriptor `fd` is now. -/
def Sys.close (s : Sys) (k fd : Nat) : Sys :=
  { s with
    fds := Function.update s.fds fd none
    epoll := s.epoll.filter (·.1 ≠ fd)
    acts := s.acts ++ [.release (.descriptor ((s.fds fd).getD k))] }

def Sys.freeConn (s : Sys) (k : Nat) : Sys :=
  { s with conns := Function.update s.conns k none, acts := s.acts ++ [.release (.conn k)] }

/-- A connection on `infd` is accepted and registered. -/
def Sys.accept (s : Sys) (infd : Nat) : Option Sys :=
  let k := s.accepted + 1
  if s.fds infd = none then
    some
      { s with
        conns := Function.update s.conns k (some ⟨infd, k⟩)
        fds := Function.update s.fds infd (some k)
        epoll := (infd, k) :: s.epoll
        accepted := k
        acts := s.acts ++ [.create (.descriptor k)] ++ [.create (.conn k)] ++ [.create (.ssl k)] }
  else none

def acceptLoop : List Nat → Sys → Option Sys
  | [], s => some s
  | infd :: infds, s => (s.accept infd).bind (acceptLoop infds)

/-- `ssl_handshake` -/
def sslHandshake (n : Int) (sslerr : SslError) : Option Int :=
  if n = 1 then some 1
  else
    match sslerr with
    | .wantRead => some eagain
    | .wantWrite => some eagain
    | .other => none

/-- `done`, after `SSL_read` and, if there are bytes, `SSL_write`. -/
def Calls.done (c : Calls) : Bool :=
  if c.count > 0 then false
  else if c.count < 0 then decide (c.readError ≠ .wantRead ∧ c.readError ≠ .wantWrite)
  else true

/-- One turn of the inner loop, for the event `flags` with the `data.ptr` `k`. -/
def handle (sfd k : Nat) (flags : Flags) (calls : Calls) (s : Sys) : Option Sys :=
  let s := s.act (.use (.conn k))
  match s.conns k with
  | none => some s
  | some c =>
    if flags.fails then some ((s.close k c.fd).freeConn k)
    else if sfd = c.fd then acceptLoop calls.accepted s
    else
      let s := s.act (.use (.ssl c.ssl))
      if !calls.initFinished then (sslHandshake calls.handshake calls.handshakeError).map fun _ => s
      else if calls.done then some (((s.act (.release (.ssl c.ssl))).close k c.fd).freeConn k)
      else some s

inductive Event
  /-- `epoll_wait` -/
  | wait (ready : List (Nat × Flags))
  | handle (calls : Calls)

def stepFn (sfd : Nat) (s : Sys) : Event → Option Sys
  | .wait ready =>
    if s.batch = [] ∧ ready.length ≤ maxEvents ∧ (ready.map Prod.fst).Nodup ∧
        ∀ k ∈ ready.map Prod.fst, k ∈ s.epoll.map Prod.snd then
      some { s with batch := ready }
    else none
  | .handle calls =>
    match s.batch with
    | [] => none
    | (k, flags) :: rest => handle sfd k flags calls { s with batch := rest }

abbrev step (sfd : Nat) (s : Sys) (e : Event) (t : Sys) : Prop := stepFn sfd s e = some t

/-- Only the listening socket is registered; `junk` is in its `ssl`. -/
def start (sfd junk : Nat) : Sys where
  conns := Function.update (fun _ => none) 0 (some ⟨sfd, junk⟩)
  fds := Function.update (fun _ => none) sfd (some 0)
  epoll := [(sfd, 0)]
  accepted := 0
  batch := []
  acts := [.create (.descriptor 0), .create (.conn 0)]

end CPrograms.UseSsl
