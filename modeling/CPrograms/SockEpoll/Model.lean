import Mathlib.Data.List.Nodup
import CPrograms.Lib.Runs

/-!
# The edge-triggered server of `file_io/sock_epoll.c`

The main loop with the kernel around it.  `ready` are the descriptors with an event that was
not delivered yet: under `EPOLLET` an arrival sets it and `epoll_wait` takes it away.
`batch` is what is left of `events[]` in the inner loop; it is empty when the main loop calls
`epoll_wait`.  Connections are numbered as they arrive, and the number stands for the
descriptor that `accept` gives.  What the server writes back is left out.
-/

namespace CPrograms.SockEpoll

def maxline : Nat := 100

inductive Fd
  | listen
  | client (c : Nat)
deriving DecidableEq

/-- What is known of the other end of a connection. -/
inductive Peer
  | connected
  | closed
  | reset
deriving DecidableEq

structure Sys where
  /-- the number of connections so far -/
  connections : Nat
  /-- not accepted yet -/
  pending : List Nat
  /-- accepted, registered and not closed -/
  registered : List Nat
  unread : Nat → List UInt8
  peer : Nat → Peer
  ready : Fd → Bool
  batch : List Fd
  exited : Bool

def start : Sys := ⟨0, [], [], fun _ => [], fun _ => .connected, fun _ => false, [], false⟩

def Sys.isOpen (s : Sys) (c : Nat) : Prop := c ∈ s.pending ∨ c ∈ s.registered

instance (s : Sys) (c : Nat) : Decidable (s.isOpen c) := inferInstanceAs (Decidable (_ ∨ _))

inductive Event
  | connect
  | data (c : Nat) (bytes : List UInt8)
  | hangup (c : Nat) (p : Peer)
  /-- `epoll_wait` delivers these -/
  | wait (fds : List Fd)
  /-- the next turn of the inner loop -/
  | handle
deriving DecidableEq

/-- Something arrived on `fd`. -/
def Sys.post (s : Sys) (fd : Fd) : Sys := { s with ready := Function.update s.ready fd true }

/-- What arrives on a connection is an event once it is registered. -/
def Sys.arrive (s : Sys) (c : Nat) : Sys := if c ∈ s.registered then s.post (.client c) else s

/-- The branch for the listening socket: one `accept`, and the new socket is registered. -/
def Sys.accept (s : Sys) : Sys :=
  match s.pending with
  | [] => { s with exited := true }
  | c :: rest =>
    { s with pending := rest, registered := c :: s.registered,
             ready := Function.update s.ready (.client c)
               (decide (s.unread c ≠ [] ∨ s.peer c ≠ .connected)) }

def Sys.close (s : Sys) (c : Nat) : Sys :=
  { s with registered := s.registered.filter (· ≠ c),
           ready := Function.update s.ready (.client c) false }

/-- The branch for a client: one `read`. -/
def Sys.read (s : Sys) (c : Nat) : Sys :=
  match s.unread c, s.peer c with
  -- `EAGAIN` is only reported
  | [], .connected => s
  | [], _ => s.close c
  | bytes, _ => { s with unread := Function.update s.unread c (bytes.drop maxline) }

/-- One turn of the inner loop. -/
def Sys.turn (s : Sys) : Fd → Sys
  | .listen => s.accept
  | .client c => s.read c

def step (s : Sys) : Event → Option Sys
  | .connect =>
    some ({ s with connections := s.connections + 1, pending := s.pending ++ [s.connections] }.post .listen)
  | .data c bytes =>
    if s.isOpen c ∧ s.peer c = .connected ∧ bytes ≠ [] then
      some ({ s with unread := Function.update s.unread c (s.unread c ++ bytes) }.arrive c)
    else none
  | .hangup c p =>
    if s.isOpen c ∧ s.peer c = .connected ∧ p ≠ .connected then
      some ({ s with peer := Function.update s.peer c p }.arrive c)
    else none
  | .wait fds =>
    if s.exited = false ∧ s.batch = [] ∧ fds.Nodup ∧ fds.length ≤ 20 ∧ ∀ fd ∈ fds, s.ready fd = true then
      some { s with ready := fun fd => s.ready fd && !decide (fd ∈ fds), batch := fds }
    else none
  | .handle =>
    match s.exited, s.batch with
    | false, fd :: rest => some ({ s with batch := rest }.turn fd)
    | _, _ => none

/-- The main loop calls `epoll_wait`. -/
def Sys.Waits (s : Sys) : Prop := s.exited = false ∧ s.batch = []

/-- Pending or unread on a registered descriptor. -/
def Sys.Unserved (s : Sys) : Fd → Prop
  | .listen => s.pending ≠ []
  | .client c => c ∈ s.registered ∧ s.unread c ≠ []

/-- Everything that is unserved has an event that was not delivered yet. -/
def Served (s : Sys) : Prop := ∀ fd, s.Unserved fd → s.ready fd = true

/-- One turn does not take all that is there. -/
def Sys.Left (s : Sys) : Fd → Prop
  | .listen => 1 < s.pending.length
  | .client c => maxline < (s.unread c).length

instance (s : Sys) : ∀ fd, Decidable (s.Left fd)
  | .listen => inferInstanceAs (Decidable (1 < s.pending.length))
  | .client c => inferInstanceAs (Decidable (maxline < (s.unread c).length))

/-- A turn that leaves nothing behind, or nothing without a new event. -/
def Drains (s : Sys) (e : Event) : Prop :=
  e = .handle → ∀ fd ∈ s.batch.head?, s.Left fd → s.ready fd = true

instance (s : Sys) (e : Event) : Decidable (Drains s e) :=
  inferInstanceAs (Decidable (e = .handle → ∀ fd ∈ s.batch.head?, s.Left fd → s.ready fd = true))

end CPrograms.SockEpoll
