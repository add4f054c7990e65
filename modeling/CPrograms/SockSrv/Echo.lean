import CPrograms.Lib.Buffers
import CPrograms.Lib.Traces

/-!
# `sock_srv.c`

Each connection has a buffer, which is cleared once.  What a `read` leaves in it is printed and
sent back up to the first NUL: the bytes that were read, and what longer reads before have left
behind them.  So all is well exactly if no read is shorter than the one before it, and none fills
the buffer (`echoes_iff`).
-/

namespace CPrograms.SockSrv

open Buffers Traces

def bufLen : Nat := 1024

/-- What a call of `read` stores; nothing if it fails, which the loop does not tell apart. -/
structure Received where
  bytes : List UInt8
  fits : bytes.length ≤ bufLen
  nulFree : 0 ∉ bytes

inductive Event
  | printed (s : List UInt8)
  | written (bytes : List UInt8)

/-- The loop of a connection, until `read` returns 0. -/
def connection : List Received → Buffer bufLen → Traced Event Unit
  | [], _ => pure ()
  | r :: reads, buffer =>
    let buffer := buffer.overwrite r.bytes
    match buffer.cString with
    | none => Traced.stuck
    | some s => do
      emit (.printed (s ++ [10]))
      emit (.written s)
      connection reads buffer

/-- The loop of `main`, from the connection number `k` on. -/
def server : List (List Received) → Nat → Traced (Nat × Event) Unit
  | [], _ => pure ()
  | reads :: connections, k => do
    (connection reads zeros).mark k
    server connections (k + 1)

/-- What is passed to `write`. -/
def Event.passed : Event → Option (List UInt8)
  | .printed _ => none
  | .written bytes => some bytes

/-! ## One connection -/

/-- What was read is written, read by read. -/
def Echoed (reads : List Received) (x : Traced Event Unit) : Prop :=
  x.result ≠ none ∧ x.events.filterMap Event.passed = reads.map Received.bytes

/-- No read fills the buffer, or is shorter than one before it. -/
structure Growing (reads : List Received) : Prop where
  room : ∀ r ∈ reads, r.bytes.length < bufLen
  sorted : reads.Pairwise fun r r' => r.bytes.length ≤ r'.bytes.length

theorem growing_cons_iff {r : Received} {reads : List Received} :
    Growing (r :: reads) ↔ r.bytes.length < bufLen ∧ (∀ r' ∈ reads, r.bytes.length ≤ r'.bytes.length) ∧
      Growing reads := by
  constructor
  · rintro ⟨hroom, hsorted⟩
    obtain ⟨hr, hroom⟩ := List.forall_mem_cons.1 hroom
    obtain ⟨hle, hsorted⟩ := List.pairwise_cons.1 hsorted
    exact ⟨hr, hle, hroom, hsorted⟩
  · rintro ⟨hr, hle, hroom, hsorted⟩
    exact ⟨List.forall_mem_cons.2 ⟨hr, hroom⟩, List.pairwise_cons.2 ⟨hle, hsorted⟩⟩

/-- After `last`, in a buffer that was clear otherwise. -/
theorem echoed_iff (reads : List Received) : ∀ last : List UInt8, 0 ∉ last → last.length < bufLen →
    (Echoed reads (connection reads (zeros.overwrite last)) ↔
      (∀ r ∈ reads, last.length ≤ r.bytes.length) ∧ Growing reads) := by
  induction reads with
  | nil =>
    intro last _ _
    exact iff_of_true ⟨Option.some_ne_none _, rfl⟩
      ⟨List.forall_mem_nil _, List.forall_mem_nil _, List.Pairwise.nil⟩
  | cons r reads ih =>
    intro last hlast hlen
    have hnul : 0 ∉ r.bytes ++ last.drop r.bytes.length := by
      rw [List.mem_append, not_or]
      exact ⟨r.nulFree, fun h => hlast (List.mem_of_mem_drop h)⟩
    have hnext : (r.bytes ++ last.drop r.bytes.length).length = max r.bytes.length last.length := by
      rw [List.length_append, List.length_drop]
      omega
    rw [connection, overwrite_overwrite (Nat.le_of_lt hlen) r.fits, growing_cons_iff, List.forall_mem_cons]
    by_cases hroom : r.bytes.length < bufLen
    · rw [cString_zeros hnul (by omega)]
      show (connection reads _).result ≠ none ∧
        (r.bytes ++ last.drop r.bytes.length) :: List.filterMap Event.passed (connection reads _).events =
          r.bytes :: reads.map Received.bytes ↔ _
      rw [List.cons.injEq, List.append_right_eq_self, List.drop_eq_nil_iff]
      by_cases hle : last.length ≤ r.bytes.length
      · have hrest := ih r.bytes r.nulFree hroom
        unfold Echoed at hrest
        rw [List.drop_eq_nil_of_le hle, List.append_nil, and_iff_right hle, hrest, and_iff_right hle,
          and_iff_right hroom]
        exact ⟨fun h => ⟨fun r' hr' => Nat.le_trans hle (h.1 r' hr'), h⟩, And.right⟩
      · exact iff_of_false (fun h => hle h.2.1) (fun h => hle h.1.1)
    · have hfits := r.fits
      rw [cString_full hnul (by omega)]
      exact iff_of_false (fun h => h.1 rfl) (fun h => hroom h.2.1)

theorem connection_iff (reads : List Received) : Echoed reads (connection reads zeros) ↔ Growing reads := by
  have h := echoed_iff reads [] List.not_mem_nil (by decide)
  rw [overwrite_nil] at h
  exact h.trans (and_iff_right fun r _ => Nat.zero_le r.bytes.length)

/-! ## All connections -/

/-- Every write, with the number of its connection. -/
def writes (events : List (Nat × Event)) : List (Nat × List UInt8) :=
  events.filterMap fun e => e.2.passed.map (e.1, ·)

def received : List (List Received) → Nat → List (Nat × List UInt8)
  | [], _ => []
  | reads :: connections, k => reads.map (k, ·.bytes) ++ received connections (k + 1)

theorem writes_append (events events' : List (Nat × Event)) :
    writes (events ++ events') = writes events ++ writes events' := List.filterMap_append

theorem writes_mark (k : Nat) (x : Traced Event Unit) :
    writes (x.mark k).events = (x.events.filterMap Event.passed).map (k, ·) := by
  show List.filterMap _ (x.events.map _) = _
  rw [List.filterMap_map, List.map_filterMap]
  rfl

/-- A write for each read. -/
theorem length_written (reads : List Received) : ∀ buffer : Buffer bufLen,
    (connection reads buffer).result ≠ none →
      ((connection reads buffer).events.filterMap Event.passed).length = reads.length := by
  induction reads with
  | nil => exact fun _ _ => rfl
  | cons r reads ih =>
    intro buffer hresult
    rw [connection] at hresult ⊢
    cases hs : (buffer.overwrite r.bytes).cString with
    | none =>
      rw [hs] at hresult
      exact absurd rfl hresult
    | some s =>
      rw [hs] at hresult
      exact congrArg (· + 1) (ih _ hresult)

theorem server_iff (connections : List (List Received)) : ∀ k : Nat,
    ((server connections k).result ≠ none ∧ writes (server connections k).events = received connections k ↔
      ∀ reads ∈ connections, Growing reads) := by
  induction connections with
  | nil => exact fun k => iff_of_true ⟨Option.some_ne_none _, rfl⟩ (List.forall_mem_nil _)
  | cons reads connections ih =>
    intro k
    rw [List.forall_mem_cons, ← connection_iff, ← ih (k + 1), server, received]
    cases hresult : (connection reads zeros).result with
    | none =>
      rw [bind_of_fault (x := (connection reads zeros).mark k) hresult]
      exact iff_of_false (fun h => h.1 rfl) (fun h => h.1.1 hresult)
    | some u =>
      have hone : (connection reads zeros).result ≠ none := by
        rw [hresult]
        exact Option.some_ne_none u
      have hlen := length_written reads zeros hone
      have hmark : ((connection reads zeros).mark k).result = some u := hresult
      have hreceived : reads.map (fun r => (k, r.bytes)) = (reads.map Received.bytes).map (Prod.mk k) := by
        rw [List.map_map]
        rfl
      have hinj : Function.Injective (Prod.mk k : List UInt8 → Nat × List UInt8) :=
        fun _ _ he => (Prod.mk.inj he).2
      unfold Echoed
      rw [result_bind, hmark, Option.bind_some, events_bind_of_result hmark, writes_append, writes_mark,
        hreceived, and_iff_right hone]
      constructor
      · rintro ⟨hrest, hevents⟩
        obtain ⟨hfirst, hevents⟩ := List.append_inj hevents (by simp only [List.length_map, hlen])
        exact ⟨hinj.list_map hfirst, hrest, hevents⟩
      · rintro ⟨hfirst, hrest, hevents⟩
        exact ⟨hrest, by rw [hfirst, hevents]⟩

/-- On each connection what is written is what was read, and no scan leaves the buffer. -/
def Echoes (connections : List (List Received)) : Prop :=
  (server connections 0).result ≠ none ∧ writes (server connections 0).events = received connections 0

/-- **The echo.**  When the server sends back what it received. -/
theorem echoes_iff (connections : List (List Received)) :
    Echoes connections ↔ ∀ reads ∈ connections, Growing reads :=
  server_iff connections 0

/-- The bytes `ab`, and then `c`: the second answer is `cb`. -/
theorem shorter_read_echoes_rest :
    ¬ Echoes [[⟨[97, 98], by decide, by decide⟩, ⟨[99], by decide, by decide⟩]] := by
  intro h
  have hgrowing := (server_iff _ 0).1 h _ List.mem_cons_self
  exact absurd hgrowing.sorted (by decide)

end CPrograms.SockSrv
