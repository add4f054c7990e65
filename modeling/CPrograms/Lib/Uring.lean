import Mathlib.Data.List.Perm.Basic

/-!
# Submission and completion queues

The view that a program has of an `io_uring`: requests are prepared in the submission queue
(`push`, which fails on a full queue), handed over from its front (`submit`), completed by
the kernel in any order (`complete`) and taken from the completion queue (`seen`).  The
request stays with its completion.  Each operation moves requests: `requests r` lists all
that are prepared, submitted, or completed and not yet taken, and is only ever permuted,
except that `push` adds one and `seen` takes one away.  `entries r` lists them with their
results.

A program that submits each request as it prepares it uses `enqueue`, and where the order in
which the kernel posts completions does not matter, `take` takes any of them.  The requests
of one key, such as the object that their user data points to, have queues of their own
(`part`): an operation on a request of another key leaves them alone.
-/

namespace Uring

structure Queues (α : Type) where
  sq : List α
  inflight : List α
  cq : List (α × Int)

variable {α : Type}

def empty : Queues α := ⟨[], [], []⟩

/-- `io_uring_get_sqe` and the `io_uring_prep_*` after it, on a ring of `depth` entries. -/
def push (depth : Nat) (q : α) (r : Queues α) : Option (Queues α) :=
  if r.sq.length < depth then some { r with sq := r.sq ++ [q] } else none

/-- `io_uring_submit` that answers `ret`: how many requests it took, or an error. -/
def submit (ret : Int) (r : Queues α) : Queues α :=
  { r with sq := r.sq.drop ret.toNat, inflight := r.inflight ++ r.sq.take ret.toNat }

/-- The kernel completes the `p`-th of the submitted requests. -/
def complete (p : Nat) (res : Int) (r : Queues α) : Option (α × Queues α) :=
  r.inflight[p]?.map fun q => (q, { r with inflight := r.inflight.eraseIdx p, cq := r.cq ++ [(q, res)] })

/-- `io_uring_cqe_seen` -/
def seen (r : Queues α) : Queues α := { r with cq := r.cq.tail }

/-- A request that is prepared and submitted at once. -/
def enqueue (q : α) (r : Queues α) : Queues α := { r with inflight := r.inflight ++ [q] }

/-- The `p`-th completion is taken. -/
def take (p : Nat) (r : Queues α) : Option ((α × Int) × Queues α) :=
  r.cq[p]?.map fun c => (c, { r with cq := r.cq.eraseIdx p })

def requests (r : Queues α) : List α := r.sq ++ r.inflight ++ r.cq.map Prod.fst

@[simp] theorem requests_empty : requests (empty : Queues α) = [] := rfl

theorem mem_requests {q : α} {r : Queues α} :
    q ∈ requests r ↔ q ∈ r.sq ∨ q ∈ r.inflight ∨ ∃ res, (q, res) ∈ r.cq := by
  simp [requests]

theorem push_eq {depth : Nat} {q : α} {r r' : Queues α} (h : push depth q r = some r') :
    r' = { r with sq := r.sq ++ [q] } := by
  unfold push at h
  split at h
  · exact (Option.some.inj h).symm
  · cases h

theorem push_of_lt {depth : Nat} {q : α} {r : Queues α} (h : r.sq.length < depth) :
    push depth q r = some { r with sq := r.sq ++ [q] } := if_pos h

theorem requests_push {depth : Nat} {q : α} {r r' : Queues α} (h : push depth q r = some r') :
    (requests r').Perm (q :: requests r) := by
  rw [push_eq h]
  unfold requests
  rw [List.append_assoc, List.append_assoc, List.append_assoc]
  exact List.perm_middle

theorem requests_submit (ret : Int) (r : Queues α) : (requests (submit ret r)).Perm (requests r) := by
  unfold requests submit
  refine List.Perm.append_right _ ?_
  rw [← List.append_assoc]
  refine List.perm_append_comm.trans ?_
  rw [← List.append_assoc, List.take_append_drop]

theorem submit_all {ret : Int} {r : Queues α} (h : (r.sq.length : Int) ≤ ret) :
    submit ret r = ⟨[], r.inflight ++ r.sq, r.cq⟩ := by
  unfold submit
  rw [List.drop_eq_nil_of_le (by omega), List.take_of_length_le (by omega)]

theorem getElem?_of_complete {p : Nat} {res : Int} {q : α} {r r' : Queues α}
    (h : complete p res r = some (q, r')) : r.inflight[p]? = some q := by
  obtain ⟨q', hq, he⟩ := Option.map_eq_some_iff.1 h
  obtain ⟨rfl, -⟩ := Prod.mk.inj he
  exact hq

theorem getElem?_of_take {p : Nat} {c : α × Int} {r r' : Queues α} (h : take p r = some (c, r')) :
    r.cq[p]? = some c := by
  obtain ⟨c', hc, he⟩ := Option.map_eq_some_iff.1 h
  obtain ⟨rfl, -⟩ := Prod.mk.inj he
  exact hc

theorem take_eq {p : Nat} {c : α × Int} {r r' : Queues α} (h : take p r = some (c, r')) :
    ∃ l₁ l₂, r.cq = l₁ ++ c :: l₂ ∧ r' = ⟨r.sq, r.inflight, l₁ ++ l₂⟩ := by
  obtain ⟨c', hc, he⟩ := Option.map_eq_some_iff.1 h
  obtain ⟨rfl, rfl⟩ := Prod.mk.inj he
  obtain ⟨hp, hget⟩ := List.getElem?_eq_some_iff.1 hc
  refine ⟨r.cq.take p, r.cq.drop (p + 1), ?_, ?_⟩
  · rw [← hget, List.getElem_cons_drop, List.take_append_drop]
  · rw [List.eraseIdx_eq_take_drop_succ]

theorem complete_eq {p : Nat} {res : Int} {q : α} {r r' : Queues α}
    (h : complete p res r = some (q, r')) :
    ∃ l₁ l₂, r.inflight = l₁ ++ q :: l₂ ∧ r' = ⟨r.sq, l₁ ++ l₂, r.cq ++ [(q, res)]⟩ := by
  obtain ⟨q', hq, he⟩ := Option.map_eq_some_iff.1 h
  obtain ⟨rfl, rfl⟩ := Prod.mk.inj he
  obtain ⟨hp, hget⟩ := List.getElem?_eq_some_iff.1 hq
  refine ⟨r.inflight.take p, r.inflight.drop (p + 1), ?_, ?_⟩
  · rw [← hget, List.getElem_cons_drop, List.take_append_drop]
  · rw [List.eraseIdx_eq_take_drop_succ]

theorem requests_complete {p : Nat} {res : Int} {q : α} {r r' : Queues α}
    (h : complete p res r = some (q, r')) : (requests r').Perm (requests r) := by
  obtain ⟨l₁, l₂, hr, rfl⟩ := complete_eq h
  unfold requests
  simp only [hr, List.map_append, List.map_cons, List.map_nil, List.append_assoc, List.cons_append]
  refine (List.Perm.append_left _ ?_).append_left _
  rw [← List.append_assoc]
  exact List.perm_append_singleton _ _

theorem requests_seen {q : α} {res : Int} {cs : List (α × Int)} {r : Queues α}
    (h : r.cq = (q, res) :: cs) : (requests r).Perm (q :: requests (seen r)) := by
  unfold requests seen
  rw [h]
  exact List.perm_middle

/-- The requests, each with its result once it has one. -/
def entries (r : Queues α) : List (α × Option Int) :=
  (r.sq ++ r.inflight).map (·, none) ++ r.cq.map fun d => (d.1, some d.2)

theorem map_fst_entries (r : Queues α) : (entries r).map Prod.fst = requests r := by
  unfold entries requests
  rw [List.map_append, List.map_map, List.map_map,
    show (Prod.fst ∘ fun q : α => (q, (none : Option Int))) = id from rfl,
    List.map_id]
  rfl

theorem entries_enqueue (q : α) (r : Queues α) : (entries (enqueue q r)).Perm ((q, none) :: entries r) := by
  unfold entries enqueue
  rw [← List.append_assoc, List.map_append, List.append_assoc]
  exact List.perm_middle

private theorem perm_insert {β : Type} (l l₁ l₂ : List β) (a : β) :
    (l ++ (l₁ ++ a :: l₂)).Perm (a :: (l ++ (l₁ ++ l₂))) := by
  rw [← List.append_assoc, ← List.append_assoc]
  exact List.perm_middle

theorem entries_take {p : Nat} {q : α} {res : Int} {r r' : Queues α} (h : take p r = some ((q, res), r')) :
    (entries r).Perm ((q, some res) :: entries r') := by
  obtain ⟨l₁, l₂, hr, rfl⟩ := take_eq h
  unfold entries
  dsimp only
  rw [hr, List.map_append, List.map_append, List.map_cons, List.map_append]
  exact perm_insert _ _ _ _

theorem entries_complete {p : Nat} {q : α} {res : Int} {r r' : Queues α} (h : complete p res r = some (q, r')) :
    ∃ l, (entries r).Perm ((q, none) :: l) ∧ (entries r').Perm ((q, some res) :: l) := by
  obtain ⟨l₁, l₂, hr, rfl⟩ := complete_eq h
  refine ⟨entries ⟨r.sq, l₁ ++ l₂, r.cq⟩, ?_, ?_⟩
  · unfold entries
    rw [hr, List.map_append, List.map_append, List.map_cons, List.map_append, List.map_append]
    exact (perm_insert _ _ _ _).append_right _
  · have hcq : (r.cq ++ [(q, res)]).map (fun d => (d.1, some d.2)) =
        r.cq.map (fun d => (d.1, some d.2)) ++ [(q, some res)] := List.map_append
    unfold entries
    dsimp only
    rw [hcq, ← List.append_assoc]
    exact List.perm_append_singleton _ _

/-! ## The requests of one key -/

/-- One request, submitted. -/
def waiting (q : α) : Queues α := ⟨[], [q], []⟩

/-- One request, completed. -/
def done (q : α) (res : Int) : Queues α := ⟨[], [], [(q, res)]⟩

@[simp] theorem requests_waiting (q : α) : requests (waiting q) = [q] := rfl

@[simp] theorem requests_done (q : α) (res : Int) : requests (done q res) = [q] := rfl

section
variable {κ : Type} [DecidableEq κ] (k : α → κ) (x : κ)

def part (r : Queues α) : Queues α :=
  ⟨r.sq.filter (k · = x), r.inflight.filter (k · = x), r.cq.filter (k ·.1 = x)⟩

variable {k x} {r r' : Queues α} {q : α} {p : Nat} {res : Int}

theorem requests_part : requests (part k x r) = (requests r).filter (k · = x) := by
  unfold requests part
  rw [List.filter_append, List.filter_append, List.filter_map]
  rfl

theorem part_enqueue_self (h : k q = x) : part k x (enqueue q r) = enqueue q (part k x r) := by
  simp [part, enqueue, h]

theorem part_enqueue_of_ne (h : k q ≠ x) : part k x (enqueue q r) = part k x r := by
  simp [part, enqueue, h]

theorem part_complete_of_ne (hc : complete p res r = some (q, r')) (h : k q ≠ x) :
    part k x r' = part k x r := by
  obtain ⟨l₁, l₂, hr, rfl⟩ := complete_eq hc
  simp [part, hr, h]

theorem part_take_of_ne (hc : take p r = some ((q, res), r')) (h : k q ≠ x) :
    part k x r' = part k x r := by
  obtain ⟨l₁, l₂, hr, rfl⟩ := take_eq hc
  simp [part, hr, h]

/-- The one entry of a list that a test keeps. -/
theorem filter_eq_singleton {β : Type} {f : β → Bool} {l₁ l₂ : List β} {a b : β} (ha : f a = true)
    (h : (l₁ ++ a :: l₂).filter f = [b]) : b = a ∧ (l₁ ++ l₂).filter f = [] := by
  rw [List.filter_append, List.filter_cons_of_pos ha] at h
  rw [List.filter_append]
  rcases List.append_eq_singleton_iff.1 h with ⟨h1, h2⟩ | ⟨-, h2⟩
  · obtain ⟨rfl, h3⟩ := List.cons.inj h2
    exact ⟨rfl, by rw [h1, h3]; rfl⟩
  · cases h2

/-- What completes under a key with one submitted request is that request. -/
theorem part_complete_self {q' : α} (hc : complete p res r = some (q, r')) (h : k q = x)
    (hx : part k x r = waiting q') : q' = q ∧ part k x r' = done q res := by
  obtain ⟨l₁, l₂, hr, rfl⟩ := complete_eq hc
  obtain ⟨hsq, hin, hcq⟩ := Queues.mk.inj hx
  rw [hr] at hin
  obtain ⟨rfl, hrest⟩ := filter_eq_singleton (by simpa using h) hin
  refine ⟨rfl, ?_⟩
  simp only [part, done, hsq, hrest, List.filter_append, hcq, List.nil_append]
  simp [h]

theorem part_take_self {q' : α} {res' : Int} (hc : take p r = some ((q, res), r')) (h : k q = x)
    (hx : part k x r = done q' res') : q' = q ∧ res' = res ∧ part k x r' = empty := by
  obtain ⟨l₁, l₂, hr, rfl⟩ := take_eq hc
  obtain ⟨hsq, hin, hcq⟩ := Queues.mk.inj hx
  rw [hr] at hcq
  obtain ⟨he, hrest⟩ := filter_eq_singleton (by simpa using h) hcq
  obtain ⟨rfl, rfl⟩ := Prod.mk.inj he
  refine ⟨rfl, rfl, ?_⟩
  simp only [part, empty, hsq, hin, hrest]

theorem complete_mem (hc : complete p res r = some (q, r')) : q ∈ r.inflight := by
  obtain ⟨l₁, l₂, hr, -⟩ := complete_eq hc
  simp [hr]

theorem take_mem (hc : take p r = some ((q, res), r')) : (q, res) ∈ r.cq := by
  obtain ⟨l₁, l₂, hr, -⟩ := take_eq hc
  simp [hr]

end

end Uring
