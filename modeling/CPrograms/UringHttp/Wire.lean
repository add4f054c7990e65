import CPrograms.UringHttp.Lives

/-!
# What a GET puts on the wire

A file is answered with two contexts: the header is written, and the body is read from the
file and then written.  The kernel may perform the header's write and the body's two steps
in any order that keeps the latter two apart, and each of them in part; the server looks at
none of that.  So the client gets the header followed by the file exactly when all three
transfers are full and the header goes first (`wire_iff`), or the two texts commute.
-/

namespace CPrograms.UringHttp

open Uring Runs

def Note.sentOn (sock : Int) : Note → Bool
  | .sent _ s _ _ => s = sock
  | _ => false

def Note.bytes : Note → List (Option UInt8)
  | .sent _ _ _ bytes => bytes
  | _ => []

/-- A transfer moved all that was asked for. -/
def Note.Full : Note → Prop
  | .read _ asked got => got = asked
  | .sent _ _ asked bytes => bytes.length = asked
  | .armed .. => True

/-- The writes to `sock` from the contexts `ws`, in their order. -/
def writes (sock : Int) (ws : List Nat) (log : List Note) : List Note :=
  log.filter fun n => n.sentOn sock && ws.contains n.ctx

/-- What the socket accepts from the contexts `ws`. -/
def wire (sock : Int) (ws : List Nat) (log : List Note) : List (Option UInt8) :=
  (writes sock ws log).flatMap Note.bytes

/-- The lives of a context that is written, after the notes `pre`. -/
inductive Writing (x : Nat) (sock : Int) (n : Nat) (c : Context) (pre : List Note) : View → Prop
  | waiting : Writing x sock n c pre ⟨some c, waiting ⟨x, .writev sock n⟩, pre⟩
  | sent {res m} : Moves m (c.iov.take n).flatten.length →
      Writing x sock n c pre ⟨some c, done ⟨x, .writev sock n⟩ res,
        pre ++ [.sent x sock (c.iov.take n).flatten.length ((c.iov.take n).flatten.take m)]⟩
  | failed {res} : res < 0 → Writing x sock n c pre ⟨some c, done ⟨x, .writev sock n⟩ res, pre⟩
  | gone {m} : Moves m (c.iov.take n).flatten.length →
      Writing x sock n c pre ⟨none, empty,
        pre ++ [.sent x sock (c.iov.take n).flatten.length ((c.iov.take n).flatten.take m)] ++ rearm x c⟩

/-- The lives of a context that is filled from a file and then written. -/
inductive Reading (x : Nat) (content : List UInt8) (c : Context) : View → Prop
  | waiting : Reading x content c ⟨some c, waiting ⟨x, .readv content c.iovecCount⟩, []⟩
  | read {m : Nat} : Moves m (min (c.iov.take c.iovecCount).flatten.length content.length) →
      Reading x content c ⟨some (c.fill c.iovecCount (content.take m)),
        done ⟨x, .readv content c.iovecCount⟩ m, [.read x (c.iov.take c.iovecCount).flatten.length m]⟩
  | failed {o q res} : res < 0 → Reading x content c ⟨o, done q res, []⟩
  | ended {o l} : (∀ n ∈ l, ∀ sock, n.sentOn sock = false) → Reading x content c ⟨o, empty, l⟩
  | writing {m : Nat} {v} : Moves m (min (c.iov.take c.iovecCount).flatten.length content.length) →
      Writing x c.clientSocket c.iovecCount
        { c.fill c.iovecCount (content.take m) with eventType := .write }
        [.read x (c.iov.take c.iovecCount).flatten.length m] v →
      Reading x content c v

section
variable {x n : Nat} {sock : Int} {c : Context} {pre : List Note} {content : List UInt8} {v w : View}

theorem Writing.step (hc : c.eventType = .write) (hv : Writing x sock n c pre v) (h : Local x v w) :
    Writing x sock n c pre w := by
  cases hv with
  | waiting =>
    cases h with
    | performed hp =>
      cases performed_of_perform hp with
      | sent hm => exact .sent hm
      | failed =>
        rw [List.append_nil]
        exact .failed (Int.negSucc_lt_zero _)
  | sent hm =>
    cases h with
    | freed => exact .gone hm
    | ended hk => rw [hc] at hk; cases hk
    | readDone hk => rw [hc] at hk; cases hk
  | failed hres =>
    cases h with
    | freed _ h0 => omega
    | ended hk => rw [hc] at hk; cases hk
    | readDone hk => rw [hc] at hk; cases hk
  | gone => cases h

theorem Reading.step (hc : c.eventType = .readFile) (hv : Reading x content c v) (h : Local x v w) :
    Reading x content c w := by
  cases hv with
  | waiting =>
    cases h with
    | performed hp =>
      cases performed_of_perform hp with
      | read hm => exact .read hm
      | failed => exact .failed (Int.negSucc_lt_zero _)
  | read hm =>
    cases h with
    | ended => exact .ended (by simp [Note.sentOn])
    | readDone => exact .writing hm .waiting
    | freed hk => exact absurd hc hk
  | failed hres =>
    cases h with
    | ended => omega
    | readDone => omega
    | freed _ h0 => omega
  | ended => cases h
  | writing hm hw => exact .writing hm (hw.step rfl h)

theorem rearm_notes (x : Nat) (c : Context) : ∀ n ∈ rearm x c, n.Full ∧ ∀ sock, n.sentOn sock = false := by
  unfold rearm
  split <;> simp [Note.Full, Note.sentOn]

/-- The write of a context that has been written. -/
theorem Writing.writes (hv : Writing x sock n c pre v) (hpre : ∀ k ∈ pre, k.sentOn sock = false)
    (hsent : ∃ k ∈ v.log, k.sentOn sock = true) :
    ∃ m, m ≤ (c.iov.take n).flatten.length ∧
      v.log.filter (·.sentOn sock) =
        [.sent x sock (c.iov.take n).flatten.length ((c.iov.take n).flatten.take m)] ∧
      ((∀ k ∈ v.log, k.Full) ↔ (∀ k ∈ pre, k.Full) ∧ m = (c.iov.take n).flatten.length) := by
  have hnone : ¬∃ k ∈ pre, k.sentOn sock = true := by
    rintro ⟨k, hk, hs⟩
    rw [hpre k hk] at hs
    cases hs
  have hpre' : pre.filter (·.sentOn sock) = [] := by
    rw [List.filter_eq_nil_iff]
    intro k hk
    simp [hpre k hk]
  have hfull : ∀ {m}, m ≤ (c.iov.take n).flatten.length →
      ((Note.sent x sock (c.iov.take n).flatten.length ((c.iov.take n).flatten.take m)).Full ↔
        m = (c.iov.take n).flatten.length) := by
    intro m hm
    show (List.take m _).length = _ ↔ _
    rw [List.length_take]
    omega
  cases hv with
  | waiting => exact absurd hsent hnone
  | failed => exact absurd hsent hnone
  | @sent _ m hm =>
    refine ⟨m, hm.1, ?_, ?_⟩
    · rw [List.filter_append, hpre']
      simp [Note.sentOn]
    · rw [← hfull hm.1]
      simp only [List.mem_append, List.mem_singleton, or_imp, forall_and, forall_eq]
  | @gone m hm =>
    have hrearm := rearm_notes x c
    refine ⟨m, hm.1, ?_, ?_⟩
    · have : (rearm x c).filter (·.sentOn sock) = [] := by
        rw [List.filter_eq_nil_iff]
        intro k hk
        simp [(hrearm k hk).2 sock]
      rw [List.filter_append, List.filter_append, hpre', this]
      simp [Note.sentOn]
    · rw [← hfull hm.1]
      simp only [List.mem_append, List.mem_singleton, or_imp, forall_and, forall_eq]
      exact ⟨fun h => h.1, fun h => ⟨h, fun k hk => (hrearm k hk).1⟩⟩

/-- The write of a context that has been filled from `content` and written. -/
theorem Reading.writes (hv : Reading x content c v)
    (hbufs : (c.iov.take c.iovecCount).flatten = List.replicate content.length none)
    (hsent : ∃ k ∈ v.log, k.sentOn c.clientSocket = true) :
    ∃ m k, m ≤ content.length ∧ k ≤ content.length ∧
      v.log.filter (·.sentOn c.clientSocket) = [.sent x c.clientSocket content.length
        (((content.take m).map some ++ List.replicate (content.length - m) none).take k)] ∧
      ((∀ n ∈ v.log, n.Full) ↔ m = content.length ∧ k = content.length) := by
  have hnot : ∀ {l : List Note}, (∀ n ∈ l, ∀ sock, n.sentOn sock = false) →
      ¬∃ k ∈ l, k.sentOn c.clientSocket = true := by
    rintro l hl ⟨k, hk, hs⟩
    rw [hl k hk] at hs
    cases hs
  cases hv with
  | waiting => exact absurd hsent (hnot (by simp))
  | read => exact absurd hsent (hnot (by simp [Note.sentOn]))
  | failed => exact absurd hsent (hnot (by simp))
  | ended hl => exact absurd hsent (hnot hl)
  | @writing m _ hm hw =>
    rw [hbufs, List.length_replicate, Nat.min_self] at hm
    have hbytes : (({ c.fill c.iovecCount (content.take m) with eventType := .write } : Context).iov.take
        c.iovecCount).flatten =
          (content.take m).map some ++ List.replicate (content.length - m) none := by
      show ((c.fill c.iovecCount (content.take m)).iov.take c.iovecCount).flatten = _
      have hlen : (content.take m).length = m := by
        rw [List.length_take, Nat.min_eq_left hm.1]
      rw [take_iov_fill, flatten_fill (by rw [hlen, hbufs, List.length_replicate]; exact hm.1), hbufs,
        List.drop_replicate, hlen]
    have hlen : ((content.take m).map some ++ List.replicate (content.length - m) (none : Option UInt8)).length =
        content.length := by
      have := hm.1
      rw [List.length_append, List.length_map, List.length_take, List.length_replicate]
      omega
    obtain ⟨k, hk, hwrites, hfull⟩ := hw.writes (by simp [Note.sentOn]) hsent
    rw [hbytes, hlen] at hk hwrites hfull
    refine ⟨m, k, hm.1, hk, hwrites, ?_⟩
    rw [hfull, hbufs, List.length_replicate]
    simp [Note.Full]

/-! ## Pieces -/

/-- `got` is what a transfer has of `text`, and all of it just where `full` says so. -/
structure Piece (text : List UInt8) (got : List (Option UInt8)) (full : Prop) : Prop where
  short : got.length ≤ text.length
  of_full : full → got = text.map some
  of_length : got.length = text.length → none ∉ got → full

/-- The file's bytes as far as they were read, and the rest of the buffers. -/
theorem body_piece (text : List UInt8) {m k : Nat} (hm : m ≤ text.length) (hk : k ≤ text.length) :
    Piece text (((text.take m).map some ++ List.replicate (text.length - m) none).take k)
      (m = text.length ∧ k = text.length) := by
  have hlen : ((text.take m).map some ++ List.replicate (text.length - m) (none : Option UInt8)).length =
      text.length := by
    rw [List.length_append, List.length_map, List.length_take, List.length_replicate]
    omega
  constructor
  · rw [List.length_take, hlen]
    omega
  · rintro ⟨rfl, rfl⟩
    simp
  · intro hgot hnone
    rw [List.length_take, hlen] at hgot
    have hk : k = text.length := by omega
    refine ⟨?_, hk⟩
    by_contra hne
    rw [List.take_of_length_le (by omega)] at hnone
    refine hnone (List.mem_append_right _ (List.mem_replicate.2 ⟨?_, rfl⟩))
    omega

theorem header_piece (text : List UInt8) {m : Nat} (hm : m ≤ text.length) :
    Piece text ((text.map some).take m) (m = text.length) := by
  have := body_piece text (le_refl _) hm
  rw [List.take_length, Nat.sub_self, List.replicate_zero, List.append_nil] at this
  exact ⟨this.short, fun h => this.of_full ⟨rfl, h⟩, fun h1 h2 => (this.of_length h1 h2).2⟩

/-- Pieces that make up both texts are whole. -/
theorem Piece.both {a b z : List UInt8} {u v : List (Option UInt8)} {p q : Prop} (hu : Piece a u p)
    (hv : Piece b v q) (hlen : z.length = a.length + b.length)
    (hz : (u ++ v).Perm (z.map some)) : p ∧ q := by
  have hsum := hz.length_eq
  rw [List.length_append, List.length_map, hlen] at hsum
  have hnone : none ∉ u ++ v := by
    rw [hz.mem_iff]
    simp
  rw [List.mem_append, not_or] at hnone
  have h1 := hu.short
  have h2 := hv.short
  exact ⟨hu.of_length (by omega) hnone.1, hv.of_length (by omega) hnone.2⟩

/-- The two entries of a list that two exclusive tests keep. -/
theorem filter_or {α : Type} {p q : α → Bool} {l : List α} {a b : α} (hp : l.filter p = [a])
    (hq : l.filter q = [b]) (hpq : ∀ x ∈ l, p x = true → q x = false) :
    l.filter (fun x => p x || q x) = [a, b] ∨ l.filter (fun x => p x || q x) = [b, a] := by
  have hone : ∀ {p q : α → Bool} {l : List α}, l.filter p = [] →
      l.filter (fun x => p x || q x) = l.filter q := by
    intro p q l h
    refine List.filter_congr fun x hx => ?_
    rw [Bool.eq_false_iff.2 (List.filter_eq_nil_iff.1 h x hx), Bool.false_or]
  induction l with
  | nil => cases hp
  | cons x l ih =>
    have hpq' : ∀ y ∈ l, p y = true → q y = false := fun y hy => hpq y (List.mem_cons_of_mem _ hy)
    by_cases hpx : p x = true
    · have hqx := hpq x List.mem_cons_self hpx
      rw [List.filter_cons_of_pos hpx] at hp
      obtain ⟨rfl, hrest⟩ := List.cons.inj hp
      rw [List.filter_cons_of_neg (by simp [hqx])] at hq
      rw [List.filter_cons_of_pos (by simp [hpx]), hone hrest, hq]
      exact .inl rfl
    · rw [List.filter_cons_of_neg hpx] at hp
      by_cases hqx : q x = true
      · rw [List.filter_cons_of_pos hqx] at hq
        obtain ⟨rfl, hrest⟩ := List.cons.inj hq
        have hswap : l.filter (fun x => p x || q x) = l.filter (fun x => q x || p x) :=
          List.filter_congr fun x _ => Bool.or_comm _ _
        rw [List.filter_cons_of_pos (by simp [hqx]), hswap, hone hrest, hp]
        exact .inr rfl
      · rw [List.filter_cons_of_neg hqx] at hq
        rw [List.filter_cons_of_neg (by simp [hpx, hqx])]
        exact ih hp hq hpq'

/-! ## The two contexts of a file -/

theorem flatten_header (path : List UInt8) (size : Nat) (junk : Context) (sock : Int) :
    ((headerCtx path size junk sock).iov.take 5).flatten = (sendHeaders path size).flatten.map some := by
  show (((sendHeaders path size).map (·.map some)).take 5).flatten = _
  rw [List.take_of_length_le (by rw [List.length_map, length_sendHeaders]), List.map_flatten]

theorem flatten_body (size fd : Nat) (junk : Context) (sock : Int) :
    ((bodyCtx size fd junk sock).iov.take (iovecCount size)).flatten = List.replicate size none := by
  show (((blockLens size).map (List.replicate · none)).take _).flatten = _
  rw [take_blocks, List.eq_replicate_iff]
  refine ⟨length_flatten_blocks size, fun b hb => ?_⟩
  obtain ⟨l, hl, hb⟩ := List.mem_flatten.1 hb
  obtain ⟨k, -, rfl⟩ := List.mem_map.1 hl
  exact List.eq_of_mem_replicate hb

end

section
variable {fs : Fs} {junk : Context} {es es' : List Event} {s s' t : Srv} {e : Event}
  {path : List UInt8} {f : File} {sock : Int}

/-- The notes of a context, seen from its view. -/
theorem mem_view {n : Note} {x : Nat} : n ∈ (t.view x).log ↔ n ∈ t.log ∧ n.ctx = x := by
  show n ∈ t.log.filter _ ↔ _
  simp

theorem full_pair (t : Srv) (x y : Nat) : (∀ n ∈ t.log, n.ctx = x ∨ n.ctx = y → n.Full) ↔
    (∀ n ∈ (t.view x).log, n.Full) ∧ ∀ n ∈ (t.view y).log, n.Full := by
  simp only [mem_view]
  constructor
  · intro h
    exact ⟨fun n hn => h n hn.1 (.inl hn.2), fun n hn => h n hn.1 (.inr hn.2)⟩
  · rintro ⟨h1, h2⟩ n hn hx
    exact hx.elim (fun hx => h1 n ⟨hn, hx⟩) fun hx => h2 n ⟨hn, hx⟩

/-- The writes of two contexts that write once each, in the one order or in the other. -/
theorem writes_pair {x y : Nat} {a b : Note} (hxy : x ≠ y) (hx : (t.view x).log.filter (·.sentOn sock) = [a])
    (hy : (t.view y).log.filter (·.sentOn sock) = [b]) :
    writes sock [x, y] t.log = [a, b] ∨ writes sock [x, y] t.log = [b, a] := by
  have hfilter : ∀ z, (t.view z).log.filter (·.sentOn sock) =
      t.log.filter (fun n => n.sentOn sock && decide (n.ctx = z)) := fun z => List.filter_filter
  have hexcl : ∀ n ∈ t.log, (n.sentOn sock && decide (n.ctx = x)) = true →
      (n.sentOn sock && decide (n.ctx = y)) = false := by
    intro n _ h
    have hctx : n.ctx = x := of_decide_eq_true (Bool.and_eq_true_iff.1 h).2
    rw [hctx, decide_eq_false hxy, Bool.and_false]
  have heither : writes sock [x, y] t.log =
      t.log.filter (fun n => (n.sentOn sock && decide (n.ctx = x)) || (n.sentOn sock && decide (n.ctx = y))) := by
    unfold writes
    refine List.filter_congr fun n _ => ?_
    rw [← Bool.and_or_distrib_left]
    simp
  rw [hfilter] at hx hy
  rw [heither]
  exact filter_or hx hy hexcl

/-- The lives of the two contexts of an answer. -/
theorem answered_lives (hs : Run (step fs) (start junk) es s) (he : step fs s e s')
    (ha : answered fs s e = some (sock, .file path f)) (ht : Run (step fs) s' es' t) : ∃ a : Answers,
    Writing s.brk sock 5 (headerCtx path f.content.length a.first sock) [] (t.view s.brk) ∧
      Reading (s.brk + 1) f.content (bodyCtx f.content.length a.fd a.second sock) (t.view (s.brk + 1)) := by
  have hwf := run_wellFormed hs
  obtain ⟨p, a, -, hbrk, hnew⟩ := answered_step hwf he ha
  have hbrk : s'.brk = s.brk + 2 := hbrk
  have hwf' := step_wellFormed hwf he
  refine ⟨a, ?_, ?_⟩
  · refine run_view _ (fun v w _ hv hl => Writing.step rfl hv hl) ht hwf' (by omega) ?_
    rw [hnew s.brk (le_refl _)]
    have hfirst := spawned_add s.brk (parts a sock (.file path f)) 0 (by simp [parts])
    rw [Nat.add_zero] at hfirst
    rw [hfirst]
    exact .waiting
  · refine run_view _ (fun v w _ hv hl => Reading.step rfl hv hl) ht hwf' (by omega) ?_
    rw [hnew (s.brk + 1) (by omega), spawned_add s.brk (parts a sock (.file path f)) 1 (by simp [parts])]
    exact .waiting

/-- **The wire of a GET.**  Once both contexts have been written, the client has the header
and the file just where nothing was cut short and the header went first. -/
theorem wire_iff (hs : Run (step fs) (start junk) es s) (he : step fs s e s')
    (ha : answered fs s e = some (sock, .file path f)) (ht : Run (step fs) s' es' t)
    (hh : ∃ n ∈ t.log, n.sentOn sock = true ∧ n.ctx = s.brk)
    (hb : ∃ n ∈ t.log, n.sentOn sock = true ∧ n.ctx = s.brk + 1) :
    wire sock [s.brk, s.brk + 1] t.log =
        ((sendHeaders path f.content.length).flatten ++ f.content).map some ↔
      (∀ n ∈ t.log, n.ctx = s.brk ∨ n.ctx = s.brk + 1 → n.Full) ∧
        ((writes sock [s.brk, s.brk + 1] t.log).map Note.ctx = [s.brk, s.brk + 1] ∨
          f.content ++ (sendHeaders path f.content.length).flatten =
            (sendHeaders path f.content.length).flatten ++ f.content) := by
  obtain ⟨a, hhead, hbody⟩ := answered_lives hs he ha ht
  -- what they wrote
  obtain ⟨i, hi, hwh, hfh⟩ := hhead.writes (by simp) (by
    obtain ⟨n, hn, h1, h2⟩ := hh
    exact ⟨n, mem_view.2 ⟨hn, h2⟩, h1⟩)
  obtain ⟨m, k, hm, hk, hwb, hfb⟩ := hbody.writes (flatten_body _ _ _ _) (by
    obtain ⟨n, hn, h1, h2⟩ := hb
    exact ⟨n, mem_view.2 ⟨hn, h2⟩, h1⟩)
  rw [flatten_header, List.length_map] at hi hwh hfh
  have hpieceh := header_piece _ hi
  have hpieceb := body_piece f.content hm hk
  generalize hH : (sendHeaders path f.content.length).flatten = H at *
  have hfull : (∀ n ∈ t.log, n.ctx = s.brk ∨ n.ctx = s.brk + 1 → n.Full) ↔
      i = H.length ∧ m = f.content.length ∧ k = f.content.length := by
    have h1 : (∀ n ∈ (t.view s.brk).log, n.Full) ↔ i = H.length := by
      rw [hfh]
      simp
    rw [full_pair, h1, hfb]
  rw [hfull]
  unfold wire
  rcases writes_pair (Nat.ne_of_lt (Nat.lt_succ_self s.brk)) hwh hwb with hord | hord
  · -- the header first
    rw [hord]
    simp only [List.flatMap_cons, List.flatMap_nil, List.append_nil, Note.bytes, List.map_cons,
      List.map_nil, Note.ctx, true_or, and_true]
    constructor
    · intro heq
      exact hpieceh.both hpieceb List.length_append (heq ▸ List.Perm.refl _)
    · rintro ⟨h1, h2⟩
      rw [hpieceh.of_full h1, hpieceb.of_full h2, List.map_append]
  · -- the body first
    rw [hord]
    simp only [List.flatMap_cons, List.flatMap_nil, List.append_nil, Note.bytes, List.map_cons,
      List.map_nil, Note.ctx]
    have hne : ([s.brk + 1, s.brk] = [s.brk, s.brk + 1]) ↔ False := by
      simp
    rw [hne, false_or]
    constructor
    · intro heq
      have hboth := hpieceh.both hpieceb List.length_append
        (List.perm_append_comm.trans (heq ▸ List.Perm.refl _))
      refine ⟨hboth, ?_⟩
      rw [hpieceh.of_full hboth.1, hpieceb.of_full hboth.2, ← List.map_append] at heq
      exact List.map_injective_iff.2 (fun _ _ => Option.some.inj) heq
    · rintro ⟨⟨h1, h2⟩, hcomm⟩
      rw [hpieceh.of_full h1, hpieceb.of_full h2, ← List.map_append, hcomm]

/-- A file of one byte, with its three transfers in full and the header's first. -/
theorem wire_in_order : ∃ s s' t es es', Run (step oneFile) (start zeroed) es s ∧
    step oneFile s (.loop 0 ⟨zeroed, zeroed, 5⟩) s' ∧ Run (step oneFile) s' es' t ∧
    wire 4 [s.brk, s.brk + 1] t.log = ((sendHeaders (ascii "public/a") 1).flatten ++ [65]).map some := by
  obtain ⟨s, t, hs, hg, ht, hlog⟩ := run_of_exec_bind (stepFn oneFile) (stepFn oneFile) (start zeroed)
    (request "GET /a") (.loop 0 ⟨zeroed, zeroed, 5⟩ :: [.execute 1 (.moved 80), .execute 1 (.moved 1),
      .loop 1 ⟨zeroed, zeroed, 5⟩, .execute 1 (.moved 1)])
    (fun s => (s.brk, answered oneFile s (.loop 0 ⟨zeroed, zeroed, 5⟩))) Srv.log
    (a := (3, some (4, .file (ascii "public/a") ⟨true, true, [65]⟩)))
    (b := [.sent 3 4 80 ((sendHeaders (ascii "public/a") 1).flatten.map some), .read 4 1 1,
      .sent 4 4 1 [some 65]]) (by decide +kernel)
  obtain ⟨hbrk, ha⟩ := Prod.mk.inj hg
  cases ht with
  | cons he ht =>
    have hwire := wire_iff hs he ha ht (by simp [hlog, hbrk, Note.sentOn, Note.ctx])
      (by simp [hlog, hbrk, Note.sentOn, Note.ctx])
    refine ⟨s, _, t, _, _, hs, he, ht, hwire.2 ⟨?_, .inl ?_⟩⟩
    · intro n hn _
      rw [hlog] at hn
      rcases List.mem_cons.1 hn with rfl | hn
      · show ((sendHeaders (ascii "public/a") 1).flatten.map some).length = 80
        decide
      · rcases List.mem_pair.1 hn with rfl | rfl <;> rfl
    · simp [hlog, hbrk, writes, Note.sentOn, Note.ctx]

/-- The body's write is performed before the header's. -/
theorem wire_disordered : ¬ ∀ (fs : Fs) (junk : Context) (es es' : List Event) (s s' t : Srv) (e : Event)
    (path : List UInt8) (f : File) (sock : Int), Run (step fs) (start junk) es s → step fs s e s' →
    answered fs s e = some (sock, .file path f) → f.content ≠ [] → Run (step fs) s' es' t →
    (∃ n ∈ t.log, n.sentOn sock = true ∧ n.ctx = s.brk) →
    (∃ n ∈ t.log, n.sentOn sock = true ∧ n.ctx = s.brk + 1) →
    wire sock [s.brk, s.brk + 1] t.log =
      ((sendHeaders path f.content.length).flatten ++ f.content).map some := by
  intro h
  obtain ⟨s, t, hs, hg, ht, hlog⟩ := run_of_exec_bind (stepFn oneFile) (stepFn oneFile) (start zeroed)
    (request "GET /a") (.loop 0 ⟨zeroed, zeroed, 5⟩ :: [.execute 2 (.moved 1), .loop 0 ⟨zeroed, zeroed, 5⟩,
      .execute 2 (.moved 1), .execute 1 (.moved 80)])
    (fun s => (s.brk, answered oneFile s (.loop 0 ⟨zeroed, zeroed, 5⟩))) Srv.log
    (a := (3, some (4, .file (ascii "public/a") ⟨true, true, [65]⟩)))
    (b := [.read 4 1 1, .sent 4 4 1 [some 65],
      .sent 3 4 80 ((sendHeaders (ascii "public/a") 1).flatten.map some)]) (by decide +kernel)
  obtain ⟨hbrk, ha⟩ := Prod.mk.inj hg
  cases ht with
  | cons he ht =>
    have hwire := h oneFile zeroed _ _ s _ t _ _ _ 4 hs he ha (by simp) ht
      (by simp [hlog, hbrk, Note.sentOn, Note.ctx]) (by simp [hlog, hbrk, Note.sentOn, Note.ctx])
    rw [hlog, hbrk] at hwire
    revert hwire
    decide +kernel

end

end CPrograms.UringHttp
