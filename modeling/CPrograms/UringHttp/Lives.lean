import CPrograms.UringHttp.Server

/-!
# The life of a context

Between its allocation and its release a context has one request at a time, and nothing but
that request's steps concern it.  `Srv.view` is what a state has of one context: its value,
its requests and its notes.  A step of the server leaves the view of every context but one
alone, takes that one along `Local`, and adds fresh ones (`step_view`); so a run takes each
context along `Local` steps only (`run_view`), whatever the others do in between.
-/

namespace CPrograms.UringHttp

open Uring Runs

structure View where
  ctx : Option Context
  ring : Queues Req
  log : List Note

def Srv.view (s : Srv) (x : Nat) : View := ⟨s.heap x, part Req.ctx x s.ring, s.log.filter (·.ctx = x)⟩

def View.blank : View := ⟨none, empty, []⟩

def View.fresh (x : Nat) (c : Context) (op : Op) : View := ⟨some c, waiting ⟨x, op⟩, []⟩

/-- The request belongs to a context of this kind; a file is read whole or not at all. -/
def Op.Fits (c : Context) : Op → Prop
  | .accept => c.eventType = .accept
  | .recv sock => c.eventType = .readSock ∧ c.clientSocket = sock
  | .readv content n => c.eventType = .readFile ∧ (c.iov.take n).flatten.length = content.length
  | .writev sock _ => c.eventType = .write ∧ c.clientSocket = sock

/-- A result that the request can have. -/
def Op.Gives (res : Int) : Op → Prop
  | .readv content _ => 0 ≤ res → (res = 0 ↔ content = [])
  | _ => True

/-- The notes that a write's completion adds. -/
def rearm (x : Nat) (c : Context) : List Note :=
  if c.eventType = .write ∧ c.pathFd ≠ 0 then [.armed x c.clientSocket] else []

/-- The steps of a context. -/
inductive Local (x : Nat) : View → View → Prop
  | performed {c c' op act res ns l} : perform x op c act = some (c', res, ns) →
      Local x ⟨some c, waiting ⟨x, op⟩, l⟩ ⟨some c', done ⟨x, op⟩ res, l ++ ns⟩
  | ended {c q l} : c.eventType = .readFile → Local x ⟨some c, done q 0, l⟩ ⟨some c, empty, l⟩
  | readDone {c q res l} : c.eventType = .readFile → 0 < res →
      Local x ⟨some c, done q res, l⟩
        ⟨some { c with eventType := .write }, waiting ⟨x, .writev c.clientSocket c.iovecCount⟩, l⟩
  | freed {c q res l} : c.eventType ≠ .readFile → 0 ≤ res →
      Local x ⟨some c, done q res, l⟩ ⟨none, empty, l ++ rearm x c⟩

/-- Each context has one request, of its kind, or none. -/
inductive Alive (x : Nat) : View → Prop
  | waiting {c op l} : op.Fits c → Alive x ⟨some c, waiting ⟨x, op⟩, l⟩
  | done {c op res l} : op.Fits c → op.Gives res → Alive x ⟨some c, done ⟨x, op⟩ res, l⟩
  | gone {o l} : Alive x ⟨o, empty, l⟩

structure WellFormed (s : Srv) : Prop where
  alive : ∀ x, Alive x (s.view x)
  blank : ∀ x, s.brk ≤ x → s.view x = .blank

/-! ## Buffers -/

theorem length_fill (bufs : List (List (Option UInt8))) (data : List UInt8) :
    (fill bufs data).length = bufs.length := by
  induction bufs generalizing data with
  | nil => rfl
  | cons b bs ih => rw [fill, List.length_cons, ih, List.length_cons]

theorem flatten_fill {bufs : List (List (Option UInt8))} {data : List UInt8}
    (h : data.length ≤ bufs.flatten.length) :
    (fill bufs data).flatten = data.map some ++ bufs.flatten.drop data.length := by
  induction bufs generalizing data with
  | nil =>
    obtain rfl : data = [] := List.eq_nil_of_length_eq_zero (Nat.le_zero.1 h)
    rfl
  | cons b bs ih =>
    rw [List.flatten_cons, List.length_append] at h
    have hrest : (data.drop b.length).length ≤ bs.flatten.length := by
      rw [List.length_drop]
      omega
    rw [fill, List.flatten_cons, ih hrest, List.flatten_cons, List.length_drop, List.drop_append,
      List.map_drop, List.map_take]
    by_cases hle : data.length ≤ b.length
    · have h1 : (data.map some).take b.length = data.map some := List.take_of_length_le (by simpa using hle)
      have h2 : (data.map some).drop b.length = [] := List.drop_of_length_le (by simpa using hle)
      rw [h1, h2, Nat.sub_eq_zero_of_le hle, List.nil_append, List.append_assoc, List.drop_zero]
    · rw [List.drop_of_length_le (l := b) (by omega), List.append_nil, List.nil_append,
        ← List.append_assoc, List.take_append_drop]

theorem length_flatten_fill {bufs : List (List (Option UInt8))} {data : List UInt8}
    (h : data.length ≤ bufs.flatten.length) : (fill bufs data).flatten.length = bufs.flatten.length := by
  rw [flatten_fill h, List.length_append, List.length_map, List.length_drop]
  omega

theorem take_iov_fill (c : Context) (n : Nat) (data : List UInt8) :
    (c.fill n data).iov.take n = fill (c.iov.take n) data := by
  unfold Context.fill
  rw [List.take_append, length_fill, List.take_of_length_le (by rw [length_fill, List.length_take]; omega)]
  by_cases hn : n ≤ c.iov.length
  · rw [List.length_take, Nat.min_eq_left hn, Nat.sub_self, List.take_zero, List.append_nil]
  · rw [List.drop_of_length_le (by omega), List.take_nil, List.append_nil]

/-- The buffer that a request is read from. -/
theorem buffer_recv (junk : Context) (sock : Int) {data : List UInt8} (h : data.length ≤ readSz) :
    ((readCtx junk sock).fill 1 data).buffer = readBuffer data := by
  unfold readCtx Context.fill Context.buffer readBuffer
  simp only [List.take_succ_cons, List.take_zero, fill, List.length_replicate, List.cons_append,
    List.headD_cons, List.take_of_length_le h, List.drop_replicate]
  simp [Function.comp_def]

/-! ## What the kernel keeps of a context -/

section
variable {x y : Nat} {op : Op} {c c' : Context} {act : Act} {res sock : Int} {ns : List Note}

theorem Performed.keeps (h : Performed x c op c' res ns) : c'.eventType = c.eventType ∧
    c'.clientSocket = c.clientSocket ∧ c'.pathFd = c.pathFd ∧ c'.iovecCount = c.iovecCount := by
  cases h <;> exact ⟨rfl, rfl, rfl, rfl⟩

theorem Performed.notes (h : Performed x c op c' res ns) :
    ∀ n ∈ ns, n.ctx = x ∧ ∀ sock, n ≠ .armed x sock := by
  cases h <;> simp [Note.ctx]

theorem Performed.fits (h : Performed x c op c' res ns) (hop : op.Fits c) : op.Fits c' := by
  cases h with
  | accepted | received | sent | failed => exact hop
  | read hm =>
    refine ⟨hop.1, ?_⟩
    rw [take_iov_fill, length_flatten_fill, hop.2]
    have := hm.1
    rw [List.length_take]
    omega

theorem Performed.gives (h : Performed x c op c' res ns) (hop : op.Fits c) : op.Gives res := by
  cases h with
  | accepted | received | sent => trivial
  | read hm =>
    intro _
    obtain ⟨h1, h2⟩ := hm
    rw [hop.2, Nat.min_self] at h1 h2
    rw [← List.length_eq_zero_iff]
    omega
  | failed =>
    cases op with
    | readv content n =>
      intro h0
      omega
    | accept | recv | writev => trivial

end

/-! ## The view under the server's operations -/

section
variable {s : Srv} {x y : Nat} {c : Context} {op : Op} {l : List (Context × Op)}

theorem view_free_self (x : Nat) (s : Srv) : (s.free x).view x = { s.view x with ctx := none } := by
  unfold Srv.free Srv.view
  simp only [Function.update_self]

theorem view_free_of_ne (h : y ≠ x) (s : Srv) : (s.free x).view y = s.view y := by
  unfold Srv.free Srv.view
  simp only [Function.update_of_ne h]

theorem view_note_self {n : Note} (h : n.ctx = x) (s : Srv) :
    (s.note n).view x = ⟨(s.view x).ctx, (s.view x).ring, (s.view x).log ++ [n]⟩ := by
  unfold Srv.note Srv.view
  simp [h]

theorem view_note_of_ne {n : Note} (h : y ≠ n.ctx) (s : Srv) : (s.note n).view y = s.view y := by
  unfold Srv.note Srv.view
  simp [h.symm]

theorem view_addWriteRequest_self (x : Nat) (c : Context) (s : Srv) :
    (s.addWriteRequest x c).view x = ⟨some { c with eventType := .write },
      enqueue ⟨x, .writev c.clientSocket c.iovecCount⟩ (s.view x).ring, (s.view x).log⟩ := by
  unfold Srv.addWriteRequest Srv.submit Srv.set Srv.view
  simp only [Function.update_self, part_enqueue_self]

theorem view_addWriteRequest_of_ne (h : y ≠ x) (c : Context) (s : Srv) :
    (s.addWriteRequest x c).view y = s.view y := by
  unfold Srv.addWriteRequest Srv.submit Srv.set Srv.view
  simp only [Function.update_of_ne h, part_enqueue_of_ne (q := ⟨x, _⟩) (k := Req.ctx) (x := y) h.symm]

theorem view_spawn_self (h : s.view s.brk = .blank) (c : Context) (op : Op) :
    (s.spawn c op).view s.brk = .fresh s.brk c op := by
  obtain ⟨-, hring, hlog⟩ := View.mk.inj h
  unfold Srv.spawn Srv.submit Srv.malloc Srv.view
  simp only [Function.update_self, part_enqueue_self, hring]
  rw [hlog]
  rfl

theorem view_spawn_of_ne (h : y ≠ s.brk) (c : Context) (op : Op) : (s.spawn c op).view y = s.view y := by
  unfold Srv.spawn Srv.submit Srv.malloc Srv.view
  simp only [Function.update_of_ne h, part_enqueue_of_ne (q := ⟨s.brk, _⟩) (k := Req.ctx) (x := y) h.symm]

/-- The view of a context among those that `l` spawns from `brk`. -/
def spawned (brk : Nat) (l : List (Context × Op)) (x : Nat) : View :=
  match l[x - brk]? with
  | some c => .fresh x c.1 c.2
  | none => .blank

theorem spawned_add (brk : Nat) (l : List (Context × Op)) (i : Nat) (h : i < l.length) :
    spawned brk l (brk + i) = .fresh (brk + i) (l[i]).1 (l[i]).2 := by
  unfold spawned
  rw [Nat.add_sub_cancel_left, List.getElem?_eq_getElem h]

theorem brk_spawnAll (s : Srv) (l : List (Context × Op)) : (s.spawnAll l).brk = s.brk + l.length := by
  induction l generalizing s with
  | nil => rfl
  | cons c l ih =>
    show ((s.spawn c.1 c.2).spawnAll l).brk = _
    rw [ih, List.length_cons]
    show s.brk + 1 + l.length = _
    omega

theorem conns_spawnAll (s : Srv) (l : List (Context × Op)) : (s.spawnAll l).conns = s.conns := by
  induction l generalizing s with
  | nil => rfl
  | cons c l ih => exact ih (s.spawn c.1 c.2)

theorem view_spawnAll_of_lt (h : x < s.brk) (l : List (Context × Op)) :
    (s.spawnAll l).view x = s.view x := by
  induction l generalizing s with
  | nil => rfl
  | cons c l ih =>
    show ((s.spawn c.1 c.2).spawnAll l).view x = _
    rw [ih (show x < s.brk + 1 by omega), view_spawn_of_ne (by omega)]

theorem view_spawnAll_of_le (hs : ∀ x, s.brk ≤ x → s.view x = .blank) (h : s.brk ≤ x)
    (l : List (Context × Op)) : (s.spawnAll l).view x = spawned s.brk l x := by
  induction l generalizing s with
  | nil => exact hs x h
  | cons c l ih =>
    show ((s.spawn c.1 c.2).spawnAll l).view x = _
    by_cases hx : x = s.brk
    · subst hx
      rw [view_spawnAll_of_lt (show s.brk < s.brk + 1 by omega), view_spawn_self (hs _ (le_refl _))]
      simp only [spawned, Nat.sub_self, List.getElem?_cons_zero]
    · have hbl : ∀ y, (s.spawn c.1 c.2).brk ≤ y → (s.spawn c.1 c.2).view y = .blank := by
        intro y hy
        have hy' : s.brk + 1 ≤ y := hy
        rw [view_spawn_of_ne (by omega), hs y (by omega)]
      rw [ih hbl (show s.brk + 1 ≤ x by omega)]
      unfold spawned
      obtain ⟨k, rfl⟩ := Nat.exists_eq_add_of_le (show s.brk + 1 ≤ x by omega)
      have h1 : s.brk + 1 + k - (s.spawn c.1 c.2).brk = k := by
        show s.brk + 1 + k - (s.brk + 1) = k
        omega
      have h2 : s.brk + 1 + k - s.brk = k + 1 := by omega
      rw [h1, h2, List.getElem?_cons_succ]

end

/-! ## Steps -/

section
variable {fs : Fs} {a : Answers} {x y : Nat} {c : Context} {q : Req} {res : Int} {s t : Srv}
  {l : List (Context × Op)} {v w : View} {e : Event}

theorem Alive.of_waiting (h : Alive x v) (hq : q ∈ v.ring.inflight) :
    ∃ c, v = ⟨some c, Uring.waiting q, v.log⟩ ∧ q.ctx = x ∧ q.op.Fits c := by
  cases h with
  | waiting hop =>
    obtain rfl := List.mem_singleton.1 hq
    exact ⟨_, rfl, rfl, hop⟩
  | done | gone => cases hq

theorem Alive.of_done (h : Alive x v) (hq : (q, res) ∈ v.ring.cq) :
    ∃ c, v = ⟨some c, Uring.done q res, v.log⟩ ∧ q.ctx = x ∧ q.op.Fits c ∧ q.op.Gives res := by
  cases h with
  | done hop hres =>
    obtain ⟨rfl, rfl⟩ := Prod.mk.inj (List.mem_singleton.1 hq)
    exact ⟨_, rfl, rfl, hop, hres⟩
  | waiting | gone => cases hq

theorem Alive.exists_ctx (h : Alive x v) (hq : q ∈ requests v.ring) : ∃ c, v.ctx = some c := by
  cases h with
  | waiting | done => exact ⟨_, rfl⟩
  | gone => cases hq

theorem Alive.requests_le (h : Alive x v) : (requests v.ring).length ≤ 1 := by
  cases h with
  | waiting | done => exact le_refl 1
  | gone => exact Nat.zero_le 1

/-- A context that has requests is below the break. -/
theorem WellFormed.lt_brk (hs : WellFormed s) {c : Context} (hx : (s.view x).ctx = some c) : x < s.brk := by
  by_contra hlt
  rw [hs.blank x (by omega)] at hx
  cases hx

theorem Local.alive (h : Local x v w) (hv : Alive x v) : Alive x w := by
  cases h with
  | performed hp =>
    have hp := performed_of_perform hp
    obtain ⟨c, he, -, hop⟩ := hv.of_waiting List.mem_cons_self
    obtain rfl := Option.some.inj (congrArg View.ctx he)
    exact .done (hp.fits hop) (hp.gives hop)
  | ended => exact .gone
  | readDone => exact .waiting ⟨rfl, rfl⟩
  | freed => exact .gone

theorem Handled.brk (h : Handled fs a x c res s l t) : t.brk = s.brk + l.length := by
  rw [← brk_spawnAll]
  cases h <;> rfl

theorem Handled.view_of_ne (h : Handled fs a x c res s l t) (hy : y ≠ x) :
    t.view y = (s.spawnAll l).view y := by
  cases h with
  | accepted => rw [view_free_of_ne hy]
  | hungUp =>
    rw [view_free_of_ne hy]
    rfl
  | answered => rw [view_free_of_ne hy]
  | ended => rfl
  | readDone => rw [view_addWriteRequest_of_ne hy]; rfl
  | written => rw [view_free_of_ne hy]; rfl
  | rearmed => rw [view_free_of_ne hy, view_note_of_ne hy]

theorem Handled.local (h : Handled fs a x c res s l t) (hx : x < s.brk) {log : List Note}
    (hv : s.view x = ⟨some c, empty, log⟩) (q : Req) : Local x ⟨some c, done q res, log⟩ (t.view x) := by
  have hfree : ∀ l, ((s.spawnAll l).free x).view x = ⟨none, empty, log⟩ := by
    intro l
    rw [view_free_self, view_spawnAll_of_lt hx, hv]
  have hfreed : c.eventType ≠ .readFile → 0 ≤ res → rearm x c = [] →
      Local x ⟨some c, done q res, log⟩ ⟨none, empty, log⟩ := by
    intro hc hres hr
    have := Local.freed (x := x) (c := c) (q := q) (l := log) hc hres
    rwa [hr, List.append_nil] at this
  cases h with
  | accepted hc hres =>
    rw [hfree]
    exact hfreed (by simp [hc]) hres (by simp [rearm, hc])
  | hungUp hc hres =>
    have := hfree []
    rw [show ((s.close c.clientSocket).free x).view x = ⟨none, empty, log⟩ from this]
    exact hfreed (by simp [hc]) (by omega) (by simp [rearm, hc])
  | answered r hc hres =>
    rw [hfree]
    exact hfreed (by simp [hc]) (by omega) (by simp [rearm, hc])
  | ended hc hres =>
    rw [hv, hres]
    exact .ended hc
  | readDone hc hres =>
    rw [view_addWriteRequest_self, hv]
    exact .readDone hc hres
  | written hc hres hfd =>
    have := hfree []
    rw [show (s.free x).view x = ⟨none, empty, log⟩ from this]
    exact hfreed (by simp [hc]) hres (by simp [rearm, hfd])
  | rearmed hc hres hfd hl =>
    rw [view_free_self, view_note_self (x := x) rfl, view_spawnAll_of_lt hx, hv]
    have hwrite : c.eventType ≠ .readFile := by simp [hc]
    have := Local.freed (x := x) (q := q) (l := log) hwrite hres
    rwa [show rearm x c = [.armed x c.clientSocket] by simp [rearm, hc, hfd]] at this

theorem length_flatten_blocks (n : Nat) :
    ((blockLens n).map (List.replicate · (none : Option UInt8))).flatten.length = n := by
  rw [List.length_flatten, List.map_map]
  conv_rhs => rw [← sum_blockLens n]
  congr 1
  conv_rhs => rw [← List.map_id (blockLens n)]
  exact List.map_congr_left fun k _ => List.length_replicate

theorem take_blocks (n : Nat) : ((blockLens n).map (List.replicate · (none : Option UInt8))).take (iovecCount n)
    = (blockLens n).map (List.replicate · none) :=
  List.take_of_length_le (by rw [List.length_map, length_blockLens])

theorem parts_fits (a : Answers) (sock : Int) (r : Response) : ∀ p ∈ parts a sock r, p.2.Fits p.1 := by
  intro p hp
  cases r with
  | unimplemented =>
    obtain rfl := List.mem_singleton.1 hp
    exact ⟨rfl, rfl⟩
  | notFound =>
    obtain rfl := List.mem_singleton.1 hp
    exact ⟨rfl, rfl⟩
  | file path f =>
    rcases List.mem_cons.1 hp with rfl | hp
    · exact ⟨rfl, rfl⟩
    · obtain rfl := List.mem_singleton.1 hp
      refine ⟨rfl, ?_⟩
      show (((blockLens f.content.length).map (List.replicate · none)).take _).flatten.length = _
      rw [take_blocks, length_flatten_blocks]

theorem Handled.fits (h : Handled fs a x c res s l t) : ∀ p ∈ l, p.2.Fits p.1 := by
  cases h with
  | accepted _ _ hl =>
    subst hl
    intro p hp
    rcases List.mem_cons.1 hp with rfl | hp
    · rfl
    · obtain rfl := List.mem_singleton.1 hp
      exact ⟨rfl, rfl⟩
  | answered r => exact parts_fits _ _ r
  | rearmed _ _ _ hl =>
    subst hl
    intro p hp
    obtain rfl := List.mem_singleton.1 hp
    exact ⟨rfl, rfl⟩
  | hungUp | ended | readDone | written => simp

/-- A performed request takes its context along `Local`. -/
theorem view_executed (hs : WellFormed s) {p : Nat} {act : Act} {r : Context × Int × List Note}
    {ring : Queues Req} (conns : List Int) (hc : s.heap q.ctx = some c)
    (hr : perform q.ctx q.op c act = some r) (hring : complete p r.2.1 s.ring = some (q, ring)) (y : Nat) :
    (y ≠ q.ctx → (s.record q.ctx r ring conns).view y = s.view y) ∧
      s.view q.ctx = ⟨some c, waiting q, (s.view q.ctx).log⟩ ∧
      (s.record q.ctx r ring conns).view q.ctx =
        ⟨some r.1, done q r.2.1, (s.view q.ctx).log ++ r.2.2⟩ := by
  obtain ⟨c', res, ns⟩ := r
  have hnotes := (performed_of_perform hr).notes
  have hmem : q ∈ (s.view q.ctx).ring.inflight := by
    show q ∈ s.ring.inflight.filter _
    simpa using complete_mem hring
  obtain ⟨c₀, hv, -, -⟩ := (hs.alive q.ctx).of_waiting hmem
  have hc₀ : c₀ = c := by
    have : s.heap q.ctx = some c₀ := congrArg View.ctx hv
    rw [hc] at this
    exact (Option.some.inj this).symm
  subst hc₀
  refine ⟨fun hy => ?_, hv, ?_⟩
  · have hlog : ns.filter (·.ctx = y) = [] := by
      rw [List.filter_eq_nil_iff]
      intro n hn
      simpa [(hnotes n hn).1] using Ne.symm hy
    unfold Srv.record Srv.view
    simp only [Function.update_of_ne hy, part_complete_of_ne hring (k := Req.ctx) (x := y) hy.symm,
      List.filter_append, hlog, List.append_nil]
  · have hlog : ns.filter (·.ctx = q.ctx) = ns := by
      rw [List.filter_eq_self]
      intro n hn
      simpa using (hnotes n hn).1
    have hpart := (part_complete_self hring rfl (show part Req.ctx q.ctx s.ring = waiting q from
      congrArg View.ring hv)).2
    unfold Srv.record Srv.view
    simp only [Function.update_self, hpart, List.filter_append, hlog]

/-- The completion that a turn takes leaves its context without a request. -/
theorem view_taken (hs : WellFormed s) {p : Nat} {ring : Queues Req}
    (htake : take p s.ring = some ((q, res), ring)) (hc : s.heap q.ctx = some c) (y : Nat) :
    (y ≠ q.ctx → Srv.view { s with ring := ring } y = s.view y) ∧
    s.view q.ctx = ⟨some c, done q res, (s.view q.ctx).log⟩ ∧ q.op.Fits c ∧ q.op.Gives res ∧
    Srv.view { s with ring := ring } q.ctx = ⟨some c, empty, (s.view q.ctx).log⟩ := by
  have hmem : (q, res) ∈ (s.view q.ctx).ring.cq := by
    show (q, res) ∈ s.ring.cq.filter _
    simpa using take_mem htake
  obtain ⟨c₀, hv, -, hop, hres⟩ := (hs.alive q.ctx).of_done hmem
  have hc₀ : c₀ = c := by
    have : s.heap q.ctx = some c₀ := congrArg View.ctx hv
    rw [hc] at this
    exact (Option.some.inj this).symm
  subst hc₀
  have hpart := (part_take_self htake rfl (show part Req.ctx q.ctx s.ring = done q res from
    congrArg View.ring hv)).2.2
  refine ⟨fun hy => ?_, hv, hop, hres, ?_⟩
  · unfold Srv.view
    simp only [part_take_of_ne htake (k := Req.ctx) (x := y) hy.symm]
  · unfold Srv.view
    simp only [hc, hpart]

/-- A turn leaves the other contexts alone. -/
theorem Handled.view_old (hs : WellFormed s) {p : Nat} {ring : Queues Req}
    (htake : take p s.ring = some ((q, res), ring)) (hc : s.heap q.ctx = some c)
    (hh : Handled fs a q.ctx c res { s with ring := ring } l t) (hy : y < s.brk) (hq : y ≠ q.ctx) :
    t.view y = s.view y := by
  rw [hh.view_of_ne hq, view_spawnAll_of_lt (s := { s with ring := ring }) hy]
  exact (view_taken hs htake hc y).1 hq

/-- The new ones are fresh. -/
theorem Handled.view_new (hs : WellFormed s) {p : Nat} {ring : Queues Req}
    (htake : take p s.ring = some ((q, res), ring)) (hc : s.heap q.ctx = some c)
    (hh : Handled fs a q.ctx c res { s with ring := ring } l t) (hy : s.brk ≤ y) :
    t.view y = spawned s.brk l y := by
  have hlt : q.ctx < s.brk := hs.lt_brk (c := c) hc
  have hblank : ∀ z, s.brk ≤ z → Srv.view { s with ring := ring } z = .blank := by
    intro z hz
    rw [(view_taken hs htake hc z).1 (by omega)]
    exact hs.blank z hz
  rw [hh.view_of_ne (by omega)]
  exact view_spawnAll_of_le (s := { s with ring := ring }) hblank hy l

/-- **What a step does to the contexts.**  Those that there are stay or take a step of their
own; the new ones are fresh. -/
theorem step_view (hs : WellFormed s) (h : step fs s e t) :
    ∃ l, t.brk = s.brk + l.length ∧ (∀ p ∈ l, p.2.Fits p.1) ∧
      (∀ y, s.brk ≤ y → t.view y = spawned s.brk l y) ∧
      ∀ y, y < s.brk → t.view y = s.view y ∨ Local y (s.view y) (t.view y) := by
  obtain ⟨-, ⟨p, act, q, c, r, conns, ring, -, hc, hr, -, hring, rfl⟩ |
    ⟨p, a, q, c, res, ring, l, -, htake, hc, hh⟩ | rfl⟩ := step_cases h
  · have hview := view_executed hs conns hc hr hring
    have hlt : q.ctx < s.brk := hs.lt_brk (c := c) hc
    refine ⟨[], rfl, by simp, fun y hy => ?_, fun y hy => ?_⟩
    · rw [(hview y).1 (by omega)]
      exact hs.blank y hy
    · by_cases hq : y = q.ctx
      · subst hq
        obtain ⟨-, hold, hnew⟩ := hview q.ctx
        rw [hold, hnew]
        exact .inr (.performed hr)
      · exact .inl ((hview y).1 hq)
  · have hview := view_taken hs htake hc
    have hlt : q.ctx < s.brk := hs.lt_brk (c := c) hc
    refine ⟨l, hh.brk, hh.fits, fun y hy => hh.view_new hs htake hc hy, fun y hy => ?_⟩
    by_cases hq : y = q.ctx
    · subst hq
      obtain ⟨-, hold, -, -, hnew⟩ := hview q.ctx
      rw [hold]
      exact .inr (hh.local hlt hnew q)
    · exact .inl (hh.view_old hs htake hc hy hq)
  · exact ⟨[], rfl, by simp, fun y hy => hs.blank y hy, fun y _ => .inl rfl⟩

theorem spawned_alive {brk : Nat} (hl : ∀ p ∈ l, p.2.Fits p.1) (x : Nat) : Alive x (spawned brk l x) := by
  unfold spawned
  split
  · next p hp => exact .waiting (hl p (List.mem_of_getElem? hp))
  · exact .gone

theorem step_wellFormed (hs : WellFormed s) (h : step fs s e t) : WellFormed t := by
  obtain ⟨l, hbrk, hl, hnew, hold⟩ := step_view hs h
  constructor
  · intro x
    by_cases hx : x < s.brk
    · rcases hold x hx with he | hloc
      · rw [he]
        exact hs.alive x
      · exact hloc.alive (hs.alive x)
    · rw [hnew x (by omega)]
      exact spawned_alive hl x
  · intro x hx
    rw [hnew x (by omega)]
    unfold spawned
    rw [List.getElem?_eq_none (by omega)]

theorem view_start (junk : Context) (x : Nat) :
    (start junk).view x = spawned 0 [({ junk with eventType := .accept }, .accept)] x :=
  view_spawnAll_of_le (s := ⟨fun _ => none, 0, empty, [], [], true⟩) (fun _ _ => rfl) (Nat.zero_le x)
    [({ junk with eventType := .accept }, .accept)]

theorem start_wellFormed (junk : Context) : WellFormed (start junk) := by
  constructor
  · intro x
    rw [view_start]
    refine spawned_alive (fun p hp => ?_) x
    obtain rfl := List.mem_singleton.1 hp
    rfl
  · intro x hx
    have hx : 1 ≤ x := hx
    rw [view_start]
    unfold spawned
    rw [List.getElem?_eq_none (by simpa using hx)]

theorem run_wellFormed {es : List Event} {junk : Context} (h : Run (step fs) (start junk) es s) :
    WellFormed s :=
  h.invariant WellFormed (fun _ _ _ hs hst => step_wellFormed hs hst) (start_wellFormed junk)

/-- A run takes a context along its own steps: what they keep, it keeps. -/
theorem run_view {es : List Event} (P : View → Prop) (hP : ∀ v w, Alive x v → P v → Local x v w → P w)
    (h : Run (step fs) s es t) (hs : WellFormed s) (hx : x < s.brk) (hv : P (s.view x)) : P (t.view x) := by
  refine (h.invariant (fun s => WellFormed s ∧ x < s.brk ∧ P (s.view x)) ?_ ⟨hs, hx, hv⟩).2.2
  rintro s e t ⟨hs, hx, hv⟩ hst
  obtain ⟨l, hbrk, -, -, hold⟩ := step_view hs hst
  refine ⟨step_wellFormed hs hst, by omega, ?_⟩
  rcases hold x hx with he | hloc
  · rw [he]
    exact hv
  · exact hP _ _ (hs.alive x) hv hloc

/-- A turn that answers a request adds the parts of the response. -/
theorem answered_step {sock : Int} {r : Response} (hs : WellFormed s) (h : step fs s e t)
    (ha : answered fs s e = some (sock, r)) :
    ∃ p a, e = .loop p a ∧ t.brk = s.brk + (parts a sock r).length ∧
      ∀ y, s.brk ≤ y → t.view y = spawned s.brk (parts a sock r) y := by
  cases e with
  | execute => cases ha
  | loop p a =>
    obtain ⟨⟨q, res⟩, hq, ha⟩ := Option.bind_eq_some_iff.1 ha
    obtain ⟨c, hc, ha⟩ := Option.bind_eq_some_iff.1 ha
    have hturn : c.eventType = .readSock ∧ 0 < res ∧ handleClientRequest fs c.buffer = .answer r ∧
        c.clientSocket = sock := by
      split at ha
      · next hcond =>
        split at ha
        · next hr =>
          obtain ⟨rfl, rfl⟩ := Prod.mk.inj (Option.some.inj ha)
          exact ⟨hcond.1, hcond.2, hr, rfl⟩
        · cases ha
      · cases ha
    obtain ⟨hkind, hres, hr, rfl⟩ := hturn
    change (if s.running = true then s.serverLoop fs p a else none) = some t at h
    split at h
    · obtain ⟨⟨⟨q', res'⟩, ring⟩, htake, h⟩ := Option.bind_eq_some_iff.1 h
      obtain ⟨rfl, rfl⟩ := Prod.mk.inj (Option.some.inj ((getElem?_of_take htake).symm.trans hq))
      have hh : handleCompletion fs a q'.ctx c res' { s with ring := ring } =
          some ((Srv.answer a c.clientSocket { s with ring := ring } r).free q'.ctx) := by
        unfold handleCompletion
        rw [if_neg (by omega), hkind]
        dsimp only
        rw [if_neg (by omega), hr]
      have ht : (Srv.answer a c.clientSocket { s with ring := ring } r).free q'.ctx = t := by
        rw [hc] at h
        simpa only [Option.map_some, hh, Option.getD_some, Option.some.injEq] using h
      have hd : Handled fs a q'.ctx c res' { s with ring := ring } (parts a c.clientSocket r) t := by
        rw [← ht, answer_eq]
        exact .answered r hkind hres hr
      exact ⟨p, a, rfl, hd.brk, fun y hy => hd.view_new hs htake hc hy⟩
    · cases h

end

/-! ## A server with one file -/

def oneFile : Fs := fun path => if path = ascii "public/a" then some ⟨true, true, [65]⟩ else none

def zeroed : Context := ⟨.accept, 0, 0, 0, []⟩

/-- The first client is accepted as socket 4, and its request is read. -/
def request (line : String) : List Event :=
  [.execute 0 (.accepted 4), .loop 0 ⟨zeroed, zeroed, 5⟩,
    .execute 1 (.received (ascii (line ++ " HTTP/1.1\r\n\r\n")))]

end CPrograms.UringHttp
