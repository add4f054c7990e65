import CPrograms.UringHttp.Lives

/-!
# Who reads from a connection next

After the accept, a connection is read again only when a write with `path_fd ≠ 0` completes.
`copy_file_contents` sets that field for the body; the contexts of a header and of a static
answer keep what `malloc` gave them.  `View.arms` counts how often a context makes the
server read: it is settled when the context is allocated (`Local.arms`).  So a response
makes the server read once exactly where its contexts count one together (`rearms`), and
where all do, the right to read a connection is a token that is handed on
(`step_tokens`): a connection has at most one outstanding read (`one_read`).
-/

namespace CPrograms.UringHttp

open Uring Runs

/-- The completion of this write, or of the write that follows this read, makes the server
read from `sock`. -/
def due (c : Context) (sock : Int) : Op → Bool
  | .readv content _ => decide (content ≠ [] ∧ c.pathFd ≠ 0 ∧ c.clientSocket = sock)
  | .writev _ _ => decide (c.pathFd ≠ 0 ∧ c.clientSocket = sock)
  | _ => false

/-- How often a context has made the server read from `sock`, or will. -/
def View.arms (x : Nat) (sock : Int) (v : View) : Nat :=
  v.log.count (.armed x sock) + v.ctx.elim 0 fun c => (requests v.ring).countP (due c sock ·.op)

/-- A write is outstanding or still to come. -/
def Op.writesLeft : Op → Bool
  | .readv content _ => decide (content ≠ [])
  | .writev _ _ => true
  | _ => false

/-- The response's contexts make the server read once. -/
def rearms (a : Answers) : Response → Prop
  | .file _ f => if f.content = [] then a.first.pathFd ≠ 0 else (a.first.pathFd ≠ 0 ↔ a.fd = 0)
  | _ => a.first.pathFd ≠ 0

instance (a : Answers) (r : Response) : Decidable (rearms a r) :=
  match r with
  | .unimplemented => inferInstanceAs (Decidable (_ ≠ _))
  | .notFound => inferInstanceAs (Decidable (_ ≠ _))
  | .file _ f => inferInstanceAs (Decidable (if f.content = [] then _ else _))

/-- A turn that answers a request gives a response that rearms. -/
def RearmsOnce (fs : Fs) (s : Srv) (e : Event) : Prop :=
  match e with
  | .execute .. => True
  | .loop p a => ∀ d ∈ answered fs s (.loop p a), rearms a d.2

instance (fs : Fs) (s : Srv) : (e : Event) → Decidable (RearmsOnce fs s e)
  | .execute .. => isTrue trivial
  | .loop p a => inferInstanceAs (Decidable (∀ d ∈ answered fs s (.loop p a), rearms a d.2))

/-- Outstanding `EVENT_TYPE_READ_SOCK` requests of a connection. -/
def reads (sock : Int) (s : Srv) : List Req := (requests s.ring).filter fun q => q.op = .recv sock

section
variable {x : Nat} {sock : Int} {c c' : Context} {op : Op} {res : Int} {ns : List Note} {v w : View}

theorem due_congr (h1 : c'.pathFd = c.pathFd) (h2 : c'.clientSocket = c.clientSocket) (op : Op) :
    due c' sock op = due c sock op := by
  cases op <;> simp only [due, h1, h2]

theorem clientSocket_of_due (h : due c sock op = true) : c.clientSocket = sock := by
  cases op with
  | readv => exact (of_decide_eq_true h).2.2
  | writev => exact (of_decide_eq_true h).2
  | accept | recv => cases h

theorem Op.Fits.exists_readv (h : op.Fits c) (hc : c.eventType = .readFile) :
    ∃ content n, op = .readv content n := by
  cases op with
  | readv content n => exact ⟨content, n, rfl⟩
  | accept => cases (show c.eventType = .accept from h).symm.trans hc
  | recv | writev => cases h.1.symm.trans hc

theorem Op.Fits.exists_writev (h : op.Fits c) (hc : c.eventType = .write) :
    ∃ n, op = .writev c.clientSocket n := by
  cases op with
  | writev s n => exact ⟨n, by rw [h.2]⟩
  | accept => cases (show c.eventType = .accept from h).symm.trans hc
  | recv | readv => cases h.1.symm.trans hc

theorem Op.Fits.eq_recv (h : op.Fits c) (hc : c.eventType = .readSock) : op = .recv c.clientSocket := by
  cases op with
  | recv s => rw [h.2]
  | accept => cases (show c.eventType = .accept from h).symm.trans hc
  | readv | writev => cases h.1.symm.trans hc

theorem Op.Fits.eq_accept (h : op.Fits c) (hc : c.eventType = .accept) : op = .accept := by
  cases op with
  | accept => rfl
  | recv | readv | writev => cases h.1.symm.trans hc

/-- What a context counts for does not change. -/
theorem Local.arms (h : Local x v w) (hv : Alive x v) : w.arms x sock = v.arms x sock := by
  cases h with
  | @performed c c' op act res ns l hp =>
    have hp := performed_of_perform hp
    obtain ⟨-, hsock, hfd, -⟩ := hp.keeps
    have hns : ns.count (.armed x sock) = 0 :=
      List.count_eq_zero.2 fun hmem => (hp.notes _ hmem).2 sock rfl
    unfold View.arms
    simp only [List.count_append, hns, requests_waiting, requests_done, Option.elim_some,
      List.countP_cons, List.countP_nil, due_congr hfd hsock]
    omega
  | @ended c q l hc =>
    obtain ⟨c', he, -, hop, hres⟩ := hv.of_done List.mem_cons_self
    obtain rfl := Option.some.inj (congrArg View.ctx he)
    obtain ⟨content, n, hq⟩ := hop.exists_readv hc
    rw [hq] at hres
    have hdue : due c sock q.op = false := by
      simp [hq, due, (hres (le_refl _)).1 rfl]
    simp [View.arms, hdue]
  | @readDone c q res l hc hpos =>
    obtain ⟨c', he, -, hop, hres⟩ := hv.of_done List.mem_cons_self
    obtain rfl := Option.some.inj (congrArg View.ctx he)
    obtain ⟨content, n, hq⟩ := hop.exists_readv hc
    rw [hq] at hres
    have hne : content ≠ [] := by
      intro h
      have := (hres (by omega)).2 h
      omega
    simp [View.arms, hq, due, hne]
  | @freed c q res l hc hpos =>
    obtain ⟨c', he, -, hop, -⟩ := hv.of_done List.mem_cons_self
    obtain rfl := Option.some.inj (congrArg View.ctx he)
    have hdue : (rearm x c).count (.armed x sock) = if due c sock q.op then 1 else 0 := by
      cases hq : q.op with
      | readv content n =>
        rw [hq] at hop
        exact absurd hop.1 hc
      | writev s n =>
        rw [hq] at hop
        by_cases h1 : c.pathFd = 0
        · simp [rearm, due, h1]
        · by_cases h2 : c.clientSocket = sock <;> simp [rearm, due, h1, h2, hop.1]
      | accept =>
        rw [hq] at hop
        simp [rearm, due, show c.eventType = .accept from hop]
      | recv s =>
        rw [hq] at hop
        simp [rearm, due, hop.1]
    simp only [View.arms, List.count_append, hdue, Option.elim_none, Option.elim_some, requests_done,
      List.countP_cons, List.countP_nil]
    omega

theorem arms_fresh (x : Nat) (c : Context) (op : Op) (sock : Int) :
    (View.fresh x c op).arms x sock = if due c sock op then 1 else 0 := by
  simp [View.arms, View.fresh]

end

/-! ## One response -/

section
variable {fs : Fs} {a : Answers} {s t u v : Srv} {e : Event} {es es' : List Event} {sock : Int}
  {r : Response} {junk : Context}

/-- The parts of a response count one together where it rearms. -/
theorem sum_parts (h : rearms a r) (sock : Int) :
    ((parts a sock r).map fun p => if due p.1 sock p.2 then 1 else 0).sum = 1 := by
  cases r with
  | unimplemented =>
    have h : a.first.pathFd ≠ 0 := h
    simp [parts, due, staticCtx, h]
  | notFound =>
    have h : a.first.pathFd ≠ 0 := h
    simp [parts, due, staticCtx, h]
  | file path f =>
    change if f.content = [] then a.first.pathFd ≠ 0 else (a.first.pathFd ≠ 0 ↔ a.fd = 0) at h
    split at h
    · next hf => simp [parts, due, headerCtx, hf, h]
    · next hf =>
      by_cases hfd : a.fd = 0
      · simp [parts, due, headerCtx, bodyCtx, hfd, h.2 hfd]
      · have : a.first.pathFd = 0 := by
          by_contra hne
          exact hfd (h.1 hne)
        simp [parts, due, headerCtx, bodyCtx, hfd, hf, this]

/-- Once no write of a response is left, it has made the server read once. -/
theorem response_rearms (hu : WellFormed u) (he : step fs u e v) (ha : answered fs u e = some (sock, r))
    (hr : RearmsOnce fs u e) (ht : Run (step fs) v es' t)
    (hleft : ∀ q ∈ requests t.ring, u.brk ≤ q.ctx → q.ctx < v.brk → q.op.writesLeft = false) :
    ((List.range' u.brk (v.brk - u.brk)).map fun x => t.log.count (.armed x sock)).sum = 1 := by
  obtain ⟨p, a, rfl, hbrk, hnew⟩ := answered_step hu he ha
  have hv := step_wellFormed hu he
  have hlen : v.brk - u.brk = (parts a sock r).length := by omega
  have harms : ∀ i (hi : i < (parts a sock r).length), t.log.count (.armed (u.brk + i) sock) =
      if due ((parts a sock r)[i]).1 sock ((parts a sock r)[i]).2 then 1 else 0 := by
    intro i hi
    have hkeep := run_view (x := u.brk + i) (fun w => w.arms (u.brk + i) sock = _)
      (fun w w' hw hP hl => (hl.arms hw).trans hP) ht hv (by omega) rfl
    rw [hnew _ (by omega), spawned_add _ _ _ hi, arms_fresh] at hkeep
    rw [← hkeep]
    -- nothing is left to come
    have hnone : (t.view (u.brk + i)).ctx.elim 0 (fun c =>
        (requests (t.view (u.brk + i)).ring).countP (due c sock ·.op)) = 0 := by
      cases (t.view (u.brk + i)).ctx with
      | none => rfl
      | some c =>
        refine List.countP_eq_zero.2 fun q hq => ?_
        have hq : q ∈ (requests t.ring).filter (·.ctx = u.brk + i) := by
          rw [← requests_part]
          exact hq
        obtain ⟨hmem, hctx⟩ := List.mem_filter.1 hq
        have hctx : q.ctx = u.brk + i := by simpa using hctx
        have := hleft q hmem (by omega) (by omega)
        cases hop : q.op with
        | readv content n =>
          rw [hop] at this
          have : content = [] := by simpa [Op.writesLeft] using this
          simp [due, this]
        | writev s n =>
          rw [hop] at this
          cases this
        | accept | recv => simp [due]
    unfold View.arms
    rw [hnone, Nat.add_zero]
    show _ = (t.log.filter _).count _
    rw [List.count_filter (by simp [Note.ctx])]
  refine Eq.trans (congrArg List.sum ?_) (sum_parts (hr _ ha) sock)
  rw [hlen]
  refine List.ext_getElem (by simp) fun i h1 h2 => ?_
  have hi : i < (parts a sock r).length := by simpa using h2
  simp only [List.getElem_map, List.getElem_range', Nat.one_mul]
  exact harms i hi

end

/-! ## Tokens -/

/-- The context will read from `sock`, does so, or has just accepted it. -/
def View.Holds (v : View) (sock : Int) : Prop :=
  (∃ c, v.ctx = some c ∧ ∃ q ∈ requests v.ring, q.op = .recv sock ∨ due c sock q.op = true) ∨
    ∃ q, (q, sock) ∈ v.ring.cq ∧ q.op = .accept ∧ 0 ≤ sock

/-- At most one context holds a connection, and it is open. -/
structure Tokens (s : Srv) : Prop where
  unique : ∀ x y sock, (s.view x).Holds sock → (s.view y).Holds sock → x = y
  opened : ∀ x sock, (s.view x).Holds sock → sock ∈ s.conns

section
variable {fs : Fs} {a : Answers} {x : Nat} {c c' : Context} {op : Op} {res sock : Int} {q : Req}
  {ns log : List Note} {s t : Srv} {e : Event} {l : List (Context × Op)} {o : Option Context}

theorem not_holds_empty : ¬ View.Holds ⟨o, empty, log⟩ sock := by
  rintro (⟨c, -, q, hq, -⟩ | ⟨q, hq, -⟩) <;> cases hq

theorem holds_waiting : View.Holds ⟨some c, waiting q, log⟩ sock ↔
    q.op = .recv sock ∨ due c sock q.op = true := by
  constructor
  · rintro (⟨c', hc, q', hq, h⟩ | ⟨q', hq, -⟩)
    · cases hc
      obtain rfl := List.mem_singleton.1 hq
      exact h
    · cases hq
  · intro h
    exact .inl ⟨c, rfl, q, List.mem_cons_self, h⟩

theorem holds_done : View.Holds ⟨some c, done q res, log⟩ sock ↔
    q.op = .recv sock ∨ due c sock q.op = true ∨ (q.op = .accept ∧ res = sock ∧ 0 ≤ sock) := by
  constructor
  · rintro (⟨c', hc, q', hq, h⟩ | ⟨q', hq, hop, h0⟩)
    · cases hc
      obtain rfl := List.mem_singleton.1 hq
      exact h.elim .inl fun h => .inr (.inl h)
    · obtain ⟨rfl, rfl⟩ := Prod.mk.inj (List.mem_singleton.1 hq)
      exact .inr (.inr ⟨hop, rfl, h0⟩)
  · rintro (h | h | ⟨hop, rfl, h0⟩)
    · exact .inl ⟨c, rfl, q, List.mem_cons_self, .inl h⟩
    · exact .inl ⟨c, rfl, q, List.mem_cons_self, .inr h⟩
    · exact .inr ⟨q, List.mem_cons_self, hop, h0⟩

/-- At most one part of a response counts. -/
theorem parts_once {r : Response} (h : rearms a r) {i j : Nat} {p p' : Context × Op}
    (hi : (parts a sock r)[i]? = some p) (hp : due p.1 sock p.2 = true)
    (hj : (parts a sock r)[j]? = some p') (hp' : due p'.1 sock p'.2 = true) : j = i := by
  by_contra hne
  have hlt : ∀ {k : Nat} {b : Context × Op}, (parts a sock r)[k]? = some b → k < 2 := by
    intro k b hk
    obtain ⟨hlen, -⟩ := List.getElem?_eq_some_iff.1 hk
    have : (parts a sock r).length ≤ 2 := by cases r <;> simp [parts]
    omega
  have hi2 := hlt hi
  have hj2 := hlt hj
  have hboth : ∃ p p', (parts a sock r)[0]? = some p ∧ due p.1 sock p.2 = true ∧
      (parts a sock r)[1]? = some p' ∧ due p'.1 sock p'.2 = true := by
    rcases Nat.eq_zero_or_pos i with rfl | hpos
    · obtain rfl : j = 1 := by omega
      exact ⟨p, p', hi, hp, hj, hp'⟩
    · obtain rfl : i = 1 := by omega
      obtain rfl : j = 0 := by omega
      exact ⟨p', p, hj, hp', hi, hp⟩
  obtain ⟨p, p', hi, hp, hj, hp'⟩ := hboth
  have hsum := sum_parts h sock
  generalize hl : parts a sock r = l at *
  match l, hi, hj with
  | b :: b' :: l, hi, hj =>
    cases hi
    cases hj
    simp only [List.map_cons, List.sum_cons, hp, hp', if_true] at hsum
    omega

theorem mem_parts {r : Response} {s : Int} {p : Context × Op} (hp : p ∈ parts a s r) :
    p.2 ≠ .recv sock ∧ p.1.clientSocket = s := by
  cases r with
  | unimplemented =>
    obtain rfl := List.mem_singleton.1 hp
    exact ⟨nofun, rfl⟩
  | notFound =>
    obtain rfl := List.mem_singleton.1 hp
    exact ⟨nofun, rfl⟩
  | file path f => rcases List.mem_pair.1 hp with rfl | rfl <;> exact ⟨nofun, rfl⟩

/-- What a turn spawns holds only what the handled context held, and only once. -/
theorem Handled.spawned_holds (h : Handled fs a x c res s l t) (hop : q.op.Fits c)
    (hr : ∀ r, c.eventType = .readSock → 0 < res → handleClientRequest fs c.buffer = .answer r → rearms a r)
    {i : Nat} {p : Context × Op} (hi : l[i]? = some p) (hp : p.2 = .recv sock ∨ due p.1 sock p.2 = true) :
    View.Holds ⟨some c, done q res, log⟩ sock ∧
      ∀ j p', l[j]? = some p' → (p'.2 = .recv sock ∨ due p'.1 sock p'.2 = true) → j = i := by
  rw [holds_done]
  have hone : ∀ {b : Context × Op} {k : Nat}, [b][k]? = some p → ∀ (j : Nat) p', [b][j]? = some p' → j = k := by
    intro b k hk j p' hj
    obtain ⟨h1, -⟩ := List.getElem?_eq_some_iff.1 hk
    obtain ⟨h2, -⟩ := List.getElem?_eq_some_iff.1 hj
    simp only [List.length_singleton] at h1 h2
    omega
  cases h with
  | accepted hc h0 hl =>
    subst hl
    have hsnd : ∀ {k : Nat} {b : Context × Op}, [(({ a.first with eventType := .accept } : Context), Op.accept),
        (readCtx a.second res, Op.recv res)][k]? = some b → (b.2 = .recv sock ∨ due b.1 sock b.2 = true) →
        k = 1 ∧ res = sock := by
      intro k b hk hb
      rcases k with _ | _ | k
      · cases hk
        simp [due] at hb
      · cases hk
        simpa [due] using hb
      · cases hk
    obtain ⟨rfl, rfl⟩ := hsnd hi hp
    exact ⟨.inr (.inr ⟨hop.eq_accept hc, rfl, h0⟩), fun j p' hj hp' => (hsnd hj hp').1⟩
  | answered r hc hres hreq =>
    have hmem := List.mem_of_getElem? hi
    have hdue := hp.resolve_left (mem_parts hmem).1
    obtain ⟨-, hsock⟩ := @mem_parts a sock r c.clientSocket p hmem
    obtain rfl : c.clientSocket = sock := hsock.symm.trans (clientSocket_of_due hdue)
    refine ⟨.inl (hop.eq_recv hc), fun j p' hj hp' => ?_⟩
    have hmem' := List.mem_of_getElem? hj
    exact parts_once (hr r hc hres hreq) hi hdue hj (hp'.resolve_left (mem_parts hmem').1)
  | rearmed hc h0 hfd hl =>
    subst hl
    refine ⟨.inr (.inl ?_), fun j p' hj _ => hone hi j p' hj⟩
    have hsock : c.clientSocket = sock := by
      obtain rfl := List.mem_singleton.1 (List.mem_of_getElem? hi)
      simpa [due] using hp
    obtain ⟨n, hq⟩ := hop.exists_writev hc
    rw [hq]
    exact decide_eq_true ⟨hfd, hsock⟩
  | hungUp | ended | readDone | written => cases hi

/-- A performed request keeps what its context holds; an accept holds the new connection. -/
theorem performed_holds (h : Performed x c op c' res ns)
    (hw : View.Holds ⟨some c', done ⟨x, op⟩ res, log⟩ sock) {log' : List Note} :
    View.Holds ⟨some c, waiting ⟨x, op⟩, log'⟩ sock ∨ (op = .accept ∧ res = sock ∧ 0 ≤ res) := by
  obtain ⟨-, hsock, hfd, -⟩ := h.keeps
  rw [holds_waiting]
  rcases holds_done.1 hw with h | h | ⟨hop, rfl, h0⟩
  · exact .inl (.inl h)
  · rw [due_congr hfd hsock] at h
    exact .inl (.inr h)
  · exact .inr ⟨hop, rfl, h0⟩

/-- After its completion only a context that was read from a file holds anything. -/
theorem handled_holds {w : View} (h : Local x ⟨some c, done q res, log⟩ w) (hop : q.op.Fits c)
    (hres : q.op.Gives res) (hw : w.Holds sock) :
    c.eventType = .readFile ∧ View.Holds ⟨some c, done q res, log⟩ sock := by
  cases h with
  | ended => exact absurd hw not_holds_empty
  | freed => exact absurd hw not_holds_empty
  | readDone hkind hpos =>
    refine ⟨hkind, ?_⟩
    obtain ⟨content, n, hq⟩ := hop.exists_readv hkind
    rw [hq] at hres
    have hne : content ≠ [] := by
      intro h
      have := (hres (by omega)).2 h
      omega
    have hdue : c.pathFd ≠ 0 ∧ c.clientSocket = sock :=
      of_decide_eq_true ((holds_waiting.1 hw).resolve_left nofun)
    rw [holds_done, hq]
    exact .inr (.inl (decide_eq_true ⟨hne, hdue⟩))

theorem tokens_executed (hs : WellFormed s) (ht : Tokens s) {p : Nat} {act : Act}
    {r : Context × Int × List Note} {conns : List Int} {ring : Queues Req} (hc : s.heap q.ctx = some c)
    (hr : perform q.ctx q.op c act = some r) (hconns : opened s.conns act = some conns)
    (hring : complete p r.2.1 s.ring = some (q, ring)) : Tokens (s.record q.ctx r ring conns) := by
  have hview := view_executed hs conns hc hr hring
  obtain ⟨-, hold, hnew⟩ := hview q.ctx
  -- what is held now was held before, or is the accepted connection
  have hfrom : ∀ x sock, ((s.record q.ctx r ring conns).view x).Holds sock →
      (s.view x).Holds sock ∨ (x = q.ctx ∧ q.op = .accept ∧ r.2.1 = sock ∧ 0 ≤ r.2.1) := by
    intro x sock hx
    by_cases hxq : x = q.ctx
    · subst hxq
      rw [hnew] at hx
      rw [hold]
      exact (performed_holds (performed_of_perform hr) hx).imp id fun h => ⟨rfl, h⟩
    · rw [(hview x).1 hxq] at hx
      exact .inl hx
  rcases opened_cases hr hconns with ⟨rfl, hneg⟩ | ⟨hop, hfresh, rfl⟩
  · have hfrom' : ∀ x sock, ((s.record q.ctx r ring s.conns).view x).Holds sock → (s.view x).Holds sock := by
      intro x sock hx
      refine (hfrom x sock hx).resolve_right ?_
      rintro ⟨-, hop, -, h0⟩
      exact absurd h0 (not_le.2 (hneg hop))
    exact ⟨fun x y sock hx hy => ht.unique x y sock (hfrom' x sock hx) (hfrom' y sock hy),
      fun x sock hx => ht.opened x sock (hfrom' x sock hx)⟩
  · constructor
    · intro x y sock hx hy
      rcases hfrom x sock hx with hx | ⟨rfl, -, rfl, -⟩
      · rcases hfrom y sock hy with hy | ⟨rfl, -, rfl, -⟩
        · exact ht.unique x y sock hx hy
        · exact absurd (ht.opened x _ hx) hfresh
      · rcases hfrom y _ hy with hy | ⟨rfl, -⟩
        · exact absurd (ht.opened y _ hy) hfresh
        · rfl
    · intro x sock hx
      rcases hfrom x sock hx with hx | ⟨-, -, rfl, -⟩
      · exact List.mem_cons_of_mem _ (ht.opened x sock hx)
      · exact List.mem_cons_self

/-- A context of before holds what it held; where it is the handled one, nothing is new. -/
theorem Handled.holds_before (hs : WellFormed s) {p : Nat} {ring : Queues Req}
    (htake : take p s.ring = some ((q, res), ring)) (hc : s.heap q.ctx = some c)
    (hh : Handled fs a q.ctx c res { s with ring := ring } l t) {x : Nat} {sock : Int} (hx : x < s.brk)
    (hhold : (t.view x).Holds sock) : (s.view x).Holds sock ∧ (x = q.ctx → c.eventType = .readFile) := by
  obtain ⟨-, hold, hop, hres, hnew⟩ := view_taken hs htake hc q.ctx
  by_cases hxq : x = q.ctx
  · subst hxq
    have hloc := hh.local (hs.lt_brk (c := c) hc) hnew q
    obtain ⟨hkind, h⟩ := handled_holds hloc hop hres hhold
    rw [hold]
    exact ⟨h, fun _ => hkind⟩
  · rw [hh.view_old hs htake hc hx hxq] at hhold
    exact ⟨hhold, fun h => absurd h hxq⟩

/-- A new one holds what it was spawned with. -/
theorem Handled.holds_new (hs : WellFormed s) {p : Nat} {ring : Queues Req}
    (htake : take p s.ring = some ((q, res), ring)) (hc : s.heap q.ctx = some c)
    (hh : Handled fs a q.ctx c res { s with ring := ring } l t) {x : Nat} {sock : Int} (hx : s.brk ≤ x)
    (hhold : (t.view x).Holds sock) :
    ∃ b, l[x - s.brk]? = some b ∧ (b.2 = .recv sock ∨ due b.1 sock b.2 = true) := by
  rw [hh.view_new hs htake hc hx] at hhold
  unfold spawned at hhold
  split at hhold
  · next b hb => exact ⟨b, hb, holds_waiting.1 hhold⟩
  · exact absurd hhold not_holds_empty

/-- The handled one held it before, and no other new one does. -/
theorem Handled.holds_after (hs : WellFormed s) {p : Nat} {ring : Queues Req}
    (htake : take p s.ring = some ((q, res), ring)) (hc : s.heap q.ctx = some c)
    (hh : Handled fs a q.ctx c res { s with ring := ring } l t)
    (hr : ∀ r, c.eventType = .readSock → 0 < res → handleClientRequest fs c.buffer = .answer r → rearms a r)
    {x : Nat} {sock : Int} (hx : s.brk ≤ x) (hhold : (t.view x).Holds sock) : c.eventType ≠ .readFile ∧
      (s.view q.ctx).Holds sock ∧ ∀ y, s.brk ≤ y → (t.view y).Holds sock → y = x := by
  obtain ⟨-, hold, hop, -, -⟩ := view_taken hs htake hc q.ctx
  obtain ⟨b, hb, htok⟩ := hh.holds_new hs htake hc hx hhold
  obtain ⟨h1, h2⟩ := hh.spawned_holds hop hr hb htok
  refine ⟨?_, hold ▸ h1, fun y hy hhold' => ?_⟩
  · intro hkind
    cases hh with
    | accepted h | answered _ h | rearmed h => cases h.symm.trans hkind
    | hungUp | ended | readDone | written => cases hb
  · obtain ⟨b', hb', htok'⟩ := hh.holds_new hs htake hc hy hhold'
    have hsame := h2 _ b' hb' htok'
    omega

/-- A turn hands the token of its context on to at most one new context. -/
theorem tokens_handled (hs : WellFormed s) (ht : Tokens s) {p : Nat} {ring : Queues Req}
    (htake : take p s.ring = some ((q, res), ring)) (hc : s.heap q.ctx = some c)
    (hh : Handled fs a q.ctx c res { s with ring := ring } l t)
    (hr : ∀ r, c.eventType = .readSock → 0 < res → handleClientRequest fs c.buffer = .answer r → rearms a r) :
    Tokens t := by
  obtain ⟨-, hold, hop, -, -⟩ := view_taken hs htake hc q.ctx
  have hbefore : ∀ x sock, x < s.brk → (t.view x).Holds sock →
      (s.view x).Holds sock ∧ (x = q.ctx → c.eventType = .readFile) := fun _ _ => hh.holds_before hs htake hc
  have hafter : ∀ x sock, s.brk ≤ x → (t.view x).Holds sock → c.eventType ≠ .readFile ∧
      (s.view q.ctx).Holds sock ∧ ∀ y, s.brk ≤ y → (t.view y).Holds sock → y = x :=
    fun _ _ => hh.holds_after hs htake hc hr
  have hnew : ∀ x sock, s.brk ≤ x → (t.view x).Holds sock →
      ∃ b, l[x - s.brk]? = some b ∧ (b.2 = .recv sock ∨ due b.1 sock b.2 = true) :=
        fun _ _ => hh.holds_new hs htake hc
  have hunique : ∀ x y sock, (t.view x).Holds sock → (t.view y).Holds sock → x = y := by
    intro x y sock hx hy
    by_cases hxlt : x < s.brk
    · by_cases hylt : y < s.brk
      · exact ht.unique x y sock (hbefore x sock hxlt hx).1 (hbefore y sock hylt hy).1
      · obtain ⟨hkind, hq, -⟩ := hafter y sock (by omega) hy
        obtain ⟨hx', hne⟩ := hbefore x sock hxlt hx
        exact absurd (hne (ht.unique x q.ctx sock hx' hq)) hkind
    · by_cases hylt : y < s.brk
      · obtain ⟨hkind, hq, -⟩ := hafter x sock (by omega) hx
        obtain ⟨hy', hne⟩ := hbefore y sock hylt hy
        exact absurd (hne (ht.unique y q.ctx sock hy' hq)) hkind
      · exact (hafter y sock (by omega) hy).2.2 x (by omega) hx
  have hopened : ∀ x sock, (t.view x).Holds sock → sock ∈ s.conns := by
    intro x sock hx
    by_cases hlt : x < s.brk
    · exact ht.opened x sock (hbefore x sock hlt hx).1
    · exact ht.opened _ sock (hafter x sock (by omega) hx).2.1
  refine ⟨hunique, fun x sock hx => ?_⟩
  have hconns : ∀ l, (Srv.spawnAll { s with ring := ring } l).conns = s.conns := conns_spawnAll _
  cases hh with
  | hungUp hkind h0 =>
    -- the token of the closed connection is gone
    refine List.mem_filter.2 ⟨hopened x sock hx, ?_⟩
    by_contra hsock
    obtain rfl : sock = c.clientSocket := by simpa using hsock
    by_cases hxlt : x < s.brk
    · obtain ⟨hx', hne⟩ := hbefore x _ hxlt hx
      have hq : (s.view q.ctx).Holds c.clientSocket := by
        rw [hold, holds_done]
        exact .inl (hop.eq_recv hkind)
      cases hkind.symm.trans (hne (ht.unique x q.ctx _ hx' hq))
    · obtain ⟨b, hb, -⟩ := hnew x _ (by omega) hx
      cases hb
  | accepted | answered | rearmed => exact (hconns _).symm ▸ hopened x sock hx
  | ended | readDone | written => exact hopened x sock hx

theorem step_tokens (hs : WellFormed s) (ht : Tokens s) (h : Under (step fs) (RearmsOnce fs) s e t) :
    Tokens t := by
  obtain ⟨hstep, hrearms⟩ := h
  obtain ⟨-, ⟨p, act, q, c, r, conns, ring, -, hc, hr, hconns, hring, rfl⟩ |
    ⟨p, a, q, c, res, ring, l, rfl, htake, hc, hh⟩ | rfl⟩ := step_cases hstep
  · exact tokens_executed hs ht hc hr hconns hring
  · refine tokens_handled hs ht htake hc hh fun r hkind hres hreq => ?_
    refine hrearms (c.clientSocket, r) ?_
    simp only [answered]
    rw [getElem?_of_take htake, Option.bind_some, hc, Option.bind_some, if_pos ⟨hkind, hres⟩, hreq]
    rfl
  · exact ⟨ht.unique, ht.opened⟩

theorem start_tokens (junk : Context) : Tokens (start junk) := by
  have hnone : ∀ x sock, ¬((start junk).view x).Holds sock := by
    intro x sock hx
    rw [view_start] at hx
    unfold spawned at hx
    split at hx
    · next b hb =>
      obtain rfl := List.mem_singleton.1 (List.mem_of_getElem? hb)
      rcases holds_waiting.1 hx with h | h <;> cases h
    · exact not_holds_empty hx
  exact ⟨fun x y sock hx => absurd hx (hnone x sock), fun x sock hx => absurd hx (hnone x sock)⟩

/-- The reads of a connection are one where its holder is one. -/
theorem Tokens.reads_le (hs : WellFormed s) (ht : Tokens s) (sock : Int) : (reads sock s).length ≤ 1 := by
  have hholds : ∀ q ∈ reads sock s, (s.view q.ctx).Holds sock := by
    intro q hq
    obtain ⟨hmem, hop⟩ := List.mem_filter.1 hq
    have hring : q ∈ requests (s.view q.ctx).ring := by
      show q ∈ requests (part Req.ctx q.ctx s.ring)
      rw [requests_part]
      exact List.mem_filter.2 ⟨hmem, by simp⟩
    have hop : q.op = .recv sock := by simpa using hop
    obtain ⟨c, hc⟩ := (hs.alive q.ctx).exists_ctx hring
    exact .inl ⟨c, hc, q, hring, .inl hop⟩
  cases hl : reads sock s with
  | nil => exact Nat.zero_le _
  | cons q qs =>
    have hsame : ∀ q' ∈ reads sock s, q'.ctx = q.ctx := fun q' hq' =>
      ht.unique _ _ sock (hholds q' hq') (hholds q (by rw [hl]; exact List.mem_cons_self))
    have hpart : (reads sock s).length ≤ (requests (s.view q.ctx).ring).length := by
      show _ ≤ (requests (part Req.ctx q.ctx s.ring)).length
      rw [requests_part]
      have : reads sock s = (reads sock s).filter (·.ctx = q.ctx) := by
        rw [eq_comm, List.filter_eq_self]
        intro q' hq'
        simpa using hsame q' hq'
      rw [this]
      unfold reads
      rw [List.filter_comm]
      exact (List.filter_sublist).length_le
    rw [← hl]
    exact hpart.trans (hs.alive q.ctx).requests_le

/-- **One reader.**  In a run whose responses all rearm, a connection has at most one
outstanding read, and each response whose writes have completed has made the server read
once. -/
theorem one_read {junk : Context} {es : List Event}
    (hs : Run (Under (step fs) (RearmsOnce fs)) (start junk) es s) :
    (∀ sock, (reads sock s).length ≤ 1) ∧
      ∀ e es' u t sock r, Under (step fs) (RearmsOnce fs) s e u → answered fs s e = some (sock, r) →
        Run (Under (step fs) (RearmsOnce fs)) u es' t →
        (∀ q ∈ requests t.ring, s.brk ≤ q.ctx → q.ctx < u.brk → q.op.writesLeft = false) →
        ((List.range' s.brk (u.brk - s.brk)).map fun x => t.log.count (.armed x sock)).sum = 1 := by
  have hinv := hs.invariant (fun s => WellFormed s ∧ Tokens s)
    (fun s e t h hst => ⟨step_wellFormed h.1 hst.1, step_tokens h.1 h.2 hst⟩)
    ⟨start_wellFormed junk, start_tokens junk⟩
  refine ⟨fun sock => hinv.2.reads_le hinv.1 sock, fun e es' u t sock r he ha ht hleft => ?_⟩
  exact response_rearms hinv.1 he.1 ha he.2 (ht.mono fun _ _ _ h => h.1) hleft

/-- The file of one byte, to the end: the client is read again, once. -/
theorem one_read_file : ∃ s u t : Srv, step oneFile s (.loop 0 ⟨zeroed, zeroed, 5⟩) u ∧
    (reads 4 s).length ≤ 1 ∧
    ((List.range' s.brk (u.brk - s.brk)).map fun x => t.log.count (.armed x 4)).sum = 1 := by
  obtain ⟨s, t, hs, hg, ht, hleft⟩ := run_of_exec_bind (guarded (stepFn oneFile) (RearmsOnce oneFile))
    (guarded (stepFn oneFile) (RearmsOnce oneFile)) (start zeroed)
    (request "GET /a") (.loop 0 ⟨zeroed, zeroed, 5⟩ :: [.execute 1 (.moved 80), .execute 1 (.moved 1),
      .loop 1 ⟨zeroed, zeroed, 5⟩, .execute 1 (.moved 1), .loop 1 ⟨zeroed, zeroed, 5⟩,
      .loop 0 ⟨zeroed, zeroed, 5⟩])
    (fun s => answered oneFile s (.loop 0 ⟨zeroed, zeroed, 5⟩))
    (fun t => (requests t.ring).all fun q => !q.op.writesLeft)
    (a := some (4, .file (ascii "public/a") ⟨true, true, [65]⟩)) (b := true) (by decide +kernel)
  cases ht.of_guarded with
  | cons he ht =>
    obtain ⟨hreads, hresp⟩ := one_read hs.of_guarded
    refine ⟨s, _, t, he.1, hreads 4, hresp _ _ _ t 4 _ he hg ht fun q hq _ _ => ?_⟩
    simpa using List.all_eq_true.1 hleft q hq

/-- `malloc` returns memory with a non-zero `path_fd` for the header: its write and the
body's both make the server read. -/
theorem two_reads : ¬ ∀ (fs : Fs) (junk : Context) (es : List Event) (s : Srv),
    Run (step fs) (start junk) es s → (∀ sock, (reads sock s).length ≤ 1) ∧
      ∀ e es' u t sock r, step fs s e u → answered fs s e = some (sock, r) → Run (step fs) u es' t →
        (∀ q ∈ requests t.ring, s.brk ≤ q.ctx → q.ctx < u.brk → q.op.writesLeft = false) →
        ((List.range' s.brk (u.brk - s.brk)).map fun x => t.log.count (.armed x sock)).sum = 1 := by
  intro h
  obtain ⟨s, hs, hlen⟩ := run_of_exec_map (stepFn oneFile) (start zeroed)
    (request "GET /a" ++ [.loop 0 ⟨{ zeroed with pathFd := 7 }, zeroed, 5⟩, .execute 1 (.moved 80),
      .execute 1 (.moved 1), .loop 1 ⟨zeroed, zeroed, 5⟩, .execute 1 (.moved 1), .loop 1 ⟨zeroed, zeroed, 5⟩,
      .loop 0 ⟨zeroed, zeroed, 5⟩]) (fun s => (reads 4 s).length) (a := 2) (by decide +kernel)
  have := (h oneFile zeroed _ s hs).1 4
  omega

end

end CPrograms.UringHttp
