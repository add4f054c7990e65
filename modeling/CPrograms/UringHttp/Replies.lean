import CPrograms.UringHttp.Rearm
import Mathlib.Data.List.Nodup
import Mathlib.Data.List.Perm.Subperm

/-!
# The responses of the server to the reads of a connection

Over a run, `received` lists what the kernel's reads bring, `served` the reads that turns
handle, in the order of the turns, and `responses` the responses that turns issue, each with
its connection.  A read is answered from what its own context received (`Receiving`), so the
responses of a connection are those to its served reads one by one (`responses_of_reads`),
whatever the other connections, `malloc` and the kernel do in between.  Where every response
makes the server read once, they are served as they arrive (`run_inOrder`).  What the reads
are is up to the cut of the stream: `cut_stops` has one that stops the server.
-/

namespace CPrograms.UringHttp

open Uring Runs

/-- What a performed request brings, where it is a read of a connection. -/
def Op.got : Op → Act → Option (Int × List UInt8)
  | .recv sock, .received data => some (sock, data)
  | _, _ => none

/-- The context of the read, the connection and the data. -/
def receivedRead (s : Srv) : Event → Option (Nat × Int × List UInt8)
  | .execute p act => (s.ring.inflight[p]?).bind fun q => (q.op.got act).map (q.ctx, ·)
  | .loop .. => none

/-- The context of the read that a turn handles, unless it is the end of the stream. -/
def handledRead (s : Srv) : Event → Option Nat
  | .execute .. => none
  | .loop p _ =>
    (s.ring.cq[p]?).bind fun d =>
      (s.heap d.1.ctx).bind fun c => if c.eventType = .readSock ∧ 0 < d.2 then some d.1.ctx else none

def received (fs : Fs) (junk : Context) (es : List Event) : List (Nat × Int × List UInt8) :=
  observed (stepFn fs) receivedRead (start junk) es

def handledReads (fs : Fs) (junk : Context) (es : List Event) : List Nat :=
  observed (stepFn fs) handledRead (start junk) es

def served (fs : Fs) (junk : Context) (es : List Event) : List (Int × List UInt8) :=
  (handledReads fs junk es).filterMap ((received fs junk es).lookup ·)

def responses (fs : Fs) (junk : Context) (es : List Event) : List (Int × Response) :=
  observed (stepFn fs) (answered fs) (start junk) es

/-- What concerns the connection `sock`. -/
def onSock {α : Type} (sock : Int) (l : List (Int × α)) : List α :=
  l.filterMap fun p => if p.1 = sock then some p.2 else none

def firstLine (data : List UInt8) : Option (List UInt8) := getLine (readBuffer data) lineSz

/-- The response to a read. -/
def response (fs : Fs) (data : List UInt8) : Option Response :=
  match handleClientRequest fs (readBuffer data) with
  | .answer r => some r
  | _ => none

/-! ## What a context has received -/

/-- The lives of a context, after it has received `o`: a context that is read into holds
that and nothing else. -/
inductive Receiving (x : Nat) : Option (Int × List UInt8) → View → Prop
  | asked {junk sock l} : Receiving x none ⟨some (readCtx junk sock), waiting ⟨x, .recv sock⟩, l⟩
  | received {junk sock data l} : data.length ≤ readSz →
      Receiving x (some (sock, data))
        ⟨some ((readCtx junk sock).fill 1 data), done ⟨x, .recv sock⟩ data.length, l⟩
  | failed {o c q res l} : res < 0 → Receiving x o ⟨some c, done q res, l⟩
  | other {o v} : (∀ c, v.ctx = some c → c.eventType ≠ .readSock) → Receiving x o v

section
variable {fs : Fs} {a : Answers} {x : Nat} {c c' : Context} {op : Op} {act : Act} {res : Int}
  {ns log : List Note} {o : Option (Int × List UInt8)} {s t : Srv} {l : List (Context × Op)}

theorem Receiving.performed (h : Receiving x o ⟨some c, waiting ⟨x, op⟩, log⟩)
    (hp : perform x op c act = some (c', res, ns)) :
    Receiving x (o.or (op.got act)) ⟨some c', done ⟨x, op⟩ res, log ++ ns⟩ := by
  cases h with
  | @asked junk sock =>
    cases act with
    | received data =>
      simp only [perform] at hp
      split at hp
      · next hd =>
        cases hp
        refine .received ?_
        simpa [readCtx] using hd
      · cases hp
    | failed err =>
      cases hp
      exact .failed (Int.negSucc_lt_zero err)
    | accepted | moved => cases hp
  | other hc =>
    refine .other fun c₁ h₁ => ?_
    obtain rfl := Option.some.inj h₁
    rw [(performed_of_perform hp).keeps.1]
    exact hc c rfl

/-- A completed read of a context that is read into is what the context received. -/
theorem Receiving.eq_received {q : Req} (h : Receiving x o ⟨some c, done q res, log⟩)
    (hc : c.eventType = .readSock) (hres : 0 < res) :
    ∃ sock data, o = some (sock, data) ∧ c.clientSocket = sock ∧ c.buffer = readBuffer data := by
  cases h with
  | @received junk sock data _ hd => exact ⟨sock, data, rfl, rfl, buffer_recv junk sock hd⟩
  | failed => omega
  | other hne => exact absurd hc (hne c rfl)

theorem Receiving.eq_none {q : Req} (h : Receiving x o ⟨some c, waiting q, log⟩)
    (hc : c.eventType = .readSock) : o = none := by
  cases h with
  | asked => rfl
  | other hne => exact absurd hc (hne c rfl)

theorem Handled.spawns_reads (h : Handled fs a x c res s l t) :
    ∀ p ∈ l, p.1.eventType = .readSock → ∃ junk sock, p = (readCtx junk sock, .recv sock) := by
  cases h with
  | accepted _ _ hl =>
    subst hl
    intro p hp hk
    rcases List.mem_cons.1 hp with rfl | hp
    · cases hk
    · exact ⟨_, _, List.mem_singleton.1 hp⟩
  | answered r =>
    intro p hp hk
    cases r with
    | unimplemented | notFound =>
      obtain rfl := List.mem_singleton.1 hp
      cases hk
    | file path f =>
      rcases List.mem_cons.1 hp with rfl | hp
      · cases hk
      · obtain rfl := List.mem_singleton.1 hp
        cases hk
  | rearmed _ _ _ hl =>
    subst hl
    intro p hp _
    exact ⟨_, _, List.mem_singleton.1 hp⟩
  | hungUp | ended | readDone | written => simp

/-- A handled context is released, or is no longer one that is read into. -/
theorem Handled.no_read (h : Handled fs a x c res s l t) (hs : s.heap x = some c) :
    ∀ c', (t.view x).ctx = some c' → c'.eventType ≠ .readSock ∧ c.eventType ≠ .readSock := by
  intro c' hc'
  cases h with
  | accepted | hungUp | answered | written | rearmed =>
    rw [view_free_self] at hc'
    cases hc'
  | ended hk =>
    obtain rfl : c = c' := Option.some.inj (hs.symm.trans hc')
    simp [hk]
  | readDone hk =>
    rw [view_addWriteRequest_self] at hc'
    obtain rfl := Option.some.inj hc'
    simp [hk]

/-! ## Runs -/

/-- What a run keeps of the reads. -/
structure Traced (fs : Fs) (junk : Context) (es : List Event) (s : Srv) : Prop where
  run : Run (step fs) (start junk) es s
  wellFormed : WellFormed s
  receiving : ∀ x, Receiving x ((received fs junk es).lookup x) (s.view x)
  fresh : ∀ x, s.brk ≤ x → (received fs junk es).lookup x = none

variable {junk : Context} {es : List Event} {e : Event} {q : Req} {p : Nat} {ring : Queues Req}

theorem received_execute (h : Run (step fs) (start junk) es s) (hring : complete p res s.ring = some (q, ring))
    (act : Act) : received fs junk (es ++ [.execute p act]) =
      received fs junk es ++ ((q.op.got act).map (q.ctx, ·)).toList := by
  have hread : receivedRead s (.execute p act) = (q.op.got act).map (q.ctx, ·) := by
    show (s.ring.inflight[p]?).bind _ = _
    rw [getElem?_of_complete hring, Option.bind_some]
  rw [← hread]
  exact observed_snoc _ h _

theorem lookup_received (h : Run (step fs) (start junk) es s) (hring : complete p res s.ring = some (q, ring))
    (act : Act) (y : Nat) : (received fs junk (es ++ [.execute p act])).lookup y =
      if y = q.ctx then ((received fs junk es).lookup y).or (q.op.got act)
      else (received fs junk es).lookup y := by
  rw [received_execute h hring, List.lookup_append]
  cases q.op.got act with
  | none => simp
  | some d =>
    by_cases hy : y = q.ctx
    · simp [hy]
    · simp [hy, List.lookup_cons, beq_false_of_ne hy]

theorem received_loop (h : Run (step fs) (start junk) es s) (p : Nat) (a : Answers) :
    received fs junk (es ++ [.loop p a]) = received fs junk es := by
  unfold received
  rw [observed_snoc _ h]
  exact List.append_nil _

theorem receiving_spawned {brk : Nat} (hl : ∀ p ∈ l, p.1.eventType = .readSock →
      ∃ junk sock, p = (readCtx junk sock, .recv sock)) (x : Nat) :
    Receiving x none (spawned brk l x) := by
  unfold spawned
  split
  · next b hb =>
    by_cases hk : b.1.eventType = .readSock
    · obtain ⟨junk, sock, rfl⟩ := hl b (List.mem_of_getElem? hb) hk
      exact .asked
    · refine .other fun c hc => ?_
      obtain rfl := Option.some.inj hc
      exact hk
  · exact .other (by simp [View.blank])

theorem Traced.executed (h : Traced fs junk es s) {act : Act} {r : Context × Int × List Note}
    (conns : List Int) (hc : s.heap q.ctx = some c) (hr : perform q.ctx q.op c act = some r)
    (hring : complete p r.2.1 s.ring = some (q, ring))
    (hst : step fs s (.execute p act) (s.record q.ctx r ring conns)) :
    Traced fs junk (es ++ [.execute p act]) (s.record q.ctx r ring conns) := by
  refine ⟨run_snoc_iff.2 ⟨s, h.run, hst⟩, step_wellFormed h.wellFormed hst, fun y => ?_, fun y hy => ?_⟩
  · obtain ⟨hother, hold, hnew⟩ := view_executed h.wellFormed conns hc hr hring y
    rw [lookup_received h.run hring]
    split
    · next hy =>
      subst hy
      rw [hnew]
      refine Receiving.performed ?_ hr
      rw [← hold]
      exact h.receiving q.ctx
    · next hy =>
      rw [hother hy]
      exact h.receiving y
  · rw [lookup_received h.run hring, if_neg ?_]
    · exact h.fresh y hy
    · rintro rfl
      have hlt : q.ctx < s.brk := h.wellFormed.lt_brk (c := c) hc
      exact absurd hy (Nat.not_le.2 hlt)

theorem Traced.handled (h : Traced fs junk es s) (htake : take p s.ring = some ((q, res), ring))
    (hc : s.heap q.ctx = some c) (hh : Handled fs a q.ctx c res { s with ring := ring } l t)
    (hst : step fs s (.loop p a) t) : Traced fs junk (es ++ [.loop p a]) t := by
  have hbrk : t.brk = s.brk + l.length := hh.brk
  refine ⟨run_snoc_iff.2 ⟨s, h.run, hst⟩, step_wellFormed h.wellFormed hst, fun y => ?_, fun y hy => ?_⟩
  · rw [received_loop h.run]
    by_cases hq : y = q.ctx
    · subst hq
      exact .other fun c' hc' => (hh.no_read hc c' hc').1
    by_cases hy : y < s.brk
    · rw [hh.view_old h.wellFormed htake hc hy hq]
      exact h.receiving y
    · rw [h.fresh y (by omega), hh.view_new h.wellFormed htake hc (by omega)]
      exact receiving_spawned hh.spawns_reads y
  · rw [received_loop h.run]
    exact h.fresh y (by omega)

theorem Traced.step (h : Traced fs junk es s) (hst : step fs s e t) : Traced fs junk (es ++ [e]) t := by
  cases e with
  | execute p act =>
    obtain ⟨-, hst'⟩ := Option.ite_none_right_eq_some.1 hst
    obtain ⟨q, c, r, conns, ring, hc, hr, -, hring, rfl⟩ := execute_eq hst'
    exact h.executed conns hc hr hring hst
  | loop p a =>
    obtain ⟨-, hst'⟩ := Option.ite_none_right_eq_some.1 hst
    obtain ⟨q, c, res, ring, htake, hc, ⟨l, hh⟩ | ⟨-, rfl⟩⟩ := serverLoop_eq hst'
    · exact h.handled htake hc hh hst
    · refine ⟨run_snoc_iff.2 ⟨s, h.run, hst⟩, step_wellFormed h.wellFormed hst, fun y => ?_, fun y hy => ?_⟩
      · rw [received_loop h.run]
        exact h.receiving y
      · rw [received_loop h.run]
        exact h.fresh y hy

theorem start_traced (fs : Fs) (junk : Context) : Traced fs junk [] (start junk) := by
  refine ⟨.nil _, start_wellFormed junk, fun x => ?_, fun _ _ => rfl⟩
  rw [view_start]
  refine receiving_spawned (fun p hp hk => ?_) x
  obtain rfl := List.mem_singleton.1 hp
  cases hk

theorem run_traced (h : Run (UringHttp.step fs) (start junk) es s) : Traced fs junk es s :=
  h.history (Traced fs junk) (fun _ _ _ _ ht hst => ht.step hst) (start_traced fs junk)

/-! ## Turns -/

theorem running_spawnAll (s : Srv) (l : List (Context × Op)) : (s.spawnAll l).running = s.running := by
  induction l generalizing s with
  | nil => rfl
  | cons c l ih => exact ih (s.spawn c.1 c.2)

theorem Handled.running (h : Handled fs a x c res s l t) : t.running = s.running := by
  rw [← running_spawnAll s l]
  cases h <;> rfl

/-- A turn that handles a read answers it from what its context received, and stops the
server where there is no answer. -/
theorem Traced.turn (h : Traced fs junk es s) (hst : UringHttp.step fs s e t)
    (hx : handledRead s e = some x) : ∃ sock data, (received fs junk es).lookup x = some (sock, data) ∧
      answered fs s e = (response fs data).map (sock, ·) ∧ (∃ c, (s.view x).ctx = some c) ∧
      (t.running = true → (t.view x).ctx = none) ∧ (response fs data ≠ none → t.running = true) := by
  cases e with
  | execute => cases hx
  | loop p a =>
    obtain ⟨hrun, hst'⟩ := Option.ite_none_right_eq_some.1 hst
    obtain ⟨q, c, res, ring, htake, hc, hturn⟩ := serverLoop_eq hst'
    have hp := getElem?_of_take htake
    have hx : (if c.eventType = .readSock ∧ 0 < res then some q.ctx else none) = some x := by
      rw [← hx]
      simp only [handledRead, hp, hc, Option.bind_some]
    obtain ⟨⟨hk, hres⟩, hx⟩ := Option.ite_none_right_eq_some.1 hx
    obtain rfl := Option.some.inj hx
    have hview := (view_taken h.wellFormed htake hc q.ctx).2.1
    have hrec := h.receiving q.ctx
    rw [hview] at hrec
    obtain ⟨sock, data, ho, rfl, hbuf⟩ := hrec.eq_received hk hres
    have hans : answered fs s (.loop p a) = (response fs data).map (c.clientSocket, ·) := by
      simp only [answered, hp, hc, Option.bind_some, hk, hres, and_self, if_true, hbuf, response]
      cases handleClientRequest fs (readBuffer data) <;> rfl
    refine ⟨c.clientSocket, data, ho, hans, ⟨c, hc⟩, ?_⟩
    rcases hturn with ⟨l, hh⟩ | ⟨hnone, rfl⟩
    · refine ⟨fun _ => ?_, fun _ => hh.running.trans hrun⟩
      rw [Option.eq_none_iff_forall_ne_some]
      intro c' hc'
      exact (hh.no_read hc c' hc').2 hk
    · refine ⟨fun hrun' => absurd hrun' Bool.false_ne_true, fun hne => absurd ?_ hne⟩
      unfold handleCompletion at hnone
      rw [if_neg (by omega), hk] at hnone
      dsimp only at hnone
      rw [if_neg (by omega), hbuf] at hnone
      unfold response
      cases hr : handleClientRequest fs (readBuffer data) with
      | answer r =>
        rw [hr] at hnone
        cases hnone
      | exit | crash => rfl

theorem answered_of_not_handled (hx : handledRead s e = none) : answered fs s e = none := by
  cases e with
  | execute => rfl
  | loop p a =>
    simp only [handledRead, answered] at hx ⊢
    cases hd : s.ring.cq[p]? with
    | none => rfl
    | some d =>
      cases hc : s.heap d.1.ctx with
      | none => simp only [Option.bind_some, hc, Option.bind_none]
      | some c =>
        simp only [hd, hc, Option.bind_some] at hx ⊢
        split at hx
        · cases hx
        · next hcond => rw [if_neg hcond]

/-- A step does not bring back a context that is released. -/
theorem step_gone (hs : WellFormed s) (hst : UringHttp.step fs s e t) (hx : x < s.brk)
    (hgone : (s.view x).ctx = none) : x < t.brk ∧ (t.view x).ctx = none := by
  obtain ⟨l, hbrk, -, -, hold⟩ := step_view hs hst
  refine ⟨by omega, ?_⟩
  rcases hold x hx with he | hloc
  · rw [he]
    exact hgone
  · generalize s.view x = v at hloc hgone
    generalize t.view x = w at hloc
    cases hloc <;> cases hgone

/-- What a run keeps of the reads that were handled. -/
structure Replied (fs : Fs) (junk : Context) (es : List Event) (s : Srv) : Prop where
  traced : Traced fs junk es s
  known : ∀ x ∈ handledReads fs junk es, ∃ d, (received fs junk es).lookup x = some d
  gone : ∀ x ∈ handledReads fs junk es, s.running = true → x < s.brk ∧ (s.view x).ctx = none
  nodup : (handledReads fs junk es).Nodup
  replies : responses fs junk es = (served fs junk es).filterMap fun d => (response fs d.2).map (d.1, ·)

theorem lookup_received_mono {d : Int × List UInt8} (h : Run (UringHttp.step fs) (start junk) es s)
    (hd : (received fs junk es).lookup x = some d) (e : Event) :
    (received fs junk (es ++ [e])).lookup x = some d := by
  change (observed (stepFn fs) receivedRead (start junk) es).lookup x = some d at hd
  unfold received
  rw [observed_snoc _ h, List.lookup_append, hd]
  rfl

theorem Replied.served_snoc (h : Replied fs junk es s) (e : Event)
    (hx : ∀ x, handledRead s e = some x → ∃ d, (received fs junk es).lookup x = some d) :
    served fs junk (es ++ [e]) = served fs junk es ++
      ((handledRead s e).bind ((received fs junk es).lookup ·)).toList := by
  have hsame : ∀ {x d}, (received fs junk es).lookup x = some d →
      (received fs junk (es ++ [e])).lookup x = (received fs junk es).lookup x := by
    intro x d hd
    rw [hd]
    exact lookup_received_mono h.traced.run hd e
  unfold served handledReads
  rw [observed_snoc _ h.traced.run, List.filterMap_append]
  congr 1
  · refine List.filterMap_congr fun x hx => ?_
    obtain ⟨d, hd⟩ := h.known x hx
    exact hsame hd
  · cases hr : handledRead s e with
    | none => rfl
    | some x =>
      obtain ⟨d, hd⟩ := hx x hr
      simp only [Option.toList_some, List.filterMap_cons, hsame hd, hd, List.filterMap_nil, Option.bind_some]

theorem Replied.step (h : Replied fs junk es s) (hst : UringHttp.step fs s e t) :
    Replied fs junk (es ++ [e]) t := by
  have hrun := h.traced.run
  have hreads : handledReads fs junk (es ++ [e]) = handledReads fs junk es ++ (handledRead s e).toList :=
    observed_snoc _ hrun e
  have hrunning : s.running = true := (step_cases hst).1
  have hold : ∀ x ∈ handledReads fs junk es, x < t.brk ∧ (t.view x).ctx = none := by
    intro x hx
    obtain ⟨hlt, hgone⟩ := h.gone x hx hrunning
    exact step_gone h.traced.wellFormed hst hlt hgone
  have hresp : responses fs junk (es ++ [e]) = responses fs junk es ++ (answered fs s e).toList :=
    observed_snoc _ hrun e
  cases hx : handledRead s e with
  | none =>
    rw [hx, Option.toList_none, List.append_nil] at hreads
    refine ⟨h.traced.step hst, fun x hmem => ?_, fun x hmem _ => ?_, ?_, ?_⟩
    · rw [hreads] at hmem
      obtain ⟨d, hd⟩ := h.known x hmem
      exact ⟨d, lookup_received_mono hrun hd e⟩
    · rw [hreads] at hmem
      exact hold x hmem
    · rw [hreads]
      exact h.nodup
    · rw [hresp, answered_of_not_handled hx, h.served_snoc e (by simp [hx]), hx, h.replies]
      simp
  | some x =>
    obtain ⟨sock, data, hd, hans, ⟨c, hc⟩, hfree, -⟩ := h.traced.turn hst hx
    rw [hx, Option.toList_some] at hreads
    refine ⟨h.traced.step hst, fun y hmem => ?_, fun y hmem hrun' => ?_, ?_, ?_⟩
    · rw [hreads, List.mem_append, List.mem_singleton] at hmem
      rcases hmem with hmem | rfl
      · obtain ⟨d, hd⟩ := h.known y hmem
        exact ⟨d, lookup_received_mono hrun hd e⟩
      · exact ⟨_, lookup_received_mono hrun hd e⟩
    · rw [hreads, List.mem_append, List.mem_singleton] at hmem
      rcases hmem with hmem | rfl
      · exact hold y hmem
      · have hlt := h.traced.wellFormed.lt_brk hc
        obtain ⟨l, hbrk, -⟩ := step_view h.traced.wellFormed hst
        exact ⟨by omega, hfree hrun'⟩
    · rw [hreads, List.nodup_append]
      refine ⟨h.nodup, by simp, fun y hmem z hz => ?_⟩
      obtain rfl := List.mem_singleton.1 hz
      rintro rfl
      rw [(h.gone y hmem hrunning).2] at hc
      cases hc
    · rw [hresp, hans, h.served_snoc e (by simp [hx, hd]), hx, Option.bind_some, hd, h.replies,
        List.filterMap_append]
      congr 1

theorem run_replied (h : Run (UringHttp.step fs) (start junk) es s) : Replied fs junk es s :=
  h.history (Replied fs junk) (fun _ _ _ _ ht hst => ht.step hst)
    ⟨start_traced fs junk, by simp [handledReads, observed], by simp [handledReads, observed],
      List.nodup_nil, rfl⟩

/-! ## The order of the reads -/

/-- The non-empty reads of a connection, in the order in which they arrive. -/
def arrived (fs : Fs) (junk : Context) (es : List Event) (sock : Int) : List (List UInt8) :=
  (onSock sock ((received fs junk es).map Prod.snd)).filter (· ≠ [])

/-- A non-empty read of `sock` has arrived and waits for its turn. -/
def View.Pending (x : Nat) (sock : Int) (v : View) : Prop := ∃ res, (⟨x, .recv sock⟩, res) ∈ v.ring.cq ∧ 0 < res

theorem onSock_append {α : Type} (sock : Int) (l l' : List (Int × α)) :
    onSock sock (l ++ l') = onSock sock l ++ onSock sock l' := List.filterMap_append

theorem View.Pending.holds {v : View} {sock : Int} (h : v.Pending x sock) (hv : Alive x v) : v.Holds sock := by
  obtain ⟨res', hmem, -⟩ := h
  obtain ⟨c, hc, -⟩ := hv.of_done hmem
  rw [hc]
  exact holds_done.2 (.inl rfl)

theorem not_pending_waiting {sock : Int} {c : Option Context} {q : Req} :
    ¬View.Pending x sock ⟨c, waiting q, log⟩ := by
  rintro ⟨res, hmem, -⟩
  cases hmem

theorem not_pending_spawned (brk : Nat) (l : List (Context × Op)) (x : Nat) (sock : Int) :
    ¬(spawned brk l x).Pending x sock := by
  unfold spawned
  split
  · exact not_pending_waiting
  · rintro ⟨res, hmem, -⟩
    cases hmem

theorem pending_done {sock : Int} {c : Option Context} :
    View.Pending q.ctx sock ⟨c, done q res, log⟩ ↔ q.op = .recv sock ∧ 0 < res := by
  constructor
  · rintro ⟨res', hmem, hres⟩
    obtain ⟨hq, rfl⟩ := Prod.mk.inj (List.mem_singleton.1 hmem)
    rw [← hq]
    exact ⟨rfl, hres⟩
  · rintro ⟨hop, hres⟩
    refine ⟨res, ?_, hres⟩
    rw [← hop]
    exact List.mem_cons_self

/-- A turn leaves pending what was so before, but the read that it handles. -/
theorem Handled.pending (hs : WellFormed s) (htake : take p s.ring = some ((q, res), ring))
    (hc : s.heap q.ctx = some c) (hh : Handled fs a q.ctx c res { s with ring := ring } l t) {y : Nat}
    {sock : Int} (hy : y ≠ q.ctx) (h : (t.view y).Pending y sock) : (s.view y).Pending y sock := by
  by_cases hlt : y < s.brk
  · rwa [hh.view_old hs htake hc hlt hy] at h
  · rw [hh.view_new hs htake hc (by omega)] at h
    exact absurd h (not_pending_spawned _ _ _ _)

theorem Handled.not_pending (hs : WellFormed s) (htake : take p s.ring = some ((q, res), ring))
    (hc : s.heap q.ctx = some c) (hh : Handled fs a q.ctx c res { s with ring := ring } l t) (sock : Int) :
    ¬(t.view q.ctx).Pending q.ctx sock := by
  have hlt : q.ctx < s.brk := hs.lt_brk (c := c) hc
  have hloc := hh.local hlt (view_taken hs htake hc q.ctx).2.2.2.2 q
  generalize t.view q.ctx = w at hloc
  rintro ⟨res', hmem, hres⟩
  cases hloc <;> cases hmem

/-- The handled reads of `sock` are those that arrived, up to one that is pending. -/
structure InOrder (fs : Fs) (junk : Context) (sock : Int) (es : List Event) (s : Srv) : Prop where
  replied : Replied fs junk es s
  tokens : Tokens s
  order : onSock sock (served fs junk es) <+: arrived fs junk es sock
  pending : s.running = true →
    (∃ x data, (s.view x).Pending x sock ∧ (received fs junk es).lookup x = some (sock, data) ∧
      arrived fs junk es sock = onSock sock (served fs junk es) ++ [data]) ∨
    arrived fs junk es sock = onSock sock (served fs junk es) ∧ ∀ x, ¬(s.view x).Pending x sock

theorem Op.got_recv {sock : Int} {data : List UInt8} :
    op.got act = some (sock, data) ↔ op = .recv sock ∧ act = .received data := by
  constructor
  · intro h
    cases op with
    | recv =>
      cases act with
      | received => cases h; exact ⟨rfl, rfl⟩
      | accepted | moved | failed => cases h
    | accept | readv | writev => cases h
  · rintro ⟨rfl, rfl⟩
    rfl

/-- A read's result is the length of what it brings. -/
theorem perform_recv {sock : Int} (h : perform x (.recv sock) c act = some (c', res, ns)) :
    0 < res ↔ ∃ data, act = .received data ∧ data ≠ [] := by
  cases act with
  | received data =>
    simp only [perform] at h
    split at h
    · cases h
      simp [List.length_pos_iff]
    · cases h
  | failed err =>
    cases h
    have := Int.negSucc_lt_zero err
    refine ⟨fun h => by omega, ?_⟩
    rintro ⟨data, h, -⟩
    cases h
  | accepted | moved => cases h

theorem arrived_execute (h : Run (UringHttp.step fs) (start junk) es s)
    (hring : complete p res s.ring = some (q, ring)) (act : Act) (sock : Int) :
    (∀ data, q.op.got act = some (sock, data) → data ≠ [] →
      arrived fs junk (es ++ [.execute p act]) sock = arrived fs junk es sock ++ [data]) ∧
    ((∀ data, q.op.got act = some (sock, data) → data = []) →
      arrived fs junk (es ++ [.execute p act]) sock = arrived fs junk es sock) := by
  unfold arrived
  rw [received_execute h hring, List.map_append, onSock_append, List.filter_append]
  constructor
  · intro data hgot hne
    simp [hgot, onSock, hne]
  · intro hnone
    cases hgot : q.op.got act with
    | none => simp [onSock]
    | some d =>
      by_cases hd : d.1 = sock
      · have := hnone d.2 (by rw [hgot, ← hd])
        simp [onSock, this]
      · simp [onSock, hd]

/-- A read that is performed is pending, and no other is. -/
theorem InOrder.executed {sock : Int} (h : InOrder fs junk sock es s) {act : Act}
    {r : Context × Int × List Note} (conns : List Int) (hc : s.heap q.ctx = some c)
    (hr : perform q.ctx q.op c act = some r) (hring : complete p r.2.1 s.ring = some (q, ring))
    (hrun : s.running = true) (hst : UringHttp.step fs s (.execute p act) (s.record q.ctx r ring conns))
    (ht : Tokens (s.record q.ctx r ring conns)) :
    InOrder fs junk sock (es ++ [.execute p act]) (s.record q.ctx r ring conns) := by
  have htr := h.replied.traced
  have hview := view_executed htr.wellFormed conns hc hr hring
  obtain ⟨-, hold, hnew⟩ := hview q.ctx
  have hserved : served fs junk (es ++ [.execute p act]) = served fs junk es := by
    rw [h.replied.served_snoc (.execute p act) (by simp [handledRead])]
    exact List.append_nil _
  obtain ⟨hadd, hkeep⟩ := arrived_execute htr.run hring act sock
  have hnot : ¬(s.view q.ctx).Pending q.ctx sock := by
    rw [hold]
    exact not_pending_waiting
  by_cases hread : q.op = .recv sock ∧ 0 < r.2.1
  · obtain ⟨hop, hres⟩ := hread
    rw [hop] at hr
    obtain ⟨data, rfl, hne⟩ := (perform_recv hr).1 hres
    have hgot : q.op.got (.received data) = some (sock, data) := Op.got_recv.2 ⟨hop, rfl⟩
    -- no other context holds the connection
    have hnone : arrived fs junk es sock = onSock sock (served fs junk es) := by
      rcases h.pending hrun with ⟨x, _, hx, -⟩ | ⟨he, -⟩
      · refine absurd ?_ hnot
        have hholds : (s.view q.ctx).Holds sock := by
          rw [hold]
          exact holds_waiting.2 (.inl hop)
        rw [← h.tokens.unique _ _ sock (hx.holds (htr.wellFormed.alive x)) hholds]
        exact hx
      · exact he
    have hlook : (received fs junk es).lookup q.ctx = none := by
      have hrec := htr.receiving q.ctx
      have halive := htr.wellFormed.alive q.ctx
      rw [hold] at hrec halive
      obtain ⟨c₁, hv, -, hfits⟩ := halive.of_waiting List.mem_cons_self
      obtain rfl := Option.some.inj (congrArg View.ctx hv)
      rw [hop] at hfits
      exact hrec.eq_none hfits.1
    refine ⟨h.replied.step hst, ht, ?_, fun _ => .inl ⟨q.ctx, data, ?_, ?_, ?_⟩⟩
    · rw [hserved, hadd data hgot hne, hnone]
      exact List.prefix_append _ _
    · rw [hnew]
      exact pending_done.2 ⟨hop, hres⟩
    · rw [lookup_received htr.run hring, if_pos rfl, hlook, hgot]
      rfl
    · rw [hserved, hadd data hgot hne, hnone]
  · have hsame : arrived fs junk (es ++ [.execute p act]) sock = arrived fs junk es sock := by
      refine hkeep fun data hgot => ?_
      obtain ⟨hop, rfl⟩ := Op.got_recv.1 hgot
      by_contra hne
      refine hread ⟨hop, ?_⟩
      rw [hop] at hr
      exact (perform_recv hr).2 ⟨data, rfl, hne⟩
    refine ⟨h.replied.step hst, ht, ?_, fun _ => ?_⟩
    · rw [hserved, hsame]
      exact h.order
    · rw [hserved, hsame]
      refine (h.pending hrun).imp ?_ ?_
      · rintro ⟨x, data, hx, hd, he⟩
        have hne : x ≠ q.ctx := by
          rintro rfl
          exact hnot hx
        refine ⟨x, data, ?_, lookup_received_mono htr.run hd _, he⟩
        rwa [(hview x).1 hne]
      · rintro ⟨he, hnone⟩
        refine ⟨he, fun x hx => ?_⟩
        by_cases hxq : x = q.ctx
        · subst hxq
          rw [hnew] at hx
          exact hread (pending_done.1 hx)
        · rw [(hview x).1 hxq] at hx
          exact hnone x hx

/-- What a turn serves of a connection: the pending read, which is its context's. -/
theorem InOrder.turn {sock : Int} (h : InOrder fs junk sock es s) (hst : UringHttp.step fs s (.loop p a) t)
    (htake : take p s.ring = some ((q, res), ring)) (hc : s.heap q.ctx = some c) :
    ((s.view q.ctx).Pending q.ctx sock ∧ onSock sock (served fs junk (es ++ [.loop p a])) =
        arrived fs junk es sock) ∨
      ¬(s.view q.ctx).Pending q.ctx sock ∧ onSock sock (served fs junk (es ++ [.loop p a])) =
        onSock sock (served fs junk es) := by
  have htr := h.replied.traced
  have hrun : s.running = true := (step_cases hst).1
  obtain ⟨-, hold, hfits, -⟩ := view_taken htr.wellFormed htake hc q.ctx
  have hserved := h.replied.served_snoc (.loop p a) fun x hx => by
    obtain ⟨sock, data, hd, -⟩ := htr.turn hst hx
    exact ⟨_, hd⟩
  have hx : handledRead s (.loop p a) =
      if c.eventType = .readSock ∧ 0 < res then some q.ctx else none := by
    simp only [handledRead, getElem?_of_take htake, hc, Option.bind_some]
  rw [hserved, onSock_append]
  by_cases hread : c.eventType = .readSock ∧ 0 < res
  · rw [if_pos hread] at hx
    obtain ⟨hk, hres⟩ := hread
    have hop := hfits.eq_recv hk
    have hrec := htr.receiving q.ctx
    rw [hold] at hrec
    obtain ⟨sock', data, hd, rfl, -⟩ := hrec.eq_received hk hres
    rw [hx, Option.bind_some, hd]
    by_cases hsock : c.clientSocket = sock
    · subst hsock
      have hpend : (s.view q.ctx).Pending q.ctx c.clientSocket := by
        rw [hold]
        exact pending_done.2 ⟨hop, hres⟩
      refine .inl ⟨hpend, ?_⟩
      rcases h.pending hrun with ⟨x, data', hx', hd', he⟩ | ⟨-, hnone⟩
      · have hholds := hx'.holds (htr.wellFormed.alive x)
        obtain rfl := h.tokens.unique _ _ _ hholds (hpend.holds (htr.wellFormed.alive q.ctx))
        obtain rfl := (Prod.mk.inj (Option.some.inj (hd'.symm.trans hd))).2
        rw [he]
        simp [onSock]
      · exact absurd hpend (hnone q.ctx)
    · refine .inr ⟨?_, by simp [onSock, hsock]⟩
      rw [hold]
      intro hpend
      obtain ⟨hop', -⟩ := pending_done.1 hpend
      rw [hop] at hop'
      cases hop'
      exact hsock rfl
  · rw [if_neg hread] at hx
    refine .inr ⟨?_, by simp [hx, onSock]⟩
    rw [hold]
    intro hpend
    obtain ⟨hop, hres⟩ := pending_done.1 hpend
    rw [hop] at hfits
    exact hread ⟨hfits.1, hres⟩

theorem InOrder.looped {sock : Int} (h : InOrder fs junk sock es s)
    (hst : UringHttp.step fs s (.loop p a) t) (ht : Tokens t) :
    InOrder fs junk sock (es ++ [.loop p a]) t := by
  have htr := h.replied.traced
  have hsame : arrived fs junk (es ++ [.loop p a]) sock = arrived fs junk es sock := by
    unfold arrived
    rw [received_loop htr.run]
  obtain ⟨hrun, hst'⟩ := Option.ite_none_right_eq_some.1 hst
  obtain ⟨q, c, res, ring, htake, hc, hturn⟩ := serverLoop_eq hst'
  have hserved := h.turn hst htake hc
  refine ⟨h.replied.step hst, ht, ?_, fun hrun' => ?_⟩
  · rw [hsame]
    rcases hserved with ⟨-, he⟩ | ⟨-, he⟩
    · simp only [he, List.prefix_rfl]
    · rw [he]
      exact h.order
  · rw [hsame]
    rcases hturn with ⟨l, hh⟩ | ⟨-, rfl⟩
    · have hback : ∀ {y}, (t.view y).Pending y sock → y ≠ q.ctx ∧ (s.view y).Pending y sock := by
        intro y hy
        have hne : y ≠ q.ctx := by
          rintro rfl
          exact hh.not_pending htr.wellFormed htake hc sock hy
        exact ⟨hne, hh.pending htr.wellFormed htake hc hne hy⟩
      rcases hserved with ⟨hpend, he⟩ | ⟨hnot, he⟩
      · refine .inr ⟨he.symm, fun y hy => ?_⟩
        obtain ⟨hne, hy⟩ := hback hy
        exact hne (h.tokens.unique _ _ sock (hy.holds (htr.wellFormed.alive y))
          (hpend.holds (htr.wellFormed.alive q.ctx)))
      · rw [he]
        refine (h.pending hrun).imp ?_ ?_
        · rintro ⟨x, data, hx, hd, he⟩
          have hne : x ≠ q.ctx := by
            rintro rfl
            exact hnot hx
          have hlt : x < s.brk := by
            by_contra hle
            rw [htr.wellFormed.blank x (by omega)] at hx
            obtain ⟨_, hmem, -⟩ := hx
            cases hmem
          refine ⟨x, data, ?_, lookup_received_mono htr.run hd _, he⟩
          rwa [hh.view_old htr.wellFormed htake hc hlt hne]
        · rintro ⟨he, hnone⟩
          exact ⟨he, fun x hx => hnone x (hback hx).2⟩
    · exact absurd hrun' Bool.false_ne_true

/-- Where every response makes the server read once, reads are handled in the order in which
they arrive. -/
theorem run_inOrder {sock : Int} (h : Run (Under (UringHttp.step fs) (RearmsOnce fs)) (start junk) es s) :
    InOrder fs junk sock es s := by
  refine h.history (InOrder fs junk sock) (fun es u e v hu hst => ?_) ?_
  · have ht := step_tokens hu.replied.traced.wellFormed hu.tokens hst
    cases e with
    | execute p act =>
      obtain ⟨hrun, hst'⟩ := Option.ite_none_right_eq_some.1 hst.1
      obtain ⟨q, c, r, conns, ring, hc, hr, -, hring, rfl⟩ := execute_eq hst'
      exact hu.executed conns hc hr hring hrun hst.1 ht
    | loop p a => exact hu.looped hst.1 ht
  · refine ⟨run_replied (.nil _), start_tokens junk, List.nil_prefix, fun _ => .inr ⟨rfl, fun x => ?_⟩⟩
    rw [view_start]
    exact not_pending_spawned _ _ _ _

/-! ## The responses of a connection -/

theorem onSock_filterMap {α β : Type} (sock : Int) (f : α → Option β) (l : List (Int × α)) :
    onSock sock (l.filterMap fun d => (f d.2).map (d.1, ·)) = (onSock sock l).filterMap f := by
  induction l with
  | nil => rfl
  | cons d l ih =>
    unfold onSock at ih ⊢
    by_cases hd : d.1 = sock
    · cases hf : f d.2 <;> simp [hf, hd, ih]
    · cases hf : f d.2 <;> simp [hf, hd, ih]

/-- Keys that are looked up once each find different entries. -/
theorem subperm_lookup {α β : Type} [BEq α] [LawfulBEq α] {ks : List α} (hk : ks.Nodup) (l : List (α × β)) :
    (ks.filterMap (l.lookup ·)).Subperm (l.map Prod.snd) := by
  have hpairs : (ks.filterMap fun k => (l.lookup k).map (k, ·)).Subperm l := by
    refine List.Nodup.subperm (List.Nodup.filterMap (fun k k' b hb hb' => ?_) hk) fun b hb => ?_
    · obtain ⟨d, -, rfl⟩ := Option.map_eq_some_iff.1 hb
      obtain ⟨d', -, he⟩ := Option.map_eq_some_iff.1 hb'
      exact (Prod.mk.inj he).1.symm
    · obtain ⟨k, -, hb⟩ := List.mem_filterMap.1 hb
      obtain ⟨d, hd, rfl⟩ := Option.map_eq_some_iff.1 hb
      obtain ⟨l₁, l₂, rfl, -⟩ := List.lookup_eq_some_iff.1 hd
      simp
  have hmap : (ks.filterMap fun k => (l.lookup k).map (k, ·)).map Prod.snd = ks.filterMap (l.lookup ·) := by
    rw [List.map_filterMap]
    refine List.filterMap_congr fun k _ => ?_
    cases l.lookup k <;> rfl
  obtain ⟨l', hperm, hsub⟩ := hpairs
  rw [← hmap]
  exact ⟨l'.map Prod.snd, hperm.map _, hsub.map _⟩

theorem response_of_firstLine {d d' : List UInt8} (h : firstLine d = firstLine d') :
    response fs d = response fs d' := by
  unfold response handleClientRequest
  rw [show getLine (readBuffer d) lineSz = getLine (readBuffer d') lineSz from h]

theorem response_request {q : Request} (hw : q.WellFormed) (hf : q.Fits fs) :
    response fs q.bytes = some (respond fs q) := by
  unfold response
  rw [handleClientRequest_request hw hf]

theorem filterMap_response {qs : List Request} (hqs : ∀ q ∈ qs, q.WellFormed ∧ q.Fits fs) :
    (qs.map Request.bytes).filterMap (response fs) = qs.map (respond fs) := by
  induction qs with
  | nil => rfl
  | cons q qs ih =>
    obtain ⟨hw, hf⟩ := hqs q List.mem_cons_self
    rw [List.map_cons, List.filterMap_cons, response_request hw hf, List.map_cons,
      ih fun q' hq' => hqs q' (List.mem_cons_of_mem _ hq')]

theorem filterMap_response_congr {ds ds' : List (List UInt8)} (h : ds.map firstLine = ds'.map firstLine) :
    ds.filterMap (response fs) = ds'.filterMap (response fs) := by
  induction ds generalizing ds' with
  | nil => rw [List.map_eq_nil_iff.1 h.symm]
  | cons d ds ih =>
    cases ds' with
    | nil => cases h
    | cons d' ds' =>
      obtain ⟨h1, h2⟩ := List.cons.inj h
      rw [List.filterMap_cons, List.filterMap_cons, response_of_firstLine h1, ih h2]

/-- **One response a read.**  In every run each read that is handled is one that arrived, in
the order of arrival where every response makes the server read once.  The responses on a
connection are those to its handled reads, in their order: one each, where each is one
request, and none of these stops the server.  Runs whose handled reads have the same first
lines have the same responses. -/
theorem responses_of_reads (h : Run (UringHttp.step fs) (start junk) es s) (sock : Int) :
    onSock sock (responses fs junk es) = (onSock sock (served fs junk es)).filterMap (response fs) ∧
    (served fs junk es).Subperm ((received fs junk es).map Prod.snd) ∧
    (Run (Under (UringHttp.step fs) (RearmsOnce fs)) (start junk) es s →
      onSock sock (served fs junk es) <+: arrived fs junk es sock) ∧
    (∀ qs : List Request, (∀ q ∈ qs, q.WellFormed ∧ q.Fits fs) →
      onSock sock (served fs junk es) = qs.map Request.bytes →
      onSock sock (responses fs junk es) = qs.map (respond fs)) ∧
    (∀ junk' es' s' sock', Run (UringHttp.step fs) (start junk') es' s' →
      (onSock sock (served fs junk es)).map firstLine = (onSock sock' (served fs junk' es')).map firstLine →
      onSock sock (responses fs junk es) = onSock sock' (responses fs junk' es')) ∧
    ∀ e t x q, UringHttp.step fs s e t → handledRead s e = some x →
      (received fs junk es).lookup x = some (sock, q.bytes) → q.WellFormed → q.Fits fs →
      answered fs s e = some (sock, respond fs q) ∧ t.running = true := by
  have hon : ∀ {junk es s} (sock : Int), Run (UringHttp.step fs) (start junk) es s →
      onSock sock (responses fs junk es) = (onSock sock (served fs junk es)).filterMap (response fs) := by
    intro junk es s sock h
    rw [(run_replied h).replies, onSock_filterMap]
  refine ⟨hon sock h, subperm_lookup (run_replied h).nodup _, fun hu => (run_inOrder hu).order,
    fun qs hqs hserved => ?_,
    fun junk' es' s' sock' h' hlines => ?_, fun e t x q hst hx hd hw hf => ?_⟩
  · rw [hon sock h, hserved]
    exact filterMap_response hqs
  · rw [hon sock h, hon sock' h']
    exact filterMap_response_congr hlines
  · obtain ⟨sock', data, hd', hans, -, -, hrun⟩ := (run_traced h).turn hst hx
    obtain ⟨rfl, rfl⟩ := Prod.mk.inj (Option.some.inj (hd'.symm.trans hd))
    rw [response_request hw hf] at hans hrun
    exact ⟨hans, hrun (by simp)⟩

/-- Two requests to a server with one file: the client is read again behind the file. -/
theorem responses_of_two : ∃ s, Run (UringHttp.step oneFile) (start zeroed)
      (request "GET /a" ++ [.loop 0 ⟨zeroed, zeroed, 5⟩, .execute 1 (.moved 80), .execute 1 (.moved 1),
        .loop 1 ⟨zeroed, zeroed, 5⟩, .execute 1 (.moved 1), .loop 1 ⟨zeroed, zeroed, 5⟩,
        .execute 1 (.received (ascii "PUT /a HTTP/1.1\r\n\r\n")), .loop 1 ⟨zeroed, zeroed, 5⟩]) s ∧
    onSock 4 (responses oneFile zeroed
      (request "GET /a" ++ [.loop 0 ⟨zeroed, zeroed, 5⟩, .execute 1 (.moved 80), .execute 1 (.moved 1),
        .loop 1 ⟨zeroed, zeroed, 5⟩, .execute 1 (.moved 1), .loop 1 ⟨zeroed, zeroed, 5⟩,
        .execute 1 (.received (ascii "PUT /a HTTP/1.1\r\n\r\n")), .loop 1 ⟨zeroed, zeroed, 5⟩])) =
      [.file (ascii "public/a") ⟨true, true, [65]⟩, .unimplemented] := by
  let get : Request := ⟨ascii "GET", ascii "/a", ascii "HTTP/1.1", []⟩
  let put : Request := ⟨ascii "PUT", ascii "/a", ascii "HTTP/1.1", []⟩
  have hfile : oneFile (finalPath (ascii "/a")) = some ⟨true, true, [65]⟩ := by decide +kernel
  have hget : get.WellFormed ∧ get.Fits oneFile := by
    refine ⟨⟨⟨by decide, by decide +kernel⟩, ⟨by decide, by decide +kernel⟩, by decide +kernel⟩,
      by decide +kernel, by decide +kernel, fun _ => by decide +kernel, fun _ f hf _ => ?_⟩
    obtain rfl := Option.some.inj (hfile.symm.trans hf)
    decide
  have hput : put.WellFormed ∧ put.Fits oneFile :=
    ⟨⟨⟨by decide, by decide +kernel⟩, ⟨by decide, by decide +kernel⟩, by decide +kernel⟩,
      by decide +kernel, by decide +kernel, fun h => absurd h (by decide +kernel),
      fun h => absurd h (by decide +kernel)⟩
  obtain ⟨s, hs, -⟩ := run_of_exec_map (stepFn oneFile) (start zeroed)
    (request "GET /a" ++ [.loop 0 ⟨zeroed, zeroed, 5⟩, .execute 1 (.moved 80), .execute 1 (.moved 1),
      .loop 1 ⟨zeroed, zeroed, 5⟩, .execute 1 (.moved 1), .loop 1 ⟨zeroed, zeroed, 5⟩,
      .execute 1 (.received (ascii "PUT /a HTTP/1.1\r\n\r\n")), .loop 1 ⟨zeroed, zeroed, 5⟩])
    Srv.running (a := true) (by decide +kernel)
  refine ⟨s, hs, ?_⟩
  rw [(responses_of_reads hs 4).2.2.2.1 [get, put] (by simp [hget, hput]) (by decide +kernel)]
  decide +kernel

/-- A request that arrives in two reads, the first of one byte: the turn that handles this
stops the server. -/
theorem cut_stops : ¬ ∀ (fs : Fs) (qs : List Request) (rs rs' : List (List UInt8)) (junk junk' : Context)
    (es es' : List Event) (s s' : Srv) (sock sock' : Int), (∀ q ∈ qs, q.WellFormed) →
    rs.flatten = qs.flatMap Request.bytes → rs'.flatten = rs.flatten →
    (∀ r ∈ rs, r ≠ [] ∧ r.length ≤ readSz) → (∀ r ∈ rs', r ≠ [] ∧ r.length ≤ readSz) →
    Run (UringHttp.step fs) (start junk) es s → Run (UringHttp.step fs) (start junk') es' s' →
    (onSock sock (served fs junk es) = rs → onSock sock' (served fs junk' es') = rs' →
      onSock sock (responses fs junk es) = onSock sock' (responses fs junk' es') ∧
        (onSock sock (responses fs junk es)).length = qs.length) ∧
    ∀ e t x d, UringHttp.step fs s e t → handledRead s e = some x →
      (received fs junk es).lookup x = some (sock, d) → onSock sock (served fs junk es) ++ [d] <+: rs →
      t.running = true := by
  intro h
  let q : Request := ⟨ascii "GET", ascii "/", ascii "HTTP/1.1", []⟩
  have hq : q.WellFormed :=
    ⟨⟨by decide, by decide +kernel⟩, ⟨by decide, by decide +kernel⟩, by decide +kernel⟩
  let es : List Event := [.execute 0 (.accepted 4), .loop 0 ⟨zeroed, zeroed, 5⟩, .execute 1 (.received [71])]
  let turn : Event := .loop 0 ⟨zeroed, zeroed, 5⟩
  obtain ⟨s, hs, hx⟩ := run_of_exec_map (stepFn oneFile) (start zeroed) es (handledRead · turn)
    (a := some 2) (by decide +kernel)
  obtain ⟨t, ht, hstop⟩ := run_of_exec_map (stepFn oneFile) (start zeroed) (es ++ [turn]) Srv.running
    (a := false) (by decide +kernel)
  obtain ⟨s', hs', hst⟩ := run_snoc_iff.1 ht
  obtain rfl : s = s' := hs.unique (fun _ _ _ _ h h' => Option.some.inj (h.symm.trans h')) hs'
  have hrun := (h oneFile [q] [[71], q.bytes.drop 1] [q.bytes] zeroed zeroed es es s s 4 4 (by simpa using hq)
    (by decide +kernel) (by decide +kernel) (by decide +kernel) (by decide +kernel) hs hs).2 turn t 2 [71]
    hst hx (by decide +kernel) (by decide +kernel)
  rw [hstop] at hrun
  cases hrun

end

end CPrograms.UringHttp
