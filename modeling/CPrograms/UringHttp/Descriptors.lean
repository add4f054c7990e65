import CPrograms.Lib.Custody
import CPrograms.UringHttp.Lives
import CPrograms.UringHttp.Sendfile

/-!
# Whose descriptor a completed write closes

In the `SENDFILE` build only the response with a file sets `path_fd`; a static answer keeps what
`malloc` gave it, and a file that does not open sets it to -1.  The write of either calls `close`
on a descriptor that was not opened for it.  As long as no such write completes, each request
outstanding stands for its descriptors, a connection or a connection and a file, and no descriptor
for two requests (`Accounts`); so what is closed is the response's own file, once
(`owned_iff`).
-/

namespace CPrograms.UringHttp.Sendfile

open Uring Runs Custody

/-! ## Requests and their descriptors -/

/-- The context of a request, with the response that it was made for. -/
inductive Serves : Option Reply → Context → Op → Prop
  | accept {c} : c.eventType = .accept → Serves none c .accept
  | recv {c} : c.eventType = .readSock → Serves none c (.recv c.clientSocket)
  | writev {r c n} : c.eventType = .write → (∀ fd, r = some (.file fd) → c.pathFd = fd) →
      Serves r c (.writev c.clientSocket n)

def fileClaim (x : Nat) : Option Reply → List (Int × Owner)
  | some (.file fd) => if 0 ≤ fd then [(fd, .file x)] else []
  | _ => []

/-- The descriptors that a request and its result stand for. -/
def claims (r : Option Reply) (q : Req) (res : Option Int) : List (Int × Owner) :=
  match q.op with
  | .accept => (res.toList.filter (0 ≤ ·)).map (·, .client)
  | .recv sock => [(sock, .client)]
  | .readv _ _ => []
  | .writev sock _ => (sock, .client) :: fileClaim q.ctx r

def Srv.claimed (s : Srv) (l : List (Req × Option Int)) : List (Int × Owner) :=
  l.flatMap fun d => claims (s.replies d.1.ctx) d.1 d.2

/-- The requests `l` account for the open connections and files. -/
structure Accounts (s : Srv) (l : List (Req × Option Int)) : Prop where
  serves : ∀ d ∈ l, d.1.ctx < s.brk ∧ ∃ c, s.heap d.1.ctx = some c ∧ Serves (s.replies d.1.ctx) c d.1.op
  single : (l.map (·.1.ctx)).Nodup
  backed : Backed s.fds (s.claimed l)
  once : ∀ x, s.uses.countP (Use.closesFile x) = if s.Opened x ∧ x ∉ l.map (·.1.ctx) then 1 else 0

/-- A descriptor that was opened for a response is that response's. -/
structure Tracked (s : Srv) : Prop where
  below : ∀ x r, s.replies x = some r → x < s.brk
  files : ∀ fd x, s.fds fd = some (.file x) → s.replies x = some (.file fd) ∧ 0 ≤ fd

section
variable {s t : Srv} {x : Nat} {r : Option Reply} {c : Context} {op : Op} {q : Req}
  {l l' : List (Req × Option Int)}

theorem Serves.of_accept (h : Serves r c op) (hc : c.eventType = .accept) : r = none ∧ op = .accept := by
  cases h with
  | accept => exact ⟨rfl, rfl⟩
  | recv h | writev h => cases h.symm.trans hc

theorem Serves.of_readSock (h : Serves r c op) (hc : c.eventType = .readSock) :
    r = none ∧ op = .recv c.clientSocket := by
  cases h with
  | recv => exact ⟨rfl, rfl⟩
  | accept h | writev h => cases h.symm.trans hc

theorem Serves.ne_readFile (h : Serves r c op) : c.eventType ≠ .readFile := by
  intro hc
  cases h with
  | accept h | recv h | writev h => cases h.symm.trans hc

theorem Serves.of_write (h : Serves r c op) (hc : c.eventType = .write) :
    (∃ n, op = .writev c.clientSocket n) ∧ ∀ fd, r = some (.file fd) → c.pathFd = fd := by
  cases h with
  | writev _ hfd => exact ⟨⟨_, rfl⟩, hfd⟩
  | accept h | recv h => cases h.symm.trans hc

theorem opened_iff : s.Opened x ↔ ∃ fd, s.replies x = some (.file fd) ∧ 0 ≤ fd := by
  constructor
  · rintro ⟨r, hr, ho⟩
    cases r with
    | static => cases ho
    | file fd => exact ⟨fd, hr, ho⟩
  · rintro ⟨fd, hr, ho⟩
    exact ⟨.file fd, hr, ho⟩

theorem not_opened_of_none (h : s.replies x = none) : ¬s.Opened x := by
  rw [opened_iff, h]
  rintro ⟨fd, hr, -⟩
  cases hr

theorem opened_congr (h : t.replies x = s.replies x) : t.Opened x ↔ s.Opened x := by
  unfold Srv.Opened
  rw [h]

theorem Tracked.fresh (h : Tracked s) : s.replies s.brk = none := by
  cases hs : s.replies s.brk with
  | none => rfl
  | some r => exact absurd (h.below _ _ hs) (Nat.lt_irrefl _)

theorem claimed_congr (h : ∀ d ∈ l, t.replies d.1.ctx = s.replies d.1.ctx) : t.claimed l = s.claimed l := by
  unfold Srv.claimed
  refine List.flatMap_congr fun d hd => ?_
  rw [h d hd]

theorem claimed_cons (s : Srv) (q : Req) (res : Option Int) (l : List (Req × Option Int)) :
    s.claimed ((q, res) :: l) = claims (s.replies q.ctx) q res ++ s.claimed l := rfl

theorem claims_accept {res : Int} (h : q.op = .accept) (hres : 0 ≤ res) :
    claims r q (some res) = [(res, .client)] := by
  unfold claims
  rw [h]
  simp [hres]

theorem claims_recv {sock : Int} (h : q.op = .recv sock) (res : Option Int) :
    claims r q res = [(sock, .client)] := by
  unfold claims
  rw [h]

theorem claims_writev {sock : Int} {n : Nat} (h : q.op = .writev sock n) (res : Option Int) :
    claims r q res = (sock, .client) :: fileClaim q.ctx r := by
  unfold claims
  rw [h]

/-! ## Accounts -/

theorem Accounts.perm (h : Accounts s l) (hp : l.Perm l') : Accounts s l' := by
  constructor
  · intro d hd
    exact h.serves d (hp.mem_iff.2 hd)
  · exact (hp.map _).nodup_iff.1 h.single
  · exact h.backed.perm (hp.flatMap_right _)
  · intro x
    rw [h.once x]
    simp only [(hp.map _).mem_iff]

theorem Accounts.notMem {res : Option Int} (h : Accounts s ((q, res) :: l)) : q.ctx ∉ l.map (·.1.ctx) :=
  (List.nodup_cons.1 h.single).1

/-- A request that opened no file may go; its connection is left. -/
theorem Accounts.taken {res : Option Int} (h : Accounts s ((q, res) :: l)) (ho : ¬s.Opened q.ctx) :
    Accounts s l := by
  constructor
  · intro d hd
    exact h.serves d (List.mem_cons_of_mem _ hd)
  · exact (List.nodup_cons.1 h.single).2
  · exact h.backed.sublist (List.sublist_append_right _ _)
  · intro x
    rw [h.once x]
    refine if_congr (and_congr_right fun hx => not_congr ?_) rfl rfl
    rw [List.map_cons, List.mem_cons, or_iff_right]
    rintro rfl
    exact ho hx

/-- A new context, with its request and what it stands for. -/
theorem Accounts.spawned (h : Accounts s l) (ht : Tracked s) (hbrk : t.brk = s.brk + 1)
    (hheap : t.heap = Function.update s.heap s.brk (some c))
    (hreplies : t.replies = Function.update s.replies s.brk r) (huses : t.uses = s.uses)
    (hop : Serves r c op) (hb : Backed t.fds (claims r ⟨s.brk, op⟩ none ++ s.claimed l)) :
    Accounts t ((⟨s.brk, op⟩, none) :: l) := by
  have hne : ∀ d ∈ l, d.1.ctx ≠ s.brk := fun d hd => Nat.ne_of_lt (h.serves d hd).1
  have hself : t.replies s.brk = r := by rw [hreplies, Function.update_self]
  have hold : ∀ x, x ≠ s.brk → t.replies x = s.replies x := by
    intro x hx
    rw [hreplies, Function.update_of_ne hx]
  constructor
  · intro d hd
    rcases List.mem_cons.1 hd with rfl | hd
    · refine ⟨by rw [hbrk]; exact Nat.lt_succ_self _, c, by rw [hheap, Function.update_self], ?_⟩
      rw [hself]
      exact hop
    · obtain ⟨hlt, c', hc', hs⟩ := h.serves d hd
      refine ⟨by omega, c', ?_, ?_⟩
      · rw [hheap, Function.update_of_ne (hne d hd), hc']
      · rw [hold _ (hne d hd)]
        exact hs
  · rw [List.map_cons, List.nodup_cons]
    refine ⟨fun hmem => ?_, h.single⟩
    obtain ⟨d, hd, he⟩ := List.mem_map.1 hmem
    exact hne d hd he
  · have hclaimed : t.claimed ((⟨s.brk, op⟩, none) :: l) = claims r ⟨s.brk, op⟩ none ++ s.claimed l := by
      rw [← claimed_congr (t := t) fun d hd => hold _ (hne d hd)]
      unfold Srv.claimed
      rw [List.flatMap_cons, hself]
    rw [hclaimed]
    exact hb
  · intro x
    rw [huses, h.once x]
    refine if_congr ?_ rfl rfl
    by_cases hx : x = s.brk
    · rw [hx]
      simp [not_opened_of_none ht.fresh]
    · rw [opened_congr (hold x hx)]
      simp [hx]

theorem Accounts.freed (h : Accounts s l) (hx : x ∉ l.map (·.1.ctx)) : Accounts (s.common (·.free x)) l := by
  constructor
  · intro d hd
    obtain ⟨hlt, c, hc, hs⟩ := h.serves d hd
    have hne : d.1.ctx ≠ x := by
      intro he
      exact hx (List.mem_map.2 ⟨d, hd, he⟩)
    refine ⟨hlt, c, ?_, hs⟩
    show Function.update s.heap x none d.1.ctx = some c
    rw [Function.update_of_ne hne, hc]
  · exact h.single
  · exact h.backed
  · exact h.once

/-- What is left of a completed write of a file: the connection. -/
theorem Accounts.closedFile {res : Option Int} {sock fd : Int} {n : Nat} (h : Accounts s ((q, res) :: l))
    (hop : q.op = .writev sock n) (hr : s.replies q.ctx = some (.file fd)) (hfd : 0 ≤ fd)
    (ht : t = (s.sendfile q.ctx fd).close .write q.ctx fd) :
    Accounts t l ∧ Backed t.fds ((sock, .client) :: t.claimed l) ∧ s.fds fd = some (.file q.ctx) := by
  have hfile : fileClaim q.ctx (some (.file fd)) = [(fd, .file q.ctx)] := if_pos hfd
  have hb := h.backed
  rw [claimed_cons, claims_writev hop, hr, hfile] at hb
  have hb := hb.perm (List.Perm.swap _ _ _)
  have howner := hb.owner
  have huses : t.uses = s.uses ++ [.sendfile q.ctx fd (s.fileSize q.ctx) (s.fds fd)] ++
      [.close .write q.ctx fd (s.fds fd)] := by
    rw [ht]
    rfl
  subst ht
  refine ⟨?_, hb.release, howner⟩
  constructor
  · intro d hd
    exact h.serves d (List.mem_cons_of_mem _ hd)
  · exact (List.nodup_cons.1 h.single).2
  · exact hb.release.sublist (List.sublist_cons_self _ _)
  · intro x
    have hold := h.once x
    rw [huses, List.countP_append, List.countP_append, hold, howner, List.countP_singleton, List.countP_singleton]
    by_cases hx : x = q.ctx
    · subst hx
      have hopened : s.Opened q.ctx := opened_iff.2 ⟨fd, hr, hfd⟩
      have hopened' : ((s.sendfile q.ctx fd).close .write q.ctx fd).Opened q.ctx := hopened
      simp [Use.closesFile, hopened', h.notMem]
    · have hne : q.ctx ≠ x := Ne.symm hx
      simp only [Use.closesFile, List.map_cons, List.mem_cons, hx, false_or, Option.some.injEq, Owner.file.injEq,
        hne, decide_false, Bool.false_eq_true, if_false, Nat.add_zero]
      rfl

/-- The end of a connection takes its descriptor only. -/
theorem Accounts.hungUp {res : Option Int} {sock : Int} (h : Accounts s ((q, res) :: l))
    (hop : q.op = .recv sock) (ho : ¬s.Opened q.ctx) : Accounts (s.close .readSock q.ctx sock) l := by
  have hb := h.backed
  rw [claimed_cons, claims_recv hop] at hb
  have hrest := h.taken ho
  constructor
  · exact hrest.serves
  · exact hrest.single
  · exact hb.release
  · intro x
    show (s.uses ++ [Use.close .readSock q.ctx sock (s.fds sock)]).countP _ = _
    rw [List.countP_append, List.countP_singleton, hb.owner]
    exact hrest.once x

/-! ## Answers -/

/-- What an answer does: one context with its write, and a file if one was opened. -/
structure Replied (sock : Int) (rep : Reply) (s t : Srv) : Prop where
  brk : t.brk = s.brk + 1
  ctx : ∃ c n, t.heap = Function.update s.heap s.brk (some c) ∧ Serves (some rep) c (.writev sock n) ∧
    t.ring = enqueue ⟨s.brk, .writev sock n⟩ s.ring
  replies : t.replies = Function.update s.replies s.brk (some rep)
  uses : t.uses = s.uses
  fds : (¬rep.Opened ∧ t.fds = s.fds) ∨
    ∃ fd, rep = .file fd ∧ 0 ≤ fd ∧ s.fds fd = none ∧ t.fds = Function.update s.fds fd (some (.file s.brk))

theorem replied_static (str : List UInt8) (junk : Context) (sock : Int) (s : Srv) :
    Replied sock .static s (s.sendStaticStringContent str junk sock) := by
  unfold Srv.sendStaticStringContent Srv.common
  dsimp only
  rw [sendStaticStringContent_eq]
  constructor
  · rfl
  · exact ⟨staticCtx str junk sock, 1, rfl, .writev rfl nofun, rfl⟩
  · rfl
  · rfl
  · exact .inl ⟨not_false, rfl⟩

theorem answer_replied {a : Answers} (ha : a.Legal s) (sock : Int) (r : Response) :
    ∃ rep, Replied sock rep s (s.answer a sock r) := by
  cases r with
  | unimplemented => exact ⟨.static, replied_static _ _ _ _⟩
  | notFound => exact ⟨.static, replied_static _ _ _ _⟩
  | file path f =>
    have hfd : ∀ fd, fd = (if f.opens then a.fd else -1) → fd < 0 ∨ 0 ≤ fd ∧ s.fds fd = none := by
      rintro fd rfl
      split
      · exact ha.imp_left fun h => by omega
      · exact .inl (by decide)
    show ∃ rep, Replied sock rep s (s.sendFile path f a sock)
    unfold Srv.sendFile
    dsimp only
    generalize (if f.opens then a.fd else -1) = fd at hfd
    refine ⟨.file fd, ?_⟩
    unfold Srv.common
    dsimp only
    rw [addWriteRequest_malloc]
    constructor
    · rfl
    · refine ⟨{ headerCtx path f.content.length a.first sock with pathFd := fd }, 5, ?_, ?_, rfl⟩
      · show Function.update (Function.update s.heap s.brk (some _)) s.brk
          ((Function.update s.heap s.brk (some _) s.brk).map _) = _
        rw [Function.update_idem, Function.update_self]
        rfl
      · refine .writev rfl fun fd' he => ?_
        exact Reply.file.inj (Option.some.inj he)
    · rfl
    · rfl
    · rcases hfd fd rfl with hneg | ⟨hpos, hnone⟩
      · refine .inl ⟨fun h => absurd hneg (Int.not_lt.2 h), if_pos hneg⟩
      · exact .inr ⟨fd, rfl, hpos, hnone, if_neg (Int.not_lt.2 hpos)⟩

/-- The write of an answer stands for the connection and the file. -/
theorem Accounts.replied {sock : Int} {rep : Reply} (h : Accounts s l) (ht : Tracked s)
    (hb : Backed s.fds ((sock, .client) :: s.claimed l)) (hr : Replied sock rep s t) :
    ∃ n, t.ring = enqueue ⟨s.brk, .writev sock n⟩ s.ring ∧ Accounts t ((⟨s.brk, .writev sock n⟩, none) :: l) := by
  obtain ⟨c, n, hheap, hserves, hring⟩ := hr.ctx
  refine ⟨n, hring, h.spawned ht hr.brk hheap hr.replies hr.uses hserves ?_⟩
  show Backed t.fds ((sock, .client) :: fileClaim s.brk (some rep) ++ s.claimed l)
  rcases hr.fds with ⟨hclosed, hfds⟩ | ⟨fd, rfl, hpos, hnone, hfds⟩
  · have hclaim : fileClaim s.brk (some rep) = [] := by
      cases rep with
      | static => rfl
      | file fd => exact if_neg hclosed
    rw [hfds, hclaim]
    exact hb
  · have hclaim : fileClaim s.brk (some (.file fd)) = [(fd, .file s.brk)] := if_pos hpos
    rw [hfds, hclaim]
    exact (hb.grant hnone).perm (List.Perm.swap _ _ _)

theorem Accounts.spawn (h : Accounts s l) (ht : Tracked s) (hop : Serves none c op)
    (hb : Backed s.fds (claims none ⟨s.brk, op⟩ none ++ s.claimed l)) :
    Accounts (s.common (·.spawn c op)) ((⟨s.brk, op⟩, none) :: l) := by
  refine h.spawned ht rfl rfl ?_ rfl hop hb
  rw [← ht.fresh]
  exact (Function.update_eq_self _ _).symm

/-! ## Which responses have files open -/

theorem Tracked.congr (h : Tracked s) (hbrk : s.brk ≤ t.brk) (hr : t.replies = s.replies)
    (hfds : ∀ fd x, t.fds fd = some (.file x) → s.fds fd = some (.file x)) : Tracked t := by
  constructor
  · intro x r hx
    rw [hr] at hx
    have := h.below x r hx
    omega
  · intro fd x hx
    rw [hr]
    exact h.files fd x (hfds fd x hx)

theorem Tracked.spawn (h : Tracked s) (c : Context) (op : Op) : Tracked (s.common (·.spawn c op)) :=
  h.congr (Nat.le_succ _) rfl fun _ _ hx => hx

theorem Tracked.free (h : Tracked s) (x : Nat) : Tracked (s.common (·.free x)) :=
  h.congr (Nat.le_refl _) rfl fun _ _ hx => hx

theorem Tracked.close (h : Tracked s) (handler : EventType) (x : Nat) (fd : Int) :
    Tracked (s.close handler x fd) := by
  refine h.congr (Nat.le_refl _) rfl fun fd' y hy => ?_
  change Function.update s.fds fd none fd' = some (.file y) at hy
  by_cases he : fd' = fd
  · rw [he, Function.update_self] at hy
    cases hy
  · rwa [Function.update_of_ne he] at hy

theorem Tracked.replied {sock : Int} {rep : Reply} (h : Tracked s) (hr : Replied sock rep s t) : Tracked t := by
  constructor
  · intro x r hx
    rw [hr.brk]
    rw [hr.replies] at hx
    by_cases he : x = s.brk
    · omega
    · rw [Function.update_of_ne he] at hx
      have := h.below x r hx
      omega
  · intro fd x hx
    have hold : s.fds fd = some (.file x) → t.replies x = some (.file fd) ∧ 0 ≤ fd := by
      intro hs
      obtain ⟨h1, h2⟩ := h.files fd x hs
      have hlt := h.below x _ h1
      rw [hr.replies, Function.update_of_ne (by omega)]
      exact ⟨h1, h2⟩
    rcases hr.fds with ⟨-, hfds⟩ | ⟨fd', rfl, hpos, -, hfds⟩
    · rw [hfds] at hx
      exact hold hx
    · rw [hfds] at hx
      by_cases he : fd = fd'
      · subst he
        rw [Function.update_self] at hx
        cases hx
        rw [hr.replies, Function.update_self]
        exact ⟨rfl, hpos⟩
      · rw [Function.update_of_ne he] at hx
        exact hold hx

/-! ## Steps -/

variable {fs : Fs} {a : Answers} {res : Int} {e : Event} {es : List Event}

theorem Tracked.finished (ht : Tracked s) (x : Nat) (fd : Int) :
    Tracked ((s.sendfile x fd).close .write x fd) := by
  have hsend : Tracked (s.sendfile x fd) := ht.congr (Nat.le_refl _) rfl fun _ _ hx => hx
  exact hsend.close _ _ _

theorem handled_tracked (ht : Tracked s) (ha : a.Legal s) (h : Handled fs a x c res s t) :
    Tracked t ∧ s.uses ⊆ t.uses := by
  cases h with
  | accepted => exact ⟨((ht.spawn _ _).spawn _ _).free x, List.Subset.refl _⟩
  | hungUp => exact ⟨(ht.close _ _ _).free x, List.subset_append_left _ _⟩
  | answered r =>
    obtain ⟨rep, hr⟩ := answer_replied ha c.clientSocket r
    refine ⟨(ht.replied hr).free x, ?_⟩
    show s.uses ⊆ (s.answer a c.clientSocket r).uses
    rw [hr.uses]
    exact List.Subset.refl _
  | readFile _ hu =>
    rcases hu with rfl | rfl
    · exact ⟨ht.close _ _ _, List.subset_append_left _ _⟩
    · have hwrite : Tracked (s.common (·.addWriteRequest x c)) := ht.congr (Nat.le_refl _) rfl fun _ _ hx => hx
      exact ⟨hwrite.close _ _ _, List.subset_append_left _ _⟩
  | rearmed =>
    refine ⟨((ht.finished _ _).spawn _ _).free x, ?_⟩
    exact List.Subset.trans (List.subset_append_left _ _) (List.subset_append_left _ _)
  | written =>
    refine ⟨(ht.finished _ _).free x, ?_⟩
    exact List.Subset.trans (List.subset_append_left _ _) (List.subset_append_left _ _)

/-- The calls of a completed write whose response has a file. -/
theorem Accounts.finished (h : Accounts s ((q, some res) :: l)) (hserves : Serves (s.replies q.ctx) c q.op)
    (hk : c.eventType = .write) (ho : s.Opened q.ctx)
    (ht : t = (s.sendfile q.ctx c.pathFd).close .write q.ctx c.pathFd) :
    Accounts t l ∧ Backed t.fds ((c.clientSocket, .client) :: t.claimed l) ∧
      ∀ u ∈ t.uses, u ∈ s.uses ∨ u.Proper := by
  obtain ⟨fd, hr, hpos⟩ := opened_iff.1 ho
  obtain ⟨⟨n, hop⟩, hpath⟩ := hserves.of_write hk
  obtain rfl := hpath fd hr
  obtain ⟨h1, hb, howner⟩ := h.closedFile hop hr hpos ht
  refine ⟨h1, hb, fun u hu => ?_⟩
  rw [ht] at hu
  rcases List.mem_append.1 hu with hu | hu
  · rcases List.mem_append.1 hu with hu | hu
    · exact .inl hu
    · obtain rfl := List.mem_singleton.1 hu
      exact .inr howner
  · obtain rfl := List.mem_singleton.1 hu
    exact .inr howner

/-- What a turn leaves, if the write that it finishes has a file. -/
theorem handled_accounts (ht : Tracked s) (h : Accounts s ((q, some res) :: entries s.ring))
    (hc : s.heap q.ctx = some c) (ha : a.Legal s) (hw : c.eventType = .write → 0 ≤ res → s.Opened q.ctx)
    (hh : Handled fs a q.ctx c res s t) :
    Accounts t (entries t.ring) ∧ ∀ u ∈ t.uses, u ∈ s.uses ∨ u.Proper := by
  obtain ⟨hlt, c', hc', hserves⟩ := h.serves _ List.mem_cons_self
  obtain rfl : c' = c := by
    rw [hc] at hc'
    exact (Option.some.inj hc').symm
  have hgone := h.notMem
  have hnew : ∀ k op (l' : List (Req × Option Int)), s.brk ≤ k → q.ctx ∉ l'.map (·.1.ctx) →
      q.ctx ∉ ((⟨k, op⟩, none) :: l').map (·.1.ctx) := by
    intro k op l' hk hl' hmem
    rcases List.mem_cons.1 hmem with he | hmem
    · have he : q.ctx = k := he
      have hlt : q.ctx < s.brk := hlt
      omega
    · exact hl' hmem
  have hb := h.backed
  rw [claimed_cons] at hb
  cases hh with
  | accepted hk hres =>
    obtain ⟨hr, hop⟩ := hserves.of_accept hk
    rw [claims_accept hop hres] at hb
    have hrest := h.taken (not_opened_of_none hr)
    have h1 := hrest.spawn (c := { a.first with eventType := .accept }) ht (.accept rfl) hrest.backed
    have h2 := h1.spawn (c := readCtx a.second res) (ht.spawn _ _) (.recv rfl) hb
    refine ⟨(h2.freed ?_).perm ?_, fun u hu => .inl hu⟩
    · exact hnew (s.brk + 1) _ _ (Nat.le_succ _) (hnew s.brk _ _ (Nat.le_refl _) hgone)
    · exact ((entries_enqueue _ _).trans ((entries_enqueue _ _).cons _)).symm
  | hungUp hk hres =>
    obtain ⟨hr, hop⟩ := hserves.of_readSock hk
    refine ⟨(h.hungUp hop (not_opened_of_none hr)).freed hgone, fun u hu => ?_⟩
    rcases List.mem_append.1 hu with hu | hu
    · exact .inl hu
    · obtain rfl := List.mem_singleton.1 hu
      exact .inr trivial
  | answered r hk hres =>
    obtain ⟨hr, hop⟩ := hserves.of_readSock hk
    rw [claims_recv hop] at hb
    obtain ⟨rep, hrep⟩ := answer_replied ha c'.clientSocket r
    obtain ⟨n, hring, h1⟩ := (h.taken (not_opened_of_none hr)).replied ht hb hrep
    refine ⟨(h1.freed (hnew _ _ _ (Nat.le_refl _) hgone)).perm ?_, fun u hu => .inl ?_⟩
    · show List.Perm _ (entries (s.answer a c'.clientSocket r).ring)
      rw [hring]
      exact (entries_enqueue _ _).symm
    · rw [← hrep.uses]
      exact hu
  | readFile hk => exact absurd hk hserves.ne_readFile
  | rearmed hk hres hfd =>
    obtain ⟨h1, hb, hproper⟩ := h.finished hserves hk (hw hk hres) rfl
    have h2 := h1.spawn (c := readCtx a.first c'.clientSocket) (ht.finished _ _) (.recv rfl) hb
    exact ⟨(h2.freed (hnew _ _ _ (Nat.le_refl _) hgone)).perm (entries_enqueue _ _).symm, hproper⟩
  | written hk hres hfd =>
    obtain ⟨h1, -, hproper⟩ := h.finished hserves hk (hw hk hres) rfl
    exact ⟨h1.freed hgone, hproper⟩

/-! ## The kernel's steps -/

theorem accepted_cases {act : Act} {c' : Context} {ns : List Note} {table table' : Int → Option Owner}
    (h : perform x op c act = some (c', res, ns)) (ho : accepted table act = some table') :
    (table' = table ∧ (op = .accept → res < 0)) ∨
      (op = .accept ∧ 0 ≤ res ∧ table res = none ∧ table' = Function.update table res (some .client)) := by
  rcases perform_accept h with ⟨rfl, hop, hres⟩ | ⟨hact, hneg⟩
  · simp only [accepted] at ho
    split at ho
    · next hnone =>
      cases ho
      exact .inr ⟨hop, hres, hnone, rfl⟩
    · cases ho
  · refine .inl ⟨?_, hneg⟩
    cases act with
    | accepted sock => exact absurd rfl (hact sock)
    | received | moved | failed =>
      cases ho
      rfl

theorem Serves.keeps {c' : Context} (h : Serves r c op) (hkind : c'.eventType = c.eventType)
    (hsock : c'.clientSocket = c.clientSocket) (hpath : c'.pathFd = c.pathFd) : Serves r c' op := by
  cases h with
  | accept h => exact .accept (hkind.trans h)
  | recv h =>
    rw [← hsock]
    exact .recv (hkind.trans h)
  | writev h hfd =>
    rw [← hsock]
    exact .writev (hkind.trans h) fun fd hr => hpath.trans (hfd fd hr)

theorem claims_of_not_accepted (h : q.op = .accept → res < 0) : claims r q (some res) = claims r q none := by
  cases hop : q.op with
  | accept =>
    unfold claims
    rw [hop]
    simp [h hop]
  | recv sock => rw [claims_recv hop, claims_recv hop]
  | readv content n =>
    unfold claims
    rw [hop]
  | writev sock n => rw [claims_writev hop, claims_writev hop]

/-- A performed request stands for what it stood for, and an accept for the new connection. -/
theorem executed_accounts {p : Nat} {act : Act} {u : UringHttp.Srv} {table : Int → Option Owner}
    (h : Accounts s (entries s.ring)) (htable : accepted s.fds act = some table)
    (hu : s.toSrv.execute p act = some u) : Accounts { s with toSrv := u, fds := table } (entries u.ring) := by
  obtain ⟨q, c, ⟨c', res, ns⟩, conns, ring, hc, hperf, -, hring, rfl⟩ := execute_eq hu
  obtain ⟨l, hold, hnew⟩ := entries_complete hring
  have h := h.perm hold
  have hgone := h.notMem
  refine Accounts.perm (l := (q, some res) :: l) ?_ hnew.symm
  constructor
  · intro d hd
    rcases List.mem_cons.1 hd with rfl | hd
    · obtain ⟨hlt, c₀, hc₀, hs⟩ := h.serves _ List.mem_cons_self
      obtain rfl : c₀ = c := by
        rw [hc] at hc₀
        exact (Option.some.inj hc₀).symm
      obtain ⟨hkind, hsock, hpath, -⟩ := (performed_of_perform hperf).keeps
      exact ⟨hlt, c', Function.update_self .., hs.keeps hkind hsock hpath⟩
    · obtain ⟨hlt, c₀, hc₀, hs⟩ := h.serves d (List.mem_cons_of_mem _ hd)
      refine ⟨hlt, c₀, ?_, hs⟩
      have hne : d.1.ctx ≠ q.ctx := by
        intro he
        exact hgone (List.mem_map.2 ⟨d, hd, he⟩)
      show Function.update s.heap q.ctx (some c') d.1.ctx = some c₀
      rw [Function.update_of_ne hne, hc₀]
  · exact h.single
  · have hb := h.backed
    rw [claimed_cons] at hb
    show Backed table (claims (s.replies q.ctx) q (some res) ++ s.claimed l)
    rcases accepted_cases hperf htable with ⟨rfl, hneg⟩ | ⟨hop, hpos, hnone, rfl⟩
    · rw [claims_of_not_accepted hneg]
      exact hb
    · have hnothing : claims (s.replies q.ctx) q none = [] := by
        unfold claims
        rw [hop]
        rfl
      rw [hnothing] at hb
      rw [claims_accept hop hpos]
      exact hb.grant hnone
  · exact h.once

/-! ## Runs -/

theorem step_tracked (ht : Tracked s) (h : step s e t) : Tracked t ∧ s.uses ⊆ t.uses := by
  rcases step_cases h with ⟨p, act, table, u, -, htable, hu, rfl⟩ |
    ⟨p, fs, a, q, c, res, ring, -, ha, -, hc, hh⟩ | rfl
  · obtain ⟨q, c, ⟨c', res, ns⟩, conns, ring, hc, hperf, -, -, rfl⟩ := execute_eq hu
    refine ⟨ht.congr (Nat.le_refl _) rfl fun fd x hx => ?_, List.Subset.refl _⟩
    change table fd = some (.file x) at hx
    rcases accepted_cases hperf htable with ⟨rfl, -⟩ | ⟨-, -, -, rfl⟩
    · exact hx
    · by_cases he : fd = res
      · rw [he, Function.update_self] at hx
        cases hx
      · rwa [Function.update_of_ne he] at hx
  · have ht' : Tracked { s with ring := ring } := ht.congr (Nat.le_refl _) rfl fun _ _ hx => hx
    exact handled_tracked (s := { s with ring := ring }) ht' ha hh
  · exact ⟨ht.congr (Nat.le_refl _) rfl fun _ _ hx => hx, List.Subset.refl _⟩

/-- The state while each write that completed had a file. -/
structure Inv (s : Srv) : Prop where
  tracked : Tracked s
  accounts : Accounts s (entries s.ring)
  proper : ∀ u ∈ s.uses, u.Proper

theorem finished_eq {p : Nat} {ring : Queues Req} (htake : take p s.ring = some ((q, res), ring))
    (hc : s.heap q.ctx = some c) (hk : c.eventType = .write) (hres : 0 ≤ res) :
    finished s (.loop p fs a) = some q.ctx := by
  obtain ⟨d, hd, he⟩ := Option.map_eq_some_iff.1 htake
  obtain ⟨rfl, -⟩ := Prod.mk.inj he
  unfold finished
  dsimp only
  rw [hd, Option.bind_some, hc, Option.bind_some, if_pos ⟨hk, hres⟩]

theorem step_inv (h : Inv s) (hst : Under step FromFile s e t) : Inv t := by
  obtain ⟨hst, hfile⟩ := hst
  obtain ⟨ht, -⟩ := step_tracked h.tracked hst
  rcases step_cases hst with ⟨p, act, table, u, -, htable, hu, rfl⟩ |
    ⟨p, fs, a, q, c, res, ring, rfl, ha, htake, hc, hh⟩ | rfl
  · exact ⟨ht, executed_accounts h.accounts htable hu, h.proper⟩
  · have hw : c.eventType = .write → 0 ≤ res → s.Opened q.ctx := fun hk hres =>
      hfile q.ctx (finished_eq htake hc hk hres)
    have ht' : Tracked { s with ring := ring } := h.tracked.congr (Nat.le_refl _) rfl fun _ _ hx => hx
    have hacc := h.accounts.perm (entries_take htake)
    have hacc' : Accounts { s with ring := ring } ((q, some res) :: entries ring) :=
      ⟨hacc.serves, hacc.single, hacc.backed, hacc.once⟩
    obtain ⟨h1, h2⟩ := handled_accounts ht' hacc' hc ha hw hh
    exact ⟨ht, h1, fun u hu => (h2 u hu).elim (h.proper u) id⟩
  · have hacc := h.accounts
    exact ⟨ht, ⟨hacc.serves, hacc.single, hacc.backed, hacc.once⟩, h.proper⟩

theorem start_inv (junk : Context) (sizes : Nat → Int) (inherited : List Nat) :
    Inv (start junk sizes inherited) := by
  let blank : Srv := { start junk sizes inherited with toSrv := ⟨fun _ => none, 0, empty, [], [], true⟩ }
  have ht : Tracked blank := by
    constructor
    · intro x r hx
      cases hx
    · intro fd x hx
      change (if fd ∈ inherited.map Int.ofNat then some Owner.other else none) = some (.file x) at hx
      split at hx <;> cases hx
  have hblank : Accounts blank [] := by
    constructor
    · intro d hd
      cases hd
    · exact List.nodup_nil
    · exact backed_nil _
    · intro x
      rw [if_neg]
      · rfl
      · rintro ⟨ho, -⟩
        exact not_opened_of_none (s := blank) rfl ho
  have hacc := hblank.spawn (c := { junk with eventType := .accept }) ht (.accept rfl) (backed_nil _)
  exact ⟨ht.spawn _ _, hacc, fun u hu => by cases hu⟩

theorem Inv.owned (h : Inv s) : Owned s := by
  constructor
  · exact h.proper
  · intro x hx
    have hmap : (requests s.ring).map Req.ctx = (entries s.ring).map (·.1.ctx) := by
      rw [← map_fst_entries, List.map_map]
      rfl
    rw [h.accounts.once x, hmap]
    by_cases hmem : x ∈ (entries s.ring).map (·.1.ctx)
    · rw [if_neg fun h => h.2 hmem, if_pos hmem]
    · rw [if_pos ⟨hx, hmem⟩, if_neg hmem]

/-- What a turn adds that handles the completion of a write. -/
theorem finished_uses (h : step s e t) (hx : finished s e = some x) :
    ∃ fd n, t.uses = s.uses ++ [.sendfile x fd n (s.fds fd)] ++ [.close .write x fd (s.fds fd)] := by
  cases e with
  | execute => cases hx
  | loop p fs a =>
    obtain ⟨⟨q, res⟩, hq, hx⟩ := Option.bind_eq_some_iff.1 hx
    obtain ⟨c, hc, hx⟩ := Option.bind_eq_some_iff.1 hx
    split at hx
    · next hdone =>
      obtain ⟨hk, hres⟩ := hdone
      cases hx
      change (if s.running = true ∧ a.Legal s then s.serverLoop fs p a else none) = some t at h
      split at h
      · unfold Srv.serverLoop take at h
        rw [hq, Option.map_some, Option.bind_some] at h
        dsimp only at h hc
        rw [hc, Option.map_some] at h
        unfold handleCompletion at h
        rw [if_neg (Int.not_lt.2 hres), hk] at h
        dsimp only at h
        split at h
        · cases h
          exact ⟨c.pathFd, s.fileSize q.ctx, rfl⟩
        · cases h
          exact ⟨c.pathFd, s.fileSize q.ctx, rfl⟩
      · cases h
    · cases hx

/-- A write that completes without a file makes calls on what it does not own. -/
theorem improper_of_not_fromFile (ht : Tracked s) (h : step s e t) (hfile : ¬FromFile s e) :
    ∃ u ∈ t.uses, ¬u.Proper := by
  obtain ⟨x, hx, hclosed⟩ : ∃ x, x ∈ finished s e ∧ ¬s.Opened x := by
    by_contra hall
    exact hfile fun x hx => not_not.1 fun hne => hall ⟨x, hx, hne⟩
  obtain ⟨fd, n, huses⟩ := finished_uses h hx
  refine ⟨.sendfile x fd n (s.fds fd), ?_, fun howner => ?_⟩
  · rw [huses]
    exact List.mem_append_left _ (List.mem_append_right _ List.mem_cons_self)
  · exact hclosed (opened_iff.2 ⟨fd, ht.files fd x howner⟩)

/-- **Ownership.**  A completed write makes calls on its response's own file, and each file is closed
once, exactly as long as only responses with an open file complete. -/
theorem owned_iff {junk : Context} {sizes : Nat → Int} {inherited : List Nat}
    (h : Run step (start junk sizes inherited) es s) :
    Owned s ↔ Run (Under step FromFile) (start junk sizes inherited) es s := by
  have htracked : ∀ {s₁ s₂ es}, Run step s₁ es s₂ → Tracked s₁ → Tracked s₂ := fun hr hs =>
    hr.invariant Tracked (fun _ _ _ ht hst => (step_tracked ht hst).1) hs
  constructor
  · intro howned
    rcases h.sometime_or_never fun s e => ¬FromFile s e with
      ⟨es₁, e, es₂, u, v, rfl, hbefore, hstep, hbad, hafter⟩ | hnever
    · have hu : Tracked u := htracked hbefore (start_inv junk sizes inherited).tracked
      obtain ⟨w, hw, himproper⟩ := improper_of_not_fromFile hu hstep hbad
      have hkept : Tracked s ∧ w ∈ s.uses :=
        hafter.invariant (fun s => Tracked s ∧ w ∈ s.uses)
          (fun _ _ _ hs hst => ⟨(step_tracked hs.1 hst).1, (step_tracked hs.1 hst).2 hs.2⟩)
          ⟨(step_tracked hu hstep).1, hw⟩
      exact absurd (howned.proper w hkept.2) himproper
    · exact hnever.mono fun _ _ _ hst => ⟨hst.1, not_not.1 hst.2⟩
  · intro hgood
    exact (hgood.invariant Inv (fun _ _ _ hs hst => step_inv hs hst) (start_inv junk sizes inherited)).owned

end

/-! ## One file, and none -/

/-- The first client is accepted as socket 4 and answered; the write of the answer completes. -/
def exchange (line : String) (junk : Context) (fd : Int) : List Event :=
  [.execute 0 (.accepted 4), .loop 0 oneFile ⟨zeroed, zeroed, -1⟩,
    .execute 1 (.received (ascii (line ++ " HTTP/1.1\r\n\r\n"))), .loop 0 oneFile ⟨junk, zeroed, fd⟩,
    .execute 1 (.moved 1), .loop 0 oneFile ⟨zeroed, zeroed, -1⟩]

def uninitialised : Context := { zeroed with pathFd := 3 }

theorem owned_iff_file : ∃ s, Run step (start zeroed (fun _ => 0) [0, 1, 2, 3])
    (exchange "GET /a" uninitialised 5) s ∧
    s.uses = [.sendfile 3 5 1 (some (.file 3)), .close .write 3 5 (some (.file 3))] ∧ Owned s := by
  obtain ⟨s, hrun, huses⟩ := run_of_exec_map (guarded stepFn FromFile) (start zeroed (fun _ => 0) [0, 1, 2, 3])
    (exchange "GET /a" uninitialised 5) Srv.uses
    (a := [.sendfile 3 5 1 (some (.file 3)), .close .write 3 5 (some (.file 3))]) (by decide +kernel)
  have hgood := hrun.of_guarded
  have hall : Run step _ _ s := hgood.mono fun _ _ _ h => h.1
  exact ⟨s, hall, huses, (owned_iff hall).2 hgood⟩

/-- A request for a file that is not there: its answer closes the listening socket. -/
theorem missing_file_closes : ∃ s,
    Run step (start zeroed (fun _ => 0) [0, 1, 2, 3]) (exchange "GET /b" uninitialised (-1)) s ∧
    s.uses = [.sendfile 3 3 0 (some .other), .close .write 3 3 (some .other)] ∧ s.fds 3 = none ∧ ¬Owned s := by
  obtain ⟨s, hrun, hend⟩ := run_of_exec_map stepFn (start zeroed (fun _ => 0) [0, 1, 2, 3])
    (exchange "GET /b" uninitialised (-1)) (fun s => (s.uses, s.fds 3))
    (a := ([.sendfile 3 3 0 (some .other), .close .write 3 3 (some .other)], none)) (by decide +kernel)
  obtain ⟨huses, hfds⟩ := Prod.mk.inj hend
  refine ⟨s, hrun, huses, hfds, fun h => ?_⟩
  have hmem : Use.sendfile 3 3 0 (some .other) ∈ s.uses := by
    rw [huses]
    exact List.mem_cons_self
  cases h.proper _ hmem

end CPrograms.UringHttp.Sendfile
