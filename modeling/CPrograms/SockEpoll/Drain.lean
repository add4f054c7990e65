import CPrograms.SockEpoll.Model

/-!
# Draining

`turn_unserved` says what one turn of the inner loop leaves unserved.  Where every turn drains
its descriptor, what is unserved has an event or is still in the batch (`served_of_drains`);
after a turn that does not, its descriptor waits unserved unless something new arrives (`lost_run`).
-/

namespace CPrograms.SockEpoll

open Runs

/-! ## What one step does -/

theorem step_cases {s t : Sys} {e : Event} (h : step s e = some t) :
    (e = .connect ∧
      t = { s with connections := s.connections + 1, pending := s.pending ++ [s.connections] }.post .listen) ∨
    (∃ c bytes, e = .data c bytes ∧ s.isOpen c ∧
      t = { s with unread := Function.update s.unread c (s.unread c ++ bytes) }.arrive c) ∨
    (∃ c p, e = .hangup c p ∧ s.isOpen c ∧
      t = { s with peer := Function.update s.peer c p }.arrive c) ∨
    (∃ fds, e = .wait fds ∧ s.batch = [] ∧ fds.Nodup ∧ (∀ fd ∈ fds, s.ready fd = true) ∧
      t = { s with ready := fun fd => s.ready fd && !decide (fd ∈ fds), batch := fds }) ∨
    ∃ fd rest, e = .handle ∧ s.exited = false ∧ s.batch = fd :: rest ∧
      t = { s with batch := rest }.turn fd := by
  cases e with
  | connect => exact .inl ⟨rfl, (Option.some.inj h).symm⟩
  | data c bytes =>
    rw [step] at h
    split at h
    · next hc => exact .inr (.inl ⟨c, bytes, rfl, hc.1, (Option.some.inj h).symm⟩)
    · cases h
  | hangup c p =>
    rw [step] at h
    split at h
    · next hc => exact .inr (.inr (.inl ⟨c, p, rfl, hc.1, (Option.some.inj h).symm⟩))
    · cases h
  | wait fds =>
    rw [step] at h
    split at h
    · next hc =>
      obtain ⟨-, hb, hnd, -, hready⟩ := hc
      exact .inr (.inr (.inr (.inl ⟨fds, rfl, hb, hnd, hready, (Option.some.inj h).symm⟩)))
    · cases h
  | handle =>
    rw [step] at h
    split at h
    · next fd rest hex hb =>
      exact .inr (.inr (.inr (.inr ⟨fd, rest, rfl, hex, hb, (Option.some.inj h).symm⟩)))
    · cases h

theorem listen_ne_client (c : Nat) : Fd.listen ≠ .client c := nofun

theorem client_ne {c d : Nat} (h : d ≠ c) : Fd.client d ≠ .client c := fun heq => h (Fd.client.inj heq)

theorem post_ready_self (s : Sys) (fd : Fd) : (s.post fd).ready fd = true := Function.update_self ..

theorem post_ready (s : Sys) {fd fd' : Fd} (h : fd' ≠ fd) : (s.post fd).ready fd' = s.ready fd' :=
  Function.update_of_ne h ..

theorem close_ready_self (s : Sys) (c : Nat) : (s.close c).ready (.client c) = false :=
  Function.update_self ..

theorem close_ready (s : Sys) {c : Nat} {fd : Fd} (h : fd ≠ .client c) : (s.close c).ready fd = s.ready fd :=
  Function.update_of_ne h ..

theorem accept_nil {s : Sys} (h : s.pending = []) : s.accept = { s with exited := true } := by
  rw [Sys.accept, h]

theorem accept_cons {s : Sys} {c : Nat} {rest : List Nat} (h : s.pending = c :: rest) :
    s.accept =
      { s with pending := rest, registered := c :: s.registered,
               ready := Function.update s.ready (.client c)
                 (decide (s.unread c ≠ [] ∨ s.peer c ≠ .connected)) } := by
  rw [Sys.accept, h]

/-- The three things one `read` can do. -/
theorem read_cases (s : Sys) (c : Nat) :
    (s.unread c = [] ∧ (s.read c = s ∨ s.read c = s.close c)) ∨
      (s.unread c ≠ [] ∧
        s.read c = { s with unread := Function.update s.unread c ((s.unread c).drop maxline) }) := by
  unfold Sys.read
  split
  · next hq _ => exact .inl ⟨hq, .inl rfl⟩
  · next hq _ => exact .inl ⟨hq, .inr rfl⟩
  · next hne1 hne2 =>
    exact .inr ⟨fun hq => hne1 hq, rfl⟩

/-- Two ways a descriptor is unserved after a turn: it has an event, or it was so before. -/
theorem turn_unserved {s : Sys} {fd fd' : Fd} (h : (s.turn fd).Unserved fd') :
    (s.turn fd).ready fd' = true ∨
      (s.Unserved fd' ∧ (s.turn fd).ready fd' = s.ready fd' ∧ (fd' = fd → s.Left fd)) := by
  cases fd with
  | listen =>
    change s.accept.Unserved fd' at h
    show s.accept.ready fd' = true ∨ _ ∧ s.accept.ready fd' = _ ∧ _
    cases hp : s.pending with
    | nil =>
      rw [accept_nil hp] at h ⊢
      cases fd' with
      | listen => exact absurd hp h
      | client d => exact .inr ⟨h, rfl, nofun⟩
    | cons c rest =>
      rw [accept_cons hp] at h ⊢
      cases fd' with
      | listen =>
        refine .inr ⟨?_, ?_, fun _ => ?_⟩
        · rw [Sys.Unserved, hp]
          exact List.cons_ne_nil _ _
        · dsimp only
          rw [Function.update_of_ne (listen_ne_client c)]
        · rw [Sys.Left, hp, List.length_cons]
          exact Nat.succ_lt_succ (List.length_pos_iff.2 h)
      | client d =>
        obtain ⟨hd, hu⟩ := h
        by_cases hdc : d = c
        · subst hdc
          exact .inl ((Function.update_self ..).trans (decide_eq_true (.inl hu)))
        · exact .inr ⟨⟨(List.mem_cons.1 hd).resolve_left hdc, hu⟩,
            Function.update_of_ne (client_ne hdc) _ _, nofun⟩
  | client c =>
    change (s.read c).Unserved fd' at h
    show (s.read c).ready fd' = true ∨ _ ∧ (s.read c).ready fd' = _ ∧ _
    right
    rcases read_cases s c with ⟨hq, hr | hr⟩ | ⟨hq, hr⟩ <;> rw [hr] at h ⊢
    · refine ⟨h, rfl, ?_⟩
      rintro rfl
      exact absurd hq h.2
    · cases fd' with
      | listen => exact ⟨h, close_ready s (listen_ne_client c), nofun⟩
      | client d =>
        obtain ⟨hd, hu⟩ := h
        obtain ⟨hd, hdc⟩ := List.mem_filter.1 hd
        have hdc : d ≠ c := of_decide_eq_true hdc
        exact ⟨⟨hd, hu⟩, close_ready s (client_ne hdc), fun heq => absurd (Fd.client.inj heq) hdc⟩
    · cases fd' with
      | listen => exact ⟨h, rfl, nofun⟩
      | client d =>
        obtain ⟨hd, hu⟩ := h
        by_cases hdc : d = c
        · subst hdc
          have hu : (s.unread d).drop maxline ≠ [] := fun hnil => hu ((Function.update_self ..).trans hnil)
          rw [Ne, List.drop_eq_nil_iff] at hu
          exact ⟨⟨hd, hq⟩, rfl, fun _ => Nat.lt_of_not_le hu⟩
        · have hu : s.unread d ≠ [] := fun hnil => hu ((Function.update_of_ne hdc _ _).trans hnil)
          exact ⟨⟨hd, hu⟩, rfl, fun heq => absurd (Fd.client.inj heq) hdc⟩

theorem turn_batch (s : Sys) (fd : Fd) : (s.turn fd).batch = s.batch := by
  cases fd with
  | listen =>
    show s.accept.batch = _
    cases hp : s.pending with
    | nil => rw [accept_nil hp]
    | cons c rest => rw [accept_cons hp]
  | client c =>
    show (s.read c).batch = _
    rcases read_cases s c with ⟨-, hr | hr⟩ | ⟨-, hr⟩ <;> rw [hr]
    rfl

/-! ## What every run keeps -/

/-- Every event of the listening socket has a pending connection of its own, and the clients
with an event are open. -/
structure Inv (s : Sys) : Prop where
  running : s.exited = false
  announced : (s.ready .listen).toNat + s.batch.count .listen ≤ s.pending.length
  distinct : s.batch.Nodup
  held : ∀ c, s.ready (.client c) = true ∨ .client c ∈ s.batch → c ∈ s.registered
  once : (s.pending ++ s.registered).Nodup
  fresh : ∀ c ∈ s.pending ++ s.registered, c < s.connections

theorem start_inv : Inv start :=
  ⟨rfl, Nat.zero_le _, .nil, fun _ h => h.elim nofun nofun, .nil, nofun⟩

theorem arrive_inv {s : Sys} (h : Inv s) (c : Nat) : Inv (s.arrive c) := by
  unfold Sys.arrive
  split
  · next hc =>
    refine ⟨h.running, ?_, h.distinct, fun d hd => ?_, h.once, h.fresh⟩
    · rw [post_ready s (listen_ne_client c)]
      exact h.announced
    · by_cases hdc : d = c
      · exact hdc ▸ hc
      · rw [post_ready s (client_ne hdc)] at hd
        exact h.held d hd
  · exact h

theorem connect_inv {s : Sys} (h : Inv s) :
    Inv ({ s with connections := s.connections + 1, pending := s.pending ++ [s.connections] }.post .listen) := by
  have hmem : ∀ c, c ∈ s.pending ++ [s.connections] ++ s.registered →
      c = s.connections ∨ c ∈ s.pending ++ s.registered := by
    intro c hc
    simp only [List.mem_append, List.mem_singleton] at hc ⊢
    rcases hc with (hc | hc) | hc
    · exact .inr (.inl hc)
    · exact .inl hc
    · exact .inr (.inr hc)
  refine ⟨h.running, ?_, h.distinct, fun d hd => ?_, ?_, fun c hc => ?_⟩
  · show _ ≤ (s.pending ++ [s.connections]).length
    rw [post_ready_self, List.length_append]
    have := h.announced
    exact (Nat.add_comm ..).trans_le (Nat.add_le_add_right ((Nat.le_add_left ..).trans this) 1)
  · rw [post_ready _ (listen_ne_client d).symm] at hd
    exact h.held d hd
  · show (s.pending ++ [s.connections] ++ s.registered).Nodup
    rw [List.append_assoc, List.singleton_append, List.perm_middle.nodup_iff, List.nodup_cons]
    exact ⟨fun hin => Nat.lt_irrefl _ (h.fresh _ hin), h.once⟩
  · rcases hmem c hc with rfl | hc
    · exact Nat.lt_succ_self _
    · exact Nat.lt_succ_of_lt (h.fresh c hc)

theorem wait_inv {s : Sys} (h : Inv s) {fds : List Fd} (hb : s.batch = []) (hnd : fds.Nodup)
    (hready : ∀ fd ∈ fds, s.ready fd = true) :
    Inv { s with ready := fun fd => s.ready fd && !decide (fd ∈ fds), batch := fds } := by
  refine ⟨h.running, ?_, hnd, fun d hd => ?_, h.once, h.fresh⟩
  · -- what is delivered moves from `ready` to `batch`
    have hann := h.announced
    rw [hb, List.count_nil] at hann
    show (s.ready .listen && !decide (.listen ∈ fds)).toNat + fds.count .listen ≤ s.pending.length
    by_cases hmem : Fd.listen ∈ fds
    · rw [hready _ hmem] at hann ⊢
      rw [List.count_eq_one_of_mem hnd hmem, decide_eq_true hmem]
      exact hann
    · rw [List.count_eq_zero_of_not_mem hmem, decide_eq_false hmem, Bool.not_false, Bool.and_true]
      exact hann
  · rcases hd with hd | hd
    · exact h.held d (.inl (Bool.and_eq_true_iff.1 hd).1)
    · exact h.held d (.inl (hready _ hd))

theorem close_inv {s : Sys} (h : Inv s) {c : Nat} (hc : Fd.client c ∉ s.batch) : Inv (s.close c) := by
  have hsub : (s.pending ++ s.registered.filter (· ≠ c)).Sublist (s.pending ++ s.registered) :=
    (List.Sublist.refl _).append List.filter_sublist
  refine ⟨h.running, ?_, h.distinct, fun d hd => ?_, h.once.sublist hsub,
    fun d hd => h.fresh d (hsub.subset hd)⟩
  · rw [close_ready s (listen_ne_client c)]
    exact h.announced
  · have hdc : d ≠ c := by
      rintro rfl
      rw [close_ready_self] at hd
      exact hd.elim nofun hc
    rw [close_ready s (client_ne hdc)] at hd
    exact List.mem_filter.2 ⟨h.held d hd, decide_eq_true hdc⟩

theorem turn_inv {s : Sys} (h : Inv s) {fd : Fd} {rest : List Fd} (hb : s.batch = fd :: rest) :
    Inv ({ s with batch := rest }.turn fd) := by
  have hnd := h.distinct
  have hann := h.announced
  have hheld := h.held
  rw [hb] at hnd hann hheld
  obtain ⟨hfd, hrest⟩ := List.nodup_cons.1 hnd
  have hheld' : ∀ d, s.ready (.client d) = true ∨ .client d ∈ rest → d ∈ s.registered :=
    fun d hd => hheld d (hd.imp_right (List.mem_cons_of_mem _))
  cases fd with
  | listen =>
    rw [List.count_cons_self] at hann
    -- its event has a connection, so `accept` gives one
    obtain ⟨c, ps, hp⟩ := List.exists_cons_of_length_pos (Nat.lt_of_lt_of_le (by omega) hann)
    have honce := h.once
    have hfresh := h.fresh
    rw [hp] at hann honce hfresh
    show Inv (Sys.accept { s with batch := rest })
    rw [accept_cons (s := { s with batch := rest }) hp]
    refine ⟨h.running, ?_, hrest, fun d hd => ?_, ?_, fun d hd => ?_⟩
    · dsimp only
      rw [Function.update_of_ne (listen_ne_client c)]
      exact Nat.le_of_succ_le_succ hann
    · dsimp only at hd
      by_cases hdc : d = c
      · exact hdc ▸ List.mem_cons_self
      · rw [Function.update_of_ne (client_ne hdc)] at hd
        exact List.mem_cons_of_mem _ (hheld' d hd)
    · exact List.perm_middle.nodup_iff.2 honce
    · exact hfresh d (List.perm_middle.mem_iff.1 hd)
  | client c =>
    rw [List.count_cons_of_ne (listen_ne_client c).symm] at hann
    have hinv : Inv { s with batch := rest } := ⟨h.running, hann, hrest, hheld', h.once, h.fresh⟩
    show Inv (Sys.read { s with batch := rest } c)
    rcases read_cases { s with batch := rest } c with ⟨-, hr | hr⟩ | ⟨-, hr⟩ <;> rw [hr]
    · exact hinv
    · exact close_inv hinv hfd
    · exact ⟨h.running, hann, hrest, hheld', h.once, h.fresh⟩

theorem step_inv {s t : Sys} {e : Event} (h : Inv s) (hstep : step s e = some t) : Inv t := by
  rcases step_cases hstep with ⟨-, rfl⟩ | ⟨c, bytes, -, -, rfl⟩ | ⟨c, p, -, -, rfl⟩ |
    ⟨fds, -, hb, hnd, hready, rfl⟩ | ⟨fd, rest, -, -, hb, rfl⟩
  · exact connect_inv h
  · have hu : Inv { s with unread := Function.update s.unread c (s.unread c ++ bytes) } :=
      ⟨h.running, h.announced, h.distinct, h.held, h.once, h.fresh⟩
    exact arrive_inv hu c
  · have hu : Inv { s with peer := Function.update s.peer c p } :=
      ⟨h.running, h.announced, h.distinct, h.held, h.once, h.fresh⟩
    exact arrive_inv hu c
  · exact wait_inv h hb hnd hready
  · exact turn_inv h hb

theorem run_inv {es : List Event} {s : Sys} (h : Run (fun s e t => step s e = some t) start es s) : Inv s :=
  h.invariant Inv (fun _ _ _ hi hs => step_inv hi hs) start_inv

/-! ## Where every turn drains -/

/-- What is unserved has an event, or its turn in the batch is still to come. -/
def Waiting (s : Sys) : Prop := ∀ fd, s.Unserved fd → s.ready fd = true ∨ fd ∈ s.batch

/-- What arrives on a connection is announced. -/
theorem arrive_waiting {s u : Sys} {c : Nat} (h : Waiting s) (hp : u.pending = s.pending)
    (hr : u.registered = s.registered) (hready : u.ready = s.ready) (hb : u.batch = s.batch)
    (hun : ∀ d, d ≠ c → u.unread d = s.unread d) : Waiting (u.arrive c) := by
  have hkeep : ∀ fd, u.Unserved fd → (∀ d, fd = .client d → d ≠ c) → u.ready fd = true ∨ fd ∈ u.batch := by
    intro fd hfd hne
    rw [hready, hb]
    cases fd with
    | listen => exact h .listen (by rw [Sys.Unserved, ← hp]; exact hfd)
    | client d => exact h (.client d) ⟨hr ▸ hfd.1, by rw [← hun d (hne d rfl)]; exact hfd.2⟩
  intro fd hfd
  unfold Sys.arrive at hfd ⊢
  by_cases hc : c ∈ u.registered
  · rw [if_pos hc] at hfd ⊢
    by_cases hfc : fd = .client c
    · subst hfc
      exact .inl (post_ready_self u _)
    · refine (hkeep fd hfd fun d hd hdc => hfc (by rw [hd, hdc])).imp_left fun hx => ?_
      rwa [post_ready u hfc]
  · rw [if_neg hc] at hfd ⊢
    refine hkeep fd hfd ?_
    rintro d rfl rfl
    exact hc hfd.1

theorem step_waiting {s t : Sys} {e : Event} (h : Waiting s) (hstep : step s e = some t)
    (hd : Drains s e) : Waiting t := by
  rcases step_cases hstep with ⟨-, rfl⟩ | ⟨c, bytes, -, -, rfl⟩ | ⟨c, p, -, -, rfl⟩ |
    ⟨fds, -, hb, -, -, rfl⟩ | ⟨fd, rest, rfl, -, hb, rfl⟩
  · intro fd hfd
    cases fd with
    | listen =>
      left
      exact post_ready_self _ _
    | client d =>
      refine (h (.client d) hfd).imp_left fun hx => ?_
      rwa [post_ready _ (listen_ne_client d).symm]
  · exact arrive_waiting h rfl rfl rfl rfl fun d hdc => Function.update_of_ne hdc _ _
  · exact arrive_waiting h rfl rfl rfl rfl fun d _ => rfl
  · -- what is delivered is in the batch now
    intro fd hfd
    have hready := (h fd hfd).resolve_right (by rw [hb]; exact List.not_mem_nil)
    by_cases hmem : fd ∈ fds
    · exact .inr hmem
    · exact .inl (by simp [hready, hmem])
  · intro fd' hfd'
    rw [turn_batch]
    rcases turn_unserved hfd' with hx | ⟨hun, hready, hleft⟩
    · exact .inl hx
    · rw [hready]
      by_cases heq : fd' = fd
      · exact .inl (heq ▸ hd rfl fd (by rw [hb]; exact Option.mem_some_self _) (hleft heq))
      · refine (h fd' hun).imp_right fun hmem => ?_
        rw [hb] at hmem
        exact (List.mem_cons.1 hmem).resolve_left heq

theorem start_waiting : Waiting start := fun fd h => by
  cases fd with
  | listen => exact absurd rfl h
  | client c => cases h.1

theorem run_waiting {es : List Event} {s : Sys}
    (h : Run (Under (fun s e t => step s e = some t) Drains) start es s) : Waiting s :=
  h.invariant Waiting (fun _ _ _ hw hs => step_waiting hw hs.1 hs.2) start_waiting

/-! ## Where a turn does not drain -/

def Sys.Lost (s : Sys) (fd : Fd) : Prop := s.Unserved fd ∧ s.ready fd = false

/-- What the turn of a descriptor leaves behind is lost if it has no event. -/
theorem turn_left {s : Sys} {fd : Fd} {rest : List Fd} (h : Inv s) (hb : s.batch = fd :: rest)
    (hleft : s.Left fd) (hready : s.ready fd = false) : ({ s with batch := rest }.turn fd).Lost fd := by
  cases fd with
  | listen =>
    show (Sys.accept { s with batch := rest }).Lost .listen
    change 1 < s.pending.length at hleft
    obtain ⟨c, ps, hp⟩ := List.exists_cons_of_length_pos (Nat.lt_trans Nat.zero_lt_one hleft)
    rw [hp, List.length_cons] at hleft
    rw [accept_cons (s := { s with batch := rest }) hp]
    refine ⟨List.ne_nil_of_length_pos (Nat.lt_of_succ_lt_succ hleft), ?_⟩
    dsimp only
    rwa [Function.update_of_ne (listen_ne_client c)]
  | client c =>
    show (Sys.read { s with batch := rest } c).Lost (.client c)
    change maxline < (s.unread c).length at hleft
    have hreg : c ∈ s.registered := h.held c (.inr (by rw [hb]; exact List.mem_cons_self))
    rcases read_cases { s with batch := rest } c with ⟨hq, -⟩ | ⟨-, hr⟩
    · change s.unread c = [] at hq
      rw [hq] at hleft
      cases hleft
    · rw [hr]
      refine ⟨⟨hreg, ?_⟩, hready⟩
      dsimp only
      rw [Function.update_self, Ne, List.drop_eq_nil_iff]
      exact Nat.not_le_of_lt hleft

/-- The turns of the others do not help. -/
theorem turn_lost {s : Sys} {fd fd' : Fd} (honce : (s.pending ++ s.registered).Nodup) (hne : fd' ≠ fd)
    (h : s.Lost fd') : (s.turn fd).Lost fd' := by
  obtain ⟨hun, hready⟩ := h
  cases fd with
  | listen =>
    show s.accept.Lost fd'
    cases hp : s.pending with
    | nil =>
      rw [accept_nil hp]
      refine ⟨?_, hready⟩
      cases fd' with
      | listen => exact absurd rfl hne
      | client d => exact hun
    | cons c ps =>
      rw [accept_cons hp]
      cases fd' with
      | listen => exact absurd rfl hne
      | client d =>
        -- the new connection is none of the registered ones
        have hdc : d ≠ c := by
          rintro rfl
          rw [hp] at honce
          exact (List.nodup_cons.1 honce).1 (List.mem_append_right _ hun.1)
        refine ⟨⟨List.mem_cons_of_mem _ hun.1, hun.2⟩, ?_⟩
        dsimp only
        rwa [Function.update_of_ne (client_ne hdc)]
  | client c =>
    show (s.read c).Lost fd'
    rcases read_cases s c with ⟨-, hr | hr⟩ | ⟨-, hr⟩ <;> rw [hr]
    · exact ⟨hun, hready⟩
    · cases fd' with
      | listen =>
        refine ⟨hun, ?_⟩
        rwa [close_ready s (listen_ne_client c)]
      | client d =>
        have hdc : d ≠ c := fun heq => hne (congrArg Fd.client heq)
        refine ⟨⟨List.mem_filter.2 ⟨hun.1, decide_eq_true hdc⟩, hun.2⟩, ?_⟩
        rwa [close_ready s (client_ne hdc)]
    · refine ⟨?_, hready⟩
      cases fd' with
      | listen => exact hun
      | client d =>
        have hdc : d ≠ c := fun heq => hne (congrArg Fd.client heq)
        refine ⟨hun.1, ?_⟩
        dsimp only
        rw [Function.update_of_ne hdc]
        exact hun.2

theorem step_handle {s : Sys} {fd : Fd} {rest : List Fd} (h : Inv s) (hb : s.batch = fd :: rest) :
    step s .handle = some ({ s with batch := rest }.turn fd) := by
  rw [step, h.running, hb]

/-- A lost descriptor is still lost when the rest of the batch is done. -/
theorem lost_run {s : Sys} {fd : Fd} (h : Inv s) (hlost : s.Lost fd) (hfd : fd ∉ s.batch) :
    ∃ n t, Run (fun s e t => step s e = some t) s (List.replicate n .handle) t ∧ t.Waits ∧ t.Lost fd := by
  generalize hb : s.batch = batch at hfd
  induction batch generalizing s with
  | nil => exact ⟨0, s, .nil s, ⟨h.running, hb⟩, hlost⟩
  | cons fd' rest ih =>
    obtain ⟨hne, hfd⟩ := not_or.1 (mt List.mem_cons.2 hfd)
    have hlost' : ({ s with batch := rest }.turn fd').Lost fd :=
      turn_lost (s := { s with batch := rest }) h.once hne hlost
    obtain ⟨n, t, hrun, hw, hl⟩ := ih (turn_inv h hb) hlost' (turn_batch _ _) hfd
    exact ⟨n + 1, t, .cons (step_handle h hb) hrun, hw, hl⟩

/-- Where every turn drains its descriptor, the server waits with everything served; and a turn
that does not ends in a wait with something lost, if nothing new arrives. -/
theorem served_of_drains {es : List Event} {s : Sys}
    (hrun : Run (fun s e t => step s e = some t) start es s) :
    (Run (Under (fun s e t => step s e = some t) Drains) start es s → s.Waits → Served s) ∧
    ∀ fd ∈ s.batch.head?, s.Left fd → s.ready fd = false →
      ∃ n t, Run (fun s e t => step s e = some t) s (List.replicate n .handle) t ∧ t.Waits ∧ ¬ Served t := by
  constructor
  · intro hdrains hw fd hfd
    refine (run_waiting hdrains fd hfd).resolve_right ?_
    rw [hw.2]
    exact List.not_mem_nil
  · intro fd hhead hleft hready
    have hinv := run_inv hrun
    obtain ⟨rest, hb⟩ := List.head?_eq_some_iff.1 hhead
    have hfd : fd ∉ rest := by
      have := hinv.distinct
      rw [hb] at this
      exact (List.nodup_cons.1 this).1
    obtain ⟨n, t, ht, hw, hlost⟩ := lost_run (turn_inv hinv hb) (turn_left hinv hb hleft hready)
      (by rw [turn_batch]; exact hfd)
    refine ⟨n + 1, t, .cons (step_handle hinv hb) ht, hw, fun hserved => ?_⟩
    exact absurd ((hserved fd hlost.1).symm.trans hlost.2) nofun

/-- One client connects and sends a byte; and two clients connect before the first `accept`. -/
theorem served_of_drains_one :
    (∃ s, Run (fun s e t => step s e = some t) start
      [.connect, .wait [.listen], .handle, .data 0 [65], .wait [.client 0], .handle] s ∧ s.Waits ∧ Served s) ∧
    ∃ s n t, Run (fun s e t => step s e = some t) start [.connect, .connect, .wait [.listen]] s ∧
      Run (fun s e t => step s e = some t) s (List.replicate n .handle) t ∧ t.Waits ∧ ¬ Served t := by
  constructor
  · obtain ⟨s, hrun, hs⟩ := run_of_exec_map (guarded step Drains) start
      [.connect, .wait [.listen], .handle, .data 0 [65], .wait [.client 0], .handle]
      (fun s => (s.exited, s.batch)) (a := (false, [])) (by decide)
    have hw : s.Waits := Prod.mk.inj hs
    have hrun' := hrun.of_guarded.mono fun _ _ _ h => h.1
    exact ⟨s, hrun', hw, (served_of_drains hrun').1 hrun.of_guarded hw⟩
  · obtain ⟨s, hrun, hs⟩ := run_of_exec_map step start [.connect, .connect, .wait [.listen]]
      (fun s => (s.batch.head?, decide (s.Left .listen), s.ready .listen)) (a := (some .listen, true, false))
      (by decide)
    simp only [Prod.mk.injEq, decide_eq_true_eq] at hs
    obtain ⟨n, t, ht, hw, hnot⟩ := (served_of_drains hrun).2 .listen hs.1 hs.2.1 hs.2.2
    exact ⟨s, n, t, hrun, ht, hw, hnot⟩

/-- Two connections for one event, and 101 bytes for another. -/
theorem unserved_at_wait :
    (∃ s, Run (fun s e t => step s e = some t) start [.connect, .connect, .wait [.listen], .handle] s ∧
      s.Waits ∧ s.pending = [1] ∧ s.ready .listen = false) ∧
    (∃ s, Run (fun s e t => step s e = some t) start
      [.connect, .wait [.listen], .handle, .data 0 (List.replicate 101 65), .wait [.client 0], .handle] s ∧
      s.Waits ∧ 0 ∈ s.registered ∧ s.unread 0 = [65] ∧ s.ready (.client 0) = false) ∧
    ¬ ∀ es s, Run (fun s e t => step s e = some t) start es s → s.Waits → Served s := by
  have htwo : ∃ s, Run (fun s e t => step s e = some t) start [.connect, .connect, .wait [.listen], .handle] s ∧
      s.Waits ∧ s.pending = [1] ∧ s.ready .listen = false := by
    obtain ⟨s, hrun, hs⟩ := run_of_exec_map step start [.connect, .connect, .wait [.listen], .handle]
      (fun s => (s.exited, s.batch, s.pending, s.ready .listen)) (a := (false, [], [1], false)) (by decide)
    simp only [Prod.mk.injEq] at hs
    exact ⟨s, hrun, ⟨hs.1, hs.2.1⟩, hs.2.2.1, hs.2.2.2⟩
  refine ⟨htwo, ?_, fun h => ?_⟩
  · obtain ⟨s, hrun, hs⟩ := run_of_exec_map step start
      [.connect, .wait [.listen], .handle, .data 0 (List.replicate 101 65), .wait [.client 0], .handle]
      (fun s => (s.exited, s.batch, s.registered, s.unread 0, s.ready (.client 0)))
      (a := (false, [], [0], [65], false)) (by decide)
    simp only [Prod.mk.injEq] at hs
    obtain ⟨hex, hb, hreg, hun, hready⟩ := hs
    exact ⟨s, hrun, ⟨hex, hb⟩, by rw [hreg]; exact List.mem_cons_self, hun, hready⟩
  · obtain ⟨s, hrun, hw, hp, hready⟩ := htwo
    have := h _ s hrun hw .listen (by rw [Sys.Unserved, hp]; exact List.cons_ne_nil _ _)
    exact absurd (this.symm.trans hready) nofun

end CPrograms.SockEpoll
