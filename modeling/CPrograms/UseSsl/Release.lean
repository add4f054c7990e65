import CPrograms.UseSsl.Model

/-!
# What a connection has is released

A connection has a descriptor, a `conn_t` and an `SSL`.  None of them is released twice, or used
after that, in any run.  The branch for errors closes the descriptor and frees the `conn_t` only:
so all three are released exactly in the runs where no error is reported of an accepted
connection (`released_iff`).
-/

namespace CPrograms.UseSsl

open Custody Lifetimes Runs

/-! ## The invariant -/

structure Inv (sfd : Nat) (s : Sys) : Prop where
  backed : Backed s.fds s.epoll
  single : (s.epoll.map Prod.snd).Nodup
  below : ∀ p ∈ s.epoll, p.2 ≤ s.accepted
  conns : ∀ p ∈ s.epoll, ∃ c, s.conns p.2 = some c ∧ c.fd = p.1 ∧ (p.2 ≠ 0 → c.ssl = p.2)
  listening : ∀ p ∈ s.epoll, p.1 = sfd ↔ p.2 = 0
  distinct : (s.batch.map Prod.fst).Nodup
  registered : ∀ k ∈ s.batch.map Prod.fst, k ∈ s.epoll.map Prod.snd
  sound : Sound s.acts
  descriptor : ∀ p ∈ s.epoll, Live s.acts (.descriptor p.2)
  conn : ∀ p ∈ s.epoll, Live s.acts (.conn p.2)
  ssl : ∀ p ∈ s.epoll, p.2 ≠ 0 → Live s.acts (.ssl p.2)
  known : ∀ a ∈ s.acts, a.object.number ≤ s.accepted

section

variable {sfd : Nat} {s t : Sys}

theorem sound_start : Sound [Act.create (Resource.descriptor 0), .create (.conn 0)] := by
  have hone : Sound [Act.create (Resource.descriptor 0)] := Sound.nil.create (List.forall_mem_nil _)
  exact hone.create (List.forall_mem_singleton.2 (by decide))

theorem live_start : Live [Act.create (Resource.descriptor 0), .create (.conn 0)] (.descriptor 0) ∧
    Live [Act.create (Resource.descriptor 0), .create (.conn 0)] (.conn 0) :=
  ⟨⟨by decide, by decide⟩, ⟨by decide, by decide⟩⟩

theorem inv_start (sfd junk : Nat) : Inv sfd (start sfd junk) := by
  have hconn : (start sfd junk).conns 0 = some ⟨sfd, junk⟩ := rfl
  constructor
  · exact (backed_nil fun _ => none).grant rfl
  · exact List.nodup_singleton 0
  · exact List.forall_mem_singleton.2 (Nat.le_refl 0)
  · exact List.forall_mem_singleton.2 ⟨_, hconn, rfl, fun h => absurd rfl h⟩
  · exact List.forall_mem_singleton.2 (iff_of_true rfl rfl)
  · exact List.nodup_nil
  · exact List.forall_mem_nil _
  · exact sound_start
  · exact List.forall_mem_singleton.2 live_start.1
  · exact List.forall_mem_singleton.2 live_start.2
  · exact List.forall_mem_singleton.2 fun h => absurd rfl h
  · exact show ∀ a ∈ [Act.create (Resource.descriptor 0), .create (.conn 0)], a.object.number ≤ 0 by decide

/-- An entry of `epoll` is found by its `data.ptr`. -/
theorem Inv.eq_of_snd (hs : Inv sfd s) {p q : Nat × Nat} (hp : p ∈ s.epoll) (hq : q ∈ s.epoll) (h : p.2 = q.2) :
    p = q := List.inj_on_of_nodup_map hs.single hp hq h

theorem inv_wait {ready : List (Nat × Flags)} (hs : Inv sfd s) (hnodup : (ready.map Prod.fst).Nodup)
    (hmem : ∀ k ∈ ready.map Prod.fst, k ∈ s.epoll.map Prod.snd) : Inv sfd { s with batch := ready } :=
  ⟨hs.backed, hs.single, hs.below, hs.conns, hs.listening, hnodup, hmem, hs.sound, hs.descriptor, hs.conn,
    hs.ssl, hs.known⟩

theorem inv_act {a : Act Resource} (hs : Inv sfd s) (hallowed : Allowed s.acts a)
    (hlive : ∀ x, Live s.acts x → Live (s.acts ++ [a]) x) (hknown : a.object.number ≤ s.accepted) :
    Inv sfd (s.act a) := by
  refine ⟨hs.backed, hs.single, hs.below, hs.conns, hs.listening, hs.distinct, hs.registered,
    hs.sound.snoc hallowed, fun p hp => hlive _ (hs.descriptor p hp), fun p hp => hlive _ (hs.conn p hp),
    fun p hp hne => hlive _ (hs.ssl p hp hne), ?_⟩
  exact List.forall_mem_append.2 ⟨hs.known, List.forall_mem_singleton.2 hknown⟩

theorem inv_use {x : Resource} (hs : Inv sfd s) (hx : Live s.acts x) : Inv sfd (s.act (.use x)) :=
  inv_act hs hx (fun _ hy => live_use.2 hy) (hs.known (.create x) hx.created)

/-- The registered descriptor, and what belongs to it. -/
theorem inv_remove (hs : Inv sfd s) {fd k : Nat} (hmem : (fd, k) ∈ s.epoll) (hbatch : k ∉ s.batch.map Prod.fst)
    {acts : List (Act Resource)} (hsound : Sound acts)
    (hlive : ∀ x : Resource, x.number ≠ k → Live s.acts x → Live acts x)
    (hknown : ∀ a ∈ acts, a.object.number ≤ s.accepted) :
    Inv sfd { s with
      conns := Function.update s.conns k none
      fds := Function.update s.fds fd none
      epoll := s.epoll.filter (·.1 ≠ fd)
      acts := acts } := by
  have hsub : (s.epoll.filter (·.1 ≠ fd)).Sublist s.epoll := List.filter_sublist
  have hne : ∀ p ∈ s.epoll.filter (·.1 ≠ fd), p ∈ s.epoll ∧ p.2 ≠ k := by
    intro p hp
    obtain ⟨hp, hfd⟩ := List.mem_filter.1 hp
    refine ⟨hp, fun hk => ?_⟩
    rw [hs.eq_of_snd hp hmem hk] at hfd
    exact absurd hfd (by simp)
  constructor
  · exact hs.backed.drop fd
  · exact hs.single.sublist (hsub.map _)
  · exact fun p hp => hs.below p (hne p hp).1
  · intro p hp
    dsimp only
    rw [Function.update_of_ne (hne p hp).2]
    exact hs.conns p (hne p hp).1
  · exact fun p hp => hs.listening p (hne p hp).1
  · exact hs.distinct
  · intro k' hk'
    obtain ⟨p, hp, rfl⟩ := List.mem_map.1 (hs.registered k' hk')
    refine List.mem_map.2 ⟨p, List.mem_filter.2 ⟨hp, decide_eq_true fun hfd => ?_⟩, rfl⟩
    rw [List.inj_on_of_nodup_map hs.backed.once hp hmem hfd] at hk'
    exact hbatch hk'
  · exact hsound
  · exact fun p hp => hlive _ (hne p hp).2 (hs.descriptor p (hne p hp).1)
  · exact fun p hp => hlive _ (hne p hp).2 (hs.conn p (hne p hp).1)
  · exact fun p hp h0 => hlive _ (hne p hp).2 (hs.ssl p (hne p hp).1 h0)
  · exact hknown

/-- A new connection, on a descriptor that was not open. -/
theorem inv_accept (hs : Inv sfd s) {infd : Nat} (hopen : (sfd, 0) ∈ s.epoll) (h : s.accept infd = some t) :
    Inv sfd t := by
  obtain ⟨hfree, ⟨⟩⟩ := Option.ite_none_right_eq_some.1 h
  have hnew : ∀ p ∈ s.epoll, p.2 ≠ s.accepted + 1 := by
    intro p hp he
    have := hs.below p hp
    omega
  have hfresh : ∀ x : Resource, x.number = s.accepted + 1 → ∀ a ∈ s.acts, a.object ≠ x := by
    rintro x hx a ha rfl
    have := hs.known a ha
    omega
  have hfresh₁ := hfresh (.descriptor (s.accepted + 1)) rfl
  have hfresh₂ := List.forall_mem_append.2 ⟨hfresh (.conn (s.accepted + 1)) rfl,
    List.forall_mem_singleton.2 (show Act.object (.create (Resource.descriptor (s.accepted + 1))) ≠ _ from nofun)⟩
  have hfresh₃ := List.forall_mem_append.2 ⟨List.forall_mem_append.2 ⟨hfresh (.ssl (s.accepted + 1)) rfl,
    List.forall_mem_singleton.2 (show Act.object (.create (Resource.descriptor (s.accepted + 1))) ≠ _ from nofun)⟩,
    List.forall_mem_singleton.2 (show Act.object (.create (Resource.conn (s.accepted + 1))) ≠ _ from nofun)⟩
  have hkeep : ∀ x : Resource, Live s.acts x → Live (s.acts ++ [.create (.descriptor (s.accepted + 1))] ++
      [.create (.conn (s.accepted + 1))] ++ [.create (.ssl (s.accepted + 1))]) x :=
    fun x hx => ((hx.create _).create _).create _
  constructor
  · exact hs.backed.grant hfree
  · rw [List.map_cons, List.nodup_cons]
    refine ⟨fun hmem => ?_, hs.single⟩
    obtain ⟨p, hp, he⟩ := List.mem_map.1 hmem
    exact hnew p hp he
  · exact List.forall_mem_cons.2 ⟨Nat.le_refl _, fun p hp => Nat.le_succ_of_le (hs.below p hp)⟩
  · refine List.forall_mem_cons.2 ⟨⟨_, Function.update_self .., rfl, fun _ => rfl⟩, fun p hp => ?_⟩
    dsimp only
    rw [Function.update_of_ne (hnew p hp)]
    exact hs.conns p hp
  · refine List.forall_mem_cons.2 ⟨iff_of_false (fun he => ?_) (Nat.succ_ne_zero _), hs.listening⟩
    -- the listening socket is open
    rw [show infd = sfd from he, hs.backed.kept _ hopen] at hfree
    cases hfree
  · exact hs.distinct
  · exact fun k hk => List.mem_cons_of_mem _ (hs.registered k hk)
  · exact ((hs.sound.create hfresh₁).create hfresh₂).create hfresh₃
  · exact List.forall_mem_cons.2 ⟨((live_new hfresh₁).create _).create _, fun p hp => hkeep _ (hs.descriptor p hp)⟩
  · exact List.forall_mem_cons.2 ⟨(live_new hfresh₂).create _, fun p hp => hkeep _ (hs.conn p hp)⟩
  · exact List.forall_mem_cons.2 ⟨fun _ => live_new hfresh₃, fun p hp h0 => hkeep _ (hs.ssl p hp h0)⟩
  · have hold : ∀ a ∈ s.acts, a.object.number ≤ s.accepted + 1 := fun a ha => Nat.le_succ_of_le (hs.known a ha)
    refine List.forall_mem_append.2 ⟨List.forall_mem_append.2 ⟨List.forall_mem_append.2 ⟨hold, ?_⟩, ?_⟩, ?_⟩
    · exact List.forall_mem_singleton.2 (Nat.le_refl _)
    · exact List.forall_mem_singleton.2 (Nat.le_refl _)
    · exact List.forall_mem_singleton.2 (Nat.le_refl _)

theorem inv_acceptLoop (infds : List Nat) : ∀ {s t : Sys}, Inv sfd s → (sfd, 0) ∈ s.epoll →
    acceptLoop infds s = some t → Inv sfd t := by
  induction infds with
  | nil =>
    intro s t hs _ h
    rwa [← Option.some.inj h]
  | cons infd infds ih =>
    intro s t hs hopen h
    obtain ⟨u, hu, ht⟩ := Option.bind_eq_some_iff.1 h
    refine ih (inv_accept hs hopen hu) ?_ ht
    obtain ⟨-, ⟨⟩⟩ := Option.ite_none_right_eq_some.1 hu
    exact List.mem_cons_of_mem _ hopen

variable {fd k : Nat}

theorem close_eq (hs : Inv sfd s) (hmem : (fd, k) ∈ s.epoll) (acts : List (Act Resource)) :
    (({ s with acts := acts } : Sys).close k fd).freeConn k =
      { s with
        conns := Function.update s.conns k none
        fds := Function.update s.fds fd none
        epoll := s.epoll.filter (·.1 ≠ fd)
        acts := acts ++ [.release (.descriptor k)] ++ [.release (.conn k)] } := by
  unfold Sys.close Sys.freeConn
  dsimp only
  rw [hs.backed.kept _ hmem, Option.getD_some]

/-- The branch for errors. -/
theorem inv_close (hs : Inv sfd s) (hmem : (fd, k) ∈ s.epoll) (hbatch : k ∉ s.batch.map Prod.fst) :
    Inv sfd ((s.close k fd).freeConn k) := by
  rw [close_eq hs hmem s.acts]
  have hdescriptor : Live s.acts (.descriptor k) := hs.descriptor _ hmem
  have hconn : Live s.acts (.conn k) := hs.conn _ hmem
  have hknown : k ≤ s.accepted := hs.below _ hmem
  refine inv_remove hs hmem hbatch ?_ ?_ ?_
  · exact (hs.sound.release hdescriptor).release (live_release.2 ⟨hconn, nofun⟩)
  · intro x hx hlive
    exact live_release.2 ⟨live_release.2 ⟨hlive, fun he => hx (he ▸ rfl)⟩, fun he => hx (he ▸ rfl)⟩
  · exact List.forall_mem_append.2 ⟨List.forall_mem_append.2 ⟨hs.known, List.forall_mem_singleton.2 hknown⟩,
      List.forall_mem_singleton.2 hknown⟩

/-- The branch of `done`. -/
theorem inv_free (hs : Inv sfd s) (hmem : (fd, k) ∈ s.epoll) (hbatch : k ∉ s.batch.map Prod.fst) (h0 : k ≠ 0) :
    Inv sfd (((s.act (.release (.ssl k))).close k fd).freeConn k) := by
  rw [Sys.act, close_eq hs hmem]
  have hdescriptor : Live s.acts (.descriptor k) := hs.descriptor _ hmem
  have hconn : Live s.acts (.conn k) := hs.conn _ hmem
  have hknown : k ≤ s.accepted := hs.below _ hmem
  refine inv_remove hs hmem hbatch ?_ ?_ ?_
  · exact ((hs.sound.release (hs.ssl _ hmem h0)).release (live_release.2 ⟨hdescriptor, nofun⟩)).release
      (live_release.2 ⟨live_release.2 ⟨hconn, nofun⟩, nofun⟩)
  · intro x hx hlive
    exact live_release.2 ⟨live_release.2 ⟨live_release.2 ⟨hlive, fun he => hx (he ▸ rfl)⟩,
      fun he => hx (he ▸ rfl)⟩, fun he => hx (he ▸ rfl)⟩
  · exact List.forall_mem_append.2 ⟨List.forall_mem_append.2 ⟨List.forall_mem_append.2 ⟨hs.known,
      List.forall_mem_singleton.2 hknown⟩, List.forall_mem_singleton.2 hknown⟩, List.forall_mem_singleton.2 hknown⟩

/-! ## One turn -/

/-- What a turn of the inner loop does, for the registered descriptor `fd`. -/
theorem handle_cases {flags : Flags} {calls : Calls} (hs : Inv sfd s) (hmem : (fd, k) ∈ s.epoll)
    (h : handle sfd k flags calls s = some t) :
    (flags.fails = true ∧ t = ((s.act (.use (.conn k))).close k fd).freeConn k) ∨
      (flags.fails = false ∧ fd = sfd ∧ acceptLoop calls.accepted (s.act (.use (.conn k))) = some t) ∨
        (flags.fails = false ∧ k ≠ 0 ∧
          (t = (s.act (.use (.conn k))).act (.use (.ssl k)) ∨
            t = ((((s.act (.use (.conn k))).act (.use (.ssl k))).act
              (.release (.ssl k))).close k fd).freeConn k)) := by
  obtain ⟨c, hc, rfl, hssl⟩ := hs.conns _ hmem
  unfold handle at h
  dsimp only at h hssl
  rw [show (s.act (.use (.conn k))).conns k = some c from hc] at h
  dsimp only at h
  by_cases hfails : flags.fails = true
  · rw [if_pos hfails] at h
    exact .inl ⟨hfails, (Option.some.inj h).symm⟩
  · have hno : flags.fails = false := Bool.not_eq_true _ ▸ hfails
    rw [if_neg hfails] at h
    by_cases hsfd : sfd = c.fd
    · rw [if_pos hsfd] at h
      exact .inr (.inl ⟨hno, hsfd.symm, h⟩)
    · have h0 : k ≠ 0 := fun h0 => hsfd ((hs.listening _ hmem).2 h0).symm
      refine .inr (.inr ⟨hno, h0, ?_⟩)
      rw [if_neg hsfd, hssl h0] at h
      split at h
      · obtain ⟨-, -, ht⟩ := Option.map_eq_some_iff.1 h
        exact .inl ht.symm
      · split at h
        · exact .inr (Option.some.inj h).symm
        · exact .inl (Option.some.inj h).symm

theorem handle_inv {flags : Flags} {calls : Calls} (hs : Inv sfd s) (hmem : (fd, k) ∈ s.epoll)
    (hbatch : k ∉ s.batch.map Prod.fst) (h : handle sfd k flags calls s = some t) : Inv sfd t := by
  have huse := inv_use hs (hs.conn _ hmem)
  rcases handle_cases hs hmem h with ⟨-, rfl⟩ | ⟨-, rfl, haccept⟩ | ⟨-, h0, hcases⟩
  · exact inv_close huse hmem hbatch
  · have hk : k = 0 := (hs.listening _ hmem).1 rfl
    exact inv_acceptLoop _ huse (hk ▸ hmem) haccept
  · have hssl := inv_use huse (huse.ssl _ hmem h0)
    rcases hcases with rfl | rfl
    · exact hssl
    · exact inv_free hssl hmem hbatch h0

/-- The next event in the batch. -/
theorem next_registered {flags : Flags} {rest : List (Nat × Flags)} (hs : Inv sfd s)
    (hbatch : s.batch = (k, flags) :: rest) :
    Inv sfd { s with batch := rest } ∧ (∃ fd, (fd, k) ∈ s.epoll) ∧ k ∉ rest.map Prod.fst := by
  have hdistinct := hs.distinct
  have hregistered := hs.registered
  rw [hbatch, List.map_cons] at hdistinct hregistered
  obtain ⟨hk, hrest⟩ := List.forall_mem_cons.1 hregistered
  obtain ⟨⟨fd, k'⟩, hmem, rfl⟩ := List.mem_map.1 hk
  exact ⟨inv_wait hs (List.nodup_cons.1 hdistinct).2 hrest, ⟨fd, hmem⟩, (List.nodup_cons.1 hdistinct).1⟩

theorem step_inv {e : Event} (hs : Inv sfd s) (hstep : step sfd s e t) : Inv sfd t := by
  cases e with
  | wait ready =>
    obtain ⟨⟨-, -, hnodup, hmem⟩, ⟨⟩⟩ := Option.ite_none_right_eq_some.1 hstep
    exact inv_wait hs hnodup hmem
  | handle calls =>
    rw [step, stepFn] at hstep
    cases hbatch : s.batch with
    | nil =>
      rw [hbatch] at hstep
      cases hstep
    | cons event rest =>
      rw [hbatch] at hstep
      obtain ⟨hrest, ⟨fd, hmem⟩, hnext⟩ := next_registered hs hbatch
      exact handle_inv hrest hmem hnext hstep

end

/-! ## What has left `epoll` -/

/-- A connection that was accepted and is no longer registered. -/
def Gone (s : Sys) (k : Nat) : Prop := 0 < k ∧ k ≤ s.accepted ∧ k ∉ s.epoll.map Prod.snd

structure Freed (acts : List (Act Resource)) (k : Nat) : Prop where
  descriptor : .release (.descriptor k) ∈ acts
  conn : .release (.conn k) ∈ acts
  ssl : .release (.ssl k) ∈ acts

def AllFreed (s : Sys) : Prop := ∀ k, Gone s k → Freed s.acts k

/-- It is gone, and its `SSL` is still there. -/
def Leaked (s : Sys) (k : Nat) : Prop := Gone s k ∧ .release (.ssl k) ∉ s.acts

section

variable {sfd fd k j : Nat} {s t : Sys} {acts l : List (Act Resource)}

theorem Freed.append (h : Freed acts j) : Freed (acts ++ l) j :=
  ⟨List.mem_append_left _ h.descriptor, List.mem_append_left _ h.conn, List.mem_append_left _ h.ssl⟩

theorem gone_accept {infd : Nat} (h : s.accept infd = some t) : Gone t j ↔ Gone s j := by
  obtain ⟨-, ⟨⟩⟩ := Option.ite_none_right_eq_some.1 h
  unfold Gone
  dsimp only
  rw [List.map_cons, List.mem_cons, not_or]
  constructor
  · rintro ⟨hpos, hle, hne, hmem⟩
    exact ⟨hpos, by omega, hmem⟩
  · rintro ⟨hpos, hle, hmem⟩
    exact ⟨hpos, by omega, by omega, hmem⟩

/-- New connections are registered, and nothing is released. -/
theorem acceptLoop_gone (infds : List Nat) : ∀ {s t : Sys}, acceptLoop infds s = some t →
    (∀ j, Gone t j ↔ Gone s j) ∧ ∃ l, t.acts = s.acts ++ l ∧ ∀ x, .release x ∉ l := by
  induction infds with
  | nil =>
    intro s t h
    rw [← Option.some.inj h]
    exact ⟨fun _ => Iff.rfl, [], (List.append_nil _).symm, fun _ => List.not_mem_nil⟩
  | cons infd infds ih =>
    intro s t h
    obtain ⟨u, hu, ht⟩ := Option.bind_eq_some_iff.1 h
    obtain ⟨hgone, l, hacts, hl⟩ := ih ht
    refine ⟨fun j => (hgone j).trans (gone_accept hu), ?_⟩
    obtain ⟨-, ⟨⟩⟩ := Option.ite_none_right_eq_some.1 hu
    refine ⟨[.create (.descriptor (s.accepted + 1)), .create (.conn (s.accepted + 1)),
      .create (.ssl (s.accepted + 1))] ++ l, ?_, fun x hx => ?_⟩
    · rw [hacts]
      dsimp only
      simp only [List.append_assoc, List.cons_append, List.nil_append]
    · rcases List.mem_append.1 hx with hx | hx
      · simp at hx
      · exact hl x hx

theorem gone_remove (hs : Inv sfd s) (hmem : (fd, k) ∈ s.epoll)
    {conns : Nat → Option Conn} {fds : Nat → Option Nat} :
    Gone { s with conns := conns, fds := fds, epoll := s.epoll.filter (·.1 ≠ fd), acts := acts } j ↔
      Gone s j ∨ j = k ∧ k ≠ 0 := by
  have hfilter : j ∈ (s.epoll.filter (·.1 ≠ fd)).map Prod.snd ↔ j ∈ s.epoll.map Prod.snd ∧ j ≠ k := by
    constructor
    · intro h
      obtain ⟨p, hp, rfl⟩ := List.mem_map.1 h
      obtain ⟨hp, hne⟩ := List.mem_filter.1 hp
      refine ⟨List.mem_map_of_mem hp, fun hk => ?_⟩
      rw [hs.eq_of_snd hp hmem hk] at hne
      exact of_decide_eq_true hne rfl
    · rintro ⟨h, hk⟩
      obtain ⟨p, hp, rfl⟩ := List.mem_map.1 h
      refine List.mem_map_of_mem (List.mem_filter.2 ⟨hp, decide_eq_true fun hfd => hk ?_⟩)
      rw [List.inj_on_of_nodup_map hs.backed.once hp hmem hfd]
  have hle : k ≤ s.accepted := hs.below _ hmem
  have hk : k ∈ s.epoll.map Prod.snd := List.mem_map_of_mem hmem
  unfold Gone
  dsimp only
  rw [hfilter]
  constructor
  · rintro ⟨hpos, hj, hnot⟩
    by_cases hjk : j = k
    · exact .inr ⟨hjk, by omega⟩
    · exact .inl ⟨hpos, hj, fun h => hnot ⟨h, hjk⟩⟩
  · rintro (⟨hpos, hj, hnot⟩ | ⟨rfl, h0⟩)
    · exact ⟨hpos, hj, fun h => hnot h.1⟩
    · exact ⟨by omega, hle, fun h => h.2 rfl⟩

/-- A turn for an event that is not an error, or for the listening socket. -/
theorem handle_allFreed {flags : Flags} {calls : Calls} (hs : Inv sfd s) (hmem : (fd, k) ∈ s.epoll)
    (h : handle sfd k flags calls s = some t) (hclean : k ≠ 0 → flags.fails = false) (hall : AllFreed s) :
    AllFreed t := by
  intro j hj
  rcases handle_cases hs hmem h with ⟨hfails, rfl⟩ | ⟨-, -, haccept⟩ | ⟨-, h0, rfl | rfl⟩
  · rw [Sys.act, close_eq hs hmem] at hj ⊢
    rcases (gone_remove hs hmem).1 hj with hj | ⟨-, h0⟩
    · exact (hall j hj).append.append.append
    · exact absurd (hfails.symm.trans (hclean h0)) (by decide)
  · obtain ⟨hgone, l, hacts, -⟩ := acceptLoop_gone _ haccept
    rw [hacts]
    exact (hall j ((hgone j).1 hj)).append.append
  · exact (hall j hj).append.append
  · rw [Sys.act, Sys.act, Sys.act, close_eq hs hmem] at hj ⊢
    rcases (gone_remove hs hmem).1 hj with hj | ⟨rfl, -⟩
    · exact (hall j hj).append.append.append.append.append
    · exact ⟨by simp, by simp, by simp⟩

theorem handle_leaked {flags : Flags} {calls : Calls} (hs : Inv sfd s) (hmem : (fd, k) ∈ s.epoll)
    (h : handle sfd k flags calls s = some t) (hj : Leaked s j) : Leaked t j := by
  have hne : j ≠ k := fun he => hj.1.2.2 (he ▸ List.mem_map_of_mem hmem)
  rcases handle_cases hs hmem h with ⟨-, rfl⟩ | ⟨-, -, haccept⟩ | ⟨-, -, rfl | rfl⟩
  · rw [Sys.act, close_eq hs hmem]
    exact ⟨(gone_remove hs hmem).2 (.inl hj.1), by simpa using hj.2⟩
  · obtain ⟨hgone, l, hacts, hl⟩ := acceptLoop_gone _ haccept
    refine ⟨(hgone j).2 hj.1, ?_⟩
    rw [hacts, List.mem_append, not_or]
    exact ⟨by simpa [Sys.act] using hj.2, hl _⟩
  · exact ⟨hj.1, by simpa [Sys.act] using hj.2⟩
  · rw [Sys.act, Sys.act, Sys.act, close_eq hs hmem]
    exact ⟨(gone_remove hs hmem).2 (.inl hj.1), by simpa [hne] using hj.2⟩

/-- The branch for errors forgets the `SSL`. -/
theorem handle_leaks {flags : Flags} {calls : Calls} (hs : Inv sfd s) (hmem : (fd, k) ∈ s.epoll)
    (h : handle sfd k flags calls s = some t) (h0 : k ≠ 0) (hfails : flags.fails = true) : Leaked t k := by
  have hkept := (hs.ssl _ hmem h0).kept
  rcases handle_cases hs hmem h with ⟨-, rfl⟩ | ⟨hno, -⟩ | ⟨hno, -⟩
  · rw [Sys.act, close_eq hs hmem]
    exact ⟨(gone_remove hs hmem).2 (.inr ⟨rfl, h0⟩), by simpa using hkept⟩
  · exact absurd (hfails.symm.trans hno) (by decide)
  · exact absurd (hfails.symm.trans hno) (by decide)

end

/-! ## Runs -/

/-- An error is reported of an accepted connection, which is next in the batch. -/
def reportsError (s : Sys) : Event → Bool
  | .wait _ => false
  | .handle _ => s.batch.head?.any fun p => p.1 ≠ 0 && p.2.fails

abbrev Clean (s : Sys) (e : Event) : Prop := reportsError s e = false

/-- Released once at most, not used after that, and all of it once it is not registered any more. -/
structure Released (s : Sys) : Prop where
  once : ∀ x, s.acts.count (.release x) ≤ 1
  unused : ∀ l₁ x l₂, s.acts = l₁ ++ .release x :: l₂ → .use x ∉ l₂
  all : ∀ k, Gone s k → Freed s.acts k

section

variable {sfd : Nat} {s t : Sys} {e : Event}

theorem step_allFreed (hs : Inv sfd s) (hstep : step sfd s e t) (hclean : Clean s e) (hall : AllFreed s) :
    AllFreed t := by
  cases e with
  | wait ready =>
    obtain ⟨-, ⟨⟩⟩ := Option.ite_none_right_eq_some.1 hstep
    exact hall
  | handle calls =>
    rw [step, stepFn] at hstep
    rw [Clean, reportsError] at hclean
    cases hbatch : s.batch with
    | nil =>
      rw [hbatch] at hstep
      cases hstep
    | cons event rest =>
      rw [hbatch] at hstep hclean
      obtain ⟨hrest, ⟨fd, hmem⟩, -⟩ := next_registered hs hbatch
      exact handle_allFreed hrest hmem hstep (fun h0 => by simpa [h0] using hclean) hall

theorem step_leaked {j : Nat} (hs : Inv sfd s) (hstep : step sfd s e t) (hj : Leaked s j) : Leaked t j := by
  cases e with
  | wait ready =>
    obtain ⟨-, ⟨⟩⟩ := Option.ite_none_right_eq_some.1 hstep
    exact hj
  | handle calls =>
    rw [step, stepFn] at hstep
    cases hbatch : s.batch with
    | nil =>
      rw [hbatch] at hstep
      cases hstep
    | cons event rest =>
      rw [hbatch] at hstep
      obtain ⟨hrest, ⟨fd, hmem⟩, -⟩ := next_registered hs hbatch
      exact handle_leaked hrest hmem hstep hj

theorem step_leaks (hs : Inv sfd s) (hstep : step sfd s e t) (herror : ¬ Clean s e) : ∃ j, Leaked t j := by
  rw [Clean, Bool.not_eq_false] at herror
  cases e with
  | wait ready => cases herror
  | handle calls =>
    rw [step, stepFn] at hstep
    rw [reportsError] at herror
    cases hbatch : s.batch with
    | nil =>
      rw [hbatch] at hstep
      cases hstep
    | cons event rest =>
      rw [hbatch] at hstep herror
      rw [List.head?_cons, Option.any_some, Bool.and_eq_true, decide_eq_true_eq] at herror
      obtain ⟨hrest, ⟨fd, hmem⟩, -⟩ := next_registered hs hbatch
      exact ⟨_, handle_leaks hrest hmem hstep herror.1 herror.2⟩

theorem Inv.released (hs : Inv sfd s) (hall : AllFreed s) : Released s :=
  ⟨hs.sound.count_release_le_one, fun _ _ _ he => hs.sound.not_used he, hall⟩

/-- **Release.**  Each resource of a connection is released once, and all of them are, exactly if no
error is reported of an accepted connection. -/
theorem released_iff {junk : Nat} {es : List Event} (h : Run (step sfd) (start sfd junk) es s) :
    Released s ↔ Run (Under (step sfd) Clean) (start sfd junk) es s := by
  have hinv : ∀ {es s}, Run (step sfd) (start sfd junk) es s → Inv sfd s := fun hr =>
    hr.invariant (Inv sfd) (fun _ _ _ hs hst => step_inv hs hst) (inv_start sfd junk)
  constructor
  · intro hreleased
    rcases h.sometime_or_never fun s e => ¬ Clean s e with
      ⟨es₁, e, es₂, u, v, rfl, hbefore, hstep, herror, hafter⟩ | hnever
    · have hu := hinv hbefore
      obtain ⟨j, hj⟩ := step_leaks hu hstep herror
      have hkept : Inv sfd s ∧ Leaked s j := hafter.invariant (fun s => Inv sfd s ∧ Leaked s j)
        (fun _ _ _ hs hst => ⟨step_inv hs.1 hst, step_leaked hs.1 hst hs.2⟩) ⟨step_inv hu hstep, hj⟩
      exact absurd (hreleased.all j hkept.2.1).ssl hkept.2.2
    · exact hnever.mono fun _ _ _ hst => ⟨hst.1, not_not.1 hst.2⟩
  · intro hclean
    have hgood : Inv sfd s ∧ AllFreed s := hclean.invariant (fun s => Inv sfd s ∧ AllFreed s)
      (fun _ _ _ hs hst => ⟨step_inv hs.1 hst.1, step_allFreed hs.1 hst.1 hst.2 hs.2⟩)
      ⟨inv_start sfd junk, fun k hk => absurd hk.2.1 (Nat.not_le.2 hk.1)⟩
    exact hgood.1.released hgood.2

end

/-- One connection, on descriptor 5: the event that closes it has the flags `flags`. -/
def visit (flags : Flags) : List Event :=
  [.wait [(0, ⟨false, false, true⟩)], .handle ⟨[5], false, 0, .other, 0, .other⟩,
    .wait [(1, flags)], .handle ⟨[], true, 0, .other, 0, .other⟩]

theorem released_iff_closed : ∃ s, Run (step 3) (start 3 0) (visit ⟨false, false, true⟩) s ∧
    s.epoll = [(3, 0)] ∧ Released s := by
  obtain ⟨s, hrun, hepoll⟩ := run_of_exec_map (guarded (stepFn 3) Clean) (start 3 0)
    (visit ⟨false, false, true⟩) Sys.epoll (a := [(3, 0)]) (by decide)
  have hgood := hrun.of_guarded
  have hall : Run (step 3) _ _ s := hgood.mono fun _ _ _ h => h.1
  exact ⟨s, hall, hepoll, (released_iff hall).2 hgood⟩

/-- A connection that is reset: its `SSL` is not freed. -/
theorem reset_leaks : ∃ s, Run (step 3) (start 3 0) (visit ⟨true, true, true⟩) s ∧
    s.epoll = [(3, 0)] ∧ ¬ Released s := by
  obtain ⟨s, hrun, hend⟩ := run_of_exec_map (stepFn 3) (start 3 0) (visit ⟨true, true, true⟩)
    (fun s => (s.epoll, s.accepted, decide (Act.release (Resource.ssl 1) ∈ s.acts)))
    (a := ([(3, 0)], 1, false)) (by decide)
  obtain ⟨hepoll, hend⟩ := Prod.mk.inj hend
  obtain ⟨haccepted, hacts⟩ := Prod.mk.inj hend
  refine ⟨s, hrun, hepoll, fun h => ?_⟩
  have hgone : Gone s 1 := by
    refine ⟨Nat.one_pos, Nat.le_of_eq haccepted.symm, ?_⟩
    rw [hepoll]
    decide
  exact of_decide_eq_false hacts (h.all 1 hgone).ssl

end CPrograms.UseSsl
