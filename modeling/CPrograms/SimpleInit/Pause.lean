import CPrograms.Lib.Runs

/-!
# `simple_init.c`

The parent forks, calls `pause` and waits for a signal; `child_handler` may run at any time.  If
it runs between the two and there is no child left that has not terminated, `pause` waits for
nothing; no other run does (`wakeable_iff`).

Between the steps of the parent and the handler the children change as they like, and the init
process may be given orphans.  A child that cannot expand its command goes on in the loop; to the
parent it is one that runs.  `SA_NOCLDSTOP` is set: only a child that terminates sends `SIGCHLD`.
-/

namespace CPrograms.SimpleInit

open Runs

/-! ## The handler -/

inductive Status
  | running
  | stopped
  | terminated
deriving DecidableEq

/-- A child that was not reaped, and whether its status is still to be reported. -/
structure Child where
  status : Status
  changed : Bool
deriving DecidableEq

/-- `waitpid` with the flags of the handler; `none`: no child has changed, or there is none. -/
def waitpid : List Child → Option (List Child)
  | [] => none
  | c :: children =>
    if c.changed then
      some (if c.status = .terminated then children else ⟨c.status, false⟩ :: children)
    else (waitpid children).map (c :: ·)

theorem countP_waitpid {children : List Child} : ∀ {children' : List Child},
    waitpid children = some children' → children'.countP Child.changed < children.countP Child.changed := by
  induction children with
  | nil => exact fun h => nomatch h
  | cons c children ih =>
    intro children' h
    rw [waitpid] at h
    cases hc : c.changed with
    | true =>
      rw [hc, if_pos rfl, Option.some.injEq] at h
      rw [← h, List.countP_cons_of_pos hc]
      split
      · exact Nat.lt_succ_self _
      · rw [List.countP_cons_of_neg (Bool.false_ne_true)]
        exact Nat.lt_succ_self _
    | false =>
      rw [hc, if_neg Bool.false_ne_true, Option.map_eq_some_iff] at h
      obtain ⟨rest, hrest, rfl⟩ := h
      rw [List.countP_cons_of_neg (hc ▸ Bool.false_ne_true), List.countP_cons_of_neg (hc ▸ Bool.false_ne_true)]
      exact ih hrest

/-- `child_handler`: it loops until there is nothing more to report. -/
def childHandler (children : List Child) : List Child :=
  match _h : waitpid children with
  | none => children
  | some children' => childHandler children'
termination_by children.countP Child.changed
decreasing_by exact countP_waitpid _h

/-- The children that were not reaped, all reported. -/
def reported (children : List Child) : List Child :=
  (children.filter fun c => ¬ (c.changed = true ∧ c.status = .terminated)).map fun c => ⟨c.status, false⟩

theorem reported_cons (c : Child) (children : List Child) :
    reported (c :: children) =
      if c.changed = true ∧ c.status = .terminated then reported children
      else ⟨c.status, false⟩ :: reported children := by
  unfold reported
  rw [List.filter_cons]
  by_cases h : c.changed = true ∧ c.status = .terminated
  · rw [if_pos h, if_neg (by rwa [decide_eq_true_eq, not_not])]
  · rw [if_neg h, if_pos (decide_eq_true h), List.map_cons]

theorem reported_waitpid {children : List Child} : ∀ {children' : List Child},
    waitpid children = some children' → reported children' = reported children := by
  induction children with
  | nil => exact fun h => nomatch h
  | cons c children ih =>
    intro children' h
    rw [waitpid] at h
    cases hc : c.changed with
    | true =>
      rw [hc, if_pos rfl, Option.some.injEq] at h
      rw [← h, reported_cons]
      by_cases hterm : c.status = .terminated
      · rw [if_pos hterm, if_pos ⟨hc, hterm⟩]
      · rw [if_neg hterm, if_neg (fun h => hterm h.2), reported_cons, if_neg (fun h => hterm h.2)]
    | false =>
      rw [hc, if_neg Bool.false_ne_true, Option.map_eq_some_iff] at h
      obtain ⟨rest, hrest, rfl⟩ := h
      rw [reported_cons, reported_cons, ih hrest]

theorem reported_of_waitpid {children : List Child} (h : waitpid children = none) :
    reported children = children := by
  induction children with
  | nil => rfl
  | cons c children ih =>
    rw [waitpid] at h
    cases hc : c.changed with
    | true =>
      rw [hc, if_pos rfl] at h
      cases h
    | false =>
      rw [hc, if_neg Bool.false_ne_true, Option.map_eq_none_iff] at h
      rw [reported_cons, if_neg (fun hand => Bool.false_ne_true (hc ▸ hand.1)), ih h, ← hc]

theorem childHandler_eq (children : List Child) : childHandler children = reported children := by
  induction children using childHandler.induct with
  | case1 children h =>
    rw [reported_of_waitpid h, childHandler]
    split
    · rfl
    · next h' => exact absurd (h.symm.trans h') (Option.some_ne_none _).symm
  | case2 children children' h ih =>
    rw [← reported_waitpid h, ← ih, childHandler]
    split
    · next h' => exact absurd (h.symm.trans h') (Option.some_ne_none _)
    · next h' => rw [Option.some.inj (h'.symm.trans h)]

theorem mem_childHandler {children : List Child} {c : Child} :
    c ∈ childHandler children ↔
      ∃ c' ∈ children, ¬ (c'.changed = true ∧ c'.status = .terminated) ∧ ⟨c'.status, false⟩ = c := by
  rw [childHandler_eq, reported, List.mem_map]
  simp only [List.mem_filter, decide_eq_true_eq, and_assoc]

/-! ## The parent -/

inductive Parent
  /-- in `fgets`, which `SA_RESTART` starts again -/
  | reading
  /-- between `fork` and `pause` -/
  | forked
  | paused
  | exited
deriving DecidableEq

structure Sys where
  parent : Parent
  children : List Child
  /-- a `SIGCHLD` that was not handled -/
  pending : Bool
deriving DecidableEq

inductive Event
  | emptyLine
  /-- a command, and `fork` succeeds -/
  | command
  /-- the end of the input, or an error -/
  | quit
  | pause
  | handler
  /-- an orphan -/
  | adopt
  | change (i : Nat) (status : Status)

def stepFn (s : Sys) : Event → Option Sys
  | .emptyLine => if s.parent = .reading then some s else none
  | .command =>
    if s.parent = .reading then some ⟨.forked, s.children ++ [⟨.running, false⟩], s.pending⟩ else none
  | .quit => if s.parent = .reading then some { s with parent := .exited } else none
  | .pause => if s.parent = .forked then some { s with parent := .paused } else none
  | .handler =>
    if s.parent ≠ .exited ∧ s.pending = true then
      some ⟨if s.parent = .paused then .reading else s.parent, childHandler s.children, false⟩
    else none
  | .adopt => some { s with children := s.children ++ [⟨.running, false⟩] }
  | .change i status =>
    match s.children[i]? with
    | none => none
    | some c =>
      if c.status = .terminated ∨ c.status = status then none
      else some { s with
        children := s.children.set i ⟨status, true⟩
        pending := s.pending || status = .terminated }

abbrev step (s : Sys) (e : Event) (t : Sys) : Prop := stepFn s e = some t

def start : Sys := ⟨.reading, [], false⟩

/-- Where the parent is blocked, a child has not terminated, or its `SIGCHLD` was not handled. -/
def Wakeable (s : Sys) : Prop :=
  s.parent = .paused → ∃ c ∈ s.children, c.status ≠ .terminated ∨ s.pending = true

/-- Between `fork` and `pause` the handler finds a child that has not terminated. -/
def Timely (s : Sys) (e : Event) : Prop :=
  e = .handler → s.parent = .forked → ∃ c ∈ s.children, c.status ≠ .terminated

instance (s : Sys) (e : Event) : Decidable (Timely s e) :=
  match e with
  | .handler => decidable_of_iff (s.parent = .forked → ∃ c ∈ s.children, c.status ≠ .terminated)
      ⟨fun h _ => h, fun h => h rfl⟩
  | .emptyLine | .command | .quit | .pause | .adopt | .change .. => isTrue fun h => nomatch h

/-- Of a child that has terminated nobody was told. -/
def Unreported (s : Sys) : Prop :=
  ∀ c ∈ s.children, c.status = .terminated → c.changed = true ∧ s.pending = true

/-- After a `fork` there is a child, until the parent reads again. -/
structure Inv (s : Sys) : Prop where
  unreported : Unreported s
  forked : s.parent = .forked → s.children ≠ []
  paused : s.parent = .paused → s.children ≠ []

theorem Inv.wakeable {s : Sys} (hs : Inv s) : Wakeable s := by
  intro hpaused
  obtain ⟨c, hc⟩ := List.exists_mem_of_ne_nil _ (hs.paused hpaused)
  refine ⟨c, hc, ?_⟩
  by_cases hterm : c.status = .terminated
  · exact .inr (hs.unreported c hc hterm).2
  · exact .inl hterm

theorem inv_start : Inv start := ⟨List.forall_mem_nil _, nofun, nofun⟩

section

variable {s t : Sys} {e : Event}

/-- A running child. -/
theorem unreported_append (hs : Unreported s) (p : Parent) :
    Unreported ⟨p, s.children ++ [⟨.running, false⟩], s.pending⟩ := by
  intro c hc hterm
  rcases List.mem_append.1 hc with hc | hc
  · exact hs c hc hterm
  · rw [List.mem_singleton.1 hc] at hterm
    cases hterm

/-- After the handler no child is left that has terminated. -/
theorem unreported_handler (hs : Unreported s) (p : Parent) : Unreported ⟨p, childHandler s.children, false⟩ := by
  intro c hc hterm
  obtain ⟨c', hmem, hnot, rfl⟩ := mem_childHandler.1 hc
  exact absurd ⟨(hs c' hmem hterm).1, hterm⟩ hnot

theorem unreported_change (hs : Unreported s) (i : Nat) (status : Status) :
    Unreported { s with
      children := s.children.set i ⟨status, true⟩
      pending := s.pending || status = .terminated } := by
  intro c hc hterm
  dsimp only
  rcases List.mem_or_eq_of_mem_set hc with hmem | rfl
  · have hold := hs c hmem hterm
    exact ⟨hold.1, by rw [hold.2]; rfl⟩
  · refine ⟨rfl, ?_⟩
    rw [show status = .terminated from hterm]
    exact Bool.or_true _

theorem step_change {i : Nat} {status : Status} (hstep : step s (.change i status) t) :
    t = { s with
      children := s.children.set i ⟨status, true⟩
      pending := s.pending || status = .terminated } := by
  rw [step, stepFn] at hstep
  cases hget : s.children[i]? with
  | none =>
    rw [hget] at hstep
    cases hstep
  | some c =>
    rw [hget] at hstep
    obtain ⟨-, ⟨⟩⟩ := Option.ite_none_left_eq_some.1 hstep
    rfl

theorem step_unreported (hs : Unreported s) (hstep : step s e t) : Unreported t := by
  cases e with
  | emptyLine =>
    obtain ⟨-, ⟨⟩⟩ := Option.ite_none_right_eq_some.1 hstep
    exact hs
  | command =>
    obtain ⟨-, ⟨⟩⟩ := Option.ite_none_right_eq_some.1 hstep
    exact unreported_append hs .forked
  | quit =>
    obtain ⟨-, ⟨⟩⟩ := Option.ite_none_right_eq_some.1 hstep
    exact hs
  | pause =>
    obtain ⟨-, ⟨⟩⟩ := Option.ite_none_right_eq_some.1 hstep
    exact hs
  | handler =>
    obtain ⟨-, ⟨⟩⟩ := Option.ite_none_right_eq_some.1 hstep
    exact unreported_handler hs _
  | adopt =>
    rw [← Option.some.inj hstep]
    exact unreported_append hs s.parent
  | change i status =>
    rw [step_change hstep]
    exact unreported_change hs i status

theorem step_inv (hs : Inv s) (hstep : step s e t) (htimely : Timely s e) : Inv t := by
  have hunreported := step_unreported hs.unreported hstep
  have hrunning : s.children ++ [⟨.running, false⟩] ≠ [] :=
    List.append_ne_nil_of_right_ne_nil _ (List.cons_ne_nil _ _)
  cases e with
  | emptyLine =>
    obtain ⟨-, ⟨⟩⟩ := Option.ite_none_right_eq_some.1 hstep
    exact hs
  | command =>
    obtain ⟨-, ⟨⟩⟩ := Option.ite_none_right_eq_some.1 hstep
    exact ⟨hunreported, fun _ => hrunning, fun _ => hrunning⟩
  | quit =>
    obtain ⟨-, ⟨⟩⟩ := Option.ite_none_right_eq_some.1 hstep
    exact ⟨hunreported, nofun, nofun⟩
  | pause =>
    obtain ⟨hforked, ⟨⟩⟩ := Option.ite_none_right_eq_some.1 hstep
    exact ⟨hunreported, nofun, fun _ => hs.forked hforked⟩
  | handler =>
    obtain ⟨-, ⟨⟩⟩ := Option.ite_none_right_eq_some.1 hstep
    by_cases hpaused : s.parent = .paused
    · rw [if_pos hpaused] at hunreported ⊢
      exact ⟨hunreported, nofun, nofun⟩
    · rw [if_neg hpaused] at hunreported ⊢
      refine ⟨hunreported, fun hforked => ?_, fun h => absurd h hpaused⟩
      obtain ⟨c, hc, hterm⟩ := htimely rfl hforked
      exact List.ne_nil_of_mem (mem_childHandler.2 ⟨c, hc, fun h => hterm h.2, rfl⟩)
  | adopt =>
    rw [← Option.some.inj hstep] at hunreported ⊢
    exact ⟨hunreported, fun _ => hrunning, fun _ => hrunning⟩
  | change i status =>
    have hset (h : s.children ≠ []) : s.children.set i ⟨status, true⟩ ≠ [] := by
      rwa [Ne, List.set_eq_nil_iff]
    rw [step_change hstep] at hunreported ⊢
    exact ⟨hunreported, fun h => hset (hs.forked h), fun h => hset (hs.paused h)⟩

/-- A handler that is not timely leaves a `pause` that nothing ends. -/
theorem asleep_of_not_timely (hs : Unreported s) (hstep : step s e t) (h : ¬ Timely s e) :
    ∃ u, step t .pause u ∧ ¬ Wakeable u := by
  unfold Timely at h
  rw [Classical.not_imp, Classical.not_imp] at h
  obtain ⟨rfl, hforked, hnone⟩ := h
  obtain ⟨-, ⟨⟩⟩ := Option.ite_none_right_eq_some.1 hstep
  refine ⟨_, if_pos (by rw [hforked, if_neg (by decide)]), fun hwake => ?_⟩
  obtain ⟨c, hc, -⟩ := hwake rfl
  obtain ⟨c', hmem, hnot, -⟩ := mem_childHandler.1 hc
  have hterm : c'.status = .terminated := by
    by_contra hterm
    exact hnone ⟨c', hmem, hterm⟩
  exact hnot ⟨(hs c' hmem hterm).1, hterm⟩

end

section

variable {s : Sys} {es : List Event}

theorem inv_of_run (h : Run (Under step Timely) start es s) : Inv s :=
  h.invariant Inv (fun _ _ _ hs hst => step_inv hs hst.1 hst.2) inv_start

theorem run_unique {t : Sys} (h : Run step start es s) (h' : Run step start es t) : s = t :=
  h.unique (fun _ _ _ _ h1 h2 => Option.some.inj (h1.symm.trans h2)) h'

/-- **No sleep.**  In every state that a run reaches, also where the parent calls `pause` at
once, a child will wake it, exactly if each handler in the run is timely. -/
theorem wakeable_iff (h : Run step start es s) :
    (∀ es₁ t, es₁ <+: es → Run step start es₁ t ∨ Run step start (es₁ ++ [.pause]) t → Wakeable t) ↔
      Run (Under step Timely) start es s := by
  have hle : ∀ {es s}, Run (Under step Timely) start es s → Run step start es s :=
    fun hr => hr.mono fun _ _ _ hst => hst.1
  constructor
  · intro hwake
    rcases h.sometime_or_never fun s e => ¬ Timely s e with
      ⟨es₁, e, es₂, u, v, rfl, hbefore, hstep, hlate, -⟩ | hnever
    · have hu := hbefore.invariant Unreported (fun _ _ _ hs hst => step_unreported hs hst) inv_start.unreported
      obtain ⟨w, hpause, hasleep⟩ := asleep_of_not_timely hu hstep hlate
      have hrun : Run step start ((es₁ ++ [e]) ++ [.pause]) w :=
        run_snoc_iff.2 ⟨v, run_snoc_iff.2 ⟨u, hbefore, hstep⟩, hpause⟩
      exact absurd (hwake (es₁ ++ [e]) w ⟨es₂, by rw [List.append_assoc]; rfl⟩ (.inr hrun)) hasleep
    · exact hnever.mono fun _ _ _ hst => ⟨hst.1, not_not.1 hst.2⟩
  · rintro hrun es₁ t ⟨es₂, rfl⟩ (hreach | hreach)
    · obtain ⟨u, hu, -⟩ := run_append_iff.1 hrun
      rw [run_unique hreach (hle hu)]
      exact (inv_of_run hu).wakeable
    · obtain ⟨u, hu, -⟩ := run_append_iff.1 hrun
      obtain ⟨u', hu', hpause⟩ := run_snoc_iff.1 hreach
      obtain rfl := run_unique hu' (hle hu)
      exact (step_inv (inv_of_run hu) hpause nofun).wakeable

end

/-- A child that terminates before `pause`, which its `SIGCHLD` then ends. -/
theorem wakeable_iff_pending : ∃ s, Run step start [.command, .change 0 .terminated, .pause] s ∧
    s.parent = .paused ∧ Wakeable s := by
  obtain ⟨s, hrun, hparent⟩ := run_of_exec_map (guarded stepFn Timely) start
    [.command, .change 0 .terminated, .pause] Sys.parent (a := .paused) (by decide)
  have hgood := hrun.of_guarded
  have hall : Run step start _ s := hgood.mono fun _ _ _ h => h.1
  exact ⟨s, hall, hparent, (wakeable_iff hall).2 hgood _ _ (List.prefix_refl _) (.inl hall)⟩

/-- A command that terminates at once: the handler comes first, and `pause` waits for nothing. -/
theorem short_command_sleeps : ∃ s, Run step start [.command, .change 0 .terminated, .handler, .pause] s ∧
    s.parent = .paused ∧ s.children = [] ∧ ¬ Wakeable s := by
  have hrun : Run step start [.command, .change 0 .terminated, .handler, .pause]
      ⟨.paused, childHandler [⟨.terminated, true⟩], false⟩ :=
    .cons rfl (.cons rfl (.cons rfl (.cons rfl (.nil _))))
  have hnone : childHandler [⟨.terminated, true⟩] = [] := by
    rw [childHandler_eq]
    rfl
  rw [hnone] at hrun
  exact ⟨_, hrun, rfl, rfl, fun h => nomatch (h rfl).choose_spec.1⟩

end CPrograms.SimpleInit
