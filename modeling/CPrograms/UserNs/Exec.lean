import CPrograms.UserNs.Model

/-!
# When the child executes the command

`ParentPc.progress` counts how far the parent is; a map is complete just when the parent is
behind its `write` (`Inv.content`).  The child sees the end of the pipe only when the parent
has closed it or has exited, so what decides is whether `update_map` gave up on the way
(`exec_mapped_iff`).
-/

namespace CPrograms.UserNs

open Runs

namespace ParentPc

/-- How far the parent is; an exit keeps the place where it happened. -/
def progress : ParentPc → Nat
  | .uidTest => 0
  | .openMap .uidMap | .exited (.openFailed .uidMap) => 1
  | .writeMap .uidMap | .exited (.writeFailed .uidMap) => 2
  | .closeMap .uidMap => 3
  | .gidTest => 4
  | .openSetgroups => 5
  | .writeSetgroups => 6
  | .closeSetgroups => 7
  | .openMap .gidMap | .exited (.openFailed .gidMap) => 8
  | .writeMap .gidMap | .exited (.writeFailed .gidMap) => 9
  | .closeMap .gidMap => 10
  | .closePipe => 11
  | .waitpid | .exited .terminating | .exited .waitpidFailed => 12

/-- The map that the parent is busy with, or gave up on. -/
def file : ParentPc → Option MapFile
  | .openMap f | .writeMap f | .closeMap f | .exited (.openFailed f) | .exited (.writeFailed f) => some f
  | .openSetgroups | .writeSetgroups | .closeSetgroups => some .gidMap
  | _ => none

/-- `update_map` has ended the parent. -/
def gaveUp : ParentPc → Bool
  | .exited (.openFailed _) | .exited (.writeFailed _) => true
  | _ => false

end ParentPc

/-- The progress from which on the map is written. -/
def MapFile.written : MapFile → Nat
  | .uidMap => 3
  | .gidMap => 10

structure Inv (o : Opts) (s : Sys) : Prop where
  content : ∀ f mapping, o.mapping f = some mapping →
    (s.content f = some (newlines mapping) ↔ f.written ≤ s.parent.progress)
  requested : ∀ f, s.parent.file = some f → (o.mapping f).isSome
  pipe : s.parentFds.write = false → s.parent.gaveUp = true ∨ s.parent.progress = 12
  exec : s.InExec → s.parentFds.write = false

namespace Inv

variable {o : Opts} {s t : Sys}

/-- A step of the parent that writes no map. -/
theorem move (h : Inv o s) (hcontent : t.content = s.content) (hchild : t.child = s.child)
    (hbehind : ∀ f, (o.mapping f).isSome → (f.written ≤ s.parent.progress ↔ f.written ≤ t.parent.progress))
    (hfile : ∀ f, t.parent.file = some f → (o.mapping f).isSome)
    (hkeep : s.parentFds.write = false → t.parentFds.write = false)
    (hpipe : t.parentFds.write = false → t.parent.gaveUp = true ∨ t.parent.progress = 12) : Inv o t := by
  refine ⟨fun f mapping hm => ?_, hfile, hpipe, fun hexec => hkeep (h.exec ?_)⟩
  · rw [hcontent, h.content f mapping hm]
    exact hbehind f (by rw [hm]; rfl)
  · unfold Sys.InExec at hexec ⊢
    rwa [hchild] at hexec

/-- A step of the child. -/
theorem child (h : Inv o s) (hcontent : t.content = s.content) (hparent : t.parent = s.parent)
    (hfds : t.parentFds = s.parentFds) (hexec : t.InExec → s.parentFds.write = false) : Inv o t := by
  refine ⟨?_, ?_, ?_, ?_⟩
  · rw [hcontent, hparent]; exact h.content
  · rw [hparent]; exact h.requested
  · rw [hparent, hfds]; exact h.pipe
  · rw [hfds]; exact hexec

/-- While the parent works on the maps it has the pipe open. -/
theorem open_pipe (h : Inv o s) {pc : ParentPc} (hpc : s.parent = pc)
    (hbusy : pc.gaveUp = false ∧ pc.progress ≠ 12) : s.parentFds.write ≠ false := by
  intro hw
  rcases h.pipe hw with hg | hg <;> rw [hpc] at hg
  · rw [hbusy.1] at hg
    cases hg
  · exact hbusy.2 hg

/-- From one place to the next, no map written in between. -/
theorem advance (h : Inv o s) {pc pc' : ParentPc} (hpc : s.parent = pc)
    (hbusy : pc.gaveUp = false ∧ pc.progress ≠ 12)
    (hbehind : ∀ f, (o.mapping f).isSome → (f.written ≤ pc.progress ↔ f.written ≤ pc'.progress))
    (hfile : ∀ f, pc'.file = some f → (o.mapping f).isSome) : Inv o { s with parent := pc' } :=
  h.move rfl rfl (by rw [hpc]; exact hbehind) hfile (fun hw => hw)
    fun hw => absurd hw (h.open_pipe hpc hbusy)

/-- The exit that comes at once where `update_map` fails, or at the end. -/
theorem exit (h : Inv o s) {pc : ParentPc} {e : Exit} (hpc : s.parent = pc)
    (hsame : (ParentPc.exited e).progress = pc.progress ∧ (ParentPc.exited e).file = pc.file)
    (hend : (ParentPc.exited e).gaveUp = true ∨ (ParentPc.exited e).progress = 12) :
    Inv o (s.parentExit e) := by
  have hreq := h.requested
  rw [hpc] at hreq
  refine h.move rfl rfl (fun f _ => ?_) (fun f hf => hreq f (hsame.2 ▸ hf)) (fun _ => rfl) fun _ => hend
  rw [hpc]
  show _ ↔ _ ≤ (ParentPc.exited e).progress
  rw [hsame.1]

/-- A `write` to a map file: all of the map, or less. -/
theorem put (h : Inv o s) {f : MapFile} {mapping b : List UInt8} (hpc : s.parent = .writeMap f)
    (hm : o.mapping f = some mapping) (hcontent : t.content = (s.put f b).content)
    (hchild : t.child = s.child)
    (hbehind : (b = newlines mapping ∧ t.parent = .closeMap f ∧ t.parentFds = s.parentFds) ∨
      (b ≠ newlines mapping ∧ t.parent = .exited (.writeFailed f) ∧ t.parentFds.write = false)) : Inv o t := by
  have hfile : ∀ g, t.parent.file = some g → (o.mapping g).isSome := by
    intro g hg
    have : g = f := by
      rcases hbehind with ⟨-, ht, -⟩ | ⟨-, ht, -⟩ <;> rw [ht] at hg <;> exact (Option.some.inj hg).symm
    rw [this, hm]
    rfl
  have hopen : s.parentFds.write ≠ false := h.open_pipe hpc ⟨rfl, by cases f <;> decide⟩
  refine ⟨fun g mapping' hm' => ?_, hfile, fun hw => ?_, fun hexec => ?_⟩
  · rw [hcontent]
    show (if g = f then some b else s.content g) = _ ↔ _
    by_cases hgf : g = f
    · subst hgf
      obtain rfl : mapping = mapping' := Option.some.inj (hm.symm.trans hm')
      rw [if_pos rfl, Option.some.injEq]
      rcases hbehind with ⟨hb, ht, -⟩ | ⟨hb, ht, -⟩ <;> rw [ht]
      · exact iff_of_true hb (by cases g <;> decide)
      · exact iff_of_false hb (by cases g <;> decide)
    · rw [if_neg hgf, h.content g mapping' hm', hpc]
      -- the other map is on the same side of both places
      rcases hbehind with ⟨-, ht, -⟩ | ⟨-, ht, -⟩ <;> rw [ht] <;> cases g <;> cases f <;>
        first | exact absurd rfl hgf | decide
  · rcases hbehind with ⟨-, -, hfds⟩ | ⟨-, ht, -⟩
    · rw [hfds] at hw
      exact absurd hw hopen
    · rw [ht]
      exact .inl rfl
  · refine absurd (h.exec ?_) hopen
    unfold Sys.InExec at hexec ⊢
    rwa [hchild] at hexec

end Inv

/-- **One step.** -/
theorem step_inv {o : Opts} {s t : Sys} {e : Event} (h : Inv o s) (hstep : Step o s e t) : Inv o t := by
  cases hstep with
  | uidTest hpc =>
    by_cases hu : o.uidMap.isSome
    · rw [if_pos hu]
      refine h.advance hpc (by decide) (fun f _ => ?_) fun f hf => ?_
      · cases f <;> decide
      · cases hf; exact hu
    · rw [if_neg hu]
      refine h.advance hpc (by decide) (fun f hf => ?_) fun f hf => by cases hf
      cases f with
      | uidMap => exact absurd hf hu
      | gidMap => decide
  | gidTest hpc =>
    by_cases hg : o.gidMap.isSome
    · rw [if_pos hg]
      refine h.advance hpc (by decide) (fun f _ => ?_) fun f hf => ?_
      · cases f <;> decide
      · cases hf; exact hg
    · rw [if_neg hg]
      refine h.advance hpc (by decide) (fun f hf => ?_) fun f hf => by cases hf
      cases f with
      | uidMap => decide
      | gidMap => exact absurd hf hg
  | openSetgroups ok hpc =>
    refine h.advance hpc (by decide) (fun f _ => ?_) fun f hf => h.requested f (by rw [hpc]; exact hf)
    cases f <;> decide
  | writeSetgroups r hpc =>
    refine h.advance hpc (by decide) (fun f _ => ?_) fun f hf => h.requested f (by rw [hpc]; exact hf)
    cases f <;> decide
  | closeSetgroups hpc =>
    refine h.advance hpc (by decide) (fun f _ => ?_) fun f hf => h.requested f (by rw [hpc]; exact hf)
    cases f <;> decide
  | @openMap f hpc =>
    refine h.advance hpc ⟨rfl, by cases f <;> decide⟩ (fun g _ => ?_)
      fun g hg => h.requested g (by rw [hpc]; exact hg)
    cases f <;> cases g <;> decide
  | @openFails f hpc =>
    exact h.exit hpc ⟨by cases f <;> rfl, rfl⟩ (.inl rfl)
  | @writeMap f mapping hpc hm => exact h.put hpc hm rfl rfl (.inl ⟨rfl, rfl, rfl⟩)
  | @writeShort f mapping k hpc hm hk =>
    refine h.put hpc hm rfl rfl (.inr ⟨fun heq => ?_, rfl, rfl⟩)
    have hlen := congrArg List.length heq
    rw [List.length_take, newlines, List.length_map] at hlen
    omega
  | @writeFails f hpc => exact h.exit hpc ⟨by cases f <;> rfl, rfl⟩ (.inl rfl)
  | @closeMap f hpc =>
    refine h.advance hpc ⟨rfl, by cases f <;> decide⟩ (fun g _ => ?_) fun g hg => ?_
    · cases f <;> cases g <;> decide
    · cases f <;> cases hg
  | closePipe hpc =>
    refine h.move rfl rfl (fun f _ => ?_) (fun f hf => by cases hf) (fun _ => rfl) fun _ => .inr rfl
    rw [hpc]
    show _ ↔ _ ≤ ParentPc.waitpid.progress
    cases f <;> decide
  | waited hpc hchild => exact h.exit hpc ⟨rfl, rfl⟩ (.inr rfl)
  | waitFails hpc => exact h.exit hpc ⟨rfl, rfl⟩ (.inr rfl)
  | childClose hpc =>
    refine h.child rfl rfl rfl fun hexec => ?_
    rcases hexec with hx | hx <;> cases hx
  | childEof hpc hp hc => exact h.child rfl rfl rfl fun _ => hp
  | childReadFails hpc =>
    refine h.child rfl rfl rfl fun hexec => ?_
    rcases hexec with hx | hx <;> cases hx
  | childExec hpc => exact h.child rfl rfl rfl fun _ => h.exec (.inl hpc)
  | childExecFails hpc =>
    refine h.child rfl rfl rfl fun hexec => ?_
    rcases hexec with hx | hx <;> cases hx
  | commandEnds hpc =>
    refine h.child rfl rfl rfl fun hexec => ?_
    rcases hexec with hx | hx <;> cases hx

theorem launch_inv {o : Opts} {s : Sys} (h : launch o = some s) : Inv o s := by
  unfold launch at h
  split at h
  · cases h
  · cases h
    refine ⟨fun f mapping _ => iff_of_false nofun ?_, nofun, nofun, ?_⟩
    · cases f <;> decide
    · rintro (hx | hx) <;> cases hx

/-! ## What decides -/

/-- A parent that gave up stays as it is. -/
theorem step_gaveUp {o : Opts} {s t : Sys} {e : Event} (hstep : Step o s e t)
    (h : s.parent.gaveUp = true) : t.parent.gaveUp = true := by
  have hpc : ∀ {pc : ParentPc}, s.parent = pc → pc.gaveUp = true := fun hpc => hpc ▸ h
  cases hstep with
  | openFails hp | writeShort hp | writeFails hp => rfl
  | childClose | childEof | childReadFails | childExec | childExecFails | commandEnds => exact h
  | uidTest hp | gidTest hp | openSetgroups _ hp | writeSetgroups _ hp | closeSetgroups hp | openMap hp
  | writeMap hp | closeMap hp | closePipe hp | waited hp | waitFails hp => cases hpc hp

/-- The parent gives up by a step at which `update_map` fails, and only so. -/
theorem step_fails {o : Opts} {s t : Sys} {e : Event} (hinv : Inv o s) (hstep : Step o s e t)
    (h : s.parent.gaveUp = false) : t.parent.gaveUp = true ↔ UpdateMapFails o s e := by
  constructor
  · intro ht
    cases hstep with
    | @openFails f hpc => exact .inl ⟨f, hpc, rfl⟩
    | @writeShort f mapping k hpc hm hk =>
      refine .inr ⟨f, some k, hpc, rfl, ?_⟩
      rw [hm]
      exact fun heq => Nat.ne_of_lt hk (Option.some.inj heq)
    | @writeFails f hpc =>
      refine .inr ⟨f, none, hpc, rfl, fun hnone => ?_⟩
      have hreq := hinv.requested f (by rw [hpc]; rfl)
      rw [Option.map_eq_none_iff.1 hnone.symm] at hreq
      cases hreq
    | uidTest | gidTest =>
      dsimp only at ht
      split at ht <;> cases ht
    | @closeMap f => cases f <;> cases ht
    | openSetgroups | writeSetgroups | closeSetgroups | openMap | writeMap | closePipe | waited
    | waitFails => cases ht
    | childClose | childEof | childReadFails | childExec | childExecFails | commandEnds =>
      exact absurd ht (by rw [Bool.not_eq_true]; exact h)
  · rintro (⟨f, hpc, rfl⟩ | ⟨f, r, hpc, rfl, hr⟩)
    · cases hstep with
      | openSetgroups _ hpc' => rw [hpc] at hpc'; cases hpc'
      | openFails => rfl
    · cases hstep with
      | writeSetgroups _ hpc' => rw [hpc] at hpc'; cases hpc'
      | writeShort | writeFails => rfl
      | writeMap hpc' hm =>
        rw [hpc] at hpc'
        cases hpc'
        exact absurd (by rw [hm]; rfl) hr

theorem run_inv {o : Opts} {s₀ s : Sys} {es : List Event} (h0 : launch o = some s₀)
    (hrun : Run (Step o) s₀ es s) : Inv o s :=
  hrun.invariant (Inv o) (fun _ _ _ h hs => step_inv h hs) (launch_inv h0)

/-- **Whole runs.**  The parent has given up just when `update_map` failed at some step. -/
theorem run_gaveUp_iff {o : Opts} {s₀ s : Sys} {es : List Event} (h0 : launch o = some s₀)
    (hrun : Run (Step o) s₀ es s) :
    s.parent.gaveUp = true ↔ Sometime (Step o) (UpdateMapFails o) s₀ es s := by
  have hstart : s₀.parent.gaveUp = false := by
    unfold launch at h0
    split at h0 <;> cases h0
    rfl
  constructor
  · intro hs
    refine (hrun.sometime_or_never (UpdateMapFails o)).resolve_right fun hnever => ?_
    have hkeep : Inv o s ∧ s.parent.gaveUp = false := by
      refine hnever.invariant (fun s => Inv o s ∧ s.parent.gaveUp = false) ?_ ⟨launch_inv h0, hstart⟩
      rintro s e t ⟨hinv, hgo⟩ ⟨hstep, hno⟩
      refine ⟨step_inv hinv hstep, ?_⟩
      rw [← Bool.not_eq_true, step_fails hinv hstep hgo]
      exact hno
    rw [hkeep.2] at hs
    cases hs
  · rintro ⟨es₁, e, es₂, u, v, -, h1, hstep, hfail, h2⟩
    refine h2.invariant (fun s => s.parent.gaveUp = true) (fun _ _ _ h hs => step_gaveUp hs h) ?_
    by_cases hu : u.parent.gaveUp = true
    · exact step_gaveUp hstep hu
    · exact (step_fails (run_inv h0 h1) hstep (Bool.not_eq_true _ ▸ hu)).2 hfail

/-- **Only inside a mapped namespace?**  In every run, whatever the order of the steps: when the
child has reached `execvp`, the requested maps are complete just when `update_map` failed at no
step. -/
theorem exec_mapped_iff {o : Opts} {s₀ s : Sys} {es : List Event} (h0 : launch o = some s₀)
    (hrun : Run (Step o) s₀ es s) (hexec : s.InExec) :
    Mapped o s ↔ ¬ Sometime (Step o) (UpdateMapFails o) s₀ es s := by
  have hinv := run_inv h0 hrun
  rw [← run_gaveUp_iff h0 hrun]
  rcases hinv.pipe (hinv.exec hexec) with hgo | hend
  · refine iff_of_false (fun hmapped => ?_) (not_not_intro hgo)
    -- the map at which the parent gave up is not complete
    obtain ⟨f, hf⟩ : ∃ f, s.parent = .exited (.openFailed f) ∨ s.parent = .exited (.writeFailed f) := by
      generalize s.parent = pc at hgo
      cases pc with
      | exited e =>
        cases e with
        | openFailed f => exact ⟨f, .inl rfl⟩
        | writeFailed f => exact ⟨f, .inr rfl⟩
        | terminating | waitpidFailed => cases hgo
      | _ => cases hgo
    have hfile : s.parent.file = some f := by rcases hf with hf | hf <;> rw [hf] <;> rfl
    obtain ⟨mapping, hm⟩ := Option.isSome_iff_exists.1 (hinv.requested f hfile)
    have hwritten := (hinv.content f mapping hm).1 (hmapped f mapping hm)
    rcases hf with hf | hf <;> rw [hf] at hwritten <;> cases f <;> revert hwritten <;> decide
  · refine iff_of_true (fun f mapping hm => ?_) ?_
    · rw [hinv.content f mapping hm, hend]
      cases f <;> decide
    · intro hgo
      generalize s.parent = pc at hgo hend
      cases pc with
      | exited e =>
        cases e with
        | openFailed f | writeFailed f => cases f <;> cases hend
        | terminating | waitpidFailed => cases hgo
      | _ => cases hgo

/-- `-U -M '0 1000 1'` -/
def rootMap : Opts := ⟨some [48, 32, 49, 48, 48, 48, 32, 49], none, true⟩

theorem exec_mapped_root : ∃ s₀ es s, launch rootMap = some s₀ ∧ Run (Step rootMap) s₀ es s ∧
    s.InExec ∧ Mapped rootMap s := by
  have hrun : Run (Step rootMap) ⟨.uidTest, .closePipe, ⟨true, true⟩, ⟨true, true⟩, fun _ => none⟩
      [.parent, .opened true, .childClose, .wrote (some 8), .parent, .parent, .parent, .childRead 0]
      ⟨.waitpid, .execvp, ⟨true, false⟩, ⟨true, false⟩,
        fun g => if g = .uidMap then some [48, 32, 49, 48, 48, 48, 32, 49] else none⟩ := by
    refine .cons (.uidTest rfl) ?_
    refine .cons (.openMap (f := .uidMap) rfl) ?_
    refine .cons (.childClose rfl) ?_
    refine .cons (@Step.writeMap _ _ .uidMap [48, 32, 49, 48, 48, 48, 32, 49] rfl rfl) ?_
    refine .cons (.closeMap (f := .uidMap) rfl) ?_
    refine .cons (.gidTest rfl) ?_
    refine .cons (.closePipe rfl) ?_
    exact .cons (.childEof rfl rfl rfl) (.nil _)
  refine ⟨_, _, _, rfl, hrun, .inl rfl, (exec_mapped_iff rfl hrun (.inl rfl)).2 ?_⟩
  rw [← run_gaveUp_iff rfl hrun]
  decide

/-- The `write` of `uid_map` fails, the parent exits, and the child goes on. -/
theorem exec_unmapped : ∃ s₀ es s, launch rootMap = some s₀ ∧ Run (Step rootMap) s₀ es s ∧
    s.InExec ∧ s.content .uidMap = none ∧ ¬ Mapped rootMap s := by
  refine ⟨_, [.parent, .opened true, .wrote none, .childClose, .childRead 0], _, rfl,
    .cons (.uidTest rfl) (.cons (.openMap (f := .uidMap) rfl) (.cons (.writeFails (f := .uidMap) rfl)
      (.cons (.childClose rfl) (.cons (.childEof rfl rfl rfl) (.nil _))))), .inl rfl, rfl, fun h => ?_⟩
  cases h .uidMap _ rfl

end CPrograms.UserNs
