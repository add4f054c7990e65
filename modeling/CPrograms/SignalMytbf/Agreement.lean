import CPrograms.SignalMytbf.Model
import Mathlib.Data.List.Induction
import Mathlib.Data.Option.Basic

/-!
# The three token buckets side by side

The buckets of `signal/mytbf` take every step with the ones of `udp_prog/libmytbf` (`Sim`,
`sim_step`), `mytbf_destroy` excepted: it empties the slot that `me->pos` names, and nothing has
put the bucket's slot there.  The two agree up to every point of a run if and only if every
bucket that is destroyed had found its slot's number in its memory (`copies_agree_iff`).
-/

namespace CPrograms.SignalMytbf

open Runs
open Mytbf (Event Answer Tbf Table mytbfMax einval)

/-- One bucket, but for `pos`. -/
structure Same (b : Tbf) (me : MytbfSt) : Prop where
  cps : me.cps = b.csp
  token : me.token = b.token
  burst : me.burst = b.burst

structure Sim (s : Mytbf.Sys) (t : Sys) : Prop where
  heap : ∀ p, Option.Rel Same (s.heap p) (t.heap p)
  brk : t.brk = s.brk
  job : t.job = s.job
  paused : t.paused = s.paused

theorem sim_start : Sim Mytbf.start start := ⟨fun _ => .none, rfl, rfl, rfl⟩

/-- The slots and the tokens are the same. -/
structure Agree (s : Mytbf.Sys) (t : Sys) : Prop where
  slots : ∀ i, (t.job i).isSome = (s.job i).isSome
  tokens : ∀ p, (t.heap p).map MytbfSt.token = (s.heap p).map Tbf.token

/-- What the calls are about: ticks of the kernel's timer, and sizes above 0. -/
def Proper : Event → Prop
  | .alarm kernel => kernel = true
  | .fetch _ size | .resume _ size | .giveBack _ size => 0 < size
  | .init .. | .destroy _ => True

instance : DecidablePred Proper
  | .alarm kernel => inferInstanceAs (Decidable (kernel = true))
  | .fetch _ size | .resume _ size | .giveBack _ size => inferInstanceAs (Decidable (0 < size))
  | .init .. | .destroy _ => .isTrue trivial

/-- `me->pos` names the slot that the bucket `p` is in. -/
def InSlot (t : Sys) (p : Nat) (me : MytbfSt) : Prop :=
  ∃ i < mytbfMax, me.pos = i ∧ t.job i = some p

section
variable {s s' : Mytbf.Sys} {t t' : Sys} {file : File} {p : Nat} {b : Tbf} {me : MytbfSt} {l : Label}

theorem Sim.agree (h : Sim s t) : Agree s t := by
  constructor
  · intro i
    rw [h.job]
  · intro p
    have hp := h.heap p
    cases hs : s.heap p with
    | none =>
      cases ht : t.heap p with
      | none => rfl
      | some me => rw [hs, ht] at hp; cases hp
    | some b =>
      cases ht : t.heap p with
      | none => rw [hs, ht] at hp; cases hp
      | some me =>
        rw [hs, ht] at hp
        cases hp with
        | some h => exact congrArg some h.token

theorem Sim.live (h : Sim s t) (hb : s.heap p = some b) : ∃ me, t.heap p = some me ∧ Same b me := by
  have hp := h.heap p
  rw [hb] at hp
  cases ht : t.heap p with
  | none => rw [ht] at hp; cases hp
  | some me =>
    rw [ht] at hp
    cases hp with
    | some h => exact ⟨me, rfl, h⟩

theorem rel_update {h : Nat → Option Tbf} {k : Nat → Option MytbfSt} (hrel : ∀ p, Option.Rel Same (h p) (k p))
    {o : Option Tbf} {o' : Option MytbfSt} (ho : Option.Rel Same o o') (q p : Nat) :
    Option.Rel Same (Function.update h q o p) (Function.update k q o' p) := by
  by_cases hp : p = q
  · subst hp
    rw [Function.update_self, Function.update_self]
    exact ho
  · rw [Function.update_of_ne hp, Function.update_of_ne hp]
    exact hrel p

/-! ## The handlers -/

theorem Same.tick (h : Same b me) : Same b.tick me.tick := by
  obtain ⟨h1, h2, h3⟩ := h
  constructor <;> simp only [MytbfSt.tick, Tbf.tick, h1, h2, h3]

theorem foldlM_tickSlot {job : Nat → Option Nat} (slots : List Nat) {h : Nat → Option Tbf}
    {k : Nat → Option MytbfSt} (hrel : ∀ p, Option.Rel Same (h p) (k p))
    (hlive : ∀ i p, job i = some p → ∃ b, h p = some b) :
    ∃ k', slots.foldlM (tickSlot job) k = some k' ∧
      ∀ p, Option.Rel Same (slots.foldl (Mytbf.tickSlot job) h p) (k' p) := by
  induction slots generalizing h k with
  | nil => exact ⟨k, rfl, hrel⟩
  | cons i slots ih =>
    rw [List.foldlM_cons, List.foldl_cons]
    cases hi : job i with
    | none =>
      have h1 : tickSlot job k i = some k := by rw [tickSlot, hi]
      have h2 : Mytbf.tickSlot job h i = h := by rw [Mytbf.tickSlot, hi]
      rw [h1, h2]
      exact ih hrel hlive
    | some q =>
      obtain ⟨b, hb⟩ := hlive i q hi
      obtain ⟨me, hme, hsame⟩ : ∃ me, k q = some me ∧ Same b me := by
        have hq := hrel q
        rw [hb] at hq
        generalize k q = o at hq
        cases hq with
        | some h => exact ⟨_, rfl, h⟩
      have h1 : tickSlot job k i = some (Function.update k q (some me.tick)) := by
        simp only [tickSlot, hi, hme]
      have h2 : Mytbf.tickSlot job h i = Function.update h q (some b.tick) := by
        simp only [Mytbf.tickSlot, hi, hb, Option.map_some]
      rw [h1, h2]
      refine ih (rel_update hrel (.some hsame.tick) q) fun j p hj => ?_
      by_cases hp : p = q
      · subst hp
        exact ⟨_, Function.update_self ..⟩
      · rw [Function.update_of_ne hp]
        exact hlive j p hj

theorem Sim.handler (h : Sim s t) (ht : Table s) (file : File) :
    ∃ t', handler file true t = some t' ∧ Sim (Mytbf.handler true s) t' := by
  obtain ⟨k, hk, hrel⟩ := foldlM_tickSlot (List.range mytbfMax) h.heap fun i p hi => by
    obtain ⟨b, hb, -⟩ := ht.slot i p hi
    exact ⟨b, hb⟩
  rw [← h.job] at hk
  have hrun : SignalMytbf.handler file true t = some { t with heap := k } := by
    cases file with
    | mytbf => simp only [SignalMytbf.handler, sigalrmHandler, hk, Option.map_some]
    | mytbfSigaction =>
      simp only [SignalMytbf.handler, alrmAction, hk, Option.map_some, Bool.true_eq_false, if_false]
  refine ⟨_, hrun, ?_⟩
  simp only [Mytbf.handler_true]
  constructor
  · dsimp only
    exact hrel
  · exact h.brk
  · exact h.job
  · exact h.paused

/-! ## The calls -/

theorem init_sim (h : Sim s t) (cps burst : Int) (mem : Bool) (pos : Int) :
    (mytbfInit cps burst mem pos t).1 = (Mytbf.mytbfInit cps burst mem s).1 ∧
      Sim (Mytbf.mytbfInit cps burst mem s).2 (mytbfInit cps burst mem pos t).2 := by
  unfold mytbfInit Mytbf.mytbfInit getFreePos
  rw [h.job]
  cases Mytbf.getFreePos s.job with
  | none => exact ⟨rfl, h⟩
  | some i =>
    cases mem with
    | false => exact ⟨rfl, h⟩
    | true =>
      dsimp only
      rw [if_neg (by decide), if_neg (by decide), h.brk]
      exact ⟨rfl, rel_update h.heap (.some ⟨rfl, rfl, rfl⟩) s.brk, rfl, rfl, h.paused⟩

theorem fetchLoop_sim (h : Sim s t) (hsame : Same b me) (p : Nat) (size : Int) :
    (fetchLoop p size me t).1 = (Mytbf.fetchLoop p size b s).1 ∧
      Sim (Mytbf.fetchLoop p size b s).2 (fetchLoop p size me t).2 := by
  obtain ⟨hcps, htoken, hburst⟩ := hsame
  unfold fetchLoop Mytbf.fetchLoop
  rw [htoken]
  by_cases h0 : b.token ≤ 0
  · rw [if_pos h0, if_pos h0]
    exact ⟨rfl, h.heap, h.brk, h.job, rfl⟩
  · rw [if_neg h0, if_neg h0]
    have hn : min b.token size = (b.fetch size).1 := by
      simp only [min, Tbf.fetch]
      split <;> split <;> omega
    have hsame : Same (b.fetch size).2 { me with token := b.token - min b.token size } := by
      rw [hn]
      exact ⟨hcps, rfl, hburst⟩
    exact ⟨congrArg some hn, rel_update h.heap (.some hsame) p, h.brk, h.job, rfl⟩

theorem fetch_sim (h : Sim s t) (hsame : Same b me) (p : Nat) {size : Int} (hsize : 0 < size) :
    (mytbfFetchtoken p size me t).1 = (Mytbf.mytbfFetchtoken p size b s).1 ∧
      Sim (Mytbf.mytbfFetchtoken p size b s).2 (mytbfFetchtoken p size me t).2 := by
  unfold mytbfFetchtoken Mytbf.mytbfFetchtoken
  rw [if_neg (by omega), if_neg (by omega)]
  exact fetchLoop_sim h hsame p size

theorem giveBack_sim (h : Sim s t) (hsame : Same b me) (p : Nat) {size : Int} (hsize : 0 < size) :
    (mytbfReturntoken p size me t).1 = (Mytbf.mytbfReturntoken p size b s).1 ∧
      Sim (Mytbf.mytbfReturntoken p size b s).2 (mytbfReturntoken p size me t).2 := by
  obtain ⟨hcps, htoken, hburst⟩ := hsame
  unfold mytbfReturntoken Mytbf.mytbfReturntoken
  rw [if_neg (by omega), if_neg (by omega)]
  have hsame : Same (b.giveBack size)
      { me with token := if me.token + size > me.burst then me.burst else me.token + size } := by
    refine ⟨hcps, ?_, hburst⟩
    simp only [Tbf.giveBack, htoken, hburst]
  exact ⟨rfl, rel_update h.heap (.some hsame) p, h.brk, h.job, h.paused⟩

theorem destroy_sim (h : Sim s t) (ht : Table s) (hb : s.heap p = some b) (hslot : InSlot t p me) :
    ∃ t', mytbfDestroy p me t = some t' ∧ Sim (Mytbf.mytbfDestroy p b s) t' := by
  obtain ⟨i, hi, hpos, hjob⟩ := hslot
  rw [h.job] at hjob
  have hbi : i = b.pos := ht.inj hjob (ht.bucket p b hb).2
  have hto : me.pos.toNat = b.pos := by omega
  unfold mytbfDestroy
  rw [if_pos (by omega), hto, h.job]
  exact ⟨_, rfl, rel_update h.heap .none p, h.brk, rfl, h.paused⟩

/-! ## One step -/

theorem step_iff {e : Event} {a : Answer} {pos : Int} :
    Step file t ((e, a), pos) t' ↔ step file pos t e = some (a, t') := by
  rw [Step, stepL, Option.bind_eq_some_iff]
  constructor
  · rintro ⟨⟨a', u⟩, hs, ha⟩
    dsimp only at hs ha
    split at ha
    · next heq =>
      cases ha
      subst heq
      exact hs
    · cases ha
  · intro hs
    exact ⟨(a, t'), hs, if_pos rfl⟩

/-- **Side by side.**  A step of the library is one of the copies, a `mytbf_destroy` where the
bucket's slot is the one that `me->pos` names. -/
theorem sim_step (h : Sim s t) (ht : Table s) (hl : Proper l.1.1)
    (hd : ∀ p me, l.1.1 = .destroy p → t.heap p = some me → InSlot t p me) (hs : Mytbf.Step s l.1 s') :
    ∃ t', Step file t l t' ∧ Sim s' t' := by
  obtain ⟨⟨e, a⟩, pos⟩ := l
  have hs := Mytbf.step_iff.1 hs
  dsimp only at hl hd hs
  simp only [step_iff]
  cases e with
  | init cps burst mem =>
    simp only [Mytbf.step, step, h.paused] at hs ⊢
    split at hs
    · next hp =>
      obtain ⟨h1, h2⟩ := init_sim h cps burst mem pos
      cases hs
      rw [if_pos hp, h1]
      exact ⟨_, rfl, h2⟩
    · cases hs
  | alarm kernel =>
    subst hl
    obtain ⟨t', hrun, hsim⟩ := h.handler ht file
    cases hs
    exact ⟨t', by rw [step, hrun]; rfl, hsim⟩
  | fetch p size =>
    simp only [Mytbf.step, step, h.paused] at hs ⊢
    split at hs
    · next b hp hb =>
      obtain ⟨me, hme, hsame⟩ := h.live hb
      obtain ⟨h1, h2⟩ := fetch_sim h hsame p hl
      cases hs
      rw [hme, hp]
      dsimp only
      rw [h1]
      exact ⟨_, rfl, h2⟩
    · cases hs
  | resume p size =>
    simp only [Mytbf.step, step, h.paused] at hs ⊢
    split at hs
    · next b hb =>
      split at hs
      · next hp =>
        obtain ⟨me, hme, hsame⟩ := h.live hb
        obtain ⟨h1, h2⟩ := fetchLoop_sim h hsame p size
        cases hs
        rw [hme]
        dsimp only
        rw [if_pos hp, h1]
        exact ⟨_, rfl, h2⟩
      · cases hs
    · cases hs
  | giveBack p size =>
    simp only [Mytbf.step, step, h.paused] at hs ⊢
    split at hs
    · next b hp hb =>
      obtain ⟨me, hme, hsame⟩ := h.live hb
      obtain ⟨h1, h2⟩ := giveBack_sim h hsame p hl
      cases hs
      rw [hme, hp]
      dsimp only
      rw [h1]
      exact ⟨_, rfl, h2⟩
    · cases hs
  | destroy p =>
    simp only [Mytbf.step, step, h.paused] at hs ⊢
    split at hs
    · next b hp hb =>
      obtain ⟨me, hme, -⟩ := h.live hb
      obtain ⟨t', hrun, hsim⟩ := destroy_sim h ht hb (hd p me rfl hme)
      cases hs
      rw [hme, hp]
      dsimp only
      rw [hrun]
      exact ⟨t', rfl, hsim⟩
    · cases hs

/-! ## Whole runs -/

/-- The bucket `me` at `p` has its `pos` from the heap `h`. -/
def PosFrom (h : Nat → Option MytbfSt) (p : Nat) (me : MytbfSt) : Prop :=
  ∃ me', h p = some me' ∧ me'.pos = me.pos

theorem posFrom_update {h : Nat → Option MytbfSt} {p q : Nat} {me₀ me₁ me : MytbfSt} (h₀ : h q = some me₀)
    (hme : Function.update h q (some me₁) p = some me) (hpos : me₁.pos = me₀.pos) : PosFrom h p me := by
  by_cases hp : p = q
  · subst hp
    rw [Function.update_self] at hme
    cases hme
    exact ⟨me₀, h₀, hpos.symm⟩
  · rw [Function.update_of_ne hp] at hme
    exact ⟨me, hme, rfl⟩

theorem foldlM_tickSlot_pos {job : Nat → Option Nat} (slots : List Nat) {h k : Nat → Option MytbfSt}
    (hrun : slots.foldlM (tickSlot job) h = some k) {p : Nat} {me : MytbfSt} (hme : k p = some me) :
    PosFrom h p me := by
  induction slots generalizing h with
  | nil => cases hrun; exact ⟨me, hme, rfl⟩
  | cons i slots ih =>
    rw [List.foldlM_cons] at hrun
    obtain ⟨h', hi, hrun⟩ := Option.bind_eq_some_iff.1 hrun
    obtain ⟨me', hme', hpos⟩ := ih hrun
    unfold tickSlot at hi
    split at hi
    · cases hi
      exact ⟨me', hme', hpos⟩
    · next q _ =>
      split at hi
      · cases hi
      · next me₀ hq =>
        cases hi
        obtain ⟨me'', h1, h2⟩ := posFrom_update hq hme' rfl
        exact ⟨me'', h1, h2.trans hpos⟩

theorem handler_pos {file : File} {kernel : Bool} (hrun : handler file kernel t = some t') {p : Nat}
    {me : MytbfSt} (hme : t'.heap p = some me) : PosFrom t.heap p me := by
  have hloop : ∀ v, ((List.range mytbfMax).foldlM (tickSlot t.job) t.heap).map
      (fun heap => ({ t with heap } : Sys)) = some v → v.heap p = some me → PosFrom t.heap p me := by
    intro v hv hme
    obtain ⟨k, hk, rfl⟩ := Option.map_eq_some_iff.1 hv
    exact foldlM_tickSlot_pos _ hk hme
  cases file with
  | mytbf => exact hloop t' hrun hme
  | mytbfSigaction =>
    rw [handler, alrmAction] at hrun
    split at hrun
    · cases hrun
      exact ⟨me, hme, rfl⟩
    · exact hloop t' hrun hme

theorem fetchLoop_pos {q : Nat} {size : Int} {me₀ : MytbfSt} (h₀ : t.heap q = some me₀) {p : Nat}
    {me : MytbfSt} (hme : (fetchLoop q size me₀ t).2.heap p = some me) : PosFrom t.heap p me := by
  unfold fetchLoop at hme
  split at hme
  · exact ⟨me, hme, rfl⟩
  · exact posFrom_update h₀ hme rfl

/-- No call writes `me->pos`. -/
theorem step_pos (h : Step file t l t') {p : Nat} {me : MytbfSt} (hme : t'.heap p = some me) :
    PosFrom t.heap p me ∨ ∃ cps burst, l = ((.init cps burst true, .ptr (some p)), me.pos) := by
  obtain ⟨⟨e, a⟩, pos⟩ := l
  have hs := step_iff.1 h
  have hkeep : t' = t → PosFrom t.heap p me := by
    rintro rfl
    exact ⟨me, hme, rfl⟩
  cases e with
  | init cps burst mem =>
    simp only [step] at hs
    split at hs
    · unfold mytbfInit at hs
      split at hs
      · cases hs
        exact .inl (hkeep rfl)
      · next i _ =>
        cases mem with
        | false => cases hs; exact .inl (hkeep rfl)
        | true =>
          rw [if_neg (by decide)] at hs
          cases hs
          dsimp only at hme
          by_cases hp : p = t.brk
          · subst hp
            rw [Function.update_self] at hme
            cases hme
            exact .inr ⟨cps, burst, rfl⟩
          · rw [Function.update_of_ne hp] at hme
            exact .inl ⟨me, hme, rfl⟩
    · cases hs
  | alarm kernel =>
    obtain ⟨v, hv, hv'⟩ := Option.map_eq_some_iff.1 hs
    cases hv'
    exact .inl (handler_pos hv hme)
  | fetch q size =>
    simp only [step] at hs
    split at hs
    · next me₀ _ hq =>
      unfold mytbfFetchtoken at hs
      split at hs
      · cases hs; exact .inl (hkeep rfl)
      · cases hs; exact .inl (fetchLoop_pos hq hme)
    · cases hs
  | resume q size =>
    simp only [step] at hs
    split at hs
    · next me₀ hq =>
      split at hs
      · cases hs; exact .inl (fetchLoop_pos hq hme)
      · cases hs
    · cases hs
  | giveBack q size =>
    simp only [step] at hs
    split at hs
    · next me₀ _ hq =>
      unfold mytbfReturntoken at hs
      split at hs
      · cases hs; exact .inl (hkeep rfl)
      · cases hs; exact .inl (posFrom_update hq hme rfl)
    · cases hs
  | destroy q =>
    simp only [step] at hs
    split at hs
    · next me₀ _ hq =>
      obtain ⟨v, hv, hv'⟩ := Option.map_eq_some_iff.1 hs
      cases hv'
      unfold mytbfDestroy at hv
      split at hv
      · cases hv
        by_cases hp : p = q
        · subst hp
          dsimp only at hme
          rw [Function.update_self] at hme
          cases hme
        · dsimp only at hme
          rw [Function.update_of_ne hp] at hme
          exact .inl ⟨me, hme, rfl⟩
      · cases hv
    · cases hs

/-- What `malloc`'s memory held there is in it. -/
theorem pos_kept {ls : List Label} (h : Run (Step file) start ls t) :
    ∀ p me, t.heap p = some me → ∃ cps burst, ((.init cps burst true, .ptr (some p)), me.pos) ∈ ls := by
  refine h.history (fun ls t => ∀ p me, t.heap p = some me →
    ∃ cps burst, ((.init cps burst true, .ptr (some p)), me.pos) ∈ ls) ?_ (by rintro p me ⟨⟩)
  intro past u l v hpast hs p me hme
  rcases step_pos hs hme with ⟨me', hme', hpos⟩ | ⟨cps, burst, rfl⟩
  · obtain ⟨cps, burst, hin⟩ := hpast p me' hme'
    exact ⟨cps, burst, List.mem_append_left _ (hpos ▸ hin)⟩
  · exact ⟨cps, burst, List.mem_append_right _ (List.mem_singleton.2 rfl)⟩

/-- Up to every point of the run, the copy makes the library's steps with the library's answers, and
agrees with it. -/
def Agreeing (file : File) (ls : List Label) : Prop :=
  ∀ pre post, ls = pre ++ post → ∀ s, Run Mytbf.Step Mytbf.start (pre.map Prod.fst) s →
    ∃ t, Run (Step file) start pre t ∧ Agree s t

/-- Every bucket that is destroyed is in the slot that its `me->pos` names. -/
def OwnSlots (file : File) (ls : List Label) : Prop :=
  ∀ pre l post p t me, ls = pre ++ l :: post → l.1.1 = .destroy p → Run (Step file) start pre t →
    t.heap p = some me → InSlot t p me

theorem step_unique (file : File) (t : Sys) (l : Label) (t₁ t₂ : Sys) (h₁ : Step file t l t₁)
    (h₂ : Step file t l t₂) : t₁ = t₂ := Option.some.inj (h₁.symm.trans h₂)

theorem Agreeing.left {ls ls' : List Label} (h : Agreeing file (ls ++ ls')) : Agreeing file ls := by
  rintro pre post rfl
  exact h pre (post ++ ls') (List.append_assoc ..)

theorem OwnSlots.left {ls ls' : List Label} (h : OwnSlots file (ls ++ ls')) : OwnSlots file ls := by
  rintro pre l post p t me rfl
  exact h pre l (post ++ ls') p t me (List.append_assoc ..)

/-- The run that the copy makes. -/
theorem OwnSlots.follows {ls : List Label} (h : OwnSlots file ls) (hl : ∀ l ∈ ls, Proper l.1.1)
    (hrun : Run Mytbf.Step Mytbf.start (ls.map Prod.fst) s) :
    ∃ t, Run (Step file) start ls t ∧ Sim s t := by
  induction ls using List.reverseRecOn generalizing s with
  | nil =>
    cases hrun
    exact ⟨start, .nil start, sim_start⟩
  | append_singleton ls l ih =>
    rw [List.map_append, List.map_singleton, run_snoc_iff] at hrun
    obtain ⟨u, hu, hs⟩ := hrun
    obtain ⟨t, ht, hsim⟩ := ih h.left (fun l' hl' => hl l' (List.mem_append_left _ hl')) hu
    have hproper := hl l (List.mem_append_right _ (List.mem_singleton.2 rfl))
    have hnext : ∃ t', Step file t l t' ∧ Sim _ t' := sim_step hsim (Mytbf.run_table hu) hproper
      (fun p me hp hme => h ls l [] p t me rfl hp ht hme) hs
    obtain ⟨t', ht', hsim'⟩ := hnext
    exact ⟨t', run_snoc_iff.2 ⟨t, ht, ht'⟩, hsim'⟩

/-- A `mytbf_destroy` after which the two agree has emptied the bucket's slot. -/
theorem inSlot_of_agree (h : Sim s t) (htable : Table s) (hl : l.1.1 = .destroy p) (hme : t.heap p = some me)
    (hs : Mytbf.Step s l.1 s') (ht : Step file t l t') (ha : Agree s' t') : InSlot t p me := by
  obtain ⟨⟨e, a⟩, pos⟩ := l
  subst hl
  have hs := Mytbf.step_iff.1 hs
  have ht := step_iff.1 ht
  simp only [Mytbf.step, step, hme] at hs ht
  split at hs
  · next b hp hb =>
    rw [h.paused, hp] at ht
    dsimp only at ht
    cases hs
    obtain ⟨v, hv, hv'⟩ := Option.map_eq_some_iff.1 ht
    cases hv'
    unfold mytbfDestroy at hv
    split at hv
    · next hpos =>
      cases hv
      obtain ⟨hlt, hjob⟩ := htable.bucket p b hb
      have hslot := ha.slots b.pos
      have hempty : (Mytbf.mytbfDestroy p b s).job b.pos = none := Function.update_self ..
      rw [hempty] at hslot
      have heq : b.pos = me.pos.toNat := by
        refine Classical.not_not.1 fun hne => ?_
        dsimp only at hslot
        rw [Function.update_of_ne hne, h.job, hjob] at hslot
        cases hslot
      exact ⟨b.pos, hlt, by omega, h.job ▸ hjob⟩
    · cases hv
  · cases hs

/-- **Agreement.**  In every run of the calls, either copy agrees with the library throughout if and
only if every bucket that is destroyed is in the slot of its `me->pos`. -/
theorem copies_agree_iff {ls : List Label} (hrun : Run Mytbf.Step Mytbf.start (ls.map Prod.fst) s)
    (hl : ∀ l ∈ ls, Proper l.1.1) (file : File) : Agreeing file ls ↔ OwnSlots file ls := by
  constructor
  · intro h
    induction ls using List.reverseRecOn generalizing s with
    | nil =>
      rintro pre l post p t me he
      cases pre <;> cases he
    | append_singleton ls l ih =>
      rw [List.map_append, List.map_singleton, run_snoc_iff] at hrun
      obtain ⟨u, hu, hs⟩ := hrun
      have hlast : l ∈ ls ++ [l] := List.mem_append_right _ (List.mem_singleton.2 rfl)
      have hl' : ∀ l' ∈ ls, Proper l'.1.1 := fun l' h' => hl l' (List.mem_append_left _ h')
      have hown := ih hu hl' h.left
      intro pre l' post p t me he hp ht hme
      rcases List.eq_nil_or_concat' post with rfl | ⟨post, x, rfl⟩
      · -- the last step: `Sim` holds before it, and the two agree after it
        obtain ⟨rfl, rfl⟩ := List.append_singleton_inj.1 he
        obtain ⟨t₁, ht₁, hsim⟩ := hown.follows hl' hu
        obtain rfl := ht.unique (step_unique file) ht₁
        obtain ⟨t', ht', ha⟩ := h _ [] (List.append_nil _).symm s (by
          rw [List.map_append, List.map_singleton, run_snoc_iff]
          exact ⟨u, hu, hs⟩)
        obtain ⟨t₂, ht₂, hstep⟩ := run_snoc_iff.1 ht'
        obtain rfl := ht.unique (step_unique file) ht₂
        exact inSlot_of_agree hsim (Mytbf.run_table hu) hp hme hs hstep ha
      · rw [← List.cons_append, ← List.append_assoc] at he
        obtain ⟨rfl, -⟩ := List.append_singleton_inj.1 he
        exact hown pre l' post p t me rfl hp ht hme
  · rintro h pre post rfl s' hs'
    obtain ⟨t, ht, hsim⟩ := h.left.follows (fun l hl' => hl l (List.mem_append_left _ hl')) hs'
    exact ⟨t, ht, hsim.agree⟩

end

/-- A bucket that is filled, taken from and destroyed, where its memory holds its slot's number. -/
theorem copies_agree_iff_kept : Agreeing .mytbf
    [((.init 2 5 true, .ptr (some 0)), 0), ((.alarm true, .none), 0), ((.fetch 0 3, .int 2), 0),
      ((.destroy 0, .int 0), 0)] := by
  obtain ⟨s, hrun, -⟩ := run_of_exec_map Mytbf.stepL Mytbf.start
    (List.map Prod.fst ([((.init 2 5 true, .ptr (some 0)), 0), ((.alarm true, .none), 0),
      ((.fetch 0 3, .int 2), 0), ((.destroy 0, .int 0), 0)] : List Label))
    (fun s => s.brk) (a := 1) (by decide +kernel)
  obtain ⟨u, hu, hs⟩ := run_of_exec_map (stepL .mytbf) start
    [((.init 2 5 true, .ptr (some 0)), 0), ((.alarm true, .none), 0), ((.fetch 0 3, .int 2), 0)]
    (fun t => ((t.heap 0).map MytbfSt.pos, t.job 0)) (a := (some 0, some 0)) (by decide +kernel)
  obtain ⟨hpos, hjob⟩ := Prod.mk.inj hs
  refine (copies_agree_iff hrun (by decide) .mytbf).2 ?_
  intro pre l post p t me he hl ht hme
  -- of the four steps only the last one is a `destroy`
  rcases pre with _ | ⟨a, _ | ⟨b, _ | ⟨c, _ | ⟨d, pre⟩⟩⟩⟩
  · cases he
    cases hl
  · cases he
    cases hl
  · cases he
    cases hl
  · cases he
    cases hl
    obtain rfl := ht.unique (step_unique .mytbf) hu
    rw [hme] at hpos
    exact ⟨0, by decide, Option.some.inj hpos, hjob⟩
  · cases pre <;> cases he

/-- A bucket that is destroyed where its memory holds a 7 at `me->pos`: slot 0 stays taken. -/
theorem pos_unset_disagrees : ∃ s,
    Run Mytbf.Step Mytbf.start [(.init 2 5 true, .ptr (some 0)), (.destroy 0, .int 0)] s ∧
    ∀ file, ∃ t, Run (Step file) start
      [((.init 2 5 true, .ptr (some 0)), 7), ((.destroy 0, .int 0), 0)] t ∧ ¬ Agree s t := by
  obtain ⟨s, hrun, hs⟩ := run_of_exec_map Mytbf.stepL Mytbf.start
    [(.init 2 5 true, .ptr (some 0)), (.destroy 0, .int 0)] (fun s => s.job 0) (a := none) (by decide +kernel)
  refine ⟨s, hrun, fun file => ?_⟩
  obtain ⟨t, ht, hjob⟩ := run_of_exec_map (stepL file) start
    [((.init 2 5 true, .ptr (some 0)), 7), ((.destroy 0, .int 0), 0)] (fun t => t.job 0) (a := some 0)
    (by cases file <;> decide +kernel)
  refine ⟨t, ht, fun ha => ?_⟩
  have hslot := ha.slots 0
  rw [hs, hjob] at hslot
  cases hslot

end CPrograms.SignalMytbf
