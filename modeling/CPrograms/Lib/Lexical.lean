import Mathlib.Algebra.BigOperators.Group.List.Basic
import Mathlib.Algebra.Order.Group.Int
import Mathlib.Algebra.Ring.Int.Defs
import Mathlib.Data.List.Induction

/-!
# Lexical walks

A relative path is a list of moves: to stay, to go up, to go down to a name.  Moves alone, without
a look at what is there, lead to a `Place`: some steps above the start, and down some names from
there.  The depth of a walk is its moves down less its moves up; a walk is `Nonneg` if it never
goes above its start (`ups_eq_zero_iff`).

A walk ends strictly below the name `d` exactly where it splits at a move down to `d`, into a walk
that leads back to its start and one that leads below it, both `Nonneg` (`walk_below_iff`).  One
that begins with a name is below `d` from there on, or leaves that name and comes back to `d`
(`walk_cons_below_iff`).
-/

namespace Lexical

inductive Move (α : Type)
  | stay
  | up
  | down (a : α)
deriving DecidableEq

variable {α : Type}

/-- `ups` steps up, and down the names, the last one first. -/
structure Place (α : Type) where
  ups : Nat
  names : List α
deriving DecidableEq

def Place.go (p : Place α) : Move α → Place α
  | .stay => p
  | .up =>
    match p.names with
    | [] => ⟨p.ups + 1, []⟩
    | _ :: names => ⟨p.ups, names⟩
  | .down a => ⟨p.ups, a :: p.names⟩

def walk (ms : List (Move α)) : Place α := ms.foldl Place.go ⟨0, []⟩

def Move.delta : Move α → Int
  | .stay => 0
  | .up => -1
  | .down _ => 1

def depth (ms : List (Move α)) : Int := (ms.map Move.delta).sum

/-- It never goes above its start. -/
def Nonneg (ms : List (Move α)) : Prop := ∀ pre, pre <+: ms → 0 ≤ depth pre

/-- Strictly below the name `d`. -/
def Place.Below (d : α) (p : Place α) : Prop := p.ups = 0 ∧ ∃ names, names ≠ [] ∧ p.names = names ++ [d]

theorem walk_concat (ms : List (Move α)) (m : Move α) : walk (ms ++ [m]) = (walk ms).go m := by
  rw [walk, List.foldl_append]
  rfl

theorem depth_append (ms ns : List (Move α)) : depth (ms ++ ns) = depth ms + depth ns := by
  rw [depth, List.map_append, List.sum_append]
  rfl

theorem depth_singleton (m : Move α) : depth [m] = m.delta := by
  rw [depth, List.map_singleton, List.sum_singleton]

theorem nonneg_nil : Nonneg ([] : List (Move α)) := by
  intro pre hpre
  rw [List.prefix_nil.1 hpre]
  exact Int.le_refl 0

theorem nonneg_concat_iff {ms : List (Move α)} {m : Move α} :
    Nonneg (ms ++ [m]) ↔ Nonneg ms ∧ 0 ≤ depth ms + m.delta := by
  rw [← depth_singleton, ← depth_append]
  constructor
  · intro h
    exact ⟨fun pre hpre => h pre (hpre.trans (List.prefix_append ms [m])), h _ (List.prefix_refl _)⟩
  · rintro ⟨h, hlast⟩ pre hpre
    rcases List.prefix_concat_iff.1 hpre with rfl | hpre
    · exact hlast
    · exact h pre hpre

theorem depth_walk (ms : List (Move α)) : depth ms = (walk ms).names.length - (walk ms).ups := by
  induction ms using List.reverseRecOn with
  | nil => rfl
  | append_singleton ms m ih =>
    rw [depth_append, depth_singleton, walk_concat, ih]
    generalize walk ms = p
    obtain ⟨ups, names⟩ := p
    cases m with
    | stay => simp only [Place.go, Move.delta]; omega
    | down a => simp only [Place.go, Move.delta, List.length_cons]; omega
    | up =>
      cases names with
      | nil => simp only [Place.go, Move.delta, List.length_nil]; omega
      | cons a names => simp only [Place.go, Move.delta, List.length_cons]; omega

theorem ups_eq_zero_iff {ms : List (Move α)} : (walk ms).ups = 0 ↔ Nonneg ms := by
  induction ms using List.reverseRecOn with
  | nil => exact iff_of_true rfl nonneg_nil
  | append_singleton ms m ih =>
    have hdepth := depth_walk ms
    rw [nonneg_concat_iff, ← ih, walk_concat, hdepth]
    generalize walk ms = p
    obtain ⟨ups, names⟩ := p
    cases m with
    | stay => simp only [Place.go, Move.delta]; omega
    | down a => simp only [Place.go, Move.delta]; omega
    | up =>
      cases names with
      | nil => simp only [Place.go, Move.delta, List.length_nil]; omega
      | cons a names => simp only [Place.go, Move.delta, List.length_cons]; omega

/-- A walk that never goes above its start leaves what is above it. -/
theorem foldl_go {ms : List (Move α)} (h : Nonneg ms) (p : Place α) :
    ms.foldl Place.go p = ⟨p.ups, (walk ms).names ++ p.names⟩ := by
  induction ms using List.reverseRecOn with
  | nil => rfl
  | append_singleton ms m ih =>
    obtain ⟨hms, hlast⟩ := nonneg_concat_iff.1 h
    have hups := ups_eq_zero_iff.2 hms
    rw [depth_walk, hups] at hlast
    rw [List.foldl_append, ih hms, walk_concat]
    generalize walk ms = q at hlast
    obtain ⟨ups, names⟩ := q
    cases m with
    | stay => rfl
    | down a => rfl
    | up =>
      cases names with
      | nil => simp only [Move.delta, List.length_nil] at hlast; omega
      | cons a names => rfl

theorem walk_split {ms : List (Move α)} {names : List α} {d : α} (h : walk ms = ⟨0, names ++ [d]⟩) :
    ∃ pre post, ms = pre ++ .down d :: post ∧ Nonneg pre ∧ depth pre = 0 ∧ Nonneg post ∧
      depth post = names.length := by
  induction ms using List.reverseRecOn generalizing names with
  | nil =>
    rw [walk, List.foldl_nil, Place.mk.injEq] at h
    cases names <;> cases h.2
  | append_singleton ms m ih =>
    rw [walk_concat] at h
    -- the walk stays below `d` where it has been there before the last move
    have hstay : ∀ names', walk ms = ⟨0, names' ++ [d]⟩ → (names'.length : Int) + m.delta = names.length →
        ∃ pre post, ms ++ [m] = pre ++ .down d :: post ∧ Nonneg pre ∧ depth pre = 0 ∧ Nonneg post ∧
          depth post = names.length := by
      intro names' hms hlen
      obtain ⟨pre, post, rfl, h1, h2, h3, h4⟩ := ih hms
      refine ⟨pre, post ++ [m], by simp, h1, h2, nonneg_concat_iff.2 ⟨h3, ?_⟩, ?_⟩
      · rw [h4, hlen]
        exact Int.natCast_nonneg _
      · rw [depth_append, depth_singleton, h4, hlen]
    cases m with
    | stay => exact hstay names h (by simp only [Move.delta]; omega)
    | up =>
      cases hw : walk ms with
      | mk ups ns =>
        rw [hw] at h
        cases ns with
        | nil => cases h
        | cons a ns =>
          simp only [Place.go, Place.mk.injEq] at h
          obtain ⟨rfl, rfl⟩ := h
          exact hstay (a :: names) hw (by simp only [Move.delta, List.length_cons]; omega)
    | down a =>
      cases hw : walk ms with
      | mk ups ns =>
        rw [hw] at h
        simp only [Place.go, Place.mk.injEq] at h
        obtain ⟨rfl, hcons⟩ := h
        cases names with
        | nil =>
          obtain ⟨rfl, rfl⟩ := List.cons.inj hcons
          have hdepth := depth_walk ms
          rw [hw] at hdepth
          exact ⟨ms, [], rfl, ups_eq_zero_iff.1 (by rw [hw]), hdepth, nonneg_nil, rfl⟩
        | cons b names =>
          obtain ⟨rfl, rfl⟩ := List.cons.inj hcons
          exact hstay names hw (by simp only [Move.delta, List.length_cons]; omega)

/-- **Strictly below `d`.** -/
theorem walk_below_iff {ms : List (Move α)} {d : α} : (walk ms).Below d ↔
    ∃ pre post, ms = pre ++ .down d :: post ∧ Nonneg pre ∧ depth pre = 0 ∧ Nonneg post ∧
      1 ≤ depth post := by
  constructor
  · rintro ⟨hups, names, hne, hnames⟩
    have hwalk : walk ms = ⟨0, names ++ [d]⟩ := by rw [← hups, ← hnames]
    obtain ⟨pre, post, h1, h2, h3, h4, h5⟩ := walk_split hwalk
    have := List.length_pos_iff.2 hne
    exact ⟨pre, post, h1, h2, h3, h4, by omega⟩
  · rintro ⟨pre, post, rfl, hpre, hzero, hpost, hbelow⟩
    have hups := ups_eq_zero_iff.2 hpre
    have hnames : (walk pre).names = [] := by
      have := depth_walk pre
      exact List.length_eq_zero_iff.1 (by omega)
    have hwalk : walk (pre ++ .down d :: post) = ⟨0, (walk post).names ++ [d]⟩ := by
      rw [walk, List.foldl_append, List.foldl_cons, foldl_go hpost]
      show (⟨(walk pre).ups, (walk post).names ++ (d :: (walk pre).names)⟩ : Place α) = _
      rw [hups, hnames]
    have hlen := depth_walk post
    refine ⟨by rw [hwalk], (walk post).names, ?_, by rw [hwalk]⟩
    intro hnil
    rw [hnil, List.length_nil] at hlen
    omega

/-! ## Walks that begin with a name -/

/-- The moves lead one step up, with no more steps up than that on the way, and then below `d`. -/
def Returns (d : α) (ms : List (Move α)) (more : Int) : Prop :=
  ∃ pre post, ms = pre ++ .down d :: post ∧ (∀ p, p <+: pre → -1 ≤ depth p) ∧ depth pre = -1 ∧
    Nonneg post ∧ 1 ≤ depth post + more

theorem depth_cons (m : Move α) (ms : List (Move α)) : depth (m :: ms) = m.delta + depth ms := by
  rw [depth, List.map_cons, List.sum_cons]
  rfl

theorem nonneg_down_iff {a : α} {ms : List (Move α)} :
    Nonneg (.down a :: ms) ↔ ∀ p, p <+: ms → -1 ≤ depth p := by
  constructor
  · intro h p hp
    have hcons := h (.down a :: p) (List.cons_prefix_cons.2 ⟨rfl, hp⟩)
    rw [depth_cons, Move.delta] at hcons
    omega
  · intro h p hp
    cases p with
    | nil => exact Int.le_refl 0
    | cons m p =>
      obtain ⟨rfl, htail⟩ := List.cons_prefix_cons.1 hp
      have hdepth := h p htail
      rw [depth_cons, Move.delta]
      omega

theorem walk_cons_below_iff {a d : α} {ms : List (Move α)} : (walk (.down a :: ms)).Below d ↔
    (a = d ∧ Nonneg ms ∧ 1 ≤ depth ms) ∨ Returns d ms 0 := by
  rw [walk_below_iff]
  constructor
  · rintro ⟨pre, post, hsplit, hpre, hzero, hpost, hbelow⟩
    cases pre with
    | nil =>
      obtain ⟨hname, rfl⟩ := List.cons.inj hsplit
      exact .inl ⟨Move.down.inj hname, hpost, hbelow⟩
    | cons m pre =>
      obtain ⟨rfl, hms⟩ := List.cons.inj hsplit
      rw [depth_cons, Move.delta] at hzero
      exact .inr ⟨pre, post, hms, nonneg_down_iff.1 hpre, by omega, hpost, by omega⟩
  · rintro (⟨rfl, hpost, hbelow⟩ | ⟨pre, post, rfl, hpre, hone, hpost, hbelow⟩)
    · exact ⟨[], ms, rfl, nonneg_nil, rfl, hpost, hbelow⟩
    · refine ⟨.down a :: pre, post, rfl, nonneg_down_iff.2 hpre, ?_, hpost, by omega⟩
      rw [depth_cons, Move.delta]
      omega

/-- A name at the end, in the place of a move that stays. -/
theorem below_snoc_iff {b : α} {ms : List (Move α)} :
    (Nonneg (ms ++ [.down b]) ∧ 1 ≤ depth (ms ++ [.down b])) ↔
      Nonneg (ms ++ [.stay]) ∧ 1 ≤ depth (ms ++ [.stay]) + 1 := by
  rw [nonneg_concat_iff, nonneg_concat_iff, depth_append, depth_append, depth_singleton, depth_singleton,
    Move.delta, Move.delta]
  constructor
  · rintro ⟨⟨hms, -⟩, hbelow⟩
    have hdepth := hms ms (List.prefix_refl ms)
    exact ⟨⟨hms, by omega⟩, by omega⟩
  · rintro ⟨⟨hms, hdepth⟩, hbelow⟩
    exact ⟨⟨hms, by omega⟩, by omega⟩

theorem returns_snoc_iff {b d : α} (hb : b ≠ d) {ms : List (Move α)} :
    Returns d (ms ++ [.down b]) 0 ↔ Returns d (ms ++ [.stay]) 1 := by
  have hlast : ∀ {m : Move α} {pre post : List (Move α)}, ms ++ [m] = pre ++ .down d :: post → m ≠ .down d →
      ∃ rest, post = rest ++ [m] ∧ ms = pre ++ .down d :: rest := by
    intro m pre post hsplit hm
    rcases List.eq_nil_or_concat post with rfl | ⟨rest, m', rfl⟩
    · exact absurd (List.singleton_injective (List.append_inj' hsplit rfl).2) hm
    · rw [List.concat_eq_append, ← List.cons_append, ← List.append_assoc] at hsplit
      obtain ⟨hms, hsingle⟩ := List.append_inj' hsplit rfl
      exact ⟨rest, by rw [List.concat_eq_append, List.singleton_injective hsingle], hms⟩
  have hjoin : ∀ (m : Move α) (pre rest : List (Move α)),
      pre ++ .down d :: rest ++ [m] = pre ++ .down d :: (rest ++ [m]) := fun m pre rest => by
    rw [List.append_assoc, List.cons_append]
  constructor
  · rintro ⟨pre, post, hsplit, hpre, hone, hpost, hbelow⟩
    obtain ⟨rest, rfl, rfl⟩ := hlast hsplit (fun hm => hb (Move.down.inj hm))
    obtain ⟨hpost', hbelow'⟩ := below_snoc_iff.1 ⟨hpost, by omega⟩
    exact ⟨pre, rest ++ [.stay], hjoin _ _ _, hpre, hone, hpost', hbelow'⟩
  · rintro ⟨pre, post, hsplit, hpre, hone, hpost, hbelow⟩
    obtain ⟨rest, rfl, rfl⟩ := hlast hsplit nofun
    obtain ⟨hpost', hbelow'⟩ := (below_snoc_iff (b := b)).2 ⟨hpost, hbelow⟩
    exact ⟨pre, rest ++ [.down b], hjoin _ _ _, hpre, hone, hpost', by omega⟩

end Lexical
