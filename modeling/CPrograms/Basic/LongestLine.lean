import CPrograms.Basic.GetLine
import Mathlib.Data.List.MinMax

/-!
# `basic/07_find_maxlength_string.c`

`get_line` ends the string only where it reads a newline, so that of a last line without one is
ended by what was in `line` before.  Its length is also less by one than that of the others: one
more character than they have is not enough for it to be kept.
-/

namespace CPrograms.Basic.LongestLine

open Buffers Lines

def maxLine : Nat := 1000

/-! ## The program -/

/-- The test that ends the loop of `get_line`. -/
def stop (c : Int) : Bool := c = eof ∨ c = newline.toNat

/-- `get_line`; as `lim` is more than 1, `c` is set. -/
def getLine {n : Nat} (s : Buffer n) (lim : Nat) (input : List UInt8) : Option (Buffer n × Int × List UInt8) :=
  (fillLine stop (lim - 1) s 0 0 input).bind fun (s, i, c, input) =>
    if c = newline.toNat then (s.store i 0).map fun s => (s, i + 1, input)
    else some (s, i, input)

/-- The loop of `copy`, from `i` on. -/
def copyLoop {n : Nat} (target source : Buffer n) (i : Nat) : Option (Buffer n) :=
  match _h : source.load i with
  | none => none
  | some c => (target.store i c).bind fun target => if c = 0 then some target else copyLoop target source (i + 1)
termination_by n - i
decreasing_by
  have := load_lt _h
  omega

def copy {n : Nat} (target source : Buffer n) : Option (Buffer n) := copyLoop target source 0

/-- What is read is gone. -/
theorem length_getLine {n lim : Nat} {s s' : Buffer n} {len : Int} {input input' : List UInt8}
    (h : getLine s lim input = some (s', len, input')) : input'.length + len ≤ input.length := by
  obtain ⟨⟨s₁, i, c, rest⟩, hfill, h⟩ := Option.bind_eq_some_iff.1 h
  have hlen := length_fillLine (by decide) (by decide) _ _ _ _ _ (fun _ => by decide) hfill
  dsimp only at h
  split at h
  · next hc =>
    obtain ⟨s₂, -, he⟩ := Option.map_eq_some_iff.1 h
    obtain ⟨-, rfl, rfl⟩ := he
    rw [if_pos hc] at hlen
    omega
  · next hc =>
    obtain ⟨-, rfl, rfl⟩ := h
    rw [if_neg hc] at hlen
    omega

/-- The loop of `main`; what is left in `max` and in `longest`. -/
def mainLoop (line longest : Buffer maxLine) (max : Int) (input : List UInt8) : Option (Int × Buffer maxLine) :=
  match _h : getLine line maxLine input with
  | none => none
  | some (line, len, rest) =>
    if _hlen : len > 0 then
      if len > max then (copy longest line).bind fun longest => mainLoop line longest len rest
      else mainLoop line longest max rest
    else some (max, longest)
termination_by input.length
decreasing_by
  · have := length_getLine _h
    omega
  · have := length_getLine _h
    omega

/-- `main`: what is left in `longest`, and what is printed. -/
def main (line longest : Buffer maxLine) (input : List UInt8) : Option (Buffer maxLine × List UInt8) :=
  (mainLoop line longest 0 input).bind fun (max, longest) =>
    if max > 0 then longest.cString.map fun s => (longest, s ++ [newline]) else some (longest, [])

/-! ## The functions -/

section

variable {n : Nat} {w : List UInt8}

theorem stop_char (hw : newline ∉ w) : ∀ b ∈ w, stop b.toNat = false := by
  intro b hb
  refine decide_eq_false fun hor => hor.elim (natCast_ne_eof b) fun he => hw ?_
  rwa [← (natCast_eq_iff b newline).1 he]

theorem getLine_line (s : Buffer maxLine) (hw : newline ∉ w) (hlen : w.length < 999) (input : List UInt8) :
    getLine s maxLine (w ++ newline :: input) =
      some (s.overwrite (w ++ [0]), (w.length + 1 : Int), input) := by
  have hfill := @fillLine_start maxLine stop w (newline :: input) input 0 newline.toNat 999 rfl (by decide) s
    (stop_char hw) hlen (show w.length ≤ 1000 by omega)
  have hn : w.length < maxLine := show w.length < 1000 by omega
  unfold getLine
  rw [show maxLine - 1 = 999 from rfl, hfill, Option.bind_some]
  dsimp only
  rw [if_pos rfl, store_overwrite rfl hn]
  rfl

/-- A last line without a newline. -/
theorem getLine_open (s : Buffer maxLine) (hw : newline ∉ w) (hlen : w.length < 999) :
    getLine s maxLine w = some (s.overwrite w, (w.length : Int), []) := by
  have hfill := @fillLine_start maxLine stop w [] [] 0 eof 999 rfl (by decide) s (stop_char hw) hlen
    (show w.length ≤ 1000 by omega)
  rw [List.append_nil] at hfill
  unfold getLine
  rw [show maxLine - 1 = 999 from rfl, hfill, Option.bind_some]
  exact if_neg (by decide)

theorem copyLoop_eq (target : Buffer n) {source : Buffer n} (rest : List UInt8) : ∀ pre : List UInt8,
    source.bytes = pre ++ rest → copyLoop (target.overwrite pre) source pre.length =
      if 0 ∈ rest then some (target.overwrite (pre ++ rest.takeWhile (· ≠ 0) ++ [0])) else none := by
  induction rest with
  | nil =>
    intro pre hbytes
    have hload : source.load pre.length = none := by
      rw [load_natCast, hbytes, List.append_nil, List.getElem?_eq_none (Nat.le_refl _)]
    rw [copyLoop]
    split
    · rfl
    · next h => cases hload.symm.trans h
  | cons c rest ih =>
    intro pre hbytes
    have hload : source.load pre.length = some c := by
      rw [load_natCast, hbytes, List.getElem?_append_right (Nat.le_refl _), Nat.sub_self]
      rfl
    have hlen : pre.length < n := load_lt hload
    rw [copyLoop]
    split
    · next h => cases hload.symm.trans h
    · next c' h =>
      obtain rfl := Option.some.inj (hload.symm.trans h)
      rw [store_overwrite rfl hlen, Option.bind_some]
      by_cases hc : c = 0
      · rw [if_pos hc, if_pos (by rw [hc]; exact List.mem_cons_self), List.takeWhile_cons,
          if_neg (by rw [hc]; decide), List.append_nil, hc]
      · have hrest := ih (pre ++ [c]) (by rw [hbytes, List.append_assoc]; rfl)
        rw [List.length_append, List.length_singleton] at hrest
        rw [if_neg hc, hrest, List.takeWhile_cons, if_pos (decide_eq_true hc), List.append_assoc pre [c]]
        refine if_congr ?_ rfl rfl
        rw [List.mem_cons, or_iff_right (Ne.symm hc)]

/-- `copy` goes to the NUL, if there is one. -/
theorem copy_eq (target source : Buffer n) :
    copy target source = source.cString.map fun s => target.overwrite (s ++ [0]) := by
  have h := copyLoop_eq target source.bytes [] rfl
  rw [overwrite_nil] at h
  unfold copy Buffer.cString
  rw [show (0 : Nat) = ([] : List UInt8).length from rfl, h]
  split
  · rfl
  · rfl

end

/-! ## The loop of `main` -/

theorem mainLoop_eq {line line' longest : Buffer maxLine} {max len : Int} {input rest : List UInt8}
    (h : getLine line maxLine input = some (line', len, rest)) :
    mainLoop line longest max input =
      if len > 0 then
        if len > max then (copy longest line').bind fun longest => mainLoop line' longest len rest
        else mainLoop line' longest max rest
      else some (max, longest) := by
  rw [mainLoop]
  split
  · next h' => cases h.symm.trans h'
  · next h' =>
    obtain ⟨rfl, rfl, rfl⟩ := Option.some.inj (h.symm.trans h')
    split
    · rfl
    · rfl

/-- After the lines `ws`: from `max` on `line` is as it was, and the first of the longest is kept. -/
structure Kept (junk : Buffer maxLine) (ws : List (List UInt8)) (line longest : Buffer maxLine) (max : Int) :
    Prop where
  nonneg : 0 ≤ max
  stale : ∀ i : Nat, max ≤ i → line.load i = junk.load i
  none : ws.argmax List.length = none → max = 0
  some : ∀ w, ws.argmax List.length = some w → max = w.length + 1 ∧ longest.cString = some w

theorem kept_start (junk longest : Buffer maxLine) : Kept junk [] junk longest 0 :=
  ⟨Int.le_refl 0, fun _ _ => rfl, fun _ => rfl, fun _ h => nomatch h⟩

section

variable {junk line longest : Buffer maxLine} {max : Int} {ws : List (List UInt8)} {w : List UInt8}

theorem argmax_concat_ne_none (ws : List (List UInt8)) (w : List UInt8) :
    (ws ++ [w]).argmax List.length ≠ none := by
  intro h
  rw [List.argmax_eq_none] at h
  exact List.append_ne_nil_of_right_ne_nil _ (List.cons_ne_nil _ _) h

/-- A longer line is kept. -/
theorem Kept.longer {line' longest' : Buffer maxLine} (hkept : Kept junk ws line longest max)
    (hlonger : (w.length : Int) + 1 > max)
    (hstale : ∀ i : Nat, (w.length : Int) + 1 ≤ i → line'.load i = junk.load i)
    (hstring : longest'.cString = Option.some w) : Kept junk (ws ++ [w]) line' longest' (w.length + 1) := by
  refine ⟨by omega, hstale, fun h => absurd h (argmax_concat_ne_none ws w), fun w' hw' => ?_⟩
  rw [List.argmax_concat] at hw'
  have hw' : w = w' := by
    cases hbest : ws.argmax List.length with
    | none =>
      rw [hbest] at hw'
      exact Option.some.inj hw'
    | some b =>
      have hb := (hkept.some b hbest).1
      rw [hbest] at hw'
      dsimp only at hw'
      rw [if_pos (by omega)] at hw'
      exact Option.some.inj hw'
  rw [← hw']
  exact ⟨rfl, hstring⟩

/-- The one that was kept stays. -/
theorem Kept.shorter {line' : Buffer maxLine} (hkept : Kept junk ws line longest max)
    (hshorter : ¬(w.length : Int) + 1 > max) (hstale : ∀ i : Nat, max ≤ i → line'.load i = junk.load i) :
    Kept junk (ws ++ [w]) line' longest max := by
  refine ⟨hkept.nonneg, hstale, fun h => absurd h (argmax_concat_ne_none ws w), fun w' hw' => ?_⟩
  rw [List.argmax_concat] at hw'
  cases hbest : ws.argmax List.length with
  | none =>
    have hzero := hkept.none hbest
    omega
  | some b =>
    have hb := hkept.some b hbest
    rw [hbest] at hw'
    dsimp only at hw'
    rw [if_neg (by omega)] at hw'
    rw [← Option.some.inj hw']
    exact hb

theorem mainLoop_line (hkept : Kept junk ws line longest max) (hw : newline ∉ w) (hnul : 0 ∉ w)
    (hlen : w.length < 999) : ∃ line' longest' max', Kept junk (ws ++ [w]) line' longest' max' ∧
      ∀ input, mainLoop line longest max (w ++ newline :: input) = mainLoop line' longest' max' input := by
  have hn : (w ++ [0]).length ≤ maxLine := by
    rw [List.length_append, List.length_singleton]
    show w.length + 1 ≤ 1000
    omega
  have hlt : w.length < maxLine := show w.length < 1000 by omega
  have hstring : (line.overwrite (w ++ [0])).cString = Option.some w := cString_overwrite hnul hlt
  have hstale : ∀ i : Nat, max ≤ i → (w.length : Int) + 1 ≤ i →
      (line.overwrite (w ++ [0])).load i = junk.load i := by
    intro i hi hwi
    rw [load_overwrite_of_le hn (by rw [List.length_append, List.length_singleton]; omega)]
    exact hkept.stale i hi
  have hread := getLine_line line hw hlen
  have hmax := hkept.nonneg
  by_cases hlonger : (w.length : Int) + 1 > max
  · refine ⟨line.overwrite (w ++ [0]), longest.overwrite (w ++ [0]), w.length + 1,
      hkept.longer hlonger (fun i hi => hstale i (by omega) hi) (cString_overwrite hnul hlt), fun input => ?_⟩
    rw [mainLoop_eq (hread input), if_pos (by omega), if_pos hlonger, copy_eq, hstring]
    rfl
  · refine ⟨line.overwrite (w ++ [0]), longest, max, hkept.shorter hlonger fun i hi => hstale i hi (by omega),
      fun input => ?_⟩
    rw [mainLoop_eq (hread input), if_pos (by omega), if_neg hlonger]

theorem mainLoop_nil : mainLoop line longest max [] = some (max, longest) := by
  rw [mainLoop_eq (getLine_open line List.not_mem_nil (by decide))]
  exact if_neg (by decide)

/-- A last line without a newline, which is ended by what was in `line`. -/
theorem mainLoop_open (hw : newline ∉ w) (hlen : w.length < 999) (hne : w ≠ []) :
    mainLoop line longest max w =
      if w.length > max then
        (line.overwrite w).cString.map fun s => ((w.length : Int), longest.overwrite (s ++ [0]))
      else some (max, longest) := by
  have hpos := List.length_pos_iff.2 hne
  rw [mainLoop_eq (getLine_open line hw hlen), if_pos (by omega)]
  split
  · rw [copy_eq]
    cases (line.overwrite w).cString with
    | none => rfl
    | some s => exact mainLoop_nil
  · exact mainLoop_nil

/-- There is no last line `t`, or it is not longer than the longest of the others; or it is longer
by two at least, and a NUL was in `line` behind it. -/
def Fine (junk : Buffer maxLine) (ws : List (List UInt8)) (t : List UInt8) : Prop :=
  t = [] ∨ (∃ w ∈ ws, t.length ≤ w.length) ∨
    (∀ w ∈ ws, w.length + 2 ≤ t.length) ∧ junk.load t.length = some 0

/-- A last line that is copied, with whatever follows it in `line`. -/
theorem copied_open (hkept : Kept junk ws line longest max) (hw : newline ∉ w) (hnul : 0 ∉ w)
    (hlen : w.length < 999) (hne : w ≠ []) (hlonger : (w.length : Int) > max) :
    (∃ r, mainLoop line longest max w = some r ∧ r.2.cString = some w) ↔ junk.load w.length = some 0 := by
  have hlt : w.length < maxLine := show w.length < 1000 by omega
  have hmax := hkept.nonneg
  rw [mainLoop_open hw hlen hne, if_pos hlonger, ← hkept.stale w.length (by omega),
    ← cString_overwrite_iff hnul hlt]
  cases hstring : (line.overwrite w).cString with
  | none => exact iff_of_false (fun ⟨_, h, _⟩ => nomatch h) (fun h => nomatch h)
  | some s =>
    have hs := cString_overwrite (b := longest) (cString_eq_some hstring).1 (length_cString hstring)
    constructor
    · rintro ⟨r, hr, hlongest⟩
      rw [← Option.some.inj hr, hs] at hlongest
      exact hlongest
    · exact fun h => ⟨_, rfl, hs.trans h⟩

/-- What is kept where a last line `w` was read after the lines `ws`. -/
theorem kept_open (hkept : Kept junk ws line longest max) (hw : newline ∉ w) (hnul : 0 ∉ w)
    (hlen : w.length < 999) (hne : w ≠ []) :
    (∃ r, mainLoop line longest max w = some r ∧ r.2.cString = (ws ++ [w]).argmax List.length) ↔
      Fine junk ws w := by
  have hpos := List.length_pos_iff.2 hne
  have hcopied := copied_open hkept hw hnul hlen hne
  unfold Fine
  rw [List.argmax_concat, or_iff_right hne]
  cases hbest : ws.argmax List.length with
  | none =>
    have hmax := hkept.none hbest
    obtain rfl := List.argmax_eq_none.1 hbest
    rw [or_iff_right (fun ⟨_, h, _⟩ => nomatch h), and_iff_right (List.forall_mem_nil _)]
    exact hcopied (by omega)
  | some b =>
    obtain ⟨hmax, hstring⟩ := hkept.some b hbest
    have hmem : b ∈ ws := List.argmax_mem hbest
    have hle : ∀ v ∈ ws, v.length ≤ b.length := fun v hv => List.le_of_mem_argmax hv hbest
    have hkeep : ¬ (w.length : Int) > max → mainLoop line longest max w = some (max, longest) := by
      intro hshort
      rw [mainLoop_open hw hlen hne, if_neg hshort]
    dsimp only
    by_cases hshort : w.length ≤ b.length
    · rw [if_neg (by omega)]
      exact iff_of_true ⟨_, hkeep (by omega), hstring⟩ (.inl ⟨b, hmem, hshort⟩)
    · have hno : ¬ ∃ v ∈ ws, w.length ≤ v.length := by
        rintro ⟨v, hv, hwv⟩
        have := hle v hv
        omega
      rw [if_pos (by omega), or_iff_right hno]
      by_cases hone : w.length = b.length + 1
      · -- as long as the other with its newline
        refine iff_of_false ?_ (fun h => by have := h.1 b hmem; omega)
        rintro ⟨r, hr, hlongest⟩
        rw [hkeep (by omega)] at hr
        rw [← Option.some.inj hr, hstring] at hlongest
        rw [Option.some.inj hlongest] at hone
        omega
      · have hall : ∀ v ∈ ws, v.length + 2 ≤ w.length := by
          intro v hv
          have := hle v hv
          omega
        rw [and_iff_right hall]
        exact hcopied (by omega)

end

theorem mainLoop_iff (junk : Buffer maxLine) (input : List UInt8) : ∀ (ws : List (List UInt8))
    (line longest : Buffer maxLine) (max : Int), Kept junk ws line longest max → 0 ∉ input →
      (∀ w ∈ lines input, w.length < 999) → ws ++ lines input ≠ [] →
        ((∃ r, mainLoop line longest max input = some r ∧
            r.2.cString = (ws ++ lines input).argmax List.length) ↔
          Fine junk (ws ++ bodies input) (tail input)) := by
  induction input using lines_induction with
  | last w hw =>
    intro ws line longest max hkept hnul hlen hne
    rw [bodies_open hw, tail_open hw, List.append_nil]
    rw [lines_open hw] at hlen hne ⊢
    by_cases hnil : w = []
    · rw [if_pos hnil, List.append_nil] at hne ⊢
      rw [hnil, mainLoop_nil]
      have hsome : ws.argmax List.length ≠ none := fun h => hne (List.argmax_eq_none.1 h)
      obtain ⟨b, hbest⟩ := Option.ne_none_iff_exists'.1 hsome
      rw [hbest]
      exact iff_of_true ⟨_, rfl, (hkept.some b hbest).2⟩ (.inl rfl)
    · rw [if_neg hnil] at hlen ⊢
      exact kept_open hkept hw hnul (hlen w List.mem_cons_self) hnil
  | line w input hw ih =>
    intro ws line longest max hkept hnul hlen hne
    rw [List.mem_append, not_or, List.mem_cons, not_or] at hnul
    rw [lines_line hw] at hlen ⊢
    obtain ⟨hshort, hlen⟩ := List.forall_mem_cons.1 hlen
    obtain ⟨line', longest', max', hkept', hloop⟩ := mainLoop_line hkept hw hnul.1 hshort
    have hrest := ih (ws ++ [w]) line' longest' max' hkept' hnul.2.2 hlen
    rw [List.append_assoc, List.append_assoc] at hrest
    rw [hloop, bodies_line hw, tail_line hw]
    exact hrest (List.append_ne_nil_of_right_ne_nil _ (List.cons_ne_nil _ _))

/-- What is left in `longest` is a string, the first of the longest lines. -/
def KeepsLongest (line longest : Buffer maxLine) (input : List UInt8) : Prop :=
  ∃ r, main line longest input = some r ∧ r.1.cString = (lines input).argmax List.length

theorem main_iff {line longest : Buffer maxLine} {input b : List UInt8} :
    (∃ r, main line longest input = some r ∧ r.1.cString = some b) ↔
      ∃ r, mainLoop line longest 0 input = some r ∧ r.2.cString = some b := by
  unfold main
  constructor
  · rintro ⟨r, hr, hstring⟩
    obtain ⟨⟨max, kept⟩, hmain, hr⟩ := Option.bind_eq_some_iff.1 hr
    refine ⟨(max, kept), hmain, ?_⟩
    dsimp only at hr
    split at hr
    · obtain ⟨s, -, rfl⟩ := Option.map_eq_some_iff.1 hr
      exact hstring
    · rw [← Option.some.inj hr] at hstring
      exact hstring
  · rintro ⟨⟨max, kept⟩, hmain, hstring⟩
    rw [hmain, Option.bind_some]
    dsimp only at hstring ⊢
    split
    · rw [hstring]
      exact ⟨_, rfl, hstring⟩
    · exact ⟨_, rfl, hstring⟩

theorem keepsLongest_iff_mainLoop (line longest : Buffer maxLine) {input : List UInt8} (hne : input ≠ []) :
    KeepsLongest line longest input ↔
      ∃ r, mainLoop line longest 0 input = some r ∧ r.2.cString = (lines input).argmax List.length := by
  have hsome : (lines input).argmax List.length ≠ none := fun h => lines_ne_nil hne (List.argmax_eq_none.1 h)
  obtain ⟨b, hbest⟩ := Option.ne_none_iff_exists'.1 hsome
  unfold KeepsLongest
  rw [hbest]
  exact main_iff

/-- **The longest line.**  When it is the one that is kept. -/
theorem longest_iff (line longest : Buffer maxLine) {input : List UInt8} (hne : input ≠ []) (hnul : 0 ∉ input)
    (hlen : ∀ w ∈ lines input, w.length < 999) :
    KeepsLongest line longest input ↔ Fine line (bodies input) (tail input) :=
  (keepsLongest_iff_mainLoop line longest hne).trans
    (mainLoop_iff line input [] line longest 0 (kept_start line longest) hnul hlen (lines_ne_nil hne))

/-- `c`, `ab`, `de` and `f`, each with its newline: `ab` is kept. -/
theorem longest_iff_terminated : ∃ r, main zeros zeros [99, 10, 97, 98, 10, 100, 101, 10, 102, 10] = some r ∧
    r.1.cString = some [97, 98] := by
  have hfine : Fine zeros (bodies [99, 10, 97, 98, 10, 100, 101, 10, 102, 10])
    (tail [99, 10, 97, 98, 10, 100, 101, 10, 102, 10]) := .inl (by decide)
  obtain ⟨r, hr, hlongest⟩ := (longest_iff zeros zeros (by decide) (by decide) (by decide)).2 hfine
  exact ⟨r, hr, hlongest.trans (by decide)⟩

/-- `a` without a newline, where there is no NUL in `line`; and after an empty line. -/
theorem unterminated_not_kept :
    ¬ KeepsLongest ⟨List.replicate maxLine 98, List.length_replicate⟩ zeros [97] ∧
      ¬ KeepsLongest zeros zeros [10, 97] := by
  constructor
  · intro h
    have hfine := (mainLoop_iff _ [97] [] _ _ 0 (kept_start _ zeros) (by decide) (by decide) (by decide)).1
      ((keepsLongest_iff_mainLoop _ _ (by decide)).1 h)
    rcases hfine with h | ⟨w, hw, -⟩ | ⟨-, h⟩
    · cases h
    · cases hw
    · exact absurd h (by decide)
  · intro h
    have hfine := (mainLoop_iff _ [10, 97] [] _ _ 0 (kept_start _ zeros) (by decide) (by decide) (by decide)).1
      ((keepsLongest_iff_mainLoop _ _ (by decide)).1 h)
    rcases hfine with h | ⟨w, hw, h⟩ | ⟨h, -⟩
    · cases h
    · rw [List.mem_singleton.1 hw] at h
      exact absurd h (by decide)
    · exact absurd (h [] List.mem_cons_self) (by decide)

end CPrograms.Basic.LongestLine
