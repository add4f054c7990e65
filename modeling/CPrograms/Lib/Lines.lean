import Mathlib.Data.List.Basic

/-!
# Input by characters and by lines

`getchar` reads a standard input that is a list of bytes, and stays at its end.  Such an input is
`bodies`, each ended by a newline, and a `tail` without one; its `lines` are the bodies and the
tail, if there is one.  `lines_induction` goes from line to line.
-/

namespace Lines

/-! ## Characters -/

def eof : Int := -1

/-- The next character, and what is left. -/
def getchar : List UInt8 → Int × List UInt8
  | [] => (eof, [])
  | c :: input => (c.toNat, input)

/-- An `int` that is stored in a `char`. -/
def toChar (c : Int) : UInt8 := UInt8.ofNat (c % 256).toNat

/-- A `char`, which is signed, as an `int`. -/
def fromChar (c : UInt8) : Int := if c.toNat < 128 then c.toNat else c.toNat - 256

theorem toChar_natCast (c : UInt8) : toChar c.toNat = c := by
  have hlt := c.toNat_lt
  unfold toChar
  rw [Int.emod_eq_of_lt (by omega) (by omega), Int.toNat_natCast]
  exact UInt8.ofNat_toNat

theorem toChar_fromChar (c : UInt8) : toChar (fromChar c) = c := by
  have hmod : fromChar c % 256 = (c.toNat : Int) % 256 := by
    unfold fromChar
    split
    · rfl
    · rw [Int.sub_emod_right]
  unfold toChar
  rw [hmod]
  exact toChar_natCast c

/-- A `char` that is compared with an ASCII character. -/
theorem fromChar_eq_iff {c d : UInt8} (hd : d.toNat < 128) : fromChar c = d.toNat ↔ c = d := by
  have hlt := c.toNat_lt
  rw [← UInt8.toNat_inj]
  unfold fromChar
  split
  · omega
  · omega

theorem natCast_ne_eof (c : UInt8) : (c.toNat : Int) ≠ eof := by
  unfold eof
  omega

theorem natCast_eq_iff (c d : UInt8) : (c.toNat : Int) = d.toNat ↔ c = d := by
  rw [Int.ofNat_inj, UInt8.toNat_inj]

/-! ## Lines -/

def newline : UInt8 := 10

/-- The carriage return. -/
def cr : UInt8 := 13

def bodies : List UInt8 → List (List UInt8)
  | [] => []
  | c :: input =>
    if c = newline then [] :: bodies input
    else
      match bodies input with
      | [] => []
      | w :: ws => (c :: w) :: ws

def tail : List UInt8 → List UInt8
  | [] => []
  | c :: input => if c ≠ newline ∧ bodies input = [] then c :: tail input else tail input

def lines (input : List UInt8) : List (List UInt8) :=
  bodies input ++ if tail input = [] then [] else [tail input]

theorem bodies_open {w : List UInt8} (h : newline ∉ w) : bodies w = [] := by
  induction w with
  | nil => rfl
  | cons c w ih =>
    rw [List.mem_cons, not_or] at h
    rw [bodies, if_neg (Ne.symm h.1), ih h.2]

theorem tail_open {w : List UInt8} (h : newline ∉ w) : tail w = w := by
  induction w with
  | nil => rfl
  | cons c w ih =>
    rw [List.mem_cons, not_or] at h
    rw [tail, if_pos ⟨Ne.symm h.1, bodies_open h.2⟩, ih h.2]

theorem bodies_line {w : List UInt8} (h : newline ∉ w) (input : List UInt8) :
    bodies (w ++ newline :: input) = w :: bodies input := by
  induction w with
  | nil => exact if_pos rfl
  | cons c w ih =>
    rw [List.mem_cons, not_or] at h
    rw [List.cons_append, bodies, if_neg (Ne.symm h.1), ih h.2]

theorem tail_line {w : List UInt8} (h : newline ∉ w) (input : List UInt8) :
    tail (w ++ newline :: input) = tail input := by
  induction w with
  | nil => exact if_neg fun hand => hand.1 rfl
  | cons c w ih =>
    rw [List.mem_cons, not_or] at h
    rw [List.cons_append, tail, if_neg, ih h.2]
    rw [bodies_line h.2]
    exact fun hand => List.cons_ne_nil _ _ hand.2

/-- What is behind the last newline, with bytes in front that have none. -/
theorem tail_append {w : List UInt8} (hw : newline ∉ w) (input : List UInt8) :
    tail (w ++ input) = if newline ∈ input then tail input else w ++ input := by
  split
  · next h =>
    obtain ⟨v, rest, rfl, hv⟩ := List.eq_append_cons_of_mem h
    rw [tail_line hv, ← List.append_assoc, tail_line]
    rw [List.mem_append, not_or]
    exact ⟨hw, hv⟩
  · next h =>
    refine tail_open ?_
    rw [List.mem_append, not_or]
    exact ⟨hw, h⟩

theorem lines_line {w : List UInt8} (h : newline ∉ w) (input : List UInt8) :
    lines (w ++ newline :: input) = w :: lines input := by
  unfold lines
  rw [bodies_line h, tail_line h, List.cons_append]

theorem lines_open {w : List UInt8} (h : newline ∉ w) : lines w = if w = [] then [] else [w] := by
  unfold lines
  rw [bodies_open h, tail_open h, List.nil_append]

/-- The induction over the words that end where the input stops. -/
theorem words_induction {P : List UInt8 → Prop} (stop : UInt8 → Bool) (last : ∀ w, (∀ b ∈ w, stop b = false) → P w)
    (word : ∀ w c input, (∀ b ∈ w, stop b = false) → stop c = true → P input → P (w ++ c :: input))
    (input : List UInt8) : P input := by
  suffices hword : ∀ w, (∀ b ∈ w, stop b = false) → P (w ++ input) from hword [] (List.forall_mem_nil _)
  induction input with
  | nil =>
    intro w hw
    rw [List.append_nil]
    exact last w hw
  | cons c input ih =>
    intro w hw
    by_cases hc : stop c = true
    · exact word w c input hw hc (ih [] (List.forall_mem_nil _))
    · have hrest := ih (w ++ [c])
        (List.forall_mem_append.2 ⟨hw, List.forall_mem_singleton.2 ((Bool.not_eq_true _).mp hc)⟩)
      rwa [List.append_assoc] at hrest

/-- The induction over the lines. -/
theorem lines_induction {P : List UInt8 → Prop} (last : ∀ w, newline ∉ w → P w)
    (line : ∀ w input, newline ∉ w → P input → P (w ++ newline :: input)) (input : List UInt8) : P input := by
  have hword : ∀ w : List UInt8, (∀ b ∈ w, decide (b = newline) = false) → newline ∉ w := fun w hw hmem =>
    of_decide_eq_false (hw newline hmem) rfl
  induction input using words_induction (fun b => decide (b = newline)) with
  | last w hw => exact last w (hword w hw)
  | word w c input hw hc ih =>
    rw [of_decide_eq_true hc]
    exact line w input (hword w hw) ih

theorem lines_ne_nil {input : List UInt8} (h : input ≠ []) : lines input ≠ [] := by
  induction input using lines_induction with
  | last w hw =>
    rw [lines_open hw, if_neg h]
    exact List.cons_ne_nil _ _
  | line w input hw _ =>
    rw [lines_line hw]
    exact List.cons_ne_nil _ _

/-- What has no newline in it is in one line. -/
theorem infix_line {v w input : List UInt8} (hv : newline ∉ v) (h : v <:+: w ++ newline :: input) :
    v <:+: w ∨ v <:+: input := by
  obtain ⟨pre, suf, he⟩ := h
  rcases List.append_eq_append_iff.1 he with ⟨a, ha, -⟩ | ⟨a, ha, hsuf⟩
  · exact .inl ⟨pre, a, ha.symm⟩
  · rcases List.append_eq_append_iff.1 ha with ⟨b, hb, hvb⟩ | ⟨b, hb, hab⟩
    · cases a with
      | nil =>
        rw [List.append_nil] at hvb
        exact .inl ⟨pre, [], by rw [List.append_nil, hvb, hb]⟩
      | cons c a =>
        rw [List.cons_append, List.cons.injEq] at hsuf
        rw [← hsuf.1] at hvb
        exact absurd (hvb ▸ List.mem_append_right b List.mem_cons_self) hv
    · cases b with
      | nil =>
        rw [List.nil_append] at hab
        rw [List.append_nil] at hb
        cases v with
        | nil => exact .inl List.nil_infix
        | cons c v =>
          rw [hab, List.cons_append, List.cons.injEq] at hsuf
          exact absurd (hsuf.1 ▸ List.mem_cons_self) hv
      | cons c b =>
        rw [hab, List.cons_append, List.cons_append, List.cons.injEq] at hsuf
        exact .inr ⟨b, suf, hsuf.2.symm⟩

/-- Words that are shorter than `n`, as the lines are. -/
theorem length_lt_of_infix {n : Nat} {v : List UInt8} (hv : newline ∉ v) (hne : v ≠ []) {input : List UInt8} :
    (∀ w ∈ lines input, w.length < n) → v <:+: input → v.length < n := by
  induction input using lines_induction with
  | last w hw =>
    intro hlen h
    have hw' : w ≠ [] := fun hnil => hne (List.infix_nil.1 (hnil ▸ h))
    rw [lines_open hw, if_neg hw'] at hlen
    exact Nat.lt_of_le_of_lt h.length_le (hlen w List.mem_cons_self)
  | line w input hw ih =>
    intro hlen h
    rw [lines_line hw] at hlen
    obtain ⟨hshort, hlen⟩ := List.forall_mem_cons.1 hlen
    exact (infix_line hv h).elim (fun h => Nat.lt_of_le_of_lt h.length_le hshort) (ih hlen)

end Lines
