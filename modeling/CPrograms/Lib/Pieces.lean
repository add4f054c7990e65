import CPrograms.Lib.Lines

/-!
# Pieces of lines

A stream is read in pieces: up to a newline and with it, but `room` bytes at most (`piece`).  A
line that is shorter than `room` is one piece; one that is longer is cut (`piece_cut`), and where
its length is a multiple of `room` the newline is a piece of its own.  `afterBlank` reads pieces up
to the first that is a newline alone: it stops behind the first empty line, unless a line before it
is cut so (`afterBlank_block_iff`).
-/

namespace Pieces

open Lines

/-- The next piece, and what is left. -/
def piece : Nat → List UInt8 → List UInt8 × List UInt8
  | 0, input => ([], input)
  | _ + 1, [] => ([], [])
  | room + 1, c :: input =>
    if c = newline then ([c], input) else (c :: (piece room input).1, (piece room input).2)

section

variable {room : Nat} {w input : List UInt8}

theorem piece_append (room : Nat) (input : List UInt8) : (piece room input).1 ++ (piece room input).2 = input := by
  induction room generalizing input with
  | zero => rfl
  | succ room ih =>
    cases input with
    | nil => rfl
    | cons c input =>
      rw [piece]
      split
      · rfl
      · exact congrArg (c :: ·) (ih input)

theorem length_piece_le (room : Nat) (input : List UInt8) : (piece room input).1.length ≤ room := by
  induction room generalizing input with
  | zero => exact Nat.le_refl 0
  | succ room ih =>
    cases input with
    | nil => exact Nat.zero_le _
    | cons c input =>
      rw [piece]
      split
      · exact Nat.succ_le_succ (Nat.zero_le _)
      · exact Nat.succ_le_succ (ih input)

/-- Only at the end there is nothing to read. -/
theorem piece_eq_nil_iff (hroom : 0 < room) : (piece room input).1 = [] ↔ input = [] := by
  obtain ⟨room, rfl⟩ := Nat.exists_eq_succ_of_ne_zero (Nat.ne_of_gt hroom)
  cases input with
  | nil => exact iff_of_true rfl rfl
  | cons c input =>
    refine iff_of_false ?_ (List.cons_ne_nil _ _)
    rw [piece]
    split
    · exact List.cons_ne_nil _ _
    · exact List.cons_ne_nil _ _

theorem length_piece_lt (hroom : 0 < room) (hne : input ≠ []) : (piece room input).2.length < input.length := by
  have hlen := congrArg List.length (piece_append room input)
  have hpos := List.length_pos_iff.2 (mt (piece_eq_nil_iff hroom).1 hne)
  rw [List.length_append] at hlen
  omega

/-- A newline is the last byte of its piece. -/
theorem newline_notMem_dropLast (room : Nat) (input : List UInt8) : newline ∉ (piece room input).1.dropLast := by
  induction room generalizing input with
  | zero => exact List.not_mem_nil
  | succ room ih =>
    cases input with
    | nil => exact List.not_mem_nil
    | cons c input =>
      rw [piece]
      split
      · exact List.not_mem_nil
      · next hc =>
        have hrest := ih input
        dsimp only
        cases hp : (piece room input).1 with
        | nil => exact List.not_mem_nil
        | cons d u =>
          rw [hp] at hrest
          rw [List.dropLast_cons_cons, List.mem_cons, not_or]
          exact ⟨Ne.symm hc, hrest⟩

/-- A piece is a line, or it is cut, or it is what is left. -/
theorem piece_cases (room : Nat) (input : List UInt8) :
    (∃ w, newline ∉ w ∧ (piece room input).1 = w ++ [newline]) ∨
      newline ∉ (piece room input).1 ∧ ((piece room input).1.length = room ∨ (piece room input).2 = []) := by
  induction room generalizing input with
  | zero => exact .inr ⟨List.not_mem_nil, .inl rfl⟩
  | succ room ih =>
    cases input with
    | nil => exact .inr ⟨List.not_mem_nil, .inr rfl⟩
    | cons c input =>
      rw [piece]
      split
      · next hc => exact .inl ⟨[], List.not_mem_nil, congrArg (fun c => [c]) hc⟩
      · next hc =>
        rcases ih input with ⟨w, hw, heq⟩ | ⟨hnl, hend⟩
        · exact .inl ⟨c :: w, List.not_mem_cons_of_ne_of_not_mem (Ne.symm hc) hw, congrArg (c :: ·) heq⟩
        · exact .inr ⟨List.not_mem_cons_of_ne_of_not_mem (Ne.symm hc) hnl, hend.imp_left (congrArg (· + 1))⟩

/-! ## Lines -/

theorem piece_line (hw : newline ∉ w) (hlen : w.length < room) (input : List UInt8) :
    piece room (w ++ newline :: input) = (w ++ [newline], input) := by
  induction w generalizing room with
  | nil =>
    obtain ⟨room, rfl⟩ := Nat.exists_eq_succ_of_ne_zero (Nat.ne_of_gt hlen)
    exact if_pos rfl
  | cons c w ih =>
    rw [List.mem_cons, not_or] at hw
    obtain ⟨room, rfl⟩ := Nat.exists_eq_succ_of_ne_zero (Nat.ne_of_gt (Nat.zero_lt_of_lt hlen))
    rw [List.cons_append, piece, if_neg (Ne.symm hw.1), ih hw.2 (Nat.lt_of_succ_lt_succ hlen)]
    rfl

/-- A line that is cut. -/
theorem piece_cut (hw : newline ∉ w) (input : List UInt8) : piece w.length (w ++ input) = (w, input) := by
  induction w with
  | nil => rfl
  | cons c w ih =>
    rw [List.mem_cons, not_or] at hw
    rw [List.length_cons, List.cons_append, piece, if_neg (Ne.symm hw.1), ih hw.2]

theorem piece_open (hw : newline ∉ w) (hlen : w.length ≤ room) : piece room w = (w, []) := by
  induction w generalizing room with
  | nil =>
    cases room with
    | zero => rfl
    | succ room => rfl
  | cons c w ih =>
    rw [List.mem_cons, not_or] at hw
    obtain ⟨room, rfl⟩ := Nat.exists_eq_succ_of_ne_zero (Nat.ne_of_gt (Nat.zero_lt_of_lt hlen))
    rw [piece, if_neg (Ne.symm hw.1), ih hw.2 (Nat.le_of_succ_le_succ hlen)]

end

/-! ## Up to an empty line -/

/-- What is left behind the first piece that is empty or a newline alone. -/
def afterBlank (room : Nat) (input : List UInt8) : List UInt8 :=
  if _h : 0 < room ∧ input ≠ [] then
    if (piece room input).1 = [newline] then (piece room input).2 else afterBlank room (piece room input).2
  else input
termination_by input.length
decreasing_by exact length_piece_lt _h.1 _h.2

section

variable {room : Nat} {w input : List UInt8}

theorem afterBlank_nil : afterBlank room [] = [] := by
  rw [afterBlank, dif_neg fun h => h.2 rfl]

theorem afterBlank_blank (hroom : 0 < room) : afterBlank room (newline :: input) = input := by
  have hpiece := @piece_line room [] List.not_mem_nil hroom input
  rw [List.nil_append, List.nil_append] at hpiece
  rw [afterBlank, dif_pos ⟨hroom, List.cons_ne_nil _ _⟩, hpiece, if_pos rfl]

theorem afterBlank_of_ne (hroom : 0 < room) (hne : (piece room input).1 ≠ [newline]) :
    afterBlank room input = afterBlank room (piece room input).2 := by
  by_cases h : input = []
  · subst h
    have hnil := (piece_append room []).symm
    rw [(List.append_eq_nil_iff.1 hnil.symm).2]
  · rw [afterBlank, dif_pos ⟨hroom, h⟩, if_neg hne]

/-- A piece without a newline is skipped. -/
theorem afterBlank_cut (hw : newline ∉ w) (hlen : w.length = room) (hroom : 0 < room) (input : List UInt8) :
    afterBlank room (w ++ input) = afterBlank room input := by
  have hpiece := piece_cut hw input
  rw [hlen] at hpiece
  rw [afterBlank_of_ne hroom, hpiece]
  rw [hpiece]
  rintro rfl
  exact hw List.mem_cons_self

/-- A line that is not empty is skipped, unless its newline is a piece of its own. -/
theorem afterBlank_line (hroom : 0 < room) (hw : newline ∉ w) (hne : w ≠ []) (input : List UInt8) :
    afterBlank room (w ++ newline :: input) = if room ∣ w.length then input else afterBlank room input := by
  induction hlen : w.length using Nat.strongRecOn generalizing w with
  | _ k ih =>
    subst hlen
    have hpos := List.length_pos_iff.2 hne
    by_cases hlt : w.length < room
    · have hpiece := piece_line hw hlt input
      rw [if_neg (Nat.not_dvd_of_pos_of_lt hpos hlt), afterBlank_of_ne hroom, hpiece]
      rw [hpiece]
      intro h
      have := congrArg List.length h
      rw [List.length_append, List.length_singleton] at this
      omega
    · have htake : (w.take room).length = room := List.length_take_of_le (Nat.le_of_not_lt hlt)
      have hdrop : (w.drop room).length = w.length - room := List.length_drop
      have hdvd : room ∣ w.length ↔ room ∣ (w.drop room).length := by
        rw [show w.length = (w.drop room).length + room by omega]
        exact Nat.dvd_add_left (Nat.dvd_refl room)
      have hcut := afterBlank_cut (fun h => hw (List.mem_of_mem_take h)) htake hroom
        (w.drop room ++ newline :: input)
      rw [← List.append_assoc, List.take_append_drop] at hcut
      rw [hcut, if_congr hdvd rfl rfl]
      by_cases hnil : w.drop room = []
      · rw [hnil, List.nil_append, afterBlank_blank hroom, List.length_nil, if_pos (Nat.dvd_zero room)]
      · exact ih _ (by omega) (fun h => hw (List.mem_of_mem_drop h)) hnil rfl

end

/-- Lines, each with its newline. -/
def block (ws : List (List UInt8)) : List UInt8 := ws.flatMap (· ++ [newline])

theorem block_cons (w : List UInt8) (ws : List (List UInt8)) (input : List UInt8) :
    block (w :: ws) ++ input = w ++ newline :: (block ws ++ input) := by
  rw [block, List.flatMap_cons, List.append_assoc, List.append_assoc]
  rfl

/-- **The first empty line.**  It is found unless the length of a line before it is a multiple of
`room`. -/
theorem afterBlank_block_iff {room : Nat} (hroom : 0 < room) {ws : List (List UInt8)}
    (hws : ∀ w ∈ ws, w ≠ [] ∧ newline ∉ w) (input : List UInt8) :
    afterBlank room (block ws ++ newline :: input) = input ↔ ∀ w ∈ ws, ¬room ∣ w.length := by
  induction ws with
  | nil => exact iff_of_true (afterBlank_blank hroom) (List.forall_mem_nil _)
  | cons w ws ih =>
    obtain ⟨⟨hne, hw⟩, hws⟩ := List.forall_mem_cons.1 hws
    rw [block_cons, afterBlank_line hroom hw hne, List.forall_mem_cons]
    split
    · next hdvd =>
      refine iff_of_false ?_ fun h => h.1 hdvd
      intro h
      have := congrArg List.length h
      rw [List.length_append, List.length_cons] at this
      omega
    · next hdvd => rw [ih hws, and_iff_right hdvd]

end Pieces
