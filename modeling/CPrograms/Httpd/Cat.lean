import CPrograms.Httpd.Headers

/-!
# `cat` of `file_io/httpd.c`

`cat` asks `feof` before it sends what `fgets` gave, and `fgets` meets the end of the file with the
last bytes of it if they are not a line.  So these are not sent, unless they fill the buffer; and of
each piece only the string is sent, up to a NUL (`cat_whole_iff`).
-/

namespace CPrograms.Httpd

open Buffers Lines Pieces

/-- A stream at what is left of its file. -/
structure File where
  left : List UInt8
  eof : Bool

/-- `fgets` leaves the array alone where there is nothing to read.  It is at the end of the file if it
wanted more. -/
def fgets {m : Nat} (buf : Buffer m) (n : Nat) (resource : File) : Buffer m × File :=
  let (u, left) := piece (n - 1) resource.left
  (if u = [] then buf else buf.overwrite (u ++ [0]),
    ⟨left, resource.eof || decide (u.length < n - 1 ∧ u.getLast? ≠ some newline)⟩)

/-- The loop; what is sent. -/
def catLoop : Nat → Buffer 1024 → File → Option (List UInt8)
  | 0, _, _ => none
  | fuel + 1, buf, resource =>
    if resource.eof then some []
    else buf.cString.bind fun s =>
      (catLoop fuel (fgets buf 1024 resource).1 (fgets buf 1024 resource).2).map (s ++ ·)

def cat (fuel : Nat) (buf : Buffer 1024) (content : List UInt8) : Option (List UInt8) :=
  catLoop fuel (fgets buf 1024 ⟨content, false⟩).1 (fgets buf 1024 ⟨content, false⟩).2

section

variable {content u left : List UInt8}

/-- A piece that the loop sends. -/
theorem catLoop_sent {fuel : Nat} {buf : Buffer 1024} (hu : u.length < 1024) :
    catLoop (fuel + 1) (buf.overwrite (u ++ [0])) ⟨left, false⟩ =
      (cat fuel (buf.overwrite (u ++ [0])) left).map (string u ++ ·) := by
  rw [catLoop, if_neg Bool.false_ne_true, cString_piece hu, Option.bind_some]
  rfl

/-- The last bytes, if they are no line and do not fill the buffer. -/
theorem cat_open (fuel : Nat) (buf : Buffer 1024) (hw : newline ∉ content) (hlen : content.length < 1023) :
    cat (fuel + 1) buf content = some [] := by
  have hlast : content.getLast? ≠ some newline := fun h => hw (List.mem_of_getLast? h)
  have heof : (fgets buf 1024 ⟨content, false⟩).2.eof = true := by
    unfold fgets
    dsimp only
    rw [piece_open hw (Nat.le_of_lt hlen), Bool.false_or]
    exact decide_eq_true ⟨hlen, hlast⟩
  unfold cat
  rw [catLoop, if_pos heof]

/-- A piece that is a line, or fills the buffer. -/
theorem cat_piece (fuel : Nat) (buf : Buffer 1024) (hpiece : piece 1023 content = (u, left)) (hne : u ≠ [])
    (hfull : u.length < 1023 → u.getLast? = some newline) : ∃ buf',
      cat (fuel + 1) buf content = (cat fuel buf' left).map (string u ++ ·) := by
  have hu := length_piece_le 1023 content
  rw [hpiece] at hu
  have hget : fgets buf 1024 ⟨content, false⟩ = (buf.overwrite (u ++ [0]), ⟨left, false⟩) := by
    unfold fgets
    dsimp only
    rw [hpiece]
    dsimp only
    rw [if_neg hne, Bool.false_or, decide_eq_false fun h => h.2 (hfull h.1)]
  refine ⟨buf.overwrite (u ++ [0]), ?_⟩
  unfold cat
  rw [hget]
  exact catLoop_sent (Nat.lt_succ_of_le hu)

theorem string_eq_iff {s : List UInt8} : string s = s ↔ 0 ∉ s := by
  constructor
  · intro h
    rw [← h]
    exact zero_notMem_string s
  · intro h
    refine List.takeWhile_eq_self_iff.2 fun c hc => ?_
    exact decide_eq_true (ne_of_mem_of_not_mem hc h)

/-- What is sent of two parts is all of them if it is all of each. -/
theorem append_eq_append_iff_of_length_le {a a' b b' : List UInt8} (ha : a.length ≤ a'.length)
    (hb : b.length ≤ b'.length) : a ++ b = a' ++ b' ↔ a = a' ∧ b = b' := by
  constructor
  · intro h
    have hlen := congrArg List.length h
    rw [List.length_append, List.length_append] at hlen
    exact List.append_inj h (by omega)
  · rintro ⟨rfl, rfl⟩
    rfl

/-- The bytes behind the last newline, without a piece that is no line but fills the buffer. -/
theorem dvd_length_tail {n : Nat} (hu : newline ∉ u) (hlen : u.length = n) (left : List UInt8) :
    n ∣ (tail (u ++ left)).length ↔ n ∣ (tail left).length := by
  rw [tail_append hu]
  split
  · exact Iff.rfl
  · next h => rw [List.length_append, hlen, tail_open h, Nat.dvd_add_right (Nat.dvd_refl n)]

end

/-- **A file.**  All of it is sent if it has no NUL, and behind its last newline as many bytes as fill
buffers. -/
theorem cat_whole_iff (content : List UInt8) : ∀ (fuel : Nat) (buf : Buffer 1024), content.length < fuel →
    ∃ sent, cat fuel buf content = some sent ∧ sent.length ≤ content.length ∧
      (sent = content ↔ 0 ∉ content ∧ 1023 ∣ (tail content).length) := by
  induction hlen : content.length using Nat.strongRecOn generalizing content with
  | _ k ih =>
    subst hlen
    intro fuel buf hfuel
    obtain ⟨fuel, rfl⟩ := Nat.exists_eq_succ_of_ne_zero (Nat.ne_of_gt (Nat.zero_lt_of_lt hfuel))
    by_cases hnil : content = []
    · subst hnil
      refine ⟨[], cat_open fuel buf List.not_mem_nil (by decide), Nat.le_refl 0, iff_of_true rfl ?_⟩
      exact ⟨List.not_mem_nil, Nat.dvd_zero 1023⟩
    · have hlt := @length_piece_lt 1023 content (by decide) hnil
      have hne := mt (@piece_eq_nil_iff 1023 content (by decide)).1 hnil
      have hwhole := piece_append 1023 content
      have hcases := piece_cases 1023 content
      cases hpiece : piece 1023 content with
      | mk u left =>
        rw [hpiece] at hlt hne hwhole hcases
        dsimp only at hlt hne hwhole hcases
        -- the piece is sent, and what is left is as the induction says
        have hsent (hfull : u.length < 1023 → u.getLast? = some newline)
            (htail : 1023 ∣ (tail content).length ↔ 1023 ∣ (tail left).length) :
            ∃ sent, cat (fuel + 1) buf content = some sent ∧ sent.length ≤ content.length ∧
              (sent = content ↔ 0 ∉ content ∧ 1023 ∣ (tail content).length) := by
          obtain ⟨buf', hcat⟩ := cat_piece fuel buf hpiece hne hfull
          obtain ⟨sent, h1, h2, h3⟩ := ih left.length hlt left rfl fuel buf' (by omega)
          have hstring := length_string_le u
          refine ⟨string u ++ sent, by rw [hcat, h1, Option.map_some], ?_, ?_⟩
          · rw [← hwhole, List.length_append, List.length_append]
            omega
          · rw [htail, ← hwhole, append_eq_append_iff_of_length_le hstring h2, string_eq_iff, h3, List.mem_append,
              not_or, and_assoc]
        rcases hcases with ⟨w, hw, rfl⟩ | ⟨hu, hfull | hleft⟩
        · refine hsent (fun _ => List.getLast?_concat) ?_
          rw [← hwhole, List.append_assoc, List.singleton_append, tail_line hw]
        · refine hsent (fun h => absurd hfull (Nat.ne_of_lt h)) ?_
          rw [← hwhole]
          exact dvd_length_tail hu hfull left
        · -- the last bytes, without a newline
          rw [hleft, List.append_nil] at hwhole
          subst hwhole
          by_cases hshort : u.length < 1023
          · refine ⟨[], cat_open fuel buf hu hshort, Nat.zero_le _, iff_of_false (Ne.symm hnil) ?_⟩
            rw [tail_open hu]
            exact fun h => Nat.not_dvd_of_pos_of_lt (List.length_pos_iff.2 hnil) hshort h.2
          · have hbound := length_piece_le 1023 u
            rw [hpiece] at hbound
            have hbound : u.length ≤ 1023 := hbound
            refine hsent (fun h => absurd h hshort) ?_
            rw [tail_open hu, hleft, show u.length = 1023 by omega]
            exact iff_of_true (Nat.dvd_refl 1023) (Nat.dvd_zero 1023)

/-- The letters `ab` without a newline. -/
theorem cat_whole_iff_letters : ∃ sent, cat 3 zeros [97, 98] = some sent ∧ sent ≠ [97, 98] := by
  obtain ⟨sent, h1, -, h2⟩ := cat_whole_iff [97, 98] 3 zeros (by decide)
  refine ⟨sent, h1, fun h => ?_⟩
  have hdvd := (h2.1 h).2
  revert hdvd
  decide

end CPrograms.Httpd
