import CPrograms.Basic.GetLine
import Mathlib.Data.List.Induction

/-!
# `basic/07_z_1-19.c`

`get_line` stores what there is room for and counts all of a line, in an `int`.  So each line is
printed with what was stored of it reversed, as long as no line, with its newline, has more than
`2 ^ 31 - 1` characters.
-/

namespace CPrograms.Basic.ReverseLines

open Buffers Lines

def maxLine : Nat := 1000

/-! ## The program -/

/-- The loop of `get_line`, by the characters that `getchar` gives. -/
def readLine {n : Nat} (lim : Int) :
    List UInt8 → Buffer n → Int → Int → Option (Buffer n × Int × Int × Int × List UInt8)
  | [], s, i, j => some (s, i, j, eof, [])
  | c :: input, s, i, j =>
    if c = newline then some (s, i, j, newline.toNat, input)
    else
      (if i < lim - 2 then (s.store j c).map fun s => (s, j + 1) else some (s, j)).bind fun (s, j) =>
        (increment i).bind fun i => readLine lim input s i j

/-- `get_line`, up to its first `return`. -/
def getLine {n : Nat} (s : Buffer n) (lim : Int) (input : List UInt8) : Option (Buffer n × Int × List UInt8) :=
  (readLine lim input s 0 0).bind fun (s, i, j, c, input) =>
    if c = newline.toNat then
      (s.store j (toChar c)).bind fun s => (increment i).bind fun i =>
        (s.store (j + 1) 0).map fun s => (s, i, input)
    else (s.store j 0).map fun s => (s, i, input)

/-- The loop of `reverse` that measures the length. -/
def measure {n : Nat} (s : Buffer n) (i : Nat) : Option Int :=
  match _h : s.load i with
  | none => none
  | some c => if c = 0 then some i else measure s (i + 1)
termination_by n - i
decreasing_by
  have := load_lt _h
  omega

def swapLoop {n : Nat} (s : Buffer n) (j i : Int) : Option (Buffer n) :=
  if j < i then
    (s.load j).bind fun temp => (s.load i).bind fun c => (s.store j c).bind fun s =>
      (s.store i temp).bind fun s => swapLoop s (j + 1) (i - 1)
  else some s
termination_by (i - j).toNat

def reverse {n : Nat} (s : Buffer n) : Option (Buffer n) :=
  (measure s 0).bind fun i => (s.load (i - 1)).bind fun c =>
    -- without the newline
    swapLoop s 0 (if c = newline then i - 1 - 1 else i - 1)

/-- What is read is gone. -/
theorem length_readLine {n : Nat} {lim i' j' c' : Int} {s' : Buffer n} {input' : List UInt8} (input : List UInt8) :
    ∀ (s : Buffer n) (i j : Int), readLine lim input s i j = some (s', i', j', c', input') →
      input'.length + i' + (if c' = newline.toNat then 1 else 0) ≤ input.length + i := by
  induction input with
  | nil =>
    intro s i j h
    obtain ⟨rfl, rfl, rfl, rfl, rfl⟩ := Option.some.inj h
    rw [if_neg (by decide)]
    omega
  | cons c input ih =>
    intro s i j h
    rw [readLine] at h
    rw [List.length_cons]
    by_cases hc : c = newline
    · rw [if_pos hc] at h
      obtain ⟨rfl, rfl, rfl, rfl, rfl⟩ := Option.some.inj h
      rw [if_pos rfl]
      omega
    · rw [if_neg hc] at h
      obtain ⟨⟨s₁, j₁⟩, -, h⟩ := Option.bind_eq_some_iff.1 h
      obtain ⟨i₁, hi, h⟩ := Option.bind_eq_some_iff.1 h
      obtain ⟨-, hi⟩ := Option.ite_none_right_eq_some.1 hi
      have hrest := ih s₁ i₁ j₁ h
      rw [← Option.some.inj hi] at hrest
      omega

theorem length_getLine {n : Nat} {lim len : Int} {s s' : Buffer n} {input input' : List UInt8}
    (h : getLine s lim input = some (s', len, input')) : input'.length + len ≤ input.length := by
  obtain ⟨⟨s₁, i, j, c, rest⟩, hread, h⟩ := Option.bind_eq_some_iff.1 h
  have hlen := length_readLine _ _ _ _ hread
  dsimp only at h
  split at h
  · next hc =>
    obtain ⟨s₂, -, h⟩ := Option.bind_eq_some_iff.1 h
    obtain ⟨i₁, hi, h⟩ := Option.bind_eq_some_iff.1 h
    obtain ⟨s₃, -, he⟩ := Option.map_eq_some_iff.1 h
    obtain ⟨-, hi⟩ := Option.ite_none_right_eq_some.1 hi
    obtain ⟨-, rfl, rfl⟩ := he
    rw [if_pos hc] at hlen
    rw [← Option.some.inj hi]
    omega
  · next hc =>
    obtain ⟨s₂, -, he⟩ := Option.map_eq_some_iff.1 h
    obtain ⟨-, rfl, rfl⟩ := he
    rw [if_neg hc] at hlen
    omega

/-- `main`: what it prints, and the input where it stops. -/
def main (line : Buffer maxLine) (input : List UInt8) : Option (List UInt8 × List UInt8) :=
  match _h : getLine line maxLine input with
  | none => none
  | some (line, len, rest) =>
    if _hlen : len > 0 then
      (reverse line).bind fun line => line.cString.bind fun s =>
        (main line rest).map fun (printed, rest) => (s ++ printed, rest)
    else some ([], rest)
termination_by input.length
decreasing_by
  have := length_getLine _h
  omega

/-! ## `get_line` -/

section

variable {w : List UInt8}

theorem take_snoc (w : List UInt8) (c : UInt8) :
    (w ++ [c]).take 998 = if w.length < 998 then w.take 998 ++ [c] else w.take 998 := by
  split
  · next h => rw [List.take_of_length_le (by rw [List.length_append, List.length_singleton]; omega),
      List.take_of_length_le (Nat.le_of_lt h)]
  · next h => rw [List.take_append_of_le_length (Nat.not_lt.1 h)]

/-- A word after `done`, up to what ends the line. -/
theorem readLine_word {rest rest' : List UInt8} {d : Int} (s : Buffer maxLine)
    (hrest : ∀ (s : Buffer maxLine) (i j : Int), readLine maxLine rest s i j = some (s, i, j, d, rest'))
    (w : List UInt8) : ∀ done : List UInt8, newline ∉ w → done.length ≤ intMax →
      readLine maxLine (w ++ rest) (s.overwrite (done.take 998)) done.length (done.take 998).length =
        if (done ++ w).length ≤ intMax then
          some (s.overwrite ((done ++ w).take 998), ((done ++ w).length : Int),
            (((done ++ w).take 998).length : Int),
            d, rest')
        else none := by
  induction w with
  | nil =>
    intro done _ hdone
    rw [List.nil_append, List.append_nil, hrest, if_pos hdone]
  | cons c w ih =>
    intro done hw _
    rw [List.mem_cons, not_or] at hw
    have hassoc : done ++ c :: w = (done ++ [c]) ++ w := by
      rw [List.append_assoc]
      rfl
    have hlen : (done ++ [c]).length = done.length + 1 := List.length_append
    -- the store, if there is room
    have hstore : (if (done.length : Int) < (maxLine : Int) - 2 then
          ((s.overwrite (done.take 998)).store (done.take 998).length c).map
            fun s => (s, ((done.take 998).length : Int) + 1)
        else some (s.overwrite (done.take 998), ((done.take 998).length : Int))) =
        some (s.overwrite ((done ++ [c]).take 998), (((done ++ [c]).take 998).length : Int)) := by
      have hmax : (maxLine : Int) - 2 = 998 := rfl
      have htake : (done.take 998).length < maxLine := by
        rw [List.length_take]
        show min 998 done.length < 1000
        omega
      rw [hmax, take_snoc]
      by_cases hroom : done.length < 998
      · rw [if_pos (by omega), if_pos hroom, store_overwrite rfl htake]
        rw [List.length_append]
        rfl
      · rw [if_neg (by omega), if_neg hroom]
    rw [List.cons_append, readLine, if_neg (Ne.symm hw.1), hstore, Option.bind_some, hassoc]
    dsimp only
    rw [increment_eq]
    by_cases hcount : done.length < intMax
    · rw [if_pos hcount, Option.bind_some, ← hlen]
      exact ih (done ++ [c]) hw.2 (by omega)
    · rw [if_neg hcount, if_neg, Option.bind_none]
      rw [List.length_append]
      omega

theorem length_take_lt (w : List UInt8) : (w.take 998).length + 1 < maxLine := by
  rw [List.length_take]
  show min 998 w.length + 1 < 1000
  omega

theorem getLine_line (s : Buffer maxLine) (hw : newline ∉ w) (input : List UInt8) :
    getLine s maxLine (w ++ newline :: input) =
      if w.length + 1 ≤ intMax then
        some (s.overwrite (w.take 998 ++ [newline] ++ [0]), ((w.length + 1 : Nat) : Int), input)
      else none := by
  have hread := @readLine_word (newline :: input) input newline.toNat s (fun s i j => if_pos rfl) w [] hw
    (Nat.zero_le _)
  have hroom := length_take_lt w
  have hlen : (w.take 998 ++ [newline]).length = (w.take 998).length + 1 := List.length_append
  rw [List.nil_append, List.take_nil, overwrite_nil] at hread
  unfold getLine
  rw [show (0 : Int) = ([] : List UInt8).length from rfl, hread]
  by_cases hcount : w.length ≤ intMax
  · rw [if_pos hcount, Option.bind_some]
    dsimp only
    rw [if_pos rfl, store_overwrite rfl (Nat.lt_of_succ_lt hroom), Option.bind_some, increment_eq, toChar_natCast]
    by_cases hnext : w.length < intMax
    · rw [if_pos hnext, if_pos (show w.length + 1 ≤ intMax from hnext), Option.bind_some,
        store_overwrite (by omega) (by omega)]
      rfl
    · rw [if_neg hnext, if_neg (show ¬ w.length + 1 ≤ intMax from hnext)]
      rfl
  · rw [if_neg hcount, if_neg (by omega)]
    rfl

theorem getLine_open (s : Buffer maxLine) (hw : newline ∉ w) :
    getLine s maxLine w =
      if w.length ≤ intMax then some (s.overwrite (w.take 998 ++ [0]), (w.length : Int), []) else none := by
  have hread := @readLine_word [] [] eof s (fun s i j => rfl) w [] hw (Nat.zero_le _)
  rw [List.nil_append, List.append_nil, List.take_nil, overwrite_nil] at hread
  unfold getLine
  rw [show (0 : Int) = ([] : List UInt8).length from rfl, hread]
  by_cases hcount : w.length ≤ intMax
  · rw [if_pos hcount, if_pos hcount, Option.bind_some]
    dsimp only
    rw [if_neg (by decide), store_overwrite rfl (Nat.lt_of_succ_lt (length_take_lt w))]
    rfl
  · rw [if_neg hcount, if_neg hcount]
    rfl

end

/-! ## `reverse` -/

section

variable {n : Nat} {s : Buffer n}

theorem measure_eq (w : List UInt8) {rest : List UInt8} (hw : 0 ∉ w) : ∀ pre : List UInt8,
    s.bytes = pre ++ w ++ 0 :: rest → measure s pre.length = some ((pre ++ w).length : Int) := by
  induction w with
  | nil =>
    intro pre hbytes
    rw [List.append_nil] at hbytes ⊢
    have hload := load_of_bytes hbytes rfl
    rw [measure]
    split
    · next h => cases hload.symm.trans h
    · next h =>
      obtain rfl := Option.some.inj (hload.symm.trans h)
      exact if_pos rfl
  | cons c w ih =>
    intro pre hbytes
    rw [List.mem_cons, not_or] at hw
    have hassoc : pre ++ c :: w = (pre ++ [c]) ++ w := by
      rw [List.append_assoc]
      rfl
    have hload : s.load pre.length = some c :=
      @load_of_bytes n s pre (w ++ 0 :: rest) c pre.length (by rw [hbytes, List.append_assoc]; rfl) rfl
    have hrest := ih hw.2 (pre ++ [c]) (by rw [hbytes, hassoc])
    rw [List.length_append, List.length_singleton] at hrest
    rw [measure]
    split
    · next h => cases hload.symm.trans h
    · next h =>
      obtain rfl := Option.some.inj (hload.symm.trans h)
      rw [if_neg (Ne.symm hw.1), hrest, hassoc]

/-- What is between `j` and `i`. -/
theorem swapLoop_eq (mid : List UInt8) : ∀ {s : Buffer n} {pre suf : List UInt8} {j i : Int},
    s.bytes = pre ++ mid ++ suf → j = pre.length → i = pre.length + mid.length - 1 →
      ∃ s', swapLoop s j i = some s' ∧ s'.bytes = pre ++ mid.reverse ++ suf := by
  induction mid using List.bidirectionalRec with
  | nil =>
    intro s pre suf j i hbytes hj hi
    rw [List.length_nil] at hi
    rw [swapLoop, if_neg (by omega)]
    exact ⟨s, rfl, hbytes⟩
  | singleton c =>
    intro s pre suf j i hbytes hj hi
    rw [List.length_singleton] at hi
    rw [swapLoop, if_neg (by omega)]
    exact ⟨s, rfl, hbytes⟩
  | cons_append c mid d ih =>
    intro s pre suf j i hbytes hj hi
    rw [List.length_cons, List.length_append, List.length_singleton] at hi
    have hfront : s.bytes = pre ++ c :: (mid ++ d :: suf) := by
      rw [hbytes]
      simp only [List.append_assoc, List.cons_append, List.nil_append]
    have hback : s.bytes = (pre ++ c :: mid) ++ d :: suf := by
      rw [hfront, List.append_assoc]
      rfl
    have hlast : i = (pre ++ c :: mid).length := by
      rw [List.length_append, List.length_cons]
      omega
    obtain ⟨s₁, hs₁, hbytes₁⟩ := store_of_bytes (d := d) hfront hj
    have hback₁ : s₁.bytes = (pre ++ d :: mid) ++ d :: suf := by
      rw [hbytes₁, List.append_assoc]
      rfl
    obtain ⟨s₂, hs₂, hbytes₂⟩ := store_of_bytes (d := c) hback₁
      (show i = (pre ++ d :: mid).length by rw [List.length_append, List.length_cons]; omega)
    obtain ⟨s', hs', hbytes'⟩ := @ih s₂ (pre ++ [d]) (c :: suf) (j + 1) (i - 1)
      (by rw [hbytes₂]; simp only [List.append_assoc, List.cons_append, List.nil_append])
      (by rw [List.length_append, List.length_singleton]; omega)
      (by rw [List.length_append, List.length_singleton]; omega)
    refine ⟨s', ?_, ?_⟩
    · rw [swapLoop, if_pos (by omega), load_of_bytes hfront hj, Option.bind_some, load_of_bytes hback hlast,
        Option.bind_some, hs₁, Option.bind_some, hs₂, Option.bind_some, hs']
    · rw [hbytes', List.reverse_cons, List.reverse_append]
      simp only [List.reverse_singleton, List.append_assoc, List.cons_append, List.nil_append]

/-- All but what comes after `v`. -/
theorem swapLoop_overwrite {v ends : List UInt8} (hn : (v ++ ends).length ≤ n) :
    swapLoop (s.overwrite (v ++ ends)) 0 (v.length - 1) = some (s.overwrite (v.reverse ++ ends)) := by
  have hlen : (v.reverse ++ ends).length = (v ++ ends).length := by
    rw [List.length_append, List.length_append, List.length_reverse]
  obtain ⟨s', hswap, hbytes⟩ := @swapLoop_eq n v (s.overwrite (v ++ ends)) []
    (ends ++ s.bytes.drop (v ++ ends).length) 0 (v.length - 1)
    (by rw [bytes_overwrite hn, List.append_assoc]; rfl) rfl (by rw [List.length_nil]; omega)
  rw [hswap]
  refine congrArg some (Buffer.ext ?_)
  rw [hbytes, bytes_overwrite (hlen ▸ hn), hlen, List.nil_append, List.append_assoc]

/-- A string that ends in `c`, with what is to be left in its place. -/
theorem reverse_of_last {v ends pre : List UInt8} {c : UInt8} (hnul : 0 ∉ v ++ ends) (hn : (v ++ ends).length < n)
    (hpre : v ++ ends = pre ++ [c])
    (hlast : (if c = newline then ((v ++ ends).length : Int) - 1 - 1 else (v ++ ends).length - 1) = v.length - 1) :
    reverse (s.overwrite (v ++ ends ++ [0])) = some (s.overwrite (v.reverse ++ ends ++ [0])) := by
  have hlen : (v ++ ends ++ [0]).length = (v ++ ends).length + 1 := List.length_append
  have hbytes := @bytes_overwrite_string n s (v ++ ends) hn
  have hmeasure := @measure_eq n (s.overwrite (v ++ ends ++ [0])) (v ++ ends)
    (s.bytes.drop (v ++ ends ++ [0]).length) hnul [] hbytes
  have hload : (s.overwrite (v ++ ends ++ [0])).load ((v ++ ends).length - 1) = some c := by
    refine @load_of_bytes n _ pre (0 :: s.bytes.drop (v ++ ends ++ [0]).length) c _ ?_ ?_
    · rw [hbytes, hpre]
      simp only [List.append_assoc, List.cons_append, List.nil_append]
    · rw [hpre, List.length_append, List.length_singleton]
      omega
  have hswap := @swapLoop_overwrite n s v (ends ++ [0]) (by rw [← List.append_assoc]; omega)
  rw [← List.append_assoc, ← List.append_assoc] at hswap
  unfold reverse
  rw [show (0 : Nat) = ([] : List UInt8).length from rfl, hmeasure, Option.bind_some, List.nil_append, hload,
    Option.bind_some, hlast, hswap]

theorem reverse_line {v : List UInt8} (hnul : 0 ∉ v) (hn : v.length + 1 < n) :
    reverse (s.overwrite (v ++ [newline] ++ [0])) = some (s.overwrite (v.reverse ++ [newline] ++ [0])) := by
  have hlen : (v ++ [newline]).length = v.length + 1 := List.length_append
  refine reverse_of_last ?_ (by omega) rfl ?_
  · rw [List.mem_append, not_or]
    exact ⟨hnul, by decide⟩
  · rw [if_pos rfl, hlen]
    omega

theorem reverse_open {v : List UInt8} (hne : v ≠ []) (hw : newline ∉ v) (hnul : 0 ∉ v) (hn : v.length < n) :
    reverse (s.overwrite (v ++ [0])) = some (s.overwrite (v.reverse ++ [0])) := by
  obtain ⟨pre, c, rfl⟩ := List.eq_nil_or_concat v |>.resolve_left hne
  have hc : c ≠ newline := by
    rintro rfl
    exact hw (List.concat_eq_append ▸ List.mem_append_right _ List.mem_cons_self)
  have h := @reverse_of_last n s (pre.concat c) [] pre c (by rwa [List.append_nil]) (by rwa [List.append_nil])
    (by rw [List.append_nil, List.concat_eq_append]) (by rw [if_neg hc, List.append_nil])
  rwa [List.append_nil, List.append_nil] at h

end

/-! ## `main` -/

theorem main_eq {line line' : Buffer maxLine} {len : Int} {input rest : List UInt8}
    (h : getLine line maxLine input = some (line', len, rest)) :
    main line input =
      if len > 0 then
        (reverse line').bind fun line => line.cString.bind fun s =>
          (main line rest).map fun r => (s ++ r.1, r.2)
      else some ([], rest) := by
  rw [main]
  split
  · next h' => cases h.symm.trans h'
  · next h' =>
    obtain ⟨rfl, rfl, rfl⟩ := Option.some.inj (h.symm.trans h')
    rfl

theorem main_none {line : Buffer maxLine} {input : List UInt8} (h : getLine line maxLine input = none) :
    main line input = none := by
  rw [main]
  split
  · rfl
  · next h' => cases h.symm.trans h'

/-- What is to be printed of a line. -/
def reversed (w : List UInt8) : List UInt8 := (w.take (maxLine - 2)).reverse

def expected (input : List UInt8) : List UInt8 :=
  ((bodies input).map fun w => reversed w ++ [newline]).flatten ++ reversed (tail input)

/-- All of the input is read, and its lines are printed. -/
def Reverses (line : Buffer maxLine) (input : List UInt8) : Prop :=
  main line input = some (expected input, [])

/-- No line is too long to be counted, with its newline. -/
def Counted (input : List UInt8) : Prop :=
  (∀ w ∈ bodies input, w.length + 1 ≤ intMax) ∧ (tail input).length ≤ intMax

section

variable {line : Buffer maxLine} {w : List UInt8}

theorem zero_not_mem_reversed (hnul : 0 ∉ w) : 0 ∉ reversed w := by
  unfold reversed
  rw [List.mem_reverse]
  exact fun h => hnul (List.mem_of_mem_take h)

theorem length_reversed_lt (w : List UInt8) : (reversed w).length + 1 < maxLine := by
  unfold reversed
  rw [List.length_reverse]
  exact length_take_lt w

/-- A line with its newline is printed, if it is counted. -/
theorem main_line (hw : newline ∉ w) (hnul : 0 ∉ w) (input : List UInt8) :
    (w.length + 1 ≤ intMax → ∃ line', main line (w ++ newline :: input) =
      (main line' input).map fun r => (reversed w ++ [newline] ++ r.1, r.2)) ∧
    (intMax < w.length + 1 → main line (w ++ newline :: input) = none) := by
  have hread := getLine_line line hw input
  constructor
  · intro hcount
    rw [if_pos hcount] at hread
    have hrev := @reverse_line maxLine line (w.take 998) (fun h => hnul (List.mem_of_mem_take h))
      (length_take_lt w)
    have hstring : (line.overwrite (reversed w ++ [newline] ++ [0])).cString = some (reversed w ++ [newline]) := by
      refine cString_overwrite ?_ (by rw [List.length_append]; exact length_reversed_lt w)
      rw [List.mem_append, not_or]
      exact ⟨zero_not_mem_reversed hnul, by decide⟩
    refine ⟨line.overwrite (reversed w ++ [newline] ++ [0]), ?_⟩
    rw [main_eq hread, if_pos (by omega), hrev, Option.bind_some]
    show (line.overwrite (reversed w ++ [newline] ++ [0])).cString.bind _ = _
    rw [hstring, Option.bind_some]
    rfl
  · intro hlong
    rw [if_neg (Nat.not_le.2 hlong)] at hread
    exact main_none hread

/-- The last line has no newline to be counted. -/
theorem main_open (hw : newline ∉ w) (hnul : 0 ∉ w) :
    main line w = if w.length ≤ intMax then some (reversed w, []) else none := by
  have hread := getLine_open line hw
  split
  · next hcount =>
    rw [if_pos hcount] at hread
    rw [main_eq hread]
    by_cases hne : w = []
    · rw [hne]
      exact if_neg (by decide)
    · have hpos := List.length_pos_iff.2 hne
      have hrev := @reverse_open maxLine line (w.take 998)
        (fun h => hne ((List.take_eq_nil_iff.1 h).resolve_left (by decide)))
        (fun h => hw (List.mem_of_mem_take h)) (fun h => hnul (List.mem_of_mem_take h))
        (Nat.lt_of_succ_lt (length_take_lt w))
      have hstring : (line.overwrite (reversed w ++ [0])).cString = some (reversed w) :=
        cString_overwrite (zero_not_mem_reversed hnul) (Nat.lt_of_succ_lt (length_reversed_lt w))
      -- the next call is at the end of the input
      have hend (line : Buffer maxLine) : main line [] = some ([], []) := by
        rw [main_eq (getLine_open line List.not_mem_nil)]
        exact if_neg (by decide)
      rw [if_pos (by omega), hrev, Option.bind_some]
      show (line.overwrite (reversed w ++ [0])).cString.bind _ = _
      rw [hstring, Option.bind_some, hend]
      exact congrArg (fun s => some (s, [])) (List.append_nil _)
  · next hcount =>
    rw [if_neg hcount] at hread
    exact main_none hread

end

theorem expected_line {w : List UInt8} (hw : newline ∉ w) (input : List UInt8) :
    expected (w ++ newline :: input) = reversed w ++ [newline] ++ expected input := by
  unfold expected
  rw [bodies_line hw, tail_line hw, List.map_cons, List.flatten_cons, List.append_assoc (reversed w ++ [newline])]

theorem expected_open {w : List UInt8} (hw : newline ∉ w) : expected w = reversed w := by
  unfold expected
  rw [bodies_open hw, tail_open hw]
  rfl

theorem counted_line {w : List UInt8} (hw : newline ∉ w) (input : List UInt8) :
    Counted (w ++ newline :: input) ↔ w.length + 1 ≤ intMax ∧ Counted input := by
  unfold Counted
  rw [bodies_line hw, tail_line hw, List.forall_mem_cons, and_assoc]

/-- **Line by line.**  When each line is reversed, and all of them are. -/
theorem reverses_iff (line : Buffer maxLine) {input : List UInt8} (hnul : 0 ∉ input) :
    Reverses line input ↔ Counted input := by
  induction input using lines_induction generalizing line with
  | last w hw =>
    have hcounted : Counted w ↔ w.length ≤ intMax := by
      unfold Counted
      rw [bodies_open hw, tail_open hw, and_iff_right (List.forall_mem_nil _)]
    unfold Reverses
    rw [hcounted, main_open hw hnul, expected_open hw, Option.ite_none_right_eq_some, and_iff_left rfl]
  | line w input hw ih =>
    rw [List.mem_append, not_or, List.mem_cons, not_or] at hnul
    obtain ⟨hprint, hnone⟩ := @main_line line w hw hnul.1 input
    rw [counted_line hw]
    by_cases hcount : w.length + 1 ≤ intMax
    · obtain ⟨line', hline'⟩ := hprint hcount
      rw [and_iff_right hcount, ← ih line' hnul.2.2]
      unfold Reverses
      rw [hline', expected_line hw, Option.map_eq_some_iff]
      constructor
      · rintro ⟨⟨printed, rest⟩, hmain, he⟩
        obtain ⟨hprinted, rfl⟩ := Prod.mk.inj he
        rw [hmain, ← List.append_cancel_left hprinted]
      · exact fun hmain => ⟨_, hmain, rfl⟩
    · refine iff_of_false ?_ (fun h => hcount h.1)
      unfold Reverses
      rw [hnone (Nat.not_le.1 hcount)]
      exact fun h => nomatch h

/-- `ab`, its newline, and `c` without one. -/
theorem reverses_iff_two : Reverses zeros [97, 98, 10, 99] :=
  (reverses_iff zeros (by decide)).2 (by unfold Counted; decide)

/-- `2 ^ 31` times `a`. -/
theorem long_not_reversed : ¬ Reverses zeros (List.replicate 2147483648 97) := by
  have hchar : ∀ c : UInt8, c ≠ 97 → c ∉ List.replicate 2147483648 97 := fun c hc h =>
    hc (List.eq_of_mem_replicate h)
  unfold Reverses
  rw [main_open (hchar newline (by decide)) (hchar 0 (by decide)), List.length_replicate, if_neg (by decide)]
  exact fun h => nomatch h

end CPrograms.Basic.ReverseLines
