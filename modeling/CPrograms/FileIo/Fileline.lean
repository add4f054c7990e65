import CPrograms.Lib.Buffers
import CPrograms.Lib.Lines

/-!
# `file_io/02_filelineIO.c`

`my_fgets` keeps the `int` that `getc` gives apart from the `char` that it stores, so that a byte
255 is not taken for the end.  Called again and again it cuts a stream into strings, and
`my_fputs` puts them together again.
-/

namespace CPrograms.FileIo

open Buffers Lines

/-! ## The functions -/

/-- The loop of `my_fgets`, `room` more times at most; `c` is the last character. -/
def fgetsLoop {m : Nat} : Nat → Buffer m → Int → Int → List UInt8 → Option (Buffer m × Int × Int × List UInt8)
  | 0, s, cs, c, iop => some (s, cs, c, iop)
  | room + 1, s, cs, _, iop =>
    let (c, iop) := getchar iop
    if c = eof then some (s, cs, c, iop)
    else (s.store cs (toChar c)).bind fun s =>
      if fromChar (toChar c) = newline.toNat then some (s, cs + 1, c, iop)
      else fgetsLoop room s (cs + 1) c iop

/-- `my_fgets`: what is in `s`, if it is `s` that is given and not NULL, and the rest of the
stream.  As `n` is more than 1, `c` is set. -/
def myFgets {m : Nat} (s : Buffer m) (n : Nat) (iop : List UInt8) : Option (Buffer m × Bool × List UInt8) :=
  (fgetsLoop (n - 1) s 0 0 iop).bind fun (s, cs, c, iop) =>
    (s.store cs 0).map fun s => (s, !decide (c = eof ∧ cs = 0), iop)

/-- A stream that takes what is put. -/
structure Stream where
  written : List UInt8
  error : Bool

def putc (c : Int) (iop : Stream) : Stream := { iop with written := iop.written ++ [toChar c] }

/-- The loop of `my_fputs` from `s[i]` on. -/
def fputsLoop {m : Nat} (s : Buffer m) (i : Nat) (iop : Stream) : Option Stream :=
  match _h : s.load i with
  | none => none
  | some c => if fromChar c = 0 then some iop else fputsLoop s (i + 1) (putc (fromChar c) iop)
termination_by m - i
decreasing_by
  have := load_lt _h
  omega

def myFputs {m : Nat} (s : Buffer m) (iop : Stream) : Option (Int × Stream) :=
  (fputsLoop s 0 iop).map fun iop => (if iop.error then eof else 1, iop)

/-- The calls of `my_fgets` until one gives NULL, with a call of `my_fputs` after each other one; the
strings, and the stream that they are written to. -/
def copyLoop {m : Nat} (n : Nat) : Nat → Buffer m → List UInt8 → Stream → Option (List (List UInt8) × Stream)
  | 0, _, _, _ => none
  | fuel + 1, s, iop, out =>
    (myFgets s n iop).bind fun (s, ok, iop) =>
      if ok then
        s.cString.bind fun string => (myFputs s out).bind fun (_, out) =>
          (copyLoop n fuel s iop out).map fun r => (string :: r.1, r.2)
      else some ([], out)

/-! ## What is promised -/

/-- A string `u` in front of `rest`. -/
structure Piece (room : Nat) (input u rest : List UInt8) : Prop where
  whole : input = u ++ rest
  bound : u.length ≤ room
  line : newline ∉ u.dropLast
  full : u.length < room → u.getLast? = some newline ∨ rest = []

structure Pieces (room : Nat) (input : List UInt8) (strings : List (List UInt8)) : Prop where
  whole : strings.flatten = input
  bounds : ∀ u ∈ strings, 1 ≤ u.length ∧ u.length ≤ room
  lines : ∀ u ∈ strings, newline ∉ u.dropLast
  full : ∀ pre u post, strings = pre ++ u :: post → u.length < room → u.getLast? = some newline ∨ post = []

section

variable {room : Nat} {input u rest : List UInt8}

theorem Piece.nil : Piece room [] [] [] := ⟨rfl, Nat.zero_le _, List.not_mem_nil, fun _ => .inr rfl⟩

/-- A character that is not a newline, in front of a piece. -/
theorem Piece.cons {c : UInt8} (hc : c ≠ newline) (h : Piece room input u rest) :
    Piece (room + 1) (c :: input) (c :: u) rest := by
  refine ⟨by rw [h.whole, List.cons_append], Nat.succ_le_succ h.bound, ?_, fun hlt => ?_⟩
  · cases u with
    | nil => exact List.not_mem_nil
    | cons d u =>
      rw [List.dropLast_cons_cons, List.mem_cons, not_or]
      exact ⟨Ne.symm hc, h.line⟩
  · have hfull := h.full (Nat.lt_of_succ_lt_succ hlt)
    cases u with
    | nil => exact .inr (hfull.resolve_left fun hlast => nomatch hlast)
    | cons d u => rwa [List.getLast?_cons_cons]

/-- Only at the end of the input there is nothing to read. -/
theorem Piece.ne_nil (h : Piece room input u rest) (hroom : 0 < room) (hne : input ≠ []) : u ≠ [] := by
  rintro rfl
  refine hne ?_
  rw [h.whole, (h.full hroom).resolve_left fun hlast => nomatch hlast]
  rfl

theorem Pieces.nil : Pieces room [] [] :=
  ⟨rfl, List.forall_mem_nil _, List.forall_mem_nil _, fun pre _ _ h =>
    absurd h.symm (List.append_ne_nil_of_right_ne_nil pre (List.cons_ne_nil _ _))⟩

theorem Pieces.eq_nil {strings : List (List UInt8)} (h : Pieces room [] strings) : strings = [] := by
  cases strings with
  | nil => rfl
  | cons u us =>
    have hu : u = [] := List.flatten_eq_nil_iff.1 h.whole u List.mem_cons_self
    have hlen := (h.bounds u List.mem_cons_self).1
    rw [hu] at hlen
    exact absurd hlen (Nat.not_succ_le_zero _)

theorem Pieces.cons {strings : List (List UInt8)} (hpiece : Piece room input u rest) (hne : u ≠ [])
    (h : Pieces room rest strings) : Pieces room input (u :: strings) := by
  refine ⟨by rw [List.flatten_cons, h.whole, hpiece.whole],
    List.forall_mem_cons.2 ⟨⟨List.length_pos_iff.2 hne, hpiece.bound⟩, h.bounds⟩,
    List.forall_mem_cons.2 ⟨hpiece.line, h.lines⟩, fun pre v post hstrings hlt => ?_⟩
  cases pre with
  | nil =>
    obtain ⟨rfl, rfl⟩ := List.cons.inj hstrings
    refine (hpiece.full hlt).imp_right ?_
    rintro rfl
    exact h.eq_nil
  | cons w pre => exact h.full pre v post (List.cons.inj hstrings).2 hlt

end

/-! ## `my_fgets` -/

theorem fgetsLoop_spec (m room : Nat) : ∀ input : List UInt8, ∃ u rest, Piece room input u rest ∧
    ∀ (s : Buffer m) (pre : List UInt8) (c : Int), pre.length + room ≤ m →
      ∃ d, (input = [] → 0 < room → d = eof) ∧
        fgetsLoop room (s.overwrite pre) pre.length c input =
          some (s.overwrite (pre ++ u), ((pre ++ u).length : Int), d, rest) := by
  induction room with
  | zero =>
    intro input
    refine ⟨[], input, ⟨rfl, Nat.le_refl _, List.not_mem_nil, fun h => absurd h (Nat.lt_irrefl _)⟩,
      fun s pre c _ => ⟨c, fun _ h => absurd h (Nat.lt_irrefl _), ?_⟩⟩
    rw [List.append_nil]
    rfl
  | succ room ih =>
    intro input
    cases input with
    | nil =>
      refine ⟨[], [], Piece.nil, fun s pre c _ => ⟨eof, fun _ _ => rfl, ?_⟩⟩
      rw [List.append_nil]
      rfl
    | cons b input =>
      have hnil (P : Prop) : b :: input = [] → P := fun h => absurd h (List.cons_ne_nil _ _)
      have hstore (s : Buffer m) (pre : List UInt8) (hm : pre.length + (room + 1) ≤ m) :
          (s.overwrite pre).store pre.length (toChar b.toNat) = some (s.overwrite (pre ++ [b])) := by
        rw [toChar_natCast, store_overwrite rfl (by omega)]
      have hlen (pre : List UInt8) : (pre ++ [b]).length = pre.length + 1 := List.length_append
      by_cases hb : b = newline
      · refine ⟨[b], input, ⟨rfl, Nat.le_add_left _ _, List.not_mem_nil, fun _ => .inl (congrArg some hb)⟩,
          fun s pre c hm => ⟨b.toNat, hnil _, ?_⟩⟩
        rw [fgetsLoop, getchar]
        dsimp only
        rw [if_neg (natCast_ne_eof b), hstore s pre hm, Option.bind_some, toChar_natCast,
          if_pos ((fromChar_eq_iff (by decide)).2 hb), hlen]
        rfl
      · obtain ⟨u, rest, hpiece, hrest⟩ := ih input
        refine ⟨b :: u, rest, hpiece.cons hb, fun s pre c hm => ?_⟩
        obtain ⟨d, -, hloop⟩ := hrest s (pre ++ [b]) b.toNat (by rw [hlen]; omega)
        refine ⟨d, hnil _, ?_⟩
        rw [hlen, List.append_assoc] at hloop
        rw [fgetsLoop, getchar]
        dsimp only
        rw [if_neg (natCast_ne_eof b), hstore s pre hm, Option.bind_some, toChar_natCast,
          if_neg fun h => hb ((fromChar_eq_iff (by decide)).1 h)]
        exact hloop

/-- A call of `my_fgets`: it gives NULL only at the end. -/
theorem myFgets_spec {m n : Nat} (hn : 2 ≤ n) (hm : n ≤ m) (input : List UInt8) :
    ∃ u rest, Piece (n - 1) input u rest ∧ (input ≠ [] → u ≠ []) ∧
      ∀ s : Buffer m, myFgets s n input = some (s.overwrite (u ++ [0]), !decide (input = []), rest) := by
  obtain ⟨u, rest, hpiece, hspec⟩ := fgetsLoop_spec m (n - 1) input
  have hne : input ≠ [] → u ≠ [] := hpiece.ne_nil (by omega)
  refine ⟨u, rest, hpiece, hne, fun s => ?_⟩
  obtain ⟨d, hend, hloop⟩ := hspec s [] 0 (by rw [List.length_nil]; omega)
  rw [overwrite_nil, List.nil_append] at hloop
  have hnull : (d = eof ∧ (u.length : Int) = 0) ↔ input = [] := by
    constructor
    · rintro ⟨-, hu⟩
      by_contra h
      have := List.length_pos_iff.2 (hne h)
      omega
    · intro h
      have hu : u = [] := (List.append_eq_nil_iff.1 (h ▸ hpiece.whole).symm).1
      exact ⟨hend h (by omega), by rw [hu]; rfl⟩
  have hloop : fgetsLoop (n - 1) s 0 0 input = some (s.overwrite u, (u.length : Int), d, rest) := hloop
  have hbound := hpiece.bound
  unfold myFgets
  rw [hloop, Option.bind_some]
  dsimp only
  rw [store_overwrite rfl (by omega)]
  show some (_, !decide (d = eof ∧ (u.length : Int) = 0), rest) = _
  rw [decide_eq_decide.2 hnull]

/-! ## `my_fputs` -/

section

variable {m : Nat} {s : Buffer m}

theorem fromChar_eq_zero (c : UInt8) : fromChar c = 0 ↔ c = 0 := @fromChar_eq_iff c 0 (by decide)

theorem fputsLoop_eq {rest : List UInt8} (v : List UInt8) (hv : 0 ∉ v) : ∀ (pre : List UInt8) (out : Stream),
    s.bytes = pre ++ v ++ 0 :: rest →
      fputsLoop s pre.length out = some { out with written := out.written ++ v } := by
  induction v with
  | nil =>
    intro pre out hbytes
    rw [List.append_nil] at hbytes
    have hload := load_of_bytes hbytes rfl
    rw [fputsLoop]
    split
    · next h => cases hload.symm.trans h
    · next h =>
      obtain rfl := Option.some.inj (hload.symm.trans h)
      rw [if_pos ((fromChar_eq_zero 0).2 rfl), List.append_nil]
  | cons c v ih =>
    intro pre out hbytes
    rw [List.mem_cons, not_or] at hv
    have hload : s.load pre.length = some c :=
      @load_of_bytes m s pre (v ++ 0 :: rest) c pre.length (by rw [hbytes, List.append_assoc]; rfl) rfl
    have hrest := ih hv.2 (pre ++ [c]) (putc (fromChar c) out) (by rw [hbytes, List.append_assoc pre [c]]; rfl)
    rw [List.length_append, List.length_singleton] at hrest
    rw [fputsLoop]
    split
    · next h => cases hload.symm.trans h
    · next h =>
      obtain rfl := Option.some.inj (hload.symm.trans h)
      rw [if_neg fun h => hv.1 ((fromChar_eq_zero c).1 h).symm, hrest]
      unfold putc
      rw [toChar_fromChar, List.append_assoc]
      rfl

/-- A call of `my_fputs`. -/
theorem myFputs_eq {v rest : List UInt8} (hv : 0 ∉ v) (hbytes : s.bytes = v ++ 0 :: rest) (out : Stream) :
    myFputs s out = some (if out.error then eof else 1, { out with written := out.written ++ v }) := by
  have h := fputsLoop_eq v hv [] out hbytes
  unfold myFputs
  rw [show (0 : Nat) = ([] : List UInt8).length from rfl, h]
  rfl

end

/-! ## All calls -/

/-- **A copy.**  The strings are those that the stream is to be cut into, whatever is in `s`; and
what is written is the stream. -/
theorem copies {m n : Nat} (hn : 2 ≤ n) (hm : n ≤ m) (input : List UInt8) (hnul : 0 ∉ input) :
    ∃ strings, Pieces (n - 1) input strings ∧ ∀ (fuel : Nat) (s : Buffer m) (out : Stream), input.length < fuel →
      copyLoop n fuel s input out = some (strings, { out with written := out.written ++ input }) := by
  induction hlen : input.length using Nat.strongRecOn generalizing input with
  | _ k ih =>
    subst hlen
    obtain ⟨u, rest, hpiece, hne, hread⟩ := @myFgets_spec m n hn hm input
    have hbound := hpiece.bound
    have hwhole := hpiece.whole
    by_cases hnil : input = []
    · refine ⟨[], hnil ▸ Pieces.nil, fun fuel s out hfuel => ?_⟩
      obtain ⟨fuel, rfl⟩ := Nat.exists_eq_succ_of_ne_zero (Nat.ne_of_gt (Nat.zero_lt_of_lt hfuel))
      rw [copyLoop, hread, Option.bind_some]
      dsimp only
      rw [decide_eq_true hnil, hnil, List.append_nil]
      rfl
    · have hu := hne hnil
      have hpos := List.length_pos_iff.2 hu
      rw [hwhole, List.mem_append, not_or] at hnul
      have hlt : rest.length < input.length := by
        rw [hwhole, List.length_append]
        omega
      obtain ⟨strings, hpieces, hrest⟩ := ih rest.length hlt rest hnul.2 rfl
      refine ⟨u :: strings, hpieces.cons hpiece hu, fun fuel s out hfuel => ?_⟩
      obtain ⟨fuel, rfl⟩ := Nat.exists_eq_succ_of_ne_zero (Nat.ne_of_gt (Nat.zero_lt_of_lt hfuel))
      have hbytes := @bytes_overwrite_string _ s u (by omega)
      rw [copyLoop, hread, Option.bind_some]
      dsimp only
      rw [decide_eq_false hnil, if_pos (by rfl), cString_of_bytes hbytes hnul.1, Option.bind_some,
        myFputs_eq hnul.1 hbytes, Option.bind_some]
      dsimp only
      rw [hrest fuel _ _ (by omega), Option.map_some, List.append_assoc, ← hwhole]

/-- An array of four bytes, of which three are used. -/
theorem copies_three : ∃ strings, Pieces 2 [97, 10, 255] strings ∧
    ∀ (fuel : Nat) (s : Buffer 4) (out : Stream), 3 < fuel →
      copyLoop 3 fuel s [97, 10, 255] out = some (strings, { out with written := out.written ++ [97, 10, 255] }) :=
  @copies 4 3 (by decide) (by decide) [97, 10, 255] (by decide)

end CPrograms.FileIo
