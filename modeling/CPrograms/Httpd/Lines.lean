import CPrograms.Lib.Buffers
import CPrograms.Lib.Pieces
import Mathlib.Data.List.TakeWhile

/-!
# `get_line` of `file_io/httpd.c`

`get_line` reads a connection byte by byte and takes each of CR, LF and CRLF for the end of a line.
With these ends made newlines (`unixEnds`), what it stores is the next piece of the connection,
whatever was in its buffer before (`getLine_eq`).  The callers read lines up to an empty one
(`headerLoop_rest`).

A connection is the bytes that still come on it, and `recv` gives no more of them at the end of it.
-/

namespace CPrograms.Httpd

open Buffers Lines Pieces

/-! ## The function -/

/-- What `recv` with `MSG_PEEK` makes of a character `c` that was received: a CR is a newline, and
takes a newline behind it along. -/
def lineEnd (c : UInt8) (sock : List UInt8) : UInt8 × List UInt8 :=
  if c = cr then
    match sock with
    | [] => (newline, [])
    | d :: rest => if d = newline then (newline, rest) else (newline, d :: rest)
  else (c, sock)

/-- The loop, with `room` bytes left in front of the NUL's. -/
def getLineLoop {m : Nat} : Nat → Buffer m → Int → List UInt8 → Option (Buffer m × Int × List UInt8)
  | 0, buf, i, sock => some (buf, i, sock)
  | _ + 1, buf, i, [] => some (buf, i, [])
  | room + 1, buf, i, c :: sock =>
    (buf.store i (lineEnd c sock).1).bind fun buf =>
      if (lineEnd c sock).1 = newline then some (buf, i + 1, (lineEnd c sock).2)
      else getLineLoop room buf (i + 1) (lineEnd c sock).2

/-- What is in `buf`, the number that is returned, and what is left on the connection. -/
def getLine {m : Nat} (sock : List UInt8) (buf : Buffer m) (size : Int) : Option (Buffer m × Int × List UInt8) :=
  (getLineLoop (size - 1).toNat buf 0 sock).bind fun (buf, i, sock) =>
    (buf.store i 0).map fun buf => (buf, i, sock)

/-! ## Newlines -/

/-- A connection with newlines for its line ends, behind a CR or not. -/
def unixEndsFrom : Bool → List UInt8 → List UInt8
  | _, [] => []
  | behind, c :: sock =>
    if behind = true ∧ c = newline then unixEndsFrom false sock
    else (if c = cr then newline else c) :: unixEndsFrom (decide (c = cr)) sock

def unixEnds (sock : List UInt8) : List UInt8 := unixEndsFrom false sock

theorem unixEndsFrom_cons {behind : Bool} {c : UInt8} (h : ¬(behind = true ∧ c = newline)) (sock : List UInt8) :
    unixEndsFrom behind (c :: sock) = (if c = cr then newline else c) :: unixEndsFrom (decide (c = cr)) sock :=
  if_neg h

theorem unixEndsFrom_true (sock : List UInt8) :
    unixEndsFrom true sock = unixEnds (if sock.head? = some newline then sock.tail else sock) := by
  cases sock with
  | nil => rfl
  | cons c sock =>
    by_cases hc : c = newline
    · rw [unixEndsFrom, if_pos ⟨rfl, hc⟩, List.head?_cons, if_pos (congrArg some hc)]
      rfl
    · rw [List.head?_cons, if_neg fun h => hc (Option.some.inj h), unixEnds, unixEndsFrom_cons fun h => hc h.2,
        unixEndsFrom_cons fun h => hc h.2]

theorem unixEnds_cons (c : UInt8) (sock : List UInt8) :
    unixEnds (c :: sock) = (lineEnd c sock).1 :: unixEnds (lineEnd c sock).2 := by
  rw [unixEnds, unixEndsFrom_cons fun h => Bool.false_ne_true h.1]
  unfold lineEnd
  by_cases hc : c = cr
  · rw [if_pos hc, if_pos hc, decide_eq_true hc, unixEndsFrom_true]
    cases sock with
    | nil => rfl
    | cons d rest =>
      rw [List.head?_cons]
      dsimp only
      by_cases hd : d = newline
      · rw [if_pos (congrArg some hd), if_pos hd]
        rfl
      · rw [if_neg fun h => hd (Option.some.inj h), if_neg hd]
  · rw [if_neg hc, if_neg hc, decide_eq_false hc]
    rfl

theorem lineEnd_suffix (c : UInt8) (sock : List UInt8) : (lineEnd c sock).2 <:+ sock := by
  unfold lineEnd
  split
  · cases sock with
    | nil => exact List.suffix_refl _
    | cons d rest =>
      dsimp only
      split
      · exact List.suffix_cons d rest
      · exact List.suffix_refl _
  · exact List.suffix_refl _

/-- Without a CR nothing is changed. -/
theorem unixEnds_of_notMem {sock : List UInt8} (h : cr ∉ sock) : unixEnds sock = sock := by
  induction sock with
  | nil => rfl
  | cons c sock ih =>
    rw [List.mem_cons, not_or] at h
    have hend : lineEnd c sock = (c, sock) := if_neg (Ne.symm h.1)
    rw [unixEnds_cons, hend, ih h.2]

/-! ## A piece -/

theorem getLineLoop_eq (m room : Nat) : ∀ sock : List UInt8, ∃ rest, rest <:+ sock ∧
    (sock ≠ [] → 0 < room → rest.length < sock.length) ∧
    unixEnds rest = (piece room (unixEnds sock)).2 ∧
      ∀ (buf : Buffer m) (pre : List UInt8), pre.length + room ≤ m →
        getLineLoop room (buf.overwrite pre) pre.length sock =
          some (buf.overwrite (pre ++ (piece room (unixEnds sock)).1),
            ((pre ++ (piece room (unixEnds sock)).1).length : Int), rest) := by
  induction room with
  | zero =>
    intro sock
    refine ⟨sock, List.suffix_refl _, fun _ h => absurd h (Nat.lt_irrefl 0), rfl, fun buf pre _ => ?_⟩
    rw [piece, List.append_nil]
    rfl
  | succ room ih =>
    intro sock
    cases sock with
    | nil =>
      refine ⟨[], List.suffix_refl _, fun h => absurd rfl h, rfl, fun buf pre _ => ?_⟩
      have hnil : (piece (room + 1) (unixEnds [])).1 = [] := rfl
      rw [hnil, List.append_nil]
      rfl
    | cons c sock =>
      have hsuffix := lineEnd_suffix c sock
      rw [unixEnds_cons]
      generalize hend : lineEnd c sock = e at hsuffix
      obtain ⟨d, sock'⟩ := e
      have hlt : ∀ rest, rest <:+ sock' → rest.length < (c :: sock).length := fun rest hrest =>
        Nat.lt_succ_of_le (Nat.le_trans hrest.length_le hsuffix.length_le)
      have hcons : ∀ rest, rest <:+ sock' → rest <:+ c :: sock := fun rest hrest =>
        (hrest.trans hsuffix).trans (List.suffix_cons c sock)
      have hstore (buf : Buffer m) (pre : List UInt8) (hm : pre.length + (room + 1) ≤ m) :
          (buf.overwrite pre).store pre.length d = some (buf.overwrite (pre ++ [d])) :=
        store_overwrite rfl (by omega)
      have hlen (pre : List UInt8) : (pre ++ [d]).length = pre.length + 1 := List.length_append
      rw [piece]
      by_cases hd : d = newline
      · refine ⟨sock', hcons _ (List.suffix_refl _), fun _ _ => hlt _ (List.suffix_refl _), ?_,
          fun buf pre hm => ?_⟩
        · rw [if_pos hd]
        · rw [getLineLoop, hend]
          dsimp only
          rw [hstore buf pre hm, Option.bind_some, if_pos hd, if_pos hd, hlen]
          rfl
      · obtain ⟨rest, h1, -, h2, h3⟩ := ih sock'
        refine ⟨rest, hcons _ h1, fun _ _ => hlt _ h1, ?_, fun buf pre hm => ?_⟩
        · rw [if_neg hd]
          exact h2
        · have hrest := h3 buf (pre ++ [d]) (by rw [hlen]; omega)
          rw [hlen, List.append_assoc] at hrest
          rw [getLineLoop, hend]
          dsimp only
          rw [hstore buf pre hm, Option.bind_some, if_neg hd, if_neg hd]
          exact hrest

/-- **A line.**  A call puts the next piece in the buffer, whatever is in it. -/
theorem getLine_eq {m n : Nat} (hn : n < m) (sock : List UInt8) : ∃ rest, rest <:+ sock ∧
    (sock ≠ [] → 0 < n → rest.length < sock.length) ∧
    unixEnds rest = (piece n (unixEnds sock)).2 ∧
      ∀ buf : Buffer m, getLine sock buf (n + 1 : Nat) =
        some (buf.overwrite ((piece n (unixEnds sock)).1 ++ [0]),
          ((piece n (unixEnds sock)).1.length : Int), rest) := by
  obtain ⟨rest, h1, h2, h3, h4⟩ := getLineLoop_eq m n sock
  refine ⟨rest, h1, h2, h3, fun buf => ?_⟩
  have hroom : ((n + 1 : Nat) - 1 : Int).toNat = n := by omega
  have hloop := h4 buf [] (by rw [List.length_nil]; omega)
  have hbound := length_piece_le n (unixEnds sock)
  rw [overwrite_nil, List.nil_append] at hloop
  have hloop : getLineLoop n buf 0 sock = _ := hloop
  unfold getLine
  rw [hroom, hloop, Option.bind_some]
  dsimp only
  rw [store_overwrite rfl (by omega)]
  rfl

/-! ## Lines up to an empty one -/

/-- A string, up to its NUL. -/
def string (s : List UInt8) : List UInt8 := s.takeWhile (· ≠ 0)

theorem zero_notMem_string (s : List UInt8) : 0 ∉ string s := fun h => by
  simpa using List.mem_takeWhile_imp h

/-- What was copied, as a string. -/
theorem cString_word {m : Nat} {b : Buffer m} {w : List UInt8} (h : w.length < m) :
    ∃ rest, (b.overwrite (w ++ [0])).bytes = string w ++ 0 :: rest := by
  have hbytes := @bytes_overwrite_string m b w h
  have hmem : (0 : UInt8) ∈ w ++ [0] := List.mem_append_right w List.mem_cons_self
  obtain ⟨rest, hrest, -⟩ := exists_of_mem_zero hmem
  have htake : (w ++ [0]).takeWhile (· ≠ 0) = string w := by
    unfold string
    rw [List.takeWhile_append]
    split
    · next hall =>
      rw [(List.takeWhile_sublist _).eq_of_length hall]
      exact List.append_nil w
    · rfl
  rw [htake] at hrest
  refine ⟨rest ++ b.bytes.drop (w ++ [0]).length, ?_⟩
  rw [hbytes, ← List.cons_append, ← List.append_assoc, ← hrest, List.append_assoc]
  rfl

/-- The loop up to an empty line, with what it notes of a line before it reads the next one. -/
def headerLoop {α : Type} (note : Buffer 1024 → α → Option (Buffer 1024 × α)) :
    Nat → Buffer 1024 → Int → α → List UInt8 → Option (α × List UInt8)
  | 0, _, _, _, _ => none
  | fuel + 1, buf, numchars, a, sock =>
    if numchars > 0 then
      buf.cString.bind fun line =>
        if line ≠ [newline] then
          (note buf a).bind fun (buf, a) => (getLine sock buf 1024).bind fun (buf, numchars, sock) =>
            headerLoop note fuel buf numchars a sock
        else some (a, sock)
    else some (a, sock)

/-- The loop that discards the headers; what is left on the connection. -/
def skipHeaders (fuel : Nat) (buf : Buffer 1024) (numchars : Int) (sock : List UInt8) : Option (List UInt8) :=
  (headerLoop (fun buf _ => some (buf, ())) fuel buf numchars () sock).map Prod.snd

section

variable {α : Type} {note : Buffer 1024 → α → Option (Buffer 1024 × α)}

/-- As a string a piece is a newline alone if it is one. -/
theorem string_eq_newline {p : List UInt8} (h : newline ∉ p.dropLast) : string p = [newline] ↔ p = [newline] := by
  constructor
  · intro hstring
    cases p with
    | nil => cases hstring
    | cons c p =>
      unfold string at hstring
      rw [List.takeWhile_cons] at hstring
      split at hstring
      · have hc : c = newline := (List.cons.inj hstring).1
        cases p with
        | nil => rw [hc]
        | cons d p =>
          rw [List.dropLast_cons_cons, hc] at h
          exact absurd List.mem_cons_self h
      · cases hstring
  · rintro rfl
    rfl

theorem cString_piece {b : Buffer 1024} {p : List UInt8} (h : p.length < 1024) :
    (b.overwrite (p ++ [0])).cString = some (string p) := by
  obtain ⟨rest, hrest⟩ := @cString_word 1024 b p h
  exact cString_of_bytes hrest (zero_notMem_string p)

/-- A turn of the loop on a piece that does not end it. -/
theorem headerLoop_turn (fuel : Nat) {b b' : Buffer 1024} {p : List UInt8} {a a' : α} {sock : List UInt8}
    (hp : p.length < 1024) (hlast : newline ∉ p.dropLast) (hne : p ≠ []) (hnl : p ≠ [newline])
    (hnote : note (b.overwrite (p ++ [0])) a = some (b', a')) :
    headerLoop note (fuel + 1) (b.overwrite (p ++ [0])) p.length a sock =
      (getLine sock b' 1024).bind fun (buf, numchars, sock) => headerLoop note fuel buf numchars a' sock := by
  have hpos := List.length_pos_iff.2 hne
  rw [headerLoop, if_pos (by omega), cString_piece hp, Option.bind_some,
    if_pos (mt (string_eq_newline hlast).1 hnl),
    hnote, Option.bind_some]

theorem headerLoop_end (fuel : Nat) {b : Buffer 1024} {p : List UInt8} {a : α} {sock : List UInt8}
    (hend : p = [] ∨ p = [newline]) :
    headerLoop note (fuel + 1) (b.overwrite (p ++ [0])) p.length a sock = some (a, sock) := by
  rw [headerLoop]
  rcases hend with rfl | rfl
  · exact if_neg (Int.lt_irrefl 0)
  · rw [if_pos (by decide), cString_piece (by decide), Option.bind_some, if_neg]
    exact fun h => h rfl

/-- What is left is behind the first piece that ends the loop. -/
theorem headerLoop_rest (hnote : ∀ b a, ∃ b' a', note b a = some (b', a')) (fuel : Nat) :
    ∀ (sock p : List UInt8), p.length < 1024 → newline ∉ p.dropLast → sock.length + 1 < fuel →
      ∃ rest, unixEnds rest = (if p = [] ∨ p = [newline] then unixEnds sock else afterBlank 1023 (unixEnds sock)) ∧
        ∀ (b : Buffer 1024) (a : α), ∃ a', headerLoop note fuel (b.overwrite (p ++ [0])) p.length a sock =
          some (a', rest) := by
  induction fuel with
  | zero => exact fun sock p _ _ h => absurd h (Nat.not_lt_zero _)
  | succ fuel ih =>
    intro sock p hp hlast hfuel
    by_cases hend : p = [] ∨ p = [newline]
    · exact ⟨sock, (if_pos hend).symm, fun b a => ⟨a, headerLoop_end fuel hend⟩⟩
    · obtain ⟨sock', -, hlt, hends, hget⟩ := @getLine_eq 1024 1023 (by decide) sock
      have hbound := length_piece_le 1023 (unixEnds sock)
      have hdrop := newline_notMem_dropLast 1023 (unixEnds sock)
      have hblank : afterBlank 1023 (unixEnds sock) =
          if (piece 1023 (unixEnds sock)).1 = [] ∨ (piece 1023 (unixEnds sock)).1 = [newline] then unixEnds sock'
          else afterBlank 1023 (unixEnds sock') := by
        rw [hends]
        by_cases hnil : unixEnds sock = []
        · rw [hnil, afterBlank_nil]
          exact (if_pos (.inl rfl)).symm
        · by_cases hnl : (piece 1023 (unixEnds sock)).1 = [newline]
          · rw [if_pos (.inr hnl), afterBlank, dif_pos ⟨by decide, hnil⟩, if_pos hnl]
          · rw [if_neg (not_or.2 ⟨mt (piece_eq_nil_iff (by decide)).1 hnil, hnl⟩),
              afterBlank_of_ne (by decide) hnl]
      rw [not_or] at hend
      -- at the end of the connection the next piece ends the loop
      by_cases hsock : sock = []
      · subst hsock
        have hnil : piece 1023 (unixEnds []) = ([], []) := rfl
        rw [hnil] at hget
        refine ⟨sock', ?_, fun b a => ?_⟩
        · rw [if_neg (not_or.2 hend), hblank, if_pos (.inl (congrArg Prod.fst hnil))]
        · obtain ⟨fuel, rfl⟩ := Nat.exists_eq_succ_of_ne_zero (Nat.ne_of_gt (Nat.lt_of_succ_lt_succ hfuel))
          obtain ⟨b', a', hb⟩ := hnote (b.overwrite (p ++ [0])) a
          have hget : getLine [] b' 1024 = _ := hget b'
          refine ⟨a', ?_⟩
          rw [headerLoop_turn _ hp hlast hend.1 hend.2 hb, hget, Option.bind_some]
          exact headerLoop_end fuel (.inl rfl)
      · obtain ⟨rest, hrest, hloop⟩ := ih sock' _ (Nat.lt_succ_of_le hbound) hdrop
          (by have := hlt hsock (by decide); omega)
        refine ⟨rest, ?_, fun b a => ?_⟩
        · rw [if_neg (not_or.2 hend), hblank, hrest]
        · obtain ⟨b', a', hb⟩ := hnote (b.overwrite (p ++ [0])) a
          have hget : getLine sock b' 1024 = _ := hget b'
          obtain ⟨a'', ha⟩ := hloop b' a'
          refine ⟨a'', ?_⟩
          rw [headerLoop_turn fuel hp hlast hend.1 hend.2 hb, hget, Option.bind_some]
          exact ha

end

/-- The headers behind a line that is not empty are skipped. -/
theorem skipHeaders_eq (sock : List UInt8) {p : List UInt8} (hp : p.length < 1024) (hlast : newline ∉ p.dropLast)
    (hne : ¬(p = [] ∨ p = [newline])) {fuel : Nat} (hfuel : sock.length + 1 < fuel) :
    ∃ rest, unixEnds rest = afterBlank 1023 (unixEnds sock) ∧
      ∀ b : Buffer 1024, skipHeaders fuel (b.overwrite (p ++ [0])) p.length sock = some rest := by
  obtain ⟨rest, hrest, hloop⟩ := @headerLoop_rest Unit (fun buf _ => some (buf, ())) (fun b a => ⟨b, a, rfl⟩) fuel
    sock p hp hlast hfuel
  refine ⟨rest, by rw [hrest, if_neg hne], fun b => ?_⟩
  obtain ⟨a, ha⟩ := hloop b ()
  unfold skipHeaders
  rw [ha, Option.map_some]

end CPrograms.Httpd
