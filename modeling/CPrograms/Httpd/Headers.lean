import CPrograms.Httpd.Request

/-!
# The headers in `file_io/httpd.c`

`serve_file` and `execute_cgi` read lines up to an empty one.  A line is read in pieces of 1023
bytes, so that the newline of a line whose length is a multiple of 1023 is taken for the empty line
(`discardHeaders_iff`).

Of a POST the length of the body is what `atoi` finds behind 16 bytes of the header: the 15 of
`Content-Length:` and one more, which is the first digit where no space is before the number
(`postHeaders_length`).
-/

namespace CPrograms.Httpd

open Buffers Lines Pieces
open UringHttp (ascii strtolower)

/-! ## The loops -/

/-- `buf[0] = 'A'; buf[1] = '\0'` and the loop that discards the headers; what is left on the connection. -/
def discardHeaders (fuel : Nat) (buf : Buffer 1024) (sock : List UInt8) : Option (List UInt8) :=
  skipHeaders fuel (buf.overwrite [65, 0]) 1 sock

def plus : UInt8 := 43

/-- `atoi` of the bytes at its argument.  It is undefined where the number does not end in them, and
where it is not an `int`. -/
def atoi (bytes : List UInt8) : Option Int :=
  let s := bytes.dropWhile isSpace
  let unsigned := if s.head? = some Decimal.minus ∨ s.head? = some plus then s.tail else s
  let d := unsigned.takeWhile fun c => decide (Decimal.IsDigit c)
  if d.length = unsigned.length then none
  else if s.head? = some Decimal.minus then if Decimal.number d ≤ 2 ^ 31 then some (-Decimal.number d) else none
  else if Decimal.number d < 2 ^ 31 then some (Decimal.number d) else none

/-- What a turn of the loop does with the line in `buf`. -/
def noteLength (buf : Buffer 1024) (contentLength : Int) : Option (Buffer 1024 × Int) :=
  (buf.store 15 0).bind fun buf => buf.cString.bind fun name =>
    if strtolower name = ascii "content-length:" then (atoi (buf.bytes.drop 16)).map fun n => (buf, n)
    else some (buf, contentLength)

/-- The headers of a POST: `content_length` and what is left on the connection. -/
def postHeaders (fuel : Nat) (buf : Buffer 1024) (sock : List UInt8) : Option (Int × List UInt8) :=
  (getLine sock (buf.overwrite [65, 0]) 1024).bind fun (buf, numchars, sock) =>
    headerLoop noteLength fuel buf numchars (-1) sock

/-- **The headers.**  They are skipped up to the empty line, unless the length of one of them is a
multiple of 1023. -/
theorem discardHeaders_iff {headers : List (List UInt8)} {body sock : List UInt8}
    (hheaders : ∀ w ∈ headers, w ≠ [] ∧ newline ∉ w) (hsock : unixEnds sock = block headers ++ newline :: body) :
    ∀ (fuel : Nat) (buf : Buffer 1024), sock.length + 1 < fuel →
      ∃ rest, discardHeaders fuel buf sock = some rest ∧
        (unixEnds rest = body ↔ ∀ w ∈ headers, ¬1023 ∣ w.length) := by
  intro fuel buf hfuel
  obtain ⟨rest, hrest, hskip⟩ := skipHeaders_eq sock (p := [65]) (by decide) List.not_mem_nil (by decide) hfuel
  refine ⟨rest, hskip buf, ?_⟩
  rw [hrest, hsock]
  exact afterBlank_block_iff (by decide) hheaders body

/-- Two headers, the second of 1023 bytes. -/
theorem discardHeaders_iff_two : ∃ rest,
    discardHeaders 5000 zeros (block [ascii "a", List.replicate 1023 98] ++ newline :: ascii "c") = some rest ∧
      unixEnds rest ≠ ascii "c" := by
  have hcr : cr ∉ block [ascii "a", List.replicate 1023 98] ++ newline :: ascii "c" := by decide +kernel
  have hheaders : ∀ w ∈ [ascii "a", List.replicate 1023 98], w ≠ [] ∧ newline ∉ w := by decide +kernel
  obtain ⟨rest, h1, h2⟩ := discardHeaders_iff hheaders (unixEnds_of_notMem hcr) 5000 zeros (by decide +kernel)
  refine ⟨rest, h1, fun h => ?_⟩
  exact h2.1 h (List.replicate 1023 98) (by decide +kernel) (by decide +kernel)

/-! ## The length of the body -/

section

variable {d : List UInt8}

theorem not_isSpace_of_isDigit {c : UInt8} (h : Decimal.IsDigit c) : isSpace c = false := by
  obtain ⟨h1, h2⟩ := h
  refine decide_eq_false ?_
  rintro (rfl | ⟨h3, h4⟩)
  · exact absurd h1 (by decide)
  · have : c.toNat ≤ 13 := h4
    omega

theorem not_sign_of_isDigit {c : UInt8} (h : Decimal.IsDigit c) : c ≠ Decimal.minus ∧ c ≠ plus := by
  constructor
  · rintro rfl
    exact absurd h.1 (by decide)
  · rintro rfl
    exact absurd h.1 (by decide)

/-- Digits up to the end of a line. -/
theorem atoi_digits (hd : ∀ c ∈ d, Decimal.IsDigit c) (hlt : Decimal.number d < 2 ^ 31) (rest : List UInt8) :
    atoi (d ++ newline :: 0 :: rest) = some (Decimal.number d : Int) := by
  cases d with
  | nil =>
    have hspaces : (newline :: 0 :: rest).dropWhile isSpace = 0 :: rest := rfl
    unfold atoi
    dsimp only
    rw [List.nil_append, hspaces]
    rfl
  | cons c d =>
    have hc := (List.forall_mem_cons.1 hd).1
    obtain ⟨hminus, hplus⟩ := not_sign_of_isDigit hc
    have hminus : some c ≠ some Decimal.minus := fun h => hminus (Option.some.inj h)
    have hplus : some c ≠ some plus := fun h => hplus (Option.some.inj h)
    have htake : ((c :: d) ++ newline :: 0 :: rest).takeWhile (fun c => decide (Decimal.IsDigit c)) = c :: d := by
      rw [List.takeWhile_append_of_pos fun c hc => decide_eq_true (hd c hc),
        List.takeWhile_cons_of_neg (by decide),
        List.append_nil]
    have hspaces : ((c :: d) ++ newline :: 0 :: rest).dropWhile isSpace = (c :: d) ++ newline :: 0 :: rest := by
      rw [List.cons_append]
      exact List.dropWhile_cons_of_neg (by rw [not_isSpace_of_isDigit hc]; exact Bool.false_ne_true)
    have hhead : ((c :: d) ++ newline :: 0 :: rest).head? = some c := rfl
    unfold atoi
    dsimp only
    rw [hspaces, hhead, if_neg (not_or.2 ⟨hminus, hplus⟩), htake,
      if_neg (by rw [List.length_append, List.length_cons, List.length_cons]; omega), if_neg hminus, if_pos hlt]

end

/-- A header of the length. -/
def IsLength (w : List UInt8) : Prop := strtolower (w.take 15) = ascii "content-length:"

instance (w : List UInt8) : Decidable (IsLength w) := inferInstanceAs (Decidable (_ = _))

/-- `content_length` behind a header. -/
def lengthAfter (contentLength : Int) (w : List UInt8) : Int :=
  if IsLength w then Decimal.number (w.drop 16) else contentLength

/-- A header that is one piece, with nothing but a number in an `int` behind the 16 bytes of a length. -/
structure Plain (w : List UInt8) : Prop where
  ne_nil : w ≠ []
  newline : newline ∉ w
  zero : 0 ∉ w
  short : w.length < 1023
  digits : IsLength w → (∀ c ∈ w.drop 16, Decimal.IsDigit c) ∧ Decimal.number (w.drop 16) < 2 ^ 31

section

variable {w : List UInt8}

theorem length_ascii_length : (ascii "content-length:").length = 15 := by decide

theorem IsLength.length_le (h : IsLength w) : 15 ≤ w.length := by
  have hlen := congrArg List.length h
  rw [strtolower, List.length_map, List.length_take, length_ascii_length] at hlen
  omega

/-- A short line is its own name, with the newline. -/
theorem noteLength_short {b : Buffer 1024} {stale : List UInt8} (hbytes : b.bytes = w ++ newline :: 0 :: stale)
    (hzero : 0 ∉ w) (hlen : w.length < 15) (n : Int) : ∃ b', noteLength b n = some (b', n) := by
  obtain ⟨stale', hset⟩ : ∃ stale', b.bytes.set 15 0 = (w ++ [newline]) ++ 0 :: stale' := by
    have hline : b.bytes = (w ++ [newline]) ++ 0 :: stale := by rw [hbytes, List.append_assoc]; rfl
    rw [hline, List.set_append_right _ _ (by rw [List.length_append, List.length_singleton]; omega)]
    cases 15 - (w ++ [newline]).length with
    | zero => exact ⟨stale, rfl⟩
    | succ k => exact ⟨stale.set k 0, rfl⟩
  have hname : (⟨b.bytes.set 15 0, by rw [List.length_set, b.length_eq]⟩ : Buffer 1024).cString =
      some (w ++ [newline]) := by
    refine cString_of_bytes hset ?_
    rw [List.mem_append, List.mem_singleton, not_or]
    exact ⟨hzero, by decide⟩
  have hne : strtolower (w ++ [newline]) ≠ ascii "content-length:" := by
    intro h
    have hmem : newline ∈ strtolower (w ++ [newline]) :=
      List.mem_map.2 ⟨newline, List.mem_append_right w List.mem_cons_self, by decide⟩
    rw [h] at hmem
    revert hmem
    decide
  have hstore : b.store 15 0 = some ⟨b.bytes.set 15 0, by rw [List.length_set, b.length_eq]⟩ := if_pos (by decide)
  refine ⟨⟨b.bytes.set 15 0, by rw [List.length_set, b.length_eq]⟩, ?_⟩
  unfold noteLength
  rw [hstore, Option.bind_some, hname, Option.bind_some, if_neg hne]

/-- Of a long one the first 15 bytes are the name. -/
theorem noteLength_long {b : Buffer 1024} {stale : List UInt8} (hbytes : b.bytes = w ++ newline :: 0 :: stale)
    (hzero : 0 ∉ w) (hlen : 15 ≤ w.length) (n : Int) : ∃ b', noteLength b n =
      if IsLength w then (atoi ((w ++ newline :: 0 :: stale).drop 16)).map fun m => (b', m) else some (b', n) := by
  have hlt : 15 < b.bytes.length := by rw [b.length_eq]; decide
  have hset : b.bytes.set 15 0 = w.take 15 ++ 0 :: (w ++ newline :: 0 :: stale).drop 16 := by
    rw [List.set_eq_take_append_cons_drop, if_pos hlt, hbytes, List.take_append_of_le_length hlen]
  have hstore : b.store 15 0 = some ⟨b.bytes.set 15 0, by rw [List.length_set, b.length_eq]⟩ := if_pos (by decide)
  have hname : (⟨b.bytes.set 15 0, by rw [List.length_set, b.length_eq]⟩ : Buffer 1024).cString =
      some (w.take 15) :=
    cString_of_bytes hset fun h => hzero (List.mem_of_mem_take h)
  have hdrop : (b.bytes.set 15 0).drop 16 = (w ++ newline :: 0 :: stale).drop 16 := by
    rw [hset, List.drop_append, List.drop_eq_nil_of_le (by rw [List.length_take]; omega), List.nil_append,
      List.length_take_of_le hlen]
    rfl
  refine ⟨⟨b.bytes.set 15 0, by rw [List.length_set, b.length_eq]⟩, ?_⟩
  unfold noteLength
  rw [hstore, Option.bind_some, hname, Option.bind_some]
  dsimp only
  rw [hdrop]
  rfl

/-- A turn of the loop notes the length. -/
theorem noteLength_plain (h : Plain w) (b : Buffer 1024) (n : Int) :
    ∃ b', noteLength (b.overwrite ((w ++ [newline]) ++ [0])) n = some (b', lengthAfter n w) := by
  have hshort := h.short
  have hlen : (w ++ [newline]).length = w.length + 1 := List.length_append
  obtain ⟨stale, hbytes⟩ : ∃ stale, (b.overwrite ((w ++ [newline]) ++ [0])).bytes = w ++ newline :: 0 :: stale :=
    ⟨_, (bytes_overwrite_string (by omega)).trans (List.append_assoc w [newline] _)⟩
  by_cases hlong : 15 ≤ w.length
  · obtain ⟨b', hb⟩ := noteLength_long hbytes h.zero hlong n
    refine ⟨b', ?_⟩
    rw [hb]
    unfold lengthAfter
    by_cases hname : IsLength w
    · obtain ⟨hdigits, hlt⟩ := h.digits hname
      rw [if_pos hname, if_pos hname]
      by_cases hmore : 16 ≤ w.length
      · rw [List.drop_append_of_le_length hmore, atoi_digits hdigits hlt]
        rfl
      · -- the NUL that was stored is in place of the newline
        have heq : w.length = 15 := by omega
        rw [List.drop_eq_nil_of_le (by omega : w.length ≤ 16), List.drop_append,
          List.drop_eq_nil_of_le (by omega : w.length ≤ 16), heq]
        rfl
    · rw [if_neg hname, if_neg hname]
  · obtain ⟨b', hb⟩ := noteLength_short hbytes h.zero (by omega) n
    have hname : ¬IsLength w := fun hname => hlong hname.length_le
    refine ⟨b', ?_⟩
    unfold lengthAfter
    rw [hb, if_neg hname]

end

/-- A turn of the loop on a header, behind which the piece `p` comes. -/
theorem postLoop_turn {w p left sock : List UInt8} (h : Plain w) (hp : piece 1023 (unixEnds sock) = (p, left))
    (fuel : Nat) (b : Buffer 1024) (n : Int) : ∃ b' sock', unixEnds sock' = left ∧
      headerLoop noteLength (fuel + 1) (b.overwrite ((w ++ [newline]) ++ [0]))
        ((w ++ [newline]).length : Int) n sock =
        headerLoop noteLength fuel (Buffer.overwrite b' (p ++ [0])) p.length (lengthAfter n w) sock' := by
  have hshort := h.short
  have hpos := List.length_pos_iff.2 h.ne_nil
  have hlen : (w ++ [newline]).length = w.length + 1 := List.length_append
  have hne : w ++ [newline] ≠ [newline] := fun heq => by
    have := congrArg List.length heq
    rw [hlen, List.length_singleton] at this
    omega
  obtain ⟨b', hb⟩ := noteLength_plain h b n
  obtain ⟨sock', -, -, hends, hget⟩ := @getLine_eq 1024 1023 (by decide) sock
  rw [hp] at hends hget
  have hget : getLine sock b' 1024 = _ := hget b'
  refine ⟨b', sock', hends, ?_⟩
  rw [headerLoop_turn fuel (by omega) (by rw [List.dropLast_concat]; exact h.newline)
    (List.append_ne_nil_of_right_ne_nil w (List.cons_ne_nil _ _)) hne hb, hget, Option.bind_some]

/-- The loop, with a header in `buf`. -/
theorem postLoop_block {body : List UInt8} (headers : List (List UInt8)) : ∀ (w sock : List UInt8) (fuel : Nat)
    (b : Buffer 1024) (n : Int), (∀ v ∈ w :: headers, Plain v) → unixEnds sock = block headers ++ newline :: body →
      headers.length + 1 < fuel →
        ∃ rest, unixEnds rest = body ∧ headerLoop noteLength fuel (b.overwrite ((w ++ [newline]) ++ [0]))
          ((w ++ [newline]).length : Int) n sock = some ((w :: headers).foldl lengthAfter n, rest) := by
  induction headers with
  | nil =>
    intro w sock fuel b n hplain hsock hfuel
    obtain ⟨fuel, rfl⟩ : ∃ k, fuel = k + 2 := ⟨fuel - 2, by rw [List.length_nil] at hfuel; omega⟩
    have hpiece : piece 1023 (unixEnds sock) = ([newline], body) := by
      rw [hsock]
      exact piece_line List.not_mem_nil (by decide) body
    obtain ⟨b', sock', hends, hturn⟩ := postLoop_turn (hplain w List.mem_cons_self) hpiece (fuel + 1) b n
    exact ⟨sock', hends, hturn.trans (headerLoop_end fuel (.inr rfl))⟩
  | cons v headers ih =>
    intro w sock fuel b n hplain hsock hfuel
    obtain ⟨hw, hplain⟩ := List.forall_mem_cons.1 hplain
    have hv := hplain v List.mem_cons_self
    obtain ⟨fuel, rfl⟩ := Nat.exists_eq_succ_of_ne_zero (Nat.ne_of_gt (Nat.zero_lt_of_lt hfuel))
    have hpiece : piece 1023 (unixEnds sock) = (v ++ [newline], block headers ++ newline :: body) := by
      rw [hsock, block_cons]
      exact piece_line hv.newline hv.short _
    obtain ⟨b', sock', hends, hturn⟩ := postLoop_turn hw hpiece fuel b n
    obtain ⟨rest, hrest, hloop⟩ := ih v sock' fuel b' (lengthAfter n w) hplain hends
      (by rw [List.length_cons] at hfuel; omega)
    exact ⟨rest, hrest, hturn.trans hloop⟩

/-- The headers of a POST: the last length counts. -/
theorem postHeaders_block {headers : List (List UInt8)} {body sock : List UInt8} (hplain : ∀ w ∈ headers, Plain w)
    (hsock : unixEnds sock = block headers ++ newline :: body) (fuel : Nat) (buf : Buffer 1024)
    (hfuel : headers.length + 1 < fuel) : ∃ rest, unixEnds rest = body ∧
      postHeaders fuel buf sock = some (headers.foldl lengthAfter (-1), rest) := by
  obtain ⟨sock', -, -, hends, hget⟩ := @getLine_eq 1024 1023 (by decide) sock
  have hget : getLine sock (buf.overwrite [65, 0]) 1024 = _ := hget _
  unfold postHeaders
  cases headers with
  | nil =>
    obtain ⟨fuel, rfl⟩ := Nat.exists_eq_succ_of_ne_zero (Nat.ne_of_gt (Nat.zero_lt_of_lt hfuel))
    have hpiece : piece 1023 (unixEnds sock) = ([newline], body) := by
      rw [hsock]
      exact piece_line List.not_mem_nil (by decide) body
    rw [hpiece] at hends hget
    refine ⟨sock', hends, ?_⟩
    rw [hget, Option.bind_some]
    exact headerLoop_end fuel (.inr rfl)
  | cons v headers =>
    have hv := hplain v List.mem_cons_self
    have hpiece : piece 1023 (unixEnds sock) = (v ++ [newline], block headers ++ newline :: body) := by
      rw [hsock, block_cons]
      exact piece_line hv.newline hv.short _
    rw [hpiece] at hends hget
    obtain ⟨rest, hrest, hloop⟩ := postLoop_block headers v sock' fuel (buf.overwrite [65, 0]) (-1) hplain hends
      (by rw [List.length_cons] at hfuel; omega)
    refine ⟨rest, hrest, ?_⟩
    rw [hget, Option.bind_some]
    exact hloop

/-! ## A number -/

section

variable {name : List UInt8}

theorem notMem_name (hname : strtolower name = ascii "content-length:") : newline ∉ name ∧ 0 ∉ name := by
  have hmem (c : UInt8) (hc : c ∈ name) : UringHttp.tolower c ∈ ascii "content-length:" :=
    hname ▸ List.mem_map_of_mem hc
  constructor
  · intro h
    have := hmem _ h
    revert this
    decide
  · intro h
    have := hmem _ h
    revert this
    decide

theorem length_name (hname : strtolower name = ascii "content-length:") : name.length = 15 := by
  rw [← length_ascii_length, ← hname, strtolower, List.length_map]

/-- All digits but the first. -/
theorem number_drop_digits (n : Nat) :
    Decimal.number ((Decimal.digits n).drop 1) = n % 10 ^ ((Decimal.digits n).length - 1) := by
  obtain ⟨hne, hdigits, hnumber⟩ := Decimal.digits_spec n
  obtain ⟨c, d, hd⟩ := List.exists_cons_of_ne_nil hne
  rw [hd] at hdigits hnumber ⊢
  have hlt := Decimal.number_lt (List.forall_mem_cons.1 hdigits).2
  rw [← hnumber, Decimal.number_cons, List.length_cons, Nat.add_sub_cancel, Nat.mul_add_mod_of_lt hlt]
  rfl

/-- A header of the length, with `d` for what is behind the 16 bytes. -/
theorem lengthAfter_plain (hname : strtolower name = ascii "content-length:") {v d : List UInt8}
    (hdrop : v.drop 1 = d) (hnewline : newline ∉ v) (hzero : 0 ∉ v) (hshort : v.length ≤ 11)
    (hd : ∀ c ∈ d, Decimal.IsDigit c) (hlt : Decimal.number d < 2 ^ 31) :
    Plain (name ++ v) ∧ ∀ m, lengthAfter m (name ++ v) = (Decimal.number d : Int) := by
  have hlen := length_name hname
  obtain ⟨h1, h2⟩ := notMem_name hname
  have hlength : IsLength (name ++ v) := by
    unfold IsLength
    rwa [List.take_append_of_le_length (Nat.le_of_eq hlen.symm), List.take_of_length_le (Nat.le_of_eq hlen)]
  have hrest : (name ++ v).drop 16 = d := by
    rw [List.drop_append, List.drop_eq_nil_of_le (by omega), List.nil_append, hlen]
    exact hdrop
  refine ⟨⟨?_, ?_, ?_, ?_, ?_⟩, fun m => ?_⟩
  · exact List.append_ne_nil_of_left_ne_nil (List.ne_nil_of_length_pos (by omega)) v
  · rw [List.mem_append, not_or]
    exact ⟨h1, hnewline⟩
  · rw [List.mem_append, not_or]
    exact ⟨h2, hzero⟩
  · rw [List.length_append]
    omega
  · intro _
    rw [hrest]
    exact ⟨hd, hlt⟩
  · unfold lengthAfter
    rw [if_pos hlength, hrest]

/-- What is noted of a length, with a space before the number or without one. -/
theorem lengthAfter_number (hname : strtolower name = ascii "content-length:") {n : Nat} (hn : n < 2 ^ 31)
    (spaced : Bool) :
    Plain (name ++ ((if spaced then [32] else []) ++ Decimal.digits n)) ∧ ∀ m,
      lengthAfter m (name ++ ((if spaced then [32] else []) ++ Decimal.digits n)) =
        ((if spaced then n else n % 10 ^ ((Decimal.digits n).length - 1) : Nat) : Int) := by
  obtain ⟨hne, hdigits, hnumber⟩ := Decimal.digits_spec n
  have hshort := Decimal.length_digits_le (k := 9) (n := n) (by omega)
  have hnotMem (c : UInt8) (hc : ¬Decimal.IsDigit c) : c ∉ Decimal.digits n := fun h => hc (hdigits c h)
  cases spaced with
  | true =>
    have h := @lengthAfter_plain name hname (32 :: Decimal.digits n) _ rfl
      (List.not_mem_cons_of_ne_of_not_mem (by decide) (hnotMem newline (by decide)))
      (List.not_mem_cons_of_ne_of_not_mem (by decide) (hnotMem 0 (by decide))) (Nat.succ_le_succ hshort) hdigits
      (by rw [List.drop_one, List.tail_cons, hnumber]; exact hn)
    rwa [List.drop_one, List.tail_cons, hnumber] at h
  | false =>
    have hmod := number_drop_digits n
    have hle := Nat.mod_le n (10 ^ ((Decimal.digits n).length - 1))
    have h := @lengthAfter_plain name hname (Decimal.digits n) _ rfl (hnotMem newline (by decide))
      (hnotMem 0 (by decide)) (Nat.le_succ_of_le hshort) (fun c hc => hdigits c (List.mem_of_mem_drop hc))
      (by rw [hmod]; omega)
    rwa [hmod] at h

end

/-- **The length of the body.**  A space before the number is taken for granted: without it the number
loses its first digit. -/
theorem postHeaders_length {before behind : List (List UInt8)} {name body sock : List UInt8}
    {n : Nat} {spaced : Bool}
    (hother : ∀ w ∈ before ++ behind, Plain w ∧ ¬IsLength w) (hname : strtolower name = ascii "content-length:")
    (hn : n < 2 ^ 31)
    (hsock : unixEnds sock = block (before ++
      (name ++ ((if spaced then [32] else []) ++ Decimal.digits n)) :: behind) ++
      newline :: body) (fuel : Nat) (buf : Buffer 1024) (hfuel : (before ++ behind).length + 2 < fuel) :
    ∃ rest, unixEnds rest = body ∧ postHeaders fuel buf sock =
      some (((if spaced then n else n % 10 ^ ((Decimal.digits n).length - 1) : Nat) : Int), rest) := by
  obtain ⟨hplain, hlength⟩ := lengthAfter_number hname hn spaced
  have hskip (ws : List (List UInt8)) (hws : ∀ w ∈ ws, ¬IsLength w) (m : Int) : ws.foldl lengthAfter m = m := by
    induction ws with
    | nil => rfl
    | cons w ws ih =>
      obtain ⟨hw, hws⟩ := List.forall_mem_cons.1 hws
      rw [List.foldl_cons, lengthAfter, if_neg hw, ih hws]
  have hall : ∀ w ∈ before ++ (name ++ ((if spaced then [32] else []) ++ Decimal.digits n)) :: behind,
      Plain w := by
    intro w hw
    rcases List.mem_append.1 hw with hw | hw
    · exact (hother w (List.mem_append_left behind hw)).1
    · rcases List.mem_cons.1 hw with rfl | hw
      · exact hplain
      · exact (hother w (List.mem_append_right before hw)).1
  obtain ⟨rest, hrest, hpost⟩ := postHeaders_block hall hsock fuel buf
    (by rw [List.length_append, List.length_cons]; rw [List.length_append] at hfuel; omega)
  refine ⟨rest, hrest, ?_⟩
  rw [hpost, List.foldl_append, List.foldl_cons, hlength,
    hskip behind fun w hw => (hother w (List.mem_append_right before hw)).2]

/-- `Content-Length:25`, of which 5 is left. -/
theorem postHeaders_length_digit : ∃ rest, unixEnds rest = ascii "x" ∧
    postHeaders 9 zeros (block [ascii "a", ascii "Content-Length:" ++ ([] ++ Decimal.digits 25)] ++
      newline :: ascii "x") =
      some (5, rest) := by
  have hother : ∀ w ∈ [ascii "a"] ++ [], Plain w ∧ ¬IsLength w := by
    intro w hw
    obtain rfl := List.mem_singleton.1 hw
    exact ⟨⟨by decide, by decide, by decide, by decide, fun h => absurd h (by decide)⟩, by decide⟩
  have hcr : cr ∉ block [ascii "a", ascii "Content-Length:" ++ ([] ++ Decimal.digits 25)] ++
      newline :: ascii "x" := by
    decide +kernel
  exact @postHeaders_length [ascii "a"] [] (ascii "Content-Length:") (ascii "x") _ 25 false hother (by decide)
    (by decide) (unixEnds_of_notMem hcr) 9 zeros (by decide)

end CPrograms.Httpd
