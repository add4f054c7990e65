import CPrograms.Basic.GetLine
import CPrograms.Lib.Traces
import Mathlib.Data.List.Infix
import Mathlib.Data.Nat.Find

/-!
# `basic/11_打印带有某个字符串的行.c`

`get_line` takes `'0'` for the end of the input: a line is cut at each, and only an empty string
ends the loop of `main`, so that without a `'0'` where a string starts it goes on for ever.
`strindex` takes `EOF` for the end of the string: it stops at a byte 255, as `char` is signed, and
it goes on behind the NUL where there is none.
-/

namespace CPrograms.Basic.PatternLines

open Buffers Lines Traces

def maxLine : Nat := 1000

/-! ## The program -/

/-- `'0'` -/
def zero : UInt8 := 48

/-- The test that ends the loop of `get_line`. -/
def stop (c : Int) : Bool := c = zero.toNat ∨ c = newline.toNat

/-- `get_line`; as `lim` is more than 1, `c` is set. -/
def getLine {n : Nat} (s : Buffer n) (lim : Nat) (input : List UInt8) : Option (Buffer n × Int × List UInt8) :=
  (fillLine stop (lim - 1) s 0 0 input).bind fun (s, i, c, input) =>
    if c = newline.toNat then
      (s.store i (toChar c)).bind fun s => (s.store (i + 1) 0).map fun s => (s, i + 1, input)
    else (s.store i 0).map fun s => (s, i, input)

/-- `s[i]`, with the index. -/
def read {n : Nat} (s : Buffer n) (i : Nat) : Traced Nat UInt8 :=
  match s.load i with
  | none => Traced.fault i
  | some c => do
    emit i
    pure c

/-- The inner loop of `strindex`, by what is left of `t`; where `k` ends, and `t[k]`. -/
def compareLoop {n : Nat} (s : Buffer n) : List UInt8 → Nat → Nat → Traced Nat (Nat × UInt8)
  | [], _, _ => Traced.stuck
  | c :: t, j, k =>
    if c = 0 then pure (k, c)
    else do
      let d ← read s j
      if d = c then compareLoop s t (j + 1) (k + 1) else pure (k, c)

/-- The loop of `strindex` from `i` on; `t` has its NUL. -/
def strindexLoop {n : Nat} (s : Buffer n) (t : List UInt8) (i : Nat) : Traced Nat Int :=
  match _h : s.load i with
  | none => Traced.fault i
  | some c => do
    emit i
    if fromChar c = eof then pure (-1)
    else do
      let r ← compareLoop s t i 0
      if r.1 > 0 ∧ r.2 = 0 then pure i else strindexLoop s t (i + 1)
termination_by n - i
decreasing_by
  have := load_lt _h
  omega

def strindex {n : Nat} (s : Buffer n) (t : List UInt8) : Traced Nat Int := strindexLoop s t 0

/-- A call of `strindex`, with the indices of `line` that it reads and what it gives, and one of
`printf`. -/
inductive Event
  | search (line : Buffer maxLine) (reads : List Nat) (answer : Option Int)
  | print (s : List UInt8)

def search (line : Buffer maxLine) (t : List UInt8) : Traced Event Int :=
  ⟨[.search line (strindex line t).events (strindex line t).result], (strindex line t).result⟩

/-- The loop of `main`. -/
def mainLoop (t : List UInt8) : Nat → Buffer maxLine → Int → List UInt8 → Traced Event Int
  | 0, _, _, _ => Traced.stuck
  | fuel + 1, line, found, input =>
    match getLine line maxLine input with
    | none => Traced.stuck
    | some (line, len, input) =>
      if len > 0 then do
        let index ← search line t
        if index ≥ 0 then
          match line.cString with
          | none => Traced.stuck
          | some s => do
            emit (.print s)
            match increment found with
            | none => Traced.stuck
            | some found => mainLoop t fuel line found input
        else mainLoop t fuel line found input
      else pure found

def main (pattern : List UInt8) (fuel : Nat) (line : Buffer maxLine) (input : List UInt8) : Traced Event Int :=
  mainLoop (pattern ++ [0]) fuel line 0 input

/-! ## What is promised -/

/-- The first place of `p` in `s`. -/
def IsFirst (p s : List UInt8) (m : Nat) : Prop := p <+: s.drop m ∧ ∀ i < m, ¬ p <+: s.drop i

/-- What `strindex` is to give. -/
def IsAnswer (p s : List UInt8) (a : Int) : Prop := (∃ m : Nat, a = m ∧ IsFirst p s m) ∨ a = -1 ∧ ¬ p <:+: s

def Event.Right (p : List UInt8) : Event → Prop
  | .search line reads answer =>
    ∃ s a, line.cString = some s ∧ answer = some a ∧ IsAnswer p s a ∧ ∀ i ∈ reads, i ≤ s.length
  | .print _ => True

def Event.output : Event → List UInt8
  | .search _ _ _ => []
  | .print s => s

/-- The lines, with their newlines. -/
def terminated (input : List UInt8) : List (List UInt8) :=
  (bodies input).map (· ++ [newline]) ++ if tail input = [] then [] else [tail input]

def expected (p input : List UInt8) : List UInt8 := ((terminated input).filter (p <:+: ·)).flatten

/-- It ends, with `out` printed, and each call of `strindex` is right. -/
def Ends (p out : List UInt8) (x : Traced Event Int) : Prop :=
  x.result ≠ none ∧ x.events.flatMap Event.output = out ∧ Only (Event.Right p) x

def PrintsMatching (p : List UInt8) (line : Buffer maxLine) (input : List UInt8) : Prop :=
  ∃ fuel, Ends p (expected p input) (main p fuel line input)

/-! ## `get_line` -/

section

variable {w : List UInt8}

theorem stop_iff (c : UInt8) : stop c.toNat = true ↔ c = zero ∨ c = newline := by
  unfold stop
  rw [decide_eq_true_iff, natCast_eq_iff, natCast_eq_iff]

theorem not_mem_of_stop {c : UInt8} (hc : stop c.toNat = true) (hw : ∀ b ∈ w, stop b.toNat = false) : c ∉ w := by
  intro hmem
  rw [hw c hmem] at hc
  exact Bool.false_ne_true hc

/-- A string that ends before a `'0'`. -/
theorem getLine_zero (s : Buffer maxLine) (hw : ∀ b ∈ w, stop b.toNat = false) (hlen : w.length < 999)
    (input : List UInt8) :
    getLine s maxLine (w ++ zero :: input) = some (s.overwrite (w ++ [0]), (w.length : Int), input) := by
  have hfill := @fillLine_start maxLine stop w (zero :: input) input 0 zero.toNat 999 rfl (by decide) s hw hlen
    (show w.length ≤ 1000 by omega)
  have hn : w.length < maxLine := show w.length < 1000 by omega
  unfold getLine
  rw [show maxLine - 1 = 999 from rfl, hfill, Option.bind_some]
  dsimp only
  rw [if_neg (by decide), store_overwrite rfl hn]
  rfl

/-- A string that ends with a newline. -/
theorem getLine_newline (s : Buffer maxLine) (hw : ∀ b ∈ w, stop b.toNat = false) (hlen : w.length < 999)
    (input : List UInt8) :
    getLine s maxLine (w ++ newline :: input) =
      some (s.overwrite (w ++ [newline] ++ [0]), ((w ++ [newline]).length : Int), input) := by
  have hfill := @fillLine_start maxLine stop w (newline :: input) input 0 newline.toNat 999 rfl
    (by decide) s hw hlen
    (show w.length ≤ 1000 by omega)
  have hsnoc : (w ++ [newline]).length = w.length + 1 := List.length_append
  have hn : w.length + 1 < maxLine := show w.length + 1 < 1000 by omega
  unfold getLine
  rw [show maxLine - 1 = 999 from rfl, hfill, Option.bind_some]
  dsimp only
  rw [if_pos rfl, toChar_natCast, store_overwrite rfl (Nat.lt_of_succ_lt hn), Option.bind_some,
    store_overwrite (by rw [hsnoc]; rfl) (by rw [hsnoc]; exact hn)]
  rw [hsnoc]
  rfl

/-- At the end of the input the array is filled. -/
theorem getLine_open (s : Buffer maxLine) (hw : ∀ b ∈ w, stop b.toNat = false) (hlen : w.length < 999) :
    ∃ s', getLine s maxLine w = some (s', 999, []) := by
  obtain ⟨s₁, c, hfill, hc⟩ := @fillLine_open maxLine stop (by decide) 999 s 0 0 w (by decide) hw
    (Nat.le_of_lt hlen) (by decide)
  have hfill : fillLine stop 999 s 0 0 w = some (s₁, 999, c, []) := hfill
  have hne : c ≠ newline.toNat := by
    rintro rfl
    exact absurd hc (by decide)
  unfold getLine
  rw [show maxLine - 1 = 999 from rfl, hfill, Option.bind_some]
  dsimp only
  rw [if_neg hne]
  exact ⟨_, rfl⟩

end

/-! ## `strindex` -/

theorem fromChar_eq_eof (c : UInt8) : fromChar c = eof ↔ c = 255 := by
  have hlt := c.toNat_lt
  have h255 : c = 255 ↔ c.toNat = 255 := UInt8.toNat_inj.symm
  unfold fromChar eof
  rw [h255]
  split
  · omega
  · omega

section

variable {n : Nat} {s : Buffer n} {p rest : List UInt8}

/-- The bytes `v` up to the NUL are compared with `q`, and no more. -/
theorem compareLoop_spec (q : List UInt8) : ∀ (pre v : List UInt8) (k : Nat), s.bytes = pre ++ v ++ 0 :: rest →
    0 ∉ q → ∃ r, (compareLoop s (q ++ [0]) pre.length k).result = some r ∧
      (r.1 = k + q.length ∧ r.2 = 0 ∧ q <+: v ∨ r.2 ≠ 0 ∧ ¬ q <+: v) ∧
      Only (· ≤ (pre ++ v).length) (compareLoop s (q ++ [0]) pre.length k) := by
  induction q with
  | nil =>
    intro pre v k _ _
    rw [List.nil_append, compareLoop, if_pos rfl]
    exact ⟨(k, 0), rfl, .inl ⟨rfl, rfl, List.nil_prefix⟩, only_pure _⟩
  | cons c q ih =>
    intro pre v k hbytes hq
    rw [List.mem_cons, not_or] at hq
    have hc : c ≠ 0 := Ne.symm hq.1
    rw [List.cons_append, compareLoop, if_neg hc]
    cases v with
    | nil =>
      -- the NUL is different from `c`
      have hread : read s pre.length = (do emit pre.length; pure 0) := by
        unfold read
        rw [load_of_bytes (by rw [hbytes, List.append_nil]) rfl]
      refine ⟨(k, c), ?_, .inr ⟨hc, fun h => List.cons_ne_nil _ _ (List.prefix_nil.1 h)⟩, ?_⟩
      · rw [hread, result_bind]
        show (if (0 : UInt8) = c then _ else _ : Traced Nat (Nat × UInt8)).result = _
        rw [if_neg (Ne.symm hc)]
        rfl
      · rw [hread, only_bind_of_result rfl, only_emit_bind, if_neg (Ne.symm hc)]
        refine ⟨⟨?_, only_pure _⟩, only_pure _⟩
        rw [List.append_nil]
    | cons d v =>
      have hread : read s pre.length = (do emit pre.length; pure d) := by
        unfold read
        rw [load_of_bytes (show s.bytes = pre ++ d :: (v ++ 0 :: rest) by rw [hbytes, List.append_assoc]; rfl) rfl]
      have hle : pre.length ≤ (pre ++ d :: v).length := by
        rw [List.length_append]
        exact Nat.le_add_right _ _
      have hcons : c :: q <+: d :: v ↔ d = c ∧ q <+: v := by
        rw [List.cons_prefix_cons, eq_comm]
      rw [hread, hcons, only_bind_of_result rfl, only_emit_bind, result_bind]
      show ∃ r, (if d = c then _ else _ : Traced Nat (Nat × UInt8)).result = some r ∧ _
      by_cases hd : d = c
      · have hassoc : pre ++ d :: v = (pre ++ [d]) ++ v := by
          rw [List.append_assoc]
          rfl
        have hlen : (pre ++ [d]).length = pre.length + 1 := List.length_append
        obtain ⟨r, hr, hcases, honly⟩ := ih (pre ++ [d]) v (k + 1) (by rw [hbytes, hassoc]) hq.2
        rw [hlen] at hr honly
        rw [if_pos hd, and_iff_right hd, hassoc]
        rw [hassoc] at hle
        refine ⟨r, hr, ?_, ⟨hle, only_pure _⟩, honly⟩
        rw [List.length_cons, Nat.add_comm q.length, ← Nat.add_assoc]
        exact hcases
      · rw [if_neg hd]
        exact ⟨(k, c), rfl, .inr ⟨hc, fun h => hd h.1⟩, ⟨hle, only_pure _⟩, only_pure _⟩

theorem strindexLoop_of_load {t : List UInt8} {i : Nat} {c : UInt8} (h : s.load i = some c) :
    strindexLoop s t i = (do
      emit i
      if fromChar c = eof then pure (-1)
      else do
        let r ← compareLoop s t i 0
        if r.1 > 0 ∧ r.2 = 0 then pure (i : Int) else strindexLoop s t (i + 1)) := by
  rw [strindexLoop]
  split
  · next h' => cases h.symm.trans h'
  · next h' => rw [Option.some.inj (h.symm.trans h')]

/-- The index is read, inside of the array or not. -/
theorem mem_events_strindexLoop (t : List UInt8) (i : Nat) : i ∈ (strindexLoop s t i).events := by
  rw [strindexLoop]
  split
  · exact List.mem_cons_self
  · rw [events_emit_bind]
    exact List.mem_cons_self

/-- At a byte 255 it ends. -/
theorem strindexLoop_stop {t pre v : List UInt8} (hbytes : s.bytes = pre ++ 255 :: v) :
    (strindexLoop s t pre.length).result = some (-1) ∧
      Only (· ≤ pre.length) (strindexLoop s t pre.length) := by
  rw [strindexLoop_of_load (load_of_bytes hbytes rfl), if_pos ((fromChar_eq_eof 255).2 rfl)]
  exact ⟨rfl, (only_emit_bind _ _).2 ⟨Nat.le_refl _, only_pure _⟩⟩

section

variable (hp : p ≠ []) (hpnul : 0 ∉ p)

include hp hpnul

/-- A turn where `s[i]` is some other byte. -/
theorem strindexLoop_turn {pre v : List UInt8} {c : UInt8} (hbytes : s.bytes = pre ++ v ++ 0 :: rest)
    (hload : s.load pre.length = some c) (hc : c ≠ 255) :
    (p <+: v → (strindexLoop s (p ++ [0]) pre.length).result = some (pre.length : Int) ∧
      Only (· ≤ (pre ++ v).length) (strindexLoop s (p ++ [0]) pre.length)) ∧
    (¬ p <+: v → (strindexLoop s (p ++ [0]) pre.length).result =
        (strindexLoop s (p ++ [0]) (pre.length + 1)).result ∧
      (Only (· ≤ (pre ++ v).length) (strindexLoop s (p ++ [0]) pre.length) ↔
        Only (· ≤ (pre ++ v).length) (strindexLoop s (p ++ [0]) (pre.length + 1)))) := by
  obtain ⟨r, hr, hcases, honly⟩ := compareLoop_spec p pre v 0 hbytes hpnul
  have hpos := List.length_pos_iff.2 hp
  have hle : pre.length ≤ (pre ++ v).length := by
    rw [List.length_append]
    exact Nat.le_add_right _ _
  rw [strindexLoop_of_load hload, if_neg fun h => hc ((fromChar_eq_eof c).1 h), only_emit_bind,
    only_bind_of_result hr, result_bind, result_emit, Option.bind_some, result_bind, hr, Option.bind_some]
  rcases hcases with ⟨hlen, hzero, hmatch⟩ | ⟨hne, hno⟩
  · rw [if_pos ⟨by omega, hzero⟩]
    exact ⟨fun _ => ⟨rfl, hle, honly, only_pure _⟩, fun hno => absurd hmatch hno⟩
  · rw [if_neg fun h => hne h.2]
    refine ⟨fun hmatch => absurd hmatch hno, fun _ => ⟨rfl, ?_⟩⟩
    rw [and_iff_right hle, and_iff_right honly]

/-- It goes on over `w`, where no string from a place in it is a match. -/
theorem strindexLoop_skip (w : List UInt8) : ∀ pre v : List UInt8, s.bytes = pre ++ (w ++ v) ++ 0 :: rest →
    255 ∉ w → (∀ i < w.length, ¬ p <+: (w ++ v).drop i) →
      (strindexLoop s (p ++ [0]) pre.length).result = (strindexLoop s (p ++ [0]) (pre ++ w).length).result ∧
        (Only (· ≤ (pre ++ (w ++ v)).length) (strindexLoop s (p ++ [0]) pre.length) ↔
          Only (· ≤ (pre ++ (w ++ v)).length) (strindexLoop s (p ++ [0]) (pre ++ w).length)) := by
  induction w with
  | nil =>
    intro pre v _ _ _
    rw [List.append_nil]
    exact ⟨rfl, Iff.rfl⟩
  | cons c w ih =>
    intro pre v hbytes hw hno
    rw [List.mem_cons, not_or] at hw
    have hassoc (l : List UInt8) : pre ++ c :: l = (pre ++ [c]) ++ l := by
      rw [List.append_assoc]
      rfl
    have hlen : (pre ++ [c]).length = pre.length + 1 := List.length_append
    have hload : s.load pre.length = some c :=
      @load_of_bytes n s pre (w ++ v ++ 0 :: rest) c pre.length (by rw [hbytes, List.append_assoc pre]; rfl) rfl
    obtain ⟨hresult, honly⟩ := (strindexLoop_turn hp hpnul hbytes hload (Ne.symm hw.1)).2
      (hno 0 (Nat.zero_lt_succ _))
    obtain ⟨hresult', honly'⟩ := ih (pre ++ [c]) v (by rw [← hassoc]; exact hbytes) hw.2 fun i hi =>
      hno (i + 1) (Nat.succ_lt_succ hi)
    rw [hlen, ← hassoc w] at hresult' honly'
    rw [← hassoc (w ++ v)] at honly'
    exact ⟨hresult.trans hresult', honly.trans honly'⟩

/-- A match after `w`, and none before. -/
theorem strindex_found {w v : List UInt8} {c : UInt8} (hbytes : s.bytes = w ++ c :: v ++ 0 :: rest)
    (hno : ∀ i < w.length, ¬ p <+: (w ++ c :: v).drop i) (hw : 255 ∉ w) (hc : c ≠ 255) (hmatch : p <+: c :: v) :
    (strindex s (p ++ [0])).result = some (w.length : Int) ∧
      Only (· ≤ (w ++ c :: v).length) (strindex s (p ++ [0])) := by
  obtain ⟨hresult, honly⟩ := strindexLoop_skip hp hpnul w [] (c :: v) hbytes hw hno
  have hload : s.load w.length = some c :=
    @load_of_bytes n s w (v ++ 0 :: rest) c w.length (by rw [hbytes, List.append_assoc]; rfl) rfl
  obtain ⟨hanswer, hreads⟩ := (strindexLoop_turn hp hpnul hbytes hload hc).1 hmatch
  exact ⟨hresult.trans hanswer, honly.2 hreads⟩

/-- A byte 255 after `w`, and no match before. -/
theorem strindex_stop {w v : List UInt8} (hbytes : s.bytes = w ++ 255 :: v ++ 0 :: rest)
    (hno : ∀ i < w.length, ¬ p <+: (w ++ 255 :: v).drop i) (hw : 255 ∉ w) :
    (strindex s (p ++ [0])).result = some (-1) ∧
      Only (· ≤ (w ++ 255 :: v).length) (strindex s (p ++ [0])) := by
  obtain ⟨hresult, honly⟩ := strindexLoop_skip hp hpnul w [] (255 :: v) hbytes hw hno
  obtain ⟨hanswer, hreads⟩ := @strindexLoop_stop n s (p ++ [0]) w (v ++ 0 :: rest)
    (by rw [hbytes, List.append_assoc]; rfl)
  refine ⟨hresult.trans hanswer, honly.2 fun i hi => Nat.le_trans (hreads i hi) ?_⟩
  rw [List.nil_append, List.length_append]
  exact Nat.le_add_right _ _

/-- Where it has no end in `u` it goes on behind it. -/
theorem strindex_past {u : List UInt8} (hbytes : s.bytes = u ++ 0 :: rest)
    (hno : ∀ i ≤ u.length, ¬ p <+: u.drop i) (hu : 255 ∉ u) : ¬ Only (· ≤ u.length) (strindex s (p ++ [0])) := by
  have hskip := strindexLoop_skip hp hpnul u [] [] (by rw [List.append_nil]; exact hbytes) hu
  rw [List.append_nil] at hskip
  obtain ⟨-, honly⟩ := hskip fun i hi => hno i (Nat.le_of_lt hi)
  -- and over the NUL
  have hturn := @strindexLoop_turn n s p rest hp hpnul u [] 0 (by rw [List.append_nil]; exact hbytes)
    (load_of_bytes hbytes rfl) (by decide)
  rw [List.append_nil] at hturn
  obtain ⟨-, honly'⟩ := hturn.2 fun h => hp (List.prefix_nil.1 h)
  intro h
  exact absurd (honly'.1 (honly.1 h) (u.length + 1) (mem_events_strindexLoop _ _)) (Nat.not_succ_le_self _)

end

end

/-! ### When it is right -/

section

variable {p u : List UInt8}

theorem infix_iff_drop : p <:+: u ↔ ∃ i, p <+: u.drop i := by
  constructor
  · rintro ⟨pre, suf, rfl⟩
    refine ⟨pre.length, ?_⟩
    rw [List.append_assoc, List.drop_left]
    exact List.prefix_append p suf
  · rintro ⟨i, h⟩
    exact h.isInfix.trans (List.drop_suffix i u).isInfix

theorem exists_isFirst (h : p <:+: u) : ∃ m, IsFirst p u m := by
  classical
  have hex := infix_iff_drop.1 h
  exact ⟨Nat.find hex, Nat.find_spec hex, fun i hi => Nat.find_min hex hi⟩

theorem isFirst_unique {m m' : Nat} (h : IsFirst p u m) (h' : IsFirst p u m') : m = m' := by
  rcases Nat.lt_trichotomy m m' with hlt | heq | hlt
  · exact absurd h.1 (h'.2 m hlt)
  · exact heq
  · exact absurd h'.1 (h.2 m' hlt)

/-- `p` is in `u` and no byte 255 comes up to the start of it; or `p` is not in `u`, and a byte
255 is. -/
def Searched (p u : List UInt8) : Prop :=
  (∃ m, IsFirst p u m ∧ 255 ∉ u.take (m + 1)) ∨ ¬ p <:+: u ∧ 255 ∈ u

/-- What is in `u`. -/
theorem isFirst_split {m : Nat} (hp : p ≠ []) (h : IsFirst p u m) :
    ∃ w c v, u = w ++ c :: v ∧ w.length = m ∧ p <+: c :: v := by
  have hm : m < u.length := by
    refine Nat.lt_of_not_le fun hle => hp ?_
    rw [← List.prefix_nil, ← List.drop_eq_nil_of_le hle]
    exact h.1
  have hdrop : u.drop m = u[m] :: u.drop (m + 1) := List.drop_eq_getElem_cons hm
  refine ⟨u.take m, u[m], u.drop (m + 1), ?_, List.length_take_of_le (Nat.le_of_lt hm), hdrop ▸ h.1⟩
  rw [← hdrop, List.take_append_drop]

theorem searched_of_isFirst {m : Nat} (h : IsFirst p u m) : Searched p u ↔ 255 ∉ u.take (m + 1) := by
  constructor
  · rintro (⟨m', h', hstop⟩ | ⟨hno, -⟩)
    · rwa [isFirst_unique h h']
    · exact absurd (infix_iff_drop.2 ⟨m, h.1⟩) hno
  · exact fun hstop => .inl ⟨m, h, hstop⟩

theorem isAnswer_none (h : p <:+: u) : ¬ IsAnswer p u (-1) := by
  rintro (⟨m, hm, -⟩ | ⟨-, hno⟩)
  · omega
  · exact hno h

/-- A call of `strindex`. -/
theorem strindex_iff {n : Nat} {s : Buffer n} {rest : List UInt8} (hp : p ≠ []) (hpnul : 0 ∉ p)
    (hbytes : s.bytes = u ++ 0 :: rest) :
    (∃ a, (strindex s (p ++ [0])).result = some a ∧ IsAnswer p u a ∧
      ∀ i ∈ (strindex s (p ++ [0])).events, i ≤ u.length) ↔ Searched p u := by
  by_cases hin : p <:+: u
  · obtain ⟨m, hfirst⟩ := exists_isFirst hin
    rw [searched_of_isFirst hfirst]
    by_cases hstop : 255 ∈ u.take (m + 1)
    · -- it stops too early
      obtain ⟨w, v, hv, hw⟩ := List.eq_append_cons_of_mem hstop
      have hu : u = w ++ 255 :: (v ++ u.drop (m + 1)) := by
        rw [← List.cons_append, ← List.append_assoc, ← hv, List.take_append_drop]
      have hlen : w.length ≤ m := by
        have := congrArg List.length hv
        rw [List.length_take, List.length_append, List.length_cons] at this
        omega
      have hbytes' := hbytes
      rw [hu] at hbytes'
      obtain ⟨hresult, -⟩ := strindex_stop hp hpnul hbytes'
        (fun i hi => hu ▸ hfirst.2 i (Nat.lt_of_lt_of_le hi hlen)) hw
      refine iff_of_false ?_ (fun h => h hstop)
      rintro ⟨a, ha, hanswer, -⟩
      rw [← Option.some.inj (hresult.symm.trans ha)] at hanswer
      exact isAnswer_none hin hanswer
    · obtain ⟨w, c, v, rfl, rfl, hmatch⟩ := isFirst_split hp hfirst
      rw [List.take_append, List.take_of_length_le (Nat.le_succ _), Nat.add_sub_cancel_left, List.mem_append,
        not_or] at hstop
      obtain ⟨hresult, honly⟩ := strindex_found hp hpnul hbytes hfirst.2 hstop.1
        (fun hc => hstop.2 (hc ▸ List.mem_cons_self)) hmatch
      refine iff_of_true ⟨w.length, hresult, .inl ⟨w.length, rfl, hfirst⟩, honly⟩ ?_
      rw [List.take_append, List.take_of_length_le (Nat.le_succ _), Nat.add_sub_cancel_left, List.mem_append]
      exact fun h => h.elim hstop.1 hstop.2
  · have hno (i : Nat) : ¬ p <+: u.drop i := fun h => hin (infix_iff_drop.2 ⟨i, h⟩)
    by_cases hstop : 255 ∈ u
    · obtain ⟨w, v, rfl, hw⟩ := List.eq_append_cons_of_mem hstop
      obtain ⟨hresult, honly⟩ := strindex_stop hp hpnul hbytes (fun i _ => hno i) hw
      exact iff_of_true ⟨-1, hresult, .inr ⟨rfl, hin⟩, honly⟩ (.inr ⟨hin, hstop⟩)
    · refine iff_of_false ?_ ?_
      · rintro ⟨a, -, -, hreads⟩
        exact strindex_past hp hpnul hbytes (fun i _ => hno i) hstop hreads
      · rintro (⟨m, hfirst, -⟩ | ⟨-, h⟩)
        · exact hno m hfirst.1
        · exact hstop h

end

/-! ## Where the lines are cut -/

/-- What the calls of `get_line` give: it is cut at each `'0'`, and after each newline. -/
def strings : List UInt8 → List (List UInt8)
  | [] => []
  | c :: input =>
    if c = zero then [] :: strings input
    else if c = newline then [c] :: strings input
    else
      match strings input with
      | [] => [[c]]
      | u :: us => (c :: u) :: us

/-- The strings up to the empty one that ends the loop. -/
def given (input : List UInt8) : List (List UInt8) := (strings input).takeWhile (· ≠ [])

section

variable {w input : List UInt8}

theorem ne_of_stop {c : UInt8} (hc : stop c.toNat = false) : c ≠ zero ∧ c ≠ newline :=
  not_or.1 fun h => Bool.false_ne_true (hc.symm.trans ((stop_iff c).2 h))

/-- The first string of what comes is longer by the word `w`. -/
theorem strings_word {us : List (List UInt8)} {u : List UInt8} (h : strings input = u :: us)
    (hw : ∀ b ∈ w, stop b.toNat = false) : strings (w ++ input) = (w ++ u) :: us := by
  induction w with
  | nil => exact h
  | cons c w ih =>
    obtain ⟨hc, hw⟩ := List.forall_mem_cons.1 hw
    rw [List.cons_append, strings, if_neg (ne_of_stop hc).1, if_neg (ne_of_stop hc).2, ih hw, List.cons_append]

theorem strings_zero (hw : ∀ b ∈ w, stop b.toNat = false) : strings (w ++ zero :: input) = w :: strings input := by
  rw [strings_word (show strings (zero :: input) = [] :: strings input from if_pos rfl) hw, List.append_nil]

theorem strings_newline (hw : ∀ b ∈ w, stop b.toNat = false) :
    strings (w ++ newline :: input) = (w ++ [newline]) :: strings input :=
  strings_word (by rw [strings, if_neg (by decide), if_pos rfl]) hw

theorem strings_open (hw : ∀ b ∈ w, stop b.toNat = false) : strings w = if w = [] then [] else [w] := by
  induction w with
  | nil => rfl
  | cons c w ih =>
    obtain ⟨hc, hw⟩ := List.forall_mem_cons.1 hw
    rw [strings, if_neg (ne_of_stop hc).1, if_neg (ne_of_stop hc).2, ih hw]
    by_cases hnil : w = []
    · rw [hnil]
      rfl
    · rw [if_neg hnil, if_neg (List.cons_ne_nil c w)]

/-- Behind a newline a string starts. -/
theorem strings_append (w input : List UInt8) :
    strings (w ++ newline :: input) = strings (w ++ [newline]) ++ strings input := by
  induction w using words_induction (fun b => stop b.toNat) with
  | last w hw =>
    rw [strings_newline hw, strings_newline hw]
    rfl
  | word w c w' hw hc ih =>
    rw [List.append_assoc, List.append_assoc, List.cons_append, List.cons_append]
    rcases (stop_iff c).1 hc with rfl | rfl
    · rw [strings_zero hw, strings_zero hw, ih]
      rfl
    · rw [strings_newline hw, strings_newline hw, ih]
      rfl

/-- A string is a part of it, without a `'0'`. -/
theorem mem_strings {u : List UInt8} (h : u ∈ strings input) : u <:+: input ∧ zero ∉ u := by
  induction input using words_induction (fun b => stop b.toNat) with
  | last w hw =>
    rw [strings_open hw] at h
    split at h
    · cases h
    · rw [List.mem_singleton.1 h]
      exact ⟨List.infix_rfl, not_mem_of_stop (by decide) hw⟩
  | word w c input hw hc ih =>
    have hrest : input <:+: w ++ c :: input := ((List.suffix_cons c input).trans (List.suffix_append w _)).isInfix
    have hzero : zero ∉ w := not_mem_of_stop (by decide) hw
    rcases (stop_iff c).1 hc with rfl | rfl
    · rw [strings_zero hw] at h
      rcases List.mem_cons.1 h with rfl | h
      · exact ⟨(List.prefix_append u _).isInfix, hzero⟩
      · exact ⟨(ih h).1.trans hrest, (ih h).2⟩
    · rw [strings_newline hw] at h
      rcases List.mem_cons.1 h with rfl | h
      · refine ⟨List.IsPrefix.isInfix ⟨input, by rw [List.append_assoc]; rfl⟩, ?_⟩
        rw [List.mem_append, not_or]
        exact ⟨hzero, by decide⟩
      · exact ⟨(ih h).1.trans hrest, (ih h).2⟩

/-- Without a `'0'` a line is not cut. -/
theorem stop_of_line (hw : newline ∉ w) (hzero : zero ∉ w) : ∀ b ∈ w, stop b.toNat = false := by
  intro b hb
  rw [← Bool.not_eq_true, stop_iff]
  rintro (rfl | rfl)
  · exact hzero hb
  · exact hw hb

end

/-! ## The loop of `main` -/

section

variable {p out : List UInt8}

theorem ends_pure (found : Int) : Ends p out (pure found) ↔ out = [] :=
  ⟨fun h => h.2.1.symm, fun h => ⟨Option.some_ne_none _, h.symm, only_pure _⟩⟩

theorem not_ends_stuck : ¬ Ends p out Traced.stuck := fun h => h.1 rfl

/-- What comes after a call of `strindex`. -/
theorem ends_search_bind (line : Buffer maxLine) (t : List UInt8) (f : Int → Traced Event Int) :
    Ends p out (search line t >>= f) ↔
      (Event.search line (strindex line t).events (strindex line t).result).Right p ∧
        ∃ a, (strindex line t).result = some a ∧ Ends p out (f a) := by
  unfold Ends
  cases hresult : (strindex line t).result with
  | none =>
    have hfault : (search line t).result = none := hresult
    rw [bind_of_fault hfault]
    exact iff_of_false (fun h => h.1 rfl) (fun ⟨_, a, h, _⟩ => nomatch h)
  | some a =>
    have hsome : (search line t).result = some a := hresult
    rw [result_bind, hsome, Option.bind_some, events_bind_of_result hsome,
      only_bind_of_result hsome, List.flatMap_append]
    have honly : Only (Event.Right p) (search line t) ↔
        (Event.search line (strindex line t).events (some a)).Right p := by
      rw [← hresult]
      exact List.forall_mem_singleton
    rw [honly]
    constructor
    · exact fun ⟨h, hout, hright, honly⟩ => ⟨hright, a, rfl, h, hout, honly⟩
    · rintro ⟨hright, a', ha, h, hout, honly⟩
      obtain rfl := Option.some.inj ha
      exact ⟨h, hout, hright, honly⟩

/-- What comes after a call of `printf`. -/
theorem ends_print_bind (s : List UInt8) (f : Unit → Traced Event Int) :
    Ends p out (emit (Event.print s) >>= f) ↔ ∃ out', out = s ++ out' ∧ Ends p out' (f ()) := by
  unfold Ends
  rw [result_bind, result_emit, Option.bind_some, events_emit_bind, only_emit_bind, List.flatMap_cons]
  constructor
  · exact fun ⟨h, hout, _, honly⟩ => ⟨_, hout.symm, h, rfl, honly⟩
  · rintro ⟨out', rfl, h, rfl, honly⟩
    exact ⟨h, rfl, trivial, honly⟩

/-- It ends from here, with `out` printed. -/
def Runs (p : List UInt8) (line : Buffer maxLine) (found : Nat) (input out : List UInt8) : Prop :=
  ∃ fuel, Ends p out (mainLoop (p ++ [0]) fuel line found input)

variable {line line' : Buffer maxLine} {found : Nat} {input rest u : List UInt8}

theorem runs_succ : Runs p line found input out ↔
    ∃ fuel, Ends p out (mainLoop (p ++ [0]) (fuel + 1) line found input) := by
  constructor
  · rintro ⟨fuel, h⟩
    cases fuel with
    | zero => exact absurd h not_ends_stuck
    | succ fuel => exact ⟨fuel, h⟩
  · exact fun ⟨fuel, h⟩ => ⟨fuel + 1, h⟩

/-- A turn where `get_line` gives something. -/
theorem mainLoop_turn {t : List UInt8} {fuel : Nat} {f len : Int}
    (hread : getLine line maxLine input = some (line', len, rest)) (hlen : len > 0) :
    mainLoop t (fuel + 1) line f input = (do
      let index ← search line' t
      if index ≥ 0 then
        match line'.cString with
        | none => Traced.stuck
        | some s => do
          emit (.print s)
          match increment f with
          | none => Traced.stuck
          | some f => mainLoop t fuel line' f rest
      else mainLoop t fuel line' f rest) := by
  rw [mainLoop, hread]
  exact if_pos hlen

/-- An empty string ends the loop. -/
theorem runs_zero : Runs p line found (zero :: rest) out ↔ out = [] := by
  have hread : getLine line maxLine (zero :: rest) = some (line.overwrite [0], 0, rest) :=
    @getLine_zero [] line (List.forall_mem_nil _) (by decide) rest
  have hend (fuel : Nat) : mainLoop (p ++ [0]) (fuel + 1) line found (zero :: rest) = pure (found : Int) := by
    rw [mainLoop, hread]
    exact if_neg (Int.lt_irrefl 0)
  simp only [runs_succ, hend, ends_pure, exists_const]

/-- At the end of the input it goes on for ever. -/
theorem not_runs_open {w : List UInt8} (hw : ∀ b ∈ w, stop b.toNat = false) (hlen : w.length < 999) :
    ¬ Runs p line found w out := by
  suffices hnone : ∀ (fuel : Nat) (line : Buffer maxLine) (f : Int) (w : List UInt8),
      (∀ b ∈ w, stop b.toNat = false) → w.length < 999 → (mainLoop (p ++ [0]) fuel line f w).result = none from
    fun ⟨fuel, h⟩ => h.1 (hnone fuel line found w hw hlen)
  intro fuel
  induction fuel with
  | zero => exact fun _ _ _ _ _ => rfl
  | succ fuel ih =>
    intro line f w hw hlen
    obtain ⟨line', hread⟩ := getLine_open line hw hlen
    have hrest (f : Int) := ih line' f [] (List.forall_mem_nil _) (by decide)
    rw [mainLoop_turn hread (by decide), result_bind]
    cases (search line' (p ++ [0])).result with
    | none => rfl
    | some index =>
      rw [Option.bind_some]
      split
      · split
        · rfl
        · rw [result_bind, result_emit, Option.bind_some]
          split
          · rfl
          · exact hrest _
      · exact hrest f

theorem right_search {s : Buffer maxLine} (hp : p ≠ []) (hpnul : 0 ∉ p) (hnul : 0 ∉ u)
    (hlen : u.length < maxLine) :
    (Event.search (s.overwrite (u ++ [0])) (strindex (s.overwrite (u ++ [0])) (p ++ [0])).events
      (strindex (s.overwrite (u ++ [0])) (p ++ [0])).result).Right p ↔ Searched p u := by
  rw [← strindex_iff hp hpnul (bytes_overwrite_string hlen)]
  constructor
  · rintro ⟨v, a, hv, h⟩
    obtain rfl := Option.some.inj ((cString_overwrite hnul hlen).symm.trans hv)
    exact ⟨a, h⟩
  · exact fun ⟨a, h⟩ => ⟨u, a, cString_overwrite hnul hlen, h⟩

/-- A string that is not empty. -/
theorem runs_string (hp : p ≠ []) (hpnul : 0 ∉ p) (hnul : 0 ∉ u) (hne : u ≠ []) (hlen : u.length < maxLine)
    (hread : getLine line maxLine input = some (line.overwrite (u ++ [0]), (u.length : Int), rest)) :
    Runs p line found input out ↔ Searched p u ∧
      if p <:+: u then
        found < intMax ∧ ∃ out', out = u ++ out' ∧ Runs p (line.overwrite (u ++ [0])) (found + 1) rest out'
      else Runs p (line.overwrite (u ++ [0])) found rest out := by
  have hpos := List.length_pos_iff.2 hne
  have hturn (fuel : Nat) := @mainLoop_turn line _ input rest (p ++ [0]) fuel found _ hread (by omega)
  rw [runs_succ]
  simp only [hturn, ends_search_bind, right_search hp hpnul hnul hlen, exists_and_left]
  refine and_congr_right fun hsearched => ?_
  obtain ⟨a, ha, hanswer, -⟩ := (strindex_iff hp hpnul (@bytes_overwrite_string maxLine line u hlen)).2 hsearched
  simp only [ha, Option.some.injEq, exists_eq_left', cString_overwrite hnul hlen]
  by_cases hin : p <:+: u
  · -- it is printed and counted
    obtain ⟨m, rfl, -⟩ := hanswer.resolve_right fun h => h.2 hin
    rw [if_pos hin]
    simp only [if_pos (Int.natCast_nonneg m), ends_print_bind, increment_eq]
    by_cases hfound : found < intMax
    · simp only [if_pos hfound, and_iff_right hfound]
      exact ⟨fun ⟨fuel, out', hout, h⟩ => ⟨out', hout, fuel, h⟩,
        fun ⟨out', hout, fuel, h⟩ => ⟨fuel, out', hout, h⟩⟩
    · simp only [if_neg hfound]
      exact iff_of_false (fun ⟨_, _, _, h⟩ => not_ends_stuck h) (fun h => hfound h.1)
  · have hneg : a = -1 := (hanswer.resolve_left fun ⟨m, _, h⟩ => hin (infix_iff_drop.2 ⟨m, h.1⟩)).1
    rw [if_neg hin, hneg]
    exact Iff.rfl

end

/-! ### All strings -/

/-- What becomes of the strings `us`, after `found` that were printed. -/
def Found (p : List UInt8) (found : Nat) (us : List (List UInt8)) (out : List UInt8) : Prop :=
  (∀ u ∈ us, Searched p u) ∧ found + (us.filter (p <:+: ·)).length ≤ intMax ∧ out = (us.filter (p <:+: ·)).flatten

section

variable {p : List UInt8} {found : Nat} {us : List (List UInt8)} {u out : List UInt8}

theorem found_nil (h : found ≤ intMax) : Found p found [] out ↔ out = [] := by
  unfold Found
  rw [and_iff_right (List.forall_mem_nil _)]
  exact and_iff_right h

theorem found_cons : Found p found (u :: us) out ↔ Searched p u ∧
    if p <:+: u then found < intMax ∧ ∃ out', out = u ++ out' ∧ Found p (found + 1) us out'
    else Found p found us out := by
  unfold Found
  rw [List.forall_mem_cons, and_assoc]
  refine and_congr_right fun _ => ?_
  by_cases hin : p <:+: u
  · have hfilter : (u :: us).filter (p <:+: ·) = u :: us.filter (p <:+: ·) :=
      List.filter_cons_of_pos (decide_eq_true hin)
    rw [if_pos hin, hfilter, List.length_cons, List.flatten_cons]
    constructor
    · rintro ⟨hall, hcount, hout⟩
      exact ⟨by omega, _, hout, hall, by omega, rfl⟩
    · rintro ⟨-, out', hout, hall, hcount, rfl⟩
      exact ⟨hall, by omega, hout⟩
  · have hfilter : (u :: us).filter (p <:+: ·) = us.filter (p <:+: ·) :=
      List.filter_cons_of_neg (mt of_decide_eq_true hin)
    rw [if_neg hin, hfilter]

variable {input rest : List UInt8}

theorem given_cons (hstrings : strings input = u :: strings rest) (hne : u ≠ []) :
    given input = u :: given rest := by
  unfold given
  rw [hstrings, List.takeWhile_cons, if_pos (decide_eq_true hne)]

/-- A string, and what comes after. -/
theorem runs_cons {line : Buffer maxLine} (hp : p ≠ []) (hpnul : 0 ∉ p) (hnul : 0 ∉ u) (hne : u ≠ [])
    (hlen : u.length < maxLine) (hstrings : strings input = u :: strings rest)
    (hread : getLine line maxLine input = some (line.overwrite (u ++ [0]), (u.length : Int), rest))
    (ih : ∀ (line : Buffer maxLine) (found : Nat) (out : List UInt8), found ≤ intMax →
      (Runs p line found rest out ↔ [] ∈ strings rest ∧ Found p found (given rest) out))
    (hfound : found ≤ intMax) :
    Runs p line found input out ↔ [] ∈ strings input ∧ Found p found (given input) out := by
  have hmem : [] ∈ u :: strings rest ↔ [] ∈ strings rest := by
    rw [List.mem_cons, or_iff_right (Ne.symm hne)]
  rw [runs_string hp hpnul hnul hne hlen hread, given_cons hstrings hne, hstrings, hmem, found_cons, and_left_comm]
  refine and_congr_right fun _ => ?_
  by_cases hin : p <:+: u
  · rw [if_pos hin, if_pos hin]
    constructor
    · rintro ⟨hcount, out', hout, hruns⟩
      obtain ⟨hstops, hrest⟩ := (ih _ _ out' hcount).1 hruns
      exact ⟨hstops, hcount, out', hout, hrest⟩
    · rintro ⟨hstops, hcount, out', hout, hrest⟩
      exact ⟨hcount, out', hout, (ih _ _ out' hcount).2 ⟨hstops, hrest⟩⟩
  · rw [if_neg hin, if_neg hin]
    exact ih _ _ out hfound

theorem runs_iff (hp : p ≠ []) (hpnul : 0 ∉ p) (input : List UInt8) : 0 ∉ input →
    (∀ v, newline ∉ v → v <:+: input → v.length < 999) →
      ∀ (line : Buffer maxLine) (found : Nat) (out : List UInt8), found ≤ intMax →
        (Runs p line found input out ↔ [] ∈ strings input ∧ Found p found (given input) out) := by
  induction input using words_induction (fun b => stop b.toNat) with
  | last w hw =>
    intro _ hlen line found out _
    have hempty : [] ∉ strings w := by
      rw [strings_open hw]
      split
      · exact List.not_mem_nil
      · next hne => exact fun h => hne (List.mem_singleton.1 h).symm
    exact iff_of_false (not_runs_open hw (hlen w (not_mem_of_stop (by decide) hw) List.infix_rfl))
      (fun h => hempty h.1)
  | word w c input hw hc ih =>
    intro hnul hlen line found out hfound
    rw [List.mem_append, not_or, List.mem_cons, not_or] at hnul
    have hshort := hlen w (not_mem_of_stop (by decide) hw) (List.prefix_append w _).isInfix
    have hsuffix : input <:+: w ++ c :: input :=
      ((List.suffix_cons c input).trans (List.suffix_append w _)).isInfix
    have hrest := ih hnul.2.2 fun v hv h => hlen v hv (h.trans hsuffix)
    rcases (stop_iff c).1 hc with rfl | rfl
    · by_cases hne : w = []
      · have hstrings : strings (zero :: input) = [] :: strings input := if_pos rfl
        have hgiven : given (zero :: input) = [] := by
          unfold given
          rw [hstrings]
          rfl
        have hmem : [] ∈ strings (zero :: input) := by
          rw [hstrings]
          exact List.mem_cons_self
        rw [hne, List.nil_append, runs_zero, hgiven, and_iff_right hmem, found_nil hfound]
      · exact runs_cons hp hpnul hnul.1 hne (show w.length < 1000 by omega) (strings_zero hw)
          (getLine_zero line hw hshort input) hrest hfound
    · have hlen' : (w ++ [newline]).length = w.length + 1 := List.length_append
      refine runs_cons hp hpnul ?_ (List.append_ne_nil_of_right_ne_nil _ (List.cons_ne_nil _ _))
        (show (w ++ [newline]).length < 1000 by omega) (strings_newline hw) (getLine_newline line hw hshort input)
        hrest hfound
      rw [List.mem_append, not_or]
      exact ⟨hnul.1, by decide⟩

end

/-! ## The lines that are printed -/

/-- The lines before the one where the loop ends. -/
def before (input : List UInt8) : List (List UInt8) := (terminated input).takeWhile ([] ∉ strings ·)

def behind (input : List UInt8) : List (List UInt8) := (terminated input).dropWhile ([] ∉ strings ·)

section

variable {p w input : List UInt8}

theorem terminated_line (hw : newline ∉ w) (input : List UInt8) :
    terminated (w ++ newline :: input) = (w ++ [newline]) :: terminated input := by
  unfold terminated
  rw [bodies_line hw, tail_line hw, List.map_cons, List.cons_append]

theorem terminated_open (hw : newline ∉ w) : terminated w = if w = [] then [] else [w] := by
  unfold terminated
  rw [bodies_open hw, tail_open hw]
  rfl

/-- What has no `p` in it has none when it is cut. -/
theorem filter_strings_of_not {l : List UInt8} (h : ¬ p <:+: l) {us : List (List UInt8)}
    (hus : ∀ u ∈ us, u ∈ strings l) :
    us.filter (p <:+: ·) = [] := by
  rw [List.filter_eq_nil_iff]
  intro u hu hin
  exact h ((of_decide_eq_true hin).trans (mem_strings (hus u hu)).1)

/-- A line `l`, and what comes after it. -/
theorem filter_line {l : List UInt8} {ls us : List (List UInt8)} (hne : l ≠ [])
    (huncut : zero ∉ l → strings l = [l])
    (hwhole : p <:+: l → zero ∉ l)
    (hrest : (us.takeWhile (· ≠ [])).filter (p <:+: ·) = (ls.takeWhile ([] ∉ strings ·)).filter (p <:+: ·)) :
    ((strings l ++ us).takeWhile (· ≠ [])).filter (p <:+: ·) =
      ((l :: ls).takeWhile ([] ∉ strings ·)).filter (p <:+: ·) := by
  by_cases hempty : [] ∈ strings l
  · -- the loop ends in the line
    have hzero : zero ∈ l := by
      by_contra h
      rw [huncut h] at hempty
      exact hne (List.mem_singleton.1 hempty).symm
    obtain ⟨us₁, us₂, hus, hbefore⟩ := List.eq_append_cons_of_mem hempty
    have hgiven : (strings l ++ us).takeWhile (· ≠ []) = us₁ := by
      rw [hus, List.append_assoc, List.takeWhile_append_of_pos, List.cons_append, List.takeWhile_cons,
        if_neg (by decide), List.append_nil]
      exact fun u hu => decide_eq_true fun h => hbefore (h ▸ hu)
    rw [hgiven, List.takeWhile_cons, if_neg (by rw [decide_eq_true_iff]; exact not_not_intro hempty)]
    refine filter_strings_of_not (fun h => hwhole h hzero) fun u hu => ?_
    rw [hus]
    exact List.mem_append_left _ hu
  · have hstrings : (strings l).filter (p <:+: ·) = [l].filter (p <:+: ·) := by
      by_cases hzero : zero ∈ l
      · have hno : ¬ p <:+: l := fun h => hwhole h hzero
        have hline : [l].filter (p <:+: ·) = [] := List.filter_cons_of_neg (mt of_decide_eq_true hno)
        rw [filter_strings_of_not hno fun u hu => hu, hline]
      · rw [huncut hzero]
    have hnonempty : ∀ u ∈ strings l, decide (u ≠ []) = true := by
      intro u hu
      refine decide_eq_true ?_
      rintro rfl
      exact hempty hu
    rw [List.takeWhile_append_of_pos hnonempty, List.takeWhile_cons, if_pos (decide_eq_true hempty),
      List.filter_append, hstrings, hrest, ← List.filter_append]
    rfl

/-- Where no line with `p` in it is cut. -/
theorem filter_given (input : List UInt8) : (∀ l ∈ terminated input, p <:+: l → zero ∉ l) →
    (given input).filter (p <:+: ·) = (before input).filter (p <:+: ·) := by
  unfold given before
  induction input using lines_induction with
  | last w hw =>
    rw [terminated_open hw]
    split
    · next hnil =>
      intro _
      rw [hnil]
      rfl
    · next hne =>
      intro hwhole
      have huncut : zero ∉ w → strings w = [w] := fun hzero =>
        (strings_open (stop_of_line hw hzero)).trans (if_neg hne)
      have hline := @filter_line p w [] [] hne huncut (hwhole w List.mem_cons_self) rfl
      rwa [List.append_nil] at hline
  | line w input hw ih =>
    rw [terminated_line hw, strings_append]
    intro hwhole
    obtain ⟨hline, hwhole⟩ := List.forall_mem_cons.1 hwhole
    refine filter_line (List.append_ne_nil_of_right_ne_nil _ (List.cons_ne_nil _ _))
      (fun hzero => ?_) hline (ih hwhole)
    rw [List.mem_append, not_or] at hzero
    exact strings_newline (stop_of_line hw hzero.1)

/-- When what is printed is what is to be. -/
theorem printed_iff (hp : p ≠ []) : expected p input = ((given input).filter (p <:+: ·)).flatten ↔
    (∀ l ∈ before input, p <:+: l → zero ∉ l) ∧ ∀ l ∈ behind input, ¬ p <:+: l := by
  have hlines : before input ++ behind input = terminated input := List.takeWhile_append_dropWhile
  have hsplit : expected p input =
      ((before input).filter (p <:+: ·)).flatten ++ ((behind input).filter (p <:+: ·)).flatten := by
    unfold expected
    rw [← hlines, List.filter_append, List.flatten_append]
  constructor
  · intro h
    have hzero : zero ∉ expected p input := by
      rw [h, List.mem_flatten]
      rintro ⟨u, hu, hmem⟩
      exact (mem_strings ((List.takeWhile_sublist _).subset (List.mem_of_mem_filter hu))).2 hmem
    have hwhole : ∀ l ∈ terminated input, p <:+: l → zero ∉ l := fun l hl hin hmem =>
      hzero (List.mem_flatten.2 ⟨l, List.mem_filter.2 ⟨hl, decide_eq_true hin⟩, hmem⟩)
    rw [hsplit, filter_given input hwhole, List.append_right_eq_self, List.flatten_eq_nil_iff] at h
    refine ⟨fun l hl => hwhole l (hlines ▸ List.mem_append_left _ hl), fun l hl hin => hp ?_⟩
    have hnil := h l (List.mem_filter.2 ⟨hl, decide_eq_true hin⟩)
    exact List.infix_nil.1 (hnil ▸ hin)
  · rintro ⟨hwhole, hno⟩
    have hall : ∀ l ∈ terminated input, p <:+: l → zero ∉ l := by
      rw [← hlines]
      exact List.forall_mem_append.2 ⟨hwhole, fun l hl hin => absurd hin (hno l hl)⟩
    have hnone : (behind input).filter (p <:+: ·) = [] :=
      List.filter_eq_nil_iff.2 fun l hl hin => hno l hl (of_decide_eq_true hin)
    rw [hsplit, filter_given input hall, hnone]
    exact List.append_nil _

end

/-- When the lines with `p` are printed: there is a `'0'` where a string starts; up to there no
line with `p` has a `'0'`, and from there on no line has `p`; and the strings up to there are
`Searched`, not too many of them with `p`. -/
structure Handled (p input : List UInt8) : Prop where
  stops : [] ∈ strings input
  whole : ∀ l ∈ before input, p <:+: l → zero ∉ l
  none_behind : ∀ l ∈ behind input, ¬ p <:+: l
  searched : ∀ u ∈ given input, Searched p u
  counted : ((given input).filter (p <:+: ·)).length ≤ intMax

theorem printsMatching_iff {p input : List UInt8} (line : Buffer maxLine) (hp : p ≠ [])
    (hpnul : 0 ∉ p) (hnul : 0 ∉ input)
    (hlen : ∀ w ∈ lines input, w.length < 999) :
    PrintsMatching p line input ↔ [] ∈ strings input ∧ Found p 0 (given input) (expected p input) := by
  refine runs_iff hp hpnul input hnul ?_ line 0 (expected p input) (Nat.zero_le _)
  intro v hv h
  by_cases hne : v = []
  · rw [hne]
    decide
  · exact length_lt_of_infix hv hne hlen h

/-- **The lines with the pattern.**  When they are what is printed, and every search is right. -/
theorem matching_lines_iff {p input : List UInt8} (line : Buffer maxLine) (hp : p ≠ []) (hpnul : 0 ∉ p)
    (hnul : 0 ∉ input) (hlen : ∀ w ∈ lines input, w.length < 999) :
      PrintsMatching p line input ↔ Handled p input := by
  have hprints := printsMatching_iff line hp hpnul hnul hlen
  unfold Found at hprints
  rw [printed_iff hp, Nat.zero_add] at hprints
  rw [hprints]
  exact ⟨fun ⟨hstops, hsearched, hcount, hwhole, hno⟩ => ⟨hstops, hwhole, hno, hsearched, hcount⟩,
    fun h => ⟨h.stops, h.searched, h.counted, h.whole, h.none_behind⟩⟩

/-- `ould`, the pattern of the program. -/
def pattern : List UInt8 := [111, 117, 108, 100]

/-- `would`, a newline, and a `'0'`. -/
theorem matching_lines_would : PrintsMatching pattern zeros [119, 111, 117, 108, 100, 10, 48] := by
  refine (matching_lines_iff zeros (by decide) (by decide) (by decide) (by decide)).2
    ⟨by decide, by decide, by decide, ?_, by decide⟩
  intro u hu
  rw [List.mem_singleton.1 (show u ∈ [[119, 111, 117, 108, 100, 10]] from hu)]
  exact .inl ⟨1, ⟨by decide, by decide⟩, by decide⟩

/-- `would` and a newline: it is printed, but then the end of the input is not seen. -/
theorem would_not_ended : ¬ PrintsMatching pattern zeros [119, 111, 117, 108, 100, 10] := by
  intro h
  exact absurd ((printsMatching_iff zeros (by decide) (by decide) (by decide) (by decide)).1 h).1 (by decide)

end CPrograms.Basic.PatternLines
