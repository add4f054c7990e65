import CPrograms.Mytbf.Conformance
import Mathlib.Logic.Function.Iterate

/-!
# The bucket and the asynchronous tick

Here each read and write of `tbf->token` in `mytbf_fetchtoken` and `mytbf_returntoken` is a
step of its own, and the handler runs between any two of them.  A result is good if the
handler runs could all have come before or after one undivided update (`FetchOk`, `BackOk`).
The calls re-read `token` and write it back without blocking the signal, so it can fail
(`fetch_takes_too_much`); `Harmless` says of each point of the calls which ticks do no harm
there, and with no others every result is good (`calls_safe`).
-/

namespace CPrograms.Mytbf

open Runs

/-- The next access to `tbf->token`. -/
inductive Pc
  -- `mytbf_fetchtoken`
  | test
  | pause
  | compare
  | arm
  | load (n : Int)
  | store (n v : Int)
  -- `mytbf_returntoken`
  | loadBack
  | storeBack (v : Int)
  | check
  | clamp
  | ret (n : Int)

structure Call where
  pc : Pc
  tbf : Tbf

inductive Access
  | prog
  | tick
deriving DecidableEq

/-- The next access of a call with `size > 0`. -/
def access (size : Int) (c : Call) : Option Call :=
  match c.pc with
  | .test => some { c with pc := if c.tbf.token ≤ 0 then .pause else .compare }
  | .pause => some { c with pc := .test }
  | .compare => some { c with pc := if c.tbf.token < size then .arm else .load size }
  | .arm => some { c with pc := .load c.tbf.token }
  | .load n => some { c with pc := .store n (c.tbf.token - n) }
  | .store n v => some ⟨.ret n, { c.tbf with token := v }⟩
  | .loadBack => some { c with pc := .storeBack (c.tbf.token + size) }
  | .storeBack v => some ⟨.check, { c.tbf with token := v }⟩
  | .check => some { c with pc := if c.tbf.token > c.tbf.burst then .clamp else .ret size }
  | .clamp => some ⟨.ret size, { c.tbf with token := c.tbf.burst }⟩
  | .ret _ => none

def stepA (size : Int) (c : Call) : Access → Option Call
  | .prog => access size c
  | .tick => some { c with tbf := c.tbf.tick }

def StepA (size : Int) (c : Call) (e : Access) (c' : Call) : Prop := stepA size c e = some c'

/-! ## Serial executions -/

/-- `k` ticks and one undivided fetch, in some order, give `n` and leave `b'`. -/
def SerialFetch (b : Tbf) (size : Int) (k : Nat) (n : Int) (b' : Tbf) : Prop :=
  ∃ j i, j + i = k ∧ 0 < (Tbf.tick^[j] b).token ∧ n = ((Tbf.tick^[j] b).fetch size).1 ∧
    b' = Tbf.tick^[i] ((Tbf.tick^[j] b).fetch size).2

/-- `k` ticks and one undivided return, in some order, leave `b'`. -/
def SerialBack (b : Tbf) (size : Int) (k : Nat) (b' : Tbf) : Prop :=
  ∃ j i, j + i = k ∧ b' = Tbf.tick^[i] ((Tbf.tick^[j] b).giveBack size)

def FetchOk (b : Tbf) (size : Int) (k : Nat) (n : Int) (b' : Tbf) : Prop :=
  1 ≤ n ∧ n ≤ size ∧ SerialFetch b size k n b'

def BackOk (b : Tbf) (size : Int) (k : Nat) (n : Int) (b' : Tbf) : Prop :=
  n = size ∧ SerialBack b size k b'

/-- A tick does no harm here: the value chosen is still a fetch of the bucket after it, or
the update commutes with it; and no value read before it is going to be written back. -/
def HarmlessAt (size : Int) (c : Call) : Prop :=
  match c.pc with
  | .arm => c.tbf.tick.token ≤ size
  | .load n => n = min c.tbf.tick.token size ∨ c.tbf.token + c.tbf.csp ≤ c.tbf.burst
  | .store n _ => c.tbf.tick.token = c.tbf.token ∧ n = min c.tbf.token size
  | .storeBack v => c.tbf.burst ≤ v
  | _ => True

def Harmless (size : Int) (c : Call) (e : Access) : Prop := e = .tick → HarmlessAt size c

section
variable {b b' : Tbf} {size n : Int} {k : Nat} {c c' : Call}

theorem level_iterate (hb : Level b) (k : Nat) : Level (Tbf.tick^[k] b) := by
  induction k with
  | zero => exact hb
  | succ k ih =>
    rw [Function.iterate_succ_apply']
    exact ih.tick

theorem iterate_params (b : Tbf) (k : Nat) : (Tbf.tick^[k] b).csp = b.csp ∧ (Tbf.tick^[k] b).burst = b.burst := by
  induction k with
  | zero => exact ⟨rfl, rfl⟩
  | succ k ih =>
    rw [Function.iterate_succ_apply']
    exact ih

theorem fetch_amount (b : Tbf) (size : Int) : (b.fetch size).1 = min b.token size := by
  simp only [Tbf.fetch]
  split <;> omega

theorem fetch_rest (b : Tbf) (size : Int) : (b.fetch size).2 = { b with token := b.token - min b.token size } := by
  have h := fetch_amount b size
  simp only [Tbf.fetch] at h ⊢
  rw [h]

theorem tick_eq (b : Tbf) : b.tick = { b with token := min (b.token + b.csp) b.burst } := by
  have h := tick_token b
  simp only [Tbf.tick] at h ⊢
  rw [h]

/-- The fetch that happens after all ticks so far. -/
theorem serialFetch_now (h0 : 0 < (Tbf.tick^[k] b).token) (hn : n = min (Tbf.tick^[k] b).token size) :
    SerialFetch b size k n { Tbf.tick^[k] b with token := (Tbf.tick^[k] b).token - n } := by
  refine ⟨k, 0, rfl, h0, ?_, ?_⟩
  · rw [fetch_amount]
    exact hn
  · rw [fetch_rest, hn]
    rfl

theorem SerialFetch.tick (h : SerialFetch b size k n b') : SerialFetch b size (k + 1) n b'.tick := by
  obtain ⟨j, i, rfl, h0, hn, rfl⟩ := h
  exact ⟨j, i + 1, rfl, h0, hn, (Function.iterate_succ_apply' ..).symm⟩

theorem SerialBack.tick (h : SerialBack b size k b') : SerialBack b size (k + 1) b'.tick := by
  obtain ⟨j, i, rfl, rfl⟩ := h
  exact ⟨j, i + 1, rfl, (Function.iterate_succ_apply' ..).symm⟩

theorem SerialFetch.bounds (h : SerialFetch b size k n b') (hs : 0 < size) : 1 ≤ n ∧ n ≤ size := by
  obtain ⟨j, i, -, h0, rfl, -⟩ := h
  exact ⟨(fetch_spec h0 hs).1, (fetch_spec h0 hs).2.1⟩

/-! ## `mytbf_fetchtoken` -/

/-- Where the call stands after `k` ticks, none of which did harm. -/
def Fetching (b : Tbf) (size : Int) (k : Nat) (c : Call) : Prop :=
  match c.pc with
  | .test | .pause => c.tbf = Tbf.tick^[k] b
  | .compare => c.tbf = Tbf.tick^[k] b ∧ 0 < c.tbf.token
  | .arm => c.tbf = Tbf.tick^[k] b ∧ 0 < c.tbf.token ∧ c.tbf.token ≤ size
  | .load n => c.tbf = Tbf.tick^[k] b ∧ SerialFetch b size k n { c.tbf with token := c.tbf.token - n }
  | .store n v => c.tbf = Tbf.tick^[k] b ∧ v = c.tbf.token - n ∧
      SerialFetch b size k n { c.tbf with token := v }
  | .ret n => SerialFetch b size k n c.tbf
  | _ => False

theorem Fetching.access (h : Fetching b size k c) (ha : access size c = some c') : Fetching b size k c' := by
  obtain ⟨pc, tbf⟩ := c
  cases pc with
  | test =>
    cases ha
    by_cases h0 : tbf.token ≤ 0
    · rw [if_pos h0]
      exact h
    · rw [if_neg h0]
      exact ⟨h, by simpa using h0⟩
  | pause => cases ha; exact h
  | compare =>
    cases ha
    obtain ⟨htbf, h0⟩ := h
    dsimp only at htbf h0
    by_cases hlt : tbf.token < size
    · rw [if_pos hlt]
      exact ⟨htbf, h0, Int.le_of_lt hlt⟩
    · rw [if_neg hlt]
      subst htbf
      exact ⟨rfl, serialFetch_now h0 (by omega)⟩
  | arm =>
    cases ha
    obtain ⟨htbf, h0, hle⟩ := h
    dsimp only at htbf h0 hle
    subst htbf
    exact ⟨rfl, serialFetch_now h0 (Int.min_eq_left hle).symm⟩
  | load n => cases ha; exact ⟨h.1, rfl, h.2⟩
  | store n v => cases ha; exact h.2.2
  | loadBack | storeBack | check | clamp => exact h.elim
  | ret n => cases ha

theorem tick_token_le (hb : Level b) : b.token ≤ b.tick.token := by
  have := hb.csp
  have := hb.le
  rw [tick_token]
  omega

theorem Fetching.tick (hb : Level b) (hs : 0 < size) (h : Fetching b size k c) (hc : HarmlessAt size c) :
    Fetching b size (k + 1) { c with tbf := c.tbf.tick } := by
  obtain ⟨pc, tbf⟩ := c
  have hlevel := level_iterate hb k
  have hsucc : (Tbf.tick^[k] b).tick = Tbf.tick^[k + 1] b := (Function.iterate_succ_apply' ..).symm
  cases pc with
  | test | pause =>
    have htbf : tbf = Tbf.tick^[k] b := h
    subst htbf
    exact hsucc
  | compare =>
    obtain ⟨htbf, h0⟩ := h
    dsimp only at htbf h0
    subst htbf
    have := tick_token_le hlevel
    exact ⟨hsucc, by show 0 < (Tbf.tick^[k] b).tick.token; omega⟩
  | arm =>
    obtain ⟨htbf, h0, hle⟩ := h
    dsimp only at htbf h0 hle
    subst htbf
    have := tick_token_le hlevel
    exact ⟨hsucc, by show 0 < (Tbf.tick^[k] b).tick.token; omega, hc⟩
  | load n =>
    obtain ⟨htbf, hserial⟩ := h
    dsimp only at htbf hserial
    subst htbf
    refine ⟨hsucc, ?_⟩
    rcases hc with hn | hroom
    · -- the fetch may as well come after this tick
      have h1 := hserial.bounds hs
      dsimp only at hn ⊢
      rw [hsucc] at hn ⊢
      exact serialFetch_now (by omega) hn
    · have h1 := hserial.bounds hs
      have ht := hserial.tick
      rw [tick_eq] at ht ⊢
      dsimp only at hroom ht ⊢
      rw [Int.min_eq_left (by omega)] at ht ⊢
      rwa [show (Tbf.tick^[k] b).token - n + (Tbf.tick^[k] b).csp =
        (Tbf.tick^[k] b).token + (Tbf.tick^[k] b).csp - n by omega] at ht
  | store n v =>
    obtain ⟨htbf, hv, hserial⟩ := h
    dsimp only at htbf hv hserial
    subst htbf
    obtain ⟨hsame, hn⟩ := hc
    dsimp only at hsame hn
    have h1 := hserial.bounds hs
    rw [← hsame] at hv hn
    rw [hsucc] at hv hn
    refine ⟨hsucc, by dsimp only; rw [hsucc]; exact hv, ?_⟩
    dsimp only
    rw [hsucc, hv]
    exact serialFetch_now (by omega) hn
  | loadBack | storeBack | check | clamp => exact h.elim
  | ret n => exact SerialFetch.tick h

theorem count_snoc (es : List Access) (e : Access) :
    (es ++ [e]).count .tick = es.count .tick + if e = .tick then 1 else 0 := by
  cases e <;> simp

theorem run_fetching (hb : Level b) (hs : 0 < size) {es : List Access}
    (h : Run (Under (StepA size) (Harmless size)) ⟨.test, b⟩ es c) : Fetching b size (es.count .tick) c := by
  refine h.history (fun es c => Fetching b size (es.count .tick) c) ?_ rfl
  rintro es u (_ | _) v hu ⟨hstep, hharm⟩
  · rw [count_snoc]
    exact hu.access hstep
  · rw [count_snoc]
    cases hstep
    exact hu.tick hb hs (hharm rfl)

/-! ## `mytbf_returntoken` -/

theorem giveBack_eq (b : Tbf) (size : Int) :
    b.giveBack size = { b with token := min (b.token + size) b.burst } := by
  have h := giveBack_token b size
  simp only [Tbf.giveBack] at h ⊢
  rw [h]

/-- Where the call stands after `k` ticks, none of which did harm. -/
def Returning (b : Tbf) (size : Int) (k : Nat) (c : Call) : Prop :=
  match c.pc with
  | .loadBack => c.tbf = Tbf.tick^[k] b
  | .storeBack v => c.tbf = Tbf.tick^[k] b ∧ (v = c.tbf.token + size ∨ c.tbf.burst ≤ v) ∧
      SerialBack b size k { c.tbf with token := min v c.tbf.burst }
  | .check => c.tbf.csp = b.csp ∧ SerialBack b size k { c.tbf with token := min c.tbf.token c.tbf.burst }
  | .clamp => c.tbf.csp = b.csp ∧ SerialBack b size k { c.tbf with token := c.tbf.burst }
  | .ret n => n = size ∧ SerialBack b size k c.tbf
  | _ => False

theorem Returning.access (h : Returning b size k c) (ha : access size c = some c') :
    Returning b size k c' := by
  obtain ⟨pc, tbf⟩ := c
  cases pc with
  | loadBack =>
    cases ha
    have htbf : tbf = Tbf.tick^[k] b := h
    subst htbf
    exact ⟨rfl, .inl rfl, k, 0, rfl, (giveBack_eq ..).symm⟩
  | storeBack v =>
    cases ha
    obtain ⟨htbf, -, hserial⟩ := h
    dsimp only at htbf
    subst htbf
    exact ⟨(iterate_params b k).1, hserial⟩
  | check =>
    cases ha
    obtain ⟨hcsp, hserial⟩ := h
    dsimp only at hcsp hserial
    by_cases hover : tbf.token > tbf.burst
    · rw [if_pos hover]
      rw [Int.min_eq_right (Int.le_of_lt hover)] at hserial
      exact ⟨hcsp, hserial⟩
    · rw [if_neg hover]
      rw [Int.min_eq_left (by omega)] at hserial
      exact ⟨rfl, hserial⟩
  | clamp => cases ha; exact ⟨rfl, h.2⟩
  | test | pause | compare | arm | load | store => exact h.elim
  | ret n => cases ha

theorem Returning.tick (hb : Level b) (h : Returning b size k c) (hc : HarmlessAt size c) :
    Returning b size (k + 1) { c with tbf := c.tbf.tick } := by
  obtain ⟨pc, tbf⟩ := c
  have hcsp := hb.csp
  have hsucc : (Tbf.tick^[k] b).tick = Tbf.tick^[k + 1] b := (Function.iterate_succ_apply' ..).symm
  cases pc with
  | loadBack =>
    have htbf : tbf = Tbf.tick^[k] b := h
    subst htbf
    exact hsucc
  | storeBack v =>
    obtain ⟨htbf, -, hserial⟩ := h
    have hv : tbf.burst ≤ v := hc
    have hp := (iterate_params b k).1
    dsimp only at htbf hserial
    subst htbf
    -- what was read is at the brim already: the tick adds nothing
    have ht := hserial.tick
    rw [tick_eq] at ht
    dsimp only at ht
    refine ⟨hsucc, .inr hv, ?_⟩
    dsimp only
    rw [tick_eq]
    dsimp only
    rw [Int.min_eq_right hv, Int.min_eq_right (by omega)] at ht
    rw [Int.min_eq_right hv]
    exact ht
  | check =>
    obtain ⟨hp, hserial⟩ := h
    dsimp only at hp hserial
    have ht := hserial.tick
    rw [tick_eq] at ht
    dsimp only at ht
    refine ⟨hp, ?_⟩
    dsimp only
    rw [tick_eq]
    dsimp only
    rwa [show min (min tbf.token tbf.burst + tbf.csp) tbf.burst =
      min (min (tbf.token + tbf.csp) tbf.burst) tbf.burst by omega] at ht
  | clamp =>
    obtain ⟨hp, hserial⟩ := h
    dsimp only at hp hserial
    have ht := hserial.tick
    rw [tick_eq] at ht
    dsimp only at ht
    rw [Int.min_eq_right (by omega)] at ht
    exact ⟨hp, ht⟩
  | test | pause | compare | arm | load | store => exact h.elim
  | ret n => exact ⟨h.1, h.2.tick⟩

theorem run_returning (hb : Level b) {es : List Access}
    (h : Run (Under (StepA size) (Harmless size)) ⟨.loadBack, b⟩ es c) :
    Returning b size (es.count .tick) c := by
  refine h.history (fun es c => Returning b size (es.count .tick) c) ?_ rfl
  rintro es u (_ | _) v hu ⟨hstep, hharm⟩
  · rw [count_snoc]
    exact hu.access hstep
  · rw [count_snoc]
    cases hstep
    exact hu.tick hb (hharm rfl)

/-! ## The other ticks do harm -/

theorem iterate_token (hb : Level b) (k : Nat) :
    (Tbf.tick^[k] b).token = min (b.token + k * b.csp) b.burst := by
  have h1 := hb.csp
  have h2 := hb.le
  induction k with
  | zero => simp [h2]
  | succ k ih =>
    obtain ⟨hp, hm⟩ := iterate_params b k
    have h3 := Int.mul_nonneg (Int.natCast_nonneg k) h1
    rw [Function.iterate_succ_apply', tick_token, ih, hp, hm, Int.natCast_succ, Int.add_mul]
    omega

/-- The ticks after the `j`-th. -/
theorem iterate_token_add (hb : Level b) (j i : Nat) :
    (Tbf.tick^[j + i] b).token = min ((Tbf.tick^[j] b).token + i * b.csp) b.burst := by
  obtain ⟨hp, hm⟩ := iterate_params b j
  rw [Nat.add_comm, Function.iterate_add_apply, iterate_token (level_iterate hb j), hp, hm]

/-- How a serial fetch splits at the last of its `k + 1` ticks. -/
theorem serialFetch_split (hb : Level b) (hs : 0 < size) (h : SerialFetch b size (k + 1) n b') :
    1 ≤ n ∧ ((n = min (Tbf.tick^[k] b).tick.token size ∧ b'.token = (Tbf.tick^[k] b).tick.token - n) ∨
      ∃ y d, 0 ≤ d ∧ y ≤ b.burst ∧ n = min y size ∧ (Tbf.tick^[k] b).token = min (y + d) b.burst ∧
        b'.token = min (y - n + d + b.csp) b.burst) := by
  have hn := h.bounds hs
  obtain ⟨j, i, hji, h0, hamount, rfl⟩ := h
  have hlevel := (level_iterate hb j).fetch h0 hs
  have hp := iterate_params b j
  rw [fetch_amount] at hamount
  have htok : ((Tbf.tick^[j] b).fetch size).2.token = (Tbf.tick^[j] b).token - n := by
    rw [fetch_rest, ← hamount]
  refine ⟨hn.1, ?_⟩
  cases i with
  | zero =>
    left
    obtain rfl : j = k + 1 := hji
    rw [← Function.iterate_succ_apply' Tbf.tick]
    exact ⟨hamount, htok⟩
  | succ i =>
    right
    obtain rfl : j + i = k := by omega
    refine ⟨(Tbf.tick^[j] b).token, i * b.csp, Int.mul_nonneg (Int.natCast_nonneg i) hb.csp, ?_, hamount,
      iterate_token_add hb j i, ?_⟩
    · rw [← hp.2]
      exact (level_iterate hb j).le
    · rw [iterate_token hlevel, htok]
      show min (_ + _ * (Tbf.tick^[j] b).csp) (Tbf.tick^[j] b).burst = _
      rw [hp.1, hp.2, Int.natCast_succ, Int.add_mul, Int.one_mul, Int.add_assoc]

theorem fetch_harmed (hb : Level b) (hc : 0 < b.csp) (hs : 0 < size) (h : Fetching b size k c)
    (hharm : ¬HarmlessAt size c) : ∃ fs n b', fs.count .tick = 0 ∧
      Run (StepA size) { c with tbf := c.tbf.tick } fs ⟨.ret n, b'⟩ ∧ ¬FetchOk b size (k + 1) n b' := by
  obtain ⟨pc, tbf⟩ := c
  have hlevel := level_iterate hb k
  have hp := iterate_params b k
  have htick := tick_token (Tbf.tick^[k] b)
  rw [hp.1, hp.2] at htick
  have hle := hlevel.le
  rw [hp.2] at hle
  cases pc with
  | test | pause | compare | ret => exact absurd trivial hharm
  | loadBack | storeBack | check | clamp => exact h.elim
  | arm =>
    refine ⟨[.prog, .prog, .prog], tbf.tick.token, _, rfl, .cons rfl (.cons rfl (.cons rfl (.nil _))), ?_⟩
    rintro ⟨-, hsize, -⟩
    exact hharm hsize
  | load n =>
    obtain ⟨htbf, -⟩ := h
    dsimp only at htbf
    subst htbf
    simp only [HarmlessAt, not_or, hp.1, hp.2] at hharm
    refine ⟨[.prog, .prog], n, _, rfl, .cons rfl (.cons rfl (.nil _)), ?_⟩
    rintro ⟨-, -, hserial⟩
    obtain ⟨hn, ⟨h1, -⟩ | ⟨y, d, h1, h2, h3, h4, h5⟩⟩ := serialFetch_split hb hs hserial
    · exact hharm.1 h1
    · dsimp only at h5
      omega
  | store n v =>
    obtain ⟨htbf, hv, -⟩ := h
    dsimp only at htbf hv
    subst htbf
    simp only [HarmlessAt] at hharm
    refine ⟨[.prog], n, _, rfl, .cons rfl (.nil _), ?_⟩
    rintro ⟨-, -, hserial⟩
    obtain ⟨hn, ⟨h1, h2⟩ | ⟨y, d, h1, h2, h3, h4, h5⟩⟩ := serialFetch_split hb hs hserial
    · dsimp only at h2
      have hsame : (Tbf.tick^[k] b).tick.token = (Tbf.tick^[k] b).token := by omega
      rw [hsame] at h1
      exact hharm ⟨hsame, h1⟩
    · dsimp only at h5
      omega

theorem back_harmed (hb : Level b) (hc : 0 < b.csp) (hs : 0 < size) (h : Returning b size k c)
    (hharm : ¬HarmlessAt size c) : ∃ fs n b', fs.count .tick = 0 ∧
      Run (StepA size) { c with tbf := c.tbf.tick } fs ⟨.ret n, b'⟩ ∧ ¬BackOk b size (k + 1) n b' := by
  obtain ⟨pc, tbf⟩ := c
  have hlevel := level_iterate hb k
  have hp := iterate_params b k
  have htick := tick_token (Tbf.tick^[k] b)
  rw [hp.1, hp.2] at htick
  cases pc with
  | test | pause | compare | arm | load | store => exact h.elim
  | loadBack | check | clamp | ret => exact absurd trivial hharm
  | storeBack v =>
    obtain ⟨htbf, hv, -⟩ := h
    dsimp only at htbf hv
    subst htbf
    have hlt : ¬b.burst ≤ v := by
      rw [← hp.2]
      exact hharm
    rw [hp.2] at hv
    refine ⟨[.prog, .prog], size, { (Tbf.tick^[k] b).tick with token := v }, rfl,
      .cons rfl (.cons ?_ (.nil _)), ?_⟩
    · have hno : ¬v > (Tbf.tick^[k] b).tick.burst := by
        rw [tick_burst, hp.2]
        omega
      have hstep : access size ⟨.check, { (Tbf.tick^[k] b).tick with token := v }⟩ =
          some ⟨.ret size, { (Tbf.tick^[k] b).tick with token := v }⟩ := by
        simp only [access]
        rw [if_neg hno]
      exact hstep
    · rintro ⟨-, j, i, hji, hb'⟩
      have hback := (level_iterate hb j).giveBack hs
      have hq := iterate_params b j
      have htok := congrArg Tbf.token hb'
      rw [iterate_token hback, giveBack_token] at htok
      change v = min (_ + _ * (Tbf.tick^[j] b).csp) (Tbf.tick^[j] b).burst at htok
      rw [hq.1, hq.2] at htok
      cases i with
      | zero =>
        obtain rfl : j = k + 1 := hji
        rw [Function.iterate_succ_apply'] at htok
        simp only [Int.natCast_zero, Int.zero_mul] at htok
        omega
      | succ i =>
        obtain rfl : j + i = k := by omega
        have hx := iterate_token_add hb j i
        have hd := Int.mul_nonneg (Int.natCast_nonneg i) hb.csp
        rw [Int.natCast_succ, Int.add_mul, Int.one_mul] at htok
        omega

/-- **Which ticks are safe.**  If every tick that comes in during a call is harmless where it
comes in, the result is that of an undivided call; and after a tick that is not, the call can
end with a result that no undivided call has. -/
theorem calls_safe (hb : Level b) (hc : 0 < b.csp) (hs : 0 < size) :
    (∀ es n b', Run (Under (StepA size) (Harmless size)) ⟨.test, b⟩ es ⟨.ret n, b'⟩ →
      FetchOk b size (es.count .tick) n b') ∧
    (∀ es n b', Run (Under (StepA size) (Harmless size)) ⟨.loadBack, b⟩ es ⟨.ret n, b'⟩ →
      BackOk b size (es.count .tick) n b') ∧
    (∀ es c, Run (Under (StepA size) (Harmless size)) ⟨.test, b⟩ es c → ¬HarmlessAt size c →
      ∃ fs n b', Run (StepA size) c (.tick :: fs) ⟨.ret n, b'⟩ ∧
        ¬FetchOk b size ((es ++ .tick :: fs).count .tick) n b') ∧
    ∀ es c, Run (Under (StepA size) (Harmless size)) ⟨.loadBack, b⟩ es c → ¬HarmlessAt size c →
      ∃ fs n b', Run (StepA size) c (.tick :: fs) ⟨.ret n, b'⟩ ∧
        ¬BackOk b size ((es ++ .tick :: fs).count .tick) n b' := by
  refine ⟨fun es n b' h => ?_, fun es n b' h => run_returning hb h, fun es c h hharm => ?_,
    fun es c h hharm => ?_⟩
  · have hserial : SerialFetch b size (es.count .tick) n b' := run_fetching hb hs h
    exact ⟨(hserial.bounds hs).1, (hserial.bounds hs).2, hserial⟩
  · obtain ⟨fs, n, b', hfs, hrun, hbad⟩ := fetch_harmed hb hc hs (run_fetching hb hs h) hharm
    refine ⟨fs, n, b', .cons rfl hrun, ?_⟩
    rwa [List.count_append, List.count_cons_self, hfs]
  · obtain ⟨fs, n, b', hfs, hrun, hbad⟩ := back_harmed hb hc hs (run_returning hb h) hharm
    refine ⟨fs, n, b', .cons rfl hrun, ?_⟩
    rwa [List.count_append, List.count_cons_self, hfs]

/-- Without a tick the accesses of a fetch are the undivided fetch. -/
theorem fetch_undivided (hb : Level b) (hs : 0 < size) {es : List Access} (hes : es.count .tick = 0)
    (h : Run (StepA size) ⟨.test, b⟩ es ⟨.ret n, b'⟩) : 0 < b.token ∧ (n, b') = b.fetch size := by
  have hrun : Run (Under (StepA size) (Harmless size)) ⟨.test, b⟩ es ⟨.ret n, b'⟩ := by
    refine (h.under (C := fun e => e ≠ .tick) fun e he heq => ?_).mono fun c e c' hs =>
      ⟨hs.1, fun he => absurd he hs.2⟩
    subst heq
    exact absurd hes (Nat.ne_of_gt (List.count_pos_iff.2 he))
  have hf : SerialFetch b size (es.count .tick) n b' := run_fetching hb hs hrun
  rw [hes] at hf
  obtain ⟨j, i, hji, h0, rfl, rfl⟩ := hf
  obtain ⟨rfl, rfl⟩ : j = 0 ∧ i = 0 := by omega
  exact ⟨h0, rfl⟩

end

/-- One token, a fetch of two: the tick between the comparison and the second read makes the
fetch take six. -/
theorem fetch_takes_too_much : ¬∀ b size es n b', Level b → 0 < b.csp → 0 < size →
    Run (StepA size) ⟨.test, b⟩ es ⟨.ret n, b'⟩ → FetchOk b size (es.count .tick) n b' := by
  intro h
  have := h ⟨5, 10, 1, 0⟩ 2 [.prog, .prog, .tick, .prog, .prog, .prog] 6 ⟨5, 10, 0, 0⟩
    ⟨by decide, by decide, by decide⟩ (by decide) (by decide)
    (.cons rfl (.cons rfl (.cons rfl (.cons rfl (.cons rfl (.cons rfl (.nil _)))))))
  exact absurd this.2.1 (by decide)

/-- A tick before the comparison is harmless: two of the six tokens are fetched. -/
theorem calls_safe_fetch : FetchOk ⟨5, 10, 1, 0⟩ 2 1 2 ⟨5, 10, 4, 0⟩ := by
  refine (calls_safe ⟨by decide, by decide, by decide⟩ (by decide) (by decide)).1
    [.prog, .tick, .prog, .prog, .prog] 2 ⟨5, 10, 4, 0⟩ ?_
  have hfree : ∀ c : Call, Harmless 2 c .prog := fun c he => by cases he
  exact .cons ⟨rfl, hfree _⟩ (.cons ⟨rfl, fun _ => trivial⟩ (.cons ⟨rfl, hfree _⟩ (.cons ⟨rfl, hfree _⟩
    (.cons ⟨rfl, hfree _⟩ (.nil _)))))

end CPrograms.Mytbf
