import CPrograms.Mytbf.Table

/-!
# The send loop of `udp_prog/cli.c`

`main` from `mytbf_init` on, with `sendto` that succeeds.  The program and the timer take turns: in
its turn the program goes on to the next datagram, or to the next `pause`.

No turn of the loop adds to `count`, and `msg` starts with the byte 0, where `strlen` ends.  So
without a datagram to send the loop ends at once, and with one it never does (`send_loop_iff`): it
sends empty datagrams, one for each token, without end (`sends_forever`).
-/

namespace CPrograms.UdpCli

open Mytbf (Answer Table)

/-- The options of the command line. -/
structure Options where
  total : Int
  length : Int
  pps : Int

/-- `char msg[length]`, filled by `msg[i] = i`. -/
def msg (length : Int) : List UInt8 := (List.range length.toNat).map UInt8.ofNat

/-- `none`: there is no byte 0. -/
def strlen (m : List UInt8) : Option Nat := m.findIdx? (· = 0)

structure State where
  lib : Mytbf.Sys
  tbf : Option Nat
  count : Int
  /-- the payloads that `sendto` was given, the last one first -/
  sent : List (List UInt8)
  /-- what `mytbf_fetchtoken` returned, the last one first -/
  fetched : List Int
  /-- the loop is left -/
  done : Bool

def start (o : Options) : State :=
  let (p, lib) := Mytbf.mytbfInit o.pps (o.pps * 5) true Mytbf.start
  ⟨lib, p, 0, [], [], false⟩

/-- `sendto(socket_desc, msg, strlen(msg), 0, ..)` -/
def sendto (o : Options) (s : State) : State :=
  match strlen (msg o.length) with
  | some n => { s with sent := (msg o.length).take n :: s.sent }
  | none => s

/-- The loop from where `mytbf_fetchtoken(tbf, 1)` returns, or pauses. -/
def afterFetch (o : Options) (s : State) : Option (Answer × Mytbf.Sys) → State
  | some (.int n, lib) =>
    let s := { s with lib, fetched := n :: s.fetched }
    if n ≠ 0 then sendto o s else { s with done := true }
  | some (_, lib) => { s with lib }
  | none => s

def turn (o : Options) (s : State) : State :=
  if s.done then s
  else
    match s.lib.paused, s.tbf with
    | some (p, size), _ => afterFetch o s (Mytbf.step s.lib (.resume p size))
    | none, some p =>
      if s.count < o.total then afterFetch o s (Mytbf.step s.lib (.fetch p 1)) else { s with done := true }
    | none, none => s

def tick (s : State) : State := { s with lib := Mytbf.handler true s.lib }

inductive Event
  | tick
  | turn
deriving DecidableEq

def step (o : Options) (s : State) : Event → State
  | .tick => tick s
  | .turn => turn o s

def stateAt (o : Options) (σ : Nat → Event) : Nat → State
  | 0 => start o
  | n + 1 => step o (stateAt o σ n) (σ n)

/-- The timer goes on, and so does the program. -/
structure Fair (σ : Nat → Event) : Prop where
  tick : ∀ n, ∃ m ≥ n, σ m = .tick
  turn : ∀ n, ∃ m ≥ n, σ m = .turn

/-- The loop ends, with `total` datagrams of `length` bytes, and a token for each. -/
def Delivers (o : Options) (σ : Nat → Event) : Prop :=
  ∃ n, (stateAt o σ n).done = true ∧ (stateAt o σ n).sent.length = o.total ∧
    (∀ d ∈ (stateAt o σ n).sent, d.length = o.length) ∧
    (stateAt o σ n).fetched = List.replicate o.total.toNat 1

section
variable {o : Options} {s : State} {σ : Nat → Event} {k : Int} {n i : Nat}

/-! ## The turns -/

/-- After `n` datagrams, with `k` tokens in the bucket. -/
structure At (o : Options) (k : Int) (n : Nat) (s : State) : Prop where
  table : Table s.lib
  bucket : s.lib.heap 0 = some ⟨o.pps, o.pps * 5, k, 0⟩
  paused : s.lib.paused = none ∨ s.lib.paused = some (0, 1)
  tbf : s.tbf = some 0
  count : s.count = 0
  sent : s.sent = List.replicate n []
  fetched : s.fetched = List.replicate n 1
  done : s.done = false

theorem start_eq (o : Options) :
    start o = ⟨Mytbf.place o.pps (o.pps * 5) 0 Mytbf.start, some 0, 0, [], [], false⟩ := by
  have hpos : Mytbf.getFreePos Mytbf.start.job = some 0 :=
    Mytbf.getFreePos_eq_some.2 ⟨by decide, rfl, by simp⟩
  rw [start, Mytbf.mytbfInit_of hpos]
  rfl

theorem at_start (o : Options) : At o 0 0 (start o) := by
  rw [start_eq]
  exact ⟨Mytbf.table_start.place (by decide) rfl, rfl, .inl rfl, rfl, rfl, rfl, rfl, rfl⟩

theorem strlen_msg {length : Int} (h : 1 ≤ length) : strlen (msg length) = some 0 := by
  obtain ⟨m, hm⟩ : ∃ m, length.toNat = m + 1 := ⟨length.toNat - 1, by omega⟩
  rw [strlen, msg, hm, List.range_succ_eq_map, List.map_cons, List.findIdx?_cons]
  rfl

theorem tick_eq (s : State) :
    tick s = ⟨Mytbf.handler true s.lib, s.tbf, s.count, s.sent, s.fetched, s.done⟩ := rfl

theorem At.tick (h : At o k n s) : At o (min (k + o.pps) (o.pps * 5)) n (tick s) := by
  obtain ⟨htable, hbucket, hpaused, htbf, hcount, hsent, hfetched, hdone⟩ := h
  have htick := Mytbf.tick_token ⟨o.pps, o.pps * 5, k, 0⟩
  dsimp only at htick
  rw [tick_eq]
  constructor <;> dsimp only
  · exact htable.handler
  · rw [Mytbf.handler_heap htable, hbucket, ← htick]
    rfl
  · rw [(Mytbf.handler_rest s.lib).2.2]
    exact hpaused
  · exact htbf
  · exact hcount
  · exact hsent
  · exact hfetched
  · exact hdone

/-- The program's turn is one test of the loop in `mytbf_fetchtoken`. -/
theorem At.turn_eq (h : At o k n s) (htotal : 0 < o.total) :
    ∃ e, Mytbf.step s.lib e = some (.ofFetch (Mytbf.fetchLoop 0 1 ⟨o.pps, o.pps * 5, k, 0⟩ s.lib).1,
        (Mytbf.fetchLoop 0 1 ⟨o.pps, o.pps * 5, k, 0⟩ s.lib).2) ∧
      turn o s = afterFetch o s (Mytbf.step s.lib e) := by
  unfold turn
  rw [h.done, if_neg (by decide)]
  rcases h.paused with hp | hp
  · refine ⟨.fetch 0 1, ?_, ?_⟩
    · simp only [Mytbf.step, hp, h.bucket, Mytbf.mytbfFetchtoken, if_neg (show ¬ (1 : Int) ≤ 0 by decide)]
    · rw [hp, h.tbf]
      exact if_pos (by rw [h.count]; exact htotal)
  · refine ⟨.resume 0 1, ?_, ?_⟩
    · simp only [Mytbf.step, hp, h.bucket, if_true]
    · rw [hp]

theorem afterFetch_one (hlength : 1 ≤ o.length) (s : State) (lib : Mytbf.Sys) :
    afterFetch o s (some (.int 1, lib)) =
      { s with lib, sent := [] :: s.sent, fetched := 1 :: s.fetched } := by
  have hone : (1 : Int) ≠ 0 := by decide
  simp only [afterFetch, if_pos hone, sendto, strlen_msg hlength, List.take_zero]

/-- For a token it sends an empty datagram. -/
theorem At.sends (h : At o k n s) (htotal : 0 < o.total) (hlength : 1 ≤ o.length) (hk : 0 < k) :
    At o (k - 1) (n + 1) (turn o s) := by
  obtain ⟨e, he, hturn⟩ := h.turn_eq htotal
  have htable := h.table.step (Mytbf.step_iff.2 he)
  have hloop : Mytbf.fetchLoop 0 1 ⟨o.pps, o.pps * 5, k, 0⟩ s.lib =
      (some 1, { Mytbf.refill 0 ⟨o.pps, o.pps * 5, k - 1, 0⟩ s.lib with paused := none }) := by
    have hn : Mytbf.Tbf.fetch 1 ⟨o.pps, o.pps * 5, k, 0⟩ = (1, ⟨o.pps, o.pps * 5, k - 1, 0⟩) := by
      rw [Mytbf.Tbf.fetch, if_neg (show ¬ k < 1 by omega)]
    rw [Mytbf.fetchLoop, if_neg (show ¬ k ≤ 0 by omega), hn]
    rfl
  rw [hloop] at he htable
  rw [hturn, he]
  dsimp only [Answer.ofFetch]
  rw [afterFetch_one hlength]
  have hbucket : (Mytbf.refill 0 ⟨o.pps, o.pps * 5, k - 1, 0⟩ s.lib).heap 0 =
      some ⟨o.pps, o.pps * 5, k - 1, 0⟩ := by rw [Mytbf.refill_apply, if_pos rfl]
  refine ⟨htable, hbucket, .inl rfl, h.tbf, h.count, ?_, ?_, h.done⟩
  · dsimp only
    rw [h.sent, List.replicate_succ]
  · dsimp only
    rw [h.fetched, List.replicate_succ]

/-- Without one it pauses. -/
theorem At.pauses (h : At o k n s) (htotal : 0 < o.total) (hk : k ≤ 0) : At o k n (turn o s) := by
  obtain ⟨e, he, hturn⟩ := h.turn_eq htotal
  have htable := h.table.step (Mytbf.step_iff.2 he)
  have hloop : Mytbf.fetchLoop 0 1 ⟨o.pps, o.pps * 5, k, 0⟩ s.lib =
      (none, { s.lib with paused := some (0, 1) }) := by
    rw [Mytbf.fetchLoop, if_pos hk]
  rw [hloop] at he htable
  rw [hturn, he]
  exact ⟨htable, h.bucket, .inr rfl, h.tbf, h.count, h.sent, h.fetched, h.done⟩

theorem At.next_tick (h : At o k n (stateAt o σ i)) (hi : σ i = .tick) :
    At o (min (k + o.pps) (o.pps * 5)) n (stateAt o σ (i + 1)) := by
  rw [stateAt, hi]
  exact h.tick

theorem At.next_sends (h : At o k n (stateAt o σ i)) (htotal : 0 < o.total) (hlength : 1 ≤ o.length)
    (hk : 0 < k) (hi : σ i = .turn) : At o (k - 1) (n + 1) (stateAt o σ (i + 1)) := by
  rw [stateAt, hi]
  exact h.sends htotal hlength hk

/-- Something can be sent: the loop goes on. -/
theorem going (htotal : 0 < o.total) (hlength : 1 ≤ o.length) (σ : Nat → Event) (i : Nat) :
    ∃ k n, At o k n (stateAt o σ i) := by
  induction i with
  | zero => exact ⟨0, 0, at_start o⟩
  | succ i ih =>
    obtain ⟨k, n, h⟩ := ih
    rw [stateAt]
    cases σ i with
    | tick => exact ⟨_, n, h.tick⟩
    | turn =>
      by_cases hk : 0 < k
      · exact ⟨_, _, h.sends htotal hlength hk⟩
      · exact ⟨k, n, h.pauses htotal (by omega)⟩

/-- Nothing can be sent: the program's first turn leaves the loop. -/
theorem At.leaves (h : At o k n s) (htotal : o.total = 0) (hp : s.lib.paused = none) :
    turn o s = { s with done := true } := by
  unfold turn
  rw [h.done, if_neg (by decide), hp, h.tbf]
  exact if_neg (by rw [h.count, htotal]; decide)

theorem At.ends_next (h : At o k 0 (stateAt o σ i)) (htotal : o.total = 0)
    (hp : (stateAt o σ i).lib.paused = none) (hi : σ i = .turn) :
    ∃ j, (stateAt o σ j).done = true ∧ (stateAt o σ j).sent = [] ∧ (stateAt o σ j).fetched = [] := by
  refine ⟨i + 1, ?_⟩
  rw [stateAt, hi, step, h.leaves htotal hp]
  exact ⟨rfl, h.sent, h.fetched⟩

theorem At.ends_at_once (htotal : o.total = 0) (hσ : Fair σ) (h : At o k 0 (stateAt o σ i))
    (hp : (stateAt o σ i).lib.paused = none) :
    ∃ j, (stateAt o σ j).done = true ∧ (stateAt o σ j).sent = [] ∧ (stateAt o σ j).fetched = [] := by
  obtain ⟨b, hb, hturn⟩ := hσ.turn i
  induction hd : b - i generalizing i k with
  | zero =>
    obtain rfl : b = i := by omega
    exact h.ends_next htotal hp hturn
  | succ d ih =>
    cases hi : σ i with
    | turn => exact h.ends_next htotal hp hi
    | tick =>
      have hpaused : (stateAt o σ (i + 1)).lib.paused = none := by
        rw [stateAt, hi, step, tick_eq]
        dsimp only
        rw [(Mytbf.handler_rest _).2.2]
        exact hp
      exact ih (h.next_tick hi) hpaused (by omega) (by omega)

/-- **The loop ends exactly where nothing is to be sent.** -/
theorem send_loop_iff (htotal : 0 ≤ o.total) (hlength : 1 ≤ o.length) (hσ : Fair σ) :
    Delivers o σ ↔ o.total = 0 := by
  constructor
  · rintro ⟨i, hdone, -⟩
    refine Classical.not_not.1 fun hne => ?_
    obtain ⟨k, n, h⟩ := going (by omega) hlength σ i
    rw [h.done] at hdone
    cases hdone
  · intro h
    have hp : (stateAt o σ 0).lib.paused = none := by
      rw [stateAt, start_eq]
      rfl
    obtain ⟨i, hdone, hsent, hfetched⟩ := At.ends_at_once (i := 0) h hσ (at_start o) hp
    refine ⟨i, hdone, ?_, ?_, ?_⟩
    · rw [hsent, h]
      rfl
    · rw [hsent]
      exact fun d hd => absurd hd List.not_mem_nil
    · rw [hfetched, h]
      rfl

/-! ## What it sends -/

/-- With a token there, the next turn sends. -/
theorem At.sends_on (htotal : 0 < o.total) (hlength : 1 ≤ o.length) (hpps : 0 < o.pps) (hσ : Fair σ)
    (h : At o k n (stateAt o σ i)) (hk : 0 < k) :
    ∃ j k', 0 ≤ k' ∧ At o k' (n + 1) (stateAt o σ j) := by
  obtain ⟨b, hb, hturn⟩ := hσ.turn i
  induction hd : b - i generalizing i k with
  | zero =>
    obtain rfl : b = i := by omega
    exact ⟨b + 1, k - 1, by omega, h.next_sends htotal hlength hk hturn⟩
  | succ d ih =>
    cases hi : σ i with
    | turn =>
      exact ⟨i + 1, k - 1, by omega, h.next_sends htotal hlength hk hi⟩
    | tick =>
      exact ih (h.next_tick hi) (by omega) (by omega) (by omega)

/-- Without one the next tick brings some. -/
theorem At.sends_next (htotal : 0 < o.total) (hlength : 1 ≤ o.length) (hpps : 0 < o.pps) (hσ : Fair σ)
    (h : At o k n (stateAt o σ i)) (hk : 0 ≤ k) :
    ∃ j k', 0 ≤ k' ∧ At o k' (n + 1) (stateAt o σ j) := by
  obtain ⟨b, hb, htick⟩ := hσ.tick i
  induction hd : b - i generalizing i k with
  | zero =>
    obtain rfl : b = i := by omega
    exact (h.next_tick htick).sends_on htotal hlength hpps hσ (by omega)
  | succ d ih =>
    by_cases h0 : 0 < k
    · exact h.sends_on htotal hlength hpps hσ h0
    · have hnext : ∃ k', 0 ≤ k' ∧ At o k' n (stateAt o σ (i + 1)) := by
        rw [stateAt]
        cases σ i with
        | turn => exact ⟨k, hk, h.pauses htotal (by omega)⟩
        | tick => exact ⟨_, by omega, h.tick⟩
      obtain ⟨k', hk', hnext⟩ := hnext
      exact ih hnext hk' (by omega) (by omega)

/-- **Without end.**  With something to send, every number of empty datagrams is reached, and a
token is fetched for each. -/
theorem sends_forever (htotal : 0 < o.total) (hlength : 1 ≤ o.length) (hpps : 0 < o.pps) (hσ : Fair σ)
    (n : Nat) : ∃ i, (stateAt o σ i).sent = List.replicate n [] ∧
      (stateAt o σ i).fetched = List.replicate n 1 ∧ (stateAt o σ i).done = false := by
  suffices hat : ∃ i k, 0 ≤ k ∧ At o k n (stateAt o σ i) by
    obtain ⟨i, k, -, h⟩ := hat
    exact ⟨i, h.sent, h.fetched, h.done⟩
  induction n with
  | zero => exact ⟨0, 0, Int.le_refl 0, at_start o⟩
  | succ n ih =>
    obtain ⟨i, k, hk, h⟩ := ih
    exact h.sends_next htotal hlength hpps hσ hk

end

/-- Nothing to send, and nothing is sent. -/
theorem send_loop_iff_none :
    Delivers ⟨0, 64, 10⟩ (fun i => if i % 2 = 0 then .tick else .turn) := by
  refine (send_loop_iff (o := ⟨0, 64, 10⟩) (by decide) (by decide) ⟨fun i => ?_, fun i => ?_⟩).2 rfl
  · exact ⟨2 * i, by omega, if_pos (by omega)⟩
  · exact ⟨2 * i + 1, by omega, if_neg (by omega)⟩

/-- One datagram of 64 bytes is to be sent: two of no byte are, and the loop goes on. -/
theorem second_datagram :
    let s := stateAt ⟨1, 64, 10⟩ (fun i => if i = 0 then .tick else .turn) 3
    s.sent = [[], []] ∧ s.fetched = [1, 1] ∧ s.done = false := by
  decide +kernel

end CPrograms.UdpCli
