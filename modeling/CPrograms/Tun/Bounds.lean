import CPrograms.Tun.Framing
import Mathlib.Algebra.Ring.Int.Defs

/-!
# What is passed on of `buffer`

`ranges` are the parts of `buffer` that a turn of `serve` passes to `read_n` and `cwrite`.
They stay inside exactly if `read` of the tap device did not fail and the frame announces no
more than the buffer holds (`ranges_inside`); no turn then runs over the buffer, and no run
of such turns (`serve_inside`).
-/

namespace CPrograms.Tun

open Endian

/-- From `start` in `buffer`, `len` bytes. -/
structure Range where
  start : Nat
  len : Nat

def Range.Inside (x : Range) : Prop := x.start + x.len ≤ bufsize

instance (x : Range) : Decidable x.Inside := inferInstanceAs (Decidable (_ ≤ _))

/-- The result of `read(tap_fd, buffer, BUFSIZE)`. -/
def readTap : Option (List UInt8) → Int
  | none => -1
  | some packet => (packet.take bufsize).length

/-- A `uint16_t` that an `int` is assigned to. -/
def toU16 (v : Int) : Nat := (v % 2 ^ 16).toNat

def sendRanges (r : Option (List UInt8)) : List Range :=
  let nread := toU16 (readTap r)
  [⟨0, nread⟩]

def receiveRanges (s : Srv) : List Range :=
  match readN s.net 2 with
  | none => []
  | some (ret, got, net) =>
    if toU16 ret = 0 then []
    else
      let n := Host.little.ntohs (word (store s.packageLen got))
      match readN net n with
      | none => [⟨0, n⟩]
      | some (ret, _, _) => [⟨0, n⟩, ⟨0, toU16 ret⟩]

def ranges (s : Srv) : Act → List Range
  | .tap r => sendRanges r
  | .net => receiveRanges s

/-! ## `read_n`, whatever the calls of `read` give -/

theorem cread_le {fd fd' : Sock} {n : Nat} {b : List UInt8} (h : cread fd n = some (b, fd')) :
    b.length ≤ n := by
  unfold cread at h
  split at h
  · obtain ⟨rfl, -⟩ := Prod.ext_iff.1 (Option.some.inj h)
    exact List.length_take_le _ _
  · exact absurd h (by simp)
  · obtain ⟨rfl, -⟩ := Prod.ext_iff.1 (Option.some.inj h)
    exact Nat.le_trans (List.length_take_le _ _) (Nat.min_le_right _ _)

/-- What it stores is all that it was asked for, or less. -/
theorem readLoop_length {n : Nat} : ∀ {fd fd' : Sock} {got got' : List UInt8} {all : Bool},
    readLoop fd n got = some (all, got', fd') →
      got'.length ≤ got.length + n ∧ (all = true → got'.length = got.length + n) := by
  induction n using Nat.strongRecOn with
  | ind n ih =>
    intro fd fd' got got' all h
    rw [readLoop] at h
    by_cases hn : 0 < n
    · rw [if_pos hn] at h
      rcases hread : cread fd n with _ | ⟨b, fd₁⟩
      · rw [hread] at h
        exact absurd h (by simp)
      · have hle := cread_le hread
        rw [hread] at h
        dsimp only at h
        by_cases hend : b.length = 0
        · rw [if_pos hend] at h
          obtain ⟨rfl, rfl, rfl⟩ := Option.some.inj h
          exact ⟨by omega, fun hall => absurd hall (by decide)⟩
        · rw [if_neg hend] at h
          obtain ⟨hlen, hall⟩ := ih (n - b.length) (by omega) h
          rw [List.length_append] at hlen hall
          refine ⟨by omega, ?_⟩
          intro ht
          have := hall ht
          omega
    · rw [if_neg hn] at h
      obtain ⟨rfl, rfl, rfl⟩ := Option.some.inj h
      exact ⟨by omega, fun _ => by omega⟩

theorem readN_le {fd fd' : Sock} {n ret : Nat} {got : List UInt8}
    (h : readN fd n = some (ret, got, fd')) : ret ≤ n ∧ got.length ≤ n := by
  unfold readN at h
  rcases hloop : readLoop fd n [] with _ | ⟨all, got₁, fd₁⟩
  · rw [hloop] at h
    exact absurd h (by simp)
  · have hlen := (readLoop_length hloop).1
    rw [hloop] at h
    obtain ⟨rfl, rfl, rfl⟩ := Option.some.inj h
    refine ⟨?_, by simpa using hlen⟩
    split
    · exact Nat.le_refl n
    · exact Nat.zero_le n

/-- It returns what it was asked for, or 0. -/
theorem readN_ne_zero {fd fd' : Sock} {n ret : Nat} {got : List UInt8}
    (h : readN fd n = some (ret, got, fd')) (hret : ret ≠ 0) : ret = n ∧ got.length = n := by
  unfold readN at h
  rcases hloop : readLoop fd n [] with _ | ⟨all, got₁, fd₁⟩
  · rw [hloop] at h
    exact absurd h (by simp)
  · have hall := (readLoop_length hloop).2
    rw [hloop] at h
    obtain ⟨rfl, rfl, rfl⟩ := Option.some.inj h
    cases all with
    | true => exact ⟨rfl, by simpa using hall rfl⟩
    | false => exact absurd rfl hret

/-! ## The frame -/

/-- The connection gives a whole length field, and it announces `n` bytes. -/
def Announces (s : Srv) (n : Nat) : Prop :=
  ∃ hi lo net, readN s.net 2 = some (2, [hi, lo], net) ∧ n = 256 * hi.toNat + lo.toNat

theorem ntohs_store (buf : List UInt8) (hi lo : UInt8) :
    Host.little.ntohs (word (store buf [hi, lo])) = 256 * hi.toNat + lo.toNat :=
  Host.ntohs_word16 .little hi lo

theorem toU16_le (n : Nat) : toU16 n ≤ n := by
  unfold toU16
  omega

/-- Nothing is announced and nothing passed on, or what is announced is passed on. -/
theorem receiveRanges_cases (s : Srv) :
    (receiveRanges s = [] ∧ ∀ n, ¬ Announces s n) ∨
    ∃ n, Announces s n ∧ (∀ k, Announces s k → k = n) ∧ ⟨0, n⟩ ∈ receiveRanges s ∧
      ∀ x ∈ receiveRanges s, x.start = 0 ∧ x.len ≤ n := by
  unfold receiveRanges
  rcases hread : readN s.net 2 with _ | ⟨ret, got, net⟩
  · refine .inl ⟨rfl, ?_⟩
    rintro n ⟨hi, lo, net, hann, -⟩
    exact absurd (hread.symm.trans hann) (by simp)
  · dsimp only
    obtain ⟨hret, -⟩ := readN_le hread
    by_cases hzero : toU16 ret = 0
    · rw [if_pos hzero]
      refine .inl ⟨rfl, ?_⟩
      rintro n ⟨hi, lo, net', hann, -⟩
      have hret2 : ret = 2 := (Prod.ext_iff.1 (Option.some.inj (hread.symm.trans hann))).1
      rw [hret2] at hzero
      exact absurd hzero (by decide)
    · rw [if_neg hzero]
      have hne : ret ≠ 0 := by
        rintro rfl
        exact hzero rfl
      obtain ⟨rfl, hgot⟩ := readN_ne_zero hread hne
      obtain ⟨hi, lo, rfl⟩ := List.length_eq_two.1 hgot
      rw [ntohs_store]
      refine .inr ⟨_, ⟨hi, lo, net, hread, rfl⟩, ?_, ?_, ?_⟩
      · rintro k ⟨hi', lo', net', hann, rfl⟩
        obtain ⟨-, hpair⟩ := Prod.ext_iff.1 (Option.some.inj (hread.symm.trans hann))
        obtain ⟨hgot', -⟩ := Prod.ext_iff.1 hpair
        obtain ⟨rfl, hlo⟩ := List.cons.inj hgot'
        obtain ⟨rfl, -⟩ := List.cons.inj hlo
        rfl
      · split
        · exact List.mem_singleton_self _
        · exact List.mem_cons_self
      · intro x hx
        split at hx
        · rw [List.mem_singleton.1 hx]
          exact ⟨rfl, Nat.le_refl _⟩
        · next ret got' net' hpayload =>
          rcases List.mem_cons.1 hx with rfl | hx
          · exact ⟨rfl, Nat.le_refl _⟩
          · rw [List.mem_singleton.1 hx]
            exact ⟨rfl, Nat.le_trans (toU16_le ret) (readN_le hpayload).1⟩

/-! ## Turns -/

/-- What a turn must be given. -/
def Bounded (s : Srv) : Act → Prop
  | .tap r => r ≠ none
  | .net => ∀ n, Announces s n → n ≤ bufsize

theorem sendRanges_inside (r : Option (List UInt8)) :
    (∀ x ∈ sendRanges r, x.Inside) ↔ r ≠ none := by
  show (∀ x ∈ [(⟨0, toU16 (readTap r)⟩ : Range)], x.Inside) ↔ _
  rw [List.forall_mem_singleton]
  cases r with
  | none =>
    -- -1 is 65535
    refine iff_of_false ?_ (fun h => h rfl)
    decide
  | some packet =>
    refine iff_of_true ?_ (by simp)
    have hle := List.length_take_le bufsize packet
    have hu := toU16_le (packet.take bufsize).length
    show 0 + toU16 (packet.take bufsize).length ≤ bufsize
    omega

theorem receiveRanges_inside (s : Srv) :
    (∀ x ∈ receiveRanges s, x.Inside) ↔ ∀ n, Announces s n → n ≤ bufsize := by
  rcases receiveRanges_cases s with ⟨hnil, hnone⟩ | ⟨n, hann, hone, hmem, hall⟩
  · rw [hnil]
    refine iff_of_true (fun x hx => absurd hx List.not_mem_nil) ?_
    intro n hann
    exact absurd hann (hnone n)
  · constructor
    · intro hin k hk
      have h : 0 + n ≤ bufsize := hin _ hmem
      rw [hone k hk]
      omega
    · intro hle x hx
      obtain ⟨hstart, hlen⟩ := hall x hx
      have hn := hle n hann
      show x.start + x.len ≤ bufsize
      omega

/-- **Bounds.**  Turn by turn. -/
theorem ranges_inside (s : Srv) (a : Act) : (∀ x ∈ ranges s a, x.Inside) ↔ Bounded s a := by
  cases a with
  | tap r => exact sendRanges_inside r
  | net => exact receiveRanges_inside s

/-- A `read` that fails is passed on as 65535 bytes. -/
theorem failed_read_outside : ¬ ∀ x ∈ ranges (start ⟨[], []⟩) (.tap none), x.Inside := by
  decide

/-! ## Runs -/

theorem receive_overrun {s : Srv} (h : (receive s).2 = .overrun) :
    ∃ n, Announces s n ∧ bufsize < n := by
  unfold receive at h
  rcases hread : readN s.net 2 with _ | ⟨ret, got, net⟩
  · rw [hread] at h
    exact absurd h (by simp)
  · rw [hread] at h
    dsimp only at h
    by_cases hzero : ret % 2 ^ 16 = 0
    · rw [if_pos hzero] at h
      exact absurd h (by simp)
    · rw [if_neg hzero] at h
      have hne : ret ≠ 0 := by omega
      obtain ⟨rfl, hgot⟩ := readN_ne_zero hread hne
      obtain ⟨hi, lo, rfl⟩ := List.length_eq_two.1 hgot
      rw [ntohs_store] at h
      refine ⟨_, ⟨hi, lo, net, hread, rfl⟩, ?_⟩
      rcases hpayload : readN net (256 * hi.toNat + lo.toNat) with _ | ⟨ret, got, net'⟩
      · rw [hpayload] at h
        exact absurd h (by simp)
      · rw [hpayload] at h
        dsimp only at h
        by_cases hover : bufsize < got.length
        · exact Nat.lt_of_lt_of_le hover (readN_le hpayload).2
        · rw [if_neg hover] at h
          exact absurd h (by simp)

/-- A turn that is given no more does not run over the buffer. -/
theorem act_bounded {s : Srv} {a : Act} (h : Bounded s a) : (act s a).2 ≠ .overrun := by
  cases a with
  | tap r =>
    cases r with
    | none => exact absurd rfl h
    | some packet => exact End.noConfusion
  | net =>
    intro hover
    obtain ⟨n, hann, hlt⟩ := receive_overrun hover
    have hle := h n hann
    omega

/-- What the turns of a run pass on. -/
def runRanges (s : Srv) : List Act → List Range
  | [] => []
  | a :: as =>
    match act s a with
    | (s', .running) => ranges s a ++ runRanges s' as
    | _ => ranges s a

/-- Every turn is given no more than it can take. -/
def RunBounded (s : Srv) : List Act → Prop
  | [] => True
  | a :: as => Bounded s a ∧ ((act s a).2 = .running → RunBounded (act s a).1 as)

theorem serve_inside (as : List Act) : ∀ s : Srv,
    ((∀ x ∈ runRanges s as, x.Inside) ↔ RunBounded s as) ∧
      (RunBounded s as → (serve s as).2 ≠ .overrun) := by
  induction as with
  | nil =>
    intro s
    exact ⟨iff_of_true (fun x hx => absurd hx List.not_mem_nil) trivial, fun _ => End.noConfusion⟩
  | cons a as ih =>
    intro s
    have hturn : (∀ x ∈ ranges s a, x.Inside) ↔ Bounded s a := by
      cases a with
      | tap r => exact sendRanges_inside r
      | net => exact receiveRanges_inside s
    rw [runRanges, RunBounded, serve]
    rcases hact : act s a with ⟨s', e⟩
    cases e with
    | running =>
      obtain ⟨hiff, hrun⟩ := ih s'
      refine ⟨?_, fun h => hrun (h.2 rfl)⟩
      dsimp only
      rw [List.forall_mem_append, hturn, hiff]
      exact and_congr Iff.rfl ⟨fun h _ => h, fun h => h rfl⟩
    | left =>
      refine ⟨hturn.trans ⟨fun h => ⟨h, fun he => absurd he (by simp)⟩, And.left⟩, ?_⟩
      exact fun _ => End.noConfusion
    | exit =>
      refine ⟨hturn.trans ⟨fun h => ⟨h, fun he => absurd he (by simp)⟩, And.left⟩, ?_⟩
      exact fun _ => End.noConfusion
    | overrun =>
      refine ⟨hturn.trans ⟨fun h => ⟨h, fun he => absurd he (by simp)⟩, And.left⟩, ?_⟩
      intro h
      exact absurd (congrArg Prod.snd hact) (act_bounded h.1)

end CPrograms.Tun
