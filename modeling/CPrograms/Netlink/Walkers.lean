import CPrograms.Lib.Records
import CPrograms.Netlink.TalkIov

/-!
# Does the walk stay inside the reply?

What is left is a signed number that the loop compares as an unsigned one, and a message is
passed over with its padding.  As long as the padding is there too, `status` is what is left
of the reply and the loop stays inside of it; without it `status` turns negative, and the loop
looks at a header behind the reply (`walkLoop_inside_iff`).
-/

namespace CPrograms.Netlink

open ByteMem CInts Records Traces

theorem nlmsgLen_lt (m : Mem) (h : Nat) : nlmsgLen m h < 2 ^ 32 := loadLE_lt m h 4

/-- A message that is taken to be complete is so, or its length is negative as an `int`. -/
theorem not_malformed {m : Mem} {h : Nat} {status : Int} (hok : ¬ Malformed m h status) :
    sizeofNlmsghdr ≤ nlmsgLen m h ∧ (nlmsgLen m h : Int) ≤ status ∧ nlmsgLen m h < 2 ^ 31 ∨
      2 ^ 31 ≤ nlmsgLen m h ∧ nlmsgLen m h < 2 ^ 31 + sizeofNlmsghdr := by
  have hsize : (sizeofNlmsghdr : Int) = 16 := rfl
  have hlt := nlmsgLen_lt m h
  obtain ⟨hl, hlen⟩ := not_or.1 hok
  by_cases hint : nlmsgLen m h < 2 ^ 31
  · rw [toInt_of_lt (v := (nlmsgLen m h : Int)) (by omega) (by omega)] at hl hlen
    rw [toInt_of_lt (by omega) (by omega)] at hl
    left
    omega
  · right
    refine ⟨by omega, ?_⟩
    by_contra hge
    rw [toInt_of_ge (v := (nlmsgLen m h : Int)) (by omega) (by omega),
      toInt_of_lt (by omega) (by omega)] at hl
    omega

/-- The length with its padding. -/
theorem nlmsgAlign_bounds {n : Nat} (h : n < 2 ^ 32 - 3) :
    n ≤ nlmsgAlign n ∧ nlmsgAlign n < n + 4 ∧ nlmsgAlign n % 4 = 0 := by
  unfold nlmsgAlign
  omega

section

variable {β : Type} (w : Walker β)

/-- The messages that are passed over. -/
def passed : Format where
  ok := fun h status => sizeofNlmsghdr ≤ status ∧ ¬ Malformed w.mem h status ∧ w.judge h = none
  dec := fun _ _ => inferInstance
  advance := fun h => nlmsgAlign (nlmsgLen w.mem h)
  len_pos := by
    rintro h status ⟨hle, -⟩
    have hsize : (sizeofNlmsghdr : Int) = 16 := rfl
    omega
  advance_pos := by
    rintro h status ⟨-, hok, -⟩
    have hsize : sizeofNlmsghdr = 16 := rfl
    have hlen := not_malformed hok
    have := (nlmsgAlign_bounds (n := nlmsgLen w.mem h) (by omega)).1
    omega

/-- The header at `a` is inside what ends at `e`. -/
def HeaderInside (e : Int) (a : Nat) : Prop := (a : Int) + sizeofNlmsghdr ≤ e

/-- The walk ends, and looks at headers inside only. -/
def Inside (h : Nat) (status : Int) : Prop :=
  (∃ fuel, (walkLoop w fuel h status).result ≠ none) ∧
    ∀ fuel, Only (HeaderInside (h + status)) (walkLoop w fuel h status)

/-- Each message that is passed over has its padding. -/
def Padded (h : Nat) (status : Int) : Prop :=
  ∀ p ∈ visits (passed w) h status, (nlmsgAlign (nlmsgLen w.mem p.1) : Int) ≤ p.2

variable {w} {h : Nat} {status : Int}

/-- Where no message is passed over, there is at most one turn. -/
theorem inside_of_not (hpos : 0 ≤ status) (hok : ¬ (passed w).ok h status) : Inside w h status := by
  have hturn : ∃ out, ∀ fuel, (walkLoop w (fuel + 1) h status).result = some out ∧
      Only (HeaderInside (h + status)) (walkLoop w (fuel + 1) h status) := by
    by_cases hgo : status < 0 ∨ status ≥ sizeofNlmsghdr
    · have hhead : HeaderInside (h + status) h := by
        unfold HeaderInside
        omega
      by_cases hbad : Malformed w.mem h status
      · refine ⟨w.malformed, fun fuel => ?_⟩
        rw [walkLoop_malformed hgo hbad, only_emit_bind]
        exact ⟨rfl, hhead, only_pure _⟩
      · rcases hjudge : w.judge h with _ | out
        · exact absurd ⟨by omega, hbad, hjudge⟩ hok
        · refine ⟨out, fun fuel => ?_⟩
          rw [walkLoop_judged hgo hbad hjudge, only_emit_bind]
          exact ⟨rfl, hhead, only_pure _⟩
    · refine ⟨w.rest status, fun fuel => ?_⟩
      rw [walkLoop_stop hgo]
      exact ⟨rfl, only_pure _⟩
  obtain ⟨out, hturn⟩ := hturn
  refine ⟨⟨1, ?_⟩, ?_⟩
  · rw [(hturn 0).1]
    exact Option.some_ne_none out
  · intro fuel
    cases fuel with
    | zero => exact List.forall_mem_nil _
    | succ fuel => exact (hturn fuel).2

/-- Behind a message with its padding the walk is that over the rest. -/
theorem inside_of_ok (hint : status < 2 ^ 31) (hok : (passed w).ok h status)
    (hpad : ((passed w).advance h : Int) ≤ status) :
    Inside w h status ↔ Inside w (h + (passed w).advance h) (status - (passed w).advance h) := by
  obtain ⟨hle, hbad, hjudge⟩ := hok
  have hturn (fuel : Nat) : walkLoop w (fuel + 1) h status = (emit h >>= fun _ =>
      walkLoop w fuel (h + (passed w).advance h) (status - (passed w).advance h)) := by
    have hstatus : toInt (status - (passed w).advance h) = status - (passed w).advance h :=
      toInt_of_lt (by omega) (by omega)
    rw [walkLoop_passed (.inr hle) hbad hjudge]
    show (emit h >>= fun _ => walkLoop w fuel (h + (passed w).advance h)
      (toInt (status - (passed w).advance h))) = _
    rw [hstatus]
  have hend : ((h + (passed w).advance h : Nat) : Int) + (status - (passed w).advance h) = h + status := by
    omega
  have hhead : HeaderInside (h + status) h := by
    unfold HeaderInside
    omega
  unfold Inside
  rw [hend]
  refine and_congr ?_ ?_
  · constructor
    · rintro ⟨fuel, hres⟩
      cases fuel with
      | zero => exact absurd rfl hres
      | succ fuel =>
        rw [hturn, result_bind, result_emit, Option.bind_some] at hres
        exact ⟨fuel, hres⟩
    · rintro ⟨fuel, hres⟩
      refine ⟨fuel + 1, ?_⟩
      rw [hturn, result_bind, result_emit, Option.bind_some]
      exact hres
  · constructor
    · intro hall fuel
      have h1 := hall (fuel + 1)
      rw [hturn, only_emit_bind] at h1
      exact h1.2
    · intro hall fuel
      cases fuel with
      | zero => exact List.forall_mem_nil _
      | succ fuel =>
        rw [hturn, only_emit_bind]
        exact ⟨hhead, hall fuel⟩

/-- A turn looks at its header. -/
theorem only_header {P : Nat → Prop} {fuel : Nat} (hgo : status < 0 ∨ status ≥ sizeofNlmsghdr)
    (honly : Only P (walkLoop w (fuel + 1) h status)) : P h := by
  by_cases hbad : Malformed w.mem h status
  · rw [walkLoop_malformed hgo hbad, only_emit_bind] at honly
    exact honly.1
  · rcases hjudge : w.judge h with _ | out
    · rw [walkLoop_passed hgo hbad hjudge, only_emit_bind] at honly
      exact honly.1
    · rw [walkLoop_judged hgo hbad hjudge, only_emit_bind] at honly
      exact honly.1

/-- Behind a message without its padding `status` is negative, and the loop goes on. -/
theorem not_inside (hok : (passed w).ok h status) (hpad : status < (passed w).advance h) :
    ¬ Inside w h status := by
  have hsize : (sizeofNlmsghdr : Int) = 16 := rfl
  have hsize' : sizeofNlmsghdr = 16 := rfl
  obtain ⟨hle, hbad, hjudge⟩ := hok
  have halign := nlmsgAlign_bounds (n := nlmsgLen w.mem h) (by
    have := not_malformed hbad
    omega)
  have hneg : toInt (status - (passed w).advance h) < 0 := by
    have hadv : (passed w).advance h = nlmsgAlign (nlmsgLen w.mem h) := rfl
    have := not_malformed hbad
    rw [toInt_of_lt (by omega) (by omega)]
    omega
  rintro ⟨-, hall⟩
  have h2 := hall 2
  rw [walkLoop_passed (.inr hle) hbad hjudge, only_emit_bind] at h2
  have hhead : (h + (passed w).advance h : Nat) + (16 : Int) ≤ h + status :=
    only_header (.inl hneg) h2.2
  omega

/-- **The walk.** -/
theorem walkLoop_inside_iff (w : Walker β) (h : Nat) (status : Int) :
    0 ≤ status → status < 2 ^ 31 → (Inside w h status ↔ Padded w h status) := by
  induction h, status using visits_induction (f := passed w) with
  | stop h status hok =>
    intro hpos _
    refine iff_of_true (inside_of_not hpos hok) ?_
    unfold Padded
    rw [visits_of_not hok]
    exact List.forall_mem_nil _
  | step h status hok ih =>
    intro hpos hint
    unfold Padded
    rw [visits_of_ok hok, List.forall_mem_cons]
    by_cases hpad : ((passed w).advance h : Int) ≤ status
    · rw [inside_of_ok hint hok hpad, ih (by omega) (by omega)]
      exact (and_iff_right hpad).symm
    · exact iff_of_false (not_inside hok (by omega)) (fun h => hpad h.1)

end

/-- **The walks of both programs.**  Of every datagram of `n` bytes, wherever it is; and the first of
them is the loop of `rtnl_talk`. -/
theorem walkers_inside_iff (x : Exchange) (y : IovExchange) {n : Nat} (hn : n < 2 ^ 31) :
    (Inside x.walker x.buf n ↔ Padded x.walker x.buf n) ∧
      (Inside y.walkerIov y.buf n ↔ Padded y.walkerIov y.buf n) ∧
        ∀ fuel h status, (walkLoop x.walker fuel h status).result = talkLoop x fuel h status := by
  refine ⟨?_, ?_, result_walkLoop x⟩
  · exact walkLoop_inside_iff x.walker x.buf n (by omega) (by omega)
  · exact walkLoop_inside_iff y.walkerIov y.buf n (by omega) (by omega)

/-- A reply of one message of 17 bytes that is not from the kernel, with `pad` behind it. -/
def unaligned (pad : List UInt8) : Exchange where
  mem := storeBytes (fun _ => 0) 0 ([17, 0, 0, 0, 16, 0, 0, 0, 1, 0, 0, 0, 7, 0, 0, 0, 0] ++ pad)
  buf := 0
  seq := 1
  pid := 7
  nlPid := 9
  trunc := false
  answer := true

/-- With its padding. -/
theorem unaligned_padded_inside :
    Inside (unaligned [0, 0, 0]).walker 0 20 ∧
      Inside (IovExchange.mk (unaligned [0, 0, 0]) 1 1).walkerIov 0 20 := by
  have h := walkers_inside_iff (unaligned [0, 0, 0]) ⟨unaligned [0, 0, 0], 1, 1⟩ (n := 20) (by decide)
  refine ⟨h.1.2 ?_, h.2.1.2 ?_⟩
  · unfold Padded
    rw [visits_of_ok (by decide), visits_of_not (by decide), List.forall_mem_singleton]
    decide
  · unfold Padded
    rw [visits_of_ok (by decide), visits_of_not (by decide), List.forall_mem_singleton]
    decide

/-- Without. -/
theorem unaligned_outside :
    ¬ Inside (unaligned []).walker 0 17 ∧
      ¬ Inside (IovExchange.mk (unaligned []) 1 1).walkerIov 0 17 := by
  refine ⟨not_inside ?_ ?_, not_inside ?_ ?_⟩
  · decide
  · decide
  · decide
  · decide

end CPrograms.Netlink
