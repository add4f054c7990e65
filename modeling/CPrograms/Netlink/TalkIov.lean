import CPrograms.Lib.Traces
import CPrograms.Netlink.Talk

/-!
# The walk over a reply

`__rtnl_talk_iov` of `netlink_lwt_route/test.c` walks over the messages of a reply with the
loop of `rtnl_talk`.  They differ in the messages that they skip, in what is done with the
others, and behind the loop; the loop itself is `walkLoop`, with the headers it looks at.
`errno` is left out.
-/

namespace CPrograms.Netlink

open ByteMem CInts Traces

/-- What a function has of its own. -/
structure Walker (β : Type) where
  mem : Mem
  /-- what it does where a message is not complete -/
  malformed : β
  /-- with a message; `none`: the loop goes on -/
  judge : Nat → Option β
  /-- behind the loop, with what is left in `status` -/
  rest : Int → β

/-- `l < 0 || len > status` -/
def Malformed (m : Mem) (h : Nat) (status : Int) : Prop :=
  toInt (toInt (nlmsgLen m h) - sizeofNlmsghdr) < 0 ∨ toInt (nlmsgLen m h) > status

instance (m : Mem) (h : Nat) (status : Int) : Decidable (Malformed m h status) :=
  inferInstanceAs (Decidable (_ ∨ _))

/-- The loop, with the addresses of the headers that it looks at. -/
def walkLoop {β : Type} (w : Walker β) : Nat → Nat → Int → Traced Nat β
  | 0, _, _ => ⟨[], none⟩
  | fuel + 1, h, status =>
    -- `status >= sizeof(*h)` is a comparison of `size_t`
    if status < 0 ∨ status ≥ sizeofNlmsghdr then do
      emit h
      if Malformed w.mem h status then pure w.malformed
      else
        match w.judge h with
        | some out => pure out
        | none =>
          let align := nlmsgAlign (nlmsgLen w.mem h)
          walkLoop w fuel (h + align) (toInt (status - align))
    else pure (w.rest status)

/-! ### A turn -/

section

variable {β : Type} {w : Walker β} {fuel h : Nat} {status : Int}

theorem walkLoop_stop (hgo : ¬ (status < 0 ∨ status ≥ sizeofNlmsghdr)) :
    walkLoop w (fuel + 1) h status = pure (w.rest status) := by
  rw [walkLoop, if_neg hgo]

theorem walkLoop_malformed (hgo : status < 0 ∨ status ≥ sizeofNlmsghdr)
    (hbad : Malformed w.mem h status) :
    walkLoop w (fuel + 1) h status = (emit h >>= fun _ => pure w.malformed) := by
  rw [walkLoop, if_pos hgo, if_pos hbad]

theorem walkLoop_judged (hgo : status < 0 ∨ status ≥ sizeofNlmsghdr)
    (hbad : ¬ Malformed w.mem h status) {out : β} (hout : w.judge h = some out) :
    walkLoop w (fuel + 1) h status = (emit h >>= fun _ => pure out) := by
  rw [walkLoop, if_pos hgo, if_neg hbad, hout]

theorem walkLoop_passed (hgo : status < 0 ∨ status ≥ sizeofNlmsghdr)
    (hbad : ¬ Malformed w.mem h status) (hnone : w.judge h = none) :
    walkLoop w (fuel + 1) h status = (emit h >>= fun _ =>
      walkLoop w fuel (h + nlmsgAlign (nlmsgLen w.mem h))
        (toInt (status - nlmsgAlign (nlmsgLen w.mem h)))) := by
  rw [walkLoop, if_pos hgo, if_neg hbad, hnone]

end

/-! ## `rtnl_talk` -/

def Exchange.walker (x : Exchange) : Walker Outcome where
  mem := x.mem
  malformed := if x.trunc then .returns (.det (-1)) none else .exit
  judge := fun h => if x.Skips h then none else x.reply h
  rest := fun status => if status ≠ 0 then .exit else .returns .indet none

/-- It is the loop of `rtnl_talk`. -/
theorem result_walkLoop (x : Exchange) (fuel : Nat) : ∀ (h : Nat) (status : Int),
    (walkLoop x.walker fuel h status).result = talkLoop x fuel h status := by
  induction fuel with
  | zero => exact fun _ _ => rfl
  | succ fuel ih =>
    intro h status
    rw [talkLoop]
    by_cases hgo : status < 0 ∨ status ≥ sizeofNlmsghdr
    · rw [if_pos hgo]
      by_cases hbad : Malformed x.walker.mem h status
      · rw [walkLoop_malformed hgo hbad]
        exact (if_pos hbad).symm
      · refine Eq.trans ?_ (if_neg hbad).symm
        by_cases hskip : x.Skips h
        · have hjudge : x.walker.judge h = none := if_pos hskip
          rw [walkLoop_passed hgo hbad hjudge, if_pos hskip]
          exact ih _ _
        · have hjudge : x.walker.judge h = x.reply h := if_neg hskip
          rw [if_neg hskip]
          rcases hreply : x.reply h with _ | out
          · rw [walkLoop_passed hgo hbad (hjudge.trans hreply)]
            exact ih _ _
          · rw [walkLoop_judged hgo hbad (hjudge.trans hreply)]
            rfl
    · rw [if_neg hgo, walkLoop_stop hgo]
      rfl

/-! ## `__rtnl_talk_iov` -/

/-- What is done with a reply. -/
inductive Turn
  | returns (v : Int) (answer : Option Nat)
  | exit
  /-- the next one is received -/
  | receives

/-- With the number of requests, and of replies up to this one. -/
structure IovExchange extends Exchange where
  iovlen : Nat
  i : Nat

namespace IovExchange

/-- `seq - iovlen` is a `size_t`. -/
def SkipsIov (x : IovExchange) (h : Nat) : Prop :=
  x.nlPid ≠ 0 ∨ nlmsgPid x.mem h ≠ x.pid ∨ nlmsgSeq x.mem h > x.seq ∨
    (nlmsgSeq x.mem h : Int) < ((x.seq : Int) - x.iovlen) % 2 ^ 64

instance (x : IovExchange) (h : Nat) : Decidable (x.SkipsIov h) :=
  inferInstanceAs (Decidable (_ ∨ _))

def replyIov (x : IovExchange) (h : Nat) : Option Turn :=
  if nlmsgType x.mem h = nlmsgError then
    if toInt (toInt (nlmsgLen x.mem h) - sizeofNlmsghdr) < sizeofNlmsgerr then
      some (.returns (-1) none)
    else if x.i < x.iovlen then some .receives
    else if nlmsgerrError x.mem h ≠ 0 then some (.returns (-x.i) none)
    else some (.returns 0 (if x.answer then some x.buf else none))
  else if x.answer then some (.returns 0 (some x.buf))
  else none

def walkerIov (x : IovExchange) : Walker Turn where
  mem := x.mem
  malformed := if x.trunc then .returns (-1) none else .exit
  judge := fun h => if x.SkipsIov h then none else x.replyIov h
  rest := fun status => if x.trunc then .receives else if status ≠ 0 then .exit else .receives

end IovExchange

end CPrograms.Netlink
