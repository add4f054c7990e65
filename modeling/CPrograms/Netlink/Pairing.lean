import CPrograms.Netlink.Talk

/-!
# Does the answer belong to the request?

`Messages m p size hs`: the datagram of `size` bytes at `p` is the messages at `hs`, each
padded.  On such a datagram the loop of `rtnl_talk` stops at the first message that it does
not skip (`talkLoop_spec`); what it returns there is paired with the request just when that
message is the first of the datagram and carries the number just sent (`rtnlTalk_pairs_iff`).
-/

namespace CPrograms.Netlink

open ByteMem CInts

/-- A sequence of well-formed messages. -/
def Messages (m : Mem) (p size : Nat) : List Nat → Prop
  | [] => size = 0
  | h :: hs => h = p ∧ sizeofNlmsghdr ≤ nlmsgLen m p ∧ nlmsgLen m p ≤ size ∧
      nlmsgAlign (nlmsgLen m p) ≤ size ∧
      Messages m (p + nlmsgAlign (nlmsgLen m p)) (size - nlmsgAlign (nlmsgLen m p)) hs

instance decidableMessages (m : Mem) (p size : Nat) : (hs : List Nat) → Decidable (Messages m p size hs)
  | [] => inferInstanceAs (Decidable (size = 0))
  | h :: hs =>
    have := decidableMessages m (p + nlmsgAlign (nlmsgLen m p)) (size - nlmsgAlign (nlmsgLen m p)) hs
    inferInstanceAs (Decidable (h = p ∧ _))

/-- An `NLMSG_ERROR` with its `struct nlmsgerr`, and an error in it. -/
def ErrorReply (m : Mem) (h : Nat) : Prop :=
  nlmsgType m h = nlmsgError ∧ sizeofNlmsghdr + sizeofNlmsgerr ≤ nlmsgLen m h ∧ nlmsgerrError m h ≠ 0

/-- An `NLMSG_ERROR` that ends within its `struct nlmsgerr`. -/
def TruncatedError (m : Mem) (h : Nat) : Prop :=
  nlmsgType m h = nlmsgError ∧ nlmsgLen m h < sizeofNlmsghdr + sizeofNlmsgerr

/-- The answer is paired with the request: the result is determined; where it is not negative,
`*answer` is a message of the datagram for this request, and no error. -/
def Pairs (m : Mem) (hs : List Nat) (pid seq : Nat) : Outcome → Prop
  | .exit => True
  | .returns r answer => ∃ v, r = .det v ∧
      (0 ≤ v → ∃ h ∈ hs, answer = some h ∧ nlmsgPid m h = pid ∧ nlmsgSeq m h = seq) ∧
      ∀ h ∈ hs, answer = some h → ErrorReply m h → v < 0

namespace Exchange

/-- What is returned at the message `h` if it is not skipped, and an answer is wanted. -/
def result (x : Exchange) (h : Nat) : Outcome :=
  if nlmsgType x.mem h = nlmsgError then
    if nlmsgLen x.mem h < sizeofNlmsghdr + sizeofNlmsgerr then .returns (.det (-1)) none
    else .returns (if nlmsgerrError x.mem h ≠ 0 then .indet else .det 0) (some x.buf)
  else .returns (.det 0) (some x.buf)

/-- The first message that is not skipped. -/
def found (x : Exchange) (hs : List Nat) : Option Nat := hs.find? fun h => ¬ x.Skips h

end Exchange

theorem reply_eq {x : Exchange} (hx : x.answer = true) {h : Nat} (h16 : sizeofNlmsghdr ≤ nlmsgLen x.mem h)
    (hlt : nlmsgLen x.mem h < 2 ^ 31) : x.reply h = some (x.result h) := by
  unfold sizeofNlmsghdr at h16
  unfold Exchange.reply Exchange.result sizeofNlmsghdr sizeofNlmsgerr
  rw [toInt_of_lt (v := (nlmsgLen x.mem h : Int)) (by omega) (by omega),
    toInt_of_lt (by omega) (by omega), hx]
  by_cases ht : nlmsgType x.mem h = nlmsgError
  · rw [if_pos ht, if_pos ht]
    by_cases hl : nlmsgLen x.mem h < 16 + 20
    · rw [if_pos hl, if_pos (by omega)]
    · rw [if_neg hl, if_neg (by omega), if_pos rfl]
  · rw [if_neg ht, if_neg ht, if_pos rfl]

/-- **The loop.**  Messages are skipped until one is answered; behind the last one nothing is
returned. -/
theorem talkLoop_spec {x : Exchange} (hx : x.answer = true) {p size : Nat} {hs : List Nat}
    (hwf : Messages x.mem p size hs) (hsize : size < 2 ^ 31) {fuel : Nat} (hfuel : hs.length < fuel) :
    talkLoop x fuel p size =
      some (match x.found hs with | some h => x.result h | none => .returns .indet none) := by
  induction hs generalizing p size fuel with
  | nil =>
    obtain ⟨fuel, rfl⟩ : ∃ k, fuel = k + 1 := ⟨fuel - 1, by omega⟩
    obtain rfl : size = 0 := hwf
    rfl
  | cons h hs ih =>
    obtain ⟨fuel, rfl⟩ : ∃ k, fuel = k + 1 := ⟨fuel - 1, by omega⟩
    obtain ⟨rfl, h16, hle, halign, hrest⟩ := hwf
    have hlen := toInt_of_lt (v := (nlmsgLen x.mem h : Int)) (by omega) (by omega)
    have h16' := h16
    unfold sizeofNlmsghdr at h16
    have hl := toInt_of_lt (v := (nlmsgLen x.mem h : Int) - sizeofNlmsghdr) (by omega) (by
      unfold sizeofNlmsghdr; omega)
    have hgo : ((size : Int) < 0 ∨ (size : Int) ≥ sizeofNlmsghdr) := by
      unfold sizeofNlmsghdr
      omega
    have hok : ¬ ((nlmsgLen x.mem h : Int) - sizeofNlmsghdr < 0 ∨ (nlmsgLen x.mem h : Int) > size) := by
      unfold sizeofNlmsghdr
      omega
    rw [talkLoop, if_pos hgo]
    dsimp only
    rw [hlen, hl, if_neg hok, Exchange.found, List.find?_cons]
    by_cases hskip : x.Skips h
    · rw [if_pos hskip]
      have hstatus : toInt ((size : Int) - nlmsgAlign (nlmsgLen x.mem h)) =
          ((size - nlmsgAlign (nlmsgLen x.mem h) : Nat) : Int) := by
        rw [toInt_of_lt (by omega) (by omega), Nat.cast_sub halign]
      rw [hstatus, ih hrest (by omega) (by simpa using hfuel)]
      simp [Exchange.found, hskip]
    · rw [if_neg hskip, reply_eq hx h16' (by omega)]
      simp [hskip]

/-- When an answer is paired: the first message that is not skipped is a truncated error, or it
is the first of the datagram, carries the number just sent, and is no error. -/
def AnswersFirst (x : Exchange) (hs : List Nat) : Prop :=
  ∃ h, x.found hs = some h ∧
    (TruncatedError x.mem h ∨ (hs.head? = some h ∧ nlmsgSeq x.mem h = x.seq ∧ ¬ ErrorReply x.mem h))

/-- A message for this request is not skipped where any is not. -/
theorem not_skips {x : Exchange} {h h' : Nat} (hno : ¬ x.Skips h)
    (hpid : nlmsgPid x.mem h' = x.pid) (hnum : nlmsgSeq x.mem h' = x.seq) : ¬ x.Skips h' := by
  unfold Exchange.Skips at *
  omega

theorem pairs_result_iff {x : Exchange} {size : Nat} {hs : List Nat}
    (hwf : Messages x.mem x.buf size hs) {h : Nat} (hfound : x.found hs = some h) :
    Pairs x.mem hs x.pid x.seq (x.result h) ↔ TruncatedError x.mem h ∨
      (hs.head? = some h ∧ nlmsgSeq x.mem h = x.seq ∧ ¬ ErrorReply x.mem h) := by
  have hno : ¬ x.Skips h := by simpa using List.find?_some hfound
  have hmem : h ∈ hs := List.mem_of_find?_eq_some hfound
  obtain ⟨h₀, tl, rfl⟩ := List.exists_cons_of_ne_nil (List.ne_nil_of_mem hmem)
  obtain rfl : h₀ = x.buf := hwf.1
  have hpid : nlmsgPid x.mem h = x.pid := by
    unfold Exchange.Skips at hno
    omega
  by_cases htrunc : TruncatedError x.mem h
  · have hres : x.result h = .returns (.det (-1)) none := by
      rw [Exchange.result, if_pos htrunc.1, if_pos htrunc.2]
    rw [hres]
    refine iff_of_true ⟨-1, rfl, fun h => absurd h (by decide), fun _ _ h => ?_⟩ (.inl htrunc)
    cases h
  · rw [or_iff_right htrunc]
    by_cases herr : ErrorReply x.mem h
    · have hres : x.result h = .returns .indet (some x.buf) := by
        rw [Exchange.result, if_pos herr.1, if_neg (Nat.not_lt.2 herr.2.1), if_pos herr.2.2]
      rw [hres]
      refine iff_of_false ?_ fun hc => hc.2.2 herr
      rintro ⟨v, hv, -⟩
      cases hv
    · have hres : x.result h = .returns (.det 0) (some x.buf) := by
        unfold Exchange.result
        by_cases ht : nlmsgType x.mem h = nlmsgError
        · have hl : ¬ nlmsgLen x.mem h < sizeofNlmsghdr + sizeofNlmsgerr := fun hl => htrunc ⟨ht, hl⟩
          have he : ¬ nlmsgerrError x.mem h ≠ 0 := fun he => herr ⟨ht, Nat.not_lt.1 hl, he⟩
          rw [if_pos ht, if_neg hl, if_neg he]
        · rw [if_neg ht]
      rw [hres]
      constructor
      · rintro ⟨v, hv, hans, -⟩
        cases hv
        obtain ⟨h', -, hh', hp', hs'⟩ := hans (Int.le_refl 0)
        obtain rfl : x.buf = h' := Option.some.inj hh'
        -- the message at `buf` is not skipped, so it is the one that was found
        have hfirst : x.found (x.buf :: tl) = some x.buf :=
          List.find?_cons_of_pos (by simpa using not_skips hno hp' hs')
        rw [hfirst] at hfound
        obtain rfl := Option.some.inj hfound
        exact ⟨rfl, hs', herr⟩
      · rintro ⟨hhead, hnum, -⟩
        obtain rfl : x.buf = h := Option.some.inj hhead
        refine ⟨0, rfl, fun _ => ⟨x.buf, List.mem_cons_self, rfl, hpid, hnum⟩, fun h' _ hh' he => ?_⟩
        obtain rfl : x.buf = h' := Option.some.inj hh'
        exact absurd he herr

theorem talkLoop_mono {x : Exchange} {fuel fuel' h : Nat} {status : Int} {out : Outcome}
    (hle : fuel ≤ fuel') (hout : talkLoop x fuel h status = some out) :
    talkLoop x fuel' h status = some out := by
  induction fuel generalizing fuel' h status with
  | zero => cases hout
  | succ fuel ih =>
    obtain ⟨fuel', rfl⟩ : ∃ k, fuel' = k + 1 := ⟨fuel' - 1, by omega⟩
    rw [talkLoop] at hout ⊢
    by_cases hgo : status < 0 ∨ status ≥ sizeofNlmsghdr
    · rw [if_pos hgo] at hout ⊢
      dsimp only at hout ⊢
      by_cases hbad : toInt (toInt (nlmsgLen x.mem h) - sizeofNlmsghdr) < 0 ∨
          toInt (nlmsgLen x.mem h) > status
      · rwa [if_pos hbad] at hout ⊢
      · rw [if_neg hbad] at hout ⊢
        by_cases hskip : x.Skips h
        · rw [if_pos hskip] at hout ⊢
          exact ih (Nat.le_of_succ_le_succ hle) hout
        · rw [if_neg hskip] at hout ⊢
          cases hreply : x.reply h with
          | some o => rwa [hreply] at hout
          | none =>
            rw [hreply] at hout
            exact ih (Nat.le_of_succ_le_succ hle) hout
    · rwa [if_neg hgo] at hout ⊢

/-- **Pairing.**  For every reply datagram `rtnl_talk` returns, and its answer is paired with the
request just when the first message that it does not skip answers it. -/
theorem rtnlTalk_pairs_iff {rtnl : Rtnl} {m : Mem} {n : Nat} {sendmsg : Mem → Int}
    {malloc : Nat → Option Nat} {rs : List Recv} {r : Received} {hs : List Nat}
    (hsend : 0 ≤ sendmsg (prepared rtnl m n true)) (hrecv : rtnlRecvmsg malloc rs = some (.ok r))
    (hname : r.namelen = sizeofSockaddrNl) (hsize : r.bytes.length < 2 ^ 31)
    (hwf : Messages (exchange rtnl m n true r).mem r.buf r.bytes.length hs) :
    (∃ fuel out, rtnlTalk fuel rtnl m n true sendmsg malloc rs = some out) ∧
    ∀ fuel out, rtnlTalk fuel rtnl m n true sendmsg malloc rs = some out →
      (Pairs (exchange rtnl m n true r).mem hs rtnl.pid rtnl.next out ↔
        AnswersFirst (exchange rtnl m n true r) hs) := by
  have htalk : ∀ fuel, rtnlTalk fuel rtnl m n true sendmsg malloc rs =
      talkLoop (exchange rtnl m n true r) fuel r.buf r.bytes.length := by
    intro fuel
    rw [rtnlTalk, if_neg (by omega), hrecv]
    exact if_neg (not_not_intro hname)
  have hloop := talkLoop_spec rfl hwf hsize (Nat.lt_succ_self _)
  refine ⟨⟨_, _, (htalk _).trans hloop⟩, fun fuel out hout => ?_⟩
  rw [htalk] at hout
  have h1 := talkLoop_mono (Nat.le_max_left fuel (hs.length + 1)) hout
  have h2 := talkLoop_mono (Nat.le_max_right fuel (hs.length + 1)) hloop
  obtain rfl : out = _ := Option.some.inj (h1.symm.trans h2)
  unfold AnswersFirst
  generalize hx : exchange rtnl m n true r = x at hwf ⊢
  cases hfound : x.found hs with
  | none =>
    refine iff_of_false ?_ ?_
    · rintro ⟨v, hv, -⟩
      cases hv
    · rintro ⟨h, hh, -⟩
      cases hh
  | some h =>
    have hbuf : r.buf = x.buf := by rw [← hx]; rfl
    rw [hbuf] at hwf
    have hiff := pairs_result_iff hwf hfound
    rw [← hx] at hiff ⊢
    refine Iff.trans hiff ⟨fun hc => ⟨h, rfl, hc⟩, ?_⟩
    rintro ⟨h', hh', hc⟩
    obtain rfl := Option.some.inj hh'
    exact hc

/-- A link message for the request 6 of the port 7, from the kernel. -/
def linkReply : Datagram :=
  ⟨0, 12, [32, 0, 0, 0, 16, 0, 0, 0, 6, 0, 0, 0, 7, 0, 0, 0] ++ List.replicate 16 0⟩

/-- An `NLMSG_ERROR` for the same request, with the error -19. -/
def errorReply : Datagram :=
  ⟨0, 12, [36, 0, 0, 0, 2, 0, 0, 0, 6, 0, 0, 0, 7, 0, 0, 0, 237, 255, 255, 255] ++ List.replicate 16 0⟩

theorem rtnlTalk_pairs_link : ∃ fuel out,
    rtnlTalk fuel ⟨5, 7⟩ (fun _ => 0) 0 true (fun _ => 32) (fun _ => some 4096)
      [.datagram linkReply, .datagram linkReply] = some out ∧
    Pairs (exchange ⟨5, 7⟩ (fun _ => 0) 0 true ⟨4096, 0, 12, linkReply.bytes, false⟩).mem [4096] 7 6 out := by
  have hrecv : rtnlRecvmsg (fun _ => some 4096) [.datagram linkReply, .datagram linkReply] =
      some (.ok ⟨4096, 0, 12, linkReply.bytes, false⟩) := rfl
  obtain ⟨⟨fuel, out, hout⟩, hiff⟩ := @rtnlTalk_pairs_iff ⟨5, 7⟩ (fun _ => 0) 0 (fun _ => 32) _ _ _ [4096]
    (by decide) hrecv rfl (by decide) (by decide +kernel)
  refine ⟨fuel, out, hout, (hiff fuel out hout).2 ⟨4096, by decide +kernel, .inr ⟨rfl, by decide +kernel, ?_⟩⟩⟩
  rintro ⟨htype, -, -⟩
  exact absurd htype (by decide +kernel)

theorem rtnlTalk_error_unpaired :
    let x := exchange ⟨5, 7⟩ (fun _ => 0) 0 true ⟨4096, 0, 12, errorReply.bytes, false⟩
    Messages x.mem 4096 36 [4096] ∧ nlmsgPid x.mem 4096 = 7 ∧ nlmsgSeq x.mem 4096 = 6 ∧
      ErrorReply x.mem 4096 ∧
      ∃ out, rtnlTalk 2 ⟨5, 7⟩ (fun _ => 0) 0 true (fun _ => 32) (fun _ => some 4096)
        [.datagram errorReply, .datagram errorReply] = some out ∧ ¬ Pairs x.mem [4096] 7 6 out := by
  refine ⟨by decide +kernel, by decide +kernel, by decide +kernel,
    ⟨by decide +kernel, by decide +kernel, by decide +kernel⟩, .returns .indet (some 4096),
    by decide +kernel, ?_⟩
  rintro ⟨v, hv, -⟩
  cases hv

end CPrograms.Netlink
