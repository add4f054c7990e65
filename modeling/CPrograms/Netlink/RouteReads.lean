import CPrograms.Netlink.RouteAttrs

/-!
# What is read of a message

`recv_msg` takes a message to have an `rtmsg`, an `RTA_TABLE` to hold four bytes and an
`RTA_ENCAP` to come with an `RTA_ENCAP_TYPE` of two.  `Readable` says of a message that it is
so, `AttrsEnd` that `parse_rtattr` has a length to report or nothing; a turn stays inside its
message exactly if it is (`recvTurn_inside`).
-/

namespace CPrograms.Netlink.RouteDump

open ByteMem Records Traces

/-- Nothing is read of NULL, and what the functions `fs` read is in its region. -/
def InRegion (fs : Func → Prop) (x : Region × Event) : Prop :=
  match x.2 with
  | .read f a n => fs f → x.1.1 ≤ a ∧ a + n ≤ x.1.1 + x.1.2
  | .readNull _ => False
  | _ => True

/-- The functions that look into routes. -/
def RouteFunc (f : Func) : Prop :=
  f = .recvMsg ∨ f = .printRoute ∨ f = .rtmGetTable ∨ f = .lwtPrintEncap

/-! ## `parse_rtattr` -/

section Attrs

variable {m : Mem} {P : Event → Prop}

/-- The loop looks at whole attribute headers only. -/
theorem only_parseLoop {rta : Nat} {len : Int}
    (hread : ∀ q l, rta ≤ q → (q : Int) + l = rta + len → sizeofRtattr ≤ l →
      P (.read .parseRtattr q 2) ∧ P (.read .parseRtattr (q + 2) 2))
    (hprint : ∀ l, P (.print l)) (hwrite : ∀ i, P (.write i)) : ∀ tb : List (Option Nat),
    (∀ p ∈ attributes m rta len, rtaType m p < tb.length) → Only P (parseLoop m tb rta len) := by
  induction rta, len using visits_induction (f := rtaFormat m) with
  | stop rta len hok =>
    intro tb _
    rw [parseLoop_of_not hok, rtaOkReads, only_emitIf_bind]
    exact ⟨fun hle => (hread rta len (Nat.le_refl _) rfl hle).1, only_pure _⟩
  | step rta len hok ih =>
    intro tb hty
    rw [attributes_of_ok hok] at hty
    obtain ⟨hlt, hty⟩ := List.forall_mem_cons.1 hty
    obtain ⟨h1, h2⟩ := hread rta len (Nat.le_refl _) rfl hok.1
    rw [only_parseLoop_of_ok hok hlt, only_parseTurn]
    refine ⟨h1, ⟨h2, fun _ => hprint _, hwrite _⟩, ih ?_ _ ?_⟩
    · intro q l hq hsum hl
      exact hread q l (by omega) (by omega) hl
    · rw [List.length_set]
      exact hty

theorem only_parseRtattr {max rta : Nat} {len : Int}
    (hread : ∀ q l, rta ≤ q → (q : Int) + l = rta + len → sizeofRtattr ≤ l →
      P (.read .parseRtattr q 2) ∧ P (.read .parseRtattr (q + 2) 2))
    (hprint : ∀ l, P (.print l)) (hwrite : ∀ i, P (.write i))
    (hty : ∀ p ∈ attributes m rta len, rtaType m p ≤ max) :
    Only P (parseRtattr m max rta len) ↔
      ((stop (rtaFormat m) rta len).2 ≠ 0 →
        P (.read .parseRtattr (stop (rtaFormat m) rta len).1 2)) := by
  have hty' : ∀ p ∈ attributes m rta len,
      rtaType m p < (List.replicate (max + 1) (none : Option Nat)).length := by
    intro p hp
    have := hty p hp
    rw [List.length_replicate]
    omega
  obtain ⟨tb, hres, -⟩ := parseLoop_spec m rta len _ hty'
  unfold parseRtattr
  rw [only_bind_of_result hres]
  show Only P _ ∧ Only P (emitIf _ _ >>= fun _ => emitIf _ _ >>= fun _ => pure tb) ↔ _
  rw [only_emitIf_bind, only_emitIf_bind]
  constructor
  · exact fun h => h.2.1
  · exact fun h => ⟨only_parseLoop hread hprint hwrite _ hty', h, fun _ => hprint _, only_pure _⟩

end Attrs

/-! ## A message -/

def messageAttrs (m : Mem) (nlh : Nat) : List Nat :=
  attributes m (nlmsgData nlh + sizeofRtmsg) (nlmsgLen m nlh - nlmsgLength sizeofRtmsg)

/-- It is a route of the main table. -/
def IsRoute (m : Mem) (nlh : Nat) : Prop :=
  rtmTable m (nlmsgData nlh) = rtTableMain ∧ nlmsgLength sizeofRtmsg ≤ nlmsgLen m nlh

/-- The types of its attributes are the known ones. -/
def KnownTypes (m : Mem) (nlh : Nat) : Prop :=
  IsRoute m nlh → ∀ rta ∈ messageAttrs m nlh, rtaType m rta ≤ rtaMax

/-- There is an `rtm_table`, and in a route there are the payloads that are looked at. -/
structure Readable (m : Mem) (nlh : Nat) : Prop where
  rtm : 21 ≤ nlmsgLen m nlh
  table : IsRoute m nlh → ∀ rta, lastOf m (messageAttrs m nlh) rtaTable = some rta →
    rta + 8 ≤ nlh + nlmsgLen m nlh
  encap : IsRoute m nlh → lastOf m (messageAttrs m nlh) rtaEncap ≠ none →
    ∃ rta, lastOf m (messageAttrs m nlh) rtaEncapType = some rta ∧
      rta + 6 ≤ nlh + nlmsgLen m nlh

/-- Behind the attributes there is nothing, or a whole length field. -/
def AttrsEnd (m : Mem) (nlh : Nat) : Prop :=
  let left := (stop (rtaFormat m) (nlmsgData nlh + sizeofRtmsg)
    (nlmsgLen m nlh - nlmsgLength sizeofRtmsg)).2
  left = 0 ∨ 2 ≤ left

/-- What is left behind the attributes of a route is nothing, or has a length field. -/
def NoDeficit (m : Mem) (nlh : Nat) : Prop := IsRoute m nlh → AttrsEnd m nlh

theorem mem_attributes {m : Mem} {rta : Nat} {len : Int} {q : Nat} (h : q ∈ attributes m rta len) :
    rta ≤ q := by
  obtain ⟨⟨q, l⟩, hq, rfl⟩ := List.mem_map.1 h
  exact (mem_visits hq).2.1

theorem lastOf_mem {m : Mem} {attrs : List Nat} {type q : Nat} (h : lastOf m attrs type = some q) :
    q ∈ attrs :=
  (List.mem_filter.1 (List.mem_of_getLast? h)).1

theorem tbEntry_of_filled {m : Mem} {attrs : List Nat} {tb : List (Option Nat)} {max type : Nat}
    (h : Filled m attrs (List.replicate (max + 1) none) tb) (htype : type ≤ max) :
    tbEntry tb type = lastOf m attrs type := by
  rw [h.2 type (by rw [List.length_replicate]; omega), tbEntry_replicate, Option.or_none]

/-- The table of a message with known types. -/
theorem message_table {m : Mem} {nlh : Nat} (hty : ∀ rta ∈ messageAttrs m nlh, rtaType m rta ≤ rtaMax) :
    ∃ tb, (parseRtattr m rtaMax (nlmsgData nlh + sizeofRtmsg)
        (nlmsgLen m nlh - nlmsgLength sizeofRtmsg)).result = some tb ∧
      ∀ type, type ≤ rtaMax → tbEntry tb type = lastOf m (messageAttrs m nlh) type := by
  obtain ⟨tb, hres, hfilled⟩ := parseRtattr_spec hty
  exact ⟨tb, hres, fun type htype => tbEntry_of_filled hfilled htype⟩

section Parts

variable {m : Mem} {P : Event → Prop}

theorem result_readData (f : Func) (rta n : Nat) :
    (readData m f (some rta) n).result = some (loadLE m (rtaData rta) n) := rfl

theorem only_readData (f : Func) (rta n : Nat) :
    Only P (readData m f (some rta) n) ↔ P (.read f (rtaData rta) n) := by
  show Only P (emit _ >>= fun _ => pure _) ↔ _
  rw [only_emit_bind]
  exact and_iff_left (only_pure _)

theorem only_rtmGetTable (r : Nat) (tb : List (Option Nat)) :
    Only P (rtmGetTable m r tb) ↔ P (.read .rtmGetTable (r + 4) 1) ∧
      ∀ rta, tbEntry tb rtaTable = some rta → P (.read .rtmGetTable (rtaData rta) 4) := by
  unfold rtmGetTable
  rw [only_emit_bind]
  refine and_congr Iff.rfl ?_
  rcases htable : tbEntry tb rtaTable with _ | rta
  · exact iff_of_true (only_pure _) (fun rta he => absurd he (by simp))
  · rw [if_pos (by simp), only_bind_of_result (result_readData _ rta 4), only_readData]
    constructor
    · intro h rta' he
      rw [← Option.some.inj he]
      exact h.1
    · exact fun h => ⟨h rta rfl, only_pure _⟩

theorem result_rtmGetTable (r : Nat) (tb : List (Option Nat)) :
    ∃ v, (rtmGetTable m r tb).result = some v := by
  unfold rtmGetTable
  rw [result_bind, result_emit, Option.bind_some]
  rcases tbEntry tb rtaTable with _ | rta
  · exact ⟨_, rfl⟩
  · exact ⟨_, rfl⟩

theorem only_printEncap (hprint : ∀ l, P (.print l)) (hnull : ∀ f, ¬ P (.readNull f))
    (tb : List (Option Nat)) :
    Only P (printEncap m tb) ↔ (tbEntry tb rtaEncap ≠ none →
      ∃ rta, tbEntry tb rtaEncapType = some rta ∧ P (.read .lwtPrintEncap (rtaData rta) 2)) := by
  unfold printEncap
  by_cases hencap : tbEntry tb rtaEncap ≠ none
  · rw [if_pos hencap]
    unfold lwtPrintEncap
    rcases htype : tbEntry tb rtaEncapType with _ | rta
    · -- NULL is looked into
      refine iff_of_false ?_ ?_
      · rw [only_bind]
        exact fun h => hnull _ ((only_fault _).1 h.1)
      · intro h
        obtain ⟨rta, he, -⟩ := h hencap
        exact absurd he (by simp)
    · rw [only_bind_of_result (result_readData _ rta 2), only_readData]
      constructor
      · exact fun h _ => ⟨rta, rfl, h.1⟩
      · intro h
        obtain ⟨rta', he, hp⟩ := h hencap
        rw [← Option.some.inj he] at hp
        exact ⟨hp, (only_emit _).2 (hprint _)⟩
  · rw [if_neg hencap, only_emit]
    exact iff_of_true (hprint _) (fun h => absurd h hencap)

end Parts

section Message

variable {m : Mem} {nlh : Nat} {fs : Func → Prop} (hfs : ∀ f, RouteFunc f → fs f)
include hfs

theorem inRegion_read {f : Func} (hf : RouteFunc f) {r : Region} {a n : Nat} :
    InRegion fs (r, .read f a n) ↔ r.1 ≤ a ∧ a + n ≤ r.1 + r.2 :=
  ⟨fun h => h (hfs f hf), fun h _ => h⟩

omit hfs in
/-- Whole attribute headers are inside. -/
theorem attr_read_inside {q : Nat} {l : Int} (hq : nlmsgData nlh + sizeofRtmsg ≤ q)
    (hsum : (q : Int) + l =
      (nlmsgData nlh + sizeofRtmsg : Nat) + ((nlmsgLen m nlh : Int) - nlmsgLength sizeofRtmsg))
    (hl : sizeofRtattr ≤ l) :
    InRegion fs ((nlh, nlmsgLen m nlh), .read .parseRtattr q 2) ∧
      InRegion fs ((nlh, nlmsgLen m nlh), .read .parseRtattr (q + 2) 2) := by
  have hsize : nlmsgLength sizeofRtmsg = 28 := rfl
  have hstart : nlmsgData nlh + sizeofRtmsg = nlh + 28 := rfl
  have hattr : (sizeofRtattr : Int) = 4 := rfl
  refine ⟨fun _ => ?_, fun _ => ?_⟩
  · dsimp only
    omega
  · dsimp only
    omega

omit hfs in
/-- The length that is reported of what is left. -/
theorem deficit_inside :
    ((stop (rtaFormat m) (nlmsgData nlh + sizeofRtmsg)
        (nlmsgLen m nlh - nlmsgLength sizeofRtmsg)).2 ≠ 0 →
      InRegion fs ((nlh, nlmsgLen m nlh), .read .parseRtattr (stop (rtaFormat m)
        (nlmsgData nlh + sizeofRtmsg) (nlmsgLen m nlh - nlmsgLength sizeofRtmsg)).1 2)) ↔
      (fs .parseRtattr → AttrsEnd m nlh) := by
  have hsize : nlmsgLength sizeofRtmsg = 28 := rfl
  have hstart : nlmsgData nlh + sizeofRtmsg = nlh + 28 := rfl
  obtain ⟨-, hle, hsum⟩ := stop_spec (f := rtaFormat m) (nlmsgData nlh + sizeofRtmsg)
    (nlmsgLen m nlh - nlmsgLength sizeofRtmsg)
  unfold AttrsEnd InRegion
  dsimp only
  constructor
  · intro h hf
    by_cases hz : (stop (rtaFormat m) (nlmsgData nlh + sizeofRtmsg)
        (nlmsgLen m nlh - nlmsgLength sizeofRtmsg)).2 = 0
    · exact .inl hz
    · have := h hz hf
      omega
  · intro h hz hf
    have := h hf
    omega

/-- `print_route`, of a message that is long enough. -/
theorem only_printRoute (hlen : nlmsgLength sizeofRtmsg ≤ nlmsgLen m nlh)
    (hty : ∀ rta ∈ messageAttrs m nlh, rtaType m rta ≤ rtaMax) :
    Only (fun e => InRegion fs ((nlh, nlmsgLen m nlh), e)) (printRoute m nlh) ↔
      (fs .parseRtattr → AttrsEnd m nlh) ∧
        (∀ rta, lastOf m (messageAttrs m nlh) rtaTable = some rta →
          rta + 8 ≤ nlh + nlmsgLen m nlh) ∧
        (lastOf m (messageAttrs m nlh) rtaEncap ≠ none →
          ∃ rta, lastOf m (messageAttrs m nlh) rtaEncapType = some rta ∧
            rta + 6 ≤ nlh + nlmsgLen m nlh) := by
  have hsize : nlmsgLength sizeofRtmsg = 28 := rfl
  have hstart : nlmsgData nlh + sizeofRtmsg = nlh + 28 := rfl
  have hr : nlmsgData nlh = nlh + 16 := rfl
  have hdata (rta : Nat) : rtaData rta = rta + 4 := rfl
  obtain ⟨tb, hres, hentry⟩ := message_table hty
  obtain ⟨v, htable⟩ := result_rtmGetTable (m := m) (nlmsgData nlh) tb
  have hge {type rta : Nat} (h : lastOf m (messageAttrs m nlh) type = some rta) : nlh ≤ rta := by
    have := mem_attributes (lastOf_mem h)
    omega
  unfold printRoute
  dsimp only
  rw [only_emit_bind, if_neg (by omega), only_emit_bind, only_bind_of_result hres,
    only_parseRtattr (fun q l => attr_read_inside) (fun _ => trivial) (fun _ => trivial) hty, deficit_inside,
    only_bind_of_result htable, only_rtmGetTable, only_emit_bind, only_bind,
    only_printEncap (fun _ => trivial) (fun _ h => h), hentry _ (by decide), hentry _ (by decide),
    hentry _ (by decide)]
  simp only [inRegion_read hfs (.inr (.inl rfl)), inRegion_read hfs (.inr (.inr (.inl rfl))),
    inRegion_read hfs (.inr (.inr (.inr rfl))), hdata]
  constructor
  · rintro ⟨-, -, hdeficit, ⟨-, htab⟩, -, henc, -⟩
    refine ⟨hdeficit, ?_, ?_⟩
    · intro rta hlast
      have := (htab rta hlast).2
      omega
    · intro hne
      obtain ⟨rta, hlast, hin⟩ := henc hne
      exact ⟨rta, hlast, by omega⟩
  · rintro ⟨hdeficit, htab, henc⟩
    refine ⟨by omega, by omega, hdeficit, ⟨by omega, ?_⟩, trivial, ?_, fun _ _ => only_pure _⟩
    · intro rta hlast
      have := htab rta hlast
      have := hge hlast
      omega
    · intro hne
      obtain ⟨rta, hlast, hin⟩ := henc hne
      have := hge hlast
      exact ⟨rta, hlast, by omega⟩

omit hfs in
theorem result_printRoute (hlen : nlmsgLength sizeofRtmsg ≤ nlmsgLen m nlh)
    (hty : ∀ rta ∈ messageAttrs m nlh, rtaType m rta ≤ rtaMax)
    (hencap : lastOf m (messageAttrs m nlh) rtaEncap ≠ none →
      ∃ rta, lastOf m (messageAttrs m nlh) rtaEncapType = some rta) :
    (printRoute m nlh).result = some 0 := by
  have hsize : nlmsgLength sizeofRtmsg = 28 := rfl
  obtain ⟨tb, hres, hentry⟩ := message_table hty
  obtain ⟨v, htable⟩ := result_rtmGetTable (m := m) (nlmsgData nlh) tb
  have hprint : (printEncap m tb).result = some () := by
    unfold printEncap
    rw [hentry _ (by decide), hentry _ (by decide)]
    by_cases hne : lastOf m (messageAttrs m nlh) rtaEncap ≠ none
    · obtain ⟨rta, hlast⟩ := hencap hne
      rw [if_pos hne, hlast]
      rfl
    · rw [if_neg hne]
      rfl
  unfold printRoute
  dsimp only
  rw [result_bind, result_emit, Option.bind_some, if_neg (by omega), result_bind, result_emit,
    Option.bind_some, result_bind, hres, Option.bind_some, result_bind, htable, Option.bind_some,
    result_bind, result_emit, Option.bind_some, result_bind, hprint]
  rfl

/-- A message that is too short for a route is looked at no further. -/
theorem printRoute_short (hok : sizeofNlmsghdr ≤ nlmsgLen m nlh)
    (hlen : ¬ nlmsgLength sizeofRtmsg ≤ nlmsgLen m nlh) :
    Only (fun e => InRegion fs ((nlh, nlmsgLen m nlh), e)) (printRoute m nlh) ∧
      (printRoute m nlh).result = some (-1) := by
  have hsize : sizeofNlmsghdr = 16 := rfl
  unfold printRoute
  dsimp only
  rw [if_pos (by omega)]
  refine ⟨?_, rfl⟩
  rw [only_emit_bind, only_emit_bind, inRegion_read hfs (.inr (.inl rfl))]
  exact ⟨⟨Nat.le_refl _, by dsimp only; omega⟩, trivial, only_pure _⟩

/-- `print_route`, of any message. -/
theorem printRoute_inside (hok : sizeofNlmsghdr ≤ nlmsgLen m nlh)
    (hty : nlmsgLength sizeofRtmsg ≤ nlmsgLen m nlh →
      ∀ rta ∈ messageAttrs m nlh, rtaType m rta ≤ rtaMax) :
    Only (fun e => InRegion fs ((nlh, nlmsgLen m nlh), e)) (printRoute m nlh) ↔
      (nlmsgLength sizeofRtmsg ≤ nlmsgLen m nlh → (fs .parseRtattr → AttrsEnd m nlh) ∧
        (∀ rta, lastOf m (messageAttrs m nlh) rtaTable = some rta →
          rta + 8 ≤ nlh + nlmsgLen m nlh) ∧
        (lastOf m (messageAttrs m nlh) rtaEncap ≠ none →
          ∃ rta, lastOf m (messageAttrs m nlh) rtaEncapType = some rta ∧
            rta + 6 ≤ nlh + nlmsgLen m nlh)) := by
  by_cases hlen : nlmsgLength sizeofRtmsg ≤ nlmsgLen m nlh
  · rw [only_printRoute hfs hlen (hty hlen)]
    exact ⟨fun h _ => h, fun h => h hlen⟩
  · exact iff_of_true (printRoute_short hfs hok hlen).1 (fun h => absurd h hlen)

/-! ## A turn -/

omit hfs in
/-- `nlmsg_len` and the bytes that `print_debug` prints. -/
theorem only_printDebug (hok : sizeofNlmsghdr ≤ nlmsgLen m nlh) :
    Only (fun e => InRegion fs ((nlh, nlmsgLen m nlh), e)) (printDebug m nlh) := by
  have hsize : sizeofNlmsghdr = 16 := rfl
  unfold printDebug
  rw [only_emit_bind, only_emit_bind, only_emit]
  exact ⟨fun _ => ⟨Nat.le_refl _, by dsimp only; omega⟩, fun _ => ⟨Nat.le_refl _, Nat.le_refl _⟩,
    trivial⟩

theorem recvTurn_of_done (hok : sizeofNlmsghdr ≤ nlmsgLen m nlh)
    (hdone : nlmsgType m nlh = nlmsgDone) :
    Only (fun e => InRegion fs ((nlh, nlmsgLen m nlh), e)) (recvTurn m nlh) ∧
      (recvTurn m nlh).result = some true := by
  have hsize : sizeofNlmsghdr = 16 := rfl
  unfold recvTurn
  rw [if_pos hdone]
  refine ⟨?_, rfl⟩
  rw [only_emit_bind, only_bind_of_result rfl, only_emit_bind, only_emit_bind,
    inRegion_read hfs (.inl rfl)]
  exact ⟨trivial, only_printDebug hok, ⟨by omega, by dsimp only; omega⟩, trivial, only_pure _⟩

/-- **A turn.**  With a message that is not `NLMSG_DONE`. -/
theorem recvTurn_inside (hok : sizeofNlmsghdr ≤ nlmsgLen m nlh) (hty : KnownTypes m nlh)
    (hdone : nlmsgType m nlh ≠ nlmsgDone) :
    Only (fun e => InRegion fs ((nlh, nlmsgLen m nlh), e)) (recvTurn m nlh) ↔
      Readable m nlh ∧ (fs .parseRtattr → NoDeficit m nlh) := by
  have hsize : sizeofNlmsghdr = 16 := rfl
  have hr : nlmsgData nlh = nlh + 16 := rfl
  have hnext : Only (fun e => InRegion fs ((nlh, nlmsgLen m nlh), e))
      (emit (.read .recvMsg nlh 4) >>= fun _ => pure false) := by
    rw [only_emit_bind]
    exact ⟨fun _ => ⟨Nat.le_refl _, by dsimp only; omega⟩, only_pure _⟩
  unfold recvTurn
  dsimp only
  rw [if_neg hdone, only_emit_bind, only_bind_of_result rfl, only_emit_bind, only_emit_bind,
    inRegion_read hfs (.inl rfl), inRegion_read hfs (.inl rfl)]
  have hrest : Only (fun e => InRegion fs ((nlh, nlmsgLen m nlh), e))
      (if rtmTable m (nlmsgData nlh) ≠ rtTableMain then do
        emit (.read .recvMsg nlh 4)
        pure false
      else do
        let _ ← printRoute m nlh
        emit (.read .recvMsg nlh 4)
        pure false) ↔
      (IsRoute m nlh → (fs .parseRtattr → AttrsEnd m nlh) ∧
        (∀ rta, lastOf m (messageAttrs m nlh) rtaTable = some rta →
          rta + 8 ≤ nlh + nlmsgLen m nlh) ∧
        (lastOf m (messageAttrs m nlh) rtaEncap ≠ none →
          ∃ rta, lastOf m (messageAttrs m nlh) rtaEncapType = some rta ∧
            rta + 6 ≤ nlh + nlmsgLen m nlh)) := by
    by_cases hmain : rtmTable m (nlmsgData nlh) = rtTableMain
    · rw [if_neg (not_not.2 hmain), only_bind,
        printRoute_inside hfs hok fun hlen => hty ⟨hmain, hlen⟩]
      exact ⟨fun h hroute => h.1 hroute.2, fun h => ⟨fun hlen => h ⟨hmain, hlen⟩, fun _ _ => hnext⟩⟩
    · rw [if_pos hmain]
      exact iff_of_true hnext (fun h => absurd h.1 hmain)
  rw [hrest]
  constructor
  · rintro ⟨-, -, -, hrtm, hroute⟩
    refine ⟨⟨?_, fun h => (hroute h).2.1, fun h => (hroute h).2.2⟩, fun hf h => (hroute h).1 hf⟩
    have := hrtm.2
    dsimp only at this
    omega
  · rintro ⟨⟨hrtm, htable, hencap⟩, hdef⟩
    refine ⟨trivial, only_printDebug hok, ⟨by dsimp only; omega, by dsimp only; omega⟩,
      ⟨by dsimp only; omega, by dsimp only; omega⟩, ?_⟩
    intro h
    exact ⟨fun hf => hdef hf h, htable h, hencap h⟩

omit hfs in
theorem result_recvTurn (hok : sizeofNlmsghdr ≤ nlmsgLen m nlh) (hty : KnownTypes m nlh)
    (hdone : nlmsgType m nlh ≠ nlmsgDone) (h : Readable m nlh) :
    (recvTurn m nlh).result = some false := by
  unfold recvTurn
  dsimp only
  rw [if_neg hdone]
  by_cases hmain : rtmTable m (nlmsgData nlh) = rtTableMain
  · rw [if_neg (not_not.2 hmain)]
    have hprint : ∃ v, (printRoute m nlh).result = some v := by
      by_cases hlen : nlmsgLength sizeofRtmsg ≤ nlmsgLen m nlh
      · refine ⟨0, result_printRoute hlen (hty ⟨hmain, hlen⟩) ?_⟩
        intro hne
        obtain ⟨rta, hlast, -⟩ := h.encap ⟨hmain, hlen⟩ hne
        exact ⟨rta, hlast⟩
      · exact ⟨-1, (@printRoute_short m nlh (fun _ => True) (fun _ _ => trivial) hok hlen).2⟩
    obtain ⟨v, hv⟩ := hprint
    simp only [result_bind, result_emit, Option.bind_some, hv]
    rfl
  · rw [if_pos hmain]
    rfl

end Message

end CPrograms.Netlink.RouteDump
