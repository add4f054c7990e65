import CPrograms.Netlink.RouteReads

/-!
# What is read of the datagrams

The program stays inside the messages that it comes to exactly if all of them are readable
(`recvMsg_inside`): the loop over a datagram by induction on its messages, and the datagrams
one after the other.
-/

namespace CPrograms.Netlink.RouteDump

open ByteMem Records Traces

/-! ## A datagram -/

/-- Where the messages of a datagram are. -/
def messages (m : Mem) (nlh : Nat) (len : Int) : List Nat :=
  (visits (nlmsgFormat m) nlh len).map Prod.fst

/-- The messages before the first `NLMSG_DONE`. -/
def beforeDone (m : Mem) (nlh : Nat) (len : Int) : List Nat :=
  (messages m nlh len).takeWhile fun p => nlmsgType m p ≠ nlmsgDone

def HasDone (m : Mem) (nlh : Nat) (len : Int) : Prop :=
  ∃ p ∈ messages m nlh len, nlmsgType m p = nlmsgDone

instance (m : Mem) (nlh : Nat) (len : Int) : Decidable (HasDone m nlh len) :=
  inferInstanceAs (Decidable (∃ p ∈ messages m nlh len, nlmsgType m p = nlmsgDone))

theorem messages_of_ok {m : Mem} {nlh : Nat} {len : Int} (h : (nlmsgFormat m).ok nlh len) :
    messages m nlh len = nlh :: messages m (nlh + (nlmsgFormat m).advance nlh)
      (len - (nlmsgFormat m).advance nlh) :=
  map_fst_visits_of_ok h

theorem messages_of_not {m : Mem} {nlh : Nat} {len : Int} (h : ¬ (nlmsgFormat m).ok nlh len) :
    messages m nlh len = [] :=
  map_fst_visits_of_not h

theorem beforeDone_of_ok {m : Mem} {nlh : Nat} {len : Int} (h : (nlmsgFormat m).ok nlh len)
    (hdone : nlmsgType m nlh ≠ nlmsgDone) :
    beforeDone m nlh len = nlh :: beforeDone m (nlh + (nlmsgFormat m).advance nlh)
      (len - (nlmsgFormat m).advance nlh) := by
  rw [beforeDone, messages_of_ok h, List.takeWhile_cons_of_pos (by simpa using hdone)]
  rfl

theorem beforeDone_of_done {m : Mem} {nlh : Nat} {len : Int} (h : (nlmsgFormat m).ok nlh len)
    (hdone : nlmsgType m nlh = nlmsgDone) : beforeDone m nlh len = [] := by
  rw [beforeDone, messages_of_ok h, List.takeWhile_cons_of_neg (by simpa using hdone)]

theorem beforeDone_of_not {m : Mem} {nlh : Nat} {len : Int} (h : ¬ (nlmsgFormat m).ok nlh len) :
    beforeDone m nlh len = [] := by
  rw [beforeDone, messages_of_not h, List.takeWhile_nil]

theorem hasDone_of_ok {m : Mem} {nlh : Nat} {len : Int} (h : (nlmsgFormat m).ok nlh len) :
    HasDone m nlh len ↔ nlmsgType m nlh = nlmsgDone ∨
      HasDone m (nlh + (nlmsgFormat m).advance nlh) (len - (nlmsgFormat m).advance nlh) := by
  unfold HasDone
  rw [messages_of_ok h]
  exact List.exists_mem_cons_iff ..

section Loop

variable {m : Mem} {fs : Func → Prop}

theorem only_nlmsgOkReads (nlh : Nat) (len : Int) : Only (InRegion fs) (nlmsgOkReads nlh len) := by
  have hsize : (sizeofNlmsghdr : Int) = 16 := rfl
  unfold nlmsgOkReads
  rw [only_emitIf]
  intro hle _
  dsimp only
  omega

theorem recvLoop_of_ok {nlh : Nat} {len : Int} (h : (nlmsgFormat m).ok nlh len) :
    recvLoop m nlh len = (nlmsgOkReads nlh len >>= fun _ =>
      (recvTurn m nlh).mark (nlh, nlmsgLen m nlh) >>= fun done =>
        if done then pure (some len)
        else recvLoop m (nlh + (nlmsgFormat m).advance nlh) (len - (nlmsgFormat m).advance nlh)) := by
  rw [recvLoop, if_pos h]

theorem recvLoop_of_not {nlh : Nat} {len : Int} (h : ¬ (nlmsgFormat m).ok nlh len) :
    recvLoop m nlh len = (nlmsgOkReads nlh len >>= fun _ => pure none) := by
  rw [recvLoop, if_neg h]

theorem result_nlmsgOkReads (nlh : Nat) (len : Int) :
    (nlmsgOkReads nlh len).result = some () :=
  result_emitIf _ _

/-- The inner loop. -/
theorem recvLoop_inside (hfs : ∀ f, RouteFunc f → fs f) (nlh : Nat) (len : Int) :
    (∀ p ∈ beforeDone m nlh len, KnownTypes m p) →
      (Only (InRegion fs) (recvLoop m nlh len) ↔
        ∀ p ∈ beforeDone m nlh len, Readable m p ∧ (fs .parseRtattr → NoDeficit m p)) := by
  induction nlh, len using visits_induction (f := nlmsgFormat m) with
  | stop nlh len hok =>
    intro _
    rw [beforeDone_of_not hok, recvLoop_of_not hok, only_bind]
    exact iff_of_true ⟨only_nlmsgOkReads nlh len, fun _ _ => only_pure _⟩
      (List.forall_mem_nil _)
  | step nlh len hok ih =>
    have hlen : sizeofNlmsghdr ≤ nlmsgLen m nlh := hok.2.2.1
    rw [recvLoop_of_ok hok, only_bind_of_result (result_nlmsgOkReads nlh len), only_bind, only_mark,
      result_mark]
    by_cases hdone : nlmsgType m nlh = nlmsgDone
    · intro _
      obtain ⟨honly, hres⟩ := recvTurn_of_done hfs hlen hdone
      rw [beforeDone_of_done hok hdone, hres]
      refine iff_of_true ⟨only_nlmsgOkReads nlh len, honly, ?_⟩ (List.forall_mem_nil _)
      intro done hd
      rw [← Option.some.inj hd, if_pos rfl]
      exact only_pure _
    · rw [beforeDone_of_ok hok hdone, List.forall_mem_cons, List.forall_mem_cons]
      rintro ⟨hty, htys⟩
      rw [recvTurn_inside hfs hlen hty hdone]
      constructor
      · rintro ⟨-, hturn, hrest⟩
        have hres := result_recvTurn hlen hty hdone hturn.1
        exact ⟨hturn, (ih htys).1 (hrest false hres)⟩
      · rintro ⟨hturn, hrest⟩
        refine ⟨only_nlmsgOkReads nlh len, hturn, ?_⟩
        intro done hd
        rw [result_recvTurn hlen hty hdone hturn.1] at hd
        rw [← Option.some.inj hd]
        exact (ih htys).2 hrest

/-- It is left early only by `NLMSG_DONE`. -/
theorem result_recvLoop (nlh : Nat) (len : Int) :
    (∀ p ∈ beforeDone m nlh len, KnownTypes m p ∧ Readable m p) →
      ∃ r, (recvLoop m nlh len).result = some r ∧ (r = none ↔ ¬ HasDone m nlh len) := by
  induction nlh, len using visits_induction (f := nlmsgFormat m) with
  | stop nlh len hok =>
    intro _
    refine ⟨none, ?_, iff_of_true rfl ?_⟩
    · rw [recvLoop_of_not hok, result_bind, result_nlmsgOkReads]
      rfl
    · unfold HasDone
      rw [messages_of_not hok]
      rintro ⟨p, hp, -⟩
      exact absurd hp List.not_mem_nil
  | step nlh len hok ih =>
    have hlen : sizeofNlmsghdr ≤ nlmsgLen m nlh := hok.2.2.1
    rw [recvLoop_of_ok hok, result_bind, result_nlmsgOkReads, Option.bind_some, result_bind,
      result_mark, hasDone_of_ok hok]
    by_cases hdone : nlmsgType m nlh = nlmsgDone
    · intro _
      rw [(@recvTurn_of_done m nlh (fun _ => True) (fun _ _ => trivial) hlen hdone).2]
      exact ⟨some len, rfl, iff_of_false (Option.some_ne_none len) (not_not.2 (.inl hdone))⟩
    · rw [beforeDone_of_ok hok hdone, List.forall_mem_cons]
      rintro ⟨⟨hty, hread⟩, htail⟩
      rw [result_recvTurn hlen hty hdone hread, or_iff_right hdone]
      exact ih htail

end Loop

/-! ## All datagrams -/

/-- The messages that the program comes to, with the memory at that time. -/
def processed (m : Mem) (buf : Nat) : List Recv → List (Mem × Nat)
  | some bytes :: rs =>
    if bytes.length > sizeofBuffer ∨ bytes.length = 0 then []
    else
      let m := storeBytes m buf bytes
      (beforeDone m buf bytes.length).map (m, ·) ++
        if HasDone m buf bytes.length then [] else processed m buf rs
  | _ => []

theorem processed_datagram (m : Mem) (buf : Nat) {bytes : List UInt8} (rs : List Recv)
    (h : ¬ (bytes.length > sizeofBuffer ∨ bytes.length = 0)) :
    processed m buf (some bytes :: rs) =
      (beforeDone (storeBytes m buf bytes) buf bytes.length).map (storeBytes m buf bytes, ·) ++
        if HasDone (storeBytes m buf bytes) buf bytes.length then []
        else processed (storeBytes m buf bytes) buf rs := by
  rw [processed, if_neg h]

theorem recvMsg_datagram (m : Mem) (buf : Nat) {bytes : List UInt8} (rs : List Recv)
    (h : ¬ (bytes.length > sizeofBuffer ∨ bytes.length = 0)) :
    recvMsg m buf (some bytes :: rs) =
      (recvLoop (storeBytes m buf bytes) buf bytes.length >>= fun r =>
        r.elim (recvMsg (storeBytes m buf bytes) buf rs) pure) := by
  obtain ⟨hle, hne⟩ := not_or.1 h
  rw [recvMsg, if_neg hle, if_neg hne]
  refine congrArg _ (funext fun r => ?_)
  cases r with
  | none => rfl
  | some _ => rfl

/-- **The program.**  All that it receives. -/
theorem recvMsg_inside {fs : Func → Prop} (hfs : ∀ f, RouteFunc f → fs f) (buf : Nat)
    (rs : List Recv) : ∀ m : Mem, (∀ x ∈ processed m buf rs, KnownTypes x.1 x.2) →
      (Only (InRegion fs) (recvMsg m buf rs) ↔
        ∀ x ∈ processed m buf rs, Readable x.1 x.2 ∧ (fs .parseRtattr → NoDeficit x.1 x.2)) := by
  induction rs with
  | nil =>
    intro m _
    exact iff_of_true (List.forall_mem_nil _) (List.forall_mem_nil _)
  | cons r rs ih =>
    intro m
    rcases r with _ | bytes
    · intro _
      exact iff_of_true (only_pure _) (List.forall_mem_nil _)
    · by_cases hsize : bytes.length > sizeofBuffer ∨ bytes.length = 0
      · intro _
        rw [processed, if_pos hsize]
        refine iff_of_true ?_ (List.forall_mem_nil _)
        rw [recvMsg]
        by_cases hlarge : bytes.length > sizeofBuffer
        · rw [if_pos hlarge]
          exact only_pure _
        · rw [if_neg hlarge, if_pos (hsize.resolve_left hlarge)]
          exact only_pure _
      · rw [processed_datagram m buf rs hsize, recvMsg_datagram m buf rs hsize,
          List.forall_mem_append, List.forall_mem_append, List.forall_mem_map, List.forall_mem_map]
        rintro ⟨hty, htys⟩
        rw [only_bind, recvLoop_inside hfs _ _ hty]
        refine and_congr_right fun hread => ?_
        obtain ⟨r, hres, hdone⟩ := result_recvLoop buf _ fun p hp => ⟨hty p hp, (hread p hp).1⟩
        by_cases h : HasDone (storeBytes m buf bytes) buf bytes.length
        · rw [if_pos h]
          refine iff_of_true ?_ (List.forall_mem_nil _)
          intro r' hr'
          obtain ⟨l, rfl⟩ := Option.ne_none_iff_exists'.1 (fun hn => hdone.1 hn h)
          rw [← Option.some.inj (hres.symm.trans hr')]
          exact only_pure _
        · rw [if_neg h] at htys ⊢
          rw [← ih _ htys]
          have hr : r = none := hdone.2 h
          constructor
          · intro hall
            exact hall none (hr ▸ hres)
          · intro hrest r' hr'
            rw [← Option.some.inj (hres.symm.trans hr'), hr]
            exact hrest

/-- **What is read.**  By the functions that look into routes, and by all of them. -/
theorem recvMsg_reads_exact (m : Mem) (buf : Nat) (rs : List Recv)
    (hty : ∀ x ∈ processed m buf rs, KnownTypes x.1 x.2) :
    (Only (InRegion RouteFunc) (recvMsg m buf rs) ↔
      ∀ x ∈ processed m buf rs, Readable x.1 x.2) ∧
    (Only (InRegion fun _ => True) (recvMsg m buf rs) ↔
      ∀ x ∈ processed m buf rs, Readable x.1 x.2 ∧ NoDeficit x.1 x.2) := by
  constructor
  · rw [recvMsg_inside (fun f hf => hf) buf rs m hty]
    refine forall₂_congr fun x _ => and_iff_left ?_
    -- `parse_rtattr` is not one of them
    intro hf
    rcases hf with h | h | h | h <;> exact absurd h (by decide)
  · rw [recvMsg_inside (fun f _ => trivial) buf rs m hty]
    exact forall₂_congr fun x _ => and_congr Iff.rfl ⟨fun h => h trivial, fun h _ => h⟩

/-! ### A datagram of one message -/

theorem beforeDone_single {m : Mem} {nlh : Nat} {len : Int} (hok : (nlmsgFormat m).ok nlh len)
    (hdone : nlmsgType m nlh ≠ nlmsgDone) (hend : len - (nlmsgFormat m).advance nlh < 16) :
    beforeDone m nlh len = [nlh] := by
  have hnot : ¬ (nlmsgFormat m).ok (nlh + (nlmsgFormat m).advance nlh)
      (len - (nlmsgFormat m).advance nlh) := by
    rintro ⟨-, h, -⟩
    exact absurd hend (not_lt.2 h)
  rw [beforeDone_of_ok hok hdone, beforeDone_of_not hnot]

theorem processed_single {m : Mem} {buf : Nat} {bytes : List UInt8}
    (hsize : ¬ (bytes.length > sizeofBuffer ∨ bytes.length = 0))
    (hok : (nlmsgFormat (storeBytes m buf bytes)).ok buf bytes.length)
    (hdone : nlmsgType (storeBytes m buf bytes) buf ≠ nlmsgDone)
    (hend : bytes.length - (nlmsgFormat (storeBytes m buf bytes)).advance buf < (16 : Int)) :
    processed m buf [some bytes] = [(storeBytes m buf bytes, buf)] := by
  rw [processed_datagram m buf [] hsize, beforeDone_single hok hdone hend]
  show [(storeBytes m buf bytes, buf)] ++ (if _ then [] else []) = _
  rw [ite_self, List.append_nil]

/-- A route of the main table, with an `RTA_TABLE`, an `RTA_ENCAP` and an `RTA_ENCAP_TYPE`. -/
def encapRoute : List UInt8 :=
  [52, 0, 0, 0, 24, 0, 2, 0, 0, 0, 0, 0, 0, 0, 0, 0, 2, 0, 0, 0, 254, 0, 0, 0, 0, 0, 0, 0,
    8, 0, 15, 0, 254, 0, 0, 0, 8, 0, 22, 0, 1, 2, 3, 4, 6, 0, 21, 0, 1, 0, 0, 0]

theorem encapRoute_processed :
    processed (fun _ => 0) 0 [some encapRoute] = [(storeBytes (fun _ => 0) 0 encapRoute, 0)] := by
  apply processed_single
  · decide
  · show _ ∧ nlmsgOk _ _ _
    decide
  · decide
  · decide

theorem encapRoute_attrs : messageAttrs (storeBytes (fun _ => 0) 0 encapRoute) 0 = [28, 36, 44] := by
  have hok (rta : Nat) (len : Int) (h : rtaOk (storeBytes (fun _ => 0) 0 encapRoute) rta len) :
      (rtaFormat (storeBytes (fun _ => 0) 0 encapRoute)).ok rta len := h
  have hnext (rta : Nat) (len : Int) : rtaOk (storeBytes (fun _ => 0) 0 encapRoute) rta len →
      rtaAlign (rtaLen (storeBytes (fun _ => 0) 0 encapRoute) rta) = 8 →
      attributes (storeBytes (fun _ => 0) 0 encapRoute) rta len =
        rta :: attributes (storeBytes (fun _ => 0) 0 encapRoute) (rta + 8) (len - 8) := by
    intro h hsize
    have hadvance : (rtaFormat (storeBytes (fun _ => 0) 0 encapRoute)).advance rta = 8 := hsize
    rw [attributes_of_ok (hok rta len h), hadvance]
    rfl
  show attributes _ 28 24 = _
  rw [hnext 28 24 (by decide) (by decide), hnext (28 + 8) (24 - 8) (by decide) (by decide),
    hnext (28 + 8 + 8) (24 - 8 - 8) (by decide) (by decide), attributes_of_not]
  show ¬ rtaOk _ _ _
  decide

/-- It is read as it should be. -/
theorem encapRoute_inside : Only (InRegion RouteFunc) (recvMsg (fun _ => 0) 0 [some encapRoute]) := by
  refine (recvMsg_reads_exact (fun _ => 0) 0 [some encapRoute] ?_).1.2 ?_
  · rw [encapRoute_processed, List.forall_mem_singleton]
    intro _
    rw [encapRoute_attrs]
    decide
  · rw [encapRoute_processed, List.forall_mem_singleton]
    refine ⟨by decide, ?_, ?_⟩
    · intro _ rta
      rw [encapRoute_attrs, show lastOf _ [28, 36, 44] rtaTable = some 28 by decide]
      intro hlast
      obtain rfl := Option.some.inj hlast
      decide
    · intro _ _
      rw [encapRoute_attrs, show lastOf _ [28, 36, 44] rtaEncapType = some 44 by decide]
      exact ⟨44, rfl, by decide⟩

/-- `NLMSG_NOOP`: a header and nothing behind it. -/
def noop : List UInt8 := [16, 0, 0, 0, 1, 0, 0, 0, 0, 0, 0, 0, 0, 0, 0, 0]

/-- The `rtm_table` of a message that has none. -/
theorem noop_outside :
    ¬ ((∀ x ∈ processed (fun _ => 0) 0 [some noop], KnownTypes x.1 x.2) →
      Only (InRegion RouteFunc) (recvMsg (fun _ => 0) 0 [some noop])) := by
  have hproc : processed (fun _ => 0) 0 [some noop] = [(storeBytes (fun _ => 0) 0 noop, 0)] := by
    apply processed_single
    · decide
    · show _ ∧ nlmsgOk _ _ _
      decide
    · decide
    · decide
  have hty : ∀ x ∈ processed (fun _ => 0) 0 [some noop], KnownTypes x.1 x.2 := by
    rw [hproc, List.forall_mem_singleton]
    exact fun hroute => absurd hroute.2 (by decide)
  intro h
  have hread := (recvMsg_inside (fun f hf => hf) 0 [some noop] (fun _ => 0) hty).1 (h hty)
  rw [hproc, List.forall_mem_singleton] at hread
  exact absurd hread.1.rtm (by decide)

end CPrograms.Netlink.RouteDump
