import CPrograms.Netlink.RouteDump

/-!
# The attribute table

The table that `parse_rtattr` fills has room for the types up to `max`, and the types come from
the message.  As long as they stay below, each entry is the last attribute of its type
(`parseLoop_spec`); the first larger type is written behind the table (`parseLoop_outside`).
-/

namespace CPrograms.Netlink.RouteDump

open ByteMem Records Traces

/-- The attributes of the well-formed prefix. -/
def attributes (m : Mem) (rta : Nat) (len : Int) : List Nat :=
  (visits (rtaFormat m) rta len).map Prod.fst

/-- The last of `attrs` of type `type`. -/
def lastOf (m : Mem) (attrs : List Nat) (type : Nat) : Option Nat :=
  (attrs.filter fun rta => rtaType m rta = type).getLast?

/-- What the attributes `attrs` leave in a table that held `tb`. -/
def Filled (m : Mem) (attrs : List Nat) (tb tb' : List (Option Nat)) : Prop :=
  tb'.length = tb.length ∧
    ∀ type, type < tb.length → tbEntry tb' type = (lastOf m attrs type).or (tbEntry tb type)

theorem attributes_of_ok {m : Mem} {rta : Nat} {len : Int} (h : (rtaFormat m).ok rta len) :
    attributes m rta len = rta :: attributes m (rta + (rtaFormat m).advance rta)
      (len - (rtaFormat m).advance rta) :=
  map_fst_visits_of_ok h

theorem attributes_of_not {m : Mem} {rta : Nat} {len : Int} (h : ¬ (rtaFormat m).ok rta len) :
    attributes m rta len = [] :=
  map_fst_visits_of_not h

theorem lastOf_cons (m : Mem) (rta : Nat) (attrs : List Nat) (type : Nat) :
    lastOf m (rta :: attrs) type =
      (lastOf m attrs type).or (if rtaType m rta = type then some rta else none) := by
  unfold lastOf
  by_cases h : rtaType m rta = type
  · rw [List.filter_cons_of_pos (by simpa using h), if_pos h, List.getLast?_cons]
    cases (attrs.filter fun rta => rtaType m rta = type).getLast? with
    | none => rfl
    | some _ => rfl
  · rw [List.filter_cons_of_neg (by simpa using h), if_neg h, Option.or_none]

/-- One entry is set. -/
theorem filled_cons {m : Mem} {rta : Nat} {attrs : List Nat} {tb tb' : List (Option Nat)}
    (hlt : rtaType m rta < tb.length)
    (h : Filled m attrs (tb.set (rtaType m rta) (some rta)) tb') : Filled m (rta :: attrs) tb tb' := by
  obtain ⟨hlen, hentries⟩ := h
  rw [List.length_set] at hlen hentries
  refine ⟨hlen, ?_⟩
  intro type htype
  rw [hentries type htype, lastOf_cons, Option.or_assoc]
  refine congrArg _ ?_
  unfold tbEntry
  by_cases he : rtaType m rta = type
  · rw [if_pos he, ← he, List.getD_eq_getElem?_getD, List.getElem?_set_self hlt]
    rfl
  · rw [if_neg he, List.getD_eq_getElem?_getD, List.getElem?_set_ne he, Option.none_or,
      List.getD_eq_getElem?_getD]

/-! ## The loop -/

section

variable {m : Mem} {P : Event → Prop}

theorem parseLoop_of_ok {tb : List (Option Nat)} {rta : Nat} {len : Int}
    (h : (rtaFormat m).ok rta len) :
    parseLoop m tb rta len = (rtaOkReads rta len >>= fun _ => parseTurn m tb rta >>= fun tb =>
      parseLoop m tb (rta + (rtaFormat m).advance rta) (len - (rtaFormat m).advance rta)) := by
  rw [parseLoop, if_pos h]

theorem parseLoop_of_not {tb : List (Option Nat)} {rta : Nat} {len : Int}
    (h : ¬ (rtaFormat m).ok rta len) :
    parseLoop m tb rta len = (rtaOkReads rta len >>= fun _ => pure (tb, rta, len)) := by
  rw [parseLoop, if_neg h]

theorem result_parseTurn (tb : List (Option Nat)) (rta : Nat) :
    (parseTurn m tb rta).result =
      if rtaType m rta < tb.length then some (tb.set (rtaType m rta) (some rta)) else none := by
  unfold parseTurn setEntry
  rw [result_bind, result_emit, Option.bind_some, result_bind, result_emitIf, Option.bind_some]
  split
  · rfl
  · rfl

theorem only_parseTurn (tb : List (Option Nat)) (rta : Nat) :
    Only P (parseTurn m tb rta) ↔
      P (.read .parseRtattr (rta + 2) 2) ∧
      (rtaType m rta = rtaEncap → P (.print .rtaEncapYes)) ∧ P (.write (rtaType m rta)) := by
  have hset : Only P (setEntry tb (rtaType m rta) rta) ↔ P (.write (rtaType m rta)) := by
    unfold setEntry
    split
    · rw [only_emit_bind]
      exact and_iff_left (only_pure _)
    · exact only_fault _
  unfold parseTurn
  rw [only_emit_bind, only_emitIf_bind, hset]

theorem only_parseLoop_of_ok {tb : List (Option Nat)} {rta : Nat} {len : Int}
    (h : (rtaFormat m).ok rta len) (hlt : rtaType m rta < tb.length) :
    Only P (parseLoop m tb rta len) ↔
      P (.read .parseRtattr rta 2) ∧ Only P (parseTurn m tb rta) ∧
      Only P (parseLoop m (tb.set (rtaType m rta) (some rta)) (rta + (rtaFormat m).advance rta)
        (len - (rtaFormat m).advance rta)) := by
  have hlen : len ≥ sizeofRtattr := h.1
  rw [parseLoop_of_ok h, rtaOkReads, only_emitIf_bind, only_bind, result_parseTurn, if_pos hlt]
  refine and_congr ⟨fun hp => hp hlen, fun hp _ => hp⟩ (and_congr Iff.rfl ?_)
  exact ⟨fun hp => hp _ rfl, fun hp tb' htb => Option.some.inj htb ▸ hp⟩

end

/-- The loop, where the table has room for all types. -/
theorem parseLoop_spec (m : Mem) (rta : Nat) (len : Int) : ∀ tb : List (Option Nat),
    (∀ p ∈ attributes m rta len, rtaType m p < tb.length) →
      ∃ tb', (parseLoop m tb rta len).result = some (tb', stop (rtaFormat m) rta len) ∧
        Filled m (attributes m rta len) tb tb' := by
  induction rta, len using visits_induction (f := rtaFormat m) with
  | stop rta len hok =>
    intro tb _
    refine ⟨tb, ?_, ?_⟩
    · rw [parseLoop_of_not hok, stop_of_not hok, result_bind, rtaOkReads, result_emitIf,
        Option.bind_some]
      rfl
    · rw [attributes_of_not hok]
      exact ⟨rfl, fun type _ => (Option.none_or ..).symm⟩
  | step rta len hok ih =>
    intro tb hty
    rw [attributes_of_ok hok] at hty ⊢
    obtain ⟨hlt, hty⟩ := List.forall_mem_cons.1 hty
    obtain ⟨tb', hres, hfilled⟩ := ih (tb.set (rtaType m rta) (some rta)) (by
      rw [List.length_set]
      exact hty)
    refine ⟨tb', ?_, filled_cons hlt hfilled⟩
    rw [parseLoop_of_ok hok, stop_of_ok hok, result_bind, rtaOkReads, result_emitIf,
      Option.bind_some, result_bind, result_parseTurn, if_pos hlt, Option.bind_some]
    exact hres

/-- Writes to `tb[0..max]` only. -/
def InTable (max : Nat) : Event → Prop
  | .write i => i ≤ max
  | _ => True

theorem parseLoop_inTable (m : Mem) (max rta : Nat) (len : Int) : ∀ tb : List (Option Nat),
    tb.length = max + 1 →
      (Only (InTable max) (parseLoop m tb rta len) ↔
        ∀ p ∈ attributes m rta len, rtaType m p ≤ max) := by
  induction rta, len using visits_induction (f := rtaFormat m) with
  | stop rta len hok =>
    intro tb _
    rw [attributes_of_not hok, parseLoop_of_not hok, rtaOkReads, only_emitIf_bind]
    exact iff_of_true ⟨fun _ => trivial, only_pure _⟩ (List.forall_mem_nil _)
  | step rta len hok ih =>
    intro tb htb
    rw [attributes_of_ok hok, List.forall_mem_cons]
    by_cases hlt : rtaType m rta ≤ max
    · rw [only_parseLoop_of_ok hok (by omega), only_parseTurn, ih _ (by rw [List.length_set, htb])]
      constructor
      · exact fun h => ⟨hlt, h.2.2⟩
      · exact fun h => ⟨trivial, ⟨trivial, fun _ => trivial, hlt⟩, h.2⟩
    · -- the write goes behind the table
      refine iff_of_false ?_ (fun h => hlt h.1)
      rw [parseLoop_of_ok hok, rtaOkReads, only_emitIf_bind, only_bind, only_parseTurn]
      exact fun h => hlt h.2.1.2.2

/-! ## `parse_rtattr` -/

/-- `tb` holds an attribute of each type that there is, and nothing else. -/
def Faithful (m : Mem) (attrs : List Nat) (max : Nat) (tb : List (Option Nat)) : Prop :=
  tb.length = max + 1 ∧ ∀ type, type ≤ max →
    (∃ p ∈ attrs, rtaType m p = type ∧ tbEntry tb type = some p) ∨
    (∀ p ∈ attrs, rtaType m p ≠ type) ∧ tbEntry tb type = none

theorem lastOf_cases (m : Mem) (attrs : List Nat) (type : Nat) :
    (∃ p ∈ attrs, rtaType m p = type ∧ lastOf m attrs type = some p) ∨
    (∀ p ∈ attrs, rtaType m p ≠ type) ∧ lastOf m attrs type = none := by
  rcases hlast : lastOf m attrs type with _ | p
  · right
    refine ⟨?_, rfl⟩
    intro p hp he
    have hnil := List.getLast?_eq_none_iff.1 hlast
    have hmem : p ∈ attrs.filter fun rta => rtaType m rta = type :=
      List.mem_filter.2 ⟨hp, decide_eq_true he⟩
    rw [hnil] at hmem
    exact absurd hmem List.not_mem_nil
  · left
    obtain ⟨hp, he⟩ := List.mem_filter.1 (List.mem_of_getLast? hlast)
    exact ⟨p, hp, of_decide_eq_true he, rfl⟩

theorem tbEntry_replicate (n type : Nat) : tbEntry (List.replicate n none) type = none := by
  rw [tbEntry, List.getD_eq_getElem?_getD, List.getElem?_replicate]
  by_cases h : type < n
  · rw [if_pos h]
    rfl
  · rw [if_neg h]
    rfl

theorem filled_faithful {m : Mem} {attrs : List Nat} {max : Nat} {tb : List (Option Nat)}
    (h : Filled m attrs (List.replicate (max + 1) none) tb) : Faithful m attrs max tb := by
  obtain ⟨hlen, hentries⟩ := h
  rw [List.length_replicate] at hlen hentries
  refine ⟨hlen, ?_⟩
  intro type htype
  rw [hentries type (by omega), tbEntry_replicate, Option.or_none]
  exact lastOf_cases m attrs type

/-- `parse_rtattr`, where the table has room for all types. -/
theorem parseRtattr_spec {m : Mem} {max rta : Nat} {len : Int}
    (hty : ∀ p ∈ attributes m rta len, rtaType m p ≤ max) :
    ∃ tb, (parseRtattr m max rta len).result = some tb ∧
      Filled m (attributes m rta len) (List.replicate (max + 1) none) tb := by
  obtain ⟨tb, hres, hfilled⟩ := parseLoop_spec m rta len (List.replicate (max + 1) none) (by
    intro p hp
    have := hty p hp
    rw [List.length_replicate]
    omega)
  refine ⟨tb, ?_, hfilled⟩
  unfold parseRtattr
  rw [result_bind, hres, Option.bind_some]
  show (emitIf _ _ >>= fun _ => emitIf _ _ >>= fun _ => pure tb : Proc _).result = _
  rw [result_bind, result_emitIf, Option.bind_some, result_bind, result_emitIf]
  rfl

/-- **The attribute table.** -/
theorem parseRtattr_exact (m : Mem) (max rta : Nat) (len : Int) :
    (Only (InTable max) (parseRtattr m max rta len) ∧
      ∃ tb, (parseRtattr m max rta len).result = some tb ∧
        Faithful m (attributes m rta len) max tb) ↔
    ∀ p ∈ attributes m rta len, rtaType m p ≤ max := by
  have hloop := parseLoop_inTable m max rta len (List.replicate (max + 1) none) List.length_replicate
  constructor
  · rintro ⟨honly, -⟩
    unfold parseRtattr at honly
    rw [only_bind] at honly
    exact hloop.1 honly.1
  · intro hty
    obtain ⟨tb, hres, hfilled⟩ := parseRtattr_spec hty
    refine ⟨?_, tb, hres, filled_faithful hfilled⟩
    unfold parseRtattr
    rw [only_bind]
    refine ⟨hloop.2 hty, ?_⟩
    rintro ⟨tb, rta, len⟩ -
    show Only _ (emitIf _ _ >>= fun _ => emitIf _ _ >>= fun _ => pure tb)
    rw [only_emitIf_bind, only_emitIf_bind]
    exact ⟨fun _ => trivial, fun _ => trivial, only_pure _⟩

/-- An empty `RTA_ENCAP` that is flagged as nested. -/
def nestedAttr : Mem := storeBytes (fun _ => 0) 0 [4, 0, 22, 128]

/-- Its type is taken with the flag, and is no index of the table. -/
theorem nested_outside :
    ¬ (Only (InTable rtaMax) (parseRtattr nestedAttr rtaMax 0 4) ∧
      ∃ tb, (parseRtattr nestedAttr rtaMax 0 4).result = some tb ∧
        Faithful nestedAttr (attributes nestedAttr 0 4) rtaMax tb) := by
  rintro ⟨honly, -⟩
  unfold parseRtattr at honly
  rw [only_bind, parseLoop_inTable nestedAttr rtaMax 0 4 _ List.length_replicate] at honly
  have hok : (rtaFormat nestedAttr).ok 0 4 := by
    show rtaOk nestedAttr 0 4
    decide
  have hty := honly.1 0 (by
    rw [attributes_of_ok hok]
    exact List.mem_cons_self)
  exact absurd hty (by decide)

end CPrograms.Netlink.RouteDump
