import CPrograms.Libbpf.Strset
import CPrograms.Lib.Buffers

/-!
# The string set as a list of strings

`flat ss` are the strings `ss` as they stand in memory, `offsetOf ss s` is where the first `s` among them
starts.  The hash map holds the offsets of the first ones (`Indexed`), whatever stands behind them
(`Indexed.congr`), and one insertion finds the string behind the others or adds it (`Indexed.insert`).
-/

namespace CPrograms.Libbpf

open Chains CInts Runs

/-! ## Strings in memory -/

def flat (ss : List (List UInt8)) : List UInt8 := (ss.map fun s => s ++ [0]).flatten

def offsetOf (ss : List (List UInt8)) (s : List UInt8) : Nat := (flat (ss.takeWhile (· ≠ s))).length

variable {ss : List (List UInt8)} {s t : List UInt8} {data rest : List UInt8}

theorem flat_append (xs ys : List (List UInt8)) : flat (xs ++ ys) = flat xs ++ flat ys := by
  rw [flat, List.map_append, List.flatten_append]
  rfl

theorem flat_cons (s : List UInt8) (ss : List (List UInt8)) : flat (s :: ss) = s ++ 0 :: flat ss := by
  rw [flat, List.map_cons, List.flatten_cons, List.append_assoc]
  rfl

theorem flat_snoc (ss : List (List UInt8)) (s : List UInt8) : flat (ss ++ [s]) = flat ss ++ (s ++ [0]) := by
  rw [flat_append, flat_cons]
  rfl

theorem length_le_flat (ss : List (List UInt8)) : ss.length ≤ (flat ss).length := by
  induction ss with
  | nil => exact Nat.le_refl 0
  | cons s ss ih =>
    rw [flat_cons, List.length_append, List.length_cons, List.length_cons]
    omega

theorem takeWhile_ne {ys zs : List (List UInt8)} (hys : s ∉ ys) : (ys ++ s :: zs).takeWhile (· ≠ s) = ys := by
  rw [List.takeWhile_append_of_pos, List.takeWhile_cons_of_neg (by simp), List.append_nil]
  intro y hy
  exact decide_eq_true fun heq => hys (heq ▸ hy)

/-- The first of the strings that are `s`. -/
theorem split_first (h : s ∈ ss) : ∃ ys zs, ss = ys ++ s :: zs ∧ s ∉ ys ∧ offsetOf ss s = (flat ys).length := by
  obtain ⟨ys, zs, rfl, hys⟩ := List.eq_append_cons_of_mem h
  exact ⟨ys, zs, rfl, hys, by rw [offsetOf, takeWhile_ne hys]⟩

theorem offsetOf_snoc_of_mem (h : s ∈ ss) (t : List UInt8) : offsetOf (ss ++ [t]) s = offsetOf ss s := by
  obtain ⟨ys, zs, rfl, hys, hoff⟩ := split_first h
  rw [hoff, offsetOf, List.append_assoc, List.cons_append, takeWhile_ne hys]

theorem offsetOf_snoc_self (h : s ∉ ss) : offsetOf (ss ++ [s]) s = (flat ss).length := by
  rw [offsetOf, takeWhile_ne h]

theorem offsetOf_lt (h : s ∈ ss) : offsetOf ss s < (flat ss).length := by
  obtain ⟨ys, zs, rfl, -, hoff⟩ := split_first h
  rw [hoff, flat_append, flat_cons, List.length_append, List.length_append, List.length_cons]
  omega

theorem strAt_append {pre : List UInt8} (hdata : data = pre ++ (s ++ 0 :: rest)) (hs : 0 ∉ s) :
    strAt data pre.length = s := by
  rw [strAt, hdata, Int.toNat_natCast, List.drop_left]
  exact Buffers.takeWhile_ne_zero hs

/-- Each string is found at its offset. -/
theorem strAt_offsetOf (hdata : data = flat ss ++ rest) (hclean : ∀ t ∈ ss, 0 ∉ t) (h : s ∈ ss) :
    strAt data (offsetOf ss s) = s := by
  have hs := hclean s h
  obtain ⟨ys, zs, rfl, -, hoff⟩ := split_first h
  have hsplit : data = flat ys ++ (s ++ 0 :: (flat zs ++ rest)) := by
    rw [hdata, flat_append, flat_cons, List.append_assoc, List.append_assoc, List.cons_append]
  rw [hoff]
  exact strAt_append hsplit hs

/-! ## The index -/

/-- The map holds the offset of each of the strings. -/
def Indexed (data : List UInt8) (hash : State) (ss : List (List UInt8)) : Prop :=
  ∃ es, Holds (strsetFns data).hashFn hash es ∧ es.length ≤ ss.length ∧
    ∀ p, p ∈ es.map Prod.snd ↔ ∃ s ∈ ss, p = ⟨offsetOf ss s, offsetOf ss s⟩

theorem compatible_strsetFns (data : List UInt8) : Compatible (strsetFns data) :=
  fun _ _ h => congrArg strHash (of_decide_eq_true h)

theorem Holds.congr {hashFn hashFn' : Int → Nat} {hash : State} {es : List (Nat × Pair)}
    (h : Holds hashFn hash es)
    (heq : ∀ e ∈ es, hashFn' e.2.key = hashFn e.2.key) : Holds hashFn' hash es := by
  refine ⟨h.nodup, h.heap, h.size, ?_⟩
  cases h.table with
  | empty hbs hcap hbits hes => exact .empty hbs hcap hbits hes
  | buckets bs hsome hcap hlen htwo hsixty hload hbuckets =>
    refine .buckets bs hsome hcap hlen htwo hsixty hload fun i head hi => ?_
    have hsame : inBucket hashFn' hash.map.capBits i es = inBucket hashFn hash.map.capBits i es :=
      List.filter_congr fun e he => by rw [heq e he]
    rw [hsame]
    exact hbuckets i head hi

/-- What stands behind the strings does not matter. -/
theorem Indexed.congr {hash : State} {rest' : List UInt8} (h : Indexed (flat ss ++ rest) hash ss)
    (hclean : ∀ t ∈ ss, 0 ∉ t) : Indexed (flat ss ++ rest') hash ss := by
  obtain ⟨es, hholds, hlen, hmem⟩ := h
  refine ⟨es, hholds.congr fun e he => ?_, hlen, hmem⟩
  obtain ⟨s, hs, hp⟩ := (hmem e.2).1 (List.mem_map_of_mem he)
  show strHash _ = strHash _
  rw [hp, strAt_offsetOf rfl hclean hs, strAt_offsetOf rfl hclean hs]

/-- The lookup of the string behind the others. -/
theorem find_behind (hash : State) {es : List (Nat × Pair)} (hdata : data = flat ss ++ (s ++ 0 :: rest))
    (hclean : ∀ t ∈ ss, 0 ∉ t) (hs : 0 ∉ s)
    (hmem : ∀ p, p ∈ es.map Prod.snd ↔ ∃ t ∈ ss, p = ⟨offsetOf ss t, offsetOf ss t⟩) :
    (multi hash es).find (strsetFns data) (flat ss).length =
      if s ∈ ss then some ⟨offsetOf ss s, offsetOf ss s⟩ else none := by
  have hbehind : strAt data (flat ss).length = s := strAt_append hdata hs
  have hequal : ∀ t ∈ ss, (strsetFns data).equalFn (offsetOf ss t) (flat ss).length = decide (t = s) := by
    intro t ht
    show decide (strAt data _ = strAt data _) = _
    rw [hbehind, strAt_offsetOf hdata hclean ht]
  cases hfind : (multi hash es).find (strsetFns data) (flat ss).length with
  | none =>
    rw [if_neg]
    intro hss
    have hno := List.find?_eq_none.1 hfind _ ((hmem _).2 ⟨s, hss, rfl⟩)
    rw [hequal s hss] at hno
    exact hno (decide_eq_true rfl)
  | some p =>
    obtain ⟨t, ht, rfl⟩ := (hmem p).1 (List.mem_of_find?_eq_some hfind)
    have heq := List.find?_some (p := fun e : Pair => (strsetFns data).equalFn e.key (flat ss).length) hfind
    rw [hequal t ht, decide_eq_true_eq] at heq
    subst heq
    rw [if_pos ht]

/-- **One insertion.**  The string behind the others has its offset already, or gets one, or there is no memory. -/
theorem Indexed.insert {hash : State} (h : Indexed data hash ss) (hdata : data = flat ss ++ (s ++ 0 :: rest))
    (hclean : ∀ t ∈ ss, 0 ∉ t) (hs : 0 ∉ s) (calloc : Bool) {malloc : Option Nat}
    (hmalloc : ∀ a, malloc = some a → hash.heap a = none) : ∃ t r,
    hashmapInsert (hash.map.sz + 1)
      (strsetFns data) hash (flat ss).length (flat ss).length .add calloc malloc = some (t, r) ∧
      (s ∈ ss ∧ r = ⟨-EEXIST, offsetOf ss s, offsetOf ss s⟩ ∧ Indexed data t ss ∨
        s ∉ ss ∧ r = ⟨0, 0, 0⟩ ∧ Indexed data t (ss ++ [s]) ∨
        s ∉ ss ∧ r = ⟨-ENOMEM, 0, 0⟩ ∧ (malloc = none ∨ calloc = false ∨ 2 ^ 59 ≤ ss.length) ∧
          Indexed data t ss) := by
  obtain ⟨es, hholds, hlen, hmem⟩ := h
  obtain ⟨t, es', hcall, hholds', hmulti⟩ := insert_spec (compatible_strsetFns data) hholds (flat ss).length
    (flat ss).length .add calloc hmalloc
  have hfind := find_behind hash hdata hclean hs hmem
  have hentries : es'.map Prod.snd = _ := congrArg Multi.entries hmulti
  have hcount : es'.length = (es'.map Prod.snd).length := (List.length_map Prod.snd).symm
  unfold Multi.insert at hcall hentries
  rw [if_neg (by decide), hfind] at hcall hentries
  refine ⟨t, _, hcall, ?_⟩
  by_cases hss : s ∈ ss
  · left
    rw [if_pos hss] at hentries ⊢
    refine ⟨hss, rfl, es', hholds', ?_, fun p => ?_⟩
    · have hkept : (es.map Prod.snd).length ≤ ss.length := by
        rw [List.length_map]
        exact hlen
      rw [hcount, hentries]
      exact hkept
    · rw [hentries]
      exact hmem p
  · right
    rw [if_neg hss] at hentries ⊢
    dsimp only at hentries ⊢
    rcases insertNew_cases (multi hash es) (flat ss).length (flat ss).length .add calloc malloc with
      ⟨hno, -⟩ | ⟨m', hm', -, hcases⟩
    · cases hno
    have hmem' : ∀ p, p ∈ m'.entries ↔ ∃ t ∈ ss, p = ⟨offsetOf ss t, offsetOf ss t⟩ := by
      intro p
      rw [← hmem p]
      rcases hm' with rfl | rfl
      · exact Iff.rfl
      · exact List.mem_reverse
    have hlen' : m'.entries.length ≤ ss.length := by
      rw [← List.length_map (f := Prod.snd)] at hlen
      rcases hm' with rfl | rfl
      · exact hlen
      · rw [List.length_reverse]
        exact hlen
    rcases hcases with heq | ⟨heq, hwhy⟩
    · left
      rw [heq] at hentries ⊢
      refine ⟨hss, rfl, es', hholds', ?_, fun p => ?_⟩
      · rw [hcount, hentries, List.length_cons, List.length_append]
        exact Nat.succ_le_succ hlen'
      · -- the offsets of the others stay
        rw [hentries, List.mem_cons, hmem' p]
        constructor
        · rintro (rfl | ⟨t, ht, rfl⟩)
          · exact ⟨s, List.mem_append_right _ (List.mem_singleton.2 rfl), by rw [offsetOf_snoc_self hss]⟩
          · exact ⟨t, List.mem_append_left _ ht, by rw [offsetOf_snoc_of_mem ht]⟩
        · rintro ⟨t, ht, rfl⟩
          rcases List.mem_append.1 ht with ht | ht
          · exact .inr ⟨t, ht, by rw [offsetOf_snoc_of_mem ht]⟩
          · obtain rfl := List.mem_singleton.1 ht
            exact .inl (by rw [offsetOf_snoc_self hss])
    · right
      rw [heq] at hentries ⊢
      refine ⟨hss, rfl, hwhy.imp_right (Or.imp_right fun hfull => ?_), es', hholds', ?_, fun p => ?_⟩
      · refine Nat.le_trans hfull (Nat.le_trans (Nat.le_of_eq ?_) hlen)
        exact List.length_map _
      · rw [hcount, hentries]
        exact hlen'
      · rw [hentries]
        exact hmem' p

/-! ## The set -/

/-- The set holds the strings `ss`.  Offsets are an `int`. -/
structure Pooled (set : Strset) (ss : List (List UInt8)) : Prop where
  data : ∃ rest, set.strsData = flat ss ++ rest
  len : set.strsDataLen = (flat ss).length
  clean : ∀ s ∈ ss, 0 ∉ s
  indexed : Indexed set.strsData set.strsHash ss
  room : set.strsData.length ≤ 2 ^ 31
  limit : set.strsDataMaxLen ≤ 2 ^ 31

theorem libbpfAddMem_some {curCnt maxCnt addCnt : Nat} {realloc : Bool} {data' : List UInt8}
    (h : libbpfAddMem data curCnt maxCnt addCnt realloc = some data') :
    ∃ more, data' = data ++ more ∧ curCnt + addCnt ≤ data'.length ∧ data'.length ≤ max data.length maxCnt := by
  unfold libbpfAddMem at h
  split at h
  · next hroom =>
    obtain rfl := Option.some.inj h
    exact ⟨[], (List.append_nil _).symm, hroom, Nat.le_max_left ..⟩
  · split at h
    · cases h
    · dsimp only at h
      split at h
      · obtain rfl := Option.some.inj h
        refine ⟨_, rfl, ?_, ?_⟩
        · rw [List.length_append, List.length_replicate]
          omega
        · rw [List.length_append, List.length_replicate]
          omega
      · cases h

theorem libbpfAddMem_none {curCnt maxCnt addCnt : Nat} {realloc : Bool}
    (h : libbpfAddMem data curCnt maxCnt addCnt realloc = none) :
      realloc = false ∨ maxCnt < curCnt + addCnt := by
  unfold libbpfAddMem at h
  split at h
  · cases h
  · split at h
    · next hlimit => exact .inr hlimit
    · cases realloc with
      | false => exact .inl rfl
      | true => cases h

/-- The string is put behind the others, or there is no memory. -/
theorem Pooled.prepare {set : Strset} (h : Pooled set ss) (s : List UInt8) (realloc : Bool) :
    libbpfAddMem set.strsData set.strsDataLen set.strsDataMaxLen (s.length + 1) realloc = none ∧
      (realloc = false ∨ set.strsDataMaxLen < (flat ss).length + (s.length + 1)) ∨
    ∃ data rest, libbpfAddMem set.strsData set.strsDataLen set.strsDataMaxLen
      (s.length + 1) realloc = some data ∧
      memcpyAt data set.strsDataLen (s ++ [0]) = flat ss ++ (s ++ 0 :: rest) ∧
      (flat ss ++ (s ++ 0 :: rest)).length ≤ 2 ^ 31 := by
  obtain ⟨tail, htail⟩ := h.data
  cases hmem : libbpfAddMem set.strsData set.strsDataLen set.strsDataMaxLen (s.length + 1) realloc with
  | none =>
    rw [← h.len]
    exact .inl ⟨rfl, libbpfAddMem_none hmem⟩
  | some data =>
    right
    obtain ⟨more, rfl, hfits, hbound⟩ := libbpfAddMem_some hmem
    have hroom := h.room
    have hlimit := h.limit
    have hcopy : memcpyAt (set.strsData ++ more) set.strsDataLen (s ++ [0]) =
        flat ss ++ (s ++ 0 :: (set.strsData ++ more).drop (set.strsDataLen + (s.length + 1))) := by
      have htake : (set.strsData ++ more).take (flat ss).length = flat ss := by
        rw [htail, List.append_assoc, List.take_left]
      rw [memcpyAt, h.len, htake, List.append_assoc, List.append_assoc, List.length_append]
      rfl
    refine ⟨_, _, rfl, hcopy, ?_⟩
    rw [h.len] at hfits ⊢
    rw [List.length_append, List.length_append, List.length_cons, List.length_drop]
    omega

theorem Pooled.find {set : Strset} (h : Pooled set ss) (hs : 0 ∉ s) (realloc : Bool) : ∃ set' r,
    strsetFindStr set s realloc = some (set', r) ∧ Pooled set' ss ∧ set'.strsDataMaxLen = set.strsDataMaxLen ∧
      (r = (if s ∈ ss then (offsetOf ss s : Int) else -ENOENT) ∨
        r = -ENOMEM ∧ (realloc = false ∨ set.strsDataMaxLen < (flat ss).length + (s.length + 1))) := by
  unfold strsetFindStr
  rcases h.prepare s realloc with ⟨hnone, hwhy⟩ | ⟨data, rest, hsome, hcopy, hroom⟩
  · rw [hnone]
    exact ⟨set, -ENOMEM, rfl, h, rfl, .inr ⟨rfl, hwhy⟩⟩
  · obtain ⟨tail, htail⟩ := h.data
    have hindexed := h.indexed
    rw [htail] at hindexed
    have hnew : Indexed (flat ss ++ (s ++ 0 :: rest)) set.strsHash ss := hindexed.congr h.clean
    have hpool : Pooled ⟨flat ss ++ (s ++ 0 :: rest), (flat ss).length, set.strsDataMaxLen, set.strsHash⟩ ss :=
      ⟨⟨_, rfl⟩, rfl, h.clean, hnew, hroom, h.limit⟩
    obtain ⟨es, hholds, -, hmem⟩ := hnew
    have hcall := find_spec (compatible_strsetFns _) hholds (flat ss).length
    rw [find_behind _ rfl h.clean hs hmem] at hcall
    rw [hsome]
    dsimp only
    rw [hcopy, h.len, hcall]
    by_cases hss : s ∈ ss
    · have hlt : offsetOf ss s < 2 ^ 31 := by
        have hoff := offsetOf_lt hss
        rw [List.length_append] at hroom
        omega
      rw [if_pos hss, if_pos hss]
      exact ⟨_, _, rfl, hpool, rfl, .inl ((toInt_natCast_iff _).2 hlt)⟩
    · rw [if_neg hss, if_neg hss]
      exact ⟨_, _, rfl, hpool, rfl, .inl rfl⟩

theorem Pooled.add {set : Strset} (h : Pooled set ss) (hs : 0 ∉ s) (realloc calloc : Bool) {malloc : Option Nat}
    (hmalloc : ∀ a, malloc = some a → set.strsHash.heap a = none) : ∃ set' r ss',
    strsetAddStr set s realloc calloc malloc = some (set', r) ∧ Pooled set' ss' ∧
      set'.strsDataMaxLen = set.strsDataMaxLen ∧
      (ss' = (if s ∈ ss then ss else ss ++ [s]) ∧ r = offsetOf ss' s ∨
        ss' = ss ∧ r = -ENOMEM ∧ (realloc = false ∨ set.strsDataMaxLen < (flat ss).length + (s.length + 1) ∨
          s ∉ ss ∧ (malloc = none ∨ calloc = false))) := by
  unfold strsetAddStr
  rcases h.prepare s realloc with ⟨hnone, hwhy⟩ | ⟨data, rest, hsome, hcopy, hroom⟩
  · rw [hnone]
    exact ⟨set, -ENOMEM, ss, rfl, h, rfl, .inr ⟨rfl, rfl, hwhy.imp_right .inl⟩⟩
  · obtain ⟨tail, htail⟩ := h.data
    have hindexed := h.indexed
    rw [htail] at hindexed
    have hnew : Indexed (flat ss ++ (s ++ 0 :: rest)) set.strsHash ss := hindexed.congr h.clean
    obtain ⟨hash, r, hcall, hcases⟩ := hnew.insert rfl h.clean hs calloc hmalloc
    have hfits : (flat ss).length + (s.length + 1) ≤ 2 ^ 31 := by
      rw [List.length_append, List.length_append, List.length_cons] at hroom
      omega
    rw [hsome]
    dsimp only
    rw [hcopy, h.len, hcall]
    rcases hcases with ⟨hss, rfl, hkept⟩ | ⟨hss, rfl, hadded⟩ | ⟨hss, rfl, hwhy, hkept⟩
    · have hlt : offsetOf ss s < 2 ^ 31 := by
        have hoff := offsetOf_lt hss
        omega
      rw [if_pos hss]
      exact ⟨_, _, ss, rfl, ⟨⟨_, rfl⟩, rfl, h.clean, hkept, hroom, h.limit⟩, rfl,
        .inl ⟨rfl, (toInt_natCast_iff _).2 hlt⟩⟩
    · have hdata : flat ss ++ (s ++ 0 :: rest) = flat (ss ++ [s]) ++ rest := by
        rw [flat_snoc, List.append_assoc, List.append_assoc]
        rfl
      have hclean : ∀ t ∈ ss ++ [s], 0 ∉ t := by
        intro t ht
        rcases List.mem_append.1 ht with ht | ht
        · exact h.clean t ht
        · rw [List.mem_singleton.1 ht]
          exact hs
      have hlen : (flat ss).length + (s.length + 1) = (flat (ss ++ [s])).length := by
        rw [flat_snoc, List.length_append, List.length_append]
        rfl
      rw [if_neg hss]
      refine ⟨_, _, ss ++ [s], rfl, ⟨⟨rest, hdata⟩, hlen, hclean, hadded, hroom, h.limit⟩, rfl, .inl ⟨rfl, ?_⟩⟩
      rw [offsetOf_snoc_self hss]
      exact (toInt_natCast_iff _).2 (by omega)
    · refine ⟨_, _, ss, rfl, ⟨⟨_, rfl⟩, rfl, h.clean, hkept, hroom, h.limit⟩, rfl,
        .inr ⟨rfl, rfl, .inr (.inr ⟨hss, ?_⟩)⟩⟩
      have hfew := length_le_flat ss
      rcases hwhy with hwhy | hwhy | hwhy
      · exact .inl hwhy
      · exact .inr hwhy
      · omega

/-! ## `strset__new` -/

/-- A string that was there before. -/
theorem Indexed.again {hash : State} (h : Indexed data hash ss) (hs : s ∈ ss) :
    Indexed data hash (ss ++ [s]) := by
  obtain ⟨es, hholds, hlen, hmem⟩ := h
  refine ⟨es, hholds, by rw [List.length_append]; exact Nat.le_succ_of_le hlen, fun p => ?_⟩
  rw [hmem p]
  constructor
  · rintro ⟨t, ht, rfl⟩
    exact ⟨t, List.mem_append_left _ ht, by rw [offsetOf_snoc_of_mem ht]⟩
  · rintro ⟨t, ht, rfl⟩
    have ht' : t ∈ ss := by
      rcases List.mem_append.1 ht with ht | ht
      · exact ht
      · rw [List.mem_singleton.1 ht]
        exact hs
    exact ⟨t, ht', by rw [offsetOf_snoc_of_mem ht']⟩

/-- The strings `todo` are still to be indexed. -/
theorem indexStrs_spec {set : Strset} {todo : List (List UInt8)} (hdata : set.strsData = flat ss ++ flat todo)
    (hlen : set.strsDataLen = set.strsData.length) (hclean : ∀ t ∈ ss ++ todo, 0 ∉ t)
    (h : Indexed set.strsData set.strsHash ss) {fuel : Nat} (hfuel : todo.length < fuel)
    {answers : List (Bool × (Heap Pair → Option Nat))}
    (hfresh : ∀ x ∈ answers, ∀ heap a, x.2 heap = some a → heap a = none) :
    indexStrs fuel set (flat ss).length answers = some (.error (-ENOMEM)) ∨
      ∃ hash, indexStrs fuel set (flat ss).length answers = some (.ok { set with strsHash := hash }) ∧
        Indexed set.strsData hash (ss ++ todo) := by
  induction todo generalizing set ss fuel answers with
  | nil =>
    obtain ⟨fuel, rfl⟩ := Nat.exists_eq_add_one.2 (Nat.zero_lt_of_lt hfuel)
    refine .inr ⟨set.strsHash, ?_, by rw [List.append_nil]; exact h⟩
    rw [indexStrs, if_neg]
    rw [hlen, hdata, List.length_append]
    exact Nat.lt_irrefl _
  | cons s todo ih =>
    obtain ⟨fuel, rfl⟩ := Nat.exists_eq_add_one.2 (Nat.zero_lt_of_lt hfuel)
    have hs : 0 ∉ s := hclean s (by simp)
    have hss : ∀ t ∈ ss, 0 ∉ t := fun t ht => hclean t (List.mem_append_left _ ht)
    have hsplit : set.strsData = flat ss ++ (s ++ 0 :: flat todo) := by rw [hdata, flat_cons]
    have hlt : (flat ss).length < set.strsDataLen := by
      rw [hlen, hsplit, List.length_append, List.length_append, List.length_cons]
      omega
    have hmalloc : ∀ a, (answers.headD (false, fun _ => none)).2 set.strsHash.heap = some a →
        set.strsHash.heap a = none := by
      intro a ha
      cases answers with
      | nil => cases ha
      | cons x answers => exact hfresh x List.mem_cons_self _ a ha
    obtain ⟨hash, r, hcall, hcases⟩ := h.insert hsplit hss hs (answers.headD (false, fun _ => none)).1 hmalloc
    have hnext : (flat ss).length + (strAt set.strsData (flat ss).length).length + 1 =
        (flat (ss ++ [s])).length := by
      rw [strAt_append hsplit hs, flat_snoc, List.length_append, List.length_append]
      rfl
    have hrest : ∀ {hash}, Indexed set.strsData hash (ss ++ [s]) →
        indexStrs fuel { set with strsHash := hash }
          (flat (ss ++ [s])).length answers.tail = some (.error (-ENOMEM)) ∨
          ∃ hash', indexStrs fuel { set with strsHash := hash } (flat (ss ++ [s])).length answers.tail =
            some (.ok { set with strsHash := hash' }) ∧ Indexed set.strsData hash' (ss ++ s :: todo) := by
      intro hash hindexed
      have hsplit' : set.strsData = flat (ss ++ [s]) ++ flat todo := by
        rw [flat_snoc, List.append_assoc, List.append_assoc]
        exact hsplit
      have hstep := @ih (ss ++ [s]) { set with strsHash := hash } hsplit' hlen
        (by rw [List.append_assoc]; exact hclean) hindexed fuel (Nat.lt_of_succ_lt_succ hfuel) answers.tail
        fun x hx => hfresh x (List.mem_of_mem_tail hx)
      rw [List.append_assoc] at hstep
      exact hstep
    rw [indexStrs, if_pos hlt]
    dsimp only
    rw [hcall]
    show (if r.ret ≠ 0 ∧ r.ret ≠ -EEXIST then _ else _) = _ ∨ ∃ hash',
      (if r.ret ≠ 0 ∧ r.ret ≠ -EEXIST then _ else _) = _ ∧ _
    rw [hnext]
    rcases hcases with ⟨hmem, rfl, hkept⟩ | ⟨-, rfl, hadded⟩ | ⟨-, rfl, -, -⟩
    · rw [if_neg fun hno => hno.2 rfl]
      exact hrest (hkept.again hmem)
    · rw [if_neg (by decide)]
      exact hrest hadded
    · exact .inl (if_pos (by decide))

/-- **`strset__new`.**  There is no memory, or the set holds the strings of `init_data`. -/
theorem strsetNew_spec {maxDataSz : Nat} (hclean : ∀ t ∈ ss, 0 ∉ t) (hsize : (flat ss).length ≤ 2 ^ 31)
    (hmax : maxDataSz ≤ 2 ^ 31) {answers : List (Bool × (Heap Pair → Option Nat))}
    (hfresh : ∀ x ∈ answers, ∀ heap a, x.2 heap = some a → heap a = none) :
    strsetNew maxDataSz (flat ss) answers = some (.error (-ENOMEM)) ∨
      ∃ set, strsetNew maxDataSz (flat ss) answers = some (.ok set) ∧ Pooled set ss ∧
        set.strsDataMaxLen = maxDataSz := by
  have hstart : Indexed (flat ss) start [] := ⟨[], holds_start, Nat.le_refl 0, fun p => by simp⟩
  have hspec := @indexStrs_spec [] ⟨flat ss, (flat ss).length, maxDataSz, start⟩ ss rfl rfl hclean hstart
    ((flat ss).length + 1) (Nat.lt_succ_of_le (length_le_flat ss)) answers hfresh
  rcases hspec with herror | ⟨hash, hok, hindexed⟩
  · exact .inl herror
  · exact .inr ⟨_, hok, ⟨⟨[], (List.append_nil _).symm⟩, rfl, hclean, hindexed, hsize, hmax⟩, rfl⟩

/-! ## Runs -/

/-- A call, with what `realloc`, `calloc` and `malloc` answer. -/
inductive StrCall
  | add (s : List UInt8) (realloc calloc : Bool) (malloc : Option Nat)
  | find (s : List UInt8) (realloc : Bool)

def StrCall.str : StrCall → List UInt8
  | .add s .. => s
  | .find s _ => s

def StrCall.realloc : StrCall → Bool
  | .add _ realloc .. => realloc
  | .find _ realloc => realloc

def strCall (set : Strset) : StrCall → Option (Strset × Int)
  | .add s realloc calloc malloc => strsetAddStr set s realloc calloc malloc
  | .find s realloc => strsetFindStr set s realloc

/-- A string has no NUL, and `malloc` gives memory that is not in use. -/
def StrAllowed (set : Strset) (c : StrCall) : Prop :=
  0 ∉ c.str ∧ match c with
    | .add _ _ _ (some a) => set.strsHash.heap a = none
    | _ => True

/-- A call that comes to its end, and what it returns. -/
def StrStep (set : Strset) (c : StrCall × Int) (set' : Strset) : Prop :=
  StrAllowed set c.1 ∧ strCall set c.1 = some (set', c.2)

/-- What a call does to the strings, and returns, if the limit for the data is `limit`. -/
inductive PoolStep (limit : Nat) : List (List UInt8) → StrCall × Int → List (List UInt8) → Prop
  | found {ss : List (List UInt8)} {s : List UInt8} (realloc : Bool) :
      s ∈ ss → PoolStep limit ss (.find s realloc, offsetOf ss s) ss
  | missing {ss : List (List UInt8)} {s : List UInt8} (realloc : Bool) :
      s ∉ ss → PoolStep limit ss (.find s realloc, -ENOENT) ss
  | old {ss : List (List UInt8)} {s : List UInt8} (realloc calloc : Bool) (malloc : Option Nat) :
      s ∈ ss → PoolStep limit ss (.add s realloc calloc malloc, offsetOf ss s) ss
  | new {ss : List (List UInt8)} {s : List UInt8} (realloc calloc : Bool) (malloc : Option Nat) :
      s ∉ ss → PoolStep limit ss (.add s realloc calloc malloc, (flat ss).length) (ss ++ [s])
  | noData {ss : List (List UInt8)} {c : StrCall} :
    c.realloc = false ∨ limit < (flat ss).length + (c.str.length + 1) →
      PoolStep limit ss (c, -ENOMEM) ss
  | noEntry {ss : List (List UInt8)} {s : List UInt8} {realloc calloc : Bool} {malloc : Option Nat} :
      s ∉ ss → malloc = none ∨ calloc = false → PoolStep limit ss (.add s realloc calloc malloc, -ENOMEM) ss

/-- **One call.** -/
theorem pool_call {set : Strset} (h : Pooled set ss) {c : StrCall} (hc : StrAllowed set c) : ∃ set' r ss',
    strCall set c = some (set', r) ∧ Pooled set' ss' ∧ set'.strsDataMaxLen = set.strsDataMaxLen ∧
      PoolStep set.strsDataMaxLen ss (c, r) ss' := by
  cases c with
  | find s realloc =>
    have hs : 0 ∉ s := hc.1
    obtain ⟨set', r, hcall, hpool, hmax, hr⟩ := h.find hs realloc
    refine ⟨set', r, ss, hcall, hpool, hmax, ?_⟩
    rcases hr with rfl | ⟨rfl, hwhy⟩
    · split
      · next hss => exact .found realloc hss
      · next hss => exact .missing realloc hss
    · exact .noData hwhy
  | add s realloc calloc malloc =>
    have hmalloc : ∀ a, malloc = some a → set.strsHash.heap a = none := by
      rintro a rfl
      exact hc.2
    have hs : 0 ∉ s := hc.1
    obtain ⟨set', r, ss', hcall, hpool, hmax, hr⟩ := h.add hs realloc calloc hmalloc
    refine ⟨set', r, ss', hcall, hpool, hmax, ?_⟩
    rcases hr with ⟨rfl, rfl⟩ | ⟨rfl, rfl, hwhy⟩
    · by_cases hss : s ∈ ss
      · rw [if_pos hss]
        exact .old realloc calloc malloc hss
      · rw [if_neg hss, offsetOf_snoc_self hss]
        exact .new realloc calloc malloc hss
    · rcases hwhy with hno | hlimit | ⟨hss, hwhy⟩
      · exact .noData (.inl hno)
      · exact .noData (.inr hlimit)
      · exact .noEntry hss hwhy

theorem pool_run {set t : Strset} (h : Pooled set ss) {cs : List (StrCall × Int)}
    (hrun : Run StrStep set cs t) :
    ∃ ss', Run (PoolStep set.strsDataMaxLen) ss cs ss' ∧ Pooled t ss' := by
  induction hrun generalizing ss with
  | nil set => exact ⟨ss, .nil ss, h⟩
  | @cons set u t c cs hstep _ ih =>
    obtain ⟨set', r, ss', hcall, hpool, hmax, hpoolStep⟩ := pool_call h hstep.1
    obtain ⟨rfl, hr⟩ := Prod.mk.inj (Option.some.inj (hcall.symm.trans hstep.2))
    obtain ⟨ss'', hrest, hpool'⟩ := ih hpool
    rw [hmax] at hrest
    rw [hr] at hpoolStep
    exact ⟨ss'', .cons hpoolStep hrest, hpool'⟩

theorem pool_new {maxDataSz : Nat} (hclean : ∀ t ∈ ss, 0 ∉ t) (hsize : (flat ss).length ≤ 2 ^ 31)
    (hmax : maxDataSz ≤ 2 ^ 31)
    {answers : List (Bool × (Heap Pair → Option Nat))}
    (hfresh : ∀ x ∈ answers, ∀ heap a, x.2 heap = some a → heap a = none)
    {set t : Strset} (hnew : strsetNew maxDataSz (flat ss) answers = some (.ok set)) {cs : List (StrCall × Int)}
    (hrun : Run StrStep set cs t) : ∃ ss', Run (PoolStep maxDataSz) ss cs ss' ∧ Pooled t ss' := by
  rcases strsetNew_spec hclean hsize hmax hfresh with herror | ⟨set', hok, hpool, hlimit⟩
  · rw [herror] at hnew
    cases hnew
  · obtain rfl : set' = set := Except.ok.inj (Option.some.inj (hok.symm.trans hnew))
    rw [← hlimit]
    exact pool_run hpool hrun

/-- **The string set is a list of strings.**  Over every run of calls on a new set, and whatever the allocator
answers, the calls return what the list says; the next call comes to its end; and what the
hash map reads at a key is a string within the data. -/
theorem strset_pool {maxDataSz : Nat} (hclean : ∀ t ∈ ss, 0 ∉ t) (hsize : (flat ss).length ≤ 2 ^ 31)
    (hmax : maxDataSz ≤ 2 ^ 31)
    {answers : List (Bool × (Heap Pair → Option Nat))}
    (hfresh : ∀ x ∈ answers, ∀ heap a, x.2 heap = some a → heap a = none)
    {set t : Strset} (hnew : strsetNew maxDataSz (flat ss) answers = some (.ok set)) {cs : List (StrCall × Int)}
    (hrun : Run StrStep set cs t) : ∃ ss', Run (PoolStep maxDataSz) ss cs ss' ∧
      t.strsData.take t.strsDataLen = flat ss' ∧ t.strsDataLen = (flat ss').length ∧
      (∀ c, StrAllowed t c → ∃ r u, StrStep t (c, r) u) ∧
      ∀ a entry, t.strsHash.heap a = some entry → ∃ s ∈ ss', strAt t.strsData entry.data.key = s ∧
        entry.data = ⟨offsetOf ss' s, offsetOf ss' s⟩ := by
  obtain ⟨ss', hrun', hpool'⟩ := pool_new hclean hsize hmax hfresh hnew hrun
  obtain ⟨rest, hdata⟩ := hpool'.data
  refine ⟨ss', hrun', ?_, hpool'.len, fun c hc => ?_, fun a entry ha => ?_⟩
  · rw [hdata, hpool'.len, List.take_left]
  · obtain ⟨u, r, -, hcall, -⟩ := pool_call hpool' hc
    exact ⟨r, u, hc, hcall⟩
  · obtain ⟨es, hholds, -, hmem⟩ := hpool'.indexed
    have hlive : ¬ ∀ e ∈ es, e.1 ≠ a := fun hno => by rw [(hholds.heap a).2 hno] at ha; cases ha
    push Not at hlive
    obtain ⟨⟨b, d⟩, he, rfl⟩ := hlive
    obtain ⟨ys, zs, rfl⟩ := List.append_of_mem he
    obtain ⟨r, hr⟩ := hholds.entry
    obtain rfl := Option.some.inj (ha.symm.trans hr)
    obtain ⟨s, hs, hd⟩ := (hmem d).1 (List.mem_map_of_mem he)
    refine ⟨s, hs, ?_, hd⟩
    show strAt t.strsData d.key = s
    rw [hd]
    exact strAt_offsetOf hdata hpool'.clean hs

/-- What `malloc` answers for the first entry. -/
def oneAnswer : List (Bool × (Heap Pair → Option Nat)) :=
  [(true, fun heap => if (heap 40).isNone then some 40 else none)]

theorem oneAnswer_fresh : ∀ x ∈ oneAnswer, ∀ heap a, x.2 heap = some a → heap a = none := by
  intro x hx heap a ha
  rw [List.mem_singleton.1 hx] at ha
  dsimp only at ha
  split at ha
  · next hnone =>
    rw [← Option.some.inj ha]
    exact Option.isNone_iff_eq_none.1 hnone
  · cases ha

/-- The empty string from the start, and three calls for two strings. -/
theorem three_calls : ∃ set t, strsetNew 100 (flat [[]]) oneAnswer = some (.ok set) ∧
    Run StrStep set [(.add [65] true true (some 41), 1), (.add [66] true true (some 42), 3),
      (.find [65] true, 1)] t ∧
    t.strsDataLen = 5 :=
  ⟨_, _, rfl, .cons ⟨⟨by decide, rfl⟩, rfl⟩ (.cons ⟨⟨by decide, rfl⟩, rfl⟩
    (.cons ⟨⟨by decide, trivial⟩, rfl⟩ (.nil _))), rfl⟩

/-- Two strings behind the empty one. -/
theorem strset_pool_three : ∃ (t : Strset) (ss' : List (List UInt8)), Run (PoolStep 100) [[]]
      [(.add [65] true true (some 41), 1), (.add [66] true true (some 42), 3), (.find [65] true, 1)] ss' ∧
    t.strsData.take t.strsDataLen = flat ss' ∧ t.strsDataLen = 5 := by
  obtain ⟨set, t, hnew, hrun, hlen⟩ := three_calls
  obtain ⟨ss', hpool, hdata, -⟩ := strset_pool (by decide) (by decide) (by decide) oneAnswer_fresh hnew hrun
  exact ⟨t, ss', hpool, hdata, hlen⟩

/-! ## Offsets -/

theorem poolStep_keeps {limit : Nat} {ss' : List (List UInt8)} {c : StrCall × Int} (h : PoolStep limit ss c ss')
    (hs : s ∈ ss) : s ∈ ss' ∧ offsetOf ss' s = offsetOf ss s := by
  cases h with
  | new => exact ⟨List.mem_append_left _ hs, offsetOf_snoc_of_mem hs _⟩
  | _ => exact ⟨hs, rfl⟩

theorem poolRun_keeps {limit : Nat} {ss' : List (List UInt8)} {cs : List (StrCall × Int)}
    (h : Run (PoolStep limit) ss cs ss')
    (hs : s ∈ ss) : s ∈ ss' ∧ offsetOf ss' s = offsetOf ss s := by
  induction h with
  | nil => exact ⟨hs, rfl⟩
  | cons hstep _ ih =>
    obtain ⟨hmem, heq⟩ := poolStep_keeps hstep hs
    obtain ⟨hmem', heq'⟩ := ih hmem
    exact ⟨hmem', heq'.trans heq⟩

theorem poolStep_answer {limit : Nat} {ss' : List (List UInt8)} {c : StrCall} {r : Int}
    (h : PoolStep limit ss (c, r) ss')
    (hr : 0 ≤ r) : c.str ∈ ss' ∧ r = offsetOf ss' c.str := by
  cases h with
  | found _ hs => exact ⟨hs, rfl⟩
  | missing => exact absurd hr (by decide)
  | old _ _ _ hs => exact ⟨hs, rfl⟩
  | new _ _ _ hs => exact ⟨List.mem_append_right _ (List.mem_singleton.2 rfl),
    by rw [StrCall.str, offsetOf_snoc_self hs]⟩
  | noData => exact absurd hr (by decide)
  | noEntry => exact absurd hr (by decide)

/-- What was returned once holds at the end. -/
theorem poolRun_answer {limit : Nat} {ss' : List (List UInt8)} {cs : List (StrCall × Int)}
    (h : Run (PoolStep limit) ss cs ss')
    {c : StrCall} {r : Int} (hc : (c, r) ∈ cs) (hr : 0 ≤ r) : c.str ∈ ss' ∧ r = offsetOf ss' c.str := by
  induction h with
  | nil => cases hc
  | cons hstep hrest ih =>
    rcases List.mem_cons.1 hc with rfl | hc
    · obtain ⟨hmem, heq⟩ := poolStep_answer hstep hr
      obtain ⟨hmem', heq'⟩ := poolRun_keeps hrest hmem
      exact ⟨hmem', by rw [heq, heq']⟩
    · exact ih hc

/-- **Offsets are names.**  Each string that an offset was returned for stands there at the end of the run, and two
calls returned one offset exactly for one string. -/
theorem strset_names {maxDataSz : Nat} (hclean : ∀ t ∈ ss, 0 ∉ t)
    (hsize : (flat ss).length ≤ 2 ^ 31) (hmax : maxDataSz ≤ 2 ^ 31)
    {answers : List (Bool × (Heap Pair → Option Nat))}
    (hfresh : ∀ x ∈ answers, ∀ heap a, x.2 heap = some a → heap a = none)
    {set t : Strset} (hnew : strsetNew maxDataSz (flat ss) answers = some (.ok set)) {cs : List (StrCall × Int)}
    (hrun : Run StrStep set cs t) :
    (∀ c r, (c, r) ∈ cs → 0 ≤ r → strAt t.strsData r = c.str) ∧
      ∀ c r c' r', (c, r) ∈ cs → (c', r') ∈ cs → 0 ≤ r → 0 ≤ r' → (r = r' ↔ c.str = c'.str) := by
  obtain ⟨ss', hrun', hpool⟩ := pool_new hclean hsize hmax hfresh hnew hrun
  obtain ⟨rest, hdata⟩ := hpool.data
  have hread : ∀ c r, (c, r) ∈ cs → 0 ≤ r → strAt t.strsData r = c.str := by
    intro c r hc hr
    obtain ⟨hmem, heq⟩ := poolRun_answer hrun' hc hr
    rw [heq]
    exact strAt_offsetOf hdata hpool.clean hmem
  refine ⟨hread, fun c r c' r' hc hc' hr hr' => ⟨fun heq => ?_, fun heq => ?_⟩⟩
  · rw [← hread c r hc hr, ← hread c' r' hc' hr', heq]
  · rw [(poolRun_answer hrun' hc hr).2, (poolRun_answer hrun' hc' hr').2, heq]

/-- The offset 3 names the second string. -/
theorem strset_names_three : ∃ t : Strset, t.strsDataLen = 5 ∧ strAt t.strsData 3 = [66] := by
  obtain ⟨set, t, hnew, hrun, hlen⟩ := three_calls
  obtain ⟨hread, -⟩ := strset_names (by decide) (by decide) (by decide) oneAnswer_fresh hnew hrun
  exact ⟨t, hlen, hread (.add [66] true true (some 42)) 3 (by simp) (by decide)⟩

end CPrograms.Libbpf
