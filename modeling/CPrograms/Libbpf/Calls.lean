import CPrograms.Libbpf.Multimap

/-!
# Calls of the hash map

Each call does on the heap what it does on the list of the entries (`call_spec`), so that a run of calls
gives the answers of the list (`hashmap_multi`).
-/

namespace CPrograms.Libbpf

open Chains Runs

variable {fns : Fns} {s : State} {heap : Heap Pair} {es xs ys zs : List (Nat × Pair)} {key : Int}
    {a : Nat} {d : Pair}

/-! ## What the calls do -/

/-- The map as a list of entries. -/
def multi (s : State) (es : List (Nat × Pair)) : Multi := ⟨es.map Prod.snd, s.map.capBits⟩

theorem multi_mk (heap : Heap Pair) (buckets : Option (List (Option Nat))) (cap capBits sz : Nat)
    (es : List (Nat × Pair)) :
    multi ⟨heap, ⟨buckets, cap, capBits, sz⟩⟩ es = ⟨es.map Prod.snd, capBits⟩ := rfl

theorem multi_find_none (hno : ∀ e ∈ es, fns.equalFn e.2.key key = false) :
    (multi s es).find fns key = none := by
  rw [Multi.find, multi, List.find?_map, List.find?_eq_none.2 fun e he => by simp [hno e he], Option.map_none]

theorem forall_map_snd {P : Pair → Prop} (h : ∀ y ∈ ys, P y.2) : ∀ e ∈ ys.map Prod.snd, P e := by
  intro e he
  obtain ⟨y, hy, rfl⟩ := List.mem_map.1 he
  exact h y hy

theorem map_snd_split : (ys ++ (a, d) :: zs).map Prod.snd =
    ys.map Prod.snd ++ d :: zs.map Prod.snd := List.map_append

theorem multi_find_some (hno : ∀ y ∈ ys, fns.equalFn y.2.key key = false) (hd : fns.equalFn d.key key = true) :
    (multi s (ys ++ (a, d) :: zs)).find fns key = some d := by
  rw [Multi.find, multi, map_snd_split]
  exact find?_append_cons (forall_map_snd hno) hd

theorem find_spec (hfns : Compatible fns) (h : Holds fns.hashFn s es) (key : Int) :
    hashmapFind (s.map.sz + 1) fns s key = some (((multi s es).find fns key).map Pair.value) := by
  rcases first_cases (fun e => fns.equalFn e.2.key key) es with hno | ⟨ys, ⟨a, d⟩, zs, rfl, hno, hd⟩
  · rw [hashmapFind, findEntry_none h hno, multi_find_none hno]
    rfl
  · obtain ⟨r, ha⟩ := h.entry
    rw [hashmapFind, findEntry_some hfns h hno hd, multi_find_some hno hd]
    show ((s.heap a).bind _) = _
    rw [ha]
    rfl

theorem each_spec (hfns : Compatible fns) (h : Holds fns.hashFn s es) (key : Int) :
    hashmapForEachKeyEntry (s.map.sz + 1) fns s key = some ((multi s es).each fns key) := by
  have hall : (multi s es).each fns key =
      ((inBucket fns.hashFn s.map.capBits (hashBits (fns.hashFn key) s.map.capBits) es).map Prod.snd).filter
        fun d => fns.equalFn d.key key := by
    rw [Multi.each, multi, List.filter_map, List.filter_map, inBucket, List.filter_filter]
    refine congrArg _ (List.filter_congr fun e _ => ?_)
    show fns.equalFn e.2.key key = (fns.equalFn e.2.key key && _)
    by_cases he : fns.equalFn e.2.key key = true
    · rw [he, hfns _ _ he]
      simp
    · simp [he]
  unfold hashmapForEachKeyEntry
  split
  · next hbs =>
    rw [h.no_buckets hbs]
    rfl
  · next hbs =>
    obtain ⟨head, hhead, hchain⟩ := h.bucket hbs key
    rw [hhead, hall]
    exact eachLoop_eq hchain (h.short _)

theorem delete_spec (hfns : Compatible fns) (h : Holds fns.hashFn s es) (key : Int) : ∃ t es',
    hashmapDelete (s.map.sz + 1) fns s key = some (t, (multi s es).find fns key) ∧ Holds fns.hashFn t es' ∧
      multi t es' = (multi s es).delete fns key := by
  rcases first_cases (fun e => fns.equalFn e.2.key key) es with hno | ⟨ys, ⟨a, d⟩, zs, rfl, hno, hd⟩
  · refine ⟨s, es, ?_, h, ?_⟩
    · rw [hashmapDelete, findEntry_none h hno, multi_find_none hno]
      rfl
    · rw [Multi.delete, multi, List.eraseP_of_forall_not (forall_map_snd fun y hy => by simp [hno y hy])]
  · obtain ⟨r, ha⟩ := h.entry
    obtain ⟨t, heap', hdel, hfree, hbits, hholds⟩ := delEntry_spec h
    have hhash : fns.hashFn d.key = fns.hashFn key := hfns _ _ hd
    rw [hhash] at hdel
    refine ⟨_, ys ++ zs, ?_, hholds, ?_⟩
    · rw [hashmapDelete, findEntry_some hfns h hno hd, multi_find_some hno hd]
      show (s.heap a).bind _ = _
      rw [ha]
      show (hashmapDelEntry s _ a).bind _ = _
      rw [hdel]
      show (free t.heap a).bind _ = _
      rw [hfree]
      rfl
    · rw [multi_mk, hbits, Multi.delete, multi, map_snd_split,
        eraseP_append (forall_map_snd hno) hd, List.map_append]

/-- The `free`s of one bucket. -/
theorem freeChain_spec {p : Option Nat} (hchain : Chain heap p xs)
    (hnodup : (xs.map Prod.fst).Nodup) {fuel : Nat}
    (hfuel : xs.length < fuel) : ∃ heap', freeChain heap fuel p = some heap' ∧
      ∀ b, heap' b = if b ∈ xs.map Prod.fst then none else heap b := by
  induction xs generalizing heap p fuel with
  | nil =>
    obtain rfl : p = none := hchain
    obtain ⟨fuel, rfl⟩ := Nat.exists_eq_add_one.2 (Nat.zero_lt_of_lt hfuel)
    exact ⟨heap, rfl, fun b => (if_neg List.not_mem_nil).symm⟩
  | cons x xs ih =>
    obtain ⟨a, d⟩ := x
    obtain ⟨ha, hnodup⟩ := List.nodup_cons.1 hnodup
    obtain ⟨rfl, r, hr, hrest⟩ := hchain.pop fun x hx heq => ha (List.mem_map.2 ⟨x, hx, heq⟩)
    obtain ⟨fuel, rfl⟩ := Nat.exists_eq_add_one.2 (Nat.zero_lt_of_lt hfuel)
    obtain ⟨heap', hfree, hheap⟩ := ih hrest hnodup (Nat.lt_of_succ_lt_succ hfuel)
    refine ⟨heap', ?_, fun b => ?_⟩
    · rw [freeChain, hr, free, hr]
      exact hfree
    · rw [hheap b, List.map_cons]
      by_cases hb : b = a
      · subst hb
        rw [if_neg ha, if_pos List.mem_cons_self, Function.update_self]
      · rw [Function.update_of_ne hb]
        exact if_congr (by simp [hb]) rfl rfl

theorem clearBuckets_spec {bs : List (Option Nat)} (hsome : s.map.buckets = some bs) (h : Holds fns.hashFn s es)
    (hbuckets : Buckets fns.hashFn s.map.capBits s.heap bs es) (n : Nat) (hn : n ≤ bs.length) : ∃ heap',
    (List.range n).foldlM (fun heap bkt => do
      let head ← s.map.bucket bkt
      freeChain heap (s.map.sz + 1) head) s.heap = some heap' ∧
    ∀ b, heap' b = if b ∈ (byBucket fns.hashFn s.map.capBits n es).map Prod.fst then none else s.heap b := by
  induction n with
  | zero => exact ⟨s.heap, rfl, fun b => (if_neg List.not_mem_nil).symm⟩
  | succ n ih =>
    obtain ⟨heap₁, hfold, hheap₁⟩ := ih (Nat.le_of_succ_le hn)
    have hhead : bs[n]? = some bs[n] := List.getElem?_eq_getElem hn
    have hchain : Chain heap₁ bs[n] (inBucket fns.hashFn s.map.capBits n es) := by
      refine (hbuckets n bs[n] hhead).congr fun x hx => ?_
      rw [hheap₁, if_neg]
      intro hfreed
      obtain ⟨y, hy, heq⟩ := List.mem_map.1 hfreed
      obtain ⟨hxes, hxn⟩ := mem_inBucket.1 hx
      obtain ⟨hyes, hyn⟩ := mem_byBucket.1 hy
      rw [eq_of_fst h.nodup hyes hxes heq, hxn] at hyn
      exact Nat.lt_irrefl n hyn
    obtain ⟨heap₂, hfree, hheap₂⟩ := freeChain_spec hchain (h.bucket_nodup n) (h.short n)
    refine ⟨heap₂, ?_, fun b => ?_⟩
    · refine foldlM_range_succ hfold ?_
      rw [bucket_eq hsome hhead]
      exact hfree
    · rw [hheap₂ b, hheap₁ b, byBucket_succ, List.map_append]
      by_cases h₁ : b ∈ (inBucket fns.hashFn s.map.capBits n es).map Prod.fst
      · rw [if_pos h₁, if_pos (List.mem_append_right _ h₁)]
      · rw [if_neg h₁]
        exact if_congr (by rw [List.mem_append, or_iff_left h₁]) rfl rfl

/-- **`hashmap__clear`.**  Nothing is left on the heap. -/
theorem clear_spec (h : Holds fns.hashFn s es) : hashmapClear (s.map.sz + 1) s = some start := by
  unfold hashmapClear
  cases h.table with
  | empty hbs hcap hbits hes =>
    have hnone : s.heap = fun _ => none := funext fun a => (h.heap a).2 (by rw [hes]; nofun)
    rw [hcap, hnone]
    rfl
  | buckets bs hsome hcap hlen htwo hsixty hload hbuckets =>
    obtain ⟨heap', hfold, hheap⟩ := clearBuckets_spec hsome h hbuckets bs.length (Nat.le_refl _)
    have hnone : heap' = fun _ => none := by
      funext b
      rw [hheap b]
      split
      · rfl
      · next hb =>
        refine (h.heap b).2 fun e he heq => hb (List.mem_map.2 ⟨e, mem_byBucket.2 ⟨he, ?_⟩, heq⟩)
        exact hashBits_lt_length _ hlen hsixty
    rw [hcap, ← hlen, hfold, hnone]
    rfl

theorem sizeInc_eq {n : Nat} (h : n * 4 / 3 ≤ 2 ^ 60) : sizeInc n = n + 1 := by
  rw [sizeInc]
  omega

/-- The test for 75% is about the number of entries: nothing overflows. -/
theorem needsToGrow_eq (h : Holds fns.hashFn s es) : hashmapNeedsToGrow s.map = (multi s es).full := by
  have hfew := h.few
  have hcount : sizeInc s.map.sz * 4 % 2 ^ 64 / 3 = (es.length + 1) * 4 / 3 := by
    rw [h.size, sizeInc_eq hfew]
    omega
  unfold hashmapNeedsToGrow Multi.full multi
  rw [hcount, List.length_map]
  cases h.table with
  | empty hbs hcap hbits hes => simp [hcap, hbits]
  | buckets bs hsome hcap hlen htwo hsixty hload hbuckets =>
    have hbits : s.map.capBits ≠ 0 := by omega
    rw [hcap]
    simp [hbits]

/-- There is room, or there will be. -/
theorem grow_cases (h : Holds fns.hashFn s es) (calloc : Bool) :
    (∃ t es', (if hashmapNeedsToGrow s.map then hashmapGrow (s.map.sz + 1) fns.hashFn s calloc else
      some (s, 0)) = some (t, 0) ∧
      Holds fns.hashFn t es' ∧ t.map.buckets ≠ none ∧ (es'.length + 1) * 4 / 3 ≤ 2 ^ t.map.capBits ∧
      (∀ a, t.heap a = none ↔ s.heap a = none) ∧
      (if (multi s es).full then (multi s es).grow calloc else some (multi s es)) = some (multi t es')) ∨
    (if hashmapNeedsToGrow s.map then hashmapGrow (s.map.sz + 1) fns.hashFn s calloc else
      some (s, 0)) = some (s, -ENOMEM) ∧
      (if (multi s es).full then (multi s es).grow calloc else some (multi s es)) = none := by
  rw [needsToGrow_eq h]
  by_cases hfull : (multi s es).full = true
  · rw [if_pos hfull, if_pos hfull]
    by_cases hok : calloc = true ∧ max (s.map.capBits + 1) minCapBits ≤ 60
    · left
      have hlong : es.length < s.map.sz + 1 := by rw [h.size]; exact Nat.lt_succ_self _
      obtain ⟨t, hgrow, hholds, hbits, hroom, hdom⟩ := hashmapGrow_spec h hlong hok
      refine ⟨t, es.reverse, hgrow, hholds, ?_, by rw [List.length_reverse]; exact hroom, hdom, ?_⟩
      · intro hnone
        cases hholds.table with
        | empty _ _ hzero =>
          rw [hzero] at hbits
          have := Nat.le_max_right (s.map.capBits + 1) minCapBits
          rw [← hbits] at this
          exact absurd this (by decide)
        | buckets bs hsome => rw [hsome] at hnone; cases hnone
      · rw [Multi.grow, multi, if_pos hok, multi, List.map_reverse, hbits]
    · right
      exact ⟨hashmapGrow_fails hok, if_neg hok⟩
  · left
    rw [if_neg hfull, if_neg hfull]
    rw [Multi.full, multi, decide_eq_true_eq, not_or] at hfull
    obtain ⟨hbits, hroom⟩ := hfull
    rw [List.length_map] at hroom
    refine ⟨s, es, rfl, h, fun hnone => ?_, Nat.le_of_not_lt hroom, fun _ => Iff.rfl, rfl⟩
    cases h.table with
    | empty _ _ hzero => exact hbits hzero
    | buckets bs hsome => rw [hsome] at hnone; cases hnone

/-- The new entry. -/
theorem add_spec (h : Holds fns.hashFn s es) (hbs : s.map.buckets ≠ none)
    (hroom : (es.length + 1) * 4 / 3 ≤ 2 ^ s.map.capBits)
    (key value : Int) (hfree : s.heap a = none) : ∃ bs heap' bs', s.map.buckets = some bs ∧
      hashmapAddEntry (Function.update s.heap a (some ⟨⟨key, value⟩, none⟩)) bs
        (hashBits (fns.hashFn key) s.map.capBits) a = some (heap', bs') ∧
      Holds fns.hashFn ⟨heap', ⟨some bs', s.map.cap, s.map.capBits, sizeInc s.map.sz⟩⟩
        ((a, ⟨key, value⟩) :: es) := by
  have hfew := h.few
  have hnew := (h.heap a).1 hfree
  cases h.table with
  | empty hnone => exact absurd hnone hbs
  | buckets bs hsome hcap hlen htwo hsixty hload hbuckets =>
    have hlt := hashBits_lt_length (fns.hashFn key) hlen hsixty
    have hslot := List.getElem?_eq_getElem hlt
    refine ⟨bs, _, _, hsome, hashmapAddEntry_eq hslot (Function.update_self ..), ?_⟩
    rw [Function.update_idem]
    refine ⟨?_, fun b => ?_, ?_, ?_⟩
    · rw [List.map_cons, List.nodup_cons]
      refine ⟨fun hmem => ?_, h.nodup⟩
      obtain ⟨e, he, heq⟩ := List.mem_map.1 hmem
      exact hnew e he heq
    · rw [List.forall_mem_cons, ← h.heap b]
      dsimp only
      by_cases hb : b = a
      · subst hb
        rw [Function.update_self]
        exact iff_of_false nofun fun hne => hne.1 rfl
      · rw [Function.update_of_ne hb]
        exact ⟨fun hn => ⟨Ne.symm hb, hn⟩, And.right⟩
    · dsimp only
      rw [h.size, sizeInc_eq hfew, List.length_cons]
    · refine .buckets _ rfl hcap ?_ htwo hsixty hroom (hbuckets.push hnew hslot)
      rw [List.length_set, hlen]

theorem insertNew_spec (h : Holds fns.hashFn s es) (key value : Int) (strategy : Strategy)
    (calloc : Bool) {malloc : Option Nat}
    (hmalloc : ∀ a, malloc = some a → s.heap a = none) : ∃ t es',
    insertNew (s.map.sz + 1) fns s key value strategy calloc malloc =
      some (t, ((multi s es).insertNew key value strategy calloc malloc).2) ∧
    Holds fns.hashFn t es' ∧ multi t es' = ((multi s es).insertNew key value strategy calloc malloc).1 := by
  unfold insertNew Multi.insertNew
  by_cases hupdate : strategy = .update
  · rw [if_pos hupdate, if_pos hupdate]
    exact ⟨s, es, rfl, h, rfl⟩
  · rw [if_neg hupdate, if_neg hupdate]
    rcases grow_cases h calloc with ⟨t, es', hgrow, hholds, hbs, hroom, hdom, hmulti⟩ | ⟨hgrow, hmulti⟩
    · rw [hgrow, hmulti]
      cases malloc with
      | none => exact ⟨t, es', rfl, hholds, rfl⟩
      | some a =>
        obtain ⟨bs, heap', bs', hsome, hadd, hnew⟩ :=
          add_spec hholds hbs hroom key value ((hdom a).2 (hmalloc a rfl))
        refine ⟨_, _, ?_, hnew, ?_⟩
        · show t.map.buckets.bind _ = _
          rw [hsome]
          show (hashmapAddEntry _ bs _ a).bind _ = _
          rw [hadd]
          rfl
        · rw [multi_mk]
          rfl
    · rw [hgrow, hmulti]
      exact ⟨s, es, rfl, h, rfl⟩

theorem insert_spec (hfns : Compatible fns) (h : Holds fns.hashFn s es) (key value : Int) (strategy : Strategy)
    (calloc : Bool) {malloc : Option Nat} (hmalloc : ∀ a, malloc = some a → s.heap a = none) : ∃ t es',
    hashmapInsert (s.map.sz + 1) fns s key value strategy calloc malloc =
      some (t, ((multi s es).insert fns key value strategy calloc malloc).2) ∧
    Holds fns.hashFn t es' ∧ multi t es' = ((multi s es).insert fns key value strategy calloc malloc).1 := by
  have hnew := insertNew_spec h key value strategy calloc hmalloc
  unfold hashmapInsert Multi.insert
  dsimp only
  by_cases happend : strategy = .append
  · rw [if_pos happend, if_pos happend]
    exact hnew
  rw [if_neg happend, if_neg happend]
  rcases first_cases (fun e => fns.equalFn e.2.key key) es with hno | ⟨ys, ⟨a, d⟩, zs, rfl, hno, hd⟩
  · rw [findEntry_none h hno, multi_find_none hno]
    exact hnew
  · have hhash : fns.hashFn key = fns.hashFn d.key := (hfns _ _ hd).symm
    obtain ⟨r, ha, hset⟩ := h.set (e := ⟨key, value⟩) hhash
    rw [findEntry_some hfns h hno hd, multi_find_some hno hd]
    dsimp only
    by_cases hwrite : strategy = .set ∨ strategy = .update
    · rw [if_pos hwrite]
      refine ⟨_, _, ?_, hset, ?_⟩
      · show (s.heap a).bind _ = _
        rw [ha]
        exact if_pos hwrite
      · show (⟨(ys ++ (a, ⟨key, value⟩) :: zs).map Prod.snd, s.map.capBits⟩ : Multi) =
          ⟨setFirst _ _ ((ys ++ (a, d) :: zs).map Prod.snd), s.map.capBits⟩
        rw [map_snd_split, map_snd_split, setFirst_append (forall_map_snd hno) hd]
    · rw [if_neg hwrite]
      refine ⟨s, _, ?_, h, rfl⟩
      show (s.heap a).bind _ = _
      rw [ha]
      exact if_neg hwrite

/-- **One call.**  It comes to its end, and does what it does on the list. -/
theorem call_spec (hfns : Compatible fns) (h : Holds fns.hashFn s es) {op : Op} (hop : Allowed s op) : ∃ t es',
    call (s.map.sz + 1) fns s op = some (t, ((multi s es).call fns op).2) ∧ Holds fns.hashFn t es' ∧
      multi t es' = ((multi s es).call fns op).1 := by
  cases op with
  | insert key value strategy calloc malloc =>
    have hmalloc : ∀ a, malloc = some a → s.heap a = none := by
      rintro a rfl
      exact hop
    obtain ⟨t, es', hcall, hholds, hmulti⟩ := insert_spec hfns h key value strategy calloc hmalloc
    refine ⟨t, es', ?_, hholds, hmulti⟩
    rw [call, hcall]
    rfl
  | delete key =>
    obtain ⟨t, es', hcall, hholds, hmulti⟩ := delete_spec hfns h key
    refine ⟨t, es', ?_, hholds, hmulti⟩
    rw [call, hcall]
    rfl
  | find key =>
    refine ⟨s, es, ?_, h, rfl⟩
    rw [call, find_spec hfns h]
    rfl
  | each key =>
    refine ⟨s, es, ?_, h, rfl⟩
    rw [call, each_spec hfns h]
    rfl
  | clear =>
    refine ⟨_, [], ?_, holds_start, rfl⟩
    rw [call, clear_spec h]
    rfl

/-! ## Runs -/

/-- The entries after the calls `ops`, and the answers. -/
def Multi.run (fns : Fns) : Multi → List Op → Multi × List Answer
  | m, [] => (m, [])
  | m, op :: ops =>
    let (m, answer) := m.call fns op
    let (m, answers) := m.run fns ops
    (m, answer :: answers)

theorem run_spec (hfns : Compatible fns) (h : Holds fns.hashFn s es) {t : State} {cs : List (Op × Answer)}
    (hrun : Run (Step fns) s cs t) : ∃ es', Holds fns.hashFn t es' ∧
      ((multi s es).run fns (cs.map Prod.fst)) = (multi t es', cs.map Prod.snd) := by
  induction hrun generalizing es with
  | nil s => exact ⟨es, h, rfl⟩
  | @cons s u t c cs hstep _ ih =>
    obtain ⟨hop, hcall⟩ := hstep
    obtain ⟨t', es', hspec, hholds, hmulti⟩ := call_spec hfns h hop
    obtain ⟨rfl, hanswer⟩ := Prod.mk.inj (Option.some.inj (hcall.symm.trans hspec))
    obtain ⟨es'', hholds', hrest⟩ := ih hholds
    rw [hmulti] at hrest
    refine ⟨es'', hholds', ?_⟩
    rw [List.map_cons, Multi.run]
    dsimp only
    rw [hrest, ← hanswer]
    rfl

/-- **The hash map is a list of entries.**  Over every run of calls and whatever the allocator answers,
the answers are those of the list; the next call comes to its end, with no access
outside what is allocated; and the heap holds as many entries as the map counts. -/
theorem hashmap_multi (hfns : Compatible fns) {cs : List (Op × Answer)} {t : State}
    (hrun : Run (Step fns) start cs t) :
    cs.map Prod.snd = ((⟨[], 0⟩ : Multi).run fns (cs.map Prod.fst)).2 ∧
      (∀ op, Allowed t op → ∃ answer u, Step fns t (op, answer) u) ∧
      t.map.sz = ((⟨[], 0⟩ : Multi).run fns (cs.map Prod.fst)).1.entries.length ∧
      ∃ as : List Nat, as.Nodup ∧ as.length = t.map.sz ∧ ∀ a, t.heap a ≠ none ↔ a ∈ as := by
  obtain ⟨es, hholds, hmulti⟩ := run_spec hfns holds_start hrun
  rw [show (⟨[], 0⟩ : Multi) = multi start [] from rfl, hmulti]
  refine ⟨rfl, fun op hop => ?_, ?_, es.map Prod.fst, hholds.nodup, ?_, fun a => ?_⟩
  · obtain ⟨u, -, hcall, -⟩ := call_spec hfns hholds hop
    exact ⟨_, u, hop, hcall⟩
  · rw [hholds.size, multi, List.length_map]
  · rw [hholds.size, List.length_map]
  · rw [Ne, hholds.heap a, List.mem_map]
    simp

/-- Two entries with one key, of which a lookup finds the newer. -/
theorem hashmap_multi_two : ∃ cs t, Run (Step ⟨Int.toNat, fun k l => k = l⟩) start cs t ∧
    cs.map Prod.snd = [.inserted ⟨0, 0, 0⟩, .inserted ⟨0, 0, 0⟩, .found (some 8)] := by
  have hfns : Compatible ⟨Int.toNat, fun k l => k = l⟩ := fun k l h => congrArg Int.toNat (of_decide_eq_true h)
  have hrun : ∃ answers t, Run (Step ⟨Int.toNat, fun k l => k = l⟩) start
      ([.insert 5 7 .append true (some 40), .insert 5 8 .append true (some 41), .find 5].zip answers) t ∧
      answers.length = 3 :=
    ⟨[_, _, _], _, .cons ⟨rfl, rfl⟩ (.cons ⟨rfl, rfl⟩ (.cons ⟨trivial, rfl⟩ (.nil _))), rfl⟩
  obtain ⟨answers, t, hrun, hlen⟩ := hrun
  refine ⟨_, t, hrun, ?_⟩
  rw [(hashmap_multi hfns hrun).1, List.map_fst_zip (by rw [hlen]; decide)]
  rfl

end CPrograms.Libbpf
