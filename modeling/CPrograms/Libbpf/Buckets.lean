import CPrograms.Libbpf.Hashmap
import Mathlib.Data.List.Flatten

/-!
# The buckets

The entries of a map, with their addresses, are one list `es`; bucket `i` is the chain of those of `es`
that are hashed to `i`, in their order.  A new entry comes in front of `es` (`Buckets.push`).  `hashmap_grow`
moves each entry in front of its new bucket, so that what was one bucket becomes two in the
opposite order: `es` is reversed (`hashmapGrow_spec`).
-/

namespace CPrograms.Libbpf

open Chains

/-! ## `hash_bits` -/

theorem hashBits_lt (h : Nat) {bits : Nat} (hle : bits ≤ 64) : hashBits h bits < 2 ^ bits := by
  unfold hashBits
  split
  · exact Nat.two_pow_pos bits
  · rw [Nat.div_lt_iff_lt_mul (Nat.two_pow_pos _), ← Nat.pow_add, Nat.add_sub_cancel' hle]
    exact Nat.mod_lt _ (Nat.two_pow_pos 64)

theorem hashBits_lt_length (h : Nat) {bits : Nat} {bs : List (Option Nat)} (hlen : bs.length = 2 ^ bits)
    (hsixty : bits ≤ 60) : hashBits h bits < bs.length := by
  rw [hlen]
  exact hashBits_lt h (by omega)

/-- A bucket is split in two. -/
theorem hashBits_succ (h : Nat) {bits : Nat} (hpos : bits ≠ 0) (hlt : bits < 64) :
    hashBits h (bits + 1) / 2 = hashBits h bits := by
  have hexp : 64 - bits = 64 - (bits + 1) + 1 := by omega
  have hpow : 2 ^ (64 - bits) = 2 ^ (64 - (bits + 1)) * 2 := (congrArg (2 ^ ·) hexp).trans (Nat.pow_succ ..)
  unfold hashBits
  rw [if_neg (Nat.succ_ne_zero bits), if_neg hpos, Nat.div_div_eq_div_mul, hpow]

/-! ## Buckets -/

variable {hashFn : Int → Nat} {bits : Nat} {heap : Heap Pair} {bs : List (Option Nat)}
    {es xs : List (Nat × Pair)}

/-- The entries of `es` that are hashed to `i`. -/
def inBucket (hashFn : Int → Nat) (bits i : Nat) (es : List (Nat × Pair)) : List (Nat × Pair) :=
  es.filter fun e => hashBits (hashFn e.2.key) bits = i

def Buckets (hashFn : Int → Nat) (bits : Nat) (heap : Heap Pair) (bs : List (Option Nat))
    (es : List (Nat × Pair)) : Prop :=
  ∀ i head, bs[i]? = some head → Chain heap head (inBucket hashFn bits i es)

theorem mem_inBucket {i : Nat} {e : Nat × Pair} :
    e ∈ inBucket hashFn bits i es ↔ e ∈ es ∧ hashBits (hashFn e.2.key) bits = i := by
  rw [inBucket, List.mem_filter, decide_eq_true_eq]

theorem inBucket_cons_self (e : Nat × Pair) (es : List (Nat × Pair)) :
    inBucket hashFn bits (hashBits (hashFn e.2.key) bits) (e :: es) =
      e :: inBucket hashFn bits (hashBits (hashFn e.2.key) bits) es :=
  List.filter_cons_of_pos (by simp)

theorem inBucket_cons_of_ne {i : Nat} {e : Nat × Pair} (h : hashBits (hashFn e.2.key) bits ≠ i)
    (es : List (Nat × Pair)) :
    inBucket hashFn bits i (e :: es) = inBucket hashFn bits i es :=
  List.filter_cons_of_neg (by simpa using h)

theorem inBucket_append (i : Nat) (xs es : List (Nat × Pair)) :
    inBucket hashFn bits i (xs ++ es) = inBucket hashFn bits i xs ++ inBucket hashFn bits i es :=
  List.filter_append xs es

theorem inBucket_reverse (i : Nat) (es : List (Nat × Pair)) :
    inBucket hashFn bits i es.reverse = (inBucket hashFn bits i es).reverse := List.filter_reverse

theorem length_inBucket_le (i : Nat) (es : List (Nat × Pair)) :
    (inBucket hashFn bits i es).length ≤ es.length :=
  List.length_filter_le _ _

/-- The addresses tell the entries apart. -/
theorem eq_of_fst (hnodup : (es.map Prod.fst).Nodup) {x y : Nat × Pair} (hx : x ∈ es) (hy : y ∈ es)
    (h : x.1 = y.1) : x = y := List.inj_on_of_nodup_map hnodup hx hy h

theorem hashmapAddEntry_eq {i a : Nat} {head : Option Nat} {entry : Node Pair} (hi : bs[i]? = some head)
    (ha : heap a = some entry) : hashmapAddEntry heap bs i a =
      some (Function.update heap a (some ⟨entry.data, head⟩), bs.set i (some a)) := by
  rw [hashmapAddEntry, hi, ha]
  rfl

/-- **`hashmap_add_entry`.** -/
theorem Buckets.push (h : Buckets hashFn bits heap bs es) {a : Nat} {d : Pair} {head : Option Nat}
    (ha : ∀ e ∈ es, e.1 ≠ a) (hi : bs[hashBits (hashFn d.key) bits]? = some head) :
    Buckets hashFn bits (Function.update heap a (some ⟨d, head⟩))
      (bs.set (hashBits (hashFn d.key) bits) (some a))
      ((a, d) :: es) := by
  intro j p hj
  by_cases heq : hashBits (hashFn d.key) bits = j
  · subst heq
    have hlt : hashBits (hashFn d.key) bits < bs.length := (List.getElem?_eq_some_iff.1 hi).1
    rw [List.getElem?_set_self hlt, Option.some.injEq] at hj
    subst hj
    rw [inBucket_cons_self (a, d)]
    exact (h _ head hi).push fun x hx => ha x (mem_inBucket.1 hx).1
  · rw [List.getElem?_set_ne heq] at hj
    rw [inBucket_cons_of_ne (e := (a, d)) heq]
    exact (h j p hj).congr fun x hx => Function.update_of_ne (ha x (mem_inBucket.1 hx).1) ..

/-! ## Growing -/

/-- One bucket, entry by entry to the front of the new ones. -/
theorem moveChain_spec (hb : bits ≤ 64) (hlen : bs.length = 2 ^ bits) {p : Option Nat}
    (hnew : Buckets hashFn bits heap bs es)
    (hchain : Chain heap p xs) (hnodup : (xs.map Prod.fst).Nodup) (hdis : ∀ x ∈ xs, ∀ e ∈ es, e.1 ≠ x.1)
    {fuel : Nat} (hfuel : xs.length < fuel) :
      ∃ heap' bs', moveChain hashFn bits fuel (heap, bs) p = some (heap', bs') ∧
      Buckets hashFn bits heap' bs' (xs.reverse ++ es) ∧ bs'.length = 2 ^ bits ∧
      (∀ b, (∀ x ∈ xs, x.1 ≠ b) → heap' b = heap b) ∧ ∀ b, heap' b = none ↔ heap b = none := by
  induction xs generalizing heap bs p es fuel with
  | nil =>
    obtain rfl : p = none := hchain
    obtain ⟨fuel, rfl⟩ := Nat.exists_eq_add_one.2 (Nat.zero_lt_of_lt hfuel)
    exact ⟨heap, bs, rfl, hnew, hlen, fun _ _ => rfl, fun _ => Iff.rfl⟩
  | cons x xs ih =>
    obtain ⟨a, d⟩ := x
    obtain ⟨rfl, r, ha, hrest⟩ := hchain
    obtain ⟨hax, hnodup⟩ := List.nodup_cons.1 hnodup
    obtain ⟨fuel, rfl⟩ := Nat.exists_eq_add_one.2 (Nat.zero_lt_of_lt hfuel)
    have hslot : ∃ head, bs[hashBits (hashFn d.key) bits]? = some head :=
      ⟨_, List.getElem?_eq_getElem (by rw [hlen]; exact hashBits_lt _ hb)⟩
    obtain ⟨head, hi⟩ := hslot
    have hae : ∀ e ∈ es, e.1 ≠ a := hdis (a, d) List.mem_cons_self
    have hxa : ∀ x ∈ xs, x.1 ≠ a := by
      intro x hx heq
      exact hax (List.mem_map.2 ⟨x, hx, heq⟩)
    have hnew' := hnew.push hae hi
    have hchain' : Chain (Function.update heap a (some ⟨d, head⟩)) r xs :=
      hrest.congr fun x hx => Function.update_of_ne (hxa x hx) ..
    have hdis' : ∀ x ∈ xs, ∀ e ∈ (a, d) :: es, e.1 ≠ x.1 := by
      intro x hx e he
      rcases List.mem_cons.1 he with rfl | he
      · exact (hxa x hx).symm
      · exact hdis x (List.mem_cons_of_mem _ hx) e he
    obtain ⟨heap', bs', hmove, hbuckets, hlen', hframe, hdom⟩ :=
      ih (by rw [List.length_set, hlen]) hnew' hchain' hnodup hdis' (Nat.lt_of_succ_lt_succ hfuel)
    refine ⟨heap', bs', ?_, ?_, hlen', ?_, ?_⟩
    · rw [moveChain, ha]
      show (hashmapAddEntry heap bs (hashBits (hashFn d.key) bits) a).bind _ = _
      rw [hashmapAddEntry_eq hi ha]
      exact hmove
    · rw [List.reverse_cons, List.append_assoc]
      exact hbuckets
    · intro b hb
      rw [hframe b fun x hx => hb x (List.mem_cons_of_mem _ hx)]
      exact Function.update_of_ne (hb (a, d) List.mem_cons_self).symm ..
    · intro b
      rw [hdom b]
      by_cases hba : b = a
      · subst hba
        rw [Function.update_self, ha]
        exact iff_of_false nofun nofun
      · rw [Function.update_of_ne hba]

/-- The buckets, one after the other. -/
def byBucket (hashFn : Int → Nat) (bits n : Nat) (es : List (Nat × Pair)) : List (Nat × Pair) :=
  (List.range n).flatMap fun i => inBucket hashFn bits i es

theorem byBucket_succ (n : Nat) (es : List (Nat × Pair)) :
    byBucket hashFn bits (n + 1) es = byBucket hashFn bits n es ++ inBucket hashFn bits n es := by
  rw [byBucket, List.range_succ, List.flatMap_append, List.flatMap_singleton]
  rfl

theorem mem_byBucket {n : Nat} {e : Nat × Pair} :
    e ∈ byBucket hashFn bits n es ↔ e ∈ es ∧ hashBits (hashFn e.2.key) bits < n := by
  simp only [byBucket, List.mem_flatMap, List.mem_range, mem_inBucket]
  constructor
  · rintro ⟨i, hi, he, rfl⟩
    exact ⟨he, hi⟩
  · rintro ⟨he, hlt⟩
    exact ⟨_, hlt, he, rfl⟩

/-- What the new hash puts into one bucket comes from one bucket. -/
theorem inBucket_byBucket (hpos : bits ≠ 0) (hlt : bits < 64) (i n : Nat) (es : List (Nat × Pair)) :
    inBucket hashFn (bits + 1) i (byBucket hashFn bits n es) =
      if i / 2 < n then inBucket hashFn (bits + 1) i es else [] := by
  induction n with
  | zero => rfl
  | succ n ih =>
    have hlast : inBucket hashFn (bits + 1) i (inBucket hashFn bits n es) =
        if i / 2 = n then inBucket hashFn (bits + 1) i es else [] := by
      split
      · next heq =>
        rw [inBucket, inBucket, List.filter_filter]
        refine List.filter_congr fun e _ => ?_
        have hhalf := hashBits_succ (hashFn e.2.key) hpos hlt
        by_cases hi : hashBits (hashFn e.2.key) (bits + 1) = i
        · rw [hi, heq] at hhalf
          simp [hi, ← hhalf]
        · simp [hi]
      · next hne =>
        refine List.filter_eq_nil_iff.2 fun e he hi => hne ?_
        rw [← (mem_inBucket.1 he).2, ← hashBits_succ _ hpos hlt, of_decide_eq_true hi]
    rw [byBucket_succ, inBucket_append, ih, hlast]
    by_cases h₁ : i / 2 < n
    · rw [if_pos h₁, if_neg (by omega), if_pos (by omega), List.append_nil]
    · by_cases h₂ : i / 2 = n
      · rw [if_neg h₁, if_pos h₂, if_pos (by omega), List.nil_append]
      · rw [if_neg h₁, if_neg h₂, if_neg (by omega), List.append_nil]

/-- One more turn of a loop over the buckets. -/
theorem foldlM_range_succ {β : Type} {f : β → Nat → Option β} {x y z : β} {n : Nat}
    (h : (List.range n).foldlM f x = some y) (hf : f y n = some z) :
      (List.range (n + 1)).foldlM f x = some z := by
  rw [List.range_succ, List.foldlM_append, h]
  show (f y n).bind some = some z
  rw [hf]
  rfl

theorem bucket_eq {m : Hashmap} (hbs : m.buckets = some bs) {i : Nat} {head : Option Nat}
    (hi : bs[i]? = some head) :
    m.bucket i = some head := by
  rw [Hashmap.bucket, hbs]
  exact hi

/-- All buckets up to `n`. -/
theorem moveBuckets_spec {s : State} {newBits fuel : Nat} (hnew : newBits ≤ 64) (hbs : s.map.buckets = some bs)
    (hold : Buckets hashFn bits s.heap bs es) (hnodup : (es.map Prod.fst).Nodup)
    (hfuel : es.length < fuel) (n : Nat)
    (hn : n ≤ bs.length) : ∃ heap' bs',
      (List.range n).foldlM (fun new bkt => do
        let head ← s.map.bucket bkt
        moveChain hashFn newBits fuel new head) (s.heap, List.replicate (2 ^ newBits) none) =
          some (heap', bs') ∧
      Buckets hashFn newBits heap' bs' (byBucket hashFn bits n es).reverse ∧ bs'.length = 2 ^ newBits ∧
      (∀ b, (∀ x ∈ byBucket hashFn bits n es, x.1 ≠ b) → heap' b = s.heap b) ∧ ∀ b,
        heap' b = none ↔ s.heap b = none := by
  induction n with
  | zero =>
    refine ⟨_, _, rfl, ?_, List.length_replicate, fun _ _ => rfl, fun _ => Iff.rfl⟩
    intro i head hi
    exact (List.eq_of_mem_replicate (List.mem_of_getElem? hi))
  | succ n ih =>
    obtain ⟨heap₁, bs₁, hfold, hbuckets, hlen, hframe, hdom⟩ := ih (Nat.le_of_succ_le hn)
    have hlt : n < bs.length := hn
    have hhead : bs[n]? = some bs[n] := List.getElem?_eq_getElem hlt
    -- the entries of the next bucket were not moved yet
    have hfar : ∀ x ∈ inBucket hashFn bits n es, ∀ e ∈ byBucket hashFn bits n es, e.1 ≠ x.1 := by
      intro x hx e he heq
      obtain ⟨hxes, hxn⟩ := mem_inBucket.1 hx
      obtain ⟨hees, hen⟩ := mem_byBucket.1 he
      rw [eq_of_fst hnodup hees hxes heq, hxn] at hen
      exact Nat.lt_irrefl n hen
    have hchain : Chain heap₁ bs[n] (inBucket hashFn bits n es) :=
      (hold n bs[n] hhead).congr fun x hx => hframe x.1 (hfar x hx)
    have hsub : ((inBucket hashFn bits n es).map Prod.fst).Nodup := hnodup.sublist (List.filter_sublist.map _)
    have hlong : (inBucket hashFn bits n es).length < fuel := Nat.lt_of_le_of_lt (length_inBucket_le n es) hfuel
    obtain ⟨heap₂, bs₂, hmove, hbuckets₂, hlen₂, hframe₂, hdom₂⟩ :=
      moveChain_spec hnew hlen hbuckets hchain hsub
        (fun x hx e he => hfar x hx e (List.mem_reverse.1 he)) hlong
    refine ⟨heap₂, bs₂, ?_, ?_, hlen₂, ?_, fun b => (hdom₂ b).trans (hdom b)⟩
    · refine foldlM_range_succ hfold ?_
      rw [bucket_eq hbs hhead]
      exact hmove
    · rw [byBucket_succ, List.reverse_append]
      exact hbuckets₂
    · intro b hb
      rw [byBucket_succ, List.forall_mem_append] at hb
      rw [hframe₂ b hb.2, hframe b hb.1]

/-! ## The map -/

inductive Table (hashFn : Int → Nat) (s : State) (es : List (Nat × Pair)) : Prop
  | empty : s.map.buckets = none → s.map.cap = 0 → s.map.capBits = 0 → es = [] → Table hashFn s es
  | buckets (bs : List (Option Nat)) : s.map.buckets = some bs → s.map.cap = 2 ^ s.map.capBits →
      bs.length = 2 ^ s.map.capBits → 2 ≤ s.map.capBits → s.map.capBits ≤ 60 →
      es.length * 4 / 3 ≤ 2 ^ s.map.capBits → Buckets hashFn s.map.capBits s.heap bs es → Table hashFn s es

/-- The map holds the entries `es`, and the heap nothing else. -/
structure Holds (hashFn : Int → Nat) (s : State) (es : List (Nat × Pair)) : Prop where
  nodup : (es.map Prod.fst).Nodup
  heap : ∀ a, s.heap a = none ↔ ∀ e ∈ es, e.1 ≠ a
  size : s.map.sz = es.length
  table : Table hashFn s es

theorem holds_start : Holds hashFn start [] :=
  ⟨List.nodup_nil, fun _ => iff_of_true rfl nofun, rfl, .empty rfl rfl rfl rfl⟩

theorem two_pow_mul_eight_lt {n : Nat} : 2 ^ 64 ≤ 2 ^ n * 8 ↔ ¬ n ≤ 60 := by
  rw [show 2 ^ n * 8 = 2 ^ (n + 3) from (Nat.pow_add 2 n 3).symm, Nat.pow_le_pow_iff_right Nat.one_lt_two]
  omega

/-- **`hashmap_grow`.**  Where it succeeds the entries are in the opposite order. -/
theorem hashmapGrow_spec {s : State} (h : Holds hashFn s es) {fuel : Nat} (hfuel : es.length < fuel)
    {calloc : Bool}
    (hok : calloc = true ∧ max (s.map.capBits + 1) minCapBits ≤ 60) :
      ∃ t, hashmapGrow fuel hashFn s calloc = some (t, 0) ∧
      Holds hashFn t es.reverse ∧ t.map.capBits = max (s.map.capBits + 1) minCapBits ∧
      (es.length + 1) * 4 / 3 ≤ 2 ^ t.map.capBits ∧ ∀ a, t.heap a = none ↔ s.heap a = none := by
  obtain ⟨rfl, hbits⟩ := hok
  have hcalloc : ¬ (true = false ∨ 2 ^ 64 ≤ 2 ^ max (s.map.capBits + 1) minCapBits * 8) := by
    rw [two_pow_mul_eight_lt]
    simpa using hbits
  have hdomain : ∀ {heap' : Heap Pair}, (∀ b, heap' b = none ↔ s.heap b = none) →
      ∀ a, heap' a = none ↔ ∀ e ∈ es.reverse, e.1 ≠ a := by
    intro heap' hdom a
    rw [hdom a, h.heap a]
    simp only [List.mem_reverse]
  have hnodup : (es.reverse.map Prod.fst).Nodup := by
    rw [List.map_reverse]
    exact List.nodup_reverse.2 h.nodup
  have hsize : s.map.sz = es.reverse.length := by rw [List.length_reverse, h.size]
  unfold hashmapGrow
  dsimp only
  rw [if_neg hcalloc]
  cases h.table with
  | empty hbs hcap hzero hes =>
    subst hes
    rw [hcap]
    refine ⟨_, rfl, ⟨List.nodup_nil, hdomain fun _ => Iff.rfl, h.size, ?_⟩, rfl, ?_, fun _ => Iff.rfl⟩
    · refine .buckets _ rfl rfl List.length_replicate (Nat.le_max_right _ _) hbits (Nat.zero_le _) ?_
      intro i head hi
      exact List.eq_of_mem_replicate (List.mem_of_getElem? hi)
    · show 1 * 4 / 3 ≤ 2 ^ max (s.map.capBits + 1) minCapBits
      rw [hzero]
      decide
  | buckets bs hbs hcap hlen htwo hsixty hload hbuckets =>
    have hmax : max (s.map.capBits + 1) minCapBits = s.map.capBits + 1 :=
      Nat.max_eq_left (by rw [minCapBits]; omega)
    rw [hmax] at hbits ⊢
    have hle : s.map.capBits + 1 ≤ 64 := by omega
    obtain ⟨heap', bs', hfold, hnew, hlen', -, hdom⟩ :=
      moveBuckets_spec hle hbs hbuckets h.nodup hfuel _ (Nat.le_refl _)
    have hnew' : Buckets hashFn (s.map.capBits + 1) heap' bs' es.reverse := by
      intro i head hi
      have hlt : i < 2 ^ (s.map.capBits + 1) := by
        rw [← hlen']
        exact (List.getElem?_eq_some_iff.1 hi).1
      have hhalf : i / 2 < bs.length := by
        rw [hlen, Nat.div_lt_iff_lt_mul Nat.two_pos]
        exact hlt
      have hchain := hnew i head hi
      rw [inBucket_reverse, inBucket_byBucket (by omega) (by omega), if_pos hhalf, ← inBucket_reverse] at hchain
      exact hchain
    have hgrown : (es.length + 1) * 4 / 3 ≤ 2 ^ (s.map.capBits + 1) := by
      have hfour : 2 ^ 2 ≤ 2 ^ s.map.capBits := Nat.pow_le_pow_right Nat.two_pos htwo
      rw [Nat.pow_succ]
      omega
    rw [hcap, ← hlen, hfold]
    refine ⟨⟨heap', some bs', 2 ^ (s.map.capBits + 1), s.map.capBits + 1, s.map.sz⟩, rfl,
      ⟨hnodup, hdomain hdom, hsize, ?_⟩, rfl, hgrown, hdom⟩
    refine .buckets bs' rfl rfl hlen' (Nat.le_succ_of_le htwo) hbits ?_ hnew'
    show es.reverse.length * 4 / 3 ≤ 2 ^ (s.map.capBits + 1)
    rw [List.length_reverse]
    exact Nat.le_trans (Nat.div_le_div_right (by omega)) hgrown

theorem hashmapGrow_fails {s : State} {fuel : Nat} {calloc : Bool}
    (h : ¬ (calloc = true ∧ max (s.map.capBits + 1) minCapBits ≤ 60)) :
    hashmapGrow fuel hashFn s calloc = some (s, -ENOMEM) := by
  have hcalloc : calloc = false ∨ 2 ^ 64 ≤ 2 ^ max (s.map.capBits + 1) minCapBits * 8 := by
    rw [two_pow_mul_eight_lt]
    cases calloc with
    | false => exact .inl rfl
    | true => exact .inr fun hle => h ⟨rfl, hle⟩
  unfold hashmapGrow
  dsimp only
  rw [if_pos hcalloc]

end CPrograms.Libbpf
