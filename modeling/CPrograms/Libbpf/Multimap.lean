import CPrograms.Libbpf.Buckets
import CPrograms.Lib.Runs

/-!
# The hash map as a list of entries

`Multi` is what the calls do, without a heap and without buckets: a list of entries, the newest in
front, which a growth reverses.  A lookup gets the first entry with an equal key, a deletion
removes it.  `call_spec` is the step lemma: on the heap a call does what it does on the list, and it comes to
its end.
-/

namespace CPrograms.Libbpf

open Chains Runs

/-! ## Lists -/

section

variable {α : Type} {p : α → Bool} {x y : α} {xs ys zs : List α}

/-- `y` for the first element that meets `p`. -/
def setFirst (p : α → Bool) (y : α) : List α → List α
  | [] => []
  | x :: xs => if p x then y :: xs else x :: setFirst p y xs

theorem setFirst_append (hys : ∀ z ∈ ys, p z = false) (hx : p x = true) :
    setFirst p y (ys ++ x :: zs) = ys ++ y :: zs := by
  induction ys with
  | nil => exact if_pos hx
  | cons z ys ih =>
    obtain ⟨hz, hys⟩ := List.forall_mem_cons.1 hys
    rw [List.cons_append, setFirst, if_neg (by simp [hz]), ih hys, List.cons_append]

theorem eraseP_append (hys : ∀ z ∈ ys, p z = false) (hx : p x = true) :
    (ys ++ x :: zs).eraseP p = ys ++ zs := by
  rw [List.eraseP_append_right _ fun z hz => by simp [hys z hz], List.eraseP_cons_of_pos hx]

theorem find?_append_cons (hys : ∀ z ∈ ys, p z = false) (hx : p x = true) : (ys ++ x :: zs).find? p = some x :=
  List.find?_eq_some_iff_append.2 ⟨hx, ys, zs, rfl, fun z hz => by simp [hys z hz]⟩

/-- None meets `p`, or there is a first one. -/
theorem first_cases (p : α → Bool) (xs : List α) :
    (∀ x ∈ xs, p x = false) ∨ ∃ ys x zs, xs = ys ++ x :: zs ∧ (∀ y ∈ ys, p y = false) ∧ p x = true := by
  cases h : xs.find? p with
  | none => exact .inl fun x hx => by simpa using List.find?_eq_none.1 h x hx
  | some x =>
    obtain ⟨hx, ys, zs, rfl, hys⟩ := List.find?_eq_some_iff_append.1 h
    exact .inr ⟨ys, x, zs, rfl, fun y hy => by simpa using hys y hy, hx⟩

end

/-! ## The entries as a list -/

structure Multi where
  entries : List Pair
  bits : Nat

namespace Multi

variable (fns : Fns)

def full (m : Multi) : Bool := m.bits = 0 ∨ 2 ^ m.bits < (m.entries.length + 1) * 4 / 3

def grow (m : Multi) (calloc : Bool) : Option Multi :=
  if calloc = true ∧ max (m.bits + 1) minCapBits ≤ 60 then
    some ⟨m.entries.reverse, max (m.bits + 1) minCapBits⟩
  else none

def find (m : Multi) (key : Int) : Option Pair := m.entries.find? fun e => fns.equalFn e.key key

def insertNew (m : Multi) (key value : Int) (strategy : Strategy) (calloc : Bool)
    (malloc : Option Nat) : Multi × Inserted :=
  if strategy = .update then (m, ⟨-ENOENT, 0, 0⟩)
  else
    match if m.full then m.grow calloc else some m with
    | none => (m, ⟨-ENOMEM, 0, 0⟩)
    | some m => if malloc = none then (m, ⟨-ENOMEM, 0, 0⟩) else (⟨⟨key, value⟩ :: m.entries, m.bits⟩, ⟨0, 0, 0⟩)

def insert (m : Multi) (key value : Int) (strategy : Strategy) (calloc : Bool)
    (malloc : Option Nat) : Multi × Inserted :=
  match if strategy = .append then none else m.find fns key with
  | none => m.insertNew key value strategy calloc malloc
  | some e =>
    if strategy = .set ∨ strategy = .update then
      (⟨setFirst (fun e => fns.equalFn e.key key) ⟨key, value⟩ m.entries, m.bits⟩, ⟨0, e.key, e.value⟩)
    else (m, ⟨-EEXIST, e.key, e.value⟩)

def delete (m : Multi) (key : Int) : Multi := ⟨m.entries.eraseP fun e => fns.equalFn e.key key, m.bits⟩

def each (m : Multi) (key : Int) : List Pair := m.entries.filter fun e => fns.equalFn e.key key

end Multi

/-! ## Calls -/

/-- A call, with what `calloc` and `malloc` answer. -/
inductive Op
  | insert (key value : Int) (strategy : Strategy) (calloc : Bool) (malloc : Option Nat)
  | delete (key : Int)
  | find (key : Int)
  | each (key : Int)
  | clear

inductive Answer
  | inserted (i : Inserted)
  | deleted (e : Option Pair)
  | found (value : Option Int)
  | entries (es : List Pair)
  | cleared

def call (fuel : Nat) (fns : Fns) (s : State) : Op → Option (State × Answer)
  | .insert key value strategy calloc malloc =>
    (hashmapInsert fuel fns s key value strategy calloc malloc).map fun r => (r.1, .inserted r.2)
  | .delete key => (hashmapDelete fuel fns s key).map fun r => (r.1, .deleted r.2)
  | .find key => (hashmapFind fuel fns s key).map fun r => (s, .found r)
  | .each key => (hashmapForEachKeyEntry fuel fns s key).map fun r => (s, .entries r)
  | .clear => (hashmapClear fuel s).map fun t => (t, .cleared)

def Multi.call (fns : Fns) (m : Multi) : Op → Multi × Answer
  | .insert key value strategy calloc malloc =>
    ((m.insert fns key value strategy calloc malloc).1,
      .inserted (m.insert fns key value strategy calloc malloc).2)
  | .delete key => (m.delete fns key, .deleted (m.find fns key))
  | .find key => (m, .found ((m.find fns key).map Pair.value))
  | .each key => (m, .entries (m.each fns key))
  | .clear => (⟨[], 0⟩, .cleared)

/-- `malloc` gives memory that is not in use. -/
def Allowed (s : State) : Op → Prop
  | .insert _ _ _ _ (some a) => s.heap a = none
  | _ => True

/-- A call that comes to its end, and its answer. -/
def Step (fns : Fns) (s : State) (c : Op × Answer) (t : State) : Prop :=
  Allowed s c.1 ∧ call (s.map.sz + 1) fns s c.1 = some (t, c.2)

/-- Equal keys have one hash. -/
def Compatible (fns : Fns) : Prop := ∀ k l, fns.equalFn k l = true → fns.hashFn k = fns.hashFn l

/-! ## Lookup -/

/-- `pprev` behind the entries `ys`. -/
def prevOf : Ref → List (Nat × Pair) → Ref
  | pprev, [] => pprev
  | _, (b, _) :: ys => prevOf (.next b) ys

theorem prevOf_append (pprev : Ref) (ys : List (Nat × Pair)) (b : Nat) (e : Pair) :
    prevOf pprev (ys ++ [(b, e)]) = .next b := by
  induction ys generalizing pprev with
  | nil => rfl
  | cons y ys ih => exact ih (.next y.1)

variable {fns : Fns} {s : State} {heap : Heap Pair} {es xs : List (Nat × Pair)} {key : Int}

theorem findLoop_none {equalFn : Int → Int → Bool} {p : Option Nat} (hchain : Chain heap p xs)
    (hno : ∀ x ∈ xs, equalFn x.2.key key = false) {fuel : Nat} (hfuel : xs.length < fuel) (pprev : Ref) :
    findLoop heap equalFn key fuel pprev p = some none := by
  induction xs generalizing p fuel pprev with
  | nil =>
    obtain rfl : p = none := hchain
    obtain ⟨fuel, rfl⟩ := Nat.exists_eq_add_one.2 (Nat.zero_lt_of_lt hfuel)
    rfl
  | cons x xs ih =>
    obtain ⟨rfl, r, hx, hrest⟩ := hchain
    obtain ⟨hxno, hno⟩ := List.forall_mem_cons.1 hno
    obtain ⟨fuel, rfl⟩ := Nat.exists_eq_add_one.2 (Nat.zero_lt_of_lt hfuel)
    rw [findLoop, hx, ← ih hrest hno (Nat.lt_of_succ_lt_succ hfuel) (.next x.1)]
    exact if_neg (by simp [hxno])

theorem findLoop_some {equalFn : Int → Int → Bool} {p : Option Nat} {ys zs : List (Nat × Pair)}
    {a : Nat} {d : Pair}
    (hchain : Chain heap p (ys ++ (a, d) :: zs)) (hno : ∀ y ∈ ys, equalFn y.2.key key = false)
    (hd : equalFn d.key key = true) {fuel : Nat} (hfuel : ys.length < fuel) (pprev : Ref) :
    findLoop heap equalFn key fuel pprev p = some (some (prevOf pprev ys, a)) := by
  induction ys generalizing p fuel pprev with
  | nil =>
    obtain ⟨rfl, r, ha, -⟩ := hchain
    obtain ⟨fuel, rfl⟩ := Nat.exists_eq_add_one.2 (Nat.zero_lt_of_lt hfuel)
    rw [findLoop, ha]
    exact if_pos hd
  | cons y ys ih =>
    obtain ⟨rfl, r, hy, hrest⟩ := hchain
    obtain ⟨hyno, hno⟩ := List.forall_mem_cons.1 hno
    obtain ⟨fuel, rfl⟩ := Nat.exists_eq_add_one.2 (Nat.zero_lt_of_lt hfuel)
    rw [findLoop, hy, prevOf, ← ih hrest hno (Nat.lt_of_succ_lt_succ hfuel) (.next y.1)]
    exact if_neg (by simp [hyno])

theorem eachLoop_eq {equalFn : Int → Int → Bool} {p : Option Nat} (hchain : Chain heap p xs) {fuel : Nat}
    (hfuel : xs.length < fuel) : eachLoop heap equalFn key fuel p =
      some ((xs.map Prod.snd).filter fun d => equalFn d.key key) := by
  induction xs generalizing p fuel with
  | nil =>
    obtain rfl : p = none := hchain
    obtain ⟨fuel, rfl⟩ := Nat.exists_eq_add_one.2 (Nat.zero_lt_of_lt hfuel)
    rfl
  | cons x xs ih =>
    obtain ⟨rfl, r, hx, hrest⟩ := hchain
    obtain ⟨fuel, rfl⟩ := Nat.exists_eq_add_one.2 (Nat.zero_lt_of_lt hfuel)
    rw [eachLoop, hx]
    show (eachLoop heap equalFn key fuel r).bind _ = _
    rw [ih hrest (Nat.lt_of_succ_lt_succ hfuel), List.map_cons, List.filter_cons]
    rfl

/-! ## One call -/

/-- The bucket of `key`, if there are buckets. -/
theorem Holds.bucket (h : Holds fns.hashFn s es) (hbs : s.map.buckets ≠ none) (key : Int) :
    ∃ head, s.map.bucket (hashBits (fns.hashFn key) s.map.capBits) = some head ∧
      Chain s.heap head (inBucket fns.hashFn s.map.capBits (hashBits (fns.hashFn key) s.map.capBits) es) := by
  cases h.table with
  | empty hnone => exact absurd hnone hbs
  | buckets bs hsome hcap hlen htwo hsixty hload hbuckets =>
    have hlt := hashBits_lt_length (fns.hashFn key) hlen hsixty
    have hhead : bs[hashBits (fns.hashFn key) s.map.capBits]? =
        some bs[hashBits (fns.hashFn key) s.map.capBits] :=
      List.getElem?_eq_getElem hlt
    exact ⟨_, bucket_eq hsome hhead, hbuckets _ _ hhead⟩

theorem Holds.no_buckets (h : Holds fns.hashFn s es) (hbs : s.map.buckets = none) : es = [] := by
  cases h.table with
  | empty _ _ _ hes => exact hes
  | buckets bs hsome => rw [hbs] at hsome; cases hsome

theorem Holds.short (h : Holds fns.hashFn s es) (i : Nat) :
    (inBucket fns.hashFn s.map.capBits i es).length < s.map.sz + 1 := by
  rw [h.size]
  exact Nat.lt_succ_of_le (length_inBucket_le i es)

theorem findEntry_none (h : Holds fns.hashFn s es) (hno : ∀ e ∈ es, fns.equalFn e.2.key key = false) :
    hashmapFindEntry (s.map.sz + 1) fns s key (hashBits (fns.hashFn key) s.map.capBits) = some none := by
  unfold hashmapFindEntry
  split
  · rfl
  · next hbs =>
    obtain ⟨head, hhead, hchain⟩ := h.bucket hbs key
    rw [hhead]
    exact findLoop_none hchain (fun x hx => hno x (mem_inBucket.1 hx).1) (h.short _) _

variable {ys zs : List (Nat × Pair)} {a : Nat} {d : Pair}

theorem inBucket_split (bits : Nat) (hd : fns.hashFn d.key = fns.hashFn key) :
    inBucket fns.hashFn bits (hashBits (fns.hashFn key) bits) (ys ++ (a, d) :: zs) =
      inBucket fns.hashFn bits (hashBits (fns.hashFn key) bits) ys ++
        (a, d) :: inBucket fns.hashFn bits (hashBits (fns.hashFn key) bits) zs := by
  have hself := @inBucket_cons_self fns.hashFn bits (a, d) zs
  rw [hd] at hself
  rw [inBucket_append, hself]

/-- The first entry with an equal key, and what is before it in its bucket. -/
theorem findEntry_some (hfns : Compatible fns) (h : Holds fns.hashFn s (ys ++ (a, d) :: zs))
    (hno : ∀ y ∈ ys, fns.equalFn y.2.key key = false) (hd : fns.equalFn d.key key = true) :
    hashmapFindEntry (s.map.sz + 1) fns s key (hashBits (fns.hashFn key) s.map.capBits) =
      some (some (prevOf (.bucket (hashBits (fns.hashFn key) s.map.capBits))
        (inBucket fns.hashFn s.map.capBits (hashBits (fns.hashFn key) s.map.capBits) ys), a)) := by
  unfold hashmapFindEntry
  split
  · next hbs => exact absurd (h.no_buckets hbs) (by simp)
  · next hbs =>
    obtain ⟨head, hhead, hchain⟩ := h.bucket hbs key
    have hshort := h.short (hashBits (fns.hashFn key) s.map.capBits)
    rw [inBucket_split _ (hfns _ _ hd)] at hchain hshort
    rw [List.length_append] at hshort
    rw [hhead]
    exact findLoop_some hchain (fun y hy => hno y (mem_inBucket.1 hy).1) hd (by omega) _

/-- What a look at the entry finds. -/
theorem Holds.entry (h : Holds fns.hashFn s (ys ++ (a, d) :: zs)) : ∃ r, s.heap a = some ⟨d, r⟩ := by
  have hmem : (a, d) ∈ ys ++ (a, d) :: zs := List.mem_append_right _ List.mem_cons_self
  cases h.table with
  | empty _ _ _ hes => exact absurd hes (by simp)
  | buckets bs hsome hcap hlen htwo hsixty hload hbuckets =>
    have hlt := hashBits_lt_length (fns.hashFn d.key) hlen hsixty
    have hchain := hbuckets _ _ (List.getElem?_eq_getElem hlt)
    exact hchain.mem (mem_inBucket.2 ⟨hmem, rfl⟩)

/-- The other addresses. -/
theorem Holds.others (h : Holds fns.hashFn s (ys ++ (a, d) :: zs)) :
    (∀ y ∈ ys, y.1 ≠ a) ∧ (∀ z ∈ zs, z.1 ≠ a) ∧ ((ys ++ zs).map Prod.fst).Nodup := by
  have hnodup := h.nodup
  rw [List.map_append, List.map_cons, List.nodup_middle, List.nodup_cons, ← List.map_append] at hnodup
  obtain ⟨hnot, hrest⟩ := hnodup
  refine ⟨fun y hy heq => hnot ?_, fun z hz heq => hnot ?_, hrest⟩
  · exact List.mem_map.2 ⟨y, List.mem_append_left _ hy, heq⟩
  · exact List.mem_map.2 ⟨z, List.mem_append_right _ hz, heq⟩

/-- One bucket changes. -/
theorem Buckets.change {hashFn : Int → Nat} {bits : Nat} {heap' : Heap Pair} {bs bs' : List (Option Nat)}
    {es' : List (Nat × Pair)} (h : Buckets hashFn bits heap bs es) (i : Nat)
    (hes : ∀ j, j ≠ i → inBucket hashFn bits j es' = inBucket hashFn bits j es)
    (hbs : ∀ j, j ≠ i → bs'[j]? = bs[j]?)
    (hheap : ∀ e ∈ es, hashBits (hashFn e.2.key) bits ≠ i → heap' e.1 = heap e.1)
    (hchain : ∀ head, bs'[i]? = some head → Chain heap' head (inBucket hashFn bits i es')) :
    Buckets hashFn bits heap' bs' es' := by
  intro j head hj
  by_cases hji : j = i
  · subst hji
    exact hchain head hj
  · rw [hbs j hji] at hj
    rw [hes j hji]
    refine (h j head hj).congr fun x hx => ?_
    obtain ⟨hxes, hxj⟩ := mem_inBucket.1 hx
    exact hheap x hxes (by rw [hxj]; exact hji)

theorem inBucket_other {bits i : Nat} (hd : hashBits (fns.hashFn d.key) bits ≠ i) (a : Nat) :
    inBucket fns.hashFn bits i (ys ++ (a, d) :: zs) = inBucket fns.hashFn bits i (ys ++ zs) := by
  rw [inBucket_append, inBucket_cons_of_ne (e := (a, d)) hd, ← inBucket_append]

/-- The entry gets another value, and a key that has the same hash. -/
theorem Holds.set (h : Holds fns.hashFn s (ys ++ (a, d) :: zs)) {e : Pair}
    (he : fns.hashFn e.key = fns.hashFn d.key) :
    ∃ r, s.heap a = some ⟨d, r⟩ ∧
      Holds fns.hashFn { s with heap := Function.update s.heap a (some ⟨e, r⟩) } (ys ++ (a, e) :: zs) := by
  obtain ⟨r, ha⟩ := h.entry
  obtain ⟨hys, hzs, -⟩ := h.others
  refine ⟨r, ha, ?_, ?_, ?_, ?_⟩
  · have hnodup := h.nodup
    rw [List.map_append, List.map_cons] at hnodup ⊢
    exact hnodup
  · intro b
    have hold := h.heap b
    simp only [List.forall_mem_append, List.forall_mem_cons] at hold ⊢
    rw [← hold]
    by_cases hb : b = a
    · subst hb
      rw [Function.update_self, ha]
      exact iff_of_false nofun nofun
    · rw [Function.update_of_ne hb]
  · rw [h.size, List.length_append, List.length_append]
    rfl
  · cases h.table with
    | empty _ _ _ hes => exact absurd hes (by simp)
    | buckets bs hsome hcap hlen htwo hsixty hload hbuckets =>
      refine .buckets bs hsome hcap hlen htwo hsixty ?_ ?_
      · rw [List.length_append] at hload ⊢
        exact hload
      · refine hbuckets.change (hashBits (fns.hashFn d.key) s.map.capBits) ?_ (fun _ _ => rfl) ?_ ?_
        · intro j hj
          rw [inBucket_other (Ne.symm hj) a, inBucket_other (by rw [he]; exact Ne.symm hj) a]
        · intro x hx hne
          refine Function.update_of_ne ?_ ..
          rintro heq
          have hxe := eq_of_fst h.nodup hx (List.mem_append_right _ List.mem_cons_self) heq
          rw [hxe] at hne
          exact hne rfl
        · intro head hhead
          have hchain := hbuckets _ head hhead
          rw [inBucket_split _ rfl] at hchain
          obtain ⟨r', ha', hnew⟩ := hchain.write (e := e) (fun y hy => hys y (mem_inBucket.1 hy).1)
            (fun z hz => hzs z (mem_inBucket.1 hz).1)
          obtain rfl : r = r' := (Node.mk.inj (Option.some.inj (ha.symm.trans ha'))).2
          rw [inBucket_split _ he]
          exact hnew

theorem Holds.few (h : Holds fns.hashFn s es) : es.length * 4 / 3 ≤ 2 ^ 60 := by
  cases h.table with
  | empty _ _ _ hes => rw [hes]; exact Nat.zero_le _
  | buckets bs hsome hcap hlen htwo hsixty hload hbuckets =>
    exact Nat.le_trans hload (Nat.pow_le_pow_right Nat.two_pos hsixty)

/-- The entry is gone, and what pointed to it in its bucket leads on. -/
theorem Holds.remove (h : Holds fns.hashFn s (ys ++ (a, d) :: zs)) {bs bs' : List (Option Nat)}
    {heap' : Heap Pair}
    (hsome : s.map.buckets = some bs) (hlen : bs'.length = bs.length)
    (hbs : ∀ j, j ≠ hashBits (fns.hashFn d.key) s.map.capBits → bs'[j]? = bs[j]?)
    (hdom : ∀ b, heap' b = none ↔ b = a ∨ s.heap b = none)
    (hheap : ∀ b, (∀ x ∈ inBucket fns.hashFn s.map.capBits (hashBits (fns.hashFn d.key) s.map.capBits)
      (ys ++ (a, d) :: zs), x.1 ≠ b) → heap' b = s.heap b)
    (hchain : ∀ head, bs'[hashBits (fns.hashFn d.key) s.map.capBits]? = some head → Chain heap' head
      (inBucket fns.hashFn s.map.capBits (hashBits (fns.hashFn d.key) s.map.capBits) (ys ++ zs))) :
    Holds fns.hashFn ⟨heap', ⟨some bs', s.map.cap, s.map.capBits, sizeDec s.map.sz⟩⟩ (ys ++ zs) := by
  obtain ⟨hys, hzs, hnodup⟩ := h.others
  have hcount : (ys ++ (a, d) :: zs).length = (ys ++ zs).length + 1 := by
    rw [List.length_append, List.length_append]
    rfl
  have hfew := h.few
  rw [hcount] at hfew
  refine ⟨hnodup, fun b => ?_, ?_, ?_⟩
  · have hold := h.heap b
    rw [hdom b, hold]
    simp only [List.forall_mem_append, List.forall_mem_cons]
    constructor
    · rintro (rfl | ⟨h₁, -, h₂⟩)
      · exact ⟨hys, hzs⟩
      · exact ⟨h₁, h₂⟩
    · rintro ⟨h₁, h₂⟩
      by_cases hb : a = b
      · exact .inl hb.symm
      · exact .inr ⟨h₁, hb, h₂⟩
  · show sizeDec s.map.sz = (ys ++ zs).length
    rw [sizeDec, h.size, hcount]
    omega
  · cases h.table with
    | empty hnone => rw [hnone] at hsome; cases hsome
    | buckets bs₀ hsome₀ hcap hlen₀ htwo hsixty hload hbuckets =>
      obtain rfl : bs₀ = bs := Option.some.inj (hsome₀.symm.trans hsome)
      rw [hcount] at hload
      refine .buckets bs' rfl hcap (hlen.trans hlen₀) htwo hsixty (by dsimp only; omega) ?_
      refine hbuckets.change (hashBits (fns.hashFn d.key) s.map.capBits) ?_ hbs ?_ hchain
      · intro j hj
        exact (inBucket_other (Ne.symm hj) a).symm
      · intro x hx hne
        refine hheap x.1 fun y hy heq => hne ?_
        obtain ⟨hyes, hyi⟩ := mem_inBucket.1 hy
        rw [← eq_of_fst h.nodup hyes hx heq, hyi]

theorem none_update {heap : Heap Pair} {b : Nat} (n : Node Pair) (hb : heap b ≠ none) (c : Nat) :
    Function.update heap b (some n) c = none ↔ heap c = none := by
  by_cases hc : c = b
  · subst hc
    rw [Function.update_self]
    exact iff_of_false nofun hb
  · rw [Function.update_of_ne hc]

theorem none_update_none {heap : Heap Pair} (a c : Nat) :
    Function.update heap a none c = none ↔ c = a ∨ heap c = none := by
  by_cases hc : c = a
  · subst hc
    rw [Function.update_self]
    exact iff_of_true rfl (.inl rfl)
  · rw [Function.update_of_ne hc, or_iff_right hc]

theorem Holds.bucket_nodup (h : Holds fns.hashFn s es) (i : Nat) :
    ((inBucket fns.hashFn s.map.capBits i es).map Prod.fst).Nodup := h.nodup.sublist (List.filter_sublist.map _)

/-- The bucket itself points to the entry. -/
theorem delEntry_bucket {bs : List (Option Nat)} {i : Nat} {q : Option Nat} (hsome : s.map.buckets = some bs)
    (hi : i < bs.length) (ha : s.heap a = some ⟨d, q⟩) : hashmapDelEntry s (.bucket i) a =
      some ⟨Function.update s.heap a (some ⟨d, none⟩), { s.map with buckets := some (bs.set i q) }⟩ := by
  have hstore : s.store q (.bucket i) = some { s with map := { s.map with buckets := some (bs.set i q) } } := by
    rw [State.store, hsome]
    exact if_pos hi
  rw [hashmapDelEntry, ha]
  show (s.store q (.bucket i)).bind _ = _
  rw [hstore]
  show (s.heap a).bind _ = _
  rw [ha]
  rfl

/-- The entry before it does. -/
theorem delEntry_next {b : Nat} {e : Pair} {q : Option Nat} (hb : s.heap b = some ⟨e, some a⟩)
    (ha : s.heap a = some ⟨d, q⟩)
    (hab : a ≠ b) : hashmapDelEntry s (.next b) a =
      some ⟨Function.update (Function.update s.heap b (some ⟨e, q⟩)) a (some ⟨d, none⟩), s.map⟩ := by
  rw [hashmapDelEntry, ha]
  show (s.store q (.next b)).bind _ = _
  rw [State.store, hb]
  show (Function.update s.heap b (some ⟨e, q⟩) a).bind _ = _
  rw [Function.update_of_ne hab, ha]
  rfl

theorem free_update (heap : Heap Pair) (a : Nat) (n : Node Pair) :
    free (Function.update heap a (some n)) a = some (Function.update heap a none) := by
  rw [free, Function.update_self, Option.bind_eq_bind, Option.bind_some, Function.update_idem]

/-- **`hashmap_del_entry` and `free`.** -/
theorem delEntry_spec (h : Holds fns.hashFn s (ys ++ (a, d) :: zs)) : ∃ t heap',
    hashmapDelEntry s (prevOf (.bucket (hashBits (fns.hashFn d.key) s.map.capBits))
      (inBucket fns.hashFn s.map.capBits (hashBits (fns.hashFn d.key) s.map.capBits) ys)) a = some t ∧
    free t.heap a = some heap' ∧ t.map.capBits = s.map.capBits ∧
    Holds fns.hashFn ⟨heap', { t.map with sz := sizeDec t.map.sz }⟩ (ys ++ zs) := by
  cases htable : h.table with
  | empty _ _ _ hes => exact absurd hes (by simp)
  | buckets bs hsome hcap hlen htwo hsixty hload hbuckets =>
    have hlt := hashBits_lt_length (fns.hashFn d.key) hlen hsixty
    have hchain := hbuckets _ _ (List.getElem?_eq_getElem hlt)
    have hnodup := h.bucket_nodup (hashBits (fns.hashFn d.key) s.map.capBits)
    have hmem : (a, d) ∈ inBucket fns.hashFn s.map.capBits (hashBits (fns.hashFn d.key) s.map.capBits)
        (ys ++ (a, d) :: zs) := mem_inBucket.2 ⟨List.mem_append_right _ List.mem_cons_self, rfl⟩
    rw [inBucket_split _ rfl] at hchain hnodup
    rcases List.eq_nil_or_concat (inBucket fns.hashFn s.map.capBits
      (hashBits (fns.hashFn d.key) s.map.capBits) ys) with
      hnil | ⟨front, ⟨b, e⟩, hfront⟩
    · -- the bucket itself points to the entry
      rw [hnil, List.nil_append, List.map_cons, List.nodup_cons] at hnodup
      rw [hnil] at hchain
      obtain ⟨-, q, ha, hrest⟩ := hchain.pop fun x hx heq => hnodup.1 (List.mem_map.2 ⟨x, hx, heq⟩)
      refine ⟨⟨Function.update s.heap a (some ⟨d, none⟩), { s.map with
        buckets := some (bs.set (hashBits (fns.hashFn d.key) s.map.capBits) q) }⟩,
          Function.update s.heap a none,
        ?_, free_update _ _ _, rfl, ?_⟩
      · rw [hnil]
        exact delEntry_bucket hsome hlt ha
      · refine h.remove hsome List.length_set (fun j hj => List.getElem?_set_ne (Ne.symm hj))
          (none_update_none a) ?_ ?_
        · intro c hc
          exact Function.update_of_ne (hc (a, d) hmem).symm ..
        · intro head hset
          rw [List.getElem?_set_self hlt, Option.some.injEq] at hset
          subst hset
          rw [inBucket_append, hnil]
          exact hrest
    · -- the entry before it does
      have hbmem : (b, e) ∈ inBucket fns.hashFn s.map.capBits (hashBits (fns.hashFn d.key) s.map.capBits)
          (ys ++ (a, d) :: zs) := by
        rw [inBucket_append, hfront]
        simp
      rw [hfront, List.concat_append] at hnodup hchain
      obtain ⟨q, hb, ha, hab, hnew⟩ := hchain.unlink hnodup
      refine ⟨⟨Function.update (Function.update s.heap b (some ⟨e, q⟩)) a (some ⟨d, none⟩), s.map⟩,
        Function.update (Function.update s.heap b (some ⟨e, q⟩)) a none, ?_, free_update _ _ _, rfl, ?_⟩
      · rw [hfront, List.concat_eq_append, prevOf_append]
        exact delEntry_next hb ha hab
      · show Holds fns.hashFn ⟨_, ⟨s.map.buckets, s.map.cap, s.map.capBits, _⟩⟩ (ys ++ zs)
        rw [hsome]
        refine h.remove hsome rfl (fun _ _ => rfl) ?_ ?_ ?_
        · intro c
          rw [none_update_none, none_update _ (by rw [hb]; nofun)]
        · intro c hc
          rw [Function.update_of_ne (hc (a, d) hmem).symm, Function.update_of_ne (hc (b, e) hbmem).symm]
        · intro head hget
          rw [List.getElem?_eq_getElem hlt, Option.some.injEq] at hget
          subst hget
          rw [inBucket_append, hfront, List.concat_append]
          exact hnew

end CPrograms.Libbpf
