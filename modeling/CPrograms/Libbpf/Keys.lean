import CPrograms.Libbpf.Calls

/-!
# Keys of the hash map

What a user of the map sees.  Without `HASHMAP_APPEND` the map is a function of the keys, which a call that
fails does not change (`hashmap_dict`).  With it a key has several entries, and a growth
turns their order round: a lookup finds the entry appended last after an even number of growths only
(`find_after_append`).
-/

namespace CPrograms.Libbpf

open Chains Runs

/-- `equal_fn` is an equality of keys, and equal keys have one hash. -/
structure Lawful (fns : Fns) : Prop where
  compatible : Compatible fns
  refl : ∀ k, fns.equalFn k k = true
  symm : ∀ {k l}, fns.equalFn k l = true → fns.equalFn l k = true
  trans : ∀ {k l m}, fns.equalFn k l = true → fns.equalFn l m = true → fns.equalFn k m = true

variable {fns : Fns} {key : Int}

/-- What is equal to one of two different keys is not equal to the other. -/
theorem Lawful.ne (hfns : Lawful fns) {k l : Int} (hkl : fns.equalFn k l = true)
    (hk : fns.equalFn l key = false) :
    fns.equalFn k key = false := by
  by_contra h
  rw [Bool.not_eq_false] at h
  rw [hfns.trans (hfns.symm hkl) h] at hk
  cases hk

theorem Lawful.symm_false (hfns : Lawful fns) {k l : Int} (hkl : fns.equalFn k l = false) :
    fns.equalFn l k = false := by
  by_contra h
  rw [Bool.not_eq_false] at h
  rw [hfns.symm h] at hkl
  cases hkl

/-! ## Order -/

/-- A call that leaves the entries of `key` alone. -/
def Elsewhere (fns : Fns) (key : Int) : Op → Prop
  | .insert k _ _ _ _ => fns.equalFn k key = false
  | .delete k => fns.equalFn k key = false
  | .clear => False
  | _ => True

theorem filter_setFirst (hfns : Lawful fns) {k value : Int} (hk : fns.equalFn k key = false) (es : List Pair) :
    (setFirst (fun e => fns.equalFn e.key k) ⟨k, value⟩ es).filter (fun e => fns.equalFn e.key key) =
      es.filter fun e => fns.equalFn e.key key := by
  induction es with
  | nil => rfl
  | cons e es ih =>
    rw [setFirst]
    split
    · next he =>
      have hne := hfns.ne he hk
      rw [List.filter_cons_of_neg (by simp [hk]), List.filter_cons_of_neg (by simp [hne])]
    · rw [List.filter_cons, List.filter_cons, ih]

theorem filter_eraseP (hfns : Lawful fns) {k : Int} (hk : fns.equalFn k key = false) (es : List Pair) :
    (es.eraseP fun e => fns.equalFn e.key k).filter (fun e => fns.equalFn e.key key) =
      es.filter fun e => fns.equalFn e.key key := by
  induction es with
  | nil => rfl
  | cons e es ih =>
    by_cases he : fns.equalFn e.key k = true
    · have hne := hfns.ne he hk
      rw [List.eraseP_cons_of_pos (p := fun e : Pair => fns.equalFn e.key k) he,
        List.filter_cons_of_neg (by simp [hne])]
    · rw [List.eraseP_cons_of_neg (p := fun e : Pair => fns.equalFn e.key k) he, List.filter_cons,
        List.filter_cons, ih]

/-- A new entry, perhaps after a growth. -/
theorem insertNew_cases (m : Multi) (key value : Int) (strategy : Strategy) (calloc : Bool)
    (malloc : Option Nat) :
    strategy = .update ∧ m.insertNew key value strategy calloc malloc = (m, ⟨-ENOENT, 0, 0⟩) ∨
    ∃ m', (m' = m ∨ m' = ⟨m.entries.reverse, max (m.bits + 1) minCapBits⟩) ∧ strategy ≠ .update ∧
      (m.insertNew key value strategy calloc malloc = (⟨⟨key, value⟩ :: m'.entries, m'.bits⟩, ⟨0, 0, 0⟩) ∨
        m.insertNew key value strategy calloc malloc = (m', ⟨-ENOMEM, 0, 0⟩) ∧
          (malloc = none ∨ calloc = false ∨ 2 ^ 59 ≤ m.entries.length)) := by
  unfold Multi.insertNew
  by_cases hupdate : strategy = .update
  · exact .inl ⟨hupdate, if_pos hupdate⟩
  rw [if_neg hupdate]
  right
  have hlast : ∀ m' : Multi, (if malloc = none then (m', ⟨-ENOMEM, 0, 0⟩)
      else (⟨⟨key, value⟩ :: m'.entries, m'.bits⟩, ⟨0, 0, 0⟩) : Multi × Inserted) =
        (⟨⟨key, value⟩ :: m'.entries, m'.bits⟩, ⟨0, 0, 0⟩) ∨
      (if malloc = none then (m', ⟨-ENOMEM, 0, 0⟩)
        else (⟨⟨key, value⟩ :: m'.entries, m'.bits⟩, ⟨0, 0, 0⟩) : Multi × Inserted) = (m', ⟨-ENOMEM, 0, 0⟩) ∧
        (malloc = none ∨ calloc = false ∨ 2 ^ 59 ≤ m.entries.length) := by
    intro m'
    by_cases hnone : malloc = none
    · exact .inr ⟨if_pos hnone, .inl hnone⟩
    · exact .inl (if_neg hnone)
  by_cases hfull : m.full = true
  · rw [if_pos hfull]
    by_cases hok : calloc = true ∧ max (m.bits + 1) minCapBits ≤ 60
    · rw [Multi.grow, if_pos hok]
      exact ⟨_, .inr rfl, hupdate, hlast _⟩
    · rw [Multi.grow, if_neg hok]
      refine ⟨m, .inl rfl, hupdate, .inr ⟨rfl, .inr ?_⟩⟩
      -- a table that cannot grow further is full of entries
      rw [Multi.full, decide_eq_true_eq] at hfull
      by_cases hcalloc : calloc = true
      · right
        have hbits : 60 ≤ m.bits := by
          have : ¬ max (m.bits + 1) 2 ≤ 60 := fun hle => hok ⟨hcalloc, hle⟩
          omega
        have hpow : 2 ^ 60 ≤ 2 ^ m.bits := Nat.pow_le_pow_right Nat.two_pos hbits
        omega
      · exact .inl (by simpa using hcalloc)
  · rw [if_neg hfull]
    exact ⟨m, .inl rfl, hupdate, hlast m⟩

/-- The entries of `key` are as they were, or the other way round in a larger table. -/
def Turned (fns : Fns) (key : Int) (m m' : Multi) : Prop :=
  m'.each fns key = m.each fns key ∧ m'.bits = m.bits ∨
    m'.each fns key = (m.each fns key).reverse ∧ m'.bits = max (m.bits + 1) minCapBits

theorem turned_of_eq {m m' : Multi} (h : m' = m ∨ m' = ⟨m.entries.reverse, max (m.bits + 1) minCapBits⟩) :
    Turned fns key m m' := by
  rcases h with rfl | rfl
  · exact .inl ⟨rfl, rfl⟩
  · exact .inr ⟨List.filter_reverse, rfl⟩

theorem turned_insertNew (m : Multi) {k : Int} (hk : fns.equalFn k key = false) (value : Int)
    (strategy : Strategy)
    (calloc : Bool) (malloc : Option Nat) :
      Turned fns key m (m.insertNew k value strategy calloc malloc).1 := by
  rcases insertNew_cases m k value strategy calloc malloc with ⟨-, heq⟩ | ⟨m', hm', -, heq | ⟨heq, -⟩⟩
  · rw [heq]
    exact .inl ⟨rfl, rfl⟩
  · have hcons : Multi.each fns ⟨⟨k, value⟩ :: m'.entries, m'.bits⟩ key = m'.each fns key :=
      List.filter_cons_of_neg (by simp [hk])
    rw [heq, Turned, hcons]
    exact turned_of_eq hm'
  · rw [heq]
    exact turned_of_eq hm'

theorem turned_call (hfns : Lawful fns) (m : Multi) {op : Op} (hop : Elsewhere fns key op) :
    Turned fns key m (m.call fns op).1 := by
  cases op with
  | insert k value strategy calloc malloc =>
    show Turned fns key m (m.insert fns k value strategy calloc malloc).1
    unfold Multi.insert
    split
    · exact turned_insertNew m hop value strategy calloc malloc
    · split
      · exact .inl ⟨filter_setFirst hfns hop m.entries, rfl⟩
      · exact .inl ⟨rfl, rfl⟩
  | delete k => exact .inl ⟨filter_eraseP hfns hop m.entries, rfl⟩
  | find k => exact .inl ⟨rfl, rfl⟩
  | each k => exact .inl ⟨rfl, rfl⟩
  | clear => exact hop.elim

theorem each_run (hfns : Lawful fns) {m : Multi} (hbits : 2 ≤ m.bits) {ops : List Op}
    (hops : ∀ op ∈ ops, Elsewhere fns key op) :
    m.bits ≤ (m.run fns ops).1.bits ∧ (m.run fns ops).1.each fns key =
      if ((m.run fns ops).1.bits - m.bits) % 2 = 0 then m.each fns key else (m.each fns key).reverse := by
  induction ops generalizing m with
  | nil => exact ⟨Nat.le_refl _, by rw [Multi.run, Nat.sub_self]; rfl⟩
  | cons op ops ih =>
    obtain ⟨hop, hops⟩ := List.forall_mem_cons.1 hops
    show m.bits ≤ ((m.call fns op).1.run fns ops).1.bits ∧ ((m.call fns op).1.run fns ops).1.each fns key =
      if (((m.call fns op).1.run fns ops).1.bits - m.bits) % 2 = 0 then m.each fns key else
        (m.each fns key).reverse
    rcases turned_call hfns m hop with ⟨heach, hsame⟩ | ⟨heach, hnext⟩
    · obtain ⟨hle, hrest⟩ := ih (by rw [hsame]; exact hbits) hops
      rw [hsame] at hle hrest
      rw [hrest, heach]
      exact ⟨hle, rfl⟩
    · rw [Nat.max_eq_left (by rw [minCapBits]; omega)] at hnext
      obtain ⟨hle, hrest⟩ := ih (by rw [hnext]; omega) hops
      rw [hnext] at hle hrest
      rw [hrest, heach, List.reverse_reverse]
      refine ⟨by omega, ?_⟩
      by_cases heven : (((m.call fns op).1.run fns ops).1.bits - (m.bits + 1)) % 2 = 0
      · rw [if_pos heven, if_neg (by omega)]
      · rw [if_neg heven, if_pos (by omega)]

theorem find_eq_head (m : Multi) (key : Int) : m.find fns key = (m.each fns key).head? := List.head?_filter.symm

/-- A successful append. -/
theorem append_spec (hfns : Lawful fns) (m : Multi) {value : Int} {calloc : Bool} {malloc : Option Nat}
    (h : (m.insert fns key value .append calloc malloc).2 = ⟨0, 0, 0⟩) :
    ∃ older, (m.insert fns key value .append calloc malloc).1.each fns key = ⟨key, value⟩ :: older ∧
      (older = m.each fns key ∨ older = (m.each fns key).reverse) := by
  have hinsert : m.insert fns key value .append calloc malloc =
      m.insertNew key value .append calloc malloc := rfl
  rw [hinsert] at h ⊢
  rcases insertNew_cases m key value .append calloc malloc with ⟨hno, -⟩ | ⟨m', hm', -, heq | ⟨heq, -⟩⟩
  · cases hno
  · rw [heq]
    refine ⟨m'.each fns key, List.filter_cons_of_pos (hfns.refl key), ?_⟩
    have hturned : Turned fns key m m' := turned_of_eq hm'
    rcases hturned with ⟨heach, -⟩ | ⟨heach, -⟩
    · exact .inl heach
    · exact .inr heach
  · rw [heq] at h
    exact absurd (Inserted.mk.inj h).1 (by decide)

/-- **The entry appended last.**  While `key` is left alone its entries turn round with each growth, and a
lookup finds the first of them. -/
theorem find_after_append (hfns : Lawful fns) {s u t : State} {cs ds : List (Op × Answer)}
    {value : Int} {calloc : Bool}
    {malloc : Option Nat} (hrun : Run (Step fns) start cs s)
    (hstep : Step fns s (.insert key value .append calloc malloc, .inserted ⟨0, 0, 0⟩) u)
    (hrest : Run (Step fns) u ds t) (hds : ∀ c ∈ ds, Elsewhere fns key c.1) : ∃ older,
      hashmapForEachKeyEntry (u.map.sz + 1) fns u key = some (⟨key, value⟩ :: older) ∧
      hashmapForEachKeyEntry (t.map.sz + 1) fns t key =
        some (if (t.map.capBits - u.map.capBits) % 2 = 0 then ⟨key, value⟩ :: older
          else (⟨key, value⟩ :: older).reverse) ∧
      hashmapFind (t.map.sz + 1) fns t key = some (some
        (if (t.map.capBits - u.map.capBits) % 2 = 0 then value
          else ((⟨key, value⟩ :: older).getLast (List.cons_ne_nil _ _)).value)) := by
  obtain ⟨es, hs, -⟩ := run_spec hfns.compatible holds_start hrun
  obtain ⟨u', es', hcall, hu, hmulti⟩ := call_spec hfns.compatible hs hstep.1
  obtain ⟨rfl, hanswer⟩ := Prod.mk.inj (Option.some.inj (hstep.2.symm.trans hcall))
  obtain ⟨older, heach, -⟩ := append_spec hfns (multi s es) (Answer.inserted.inj hanswer).symm
  have heach' : (multi u es').each fns key = ⟨key, value⟩ :: older := by
    rw [hmulti]
    exact heach
  obtain ⟨es'', ht, hrun'⟩ := run_spec hfns.compatible hu hrest
  -- the table has been allocated
  have hbits : 2 ≤ (multi u es').bits := by
    cases hu.table with
    | empty _ _ _ hnil =>
      rw [hnil] at heach'
      cases heach'
    | buckets bs _ _ _ htwo => exact htwo
  have hops : ∀ op ∈ ds.map Prod.fst, Elsewhere fns key op := by
    intro op hop
    obtain ⟨c, hc, rfl⟩ := List.mem_map.1 hop
    exact hds c hc
  obtain ⟨-, hturn⟩ := each_run hfns hbits hops
  rw [hrun', heach'] at hturn
  refine ⟨older, ?_, ?_, ?_⟩
  · rw [each_spec hfns.compatible hu, heach']
  · rw [each_spec hfns.compatible ht, hturn]
    rfl
  · rw [find_spec hfns.compatible ht, find_eq_head, hturn]
    show some (Option.map Pair.value
      (List.head? (if (t.map.capBits - u.map.capBits) % 2 = 0 then _ else _))) = _
    by_cases heven : (t.map.capBits - u.map.capBits) % 2 = 0
    · rw [if_pos heven, if_pos heven]
      rfl
    · rw [if_neg heven, if_neg heven, List.head?_reverse,
        List.getLast?_eq_getLast_of_ne_nil (List.cons_ne_nil _ _)]
      rfl

theorem lawful_toNat : Lawful ⟨Int.toNat, fun k l => k = l⟩ where
  compatible _ _ h := congrArg Int.toNat (of_decide_eq_true h)
  refl _ := decide_eq_true rfl
  symm h := decide_eq_true (of_decide_eq_true h).symm
  trans h h' := decide_eq_true ((of_decide_eq_true h).trans (of_decide_eq_true h'))

/-- The fourth entry makes the table grow, and the older of two is found. -/
theorem find_after_append_grown : ∃ t, t.map.cap = 8 ∧
    hashmapFind (t.map.sz + 1) ⟨Int.toNat, fun k l => k = l⟩ t 5 = some (some 1) := by
  have hrun : ∃ s u t a, Run (Step ⟨Int.toNat, fun k l => k = l⟩) start
        [(.insert 5 1 .append true (some 40), .inserted ⟨0, 0, 0⟩)] s ∧
      Step ⟨Int.toNat, fun k l => k = l⟩ s (.insert 5 2 .append true (some 41), .inserted ⟨0, 0, 0⟩) u ∧
      Run (Step ⟨Int.toNat, fun k l => k = l⟩) u
        [(.insert 6 3 .append true (some 42), .inserted ⟨0, 0, 0⟩),
          (.insert 7 4 .append true (some a), .inserted ⟨0, 0, 0⟩)] t ∧
      t.map.cap = 8 ∧ t.map.capBits = 3 ∧ u.map.capBits = 2 ∧
      hashmapForEachKeyEntry (u.map.sz + 1) ⟨Int.toNat, fun k l => k = l⟩ u 5 = some [⟨5, 2⟩, ⟨5, 1⟩] :=
    ⟨_, _, _, 43, .cons ⟨rfl, rfl⟩ (.nil _), ⟨rfl, rfl⟩,
      .cons ⟨rfl, rfl⟩ (.cons ⟨rfl, rfl⟩ (.nil _)), rfl, rfl, rfl, rfl⟩
  obtain ⟨s, u, t, a, hrun, hstep, hrest, hcap, ht, hu, heach⟩ := hrun
  obtain ⟨older, holder, -, hfind⟩ := find_after_append lawful_toNat hrun hstep hrest
    (by simp [Elsewhere])
  rw [heach, Option.some.injEq, List.cons.injEq] at holder
  refine ⟨t, hcap, ?_⟩
  rw [hfind, ht, hu]
  obtain ⟨-, rfl⟩ := holder
  rfl

/-! ## The map as a function -/

/-- The entry of each key. -/
abbrev Dict := Int → Option Pair

namespace Dict

/-- What a call and its answer make of the entries. -/
def after (fns : Fns) (d : Dict) : Op × Answer → Dict
  | (.insert key value _ _ _, .inserted i) =>
    if i.ret = 0 then fun l => if fns.equalFn key l then some ⟨key, value⟩ else d l else d
  | (.delete key, _) => fun l => if fns.equalFn key l then none else d l
  | (.clear, _) => fun _ => none
  | _ => d

/-- The answers that the entries allow: of `n` calls so far at most each has added one. -/
def Tells (d : Dict) (n : Nat) : Op → Answer → Prop
  | .insert key _ strategy calloc malloc, .inserted i =>
    match d key, strategy with
    | some e, .add => i = ⟨-EEXIST, e.key, e.value⟩
    | some e, _ => i = ⟨0, e.key, e.value⟩
    | none, .update => i = ⟨-ENOENT, 0, 0⟩
    | none, _ => i = ⟨0, 0, 0⟩ ∨ i = ⟨-ENOMEM, 0, 0⟩ ∧ (malloc = none ∨ calloc = false ∨ 2 ^ 59 ≤ n)
  | .delete key, .deleted e => e = d key
  | .find key, .found value => value = (d key).map Pair.value
  | .each key, .entries es => es = (d key).toList
  | .clear, .cleared => True
  | _, _ => False

/-- Call by call. -/
def Agrees (fns : Fns) : Dict → Nat → List (Op × Answer) → Prop
  | _, _, [] => True
  | d, n, c :: cs => d.Tells n c.1 c.2 ∧ Agrees fns (d.after fns c) (n + 1) cs

end Dict

/-- No key twice, and the entries are those of `d`. -/
structure Represents (fns : Fns) (m : Multi) (d : Dict) : Prop where
  distinct : m.entries.Pairwise fun e e' => fns.equalFn e.key e'.key = false
  entries : ∀ key, m.find fns key = d key

/-- One entry at most is found. -/
theorem each_of_distinct (hfns : Lawful fns) {es : List Pair}
    (h : es.Pairwise fun e e' => fns.equalFn e.key e'.key = false)
    (key : Int) : es.filter (fun e => fns.equalFn e.key key) =
      (es.find? fun e => fns.equalFn e.key key).toList := by
  induction h with
  | nil => rfl
  | @cons e es he _ ih =>
    by_cases hk : fns.equalFn e.key key = true
    · have hnone : es.filter (fun e => fns.equalFn e.key key) = [] := by
        refine List.filter_eq_nil_iff.2 fun e' he' hk' => ?_
        have hne := he e' he'
        rw [hfns.trans hk (hfns.symm hk')] at hne
        cases hne
      rw [List.filter_cons_of_pos (p := fun e : Pair => fns.equalFn e.key key) hk, hnone,
        List.find?_cons_of_pos (p := fun e : Pair => fns.equalFn e.key key) hk]
      rfl
    · rw [List.filter_cons_of_neg (p := fun e : Pair => fns.equalFn e.key key) hk, ih,
        List.find?_cons_of_neg (p := fun e : Pair => fns.equalFn e.key key) hk]

section

variable {m : Multi} {d : Dict}

/-- A growth is not seen. -/
theorem Represents.turned (hfns : Lawful fns) (h : Represents fns m d) (bits : Nat) :
    Represents fns ⟨m.entries.reverse, bits⟩ d := by
  constructor
  · exact List.pairwise_reverse.2 (h.distinct.imp fun hne => hfns.symm_false hne)
  · intro key
    rw [← h.entries key, find_eq_head, find_eq_head, Multi.each, Multi.each, List.filter_reverse,
      each_of_distinct hfns h.distinct]
    cases m.entries.find? fun e => fns.equalFn e.key key <;> rfl

theorem Represents.cons (hfns : Lawful fns) (h : Represents fns m d) (hkey : d key = none) (value : Int) :
    Represents fns ⟨⟨key, value⟩ :: m.entries, m.bits⟩
      (fun l => if fns.equalFn key l then some ⟨key, value⟩ else d l) := by
  rw [← h.entries key, Multi.find, List.find?_eq_none] at hkey
  constructor
  · refine List.pairwise_cons.2 ⟨fun e he => hfns.symm_false ?_, h.distinct⟩
    exact Bool.eq_false_iff.2 (hkey e he)
  · intro l
    show List.find? _ (⟨key, value⟩ :: m.entries) = _
    rw [← h.entries l, List.find?_cons]
    cases fns.equalFn key l <;> rfl

theorem find_setFirst (hfns : Lawful fns) {es : List Pair}
    (hsome : ∃ e ∈ es, fns.equalFn e.key key = true) (value l : Int) :
    (setFirst (fun e => fns.equalFn e.key key) ⟨key, value⟩ es).find? (fun e => fns.equalFn e.key l) =
      if fns.equalFn key l then some ⟨key, value⟩ else es.find? fun e => fns.equalFn e.key l := by
  induction es with
  | nil => simp at hsome
  | cons e es ih =>
    by_cases he : fns.equalFn e.key key = true
    · have hel : fns.equalFn e.key l = fns.equalFn key l :=
        Bool.eq_iff_iff.2 ⟨fun h => hfns.trans (hfns.symm he) h, fun h => hfns.trans he h⟩
      rw [setFirst, if_pos he, List.find?_cons, List.find?_cons]
      dsimp only
      rw [hel]
      cases fns.equalFn key l <;> rfl
    · have hrest : ∃ e ∈ es, fns.equalFn e.key key = true := by
        obtain ⟨e', he', hk⟩ := hsome
        rcases List.mem_cons.1 he' with rfl | he'
        · exact absurd hk he
        · exact ⟨e', he', hk⟩
      rw [setFirst, if_neg he, List.find?_cons, List.find?_cons, ih hrest]
      by_cases hel : fns.equalFn e.key l = true
      · have hkl : ¬ fns.equalFn key l = true := fun hkl => he (hfns.trans hel (hfns.symm hkl))
        rw [hel]
        exact (if_neg hkl).symm
      · rw [Bool.not_eq_true] at hel
        rw [hel]

theorem mem_setFirst {value : Int} {es : List Pair} {x : Pair}
    (hx : x ∈ setFirst (fun e => fns.equalFn e.key key) ⟨key, value⟩ es) :
    x ∈ es ∨ x = ⟨key, value⟩ ∧ ∃ e ∈ es, fns.equalFn e.key key = true := by
  induction es with
  | nil => cases hx
  | cons e es ih =>
    rw [setFirst] at hx
    split at hx
    · next he =>
      rcases List.mem_cons.1 hx with rfl | hx
      · exact .inr ⟨rfl, e, List.mem_cons_self, he⟩
      · exact .inl (List.mem_cons_of_mem _ hx)
    · rcases List.mem_cons.1 hx with rfl | hx
      · exact .inl List.mem_cons_self
      · rcases ih hx with hx | ⟨rfl, e', he', hk⟩
        · exact .inl (List.mem_cons_of_mem _ hx)
        · exact .inr ⟨rfl, e', List.mem_cons_of_mem _ he', hk⟩

theorem distinct_setFirst (hfns : Lawful fns) {es : List Pair}
    (h : es.Pairwise fun e e' => fns.equalFn e.key e'.key = false) (value : Int) :
    (setFirst (fun e => fns.equalFn e.key key) ⟨key, value⟩ es).Pairwise
      fun e e' => fns.equalFn e.key e'.key = false := by
  induction h with
  | nil => exact .nil
  | @cons e es he hes ih =>
    rw [setFirst]
    split
    · next hk =>
      refine .cons (fun e' he' => ?_) hes
      exact hfns.ne (hfns.symm hk) (he e' he')
    · next hk =>
      refine .cons (fun x hx => ?_) ih
      rcases mem_setFirst hx with hx | ⟨rfl, e', he', hk'⟩
      · exact he x hx
      · exact Bool.not_eq_true _ ▸ hk

theorem Represents.setFirst (hfns : Lawful fns) (h : Represents fns m d) {e : Pair}
    (hkey : d key = some e) (value : Int) :
    Represents fns ⟨setFirst (fun e => fns.equalFn e.key key) ⟨key, value⟩ m.entries, m.bits⟩
      (fun l => if fns.equalFn key l then some ⟨key, value⟩ else d l) := by
  rw [← h.entries key, Multi.find] at hkey
  refine ⟨distinct_setFirst hfns h.distinct value, fun l => ?_⟩
  rw [← h.entries l]
  exact find_setFirst hfns ⟨e, List.mem_of_find?_eq_some hkey,
    List.find?_some (p := fun e : Pair => fns.equalFn e.key key) hkey⟩ value l

theorem Represents.eraseP (hfns : Lawful fns) (h : Represents fns m d) (key : Int) :
    Represents fns (m.delete fns key) (fun l => if fns.equalFn key l then none else d l) := by
  refine ⟨h.distinct.sublist List.eraseP_sublist, fun l => ?_⟩
  rw [← h.entries l, find_eq_head, find_eq_head]
  split
  · next hkl =>
    have hnone : (m.delete fns key).each fns l = [] := by
      refine List.filter_eq_nil_iff.2 fun e he hel => ?_
      have hek : fns.equalFn e.key key = true := hfns.trans hel (hfns.symm hkl)
      rcases first_cases (fun e => fns.equalFn e.key key) m.entries with hno | ⟨ys, x, zs, heq, hys, hx⟩
      · have hmem : e ∈ m.entries := List.mem_of_mem_eraseP he
        rw [hno e hmem] at hek
        cases hek
      · have hdistinct := h.distinct
        rw [Multi.delete, heq, eraseP_append hys hx] at he
        rw [heq, List.pairwise_append, List.pairwise_cons] at hdistinct
        rcases List.mem_append.1 he with he | he
        · rw [hys e he] at hek
          cases hek
        · have hne := hdistinct.2.1.1 e he
          rw [hfns.trans hx (hfns.symm hek)] at hne
          cases hne
    rw [hnone]
    rfl
  · next hkl =>
    rw [Bool.not_eq_true] at hkl
    rw [Multi.each, Multi.delete, filter_eraseP hfns hkl, Multi.each]

/-- What a call on the list says and does. -/
structure Answered (fns : Fns) (d : Dict) (n : Nat) (op : Op) (r : Multi × Answer) : Prop where
  answer : d.Tells n op r.2
  represents : Represents fns r.1 (d.after fns (op, r.2))
  length : r.1.entries.length ≤ n + 1

theorem answered_insertNew (hfns : Lawful fns) (h : Represents fns m d) {n : Nat} (hlen : m.entries.length ≤ n)
    (hkey : d key = none) {value : Int} {strategy : Strategy} {calloc : Bool} {malloc : Option Nat} :
    Answered fns d n (.insert key value strategy calloc malloc)
      ((m.insertNew key value strategy calloc malloc).1,
      .inserted (m.insertNew key value strategy calloc malloc).2) := by
  rcases insertNew_cases m key value strategy calloc malloc with ⟨rfl, heq⟩ | ⟨m', hm', hupdate, hcases⟩
  · rw [heq]
    refine ⟨?_, h, Nat.le_succ_of_le hlen⟩
    simp only [Dict.Tells, hkey]
  · have hrep : Represents fns m' d := by
      rcases hm' with rfl | rfl
      · exact h
      · exact h.turned hfns _
    have hlen' : m'.entries.length ≤ n := by
      rcases hm' with rfl | rfl
      · exact hlen
      · rw [List.length_reverse]
        exact hlen
    rcases hcases with heq | ⟨heq, hwhy⟩
    · rw [heq]
      refine ⟨?_, hrep.cons hfns hkey value, Nat.succ_le_succ hlen'⟩
      simp only [Dict.Tells, hkey]
      cases strategy with
      | update => exact absurd rfl hupdate
      | _ => exact .inl trivial
    · rw [heq]
      refine ⟨?_, hrep, Nat.le_succ_of_le hlen'⟩
      have hwhy' : malloc = none ∨ calloc = false ∨ 2 ^ 59 ≤ n :=
        hwhy.imp_right (Or.imp_right fun hfull => Nat.le_trans hfull hlen)
      simp only [Dict.Tells, hkey]
      cases strategy with
      | update => exact absurd rfl hupdate
      | _ => exact .inr ⟨trivial, hwhy'⟩

theorem length_setFirst {α : Type} (p : α → Bool) (y : α) (xs : List α) :
    (setFirst p y xs).length = xs.length := by
  induction xs with
  | nil => rfl
  | cons x xs ih =>
    rw [Libbpf.setFirst]
    split
    · rfl
    · rw [List.length_cons, ih, List.length_cons]

/-- **One call on the entries of the keys.** -/
theorem answered_call (hfns : Lawful fns) (h : Represents fns m d) {n : Nat}
    (hlen : m.entries.length ≤ n) {op : Op}
    (hop : ∀ key value calloc malloc, op ≠ .insert key value .append calloc malloc) :
    Answered fns d n op (m.call fns op) := by
  cases op with
  | insert key value strategy calloc malloc =>
    have happend : strategy ≠ .append := by
      rintro rfl
      exact hop _ _ _ _ rfl
    have hfind := h.entries key
    show Answered fns d n _ ((m.insert fns key value strategy calloc malloc).1, _)
    unfold Multi.insert
    rw [if_neg happend, hfind]
    cases hkey : d key with
    | none => exact answered_insertNew hfns h hlen hkey
    | some e =>
      dsimp only
      by_cases hwrite : strategy = .set ∨ strategy = .update
      · rw [if_pos hwrite]
        refine ⟨?_, h.setFirst hfns hkey value, by rw [length_setFirst]; exact Nat.le_succ_of_le hlen⟩
        simp only [Dict.Tells, hkey]
        rcases hwrite with rfl | rfl
        · rfl
        · rfl
      · rw [if_neg hwrite]
        have hadd : strategy = .add := by
          cases strategy with
          | add => rfl
          | append => exact absurd rfl happend
          | _ => simp at hwrite
        subst hadd
        refine ⟨?_, h, Nat.le_succ_of_le hlen⟩
        simp only [Dict.Tells, hkey]
  | delete key =>
    refine ⟨h.entries key, h.eraseP hfns key, ?_⟩
    exact Nat.le_succ_of_le (Nat.le_trans List.eraseP_sublist.length_le hlen)
  | find key => exact ⟨congrArg (Option.map Pair.value) (h.entries key), h, Nat.le_succ_of_le hlen⟩
  | each key =>
    refine ⟨?_, h, Nat.le_succ_of_le hlen⟩
    show m.each fns key = (d key).toList
    rw [Multi.each, each_of_distinct hfns h.distinct, ← h.entries key, Multi.find]
  | clear => exact ⟨trivial, ⟨.nil, fun _ => rfl⟩, Nat.zero_le _⟩

theorem agrees_run (hfns : Lawful fns) (h : Represents fns m d) {n : Nat} (hlen : m.entries.length ≤ n)
    {cs : List (Op × Answer)} (hops : ∀ c ∈ cs, ∀ key value calloc malloc,
      c.1 ≠ .insert key value .append calloc malloc)
    (hanswers : cs.map Prod.snd = (m.run fns (cs.map Prod.fst)).2) : Dict.Agrees fns d n cs := by
  induction cs generalizing m d n with
  | nil => trivial
  | cons c cs ih =>
    obtain ⟨op, answer⟩ := c
    obtain ⟨hop, hops'⟩ := List.forall_mem_cons.1 hops
    have hhead : answer = (m.call fns op).2 := (List.cons.inj hanswers).1
    have hrest : cs.map Prod.snd = ((m.call fns op).1.run fns (cs.map Prod.fst)).2 := (List.cons.inj hanswers).2
    subst hhead
    obtain ⟨htells, hrep, hlen'⟩ := answered_call hfns h hlen hop
    exact ⟨htells, ih hrep hlen' hops' hrest⟩

end

/-- **The hash map is a function of the keys.**  Without `HASHMAP_APPEND`, over every run of calls and
whatever the allocator answers. -/
theorem hashmap_dict (hfns : Lawful fns) {cs : List (Op × Answer)} {t : State}
    (hrun : Run (Step fns) start cs t)
    (hops : ∀ c ∈ cs, ∀ key value calloc malloc, c.1 ≠ .insert key value .append calloc malloc) :
    Dict.Agrees fns (fun _ => none) 0 cs := by
  obtain ⟨es, -, hrun'⟩ := run_spec hfns.compatible holds_start hrun
  have hstart : Represents fns (multi start []) fun _ => none := ⟨.nil, fun _ => rfl⟩
  exact agrees_run hfns hstart (Nat.le_refl 0) hops (congrArg Prod.snd hrun').symm

/-- What was set last is found, and nothing once it is deleted. -/
theorem hashmap_dict_set : Dict.Agrees ⟨Int.toNat, fun k l => k = l⟩ (fun _ => none) 0
    [(.insert 5 1 .add true (some 40), .inserted ⟨0, 0, 0⟩), (.insert 5 2 .set true none, .inserted ⟨0, 5, 1⟩),
      (.find 5, .found (some 2)), (.delete 5, .deleted (some ⟨5, 2⟩)), (.find 5, .found none)] := by
  have hrun : ∃ t, Run (Step ⟨Int.toNat, fun k l => k = l⟩) start
      [(.insert 5 1 .add true (some 40), .inserted ⟨0, 0, 0⟩),
        (.insert 5 2 .set true none, .inserted ⟨0, 5, 1⟩),
        (.find 5, .found (some 2)), (.delete 5, .deleted (some ⟨5, 2⟩)), (.find 5, .found none)] t :=
    ⟨_, .cons ⟨rfl, rfl⟩ (.cons ⟨trivial, rfl⟩ (.cons ⟨trivial, rfl⟩ (.cons ⟨trivial, rfl⟩
      (.cons ⟨trivial, rfl⟩ (.nil _)))))⟩
  obtain ⟨t, hrun⟩ := hrun
  exact hashmap_dict lawful_toNat hrun (by simp)

end CPrograms.Libbpf
