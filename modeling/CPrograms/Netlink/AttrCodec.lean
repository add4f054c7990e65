import CPrograms.Netlink.Attr

/-!
# Attribute round trip

`Laid m p as`: the attributes `as` stand in memory from `p` on, each padded to 4 bytes.
`addattrL_spec` adds one behind them or leaves everything as it was, `addattrs_laid` is the
run of it, and `parseLoop_spec` reads a laid out list back: the loop ends with no length left,
and the table has the first attribute of every type.
-/

namespace CPrograms.Netlink

open ByteMem

/-! ## The layout -/

namespace Attr

/-- The type as `rta_type` keeps it. -/
def rtaType (a : Attr) : Nat := (a.type % 2 ^ 16).toNat

/-- The bytes it takes, the padding included. -/
def space (a : Attr) : Nat := (sizeofRtattr + a.data.length + 3) / 4 * 4

theorem le_space (a : Attr) : sizeofRtattr + a.data.length ≤ a.space := by
  unfold space
  omega

theorem space_dvd (a : Attr) : 4 ∣ a.space := Nat.dvd_mul_left _ _

theorem rtaType_lt (a : Attr) : a.rtaType < 2 ^ 16 := by
  unfold rtaType
  omega

end Attr

def spaces (as : List Attr) : Nat := (as.map Attr.space).sum

@[simp] theorem spaces_nil : spaces [] = 0 := rfl

@[simp] theorem spaces_cons (a : Attr) (as : List Attr) : spaces (a :: as) = a.space + spaces as := rfl

@[simp] theorem spaces_append (as bs : List Attr) : spaces (as ++ bs) = spaces as + spaces bs := by
  simp [spaces]

theorem spaces_dvd (as : List Attr) : 4 ∣ spaces as := by
  induction as with
  | nil => exact Nat.dvd_zero 4
  | cons a as ih => exact Nat.dvd_add a.space_dvd ih

/-- The attribute `a` stands at `p`. -/
structure At (m : Mem) (p : Nat) (a : Attr) : Prop where
  len : rtaLen m p = rtaLength a.data.length
  type : rtaType m p = a.rtaType
  bytes : loadBytes m (rtaData p) a.data.length = a.data

def Laid (m : Mem) : Nat → List Attr → Prop
  | _, [] => True
  | p, a :: as => At m p a ∧ Laid m (p + a.space) as

theorem At.congr {m m' : Mem} {p : Nat} {a : Attr} (h : At m p a)
    (hm : ∀ x, p ≤ x → x < p + a.space → m' x = m x) : At m' p a := by
  have hle := a.le_space
  obtain ⟨h1, h2, h3⟩ := h
  unfold rtaLen at h1
  unfold rtaType at h2
  unfold rtaData rtaLength at h3
  unfold sizeofRtattr at *
  refine ⟨?_, ?_, ?_⟩
  · rw [← h1]
    exact loadLE_congr fun x hx1 hx2 => hm x hx1 (by omega)
  · rw [← h2]
    exact loadLE_congr fun x hx1 hx2 => hm x (by omega) (by omega)
  · refine Eq.trans (loadBytes_congr fun x hx1 hx2 => ?_) h3
    unfold rtaData rtaLength sizeofRtattr at hx1 hx2
    exact hm x (by omega) (by omega)

theorem Laid.congr {m m' : Mem} {p : Nat} {as : List Attr} (h : Laid m p as)
    (hm : ∀ x, p ≤ x → x < p + spaces as → m' x = m x) : Laid m' p as := by
  induction as generalizing p with
  | nil => trivial
  | cons a as ih =>
    rw [spaces_cons] at hm
    exact ⟨h.1.congr fun x h1 h2 => hm x h1 (by omega), ih h.2 fun x h1 h2 => hm x (by omega) (by omega)⟩

theorem laid_append {m : Mem} {p : Nat} {as bs : List Attr} :
    Laid m p (as ++ bs) ↔ Laid m p as ∧ Laid m (p + spaces as) bs := by
  induction as generalizing p with
  | nil => simp [Laid]
  | cons a as ih => rw [List.cons_append, Laid, Laid, ih, spaces_cons, Nat.add_assoc, and_assoc]

/-! ## `addattr_l` -/

/-- `NLMSG_LENGTH(sizeof(struct rtmsg))` -/
def firstAttr : Nat := nlmsgLength 12

/-- The message at `n` has the attributes `as`. -/
structure Encoded (m : Mem) (n : Nat) (as : List Attr) : Prop where
  len : nlmsgLen m n = firstAttr + spaces as
  laid : Laid m (n + firstAttr) as

/-- There is room for one more. -/
def Fits (m : Mem) (n maxlen : Nat) (a : Attr) : Prop := nlmsgLen m n + a.space ≤ maxlen

/-- **One append.** -/
structure Appended (m : Mem) (n maxlen : Nat) (a : Attr) : Prop where
  full : ¬ Fits m n maxlen a → addattrL m n maxlen a.type a.data = (-1, m)
  done : Fits m n maxlen a → (addattrL m n maxlen a.type a.data).1 = 0
  /-- but for `nlmsg_len` itself, only what is appended is written -/
  frame : Fits m n maxlen a → ∀ x, x < n ∨ (n + 4 ≤ x ∧ x < n + nlmsgLen m n) ∨
    n + nlmsgLen m n + a.space ≤ x → (addattrL m n maxlen a.type a.data).2 x = m x
  len : Fits m n maxlen a →
    nlmsgLen (addattrL m n maxlen a.type a.data).2 n = nlmsgLen m n + a.space
  placed : Fits m n maxlen a → At (addattrL m n maxlen a.type a.data).2 (n + nlmsgLen m n) a

theorem nlmsgAlign_of_dvd {len : Nat} (h : 4 ∣ len) (hlt : len < 2 ^ 31) : nlmsgAlign len = len := by
  unfold nlmsgAlign
  omega

theorem rtaAlign_space (a : Attr) : rtaAlign (rtaLength a.data.length % 2 ^ 32) = a.space := by
  have := a.short
  unfold rtaAlign rtaLength Attr.space sizeofRtattr
  omega

/-- What is stored behind the message. -/
def attrAt (m : Mem) (p : Nat) (a : Attr) : Mem :=
  let m := storeLE (storeLE m (p + 2) 2 a.rtaType) p 2 (rtaLength a.data.length)
  if a.data.length ≠ 0 then storeBytes m (rtaData p) a.data else m

theorem attrAt_of_payload {m : Mem} {p : Nat} {a : Attr} {x : Nat}
    (hx : x < p + 4 ∨ p + 4 + a.data.length ≤ x) :
    attrAt m p a x = storeLE (storeLE m (p + 2) 2 a.rtaType) p 2 (rtaLength a.data.length) x := by
  unfold attrAt rtaData rtaLength sizeofRtattr
  split
  · exact storeBytes_of_outside (by omega)
  · rfl

theorem attrAt_of_outside {m : Mem} {p : Nat} {a : Attr} {x : Nat} (hx : x < p ∨ p + a.space ≤ x) :
    attrAt m p a x = m x := by
  have hle := a.le_space
  unfold sizeofRtattr at hle
  rw [attrAt_of_payload (by omega), storeLE_of_outside (by omega), storeLE_of_outside (by omega)]

theorem at_attrAt (m : Mem) (p : Nat) {a : Attr} (h : rtaLength a.data.length < 2 ^ 16) :
    At (attrAt m p a) p a := by
  refine ⟨?_, ?_, ?_⟩
  · have hload : rtaLen (attrAt m p a) p =
        rtaLen (storeLE (storeLE m (p + 2) 2 a.rtaType) p 2 (rtaLength a.data.length)) p :=
      loadLE_congr fun x hx1 hx2 => attrAt_of_payload (by omega)
    rw [hload]
    show loadLE _ _ _ = _
    rw [loadLE_storeLE]
    exact Nat.mod_eq_of_lt h
  · have hload : rtaType (attrAt m p a) p = rtaType (storeLE m (p + 2) 2 a.rtaType) p :=
      loadLE_congr fun x hx1 hx2 => by
        rw [attrAt_of_payload (by omega), storeLE_of_outside (by omega)]
    rw [hload]
    show loadLE _ _ _ = _
    rw [loadLE_storeLE]
    exact Nat.mod_eq_of_lt a.rtaType_lt
  · unfold attrAt
    dsimp only
    by_cases hz : a.data.length = 0
    · rw [if_neg (not_not_intro hz), hz, List.length_eq_zero_iff.1 hz]
      rfl
    · rw [if_pos hz]
      exact loadBytes_storeBytes _ _ _

section
variable {m : Mem} {n maxlen : Nat} {a : Attr}

theorem addattrL_of_not_fits (h4 : 4 ∣ nlmsgLen m n) (hlen : nlmsgLen m n ≤ 32768)
    (h : ¬ Fits m n maxlen a) : addattrL m n maxlen a.type a.data = (-1, m) := by
  have hshort := a.short
  unfold Fits Attr.space sizeofRtattr at h
  unfold addattrL
  dsimp only
  rw [rtaAlign_space, nlmsgAlign_of_dvd h4 (by omega)]
  refine if_pos ?_
  unfold Attr.space sizeofRtattr
  omega

theorem addattrL_of_fits (hmax : maxlen ≤ 32768) (h4 : 4 ∣ nlmsgLen m n) (h16 : 16 ≤ nlmsgLen m n)
    (hlen : nlmsgLen m n ≤ 32768) (h : Fits m n maxlen a) :
    addattrL m n maxlen a.type a.data =
      (0, storeLE (attrAt m (n + nlmsgLen m n) a) n 4 (nlmsgLen m n + a.space)) := by
  have halign := nlmsgAlign_of_dvd h4 (by omega)
  have hle := a.le_space
  unfold sizeofRtattr at hle
  unfold Fits at h
  have hno : ¬ (nlmsgLen m n + a.space) % 2 ^ 32 > maxlen := by omega
  have hlen32 : rtaLength a.data.length % 2 ^ 32 = rtaLength a.data.length := by
    unfold rtaLength sizeofRtattr
    omega
  -- the length is read again behind the stores of the attribute
  have hkeep : nlmsgLen (attrAt m (n + nlmsgLen m n) a) n = nlmsgLen m n :=
    loadLE_congr fun x hx1 hx2 => attrAt_of_outside (by omega)
  have hstored : addattrL m n maxlen a.type a.data = (0, storeLE (attrAt m (n + nlmsgLen m n) a) n 4
      (nlmsgAlign (nlmsgLen (attrAt m (n + nlmsgLen m n) a) n) + a.space)) := by
    unfold addattrL nlmsgTail
    dsimp only
    rw [rtaAlign_space, halign, if_neg hno, hlen32]
    rfl
  rw [hstored, hkeep, halign]

theorem addattrL_spec (hmax : maxlen ≤ 32768) (h4 : 4 ∣ nlmsgLen m n) (h16 : 16 ≤ nlmsgLen m n)
    (hlen : nlmsgLen m n ≤ 32768) (a : Attr) : Appended m n maxlen a := by
  by_cases hfit : Fits m n maxlen a
  · have hrun := addattrL_of_fits hmax h4 h16 hlen hfit
    have hle := a.le_space
    unfold sizeofRtattr at hle
    unfold Fits at hfit
    refine ⟨fun hno => absurd hfit hno, fun _ => by rw [hrun], fun _ x hx => ?_, fun _ => ?_, fun _ => ?_⟩
    · rw [hrun]
      show storeLE _ n 4 _ x = m x
      rw [storeLE_of_outside (by omega), attrAt_of_outside (by omega)]
    · rw [hrun]
      show loadLE (storeLE _ n 4 (nlmsgLen m n + a.space)) n 4 = _
      rw [loadLE_storeLE]
      exact Nat.mod_eq_of_lt (by omega)
    · rw [hrun]
      have hat : At (attrAt m (n + nlmsgLen m n) a) (n + nlmsgLen m n) a := at_attrAt m _ (by
        unfold rtaLength sizeofRtattr
        omega)
      exact hat.congr fun x hx1 hx2 => storeLE_of_outside (by omega)
  · exact ⟨fun _ => addattrL_of_not_fits h4 hlen hfit, fun h => absurd h hfit, fun h => absurd h hfit,
      fun h => absurd h hfit, fun h => absurd h hfit⟩

end

/-! ## One after the other -/

/-- Appending to a message keeps what it has, and adds the attribute if there was room. -/
theorem Encoded.append {m : Mem} {n maxlen : Nat} {as : List Attr} (h : Encoded m n as) {a : Attr}
    (hs : Appended m n maxlen a) (hfit : Fits m n maxlen a) :
    Encoded (addattrL m n maxlen a.type a.data).2 n (as ++ [a]) := by
  have hlen := h.len
  refine ⟨?_, ?_⟩
  · rw [hs.len hfit, hlen, spaces_append, spaces_cons, spaces_nil]
    omega
  · rw [laid_append]
    refine ⟨h.laid.congr fun x h1 h2 => hs.frame hfit x (.inr (.inl ?_)), ?_, trivial⟩
    · unfold firstAttr nlmsgLength sizeofNlmsghdr at *
      omega
    · have := hs.placed hfit
      rwa [hlen, ← Nat.add_assoc] at this

/-- The length of a message that attributes were added to. -/
structure Bounded (m : Mem) (n : Nat) : Prop where
  aligned : 4 ∣ nlmsgLen m n
  header : 16 ≤ nlmsgLen m n
  short : nlmsgLen m n ≤ 32768

theorem Encoded.bounded {m : Mem} {n maxlen : Nat} {as : List Attr} (h : Encoded m n as)
    (hmax : maxlen ≤ 32768) (has : as = [] ∨ nlmsgLen m n ≤ maxlen) : Bounded m n := by
  have hlen := h.len
  have hdvd := spaces_dvd as
  unfold firstAttr nlmsgLength sizeofNlmsghdr at hlen
  refine ⟨by omega, by omega, ?_⟩
  rcases has with rfl | hle
  · rw [hlen, spaces_nil]
    omega
  · omega

/-- **All appends.** -/
theorem addattrs_encoded {n maxlen : Nat} (hmax : maxlen ≤ 32768) (as : List Attr) {m : Mem}
    {bs : List Attr} (h : Encoded m n bs) (hbs : bs = [] ∨ nlmsgLen m n ≤ maxlen) :
    let r := addattrs n maxlen m as
    Encoded r.1 n (bs ++ r.2) ∧ (bs ++ r.2 = [] ∨ nlmsgLen r.1 n ≤ maxlen) := by
  induction as generalizing m bs with
  | nil => exact ⟨by rw [addattrs, List.append_nil]; exact h, by rw [addattrs, List.append_nil]; exact hbs⟩
  | cons a as ih =>
    obtain ⟨h4, h16, hle⟩ := h.bounded hmax hbs
    have hs := addattrL_spec hmax h4 h16 hle a
    unfold addattrs
    by_cases hfit : Fits m n maxlen a
    · have hdone := hs.done hfit
      have hlen := hs.len hfit
      have happ := h.append hs hfit
      generalize addattrL m n maxlen a.type a.data = r at hdone hlen happ ⊢
      obtain ⟨ret, m'⟩ := r
      obtain rfl : ret = 0 := hdone
      have hstep := ih happ (.inr (hlen.trans_le hfit))
      dsimp only at hstep ⊢
      rw [if_pos rfl]
      rwa [List.append_assoc] at hstep
    · rw [hs.full hfit]
      exact ih h hbs

/-! ## `parse_rtattr_flags` -/

/-- The address of the first attribute of type `t`. -/
def firstAt (t : Nat) : Nat → List Attr → Option Nat
  | _, [] => none
  | p, a :: as => if a.rtaType = t then some p else firstAt t (p + a.space) as

theorem firstAt_spec {m : Mem} {t p : Nat} {as : List Attr} (h : Laid m p as) :
    match as.find? (fun a => a.rtaType = t) with
    | none => firstAt t p as = none
    | some a => ∃ q, firstAt t p as = some q ∧ At m q a := by
  induction as generalizing p with
  | nil => rfl
  | cons a as ih =>
    rw [List.find?_cons, firstAt]
    by_cases ht : a.rtaType = t
    · simp only [ht, decide_true, if_true]
      exact ⟨p, rfl, h.1⟩
    · simp only [ht, decide_false, if_false]
      exact ih h.2

theorem and_flags_zero {v : Nat} (h : v < 2 ^ 16) : v &&& ((2 ^ 16 - 1) ^^^ 0) = v := by
  rw [Nat.xor_zero, Nat.and_two_pow_sub_one_eq_mod, Nat.mod_eq_of_lt h]

/-- What one attribute adds to the table. -/
def putFirst (max : Nat) (tb : List (Option Nat)) (t p : Nat) : List (Option Nat) :=
  if t ≤ max ∧ tb[t]? = some none then tb.set t (some p) else tb

theorem getElem?_putFirst {max : Nat} {tb : List (Option Nat)} (htb : tb.length = max + 1)
    (t p : Nat) {u : Nat} (hu : u ≤ max) :
    (putFirst max tb t p)[u]? =
      tb[u]?.map fun o => o.or (if t = u then some p else none) := by
  have hlt : u < tb.length := by omega
  unfold putFirst
  by_cases htu : t = u
  · subst htu
    by_cases hnone : tb[t]? = some none
    · rw [if_pos ⟨hu, hnone⟩, List.getElem?_set_self hlt, hnone]
      simp
    · rw [if_neg fun h => hnone h.2, List.getElem?_eq_getElem hlt]
      rw [List.getElem?_eq_getElem hlt, Option.some.injEq] at hnone
      obtain ⟨q, hq⟩ := Option.ne_none_iff_exists'.1 hnone
      simp [hq]
  · have hkeep : (if t ≤ max ∧ tb[t]? = some none then tb.set t (some p) else tb)[u]? = tb[u]? := by
      split
      · exact List.getElem?_set_ne htu
      · rfl
    rw [hkeep]
    simp [htu]

theorem length_putFirst (max : Nat) (tb : List (Option Nat)) (t p : Nat) :
    (putFirst max tb t p).length = tb.length := by
  unfold putFirst
  split
  · exact List.length_set
  · rfl

/-- **The loop of `parse_rtattr_flags`.**  A laid out list is read to its end. -/
theorem parseLoop_spec {m : Mem} {max p : Nat} {as : List Attr} (h : Laid m p as)
    (hlen : spaces as < 2 ^ 16) {tb : List (Option Nat)} (htb : tb.length = max + 1) :
    ∃ tb', parseLoop m max 0 tb p (spaces as) = (tb', p + spaces as, 0) ∧ tb'.length = max + 1 ∧
      ∀ u ≤ max, tb'[u]? = tb[u]?.map fun o => o.or (firstAt u p as) := by
  induction as generalizing p tb with
  | nil =>
    refine ⟨tb, ?_, htb, fun u _ => by simp [firstAt]⟩
    rw [parseLoop, dif_neg]
    · rfl
    · rintro ⟨h4, -⟩
      exact absurd h4 (by decide)
  | cons a as ih =>
    obtain ⟨⟨hrlen, hrtype, -⟩, hrest⟩ := h
    rw [spaces_cons] at hlen
    have hle := a.le_space
    have halign : rtaAlign (rtaLen m p) = a.space := by
      rw [hrlen]
      unfold rtaAlign rtaLength Attr.space sizeofRtattr at *
      omega
    have hok : rtaOk m p (spaces (a :: as)) := by
      unfold rtaOk
      rw [hrlen, spaces_cons]
      unfold rtaLength
      unfold sizeofRtattr at *
      refine ⟨?_, ?_, ?_⟩ <;> omega
    have hput : (putFirst max tb a.rtaType p).length = max + 1 := by rw [length_putFirst, htb]
    obtain ⟨tb', hloop, htb', hget⟩ := ih hrest (by omega) hput
    refine ⟨tb', ?_, htb', fun u hu => ?_⟩
    · rw [parseLoop, dif_pos hok]
      dsimp only
      rw [halign, hrtype, and_flags_zero a.rtaType_lt, spaces_cons, Nat.cast_add, add_sub_cancel_left]
      rw [Nat.add_assoc] at hloop
      exact hloop
    · rw [hget u hu, getElem?_putFirst htb _ _ hu, firstAt, Option.map_map]
      congr 1
      funext o
      by_cases ht : a.rtaType = u
      · simp only [Function.comp, ht, if_true]
        cases o <;> rfl
      · simp only [Function.comp, ht, if_false, Option.or_none]

/-- What a parsed table says of the attributes `as`. -/
def Table (m : Mem) (max : Nat) (tb : List (Option Nat)) (as : List Attr) : Prop :=
  tb.length = max + 1 ∧ ∀ t ≤ max,
    match as.find? (fun a => a.rtaType = t) with
    | none => tb[t]? = some none
    | some a => ∃ p, tb[t]? = some (some p) ∧ At m p a

theorem Encoded.parse {m : Mem} {n : Nat} {as : List Attr} (h : Encoded m n as)
    (hlen : nlmsgLen m n ≤ 32768) (max : Nat) :
    ∃ tb, parseRtattrFlags m max (n + firstAttr) (nlmsgLen m n - firstAttr) 0 = (tb, none) ∧
      Table m max tb as := by
  have hlen' := h.len
  have hnew : (List.replicate (max + 1) (none : Option Nat)).length = max + 1 := List.length_replicate
  obtain ⟨tb, hloop, htb, hget⟩ := parseLoop_spec h.laid (by omega) hnew
  refine ⟨tb, ?_, htb, fun t ht => ?_⟩
  · unfold parseRtattrFlags
    rw [hlen', Nat.cast_add, add_sub_cancel_left, hloop]
    rfl
  · have hnone : (List.replicate (max + 1) (none : Option Nat))[t]? = some none := by
      rw [List.getElem?_replicate, if_pos (by omega)]
    have hspec := firstAt_spec (t := t) h.laid
    rw [hget t ht, hnone]
    simp only [Option.map_some, Option.none_or]
    split at hspec
    · rw [hspec]
    · obtain ⟨q, hq, hat⟩ := hspec
      exact ⟨q, by rw [hq], hat⟩

/-- **Attribute round trip.**  `m` is a message without attributes; `as` are appended, and those
for which there was room, `kept`, are read back. -/
theorem attrs_roundtrip {m : Mem} {n maxlen : Nat} (hmax : maxlen ≤ 32768)
    (hlen : nlmsgLen m n = nlmsgLength 12) (as : List Attr) :
    let r := addattrs n maxlen m as
    (∀ a, Appended r.1 n maxlen a) ∧ 4 ∣ nlmsgLen r.1 n ∧ (r.2 ≠ [] → nlmsgLen r.1 n ≤ maxlen) ∧
      ∀ max, ∃ tb, parseRtattrFlags r.1 max (n + firstAttr) (nlmsgLen r.1 n - firstAttr) 0 = (tb, none) ∧
        Table r.1 max tb r.2 := by
  intro r
  have hstart : Encoded m n [] := ⟨hlen, trivial⟩
  obtain ⟨henc, hbound⟩ := addattrs_encoded hmax as hstart (.inl rfl)
  rw [List.nil_append] at henc hbound
  obtain ⟨h4, h16, hle⟩ := henc.bounded hmax hbound
  exact ⟨addattrL_spec hmax h4 h16 hle, h4, fun hne => hbound.resolve_left hne, henc.parse hle⟩

/-- What `addattr32` appends. -/
def Attr.u32 (type : Int) (v : UInt32) : Attr := ⟨type, u32Bytes v, by simp [u32Bytes]⟩

example (m : Mem) (n maxlen : Nat) (type : Int) (v : UInt32) :
    addattr32 m n maxlen type v =
      addattrL m n maxlen (Attr.u32 type v).type (Attr.u32 type v).data := rfl

/-- `RTA_TABLE`, an attribute with padding, one that does not fit, and a second of a type. -/
theorem attrs_roundtrip_some :
    let r := addattrs 0 56 (storeLE (fun _ => 0) 0 4 28)
      [.u32 15 254, ⟨1, [5, 6, 7], by decide⟩, ⟨2, List.replicate 40 1, by decide⟩, ⟨1, [9], by decide⟩]
    r.2.map Attr.rtaType = [15, 1, 1] ∧ nlmsgLen r.1 0 = 52 ∧
      ∃ tb, parseRtattrFlags r.1 30 28 24 0 = (tb, none) ∧ Table r.1 30 tb r.2 := by
  have hall := attrs_roundtrip (m := storeLE (fun _ => 0) 0 4 28) (n := 0) (show 56 ≤ 32768 by decide)
    (by decide +kernel)
    [.u32 15 254, ⟨1, [5, 6, 7], by decide⟩, ⟨2, List.replicate 40 1, by decide⟩, ⟨1, [9], by decide⟩]
  have heval : (fun r : Mem × List Attr => (r.2.map Attr.rtaType, nlmsgLen r.1 0))
      (addattrs 0 56 (storeLE (fun _ => 0) 0 4 28) [.u32 15 254, ⟨1, [5, 6, 7], by decide⟩,
        ⟨2, List.replicate 40 1, by decide⟩, ⟨1, [9], by decide⟩]) = ([15, 1, 1], 52) := by
    decide +kernel
  obtain ⟨htypes, hlen⟩ := Prod.mk.inj heval
  obtain ⟨-, -, -, hparse⟩ := hall
  refine ⟨htypes, hlen, ?_⟩
  have h30 := hparse 30
  rw [hlen] at h30
  exact h30

end CPrograms.Netlink
