import CPrograms.UdpLoss.Model

/-!
# What the loss detector records

Behind the buffered digits `w` there are only zeros, so the number read from a datagram `d`
is the one of `overlay w d`: `d`, and the digits of earlier datagrams that `d` did not
overwrite.  `readings` are these numbers; the loop records exactly them (`mainLoop_ran`),
and they are the numbers carried where no datagram is shorter than an earlier one
(`readings_iff`).
-/

namespace CPrograms.UdpLoss

open Decimal

/-! ## `Atoi` on a few digits -/

theorem parseUint_digits {n : Nat} {d : List UInt8} (hd : ∀ c ∈ d, IsDigit c)
    (hlt : (n + 1) * 10 ^ d.length ≤ 2 ^ 64) : parseUint n d = (d.foldl push n, none) := by
  induction d generalizing n with
  | nil => rfl
  | cons c d ih =>
    obtain ⟨hc, hd⟩ := List.forall_mem_cons.1 hd
    have hpush : push n c + 1 ≤ (n + 1) * 10 := by
      simp only [push, IsDigit] at hc ⊢
      omega
    have hle : (push n c + 1) * 10 ^ d.length ≤ 2 ^ 64 := by
      calc (push n c + 1) * 10 ^ d.length ≤ (n + 1) * 10 * 10 ^ d.length :=
            Nat.mul_le_mul_right _ hpush
        _ = (n + 1) * 10 ^ (c :: d).length := by rw [List.length_cons]; ring
        _ ≤ 2 ^ 64 := hlt
    have hfit : push n c < 2 ^ 64 := by
      have := Nat.le_mul_of_pos_right (push n c + 1) (Nat.pow_pos (n := d.length) (show 0 < 10 by decide))
      omega
    rw [parseUint, if_pos hc, if_pos hfit]
    exact ih hd hle

theorem atoi_digits {d : List UInt8} (hd : ∀ c ∈ d, IsDigit c) (hne : d ≠ []) (hlen : d.length ≤ 5) :
    atoi d = ((number d : Int), none) := by
  have hpow : 10 ^ d.length ≤ 10 ^ 5 := Nat.pow_le_pow_right (by decide) hlen
  have hsign : sign d = (false, d) := by
    cases d with
    | nil => rfl
    | cons c d =>
      have hc := hd c List.mem_cons_self
      rw [sign, if_neg, if_neg]
      · rintro rfl; exact absurd hc.1 (by decide)
      · rintro rfl; exact absurd hc.1 (by decide)
  have hlt := number_lt hd
  have hparse : parseUint 0 d = (number d, none) := parseUint_digits hd (by omega)
  unfold atoi
  simp only [hsign, hparse, if_neg hne]
  rw [if_neg (by omega), if_neg (by simp)]
  rfl

/-! ## The buffer -/

/-- The digits `w` at the start of the buffer, zeros behind them. -/
structure Buffered (w p : List UInt8) : Prop where
  eq : p = w ++ List.replicate (2048 - w.length) 0
  digits : ∀ c ∈ w, IsDigit c
  short : w.length ≤ 5

/-- What stands in front of the first zero after the datagram `d`. -/
def overlay (w d : List UInt8) : List UInt8 := d ++ w.drop d.length

theorem overlay_of_le {w d : List UInt8} (h : w.length ≤ d.length) : overlay w d = d := by
  rw [overlay, List.drop_eq_nil_of_le h, List.append_nil]

theorem length_overlay (w d : List UInt8) : (overlay w d).length = max d.length w.length := by
  rw [overlay, List.length_append, List.length_drop]
  omega

theorem Numbered.ne_nil {d : List UInt8} (h : Numbered d) : d ≠ [] := by
  rintro rfl
  exact absurd h.pos (by decide)

theorem Buffered.receive {w p d : List UInt8} (h : Buffered w p) (hd : Numbered d) :
    Buffered (overlay w d) (readFromUDP p d) := by
  have hw := h.short
  have hds := hd.short
  refine ⟨?_, fun c hc => ?_, ?_⟩
  · have hp : p.length = 2048 := by
      rw [h.eq, List.length_append, List.length_replicate]
      omega
    rw [readFromUDP, hp, List.take_of_length_le (by omega), h.eq, List.drop_append,
      List.drop_replicate, length_overlay, overlay, List.append_assoc]
    congr 3
    omega
  · rcases List.mem_append.1 hc with hc | hc
    · exact hd.digits c hc
    · exact h.digits c (List.mem_of_mem_drop hc)
  · rw [length_overlay]
    omega

theorem zeroIndex_digits {w : List UInt8} (hw : ∀ c ∈ w, IsDigit c) (i n : Nat) :
    zeroIndex i (w ++ List.replicate (n + 1) 0) = i + w.length := by
  induction w generalizing i with
  | nil => rfl
  | cons c w ih =>
    obtain ⟨hc, hw⟩ := List.forall_mem_cons.1 hw
    rw [List.cons_append, zeroIndex, if_neg hc.ne_zero, ih hw, List.length_cons]
    omega

theorem Buffered.take {w p : List UInt8} (h : Buffered w p) : p.take (zeroIndex 0 p) = w := by
  have hw := h.short
  obtain ⟨n, hn⟩ : ∃ n, 2048 - w.length = n + 1 := ⟨2047 - w.length, by omega⟩
  rw [h.eq, hn, zeroIndex_digits h.digits, Nat.zero_add, List.take_left]

/-- **One datagram.**  The number of the overlay is converted. -/
theorem step_datagram {s : Srv} {w d : List UInt8} (h : Buffered w s.p) (hd : Numbered d) :
    step s (some d) = s.convert (readFromUDP s.p d) (number (overlay w d)) := by
  have hrecv := h.receive hd
  have hne : overlay w d ≠ [] := fun hnil => hd.ne_nil (List.append_eq_nil_iff.1 hnil).1
  rw [step, hrecv.take, atoi_digits hrecv.digits hne hrecv.short]

/-! ## The numbers read -/

def readings (w : List UInt8) : List (List UInt8) → List Nat
  | [] => []
  | d :: ds => number (overlay w d) :: readings (overlay w d) ds

/-- A datagram is read as the number it carries unless digits of a longer one are left. -/
theorem number_overlay_iff {w d : List UInt8} (hd : Numbered d) :
    number (overlay w d) = number d ↔ w.length ≤ d.length := by
  constructor
  · intro h
    apply Classical.byContradiction
    intro hlt
    have hne : w.drop d.length ≠ [] := by
      rw [Ne, List.drop_eq_nil_iff]
      exact hlt
    have := number_lt_append hd.pos hne
    rw [overlay] at h
    omega
  · intro h
    rw [overlay_of_le h]

theorem readings_iff {w : List UInt8} {ds : List (List UInt8)} (hds : ∀ d ∈ ds, Numbered d) :
    readings w ds = ds.map number ↔ (∀ d ∈ ds, w.length ≤ d.length) ∧ Lengthening ds := by
  induction ds generalizing w with
  | nil => simp [readings, Lengthening]
  | cons d ds ih =>
    obtain ⟨hd, hds⟩ := List.forall_mem_cons.1 hds
    rw [readings, List.map_cons, List.cons.injEq, number_overlay_iff hd, List.forall_mem_cons,
      Lengthening, List.pairwise_cons]
    constructor
    · rintro ⟨hle, heq⟩
      rw [overlay_of_le hle, ih hds] at heq
      obtain ⟨h1, h2⟩ := heq
      exact ⟨⟨hle, fun e he => Nat.le_trans hle (h1 e he)⟩, h1, h2⟩
    · rintro ⟨⟨hle, -⟩, h1, h2⟩
      refine ⟨hle, ?_⟩
      rw [overlay_of_le hle, ih hds]
      exact ⟨h1, h2⟩

/-! ## The loop -/

/-- What the readings `rs` made of `s`. -/
structure Ran (s : Srv) (rs : List Nat) (t : Srv) : Prop where
  printed : t.printed = s.printed ++ rs.map Int.ofNat
  length : t.b.length = s.b.length
  marks : ∀ c < 10001, t.b[c]? = some 1 ↔ s.b[c]? = some 1 ∨ c ∈ rs
  reported : t.mode = .reported ↔ 10000 ∈ rs
  panicked : t.mode = .panicked ↔ ∃ r ∈ rs, 10000 < r

theorem convert_ran {s : Srv} (hlen : s.b.length = 10001)
    (p : List UInt8) (n : Nat) : Ran s [n] (s.convert p n) := by
  unfold Srv.convert mark
  by_cases hn : n < 10001
  · have hc : (0 : Int) ≤ n ∧ (n : Int) < s.b.length := by omega
    rw [if_pos hc]
    refine ⟨rfl, ?_, fun c _ => ?_, ?_, ?_⟩
    · exact List.length_set
    · show (s.b.set (n : Int).toNat 1)[c]? = some 1 ↔ _
      rw [Int.toNat_natCast, List.getElem?_set, List.mem_singleton]
      by_cases hnc : n = c
      · rw [if_pos hnc, if_pos (by omega)]
        exact iff_of_true rfl (.inr hnc.symm)
      · rw [if_neg hnc]
        exact ⟨.inl, fun h => h.resolve_right fun h => hnc h.symm⟩
    · show (if (n : Int) = 10000 then Mode.reported else .receiving) = _ ↔ _
      by_cases h : n = 10000
      · simp [h]
      · simp [show ¬ (n : Int) = 10000 by omega, Ne.symm h]
    · show (if (n : Int) = 10000 then Mode.reported else .receiving) = _ ↔ _
      have : ¬ 10000 < n := by omega
      split <;> simp [this]
  · have hc : ¬ ((0 : Int) ≤ n ∧ (n : Int) < s.b.length) := by omega
    rw [if_neg hc]
    refine ⟨rfl, rfl, fun c hc => ?_, ?_, ?_⟩
    · show s.b[c]? = some 1 ↔ _
      rw [List.mem_singleton]
      exact ⟨.inl, fun h => h.resolve_right (by omega)⟩
    · exact iff_of_false nofun (by simp; omega)
    · exact iff_of_true rfl ⟨n, by simp, by omega⟩

/-- Readings go on only where none of those before stopped the loop. -/
theorem Ran.trans {s t u : Srv} {rs rs' : List Nat} (h : Ran s rs t) (h' : Ran t rs' u)
    (hmode : t.mode = .receiving) : Ran s (rs ++ rs') u := by
  have hstop : 10000 ∉ rs := fun hr => by
    rw [h.reported.2 hr] at hmode
    cases hmode
  have hpanic : ¬ ∃ r ∈ rs, 10000 < r := fun hr => by
    rw [h.panicked.2 hr] at hmode
    cases hmode
  refine ⟨?_, h'.length.trans h.length, fun c hc => ?_, ?_, ?_⟩
  · rw [h'.printed, h.printed, List.map_append, List.append_assoc]
  · rw [h'.marks c hc, h.marks c hc, List.mem_append, or_assoc]
  · rw [h'.reported, List.mem_append, or_iff_right hstop]
  · rw [h'.panicked]
    simp only [List.mem_append, or_and_right, exists_or, or_iff_right hpanic]

theorem Ran.refl {s : Srv} (h : s.mode = .receiving) : Ran s [] s :=
  ⟨by simp, rfl, by simp, by rw [h]; simp, by rw [h]; simp⟩

/-- **The whole loop.**  It processes `done`, and records the readings of its datagrams. -/
theorem mainLoop_ran {s : Srv} {w : List UInt8} {es : List (Option (List UInt8))}
    (hmode : s.mode = .receiving) (hlen : s.b.length = 10001) (hw : Buffered w s.p)
    (hes : ∀ d ∈ arrived es, Numbered d) :
    ∃ done t rest, es = done ++ rest ∧ mainLoop s es = (t, rest) ∧
      (rest = [] ∨ t.mode ≠ .receiving) ∧ Ran s (readings w (arrived done)) t := by
  induction es generalizing s w with
  | nil => exact ⟨[], s, [], rfl, rfl, .inl rfl, .refl hmode⟩
  | cons e es ih =>
    rw [mainLoop, if_pos hmode]
    cases e with
    | none =>
      obtain ⟨done, t, rest, rfl, hloop, hrest, hran⟩ := ih hmode hlen hw hes
      exact ⟨none :: done, t, rest, rfl, hloop, hrest, hran⟩
    | some d =>
      obtain ⟨hd, hes⟩ := List.forall_mem_cons.1 hes
      have hran := convert_ran hlen (readFromUDP s.p d) (number (overlay w d))
      rw [step_datagram hw hd]
      generalize ht : s.convert (readFromUDP s.p d) (number (overlay w d)) = t at hran
      have hp : t.p = readFromUDP s.p d := by
        rw [← ht, Srv.convert]
        split <;> rfl
      by_cases hgo : t.mode = .receiving
      · have hbuf : Buffered (overlay w d) t.p := by rw [hp]; exact hw.receive hd
        obtain ⟨done, u, rest, rfl, hloop, hrest, hran'⟩ := ih hgo (hran.length.trans hlen) hbuf hes
        exact ⟨some d :: done, u, rest, rfl, hloop, hrest, hran.trans hran' hgo⟩
      · refine ⟨[some d], t, es, rfl, ?_, .inr hgo, hran⟩
        cases es with
        | nil => rfl
        | cons e es => exact if_neg hgo

theorem mem_lossLines {b : List Int} {n : Nat} :
    n ∈ (lossLines b).map Prod.fst ↔ n < b.length ∧ b[n]? ≠ some 1 := by
  simp only [lossLines, List.map_map, List.mem_map, List.mem_filter, Function.comp,
    decide_eq_true_eq, Prod.exists, List.mem_zipIdx_iff_getElem?]
  constructor
  · rintro ⟨v, i, ⟨hv, hne⟩, rfl⟩
    obtain ⟨hlt, -⟩ := List.getElem?_eq_some_iff.1 hv
    refine ⟨hlt, ?_⟩
    show b[i]? ≠ some 1
    rw [hv]
    exact fun h => hne (Option.some.inj h)
  · rintro ⟨hlt, hne⟩
    refine ⟨b[n], n, ⟨List.getElem?_eq_getElem hlt, fun h => hne ?_⟩, rfl⟩
    rw [List.getElem?_eq_getElem hlt, h]

/-- `b` and, once the loop has stopped, the report say what the datagrams `ds` carried. -/
structure Exact (ds : List (List UInt8)) (s : Srv) : Prop where
  noPanic : s.mode ≠ .panicked
  marks : ∀ c : Nat, s.b[c]? = some 1 ↔ ∃ d ∈ ds, number d = c
  stops : s.mode = .reported ↔ ∃ d ∈ ds, number d = 10000
  report : s.mode = .reported → ∀ n : Nat, n ∈ (lossLines s.b).map Prod.fst ↔
    n < 10000 ∧ ¬ ∃ d ∈ ds, number d = n

/-- **The loss detector.**  Whatever is delivered, of the datagrams `arrived done` that it
processes each is read as the number it carries just if none is shorter than an earlier one;
and then it records exactly what arrived. -/
theorem arrived_recorded (es : List (Option (List UInt8))) (hes : ∀ d ∈ arrived es, Numbered d) :
    ∃ done s rest, es = done ++ rest ∧ mainLoop start es = (s, rest) ∧
      (rest = [] ∨ s.mode ≠ .receiving) ∧
      (s.printed = (arrived done).map (fun d => (number d : Int)) ↔ Lengthening (arrived done)) ∧
      (Lengthening (arrived done) → Exact (arrived done) s) := by
  have hstart : Buffered [] start.p := ⟨rfl, nofun, Nat.zero_le _⟩
  have hlen : start.b.length = 10001 := List.length_replicate
  obtain ⟨done, s, rest, rfl, hloop, hrest, hran⟩ := mainLoop_ran rfl hlen hstart hes
  have hdone : ∀ d ∈ arrived done, Numbered d := by
    intro d hd
    refine hes d ?_
    rw [arrived, List.filterMap_append]
    exact List.mem_append_left _ hd
  have hiff : readings [] (arrived done) = (arrived done).map number ↔ Lengthening (arrived done) := by
    rw [readings_iff hdone]
    exact and_iff_right fun d _ => Nat.zero_le _
  refine ⟨done, s, rest, rfl, hloop, hrest, ?_, fun hlong => ?_⟩
  · rw [← hiff, hran.printed]
    have hinj : Function.Injective Int.ofNat := fun a b => Int.ofNat.inj
    rw [show (arrived done).map (fun d => (number d : Int)) =
      ((arrived done).map number).map Int.ofNat from (List.map_map ..).symm]
    exact hinj.list_map.eq_iff
  · have hread := hiff.2 hlong
    rw [hread] at hran
    obtain ⟨-, hblen, hmarks, hrep, hpan⟩ := hran
    have hmem : ∀ c, c ∈ (arrived done).map number ↔ ∃ d ∈ arrived done, number d = c :=
      fun c => List.mem_map
    have hb : ∀ c : Nat, s.b[c]? = some 1 ↔ ∃ d ∈ arrived done, number d = c := by
      intro c
      by_cases hc : c < 10001
      · have h0 : start.b[c]? ≠ some 1 := by
          rw [start, List.getElem?_replicate]
          split <;> decide
        rw [hmarks c hc, or_iff_right h0, hmem]
      · refine iff_of_false (fun h => ?_) ?_
        · obtain ⟨hlt, -⟩ := List.getElem?_eq_some_iff.1 h
          omega
        · rintro ⟨d, hd, rfl⟩
          have := (hdone d hd).le
          omega
    refine ⟨?_, hb, by rw [hrep, hmem], fun hmode n => ?_⟩
    · rw [Ne, hpan]
      rintro ⟨r, hr, hlt⟩
      obtain ⟨d, hd, rfl⟩ := (hmem r).1 hr
      have := (hdone d hd).le
      omega
    · rw [mem_lossLines, Ne, hb n, hblen, hlen]
      have h10000 := (hmem 10000).1 (hrep.1 hmode)
      constructor
      · rintro ⟨hlt, hno⟩
        refine ⟨?_, hno⟩
        have : n ≠ 10000 := by
          rintro rfl
          exact hno h10000
        omega
      · rintro ⟨hlt, hno⟩
        exact ⟨by omega, hno⟩

/-- The datagrams `3`, `12`, `10000`. -/
theorem arrived_recorded_ordered :
    Exact [[51], [49, 50], [49, 48, 48, 48, 48]]
      (mainLoop start [some [51], some [49, 50], some [49, 48, 48, 48, 48]]).1 := by
  have hall : ∀ d ∈ arrived [some [51], some [49, 50], some [49, 48, 48, 48, 48]], Numbered d := by
    intro d hd
    simp only [arrived, List.filterMap_cons, id, List.filterMap_nil, List.mem_cons, List.not_mem_nil,
      or_false] at hd
    rcases hd with rfl | rfl | rfl <;> exact ⟨by decide +kernel, by decide, by decide, by decide⟩
  have hall' : (mainLoop start [some [51], some [49, 50], some [49, 48, 48, 48, 48]]).2 = [] := by
    decide +kernel
  obtain ⟨done, s, rest, hes, hloop, -, -, hexact⟩ := arrived_recorded _ hall
  rw [hloop] at hall' ⊢
  rw [show rest = [] from hall', List.append_nil] at hes
  subst hes
  exact hexact (by decide)

/-- The datagrams `12`, `3`, `10000`: the second is read as 32. -/
theorem arrived_recorded_stale :
    let t := mainLoop start [some [49, 50], some [51], some [49, 48, 48, 48, 48]]
    (∀ d ∈ [[49, 50], [51], [49, 48, 48, 48, 48]], Numbered d) ∧ t.2 = [] ∧ t.1.mode = .reported ∧
      t.1.printed = [12, 32, 10000] ∧ 3 ∈ (lossLines t.1.b).map Prod.fst ∧
      ¬ ∀ c : Nat, t.1.b[c]? = some 1 ↔
        ∃ d ∈ [[49, 50], [51], [49, 48, 48, 48, 48]], number d = c := by
  have heval : (fun t : Srv × List (Option (List UInt8)) =>
      (t.2, t.1.mode, t.1.printed, t.1.b[3]?, t.1.b[32]?, t.1.b.length))
      (mainLoop start [some [49, 50], some [51], some [49, 48, 48, 48, 48]]) =
      ([], .reported, [12, 32, 10000], some 0, some 1, 10001) := by decide +kernel
  simp only [Prod.mk.injEq] at heval
  obtain ⟨hrest, hmode, hprinted, h3, h32, hlen⟩ := heval
  refine ⟨fun d hd => ?_, hrest, hmode, hprinted, ?_, fun h => ?_⟩
  · simp only [List.mem_cons, List.not_mem_nil, or_false] at hd
    rcases hd with rfl | rfl | rfl <;> exact ⟨by decide +kernel, by decide, by decide, by decide⟩
  · rw [mem_lossLines, h3, hlen]
    decide
  · exact absurd ((h 32).1 h32) (by decide)

end CPrograms.UdpLoss
