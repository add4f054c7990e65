import CPrograms.UringHttp.Request

/-!
# Which reads the server survives

`getLine` finds the first CRLF (`getLine_some_iff`, `getLine_none_iff`), and `strtok` takes the
words of a text off one by one (`words_strtok`).  A read without a CRLF among its first 1024
bytes makes the server exit, and no other read does (`handleClientRequest_returns`); a read
whose line has the words that its method needs is answered.
-/

namespace CPrograms.UringHttp

open Lines (cr newline)

/-- The words between spaces. -/
def words (s : List UInt8) : List (List UInt8) := (s.splitOn space).filter (· ≠ [])

/-- A CRLF is at `i`. -/
def EndsLine (buf : List UInt8) (i : Nat) : Prop := buf[i]? = some cr ∧ buf[i + 1]? = some newline

instance (buf : List UInt8) (i : Nat) : Decidable (EndsLine buf i) := inferInstanceAs (Decidable (_ ∧ _))

/-- The line before the first CRLF has a first word and, if that is GET, a second one; the
path made of it fits its buffer, and the count of its file's blocks an `int`. -/
def Served (fs : Fs) (buf : List UInt8) : Prop :=
  ∃ i, i < lineSz ∧ EndsLine buf i ∧ (∀ j, j < i → ¬EndsLine buf j) ∧
    ∃ method ws, words (cstr (buf.take i)) = method :: ws ∧
      (strtolower method = ascii "get" → ∃ path ws', ws = path :: ws' ∧ (finalPath path).length < lineSz ∧
        ∀ f, fs (finalPath path) = some f → f.regular = true → iovecCount f.content.length < 2 ^ 31)

section
variable {fs : Fs} {s t rest buf line : List UInt8} {n : Nat}

/-! ## Lines -/

theorem endsLine_zero (c : UInt8) (src : List UInt8) :
    EndsLine (c :: src) 0 ↔ c = cr ∧ src.head? = some newline := by
  unfold EndsLine
  cases src <;> simp

theorem getLine_none_iff : getLine buf n = none ↔ ∀ i, i < n → ¬EndsLine buf i := by
  induction n generalizing buf with
  | zero => simp [getLine]
  | succ n ih =>
    cases buf with
    | nil => simp [getLine, EndsLine]
    | cons c src =>
      unfold getLine
      by_cases hc : c = cr ∧ src.head? = some newline
      · rw [if_pos hc]
        refine ⟨fun h => (by cases h), fun h => ?_⟩
        exact absurd ((endsLine_zero c src).2 hc) (h 0 (Nat.zero_lt_succ n))
      · rw [if_neg hc, Option.map_eq_none_iff, ih]
        constructor
        · intro h i hi
          cases i with
          | zero => rwa [endsLine_zero]
          | succ i => exact h i (Nat.lt_of_succ_lt_succ hi)
        · intro h i hi
          exact h (i + 1) (Nat.succ_lt_succ hi)

theorem getLine_some_iff : getLine buf n = some line ↔
    ∃ i, i < n ∧ EndsLine buf i ∧ (∀ j, j < i → ¬EndsLine buf j) ∧ line = buf.take i := by
  induction n generalizing buf line with
  | zero => simp [getLine]
  | succ n ih =>
    cases buf with
    | nil => simp [getLine, EndsLine]
    | cons c src =>
      unfold getLine
      by_cases hc : c = cr ∧ src.head? = some newline
      · rw [if_pos hc]
        constructor
        · rintro ⟨⟩
          exact ⟨0, Nat.zero_lt_succ n, (endsLine_zero c src).2 hc, fun j hj => absurd hj (Nat.not_lt_zero j), rfl⟩
        · rintro ⟨i, -, -, hfirst, rfl⟩
          cases i with
          | zero => rfl
          | succ i => exact absurd ((endsLine_zero c src).2 hc) (hfirst 0 (Nat.zero_lt_succ i))
      · rw [if_neg hc, Option.map_eq_some_iff]
        constructor
        · rintro ⟨l, hl, rfl⟩
          obtain ⟨i, hi, hend, hfirst, rfl⟩ := ih.1 hl
          refine ⟨i + 1, Nat.succ_lt_succ hi, hend, fun j hj => ?_, rfl⟩
          cases j with
          | zero => rwa [endsLine_zero]
          | succ j => exact hfirst j (Nat.lt_of_succ_lt_succ hj)
        · rintro ⟨i, hi, hend, hfirst, rfl⟩
          cases i with
          | zero => exact absurd ((endsLine_zero c src).1 hend) hc
          | succ i =>
            refine ⟨src.take i, ih.2 ⟨i, Nat.lt_of_succ_lt_succ hi, hend, fun j hj => ?_, rfl⟩, rfl⟩
            exact hfirst (j + 1) (Nat.succ_lt_succ hj)

/-! ## Words -/

theorem words_spaces (n : Nat) (s : List UInt8) : words (List.replicate n space ++ s) = words s := by
  induction n with
  | zero => rfl
  | succ n ih =>
    rw [List.replicate_succ, List.cons_append, ← ih]
    unfold words
    rw [List.splitOn_cons_eq_if_modifyHead, if_pos (BEq.refl _), List.filter_cons_of_neg (by simp)]

theorem words_token (ht : t ≠ []) (hsp : space ∉ t) (rest : List UInt8) :
    words (t ++ space :: rest) = t :: words rest := by
  unfold words
  rw [List.splitOn_append_cons_self, List.splitOn_eq_singleton hsp, List.singleton_append,
    List.filter_cons_of_pos (by simpa using ht)]

theorem words_of_notMem (ht : t ≠ []) (hsp : space ∉ t) : words t = [t] := by
  unfold words
  rw [List.splitOn_eq_singleton hsp, List.filter_cons_of_pos (by simpa using ht), List.filter_nil]

/-- `strtok` takes the first word off, if there is one. -/
theorem words_strtok (s : List UInt8) : words s = match strtok s with
    | none => []
    | some (t, rest) => t :: words rest := by
  have hskip : words s = words (s.dropWhile (· = space)) := by
    have hrep : s.takeWhile (· = space) = List.replicate (s.takeWhile (· = space)).length space :=
      List.eq_replicate_of_mem fun b hb => by simpa using List.mem_takeWhile_imp hb
    have hwords := words_spaces (s.takeWhile (· = space)).length (s.dropWhile (· = space))
    rw [← hrep, List.takeWhile_append_dropWhile] at hwords
    exact hwords
  rw [hskip]
  unfold strtok
  cases hu : s.dropWhile (· = space) with
  | nil => rfl
  | cons c u =>
    have hc : c ≠ space := by
      have := List.head?_dropWhile_not (p := (· = space)) (l := s)
      rw [hu] at this
      simpa using this
    dsimp only
    have hsplit := List.takeWhile_append_dropWhile (p := (· ≠ space)) (l := c :: u)
    generalize htok : (c :: u).takeWhile (· ≠ space) = tok at *
    generalize hrest : (c :: u).dropWhile (· ≠ space) = rest at *
    have htok0 : tok ≠ [] := by
      rintro rfl
      rw [List.takeWhile_cons_of_pos (by simpa using hc)] at htok
      cases htok
    have hsp : space ∉ tok := by
      intro hmem
      rw [← htok] at hmem
      simpa using List.mem_takeWhile_imp hmem
    rw [← hsplit]
    cases rest with
    | nil =>
      rw [List.append_nil, words_of_notMem htok0 hsp]
      rfl
    | cons d rest =>
      have hd : d = space := by
        have := List.head?_dropWhile_not (p := (· ≠ space)) (l := c :: u)
        rw [hrest] at this
        simpa using this
      rw [hd, words_token htok0 hsp]
      rfl

theorem strtok_of_words {ws : List (List UInt8)} (h : words s = t :: ws) :
    ∃ save, strtok s = some (t, save) ∧ words save = ws := by
  have htok := words_strtok s
  rw [h] at htok
  split at htok
  · cases htok
  · next u save hs =>
    obtain ⟨rfl, rfl⟩ := List.cons.inj htok
    exact ⟨save, hs, rfl⟩

/-! ## The request -/

section
variable (hfs : ∀ path f, fs path = some f → f.regular = true → f.opens = true)
include hfs

/-- A `GET` is answered, or crashes where its path or its file is too long. -/
theorem handleGetMethod_cases (path : List UInt8) :
    handleGetMethod fs path = .crash ∨ ∃ r, handleGetMethod fs path = .answer r := by
  unfold handleGetMethod
  split
  · exact .inl rfl
  · split
    · exact .inr ⟨_, rfl⟩
    · next f hf =>
      split
      · next hreg =>
        split
        · exact .inl rfl
        · exact .inr ⟨_, if_pos (hfs _ f hf hreg)⟩
      · exact .inr ⟨_, rfl⟩

theorem handleGetMethod_answer {path : List UInt8} (hlen : (finalPath path).length < lineSz)
    (hcount : ∀ f, fs (finalPath path) = some f → f.regular = true → iovecCount f.content.length < 2 ^ 31) :
    ∃ r, handleGetMethod fs path = .answer r := by
  unfold handleGetMethod
  rw [if_neg (by omega)]
  cases hf : fs (finalPath path) with
  | none => exact ⟨_, rfl⟩
  | some f =>
    dsimp only
    split
    · next hreg =>
      have := hcount f hf hreg
      rw [if_neg (by omega), if_pos (hfs _ f hf hreg)]
      exact ⟨_, rfl⟩
    · exact ⟨_, rfl⟩

theorem handleHttpMethod_ne_exit (line : List UInt8) : handleHttpMethod fs line ≠ .exit := by
  intro h
  unfold handleHttpMethod at h
  split at h
  · cases h
  · split at h
    · split at h
      · cases h
      · rcases handleGetMethod_cases hfs _ with hc | ⟨r, hr⟩
        · cases hc.symm.trans h
        · cases hr.symm.trans h
    · cases h

end

/-- A read without a line end makes the server exit, and no other read does; a read whose
line has its words is answered. -/
theorem handleClientRequest_returns (fs : Fs)
    (hfs : ∀ path f, fs path = some f → f.regular = true → f.opens = true) (data : List UInt8) :
    (handleClientRequest fs (readBuffer data) = .exit ↔ ∀ i, i < lineSz → ¬EndsLine (readBuffer data) i) ∧
      (Served fs (readBuffer data) → ∃ r, handleClientRequest fs (readBuffer data) = .answer r) := by
  generalize readBuffer data = buf
  constructor
  · rw [← getLine_none_iff]
    unfold handleClientRequest
    cases getLine buf lineSz with
    | none => simp
    | some line => exact ⟨fun h => absurd h (handleHttpMethod_ne_exit hfs line), fun h => by cases h⟩
  · rintro ⟨i, hi, hend, hfirst, method, ws, hwords, hpath⟩
    have hl : getLine buf lineSz = some (buf.take i) := getLine_some_iff.2 ⟨i, hi, hend, hfirst, rfl⟩
    obtain ⟨save, hmethod, hws⟩ := strtok_of_words hwords
    unfold handleClientRequest
    rw [hl]
    show ∃ r, handleHttpMethod fs (buf.take i) = .answer r
    unfold handleHttpMethod
    rw [hmethod]
    dsimp only
    split
    · next hget =>
      obtain ⟨path, ws', rfl, hlen, hcount⟩ := hpath hget
      obtain ⟨save', htok, -⟩ := strtok_of_words hws
      rw [htok]
      exact handleGetMethod_answer hfs hlen hcount
    · exact ⟨_, rfl⟩

/-- A request for a page that is not there. -/
theorem handleClientRequest_returns_get : ∃ r,
    handleClientRequest (fun _ => none) (readBuffer (ascii "GET /a HTTP/1.1\r\n\r\n")) = .answer r := by
  refine (handleClientRequest_returns (fun _ => none) nofun _).2 ⟨15, by decide, by decide, by decide,
    ascii "GET", [ascii "/a", ascii "HTTP/1.1"], by decide +kernel,
      fun _ => ⟨ascii "/a", [ascii "HTTP/1.1"], rfl, ?_⟩⟩
  exact ⟨by decide, nofun⟩

/-- One byte without a line end. -/
theorem handleClientRequest_exits : ¬ ∀ (fs : Fs) (data : List UInt8),
    (∀ path f, fs path = some f → f.regular = true → f.opens = true) → 1 ≤ data.length →
    data.length ≤ readSz → ∃ r, handleClientRequest fs (readBuffer data) = .answer r := by
  intro h
  obtain ⟨r, hr⟩ := h (fun _ => none) (ascii "G") nofun (by decide) (by decide)
  have hcut : getLine (readBuffer (ascii "G")) lineSz = none := by decide +kernel
  simp only [handleClientRequest, hcut] at hr
  cases hr

end

end CPrograms.UringHttp
