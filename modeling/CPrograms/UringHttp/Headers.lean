import CPrograms.Lib.Decimal
import CPrograms.UringHttp.Response

/-!
# The header block of a 200

`send_headers` keeps the status line in `str` until the extension of the path is one of its chain, so
for every other extension its third part is the status line again.  The block is well formed for
the extensions of the chain and for no other (`headers_wellFormed_iff`).
-/

namespace CPrograms.UringHttp

open Decimal
open Lines (cr newline)

/-! ## Header blocks -/

/-- The lines of a text that end with CRLF, and what is behind the last CRLF. -/
def crlfLines : List UInt8 → List (List UInt8) × List UInt8
  | [] => ([], [])
  | [c] => ([], [c])
  | c :: d :: rest =>
    if c = cr ∧ d = newline then ([] :: (crlfLines rest).1, (crlfLines rest).2)
    else
      match crlfLines (d :: rest) with
      | ([], last) => ([], c :: last)
      | (l :: ls, last) => ((c :: l) :: ls, last)

/-- The line starts with this text. -/
def starts (text : String) (l : List UInt8) : Bool := (ascii text).isPrefixOf l

/-- The media types by extension. -/
def mimeTypes : List (List UInt8 × List UInt8) :=
  [("jpg", "image/jpeg"), ("jpeg", "image/jpeg"), ("png", "image/png"), ("gif", "image/gif"),
    ("htm", "text/html"), ("html", "text/html"), ("css", "text/css"),
    ("js", "application/javascript"), ("txt", "text/plain")].map fun e => (ascii e.1, ascii e.2)

def mimeType (ext : List UInt8) : Option (List UInt8) := mimeTypes.lookup ext

/-- The block is the lines `ls` and an empty one: a status line first and no other, one line for the
server, one for the length `n`, and at most one for the type of the path's extension. -/
structure WellFormedHeaders (path : List UInt8) (n : Nat) (block : List UInt8)
    (ls : List (List UInt8)) : Prop where
  lines : crlfLines block = (ls ++ [[]], [])
  first : ls.head? = some (ascii "HTTP/1.1 200 OK")
  status : ls.countP (starts "HTTP/1.1 ") = 1
  server : ls.countP (starts "Server: ") = 1
  type : ls.countP (starts "Content-Type: ") ≤ 1
  length : ls.countP (starts "Content-Length: ") = 1
  only : ∀ l ∈ ls, starts "HTTP/1.1 " l ∨ starts "Server: " l ∨ starts "Content-Type: " l ∨
    starts "Content-Length: " l
  typeOf : ∀ v, ascii "Content-Type: " ++ v ∈ ls → mimeType (getFilenameExt (strtolower path)) = some v
  lengthOf : ∀ v, ascii "Content-Length: " ++ v ∈ ls → v ≠ [] ∧ (∀ c ∈ v, IsDigit c) ∧ number v = n

section
variable {l rest ext str : List UInt8}

theorem crlfLines_line (hl : cr ∉ l) (rest : List UInt8) :
    crlfLines (l ++ crlf ++ rest) = (l :: (crlfLines rest).1, (crlfLines rest).2) := by
  induction l with
  | nil =>
    show crlfLines (cr :: newline :: rest) = _
    rw [crlfLines, if_pos ⟨rfl, rfl⟩]
  | cons c l ih =>
    rw [List.mem_cons, not_or] at hl
    obtain ⟨hc, hl⟩ := hl
    have htail := ih hl
    obtain ⟨d, u, hu⟩ : ∃ d u, l ++ crlf ++ rest = d :: u := by
      cases l with
      | nil => exact ⟨cr, newline :: rest, rfl⟩
      | cons d l => exact ⟨d, l ++ crlf ++ rest, rfl⟩
    rw [List.cons_append, List.cons_append, hu, crlfLines, if_neg (fun h => hc h.1.symm), ← hu, htail]

/-! ## The parts of the block -/

/-- The third part. -/
def typeLine (ext : List UInt8) : List UInt8 :=
  match mimeType ext with
  | some v => ascii "Content-Type: " ++ v
  | none => ascii "HTTP/1.1 200 OK"

theorem mimeType_none (h : ext ∉ mimeTypes.map Prod.fst) : mimeType ext = none := by
  rw [mimeType, List.lookup_eq_none_iff]
  intro e he
  rw [bne_iff_ne]
  rintro rfl
  exact h (List.mem_map_of_mem he)

/-- The types of the chain, one by one. -/
theorem contentType_chain : ∀ e ∈ mimeTypes,
    contentType e.1 (ascii "HTTP/1.1 200 OK\r\n") = typeLine e.1 ++ crlf ∧ cr ∉ typeLine e.1 := by
  decide +kernel

theorem contentType_eq (ext : List UInt8) :
    contentType ext (ascii "HTTP/1.1 200 OK\r\n") = typeLine ext ++ crlf := by
  by_cases h : ext ∈ mimeTypes.map Prod.fst
  · obtain ⟨e, he, rfl⟩ := List.mem_map.1 h
    exact (contentType_chain e he).1
  · have hnone := mimeType_none h
    simp only [mimeTypes, List.map_cons, List.map_nil, List.mem_cons, List.not_mem_nil, or_false, not_or] at h
    obtain ⟨h1, h2, h3, h4, h5, h6, h7, h8, h9⟩ := h
    simp only [contentType, typeLine, hnone, h1, h2, h3, h4, h5, h6, h7, h8, h9, or_self, if_false]
    decide

theorem cr_notMem_typeLine (ext : List UInt8) : cr ∉ typeLine ext := by
  by_cases h : ext ∈ mimeTypes.map Prod.fst
  · obtain ⟨e, he, rfl⟩ := List.mem_map.1 h
    exact (contentType_chain e he).2
  · rw [typeLine, mimeType_none h]
    decide

/-- The four lines that are not empty. -/
def headerLines (path : List UInt8) (n : Nat) : List (List UInt8) :=
  [ascii "HTTP/1.1 200 OK", ascii "Server: simplehttpd/0.1", typeLine (getFilenameExt (strtolower path)),
    ascii "Content-Length: " ++ digits n]

theorem cr_notMem_digits (n : Nat) : cr ∉ ascii "Content-Length: " ++ digits n := by
  intro hmem
  rcases List.mem_append.1 hmem with hmem | hmem
  · revert hmem
    decide
  · have hdigit := (digits_spec n).2.1 cr hmem
    revert hdigit
    decide

theorem crlfLines_sendHeaders (path : List UInt8) (n : Nat) :
    crlfLines (sendHeaders path n).flatten = (headerLines path n ++ [[]], []) := by
  have hblock : (sendHeaders path n).flatten = ascii "HTTP/1.1 200 OK" ++ crlf ++
      (ascii "Server: simplehttpd/0.1" ++ crlf ++ (typeLine (getFilenameExt (strtolower path)) ++ crlf ++
        (ascii "Content-Length: " ++ digits n ++ crlf ++ ([] ++ crlf ++ [])))) := by
    have hstatus : ascii "HTTP/1.1 200 OK\r\n" = ascii "HTTP/1.1 200 OK" ++ crlf := by decide
    have hserver : serverString = ascii "Server: simplehttpd/0.1" ++ crlf := by decide
    unfold sendHeaders
    dsimp only
    rw [contentType_eq, hstatus, hserver]
    simp only [List.flatten_cons, List.flatten_nil, List.append_assoc, List.nil_append, List.append_nil]
    rfl
  rw [hblock, crlfLines_line (by decide), crlfLines_line (by decide), crlfLines_line (cr_notMem_typeLine _),
    crlfLines_line (cr_notMem_digits n), crlfLines_line (by decide)]
  rfl

theorem starts_append (text : String) (v : List UInt8) : starts text (ascii text ++ v) = true :=
  List.isPrefixOf_iff_prefix.2 (List.prefix_append _ v)

/-- A value that stands in the lines behind a name stands in the line of that name. -/
theorem eq_of_starts {text : String} {ls : List (List UInt8)} {v : List UInt8} (hv : ascii text ++ v ∈ ls)
    (hl : ∀ l' ∈ ls, l' = l ∨ starts text l' = false) : ascii text ++ v = l := by
  rcases hl _ hv with h | h
  · exact h
  · rw [starts_append] at h
    cases h

theorem headerLines_wellFormed {path : List UInt8} {v : List UInt8} (n : Nat)
    (hv : mimeType (getFilenameExt (strtolower path)) = some v) :
    WellFormedHeaders path n (sendHeaders path n).flatten (headerLines path n) := by
  have htype : typeLine (getFilenameExt (strtolower path)) = ascii "Content-Type: " ++ v := by
    rw [typeLine, hv]
  constructor
  · exact crlfLines_sendHeaders path n
  · rfl
  · rw [headerLines, htype]
    rfl
  · rw [headerLines, htype]
    rfl
  · rw [headerLines, htype]
    exact Nat.le_refl 1
  · rw [headerLines, htype]
    rfl
  · rw [headerLines, htype]
    simp only [List.forall_mem_cons, List.not_mem_nil, false_implies, implies_true, and_true, starts_append]
    refine ⟨.inl rfl, .inr (.inl rfl), ?_, ?_⟩
    · exact .inr (.inr (.inl trivial))
    · exact .inr (.inr (.inr trivial))
  · intro w hw
    rw [headerLines, htype] at hw
    have heq := eq_of_starts (l := ascii "Content-Type: " ++ v) hw (by
      simp only [List.forall_mem_cons, List.not_mem_nil, false_implies, implies_true, and_true]
      exact ⟨.inr rfl, .inr rfl, .inl trivial, .inr rfl⟩)
    rw [hv, List.append_cancel_left heq]
  · intro w hw
    rw [headerLines, htype] at hw
    have heq := eq_of_starts (l := ascii "Content-Length: " ++ digits n) hw (by
      simp only [List.forall_mem_cons, List.not_mem_nil, false_implies, implies_true, and_true]
      exact ⟨.inr rfl, .inr rfl, .inr rfl, .inl trivial⟩)
    rw [List.append_cancel_left heq]
    exact digits_spec n

/-- Without a type the status line is there twice. -/
theorem not_wellFormed {path : List UInt8} (n : Nat) (hm : mimeType (getFilenameExt (strtolower path)) = none)
    (ls : List (List UInt8)) : ¬ WellFormedHeaders path n (sendHeaders path n).flatten ls := by
  intro h
  have hlines := h.lines
  rw [crlfLines_sendHeaders] at hlines
  obtain rfl : headerLines path n = ls := List.append_cancel_right (Prod.mk.inj hlines).1
  have hstatus := h.status
  have htype : typeLine (getFilenameExt (strtolower path)) = ascii "HTTP/1.1 200 OK" := by
    rw [typeLine, hm]
  have htwo : (headerLines path n).countP (starts "HTTP/1.1 ") = 2 := by
    rw [headerLines, htype]
    rfl
  rw [htwo] at hstatus
  cases hstatus

/-- **Well formed, or the status line twice.** -/
theorem headers_wellFormed_iff (path : List UInt8) (n : Nat) :
    (∃ ls, WellFormedHeaders path n (sendHeaders path n).flatten ls) ↔
      (mimeType (getFilenameExt (strtolower path))).isSome := by
  constructor
  · rintro ⟨ls, h⟩
    cases hm : mimeType (getFilenameExt (strtolower path)) with
    | some v => rfl
    | none => exact absurd h (not_wellFormed n hm ls)
  · intro h
    obtain ⟨v, hv⟩ := Option.isSome_iff_exists.1 h
    exact ⟨_, headerLines_wellFormed n hv⟩

/-- A file without an extension: two status lines. -/
theorem headers_status_twice :
    crlfLines (sendHeaders (ascii "public/readme") 3).flatten =
      ([ascii "HTTP/1.1 200 OK", ascii "Server: simplehttpd/0.1", ascii "HTTP/1.1 200 OK",
        ascii "Content-Length: 3", []], []) ∧
    ∀ ls, ¬ WellFormedHeaders (ascii "public/readme") 3 (sendHeaders (ascii "public/readme") 3).flatten ls := by
  have hpath : ascii "public/readme" = [112, 117, 98, 108, 105, 99, 47, 114, 101, 97, 100, 109, 101] := by decide
  have hext : getFilenameExt (strtolower (ascii "public/readme")) = [] := by
    rw [hpath]
    decide +kernel
  have hnone : mimeType [] = none := mimeType_none (by decide +kernel)
  refine ⟨?_, not_wellFormed 3 (by rw [hext, hnone])⟩
  rw [crlfLines_sendHeaders, headerLines, hext, typeLine, hnone]
  decide +kernel

end

end CPrograms.UringHttp
