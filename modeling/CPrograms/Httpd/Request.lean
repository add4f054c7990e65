import CPrograms.Httpd.Lines
import CPrograms.Lib.Decimal
import CPrograms.UringHttp.Request

/-!
# The request line in `file_io/httpd.c`

`accept_request` copies the method and the URL out of the line that `get_line` stored, splits the
query off and builds the path of the file.  Its loops look at bytes of `buf` behind the NUL, which
are whatever was there before; but every access is in its array, and what is done depends on the
line alone (`acceptRequest_eq`): on the words of `requested`.
-/

namespace CPrograms.Httpd

open Buffers Lines Pieces
open UringHttp (ascii slash strtolower)

/-! ## `accept_request` -/

/-- `isspace`, in the C locale. -/
def isSpace (c : UInt8) : Bool := decide (c = 32 ∨ 9 ≤ c ∧ c ≤ 13)

def questionMark : UInt8 := 63

/-- The loops that copy a word of `buf` from `j` on to `word[i]`, while there is `room`. -/
def copyWord {n m : Nat} (buf : Buffer n) : Nat → Int → Int → Buffer m → Option (Buffer m × Int × Int)
  | 0, j, i, word => (buf.load j).map fun _ => (word, j, i)
  | room + 1, j, i, word =>
    (buf.load j).bind fun c =>
      if isSpace c then some (word, j, i)
      else (word.store i c).bind fun word => copyWord buf room (j + 1) (i + 1) word

/-- The loop over the white space before the URL. -/
def skipSpaces {n : Nat} (buf : Buffer n) : Nat → Int → Option Int
  | 0, j => (buf.load j).map fun _ => j
  | room + 1, j => (buf.load j).bind fun c => if isSpace c then skipSpaces buf room (j + 1) else some j

/-- Where `query_string` stops in `url`. -/
def findQuery {m : Nat} (url : Buffer m) : Nat → Nat → Option Nat
  | 0, _ => none
  | fuel + 1, q =>
    (url.load q).bind fun c => if c ≠ questionMark ∧ c ≠ 0 then findQuery url fuel (q + 1) else some q

/-- The URL without its query, what `query_string` points to, and `cgi`, which a query sets. -/
def splitQuery {m : Nat} (url : Buffer m) : Option (Buffer m × List UInt8 × Bool) :=
  (findQuery url (m + 1) 0).bind fun q => (url.load q).bind fun c =>
    if c = questionMark then
      (url.store q 0).bind fun url => (url.cStringAt (q + 1)).map fun query => (url, query, true)
    else (url.cStringAt q).map fun query => (url, query, false)

/-- A string that is put in an array of `n` bytes. -/
def stringIn (n : Nat) (s : List UInt8) : Option (List UInt8) := if s.length < n then some s else none

/-- `S_IFDIR`, and one of the three bits of `S_IXUSR`, `S_IXGRP` and `S_IXOTH`. -/
structure Mode where
  directory : Bool
  executable : Bool
deriving DecidableEq

/-- What `stat` says of a path. -/
abbrev Stat := List UInt8 → Option Mode

inductive Action
  | unimplemented
  | notFound
  | serveFile (path : List UInt8)
  | executeCgi (path method : List UInt8) (query : Option (List UInt8))
deriving DecidableEq

/-- The file, from the URL and with the `cgi` that the request asks for. -/
def resolve (stat : Stat) (method url : List UInt8) (cgi : Bool) (query : Option (List UInt8)) : Option Action :=
  (stringIn 512 (ascii "htdocs" ++ url)).bind fun path =>
    (if path.getLast? = some slash then stringIn 512 (path ++ ascii "index.html") else some path).bind fun path =>
      match stat path with
      | none => some .notFound
      | some mode =>
        (if mode.directory then stringIn 512 (path ++ ascii "/index.html") else some path).map fun path =>
          if cgi ∨ mode.executable then .executeCgi path method query else .serveFile path

/-- Before a 404 the headers are discarded, from the line on that is in `buf`. -/
def beforeAnswer (buf : Buffer 1024) (numchars : Int) (sock : List UInt8) (action : Action) :
    Option (Action × List UInt8) :=
  if action = .notFound then (skipHeaders (sock.length + 2) buf numchars sock).map fun sock => (action, sock)
  else some (action, sock)

/-- `accept_request`, up to the answer; also what is left on the connection.  The arrays are
whatever they are at the start. -/
def acceptRequest (stat : Stat) (sock : List UInt8) (buf : Buffer 1024) (method url : Buffer 255) :
    Option (Action × List UInt8) :=
  (getLine sock buf 1024).bind fun (buf, numchars, sock) =>
    (copyWord buf 254 0 0 method).bind fun (method, j, i) =>
      (method.store i 0).bind fun method => method.cString.bind fun method =>
        if strtolower method ≠ ascii "get" ∧ strtolower method ≠ ascii "post" then some (.unimplemented, sock)
        else
          (skipSpaces buf (numchars - j).toNat j).bind fun j =>
            (copyWord buf (min 254 (numchars - j).toNat) j 0 url).bind fun (url, _, i) =>
              (url.store i 0).bind fun url =>
                (if strtolower method = ascii "get" then
                  (splitQuery url).map fun (url, query, cgi) => (url, some query, cgi)
                else some (url, none, true)).bind fun (url, query, cgi) =>
                  url.cString.bind fun url =>
                    (resolve stat method url cgi query).bind (beforeAnswer buf numchars sock)

/-! ## What is requested -/

/-- A word of a line, of 254 bytes at most. -/
def word (line : List UInt8) : List UInt8 := (line.take 254).takeWhile (!isSpace ·)

/-- The method and the URL. -/
def methodOf (line : List UInt8) : List UInt8 := string (word line)

def urlOf (line : List UInt8) : List UInt8 := string (word ((line.drop (word line).length).dropWhile isSpace))

/-- What is before the question mark, and what is behind it. -/
def beforeQuery (url : List UInt8) : List UInt8 := url.takeWhile (· ≠ questionMark)

def queryOf (url : List UInt8) : List UInt8 := url.drop ((beforeQuery url).length + 1)

/-- The path that is looked up. -/
def pathOf (url : List UInt8) : List UInt8 :=
  if (ascii "htdocs" ++ url).getLast? = some slash then ascii "htdocs" ++ url ++ ascii "index.html"
  else ascii "htdocs" ++ url

/-- The answer to a request for a path. -/
def lookUp (stat : Stat) (path method : List UInt8) (cgi : Bool) (query : Option (List UInt8)) : Action :=
  match stat path with
  | none => .notFound
  | some mode =>
    let file := if mode.directory then path ++ ascii "/index.html" else path
    if cgi ∨ mode.executable then .executeCgi file method query else .serveFile file

/-- What the line asks for. -/
def requested (stat : Stat) (line : List UInt8) : Action :=
  let method := methodOf line
  let url := urlOf line
  if strtolower method = ascii "get" then
    lookUp stat (pathOf (beforeQuery url)) method (decide (questionMark ∈ url)) (some (queryOf url))
  else if strtolower method = ascii "post" then lookUp stat (pathOf url) method true none
  else .unimplemented

/-! ## The loops -/

section

variable {n m : Nat}

/-- A byte that is there, in front of those behind it. -/
theorem load_drop {buf : Buffer n} {j : Nat} (h : j < n) :
    ∃ c, buf.load j = some c ∧ buf.bytes.drop j = c :: buf.bytes.drop (j + 1) := by
  have hlt : j < buf.bytes.length := by rwa [buf.length_eq]
  refine ⟨buf.bytes[j], ?_, List.drop_eq_getElem_cons hlt⟩
  rw [load_natCast, List.getElem?_eq_getElem hlt]

theorem copyWord_eq (buf : Buffer n) (word : Buffer m) (room : Nat) : ∀ (j : Nat) (pre : List UInt8),
    j + room < n → pre.length + room ≤ m →
      copyWord buf room j pre.length (word.overwrite pre) =
        some (word.overwrite (pre ++ ((buf.bytes.drop j).take room).takeWhile (!isSpace ·)),
          ((j + (((buf.bytes.drop j).take room).takeWhile (!isSpace ·)).length : Nat) : Int),
          ((pre ++ ((buf.bytes.drop j).take room).takeWhile (!isSpace ·)).length : Int)) := by
  induction room with
  | zero =>
    intro j pre hj _
    obtain ⟨c, hc, -⟩ := @load_drop n buf j (by omega)
    rw [copyWord, hc, List.take_zero, List.takeWhile_nil, List.append_nil]
    rfl
  | succ room ih =>
    intro j pre hj hpre
    obtain ⟨c, hc, hdrop⟩ := @load_drop n buf j (by omega)
    rw [copyWord, hc, Option.bind_some, hdrop, List.take_succ_cons]
    by_cases hspace : isSpace c = true
    · rw [if_pos hspace, List.takeWhile_cons_of_neg (by rw [hspace]; decide), List.append_nil]
      rfl
    · have hlen : (pre ++ [c]).length = pre.length + 1 := List.length_append
      have hrest := ih (j + 1) (pre ++ [c]) (by omega) (by rw [hlen]; omega)
      rw [hlen, List.append_assoc, List.singleton_append, Nat.add_right_comm j 1] at hrest
      rw [if_neg hspace, store_overwrite rfl (by omega), Option.bind_some,
        List.takeWhile_cons_of_pos (by rw [Bool.not_eq_true] at hspace; rw [hspace]; rfl), List.length_cons]
      exact hrest

/-- A word at the start of its array. -/
theorem copyWord_start (buf : Buffer n) (word : Buffer m) {room j : Nat} (hj : j + room < n) (hm : room ≤ m) :
    copyWord buf room j 0 word =
      some (word.overwrite (((buf.bytes.drop j).take room).takeWhile (!isSpace ·)),
        ((j + (((buf.bytes.drop j).take room).takeWhile (!isSpace ·)).length : Nat) : Int),
        ((((buf.bytes.drop j).take room).takeWhile (!isSpace ·)).length : Int)) := by
  have h := copyWord_eq buf word room j [] hj (by rw [List.length_nil]; omega)
  rwa [overwrite_nil, List.nil_append] at h

theorem skipSpaces_eq (buf : Buffer n) (room : Nat) : ∀ j : Nat, j + room < n →
    skipSpaces buf room j = some ((j +
      (((buf.bytes.drop j).take room).takeWhile isSpace).length : Nat) : Int) := by
  induction room with
  | zero =>
    intro j hj
    obtain ⟨c, hc, -⟩ := @load_drop n buf j (by omega)
    rw [skipSpaces, hc, List.take_zero, List.takeWhile_nil]
    rfl
  | succ room ih =>
    intro j hj
    obtain ⟨c, hc, hdrop⟩ := @load_drop n buf j (by omega)
    rw [skipSpaces, hc, Option.bind_some, hdrop, List.take_succ_cons]
    by_cases hspace : isSpace c = true
    · have hrest := ih (j + 1) (by omega)
      rw [Nat.add_right_comm j 1] at hrest
      rw [if_pos hspace, List.takeWhile_cons_of_pos hspace, List.length_cons]
      exact hrest
    · rw [if_neg hspace, List.takeWhile_cons_of_neg hspace]
      rfl

/-- The pointer stops at the first question mark, or at the NUL. -/
theorem findQuery_eq {url : Buffer m} {rest : List UInt8} (u : List UInt8) (hu : 0 ∉ u) : ∀ (pre : List UInt8)
    (fuel : Nat), url.bytes = pre ++ (u ++ 0 :: rest) → u.length < fuel →
      findQuery url fuel pre.length = some (pre ++ beforeQuery u).length := by
  induction u with
  | nil =>
    intro pre fuel hbytes hfuel
    obtain ⟨fuel, rfl⟩ := Nat.exists_eq_succ_of_ne_zero (Nat.ne_of_gt hfuel)
    rw [findQuery, load_of_bytes hbytes rfl, Option.bind_some, if_neg fun h => h.2 rfl, beforeQuery,
      List.takeWhile_nil, List.append_nil]
  | cons c u ih =>
    intro pre fuel hbytes hfuel
    rw [List.mem_cons, not_or] at hu
    obtain ⟨fuel, rfl⟩ := Nat.exists_eq_succ_of_ne_zero (Nat.ne_of_gt (Nat.zero_lt_of_lt hfuel))
    rw [findQuery, load_of_bytes hbytes rfl, Option.bind_some]
    by_cases hc : c = questionMark
    · rw [if_neg fun h => h.1 hc, beforeQuery, List.takeWhile_cons_of_neg (by simpa using hc), List.append_nil]
    · have hrest := ih hu.2 (pre ++ [c]) fuel (by rw [hbytes, List.append_assoc]; rfl)
        (Nat.lt_of_succ_lt_succ hfuel)
      rw [List.length_append, List.length_singleton, List.append_assoc] at hrest
      rw [if_pos ⟨hc, Ne.symm hu.1⟩, beforeQuery, List.takeWhile_cons_of_pos (by simpa using hc)]
      exact hrest

end

/-- A URL is what is before the query, and a question mark with the query if it has one. -/
theorem url_query (u : List UInt8) : (questionMark ∉ u ∧ u = beforeQuery u ∧ queryOf u = []) ∨
    (questionMark ∈ u ∧ u = beforeQuery u ++ questionMark :: queryOf u) := by
  have hsplit := List.takeWhile_append_dropWhile (p := (· ≠ questionMark)) (l := u)
  by_cases h : questionMark ∈ u
  · refine .inr ⟨h, ?_⟩
    cases hd : u.dropWhile (· ≠ questionMark) with
    | nil =>
      rw [hd, List.append_nil] at hsplit
      rw [← hsplit] at h
      simpa using List.mem_takeWhile_imp h
    | cons d rest =>
      have hhead := List.head?_dropWhile_not (p := (· ≠ questionMark)) (l := u)
      rw [hd] at hhead
      have hdq : d = questionMark := by simpa using hhead
      rw [hd, hdq] at hsplit
      have hquery : queryOf u = rest := by
        have hdrop : queryOf u = (beforeQuery u ++ questionMark :: rest).drop ((beforeQuery u).length + 1) :=
          congrArg (List.drop ((beforeQuery u).length + 1)) hsplit.symm
        rw [hdrop, ← List.drop_drop, List.drop_left]
        rfl
      rw [hquery]
      exact hsplit.symm
  · have hwhole : u = beforeQuery u := by
      refine (List.takeWhile_eq_self_iff.2 ?_).symm
      intro c hc
      simpa using ne_of_mem_of_not_mem hc h
    refine .inl ⟨h, hwhole, ?_⟩
    unfold queryOf
    rw [← hwhole]
    exact List.drop_eq_nil_of_le (Nat.le_succ _)

/-- What is split off a URL. -/
theorem splitQuery_eq {m : Nat} {url : Buffer m} {u rest : List UInt8} (hu : 0 ∉ u)
    (hbytes : url.bytes = u ++ 0 :: rest) :
    ∃ url', splitQuery url = some (url', queryOf u, decide (questionMark ∈ u)) ∧
      url'.cString = some (beforeQuery u) := by
  have hlen : u.length < m := length_cString (cString_of_bytes hbytes hu)
  have hfind := findQuery_eq u hu [] (m + 1) hbytes (by omega)
  have hfind : findQuery url (m + 1) 0 = some (beforeQuery u).length := hfind
  unfold splitQuery
  rw [hfind, Option.bind_some]
  rcases url_query u with ⟨hmem, hwhole, hnil⟩ | ⟨hmem, hwhole⟩
  · have hload := load_of_bytes hbytes (show ((beforeQuery u).length : Int) = u.length by rw [← hwhole])
    have hempty := @cStringAt_of_bytes m url u [] rest (by rw [hbytes]; rfl) List.not_mem_nil
    rw [hload, Option.bind_some, if_neg (by decide), ← hwhole, hempty, hnil, decide_eq_false hmem]
    exact ⟨url, rfl, cString_of_bytes hbytes hu⟩
  · rw [hwhole, List.append_assoc] at hbytes
    have hbytes : url.bytes = beforeQuery u ++ questionMark :: (queryOf u ++ 0 :: rest) := hbytes
    obtain ⟨url', hstore, hbytes'⟩ := @store_of_bytes m url (beforeQuery u) _ _ 0 _ hbytes rfl
    rw [hwhole, List.mem_append, List.mem_cons, not_or, not_or] at hu
    have hquery : url'.cStringAt ((beforeQuery u).length + 1) = some (queryOf u) := by
      have h := @cStringAt_of_bytes m url' (beforeQuery u ++ [0]) (queryOf u) rest
        (by rw [hbytes', List.append_assoc]; rfl) hu.2.2
      rwa [List.length_append] at h
    rw [load_of_bytes hbytes rfl, Option.bind_some, if_pos rfl, hstore, Option.bind_some, hquery,
      decide_eq_true hmem]
    exact ⟨url', rfl, cString_of_bytes hbytes' hu.1⟩

/-! ## The request -/

/-- What is behind the NUL does not matter. -/
theorem string_stale (f : UInt8 → Bool) (line stale : List UInt8) (k : Nat) :
    string (((line ++ 0 :: stale).take k).takeWhile f) = string ((line.take k).takeWhile f) ∧
      line.drop (((line ++ 0 :: stale).take k).takeWhile f).length =
        line.drop ((line.take k).takeWhile f).length := by
  induction line generalizing k with
  | nil =>
    refine ⟨?_, by rw [List.drop_nil, List.drop_nil]⟩
    cases k with
    | zero => rfl
    | succ k =>
      rw [List.nil_append, List.take_succ_cons, List.takeWhile_cons]
      split
      · rfl
      · rfl
  | cons c line ih =>
    cases k with
    | zero => exact ⟨rfl, rfl⟩
    | succ k =>
      obtain ⟨h1, h2⟩ := ih k
      rw [List.cons_append, List.take_succ_cons, List.take_succ_cons]
      by_cases hc : f c = true
      · rw [List.takeWhile_cons_of_pos hc, List.takeWhile_cons_of_pos hc]
        refine ⟨?_, h2⟩
        unfold string at h1 ⊢
        rw [List.takeWhile_cons, List.takeWhile_cons, h1]
      · rw [List.takeWhile_cons_of_neg hc, List.takeWhile_cons_of_neg hc]
        exact ⟨rfl, rfl⟩

theorem length_word_le (line : List UInt8) : (word line).length ≤ 254 :=
  Nat.le_trans (List.takeWhile_sublist _).length_le (List.length_take_le 254 line)

theorem length_string_le (s : List UInt8) : (string s).length ≤ s.length := (List.takeWhile_sublist _).length_le

theorem length_urlOf_le (line : List UInt8) : (urlOf line).length ≤ 254 :=
  Nat.le_trans (length_string_le _) (length_word_le _)

theorem stringIn_of_lt {n : Nat} {s : List UInt8} (h : s.length < n) : stringIn n s = some s := if_pos h

theorem length_pathOf (url : List UInt8) : (pathOf url).length ≤ url.length + 16 := by
  have h1 : (ascii "htdocs").length = 6 := by decide
  have h2 : (ascii "index.html").length = 10 := by decide
  unfold pathOf
  split
  · rw [List.length_append, List.length_append]
    omega
  · rw [List.length_append]
    omega

/-- Every URL fits. -/
theorem resolve_eq (stat : Stat) (method : List UInt8) {url : List UInt8} (hurl : url.length ≤ 254) (cgi : Bool)
    (query : Option (List UInt8)) :
      resolve stat method url cgi query = some (lookUp stat (pathOf url) method cgi query) := by
  have hlen : (ascii "htdocs" ++ url).length ≤ 260 := by
    rw [List.length_append, show (ascii "htdocs").length = 6 by decide]
    omega
  have hpath : (if (ascii "htdocs" ++ url).getLast? = some slash then
      stringIn 512 (ascii "htdocs" ++ url ++ ascii "index.html") else some (ascii "htdocs" ++ url)) =
        some (pathOf url) := by
    unfold pathOf
    split
    · rw [stringIn_of_lt]
      rw [List.length_append, show (ascii "index.html").length = 10 by decide]
      omega
    · rfl
  have hindex (path : List UInt8) (h : path.length ≤ 270) : stringIn 512 (path ++ ascii "/index.html") =
      some (path ++ ascii "/index.html") := by
    rw [stringIn_of_lt]
    rw [List.length_append, show (ascii "/index.html").length = 11 by decide]
    omega
  have hbound := length_pathOf url
  unfold resolve
  rw [stringIn_of_lt (by omega), Option.bind_some, hpath, Option.bind_some]
  unfold lookUp
  cases stat (pathOf url) with
  | none => rfl
  | some mode =>
    dsimp only
    rw [hindex _ (by omega)]
    cases mode.directory with
    | true => rfl
    | false => rfl

theorem take_drop_line (line rest : List UInt8) (j : Nat) :
    ((line ++ rest).drop j).take (line.length - j) = line.drop j := by
  rw [List.drop_append]
  exact List.take_left' List.length_drop

theorem drop_takeWhile (f : UInt8 → Bool) (d : List UInt8) : d.drop (d.takeWhile f).length = d.dropWhile f := by
  have h := List.takeWhile_append_dropWhile (p := f) (l := d)
  calc d.drop (d.takeWhile f).length = (d.takeWhile f ++ d.dropWhile f).drop (d.takeWhile f).length := by rw [h]
    _ = d.dropWhile f := List.drop_left

/-- The loops over a line that is in `buf`, with its NUL. -/
theorem copyUrl_eq {line stale : List UInt8} {buf : Buffer 1024} (hbytes : buf.bytes = line ++ 0 :: stale)
    (url : Buffer 255) {j : Nat} (hj : j ≤ 254) :
    ∃ k : Nat, skipSpaces buf ((line.length : Int) - j).toNat j = some (k : Int) ∧
      ∃ k', copyWord buf (min 254 ((line.length : Int) - k).toNat) k 0 url =
        some (url.overwrite (word ((line.drop j).dropWhile isSpace)), k',
          ((word ((line.drop j).dropWhile isSpace)).length : Int)) := by
  have hlen := buf.length_eq
  rw [hbytes, List.length_append, List.length_cons] at hlen
  have hsub (i : Nat) : ((line.length : Int) - i).toNat = line.length - i := by omega
  have hskip := skipSpaces_eq buf (line.length - j) j (by omega)
  rw [hbytes, take_drop_line] at hskip
  have hspaces : ((line.drop j).takeWhile isSpace).length ≤ line.length - j := by
    have h := (List.takeWhile_sublist isSpace (l := line.drop j)).length_le
    rwa [List.length_drop] at h
  refine ⟨_, by rw [hsub]; exact hskip, ?_⟩
  generalize hk : j + ((line.drop j).takeWhile isSpace).length = k
  have hword : ((buf.bytes.drop k).take (min 254 (line.length - k))).takeWhile (!isSpace ·) =
      word ((line.drop j).dropWhile isSpace) := by
    rw [hbytes, ← List.take_take, take_drop_line, ← hk, ← List.drop_drop, drop_takeWhile]
    rfl
  have hcopy := @copyWord_start 1024 255 buf url (min 254 (line.length - k)) k (by omega) (by omega)
  rw [hword] at hcopy
  exact ⟨_, by rw [hsub]; exact hcopy⟩

/-- An empty line has no method. -/
theorem requested_blank (stat : Stat) {line : List UInt8} (h : line = [] ∨ line = [newline]) :
    requested stat line ≠ .notFound := by
  have hmethod : methodOf line = [] := by
    rcases h with rfl | rfl
    · rfl
    · rfl
  unfold requested
  rw [hmethod, if_neg (by decide), if_neg (by decide)]
  exact Action.noConfusion

/-- The headers that a 404 discards, if it is what the line asks for. -/
theorem beforeAnswer_eq (sock : List UInt8) {line : List UInt8} (hline : line.length < 1024)
    (hlast : newline ∉ line.dropLast) : ∃ rest, unixEnds rest = afterBlank 1023 (unixEnds sock) ∧
      ∀ (stat : Stat) (buf : Buffer 1024),
        beforeAnswer (buf.overwrite (line ++ [0])) line.length sock (requested stat line) =
          some (requested stat line, if requested stat line = .notFound then rest else sock) := by
  by_cases hblank : line = [] ∨ line = [newline]
  · obtain ⟨rest, hrest, -⟩ := skipHeaders_eq sock (p := [65]) (by decide) List.not_mem_nil (by decide)
      (Nat.lt_succ_self _)
    refine ⟨rest, hrest, fun stat buf => ?_⟩
    unfold beforeAnswer
    rw [if_neg (requested_blank stat hblank), if_neg (requested_blank stat hblank)]
  · obtain ⟨rest, hrest, hskip⟩ := skipHeaders_eq sock hline hlast hblank (Nat.lt_succ_self _)
    refine ⟨rest, hrest, fun stat buf => ?_⟩
    unfold beforeAnswer
    rw [hskip buf]
    split
    · rfl
    · rfl

/-- **The request line.**  Every access is in its array, whatever is in the arrays at the start; what
is done is what the line asks for; and before a 404 the lines up to an empty one are read. -/
theorem acceptRequest_eq (sock : List UInt8) : ∃ rest behind, rest <:+ sock ∧
    unixEnds rest = (piece 1023 (unixEnds sock)).2 ∧ unixEnds behind = afterBlank 1023 (unixEnds rest) ∧
      ∀ (stat : Stat) (buf : Buffer 1024) (method url : Buffer 255), acceptRequest stat sock buf method url =
        some (requested stat (piece 1023 (unixEnds sock)).1,
          if requested stat (piece 1023 (unixEnds sock)).1 = .notFound then behind else rest) := by
  obtain ⟨rest, hrest, -, hends, hget⟩ := @getLine_eq 1024 1023 (by decide) sock
  have hbound := length_piece_le 1023 (unixEnds sock)
  have hlast := newline_notMem_dropLast 1023 (unixEnds sock)
  generalize (piece 1023 (unixEnds sock)).1 = line at hget hbound hlast ⊢
  obtain ⟨behind, hbehind, hanswer⟩ := beforeAnswer_eq rest (Nat.lt_succ_of_le hbound) hlast
  refine ⟨rest, behind, hrest, hends, hbehind, fun stat buf method url => ?_⟩
  have hget : getLine sock buf 1024 = _ := hget buf
  have hanswer := hanswer stat buf
  have hbytes := @bytes_overwrite_string 1024 buf line (by omega)
  generalize buf.bytes.drop (line ++ [0]).length = stale at hbytes
  generalize buf.overwrite (line ++ [0]) = buf' at hget hbytes hanswer
  obtain ⟨hmethod, hdrop⟩ := string_stale (!isSpace ·) line stale 254
  have hcopy := @copyWord_start 1024 255 buf' method 254 0 (by decide) (by decide)
  rw [List.drop_zero, hbytes, Nat.zero_add] at hcopy
  have hw : (((line ++ 0 :: stale).take 254).takeWhile (!isSpace ·)).length ≤ 254 :=
    Nat.le_trans (List.takeWhile_sublist _).length_le (List.length_take_le 254 _)
  generalize ((line ++ 0 :: stale).take 254).takeWhile (!isSpace ·) = w at hmethod hdrop hcopy hw
  have hcopy : copyWord buf' 254 0 0 method = _ := hcopy
  have hmethod : string w = methodOf line := hmethod
  obtain ⟨stale', hname⟩ := @cString_word 255 method w (by omega)
  unfold acceptRequest
  rw [hget, Option.bind_some]
  dsimp only
  rw [hcopy, Option.bind_some]
  dsimp only
  rw [store_overwrite rfl (by omega), Option.bind_some, cString_of_bytes hname (zero_notMem_string w),
    Option.bind_some, hmethod]
  obtain ⟨k, hskip, k', hurl⟩ := copyUrl_eq hbytes url hw
  rw [hdrop] at hurl
  change copyWord buf' (min 254 ((line.length : Int) - k).toNat) k 0 url = some
    (url.overwrite (word ((line.drop (word line).length).dropWhile isSpace)), k',
      ((word ((line.drop (word line).length).dropWhile isSpace)).length : Int)) at hurl
  have hu := length_word_le ((line.drop (word line).length).dropWhile isSpace)
  obtain ⟨stale'', hname'⟩ := @cString_word 255 url
    (word ((line.drop (word line).length).dropWhile isSpace)) (by omega)
  change _ = urlOf line ++ 0 :: stale'' at hname'
  have hzero : 0 ∉ urlOf line := zero_notMem_string _
  have hlength := length_urlOf_le line
  unfold requested at hanswer ⊢
  by_cases hgetMethod : strtolower (methodOf line) = ascii "get"
  · obtain ⟨url', hsplit, hbefore⟩ := splitQuery_eq hzero hname'
    have hlength' : (beforeQuery (urlOf line)).length ≤ 254 :=
      Nat.le_trans (List.takeWhile_sublist _).length_le hlength
    rw [if_neg fun h => h.1 hgetMethod, hskip, Option.bind_some, hurl, Option.bind_some]
    dsimp only
    rw [store_overwrite rfl (by omega), Option.bind_some, if_pos hgetMethod, hsplit, Option.map_some,
      Option.bind_some]
    dsimp only
    rw [if_pos hgetMethod] at hanswer ⊢
    rw [hbefore, Option.bind_some, resolve_eq stat _ hlength', Option.bind_some]
    exact hanswer
  · by_cases hpost : strtolower (methodOf line) = ascii "post"
    · rw [if_neg fun h => h.2 hpost, hskip, Option.bind_some, hurl, Option.bind_some]
      dsimp only
      rw [store_overwrite rfl (by omega), Option.bind_some, if_neg hgetMethod, Option.bind_some]
      dsimp only
      rw [if_neg hgetMethod, if_pos hpost] at hanswer ⊢
      rw [cString_of_bytes hname' hzero, Option.bind_some, resolve_eq stat _ hlength, Option.bind_some]
      exact hanswer
    · rw [if_pos ⟨hgetMethod, hpost⟩, if_neg hgetMethod, if_neg hpost, if_neg Action.noConfusion]

/-! ## The environment of a script -/

/-- The child's `meth_env`, and its `query_env` or its `length_env`, of 255 bytes each. -/
def environment (method : List UInt8) (query : Option (List UInt8)) (contentLength : Int) :
    Option (List UInt8 × List UInt8) :=
  (stringIn 255 (ascii "REQUEST_METHOD=" ++ method)).bind fun methEnv =>
    (if strtolower method = ascii "get" then
      query.bind fun query => stringIn 255 (ascii "QUERY_STRING=" ++ query)
    else stringIn 255 (ascii "CONTENT_LENGTH=" ++ Decimal.printed contentLength)).map fun lastEnv =>
      (methEnv, lastEnv)

theorem lookUp_cgi {stat : Stat} {path method file m : List UInt8} {cgi : Bool} {query q : Option (List UInt8)}
    (h : lookUp stat path method cgi query = .executeCgi file m q) : m = method ∧ q = query := by
  unfold lookUp at h
  split at h
  · cases h
  · dsimp only at h
    split at h
    · cases h
      exact ⟨rfl, rfl⟩
    · cases h

/-- A script is run for a GET with its query, and for a POST without one. -/
theorem requested_cgi {stat : Stat} {line file m : List UInt8} {q : Option (List UInt8)}
    (h : requested stat line = .executeCgi file m q) : m = methodOf line ∧
      (strtolower m = ascii "get" ∧ q = some (queryOf (urlOf line)) ∨ strtolower m = ascii "post" ∧ q = none) := by
  unfold requested at h
  dsimp only at h
  split at h
  · next hget =>
    obtain ⟨rfl, rfl⟩ := lookUp_cgi h
    exact ⟨rfl, .inl ⟨hget, rfl⟩⟩
  · split at h
    · next hpost =>
      obtain ⟨rfl, rfl⟩ := lookUp_cgi h
      exact ⟨rfl, .inr ⟨hpost, rfl⟩⟩
    · cases h

theorem stringIn_eq_none {n : Nat} {s : List UInt8} : stringIn n s = none ↔ n ≤ s.length := by
  unfold stringIn
  split
  · exact iff_of_false (Option.some_ne_none _) (by omega)
  · exact iff_of_true rfl (by omega)

/-- **The environment.**  Of all the scripts that are run, one overflows an array of its environment if
its request is a GET whose query has more than 241 bytes, and no other one does. -/
theorem environment_overflows_iff {stat : Stat} {line file m : List UInt8} {q : Option (List UInt8)}
    (h : requested stat line = .executeCgi file m q) {contentLength : Int} (hlow : -2 ^ 31 ≤ contentLength)
    (hhigh : contentLength < 2 ^ 31) : environment m q contentLength = none ↔
      strtolower (methodOf line) = ascii "get" ∧ 241 < (queryOf (urlOf line)).length := by
  obtain ⟨rfl, hcases⟩ := requested_cgi h
  have hmethod : (methodOf line).length ≤ 4 := by
    have hlen : (strtolower (methodOf line)).length = (methodOf line).length := List.length_map _
    rcases hcases with ⟨hget, -⟩ | ⟨hpost, -⟩
    · rw [← hlen, hget]
      decide
    · rw [← hlen, hpost]
      decide
  have hmeth : (ascii "REQUEST_METHOD=" ++ methodOf line).length < 255 := by
    rw [List.length_append, show (ascii "REQUEST_METHOD=").length = 15 by decide]
    omega
  unfold environment
  rw [stringIn_of_lt hmeth, Option.bind_some, Option.map_eq_none_iff]
  rcases hcases with ⟨hget, rfl⟩ | ⟨hpost, rfl⟩
  · have hlen : (ascii "QUERY_STRING=").length = 13 := by decide
    rw [if_pos hget, Option.bind_some, stringIn_eq_none, List.length_append, hlen, and_iff_right hget]
    omega
  · have hget : strtolower (methodOf line) ≠ ascii "get" := by
      rw [hpost]
      decide
    have hprinted := Decimal.length_printed_le (k := 9) (n := contentLength) (by omega)
    have hlen : (ascii "CONTENT_LENGTH=").length = 15 := by decide
    rw [if_neg hget, stringIn_eq_none, List.length_append, hlen]
    exact iff_of_false (by omega) fun h => hget h.1

/-- `GET` with a query of 242 bytes. -/
def longQuery : List UInt8 := ascii "GET /a?" ++ List.replicate 242 97 ++ ascii " HTTP/1.0\n"

theorem environment_overflows_iff_long : environment (ascii "GET") (some (List.replicate 242 97)) 0 = none := by
  have h : requested (fun _ => some ⟨false, true⟩) longQuery =
      .executeCgi (ascii "htdocs/a") (ascii "GET") (some (List.replicate 242 97)) := by decide +kernel
  exact (environment_overflows_iff h (by decide) (by decide)).2 (by decide +kernel)

end CPrograms.Httpd
