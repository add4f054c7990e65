import CPrograms.Lib.Lexical
import CPrograms.UringHttp.Words

/-!
# The path that `handle_get_method` builds

`final_path` is `"public"`, the request's path and, behind a slash, `"index.html"`.  Nothing bounds
the path but its line, so what it needs exceeds its 1024 bytes for the longest paths
(`finalPath_fits_iff`); and nothing looks at its components, so `..` leads out of the document
root, and a path without a slash in front beside it (`inRoot_iff`).
-/

namespace CPrograms.UringHttp

open Lexical

/-! ## Its length -/

/-- The strings that a string function copies fit their buffers, `final_path` and the
`small_case_path` of `send_headers`. -/
def FitsBuffers (path : List UInt8) : Prop :=
  (finalPath path).length + 1 ≤ lineSz ∧ (strtolower (finalPath path)).length + 1 ≤ lineSz

instance (path : List UInt8) : Decidable (FitsBuffers path) := inferInstanceAs (Decidable (_ ∧ _))

theorem length_finalPath (path : List UInt8) :
    (finalPath path).length = path.length + if path.getLast? = some slash then 16 else 6 := by
  have hpublic : (ascii "public").length = 6 := by decide
  have hindex : (ascii "index.html").length = 10 := by decide
  unfold finalPath
  split
  · rw [List.length_append, List.length_append, hpublic, hindex]
    omega
  · rw [List.length_append, hpublic]
    omega

/-- A token and what is left behind it are in the string, with a space between. -/
theorem strtok_length {s t rest : List UInt8} (h : strtok s = some (t, rest)) :
    t ≠ [] ∧ t.length ≤ s.length ∧ (rest ≠ [] → t.length + 1 + rest.length ≤ s.length) := by
  have hdrop : (s.dropWhile (· = space)).length ≤ s.length := List.length_dropWhile_le _ _
  unfold strtok at h
  cases hs : s.dropWhile (· = space) with
  | nil => rw [hs] at h; cases h
  | cons c u =>
    rw [hs] at h hdrop
    simp only [Option.some.injEq, Prod.mk.injEq] at h
    obtain ⟨ht, hrest⟩ := h
    have hlen := congrArg List.length (List.takeWhile_append_dropWhile (p := (· ≠ space)) (l := c :: u))
    rw [List.length_append, ht] at hlen
    have hrest' := congrArg List.length hrest
    rw [List.length_drop] at hrest'
    have hc : c ≠ space := by
      have hhead := List.head?_dropWhile_not (p := (· = space)) (l := s)
      rw [hs] at hhead
      simpa using hhead
    refine ⟨?_, by omega, fun hne => ?_⟩
    · rw [← ht, List.takeWhile_cons_of_pos (by simpa using hc)]
      exact List.cons_ne_nil _ _
    · have := List.length_pos_iff.2 hne
      omega

/-- The path of an accepted line. -/
theorem path_length_le {buf line method save path rest : List UInt8} (hline : getLine buf lineSz = some line)
    (hmethod : strtok (cstr line) = some (method, save)) (hget : strtolower method = ascii "get")
    (hpath : strtok save = some (path, rest)) : path.length ≤ 1019 := by
  obtain ⟨i, hi, -, -, rfl⟩ := getLine_some_iff.1 hline
  have h1 : (cstr (buf.take i)).length ≤ i := by
    have hle := (List.takeWhile_sublist (· ≠ (0 : UInt8)) (l := buf.take i)).length_le
    rw [List.length_take] at hle
    exact Nat.le_trans hle (Nat.min_le_left _ _)
  have h2 : method.length = 3 := by
    have := congrArg List.length hget
    rw [strtolower, List.length_map] at this
    exact this
  obtain ⟨hne, h3, -⟩ := strtok_length hpath
  have hsave : save ≠ [] := by
    rintro rfl
    have := List.length_pos_iff.2 hne
    simp only [List.length_nil] at h3
    omega
  obtain ⟨-, -, h4⟩ := strtok_length hmethod
  have h5 := h4 hsave
  unfold lineSz at hi
  omega

/-- **The buffers.**  The path of a `GET` is 1019 bytes at most; up to 1017 bytes it fits, and up to
1007 if it ends in a slash. -/
theorem finalPath_fits_iff {buf line method save path rest : List UInt8}
    (hline : getLine buf lineSz = some line) (hmethod : strtok (cstr line) = some (method, save))
    (hget : strtolower method = ascii "get") (hpath : strtok save = some (path, rest)) :
    path.length ≤ 1019 ∧
      (FitsBuffers path ↔ path.length ≤ if path.getLast? = some slash then 1007 else 1017) := by
  refine ⟨path_length_le hline hmethod hget hpath, ?_⟩
  unfold FitsBuffers
  rw [strtolower, List.length_map, length_finalPath, lineSz]
  split <;> omega

/-- The line of a `GET` whose path has `n` letters between two slashes. -/
def longLine (n : Nat) : List UInt8 :=
  ascii "GET /" ++ List.replicate n 97 ++ ascii "/ HTTP/1.1"

theorem finalPath_fits_iff_long : FitsBuffers (slash :: List.replicate 1005 97 ++ [slash]) := by
  have hline : getLine (longLine 1005 ++ crlf) lineSz = some (longLine 1005) := by decide +kernel
  have hmethod : strtok (cstr (longLine 1005)) =
      some (ascii "GET", slash :: List.replicate 1005 97 ++ ascii "/ HTTP/1.1") := by decide +kernel
  have hpath : strtok (slash :: List.replicate 1005 97 ++ ascii "/ HTTP/1.1") =
      some (slash :: List.replicate 1005 97 ++ [slash], ascii "HTTP/1.1") := by decide +kernel
  exact (finalPath_fits_iff hline hmethod (by decide) hpath).2.2 (by decide +kernel)

/-- One letter more, in a line of 1021 bytes: the path needs 1025. -/
theorem finalPath_overflows : (longLine 1006).length = 1021 ∧
    getLine (longLine 1006 ++ crlf) lineSz = some (longLine 1006) ∧
    ∀ fs, handleHttpMethod fs (longLine 1006) = .crash := by
  refine ⟨by decide +kernel, by decide +kernel, fun fs => ?_⟩
  have hmethod : strtok (cstr (longLine 1006)) =
      some (ascii "GET", slash :: List.replicate 1006 97 ++ ascii "/ HTTP/1.1") := by decide +kernel
  have hpath : strtok (slash :: List.replicate 1006 97 ++ ascii "/ HTTP/1.1") =
      some (slash :: List.replicate 1006 97 ++ [slash], ascii "HTTP/1.1") := by decide +kernel
  have hlong : (finalPath (slash :: List.replicate 1006 97 ++ [slash])).length + 1 = 1025 := by decide +kernel
  unfold handleHttpMethod
  rw [hmethod]
  dsimp only
  rw [if_pos (by decide), hpath]
  dsimp only
  unfold handleGetMethod
  rw [if_pos (by rw [hlong]; decide)]

/-! ## Where it leads -/

/-- `"."` and nothing between two slashes stay, `".."` goes up. -/
def move (component : List UInt8) : Move (List UInt8) :=
  if component = [] ∨ component = ascii "." then .stay
  else if component = ascii ".." then .up
  else .down component

def moves (path : List UInt8) : List (Move (List UInt8)) := (path.splitOn slash).map move

/-- The path leads strictly below `public`, where the server runs. -/
def InRoot (path : List UInt8) : Prop := (walk (moves path)).Below (ascii "public")

/-- The components behind the first slash of a request's path. -/
def behind (path : List UInt8) : List (Move (List UInt8)) := (path.splitOn slash).tail.map move

/-- `index.html`, one name more where the path ends in a slash. -/
def indexed (path : List UInt8) : Int := if path.getLast? = some slash then 1 else 0

/-- The request's path starts with a slash, goes nowhere above that and ends below it; or it goes
out, one step up and no further, and down to `public` again, above which it does not go either. -/
def StaysIn (path : List UInt8) : Prop :=
  (path.head? = some slash ∧ Nonneg (behind path) ∧ 1 ≤ depth (behind path) + indexed path) ∨
    Returns (ascii "public") (behind path) (indexed path)

/-- `stat` and `open` are applied to that path only. -/
theorem handleGetMethod_congr {fs fs' : Fs} {path : List UInt8} (h : fs (finalPath path) = fs' (finalPath path)) :
    handleGetMethod fs path = handleGetMethod fs' path := by
  unfold handleGetMethod
  rw [h]

/-- What is opened: the path, and `index.html` behind a slash. -/
def target (path : List UInt8) : List UInt8 :=
  if path.getLast? = some slash then path ++ ascii "index.html" else path

theorem finalPath_eq (path : List UInt8) : finalPath path = ascii "public" ++ target path := by
  unfold finalPath target
  split
  · rw [List.append_assoc]
  · rfl

/-- A component with `public` in front is a name. -/
theorem move_public (first : List UInt8) : move (ascii "public" ++ first) = .down (ascii "public" ++ first) := by
  have hne : ∀ s : List UInt8, s.head? ≠ some 112 → ascii "public" ++ first ≠ s := by
    rintro s hs rfl
    exact hs rfl
  unfold move
  rw [if_neg, if_neg (hne _ (by decide))]
  rintro (h | h)
  · exact hne [] (by decide) h
  · exact hne (ascii ".") (by decide) h

/-- Behind the first slash. -/
theorem moves_public {first : List UInt8} (hfirst : slash ∉ first) (rest : List UInt8) :
    moves (ascii "public" ++ (first ++ slash :: rest)) = .down (ascii "public" ++ first) :: moves rest := by
  have hnot : slash ∉ ascii "public" ++ first := by
    rw [List.mem_append, not_or]
    exact ⟨by decide, hfirst⟩
  rw [moves, ← List.append_assoc, List.splitOn_append_cons_self, List.splitOn_eq_singleton hnot,
    List.singleton_append, List.map_cons, move_public]
  rfl

/-- A slash at the end leaves an empty component, in the place of which `index.html` comes. -/
theorem moves_index {rest : List UInt8} (h : (slash :: rest).getLast? = some slash) :
    ∃ init, moves rest = init ++ [.stay] ∧
      moves (rest ++ ascii "index.html") = init ++ [.down (ascii "index.html")] := by
  have hindex : (ascii "index.html").splitOn slash = [ascii "index.html"] := List.splitOn_eq_singleton (by decide)
  have hmove : move (ascii "index.html") = .down (ascii "index.html") := by
    unfold move
    rw [if_neg (by decide), if_neg (by decide)]
  rcases List.eq_nil_or_concat rest with rfl | ⟨r, c, rfl⟩
  · refine ⟨[], rfl, ?_⟩
    rw [moves, List.nil_append, hindex, List.map_singleton, hmove]
    rfl
  · rw [List.concat_eq_append, ← List.cons_append, List.getLast?_concat] at h
    obtain rfl := Option.some.inj h
    refine ⟨moves r, ?_, ?_⟩
    · rw [moves, List.concat_eq_append, List.splitOn_append_cons_self, List.map_append]
      rfl
    · rw [moves, List.concat_eq_append, List.append_assoc, List.singleton_append, List.splitOn_append_cons_self,
        hindex, List.map_append, List.map_singleton, hmove]
      rfl

/-- Where a path leads that is not empty. -/
theorem inRoot_iff {path : List UInt8} (hne : path ≠ []) : InRoot (finalPath path) ↔ StaysIn path := by
  rw [finalPath_eq]
  by_cases hslash : slash ∈ path
  · obtain ⟨first, rest, rfl, hfirst⟩ := List.eq_append_cons_of_mem hslash
    have hbehind : behind (first ++ slash :: rest) = moves rest := by
      rw [behind, List.splitOn_append_cons_self, List.splitOn_eq_singleton hfirst, List.singleton_append,
        List.tail_cons, moves]
    have hhead : (first ++ slash :: rest).head? = some slash ↔ ascii "public" ++ first = ascii "public" := by
      rw [List.append_right_eq_self]
      cases first with
      | nil => exact iff_of_true rfl rfl
      | cons c first =>
        refine iff_of_false ?_ (List.cons_ne_nil c first)
        intro h
        exact hfirst (List.mem_cons.2 (.inl (Option.some.inj h).symm))
    have hlast : (first ++ slash :: rest).getLast? = (slash :: rest).getLast? :=
      List.getLast?_append_of_ne_nil first (List.cons_ne_nil slash rest)
    unfold InRoot StaysIn target indexed
    rw [hbehind, hhead, hlast]
    by_cases hends : (slash :: rest).getLast? = some slash
    · obtain ⟨init, hrest, hindex⟩ := moves_index hends
      have hname : ascii "index.html" ≠ ascii "public" := by decide
      rw [if_pos hends, if_pos hends, List.append_assoc, List.cons_append, moves_public hfirst, hindex, hrest,
        walk_cons_below_iff, below_snoc_iff, returns_snoc_iff hname]
    · rw [if_neg hends, if_neg hends, moves_public hfirst, walk_cons_below_iff, Int.add_zero]
  · -- a name that starts with `public`, and nothing below it
    have hlast : path.getLast? ≠ some slash := fun h => hslash (List.mem_of_getLast? h)
    have hnot : slash ∉ ascii "public" ++ path := by
      rw [List.mem_append, not_or]
      exact ⟨by decide, hslash⟩
    have hnil : ∀ more, ¬ Returns (ascii "public") [] more := by
      rintro more ⟨pre, post, hsplit, -⟩
      exact List.append_ne_nil_of_right_ne_nil pre (List.cons_ne_nil _ post) hsplit.symm
    unfold InRoot StaysIn target behind moves
    rw [if_neg hlast, List.splitOn_eq_singleton hnot, List.splitOn_eq_singleton hslash, List.map_singleton,
      move_public, walk_cons_below_iff, List.tail_cons, List.map_nil]
    refine iff_of_false ?_ ?_
    · rintro (⟨hname, -⟩ | hreturns)
      · exact hne (List.append_right_eq_self.1 hname)
      · exact hnil _ hreturns
    · rintro (⟨hhead, -⟩ | hreturns)
      · exact hslash (List.mem_of_head? hhead)
      · exact hnil _ hreturns

/-- **The document root.**  The answer to a `GET` depends on the file system at `final_path` only,
and that is strictly below `public` exactly where the path's components stay there. -/
theorem get_inRoot_iff {fs : Fs} {line method save path rest : List UInt8}
    (hmethod : strtok (cstr line) = some (method, save)) (hget : strtolower method = ascii "get")
    (hpath : strtok save = some (path, rest)) :
    (∀ fs' : Fs, fs' (finalPath path) = fs (finalPath path) →
      handleHttpMethod fs' line = handleHttpMethod fs line) ∧
      (InRoot (finalPath path) ↔ StaysIn path) := by
  refine ⟨fun fs' h => ?_, inRoot_iff (strtok_length hpath).1⟩
  unfold handleHttpMethod
  rw [hmethod]
  dsimp only
  rw [if_pos hget, if_pos hget, hpath]
  exact handleGetMethod_congr h

/-- A path that goes up within `public`. -/
theorem get_inRoot_iff_page : InRoot (finalPath (ascii "/a/../b")) := by
  have hmethod : strtok (cstr (ascii "GET /a/../b HTTP/1.1")) =
      some (ascii "GET", ascii "/a/../b HTTP/1.1") := by decide +kernel
  have hpath : strtok (ascii "/a/../b HTTP/1.1") = some (ascii "/a/../b", ascii "HTTP/1.1") := by decide +kernel
  refine (@get_inRoot_iff (fun _ => none) _ _ _ _ _ hmethod (by decide) hpath).2.2 (.inl ⟨rfl, ?_, ?_⟩)
  · exact ups_eq_zero_iff.1 (by decide +kernel)
  · decide +kernel

/-- `GET /../x` gets the file `x` beside `public`. -/
theorem finalPath_leaves : ∃ f,
    handleHttpMethod (fun p => if p = ascii "public/../x" then some f else none) (ascii "GET /../x HTTP/1.1") =
      .answer (.file (ascii "public/../x") f) ∧
    walk (moves (ascii "public/../x")) = ⟨0, [ascii "x"]⟩ ∧ ¬ InRoot (ascii "public/../x") := by
  refine ⟨⟨true, true, []⟩, by decide +kernel, by decide +kernel, ?_⟩
  have hwalk : walk (moves (ascii "public/../x")) = ⟨0, [ascii "x"]⟩ := by decide +kernel
  unfold InRoot
  rw [hwalk]
  rintro ⟨-, names, hne, hnames⟩
  cases names with
  | nil => exact hne rfl
  | cons a names => cases names <;> cases hnames

end CPrograms.UringHttp
