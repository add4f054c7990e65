import CPrograms.Httpd.Cat
import CPrograms.Lib.Pipe
import CPrograms.Lib.Runs

/-!
# `execute_cgi` of `file_io/httpd.c`

After the fork the server and its child run side by side: each sends the status line; the server
writes the body of a POST to the script's input and then reads its output to the end; the child
becomes the script.  A script does with the pipes what it likes, and so do the processes that it
starts: `childEnds` counts their descriptors.  Where `execl` fails the child exits, and `exit` writes
what it inherited of the server's `stdout` to the pipe.

* `client_eq`: a client gets the status line twice in front of what is written to the pipe, and in
  the end all of that: the script's output, or what the server's `stdout` held.
* `no_write_after_eof`: a script that reads its input to the end cannot answer any more.
* `locked_iff`, `killed_iff`: a script can lock the server up with itself where the body is larger
  than a pipe, and end it where there is a body at all.
-/

namespace CPrograms.Httpd

open Pipes Runs
open UringHttp (ascii)

/-! ## The processes -/

def statusLine : List UInt8 := ascii "HTTP/1.0 200 OK\r\n"

/-- The descriptors for the ends of the two pipes. -/
structure Ends where
  outputRead : Nat
  outputWrite : Nat
  inputRead : Nat
  inputWrite : Nat
deriving DecidableEq

/-- What the server does next; `i` bytes of the body were written, and `c` is its variable. -/
inductive Parent
  | status
  | closeOutput
  | closeInput
  | recv (i : Nat) (c : UInt8)
  | write (i : Nat) (c : UInt8)
  | read
  | send (c : UInt8)
  | closeOutputRead
  | closeInputWrite
  | wait
  | returned
  /-- by `SIGPIPE` -/
  | killed
deriving DecidableEq

inductive Child
  | status
  | dupOutput
  | dupInput
  | closeOutputRead
  | closeInputWrite
  | exec
  /-- `exit` after a failed `execl`, with these bytes to be flushed -/
  | flush (left : List UInt8)
  | script
  | exited
deriving DecidableEq

/-- What is still to come from the client, what `c` is before it is set, the number of bytes that are
to be written (`content_length` for a POST), and what the server's `stdout` holds at the fork. -/
structure Job where
  body : List UInt8
  c : UInt8
  count : Nat
  stdio : List UInt8

structure State (K : Nat) where
  parent : Parent
  child : Child
  sock : List UInt8
  /-- what was sent -/
  client : List UInt8
  input : Pipe K
  output : Pipe K
  parentEnds : Ends
  childEnds : Ends

def start {K : Nat} (job : Job) : State K :=
  ⟨.status, .status, job.body, [], Pipe.empty, Pipe.empty, ⟨1, 1, 1, 1⟩, ⟨1, 1, 1, 1⟩⟩

inductive Event
  | parent
  | child
  | exec (ok : Bool)
  /-- a read of the script, of `n` bytes or those that are there -/
  | read (n : Nat)
  | eof
  | write (bytes : List UInt8)
  | dupOutput
  | dupInput
  | closeOutput
  | closeInput
  | exit
deriving DecidableEq

section

variable {K : Nat}

/-- The condition of the loop that writes the body. -/
def feed (job : Job) (i : Nat) (c : UInt8) : Parent := if i < job.count then .recv i c else .read

def parentStep (job : Job) (s : State K) : Option (State K) :=
  match s.parent with
  | .status => some { s with client := s.client ++ statusLine, parent := .closeOutput }
  | .closeOutput =>
    some
      { s with
        parentEnds := { s.parentEnds with outputWrite := s.parentEnds.outputWrite - 1 }
        parent := .closeInput }
  | .closeInput =>
    some
      { s with
        parentEnds := { s.parentEnds with inputRead := s.parentEnds.inputRead - 1 }
        parent := feed job 0 job.c }
  | .recv i c =>
    match s.sock with
    | [] => some { s with parent := .write i c }
    | d :: sock => some { s with sock := sock, parent := .write i d }
  | .write i c =>
    if s.parentEnds.inputRead + s.childEnds.inputRead = 0 then
      some { s with parent := .killed, parentEnds := ⟨0, 0, 0, 0⟩ }
    else (s.input.write [c]).map fun input => { s with input := input, parent := feed job (i + 1) c }
  | .read =>
    match s.output.bytes with
    | c :: _ => some { s with output := s.output.read 1, parent := .send c }
    | [] =>
      if s.parentEnds.outputWrite + s.childEnds.outputWrite = 0 then some { s with parent := .closeOutputRead }
      else none
  | .send c => some { s with client := s.client ++ [c], parent := .read }
  | .closeOutputRead =>
    some
      { s with
        parentEnds := { s.parentEnds with outputRead := s.parentEnds.outputRead - 1 }
        parent := .closeInputWrite }
  | .closeInputWrite =>
    some { s with parentEnds := { s.parentEnds with inputWrite := s.parentEnds.inputWrite - 1 }, parent := .wait }
  | .wait => if s.child = .exited then some { s with parent := .returned } else none
  | .returned => none
  | .killed => none

def childStep (s : State K) : Option (State K) :=
  match s.child with
  | .status => some { s with client := s.client ++ statusLine, child := .dupOutput }
  | .dupOutput =>
    some
      { s with
        childEnds := { s.childEnds with outputWrite := s.childEnds.outputWrite + 1 }
        child := .dupInput }
  | .dupInput =>
    some
      { s with
        childEnds := { s.childEnds with inputRead := s.childEnds.inputRead + 1 }
        child := .closeOutputRead }
  | .closeOutputRead =>
    some
      { s with
        childEnds := { s.childEnds with outputRead := s.childEnds.outputRead - 1 }
        child := .closeInputWrite }
  | .closeInputWrite =>
    some { s with childEnds := { s.childEnds with inputWrite := s.childEnds.inputWrite - 1 }, child := .exec }
  | .flush [] => some { s with child := .exited, childEnds := ⟨0, 0, 0, 0⟩ }
  | .flush (c :: left) =>
    -- without a reader `SIGPIPE` ends it
    if s.parentEnds.outputRead + s.childEnds.outputRead = 0 then
      some { s with child := .exited, childEnds := ⟨0, 0, 0, 0⟩ }
    else (s.output.write [c]).map fun output => { s with output := output, child := .flush left }
  | _ => none

/-- `execl`, or `exit` where it fails. -/
def execStep (job : Job) (ok : Bool) (s : State K) : Option (State K) :=
  if s.child = .exec then
    if ok then some { s with child := .script } else some { s with child := .flush job.stdio }
  else none

/-- What the script does, and after its end the processes that it started. -/
def scriptStep (s : State K) : Event → Option (State K)
  | .read n =>
    if 0 < s.childEnds.inputRead ∧ s.input.bytes ≠ [] then some { s with input := s.input.read n } else none
  | .eof =>
    if 0 < s.childEnds.inputRead ∧ s.input.bytes = [] ∧
      s.parentEnds.inputWrite + s.childEnds.inputWrite = 0 then some s
    else none
  | .write bytes =>
    if 0 < s.childEnds.outputWrite ∧ bytes ≠ [] ∧ 0 < s.parentEnds.outputRead + s.childEnds.outputRead then
      (s.output.write bytes).map fun output => { s with output := output }
    else none
  | .dupOutput =>
    if 0 < s.childEnds.outputWrite then
      some { s with childEnds := { s.childEnds with outputWrite := s.childEnds.outputWrite + 1 } }
    else none
  | .dupInput =>
    if 0 < s.childEnds.inputRead then
      some { s with childEnds := { s.childEnds with inputRead := s.childEnds.inputRead + 1 } }
    else none
  | .closeOutput => some { s with childEnds := { s.childEnds with outputWrite := s.childEnds.outputWrite - 1 } }
  | .closeInput => some { s with childEnds := { s.childEnds with inputRead := s.childEnds.inputRead - 1 } }
  | .exit => if s.child = .script then some { s with child := .exited } else none
  | _ => none

def step (job : Job) (s : State K) : Event → Option (State K)
  | .parent => parentStep job s
  | .child => childStep s
  | .exec ok => execStep job ok s
  | e => if s.child = .script ∨ s.child = .exited then scriptStep s e else none

/-- `e` takes `s` to `t`. -/
def Step (job : Job) (s : State K) (e : Event) (t : State K) : Prop := step job s e = some t

/-! ## The invariant -/

/-- The status lines that were sent. -/
def Parent.lines : Parent → List UInt8
  | .status => []
  | _ => statusLine

def Child.lines : Child → List UInt8
  | .status => []
  | _ => statusLine

def statusLines (s : State K) : List UInt8 := s.parent.lines ++ s.child.lines

/-- The last of the first `i` bytes of the body. -/
def lastByte (job : Job) (i : Nat) : UInt8 := (job.body.take i).getLast?.getD job.c

/-- What `i` turns of the loop write: the body, and its last byte again and again where it is too short. -/
def bodyBytes (job : Job) (i : Nat) : List UInt8 := (List.range i).map fun k => lastByte job (k + 1)

/-- What was read of the script's output and is still to be sent. -/
def Parent.hand : Parent → List UInt8
  | .send c => [c]
  | _ => []

/-- It is done with the body. -/
def Parent.reads : Parent → Bool
  | .read | .send _ | .closeOutputRead | .closeInputWrite | .wait | .returned => true
  | _ => false

/-- It met the end of the script's output. -/
def Parent.metEnd : Parent → Bool
  | .closeOutputRead | .closeInputWrite | .wait | .returned => true
  | _ => false

/-- It has its end of the script's input. -/
def Parent.holdsInput : Parent → Bool
  | .wait | .returned | .killed => false
  | _ => true

def Child.started (c : Child) : Prop := c = .script ∨ c = .exited

/-- It has written nothing to the pipe yet. -/
def Child.silent : Child → Bool
  | .flush _ | .script | .exited => false
  | _ => true

/-- The body, as far as it was written. -/
def Fed (job : Job) (s : State K) : Prop :=
  match s.parent with
  | .status | .closeOutput | .closeInput => s.input.written = [] ∧ s.sock = job.body
  | .recv i c =>
    i < job.count ∧ s.input.written = bodyBytes job i ∧ s.sock = job.body.drop i ∧ c = lastByte job i
  | .write i c =>
    i < job.count ∧ s.input.written = bodyBytes job i ∧ s.sock = job.body.drop (i + 1) ∧ c = lastByte job (i + 1)
  | .killed => 0 < job.count ∧ ∃ i, i ≤ job.count ∧ s.input.written = bodyBytes job i
  | _ => s.input.written = bodyBytes job job.count

structure Inv (job : Job) (s : State K) : Prop where
  client : ∃ relayed, s.client = statusLines s ++ relayed ∧ relayed ++ s.parent.hand = s.output.taken
  silent : s.child.silent = true → s.output.written = []
  unread : s.parent.reads = false → s.output.taken = []
  ended : s.parent.metEnd = true → s.output.bytes = [] ∧ s.parentEnds.outputWrite + s.childEnds.outputWrite = 0
  begun : ¬s.child.started → 0 < s.childEnds.outputWrite
  inputOpen : s.parent.holdsInput = true → 0 < s.parentEnds.inputWrite
  waited : s.parent = .returned → s.child = .exited
  fed : Fed job s

theorem inv_start (job : Job) : Inv job (start job : State K) where
  client := ⟨[], rfl, rfl⟩
  silent := fun _ => rfl
  unread := fun _ => rfl
  ended := fun h => nomatch h
  begun := fun _ => Nat.zero_lt_one
  inputOpen := fun _ => Nat.zero_lt_one
  waited := fun h => nomatch h
  fed := ⟨rfl, rfl⟩

theorem bodyBytes_succ (job : Job) (i : Nat) :
    bodyBytes job (i + 1) = bodyBytes job i ++ [lastByte job (i + 1)] := by
  unfold bodyBytes
  rw [List.range_succ, List.map_append]
  rfl

theorem bodyBytes_mono (job : Job) {i n : Nat} (h : i ≤ n) : bodyBytes job i <+: bodyBytes job n := by
  obtain ⟨k, rfl⟩ := Nat.exists_eq_add_of_le h
  unfold bodyBytes
  rw [List.range_add, List.map_append]
  exact List.prefix_append _ _

theorem length_bodyBytes (job : Job) (i : Nat) : (bodyBytes job i).length = i := by
  unfold bodyBytes
  rw [List.length_map, List.length_range]

/-- A turn of `recv`. -/
theorem lastByte_succ {job : Job} {i : Nat} {sock : List UInt8} (h : sock = job.body.drop i) :
    (sock = [] → lastByte job (i + 1) = lastByte job i ∧ job.body.drop (i + 1) = []) ∧
      ∀ d rest, sock = d :: rest → lastByte job (i + 1) = d ∧ rest = job.body.drop (i + 1) := by
  subst h
  constructor
  · intro hnil
    have hlen := List.drop_eq_nil_iff.1 hnil
    unfold lastByte
    rw [List.take_of_length_le hlen, List.take_of_length_le (Nat.le_succ_of_le hlen)]
    exact ⟨rfl, List.drop_eq_nil_of_le (Nat.le_succ_of_le hlen)⟩
  · intro d rest hcons
    have hlt : i < job.body.length := by
      by_contra h
      rw [List.drop_eq_nil_of_le (Nat.le_of_not_lt h)] at hcons
      cases hcons
    rw [List.drop_eq_getElem_cons hlt] at hcons
    obtain ⟨h1, h2⟩ := List.cons.inj hcons
    unfold lastByte
    rw [List.take_succ_eq_append_getElem hlt, List.getLast?_concat, h1]
    exact ⟨rfl, h2.symm⟩

/-- Behind the last byte the loop ends. -/
theorem fed_feed {job : Job} {i : Nat} {c : UInt8} {s : State K} (hi : i ≤ job.count)
    (hwritten : s.input.written = bodyBytes job i) (hsock : s.sock = job.body.drop i) (hc : c = lastByte job i) :
    Fed job { s with parent := feed job i c } := by
  unfold feed
  split
  · next h => exact ⟨h, hwritten, hsock, hc⟩
  · next h =>
    obtain rfl : i = job.count := by omega
    exact hwritten

/-! ## The steps -/

variable {job : Job} {s t : State K}

/-- A step of the server that does not read of the script and sends nothing. -/
theorem inv_quiet {p q : Parent} {sock : List UInt8} {input : Pipe K} {ends : Ends} (h : Inv job s)
    (hp : s.parent = q)
    (hlines : q.lines = p.lines) (hhand : q.hand = p.hand) (hreads : p.reads = false → q.reads = false)
    (hended : p.metEnd = true → s.output.bytes = [] ∧ ends.outputWrite + s.childEnds.outputWrite = 0)
    (hinput : p.holdsInput = true → 0 < ends.inputWrite) (hwaited : p = .returned → s.child = .exited)
    (hfed : Fed job { s with parent := p, sock := sock, input := input, parentEnds := ends }) :
    Inv job { s with parent := p, sock := sock, input := input, parentEnds := ends } where
  client := by
    obtain ⟨relayed, h1, h2⟩ := h.client
    rw [hp, hhand] at h2
    refine ⟨relayed, ?_, h2⟩
    show s.client = (p.lines ++ s.child.lines) ++ relayed
    rw [← hlines, ← hp]
    exact h1
  silent := h.silent
  unread := fun hr => h.unread (by rw [hp]; exact hreads hr)
  ended := hended
  begun := h.begun
  inputOpen := hinput
  waited := hwaited
  fed := hfed

/-- A step to the condition of the loop over the body. -/
theorem inv_feed {i : Nat} {c : UInt8} {q : Parent} {input : Pipe K} {ends : Ends} (h : Inv job s)
    (hp : s.parent = q)
    (hlines : q.lines = statusLine) (hhand : q.hand = []) (hreads : q.reads = false) (hinput : 0 < ends.inputWrite)
    (hi : i ≤ job.count) (hwritten : input.written = bodyBytes job i) (hsock : s.sock = job.body.drop i)
    (hc : c = lastByte job i) : Inv job { s with parent := feed job i c, input := input, parentEnds := ends } := by
  have hfeed := @fed_feed K job i c { s with input := input, parentEnds := ends } hi hwritten hsock hc
  unfold feed at hfeed ⊢
  split at hfeed
  · next hlt =>
    rw [if_pos hlt]
    exact inv_quiet h hp hlines hhand (fun _ => hreads) (fun hp => nomatch hp) (fun _ => hinput)
      (fun hp => nomatch hp) hfeed
  · next hlt =>
    rw [if_neg hlt]
    exact inv_quiet h hp hlines hhand (fun hp => nomatch hp) (fun hp => nomatch hp) (fun _ => hinput)
      (fun hp => nomatch hp) hfeed

theorem inv_parent (h : Inv job s) (hs : parentStep job s = some t) : Inv job t := by
  have hfed := h.fed
  have hended := h.ended
  have hopen := h.inputOpen
  unfold parentStep at hs
  unfold Fed at hfed
  cases hp : s.parent with
  | status =>
    rw [hp] at hs hfed hopen
    obtain rfl := Option.some.inj hs
    obtain ⟨relayed, h1, h2⟩ := h.client
    have hunread := h.unread (by rw [hp]; rfl)
    rw [hunread] at h2
    obtain rfl := (List.append_eq_nil_iff.1 h2).1
    refine ⟨⟨[], ?_, ?_⟩, h.silent, fun _ => hunread, fun hp => (nomatch hp), h.begun, fun _ => hopen rfl,
      fun hp => (nomatch hp), hfed⟩
    · rw [statusLines, hp] at h1
      show s.client ++ statusLine = (statusLine ++ s.child.lines) ++ []
      rw [h1]
      cases s.child with
      | status => rfl
      | _ => rfl
    · exact hunread.symm
  | closeOutput =>
    rw [hp] at hs hfed hopen
    obtain rfl := Option.some.inj hs
    exact inv_quiet h hp rfl rfl id (fun hp => nomatch hp) (fun _ => hopen rfl) (fun hp => nomatch hp) hfed
  | closeInput =>
    rw [hp] at hs hfed hopen
    obtain rfl := Option.some.inj hs
    exact inv_feed h hp rfl rfl rfl (hopen rfl) (Nat.zero_le _) hfed.1 hfed.2 rfl
  | recv i c =>
    rw [hp] at hs hfed hopen
    obtain ⟨hi, hwritten, hsock, hc⟩ := hfed
    obtain ⟨hnil, hcons⟩ := lastByte_succ hsock
    dsimp only at hs
    split at hs
    · next hempty =>
      obtain rfl := Option.some.inj hs
      obtain ⟨h1, h2⟩ := hnil hempty
      exact inv_quiet h hp rfl rfl id (fun hp => nomatch hp) (fun _ => hopen rfl) (fun hp => nomatch hp)
        ⟨hi, hwritten, hempty.trans h2.symm, hc.trans h1.symm⟩
    · next d rest hrest =>
      obtain rfl := Option.some.inj hs
      obtain ⟨h1, h2⟩ := hcons d rest hrest
      exact inv_quiet h hp rfl rfl id (fun hp => nomatch hp) (fun _ => hopen rfl) (fun hp => nomatch hp)
        ⟨hi, hwritten, h2, h1.symm⟩
  | write i c =>
    rw [hp] at hs hfed hopen
    obtain ⟨hi, hwritten, hsock, hc⟩ := hfed
    dsimp only at hs
    split at hs
    · obtain rfl := Option.some.inj hs
      exact inv_quiet h hp rfl rfl id (fun hp => nomatch hp) (fun hp => nomatch hp) (fun hp => nomatch hp)
        ⟨Nat.zero_lt_of_lt hi, i, Nat.le_of_lt hi, hwritten⟩
    · obtain ⟨input, hwrite, rfl⟩ := Option.map_eq_some_iff.1 hs
      obtain ⟨-, -, hnew⟩ := write_spec hwrite
      exact inv_feed h hp rfl rfl rfl (hopen rfl) hi (by rw [hnew, hwritten, hc, ← bodyBytes_succ]) hsock hc
  | read =>
    rw [hp] at hs hfed hopen
    dsimp only at hs
    split at hs
    · next c rest hbytes =>
      obtain rfl := Option.some.inj hs
      obtain ⟨relayed, h1, h2⟩ := h.client
      rw [hp] at h2
      refine ⟨⟨relayed, ?_, ?_⟩, fun hsilent => ?_, fun hp => (nomatch hp), fun hp => (nomatch hp),
        h.begun, fun _ => hopen rfl, fun hp => (nomatch hp), hfed⟩
      · rw [statusLines, hp] at h1
        exact h1
      · show relayed ++ [c] = (s.output.read 1).taken
        rw [(read_one hbytes).1, ← h2]
        show relayed ++ [c] = (relayed ++ []) ++ [c]
        rw [List.append_nil]
      · exact (written_read _ 1).trans (h.silent hsilent)
    · next hbytes =>
      split at hs
      · next hwriters =>
        obtain rfl := Option.some.inj hs
        exact inv_quiet h hp rfl rfl (fun hp => nomatch hp) (fun _ => ⟨hbytes, hwriters⟩) (fun _ => hopen rfl)
          (fun hp => nomatch hp) hfed
      · cases hs
  | send c =>
    rw [hp] at hs hfed hopen
    obtain rfl := Option.some.inj hs
    obtain ⟨relayed, h1, h2⟩ := h.client
    rw [hp] at h2
    refine ⟨⟨relayed ++ [c], ?_, ?_⟩, h.silent, fun hp => (nomatch hp), fun hp => (nomatch hp), h.begun,
      fun _ => hopen rfl, fun hp => (nomatch hp), hfed⟩
    · rw [statusLines, hp] at h1
      show s.client ++ [c] = _
      rw [h1, List.append_assoc]
      rfl
    · show (relayed ++ [c]) ++ [] = s.output.taken
      rw [List.append_nil]
      exact h2
  | closeOutputRead =>
    rw [hp] at hs hfed hopen hended
    obtain rfl := Option.some.inj hs
    exact inv_quiet h hp rfl rfl (fun hp => nomatch hp) (fun _ => hended rfl) (fun _ => hopen rfl)
      (fun hp => nomatch hp) hfed
  | closeInputWrite =>
    rw [hp] at hs hfed hended
    obtain rfl := Option.some.inj hs
    exact inv_quiet h hp rfl rfl (fun hp => nomatch hp) (fun _ => hended rfl) (fun hp => nomatch hp)
      (fun hp => nomatch hp) hfed
  | wait =>
    rw [hp] at hs hfed hended
    dsimp only at hs
    split at hs
    · next hexited =>
      obtain rfl := Option.some.inj hs
      exact inv_quiet h hp rfl rfl (fun hp => nomatch hp) (fun _ => hended rfl) (fun hp => nomatch hp)
        (fun _ => hexited) hfed
    · cases hs
  | returned =>
    rw [hp] at hs
    cases hs
  | killed =>
    rw [hp] at hs
    cases hs

theorem not_silent_lines {c : Child} (h : c.silent = false) : c.lines = statusLine := by
  cases c with
  | status => cases h
  | _ => rfl

theorem Child.started.not_silent {c : Child} (h : c.started) : c.silent = false := by
  rcases h with rfl | rfl
  · rfl
  · rfl

theorem started_lines {c : Child} (h : c.started) : c.lines = statusLine := not_silent_lines h.not_silent

/-- Before the child is the script it holds the output, so that the server meets no end. -/
theorem Inv.metEnd_false (h : Inv job s) (hs : ¬s.child.started) : s.parent.metEnd = false := by
  rw [← Bool.not_eq_true]
  intro hend
  have hzero := (h.ended hend).2
  have hpos := h.begun hs
  omega

/-- A step of the child that sends nothing. -/
theorem inv_unstarted {c : Child} {output : Pipe K} {ends : Ends} (h : Inv job s) (hs : ¬s.child.started)
    (hlines : s.child.lines = c.lines) (htaken : output.taken = s.output.taken)
    (hsilent : c.silent = true → output.written = []) (hbegun : ¬c.started → 0 < ends.outputWrite) :
    Inv job { s with child := c, output := output, childEnds := ends } where
  client := by
    obtain ⟨relayed, h1, h2⟩ := h.client
    refine ⟨relayed, ?_, h2.trans htaken.symm⟩
    show s.client = (s.parent.lines ++ c.lines) ++ relayed
    rw [← hlines]
    exact h1
  silent := hsilent
  unread := fun hr => htaken.trans (h.unread hr)
  ended := fun hend => absurd (h.metEnd_false hs) (by rw [hend]; exact Bool.noConfusion)
  begun := hbegun
  inputOpen := h.inputOpen
  waited := fun hp => absurd (h.metEnd_false hs) (by rw [hp]; exact Bool.noConfusion)
  fed := h.fed

theorem inv_child (h : Inv job s) (hs : childStep s = some t) : Inv job t := by
  have hne (c : Child) (hc : s.child = c) (h1 : c ≠ .script) (h2 : c ≠ .exited) : ¬s.child.started := by
    rw [hc]
    rintro (h | h)
    · exact h1 h
    · exact h2 h
  have hsilent := h.silent
  unfold childStep at hs
  cases hc : s.child with
  | status =>
    have hs' := hne _ hc (by decide) (by decide)
    rw [hc] at hs hsilent
    obtain rfl := Option.some.inj hs
    obtain ⟨relayed, h1, h2⟩ := h.client
    -- nothing is written, so that nothing was relayed
    have hwritten := hsilent rfl
    rw [Pipe.written, ← h2, List.append_assoc] at hwritten
    obtain rfl := (List.append_eq_nil_iff.1 hwritten).1
    refine ⟨⟨[], ?_, h2⟩, fun _ => hsilent rfl, h.unread,
      fun hend => absurd (h.metEnd_false hs') (by rw [hend]; exact Bool.noConfusion),
        fun _ => h.begun hs', h.inputOpen,
      fun hp => absurd (h.metEnd_false hs') (by rw [hp]; exact Bool.noConfusion), h.fed⟩
    rw [statusLines, hc] at h1
    show s.client ++ statusLine = (s.parent.lines ++ statusLine) ++ []
    rw [h1]
    show ((s.parent.lines ++ []) ++ []) ++ statusLine = _
    rw [List.append_nil, List.append_nil, List.append_nil]
  | dupOutput =>
    have hs' := hne _ hc (by decide) (by decide)
    rw [hc] at hs hsilent
    obtain rfl := Option.some.inj hs
    exact inv_unstarted h hs' (by rw [hc]; rfl) rfl (fun _ => hsilent rfl) fun _ => Nat.succ_pos _
  | dupInput =>
    have hs' := hne _ hc (by decide) (by decide)
    rw [hc] at hs hsilent
    obtain rfl := Option.some.inj hs
    exact inv_unstarted h hs' (by rw [hc]; rfl) rfl (fun _ => hsilent rfl) fun _ => h.begun hs'
  | closeOutputRead =>
    have hs' := hne _ hc (by decide) (by decide)
    rw [hc] at hs hsilent
    obtain rfl := Option.some.inj hs
    exact inv_unstarted h hs' (by rw [hc]; rfl) rfl (fun _ => hsilent rfl) fun _ => h.begun hs'
  | closeInputWrite =>
    have hs' := hne _ hc (by decide) (by decide)
    rw [hc] at hs hsilent
    obtain rfl := Option.some.inj hs
    exact inv_unstarted h hs' (by rw [hc]; rfl) rfl (fun _ => hsilent rfl) fun _ => h.begun hs'
  | flush left =>
    have hs' := hne _ hc Child.noConfusion Child.noConfusion
    have hexited : Inv job { s with child := .exited, childEnds := ⟨0, 0, 0, 0⟩ } :=
      inv_unstarted h hs' (by rw [hc]; rfl) rfl (fun hsilent => nomatch hsilent) fun hnot => absurd (.inr rfl) hnot
    rw [hc] at hs
    cases left with
    | nil =>
      obtain rfl := Option.some.inj hs
      exact hexited
    | cons c left =>
      dsimp only at hs
      split at hs
      · obtain rfl := Option.some.inj hs
        exact hexited
      · obtain ⟨output, hwrite, rfl⟩ := Option.map_eq_some_iff.1 hs
        exact inv_unstarted h hs' (by rw [hc]; rfl) (write_spec hwrite).1 (fun hsilent => nomatch hsilent)
          fun _ => h.begun hs'
  | exec =>
    rw [hc] at hs
    cases hs
  | script =>
    rw [hc] at hs
    cases hs
  | exited =>
    rw [hc] at hs
    cases hs

theorem inv_exec {ok : Bool} (h : Inv job s) (hs : execStep job ok s = some t) : Inv job t := by
  unfold execStep at hs
  split at hs
  · next hc =>
    have hs' : ¬s.child.started := by
      rw [hc]
      rintro (h | h)
      · cases h
      · cases h
    split at hs
    · obtain rfl := Option.some.inj hs
      exact inv_unstarted h hs' (by rw [hc]; rfl) rfl (fun hsilent => nomatch hsilent) fun hnot =>
        absurd (.inl rfl) hnot
    · obtain rfl := Option.some.inj hs
      exact inv_unstarted h hs' (by rw [hc]; rfl) rfl (fun hsilent => nomatch hsilent) fun _ => h.begun hs'
  · cases hs

theorem fed_congr {s' : State K} (h : Fed job s) (hp : s'.parent = s.parent) (hsock : s'.sock = s.sock)
    (hinput : s'.input.written = s.input.written) : Fed job s' := by
  unfold Fed at h ⊢
  rw [hp, hsock, hinput]
  exact h

/-- A step of the script. -/
theorem inv_started {c : Child} {input output : Pipe K} {ends : Ends} (h : Inv job s) (hs : s.child.started)
    (hc : c.started) (hexited : s.child = .exited → c = .exited) (hinput : input.written = s.input.written)
    (htaken : output.taken = s.output.taken)
    (hended : s.childEnds.outputWrite = 0 → output.bytes = s.output.bytes ∧ ends.outputWrite = 0) :
    Inv job { s with child := c, input := input, output := output, childEnds := ends } where
  client := by
    obtain ⟨relayed, h1, h2⟩ := h.client
    refine ⟨relayed, ?_, h2.trans htaken.symm⟩
    show s.client = (s.parent.lines ++ c.lines) ++ relayed
    rw [started_lines hc, ← started_lines hs]
    exact h1
  silent := fun hsilent => by rw [hc.not_silent] at hsilent; cases hsilent
  unread := fun hr => htaken.trans (h.unread hr)
  ended := fun hend => by
    obtain ⟨h1, h2⟩ := h.ended hend
    obtain ⟨h3, h4⟩ := hended (by omega)
    refine ⟨h3.trans h1, ?_⟩
    show s.parentEnds.outputWrite + ends.outputWrite = 0
    omega
  begun := fun hnot => absurd hc hnot
  inputOpen := h.inputOpen
  waited := fun hp => hexited (h.waited hp)
  fed := fed_congr h.fed rfl rfl hinput

theorem inv_script {e : Event} (h : Inv job s) (hstarted : s.child.started)
    (hs : scriptStep s e = some t) : Inv job t := by
  cases e with
  | read n =>
    obtain ⟨-, hs⟩ := Option.ite_none_right_eq_some.1 hs
    obtain rfl := Option.some.inj hs
    exact inv_started h hstarted hstarted id (written_read _ n) rfl fun hz => ⟨rfl, hz⟩
  | eof =>
    obtain ⟨-, hs⟩ := Option.ite_none_right_eq_some.1 hs
    obtain rfl := Option.some.inj hs
    exact h
  | write bytes =>
    obtain ⟨hw, hs⟩ := Option.ite_none_right_eq_some.1 hs
    obtain ⟨output, hwrite, rfl⟩ := Option.map_eq_some_iff.1 hs
    exact inv_started h hstarted hstarted id rfl (write_spec hwrite).1 fun hz => absurd hz (Nat.ne_of_gt hw.1)
  | dupOutput =>
    obtain ⟨hw, hs⟩ := Option.ite_none_right_eq_some.1 hs
    obtain rfl := Option.some.inj hs
    exact inv_started h hstarted hstarted id rfl rfl fun hz => absurd hz (Nat.ne_of_gt hw)
  | dupInput =>
    obtain ⟨-, hs⟩ := Option.ite_none_right_eq_some.1 hs
    obtain rfl := Option.some.inj hs
    exact inv_started h hstarted hstarted id rfl rfl fun hz => ⟨rfl, hz⟩
  | closeOutput =>
    obtain rfl := Option.some.inj hs
    exact inv_started h hstarted hstarted id rfl rfl fun hz => ⟨rfl, by show _ - 1 = 0; omega⟩
  | closeInput =>
    obtain rfl := Option.some.inj hs
    exact inv_started h hstarted hstarted id rfl rfl fun hz => ⟨rfl, hz⟩
  | exit =>
    obtain ⟨-, hs⟩ := Option.ite_none_right_eq_some.1 hs
    obtain rfl := Option.some.inj hs
    exact inv_started h hstarted (.inr rfl) (fun _ => rfl) rfl rfl fun hz => ⟨rfl, hz⟩
  | parent => cases hs
  | child => cases hs
  | exec ok => cases hs

theorem step_started {e : Event} (hs : Step job s e t) :
    e = .parent ∧ parentStep job s = some t ∨ e = .child ∧ childStep s = some t ∨
      (∃ ok, e = .exec ok ∧ execStep job ok s = some t) ∨ s.child.started ∧ scriptStep s e = some t := by
  have hscript (h : (if s.child = .script ∨ s.child = .exited then scriptStep s e else none) = some t) :
      s.child.started ∧ scriptStep s e = some t := Option.ite_none_right_eq_some.1 h
  cases e with
  | parent => exact .inl ⟨rfl, hs⟩
  | child => exact .inr (.inl ⟨rfl, hs⟩)
  | exec ok => exact .inr (.inr (.inl ⟨ok, rfl, hs⟩))
  | read n => exact .inr (.inr (.inr (hscript hs)))
  | eof => exact .inr (.inr (.inr (hscript hs)))
  | write bytes => exact .inr (.inr (.inr (hscript hs)))
  | dupOutput => exact .inr (.inr (.inr (hscript hs)))
  | dupInput => exact .inr (.inr (.inr (hscript hs)))
  | closeOutput => exact .inr (.inr (.inr (hscript hs)))
  | closeInput => exact .inr (.inr (.inr (hscript hs)))
  | exit => exact .inr (.inr (.inr (hscript hs)))

theorem inv_step {e : Event} (h : Inv job s) (hs : Step job s e t) : Inv job t := by
  rcases step_started hs with ⟨-, hs⟩ | ⟨-, hs⟩ | ⟨ok, -, hs⟩ | ⟨hstarted, hs⟩
  · exact inv_parent h hs
  · exact inv_child h hs
  · exact inv_exec h hs
  · exact inv_script h hstarted hs

theorem inv_run {es : List Event} (hr : Run (Step job) (start job) es s) : Inv job s :=
  hr.invariant (Inv job) (fun _ _ _ => inv_step) (inv_start job)

/-! ## What a step leaves alone -/

/-- The server's own steps. -/
theorem parentStep_frame (hs : parentStep job s = some t) :
    t.child = s.child ∧ t.childEnds = s.childEnds ∧ t.output.written = s.output.written := by
  unfold parentStep at hs
  split at hs
  all_goals try (obtain rfl := Option.some.inj hs; exact ⟨rfl, rfl, rfl⟩)
  · split at hs
    · obtain rfl := Option.some.inj hs
      exact ⟨rfl, rfl, rfl⟩
    · obtain rfl := Option.some.inj hs
      exact ⟨rfl, rfl, rfl⟩
  · split at hs
    · obtain rfl := Option.some.inj hs
      exact ⟨rfl, rfl, rfl⟩
    · obtain ⟨input, -, rfl⟩ := Option.map_eq_some_iff.1 hs
      exact ⟨rfl, rfl, rfl⟩
  · split at hs
    · obtain rfl := Option.some.inj hs
      exact ⟨rfl, rfl, written_read _ 1⟩
    · obtain ⟨-, hs⟩ := Option.ite_none_right_eq_some.1 hs
      obtain rfl := Option.some.inj hs
      exact ⟨rfl, rfl, rfl⟩
  · obtain ⟨-, hs⟩ := Option.ite_none_right_eq_some.1 hs
    obtain rfl := Option.some.inj hs
    exact ⟨rfl, rfl, rfl⟩
  · cases hs
  · cases hs

theorem childStep_frame (hs : childStep s = some t) : t.parent = s.parent ∧ t.parentEnds = s.parentEnds := by
  unfold childStep at hs
  split at hs
  all_goals try (obtain rfl := Option.some.inj hs; exact ⟨rfl, rfl⟩)
  · split at hs
    · obtain rfl := Option.some.inj hs
      exact ⟨rfl, rfl⟩
    · obtain ⟨output, -, rfl⟩ := Option.map_eq_some_iff.1 hs
      exact ⟨rfl, rfl⟩
  · cases hs

theorem scriptStep_frame {e : Event} (hs : scriptStep s e = some t) :
    t.parent = s.parent ∧ t.parentEnds = s.parentEnds := by
  unfold scriptStep at hs
  split at hs
  all_goals try (obtain rfl := Option.some.inj (Option.ite_none_right_eq_some.1 hs).2; exact ⟨rfl, rfl⟩)
  all_goals try (obtain rfl := Option.some.inj hs; exact ⟨rfl, rfl⟩)
  · obtain ⟨output, -, rfl⟩ := Option.map_eq_some_iff.1 (Option.ite_none_right_eq_some.1 hs).2
    exact ⟨rfl, rfl⟩
  · cases hs

theorem parent_of_ne {e : Event} (he : e ≠ .parent) (hs : Step job s e t) :
    t.parent = s.parent ∧ t.parentEnds = s.parentEnds := by
  rcases step_started hs with ⟨rfl, -⟩ | ⟨-, hs⟩ | ⟨ok, -, hs⟩ | ⟨-, hs⟩
  · exact absurd rfl he
  · exact childStep_frame hs
  · obtain ⟨-, hs⟩ := Option.ite_none_right_eq_some.1 hs
    split at hs
    · rw [← Option.some.inj hs]
      exact ⟨rfl, rfl⟩
    · rw [← Option.some.inj hs]
      exact ⟨rfl, rfl⟩
  · exact scriptStep_frame hs

/-- A server that was killed does nothing more. -/
theorem killed_step {e : Event} (hs : Step job s e t) (hk : s.parent = .killed) : t.parent = .killed := by
  by_cases he : e = .parent
  · subst he
    have hs : parentStep job s = some t := hs
    unfold parentStep at hs
    rw [hk] at hs
    cases hs
  · rw [(parent_of_ne he hs).1, hk]

/-! ## A script that cannot be executed -/

/-- Up to the end of the output the server holds the end that it reads. -/
def Reads (s : State K) : Prop := s.parent = .killed ∨ s.parent.metEnd = true ∨ 0 < s.parentEnds.outputRead

theorem reads_parentStep (hs : parentStep job s = some t) (h : Reads s) : Reads t := by
  unfold parentStep at hs
  cases hp : s.parent with
  | status | closeOutput | closeInput | send =>
    rw [hp] at hs
    obtain rfl := Option.some.inj hs
    unfold Reads at h
    rw [hp] at h
    exact .inr (.inr ((h.resolve_left Parent.noConfusion).resolve_left Bool.noConfusion))
  | closeOutputRead | closeInputWrite =>
    rw [hp] at hs
    obtain rfl := Option.some.inj hs
    exact .inr (.inl rfl)
  | recv i c =>
    rw [hp] at hs
    unfold Reads at h
    rw [hp] at h
    have hends := (h.resolve_left Parent.noConfusion).resolve_left Bool.noConfusion
    dsimp only at hs
    split at hs
    · obtain rfl := Option.some.inj hs
      exact .inr (.inr hends)
    · obtain rfl := Option.some.inj hs
      exact .inr (.inr hends)
  | write i c =>
    rw [hp] at hs
    unfold Reads at h
    rw [hp] at h
    dsimp only at hs
    split at hs
    · obtain rfl := Option.some.inj hs
      exact .inl rfl
    · obtain ⟨input, -, rfl⟩ := Option.map_eq_some_iff.1 hs
      exact .inr (.inr ((h.resolve_left Parent.noConfusion).resolve_left Bool.noConfusion))
  | read =>
    rw [hp] at hs
    unfold Reads at h
    rw [hp] at h
    dsimp only at hs
    split at hs
    · obtain rfl := Option.some.inj hs
      exact .inr (.inr ((h.resolve_left Parent.noConfusion).resolve_left Bool.noConfusion))
    · obtain rfl := Option.some.inj (Option.ite_none_right_eq_some.1 hs).2
      exact .inr (.inl rfl)
  | wait =>
    rw [hp] at hs
    obtain rfl := Option.some.inj (Option.ite_none_right_eq_some.1 hs).2
    exact .inr (.inl rfl)
  | returned | killed =>
    rw [hp] at hs
    cases hs

theorem reads_step {e : Event} (hs : Step job s e t) (h : Reads s) : Reads t := by
  by_cases he : e = .parent
  · subst he
    exact reads_parentStep hs h
  · obtain ⟨h1, h2⟩ := parent_of_ne he hs
    unfold Reads
    rw [h1, h2]
    exact h

/-- How far the flush of the child has come: its bytes are all written, or the server was killed on
the way. -/
inductive Flushed (job : Job) (s : State K) : Prop
  | on (left : List UInt8) : s.child = .flush left → s.output.written ++ left = job.stdio → Flushed job s
  | all : s.child = .exited → s.childEnds = ⟨0, 0, 0, 0⟩ → s.output.written = job.stdio → Flushed job s
  | cut : s.child = .exited → s.childEnds = ⟨0, 0, 0, 0⟩ → s.parent = .killed → s.output.written <+: job.stdio →
      Flushed job s

/-- Without descriptors nothing is done any more. -/
theorem closed_step {e : Event} (hc : s.child = .exited) (hends : s.childEnds = ⟨0, 0, 0, 0⟩)
    (hs : Step job s e t) :
    t.child = .exited ∧ t.childEnds = ⟨0, 0, 0, 0⟩ ∧ t.output.written = s.output.written := by
  rcases step_started hs with ⟨-, hs⟩ | ⟨-, hs⟩ | ⟨ok, -, hs⟩ | ⟨-, hs⟩
  · obtain ⟨h1, h2, h3⟩ := parentStep_frame hs
    exact ⟨h1.trans hc, h2.trans hends, h3⟩
  · unfold childStep at hs
    rw [hc] at hs
    cases hs
  · cases hc.symm.trans (Option.ite_none_right_eq_some.1 hs).1
  · unfold scriptStep at hs
    rw [hends] at hs
    cases e with
    | read n | eof | write bytes | dupOutput | dupInput =>
      exact absurd (Option.ite_none_right_eq_some.1 hs).1 (by simp)
    | closeOutput | closeInput =>
      obtain rfl := Option.some.inj hs
      exact ⟨hc, rfl, rfl⟩
    | exit => cases hc.symm.trans (Option.ite_none_right_eq_some.1 hs).1
    | parent | child | exec => cases hs

theorem flushed_step {e : Event} (h : Inv job s) (hr : Reads s) (hf : Flushed job s) (hs : Step job s e t) :
    Flushed job t := by
  cases hf with
  | all hc hends hwritten =>
    obtain ⟨h1, h2, h3⟩ := closed_step hc hends hs
    exact .all h1 h2 (h3.trans hwritten)
  | cut hc hends hk hwritten =>
    obtain ⟨h1, h2, h3⟩ := closed_step hc hends hs
    exact .cut h1 h2 (killed_step hs hk) (h3 ▸ hwritten)
  | on left hc hwritten =>
    have hnot : ¬s.child.started := by
      rw [hc]
      rintro (h | h)
      · cases h
      · cases h
    rcases step_started hs with ⟨-, hs⟩ | ⟨-, hs⟩ | ⟨ok, -, hs⟩ | ⟨hstarted, -⟩
    · obtain ⟨h1, -, h3⟩ := parentStep_frame hs
      exact .on left (h1.trans hc) (by rw [h3, hwritten])
    · unfold childStep at hs
      rw [hc] at hs
      cases left with
      | nil =>
        obtain rfl := Option.some.inj hs
        exact .all rfl rfl (by rw [← hwritten, List.append_nil])
      | cons c left =>
        dsimp only at hs
        split at hs
        · next hzero =>
          obtain rfl := Option.some.inj hs
          refine .cut rfl rfl (hr.resolve_right ?_) ⟨c :: left, hwritten⟩
          rintro (hend | hpos)
          · rw [h.metEnd_false hnot] at hend
            cases hend
          · omega
        · obtain ⟨output, hwrite, rfl⟩ := Option.map_eq_some_iff.1 hs
          refine .on left rfl ?_
          show output.written ++ left = job.stdio
          rw [(write_spec hwrite).2.2, List.append_assoc]
          exact hwritten
    · cases hc.symm.trans (Option.ite_none_right_eq_some.1 hs).1
    · exact absurd hstarted hnot

/-- What is written to the pipe if the script cannot be executed. -/
theorem run_failed {es : List Event} (hr : Run (Step job) (start job) es s) (hfailed : .exec false ∈ es) :
    Inv job s ∧ Flushed job s := by
  obtain ⟨es₁, es₂, rfl⟩ := List.append_of_mem hfailed
  obtain ⟨u, h1, h2⟩ := run_append_iff.1 hr
  have hu := h1.invariant (fun s => Inv job s ∧ Reads s) (fun _ _ _ h hs => ⟨inv_step h.1 hs, reads_step hs h.2⟩)
    ⟨inv_start job, .inr (.inr Nat.zero_lt_one)⟩
  cases h2 with
  | @cons _ v _ _ _ hexec hrest =>
    have hfirst : Flushed job v := by
      obtain ⟨hc, hv⟩ := Option.ite_none_right_eq_some.1 hexec
      obtain rfl := Option.some.inj hv
      refine .on job.stdio rfl ?_
      have hwritten := hu.1.silent (by rw [hc]; rfl)
      show u.output.written ++ job.stdio = job.stdio
      rw [hwritten, List.nil_append]
    have hs := hrest.invariant (fun s => (Inv job s ∧ Reads s) ∧ Flushed job s)
      (fun _ _ _ h hs => ⟨⟨inv_step h.1.1 hs, reads_step hs h.1.2⟩, flushed_step h.1.1 h.1.2 h.2 hs⟩)
      ⟨⟨inv_step hu.1 hexec, reads_step hexec hu.2⟩, hfirst⟩
    exact ⟨hs.1.1, hs.2⟩

/-! ## What the client gets -/

theorem fed_written (h : Fed job s) : s.input.written <+: bodyBytes job job.count := by
  unfold Fed at h
  split at h
  · rw [h.1]
    exact List.nil_prefix
  · rw [h.1]
    exact List.nil_prefix
  · rw [h.1]
    exact List.nil_prefix
  · rw [h.2.1]
    exact bodyBytes_mono job (Nat.le_of_lt h.1)
  · rw [h.2.1]
    exact bodyBytes_mono job (Nat.le_of_lt h.1)
  · obtain ⟨-, i, hi, hwritten⟩ := h
    rw [hwritten]
    exact bodyBytes_mono job hi
  · exact ⟨[], by rw [h, List.append_nil]⟩

theorem reads_lines {p : Parent} (h : p.reads = true) : p.lines = statusLine := by
  cases p with
  | status => cases h
  | _ => rfl

/-- **The answer.**  In every run what was relayed of the pipe is behind both status lines, and when the
server is done it is all of it; that is the script's output, or what the server's `stdout` held if the
script could not be executed; and the script reads the body, with its last byte again and again if it
is too short. -/
theorem client_eq {es : List Event} (hr : Run (Step job) (start job) es s) :
    (∃ relayed, s.client = statusLines s ++ relayed ∧ relayed <+: s.output.written ∧
      (relayed ≠ [] → statusLines s = statusLine ++ statusLine)) ∧
      (s.parent = .returned → s.client = (statusLine ++ statusLine) ++ s.output.written) ∧
        (.exec false ∈ es → s.output.written <+: job.stdio ∧
          (s.parent = .returned → s.output.written = job.stdio)) ∧
            s.input.taken <+: bodyBytes job job.count := by
  have hinv := inv_run hr
  obtain ⟨relayed, h1, h2⟩ := hinv.client
  refine ⟨⟨relayed, h1, ?_, fun hne => ?_⟩, fun hp => ?_, fun hfailed => ?_,
    (taken_of_written _).trans (fed_written hinv.fed)⟩
  · exact (h2 ▸ List.prefix_append relayed s.parent.hand).trans (taken_of_written _)
  · have htaken : s.output.taken ≠ [] := by
      rw [← h2]
      exact List.append_ne_nil_of_left_ne_nil hne _
    have hreads : s.parent.reads = true := by
      by_contra hnot
      exact htaken (hinv.unread (eq_false_of_ne_true hnot))
    have hsilent : s.child.silent = false := by
      by_contra hnot
      exact htaken (List.append_eq_nil_iff.1 (hinv.silent (eq_true_of_ne_false hnot))).1
    rw [statusLines, reads_lines hreads, not_silent_lines hsilent]
  · have hend := (hinv.ended (by rw [hp]; rfl)).1
    have hexited := hinv.waited hp
    rw [hp] at h2
    rw [h1, statusLines, hp, hexited, Pipe.written, hend, ← h2, List.append_nil]
    show (statusLine ++ statusLine) ++ relayed = (statusLine ++ statusLine) ++ (relayed ++ [])
    rw [List.append_nil]
  · cases (run_failed hr hfailed).2 with
    | on left hc hwritten =>
      refine ⟨⟨left, hwritten⟩, fun hp => ?_⟩
      rw [hinv.waited hp] at hc
      cases hc
    | all _ _ hwritten => exact ⟨⟨[], by rw [hwritten, List.append_nil]⟩, fun _ => hwritten⟩
    | cut _ _ hk hwritten =>
      refine ⟨hwritten, fun hp => ?_⟩
      rw [hk] at hp
      cases hp

/-- The steps of a script that writes an `x` and is done, and of the server. -/
def answerEvents : List Event :=
  [.parent, .child, .child, .child, .child, .child, .exec true, .write [120], .closeOutput, .closeOutput, .exit,
    .parent, .parent, .parent, .parent, .parent, .parent, .parent, .parent]

theorem client_eq_answer : ∃ s : State 1, Run (Step ⟨[], 0, 0, []⟩) (start ⟨[], 0, 0, []⟩) answerEvents s ∧
    s.client = (statusLine ++ statusLine) ++ [120] := by
  obtain ⟨s, hr, hs⟩ := run_of_exec_map (step ⟨[], 0, 0, []⟩) (start ⟨[], 0, 0, []⟩ : State 1) answerEvents
    (fun s => (s.parent, s.output.written)) (a := (.returned, [120])) (by decide +kernel)
  obtain ⟨hparent, hwritten⟩ := Prod.mk.inj hs
  refine ⟨s, hr, ?_⟩
  rw [(client_eq hr).2.1 hparent, hwritten]

/-! ## The end of the script's input -/

/-- Nobody has an end of the script's output to write to. -/
def Silenced (s : State K) : Prop := s.child.started ∧ s.childEnds.outputWrite = 0

theorem silenced_step {e : Event} (hs : Step job s e t) (h : Silenced s) :
    Silenced t ∧ ∀ bytes, e ≠ .write bytes := by
  obtain ⟨hstarted, hzero⟩ := h
  rcases step_started hs with ⟨rfl, hs⟩ | ⟨-, hs⟩ | ⟨ok, -, hs⟩ | ⟨-, hs⟩
  · obtain ⟨hchild, hends, -⟩ := parentStep_frame hs
    refine ⟨⟨by rw [hchild]; exact hstarted, by rw [hends]; exact hzero⟩, fun bytes h => nomatch h⟩
  · unfold childStep at hs
    rcases hstarted with hc | hc
    · rw [hc] at hs
      cases hs
    · rw [hc] at hs
      cases hs
  · have hc := (Option.ite_none_right_eq_some.1 hs).1
    rcases hstarted with hc' | hc'
    · cases hc.symm.trans hc'
    · cases hc.symm.trans hc'
  · cases e with
    | read n =>
      obtain rfl := Option.some.inj (Option.ite_none_right_eq_some.1 hs).2
      exact ⟨⟨hstarted, hzero⟩, fun bytes h => nomatch h⟩
    | eof =>
      obtain rfl := Option.some.inj (Option.ite_none_right_eq_some.1 hs).2
      exact ⟨⟨hstarted, hzero⟩, fun bytes h => nomatch h⟩
    | write bytes =>
      have hw := (Option.ite_none_right_eq_some.1 hs).1.1
      exact absurd hzero (Nat.ne_of_gt hw)
    | dupOutput =>
      have hw := (Option.ite_none_right_eq_some.1 hs).1
      exact absurd hzero (Nat.ne_of_gt hw)
    | dupInput =>
      obtain rfl := Option.some.inj (Option.ite_none_right_eq_some.1 hs).2
      exact ⟨⟨hstarted, hzero⟩, fun bytes h => nomatch h⟩
    | closeOutput =>
      obtain rfl := Option.some.inj hs
      refine ⟨⟨hstarted, ?_⟩, fun bytes h => nomatch h⟩
      show s.childEnds.outputWrite - 1 = 0
      omega
    | closeInput =>
      obtain rfl := Option.some.inj hs
      exact ⟨⟨hstarted, hzero⟩, fun bytes h => nomatch h⟩
    | exit =>
      obtain rfl := Option.some.inj (Option.ite_none_right_eq_some.1 hs).2
      exact ⟨⟨.inr rfl, hzero⟩, fun bytes h => nomatch h⟩
    | parent => cases hs
    | child => cases hs
    | exec ok => cases hs

/-- Where the script meets the end of its input, the server has met the end of its output. -/
theorem silenced_of_eof (h : Inv job s) (hs : Step job s .eof t) (hk : s.parent ≠ .killed) : Silenced s := by
  rcases step_started hs with ⟨he, -⟩ | ⟨he, -⟩ | ⟨ok, he, -⟩ | ⟨hstarted, hs⟩
  · cases he
  · cases he
  · cases he
  · obtain ⟨-, -, hwriters⟩ := (Option.ite_none_right_eq_some.1 hs).1
    have hhold : s.parent.holdsInput ≠ true := fun hhold => by
      have := h.inputOpen hhold
      omega
    have hend : s.parent.metEnd = true := by
      cases hp : s.parent with
      | wait => rfl
      | returned => rfl
      | killed => exact absurd hp hk
      | _ => exact absurd (hp ▸ rfl) hhold
    have := (h.ended hend).2
    exact ⟨hstarted, by omega⟩

/-- **The end of the input.**  Nothing is written by the script, or by what it started, after it met the
end of its input: as long as it can write the server holds that open. -/
theorem no_write_after_eof {es fs : List Event} (hr : Run (Step job) (start job) (es ++ .eof :: fs) t)
    (hk : t.parent ≠ .killed) (bytes : List UInt8) : .write bytes ∉ fs := by
  obtain ⟨u, h1, h2⟩ := run_append_iff.1 hr
  cases h2 with
  | cons heof hrest =>
    have hku : u.parent ≠ .killed := fun hu => hk
      (hrest.invariant (fun s => s.parent = .killed) (fun _ _ _ h hs => killed_step hs h) (killed_step heof hu))
    have hsilenced := (silenced_step heof (silenced_of_eof (inv_run h1) heof hku)).1
    intro hmem
    exact hrest.all Silenced (fun e => ∀ bytes, e ≠ .write bytes) (fun _ _ _ h hs => (silenced_step hs h).1)
      (fun _ _ _ h hs => (silenced_step hs h).2) hsilenced _ hmem bytes rfl

theorem no_write_after_eof_exit : ∃ s : State 1, Run (Step ⟨[], 0, 0, []⟩) (start ⟨[], 0, 0, []⟩)
    ([.parent, .child, .child, .child, .child, .child, .exec true, .closeOutput, .closeOutput, .parent, .parent,
      .parent, .parent, .parent] ++ .eof :: [.exit]) s ∧ .write [120] ∉ [Event.exit] := by
  obtain ⟨s, hr, hs⟩ := run_of_exec_map (step ⟨[], 0, 0, []⟩) (start ⟨[], 0, 0, []⟩ : State 1)
    ([.parent, .child, .child, .child, .child, .child, .exec true, .closeOutput, .closeOutput, .parent, .parent,
      .parent, .parent, .parent] ++ .eof :: [.exit]) (fun s => s.parent) (a := .wait) (by decide +kernel)
  exact ⟨s, hr, no_write_after_eof hr (by rw [hs]; decide) [120]⟩

/-! ## Locks and kills -/

/-- The server cannot write the next byte of the body, and the script, which can read it, can write
nothing. -/
def Locked (job : Job) (s : State K) : Prop :=
  s.child = .script ∧ 0 < s.childEnds.inputRead ∧ 0 < s.childEnds.outputWrite ∧ (∃ i c, s.parent = .write i c) ∧
    parentStep job s = none ∧ ∀ bytes, step job s (.write bytes) = none

/-- The script, while the server has done nothing yet. -/
def scripted (job : Job) (output : Pipe K) (ends : Ends) : State K :=
  ⟨.status, .script, job.body, statusLine, Pipe.empty, output, ⟨1, 1, 1, 1⟩, ends⟩

theorem run_scripted (job : Job) :
    Run (Step job) (start job : State K) [.child, .child, .child, .child, .child, .exec true]
      (scripted job Pipe.empty ⟨0, 2, 2, 0⟩) :=
  .cons rfl (.cons rfl (.cons rfl (.cons rfl (.cons rfl (.cons rfl (.nil _))))))

/-- The server, up to the body. -/
theorem run_feeding {job : Job} (h : 0 < job.count) (output : Pipe K) (ends : Ends) :
    Run (Step job) (scripted job output ends) [.parent, .parent, .parent]
      ⟨.recv 0 job.c, .script, job.body, statusLine ++ statusLine, Pipe.empty, output, ⟨1, 0, 0, 1⟩, ends⟩ := by
  have hfeed : feed job 0 job.c = .recv 0 job.c := if_pos h
  rw [← hfeed]
  exact .cons rfl (.cons rfl (.cons rfl (.nil _)))

theorem step_recv {i : Nat} {c : UInt8} (hp : s.parent = .recv i c) :
    ∃ d sock, Step job s .parent { s with parent := .write i d, sock := sock } := by
  show ∃ d sock, parentStep job s = _
  unfold parentStep
  rw [hp]
  dsimp only
  cases s.sock with
  | nil => exact ⟨c, [], rfl⟩
  | cons d rest => exact ⟨d, rest, rfl⟩

theorem step_put {i : Nat} {c : UInt8} (hp : s.parent = .write i c)
    (hr : s.parentEnds.inputRead + s.childEnds.inputRead ≠ 0) : parentStep job s =
      (s.input.write [c]).map fun input => { s with input := input, parent := feed job (i + 1) c } := by
  unfold parentStep
  rw [hp]
  exact if_neg hr

theorem step_kill {i : Nat} {c : UInt8} (hp : s.parent = .write i c)
    (hr : s.parentEnds.inputRead + s.childEnds.inputRead = 0) :
    Step job s .parent { s with parent := .killed, parentEnds := ⟨0, 0, 0, 0⟩ } := by
  show parentStep job s = _
  unfold parentStep
  rw [hp]
  exact if_pos hr

theorem step_write_nil : step job s (.write []) = none := by
  show (if s.child = .script ∨ s.child = .exited then scriptStep s (.write []) else none) = none
  split
  · exact if_neg fun h => h.2.1 rfl
  · rfl

/-- A write of the script goes as its pipe does. -/
theorem step_write {bytes : List UInt8} (hc : s.child = .script) (hw : 0 < s.childEnds.outputWrite)
    (hb : bytes ≠ [])
    (hr : 0 < s.parentEnds.outputRead) :
    step job s (.write bytes) = (s.output.write bytes).map fun output => { s with output := output } := by
  show (if s.child = .script ∨ s.child = .exited then scriptStep s (.write bytes) else none) = _
  rw [if_pos (.inl hc)]
  exact if_pos ⟨hw, hb, Nat.add_pos_left hr _⟩

/-- The body, while it fits the pipe. -/
theorem run_fill (hread : 0 < s.childEnds.inputRead) (n : Nat) : ∀ (i : Nat) (c : UInt8) (sock : List UInt8)
    (input : Pipe K), i + n < job.count → input.bytes.length + n ≤ K → ∃ es c' sock' input',
      Run (Step job) { s with parent := .recv i c, sock := sock, input := input } es
        { s with parent := .recv (i + n) c', sock := sock', input := input' } ∧
      input'.bytes.length = input.bytes.length + n := by
  induction n with
  | zero => exact fun i c sock input _ _ => ⟨[], c, sock, input, .nil _, rfl⟩
  | succ n ih =>
    intro i c sock input hi hroom
    obtain ⟨d, sock', hrecv⟩ := @step_recv K job
      { s with parent := .recv i c, sock := sock, input := input } i c rfl
    obtain ⟨input', hwrite, -, hbytes⟩ := @exists_write K input [d] (by rw [List.length_singleton]; omega)
    have hlen : input'.bytes.length = input.bytes.length + 1 := by rw [hbytes, List.length_append]; rfl
    have hput : Step job { s with parent := .write i d, sock := sock', input := input } .parent
        { s with parent := .recv (i + 1) d, sock := sock', input := input' } := by
      have hreaders : s.parentEnds.inputRead + s.childEnds.inputRead ≠ 0 := by omega
      have hfeed : feed job (i + 1) d = .recv (i + 1) d := if_pos (by omega)
      have hstep := @step_put K job { s with parent := .write i d, sock := sock', input := input } i d rfl hreaders
      rwa [hwrite, Option.map_some, hfeed] at hstep
    obtain ⟨es, c', sock'', input'', hrun, hlen'⟩ := ih (i + 1) d sock' input' (by omega) (by omega)
    rw [show i + 1 + n = i + (n + 1) by omega] at hrun
    exact ⟨.parent :: .parent :: es, c', sock'', input'', .cons hrecv (.cons hput hrun), by omega⟩

/-- **A lock.**  A script can lock itself and the server up if the body is larger than a pipe, and only
then. -/
theorem locked_iff (job : Job) (K : Nat) :
    (∃ es, ∃ s : State K, Run (Step job) (start job) es s ∧ Locked job s) ↔ K < job.count := by
  constructor
  · rintro ⟨es, s, hr, -, hread, -, ⟨i, c, hp⟩, hblocked, -⟩
    have hfed := (inv_run hr).fed
    unfold Fed at hfed
    rw [hp] at hfed
    obtain ⟨hi, hwritten, -, -⟩ := hfed
    unfold parentStep at hblocked
    rw [hp] at hblocked
    dsimp only at hblocked
    rw [if_neg (by omega), Option.map_eq_none_iff, write_eq_none_iff, List.length_singleton] at hblocked
    have hlen := congrArg List.length hwritten
    rw [length_bodyBytes, Pipe.written, List.length_append] at hlen
    omega
  · intro hcount
    obtain ⟨output, hwrite, -, hbytes⟩ := @exists_write K Pipe.empty (List.replicate K 0)
      (by rw [List.length_replicate]; exact Nat.le_of_eq (Nat.zero_add K))
    have hfull : output.bytes.length = K := by rw [hbytes]; exact List.length_replicate
    -- the script fills its output
    have hscript : ∃ es, Run (Step job) (scripted job Pipe.empty ⟨0, 2, 2, 0⟩ : State K) es
        (scripted job output ⟨0, 2, 2, 0⟩) := by
      by_cases hK : K = 0
      · have houtput : output = Pipe.empty := by
          subst hK
          exact (Option.some.inj hwrite).symm
        exact ⟨[], houtput ▸ .nil _⟩
      · have hne : List.replicate K (0 : UInt8) ≠ [] := by rwa [Ne, List.replicate_eq_nil_iff]
        have hstep := @step_write K job (scripted job Pipe.empty ⟨0, 2, 2, 0⟩) _ rfl (show 0 < 2 by decide) hne
          (show 0 < 1 by decide)
        rw [show (scripted job Pipe.empty ⟨0, 2, 2, 0⟩ : State K).output = Pipe.empty from rfl, hwrite] at hstep
        exact ⟨[.write (List.replicate K 0)], .cons hstep (.nil _)⟩
    obtain ⟨es, hes⟩ := hscript
    have hfeeding := run_feeding (show 0 < job.count by omega) output ⟨0, 2, 2, 0⟩
    obtain ⟨fs, c, sock, input, hfill, hlen⟩ := @run_fill K job
      ⟨.recv 0 job.c, .script, job.body, statusLine ++ statusLine, Pipe.empty, output, ⟨1, 0, 0, 1⟩, ⟨0, 2, 2, 0⟩⟩
      (show 0 < 2 by decide) K 0 job.c job.body Pipe.empty (by omega) (Nat.le_of_eq (Nat.zero_add K))
    have hinput : input.bytes.length = K := hlen.trans (Nat.zero_add K)
    obtain ⟨d, sock', hrecv⟩ := @step_recv K job ⟨.recv (0 + K) c, .script, sock, statusLine ++ statusLine, input,
      output, ⟨1, 0, 0, 1⟩, ⟨0, 2, 2, 0⟩⟩ _ _ rfl
    refine ⟨_, ⟨.write (0 + K) d, .script, sock', statusLine ++ statusLine, input, output,
      ⟨1, 0, 0, 1⟩, ⟨0, 2, 2, 0⟩⟩,
      (((run_scripted job).append hes).append (hfeeding.append hfill)).append (.cons hrecv (.nil _)),
      rfl, show 0 < 2 by decide, show 0 < 2 by decide, ⟨_, _, rfl⟩, ?_, fun bytes => ?_⟩
    · have hnone : input.write [d] = none := write_eq_none_iff.2 (by rw [List.length_singleton]; omega)
      rw [step_put rfl (show 0 + 2 ≠ 0 by decide), hnone]
      rfl
    · by_cases hb : bytes = []
      · subst hb
        exact step_write_nil
      · have hpos := List.length_pos_iff.2 hb
        have hnone : output.write bytes = none := write_eq_none_iff.2 (by omega)
        rw [step_write rfl (show 0 < 2 by decide) hb (show 0 < 1 by decide), hnone]
        rfl

/-- **A kill.**  A script can end the server if there is a body at all: it closes its input, which the
server writes to. -/
theorem killed_iff (job : Job) (K : Nat) :
    (∃ es, ∃ s : State K, Run (Step job) (start job) es s ∧ s.parent = .killed) ↔ 0 < job.count := by
  constructor
  · rintro ⟨es, s, hr, hp⟩
    have hfed := (inv_run hr).fed
    unfold Fed at hfed
    rw [hp] at hfed
    exact hfed.1
  · intro hcount
    have hclose : Run (Step job) (scripted job Pipe.empty ⟨0, 2, 2, 0⟩ : State K) [.closeInput, .closeInput]
        (scripted job Pipe.empty ⟨0, 2, 0, 0⟩) := .cons rfl (.cons rfl (.nil _))
    have hfeeding := @run_feeding K job hcount Pipe.empty ⟨0, 2, 0, 0⟩
    obtain ⟨d, sock, hrecv⟩ := @step_recv K job ⟨.recv 0 job.c, .script, job.body, statusLine ++ statusLine,
      Pipe.empty, Pipe.empty, ⟨1, 0, 0, 1⟩, ⟨0, 2, 0, 0⟩⟩ _ _ rfl
    exact ⟨_, _, ((run_scripted job).append hclose).append
      (hfeeding.append (.cons hrecv (.cons (step_kill rfl rfl) (.nil _)))), rfl⟩

end

end CPrograms.Httpd
