import CPrograms.Lib.Runs

/-!
# `namespace/user_ns/userns_child_exec.c`

Parent and child from `clone` on, as two processes that take turns in any order.  `clone` is
called without `CLONE_FILES`, so each has its own table of descriptors; of these only the two
ends of the pipe are kept.  The results of system calls are events, and `content f` is what
was written to the map file `f`.
-/

namespace CPrograms.UserNs

inductive MapFile
  | uidMap
  | gidMap
deriving DecidableEq

/-- The options `-M`, `-G` and `-U`. -/
structure Opts where
  uidMap : Option (List UInt8)
  gidMap : Option (List UInt8)
  newUser : Bool

def Opts.mapping (o : Opts) : MapFile → Option (List UInt8)
  | .uidMap => o.uidMap
  | .gidMap => o.gidMap

/-- The loop of `update_map`: commas become newlines. -/
def newlines (mapping : List UInt8) : List UInt8 := mapping.map fun c => if c = 44 then 10 else c

/-- What the parent says when it exits. -/
inductive Exit
  | terminating
  | openFailed (f : MapFile)
  | writeFailed (f : MapFile)
  | waitpidFailed
deriving DecidableEq

inductive ParentPc
  /-- `if (uid_map != NULL)` -/
  | uidTest
  /-- `if (gid_map != NULL)` -/
  | gidTest
  | openSetgroups
  | writeSetgroups
  | closeSetgroups
  | openMap (f : MapFile)
  | writeMap (f : MapFile)
  | closeMap (f : MapFile)
  | closePipe
  | waitpid
  | exited (e : Exit)
deriving DecidableEq

inductive ChildPc
  | closePipe
  | readPipe
  | execvp
  /-- the command runs -/
  | command
  | exited
deriving DecidableEq

/-- The ends of the pipe that a process has open. -/
structure Fds where
  read : Bool
  write : Bool
deriving DecidableEq

structure Sys where
  parent : ParentPc
  child : ChildPc
  parentFds : Fds
  childFds : Fds
  content : MapFile → Option (List UInt8)

/-- After `clone`; a map without a user namespace ends in `usage`. -/
def launch (o : Opts) : Option Sys :=
  if (o.uidMap.isSome ∨ o.gidMap.isSome) ∧ o.newUser = false then none
  else some ⟨.uidTest, .closePipe, ⟨true, true⟩, ⟨true, true⟩, fun _ => none⟩

inductive Event
  /-- a step of the parent whose outcome is not in question -/
  | parent
  | opened (ok : Bool)
  | wrote (r : Option Nat)
  | waited (ok : Bool)
  | childClose
  | childRead (r : Int)
  | childExec (ok : Bool)
  | commandEnds

def Sys.put (s : Sys) (f : MapFile) (b : List UInt8) : Sys :=
  { s with content := fun g => if g = f then some b else s.content g }

/-- `exit` closes all descriptors. -/
def Sys.parentExit (s : Sys) (e : Exit) : Sys :=
  { s with parent := .exited e, parentFds := ⟨false, false⟩ }

def Sys.childExit (s : Sys) : Sys := { s with child := .exited, childFds := ⟨false, false⟩ }

inductive Step (o : Opts) : Sys → Event → Sys → Prop
  | uidTest {s : Sys} : s.parent = .uidTest →
      Step o s .parent { s with parent := if o.uidMap.isSome then .openMap .uidMap else .gidTest }
  | gidTest {s : Sys} : s.parent = .gidTest →
      Step o s .parent { s with parent := if o.gidMap.isSome then .openSetgroups else .closePipe }
  -- what happens to `setgroups` is ignored
  | openSetgroups {s : Sys} (ok : Bool) : s.parent = .openSetgroups →
      Step o s (.opened ok) { s with parent := .writeSetgroups }
  | writeSetgroups {s : Sys} (r : Option Nat) : s.parent = .writeSetgroups →
      Step o s (.wrote r) { s with parent := .closeSetgroups }
  | closeSetgroups {s : Sys} : s.parent = .closeSetgroups →
      Step o s .parent { s with parent := .openMap .gidMap }
  | openMap {s : Sys} {f : MapFile} : s.parent = .openMap f →
      Step o s (.opened true) { s with parent := .writeMap f }
  | openFails {s : Sys} {f : MapFile} : s.parent = .openMap f →
      Step o s (.opened false) (s.parentExit (.openFailed f))
  | writeMap {s : Sys} {f : MapFile} {mapping : List UInt8} : s.parent = .writeMap f →
      o.mapping f = some mapping →
      Step o s (.wrote (some mapping.length)) { s.put f (newlines mapping) with parent := .closeMap f }
  | writeShort {s : Sys} {f : MapFile} {mapping : List UInt8} {k : Nat} : s.parent = .writeMap f →
      o.mapping f = some mapping → k < mapping.length →
      Step o s (.wrote (some k)) ((s.put f ((newlines mapping).take k)).parentExit (.writeFailed f))
  | writeFails {s : Sys} {f : MapFile} : s.parent = .writeMap f →
      Step o s (.wrote none) (s.parentExit (.writeFailed f))
  | closeMap {s : Sys} {f : MapFile} : s.parent = .closeMap f →
      Step o s .parent { s with parent := match f with | .uidMap => .gidTest | .gidMap => .closePipe }
  | closePipe {s : Sys} : s.parent = .closePipe →
      Step o s .parent { s with parent := .waitpid, parentFds := { s.parentFds with write := false } }
  | waited {s : Sys} : s.parent = .waitpid → s.child = .exited →
      Step o s (.waited true) (s.parentExit .terminating)
  | waitFails {s : Sys} : s.parent = .waitpid → Step o s (.waited false) (s.parentExit .waitpidFailed)
  | childClose {s : Sys} : s.child = .closePipe →
      Step o s .childClose { s with child := .readPipe, childFds := { s.childFds with write := false } }
  -- the end of the pipe: no process has its write end open
  | childEof {s : Sys} : s.child = .readPipe → s.parentFds.write = false → s.childFds.write = false →
      Step o s (.childRead 0) { s with child := .execvp }
  | childReadFails {s : Sys} : s.child = .readPipe → Step o s (.childRead (-1)) s.childExit
  | childExec {s : Sys} : s.child = .execvp → Step o s (.childExec true) { s with child := .command }
  | childExecFails {s : Sys} : s.child = .execvp → Step o s (.childExec false) s.childExit
  | commandEnds {s : Sys} : s.child = .command → Step o s .commandEnds s.childExit

/-- The child has reached `execvp`. -/
def Sys.InExec (s : Sys) : Prop := s.child = .execvp ∨ s.child = .command

/-- Every requested map has been written completely. -/
def Mapped (o : Opts) (s : Sys) : Prop :=
  ∀ f mapping, o.mapping f = some mapping → s.content f = some (newlines mapping)

/-- `update_map` gives up: its `open` fails, or its `write` does not take the whole map. -/
def UpdateMapFails (o : Opts) (s : Sys) (e : Event) : Prop :=
  (∃ f, s.parent = .openMap f ∧ e = .opened false) ∨
  ∃ f r, s.parent = .writeMap f ∧ e = .wrote r ∧ r ≠ (o.mapping f).map List.length

end CPrograms.UserNs
