import CPrograms.Lib.Runs
import Mathlib.Logic.Function.Basic

/-!
# The token buckets of `udp_prog/libmytbf/mytbf.c`

An `int` is an `Int`: the runs are those in which no addition overflows.  A bucket is
`struct mytbf_s`; `heap` has the buckets that `malloc` returned and that are not freed, by
an address that is never used twice, and `job` is the table of slots that the signal handler
goes through.  Here a call's update of `token` is one step.  A call of `mytbf_fetchtoken` on
an empty bucket stays in `pause` (`paused`), where only signals come in, and tests the
bucket again after each (`Event.resume`).
-/

namespace CPrograms.Mytbf

def mytbfMax : Nat := 1024

/-- `EINVAL` -/
def einval : Int := 22

structure Tbf where
  csp : Int
  burst : Int
  token : Int
  pos : Nat
deriving DecidableEq

/-- What the handler does to a bucket. -/
def Tbf.tick (b : Tbf) : Tbf :=
  let token := b.token + b.csp
  { b with token := if token > b.burst then b.burst else token }

/-- `mytbf_fetchtoken` after its loop: the tokens given and the bucket without them. -/
def Tbf.fetch (size : Int) (b : Tbf) : Int × Tbf :=
  let n := if b.token < size then b.token else size
  (n, { b with token := b.token - n })

/-- The update of `mytbf_returntoken`. -/
def Tbf.giveBack (size : Int) (b : Tbf) : Tbf :=
  let token := b.token + size
  { b with token := if token > b.burst then b.burst else token }

structure Sys where
  heap : Nat → Option Tbf
  /-- the next allocation -/
  brk : Nat
  job : Nat → Option Nat
  paused : Option (Nat × Int)

def getFreePos (job : Nat → Option Nat) : Option Nat :=
  (List.range mytbfMax).find? fun i => (job i).isNone

/-- One turn of the handler's loop. -/
def tickSlot (job : Nat → Option Nat) (heap : Nat → Option Tbf) (i : Nat) : Nat → Option Tbf :=
  match job i with
  | none => heap
  | some p => Function.update heap p ((heap p).map Tbf.tick)

/-- `kernel`: the `si_code` is `SI_KERNEL`. -/
def handler (kernel : Bool) (s : Sys) : Sys :=
  if kernel = false then s
  else { s with heap := (List.range mytbfMax).foldl (tickSlot s.job) s.heap }

/-- `mem`: `malloc` succeeds. -/
def mytbfInit (cps burst : Int) (mem : Bool) (s : Sys) : Option Nat × Sys :=
  match getFreePos s.job with
  | none => (none, s)
  | some pos =>
    if mem = false then (none, s)
    else
      (some s.brk,
        { s with
          heap := Function.update s.heap s.brk (some ⟨cps, burst, 0, pos⟩)
          brk := s.brk + 1
          job := Function.update s.job pos (some s.brk) })

/-- `mytbf_fetchtoken` from a test of its loop on; `none`: it pauses. -/
def fetchLoop (p : Nat) (size : Int) (b : Tbf) (s : Sys) : Option Int × Sys :=
  if b.token ≤ 0 then (none, { s with paused := some (p, size) })
  else
    let (n, b) := b.fetch size
    (some n, { s with heap := Function.update s.heap p (some b), paused := none })

def mytbfFetchtoken (p : Nat) (size : Int) (b : Tbf) (s : Sys) : Option Int × Sys :=
  if size ≤ 0 then (some (-einval), s) else fetchLoop p size b s

def mytbfReturntoken (p : Nat) (size : Int) (b : Tbf) (s : Sys) : Int × Sys :=
  if size ≤ 0 then (-einval, s)
  else (size, { s with heap := Function.update s.heap p (some (b.giveBack size)) })

def mytbfDestroy (p : Nat) (b : Tbf) (s : Sys) : Sys :=
  { s with heap := Function.update s.heap p none, job := Function.update s.job b.pos none }

/-! ## Runs -/

inductive Event
  | init (cps burst : Int) (mem : Bool)
  | alarm (kernel : Bool)
  | fetch (p : Nat) (size : Int)
  | resume (p : Nat) (size : Int)
  | giveBack (p : Nat) (size : Int)
  | destroy (p : Nat)
deriving DecidableEq

/-- What the call answers that returns in a step, if one does. -/
inductive Answer
  | none
  | ptr (p : Option Nat)
  | int (n : Int)
deriving DecidableEq

def Answer.ofFetch : Option Int → Answer
  | .none => .none
  | some n => .int n

/-- A call is made only while none is in `pause`, and on a bucket that is not freed. -/
def step (s : Sys) : Event → Option (Answer × Sys)
  | .init cps burst mem =>
    if s.paused = .none then
      let (p, s) := mytbfInit cps burst mem s
      some (.ptr p, s)
    else none
  | .alarm kernel => some (.none, handler kernel s)
  | .fetch p size =>
    match s.paused, s.heap p with
    | .none, some b =>
      let (n, s) := mytbfFetchtoken p size b s
      some (.ofFetch n, s)
    | _, _ => none
  | .resume p size =>
    match s.heap p with
    | some b =>
      if s.paused = some (p, size) then
        let (n, s) := fetchLoop p size b s
        some (.ofFetch n, s)
      else none
    | .none => none
  | .giveBack p size =>
    match s.paused, s.heap p with
    | .none, some b =>
      let (n, s) := mytbfReturntoken p size b s
      some (.int n, s)
    | _, _ => none
  | .destroy p =>
    match s.paused, s.heap p with
    | .none, some b => some (.int 0, mytbfDestroy p b s)
    | _, _ => none

abbrev Label := Event × Answer

def stepL (s : Sys) (l : Label) : Option Sys :=
  (step s l.1).bind fun r => if r.1 = l.2 then some r.2 else none

def Step (s : Sys) (l : Label) (t : Sys) : Prop := stepL s l = some t

/-- No bucket yet. -/
def start : Sys := ⟨fun _ => none, 0, fun _ => none, none⟩

end CPrograms.Mytbf
