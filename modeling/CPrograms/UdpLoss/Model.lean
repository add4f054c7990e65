import CPrograms.Lib.Decimal

/-!
# The loss detector of `udp_prog/udp_server.go`

One buffer `p` takes every datagram; the number of a datagram is what stands in `p` before
its first zero byte.  `Srv.printed` are the numbers of the lines `convert c: %d`.  What
`conn.ReadFromUDP` delivers is outside the program: `none` is a call that failed.
-/

namespace CPrograms.UdpLoss

open Decimal

/-! ## `strconv.Atoi` -/

inductive NumError
  | errSyntax
  | errRange
deriving DecidableEq

/-- `strconv.ParseUint(s, 10, 64)` behind its first `n`. -/
def parseUint (n : Nat) : List UInt8 → Nat × Option NumError
  | [] => (n, none)
  | c :: s =>
    if IsDigit c then
      if push n c < 2 ^ 64 then parseUint (push n c) s else (2 ^ 64 - 1, some .errRange)
    else (0, some .errSyntax)

def sign : List UInt8 → Bool × List UInt8
  | [] => (false, [])
  | c :: s => if c = 43 then (false, s) else if c = 45 then (true, s) else (false, c :: s)

def atoi (s : List UInt8) : Int × Option NumError :=
  let (neg, digits) := sign s
  if digits = [] then (0, some .errSyntax)
  else
    match parseUint 0 digits with
    | (_, some .errSyntax) => (0, some .errSyntax)
    | (n, e) =>
      if neg = false ∧ n ≥ 2 ^ 63 then (2 ^ 63 - 1, some .errRange)
      else if neg = true ∧ n > 2 ^ 63 then (-2 ^ 63, some .errRange)
      else (if neg then -(n : Int) else n, e)

/-! ## `main` -/

inductive Mode
  | receiving
  | reported
  | panicked
deriving DecidableEq

structure Srv where
  p : List UInt8
  b : List Int
  printed : List Int
  mode : Mode

def start : Srv := ⟨List.replicate 2048 0, List.replicate 10001 0, [], .receiving⟩

/-- `conn.ReadFromUDP(p)`: what does not fit is lost, what is not overwritten stays. -/
def readFromUDP (p d : List UInt8) : List UInt8 := d.take p.length ++ p.drop d.length

/-- `for i, v = range p`: the index of the first zero byte, else the last index. -/
def zeroIndex : Nat → List UInt8 → Nat
  | i, [] => i - 1
  | i, v :: p => if v = 0 then i else zeroIndex (i + 1) p

/-- `b[c] = 1`; `none` is an index out of range. -/
def mark (b : List Int) (c : Int) : Option (List Int) :=
  if 0 ≤ c ∧ c < b.length then some (b.set c.toNat 1) else none

/-- The body of the loop from the conversion on. -/
def Srv.convert (s : Srv) (p : List UInt8) (c : Int) : Srv :=
  match mark s.b c with
  | none => ⟨p, s.b, s.printed ++ [c], .panicked⟩
  | some b => ⟨p, b, s.printed ++ [c], if c = 10000 then .reported else .receiving⟩

def step (s : Srv) : Option (List UInt8) → Srv
  | none => s
  | some d =>
    let p := readFromUDP s.p d
    -- the error of `Atoi` is not looked at: the test is on `err`, which is `nil` here
    s.convert p (atoi (p.take (zeroIndex 0 p))).1

/-- The loop over what is delivered; what is left was not received. -/
def mainLoop (s : Srv) : List (Option (List UInt8)) → Srv × List (Option (List UInt8))
  | [] => (s, [])
  | e :: es => if s.mode = .receiving then mainLoop (step s e) es else (s, e :: es)

/-- The loop behind: index and value of every entry that is not 1. -/
def lossLines (b : List Int) : List (Nat × Int) :=
  (b.zipIdx.filter fun e => e.1 ≠ 1).map fun e => (e.2, e.1)

/-! ## The traffic -/

/-- The datagrams among what was delivered. -/
def arrived (es : List (Option (List UInt8))) : List (List UInt8) := es.filterMap id

/-- A datagram with the digits of a number between 1 and 10000. -/
structure Numbered (d : List UInt8) : Prop where
  digits : ∀ c ∈ d, IsDigit c
  short : d.length ≤ 5
  pos : 1 ≤ number d
  le : number d ≤ 10000

/-- No datagram is shorter than an earlier one. -/
def Lengthening (ds : List (List UInt8)) : Prop := ds.Pairwise fun d e => d.length ≤ e.length

instance (ds : List (List UInt8)) : Decidable (Lengthening ds) :=
  inferInstanceAs (Decidable (ds.Pairwise _))

end CPrograms.UdpLoss
