import CPrograms.Netlink.Message

/-!
# Attributes: `addattr_l` and `parse_rtattr_flags`

`netlink_lwt_route/mnl.c` writes attributes behind a message, `netlink_lwt_route/test.c` reads
them.  A negative `int` length is no length of a buffer; as the code compares `maxlen` as an
`unsigned`, it is a number here.
-/

namespace CPrograms.Netlink

open ByteMem

/-! ## Writing -/

/-- An attribute as it is handed to `addattr_l`; its length is an `int`. -/
structure Attr where
  type : Int
  data : List UInt8
  short : data.length < 2 ^ 31

/-- `NLMSG_TAIL` -/
def nlmsgTail (m : Mem) (n : Nat) : Nat := n + nlmsgAlign (nlmsgLen m n)

def addattrL (m : Mem) (n maxlen : Nat) (type : Int) (data : List UInt8) : Int × Mem :=
  -- `int len`, as its 32 bits
  let len := rtaLength data.length % 2 ^ 32
  if (nlmsgAlign (nlmsgLen m n) + rtaAlign len) % 2 ^ 32 > maxlen then (-1, m)
  else
    let rta := nlmsgTail m n
    let m := storeLE m (rta + 2) 2 (type % 2 ^ 16).toNat
    let m := storeLE m rta 2 len
    let m := if data.length ≠ 0 then storeBytes m (rtaData rta) data else m
    (0, storeLE m n 4 (nlmsgAlign (nlmsgLen m n) + rtaAlign len))

/-- The four bytes of a `__u32`. -/
def u32Bytes (v : UInt32) : List UInt8 :=
  [v.toUInt8, (v >>> 8).toUInt8, (v >>> 16).toUInt8, (v >>> 24).toUInt8]

def addattr32 (m : Mem) (n maxlen : Nat) (type : Int) (v : UInt32) : Int × Mem :=
  addattrL m n maxlen type (u32Bytes v)

/-- One after the other; with the attributes for which the result was 0. -/
def addattrs (n maxlen : Nat) (m : Mem) : List Attr → Mem × List Attr
  | [] => (m, [])
  | a :: as =>
    let (ret, m) := addattrL m n maxlen a.type a.data
    let (m, kept) := addattrs n maxlen m as
    (m, if ret = 0 then a :: kept else kept)

/-! ## Reading -/

/-- `RTA_OK` -/
def rtaOk (m : Mem) (rta : Nat) (len : Int) : Prop :=
  len ≥ sizeofRtattr ∧ rtaLen m rta ≥ sizeofRtattr ∧ (rtaLen m rta : Int) ≤ len

instance (m : Mem) (rta : Nat) (len : Int) : Decidable (rtaOk m rta len) :=
  inferInstanceAs (Decidable (_ ∧ _))

theorem rtaAlign_pos {m : Mem} {rta : Nat} {len : Int} (h : rtaOk m rta len) :
    0 < rtaAlign (rtaLen m rta) := by
  have hlt := loadLE_lt m rta 2
  unfold rtaOk rtaLen sizeofRtattr at h
  unfold rtaAlign rtaLen
  omega

/-- The loop of `parse_rtattr_flags`: the table, and where it stopped with what length left. -/
def parseLoop (m : Mem) (max flags : Nat) (tb : List (Option Nat)) (rta : Nat) (len : Int) :
    List (Option Nat) × Nat × Int :=
  if h : rtaOk m rta len then
    let type := rtaType m rta &&& ((2 ^ 16 - 1) ^^^ flags)
    let tb := if type ≤ max ∧ tb[type]? = some none then tb.set type (some rta) else tb
    have := rtaAlign_pos h
    have := h.1
    parseLoop m max flags tb (rta + rtaAlign (rtaLen m rta)) (len - rtaAlign (rtaLen m rta))
  else (tb, rta, len)
termination_by len.toNat
decreasing_by
  unfold sizeofRtattr at *
  omega

/-- The table, and the two numbers of the `Deficit` line where it is printed. -/
def parseRtattrFlags (m : Mem) (max rta : Nat) (len : Int) (flags : Nat) :
    List (Option Nat) × Option (Int × Nat) :=
  let (tb, rta, len) := parseLoop m max flags (List.replicate (max + 1) none) rta len
  (tb, if len ≠ 0 then some (len, rtaLen m rta) else none)

end CPrograms.Netlink
