import CPrograms.Lib.ByteMem

/-!
# Netlink messages in memory

`struct nlmsghdr` and `struct rtattr` with the macros of `linux/netlink.h` and
`linux/rtnetlink.h` that the programs use.  A `__u32` or `unsigned` is its number, and what
the macros compute in it wraps at `2 ^ 32`.
-/

namespace CPrograms.Netlink

open ByteMem

def sizeofNlmsghdr : Nat := 16

def sizeofRtattr : Nat := 4

/-- `NLMSG_ALIGN` and `RTA_ALIGN`, on 32 bits. -/
def nlmsgAlign (len : Nat) : Nat := (len + 3) % 2 ^ 32 / 4 * 4

def rtaAlign (len : Nat) : Nat := (len + 3) % 2 ^ 32 / 4 * 4

def nlmsgLength (len : Nat) : Nat := len + sizeofNlmsghdr

def nlmsgLen (m : Mem) (n : Nat) : Nat := loadLE m n 4

def nlmsgType (m : Mem) (n : Nat) : Nat := loadLE m (n + 4) 2

def nlmsgSeq (m : Mem) (n : Nat) : Nat := loadLE m (n + 8) 4

def nlmsgPid (m : Mem) (n : Nat) : Nat := loadLE m (n + 12) 4

def nlmsgData (n : Nat) : Nat := n + sizeofNlmsghdr

def rtaLen (m : Mem) (p : Nat) : Nat := loadLE m p 2

def rtaType (m : Mem) (p : Nat) : Nat := loadLE m (p + 2) 2

def rtaLength (alen : Nat) : Nat := sizeofRtattr + alen

def rtaData (p : Nat) : Nat := p + rtaLength 0

end CPrograms.Netlink
