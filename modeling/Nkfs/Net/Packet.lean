import Nkfs.Errno
import Nkfs.Image.Const
import Nkfs.Lib.Bytes

/-!
# Packets

A packet is `pktSize` bytes: signatures, type, payload size, error code, the union `u`, the checksum
of the payload and the checksum of what stands before it. The checksum function is a parameter. A
signed packet with a payload size in range passes the check (`netPktCheck_sign`).
-/

namespace Nkfs

open Lib.Bytes

/-! ### Layout of `struct nkfs_net_pkt` (`include/nkfs_net.h`) -/

def sign1Off : ℕ := 0

def typeOff : ℕ := 4

def dsizeOff : ℕ := 8

def errOff : ℕ := 12

/-- Offset of the union `u`. -/
def uOff : ℕ := 16

/-- Size of the union: `query_obj` is its largest member. -/
def uSize : ℕ := 324

def dsumOff : ℕ := uOff + uSize

def pktSumOff : ℕ := dsumOff + 8

def sign2Off : ℕ := pktSumOff + 8

/-- `sizeof(struct nkfs_net_pkt)` -/
def pktSize : ℕ := sign2Off + 4

def pktSign1 : ℕ := 0xBEDABEDA

def pktSign2 : ℕ := 0xCBADCBAD

/-- The types of packets; other numbers are `unknown`. -/
inductive PktType where
  | echo
  | getObj
  | putObj
  | deleteObj
  | queryObj
  | createObj
  | neighHandshake
  | neighHeartbeat
  | unknown
  deriving DecidableEq, Repr

def pktTypeOf : ℕ → PktType
  | 1 => .echo
  | 2 => .getObj
  | 3 => .putObj
  | 4 => .deleteObj
  | 5 => .queryObj
  | 6 => .createObj
  | 7 => .neighHandshake
  | 8 => .neighHeartbeat
  | _ => .unknown

def pktType (pkt : Mem) : PktType := pktTypeOf (loadLe pkt typeOff 4)

def pktDsize (pkt : Mem) : ℕ := loadLe pkt dsizeOff 4

def pktErr (pkt : Mem) : ℕ := loadLe pkt errOff 4

/-- The `int` of four bytes. -/
def intOf (u : ℕ) : ℤ := if u < 2 ^ 31 then u else u - 2 ^ 32

/-- The `int` of a return code, as an unsigned number. -/
def errCode : Errno → ℕ
  | .enoent => 2 ^ 32 - 2
  | .eio => 2 ^ 32 - 5
  | .enomem => 2 ^ 32 - 12
  | .eagain => 2 ^ 32 - 11
  | .efault => 2 ^ 32 - 14
  | .eexist => 2 ^ 32 - 17
  | .einval => 2 ^ 32 - 22
  | .enospc => 2 ^ 32 - 28
  | .erange => 2 ^ 32 - 34
  | .elimit => 0xE000F00A

def resCode : Except Errno Unit → ℕ
  | .ok () => 0
  | .error e => errCode e

section

variable (csum : List UInt8 → UInt64)

/-- Source: `crt/net_pkt.c` `net_pkt_sum` -/
def netPktSum (pkt : Mem) : ℕ := (csum (slice pkt 0 pktSumOff)).toNat

/-- Source: `crt/net_pkt.c` `net_pkt_check` -/
def netPktCheck (pkt : Mem) : Except Errno Unit :=
  if pktDsize pkt ≠ 0 ∧ pktDsize pkt > netPktMaxDsize then .error .einval
  else if loadLe pkt sign1Off 4 ≠ pktSign1 ∨ loadLe pkt sign2Off 4 ≠ pktSign2 then .error .einval
  else if loadLe pkt pktSumOff 8 ≠ netPktSum csum pkt then .error .einval
  else .ok ()

/-- Source: `crt/net_pkt.c` `net_pkt_sign` -/
def netPktSign (pkt : Mem) : Mem :=
  let pkt := storeLe pkt sign1Off 4 pktSign1
  let pkt := storeLe pkt sign2Off 4 pktSign2
  storeLe pkt pktSumOff 8 (netPktSum csum pkt)

variable {csum} {pkt : Mem}

/-- Signing changes the signatures and the checksum. -/
lemma loadLe_sign {off n : ℕ} (h₁ : 4 ≤ off) (h₂ : off + n ≤ pktSumOff) :
    loadLe (netPktSign csum pkt) off n = loadLe pkt off n := by
  have hs : sign2Off = pktSumOff + 8 := rfl
  rw [netPktSign, loadLe_storeLe_of_disjoint (by omega), loadLe_storeLe_of_disjoint (by omega),
    loadLe_storeLe_of_disjoint (.inr h₁)]

lemma pktDsize_sign : pktDsize (netPktSign csum pkt) = pktDsize pkt := loadLe_sign (by decide) (by decide)

lemma pktErr_sign : pktErr (netPktSign csum pkt) = pktErr pkt := loadLe_sign (by decide) (by decide)

/-- **A signed packet passes the check** if its payload size is in range. -/
theorem netPktCheck_sign (hsize : pktDsize pkt ≤ netPktMaxDsize) :
    netPktCheck csum (netPktSign csum pkt) = .ok () := by
  have hsign1 : loadLe (netPktSign csum pkt) sign1Off 4 = pktSign1 := by
    rw [netPktSign, loadLe_storeLe_of_disjoint (by decide), loadLe_storeLe_of_disjoint (by decide), loadLe_storeLe]
    rfl
  have hsign2 : loadLe (netPktSign csum pkt) sign2Off 4 = pktSign2 := by
    rw [netPktSign, loadLe_storeLe_of_disjoint (by decide), loadLe_storeLe]
    rfl
  have hslice : ∀ m v, slice (storeLe m pktSumOff 8 v) 0 pktSumOff = slice m 0 pktSumOff := fun m v =>
    slice_zero_congr fun i hi => storeLe_of_lt hi
  have hsum : loadLe (netPktSign csum pkt) pktSumOff 8 = netPktSum csum (netPktSign csum pkt) := by
    rw [netPktSign, loadLe_storeLe, netPktSum, netPktSum, hslice]
    exact Nat.mod_eq_of_lt (UInt64.toNat_lt _)
  rw [netPktCheck, pktDsize_sign, if_neg (by omega), hsign1, hsign2, if_neg (by simp), hsum, if_neg (by simp)]

lemma dsize_le_of_check (h : netPktCheck csum pkt = .ok ()) : pktDsize pkt ≤ netPktMaxDsize := by
  by_contra hgt
  rw [netPktCheck, if_pos ⟨by omega, by omega⟩] at h
  cases h

end

end Nkfs
