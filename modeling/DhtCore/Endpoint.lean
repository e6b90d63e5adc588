import DhtCore.NodeId

/-!
# Addresses and endpoints

A `HostAddress` is an IP address of either family, or none at all; an
`Endpoint` adds a UDP port. Endpoints made from addresses hold them normalised
(`Endpoint.of`): an IPv4-mapped IPv6 address is stored as IPv4, so that a host
compares equal however it was written, and so is `::`, as `0.0.0.0`.

* `isLocalAddress` and `addressProblem` classify addresses, `isUsableRemote`
  being what the network's referrals must pass;
* `Endpoint.toCompact` and `Endpoint.fromCompact` are the wire format of peers.

Scope ids are left out: `Endpoint` strips them, and addresses compare without
them.
-/

namespace Dht

/-- The address family of a node. -/
inductive Family
  | IPv4
  | IPv6
  deriving DecidableEq, Repr

/-- An IP address (`QHostAddress`); `null` when there is none. -/
inductive HostAddress
  | null
  | ipv4 (a : BitVec 32)
  | ipv6 (a : BitVec 128)
  deriving DecidableEq, Repr

namespace HostAddress

instance : Inhabited HostAddress := ⟨null⟩

/-- The prefix of an IPv4 address mapped into IPv6, `::ffff:0:0/96`. -/
def mappedPrefix : BitVec 96 := 0xffff#96

/-- Whether the first `n` bits of `a` are those of `net`. -/
def samePrefix {w : ℕ} (a net : BitVec w) (n : ℕ) : Bool := a >>> (w - n) == net >>> (w - n)

/-- The address `a.b.c.d`. -/
def dotted (a b c d : BitVec 8) : BitVec 32 := a ++ b ++ c ++ d

/-- Whether an address is in an IPv4 subnet (`QHostAddress::isInSubnet`). -/
def isInSubnet (address : HostAddress) (subnet : BitVec 32 × ℕ) : Bool :=
  match address with
  | ipv4 a => samePrefix a subnet.1 subnet.2
  | _ => false

/-- `127.0.0.0/8` or `::1`. -/
def isLoopback : HostAddress → Bool
  | null => false
  | ipv4 a => samePrefix a (dotted 127 0 0 0) 8
  | ipv6 a => a == 1#128

/-- `169.254.0.0/16` or `fe80::/10`. -/
def isLinkLocal : HostAddress → Bool
  | null => false
  | ipv4 a => samePrefix a (dotted 169 254 0 0) 16
  | ipv6 a => samePrefix a (0xfe80#16 ++ 0#112) 10

/-- `fc00::/7`. -/
def isUniqueLocalUnicast : HostAddress → Bool
  | ipv6 a => samePrefix a (0xfc00#16 ++ 0#112) 7
  | _ => false

/-- `224.0.0.0/4` or `ff00::/8`. -/
def isMulticast : HostAddress → Bool
  | null => false
  | ipv4 a => samePrefix a (dotted 224 0 0 0) 4
  | ipv6 a => samePrefix a (0xff00#16 ++ 0#112) 8

/-- `255.255.255.255`. -/
def isBroadcast (address : HostAddress) : Bool := address == ipv4 (dotted 255 255 255 255)

end HostAddress

open HostAddress

/-- The IPv4 address that an address is or stands for (`QHostAddress::toIPv4Address`): one that is
    mapped into IPv6 stands for it, and `::` for `0.0.0.0`. -/
def HostAddress.toIPv4Address : HostAddress → Option (BitVec 32)
  | .null => none
  | .ipv4 a => some a
  | .ipv6 a =>
    if a.extractLsb' 32 96 = mappedPrefix then some (a.extractLsb' 0 32)
    else if a = 0 then some 0
    else none

/-- Strips the IPv4-mapped IPv6 encoding, so that the same host always compares equal. -/
def normalizeAddress : HostAddress → HostAddress
  | .ipv6 a => ((HostAddress.ipv6 a).toIPv4Address.map .ipv4).getD (.ipv6 a)
  | address => address

theorem normalizeAddress_mapped {a : BitVec 128} (h : a.extractLsb' 32 96 = mappedPrefix) :
    normalizeAddress (.ipv6 a) = .ipv4 (a.extractLsb' 0 32) := by
  rw [normalizeAddress, HostAddress.toIPv4Address, if_pos h]
  rfl

theorem normalizeAddress_unspecified : normalizeAddress (.ipv6 0) = .ipv4 0 := rfl

/-- Any other address of IPv6 stays as it is. -/
theorem normalizeAddress_ipv6 {a : BitVec 128} (h : a.extractLsb' 32 96 ≠ mappedPrefix)
    (hne : a ≠ 0) : normalizeAddress (.ipv6 a) = .ipv6 a := by
  rw [normalizeAddress, HostAddress.toIPv4Address, if_neg h, if_neg hne]
  rfl

/-- The family of an address; anything but IPv6 counts as IPv4. -/
def familyOf (address : HostAddress) : Family :=
  match normalizeAddress address with
  | .ipv6 _ => .IPv6
  | _ => .IPv4

/-- The private IPv4 subnets of `isLocalAddress`. -/
def localSubnets : List (BitVec 32 × ℕ) :=
  [(dotted 10 0 0 0, 8), (dotted 172 16 0 0, 12), (dotted 192 168 0 0, 16),
    (dotted 169 254 0 0, 16), (dotted 127 0 0 0, 8)]

/-- Loopback, RFC 1918, link-local and IPv6 unique-local addresses. -/
def isLocalAddress (raw : HostAddress) : Bool :=
  let address := normalizeAddress raw
  if address.isLoopback || address.isLinkLocal then true
  else match address with
    | .ipv4 _ => localSubnets.any address.isInSubnet
    | _ => address.isUniqueLocalUnicast

/-- An address and a UDP port. -/
structure Endpoint where
  address : HostAddress
  port : UInt16
  deriving DecidableEq

namespace Endpoint

instance : Inhabited Endpoint := ⟨⟨.null, 0⟩⟩

/-- The endpoint at an address, normalised. -/
def of (addr : HostAddress) (p : UInt16) : Endpoint := ⟨normalizeAddress addr, p⟩

/-- Whether the endpoint has an address and a port. -/
def isValid (e : Endpoint) : Bool := e.address != .null && e.port != 0

/-- The family of the endpoint's address. -/
def family (e : Endpoint) : Family := familyOf e.address

/-- The bytes of a number of `n` bytes, most significant first. -/
def bytesOf (n : ℕ) (v : ℕ) : Bytes := (List.range n).map fun i =>
    UInt8.ofNat (v / 256 ^ (n - 1 - i))

/-- BEP 5 compact peer info: 4+2 bytes for IPv4, 16+2 for IPv6. -/
def toCompact (e : Endpoint) : Bytes :=
  match e.address with
  | .ipv4 a => bytesOf 4 a.toNat ++ bytesOf 2 e.port.toNat
  | .ipv6 a => bytesOf 16 a.toNat ++ bytesOf 2 e.port.toNat
  | .null => bytesOf 16 0 ++ bytesOf 2 e.port.toNat

/-- The endpoint of compact peer info, if it has the length of one. -/
def fromCompact (bytes : Bytes) : Option Endpoint :=
  if bytes.length = 6 then
    some (of (.ipv4 (BitVec.ofNat 32 (NodeId.bigEndian (bytes.take 4))))
      (UInt16.ofNat (NodeId.bigEndian (bytes.drop 4))))
  else if bytes.length = 18 then
    some (of (.ipv6 (BitVec.ofNat 128 (NodeId.bigEndian (bytes.take 16))))
      (UInt16.ofNat (NodeId.bigEndian (bytes.drop 16))))
  else none

/-! ### Compact and back -/

@[simp]
theorem length_bytesOf (n v : ℕ) : (bytesOf n v).length = n := by simp [bytesOf]

/-- The first byte is the most significant one. -/
theorem bytesOf_succ (n v : ℕ) : bytesOf (n + 1) v = UInt8.ofNat (v / 256 ^ n) :: bytesOf n v := by
  rw [bytesOf, List.range_succ_eq_map, List.map_cons, List.map_map, bytesOf]
  congr 1
  refine List.map_congr_left fun i _ => ?_
  rw [Function.comp_apply, Nat.add_sub_cancel, Nat.succ_eq_add_one, Nat.sub_sub, Nat.add_comm 1 i]

theorem bigEndian_bytesOf (n v : ℕ) : NodeId.bigEndian (bytesOf n v) = v % 256 ^ n := by
  induction n with
  | zero => simp [bytesOf, NodeId.bigEndian, Nat.mod_one]
  | succ n ih =>
    rw [bytesOf_succ, NodeId.bigEndian, length_bytesOf, ih, Nat.mod_pow_succ, UInt8.toNat_ofNat',
      mul_comm, add_comm]

/-- An address is normalised once and for all. -/
@[simp]
theorem normalizeAddress_idem (address : HostAddress) :
    normalizeAddress (normalizeAddress address) = normalizeAddress address := by
  cases address with
  | null => rfl
  | ipv4 a => rfl
  | ipv6 a =>
    by_cases hmapped : a.extractLsb' 32 96 = mappedPrefix
    · rw [normalizeAddress_mapped hmapped]
      rfl
    · by_cases hzero : a = 0
      · rw [hzero, normalizeAddress_unspecified]
        rfl
      · rw [normalizeAddress_ipv6 hmapped hzero, normalizeAddress_ipv6 hmapped hzero]

/-- Compact peer info of an endpoint with an address is read as the endpoint, if that was
    normalised. -/
theorem fromCompact_toCompact {e : Endpoint} (hnull : e.address ≠ .null)
    (hnormal : normalizeAddress e.address = e.address) : fromCompact e.toCompact = some e := by
  obtain ⟨address, port⟩ := e
  have hport : UInt16.ofNat (NodeId.bigEndian (bytesOf 2 port.toNat)) = port := by
    have hlt : port.toNat < 256 ^ 2 := port.toNat_lt
    rw [bigEndian_bytesOf, Nat.mod_eq_of_lt hlt, UInt16.ofNat_toNat]
  cases address with
  | null => exact absurd rfl hnull
  | ipv4 a =>
    have haddress : NodeId.bigEndian (bytesOf 4 a.toNat) = a.toNat := by
      have hlt : a.toNat < 256 ^ 4 := a.isLt
      rw [bigEndian_bytesOf, Nat.mod_eq_of_lt hlt]
    rw [toCompact, fromCompact, if_pos (by simp), List.take_left' (length_bytesOf _ _),
      List.drop_left' (length_bytesOf _ _), hport, haddress, BitVec.ofNat_toNat, BitVec.setWidth_eq,
      of, hnormal]
  | ipv6 a =>
    have haddress : NodeId.bigEndian (bytesOf 16 a.toNat) = a.toNat := by
      have hlt : a.toNat < 256 ^ 16 := a.isLt
      rw [bigEndian_bytesOf, Nat.mod_eq_of_lt hlt]
    rw [toCompact, fromCompact, if_neg (by simp), if_pos (by simp),
      List.take_left' (length_bytesOf _ _), List.drop_left' (length_bytesOf _ _), hport, haddress,
      BitVec.ofNat_toNat, BitVec.setWidth_eq, of, hnormal]

end Endpoint

/-- Why an endpoint handed over by the network cannot be contacted. -/
inductive AddressProblem
  | None
  | ZeroPort
  | Unspecified
  | Local
  | Multicast
  | Reserved
  deriving DecidableEq, Repr

/-- The reserved IPv4 subnets of `addressProblem`. -/
def reservedSubnets : List (BitVec 32 × ℕ) :=
  [(dotted 100 64 0 0, 10), (dotted 192 0 0 0, 24), (dotted 192 0 2 0, 24), (dotted 198 18 0 0, 15),
    (dotted 198 51 100 0, 24), (dotted 203 0 113 0, 24), (dotted 240 0 0 0, 4)]

/-- What is wrong with an endpoint, the first problem found. -/
def addressProblem (endpoint : Endpoint) (allowLocal : Bool) : AddressProblem :=
  let a := endpoint.address
  let portProblem := if endpoint.port = 0 then AddressProblem.ZeroPort else .None
  if a = .null || a = .ipv4 0 || a = .ipv6 0 then .Unspecified
  else if a.isInSubnet (0, 8) then .Unspecified
  else if a.isMulticast || a.isBroadcast then .Multicast
  else if isLocalAddress a then
    if !allowLocal then .Local else portProblem
  else match a with
    | .ipv6 b =>
      -- Every globally routed IPv6 address is in 2000::/3.
      let isGlobal := samePrefix b (0x2000#16 ++ 0#112) 3
      let documentation := samePrefix b (0x20010db8#32 ++ 0#96) 32
      if !isGlobal || documentation then .Reserved else portProblem
    | _ => if reservedSubnets.any a.isInSubnet then .Reserved else portProblem

/-- Whether an endpoint handed over by the network is worth contacting. -/
def isUsableRemote (endpoint : Endpoint) (allowLocal : Bool) : Bool :=
  addressProblem endpoint allowLocal = .None

end Dht
