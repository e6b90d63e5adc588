import DhtCore.Endpoint

/-!
# Node identifiers bound to addresses

BEP 42: the first bits of an identifier come from a checksum of the node's address
(`generate`), which others can check (`isCompliant`).
-/

namespace Dht

/-- An entry of the table of `crc32c`. -/
def crcTable (i : BitVec 32) : BitVec 32 :=
  (List.range 8).foldl
    (fun c _ => if c &&& 1#32 ≠ 0#32 then (c >>> 1) ^^^ 0x82F63B78#32 else c >>> 1) i

/-- The CRC-32C of some bytes. -/
def crc32c (data : Bytes) : BitVec 32 :=
  data.foldl (fun crc ch => crcTable ((crc ^^^ BitVec.ofNat 32 ch.toNat) &&& 0xFF#32)
    ^^^ (crc >>> 8))
    0xFFFFFFFF#32 ^^^ 0xFFFFFFFF#32

namespace Bep42

/-- The bits of an address the checksum is of. -/
def maskedPrefix (raw : HostAddress) : Bytes :=
  match normalizeAddress raw with
  | .ipv4 a => List.zipWith (· &&& ·) (Endpoint.bytesOf 4 a.toNat) [0x03, 0x0f, 0x3f, 0xff]
  | .ipv6 a =>
    List.zipWith (· &&& ·) ((Endpoint.bytesOf 16 a.toNat).take 8)
      [0x01, 0x03, 0x07, 0x0f, 0x1f, 0x3f, 0x7f, 0xff]
  | .null => List.replicate 8 0

/-- The checksum of an address and a byte of the identifier. -/
def prefixCrc (raw : HostAddress) (rand : UInt8) : BitVec 32 :=
  crc32c ((maskedPrefix raw).modifyHead (· ||| ((rand &&& 0x7) <<< 5)))

/-- Whether the ID of a node at an address may be any: a local one. -/
def isExempt (address : HostAddress) : Bool := isLocalAddress address

/-- The identifier for an address, given a random identifier and random bits to fill
    the rest with. -/
def generate (address : HostAddress) (rand : UInt8) (random : NodeId) (low : UInt8) : NodeId :=
  let crc := prefixCrc address rand
  let byte (n : ℕ) : UInt8 := UInt8.ofNat (crc >>> n).toNat
  { bytes := (((random.bytes.set 0 (byte 24)).set 1 (byte 16)).set 2
      ((byte 8 &&& 0xf8) ||| (low &&& 0x7))).set 19 rand
    size_eq := by simp [random.size_eq] }

/-- Whether an identifier may be that of a node at an address. -/
def isCompliant (id : NodeId) (address : HostAddress) : Bool :=
  let crc := prefixCrc address (id.bytes.getD 19 0)
  let byte (n : ℕ) : UInt8 := UInt8.ofNat (crc >>> n).toNat
  id.bytes.getD 0 0 = byte 24 && id.bytes.getD 1 0 = byte 16 &&
    (id.bytes.getD 2 0 &&& 0xf8) = (byte 8 &&& 0xf8)

end Bep42

end Dht
