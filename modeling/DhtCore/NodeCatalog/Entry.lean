import DhtCore.NodeCatalog.Basic

/-!
# Catalogue entries

What is read from the fields of a `CatalogEntry`, and written to them: its address, its
version, and the flags, which are packed into one word with the tries of a feature check
and the number of samples.
-/

namespace Dht

/-- What the feature checks found, and whether there is one to come
    (`CatalogEntry::Flag`). -/
inductive CatalogFlag
  | Tested51
  | Has51
  | Tested44
  | Has44
  | Tested32
  | Has32
  | TestedIp
  | SendsIp
  | TestedUnknown
  | Answers204
  | AnswersOther
  | ListsBogons
  | FeatureQueued
  | AnswersError
  | Rejoined
  | TestedPeers
  | InventsPeers
  deriving DecidableEq, Repr

/-- The bit of a flag; two bits, from the 13th on, count tries. -/
def CatalogFlag.bit : CatalogFlag → ℕ
  | .Tested51 => 0
  | .Has51 => 1
  | .Tested44 => 2
  | .Has44 => 3
  | .Tested32 => 4
  | .Has32 => 5
  | .TestedIp => 6
  | .SendsIp => 7
  | .TestedUnknown => 8
  | .Answers204 => 9
  | .AnswersOther => 10
  | .ListsBogons => 11
  | .FeatureQueued => 12
  | .AnswersError => 15
  | .Rejoined => 16
  | .TestedPeers => 17
  | .InventsPeers => 18

/-- The word with the flag alone. -/
def CatalogFlag.value (f : CatalogFlag) : UInt32 := 1 <<< UInt32.ofNat f.bit

/-- The number of a state. -/
def CatalogState.index : CatalogState → UInt32
  | .New => 0
  | .Responsive => 1
  | .Silent => 2
  | .Gone => 3
  | .Unroutable => 4

/-- How the identifier of a node relates to its address. -/
inductive Bep42.Status
  | Unknown
  | Compliant
  | NonCompliant
  | Exempt
  deriving DecidableEq, Repr

/-- The number of a status, as entries keep it. -/
def Bep42.Status.toByte : Status → UInt8
  | Unknown => 0
  | Compliant => 1
  | NonCompliant => 2
  | Exempt => 3

namespace CatalogEntry

/-- No round-trip time is known. -/
def NoRtt : UInt16 := 0xffff

/-- It is not known how many of the nodes that it lists share its address or subnet. -/
def NoShare : UInt8 := 0xff

/-- Where in the flags the tries of a feature check are. -/
def TriesShift : UInt32 := 13

/-- Where in the flags the sample count is. -/
def SampleCountShift : UInt32 := 19

/-- The sample count that the flags have room for. -/
def MaxSampleCount : ℤ := 2 ^ 13 - 1

variable (e : CatalogEntry)

/-- Whether a flag is set. -/
def has (f : CatalogFlag) : Bool := e.flags &&& f.value ≠ 0

/-- The entry with a flag set, or cleared. -/
def set (f : CatalogFlag) (on : Bool := true) : CatalogEntry :=
  { e with flags := if on then e.flags ||| f.value else e.flags &&& ~~~f.value }

/-- How often the feature check to be made has been tried. -/
def featureTries : ℕ := ((e.flags >>> TriesShift) &&& 3).toNat

/-- Sets the tries of a feature check, three at most. -/
def setFeatureTries (tries : ℤ) : CatalogEntry :=
  { e with flags := (e.flags &&& ~~~(3 <<< TriesShift)) |||
    (UInt32.ofNat (max 0 (min tries 3)).toNat <<< TriesShift) }

/-- How many infohashes the node said it stores. -/
def sampleCount : UInt32 := e.flags >>> SampleCountShift

/-- Sets the sample count, as far as there is room for it. -/
def setSampleCount (count : ℤ) : CatalogEntry :=
  { e with flags := (e.flags &&& ((1 <<< SampleCountShift) - 1)) |||
    (UInt32.ofNat (max 0 (min count MaxSampleCount)).toNat <<< SampleCountShift) }

/-- Whether no feature check is left to be made. -/
def featuresDone : Bool :=
  e.has .Tested51 && e.has .Tested44 && e.has .TestedPeers && e.has .TestedUnknown

/-- Whether a key is that of an IPv4 address. -/
def isMappedV4 (address : BitVec 128) : Bool :=
  address.extractLsb' 32 96 = HostAddress.mappedPrefix

/-- Whether the address is one of IPv4, mapped. -/
def isIPv4 : Bool := isMappedV4 e.address

/-- The family of the address. -/
def family : Family := if e.isIPv4 then .IPv4 else .IPv6

/-- The address of a key. -/
def addressOf (address : BitVec 128) : HostAddress :=
  if isMappedV4 address then .ipv4 (address.extractLsb' 0 32) else .ipv6 address

/-- The address, unmapped if it is one of IPv4. -/
def hostAddress : HostAddress := addressOf e.address

/-- The address and port. -/
def endpoint : Endpoint := Endpoint.of e.hostAddress e.port

/-- The field as received, but that bytes past the fourth read as zero. -/
def versionBytes : Bytes :=
  let length := e.versionLength.toNat
  (Endpoint.bytesOf 4 e.version.toNat).take length ++ List.replicate (length - 4) 0

/-- The entry with what a node says it runs: at most 254 bytes of it count, and the first
    four are kept. -/
def setVersion (v : Bytes) : CatalogEntry :=
  { e with
    versionLength := UInt8.ofNat (min v.length 254)
    version := BitVec.ofNat 32 (NodeId.bigEndian (v.take 4 ++ List.replicate (4 - v.length) 0)) }

/-- The version field packed into one number. -/
def versionKey : ℕ := e.versionLength.toNat <<< 32 ||| e.version.toNat

/-- The number a version field is packed into. -/
def versionKeyFor (v : Bytes) : ℕ := ((default : CatalogEntry).setVersion v).versionKey

/-- The field that was packed into a number. -/
def versionBytesForKey (key : ℕ) : Bytes :=
  (List.range (key >>> 32)).map fun i => if i < 4 then UInt8.ofNat (key >>> (24 - 8 * i)) else 0

end CatalogEntry

/-- The time since a stamp, without end if there is none. -/
def NodeCatalog.ageMs (c : NodeCatalog) (stamp : UInt32) (nowMs : ℤ) : ℤ :=
  if stamp = 0 then 2 ^ 63 - 1
  else (((c.stamp nowMs).toNat : ℤ) - stamp.toNat) * NodeCatalog.TickMs

/-- The key of an address (`keyOf`): IPv4 as mapped into IPv6. -/
def HostAddress.key : HostAddress → BitVec 128
  | .null => 0
  | .ipv4 a => mappedPrefix ++ a
  | .ipv6 a => a

end Dht
