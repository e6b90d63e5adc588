import DhtCore.Lib.Runs
import DhtCore.Lib.Sorting
import DhtCore.NodeCatalog.Invariant
import DhtCore.NodeId.Order
import DhtCore.Sybil.Signals
import Mathlib.Data.List.AList

/-!
# Suspicious groups

Groups of answering nodes that may be run by one party (`computeSybilReport`): many nodes at
an address, many addresses in a subnet, an identifier at several addresses, and identifiers
closer to one another than chance would have them; and the signals of every address that is
in one, or whose nodes themselves give it away. A group is a run of the answering nodes in
some order: by address for the first two, and by identifier for the others.

The tail of the Poisson distribution is a parameter, as are what sorts (`sorting`) and the
text of an address. What `suspicion` is marked with is listed, in the order in which it is.
-/

namespace Dht

open HostAddress

namespace Sybil

/-- An answering node. -/
structure Item where
  address : BitVec 128
  id : NodeId
  port : UInt16
  selfShare : UInt8
  compliant : Bool
  inventsPeers : Bool
  deriving Inhabited

/-- What the nodes at an address have in common. -/
structure AddressInfo where
  address : BitVec 128
  nodes : ℕ
  compliant : ℕ
  prefixes : ℕ
  deriving Inhabited

/-- An address, and what is suspicious about its nodes. -/
structure SuspectAddress where
  address : HostAddress
  answeringNodes : ℕ
  compliantNodes : ℕ
  distinctPrefixes : ℕ
  suspicion : UInt8

/-- A subnet that many addresses with nodes are in. -/
structure SuspectSubnet where
  base : HostAddress
  bits : ℤ
  addresses : ℕ
  answeringNodes : ℕ

/-- An ID that nodes at several addresses have. -/
structure SharedIdGroup where
  id : NodeId
  addresses : ℕ
  /-- A few of them. -/
  sample : List HostAddress

/-- IDs closer together than chance would have them. -/
structure DenseIdWindow where
  idPrefix : NodeId
  bits : ℕ
  nodes : ℕ
  /-- The nodes a window of this size holds by chance. -/
  expected : ℚ
  /-- The probability of any such window by chance. -/
  chance : ℚ
  addresses : ℕ

/-- A node that mostly lists nodes of its own address or subnet. -/
structure SelfPointer where
  address : HostAddress
  port : UInt16
  sharePercent : UInt8

/-- A node that tells of peers nobody announced. -/
structure PeerInventor where
  address : HostAddress
  port : UInt16

/-- What is suspicious about the nodes that answer. -/
structure Report where
  answeringNodes : ℕ := 0
  manyNodes : List SuspectAddress := []
  denseSubnets : List SuspectSubnet := []
  sharedIds : List SharedIdGroup := []
  denseWindows : List DenseIdWindow := []
  selfPointers : List SelfPointer := []
  peerInventors : List PeerInventor := []
  /-- Those with two signals or more. -/
  flagged : List SuspectAddress := []
  flaggedCount : ℕ := 0
  manyNodesCount : ℕ := 0
  denseSubnetCount : ℕ := 0
  sharedIdCount : ℕ := 0
  selfPointerCount : ℕ := 0
  peerInventorCount : ℕ := 0
  denseWindowCount : ℕ := 0
  addressSignals : AddressSignals := ⟨[]⟩

/-- An address with so many nodes has many. -/
def ManyNodesAt : ℕ := 5

/-- A subnet with so many addresses is dense. -/
def DenseSubnetAt : ℕ := 8

/-- A window is dense that comes about by chance less often. -/
def DenseWindowChance : ℚ := 1 / 1000

/-- How many of each kind are listed. -/
def MaxListed : ℕ := 50

/-- The answering node an entry is. -/
def itemOf (e : CatalogEntry) : Item where
  address := e.address
  id := e.id
  port := e.port
  selfShare := e.selfListShare
  compliant := e.bep42 = Bep42.Status.Compliant.toByte
  inventsPeers := e.has .InventsPeers

/-- The nodes that answered their latest query. -/
def answering (c : NodeCatalog) : List CatalogEntry :=
  (c.slots.map c.entryAt).filter fun e => e.state = .Responsive

/-- Whether two addresses are in one subnet: a /24, or a /48. -/
def sameSubnet (a b : BitVec 128) : Bool :=
  let bits := if CatalogEntry.isMappedV4 a then 15 * 8 else 6 * 8
  CatalogEntry.isMappedV4 a = CatalogEntry.isMappedV4 b && samePrefix a b bits

/-- The subnet an address is judged in, and its bits. -/
def subnetOf : HostAddress → HostAddress × ℤ
  | .ipv4 a => (.ipv4 (a &&& 0xffffff00), 24)
  | .ipv6 a => (.ipv6 (a >>> 80 <<< 80), 48)
  | .null => (.ipv6 0, 48)

/-- The first 21 bits of an ID, which a compliant node has from its address. -/
def prefix21 (id : NodeId) : ℕ :=
  ((id.bytes.getD 0 0).toNat <<< 16 ||| (id.bytes.getD 1 0).toNat <<< 8 |||
    (id.bytes.getD 2 0).toNat) >>> 3

/-- How many distinct keys there are: one of every run of the sorted keys is left. -/
def distinct {α : Type} [DecidableEq α] [LE α] [DecidableLE α] (keys : List α) : ℕ :=
  (Runs.runs (fun a b => a = b) (keys.mergeSort (· ≤ ·))).length

/-! ## By address -/

/-- The nodes at each address, from the items in the order of addresses. -/
def addressRuns (items : List Item) : List (List Item) :=
  Runs.runs (fun a b => b.address = a.address) items

/-- What is known of an address from its nodes. -/
def addressInfo (run : List Item) : AddressInfo where
  address := (run.headD default).address
  nodes := run.length
  compliant := run.countP (·.compliant)
  prefixes := distinct (run.map fun i => prefix21 i.id)

/-- Whether a node lists mostly its own address or subnet. -/
def pointsToSelf (i : Item) : Bool :=
  i.selfShare ≠ CatalogEntry.NoShare && i.selfShare ≥ PointsToSelfAt

/-- What the nodes at an address are marked with. -/
def addressMarks (run : List Item) : List (BitVec 128 × SybilSignal) :=
  let info := addressInfo run
  run.flatMap (fun i =>
    (if pointsToSelf i then [(info.address, SybilSignal.PointsToSelf)] else []) ++
      if i.inventsPeers then [(info.address, SybilSignal.InventsPeers)] else []) ++
  if info.nodes ≥ ManyNodesAt then [(info.address, SybilSignal.ManyNodes)] else []

/-- The addresses of each subnet, from those in order. -/
def subnetRuns (addresses : List AddressInfo) : List (List AddressInfo) :=
  Runs.runs (fun a b => sameSubnet b.address a.address) addresses

/-- Whether the addresses of a subnet are many. -/
def isDenseSubnet (run : List AddressInfo) : Bool := run.length ≥ DenseSubnetAt

/-- What is listed of a dense subnet. -/
def denseSubnet (run : List AddressInfo) : SuspectSubnet :=
  let (base, bits) := subnetOf (CatalogEntry.addressOf (run.headD default).address)
  { base, bits, addresses := run.length, answeringNodes := (run.map (·.nodes)).sum }

/-- What the addresses of a subnet are suspected for. -/
def subnetMarks (run : List AddressInfo) : List (BitVec 128 × SybilSignal) :=
  if isDenseSubnet run then run.map fun info => (info.address, SybilSignal.DenseSubnet) else []

/-! ## By identifier -/

/-- The nodes of each identifier, from the items in the order of identifiers. -/
def idRuns (items : List Item) : List (List Item) := Runs.runs (fun a b => b.id = a.id) items

/-- The addresses of some nodes, one after the other. -/
def addressesOf (run : List Item) : List (BitVec 128) :=
  (Runs.runs (fun a b => b = a) (run.map (·.address))).filterMap List.head?

/-- Whether nodes at several addresses have the ID. -/
def isSharedId (run : List Item) : Bool := (addressesOf run).length ≥ 2

/-- What is listed of a shared ID. -/
def sharedIdGroup (run : List Item) : SharedIdGroup where
  id := (run.headD default).id
  addresses := (addressesOf run).length
  sample := ((addressesOf run).take 5).map CatalogEntry.addressOf

/-- What the addresses with an ID are suspected for. -/
def idMarks (run : List Item) : List (BitVec 128 × SybilSignal) :=
  if isSharedId run then run.map fun i => (i.address, SybilSignal.SharedId) else []

/-- The depths of the windows, of so many identifiers. -/
def depths (n : ℕ) : List ℕ :=
  if n ≥ 16 then
    let base := Nat.log2 n
    [base, base + 4, base + 8, base + 12].takeWhile (· ≤ NodeId.Bits)
  else []

/-- The windows of a depth, from the identifiers in order. -/
def windowRuns (depth : ℕ) (distinctIds : List NodeId) : List (List NodeId) :=
  Runs.runs (fun a b => NodeId.commonPrefixLength b a ≥ depth) distinctIds

section

variable (poissonTail : ℚ → ℕ → ℚ)

/-- The probability that there is a window of a depth with so many of the identifiers. -/
def windowChance (n depth count : ℕ) : ℚ :=
  min 1 (poissonTail (n / 2 ^ depth) count * 2 ^ depth)

/-- Whether a window holds more IDs than chance would have it. -/
def isDenseWindow (n depth : ℕ) (run : List NodeId) : Bool :=
  run.length ≥ 3 && windowChance poissonTail n depth run.length < DenseWindowChance

/-- The nodes behind the identifiers of a window: those from the first one on. -/
def windowItems (items : List Item) (depth : ℕ) (run : List NodeId) : List Item :=
  (items.dropWhile fun i => i.id < run.headD default).takeWhile fun i =>
    NodeId.commonPrefixLength i.id (run.headD default) ≥ depth

/-- What is listed of a dense window. -/
def denseWindow (items : List Item) (n depth : ℕ) (run : List NodeId) : DenseIdWindow where
  idPrefix := (run.headD default).maskedTo depth
  bits := depth
  nodes := run.length
  expected := n / 2 ^ depth
  chance := windowChance poissonTail n depth run.length
  addresses := distinct ((windowItems items depth run).map (·.address))

/-- The dense windows, and the depth of each. -/
def denseRuns (distinctIds : List NodeId) : List (ℕ × List NodeId) :=
  (depths distinctIds.length).flatMap fun depth =>
    ((windowRuns depth distinctIds).filter
      (isDenseWindow poissonTail distinctIds.length depth)).map fun run => (depth, run)

/-- What the addresses of a window are suspected for. -/
def windowMarks (items : List Item) (window : ℕ × List NodeId) :
    List (BitVec 128 × SybilSignal) :=
  (windowItems items window.1 window.2).map fun i => (i.address, SybilSignal.DenseIds)

end

/-- The windows without the wider ones that add little to those in them. -/
def keepTightest (windows : List DenseIdWindow) : List DenseIdWindow :=
  windows.foldl (fun kept w =>
    let covered := kept.any fun inner =>
      NodeId.commonPrefixLength inner.idPrefix w.idPrefix ≥ w.bits &&
      w.nodes * 10 ≤ inner.nodes * 11
    if covered then kept else kept ++ [w]) []

/-! ## The report -/

/-- The signals of each address that has one. -/
abbrev Suspicion := AList fun _ : BitVec 128 => UInt8

/-- One more signal of an address. -/
def Suspicion.mark (s : Suspicion) (m : BitVec 128 × SybilSignal) : Suspicion :=
  s.insert m.1 ((s.lookup m.1).getD 0 ||| m.2.value)

/-- What is known of an address, of those in order. -/
def infoFor (addresses : List AddressInfo) (key : BitVec 128) : Option AddressInfo :=
  ((addresses.dropWhile fun a => a.address < key).head?).filter fun a => a.address = key

/-- An address with its signals. -/
def suspects (addresses : List AddressInfo) (suspicion : Suspicion) : List SuspectAddress :=
  suspicion.entries.filterMap fun ⟨key, bits⟩ => (infoFor addresses key).map fun info =>
    { address := CatalogEntry.addressOf key
      answeringNodes := info.nodes
      compliantNodes := info.compliant
      distinctPrefixes := info.prefixes
      suspicion := bits }

/-- Whether an address has many nodes. -/
def isManyNodes (s : SuspectAddress) : Bool := SybilSignal.ManyNodes.isIn s.suspicion

/-- Whether an address is suspected for more than one thing. -/
def isFlagged (s : SuspectAddress) : Bool := popcount s.suspicion ≥ 2

section

variable (sorting : (α : Type) → Sorting.Algorithm α)

/-- Nodes in the order of their addresses. -/
def byAddress (items : List Item) : List Item :=
  (sorting Item).sort (fun a b => a.address < b.address) items

/-- Nodes in the order of their IDs, and then of their addresses. -/
def byId (items : List Item) : List Item :=
  (sorting Item).sort (fun a b => if a.id ≠ b.id then a.id < b.id else a.address < b.address)
    items

/-- The windows in the order of their bits, the tightest first. -/
def byBits (windows : List DenseIdWindow) : List DenseIdWindow :=
  (sorting DenseIdWindow).sort (fun a b => a.bits > b.bits) windows

/-- The signals by address. -/
def sortSignals (suspicion : Suspicion) : AddressSignals :=
  ⟨(sorting (BitVec 128 × UInt8)).sort (fun a b => a.1 < b.1 || (a.1 = b.1 && a.2 < b.2))
    (suspicion.entries.map fun e => (e.1, e.2))⟩

variable (addressText : HostAddress → String)

/-- Addresses with more nodes come first. -/
def byNodes (a b : SuspectAddress) : Bool :=
  if a.answeringNodes ≠ b.answeringNodes then a.answeringNodes > b.answeringNodes
  else addressText a.address < addressText b.address

/-- At most so many of a list are listed. -/
def trim {α : Type} (list : List α) : List α := list.take MaxListed

variable (poissonTail : ℚ → ℕ → ℚ)

/-- The report on the nodes of a catalog that answer. -/
def computeSybilReport (c : NodeCatalog) : Report :=
  let items := (answering c).map itemOf
  if items.isEmpty then {}
  else
    let ordered := byAddress sorting items
    let addresses := (addressRuns ordered).map addressInfo
    let selfPointers := (ordered.filter pointsToSelf).map fun i =>
      SelfPointer.mk (CatalogEntry.addressOf i.address) i.port i.selfShare
    let peerInventors := (ordered.filter (·.inventsPeers)).map fun i =>
      PeerInventor.mk (CatalogEntry.addressOf i.address) i.port
    let denseSubnets := ((subnetRuns addresses).filter isDenseSubnet).map denseSubnet
    let items := byId sorting ordered
    let distinctIds := (idRuns items).map fun run => (run.headD default).id
    let sharedIds := ((idRuns items).filter isSharedId).map sharedIdGroup
    let dense := denseRuns poissonTail distinctIds
    let denseWindows := keepTightest (byBits sorting (dense.map fun w =>
      denseWindow poissonTail items distinctIds.length w.1 w.2))
    let suspicion : Suspicion := ((addressRuns ordered).flatMap addressMarks ++
      (subnetRuns addresses).flatMap subnetMarks ++ (idRuns items).flatMap idMarks ++
      dense.flatMap (windowMarks items)).foldl Suspicion.mark ∅
    let manyNodes := (suspects addresses suspicion).filter isManyNodes
    let flagged := (suspects addresses suspicion).filter isFlagged
    { answeringNodes := items.length
      manyNodes := trim ((sorting SuspectAddress).sort (byNodes addressText) manyNodes)
      denseSubnets := trim ((sorting SuspectSubnet).sort
        (fun a b => if a.addresses ≠ b.addresses then a.addresses > b.addresses
          else a.answeringNodes > b.answeringNodes) denseSubnets)
      sharedIds := trim ((sorting SharedIdGroup).sort (fun a b => a.addresses > b.addresses)
        sharedIds)
      denseWindows := trim ((sorting DenseIdWindow).sort (fun a b => a.chance < b.chance)
        denseWindows)
      selfPointers := trim ((sorting SelfPointer).sort
        (fun a b => a.sharePercent > b.sharePercent) selfPointers)
      peerInventors := trim peerInventors
      flagged := trim ((sorting SuspectAddress).sort
        (fun a b =>
          if popcount a.suspicion ≠ popcount b.suspicion then
            popcount a.suspicion > popcount b.suspicion
          else byNodes addressText a b) flagged)
      flaggedCount := flagged.length
      manyNodesCount := manyNodes.length
      denseSubnetCount := denseSubnets.length
      sharedIdCount := sharedIds.length
      selfPointerCount := selfPointers.length
      peerInventorCount := peerInventors.length
      denseWindowCount := denseWindows.length
      addressSignals := sortSignals sorting suspicion }

end

end Sybil

end Dht
