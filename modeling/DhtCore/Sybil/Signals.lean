import DhtCore.NodeCatalog.Entry

/-!
# Signals

What may make an address suspicious (`SybilSignal`), the addresses with a signal
(`AddressSignals`), and whether a node passes a filter on signals (`matchesSignals`): two of
the signals are judged by what the node itself did, and the others by its address.
-/

namespace Dht

/-- Signals that a group of nodes may be run by one party. -/
inductive SybilSignal
  | ManyNodes
  | DenseSubnet
  | SharedId
  | DenseIds
  | PointsToSelf
  | InventsPeers
  deriving DecidableEq, Repr

/-- The bit of a signal. -/
def SybilSignal.bit : SybilSignal → ℕ
  | .ManyNodes => 0
  | .DenseSubnet => 1
  | .SharedId => 2
  | .DenseIds => 3
  | .PointsToSelf => 4
  | .InventsPeers => 5

/-- The bit of a signal. -/
def SybilSignal.value (s : SybilSignal) : UInt8 := 1 <<< UInt8.ofNat s.bit

/-- Whether a signal is among some. -/
def SybilSignal.isIn (s : SybilSignal) (signals : UInt8) : Bool := signals &&& s.value ≠ 0

/-- Stands for two or more signals, in filters. -/
def SeveralSignals : UInt8 := (1 : UInt8) <<< 7

/-- The number of bits set (`std::popcount`). -/
def popcount (x : UInt8) : ℕ := (List.range 8).countP fun i => x.toBitVec.getLsbD i

/-- The addresses with a signal, and the signals of each, sorted by address. -/
structure AddressSignals where
  items : List (BitVec 128 × UInt8)
  deriving Inhabited

/-- The signals of an address: the first item not before it, if it is of the address. -/
def AddressSignals.at (s : AddressSignals) (address : BitVec 128) : UInt8 :=
  match s.items.dropWhile fun item => item.1 < address with
  | (key, bits) :: _ => if key = address then bits else 0
  | [] => 0

/-- The signals of an address, if any were computed. -/
def signalsAt (suspicion : Option AddressSignals) (address : BitVec 128) : UInt8 :=
  match suspicion with
  | some s => s.at address
  | none => 0

/-- From this share of its own addresses in what it lists, a node points to itself. -/
def PointsToSelfAt : UInt8 := 50

/-- Whether a node matches a filter on signals. -/
def matchesSignals (entry : CatalogEntry) (filter : UInt8) (suspicion : Option AddressSignals) :
    Bool :=
  if filter = 0 then true
  else if SybilSignal.PointsToSelf.isIn filter ∧ entry.state = .Responsive ∧
      entry.selfListShare ≠ CatalogEntry.NoShare ∧ entry.selfListShare ≥ PointsToSelfAt then true
  else if SybilSignal.InventsPeers.isIn filter ∧ entry.has .InventsPeers then true
  else
    let bits := signalsAt suspicion entry.address
    if filter &&& SeveralSignals ≠ 0 ∧ popcount bits ≥ 2 then true
    else bits &&& filter &&& ~~~(SybilSignal.PointsToSelf.value |||
      SybilSignal.InventsPeers.value ||| SeveralSignals) ≠ 0

end Dht
