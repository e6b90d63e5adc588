import DhtCore.Endpoint
import DhtCore.Lib.LinearProbing

/-!
# The node catalogue

Every node the scan has come across, in slots that are reused, with an index by
address and port: an open-addressing table with linear probing, whose entries
are deleted by shifting others back (`eraseIndex`). When full, a new node takes
the place of another one, chosen from a random sample (`pickVictim`).

The hash function is a parameter, and so are the random draws. A loop over the
table is given fuel for one turn of it; it yields `none` should it not end by
then, as it then never would. The memory `allocate` reserves is left out.

The `history` is not part of the program: it records what was inserted and
evicted, and when all was cleared.
-/

namespace Dht

/-- How a node in the catalogue stands (`CatalogEntry::State`). -/
inductive CatalogState
  | New
  | Responsive
  | Silent
  | Gone
  | Unroutable
  deriving DecidableEq, Repr

/-- What the catalogue is indexed by: an address, as IPv6, and a port. -/
structure CatalogKey where
  address : BitVec 128
  port : UInt16
  deriving DecidableEq

/-- A node the scan knows about. Times are in ticks, zero being never. -/
structure CatalogEntry where
  /-- IPv4 stored as v4-mapped IPv6. -/
  address : BitVec 128 := 0
  port : UInt16 := 0
  state : CatalogState := .New
  /-- The unanswered queries in a row; the `AddressProblem` when unroutable. -/
  failures : UInt8 := 0
  id : NodeId := default
  version : BitVec 32 := 0
  versionLength : UInt8 := 0
  bep42 : UInt8 := 0
  rttMs : UInt16 := 0xffff
  sightings : UInt16 := 0
  inUse : Bool := false
  selfListShare : UInt8 := 0xff
  /-- Changes whenever the slot is reused. -/
  generation : UInt32 := 0
  firstSeen : UInt32 := 0
  lastListed : UInt32 := 0
  lastQueried : UInt32 := 0
  lastAnswered : UInt32 := 0
  answeringSince : UInt32 := 0
  flags : UInt32 := 0
  deriving DecidableEq, Inhabited

namespace CatalogEntry

/-- The key of an entry (`keyOf`). -/
def key (e : CatalogEntry) : CatalogKey := ⟨e.address, e.port⟩

/-- Which entries to give up first when full. -/
def evictionRank : CatalogState → ℤ
  | .Unroutable => 4
  | .Silent => 3
  | .Gone => 3
  | .New => 2
  | .Responsive => 1

/-- When the node was last heard of. -/
def lastSign (e : CatalogEntry) : UInt32 := max (max e.lastAnswered e.lastListed) e.firstSeen

/-- The entry with every field but its identity and its state as in `fields`:
    what may be written through `NodeCatalog::at`. -/
def edited (e fields : CatalogEntry) : CatalogEntry :=
  { fields with
    address := e.address, port := e.port, state := e.state, inUse := e.inUse,
    generation := e.generation }

end CatalogEntry

/-- The key of an endpoint (`keyOf`). -/
def Endpoint.catalogKey (e : Endpoint) : CatalogKey :=
  match e.address with
  | .null => ⟨0, e.port⟩
  | .ipv4 a => ⟨HostAddress.mappedPrefix ++ a, e.port⟩
  | .ipv6 a => ⟨a, e.port⟩

/-- A change to what the catalogue holds. -/
inductive CatalogChange
  | inserted (key : CatalogKey)
  | evicted (key : CatalogKey)
  | cleared
  deriving DecidableEq

/-- The node catalogue. -/
structure NodeCatalog where
  entries : List CatalogEntry := []
  free : List ℕ := []
  /-- Open addressing, linear probing. -/
  table : List ℕ := []
  size : ℤ := 0
  cap : ℤ
  evicted : ℤ := 0
  epochMs : ℤ
  nextGeneration : UInt32 := 1
  counts : CatalogState → ℤ := fun _ => 0
  history : List CatalogChange := []

/-- A reference to an entry. -/
structure CatalogRef where
  slot : ℕ
  generation : UInt32
  deriving DecidableEq

namespace NodeCatalog

open LinearProbing

/-- No slot at all. -/
def NoSlot : ℕ := 0xffffffff

/-- The most entries that a catalog may be told to hold. -/
def MaxCap : ℤ := 50000000

/-- The unit of the times that entries hold, in milliseconds. -/
def TickMs : ℤ := 100

/-- The size of the table at first: a power of two. -/
def InitialTableSize : ℕ := 1024

/-- How many entries are looked at for one to make room. -/
def VictimSample : ℕ := 16

/-- `std::clamp` to what the catalogue can hold. -/
def clampCap (cap : ℤ) : ℤ := max 0 (min cap MaxCap)

/-- An empty catalogue. -/
def new (cap epochMs : ℤ) : NodeCatalog := { cap := clampCap cap, epochMs }

variable (hash : CatalogKey → ℕ) (c : NodeCatalog)

/-- The entry in a slot. -/
def entryAt (slot : ℕ) : CatalogEntry := c.entries.getD slot default

/-- The catalogue with the entry in a slot replaced. -/
def setEntry (slot : ℕ) (e : CatalogEntry) : NodeCatalog :=
  { c with entries := c.entries.set slot e }

/-- The slot at a position of the table. -/
def slotAt (i : ℕ) : ℕ := c.table.getD i NoSlot

/-- The mask that maps a hash into the table. -/
def mask : ℕ := c.table.length - 1

/-- The position of the table after `i`. -/
def nextIndex (i : ℕ) : ℕ := (i + 1) &&& c.mask

/-- The home position of a key. -/
def homeOf (key : CatalogKey) : ℕ := hash key &&& c.mask

/-- The time `nowMs` in ticks. -/
def stamp (nowMs : ℤ) : UInt32 :=
  UInt32.ofNat (max 0 ((nowMs - c.epochMs).tdiv TickMs) + 1).toNat

/-- A reference to the entry in a slot. -/
def ref (slot : ℕ) : CatalogRef := ⟨slot, (c.entryAt slot).generation⟩

/-- Whether the entry a reference is to is still in the catalogue. -/
def isCurrent (ref : CatalogRef) : Bool :=
  ref.slot < c.entries.length && (c.entryAt ref.slot).inUse &&
    (c.entryAt ref.slot).generation = ref.generation

/-- The number of entries in a state. -/
def count (state : CatalogState) : ℤ := c.counts state

/-! ## The index -/

/-- The position of a key in the table. -/
def findIndex (key : CatalogKey) : Option (Option ℕ) :=
  if c.table.isEmpty then some none
  else
    let stop (i : ℕ) : Bool := c.slotAt i = NoSlot || (c.entryAt (c.slotAt i)).key = key
    (scan c.nextIndex stop c.table.length (c.homeOf hash key)).map fun i =>
      if c.slotAt i = NoSlot then none else some i

/-- The slot of an endpoint. -/
def find (endpoint : Endpoint) : Option ℕ :=
  (c.findIndex hash endpoint.catalogKey).map fun
    | some i => c.slotAt i
    | none => NoSlot

/-- Enters a slot into the table. -/
def insertIndex (slot : ℕ) : Option NodeCatalog :=
  (scan c.nextIndex (c.slotAt · = NoSlot) c.table.length (c.homeOf hash (c.entryAt slot).key)).map
    fun i => { c with table := c.table.set i slot }

/-- The loop of `eraseIndex`: the position `i` is to be emptied, and those after
    it up to `j` have been examined. -/
def shiftLoop : ℕ → NodeCatalog → ℕ → ℕ → Option NodeCatalog
  | 0, _, _, _ => none
  | fuel + 1, c, i, j =>
    let j := c.nextIndex j
    if c.slotAt j = NoSlot then some { c with table := c.table.set i NoSlot }
    else
      let home := c.homeOf hash (c.entryAt (c.slotAt j)).key
      let staysPut := if i ≤ j then i < home ∧ home ≤ j else i < home ∨ home ≤ j
      if staysPut then shiftLoop fuel c i j
      else shiftLoop fuel { c with table := c.table.set i (c.slotAt j) } j j

/-- Takes a slot out of the table, shifting back what would no longer be reached. -/
def eraseIndex (slot : ℕ) : Option NodeCatalog :=
  (c.findIndex hash (c.entryAt slot).key).bind fun
    | none => some c
    | some i => shiftLoop hash c.table.length c i i

/-- Makes the table twice as large. -/
def growTable : Option NodeCatalog :=
  let size := if c.table.isEmpty then InitialTableSize else c.table.length * 2
  (List.range c.entries.length).foldlM
    (fun c s => if (c.entryAt s).inUse then c.insertIndex hash s else some c)
    { c with table := List.replicate size NoSlot }

/-! ## Eviction -/

/-- The best victim so far: its slot, its rank and its last sign. -/
structure Victim where
  slot : ℕ := NoSlot
  rank : ℤ := -1
  sign : UInt32 := 0

/-- The better victim of the best so far and a slot. -/
def consider (best : Victim) (s : ℕ) : Victim :=
  let e := c.entryAt s
  if !e.inUse then best
  else
    let rank := CatalogEntry.evictionRank e.state
    let sign := e.lastSign
    if rank > best.rank ∨ (rank = best.rank ∧ sign < best.sign) then ⟨s, rank, sign⟩ else best

/-- The best victim of all slots. -/
def scanVictims (best : Victim) : Victim := (List.range c.entries.length).foldl c.consider best

/-- The best victim of a sample, so many draws being left. -/
def sampleVictims (draw : ℕ → ℕ) : ℕ → ℕ → Victim → Victim
  | 0, _, best => best
  | left + 1, found, best =>
    if found < VictimSample then
      let s := draw left % c.entries.length
      if (c.entryAt s).inUse then sampleVictims draw left (found + 1) (c.consider best s)
      else sampleVictims draw left found best
    else best

/-- The entry to give up. -/
def pickVictim (draw : ℕ → ℕ) : ℕ :=
  if c.entries.length ≤ VictimSample * 4 then (c.scanVictims {}).slot
  else
    let best := c.sampleVictims draw (VictimSample * 8) 0 {}
    if best.slot = NoSlot then (c.scanVictims best).slot else best.slot

/-- Frees a slot. -/
def release (slot : ℕ) : Option NodeCatalog :=
  let e := c.entryAt slot
  (c.eraseIndex hash slot).map fun c =>
    { c.setEntry slot { e with inUse := false } with
      counts := Function.update c.counts e.state (c.counts e.state - 1)
      size := c.size - 1
      free := slot :: c.free
      history := c.history ++ [CatalogChange.evicted e.key] }

/-- Evicts the entry `pickVictim` chooses. -/
def evict (draw : ℕ → ℕ) : Option NodeCatalog :=
  (c.release hash (c.pickVictim draw)).map fun c => { c with evicted := c.evicted + 1 }

/-! ## The calls -/

/-- A slot for a new entry: one that is free, or else a new one. -/
def allocate : NodeCatalog × ℕ :=
  match c.free with
  | s :: free => ({ c with free }, s)
  | [] => ({ c with entries := c.entries ++ [{}] }, c.entries.length)

/-- The rest of `upsert`: enters a new key. -/
def place (key : CatalogKey) (nowMs : ℤ) : Option (NodeCatalog × ℕ) :=
  let (c, slot) := c.allocate
  let next := c.nextGeneration + 1
  let e : CatalogEntry :=
    { address := key.address
      port := key.port
      inUse := true
      generation := c.nextGeneration
      firstSeen := c.stamp nowMs }
  let c := { c.setEntry slot e with
    nextGeneration := if next = 0 then 1 else next
    counts := Function.update c.counts .New (c.counts .New + 1)
    size := c.size + 1
    history := c.history ++ [CatalogChange.inserted key] }
  (c.insertIndex hash slot).map fun c => (c, slot)

/-- The entry of an endpoint, added if it is new: its slot, and whether it was added. -/
def upsert (draw : ℕ → ℕ) (endpoint : Endpoint) (nowMs : ℤ) : Option (NodeCatalog × ℕ × Bool) := do
  let key := endpoint.catalogKey
  match ← c.findIndex hash key with
  | some i => some (c, c.slotAt i, false)
  | none =>
    if c.cap ≤ 0 then some (c, NoSlot, false)
    else do
      let c ← (if c.size ≥ c.cap then c.evict hash draw else some c)
      let c ← (if (c.size + 1) * 2 > c.table.length then c.growTable hash else some c)
      let (c, slot) ← c.place hash key nowMs
      some (c, slot, true)

/-- Changes the state of the entry in a slot. -/
def setState (slot : ℕ) (state : CatalogState) : NodeCatalog :=
  let e := c.entryAt slot
  if e.state = state then c
  else
    let counts := Function.update c.counts e.state (c.counts e.state - 1)
    { c.setEntry slot { e with state } with
      counts := Function.update counts state (counts state + 1) }

/-- Sets how many entries the catalog may hold. -/
def setCap (cap : ℤ) : NodeCatalog := { c with cap := clampCap cap }

/-- The loop of `trim`, so many evictions being left. -/
def trimLoop (draw : ℕ → ℕ → ℕ) : ℕ → NodeCatalog → Option NodeCatalog
  | 0, c => some c
  | left + 1, c =>
    if c.size > c.cap then (c.evict hash (draw left)).bind (trimLoop draw left) else some c

/-- Evicts entries while over the cap, so many at most. -/
def trim (draw : ℕ → ℕ → ℕ) (maxEvictions : ℤ) : Option NodeCatalog :=
  trimLoop hash draw maxEvictions.toNat c

/-- Drops everything; generations go on. -/
def clear (nowMs : ℤ) : NodeCatalog :=
  { new c.cap nowMs with
    cap := c.cap, nextGeneration := c.nextGeneration, history :=
      c.history ++ [CatalogChange.cleared] }

/-- A call that changes the catalogue. -/
inductive Op
  | upsert (draw : ℕ → ℕ) (endpoint : Endpoint) (nowMs : ℤ)
  | setState (slot : ℕ) (state : CatalogState)
  | edit (slot : ℕ) (fields : CatalogEntry)
  | setCap (cap : ℤ)
  | trim (draw : ℕ → ℕ → ℕ) (maxEvictions : ℤ)
  | clear (nowMs : ℤ)

/-- The catalogue after a call, `none` if the call does not end. -/
def apply : Op → Option NodeCatalog
  | .upsert draw endpoint nowMs => (c.upsert hash draw endpoint nowMs).map (·.1)
  | .setState slot state => some (c.setState slot state)
  | .edit slot fields => some (c.setEntry slot ((c.entryAt slot).edited fields))
  | .setCap cap => some (c.setCap cap)
  | .trim draw maxEvictions => c.trim hash draw maxEvictions
  | .clear nowMs => some (c.clear nowMs)

/-- Whether a slot holds an entry. -/
def InUse (slot : ℕ) : Prop := slot < c.entries.length ∧ (c.entryAt slot).inUse

/-- Callers write to the entries of the catalogue only. -/
def Legal : Op → Prop
  | .setState slot _ => c.InUse slot
  | .edit slot _ => c.InUse slot
  | _ => True

/-- A legal call, from a catalogue to another. -/
def Step (c c' : NodeCatalog) : Prop := ∃ op, c.Legal op ∧ c.apply hash op = some c'

/-- The catalogues that calls lead to from an empty one. -/
def Reachable : Prop := ∃ cap epochMs, Relation.ReflTransGen (Step hash) (new cap epochMs) c

end NodeCatalog

end Dht
