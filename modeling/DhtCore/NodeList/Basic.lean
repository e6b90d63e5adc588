import DhtCore.ClientVersion
import DhtCore.NodeCatalog.Invariant
import DhtCore.Lib.Runs
import DhtCore.Lib.Sorting
import DhtCore.Sybil.Signals

/-!
# The node list

The nodes of the catalogue that a `NodeQuery` asks for, in the order it asks for: a page of
them (`queryNodes`), or all of them (`collectNodes`).

What the version of a node reads as is a parameter (`labels`, without the cache of them), as
is how labels compare (`compareText`) and what sorts (`sorting`). How long a query took is
left out.
-/

namespace Dht

open HostAddress

/-- What the nodes are sorted by. -/
inductive NodeQuery.Sort
  | Address
  | RoundTrip
  | LastAnswered
  | FirstSeen
  | Client
  | NodesAtAddress
  deriving DecidableEq, Repr

/-- Which nodes of the catalogue to show, in what order, and which page. -/
structure NodeQuery where
  family : Option Family := none
  /-- A bit for each state. -/
  states : UInt32 := 0x1f
  /-- Any if empty, as for the version. -/
  client : String := ""
  version : String := ""
  bep42 : Option Bep42.Status := none
  /-- No bound if negative, as for the other one. -/
  minRttMs : ℤ := -1
  maxRttMs : ℤ := -1
  /-- Any if there is none. -/
  subnet : HostAddress := .null
  subnetBits : ℤ := -1
  /-- Any if zero. -/
  port : UInt16 := 0
  minNodesAtAddress : ℤ := 0
  idPrefix : NodeId := default
  /-- Any identifier if negative. -/
  idPrefixBits : ℤ := -1
  /-- The flags that must all be set, and those that must all be clear. -/
  flagsSet : UInt32 := 0
  flagsClear : UInt32 := 0
  /-- Signals, any if zero. -/
  suspicion : UInt8 := 0
  sort : NodeQuery.Sort := .Address
  descending : Bool := false
  offset : ℤ := 0
  limit : ℤ := 100

/-- The reason an entry is unroutable, from its number. -/
def AddressProblem.ofByte (n : UInt8) : AddressProblem :=
  match n with
  | 1 => .ZeroPort
  | 2 => .Unspecified
  | 3 => .Local
  | 4 => .Multicast
  | 5 => .Reserved
  | _ => .None

/-- A node as the list shows it. -/
structure NodeListRow where
  endpoint : Endpoint
  id : NodeId
  state : CatalogState
  answered : Bool
  /-- Empty if it never answered, as all it says of itself. -/
  client : String := ""
  version : String := ""
  clientKind : String := ""
  rawVersion : Bytes := []
  rttMs : ℤ
  /-- The number of a `Bep42.Status`. -/
  bep42 : UInt8 := 0
  nodesAtAddress : ℤ
  failures : ℤ := 0
  sightings : UInt16
  firstSeenAgoMs : ℤ
  lastAnsweredAgoMs : ℤ
  lastQueriedAgoMs : ℤ
  flags : UInt32
  selfListSharePercent : ℤ
  bep51Samples : UInt32
  suspicion : UInt8
  problem : AddressProblem := .None

/-- A page of the list. -/
structure NodeListPage where
  matchedNodes : ℤ
  matchedAddresses : ℤ
  offset : ℤ
  rows : List NodeListRow

/-- All that matches a query, the three lists being parallel. -/
structure NodeExport where
  entries : List CatalogEntry
  nodesAtAddress : List ℤ
  suspicion : List UInt8
  nowStamp : UInt32
  tickMs : ℤ

/-! ## Filters -/

/-- An address filter. -/
structure SubnetMatcher where
  any : Bool := true
  key : BitVec 128 := 0
  /-- Of the 128 of the key. -/
  bits : ℕ := 0

/-- The matcher of a subnet, whose bits count from the start of a mapped address. -/
def SubnetMatcher.of (subnet : HostAddress) (prefixBits : ℤ) : SubnetMatcher :=
  if subnet = .null ∨ prefixBits < 0 then {}
  else
    let address := normalizeAddress subnet
    let bits := match address with
      | .ipv4 _ => prefixBits + 96
      | _ => prefixBits
    { any := false, key := address.key, bits := (max 0 (min bits 128)).toNat }

/-- Whether an address, mapped if it is one of IPv4, is in the subnet. -/
def SubnetMatcher.matches (m : SubnetMatcher) (address : BitVec 128) : Bool :=
  m.any || samePrefix address m.key m.bits

/-- The time since a stamp. -/
def ageMs (stamp now : UInt32) (tickMs : ℤ) : ℤ :=
  if stamp = 0 then -1 else ((now.toNat : ℤ) - stamp.toNat) * tickMs

/-- How many nodes are at an address, of those counted. -/
abbrev AddressCounts := BitVec 128 → Option ℤ

/-- One more node at an address. -/
def AddressCounts.increment (counts : AddressCounts) (address : BitVec 128) : AddressCounts :=
  Function.update counts address (some ((counts address).getD 0 + 1))

/-- The nodes at each address of the catalogue. -/
def countAddresses (c : NodeCatalog) : AddressCounts :=
  c.slots.foldl (fun counts s => counts.increment (c.entryAt s).address) fun _ => none

/-- Whether an ID has a prefix of some bits. -/
def idHasPrefix (id idPrefix : NodeId) (bits : ℤ) : Bool :=
  bits ≤ 0 || (id.commonPrefixLength idPrefix : ℤ) ≥ min bits NodeId.Bits

section

variable (labels : ℕ → ClientLabels) (c : NodeCatalog) (q : NodeQuery)

/-- Whether a node passes the filters. -/
def matchesQuery (counts : Option AddressCounts) (suspicion : Option AddressSignals)
    (e : CatalogEntry) : Bool :=
  let rttFilter := q.minRttMs ≥ 0 || q.maxRttMs ≥ 0
  let clientFilter := !q.client.isEmpty || !q.version.isEmpty
  if q.family.any (· ≠ e.family) then false
  else if q.states &&& (1 <<< e.state.index) = 0 then false
  else if q.port ≠ 0 ∧ e.port ≠ q.port then false
  else if !(SubnetMatcher.of q.subnet q.subnetBits).matches e.address then false
  else if q.idPrefixBits > 0 ∧ !idHasPrefix e.id q.idPrefix q.idPrefixBits then false
  else if e.flags &&& q.flagsSet ≠ q.flagsSet ∨ e.flags &&& q.flagsClear ≠ 0 then false
  else if q.suspicion ≠ 0 ∧ !matchesSignals e q.suspicion suspicion then false
  else if q.bep42.any (fun status => e.lastAnswered = 0 || e.bep42 ≠ status.toByte) then false
  else if rttFilter ∧ (e.rttMs = CatalogEntry.NoRtt ∨
      (q.minRttMs ≥ 0 ∧ (e.rttMs.toNat : ℤ) < q.minRttMs) ∨
      (q.maxRttMs ≥ 0 ∧ (e.rttMs.toNat : ℤ) > q.maxRttMs)) then false
  else if clientFilter ∧ (e.lastAnswered = 0 ∨
      (!q.client.isEmpty ∧ (labels e.versionKey).client ≠ q.client) ∨
      (!q.version.isEmpty ∧ (labels e.versionKey).version ≠ q.version)) then false
  else
    match counts with
    | some counts =>
      if q.minNodesAtAddress > 1 then
        (counts e.address).any fun count => !(count < q.minNodesAtAddress)
      else true
    | none => true

/-- The slots of the nodes that pass the filters, in their order. -/
def filterNodes (counts : Option AddressCounts) (suspicion : Option AddressSignals) : List ℕ :=
  c.slots.filter fun s => matchesQuery labels q counts suspicion (c.entryAt s)

/-! ## The order -/

variable (compareText : String → String → Ordering)

/-- By address, then by port. -/
def byAddress (x y : CatalogEntry) : Ordering :=
  (compare x.address.toNat y.address.toNat).then (compare x.port.toNat y.port.toNat)

/-- The order of two values, of which missing ones come last. -/
def ordered (descending : Bool) (vx vy : ℤ) (missingX missingY : Bool) : Ordering :=
  if missingX ≠ missingY then if missingX then .gt else .lt
  else if missingX || vx = vy then .eq
  else
    let c := if vx < vy then Ordering.lt else .gt
    if descending then c.swap else c

/-- The order that the query asks for. -/
def compareNodes (counts : Option AddressCounts) (x y : CatalogEntry) : Ordering :=
  match q.sort with
  | .Address => let c := byAddress x y; if q.descending then c.swap else c
  | .RoundTrip =>
    ordered q.descending x.rttMs.toNat y.rttMs.toNat (x.rttMs = CatalogEntry.NoRtt)
      (y.rttMs = CatalogEntry.NoRtt)
  | .LastAnswered =>
    ordered q.descending x.lastAnswered.toNat y.lastAnswered.toNat (x.lastAnswered = 0)
      (y.lastAnswered = 0)
  | .FirstSeen =>
    ordered q.descending x.firstSeen.toNat y.firstSeen.toNat (x.firstSeen = 0) (y.firstSeen = 0)
  | .NodesAtAddress =>
    let count (e : CatalogEntry) : ℤ := match counts with
      | none => 1
      | some counts => (counts e.address).getD 1
    ordered q.descending (count x) (count y) false false
  | .Client =>
    let missingX : Bool := x.lastAnswered = 0
    let missingY : Bool := y.lastAnswered = 0
    if missingX ≠ missingY then if missingX then .gt else .lt
    else if missingX then .eq
    else
      let text (e : CatalogEntry) : String :=
        (labels e.versionKey).client ++ "\u0001" ++ (labels e.versionKey).version
      let c := compareText (text x) (text y)
      if q.descending then c.swap else c

/-- Orders slots by what the query asks for, and nodes that are the same in that by their
    address and port. -/
def slotOrder (counts : Option AddressCounts) (a b : ℕ) : Bool :=
  let x := c.entryAt a
  let y := c.entryAt b
  match compareNodes labels q compareText counts x y with
  | .lt => true
  | .gt => false
  | .eq => byAddress x y = .lt

/-! ## The list -/

/-- What the list shows of a node. -/
def rowFor (e : CatalogEntry) (nowStamp : UInt32) (tickMs nodesAtAddress : ℤ)
    (suspicion : UInt8) : NodeListRow :=
  let row : NodeListRow :=
    { endpoint := e.endpoint
      id := e.id
      state := e.state
      answered := e.lastAnswered ≠ 0
      rttMs := if e.rttMs = CatalogEntry.NoRtt then -1 else e.rttMs.toNat
      nodesAtAddress
      flags := e.flags
      selfListSharePercent :=
        if e.selfListShare = CatalogEntry.NoShare then -1 else e.selfListShare.toNat
      bep51Samples := e.sampleCount
      suspicion
      sightings := e.sightings
      firstSeenAgoMs := ageMs e.firstSeen nowStamp tickMs
      lastAnsweredAgoMs := ageMs e.lastAnswered nowStamp tickMs
      lastQueriedAgoMs := ageMs e.lastQueried nowStamp tickMs }
  let row := if row.answered then
      { row with
        client := (labels e.versionKey).client
        version := (labels e.versionKey).version
        clientKind := (labels e.versionKey).kind
        rawVersion := e.versionBytes
        bep42 := e.bep42 }
    else row
  -- Unreachable entries are never asked; their failures hold the reason.
  if e.state = .Unroutable then { row with problem := .ofByte e.failures }
  else { row with failures := e.failures.toNat }

variable (sorting : Sorting.Algorithm ℕ)

/-- A page of the nodes that match a query. -/
def queryNodes (nowMs : ℤ) (suspicion : Option AddressSignals) : NodeListPage :=
  let needCounts := q.minNodesAtAddress > 1 || q.sort = .NodesAtAddress
  let counts : Option AddressCounts := if needCounts then some (countAddresses c) else none
  let matched := filterNodes labels c q counts suspicion
  let matchedNodes : ℤ := matched.length
  let keys := (matched.map fun s => (c.entryAt s).address).mergeSort (· ≤ ·)
  let limit := max 1 q.limit
  let offset := max 0 q.offset
  let offset :=
    if offset ≥ matchedNodes then
      if matchedNodes > 0 then (matchedNodes - 1) / limit * limit else 0
    else offset
  let last := min matchedNodes (offset + limit)
  let matched :=
    sorting.partialSort (slotOrder labels c q compareText counts) last.toNat matched
  let shown := (matched.take last.toNat).drop offset.toNat
  -- The nodes at the addresses shown are counted unless all were.
  let counts : AddressCounts := match counts with
    | some counts => counts
    | none =>
      let wanted : AddressCounts := shown.foldl
        (fun counts s => Function.update counts (c.entryAt s).address (some 0)) fun _ => none
      c.slots.foldl
        (fun counts s =>
          if (counts (c.entryAt s).address).isSome then counts.increment (c.entryAt s).address
          else counts)
        wanted
  { matchedNodes
    -- Of every run of the same key, one is left (`std::unique`).
    matchedAddresses := (Runs.runs (fun a b => a = b) keys).length
    offset
    rows := shown.map fun s =>
      let e := c.entryAt s
      rowFor labels e (c.stamp nowMs) NodeCatalog.TickMs ((counts e.address).getD 1)
        (signalsAt suspicion e.address) }

/-- Everything that matches a query. -/
def collectNodes (nowMs : ℤ) (suspicion : Option AddressSignals) : NodeExport :=
  let counts := countAddresses c
  let matched := filterNodes labels c q (some counts) suspicion
  let matched := sorting.sort (slotOrder labels c q compareText (some counts)) matched
  { entries := matched.map c.entryAt
    nodesAtAddress := matched.map fun s => (counts (c.entryAt s).address).getD 1
    suspicion := matched.map fun s => signalsAt suspicion (c.entryAt s).address
    nowStamp := c.stamp nowMs
    tickMs := NodeCatalog.TickMs }

/-- What is written of an export: the rows of its nodes (`writeNodesCsv`). -/
def NodeExport.rows (nodes : NodeExport) : List NodeListRow :=
  (List.range nodes.entries.length).map fun i =>
    rowFor labels (nodes.entries.getD i default) nodes.nowStamp nodes.tickMs
      (nodes.nodesAtAddress.getD i 0) (nodes.suspicion.getD i 0)

end

end Dht
