import DhtCore.Lookup.Basic
import DhtCore.NodeCatalog.Entry
import DhtCore.NodeCatalog.Invariant
import Mathlib.Data.List.AList

/-!
# The census

The precise count (`Census`): slices of the identifier space, one after the other, whose
nodes are asked round by round until rounds find no more of them. A tick asks some of those
in the queue, and ends the round once all were asked and replied (`tick`); a slice is counted
after enough rounds without a new node (`finishSlice`).

Queries and lookups are returned by what sends them, and a reply is told of the generation
it was asked in: that of a slice that is over changes nothing (`onReply`). What the census
gets from outside is `Outside`: the catalogue, our nodes, and what is random or in no fixed
order. Times are left out.
-/

namespace Dht

/-- How a node of the slice stands (`Census::NodeState`). -/
inductive Census.NodeState
  | Waiting
  | Asked
  | Answered
  | Silent
  deriving DecidableEq, Repr

/-- A node of the slice. -/
structure Census.SliceNode where
  listedId : NodeId
  answeredId : NodeId := default
  state : Census.NodeState := .Waiting
  failures : UInt8 := 0
  answeredInSlice : Bool := false
  askedInRound : ℤ := -1

/-- How many slices a census counts, and of what size. -/
structure CensusConfig where
  /-- Of each family. -/
  slices : ℤ := 8
  /-- Chosen if negative. -/
  sliceBits : ℤ := -1
  targetPerSlice : ℤ := 2000
  defaultSliceBits : ℤ := 12
  maxOutstanding : ℤ := 256
  failuresToGiveUp : ℤ := 2
  quietRoundsToFinish : ℤ := 2
  maxRounds : ℤ := 10
  allowLocalAddresses : Bool := false

/-- How the census stands (`CensusSnapshot::State`). -/
inductive CensusState
  | Idle
  | Running
  | Done
  | Cancelled
  deriving DecidableEq, Repr

/-- A slice, counted. -/
structure CensusSlice where
  family : Family
  bits : ℤ
  slicePrefix : NodeId
  nodesHeard : ℕ
  nodesAnswered : ℕ
  ipsHeard : ℕ
  ipsAnswered : ℕ
  heardEstimate : ℚ
  connectedEstimate : ℚ
  rounds : ℤ
  queries : ℤ

/-- A census: the slices that it has counted, and the one that it counts now. -/
structure Census where
  config : CensusConfig
  state : CensusState := .Idle
  /-- The families of the slices still to run. -/
  plan : List Family := []
  sizeHint : Family → ℚ := fun _ => 0
  /-- Another one for each slice. -/
  generation : ℕ := 0
  family : Family := .IPv4
  bits : ℤ := 0
  slicePrefix : NodeId := default
  round : ℤ := 0
  quietRounds : ℤ := 0
  newThisRound : ℤ := 0
  pendingLookups : ℤ := 0
  sliceQueries : ℤ := 0
  nodes : AList fun _ : Endpoint => Census.SliceNode := ∅
  queue : List Endpoint := []
  outstanding : ℤ := 0
  queries : ℤ := 0
  done : List CensusSlice := []

namespace Census

/-- Lookups that are made in a slice to find its first nodes. -/
def SeedLookups : ℕ := 3

/-- Queries that may wait for a host before another is made. -/
def MaxQueuedPerHost : ℤ := 2

/-- The longest prefix of a slice, in bits. -/
def MaxSliceBits : ℤ := 24

/-- A node is first asked for its own surroundings: IDs that share so many bits more with it than
    the prefix of the slice has. -/
def NeighbourhoodExtraBits : ℤ := 8

/-- A query for nodes close to an identifier that starts with the bits of another one, and
    is random after them. -/
structure Query where
  generation : ℕ
  endpoint : Endpoint
  base : NodeId
  bits : ℤ
  deriving DecidableEq

/-- What the census gets from outside while it runs. -/
structure Outside where
  catalog : NodeCatalog
  /-- The identifiers of our nodes, none of a family that there is no node of. -/
  nodeId : Family → Option NodeId
  /-- The nodes closest to the slice in our routing table. -/
  closest : List Krpc.CompactNode := []
  /-- What the seed lookups found that end at once. -/
  foundAtOnce : ℕ → Option Lookup.Result := fun _ => none
  /-- The queries that wait for a host, after so many were asked. -/
  queuedFor : ℕ → HostAddress → ℤ := fun _ _ => 0
  /-- A random identifier. -/
  random : NodeId := default
  /-- The order of a hash. -/
  order : List Endpoint → List Endpoint := id
  order_perm : ∀ l, (order l).Perm l := by exact fun l => .refl l
  /-- The bits that the base-two logarithm of a number rounds to. -/
  roundLog2 : ℚ → ℤ := fun _ => 0
  /-- `sliceInclusionProbability` -/
  inclusionProbability : ℤ → ℤ → ℚ := fun _ _ => 1

variable (c : Census)

/-- Whether slices are being counted. -/
def isRunning : Bool := c.state = .Running

/-! ## Slices -/

/-- Ends the census, whatever was still to do. -/
def finishAll (state : CensusState) : Census :=
  { c with
    state
    plan := []
    queue := []
    nodes := ∅
    outstanding := 0
    pendingLookups := 0
    generation := c.generation + 1 }

/-- The bits of a slice's prefix: so many that about the target of nodes are in it. -/
def chooseBits (env : Outside) (family : Family) : ℤ :=
  if c.config.sliceBits ≥ 0 then min c.config.sliceBits MaxSliceBits
  else if ¬c.sizeHint family > 0 then c.config.defaultSliceBits
  else max 0 (min (env.roundLog2 (c.sizeHint family / max 1 c.config.targetPerSlice)) MaxSliceBits)

/-- Whether an ID has the prefix of the slice. -/
def inSlice (id : NodeId) : Bool := (id.commonPrefixLength c.slicePrefix : ℤ) ≥ c.bits

/-- Adds a node that was listed, if it is a new one of the slice. -/
def consider (env : Outside) (id : NodeId) (endpoint : Endpoint) : Census :=
  if endpoint.family ≠ c.family ∨ !c.inSlice id then c
  else if !isUsableRemote endpoint c.config.allowLocalAddresses then c
  else if env.nodeId c.family = some id then c
  else if endpoint ∈ c.nodes then c
  else
    { c with
      nodes := c.nodes.insert endpoint { listedId := id }
      newThisRound := c.newThisRound + 1
      queue := c.queue ++ [endpoint] }

/-- Considers the nodes that a reply listed, in order. -/
def considerAll (env : Outside) (nodes : List (NodeId × Endpoint)) : Census :=
  nodes.foldl (fun c n => c.consider env n.1 n.2) c

/-- Starts a round: all that answered are asked again. -/
def beginRound (env : Outside) : Census :=
  { c with
    round := c.round + 1
    newThisRound := 0
    queue := c.queue ++
      env.order ((c.nodes.entries.filter fun e => e.2.state = .Answered).map (·.1)) }

/-- What a seed lookup found. -/
def onSeedLookup (env : Outside) (generation : ℕ) (result : Lookup.Result) : Census :=
  if generation ≠ c.generation then c
  else
    considerAll { c with pendingLookups := c.pendingLookups - 1 } env
      (result.closest.map fun contact => (contact.id, contact.endpoint))

/-- Starts the `i`th seed lookup; it is under way unless it ends at once. -/
def startLookup (env : Outside) (i : ℕ) : Census × List ℕ :=
  let c := { c with pendingLookups := c.pendingLookups + 1 }
  match env.foundAtOnce i with
  | some result => (c.onSeedLookup env c.generation result, [])
  | none => (c, [c.generation])

/-- Starts the seed lookups from the `i`th on, so many of them. -/
def startLookups (env : Outside) : ℕ → ℕ → Census → Census × List ℕ
  | 0, _, c => (c, [])
  | n + 1, i, c =>
    let (c, started) := c.startLookup env i
    let (c, rest) := startLookups env n (i + 1) c
    (c, started ++ rest)

/-- What is known of the slice, and lookups into it. -/
def seedSlice (env : Outside) : Census × List ℕ :=
  let known := (env.catalog.slots.map env.catalog.entryAt).filter fun e =>
    e.family = c.family && e.state ≠ .Unroutable && c.inSlice e.id
  let c := c.considerAll env (known.map fun e => (e.id, e.endpoint))
  let c := c.considerAll env (env.closest.map fun n => (n.id, n.endpoint))
  startLookups env SeedLookups 0 c

/-- The family of the next slice that there is a node of, and the slices after it. -/
def nextFamily (env : Outside) : Family → List Family → Family × Option (List Family)
  | current, [] => (current, none)
  | _, family :: plan =>
    if (env.nodeId family).isSome then (family, some plan) else nextFamily env family plan

/-- Starts the next slice, if there is one. -/
def startSlice (env : Outside) : Census × List ℕ :=
  match nextFamily env c.family c.plan with
  | (family, none) => (finishAll { c with family, plan := [] } .Done, [])
  | (family, some plan) =>
    let c := { c with
      plan
      family
      generation := c.generation + 1
      bits := c.chooseBits env family
      slicePrefix := env.random
      round := 0
      quietRounds := 0
      newThisRound := 0
      pendingLookups := 0
      sliceQueries := 0
      outstanding := 0
      nodes := ∅
      queue := [] }
    (c.beginRound env).seedSlice env

/-- Starts the census, given how many nodes there may be. -/
def start (env : Outside) (sizeHint : Family → ℚ) : Census × List ℕ :=
  if c.isRunning then (c, [])
  else
    let plan := [Family.IPv4, Family.IPv6].flatMap fun family =>
      if (env.nodeId family).isSome then List.replicate c.config.slices.toNat family else []
    startSlice { c with plan, sizeHint, done := [], queries := 0, state := .Running } env

/-- Ends the census before it is done. -/
def cancel : Census := if c.isRunning then c.finishAll .Cancelled else c

/-! ## Asking -/

/-- Asks a node, at first about its own surroundings inside the slice. -/
def ask (endpoint : Endpoint) : Census × List Query :=
  match c.nodes.lookup endpoint with
  | none => (c, [])
  | some n =>
    let firstContact := n.state = .Waiting ∧ n.askedInRound < 0
    ({ c with
        nodes := c.nodes.insert endpoint
          { n with
            state := if n.state = .Answered then .Answered else .Asked
            askedInRound := c.round }
        outstanding := c.outstanding + 1
        queries := c.queries + 1
        sliceQueries := c.sliceQueries + 1 },
      [{ generation := c.generation
         endpoint
         base := if firstContact then n.listedId else c.slicePrefix
         bits := if firstContact then min (c.bits + NeighbourhoodExtraBits) NodeId.Bits
           else c.bits }])

/-- Asks those in the queue, as far as the window allows, but sets aside busy hosts: so many
    of them are looked at, `scanned` of them having been. -/
def askQueued (env : Outside) : ℕ → ℕ → Census → Census × List Query
  | 0, _, c => (c, [])
  | n + 1, scanned, c =>
    match c.queue with
    | [] => (c, [])
    | endpoint :: rest =>
      if ¬c.outstanding < c.config.maxOutstanding then (c, [])
      else if env.queuedFor scanned endpoint.address ≥ MaxQueuedPerHost then
        askQueued env n (scanned + 1) { c with queue := rest ++ [endpoint] }
      else
        let (c, sent) := ask { c with queue := rest } endpoint
        let (c, more) := askQueued env n (scanned + 1) c
        (c, sent ++ more)

/-- Asks some of those in the queue. -/
def askSome (env : Outside) : Census × List Query := askQueued env c.queue.length 0 c

/-! ## Rounds -/

/-- Whether all were asked and replied. -/
def roundOver : Bool :=
  c.queue.isEmpty && !(c.outstanding > 0 || c.pendingLookups > 0)

/-- Counts the round, if it found nothing new. -/
def endRound : Census :=
  { c with quietRounds := if c.newThisRound = 0 then c.quietRounds + 1 else 0 }

/-- Whether enough rounds were quiet, or there were enough of them. -/
def sliceOver : Bool :=
  c.quietRounds ≥ c.config.quietRoundsToFinish || c.round ≥ c.config.maxRounds

/-- The nodes at an address. -/
def nodesAt (address : BitVec 128) : List (Sigma fun _ : Endpoint => SliceNode) :=
  c.nodes.entries.filter fun e => e.1.address.key = address

/-- The identifiers that the slice has seen at an address. -/
def idsAt (address : BitVec 128) : List NodeId :=
  ((c.nodesAt address).flatMap fun e => e.2.listedId ::
    if e.2.state = .Answered ∧ e.2.answeredInSlice then [e.2.answeredId] else []).dedup

/-- Those that the scan has seen there. -/
def knownIds (env : Outside) (address : BitVec 128) : List NodeId :=
  (((env.catalog.slots.map env.catalog.entryAt).filter fun e => e.address = address).map
    (·.id)).dedup

/-- What an address stands for. -/
def weight (env : Outside) (address : BitVec 128) : ℚ :=
  let ids : ℤ := max (c.idsAt address).length (knownIds env address).length
  1 / env.inclusionProbability (max 1 ids) c.bits

/-- What was found of the slice. -/
def countSlice (env : Outside) : CensusSlice :=
  let answered (e : Sigma fun _ : Endpoint => SliceNode) : Bool :=
    e.2.state = .Answered && e.2.answeredInSlice
  let addresses := (c.nodes.keys.map fun e => e.address.key).dedup
  let connected := addresses.filter fun address => (c.nodesAt address).any answered
  { family := c.family
    bits := c.bits
    slicePrefix := c.slicePrefix
    nodesHeard := c.nodes.keys.length
    nodesAnswered := c.nodes.entries.countP answered
    ipsHeard := addresses.length
    ipsAnswered := connected.length
    heardEstimate := (addresses.map (c.weight env)).sum
    connectedEstimate := (connected.map (c.weight env)).sum
    rounds := c.round
    queries := c.sliceQueries }

/-- Takes down what was found of the slice. -/
def finishSlice (env : Outside) : Census := { c with done := c.done ++ [c.countSlice env] }

/-- The census as it counts a slice in a tick, if it does, and what the tick sent before. -/
def counting (env : Outside) : Option (Census × List Query) :=
  if !c.isRunning ∨ env.nodeId c.family = none then none
  else
    let (c, sent) := c.askSome env
    if c.roundOver ∧ c.endRound.sliceOver then some (c.endRound, sent) else none

/-- Asks some of those in the queue, and goes on once the round is over. -/
def tick (env : Outside) : Census × List Query × List ℕ :=
  if !c.isRunning then (c, [], [])
  else if env.nodeId c.family = none then (c.finishAll .Cancelled, [], [])
  else
    match c.counting env with
    | some (c, sent) =>
      let (c, lookups) := (c.finishSlice env).startSlice env
      (c, sent, lookups)
    | none =>
      let (c, sent) := c.askSome env
      if c.roundOver then (c.endRound.beginRound env, sent, []) else (c, sent, [])

/-! ## Replies -/

/-- Changes a node that a reply came for. -/
def setNode (endpoint : Endpoint) (n : SliceNode) : Census :=
  { c with nodes := c.nodes.insert endpoint n }

/-- A query has ended: the node is as it answered, and what it listed is considered. -/
def onReply (env : Outside) (q : Query) (reply : RpcReply) : Census :=
  if q.generation ≠ c.generation then c
  else
    let c := { c with outstanding := c.outstanding - 1 }
    match c.nodes.lookup q.endpoint with
    | none => c
    | some n =>
      match reply.status with
      | .Throttled =>
        -- Never sent; ask again without counting it against the node.
        let c := c.setNode q.endpoint
          { n with state := if n.state ≠ .Answered then .Waiting else n.state }
        { c with queue := c.queue ++ [q.endpoint] }
      | .Timeout =>
        if n.state = .Answered then c
        else
          let failures := n.failures + 1
          if (failures.toNat : ℤ) ≥ c.config.failuresToGiveUp then
            c.setNode q.endpoint { n with failures, state := .Silent }
          else
            let c := c.setNode q.endpoint { n with failures, state := .Waiting }
            { c with queue := c.queue ++ [q.endpoint] }
      | status =>
        let n := { n with
          state := .Answered
          failures := 0
          answeredId := (reply.message.senderId).getD n.answeredId
          answeredInSlice := c.inSlice ((reply.message.senderId).getD n.listedId) }
        let c := c.setNode q.endpoint n
        if status ≠ .Response then c
        else
          let key := if c.family = .IPv4 then ascii "nodes" else ascii "nodes6"
          match reply.message.body.stringAt key with
          | none => c
          | some bytes =>
            c.considerAll env ((Krpc.decodeNodes bytes c.family).nodes.map fun n =>
              (n.id, n.endpoint))

end Census

end Dht
