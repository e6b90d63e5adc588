import DhtCore.Bep42
import DhtCore.RoutingTable.Basic
import DhtCore.RpcManager.Outcome
import DhtCore.Storage

/-!
# A node

A node on one address family: what it does with datagrams, with the outcomes of
its own queries, and on its timers. It has a routing table, an RPC manager, and
what it keeps for others.

* A datagram is a query, which `handleQuery` answers, or a reply, which the RPC
  manager matches with a query of ours; `onRpcReply` is told the outcome of each.
* `addSeed` joins through an endpoint whose ID is not known. Bootstrap routers are
  for joining only: `onRpcReply` does not enter them in the table.
* Lookups, probes, announcements and puts send queries through the node at times
  and with arguments of their own, so they are among the events (`Event.query`).
  What they do with the replies is not part of the node.

A node is bound, so that it has an RPC manager. A call gets from its
`Surroundings` what the node does not decide: the clocks, what is random, and the
routing table of the node of the other family.
-/

namespace Dht

/-! ## Configuration and seeds -/

/-- How a node is set up. -/
structure NodeConfig where
  family : Family := .IPv4
  /-- Whether to accept private endpoints from the network. -/
  allowLocalAddresses : Bool := false
  /-- Derived IDs, and `ip` in replies. -/
  bep42 : Bool := true
  /-- BEP 43: query others, answer nobody. -/
  readOnly : Bool := false
  hostLimit : HostLimit := {}
  version : Bytes := []

/-- Where a seed comes from. -/
inductive SeedSource
  | Injected
  | Bootstrap
  deriving DecidableEq, Repr

/-- How a seed stands (`Seed::State`). -/
inductive SeedState
  | Querying
  | Responded
  | NoResponse
  deriving DecidableEq, Repr

/-- An endpoint to join through. -/
structure Seed where
  source : SeedSource := .Injected
  state : SeedState := .Querying
  lastAttempt : ℤ := 0
  rttMs : ℤ := -1
  id : NodeId := default
  hasId : Bool := false
  version : Bytes := []

/-- What a call gets from outside. -/
structure Surroundings where
  /-- The time when the node looks at its clock. -/
  now : ℤ
  /-- The time when it takes a new ID because of a reply. -/
  later : ℤ := now
  outside : Outside := { now }
  /-- New secrets for tokens. -/
  secrets : Bytes × Bytes := ([], [])
  draw : ℕ → ℕ := id
  shuffle : List NodeId → List NodeId := id
  /-- What a new ID is made from. -/
  rand : UInt8 := 0
  random : NodeId := default
  low : UInt8 := 0
  /-- The table of the node of the other family, if there is one. -/
  sibling : Option RoutingTable := none
  /-- Whether a lookup that refreshes a bucket is under way. -/
  refreshing : Bool := false

/-- How a query is answered. -/
inductive Answer
  | response (values : BValue.Dict)
  | error (code : ℤ) (message : Bytes)

/-- A node. -/
structure DhtNode where
  config : NodeConfig := {}
  id : NodeId
  table : RoutingTable
  rpc : RpcManager
  storage : PeerStorage := {}
  items : ItemStorage := {}
  tokens : TokenManager := {}
  voter : ExternalIpVoter := {}
  limiter : RateLimiter := { rate := 20, burst := 40 }
  seeds : AList (fun _ : Endpoint => Seed) := ∅
  /-- The queries to seeds, by the numbers of their calls. -/
  seedQueries : AList (fun _ : ℕ => Endpoint) := ∅
  recentVerifications : AList (fun _ : Endpoint => ℤ) := ∅

namespace DhtNode

/-- A node of the table is not pinged again for so long. -/
def PingIntervalMs : ℤ := 60 * 1000

/-- A bucket is refreshed that has not changed for so long. -/
def BucketRefreshMs : ℤ := 15 * 60 * 1000

/-- A node that was heard of is not asked to verify itself again for so long. -/
def VerificationWindowMs : ℤ := 10 * 60 * 1000

/-- Verifications that are remembered at a time. -/
def MaxPendingVerifications : ℕ := 2000

/-- How long others are told to wait before they ask for samples again. -/
def SampleIntervalSeconds : ℤ := 6 * 60 * 60

/-- Infohashes that are sampled in an answer. -/
def MaxSamples : ℕ := 20

/-- A new node, its transaction ids starting at a random one. -/
def new (config : NodeConfig) (id : NodeId) (budget : Option ContactBudget) (nextId : UInt16) :
    DhtNode where
  config
  id
  table := .new id
  rpc := { (RpcManager.new nextId).setHostLimit config.hostLimit with
    readOnly := config.readOnly, budget }

variable (crypto : Crypto) (w : Surroundings) (n : DhtNode)

/-- Sets whether others are told not to ask this node. -/
def setReadOnly (readOnly : Bool) : DhtNode :=
  if n.config.readOnly = readOnly then n
  else
    { n with
      config := { n.config with readOnly }
      rpc := { n.rpc with readOnly } }

/-- Replaces the ID and re-keys the table. -/
def setId (id : NodeId) (now : ℤ) : DhtNode := { n with id, table := n.table.rebuild id now }

/-! ## Sending -/

/-- Sends a query with our ID. -/
def sendQuery (o : Outside) (dest : Endpoint) (method : Bytes) (arguments : BValue.Dict)
    (timeoutMs : ℤ := 3000) (onSent : Bool := false) : DhtNode :=
  let arguments := arguments.insertOrAssign (ascii "id") (.string n.id.toBytes)
  let q : Queued :=
    { serial := n.rpc.calls, dest, method, arguments, version := n.config.version,
      timeoutMs, onSent }
  { n with rpc := n.rpc.query o q }

/-- The datagram of an answer (`sendResponse`, `sendError`). -/
def datagramOf (query : Krpc.Message) (dest : Endpoint) : Answer → Bytes
  | .response values =>
    let values := values.insertOrAssign (ascii "id") (.string n.id.toBytes)
    let requester := if n.config.bep42 then dest else default
    Krpc.encodeResponse query.transactionId values n.config.version requester
  | .error code message => Krpc.encodeError query.transactionId code message n.config.version

/-- The error of a query that is not as it should be. -/
def protocolError (message : String) : Answer := .error Krpc.ProtocolError (ascii message)

/-! ## Queries -/

/-- The nodes of a table closest to a target, as they are written into answers. -/
def closestNodes (table : RoutingTable) (target : NodeId) (count : ℕ) : List Krpc.CompactNode :=
  (table.closest target count).map fun node => ⟨node.id, node.endpoint⟩

/-- Adds the nodes of a table that are closest to a target. -/
def fill (target : NodeId) (family : Family) (key : String) (out : BValue.Dict) :
    Option RoutingTable → BValue.Dict
  | none => out
  | some table =>
    let nodes := closestNodes table target RoutingTable.K
    if nodes.isEmpty then out
    else out.insertOrAssign (ascii key) (.string (Krpc.encodeNodes nodes family))

/-- Whether a family is asked for by `want`. -/
def wants (arguments : BValue) (family : String) : Bool :=
  (((arguments.listAt (ascii "want")).map BValue.toList).getD []).any fun
    | .string s _ => s = ascii family
    | _ => false

/-- The nodes closest to a target, of the families asked for. -/
def nodesFor (target : NodeId) (arguments : BValue) : BValue.Dict :=
  let any4 := wants arguments "n4"
  let any6 := wants arguments "n6"
  let want4 := if any4 || any6 then any4 else n.config.family = .IPv4
  let want6 := if any4 || any6 then any6 else n.config.family = .IPv6
  let tableOf (family : Family) := if n.config.family = family then some n.table else w.sibling
  let out : BValue.Dict := []
  let out := if want4 then fill target .IPv4 "nodes" out (tableOf .IPv4) else out
  if want6 then fill target .IPv6 "nodes6" out (tableOf .IPv6) else out

/-- The ID among the arguments of a query. -/
def idAt (message : Krpc.Message) (key : String) : Option NodeId :=
  NodeId.fromBytes ((message.body.stringAt (ascii key)).getD [])

/-- Answers `find_node`: with the nodes closest to the target. -/
def findNode (message : Krpc.Message) : Answer :=
  match idAt message "target" with
  | none => protocolError "missing or invalid target"
  | some target => .response (n.nodesFor w target message.body)

/-- Answers `get_peers`: with the closest nodes, a token, and peers if there are any. -/
def getPeers (message : Krpc.Message) (sender : Endpoint) : DhtNode × Answer :=
  match idAt message "info_hash" with
  | none => (n, protocolError "missing or invalid info_hash")
  | some infohash =>
    let values := n.nodesFor w infohash message.body
    let (tokens, token) := n.tokens.generate crypto w.secrets sender.address w.now
    let values := values.insertOrAssign (ascii "token") (.string token)
    let maxPeers := if n.config.family = .IPv4 then 100 else 50
    let peers := n.storage.peers w.draw infohash n.config.family maxPeers
    let values :=
      if peers.isEmpty then values
      else values.insertOrAssign (ascii "values")
        (.list (peers.map fun peer => .string peer.toCompact))
    ({ n with tokens }, .response values)

/-- Answers `announce_peer`: keeps the sender as a peer if its token is valid. -/
def announcePeer (message : Krpc.Message) (sender : Endpoint) : DhtNode × Answer :=
  let args := message.body
  match idAt message "info_hash" with
  | none => (n, protocolError "missing or invalid info_hash")
  | some infohash =>
    match args.stringAt (ascii "token") with
    | none => (n, protocolError "invalid token")
    | some token =>
      let (tokens, valid) := n.tokens.validate crypto w.secrets token sender.address w.now
      let n := { n with tokens }
      if !valid then (n, protocolError "invalid token")
      else
        let implied := (args.integerAt (ascii "implied_port")).getD 0 = 1
        let port : ℤ := if implied then sender.port.toNat
            else (args.integerAt (ascii "port")).getD 0
        if port < 1 ∨ port > 65535 then (n, protocolError "invalid port")
        else
          let peer := Endpoint.of sender.address (UInt16.ofNat port.toNat)
          ({ n with storage := n.storage.announce infohash peer w.now }, .response [])

/-- Answers `get`: with the closest nodes, a token, and the item if it is stored. -/
def handleGet (message : Krpc.Message) (sender : Endpoint) : DhtNode × Answer :=
  let args := message.body
  match idAt message "target" with
  | none => (n, protocolError "missing or invalid target")
  | some target =>
    let values := n.nodesFor w target args
    let (tokens, token) := n.tokens.generate crypto w.secrets sender.address w.now
    let values := values.insertOrAssign (ascii "token") (.string token)
    let values :=
      match n.items.immutableItem target, n.items.mutableItem target with
      | some item, _ => values.insertOrAssign (ascii "v") (.preEncoded item.value)
      | none, some item =>
        let values := values.insertOrAssign (ascii "k") (.string item.publicKey)
        let values := values.insertOrAssign (ascii "seq") (.integer item.sequence)
        -- A getter that already holds this sequence number only wants to know
        -- whether a newer one exists.
        if (args.integerAt (ascii "seq")).all (item.sequence > ·) then
          let values := values.insertOrAssign (ascii "v") (.preEncoded item.value)
          values.insertOrAssign (ascii "sig") (.string item.signature)
        else values
      | none, none => values
    ({ n with tokens }, .response values)

/-- Answers `sample_infohashes`: with a sample of those that peers are kept for. -/
def sampleInfohashes (message : Krpc.Message) : Answer :=
  match idAt message "target" with
  | none => protocolError "missing or invalid target"
  | some target =>
    let values := n.nodesFor w target message.body
    let samples := (n.storage.sampleInfohashes w.shuffle MaxSamples).flatMap NodeId.toBytes
    let values := values.insertOrAssign (ascii "samples") (.string samples)
    let values := values.insertOrAssign (ascii "num") (.integer n.storage.entries.entries.length)
    .response (values.insertOrAssign (ascii "interval") (.integer SampleIntervalSeconds))

/-- The answer to a put that was tried. -/
def answerTo : PutResult → Answer
  | .CasMismatch =>
    .error Bep44.CasMismatch (ascii "CAS hash mismatch, re-read value and try again")
  | .SequenceTooLow => .error Bep44.SequenceTooLow (ascii "sequence number less than current")
  | .TooBig => .error Bep44.MessageTooBig (ascii "message (v field) too big")
  | .SaltTooLong => .error Bep44.SaltTooLong (ascii "salt (salt field) too long")
  | .Stored | .Refreshed => .response []

/-- The rest of `handlePut`, for an item with a public key. -/
def handleMutablePut (args : BValue) (raw key : Bytes) : DhtNode × Answer :=
  if key.length ≠ Bep44.PublicKeyBytes then (n, protocolError "invalid k")
  else
    let salt := (args.stringAt (ascii "salt")).getD []
    if salt.length > Bep44.MaxSaltBytes then
      (n, .error Bep44.SaltTooLong (ascii "salt (salt field) too long"))
    else
      match args.integerAt (ascii "seq"), args.stringAt (ascii "sig") with
      | some sequence, some signature =>
        if signature.length ≠ Bep44.SignatureBytes then
          (n, protocolError "mutable put needs seq and sig")
        else
          match Bep44.verify crypto signature (Bep44.signingBuffer salt sequence raw) key with
          | none => (n, protocolError "mutable items are not supported by this node yet")
          | some false => (n, .error Bep44.InvalidSignature (ascii "invalid signature"))
          | some true =>
            let target := Bep44.mutableTarget crypto key salt
            let item : MutableItem :=
              { target, publicKey := key, salt, signature, value := raw, sequence }
            let (items, result) := n.items.putMutable item (args.integerAt (ascii "cas")) w.now
            ({ n with items }, answerTo result)
      | _, _ => (n, protocolError "mutable put needs seq and sig")

/-- Answers `put`: stores the item if its token is valid, or says why it does not. -/
def handlePut (message : Krpc.Message) (sender : Endpoint) (datagram : Bytes) : DhtNode × Answer :=
  let args := message.body
  match args.stringAt (ascii "token") with
  | none => (n, protocolError "invalid token")
  | some token =>
    let (tokens, valid) := n.tokens.validate crypto w.secrets token sender.address w.now
    let n := { n with tokens }
    if !valid then (n, protocolError "invalid token")
    else
      let raw := ((args.find (ascii "v")).map fun v => v.rawSpan datagram).getD []
      if raw.isEmpty then (n, protocolError "missing or unreadable v")
      else if raw.length > Bep44.MaxValueBytes then
        (n, .error Bep44.MessageTooBig (ascii "message (v field) too big"))
      else
        match args.stringAt (ascii "k") with
        | none =>
          let (items, _) := n.items.putImmutable (Bep44.immutableTarget crypto raw) raw w.now
          ({ n with items }, .response [])
        | some key => n.handleMutablePut crypto w args raw key

/-- Pings a node that queried us, which is not in the table. -/
def maybeVerify (id : NodeId) (sender : Endpoint) : DhtNode :=
  if !isUsableRemote sender n.config.allowLocalAddresses || !n.table.wouldAccept id then n
  else if (n.recentVerifications.lookup sender).any fun at_ =>
    w.now - at_ < VerificationWindowMs then n
  else if n.recentVerifications.entries.length ≥ MaxPendingVerifications then n
  else
    { n with recentVerifications := n.recentVerifications.insert sender w.now }.sendQuery
      w.outside sender (ascii "ping") []

/-- Notes who sent a query. -/
def noteSender (message : Krpc.Message) (id : NodeId) (sender : Endpoint) : DhtNode :=
  if message.readOnly || id = n.id then n
  else
    let (table, known) := n.table.queriedBy id sender w.now
    let n := { n with table }
    if known then n else n.maybeVerify w id sender

/-- The answer to a query, by its method. -/
def dispatch (message : Krpc.Message) (sender : Endpoint) (datagram : Bytes) : DhtNode × Answer :=
  if message.method = ascii "ping" then (n, .response [])
  else if message.method = ascii "find_node" then (n, n.findNode w message)
  else if message.method = ascii "get_peers" then n.getPeers crypto w message sender
  else if message.method = ascii "announce_peer" then n.announcePeer crypto w message sender
  else if message.method = ascii "get" then n.handleGet crypto w message sender
  else if message.method = ascii "sample_infohashes" then (n, n.sampleInfohashes w message)
  else if message.method = ascii "put" then n.handlePut crypto w message sender datagram
  else (n, .error Krpc.MethodUnknown (ascii "Method Unknown"))

/-- Handles a query; there may be no answer. -/
def handleQuery (message : Krpc.Message) (sender : Endpoint) (datagram : Bytes) :
    DhtNode × Option Answer :=
  let (limiter, allowed) := n.limiter.allow sender.address w.now
  let n := { n with limiter }
  if !allowed then (n, none)
  else if n.config.readOnly then (n, none)
  else
    match message.senderId with
    | none => (n, some (protocolError "missing or invalid id"))
    | some id =>
      let (n, answer) := (n.noteSender w message id sender).dispatch crypto w
          message sender datagram
      (n, some answer)

/-! ## Replies -/

/-- Whether an endpoint is one to bootstrap from, which is kept out of the table. -/
def isRouter (endpoint : Endpoint) : Bool := (n.seeds.lookup endpoint).any (·.source = .Bootstrap)

/-- Takes an ID derived from our external address, if need be. -/
def adoptExternalAddress (address : HostAddress) : DhtNode :=
  if !n.config.bep42 || Bep42.isExempt address || Bep42.isCompliant n.id address then n
  else n.setId (Bep42.generate address w.rand w.random w.low) w.later

/-- Takes what a reply says our address is. -/
def noteAddress (message : Krpc.Message) (sender : Endpoint) : DhtNode :=
  match message.reportedAddress.filter (·.family = n.config.family) with
  | none => n
  | some reported =>
    let (voter, changed) := n.voter.addVote sender.address reported.address w.now
    let n := { n with voter }
    if changed then n.adoptExternalAddress w voter.consensus else n

/-- A query of ours has its outcome. -/
def onRpcReply (reply : RpcReply) : DhtNode :=
  match reply.status with
  | .Timeout => { n with table := n.table.failed reply.sender w.now }
  | .Error => n
  | .Throttled => n
  | .Response =>
    let n := n.noteAddress w reply.message reply.sender
    match reply.message.senderId with
    | none => n
    | some id =>
      if !n.isRouter reply.sender && !reply.message.readOnly then
        { n with
          table := (n.table.heardFrom id reply.sender reply.message.version reply.rttMs w.now).1 }
      else n

/-! ## Seeds -/

/-- Joins through an endpoint whose ID is not known. -/
def addSeed (endpoint : Endpoint) (source : SeedSource) : DhtNode :=
  if !endpoint.isValid || endpoint.family ≠ n.config.family then n
  else
    let seed := (n.seeds.lookup endpoint).getD {}
    let seed :=
      if source = .Injected then { seed with source := .Injected }
      else if seed.state = .Querying ∧ seed.lastAttempt = 0 then { seed with source }
      else seed
    let seed := { seed with state := .Querying, lastAttempt := w.now }
    { n with
      seeds := n.seeds.insert endpoint seed
      seedQueries := n.seedQueries.insert n.rpc.calls endpoint }.sendQuery
        w.outside endpoint (ascii "find_node") [(ascii "target", .string n.id.toBytes)]

/-- What the reply to a seed's query says of the seed. -/
def seedReplied (seed : Seed) (reply : RpcReply) : Seed :=
  if reply.status = .Timeout ∨ reply.status = .Throttled then { seed with state := .NoResponse }
  else
    let seed := { seed with
      state := .Responded, rttMs := reply.rttMs, version := reply.message.version }
    match reply.message.senderId with
    | none => seed
    | some id => { seed with id, hasId := true }

/-- The callback of a query, if it was to a seed. -/
def onSeedReply (serial : ℕ) (reply : RpcReply) : DhtNode :=
  match n.seedQueries.lookup serial with
  | none => n
  | some endpoint =>
    match n.seeds.lookup endpoint with
    | none => n
    | some seed => { n with seeds := n.seeds.insert endpoint (seedReplied seed reply) }

/-- The RPC manager takes a step, which runs callbacks. -/
def withRpc (rpc : RpcManager) : DhtNode :=
  (RpcManager.ranOf (rpc.log.drop n.rpc.log.length)).foldl
    (fun n ran => (n.onRpcReply w ran.2).onSeedReply ran.1 ran.2) { n with rpc }

/-- Handles a datagram; there may be a datagram to send back. -/
def handleDatagram (data : Bytes) (sender : Endpoint) : DhtNode × Option Bytes :=
  match (Krpc.parse data).message with
  | none => (n, none)
  | some message =>
    if message.type = .Query then
      let (n, answer) := n.handleQuery crypto w message sender data
      (n, answer.map (n.datagramOf message sender))
    else (n.withRpc w (n.rpc.handleReply w.outside.now message data sender).1, none)

/-! ## Maintenance -/

/-- Pings nodes whose standing is unclear. -/
def pingNodes : DhtNode :=
  (n.table.nodesNeedingPing w.now 3 PingIntervalMs).foldl
    (fun n node => { n with table := n.table.markPinged node.endpoint w.now }.sendQuery
      w.outside node.endpoint (ascii "ping") []) n

/-- Has a bucket refreshed that has not changed for long. -/
def refreshBucket : DhtNode :=
  if n.table.allNodes.isEmpty || w.refreshing then n
  else
    match n.table.staleBucket w.now BucketRefreshMs with
    | none => n
    | some bucket => { n with table := n.table.touchBucket bucket w.now }

/-- What is done from time to time. -/
def onMaintenance : DhtNode :=
  let n := (n.pingNodes w).refreshBucket w
  { n with
    limiter := n.limiter.prune w.now
    recentVerifications :=
      Replacing.retain (fun _ at_ => ¬(w.now - at_ ≥ VerificationWindowMs)) n.recentVerifications }

/-! ## Runs -/

/-- What may happen to a node. -/
inductive Event
  | datagram (w : Surroundings) (data : Bytes) (sender : Endpoint)
  /-- A query is sent for a lookup, a probe, an announcement or a put. -/
  | query (o : Outside) (dest : Endpoint) (method : Bytes) (arguments : BValue.Dict)
    (timeoutMs : ℤ) (onSent : Bool)
  | addSeed (w : Surroundings) (endpoint : Endpoint) (source : SeedSource)
  | setId (id : NodeId) (now : ℤ)
  | setReadOnly (readOnly : Bool)
  | maintenance (w : Surroundings)
  | drain (o : Outside)
  | expire (now : ℤ) (tids : List Bytes)
  | resume (w : Surroundings)
  | deliver (w : Surroundings)
  /-- The budget was changed by others. -/
  | setBudget (budget : Option ContactBudget)
  /-- The engine drops what was not announced or refreshed in time. -/
  | expireStorage (now : ℤ)
  /-- The items are kept in another order. -/
  | reorder (items : ItemStorage)
  | close

/-- The node after an event. -/
def apply : Event → DhtNode
  | .datagram w data sender => (n.handleDatagram crypto w data sender).1
  | .query o dest method arguments timeoutMs onSent =>
    n.sendQuery o dest method arguments timeoutMs onSent
  | .addSeed w endpoint source => n.addSeed w endpoint source
  | .setId id now => n.setId id now
  | .setReadOnly readOnly => n.setReadOnly readOnly
  | .maintenance w => n.onMaintenance w
  | .drain o => { n with rpc := n.rpc.drain o }
  | .expire now tids => { n with rpc := n.rpc.expire now tids }
  | .resume w => n.withRpc w n.rpc.resume
  | .deliver w => n.withRpc w n.rpc.deliver
  | .setBudget budget => { n with rpc := { n.rpc with budget } }
  | .expireStorage now => { n with storage := n.storage.expire now, items := n.items.expire now }
  | .reorder items => { n with items }
  | .close => { n with rpc := n.rpc.cancelAll }

/-- The node after events. -/
def run (events : List Event) : DhtNode := events.foldl (apply crypto) n

/-- `RpcManager::expire` goes through the ids that are pending, only the order of the
    items changes by itself, and time does not end. -/
def Legal : Event → Prop
  | .datagram w _ _ => w.now < ItemStorage.EndOfTime
  | .expire _ tids => tids.Perm n.rpc.pending.keys
  | .reorder items => items.immutable.entries.Perm n.items.immutable.entries ∧
      items.mutable.entries.Perm n.items.mutable.entries
  | _ => True

/-- Events that may happen one after another. -/
def LegalRun : DhtNode → List Event → Prop
  | _, [] => True
  | n, e :: events => n.Legal e ∧ LegalRun (n.apply crypto e) events

end DhtNode

end Dht
