import DhtCore.Bep42
import DhtCore.Lookup.Basic
import DhtCore.NodeCatalog.Entry
import DhtCore.NodeCatalog.Births
import DhtCore.Sybil.Basic

/-!
# The scan

The scan of the network (`Crawler`): every node that others list is put in the catalogue and
asked for more of them, and then asked again from time to time. References to the entries
wait in queues, one for each reason to ask; those whose host is busy are set aside. Nodes
that answer are also checked for features, one query at a time.

What the scan gets from outside while it runs is `Outside`. The times of a tick and the
statistics are left out, but for what the pace depends on. Loops of the catalogue may not
end, as far as the definitions go; then there is no result.

Some fields are no part of the program: they keep what is under way, and record how it ended.
-/

namespace Dht

/-- How the identifier of a node relates to its address (`bep42::check`). -/
def Bep42.check (id : NodeId) (address : HostAddress) : Bep42.Status :=
  if address = .null then .Unknown
  else if Bep42.isExempt address then .Exempt
  else if Bep42.isCompliant id address then .Compliant else .NonCompliant

/-- The number of an address problem. -/
def AddressProblem.toByte : AddressProblem → UInt8
  | None => 0
  | ZeroPort => 1
  | Unspecified => 2
  | Local => 3
  | Multicast => 4
  | Reserved => 5

/-- Whether an address is in a subnet of so many bits (`QHostAddress::isInSubnet`). -/
def HostAddress.inSubnet : HostAddress → HostAddress → ℕ → Bool
  | .ipv4 a, .ipv4 net, bits => samePrefix a net bits
  | .ipv6 a, .ipv6 net, bits => samePrefix a net bits
  | _, _, _ => false

/-- How often nodes are asked, and when they are given up. -/
structure CrawlConfig where
  revisitIntervalMs : ℤ := 10 * 60 * 1000
  silentRevisitIntervalMs : ℤ := 60 * 60 * 1000
  retryDelayMs : ℤ := 30 * 1000
  failuresToGiveUp : ℤ := 2
  /-- None are started if zero. -/
  sizeEstimateIntervalMs : ℤ := 1000
  allowLocalAddresses : Bool := false

/-- A node that is due, but whose host is busy. -/
structure Crawler.Deferred where
  ref : CatalogRef
  firstContact : Bool

/-- A query for more nodes. -/
structure Crawler.Query where
  ref : CatalogRef
  /-- Which insertion the entry is from. -/
  born : ℕ
  endpoint : Endpoint
  /-- Whose surroundings are asked for; those of a random identifier, if none. -/
  near : Option NodeId
  deriving DecidableEq

/-- A feature check under way. -/
structure Crawler.Check where
  ref : CatalogRef
  /-- Which insertion the entry is from. -/
  born : ℕ
  endpoint : Endpoint
  method : Bytes
  check : CatalogFlag
  deriving DecidableEq

/-- How a query for more nodes ended, and when, in ticks. -/
structure Crawler.Outcome where
  born : ℕ
  status : RpcStatus
  stamp : UInt32

/-- How a query of a feature check ended. -/
structure Crawler.CheckOutcome where
  born : ℕ
  check : CatalogFlag
  status : RpcStatus

/-- A crawler: its catalog, and who of it is to be asked next. -/
structure Crawler where
  config : CrawlConfig
  catalog : NodeCatalog
  /-- Never asked. -/
  fresh : List CatalogRef := []
  /-- One unanswered query. -/
  retry : List CatalogRef := []
  /-- Answered last time. -/
  revisit : List CatalogRef := []
  /-- Silent or gone. -/
  revisitSilent : List CatalogRef := []
  deferred : List Crawler.Deferred := []
  /-- Answering nodes with feature checks left. -/
  features : List CatalogRef := []
  /-- Whether a widening lookup is running. -/
  widening : Family → Bool := fun _ => false
  /-- The size lookups running. -/
  estimating : Family → ℤ := fun _ => 0
  nextEstimateMs : ℤ := 0
  monitoring : Bool := false
  batch : ℤ := 16
  lastTickFull : Bool := false
  lastSendFailures : ℤ := 0
  lastSeedMs : ℤ := 0
  outstanding : ℤ := 0
  queries : ℤ := 0
  answers : ℤ := 0
  errors : ℤ := 0
  timeouts : ℤ := 0
  notSent : ℤ := 0
  featureQueries : ℤ := 0
  randomLookups : ℤ := 0
  lookupsWithInventedPeers : ℤ := 0
  /-- Under way: queries, feature checks, and lookups. -/
  scans : List Crawler.Query := []
  checks : List Crawler.Check := []
  lookups : List (Lookup.Kind × Family) := []
  /-- The queries and the feature checks that ended. -/
  outcomes : List Crawler.Outcome := []
  checked : List Crawler.CheckOutcome := []
  /-- Which entries were asked, for nodes or for a feature, from the first query on. -/
  asked : List CatalogRef := []

namespace Crawler

/-- The time between ticks, in milliseconds. -/
def TickMs : ℤ := 20

/-- The fewest queries of a tick. -/
def MinBatch : ℤ := 4

/-- The most queries of a tick. -/
def MaxBatch : ℤ := 4000

/-- Queries that may wait behind a host: one that runs many nodes would build long queues
    otherwise. -/
def MaxQueuedPerHost : ℤ := 2

/-- Lookups to estimate the size of a family that may run at a time. -/
def MaxEstimates : ℤ := 6

/-- One in so many of a tick's queries is kept for checks of features. -/
def FeatureShareDivisor : ℤ := 4

/-- How often a check is tried that is not answered. -/
def FeatureTries : ℕ := 2

/-- The method of the unknown-query check: no DHT defines it. -/
def UnknownMethod : Bytes := ascii "dhtinspector_unknown"

/-- With nobody new to ask, the routing tables are looked at again this often. -/
def SeedIntervalMs : ℤ := 5 * 1000

/-- Entries of the catalog that are looked at for trimming in a tick. -/
def TrimPerTick : ℤ := 20000

/-- How many nodes that were set aside are looked at in a tick, at most. -/
def DeferredScanPerTick : ℕ := 2000

/-- What the scan gets from outside while it runs. -/
structure Outside where
  now : ℤ
  /-- The identifiers of our nodes, none of a family that there is no node of. -/
  nodeId : Family → Option NodeId
  /-- What our routing tables hold, as far as it is taken from them. -/
  start : List Krpc.CompactNode := []
  /-- What the lookups found that end at once. -/
  foundAtOnce : Lookup.Kind → Family → Option Lookup.Result := fun _ _ => none
  /-- How many queries wait for a host, and whether too many do, with so many outstanding. -/
  queuedFor : ℤ → HostAddress → ℤ := fun _ _ => 0
  backlogged : ℤ → Bool := fun _ => false
  /-- The time since the last tick. -/
  elapsed : ℤ := TickMs
  sendFailures : ℤ := 0
  /-- The draws to evict by, of each list of nodes. -/
  draw : ℕ → ℕ → ℕ → ℕ := fun _ _ _ => 0
  trimDraw : ℕ → ℕ → ℕ := fun _ _ => 0

variable (hash : CatalogKey → ℕ) (env : Outside) (c : Crawler)

/-- Whether an ID is one of our own nodes'. -/
def isOwnId (id : NodeId) : Bool :=
  env.nodeId .IPv4 = some id || env.nodeId .IPv6 = some id

/-- Writes to an entry. -/
def edit (slot : ℕ) (f : CatalogEntry → CatalogEntry) : Crawler :=
  { c with catalog := c.catalog.setEntry slot (f (c.catalog.entryAt slot)) }

/-! ## Learning -/

/-- What is noted of a node that is listed. -/
def noteSeen (stamp : UInt32) (e : CatalogEntry) : CatalogEntry :=
  { e with
    lastListed := stamp
    sightings := if e.sightings < 0xffff then e.sightings + 1 else e.sightings }

/-- A new node is to be asked, if it can be reached. -/
def welcome (slot : ℕ) (listed : Krpc.CompactNode) : Crawler :=
  let c := c.edit slot fun e => { e with id := listed.id }
  let problem := addressProblem listed.endpoint c.config.allowLocalAddresses
  if problem ≠ .None then
    let c := c.edit slot fun e => { e with failures := problem.toByte }
    { c with catalog := c.catalog.setState slot .Unroutable }
  else { c with fresh := c.fresh ++ [c.catalog.ref slot] }

/-- Takes note of a node that was listed, which may be a new one. -/
def learn (draw : ℕ → ℕ) (listed : Krpc.CompactNode) : Option Crawler :=
  if env.nodeId listed.endpoint.family = none ∨ isOwnId env listed.id then some c
  else
    (c.catalog.upsert hash draw listed.endpoint env.now).map fun (catalog, slot, added) =>
      let c := { c with catalog }
      if slot = NodeCatalog.NoSlot then c
      else
        let c := c.edit slot (noteSeen (catalog.stamp env.now))
        if added then c.welcome slot listed else c

/-- Takes note of nodes in turn. -/
def learnAll (draw : ℕ → ℕ → ℕ) : List Krpc.CompactNode → Crawler → Option Crawler
  | [], c => some c
  | n :: rest, c => (c.learn hash env (draw rest.length) n).bind (learnAll draw rest)

/-- The nodes that a response lists. -/
def listedBy (reply : RpcReply) : List Krpc.CompactNode :=
  [Family.IPv4, Family.IPv6].flatMap fun family =>
    let key := if family = .IPv4 then ascii "nodes" else ascii "nodes6"
    match reply.message.body.stringAt key with
    | some bytes => (Krpc.decodeNodes bytes family).nodes
    | none => []

/-- What a list of nodes says of the node that sent it: how many of them are in its own
    subnet, and whether some cannot be reached. -/
def noteListed (allowLocal : Bool) (listed : List Krpc.CompactNode) (e : CatalogEntry) :
    CatalogEntry :=
  let (subnet, bits) := Sybil.subnetOf e.hostAddress
  let sameFamily := listed.filter fun n => n.endpoint.family = e.family
  let own := sameFamily.countP fun n => n.endpoint.address.inSubnet subnet bits.toNat
  let bogons := listed.any fun n => !isUsableRemote n.endpoint allowLocal
  let e :=
    if sameFamily.length > 0 then
      { e with
        selfListShare :=
          UInt8.ofNat ((own * 100 + sameFamily.length / 2) / sameFamily.length) }
    else e
  e.set .ListsBogons (bogons || e.has .ListsBogons)

/-- Takes note of the nodes that a response lists. -/
def learnFrom (ref : CatalogRef) (reply : RpcReply) : Option Crawler :=
  let listed := listedBy reply
  let c :=
    if !listed.isEmpty && c.catalog.isCurrent ref then
      c.edit ref.slot (noteListed c.config.allowLocalAddresses listed)
    else c
  c.learnAll hash env (env.draw 0) listed

/-- Starts from what our routing tables hold. -/
def seed : Option Crawler :=
  learnAll hash env (env.draw 1) env.start { c with lastSeedMs := env.now }

/-! ## Lookups -/

/-- Marks the nodes that sent peers for an identifier that was made up. -/
def markInvented : List PeerSighting → Crawler → Option Crawler
  | [], c => some c
  | sighting :: rest, c =>
    (c.catalog.find hash sighting.source).bind fun slot =>
      markInvented rest
        (if slot ≠ NodeCatalog.NoSlot then c.edit slot (·.set .InventsPeers) else c)

/-- Takes note of what a lookup for a random identifier found. -/
def recordLookup (result : Lookup.Result) : Option Crawler :=
  let c :=
    if result.kind = .GetPeers then
      { c with
        randomLookups := c.randomLookups + 1
        lookupsWithInventedPeers := c.lookupsWithInventedPeers +
          if result.sightings.isEmpty then 0 else 1 }
    else c
  (markInvented hash result.sightings c).bind
    (learnAll hash env (env.draw 2) (result.closest.map fun n => ⟨n.id, n.endpoint⟩))

/-- A lookup ended. -/
def onLookup (kind : Lookup.Kind) (family : Family) (result : Lookup.Result) : Option Crawler :=
  let c :=
    if kind = .FindNode then { c with widening := Function.update c.widening family false }
    else { c with estimating := Function.update c.estimating family (c.estimating family - 1) }
  c.recordLookup hash env result

/-- Starts a lookup, which may end at once. -/
def startLookup (kind : Lookup.Kind) (family : Family) : Option Crawler :=
  match env.foundAtOnce kind family with
  | some result => c.onLookup hash env kind family result
  | none => some { c with lookups := c.lookups ++ [(kind, family)] }

/-- Looks beyond the routing table of a family. -/
def widenFamily (family : Family) : Option Crawler :=
  if env.nodeId family = none ∨ c.widening family then some c
  else
    let c := { c with widening := Function.update c.widening family true }
    c.startLookup hash env .FindNode family

/-- Looks for more nodes of both families. -/
def widen : Option Crawler :=
  (c.widenFamily hash env .IPv4).bind fun c => c.widenFamily hash env .IPv6

/-- Starts a lookup by which the size of a family is estimated. -/
def estimateFamily (family : Family) : Option Crawler :=
  if env.nodeId family = none ∨ c.estimating family ≥ MaxEstimates then some c
  else
    let c := { c with estimating := Function.update c.estimating family (c.estimating family + 1) }
    c.startLookup hash env .GetPeers family

/-- Looks for identifiers that are made up. -/
def estimateSize : Option Crawler :=
  (c.estimateFamily hash env .IPv4).bind fun c => c.estimateFamily hash env .IPv6

/-! ## Asking -/

/-- The first entry of a queue that is due, and the queue without it; what is behind one that
    is not due is not due either. -/
def takeDue (minAgeMs : ℤ) : List CatalogRef → List CatalogRef × Option ℕ
  | [] => ([], none)
  | ref :: rest =>
    if !c.catalog.isCurrent ref then takeDue minAgeMs rest
    else if minAgeMs > 0 ∧
        c.catalog.ageMs (c.catalog.entryAt ref.slot).lastQueried env.now < minAgeMs then
      (ref :: rest, none)
    else (rest, some ref.slot)

/-- Whether the first entry of a queue that is still there is due. -/
def firstDue (now minAgeMs : ℤ) : List CatalogRef → Bool
  | [] => false
  | ref :: rest =>
    if c.catalog.isCurrent ref then
      c.catalog.ageMs (c.catalog.entryAt ref.slot).lastQueried now ≥ minAgeMs
    else firstDue now minAgeMs rest

/-- Whether any entry is due to be asked again. -/
def anyDue (now : ℤ) : Bool :=
  c.firstDue now c.config.retryDelayMs c.retry ||
    c.firstDue now c.config.revisitIntervalMs c.revisit ||
    c.firstDue now c.config.silentRevisitIntervalMs c.revisitSilent

/-- Whether we do not lean on a host any more for now. -/
def hostBusy (e : CatalogEntry) : Bool :=
  (env.nodeId e.family).isSome && env.queuedFor c.outstanding e.hostAddress ≥ MaxQueuedPerHost

/-- Asks a node, at first about its own surroundings. -/
def ask (slot : ℕ) (firstContact : Bool) : Crawler :=
  let c := c.edit slot fun e => { e with lastQueried := c.catalog.stamp env.now }
  let e := c.catalog.entryAt slot
  { c with
    outstanding := c.outstanding + 1
    queries := c.queries + 1
    scans := c.scans ++
      [{ ref := c.catalog.ref slot
         born := c.catalog.birth slot
         endpoint := e.endpoint
         near := if firstContact then some e.id else none }]
    asked := c.asked ++ [c.catalog.ref slot] }

/-- Looks at those set aside, so many of them, and asks so many at most. -/
def dispatchDeferred : ℕ → ℕ → Crawler → Crawler × ℕ
  | 0, _, c => (c, 0)
  | scan + 1, budget, c =>
    match c.deferred, budget with
    | [], _ | _, 0 => (c, 0)
    | d :: rest, budget + 1 =>
      let c := { c with deferred := rest }
      if !c.catalog.isCurrent d.ref then dispatchDeferred scan (budget + 1) c
      else if c.hostBusy env (c.catalog.entryAt d.ref.slot) then
        dispatchDeferred scan (budget + 1) { c with deferred := c.deferred ++ [d] }
      else
        let (c, sent) := dispatchDeferred scan budget (c.ask env d.ref.slot d.firstContact)
        (c, sent + 1)

/-- The next one that is due of those silent or gone. -/
def nextSilent : Crawler × Option (ℕ × Bool) :=
  let (revisitSilent, slot) :=
    c.takeDue env c.config.silentRevisitIntervalMs c.revisitSilent
  ({ c with revisitSilent }, slot.map (·, false))

/-- The next one that is due of those that answered, or else of the others. -/
def nextRevisit : Crawler × Option (ℕ × Bool) :=
  let (revisit, slot) := c.takeDue env c.config.revisitIntervalMs c.revisit
  let c := { c with revisit }
  match slot with
  | some slot => (c, some (slot, false))
  | none => c.nextSilent env

/-- The next node to be asked for lack of an answer, or because it was asked long ago. -/
def nextRetry : Crawler × Option (ℕ × Bool) :=
  let (retry, slot) := c.takeDue env c.config.retryDelayMs c.retry
  let c := { c with retry }
  match slot with
  | some slot => (c, some (slot, false))
  | none => c.nextRevisit env

/-- The next entry that is due, and whether it is a fresh one. -/
def nextDue : Crawler × Option (ℕ × Bool) :=
  let (fresh, slot) := c.takeDue env 0 c.fresh
  let c := { c with fresh }
  match slot with
  | some slot => (c, some (slot, true))
  | none => c.nextRetry env

/-- Asks the next one that is due, if there is one, or sets it aside. -/
def dispatchNext : Crawler × Bool :=
  match c.nextDue env with
  | (c, none) => (c, false)
  | (c, some (slot, first)) =>
    let e := c.catalog.entryAt slot
    if e.state = .Unroutable ∨ env.nodeId e.family = none then (c, true)
    else if c.hostBusy env e then
      ({ c with deferred := c.deferred ++ [⟨c.catalog.ref slot, first⟩] }, true)
    else (c.ask env slot first, true)

/-- Asks those that are due, so many of them at most. -/
def dispatchUpTo : ℕ → Crawler → Crawler × ℕ
  | 0, c => (c, 0)
  | budget + 1, c =>
    if env.backlogged c.outstanding then (c, 0)
    else
      match c.dispatchNext env with
      | (c, false) => (c, 0)
      | (c, true) =>
        let (c, sent) := dispatchUpTo budget c
        (c, sent + 1)

/-! ## Feature checks -/

/-- The checks, in the order they are made, and their methods. -/
def featureChecks : List (CatalogFlag × Bytes) :=
  [(.Tested51, ascii "sample_infohashes"), (.Tested44, ascii "get"),
    (.TestedPeers, ascii "get_peers")]

/-- The check to make next: the last one, if none of the others is left. -/
def nextCheck (e : CatalogEntry) : CatalogFlag × Bytes :=
  (featureChecks.find? fun p => !e.has p.1).getD (.TestedUnknown, UnknownMethod)

/-- Asks a node whether it has the feature that is checked next. -/
def askFeature (slot : ℕ) : Crawler :=
  let e := c.catalog.entryAt slot
  let (check, method) := nextCheck e
  { c with
    outstanding := c.outstanding + 1
    featureQueries := c.featureQueries + 1
    checks := c.checks ++
      [{ ref := c.catalog.ref slot, born := c.catalog.birth slot, endpoint := e.endpoint
         method, check }]
    asked := c.asked ++ [c.catalog.ref slot] }

/-- Queues an entry for the checks that are left, unless it is queued. -/
def queueFeatures (ref : CatalogRef) : Crawler :=
  let e := c.catalog.entryAt ref.slot
  if e.featuresDone || e.has .FeatureQueued then c
  else
    let c := c.edit ref.slot (·.set .FeatureQueued)
    { c with features := c.features ++ [ref] }

/-- Looks at those queued for a check, so many of them, and makes so many checks at most. -/
def dispatchFeatures : ℕ → ℕ → Crawler → Crawler × ℕ
  | 0, _, c => (c, 0)
  | scan + 1, budget, c =>
    match c.features, budget with
    | [], _ | _, 0 => (c, 0)
    | ref :: rest, budget + 1 =>
      let c := { c with features := rest }
      let e := c.catalog.entryAt ref.slot
      if !c.catalog.isCurrent ref then dispatchFeatures scan (budget + 1) c
      else if e.state ≠ .Responsive ∨ e.featuresDone ∨ env.nodeId e.family = none then
        -- They are queued again when they next answer.
        dispatchFeatures scan (budget + 1) (c.edit ref.slot (·.set .FeatureQueued false))
      else if c.hostBusy env e then
        dispatchFeatures scan (budget + 1) { c with features := c.features ++ [ref] }
      else
        let (c, sent) := dispatchFeatures scan budget (c.askFeature ref.slot)
        (c, sent + 1)

/-! ## Ticks -/

/-- The pace of a tick: slower if the last one came late or sending failed, faster if it was
    full. -/
def pace : Crawler :=
  let batch :=
    if env.elapsed > TickMs * 3 ∨ env.sendFailures > c.lastSendFailures then
      max MinBatch (c.batch / 2)
    else if c.lastTickFull then min MaxBatch (c.batch + c.batch / 4 + 1)
    else c.batch
  { c with batch, lastSendFailures := env.sendFailures }

/-- With nothing new to ask, looks for more. -/
def replenish : Option Crawler :=
  if c.fresh.isEmpty && c.deferred.isEmpty && c.outstanding = 0 &&
      env.now - c.lastSeedMs ≥ SeedIntervalMs then
    (c.seed hash env).bind fun c => c.widen hash env
  else some c

/-- Asks as many as the batch allows: a share of it is kept for feature checks. -/
def dispatch : Crawler :=
  let scanShare := c.batch - max 1 (c.batch / FeatureShareDivisor)
  let (c, sent) :=
    if env.backlogged c.outstanding then (c, 0)
    else dispatchDeferred env (min c.deferred.length DeferredScanPerTick) scanShare.toNat c
  let (c, next) := dispatchUpTo env (scanShare - sent).toNat c
  let sent := sent + next
  let (c, checks) :=
    if env.backlogged c.outstanding then (c, 0)
    else
      dispatchFeatures env (min c.features.length DeferredScanPerTick) (c.batch - sent).toNat c
  let sent := sent + checks
  let (c, next) := dispatchUpTo env (c.batch - sent).toNat c
  { c with lastTickFull := (sent + next : ℕ) ≥ c.batch }

/-- What is done at every tick. -/
def tick : Option Crawler :=
  let c := c.pace env
  (c.catalog.trim hash env.trimDraw TrimPerTick).bind fun catalog =>
    ({ c with catalog }.replenish hash env).bind fun c =>
      let c := c.dispatch env
      if c.config.sizeEstimateIntervalMs > 0 ∧ env.now ≥ c.nextEstimateMs then
        { c with nextEstimateMs := env.now + c.config.sizeEstimateIntervalMs }.estimateSize hash env
      else some c

/-- Starts or pauses the scan. -/
def setMonitoring (on : Bool) : Option Crawler :=
  if on = c.monitoring then some c
  else
    let c := { c with monitoring := on }
    if on then seed hash env { c with batch := 16, lastSendFailures := env.sendFailures }
    else some c

/-! ## Replies -/

/-- What any response says of a node. -/
def noteResponse (reply : RpcReply) (e : CatalogEntry) : CatalogEntry :=
  (e.set .TestedIp).set .SendsIp reply.message.reportedAddress.isSome

/-- One more query that was not answered. -/
def noteTimeout (e : CatalogEntry) : CatalogEntry :=
  { e with failures := if e.failures < 255 then e.failures + 1 else e.failures }

/-- What a response or an error says of a node. -/
def noteAnswer (stamp : UInt32) (reply : RpcReply) (e : CatalogEntry) : CatalogEntry :=
  let wasAnswering := e.state = .Responsive
  let wasGone : Bool := e.state = .Gone
  let e := { e with failures := 0, lastAnswered := stamp }
  let e := if ¬wasAnswering then { e with answeringSince := stamp }.set .Rejoined wasGone else e
  let e := { e with
    rttMs := UInt16.ofNat (max 0 (min reply.rttMs (CatalogEntry.NoRtt.toNat - 1))).toNat }
  let e := e.setVersion reply.message.version
  let e := match reply.message.senderId with
    | some id => { e with id, bep42 := (Bep42.check id e.hostAddress).toByte }
    | none => e
  if reply.status = .Response then noteResponse reply e else e

/-- A query to an entry ended with no answer. -/
def onTimeout (ref : CatalogRef) : Crawler :=
  let c := c.edit ref.slot noteTimeout
  let e := c.catalog.entryAt ref.slot
  if (e.failures.toNat : ℤ) ≥ c.config.failuresToGiveUp then
    { c with
      catalog := c.catalog.setState ref.slot (if e.lastAnswered ≠ 0 then .Gone else .Silent)
      revisitSilent := c.revisitSilent ++ [ref] }
  else { c with retry := c.retry ++ [ref] }

/-- A query to an entry ended with a response or an error. -/
def onAnswer (ref : CatalogRef) (reply : RpcReply) : Crawler :=
  let c := c.edit ref.slot (noteAnswer (c.catalog.stamp env.now) reply)
  let c := { c with
    catalog := c.catalog.setState ref.slot .Responsive
    revisit := c.revisit ++ [ref] }
  c.queueFeatures ref

/-- Counts how a query ended. -/
def countReply : RpcStatus → Crawler
  | .Throttled => { c with notSent := c.notSent + 1 }
  | .Timeout => { c with timeouts := c.timeouts + 1 }
  | .Response => { c with answers := c.answers + 1 }
  | .Error => { c with errors := c.errors + 1 }

/-- A query of the crawl has ended. -/
def onReply (ref : CatalogRef) (reply : RpcReply) : Option Crawler :=
  let c := { c with outstanding := c.outstanding - 1 }.countReply reply.status
  match reply.status with
  | .Throttled =>
    -- Never sent: try again later without holding it against the node.
    some (if c.catalog.isCurrent ref then { c with retry := c.retry ++ [ref] } else c)
  | .Timeout => some (if c.catalog.isCurrent ref then c.onTimeout ref else c)
  | .Error => some (if c.catalog.isCurrent ref then c.onAnswer env ref reply else c)
  | .Response =>
    learnFrom hash env (if c.catalog.isCurrent ref then c.onAnswer env ref reply else c) ref reply

/-- What the answer to a feature check says of a node, besides that it was made. -/
def noteCheck (check : CatalogFlag) (reply : RpcReply) (e : CatalogEntry) : CatalogEntry :=
  let response : Bool := reply.status = .Response
  let body := reply.message.body
  let e := (e.set check).setFeatureTries 0
  let e :=
    if response then
      let e := noteResponse reply e
      if check ≠ .TestedUnknown then
        -- Asked for both families: listing the other one is BEP 32.
        let other := if e.isIPv4 then ascii "nodes6" else ascii "nodes"
        let e := e.set .Tested32
        e.set .Has32 ((body.stringAt other).isSome || e.has .Has32)
      else e
    else e
  match check with
  | .Tested51 =>
    let has := response &&
      ((body.stringAt (ascii "samples")).isSome || (body.integerAt (ascii "num")).isSome)
    let e := e.set .Has51 has
    if has then e.setSampleCount ((body.integerAt (ascii "num")).getD 0) else e
  | .Tested44 => e.set .Has44 (response && (body.stringAt (ascii "token")).isSome)
  | .TestedPeers =>
    if response && !(Krpc.decodePeers (body.listAt (ascii "values")) e.family).isEmpty then
      e.set .InventsPeers
    else e
  | _ =>
    let is204 := !response && reply.message.errorCode = Krpc.MethodUnknown
    let e := (e.set .Answers204 is204).set .AnswersOther !is204
    e.set .AnswersError (!is204 && !response)

/-- A feature check had no answer: it counts as made after a second try. -/
def noteCheckTimeout (check : CatalogFlag) (e : CatalogEntry) : CatalogEntry :=
  let e := e.setFeatureTries (e.featureTries + 1)
  if e.featureTries ≥ FeatureTries then (e.set check).setFeatureTries 0 else e

/-- What the end of a feature check does to an entry. -/
def noteChecked (check : CatalogFlag) (reply : RpcReply) (e : CatalogEntry) : CatalogEntry :=
  match reply.status with
  | .Throttled => e
  | .Timeout => noteCheckTimeout check e
  | .Response | .Error => noteCheck check reply e

/-- A check of a feature has ended. -/
def onFeatureReply (ref : CatalogRef) (check : CatalogFlag) (reply : RpcReply) : Option Crawler :=
  let c := { c with outstanding := c.outstanding - 1 }
  if !c.catalog.isCurrent ref then some c
  else
    let c := c.edit ref.slot (noteChecked check reply)
    let c :=
      if (c.catalog.entryAt ref.slot).featuresDone then c.edit ref.slot (·.set .FeatureQueued false)
      else { c with features := c.features ++ [ref] }
    if reply.status = .Response then c.learnFrom hash env ref reply else some c

/-! ## Runs -/

/-- What happens to the scan. -/
inductive Event
  | setMonitoring (env : Outside) (on : Bool)
  | tick (env : Outside)
  /-- A query ends. -/
  | reply (env : Outside) (q : Query) (reply : RpcReply)
  /-- A query of a feature check ends. -/
  | featureReply (env : Outside) (q : Check) (reply : RpcReply)
  /-- A lookup ends. -/
  | lookup (env : Outside) (kind : Lookup.Kind) (family : Family) (result : Lookup.Result)
  /-- The cap of the catalogue is changed, and what is over it goes if the scan is paused. -/
  | setCap (draw : ℕ → ℕ → ℕ) (cap : ℤ)

/-- The scan after an event. -/
def apply : Event → Option Crawler
  | .setMonitoring env on => c.setMonitoring hash env on
  | .tick env => c.tick hash env
  | .reply env q reply =>
    { c with
      scans := c.scans.erase q
      outcomes := c.outcomes ++ [Outcome.mk q.born reply.status (c.catalog.stamp env.now)] }.onReply
      hash env q.ref reply
  | .featureReply env q reply =>
    { c with
      checks := c.checks.erase q
      checked := c.checked ++ [CheckOutcome.mk q.born q.check reply.status] }.onFeatureReply
      hash env q.ref q.check reply
  | .lookup env kind family result =>
    { c with lookups := c.lookups.erase (kind, family) }.onLookup hash env kind family result
  | .setCap draw cap =>
    let c := { c with catalog := c.catalog.setCap cap }
    if c.monitoring then some c
    else (c.catalog.trim hash draw NodeCatalog.MaxCap).map fun catalog => { c with catalog }

/-- What is outside while an event happens. -/
def Event.outside : Event → Option Outside
  | .setMonitoring env _ | .tick env | .reply env .. | .featureReply env .. | .lookup env .. =>
    some env
  | .setCap .. => none

/-- Only what is under way ends, ticks come while the scan runs, and there is a node of each
    of the families `present` at all times. -/
def Legal (present : Family → Bool) (e : Event) : Prop :=
  (∀ env, e.outside = some env → ∀ family, (env.nodeId family).isSome = present family) ∧
  match e with
  | .tick _ => c.monitoring
  | .reply _ q _ => q ∈ c.scans
  | .featureReply _ q _ => q ∈ c.checks
  | .lookup _ kind family _ => (kind, family) ∈ c.lookups
  | _ => True

/-- One event that may happen to a crawler. -/
def Step (present : Family → Bool) (c c' : Crawler) : Prop :=
  ∃ e, c.Legal present e ∧ c.apply hash e = some c'

/-- A scan that starts with a catalogue that has no entries. -/
def Reachable (config : CrawlConfig) (present : Family → Bool) (c : Crawler) : Prop :=
  ∃ catalog, NodeCatalog.Reachable hash catalog ∧ catalog.slots = [] ∧
    Relation.ReflTransGen (Step hash present) { config, catalog } c

end Crawler

end Dht
