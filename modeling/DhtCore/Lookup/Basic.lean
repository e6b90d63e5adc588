import DhtCore.Bep44
import DhtCore.RpcManager.Basic

/-!
# Lookups

An iterative lookup towards a target: it asks the closest nodes it knows of, which
tell it of closer ones, until the `K` closest that respond have.

* A candidate holds one of `Alpha` slots while it is in flight. One that is slow to
  answer holds none, so that another is asked in its place, but it may still respond.
* `step` chooses whom to ask next, and then asks them one after another. Asking may
  call back, so that anything may happen between the steps of that (`resume`); whom
  the calls of `step` under way have still to ask is in `sending`.
* When a call of `step` has asked them all, the lookup is finished if it can be
  (`canFinish`).

The program does not keep the queries it `asked`, and reports its result once: what it
reports is in `reports`.
-/

namespace Dht

/-- What a lookup looks for (`Lookup::Kind`). -/
inductive Lookup.Kind
  | FindNode
  | GetPeers
  | GetItem
  deriving DecidableEq, Repr

/-- How a candidate stands (`Lookup::State`). -/
inductive Lookup.State
  | New
  | InFlight
  /-- Sent a while ago; it no longer holds a slot. -/
  | Slow
  | Responded
  | Failed
  deriving DecidableEq, Repr

/-- A node that a lookup knows of. -/
structure Lookup.Candidate where
  id : NodeId
  endpoint : Endpoint
  state : Lookup.State := .New
  token : Bytes := []
  /-- Referrals from a starting node. -/
  hops : ℤ := 0
  /-- `0` until the query goes out. -/
  sentAtMs : ℤ := 0
  deriving DecidableEq

/-- A node that responded. -/
structure Lookup.Contact where
  id : NodeId
  endpoint : Endpoint
  token : Bytes
  deriving DecidableEq

/-- A peer, and the node that told of it. -/
structure PeerSighting where
  peer : Endpoint
  source : Endpoint
  deriving DecidableEq

/-- An item as it was found. -/
structure Lookup.Item where
  value : Bytes := []
  publicKey : Bytes := []
  signature : Bytes := []
  sequence : ℤ := -1
  deriving DecidableEq

/-- What a lookup reports. -/
structure Lookup.Result where
  kind : Lookup.Kind
  target : NodeId
  closest : List Lookup.Contact
  peers : List Endpoint
  sightings : List PeerSighting
  queried : ℕ
  responded : ℕ
  durationMs : ℤ
  hops : ℤ
  itemFound : Bool
  itemIsMutable : Bool
  item : Lookup.Item
  deriving DecidableEq

/-- A query as it is handed to the query function. -/
structure Lookup.Query where
  dest : Endpoint
  method : Bytes
  arguments : BValue.Dict
  timeoutMs : ℤ

/-- A lookup. -/
structure Lookup where
  kind : Lookup.Kind
  target : NodeId
  family : Family := .IPv4
  self : NodeId
  allowLocal : Bool := false
  /-- In the order of their distances to the target. -/
  candidates : List Lookup.Candidate := []
  seen : List Endpoint := []
  peerSet : List Endpoint := []
  peers : List Endpoint := []
  sightings : List PeerSighting := []
  salt : Bytes := []
  itemFound : Bool := false
  itemIsMutable : Bool := false
  item : Lookup.Item := {}
  /-- When the lookup started. -/
  clock : Option ℤ := none
  /-- Whether the timer that finds slow queries is running. -/
  slowTimer : Bool := false
  slowAfterMs : ℤ := 700
  queryTimeoutMs : ℤ := 1500
  /-- Queries that hold a slot. -/
  inFlight : ℤ := 0
  /-- Those, and the slow ones. -/
  outstanding : ℤ := 0
  queries : ℕ := 0
  responded : ℕ := 0
  started : Bool := false
  finished : Bool := false
  /-- Whom the calls of `step` under way have still to ask, the innermost first. -/
  sending : List (List Endpoint) := []
  asked : List Lookup.Query := []
  reports : List Lookup.Result := []

namespace Lookup

/-- How many of the closest candidates must have answered in the end. -/
def K : ℕ := 8

/-- How many queries are under way at a time, slow ones aside. -/
def Alpha : ℤ := 3

/-- How many candidates are remembered, unless none can be let go. -/
def MaxCandidates : ℕ := 100

/-- How many queries a lookup makes. -/
def MaxQueries : ℕ := 150

/-- How many tellings of a peer are remembered. -/
def MaxSightings : ℕ := 2000

/-- How many queries are under way at a time, slow ones included. -/
def MaxOutstanding : ℤ := 2 * Alpha

/-- A new lookup. -/
def new (kind : Kind) (target : NodeId) (family : Family) (self : NodeId) (allowLocal : Bool) :
    Lookup :=
  { kind, target, family, self, allowLocal }

variable (l : Lookup)

/-- Sets the salt of the item that is looked for. -/
def setSalt (salt : Bytes) : Lookup := { l with salt }

/-- Sets when a query counts as slow, and when it has timed out, a tenth of a second at least. -/
def setTimeouts (slowAfterMs queryTimeoutMs : ℤ) : Lookup :=
  let queryTimeoutMs := max 100 queryTimeoutMs
  { l with queryTimeoutMs, slowAfterMs := max 100 (min slowAfterMs queryTimeoutMs) }

/-! ## Asking -/

/-- Chooses whom to ask, and so many queries having been sent, marks them. -/
def choose (queries : ℕ) : ℤ → ℕ → List Candidate → List Candidate × List Endpoint
  | _, _, [] => ([], [])
  | budget, respondedAhead, c :: rest =>
    if budget ≤ 0 ∨ respondedAhead ≥ K then (c :: rest, [])
    else if c.state = .Responded then
      let (rest, toSend) := choose queries budget (respondedAhead + 1) rest
      (c :: rest, toSend)
    else if c.state = .New ∧ queries < MaxQueries then
      let (rest, toSend) := choose (queries + 1) (budget - 1) respondedAhead rest
      ({ c with state := .InFlight, sentAtMs := 0 } :: rest, c.endpoint :: toSend)
    else
      let (rest, toSend) := choose queries budget respondedAhead rest
      (c :: rest, toSend)

/-- How many more queries may be sent. -/
def budget : ℤ := min (Alpha - l.inFlight) (MaxOutstanding - l.outstanding)

/-- Chooses whom to ask. They are asked by `resume`. -/
def step : Lookup :=
  if l.finished then l
  else
    let (candidates, toSend) := choose l.queries l.budget 0 l.candidates
    { l with
      candidates
      inFlight := l.inFlight + toSend.length
      outstanding := l.outstanding + toSend.length
      queries := l.queries + toSend.length
      sending := toSend :: l.sending }

/-- The query to an endpoint. -/
def queryTo (endpoint : Endpoint) : Query where
  dest := endpoint
  method := match l.kind with
    | .FindNode => ascii "find_node"
    | .GetPeers => ascii "get_peers"
    | .GetItem => ascii "get"
  arguments := [(if l.kind = .GetPeers then ascii "info_hash" else ascii "target",
    .string l.target.toBytes)]
  timeoutMs := l.queryTimeoutMs

/-- The loop of `canFinish`, so many responses having been seen: whether a candidate that
    is waited for comes before the last of the first `K` that responded, or else how many
    of these there are. -/
def respondedFirst : ℕ → List Candidate → Option ℕ
  | responded, [] => some responded
  | responded, c :: rest =>
    if responded ≥ K then some responded
    else if c.state = .Responded then respondedFirst (responded + 1) rest
    else if c.state = .InFlight ∨ c.state = .Slow then none
    else respondedFirst responded rest

/-- Whether the `K` closest have answered with nothing closer outstanding, or there is
    simply nothing left to wait for. -/
def canFinish : Bool :=
  match respondedFirst 0 l.candidates with
  | none => false
  | some responded =>
    if responded ≥ K then true
    else if l.outstanding > 0 then false
    -- Fewer than `K` answered: only done once there is nothing left to ask.
    else if l.queries ≥ MaxQueries then true
    else l.candidates.all (·.state ≠ .New)

/-- Those that responded, closest first. -/
def responders : List Candidate := l.candidates.filter (·.state = .Responded)

/-- A candidate, as those who want to store something with it need it. -/
def Candidate.toContact (c : Candidate) : Contact := ⟨c.id, c.endpoint, c.token⟩

/-- Reports the result. -/
def finish (now : ℤ) : Lookup :=
  { l with
    finished := true
    slowTimer := false
    reports := l.reports ++
      [{ kind := l.kind
         target := l.target
         closest := (l.responders.take K).map Candidate.toContact
         peers := l.peers
         sightings := l.sightings
         queried := l.queries
         responded := l.responded
         durationMs := (l.clock.map (now - ·)).getD 0
         hops := (l.responders.head?.map (·.hops)).getD (-1)
         itemFound := l.itemFound
         itemIsMutable := l.itemIsMutable
         item := l.item }] }

/-- The innermost `step` goes on: it asks the next one, or returns. -/
def resume (now : ℤ) : Lookup :=
  match l.sending with
  | [] => l
  | endpoints :: frames =>
    if l.finished then { l with sending := frames }
    else
      match endpoints with
      | endpoint :: rest =>
        { l with sending := rest :: frames, asked := l.asked ++ [l.queryTo endpoint] }
      | [] =>
        let l := { l with sending := frames, slowTimer := l.slowTimer || l.outstanding > 0 }
        if l.canFinish then l.finish now else l

/-! ## Candidates -/

/-- Adds a candidate in the order of the distances (`std::lower_bound`). -/
def insertCandidate (target : NodeId) (candidate : Candidate) : List Candidate → List Candidate
  | [] => [candidate]
  | c :: rest =>
    if NodeId.closer target c.id candidate.id then c :: insertCandidate target candidate rest
    else candidate :: c :: rest

/-- Drops so many new candidates of those there are, the first ones. -/
def dropNew : ℕ → List Candidate → List Candidate
  | 0, candidates => candidates
  | _, [] => []
  | excess + 1, c :: rest =>
    if c.state = .New then dropNew excess rest else c :: dropNew (excess + 1) rest

/-- Trims the far end, but never drops a node we are waiting on. -/
def trim (candidates : List Candidate) : List Candidate :=
  (dropNew (candidates.length - MaxCandidates) candidates.reverse).reverse

/-- The lookup with a candidate added, unless it is none. -/
def withCandidate (id : NodeId) (endpoint : Endpoint) (hops : ℤ) : Option Lookup :=
  if l.finished ∨ id = l.self then none
  else if endpoint.family ≠ l.family ∨ ¬isUsableRemote endpoint l.allowLocal then none
  else if endpoint ∈ l.seen then none
  else
    some
      { l with
        seen := endpoint :: l.seen
        candidates := trim (insertCandidate l.target { id, endpoint, hops } l.candidates) }

/-- A node is heard of. -/
def addCandidate (id : NodeId) (endpoint : Endpoint) (hops : ℤ := 0) : Lookup :=
  match l.withCandidate id endpoint hops with
  | none => l
  | some l => if l.started then l.step else l

/-- Starts the clock. -/
def begin (now : ℤ) : Lookup := { l with started := true, clock := some now }

/-- Starts to ask. -/
def start (now : ℤ) : Lookup := (l.begin now).step

/-! ## Replies -/

/-- Changes the first candidate of an endpoint. -/
def updateFirst (endpoint : Endpoint) (f : Candidate → Candidate) : List Candidate → List Candidate
  | [] => []
  | c :: rest => if c.endpoint = endpoint then f c :: rest else c :: updateFirst endpoint f rest

/-- The candidate at an endpoint. -/
def find (endpoint : Endpoint) : Option Candidate := l.candidates.find? (·.endpoint = endpoint)

/-- The query to an endpoint went out. -/
def onSent (endpoint : Endpoint) (now : ℤ) : Lookup :=
  { l with
    candidates := updateFirst endpoint
      (fun c => if c.state = .InFlight then { c with sentAtMs := now } else c) l.candidates }

/-- Whether a query in flight is slow. -/
def isSlow (now : ℤ) (c : Candidate) : Bool :=
  c.state = .InFlight && c.sentAtMs > 0 && now - c.sentAtMs ≥ l.slowAfterMs

/-- The lookup with the slow queries marked. -/
def markSlow (now : ℤ) : Lookup :=
  let l := { l with
    candidates := l.candidates.map fun c => if l.isSlow now c then { c with state := .Slow } else c
    inFlight := l.inFlight - l.candidates.countP (l.isSlow now) }
  { l with slowTimer := l.slowTimer && l.inFlight ≠ 0 }

/-- Looks for queries that have become slow, and asks others instead. -/
def checkSlow (now : ℤ) : Lookup :=
  if l.finished then l
  else if l.candidates.any (l.isSlow now) then (l.markSlow now).step
  else l.markSlow now

/-- Keeps the item of a reply, if it is that looked for. -/
def collectItem (crypto : Crypto) (reply : RpcReply) : Lookup :=
  let body := reply.message.body
  match body.find (ascii "v") with
  | none => l
  | some value =>
    let raw := value.rawSpan reply.datagram
    if raw.isEmpty then l
    else
      match body.stringAt (ascii "k"), body.stringAt (ascii "sig"),
        body.integerAt (ascii "seq") with
      | some key, some signature, some sequence =>
        if key.length ≠ Bep44.PublicKeyBytes ∨ signature.length ≠ Bep44.SignatureBytes then l
        else if Bep44.mutableTarget crypto key l.salt ≠ l.target then l
        else if sequence ≤ l.item.sequence then l
        else if !(Bep44.verify crypto signature (Bep44.signingBuffer l.salt sequence raw) key).getD
          false then l
        else
          { l with
            itemFound := true
            itemIsMutable := true
            item := { value := raw, publicKey := key, signature, sequence } }
      | _, _, _ =>
        if !l.itemFound && Bep44.immutableTarget crypto raw = l.target then
          { l with itemFound := true, itemIsMutable := false, item := { l.item with value := raw } }
        else l

/-- Keeps a peer that a node told of. -/
def collectPeer (source : Endpoint) (peer : Endpoint) : Lookup :=
  let l := if l.sightings.length < MaxSightings then
    { l with sightings := l.sightings ++ [⟨peer, source⟩] } else l
  if peer ∈ l.peerSet then l
  else { l with peerSet := peer :: l.peerSet, peers := l.peers ++ [peer] }

/-- The nodes that a response tells of. -/
def nodesIn (body : BValue) : List Krpc.CompactNode :=
  let key := if l.family = .IPv4 then ascii "nodes" else ascii "nodes6"
  match body.stringAt key with
  | none => []
  | some nodes => (Krpc.decodeNodes nodes l.family).nodes

/-- The lookup once a query has ended, its candidate being in a state. -/
def conclude (endpoint : Endpoint) (c : Candidate) (f : Candidate → Candidate) : Lookup :=
  { l with
    inFlight := if c.state = .InFlight then l.inFlight - 1 else l.inFlight
    outstanding := l.outstanding - 1
    candidates := updateFirst endpoint f l.candidates }

/-- The lookup once a node has responded, maybe with a token. -/
def noteResponse (endpoint : Endpoint) (c : Candidate) (token : Option Bytes) : Lookup :=
  { l.conclude endpoint c fun c => { c with state := .Responded, token := token.getD c.token } with
    responded := l.responded + 1 }

/-- The lookup with what a response from a node says. -/
def collect (crypto : Crypto) (endpoint : Endpoint) (hops : ℤ) (reply : RpcReply) : Lookup :=
  let body := reply.message.body
  let l := if l.kind = .GetItem then l.collectItem crypto reply else l
  let l :=
    if l.kind = .GetPeers then
      (Krpc.decodePeers (body.listAt (ascii "values")) l.family).foldl (·.collectPeer endpoint ·) l
    else l
  -- `addCandidate` steps on its own once started; batch the inserts first.
  let started := l.started
  let l := (l.nodesIn body).foldl (fun l node => l.addCandidate node.id node.endpoint hops)
    { l with started := false }
  { l with started }

/-- The lookup with what a reply says, unless it is not waited for. -/
def withReply (crypto : Crypto) (endpoint : Endpoint) (reply : RpcReply) : Option Lookup :=
  if l.finished then none
  else
    match l.find endpoint with
    | none => none
    | some c =>
      if c.state ≠ .InFlight ∧ c.state ≠ .Slow then none
      else if reply.status ≠ .Response then
        some (l.conclude endpoint c fun c => { c with state := .Failed })
      else
        let token := reply.message.body.stringAt (ascii "token")
        some ((l.noteResponse endpoint c token).collect crypto endpoint (c.hops + 1) reply)

/-- A query has ended. -/
def onReply (crypto : Crypto) (endpoint : Endpoint) (reply : RpcReply) : Lookup :=
  match l.withReply crypto endpoint reply with
  | none => l
  | some l => l.step

/-! ## Runs -/

/-- What may happen to a lookup. -/
inductive Event
  | addCandidate (id : NodeId) (endpoint : Endpoint)
  | start (now : ℤ)
  | resume (now : ℤ)
  | sent (endpoint : Endpoint) (now : ℤ)
  | checkSlow (now : ℤ)
  | reply (endpoint : Endpoint) (reply : RpcReply)

/-- The lookup after an event. -/
def apply (crypto : Crypto) : Event → Lookup
  | .addCandidate id endpoint => l.addCandidate id endpoint
  | .start now => l.start now
  | .resume now => l.resume now
  | .sent endpoint now => l.onSent endpoint now
  | .checkSlow now => l.checkSlow now
  | .reply endpoint reply => l.onReply crypto endpoint reply

/-- The lookup after events. -/
def run (crypto : Crypto) (events : List Event) : Lookup := events.foldl (·.apply crypto) l

end Lookup

end Dht
