import DhtCore.Endpoint

/-!
# The routing table

The BEP 5 routing table: k-buckets indexed by the number of leading bits shared
with the table's own ID. Only the last bucket, the one covering the own ID, is
ever split; the others keep the nodes that did not fit in a *replacement cache*,
from which a node that stops answering is replaced.

* A node gets in by answering a query (`heardFrom`, through `insert`), or by
  promotion from the cache when one times out (`failed`).
* `rebuild` re-keys the table around a new own ID.

Pointers into the table are positions: the bucket and the place in it
(`locate`). The loop of `insert` is given fuel (`insertLoop`), which never runs
out whatever the table (`insertLoop_isSome`): every turn adds a bucket, and only
a table of fewer than `NodeId.Bits` buckets can split.
-/

namespace Dht

/-- How a node in the table stands (`RoutingNode::State`). -/
inductive NodeState
  | Good
  | Questionable
  | Bad
  deriving DecidableEq, Repr

/-- A node of the routing table. -/
structure RoutingNode where
  id : NodeId
  endpoint : Endpoint
  version : Bytes := []
  firstSeen : ℤ := 0
  /-- The last reply to one of our queries. -/
  lastResponse : ℤ := 0
  /-- The last query it sent us. -/
  lastQuery : ℤ := 0
  lastPingSent : ℤ := 0
  /-- The consecutive timeouts. -/
  failCount : ℕ := 0
  /-- The smoothed round-trip time. -/
  rttMs : ℤ := -1
  deriving DecidableEq, Inhabited

/-- A bucket: its nodes, and the cache of nodes that did not fit. -/
structure Bucket where
  nodes : List RoutingNode := []
  replacements : List RoutingNode := []
  lastChanged : ℤ := 0
  deriving DecidableEq, Inhabited

/-- The nodes and the replacements of a bucket together. -/
def Bucket.entries (b : Bucket) : List RoutingNode := b.nodes ++ b.replacements

/-- The result of hearing from a node. -/
inductive InsertResult
  | Added
  | Updated
  | Replaced
  | Cached
  | Rejected
  deriving DecidableEq, Repr

/-- The routing table of the node `self`. -/
structure RoutingTable where
  self : NodeId
  restrictOnePerIp : Bool
  buckets : List Bucket

namespace RoutingTable

/-- The nodes a bucket holds at most, and the replacements. -/
def K : ℕ := 8

/-- A node is good that answered, or asked after it once did, no longer ago than this. -/
def GoodWindowMs : ℤ := 15 * 60 * 1000

/-- How many queries in a row make a node bad that fail. -/
def BadFailCount : ℕ := 2

/-- How many queries in a row have a node removed that fail. -/
def RemoveFailCount : ℕ := 5

/-- An empty table: a single bucket. -/
def new (self : NodeId) (restrictOnePerIp : Bool := true) : RoutingTable :=
  ⟨self, restrictOnePerIp, [{}]⟩

/-- How a node stands at the time `now`. -/
def stateOf (node : RoutingNode) (now : ℤ) : NodeState :=
  if node.failCount ≥ BadFailCount then .Bad
  else if node.failCount = 0 ∧ node.lastResponse > 0 ∧ now - node.lastResponse < GoodWindowMs then
    .Good
  else if node.failCount = 0 ∧ node.lastResponse > 0 ∧ node.lastQuery > 0 ∧
      now - node.lastQuery < GoodWindowMs then .Good
  else .Questionable

/-- Whether a node has stopped answering depends only on its timeouts. -/
theorem stateOf_eq_bad {node : RoutingNode} {now : ℤ} :
    stateOf node now = .Bad ↔ BadFailCount ≤ node.failCount := by
  rw [stateOf]
  split_ifs with h₁ h₂ h₃ <;> simp [h₁]

/-- The position of the first element no other is before (`std::min_element`,
    and `std::max_element` for the opposite order), from the `i`-th element on,
    the best so far being the `best`-th, `b`. -/
def firstBestFrom {α : Type} (before : α → α → Bool) (i best : ℕ) (b : α) : List α → ℕ
  | [] => best
  | x :: xs =>
    if before x b then firstBestFrom before (i + 1) i x xs
      else firstBestFrom before (i + 1) best b xs

/-- The position of the first element no other is before, if there is any element. -/
def firstBest {α : Type} (before : α → α → Bool) : List α → Option ℕ
  | [] => none
  | x :: xs => some (firstBestFrom before 1 0 x xs)

variable (t : RoutingTable)

/-- The bucket of index `i`. -/
def bucketAt (i : ℕ) : Bucket := t.buckets.getD i default

/-- The table with the bucket of index `i` replaced. -/
def setBucket (i : ℕ) (b : Bucket) : RoutingTable := { t with buckets := t.buckets.set i b }

/-- The table with `f` applied to the replacement cache of every bucket. -/
def mapReplacements (f : List RoutingNode → List RoutingNode) : RoutingTable :=
  { t with buckets := t.buckets.map fun b => { b with replacements := f b.replacements } }

/-- The nodes of the main table. -/
def allNodes : List RoutingNode := t.buckets.flatMap (·.nodes)

/-- The nodes of the replacement caches. -/
def allReplacements : List RoutingNode := t.buckets.flatMap (·.replacements)

/-- The bucket an ID belongs to. -/
def bucketIndexFor (id : NodeId) : ℕ :=
  min (NodeId.commonPrefixLength t.self id) (t.buckets.length - 1)

/-- The first node at an endpoint: its bucket, its place there, and the node. -/
def locateFrom (endpoint : Endpoint) (i : ℕ) : List Bucket → Option (ℕ × ℕ × RoutingNode)
  | [] => none
  | b :: bs =>
    match b.nodes.findIdx? (·.endpoint = endpoint) with
    | some j => some (i, j, b.nodes.getD j default)
    | none => locateFrom endpoint (i + 1) bs

/-- The node of the main table at an endpoint, with its position. -/
def locate (endpoint : Endpoint) : Option (ℕ × ℕ × RoutingNode) := locateFrom endpoint 0 t.buckets

/-- Whether some node of the main table has an address. -/
def ipInUse (address : HostAddress) : Bool := t.allNodes.any (·.endpoint.address = address)

/-- Only the last bucket splits, and only so far. -/
def canSplit (index : ℕ) : Bool := index = t.buckets.length - 1 && t.buckets.length < NodeId.Bits

/-- Splits the last bucket: what shares more bits with the own ID moves out. -/
def split : RoutingTable :=
  let last := t.buckets.length - 1
  let old := t.bucketAt last
  let movesOut (n : RoutingNode) : Bool := NodeId.commonPrefixLength t.self n.id > last
  let fresh : Bucket :=
    { nodes := old.nodes.filter movesOut
      replacements := old.replacements.filter movesOut
      lastChanged := old.lastChanged }
  let kept : Bucket :=
    { old with
      nodes := old.nodes.filter (!movesOut ·)
      replacements := old.replacements.filter (!movesOut ·) }
  { t with buckets := t.buckets.set last kept ++ [fresh] }

/-- The cache with a node added, its stalest node dropped if there are too many. -/
def cacheWith (cache : List RoutingNode) (node : RoutingNode) : List RoutingNode :=
  let cache := cache ++ [node]
  if cache.length > K then
    match firstBest (fun a b => a.lastResponse < b.lastResponse) cache with
    | some oldest => cache.eraseIdx oldest
    | none => cache
  else cache

/-- The loop of `insert`, splitting the bucket of the node until it has room or
    cannot be split. -/
def insertLoop : ℕ → RoutingTable → RoutingNode → ℤ → Option (RoutingTable × InsertResult)
  | 0, _, _, _ => none
  | fuel + 1, t, node, now =>
    let index := t.bucketIndexFor node.id
    let bucket := t.bucketAt index
    if bucket.nodes.length < K then
      some (t.setBucket index { bucket with nodes := bucket.nodes ++ [node], lastChanged := now },
        .Added)
    else if t.canSplit index then insertLoop fuel t.split node now
    else
      match bucket.nodes.findIdx? (stateOf · now = .Bad) with
      | some bad =>
        some (t.setBucket index
          { bucket with nodes := bucket.nodes.set bad node, lastChanged := now }, .Replaced)
      | none =>
        some (t.setBucket index { bucket with replacements := cacheWith bucket.replacements node },
          .Cached)

@[simp]
theorem length_setBucket (i : ℕ) (b : Bucket) :
    (t.setBucket i b).buckets.length = t.buckets.length := by
  simp [setBucket]

@[simp]
theorem length_split : t.split.buckets.length = t.buckets.length + 1 := by simp [split]

/-- The loop of `insert` ends: each turn but the last adds a bucket, of which a
    table that splits has fewer than `NodeId.Bits`. -/
theorem insertLoop_isSome_of_le : ∀ (fuel : ℕ) (t : RoutingTable) (node : RoutingNode) (now : ℤ),
    NodeId.Bits < fuel + t.buckets.length → 0 < fuel → (insertLoop fuel t node now).isSome
  | 0, _, _, _, _, h => absurd h (Nat.lt_irrefl 0)
  | fuel + 1, t, node, now, hfuel, _ => by
    rw [insertLoop]
    split_ifs with hroom hsplit
    · rfl
    · have hlt : t.buckets.length < NodeId.Bits := by
        simp only [canSplit, Bool.and_eq_true, decide_eq_true_eq] at hsplit
        exact hsplit.2
      exact insertLoop_isSome_of_le fuel t.split node now (by rw [length_split]; omega) (by omega)
    · split <;> rfl

theorem insertLoop_isSome (node : RoutingNode) (now : ℤ) :
    (insertLoop (NodeId.Bits + 1) t node now).isSome :=
  insertLoop_isSome_of_le _ t node now (by omega) (Nat.succ_pos _)

/-- Puts a node in its bucket, or in the cache there. -/
def insert (node : RoutingNode) (now : ℤ) : RoutingTable × InsertResult :=
  if node.id = t.self then (t, .Rejected)
  else if t.restrictOnePerIp && !isLocalAddress node.endpoint.address &&
      t.ipInUse node.endpoint.address then (t, .Rejected)
  else (insertLoop (NodeId.Bits + 1) t node now).get (t.insertLoop_isSome node now)

/-- The round-trip time smoothed with a new sample. -/
def smoothRtt (old rttMs : ℤ) : ℤ :=
  if rttMs ≥ 0 then if old < 0 then rttMs else (old * 3 + rttMs).tdiv 4 else old

/-- The rest of `heardFrom`, once no other ID is known at the endpoint. -/
def heardFromUnknown (id : NodeId) (endpoint : Endpoint) (version : Bytes) (rttMs now : ℤ) :
    RoutingTable × InsertResult :=
  let index := t.bucketIndexFor id
  let bucket := t.bucketAt index
  match bucket.nodes.findIdx? (·.id = id) with
  | some j =>
    -- Same ID at a different endpoint: keep the established entry unless it
    -- has stopped answering.
    let n := bucket.nodes.getD j default
    if stateOf n now ≠ .Bad then (t, .Rejected)
    else
      let moved := { n with endpoint, lastResponse := now, failCount := 0, rttMs, version }
      (t.setBucket index { bucket with nodes := bucket.nodes.set j moved, lastChanged := now },
        .Updated)
  | none =>
    -- Drop any stale copy in the caches; `insert` adds it again if needed.
    let t := t.mapReplacements (·.filter fun n => ¬(n.endpoint = endpoint ∨ n.id = id))
    t.insert { id, endpoint, version, firstSeen := now, lastResponse := now, rttMs } now

/-- The table without the nodes of the bucket `i` at an endpoint. -/
def forget (i : ℕ) (endpoint : Endpoint) : RoutingTable :=
  let bucket := t.bucketAt i
  t.setBucket i { bucket with nodes := bucket.nodes.filter (·.endpoint ≠ endpoint) }

/-- A node answered one of our queries. -/
def heardFrom (id : NodeId) (endpoint : Endpoint) (version : Bytes) (rttMs now : ℤ) :
    RoutingTable × InsertResult :=
  if id = t.self || !endpoint.isValid then (t, .Rejected)
  else
    match t.locate endpoint with
    | some (i, j, existing) =>
      if existing.id = id then
        let bucket := t.bucketAt i
        let heard := { existing with
          lastResponse := now
          failCount := 0
          version := if version.isEmpty then existing.version else version
          rttMs := smoothRtt existing.rttMs rttMs }
        (t.setBucket i { bucket with nodes := bucket.nodes.set j heard, lastChanged := now },
          .Updated)
      else
        -- Same endpoint, new ID: the node restarted. Forget the old identity.
        (t.forget i endpoint).heardFromUnknown id endpoint version rttMs now
    | none => t.heardFromUnknown id endpoint version rttMs now

/-- The table with `f` applied to the node of the main table at an endpoint. -/
def updateAt (endpoint : Endpoint) (f : RoutingNode → RoutingNode) : RoutingTable :=
  match t.locate endpoint with
  | some (i, j, n) =>
    let bucket := t.bucketAt i
    t.setBucket i { bucket with nodes := bucket.nodes.set j (f n) }
  | none => t

/-- A node sent us a query. -/
def queriedBy (id : NodeId) (endpoint : Endpoint) (now : ℤ) : RoutingTable × Bool :=
  match t.locate endpoint with
  | some (_, _, n) =>
    if n.id ≠ id then (t, false) else (t.updateAt endpoint ({ · with lastQuery := now }), true)
  | none => (t, false)

/-- A query to an endpoint timed out. -/
def failed (endpoint : Endpoint) (now : ℤ) : RoutingTable :=
  match t.locate endpoint with
  | none => t.mapReplacements (·.filter (·.endpoint ≠ endpoint))
  | some (i, j, n) =>
    let node := { n with failCount := n.failCount + 1 }
    let bucket := t.bucketAt i
    let bucket := { bucket with nodes := bucket.nodes.set j node }
    if stateOf node now ≠ .Bad then t.setBucket i bucket
    else
      match firstBest (fun a b => b.lastResponse < a.lastResponse) bucket.replacements with
      | some best =>
        t.setBucket i
          { nodes := bucket.nodes.set j (bucket.replacements.getD best default)
            replacements := bucket.replacements.eraseIdx best
            lastChanged := now }
      | none =>
        if node.failCount ≥ RemoveFailCount then
          t.setBucket i { bucket with nodes := bucket.nodes.filter (·.endpoint ≠ endpoint) }
        else t.setBucket i bucket

/-- A ping was sent to the node at an endpoint. -/
def markPinged (endpoint : Endpoint) (now : ℤ) : RoutingTable :=
  t.updateAt endpoint ({ · with lastPingSent := now })

/-- The bucket `index` has just been refreshed. -/
def touchBucket (index : ℤ) (now : ℤ) : RoutingTable :=
  if 0 ≤ index ∧ index < t.buckets.length then
    t.setBucket index.toNat { t.bucketAt index.toNat with lastChanged := now }
  else t

/-- Re-keys the table around a new own ID, keeping every node that fits. -/
def rebuild (newSelf : NodeId) (now : ℤ) : RoutingTable :=
  let fresh : RoutingTable := { t with self := newSelf, buckets := [{ lastChanged := now }] }
  (t.allNodes ++ t.allReplacements).foldl (fun t n => (t.insert n now).1) fresh

/-- The nodes of the main table closest to a target, so many of them; those that have
    stopped answering only if `includeBad`. -/
def closest (target : NodeId) (count : ℕ) (includeBad : Bool := false) : List RoutingNode :=
  let all := t.allNodes.filter fun n => includeBad || stateOf n 0 ≠ .Bad
  (all.insertionSort fun a b => !NodeId.closer target b.id a.id).take count

/-- Whether the table has a place for a node of an ID. -/
def wouldAccept (id : NodeId) : Bool :=
  if id = t.self then false
  else
    let index := t.bucketIndexFor id
    let nodes := (t.bucketAt index).nodes
    if nodes.any (·.id = id) then false
    else nodes.length < K || t.canSplit index || nodes.any (·.failCount ≥ BadFailCount)

/-- The nodes to be pinged: so many of those whose standing is unclear, the ones not
    heard from for longest first. -/
def nodesNeedingPing (now : ℤ) (max : ℕ) (minPingIntervalMs : ℤ) : List RoutingNode :=
  let out := t.allNodes.filter fun n => stateOf n now = .Questionable &&
    !(n.lastPingSent > 0 && now - n.lastPingSent < minPingIntervalMs)
  let heard (n : RoutingNode) : ℤ := Max.max n.lastResponse n.lastQuery
  (out.insertionSort fun a b => heard a ≤ heard b).take max

/-- The bucket that has not changed for longest, of those that have not for so long. -/
def staleBucket (now staleMs : ℤ) : Option ℕ :=
  let stale := t.buckets.zipIdx.filter fun b => ¬(now - b.1.lastChanged < staleMs)
  ((firstBest (fun a b => a.1.lastChanged < b.1.lastChanged) stale).bind (stale[·]?)).map (·.2)

/-- A call that changes the table. -/
inductive Op
  | heardFrom (id : NodeId) (endpoint : Endpoint) (version : Bytes) (rttMs now : ℤ)
  | queriedBy (id : NodeId) (endpoint : Endpoint) (now : ℤ)
  | failed (endpoint : Endpoint) (now : ℤ)
  | markPinged (endpoint : Endpoint) (now : ℤ)
  | touchBucket (index now : ℤ)
  | rebuild (newSelf : NodeId) (now : ℤ)

/-- The table after a call. -/
def apply : Op → RoutingTable
  | .heardFrom id endpoint version rttMs now => (t.heardFrom id endpoint version rttMs now).1
  | .queriedBy id endpoint now => (t.queriedBy id endpoint now).1
  | .failed endpoint now => t.failed endpoint now
  | .markPinged endpoint now => t.markPinged endpoint now
  | .touchBucket index now => t.touchBucket index now
  | .rebuild newSelf now => t.rebuild newSelf now

/-- The table after a sequence of calls. -/
def run (ops : List Op) : RoutingTable := ops.foldl apply t

end RoutingTable

end Dht
