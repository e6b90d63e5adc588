import DhtCore.Bep44
import DhtCore.Endpoint
import DhtCore.Lib.Replacing
import DhtCore.RoutingTable.Basic

/-!
# What a node keeps for others

* `TokenManager` makes the tokens without which nothing is stored, and recognises
  them;
* `PeerStorage` holds the peers that were announced, and `ItemStorage` the items
  of BEP 44, each up to a limit past which the oldest go;
* `ExternalIpVoter` finds out our own address from what others say it is.

A hash table is an association list, gone through in its order. What is random is
given: the secrets of tokens, and the draws of samples.
-/

namespace Dht

open Replacing

/-! ## Tokens -/

/-- The bytes of an address. -/
def addressBytes (raw : HostAddress) : Bytes :=
  match normalizeAddress raw with
  | .ipv4 a => Endpoint.bytesOf 4 a.toNat
  | .ipv6 a => Endpoint.bytesOf 16 a.toNat
  | .null => Endpoint.bytesOf 16 0

/-- The secrets that tokens are made with. -/
structure TokenManager where
  current : Bytes := []
  previous : Bytes := []
  rotatedAt : ℤ := -1

namespace TokenManager

/-- How long a secret is the current one, in milliseconds. -/
def RotationMs : ℤ := 5 * 60 * 1000

variable (crypto : Crypto) (m : TokenManager)

/-- Replaces the secrets that are too old, by the random ones given. -/
def rotateIfNeeded (random : Bytes × Bytes) (now : ℤ) : TokenManager :=
  if m.rotatedAt < 0 ∨ now - m.rotatedAt ≥ 2 * RotationMs then
    { current := random.1, previous := random.2, rotatedAt := now }
  else if now - m.rotatedAt ≥ RotationMs then
    { current := random.1, previous := m.current, rotatedAt := now }
  else m

/-- The token of an address. -/
def tokenFor (secret : Bytes) (address : HostAddress) : Bytes :=
  (crypto.sha1 (secret ++ addressBytes address)).toBytes.take 8

/-- The token for an address. -/
def generate (random : Bytes × Bytes) (address : HostAddress) (now : ℤ) : TokenManager × Bytes :=
  let m := m.rotateIfNeeded random now
  (m, tokenFor crypto m.current address)

/-- Whether a token is the one for an address, with the secret now or the one before. -/
def validate (random : Bytes × Bytes) (token : Bytes) (address : HostAddress) (now : ℤ) :
    TokenManager × Bool :=
  let m := m.rotateIfNeeded random now
  (m, token = tokenFor crypto m.current address || token = tokenFor crypto m.previous address)

end TokenManager

/-! ## Peers -/

/-- The peers of an infohash, and when each was announced last. -/
structure PeerEntry where
  peers : AList (fun _ : Endpoint => ℤ) := ∅
  lastAnnounce : ℤ := 0

/-- The peers announced to a node. -/
structure PeerStorage where
  entries : AList (fun _ : NodeId => PeerEntry) := ∅
  peerCount : ℤ := 0

namespace PeerStorage

/-- How long a peer is kept that is not announced again, in milliseconds. -/
def PeerTtlMs : ℤ := 30 * 60 * 1000

/-- How many infohashes peers are kept for. -/
def MaxInfohashes : ℕ := 5000

/-- How many peers are kept for an infohash. -/
def MaxPeersPerInfohash : ℕ := 500

variable (s : PeerStorage)

/-- Drops the infohash announced to the longest ago, if there are too many for
    another one. -/
def makeRoom : PeerStorage :=
  if s.entries.entries.length ≥ MaxInfohashes then
    match firstBestEntry s.entries.entries with
    | some ⟨infohash, entry⟩ =>
      { entries := s.entries.erase infohash, peerCount := s.peerCount - entry.peers.entries.length }
    | none => s
  else s
where
  firstBestEntry (l : List (Σ _ : NodeId, PeerEntry)) : Option (Σ _ : NodeId, PeerEntry) :=
    (RoutingTable.firstBest (fun a b => a.2.lastAnnounce < b.2.lastAnnounce) l).bind (l[·]?)

/-- Drops the peer announced the longest ago, if there are too many for another one. -/
def makeRoomFor (peers : AList (fun _ : Endpoint => ℤ)) (peerCount : ℤ) :
    AList (fun _ : Endpoint => ℤ) × ℤ :=
  if peers.entries.length ≥ MaxPeersPerInfohash then
    match (RoutingTable.firstBest (fun a b => a.2 < b.2) peers.entries).bind
      (peers.entries[·]?) with
    | some ⟨oldest, _⟩ => (peers.erase oldest, peerCount - 1)
    | none => (peers, peerCount)
  else (peers, peerCount)

/-- A peer of an infohash was announced. -/
def addPeer (peers : AList (fun _ : Endpoint => ℤ)) (peerCount : ℤ) (peer : Endpoint) (now : ℤ) :
    AList (fun _ : Endpoint => ℤ) × ℤ :=
  if peer ∈ peers then (peers.insert peer now, peerCount)
  else
    let (peers, peerCount) := makeRoomFor peers peerCount
    (peers.insert peer now, peerCount + 1)

/-- Keeps a peer for an infohash, in the place of another if there is no room. -/
def announce (infohash : NodeId) (peer : Endpoint) (now : ℤ) : PeerStorage :=
  let s := if infohash ∈ s.entries then s else s.makeRoom
  let entry := (s.entries.lookup infohash).getD {}
  let (peers, peerCount) := addPeer entry.peers s.peerCount peer now
  { entries := s.entries.insert infohash { peers, lastAnnounce := now }, peerCount }

/-- Swaps each of the first elements with a random later one. -/
def drawLoop {α : Type} (draw : ℕ → ℕ) : ℕ → ℕ → List α → List α
  | 0, _, out => out
  | left + 1, i, out =>
    let j := i + draw i % (out.length - i)
    match out[i]?, out[j]? with
    | some a, some b => drawLoop draw left (i + 1) ((out.set i b).set j a)
    | _, _ => out

/-- A random selection of peers of a family. -/
def peers (draw : ℕ → ℕ) (infohash : NodeId) (family : Family) (max : ℕ) : List Endpoint :=
  match s.entries.lookup infohash with
  | none => []
  | some entry =>
    let out := (entry.peers.entries.map (·.1)).filter (·.family = family)
    if out.length > max then (drawLoop draw max 0 out).take max else out

/-- Some of the infohashes, which were put in a random order. -/
def sampleInfohashes (shuffle : List NodeId → List NodeId) (max : ℕ) : List NodeId :=
  (shuffle (s.entries.entries.map (·.1))).take max

/-- The peers that were announced again in time. -/
def stillAnnounced (now : ℤ) (entry : PeerEntry) : PeerEntry :=
  { entry with peers := retain (fun _ announcedAt => ¬(now - announcedAt ≥ PeerTtlMs)) entry.peers }

/-- How many of the peers were not announced again in time. -/
def countExpired (now : ℤ) (entry : PeerEntry) : ℤ :=
  entry.peers.entries.countP fun p => now - p.2 ≥ PeerTtlMs

/-- Drops the peers that were not announced again in time, and the infohashes that have no
    others. -/
def expire (now : ℤ) : PeerStorage :=
  let left := s.entries.entries.map fun e =>
      (⟨e.1, stillAnnounced now e.2⟩ : Σ _ : NodeId, PeerEntry)
  { entries := (left.filter fun e => !e.2.peers.entries.isEmpty).toAList
    peerCount := s.peerCount - (s.entries.entries.map fun e => countExpired now e.2).sum }

/-- Forgets all peers. -/
def clear (_ : PeerStorage) : PeerStorage := { entries := ∅, peerCount := 0 }

end PeerStorage

/-! ## Items -/

/-- An item stored under the hash of its value. -/
structure ImmutableItem where
  target : NodeId
  /-- Bencoded, exactly as it arrived. -/
  value : Bytes
  storedAt : ℤ := 0
  deriving DecidableEq

/-- An item stored under the hash of its owner's public key and its salt. -/
structure MutableItem where
  target : NodeId
  publicKey : Bytes
  salt : Bytes
  signature : Bytes
  /-- Bencoded, exactly as it arrived. -/
  value : Bytes
  sequence : ℤ
  storedAt : ℤ := 0
  deriving DecidableEq

/-- What became of an item to be stored. -/
inductive PutResult
  | Stored
  | Refreshed
  | SequenceTooLow
  | CasMismatch
  | TooBig
  | SaltTooLong
  deriving DecidableEq, Repr

/-- The items held for others. -/
structure ItemStorage where
  immutable : AList (fun _ : NodeId => ImmutableItem) := ∅
  mutable : AList (fun _ : NodeId => MutableItem) := ∅

namespace ItemStorage

/-- How many items of each kind are kept. -/
def MaxItems : ℕ := 1000

variable (s : ItemStorage)

/-- How many immutable items are kept. -/
def immutableCount : ℕ := s.immutable.entries.length

/-- How many mutable items are kept. -/
def mutableCount : ℕ := s.mutable.entries.length

/-- The largest number of milliseconds there is. -/
def EndOfTime : ℤ := 2 ^ 63 - 1

/-- The oldest item seen so far by the loops of `makeRoom`. -/
structure Oldest where
  oldest : ℤ := EndOfTime
  victim : NodeId := default
  victimIsMutable : Bool := false

/-- A loop of `makeRoom`, over the targets and the times of items. -/
def Oldest.among (o : Oldest) (areMutable : Bool) (items : List (NodeId × ℤ)) : Oldest :=
  items.foldl (fun o item => if item.2 < o.oldest then ⟨item.2, item.1, areMutable⟩ else o) o

/-- Drops whichever item is oldest, if there are too many for another one. -/
def makeRoom : ItemStorage :=
  if s.immutableCount + s.mutableCount < MaxItems then s
  else
    let o : Oldest := {}
    let o := o.among false (s.immutable.entries.map fun e => (e.1, e.2.storedAt))
    let o := o.among true (s.mutable.entries.map fun e => (e.1, e.2.storedAt))
    if o.victimIsMutable then { s with mutable := s.mutable.erase o.victim }
    else { s with immutable := s.immutable.erase o.victim }

/-- Stores an immutable item, or says why not. -/
def putImmutable (target : NodeId) (bencodedValue : Bytes) (now : ℤ) : ItemStorage × PutResult :=
  if bencodedValue.length > Bep44.MaxValueBytes then (s, .TooBig)
  else
    match s.immutable.lookup target with
    | some item =>
      ({ s with immutable := s.immutable.insert target { item with storedAt := now } }, .Refreshed)
    | none =>
      let s := s.makeRoom
      let item : ImmutableItem := { target, value := bencodedValue, storedAt := now }
      ({ s with immutable := s.immutable.insert target item }, .Stored)

/-- Stores a mutable item, or says why not. -/
def putMutable (item : MutableItem) (cas : Option ℤ) (now : ℤ) : ItemStorage × PutResult :=
  if item.value.length > Bep44.MaxValueBytes then (s, .TooBig)
  else if item.salt.length > Bep44.MaxSaltBytes then (s, .SaltTooLong)
  else
    let stored := { item with storedAt := now }
    match s.mutable.lookup item.target with
    | some old =>
      -- Refused if someone else has written since the putter last read the item.
      if cas.any (old.sequence ≠ ·) then (s, .CasMismatch)
      else if item.sequence < old.sequence then (s, .SequenceTooLow)
      else if item.sequence = old.sequence then
        ({ s with mutable := s.mutable.insert item.target { old with storedAt := now } },
          .Refreshed)
      else ({ s with mutable := s.mutable.insert item.target stored }, .Stored)
    | none =>
      if cas.isSome then (s, .CasMismatch)
      else
        let s := s.makeRoom
        ({ s with mutable := s.mutable.insert item.target stored }, .Stored)

/-- The immutable item with a target. -/
def immutableItem (target : NodeId) : Option ImmutableItem := s.immutable.lookup target

/-- The mutable item with a target. -/
def mutableItem (target : NodeId) : Option MutableItem := s.mutable.lookup target

/-- Drops the items that nobody refreshed in time. -/
def expire (now : ℤ) : ItemStorage :=
  { immutable := retain (fun _ item => ¬(now - item.storedAt ≥ Bep44.ItemTtlMs)) s.immutable
    mutable := retain (fun _ item => ¬(now - item.storedAt ≥ Bep44.ItemTtlMs)) s.mutable }

end ItemStorage

/-! ## Our own address -/

/-- What an address says our address is, and when it said so. -/
structure Vote where
  reported : HostAddress
  at_ : ℤ

/-- The latest vote of each address, and the address they agree on. -/
structure ExternalIpVoter where
  votes : AList (fun _ : HostAddress => Vote) := ∅
  consensus : HostAddress := .null

namespace ExternalIpVoter

/-- How many voters' votes are kept. -/
def MaxVoters : ℕ := 50

/-- How many votes an address needs to be believed. -/
def MinVotes : ℕ := 3

/-- The address with the most votes, how many those are, and the second most. -/
structure Tally where
  winner : HostAddress := .null
  top : ℕ := 0
  second : ℕ := 0

/-- Counts an address with so many votes in. -/
def Tally.count (t : Tally) (address : HostAddress) (votes : ℕ) : Tally :=
  if votes > t.top then { winner := address, top := votes, second := t.top }
  else if votes > t.second then { t with second := votes }
  else t

/-- In which order the votes and the tally, which are hashes, are gone through. -/
structure HashOrder where
  votes : List (Σ _ : HostAddress, Vote) → List (Σ _ : HostAddress, Vote)
  tally : List HostAddress → List HostAddress
  votes_perm : ∀ l, (votes l).Perm l
  tally_perm : ∀ l, (tally l).Perm l

/-- The tables are gone through in the order in which they are written here. -/
def HashOrder.asIs : HashOrder := ⟨id, id, .refl, .refl⟩

variable (v : ExternalIpVoter)

/-- Takes a vote; says whether the address that is agreed on changes. -/
def addVoteIn (order : HashOrder) (rawVoter rawReported : HostAddress) (now : ℤ) :
    ExternalIpVoter × Bool :=
  let voter := normalizeAddress rawVoter
  let reported := normalizeAddress rawReported
  if voter = .null ∨ reported = .null then (v, false)
  else
    let votes := v.votes.insert voter ⟨reported, now⟩
    let votes := if votes.entries.length > MaxVoters then
        let l := order.votes votes.entries
        match (RoutingTable.firstBest (fun a b => a.2.at_ < b.2.at_) l).bind (l[·]?) with
        | some ⟨oldest, _⟩ => votes.erase oldest
        | none => votes
      else votes
    let reports := votes.entries.map (·.2.reported)
    let t := (order.tally reports.dedup).foldl (fun t a => t.count a (reports.count a)) ({} : Tally)
    if t.top < MinVotes ∨ t.top < 2 * t.second ∨ t.winner = v.consensus then
      ({ v with votes }, false)
    else ({ votes, consensus := t.winner }, true)

/-- A node says which address it sees us at: whether that changes what is believed. -/
def addVote (rawVoter rawReported : HostAddress) (now : ℤ) : ExternalIpVoter × Bool :=
  v.addVoteIn .asIs rawVoter rawReported now

end ExternalIpVoter

end Dht
