import DhtCore.Lib.Join
import DhtCore.Lookup.Peers

/-!
# Searches

The engine searches with its node of each family, and reports once, when the lookups of all have
finished, whichever is first.

* Of the peers, it reports all that a node of any family told of (`searchPeers_told`). They need
  not be unique, as IPv6 nodes may tell of IPv4 peers too, in 18 bytes.
* Of the items, it reports the newest that any of them brought (`searchItem_newest`), as each of
  the lookups does.
-/

namespace Dht

/-- What is reported of a search for peers. -/
structure PeerSearchResult where
  infohash : NodeId
  peers : List Endpoint := []
  sightings : List PeerSighting := []
  queried : ℕ := 0
  responded : ℕ := 0

/-- What is reported of a search for an item. -/
structure ItemSearchResult where
  target : NodeId
  found : Bool := false
  isMutable : Bool := false
  item : Lookup.Item := {}
  salt : Bytes
  queried : ℕ := 0
  responded : ℕ := 0

namespace DhtEngine

/-! ## What is reported -/

/-- A family's lookup for peers has finished. -/
def collectPeers (s : PeerSearchResult) (result : Lookup.Result) : PeerSearchResult :=
  { s with
    peers := s.peers ++ result.peers
    sightings := s.sightings ++ result.sightings
    queried := s.queried + result.queried
    responded := s.responded + result.responded }

/-- The reports of a search for peers in so many families, as their lookups finish. -/
def searchPeers (infohash : NodeId) (families : ℕ) (results : List Lookup.Result) :
    List PeerSearchResult :=
  Join.reports collectPeers { infohash } families results

/-- What a caller of `getPeers` is told. -/
def getPeers (families : ℕ) (results : List Lookup.Result) : List (List Endpoint) :=
  Join.reports (fun peers result => peers ++ result.peers) [] families results

/-- A family's lookup for an item has finished. -/
def collectItem (s : ItemSearchResult) (result : Lookup.Result) : ItemSearchResult :=
  let s := { s with
    queried := s.queried + result.queried
    responded := s.responded + result.responded }
  -- Immutable items have no sequence number, so it is not all that is compared.
  if result.itemFound ∧ (!s.found ∨ result.item.sequence > s.item.sequence) then
    { s with found := true, isMutable := result.itemIsMutable, item := result.item }
  else s

/-- The reports of a search for an item in so many families. -/
def searchItem (target : NodeId) (salt : Bytes) (families : ℕ) (results : List Lookup.Result) :
    List ItemSearchResult :=
  Join.reports collectItem { target, salt } families results

/-- A family's part: what its lookup is made with, and what happens to it. -/
structure Search where
  family : Family
  self : NodeId
  allowLocal : Bool
  slowAfterMs : ℤ
  queryTimeoutMs : ℤ
  events : List Lookup.Event

namespace Search

variable (crypto : Crypto) (kind : Lookup.Kind) (target : NodeId) (salt : Bytes) (s : Search)

/-- The lookup that the node starts (`startLookup`), to which the nodes that it knows are still
    added. -/
def lookup : Lookup :=
  ((Lookup.new kind target s.family s.self s.allowLocal).setSalt salt).setTimeouts s.slowAfterMs
    s.queryTimeoutMs

/-- The lookup of a family, as it is in the end. -/
def searched : Lookup := (s.lookup kind target salt).run crypto s.events

/-- The peers that it was told of. -/
def sighted : List PeerSighting :=
  Lookup.sightedIn crypto (s.lookup .GetPeers target []) s.events

/-- The responses that it processed. -/
def processed : List RpcReply :=
  Lookup.processed crypto (s.lookup .GetItem target salt) s.events

theorem length_reports : (s.searched crypto kind target salt).reports.length =
    if (s.searched crypto kind target salt).finished then 1 else 0 := by
  have hnew : (s.lookup kind target salt).Going :=
    ⟨rfl, fun _ h => absurd h Bool.false_ne_true, fun _ h => absurd h (lt_irrefl 0)⟩
  exact (Lookup.going_run hnew (Lookup.balanced_new kind target s.family s.self s.allowLocal salt
    s.slowAfterMs s.queryTimeoutMs) s.events).reports

variable {crypto kind target salt s}

theorem exists_report (h : (s.searched crypto kind target salt).finished = true) :
    ∃ result, (s.searched crypto kind target salt).reports = [result] := by
  have hlength := length_reports crypto kind target salt s
  rw [if_pos h] at hlength
  exact List.length_eq_one_iff.1 hlength

end Search

theorem length_flatMap_reports (crypto : Crypto) (kind : Lookup.Kind) (target : NodeId)
    (salt : Bytes) (order : List Search) :
    (order.flatMap fun s => (s.searched crypto kind target salt).reports).length =
      order.countP fun s => (s.searched crypto kind target salt).finished := by
  induction order with
  | nil => rfl
  | cons s order ih =>
    rw [List.flatMap_cons, List.length_append, ih, Search.length_reports, List.countP_cons,
      Nat.add_comm]

variable {crypto : Crypto} {kind : Lookup.Kind} {target : NodeId} {salt : Bytes}
  {order searches : List Search}

/-- There is a report when all lookups have finished, and only one. -/
theorem reports_of_searched {S : Type*} (f : S → Lookup.Result → S) (s : S)
    (h : order.Perm searches) :
    Join.reports f s searches.length
        (order.flatMap fun s => (s.searched crypto kind target salt).reports) =
      if ∀ s ∈ searches, (s.searched crypto kind target salt).finished then
        [(order.flatMap fun s => (s.searched crypto kind target salt).reports).foldl f s]
      else [] := by
  have hlength := length_flatMap_reports crypto kind target salt order
  rw [h.countP_eq] at hlength
  rw [Join.reports_of_length_le _ (hlength ▸ List.countP_le_length), hlength]
  exact if_congr List.countP_eq_length rfl rfl

/-! ## Peers -/

theorem foldl_collectPeers (s : PeerSearchResult) (results : List Lookup.Result) :
    results.foldl collectPeers s =
      { s with
        peers := s.peers ++ results.flatMap (·.peers)
        sightings := s.sightings ++ results.flatMap (·.sightings)
        queried := s.queried + (results.map (·.queried)).sum
        responded := s.responded + (results.map (·.responded)).sum } := by
  induction results generalizing s with
  | nil => simp
  | cons result results ih =>
    rw [List.foldl_cons, ih]
    simp only [collectPeers, List.flatMap_cons, List.map_cons, List.sum_cons, List.append_assoc,
      Nat.add_assoc]

/-- What is reported of a lookup for peers that has finished. -/
theorem Search.peers_of_finished {s : Search}
    (h : (s.searched crypto .GetPeers target []).finished = true) :
    ((s.searched crypto .GetPeers target []).reports.flatMap (·.peers) =
      ((s.sighted crypto target).map (·.peer)).eraseDups) ∧
    (s.searched crypto .GetPeers target []).reports.flatMap (·.sightings) =
      (s.sighted crypto target).take Lookup.MaxSightings := by
  obtain ⟨result, hresult⟩ := s.exists_report h
  have hinv : Lookup.PeersInv (s.sighted crypto target) (s.searched crypto .GetPeers target []) :=
    (Lookup.peersInv_new target s.family s.self s.allowLocal [] s.slowAfterMs s.queryTimeoutMs).run
  obtain ⟨-, hpeers, hsightings⟩ := hinv.reports result (hresult ▸ List.mem_cons_self)
  rw [hresult, List.flatMap_singleton, List.flatMap_singleton, hpeers, hsightings,
    hinv.gathers.peers, hinv.gathers.sightings]
  exact ⟨rfl, rfl⟩

/-- A search for peers is reported once, when the lookups of all families have finished, whichever
    is first. The peers are those that any node of any family told of, each with the families in
    which it was told of, so that they are unique if and only if none was told of in two. -/
theorem searchPeers_told (crypto : Crypto) (infohash : NodeId) (searches order : List Search)
    (horder : order.Perm searches) :
    let results := order.flatMap fun s => (s.searched crypto .GetPeers infohash []).reports
    let reported := searchPeers infohash searches.length results
    reported.length =
      (if ∀ s ∈ searches, (s.searched crypto .GetPeers infohash []).finished then 1 else 0) ∧
    getPeers searches.length results = reported.map (·.peers) ∧
    ∀ result ∈ reported,
      (∀ peer, peer ∈ result.peers ↔
        ∃ s ∈ searches, ∃ source, ⟨peer, source⟩ ∈ s.sighted crypto infohash) ∧
      (result.peers.Nodup ↔ searches.Pairwise fun s s' =>
        ((s.sighted crypto infohash).map (·.peer)).Disjoint
          ((s'.sighted crypto infohash).map (·.peer))) ∧
      result.sightings.Perm
        (searches.flatMap fun s => (s.sighted crypto infohash).take Lookup.MaxSightings) := by
  intro results reported
  have hreported : reported = if ∀ s ∈ searches,
      (s.searched crypto .GetPeers infohash []).finished then [results.foldl collectPeers
        { infohash }] else [] := reports_of_searched collectPeers { infohash } horder
  have hgot : getPeers searches.length results = if ∀ s ∈ searches,
      (s.searched crypto .GetPeers infohash []).finished then
        [results.foldl (fun peers result => peers ++ result.peers) []] else [] :=
    reports_of_searched _ [] horder
  have hfold : results.foldl (fun peers result => peers ++ result.peers) [] =
      results.flatMap (·.peers) := by
    rw [List.flatMap_eq_foldl]
  -- What the lookups add comes one after the other, in the order in which they finish.
  rw [hgot, hreported, hfold, foldl_collectPeers]
  split_ifs with hfinished
  · have hpeers : results.flatMap (·.peers) = order.flatMap fun s =>
        ((s.sighted crypto infohash).map (·.peer)).eraseDups := by
      rw [List.flatMap_assoc]
      exact List.flatMap_congr fun s hs =>
        (Search.peers_of_finished (hfinished s (horder.mem_iff.1 hs))).1
    have hsightings : results.flatMap (·.sightings) = order.flatMap fun s =>
        (s.sighted crypto infohash).take Lookup.MaxSightings := by
      rw [List.flatMap_assoc]
      exact List.flatMap_congr fun s hs =>
        (Search.peers_of_finished (hfinished s (horder.mem_iff.1 hs))).2
    refine ⟨rfl, rfl, fun result hresult => ?_⟩
    obtain rfl := List.mem_singleton.1 hresult
    dsimp only
    rw [List.nil_append, List.nil_append, hpeers, hsightings]
    refine ⟨fun peer => ?_, ?_, horder.flatMap_right _⟩
    · simp only [List.mem_flatMap, List.mem_eraseDups, List.mem_map, horder.mem_iff]
      refine exists_congr fun s => and_congr_right fun _ => ⟨?_, ?_⟩
      · rintro ⟨sighting, hsighting, rfl⟩
        exact ⟨sighting.source, hsighting⟩
      · exact fun ⟨source, hsighting⟩ => ⟨⟨peer, source⟩, hsighting, rfl⟩
    · -- Each lookup tells of a peer once, so a peer comes twice if two families told of it.
      rw [(horder.flatMap_right _).nodup_iff, List.nodup_flatMap]
      rw [and_iff_right fun s _ => Distinct.nodup_eraseDups _]
      refine List.Pairwise.iff fun s s' => ?_
      simp only [Function.onFun, List.Disjoint, List.mem_eraseDups]
  · exact ⟨rfl, rfl, fun _ h => absurd h List.not_mem_nil⟩

/-- A response that tells of a peer. -/
def tellsOfPeer (peer : Bytes) : RpcReply where
  status := .Response
  message := { type := .Response, body := .dict [(ascii "values", .list [.string peer])] }

/-- A search by a node that knows one other, which responds. -/
def searchBy (other : Endpoint) (reply : RpcReply) : Search where
  family := other.family
  self := default
  allowLocal := false
  slowAfterMs := 700
  queryTimeoutMs := 1500
  events :=
    [.addCandidate ⟨List.replicate 20 1, NodeId.length_ones⟩ other, .start 1, .resume 1, .resume 1,
      .reply other reply, .resume 2]

/-- An IPv4 node and an IPv6 node tell of the same peer, the latter in 18 bytes. -/
def bothTell : List Search :=
  [searchBy DhtNode.host (tellsOfPeer [9, 9, 9, 9, 26, 225]),
    searchBy ⟨.ipv6 0x20014860486000000000000000008888#128, 6881⟩
      (tellsOfPeer (List.replicate 10 0 ++ [255, 255, 9, 9, 9, 9, 26, 225]))]

/-- A peer may be reported twice. -/
theorem searchPeers_told_twice :
    ∃ results, ∃ result ∈ searchPeers default 2 results, ¬result.peers.Nodup := by
  have htold := searchPeers_told DhtNode.known default bothTell bothTell (.refl _)
  obtain ⟨hlength, -, hall⟩ := htold
  rw [if_pos (by decide +kernel)] at hlength
  obtain ⟨result, hresult⟩ := List.length_eq_one_iff.1 hlength
  have hmem := hresult ▸ List.mem_singleton_self result
  refine ⟨_, result, hmem, fun hnodup => ?_⟩
  have hpairwise := (hall result hmem).2.1.1 hnodup
  rw [bothTell, List.pairwise_pair] at hpairwise
  have hsighted : ∀ s ∈ bothTell, (s.sighted DhtNode.known default).map (·.peer) =
      [⟨.ipv4 (HostAddress.dotted 9 9 9 9), 6881⟩] := by decide +kernel
  rw [hsighted _ List.mem_cons_self, hsighted _ (List.mem_cons_of_mem _ List.mem_cons_self)]
    at hpairwise
  exact hpairwise List.mem_cons_self List.mem_cons_self

/-! ## Items -/

variable {replies replies' : List RpcReply} {found isMutable : Bool} {item : Lookup.Item}

/-- What was found, as responses carry it: the newest item, if any is newer than `-1`. -/
structure Finds (crypto : Crypto) (target : NodeId) (salt : Bytes) (replies : List RpcReply)
    (found isMutable : Bool) (item : Lookup.Item) : Prop where
  le : ∀ reply ∈ replies, ∀ item', Lookup.Carries crypto target salt reply item' →
    item'.sequence ≤ item.sequence
  carried : isMutable = true → ∃ reply ∈ replies, Lookup.Carries crypto target salt reply item
  nonneg : isMutable = true → found = true ∧ 0 ≤ item.sequence
  initial : isMutable = false → item.sequence = -1
  hash : found = true → isMutable = false → Bep44.immutableTarget crypto item.value = target

theorem finds_nothing : Finds crypto target salt [] false false {} :=
  ⟨fun _ h => absurd h List.not_mem_nil, fun h => absurd h Bool.false_ne_true,
    fun h => absurd h Bool.false_ne_true, fun _ => rfl, fun h => absurd h Bool.false_ne_true⟩

theorem Finds.neg_one_le (h : Finds crypto target salt replies found isMutable item) :
    -1 ≤ item.sequence := by
  cases hmutable : isMutable with
  | true =>
    have hnonneg := (h.nonneg hmutable).2
    omega
  | false => exact (h.initial hmutable).ge

theorem Finds.sequence_of_not_found (h : Finds crypto target salt replies found isMutable item)
    (hfound : found = false) : item.sequence = -1 := by
  refine h.initial ?_
  by_contra hmutable
  have htrue := (h.nonneg (by simpa using hmutable)).1
  rw [hfound] at htrue
  exact Bool.noConfusion htrue

/-- What is found stays so, if others carry nothing newer. -/
theorem Finds.of_subset (h : Finds crypto target salt replies found isMutable item)
    (hsub : replies ⊆ replies')
    (hle : ∀ reply ∈ replies', ∀ item', Lookup.Carries crypto target salt reply item' →
      item'.sequence ≤ item.sequence) : Finds crypto target salt replies' found isMutable item :=
  ⟨hle, fun hmutable => (h.carried hmutable).imp fun _ hr => ⟨hsub hr.1, hr.2⟩, h.nonneg, h.initial,
    h.hash⟩

theorem Finds.collectItem {s : ItemSearchResult} {result : Lookup.Result}
    (h : Finds crypto target salt replies s.found s.isMutable s.item)
    (h' : Finds crypto target salt replies' result.itemFound result.itemIsMutable result.item) :
    Finds crypto target salt (replies ++ replies') (collectItem s result).found
      (collectItem s result).isMutable (collectItem s result).item := by
  rw [DhtEngine.collectItem]
  dsimp only
  split_ifs with hnewer
  · have hle : s.item.sequence ≤ result.item.sequence := by
      rcases hnewer.2 with hnone | hlt
      · rw [h.sequence_of_not_found (by simpa using hnone)]
        exact h'.neg_one_le
      · exact hlt.le
    have hsame : Finds crypto target salt replies' true result.itemIsMutable result.item :=
      hnewer.1 ▸ h'
    refine hsame.of_subset (List.subset_append_right _ _) fun reply hreply item' hcarries => ?_
    rcases List.mem_append.1 hreply with hreply | hreply
    · exact (h.le reply hreply item' hcarries).trans hle
    · exact h'.le reply hreply item' hcarries
  · have hle : result.item.sequence ≤ s.item.sequence := by
      by_cases hfound : result.itemFound = true
      · rw [and_iff_right hfound, not_or] at hnewer
        exact not_lt.1 hnewer.2
      · rw [h'.sequence_of_not_found (by simpa using hfound)]
        exact h.neg_one_le
    refine h.of_subset (List.subset_append_left _ _) fun reply hreply item' hcarries => ?_
    rcases List.mem_append.1 hreply with hreply | hreply
    · exact h.le reply hreply item' hcarries
    · exact (h'.le reply hreply item' hcarries).trans hle

/-- The search has the item with the highest sequence number of those that responses carry, if
    they carry any, and otherwise nothing but a value whose hash is the target. -/
structure Newest (crypto : Crypto) (target : NodeId) (salt : Bytes) (replies : List RpcReply)
    (result : ItemSearchResult) : Prop where
  newest : ∀ reply ∈ replies, ∀ item, Lookup.Carries crypto target salt reply item →
    result.found = true ∧ result.isMutable = true ∧ item.sequence ≤ result.item.sequence
  carried : result.found = true → result.isMutable = true →
    ∃ reply ∈ replies, Lookup.Carries crypto target salt reply result.item
  hash : result.found = true → result.isMutable = false →
    Bep44.immutableTarget crypto result.item.value = target

theorem Finds.newest_iff {result : ItemSearchResult}
    (h : Finds crypto target salt replies result.found result.isMutable result.item) :
    Newest crypto target salt replies result ↔
      (∀ reply ∈ replies, ∀ item, ¬Lookup.Carries crypto target salt reply item) ∨
        ∃ reply ∈ replies, ∃ item, Lookup.Carries crypto target salt reply item ∧
          0 ≤ item.sequence := by
  constructor
  · intro hnewest
    refine or_iff_not_imp_left.2 fun hcarried => ?_
    push Not at hcarried
    obtain ⟨reply, hreply, item, hcarries⟩ := hcarried
    obtain ⟨-, hmutable, -⟩ := hnewest.newest reply hreply item hcarries
    obtain ⟨reply', hreply', hcarries'⟩ := h.carried hmutable
    exact ⟨reply', hreply', result.item, hcarries', (h.nonneg hmutable).2⟩
  · intro hcondition
    refine ⟨fun reply hreply item hcarries => ?_, fun _ => h.carried, h.hash⟩
    rcases hcondition with hnone | ⟨reply', hreply', item', hcarries', hnonneg⟩
    · exact absurd hcarries (hnone reply hreply item)
    · have hmutable : result.isMutable = true := by
        by_contra hnot
        have hinitial := h.initial (by simpa using hnot)
        have hle := h.le reply' hreply' item' hcarries'
        omega
      exact ⟨(h.nonneg hmutable).1, hmutable, h.le reply hreply item hcarries⟩

/-- What a lookup for an item reports when it has finished. -/
theorem Search.finds_of_finished {s : Search} (hparsed : ∀ e ∈ s.events, e.Parsed)
    (h : (s.searched crypto .GetItem target salt).finished = true) :
    ∃ result, (s.searched crypto .GetItem target salt).reports = [result] ∧
      Finds crypto target salt (s.processed crypto target salt) result.itemFound
        result.itemIsMutable result.item := by
  obtain ⟨result, hresult⟩ := s.exists_report h
  have hnew := Lookup.itemInv_new crypto target s.family s.self s.allowLocal salt s.slowAfterMs
    s.queryTimeoutMs
  have hinv : Lookup.ItemInv crypto (s.processed crypto target salt)
      (s.searched crypto .GetItem target salt) := hnew.run hparsed
  obtain ⟨htarget, hsalt⟩ : (s.searched crypto .GetItem target salt).target = target ∧
      (s.searched crypto .GetItem target salt).salt = salt := Lookup.sameGoal_run hnew hparsed
  obtain ⟨-, hfound, hmutable, hitem⟩ := hinv.reports result (hresult ▸ List.mem_cons_self)
  obtain ⟨-, hle, hcarried, hnonneg, hinitial, hhash, -⟩ := hinv
  rw [htarget, hsalt] at hle hcarried
  rw [htarget] at hhash
  refine ⟨result, hresult, ?_⟩
  rw [hfound, hmutable, hitem]
  exact ⟨hle, hcarried, hnonneg, hinitial, hhash⟩

theorem finds_foldl (hparsed : ∀ s ∈ order, ∀ e ∈ s.events, e.Parsed)
    (hfinished : ∀ s ∈ order, (s.searched crypto .GetItem target salt).finished = true)
    {result : ItemSearchResult}
    (h : Finds crypto target salt replies result.found result.isMutable result.item) :
    let last := (order.flatMap fun s => (s.searched crypto .GetItem target salt).reports).foldl
      collectItem result
    Finds crypto target salt (replies ++ order.flatMap (Search.processed crypto target salt))
      last.found last.isMutable last.item := by
  induction order generalizing replies result with
  | nil =>
    intro last
    rw [List.flatMap_nil, List.append_nil]
    exact h
  | cons s order ih =>
    rw [List.forall_mem_cons] at hparsed hfinished
    obtain ⟨r, hr, hfinds⟩ := Search.finds_of_finished hparsed.1 hfinished.1
    rw [List.flatMap_cons, List.flatMap_cons, hr, ← List.append_assoc]
    exact ih hparsed.2 hfinished.2 (h.collectItem hfinds)

/-- A search for an item is reported once, when the lookups of all families have finished,
    whichever is first. It is the newest item of those that responses to any of them carried, if
    and only if they carried none, or one whose sequence number is not negative. -/
theorem searchItem_newest (crypto : Crypto) (target : NodeId) (salt : Bytes)
    (searches order : List Search) (horder : order.Perm searches)
    (hparsed : ∀ s ∈ searches, ∀ e ∈ s.events, e.Parsed) :
    let results := order.flatMap fun s => (s.searched crypto .GetItem target salt).reports
    let replies := searches.flatMap (Search.processed crypto target salt)
    let reported := searchItem target salt searches.length results
    reported.length =
      (if ∀ s ∈ searches, (s.searched crypto .GetItem target salt).finished then 1 else 0) ∧
    ∀ result ∈ reported, Newest crypto target salt replies result ↔
      (∀ reply ∈ replies, ∀ item, ¬Lookup.Carries crypto target salt reply item) ∨
        ∃ reply ∈ replies, ∃ item, Lookup.Carries crypto target salt reply item ∧
          0 ≤ item.sequence := by
  intro results replies reported
  have hreported : reported = if ∀ s ∈ searches,
      (s.searched crypto .GetItem target salt).finished then [results.foldl collectItem
        { target, salt }] else [] := reports_of_searched collectItem { target, salt } horder
  rw [hreported]
  split_ifs with hfinished
  · refine ⟨rfl, fun result hresult => ?_⟩
    obtain rfl := List.mem_singleton.1 hresult
    have hnothing : Finds crypto target salt [] ({ target, salt } : ItemSearchResult).found
      ({ target, salt } : ItemSearchResult).isMutable
      ({ target, salt } : ItemSearchResult).item := finds_nothing
    have hfinds := finds_foldl (fun s hs => hparsed s (horder.mem_iff.1 hs))
      (fun s hs => hfinished s (horder.mem_iff.1 hs)) hnothing
    rw [List.nil_append] at hfinds
    have hperm := horder.flatMap_right (Search.processed crypto target salt)
    exact (hfinds.of_subset hperm.subset fun reply hreply =>
      hfinds.le reply (hperm.symm.subset hreply)).newest_iff
  · exact ⟨rfl, fun _ h => absurd h List.not_mem_nil⟩

/-- The owner's item with the sequence number `1` is the newest that a response carries. -/
theorem searchItem_newest_owner :
    let target := Lookup.knownToo.sha1 DhtNode.owner
    let reply := Lookup.replyOf
      (Lookup.responseWith (ascii "1") (DhtNode.signatureOf (ascii "1:a")))
    ∃ results, ∃ result ∈ searchItem target [] 1 results, Newest Lookup.knownToo target []
      ((searchBy DhtNode.host reply).processed Lookup.knownToo target []) result := by
  intro target reply
  obtain ⟨hlength, hall⟩ := searchItem_newest Lookup.knownToo target []
    [searchBy DhtNode.host reply] [searchBy DhtNode.host reply] (.refl _) (by
      simp only [List.mem_singleton, forall_eq]
      exact Lookup.parsed_oneResponds (by decide +kernel))
  rw [if_pos (by decide +kernel)] at hlength
  rw [List.flatMap_singleton (f := Search.processed Lookup.knownToo target [])] at hall
  obtain ⟨result, hresult⟩ := List.length_eq_one_iff.1 hlength
  have hmem := hresult ▸ List.mem_singleton_self result
  have hcarries : Lookup.Carries Lookup.knownToo target [] reply
      { value := ascii "1:a", publicKey := DhtNode.owner
        signature := DhtNode.signatureOf (ascii "1:a"), sequence := 1 } :=
    ⟨Option.map_eq_some_iff.1 (by decide +kernel), by decide +kernel,
      by decide +kernel, by decide +kernel, by decide +kernel, by decide +kernel⟩
  exact ⟨_, result, hmem, (hall result hmem).2 (.inr
    ⟨reply, Lookup.mem_processed Lookup.oneAsked (by decide +kernel), _, hcarries, by decide⟩)⟩

end DhtEngine

end Dht
