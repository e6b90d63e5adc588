import DhtCore.Lib.Distinct
import DhtCore.Lookup.Item
import DhtCore.Lookup.Progress

/-!
# Peers found by lookups

A lookup for peers keeps every peer that a response tells of, once, in the order in which they
were first told of, and the first 2000 tellings with the nodes they came from (`peersInv_run`).
-/

namespace Dht.Lookup

variable {crypto : Crypto} {l l' : Lookup} {told : List PeerSighting}

/-- The peers that an event tells of: those in a response that is waited for. -/
def sightingsOf (l : Lookup) (e : Event) : List PeerSighting :=
  e.answers.flatMap fun source =>
    (l.processes e).toList.flatMap fun reply =>
      (Krpc.decodePeers (reply.message.body.listAt (ascii "values")) l.family).map (⟨·, source⟩)

/-- The tellings in a run. -/
def sightedIn (crypto : Crypto) (l : Lookup) : List Event → List PeerSighting
  | [] => []
  | e :: events => l.sightingsOf e ++ sightedIn crypto (l.apply crypto e) events

/-- What a lookup has gathered of peers. -/
def gathered (l : Lookup) : Kind × Family × List Endpoint × List Endpoint × List PeerSighting :=
  (l.kind, l.family, l.peerSet, l.peers, l.sightings)

/-- A lookup has gathered what it was told. -/
structure Gathers (told : List PeerSighting) (l : Lookup) : Prop where
  kind : l.kind = .GetPeers
  peerSet : ∀ peer, peer ∈ l.peerSet ↔ peer ∈ told.map (·.peer)
  peers : l.peers = (told.map (·.peer)).eraseDups
  sightings : l.sightings = told.take MaxSightings

theorem Gathers.of_eq (h : Gathers told l) (heq : l'.gathered = l.gathered) : Gathers told l' := by
  simp only [gathered, Prod.mk.injEq] at heq
  obtain ⟨hkind, -, hset, hpeers, hsightings⟩ := heq
  exact ⟨hkind.trans h.kind, by rw [hset]; exact h.peerSet, hpeers.trans h.peers,
    hsightings.trans h.sightings⟩

theorem Gathers.collectPeer (h : Gathers told l) (source peer : Endpoint) :
    Gathers (told ++ [⟨peer, source⟩]) (l.collectPeer source peer) := by
  have hmap : (told ++ [PeerSighting.mk peer source]).map (·.peer) =
      told.map (·.peer) ++ [peer] := List.map_append
  have hlength : l.sightings.length < MaxSightings ↔ told.length < MaxSightings := by
    rw [h.sightings, List.length_take]
    omega
  have hsightings : (l.collectPeer source peer).sightings =
      if l.sightings.length < MaxSightings then l.sightings ++ [⟨peer, source⟩]
      else l.sightings := by
    rw [Lookup.collectPeer]
    split_ifs <;> rfl
  have hpeers : (l.collectPeer source peer).peerSet =
        (if peer ∈ l.peerSet then l.peerSet else peer :: l.peerSet) ∧
      (l.collectPeer source peer).peers =
        if peer ∈ l.peerSet then l.peers else l.peers ++ [peer] := by
    rw [Lookup.collectPeer]
    split_ifs <;> exact ⟨rfl, rfl⟩
  refine ⟨?_, fun other => ?_, ?_, ?_⟩
  · rw [Lookup.collectPeer]
    split_ifs <;> exact h.kind
  · rw [hpeers.1, hmap, List.mem_append, List.mem_singleton, ← h.peerSet]
    split_ifs with hmem
    · exact ⟨.inl, fun hor => hor.elim id fun heq => heq ▸ hmem⟩
    · rw [List.mem_cons, or_comm]
  · rw [hpeers.2, hmap, Distinct.eraseDups_concat, if_congr (h.peerSet peer) rfl rfl, h.peers]
  · rw [hsightings, if_congr hlength rfl rfl, h.sightings, List.take_append]
    split_ifs with hroom
    · rw [List.take_of_length_le (l := [PeerSighting.mk peer source])
        (by rw [List.length_singleton]; omega)]
    · rw [Nat.sub_eq_zero_of_le (not_lt.1 hroom), List.take_zero, List.append_nil]

theorem gathered_step (l : Lookup) : l.step.gathered = l.gathered := by
  rw [step]
  split_ifs <;> rfl

theorem gathered_addCandidate (l : Lookup) (id : NodeId) (endpoint : Endpoint) (hops : ℤ) :
    (l.addCandidate id endpoint hops).gathered = l.gathered := by
  rw [addCandidate]
  split
  next => rfl
  next l' h =>
    obtain ⟨-, rfl⟩ := withCandidate_eq_some h
    split_ifs
    · exact gathered_step _
    · rfl

theorem Gathers.collect (h : Gathers told l) (endpoint : Endpoint) (hops : ℤ) (reply : RpcReply) :
    Gathers (told ++ (Krpc.decodePeers (reply.message.body.listAt (ascii "values")) l.family).map
      (⟨·, endpoint⟩)) (l.collect crypto endpoint hops reply) := by
  have hpeers (peers : List Endpoint) : ∀ {told : List PeerSighting} {l : Lookup},
      Gathers told l →
      Gathers (told ++ peers.map (⟨·, endpoint⟩)) (peers.foldl (·.collectPeer endpoint ·) l) := by
    induction peers with
    | nil => exact fun h => by rwa [List.map_nil, List.append_nil]
    | cons peer peers ih =>
      intro told l h
      rw [List.map_cons, List.append_cons]
      exact ih (h.collectPeer endpoint peer)
  have hnodes (l : Lookup) (nodes : List Krpc.CompactNode) :
      (nodes.foldl (fun l node => l.addCandidate node.id node.endpoint hops) l).gathered =
        l.gathered := by
    induction nodes generalizing l with
    | nil => rfl
    | cons node nodes ih => exact (ih _).trans (gathered_addCandidate l ..)
  have hitem : ¬l.kind = .GetItem := by
    rw [h.kind]
    decide
  rw [Lookup.collect, if_neg hitem, if_pos h.kind]
  exact (hpeers _ h).of_eq (hnodes _ _)

/-! ## Runs -/

/-- What is reported is what was gathered. -/
structure PeersInv (told : List PeerSighting) (l : Lookup) : Prop where
  gathers : Gathers told l
  reports : ∀ result ∈ l.reports,
    l.finished = true ∧ result.peers = l.peers ∧ result.sightings = l.sightings

theorem PeersInv.of_eq (h : PeersInv told l) (heq : l'.gathered = l.gathered)
    (hreports : l'.reports = l.reports) (hfinished : l'.finished = l.finished) :
    PeersInv told l' := by
  refine ⟨h.gathers.of_eq heq, fun result hresult => ?_⟩
  simp only [gathered, Prod.mk.injEq] at heq
  obtain ⟨-, -, -, hpeers, hsightings⟩ := heq
  rw [hfinished, hpeers, hsightings]
  exact h.reports result (hreports ▸ hresult)

theorem PeersInv.step (h : PeersInv told l) : PeersInv told l.step :=
  h.of_eq (gathered_step l) (reports_step l).1 (reports_step l).2

theorem PeersInv.resume (h : PeersInv told l) (now : ℤ) : PeersInv told (l.resume now) := by
  rw [Lookup.resume]
  split
  next => exact h
  next =>
    split
    next => exact h.of_eq rfl rfl rfl
    next hfinished =>
      split
      next => exact h.of_eq rfl rfl rfl
      next =>
        dsimp only
        split
        next =>
          refine ⟨h.gathers.of_eq rfl, fun result hresult => ?_⟩
          rcases List.mem_append.1 hresult with hresult | hresult
          · exact absurd (h.reports result hresult).1 hfinished
          · obtain rfl := List.mem_singleton.1 hresult
            exact ⟨rfl, rfl, rfl⟩
        next => exact h.of_eq rfl rfl rfl

/-- A reply adds what it tells of, if it is waited for. -/
theorem PeersInv.reply (h : PeersInv told l) (endpoint : Endpoint) (reply : RpcReply) :
    PeersInv (told ++ l.sightingsOf (.reply endpoint reply)) (l.onReply crypto endpoint reply) := by
  rcases onReply_cases crypto l endpoint reply
    with ⟨hnone, hrest⟩ | ⟨hsome, -, hfinished, c, token, heq⟩
  · have hnothing : l.sightingsOf (.reply endpoint reply) = [] := by
      rw [sightingsOf, hnone]
      rfl
    rw [hnothing, List.append_nil]
    rcases hrest with heq | ⟨c, f, heq⟩
    · rwa [heq]
    · rw [heq]
      exact PeersInv.step (h.of_eq rfl rfl rfl)
  · have htold : l.sightingsOf (.reply endpoint reply) =
        (Krpc.decodePeers (reply.message.body.listAt (ascii "values")) l.family).map
          (⟨·, endpoint⟩) := by
      rw [sightingsOf, hsome]
      simp [Event.answers]
    -- Nothing has been reported yet, as the lookup is not finished.
    have hempty : l.reports = [] := by
      refine List.eq_nil_iff_forall_not_mem.2 fun result hresult => ?_
      rw [(h.reports result hresult).1] at hfinished
      exact Bool.noConfusion hfinished
    have hkeeps : Keeps l ((l.noteResponse endpoint c token).collect crypto endpoint
        (c.hops + 1) reply) :=
      (keeps_noteResponse l endpoint c token).trans (keeps_collect _ endpoint (c.hops + 1) reply)
    rw [htold, heq]
    refine PeersInv.step ⟨Gathers.collect (l := l.noteResponse endpoint c token)
      (h.gathers.of_eq rfl) endpoint (c.hops + 1) reply, fun result hresult => ?_⟩
    rw [hkeeps.reports, hempty] at hresult
    exact absurd hresult List.not_mem_nil

theorem PeersInv.apply (h : PeersInv told l) (e : Event) :
    PeersInv (told ++ l.sightingsOf e) (l.apply crypto e) := by
  cases e with
  | reply endpoint reply => exact h.reply endpoint reply
  | addCandidate id endpoint =>
    rw [show l.sightingsOf (.addCandidate id endpoint) = [] from rfl, List.append_nil, Lookup.apply,
      addCandidate]
    split
    next => exact h
    next l' hadded =>
      obtain ⟨-, rfl⟩ := withCandidate_eq_some hadded
      split_ifs
      · exact PeersInv.step (h.of_eq rfl rfl rfl)
      · exact h.of_eq rfl rfl rfl
  | start now =>
    rw [show l.sightingsOf (.start now) = [] from rfl, List.append_nil]
    exact PeersInv.step (h.of_eq rfl rfl rfl)
  | resume now =>
    rw [show l.sightingsOf (.resume now) = [] from rfl, List.append_nil]
    exact h.resume now
  | sent endpoint now =>
    rw [show l.sightingsOf (.sent endpoint now) = [] from rfl, List.append_nil]
    exact h.of_eq rfl rfl rfl
  | checkSlow now =>
    rw [show l.sightingsOf (.checkSlow now) = [] from rfl, List.append_nil, Lookup.apply, checkSlow]
    split_ifs
    · exact h
    · exact PeersInv.step (h.of_eq rfl rfl rfl)
    · exact h.of_eq rfl rfl rfl

theorem PeersInv.run {events : List Event} (h : PeersInv told l) :
    PeersInv (told ++ sightedIn crypto l events) (l.run crypto events) := by
  induction events generalizing l told with
  | nil => rwa [sightedIn, List.append_nil]
  | cons e events ih =>
    rw [sightedIn, ← List.append_assoc]
    exact ih (h.apply e)

theorem peersInv_new (target : NodeId) (family : Family) (self : NodeId) (allowLocal : Bool)
    (salt : Bytes) (slowAfterMs queryTimeoutMs : ℤ) :
    PeersInv [] (((new .GetPeers target family self allowLocal).setSalt salt).setTimeouts
      slowAfterMs queryTimeoutMs) :=
  ⟨⟨rfl, fun _ => Iff.rfl, rfl, rfl⟩, fun _ h => absurd h List.not_mem_nil⟩

end Dht.Lookup
