import DhtCore.Storage
import DhtCore.RoutingTable.Structure

/-!
# The peers that were announced

The number of peers is counted as they come and go, and what is dropped to make room is chosen
by the time of the latest announcement. Whatever is announced and expires (`Reachable`), the
number is right, and so is that time (`Sound`); room is made only if there is none, and only by
what was announced the longest ago (`Dropped`).

A hash is gone through in any order: its entries may be reordered at any time (`Reordered`).
-/

namespace Dht

open List Replacing

variable {s s' : PeerStorage} {e e' : PeerEntry} {last now : ℤ} {infohash : NodeId}
  {peer : Endpoint}

/-- The peers of an infohash are as they should be, when nothing was announced after `last`. -/
structure PeerEntry.Sound (e : PeerEntry) (last : ℤ) : Prop where
  nonempty : e.peers.entries ≠ []
  length_le : e.peers.entries.length ≤ PeerStorage.MaxPeersPerInfohash
  le_lastAnnounce : ∀ p ∈ e.peers.entries, p.2 ≤ e.lastAnnounce
  exists_lastAnnounce : ∃ p ∈ e.peers.entries, p.2 = e.lastAnnounce
  lastAnnounce_le : e.lastAnnounce ≤ last

theorem PeerEntry.Sound.mono (h : e.Sound last) (hle : last ≤ now) : e.Sound now :=
  { h with lastAnnounce_le := h.lastAnnounce_le.trans hle }

/-- The same peers, in another order. -/
structure PeerEntry.Reordered (e e' : PeerEntry) : Prop where
  peers : e.peers.entries ~ e'.peers.entries
  lastAnnounce : e.lastAnnounce = e'.lastAnnounce

namespace PeerStorage

/-- The number of peers there are. -/
def total (entries : AList fun _ : NodeId => PeerEntry) : ℤ :=
  (entries.entries.map fun e => (e.2.peers.entries.length : ℤ)).sum

/-- When a peer was last announced for an infohash. -/
def announcedAt (s : PeerStorage) (x : NodeId × Endpoint) : Option ℤ :=
  (s.entries.lookup x.1).bind fun entry => entry.peers.lookup x.2

/-- The peers are counted, and there are no more than there is room for. -/
structure Sound (s : PeerStorage) (last : ℤ) : Prop where
  peerCount : s.peerCount = total s.entries
  length_le : s.entries.entries.length ≤ MaxInfohashes
  entry : ∀ e ∈ s.entries.entries, e.2.Sound last

/-- The same infohashes with the same peers, in another order. -/
structure Reordered (s s' : PeerStorage) : Prop where
  entries : ∃ l, s.entries.entries ~ l ∧
    Forall₂ (fun a b => a.1 = b.1 ∧ a.2.Reordered b.2) l s'.entries.entries
  peerCount : s'.peerCount = s.peerCount

/-- What may come to be stored when peers are announced in time, the last of them at `last`. -/
inductive Reachable : ℤ → PeerStorage → Prop
  | empty (last : ℤ) : Reachable last {}
  | announce {last now : ℤ} {s : PeerStorage} (h : Reachable last s) (hle : last ≤ now)
      (infohash : NodeId) (peer : Endpoint) : Reachable now (s.announce infohash peer now)
  | expire {last : ℤ} {s : PeerStorage} (h : Reachable last s) (now : ℤ) :
      Reachable last (s.expire now)
  | clear {last : ℤ} {s : PeerStorage} (h : Reachable last s) : Reachable last s.clear
  | reorder {last : ℤ} {s s' : PeerStorage} (h : Reachable last s) (hreordered : Reordered s s') :
      Reachable last s'

/-- What is dropped to make room for a peer of an infohash. -/
inductive Dropped (s : PeerStorage) (infohash : NodeId) (peer : Endpoint) :
    Set (NodeId × Endpoint) → Prop
  | nothing : Dropped s infohash peer ∅
  /-- The peer that was not refreshed for the longest time, if the infohash is full. -/
  | peer (entry : PeerEntry) (oldest : Endpoint) (time : ℤ)
      (hentry : s.entries.lookup infohash = some entry) (hnew : peer ∉ entry.peers)
      (hfull : entry.peers.entries.length = MaxPeersPerInfohash)
      (holdest : entry.peers.lookup oldest = some time)
      (hle : ∀ p ∈ entry.peers.entries, time ≤ p.2) : Dropped s infohash peer {(infohash, oldest)}
  /-- The infohash that was not announced for the longest time, if there are too many. -/
  | infohash (oldest : NodeId) (entry : PeerEntry) (hnew : infohash ∉ s.entries)
      (hfull : s.entries.entries.length = MaxInfohashes)
      (holdest : s.entries.lookup oldest = some entry)
      (hle : ∀ e ∈ s.entries.entries, entry.lastAnnounce ≤ e.2.lastAnnounce) :
      Dropped s infohash peer {x | x.1 = oldest}

/-! ## The oldest -/

/-- Of what is not empty, some element that no other one is less than is found. -/
theorem exists_firstBest {α : Type} (key : α → ℤ) {l : List α} (hne : l ≠ []) :
    ∃ x ∈ l, (RoutingTable.firstBest (fun a b => key a < key b) l).bind (l[·]?) = some x ∧
      ∀ y ∈ l, key x ≤ key y := by
  -- The best element so far is at its index, in what the loop has gone through.
  have hfrom : ∀ (l done : List α) (best : ℕ) (b : α), done[best]? = some b →
      (∀ y ∈ done, key b ≤ key y) → ∃ x,
        (done ++ l)[RoutingTable.firstBestFrom (fun a b => key a < key b) done.length best b l]? =
          some x ∧ ∀ y ∈ done ++ l, key x ≤ key y := by
    intro l
    induction l with
    | nil =>
      intro done best b hbest hle
      rw [append_nil]
      exact ⟨b, hbest, hle⟩
    | cons a l ih =>
      intro done best b hbest hle
      rw [RoutingTable.firstBestFrom, ← concat_append,
        show done.length + 1 = (done.concat a).length from length_concat.symm]
      split_ifs with hlt
      · refine ih _ _ _ (by simp) fun y hy => ?_
        simp only [concat_eq_append, mem_append, mem_singleton] at hy
        rcases hy with hy | rfl
        · exact (of_decide_eq_true hlt).le.trans (hle y hy)
        · exact le_rfl
      · refine ih _ _ _ ?_ fun y hy => ?_
        · rw [concat_eq_append, getElem?_append_left (List.getElem?_eq_some_iff.1 hbest).1, hbest]
        · simp only [concat_eq_append, mem_append, mem_singleton] at hy
          rcases hy with hy | rfl
          · exact hle y hy
          · simpa using hlt
  obtain _ | ⟨a, l⟩ := l
  · exact absurd rfl hne
  · obtain ⟨x, hx, hle⟩ := hfrom l [a] 0 a rfl (by simp)
    exact ⟨x, mem_of_getElem? hx, hx, hle⟩

/-! ## Making room -/

theorem total_erase {entry : PeerEntry} {entries : AList fun _ : NodeId => PeerEntry}
    (h : entries.lookup infohash = some entry) :
    total (entries.erase infohash) = total entries - entry.peers.entries.length := by
  rw [total, total, ((entries_perm_of_lookup h).map _).sum_eq, map_cons, sum_cons]
  ring

theorem total_insert (entries : AList fun _ : NodeId => PeerEntry) (entry : PeerEntry) :
    total (entries.insert infohash entry) =
      total entries + entry.peers.entries.length -
        ((entries.lookup infohash).getD {}).peers.entries.length := by
  have hinsert : total (entries.insert infohash entry) =
      entry.peers.entries.length + total (entries.erase infohash) := by
    rw [total, entries_insert_erase, map_cons, sum_cons, total]
  rw [hinsert]
  cases hlookup : entries.lookup infohash with
  | none =>
    rw [total, entries_erase_of_lookup_eq_none hlookup, ← total]
    simp [add_comm]
  | some old =>
    rw [total_erase hlookup, Option.getD_some]
    ring

theorem makeRoom_cases (h : Sound s last) :
    s.entries.entries.length < MaxInfohashes ∧ s.makeRoom = s ∨
      ∃ oldest entry, s.entries.entries.length = MaxInfohashes ∧
        s.entries.lookup oldest = some entry ∧
        (∀ e ∈ s.entries.entries, entry.lastAnnounce ≤ e.2.lastAnnounce) ∧
        s.makeRoom =
          { entries := s.entries.erase oldest
            peerCount := s.peerCount - entry.peers.entries.length } := by
  rw [makeRoom]
  split_ifs with hfull
  · have hne : s.entries.entries ≠ [] := fun hnil => by
      rw [hnil] at hfull
      exact absurd hfull (by decide)
    obtain ⟨⟨oldest, entry⟩, hmem, hfirst, hle⟩ :=
      exists_firstBest (fun e : (Σ _ : NodeId, PeerEntry) => e.2.lastAnnounce) hne
    rw [makeRoom.firstBestEntry, hfirst]
    exact .inr ⟨oldest, entry, le_antisymm h.length_le hfull, lookup_eq_some_iff.2 hmem, hle, rfl⟩
  · exact .inl ⟨not_le.1 hfull, rfl⟩

theorem makeRoomFor_cases {peers : AList fun _ : Endpoint => ℤ}
    (h : peers.entries.length ≤ MaxPeersPerInfohash) (peerCount : ℤ) :
    peers.entries.length < MaxPeersPerInfohash ∧ makeRoomFor peers peerCount = (peers, peerCount) ∨
      ∃ oldest time, peers.entries.length = MaxPeersPerInfohash ∧
        peers.lookup oldest = some time ∧ (∀ p ∈ peers.entries, time ≤ p.2) ∧
        makeRoomFor peers peerCount = (peers.erase oldest, peerCount - 1) := by
  rw [makeRoomFor]
  split_ifs with hfull
  · have hne : peers.entries ≠ [] := fun hnil => by
      rw [hnil] at hfull
      exact absurd hfull (by decide)
    obtain ⟨⟨oldest, time⟩, hmem, hfirst, hle⟩ :=
      exists_firstBest (fun p : (Σ _ : Endpoint, ℤ) => p.2) hne
    rw [hfirst]
    exact .inr ⟨oldest, time, le_antisymm h hfull, lookup_eq_some_iff.2 hmem, hle, rfl⟩
  · exact .inl ⟨not_le.1 hfull, rfl⟩

theorem mem_of_mem_erase {α β : Type} [DecidableEq α] {l : AList fun _ : α => β} {a : α}
    {p : Σ _ : α, β} (h : p ∈ (l.erase a).entries) : p ∈ l.entries :=
  lookup_eq_some_iff.1 (lookup_of_lookup_erase (lookup_eq_some_iff.2 h))

theorem mem_of_mem_insert {α β : Type} [DecidableEq α] {l : AList fun _ : α => β} {a : α} {b : β}
    {p : Σ _ : α, β} (h : p ∈ (l.insert a b).entries) : p = ⟨a, b⟩ ∨ p ∈ l.entries := by
  rw [entries_insert_erase, mem_cons] at h
  exact h.imp_right mem_of_mem_erase

/-! ## Announcing -/

section addPeer

variable {peers : AList fun _ : Endpoint => ℤ} {peerCount : ℤ}

/-- A peer is refreshed, or it is new and there is room for it or some is made. -/
theorem addPeer_cases (h : peers.entries.length ≤ MaxPeersPerInfohash) (peerCount : ℤ)
    (peer : Endpoint) (now : ℤ) :
    peer ∈ peers ∧ addPeer peers peerCount peer now = (peers.insert peer now, peerCount) ∨
      peer ∉ peers ∧ peers.entries.length < MaxPeersPerInfohash ∧
        addPeer peers peerCount peer now = (peers.insert peer now, peerCount + 1) ∨
      ∃ oldest time, peer ∉ peers ∧ peers.entries.length = MaxPeersPerInfohash ∧
        peers.lookup oldest = some time ∧ (∀ p ∈ peers.entries, time ≤ p.2) ∧
        addPeer peers peerCount peer now = ((peers.erase oldest).insert peer now, peerCount) := by
  rw [addPeer]
  split_ifs with hmem
  · exact .inl ⟨hmem, rfl⟩
  · obtain ⟨hlt, hroom⟩ | ⟨oldest, time, hfull, holdest, hle, hroom⟩ :=
      makeRoomFor_cases h peerCount
    · rw [hroom]
      exact .inr (.inl ⟨hmem, hlt, rfl⟩)
    · rw [hroom]
      exact .inr (.inr ⟨oldest, time, hmem, hfull, holdest, hle,
        Prod.ext rfl (sub_add_cancel peerCount 1)⟩)

/-- The number of peers is counted. -/
theorem addPeer_count (h : peers.entries.length ≤ MaxPeersPerInfohash) :
    (addPeer peers peerCount peer now).1.entries.length ≤ MaxPeersPerInfohash ∧
      (addPeer peers peerCount peer now).2 =
        peerCount + (addPeer peers peerCount peer now).1.entries.length - peers.entries.length := by
  obtain ⟨hmem, heq⟩ | ⟨hmem, hlt, heq⟩ | ⟨oldest, time, hmem, hfull, holdest, -, heq⟩ :=
    addPeer_cases h peerCount peer now
  · rw [heq, Replacing.length_insert, if_pos hmem]
    exact ⟨h, (add_sub_cancel_right _ _).symm⟩
  · rw [heq, Replacing.length_insert, if_neg hmem]
    refine ⟨hlt, ?_⟩
    push_cast
    ring
  · have hnot : peer ∉ peers.erase oldest := fun h => hmem (AList.mem_erase.1 h).2
    have herase := length_erase (AList.lookup_isSome.1 (Option.isSome_of_eq_some holdest))
    rw [heq, Replacing.length_insert, if_neg hnot, herase]
    exact ⟨h, (add_sub_cancel_right _ _).symm⟩

theorem mem_addPeer (h : peers.entries.length ≤ MaxPeersPerInfohash) {p : Σ _ : Endpoint, ℤ}
    (hp : p ∈ (addPeer peers peerCount peer now).1.entries) :
    p = ⟨peer, now⟩ ∨ p ∈ peers.entries := by
  obtain ⟨-, heq⟩ | ⟨-, -, heq⟩ | ⟨oldest, time, -, -, -, -, heq⟩ :=
    addPeer_cases h peerCount peer now
  · rw [heq] at hp
    exact mem_of_mem_insert hp
  · rw [heq] at hp
    exact mem_of_mem_insert hp
  · rw [heq] at hp
    exact (mem_of_mem_insert hp).imp_right mem_of_mem_erase

theorem lookup_addPeer (h : peers.entries.length ≤ MaxPeersPerInfohash) :
    (addPeer peers peerCount peer now).1.lookup peer = some now := by
  obtain ⟨-, heq⟩ | ⟨-, -, heq⟩ | ⟨oldest, time, -, -, -, -, heq⟩ :=
    addPeer_cases h peerCount peer now
  all_goals
    rw [heq]
    exact AList.lookup_insert _

theorem sound_addPeer (h : peers.entries.length ≤ MaxPeersPerInfohash)
    (hle : ∀ p ∈ peers.entries, p.2 ≤ now) :
    PeerEntry.Sound { peers := (addPeer peers peerCount peer now).1, lastAnnounce := now } now := by
  have hlookup : (addPeer peers peerCount peer now).1.lookup peer = some now := lookup_addPeer h
  have hmem := lookup_eq_some_iff.1 hlookup
  refine ⟨ne_nil_of_mem hmem, (addPeer_count h).1, fun p hp => ?_, ⟨_, hmem, rfl⟩, le_rfl⟩
  rcases mem_addPeer h hp with rfl | hp
  · exact le_rfl
  · exact hle p hp

end addPeer

/-- The storage after room was made for an infohash, if it is a new one. -/
def roomFor (s : PeerStorage) (infohash : NodeId) : PeerStorage :=
  if infohash ∈ s.entries then s else s.makeRoom

/-- The peers of an infohash, none if it is a new one. -/
def peersOf (s : PeerStorage) (infohash : NodeId) : AList fun _ : Endpoint => ℤ :=
  ((s.entries.lookup infohash).getD {}).peers

theorem announce_eq (s : PeerStorage) (infohash : NodeId) (peer : Endpoint) (now : ℤ) :
    s.announce infohash peer now =
      let room := s.roomFor infohash
      let added := addPeer (room.peersOf infohash) room.peerCount peer now
      { entries := room.entries.insert infohash { peers := added.1, lastAnnounce := now }
        peerCount := added.2 } :=
  rfl

theorem Sound.roomFor (h : Sound s last) (infohash : NodeId) :
    Sound (s.roomFor infohash) last ∧
      (infohash ∉ (s.roomFor infohash).entries →
        (s.roomFor infohash).entries.entries.length < MaxInfohashes) := by
  rw [PeerStorage.roomFor]
  split_ifs with hmem
  · exact ⟨h, fun hnot => absurd hmem hnot⟩
  obtain ⟨hlt, heq⟩ | ⟨oldest, entry, hfull, holdest, -, heq⟩ := makeRoom_cases h
  · rw [heq]
    exact ⟨h, fun _ => hlt⟩
  · have herase := length_erase (AList.lookup_isSome.1 (Option.isSome_of_eq_some holdest))
    rw [heq]
    refine ⟨⟨?_, ?_, fun e he => h.entry e (mem_of_mem_erase he)⟩, fun _ => ?_⟩
    · rw [total_erase holdest, h.peerCount]
    · exact (Nat.le_succ _).trans (herase.le.trans hfull.le)
    · exact Nat.lt_of_succ_le (herase.le.trans hfull.le)

theorem Sound.peersOf (h : Sound s last) (infohash : NodeId) :
    (s.peersOf infohash).entries.length ≤ MaxPeersPerInfohash ∧
      ∀ p ∈ (s.peersOf infohash).entries, p.2 ≤ last := by
  rw [PeerStorage.peersOf]
  cases hlookup : s.entries.lookup infohash with
  | none => exact ⟨Nat.zero_le _, fun p hp => absurd hp not_mem_nil⟩
  | some entry =>
    have hentry := h.entry _ (lookup_eq_some_iff.1 hlookup)
    exact ⟨hentry.length_le, fun p hp =>
      (hentry.le_lastAnnounce p hp).trans hentry.lastAnnounce_le⟩

theorem Sound.announce (h : Sound s last) (hle : last ≤ now) :
    Sound (s.announce infohash peer now) now := by
  obtain ⟨hroom, hlt⟩ := h.roomFor infohash
  obtain ⟨hlength, hpast⟩ := hroom.peersOf infohash
  rw [announce_eq]
  refine ⟨?_, ?_, fun e he => ?_⟩
  · dsimp only
    rw [total_insert, (addPeer_count hlength).2, hroom.peerCount, PeerStorage.peersOf]
  · dsimp only
    rw [Replacing.length_insert]
    split_ifs with hmem
    · exact hroom.length_le
    · exact hlt hmem
  · rcases mem_of_mem_insert he with rfl | he
    · exact sound_addPeer hlength fun p hp => (hpast p hp).trans hle
    · exact (hroom.entry e he).mono hle

theorem lookup_peersOf (s : PeerStorage) (infohash : NodeId) (peer : Endpoint) :
    (s.peersOf infohash).lookup peer = s.announcedAt (infohash, peer) := by
  rw [peersOf, announcedAt]
  cases s.entries.lookup infohash <;> rfl

/-- The peers of the infohash announced are those that `addPeer` leaves. -/
theorem announcedAt_announce_same (s : PeerStorage) (infohash : NodeId) (peer peer' : Endpoint)
    (now : ℤ) : (s.announce infohash peer now).announcedAt (infohash, peer') =
      (addPeer ((s.roomFor infohash).peersOf infohash) (s.roomFor infohash).peerCount
        peer now).1.lookup peer' := by
  rw [announce_eq, announcedAt, AList.lookup_insert]
  rfl

/-- For the others, an announce only makes room. -/
theorem announcedAt_announce_other (s : PeerStorage) (infohash : NodeId) (peer : Endpoint) (now : ℤ)
    {x : NodeId × Endpoint} (hne : x.1 ≠ infohash) :
    (s.announce infohash peer now).announcedAt x = (s.roomFor infohash).announcedAt x := by
  rw [announce_eq, announcedAt, AList.lookup_insert_ne hne]
  rfl

theorem announcedAt_announce_of_kept (s : PeerStorage) (infohash : NodeId) (peer : Endpoint)
    (now : ℤ) (hkept : ∀ peer' ≠ peer,
      (addPeer ((s.roomFor infohash).peersOf infohash) (s.roomFor infohash).peerCount
        peer now).1.lookup peer' = ((s.roomFor infohash).peersOf infohash).lookup peer')
    {x : NodeId × Endpoint} (hx : x ≠ (infohash, peer)) :
    (s.announce infohash peer now).announcedAt x = (s.roomFor infohash).announcedAt x := by
  obtain ⟨infohash', peer'⟩ := x
  by_cases hne : infohash' = infohash
  · subst hne
    rw [announcedAt_announce_same, hkept peer' fun heq => hx (by rw [heq]), lookup_peersOf]
  · exact announcedAt_announce_other s infohash peer now hne

/-- An infohash that is stored loses a peer at most. -/
theorem announcedAt_announce_known (h : Sound s last) (hmem : infohash ∈ s.entries)
    (peer : Endpoint) (now : ℤ) :
    ∃ dropped, Dropped s infohash peer dropped ∧
      (∀ x ∈ dropped, (s.announce infohash peer now).announcedAt x = none) ∧
      ∀ x ∉ dropped, x ≠ (infohash, peer) →
        (s.announce infohash peer now).announcedAt x = s.announcedAt x := by
  have hroom : s.roomFor infohash = s := if_pos hmem
  obtain ⟨entry, hentry⟩ := Option.isSome_iff_exists.1 (AList.lookup_isSome.2 hmem)
  have hpeers : s.peersOf infohash = entry.peers := by rw [peersOf, hentry, Option.getD_some]
  have hsame (peer' : Endpoint) := announcedAt_announce_same s infohash peer peer' now
  have hother (x : NodeId × Endpoint) := announcedAt_announce_other s infohash peer now (x := x)
  have hkept := announcedAt_announce_of_kept s infohash peer now
  simp only [hroom] at hsame hother hkept
  obtain ⟨-, heq⟩ | ⟨-, -, heq⟩ | ⟨oldest, time, hnew, hfull, holdest, hle, heq⟩ :=
    addPeer_cases (h.peersOf infohash).1 s.peerCount peer now
  · refine ⟨∅, .nothing, fun x hx => absurd hx (Set.notMem_empty x), fun x _ hx => hkept ?_ hx⟩
    intro peer' hne
    rw [heq, AList.lookup_insert_ne hne]
  · refine ⟨∅, .nothing, fun x hx => absurd hx (Set.notMem_empty x), fun x _ hx => hkept ?_ hx⟩
    intro peer' hne
    rw [heq, AList.lookup_insert_ne hne]
  · rw [hpeers] at hnew hfull holdest hle heq
    have hne : oldest ≠ peer := fun heq =>
      hnew (AList.lookup_isSome.1 (Option.isSome_of_eq_some (heq ▸ holdest)))
    refine ⟨_, .peer entry oldest time hentry hnew hfull holdest hle, ?_, ?_⟩
    · rintro x rfl
      rw [hsame, hpeers, heq, AList.lookup_insert_ne hne, AList.lookup_erase]
    · rintro ⟨infohash', peer'⟩ hx hx'
      by_cases hinfohash : infohash' = infohash
      · subst hinfohash
        rw [hsame, hpeers, heq, AList.lookup_insert_ne fun heq => hx' (by rw [heq]),
          AList.lookup_erase_ne fun heq => hx (by rw [heq]; rfl), ← hpeers, lookup_peersOf]
      · exact hother _ hinfohash

/-- For a new infohash another one goes at most. -/
theorem announcedAt_announce_new (h : Sound s last) (hmem : infohash ∉ s.entries)
    (peer : Endpoint) (now : ℤ) :
    ∃ dropped, Dropped s infohash peer dropped ∧
      (∀ x ∈ dropped, (s.announce infohash peer now).announcedAt x = none) ∧
      ∀ x ∉ dropped, x ≠ (infohash, peer) →
        (s.announce infohash peer now).announcedAt x = s.announcedAt x := by
  have hroom : s.roomFor infohash = s.makeRoom := if_neg hmem
  have hkept (hnot : infohash ∉ (s.roomFor infohash).entries) {x : NodeId × Endpoint}
      (hx : x ≠ (infohash, peer)) : (s.announce infohash peer now).announcedAt x =
        (s.roomFor infohash).announcedAt x := by
    refine announcedAt_announce_of_kept s infohash peer now (fun peer' hne => ?_) hx
    have hempty : (s.roomFor infohash).peersOf infohash = ∅ := by
      rw [peersOf, AList.lookup_eq_none.2 hnot]
      rfl
    have hadd : addPeer ∅ (s.roomFor infohash).peerCount peer now =
        (AList.insert peer now ∅, (s.roomFor infohash).peerCount + 1) := rfl
    rw [hempty, hadd, AList.lookup_insert_ne hne]
  obtain ⟨-, heq⟩ | ⟨oldest, entry, hfull, holdest, hle, heq⟩ := makeRoom_cases h
  · rw [heq] at hroom
    refine ⟨∅, .nothing, fun x hx => absurd hx (Set.notMem_empty x), fun x _ hx => ?_⟩
    rw [hkept (by rwa [hroom]) hx, hroom]
  · rw [heq] at hroom
    have hnot : infohash ∉ (s.roomFor infohash).entries := fun hin => by
      rw [hroom] at hin
      exact hmem (AList.mem_erase.1 hin).2
    have hold : oldest ≠ infohash := fun heq => by
      rw [heq, AList.lookup_eq_none.2 hmem] at holdest
      cases holdest
    refine ⟨_, .infohash oldest entry hmem hfull holdest hle, fun x hx => ?_, fun x hx hne => ?_⟩
    · rw [announcedAt_announce_other s infohash peer now (hx.trans_ne hold), hroom, announcedAt,
        show x.1 = oldest from hx, AList.lookup_erase]
      rfl
    · rw [hkept hnot hne, hroom, announcedAt, AList.lookup_erase_ne hx]
      rfl

/-- The announced peer is there, and the others are those that room has been made for. -/
theorem announcedAt_announce (h : Sound s last) (infohash : NodeId) (peer : Endpoint) (now : ℤ) :
    (s.announce infohash peer now).announcedAt (infohash, peer) = some now ∧
      ∃ dropped, Dropped s infohash peer dropped ∧
        (∀ x ∈ dropped, (s.announce infohash peer now).announcedAt x = none) ∧
        ∀ x ∉ dropped, x ≠ (infohash, peer) →
          (s.announce infohash peer now).announcedAt x = s.announcedAt x := by
  refine ⟨?_, ?_⟩
  · rw [announcedAt_announce_same]
    exact lookup_addPeer ((h.roomFor infohash).1.peersOf infohash).1
  · by_cases hmem : infohash ∈ s.entries
    · exact announcedAt_announce_known h hmem peer now
    · exact announcedAt_announce_new h hmem peer now

/-! ## Expiring -/

theorem entries_toAList_of_nodup {α β : Type} [DecidableEq α] {l : List (Σ _ : α, β)}
    (h : l.NodupKeys) : l.toAList.entries = l := by
  rw [AList.entries_toAList]
  induction l with
  | nil => rfl
  | cons x l ih =>
    obtain ⟨hx, hl⟩ := nodupKeys_cons.1 h
    rw [dedupKeys_cons, ih hl, kinsert_def, kerase_of_notMem_keys hx]

/-- What is left are the infohashes that have peers left. -/
theorem entries_expire (s : PeerStorage) (now : ℤ) :
    (s.expire now).entries.entries =
      (s.entries.entries.map fun e =>
        (⟨e.1, stillAnnounced now e.2⟩ : Σ _ : NodeId, PeerEntry)).filter
          fun e => !e.2.peers.entries.isEmpty := by
  refine entries_toAList_of_nodup (NodupKeys.sublist filter_sublist ?_)
  have hkeys := s.entries.nodupKeys
  rw [NodupKeys, keys] at hkeys ⊢
  rwa [map_map]

theorem lookup_expire (s : PeerStorage) (now : ℤ) (infohash : NodeId) :
    (s.expire now).entries.lookup infohash =
      ((s.entries.lookup infohash).map (stillAnnounced now)).filter
        fun entry => !entry.peers.entries.isEmpty := by
  ext entry
  rw [Option.filter_eq_some_iff, Option.map_eq_some_iff, Replacing.lookup_eq_some_iff,
    entries_expire, mem_filter, mem_map]
  refine and_congr_left' ⟨?_, ?_⟩
  · rintro ⟨e, he, heq⟩
    cases heq
    exact ⟨e.2, Replacing.lookup_eq_some_iff.2 he, rfl⟩
  · rintro ⟨old, hold, rfl⟩
    exact ⟨_, Replacing.lookup_eq_some_iff.1 hold, rfl⟩

/-- Exactly the peers that were not announced again in time are dropped. -/
theorem announcedAt_expire (s : PeerStorage) (now : ℤ) (x : NodeId × Endpoint) :
    (s.expire now).announcedAt x = (s.announcedAt x).filter fun time => now - time < PeerTtlMs := by
  rw [announcedAt, announcedAt, lookup_expire]
  cases s.entries.lookup x.1 with
  | none => rfl
  | some old =>
    have hold : (stillAnnounced now old).peers.lookup x.2 =
        (old.peers.lookup x.2).filter fun time => now - time < PeerTtlMs := by
      rw [stillAnnounced, lookup_retain]
      simp only [not_le, ge_iff_le]
    rw [Option.map_some, Option.bind_some, ← hold, Option.filter_some]
    split_ifs with hne
    · rfl
    · have hnil : (stillAnnounced now old).peers.entries = [] := by simpa using hne
      refine (AList.lookup_eq_none.2 fun hmem : x.2 ∈ (stillAnnounced now old).peers => ?_).symm
      rw [AList.mem_keys, AList.keys, hnil] at hmem
      exact absurd hmem not_mem_nil

theorem length_stillAnnounced (now : ℤ) (e : PeerEntry) :
    ((stillAnnounced now e).peers.entries.length : ℤ) =
      e.peers.entries.length - countExpired now e := by
  have hleft : (stillAnnounced now e).peers.entries.length =
      e.peers.entries.countP fun p => ¬decide (now - p.2 ≥ PeerTtlMs) := by
    rw [stillAnnounced, retain, countP_eq_length_filter]
    simp only [decide_eq_true_eq]
  rw [countExpired, hleft,
    length_eq_countP_add_countP fun p : (Σ _ : Endpoint, ℤ) => decide (now - p.2 ≥ PeerTtlMs)]
  push_cast
  ring

end PeerStorage

/-- The latest time stays the latest, for what is announced then expires last. -/
theorem PeerEntry.Sound.stillAnnounced (h : e.Sound last)
    (hne : (PeerStorage.stillAnnounced now e).peers.entries ≠ []) :
    (PeerStorage.stillAnnounced now e).Sound last := by
  have hsub : ∀ p ∈ (PeerStorage.stillAnnounced now e).peers.entries,
      p ∈ e.peers.entries ∧ now - p.2 < PeerStorage.PeerTtlMs := fun p hp => by
    obtain ⟨hmem, hkept⟩ := mem_filter.1 hp
    exact ⟨hmem, not_le.1 (of_decide_eq_true hkept)⟩
  refine ⟨hne, length_filter_le _ _ |>.trans h.length_le, fun p hp =>
    h.le_lastAnnounce p (hsub p hp).1, ?_, h.lastAnnounce_le⟩
  obtain ⟨p, hp⟩ := exists_mem_of_ne_nil _ hne
  obtain ⟨q, hq, heq⟩ := h.exists_lastAnnounce
  have hle := h.le_lastAnnounce p (hsub p hp).1
  have hlt := (hsub p hp).2
  refine ⟨q, mem_filter.2 ⟨hq, decide_eq_true (not_le.2 ?_)⟩, heq⟩
  omega

theorem PeerEntry.Sound.reorder (h : e.Sound last) (hreordered : e.Reordered e') :
    e'.Sound last := by
  have hmem : ∀ p, p ∈ e'.peers.entries ↔ p ∈ e.peers.entries := fun p =>
    hreordered.peers.mem_iff.symm
  obtain ⟨p, hp, heq⟩ := h.exists_lastAnnounce
  refine ⟨fun hnil => h.nonempty ?_, hreordered.peers.length_eq.symm.le.trans h.length_le,
    fun p hp => ?_, ⟨p, (hmem p).2 hp, heq.trans hreordered.lastAnnounce⟩,
    hreordered.lastAnnounce ▸ h.lastAnnounce_le⟩
  · exact (hnil ▸ hreordered.peers).eq_nil
  · rw [← hreordered.lastAnnounce]
    exact h.le_lastAnnounce p ((hmem p).1 hp)

namespace PeerStorage

theorem sum_length_expire (now : ℤ) (l : List (Σ _ : NodeId, PeerEntry)) :
    (((l.map fun e => (⟨e.1, stillAnnounced now e.2⟩ : Σ _ : NodeId, PeerEntry)).filter
        fun e => !e.2.peers.entries.isEmpty).map fun e => (e.2.peers.entries.length : ℤ)).sum =
      (l.map fun e => (e.2.peers.entries.length : ℤ)).sum -
        (l.map fun e => countExpired now e.2).sum := by
  induction l with
  | nil => rfl
  | cons a l ih =>
    have ha := length_stillAnnounced now a.2
    rw [map_cons, map_cons, map_cons, sum_cons, sum_cons, filter_cons]
    split_ifs with hne
    · rw [map_cons, sum_cons, ih]
      dsimp only
      omega
    · have hnil : (stillAnnounced now a.2).peers.entries = [] := by simpa using hne
      rw [hnil, length_nil] at ha
      rw [ih]
      omega

theorem Sound.expire (h : Sound s last) (now : ℤ) : Sound (s.expire now) last := by
  refine ⟨?_, ?_, fun e he => ?_⟩
  · rw [total, entries_expire, sum_length_expire, ← total, ← h.peerCount]
    rfl
  · rw [entries_expire]
    exact (length_filter_le _ _).trans (length_map _ |>.le.trans h.length_le)
  · rw [entries_expire, mem_filter, mem_map] at he
    obtain ⟨⟨old, hold, rfl⟩, hne⟩ := he
    exact (h.entry old hold).stillAnnounced fun hnil => by simp [hnil] at hne

theorem Sound.reorder (h : Sound s last) (hreordered : Reordered s s') : Sound s' last := by
  obtain ⟨⟨l, hperm, hsame⟩, hcount⟩ := hreordered
  have hsound : ∀ e ∈ l, e.2.Sound last := fun e he => h.entry e (hperm.mem_iff.2 he)
  have hboth : (l.map fun e => (e.2.peers.entries.length : ℤ)) =
      (s'.entries.entries.map fun e => (e.2.peers.entries.length : ℤ)) ∧
        ∀ e ∈ s'.entries.entries, e.2.Sound last := by
    clear hperm hcount
    generalize s'.entries.entries = l' at hsame
    induction hsame with
    | nil => exact ⟨rfl, fun e he => absurd he not_mem_nil⟩
    | @cons a b l l' hab _ ih =>
      obtain ⟨hlengths, hentries⟩ := ih fun e he => hsound e (mem_cons_of_mem _ he)
      refine ⟨?_, forall_mem_cons.2 ⟨(hsound a mem_cons_self).reorder hab.2, hentries⟩⟩
      rw [map_cons, map_cons, hlengths, hab.2.peers.length_eq]
  refine ⟨?_, ?_, hboth.2⟩
  · rw [hcount, h.peerCount, total, total, (hperm.map _).sum_eq, hboth.1]
  · rw [← hsame.length_eq, ← hperm.length_eq]
    exact h.length_le

theorem Reachable.sound (h : Reachable last s) : Sound s last := by
  induction h with
  | empty last => exact ⟨rfl, Nat.zero_le _, fun e he => absurd he not_mem_nil⟩
  | announce _ hle infohash peer ih => exact ih.announce hle
  | expire _ now ih => exact ih.expire now
  | clear _ _ => exact ⟨rfl, Nat.zero_le _, fun e he => absurd he not_mem_nil⟩
  | reorder _ hreordered ih => exact ih.reorder hreordered

/-- The number of peers is right, no infohash is without peers and its time is that of its latest
    peer, and the limits are kept; who is announced is there, and only the oldest make room, if
    there is none. -/
theorem peers_kept (h : Reachable last s) :
    Sound s last ∧
      (∀ infohash peer now, last ≤ now →
        (s.announce infohash peer now).announcedAt (infohash, peer) = some now ∧
          ∃ dropped, Dropped s infohash peer dropped ∧
            (∀ x ∈ dropped, (s.announce infohash peer now).announcedAt x = none) ∧
            ∀ x ∉ dropped, x ≠ (infohash, peer) →
              (s.announce infohash peer now).announcedAt x = s.announcedAt x) ∧
      ∀ now x, (s.expire now).announcedAt x =
        (s.announcedAt x).filter fun time => now - time < PeerTtlMs :=
  ⟨h.sound, fun infohash peer now _ => announcedAt_announce h.sound infohash peer now,
    announcedAt_expire s⟩

/-! ## A full infohash -/

/-- A peer for each port from 6881 on. -/
def peerAt (n : ℕ) : Endpoint := ⟨.ipv4 (HostAddress.dotted 10 0 0 1), UInt16.ofNat (6881 + n)⟩

/-- So many of them have been announced, each a millisecond after the one before. -/
def announced (n : ℕ) : PeerStorage :=
  (range n).foldl (fun s (k : ℕ) => s.announce default (peerAt k) k) {}

theorem announced_succ (n : ℕ) :
    announced (n + 1) = (announced n).announce default (peerAt n) n := by
  rw [announced, range_succ, foldl_append]
  rfl

theorem eq_of_peerAt_eq {j k : ℕ} (hj : j ≤ MaxPeersPerInfohash) (hk : k ≤ MaxPeersPerInfohash)
    (h : peerAt j = peerAt k) : j = k := by
  rw [MaxPeersPerInfohash] at hj hk
  have hport := congrArg (fun e => e.port.toNat) h
  simp only [peerAt, UInt16.toNat_ofNat'] at hport
  omega

theorem peersOf_announced {n : ℕ} (h : n ≤ MaxPeersPerInfohash) :
    (announced n).roomFor default = announced n ∧ ((announced n).peersOf default).entries =
      (range n).reverse.map fun k => ⟨peerAt k, (k : ℤ)⟩ := by
  induction n with
  | zero => exact ⟨rfl, rfl⟩
  | succ n ih =>
    obtain ⟨hroom, hpeers⟩ := ih (Nat.le_of_succ_le h)
    have hlength : ((announced n).peersOf default).entries.length = n := by
      rw [hpeers, length_map, length_reverse, length_range]
    have hnew : peerAt n ∉ (announced n).peersOf default := by
      intro hmem
      obtain ⟨p, hp, hkey⟩ := mem_map.1 (AList.mem_keys.1 hmem)
      rw [hpeers] at hp
      obtain ⟨k, hk, rfl⟩ := mem_map.1 hp
      have hlt := mem_range.1 (mem_reverse.1 hk)
      exact hlt.ne (eq_of_peerAt_eq (by omega) (by omega) hkey)
    rw [announced_succ, announce_eq, hroom]
    constructor
    · exact if_pos ((AList.mem_insert _).2 (.inl rfl))
    · rw [peersOf, AList.lookup_insert]
      obtain ⟨hmem, -⟩ | ⟨-, -, heq⟩ | ⟨oldest, time, -, hfull, -⟩ :=
        addPeer_cases (hlength.le.trans (Nat.le_of_succ_le h)) (announced n).peerCount (peerAt n) n
      · exact absurd hmem hnew
      · rw [heq, Option.getD_some]
        dsimp only
        rw [AList.entries_insert_of_notMem hnew, hpeers, range_succ, reverse_append]
        rfl
      · omega

theorem reachable_announced (n : ℕ) : ∃ last ≤ (n : ℤ), Reachable last (announced n) := by
  induction n with
  | zero => exact ⟨0, le_rfl, .empty 0⟩
  | succ n ih =>
    obtain ⟨last, hle, h⟩ := ih
    exact ⟨n, by omega, announced_succ n ▸ h.announce hle default (peerAt n)⟩

/-- One peer more than there is room for: the first one makes room, and the others stay. -/
theorem peers_kept_full :
    (announced 501).announcedAt (default, peerAt 0) = none ∧
      ∀ k, 0 < k → k ≤ 500 → (announced 501).announcedAt (default, peerAt k) = some (k : ℤ) := by
  obtain ⟨last, hle, hreach⟩ : ∃ last ≤ (500 : ℤ), Reachable last (announced 500) :=
    reachable_announced 500
  obtain ⟨-, hannounce, -⟩ := peers_kept hreach
  obtain ⟨hnow, dropped, hdropped, hgone, hkept⟩ := hannounce default (peerAt 500) 500 hle
  have hsucc : (announced 500).announce default (peerAt 500) 500 = announced 501 :=
    (announced_succ 500).symm
  rw [hsucc] at hnow hgone hkept
  obtain ⟨-, hpeers⟩ := peersOf_announced (n := 500) le_rfl
  have hstored : ∀ k < 500, (announced 500).announcedAt (default, peerAt k) = some (k : ℤ) := by
    intro k hk
    rw [← lookup_peersOf, Replacing.lookup_eq_some_iff, hpeers]
    exact mem_map_of_mem (mem_reverse.2 (mem_range.2 hk))
  have hother : ∀ {j k : ℕ}, j ≤ 500 → k ≤ 500 → j ≠ k → (default, peerAt j) ≠
      ((default, peerAt k) : NodeId × Endpoint) :=
    fun hj hk hne heq => hne (eq_of_peerAt_eq hj hk (congrArg Prod.snd heq))
  cases hdropped with
  | nothing =>
    -- There would be 501 peers.
    have hall : (range 501).map peerAt ⊆ ((announced 501).peersOf default).keys := by
      intro peer hpeer
      obtain ⟨k, hk, rfl⟩ := mem_map.1 hpeer
      have hk : k ≤ 500 := Nat.le_of_lt_succ (mem_range.1 hk)
      refine AList.mem_keys.1 (AList.lookup_isSome.1 ?_)
      rw [lookup_peersOf]
      rcases hk.eq_or_lt with rfl | hlt
      · rw [hnow]
        rfl
      · rw [hkept _ (Set.notMem_empty _) (hother hk le_rfl hlt.ne), hstored k hlt]
        rfl
    have hnodup : ((range 501).map peerAt).Nodup := nodup_range.map_on fun j hj k hk heq =>
      eq_of_peerAt_eq (Nat.le_of_lt_succ (mem_range.1 hj)) (Nat.le_of_lt_succ (mem_range.1 hk)) heq
    have hlength := (subperm_of_subset hnodup hall).length_le
    rw [length_map, length_range] at hlength
    have hsound := ((hreach.announce hle default (peerAt 500)).sound.peersOf default).1
    rw [hsucc] at hsound
    have hkeys : ((announced 501).peersOf default).keys.length =
        ((announced 501).peersOf default).entries.length := length_map _
    exact absurd (hlength.trans (hkeys.le.trans hsound)) (by decide)
  | peer entry oldest time hentry hnew hfull holdest holdest_le =>
    have hentries : (announced 500).peersOf default = entry.peers := by
      rw [peersOf, hentry, Option.getD_some]
    rw [hentries] at hpeers
    have hmem := Replacing.lookup_eq_some_iff.1 holdest
    rw [hpeers] at hmem holdest_le
    obtain ⟨k, -, heq⟩ := mem_map.1 hmem
    cases heq
    have hzero : (k : ℤ) ≤ (0 : ℕ) :=
      holdest_le ⟨peerAt 0, (0 : ℕ)⟩ (mem_map_of_mem (mem_reverse.2 (mem_range.2 (by decide))))
    obtain rfl : k = 0 := by omega
    refine ⟨hgone _ rfl, fun k hpos hk => ?_⟩
    rcases hk.eq_or_lt with rfl | hlt
    · exact hnow
    · rw [hkept _ (hother hk (by decide) hpos.ne') (hother hk le_rfl hlt.ne), hstored k hlt]
  | infohash oldest entry hnew =>
    have hnone := hstored 0 (by decide)
    rw [announcedAt, AList.lookup_eq_none.2 hnew] at hnone
    cases hnone

end PeerStorage

end Dht
