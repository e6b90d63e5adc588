import DhtCore.RoutingTable.OnePerIp
import DhtCore.NodeId.Order

/-!
# Newcomers

What newcomers do to the nodes that are there, and whether they get in:

* A node that works is never pushed out by another one (`mem_allNodes_heardFrom`), nor by a
  timeout of another one (`mem_allNodes_failed`).
* `wouldAccept` tells whether a node gets in (`wouldAccept_iff`), but for one case: it takes a
  bucket that may be split for one with room, and there is none if its nodes all go the way of
  the new one.
-/

namespace Dht.RoutingTable

open List Replacing

variable {t : RoutingTable} {n : RoutingNode} {now : ℤ}

/-! ## Nodes that stay -/

/-- A node stays if it stays in the bucket that is replaced. -/
theorem mem_allNodes_setBucket {i : ℕ} {b : Bucket} (hn : n ∈ t.allNodes)
    (h : n ∈ (t.bucketAt i).nodes → n ∈ b.nodes) : n ∈ (t.setBucket i b).allNodes := by
  by_cases hi : i < t.buckets.length
  · obtain ⟨rest, hperm, hset⟩ := allNodes_setBucket (getElem?_bucketAt hi)
    exact (hset b).mem_iff.2 ((List.mem_append.1 (hperm.mem_iff.1 hn)).elim
      (fun hn => List.mem_append_left _ (h hn)) (List.mem_append_right _))
  · rwa [setBucket, List.set_eq_of_length_le (by omega)]

theorem Splits.mem_allNodes {u : RoutingTable} (hs : Splits t u) (hn : n ∈ t.allNodes) :
    n ∈ u.allNodes := by
  induction hs with
  | refl => exact hn
  | step hlt _ ih =>
    refine ih ((allNodes_split_perm ?_).mem_iff.2 hn)
    obtain ⟨b, hb, -⟩ := List.mem_flatMap.1 hn
    exact List.length_pos_of_mem hb

/-- Inserting pushes out only nodes that have stopped answering. -/
theorem mem_allNodes_insert (hn : n ∈ t.allNodes) (hbad : stateOf n now ≠ .Bad)
    (node : RoutingNode) : n ∈ (t.insert node now).1.allNodes := by
  rw [insert]
  split_ifs with hself hip
  · exact hn
  · exact hn
  obtain ⟨⟨t', r⟩, hres⟩ := Option.isSome_iff_exists.1 (insertLoop_isSome t node now)
  rw [Option.get_of_eq_some _ hres]
  obtain ⟨s, hs, hcases⟩ := insertLoop_cases hres
  have hns := hs.mem_allNodes hn
  rcases hcases with ⟨-, -, rfl⟩ | ⟨bad, hfind, -, rfl⟩ | ⟨-, rfl⟩
  · exact mem_allNodes_setBucket hns (List.mem_append_left _)
  · obtain ⟨hlt, hstate, -⟩ := List.findIdx?_eq_some_iff_getElem.1 hfind
    refine mem_allNodes_setBucket hns fun h => mem_set_of_ne h (List.getElem?_eq_getElem hlt) ?_
    rintro rfl
    exact hbad (by simpa using hstate)
  · exact mem_allNodes_setBucket hns id

theorem mem_allNodes_heardFromUnknown (hn : n ∈ t.allNodes) (hbad : stateOf n now ≠ .Bad)
    (id : NodeId) (endpoint : Endpoint) (version : Bytes) (rttMs : ℤ) :
    n ∈ (t.heardFromUnknown id endpoint version rttMs now).1.allNodes := by
  rcases heardFromUnknown_cases t id endpoint version rttMs now with
    ⟨j, m, -, hj, -, ⟨-, heq⟩ | ⟨hm, m', -, -, heq⟩⟩ | ⟨-, node, -, -, heq⟩ <;> rw [heq]
  · exact hn
  · refine mem_allNodes_setBucket hn fun h => mem_set_of_ne h hj ?_
    rintro rfl
    exact hbad hm
  · exact mem_allNodes_insert (by rwa [allNodes_mapReplacements]) hbad node

/-- Hearing from an endpoint pushes out no node at another one that still answers. -/
theorem mem_allNodes_heardFrom (hn : n ∈ t.allNodes) (hbad : stateOf n now ≠ .Bad)
    {endpoint : Endpoint} (hne : n.endpoint ≠ endpoint) (id : NodeId) (version : Bytes)
    (rttMs : ℤ) : n ∈ (t.heardFrom id endpoint version rttMs now).1.allNodes := by
  rcases heardFrom_cases t id endpoint version rttMs now with
    ⟨-, heq⟩ | ⟨-, -, ⟨i, j, m, m', hloc, -, -, -, heq⟩ | ⟨i, j, m, -, -, heq⟩ | ⟨-, heq⟩⟩ <;>
    rw [heq]
  · exact hn
  · obtain ⟨-, hj, hendpoint⟩ := locate_eq_some hloc
    refine mem_allNodes_setBucket hn fun h => mem_set_of_ne h hj ?_
    rintro rfl
    exact hne hendpoint
  · refine mem_allNodes_heardFromUnknown (mem_allNodes_setBucket hn fun h => ?_) hbad ..
    exact List.mem_filter.2 ⟨h, by simpa using hne⟩
  · exact mem_allNodes_heardFromUnknown hn hbad ..

/-- A timeout at an endpoint changes no node at another one. -/
theorem mem_allNodes_failed (hn : n ∈ t.allNodes) {endpoint : Endpoint}
    (hne : n.endpoint ≠ endpoint) (now : ℤ) : n ∈ (t.failed endpoint now).allNodes := by
  rcases failed_cases t endpoint now with ⟨-, heq⟩ | ⟨i, j, m, hloc, hcases⟩
  · rwa [heq, allNodes_mapReplacements]
  obtain ⟨-, hj, hendpoint⟩ := locate_eq_some hloc
  have hm : n ≠ m := fun h => hne (h ▸ hendpoint)
  rcases hcases with ⟨k, -, -, heq⟩ | ⟨-, heq | heq⟩ <;> rw [heq]
  · exact mem_allNodes_setBucket hn fun h => mem_set_of_ne h hj hm
  · exact mem_allNodes_setBucket hn fun h => mem_set_of_ne h hj hm
  · exact mem_allNodes_setBucket hn fun h =>
      List.mem_filter.2 ⟨mem_set_of_ne h hj hm, by simpa using hne⟩

/-- A working node stays as it is when another endpoint is heard from or times out. -/
theorem working_stay (t : RoutingTable) (hn : n ∈ t.allNodes) {endpoint : Endpoint}
    (hne : n.endpoint ≠ endpoint) (now : ℤ) :
    (∀ id version rttMs, stateOf n now ≠ .Bad →
      n ∈ (t.heardFrom id endpoint version rttMs now).1.allNodes) ∧
    n ∈ (t.failed endpoint now).allNodes :=
  ⟨fun id version rttMs hbad => mem_allNodes_heardFrom hn hbad hne id version rttMs,
    mem_allNodes_failed hn hne now⟩

/-- The oldest node of a full bucket, as another one comes. -/
theorem working_stay_full :
    let node (x : UInt8) : NodeId := ⟨x :: List.replicate 19 0, rfl⟩
    let host (x : BitVec 8) : Endpoint := ⟨.ipv4 (HostAddress.dotted 8 8 8 x), 6881⟩
    let t := (new (node 0) true).run ((List.range 8).map fun i =>
      .heardFrom (node (0x80 + .ofNat i)) (host (.ofNat 8 (i + 1))) [] 10 (i + 1))
    ∃ n ∈ t.allNodes, n.id = node 0x80 ∧
      n ∈ (t.heardFrom (node 0x88) (host 9) [] 10 9).1.allNodes ∧
      n ∈ (t.failed (host 9) 9).allNodes := by
  intro node host t
  have hmem : { id := node 0x80, endpoint := host 1, firstSeen := 1, lastResponse := 1,
                rttMs := 10 } ∈ t.allNodes := by decide +kernel
  have h := working_stay t hmem (show _ ≠ host 9 by decide) 9
  exact ⟨_, hmem, rfl, h.1 _ _ _ (by decide), h.2⟩

/-! ## Nodes that get in -/

/-- Only one other node shares all but the last bit. -/
theorem eq_of_le_commonPrefixLength {self a b : NodeId}
    (ha : NodeId.Bits - 1 ≤ NodeId.commonPrefixLength self a)
    (hb : NodeId.Bits - 1 ≤ NodeId.commonPrefixLength self b) (hna : a ≠ self) (hnb : b ≠ self) :
    a = b := by
  have hle : NodeId.Bits - 1 ≤ NodeId.Bits := Nat.sub_le ..
  have ha := (NodeId.le_commonPrefixLength_iff hle).1 ha
  have hb := (NodeId.le_commonPrefixLength_iff hle).1 hb
  have hna : a.value ≠ self.value := fun h => hna (NodeId.value_inj h)
  have hnb : b.value ≠ self.value := fun h => hnb (NodeId.value_inj h)
  rw [show NodeId.Bits - (NodeId.Bits - 1) = 1 from rfl, pow_one] at ha hb
  exact NodeId.value_inj (by omega)

/-- The nodes where an ID belongs, at the time it is looked up. -/
def nodesFor (t : RoutingTable) (id : NodeId) : List RoutingNode :=
  (t.bucketAt (t.bucketIndexFor id)).nodes

/-- What the bucket holds that was split. -/
theorem nodes_split_last (hone : 1 ≤ t.buckets.length) :
    (t.split.bucketAt (t.buckets.length - 1)).nodes =
      (t.bucketAt (t.buckets.length - 1)).nodes.filter fun n =>
        !decide (NodeId.commonPrefixLength t.self n.id > t.buckets.length - 1) := by
  have hlast : t.buckets.length - 1 < t.buckets.length := by omega
  rw [bucketAt, split, List.getD_eq_getElem?_getD, List.getElem?_append_left (by simpa using hlast),
    List.getElem?_set_self hlast]
  rfl

/-- What the bucket holds that is split off. -/
theorem nodes_split_length (t : RoutingTable) :
    (t.split.bucketAt t.buckets.length).nodes =
      (t.bucketAt (t.buckets.length - 1)).nodes.filter fun n =>
        decide (NodeId.commonPrefixLength t.self n.id > t.buckets.length - 1) := by
  rw [bucketAt, split, List.getD_eq_getElem?_getD, List.getElem?_append_right (by simp)]
  simp

/-- A bucket of all but the same ID is not full. -/
theorem WellFormed.length_lt_of_le_commonPrefixLength (h : WellFormed t) {i : ℕ}
    (hi : i < t.buckets.length)
    (hle : ∀ n ∈ (t.bucketAt i).nodes, NodeId.Bits - 1 ≤ NodeId.commonPrefixLength t.self n.id) :
    (t.bucketAt i).nodes.length < K := by
  have hok := h.bucketOk _ _ (getElem?_bucketAt hi)
  have hself : ∀ n ∈ (t.bucketAt i).nodes, n.id ≠ t.self := fun n hn =>
    hok.ne_self n (List.mem_append_left _ hn)
  obtain ⟨rest, hperm, -⟩ := allNodes_setBucket (getElem?_bucketAt hi)
  have hnodup : ((t.bucketAt i).nodes.map (·.id)).Nodup := by
    have := (hperm.map (·.id)).nodup_iff.1 h.nodup_ids
    rw [List.map_append] at this
    exact this.of_append_left
  match hnodes : (t.bucketAt i).nodes with
  | [] => exact (by decide : 0 < K)
  | [_] => exact (by decide : 1 < K)
  | a :: b :: rest =>
    rw [hnodes] at hle hself hnodup
    have hab : a.id = b.id := eq_of_le_commonPrefixLength (hle a (by simp)) (hle b (by simp))
      (hself a (by simp)) (hself b (by simp))
    simp [hab] at hnodup

/-- Inserting ends at the cache exactly if the bucket of the node is full, none of the nodes in
    it has stopped answering, and it cannot be split, or all of them go the way of the node. -/
theorem eq_cached_iff (h : WellFormed t) {fuel : ℕ} {node : RoutingNode}
    {t' : RoutingTable} {r : InsertResult} (hres : insertLoop fuel t node now = some (t', r)) :
    r = .Cached ↔ (t.nodesFor node.id).length = K ∧
      (∀ n ∈ t.nodesFor node.id, stateOf n now ≠ .Bad) ∧
      (t.canSplit (t.bucketIndexFor node.id) → ∀ n ∈ t.nodesFor node.id,
        NodeId.commonPrefixLength t.self n.id = NodeId.commonPrefixLength t.self node.id) := by
  induction fuel generalizing t with
  | zero => simp [insertLoop] at hres
  | succ fuel ih =>
    have hi := bucketIndexFor_lt h.one_le node.id
    have hok := h.bucketOk _ _ (getElem?_bucketAt hi)
    rw [insertLoop, ← nodesFor] at hres
    split_ifs at hres with hroom hsplit
    · obtain ⟨-, rfl⟩ := Prod.mk.inj (Option.some.inj hres)
      exact iff_of_false (by simp) fun hcached => hroom.ne hcached.1
    · obtain ⟨hindex, hlt⟩ : t.bucketIndexFor node.id = t.buckets.length - 1 ∧
          t.buckets.length < NodeId.Bits := by
        simpa only [canSplit, Bool.and_eq_true, decide_eq_true_eq] using hsplit
      have hfull : (t.nodesFor node.id).length = K := le_antisymm hok.nodes_le (not_lt.1 hroom)
      have hdeep : ∀ n ∈ t.nodesFor node.id,
          t.buckets.length - 1 ≤ NodeId.commonPrefixLength t.self n.id := by
        intro n hn
        have := hok.index n (List.mem_append_left _ hn)
        rw [hindex, bucketIndexFor] at this
        omega
      have hnodes : (t.bucketAt (t.buckets.length - 1)).nodes = t.nodesFor node.id := by
        rw [nodesFor, hindex]
      have hindex' : t.split.bucketIndexFor node.id =
          min (NodeId.commonPrefixLength t.self node.id) t.buckets.length := by
        rw [bucketIndexFor, length_split, Nat.add_sub_cancel]
        rfl
      rw [ih (h.split hlt) hres]
      rw [bucketIndexFor] at hindex
      by_cases hc : NodeId.commonPrefixLength t.self node.id = t.buckets.length - 1
      · -- The node stays with those that share no more bits.
        have hold : t.split.nodesFor node.id = (t.nodesFor node.id).filter fun n =>
            !decide (NodeId.commonPrefixLength t.self n.id > t.buckets.length - 1) := by
          rw [nodesFor, hindex', hc, min_eq_left (by omega), nodes_split_last h.one_le, hnodes]
        have hstuck : ¬t.split.canSplit (t.split.bucketIndexFor node.id) := by
          simp only [canSplit, hindex', length_split, Bool.and_eq_true, decide_eq_true_eq]
          omega
        constructor
        · rintro ⟨hlen, hbad, -⟩
          have hall := List.length_filter_eq_length_iff.1 ((hold ▸ hlen).trans hfull.symm)
          rw [hold, List.filter_eq_self.2 hall] at hbad
          refine ⟨hfull, hbad, fun _ n hn => ?_⟩
          have := hdeep n hn
          have := hall n hn
          simp only [Bool.not_eq_true', decide_eq_false_iff_not, not_lt] at this
          omega
        · rintro ⟨-, hbad, hway⟩
          have hkept : t.split.nodesFor node.id = t.nodesFor node.id := by
            rw [hold, List.filter_eq_self]
            intro n hn
            simp [hway hsplit n hn, hc]
          rw [hkept]
          exact ⟨hfull, hbad, fun hs => absurd hs hstuck⟩
      · -- The node moves on, with those that share more bits.
        have hnew : t.split.nodesFor node.id = (t.nodesFor node.id).filter fun n =>
            decide (NodeId.commonPrefixLength t.self n.id > t.buckets.length - 1) := by
          rw [nodesFor, hindex', min_eq_right (by omega), nodes_split_length, hnodes]
        constructor
        · rintro ⟨hlen, hbad, hway⟩
          have hall := List.length_filter_eq_length_iff.1 ((hnew ▸ hlen).trans hfull.symm)
          simp only [decide_eq_true_eq] at hall
          have hmoved : t.split.nodesFor node.id = t.nodesFor node.id := by
            rw [hnew, List.filter_eq_self]
            exact fun n hn => decide_eq_true (hall n hn)
          rw [hmoved] at hbad hway
          refine ⟨hfull, hbad, fun _ => hway ?_⟩
          -- The last bucket of all has no eight nodes.
          by_contra hlast
          have hlt' : ¬t.buckets.length + 1 < NodeId.Bits := by
            simp only [canSplit, hindex', length_split, Bool.and_eq_true, decide_eq_true_eq]
              at hlast
            omega
          refine (h.length_lt_of_le_commonPrefixLength (i := t.buckets.length - 1) ?_ ?_).ne ?_
          · omega
          · rw [hnodes]
            intro n hn
            have := hall n hn
            omega
          · rw [hnodes, hfull]
        · rintro ⟨-, hbad, hway⟩
          have hmoved : t.split.nodesFor node.id = t.nodesFor node.id := by
            rw [hnew, List.filter_eq_self]
            intro n hn
            rw [hway hsplit n hn]
            exact decide_eq_true (by omega)
          rw [hmoved]
          exact ⟨hfull, hbad, fun _ => hway hsplit⟩
    · have hfull : (t.nodesFor node.id).length = K := le_antisymm hok.nodes_le (not_lt.1 hroom)
      cases hfind : (t.nodesFor node.id).findIdx? (stateOf · now = .Bad) with
      | some bad =>
        rw [hfind] at hres
        obtain ⟨-, rfl⟩ := Prod.mk.inj (Option.some.inj hres)
        obtain ⟨hlt, hbad, -⟩ := List.findIdx?_eq_some_iff_getElem.1 hfind
        exact iff_of_false (by simp) fun hcached =>
          hcached.2.1 _ (List.getElem_mem hlt) (by simpa using hbad)
      | none =>
        rw [hfind] at hres
        obtain ⟨-, rfl⟩ := Prod.mk.inj (Option.some.inj hres)
        exact iff_of_true rfl ⟨hfull, fun n hn => by
          simpa using List.findIdx?_eq_none_iff.1 hfind n hn, fun hs => absurd hs hsplit⟩

theorem nodesFor_mapReplacements (f : List RoutingNode → List RoutingNode) (id : NodeId) :
    (t.mapReplacements f).nodesFor id = t.nodesFor id := by
  rw [nodesFor, nodesFor, bucketIndexFor_mapReplacements, bucketAt, bucketAt, mapReplacements,
    List.getD_eq_getElem?_getD, List.getD_eq_getElem?_getD, List.getElem?_map]
  cases t.buckets[t.bucketIndexFor id]? <;> rfl

theorem canSplit_mapReplacements (f : List RoutingNode → List RoutingNode) (i : ℕ) :
    (t.mapReplacements f).canSplit i = t.canSplit i := by
  simp [canSplit, mapReplacements]

/-- Whether there is no getting in though the bucket of an ID may be split: it is full, and its
    nodes answer and go the way of the ID however often it is split. -/
def DeadEnd (t : RoutingTable) (id : NodeId) : Prop :=
  t.canSplit (t.bucketIndexFor id) ∧ (t.nodesFor id).length = K ∧
    ∀ n ∈ t.nodesFor id, n.id ≠ id ∧ n.failCount < BadFailCount ∧
      NodeId.commonPrefixLength t.self n.id = NodeId.commonPrefixLength t.self id

/-- A new ID at a free address gets in exactly if it may according to its bucket. -/
theorem WellFormed.insert_result (h : WellFormed t) {node : RoutingNode} (hself : node.id ≠ t.self)
    (hip : t.ipInUse node.endpoint.address = false) (now : ℤ) :
    (t.insert node now).2 = .Added ∨ (t.insert node now).2 = .Replaced ↔
      ¬((t.nodesFor node.id).length = K ∧
        (∀ n ∈ t.nodesFor node.id, stateOf n now ≠ .Bad) ∧
        (t.canSplit (t.bucketIndexFor node.id) → ∀ n ∈ t.nodesFor node.id,
          NodeId.commonPrefixLength t.self n.id = NodeId.commonPrefixLength t.self node.id)) := by
  rw [RoutingTable.insert, if_neg hself, if_neg (by simp [hip])]
  obtain ⟨⟨t', r⟩, hres⟩ := Option.isSome_iff_exists.1 (insertLoop_isSome t node now)
  rw [Option.get_of_eq_some _ hres, ← eq_cached_iff h hres]
  obtain ⟨s, -, ⟨-, rfl, -⟩ | ⟨-, -, rfl, -⟩ | ⟨rfl, -⟩⟩ := insertLoop_cases hres <;> simp

/-- `wouldAccept` tells whether a node at a free address gets in, unless it is at a dead end. -/
theorem WellFormed.wouldAccept_iff (h : WellFormed t) (id : NodeId) {endpoint : Endpoint}
    (hvalid : endpoint.isValid) (hip : t.ipInUse endpoint.address = false) (version : Bytes)
    (rttMs now : ℤ) :
    (t.wouldAccept id = true ↔ (t.heardFrom id endpoint version rttMs now).2 = .Added ∨
        (t.heardFrom id endpoint version rttMs now).2 = .Replaced) ↔ ¬t.DeadEnd id := by
  have hi := bucketIndexFor_lt h.one_le id
  have hok := h.bucketOk _ _ (getElem?_bucketAt hi)
  by_cases hself : id = t.self
  · refine iff_of_true (iff_of_false ?_ ?_) fun hdead => ?_
    · simp [wouldAccept, hself]
    · simp [RoutingTable.heardFrom, hself]
    · obtain ⟨-, hlen, hall⟩ := hdead
      obtain ⟨n, hn⟩ := List.exists_mem_of_length_pos (hlen.symm ▸ (by decide : 0 < K))
      have hbits := (hall n hn).2.2
      rw [hself, NodeId.commonPrefixLength_eq_bits.2 rfl,
        NodeId.commonPrefixLength_eq_bits] at hbits
      exact hok.ne_self n (List.mem_append_left _ hn) hbits.symm
  have hlocate : t.locate endpoint = none := by
    cases hloc : t.locate endpoint with
    | none => rfl
    | some found =>
      obtain ⟨i, j, n⟩ := found
      obtain ⟨hb, hj, rfl⟩ := locate_eq_some hloc
      rw [ipInUse, List.any_eq_false] at hip
      exact absurd (decide_eq_true rfl) (hip n (mem_allNodes_of_bucketAt hb hj))
  rw [RoutingTable.heardFrom, if_neg (by simp [hself, hvalid]), hlocate]
  dsimp only
  rw [wouldAccept, if_neg hself, RoutingTable.heardFromUnknown]
  change ((if (t.nodesFor id).any (·.id = id) then false else _) = true ↔ _) ↔ _
  dsimp only
  rw [← nodesFor]
  cases hfind : (t.nodesFor id).findIdx? (·.id = id) with
  | some j =>
    -- A node of the ID is there: it is not accepted, and stays or moves.
    obtain ⟨hlt, hid, -⟩ := List.findIdx?_eq_some_iff_getElem.1 hfind
    have hid : (t.nodesFor id)[j].id = id := of_decide_eq_true hid
    rw [if_pos (List.any_eq_true.2 ⟨_, List.getElem_mem hlt, decide_eq_true hid⟩)]
    refine iff_of_true (iff_of_false Bool.false_ne_true ?_) fun hdead =>
      (hdead.2.2 _ (List.getElem_mem hlt)).1 hid
    dsimp only
    split_ifs <;> simp
  | none =>
    have hnew : ∀ n ∈ t.nodesFor id, n.id ≠ id := fun n hn => by
      simpa using List.findIdx?_eq_none_iff.1 hfind n hn
    rw [if_neg (by simpa using hnew)]
    dsimp only
    rw [(h.mapReplacements fun _ => List.filter_sublist).insert_result hself (by
        rwa [ipInUse, allNodes_mapReplacements, ← ipInUse]), nodesFor_mapReplacements,
      bucketIndexFor_mapReplacements, canSplit_mapReplacements, DeadEnd]
    change (_ ↔ ¬((t.nodesFor id).length = K ∧ (∀ n ∈ t.nodesFor id, stateOf n now ≠ .Bad) ∧
      (t.canSplit (t.bucketIndexFor id) → ∀ n ∈ t.nodesFor id,
        NodeId.commonPrefixLength t.self n.id = NodeId.commonPrefixLength t.self id))) ↔ _
    have hfull : (t.nodesFor id).length = K ↔ ¬(t.nodesFor id).length < K :=
      ⟨fun h => h.ge.not_gt, fun h => le_antisymm hok.nodes_le (not_lt.1 h)⟩
    have hbad : (∀ n ∈ t.nodesFor id, stateOf n now ≠ .Bad) ↔
        ∀ n ∈ t.nodesFor id, n.failCount < BadFailCount :=
      forall₂_congr fun n _ => by rw [ne_eq, stateOf_eq_bad, not_le]
    have hany : ((t.nodesFor id).any fun n => n.failCount ≥ BadFailCount) = true ↔
        ¬∀ n ∈ t.nodesFor id, n.failCount < BadFailCount := by
      simp
    have hall : (∀ n ∈ t.nodesFor id, n.id ≠ id ∧ n.failCount < BadFailCount ∧
        NodeId.commonPrefixLength t.self n.id = NodeId.commonPrefixLength t.self id) ↔
        (∀ n ∈ t.nodesFor id, n.failCount < BadFailCount) ∧ ∀ n ∈ t.nodesFor id,
          NodeId.commonPrefixLength t.self n.id = NodeId.commonPrefixLength t.self id :=
      ⟨fun h => ⟨fun n hn => (h n hn).2.1, fun n hn => (h n hn).2.2⟩,
        fun h n hn => ⟨hnew n hn, h.1 n hn, h.2 n hn⟩⟩
    rw [Bool.or_eq_true, Bool.or_eq_true, decide_eq_true_iff, hany, hbad, hfull, hall]
    tauto

/-- Whether a node at a free address gets in is told by `wouldAccept` in every table, except at a
    dead end. -/
theorem wouldAccept_iff_of_run (self : NodeId) (restrictOnePerIp : Bool) (ops : List Op)
    (id : NodeId) {endpoint : Endpoint} (hvalid : endpoint.isValid)
    (hip : ((new self restrictOnePerIp).run ops).ipInUse endpoint.address = false)
    (version : Bytes) (rttMs now : ℤ) :
    let t := (new self restrictOnePerIp).run ops
    (t.wouldAccept id = true ↔ (t.heardFrom id endpoint version rttMs now).2 = .Added ∨
        (t.heardFrom id endpoint version rttMs now).2 = .Replaced) ↔ ¬t.DeadEnd id :=
  (wellFormed_run self restrictOnePerIp ops).1.wouldAccept_iff id hvalid hip version rttMs now

/-- A table whose first bucket holds eight nodes with no bit of the own ID. -/
def eightAcross : List Op :=
  (List.range 8).map fun i => .heardFrom ⟨(0x80 + .ofNat i) :: List.replicate 19 0, rfl⟩
    ⟨.ipv4 (HostAddress.dotted 8 8 8 (.ofNat 8 (i + 1))), 6881⟩ [] 10 (i + 1)

/-- A ninth node of their kind is thought to get in, but does not, and one of another kind
    does. -/
theorem wouldAccept_iff_eightAcross :
    let node (x : UInt8) : NodeId := ⟨x :: List.replicate 19 0, rfl⟩
    let endpoint : Endpoint := ⟨.ipv4 (HostAddress.dotted 8 8 8 9), 6881⟩
    let t := (new (node 0) true).run eightAcross
    ∀ x, (t.wouldAccept (node x) = true ↔
        (t.heardFrom (node x) endpoint [] 10 9).2 = .Added ∨
        (t.heardFrom (node x) endpoint [] 10 9).2 = .Replaced) ↔ ¬t.DeadEnd (node x) := by
  intro node endpoint t x
  exact wouldAccept_iff_of_run (node 0) true eightAcross (node x) (by decide) (by decide +kernel)
    [] 10 9

theorem not_wouldAccept_iff :
    ¬∀ (self : NodeId) (restrictOnePerIp : Bool) (ops : List Op) (id : NodeId)
      (endpoint : Endpoint) (version : Bytes) (rttMs now : ℤ),
      let t := (new self restrictOnePerIp).run ops
      endpoint.isValid → isUsableRemote endpoint false → t.ipInUse endpoint.address = false →
      (∀ n ∈ t.allNodes, n.endpoint ≠ endpoint) →
      (t.wouldAccept id = true ↔ (t.heardFrom id endpoint version rttMs now).2 = .Added ∨
        (t.heardFrom id endpoint version rttMs now).2 = .Replaced) := by
  intro h
  have hcached := h ⟨0 :: List.replicate 19 0, rfl⟩ true eightAcross
    ⟨0x88 :: List.replicate 19 0, rfl⟩ ⟨.ipv4 (HostAddress.dotted 8 8 8 9), 6881⟩ [] 10 9
  revert hcached
  decide +kernel

end Dht.RoutingTable
