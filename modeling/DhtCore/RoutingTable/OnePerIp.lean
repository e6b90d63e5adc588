import DhtCore.RoutingTable.Structure

/-!
# One node per public address

A table built with `restrictOnePerIp` is to hold at most one node per public
address (`OnePerIp`). `insert` checks the address of what it puts in, but a node
gets a place in the main table in two more ways, neither of which does:

* a node that has stopped answering *moves* to the endpoint it is heard from
  (`heardFrom`);
* a node that times out is replaced from the cache (`failed`), by one whose
  address may have been taken since it was cached.

So the property can fail (`exists_not_onePerIp`), and it holds in every state of a
run exactly if, whenever a node moves or is promoted, no other node has its
public address (`KeepsIps`, `onePerIp_iff`).
-/

namespace Dht.RoutingTable

open List Replacing

variable {t : RoutingTable}

/-- The public addresses of the main table, one for every node that has one. -/
def publicIps (nodes : List RoutingNode) : List HostAddress :=
  (nodes.map (·.endpoint.address)).filter (!isLocalAddress ·)

/-- No two nodes of the main table have the same public address. -/
def OnePerIp (t : RoutingTable) : Prop := (publicIps t.allNodes).Nodup

instance (t : RoutingTable) : Decidable t.OnePerIp := inferInstanceAs (Decidable (List.Nodup _))

/-- The table without what else it holds at the endpoint a node is heard from. -/
def forgetOld (t : RoutingTable) (id : NodeId) (endpoint : Endpoint) : RoutingTable :=
  match t.locate endpoint with
  | some (i, _, n) => if n.id = id then t else t.forget i endpoint
  | none => t

/-- The address is local, or no node of another ID has it. -/
def FreeFor (t : RoutingTable) (id : NodeId) (address : HostAddress) : Prop :=
  isLocalAddress address ∨ ∀ n ∈ t.allNodes, n.id ≠ id → n.endpoint.address ≠ address

/-- When a call keeps public addresses apart: if it moves a bad node to another
    endpoint, or replaces a bad node from the cache, the address of the newcomer
    is free. -/
def KeepsIps (t : RoutingTable) : Op → Prop
  | .heardFrom id endpoint _ _ _ =>
    id ≠ t.self → endpoint.isValid →
      (∃ n ∈ (t.forgetOld id endpoint).allNodes,
        n.id = id ∧ n.endpoint ≠ endpoint ∧ BadFailCount ≤ n.failCount) →
      (t.forgetOld id endpoint).FreeFor id endpoint.address
  | .failed endpoint _ =>
    ∀ i j n best, t.locate endpoint = some (i, j, n) → BadFailCount ≤ n.failCount + 1 →
      firstBest (fun a b => b.lastResponse < a.lastResponse) (t.bucketAt i).replacements =
      some best →
        t.FreeFor n.id ((t.bucketAt i).replacements.getD best default).endpoint.address
  | _ => True

/-- Two nodes of one public address: a node that has stopped answering is heard
    from at the address of another one. -/
theorem exists_not_onePerIp : ∃ (self : NodeId)
    (ops : List Op), ¬((new self).run ops).OnePerIp := by
  let id (x : UInt8) : NodeId := ⟨x :: List.replicate 19 0, rfl⟩
  let host (x : BitVec 8) (port : UInt16) : Endpoint := ⟨.ipv4 (HostAddress.dotted 8 8 8 x), port⟩
  refine ⟨id 0, [.heardFrom (id 0x80) (host 1 6881) [] 10 1000,
    .heardFrom (id 0x81) (host 2 6881) [] 10 1000, .failed (host 1 6881) 2000,
    .failed (host 1 6881) 3000, .heardFrom (id 0x80) (host 2 6882) [] 10 4000], ?_⟩
  decide +kernel

/-! ## The main table as a list -/

theorem publicIps_perm {l₁ l₂ : List RoutingNode} (h : l₁ ~ l₂) : publicIps l₁ ~ publicIps l₂ :=
  (h.map _).filter _

theorem nodup_publicIps_cons {n : RoutingNode} {l : List RoutingNode} :
    (publicIps (n :: l)).Nodup ↔ (publicIps l).Nodup ∧
      (isLocalAddress n.endpoint.address ∨ ∀ m ∈ l, m.endpoint.address ≠ n.endpoint.address) := by
  rw [publicIps, List.map_cons, List.filter_cons]
  by_cases hl : isLocalAddress n.endpoint.address
  · simp [hl, publicIps]
  · simp only [Bool.not_eq_true] at hl
    simp only [hl, Bool.not_false, ↓reduceIte, List.nodup_cons, publicIps,
      Bool.false_eq_true, false_or]
    rw [and_comm]
    refine and_congr_right fun _ => ?_
    simp only [List.mem_filter, List.mem_map, hl, Bool.not_false, and_true,
      not_exists, not_and, ne_eq]

/-- The IDs of the main table are distinct, as all those of the table are. -/
theorem WellFormed.nodup_ids (h : WellFormed t) : (t.allNodes.map (·.id)).Nodup :=
  h.nodup.sublist (Sublist.map _ (flatMap_sublist (fun _ => List.sublist_append_left _ _)
    t.buckets))

/-- When one node takes the place of another in the main table, the property is
    kept exactly if the newcomer's address is free for the place it takes. -/
theorem onePerIp_of_replaced {t' : RoutingTable} {n m : RoutingNode} {rest : List RoutingNode}
    (h : t.OnePerIp) (hids : (t.allNodes.map (·.id)).Nodup) (ht : t.allNodes ~ n :: rest)
    (ht' : t'.allNodes ~ m :: rest) : t'.OnePerIp ↔ t.FreeFor n.id m.endpoint.address := by
  have hold := nodup_publicIps_cons.1 ((publicIps_perm ht).nodup_iff.1 h)
  have hnodup := (ht.map (·.id)).nodup_iff.1 hids
  rw [List.map_cons, List.nodup_cons] at hnodup
  have hrest : ∀ x, x ∈ rest ↔ x ∈ t.allNodes ∧ x.id ≠ n.id := fun x => by
    rw [ht.mem_iff, List.mem_cons]
    constructor
    · exact fun hx => ⟨.inr hx, fun he => hnodup.1 (he ▸ List.mem_map_of_mem hx)⟩
    · rintro ⟨rfl | hx, hne⟩
      · exact absurd rfl hne
      · exact hx
  rw [OnePerIp, (publicIps_perm ht').nodup_iff, nodup_publicIps_cons, FreeFor,
    and_iff_right hold.1]
  simp only [hrest, and_imp]

/-- The main table after one bucket is replaced, up to permutation. -/
theorem allNodes_setBucket {i : ℕ} (hi : t.buckets[i]? = some (t.bucketAt i)) :
    ∃ rest, t.allNodes ~ (t.bucketAt i).nodes ++ rest ∧
      ∀ b, (t.setBucket i b).allNodes ~ b.nodes ++ rest :=
  exists_rest_flatMap (·.nodes) hi

/-- The main table after one node of a bucket is replaced, up to permutation. -/
theorem allNodes_setBucket_node {i j : ℕ} {n : RoutingNode}
    (hi : t.buckets[i]? = some (t.bucketAt i)) (hj : (t.bucketAt i).nodes[j]? = some n) :
    ∃ rest, t.allNodes ~ n :: rest ∧ ∀ m cache changed,
      (t.setBucket i ⟨(t.bucketAt i).nodes.set j m, cache, changed⟩).allNodes ~ m :: rest := by
  obtain ⟨rest, hperm, hset⟩ := allNodes_setBucket hi
  obtain ⟨rest', hperm', hset', -⟩ := exists_rest hj
  exact ⟨rest' ++ rest, hperm.trans (hperm'.append_right rest),
    fun m cache changed => (hset _).trans ((hset' m).append_right rest)⟩

/-- Replacing a node by one at the same address changes nothing here. -/
theorem onePerIp_setBucket_node {i j : ℕ} {n m : RoutingNode}
    (hi : t.buckets[i]? = some (t.bucketAt i)) (hj : (t.bucketAt i).nodes[j]? = some n)
    (hm : m.endpoint.address = n.endpoint.address) (cache : List RoutingNode) (changed : ℤ) :
    (t.setBucket i ⟨(t.bucketAt i).nodes.set j m, cache, changed⟩).OnePerIp ↔ t.OnePerIp := by
  obtain ⟨rest, hperm, hset⟩ := allNodes_setBucket_node hi hj
  rw [OnePerIp, OnePerIp, (publicIps_perm (hset m cache changed)).nodup_iff,
    (publicIps_perm hperm).nodup_iff]
  simp only [publicIps, List.map_cons, hm]

@[simp]
theorem setBucket_bucketAt (t : RoutingTable) (i : ℕ) : t.setBucket i (t.bucketAt i) = t := by
  have hset : t.buckets.set i (t.bucketAt i) = t.buckets := by
    refine List.ext_getElem? fun k => ?_
    rcases eq_or_ne i k with rfl | hne
    · by_cases hi : i < t.buckets.length <;> simp [bucketAt, hi]
    · rw [List.getElem?_set_ne hne]
  rw [setBucket, hset]

/-- The property is kept when nodes leave a bucket. -/
theorem OnePerIp.setBucket_of_sublist {i : ℕ} {b b' : Bucket}
    (hi : t.buckets[i]? = some (t.bucketAt i)) (h : (t.setBucket i b).OnePerIp)
    (hb : b'.nodes <+ b.nodes) : (t.setBucket i b').OnePerIp := by
  obtain ⟨rest, -, hset⟩ := allNodes_setBucket hi
  rw [OnePerIp, (publicIps_perm (hset b)).nodup_iff] at h
  rw [OnePerIp, (publicIps_perm (hset b')).nodup_iff]
  exact h.sublist (((hb.append_right rest).map _).filter _)

theorem WellFormed.mem_bucketAt (h : WellFormed t) {n : RoutingNode} (hn : n ∈ t.allNodes) :
    n ∈ (t.bucketAt (t.bucketIndexFor n.id)).nodes := by
  obtain ⟨b, hb, hnb⟩ := List.mem_flatMap.1 hn
  obtain ⟨i, hi⟩ := List.mem_iff_getElem?.1 hb
  have hindex := (h.bucketOk i b hi).index n (List.mem_append_left _ hnb)
  obtain ⟨hlt, rfl⟩ := List.getElem?_eq_some_iff.1 hi
  rw [hindex]
  simpa [bucketAt, hlt] using hnb

theorem mem_allNodes_of_bucketAt {i j : ℕ} {n : RoutingNode}
    (hi : t.buckets[i]? = some (t.bucketAt i)) (hj : (t.bucketAt i).nodes[j]? = some n) :
    n ∈ t.allNodes :=
  List.mem_flatMap.2 ⟨_, List.mem_of_getElem? hi, List.mem_of_getElem? hj⟩

/-- Two nodes of the main table with one ID are the same. -/
theorem WellFormed.eq_of_id (h : WellFormed t) {m n : RoutingNode} (hm : m ∈ t.allNodes)
    (hn : n ∈ t.allNodes) (hid : m.id = n.id) : m = n :=
  List.inj_on_of_nodup_map h.nodup_ids hm hn hid

/-- A node keeps its own address free of others. -/
theorem OnePerIp.freeFor (h : t.OnePerIp) {n : RoutingNode} (hn : n ∈ t.allNodes) :
    t.FreeFor n.id n.endpoint.address := by
  have hperm := List.perm_cons_erase hn
  refine (nodup_publicIps_cons.1 ((publicIps_perm hperm).nodup_iff.1 h)).2.imp_right
    fun hne m hm hid => ?_
  refine hne m (List.mem_of_ne_of_mem ?_ (hperm.mem_iff.1 hm))
  rintro rfl
  exact hid rfl

/-! ## The calls -/

/-- Inserting changes neither the own ID nor the setting. -/
theorem WellFormed.settings_insert (h : WellFormed t) (node : RoutingNode) (now : ℤ) :
    (t.insert node now).1.self = t.self ∧
      (t.insert node now).1.restrictOnePerIp = t.restrictOnePerIp := by
  rw [RoutingTable.insert]
  split_ifs with hself hip
  · exact ⟨rfl, rfl⟩
  · exact ⟨rfl, rfl⟩
  · obtain ⟨⟨t', r⟩, hres⟩ := Option.isSome_iff_exists.1 (insertLoop_isSome t node now)
    rw [Option.get_of_eq_some _ hres]
    obtain ⟨s, hs, hcases⟩ := insertLoop_cases hres
    obtain ⟨-, hsame, hsetting, -, -⟩ := hs.wellFormed h
    rw [← hsame, ← hsetting]
    rcases hcases with ⟨-, -, rfl⟩ | ⟨bad, -, -, rfl⟩ | ⟨-, rfl⟩ <;> exact ⟨rfl, rfl⟩

theorem WellFormed.restrictOnePerIp_heardFromUnknown (h : WellFormed t) (id : NodeId)
    (endpoint : Endpoint) (version : Bytes) (rttMs now : ℤ) :
    (t.heardFromUnknown id endpoint version rttMs now).1.restrictOnePerIp = t.restrictOnePerIp := by
  rcases heardFromUnknown_cases t id endpoint version rttMs now with
    ⟨j, n, -, -, -, ⟨-, heq⟩ | ⟨-, m, -, -, heq⟩⟩ | ⟨-, node, -, -, heq⟩ <;> rw [heq]
  · rfl
  · exact ((h.mapReplacements fun _ => List.filter_sublist).settings_insert node now).2

theorem restrictOnePerIp_updateAt (t : RoutingTable) (endpoint : Endpoint)
    (f : RoutingNode → RoutingNode) : (t.updateAt endpoint f).restrictOnePerIp =
    t.restrictOnePerIp := by
  rw [updateAt]
  split <;> rfl

/-- No call changes the setting. -/
theorem WellFormed.restrictOnePerIp_apply (h : WellFormed t) (op : Op) :
    (t.apply op).restrictOnePerIp = t.restrictOnePerIp := by
  cases op with
  | heardFrom id endpoint version rttMs now =>
    rw [RoutingTable.apply]
    rcases heardFrom_cases t id endpoint version rttMs now with
      ⟨-, heq⟩ | ⟨-, -, ⟨i, j, n, m, -, -, -, -, heq⟩ | ⟨i, j, n, hloc, -, heq⟩ | ⟨-, heq⟩⟩ <;>
        rw [heq]
    · rfl
    · have hi := (List.getElem?_eq_some_iff.1 (locate_eq_some hloc).1).1
      exact (h.setBucket_filter hi _).restrictOnePerIp_heardFromUnknown ..
    · exact h.restrictOnePerIp_heardFromUnknown ..
  | queriedBy id endpoint now =>
    rw [RoutingTable.apply, RoutingTable.queriedBy]
    cases t.locate endpoint with
    | none => rfl
    | some found =>
      dsimp only
      split_ifs
      · rfl
      · exact t.restrictOnePerIp_updateAt endpoint _
  | failed endpoint now =>
    rw [RoutingTable.apply]
    rcases failed_cases t endpoint now with ⟨-, heq⟩ | ⟨i, j, n, -,
      ⟨k, -, -, heq⟩ | ⟨-, heq | heq⟩⟩ <;>
      rw [heq] <;> rfl
  | markPinged endpoint now => exact t.restrictOnePerIp_updateAt endpoint _
  | touchBucket index now =>
    rw [RoutingTable.apply, RoutingTable.touchBucket]
    split_ifs <;> rfl
  | rebuild newSelf now =>
    exact (h.rebuild newSelf now (P := fun u => u.restrictOnePerIp = t.restrictOnePerIp) rfl
      fun u n hu he => (hu.settings_insert n now).2.trans he).2

/-- Inserting keeps the property: it checks the address. -/
theorem OnePerIp.insert (h : t.OnePerIp) (hwf : WellFormed t) (hr : t.restrictOnePerIp)
    (node : RoutingNode) (now : ℤ) : (t.insert node now).1.OnePerIp := by
  rw [RoutingTable.insert]
  split_ifs with hself hip
  · exact h
  · exact h
  · obtain ⟨⟨t', r⟩, hres⟩ := Option.isSome_iff_exists.1 (insertLoop_isSome t node now)
    rw [Option.get_of_eq_some _ hres]
    obtain ⟨s, hs, hcases⟩ := insertLoop_cases hres
    obtain ⟨hwf', -, -, -, hnodes⟩ := hs.wellFormed hwf
    have hget := hwf'.getElem?_bucketIndexFor node.id
    -- The address is free in the whole table, hence in any part of it.
    have hfree : isLocalAddress node.endpoint.address ∨
        ∀ m ∈ t.allNodes, m.endpoint.address ≠ node.endpoint.address := by
      simp only [hr, Bool.true_and, Bool.and_eq_true, Bool.not_eq_true', ipInUse, List.any_eq_true,
        decide_eq_true_eq, not_and, not_exists] at hip
      exact or_iff_not_imp_left.2 fun hl => hip (by simpa using hl)
    have hadd : ∀ {t' : RoutingTable} {l : List RoutingNode}, t'.allNodes ~ node :: l →
        (∀ m ∈ l, m ∈ t.allNodes) → (publicIps l).Nodup → t'.OnePerIp := by
      intro t' l hperm hsub hl
      rw [OnePerIp, (publicIps_perm hperm).nodup_iff, nodup_publicIps_cons]
      exact ⟨hl, hfree.imp_right fun hf m hm => hf m (hsub m hm)⟩
    rcases hcases with ⟨-, -, rfl⟩ | ⟨bad, hbad, -, rfl⟩ | ⟨-, rfl⟩
    · obtain ⟨rest, hperm, hset⟩ := allNodes_setBucket hget
      refine hadd ((hset _).trans ?_) (fun _ hm => hm) h
      exact ((perm_append_singleton node _).append_right rest).trans
        ((hperm.symm.trans hnodes).cons node)
    · obtain ⟨hlt, -⟩ := List.findIdx?_eq_some_iff_getElem.1 hbad
      obtain ⟨rest, hperm, hset⟩ := allNodes_setBucket_node hget (List.getElem?_eq_getElem hlt)
      have hrest := hnodes.symm.trans hperm
      refine hadd (hset node _ _) (fun m hm => hrest.mem_iff.2 (List.mem_cons_of_mem _ hm)) ?_
      exact (nodup_publicIps_cons.1 ((publicIps_perm hrest).nodup_iff.1 h)).1
    · obtain ⟨rest, hperm, hset⟩ := allNodes_setBucket hget
      have hsame := (hset { s.bucketAt (s.bucketIndexFor node.id) with
        replacements := cacheWith (s.bucketAt (s.bucketIndexFor node.id)).replacements node }).trans
          (hperm.symm.trans hnodes)
      exact (publicIps_perm hsame).nodup_iff.2 h

/-- Hearing from a node keeps the property exactly if it does not move a bad node
    to the address of another one. -/
theorem OnePerIp.heardFromUnknown_iff (h : t.OnePerIp) (hwf : WellFormed t)
    (hr : t.restrictOnePerIp) (id : NodeId) (endpoint : Endpoint) (version : Bytes)
    (rttMs now : ℤ) :
    (t.heardFromUnknown id endpoint version rttMs now).1.OnePerIp ↔
      ((∃ n ∈ t.allNodes, n.id = id ∧ n.endpoint ≠ endpoint ∧ BadFailCount ≤ n.failCount) →
        t.FreeFor id endpoint.address) := by
  have hget := hwf.getElem?_bucketIndexFor id
  rcases heardFromUnknown_cases t id endpoint version rttMs now with
    ⟨j, n, -, hj, rfl, ⟨hbad, heq⟩ | ⟨hbad, m, hm, rfl, heq⟩⟩ | ⟨hf, node, rfl, -, heq⟩
  · rw [heq, iff_true_left h]
    rintro ⟨n', hn', hid, -, hbad'⟩
    rw [hwf.eq_of_id hn' (mem_allNodes_of_bucketAt hget hj) hid] at hbad'
    exact absurd (stateOf_eq_bad.2 hbad') hbad
  · have hmem := mem_allNodes_of_bucketAt hget hj
    obtain ⟨rest, hperm, hset⟩ := allNodes_setBucket_node hget hj
    rw [heq, onePerIp_of_replaced h hwf.nodup_ids hperm (hset m _ now)]
    refine ⟨fun hfree _ => hfree, fun himp => ?_⟩
    -- Only a node that moves takes an address without a check.
    by_cases he : n.endpoint = m.endpoint
    · exact he ▸ h.freeFor hmem
    · exact himp ⟨n, hmem, rfl, he, stateOf_eq_bad.1 hbad⟩
  · rw [heq]
    have hdrop : (t.mapReplacements (·.filter (unrelated node.id endpoint))).OnePerIp := by
      rwa [OnePerIp, allNodes_mapReplacements]
    refine iff_of_true (hdrop.insert (hwf.mapReplacements fun _ => List.filter_sublist) hr node
      now) ?_
    · rintro ⟨n, hn, hid, -⟩
      rw [List.findIdx?_eq_none_iff] at hf
      simpa [hid] using hf n (hid ▸ hwf.mem_bucketAt hn)

theorem OnePerIp.heardFrom_iff (h : t.OnePerIp) (hwf : WellFormed t) (hr : t.restrictOnePerIp)
    (id : NodeId) (endpoint : Endpoint) (version : Bytes) (rttMs now : ℤ) :
    (t.heardFrom id endpoint version rttMs now).1.OnePerIp ↔
      t.KeepsIps (.heardFrom id endpoint version rttMs now) := by
  rcases heardFrom_cases t id endpoint version rttMs now with
    ⟨hrej, heq⟩ | ⟨hself, hvalid, ⟨i, j, n, m, hloc, rfl, hm, he, heq⟩ | ⟨i, j, n, hloc, hid, heq⟩ |
      ⟨hloc, heq⟩⟩
  · rw [heq]
    refine iff_of_true h fun hself hvalid => ?_
    rcases hrej with hrej | hrej
    · exact absurd hrej hself
    · simp [hrej] at hvalid
  · obtain ⟨hi, hj, rfl⟩ := locate_eq_some hloc
    rw [heq]
    refine iff_of_true ((onePerIp_setBucket_node hi hj (by rw [he]) _ now).2 h) ?_
    rintro - - ⟨n', hn', hid, hne, -⟩
    simp only [forgetOld, hloc, ↓reduceIte] at hn'
    exact absurd (hwf.eq_of_id hn' (mem_allNodes_of_bucketAt hi hj) hid ▸ rfl) hne
  · obtain ⟨hi, -, -⟩ := locate_eq_some hloc
    have hlt := (List.getElem?_eq_some_iff.1 hi).1
    have hforget : t.forgetOld id endpoint = t.forget i endpoint := by
      simp only [forgetOld, hloc, if_neg hid]
    have hmono : (t.forget i endpoint).OnePerIp :=
      setBucket_of_sublist (b := t.bucketAt i) hi (by rwa [setBucket_bucketAt]) List.filter_sublist
    rw [heq, hmono.heardFromUnknown_iff (hwf.setBucket_filter hlt _) hr, KeepsIps, hforget]
    simp only [ne_eq, hself, not_false_eq_true, hvalid, forall_const]
  · have hforget : t.forgetOld id endpoint = t := by simp only [forgetOld, hloc]
    rw [heq, h.heardFromUnknown_iff hwf hr, KeepsIps, hforget]
    simp only [ne_eq, hself, not_false_eq_true, hvalid, forall_const]

/-- A timeout keeps the property exactly if it does not promote a node to the
    address of another one. -/
theorem OnePerIp.failed_iff (h : t.OnePerIp) (hwf : WellFormed t) (endpoint : Endpoint) (now : ℤ) :
    (t.failed endpoint now).OnePerIp ↔ t.KeepsIps (.failed endpoint now) := by
  rcases failed_cases t endpoint now with ⟨hloc, heq⟩ | ⟨i, j, n, hloc, hcases⟩
  · rw [heq, OnePerIp, allNodes_mapReplacements]
    refine iff_of_true h fun i j n best hsome => ?_
    simp [hloc] at hsome
  · obtain ⟨hi, hj, -⟩ := locate_eq_some hloc
    obtain ⟨rest, hperm, hset⟩ := allNodes_setBucket_node hi hj
    rcases hcases with ⟨k, hbad, hbest, heq⟩ | ⟨hnone, hsame⟩
    · -- A replacement is promoted, whatever its address.
      rw [heq, onePerIp_of_replaced h hwf.nodup_ids hperm (hset _ _ now)]
      simp only [KeepsIps, hloc, Option.some.injEq, Prod.mk.injEq]
      constructor
      · rintro hfree _ _ _ best ⟨rfl, rfl, rfl⟩ - hbest'
        rw [hbest, Option.some.injEq] at hbest'
        exact hbest' ▸ hfree
      · exact fun hall => hall i j n k ⟨rfl, rfl, rfl⟩ hbad hbest
    · refine iff_of_true ?_ fun i' j' n' best hloc' hbad hbest => ?_
      · have hcount : (t.setBucket i { t.bucketAt i with
            nodes := (t.bucketAt i).nodes.set j { n with failCount := n.failCount + 1 }
            }).OnePerIp :=
          (onePerIp_setBucket_node (m := { n with failCount := n.failCount + 1 }) hi hj rfl _ _).2 h
        rcases hsame with heq | heq
        · exact heq ▸ hcount
        · exact heq ▸ hcount.setBucket_of_sublist hi List.filter_sublist
      · rw [hloc, Option.some.injEq, Prod.mk.injEq, Prod.mk.injEq] at hloc'
        obtain ⟨rfl, rfl, rfl⟩ := hloc'
        rw [hnone hbad] at hbest
        exact absurd hbest (by simp)

theorem OnePerIp.updateAt (h : t.OnePerIp) (endpoint : Endpoint) {f : RoutingNode → RoutingNode}
    (hf : ∀ n, (f n).endpoint = n.endpoint) : (t.updateAt endpoint f).OnePerIp := by
  rw [RoutingTable.updateAt]
  cases hloc : t.locate endpoint with
  | none => exact h
  | some found =>
    obtain ⟨i, j, n⟩ := found
    obtain ⟨hi, hj, -⟩ := locate_eq_some hloc
    exact (onePerIp_setBucket_node hi hj (by rw [hf]) _ _).2 h

theorem OnePerIp.touchBucket (h : t.OnePerIp) (index now : ℤ) :
    (t.touchBucket index now).OnePerIp := by
  rw [RoutingTable.touchBucket]
  split_ifs with hindex
  · exact setBucket_of_sublist (b := t.bucketAt index.toNat) (getElem?_bucketAt (by omega))
      (by rwa [setBucket_bucketAt]) (Sublist.refl _)
  · exact h

/-- What a table that keeps one node per public address keeps with it. -/
structure Restricting (t : RoutingTable) : Prop where
  wellFormed : WellFormed t
  restrictOnePerIp : t.restrictOnePerIp

theorem Restricting.apply (h : Restricting t) (op : Op) : Restricting (t.apply op) :=
  ⟨h.wellFormed.apply op, (h.wellFormed.restrictOnePerIp_apply op).trans h.restrictOnePerIp⟩

/-- A call keeps the property exactly if it meets the condition. -/
theorem OnePerIp.apply_iff (h : t.OnePerIp) (ht : Restricting t) (op : Op) :
    (t.apply op).OnePerIp ↔ t.KeepsIps op := by
  obtain ⟨hwf, hr⟩ := ht
  cases op with
  | heardFrom id endpoint version rttMs now => exact h.heardFrom_iff hwf hr ..
  | queriedBy id endpoint now =>
    refine iff_of_true ?_ trivial
    rw [RoutingTable.apply, queriedBy]
    cases t.locate endpoint with
    | none => exact h
    | some found =>
      dsimp only
      split_ifs
      · exact h
      · exact h.updateAt endpoint fun _ => rfl
  | failed endpoint now => exact h.failed_iff hwf endpoint now
  | markPinged endpoint now => exact iff_of_true (h.updateAt endpoint fun _ => rfl) trivial
  | touchBucket index now => exact iff_of_true (h.touchBucket index now) trivial
  | rebuild newSelf now =>
    have hempty : OnePerIp { t with self := newSelf, buckets := [{ lastChanged := now }] } := by
      simp [OnePerIp, allNodes, publicIps]
    refine iff_of_true (hwf.rebuild newSelf now (P := fun u => u.restrictOnePerIp ∧ u.OnePerIp)
      ⟨hr, hempty⟩ fun u n hu hP => ⟨?_, hP.2.insert hu hP.1 n now⟩).2.2 trivial
    rw [(hu.settings_insert _ _).2]
    exact hP.1

/-- In a table that is to have one node per public address, no two nodes of the
    main table ever share one exactly if every call meets the condition. -/
theorem onePerIp_iff (self : NodeId) (ops : List Op) :
    (∀ p, p <+: ops → ((new self).run p).OnePerIp) ↔
      ∀ p op, p ++ [op] <+: ops → ((new self).run p).KeepsIps op :=
  forall_prefix_iff (I := Restricting) ⟨wellFormed_new self true, rfl⟩
    (by simp [OnePerIp, allNodes, publicIps, new]) (fun _ op h => h.apply op)
    (fun _ op h hone => hone.apply_iff h op) ops

end Dht.RoutingTable
