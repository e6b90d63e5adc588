import DhtCore.RoutingTable.Newcomers
import DhtCore.RoutingTable.Endpoints

/-!
# Re-keying

`rebuild` puts the nodes of a table into an empty one around a new own ID, one after the
other. A node is left out of the main table only where its bucket is full and cannot be
split (`Settled`), which it then stays, whatever else is put in. So each node of the main
table is there again, or its bucket has `K` nodes (`rebuild_keeps`): unless its address was
in use, which it is not where no two nodes share a public one.
-/

namespace Dht.RoutingTable

open List Replacing

variable {t u : RoutingTable} {id : NodeId} {n : RoutingNode} {now : ℤ}
  {i : ℕ} {b : Bucket}

/-! ## Full buckets -/

theorem Settled.split (h : Settled t id) (hlt : t.buckets.length < NodeId.Bits) :
    Settled t.split id := by
  obtain ⟨hfull, hsplit⟩ := h
  -- It is not the last bucket, so that it stays as it is.
  have hne : t.bucketIndexFor id ≠ t.buckets.length - 1 := by
    simpa [canSplit, hlt] using hsplit
  have hle : t.bucketIndexFor id < t.buckets.length - 1 :=
    (Nat.min_le_right _ _).lt_of_ne hne
  have hindex : t.split.bucketIndexFor id = t.bucketIndexFor id := by
    rw [bucketIndexFor, bucketIndexFor, length_split] at *
    have hself : t.split.self = t.self := rfl
    rw [hself]
    omega
  have hbucket : t.split.bucketAt (t.bucketIndexFor id) = t.bucketAt (t.bucketIndexFor id) := by
    rw [bucketAt, bucketAt, RoutingTable.split, List.getD_eq_getElem?_getD,
      List.getD_eq_getElem?_getD, List.getElem?_append_left (by rw [List.length_set]; omega),
      List.getElem?_set_ne hne.symm]
  refine ⟨by rwa [hindex, hbucket], ?_⟩
  rw [hindex, canSplit, length_split]
  simp only [Bool.and_eq_false_iff, decide_eq_false_iff_not]
  exact .inl (by omega)

theorem Splits.settled (hs : Splits t u) (h : Settled t id) : Settled u id := by
  induction hs with
  | refl => exact h
  | step hlt _ ih => exact ih (h.split hlt)

theorem bucketAt_setBucket (hi : i < t.buckets.length) (k : ℕ) :
    (t.setBucket i b).bucketAt k = if k = i then b else t.bucketAt k := by
  rw [bucketAt, bucketAt, RoutingTable.setBucket, List.getD_eq_getElem?_getD,
    List.getD_eq_getElem?_getD]
  split_ifs with hk
  · rw [hk, List.getElem?_set_self hi, Option.getD_some]
  · rw [List.getElem?_set_ne (Ne.symm hk)]

/-- A bucket may be replaced by one of as many nodes. -/
theorem Settled.setBucket (h : Settled t id) (hi : i < t.buckets.length)
    (hb : (t.bucketAt i).nodes.length ≤ b.nodes.length) : Settled (t.setBucket i b) id := by
  refine ⟨?_, by simpa [canSplit] using h.2⟩
  rw [bucketIndexFor_setBucket, bucketAt_setBucket hi]
  split_ifs with hindex
  · exact (hindex ▸ h.1).trans hb
  · exact h.1

/-- A node is in the main table, or its bucket is full for good. -/
def Fits (t : RoutingTable) (n : RoutingNode) : Prop := n ∈ t.allNodes ∨ Settled t n.id

/-- What is put in displaces only nodes of full buckets. -/
theorem Fits.insert (h : Fits t n) (hwf : WellFormed t) (node : RoutingNode) (now : ℤ) :
    Fits (t.insert node now).1 n := by
  rw [RoutingTable.insert]
  split_ifs with hself hip
  · exact h
  · exact h
  obtain ⟨⟨t', r⟩, hres⟩ := Option.isSome_iff_exists.1 (insertLoop_isSome t node now)
  rw [Option.get_of_eq_some _ hres]
  obtain ⟨s, hs, hcases⟩ := insertLoop_settled hres
  obtain ⟨hwf', -⟩ := hs.wellFormed hwf
  have hi := bucketIndexFor_lt hwf'.one_le node.id
  rcases h with hn | hsettled
  · have hns := hs.mem_allNodes hn
    rcases hcases with ⟨-, -, rfl⟩ | ⟨hfull, ⟨bad, hfind, -, rfl⟩ | ⟨-, rfl⟩⟩
    · exact .inl (mem_allNodes_setBucket hns (List.mem_append_left _))
    · obtain ⟨hlt, -⟩ := List.findIdx?_eq_some_iff_getElem.1 hfind
      have hget := List.getElem?_eq_getElem hlt
      by_cases hnode : n = (s.bucketAt (s.bucketIndexFor node.id)).nodes[bad]
      · -- It was displaced itself, from the bucket of the newcomer.
        have hindex : s.bucketIndexFor n.id = s.bucketIndexFor node.id :=
          (hwf'.bucketOk _ _ (hwf'.getElem?_bucketIndexFor node.id)).index n
            (List.mem_append_left _ (hnode ▸ List.getElem_mem hlt))
        have hsettled : Settled s n.id := by
          rw [Settled, hindex]
          exact hfull
        exact .inr (hsettled.setBucket hi (by simp))
      · exact .inl (mem_allNodes_setBucket hns fun h => mem_set_of_ne h hget hnode)
    · exact .inl (mem_allNodes_setBucket hns fun h => h)
  · have hss := hs.settled hsettled
    rcases hcases with ⟨hroom, -, rfl⟩ | ⟨hfull, ⟨bad, hfind, -, rfl⟩ | ⟨-, rfl⟩⟩
    · exact .inr (hss.setBucket hi (by simp))
    · exact .inr (hss.setBucket hi (by simp))
    · exact .inr (hss.setBucket hi le_rfl)

/-- A node whose address is not in use fits. -/
theorem fits_insert (hwf : WellFormed t) {node : RoutingNode} (hself : node.id ≠ t.self)
    (hfree : t.restrictOnePerIp = false ∨ isLocalAddress node.endpoint.address = true ∨
      t.ipInUse node.endpoint.address = false) (now : ℤ) : Fits (t.insert node now).1 node := by
  rw [RoutingTable.insert, if_neg hself, if_neg (by rcases hfree with h | h | h <;> simp [h])]
  obtain ⟨⟨t', r⟩, hres⟩ := Option.isSome_iff_exists.1 (insertLoop_isSome t node now)
  rw [Option.get_of_eq_some _ hres]
  obtain ⟨s, hs, hcases⟩ := insertLoop_settled hres
  obtain ⟨hwf', -⟩ := hs.wellFormed hwf
  have hi := bucketIndexFor_lt hwf'.one_le node.id
  have hmem {b : Bucket} (hb : node ∈ b.nodes) :
      node ∈ (s.setBucket (s.bucketIndexFor node.id) b).allNodes :=
    List.mem_flatMap.2 ⟨b, List.mem_of_getElem? (List.getElem?_set_self hi), hb⟩
  rcases hcases with ⟨-, -, rfl⟩ | ⟨hfull, ⟨bad, hfind, -, rfl⟩ | ⟨-, rfl⟩⟩
  · exact .inl (hmem (List.mem_append_right _ (List.mem_singleton_self _)))
  · obtain ⟨hlt, -⟩ := List.findIdx?_eq_some_iff_getElem.1 hfind
    exact .inl (hmem (List.mem_set hlt _))
  · exact .inr (hfull.setBucket hi le_rfl)

/-! ## Putting in one after the other -/

/-- What fits goes on fitting while others are put in. -/
theorem Fits.foldl_insert (h : Fits t n) (hwf : WellFormed t) (l : List RoutingNode)
    (hnodup : (l.map (·.id)).Nodup) (hnew : ∀ m ∈ l, m.id ∉ t.entries.map (·.id)) :
    Fits (l.foldl (fun t m => (t.insert m now).1) t) n :=
  (WellFormed.foldl_insert now (P := fun u => Fits u n) (fun _ m hu hfits => hfits.insert hu m now)
    l hwf h hnodup hnew).2

/-- Two nodes do not share a public address. -/
def Distinct (a b : RoutingNode) : Prop :=
  isLocalAddress b.endpoint.address = true ∨ a.endpoint.address ≠ b.endpoint.address

theorem pairwise_distinct : ∀ {l : List RoutingNode}, (publicIps l).Nodup → l.Pairwise Distinct
  | [], _ => .nil
  | n :: l, h => by
    rw [nodup_publicIps_cons] at h
    refine List.pairwise_cons.2 ⟨fun m hm => ?_, pairwise_distinct h.1⟩
    by_cases heq : n.endpoint.address = m.endpoint.address
    · rw [Distinct, ← heq]
      exact .inl (h.2.resolve_right fun hne => hne m hm heq.symm)
    · exact .inr heq

/-- No address of the nodes of a list is known to the table, or it does not matter. -/
def Admits (t : RoutingTable) (l : List RoutingNode) : Prop :=
  t.restrictOnePerIp = false ∨
    l.Pairwise Distinct ∧ ∀ m ∈ t.entries, ∀ n ∈ l, Distinct m n

theorem Admits.insert {l : List RoutingNode} (h : Admits t (n :: l)) (hwf : WellFormed t)
    (now : ℤ) : Admits (t.insert n now).1 l := by
  refine h.imp (hwf.settings_insert n now).2.trans fun ⟨hpairwise, hfree⟩ => ?_
  rw [List.pairwise_cons] at hpairwise
  refine ⟨hpairwise.2, fun m hm m' hm' => ?_⟩
  rcases List.mem_cons.1 ((hwf.entries_insert n now).subset hm) with rfl | hm
  · exact hpairwise.1 m' hm'
  · exact hfree m hm m' (List.mem_cons_of_mem _ hm')

theorem Admits.free {l : List RoutingNode} (h : Admits t (n :: l)) :
    t.restrictOnePerIp = false ∨ isLocalAddress n.endpoint.address = true ∨
      t.ipInUse n.endpoint.address = false := by
  refine h.imp_right fun ⟨_, hfree⟩ => or_iff_not_imp_left.2 fun hlocal => ?_
  rw [ipInUse, List.any_eq_false]
  intro m hm
  have hne := (hfree m (mem_entries.2 (.inl hm)) n List.mem_cons_self).resolve_left hlocal
  simpa using hne

/-- Of nodes that do not share public addresses, all fit. -/
theorem fits_foldl_insert (now : ℤ) : ∀ {l : List RoutingNode} {t : RoutingTable}, WellFormed t →
    (l.map (·.id)).Nodup → (∀ n ∈ l, n.id ∉ t.entries.map (·.id)) → Admits t l →
    ∀ n ∈ l, n.id ≠ t.self → Fits (l.foldl (fun t m => (t.insert m now).1) t) n
  | [], _, _, _, _, _ => by simp
  | m :: l, t, hwf, hnodup, hnew, hadmits => by
    rw [List.map_cons, List.nodup_cons] at hnodup
    obtain ⟨hwf', hself', hids⟩ := hwf.insert (hnew m List.mem_cons_self) now
    have hnew' : ∀ n ∈ l, n.id ∉ (t.insert m now).1.entries.map (·.id) := fun n hn hin => by
      obtain ⟨n', hn', he⟩ := List.mem_map.1 hin
      rcases hids n' hn' with he' | hin'
      · exact hnodup.1 (he' ▸ he ▸ List.mem_map_of_mem hn)
      · exact hnew n (List.mem_cons_of_mem _ hn) (he ▸ hin')
    intro n hn hself
    rw [List.foldl_cons]
    rcases List.mem_cons.1 hn with rfl | hn
    · exact (fits_insert hwf hself hadmits.free now).foldl_insert hwf' l hnodup.2 hnew'
    · exact fits_foldl_insert now hwf' hnodup.2 hnew' (hadmits.insert hwf now) n hn
        (hself'.symm ▸ hself)

/-! ## Re-keying -/

/-- All nodes of the main table fit into the one around the new own ID. -/
theorem WellFormed.fits_rebuild (h : WellFormed t) (hip : t.restrictOnePerIp = false ∨ t.OnePerIp)
    (newSelf : NodeId) (now : ℤ) (hn : n ∈ t.allNodes) (hself : n.id ≠ newSelf) :
    Fits (t.rebuild newSelf now) n := by
  let fresh : RoutingTable := { t with self := newSelf, buckets := [{ lastChanged := now }] }
  have hfresh : WellFormed fresh := wellFormed_emptied t newSelf now
  have hempty : fresh.entries = [] := rfl
  have hperm : t.allNodes ++ t.allReplacements ~ t.entries :=
    List.flatMap_append_perm t.buckets (·.nodes) (·.replacements)
  have hnodup := (hperm.map (·.id)).nodup_iff.2 h.nodup
  rw [List.map_append, List.nodup_append] at hnodup
  have hadmits : Admits fresh t.allNodes :=
    hip.imp_right fun hone => ⟨pairwise_distinct hone, by simp [hempty]⟩
  have hfits := fits_foldl_insert now hfresh hnodup.1 (by simp [hempty]) hadmits n hn hself
  -- The nodes of the caches come after those of the main table.
  obtain ⟨hwf, -⟩ := WellFormed.foldl_insert now (P := fun _ => True) (fun _ _ _ h => h) _ hfresh
    trivial hnodup.1 (by simp [hempty])
  have hsub := hfresh.entries_foldl_insert now t.allNodes hnodup.1 (by simp [hempty])
  rw [hempty, List.append_nil] at hsub
  rw [RoutingTable.rebuild, List.foldl_append]
  refine hfits.foldl_insert hwf t.allReplacements hnodup.2.1 fun m hm hin => ?_
  obtain ⟨m', hm', hid⟩ := List.mem_map.1 hin
  exact hnodup.2.2 _ (List.mem_map_of_mem (hsub.subset hm')) _ (List.mem_map_of_mem hm) hid

theorem WellFormed.length_of_settled (h : WellFormed t) (hsettled : Settled t id) :
    (t.bucketAt (t.bucketIndexFor id)).nodes.length = K :=
  le_antisymm (h.bucketOk _ _ (h.getElem?_bucketIndexFor id)).nodes_le hsettled.1

theorem restrictOnePerIp_run (self : NodeId) (restrictOnePerIp : Bool) (ops : List Op) :
    ((new self restrictOnePerIp).run ops).restrictOnePerIp = restrictOnePerIp :=
  (foldl_invariant (P := fun t => WellFormed t ∧ t.restrictOnePerIp = restrictOnePerIp)
    ⟨wellFormed_new self restrictOnePerIp, rfl⟩
    (fun _ op h => ⟨h.1.apply op, (h.1.restrictOnePerIp_apply op).trans h.2⟩) ops).2

/-- Re-keying to a new own ID keeps every node of the main table but that one, unless the bucket
    for it is full; no node is in the table twice, and none is new. -/
theorem rebuild_keeps (self : NodeId) (restrictOnePerIp : Bool) (ops : List Op)
    (hip : restrictOnePerIp = false ∨ ((new self restrictOnePerIp).run ops).OnePerIp)
    (newSelf : NodeId) (now : ℤ) :
    let t := (new self restrictOnePerIp).run ops
    let u := t.rebuild newSelf now
    u.self = newSelf ∧
    (∀ n ∈ t.allNodes, n.id ≠ newSelf →
      n ∈ u.allNodes ∨ (u.bucketAt (u.bucketIndexFor n.id)).nodes.length = K) ∧
    (u.entries.map (·.id)).Nodup ∧ ∀ n ∈ u.entries, n ∈ t.entries := by
  intro t u
  have hwf : WellFormed t := (wellFormed_run self restrictOnePerIp ops).1
  have hrebuilt : WellFormed u := hwf.apply (.rebuild newSelf now)
  have hip' : t.restrictOnePerIp = false ∨ t.OnePerIp :=
    hip.imp_left (restrictOnePerIp_run self restrictOnePerIp ops).trans
  have hself : u.self = newSelf := (hwf.rebuild newSelf now (P := fun u => u.self = newSelf) rfl
    fun u n hu heq => (hu.settings_insert n now).1.trans heq).2
  refine ⟨hself, fun n hn hne => ?_, hrebuilt.nodup, (hwf.entries_rebuild newSelf now).subset⟩
  exact (hwf.fits_rebuild hip' newSelf now hn hne).imp_right hrebuilt.length_of_settled

/-- Nine nodes that are near the own ID, and of which the bucket has no room for all once
    they are far from it. -/
theorem rebuild_keeps_nine :
    let id (x : UInt8) : NodeId := ⟨x :: List.replicate 19 0, rfl⟩
    let ops : List Op := (List.range 9).map fun i => .heardFrom (id (0x81 + .ofNat i))
      ⟨.ipv4 (HostAddress.dotted 8 8 8 (.ofNat 8 (i + 1))), 6881⟩ [] 10 (i + 1)
    let t := (new (id 0x80)).run ops
    let u := t.rebuild (id 0) 9000
    u.self = id 0 ∧
    (∀ n ∈ t.allNodes, n.id ≠ id 0 →
      n ∈ u.allNodes ∨ (u.bucketAt (u.bucketIndexFor n.id)).nodes.length = K) ∧
    (u.entries.map (·.id)).Nodup ∧ ∀ n ∈ u.entries, n ∈ t.entries := by
  intro id ops
  exact rebuild_keeps (id 0x80) true ops (.inr (by decide +kernel)) (id 0) 9000

end Dht.RoutingTable
