import DhtCore.RoutingTable.Structure

/-!
# One entry per endpoint

Which identities the table holds: the `pairs` of an ID and an endpoint, of the
main table and the caches together. A call brings in at most one, the one that
was heard from (`WellFormed.mem_pairs_apply`); promotions, splits and `rebuild`
only move or drop what is there.

No two entries of the table are to have the same endpoint (`Apart`), so that a
call by endpoint is about the one entry there. `heardFrom` purges the caches of
the endpoint it is about to insert, but not when it *moves* a node that has
stopped answering to that endpoint. What the cache still holds may be promoted
later, into a main table that has the endpoint already
(`exists_not_nodup_endpoints`). In runs in which no node moves to an endpoint
that a cache holds (`FindsClear`), the property holds throughout
(`nodup_endpoints_run`).
-/

namespace Dht.RoutingTable

open List Replacing

variable {t : RoutingTable} {i : ℕ} {b : Bucket} {n : RoutingNode} {now : ℤ}

/-- An ID at an endpoint: what the table says of who is where. -/
def pair (n : RoutingNode) : NodeId × Endpoint := (n.id, n.endpoint)

/-- The pairs of the main table and the caches. -/
def pairs (t : RoutingTable) : List (NodeId × Endpoint) := t.entries.map pair

/-- No two entries have the same endpoint. -/
def Apart (t : RoutingTable) : Prop := (t.pairs.map Prod.snd).Nodup

/-- What a call must not do: move a node that has stopped answering to an
    endpoint that a cache holds. -/
def FindsClear (t : RoutingTable) : Op → Prop
  | .heardFrom id endpoint _ _ _ =>
    id ≠ t.self → endpoint.isValid →
      (∃ n ∈ t.allNodes, n.id = id ∧ n.endpoint ≠ endpoint ∧ BadFailCount ≤ n.failCount) →
        ∀ m ∈ t.allReplacements, m.endpoint ≠ endpoint
  | _ => True

instance (t : RoutingTable) (op : Op) : Decidable (t.FindsClear op) := by
  cases op <;> unfold FindsClear <;> infer_instance

/-- Two nodes of one endpoint: one moved there, the other was cached there and
    promoted when a node of its own bucket timed out. -/
theorem exists_not_nodup_endpoints : ∃ (self : NodeId) (ops : List Op), ∀ restrictOnePerIp,
    ¬(((new self restrictOnePerIp).run ops).allNodes.map (·.endpoint)).Nodup := by
  let id (x : UInt8) : NodeId := ⟨x :: List.replicate 19 0, rfl⟩
  let host (x : BitVec 8) : Endpoint := ⟨.ipv4 (HostAddress.dotted 8 8 8 x), 6881⟩
  let heard (x : UInt8) (y : BitVec 8) (now : ℤ) : Op := .heardFrom (id x) (host y) [] 10 now
  -- Nine nodes for the first bucket, of which the last is cached, and one for the second.
  refine ⟨id 0, [heard 0x80 1 1, heard 0x81 2 2, heard 0x82 3 3, heard 0x83 4 4, heard 0x84 5 5,
    heard 0x85 6 6, heard 0x86 7 7, heard 0x87 8 8, heard 0x88 9 9, heard 0x40 10 10,
    .failed (host 10) 11, .failed (host 10) 12, heard 0x40 9 13,
    .failed (host 1) 14, .failed (host 1) 15], ?_⟩
  decide +kernel

/-! ## The entry at an endpoint -/

/-- If no two nodes of the main table have the same endpoint, `locate` finds each. -/
theorem exists_locate (h : (t.allNodes.map (·.endpoint)).Nodup) (hn : n ∈ t.allNodes) :
    ∃ i j, t.locate n.endpoint = some (i, j, n) := by
  cases hloc : t.locate n.endpoint with
  | none => exact absurd rfl (locate_eq_none hloc n hn)
  | some found =>
    obtain ⟨i, j, m⟩ := found
    obtain ⟨hi, hj, he⟩ := locate_eq_some hloc
    have hm : m ∈ t.allNodes := List.mem_flatMap.2
        ⟨_, List.mem_of_getElem? hi, List.mem_of_getElem? hj⟩
    obtain rfl : m = n := List.inj_on_of_nodup_map h hm hn he
    exact ⟨i, j, rfl⟩

theorem map_snd_pairs (t : RoutingTable) : t.pairs.map Prod.snd = t.entries.map (·.endpoint) := by
  rw [pairs, List.map_map]
  rfl

/-- The entries are the nodes of the main table and of the caches. -/
theorem mem_entries : n ∈ t.entries ↔ n ∈ t.allNodes ∨ n ∈ t.allReplacements := by
  simp only [entries, allNodes, allReplacements, Bucket.entries, List.mem_flatMap, List.mem_append]
  grind

theorem Apart.nodup_endpoints (h : t.Apart) : (t.allNodes.map (·.endpoint)).Nodup := by
  rw [Apart, map_snd_pairs] at h
  refine h.sublist (Sublist.map _ ?_)
  exact flatMap_sublist (fun _ => List.sublist_append_left _ _) t.buckets

/-- Dropping pairs keeps endpoints apart. -/
theorem Apart.of_subperm {u : RoutingTable} (h : t.Apart) (hu : u.pairs <+~ t.pairs) : u.Apart :=
  nodup_of_subperm (subperm_map Prod.snd hu) h

theorem Apart.of_eq {u : RoutingTable} (h : t.Apart) (hu : u.pairs = t.pairs) : u.Apart := by
  rwa [Apart, hu]

/-- So does adding one at a new endpoint. -/
theorem Apart.of_subperm_cons {u : RoutingTable} (h : t.Apart) {id : NodeId} {endpoint : Endpoint}
    (hnew : ∀ n ∈ t.entries, n.endpoint ≠ endpoint) (hu : u.pairs <+~ (id, endpoint) :: t.pairs) :
    u.Apart := by
  refine nodup_of_subperm (subperm_map Prod.snd hu) ?_
  rw [List.map_cons, List.nodup_cons, map_snd_pairs]
  refine ⟨fun hin => ?_, (map_snd_pairs t) ▸ h⟩
  obtain ⟨n, hn, he⟩ := List.mem_map.1 hin
  exact hnew n hn he

/-! ## What the calls do to the pairs -/

/-- Changing one bucket changes its own pairs only. -/
theorem pairs_setBucket (extra : List (NodeId × Endpoint)) (hi : i < t.buckets.length)
    (hb : b.entries.map pair <+~ extra ++ (t.bucketAt i).entries.map pair) :
    (t.setBucket i b).pairs <+~ extra ++ t.pairs := by
  obtain ⟨rest, hperm, hset⟩ := exists_rest_flatMap Bucket.entries (getElem?_bucketAt hi)
  have hnew : (t.setBucket i b).pairs ~ b.entries.map pair ++ rest.map pair := by
    rw [← List.map_append]
    exact (hset b).map pair
  have hold : t.pairs ~ (t.bucketAt i).entries.map pair ++ rest.map pair := by
    rw [← List.map_append]
    exact hperm.map pair
  refine hnew.subperm.trans ((hb.append (Subperm.refl (rest.map pair))).trans ?_)
  rw [List.append_assoc]
  exact (hold.symm.append_left extra).subperm

/-- A change in place keeps the pairs. -/
theorem pairs_setBucket_of_eq (hi : t.buckets[i]? = some (t.bucketAt i))
    (hb : b.entries.map pair = (t.bucketAt i).entries.map pair) :
    (t.setBucket i b).pairs = t.pairs := by
  have hflat (u : RoutingTable) : u.pairs =
      (u.buckets.map fun b => b.entries.map pair).flatten := by
    rw [pairs, entries, List.map_flatMap, List.flatMap_def]
  rw [hflat, hflat, setBucket, map_set_of_eq (fun b : Bucket => b.entries.map pair) hi hb]

theorem pairs_setBucket_node {j : ℕ} {m : RoutingNode} (hi : t.buckets[i]? = some (t.bucketAt i))
    (hj : (t.bucketAt i).nodes[j]? = some n) (hm : pair m = pair n) (changed : ℤ) :
    (t.setBucket i { t.bucketAt i with
      nodes := (t.bucketAt i).nodes.set j m, lastChanged := changed }).pairs = t.pairs := by
  refine pairs_setBucket_of_eq hi ?_
  simp only [Bucket.entries, List.map_append, map_set_of_eq pair hj hm]

theorem pairs_mapReplacements (t : RoutingTable) {f : List RoutingNode → List RoutingNode}
    (hf : ∀ l, f l <+ l) : (t.mapReplacements f).pairs <+~ t.pairs := by
  refine Sublist.subperm (Sublist.map _ ?_)
  rw [entries, mapReplacements, List.flatMap_map]
  exact flatMap_sublist (fun b => (hf _).append_left b.nodes) t.buckets

/-- Nodes leaving a bucket bring in nothing. -/
theorem pairs_setBucket_filter (hi : i < t.buckets.length) (p : RoutingNode → Bool) :
    (t.setBucket i { t.bucketAt i with nodes := (t.bucketAt i).nodes.filter p }).pairs
    <+~ t.pairs := by
  refine pairs_setBucket [] hi (Sublist.subperm (Sublist.map _ ?_))
  exact List.filter_sublist.append_right _

/-- Inserting brings in at most the node. -/
theorem WellFormed.entries_insert (h : WellFormed t) (node : RoutingNode) (now : ℤ) :
    (t.insert node now).1.entries <+~ node :: t.entries := by
  have hkept : t.entries <+~ node :: t.entries := (List.sublist_cons_self _ _).subperm
  rw [RoutingTable.insert]
  split_ifs with hself hip
  · exact hkept
  · exact hkept
  · obtain ⟨⟨t', r⟩, hres⟩ := Option.isSome_iff_exists.1 (insertLoop_isSome t node now)
    rw [Option.get_of_eq_some _ hres]
    obtain ⟨s, hs, hcases⟩ := insertLoop_cases hres
    obtain ⟨hwf, -, -, hentries, -⟩ := hs.wellFormed h
    have hget := hwf.getElem?_bucketIndexFor node.id
    have hold := hwf.bucketOk _ _ hget
    obtain ⟨rest, hperm, hset⟩ := exists_rest_flatMap Bucket.entries hget
    -- Splitting moved entries about; it remains to look at the one bucket.
    have hbucket : ∀ b : Bucket,
        b.entries <+~ node :: (s.bucketAt (s.bucketIndexFor node.id)).entries →
          (s.setBucket (s.bucketIndexFor node.id) b).entries <+~ node :: t.entries := by
      intro b hb
      refine (hset b).subperm.trans ((hb.append (Subperm.refl rest)).trans ?_)
      exact ((hperm.symm.trans hentries).cons node).subperm
    rcases hcases with ⟨-, -, rfl⟩ | ⟨bad, hbad, -, rfl⟩ | ⟨-, rfl⟩
    · refine hbucket _ (Perm.subperm ?_)
      simp only [Bucket.entries, List.append_assoc, List.singleton_append]
      exact perm_middle
    · obtain ⟨hlt, -⟩ := List.findIdx?_eq_some_iff_getElem.1 hbad
      obtain ⟨_, _, hset, rfl⟩ := exists_rest (List.getElem?_eq_getElem hlt)
      refine hbucket _ (((hset node).append_right _).subperm.trans (Sublist.subperm ?_))
      exact ((List.eraseIdx_sublist _ _).append_right _).cons_cons node
    · have hsub := (cacheWith_spec _ node hold.replacements_le).2
      refine hbucket _ ((hsub.append_left _).subperm.trans (Perm.subperm ?_))
      rw [← List.append_assoc]
      exact perm_append_singleton node _

theorem WellFormed.pairs_insert (h : WellFormed t) (node : RoutingNode) (now : ℤ) :
    (t.insert node now).1.pairs <+~ pair node :: t.pairs :=
  subperm_map pair (h.entries_insert node now)

/-- Inserting one by one brings in at most what is inserted. -/
theorem WellFormed.entries_foldl_insert (h : WellFormed t) (now : ℤ) (l : List RoutingNode)
    (hnodup : (l.map (·.id)).Nodup) (hnew : ∀ n ∈ l, n.id ∉ t.entries.map (·.id)) :
    (l.foldl (fun t n => (t.insert n now).1) t).entries <+~ l ++ t.entries := by
  induction l generalizing t with
  | nil => exact Subperm.refl _
  | cons n l ih =>
    rw [List.map_cons, List.nodup_cons] at hnodup
    obtain ⟨hwf, -, hids⟩ := h.insert (hnew n List.mem_cons_self) now
    have hrest := ih hwf hnodup.2 fun m hm hin => by
      obtain ⟨n', hn', he⟩ := List.mem_map.1 hin
      rcases hids n' hn' with he' | hin'
      · exact hnodup.1 (he' ▸ he ▸ List.mem_map_of_mem hm)
      · exact hnew m (List.mem_cons_of_mem _ hm) (he ▸ hin')
    rw [List.cons_append]
    refine hrest.trans (((Subperm.refl _).append (h.entries_insert n now)).trans ?_)
    exact perm_middle.subperm

/-- Hearing from a node brings in at most the pair heard from. If it moves there,
    its old pair goes; if it is inserted, the caches were purged of it before. -/
theorem WellFormed.pairs_heardFromUnknown (h : WellFormed t) (id : NodeId) (endpoint : Endpoint)
    (version : Bytes) (rttMs now : ℤ) :
    let t' := (t.heardFromUnknown id endpoint version rttMs now).1
    t'.pairs <+~ t.pairs ∨
    (t'.pairs <+~ (id, endpoint) :: t.pairs ∧
      ∃ n ∈ t.allNodes, n.id = id ∧ BadFailCount ≤ n.failCount) ∨
    t'.pairs <+~ (id, endpoint) ::
      (t.mapReplacements (·.filter (unrelated id endpoint))).pairs := by
  have hget := h.getElem?_bucketIndexFor id
  have hi := bucketIndexFor_lt h.one_le id
  rcases heardFromUnknown_cases t id endpoint version rttMs now with
    ⟨j, n, -, hj, rfl, ⟨-, heq⟩ | ⟨hbad, m, hm, rfl, heq⟩⟩ | ⟨-, node, rfl, rfl, heq⟩
  · exact .inl (by rw [heq])
  · refine .inr (.inl ⟨?_, n, ?_, rfl, stateOf_eq_bad.1 hbad⟩)
    · rw [heq]
      refine pairs_setBucket [(n.id, m.endpoint)] hi ?_
      obtain ⟨rest, hperm, hset, -⟩ := exists_rest hj
      have hmoved := ((hset m).append_right
          (t.bucketAt (t.bucketIndexFor n.id)).replacements).map pair
      have hold := (hperm.append_right (t.bucketAt (t.bucketIndexFor n.id)).replacements).map pair
      refine hmoved.subperm.trans (Subperm.trans ?_ (hold.symm.cons _).subperm)
      rw [List.cons_append, List.map_cons, List.cons_append, List.map_cons, pair, hm]
      exact (List.sublist_cons_self _ _).cons_cons _ |>.subperm
    · exact List.mem_flatMap.2 ⟨_, List.mem_of_getElem? hget, List.mem_of_getElem? hj⟩
  · rw [heq]
    exact .inr (.inr ((h.mapReplacements fun _ => List.filter_sublist).pairs_insert node now))

/-- A timeout brings in nothing: it drops, counts or promotes. -/
theorem pairs_failed (t : RoutingTable) (endpoint : Endpoint) (now : ℤ) :
    (t.failed endpoint now).pairs <+~ t.pairs := by
  rcases failed_cases t endpoint now with ⟨-, heq⟩ | ⟨i, j, n, hloc, hcases⟩
  · rw [heq]
    exact pairs_mapReplacements t fun _ => List.filter_sublist
  · obtain ⟨hb, hj, -⟩ := locate_eq_some hloc
    have hi := (List.getElem?_eq_some_iff.1 hb).1
    -- Counting a failure moves no node.
    have hcounted : pair { n with failCount := n.failCount + 1 } = pair n := rfl
    rcases hcases with ⟨k, -, hbest, heq⟩ | ⟨-, heq | heq⟩
    · -- A replacement takes the place of the node.
      have hlt := firstBest_lt hbest
      rw [heq, show (t.bucketAt i).replacements.getD k default =
        (t.bucketAt i).replacements[k] by simp [hlt]]
      exact pairs_setBucket [] hi (subperm_map pair (promote_subperm hj hlt))
    · rw [heq]
      exact (Perm.of_eq (pairs_setBucket_node hb hj hcounted _)).subperm
    · rw [heq]
      refine pairs_setBucket [] hi (Sublist.subperm ?_)
      simp only [Bucket.entries, List.map_append, List.nil_append]
      rw [← map_set_of_eq pair hj hcounted]
      exact (List.filter_sublist.map _).append_right _

theorem pairs_updateAt (t : RoutingTable) (endpoint : Endpoint) {f : RoutingNode → RoutingNode}
    (hf : ∀ n, pair (f n) = pair n) : (t.updateAt endpoint f).pairs = t.pairs := by
  rw [updateAt]
  cases hloc : t.locate endpoint with
  | none => rfl
  | some found =>
    obtain ⟨i, j, n⟩ := found
    obtain ⟨hb, hj, -⟩ := locate_eq_some hloc
    exact pairs_setBucket_node hb hj (hf n) _

/-- Being queried changes no pair. -/
theorem pairs_queriedBy (t : RoutingTable) (id : NodeId) (endpoint : Endpoint) (now : ℤ) :
    (t.queriedBy id endpoint now).1.pairs = t.pairs := by
  rw [queriedBy]
  cases t.locate endpoint with
  | none => rfl
  | some found =>
    dsimp only
    split_ifs
    · rfl
    · exact pairs_updateAt t endpoint fun _ => rfl

theorem pairs_markPinged (t : RoutingTable) (endpoint : Endpoint) (now : ℤ) :
    (t.markPinged endpoint now).pairs = t.pairs :=
  pairs_updateAt t endpoint fun _ => rfl

theorem pairs_touchBucket (t : RoutingTable) (index now : ℤ) :
    (t.touchBucket index now).pairs = t.pairs := by
  rw [touchBucket]
  split_ifs with hindex
  · exact pairs_setBucket_of_eq (getElem?_bucketAt (by omega)) rfl
  · rfl

/-- Re-keying brings in nothing. -/
theorem WellFormed.entries_rebuild (h : WellFormed t) (newSelf : NodeId) (now : ℤ) :
    (t.rebuild newSelf now).entries <+~ t.entries := by
  have hperm : t.allNodes ++ t.allReplacements ~ t.entries :=
    List.flatMap_append_perm t.buckets (·.nodes) (·.replacements)
  have hin := (wellFormed_emptied t newSelf now).entries_foldl_insert now
    (t.allNodes ++ t.allReplacements) ((hperm.map _).nodup_iff.2 h.nodup) fun n _ => by
      simp [entries, Bucket.entries]
  refine hin.trans ?_
  simp only [entries, Bucket.entries, List.flatMap_cons, List.flatMap_nil, List.append_nil]
  exact hperm.subperm

theorem WellFormed.pairs_rebuild (h : WellFormed t) (newSelf : NodeId) (now : ℤ) :
    (t.rebuild newSelf now).pairs <+~ t.pairs :=
  subperm_map pair (h.entries_rebuild newSelf now)

/-- Hearing from a node brings in at most the pair heard from. -/
theorem WellFormed.mem_pairs_heardFrom (h : WellFormed t) (id : NodeId) (endpoint : Endpoint)
    (version : Bytes) (rttMs now : ℤ) {x : NodeId × Endpoint}
    (hx : x ∈ (t.heardFrom id endpoint version rttMs now).1.pairs) :
    x ∈ t.pairs ∨ x = (id, endpoint) := by
  have hunknown {u : RoutingTable} (hu : WellFormed u) (hsub : u.pairs <+~ t.pairs)
      (hx : x ∈ (u.heardFromUnknown id endpoint version rttMs now).1.pairs) :
      x ∈ t.pairs ∨ x = (id, endpoint) := by
    rcases hu.pairs_heardFromUnknown id endpoint version rttMs now with hin | ⟨hin, -⟩ | hin
    · exact .inl (hsub.subset (hin.subset hx))
    · exact (List.mem_cons.1 (hin.subset hx)).symm.imp_left (hsub.subset ·)
    · have hdrop := pairs_mapReplacements u fun _ =>
        List.filter_sublist (p := unrelated id endpoint)
      exact (List.mem_cons.1 (hin.subset hx)).symm.imp_left ((hdrop.trans hsub).subset ·)
  rcases heardFrom_cases t id endpoint version rttMs now with
    ⟨-, heq⟩ | ⟨-, -, ⟨i, j, n, m, hloc, -, hm, he, heq⟩ | ⟨i, j, n, hloc, -, heq⟩ | ⟨-, heq⟩⟩
  · exact .inl (heq ▸ hx)
  · obtain ⟨hb, hj, -⟩ := locate_eq_some hloc
    rw [heq, pairs_setBucket_node hb hj (Prod.ext hm he)] at hx
    exact .inl hx
  · have hi := (List.getElem?_eq_some_iff.1 (locate_eq_some hloc).1).1
    rw [heq] at hx
    exact hunknown (h.setBucket_filter hi _) (pairs_setBucket_filter hi _) hx
  · rw [heq] at hx
    exact hunknown h (Subperm.refl _) hx

/-- A call brings in at most one pair, the one that was heard from. -/
theorem WellFormed.mem_pairs_apply (h : WellFormed t) (op : Op) {x : NodeId × Endpoint}
    (hx : x ∈ (t.apply op).pairs) :
    x ∈ t.pairs ∨ ∃ version rttMs now, op = .heardFrom x.1 x.2 version rttMs now := by
  cases op with
  | heardFrom id endpoint version rttMs now =>
    rcases h.mem_pairs_heardFrom id endpoint version rttMs now hx with hx | rfl
    · exact .inl hx
    · exact .inr ⟨version, rttMs, now, rfl⟩
  | queriedBy id endpoint now => exact .inl (pairs_queriedBy t id endpoint now ▸ hx)
  | failed endpoint now => exact .inl ((pairs_failed t endpoint now).subset hx)
  | markPinged endpoint now => exact .inl (pairs_markPinged t endpoint now ▸ hx)
  | touchBucket index now => exact .inl (pairs_touchBucket t index now ▸ hx)
  | rebuild newSelf now => exact .inl ((h.pairs_rebuild newSelf now).subset hx)

theorem WellFormed.run (h : WellFormed t) (ops : List Op) : WellFormed (t.run ops) :=
  foldl_invariant h (fun _ op h => h.apply op) ops

/-- Calls bring in only pairs that were heard from. -/
theorem WellFormed.mem_pairs_run (h : WellFormed t) (ops : List Op) {x : NodeId × Endpoint}
    (hx : x ∈ (t.run ops).pairs) :
    x ∈ t.pairs ∨ ∃ version rttMs now, .heardFrom x.1 x.2 version rttMs now ∈ ops := by
  induction ops generalizing t with
  | nil => exact .inl hx
  | cons op ops ih =>
    rcases ih (h.apply op) hx with hx | ⟨version, rttMs, now, hop⟩
    · rcases h.mem_pairs_apply op hx with hx | ⟨version, rttMs, now, rfl⟩
      · exact .inl hx
      · exact .inr ⟨version, rttMs, now, List.mem_cons_self⟩
    · exact .inr ⟨version, rttMs, now, List.mem_cons_of_mem _ hop⟩

/-! ## Endpoints apart -/

/-- Hearing from a node at an endpoint new to the main table keeps endpoints apart,
    unless it moves there while a cache holds the endpoint. -/
theorem Apart.heardFromUnknown (h : t.Apart) (hwf : WellFormed t) {id : NodeId}
    {endpoint : Endpoint} (hnew : ∀ n ∈ t.allNodes, n.endpoint ≠ endpoint)
    (hclear : (∃ n ∈ t.allNodes, n.id = id ∧ BadFailCount ≤ n.failCount) →
      ∀ m ∈ t.allReplacements, m.endpoint ≠ endpoint) (version : Bytes) (rttMs now : ℤ) :
    (t.heardFromUnknown id endpoint version rttMs now).1.Apart := by
  rcases hwf.pairs_heardFromUnknown id endpoint version rttMs now with hsub | ⟨hsub, hbad⟩ | hsub
  · exact h.of_subperm hsub
  · refine h.of_subperm_cons (fun n hn => ?_) hsub
    exact (mem_entries.1 hn).elim (hnew n) (hclear hbad n)
  · have hdrop : (t.mapReplacements (·.filter (unrelated id endpoint))).Apart :=
      h.of_subperm (pairs_mapReplacements t fun _ => List.filter_sublist)
    refine hdrop.of_subperm_cons (fun n hn => ?_) hsub
    rcases mem_entries.1 hn with hn | hn
    · rw [allNodes_mapReplacements] at hn
      exact hnew n hn
    · simp only [allReplacements, mapReplacements, List.flatMap_map, List.mem_flatMap,
        List.mem_filter, unrelated, decide_eq_true_eq, not_or] at hn
      obtain ⟨_, -, -, hne, -⟩ := hn
      exact hne

/-- Without the node at an endpoint, no entry has the endpoint. -/
theorem Apart.forget (h : t.Apart) {endpoint : Endpoint} {j : ℕ}
    (hloc : t.locate endpoint = some (i, j, n)) :
    ∀ m ∈ (t.forget i endpoint).entries, m.endpoint ≠ endpoint := by
  obtain ⟨hb, hj, rfl⟩ := locate_eq_some hloc
  obtain ⟨rest, hperm, hset⟩ := exists_rest_flatMap Bucket.entries hb
  intro m hm he
  have hnodup := (hperm.map (·.endpoint)).nodup_iff.1 (map_snd_pairs t ▸ h)
  obtain ⟨rest', hperm', -, -⟩ := exists_rest hj
  -- The node is one entry; any other one at the endpoint would be a second.
  have hothers : ∀ x ∈ (t.bucketAt i).replacements ++ rest, x.endpoint ≠ n.endpoint := by
    have hall : (t.bucketAt i).entries ++ rest ~
        n :: (rest' ++ ((t.bucketAt i).replacements ++ rest)) := by
      rw [Bucket.entries, List.append_assoc]
      exact hperm'.append_right _
    have hcons := (hall.map (·.endpoint)).nodup_iff.1 hnodup
    rw [List.map_cons, List.nodup_cons] at hcons
    exact fun x hx hxe => hcons.1 (hxe ▸ List.mem_map_of_mem (List.mem_append_right _ hx))
  have hmem := (hset _).mem_iff.1 hm
  simp only [Bucket.entries, List.mem_append, List.mem_filter, decide_eq_true_eq] at hmem
  rcases hmem with (⟨-, hne⟩ | hr) | hr
  · exact hne he
  · exact hothers m (List.mem_append_left _ hr) he
  · exact hothers m (List.mem_append_right _ hr) he

theorem Apart.heardFrom (h : t.Apart) (hwf : WellFormed t) {id : NodeId} {endpoint : Endpoint}
    {version : Bytes} {rttMs : ℤ} (hclear : t.FindsClear
      (.heardFrom id endpoint version rttMs now)) :
    (t.heardFrom id endpoint version rttMs now).1.Apart := by
  rcases heardFrom_cases t id endpoint version rttMs now with
    ⟨-, heq⟩ | ⟨hself, hvalid, ⟨i, j, n, m, hloc, -, hm, he, heq⟩ | ⟨i, j, n, hloc, -, heq⟩ |
      ⟨hloc, heq⟩⟩
  · rwa [heq]
  · obtain ⟨hb, hj, -⟩ := locate_eq_some hloc
    rw [heq]
    exact h.of_eq (pairs_setBucket_node hb hj (Prod.ext hm he) now)
  · have hi := (List.getElem?_eq_some_iff.1 (locate_eq_some hloc).1).1
    have hgone := h.forget hloc
    rw [heq]
    refine (h.of_subperm (pairs_setBucket_filter hi _)).heardFromUnknown (hwf.setBucket_filter hi _)
      (fun m hm => hgone m (mem_entries.2 (.inl hm))) (fun _ m hm => ?_) version rttMs now
    exact hgone m (mem_entries.2 (.inr hm))
  · rw [heq]
    refine h.heardFromUnknown hwf (locate_eq_none hloc) (fun hbad => ?_) version rttMs now
    obtain ⟨n, hn, hid, hfail⟩ := hbad
    exact hclear hself hvalid ⟨n, hn, hid, locate_eq_none hloc n hn, hfail⟩

/-- A call that moves no node to an endpoint that a cache holds keeps endpoints apart. -/
theorem Apart.apply (h : t.Apart) (hwf : WellFormed t) {op : Op} (hclear : t.FindsClear op) :
    (t.apply op).Apart := by
  cases op with
  | heardFrom id endpoint version rttMs now => exact h.heardFrom hwf hclear
  | queriedBy id endpoint now => exact h.of_eq (pairs_queriedBy t id endpoint now)
  | failed endpoint now => exact h.of_subperm (pairs_failed t endpoint now)
  | markPinged endpoint now => exact h.of_eq (pairs_markPinged t endpoint now)
  | touchBucket index now => exact h.of_eq (pairs_touchBucket t index now)
  | rebuild newSelf now => exact h.of_subperm (hwf.pairs_rebuild newSelf now)

/-- In a run in which no node that has stopped answering moves to an endpoint that
    a cache holds, no two nodes of the main table ever have the same endpoint, and
    `locate` finds each at its own. -/
theorem nodup_endpoints_run (self : NodeId) (restrictOnePerIp : Bool) (ops : List Op)
    (hclear : ∀ p op, p ++ [op] <+: ops → ((new self restrictOnePerIp).run p).FindsClear op) :
    ∀ p, p <+: ops →
      (((new self restrictOnePerIp).run p).allNodes.map (·.endpoint)).Nodup ∧
      ∀ n ∈ ((new self restrictOnePerIp).run p).allNodes,
        ∃ i j, ((new self restrictOnePerIp).run p).locate n.endpoint = some (i, j, n) := by
  intro p hp
  have hrun : WellFormed ((new self restrictOnePerIp).run p) ∧
      ((new self restrictOnePerIp).run p).Apart :=
    forall_prefix_of_step (P := fun t => WellFormed t ∧ t.Apart)
      ⟨wellFormed_new self restrictOnePerIp, by simp [Apart, pairs, entries, new, Bucket.entries]⟩
      (fun _ op h hop => ⟨h.1.apply op, h.2.apply h.1 hop⟩) hclear hp
  have hnodup := hrun.2.nodup_endpoints
  exact ⟨hnodup, fun n hn => exists_locate hnodup hn⟩

/-- A node that moves, with nothing at its new endpoint. -/
theorem nodup_endpoints_run_moved :
    let node : NodeId := ⟨0x80 :: List.replicate 19 0, rfl⟩
    let host (x : BitVec 8) : Endpoint := ⟨.ipv4 (HostAddress.dotted 8 8 8 x), 6881⟩
    let ops : List Op := [.heardFrom node (host 1) [] 10 1, .failed (host 1) 2, .failed (host 1) 3,
      .heardFrom node (host 2) [] 10 4]
    let t := (new ⟨List.replicate 20 0, rfl⟩ true).run ops
    (t.allNodes.map (·.endpoint)).Nodup ∧
      ∀ n ∈ t.allNodes, ∃ i j, t.locate n.endpoint = some (i, j, n) := by
  intro node host ops t
  refine nodup_endpoints_run _ _ ops (forall_prefix_iff_getElem.2 ?_) ops (List.prefix_refl _)
  decide +kernel

end Dht.RoutingTable
