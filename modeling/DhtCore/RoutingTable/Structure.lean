import DhtCore.Lib.Replacing
import DhtCore.RoutingTable.Basic

/-!
# The structure of the routing table

The invariant of the table (`WellFormed`): it has between one and
`NodeId.Bits` buckets, none with more than `K` nodes or `K` replacements, every
entry lies in the bucket of its ID, no entry has the own ID, and no ID occurs
twice.

Every call keeps it (`WellFormed.apply`), so that it holds in every state of
every run (`wellFormed_run`). A bucket changes in place (`setBucket`), or the
last one splits (`split`); what a call does to the table is thus a change of one
bucket (`WellFormed.setBucket`), and the entries of the other buckets are a rest
it does not touch.
-/

namespace Dht.RoutingTable

open List Replacing

variable {t : RoutingTable} {i : ℕ} {b : Bucket} {n : RoutingNode} {now : ℤ}

/-- The nodes and the replacements of the table together. -/
def entries (t : RoutingTable) : List RoutingNode := t.buckets.flatMap Bucket.entries

/-- A bucket of index `i` as it must be: within its bounds, its entries in their
    place, none of them the table's own node. -/
structure BucketOk (t : RoutingTable) (i : ℕ) (b : Bucket) : Prop where
  nodes_le : b.nodes.length ≤ K
  replacements_le : b.replacements.length ≤ K
  index : ∀ n ∈ b.entries, t.bucketIndexFor n.id = i
  ne_self : ∀ n ∈ b.entries, n.id ≠ t.self

/-- The invariant of the routing table. -/
structure WellFormed (t : RoutingTable) : Prop where
  one_le : 1 ≤ t.buckets.length
  le_bits : t.buckets.length ≤ NodeId.Bits
  bucketOk : ∀ i b, t.buckets[i]? = some b → BucketOk t i b
  nodup : (t.entries.map (·.id)).Nodup

theorem wellFormed_new (self : NodeId) (restrictOnePerIp : Bool) :
    WellFormed (new self restrictOnePerIp) where
  one_le := le_rfl
  le_bits := show 1 ≤ 160 by omega
  bucketOk i b h := by
    simp only [new, List.getElem?_singleton, Option.ite_none_right_eq_some, Option.some.injEq] at h
    obtain ⟨rfl, rfl⟩ := h
    exact ⟨Nat.zero_le _, Nat.zero_le _, fun n hn => absurd hn List.not_mem_nil,
      fun n hn => absurd hn List.not_mem_nil⟩
  nodup := by simp [entries, new, Bucket.entries]

/-! ## Positions -/

theorem bucketIndexFor_lt (h : 1 ≤ t.buckets.length) (id : NodeId) :
    t.bucketIndexFor id < t.buckets.length := by
  have := Nat.min_le_right (NodeId.commonPrefixLength t.self id) (t.buckets.length - 1)
  rw [bucketIndexFor]
  omega

theorem getElem?_bucketAt (h : i < t.buckets.length) : t.buckets[i]? = some (t.bucketAt i) := by
  simp [bucketAt, h]

theorem WellFormed.getElem?_bucketIndexFor (h : WellFormed t) (id : NodeId) :
    t.buckets[t.bucketIndexFor id]? = some (t.bucketAt (t.bucketIndexFor id)) :=
  getElem?_bucketAt (bucketIndexFor_lt h.one_le id)

theorem locateFrom_spec {endpoint : Endpoint} : ∀ {i : ℕ} {bs : List Bucket},
    (∀ {k j n}, locateFrom endpoint i bs = some (k, j, n) →
      ∃ m b, k = i + m ∧ bs[m]? = some b ∧ b.nodes[j]? = some n ∧ n.endpoint = endpoint) ∧
    (locateFrom endpoint i bs = none → ∀ n ∈ bs.flatMap (·.nodes), n.endpoint ≠ endpoint)
  | i, [] => by simp [locateFrom]
  | i, b :: bs => by
    obtain ⟨hsome, hnone⟩ := @locateFrom_spec endpoint (i + 1) bs
    rw [locateFrom]
    cases hf : b.nodes.findIdx? (·.endpoint = endpoint) with
    | some j =>
      obtain ⟨hj, hp, _⟩ := List.findIdx?_eq_some_iff_getElem.1 hf
      refine ⟨fun {k j' n} h => ?_, fun h => by simp at h⟩
      simp only [Option.some.injEq, Prod.mk.injEq] at h
      obtain ⟨rfl, rfl, rfl⟩ := h
      exact ⟨0, b, rfl, rfl, by simp [hj], by simpa [hj] using hp⟩
    | none =>
      rw [List.findIdx?_eq_none_iff] at hf
      refine ⟨fun {k j n} h => ?_, fun h n hn => ?_⟩
      · obtain ⟨m, b', hk, hb', hn, he⟩ := hsome h
        exact ⟨m + 1, b', by omega, by simpa using hb', hn, he⟩
      · rw [List.flatMap_cons, List.mem_append] at hn
        rcases hn with hn | hn
        · simpa using hf n hn
        · exact hnone h n hn

/-- What `locate` finds is at the endpoint, at the position it gives. -/
theorem locate_eq_some {endpoint : Endpoint} {j : ℕ} (h : t.locate endpoint = some (i, j, n)) :
    t.buckets[i]? = some (t.bucketAt i) ∧ (t.bucketAt i).nodes[j]? = some n ∧
      n.endpoint = endpoint := by
  obtain ⟨m, b, rfl, hb, hn, he⟩ := locateFrom_spec.1 h
  rw [Nat.zero_add] at *
  obtain ⟨hi, rfl⟩ := List.getElem?_eq_some_iff.1 hb
  have hat : t.bucketAt m = t.buckets[m] := by simp [bucketAt, hi]
  exact ⟨hat ▸ hb, hat ▸ hn, he⟩

/-- `locate` finds nothing only if no node of the main table is at the endpoint. -/
theorem locate_eq_none {endpoint : Endpoint} (h : t.locate endpoint = none) :
    ∀ n ∈ t.allNodes, n.endpoint ≠ endpoint :=
  locateFrom_spec.2 h

/-- The position of the best element is within the list. -/
theorem firstBest_lt {α : Type} {before : α → α → Bool} {l : List α} {k : ℕ}
    (h : firstBest before l = some k) : k < l.length := by
  -- The best index so far is behind the index that the loop is at.
  have hfrom : ∀ (l : List α) (i best : ℕ) (b : α), best < i →
      firstBestFrom before i best b l < i + l.length := by
    intro l
    induction l with
    | nil => intro i best b hb; exact hb
    | cons x xs ih =>
      intro i best b hb
      rw [firstBestFrom, List.length_cons]
      split_ifs
      · have := ih (i + 1) i x (Nat.lt_succ_self i)
        omega
      · have := ih (i + 1) best b (by omega)
        omega
  cases l with
  | nil => simp [firstBest] at h
  | cons x xs =>
    simp only [firstBest, Option.some.injEq] at h
    have := hfrom xs 1 0 x Nat.zero_lt_one
    rw [List.length_cons]
    omega

/-! ## Changing one bucket -/

@[simp]
theorem bucketIndexFor_setBucket (id : NodeId) :
    (t.setBucket i b).bucketIndexFor id = t.bucketIndexFor id := by
  simp [bucketIndexFor, setBucket]

/-- A bucket may be replaced by one within its bounds, if the IDs it brings are
    neither out of place, nor the own one, nor elsewhere in the table. -/
theorem WellFormed.setBucket (h : WellFormed t) (hi : i < t.buckets.length)
    (hnodes : b.nodes.length ≤ K) (hrepl : b.replacements.length ≤ K)
    (hnodup : (b.entries.map (·.id)).Nodup)
    (hnew : ∀ n ∈ b.entries, n.id ∈ (t.bucketAt i).entries.map (·.id) ∨
      (t.bucketIndexFor n.id = i ∧ n.id ≠ t.self ∧ n.id ∉ t.entries.map (·.id))) :
    WellFormed (t.setBucket i b) := by
  have hold : BucketOk t i (t.bucketAt i) := h.bucketOk i _ (getElem?_bucketAt hi)
  refine ⟨by simpa using h.one_le, by simpa using h.le_bits, fun k b' hk => ?_, ?_⟩
  · by_cases hki : k = i
    · subst hki
      have hb' : b' = b := by simpa [RoutingTable.setBucket, hi, eq_comm] using hk
      subst hb'
      refine ⟨hnodes, hrepl, fun n hn => ?_, fun n hn => ?_⟩
      · rw [bucketIndexFor_setBucket]
        rcases hnew n hn with hmem | hmem
        · obtain ⟨m, hm, hmid⟩ := List.mem_map.1 hmem
          rw [← hmid, hold.index m hm]
        · exact hmem.1
      · rcases hnew n hn with hmem | hmem
        · obtain ⟨m, hm, hmid⟩ := List.mem_map.1 hmem
          rw [← hmid]
          exact hold.ne_self m hm
        · exact hmem.2.1
    · rw [RoutingTable.setBucket, List.getElem?_set_ne (Ne.symm hki)] at hk
      obtain ⟨h₁, h₂, h₃, h₄⟩ := h.bucketOk k b' hk
      exact ⟨h₁, h₂, fun n hn => by rw [bucketIndexFor_setBucket]; exact h₃ n hn, h₄⟩
  · obtain ⟨rest, hperm, hset⟩ := exists_rest_flatMap Bucket.entries (getElem?_bucketAt hi)
    have hnodup_old : (((t.bucketAt i).entries ++ rest).map (·.id)).Nodup :=
      (hperm.map _).nodup_iff.1 h.nodup
    refine ((hset b).map _).nodup_iff.2 ?_
    rw [List.map_append, List.nodup_append] at hnodup_old ⊢
    refine ⟨hnodup, hnodup_old.2.1, fun id hid id' hid' => ?_⟩
    obtain ⟨n, hn, rfl⟩ := List.mem_map.1 hid
    rcases hnew n hn with hmem | hmem
    · exact hnodup_old.2.2 _ hmem _ hid'
    · rintro rfl
      refine hmem.2.2 ((hperm.map _).mem_iff.2 ?_)
      rw [List.map_append, List.mem_append]
      exact .inr hid'

/-- A bucket may be replaced by one whose IDs are some of its own. -/
theorem WellFormed.setBucket_of_sublist (h : WellFormed t) (hi : i < t.buckets.length)
    (hnodes : b.nodes.length ≤ K) (hrepl : b.replacements.length ≤ K)
    (hids : (b.entries.map (·.id)) <+~ ((t.bucketAt i).entries.map (·.id))) :
    WellFormed (t.setBucket i b) := by
  obtain ⟨rest, hperm, _⟩ := exists_rest_flatMap Bucket.entries (getElem?_bucketAt hi)
  have hold : ((t.bucketAt i).entries.map (·.id)).Nodup := by
    have := (hperm.map (·.id)).nodup_iff.1 h.nodup
    rw [List.map_append, List.nodup_append] at this
    exact this.1
  refine h.setBucket hi hnodes hrepl ?_ fun n hn => .inl (hids.subset (List.mem_map_of_mem hn))
  obtain ⟨l, hl, hsub⟩ := hids
  exact hl.nodup_iff.1 (hold.sublist hsub)

/-- Replacing a node by one of the same ID keeps the invariant. -/
theorem WellFormed.setBucket_node (h : WellFormed t) (hi : i < t.buckets.length) {j : ℕ}
    (hj : (t.bucketAt i).nodes[j]? = some n) {m : RoutingNode} (hm : m.id = n.id) (changed : ℤ) :
    WellFormed (t.setBucket i
      { t.bucketAt i with nodes := (t.bucketAt i).nodes.set j m, lastChanged := changed }) := by
  have hold := h.bucketOk i _ (getElem?_bucketAt hi)
  refine h.setBucket_of_sublist hi (by simpa using hold.nodes_le) hold.replacements_le ?_
  rw [Bucket.entries, Bucket.entries, List.map_append, List.map_append,
    map_set_of_eq (·.id) hj hm]

/-- Dropping nodes of a bucket keeps the invariant. -/
theorem WellFormed.setBucket_filter (h : WellFormed t) (hi : i < t.buckets.length)
    (p : RoutingNode → Bool) :
    WellFormed (t.setBucket i { t.bucketAt i with nodes := (t.bucketAt i).nodes.filter p }) := by
  have hold := h.bucketOk i _ (getElem?_bucketAt hi)
  refine h.setBucket_of_sublist hi ((List.length_filter_le _ _).trans hold.nodes_le)
    hold.replacements_le (Sublist.subperm (Sublist.map _ ?_))
  exact List.filter_sublist.append_right _

/-! ## Changing the caches -/

theorem flatMap_sublist {α β : Type*} {f g : α → List β} (hfg : ∀ a, f a <+ g a) :
    ∀ l : List α, l.flatMap f <+ l.flatMap g
  | [] => Sublist.refl _
  | a :: l => by
    rw [List.flatMap_cons, List.flatMap_cons]
    exact (hfg a).append (flatMap_sublist hfg l)

@[simp]
theorem bucketIndexFor_mapReplacements (f : List RoutingNode → List RoutingNode) (id : NodeId) :
    (t.mapReplacements f).bucketIndexFor id = t.bucketIndexFor id := by
  simp [bucketIndexFor, mapReplacements]

@[simp]
theorem allNodes_mapReplacements (f : List RoutingNode → List RoutingNode) :
    (t.mapReplacements f).allNodes = t.allNodes := by
  simp [allNodes, mapReplacements, List.flatMap_map]

/-- Dropping replacements keeps the invariant. -/
theorem WellFormed.mapReplacements (h : WellFormed t) {f : List RoutingNode → List RoutingNode}
    (hf : ∀ l, f l <+ l) : WellFormed (t.mapReplacements f) where
  one_le := by simpa [RoutingTable.mapReplacements] using h.one_le
  le_bits := by simpa [RoutingTable.mapReplacements] using h.le_bits
  bucketOk i b hb := by
    simp only [RoutingTable.mapReplacements, List.getElem?_map, Option.map_eq_some_iff] at hb
    obtain ⟨b, hb, rfl⟩ := hb
    have hold := h.bucketOk i b hb
    have hsub : ∀ n ∈ Bucket.entries { b with replacements := f b.replacements }, n ∈ b.entries :=
      fun n hn => ((hf _).append_left b.nodes).subset hn
    refine ⟨hold.nodes_le, (hf _).length_le.trans hold.replacements_le, fun n hn => ?_,
      fun n hn => hold.ne_self n (hsub n hn)⟩
    rw [bucketIndexFor_mapReplacements]
    exact hold.index n (hsub n hn)
  nodup := by
    refine h.nodup.sublist (Sublist.map _ ?_)
    rw [entries, RoutingTable.mapReplacements, List.flatMap_map]
    exact flatMap_sublist (fun b => (hf _).append_left b.nodes) t.buckets

/-! ## Splitting -/

/-- Both parts of a partition together are the list. -/
theorem filter_append_filter_perm {α : Type*} (p : α → Bool) (l : List α) :
    l.filter (!p ·) ++ l.filter p ~ l :=
  perm_append_comm.trans (List.filter_append_perm p l)

/-- Splitting moves entries without losing any: a part `f` of the buckets that a
    partition divides is kept up to permutation. -/
theorem flatMap_split_perm (h : 1 ≤ t.buckets.length) (f : Bucket → List RoutingNode)
    (hf : ∀ (b : Bucket) (p : RoutingNode → Bool),
      f { b with nodes := b.nodes.filter (!p ·), replacements := b.replacements.filter (!p ·) } ++
        f { nodes := b.nodes.filter p, replacements := b.replacements.filter p,
            lastChanged := b.lastChanged } ~ f b) :
    t.split.buckets.flatMap f ~ t.buckets.flatMap f := by
  have hlast : t.buckets.length - 1 < t.buckets.length := by omega
  obtain ⟨rest, hperm, hset⟩ := exists_rest_flatMap f (getElem?_bucketAt hlast)
  rw [split, List.flatMap_append, List.flatMap_singleton]
  refine (((hset _).append_right _).trans ?_).trans hperm.symm
  rw [List.append_assoc]
  refine (perm_append_comm.append_left _).trans ?_
  rw [← List.append_assoc]
  exact (hf _ _).append_right rest

theorem entries_split_perm (h : 1 ≤ t.buckets.length) : t.split.entries ~ t.entries := by
  refine flatMap_split_perm h Bucket.entries fun b p => ?_
  have hmove : ∀ a b c d : List RoutingNode, (a ++ b) ++ (c ++ d) ~ (a ++ c) ++ (b ++ d) := by
    intro a b c d
    rw [List.append_assoc, List.append_assoc]
    refine Perm.append_left a ?_
    rw [← List.append_assoc, ← List.append_assoc]
    exact perm_append_comm.append_right d
  exact (hmove _ _ _ _).trans
    ((filter_append_filter_perm p b.nodes).append (filter_append_filter_perm p b.replacements))

theorem allNodes_split_perm (h : 1 ≤ t.buckets.length) : t.split.allNodes ~ t.allNodes :=
  flatMap_split_perm h (·.nodes) fun b p => filter_append_filter_perm p b.nodes

/-- Splitting keeps the invariant, as long as there may be one more bucket. -/
theorem WellFormed.split (h : WellFormed t) (hlt : t.buckets.length < NodeId.Bits) :
    WellFormed t.split := by
  have hone := h.one_le
  have hlast : t.buckets.length - 1 < t.buckets.length := by omega
  have hold := h.bucketOk _ _ (getElem?_bucketAt hlast)
  refine ⟨by rw [length_split]; omega, by rw [length_split]; omega, fun i b hb => ?_,
    ((entries_split_perm hone).map _).nodup_iff.2 h.nodup⟩
  have hindex : ∀ id, t.split.bucketIndexFor id =
      min (NodeId.commonPrefixLength t.self id) t.buckets.length := fun id => by
    rw [bucketIndexFor, length_split, Nat.add_sub_cancel]
    rfl
  -- What the partition keeps shares exactly `last` bits, what it moves out more.
  have hpart : ∀ n ∈ (t.bucketAt (t.buckets.length - 1)).entries,
      t.buckets.length - 1 ≤ NodeId.commonPrefixLength t.self n.id := fun n hn => by
    have := hold.index n hn
    rw [bucketIndexFor] at this
    omega
  have hentries : ∀ (p : RoutingNode → Bool) (b : Bucket) (changed : ℤ),
      ∀ n ∈ Bucket.entries ⟨b.nodes.filter p, b.replacements.filter p, changed⟩,
        n ∈ b.entries ∧ p n := fun p b changed n hn => by
    simp only [Bucket.entries, List.mem_append, List.mem_filter] at hn ⊢
    tauto
  rw [RoutingTable.split, List.getElem?_append, List.length_set] at hb
  split_ifs at hb with hi
  · by_cases hil : i = t.buckets.length - 1
    · subst hil
      rw [List.getElem?_set_self hlast, Option.some.injEq] at hb
      subst hb
      refine ⟨(List.length_filter_le _ _).trans hold.nodes_le,
        (List.length_filter_le _ _).trans hold.replacements_le, fun n hn => ?_, fun n hn => ?_⟩
      · obtain ⟨hn, hp⟩ := hentries _ _ _ n hn
        have := hpart n hn
        simp only [Bool.not_eq_true', decide_eq_false_iff_not, not_lt] at hp
        rw [hindex]
        omega
      · exact hold.ne_self n (hentries _ _ _ n hn).1
    · rw [List.getElem?_set_ne (Ne.symm hil)] at hb
      obtain ⟨h₁, h₂, h₃, h₄⟩ := h.bucketOk i b hb
      refine ⟨h₁, h₂, fun n hn => ?_, h₄⟩
      have := h₃ n hn
      rw [bucketIndexFor] at this
      rw [hindex]
      omega
  · rw [List.getElem?_singleton] at hb
    split_ifs at hb with hi'
    rw [Option.some.injEq] at hb
    subst hb
    refine ⟨(List.length_filter_le _ _).trans hold.nodes_le,
      (List.length_filter_le _ _).trans hold.replacements_le, fun n hn => ?_, fun n hn => ?_⟩
    · obtain ⟨_, hp⟩ := hentries _ _ _ n hn
      rw [decide_eq_true_eq] at hp
      rw [hindex]
      omega
    · exact hold.ne_self n (hentries _ _ _ n hn).1

/-- The tables reached from a table by splitting it. -/
inductive Splits : RoutingTable → RoutingTable → Prop
  | refl (t : RoutingTable) : Splits t t
  | step {t u : RoutingTable} : t.buckets.length < NodeId.Bits → Splits t.split u → Splits t u

theorem Splits.wellFormed {u : RoutingTable} (hs : Splits t u) (h : WellFormed t) :
    WellFormed u ∧ u.self = t.self ∧ u.restrictOnePerIp = t.restrictOnePerIp ∧
      u.entries ~ t.entries ∧ u.allNodes ~ t.allNodes := by
  induction hs with
  | refl => exact ⟨h, rfl, rfl, Perm.refl _, Perm.refl _⟩
  | step hlt _ ih =>
    obtain ⟨hu, hself, hip, hentries, hnodes⟩ := ih (h.split hlt)
    exact ⟨hu, hself, hip, hentries.trans (entries_split_perm h.one_le),
      hnodes.trans (allNodes_split_perm h.one_le)⟩

/-! ## Inserting -/

/-- The bucket of an ID is full, and cannot be split. -/
def Settled (t : RoutingTable) (id : NodeId) : Prop :=
  K ≤ (t.bucketAt (t.bucketIndexFor id)).nodes.length ∧ t.canSplit (t.bucketIndexFor id) = false

/-- What the loop of `insert` does: it splits the table for as long as it has to,
    and then adds the node to its bucket, or, that being full for good, replaces a bad
    node there, or caches it. -/
theorem insertLoop_settled : ∀ {fuel : ℕ} {t t' : RoutingTable} {node : RoutingNode} {now : ℤ}
    {r : InsertResult}, insertLoop fuel t node now = some (t', r) → ∃ s, Splits t s ∧
      let index := s.bucketIndexFor node.id
      let bucket := s.bucketAt index
      (bucket.nodes.length < K ∧ r = .Added ∧
        t' = s.setBucket index
          { bucket with nodes := bucket.nodes ++ [node], lastChanged := now }) ∨
      (Settled s node.id ∧
        ((∃ bad, bucket.nodes.findIdx? (stateOf · now = .Bad) = some bad ∧ r = .Replaced ∧
          t' = s.setBucket index
            { bucket with nodes := bucket.nodes.set bad node, lastChanged := now }) ∨
        (r = .Cached ∧ t' = s.setBucket index
            { bucket with replacements := cacheWith bucket.replacements node })))
  | 0, _, _, _, _, _, h => by simp [insertLoop] at h
  | fuel + 1, t, t', node, now, r, h => by
    rw [insertLoop] at h
    split_ifs at h with hroom hsplit
    · simp only [Option.some.injEq, Prod.mk.injEq] at h
      exact ⟨t, .refl t, .inl ⟨hroom, h.2.symm, h.1.symm⟩⟩
    · obtain ⟨s, hs, hcases⟩ := insertLoop_settled h
      simp only [canSplit, Bool.and_eq_true, decide_eq_true_eq] at hsplit
      exact ⟨s, .step hsplit.2 hs, hcases⟩
    · have hsettled : Settled t node.id := ⟨Nat.le_of_not_lt hroom, Bool.eq_false_iff.2 hsplit⟩
      split at h <;> simp only [Option.some.injEq, Prod.mk.injEq] at h
      · exact ⟨t, .refl t, .inr ⟨hsettled, .inl ⟨_, ‹_›, h.2.symm, h.1.symm⟩⟩⟩
      · exact ⟨t, .refl t, .inr ⟨hsettled, .inr ⟨h.2.symm, h.1.symm⟩⟩⟩

/-- What the loop of `insert` does, however full the buckets are. -/
theorem insertLoop_cases {fuel : ℕ} {t t' : RoutingTable} {node : RoutingNode} {now : ℤ}
    {r : InsertResult} (h : insertLoop fuel t node now = some (t', r)) : ∃ s, Splits t s ∧
      let index := s.bucketIndexFor node.id
      let bucket := s.bucketAt index
      (bucket.nodes.length < K ∧ r = .Added ∧
        t' = s.setBucket index
          { bucket with nodes := bucket.nodes ++ [node], lastChanged := now }) ∨
      (∃ bad, bucket.nodes.findIdx? (stateOf · now = .Bad) = some bad ∧ r = .Replaced ∧
        t' = s.setBucket index
          { bucket with nodes := bucket.nodes.set bad node, lastChanged := now }) ∨
      (r = .Cached ∧ t' = s.setBucket index
          { bucket with replacements := cacheWith bucket.replacements node }) := by
  obtain ⟨s, hs, hcases⟩ := insertLoop_settled h
  exact ⟨s, hs, hcases.imp_right And.right⟩

/-- The cache stays within its bound, and gains at most the node. -/
theorem cacheWith_spec (cache : List RoutingNode) (node : RoutingNode) (h : cache.length ≤ K) :
    (cacheWith cache node).length ≤ K ∧ cacheWith cache node <+ cache ++ [node] := by
  rw [cacheWith]
  split_ifs with hlen
  · split
    · next oldest hbest =>
      have hlt := firstBest_lt hbest
      rw [List.length_append, List.length_singleton] at hlt
      refine ⟨?_, List.eraseIdx_sublist _ _⟩
      rw [List.length_eraseIdx, List.length_append, List.length_singleton, if_pos (by omega)]
      omega
    · next hbest =>
      cases cache <;> simp [firstBest] at hbest
  · exact ⟨Nat.le_of_not_lt hlen, Sublist.refl _⟩

/-- Inserting a node whose ID is neither the own one nor in the table keeps the
    invariant, and brings in no other ID. -/
theorem WellFormed.insertLoop (h : WellFormed t) {fuel : ℕ} {node : RoutingNode}
    {t' : RoutingTable} {r : InsertResult} (hself : node.id ≠ t.self)
    (hid : node.id ∉ t.entries.map (·.id)) (hins : insertLoop fuel t node now = some (t', r)) :
    WellFormed t' ∧ t'.self = t.self ∧
      ∀ n ∈ t'.entries, n.id = node.id ∨ n.id ∈ t.entries.map (·.id) := by
  obtain ⟨s, hs, hcases⟩ := insertLoop_cases hins
  obtain ⟨hwf, hself', -, hentries, -⟩ := hs.wellFormed h
  have hi := bucketIndexFor_lt hwf.one_le node.id
  have hget := hwf.getElem?_bucketIndexFor node.id
  have hold := hwf.bucketOk _ _ hget
  rw [← hself'] at hself ⊢
  rw [← (hentries.map (·.id)).mem_iff] at hid
  -- Whatever the new bucket is, its entries are the node and entries of the old one.
  have hkey : ∀ b' : Bucket, t' = s.setBucket (s.bucketIndexFor node.id) b' →
      b'.nodes.length ≤ K → b'.replacements.length ≤ K →
      b'.entries.map (·.id) <+~ (node :: (s.bucketAt (s.bucketIndexFor node.id)).entries).map
      (·.id) →
      WellFormed t' ∧ t'.self = s.self ∧
        ∀ n ∈ t'.entries, n.id = node.id ∨ n.id ∈ t.entries.map (·.id) := by
    rintro b' rfl hnodes hrepl hsub
    obtain ⟨rest, hperm, hset⟩ := exists_rest_flatMap Bucket.entries hget
    have hmem : ∀ n ∈ b'.entries, n.id = node.id ∨
        n.id ∈ (s.bucketAt (s.bucketIndexFor node.id)).entries.map (·.id) := fun n hn => by
      have := hsub.subset (List.mem_map_of_mem hn)
      rwa [List.map_cons, List.mem_cons] at this
    have hnodup := (hperm.map (·.id)).nodup_iff.1 hwf.nodup
    have hnotin : node.id ∉ (s.bucketAt (s.bucketIndexFor node.id)).entries.map (·.id) := fun hin =>
      hid ((hperm.map (·.id)).mem_iff.2 (by rw [List.map_append]; exact List.mem_append_left _ hin))
    refine ⟨hwf.setBucket hi hnodes hrepl ?_ fun n hn => ?_, rfl, fun n hn => ?_⟩
    · rw [List.map_append, List.nodup_append] at hnodup
      obtain ⟨l, hl, hl'⟩ := hsub
      exact hl.nodup_iff.1 ((List.nodup_cons.2 ⟨hnotin, hnodup.1⟩).sublist hl')
    · rcases hmem n hn with he | hin
      · exact .inr ⟨by rw [he], by rw [he]; exact hself, by rw [he]; exact hid⟩
      · exact .inl hin
    · have hn' := (hset b').mem_iff.1 hn
      rw [List.mem_append] at hn'
      have hin : ∀ id ∈ (s.bucketAt (s.bucketIndexFor node.id)).entries.map (·.id) ++
          rest.map (·.id), id ∈ t.entries.map (·.id) := fun id hin => by
        rw [← List.map_append] at hin
        exact (hentries.map (·.id)).mem_iff.1 ((hperm.map (·.id)).mem_iff.2 hin)
      rcases hn' with hn' | hn'
      · exact (hmem n hn').imp_right fun hb => hin _ (List.mem_append_left _ hb)
      · exact .inr (hin _ (List.mem_append_right _ (List.mem_map_of_mem hn')))
  rcases hcases with ⟨hroom, -, ht'⟩ | ⟨bad, hbad, -, ht'⟩ | ⟨-, ht'⟩
  · refine hkey _ ht' (by simpa using hroom) hold.replacements_le (Perm.subperm ?_)
    simp only [Bucket.entries, List.append_assoc, List.singleton_append]
    exact perm_middle.map _
  · obtain ⟨hlt, -⟩ := List.findIdx?_eq_some_iff_getElem.1 hbad
    obtain ⟨_, _, hset, rfl⟩ := exists_rest (List.getElem?_eq_getElem hlt)
    refine hkey _ ht' (by simpa using hold.nodes_le) hold.replacements_le ?_
    refine (((hset node).append_right _).map _).subperm.trans (Sublist.subperm (Sublist.map _ ?_))
    exact ((List.eraseIdx_sublist _ _).append_right _).cons_cons node
  · obtain ⟨hlen, hsub⟩ := cacheWith_spec (s.bucketAt (s.bucketIndexFor node.id)).replacements node
      hold.replacements_le
    refine hkey _ ht' hold.nodes_le hlen
      (((hsub.append_left _).map _).subperm.trans (Perm.subperm ?_))
    rw [← List.append_assoc]
    exact (perm_append_singleton node _).map _

/-- Inserting keeps the invariant, and brings in no ID but that of the node. -/
theorem WellFormed.insert (h : WellFormed t) {node : RoutingNode}
    (hid : node.id ∉ t.entries.map (·.id)) (now : ℤ) :
    WellFormed (t.insert node now).1 ∧ (t.insert node now).1.self = t.self ∧
      ∀ n ∈ (t.insert node now).1.entries, n.id = node.id ∨ n.id ∈ t.entries.map (·.id) := by
  have hkept : WellFormed t ∧ t.self = t.self ∧
      ∀ n ∈ t.entries, n.id = node.id ∨ n.id ∈ t.entries.map (·.id) :=
    ⟨h, rfl, fun n hn => .inr (List.mem_map_of_mem hn)⟩
  rw [RoutingTable.insert]
  split_ifs with hself hip
  · exact hkept
  · exact hkept
  · exact h.insertLoop hself hid (Option.some_get (insertLoop_isSome t node now)).symm

/-! ## The calls -/

/-- An ID is in the table exactly if it is in its bucket. -/
theorem WellFormed.mem_ids_iff (h : WellFormed t) {id : NodeId} :
    id ∈ t.entries.map (·.id) ↔ id ∈ (t.bucketAt (t.bucketIndexFor id)).entries.map (·.id) := by
  simp only [entries, List.mem_map, List.mem_flatMap]
  constructor
  · rintro ⟨n, ⟨b, hb, hn⟩, rfl⟩
    obtain ⟨i, hi⟩ := List.mem_iff_getElem?.1 hb
    have hindex := (h.bucketOk i b hi).index n hn
    obtain ⟨hlt, rfl⟩ := List.getElem?_eq_some_iff.1 hi
    refine ⟨n, ?_, rfl⟩
    rw [hindex]
    simpa [bucketAt, hlt] using hn
  · rintro ⟨n, hn, rfl⟩
    exact ⟨n, ⟨_, List.mem_of_getElem? (h.getElem?_bucketIndexFor n.id), hn⟩, rfl⟩

/-- Whether a replacement survives hearing from a node of this ID and endpoint. -/
def unrelated (id : NodeId) (endpoint : Endpoint) (n : RoutingNode) : Bool :=
  ¬(n.endpoint = endpoint ∨ n.id = id)

/-- What hearing from a node does, once no other ID is known at its endpoint: a
    node of the same ID is kept, or moves to the endpoint if it has stopped
    answering; a new ID is inserted, after dropping what the caches hold of it. -/
theorem heardFromUnknown_cases (t : RoutingTable) (id : NodeId) (endpoint : Endpoint)
    (version : Bytes) (rttMs now : ℤ) :
    let t' := (t.heardFromUnknown id endpoint version rttMs now).1
    let index := t.bucketIndexFor id
    let bucket := t.bucketAt index
    (∃ j n, bucket.nodes.findIdx? (·.id = id) = some j ∧ bucket.nodes[j]? = some n ∧ n.id = id ∧
      ((stateOf n now ≠ .Bad ∧ t' = t) ∨
        (stateOf n now = .Bad ∧ ∃ m : RoutingNode, m.id = n.id ∧ m.endpoint = endpoint ∧
          t' = t.setBucket index
            { bucket with nodes := bucket.nodes.set j m, lastChanged := now }))) ∨
    (bucket.nodes.findIdx? (·.id = id) = none ∧ ∃ node : RoutingNode,
      node.id = id ∧ node.endpoint = endpoint ∧
        t' = ((t.mapReplacements (·.filter (unrelated id endpoint))).insert node now).1) := by
  dsimp only
  rw [heardFromUnknown]
  cases hf : (t.bucketAt (t.bucketIndexFor id)).nodes.findIdx? (·.id = id) with
  | some j =>
    obtain ⟨hj, hid, -⟩ := List.findIdx?_eq_some_iff_getElem.1 hf
    have hget : (t.bucketAt (t.bucketIndexFor id)).nodes.getD j default =
      (t.bucketAt (t.bucketIndexFor id)).nodes[j] := by simp [hj]
    refine .inl ⟨j, _, rfl, List.getElem?_eq_getElem hj, by simpa using hid, ?_⟩
    dsimp only
    rw [hget]
    split_ifs with hbad
    · exact .inl ⟨hbad, rfl⟩
    · exact .inr ⟨not_not.1 hbad,
        { (t.bucketAt (t.bucketIndexFor id)).nodes[j] with
          endpoint, lastResponse := now, failCount := 0, rttMs, version }, rfl, rfl, rfl⟩
  | none =>
    exact .inr ⟨rfl, { id, endpoint, version, firstSeen := now, lastResponse := now, rttMs },
      rfl, rfl, rfl⟩

/-- What hearing from a node does: nothing if it is the own one or has no valid
    endpoint; it refreshes the node at the endpoint if it has the ID, and goes on
    without it otherwise. -/
theorem heardFrom_cases (t : RoutingTable) (id : NodeId) (endpoint : Endpoint) (version : Bytes)
    (rttMs now : ℤ) :
    let t' := (t.heardFrom id endpoint version rttMs now).1
    ((id = t.self ∨ endpoint.isValid = false) ∧ t' = t) ∨
    (id ≠ t.self ∧ endpoint.isValid ∧
      ((∃ i j n m, t.locate endpoint = some (i, j, n) ∧ n.id = id ∧ m.id = n.id ∧
          m.endpoint = n.endpoint ∧ t' = t.setBucket i
            { t.bucketAt i with nodes := (t.bucketAt i).nodes.set j m, lastChanged := now }) ∨
        (∃ i j n, t.locate endpoint = some (i, j, n) ∧ n.id ≠ id ∧
          t' = ((t.forget i endpoint).heardFromUnknown id endpoint version rttMs now).1) ∨
        (t.locate endpoint = none ∧
          t' = (t.heardFromUnknown id endpoint version rttMs now).1))) := by
  dsimp only
  rw [heardFrom]
  by_cases hrej : id = t.self ∨ endpoint.isValid = false
  · rw [if_pos (by simpa using hrej)]
    exact .inl ⟨hrej, rfl⟩
  · rw [if_neg (by simpa using hrej)]
    push Not at hrej
    refine .inr ⟨hrej.1, by simpa using hrej.2, ?_⟩
    cases hloc : t.locate endpoint with
    | none => exact .inr (.inr ⟨rfl, rfl⟩)
    | some found =>
      obtain ⟨i, j, existing⟩ := found
      dsimp only
      -- The endpoint is known: by this ID, or by one that is forgotten now.
      by_cases hid : existing.id = id
      · rw [if_pos hid]
        exact .inl ⟨i, j, existing,
          { existing with
            lastResponse := now
            failCount := 0
            version := if version.isEmpty then existing.version else version
            rttMs := smoothRtt existing.rttMs rttMs }, rfl, hid, rfl, rfl, rfl⟩
      · rw [if_neg hid]
        exact .inr (.inl ⟨i, j, existing, rfl, hid, rfl⟩)

theorem WellFormed.heardFromUnknown (h : WellFormed t) (id : NodeId) (endpoint : Endpoint)
    (version : Bytes) (rttMs now : ℤ) :
    WellFormed (t.heardFromUnknown id endpoint version rttMs now).1 := by
  have hi := bucketIndexFor_lt h.one_le id
  rcases heardFromUnknown_cases t id endpoint version rttMs now with
    ⟨j, n, -, hj, -, ⟨-, heq⟩ | ⟨-, m, hm, -, heq⟩⟩ | ⟨hf, node, rfl, -, heq⟩
  · rwa [heq]
  · rw [heq]
    exact h.setBucket_node hi hj hm now
  · rw [heq]
    have hdrop := h.mapReplacements (f := (·.filter (unrelated node.id endpoint)))
      fun _ => List.filter_sublist
    refine (hdrop.insert ?_ now).1
    -- Neither the bucket nor, after the filter, its cache holds the ID.
    rw [hdrop.mem_ids_iff, bucketIndexFor_mapReplacements]
    have hat : (t.mapReplacements (·.filter (unrelated node.id endpoint))).bucketAt
        (t.bucketIndexFor node.id) = { t.bucketAt (t.bucketIndexFor node.id) with
          replacements := (t.bucketAt (t.bucketIndexFor node.id)).replacements.filter
            (unrelated node.id endpoint) } := by
      simp [bucketAt, RoutingTable.mapReplacements, hi]
    rw [hat]
    rw [List.findIdx?_eq_none_iff] at hf
    simp only [Bucket.entries, List.map_append, List.mem_append, List.mem_map, List.mem_filter]
    rintro (⟨n, hn, hne⟩ | ⟨n, ⟨-, hne⟩, hne'⟩)
    · simpa [hne] using hf n hn
    · simp [unrelated, hne'] at hne

theorem WellFormed.heardFrom (h : WellFormed t) (id : NodeId) (endpoint : Endpoint)
    (version : Bytes) (rttMs now : ℤ) :
    WellFormed (t.heardFrom id endpoint version rttMs now).1 := by
  rcases heardFrom_cases t id endpoint version rttMs now with
    ⟨-, heq⟩ | ⟨-, -, ⟨i, j, n, m, hloc, -, hm, -, heq⟩ | ⟨i, j, n, hloc, -, heq⟩ | ⟨-, heq⟩⟩
  · rwa [heq]
  · obtain ⟨hb, hj, -⟩ := locate_eq_some hloc
    rw [heq]
    exact h.setBucket_node (List.getElem?_eq_some_iff.1 hb).1 hj hm now
  · have hi := (List.getElem?_eq_some_iff.1 (locate_eq_some hloc).1).1
    rw [heq]
    exact (h.setBucket_filter hi _).heardFromUnknown id endpoint version rttMs now
  · rw [heq]
    exact h.heardFromUnknown id endpoint version rttMs now

theorem WellFormed.updateAt (h : WellFormed t) (endpoint : Endpoint)
    {f : RoutingNode → RoutingNode} (hf : ∀ n, (f n).id = n.id) : WellFormed
    (t.updateAt endpoint f) := by
  rw [RoutingTable.updateAt]
  cases hloc : t.locate endpoint with
  | none => exact h
  | some found =>
    obtain ⟨i, j, n⟩ := found
    obtain ⟨hb, hj, -⟩ := locate_eq_some hloc
    exact h.setBucket_node (List.getElem?_eq_some_iff.1 hb).1 hj (hf n) (t.bucketAt i).lastChanged

theorem WellFormed.queriedBy (h : WellFormed t) (id : NodeId) (endpoint : Endpoint) (now : ℤ) :
    WellFormed (t.queriedBy id endpoint now).1 := by
  rw [RoutingTable.queriedBy]
  cases t.locate endpoint with
  | none => exact h
  | some found =>
    dsimp only
    split_ifs
    · exact h
    · exact h.updateAt endpoint fun _ => rfl

/-- What a timeout does: at no node of the main table, it drops the endpoint from
    the caches; otherwise it counts against the node. A node that has stopped
    answering is replaced from the cache of its bucket if there is anything in it;
    else it is dropped once it has failed too often. -/
theorem failed_cases (t : RoutingTable) (endpoint : Endpoint) (now : ℤ) :
    (t.locate endpoint = none ∧
      t.failed endpoint now = t.mapReplacements (·.filter (·.endpoint ≠ endpoint))) ∨
    ∃ i j n, t.locate endpoint = some (i, j, n) ∧
      let bucket := t.bucketAt i
      let best := firstBest (fun a b => b.lastResponse < a.lastResponse) bucket.replacements
      let nodes := bucket.nodes.set j { n with failCount := n.failCount + 1 }
      ((∃ k, BadFailCount ≤ n.failCount + 1 ∧ best = some k ∧
        t.failed endpoint now = t.setBucket i
          { nodes := bucket.nodes.set j (bucket.replacements.getD k default)
            replacements := bucket.replacements.eraseIdx k
            lastChanged := now }) ∨
      ((BadFailCount ≤ n.failCount + 1 → best = none) ∧
        (t.failed endpoint now = t.setBucket i { bucket with nodes } ∨
          t.failed endpoint now =
            t.setBucket i { bucket with nodes := nodes.filter (·.endpoint ≠ endpoint) }))) := by
  rw [failed]
  cases hloc : t.locate endpoint with
  | none => exact .inl ⟨rfl, rfl⟩
  | some found =>
    obtain ⟨i, j, n⟩ := found
    refine .inr ⟨i, j, n, rfl, ?_⟩
    dsimp only
    by_cases hbad : stateOf { n with failCount := n.failCount + 1 } now = .Bad
    · rw [if_neg (not_not.2 hbad)]
      cases hbest : firstBest (fun a b => b.lastResponse < a.lastResponse)
          (t.bucketAt i).replacements with
      | some k =>
        refine .inl ⟨k, stateOf_eq_bad.1 hbad, rfl, ?_⟩
        simp only [List.set_set]
      | none =>
        refine .inr ⟨fun _ => rfl, ?_⟩
        dsimp only
        split_ifs
        · exact .inr rfl
        · exact .inl rfl
    · rw [if_pos hbad]
      exact .inr ⟨fun h => absurd (stateOf_eq_bad.2 h) hbad, .inl rfl⟩

/-- In the place of a node, a replacement taken from the cache brings in nothing. -/
theorem promote_subperm {nodes cache : List RoutingNode} {j best : ℕ}
    (hj : nodes[j]? = some n) (hlt : best < cache.length) :
    nodes.set j cache[best] ++ cache.eraseIdx best <+~ nodes ++ cache := by
  obtain ⟨rest, hperm, hset, -⟩ := exists_rest hj
  have hmoved : nodes.set j cache[best] ++ cache.eraseIdx best ~ rest ++ cache :=
    ((hset _).append_right _).trans
      (perm_middle.symm.trans ((getElem_cons_eraseIdx_perm hlt).append_left rest))
  have hkept : n :: (rest ++ cache) ~ nodes ++ cache := (hperm.append_right cache).symm
  exact hmoved.subperm.trans ((List.sublist_cons_self n _).subperm.trans hkept.subperm)

theorem WellFormed.failed (h : WellFormed t) (endpoint : Endpoint) (now : ℤ) :
    WellFormed (t.failed endpoint now) := by
  rcases failed_cases t endpoint now with ⟨-, heq⟩ | ⟨i, j, n, hloc, hcases⟩
  · rw [heq]
    exact h.mapReplacements fun _ => List.filter_sublist
  · obtain ⟨hb, hj, -⟩ := locate_eq_some hloc
    have hi := (List.getElem?_eq_some_iff.1 hb).1
    have hold := h.bucketOk i _ hb
    rcases hcases with ⟨k, -, hbest, heq⟩ | ⟨-, heq | heq⟩
    · -- The freshest replacement is promoted, and leaves the cache.
      have hlt := firstBest_lt hbest
      rw [heq, show (t.bucketAt i).replacements.getD k default =
        (t.bucketAt i).replacements[k] by simp [hlt]]
      exact h.setBucket_of_sublist hi (by simpa using hold.nodes_le)
        ((List.length_eraseIdx_le _ _).trans hold.replacements_le)
        (subperm_map (·.id) (promote_subperm hj hlt))
    · rw [heq]
      exact h.setBucket_node hi hj (m := { n with failCount := n.failCount + 1 }) rfl _
    · rw [heq]
      refine h.setBucket_of_sublist hi ((List.length_filter_le _ _).trans
        (by simpa using hold.nodes_le)) hold.replacements_le (Sublist.subperm ?_)
      rw [Bucket.entries, Bucket.entries, List.map_append, List.map_append]
      refine Sublist.append_right ?_ _
      rw [← map_set_of_eq (·.id) hj (b := { n with failCount := n.failCount + 1 }) rfl]
      exact List.filter_sublist.map _

theorem WellFormed.touchBucket (h : WellFormed t) (index now : ℤ) :
    WellFormed (t.touchBucket index now) := by
  rw [RoutingTable.touchBucket]
  split_ifs with hindex
  · have hi : index.toNat < t.buckets.length := by omega
    have hold := h.bucketOk _ _ (getElem?_bucketAt hi)
    exact h.setBucket_of_sublist hi hold.nodes_le hold.replacements_le (Subperm.refl _)
  · exact h

/-- Inserting nodes of distinct IDs, none of them in the table, keeps the
    invariant, and what else each insertion keeps of such a table. -/
theorem WellFormed.foldl_insert (now : ℤ) {P : RoutingTable → Prop}
    (hP : ∀ t n, WellFormed t → P t → P (t.insert n now).1) :
    ∀ {t : RoutingTable} (l : List RoutingNode), WellFormed t → P t → (l.map (·.id)).Nodup →
      (∀ n ∈ l, n.id ∉ t.entries.map (·.id)) →
        WellFormed (l.foldl (fun t n => (t.insert n now).1) t) ∧
          P (l.foldl (fun t n => (t.insert n now).1) t)
  | _, [], h, h', _, _ => ⟨h, h'⟩
  | t, n :: l, h, h', hnodup, hnew => by
    rw [List.map_cons, List.nodup_cons] at hnodup
    obtain ⟨hwf, -, hids⟩ := h.insert (hnew n List.mem_cons_self) now
    refine foldl_insert now hP l hwf (hP t n h h') hnodup.2 fun m hm hin => ?_
    obtain ⟨n', hn', he⟩ := List.mem_map.1 hin
    rcases hids n' hn' with he' | hin'
    · exact hnodup.1 (he' ▸ he ▸ List.mem_map_of_mem hm)
    · exact hnew m (List.mem_cons_of_mem _ hm) (he ▸ hin')

/-- The table that `rebuild` starts with. -/
theorem wellFormed_emptied (t : RoutingTable) (newSelf : NodeId) (now : ℤ) :
    WellFormed { t with self := newSelf, buckets := [{ lastChanged := now }] } :=
  (wellFormed_new newSelf t.restrictOnePerIp).setBucket_of_sublist (i := 0)
    (b := { lastChanged := now }) Nat.zero_lt_one (Nat.zero_le _) (Nat.zero_le _) (Subperm.refl _)

/-- What `rebuild` yields is well-formed, and has what an empty table has and each
    insertion keeps. -/
theorem WellFormed.rebuild (h : WellFormed t) (newSelf : NodeId) (now : ℤ) {P : RoutingTable → Prop}
    (hempty : P { t with self := newSelf, buckets := [{ lastChanged := now }] })
    (hP : ∀ t n, WellFormed t → P t → P (t.insert n now).1) :
    WellFormed (t.rebuild newSelf now) ∧ P (t.rebuild newSelf now) := by
  have hperm : t.allNodes ++ t.allReplacements ~ t.entries :=
    List.flatMap_append_perm t.buckets (·.nodes) (·.replacements)
  refine WellFormed.foldl_insert now hP _ (wellFormed_emptied t newSelf now) hempty
    ((hperm.map _).nodup_iff.2 h.nodup) fun n _ => ?_
  simp [entries, Bucket.entries]

/-- Every call keeps the invariant. -/
theorem WellFormed.apply (h : WellFormed t) (op : Op) : WellFormed (t.apply op) := by
  cases op with
  | heardFrom id endpoint version rttMs now => exact h.heardFrom id endpoint version rttMs now
  | queriedBy id endpoint now => exact h.queriedBy id endpoint now
  | failed endpoint now => exact h.failed endpoint now
  | markPinged endpoint now => exact h.updateAt endpoint fun _ => rfl
  | touchBucket index now => exact h.touchBucket index now
  | rebuild newSelf now =>
    exact (h.rebuild newSelf now (P := fun _ => True) trivial fun _ _ _ h => h).1

/-- In every state of every run the invariant holds, and the loop of `insert`
    ends, for the table reached as for any other. -/
theorem wellFormed_run (self : NodeId) (restrictOnePerIp : Bool) (ops : List Op) :
    WellFormed ((new self restrictOnePerIp).run ops) ∧
      ∀ t node now, (insertLoop (NodeId.Bits + 1) t node now).isSome :=
  ⟨foldl_invariant (wellFormed_new self restrictOnePerIp) (fun _ op h => h.apply op) ops,
    insertLoop_isSome⟩

end Dht.RoutingTable
