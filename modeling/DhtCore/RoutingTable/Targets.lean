import DhtCore.NodeId.Random
import DhtCore.RoutingTable.OnePerIp

/-!
# Targets

What the table says of an ID that is looked for, or is to be:

* `closest` yields the nodes closest to a target, in order, and none that is left out is as
  close (`closest_exact`).
* `randomIdInBucket` yields an ID that belongs to the bucket, whatever is drawn
  (`randomIdInBucket_run`).
-/

namespace Dht.RoutingTable

open List

variable {t : RoutingTable} {n : RoutingNode} {target : NodeId}

/-! ## The closest nodes -/

/-- Whether a node is at least as close to a target as another one: how `closest` sorts. -/
def NoFarther (target : NodeId) (a b : RoutingNode) : Prop := !NodeId.closer target b.id a.id

instance (target : NodeId) : DecidableRel (NoFarther target) :=
  fun a b => inferInstanceAs (Decidable (!NodeId.closer target b.id a.id))

theorem noFarther_iff {a b : RoutingNode} :
    NoFarther target a b ↔ NodeId.distance target a.id ≤ NodeId.distance target b.id := by
  rw [NoFarther, Bool.not_eq_true', ← Bool.not_eq_true, NodeId.closer_iff, not_lt]

instance (target : NodeId) : Std.Total (NoFarther target) :=
  ⟨fun _ _ => by simpa only [noFarther_iff] using le_total _ _⟩

instance (target : NodeId) : IsTrans RoutingNode (NoFarther target) :=
  ⟨fun _ _ _ hab hbc => noFarther_iff.2 ((noFarther_iff.1 hab).trans (noFarther_iff.1 hbc))⟩

/-- Nodes of distinct IDs, sorted, are at increasing distances. -/
theorem pairwise_distance {nodes : List RoutingNode} (hnodup : (nodes.map (·.id)).Nodup) :
    (nodes.insertionSort (NoFarther target)).Pairwise fun a b =>
      NodeId.distance target a.id < NodeId.distance target b.id := by
  have hsorted := pairwise_insertionSort (NoFarther target) nodes
  have hids : ((nodes.insertionSort (NoFarther target)).map (·.id)).Nodup :=
    ((perm_insertionSort _ nodes).map _).nodup_iff.2 hnodup
  rw [Nodup, pairwise_map] at hids
  refine hsorted.imp₂ (fun a b hle hne => ?_) hids
  exact lt_of_le_of_ne (noFarther_iff.1 hle) fun heq => hne (NodeId.distance_inj heq)

/-- `closest` yields as many of the nodes as asked for, or all of them, nearest first; one that
    is left out is farther than any of them. The time at which the nodes are looked at makes
    no difference. -/
theorem closest_exact (self : NodeId) (restrictOnePerIp : Bool) (ops : List Op) (target : NodeId)
    (count : ℕ) (includeBad : Bool) (now : ℤ) :
    let t := (new self restrictOnePerIp).run ops
    let nodes := t.allNodes.filter fun n => includeBad || stateOf n now ≠ .Bad
    let closest := t.closest target count includeBad
    closest.length = min count nodes.length ∧ closest <+~ nodes ∧
      (closest.Pairwise fun a b => NodeId.distance target a.id < NodeId.distance target b.id) ∧
      ∀ n ∈ nodes, n ∉ closest → ∀ m ∈ closest, NodeId.closer target m.id n.id := by
  intro t nodes closest
  have hwf : WellFormed t := (wellFormed_run self restrictOnePerIp ops).1
  have hnodes : (t.allNodes.filter fun n => includeBad || stateOf n 0 ≠ .Bad) = nodes := by
    refine filter_congr fun n _ => ?_
    have hbad : stateOf n 0 = .Bad ↔ stateOf n now = .Bad :=
      stateOf_eq_bad.trans stateOf_eq_bad.symm
    simp only [ne_eq, hbad]
  have hclosest : closest = (nodes.insertionSort (NoFarther target)).take count := by
    rw [← hnodes]
    rfl
  have hperm := perm_insertionSort (NoFarther target) nodes
  have hsorted : (nodes.insertionSort (NoFarther target)).Pairwise fun a b =>
      NodeId.distance target a.id < NodeId.distance target b.id :=
    pairwise_distance (hwf.nodup_ids.sublist (filter_sublist.map _))
  refine ⟨?_, ?_, ?_, fun n hn hout m hm => NodeId.closer_iff.2 ?_⟩
  · rw [hclosest, length_take, hperm.length_eq]
  · rw [hclosest]
    exact (take_sublist count _).subperm.trans hperm.subperm
  · rw [hclosest]
    exact hsorted.sublist (take_sublist count _)
  · -- What is left out comes behind.
    rw [hclosest] at hout hm
    rw [← hperm.mem_iff, ← take_append_drop count (nodes.insertionSort _), mem_append] at hn
    rw [← take_append_drop count (nodes.insertionSort _), pairwise_append] at hsorted
    exact hsorted.2.2 m hm n (hn.resolve_left hout)

/-! ## Random IDs of a bucket -/

/-- A random ID that belongs to a bucket. -/
def randomIdInBucket (t : RoutingTable) (draw : NodeId) (index : ℕ) : NodeId :=
  let last : Bool := index = t.buckets.length - 1
  NodeId.randomWithPrefix draw t.self index !last

theorem WellFormed.bucketIndexFor_randomIdInBucket (h : WellFormed t) (draw : NodeId) {index : ℕ}
    (hlt : index < t.buckets.length) :
    t.bucketIndexFor (t.randomIdInBucket draw index) = index := by
  have hle := h.le_bits
  rw [bucketIndexFor, randomIdInBucket]
  obtain ⟨hshared, hexact⟩ := NodeId.commonPrefixLength_randomWithPrefix draw t.self index
    (!decide (index = t.buckets.length - 1))
  by_cases hlast : index = t.buckets.length - 1
  · omega
  · have hshares := hexact (by simpa using hlast) (Int.natCast_nonneg index) (by omega)
    omega

/-- A random ID of a bucket belongs to it, and what a random ID shares with another one is
    what was asked for. -/
theorem randomIdInBucket_run :
    (∀ (self : NodeId) (restrictOnePerIp : Bool) (ops : List Op) (draw : NodeId) (index : ℕ),
      let t := (new self restrictOnePerIp).run ops
      index < t.buckets.length → t.bucketIndexFor (t.randomIdInBucket draw index) = index) ∧
    ∀ (base draw : NodeId) (prefixBits : ℤ) (exact : Bool),
      let shared := NodeId.commonPrefixLength base
        (NodeId.randomWithPrefix draw base prefixBits exact)
      min prefixBits NodeId.Bits ≤ shared ∧
        (exact → 0 ≤ prefixBits → prefixBits < NodeId.Bits → shared = prefixBits) :=
  ⟨fun self restrictOnePerIp ops draw _ hlt =>
    (wellFormed_run self restrictOnePerIp ops).1.bucketIndexFor_randomIdInBucket draw hlt,
    fun base draw prefixBits exact =>
      NodeId.commonPrefixLength_randomWithPrefix draw base prefixBits exact⟩

/-- A random ID of the only bucket of a table, and one that shares twelve bits. -/
theorem randomIdInBucket_run_twelve :
    let t := (new default).run []
    let base : NodeId := ⟨List.replicate 20 0xff, rfl⟩
    t.bucketIndexFor (t.randomIdInBucket base 0) = 0 ∧
      NodeId.commonPrefixLength base (NodeId.randomWithPrefix default base 12 true) = (12 : ℤ) := by
  intro t base
  exact ⟨randomIdInBucket_run.1 default true [] base 0 (by decide),
    (randomIdInBucket_run.2 base default 12 true).2 rfl (by decide) (by decide)⟩

end Dht.RoutingTable
