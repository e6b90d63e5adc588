import DhtCore.History.Basic

/-!
# The history is contiguous

Every sample that is held stands for a run of those that were added (`Covers`), one after the
other up to the newest (`contiguous_record`). What it was merged from is a tree.
-/

namespace Dht.History

open List Thinning

variable {added : List HistorySample} {t : Merged HistorySample}

/-- What each sample that is held was merged from. -/
def trees (added : List HistorySample) : List (Merged HistorySample) :=
  Thinning.trees (·.gapBefore) KeepFullDetail MaxSamples added

/-- What a sample says of those it stands for. -/
structure Covers (run : List HistorySample) (s : HistorySample) : Prop where
  span : s.spanMs = (run.map (·.spanMs)).sum
  atMs : run.getLast?.map (·.atMs) = some s.atMs
  gapBefore : run.head?.map (·.gapBefore) = some s.gapBefore
  joined : ∀ x ∈ run.tail, x.gapBefore = false

theorem gapBefore_merge (older newer : HistorySample) :
    (merge older newer).gapBefore = older.gapBefore := rfl

theorem record_eq (added : List HistorySample) :
    record added = (trees added).map (Merged.value merge) := by
  have hadd : add = Thinning.add merge (·.gapBefore) KeepFullDetail MaxSamples := rfl
  rw [trees, map_value_trees gapBefore_merge, record, hadd]
  rfl

theorem covers_value (h : t.Joined (·.gapBefore)) : Covers t.leaves (t.value merge) := by
  refine ⟨?_, ?_, ?_, h⟩
  · clear h
    induction t with
    | one s => exact (sum_singleton).symm
    | both s t ihs iht =>
      rw [Merged.leaves, map_append, sum_append, ← ihs, ← iht]
      rfl
  · clear h
    induction t with
    | one s => rfl
    | both s t _ iht =>
      rw [Merged.leaves, getLast?_append_of_ne_nil _ t.leaves_ne_nil, iht]
      rfl
  · clear h
    induction t with
    | one s => rfl
    | both s t ihs _ =>
      rw [Merged.leaves, head?_append_of_ne_nil _ s.leaves_ne_nil, ihs]
      rfl

/-- The history holds at most so many samples, the newest as they were added. Those it holds
    are the runs of an unbroken stretch of the samples that were added, up to the newest; and
    one is dropped only when none of the older part can be merged. -/
theorem contiguous_record : ∃ runs : List HistorySample → List (List HistorySample), ∀ added,
    (record added).length ≤ MaxSamples ∧
    (record added).rtake (min added.length KeepFullDetail) =
      added.rtake (min added.length KeepFullDetail) ∧
    (runs added).flatten <:+ added ∧
    Forall₂ Covers (runs added) (record added) ∧
    ∀ s, (runs (added ++ [s])).flatten = (runs added).flatten ++ [s] ∨
      (∀ x ∈ (older (record added ++ [s])).tail, x.gapBefore = true) ∧
        (record added ++ [s]).length = MaxSamples + 1 ∧
        runs (added ++ [s]) = (runs added ++ [[s]]).tail := by
  refine ⟨fun added => (trees added).map (·.leaves), fun added => ⟨?_, ?_, ?_, ?_, fun s => ?_⟩⟩
  · exact length_record_le added
  · have hnewest : (trees added).rtake (min added.length KeepFullDetail) = _ :=
      rtake_trees (by decide) added (min_le_right _ _)
    have hmap : ∀ l : List (Merged HistorySample), ∀ k,
        (l.map (Merged.value merge)).rtake k = (l.rtake k).map (Merged.value merge) := fun l k => by
      rw [rtake, rtake, length_map, map_drop]
    rw [record_eq, hmap, hnewest, map_map]
    exact map_id _
  · exact flatMap_leaves_trees _ _ _ added
  · rw [record_eq, forall₂_map_left_iff, forall₂_map_right_iff, forall₂_same]
    exact fun t ht => covers_value (joined_trees added t ht)
  · have hrecord : record added ++ [s] =
        (trees added ++ [Merged.one s]).map (Merged.value merge) := by
      rw [map_append, ← record_eq]
      rfl
    rcases flatMap_leaves_trees_append (·.gapBefore) KeepFullDetail MaxSamples added s with
      heq | ⟨hnone, hlength, heq⟩
    · left
      rw [flatMap_append] at heq
      exact heq
    · right
      rw [neighbours_eq_nil_iff] at hnone
      rw [hrecord, older, length_map, ← map_take, ← map_tail]
      refine ⟨fun x hx => ?_, hlength, ?_⟩
      · obtain ⟨t, ht, rfl⟩ := mem_map.1 hx
        exact (Merged.apart_value gapBefore_merge t).trans (hnone t ht)
      · change (trees (added ++ [s])).map Merged.leaves = _
        rw [trees, heq, map_tail, map_append]
        rfl

end Dht.History
