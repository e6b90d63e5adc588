import DhtCore.History.Record

/-!
# The averages of the history

A sample that is held should be the average of those it stands for (`TrueAverages`): of each
metric, over those that knew it, and of the share of each client, over all of them. A merge
weighs a value by the span of its sample, though part of that span may not have known the
metric; so the averages are true exactly as long as no merge is of parts that differ both in
their values and in how much of their spans knew them (`true_averages_iff`).
-/

namespace Dht.History

open List Thinning

variable {added run run' : List HistorySample} {s t : Merged HistorySample}
  {i : Metric} {name : String} {wa wb : ℚ}

/-! ## Weighted means -/

/-- The weighted mean of values, none if there are none. -/
def mean (l : List (ℚ × ℚ)) : Option ℚ :=
  if l.isEmpty then none else some ((l.map fun p => p.1 * p.2).sum / (l.map (·.2)).sum)

/-- What is known of a metric: the values, and the spans they are for. -/
def known (i : Metric) (run : List HistorySample) : List (ℚ × ℚ) :=
  run.filterMap fun s => (s.values i).map fun v => (v, (s.spanMs : ℚ))

/-- The time a run stands for. -/
def span (run : List HistorySample) : ℚ := (run.map fun s => (s.spanMs : ℚ)).sum

/-- The part of it for which a metric was known. -/
def knownSpan (i : Metric) (run : List HistorySample) : ℚ := ((known i run).map (·.2)).sum

/-- The share of a client, zero if it is not listed. -/
def shareOf (name : String) (s : HistorySample) : ℚ := (s.clientShares.lookup name).getD 0

/-- The mean share of a client in a run of samples, weighted by their spans. -/
def meanShare (name : String) (run : List HistorySample) : ℚ :=
  (run.map fun s => shareOf name s * s.spanMs).sum / span run

/-- A sample is the average of a run. -/
structure TrueAverages (run : List HistorySample) (s : HistorySample) : Prop where
  values : ∀ i, s.values i = mean (known i run)
  shares : ∀ name, shareOf name s = meanShare name run

/-- What the callers of `add` promise: each client is listed once. -/
def Distinct (s : HistorySample) : Prop := (s.clientShares.map (·.1)).Nodup

/-! ## Clients -/

theorem lookup_map_eq (order : List String) (g : String → ℚ) (name : String) :
    ((order.map fun n => (n, g n)).lookup name).getD 0 = if name ∈ order then g name else 0 := by
  induction order with
  | nil => rfl
  | cons n order ih =>
    rw [map_cons, lookup_cons]
    by_cases hn : name = n
    · subst hn
      simp
    · rw [show (name == n) = false from beq_false_of_ne hn, ih]
      simp [hn]

/-- Of a list in which each client is listed once. -/
theorem sum_of_nodup {l : List (String × ℚ)} (h : (l.map (·.1)).Nodup) (w : ℚ) (name : String) :
    ((l.map fun p => (p.1, p.2 * w)).map fun e => if e.1 = name then e.2 else 0).sum =
      (l.lookup name).getD 0 * w := by
  induction l with
  | nil => simp
  | cons p l ih =>
    rw [map_cons, nodup_cons] at h
    rw [map_cons, map_cons, sum_cons, ih h.2, lookup_cons]
    by_cases hn : p.1 = name
    · have hnone : l.lookup name = none := by
        rw [lookup_eq_none_iff]
        intro q hq
        rw [bne_iff_ne]
        rintro rfl
        exact h.1 (hn ▸ mem_map_of_mem hq)
      rw [if_pos hn, hnone, show (name == p.1) = true from beq_iff_eq.2 hn.symm]
      simp
    · rw [if_neg hn, show (name == p.1) = false from beq_false_of_ne (Ne.symm hn), zero_add]

theorem fold_older (l : List (String × ℚ)) (t : Tally String ℚ) (order : List String) :
    l.foldl (fun (shares, order) p => (shares.add p.1 (p.2 * wa), order ++ [p.1])) (t, order) =
      (t.addAll (l.map fun p => (p.1, p.2 * wa)), order ++ l.map (·.1)) := by
  induction l generalizing t order with
  | nil => rw [foldl_nil, map_nil, map_nil, append_nil]; rfl
  | cons p l ih =>
    rw [foldl_cons, ih, append_assoc]
    rfl

/-- The clients of the newer sample come after those of the older one, each once. -/
theorem fold_newer (wb : ℚ) {l : List (String × ℚ)} (h : (l.map (·.1)).Nodup) (t : Tally String ℚ)
    (order : List String) (horder : ∀ n, n ∈ order ↔ n ∈ t) (hnodup : order.Nodup) :
    ∃ order', l.foldl (fun (shares, order) p =>
        (shares.add p.1 (p.2 * wb), if p.1 ∈ shares then order else order ++ [p.1])) (t, order) =
      (t.addAll (l.map fun p => (p.1, p.2 * wb)), order') ∧
      (∀ n, n ∈ order' ↔ n ∈ order ∨ n ∈ l.map (·.1)) ∧ order'.Nodup := by
  induction l generalizing t order with
  | nil => exact ⟨order, rfl, by simp, hnodup⟩
  | cons p l ih =>
    rw [map_cons, nodup_cons] at h
    have horder' : ∀ n, n ∈ (if p.1 ∈ t then order else order ++ [p.1]) ↔
        n ∈ t.add p.1 (p.2 * wb) := fun n => by
      rw [Tally.mem_add]
      split_ifs with hp
      · rw [horder]
        refine ⟨.inr, fun hn => ?_⟩
        rcases hn with rfl | hn
        · exact hp
        · exact hn
      · rw [mem_append, horder, mem_singleton, or_comm]
    have hnodup' : (if p.1 ∈ t then order else order ++ [p.1]).Nodup := by
      split_ifs with hp
      · exact hnodup
      · exact hnodup.append (nodup_singleton _) (by simpa [horder] using hp)
    obtain ⟨order', hfold, hmem, hnodup''⟩ := ih h.2 _ _ horder' hnodup'
    refine ⟨order', by rw [foldl_cons, hfold]; rfl, fun n => ?_, hnodup''⟩
    rw [hmem, map_cons, mem_cons, horder', Tally.mem_add, horder]
    tauto

theorem mergeShares_spec (wa wb : ℚ) {older newer : List (String × ℚ)} (h : (older.map (·.1)).Nodup)
    (h' : (newer.map (·.1)).Nodup) :
    ((mergeShares wa wb older newer).map (·.1)).Nodup ∧
    ∀ name, ((mergeShares wa wb older newer).lookup name).getD 0 =
      ((older.lookup name).getD 0 * wa + (newer.lookup name).getD 0 * wb) / (wa + wb) := by
  let t : Tally String ℚ := Tally.addAll ∅ (older.map fun p => (p.1, p.2 * wa))
  have hmem : ∀ n, n ∈ older.map (·.1) ↔ n ∈ t := fun n => by
    rw [Tally.mem_addAll]
    simp [AList.notMem_empty]
  obtain ⟨order, hfold, horder, hnodup⟩ := fold_newer wb h' t _ hmem h
  have hmerge : mergeShares wa wb older newer = order.map fun name =>
      (name, (t.addAll (newer.map fun p => (p.1, p.2 * wb))).count name / (wa + wb)) := by
    rw [mergeShares, fold_older, nil_append]
    dsimp only
    rw [hfold]
  have hcount : ∀ name, (t.addAll (newer.map fun p => (p.1, p.2 * wb))).count name =
      (older.lookup name).getD 0 * wa + (newer.lookup name).getD 0 * wb := fun name => by
    rw [Tally.count_addAll, Tally.count_addAll, Tally.count_empty, zero_add, sum_of_nodup h,
      sum_of_nodup h']
  rw [hmerge]
  refine ⟨?_, fun name => ?_⟩
  · rw [map_map]
    exact (map_id order).symm ▸ hnodup
  · rw [lookup_map_eq, hcount]
    split_ifs with hname
    · rfl
    · -- A client that is listed in neither.
      have hnone : ∀ {l : List (String × ℚ)}, name ∉ l.map (·.1) → l.lookup name = none := by
        intro l hl
        rw [lookup_eq_none_iff]
        intro p hp
        rw [bne_iff_ne]
        rintro rfl
        exact hl (mem_map_of_mem hp)
      rw [horder, not_or] at hname
      rw [hnone hname.1, hnone hname.2]
      simp

/-! ## What was merged -/

theorem span_append (run run' : List HistorySample) :
    span (run ++ run') = span run + span run' := by
  rw [span, map_append, sum_append]
  rfl

theorem known_append (i : Metric) (run run' : List HistorySample) :
    known i (run ++ run') = known i run ++ known i run' := filterMap_append

theorem span_value (t : Merged HistorySample) : ((t.value merge).spanMs : ℚ) = span t.leaves := by
  induction t with
  | one s => exact (sum_singleton).symm
  | both s t ihs iht =>
    rw [Merged.leaves, span_append, ← ihs, ← iht]
    exact Int.cast_add _ _

/-- All the samples have spans, and list each client once. -/
def WellFormed (run : List HistorySample) : Prop := ∀ s ∈ run, 0 < s.spanMs ∧ Distinct s

theorem WellFormed.left (h : WellFormed (run ++ run')) : WellFormed run :=
  fun s hs => h s (mem_append_left _ hs)

theorem WellFormed.right (h : WellFormed (run ++ run')) : WellFormed run' :=
  fun s hs => h s (mem_append_right _ hs)

theorem WellFormed.span_pos (h : WellFormed t.leaves) : 0 < (t.value merge).spanMs := by
  induction t with
  | one s => exact (h s (mem_singleton_self s)).1
  | both s t ihs iht => exact add_pos (ihs h.left) (iht h.right)

/-- A span weighs what it is long. -/
theorem WellFormed.weight (h : WellFormed t.leaves) :
    ((max 1 (t.value merge).spanMs : ℤ) : ℚ) = span t.leaves := by
  rw [max_eq_right (show 1 ≤ (t.value merge).spanMs from h.span_pos), span_value]

theorem shareOf_value (h : WellFormed t.leaves) :
    Distinct (t.value merge) ∧ ∀ name, shareOf name (t.value merge) = meanShare name t.leaves := by
  induction t with
  | one s =>
    obtain ⟨hpos, hdistinct⟩ := h s (mem_singleton_self s)
    refine ⟨hdistinct, fun name => ?_⟩
    have hne : (s.spanMs : ℚ) ≠ 0 := Int.cast_ne_zero.2 hpos.ne'
    simp only [meanShare, span, Merged.leaves, Merged.value, map_cons, map_nil, sum_singleton]
    rw [mul_div_cancel_right₀ _ hne]
  | both s t ihs iht =>
    obtain ⟨hs, hshare⟩ := ihs h.left
    obtain ⟨ht, hshare'⟩ := iht h.right
    obtain ⟨hnodup, hmerge⟩ := mergeShares_spec
      (max 1 (s.value merge).spanMs : ℤ) (max 1 (t.value merge).spanMs : ℤ) hs ht
    refine ⟨hnodup, fun name => (hmerge name).trans ?_⟩
    have hpos : span s.leaves ≠ 0 := by
      rw [← span_value]
      exact Int.cast_ne_zero.2 h.left.span_pos.ne'
    have hpos' : span t.leaves ≠ 0 := by
      rw [← span_value]
      exact Int.cast_ne_zero.2 h.right.span_pos.ne'
    have hs := hshare name
    have ht := hshare' name
    rw [shareOf] at hs ht
    rw [hs, ht, h.left.weight, h.right.weight, meanShare, meanShare, meanShare, Merged.leaves,
      div_mul_cancel₀ _ hpos, div_mul_cancel₀ _ hpos', span_append, map_append, sum_append]

/-! ## Metrics -/

/-- Two runs agree on a metric, or knew it for the same part of their spans, unless one of
    them did not know it at all. -/
def Balanced (i : Metric) (run run' : List HistorySample) : Prop :=
  ∀ a b, mean (known i run) = some a → mean (known i run') = some b →
    a = b ∨ span run * knownSpan i run' = span run' * knownSpan i run

theorem knownSpan_pos (h : ∀ s ∈ run, 0 < s.spanMs) (hne : known i run ≠ []) :
    0 < knownSpan i run := by
  refine sum_pos _ (fun w hw => ?_) fun hnil => hne (map_eq_nil_iff.1 hnil)
  obtain ⟨p, hp, rfl⟩ := mem_map.1 hw
  obtain ⟨s, hs, hp⟩ := mem_filterMap.1 hp
  obtain ⟨v, -, rfl⟩ := Option.map_eq_some_iff.1 hp
  exact Int.cast_pos.2 (h s hs)

theorem mean_eq_none : mean (known i run) = none ↔ known i run = [] := by
  rw [mean]
  split_ifs with hnil
  · exact iff_of_true rfl (isEmpty_iff.1 hnil)
  · exact iff_of_false (by simp) fun heq => hnil (isEmpty_iff.2 heq)

theorem mean_eq_some {l : List (ℚ × ℚ)} (h : l ≠ []) :
    mean l = some ((l.map fun p => p.1 * p.2).sum / (l.map (·.2)).sum) :=
  if_neg fun hnil => h (isEmpty_iff.1 hnil)

/-- A merge of two true averages is true exactly if they are balanced. -/
theorem values_both_iff (h : WellFormed (s.leaves ++ t.leaves))
    (hs : (s.value merge).values i = mean (known i s.leaves))
    (ht : (t.value merge).values i = mean (known i t.leaves)) :
    ((Merged.both s t).value merge).values i = mean (known i (Merged.both s t).leaves) ↔
      Balanced i s.leaves t.leaves := by
  have hvalue : ((Merged.both s t).value merge).values i =
      mergeValue (span s.leaves) (span t.leaves) (mean (known i s.leaves))
        (mean (known i t.leaves)) := by
    rw [← hs, ← ht, ← h.left.weight, ← h.right.weight]
    rfl
  rw [hvalue, Merged.leaves, known_append]
  by_cases hnone : known i s.leaves = []
  · -- Only one of the two knew it, at most.
    rw [mean_eq_none.2 hnone, hnone, nil_append]
    refine iff_of_true rfl fun a b ha => ?_
    rw [mean_eq_none.2 hnone] at ha
    exact absurd ha (by simp)
  by_cases hnone' : known i t.leaves = []
  · rw [mean_eq_none.2 hnone', hnone', append_nil]
    refine iff_of_true ?_ fun a b _ hb => ?_
    · rw [mean_eq_some hnone]
      rfl
    · rw [mean_eq_none.2 hnone'] at hb
      exact absurd hb (by simp)
  have hpos := knownSpan_pos (fun s hs => (h.left s hs).1) hnone
  have hpos' := knownSpan_pos (fun s hs => (h.right s hs).1) hnone'
  have hspan : 0 < span s.leaves := by
    rw [← span_value]
    exact Int.cast_pos.2 h.left.span_pos
  have hspan' : 0 < span t.leaves := by
    rw [← span_value]
    exact Int.cast_pos.2 h.right.span_pos
  rw [Balanced, mean_eq_some hnone, mean_eq_some hnone',
    mean_eq_some (append_ne_nil_of_left_ne_nil hnone _), map_append, map_append, sum_append,
    sum_append, mergeValue, Option.some.injEq]
  simp only [Option.some.injEq]
  rw [knownSpan] at hpos hpos'
  rw [knownSpan, knownSpan]
  generalize ((known i s.leaves).map (·.2)).sum = k at hpos ⊢
  generalize ((known i t.leaves).map (·.2)).sum = k' at hpos' ⊢
  generalize ((known i s.leaves).map fun p => p.1 * p.2).sum = a
  generalize ((known i t.leaves).map fun p => p.1 * p.2).sum = b
  generalize span s.leaves = w at hspan ⊢
  generalize span t.leaves = w' at hspan' ⊢
  -- The merged value is off by the difference of the two, times that of their shares.
  have hfactor : (a / k * w + b / k' * w') / (w + w') - (a + b) / (k + k') =
      (a / k - b / k') * (w * k' - w' * k) / ((w + w') * (k + k')) := by
    field_simp
    ring
  have hweights := (mul_pos (add_pos hspan hspan') (add_pos hpos hpos')).ne'
  rw [← sub_eq_zero, hfactor, div_eq_zero_iff, mul_eq_zero, sub_eq_zero, sub_eq_zero,
    or_iff_left hweights]
  exact ⟨fun h a b ha hb => ha ▸ hb ▸ h, fun h => h _ _ rfl rfl⟩

/-- Two samples that were added are balanced. -/
theorem balanced_singleton (s t : HistorySample) : Balanced i [s] [t] := by
  have hknown : ∀ {s : HistorySample} {v}, mean (known i [s]) = some v →
      knownSpan i [s] = span [s] := by
    intro s v hmean
    cases hvalue : s.values i with
    | none =>
      have hnone : known i [s] = [] := by rw [known, filterMap_cons, hvalue]; rfl
      exact absurd (hmean.symm.trans (mean_eq_none.2 hnone)) (Option.some_ne_none v)
    | some w => rw [knownSpan, known, filterMap_cons, hvalue]; rfl
  intro a b ha hb
  exact .inr (by rw [hknown ha, hknown hb, mul_comm])

/-! ## Runs -/

/-- The samples that each one that is held stands for. -/
def runs (added : List HistorySample) : List (List HistorySample) :=
  (trees added).map Merged.leaves

/-- The runs that are merged when one more sample is added. -/
def merges (added : List HistorySample) (s : HistorySample) :
    List (List HistorySample × List HistorySample) :=
  let l := trees added ++ [.one s]
  if l.length > MaxSamples then
    (neighbours (Merged.standsApart (·.gapBefore)) (l.take (l.length - KeepFullDetail))).map
      fun p => (p.1.leaves, p.2.leaves)
  else []

/-- A tree whose sample is the average of each metric. -/
def Averaged (t : Merged HistorySample) : Prop :=
  ∀ i, (t.value merge).values i = mean (known i t.leaves)

theorem averaged_one {a : HistorySample} (h : 0 < a.spanMs) : Averaged (.one a) := by
  intro i
  simp only [Merged.value, Merged.leaves, known, filterMap_cons, filterMap_nil]
  have hne : (a.spanMs : ℚ) ≠ 0 := Int.cast_ne_zero.2 h.ne'
  cases a.values i with
  | none => rfl
  | some v => simp [mean, hne]

theorem averaged_both_iff (h : WellFormed (s.leaves ++ t.leaves)) (hs : Averaged s)
    (ht : Averaged t) : Averaged (.both s t) ↔ ∀ i, Balanced i s.leaves t.leaves :=
  forall_congr' fun i => values_both_iff h (hs i) (ht i)

theorem leaves_subset (ht : t ∈ trees added) : t.leaves ⊆ added := fun _ hs =>
  (flatMap_leaves_trees _ _ _ added).subset (mem_flatMap.2 ⟨t, ht, hs⟩)

/-- The samples held are true averages exactly if the trees are. -/
theorem trueAverages_iff (h : WellFormed added) :
    Forall₂ TrueAverages (runs added) (record added) ↔ ∀ t ∈ trees added, Averaged t := by
  rw [record_eq, runs, forall₂_map_left_iff, forall₂_map_right_iff, forall₂_same]
  refine forall₂_congr fun t ht => ⟨fun h => h.values, fun htrue => ⟨htrue, ?_⟩⟩
  exact (shareOf_value fun s hs => h s (leaves_subset ht hs)).2

/-- Adding a sample keeps the averages true exactly if what is merged is balanced. -/
theorem averaged_append_iff {a : HistorySample} (h : WellFormed (added ++ [a]))
    (htrue : ∀ t ∈ trees added, Averaged t) :
    (∀ t ∈ trees (added ++ [a]), Averaged t) ↔
      ∀ p ∈ merges added a, ∀ i, Balanced i p.1 p.2 := by
  let l := trees added ++ [.one a]
  let older := l.take (l.length - KeepFullDetail)
  have hl : ∀ t ∈ l, Averaged t ∧ WellFormed t.leaves := by
    intro t ht
    rcases mem_append.1 ht with ht | ht
    · exact ⟨htrue t ht, fun s hs => h s (mem_append_left _ (leaves_subset ht hs))⟩
    · rw [mem_singleton] at ht
      subst ht
      have ha := h a (mem_append_right _ (mem_singleton_self a))
      exact ⟨averaged_one ha.1, fun s hs => mem_singleton.1 hs ▸ ha⟩
  have hboth : ∀ p ∈ neighbours (Merged.standsApart (·.gapBefore)) older,
      Averaged (.both p.1 p.2) ↔ ∀ i, Balanced i p.1.leaves p.2.leaves := fun p hp => by
    obtain ⟨hs, ht⟩ := mem_of_mem_neighbours hp
    obtain ⟨hs, hwf⟩ := hl p.1 (mem_of_mem_take hs)
    obtain ⟨ht, hwf'⟩ := hl p.2 (mem_of_mem_take ht)
    refine averaged_both_iff (fun s hs => ?_) hs ht
    rcases mem_append.1 hs with hs | hs
    · exact hwf s hs
    · exact hwf' s hs
  rcases add_cases .both (Merged.standsApart (·.gapBefore)) KeepFullDetail
    (length_trees_le (·.gapBefore) added) (.one a) with
    ⟨hle, heq⟩ | ⟨hlen, -, heq⟩ | ⟨hlen, hnone, heq⟩
  · -- There is room for the sample.
    have hmerges : merges added a = [] := if_neg (not_lt.2 hle)
    have hmem : ∀ t ∈ trees (added ++ [a]), t ∈ l := by
      rw [trees, trees_append, heq]
      exact fun _ => id
    rw [hmerges]
    exact iff_of_true (fun t ht => (hl t (hmem t ht)).1) fun p hp => absurd hp not_mem_nil
  · -- Some older ones are merged in pairs.
    have hmerges : merges added a =
        (neighbours (Merged.standsApart (·.gapBefore)) older).map
          fun p => (p.1.leaves, p.2.leaves) := if_pos (Nat.lt_of_succ_le hlen.ge)
    have htrees : trees (added ++ [a]) = mergeNeighbours .both
        (Merged.standsApart (·.gapBefore)) older ++ l.drop (l.length - KeepFullDetail) := by
      rw [trees, trees_append, heq]
      rfl
    rw [hmerges, htrees]
    refine ⟨fun hall p hp => ?_, fun hbalanced t ht => ?_⟩
    · obtain ⟨q, hq, rfl⟩ := mem_map.1 hp
      exact (hboth q hq).1 (hall _ (mem_append_left _ (merge_mem hq)))
    · rcases mem_append.1 ht with ht | ht
      · refine forall_mergeNeighbours (fun t ht => (hl t (mem_of_mem_take ht)).1)
          (fun p hp _ _ => ?_) t ht
        exact (hboth p hp).2 (hbalanced _ (mem_map_of_mem hp))
      · exact (hl t (mem_of_mem_drop ht)).1
  · have hmerges : merges added a = [] := by
      have hmerges : merges added a = map _ _ := if_pos (Nat.lt_of_succ_le hlen.ge)
      rw [hmerges]
      exact congrArg (map _) hnone
    -- None can be merged, so that the oldest one goes.
    have htrees : trees (added ++ [a]) = l.tail := by
      rw [trees, trees_append, heq]
      rfl
    rw [hmerges, htrees]
    exact iff_of_true (fun t ht => (hl t (mem_of_mem_tail ht)).1) fun p hp => absurd hp not_mem_nil

/-- The averages are true at all times exactly as long as what is merged is balanced. -/
theorem true_averages_iff (added : List HistorySample) (h : WellFormed added) :
    (∀ before, before <+: added → Forall₂ TrueAverages (runs before) (record before)) ↔
    ∀ before s, before ++ [s] <+: added → ∀ p ∈ merges before s, ∀ i, Balanced i p.1 p.2 := by
  have hwf : ∀ before, before <+: added → WellFormed before := fun before hbefore s hs =>
    h s (hbefore.subset hs)
  refine ⟨fun htrue before s hbefore => ?_, fun hbalanced before hbefore => ?_⟩
  · have hbefore' : before <+: added := (prefix_append _ _).trans hbefore
    refine (averaged_append_iff (hwf _ hbefore) ?_).1 ?_
    · exact (trueAverages_iff (hwf _ hbefore')).1 (htrue _ hbefore')
    · exact (trueAverages_iff (hwf _ hbefore)).1 (htrue _ hbefore)
  · rw [trueAverages_iff (hwf _ hbefore)]
    induction before using reverseRecOn with
    | nil => exact fun t ht => absurd ht not_mem_nil
    | append_singleton before s ih =>
      exact (averaged_append_iff (hwf _ hbefore) (ih ((prefix_append _ _).trans hbefore))).2
        (hbalanced _ _ hbefore)

/-- A second's sample that knows the round trip time, or does not. -/
def rttSample (gapBefore : Bool) (rtt : Option ℚ) : HistorySample where
  spanMs := 1000
  gapBefore
  values i := if i = .RttMedianMs then rtt else none

theorem wellFormed_of_rttSample (h : ∀ s ∈ run, ∃ gap rtt, s = rttSample gap rtt) :
    WellFormed run := fun s hs => by
  obtain ⟨gap, rtt, rfl⟩ := h s hs
  exact ⟨show (0 : ℤ) < 1000 by decide, nodup_nil⟩

/-- The second sample did not know the round trip time: when the first two are merged with the
    next two, the value of the first weighs as much as those of the other two. -/
theorem not_true_averages :
    let added := [rttSample true (some 100), rttSample false none, rttSample false (some 400),
      rttSample false (some 400)] ++ replicate 719 (rttSample true none)
    WellFormed added ∧ ¬Forall₂ TrueAverages (runs added) (record added) := by
  intro added
  let gap := rttSample true none
  let first := [rttSample true (some 100), rttSample false none, rttSample false (some 400),
    rttSample false (some 400)]
  have hwf : WellFormed added := wellFormed_of_rttSample fun s hs => by
    simp only [added, cons_append, nil_append, mem_cons, mem_replicate] at hs
    rcases hs with rfl | rfl | rfl | rfl | ⟨-, rfl⟩ <;> exact ⟨_, _, rfl⟩
  refine ⟨hwf, fun h => ?_⟩
  -- The first four are merged in two steps, the last of which is at the end.
  have hsnoc : ∀ n, first ++ replicate (n + 1) gap = first ++ replicate n gap ++
      [gap] := fun n => by
    rw [append_assoc, replicate_succ']
  have hstart : trees (first ++ replicate 716 gap) =
      first.map .one ++ replicate 716 (.one gap) := by
    rw [trees, trees_of_length_le, map_append, map_replicate]
    rw [length_append, length_replicate]
    decide
  have hpairs : trees (first ++ replicate 717 gap) =
      mergeNeighbours .both (Merged.standsApart (·.gapBefore)) (first.map .one) ++
        replicate 717 (.one gap) := by
    rw [hsnoc, trees, trees_append, ← trees, hstart]
    exact add_append_replicate rfl rfl (by decide) (by simp [first, rttSample, neighbours,
      Merged.standsApart])
  have hroom : trees (first ++ replicate 718 gap) =
      mergeNeighbours .both (Merged.standsApart (·.gapBefore)) (first.map .one) ++
        replicate 718 (.one gap) := by
    rw [hsnoc, trees, trees_append, ← trees, hpairs, add_of_lt, append_assoc, ← replicate_succ']
    rw [length_append, length_replicate]
    decide
  have hfour : trees added = mergeNeighbours .both (Merged.standsApart (·.gapBefore))
      (mergeNeighbours .both (Merged.standsApart (·.gapBefore)) (first.map .one)) ++
        replicate 719 (.one gap) := by
    rw [show added = first ++ replicate 719 gap from rfl, hsnoc, trees, trees_append, ← trees,
      hroom]
    exact add_append_replicate rfl rfl (by decide) (by simp [first, rttSample, neighbours,
      mergeNeighbours, Merged.standsApart])
  rw [trueAverages_iff hwf, hfour] at h
  have hall := h (.both (.both (.one (rttSample true (some 100))) (.one (rttSample false none)))
    (.both (.one (rttSample false (some 400))) (.one (rttSample false (some 400)))))
    (mem_append_left _ (mem_singleton_self _)) .RttMedianMs
  exact absurd hall (by decide +kernel)

/-- Of samples past the cap, the two oldest are merged; as both knew the round trip time, the
    average is that of both. -/
theorem true_averages_merged :
    let added := [rttSample true (some 100), rttSample false (some 400)] ++
      replicate 719 (rttSample true none)
    Forall₂ TrueAverages (runs added) (record added) ∧
      ∃ s ∈ record added, s.spanMs = 2000 ∧ s.values .RttMedianMs = some 250 := by
  intro added
  let first := [rttSample true (some 100), rttSample false (some 400)]
  let gap := rttSample true none
  have hwf : WellFormed added := wellFormed_of_rttSample fun s hs => by
    simp only [added, cons_append, nil_append, mem_cons, mem_replicate] at hs
    rcases hs with rfl | rfl | ⟨-, rfl⟩ <;> exact ⟨_, _, rfl⟩
  have hlength : added.length = MaxSamples + 1 := by
    rw [length_append, length_replicate]
    rfl
  constructor
  · refine (true_averages_iff added hwf).2 (fun before s hbefore p hp i => ?_) added prefix_rfl
    have hle := hbefore.length_le
    rw [length_append, length_singleton, hlength, Nat.add_le_add_iff_right] at hle
    rw [merges, trees, trees_of_length_le hle] at hp
    split_ifs at hp
    · -- What is merged when the last sample is added has not been merged before.
      obtain ⟨q, hq, rfl⟩ := mem_map.1 hp
      have hone : ∀ t ∈ before.map Merged.one ++ [.one s], ∃ a : HistorySample, t = .one a :=
        fun t ht => (mem_append.1 ht).elim (fun h => (mem_map.1 h).imp fun _ h => h.2.symm)
          fun h => ⟨s, mem_singleton.1 h⟩
      obtain ⟨h₁, h₂⟩ := mem_of_mem_neighbours hq
      obtain ⟨a, ha⟩ := hone _ (mem_of_mem_take h₁)
      obtain ⟨b, hb⟩ := hone _ (mem_of_mem_take h₂)
      rw [ha, hb]
      exact balanced_singleton a b
    · exact absurd hp not_mem_nil
  · have hsnoc : added = first ++ replicate 718 gap ++ [gap] := by
      rw [append_assoc, ← replicate_succ']
    have htrees : trees added =
        mergeNeighbours .both (Merged.standsApart (·.gapBefore)) (first.map .one) ++
          replicate 719 (.one gap) := by
      have hfull : (first ++ replicate 718 gap).length ≤ MaxSamples := by
        rw [length_append, length_replicate]
        decide
      rw [hsnoc, trees, trees_append, trees_of_length_le hfull, map_append, map_replicate]
      exact add_append_replicate rfl rfl (by decide) (by simp [first, rttSample, neighbours,
        Merged.standsApart])
    rw [record_eq, htrees]
    exact ⟨_, mem_map_of_mem (mem_append_left _ (mem_singleton_self _)), rfl, by decide +kernel⟩

end Dht.History
