import DhtCore.NetworkStats.Basic
import Mathlib.Algebra.BigOperators.Pi

/-!
# Statistics conserve addresses

What is gathered of a family counts each of its addresses once (`networkStats_conserve`): as
heard of or as unroutable, and, if a node there answers, with a weight of one in all that is
weighed. Adding an address keeps these sums (`Conserves.addAddress`), for adding a node adds
its weight to each (`Weighed.addNode`).
-/

namespace Dht

open List

/-! ## Weights -/

section

variable {ι M : Type} [DecidableEq ι] [AddCommMonoid M] (f : ι → M) (i : ι) (w : M)

theorem bump_apply (j : ι) : bump f i w j = f j + if j = i then w else 0 := by
  rw [bump]
  split_ifs with h
  · rw [h, Function.update_self]
  · rw [Function.update_of_ne h, add_zero]

theorem sum_bump [Fintype ι] : ∑ j, bump f i w j = ∑ j, f j + w := by
  simp only [bump_apply, Finset.sum_add_distrib, Finset.sum_ite_eq', Finset.mem_univ, if_true]

end

theorem FeatureTally.tested_tally_le (t : FeatureTally) {weight : ℚ} (hw : 0 ≤ weight)
    (tested has : Bool) : (t.tally weight tested has).tested ≤ t.tested + weight := by
  cases tested with
  | true => exact le_rfl
  | false => exact le_add_of_nonneg_right hw

theorem FeatureTally.yes_tally_le {t : FeatureTally} (h : t.yes ≤ t.tested) {weight : ℚ}
    (hw : 0 ≤ weight) (tested has : Bool) :
    (t.tally weight tested has).yes ≤ (t.tally weight tested has).tested := by
  cases tested with
  | true =>
    cases has with
    | true => exact add_le_add h le_rfl
    | false => exact add_le_add h hw
  | false => exact h

namespace Accumulator

/-- What is weighed weighs so much in all. -/
structure Weighed (x : ℚ) (a : Accumulator) : Prop where
  versions : a.versions.total = x
  bep42 : ∑ i, a.bep42 i = x
  ports : ∑ p, a.ports p = x
  rttWeight : a.rttWeight ≤ x
  tested : ∀ i, (a.features i).tested ≤ x
  yes : ∀ i, (a.features i).yes ≤ (a.features i).tested
  nonneg : ∀ p, 0 ≤ a.ports p

variable {x w : ℚ} {a : Accumulator} {c : NodeCatalog} {nowMs : ℤ}

/-- A node adds its weight. -/
theorem Weighed.addNode (h : Weighed x a) (hw : 0 ≤ w) (e : CatalogEntry) :
    Weighed (x + w) (a.addNode w e) where
  versions := by rw [Accumulator.addNode, Tally.total_add, h.versions]
  bep42 := by rw [Accumulator.addNode, sum_bump, h.bep42]
  ports := by rw [Accumulator.addNode, sum_bump, h.ports]
  rttWeight := by
    have hrtt := h.rttWeight
    rw [Accumulator.addNode]
    dsimp only
    split_ifs
    · linarith
    · linarith
  tested i := ((a.features i).tested_tally_le hw _ _).trans (add_le_add (h.tested i) le_rfl)
  yes i := FeatureTally.yes_tally_le (h.yes i) hw _ _
  nonneg p := by
    change 0 ≤ bump a.ports ⟨e.port.toNat, e.port.toNat_lt⟩ w p
    rw [bump_apply]
    split_ifs
    · exact add_nonneg (h.nonneg p) hw
    · exact add_nonneg (h.nonneg p) le_rfl

/-- Some nodes add theirs. -/
theorem Weighed.foldl_addNode (nodes : List CatalogEntry) (h : Weighed x a) (hw : 0 ≤ w) :
    Weighed (x + nodes.length * w) (nodes.foldl (fun a e => a.addNode w e) a) := by
  induction nodes generalizing x a with
  | nil => simpa using h
  | cons e nodes ih =>
    have hrest := ih (h.addNode hw e)
    rw [length_cons, Nat.cast_add_one, add_mul, one_mul, add_comm _ w, ← add_assoc]
    exact hrest

/-- What a node leaves unchanged, several nodes do. -/
theorem foldl_addNode_of_frame {β : Type} (g : Accumulator → β)
    (hg : ∀ a e, g (addNode a w e) = g a) (nodes : List CatalogEntry) (a : Accumulator) :
    g (nodes.foldl (fun a e => a.addNode w e) a) = g a := by
  induction nodes generalizing a with
  | nil => rfl
  | cons e nodes ih => rw [foldl_cons, ih, hg]

/-! ## Addresses -/

/-- The bins that addresses were put in, and how many. -/
def binned (a : Accumulator) : ℕ := ∑ i, a.churn.uptimeBins i + ∑ i, a.churn.sessionBins i

/-- What is gathered adds up to the addresses. -/
structure Conserves (a : Accumulator) : Prop where
  weighed : Weighed a.answeringIps a
  binned : a.binned ≤ a.heardIps
  survival : ∀ w, a.churn.survivalKept w ≤ a.churn.survivalBase w

theorem conserves_empty : Conserves {} where
  weighed :=
    { versions := rfl
      bep42 := by simp
      ports := by simp
      rttWeight := le_rfl
      tested := fun _ => le_rfl
      yes := fun _ => le_rfl
      nonneg := fun _ => le_rfl }
  binned := by simp [binned]
  survival _ := le_rfl

/-- An address is put in one bin at most. -/
theorem binned_addChurn (c : NodeCatalog) (nowMs : ℤ) (t : AddressTimes) :
    (a.addChurn c nowMs t).binned ≤ a.binned + 1 := by
  rw [addChurn]
  dsimp only
  split_ifs <;> simp only [binned, sum_bump] <;> omega

theorem survival_addChurn (c : NodeCatalog) (nowMs : ℤ)
    (h : ∀ w, a.churn.survivalKept w ≤ a.churn.survivalBase w) (t : AddressTimes)
    (w : Fin 3) : (a.addChurn c nowMs t).churn.survivalKept w ≤
      (a.addChurn c nowMs t).churn.survivalBase w := by
  -- Kept is who was up for long enough, of those who were up when the window started.
  have hkept : ∀ p : Prop, [Decidable p] →
      (if p then a.churn.survivalKept w + 1 else a.churn.survivalKept w) ≤
        if p then a.churn.survivalBase w + 1 else a.churn.survivalBase w := fun p _ => by
    split_ifs
    · exact Nat.succ_le_succ (h w)
    · exact h w
  have hgone : ∀ p : Prop, [Decidable p] → a.churn.survivalKept w ≤
      if p then a.churn.survivalBase w + 1 else a.churn.survivalBase w := fun p _ => by
    split_ifs
    · exact Nat.le_succ_of_le (h w)
    · exact h w
  rw [addChurn]
  dsimp only
  split_ifs
  · exact hkept _
  · exact hkept _
  · exact hkept _
  · exact hkept _
  · exact hgone _
  · exact hgone _
  · exact h w

theorem answeringIps_addChurn (t : AddressTimes) :
    (a.addChurn c nowMs t).answeringIps = a.answeringIps := by
  rw [addChurn]
  split_ifs <;> rfl

theorem heardIps_addChurn (t : AddressTimes) :
    (a.addChurn c nowMs t).heardIps = a.heardIps := by
  rw [addChurn]
  split_ifs <;> rfl

theorem unroutableIps_addChurn (t : AddressTimes) :
    (a.addChurn c nowMs t).unroutableIps = a.unroutableIps := by
  rw [addChurn]
  split_ifs <;> rfl

theorem Weighed.addChurn (h : Weighed x a) (t : AddressTimes) :
    Weighed x (a.addChurn c nowMs t) := by
  rw [Accumulator.addChurn]
  dsimp only
  split_ifs <;> exact ⟨h.versions, h.bep42, h.ports, h.rttWeight, h.tested, h.yes, h.nonneg⟩

section

variable (run : List CatalogEntry) (answering : ℕ)

/-- What its nodes weigh leaves the counts of the address as they are. -/
theorem addAnswering_of_frame {β : Type} (g : Accumulator → β)
    (hnode : ∀ w a e, g (addNode a w e) = g a)
    (hcounts : ∀ a n m k l, g { a with
      answeringIps := n, answeringNodes := m, multiNodeIps := k, maxNodesPerIp := l } = g a) :
    g (a.addAnswering run answering) = g a := by
  rw [addAnswering]
  by_cases hpos : answering > 0
  · rw [if_pos hpos, foldl_addNode_of_frame g (hnode _), hcounts]
  · rw [if_neg hpos]

theorem heardIps_addAnswering : (a.addAnswering run answering).heardIps = a.heardIps :=
  addAnswering_of_frame run answering (·.heardIps) (fun _ _ _ => rfl) fun _ _ _ _ _ => rfl

theorem unroutableIps_addAnswering :
    (a.addAnswering run answering).unroutableIps = a.unroutableIps :=
  addAnswering_of_frame run answering (·.unroutableIps) (fun _ _ _ => rfl) fun _ _ _ _ _ => rfl

theorem churn_addAnswering : (a.addAnswering run answering).churn = a.churn :=
  addAnswering_of_frame run answering (·.churn) (fun _ _ _ => rfl) fun _ _ _ _ _ => rfl

theorem answeringIps_addAnswering : (a.addAnswering run answering).answeringIps =
    a.answeringIps + if answering > 0 then 1 else 0 := by
  rw [addAnswering]
  by_cases hpos : answering > 0
  · rw [if_pos hpos, if_pos hpos, foldl_addNode_of_frame (·.answeringIps) fun _ _ => rfl]
  · rw [if_neg hpos, if_neg hpos, add_zero]

/-- The nodes of an address weigh one in all. -/
theorem Weighed.addAnswering (h : Weighed x a)
    (hn : (run.filter fun e => e.state = .Responsive).length = answering) :
    Weighed (x + if answering > 0 then 1 else 0) (a.addAnswering run answering) := by
  rw [Accumulator.addAnswering]
  by_cases hpos : answering > 0
  · have hnodes := Weighed.foldl_addNode (run.filter fun e => e.state = .Responsive)
      (a := { a with
        answeringIps := a.answeringIps + 1
        answeringNodes := a.answeringNodes + answering
        multiNodeIps := a.multiNodeIps + if answering > 1 then 1 else 0
        maxNodesPerIp := max a.maxNodesPerIp answering })
      ⟨h.versions, h.bep42, h.ports, h.rttWeight, h.tested, h.yes, h.nonneg⟩
      (one_div_nonneg.2 (Nat.cast_nonneg answering))
    have hne : (answering : ℚ) ≠ 0 := by exact_mod_cast hpos.ne'
    rw [hn, mul_one_div_cancel hne] at hnodes
    rwa [if_pos hpos, if_pos hpos]
  · rwa [if_neg hpos, if_neg hpos, add_zero]

end

/-- The nodes that answer are counted, as they are seen. -/
theorem answering_foldl_see (run : List CatalogEntry) (t : AddressTimes) :
    (run.foldl AddressTimes.see t).answering =
      t.answering + (run.filter fun e => e.state = .Responsive).length := by
  have hsee : ∀ (t : AddressTimes) (e : CatalogEntry), (t.see e).answering =
      t.answering + if e.state = .Responsive then 1 else 0 := fun t e => by
    rw [AddressTimes.see]
    cases h : e.state <;> simp only [reduceCtorEq, if_true, if_false, add_zero]
    · split_ifs <;> rfl
    · split_ifs <;> rfl
  induction run generalizing t with
  | nil => rfl
  | cons e run ih =>
    rw [foldl_cons, ih, hsee, filter_cons]
    by_cases h : e.state = .Responsive
    · simp only [h, if_true, decide_true, length_cons]
      omega
    · simp only [h, if_false, decide_false, Bool.false_eq_true, add_zero]

/-- An address that is heard of adds up. -/
theorem Conserves.addHeard (h : Conserves a) (run : List CatalogEntry) (t : AddressTimes)
    (ht : (run.filter fun e => e.state = .Responsive).length = t.answering)
    (problems : Fin NetworkStats.AddressProblemCount → ℕ) (connected : ℕ) :
    Conserves ((addChurn { a with
      problems, heardIps := a.heardIps + 1, connectedIps := connected } c nowMs t).addAnswering run
        t.answering) := by
  have hchurn : Weighed a.answeringIps (addChurn { a with
      problems, heardIps := a.heardIps + 1, connectedIps := connected } c nowMs t) :=
    Weighed.addChurn (a := { a with
      problems, heardIps := a.heardIps + 1, connectedIps := connected }) ⟨h.weighed.versions,
      h.weighed.bep42, h.weighed.ports, h.weighed.rttWeight,
      h.weighed.tested, h.weighed.yes, h.weighed.nonneg⟩ t
  have hbinned := binned_addChurn (a := { a with
    problems, heardIps := a.heardIps + 1, connectedIps := connected }) c nowMs t
  have hsurvival := survival_addChurn (a := { a with
    problems, heardIps := a.heardIps + 1, connectedIps := connected }) c nowMs h.survival t
  refine ⟨?_, ?_, fun w => ?_⟩
  · have hweighed := hchurn.addAnswering run t.answering ht
    rw [answeringIps_addAnswering, answeringIps_addChurn]
    push_cast
    exact hweighed
  · rw [Accumulator.binned, churn_addAnswering, heardIps_addAnswering, heardIps_addChurn]
    exact hbinned.trans (Nat.succ_le_succ h.binned)
  · rw [churn_addAnswering]
    exact hsurvival w

/-- An address adds up. -/
theorem Conserves.addAddress (h : Conserves a) (run : List CatalogEntry) :
    Conserves (a.addAddress c nowMs run) := by
  rw [Accumulator.addAddress]
  dsimp only
  split_ifs
  · exact ⟨⟨h.weighed.versions, h.weighed.bep42, h.weighed.ports, h.weighed.rttWeight,
      h.weighed.tested, h.weighed.yes, h.weighed.nonneg⟩, h.binned, h.survival⟩
  all_goals
    refine h.addHeard run _ ?_ _ _
    rw [answering_foldl_see]
    exact (zero_add _).symm

/-- An address is heard of, or unroutable. -/
theorem heard_addAddress (run : List CatalogEntry) :
    (a.addAddress c nowMs run).heardIps + (a.addAddress c nowMs run).unroutableIps =
      a.heardIps + a.unroutableIps + 1 := by
  rw [addAddress]
  dsimp only
  cases run.any fun e => e.state ≠ .Unroutable with
  | false => exact (Nat.add_assoc _ _ _).symm
  | true =>
    rw [Bool.not_true, if_neg Bool.false_ne_true,
      heardIps_addAnswering, unroutableIps_addAnswering, heardIps_addChurn,
      unroutableIps_addChurn]
    exact Nat.add_right_comm _ _ _

/-- An address is put in one bin at most, and in none if it is not heard of. -/
theorem binned_addAddress (run : List CatalogEntry) :
    (a.addAddress c nowMs run).binned + a.heardIps ≤
      a.binned + (a.addAddress c nowMs run).heardIps := by
  rw [addAddress]
  dsimp only
  cases run.any fun e => e.state ≠ .Unroutable with
  | false => exact le_rfl
  | true =>
    rw [Bool.not_true, if_neg Bool.false_ne_true,
      heardIps_addAnswering, binned, churn_addAnswering, heardIps_addChurn]
    refine (Nat.add_le_add_right (binned_addChurn ..) _).trans ?_
    exact (Nat.add_right_comm _ _ _).trans_le (Nat.add_assoc _ _ _).le

theorem answeringIps_addAddress (run : List CatalogEntry) :
    (a.addAddress c nowMs run).answeringIps =
      a.answeringIps + if run.any fun e => e.state = .Responsive then 1 else 0 := by
  rw [addAddress]
  dsimp only
  cases hroutable : run.any fun e => e.state ≠ .Unroutable with
  | false =>
    have hnone : (run.any fun e => e.state = .Responsive) = false := by
      rw [any_eq_false] at hroutable ⊢
      intro e he hresponsive
      refine hroutable e he ?_
      rw [of_decide_eq_true hresponsive]
      rfl
    rw [hnone]
    rfl
  | true =>
    rw [Bool.not_true, if_neg Bool.false_ne_true, answeringIps_addAnswering,
      answeringIps_addChurn, answering_foldl_see]
    have hany : (run.any fun e => e.state = .Responsive) = true ↔
        (0 + (run.filter fun e => e.state = .Responsive).length) > 0 := by
      rw [zero_add, gt_iff_lt, length_pos_iff_exists_mem, any_eq_true]
      simp only [mem_filter]
    simp only [hany]

end Accumulator

/-! ## Families -/

/-- How many addresses have an entry that is so. -/
def distinctAddresses (c : NodeCatalog) (p : CatalogEntry → Bool) : ℕ :=
  (((c.slots.map c.entryAt).filter p).map (·.address)).dedup.length

section

variable (sorting : (α : Type) → Sorting.Algorithm α) (c : NodeCatalog) (nowMs : ℤ)

/-- The entries of each address come together, and are all there are of it. -/
theorem addressEntries_eq : ∃ (keys : List (BitVec 128)) (run : BitVec 128 → List CatalogEntry),
    keys.Nodup ∧ (∀ k, k ∈ keys ↔ ∃ e ∈ c.slots.map c.entryAt, e.address = k) ∧
      (∀ k, run k ~ (c.slots.map c.entryAt).filter fun e => e.address = k) ∧
        addressEntries sorting c = keys.map run := by
  let pairs := c.slots.map fun s => ((c.entryAt s).address, s)
  have hlt : (fun a b : BitVec 128 × ℕ => decide (a.1 < b.1)) =
      fun a b => decide (a.1.toNat < b.1.toNat) := rfl
  have hsorted := (sorting _).sorted_sort _ pairs
    (Sorting.strictWeak_of_key fun a : BitVec 128 × ℕ => a.1.toNat)
  have hperm := (sorting _).sort_perm
    (fun a b : BitVec 128 × ℕ => decide (a.1.toNat < b.1.toNat)) pairs
  rw [addressEntries, hlt]
  generalize (sorting (BitVec 128 × ℕ)).sort _ _ = entries at hsorted hperm
  have hpairwise : entries.Pairwise fun a b => a.1.toNat ≤ b.1.toNat :=
    hsorted.imp fun h => not_lt.1 (of_decide_eq_false h)
  have hcontiguous : Runs.Contiguous (fun a : BitVec 128 × ℕ => a.1) entries :=
    Runs.contiguous_of_pairwise hpairwise fun a _ b _ d _ hab hbd had => by
      rw [← had] at hbd
      exact BitVec.eq_of_toNat_eq (le_antisymm hbd hab)
  have hsame : ∀ a b : BitVec 128 × ℕ, decide (b.1 = a.1) = true ↔ a.1 = b.1 := fun a b => by
    rw [decide_eq_true_eq, eq_comm]
  obtain ⟨keys, hnodup, -, hmem, hruns⟩ := Runs.runs_eq_classes
    hsame hcontiguous
  have hentries : ∀ k, (entries.filter fun a => a.1 = k).map (fun a => c.entryAt a.2) ~
      (c.slots.map c.entryAt).filter fun e => e.address = k := fun k => by
    refine ((hperm.filter _).map _).trans (Perm.of_eq ?_)
    rw [filter_map, filter_map, map_map]
    rfl
  refine ⟨keys, fun k => (entries.filter fun a => a.1 = k).map fun a => c.entryAt a.2, hnodup,
    fun k => ?_, hentries, ?_⟩
  · rw [hmem, (hperm.map _).mem_iff, map_map, mem_map]
    simp only [mem_map, exists_exists_and_eq_and]
    rfl
  · rw [hruns, map_map]
    rfl

variable {sorting c} in
/-- The entries of an address are of it, and there are some. -/
theorem address_of_mem_addressEntries {run : List CatalogEntry}
    (hrun : run ∈ addressEntries sorting c) :
    run ≠ [] ∧ ∀ e ∈ run, ∀ e' ∈ run, e.address = e'.address := by
  obtain ⟨keys, run, -, hmem, hperm, heq⟩ := addressEntries_eq sorting c
  rw [heq] at hrun
  obtain ⟨k, hk, rfl⟩ := mem_map.1 hrun
  obtain ⟨e, he, hek⟩ := (hmem k).1 hk
  have hof : ∀ e ∈ run k, e.address = k := fun e he =>
    of_decide_eq_true (mem_filter.1 ((hperm k).mem_iff.1 he)).2
  refine ⟨ne_nil_of_mem ((hperm k).mem_iff.2 (mem_filter.2 ⟨he, decide_eq_true hek⟩)),
    fun e he e' he' => ?_⟩
  rw [hof e he, hof e' he']

/-- Of the addresses, as many have an entry that is so. -/
theorem countP_addressEntries (p : CatalogEntry → Bool) :
    (addressEntries sorting c).countP (fun run => run.any p) = distinctAddresses c p := by
  obtain ⟨keys, run, hnodup, hmem, hperm, heq⟩ := addressEntries_eq sorting c
  rw [heq, countP_map, countP_eq_length_filter, distinctAddresses]
  refine ((perm_ext_iff_of_nodup (hnodup.filter _) (nodup_dedup _)).2 fun k => ?_).length_eq
  rw [mem_filter, mem_dedup, mem_map, Function.comp_apply, any_eq_true, hmem]
  simp only [(hperm k).mem_iff, mem_filter, decide_eq_true_eq]
  constructor
  · rintro ⟨-, e, ⟨he, hk⟩, hp⟩
    exact ⟨e, ⟨he, hp⟩, hk⟩
  · rintro ⟨e, ⟨he, hp⟩, hk⟩
    exact ⟨⟨e, he, hk⟩, e, ⟨he, hk⟩, hp⟩

/-- What is gathered of a family is what its addresses add. -/
theorem gather_eq (family : Family) : gather sorting c nowMs family =
    ((addressEntries sorting c).filter fun run => (run.headD default).family = family).foldl
      (fun a run => a.addAddress c nowMs run) {} := by
  have hfold : ∀ (runs : List (List CatalogEntry)) (families : Family → Accumulator),
      runs.foldl (fun families run => Function.update families (run.headD default).family
        ((families (run.headD default).family).addAddress c nowMs run)) families family =
      (runs.filter fun run => (run.headD default).family = family).foldl
        (fun a run => a.addAddress c nowMs run) (families family) := fun runs => by
    induction runs with
    | nil => exact fun families => rfl
    | cons run runs ih =>
      intro families
      rw [foldl_cons, ih, filter_cons]
      by_cases h : (run.headD default).family = family
      · rw [h, Function.update_self, if_pos (decide_eq_true rfl), foldl_cons]
      · rw [Function.update_of_ne (Ne.symm h), if_neg (by simpa using h)]
  exact hfold _ _

theorem conserves_gather (family : Family) : (gather sorting c nowMs family).Conserves := by
  rw [gather_eq]
  generalize (addressEntries sorting c).filter _ = runs
  have hfold : ∀ a : Accumulator, a.Conserves →
      (runs.foldl (fun a run => a.addAddress c nowMs run) a).Conserves := by
    induction runs with
    | nil => exact fun a h => h
    | cons run runs ih => exact fun a h => ih _ (h.addAddress run)
  exact hfold _ Accumulator.conserves_empty

variable {sorting c} in
/-- The first entry of an address tells the family of all of them. -/
theorem family_headD {run : List CatalogEntry} (hrun : run ∈ addressEntries sorting c)
    {e : CatalogEntry} (he : e ∈ run) : (run.headD default).family = e.family := by
  obtain ⟨hne, hall⟩ := address_of_mem_addressEntries hrun
  obtain ⟨first, rest, rfl⟩ := exists_cons_of_ne_nil hne
  rw [headD_cons, CatalogEntry.family, CatalogEntry.family, CatalogEntry.isIPv4,
    CatalogEntry.isIPv4, hall first mem_cons_self e he]

/-- Of the addresses of a family, as many have an entry that is so. -/
theorem countP_family (family : Family) (p : CatalogEntry → Bool) :
    ((addressEntries sorting c).filter fun run => (run.headD default).family = family).countP
        (fun run => run.any p) =
      distinctAddresses c fun e => e.family = family ∧ p e := by
  rw [← countP_addressEntries sorting, countP_filter]
  refine countP_congr fun run hrun => ?_
  rw [Bool.and_eq_true, decide_eq_true_eq, any_eq_true, any_eq_true]
  simp only [decide_eq_true_eq]
  constructor
  · rintro ⟨⟨e, he, hp⟩, hfamily⟩
    exact ⟨e, he, (family_headD hrun he).symm.trans hfamily, hp⟩
  · rintro ⟨e, he, hfamily, hp⟩
    exact ⟨⟨e, he, hp⟩, (family_headD hrun he).trans hfamily⟩

/-- Every address of a family is heard of or unroutable. -/
theorem heard_gather (family : Family) :
    (gather sorting c nowMs family).heardIps + (gather sorting c nowMs family).unroutableIps =
      distinctAddresses c fun e => e.family = family := by
  have hfold : ∀ (runs : List (List CatalogEntry)) (a : Accumulator),
      (runs.foldl (fun a run => a.addAddress c nowMs run) a).heardIps +
        (runs.foldl (fun a run => a.addAddress c nowMs run) a).unroutableIps =
      a.heardIps + a.unroutableIps + runs.length := fun runs => by
    induction runs with
    | nil => exact fun a => rfl
    | cons run runs ih =>
      intro a
      rw [foldl_cons, ih, Accumulator.heard_addAddress, length_cons]
      omega
  have hall : ∀ run ∈ (addressEntries sorting c).filter fun run =>
      (run.headD default).family = family, run.any (fun _ => true) = true := fun run hrun => by
    obtain ⟨e, he⟩ := exists_mem_of_ne_nil _
      (address_of_mem_addressEntries (mem_filter.1 hrun).1).1
    exact any_eq_true.2 ⟨e, he, rfl⟩
  have hcount := countP_family sorting c family fun _ => true
  rw [countP_eq_length.2 hall] at hcount
  rw [gather_eq, hfold, hcount]
  simp only [and_true]
  exact Nat.zero_add _

/-- The addresses of a family that answer are those with an answering node. -/
theorem answeringIps_gather (family : Family) :
    (gather sorting c nowMs family).answeringIps =
      distinctAddresses c fun e => e.family = family ∧ e.state = .Responsive := by
  have hfold : ∀ (runs : List (List CatalogEntry)) (a : Accumulator),
      (runs.foldl (fun a run => a.addAddress c nowMs run) a).answeringIps =
        a.answeringIps + runs.countP fun run => run.any fun e => e.state = .Responsive :=
    fun runs => by
      induction runs with
      | nil => exact fun a => rfl
      | cons run runs ih =>
        intro a
        rw [foldl_cons, ih, Accumulator.answeringIps_addAddress, countP_cons]
        omega
  rw [gather_eq, hfold, countP_family]
  simp only [decide_eq_true_eq]
  exact Nat.zero_add _

end

/-! ## Summaries -/

section

variable (sorting : (α : Type) → Sorting.Algorithm α) (labels : ℕ → ClientLabels)
  (compareText : String → String → Ordering) (versions : Tally ℕ ℚ)

theorem sortTallies_perm (tallies : List ClientTally) :
    sortTallies sorting compareText tallies ~ tallies := (sorting _).sort_perm _ _

/-- The counts of clients add up to what the versions weigh. -/
theorem sum_clientTallies : ((clientTallies labels versions).map (·.count)).sum =
    versions.total := by
  rw [clientTallies, map_map, show (ClientTally.count ∘ fun p : String × ℚ => _) = fun p =>
    p.2 from rfl, Tally.sum_toList, Tally.total, Tally.weigh_addAll, Tally.weigh_empty,
    zero_add, map_map]
  rfl

/-- The counts of versions, too. -/
theorem sum_versionTallies : ((versionTallies labels versions).map (·.count)).sum =
    versions.total := by
  rw [versionTallies, map_map, show (ClientTally.count ∘ fun p : String × ℚ => _) = fun p =>
    p.2 from rfl, Tally.sum_toList, Tally.total, Tally.weigh_addAll, Tally.weigh_empty,
    zero_add, map_map]
  rfl

/-- What some ports weigh, of those that have any weight. -/
theorem sum_filter_portWeights {ports : Fin 65536 → ℚ} (h : ∀ p, 0 ≤ ports p)
    (q : Fin 65536 → Bool) : (((portWeights ports).filter fun p => q p.1).map (·.2)).sum =
      ∑ p, if q p then ports p else 0 := by
  have hfilter : ∀ l : List (Fin 65536),
      ((((l.map fun p => (p, ports p)).filter fun p => p.2 > 0).filter fun p => q p.1).map
        (·.2)).sum = (l.map fun p => if q p then ports p else 0).sum := fun l => by
    induction l with
    | nil => rfl
    | cons p l ih =>
      rw [map_cons, map_cons, sum_cons, filter_cons, ← ih]
      rcases (h p).lt_or_eq with hp | hp
      · rw [if_pos (decide_eq_true hp), filter_cons]
        split_ifs
        · rw [map_cons, sum_cons]
        · rw [zero_add]
      · rw [← hp, if_neg (by simp), ite_self, zero_add]
  rw [portWeights, hfilter, Fin.sum_univ_def]

/-- The weights of the ports that have any are all there are. -/
theorem sum_portWeights {ports : Fin 65536 → ℚ} (h : ∀ p, 0 ≤ ports p) :
    ((portWeights ports).map (·.2)).sum = ∑ p, ports p := by
  have hsum := sum_filter_portWeights h fun _ => true
  rwa [filter_true] at hsum

/-- What a port weighs, by a list of ports. -/
def portWeight (weights : List (Fin 65536 × ℚ)) (port : Fin 65536) : ℚ :=
  ((weights.filter fun p => p.1 = port).map (·.2)).sum

theorem portWeight_portWeights {ports : Fin 65536 → ℚ} (h : ∀ p, 0 ≤ ports p)
    (port : Fin 65536) : portWeight (portWeights ports) port = ports port := by
  have hsum := sum_filter_portWeights h fun p => p = port
  simp only [decide_eq_true_eq, Finset.sum_ite_eq', Finset.mem_univ, if_true] at hsum
  exact hsum

/-- How many addresses run a client, by a list of clients. -/
def clientCount (tallies : List ClientTally) (name : String) : ℚ :=
  ((tallies.filter fun t => t.name = name).map (·.count)).sum

/-- How many addresses run a version of a client, by a list of versions. -/
def versionCount (tallies : List ClientTally) (text : String) : ℚ :=
  ((tallies.filter fun t => t.name ++ "\u0000" ++ t.version = text).map (·.count)).sum

/-- A client counts as much as the versions that read as it weigh. -/
theorem clientCount_eq (name : String) : clientCount (clientTallies labels versions) name =
    versions.weigh fun k => (labels k).client = name := by
  rw [clientCount, clientTallies, filter_map, map_map]
  refine (Tally.sum_filter_toList (fun n => n = name) _).trans ?_
  rw [Tally.weigh_addAll, Tally.weigh_empty, zero_add, map_map]
  rfl

/-- What is known of a version is of it. -/
theorem lookup_versionInfo (l : List (ℕ × ℚ)) (info : AList fun _ : String => ClientTally)
    (hinfo : ∀ text t, info.lookup text = some t → t.name ++ "\u0000" ++ t.version = text)
    {text : String} (htext : text ∈ info ∨ ∃ p ∈ l, versionText (labels p.1) = text) :
    ∃ t, (l.foldl (fun info p => info.insert (versionText (labels p.1))
      { name := (labels p.1).client, version := (labels p.1).version
        kind := (labels p.1).kind, count := 0 }) info).lookup text = some t ∧
      t.name ++ "\u0000" ++ t.version = text := by
  induction l generalizing info with
  | nil =>
    have hin : text ∈ info := htext.resolve_right (by simp)
    obtain ⟨t, ht⟩ := Option.isSome_iff_exists.1 (AList.lookup_isSome.2 hin)
    exact ⟨t, ht, hinfo text t ht⟩
  | cons p l ih =>
    refine ih _ (fun text t ht => ?_) ?_
    · by_cases heq : text = versionText (labels p.1)
      · rw [heq, AList.lookup_insert, Option.some.injEq] at ht
        rw [← ht, heq, versionText]
      · rw [AList.lookup_insert_ne heq] at ht
        exact hinfo text t ht
    · rw [AList.mem_insert]
      rcases htext with hin | ⟨q, hq, rfl⟩
      · exact .inl (.inr hin)
      · rcases mem_cons.1 hq with rfl | hq
        · exact .inl (.inl rfl)
        · exact .inr ⟨q, hq, rfl⟩

/-- A version counts as much as the versions that read as it weigh. -/
theorem versionCount_eq (text : String) : versionCount (versionTallies labels versions) text =
    versions.weigh fun k => versionText (labels k) = text := by
  rw [versionCount, versionTallies, filter_map, map_map]
  have hkeys : ∀ p ∈ (Tally.addAll ∅ (versions.toList.map fun p =>
      (versionText (labels p.1), p.2)) : Tally String ℚ).toList, ∃ q ∈ versions.toList,
        versionText (labels q.1) = p.1 := fun p hp => by
    obtain ⟨e, he, rfl⟩ := mem_map.1 hp
    have hin := AList.mem_keys.1 (mem_map_of_mem (f := Sigma.fst) he)
    obtain ⟨q, hq, heq⟩ := ((Tally.mem_addAll _ _ _).1 hin).resolve_left (by simp)
    obtain ⟨q', hq', rfl⟩ := mem_map.1 hq
    exact ⟨q', hq', heq⟩
  rw [filter_congr fun p hp => ?_]
  · refine (Tally.sum_filter_toList (fun n => n = text) _).trans ?_
    rw [Tally.weigh_addAll, Tally.weigh_empty, zero_add, map_map]
    rfl
  · obtain ⟨t, ht, htext⟩ := lookup_versionInfo labels versions.toList ∅ (by simp)
      (.inr (hkeys p hp))
    rw [Function.comp_apply, ht, Option.getD_some, htext]

end

/-! ## The statistics of both families -/

/-- The statistics of a family. -/
def NetworkStatsSet.of (set : NetworkStatsSet) : Family → NetworkStats
  | .IPv4 => set.ipv4
  | .IPv6 => set.ipv6

/-- What was checked of nodes. -/
def NetworkStats.features (s : NetworkStats) : Fin 7 → FeatureTally :=
  ![s.bep51, s.bep44, s.bep32, s.sendsIp, s.answers204, s.listsBogons, s.inventsPeers]

/-- All that adds up of some statistics is what it is of two others together. -/
structure NetworkStats.IsSum (s t u : NetworkStats) : Prop where
  heardIps : s.heardIps = t.heardIps + u.heardIps
  connectedIps : s.connectedIps = t.connectedIps + u.connectedIps
  answeringIps : s.answeringIps = t.answeringIps + u.answeringIps
  unroutableIps : s.unroutableIps = t.unroutableIps + u.unroutableIps
  multiNodeIps : s.multiNodeIps = t.multiNodeIps + u.multiNodeIps
  answeringNodes : s.answeringNodes = t.answeringNodes + u.answeringNodes
  clients name : clientCount s.clients name = clientCount t.clients name +
    clientCount u.clients name
  versions text :
    versionCount s.versions text = versionCount t.versions text + versionCount u.versions text
  bep42 i : s.bep42 i = t.bep42 i + u.bep42 i
  rttHistogram i : s.rttHistogram i = t.rttHistogram i + u.rttHistogram i
  rttWeight : s.rttWeight = t.rttWeight + u.rttWeight
  defaultPortCount : s.defaultPortCount = t.defaultPortCount + u.defaultPortCount
  tested i : (s.features i).tested = (t.features i).tested + (u.features i).tested
  yes i : (s.features i).yes = (t.features i).yes + (u.features i).yes
  unknownOther : s.unknownOther = t.unknownOther + u.unknownOther
  unknownOtherError : s.unknownOtherError = t.unknownOtherError + u.unknownOtherError
  unroutableByProblem i :
    s.unroutableByProblem i = t.unroutableByProblem i + u.unroutableByProblem i
  departedLastHour :
    s.churn.departedLastHour = t.churn.departedLastHour + u.churn.departedLastHour
  returnedLastHour :
    s.churn.returnedLastHour = t.churn.returnedLastHour + u.churn.returnedLastHour
  arrivedLastHour : s.churn.arrivedLastHour = t.churn.arrivedLastHour + u.churn.arrivedLastHour
  survivalBase w : s.churn.survivalBase w = t.churn.survivalBase w + u.churn.survivalBase w
  survivalKept w : s.churn.survivalKept w = t.churn.survivalKept w + u.churn.survivalKept w
  uptimeBins i : s.churn.uptimeBins i = t.churn.uptimeBins i + u.churn.uptimeBins i
  sessionBins i : s.churn.sessionBins i = t.churn.sessionBins i + u.churn.sessionBins i

section

variable (sorting : (α : Type) → Sorting.Algorithm α) (sqrt : ℚ → ℚ) (labels : ℕ → ClientLabels)
  (compareText : String → String → Ordering) (c : NodeCatalog) (nowMs topPorts : ℤ)

/-- Counting is the same in any order. -/
theorem clientCount_sortTallies (tallies : List ClientTally) (name : String) :
    clientCount (sortTallies sorting compareText tallies) name = clientCount tallies name :=
  (((sortTallies_perm sorting compareText tallies).filter _).map _).sum_eq

theorem versionCount_sortTallies (tallies : List ClientTally) (text : String) :
    versionCount (sortTallies sorting compareText tallies) text = versionCount tallies text :=
  (((sortTallies_perm sorting compareText tallies).filter _).map _).sum_eq

/-- The statistics of two families together are the sums. -/
theorem isSum_summarise (a o : Accumulator) :
    (summarise sorting sqrt labels compareText ((({} : Accumulator).add a).add o) topPorts).IsSum
      (summarise sorting sqrt labels compareText a topPorts)
      (summarise sorting sqrt labels compareText o topPorts) := by
  have hweigh : ∀ p : ℕ → Bool, ((({} : Accumulator).add a).add o).versions.weigh p =
      a.versions.weigh p + o.versions.weigh p := fun p => by
    change (Tally.addAll (Tally.addAll ∅ a.versions.toList) o.versions.toList).weigh p = _
    rw [Tally.weigh_addAll_toList, Tally.weigh_addAll_toList, Tally.weigh_empty, zero_add]
  exact
    { heardIps := congrArg (· + _) (zero_add _)
      connectedIps := congrArg (· + _) (zero_add _)
      answeringIps := congrArg (· + _) (zero_add _)
      unroutableIps := congrArg (· + _) (zero_add _)
      multiNodeIps := congrArg (· + _) (zero_add _)
      answeringNodes := congrArg (· + _) (zero_add _)
      clients := fun name => by
        rw [summarise, summarise, summarise]
        dsimp only
        rw [clientCount_sortTallies, clientCount_sortTallies, clientCount_sortTallies,
          clientCount_eq, clientCount_eq, clientCount_eq, hweigh]
      versions := fun text => by
        rw [summarise, summarise, summarise]
        dsimp only
        rw [versionCount_sortTallies, versionCount_sortTallies, versionCount_sortTallies,
          versionCount_eq, versionCount_eq, versionCount_eq, hweigh]
      bep42 := fun i => congrArg (· + _) (zero_add _)
      rttHistogram := fun i => congrArg (· + _) (zero_add _)
      rttWeight := congrArg (· + _) (zero_add _)
      defaultPortCount := congrArg (· + _) (zero_add _)
      tested := fun i => by fin_cases i <;> exact congrArg (· + _) (zero_add _)
      yes := fun i => by fin_cases i <;> exact congrArg (· + _) (zero_add _)
      unknownOther := congrArg (· + _) (zero_add _)
      unknownOtherError := congrArg (· + _) (zero_add _)
      unroutableByProblem := fun i => congrArg (· + _) (zero_add _)
      departedLastHour := congrArg (· + _) (zero_add _)
      returnedLastHour := congrArg (· + _) (zero_add _)
      arrivedLastHour := congrArg (· + _) (zero_add _)
      survivalBase := fun w => congrArg (· + _) (zero_add _)
      survivalKept := fun w => congrArg (· + _) (zero_add _)
      uptimeBins := fun i => congrArg (· + _) (zero_add _)
      sessionBins := fun i => congrArg (· + _) (zero_add _) }

/-- A list of ports that nothing is cut from has all of them. -/
theorem topPorts_summarise (a : Accumulator) :
    (summarise sorting sqrt labels compareText a 65536).topPorts ~ portWeights a.ports := by
  have hlen : (portWeights a.ports).length ≤ 65536 := by
    refine (length_filter_le _ _).trans ?_
    rw [length_map, length_finRange]
  rw [summarise]
  dsimp only
  have hkeep : min (portWeights a.ports).length (max 0 (65536 : ℤ)).toNat =
      (portWeights a.ports).length := by omega
  rw [hkeep]
  have hperm := (sorting (Fin 65536 × ℚ)).partialSort_perm
    (fun x y => if x.2 ≠ y.2 then decide (x.2 > y.2) else decide (x.1 < y.1))
    (portWeights a.ports).length (portWeights a.ports)
  rw [take_of_length_le hperm.length_eq.le]
  exact hperm

theorem portWeight_topPorts {a : Accumulator} (h : ∀ p, 0 ≤ a.ports p) (port : Fin 65536) :
    portWeight (summarise sorting sqrt labels compareText a 65536).topPorts port =
      a.ports port :=
  (((topPorts_summarise sorting sqrt labels compareText a).filter _).map _).sum_eq.trans
    (portWeight_portWeights h port)

/-- The ports of two families weigh together what they do in each. -/
theorem portWeight_summarise_add {a o : Accumulator} (ha : ∀ p, 0 ≤ a.ports p)
    (ho : ∀ p, 0 ≤ o.ports p) (port : Fin 65536) :
    portWeight (summarise sorting sqrt labels compareText
        ((({} : Accumulator).add a).add o) 65536).topPorts port =
      portWeight (summarise sorting sqrt labels compareText a 65536).topPorts port +
        portWeight (summarise sorting sqrt labels compareText o 65536).topPorts port := by
  have hall : ∀ p, 0 ≤ ((({} : Accumulator).add a).add o).ports p := fun p =>
    add_nonneg (add_nonneg le_rfl (ha p)) (ho p)
  rw [portWeight_topPorts _ _ _ _ hall, portWeight_topPorts _ _ _ _ ha,
    portWeight_topPorts _ _ _ _ ho]
  exact congrArg (· + _) (zero_add _)

/-- The statistics conserve addresses: every address of a family is heard of or unroutable,
    and those that answer weigh one each. -/
theorem networkStats_conserve :
    let set := computeNetworkStats sorting sqrt labels compareText c nowMs topPorts
    let uncut := computeNetworkStats sorting sqrt labels compareText c nowMs 65536
    (∀ family,
      let s := set.of family
      let answering : ℚ :=
        distinctAddresses c fun e => e.family = family ∧ e.state = .Responsive
      s.heardIps + s.unroutableIps = distinctAddresses c (fun e => e.family = family) ∧
      (s.answeringIps : ℚ) = answering ∧
      (s.clients.map (·.count)).sum = answering ∧
      (s.versions.map (·.count)).sum = answering ∧
      ∑ i, s.bep42 i = answering ∧
      ((uncut.of family).topPorts.map (·.2)).sum = answering ∧
      s.rttWeight ≤ answering ∧
      (∀ i, (s.features i).yes ≤ (s.features i).tested ∧ (s.features i).tested ≤ answering) ∧
      ∑ i, s.churn.uptimeBins i + ∑ i, s.churn.sessionBins i ≤ s.heardIps ∧
      ∀ w, s.churn.survivalKept w ≤ s.churn.survivalBase w) ∧
    -- Each address goes to one bin at most, and to none unless it is heard of.
    (∀ (a : Accumulator) (run : List CatalogEntry),
      (a.addAddress c nowMs run).binned + a.heardIps ≤
        a.binned + (a.addAddress c nowMs run).heardIps) ∧
    set.all.IsSum set.ipv4 set.ipv6 ∧
    ∀ port, portWeight uncut.all.topPorts port =
      portWeight uncut.ipv4.topPorts port + portWeight uncut.ipv6.topPorts port := by
  intro set uncut
  have hnonneg := fun family => (conserves_gather sorting c nowMs family).weighed.nonneg
  refine ⟨fun family => ?_, fun a run => Accumulator.binned_addAddress run,
    isSum_summarise sorting sqrt labels compareText topPorts _ _,
    portWeight_summarise_add sorting sqrt labels compareText (hnonneg .IPv4) (hnonneg .IPv6)⟩
  have hset : set.of family = summarise sorting sqrt labels compareText
      (gather sorting c nowMs family) topPorts := by
    cases family <;> rfl
  have huncut : uncut.of family = summarise sorting sqrt labels compareText
      (gather sorting c nowMs family) 65536 := by
    cases family <;> rfl
  have hconserves := conserves_gather sorting c nowMs family
  have hanswering := answeringIps_gather sorting c nowMs family
  have hheard := heard_gather sorting c nowMs family
  dsimp only
  rw [hset, huncut, ← hanswering]
  generalize gather sorting c nowMs family = a at hconserves hheard
  obtain ⟨hweighed, hbinned, hsurvival⟩ := hconserves
  refine ⟨hheard, rfl, ?_, ?_, hweighed.bep42, ?_, hweighed.rttWeight, fun i => ?_, hbinned,
    hsurvival⟩
  · exact ((sortTallies_perm sorting compareText _).map _).sum_eq.trans
      ((sum_clientTallies labels _).trans hweighed.versions)
  · exact ((sortTallies_perm sorting compareText _).map _).sum_eq.trans
      ((sum_versionTallies labels _).trans hweighed.versions)
  · rw [((topPorts_summarise sorting sqrt labels compareText a).map _).sum_eq,
      sum_portWeights hweighed.nonneg, hweighed.ports]
  · fin_cases i <;> exact ⟨hweighed.yes _, hweighed.tested _⟩

end

end Dht
