import DhtCore.NodeCatalog.Refinement
import DhtCore.NodeList.Basic

/-!
# Paging and exporting

The pages of the node list, one after the other, are what an export writes
(`pages_eq_export`). The two differ in two things, neither of which shows:

* what they sort: as no two nodes of the catalogue have the same address and port, the order
  is one of distinct elements (`eq_of_slotOrder`), and sorting the front of a list yields the
  front of the sorted list, whatever the sorting function does with the rest;
* what they count: a page that needs no counts to filter or to sort counts the nodes at the
  addresses it shows only (`counts_shown`).
-/

namespace Dht

open List

variable {labels : ℕ → ClientLabels} {compareText : String → String → Ordering}
  {c : NodeCatalog} {q : NodeQuery} {suspicion : Option AddressSignals}

/-! ## The order -/

section

variable (labels compareText q)

/-- By address and port, as a comparator. -/
theorem byAddress_eq : byAddress =
    compareLex (compareOn fun e : CatalogEntry => e.address.toNat) (compareOn (·.port.toNat)) := rfl

instance : Std.TransCmp byAddress := by
  rw [byAddress_eq]
  infer_instance

/-- Missing values come last, and the others are compared. -/
theorem ordered_eq (descending : Bool) (v : CatalogEntry → ℤ) (missing : CatalogEntry → Bool) :
    (fun x y => ordered descending (v x) (v y) (missing x) (missing y)) =
      compareLex (compareOn missing)
        (Sorting.directed descending (compareOn fun e => if missing e then 0 else v e)) := by
  funext x y
  rw [ordered, compareLex, Sorting.directed_eq_swap]
  cases hx : missing x <;> cases hy : missing y <;>
    simp only [compareOn, hx, hy, ne_eq, not_true_eq_false, reduceCtorEq, not_false_eq_true,
      if_true, if_false, Bool.true_or, Bool.false_or, Bool.false_eq_true, decide_eq_true_eq]
  · -- Both are there.
    rcases lt_trichotomy (v x) (v y) with h | h | h
    · rw [if_neg h.ne, if_pos h, compare_lt_iff_lt.2 h]
      rfl
    · rw [if_pos h, compare_eq_iff_eq.2 h]
      cases descending <;> rfl
    · rw [if_neg h.ne', if_neg h.not_gt, compare_gt_iff_gt.2 h]
      rfl
  · rfl
  · rfl
  · cases descending <;> rfl

/-- Nodes that never answered come last, and the others by what they run. -/
theorem transCmp_client [Std.TransCmp compareText] (descending : Bool) :
    Std.TransCmp fun x y : CatalogEntry =>
      if decide (x.lastAnswered = 0) ≠ decide (y.lastAnswered = 0) then
        if decide (x.lastAnswered = 0) then .gt else .lt
      else if decide (x.lastAnswered = 0) then Ordering.eq
      else
        let text (e : CatalogEntry) : String :=
          (labels e.versionKey).client ++ "\u0001" ++ (labels e.versionKey).version
        let c := compareText (text x) (text y)
        if descending then c.swap else c := by
  let text (e : CatalogEntry) : String := if e.lastAnswered = 0 then "" else
    (labels e.versionKey).client ++ "\u0001" ++ (labels e.versionKey).version
  have heq : (fun x y : CatalogEntry =>
      if decide (x.lastAnswered = 0) ≠ decide (y.lastAnswered = 0) then
        if decide (x.lastAnswered = 0) then .gt else .lt
      else if decide (x.lastAnswered = 0) then Ordering.eq
      else
        let text (e : CatalogEntry) : String :=
          (labels e.versionKey).client ++ "\u0001" ++ (labels e.versionKey).version
        let c := compareText (text x) (text y)
        if descending then c.swap else c) =
      compareLex (compareOn fun e : CatalogEntry => decide (e.lastAnswered = 0))
        (Sorting.directed descending (Ordering.byKey text compareText)) := by
    funext x y
    rw [compareLex, Sorting.directed_eq_swap, Ordering.byKey]
    have hself : compareText "" "" = .eq := Std.ReflCmp.compare_self
    have hlast : compare true false = .gt := rfl
    have hfirst : compare false true = .lt := rfl
    by_cases hx : x.lastAnswered = 0 <;> by_cases hy : y.lastAnswered = 0 <;>
      simp [compareOn, text, hx, hy, hself, hlast, hfirst]
  rw [heq]
  infer_instance

/-- The order that a query asks for is a total preorder. -/
instance transCmp_compareNodes [Std.TransCmp compareText] (counts : Option AddressCounts) :
    Std.TransCmp (compareNodes labels q compareText counts) := by
  have hordered : ∀ (v : CatalogEntry → ℤ) (missing : CatalogEntry → Bool), Std.TransCmp
      fun x y => ordered q.descending (v x) (v y) (missing x) (missing y) := fun v missing => by
    rw [ordered_eq]
    infer_instance
  rw [show compareNodes labels q compareText counts =
    fun x y => compareNodes labels q compareText counts x y from rfl]
  simp only [compareNodes]
  cases hsort : q.sort with
  | Address =>
    simp only [← Sorting.directed_eq_swap]
    infer_instance
  | RoundTrip => exact hordered _ _
  | LastAnswered => exact hordered _ _
  | FirstSeen => exact hordered _ _
  | NodesAtAddress => exact hordered _ fun _ => false
  | Client => exact transCmp_client labels compareText q.descending

/-- The order is a strict weak one of the slots. -/
theorem strictWeak_slotOrder [Std.TransCmp compareText] (counts : Option AddressCounts) :
    Sorting.StrictWeak (slotOrder labels c q compareText counts) := by
  have hlex : slotOrder labels c q compareText counts = fun a b =>
      decide (Ordering.byKey c.entryAt
        (compareLex (compareNodes labels q compareText counts) byAddress) a b = .lt) := by
    funext a b
    rw [slotOrder, Ordering.byKey, compareLex]
    cases compareNodes labels q compareText counts (c.entryAt a) (c.entryAt b) <;> rfl
  rw [hlex]
  exact Sorting.strictWeak_of_cmp _

end

/-- Slots of which neither comes before the other are the same, as no two nodes have the
    same address and port. -/
theorem eq_of_slotOrder {hash : CatalogKey → ℕ} (h : c.Invariant hash)
    [Std.TransCmp compareText] {counts : Option AddressCounts} {a b : ℕ} (ha : c.InUse a)
    (hb : c.InUse b) (hab : slotOrder labels c q compareText counts a b = false)
    (hba : slotOrder labels c q compareText counts b a = false) : a = b := by
  have hswap : compareNodes labels q compareText counts (c.entryAt b) (c.entryAt a) =
      (compareNodes labels q compareText counts (c.entryAt a) (c.entryAt b)).swap :=
    Std.OrientedCmp.eq_swap
  have haddress : byAddress (c.entryAt b) (c.entryAt a) =
      (byAddress (c.entryAt a) (c.entryAt b)).swap := Std.OrientedCmp.eq_swap
  rw [slotOrder] at hab hba
  rw [hswap, haddress] at hba
  cases hnodes : compareNodes labels q compareText counts (c.entryAt a) (c.entryAt b) with
  | lt => rw [hnodes] at hab; cases hab
  | gt => rw [hnodes] at hba; cases hba
  | eq =>
    rw [hnodes] at hab hba
    have hab : ¬byAddress (c.entryAt a) (c.entryAt b) = .lt := of_decide_eq_false hab
    have hba : ¬(byAddress (c.entryAt a) (c.entryAt b)).swap = .lt := of_decide_eq_false hba
    have heq : byAddress (c.entryAt a) (c.entryAt b) = .eq := by
      cases hby : byAddress (c.entryAt a) (c.entryAt b) with
      | lt => exact absurd hby hab
      | gt => rw [hby] at hba; exact absurd rfl hba
      | eq => rfl
    rw [byAddress, Ordering.then_eq_eq, compare_eq_iff_eq, compare_eq_iff_eq] at heq
    refine h.eq_of_keyAt ha hb ?_
    rw [NodeCatalog.keyAt, NodeCatalog.keyAt, CatalogEntry.key, CatalogEntry.key,
      BitVec.eq_of_toNat_eq heq.1, UInt16.toNat_inj.1 heq.2]

/-! ## The counts -/

section

variable (address : ℕ → BitVec 128) (a : BitVec 128)

theorem foldl_increment (l : List ℕ) (counts : AddressCounts) :
    l.foldl (fun counts s => counts.increment (address s)) counts a =
      if l.countP (address · = a) = 0 then counts a
      else some ((counts a).getD 0 + l.countP (address · = a)) := by
  induction l generalizing counts with
  | nil => rfl
  | cons s l ih =>
    rw [List.foldl_cons, ih, AddressCounts.increment]
    by_cases hs : address s = a
    · subst hs
      rw [Function.update_self, countP_cons_of_pos (by simp),
        if_neg (Nat.succ_ne_zero _)]
      split_ifs with h
      · rw [h]
        rfl
      · rw [Option.getD_some, Nat.cast_add, Nat.cast_one, add_assoc, add_comm 1]
    · rw [Function.update_of_ne (Ne.symm hs), countP_cons_of_neg (by simpa using hs)]

/-- Counting only at addresses that are there already. -/
theorem foldl_counted (l : List ℕ) (counts : AddressCounts) :
    l.foldl (fun (counts : AddressCounts) s =>
        if (counts (address s)).isSome then counts.increment (address s) else counts) counts a =
      (counts a).map fun n => n + (l.countP (address · = a) : ℤ) := by
  induction l generalizing counts with
  | nil => simp
  | cons s l ih =>
    rw [List.foldl_cons, ih]
    by_cases hs : address s = a
    · subst hs
      rw [countP_cons_of_pos (by simp)]
      cases hcounts : counts (address s) with
      | none => simp [hcounts]
      | some n =>
        rw [Option.isSome_some, if_pos rfl, AddressCounts.increment, Function.update_self, hcounts]
        simp only [Option.getD_some, Option.map_some, Nat.cast_add, Nat.cast_one]
        rw [add_assoc, add_comm 1]
    · have hcounts : ∀ b : Bool, (if b then counts.increment (address s) else counts) a =
          counts a := fun b => by
        cases b with
        | false => rfl
        | true => exact Function.update_of_ne (Ne.symm hs) _ _
      rw [hcounts, countP_cons_of_neg (by simpa using hs)]

theorem foldl_wanted (l : List ℕ) (counts : AddressCounts) :
    l.foldl (fun (counts : AddressCounts) s => Function.update counts (address s) (some 0))
        counts a =
      if a ∈ l.map address then some 0 else counts a := by
  induction l generalizing counts with
  | nil => simp
  | cons s l ih =>
    rw [List.foldl_cons, ih, map_cons]
    by_cases hs : address s = a
    · subst hs
      rw [Function.update_self, if_pos (mem_cons_self), ite_self]
    · rw [Function.update_of_ne (Ne.symm hs)]
      simp only [mem_cons, Ne.symm hs, false_or]

end

/-- The nodes at an address where there is one. -/
theorem countAddresses_getD {s : ℕ} (hs : c.InUse s) :
    (countAddresses c (c.entryAt s).address).getD 1 =
      c.slots.countP fun s' => (c.entryAt s').address = (c.entryAt s).address := by
  have hpos : c.slots.countP (fun s' => (c.entryAt s').address = (c.entryAt s).address) ≠ 0 :=
    (countP_pos_iff.2 ⟨s, NodeCatalog.mem_slots.2 hs, by simp⟩).ne'
  rw [countAddresses, foldl_increment fun s => (c.entryAt s).address, if_neg hpos]
  simp

/-- Counting at the addresses shown only yields the same there. -/
theorem counts_shown {shown : List ℕ} {s : ℕ} (hs : s ∈ shown) (hin : c.InUse s) :
    (c.slots.foldl (fun (counts : AddressCounts) s =>
        if (counts (c.entryAt s).address).isSome then counts.increment (c.entryAt s).address
        else counts)
      (shown.foldl (fun counts s => Function.update counts (c.entryAt s).address (some 0))
        fun _ => none) (c.entryAt s).address).getD 1 =
      (countAddresses c (c.entryAt s).address).getD 1 := by
  rw [foldl_counted fun s => (c.entryAt s).address, foldl_wanted fun s => (c.entryAt s).address,
    if_pos (mem_map_of_mem (f := fun s => (c.entryAt s).address) hs), countAddresses_getD hin]
  simp

/-- Without a filter on the nodes at an address, filtering needs no counts. -/
theorem matchesQuery_none (hmin : ¬q.minNodesAtAddress > 1) (counts : AddressCounts)
    (e : CatalogEntry) : matchesQuery labels q none suspicion e =
      matchesQuery labels q (some counts) suspicion e := by
  rw [matchesQuery, matchesQuery, if_neg hmin]

/-- Not sorting by the nodes at an address, sorting needs no counts. -/
theorem slotOrder_none (hsort : q.sort ≠ .NodesAtAddress) (counts : AddressCounts) :
    slotOrder labels c q compareText none = slotOrder labels c q compareText (some counts) := by
  have hnodes : compareNodes labels q compareText none =
      compareNodes labels q compareText (some counts) := by
    funext x y
    rw [compareNodes, compareNodes]
    cases h : q.sort with
    | NodesAtAddress => exact absurd h hsort
    | _ => rfl
  funext a b
  rw [slotOrder, slotOrder, hnodes]

/-! ## Pages -/

section

variable (labels c q compareText) (sorting : Sorting.Algorithm ℕ) (nowMs : ℤ)
  (suspicion : Option AddressSignals)

/-- The nodes that match a query, in its order. -/
def sortedNodes : List ℕ :=
  sorting.sort (slotOrder labels c q compareText (some (countAddresses c)))
    (filterNodes labels c q (some (countAddresses c)) suspicion)

/-- What the list shows of the node in a slot. -/
def rowAt (s : ℕ) : NodeListRow :=
  rowFor labels (c.entryAt s) (c.stamp nowMs) NodeCatalog.TickMs
    ((countAddresses c (c.entryAt s).address).getD 1) (signalsAt suspicion (c.entryAt s).address)

/-- The nodes on a page, at most. -/
def pageSize : ℤ := max 1 q.limit

/-- Where the page of an offset starts, so many nodes matching. -/
def pageStart (matched : ℤ) : ℤ :=
  if max 0 q.offset ≥ matched then
    if matched > 0 then (matched - 1) / pageSize q * pageSize q else 0
  else max 0 q.offset

theorem one_le_pageSize : 1 ≤ pageSize q := le_max_left _ _

theorem pageStart_bounds (matched : ℤ) (h : 0 ≤ matched) :
    0 ≤ pageStart q matched ∧ pageStart q matched ≤ matched := by
  have hsize := one_le_pageSize q
  rw [pageStart]
  split_ifs with hpast hpos
  · exact ⟨Int.mul_nonneg (Int.ediv_nonneg (by omega) (by omega)) (by omega),
      (Int.ediv_mul_le _ (by omega)).trans (by omega)⟩
  · exact ⟨le_rfl, h⟩
  · exact ⟨le_max_left _ _, by omega⟩

theorem sortedNodes_perm : sortedNodes labels compareText c q sorting suspicion ~
    filterNodes labels c q (some (countAddresses c)) suspicion :=
  sorting.sort_perm _ _

variable {labels c q suspicion} in
theorem inUse_of_mem_filterNodes {counts : Option AddressCounts} {s : ℕ}
    (hs : s ∈ filterNodes labels c q counts suspicion) : c.InUse s :=
  NodeCatalog.mem_slots.1 (mem_filter.1 hs).1

/-- What is written of an export are the rows of its nodes. -/
theorem rows_collectNodes : (collectNodes labels c q compareText sorting nowMs suspicion).rows
    labels = (sortedNodes labels compareText c q sorting suspicion).map
      (rowAt labels c nowMs suspicion) := by
  have hentries : (collectNodes labels c q compareText sorting nowMs suspicion).entries =
    (sortedNodes labels compareText c q sorting suspicion).map c.entryAt := rfl
  refine ext_getElem (by rw [NodeExport.rows, hentries]; simp) fun i hi hi' => ?_
  have hlen : i < (sortedNodes labels compareText c q sorting suspicion).length := by
    rwa [length_map] at hi'
  rw [getElem_map]
  simp only [NodeExport.rows, getElem_map, getElem_range]
  rw [show collectNodes labels c q compareText sorting nowMs suspicion =
    { entries := (sortedNodes labels compareText c q sorting suspicion).map c.entryAt
      nodesAtAddress := (sortedNodes labels compareText c q sorting suspicion).map fun s =>
        (countAddresses c (c.entryAt s).address).getD 1
      suspicion := (sortedNodes labels compareText c q sorting suspicion).map fun s =>
        signalsAt suspicion (c.entryAt s).address
      nowStamp := c.stamp nowMs
      tickMs := NodeCatalog.TickMs } from rfl]
  simp only [getD_eq_getElem?_getD, getElem?_map, getElem?_eq_getElem hlen, Option.map_some,
    Option.getD_some]
  rfl

/-- A page has the nodes from its start on, as many as fit. -/
theorem queryNodes_eq {hash : CatalogKey → ℕ} (h : c.Invariant hash)
    [Std.TransCmp compareText] :
    let nodes := sortedNodes labels compareText c q sorting suspicion
    queryNodes labels c q compareText sorting nowMs suspicion =
      { matchedNodes := nodes.length
        matchedAddresses := (nodes.map fun s => (c.entryAt s).address).dedup.length
        offset := pageStart q nodes.length
        rows := ((nodes.drop (pageStart q nodes.length).toNat).take (pageSize q).toNat).map
          (rowAt labels c nowMs suspicion) } := by
  intro nodes
  generalize hneed : (q.minNodesAtAddress > 1 || q.sort = .NodesAtAddress) = needCounts
  let counts : Option AddressCounts := if needCounts then some (countAddresses c) else none
  -- Without counts, neither filtering nor sorting needs them.
  have hfilter : filterNodes labels c q counts suspicion =
      filterNodes labels c q (some (countAddresses c)) suspicion := by
    cases needCounts with
    | true => rfl
    | false =>
      rw [Bool.or_eq_false_iff, decide_eq_false_iff_not] at hneed
      exact filter_congr fun s _ => matchesQuery_none hneed.1 _ _
  have horder : slotOrder labels c q compareText counts =
      slotOrder labels c q compareText (some (countAddresses c)) := by
    cases needCounts with
    | true => rfl
    | false =>
      rw [Bool.or_eq_false_iff, decide_eq_false_iff_not, decide_eq_false_iff_not] at hneed
      exact slotOrder_none hneed.2 _
  have hperm : nodes ~ filterNodes labels c q (some (countAddresses c)) suspicion :=
    sortedNodes_perm labels compareText c q sorting suspicion
  have hinUse : ∀ s ∈ nodes, c.InUse s := fun s hs => inUse_of_mem_filterNodes (hperm.mem_iff.1 hs)
  -- The front of the partial sort is that of the full one.
  have hfront : ∀ n, (sorting.partialSort (slotOrder labels c q compareText counts) n
      (filterNodes labels c q counts suspicion)).take n = nodes.take n := fun n => by
    rw [hfilter, horder]
    exact sorting.take_partialSort (strictWeak_slotOrder labels compareText q _)
      (fun a ha b hb hab hba => eq_of_slotOrder h (inUse_of_mem_filterNodes ha)
        (inUse_of_mem_filterNodes hb) hab hba) n
  have hlen : (filterNodes labels c q counts suspicion).length = nodes.length := by
    rw [hfilter, hperm.length_eq]
  have haddresses : (Runs.runs (fun a b => a = b) (((filterNodes labels c q counts suspicion).map
      fun s => (c.entryAt s).address).mergeSort (· ≤ ·))).length =
        (nodes.map fun s => (c.entryAt s).address).dedup.length := by
    rw [Runs.length_runs_mergeSort, hfilter]
    exact (hperm.symm.map _).dedup.length_eq
  obtain ⟨hstart, hle⟩ := pageStart_bounds q nodes.length (Int.natCast_nonneg _)
  have hsize := one_le_pageSize q
  have hshown : ((sorting.partialSort (slotOrder labels c q compareText counts)
      (min (nodes.length : ℤ) (pageStart q nodes.length + pageSize q)).toNat
      (filterNodes labels c q counts suspicion)).take
        (min (nodes.length : ℤ) (pageStart q nodes.length + pageSize q)).toNat).drop
      (pageStart q nodes.length).toNat =
      (nodes.drop (pageStart q nodes.length).toNat).take (pageSize q).toNat := by
    rw [hfront, drop_take, take_eq_take_iff, length_drop]
    omega
  rw [queryNodes]
  dsimp only
  rw [hneed]
  change NodeListPage.mk _ _ _ _ = _
  rw [show (if needCounts = true then some (countAddresses c) else none) = counts from rfl,
    haddresses, hlen, show max 1 q.limit = pageSize q from rfl,
    show (if max 0 q.offset ≥ (nodes.length : ℤ) then
        if (nodes.length : ℤ) > 0 then ((nodes.length : ℤ) - 1) / pageSize q * pageSize q else 0
      else max 0 q.offset) = pageStart q nodes.length from rfl, hshown]
  congr 1
  refine map_congr_left fun s hs => ?_
  have hin : c.InUse s := hinUse s (mem_of_mem_drop (mem_of_mem_take hs))
  rw [rowAt]
  congr 1
  cases needCounts with
  | true => rfl
  | false => exact counts_shown hs hin

/-- The pages of so many nodes. -/
def pageCount (matched : ℤ) : ℕ := ((matched + pageSize q - 1) / pageSize q).toNat

/-- There is a page more than there are full ones before the last node. -/
theorem pageCount_eq {matched : ℤ} (h : 0 < matched) :
    (pageCount q matched : ℤ) = (matched - 1) / pageSize q + 1 := by
  have hsize := one_le_pageSize q
  have hnonneg : 0 ≤ (matched - 1) / pageSize q := Int.ediv_nonneg (by omega) (by omega)
  rw [pageCount, show matched + pageSize q - 1 = (matched - 1) + pageSize q by ring,
    Int.add_ediv_of_dvd_right (dvd_refl _), Int.ediv_self (by omega)]
  omega

/-- The offset of a page is before its end. -/
theorem lt_of_lt_pageCount {matched : ℤ} (h : 0 ≤ matched) {k : ℕ}
    (hk : k < pageCount q matched) : (k : ℤ) * pageSize q < matched := by
  have hsize := one_le_pageSize q
  rcases h.lt_or_eq with hpos | rfl
  · have hcount := pageCount_eq q hpos
    have hle : (k : ℤ) * pageSize q ≤ matched - 1 :=
      (Int.le_ediv_iff_mul_le (by omega)).1 (by omega)
    omega
  · rw [pageCount, Int.ediv_eq_zero_of_lt (by omega) (by omega)] at hk
    exact absurd hk (Nat.not_lt_zero _)

/-- The pages are enough for all nodes. -/
theorem le_pageCount_mul {matched : ℤ} (h : 0 ≤ matched) :
    matched ≤ pageCount q matched * pageSize q := by
  have hsize := one_le_pageSize q
  rcases h.lt_or_eq with hpos | rfl
  · rw [pageCount_eq q hpos, Int.add_mul, one_mul]
    have hmod := Int.emod_lt_of_pos (matched - 1) (by omega : 0 < pageSize q)
    have hdiv := Int.mul_ediv_add_emod (matched - 1) (pageSize q)
    rw [mul_comm] at hdiv
    omega
  · exact Int.mul_nonneg (Int.natCast_nonneg _) (by omega)

/-- Each page but those past the end starts at its offset. -/
theorem pageStart_mul {matched : ℤ} {k : ℕ} (hlt : k * pageSize q < matched) :
    pageStart { q with offset := k * pageSize q } matched = k * pageSize q := by
  have hsize := one_le_pageSize q
  have hk0 : 0 ≤ (k : ℤ) * pageSize q := Int.mul_nonneg (Int.natCast_nonneg _) (by omega)
  rw [pageStart, if_neg, max_eq_right hk0]
  dsimp only
  omega

/-- An offset past the end is taken for that of the last page. -/
theorem pageStart_of_le {matched offset : ℤ} (h : 0 ≤ matched) (hpast : matched ≤ offset) :
    pageStart { q with offset } matched =
      pageStart { q with offset := (pageCount q matched - 1) * pageSize q } matched := by
  have hsize := one_le_pageSize q
  have hoffset : max 0 offset ≥ matched := hpast.trans (le_max_right _ _)
  rw [pageStart, if_pos hoffset]
  rcases h.lt_or_eq with hpos | hzero
  · -- The last page is that of its own offset.
    have hlt := Int.ediv_mul_le (matched - 1) (by omega : pageSize q ≠ 0)
    have hnonneg : 0 ≤ (matched - 1) / pageSize q * pageSize q :=
      Int.mul_nonneg (Int.ediv_nonneg (by omega) (by omega)) (by omega)
    rw [if_pos hpos, pageStart, pageCount_eq q hpos, Int.add_sub_cancel, if_neg, max_eq_right]
    · exact rfl
    · exact hnonneg
    · dsimp only
      omega
  · rw [← hzero, if_neg (lt_irrefl _), pageStart, if_pos (le_max_left _ _),
      if_neg (lt_irrefl _)]

/-- Paging agrees with exporting. The rows of the pages, one page after the other, are those
    of the export, which has each node that matches once; every page says how many those are,
    and at how many addresses; and an offset past the end yields the last page. -/
theorem pages_eq_export (hash : CatalogKey → ℕ) (hc : c.Reachable hash)
    [Std.TransCmp compareText] :
    let page (offset : ℤ) :=
      queryNodes labels c { q with offset } compareText sorting nowMs suspicion
    let nodes := collectNodes labels c q compareText sorting nowMs suspicion
    let matched : ℤ := nodes.entries.length
    (range (pageCount q matched)).flatMap (fun k : ℕ => (page (k * pageSize q)).rows) =
      nodes.rows labels ∧
    nodes.entries ~ (c.slots.map c.entryAt).filter
      (matchesQuery labels q (some (countAddresses c)) suspicion) ∧
    nodes.entries.Nodup ∧
    (∀ offset, (page offset).matchedNodes = matched ∧
      (page offset).matchedAddresses = (nodes.entries.map (·.address)).dedup.length) ∧
    ∀ offset, matched ≤ offset → page offset = page ((pageCount q matched - 1) * pageSize q) := by
  intro page nodes matched
  have h := (NodeCatalog.Reachable.invariant hc).1
  have hsize := one_le_pageSize q
  let slots := sortedNodes labels compareText c q sorting suspicion
  have hpage : ∀ offset, page offset =
      { matchedNodes := slots.length
        matchedAddresses := (slots.map fun s => (c.entryAt s).address).dedup.length
        offset := pageStart { q with offset } slots.length
        rows := ((slots.drop (pageStart { q with offset } slots.length).toNat).take
          (pageSize q).toNat).map (rowAt labels c nowMs suspicion) } := fun offset =>
    queryNodes_eq labels compareText c { q with offset } sorting nowMs suspicion h
  have hperm : slots ~ filterNodes labels c q (some (countAddresses c)) suspicion :=
    sortedNodes_perm labels compareText c q sorting suspicion
  have hentries : nodes.entries = slots.map c.entryAt := rfl
  have hmatched : matched = slots.length := by
    change (nodes.entries.length : ℤ) = _
    rw [hentries, length_map]
  refine ⟨?_, ?_, ?_, fun offset => ?_, fun offset hpast => ?_⟩
  · -- Each page has its part of the nodes.
    have hrows : ∀ k ∈ range (pageCount q matched), (page (k * pageSize q)).rows =
        ((slots.map (rowAt labels c nowMs suspicion)).drop (k * (pageSize q).toNat)).take
          (pageSize q).toNat := by
      intro k hk
      have hlt := lt_of_lt_pageCount q (by omega) (mem_range.1 hk)
      have hstart : pageStart { q with offset := k * pageSize q } slots.length =
          k * pageSize q := pageStart_mul q (hmatched ▸ hlt)
      have hnat : ((k : ℤ) * pageSize q).toNat = k * (pageSize q).toNat := by
        rw [Int.toNat_mul (Int.natCast_nonneg _) (by omega), Int.toNat_natCast]
      rw [hpage, hstart, hnat, ← map_drop, ← map_take]
    have hall : slots.length ≤ pageCount q matched * (pageSize q).toNat := by
      have hle : matched ≤ pageCount q matched * pageSize q := le_pageCount_mul q (by omega)
      have hcast : ((pageSize q).toNat : ℤ) = pageSize q := Int.toNat_of_nonneg (by omega)
      rw [← hcast, hmatched, ← Nat.cast_mul] at hle
      rw [hmatched]
      exact_mod_cast hle
    rw [rows_collectNodes, flatMap_congr hrows, Sorting.flatMap_pages, take_of_length_le]
    rwa [length_map]
  · rw [hentries, filter_map]
    exact (hperm.map _)
  · rw [hentries]
    refine (nodup_map_iff_inj_on (hperm.nodup_iff.2 (c.nodup_slots.filter _))).2
      fun a ha b hb hab => h.eq_of_keyAt (inUse_of_mem_filterNodes (hperm.mem_iff.1 ha))
        (inUse_of_mem_filterNodes (hperm.mem_iff.1 hb)) (congrArg CatalogEntry.key hab)
  · rw [hpage, hentries, hmatched, map_map]
    exact ⟨rfl, rfl⟩
  · rw [hmatched] at hpast ⊢
    rw [hpage, hpage, pageStart_of_le q (Int.natCast_nonneg _) hpast]

/-- Two nodes at an address, on a page each. -/
theorem pages_eq_export_two :
    let hash : CatalogKey → ℕ := fun key => key.port.toNat
    let labels : ℕ → ClientLabels := fun _ => ⟨"no version sent", "", "absent"⟩
    let q : NodeQuery := { sort := .Client, limit := 1 }
    let page (c : NodeCatalog) (offset : ℤ) := queryNodes labels c { q with offset } compare
      (Sorting.mergeSort ℕ) 0 none
    ∃ c c', (NodeCatalog.new 10 0).apply hash
        (.upsert id ⟨.ipv4 (HostAddress.dotted 8 8 8 8), 6881⟩ 0) = some c ∧
      c.apply hash (.upsert id ⟨.ipv4 (HostAddress.dotted 8 8 8 8), 6882⟩ 0) = some c' ∧
      (page c' 0).rows ++ (page c' 1).rows =
        (collectNodes labels c' q compare (Sorting.mergeSort ℕ) 0 none).rows labels ∧
      (page c' 1).matchedNodes = 2 := by
  intro hash labels q page
  have hmatched : ((NodeCatalog.new 10 0).apply hash
      (.upsert id ⟨.ipv4 (HostAddress.dotted 8 8 8 8), 6881⟩ 0)).bind (fun c =>
        (c.apply hash (.upsert id ⟨.ipv4 (HostAddress.dotted 8 8 8 8), 6882⟩ 0)).map fun c' =>
          ((c'.slots.map c'.entryAt).filter
            (matchesQuery labels q (some (countAddresses c')) none)).length) = some 2 := by
    decide +kernel
  obtain ⟨c, hc, hc'⟩ := Option.bind_eq_some_iff.1 hmatched
  obtain ⟨c', hc', hlen⟩ := Option.map_eq_some_iff.1 hc'
  have hreach : c'.Reachable hash :=
    ⟨10, 0, .tail (.single ⟨.upsert id ⟨.ipv4 (HostAddress.dotted 8 8 8 8), 6881⟩ 0, trivial, hc⟩)
      ⟨.upsert id ⟨.ipv4 (HostAddress.dotted 8 8 8 8), 6882⟩ 0, trivial, hc'⟩⟩
  obtain ⟨hpages, hperm, -, hcounts, -⟩ :=
    pages_eq_export labels compare c' q (Sorting.mergeSort ℕ) 0 none hash hreach
  have htwo : (collectNodes labels c' q compare (Sorting.mergeSort ℕ) 0 none).entries.length = 2 :=
    hperm.length_eq.trans hlen
  rw [htwo] at hpages hcounts
  have hrows : (page c' 0).rows ++ ((page c' 1).rows ++ []) =
    (collectNodes labels c' q compare (Sorting.mergeSort ℕ) 0 none).rows labels := hpages
  rw [append_nil] at hrows
  exact ⟨c, c', hc, hc', hrows, (hcounts 1).1⟩

end

end Dht
