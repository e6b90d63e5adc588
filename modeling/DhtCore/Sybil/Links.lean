import DhtCore.NodeList.Paging
import DhtCore.Sybil.Meaning

/-!
# Links to the node list

Every group of the report links to a node list of its size (`groups_eq_lists`): the list of
the nodes that answered their latest query and are in the subnet, have the identifier or the
signal. The list tests each node (`filter_linked`), and the report counts the nodes of runs;
both count the nodes that have a key in common.
-/

namespace Dht

open HostAddress

namespace Sybil

open List

/-! ## What the list matches -/

section

variable (labels : ℕ → ClientLabels) (c : NodeCatalog) (compareText : String → String → Ordering)
  (sorting : Sorting.Algorithm ℕ) (nowMs : ℤ) (suspicion : Option AddressSignals)

/-- The numbers of nodes and of addresses are those of the nodes that pass the filters. -/
theorem queryNodes_counts {q : NodeQuery} (hmin : ¬q.minNodesAtAddress > 1) :
    let nodes := (c.slots.map c.entryAt).filter (matchesQuery labels q none suspicion)
    let page := queryNodes labels c q compareText sorting nowMs suspicion
    page.matchedNodes = nodes.length ∧
      page.matchedAddresses = (nodes.map (·.address)).dedup.length := by
  have hfilter : ∀ counts, (filterNodes labels c q counts suspicion).map c.entryAt =
      (c.slots.map c.entryAt).filter (matchesQuery labels q none suspicion) := fun counts => by
    rw [filter_map, filterNodes]
    refine congrArg _ (filter_congr fun s _ => ?_)
    cases counts with
    | none => rfl
    | some counts => exact (matchesQuery_none hmin counts _).symm
  intro nodes page
  -- Whether or not the nodes at each address were counted.
  obtain ⟨counts, hnodes, haddresses⟩ : ∃ counts : Option AddressCounts,
      page.matchedNodes = (filterNodes labels c q counts suspicion).length ∧
        page.matchedAddresses = (Runs.runs (fun a b => decide (a = b))
          (((filterNodes labels c q counts suspicion).map fun s =>
            (c.entryAt s).address).mergeSort (· ≤ ·))).length := ⟨_, rfl, rfl⟩
  have hmap : (filterNodes labels c q counts suspicion).map (fun s => (c.entryAt s).address) =
      nodes.map (·.address) := by
    rw [show nodes = _ from (hfilter counts).symm, map_map]
    rfl
  refine ⟨?_, ?_⟩
  · rw [hnodes, ← length_map c.entryAt, hfilter]
  · rw [haddresses, Runs.length_runs_mergeSort, hmap]

/-- Of the nodes that answered their latest query, those are listed that are in the subnet,
    share the prefix and have one of the signals. -/
theorem filter_linked (subnet : HostAddress) (subnetBits : ℤ) (idPrefix : NodeId)
    (idPrefixBits : ℤ) (signals : UInt8) (sort : NodeQuery.Sort) (descending : Bool)
    (offset limit : ℤ) :
    (c.slots.map c.entryAt).filter (matchesQuery labels
      { states := 1 <<< CatalogState.Responsive.index, subnet, subnetBits, idPrefix, idPrefixBits,
        suspicion := signals, sort, descending, offset, limit } none suspicion) =
    (answering c).filter fun e => (SubnetMatcher.of subnet subnetBits).matches e.address &&
      idHasPrefix e.id idPrefix idPrefixBits && matchesSignals e signals suspicion := by
  rw [answering, filter_filter]
  refine filter_congr fun e _ => ?_
  have hstate : ((1 : UInt32) <<< CatalogState.Responsive.index &&&
      (1 <<< e.state.index)) = 0 ↔ e.state ≠ .Responsive := by
    cases e.state <;> decide
  have hfront : idPrefixBits > 0 ∧ (!idHasPrefix e.id idPrefix idPrefixBits) = true ↔
      idHasPrefix e.id idPrefix idPrefixBits = false := by
    rw [Bool.not_eq_true', and_iff_right_iff_imp, idHasPrefix, Bool.or_eq_false_iff,
      decide_eq_false_iff_not, not_le]
    exact And.left
  have hsignals : signals ≠ 0 ∧ (!matchesSignals e signals suspicion) = true ↔
      matchesSignals e signals suspicion = false := by
    rw [Bool.not_eq_true', and_iff_right_iff_imp]
    rintro h rfl
    rw [matchesSignals, if_pos rfl] at h
    exact nomatch h
  rw [matchesQuery]
  simp only [hstate, hfront, hsignals]
  cases (SubnetMatcher.of subnet subnetBits).matches e.address <;>
    cases idHasPrefix e.id idPrefix idPrefixBits <;>
      cases matchesSignals e signals suspicion <;> by_cases h : e.state = .Responsive <;>
        simp [h]

end

/-- The filter of a subnet has as many bits as the address, if it is that of an address. -/
def hostBits : HostAddress → ℤ
  | .ipv4 _ => 32
  | _ => 128

/-- The filter of an address of IPv4, or of the start of one. -/
theorem matches_ipv4 (a : BitVec 32) {n : ℕ} (hn : n ≤ 32) (b : BitVec 128) :
    (SubnetMatcher.of (.ipv4 a) n).matches b ↔
      b.toNat / 2 ^ (32 - n) = (mappedPrefix ++ a).toNat / 2 ^ (32 - n) := by
  have hbits : (max 0 (min ((n : ℤ) + 96) 128)).toNat = n + 96 := by omega
  rw [SubnetMatcher.of, if_neg (by simp), SubnetMatcher.matches]
  dsimp only [normalizeAddress]
  rw [Bool.false_or, hbits, samePrefix_iff, show 128 - (n + 96) = 32 - n by omega]
  rfl

/-- The filter of an address of IPv6, or of the start of one. -/
theorem matches_ipv6 {a : BitVec 128} (ha : ¬CatalogEntry.isMappedV4 a) (hne : a ≠ 0) {n : ℕ}
    (hn : n ≤ 128) (b : BitVec 128) : (SubnetMatcher.of (.ipv6 a) n).matches b ↔
      b.toNat / 2 ^ (128 - n) = a.toNat / 2 ^ (128 - n) := by
  have hbits : (max 0 (min (n : ℤ) 128)).toNat = n := by omega
  have hnormal : normalizeAddress (.ipv6 a) = .ipv6 a :=
    normalizeAddress_ipv6 (fun h => ha (decide_eq_true h)) hne
  rw [SubnetMatcher.of, if_neg (by simp), SubnetMatcher.matches, hnormal]
  dsimp only
  rw [Bool.false_or, hbits, samePrefix_iff]
  rfl

theorem append_extractLsb' {a : BitVec 128} (ha : CatalogEntry.isMappedV4 a) :
    mappedPrefix ++ a.extractLsb' 0 32 = a := by
  rw [← of_decide_eq_true ha]
  ext i hi
  rw [BitVec.getElem_append]
  split
  · rw [BitVec.getElem_extractLsb', Nat.zero_add]
    rfl
  · rw [BitVec.getElem_extractLsb', show 32 + (i - 32) = i by omega]
    rfl

/-- The filter of an address matches that address. -/
theorem matches_address {a : BitVec 128} (hne : a ≠ 0) (b : BitVec 128) :
    (SubnetMatcher.of (CatalogEntry.addressOf a) (hostBits (CatalogEntry.addressOf a))).matches b ↔
      b = a := by
  rw [← BitVec.toNat_inj, CatalogEntry.addressOf]
  split_ifs with ha
  · rw [show hostBits (.ipv4 (a.extractLsb' 0 32)) = ((32 : ℕ) : ℤ) from rfl,
      matches_ipv4 _ (by decide), append_extractLsb' ha, Nat.pow_zero, Nat.div_one, Nat.div_one]
  · rw [show hostBits (.ipv6 a) = ((128 : ℕ) : ℤ) from rfl, matches_ipv6 ha hne
      (by decide), Nat.pow_zero, Nat.div_one, Nat.div_one]

theorem toNat_append_ipv4 (a : BitVec 32) :
    (mappedPrefix ++ a).toNat = 0xffff * 2 ^ 32 + a.toNat := by
  rw [BitVec.toNat_append, ← Nat.shiftLeft_add_eq_or_of_lt a.isLt, Nat.shiftLeft_eq]
  rfl

/-- The filter of a subnet matches its addresses, unless it is that around those of IPv4. -/
theorem matches_subnet {a : BitVec 128}
    (ha : CatalogEntry.isMappedV4 a ∨ a.toNat / 2 ^ 80 ≠ 0) (b : BitVec 128) :
    (SubnetMatcher.of (subnetOf (CatalogEntry.addressOf a)).1
      (subnetOf (CatalogEntry.addressOf a)).2).matches b ↔ subnetKey b = subnetKey a := by
  rw [CatalogEntry.addressOf]
  by_cases h4 : CatalogEntry.isMappedV4 a
  · -- The other addresses of the subnet are of IPv4 as well.
    have hmask : (a.extractLsb' 0 32 &&& 0xffffff00).toNat / 2 ^ 8 =
        (a.extractLsb' 0 32).toNat / 2 ^ 8 := by
      rw [BitVec.toNat_and, Nat.and_div_two_pow]
      refine (Nat.and_two_pow_sub_one_eq_mod _ 24).trans (Nat.mod_eq_of_lt ?_)
      have := (a.extractLsb' 0 32).isLt
      omega
    have hbase : (mappedPrefix ++ (a.extractLsb' 0 32 &&& 0xffffff00)).toNat / 2 ^ 8 =
        a.toNat / 2 ^ 8 := by
      conv_rhs => rw [← append_extractLsb' h4]
      rw [toNat_append_ipv4, toNat_append_ipv4]
      omega
    rw [if_pos h4]
    dsimp only [subnetOf]
    rw [show (24 : ℤ) = (24 : ℕ) from rfl, matches_ipv4 _ (by decide), hbase, subnetKey, subnetKey,
      h4, Prod.mk.injEq]
    rw [isMappedV4_iff] at h4
    constructor
    · intro hb
      have hb4 : CatalogEntry.isMappedV4 b = true := isMappedV4_iff.2 (by omega)
      rw [hb4]
      exact ⟨rfl, hb⟩
    · rintro ⟨hb4, hb⟩
      rwa [hb4] at hb
  · -- Nor do those of IPv6 share it with any of IPv4, whose first 80 bits are zero.
    have ha := ha.resolve_left h4
    have hbase : (a >>> 80 <<< 80).toNat = a.toNat / 2 ^ 80 * 2 ^ 80 := by
      have := a.isLt
      rw [BitVec.toNat_shiftLeft, BitVec.toNat_ushiftRight, Nat.shiftLeft_eq,
        Nat.shiftRight_eq_div_pow, Nat.mod_eq_of_lt (by omega)]
    have hbase4 : ¬CatalogEntry.isMappedV4 (a >>> 80 <<< 80) := by
      rw [isMappedV4_iff, hbase]
      omega
    have hne : a >>> 80 <<< 80 ≠ 0 := fun heq => by
      rw [heq] at hbase
      have hzero : (0 : BitVec 128).toNat = 0 := rfl
      omega
    rw [if_neg h4]
    dsimp only [subnetOf]
    rw [show (48 : ℤ) = (48 : ℕ) from rfl, matches_ipv6 hbase4 hne (by decide), hbase, subnetKey,
      subnetKey, Bool.eq_false_of_not_eq_true h4, Prod.mk.injEq]
    constructor
    · intro hb
      have hb4 : ¬CatalogEntry.isMappedV4 b := by
        rw [isMappedV4_iff]
        omega
      rw [Bool.eq_false_of_not_eq_true hb4]
      refine ⟨rfl, hb.trans (Nat.mul_div_cancel _ (by decide))⟩
    · rintro ⟨hb4, hb⟩
      rw [hb4] at hb
      exact hb.trans (Nat.mul_div_cancel _ (by decide)).symm

/-- The filter of a prefix matches the identifiers that share it. -/
theorem idHasPrefix_iff {n : ℕ} (hn : n ≤ NodeId.Bits) (id idPrefix : NodeId) :
    idHasPrefix id idPrefix n ↔
      id.value / 2 ^ (NodeId.Bits - n) = idPrefix.value / 2 ^ (NodeId.Bits - n) := by
  have hmin : min (n : ℤ) NodeId.Bits = n := min_eq_left (by exact_mod_cast hn)
  rw [← NodeId.le_commonPrefixLength_iff hn, idHasPrefix, Bool.or_eq_true, decide_eq_true_eq,
    decide_eq_true_eq, hmin]
  omega

/-! ## What the report counts -/

/-- The search finds what is known of an address, if anything is. -/
theorem infoFor_eq_some {l : List AddressInfo} {a : BitVec 128} {info : AddressInfo}
    (h : l.Pairwise fun x y => x.address.toNat < y.address.toNat) :
    infoFor l a = some info ↔ info ∈ l ∧ info.address = a := by
  rw [infoFor, Option.filter_eq_some_iff, decide_eq_true_eq]
  refine and_congr_left fun haddress => ?_
  induction l with
  | nil => simp
  | cons x l ih =>
    rw [pairwise_cons] at h
    by_cases hx : x.address < a
    · have hne : info ≠ x := fun heq => by
        rw [← heq, haddress] at hx
        exact BitVec.lt_irrefl a hx
      rw [dropWhile_cons_of_pos (by simpa using hx), ih h.2, mem_cons]
      exact (or_iff_right hne).symm
    · rw [dropWhile_cons_of_neg (by simpa using hx), head?_cons, Option.some.injEq, mem_cons]
      refine ⟨fun heq => .inl heq.symm, fun hmem => (hmem.resolve_right fun hmem => ?_).symm⟩
      have hlt := h.1 _ hmem
      rw [haddress] at hlt
      exact hx hlt

section

variable {E : List CatalogEntry} {ordered items : List Item} (h : Arranged E ordered items)

include h

/-- As many addresses are known of as there are. -/
theorem Arranged.length_infos (p : BitVec 128 → Bool) :
    ((infos ordered).filter fun info => p info.address).length =
      ((E.filter fun e => p e.address).map (·.address)).dedup.length := by
  obtain ⟨keys, hnodup, -, hmem, -, hkeys⟩ := h.inOrder.infos_eq
  have hperm : keys.filter p ~ ((E.filter fun e => p e.address).map (·.address)).dedup :=
    (perm_ext_iff_of_nodup (hnodup.filter p) (nodup_dedup _)).2 fun a => by
      rw [mem_filter, hmem, h.exists_ordered, mem_dedup, mem_map]
      constructor
      · rintro ⟨⟨e, he, rfl⟩, hp⟩
        exact ⟨e, mem_filter.2 ⟨he, hp⟩, rfl⟩
      · rintro ⟨e, he, rfl⟩
        exact ⟨⟨e, (mem_filter.1 he).1, rfl⟩, (mem_filter.1 he).2⟩
  rw [← hperm.length_eq, ← hkeys, ← countP_eq_length_filter, ← countP_eq_length_filter, countP_map]
  rfl

/-- Their nodes are all there are at them. -/
theorem Arranged.sum_nodes (p : BitVec 128 → Bool) :
    (((infos ordered).filter fun info => p info.address).map (·.nodes)).sum =
      (E.filter fun e => p e.address).length := by
  obtain ⟨keys, hnodup, -, hmem, hinfos, -⟩ := h.inOrder.infos_eq
  have hkeys : keys ~ (ordered.map (·.address)).dedup :=
    (perm_ext_iff_of_nodup hnodup (nodup_dedup _)).2 fun a => by rw [hmem, mem_dedup, mem_map]
  have hfilter : (infos ordered).filter (fun info => p info.address) =
      (keys.filter p).map (infoAt ordered) := by
    rw [hinfos, filter_map]
    refine congrArg _ (filter_congr fun k hk => ?_)
    rw [Function.comp_apply, address_infoAt ((hmem k).1 hk)]
  have hcount : ∀ k, (infoAt ordered k).nodes = (ordered.map (·.address)).count k := fun k => by
    rw [nodes_infoAt, count, countP_map]
    exact countP_congr fun i _ => by simp
  rw [hfilter, map_map, ← countP_eq_length_filter]
  calc ((keys.filter p).map fun k => (infoAt ordered k).nodes).sum
      = ((keys.filter p).map fun k => (ordered.map (·.address)).count k).sum := by
        simp only [hcount]
    _ = (((ordered.map (·.address)).dedup.filter p).map fun k =>
          (ordered.map (·.address)).count k).sum := ((hkeys.filter p).map _).sum_eq
    _ = (ordered.map (·.address)).countP p := sum_map_count_dedup_filter_eq_countP p _
    _ = E.countP fun e => p e.address := by
        rw [countP_map, h.ordered_perm.countP_eq, countP_map]
        rfl

/-- A dense subnet is not the one around the addresses of IPv4. -/
theorem Arranged.base_of_dense {info : AddressInfo}
    (hdense : isDenseSubnet ((infos ordered).filter fun b =>
      subnetKey b.address = subnetKey info.address)) :
    CatalogEntry.isMappedV4 info.address ∨ info.address.toNat / 2 ^ 80 ≠ 0 := by
  obtain ⟨keys, hnodup, -, hmem, -, hkeys⟩ := h.inOrder.infos_eq
  by_contra hnot
  rw [not_or, not_not] at hnot
  have hsame : ∀ b ∈ ((infos ordered).filter fun b =>
      subnetKey b.address = subnetKey info.address).map (·.address), b = 1 := by
    intro x hx
    obtain ⟨b, hb, rfl⟩ := mem_map.1 hx
    obtain ⟨hb, hkey⟩ := mem_filter.1 hb
    obtain ⟨i, hi, heq⟩ := (hmem b.address).1 (hkeys ▸ mem_map_of_mem hb)
    obtain ⟨hmapped, hfront⟩ := Prod.mk.inj (of_decide_eq_true hkey)
    have hb4 : CatalogEntry.isMappedV4 b.address = false :=
      hmapped.trans (Bool.eq_false_of_not_eq_true hnot.1)
    rw [hb4, Bool.eq_false_of_not_eq_true hnot.1] at hfront
    have hcontact := h.contactable i hi
    rw [heq] at hcontact
    exact hcontact (by rw [hb4]; exact Bool.false_ne_true) (hfront.trans hnot.2)
  have hone := eq_replicate_of_mem hsame
  have hsub : ((infos ordered).filter fun b =>
      subnetKey b.address = subnetKey info.address).map (·.address) <+ keys :=
    hkeys ▸ (filter_sublist).map _
  have hlen := hsub.nodup hnodup
  rw [hone, nodup_replicate, length_map] at hlen
  have hmany : DenseSubnetAt ≤ ((infos ordered).filter fun b =>
    subnetKey b.address = subnetKey info.address).length := of_decide_eq_true hdense
  rw [DenseSubnetAt] at hmany
  omega

/-- A dense subnet is as large as the list it links to. -/
theorem Arranged.denseSubnet_counts {run : List AddressInfo}
    (hrun : run ∈ (subnetRuns (infos ordered)).filter isDenseSubnet) :
    let s := denseSubnet run
    let nodes := E.filter fun e => (SubnetMatcher.of s.base s.bits).matches e.address
    s.addresses = (nodes.map (·.address)).dedup.length ∧ s.answeringNodes = nodes.length := by
  obtain ⟨hrun, hdense⟩ := mem_filter.1 hrun
  obtain ⟨info, hinfo, rfl⟩ := (h.inOrder.mem_subnetRuns h.contactable).1 hrun
  -- The run is judged by its first address, which is of the same subnet.
  generalize hhead : ((infos ordered).filter fun b =>
    subnetKey b.address = subnetKey info.address).headD default = head
  have hkey : subnetKey head.address = subnetKey info.address := hhead ▸
    Runs.key_headD (f := fun b : AddressInfo => subnetKey b.address)
      (fun b hb => of_decide_eq_true hb) hinfo (by simp) _
  have hbase : CatalogEntry.isMappedV4 head.address ∨ head.address.toNat / 2 ^ 80 ≠ 0 :=
    h.base_of_dense (by rwa [hkey])
  have hmatches : ∀ e : CatalogEntry,
      (SubnetMatcher.of
        (denseSubnet ((infos ordered).filter fun b =>
          subnetKey b.address = subnetKey info.address)).base
        (denseSubnet ((infos ordered).filter fun b =>
          subnetKey b.address = subnetKey info.address)).bits).matches e.address =
        decide (subnetKey e.address = subnetKey info.address) := fun e => by
    rw [Bool.eq_iff_iff, decide_eq_true_eq, denseSubnet, hhead, ← hkey]
    exact matches_subnet hbase e.address
  intro s nodes
  have hnodes : nodes = E.filter fun e => subnetKey e.address = subnetKey info.address :=
    filter_congr fun e _ => hmatches e
  rw [hnodes]
  exact ⟨h.length_infos fun a => subnetKey a = subnetKey info.address,
    h.sum_nodes fun a => subnetKey a = subnetKey info.address⟩

/-- An identifier is at as many addresses as the list it links to. -/
theorem Arranged.sharedId_counts {run : List Item} (hrun : run ∈ idRuns items) :
    let g := sharedIdGroup run
    g.addresses = ((E.filter fun e => idHasPrefix e.id g.id NodeId.Bits).map
      (·.address)).dedup.length := by
  obtain ⟨i, hi, rfl⟩ := h.byId.mem_idRuns.1 hrun
  have hid : ((items.filter fun b => b.id = i.id).headD default).id = i.id :=
    Runs.key_headD (f := Item.id) (fun b hb => of_decide_eq_true hb) hi (by simp) _
  obtain ⟨hnodup, hmem⟩ := h.byId.addressesOf_eq i.id
  intro g
  refine ((perm_ext_iff_of_nodup hnodup (nodup_dedup _)).2 fun a => ?_).length_eq
  rw [hmem, h.exists_items, mem_dedup, mem_map]
  refine exists_congr fun e => ?_
  rw [mem_filter, idHasPrefix_iff le_rfl, Nat.sub_self, Nat.pow_zero, Nat.div_one, Nat.div_one,
    show g.id = i.id from hid, and_assoc]
  exact and_congr_right fun _ => and_congr_left fun _ =>
    ⟨congrArg NodeId.value, fun heq => NodeId.value_inj heq⟩

/-- A window is of as many addresses as the list it links to. -/
theorem Arranged.denseWindow_counts (poissonTail : ℚ → ℕ → ℚ) {window : ℕ × List NodeId}
    (hwindow : window ∈ denseRuns poissonTail
      ((idRuns items).map fun run => (run.headD default).id)) (n : ℕ) :
    let w := denseWindow poissonTail items n window.1 window.2
    w.addresses = ((E.filter fun e => idHasPrefix e.id w.idPrefix w.bits).map
      (·.address)).dedup.length := by
  obtain ⟨-, hids, hmem⟩ := h.byId.distinctIds_eq
  obtain ⟨depth, hdepth, hin⟩ := mem_flatMap.1 hwindow
  obtain ⟨run, hrun, rfl⟩ := mem_map.1 hin
  have hbits := (mem_depths.1 hdepth).2.2
  obtain ⟨id, hid, rfl⟩ := (mem_windowRuns hids hbits).1 (mem_filter.1 hrun).1
  intro w
  have hfront : w.idPrefix.value / 2 ^ (NodeId.Bits - depth) =
      id.value / 2 ^ (NodeId.Bits - depth) :=
    (NodeId.value_maskedTo_div hbits).trans (Runs.key_headD
      (f := fun b : NodeId => b.value / 2 ^ (NodeId.Bits - depth))
      (fun b hb => of_decide_eq_true hb) hid (by simp) _)
  have haddresses : w.addresses = ((items.filter fun i =>
      i.id.value / 2 ^ (NodeId.Bits - depth) = id.value / 2 ^ (NodeId.Bits - depth)).map
        (·.address)).dedup.length := by
    rw [← windowItems_eq h.byId hids hmem hbits hid]
    exact Runs.length_runs_mergeSort _
  rw [haddresses]
  refine ((perm_ext_iff_of_nodup (nodup_dedup _) (nodup_dedup _)).2 fun a => ?_).length_eq
  simp only [mem_dedup, mem_map, mem_filter, and_assoc]
  rw [h.exists_items]
  refine exists_congr fun e => and_congr_right fun _ => and_congr_left fun _ => ?_
  rw [show w.bits = depth from rfl, idHasPrefix_iff hbits, hfront, decide_eq_true_eq]
  rfl

/-- What is found of an address is what is known of it. -/
theorem Arranged.infoFor_eq (a : BitVec 128) : infoFor (infos ordered) a =
    if ∃ e ∈ E, e.address = a then some (infoAt ordered a) else none := by
  obtain ⟨keys, hnodup, hpairwise, hmem, hinfos, hkeys⟩ := h.inOrder.infos_eq
  have hsorted : (infos ordered).Pairwise fun x y => x.address.toNat < y.address.toNat := by
    have hlt : keys.Pairwise fun x y => x.toNat < y.toNat := (hpairwise.and hnodup).imp
      fun hxy => hxy.1.lt_of_ne fun heq => hxy.2 (BitVec.eq_of_toNat_eq heq)
    rwa [← hkeys, pairwise_map] at hlt
  simp only [h.exists_ordered] at hmem
  split_ifs with ha
  · refine (infoFor_eq_some hsorted).2 ⟨?_, address_infoAt (h.exists_ordered.2 ha)⟩
    rw [hinfos]
    exact mem_map_of_mem ((hmem a).2 ha)
  · refine Option.eq_none_iff_forall_not_mem.2 fun info hinfo => ha ?_
    obtain ⟨hin, rfl⟩ := (infoFor_eq_some hsorted).1 hinfo
    exact (hmem _).1 (hkeys ▸ mem_map_of_mem hin)

/-- An address with many nodes has as many as the list it links to. -/
theorem Arranged.suspect_counts {s : Suspicion} {x : SuspectAddress}
    (hx : x ∈ suspects (infos ordered) s) : x.answeringNodes = (E.filter fun e =>
      (SubnetMatcher.of x.address (hostBits x.address)).matches e.address).length := by
  obtain ⟨⟨key, bits⟩, -, hx⟩ := mem_filterMap.1 hx
  obtain ⟨info, hinfo, rfl⟩ := Option.map_eq_some_iff.1 hx
  rw [h.infoFor_eq, Option.ite_none_right_eq_some, Option.some.injEq] at hinfo
  obtain ⟨hknown, rfl⟩ := hinfo
  have hne : key ≠ 0 := fun heq => by
    obtain ⟨i, hi, hkey⟩ := (h.exists_ordered (p := fun i => i.address = key)).2 hknown
    have hone := h.contactable i hi (by rw [hkey, heq]; decide) (by rw [hkey, heq]; rfl)
    rw [hkey, heq] at hone
    exact absurd hone (by decide)
  dsimp only
  rw [nodes_infoAt, h.countP_ordered, countP_eq_length_filter]
  refine congrArg length (filter_congr fun e _ => ?_)
  rw [Bool.eq_iff_iff, matches_address hne]
  exact decide_eq_true_iff

/-- There are as many suspects of a kind as there are addresses with such signals. -/
theorem Arranged.length_suspects {s : Suspicion} {p : UInt8 → Bool} (hp : p 0 = false)
    (hs : ∀ a, p (s.signals a) → ∃ e ∈ E, e.address = a) :
    ((suspects (infos ordered) s).filter fun x => p x.suspicion).length =
      ((E.filter fun e => p (s.signals e.address)).map (·.address)).dedup.length := by
  -- All of them are known of.
  have hentry : ∀ e ∈ s.entries, s.signals e.1 = e.2 := fun e he => by
    rw [Suspicion.signals, AList.mem_lookup_iff.2 he]
    rfl
  have hlen : ((suspects (infos ordered) s).filter fun x => p x.suspicion).length =
      ((s.entries.filter fun e => p e.2).map (·.1)).length := by
    rw [suspects, filter_filterMap, length_filterMap_eq_countP, length_map,
      ← countP_eq_length_filter]
    refine countP_congr fun e he => ?_
    dsimp only
    rw [h.infoFor_eq]
    by_cases hpe : p e.2
    · rw [if_pos (hs e.1 (by rwa [hentry e he]))]
      simp [hpe]
    · split_ifs <;> simp [hpe]
  have hnodup : ((s.entries.filter fun e => p e.2).map (·.1)).Nodup :=
    (filter_sublist.map _).nodup s.nodupKeys
  rw [hlen]
  refine ((perm_ext_iff_of_nodup hnodup (nodup_dedup _)).2 fun a => ?_).length_eq
  simp only [mem_dedup, mem_map, mem_filter]
  constructor
  · rintro ⟨e, ⟨he, hpe⟩, rfl⟩
    rw [← hentry e he] at hpe
    obtain ⟨e', he', heq⟩ := hs e.1 hpe
    exact ⟨e', ⟨he', heq ▸ hpe⟩, heq⟩
  · rintro ⟨e, ⟨-, hpe⟩, rfl⟩
    rw [Suspicion.signals] at hpe
    cases hlookup : s.lookup e.address with
    | none =>
      rw [hlookup, Option.getD_none, hp] at hpe
      cases hpe
    | some bits =>
      rw [hlookup] at hpe
      exact ⟨⟨_, bits⟩, ⟨AList.mem_lookup_iff.1 hlookup, hpe⟩, rfl⟩

end

/-! ## What the report lists -/

/-- A window that is kept is one of them. -/
theorem mem_of_mem_keepTightest {windows : List DenseIdWindow} {w : DenseIdWindow}
    (hw : w ∈ keepTightest windows) : w ∈ windows := by
  have hkept : ∀ (l kept : List DenseIdWindow), w ∈ l.foldl (fun kept w =>
      if kept.any fun inner => NodeId.commonPrefixLength inner.idPrefix w.idPrefix ≥ w.bits &&
        w.nodes * 10 ≤ inner.nodes * 11
      then kept else kept ++ [w]) kept → w ∈ kept ∨ w ∈ l := by
    intro l
    induction l with
    | nil => exact fun kept h => .inl h
    | cons x l ih =>
      intro kept h
      rw [foldl_cons] at h
      rcases ih _ h with h | h
      · split_ifs at h
        · exact .inl h
        · rw [mem_append, mem_singleton] at h
          exact h.imp_right fun h => mem_cons.2 (.inl h)
      · exact .inr (mem_cons_of_mem _ h)
  exact (hkept windows [] hw).resolve_left not_mem_nil

theorem mem_of_mem_trim {α : Type} {l : List α} {a : α} (h : a ∈ trim l) : a ∈ l :=
  mem_of_mem_take h

section

variable (sorting : (α : Type) → Sorting.Algorithm α) (addressText : HostAddress → String)
  (poissonTail : ℚ → ℕ → ℚ) {c : NodeCatalog}

/-- What is listed are groups of the nodes that answered their latest query. -/
theorem listed_groups (h : AllUsable c) :
    let report := computeSybilReport sorting addressText poissonTail c
    ∃ ordered items s, Arranged (answering c) ordered items ∧
      (∀ a, report.addressSignals.at a = s.signals a) ∧
      (∀ x ∈ report.denseSubnets, ∃ run ∈ (subnetRuns (infos ordered)).filter isDenseSubnet,
        denseSubnet run = x) ∧
      (∀ g ∈ report.sharedIds, ∃ run ∈ idRuns items, sharedIdGroup run = g) ∧
      (∀ w ∈ report.denseWindows, ∃ n, ∃ window ∈ denseRuns poissonTail
        ((idRuns items).map fun run => (run.headD default).id),
          denseWindow poissonTail items n window.1 window.2 = w) ∧
      (∀ x ∈ report.manyNodes, x ∈ suspects (infos ordered) s) ∧
      report.manyNodesCount = ((suspects (infos ordered) s).filter isManyNodes).length ∧
      report.flaggedCount = ((suspects (infos ordered) s).filter isFlagged).length ∧
      report.selfPointerCount = ordered.countP pointsToSelf ∧
      report.peerInventorCount = ordered.countP (·.inventsPeers) := by
  dsimp only
  rw [computeSybilReport]
  dsimp only
  by_cases hnone : answering c = []
  · rw [hnone]
    exact ⟨[], [], ∅, ⟨.nil, .nil, .nil, .nil, by simp⟩, fun _ => rfl, by simp, by simp, by simp,
      by simp, rfl, rfl, rfl, rfl⟩
  · have hitems : ((answering c).map itemOf).isEmpty = false :=
      Bool.eq_false_iff.2 fun he => hnone (map_eq_nil_iff.1 (isEmpty_iff.1 he))
    rw [hitems, if_neg Bool.false_ne_true]
    refine ⟨_, _, _, arranged sorting h, at_sortSignals _, fun x hx => ?_,
      fun g hg => ?_, fun w hw => ?_, fun x hx => ?_, rfl, rfl, ?_, ?_⟩
    · obtain ⟨run, hrun, rfl⟩ := mem_map.1 (((sorting _).sort_perm _ _).mem_iff.1
        (mem_of_mem_trim hx))
      exact ⟨run, hrun, rfl⟩
    · obtain ⟨run, hrun, rfl⟩ := mem_map.1 (((sorting _).sort_perm _ _).mem_iff.1
        (mem_of_mem_trim hg))
      exact ⟨run, (mem_filter.1 hrun).1, rfl⟩
    · have hkept := mem_of_mem_keepTightest (((sorting _).sort_perm _ _).mem_iff.1
        (mem_of_mem_trim hw))
      obtain ⟨window, hwindow, rfl⟩ := mem_map.1 (((sorting _).sort_perm _ _).mem_iff.1 hkept)
      exact ⟨_, window, hwindow, rfl⟩
    · exact (mem_filter.1 (((sorting _).sort_perm _ _).mem_iff.1 (mem_of_mem_trim hx))).1
    · exact (length_map _).trans countP_eq_length_filter.symm
    · exact (length_map _).trans countP_eq_length_filter.symm

/-- An address with a signal is that of such a node. -/
theorem exists_of_signals (h : AllUsable c) {a : BitVec 128}
    (ha : (computeSybilReport sorting addressText poissonTail c).addressSignals.at a ≠ 0) :
    ∃ e ∈ answering c, e.address = a := by
  by_contra hnone
  refine ha (SybilSignal.eq_of_isIn (signals_lt _ _ _ a) (show (0 : UInt8) < 64 by decide)
    fun signal => ?_)
  rw [SybilSignal.isIn_zero, Bool.eq_false_iff, ne_eq, isIn_addressSignals h]
  intro hmeaning
  cases signal with
  | ManyNodes =>
    have hpos : 0 < (answering c).countP fun e => e.address = a :=
      lt_of_lt_of_le (by decide) hmeaning
    obtain ⟨e, he, hae⟩ := countP_pos_iff.1 hpos
    exact hnone ⟨e, he, of_decide_eq_true hae⟩
  | DenseSubnet => exact hnone hmeaning.1
  | SharedId =>
    obtain ⟨e, he, hae, -⟩ := hmeaning
    exact hnone ⟨e, he, hae⟩
  | DenseIds =>
    obtain ⟨-, e, he, hae, -⟩ := hmeaning
    exact hnone ⟨e, he, hae⟩
  | PointsToSelf =>
    obtain ⟨e, he, hae, -⟩ := hmeaning
    exact hnone ⟨e, he, hae⟩
  | InventsPeers =>
    obtain ⟨e, he, hae, -⟩ := hmeaning
    exact hnone ⟨e, he, hae⟩

end

/-! ## Filters on signals -/

theorem matchesSignals_zero (e : CatalogEntry) (suspicion : Option AddressSignals) :
    matchesSignals e 0 suspicion = true := rfl

/-- Many nodes at an address are known by its signals. -/
theorem matchesSignals_manyNodes (e : CatalogEntry) (suspicion : Option AddressSignals) :
    matchesSignals e SybilSignal.ManyNodes.value suspicion =
      SybilSignal.ManyNodes.isIn (signalsAt suspicion e.address) := by
  have hbits : SybilSignal.ManyNodes.value &&& ~~~(SybilSignal.PointsToSelf.value |||
      SybilSignal.InventsPeers.value ||| SeveralSignals) = SybilSignal.ManyNodes.value := by decide
  rw [matchesSignals, if_neg (by decide), if_neg (fun h => absurd h.1 (by decide)),
    if_neg (fun h => absurd h.1 (by decide))]
  dsimp only
  rw [if_neg (fun h => absurd h.1 (by decide)), UInt8.and_assoc, hbits]
  rfl

/-- Several signals are those of the address. -/
theorem matchesSignals_several (e : CatalogEntry) (suspicion : Option AddressSignals) :
    matchesSignals e SeveralSignals suspicion =
      decide (popcount (signalsAt suspicion e.address) ≥ 2) := by
  have hbits : SeveralSignals &&& ~~~(SybilSignal.PointsToSelf.value |||
      SybilSignal.InventsPeers.value ||| SeveralSignals) = 0 := by decide
  rw [matchesSignals, if_neg (by decide), if_neg (fun h => absurd h.1 (by decide)),
    if_neg (fun h => absurd h.1 (by decide))]
  dsimp only
  rw [UInt8.and_assoc, hbits, UInt8.and_zero]
  by_cases h : popcount (signalsAt suspicion e.address) ≥ 2
  · rw [if_pos ⟨by decide, h⟩, decide_eq_true h]
  · rw [if_neg (fun hand => h hand.2), decide_eq_false h]
    rfl

/-- A node points to itself by what it lists. -/
theorem matchesSignals_pointsToSelf {e : CatalogEntry} (he : e.state = .Responsive)
    (suspicion : Option AddressSignals) :
    matchesSignals e SybilSignal.PointsToSelf.value suspicion = pointsToSelf (itemOf e) := by
  have hbits : SybilSignal.PointsToSelf.value &&& ~~~(SybilSignal.PointsToSelf.value |||
      SybilSignal.InventsPeers.value ||| SeveralSignals) = 0 := by decide
  rw [matchesSignals, if_neg (by decide)]
  by_cases h : pointsToSelf (itemOf e)
  · rw [h, if_pos]
    rw [pointsToSelf, Bool.and_eq_true, decide_eq_true_eq, decide_eq_true_eq] at h
    exact ⟨by decide, he, h⟩
  · rw [Bool.eq_false_of_not_eq_true h, if_neg, if_neg (fun h => absurd h.1 (by decide))]
    · dsimp only
      rw [if_neg (fun h => absurd h.1 (by decide)), UInt8.and_assoc, hbits, UInt8.and_zero]
      rfl
    · rintro ⟨-, -, hshare⟩
      rw [pointsToSelf, Bool.and_eq_true, decide_eq_true_eq, decide_eq_true_eq] at h
      exact h hshare

/-- A node invents peers by what it answered. -/
theorem matchesSignals_inventsPeers (e : CatalogEntry) (suspicion : Option AddressSignals) :
    matchesSignals e SybilSignal.InventsPeers.value suspicion = (itemOf e).inventsPeers := by
  have hbits : SybilSignal.InventsPeers.value &&& ~~~(SybilSignal.PointsToSelf.value |||
      SybilSignal.InventsPeers.value ||| SeveralSignals) = 0 := by decide
  rw [matchesSignals, if_neg (by decide), if_neg (fun h => absurd h.1 (by decide))]
  by_cases h : e.has .InventsPeers
  · rw [if_pos ⟨by decide, h⟩]
    exact h.symm
  · rw [if_neg (fun hand => h hand.2)]
    dsimp only
    rw [if_neg (fun h => absurd h.1 (by decide)), UInt8.and_assoc, hbits, UInt8.and_zero]
    exact (Bool.eq_false_of_not_eq_true h).symm

/-! ## Links -/

section

variable (sorting : (α : Type) → Sorting.Algorithm α) (addressText : HostAddress → String)
  (poissonTail : ℚ → ℕ → ℚ) (c : NodeCatalog) (labels : ℕ → ClientLabels)
  (compareText : String → String → Ordering) (nowMs : ℤ) (sort : NodeQuery.Sort)
  (descending : Bool) (offset limit : ℤ)

/-- The list shows as many nodes and addresses as there are of those that answered. -/
theorem linked_counts (suspicion : Option AddressSignals) (subnet : HostAddress)
    (subnetBits : ℤ) (idPrefix : NodeId) (idPrefixBits : ℤ) (signals : UInt8) :
    let nodes := (answering c).filter fun e => (SubnetMatcher.of subnet subnetBits).matches
      e.address && idHasPrefix e.id idPrefix idPrefixBits && matchesSignals e signals suspicion
    let page := queryNodes labels c
      { states := 1 <<< CatalogState.Responsive.index, subnet, subnetBits, idPrefix, idPrefixBits,
        suspicion := signals, sort, descending, offset, limit } compareText (sorting ℕ) nowMs
        suspicion
    page.matchedNodes = nodes.length ∧
      page.matchedAddresses = (nodes.map (·.address)).dedup.length := by
  have hcounts := queryNodes_counts labels c compareText (sorting ℕ) nowMs suspicion
    (q := { states := 1 <<< CatalogState.Responsive.index, subnet, subnetBits, idPrefix,
            idPrefixBits, suspicion := signals, sort, descending, offset,
            limit }) (show ¬(0 : ℤ) > 1 by decide)
  rwa [filter_linked] at hcounts

/-- Every group of the report links to a node list of its size. -/
theorem groups_eq_lists (h : AllUsable c) :
    let report := computeSybilReport sorting addressText poissonTail c
    let list (q : NodeQuery) := queryNodes labels c
      { q with states := 1 <<< CatalogState.Responsive.index, sort, descending, offset, limit }
      compareText (sorting ℕ) nowMs (some report.addressSignals)
    (∀ s ∈ report.denseSubnets,
      let page := list { subnet := s.base, subnetBits := s.bits }
      page.matchedAddresses = s.addresses ∧ page.matchedNodes = s.answeringNodes) ∧
    (∀ g ∈ report.sharedIds,
      (list { idPrefix := g.id, idPrefixBits := 160 }).matchedAddresses = g.addresses) ∧
    (∀ w ∈ report.denseWindows,
      (list { idPrefix := w.idPrefix, idPrefixBits := w.bits }).matchedAddresses = w.addresses) ∧
    (∀ x ∈ report.manyNodes,
      (list { subnet := x.address, subnetBits := hostBits x.address }).matchedNodes =
        x.answeringNodes) ∧
    (list { suspicion := SybilSignal.ManyNodes.value }).matchedAddresses =
      report.manyNodesCount ∧
    (list { suspicion := SeveralSignals }).matchedAddresses = report.flaggedCount ∧
    (list { suspicion := SybilSignal.PointsToSelf.value }).matchedNodes =
      report.selfPointerCount ∧
    (list { suspicion := SybilSignal.InventsPeers.value }).matchedNodes =
      report.peerInventorCount := by
  intro report list
  obtain ⟨ordered, items, s, harranged, hsignals, hsubnets, hids, hwindows, hmany, hmanyCount,
    hflaggedCount, hselfCount, hpeerCount⟩ := listed_groups sorting addressText poissonTail h
  have hcounts := linked_counts sorting c labels compareText nowMs sort descending offset limit
    (some report.addressSignals)
  -- What is not asked for does not filter.
  have hnosubnet : ∀ a, (SubnetMatcher.of .null (-1)).matches a = true := fun _ => rfl
  have hnotFront : ∀ id, idHasPrefix id default (-1) = true := fun _ => rfl
  have hsubnet := fun subnet bits => hcounts subnet bits default (-1) 0
  have hfront := fun idPrefix bits => hcounts .null (-1) idPrefix bits 0
  have hfilter := fun signals => hcounts .null (-1) default (-1) signals
  simp only [hnotFront, matchesSignals_zero, Bool.and_true] at hsubnet
  simp only [hnosubnet, matchesSignals_zero, Bool.and_true, Bool.true_and] at hfront
  simp only [hnosubnet, hnotFront, Bool.true_and] at hfilter
  have hexists : ∀ p : UInt8 → Bool, p 0 = false → ∀ a, p (s.signals a) →
      ∃ e ∈ answering c, e.address = a := fun p hp a ha => by
    refine exists_of_signals sorting addressText poissonTail h fun hzero => ?_
    rw [← hsignals a, hzero, hp] at ha
    exact nomatch ha
  have hstate : ∀ e ∈ answering c, e.state = .Responsive := fun e he =>
    of_decide_eq_true (mem_filter.1 he).2
  refine ⟨fun x hx => ?_, fun g hg => ?_, fun w hw => ?_, fun x hx => ?_, ?_, ?_, ?_, ?_⟩
  · obtain ⟨run, hrun, rfl⟩ := hsubnets x hx
    obtain ⟨haddresses, hnodes⟩ := harranged.denseSubnet_counts hrun
    rw [haddresses, hnodes]
    exact (hsubnet _ _).symm
  · obtain ⟨run, hrun, rfl⟩ := hids g hg
    rw [harranged.sharedId_counts hrun]
    exact (hfront _ _).2
  · obtain ⟨n, window, hwindow, rfl⟩ := hwindows w hw
    rw [harranged.denseWindow_counts poissonTail hwindow n]
    exact (hfront _ _).2
  · rw [harranged.suspect_counts (hmany x hx)]
    exact (hsubnet _ _).1
  · have hnodes : (fun e => matchesSignals e SybilSignal.ManyNodes.value
        (some report.addressSignals)) = fun e : CatalogEntry =>
          SybilSignal.ManyNodes.isIn (s.signals e.address) := by
      funext e
      rw [matchesSignals_manyNodes, ← hsignals]
      rfl
    have hpage := (hfilter SybilSignal.ManyNodes.value).2
    rw [hnodes, ← harranged.length_suspects (SybilSignal.isIn_zero _)
      (hexists _ (SybilSignal.isIn_zero _))] at hpage
    exact hpage.trans (congrArg Nat.cast hmanyCount.symm)
  · have hnodes : (fun e => matchesSignals e SeveralSignals (some report.addressSignals)) =
        fun e : CatalogEntry => decide (popcount (s.signals e.address) ≥ 2) := by
      funext e
      rw [matchesSignals_several, ← hsignals]
      rfl
    have hzero : decide (popcount 0 ≥ 2) = false := by decide
    have hpage := (hfilter SeveralSignals).2
    rw [hnodes, ← harranged.length_suspects (p := fun x => decide (popcount x ≥ 2)) hzero
      (hexists (fun x => decide (popcount x ≥ 2)) hzero)] at hpage
    exact hpage.trans (congrArg Nat.cast hflaggedCount.symm)
  · have hpage := (hfilter SybilSignal.PointsToSelf.value).1
    rw [filter_congr fun e he => matchesSignals_pointsToSelf (hstate e he) _] at hpage
    refine hpage.trans (congrArg Nat.cast ?_)
    rw [hselfCount, harranged.countP_ordered, countP_eq_length_filter]
    rfl
  · have hpage := (hfilter SybilSignal.InventsPeers.value).1
    rw [filter_congr fun e _ => matchesSignals_inventsPeers e _] at hpage
    refine hpage.trans (congrArg Nat.cast ?_)
    rw [hpeerCount, harranged.countP_ordered, countP_eq_length_filter]
    rfl

end

/-- Eight nodes of one subnet that have the same ID are listed as a dense subnet, as a shared ID
    and as suspected for both, and the list of each has all of them. -/
theorem groups_eq_lists_subnet :
    let node (i : ℕ) : Endpoint := ⟨.ipv4 (HostAddress.dotted 8 8 8 (BitVec.ofNat 8 i)), 6881⟩
    ∃ c, ((List.range 8).flatMap fun i => [.upsert id (node i) 0, .setState i .Responsive]).foldlM
        (NodeCatalog.apply fun key => key.address.toNat) (NodeCatalog.new 10 0) = some c ∧
      let report := computeSybilReport Sorting.insertionSort (fun _ => "") (fun _ _ => 1) c
      let list (q : NodeQuery) := queryNodes (fun _ => ⟨"no version sent", "", "absent"⟩) c
        { q with states := 1 <<< CatalogState.Responsive.index } compare
        (Sorting.insertionSort ℕ) 0 (some report.addressSignals)
      ∃ s g, report.denseSubnets = [s] ∧ report.sharedIds = [g] ∧
        (list { subnet := s.base, subnetBits := s.bits }).matchedAddresses = 8 ∧
        (list { idPrefix := g.id, idPrefixBits := 160 }).matchedAddresses = 8 ∧
        (list { suspicion := SeveralSignals }).matchedAddresses = 8 := by
  intro node
  have hfacts : ∃ c ∈ ((List.range 8).flatMap fun i =>
        [.upsert id (node i) 0, .setState i .Responsive]).foldlM
        (NodeCatalog.apply fun key => key.address.toNat) (NodeCatalog.new 10 0),
      (∀ s ∈ c.slots, isUsableRemote (c.entryAt s).endpoint false) ∧
      let report := computeSybilReport Sorting.insertionSort (fun _ => "") (fun _ _ => 1) c
      report.denseSubnets.map (·.addresses) = [8] ∧ report.sharedIds.map (·.addresses) = [8] ∧
        report.flaggedCount = 8 := by
    decide +kernel
  obtain ⟨c, hc, husable, hsubnets, hids, hflagged⟩ := hfacts
  have hall : AllUsable c := fun s hs _ => ⟨false, husable s (NodeCatalog.mem_slots.2 hs)⟩
  obtain ⟨hsubnet, hid, -, -, -, hseveral, -, -⟩ :=
    groups_eq_lists Sorting.insertionSort (fun _ => "") (fun _ _ => 1) c
      (fun _ => ⟨"no version sent", "", "absent"⟩) compare 0 .Address false 0 100 hall
  obtain ⟨s, hs, haddresses⟩ := List.map_eq_singleton_iff.1 hsubnets
  obtain ⟨g, hg, haddresses'⟩ := List.map_eq_singleton_iff.1 hids
  refine ⟨c, hc, s, g, hs, hg, ?_, ?_, ?_⟩
  · rw [(hsubnet s (hs ▸ List.mem_singleton_self s)).1, haddresses]
    rfl
  · rw [hid g (hg ▸ List.mem_singleton_self g), haddresses']
    rfl
  · rw [hseveral, hflagged]
    rfl

end Sybil

end Dht
