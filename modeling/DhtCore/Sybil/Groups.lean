import DhtCore.Sybil.Basic

/-!
# Groups

What the runs of the report are. In the order of addresses, those of a node, and those of a
subnet, come one after the other (`mem_addressRuns`, `mem_subnetRuns`), and in the order of
identifiers those of an identifier, and those with a prefix (`mem_idRuns`, `mem_windowRuns`):
every run is a class, and all of it.

For subnets this takes that the addresses are such as can be contacted: the addresses of IPv4,
mapped into IPv6, are in the midst of a /48, of which no other address but the loopback one
can be contacted (`eq_one_of_usable`).
-/

namespace Dht

/-- A node whose address passed the check of addresses. -/
def CatalogEntry.Usable (e : CatalogEntry) : Prop :=
  ∃ allowLocal, isUsableRemote e.endpoint allowLocal

namespace Sybil

open List HostAddress

variable {sorting : (α : Type) → Sorting.Algorithm α} {items : List Item}

/-! ## By address -/

theorem byAddress_perm : byAddress sorting items ~ items := (sorting Item).sort_perm _ _

theorem byAddress_sorted : (byAddress sorting items).Pairwise fun a b =>
    a.address.toNat ≤ b.address.toNat := by
  have hsorted := (sorting Item).sorted_sort (fun a b => a.address.toNat < b.address.toNat) items
    (Sorting.strictWeak_of_key fun i : Item => i.address.toNat)
  exact hsorted.imp fun h => not_lt.1 (of_decide_eq_false h)

/-- Items in the order of addresses, as they are sorted. -/
def Ordered (ordered : List Item) : Prop :=
  ordered.Pairwise fun a b => a.address.toNat ≤ b.address.toNat

variable {ordered : List Item}

theorem Ordered.contiguous (h : Ordered ordered) : Runs.Contiguous (·.address) ordered :=
  Runs.contiguous_of_pairwise h fun a _ b _ c _ hab hbc hac => by
    have hac : a.address = c.address := hac
    rw [← hac] at hbc
    exact BitVec.eq_of_toNat_eq (le_antisymm hbc hab)

/-- The addresses with what is known of them: each once, in order. -/
theorem Ordered.addresses_eq (h : Ordered ordered) : ∃ keys : List (BitVec 128), keys.Nodup ∧
    keys.Pairwise (fun a b => a.toNat ≤ b.toNat) ∧
    (∀ a, a ∈ keys ↔ ∃ i ∈ ordered, i.address = a) ∧
    addressRuns ordered = keys.map fun a => ordered.filter fun i => i.address = a := by
  have hsame : ∀ a b : Item, decide (b.address = a.address) = true ↔ a.address = b.address :=
    fun a b => by rw [decide_eq_true_eq, eq_comm]
  obtain ⟨keys, hnodup, hsub, hmem, hruns⟩ := Runs.runs_eq_classes hsame h.contiguous
  have hpairwise : (ordered.map (·.address)).Pairwise fun a b => a.toNat ≤ b.toNat :=
    pairwise_map.2 h
  refine ⟨keys, hnodup, hpairwise.sublist hsub, fun a => ?_, hruns⟩
  rw [hmem, mem_map]

/-- What is known of an address. -/
def infoAt (ordered : List Item) (a : BitVec 128) : AddressInfo :=
  addressInfo (ordered.filter fun i => i.address = a)

theorem address_infoAt {a : BitVec 128} (ha : ∃ i ∈ ordered, i.address = a) :
    (infoAt ordered a).address = a := by
  obtain ⟨i, hi, rfl⟩ := ha
  exact Runs.key_headD (f := Item.address) (fun b hb => of_decide_eq_true hb) hi (by simp) _

theorem nodes_infoAt (a : BitVec 128) :
    (infoAt ordered a).nodes = ordered.countP fun i => i.address = a :=
  countP_eq_length_filter.symm

/-- The addresses, in order. -/
def infos (ordered : List Item) : List AddressInfo := (addressRuns ordered).map addressInfo

/-- The addresses are known of once each, in order, and all of them are. -/
theorem Ordered.infos_eq (h : Ordered ordered) : ∃ keys : List (BitVec 128), keys.Nodup ∧
    keys.Pairwise (fun a b => a.toNat ≤ b.toNat) ∧
    (∀ a, a ∈ keys ↔ ∃ i ∈ ordered, i.address = a) ∧ infos ordered = keys.map (infoAt ordered) ∧
    (infos ordered).map (·.address) = keys := by
  obtain ⟨keys, hnodup, hpairwise, hmem, hruns⟩ := h.addresses_eq
  have hinfos : infos ordered = keys.map (infoAt ordered) := by
    rw [infos, hruns, map_map]
    rfl
  refine ⟨keys, hnodup, hpairwise, hmem, hinfos, ?_⟩
  rw [hinfos, map_map]
  exact (map_congr_left fun a ha => address_infoAt ((hmem a).1 ha)).trans (map_id keys)

/-! ## By subnet -/

theorem isMappedV4_iff {a : BitVec 128} : CatalogEntry.isMappedV4 a ↔
    a.toNat / 2 ^ 32 = 0xffff := by
  have hlt : a.toNat / 2 ^ 32 < 2 ^ 96 := Nat.div_lt_of_lt_mul (by
    have := a.isLt
    omega)
  rw [CatalogEntry.isMappedV4, decide_eq_true_eq, ← BitVec.toNat_inj, BitVec.extractLsb'_toNat,
    Nat.shiftRight_eq_div_pow, Nat.mod_eq_of_lt hlt]
  rfl

/-- The subnet of an address: a /24 of IPv4, or a /48. -/
def subnetKey (a : BitVec 128) : Bool × ℕ :=
  (CatalogEntry.isMappedV4 a, a.toNat / 2 ^ (if CatalogEntry.isMappedV4 a then 8 else 80))

theorem samePrefix_iff {a b : BitVec 128} {n : ℕ} :
    samePrefix a b n ↔ a.toNat / 2 ^ (128 - n) = b.toNat / 2 ^ (128 - n) := by
  rw [samePrefix, beq_iff_eq, ← BitVec.toNat_inj, BitVec.toNat_ushiftRight,
    BitVec.toNat_ushiftRight, Nat.shiftRight_eq_div_pow, Nat.shiftRight_eq_div_pow]

theorem sameSubnet_iff {a b : BitVec 128} : sameSubnet a b ↔ subnetKey a = subnetKey b := by
  rw [sameSubnet, subnetKey, subnetKey, Prod.mk.injEq, Bool.and_eq_true, decide_eq_true_eq,
    samePrefix_iff]
  refine and_congr_right fun hmapped => ?_
  rw [← hmapped]
  cases CatalogEntry.isMappedV4 a <;> rfl

/-- The only address that may be contacted among those around the ones of IPv4. -/
def Contactable (a : BitVec 128) : Prop :=
  ¬CatalogEntry.isMappedV4 a → a.toNat / 2 ^ 80 = 0 → a = 1

/-- Between two addresses of a subnet there are only such of it. -/
theorem subnetKey_convex {a b c : BitVec 128} (ha : Contactable a) (hc : Contactable c)
    (hab : a.toNat ≤ b.toNat) (hbc : b.toNat ≤ c.toNat) (hac : subnetKey a = subnetKey c) :
    subnetKey b = subnetKey a := by
  obtain ⟨hmapped, hfront⟩ := Prod.mk.inj hac
  have hbetween : ∀ k, a.toNat / 2 ^ k = c.toNat / 2 ^ k → b.toNat / 2 ^ k = a.toNat / 2 ^ k :=
    fun k hk => le_antisymm ((Nat.div_le_div_right hbc).trans_eq hk.symm) (Nat.div_le_div_right hab)
  rw [← hmapped] at hfront
  by_cases h4 : CatalogEntry.isMappedV4 a = true
  · rw [if_pos h4] at hfront
    have hb := hbetween 8 hfront
    have hb4 : CatalogEntry.isMappedV4 b = true := by
      rw [isMappedV4_iff] at h4 ⊢
      omega
    rw [subnetKey, subnetKey, hb4, h4, if_pos rfl, hb]
  · rw [if_neg h4] at hfront
    have hb := hbetween 80 hfront
    have hb4 : ¬CatalogEntry.isMappedV4 b = true := fun hb4 => by
      -- Then the two would be around the addresses of IPv4, and be the same.
      rw [isMappedV4_iff] at hb4
      have ha1 := ha h4 (by omega)
      have hc1 := hc (hmapped ▸ h4) (by omega)
      subst ha1 hc1
      have hone : (1 : BitVec 128).toNat = 1 := rfl
      omega
    rw [Bool.not_eq_true] at h4 hb4
    rw [subnetKey, subnetKey, hb4, h4, if_neg Bool.false_ne_true, hb]

/-- Of the addresses around those of IPv4, only the loopback one passes the check. -/
theorem eq_one_of_usable {e : CatalogEntry} (h : e.Usable) : Contactable e.address := by
  intro h4 hzero
  obtain ⟨allowLocal, h⟩ := h
  by_contra hne
  have hsmall : e.address.toNat < 2 ^ 80 := by omega
  have hfront : ∀ (net : BitVec 128) (n : ℕ), 128 - n ≥ 80 → net.toNat / 2 ^ (128 - n) ≠ 0 →
      samePrefix e.address net n = false := fun net n hn hnet => by
    rw [← Bool.not_eq_true, samePrefix_iff,
      Nat.div_eq_of_lt (hsmall.trans_le (Nat.pow_le_pow_right (by omega) hn))]
    exact fun h => hnet h.symm
  have hext : e.address.extractLsb' 32 96 ≠ mappedPrefix := fun h => h4 (decide_eq_true h)
  have hendpoint : e.endpoint.address = normalizeAddress (.ipv6 e.address) := by
    rw [CatalogEntry.endpoint, Endpoint.of, CatalogEntry.hostAddress, CatalogEntry.addressOf,
      if_neg h4]
  have hspecified : e.address ≠ 0 := fun hnone => by
    rw [hnone, normalizeAddress_unspecified] at hendpoint
    rw [isUsableRemote, decide_eq_true_eq, addressProblem, hendpoint] at h
    cases h
  rw [normalizeAddress_ipv6 hext hspecified] at hendpoint
  have hnormal : normalizeAddress (.ipv6 e.address) = .ipv6 e.address := by
    rw [← hendpoint]
    exact Endpoint.normalizeAddress_idem _
  have hlocal : isLocalAddress (.ipv6 e.address) = false := by
    have hloopback : (HostAddress.ipv6 e.address).isLoopback = false := beq_false_of_ne hne
    have hlink : (HostAddress.ipv6 e.address).isLinkLocal = false :=
      hfront (0xfe80#16 ++ 0#112) 10 (by decide) (by decide)
    have hunique : (HostAddress.ipv6 e.address).isUniqueLocalUnicast = false :=
      hfront (0xfc00#16 ++ 0#112) 7 (by decide) (by decide)
    rw [isLocalAddress, hnormal, hloopback, hlink]
    exact hunique
  have hglobal : samePrefix e.address (0x2000#16 ++ 0#112) 3 = false :=
    hfront _ 3 (by decide) (by decide)
  rw [isUsableRemote, decide_eq_true_eq, addressProblem, hendpoint, hlocal] at h
  dsimp only at h
  rw [hglobal, if_neg Bool.false_ne_true, Bool.not_false, Bool.true_or, if_pos rfl] at h
  split_ifs at h

/-- The addresses of a subnet come one after the other, if all may be contacted. -/
theorem Ordered.mem_subnetRuns (h : Ordered ordered)
    (hcontact : ∀ i ∈ ordered, Contactable i.address) {run : List AddressInfo} :
    run ∈ subnetRuns (infos ordered) ↔ ∃ info ∈ infos ordered,
      run = (infos ordered).filter fun b => subnetKey b.address = subnetKey info.address := by
  obtain ⟨keys, -, hpairwise, hmem, -, hkeys⟩ := h.infos_eq
  rw [← hkeys, pairwise_map] at hpairwise
  have hcontact : ∀ info ∈ infos ordered, Contactable info.address := fun info hinfo => by
    obtain ⟨i, hi, heq⟩ := (hmem _).1 (hkeys ▸ mem_map_of_mem hinfo)
    exact heq ▸ hcontact i hi
  have hsame : ∀ a b : AddressInfo, sameSubnet b.address a.address = true ↔
      subnetKey a.address = subnetKey b.address := fun a b => by
    rw [sameSubnet_iff, eq_comm]
  exact Runs.mem_runs_iff hsame (Runs.contiguous_of_pairwise hpairwise
    fun a ha b _ c hc hab hbc hac => subnetKey_convex (hcontact a ha) (hcontact c hc) hab hbc hac)

/-! ## By identifier -/

theorem byId_perm : byId sorting items ~ items := (sorting Item).sort_perm _ _

/-- Items in the order of identifiers, and of addresses. -/
def OrderedById (items : List Item) : Prop := items.Pairwise fun a b =>
  toLex (a.id.value, a.address.toNat) ≤ toLex (b.id.value, b.address.toNat)

theorem orderedById_byId : OrderedById (byId sorting items) := by
  have hlt : (fun a b : Item => if a.id ≠ b.id then decide (a.id < b.id)
      else decide (a.address < b.address)) = fun a b =>
        decide (toLex (a.id.value, a.address.toNat) < toLex (b.id.value, b.address.toNat)) := by
    funext a b
    rw [Bool.eq_iff_iff, decide_eq_true_eq, Prod.Lex.toLex_lt_toLex]
    split_ifs with hne
    · rw [decide_eq_true_eq, NodeId.lt_iff_value_lt]
      exact (or_iff_left fun hv => hne (NodeId.value_inj hv.1)).symm
    · rw [decide_eq_true_eq, not_not.1 hne]
      exact ((or_iff_right (lt_irrefl _)).trans (and_iff_right rfl)).symm
  have hweak := Sorting.strictWeak_of_key fun i : Item => toLex (i.id.value, i.address.toNat)
  have hsorted := (sorting Item).sorted_sort _ items hweak
  rw [OrderedById, byId, hlt]
  exact hsorted.imp fun h => not_lt.1 (of_decide_eq_false h)

section

variable (h : OrderedById items)

include h

theorem OrderedById.value_le : items.Pairwise fun a b => a.id.value ≤ b.id.value :=
  h.imp fun hab => (Prod.Lex.toLex_le_toLex.1 hab).elim le_of_lt fun hab => hab.1.le

theorem OrderedById.contiguous : Runs.Contiguous (·.id) items :=
  Runs.contiguous_of_pairwise h.value_le fun a _ b _ c _ hab hbc hac => by
    have hac : a.id = c.id := hac
    rw [← hac] at hbc
    exact NodeId.value_inj (le_antisymm hbc hab)

/-- The nodes of an identifier come one after the other. -/
theorem OrderedById.mem_idRuns {run : List Item} :
    run ∈ idRuns items ↔ ∃ i ∈ items, run = items.filter fun b => b.id = i.id :=
  Runs.mem_runs_iff (fun a b => by rw [decide_eq_true_eq, eq_comm]) h.contiguous

/-- Each identifier is listed once, in order. -/
theorem OrderedById.distinctIds_eq :
    let ids := (idRuns items).map fun run => (run.headD default).id
    ids.Nodup ∧ ids.Pairwise (fun a b => a.value ≤ b.value) ∧
      ∀ id, id ∈ ids ↔ ∃ i ∈ items, i.id = id := by
  have hsame : ∀ a b : Item, decide (b.id = a.id) = true ↔ a.id = b.id :=
    fun a b => by rw [decide_eq_true_eq, eq_comm]
  obtain ⟨keys, hnodup, hsub, hmem, hruns⟩ := Runs.runs_eq_classes hsame h.contiguous
  have hids : ((idRuns items).map fun run => (run.headD default).id) = keys := by
    rw [idRuns, hruns, map_map]
    refine (map_congr_left fun id hid => ?_).trans (map_id keys)
    obtain ⟨i, hi, rfl⟩ := mem_map.1 ((hmem id).1 hid)
    exact Runs.key_headD (f := Item.id) (fun b hb => of_decide_eq_true hb) hi (by simp) _
  have hpairwise : (items.map (·.id)).Pairwise fun a b => a.value ≤ b.value :=
    pairwise_map.2 h.value_le
  intro ids
  rw [show ids = keys from hids]
  refine ⟨hnodup, hpairwise.sublist hsub, fun id => ?_⟩
  rw [hmem, mem_map]

/-- Of the nodes of an identifier, those at an address come one after the other. -/
theorem OrderedById.addressesOf_eq (id : NodeId) :
    (addressesOf (items.filter fun b => b.id = id)).Nodup ∧
      ∀ a, a ∈ addressesOf (items.filter fun b => b.id = id) ↔
        ∃ i ∈ items, i.id = id ∧ i.address = a := by
  have hpairwise : ((items.filter fun b => b.id = id).map (·.address)).Pairwise fun a b =>
      a.toNat ≤ b.toNat := by
    refine pairwise_map.2 ((h.sublist filter_sublist).imp_of_mem fun {a b} ha hb hab => ?_)
    have haid := of_decide_eq_true (mem_filter.1 ha).2
    have hbid := of_decide_eq_true (mem_filter.1 hb).2
    rw [haid, hbid, Prod.Lex.toLex_le_toLex] at hab
    exact (hab.resolve_left (lt_irrefl _)).2
  have hsame : ∀ a b : BitVec 128, decide (b = a) = true ↔ a = b := fun a b => by
    rw [decide_eq_true_eq, eq_comm]
  have hheads := Runs.heads_runs hsame (Runs.contiguous_of_pairwise hpairwise
      fun a _ b _ c _ hab hbc hac => by
        have hac : a = c := hac
        rw [← hac] at hbc
        exact BitVec.eq_of_toNat_eq (le_antisymm hbc hab))
  refine ⟨hheads.1, fun a => (hheads.2 a).trans ?_⟩
  simp only [mem_map, mem_filter, decide_eq_true_eq, and_assoc]

end

/-! ## By prefix -/

section

variable {ids : List NodeId} {depth : ℕ}

/-- Whether two identifiers share a prefix. -/
theorem sharePrefix_iff (hdepth : depth ≤ NodeId.Bits) (a b : NodeId) :
    decide (NodeId.commonPrefixLength b a ≥ depth) = true ↔
      a.value / 2 ^ (NodeId.Bits - depth) = b.value / 2 ^ (NodeId.Bits - depth) := by
  rw [decide_eq_true_eq, ge_iff_le, NodeId.le_commonPrefixLength_iff hdepth, eq_comm]

/-- The identifiers with a prefix come one after the other. -/
theorem mem_windowRuns (hids : ids.Pairwise fun a b => a.value ≤ b.value)
    (hdepth : depth ≤ NodeId.Bits) {run : List NodeId} :
    run ∈ windowRuns depth ids ↔ ∃ id ∈ ids, run = ids.filter fun b =>
      b.value / 2 ^ (NodeId.Bits - depth) = id.value / 2 ^ (NodeId.Bits - depth) :=
  Runs.mem_runs_iff (f := fun id : NodeId => id.value / 2 ^ (NodeId.Bits - depth))
    (sharePrefix_iff hdepth)
    (Runs.contiguous_of_pairwise hids fun _ _ _ _ _ _ hab hbc hac =>
      le_antisymm ((Nat.div_le_div_right hbc).trans_eq hac.symm) (Nat.div_le_div_right hab))

/-- The nodes behind a window are those with its prefix. -/
theorem windowItems_eq (h : OrderedById items) (hids : ids.Pairwise fun a b => a.value ≤ b.value)
    (hmem : ∀ id, id ∈ ids ↔ ∃ i ∈ items, i.id = id) (hdepth : depth ≤ NodeId.Bits) {id : NodeId}
    (hid : id ∈ ids) :
    windowItems items depth (ids.filter fun b =>
      b.value / 2 ^ (NodeId.Bits - depth) = id.value / 2 ^ (NodeId.Bits - depth)) =
      items.filter fun i =>
        i.id.value / 2 ^ (NodeId.Bits - depth) = id.value / 2 ^ (NodeId.Bits - depth) := by
  generalize hrun : (ids.filter fun b =>
    b.value / 2 ^ (NodeId.Bits - depth) = id.value / 2 ^ (NodeId.Bits - depth)) = run
  have hfirst : (run.headD default).value / 2 ^ (NodeId.Bits - depth) =
      id.value / 2 ^ (NodeId.Bits - depth) := by
    rw [← hrun]
    exact Runs.key_headD (f := fun b : NodeId => b.value / 2 ^ (NodeId.Bits - depth))
      (fun b hb => of_decide_eq_true hb) hid (by simp) _
  -- The first identifier of the window is the least with the prefix.
  have hleast : ∀ b ∈ run, (run.headD default).value ≤ b.value := by
    have hsorted : run.Pairwise fun a b => a.value ≤ b.value :=
      hrun ▸ hids.sublist filter_sublist
    cases run with
    | nil => simp
    | cons b run => exact forall_mem_cons.2 ⟨le_rfl, (pairwise_cons.1 hsorted).1⟩
  rw [windowItems]
  generalize run.headD default = first at hfirst hleast
  have hlt : (fun i : Item => decide (i.id < first)) = fun i =>
      decide (i.id.value < first.value) := by
    funext i
    rw [decide_eq_decide, NodeId.lt_iff_value_lt]
  have hshare : ∀ i : Item, decide (NodeId.commonPrefixLength i.id first ≥ depth) = true ↔
      i.id.value / 2 ^ (NodeId.Bits - depth) = id.value / 2 ^ (NodeId.Bits - depth) := fun i => by
    rw [sharePrefix_iff hdepth, hfirst, eq_comm]
  have hge := Runs.le_of_mem_dropWhile (k := first.value) (f := fun i : Item => i.id.value)
      h.value_le
  rw [hlt, Runs.takeWhile_eq_filter, Runs.filter_dropWhile]
  · exact filter_congr fun i _ => Bool.eq_iff_iff.2 ((hshare i).trans (decide_eq_true_iff).symm)
  · intro i hi hbelow hin
    rw [hshare] at hin
    have hmemRun : i.id ∈ run := by
      rw [← hrun]
      exact mem_filter.2 ⟨(hmem _).2 ⟨i, hi, rfl⟩, decide_eq_true hin⟩
    exact absurd (hleast _ hmemRun) (not_le.2 (of_decide_eq_true hbelow))
  · refine (h.value_le.sublist (dropWhile_sublist _)).imp_of_mem fun {a b} ha _ hab hb => ?_
    rw [hshare] at hb ⊢
    refine le_antisymm ((Nat.div_le_div_right hab).trans_eq hb) ?_
    rw [← hfirst]
    exact Nat.div_le_div_right (hge a ha)

end

/-! ## The nodes in both orders -/

/-- The addresses of the catalogue that are not known to be unreachable passed the check. -/
def AllUsable (c : NodeCatalog) : Prop :=
  ∀ s, c.InUse s → (c.entryAt s).state ≠ .Unroutable → (c.entryAt s).Usable

theorem usable_of_mem_answering {c : NodeCatalog} (h : AllUsable c) {e : CatalogEntry}
    (he : e ∈ answering c) : e.Usable := by
  obtain ⟨he, hstate⟩ := mem_filter.1 he
  obtain ⟨s, hs, rfl⟩ := mem_map.1 he
  refine h s (NodeCatalog.mem_slots.1 hs) fun hunroutable => ?_
  rw [hunroutable] at hstate
  exact nomatch hstate

/-- Nodes in the order of addresses, and in that of identifiers. -/
structure Arranged (E : List CatalogEntry) (ordered items : List Item) : Prop where
  inOrder : Ordered ordered
  byId : OrderedById items
  ordered_perm : ordered ~ E.map itemOf
  items_perm : items ~ E.map itemOf
  contactable : ∀ i ∈ ordered, Contactable i.address

variable (sorting) in
/-- The report arranges the nodes that answered their latest query. -/
theorem arranged {c : NodeCatalog} (h : AllUsable c) :
    Arranged (answering c) (byAddress sorting ((answering c).map itemOf))
      (byId sorting (byAddress sorting ((answering c).map itemOf))) where
  inOrder := byAddress_sorted
  byId := orderedById_byId
  ordered_perm := byAddress_perm
  items_perm := byId_perm.trans byAddress_perm
  contactable i hi := by
    obtain ⟨e, he, rfl⟩ := mem_map.1 (byAddress_perm.mem_iff.1 hi)
    exact eq_one_of_usable (usable_of_mem_answering h he)

section

variable {E : List CatalogEntry} {ordered items : List Item} (h : Arranged E ordered items)

include h

theorem Arranged.exists_ordered {p : Item → Prop} :
    (∃ i ∈ ordered, p i) ↔ ∃ e ∈ E, p (itemOf e) := by
  simp only [h.ordered_perm.mem_iff, mem_map, exists_exists_and_eq_and]

theorem Arranged.exists_items {p : Item → Prop} :
    (∃ i ∈ items, p i) ↔ ∃ e ∈ E, p (itemOf e) := by
  simp only [h.items_perm.mem_iff, mem_map, exists_exists_and_eq_and]

theorem Arranged.countP_ordered (p : Item → Bool) :
    ordered.countP p = E.countP (p ∘ itemOf) := by
  rw [h.ordered_perm.countP_eq, countP_map]

end

end Sybil

end Dht
