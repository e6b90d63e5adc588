import DhtCore.Sybil.Groups

/-!
# What signals mean

An address has a signal in the report if its nodes are of a group of the kind, whatever the
order of the nodes in the catalogue (`addressSignals_iff`). What a group is, `Meaning` says in
terms of the answering nodes alone.

An address has the signals it is marked with (`isIn_suspicion`); and what is marked are the
members of each group (`mem_addressMarks` and its like).
-/

namespace Dht

namespace SybilSignal

instance : Fintype SybilSignal where
  elems := {ManyNodes, DenseSubnet, SharedId, DenseIds, PointsToSelf, InventsPeers}
  complete s := by cases s <;> decide

/-- Adding a signal adds that one. -/
theorem isIn_or_value (x : UInt8) (s t : SybilSignal) :
    s.isIn (x ||| t.value) = (s.isIn x || s = t) := by
  have hvalue : ∀ s t : SybilSignal, t.value &&& s.value = 0 ↔ s ≠ t := by decide
  have hor : (x ||| t.value) &&& s.value = x &&& s.value ||| t.value &&& s.value :=
    UInt8.toBitVec_inj.1 BitVec.and_or_distrib_right
  rw [isIn, isIn, hor, Bool.eq_iff_iff]
  simp only [ne_eq, UInt8.or_eq_zero_iff, hvalue, decide_eq_true_eq, Bool.or_eq_true, not_and_or,
    not_not]

@[simp]
theorem isIn_zero : ∀ s : SybilSignal, s.isIn 0 = false := by decide

/-- No other bits are those of signals. -/
theorem or_value_lt {x : UInt8} (s : SybilSignal) (hx : x < 64) : x ||| s.value < 64 := by
  have hvalue : ∀ s : SybilSignal, s.value.toNat < 2 ^ 6 := by decide
  rw [UInt8.lt_iff_toNat_lt, UInt8.toNat_or]
  exact Nat.or_lt_two_pow hx (hvalue s)

/-- A set of signals is known by the signals in it. -/
theorem eq_of_isIn {x y : UInt8} (hx : x < 64) (hy : y < 64)
    (h : ∀ s : SybilSignal, s.isIn x = s.isIn y) : x = y := by
  have hsum : ∀ x : Fin 64,
      ∑ s : SybilSignal, (if s.isIn (UInt8.ofNat x) then s.value.toNat else 0) = x := by
    decide +kernel
  have hsumx := hsum ⟨x.toNat, hx⟩
  have hsumy := hsum ⟨y.toNat, hy⟩
  rw [UInt8.ofNat_toNat] at hsumx hsumy
  exact UInt8.toNat_inj.1 (hsumx.symm.trans (by simpa only [h] using hsumy))

end SybilSignal

namespace Sybil

open List

/-! ## Marks -/

/-- The signals of an address so far. -/
def Suspicion.signals (s : Suspicion) (a : BitVec 128) : UInt8 := (s.lookup a).getD 0

theorem signals_mark (s : Suspicion) (m : BitVec 128 × SybilSignal) (a : BitVec 128) :
    (s.mark m).signals a = if a = m.1 then s.signals a ||| m.2.value else s.signals a := by
  rw [Suspicion.signals, Suspicion.mark]
  split_ifs with h
  · rw [h, AList.lookup_insert]
    rfl
  · rw [AList.lookup_insert_ne h]
    rfl

/-- An address has the signals it was marked with, and those it had. -/
theorem isIn_foldl_mark (marks : List (BitVec 128 × SybilSignal)) (s : Suspicion) (a : BitVec 128)
    (signal : SybilSignal) : signal.isIn ((marks.foldl Suspicion.mark s).signals a) ↔
      signal.isIn (s.signals a) ∨ (a, signal) ∈ marks := by
  induction marks generalizing s with
  | nil => simp
  | cons m marks ih =>
    rw [foldl_cons, ih, signals_mark, mem_cons, Prod.ext_iff]
    split_ifs with h
    · rw [SybilSignal.isIn_or_value, Bool.or_eq_true, decide_eq_true_eq, or_assoc]
      simp only [h, true_and]
    · simp only [h, false_and, false_or]

theorem foldl_mark_lt (marks : List (BitVec 128 × SybilSignal)) {s : Suspicion} {a : BitVec 128}
    (hs : s.signals a < 64) : (marks.foldl Suspicion.mark s).signals a < 64 := by
  induction marks generalizing s with
  | nil => exact hs
  | cons m marks ih =>
    refine ih ?_
    rw [signals_mark]
    split_ifs
    · exact SybilSignal.or_value_lt _ hs
    · exact hs

theorem signals_empty (a : BitVec 128) : (∅ : Suspicion).signals a = 0 := rfl

/-! ## Looking up -/

section

variable {items : List (BitVec 128 × UInt8)} {a : BitVec 128}

theorem signals_at_of_mem (h : items.Pairwise fun x y => x.1.toNat < y.1.toNat) {bits : UInt8}
    (hmem : (a, bits) ∈ items) : (AddressSignals.mk items).at a = bits := by
  induction items with
  | nil => simp at hmem
  | cons x items ih =>
    rw [pairwise_cons] at h
    rw [AddressSignals.at]
    dsimp only
    rcases mem_cons.1 hmem with rfl | hmem
    · rw [dropWhile_cons_of_neg (by simp)]
      exact if_pos rfl
    · have hlt : x.1 < a := h.1 _ hmem
      rw [dropWhile_cons_of_pos (by simpa using hlt)]
      exact ih h.2 hmem

theorem signals_at_of_not_mem (hmem : ∀ bits, (a, bits) ∉ items) :
    (AddressSignals.mk items).at a = 0 := by
  rw [AddressSignals.at]
  split
  next key bits rest heq =>
    have hin : (key, bits) ∈ items := (dropWhile_sublist _).subset (heq ▸ mem_cons_self)
    refine if_neg fun h => hmem bits ?_
    rwa [← h]
  next => rfl

end

variable {sorting : (α : Type) → Sorting.Algorithm α}

/-- The signals of an address are found where they are sorted. -/
theorem at_sortSignals (s : Suspicion) (a : BitVec 128) :
    (sortSignals sorting s).at a = s.signals a := by
  have hlt : (fun x y : BitVec 128 × UInt8 => decide (x.1 < y.1) || (x.1 = y.1 && x.2 < y.2)) =
      fun x y => decide (toLex (x.1.toNat, x.2.toNat) < toLex (y.1.toNat, y.2.toNat)) := by
    funext x y
    rw [Bool.eq_iff_iff, decide_eq_true_eq, Prod.Lex.toLex_lt_toLex]
    simp only [Bool.or_eq_true, Bool.and_eq_true, decide_eq_true_eq, BitVec.lt_def,
      BitVec.toNat_inj, UInt8.lt_iff_toNat_lt]
  have hweak := Sorting.strictWeak_of_key fun x : BitVec 128 × UInt8 =>
    toLex (x.1.toNat, x.2.toNat)
  have hsorted := (sorting _).sorted_sort _ (s.entries.map fun e => (e.1, e.2)) hweak
  have hperm := (sorting (BitVec 128 × UInt8)).sort_perm
    (fun x y => decide (toLex (x.1.toNat, x.2.toNat) < toLex (y.1.toNat, y.2.toNat)))
    (s.entries.map fun e => (e.1, e.2))
  rw [sortSignals, hlt]
  generalize (sorting (BitVec 128 × UInt8)).sort _ _ = items at hsorted hperm
  -- No two items are of one address.
  have hkeys : (items.map (·.1)).Nodup := by
    rw [(hperm.map _).nodup_iff, map_map]
    exact s.nodupKeys
  have hstrict : items.Pairwise fun x y => x.1.toNat < y.1.toNat := by
    refine (hsorted.and (pairwise_map.1 hkeys)).imp fun {x y} hxy => ?_
    have hle := Prod.Lex.toLex_le_toLex.1 (not_lt.1 (of_decide_eq_false hxy.1))
    exact hle.resolve_right fun heq => hxy.2 (BitVec.eq_of_toNat_eq heq.1)
  have hmem : ∀ bits, (a, bits) ∈ items ↔ s.lookup a = some bits := fun bits => by
    rw [hperm.mem_iff, mem_map, ← Option.mem_def, AList.mem_lookup_iff]
    constructor
    · rintro ⟨e, he, heq⟩
      obtain ⟨rfl, rfl⟩ := Prod.mk.inj heq
      exact he
    · exact fun he => ⟨_, he, rfl⟩
  rw [Suspicion.signals]
  cases hlookup : s.lookup a with
  | none => exact signals_at_of_not_mem fun bits hin => by simp [(hmem bits).1 hin] at hlookup
  | some bits => exact signals_at_of_mem hstrict ((hmem bits).2 hlookup)

/-! ## What is marked -/

section

variable {ordered items : List Item} {a : BitVec 128} {signal : SybilSignal}

/-- What the nodes of a run are marked with, at its address. -/
theorem mem_addressMarks_run {run : List Item} : (a, signal) ∈ addressMarks run ↔
    a = (addressInfo run).address ∧
      ((signal = .PointsToSelf ∧ ∃ i ∈ run, pointsToSelf i) ∨
        (signal = .InventsPeers ∧ ∃ i ∈ run, i.inventsPeers) ∨
        (signal = .ManyNodes ∧ ManyNodesAt ≤ run.length)) := by
  rw [addressMarks]
  simp only [mem_append, mem_flatMap, mem_ite_nil_right, mem_singleton, Prod.mk.injEq]
  constructor
  · rintro (⟨i, hi, ⟨hp, ha, hs⟩ | ⟨hp, ha, hs⟩⟩ | ⟨hn, ha, hs⟩)
    · exact ⟨ha, .inl ⟨hs, i, hi, hp⟩⟩
    · exact ⟨ha, .inr (.inl ⟨hs, i, hi, hp⟩)⟩
    · exact ⟨ha, .inr (.inr ⟨hs, hn⟩)⟩
  · rintro ⟨ha, ⟨hs, i, hi, hp⟩ | ⟨hs, i, hi, hp⟩ | ⟨hs, hn⟩⟩
    · exact .inl ⟨i, hi, .inl ⟨hp, ha, hs⟩⟩
    · exact .inl ⟨i, hi, .inr ⟨hp, ha, hs⟩⟩
    · exact .inr ⟨hn, ha, hs⟩

/-- What the nodes at an address are marked with. -/
theorem mem_addressMarks (h : Ordered ordered) :
    (a, signal) ∈ (addressRuns ordered).flatMap addressMarks ↔
      (signal = .PointsToSelf ∧ ∃ i ∈ ordered, i.address = a ∧ pointsToSelf i) ∨
      (signal = .InventsPeers ∧ ∃ i ∈ ordered, i.address = a ∧ i.inventsPeers) ∨
      (signal = .ManyNodes ∧ ManyNodesAt ≤ ordered.countP fun i => i.address = a) := by
  obtain ⟨keys, -, -, hmem, hruns⟩ := h.addresses_eq
  have hmarks : (a, signal) ∈ (addressRuns ordered).flatMap addressMarks ↔
      a ∈ keys ∧ (a, signal) ∈ addressMarks (ordered.filter fun i => i.address = a) := by
    rw [hruns, flatMap_map, mem_flatMap]
    constructor
    · rintro ⟨k, hk, hin⟩
      have haddress : (addressInfo (ordered.filter fun i => i.address = k)).address = k :=
        address_infoAt ((hmem k).1 hk)
      obtain rfl : a = k := (mem_addressMarks_run.1 hin).1.trans haddress
      exact ⟨hk, hin⟩
    · rintro ⟨hk, hin⟩
      exact ⟨a, hk, hin⟩
  rw [hmarks, mem_addressMarks_run, countP_eq_length_filter]
  simp only [mem_filter, decide_eq_true_eq]
  constructor
  · rintro ⟨-, -, ⟨hs, i, ⟨hi, ha⟩, hp⟩ | ⟨hs, i, ⟨hi, ha⟩, hp⟩ | ⟨hs, hn⟩⟩
    · exact .inl ⟨hs, i, hi, ha, hp⟩
    · exact .inr (.inl ⟨hs, i, hi, ha, hp⟩)
    · exact .inr (.inr ⟨hs, hn⟩)
  · intro hin
    have hex : ∃ i ∈ ordered, i.address = a := by
      rcases hin with ⟨-, i, hi, ha, -⟩ | ⟨-, i, hi, ha, -⟩ | ⟨-, hn⟩
      · exact ⟨i, hi, ha⟩
      · exact ⟨i, hi, ha⟩
      · have hpos : 0 < (ordered.filter fun i => i.address = a).length :=
          lt_of_lt_of_le (by decide) hn
        obtain ⟨i, hi⟩ := exists_mem_of_length_pos hpos
        exact ⟨i, (mem_filter.1 hi).1, of_decide_eq_true (mem_filter.1 hi).2⟩
    refine ⟨(hmem a).2 hex, (address_infoAt hex).symm, ?_⟩
    rcases hin with ⟨hs, i, hi, ha, hp⟩ | ⟨hs, i, hi, ha, hp⟩ | ⟨hs, hn⟩
    · exact .inl ⟨hs, i, ⟨hi, ha⟩, hp⟩
    · exact .inr (.inl ⟨hs, i, ⟨hi, ha⟩, hp⟩)
    · exact .inr (.inr ⟨hs, hn⟩)

/-- The addresses marked for their subnet. -/
theorem mem_subnetMarks (h : Ordered ordered) (hcontact : ∀ i ∈ ordered, Contactable i.address) :
    (a, signal) ∈ (subnetRuns (infos ordered)).flatMap subnetMarks ↔
      signal = .DenseSubnet ∧ (∃ i ∈ ordered, i.address = a) ∧
        DenseSubnetAt ≤ ((ordered.map (·.address)).dedup.countP fun b =>
          subnetKey b = subnetKey a) := by
  obtain ⟨keys, hnodup, -, hmem, -, hkeys⟩ := h.infos_eq
  have hdedup : (ordered.map (·.address)).dedup ~ keys :=
    (perm_ext_iff_of_nodup (nodup_dedup _) hnodup).2 fun b => by
      rw [mem_dedup, mem_map, hmem]
  rw [hdedup.countP_eq, ← hmem]
  -- The run of an address is as long as there are addresses of its subnet.
  have hlength : ((infos ordered).filter fun b => subnetKey b.address = subnetKey a).length =
      keys.countP fun b => subnetKey b = subnetKey a := by
    rw [← hkeys, countP_map, countP_eq_length_filter]
    rfl
  rw [← hlength]
  simp only [mem_flatMap, h.mem_subnetRuns hcontact, subnetMarks, mem_ite_nil_right, mem_map,
    Prod.mk.injEq, isDenseSubnet, decide_eq_true_eq]
  constructor
  · rintro ⟨run, ⟨info, hinfo, rfl⟩, hdense, b, hb, rfl, rfl⟩
    have hb' := mem_filter.1 hb
    have hkey := of_decide_eq_true hb'.2
    refine ⟨rfl, hkeys ▸ mem_map_of_mem hb'.1, ?_⟩
    rwa [hkey]
  · rintro ⟨rfl, ha, hdense⟩
    rw [← hkeys] at ha
    obtain ⟨info, hinfo, rfl⟩ := mem_map.1 ha
    exact ⟨_, ⟨info, hinfo, rfl⟩, hdense, info, mem_filter.2 ⟨hinfo, by simp⟩, rfl, rfl⟩

/-- Of distinct elements there are two or more if there is another one. -/
theorem two_le_length_iff {α : Type} {l : List α} (h : l.Nodup) {a : α} (ha : a ∈ l) :
    2 ≤ l.length ↔ ∃ b ∈ l, b ≠ a := by
  obtain ⟨front, back, rfl⟩ := append_of_mem ha
  have hperm : front ++ a :: back ~ a :: (front ++ back) := perm_middle
  rw [hperm.nodup_iff, nodup_cons] at h
  rw [hperm.length_eq, length_cons]
  constructor
  · intro hlen
    obtain ⟨b, hb⟩ := exists_mem_of_length_pos (show 0 < (front ++ back).length by omega)
    exact ⟨b, hperm.mem_iff.2 (mem_cons_of_mem _ hb), fun heq => h.1 (heq ▸ hb)⟩
  · rintro ⟨b, hb, hne⟩
    have hpos := length_pos_of_mem ((mem_cons.1 (hperm.mem_iff.1 hb)).resolve_left hne)
    omega

/-- The addresses marked for their identifiers. -/
theorem mem_idMarks (h : OrderedById items) :
    (a, signal) ∈ (idRuns items).flatMap idMarks ↔ signal = .SharedId ∧
      ∃ i ∈ items, i.address = a ∧ ∃ j ∈ items, j.id = i.id ∧ j.address ≠ a := by
  simp only [mem_flatMap, h.mem_idRuns, idMarks, mem_ite_nil_right, mem_map, Prod.mk.injEq,
    isSharedId, decide_eq_true_eq, ge_iff_le]
  constructor
  · rintro ⟨run, ⟨k, hk, rfl⟩, hshared, i, hi, rfl, rfl⟩
    obtain ⟨hi, hid⟩ := mem_filter.1 hi
    have hid := of_decide_eq_true hid
    obtain ⟨hnodup, hmem⟩ := h.addressesOf_eq k.id
    obtain ⟨b, hb, hne⟩ := (two_le_length_iff hnodup ((hmem i.address).2 ⟨i, hi, hid, rfl⟩)).1
      hshared
    obtain ⟨j, hj, hjid, rfl⟩ := (hmem b).1 hb
    exact ⟨rfl, i, hi, rfl, j, hj, hjid.trans hid.symm, hne⟩
  · rintro ⟨rfl, i, hi, rfl, j, hj, hid, hne⟩
    obtain ⟨hnodup, hmem⟩ := h.addressesOf_eq i.id
    refine ⟨_, ⟨i, hi, rfl⟩, ?_, i, mem_filter.2 ⟨hi, by simp⟩, rfl, rfl⟩
    exact (two_le_length_iff hnodup ((hmem i.address).2 ⟨i, hi, rfl, rfl⟩)).2
      ⟨j.address, (hmem _).2 ⟨j, hj, hid, rfl⟩, hne⟩

theorem mem_depths {n depth : ℕ} : depth ∈ depths n ↔ 16 ≤ n ∧
    depth ∈ [Nat.log2 n, Nat.log2 n + 4, Nat.log2 n + 8, Nat.log2 n + 12] ∧
      depth ≤ NodeId.Bits := by
  rw [depths]
  split_ifs with hn
  · have hdeeper : [Nat.log2 n, Nat.log2 n + 4, Nat.log2 n + 8, Nat.log2 n + 12].Pairwise
        fun a b => decide (b ≤ NodeId.Bits) → decide (a ≤ NodeId.Bits) := by
      simp only [decide_eq_true_eq, pairwise_cons, mem_cons, not_mem_nil, or_false, Pairwise.nil,
        and_true, forall_eq_or_imp, forall_eq, IsEmpty.forall_iff, implies_true]
      omega
    dsimp only
    rw [Runs.takeWhile_eq_filter hdeeper, mem_filter, decide_eq_true_eq]
    exact (and_iff_right hn).symm
  · exact iff_of_false not_mem_nil fun h => hn h.1

/-- The addresses marked for being behind a dense window. -/
theorem mem_windowMarks (h : OrderedById items) (poissonTail : ℚ → ℕ → ℚ) {ids : List NodeId}
    (hids : ids.Pairwise fun a b => a.value ≤ b.value)
    (hmem : ∀ id, id ∈ ids ↔ ∃ i ∈ items, i.id = id) :
    (a, signal) ∈ (denseRuns poissonTail ids).flatMap (windowMarks items) ↔ signal = .DenseIds ∧
      ∃ i ∈ items, i.address = a ∧ ∃ depth ∈ depths ids.length,
        let count := ids.countP fun id => depth ≤ NodeId.commonPrefixLength id i.id
        3 ≤ count ∧ windowChance poissonTail ids.length depth count < DenseWindowChance := by
  -- A run is what shares the first bits with an identifier.
  have hcount : ∀ {depth : ℕ}, depth ≤ NodeId.Bits → ∀ id : NodeId, (ids.filter fun b =>
      b.value / 2 ^ (NodeId.Bits - depth) = id.value / 2 ^ (NodeId.Bits - depth)).length =
        ids.countP fun b => depth ≤ NodeId.commonPrefixLength b id := fun hdepth id => by
    rw [countP_eq_length_filter]
    simp only [NodeId.le_commonPrefixLength_iff hdepth]
  have hitem : ∀ {depth : ℕ} {id : NodeId}, depth ≤ NodeId.Bits → id ∈ ids →
      ((a, signal) ∈ windowMarks items (depth, ids.filter fun b =>
        b.value / 2 ^ (NodeId.Bits - depth) = id.value / 2 ^ (NodeId.Bits - depth)) ↔
      signal = .DenseIds ∧ ∃ i ∈ items, i.address = a ∧
        i.id.value / 2 ^ (NodeId.Bits - depth) = id.value / 2 ^ (NodeId.Bits - depth)) := by
    intro depth id hdepth hid
    rw [windowMarks, windowItems_eq h hids hmem hdepth hid]
    simp only [mem_map, mem_filter, decide_eq_true_eq, Prod.mk.injEq]
    constructor
    · rintro ⟨i, ⟨hi, hkey⟩, ha, hs⟩
      exact ⟨hs.symm, i, hi, ha, hkey⟩
    · rintro ⟨hs, i, hi, ha, hkey⟩
      exact ⟨i, ⟨hi, hkey⟩, ha, hs.symm⟩
  rw [mem_flatMap]
  constructor
  · rintro ⟨⟨depth, run⟩, hdense, hin⟩
    rw [denseRuns, mem_flatMap] at hdense
    obtain ⟨depth', hdepth', hrun⟩ := hdense
    obtain ⟨run', hrun', heq⟩ := mem_map.1 hrun
    obtain ⟨rfl, rfl⟩ := Prod.mk.inj heq
    obtain ⟨hrun', hdense⟩ := mem_filter.1 hrun'
    have hdepth := (mem_depths.1 hdepth').2.2
    obtain ⟨id, hid, rfl⟩ := (mem_windowRuns hids hdepth).1 hrun'
    obtain ⟨hs, i, hi, ha, hkey⟩ := (hitem hdepth hid).1 hin
    rw [isDenseWindow, Bool.and_eq_true, decide_eq_true_eq, decide_eq_true_eq, ← hkey,
      hcount hdepth i.id] at hdense
    exact ⟨hs, i, hi, ha, depth', hdepth', hdense⟩
  · rintro ⟨hs, i, hi, ha, depth, hdepth', hdense⟩
    have hdepth := (mem_depths.1 hdepth').2.2
    have hid : i.id ∈ ids := (hmem _).2 ⟨i, hi, rfl⟩
    refine ⟨(depth, ids.filter fun b => b.value / 2 ^ (NodeId.Bits - depth) =
      i.id.value / 2 ^ (NodeId.Bits - depth)), ?_, (hitem hdepth hid).2 ⟨hs, i, hi, ha, rfl⟩⟩
    rw [denseRuns, mem_flatMap]
    refine ⟨depth, hdepth', mem_map_of_mem (mem_filter.2
      ⟨(mem_windowRuns hids hdepth).2 ⟨i.id, hid, rfl⟩, ?_⟩)⟩
    rw [isDenseWindow, Bool.and_eq_true, decide_eq_true_eq, decide_eq_true_eq, hcount hdepth i.id]
    exact hdense

end

/-! ## What the report says -/

/-- Whether two addresses are in a subnet: in a /24 of IPv4, or in a /48 of IPv6. -/
def inSubnet (a b : BitVec 128) : Bool :=
  match CatalogEntry.addressOf a, CatalogEntry.addressOf b with
  | .ipv4 x, .ipv4 y => x >>> 8 == y >>> 8
  | .ipv6 x, .ipv6 y => x >>> 80 == y >>> 80
  | _, _ => false

/-- What it means that an address has a signal, the answering nodes being `E`. -/
def Meaning (poissonTail : ℚ → ℕ → ℚ) (E : List CatalogEntry) (a : BitVec 128) :
    SybilSignal → Prop
  | .ManyNodes => 5 ≤ E.countP fun e => e.address = a
  | .DenseSubnet => (∃ e ∈ E, e.address = a) ∧
      8 ≤ (E.map (·.address)).dedup.countP (inSubnet a)
  | .SharedId => ∃ e ∈ E, e.address = a ∧ ∃ e' ∈ E, e'.id = e.id ∧ e'.address ≠ a
  | .PointsToSelf => ∃ e ∈ E, e.address = a ∧ e.selfListShare ≠ CatalogEntry.NoShare ∧
      50 ≤ e.selfListShare
  | .InventsPeers => ∃ e ∈ E, e.address = a ∧ e.has .InventsPeers
  | .DenseIds =>
      let ids := (E.map (·.id)).dedup
      let base := Nat.log2 ids.length
      16 ≤ ids.length ∧ ∃ e ∈ E, e.address = a ∧
        ∃ depth ∈ [base, base + 4, base + 8, base + 12], depth ≤ 160 ∧
          let count := ids.countP fun id => depth ≤ NodeId.commonPrefixLength id e.id
          3 ≤ count ∧
            min 1 (poissonTail (ids.length / 2 ^ depth) count * 2 ^ depth) < 1 / 1000

theorem inSubnet_iff {a b : BitVec 128} : inSubnet a b ↔ subnetKey b = subnetKey a := by
  rw [inSubnet, CatalogEntry.addressOf, CatalogEntry.addressOf, subnetKey, subnetKey,
    Prod.mk.injEq]
  by_cases ha : CatalogEntry.isMappedV4 a = true <;> by_cases hb : CatalogEntry.isMappedV4 b = true
  · rw [if_pos ha, if_pos hb, ha, hb]
    rw [isMappedV4_iff] at ha hb
    simp only [beq_iff_eq, ← BitVec.toNat_inj, BitVec.toNat_ushiftRight, BitVec.extractLsb'_toNat,
      Nat.shiftRight_eq_div_pow, true_and, if_true]
    omega
  · rw [if_pos ha, if_neg hb]
    simp [ha, hb]
  · rw [if_neg ha, if_pos hb]
    simp [ha, hb]
  · rw [if_neg ha, if_neg hb]
    rw [Bool.not_eq_true] at ha hb
    simp only [ha, hb, beq_iff_eq, ← BitVec.toNat_inj, BitVec.toNat_ushiftRight,
      Nat.shiftRight_eq_div_pow, true_and, Bool.false_eq_true, if_false]
    exact eq_comm

section

variable (addressText : HostAddress → String) (poissonTail : ℚ → ℕ → ℚ) (c : NodeCatalog)

/-- All that is marked, in the report on a catalogue with answering nodes. -/
theorem isIn_signals (h : AllUsable c) (hne : answering c ≠ []) (a : BitVec 128)
    (signal : SybilSignal) :
    signal.isIn ((computeSybilReport sorting addressText poissonTail c).addressSignals.at a) ↔
      Meaning poissonTail (answering c) a signal := by
  have hitems : ((answering c).map itemOf).isEmpty = false := by
    rw [Bool.eq_false_iff]
    exact fun he => hne (map_eq_nil_iff.1 (isEmpty_iff.1 he))
  rw [computeSybilReport]
  dsimp only
  rw [hitems, if_neg Bool.false_ne_true, at_sortSignals, isIn_foldl_mark, signals_empty,
    SybilSignal.isIn_zero]
  obtain hview := arranged sorting h
  generalize byAddress sorting ((answering c).map itemOf) = ordered at hview
  generalize byId sorting ordered = items at hview
  obtain ⟨hnodup, hids, hmem⟩ := hview.byId.distinctIds_eq
  have haddresses : (ordered.map (·.address)).dedup ~ ((answering c).map (·.address)).dedup := by
    have hmap := (hview.ordered_perm.map (·.address)).dedup
    rwa [map_map] at hmap
  have hidsPerm : ((idRuns items).map fun run => (run.headD default).id) ~
      ((answering c).map (·.id)).dedup := (perm_ext_iff_of_nodup hnodup (nodup_dedup _)).2
    fun id => by
      rw [hmem, hview.exists_items, mem_dedup, mem_map]
      rfl
  rw [show (addressRuns ordered).map addressInfo = infos ordered from rfl, mem_append, mem_append,
    mem_append, mem_addressMarks hview.inOrder,
    mem_subnetMarks hview.inOrder hview.contactable, mem_idMarks hview.byId,
    mem_windowMarks hview.byId poissonTail hids hmem, haddresses.countP_eq, hidsPerm.length_eq]
  simp only [hview.exists_ordered, hview.exists_items, hview.countP_ordered, hidsPerm.countP_eq,
    Bool.false_eq_true, false_or]
  cases signal with
  | ManyNodes => simp only [reduceCtorEq, false_and, or_false, false_or, true_and]; rfl
  | DenseSubnet =>
    simp only [reduceCtorEq, false_and, or_false, false_or, true_and, Meaning]
    refine and_congr_right' ?_
    rw [countP_congr fun b _ => decide_eq_true_iff.trans inSubnet_iff.symm]
    rfl
  | SharedId => simp only [reduceCtorEq, false_and, or_false, false_or, true_and]; rfl
  | PointsToSelf =>
    simp only [reduceCtorEq, false_and, or_false, true_and, Meaning, pointsToSelf,
      Bool.and_eq_true, decide_eq_true_eq]
    rfl
  | InventsPeers => simp only [reduceCtorEq, false_and, or_false, false_or, true_and]; rfl
  | DenseIds =>
    simp only [reduceCtorEq, false_and, false_or, true_and, Meaning, mem_depths]
    constructor
    · rintro ⟨e, he, ha, depth, ⟨hn, hdepth, hbits⟩, hdense⟩
      exact ⟨hn, e, he, ha, depth, hdepth, hbits, hdense⟩
    · rintro ⟨hn, e, he, ha, depth, hdepth, hbits, hdense⟩
      exact ⟨e, he, ha, depth, ⟨hn, hdepth, hbits⟩, hdense⟩

/-- No node answers, and no address has a signal. -/
theorem not_meaning_nil (a : BitVec 128) (signal : SybilSignal) :
    ¬Meaning poissonTail [] a signal := by
  cases signal <;> simp [Meaning]

/-- The signals are among those there are. -/
theorem signals_lt (a : BitVec 128) :
    (computeSybilReport sorting addressText poissonTail c).addressSignals.at a < 64 := by
  rw [computeSybilReport]
  dsimp only
  split_ifs
  · exact show (0 : UInt8) < 64 by decide
  · rw [at_sortSignals]
    exact foldl_mark_lt _ (show (0 : UInt8) < 64 by decide)

variable {addressText poissonTail c}

/-- The entries and no more decide who answers. -/
theorem answering_perm {c' : NodeCatalog}
    (h : c'.slots.map c'.entryAt ~ c.slots.map c.entryAt) : answering c' ~ answering c :=
  h.filter _

theorem AllUsable.perm {c' : NodeCatalog} (h : AllUsable c)
    (hperm : c'.slots.map c'.entryAt ~ c.slots.map c.entryAt) : AllUsable c' := by
  intro s hs hstate
  have hmem : c'.entryAt s ∈ c'.slots.map c'.entryAt :=
    mem_map_of_mem (NodeCatalog.mem_slots.2 hs)
  obtain ⟨t, ht, heq⟩ := mem_map.1 (hperm.mem_iff.1 hmem)
  rw [← heq] at hstate ⊢
  exact h t (NodeCatalog.mem_slots.1 ht) hstate

/-- A meaning does not depend on the order of the nodes. -/
theorem Meaning.perm {E E' : List CatalogEntry} (h : E' ~ E) {a : BitVec 128}
    {signal : SybilSignal} : Meaning poissonTail E' a signal ↔ Meaning poissonTail E a signal := by
  have haddresses := (h.map (·.address)).dedup
  have hids := (h.map (·.id)).dedup
  cases signal <;>
    simp only [Meaning, h.mem_iff, h.countP_eq, haddresses.countP_eq, hids.countP_eq,
      hids.length_eq]

/-- The report has the signals of an address by their meaning. -/
theorem isIn_addressSignals (h : AllUsable c) (a : BitVec 128) (signal : SybilSignal) :
    signal.isIn ((computeSybilReport sorting addressText poissonTail c).addressSignals.at a) ↔
      Meaning poissonTail (answering c) a signal := by
  by_cases hne : answering c = []
  · rw [computeSybilReport, hne]
    exact iff_of_false (by simp [AddressSignals.at]) (not_meaning_nil poissonTail a signal)
  · exact isIn_signals addressText poissonTail c h hne a signal

variable (sorting addressText poissonTail c)

/-- The signals of an address mean what they say, in whatever order the entries are. -/
theorem addressSignals_iff (h : AllUsable c) :
    let signals (c : NodeCatalog) :=
      (computeSybilReport sorting addressText poissonTail c).addressSignals
    (∀ a signal, signal.isIn ((signals c).at a) ↔ Meaning poissonTail (answering c) a signal) ∧
      ∀ c' : NodeCatalog, c'.slots.map c'.entryAt ~ c.slots.map c.entryAt →
        ∀ a, (signals c').at a = (signals c).at a := by
  refine ⟨isIn_addressSignals h, fun c' hperm a => ?_⟩
  refine SybilSignal.eq_of_isIn (signals_lt _ _ _ a) (signals_lt _ _ _ a) fun signal => ?_
  rw [Bool.eq_iff_iff, isIn_addressSignals h, isIn_addressSignals (h.perm hperm)]
  exact Meaning.perm (answering_perm hperm)

end

/-- One identifier answers at two addresses. -/
theorem addressSignals_iff_shared :
    let hash : CatalogKey → ℕ := fun key => key.port.toNat
    let first : Endpoint := ⟨.ipv4 (HostAddress.dotted 8 8 8 8), 6881⟩
    let second : Endpoint := ⟨.ipv4 (HostAddress.dotted 9 9 9 9), 6881⟩
    ∃ c, [.upsert id first 0, .upsert id second 0, .setState 0 .Responsive,
        .setState 1 .Responsive].foldlM (NodeCatalog.apply hash) (NodeCatalog.new 10 0) = some c ∧
      SybilSignal.SharedId.isIn ((computeSybilReport Sorting.mergeSort (fun _ => "")
        (fun _ _ => 1) c).addressSignals.at first.catalogKey.address) := by
  intro hash first second
  have hfacts : ∃ c ∈ [.upsert id first 0, .upsert id second 0, .setState 0 .Responsive,
        .setState 1 .Responsive].foldlM (NodeCatalog.apply hash) (NodeCatalog.new 10 0),
      (∀ s ∈ c.slots, isUsableRemote (c.entryAt s).endpoint false) ∧
        ∃ e ∈ answering c, e.address = first.catalogKey.address ∧
          ∃ e' ∈ answering c, e'.id = e.id ∧ e'.address ≠ first.catalogKey.address := by
    decide +kernel
  obtain ⟨c, hc, husable, hshared⟩ := hfacts
  have hall : AllUsable c := fun s hs _ => ⟨false, husable s (NodeCatalog.mem_slots.2 hs)⟩
  exact ⟨c, hc, ((addressSignals_iff Sorting.mergeSort (fun _ => "") (fun _ _ => 1) c hall).1 _
    .SharedId).2 hshared⟩

end Sybil

end Dht
