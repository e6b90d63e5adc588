import DhtCore.Krpc

/-!
# Compact node lists

Compact node lists are entries of a fixed length, one after the other, for each family of its
own. What was encoded is decoded as it was, the nodes of the other family left out, and what is
decoded is encoded as it came, up to what no node is of (`roundTrip_nodes`).
-/

namespace Dht

open HostAddress

namespace Endpoint

/-- Bytes are those of the number that they are read as. -/
theorem bytesOf_bigEndian {n : ℕ} {bytes : Bytes} (h : bytes.length = n) :
    bytesOf n (NodeId.bigEndian bytes) = bytes := by
  refine NodeId.bigEndian_inj (by rw [length_bytesOf, h]) ?_
  rw [bigEndian_bytesOf, ← h, Nat.mod_eq_of_lt (NodeId.bigEndian_lt bytes)]

theorem bigEndian_append (xs ys : Bytes) :
    NodeId.bigEndian (xs ++ ys) =
      NodeId.bigEndian xs * 256 ^ ys.length + NodeId.bigEndian ys := by
  induction xs with
  | nil => simp [NodeId.bigEndian]
  | cons x xs ih =>
    rw [List.cons_append, NodeId.bigEndian, NodeId.bigEndian, ih, List.length_append, pow_add]
    ring

/-- Whether the sixteen bytes of an address are of an IPv4-mapped one, `::ffff:0:0/96`. -/
def IsMapped (bytes : Bytes) : Prop := bytes.take 12 = List.replicate 10 0 ++ [0xff, 0xff]

instance (bytes : Bytes) : Decidable (IsMapped bytes) := inferInstanceAs (Decidable (_ = _))

theorem extract_eq_mappedPrefix {bytes : Bytes} (h : bytes.length = 16) :
    (BitVec.ofNat 128 (NodeId.bigEndian bytes)).extractLsb' 32 96 = mappedPrefix ↔
      IsMapped bytes := by
  have hfront : (bytes.take 12).length = 12 := List.length_take_of_le (by omega)
  have hback : (bytes.drop 12).length = 4 := by rw [List.length_drop, h]
  have hlt := NodeId.bigEndian_lt (bytes.take 12)
  have hlt' := NodeId.bigEndian_lt (bytes.drop 12)
  rw [hfront] at hlt
  rw [hback] at hlt'
  have hvalue := bigEndian_append (bytes.take 12) (bytes.drop 12)
  rw [List.take_append_drop, hback] at hvalue
  have hones : NodeId.bigEndian (List.replicate 10 0 ++ [0xff, 0xff]) = 0xffff := by decide
  have hnat : ((BitVec.ofNat 128 (NodeId.bigEndian bytes)).extractLsb' 32 96).toNat =
      NodeId.bigEndian (bytes.take 12) := by
    rw [BitVec.extractLsb'_toNat, BitVec.toNat_ofNat, hvalue, Nat.shiftRight_eq_div_pow]
    omega
  rw [← BitVec.toNat_inj, hnat, IsMapped]
  constructor
  · intro heq
    exact NodeId.bigEndian_inj (by rw [hfront]; rfl) (heq.trans hones.symm)
  · intro heq
    rw [heq, hones]
    rfl

/-- Whether the sixteen bytes of an address stand for one of IPv4: a mapped one, or `::`. -/
def StandsForIPv4 (bytes : Bytes) : Prop :=
  IsMapped bytes ∨ bytes.take 16 = List.replicate 16 0

instance (bytes : Bytes) : Decidable (StandsForIPv4 bytes) := inferInstanceAs (Decidable (_ ∨ _))

theorem ofNat_bigEndian_eq_zero {bytes : Bytes} (h : bytes.length = 16) :
    BitVec.ofNat 128 (NodeId.bigEndian bytes) = 0 ↔ bytes = List.replicate 16 0 := by
  have hlt := NodeId.bigEndian_lt bytes
  rw [h, show 256 ^ 16 = 2 ^ 128 from rfl] at hlt
  have hzero : NodeId.bigEndian (List.replicate 16 0) = 0 := by decide
  rw [← BitVec.toNat_inj, BitVec.toNat_ofNat, Nat.mod_eq_of_lt hlt]
  constructor
  · intro heq
    exact NodeId.bigEndian_inj (by rw [h]; rfl) (heq.trans hzero.symm)
  · intro heq
    rw [heq, hzero]
    rfl

end Endpoint

namespace Krpc

open NodeId Endpoint

/-! ## Pieces of a length -/

section Pieces

variable {α : Type*} {width n : ℕ}

/-- The first `n` pieces of a width. -/
def pieces (width : ℕ) : ℕ → List α → List (List α)
  | 0, _ => []
  | n + 1, l => l.take width :: pieces width n (l.drop width)

theorem pieces_flatten {ls : List (List α)} (h : ∀ l ∈ ls, l.length = width) :
    pieces width ls.length ls.flatten = ls := by
  induction ls with
  | nil => rfl
  | cons l ls ih =>
    have hl := h l List.mem_cons_self
    rw [List.length_cons, List.flatten_cons, pieces, List.take_left' hl, List.drop_left' hl,
      ih fun l hl => h l (List.mem_cons_of_mem _ hl)]

theorem length_flatten_of_mem {ls : List (List α)} (h : ∀ l ∈ ls, l.length = width) :
    ls.flatten.length = ls.length * width := by
  induction ls with
  | nil => simp
  | cons l ls ih =>
    rw [List.flatten_cons, List.length_append, h l List.mem_cons_self,
      ih fun l hl => h l (List.mem_cons_of_mem _ hl), List.length_cons, Nat.succ_mul, Nat.add_comm]

theorem flatten_pieces (l : List α) : (pieces width n l).flatten = l.take (n * width) := by
  induction n generalizing l with
  | zero => simp [pieces]
  | succ n ih => rw [pieces, List.flatten_cons, ih, Nat.succ_mul, Nat.add_comm, List.take_add]

theorem length_of_mem_pieces {l piece : List α} (hn : n * width ≤ l.length)
    (h : piece ∈ pieces width n l) : piece.length = width := by
  induction n generalizing l with
  | zero => simp [pieces] at h
  | succ n ih =>
    rw [Nat.succ_mul] at hn
    rcases List.mem_cons.1 h with rfl | h
    · exact List.length_take_of_le (by omega)
    · exact ih (by rw [List.length_drop]; omega) h

end Pieces

/-! ## Entries -/

/-- The node of an entry. -/
def decodeEntry (e : Bytes) : Option CompactNode :=
  match NodeId.fromBytes (e.take NodeId.Size), Endpoint.fromCompact (e.drop NodeId.Size) with
  | some id, some endpoint => some ⟨id, endpoint⟩
  | _, _ => none

theorem decodeEntries_eq {entry : ℕ} (hentry : NodeId.Size ≤ entry) (left : ℕ) (data : Bytes) :
    decodeEntries entry left data = (pieces entry left data).filterMap decodeEntry := by
  induction left generalizing data with
  | zero => rfl
  | succ left ih =>
    rw [decodeEntries, pieces, List.filterMap_cons, decodeEntry, List.take_take,
      min_eq_left hentry, ih]
    cases NodeId.fromBytes (data.take NodeId.Size) with
    | none => rfl
    | some id => cases Endpoint.fromCompact ((data.take entry).drop NodeId.Size) <;> rfl

/-- Compact peer info of as many bytes as endpoints of a family have is read, and it is of the
    endpoint unless that is of the other family, which its address stands for. -/
theorem fromCompact_of_length {f : Family} (bytes : Bytes)
    (h : NodeId.Size + bytes.length = nodeEntryLength f) :
    ∃ e : Endpoint, Endpoint.fromCompact bytes = some e ∧
      (e.family = f ↔ ¬(f = .IPv6 ∧ StandsForIPv4 bytes)) ∧
      (e.family = f → e.toCompact = bytes) := by
  -- The bytes of the address and of the port are those that were read.
  have hbytes : ∀ {n : ℕ}, n + 2 = bytes.length → ∀ w, w = 8 * n →
      bytesOf n (BitVec.ofNat w (NodeId.bigEndian (bytes.take n))).toNat ++
        bytesOf 2 (UInt16.ofNat (NodeId.bigEndian (bytes.drop n))).toNat = bytes := by
    rintro n hn w rfl
    have hfront : (bytes.take n).length = n := List.length_take_of_le (by omega)
    have hback : (bytes.drop n).length = 2 := by rw [List.length_drop]; omega
    have hlt := NodeId.bigEndian_lt (bytes.take n)
    have hlt' := NodeId.bigEndian_lt (bytes.drop n)
    rw [hfront, show 256 = 2 ^ 8 from rfl, ← pow_mul] at hlt
    rw [hback, show 256 ^ 2 = 2 ^ 16 from rfl] at hlt'
    rw [BitVec.toNat_ofNat, Nat.mod_eq_of_lt hlt, UInt16.toNat_ofNat', Nat.mod_eq_of_lt hlt',
      bytesOf_bigEndian hfront, bytesOf_bigEndian hback, List.take_append_drop]
  cases f with
  | IPv4 =>
    have hlen : bytes.length = 6 := by rw [nodeEntryLength, NodeId.Size] at h; omega
    refine ⟨_, if_pos hlen, by simp [Endpoint.family, familyOf, Endpoint.of, normalizeAddress],
      fun _ => hbytes (n := 4) (by omega) 32 rfl⟩
  | IPv6 =>
    have hlen : bytes.length = 18 := by rw [nodeEntryLength, NodeId.Size] at h; omega
    have hfront : (bytes.take 16).length = 16 := List.length_take_of_le (by omega)
    have hmapped := extract_eq_mappedPrefix hfront
    have hzero := ofNat_bigEndian_eq_zero hfront
    have htake : bytes.take 12 = (bytes.take 16).take 12 := by rw [List.take_take]; rfl
    have hstands : StandsForIPv4 bytes ↔
        IsMapped (bytes.take 16) ∨ bytes.take 16 = List.replicate 16 0 := by
      rw [StandsForIPv4, IsMapped, IsMapped, htake]
    refine ⟨_, (if_neg (by omega)).trans (if_pos hlen), ?_⟩
    rw [hstands, Endpoint.family, familyOf, Endpoint.of, normalizeAddress_idem, ← hmapped, ← hzero]
    -- An address becomes one of IPv4 if it is mapped, and if it is `::`.
    by_cases hm : (BitVec.ofNat 128 (bigEndian (bytes.take 16))).extractLsb' 32 96 = mappedPrefix
    · rw [normalizeAddress_mapped hm]
      simp [hm]
    · by_cases hz : BitVec.ofNat 128 (bigEndian (bytes.take 16)) = 0
      · rw [hz, normalizeAddress_unspecified]
        simp
      · rw [normalizeAddress_ipv6 hm hz]
        refine ⟨iff_of_true rfl ?_, fun _ => hbytes (n := 16) (by omega) 128 rfl⟩
        rintro ⟨-, hstands⟩
        exact hstands.elim hm hz

theorem size_le_nodeEntryLength (f : Family) : NodeId.Size ≤ nodeEntryLength f := by
  cases f <;> decide

theorem decodeNodes_nodes (data : Bytes) (f : Family) :
    (decodeNodes data f).nodes =
      (pieces (nodeEntryLength f) (data.length / nodeEntryLength f) data).filterMap decodeEntry :=
  decodeEntries_eq (size_le_nodeEntryLength f) ..

/-- What endpoints with an address are made of. -/
theorem length_toCompact {address : HostAddress} {port : UInt16}
    (hvalid : (Endpoint.of address port).isValid) :
    NodeId.Size + (Endpoint.of address port).toCompact.length =
      nodeEntryLength (Endpoint.of address port).family := by
  rw [Endpoint.family, familyOf, Endpoint.of, normalizeAddress_idem, toCompact]
  cases h : normalizeAddress address with
  | null => simp [Endpoint.of, Endpoint.isValid, h] at hvalid
  | ipv4 a => simp [nodeEntryLength, NodeId.Size]
  | ipv6 a => simp [nodeEntryLength, NodeId.Size]

/-- The entry of a node. -/
def encodeEntry (node : CompactNode) : Bytes := node.id.toBytes ++ node.endpoint.toCompact

theorem encodeNodes_eq (nodes : List CompactNode) (f : Family) :
    encodeNodes nodes f = ((nodes.filter fun n => n.endpoint.family = f).map
      encodeEntry).flatten := by
  induction nodes with
  | nil => rfl
  | cons n nodes ih =>
    rw [encodeNodes, List.flatMap_cons, ← encodeNodes, ih]
    by_cases h : n.endpoint.family = f
    · simp [h, encodeEntry]
    · simp [h]

/-- Nodes with endpoints are read as they were written. -/
theorem decodeEntry_encodeEntry {id : NodeId} {address : HostAddress} {port : UInt16}
    (hvalid : (Endpoint.of address port).isValid) :
    decodeEntry (encodeEntry ⟨id, .of address port⟩) = some ⟨id, .of address port⟩ := by
  have hnull : (Endpoint.of address port).address ≠ .null := by
    intro h
    simp [Endpoint.isValid, h] at hvalid
  have hid : id.toBytes.length = NodeId.Size := id.size_eq
  rw [decodeEntry, encodeEntry, List.take_left' hid, List.drop_left' hid, fromBytes_toBytes,
    fromCompact_toCompact hnull (normalizeAddress_idem address)]

/-- An entry that is read as a node of its list's family is that of the node. -/
theorem decodeEntry_of_length {f : Family} {e : Bytes} (h : e.length = nodeEntryLength f) :
    ∃ n, decodeEntry e = some n ∧
      (n.endpoint.family = f ↔ ¬(f = .IPv6 ∧ StandsForIPv4 (e.drop NodeId.Size))) ∧
      (n.endpoint.family = f → encodeEntry n = e) := by
  have hsize := size_le_nodeEntryLength f
  have hid : (e.take NodeId.Size).length = NodeId.Size := List.length_take_of_le (h ▸ hsize)
  obtain ⟨endpoint, hread, hfamily, hcompact⟩ :=
    fromCompact_of_length (f := f) (e.drop NodeId.Size) (by rw [List.length_drop]; omega)
  refine ⟨⟨⟨e.take NodeId.Size, hid⟩, endpoint⟩, ?_, hfamily, fun hf => ?_⟩
  · rw [decodeEntry, NodeId.fromBytes, dif_pos hid, hread]
  · rw [encodeEntry, NodeId.toBytes, hcompact hf, List.take_append_drop]

/-- Of entries that are read, those of the family of their list are left. -/
theorem filter_decodeEntry {f : Family} {entries : List Bytes}
    (h : ∀ e ∈ entries, e.length = nodeEntryLength f) :
    ((entries.filterMap decodeEntry).filter fun n => n.endpoint.family = f).map encodeEntry =
      entries.filter fun e => ¬(f = .IPv6 ∧ StandsForIPv4 (e.drop NodeId.Size)) := by
  induction entries with
  | nil => rfl
  | cons e entries ih =>
    have ih := ih fun e he => h e (List.mem_cons_of_mem _ he)
    obtain ⟨n, hread, hfamily, hencode⟩ := decodeEntry_of_length (h e List.mem_cons_self)
    rw [List.filterMap_cons_some hread, List.filter_cons, List.filter_cons, ← ih]
    by_cases hf : n.endpoint.family = f
    · rw [if_pos (decide_eq_true hf), if_pos (decide_eq_true (hfamily.1 hf)), List.map_cons,
        hencode hf]
    · rw [if_neg (by simpa using hf), if_neg (by simpa using mt hfamily.2 hf)]

/-- Compact node lists: what is encoded of nodes with endpoints is decoded as those of the
    family, in order and with nothing left over; and what is decoded of any bytes is encoded as
    their whole entries, without those of IPv6 whose address stands for one of IPv4, bytes being
    left over only if the list is malformed. -/
theorem roundTrip_nodes (f : Family) :
    (∀ nodes : List CompactNode,
      (∀ n ∈ nodes, n.endpoint.isValid ∧ ∃ address port, n.endpoint = .of address port) →
      decodeNodes (encodeNodes nodes f) f = ⟨nodes.filter fun n => n.endpoint.family = f, false⟩) ∧
    ∀ data : Bytes, ∃ (entries : List Bytes) (rest : Bytes),
      data = entries.flatten ++ rest ∧
      (∀ e ∈ entries, e.length = nodeEntryLength f) ∧
      rest.length < nodeEntryLength f ∧
      encodeNodes (decodeNodes data f).nodes f =
        (entries.filter fun e => ¬(f = .IPv6 ∧ StandsForIPv4 (e.drop NodeId.Size))).flatten ∧
      ((decodeNodes data f).malformed ↔ rest ≠ []) := by
  have hpos : 0 < nodeEntryLength f := by cases f <;> decide
  refine ⟨fun nodes hnodes => ?_, fun data => ?_⟩
  · -- Of nodes: as all entries have one length, the bytes are cut where they were joined.
    have hlen : ∀ e ∈ (nodes.filter fun n => n.endpoint.family = f).map encodeEntry,
        e.length = nodeEntryLength f := by
      intro e he
      obtain ⟨n, hn, rfl⟩ := List.mem_map.1 he
      obtain ⟨hn, hf⟩ := List.mem_filter.1 hn
      obtain ⟨hvalid, address, port, heq⟩ := hnodes n hn
      rw [heq] at hvalid hf
      rw [encodeEntry, List.length_append, heq, ← of_decide_eq_true hf, ← length_toCompact hvalid]
      exact congrArg (· + _) n.id.size_eq
    have hdecode : ∀ n ∈ nodes.filter fun n => n.endpoint.family = f,
        decodeEntry (encodeEntry n) = some n := by
      intro n hn
      obtain ⟨hvalid, address, port, heq⟩ := hnodes n (List.mem_filter.1 hn).1
      obtain ⟨id, endpoint⟩ := n
      obtain rfl : endpoint = .of address port := heq
      exact decodeEntry_encodeEntry hvalid
    have hread : (decodeNodes (encodeNodes nodes f) f).nodes =
        nodes.filter fun n => n.endpoint.family = f := by
      rw [decodeNodes_nodes, encodeNodes_eq, length_flatten_of_mem hlen, Nat.mul_div_cancel _ hpos,
        pieces_flatten hlen, List.filterMap_map]
      exact (List.filterMap_congr hdecode).trans (List.filterMap_some ..)
    have hwhole : (decodeNodes (encodeNodes nodes f) f).malformed = false := by
      rw [decodeNodes, encodeNodes_eq, length_flatten_of_mem hlen]
      simp
    rw [← hread, ← hwhole]
  · -- Of bytes: as many whole entries are read as there are.
    set count := data.length / nodeEntryLength f
    have hcount : count * nodeEntryLength f ≤ data.length := Nat.div_mul_le_self ..
    have hrest : (data.drop (count * nodeEntryLength f)).length =
        data.length % nodeEntryLength f := by
      rw [List.length_drop, Nat.mul_comm]
      exact Nat.sub_eq_of_eq_add' (Nat.div_add_mod ..).symm
    refine ⟨pieces (nodeEntryLength f) count data, data.drop (count * nodeEntryLength f), ?_,
      fun e he => length_of_mem_pieces hcount he, ?_, ?_, ?_⟩
    · rw [flatten_pieces, List.take_append_drop]
    · rw [hrest]
      exact Nat.mod_lt _ hpos
    · rw [encodeNodes_eq, decodeNodes_nodes,
        filter_decodeEntry fun e he => length_of_mem_pieces hcount he]
    · rw [← List.length_pos_iff_ne_nil, hrest, decodeNodes, decide_eq_true_iff, Nat.pos_iff_ne_zero]

/-- An entry of IPv6 whose address is `::` is whole, and its address is not mapped, but it does not
    come back. -/
theorem exists_not_roundTrip : ∃ entry : Bytes, entry.length = nodeEntryLength .IPv6 ∧
    ¬IsMapped (entry.drop NodeId.Size) ∧
    (decodeNodes entry .IPv6).malformed = false ∧
    encodeNodes (decodeNodes entry .IPv6).nodes .IPv6 ≠ entry :=
  ⟨List.replicate 20 1 ++ List.replicate 16 0 ++ [0x1a, 0xe1], by decide, by decide, by decide,
    by decide +kernel⟩

end Krpc

end Dht
