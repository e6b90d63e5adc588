import DhtCore.NodeId.Order
import DhtCore.Sybil.Links
import DhtCore.Upnp.Basic

/-!
# Address filters

An address filter is written as an address, or as a subnet with a number of bits
(`parseAddressFilter`); the bytes of a node's address are compared with it, whole ones first and
then the bits that are left (`SubnetMatcher.matchesBytes`, which is `SubnetMatcher.matches` on
the bytes of addresses).

A subnet selects the addresses that start with the bits that are written, but for one kind of
subnets (`selects_iff`): an address that stands for one of IPv4 but is written as one of IPv6
becomes one of IPv4, while its number of bits remains that of IPv6 (`Miscounted`). The matcher
then adds the bits of the prefix once more, so that too many bits are compared: of a subnet of
IPv4 only the first address is selected, and of one that starts with zeros, `::` not even that.
-/

namespace Dht

open HostAddress Upnp

/-! ## Bytes -/

/-- Compares the first bytes, and then a masked one. -/
def SubnetMatcher.matchesBytes (m : SubnetMatcher) (address : Bytes) : Bool :=
  let key := Endpoint.bytesOf 16 m.key.toNat
  if m.any then true
  else
    let bytes := m.bits / 8
    if address.take bytes ≠ key.take bytes then false
    else
      let rest := m.bits % 8
      if rest = 0 then true
      else
        let mask : UInt8 := 0xff <<< UInt8.ofNat (8 - rest)
        address.getD bytes 0 &&& mask = key.getD bytes 0 &&& mask

/-- Whether an address, of 16 bytes, is in a subnet. -/
def addressInSubnet (address : Bytes) (subnet : HostAddress) (bits : ℤ) : Bool :=
  (SubnetMatcher.of subnet bits).matchesBytes address

theorem and_mask_eq_iff {x y : UInt8} {r : ℕ} (hr : 0 < r) (hr8 : r < 8) :
    x &&& (0xff <<< UInt8.ofNat (8 - r)) = y &&& (0xff <<< UInt8.ofNat (8 - r)) ↔
      x.toNat / 2 ^ (8 - r) = y.toNat / 2 ^ (8 - r) := by
  rw [← UInt8.toNat_inj, NodeId.toNat_and_mask x hr hr8, NodeId.toNat_and_mask y hr hr8]
  exact Nat.mul_left_inj (by positivity)

/-- The bytes agree in as many bits as are compared, and no others are. -/
theorem take_and_mask_iff {xs ys : Bytes} {k : ℕ} (hlen : xs.length = ys.length)
    (hk : k ≤ 8 * xs.length) :
    (xs.take (k / 8) = ys.take (k / 8) ∧ (k % 8 = 0 ∨
      xs.getD (k / 8) 0 &&& (0xff <<< UInt8.ofNat (8 - k % 8)) =
        ys.getD (k / 8) 0 &&& (0xff <<< UInt8.ofNat (8 - k % 8)))) ↔
      NodeId.bigEndian xs / 2 ^ (8 * xs.length - k) =
        NodeId.bigEndian ys / 2 ^ (8 * xs.length - k) := by
  induction xs generalizing ys k with
  | nil =>
    obtain rfl : k = 0 := by simpa using hk
    rw [List.length_eq_zero_iff.1 hlen.symm]
    simp
  | cons x xs ih =>
    obtain ⟨y, ys, rfl⟩ := List.exists_of_length_succ ys hlen.symm
    have hlen' : xs.length = ys.length := by simpa using hlen
    rw [List.length_cons] at hk ⊢
    rcases lt_or_ge k 8 with hlt | hge
    · -- Less than a byte is compared.
      rw [show 8 * (xs.length + 1) - k = 8 * xs.length + (8 - k) by omega,
        NodeId.bigEndian_cons_div, hlen', NodeId.bigEndian_cons_div, Nat.div_eq_of_lt hlt,
        Nat.mod_eq_of_lt hlt]
      rcases Nat.eq_zero_or_pos k with rfl | hpos
      · have hx := x.toNat_lt
        have hy := y.toNat_lt
        refine iff_of_true ⟨rfl, .inl rfl⟩ ?_
        omega
      · rw [List.getD_cons_zero, List.getD_cons_zero, and_mask_eq_iff hpos hlt]
        simp [hpos.ne']
    · obtain ⟨j, rfl⟩ := Nat.exists_eq_add_of_le' hge
      rw [show 8 * (xs.length + 1) - (j + 8) = 8 * xs.length - j by omega,
        NodeId.bigEndian_cons_div_eq hlen' (by omega), ← ih hlen' (by omega),
        Nat.add_div_right _ (by decide), Nat.add_mod_right, List.take_succ_cons,
        List.take_succ_cons, List.getD_cons_succ, List.getD_cons_succ, List.cons.injEq, and_assoc]

/-- On the bytes of an address, the comparison is that of the first bits. -/
theorem matchesBytes_bytesOf {m : SubnetMatcher} (hm : m.bits ≤ 128) (address : BitVec 128) :
    m.matchesBytes (Endpoint.bytesOf 16 address.toNat) = m.matches address := by
  have hvalue (a : BitVec 128) : NodeId.bigEndian (Endpoint.bytesOf 16 a.toNat) = a.toNat := by
    rw [Endpoint.bigEndian_bytesOf]
    exact Nat.mod_eq_of_lt a.isLt
  have hiff := @take_and_mask_iff (Endpoint.bytesOf 16 address.toNat)
    (Endpoint.bytesOf 16 m.key.toNat) m.bits (by simp) (by simpa using hm)
  rw [hvalue, hvalue, Endpoint.length_bytesOf, ← Sybil.samePrefix_iff] at hiff
  rw [SubnetMatcher.matches, Bool.eq_iff_iff, Bool.or_eq_true, ← hiff, SubnetMatcher.matchesBytes]
  dsimp only
  split_ifs <;> simp_all

/-! ## What is written -/

/-- What reads addresses from texts. -/
structure AddressReader where
  /-- `QHostAddress::parseSubnet`: an address, none if there is none, and a number of bits. -/
  parseSubnet : String → HostAddress × ℤ
  /-- `QHostAddress::setAddress`. -/
  setAddress : String → Option HostAddress

/-- The address and the number of bits that a filter selects by, from what is written. -/
def parseAddressFilter (qt : AddressReader) (text : String) : Except String (HostAddress × ℤ) :=
  let t := trimmedText text
  if t.isEmpty then .ok (.null, -1)
  else if '/' ∈ t.toList then
    let subnet := qt.parseSubnet t
    if subnet.1 = .null then .error "not an address or subnet, e.g. 203.0.113.0/24"
    else .ok (normalizeAddress subnet.1, subnet.2)
  else
    match qt.setAddress t with
    | none => .error "not an address or subnet, e.g. 203.0.113.7 or 2001:db8::/32"
    | some parsed =>
      let address := normalizeAddress parsed
      .ok (address, match address with | .ipv4 _ => 32 | _ => 128)

namespace HostAddress

/-- How many bits an address has. -/
def width : HostAddress → ℕ
  | .null => 0
  | .ipv4 _ => 32
  | .ipv6 _ => 128

/-- The address with zeros after its first `n` bits. -/
def cleared (n : ℕ) : HostAddress → HostAddress
  | .null => .null
  | .ipv4 a => .ipv4 (a >>> (32 - n) <<< (32 - n))
  | .ipv6 a => .ipv6 (a >>> (128 - n) <<< (128 - n))

/-- How many bits the first `n` ones are with the prefix of IPv4 addresses, if there is one. -/
def leading (n : ℕ) : HostAddress → ℕ
  | .null => n
  | .ipv4 _ => 96 + n
  | .ipv6 _ => n

end HostAddress

/-- A subnet that is written as one of IPv6, and whose first address stands for one of IPv4: it is
    a part of the mapped ones, or nothing but zeros are written. -/
def Miscounted (written : HostAddress) (n : ℕ) : Prop :=
  ∃ a, written = .ipv6 a ∧
    (CatalogEntry.isMappedV4 a ∧ 96 ≤ n ∧ n < 128 ∨ a.toNat / 2 ^ (128 - n) = 0)

/-- A text that is read as a subnet: as documented, the address that is written, without the
    bits after the first `n`. -/
structure IsSubnet (qt : AddressReader) (text : String) (written : HostAddress) (n : ℕ) :
    Prop where
  slash : '/' ∈ (trimmedText text).toList
  ne_null : written ≠ .null
  le : n ≤ written.width
  parseSubnet : qt.parseSubnet (trimmedText text) = (written.cleared n, (n : ℤ))

theorem IsSubnet.parse {qt : AddressReader} {text : String} {written : HostAddress} {n : ℕ}
    (h : IsSubnet qt text written n) :
    parseAddressFilter qt text = .ok (normalizeAddress (written.cleared n), (n : ℤ)) := by
  have hne : (trimmedText text).isEmpty = false := by
    by_contra hempty
    have hslash := h.slash
    rw [Bool.not_eq_false, String.isEmpty_iff] at hempty
    simp [hempty] at hslash
  have hnull : written.cleared n ≠ .null := by
    have hwritten := h.ne_null
    cases written with
    | null => exact absurd rfl hwritten
    | ipv4 a => simp [cleared]
    | ipv6 a => simp [cleared]
  rw [parseAddressFilter]
  dsimp only
  rw [if_neg (by simp [hne]), if_pos h.slash, h.parseSubnet, if_neg hnull]

/-! ## What is selected -/

theorem toNat_cleared {w : ℕ} (x : BitVec w) (k : ℕ) :
    (x >>> k <<< k).toNat = x.toNat / 2 ^ k * 2 ^ k := by
  rw [BitVec.toNat_shiftLeft, BitVec.toNat_ushiftRight, Nat.shiftRight_eq_div_pow,
    Nat.shiftLeft_eq, Nat.mod_eq_of_lt ((Nat.div_mul_le_self ..).trans_lt x.isLt)]

theorem toNat_cleared_div {w : ℕ} (x : BitVec w) (k : ℕ) :
    (x >>> k <<< k).toNat / 2 ^ k = x.toNat / 2 ^ k := by
  rw [toNat_cleared, Nat.mul_div_cancel _ (by positivity)]

/-- Without the last bits, an address is one of IPv4 if it was and they are not of the prefix. -/
theorem isMappedV4_cleared {a : BitVec 128} {n : ℕ} (hn : n ≤ 128) :
    CatalogEntry.isMappedV4 (a >>> (128 - n) <<< (128 - n)) ↔
      CatalogEntry.isMappedV4 a ∧ 96 ≤ n := by
  rw [Sybil.isMappedV4_iff, Sybil.isMappedV4_iff]
  by_cases h96 : 96 ≤ n
  · have hpow : 2 ^ 32 = 2 ^ (128 - n) * 2 ^ (n - 96) := by
      rw [← pow_add]
      congr 1
      omega
    rw [hpow, ← Nat.div_div_eq_div_mul, ← Nat.div_div_eq_div_mul, toNat_cleared_div]
    simp [h96]
  · -- The last bit of the prefix is zero.
    refine iff_of_false ?_ fun h => h96 h.2
    have hpow : 2 ^ (128 - n) = 2 ^ (95 - n) * 2 * 2 ^ 32 := by
      rw [← pow_succ, ← pow_add]
      congr 1
      omega
    rw [toNat_cleared, hpow, ← mul_assoc, Nat.mul_div_cancel _ (by decide), ← mul_assoc]
    omega

theorem bits_of_le (subnet : HostAddress) (bits : ℤ) :
    (SubnetMatcher.of subnet bits).bits ≤ 128 := by
  rw [SubnetMatcher.of]
  split_ifs
  · exact Nat.zero_le _
  · dsimp only
    omega

theorem addressInSubnet_bytesOf (stored : BitVec 128) (subnet : HostAddress) (bits : ℤ) :
    addressInSubnet (Endpoint.bytesOf 16 stored.toNat) subnet bits =
      (SubnetMatcher.of subnet bits).matches stored :=
  matchesBytes_bytesOf (bits_of_le subnet bits) stored

theorem cleared_eq_zero_iff {a : BitVec 128} {n : ℕ} :
    a >>> (128 - n) <<< (128 - n) = 0 ↔ a.toNat / 2 ^ (128 - n) = 0 := by
  rw [← BitVec.toNat_inj, toNat_cleared]
  exact Nat.mul_eq_zero.trans (or_iff_left (by positivity))

/-- A filter of an address of IPv4 has the bits of the prefix as well, but not too many. -/
theorem matches_ipv4_eq (a : BitVec 32) (n : ℕ) (b : BitVec 128) :
    (SubnetMatcher.of (.ipv4 a) n).matches b =
      samePrefix b (HostAddress.ipv4 a).key (min (96 + n) 128) := by
  have hbits : (max 0 (min ((n : ℤ) + 96) 128)).toNat = min (96 + n) 128 := by omega
  rw [SubnetMatcher.of, if_neg (by simp), SubnetMatcher.matches]
  dsimp only [normalizeAddress]
  rw [Bool.false_or, hbits]

variable {written : HostAddress} {n : ℕ}

/-- The first address of a subnet of mapped addresses is one of IPv4. -/
theorem normalizeAddress_cleared {a : BitVec 128} (ha : CatalogEntry.isMappedV4 a) (hn96 : 96 ≤ n)
    (hn : n ≤ 128) : ∃ v, normalizeAddress ((ipv6 a).cleared n) = .ipv4 v ∧
      (HostAddress.ipv4 v).key = a >>> (128 - n) <<< (128 - n) := by
  have hmapped := (isMappedV4_cleared hn).2 ⟨ha, hn96⟩
  exact ⟨_, normalizeAddress_mapped (of_decide_eq_true hmapped),
    Sybil.append_extractLsb' hmapped⟩

/-- But for the subnets whose bits are miscounted, those addresses are in one that start with
    the bits that are written. -/
theorem matches_of_not_miscounted (hwritten : written ≠ .null) (hn : n ≤ written.width)
    (h : ¬Miscounted written n) (stored : BitVec 128) :
    (SubnetMatcher.of (normalizeAddress (written.cleared n)) n).matches stored =
      samePrefix stored written.key (written.leading n) := by
  cases written with
  | null => exact absurd rfl hwritten
  | ipv4 a =>
    have hn32 : n ≤ 32 := hn
    have hpow : 2 ^ 32 = 2 ^ n * 2 ^ (32 - n) := by
      rw [← pow_add]
      congr 1
      omega
    have hdiv (x : BitVec 32) : (mappedPrefix ++ x).toNat / 2 ^ (32 - n) =
        x.toNat / 2 ^ (32 - n) + 0xffff * 2 ^ n := by
      rw [Sybil.toNat_append_ipv4, hpow, ← mul_assoc, Nat.add_comm,
        Nat.add_mul_div_right _ _ (by positivity)]
    have hnormal : normalizeAddress ((ipv4 a).cleared n) = ipv4 (a >>> (32 - n) <<< (32 - n)) := rfl
    rw [Bool.eq_iff_iff, Sybil.samePrefix_iff, hnormal, Sybil.matches_ipv4 _ hn32, hdiv,
      toNat_cleared_div, ← hdiv, key, leading, show 128 - (96 + n) = 32 - n by omega]
  | ipv6 a =>
    have hn128 : n ≤ 128 := hn
    have hne : a >>> (128 - n) <<< (128 - n) ≠ 0 := fun heq =>
      h ⟨a, rfl, .inr (cleared_eq_zero_iff.1 heq)⟩
    by_cases hmapped : CatalogEntry.isMappedV4 (a >>> (128 - n) <<< (128 - n))
    · -- All bits are written.
      obtain ⟨ha, hn96⟩ := (isMappedV4_cleared hn128).1 hmapped
      obtain rfl : n = 128 := by
        by_contra hne
        exact h ⟨a, rfl, .inl ⟨ha, hn96, by omega⟩⟩
      obtain ⟨v, hnormal, hkey⟩ := normalizeAddress_cleared ha hn96 hn128
      rw [hnormal, matches_ipv4_eq, hkey, key, leading]
      congr 1
      rw [← BitVec.toNat_inj, toNat_cleared]
      simp
    · have hnormal : normalizeAddress (.ipv6 (a >>> (128 - n) <<< (128 - n))) =
          .ipv6 (a >>> (128 - n) <<< (128 - n)) :=
        normalizeAddress_ipv6 (fun heq => hmapped (decide_eq_true heq)) hne
      rw [cleared, hnormal, Bool.eq_iff_iff, Sybil.matches_ipv6 hmapped hne hn128,
        Sybil.samePrefix_iff, toNat_cleared_div, key, leading]

/-- In a subnet whose bits are miscounted, all bits of the prefix are compared once more. -/
theorem matches_of_miscounted (h : Miscounted written n) (stored : BitVec 128) :
    (SubnetMatcher.of (normalizeAddress (written.cleared n)) n).matches stored =
      samePrefix stored (normalizeAddress (written.cleared n)).key (min (96 + n) 128) := by
  obtain ⟨v, hnormal⟩ : ∃ v, normalizeAddress (written.cleared n) = .ipv4 v := by
    obtain ⟨a, rfl, ⟨ha, hn96, hlt⟩ | hzero⟩ := h
    · obtain ⟨v, hnormal, -⟩ := normalizeAddress_cleared ha hn96 hlt.le
      exact ⟨v, hnormal⟩
    · refine ⟨0, ?_⟩
      rw [cleared, cleared_eq_zero_iff.2 hzero, normalizeAddress_unspecified]
  rw [hnormal]
  exact matches_ipv4_eq v n stored

/-- So not all addresses of the subnet are selected. -/
theorem exists_unselected (h : Miscounted written n) : ∃ stored : BitVec 128,
    samePrefix stored written.key (written.leading n) ∧
    samePrefix stored (normalizeAddress (written.cleared n)).key (min (96 + n) 128) = false := by
  obtain ⟨a, rfl, ⟨ha, hn96, hlt⟩ | hzero⟩ := h
  · -- The address after the first one.
    obtain ⟨v, hnormal, hkey⟩ := normalizeAddress_cleared ha hn96 hlt.le
    have htwo : 2 ≤ 2 ^ (128 - n) := Nat.le_self_pow (by omega) 2
    have hpow : 2 ^ 128 = 2 ^ n * 2 ^ (128 - n) := by
      rw [← pow_add]
      congr 1
      omega
    have hfirst : (a >>> (128 - n) <<< (128 - n)).toNat + 2 ^ (128 - n) ≤ 2 ^ 128 := by
      have hlt : a.toNat / 2 ^ (128 - n) < 2 ^ n := Nat.div_lt_of_lt_mul (by
        rw [Nat.mul_comm, ← hpow]
        exact a.isLt)
      rw [toNat_cleared, ← Nat.succ_mul, hpow]
      exact Nat.mul_le_mul_right _ hlt
    have hsecond : (a >>> (128 - n) <<< (128 - n)).toNat + 1 < 2 ^ 128 := by omega
    refine ⟨BitVec.ofNat 128 ((a >>> (128 - n) <<< (128 - n)).toNat + 1), ?_, ?_⟩
    · rw [Sybil.samePrefix_iff, BitVec.toNat_ofNat, Nat.mod_eq_of_lt hsecond, key, leading,
        toNat_cleared, Nat.add_comm, Nat.add_mul_div_right _ _ (by positivity),
        Nat.div_eq_of_lt (by omega), Nat.zero_add]
    · rw [hnormal, hkey, min_eq_right (by omega), ← Bool.not_eq_true, Sybil.samePrefix_iff,
        BitVec.toNat_ofNat, Nat.mod_eq_of_lt hsecond]
      simp
  · -- The address `::`, which is not mapped.
    refine ⟨0, ?_, ?_⟩
    · rw [Sybil.samePrefix_iff, key, leading, hzero]
      exact Nat.zero_div _
    · have hkey : (normalizeAddress ((ipv6 a).cleared n)).key.toNat = 0xffff * 2 ^ 32 := by
        rw [cleared, cleared_eq_zero_iff.2 hzero]
        rfl
      have hpos : 0 < 0xffff * 2 ^ 32 / 2 ^ (128 - min (96 + n) 128) := by
        refine Nat.div_pos ?_ (by positivity)
        have hle : 2 ^ (128 - min (96 + n) 128) ≤ 2 ^ 32 := Nat.pow_le_pow_right (by decide)
          (by omega)
        omega
      rw [← Bool.not_eq_true, Sybil.samePrefix_iff, hkey]
      have hnone : (0 : BitVec 128).toNat / 2 ^ (128 - min (96 + n) 128) = 0 := Nat.zero_div _
      omega

/-- A subnet that is written as a text selects those addresses that start with the bits that are
    written, if and only if its bits are not miscounted; if they are, those are selected that agree
    with its first address in the bits of the prefix as well. -/
theorem selects_iff (qt : AddressReader) (text : String) (written : HostAddress) (n : ℕ)
    (h : IsSubnet qt text written n) :
    ∃ subnet bits, parseAddressFilter qt text = .ok (subnet, bits) ∧
      ((∀ stored : BitVec 128, addressInSubnet (Endpoint.bytesOf 16 stored.toNat) subnet bits =
          samePrefix stored written.key (written.leading n)) ↔ ¬Miscounted written n) ∧
      (Miscounted written n → ∀ stored : BitVec 128,
        addressInSubnet (Endpoint.bytesOf 16 stored.toNat) subnet bits =
          samePrefix stored (normalizeAddress (written.cleared n)).key (min (96 + n) 128)) := by
  have hmiscounted (hbits : Miscounted written n) (stored : BitVec 128) :
      addressInSubnet (Endpoint.bytesOf 16 stored.toNat) (normalizeAddress (written.cleared n)) n =
        samePrefix stored (normalizeAddress (written.cleared n)).key (min (96 + n) 128) := by
    rw [addressInSubnet_bytesOf]
    exact matches_of_miscounted hbits stored
  refine ⟨_, _, h.parse, ?_, hmiscounted⟩
  constructor
  · intro hselects hbits
    obtain ⟨stored, hsame, hout⟩ := exists_unselected hbits
    rw [← hselects stored, hmiscounted hbits, hout] at hsame
    exact Bool.false_ne_true hsame
  · intro hbits stored
    rw [addressInSubnet_bytesOf]
    exact matches_of_not_miscounted h.ne_null h.le hbits stored

/-- A reader of one text. -/
def oneSubnet (text : String) (subnet : HostAddress × ℤ) : AddressReader where
  parseSubnet t := if t = text then subnet else (.null, -1)
  setAddress _ := none

/-- The addresses of IPv4 in a subnet that is written as one of IPv6. -/
def mappedNet : HostAddress := .ipv6 (mappedPrefix ++ dotted 203 0 113 0)

/-- A subnet of IPv4 selects an address in it. -/
theorem selects_iff_ipv4 :
    let qt := oneSubnet "203.0.113.0/24" (.ipv4 (dotted 203 0 113 0), 24)
    ∃ subnet bits, parseAddressFilter qt "203.0.113.0/24" = .ok (subnet, bits) ∧
      addressInSubnet (Endpoint.bytesOf 16 (mappedPrefix ++ dotted 203 0 113 7).toNat) subnet
        bits := by
  intro qt
  have hsubnet : IsSubnet qt "203.0.113.0/24" (.ipv4 (dotted 203 0 113 0)) 24 :=
    ⟨by decide, by decide, by decide, by decide⟩
  obtain ⟨subnet, bits, hparse, hselects, -⟩ := selects_iff qt _ _ _ hsubnet
  refine ⟨subnet, bits, hparse, ?_⟩
  rw [hselects.2 (by rintro ⟨a, ha, -⟩; cases ha)]
  decide

/-- The same subnet, as the part of IPv6 that it is, does not select the address. -/
theorem exists_not_selected :
    let text := "::ffff:203.0.113.0/120"
    let qt := oneSubnet text (mappedNet, 120)
    let stored := mappedPrefix ++ dotted 203 0 113 7
    IsSubnet qt text mappedNet 120 ∧ ∃ subnet bits,
      parseAddressFilter qt text = .ok (subnet, bits) ∧
        samePrefix stored mappedNet.key (mappedNet.leading 120) ∧
        addressInSubnet (Endpoint.bytesOf 16 stored.toNat) subnet bits = false := by
  intro text qt stored
  have hsubnet : IsSubnet qt text mappedNet 120 := ⟨by decide, by decide, by decide, by decide⟩
  exact ⟨hsubnet, _, _, hsubnet.parse, by decide, by decide +kernel⟩

end Dht
