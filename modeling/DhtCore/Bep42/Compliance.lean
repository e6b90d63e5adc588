import DhtCore.Bep42
import DhtCore.NodeId.Order
import DhtCore.Sybil.Basic

/-!
# Compliance of identifiers

An identifier is compliant for an address if its first 21 bits are those of a checksum, of the
masked address and three bits of its last byte (`isCompliant_iff`). So those that are generated
for an address are compliant for it, nothing else of an identifier or an address matters, and
for an address there are no more than eight prefixes of compliant identifiers
(`compliance`).
-/

namespace Dht

open Sybil (prefix21)

/-! ## The first 21 bits -/

theorem toNat_and_f8 (b : UInt8) : (b &&& 0xf8).toNat = b.toNat / 8 * 8 :=
  NodeId.toNat_and_mask (r := 5) b (by decide) (by decide)

theorem prefix21_eq (id : NodeId) : prefix21 id = (id.bytes.getD 0 0).toNat * 2 ^ 13 +
    (id.bytes.getD 1 0).toNat * 2 ^ 5 + (id.bytes.getD 2 0).toNat / 8 := by
  have h₁ := (id.bytes.getD 1 0).toNat_lt
  have h₂ := (id.bytes.getD 2 0).toNat_lt
  rw [prefix21, Nat.or_assoc, ← Nat.shiftLeft_add_eq_or_of_lt h₂, ← Nat.shiftLeft_add_eq_or_of_lt,
    Nat.shiftLeft_eq, Nat.shiftLeft_eq, Nat.shiftRight_eq_div_pow]
  · omega
  · rw [Nat.shiftLeft_eq]
    omega

/-- The prefix is the first 21 bits. -/
theorem prefix21_eq_value_div (id : NodeId) : prefix21 id = id.value / 2 ^ (NodeId.Bits - 21) := by
  obtain ⟨bytes, hsize⟩ := id
  obtain ⟨b₀, bytes, rfl⟩ := List.exists_of_length_succ bytes hsize
  obtain ⟨b₁, bytes, rfl⟩ := List.exists_of_length_succ bytes (Nat.succ.inj hsize)
  obtain ⟨b₂, rest, rfl⟩ := List.exists_of_length_succ bytes (Nat.succ.inj (Nat.succ.inj hsize))
  have hlength : rest.length = 17 := by simpa using hsize
  have hrest := NodeId.bigEndian_lt rest
  rw [hlength] at hrest
  have h₁ := b₁.toNat_lt
  have h₂ := b₂.toNat_lt
  rw [prefix21_eq, NodeId.value]
  simp only [NodeId.bigEndian, List.length_cons, hlength, NodeId.Bits, NodeId.Size,
    List.getD_cons_zero, List.getD_cons_succ]
  omega

theorem prefix21_eq_iff {a b : NodeId} :
    prefix21 a = prefix21 b ↔ 21 ≤ NodeId.commonPrefixLength a b := by
  rw [NodeId.le_commonPrefixLength_iff (by decide), prefix21_eq_value_div, prefix21_eq_value_div]

namespace Bep42

variable {address address' : HostAddress} {id id' : NodeId} {rand rand' : UInt8}

/-! ## What the checksum is of -/

theorem and_seven (rand : UInt8) : (rand &&& 0x7).toNat = rand.toNat % 8 := by
  rw [UInt8.toNat_and]
  exact Nat.and_two_pow_sub_one_eq_mod rand.toNat 3

/-- Three bits of the last byte, and the masked address. -/
theorem prefixCrc_congr (haddress : maskedPrefix address = maskedPrefix address')
    (hrand : rand.toNat % 8 = rand'.toNat % 8) :
    prefixCrc address rand = prefixCrc address' rand' := by
  have hbits : rand &&& 0x7 = rand' &&& 0x7 :=
    UInt8.toNat_inj.1 (by rw [and_seven, and_seven, hrand])
  rw [prefixCrc, prefixCrc, haddress, hbits]

/-- An identifier is compliant if it starts with the first 21 bits of the checksum. -/
theorem isCompliant_iff : isCompliant id address ↔
    prefix21 id = (prefixCrc address (id.bytes.getD 19 0)).toNat / 2 ^ 11 := by
  generalize hcrc : prefixCrc address (id.bytes.getD 19 0) = crc
  have hbyte (n : ℕ) : (UInt8.ofNat (crc >>> n).toNat).toNat = crc.toNat / 2 ^ n % 256 := by
    rw [UInt8.toNat_ofNat', BitVec.toNat_ushiftRight, Nat.shiftRight_eq_div_pow]
  have h₀ := (id.bytes.getD 0 0).toNat_lt
  have h₁ := (id.bytes.getD 1 0).toNat_lt
  have h₂ := (id.bytes.getD 2 0).toNat_lt
  have hlt := crc.isLt
  rw [isCompliant, hcrc, prefix21_eq]
  simp only [Bool.and_eq_true, decide_eq_true_iff, ← UInt8.toNat_inj, toNat_and_f8, hbyte]
  omega

/-- Compliance is a matter of the first 21 bits, the last byte modulo 8 and the masked address. -/
theorem isCompliant_congr (hcommon : 21 ≤ NodeId.commonPrefixLength id id')
    (hlast : (id.bytes.getD 19 0).toNat % 8 = (id'.bytes.getD 19 0).toNat % 8)
    (haddress : maskedPrefix address = maskedPrefix address') :
    isCompliant id address = isCompliant id' address' := by
  rw [Bool.eq_iff_iff, isCompliant_iff, isCompliant_iff, prefix21_eq_iff.2 hcommon,
    prefixCrc_congr haddress hlast]

/-- What is generated for an address is compliant for it. -/
theorem isCompliant_generate (address : HostAddress) (rand : UInt8) (random : NodeId)
    (low : UInt8) : isCompliant (generate address rand random low) address := by
  have hlength := random.size_eq
  have hlow (b : UInt8) : ((b &&& 0xf8) ||| (low &&& 0x7)) &&& 0xf8 = b &&& 0xf8 := by
    have hnone : (0x7 : UInt8).toBitVec &&& (0xf8 : UInt8).toBitVec = 0 := rfl
    have hall : (0xf8 : UInt8).toBitVec &&& (0xf8 : UInt8).toBitVec = (0xf8 : UInt8).toBitVec := rfl
    refine UInt8.toBitVec_inj.1 ?_
    simp only [UInt8.toBitVec_and, UInt8.toBitVec_or, BitVec.and_or_distrib_right, BitVec.and_assoc,
      hnone, hall, BitVec.ofNat_eq_ofNat, BitVec.and_zero, BitVec.or_zero]
  rw [generate, isCompliant]
  simp [hlength, hlow]

/-- The prefixes of the identifiers that are compliant for an address. -/
def compliantPrefixes (address : HostAddress) : Set ℕ :=
  {p | ∃ id, isCompliant id address ∧ prefix21 id = p}

theorem compliantPrefixes_subset (address : HostAddress) : compliantPrefixes address ⊆
    (Finset.range 8).image fun bits =>
      (prefixCrc address (UInt8.ofNat bits)).toNat / 2 ^ 11 := by
  rintro p ⟨id, hid, rfl⟩
  have hlt : (id.bytes.getD 19 0).toNat % 8 < 8 := Nat.mod_lt _ (by decide)
  refine Finset.mem_coe.2 (Finset.mem_image.2 ⟨_, Finset.mem_range.2 hlt, ?_⟩)
  rw [isCompliant_iff.1 hid, prefixCrc_congr rfl]
  rw [UInt8.toNat_ofNat']
  omega

/-- Whatever an address is: all identifiers generated for it are compliant; an identifier is
    compliant for it if another one is for another address, with the same first 21 bits, last
    byte modulo 8 and masked address; and the compliant ones have no more than eight prefixes. -/
theorem compliance (address : HostAddress) :
    (∀ rand random low, isCompliant (generate address rand random low) address) ∧
      (∀ address' id id', 21 ≤ NodeId.commonPrefixLength id id' →
        (id.bytes.getD 19 0).toNat % 8 = (id'.bytes.getD 19 0).toNat % 8 →
        maskedPrefix address = maskedPrefix address' →
        isCompliant id address = isCompliant id' address') ∧
      (compliantPrefixes address).Finite ∧ (compliantPrefixes address).ncard ≤ 8 := by
  have hsubset := compliantPrefixes_subset address
  refine ⟨isCompliant_generate address, fun address' id id' => isCompliant_congr,
    (Finset.finite_toSet _).subset hsubset, ?_⟩
  calc (compliantPrefixes address).ncard
      ≤ _ := Set.ncard_le_ncard hsubset (Finset.finite_toSet _)
    _ = _ := Set.ncard_coe_finset _
    _ ≤ (Finset.range 8).card := Finset.card_image_le

end Bep42

end Dht
