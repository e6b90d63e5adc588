import DhtCore.Bep42
import DhtCore.Lib.Crc

/-!
# The checksum of addresses

`crc32c` goes through the bytes with a table, whose entries are eight steps of the division
each (`crcTable_eq`). What it comes to is the CRC-32C of the bytes one bit at a time, and thus
the remainder of the message that they are, divided by `castagnoli` (`crc32c_exact`).
-/

namespace Dht

open Polynomial Crc

/-- The generator of CRC-32C, without its leading term, and reflected. -/
def reversedGenerator : BitVec 32 := 0x82F63B78

/-- The generator of CRC-32C. -/
noncomputable def castagnoli : (ZMod 2)[X] :=
  X ^ 32 + X ^ 28 + X ^ 27 + X ^ 26 + X ^ 25 + X ^ 23 + X ^ 22 + X ^ 20 + X ^ 19 + X ^ 18 + X ^ 14 +
    X ^ 13 + X ^ 11 + X ^ 10 + X ^ 9 + X ^ 8 + X ^ 6 + 1

/-- The table of `crc32c`. -/
def kTable : List (BitVec 32) := (List.range 256).map fun i => crcTable (BitVec.ofNat 32 i)

/-- The bits of bytes, the lowest one of a byte first. -/
def bitsOf (data : Bytes) : List Bool :=
  data.flatMap fun ch => (List.range 8).map ch.toNat.testBit

/-- The CRC-32C of some bytes, bit by bit. -/
def bitwiseCrc32c (data : Bytes) : BitVec 32 :=
  feeds reversedGenerator 0xFFFFFFFF#32 (bitsOf data) ^^^ 0xFFFFFFFF#32

/-! ## A byte at a time -/

/-- An entry of the table is that of eight steps. -/
theorem crcTable_eq (i : BitVec 32) : crcTable i = (shift reversedGenerator)^[8] i := by
  have hstep (c : BitVec 32) : (if c &&& 1#32 ≠ 0#32 then (c >>> 1) ^^^ 0x82F63B78#32
      else c >>> 1) = shift reversedGenerator c := by
    have hlow : c &&& 1#32 ≠ 0#32 ↔ c.getLsbD 0 = true := by
      rw [← BitVec.twoPow_zero, ne_eq, BitVec.and_twoPow]
      cases c.getLsbD 0 <;> decide
    rw [shift, reversedGenerator]
    simp only [hlow]
    rfl
  simp only [crcTable, hstep]
  rfl

theorem length_bitsOf (data : Bytes) : (bitsOf data).length = 8 * data.length := by
  induction data with
  | nil => rfl
  | cons ch data ih =>
    rw [bitsOf, List.flatMap_cons, ← bitsOf, List.length_append, ih, List.length_map,
      List.length_range, List.length_cons]
    omega

theorem word_bitsOf (ch : UInt8) : word 32 (bitsOf [ch]) = BitVec.ofNat 32 ch.toNat := by
  refine BitVec.eq_of_getLsbD_eq fun i hi => ?_
  have hbits : bitsOf [ch] = (List.range 8).map ch.toNat.testBit := List.append_nil _
  rw [getLsbD_word, BitVec.getLsbD_ofNat, hbits, List.getD_eq_getElem?_getD, List.getElem?_map]
  by_cases hi8 : i < 8
  · rw [List.getElem?_range hi8]
    rfl
  · have hbit : ch.toNat.testBit i = false := Nat.testBit_lt_two_pow
      (ch.toNat_lt.trans_le (Nat.pow_le_pow_right two_pos (not_lt.1 hi8)))
    rw [hbit, List.getElem?_eq_none (by simpa using hi8)]
    rfl

/-- A byte that goes in at once, with the table. -/
theorem feeds_byte (crc : BitVec 32) (ch : UInt8) :
    feeds reversedGenerator crc (bitsOf [ch]) =
      crcTable ((crc ^^^ BitVec.ofNat 32 ch.toNat) &&& 0xFF#32) ^^^ (crc >>> 8) := by
  have hlength : (bitsOf [ch]).length = 8 := length_bitsOf [ch]
  have hmask : ∀ i < 32, (0xFF#32).getLsbD i = decide (i < 8) := by decide
  have hbyte : BitVec.ofNat 32 ch.toNat >>> 8 = 0 := by
    have hlt := ch.toNat_lt
    apply BitVec.eq_of_toNat_eq
    rw [BitVec.toNat_ushiftRight, BitVec.toNat_ofNat, Nat.shiftRight_eq_div_pow]
    simp only [BitVec.ofNat_eq_ofNat, BitVec.toNat_zero]
    omega
  rw [feeds_eq_iterate _ _ (by omega), hlength, word_bitsOf,
    shift_iterate_split reversedGenerator _ hmask, crcTable_eq, BitVec.ushiftRight_xor_distrib,
    hbyte]
  simp

/-- The table does what eight bits would do, byte after byte. -/
theorem foldl_eq_feeds (data : Bytes) (crc : BitVec 32) :
    data.foldl (fun crc ch => crcTable ((crc ^^^ BitVec.ofNat 32 ch.toNat) &&& 0xFF#32)
      ^^^ (crc >>> 8)) crc = feeds reversedGenerator crc (bitsOf data) := by
  induction data generalizing crc with
  | nil => rfl
  | cons ch data ih =>
    have hbits : bitsOf (ch :: data) = bitsOf [ch] ++ bitsOf data := by simp [bitsOf]
    rw [List.foldl_cons, ih, hbits, feeds_append, feeds_byte]

/-! ## The remainder -/

theorem generator_eq : generator reversedGenerator = castagnoli := by
  rw [generator, poly, castagnoli]
  simp [Finset.sum_range_succ, term, reversedGenerator]
  ring

/-- The checksum is the one that is computed with the table, entry for entry; it is the one
    computed bit by bit; and but for the bits that are inverted at the end, it is the remainder
    of the message, the first 32 bits of which are inverted as well. -/
theorem crc32c_exact (data : Bytes) :
    crc32c data = data.foldl (fun crc ch =>
        kTable.getD ((crc ^^^ BitVec.ofNat 32 ch.toNat) &&& 0xFF#32).toNat 0 ^^^ (crc >>> 8))
        0xFFFFFFFF#32 ^^^ 0xFFFFFFFF#32 ∧
      crc32c data = bitwiseCrc32c data ∧
      poly (crc32c data ^^^ 0xFFFFFFFF#32) =
        (X ^ (8 * data.length) * poly 0xFFFFFFFF#32 + X ^ 32 * message (bitsOf data)) %ₘ
          castagnoli := by
  have hbitwise : crc32c data = bitwiseCrc32c data := by
    rw [crc32c, foldl_eq_feeds, bitwiseCrc32c]
  refine ⟨?_, hbitwise, ?_⟩
  · have hentry (i : BitVec 32) :
        kTable.getD (i &&& 0xFF#32).toNat 0 = crcTable (i &&& 0xFF#32) := by
      have hlt : (i &&& 0xFF#32).toNat < 256 := by
        rw [BitVec.toNat_and]
        exact Nat.and_le_right.trans_lt (by decide)
      rw [kTable, List.getD_eq_getElem?_getD, List.getElem?_map, List.getElem?_range hlt,
        Option.map_some, Option.getD_some, BitVec.ofNat_toNat, BitVec.setWidth_eq]
    simp only [hentry]
    rfl
  · rw [hbitwise, bitwiseCrc32c, BitVec.xor_assoc, BitVec.xor_self, BitVec.xor_zero, poly_feeds,
      length_bitsOf, generator_eq]

end Dht
