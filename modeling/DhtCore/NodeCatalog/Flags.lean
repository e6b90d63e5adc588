import DhtCore.NodeCatalog.Entry

/-!
# The flags of an entry

The flags, the tries of a feature check and the number of samples share a word, at bits of
their own: writing one of them leaves the others (`has_set` and those after it).
-/

namespace Dht

open CatalogEntry

theorem CatalogFlag.bit_lt (f : CatalogFlag) : f.bit < 19 := by cases f <;> decide

theorem CatalogFlag.bit_ne (f : CatalogFlag) : f.bit ≠ 13 ∧ f.bit ≠ 14 := by
  cases f <;> decide

theorem CatalogFlag.bit_inj {f g : CatalogFlag} (h : f.bit = g.bit) : f = g := by
  cases f <;> cases g <;> first | rfl | exact absurd h (by decide)

/-- A flag is one bit. -/
theorem CatalogFlag.toBitVec_value (f : CatalogFlag) :
    f.value.toBitVec = BitVec.twoPow 32 f.bit := by cases f <;> decide

namespace CatalogEntry

variable (e : CatalogEntry) (f g : CatalogFlag) (on : Bool) (n : ℤ)

theorem has_eq : e.has f = e.flags.toBitVec.getLsbD f.bit := by
  have hand : (e.flags &&& f.value).toBitVec =
      if e.flags.toBitVec.getLsbD f.bit then BitVec.twoPow 32 f.bit else 0#32 := by
    rw [UInt32.toBitVec_and, f.toBitVec_value, BitVec.and_twoPow]
  have hpow : BitVec.twoPow 32 f.bit ≠ 0#32 := by cases f <;> decide
  rw [has, Bool.eq_iff_iff, decide_eq_true_iff, ne_eq, ← UInt32.toBitVec_inj, hand]
  cases e.flags.toBitVec.getLsbD f.bit
  · exact iff_of_false (not_not.2 rfl) (by simp)
  · exact iff_of_true hpow rfl

/-- The bits of a word, once a flag is set or cleared. -/
theorem getLsbD_set (i : ℕ) : (e.set f on).flags.toBitVec.getLsbD i =
    if i = f.bit then on else e.flags.toBitVec.getLsbD i := by
  have hlt : f.bit < 32 := f.bit_lt.trans (by decide)
  cases on
  · simp only [set, Bool.false_eq_true, if_false, UInt32.toBitVec_and, UInt32.toBitVec_not,
      f.toBitVec_value, BitVec.getLsbD_and, BitVec.getLsbD_not, BitVec.getLsbD_twoPow, hlt]
    by_cases hi : i = f.bit
    · simp [hi]
    · by_cases hlt' : i < 32
      · simp [hi, Ne.symm hi, hlt']
      · simp [hi, BitVec.getLsbD_of_ge _ _ (not_lt.1 hlt')]
  · simp only [set, if_true, UInt32.toBitVec_or, f.toBitVec_value, BitVec.getLsbD_or,
      BitVec.getLsbD_twoPow, hlt]
    by_cases hi : i = f.bit
    · simp [hi]
    · simp [hi, Ne.symm hi]

@[simp]
theorem has_set : (e.set f on).has g = if g = f then on else e.has g := by
  rw [has_eq, has_eq, getLsbD_set]
  by_cases hg : g = f
  · rw [if_pos (congrArg _ hg), if_pos hg]
  · rw [if_neg fun h => hg (CatalogFlag.bit_inj h), if_neg hg]

/-- The tries, as the bits they are kept in. -/
theorem featureTries_eq_of_bits {e e' : CatalogEntry}
    (h : ∀ i, i = 13 ∨ i = 14 → e'.flags.toBitVec.getLsbD i = e.flags.toBitVec.getLsbD i) :
    e'.featureTries = e.featureTries := by
  rw [featureTries, featureTries]
  congr 1
  rw [← UInt32.toBitVec_inj, UInt32.toBitVec_and, UInt32.toBitVec_and, UInt32.toBitVec_shiftRight,
    UInt32.toBitVec_shiftRight]
  refine BitVec.eq_of_getLsbD_eq fun i hi => ?_
  have hshift : (TriesShift.toBitVec % 32).toNat = 13 := by decide
  have hthree : (3 : UInt32).toBitVec.getLsbD i = decide (i < 2) := by
    change (3#32).getLsbD i = _
    interval_cases i <;> decide
  rw [BitVec.getLsbD_and, BitVec.getLsbD_and, hthree]
  by_cases hi' : i < 2
  · rw [BitVec.ushiftRight_eq', BitVec.ushiftRight_eq', BitVec.getLsbD_ushiftRight,
      BitVec.getLsbD_ushiftRight, hshift, h (13 + i) (by omega)]
  · simp [hi']

@[simp]
theorem featureTries_set : (e.set f on).featureTries = e.featureTries :=
  featureTries_eq_of_bits fun i hi => by
    rw [getLsbD_set, if_neg]
    have hne := f.bit_ne
    omega

theorem testBit_of_lt_four {x i : ℕ} (hx : x < 4) (hi : 2 ≤ i) : x.testBit i = false :=
  Nat.testBit_lt_two_pow (hx.trans_le (Nat.pow_le_pow_right two_pos hi))

/-- Bits of a number below four, shifted to where the tries are. -/
theorem getLsbD_tries {x : UInt32} (hx : x.toNat < 4) (i : ℕ) :
    (x <<< TriesShift).toBitVec.getLsbD i = (decide (13 ≤ i) && x.toBitVec.getLsbD (i - 13)) := by
  have hshift : (TriesShift.toBitVec % 32).toNat = 13 := by decide
  rw [UInt32.toBitVec_shiftLeft, BitVec.shiftLeft_eq', BitVec.getLsbD_shiftLeft, hshift]
  by_cases hi : i < 32
  · rw [decide_eq_true hi, Bool.true_and, ← decide_not]
    exact congrArg (· && _) (decide_eq_decide.2 not_lt)
  · have hbit : x.toBitVec.getLsbD (i - 13) = false := testBit_of_lt_four hx (by omega)
    rw [hbit, Bool.and_false, Bool.and_false]

/-- The bits of a word, once the tries are written. -/
theorem getLsbD_setFeatureTries (i : ℕ) : (e.setFeatureTries n).flags.toBitVec.getLsbD i =
    if i = 13 ∨ i = 14 then (max 0 (min n 3)).toNat.testBit (i - 13)
    else e.flags.toBitVec.getLsbD i := by
  have hlt : (max 0 (min n 3)).toNat < 4 := by omega
  have hsmall : (UInt32.ofNat (max 0 (min n 3)).toNat).toNat = (max 0 (min n 3)).toNat := by
    rw [UInt32.toNat_ofNat']
    exact Nat.mod_eq_of_lt (by omega)
  have hbits : ∀ j, (UInt32.ofNat (max 0 (min n 3)).toNat).toBitVec.getLsbD j =
      (max 0 (min n 3)).toNat.testBit j := fun j => congrArg (Nat.testBit · j) hsmall
  have hmask := getLsbD_tries (x := 3) (by decide) i
  have hthree : ∀ j, (3 : UInt32).toBitVec.getLsbD j = decide (j < 2) := fun j => by
    change Nat.testBit 3 j = _
    exact Nat.testBit_two_pow_sub_one 2 j
  rw [setFeatureTries, UInt32.toBitVec_or, UInt32.toBitVec_and, UInt32.toBitVec_not,
    BitVec.getLsbD_or, BitVec.getLsbD_and, BitVec.getLsbD_not, hmask, hthree,
    getLsbD_tries (by rwa [hsmall]), hbits]
  by_cases hi : i < 32
  · by_cases hin : i = 13 ∨ i = 14
    · rw [if_pos hin]
      rcases hin with rfl | rfl <;> simp
    · rw [if_neg hin]
      by_cases hlow : i < 13
      · simp [hi, not_le.2 hlow]
      · have hzero := testBit_of_lt_four hlt (show 2 ≤ i - 13 by omega)
        have hhigh : ¬i - 13 < 2 := by omega
        simp [hi, hhigh, hzero]
  · have hzero := testBit_of_lt_four hlt (show 2 ≤ i - 13 by omega)
    rw [if_neg (by omega), BitVec.getLsbD_of_ge _ _ (not_lt.1 hi)]
    simp [hzero]

@[simp]
theorem has_setFeatureTries : (e.setFeatureTries n).has f = e.has f := by
  rw [has_eq, has_eq, getLsbD_setFeatureTries, if_neg]
  have hne := f.bit_ne
  omega

@[simp]
theorem featureTries_setFeatureTries :
    (e.setFeatureTries n).featureTries = (max 0 (min n 3)).toNat := by
  have hlt : (max 0 (min n 3)).toNat < 4 := by omega
  refine Nat.eq_of_testBit_eq fun i => ?_
  have hshift : (TriesShift.toBitVec % 32).toNat = 13 := by decide
  have hthree : (3 : UInt32).toBitVec.getLsbD i = decide (i < 2) :=
    Nat.testBit_two_pow_sub_one 2 i
  change (((e.setFeatureTries n).flags >>> TriesShift) &&& 3).toBitVec.getLsbD i = _
  rw [UInt32.toBitVec_and, UInt32.toBitVec_shiftRight, BitVec.getLsbD_and, BitVec.ushiftRight_eq',
    BitVec.getLsbD_ushiftRight, hshift, getLsbD_setFeatureTries, hthree]
  by_cases hi : i < 2
  · rw [if_pos (by omega), Nat.add_sub_cancel_left, decide_eq_true hi, Bool.and_true]
  · rw [decide_eq_false hi, Bool.and_false]
    exact (testBit_of_lt_four hlt (not_lt.1 hi)).symm

/-- The low bits of a word stay when the number of samples is written. -/
theorem getLsbD_setSampleCount {i : ℕ} (hi : i < 19) :
    (e.setSampleCount n).flags.toBitVec.getLsbD i = e.flags.toBitVec.getLsbD i := by
  have hshift : (SampleCountShift.toBitVec % 32).toNat = 19 := by decide
  have hmask : ((1 : UInt32) <<< SampleCountShift - 1).toBitVec.getLsbD i = true := by
    change Nat.testBit (2 ^ 19 - 1) i = true
    rw [Nat.testBit_two_pow_sub_one]
    exact decide_eq_true hi
  rw [setSampleCount, UInt32.toBitVec_or, UInt32.toBitVec_and, BitVec.getLsbD_or,
    BitVec.getLsbD_and, hmask, UInt32.toBitVec_shiftLeft, BitVec.shiftLeft_eq',
    BitVec.getLsbD_shiftLeft, hshift]
  simp [hi]

@[simp]
theorem has_setSampleCount : (e.setSampleCount n).has f = e.has f := by
  rw [has_eq, has_eq, getLsbD_setSampleCount _ _ f.bit_lt]

@[simp]
theorem featureTries_setSampleCount : (e.setSampleCount n).featureTries = e.featureTries :=
  featureTries_eq_of_bits fun i hi => getLsbD_setSampleCount _ _ (by omega)

end CatalogEntry

end Dht
