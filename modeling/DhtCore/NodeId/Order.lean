import DhtCore.NodeId
import Mathlib.Data.Nat.Bitwise

/-!
# Identifiers in order

Identifiers are ordered by their bytes, that is, as numbers (`lt_iff_value_lt`). Two of them
share so many leading bits if they are the same number but for the other bits
(`le_commonPrefixLength_iff`): in order, those that share a prefix come one after the other.
-/

namespace Dht.NodeId

/-- The identifier as a number. -/
def value (id : NodeId) : ℕ := bigEndian id.bytes

instance : LT NodeId := ⟨fun a b => a.bytes < b.bytes⟩

instance : DecidableLT NodeId := fun a b => inferInstanceAs (Decidable (a.bytes < b.bytes))

theorem bytes_lt_iff : ∀ {a b : Bytes}, a.length = b.length → (a < b ↔ bigEndian a < bigEndian b)
  | [], [], _ => by simp [bigEndian]
  | x :: xs, y :: ys, hlen => by
    have hlen' : xs.length = ys.length := by simpa using hlen
    rw [List.cons_lt_cons_iff]
    by_cases hxy : x = y
    · subst hxy
      simp [bigEndian, hlen', bytes_lt_iff hlen']
    · rw [bigEndian_cons_lt hlen' hxy]
      simp only [hxy, false_and, or_false]

theorem lt_iff_value_lt {a b : NodeId} : a < b ↔ a.value < b.value :=
  bytes_lt_iff (by rw [a.size_eq, b.size_eq])

theorem value_inj {a b : NodeId} (h : a.value = b.value) : a = b :=
  ext (bigEndian_inj (by rw [a.size_eq, b.size_eq]) h)

/-! ## Prefixes -/

/-- The first bits of a byte that are zero. -/
theorem le_countlZero_iff : ∀ x : UInt8, x ≠ 0 → ∀ j : Fin 9, (j : ℕ) ≤ countlZero x ↔
    x.toNat / 2 ^ (8 - (j : ℕ)) = 0 := by
  intro x hx j
  have hne : x.toNat ≠ 0 := fun h => hx (UInt8.toNat_inj.1 h)
  have hlog : x.toNat.log2 < 8 := (Nat.log2_lt hne).2 x.toNat_lt
  have hj := j.isLt
  rw [countlZero, if_neg hx, Nat.div_eq_zero_iff_lt (by positivity), ← Nat.log2_lt hne]
  omega

theorem xor_div_two_pow_eq_zero {a b k : ℕ} : (a ^^^ b) / 2 ^ k = 0 ↔ a / 2 ^ k = b / 2 ^ k := by
  rw [← Nat.shiftRight_eq_div_pow, ← Nat.shiftRight_eq_div_pow, ← Nat.shiftRight_eq_div_pow,
    Nat.shiftRight_xor_distrib, Nat.xor_eq_zero_iff]

/-- Two bytes share so many leading bits. -/
theorem le_countlZero_xor_iff {x y : UInt8} (hne : x ^^^ y ≠ 0) {j : ℕ} (hj : j ≤ 8) :
    j ≤ countlZero (x ^^^ y) ↔ x.toNat / 2 ^ (8 - j) = y.toNat / 2 ^ (8 - j) := by
  rw [le_countlZero_iff _ hne ⟨j, by omega⟩, UInt8.toNat_xor, xor_div_two_pow_eq_zero]

theorem two_fifty_six_pow (n : ℕ) : 256 ^ n = 2 ^ (8 * n) := by
  rw [pow_mul]
  norm_num

/-- But for bits of the last bytes, a number is its first byte. -/
theorem bigEndian_cons_div (x : UInt8) (xs : Bytes) (k : ℕ) :
    bigEndian (x :: xs) / 2 ^ (8 * xs.length + k) = x.toNat / 2 ^ k := by
  have hlt := bigEndian_lt xs
  rw [bigEndian, pow_add, ← two_fifty_six_pow, ← Nat.div_div_eq_div_mul,
    Nat.mul_comm, Nat.mul_add_div (Nat.pos_of_ne_zero (by positivity)), Nat.div_eq_of_lt hlt,
    Nat.add_zero]

/-- But for bits of the rest, two numbers are the same if they start with the same byte, and
    go on the same. -/
theorem bigEndian_cons_div_eq {x y : UInt8} {xs ys : Bytes} (hlen : xs.length = ys.length) {k : ℕ}
    (hk : k ≤ 8 * xs.length) :
    bigEndian (x :: xs) / 2 ^ k = bigEndian (y :: ys) / 2 ^ k ↔
      x = y ∧ bigEndian xs / 2 ^ k = bigEndian ys / 2 ^ k := by
  obtain ⟨j, hj⟩ := Nat.exists_eq_add_of_le hk
  have hsplit : ∀ (z : UInt8) (zs : Bytes), zs.length = xs.length →
      bigEndian (z :: zs) / 2 ^ k = z.toNat * 2 ^ j + bigEndian zs / 2 ^ k ∧
        bigEndian zs / 2 ^ k < 2 ^ j := by
    intro z zs hzs
    have hlt := bigEndian_lt zs
    rw [hzs, two_fifty_six_pow, hj, pow_add] at hlt
    refine ⟨?_, Nat.div_lt_of_lt_mul hlt⟩
    rw [bigEndian, hzs, two_fifty_six_pow, hj, pow_add, mul_comm (2 ^ k), ← mul_assoc, mul_comm,
      Nat.mul_add_div (by positivity)]
  obtain ⟨hx, hxlt⟩ := hsplit x xs rfl
  obtain ⟨hy, hylt⟩ := hsplit y ys hlen.symm
  rw [hx, hy]
  constructor
  · intro h
    have hquot : ∀ a b : ℕ, b < 2 ^ j → (a * 2 ^ j + b) / 2 ^ j = a := fun a b hb => by
      rw [Nat.mul_comm, Nat.mul_add_div (by positivity), Nat.div_eq_of_lt hb, Nat.add_zero]
    have hxy : x.toNat = y.toNat := by
      rw [← hquot x.toNat _ hxlt, h, hquot y.toNat _ hylt]
    exact ⟨UInt8.toNat_inj.1 hxy, by rw [hxy] at h; omega⟩
  · rintro ⟨rfl, h⟩
    rw [h]

/-- The loop finds so many bits shared if the bytes left are the same but for the others. -/
theorem le_commonPrefixFrom_iff : ∀ {i d : ℕ} {a b : Bytes}, a.length = b.length →
    i + a.length = Size → 8 * i ≤ d → d ≤ Bits →
    (d ≤ commonPrefixFrom i a b ↔ bigEndian a / 2 ^ (Bits - d) = bigEndian b / 2 ^ (Bits - d))
  | _, _, [], [], _, _, _, hd => by simp [commonPrefixFrom, hd]
  | i, d, x :: xs, y :: ys, hlen, hi, hle, hd => by
    have hlen' : xs.length = ys.length := by simpa using hlen
    rw [List.length_cons] at hi
    have hbits : Bits = 160 := rfl
    have hsize : Size = 20 := rfl
    by_cases hshort : d ≤ 8 * (i + 1)
    · -- The bits asked for end in this byte.
      obtain ⟨j, hj⟩ := Nat.exists_eq_add_of_le hle
      have hexp : Bits - d = 8 * xs.length + (8 - j) := by omega
      rw [hexp, bigEndian_cons_div, hlen', bigEndian_cons_div, commonPrefixFrom]
      split_ifs with hne
      · rw [← le_countlZero_xor_iff hne (by omega)]
        omega
      · have hxy : x = y := UInt8.xor_eq_zero_iff.1 (not_not.1 hne)
        subst hxy
        refine iff_of_true ?_ rfl
        -- All bits of this byte are shared, whatever follows.
        have hzero : ∀ {zs : Bytes}, zs.length = xs.length →
            bigEndian zs / 2 ^ (Bits - 8 * (i + 1)) = 0 := fun {zs} hzs => by
          have hlt := bigEndian_lt zs
          rw [hzs, two_fifty_six_pow] at hlt
          rw [show Bits - 8 * (i + 1) = 8 * xs.length by omega]
          exact Nat.div_eq_of_lt hlt
        refine le_trans hshort ((le_commonPrefixFrom_iff hlen' (by omega) le_rfl (by omega)).2 ?_)
        rw [hzero rfl, hzero hlen'.symm]
    · rw [bigEndian_cons_div_eq hlen' (by omega), commonPrefixFrom]
      split_ifs with hne
      · have hlt := countlZero_lt hne
        have hxy : x ≠ y := fun h => hne (UInt8.xor_eq_zero_iff.2 h)
        exact iff_of_false (by omega) fun h => hxy h.1
      · have hxy : x = y := UInt8.xor_eq_zero_iff.1 (not_not.1 hne)
        rw [le_commonPrefixFrom_iff hlen' (by omega) (by omega) hd]
        simp only [hxy, true_and]

/-- Two identifiers share so many leading bits if they are the same number but for the rest. -/
theorem le_commonPrefixLength_iff {a b : NodeId} {d : ℕ} (hd : d ≤ Bits) :
    d ≤ commonPrefixLength a b ↔ a.value / 2 ^ (Bits - d) = b.value / 2 ^ (Bits - d) :=
  le_commonPrefixFrom_iff (by rw [a.size_eq, b.size_eq]) (by rw [a.size_eq, Size]) (Nat.zero_le d)
    hd

/-! ## Masks -/

/-- The first bits of some bytes, and zeros. -/
def maskedFrom (bits : ℕ) : Bytes → Bytes
  | [] => []
  | x :: xs =>
    (if bits ≥ 8 then x else if bits > 0 then x &&& (0xff <<< UInt8.ofNat (8 - bits)) else 0) ::
      maskedFrom (bits - 8) xs

theorem length_maskedFrom : ∀ (bits : ℕ) (xs : Bytes), (maskedFrom bits xs).length = xs.length
  | _, [] => rfl
  | bits, _ :: xs => by rw [maskedFrom, List.length_cons, length_maskedFrom _ xs, List.length_cons]

/-- The first bits of an identifier, and zeros. -/
def maskedTo (id : NodeId) (bits : ℕ) : NodeId where
  bytes := maskedFrom bits id.bytes
  size_eq := by rw [length_maskedFrom, id.size_eq]

/-- A mask takes the low bits off a byte. -/
theorem toNat_and_mask (x : UInt8) {r : ℕ} (hr : 0 < r) (hr8 : r < 8) :
    (x &&& (0xff <<< UInt8.ofNat (8 - r))).toNat = x.toNat / 2 ^ (8 - r) * 2 ^ (8 - r) := by
  obtain ⟨k, hk, hk8⟩ : ∃ k, 8 - r = k ∧ k < 8 := ⟨8 - r, rfl, by omega⟩
  have hmask : (0xff <<< UInt8.ofNat k : UInt8).toNat = (2 ^ 8 - 1) <<< k % 2 ^ 8 := by
    rw [UInt8.toNat_shiftLeft, UInt8.toNat_ofNat', Nat.mod_mod_of_dvd _ (by decide),
      Nat.mod_eq_of_lt hk8]
    rfl
  rw [hk, UInt8.toNat_and, hmask]
  refine Nat.eq_of_testBit_eq fun i => ?_
  rw [Nat.testBit_and, Nat.testBit_mod_two_pow, Nat.testBit_shiftLeft, Nat.testBit_two_pow_sub_one,
    Nat.testBit_mul_two_pow, Nat.testBit_div_two_pow]
  by_cases hi : i < 8
  · by_cases hki : k ≤ i
    · simp [hi, hki, show i - k < 8 by omega]
    · simp [hki]
  · have hx : x.toNat.testBit i = false := Nat.testBit_lt_two_pow
      (x.toNat_lt.trans_le (Nat.pow_le_pow_right two_pos (not_lt.1 hi)))
    simp only [hi, hx, decide_false, Bool.false_and, Bool.and_false]
    by_cases hki : k ≤ i
    · simp [hki, hx]
    · simp [hki]

/-- Masking a byte keeps its first bits. -/
theorem mask_div : ∀ x : UInt8, ∀ j : Fin 8,
    (if (j : ℕ) > 0 then x &&& (0xff <<< UInt8.ofNat (8 - (j : ℕ))) else 0).toNat /
      2 ^ (8 - (j : ℕ)) = x.toNat / 2 ^ (8 - (j : ℕ)) := by
  intro x j
  split_ifs with hj
  · rw [toNat_and_mask x hj j.isLt, Nat.mul_div_cancel _ (by positivity)]
  · rw [Nat.eq_zero_of_not_pos hj, Nat.div_eq_of_lt x.toNat_lt]
    rfl

theorem bigEndian_maskedFrom_div : ∀ {bits : ℕ} {xs : Bytes}, bits ≤ 8 * xs.length →
    bigEndian (maskedFrom bits xs) / 2 ^ (8 * xs.length - bits) =
      bigEndian xs / 2 ^ (8 * xs.length - bits)
  | _, [], _ => rfl
  | bits, x :: xs, h => by
    have hlen := length_maskedFrom (bits - 8) xs
    rw [List.length_cons] at h ⊢
    rw [maskedFrom]
    by_cases hbits : bits ≥ 8
    · rw [if_pos hbits, bigEndian_cons_div_eq hlen (by omega)]
      have hrest := @bigEndian_maskedFrom_div (bits - 8) xs (by omega)
      rw [show 8 * xs.length - (bits - 8) = 8 * (xs.length + 1) - bits by omega] at hrest
      exact ⟨rfl, hrest⟩
    · have hexp : 8 * (xs.length + 1) - bits = 8 * xs.length + (8 - bits) := by omega
      have hmask := mask_div x ⟨bits, by omega⟩
      rw [if_neg hbits, hexp, bigEndian_cons_div, ← hlen, bigEndian_cons_div]
      exact hmask

/-- A mask has the prefix of the identifier. -/
theorem value_maskedTo_div {id : NodeId} {bits : ℕ} (h : bits ≤ Bits) :
    (id.maskedTo bits).value / 2 ^ (Bits - bits) = id.value / 2 ^ (Bits - bits) := by
  have hlen : 8 * id.bytes.length = Bits := by rw [id.size_eq]; rfl
  rw [← hlen] at h ⊢
  exact bigEndian_maskedFrom_div h

end Dht.NodeId
