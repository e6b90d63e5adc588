import DhtCore.NodeId.Order

/-!
# Random identifiers

An identifier that shares its first bits with another one is a random one, its bits copied
one by one (`randomWithPrefix`); what is drawn is given. Bits are counted from the first one
of the first byte, as `commonPrefixLength` does (`le_commonPrefixLength_iff_bit`).
-/

namespace Dht

/-- A bit of a byte, counted from the highest one. -/
def byteBit (x : UInt8) (i : ℕ) : Bool := x.toBitVec.getLsbD (7 - i)

/-- The byte with one bit alone. -/
def bitMask (i : ℕ) : UInt8 := 0x80 >>> UInt8.ofNat (i % 8)

namespace NodeId

/-- A bit of some bytes. -/
def bitFrom (bytes : Bytes) (i : ℕ) : Bool := byteBit (bytes.getD (i / 8) 0) (i % 8)

/-- A bit of an identifier. -/
def bit (id : NodeId) (i : ℕ) : Bool := bitFrom id.bytes i

/-- The identifier with a bit taken from a byte. -/
def withBit (id : NodeId) (i : ℕ) (x : UInt8) : NodeId where
  bytes := id.bytes.set (i / 8) ((id.bytes.getD (i / 8) 0 &&& ~~~bitMask i) ||| (x &&& bitMask i))
  size_eq := by rw [List.length_set, id.size_eq]

/-- A random identifier that starts with so many bits of another one, the next one being
    different if `exact`. -/
def randomWithPrefix (draw base : NodeId) (prefixBits : ℤ) (exact : Bool) : NodeId :=
  let prefixBits := (max 0 (min prefixBits Bits)).toNat
  let id := (List.range prefixBits).foldl
    (fun id bit => id.withBit bit (base.bytes.getD (bit / 8) 0)) draw
  if exact && prefixBits < Bits then
    id.withBit prefixBits (~~~base.bytes.getD (prefixBits / 8) 0)
  else id

/-! ## Bits -/

theorem toBitVec_bitMask (i : ℕ) : (bitMask i).toBitVec = BitVec.twoPow 8 (7 - i % 8) := by
  have hall : ∀ j : Fin 8, (0x80 >>> UInt8.ofNat j : UInt8).toBitVec = BitVec.twoPow 8 (7 - j) := by
    decide
  exact hall ⟨i % 8, Nat.mod_lt i (by decide)⟩

/-- A byte with one bit taken from another one. -/
theorem byteBit_mask (x y : UInt8) {i j : ℕ} (hj : j < 8) :
    byteBit ((x &&& ~~~bitMask i) ||| (y &&& bitMask i)) j =
      if j = i % 8 then byteBit y j else byteBit x j := by
  have hi : i % 8 < 8 := Nat.mod_lt i (by decide)
  rw [byteBit, byteBit, byteBit, UInt8.toBitVec_or, UInt8.toBitVec_and, UInt8.toBitVec_and,
    UInt8.toBitVec_not, toBitVec_bitMask, BitVec.getLsbD_or, BitVec.getLsbD_and,
    BitVec.getLsbD_and, BitVec.getLsbD_not, BitVec.getLsbD_twoPow]
  by_cases heq : j = i % 8
  · rw [if_pos heq, heq]
    simp [show 7 - i % 8 < 8 by omega]
  · rw [if_neg heq]
    simp [show 7 - i % 8 ≠ 7 - j by omega, show 7 - j < 8 by omega]

theorem bit_withBit (id : NodeId) {i : ℕ} (hi : i < Bits) (x : UInt8) (j : ℕ) :
    (id.withBit i x).bit j = if j = i then byteBit x (i % 8) else id.bit j := by
  have hj : j % 8 < 8 := Nat.mod_lt j (by decide)
  have hlt : i / 8 < id.bytes.length := by
    rw [id.size_eq]
    exact Nat.div_lt_of_lt_mul hi
  rw [bit, bit, bitFrom, bitFrom, withBit]
  dsimp only
  by_cases hbyte : j / 8 = i / 8
  · rw [hbyte, List.getD_eq_getElem?_getD, List.getElem?_set_self hlt, Option.getD_some,
      byteBit_mask _ _ hj]
    by_cases heq : j = i
    · rw [if_pos heq, if_pos (by rw [heq]), heq]
    · rw [if_neg heq, if_neg (by omega)]
  · rw [List.getD_eq_getElem?_getD, List.getElem?_set_ne (Ne.symm hbyte),
      ← List.getD_eq_getElem?_getD, if_neg (by rintro rfl; exact hbyte rfl)]

/-! ## Common prefixes, bit by bit -/

/-- Two bytes that differ share the bits before the first one that does. -/
theorem le_countlZero_xor_iff_bit {x y : UInt8} (hne : x ^^^ y ≠ 0) {d : ℕ} (hd : d ≤ 8) :
    d ≤ countlZero (x ^^^ y) ↔ ∀ i < d, byteBit x i = byteBit y i := by
  have hbits (z : UInt8) {i : ℕ} (hi : i < d) :
      byteBit z i = (z.toNat / 2 ^ (8 - d)).testBit (d - 1 - i) := by
    rw [byteBit, Nat.testBit_div_two_pow, show d - 1 - i + (8 - d) = 7 - i by omega]
    rfl
  have hzero (z : UInt8) {n : ℕ} (hn : d ≤ n) : (z.toNat / 2 ^ (8 - d)).testBit n = false := by
    rw [Nat.testBit_div_two_pow]
    exact Nat.testBit_lt_two_pow (z.toNat_lt.trans_le (Nat.pow_le_pow_right two_pos (by omega)))
  rw [le_countlZero_xor_iff hne hd]
  constructor
  · intro h i hi
    rw [hbits x hi, hbits y hi, h]
  · intro h
    refine Nat.eq_of_testBit_eq fun n => ?_
    by_cases hn : n < d
    · have hbit := h (d - 1 - n) (by omega)
      rwa [hbits x (by omega), hbits y (by omega), show d - 1 - (d - 1 - n) = n by omega] at hbit
    · rw [hzero x (not_lt.1 hn), hzero y (not_lt.1 hn)]

theorem bitFrom_cons (x : UInt8) (xs : Bytes) (i : ℕ) :
    bitFrom (x :: xs) i = if i < 8 then byteBit x i else bitFrom xs (i - 8) := by
  rw [bitFrom]
  split_ifs with hi
  · rw [Nat.div_eq_of_lt hi, Nat.mod_eq_of_lt hi, List.getD_cons_zero]
  · obtain ⟨j, rfl⟩ := Nat.exists_eq_add_of_le' (not_lt.1 hi)
    rw [Nat.add_div_right j (by decide), Nat.add_mod_right, List.getD_cons_succ, bitFrom,
      Nat.add_sub_cancel]

theorem le_commonPrefixFrom_iff_bit : ∀ {i d : ℕ} {a b : Bytes}, a.length = b.length →
    i + a.length = Size → 8 * i ≤ d → d ≤ Bits →
    (d ≤ commonPrefixFrom i a b ↔ ∀ k < d - 8 * i, bitFrom a k = bitFrom b k)
  | i, d, [], [], _, hi, hle, hd => by
    rw [List.length_nil, Nat.add_zero] at hi
    have hbits : Bits = 8 * Size := rfl
    exact iff_of_true hd fun k hk => absurd hk (by omega)
  | i, d, x :: xs, y :: ys, hlen, hi, hle, hd => by
    have hlen' : xs.length = ys.length := by simpa using hlen
    rw [List.length_cons] at hi
    have hbits : Bits = 8 * Size := rfl
    simp only [bitFrom_cons]
    rw [commonPrefixFrom]
    split_ifs with hne
    · have hlt := countlZero_lt hne
      -- The bytes differ, so that the bits are of this byte or there are too many.
      by_cases hshort : d - 8 * i ≤ 8
      · have hbyte := le_countlZero_xor_iff_bit hne hshort
        constructor
        · intro h k hk
          rw [if_pos (by omega), if_pos (by omega)]
          exact hbyte.1 (by omega) k hk
        · intro h
          have := hbyte.2 fun k hk => by
            have hk' := h k hk
            rwa [if_pos (by omega), if_pos (by omega)] at hk'
          omega
      · -- A bit of this byte differs.
        refine iff_of_false (by omega) fun h => ?_
        have := (le_countlZero_xor_iff_bit hne le_rfl).2 fun k hk => by
          have hk' := h k (by omega)
          rwa [if_pos hk, if_pos hk] at hk'
        omega
    · have hxy : x = y := UInt8.xor_eq_zero_iff.1 (not_not.1 hne)
      subst hxy
      -- The bytes agree, and the rest of the bits are of those that follow.
      by_cases hshort : d ≤ 8 * (i + 1)
      · have hrest := (le_commonPrefixFrom_iff_bit (i := i + 1) hlen' (by omega) le_rfl
          (by omega)).2 fun k hk => absurd hk (by omega)
        exact iff_of_true (hshort.trans hrest) fun k hk => by
          rw [if_pos (by omega), if_pos (by omega)]
      · rw [le_commonPrefixFrom_iff_bit hlen' (by omega) (by omega) hd]
        constructor
        · intro h k hk
          split_ifs
          · rfl
          · exact h (k - 8) (by omega)
        · intro h k hk
          have hk' := h (k + 8) (by omega)
          rwa [if_neg (by omega), if_neg (by omega), Nat.add_sub_cancel] at hk'

/-- Two identifiers share their first bits. -/
theorem le_commonPrefixLength_iff_bit {a b : NodeId} {d : ℕ} (hd : d ≤ Bits) :
    d ≤ commonPrefixLength a b ↔ ∀ i < d, a.bit i = b.bit i :=
  le_commonPrefixFrom_iff_bit (by rw [a.size_eq, b.size_eq]) (by rw [a.size_eq, Size])
    (Nat.zero_le d) hd

/-! ## The bits of a random identifier -/

/-- The loop copies the first bits. -/
theorem bit_foldl_withBit (base draw : NodeId) {n : ℕ} (hn : n ≤ Bits) (j : ℕ) :
    ((List.range n).foldl (fun id bit => id.withBit bit (base.bytes.getD (bit / 8) 0)) draw).bit j =
      if j < n then base.bit j else draw.bit j := by
  induction n with
  | zero => rfl
  | succ n ih =>
    rw [List.range_succ, List.foldl_append, List.foldl_cons, List.foldl_nil,
      bit_withBit _ (by omega), ih (by omega)]
    by_cases heq : j = n
    · rw [if_pos heq, if_pos (by omega), heq]
      rfl
    · rw [if_neg heq]
      exact if_congr (by omega) rfl rfl

/-- It starts with the bits asked for, and with no more of them if `exact`. -/
theorem commonPrefixLength_randomWithPrefix (draw base : NodeId) (prefixBits : ℤ) (exact : Bool) :
    min prefixBits Bits ≤ commonPrefixLength base (randomWithPrefix draw base prefixBits exact) ∧
      (exact → 0 ≤ prefixBits → prefixBits < Bits →
        commonPrefixLength base (randomWithPrefix draw base prefixBits exact) = prefixBits) := by
  obtain ⟨n, hn, hle⟩ : ∃ n : ℕ, (max 0 (min prefixBits Bits)).toNat = n ∧ n ≤ Bits :=
    ⟨_, rfl, by omega⟩
  have hbits : ∀ j, (randomWithPrefix draw base prefixBits exact).bit j =
      if j < n then base.bit j
      else if j = n ∧ exact ∧ n < Bits then !base.bit n else draw.bit j := fun j => by
    rw [randomWithPrefix, hn]
    by_cases hexact : exact && decide (n < Bits)
    · rw [if_pos hexact]
      rw [Bool.and_eq_true, decide_eq_true_eq] at hexact
      rw [bit_withBit _ hexact.2, bit_foldl_withBit _ _ hle]
      by_cases heq : j = n
      · rw [if_pos heq, if_neg (by omega), if_pos ⟨heq, hexact⟩, byteBit, UInt8.toBitVec_not,
          BitVec.getLsbD_not, decide_eq_true (by omega), Bool.true_and]
        rfl
      · rw [if_neg heq, if_neg (c := j = n ∧ _) fun h => heq h.1]
    · rw [if_neg hexact, bit_foldl_withBit _ _ hle]
      rw [Bool.and_eq_true, decide_eq_true_eq] at hexact
      rw [if_neg (c := j = n ∧ _) fun h => hexact h.2]
  have hshared := (le_commonPrefixLength_iff_bit hle).2 fun i hi =>
    ((hbits i).trans (if_pos hi)).symm
  refine ⟨by omega, fun hexact hpos hlt => ?_⟩
  have hlt' : n < Bits := by omega
  have hno : ¬n + 1 ≤ commonPrefixLength base (randomWithPrefix draw base prefixBits exact) := by
    rw [le_commonPrefixLength_iff_bit hlt']
    intro h
    have hbit := h n (Nat.lt_succ_self n)
    rw [hbits, if_neg (lt_irrefl n), if_pos ⟨rfl, hexact, hlt'⟩] at hbit
    exact absurd hbit.symm (Bool.not_ne_self _)
  omega

end NodeId

end Dht
