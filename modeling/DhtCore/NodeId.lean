import Mathlib.Tactic

/-!
# Node identifiers

A `NodeId` is 160 bits, held as `Size` bytes, most significant first; node IDs
and infohashes alike. Two functions of it drive the rest of the engine:

* `NodeId.closer`: the XOR metric, comparing two identifiers by their distance
  to a target, byte by byte;
* `NodeId.commonPrefixLength`: the number of leading bits two identifiers share,
  which is the bucket of a routing table.

The metric is a comparison of numbers (`closer_iff`): `distance` reads the XOR
with the target as one big-endian number, and identifies its argument
(`distance_inj`). Two identifiers share all their bits only if they are equal
(`commonPrefixLength_eq_bits`).
-/

namespace Dht

/-- Raw bytes (`QByteArray`). -/
abbrev Bytes := List UInt8

/-- The number of leading zero bits of a byte (`std::countl_zero`). -/
def countlZero (x : UInt8) : ℕ := if x = 0 then 8 else 7 - x.toNat.log2

theorem countlZero_lt {x : UInt8} (hx : x ≠ 0) : countlZero x < 8 := by
  rw [countlZero, if_neg hx]
  omega

/-- A 160-bit Kademlia identifier: `Size` bytes, most significant first. -/
structure NodeId where
  bytes : Bytes
  size_eq : bytes.length = 20
  deriving DecidableEq

namespace NodeId

/-- The number of bytes of an identifier. -/
def Size : ℕ := 20

/-- The number of bits of an identifier. -/
def Bits : ℕ := Size * 8

/-- The identifier of `Size` bytes, if there are that many. -/
def fromBytes (bytes : Bytes) : Option NodeId :=
  if h : bytes.length = Size then some ⟨bytes, h⟩ else none

/-- The bytes of an identifier. -/
def toBytes (id : NodeId) : Bytes := id.bytes

@[simp]
theorem fromBytes_toBytes (id : NodeId) : fromBytes id.toBytes = some id := dif_pos id.size_eq

instance : Inhabited NodeId := ⟨⟨List.replicate 20 0, rfl⟩⟩

theorem length_ones : (List.replicate 20 (1 : UInt8)).length = 20 := rfl

@[ext]
theorem ext {a b : NodeId} (h : a.bytes = b.bytes) : a = b := by
  cases a
  cases b
  simpa using h

/-- The bitwise exclusive or of two identifiers. -/
def xor (a b : NodeId) : NodeId where
  bytes := List.zipWith (· ^^^ ·) a.bytes b.bytes
  size_eq := by simp [a.size_eq, b.size_eq]

/-- The loop of `commonPrefixLength` over the bytes from the `i`-th on. -/
def commonPrefixFrom (i : ℕ) : Bytes → Bytes → ℕ
  | a :: as, b :: bs =>
    let x := a ^^^ b
    if x ≠ 0 then i * 8 + countlZero x else commonPrefixFrom (i + 1) as bs
  | _, _ => Bits

/-- The number of leading bits `a` and `b` share. -/
def commonPrefixLength (a b : NodeId) : ℕ := commonPrefixFrom 0 a.bytes b.bytes

/-- The loop of `closer`: the first byte at which the two distances to the
    target differ decides. -/
def closerFrom : Bytes → Bytes → Bytes → Bool
  | t :: ts, a :: as, b :: bs =>
    let da := a ^^^ t
    let db := b ^^^ t
    if da ≠ db then da < db else closerFrom ts as bs
  | _, _, _ => false

/-- Whether `a` is strictly closer to `target` than `b` under the XOR metric. -/
def closer (target a b : NodeId) : Bool := closerFrom target.bytes a.bytes b.bytes

/-! ## The metric as a comparison of numbers -/

/-- Bytes read as one big-endian number. -/
def bigEndian : Bytes → ℕ
  | [] => 0
  | x :: xs => x.toNat * 256 ^ xs.length + bigEndian xs

/-- The XOR distance of two identifiers, as a number. -/
def distance (target a : NodeId) : ℕ := bigEndian (a.xor target).bytes

theorem bigEndian_lt : ∀ xs : Bytes, bigEndian xs < 256 ^ xs.length
  | [] => by simp [bigEndian]
  | x :: xs => by
    have ih := bigEndian_lt xs
    have hx : x.toNat ≤ 255 := Nat.le_of_lt_succ x.toNat_lt
    calc bigEndian (x :: xs) < x.toNat * 256 ^ xs.length + 256 ^ xs.length := by
          simpa [bigEndian] using ih
      _ = (x.toNat + 1) * 256 ^ xs.length := by ring
      _ ≤ 256 * 256 ^ xs.length := Nat.mul_le_mul_right _ (by omega)
      _ = 256 ^ (x :: xs).length := by rw [List.length_cons, pow_succ]; ring

/-- The leading byte decides a comparison unless it is the same. -/
theorem bigEndian_cons_lt {x y : UInt8} {xs ys : Bytes} (hlen : xs.length = ys.length)
    (hxy : x ≠ y) : bigEndian (x :: xs) < bigEndian (y :: ys) ↔ x < y := by
  have hx := bigEndian_lt xs
  have hy := bigEndian_lt ys
  rw [← hlen] at hy
  simp only [bigEndian, ← hlen, UInt8.lt_iff_toNat_lt]
  have hne : x.toNat ≠ y.toNat := fun h => hxy (UInt8.toNat_inj.1 h)
  constructor
  · intro h
    by_contra hlt
    have hle : y.toNat + 1 ≤ x.toNat := by omega
    have := Nat.mul_le_mul_right (256 ^ xs.length) hle
    rw [Nat.add_mul, one_mul] at this
    omega
  · intro h
    have hle : x.toNat + 1 ≤ y.toNat := h
    have := Nat.mul_le_mul_right (256 ^ xs.length) hle
    rw [Nat.add_mul, one_mul] at this
    omega

theorem bigEndian_inj : ∀ {xs ys : Bytes}, xs.length = ys.length →
    bigEndian xs = bigEndian ys → xs = ys
  | [], [], _, _ => rfl
  | x :: xs, y :: ys, hlen, h => by
    have hlen' : xs.length = ys.length := by simpa using hlen
    by_cases hxy : x = y
    · subst hxy
      have h' : bigEndian xs = bigEndian ys := by simpa [bigEndian, hlen'] using h
      rw [bigEndian_inj hlen' h']
    · have h₁ : ¬x < y := fun hlt => (((bigEndian_cons_lt hlen' hxy).2 hlt).ne h).elim
      have h₂ : ¬y < x := fun hlt =>
        (((bigEndian_cons_lt hlen'.symm (Ne.symm hxy)).2 hlt).ne h.symm).elim
      rw [UInt8.lt_iff_toNat_lt] at h₁ h₂
      exact absurd (UInt8.toNat_inj.1 (by omega)) hxy

theorem closerFrom_iff : ∀ {t a b : Bytes}, a.length = t.length → b.length = t.length →
    (closerFrom t a b ↔ bigEndian (List.zipWith (· ^^^ ·) a t) <
      bigEndian (List.zipWith (· ^^^ ·) b t))
  | [], [], [], _, _ => by simp [closerFrom]
  | t :: ts, a :: as, b :: bs, ha, hb => by
    have ha' : as.length = ts.length := by simpa using ha
    have hb' : bs.length = ts.length := by simpa using hb
    have hlen : (List.zipWith (· ^^^ ·) as ts).length = (List.zipWith (· ^^^ ·) bs ts).length := by
      simp [ha', hb']
    simp only [closerFrom, List.zipWith_cons_cons]
    by_cases hd : a ^^^ t = b ^^^ t
    · rw [if_neg (by simpa using hd), closerFrom_iff ha' hb']
      simp [bigEndian, hd, ha', hb']
    · rw [if_pos hd, bigEndian_cons_lt hlen hd]
      simp

/-- Being strictly closer is being at a smaller distance. -/
theorem closer_iff {target a b : NodeId} :
    closer target a b ↔ distance target a < distance target b :=
  closerFrom_iff (by rw [a.size_eq, target.size_eq]) (by rw [b.size_eq, target.size_eq])

theorem xor_cancel : ∀ {t a b : Bytes}, a.length = t.length → b.length = t.length →
    List.zipWith (· ^^^ ·) a t = List.zipWith (· ^^^ ·) b t → a = b
  | [], [], [], _, _, _ => rfl
  | t :: ts, a :: as, b :: bs, ha, hb, h => by
    simp only [List.zipWith_cons_cons, List.cons.injEq] at h
    have hab : a = b := by
      have := congrArg (· ^^^ t) h.1
      simpa [UInt8.xor_assoc] using this
    rw [hab, xor_cancel (by simpa using ha) (by simpa using hb) h.2]

/-- No two identifiers are at the same distance to a target. -/
theorem distance_inj {target a b : NodeId} (h : distance target a = distance target b) : a = b := by
  have hlen : (a.xor target).bytes.length = (b.xor target).bytes.length := by
    rw [(a.xor target).size_eq, (b.xor target).size_eq]
  exact ext (xor_cancel (by rw [a.size_eq, target.size_eq]) (by rw [b.size_eq, target.size_eq])
    (bigEndian_inj hlen h))

/-! ## Common prefixes -/

/-- The loop ends within the bytes left: at `Bits` if they agree, before otherwise. -/
theorem commonPrefixFrom_spec : ∀ {i : ℕ} {a b : Bytes}, a.length = b.length →
    i + a.length = Size →
    commonPrefixFrom i a b ≤ Bits ∧ (commonPrefixFrom i a b = Bits ↔ a = b)
  | _, [], [], _, _ => by simp [commonPrefixFrom]
  | i, a :: as, b :: bs, hlen, hi => by
    simp only [List.length_cons] at hlen hi
    obtain ⟨hle, hiff⟩ := commonPrefixFrom_spec (i := i + 1) (a := as) (b := bs)
        (by omega) (by omega)
    by_cases hx : a ^^^ b = 0
    · have hab : a = b := UInt8.xor_eq_zero_iff.1 hx
      simp only [commonPrefixFrom, hx, ne_eq, not_true_eq_false, ↓reduceIte]
      exact ⟨hle, by rw [hiff]; simp [hab]⟩
    · have hne : a ≠ b := fun h => hx (UInt8.xor_eq_zero_iff.2 h)
      have hlt := countlZero_lt hx
      simp only [commonPrefixFrom, ne_eq, hx, not_false_eq_true, ↓reduceIte, Bits]
      refine ⟨by omega, ⟨fun h => by omega, fun h => absurd ?_ hne⟩⟩
      simpa using congrArg List.head? h

/-- Only an identifier itself shares all its bits. -/
theorem commonPrefixLength_eq_bits {a b : NodeId} : commonPrefixLength a b = Bits ↔ a = b :=
  ((commonPrefixFrom_spec (by rw [a.size_eq, b.size_eq]) (by rw [a.size_eq, Size])).2).trans
    ⟨ext, fun h => h ▸ rfl⟩

end NodeId

end Dht
