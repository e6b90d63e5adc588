import Mathlib.Algebra.Polynomial.Div
import Mathlib.Data.ZMod.Basic
import Mathlib.Tactic

/-!
# Cyclic redundancy checks

The remainder of a message, which is a polynomial over the field of two elements, divided by
a generator of degree `w`, in a register of `w` bits. The register is reflected: its lowest
bit is the coefficient of highest degree (`poly`), and so is the lowest bit of the word that
stands for the generator, without its leading term.

The message goes in one bit at a time (`feed`). As a step is linear (`shift_xor`), many steps
are those of the low bits of the register, and the rest of it shifted by as many
(`shift_iterate_split`), which is what tables are of; and a few bits may go in at once
(`feeds_eq_iterate`). What is in the register after a message is the remainder
(`poly_feeds`).
-/

namespace Crc

open Polynomial

variable {w : ℕ} (g : BitVec w)

/-- The register goes on by a place, less the generator if the leading term of it is one more. -/
def shift (r : BitVec w) : BitVec w := if r.getLsbD 0 then (r >>> 1) ^^^ g else r >>> 1

/-- A bit as a word. -/
def bit (w : ℕ) (b : Bool) : BitVec w := (BitVec.ofBool b).setWidth w

/-- A bit of the message goes in. -/
def feed (r : BitVec w) (b : Bool) : BitVec w := shift g (r ^^^ bit w b)

/-- The bits of the message go in, the first one first. -/
def feeds (r : BitVec w) (bits : List Bool) : BitVec w := bits.foldl (feed g) r

/-- Bits as a word, the first one lowest. -/
def word (w : ℕ) : List Bool → BitVec w
  | [] => 0
  | b :: bits => bit w b ^^^ (word w bits <<< 1)

@[simp]
theorem feeds_nil (r : BitVec w) : feeds g r [] = r := rfl

@[simp]
theorem feeds_cons (r : BitVec w) (b : Bool) (bits : List Bool) :
    feeds g r (b :: bits) = feeds g (feed g r b) bits := rfl

@[simp]
theorem feeds_append (r : BitVec w) (bits bits' : List Bool) :
    feeds g r (bits ++ bits') = feeds g (feeds g r bits) bits' := List.foldl_append

@[simp]
theorem getLsbD_bit (b : Bool) (i : ℕ) :
    (bit w b).getLsbD i = (decide (i < w) && (decide (i = 0) && b)) := by
  simp [bit]

/-! ## Many steps at once -/

section Steps

variable (r s : BitVec w)

theorem shift_xor : shift g (r ^^^ s) = shift g r ^^^ shift g s := by
  rw [shift, shift, shift, BitVec.getLsbD_xor, BitVec.ushiftRight_xor_distrib]
  cases r.getLsbD 0 <;> cases s.getLsbD 0
  · rfl
  · exact BitVec.xor_assoc ..
  · exact (BitVec.xor_assoc ..).trans ((congrArg _ (BitVec.xor_comm ..)).trans
      (BitVec.xor_assoc ..).symm)
  · calc r >>> 1 ^^^ s >>> 1
        = r >>> 1 ^^^ s >>> 1 ^^^ (g ^^^ g) := by rw [BitVec.xor_self, BitVec.xor_zero]
      _ = r >>> 1 ^^^ g ^^^ (s >>> 1 ^^^ g) := by ac_rfl

theorem shift_iterate_xor (k : ℕ) :
    (shift g)^[k] (r ^^^ s) = (shift g)^[k] r ^^^ (shift g)^[k] s := by
  induction k generalizing r s with
  | zero => rfl
  | succ k ih =>
    rw [Function.iterate_succ_apply, Function.iterate_succ_apply, Function.iterate_succ_apply,
      shift_xor, ih]

/-- While no bit goes out, the register is only shifted. -/
theorem shift_iterate_of_low {r : BitVec w} {k : ℕ} (h : ∀ i < k, r.getLsbD i = false) :
    (shift g)^[k] r = r >>> k := by
  induction k with
  | zero => exact (BitVec.ushiftRight_zero r).symm
  | succ k ih =>
    have hbit : (r >>> k).getLsbD 0 = false := by
      rw [BitVec.getLsbD_ushiftRight]
      exact h k (Nat.lt_succ_self k)
    rw [Function.iterate_succ_apply', ih fun i hi => h i (Nat.lt_succ_of_lt hi), shift, hbit,
      if_neg Bool.false_ne_true, BitVec.shiftRight_add]

/-- As many steps as the mask has bits depend on the masked bits, and shift the others. -/
theorem shift_iterate_split {mask : BitVec w} {k : ℕ}
    (hmask : ∀ i < w, mask.getLsbD i = decide (i < k)) :
    (shift g)^[k] r = (shift g)^[k] (r &&& mask) ^^^ r >>> k := by
  have hsplit : r = (r &&& mask) ^^^ (r &&& ~~~mask) := by
    ext i hi
    simp only [BitVec.getElem_xor, BitVec.getElem_and, BitVec.getElem_not]
    cases r[i] <;> cases mask[i] <;> rfl
  have hlow : ∀ i < k, (r &&& ~~~mask).getLsbD i = false := by
    intro i hi
    rw [BitVec.getLsbD_and, BitVec.getLsbD_not]
    by_cases hw : i < w
    · simp [hmask i hw, hi]
    · simp [hw]
  have hhigh : (r &&& ~~~mask) >>> k = r >>> k := by
    ext i hi
    rw [BitVec.getElem_ushiftRight, BitVec.getElem_ushiftRight, BitVec.getLsbD_and,
      BitVec.getLsbD_not]
    by_cases hw : k + i < w
    · rw [hmask _ hw]
      simp [hw]
    · rw [BitVec.getLsbD_of_ge r (k + i) (not_lt.1 hw), Bool.false_and]
  conv_lhs => rw [hsplit, shift_iterate_xor, shift_iterate_of_low g hlow, hhigh]

theorem getLsbD_word (bits : List Bool) (i : ℕ) :
    (word w bits).getLsbD i = (decide (i < w) && bits.getD i false) := by
  induction bits generalizing i with
  | nil => simp [word]
  | cons b bits ih =>
    rw [word, BitVec.getLsbD_xor, getLsbD_bit, BitVec.getLsbD_shiftLeft, ih]
    cases i with
    | zero => simp
    | succ i =>
      by_cases hi : i + 1 < w
      · simp [hi, show i < w by omega]
      · simp [hi]

theorem shift_word_cons {bits : List Bool} (h : bits.length < w) :
    shift g (word w bits <<< 1) = word w bits := by
  have hbit : (word w bits <<< 1).getLsbD 0 = false := by simp
  rw [shift, hbit, if_neg Bool.false_ne_true]
  ext i hi
  rw [BitVec.getElem_ushiftRight, BitVec.getLsbD_shiftLeft, ← BitVec.getLsbD_eq_getElem]
  by_cases hw : 1 + i < w
  · simp [hw]
  · have hlow : (word w bits).getLsbD i = false := by
      rw [getLsbD_word, List.getD_eq_getElem?_getD,
        List.getElem?_eq_none (show bits.length ≤ i by omega), Option.getD_none, Bool.and_false]
    rw [hlow]
    simp [hw]

/-- Bits that fit into the register may all go in before the steps for them. -/
theorem feeds_eq_iterate {bits : List Bool} (h : bits.length ≤ w) :
    feeds g r bits = (shift g)^[bits.length] (r ^^^ word w bits) := by
  induction bits generalizing r with
  | nil => exact (BitVec.xor_zero).symm
  | cons b bits ih =>
    have hlt : bits.length < w := h
    rw [feeds_cons, ih _ hlt.le, List.length_cons, Function.iterate_succ_apply, word, feed,
      ← BitVec.xor_assoc, shift_xor g (r ^^^ bit w b), shift_word_cons g hlt]

end Steps

/-! ## Remainders -/

/-- A coefficient. -/
noncomputable def term (b : Bool) (n : ℕ) : (ZMod 2)[X] := if b then X ^ n else 0

/-- The polynomial that a register stands for. -/
noncomputable def poly (r : BitVec w) : (ZMod 2)[X] :=
  ∑ i ∈ Finset.range w, term (r.getLsbD i) (w - 1 - i)

/-- The generator that a word stands for, with its leading term. -/
noncomputable def generator : (ZMod 2)[X] := X ^ w + poly g

/-- The polynomial of a message, whose first bit is the coefficient of highest degree. -/
noncomputable def message : List Bool → (ZMod 2)[X]
  | [] => 0
  | b :: bits => term b bits.length + message bits

theorem term_xor (a b : Bool) (n : ℕ) : term (a ^^ b) n = term a n + term b n := by
  cases a <;> cases b
  · simp [term]
  · simp [term]
  · simp [term]
  · simpa [term] using (CharTwo.add_self_eq_zero (X ^ n : (ZMod 2)[X])).symm

theorem X_pow_mul_term (b : Bool) (m n : ℕ) : X ^ m * term b n = term b (m + n) := by
  cases b
  · exact mul_zero _
  · exact (pow_add X m n).symm

theorem X_mul_term (b : Bool) (n : ℕ) : X * term b n = term b (n + 1) := by
  rw [← pow_one X, X_pow_mul_term, add_comm]

theorem poly_xor (r s : BitVec w) : poly (r ^^^ s) = poly r + poly s := by
  rw [poly, poly, poly, ← Finset.sum_add_distrib]
  refine Finset.sum_congr rfl fun i _ => ?_
  rw [BitVec.getLsbD_xor, term_xor]

theorem degree_poly_lt (r : BitVec w) : (poly r).degree < w := by
  refine (degree_sum_le _ _).trans_lt ((Finset.sup_lt_iff (WithBot.bot_lt_coe w)).2 fun i hi => ?_)
  have hi := Finset.mem_range.1 hi
  rw [term]
  split_ifs
  · rw [degree_X_pow]
    exact Nat.cast_lt.2 (show w - 1 - i < w by omega)
  · rw [degree_zero]
    exact WithBot.bot_lt_coe w

theorem monic_generator : (generator g).Monic := monic_X_pow_add (degree_poly_lt g)

theorem degree_generator : (generator g).degree = w := by
  rw [generator, degree_add_eq_left_of_degree_lt] <;> rw [degree_X_pow]
  exact degree_poly_lt g

/-- A shifted register, and what went out of it. -/
theorem poly_ushiftRight (r : BitVec w) :
    X * poly r = term (r.getLsbD 0) w + poly (r >>> 1) := by
  cases w with
  | zero => simp [poly, term, BitVec.getLsbD_of_ge]
  | succ n =>
    rw [poly, poly, Finset.mul_sum, Finset.sum_range_succ', Finset.sum_range_succ,
      BitVec.getLsbD_ushiftRight, BitVec.getLsbD_of_ge r (1 + n) (by omega), add_comm]
    have hlast : term false (n + 1 - 1 - n) = 0 := rfl
    rw [hlast, add_zero, X_mul_term]
    congr 1
    refine Finset.sum_congr rfl fun i hi => ?_
    have hi := Finset.mem_range.1 hi
    rw [X_mul_term, BitVec.getLsbD_ushiftRight, Nat.add_comm 1 i,
      show n + 1 - 1 - (i + 1) + 1 = n + 1 - 1 - i by omega]

/-- A step multiplies by `X`, up to the generator. -/
theorem generator_dvd_shift (r : BitVec w) : generator g ∣ poly (shift g r) - X * poly r := by
  rw [poly_ushiftRight, shift]
  cases r.getLsbD 0
  · simp [term]
  · refine ⟨1, ?_⟩
    have htwice : poly (r >>> 1) + poly (r >>> 1) = 0 := CharTwo.add_self_eq_zero _
    rw [if_pos rfl, poly_xor, generator, term, if_pos rfl, CharTwo.sub_eq_add]
    linear_combination htwice

/-- A bit that goes in next is a term of the degree of the generator. -/
theorem generator_dvd_bit (b : Bool) : generator g ∣ X * poly (bit w b) - term b w := by
  cases w with
  | zero => simp [generator, poly]
  | succ n =>
    have hshift : bit (n + 1) b >>> 1 = 0 := by
      ext i hi
      rw [BitVec.getElem_ushiftRight, getLsbD_bit]
      simp
    have hpoly : poly (0 : BitVec (n + 1)) = 0 := Finset.sum_eq_zero fun i _ => by
      rw [show (0 : BitVec (n + 1)).getLsbD i = false from BitVec.getLsbD_zero]
      rfl
    rw [poly_ushiftRight, hshift, hpoly, getLsbD_bit]
    simp

/-- After a message there is its remainder in the register, of what was there before it. -/
theorem poly_feeds (r : BitVec w) (bits : List Bool) :
    poly (feeds g r bits) = (X ^ bits.length * poly r + X ^ w * message bits) %ₘ generator g := by
  induction bits generalizing r with
  | nil =>
    rw [feeds_nil, message, mul_zero, add_zero, List.length_nil, pow_zero, one_mul]
    refine ((modByMonic_eq_self_iff (monic_generator g)).2 ?_).symm
    rw [degree_generator]
    exact degree_poly_lt r
  | cons b bits ih =>
    rw [feeds_cons, ih]
    refine modByMonic_eq_of_dvd_sub (monic_generator g) ?_
    have hterm : X ^ bits.length * term b w = X ^ w * term b bits.length := by
      rw [X_pow_mul_term, X_pow_mul_term, add_comm]
    have hdvd := (generator_dvd_shift g (r ^^^ bit w b)).mul_left (X ^ bits.length)
    have hdvd' := (generator_dvd_bit g b).mul_left (X ^ bits.length)
    rw [poly_xor] at hdvd
    rw [message, List.length_cons, feed]
    convert hdvd.add hdvd' using 1
    linear_combination hterm

end Crc
