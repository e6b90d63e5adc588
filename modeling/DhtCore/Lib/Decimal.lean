import Mathlib.Data.Fin.Basic
import Mathlib.Tactic

/-!
# Decimal notation

A numeral is a list of decimal digits, the most significant one first. It stands
for a number (`value`); the number has one numeral without leading zeros
(`digits`), which is the only `Canonical` one for it (`digits_value`).
-/

namespace Decimal

/-- A decimal numeral. -/
abbrev Numeral := List (Fin 10)

/-- The number read so far, `n`, with more digits after it. -/
def valueFrom (n : ℕ) : Numeral → ℕ
  | [] => n
  | d :: ds => valueFrom (n * 10 + d) ds

/-- The number a numeral stands for. -/
def value (ds : Numeral) : ℕ := valueFrom 0 ds

/-- The numeral of a number. -/
def digits (n : ℕ) : Numeral :=
  if n < 10 then [Fin.ofNat 10 n] else digits (n / 10) ++ [Fin.ofNat 10 (n % 10)]

/-- A numeral without leading zeros. -/
structure Canonical (ds : Numeral) : Prop where
  ne_nil : ds ≠ []
  head_ne_zero : 1 < ds.length → ds.head? ≠ some 0

instance (ds : Numeral) : Decidable (Canonical ds) :=
  decidable_of_iff (ds ≠ [] ∧ (1 < ds.length → ds.head? ≠ some 0))
    ⟨fun h => ⟨h.1, h.2⟩, fun h => ⟨h.1, h.2⟩⟩

variable {n : ℕ} {ds : Numeral}

/-! ## The value of a numeral -/

@[simp]
theorem valueFrom_nil : valueFrom n [] = n := rfl

@[simp]
theorem valueFrom_cons (d : Fin 10) : valueFrom n (d :: ds) = valueFrom (n * 10 + d) ds := rfl

@[simp]
theorem valueFrom_append (es : Numeral) :
    valueFrom n (ds ++ es) = valueFrom (valueFrom n ds) es := by
  induction ds generalizing n with
  | nil => rfl
  | cons d ds ih => exact ih

/-- More digits only make it larger. -/
theorem le_valueFrom : n ≤ valueFrom n ds := by
  induction ds generalizing n with
  | nil => exact le_rfl
  | cons d ds ih =>
    have hle := ih (n := n * 10 + d)
    rw [valueFrom_cons]
    omega

@[simp]
theorem value_singleton (d : Fin 10) : value [d] = d := by simp [value]

@[simp]
theorem value_append_singleton (d : Fin 10) : value (ds ++ [d]) = value ds * 10 + d := by
  simp [value]

/-- A numeral that starts with a digit other than zero stands for a positive number. -/
theorem value_pos (hne : ds ≠ []) (hhead : ds.head? ≠ some 0) : 0 < value ds := by
  cases ds with
  | nil => exact absurd rfl hne
  | cons d ds =>
    have hd : (d : ℕ) ≠ 0 := fun h => hhead (congrArg some (Fin.ext h))
    have hle : (d : ℕ) ≤ value (d :: ds) := by
      rw [value, valueFrom_cons, Nat.zero_mul, Nat.zero_add]
      exact le_valueFrom
    omega

/-! ## The numeral of a number -/

theorem digits_of_lt (h : n < 10) : digits n = [Fin.ofNat 10 n] := by rw [digits, if_pos h]

theorem digits_of_le (h : 10 ≤ n) : digits n = digits (n / 10) ++ [Fin.ofNat 10 (n % 10)] := by
  rw [digits, if_neg (by omega)]

theorem digits_ne_nil (n : ℕ) : digits n ≠ [] := by
  rw [digits]
  split_ifs <;> simp

@[simp]
theorem value_digits (n : ℕ) : value (digits n) = n := by
  induction n using Nat.strong_induction_on with
  | _ n ih =>
    rcases lt_or_ge n 10 with h | h
    · rw [digits_of_lt h, value_singleton, Fin.val_ofNat, Nat.mod_eq_of_lt h]
    · rw [digits_of_le h, value_append_singleton, ih (n / 10) (by omega), Fin.val_ofNat]
      omega

/-- The first digit of a number other than zero is not zero. -/
theorem head_digits (h : 0 < n) : (digits n).head? ≠ some 0 := by
  induction n using Nat.strong_induction_on with
  | _ n ih =>
    rcases lt_or_ge n 10 with hlt | hge
    · rw [digits_of_lt hlt, List.head?_cons, ne_eq, Option.some.injEq, Fin.ext_iff, Fin.val_ofNat,
        Nat.mod_eq_of_lt hlt]
      exact h.ne'
    · rw [digits_of_le hge, List.head?_append_of_ne_nil _ (digits_ne_nil _)]
      exact ih (n / 10) (by omega) (by omega)

theorem canonical_digits (n : ℕ) : Canonical (digits n) where
  ne_nil := digits_ne_nil n
  head_ne_zero h := by
    refine head_digits (Nat.pos_of_ne_zero ?_)
    rintro rfl
    simp [digits_of_lt] at h

/-- A numeral without leading zeros is the one of its number. -/
theorem digits_value (h : Canonical ds) : digits (value ds) = ds := by
  induction ds using List.reverseRecOn with
  | nil => exact absurd rfl h.ne_nil
  | append_singleton ds d ih =>
    rw [value_append_singleton]
    rcases eq_or_ne ds [] with rfl | hne
    · have hd : value [] * 10 + d = d := by simp [value]
      rw [hd, digits_of_lt d.isLt]
      exact congrArg (· :: []) (Fin.ext (Nat.mod_eq_of_lt d.isLt))
    · -- All but the last digit are canonical too, and stand for a positive number.
      have hlen := List.length_pos_iff.2 hne
      have hhead : ds.head? ≠ some 0 := by
        rw [← List.head?_append_of_ne_nil ds hne]
        exact h.head_ne_zero (by simpa using hlen)
      have hpos := value_pos hne hhead
      rw [digits_of_le (by omega), show (value ds * 10 + d) / 10 = value ds by omega,
        ih ⟨hne, fun _ => hhead⟩]
      refine congrArg (ds ++ [·]) (Fin.ext ?_)
      rw [Fin.val_ofNat]
      omega

/-- How many digits a number has. -/
theorem length_digits_le_iff {k : ℕ} : (digits n).length ≤ k + 1 ↔ n < 10 ^ (k + 1) := by
  induction k generalizing n with
  | zero =>
    rcases lt_or_ge n 10 with h | h
    · simp [digits_of_lt h, h]
    · have hlen := List.length_pos_iff.2 (digits_ne_nil (n / 10))
      rw [digits_of_le h, List.length_append, List.length_singleton]
      omega
  | succ k ih =>
    rcases lt_or_ge n 10 with h | h
    · have hpow : 10 ≤ 10 ^ (k + 1 + 1) := Nat.le_self_pow (by omega) 10
      rw [digits_of_lt h, List.length_singleton]
      omega
    · rw [digits_of_le h, List.length_append, List.length_singleton, Nat.add_le_add_iff_right, ih,
        Nat.pow_succ 10 (k + 1)]
      omega

end Decimal
