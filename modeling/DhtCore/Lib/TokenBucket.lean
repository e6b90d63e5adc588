import Mathlib.Tactic

/-!
# Token buckets

A bucket holds up to `cap` tokens and gains `rate` of them per unit of time; a
charge takes one. Its state is how many tokens were left at the last charge, and
when that was, or nothing while the bucket has never been charged and is full.
`tokensAt` is what it holds at a time, and `after` its state after charges.

* Filling a bucket up in between changes nothing (`tokensAt_tokensAt`), nor does
  forgetting one that is full again (`tokensAt_eq_cap`).
* If every charge was paid for by a whole token (`Paid`), the tokens never fall
  below zero (`Paid.tokensAt_nonneg`), and in any window of time there are no
  more charges than a full bucket and what it gains in the window
  (`Paid.countP_window_le`).
-/

namespace TokenBucket

open List

variable {K : Type*} [Field K] [LinearOrder K]

/-- The tokens of a bucket at a time. -/
def tokensAt (cap rate : K) : Option (K × K) → K → K
  | none, _ => cap
  | some (tokens, last), now => min cap (tokens + (now - last) * rate)

/-- A bucket after a charge. -/
def charge (cap rate : K) (s : Option (K × K)) (now : K) : Option (K × K) :=
  some (tokensAt cap rate s now - 1, now)

/-- A bucket that was full, after charges at some times. -/
def after (cap rate : K) (log : List K) : Option (K × K) := log.foldl (charge cap rate) none

/-- Charges in the order of time, each paid for by a whole token. -/
inductive Paid (cap rate : K) : List K → Prop
  | nil : Paid cap rate []
  | snoc (log : List K) (t : K) : Paid cap rate log → (∀ x ∈ log, x ≤ t) →
    1 ≤ tokensAt cap rate (after cap rate log) t → Paid cap rate (log ++ [t])

variable {cap rate : K} {s : Option (K × K)} {log : List K} {t now : K}

@[simp]
theorem after_nil : after cap rate [] = none := rfl

@[simp]
theorem after_append (log : List K) (t : K) :
    after cap rate (log ++ [t]) = charge cap rate (after cap rate log) t := by
  rw [after, foldl_append]
  rfl

theorem tokensAt_le_cap (cap rate : K) (s : Option (K × K)) (now : K) :
    tokensAt cap rate s now ≤ cap := by
  rcases s with - | ⟨tokens, last⟩
  · exact le_rfl
  · exact min_le_left _ _

variable [IsStrictOrderedRing K]

/-- Filling a bucket up changes nothing of what it holds later. -/
theorem tokensAt_tokensAt (cap : K) (s : Option (K × K)) (hrate : 0 ≤ rate) (h : t ≤ now) :
    tokensAt cap rate (some (tokensAt cap rate s t, t)) now = tokensAt cap rate s now := by
  have hgain : 0 ≤ (now - t) * rate := mul_nonneg (sub_nonneg.2 h) hrate
  rcases s with - | ⟨tokens, last⟩
  · exact min_eq_left (le_add_of_nonneg_right hgain)
  · rw [tokensAt, tokensAt, tokensAt, min_add, ← min_assoc,
      min_eq_left (le_add_of_nonneg_right hgain)]
    congr 1
    ring

/-- After as long as it takes to gain a full bucket, a bucket is full. -/
theorem tokensAt_eq_cap {tokens last : K} (htokens : 0 ≤ tokens) (h : cap ≤ (now - last) * rate) :
    tokensAt cap rate (some (tokens, last)) now = cap :=
  min_eq_left (h.trans (le_add_of_nonneg_left htokens))

/-- The tokens only grow with time. -/
theorem tokensAt_mono (hrate : 0 ≤ rate) (h : t ≤ now) :
    tokensAt cap rate s t ≤ tokensAt cap rate s now := by
  rcases s with - | ⟨tokens, last⟩
  · exact le_rfl
  · exact min_le_min_left _ (add_le_add_right
      (mul_le_mul_of_nonneg_right (sub_le_sub_right h _) hrate) _)

/-- A charge takes one token. -/
theorem tokensAt_charge_self (s : Option (K × K)) (t : K) :
    tokensAt cap rate (charge cap rate s t) t = tokensAt cap rate s t - 1 := by
  rw [charge, tokensAt, sub_self, zero_mul, add_zero]
  exact min_eq_right (by linarith [tokensAt_le_cap cap rate s t])

/-- The tokens never fall below zero. -/
theorem Paid.tokensAt_nonneg (h : Paid cap rate log) (hrate : 0 ≤ rate) (hcap : 0 ≤ cap)
    (hlast : ∀ x ∈ log, x ≤ now) : 0 ≤ tokensAt cap rate (after cap rate log) now := by
  cases h with
  | nil => exact hcap
  | snoc log t _ _ hpaid =>
    have ht : t ≤ now := hlast t (by simp)
    rw [after_append]
    exact le_min hcap (add_nonneg (sub_nonneg.2 hpaid) (mul_nonneg (sub_nonneg.2 ht) hrate))

/-- Since any time, the charges and what is left are no more than a full bucket
    and what it gained. -/
theorem Paid.countP_add_tokensAt_le (h : Paid cap rate log) (hrate : 0 ≤ rate)
    (hlast : ∀ x ∈ log, x ≤ now) (ht : t ≤ now) :
    (log.countP (t ≤ ·) : K) + tokensAt cap rate (after cap rate log) now ≤
      cap + (now - t) * rate := by
  induction h generalizing t now with
  | nil =>
    simp only [countP_nil, Nat.cast_zero, zero_add]
    exact le_add_of_nonneg_right (mul_nonneg (sub_nonneg.2 ht) hrate)
  | snoc log x hlog hle hpaid ih =>
    have hx : x ≤ now := hlast x (by simp)
    rw [countP_append, countP_singleton, after_append]
    have hleft : tokensAt cap rate (charge cap rate (after cap rate log) x) now ≤
        tokensAt cap rate (after cap rate log) x - 1 + (now - x) * rate := min_le_right _ _
    by_cases htx : t ≤ x
    · -- The charge at `x` is one more of those counted, and one token less.
      have hbefore := ih hle htx
      rw [if_pos (decide_eq_true htx)]
      push_cast
      have hsum : (x - t) * rate + (now - x) * rate = (now - t) * rate := by ring
      linarith
    · have hnone : log.countP (t ≤ ·) = 0 := by
        rw [countP_eq_zero]
        intro y hy
        simpa using lt_of_le_of_lt (hle y hy) (not_le.1 htx)
      rw [if_neg (by simpa using htx), hnone]
      simp only [Nat.cast_zero, zero_add]
      exact (tokensAt_le_cap ..).trans
        (le_add_of_nonneg_right (mul_nonneg (sub_nonneg.2 ht) hrate))

/-- In any window of time there are no more charges than a full bucket and what
    it gains in the window. -/
theorem Paid.countP_window_le (h : Paid cap rate log) (hrate : 0 ≤ rate) (hcap : 0 ≤ cap) (t : K)
    {w : K} (hw : 0 ≤ w) :
    (log.countP (fun x => t ≤ x ∧ x ≤ t + w) : K) ≤ cap + w * rate := by
  induction h with
  | nil =>
    simp only [countP_nil, Nat.cast_zero]
    exact add_nonneg hcap (mul_nonneg hw hrate)
  | snoc log x hlog hle hpaid ih =>
    by_cases hx : t ≤ x ∧ x ≤ t + w
    · -- All charges so far are at most at `x`, in the window or before it.
      have hcount : (log ++ [x]).countP (fun x => t ≤ x ∧ x ≤ t + w) =
          (log ++ [x]).countP (t ≤ ·) := by
        refine countP_congr fun y hy => ?_
        have hyx : y ≤ x := by
          rcases mem_append.1 hy with hy | hy
          · exact hle y hy
          · exact (mem_singleton.1 hy).le
        simpa using fun _ => hyx.trans hx.2
      have hpaid' : Paid cap rate (log ++ [x]) := .snoc log x hlog hle hpaid
      have hlast : ∀ y ∈ log ++ [x], y ≤ x := fun y hy => by
        rcases mem_append.1 hy with hy | hy
        · exact hle y hy
        · exact (mem_singleton.1 hy).le
      have hsince := hpaid'.countP_add_tokensAt_le hrate hlast hx.1
      have hnonneg := hpaid'.tokensAt_nonneg hrate hcap hlast
      have hgain : (x - t) * rate ≤ w * rate :=
        mul_le_mul_of_nonneg_right (by linarith [hx.2]) hrate
      rw [hcount]
      linarith
    · rw [countP_append, countP_singleton, if_neg (by simpa using hx)]
      exact ih

end TokenBucket
