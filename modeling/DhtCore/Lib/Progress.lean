import Mathlib.Order.WellFounded
import Mathlib.Tactic

/-!
# Progress

A system that takes step after step, driven by an endless sequence of events (`states`).
While it is busy, a rank in a well-founded order may only fall, or stay while the system
waits. If it never waits for ever, it is done at last (`exists_done`), and busy until then
(`exists_first_done`).
-/

namespace Progress

variable {σ ε β : Type*}

/-- The states that events lead to, one after the other. -/
def states (apply : σ → ε → σ) (s : σ) (events : ℕ → ε) : ℕ → σ
  | 0 => s
  | n + 1 => apply (states apply s events n) (events n)

/-- What holds first and is kept by every event holds at all times. -/
theorem states_induction {apply : σ → ε → σ} {s : σ} {events : ℕ → ε} {p : σ → Prop} (h : p s)
    (hstep : ∀ n s, p s → p (apply s (events n))) : ∀ n, p (states apply s events n)
  | 0 => h
  | n + 1 => hstep n _ (states_induction h hstep n)

variable [Preorder β] [WellFoundedLT β] (s : ℕ → σ) (busy : σ → Prop) (waits : σ → σ → Prop)
  (rank : σ → β)

/-- A busy system that waits, or gets on by its rank, is done at last if it does not wait
    for ever. -/
theorem exists_done
    (hstep : ∀ n, busy (s n) → busy (s (n + 1)) → rank (s (n + 1)) < rank (s n) ∨
      rank (s (n + 1)) ≤ rank (s n) ∧ waits (s n) (s (n + 1)))
    (hfair : ∀ n, ¬∀ m ≥ n, busy (s m) ∧ waits (s m) (s (m + 1))) (n : ℕ) :
    ∃ m ≥ n, ¬busy (s m) := by
  induction hr : rank (s n) using WellFoundedLT.induction generalizing n with
  | _ r ih =>
    by_contra hbusy
    push Not at hbusy
    obtain ⟨m, hm, hnot⟩ : ∃ m ≥ n, ¬waits (s m) (s (m + 1)) := by
      by_contra hwaits
      push Not at hwaits
      exact hfair n fun m hm => ⟨hbusy m hm, hwaits m hm⟩
    -- Up to the first step at which it does not wait, the rank does not rise.
    have hle : ∀ k, n ≤ k → rank (s k) ≤ rank (s n) := by
      intro k hk
      induction k, hk using Nat.le_induction with
      | base => exact le_rfl
      | succ k hk ihk =>
        have hkstep := hstep k (hbusy k hk) (hbusy (k + 1) (by omega))
        exact (hkstep.elim le_of_lt And.left).trans ihk
    have hlt : rank (s (m + 1)) < rank (s m) :=
      (hstep m (hbusy m hm) (hbusy (m + 1) (by omega))).resolve_right fun h => hnot h.2
    obtain ⟨k, hk, hdone⟩ := ih _ (hr ▸ hlt.trans_le (hle m hm)) (m + 1) rfl
    exact hdone (hbusy k (by omega))

/-- The system is busy until it is done. -/
theorem exists_first_done (h : ∀ n, ∃ m ≥ n, ¬busy (s m)) (n : ℕ) :
    ∃ m ≥ n, ¬busy (s m) ∧ ∀ k, n ≤ k → k < m → busy (s k) := by
  classical
  obtain ⟨hm, hdone⟩ := Nat.find_spec (h n)
  refine ⟨Nat.find (h n), hm, hdone, fun k hk hlt => ?_⟩
  by_contra hnot
  exact Nat.find_min (h n) hlt ⟨hk, hnot⟩

end Progress
