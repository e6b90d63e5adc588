import Mathlib.Data.List.Nodup
import Mathlib.Data.List.Perm.Subperm
import Mathlib.Tactic

/-!
# Waiting for several replies

Work is split, the replies counted down (`Join.arrive`), and what they amount to reported with
the last one, or at once if there is nothing to wait for (`Join.reports`). If each of the tickets
that were given out comes back once at most, there is one report, when all have, whatever the
order (`reports_of_tickets`).
-/

/-- What is still out, what the replies so far amount to, and what was reported. -/
structure Join (S : Type*) where
  remaining : ℤ
  state : S
  finished : List S := []

namespace Join

variable {S R τ : Type*} (f : S → R → S)

/-- A reply arrives. -/
def arrive (j : Join S) (r : R) : Join S :=
  let state := f j.state r
  let remaining := j.remaining - 1
  { remaining, state, finished := if remaining = 0 then j.finished ++ [state] else j.finished }

/-- No more replies arrive than are out: the report comes with the last one. -/
theorem foldl_arrive (rs : List R) (n : ℕ) (s : S) (hlen : rs.length ≤ n) :
    rs.foldl (arrive f) { remaining := n, state := s } =
      { remaining := n - rs.length
        state := rs.foldl f s
        finished := if 0 < n ∧ rs.length = n then [rs.foldl f s] else [] } := by
  induction rs using List.reverseRecOn with
  | nil =>
    have hnone : ¬(0 < n ∧ ([] : List R).length = n) := by
      rw [List.length_nil]
      omega
    rw [if_neg hnone]
    simp
  | append_singleton rs r ih =>
    rw [List.length_append, List.length_singleton] at hlen
    rw [List.foldl_append, ih (by omega), List.foldl_append, List.foldl_cons, List.foldl_nil,
      List.foldl_cons, List.foldl_nil, arrive, if_neg (by omega), List.length_append,
      List.length_singleton]
    have hlast : (n : ℤ) - rs.length - 1 = 0 ↔ 0 < n ∧ rs.length + 1 = n := by omega
    simp only [hlast, List.nil_append, Join.mk.injEq, and_true]
    push_cast
    ring

theorem length_of_tickets {tickets keys : List τ} (hkeys : keys.Nodup) (hsub : keys ⊆ tickets)
    (htickets : tickets.Nodup) :
    keys.length ≤ tickets.length ∧ (keys.length = tickets.length ↔ tickets ⊆ keys) := by
  have hsubperm := List.subperm_of_subset hkeys hsub
  refine ⟨hsubperm.length_le, fun hlen => ?_, fun h => ?_⟩
  · exact (hsubperm.perm_of_length_le hlen.ge).symm.subset
  · exact le_antisymm hsubperm.length_le (List.subperm_of_subset htickets h).length_le

/-- The reports there are, so many replies being expected. -/
def reports (s : S) (expected : ℕ) (rs : List R) : List S :=
  if expected = 0 then [s] else (rs.foldl (arrive f) { remaining := expected, state := s }).finished

/-- There is a report when all replies are in, and only one. -/
theorem reports_of_length_le {rs : List R} {expected : ℕ} (hle : rs.length ≤ expected) (s : S) :
    reports f s expected rs = if rs.length = expected then [rs.foldl f s] else [] := by
  rw [reports]
  by_cases hnone : expected = 0
  · obtain rfl : rs = [] := List.eq_nil_of_length_eq_zero (by omega)
    rw [if_pos hnone, hnone]
    exact (if_pos List.length_nil).symm
  · rw [if_neg hnone, foldl_arrive f _ _ _ hle]
    exact if_congr (and_iff_right (Nat.pos_of_ne_zero hnone)) rfl rfl

/-- What was given out comes back once at most, in some order: there is a report when all has. -/
theorem reports_of_tickets [DecidableEq τ] {tickets : List τ} (htickets : tickets.Nodup)
    {replies : List (τ × R)} (hreplies : (replies.map Prod.fst).Nodup)
    (hsub : replies.map Prod.fst ⊆ tickets) (s : S) :
    reports f s tickets.length (replies.map Prod.snd) =
      if tickets ⊆ replies.map Prod.fst then [(replies.map Prod.snd).foldl f s] else [] := by
  obtain ⟨hle, hall⟩ := length_of_tickets hreplies hsub htickets
  rw [List.length_map] at hle hall
  rw [reports_of_length_le f (by rwa [List.length_map]), List.length_map]
  exact if_congr hall rfl rfl

end Join
