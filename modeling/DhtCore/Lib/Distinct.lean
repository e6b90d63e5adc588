import Mathlib.Data.List.Nodup
import Mathlib.Tactic

/-!
# Distinct elements

The distinct elements of a list, in the order in which they come first (`List.eraseDups`), as the
list grows at its end (`eraseDups_concat`), and the first so many of them (`first_concat`).
-/

namespace Distinct

variable {α : Type*} [DecidableEq α] {l : List α}

theorem eraseDups_concat (l : List α) (a : α) :
    (l ++ [a]).eraseDups = if a ∈ l then l.eraseDups else l.eraseDups ++ [a] := by
  have hone : [a].eraseDups = [a] := by rw [List.eraseDups_cons, List.filter_nil]; rfl
  rw [List.eraseDups_append]
  split_ifs with hmem
  · simp [List.removeAll, hmem]
  · simp [List.removeAll, hmem, hone]

theorem nodup_eraseDups (l : List α) : l.eraseDups.Nodup := by
  induction l using List.reverseRecOn with
  | nil => exact List.nodup_nil
  | append_singleton l a ih =>
    rw [eraseDups_concat]
    split_ifs with hmem
    · exact ih
    · refine List.nodup_append'.2 ⟨ih, List.nodup_singleton a, ?_⟩
      rwa [List.disjoint_singleton, List.mem_eraseDups]

/-- The first so many distinct elements. -/
def first (n : ℕ) (l : List α) : List α := l.eraseDups.take n

theorem mem_of_mem_first {n : ℕ} {a : α} (h : a ∈ first n l) : a ∈ l :=
  List.mem_eraseDups.1 (List.mem_of_mem_take h)

/-- If there is room, all are among the first. -/
theorem mem_first_of_lt {n : ℕ} {a : α} (hlt : (first n l).length < n) (h : a ∈ l) :
    a ∈ first n l := by
  have hle : l.eraseDups.length ≤ n := by
    rw [first, List.length_take] at hlt
    omega
  rw [first, List.take_of_length_le hle]
  exact List.mem_eraseDups.2 h

/-- An element that comes last is one of the first if it is already, or there is room for it. -/
theorem first_concat (n : ℕ) (l : List α) (a : α) :
    first n (l ++ [a]) =
      if a ∈ first n l ∨ n ≤ (first n l).length then first n l else first n l ++ [a] := by
  rw [first, eraseDups_concat]
  by_cases hfull : n ≤ l.eraseDups.length
  · have hlength : (first n l).length = n := List.length_take_of_le hfull
    have hnot : a ∈ first n l ∨ n ≤ (first n l).length := .inr hlength.ge
    rw [if_pos hnot]
    split_ifs
    · rfl
    · exact List.take_append_of_le_length hfull
  · have hall : first n l = l.eraseDups := List.take_of_length_le (by omega)
    by_cases hmem : a ∈ l
    · have hnot : a ∈ first n l ∨ n ≤ (first n l).length := .inl (hall ▸ List.mem_eraseDups.2 hmem)
      rw [if_pos hmem, if_pos hnot]
      rfl
    · have hnot : ¬(a ∈ first n l ∨ n ≤ (first n l).length) := by
        rw [hall, List.mem_eraseDups]
        exact not_or.2 ⟨hmem, hfull⟩
      rw [if_neg hmem, if_neg hnot, hall]
      refine List.take_of_length_le ?_
      rw [List.length_append, List.length_singleton]
      omega

end Distinct
