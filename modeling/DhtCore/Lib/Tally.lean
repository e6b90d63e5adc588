import Mathlib.Algebra.BigOperators.Group.List.Lemmas
import Mathlib.Algebra.Group.Basic
import Mathlib.Data.List.AList
import Mathlib.Tactic.Abel

/-!
# Tallies

What each key weighs (`Tally`), added up as keys come. Adding a weight adds it to what the
keys of any kind weigh together, if its key is of the kind (`weigh_add`), whatever order the
keys are kept in; and so does adding the weights of a list (`weigh_addAll`), as when two
tallies are added or when the keys of one are taken together.
-/

/-- What each key weighs, of those that were counted. -/
abbrev Tally (κ M : Type) := AList fun _ : κ => M

namespace Tally

open List

variable {κ M : Type} [AddCommMonoid M]

/-- The keys, and what each weighs. -/
def toList (t : Tally κ M) : List (κ × M) := t.entries.map fun e => (e.1, e.2)

/-- What the keys of a kind weigh. -/
def weigh (p : κ → Bool) (t : Tally κ M) : M :=
  (t.toList.map fun e => if p e.1 then e.2 else 0).sum

/-- What all keys weigh. -/
def total (t : Tally κ M) : M := t.weigh fun _ => true

theorem sum_toList (t : Tally κ M) : (t.toList.map (·.2)).sum = t.total := rfl

theorem weigh_empty (p : κ → Bool) : (∅ : Tally κ M).weigh p = 0 := rfl

/-- Adding up the keys of a kind alone yields what they weigh. -/
theorem sum_filter_toList (p : κ → Bool) (t : Tally κ M) :
    ((t.toList.filter fun e => p e.1).map (·.2)).sum = t.weigh p := by
  rw [weigh]
  induction t.toList with
  | nil => rfl
  | cons e l ih =>
    rw [filter_cons, map_cons, sum_cons, ← ih]
    split_ifs
    · rw [map_cons, sum_cons]
    · rw [zero_add]

variable [DecidableEq κ]

/-- What a key weighs. -/
def count (t : Tally κ M) (k : κ) : M := (t.lookup k).getD 0

/-- A weight more for a key. -/
def add (t : Tally κ M) (k : κ) (w : M) : Tally κ M := t.insert k (t.count k + w)

/-- The weights of a list more. -/
def addAll (t : Tally κ M) (l : List (κ × M)) : Tally κ M := l.foldl (fun t p => t.add p.1 p.2) t

variable (p : κ → Bool) (t : Tally κ M) (k : κ) (w : M)

theorem weigh_add : (t.add k w).weigh p = t.weigh p + if p k then w else 0 := by
  have hentries : (t.add k w).entries = ⟨k, t.count k + w⟩ :: kerase k t.entries := rfl
  rw [weigh, weigh, toList, toList, hentries, map_cons, map_cons, sum_cons]
  by_cases hk : k ∈ t.entries.keys
  · obtain ⟨v, front, back, -, hl, herase⟩ := exists_of_kerase hk
    have hcount : t.count k = v := by
      have hmem : (⟨k, v⟩ : Sigma fun _ : κ => M) ∈ t.entries := hl ▸ by simp
      rw [count, AList.mem_lookup_iff.2 hmem]
      rfl
    rw [herase, hcount, hl]
    simp only [map_append, map_cons, sum_append, sum_cons]
    split_ifs
    · abel
    · abel
  · have hcount : t.count k = 0 := by
      rw [count, AList.lookup_eq_none.2 hk]
      rfl
    rw [kerase_of_notMem_keys hk, hcount, zero_add, add_comm]

theorem total_add : (t.add k w).total = t.total + w := t.weigh_add _ k w

theorem weigh_addAll (l : List (κ × M)) : (t.addAll l).weigh p =
    t.weigh p + (l.map fun e => if p e.1 then e.2 else 0).sum := by
  induction l generalizing t with
  | nil => exact (add_zero _).symm
  | cons e l ih => rw [addAll, foldl_cons, ← addAll, ih, weigh_add, map_cons, sum_cons, add_assoc]

/-- Adding a tally adds what it weighs. -/
theorem weigh_addAll_toList (o : Tally κ M) :
    (t.addAll o.toList).weigh p = t.weigh p + o.weigh p :=
  t.weigh_addAll p _

theorem count_empty : (∅ : Tally κ M).count k = 0 := rfl

theorem count_add (k' : κ) :
    (t.add k w).count k' = if k' = k then t.count k + w else t.count k' := by
  rw [add, count]
  split_ifs with hk
  · rw [hk, AList.lookup_insert]
    rfl
  · rw [AList.lookup_insert_ne hk]
    rfl

theorem count_addAll (l : List (κ × M)) : (t.addAll l).count k =
    t.count k + (l.map fun e => if e.1 = k then e.2 else 0).sum := by
  induction l generalizing t with
  | nil => exact (add_zero _).symm
  | cons e l ih =>
    rw [addAll, foldl_cons, ← addAll, ih, count_add, map_cons, sum_cons, ← add_assoc]
    by_cases hk : k = e.1
    · rw [if_pos hk, if_pos hk.symm, hk]
    · rw [if_neg hk, if_neg (Ne.symm hk), add_zero]

theorem mem_add (k' : κ) : k' ∈ t.add k w ↔ k' = k ∨ k' ∈ t := AList.mem_insert _

/-- The keys are those that were added. -/
theorem mem_addAll (l : List (κ × M)) : k ∈ t.addAll l ↔ k ∈ t ∨ ∃ e ∈ l, e.1 = k := by
  induction l generalizing t with
  | nil => simp [addAll]
  | cons e l ih =>
    rw [addAll, foldl_cons, ← addAll, ih, mem_add, or_comm (a := k = e.1), or_assoc]
    simp only [mem_cons, exists_eq_or_imp, eq_comm (a := k)]

end Tally
