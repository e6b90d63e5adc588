import Mathlib.Data.List.Sort
import Mathlib.Tactic

/-!
# Sorting by a comparison

What a library promises of its sorting functions (`Algorithm`), given a comparison that is a
strict weak order (`StrictWeak`): neither is stable, and of what it does not sort a partial
sort promises nothing at all. Where no two elements are equivalent, this is enough to say
what they yield: the first elements of a partial sort are those of the full one
(`Algorithm.take_partialSort`). A list cut into pages is all of them (`flatMap_pages`).
-/

namespace Sorting

open List

variable {α : Type*}

/-- A comparison that is a strict weak order: coming before is asymmetric, and not coming
    before is transitive. -/
structure StrictWeak (lt : α → α → Bool) : Prop where
  asymm : ∀ a b, lt a b → lt b a = false
  trans : ∀ a b c, lt b a = false → lt c b = false → lt c a = false

/-- A list in the order of a comparison: nothing comes before what is ahead of it. -/
def Sorted (lt : α → α → Bool) (l : List α) : Prop := l.Pairwise fun a b => lt b a = false

/-- Sorting functions, and what is promised of them. -/
structure Algorithm (α : Type*) where
  sort : (α → α → Bool) → List α → List α
  /-- Sorts the first elements only, so many of them. -/
  partialSort : (α → α → Bool) → ℕ → List α → List α
  sort_perm : ∀ lt l, sort lt l ~ l
  sorted_sort : ∀ lt l, StrictWeak lt → Sorted lt (sort lt l)
  partialSort_perm : ∀ lt n l, partialSort lt n l ~ l
  sorted_partialSort : ∀ lt n l, StrictWeak lt → Sorted lt ((partialSort lt n l).take n)
  /-- Nothing of the rest comes before what was sorted. -/
  front_le : ∀ lt n l, StrictWeak lt → ∀ a ∈ (partialSort lt n l).take n,
    ∀ b ∈ (partialSort lt n l).drop n, lt b a = false

/-- Such functions: in both cases, one that sorts the whole list. -/
def Algorithm.full (sort : (α → α → Bool) → List α → List α) (perm : ∀ lt l, sort lt l ~ l)
    (sorted : ∀ lt l, StrictWeak lt → Sorted lt (sort lt l)) : Algorithm α where
  sort := sort
  partialSort := fun lt _ => sort lt
  sort_perm := perm
  sorted_sort := sorted
  partialSort_perm := fun lt _ => perm lt
  sorted_partialSort := fun lt n l h => (sorted lt l h).sublist (take_sublist _ _)
  front_le := fun lt n l h a ha b hb => by
    have hsorted := sorted lt l h
    rw [← take_append_drop n (sort lt l), Sorted, pairwise_append] at hsorted
    exact hsorted.2.2 a ha b hb

theorem StrictWeak.total {lt : α → α → Bool} (h : StrictWeak lt) (a b : α) :
    lt b a = false ∨ lt a b = false := by
  cases hab : lt b a with
  | false => exact .inl rfl
  | true => exact .inr (h.asymm b a hab)

/-- A merge sort. -/
def mergeSort (α : Type*) : Algorithm α :=
  .full (fun lt l => l.mergeSort fun a b => !lt b a) (fun _ _ => mergeSort_perm _ _)
    fun lt l h => by
      have hsorted : (l.mergeSort fun a b => !lt b a).Pairwise fun a b => !lt b a :=
        l.pairwise_mergeSort (fun a b c hab hbc => by
            rw [Bool.not_eq_true'] at hab hbc ⊢
            exact h.trans a b c hab hbc)
          fun a b => by simpa using h.total a b
      exact hsorted.imp fun hle => by simpa using hle

/-- An insertion sort. -/
def insertionSort (α : Type*) : Algorithm α :=
  .full (fun lt l => l.insertionSort fun a b => lt b a = false)
    (fun _ _ => perm_insertionSort _ _) fun lt l h => by
      have : Std.Total fun a b => lt b a = false := ⟨h.total⟩
      have : IsTrans α fun a b => lt b a = false := ⟨h.trans⟩
      exact pairwise_insertionSort _ l

/-! ## Comparators -/

/-- A comparator, the other way round if `descending`. -/
def directed (descending : Bool) (cmp : α → α → Ordering) (a b : α) : Ordering :=
  if descending then cmp b a else cmp a b

instance (descending : Bool) (cmp : α → α → Ordering) [Std.TransCmp cmp] :
    Std.TransCmp (directed descending cmp) := by
  cases descending with
  | false => exact inferInstanceAs (Std.TransCmp cmp)
  | true => exact inferInstanceAs (Std.TransCmp fun a b => cmp b a)

/-- Turning the outcome round turns the comparator round. -/
theorem directed_eq_swap (descending : Bool) (cmp : α → α → Ordering) [Std.OrientedCmp cmp]
    (a b : α) : directed descending cmp a b =
      if descending then (cmp a b).swap else cmp a b := by
  rw [directed, ← Std.OrientedCmp.eq_swap]

/-- A total preorder orders: what is less comes before. -/
theorem strictWeak_of_cmp (cmp : α → α → Ordering) [Std.TransCmp cmp] :
    StrictWeak fun a b => cmp a b = .lt where
  asymm a b h := by
    rw [decide_eq_true_eq] at h
    exact decide_eq_false (Std.OrientedCmp.not_lt_of_lt h)
  trans a b c hab hbc := by
    have hle : ∀ {a b : α}, cmp b a ≠ .lt → (cmp a b).isLE := fun {a b} h => by
      refine Std.OrientedCmp.isLE_of_isGE ?_
      cases hba : cmp b a with
      | lt => exact absurd hba h
      | eq => rfl
      | gt => rfl
    rw [decide_eq_false_iff_not] at hab hbc ⊢
    exact Std.OrientedCmp.not_lt_of_isLE (Std.TransCmp.isLE_trans (hle hab) (hle hbc))

/-- Elements are ordered by a key. -/
theorem strictWeak_of_key {κ : Type*} [LinearOrder κ] (f : α → κ) :
    StrictWeak fun a b => decide (f a < f b) where
  asymm a b h := decide_eq_false (lt_asymm (of_decide_eq_true h))
  trans a b c hab hbc := by
    rw [decide_eq_false_iff_not, not_lt] at hab hbc ⊢
    exact hab.trans hbc

/-! ## What sorting yields -/

variable {lt : α → α → Bool} {l l₁ l₂ : List α}

/-- Of elements of which no two are equivalent, there is one list in order. -/
theorem eq_of_sorted (hconn : ∀ a ∈ l, ∀ b ∈ l, lt a b = false → lt b a = false → a = b)
    (h₁ : Sorted lt l₁) (h₂ : Sorted lt l₂) (hp₁ : l₁ ~ l) (hp₂ : l₂ ~ l) : l₁ = l₂ :=
  Perm.eq_of_pairwise
    (fun a b ha hb hba hab => hconn a (hp₁.mem_iff.1 ha) b (hp₂.mem_iff.1 hb) hab hba)
    h₁ h₂ (hp₁.trans hp₂.symm)

/-- The first elements of a partial sort are those of the full sort. -/
theorem Algorithm.take_partialSort (A : Algorithm α) (h : StrictWeak lt)
    (hconn : ∀ a ∈ l, ∀ b ∈ l, lt a b = false → lt b a = false → a = b) (n : ℕ) :
    (A.partialSort lt n l).take n = (A.sort lt l).take n := by
  -- Sorting the rest as well is a full sort.
  have hall : (A.partialSort lt n l).take n ++ A.sort lt ((A.partialSort lt n l).drop n) =
      A.sort lt l := by
    refine eq_of_sorted hconn ?_ (A.sorted_sort lt l h) ?_ (A.sort_perm lt l)
    · refine pairwise_append.2 ⟨A.sorted_partialSort lt n l h, A.sorted_sort lt _ h,
        fun a ha b hb => ?_⟩
      exact A.front_le lt n l h a ha b ((A.sort_perm lt _).mem_iff.1 hb)
    · calc (A.partialSort lt n l).take n ++ A.sort lt ((A.partialSort lt n l).drop n)
          ~ (A.partialSort lt n l).take n ++ (A.partialSort lt n l).drop n :=
            (A.sort_perm lt _).append_left _
        _ = A.partialSort lt n l := take_append_drop n _
        _ ~ l := A.partialSort_perm lt n l
  have hlen : (A.partialSort lt n l).length = l.length := (A.partialSort_perm lt n l).length_eq
  rw [← hall, take_append, take_take, min_self, length_take, hlen]
  rcases le_total n l.length with hn | hn
  · rw [min_eq_left hn, Nat.sub_self, take_zero, append_nil]
  · -- All of it was sorted: there is no rest.
    rw [drop_eq_nil_of_le (hlen.trans_le hn), (A.sort_perm lt []).eq_nil, take_nil, append_nil]

/-- A list is its pages, if there are enough of them. -/
theorem flatMap_pages (m n : ℕ) (l : List α) :
    (range n).flatMap (fun i => (l.drop (i * m)).take m) = l.take (n * m) := by
  induction n with
  | zero => simp
  | succ n ih =>
    rw [range_succ, flatMap_append, ih, flatMap_singleton, Nat.succ_mul, ← take_add]

end Sorting
