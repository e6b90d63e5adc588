import Mathlib.Data.List.Dedup
import Mathlib.Data.List.TakeWhile
import Mathlib.Tactic

/-!
# Runs of a list

A list that is in order is walked through run by run: `runs` takes all the elements that are
the same as the first one, then goes on with the next. Where the elements of a class come
one after the other (`Contiguous`), which is so when the list is in an order that has no
other in between (`contiguous_of_pairwise`), the runs are the classes: each of them once,
and all of it (`runs_eq_classes`).
-/

namespace Runs

open List

variable {α κ : Type*} (same : α → α → Bool)

/-- The runs of the rest of a list, `first` being the first element of the run so far. -/
def runsFrom (first : α) (run : List α) : List α → List (List α)
  | [] => [run]
  | b :: l =>
    if same first b then runsFrom first (run ++ [b]) l else run :: runsFrom b [b] l

/-- The runs of a list: the elements that are the same as the first of them. -/
def runs : List α → List (List α)
  | [] => []
  | a :: l => runsFrom same a [a] l

variable {same} {f : α → κ} {l : List α} {a : α}

theorem runsFrom_eq (a : α) (run : List α) : ∀ l : List α, runsFrom same a run l =
    (run ++ l.takeWhile (same a)) :: runs same (l.dropWhile (same a))
  | [] => by simp [runsFrom, runs]
  | b :: l => by
    rw [runsFrom]
    split_ifs with hb
    · rw [runsFrom_eq a (run ++ [b]) l, takeWhile_cons_of_pos hb, dropWhile_cons_of_pos hb,
        append_assoc, singleton_append]
    · rw [takeWhile_cons_of_neg hb, dropWhile_cons_of_neg hb, append_nil, runs]

theorem runs_cons (a : α) (l : List α) : runs same (a :: l) =
    (a :: l.takeWhile (same a)) :: runs same (l.dropWhile (same a)) :=
  runsFrom_eq a [a] l

/-- The elements of each class come one after the other. -/
def Contiguous (f : α → κ) (l : List α) : Prop :=
  ∀ front a mid c back, l = front ++ a :: (mid ++ c :: back) → f a = f c → ∀ b ∈ mid, f b = f a

theorem Contiguous.of_cons (h : Contiguous f (a :: l)) : Contiguous f l :=
  fun front a' mid c back heq => h (a :: front) a' mid c back (by rw [heq, cons_append])

theorem Contiguous.of_append {front : List α} (h : Contiguous f (front ++ l)) : Contiguous f l := by
  induction front with
  | nil => exact h
  | cons a front ih => exact ih h.of_cons

/-- A list is contiguous in an order in which nothing else is in between. -/
theorem contiguous_of_pairwise {r : α → α → Prop} (h : l.Pairwise r)
    (hconvex : ∀ a ∈ l, ∀ b ∈ l, ∀ c ∈ l, r a b → r b c → f a = f c → f b = f a) :
    Contiguous f l := by
  rintro front a mid c back rfl hac b hb
  have hback := pairwise_cons.1 (pairwise_append.1 h).2.1
  have hmid := pairwise_append.1 hback.2
  refine hconvex a (by simp) b (by simp [hb]) c (by simp) (hback.1 b (mem_append_left _ hb)) ?_ hac
  exact hmid.2.2 b hb c mem_cons_self

/-- After the run of the first element, there are no more of its class. -/
theorem Contiguous.ne_of_mem_dropWhile (h : Contiguous f (a :: l))
    (hsame : ∀ a b, same a b = true ↔ f a = f b) : ∀ b ∈ l.dropWhile (same a), f b ≠ f a := by
  intro b hb heq
  obtain ⟨c, rest, hrest⟩ := exists_cons_of_ne_nil (ne_nil_of_mem hb)
  have hc : ¬same a c := by
    have hnot := head_dropWhile_not (same a) (l := l) (by rw [hrest]; exact cons_ne_nil _ _)
    simpa [hrest] using hnot
  have hcne : f c ≠ f a := fun hca => hc ((hsame a c).2 hca.symm)
  rw [hrest] at hb
  rcases mem_cons.1 hb with rfl | hb
  · exact hcne heq
  · -- What ended the run is in between.
    obtain ⟨mid, back, rfl⟩ := append_of_mem hb
    refine hcne (h [] a (l.takeWhile (same a) ++ c :: mid) b back ?_ heq.symm c (by simp))
    rw [nil_append, append_assoc, cons_append, ← hrest, takeWhile_append_dropWhile]

variable [DecidableEq κ]

/-- The runs are the classes, each once, in the order in which they start. -/
theorem runs_eq_classes (hsame : ∀ a b, same a b = true ↔ f a = f b) (h : Contiguous f l) :
    ∃ keys : List κ, keys.Nodup ∧ keys <+ l.map f ∧ (∀ k, k ∈ keys ↔ k ∈ l.map f) ∧
      runs same l = keys.map fun k => l.filter fun b => f b = k := by
  induction hn : l.length using Nat.strong_induction_on generalizing l with
  | _ n ih =>
    cases l with
    | nil => exact ⟨[], nodup_nil, Sublist.refl _, by simp, rfl⟩
    | cons a l =>
      have hrest := h.ne_of_mem_dropWhile hsame
      have hrun : ∀ b ∈ l.takeWhile (same a), f b = f a := fun b hb =>
        ((hsame a b).1 (mem_takeWhile_imp hb)).symm
      have hcontiguous : Contiguous f (l.dropWhile (same a)) := by
        have hl := h.of_cons
        rw [← takeWhile_append_dropWhile (p := same a) (l := l)] at hl
        exact hl.of_append
      have hlen : (l.dropWhile (same a)).length < n := by
        have hle := (dropWhile_sublist (same a) (l := l)).length_le
        rw [length_cons] at hn
        omega
      obtain ⟨keys, hnodup, hsub, hmem, hruns⟩ := ih _ hlen hcontiguous rfl
      have hl : ∀ p : α → Bool, l.filter p =
          (l.takeWhile (same a)).filter p ++ (l.dropWhile (same a)).filter p := fun p => by
        rw [← filter_append, takeWhile_append_dropWhile]
      have hnot : f a ∉ keys := fun hin => by
        obtain ⟨b, hb, heq⟩ := mem_map.1 ((hmem _).1 hin)
        exact hrest b hb heq
      refine ⟨f a :: keys, nodup_cons.2 ⟨hnot, hnodup⟩,
        (hsub.trans ((dropWhile_sublist _).map f)).cons_cons _, fun k => ?_, ?_⟩
      · rw [mem_cons, hmem, map_cons, mem_cons]
        refine or_congr_right' fun hk => ⟨fun hin => ?_, fun hin => ?_⟩
        · exact map_subset f (dropWhile_sublist _).subset hin
        · obtain ⟨b, hb, rfl⟩ := mem_map.1 hin
          rw [← takeWhile_append_dropWhile (p := same a) (l := l), mem_append] at hb
          exact hb.elim (fun hb => absurd (hrun b hb) hk) mem_map_of_mem
      · rw [runs_cons, hruns, map_cons]
        congr 1
        · -- The run has all of its class, and the rest none.
          rw [filter_cons_of_pos (by simp), hl, filter_eq_self.2 (by simpa using hrun),
            filter_eq_nil_iff.2 (by simpa using hrest), append_nil]
        · refine map_congr_left fun k hk => ?_
          have hne : f a ≠ k := fun heq => hnot (heq ▸ hk)
          have hnone : (l.takeWhile (same a)).filter (fun b => f b = k) = [] := by
            refine filter_eq_nil_iff.2 fun b hb => ?_
            rw [hrun b hb]
            simpa using hne
          rw [filter_cons_of_neg (by simpa using hne), hl, hnone, nil_append]

/-- A run is the class of an element. -/
theorem mem_runs_iff (hsame : ∀ a b, same a b = true ↔ f a = f b) (h : Contiguous f l)
    {run : List α} : run ∈ runs same l ↔ ∃ a ∈ l, run = l.filter fun b => f b = f a := by
  obtain ⟨keys, -, -, hmem, hruns⟩ := runs_eq_classes hsame h
  rw [hruns, mem_map]
  constructor
  · rintro ⟨k, hk, rfl⟩
    obtain ⟨a, ha, rfl⟩ := mem_map.1 ((hmem k).1 hk)
    exact ⟨a, ha, rfl⟩
  · rintro ⟨a, ha, rfl⟩
    exact ⟨f a, (hmem _).2 (mem_map_of_mem ha), rfl⟩

omit [DecidableEq κ] in
/-- The first element of a class is of the class. -/
theorem key_headD {p : α → Bool} (hp : ∀ b, p b = true → f b = f a) (ha : a ∈ l) (hpa : p a)
    (d : α) : f ((l.filter p).headD d) = f a := by
  have hne : l.filter p ≠ [] := ne_nil_of_mem (mem_filter.2 ⟨ha, hpa⟩)
  obtain ⟨b, rest, hb⟩ := exists_cons_of_ne_nil hne
  have hbl : b ∈ l.filter p := hb ▸ mem_cons_self
  rw [hb, headD_cons]
  exact hp b (mem_filter.1 hbl).2

/-- Where what has a property comes first, taking it is filtering it. -/
theorem takeWhile_eq_filter {p : α → Bool} (h : l.Pairwise fun a b => p b → p a) :
    l.takeWhile p = l.filter p := by
  induction l with
  | nil => rfl
  | cons a l ih =>
    rw [pairwise_cons] at h
    by_cases ha : p a
    · rw [takeWhile_cons_of_pos ha, filter_cons_of_pos ha, ih h.2]
    · rw [takeWhile_cons_of_neg ha, filter_cons_of_neg ha, filter_eq_nil_iff.2]
      exact fun b hb hpb => ha (h.1 b hb hpb)

/-- Dropping elements without a property leaves all that have it. -/
theorem filter_dropWhile {p d : α → Bool} (h : ∀ a ∈ l, d a → ¬p a) :
    (l.dropWhile d).filter p = l.filter p := by
  have hnone : (l.takeWhile d).filter p = [] := filter_eq_nil_iff.2 fun a ha =>
    h a ((takeWhile_sublist d).subset ha) (mem_takeWhile_imp ha)
  conv_rhs => rw [← takeWhile_append_dropWhile (p := d) (l := l), filter_append, hnone, nil_append]

omit [DecidableEq κ] in
/-- In the order of a key, all that comes after what is below a bound is not below it. -/
theorem le_of_mem_dropWhile [LinearOrder κ] (h : l.Pairwise fun a b => f a ≤ f b) {k : κ} :
    ∀ b ∈ l.dropWhile (f · < k), k ≤ f b := by
  induction l with
  | nil => simp
  | cons a l ih =>
    rw [pairwise_cons] at h
    by_cases ha : f a < k
    · rw [dropWhile_cons_of_pos (by simpa using ha)]
      exact ih h.2
    · rw [dropWhile_cons_of_neg (by simpa using ha)]
      rw [not_lt] at ha
      exact forall_mem_cons.2 ⟨ha, fun b hb => ha.trans (h.1 b hb)⟩

/-- One element of each run is left: the distinct ones. -/
theorem heads_runs [DecidableEq α] (hsame : ∀ a b, same a b = true ↔ a = b)
    (h : Contiguous id l) : ((runs same l).filterMap head?).Nodup ∧
      ∀ a, a ∈ (runs same l).filterMap head? ↔ a ∈ l := by
  obtain ⟨keys, hnodup, -, hmem, hruns⟩ := runs_eq_classes (f := id) hsame h
  rw [map_id] at hmem
  have hheads : (runs same l).filterMap head? = keys := by
    rw [hruns, filterMap_map]
    conv_rhs => rw [← filterMap_some (l := keys)]
    refine filterMap_congr fun k hk => ?_
    have hkey := key_headD (f := id) (p := fun b => id b = k) (a := k) (l := l)
      (fun b hb => of_decide_eq_true hb) ((hmem k).1 hk) (by simp) k
    have hne : l.filter (fun b => id b = k) ≠ [] :=
      ne_nil_of_mem (mem_filter.2 ⟨(hmem k).1 hk, by simp⟩)
    obtain ⟨b, rest, hb⟩ := exists_cons_of_ne_nil hne
    rw [hb, headD_cons] at hkey
    rw [Function.comp_apply, hb, head?_cons]
    exact congrArg some hkey
  rw [hheads]
  exact ⟨hnodup, hmem⟩

/-- There are as many runs as classes. -/
theorem length_runs (hsame : ∀ a b, same a b = true ↔ f a = f b) (h : Contiguous f l) :
    (runs same l).length = (l.map f).dedup.length := by
  obtain ⟨keys, hnodup, -, hmem, hruns⟩ := runs_eq_classes hsame h
  rw [hruns, length_map]
  exact ((perm_ext_iff_of_nodup hnodup (nodup_dedup _)).2 fun k => by
    rw [hmem, mem_dedup]).length_eq

/-- Of a sorted list, every distinct element makes one run. -/
theorem length_runs_mergeSort [DecidableEq α] [LE α] [DecidableLE α] [Std.IsLinearOrder α]
    (l : List α) :
    (runs (fun a b => a = b) (l.mergeSort (· ≤ ·))).length = l.dedup.length := by
  have hpairwise : (l.mergeSort (· ≤ ·)).Pairwise fun a b => decide (a ≤ b) := by
    refine l.pairwise_mergeSort (fun a b c hab hbc => ?_) fun a b => ?_
    · exact decide_eq_true (Std.le_trans (of_decide_eq_true hab) (of_decide_eq_true hbc))
    · rw [Bool.or_eq_true, decide_eq_true_iff, decide_eq_true_iff]
      exact Std.le_total
  have hsorted : (l.mergeSort (· ≤ ·)).Pairwise (· ≤ ·) := hpairwise.imp of_decide_eq_true
  have hcontiguous : Contiguous id (l.mergeSort (· ≤ ·)) :=
    contiguous_of_pairwise hsorted fun a _ b _ c _ hab hbc hac => by
      obtain rfl : a = c := hac
      exact Std.le_antisymm hbc hab
  have hsame : ∀ a b : α, decide (a = b) = true ↔ id a = id b := fun a b => decide_eq_true_iff
  calc (runs (fun a b => a = b) (l.mergeSort (· ≤ ·))).length
      = ((l.mergeSort (· ≤ ·)).map id).dedup.length := length_runs hsame hcontiguous
    _ = l.dedup.length := by
      rw [map_id]
      exact (mergeSort_perm l _).dedup.length_eq

end Runs
