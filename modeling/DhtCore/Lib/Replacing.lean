import Mathlib.Data.List.AList
import Mathlib.Data.List.Perm.Basic
import Mathlib.Data.List.Nodup
import Mathlib.Tactic

/-!
# Replacing one element of a list

What a list, or the concatenation of a list of lists, holds after one of its
elements has been replaced: everything else is in it as before. Up to
permutation, a list is the element and the rest, and replacing the element keeps
the rest (`exists_rest`, `exists_rest_flatMap`; for an association list,
`entries_perm_of_lookup` and `entries_insert_erase`).

A run of a deterministic system is a fold over its calls; `foldl_invariant`
is the induction over it, and `forall_prefix_iff` says when a property that a
call may break holds in every state of the run.
-/

namespace Replacing

open List

variable {α β : Type*}

/-- Up to permutation, a list is its `i`-th element and a rest that replacing
    the element keeps. -/
theorem exists_rest {l : List α} {i : ℕ} {a : α} (h : l[i]? = some a) :
    ∃ rest, l ~ a :: rest ∧ (∀ b, l.set i b ~ b :: rest) ∧ rest = l.eraseIdx i := by
  obtain ⟨hi, rfl⟩ := List.getElem?_eq_some_iff.1 h
  exact ⟨l.eraseIdx i, (getElem_cons_eraseIdx_perm hi).symm, set_perm_cons_eraseIdx hi, rfl⟩

/-- Up to permutation, a concatenation is the part of the `i`-th element and a
    rest that replacing the element keeps. -/
theorem exists_rest_flatMap {l : List α} {i : ℕ} {a : α} (f : α → List β) (h : l[i]? = some a) :
    ∃ rest, l.flatMap f ~ f a ++ rest ∧ ∀ b, (l.set i b).flatMap f ~ f b ++ rest := by
  obtain ⟨rest, hl, hset, _⟩ := exists_rest h
  refine ⟨rest.flatMap f, ?_, fun b => ?_⟩
  · simpa using hl.flatMap_right f
  · simpa using (hset b).flatMap_right f

/-- Replacing an element by one with the same image leaves the images as they are. -/
theorem map_set_of_eq {l : List α} {i : ℕ} {a b : α} (f : α → β) (h : l[i]? = some a)
    (hf : f b = f a) : (l.set i b).map f = l.map f := by
  obtain ⟨hi, rfl⟩ := List.getElem?_eq_some_iff.1 h
  rw [map_set, hf, ← getElem_map f (h := by simpa using hi), set_getElem_self]

/-- Replacing an element leaves the others. -/
theorem mem_set_of_ne {l : List α} {j : ℕ} {x y a : α} (ha : a ∈ l) (hj : l[j]? = some x)
    (hne : a ≠ x) : a ∈ l.set j y := by
  obtain ⟨rest, hperm, hset, -⟩ := exists_rest hj
  exact (hset y).mem_iff.2 (List.mem_cons_of_mem _
    ((List.mem_cons.1 (hperm.mem_iff.1 ha)).resolve_left hne))

/-! ## Parts of a list, up to permutation -/

theorem subperm_map {l₁ l₂ : List α} (f : α → β) (h : l₁ <+~ l₂) : l₁.map f <+~ l₂.map f := by
  obtain ⟨l, hl, hsub⟩ := h
  exact ⟨l.map f, hl.map f, hsub.map f⟩

theorem nodup_of_subperm {l₁ l₂ : List α} (h : l₁ <+~ l₂) (hnodup : l₂.Nodup) : l₁.Nodup := by
  obtain ⟨l, hl, hsub⟩ := h
  exact hl.nodup_iff.1 (hnodup.sublist hsub)

/-! ## Association lists -/

section AList

variable {γ : α → Type*} [DecidableEq α] {s : AList γ} {a : α} {b : γ a}

/-- Up to permutation, an association list is one of its entries and the others. -/
theorem entries_perm_of_lookup (h : s.lookup a = some b) :
    s.entries ~ ⟨a, b⟩ :: (s.erase a).entries := by
  have hb : ⟨a, b⟩ ∈ s.entries := AList.mem_lookup_iff.1 h
  obtain ⟨b', l₁, l₂, hl₁, hl, herase⟩ := exists_of_kerase (mem_keys_of_mem hb)
  have heq : b' = b := by
    have hb' : (⟨a, b'⟩ : Sigma γ) ∈ s.entries := by rw [hl]; simp
    exact Option.some.inj ((AList.mem_lookup_iff.2 hb').symm.trans h)
  change _ ~ _ :: kerase a s.entries
  rw [herase, hl, heq]
  exact perm_middle

/-- Entering something leaves the other entries as they are. -/
theorem entries_insert_erase : (s.insert a b).entries = ⟨a, b⟩ :: (s.erase a).entries :=
  AList.entries_insert

/-- Where there was no entry, there is nothing to erase. -/
theorem entries_erase_of_lookup_eq_none (h : s.lookup a = none) : (s.erase a).entries = s.entries :=
  kerase_of_notMem_keys (AList.lookup_eq_none.1 h)

/-- What was entered where there was nothing may be erased again. -/
theorem erase_insert (h : a ∉ s) : (s.insert a b).erase a = s := by
  refine AList.ext ?_
  change kerase a (s.insert a b).entries = s.entries
  rw [AList.entries_insert_of_notMem h]
  exact kerase_cons_eq rfl

/-- The association list with the entries that satisfy a predicate. -/
def retain (p : ∀ a, γ a → Bool) (s : AList γ) : AList γ :=
  ⟨s.entries.filter fun e => p e.1 e.2, s.nodupKeys.sublist filter_sublist⟩

theorem lookup_eq_some_iff : s.lookup a = some b ↔ ⟨a, b⟩ ∈ s.entries := AList.mem_lookup_iff

/-- Erasing an entry leaves one less. -/
theorem length_erase (h : a ∈ s) : (s.erase a).entries.length + 1 = s.entries.length := by
  obtain ⟨b, hb⟩ := Option.isSome_iff_exists.1 (AList.lookup_isSome.2 h)
  exact (entries_perm_of_lookup hb).length_eq.symm

/-- Entering something adds an entry, unless there was one. -/
theorem length_insert (b : γ a) :
    (s.insert a b).entries.length = if a ∈ s then s.entries.length else s.entries.length + 1 := by
  rw [entries_insert_erase, List.length_cons]
  split_ifs with h
  · exact length_erase h
  · rw [entries_erase_of_lookup_eq_none (AList.lookup_eq_none.2 h)]

theorem lookup_of_lookup_erase {a' : α} (h : (s.erase a').lookup a = some b) :
    s.lookup a = some b := by
  by_cases hne : a = a'
  · subst hne
    rw [AList.lookup_erase] at h
    cases h
  · rwa [AList.lookup_erase_ne hne] at h

/-- What is found after something was entered is that, or was there before. -/
theorem lookup_insert_cases {β : Type*} {s : AList fun _ : α => β} {a a' : α} {b c : β}
    (h : (s.insert a' b).lookup a = some c) : a = a' ∧ c = b ∨ a ≠ a' ∧ s.lookup a = some c := by
  by_cases hne : a = a'
  · subst hne
    rw [AList.lookup_insert, Option.some.injEq] at h
    exact .inl ⟨rfl, h.symm⟩
  · exact .inr ⟨hne, AList.lookup_insert_ne hne ▸ h⟩

theorem lookup_retain (p : ∀ a, γ a → Bool) (a : α) :
    (retain p s).lookup a = (s.lookup a).filter (p a) := by
  ext b
  rw [Option.filter_eq_some_iff, lookup_eq_some_iff, lookup_eq_some_iff, retain]
  exact List.mem_filter

end AList

/-! ## Runs of a deterministic system -/

variable {σ ι : Type*} {step : σ → ι → σ} {P : σ → Prop}

/-- What holds initially and is kept by every call holds at the end of a run. -/
theorem foldl_invariant {s : σ} (hs : P s) (hstep : ∀ s i, P s → P (step s i)) (l : List ι) :
    P (l.foldl step s) := by
  induction l generalizing s with
  | nil => exact hs
  | cons i l ih => exact ih (hstep s i hs)

/-- What every call of a run meets, call by call. -/
theorem forall_prefix_iff_getElem {s : σ} {C : σ → ι → Prop} {l : List ι} :
    (∀ p i, p ++ [i] <+: l → C (p.foldl step s) i) ↔
      ∀ k : Fin l.length, C ((l.take k).foldl step s) l[k] := by
  constructor
  · intro h k
    refine h _ _ ?_
    rw [Fin.getElem_fin, take_append_getElem k.isLt]
    exact take_prefix _ _
  · rintro h p i ⟨r, rfl⟩
    simpa using h ⟨p.length, by simp⟩

/-- What holds initially, and is kept by every call that meets a condition, holds
    in every state of a run all of whose calls meet it. -/
theorem forall_prefix_of_step {s : σ} {C : σ → ι → Prop} (hs : P s)
    (hstep : ∀ s i, P s → C s i → P (step s i)) {l : List ι}
    (h : ∀ p i, p ++ [i] <+: l → C (p.foldl step s) i) {p : List ι} (hp : p <+: l) :
    P (p.foldl step s) := by
  induction p using List.reverseRecOn with
  | nil => exact hs
  | append_singleton p i ih =>
    rw [foldl_append]
    exact hstep _ i (ih ((prefix_append p [i]).trans hp)) (h p i hp)

/-- A property that a call keeps exactly when the call meets a condition holds in
    every state of a run exactly when every call of it meets the condition. -/
theorem forall_prefix_iff {s : σ} {C : σ → ι → Prop} {I : σ → Prop} (hI : I s) (hP : P s)
    (hIstep : ∀ s i, I s → I (step s i)) (hstep : ∀ s i, I s → P s → (P (step s i) ↔ C s i))
    (l : List ι) :
    (∀ p, p <+: l → P (p.foldl step s)) ↔ ∀ p i, p ++ [i] <+: l → C (p.foldl step s) i := by
  constructor
  · intro h p i hp
    have hpre : P (p.foldl step s) := h p ((prefix_append p [i]).trans hp)
    have hnext : P ((p ++ [i]).foldl step s) := h _ hp
    rw [foldl_append] at hnext
    exact (hstep _ i (foldl_invariant hI hIstep p) hpre).1 hnext
  · intro h p hp
    exact (forall_prefix_of_step (P := fun s => I s ∧ P s) ⟨hI, hP⟩
      (fun s i hs hC => ⟨hIstep s i hs.1, (hstep s i hs.1 hs.2).2 hC⟩) h hp).2

end Replacing
