import Mathlib.Data.List.DropRight
import Mathlib.Data.List.Infix
import Mathlib.Tactic

/-!
# Thinning

A bounded record keeps its newest elements as they are. Once it is full, neighbours in the
older part are merged (`thin`), unless the newer of them stands apart from what is before it;
if there is nothing to merge, the oldest one goes.

What an element was merged from is a tree (`Merged`). The same record of trees (`trees`) tells
of every element what it was merged from (`map_value_trees`): whatever a merge does, the
leaves of the trees are an unbroken stretch of what was added, up to its end
(`flatMap_leaves_trees`).
-/

namespace Thinning

open List

variable {α β : Type*} (merge : α → α → α) (apart : α → Bool) (keep cap : ℕ)

/-- The elements, those that are neighbours merged in twos. -/
def mergeNeighbours : List α → List α
  | a :: b :: rest =>
    if apart b then a :: mergeNeighbours (b :: rest) else merge a b :: mergeNeighbours rest
  | l => l

/-- The neighbours that are merged. -/
def neighbours : List α → List (α × α)
  | a :: b :: rest => if apart b then neighbours (b :: rest) else (a, b) :: neighbours rest
  | _ => []

/-- Makes room in a record that is over its cap. -/
def thin (l : List α) : List α :=
  let older := l.length - keep
  let out := mergeNeighbours merge apart (l.take older) ++ l.drop older
  out.drop (out.length - cap)

/-- Adds an element to a record. -/
def add (l : List α) (a : α) : List α :=
  let l := l ++ [a]
  if l.length > cap then thin merge apart keep cap l else l

/-- The record of what was added. -/
def record (added : List α) : List α := added.foldl (add merge apart keep cap) []

variable {merge apart keep cap} {l : List α} {a b : α}

/-! ## Merging neighbours -/

/-- Nothing is merged if all stand apart. -/
theorem mergeNeighbours_eq_self (h : ∀ a ∈ l.tail, apart a = true) :
    mergeNeighbours merge apart l = l := by
  induction l with
  | nil => rfl
  | cons a l ih =>
    cases l with
    | nil => rfl
    | cons b rest =>
      rw [mergeNeighbours, if_pos (h b mem_cons_self), ih fun c hc => h c (mem_cons_of_mem _ hc)]

theorem neighbours_eq_nil_iff : neighbours apart l = [] ↔ ∀ a ∈ l.tail, apart a = true := by
  induction l with
  | nil => simp [neighbours]
  | cons a l ih =>
    cases l with
    | nil => simp [neighbours]
    | cons b rest =>
      rw [neighbours, tail_cons, forall_mem_cons]
      by_cases hb : apart b
      · rw [if_pos hb, ih]
        simp [hb]
      · rw [if_neg hb]
        simp [hb]

/-- The newer of those that are merged does not stand apart. -/
theorem apart_of_mem_neighbours {p : α × α} (hp : p ∈ neighbours apart l) : apart p.2 = false := by
  fun_induction neighbours apart l with
  | case1 a b rest hb ih => exact ih hp
  | case2 a b rest hb ih =>
    rcases mem_cons.1 hp with rfl | hp
    · exact Bool.eq_false_of_not_eq_true hb
    · exact ih hp
  | case3 => exact absurd hp not_mem_nil

theorem mem_of_mem_neighbours {p : α × α} (hp : p ∈ neighbours apart l) : p.1 ∈ l ∧ p.2 ∈ l := by
  fun_induction neighbours apart l with
  | case1 a b rest hb ih => exact ⟨mem_cons_of_mem _ (ih hp).1, mem_cons_of_mem _ (ih hp).2⟩
  | case2 a b rest hb ih =>
    rcases mem_cons.1 hp with rfl | hp
    · exact ⟨mem_cons_self, mem_cons_of_mem _ mem_cons_self⟩
    · exact ⟨mem_cons_of_mem _ (mem_cons_of_mem _ (ih hp).1),
        mem_cons_of_mem _ (mem_cons_of_mem _ (ih hp).2)⟩
  | case3 => exact absurd hp not_mem_nil

theorem merge_mem {p : α × α} (hp : p ∈ neighbours apart l) :
    merge p.1 p.2 ∈ mergeNeighbours merge apart l := by
  fun_induction mergeNeighbours merge apart l with
  | case1 a b rest hb ih =>
    rw [neighbours, if_pos hb] at hp
    exact mem_cons_of_mem _ (ih hp)
  | case2 a b rest hb ih =>
    rw [neighbours, if_neg hb] at hp
    rcases mem_cons.1 hp with rfl | hp
    · exact mem_cons_self
    · exact mem_cons_of_mem _ (ih hp)
  | case3 l hl =>
    rcases l with _ | ⟨a, _ | ⟨b, rest⟩⟩
    · exact absurd hp not_mem_nil
    · exact absurd hp not_mem_nil
    · exact absurd rfl (hl a b rest)

/-- Every merge makes one of two. -/
theorem length_mergeNeighbours (merge : α → α → α) (apart : α → Bool) (l : List α) :
    (mergeNeighbours merge apart l).length + (neighbours apart l).length = l.length := by
  fun_induction mergeNeighbours merge apart l with
  | case1 a b rest hb ih =>
    rw [neighbours, if_pos hb, length_cons, length_cons]
    omega
  | case2 a b rest hb ih =>
    rw [neighbours, if_neg hb, length_cons, length_cons, length_cons, length_cons]
    omega
  | case3 l hl =>
    rcases l with _ | ⟨a, _ | ⟨b, rest⟩⟩
    · rfl
    · rfl
    · exact absurd rfl (hl a b rest)

theorem mergeNeighbours_map (f : β → α) {merge' : β → β → β} {apart' : β → Bool}
    (hmerge : ∀ a b, f (merge' a b) = merge (f a) (f b)) (hapart : ∀ a, apart (f a) = apart' a)
    (l : List β) :
    mergeNeighbours merge apart (l.map f) = (mergeNeighbours merge' apart' l).map f := by
  fun_induction mergeNeighbours merge' apart' l with
  | case1 a b rest hb ih =>
    rw [map_cons, map_cons, mergeNeighbours, if_pos (by rwa [hapart]), map_cons, ← ih, map_cons]
  | case2 a b rest hb ih =>
    rw [map_cons, map_cons, mergeNeighbours, if_neg (by rwa [hapart]), map_cons, ← ih, hmerge]
  | case3 l hl =>
    rcases l with _ | ⟨a, _ | ⟨b, rest⟩⟩
    · rfl
    · rfl
    · exact absurd rfl (hl a b rest)

/-- What two elements have together is kept when they are merged. -/
theorem flatMap_mergeNeighbours {f : α → List β} (h : ∀ a b, f (merge a b) = f a ++ f b)
    (l : List α) : (mergeNeighbours merge apart l).flatMap f = l.flatMap f := by
  fun_induction mergeNeighbours merge apart l with
  | case1 a b rest hb ih => rw [flatMap_cons, ih, ← flatMap_cons]
  | case2 a b rest hb ih =>
    rw [flatMap_cons, ih, h, flatMap_cons, flatMap_cons, append_assoc]
  | case3 l hl => rfl

theorem forall_mergeNeighbours {P : α → Prop} (h : ∀ a ∈ l, P a)
    (hmerge : ∀ p ∈ neighbours apart l, P p.1 → P p.2 → P (merge p.1 p.2)) :
    ∀ a ∈ mergeNeighbours merge apart l, P a := by
  fun_induction mergeNeighbours merge apart l with
  | case1 a b rest hb ih =>
    rw [neighbours, if_pos hb] at hmerge
    rw [forall_mem_cons] at h ⊢
    exact ⟨h.1, ih h.2 hmerge⟩
  | case2 a b rest hb ih =>
    rw [neighbours, if_neg hb, forall_mem_cons] at hmerge
    rw [forall_mem_cons, forall_mem_cons] at h
    rw [forall_mem_cons]
    exact ⟨hmerge.1 h.1 h.2.1, ih h.2.2 hmerge.2⟩
  | case3 l hl => exact h

/-! ## What an element was merged from -/

/-- What an element was merged from. -/
inductive Merged (α : Type*)
  | one (a : α)
  | both (older newer : Merged α)

namespace Merged

variable (merge) (apart)

/-- What was added. -/
def leaves : Merged α → List α
  | one a => [a]
  | both s t => s.leaves ++ t.leaves

/-- What the merges make of it. -/
def value : Merged α → α
  | one a => a
  | both s t => merge s.value t.value

/-- Whether the oldest of it stands apart. -/
def standsApart : Merged α → Bool
  | one a => apart a
  | both s _ => s.standsApart

variable {merge} {apart} {t : Merged α}

theorem leaves_ne_nil (t : Merged α) : t.leaves ≠ [] := by
  induction t with
  | one a => exact cons_ne_nil _ _
  | both s t ihs _ => exact append_ne_nil_of_left_ne_nil ihs _

theorem standsApart_eq (t : Merged α) :
    t.standsApart apart = apart (t.leaves.head t.leaves_ne_nil) := by
  induction t with
  | one a => rfl
  | both s t ihs _ =>
    rw [standsApart, ihs]
    simp only [leaves, head_append_of_ne_nil s.leaves_ne_nil]

theorem apart_value (h : ∀ a b, apart (merge a b) = apart a) (t : Merged α) :
    apart (t.value merge) = t.standsApart apart := by
  induction t with
  | one a => rfl
  | both s t ihs _ => exact (h _ _).trans ihs

/-- None of what was merged stands apart, but for the oldest. -/
def Joined (apart : α → Bool) (t : Merged α) : Prop := ∀ a ∈ t.leaves.tail, apart a = false

theorem joined_one (a : α) : Joined apart (one a) := fun _ h => absurd h not_mem_nil

theorem Joined.both {s t : Merged α} (hs : Joined apart s) (ht : Joined apart t)
    (hjoin : t.standsApart apart = false) : Joined apart (both s t) := by
  intro a ha
  rw [leaves, tail_append_of_ne_nil s.leaves_ne_nil, mem_append] at ha
  rcases ha with ha | ha
  · exact hs a ha
  · rw [← cons_head_tail t.leaves_ne_nil, mem_cons] at ha
    rcases ha with rfl | ha
    · rwa [standsApart_eq] at hjoin
    · exact ht a ha

end Merged

/-- The record of trees. -/
def trees (apart : α → Bool) (keep cap : ℕ) (added : List α) : List (Merged α) :=
  record .both (Merged.standsApart apart) keep cap (added.map .one)

theorem record_append (added : List α) (a : α) : record merge apart keep cap (added ++ [a]) =
    add merge apart keep cap (record merge apart keep cap added) a := by
  rw [record, foldl_append]
  rfl

theorem trees_append (added : List α) (a : α) : trees apart keep cap (added ++ [a]) =
    add .both (Merged.standsApart apart) keep cap (trees apart keep cap added) (.one a) := by
  rw [trees, map_append, map_singleton, record_append]
  rfl

theorem thin_map (f : β → α) {merge' : β → β → β} {apart' : β → Bool}
    (hmerge : ∀ a b, f (merge' a b) = merge (f a) (f b)) (hapart : ∀ a, apart (f a) = apart' a)
    (l : List β) :
    thin merge apart keep cap (l.map f) = (thin merge' apart' keep cap l).map f := by
  simp only [thin, length_map, ← map_take, ← map_drop, mergeNeighbours_map f hmerge hapart,
    ← map_append]

theorem add_map (f : β → α) {merge' : β → β → β} {apart' : β → Bool}
    (hmerge : ∀ a b, f (merge' a b) = merge (f a) (f b)) (hapart : ∀ a, apart (f a) = apart' a)
    (l : List β) (b : β) : add merge apart keep cap (l.map f) (f b) =
      (add merge' apart' keep cap l b).map f := by
  simp only [add, ← map_singleton, ← map_append, length_map]
  split_ifs
  · exact thin_map f hmerge hapart _
  · rfl

/-- The record holds what the trees make. -/
theorem map_value_trees (h : ∀ a b, apart (merge a b) = apart a) (added : List α) :
    (trees apart keep cap added).map (Merged.value merge) = record merge apart keep cap added := by
  induction added using reverseRecOn with
  | nil => rfl
  | append_singleton added a ih =>
    rw [trees_append, record_append, ← ih]
    exact (add_map (Merged.value merge) (fun _ _ => rfl) (Merged.apart_value h) _ _).symm

/-! ## What a record keeps -/

/-- What adding an element does: if that makes it too many, some are merged, or else the
    oldest one goes. -/
theorem add_cases (merge : α → α → α) (apart : α → Bool) (keep : ℕ) (hl : l.length ≤ cap) (a : α) :
    let l' := l ++ [a]
    let older := l'.take (l'.length - keep)
    l'.length ≤ cap ∧ add merge apart keep cap l a = l' ∨
    l'.length = cap + 1 ∧ neighbours apart older ≠ [] ∧
      add merge apart keep cap l a =
        mergeNeighbours merge apart older ++ l'.drop (l'.length - keep) ∨
    l'.length = cap + 1 ∧ neighbours apart older = [] ∧ add merge apart keep cap l a = l'.tail := by
  intro l' older
  have hlength : l'.length = l.length + 1 := by rw [length_append, length_singleton]
  have hadd : add merge apart keep cap l a = if l'.length > cap then
      (mergeNeighbours merge apart older ++ l'.drop (l'.length - keep)).drop
        ((mergeNeighbours merge apart older).length + (l'.drop (l'.length - keep)).length - cap)
      else l' := by
    rw [← length_append]
    rfl
  have hcount : older.length + (l'.drop (l'.length - keep)).length = l'.length := by
    rw [← length_append, take_append_drop]
  have hsplit : older ++ l'.drop (l'.length - keep) = l' := take_append_drop ..
  have hmerged := length_mergeNeighbours merge apart older
  rw [hadd]
  clear_value l' older
  by_cases hfull : l'.length > cap
  · rw [if_pos hfull]
    right
    by_cases hnone : neighbours apart older = []
    · refine .inr ⟨by omega, hnone, ?_⟩
      rw [mergeNeighbours_eq_self (neighbours_eq_nil_iff.1 hnone), hsplit, hcount, ← drop_one]
      congr 1
      omega
    · refine .inl ⟨by omega, hnone, ?_⟩
      have hpos := length_pos_iff.2 hnone
      have hdrop : (mergeNeighbours merge apart older).length +
          (l'.drop (l'.length - keep)).length - cap = 0 := by omega
      rw [hdrop, drop_zero]
  · exact .inl ⟨not_lt.1 hfull, if_neg hfull⟩

theorem length_add_le (hl : l.length ≤ cap) (a : α) :
    (add merge apart keep cap l a).length ≤ cap := by
  rcases add_cases merge apart keep hl a with
    ⟨hle, heq⟩ | ⟨hlen, hsome, heq⟩ | ⟨hlen, -, heq⟩
  · rwa [heq]
  · have hmerged := length_mergeNeighbours merge apart
      ((l ++ [a]).take ((l ++ [a]).length - keep))
    have hpos := length_pos_iff.2 hsome
    have hcount : ((l ++ [a]).take ((l ++ [a]).length - keep)).length +
        ((l ++ [a]).drop ((l ++ [a]).length - keep)).length = (l ++ [a]).length := by
      rw [← length_append, take_append_drop]
    rw [heq, length_append]
    omega
  · rw [heq, length_tail, hlen, Nat.add_sub_cancel]

theorem length_record_le (added : List α) :
    (record merge apart keep cap added).length ≤ cap := by
  induction added using reverseRecOn with
  | nil => exact Nat.zero_le _
  | append_singleton added a ih =>
    rw [record_append]
    exact length_add_le ih a

/-- The last elements of a list are those of what it ends in. -/
theorem rtake_append_of_le {j : ℕ} (front : List α) (h : j ≤ l.length) :
    (front ++ l).rtake j = l.rtake j := by
  rw [rtake, rtake, length_append, drop_append, drop_eq_nil_of_le (by omega), nil_append]
  congr 1
  omega

/-- The newest elements are held as they were added. -/
theorem rtake_add {j : ℕ} (hkeep : keep ≤ cap) (hl : l.length ≤ cap) (a : α) (hj : j ≤ keep) :
    (add merge apart keep cap l a).rtake j = (l ++ [a]).rtake j := by
  have hsuffix : ∀ i, i + j ≤ (l ++ [a]).length →
      ((l ++ [a]).drop i).rtake j = (l ++ [a]).rtake j := fun i hi => by
    conv_rhs => rw [← take_append_drop i (l ++ [a])]
    exact (rtake_append_of_le _ (by rw [length_drop]; omega)).symm
  rcases add_cases merge apart keep hl a with
    ⟨-, heq⟩ | ⟨hlen, -, heq⟩ | ⟨hlen, -, heq⟩
  · rw [heq]
  · rw [heq, rtake_append_of_le _ (by rw [length_drop]; omega)]
    exact hsuffix _ (by omega)
  · rw [heq, ← drop_one]
    exact hsuffix 1 (by omega)

variable (apart) in
theorem length_trees_le (added : List α) :
    (trees apart keep cap added).length ≤ cap :=
  length_record_le _

theorem rtake_trees (hkeep : keep ≤ cap) (added : List α) {j : ℕ} (hj : j ≤ keep) :
    (trees apart keep cap added).rtake j = (added.rtake j).map .one := by
  induction added using reverseRecOn generalizing j with
  | nil => simp [trees, record]
  | append_singleton added a ih =>
    rw [trees_append, rtake_add hkeep (length_trees_le apart added) _ hj]
    cases j with
    | zero => rw [rtake_zero, rtake_zero, map_nil]
    | succ j => rw [rtake_concat_succ, rtake_concat_succ, ih (by omega), map_append, map_singleton]

/-- What is added is held, but that the oldest element goes if none of the older part can be
    merged. -/
theorem flatMap_leaves_trees_append (apart : α → Bool) (keep cap : ℕ) (added : List α) (a : α) :
    let l := trees apart keep cap added ++ [.one a]
    (trees apart keep cap (added ++ [a])).flatMap Merged.leaves = l.flatMap Merged.leaves ∨
    neighbours (Merged.standsApart apart) (l.take (l.length - keep)) = [] ∧
      l.length = cap + 1 ∧ trees apart keep cap (added ++ [a]) = l.tail := by
  intro l
  rw [trees_append]
  rcases add_cases .both (Merged.standsApart apart) keep
    (length_trees_le apart added) (.one a) with ⟨-, heq⟩ | ⟨-, -, heq⟩ | ⟨hlen, hnone, heq⟩
  · exact .inl (by rw [heq])
  · left
    rw [heq, flatMap_append, flatMap_mergeNeighbours fun _ _ => rfl, ← flatMap_append,
      take_append_drop]
  · exact .inr ⟨hnone, hlen, heq⟩

theorem flatMap_leaves_trees (apart : α → Bool) (keep cap : ℕ) (added : List α) :
    (trees apart keep cap added).flatMap Merged.leaves <:+ added := by
  induction added using reverseRecOn with
  | nil => exact suffix_rfl
  | append_singleton added a ih =>
    have hl : (trees apart keep cap added ++ [Merged.one a]).flatMap Merged.leaves <:+
        added ++ [a] := by
      rw [flatMap_append]
      exact suffix_append_self_iff.2 ih
    rcases flatMap_leaves_trees_append apart keep cap added a with heq | ⟨-, -, heq⟩
    · rwa [heq]
    · refine IsSuffix.trans ?_ hl
      obtain ⟨t, rest, hcons⟩ := exists_cons_of_ne_nil
        (append_ne_nil_of_right_ne_nil (trees apart keep cap added) (cons_ne_nil (Merged.one a) []))
      rw [heq, hcons, tail_cons, flatMap_cons]
      exact suffix_append _ _

/-- Whatever was merged was in one stretch, in which only the oldest may stand apart. -/
theorem joined_trees (added : List α) :
    ∀ t ∈ trees apart keep cap added, t.Joined apart := by
  induction added using reverseRecOn with
  | nil => exact fun t ht => absurd ht not_mem_nil
  | append_singleton added a ih =>
    have hl : ∀ t ∈ trees apart keep cap added ++ [.one a], t.Joined apart := by
      intro t ht
      rcases mem_append.1 ht with ht | ht
      · exact ih t ht
      · exact mem_singleton.1 ht ▸ Merged.joined_one a
    rw [trees_append]
    rcases add_cases .both (Merged.standsApart apart) keep
      (length_trees_le apart added) (.one a) with ⟨-, heq⟩ | ⟨-, -, heq⟩ | ⟨-, -, heq⟩
    · rw [heq]
      exact hl
    · rw [heq]
      intro t ht
      rcases mem_append.1 ht with ht | ht
      · refine forall_mergeNeighbours (fun t ht => hl t (mem_of_mem_take ht)) (fun p hp => ?_) t ht
        exact fun hs ht => hs.both ht (apart_of_mem_neighbours hp)
      · exact hl t (mem_of_mem_drop ht)
    · rw [heq]
      exact fun t ht => hl t (mem_of_mem_tail ht)

/-! ## Short records -/

theorem record_of_length_le {added : List α} (h : added.length ≤ cap) :
    record merge apart keep cap added = added := by
  induction added using reverseRecOn with
  | nil => rfl
  | append_singleton added a ih =>
    rw [length_append, length_singleton] at h
    rw [record_append, ih (by omega), add, if_neg]
    rw [length_append, length_singleton]
    omega

theorem trees_of_length_le {added : List α} (h : added.length ≤ cap) :
    trees apart keep cap added = added.map .one :=
  record_of_length_le (by rwa [length_map])

/-- Elements that stand apart are not merged with those before them. -/
theorem mergeNeighbours_append_replicate (ha : apart a = true) (n : ℕ) (l : List α) :
    mergeNeighbours merge apart (l ++ replicate n a) =
      mergeNeighbours merge apart l ++ replicate n a := by
  have hall : ∀ b ∈ replicate n a, apart b = true := fun b hb => eq_of_mem_replicate hb ▸ ha
  fun_induction mergeNeighbours merge apart l with
  | case1 b c rest hc ih =>
    rw [cons_append, cons_append, mergeNeighbours, if_pos hc, ← cons_append, ih]
    rfl
  | case2 b c rest hc ih =>
    rw [cons_append, cons_append, mergeNeighbours, if_neg hc, ih]
    rfl
  | case3 l hl =>
    refine mergeNeighbours_eq_self fun b hb => ?_
    rcases l with _ | ⟨c, _ | ⟨d, rest⟩⟩
    · exact hall b (mem_of_mem_tail hb)
    · exact hall b hb
    · exact absurd rfl (hl c d rest)

/-- What stands apart is held while there is room. -/
theorem add_of_lt (h : l.length < cap) (a : α) : add merge apart keep cap l a = l ++ [a] :=
  if_neg (by rw [length_append, length_singleton]; omega)

/-- A full record in which what stands apart fills the newest part and more. -/
theorem add_append_replicate (ha : apart a = true) {n : ℕ} (hfull : l.length + n = cap)
    (hn : keep ≤ n + 1) (hmerge : neighbours apart l ≠ []) :
    add merge apart keep cap (l ++ replicate n a) a =
      mergeNeighbours merge apart l ++ replicate (n + 1) a := by
  have hl : l ++ replicate n a ++ [a] = l ++ replicate (n + 1) a := by
    rw [append_assoc, replicate_succ']
  have hlength : (l ++ replicate (n + 1) a).length = cap + 1 := by
    rw [length_append, length_replicate]
    omega
  obtain ⟨k, hk⟩ : ∃ k, n + 1 = k + keep := ⟨n + 1 - keep, by omega⟩
  have htake : (l ++ replicate (n + 1) a).take (cap + 1 - keep) = l ++ replicate k a := by
    rw [take_append, take_of_length_le (by omega), take_replicate]
    congr 2
    omega
  have hdrop : (l ++ replicate (n + 1) a).drop (cap + 1 - keep) = replicate keep a := by
    rw [drop_append, drop_of_length_le (by omega), drop_replicate, nil_append]
    congr 1
    omega
  have hcount := length_mergeNeighbours merge apart l
  have hpos := length_pos_iff.2 hmerge
  rw [add, hl, if_pos (by omega), thin, hlength, htake, hdrop,
    mergeNeighbours_append_replicate ha, append_assoc, replicate_append_replicate, ← hk,
    length_append, length_replicate]
  have hzero : (mergeNeighbours merge apart l).length + (n + 1) - cap = 0 := by omega
  rw [hzero, drop_zero]

end Thinning
