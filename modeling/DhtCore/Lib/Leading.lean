import Mathlib.Tactic

/-!
# The first elements with a property

`upTo p n` looks for the element of a list with the property `p` before which there are
`n` others: it is the last of the first `n + 1` with the property (`filter_take`). If the
list is in the order of a key, all elements with a smaller key come before it
(`mem_front`), so that those `n + 1` are the ones with the smallest keys.
-/

namespace Leading

variable {α κ : Type*} {p : α → Bool} {n : ℕ} {l front : List α} {x : α}

/-- The element with a property before which there are so many others, and all that come
    before it. -/
def upTo (p : α → Bool) : ℕ → List α → Option (List α × α)
  | _, [] => none
  | n, a :: l =>
    if p a ∧ n = 0 then some ([], a)
    else (upTo p (if p a then n - 1 else n) l).map fun r => (a :: r.1, r.2)

theorem upTo_cons_of_neg {a : α} (ha : ¬p a) (h : upTo p n (a :: l) = some (front, x)) :
    ∃ rest, front = a :: rest ∧ upTo p n l = some (rest, x) := by
  rw [upTo, if_neg (fun h => ha h.1), if_neg ha] at h
  obtain ⟨r, hr, heq⟩ := Option.map_eq_some_iff.1 h
  obtain ⟨rfl, rfl⟩ := Prod.mk.inj heq
  exact ⟨r.1, rfl, hr⟩

theorem upTo_cons_of_pos {a : α} (ha : p a) (h : upTo p n (a :: l) = some (front, x)) :
    (n = 0 ∧ front = [] ∧ x = a) ∨
      ∃ m rest, n = m + 1 ∧ front = a :: rest ∧ upTo p m l = some (rest, x) := by
  rw [upTo, if_pos ha] at h
  cases n with
  | zero =>
    rw [if_pos ⟨ha, rfl⟩] at h
    obtain ⟨rfl, rfl⟩ := Prod.mk.inj (Option.some.inj h)
    exact .inl ⟨rfl, rfl, rfl⟩
  | succ m =>
    rw [if_neg (fun h => nomatch h.2)] at h
    obtain ⟨r, hr, heq⟩ := Option.map_eq_some_iff.1 h
    obtain ⟨rfl, rfl⟩ := Prod.mk.inj heq
    exact .inr ⟨m, r.1, rfl, rfl, hr⟩

/-- What is found has the property, and is where it was found. -/
theorem upTo_eq_some (h : upTo p n l = some (front, x)) :
    p x = true ∧ front.countP p = n ∧ ∃ rest, l = front ++ x :: rest := by
  induction l generalizing n front with
  | nil => simp [upTo] at h
  | cons a l ih =>
    by_cases ha : p a
    · rcases upTo_cons_of_pos ha h with ⟨rfl, rfl, rfl⟩ | ⟨m, front, rfl, rfl, hl⟩
      · exact ⟨ha, rfl, l, rfl⟩
      · obtain ⟨hx, rfl, rest, rfl⟩ := ih hl
        exact ⟨hx, List.countP_cons_of_pos ha, rest, rfl⟩
    · obtain ⟨front, rfl, hl⟩ := upTo_cons_of_neg ha h
      obtain ⟨hx, hcount, rest, rfl⟩ := ih hl
      exact ⟨hx, by rw [List.countP_cons_of_neg ha, hcount], rest, rfl⟩

/-- Something is found if enough elements have the property. -/
theorem exists_upTo (h : n < l.countP p) : ∃ front x, upTo p n l = some (front, x) := by
  induction l generalizing n with
  | nil => simp at h
  | cons a l ih =>
    rw [upTo]
    split_ifs with hfirst ha
    · exact ⟨[], a, rfl⟩
    · rw [List.countP_cons_of_pos ha] at h
      have hn : n ≠ 0 := fun hn => hfirst ⟨ha, hn⟩
      obtain ⟨front, x, hx⟩ := ih (n := n - 1) (by omega)
      exact ⟨a :: front, x, by rw [hx]; rfl⟩
    · rw [List.countP_cons_of_neg ha] at h
      obtain ⟨front, x, hx⟩ := ih h
      exact ⟨a :: front, x, by rw [hx]; rfl⟩

/-- What is found is the last of the first elements with the property. -/
theorem filter_take (h : upTo p n l = some (front, x)) :
    (l.filter p).take (n + 1) = front.filter p ++ [x] := by
  obtain ⟨hx, hcount, rest, rfl⟩ := upTo_eq_some h
  rw [List.filter_append, List.filter_cons_of_pos hx, List.take_append,
    ← List.countP_eq_length_filter, hcount,
    List.take_of_length_le (by rw [← List.countP_eq_length_filter, hcount]; omega)]
  simp

/-- Whether something is found, and what, is the same in a list that is mapped so that the
    property stays. -/
theorem upTo_map (f : α → α) (hf : ∀ a, p (f a) = p a) (n : ℕ) (l : List α) :
    upTo p n (l.map f) = (upTo p n l).map fun r => (r.1.map f, f r.2) := by
  induction l generalizing n with
  | nil => rfl
  | cons a l ih =>
    rw [List.map_cons, upTo, upTo, hf]
    split_ifs
    · rfl
    · simp only [ih, Option.map_map, Function.comp_def, List.map_cons]
    · simp only [ih, Option.map_map, Function.comp_def, List.map_cons]

variable [LinearOrder κ] {key : α → κ}

/-- In a list in the order of a key, what has a smaller key than what is found comes before
    it. -/
theorem mem_front (hl : l.Pairwise fun a b => key a ≤ key b) (h : upTo p n l = some (front, x))
    {a : α} (ha : a ∈ l) (hlt : key a < key x) : a ∈ front := by
  obtain ⟨-, -, rest, rfl⟩ := upTo_eq_some h
  rcases List.mem_append.1 ha with hfront | hrest
  · exact hfront
  · rcases List.mem_cons.1 hrest with rfl | hrest
    · exact absurd hlt (lt_irrefl _)
    · have hle := (List.pairwise_cons.1 (List.pairwise_append.1 hl).2.1).1 a hrest
      exact absurd hlt (not_lt.2 hle)

end Leading
