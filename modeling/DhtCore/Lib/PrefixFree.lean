import Mathlib.Data.Set.Function
import Mathlib.Data.Set.Prod
import Mathlib.Tactic

/-!
# Prefix-free codes

A code writes values as words over some alphabet. If it is prefix free on a set of values
(`PrefixFreeOn`), then a text tells which word of those values it starts with, whatever
follows the word. Words are told apart by a letter that ends them and that is nowhere else
in them (`terminated`), or by their lengths, written before them (`lengthPrefixed`). Codes
may be joined one after the other (`append`), and side by side if their words start with
different letters (`union`).
-/

/-- Texts that start with words of values in `s` are equal only if the values are, and what
    follows the words. -/
def PrefixFreeOn {α β : Type*} (code : α → List β) (s : Set α) : Prop :=
  ∀ ⦃a⦄, a ∈ s → ∀ ⦃b⦄, b ∈ s → ∀ ⦃x y⦄, code a ++ x = code b ++ y → a = b ∧ x = y

namespace PrefixFreeOn

variable {α β γ : Type*} {code : α → List β} {s t : Set α}

theorem mono (h : PrefixFreeOn code t) (hst : s ⊆ t) : PrefixFreeOn code s :=
  fun _ ha _ hb _ _ heq => h (hst ha) (hst hb) heq

/-- A text before all words changes nothing. -/
theorem prepend (h : PrefixFreeOn code s) (w : List β) : PrefixFreeOn (w ++ code ·) s := by
  intro a ha b hb x y heq
  rw [List.append_assoc, List.append_assoc, List.append_cancel_left_eq] at heq
  exact h ha hb heq

/-- Nor does a text after all words. -/
theorem postpend (h : PrefixFreeOn code s) (w : List β) : PrefixFreeOn (code · ++ w) s := by
  intro a ha b hb x y heq
  rw [List.append_assoc, List.append_assoc] at heq
  obtain ⟨hab, hxy⟩ := h ha hb heq
  exact ⟨hab, List.append_cancel_left hxy⟩

/-- A word of a code and then one of another. -/
theorem append {code' : γ → List β} {t : Set γ} (h : PrefixFreeOn code s)
    (h' : PrefixFreeOn code' t) : PrefixFreeOn (fun p => code p.1 ++ code' p.2) (s ×ˢ t) := by
  rintro ⟨a, c⟩ ⟨ha, hc⟩ ⟨b, d⟩ ⟨hb, hd⟩ x y heq
  rw [List.append_assoc, List.append_assoc] at heq
  obtain ⟨rfl, hrest⟩ := h ha hb heq
  obtain ⟨rfl, hxy⟩ := h' hc hd hrest
  exact ⟨rfl, hxy⟩

/-- The first letters of the words tell which of the sets a value is in. -/
theorem union (hs : PrefixFreeOn code s) (ht : PrefixFreeOn code t) {b c : β} (hbc : b ≠ c)
    (hb : ∀ a ∈ s, (code a).head? = some b) (hc : ∀ a ∈ t, (code a).head? = some c) :
    PrefixFreeOn code (s ∪ t) := by
  have hhead {a a' : α} (ha : a ∈ s) (ha' : a' ∈ t) (x y : List β) :
      code a ++ x ≠ code a' ++ y := by
    intro heq
    have hheads := congrArg List.head? heq
    rw [List.head?_append, List.head?_append, hb a ha, hc a' ha'] at hheads
    exact hbc (Option.some.inj hheads)
  rintro a (ha | ha) a' (ha' | ha') x y heq
  · exact hs ha ha' heq
  · exact absurd heq (hhead ha ha' x y)
  · exact absurd heq.symm (hhead ha' ha y x)
  · exact ht ha ha' heq

/-- Where a letter first occurs is where the text before it ends. -/
theorem append_cons_inj {stop : β} {u v x y : List β} (hu : stop ∉ u) (hv : stop ∉ v)
    (h : u ++ stop :: x = v ++ stop :: y) : u = v ∧ x = y := by
  induction u generalizing v with
  | nil =>
    cases v with
    | nil => exact ⟨rfl, (List.cons.inj h).2⟩
    | cons b v => exact absurd ((List.cons.inj h).1 ▸ List.mem_cons_self) hv
  | cons a u ih =>
    cases v with
    | nil => exact absurd ((List.cons.inj h).1 ▸ List.mem_cons_self) hu
    | cons b v =>
      obtain ⟨rfl, hrest⟩ := List.cons.inj h
      obtain ⟨rfl, hxy⟩ :=
        ih (fun hmem => hu (List.mem_cons_of_mem _ hmem))
          (fun hmem => hv (List.mem_cons_of_mem _ hmem)) hrest
      exact ⟨rfl, hxy⟩

/-- A letter that words do not have ends them. -/
theorem terminated {stop : β} (h : s.InjOn code) (hstop : ∀ a ∈ s, stop ∉ code a) :
    PrefixFreeOn (code · ++ [stop]) s := by
  intro a ha b hb x y heq
  rw [List.append_assoc, List.append_assoc] at heq
  obtain ⟨hab, hxy⟩ := append_cons_inj (hstop a ha) (hstop b hb) heq
  exact ⟨h ha hb hab, hxy⟩

/-- Any words at all, after their lengths. -/
theorem lengthPrefixed {code : ℕ → List β} (h : PrefixFreeOn code Set.univ) (s : Set (List β)) :
    PrefixFreeOn (fun w => code w.length ++ w) s := by
  intro v _ w _ x y heq
  rw [List.append_assoc, List.append_assoc] at heq
  obtain ⟨hlength, hrest⟩ := h (Set.mem_univ _) (Set.mem_univ _) heq
  exact List.append_inj hrest hlength

end PrefixFreeOn
