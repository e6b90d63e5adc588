import Mathlib.Tactic

/-!
# Leases

What is granted under a key, for a time or for ever. A later grant under the same key takes
the place of an earlier one. Whoever holds leases must still know of all that have not run
out (`AllLive`) in order to release them in the end (`AllLive.release`).
-/

/-- What was granted under a key, on some terms. -/
structure Lease (κ τ : Type*) where
  key : κ
  terms : τ
  /-- When it runs out, unless it was granted for ever. -/
  expires : Option ℕ
  deriving DecidableEq

namespace Lease

variable {κ τ : Type*} {l : Lease κ τ} {leases : List (Lease κ τ)} {P Q : Lease κ τ → Prop}
  {now : ℕ}

/-- Whether it has not run out. -/
def live (l : Lease κ τ) (now : ℕ) : Bool := l.expires.all (now < ·)

/-- What holds of all leases that have not run out. -/
def AllLive (P : Lease κ τ → Prop) (leases : List (Lease κ τ)) (now : ℕ) : Prop :=
  ∀ l ∈ leases, l.live now → P l

/-- Whether there is one that has not run out. -/
def anyLive (leases : List (Lease κ τ)) (now : ℕ) : Bool := leases.any (·.live now)

/-- A grant. -/
def grant [DecidableEq κ] (l : Lease κ τ) (leases : List (Lease κ τ)) : List (Lease κ τ) :=
  leases.filter (·.key ≠ l.key) ++ [l]

theorem anyLive_eq_false : anyLive leases now = false ↔ AllLive (fun _ => False) leases now := by
  simp [anyLive, AllLive]

theorem AllLive.mono (h : AllLive P leases now) (himp : ∀ l, P l → Q l) : AllLive Q leases now :=
  fun l hl hlive => himp l (h l hl hlive)

theorem AllLive.of_anyLive (h : anyLive leases now = false) : AllLive P leases now :=
  (anyLive_eq_false.1 h).mono fun _ => False.elim

/-- What is granted under another key than the leases before. -/
theorem AllLive.grant [DecidableEq κ] (h : AllLive P leases now)
    (hold : ∀ l', P l' → l'.key ≠ l.key → Q l') (hnew : l.live now → Q l) :
    AllLive Q (grant l leases) now := by
  intro l' hl' hlive
  rcases List.mem_append.1 hl' with hl' | hl'
  · obtain ⟨hmem, hne⟩ := List.mem_filter.1 hl'
    exact hold l' (h l' hmem hlive) (of_decide_eq_true hne)
  · obtain rfl := List.mem_singleton.1 hl'
    exact hnew hlive

/-- All are released. -/
theorem AllLive.release {p : Lease κ τ → Bool} (h : AllLive P leases now)
    (hreleased : ∀ l, P l → p l) : AllLive (fun _ => False) (leases.filter fun l => !p l) now := by
  intro l hl hlive
  obtain ⟨hmem, hnot⟩ := List.mem_filter.1 hl
  rw [hreleased l (h l hmem hlive)] at hnot
  cases hnot

end Lease
