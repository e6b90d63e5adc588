import DhtCore.Upnp.Basic
import Mathlib.Data.Prod.Lex

/-!
# Attempts

What an attempt to map a port comes down to: how much there is left to try, and how much
was done (`Attempt`). It gets on by `Step`s, each of which makes at most one request, while
the search finds locations (`Found`).

* A step that is not the last lowers a lexicographic rank: of the searches left, the
  locations, whether a description is awaited, the services, and the times that one may be
  asked again (`Step.rank_lt`).
* Every request is paid for by a location found, a service offered, or one of the few more
  that there are at the start (`Step.spent_le`).
* The last step, and no other, gives the verdict (`Step.verdicts_eq`).
-/

namespace Dht

/-- Whether a `UpnpIgd` owes a verdict. -/
def Stage.busy : Stage → Bool
  | .Idle | .Mapped => false
  | .Searching | .Describing | .Mapping | .Renewing | .AskingAddress => true

/-- What an attempt has left to try, and what it did. -/
structure Attempt where
  stage : Stage
  /-- Searches that there may still be, with the one under way. -/
  searches : ℕ
  /-- Locations found and not described yet. -/
  locations : ℕ
  /-- Services of the device described last that were not asked yet. -/
  services : ℕ
  /-- Times that a service may be asked again. -/
  retries : ℕ
  found : ℕ
  /-- Services of all devices described. -/
  offered : ℕ
  requests : ℕ
  verdicts : ℕ
  deriving DecidableEq

namespace Attempt

/-- The search finds a location. -/
inductive Found : Attempt → Attempt → Prop
  | found {a : Attempt} (hstage : a.stage = .Searching) :
    Found a { a with locations := a.locations + 1, found := a.found + 1 }

/-- An attempt gets on. -/
inductive Step : Attempt → Attempt → Prop
  | search {a : Attempt} {n : ℕ} (hstage : a.stage = .Searching) (hn : n < a.searches) :
    Step a { a with searches := n }
  /-- A location is described that was found before. -/
  | describe {a : Attempt} {s l k : ℕ}
    (hstage : a.stage = .Searching ∨ a.stage = .Describing ∨ a.stage = .Mapping)
    (hl : a.locations = l + 1) (hk : k ≤ a.services) :
    Step a { a with
      stage := .Describing, searches := s, locations := l, services := k
      requests := a.requests + 1 }
  /-- The search finds the gateway's own location, and describes it. -/
  | answered {a : Attempt} (hstage : a.stage = .Searching) :
    Step a { a with stage := .Describing, found := a.found + 1, requests := a.requests + 1 }
  /-- The first of the services that a device offers is asked. -/
  | ask {a : Attempt} {n : ℕ} (hstage : a.stage = .Describing) :
    Step a { a with
      stage := .Mapping, services := n, offered := a.offered + (n + 1)
      requests := a.requests + 1 }
  /-- A service is asked again. -/
  | retry {a : Attempt} {n : ℕ} (hstage : a.stage = .Mapping ∨ a.stage = .Renewing)
    (hn : a.retries = n + 1) : Step a { a with retries := n, requests := a.requests + 1 }
  /-- The next service is asked. -/
  | next {a : Attempt} {n : ℕ} (hstage : a.stage = .Mapping) (hn : a.services = n + 1) :
    Step a { a with services := n, requests := a.requests + 1 }
  | granted {a : Attempt} (hstage : a.stage = .Mapping) :
    Step a { a with stage := .AskingAddress, requests := a.requests + 1 }
  | mapped {a : Attempt} (hstage : a.stage = .Renewing ∨ a.stage = .AskingAddress) :
    Step a { a with stage := .Mapped, verdicts := a.verdicts + 1 }
  | failed {a : Attempt} {s l k : ℕ} (hstage : a.stage.busy) (hl : l ≤ a.locations)
    (hk : k ≤ a.services) :
    Step a { a with
      stage := .Idle, searches := s, locations := l, services := k, verdicts := a.verdicts + 1 }

/-- An attempt to renew a mapping begins. -/
inductive Renewed : Attempt → Attempt → Prop
  | renew {a : Attempt} (hstage : a.stage = .Mapped) :
    Renewed a { a with stage := .Renewing, requests := a.requests + 1 }

/-- What bounds the steps that are left, in the order of what counts first. -/
def rank (a : Attempt) : ℕ ×ₗ ℕ ×ₗ ℕ ×ₗ ℕ ×ₗ ℕ :=
  if a.stage = .Searching then toLex (a.searches + 1, toLex (0, toLex (0, toLex (0, 0))))
  else toLex (0, toLex (a.locations, toLex (if a.stage = .Describing then 1 else 0,
    toLex (a.services, a.retries + if a.stage = .AskingAddress then 0 else 1))))

/-- The requests that were made and may still be, of what was found by now. -/
def spent (a : Attempt) : ℕ :=
  a.requests + a.locations + a.services + a.retries +
    if a.stage = .Searching ∨ a.stage = .Describing ∨ a.stage = .Mapping then 1 else 0

variable {a b : Attempt}

/-- Nothing is done yet, but that a verdict may be given at once. -/
structure Begins (a : Attempt) : Prop where
  locations : a.locations = 0
  services : a.services = 0
  retries : a.retries ≤ UpnpIgd.MaxConflictRetries + 1
  found : a.found = 0
  offered : a.offered = 0
  requests : a.requests = 0
  verdicts : a.verdicts + a.stage.busy.toNat = 1

theorem Begins.spent_le (h : Begins a) : a.spent ≤ UpnpIgd.MaxConflictRetries + 2 := by
  have hretries := h.retries
  rw [spent, h.locations, h.services, h.requests]
  split_ifs <;> omega

theorem Found.rank_eq (h : Found a b) : b.rank = a.rank := by
  obtain ⟨hstage⟩ := h
  simp only [rank, hstage, if_true]

theorem Step.rank_lt (h : Step a b) (hb : b.stage.busy) : b.rank < a.rank := by
  cases h with
  | search hstage hn =>
    simp only [rank, hstage, if_true, Prod.Lex.toLex_lt_toLex]
    omega
  | describe hstage hl hk =>
    rcases hstage with hstage | hstage | hstage <;>
      simp [rank, hstage, hl, Prod.Lex.toLex_lt_toLex]
  | answered hstage => simp [rank, hstage, Prod.Lex.toLex_lt_toLex]
  | ask hstage => simp [rank, hstage, Prod.Lex.toLex_lt_toLex]
  | retry hstage hn =>
    rcases hstage with hstage | hstage <;> simp [rank, hstage, hn, Prod.Lex.toLex_lt_toLex]
  | next hstage hn => simp [rank, hstage, hn, Prod.Lex.toLex_lt_toLex]
  | granted hstage => simp [rank, hstage, Prod.Lex.toLex_lt_toLex]
  | mapped | failed => cases hb

theorem Found.spent_le (h : Found a b) :
    b.spent + (a.found + a.offered) ≤ a.spent + (b.found + b.offered) := by
  obtain ⟨hstage⟩ := h
  simp only [spent]
  omega

theorem Step.spent_le (h : Step a b) :
    b.spent + (a.found + a.offered) ≤ a.spent + (b.found + b.offered) := by
  cases h with
  | describe hstage hl hk =>
    simp only [spent, hstage, hl]
    simp
    omega
  | search hstage | answered hstage | ask hstage | next hstage | granted hstage =>
    simp [spent, *]
    try omega
  | retry hstage | mapped hstage =>
    rcases hstage with hstage | hstage <;> simp [spent, *] <;> try omega
  | failed hstage hl hk =>
    simp only [spent]
    simp
    omega

theorem Renewed.spent_le (h : Renewed a b) :
    b.spent + (a.found + a.offered) ≤ a.spent + (b.found + b.offered) + 1 := by
  obtain ⟨hstage⟩ := h
  simp [spent, hstage]
  omega

theorem Step.verdicts_eq (h : Step a b) :
    b.verdicts + b.stage.busy.toNat = a.verdicts + a.stage.busy.toNat := by
  cases h with
  | retry hstage | mapped hstage =>
    rcases hstage with hstage | hstage <;> simp [hstage, Stage.busy]
  | search hstage | answered hstage | ask hstage | next hstage | granted hstage =>
    simp [hstage, Stage.busy]
  | describe hstage => rcases hstage with hstage | hstage | hstage <;> simp [hstage, Stage.busy]
  | failed hstage =>
    rw [hstage]
    rfl

theorem Renewed.verdicts_eq (h : Renewed a b) :
    b.verdicts + b.stage.busy.toNat = a.verdicts + a.stage.busy.toNat + 1 := by
  obtain ⟨hstage⟩ := h
  simp [hstage, Stage.busy]

end Attempt

end Dht
