import DhtCore.Endpoint
import DhtCore.Lib.TokenBucket

/-!
# Limits on what is sent

`RateLimiter` limits how often something may be sent to an address, and
`ContactBudget` how many endpoints may be contacted afresh, those written to
within `WindowMs` not counting. Both fill up with time, in milliseconds; their
doubles are rational numbers here.

Either is a token bucket: `RateLimiter.Meters` and `ContactBudget.Meters` say
that it is in the state that charges at some times leave, however often it was
looked at and pruned in between.
-/

namespace Dht

open TokenBucket

/-! ## The rate limiter -/

/-- What an address has left, and when that was reckoned. -/
structure RateBucket where
  tokens : ℚ := 0
  last : ℤ := 0
  deriving DecidableEq

/-- Limits how often something may be sent to each address. -/
structure RateLimiter where
  rate : ℚ
  burst : ℚ
  buckets : HostAddress → Option RateBucket := fun _ => none

/-- A floating-point number converted to an integer. -/
def truncate (q : ℚ) : ℤ := if 0 ≤ q then ⌊q⌋ else ⌈q⌉

namespace RateLimiter

variable (l : RateLimiter)

/-- Whether something may be sent to an address now, which takes a token. -/
def allow (address : HostAddress) (now : ℤ) : RateLimiter × Bool :=
  let b := (l.buckets address).getD ⟨l.burst, now⟩
  let tokens := min l.burst (b.tokens + (now - b.last : ℤ) * l.rate / 1000)
  if tokens < 1 then
    ({ l with buckets := Function.update l.buckets address (some ⟨tokens, now⟩) }, false)
  else
    ({ l with buckets := Function.update l.buckets address (some ⟨tokens - 1, now⟩) }, true)

/-- Forgets the addresses that have everything they may have. -/
def prune (now : ℤ) : RateLimiter :=
  let refillMs := truncate (l.burst / l.rate * 1000)
  { l with buckets := fun address => (l.buckets address).filter fun b =>
    ¬(now - b.last > refillMs) }

/-- The limiter is as charges at the times of `log`, all of them paid for, leave it
    for an address. -/
structure Meters (l : RateLimiter) (address : HostAddress) (log : List ℚ) (clock : ℤ) : Prop where
  paid : Paid l.burst (l.rate / 1000) log
  le_clock : ∀ x ∈ log, x ≤ (clock : ℚ)
  full : l.buckets address = none →
    tokensAt l.burst (l.rate / 1000) (after l.burst (l.rate / 1000) log) clock = l.burst
  tokens : ∀ b, l.buckets address = some b →
    b.tokens = tokensAt l.burst (l.rate / 1000) (after l.burst (l.rate / 1000) log) b.last ∧
      b.last ≤ clock ∧ ∀ x ∈ log, x ≤ (b.last : ℚ)

variable {l} {address : HostAddress} {log : List ℚ} {clock now : ℤ}

theorem meters_nil (h : l.buckets address = none) (clock : ℤ) : l.Meters address [] clock :=
  ⟨.nil, by simp, fun _ => rfl, fun b hb => by simp [h] at hb⟩

@[simp]
theorem allow_rate (address : HostAddress) (now : ℤ) : (l.allow address now).1.rate = l.rate := by
  rw [allow]
  split_ifs <;> rfl

@[simp]
theorem allow_burst (address : HostAddress) (now : ℤ) :
    (l.allow address now).1.burst = l.burst := by
  rw [allow]
  split_ifs <;> rfl

theorem allow_buckets_of_ne {other : HostAddress} (hne : address ≠ other) (now : ℤ) :
    (l.allow other now).1.buckets address = l.buckets address := by
  rw [allow]
  split_ifs <;> exact Function.update_of_ne hne ..

/-- A limiter that meters goes on to do so as time passes. -/
theorem Meters.mono (h : l.Meters address log clock) (hrate : 0 ≤ l.rate) (hle : clock ≤ now) :
    l.Meters address log now := by
  refine ⟨h.paid, fun x hx => (h.le_clock x hx).trans (Int.cast_le.2 hle), fun hb => ?_,
    fun b hb => ?_⟩
  · refine le_antisymm (tokensAt_le_cap ..) ((h.full hb).symm.le.trans ?_)
    exact tokensAt_mono (div_nonneg hrate (by norm_num)) (Int.cast_le.2 hle)
  · obtain ⟨htokens, hlast, hlog⟩ := h.tokens b hb
    exact ⟨htokens, hlast.trans hle, hlog⟩

/-- What `allow` reckons is what the charges left. -/
theorem Meters.tokens_now (h : l.Meters address log clock) (hrate : 0 ≤ l.rate)
    (hle : clock ≤ now) :
    min l.burst (((l.buckets address).getD ⟨l.burst, now⟩).tokens +
        (now - ((l.buckets address).getD ⟨l.burst, now⟩).last : ℤ) * l.rate / 1000) =
      tokensAt l.burst (l.rate / 1000) (after l.burst (l.rate / 1000) log) now := by
  cases hb : l.buckets address with
  | none =>
    rw [(h.mono hrate hle).full hb]
    simp
  | some b =>
    obtain ⟨htokens, hlast, -⟩ := h.tokens b hb
    have hfill := tokensAt_tokensAt l.burst (after l.burst (l.rate / 1000) log)
      (div_nonneg hrate (by norm_num : (0 : ℚ) ≤ 1000)) (Int.cast_le (R := ℚ).2 (hlast.trans hle))
    rw [← htokens] at hfill
    rw [← hfill, Option.getD_some]
    simp only [tokensAt, Int.cast_sub, mul_div_assoc]

/-- `allow` charges if there is a token left. -/
theorem Meters.allow (h : l.Meters address log clock) (hrate : 0 ≤ l.rate) (hle : clock ≤ now) :
    (l.allow address now).1.Meters address
      (if (l.allow address now).2 then log ++ [(now : ℚ)] else log) now := by
  have hlog : ∀ x ∈ log, x ≤ (now : ℚ) := (h.mono hrate hle).le_clock
  rw [RateLimiter.allow, h.tokens_now hrate hle]
  by_cases hlt : tokensAt l.burst (l.rate / 1000) (after l.burst (l.rate / 1000) log) now < 1
  · simp only [hlt, ↓reduceIte, Bool.false_eq_true]
    refine ⟨h.paid, hlog, fun hb => by simp at hb, fun b hb => ?_⟩
    simp only [Function.update_self, Option.some.injEq] at hb
    subst hb
    exact ⟨rfl, le_rfl, hlog⟩
  · have hlog' : ∀ x ∈ log ++ [(now : ℚ)], x ≤ now := fun x hx => by
      rcases List.mem_append.1 hx with hx | hx
      · exact hlog x hx
      · exact (List.mem_singleton.1 hx).le
    simp only [hlt, ↓reduceIte]
    refine ⟨.snoc _ _ h.paid hlog (not_lt.1 hlt), hlog', fun hb => by simp at hb, fun b hb => ?_⟩
    simp only [Function.update_self, Option.some.injEq] at hb
    subst hb
    refine ⟨?_, le_rfl, hlog'⟩
    rw [after_append, tokensAt_charge_self]

/-- Sending to an address does not count against another one. -/
theorem Meters.allow_of_ne (h : l.Meters address log clock) {other : HostAddress}
    (hne : address ≠ other) (now : ℤ) : (l.allow other now).1.Meters address log clock := by
  refine ⟨?_, h.le_clock, fun hb => ?_, fun b hb => ?_⟩
  · rw [allow_rate, allow_burst]
    exact h.paid
  · rw [allow_buckets_of_ne hne] at hb
    rw [allow_rate, allow_burst]
    exact h.full hb
  · rw [allow_buckets_of_ne hne] at hb
    rw [allow_rate, allow_burst]
    exact h.tokens b hb

/-- Pruning is not noticed: what is forgotten was full. -/
theorem Meters.prune (h : l.Meters address log clock) (hrate : 0 < l.rate) (hburst : 0 ≤ l.burst)
    (hle : clock ≤ now) : (l.prune now).Meters address log now := by
  have hnow := h.mono hrate.le hle
  refine ⟨h.paid, hnow.le_clock, fun hb => ?_, fun b hb => ?_⟩
  · rw [RateLimiter.prune, Option.filter_eq_none_iff] at hb
    cases hb' : l.buckets address with
    | none => exact hnow.full hb'
    | some b =>
      obtain ⟨htokens, hlast, hlog⟩ := hnow.tokens b hb'
      have hold : truncate (l.burst / l.rate * 1000) < now - b.last := by
        have := hb b hb'
        simp only [gt_iff_lt, not_lt, decide_eq_true_eq, not_le] at this
        omega
      have hnonneg := h.paid.tokensAt_nonneg (by positivity) hburst hlog
      rw [← htokens] at hnonneg
      have hgain : l.burst ≤ ((now : ℚ) - b.last) * (l.rate / 1000) := by
        rw [truncate, if_pos (by positivity), Int.floor_lt] at hold
        push_cast at hold
        have := mul_lt_mul_of_pos_right hold hrate
        rw [mul_right_comm, div_mul_cancel₀ _ hrate.ne'] at this
        linarith
      have hfull := tokensAt_eq_cap hnonneg hgain
      rwa [htokens, tokensAt_tokensAt _ _ (by positivity) (Int.cast_le.2 hlast)] at hfull
  · rw [RateLimiter.prune, Option.filter_eq_some_iff] at hb
    exact hnow.tokens b hb.1

end RateLimiter

/-! ## The contact budget -/

/-- Limits how many endpoints may be contacted afresh. -/
structure ContactBudget where
  /-- When an endpoint was last written to. -/
  recent : Endpoint → Option ℤ := fun _ => none
  contacts : ℕ := 0
  limit : ℕ := 0
  balance : ℚ := 0
  last : ℤ := 0

namespace ContactBudget

/-- How long a contact counts for, in milliseconds. -/
def WindowMs : ℤ := 180 * 1000

variable (b : ContactBudget)

/-- Whether contacts are limited at all. -/
def isLimited : Bool := b.limit > 0

/-- Changes the limit; a limit newly set starts with a full second. -/
def setLimit (contactsPerSecond now : ℤ) : ContactBudget :=
  let limit := (max 0 contactsPerSecond).toNat
  if limit = b.limit then b
  else
    { b with
      limit
      balance := if !b.isLimited then limit else min b.balance limit
      last := now }

/-- Adds what was gained by now. -/
def refill (now : ℤ) : ContactBudget :=
  if now > b.last then
    { b with
      balance := min (b.limit : ℚ) (b.balance + (now - b.last : ℤ) * b.limit / 1000)
      last := now }
  else b

/-- Whether an endpoint was written to within the window. -/
def isLive (dest : Endpoint) (now : ℤ) : Bool := (b.recent dest).any fun at_ => now - at_ < WindowMs

/-- Whether a datagram may go to an endpoint now. -/
def allows (dest : Endpoint) (now : ℤ) : ContactBudget × Bool :=
  if !b.isLimited || b.isLive dest now then (b, true)
  else
    let b := b.refill now
    (b, b.balance ≥ 1)

/-- Records a datagram sent, which is charged if the endpoint is a new one. -/
def record (dest : Endpoint) (now : ℤ) : ContactBudget :=
  let live := b.isLive dest now
  let b := { b with recent := Function.update b.recent dest (some now) }
  if live then b
  else
    let b := { b with contacts := b.contacts + 1 }
    if b.isLimited then
      let b := b.refill now
      { b with balance := b.balance - 1 }
    else b

/-- Forgets the endpoints not written to within the window. -/
def prune (now : ℤ) : ContactBudget :=
  { b with recent := fun dest => (b.recent dest).filter fun at_ => ¬(now - at_ ≥ WindowMs) }

/-- A datagram sent, and when. -/
abbrev Sending := Endpoint × ℤ

/-- An endpoint was written to within the window. -/
def Written (sends : List Sending) (dest : Endpoint) (now : ℤ) : Prop :=
  ∃ s ∈ sends, s.1 = dest ∧ now - s.2 < WindowMs

instance (sends : List Sending) (dest : Endpoint) (now : ℤ) : Decidable (Written sends dest now) :=
  inferInstanceAs (Decidable (∃ s ∈ sends, _))

/-- Of the datagrams sent after others, those to endpoints not written to within
    the window. -/
def freshAfter (before : List Sending) : List Sending → List Sending
  | [] => []
  | s :: rest =>
    if Written before s.1 s.2 then freshAfter (before ++ [s]) rest
    else s :: freshAfter (before ++ [s]) rest

/-- The datagrams to endpoints not written to within the window. -/
def fresh (sends : List Sending) : List Sending := freshAfter [] sends

theorem freshAfter_append (before : List Sending) : ∀ (sends : List Sending) (s : Sending),
    freshAfter before (sends ++ [s]) = freshAfter before sends ++
      if Written (before ++ sends) s.1 s.2 then [] else [s]
  | [], s => by
    rw [List.nil_append, List.append_nil, freshAfter, freshAfter, freshAfter]
    split_ifs <;> rfl
  | r :: sends, s => by
    rw [List.cons_append, freshAfter, freshAfter, freshAfter_append, List.append_assoc,
      List.singleton_append]
    split_ifs <;> rfl

theorem fresh_append (sends : List Sending) (s : Sending) :
    fresh (sends ++ [s]) = fresh sends ++ if Written sends s.1 s.2 then [] else [s] :=
  freshAfter_append [] sends s

/-- When endpoints were contacted afresh. -/
def freshTimes (sends : List Sending) : List ℚ := (fresh sends).map fun s => (s.2 : ℚ)

/-- The budget is limited, and as the contacts among the datagrams sent so far, all
    of them paid for, leave it. -/
structure Meters (b : ContactBudget) (sends : List Sending) (clock : ℤ) : Prop where
  limited : 0 < b.limit
  paid : Paid (b.limit : ℚ) (b.limit / 1000) (freshTimes sends)
  sends_le : ∀ s ∈ sends, s.2 ≤ clock
  times_le : ∀ x ∈ freshTimes sends, x ≤ (b.last : ℚ)
  last_le : b.last ≤ clock
  live : ∀ dest now, clock ≤ now → (b.isLive dest now ↔ Written sends dest now)
  contacts : b.contacts = (fresh sends).length
  balance : b.balance =
    tokensAt (b.limit : ℚ) (b.limit / 1000)
    (after (b.limit : ℚ) (b.limit / 1000) (freshTimes sends)) b.last

variable {b} {sends : List Sending} {dest : Endpoint} {clock now : ℤ}

/-- A budget with a limit newly set. -/
theorem meters_setLimit {contactsPerSecond : ℤ} (h : 0 < contactsPerSecond) (now : ℤ) :
    Meters (({} : ContactBudget).setLimit contactsPerSecond now) [] now := by
  have hlimit : (max 0 contactsPerSecond).toNat ≠ 0 := by omega
  rw [setLimit]
  dsimp only
  rw [if_neg hlimit]
  refine ⟨Nat.pos_of_ne_zero hlimit, .nil, by simp, by simp [freshTimes, fresh, freshAfter], le_rfl,
    fun dest now _ => ?_, rfl, rfl⟩
  simp [isLive, Written]

theorem Meters.mono (h : b.Meters sends clock) (hle : clock ≤ now) : b.Meters sends now :=
  ⟨h.limited, h.paid, fun s hs => (h.sends_le s hs).trans hle, h.times_le, h.last_le.trans hle,
    fun dest now' hle' => h.live dest now' (hle.trans hle'), h.contacts, h.balance⟩

/-- The balance is at least zero and at most the limit. -/
theorem Meters.balance_mem (h : b.Meters sends clock) : 0 ≤ b.balance ∧ b.balance ≤ b.limit := by
  rw [h.balance]
  exact ⟨h.paid.tokensAt_nonneg (by positivity) (by positivity) h.times_le, tokensAt_le_cap ..⟩

@[simp]
theorem refill_limit (b : ContactBudget) (now : ℤ) : (b.refill now).limit = b.limit := by
  rw [refill]
  split_ifs <;> rfl

@[simp]
theorem refill_recent (b : ContactBudget) (now : ℤ) : (b.refill now).recent = b.recent := by
  rw [refill]
  split_ifs <;> rfl

@[simp]
theorem refill_contacts (b : ContactBudget) (now : ℤ) : (b.refill now).contacts = b.contacts := by
  rw [refill]
  split_ifs <;> rfl

theorem refill_last (b : ContactBudget) (now : ℤ) : (b.refill now).last = max b.last now := by
  rw [refill]
  split_ifs with h
  · exact (max_eq_right (le_of_lt h)).symm
  · exact (max_eq_left (not_lt.1 h)).symm

/-- What a budget has once filled up is what the contacts left. -/
theorem Meters.refill_balance (h : b.Meters sends clock) (hle : clock ≤ now) :
    (b.refill now).balance = tokensAt (b.limit : ℚ) (b.limit / 1000)
      (after (b.limit : ℚ) (b.limit / 1000) (freshTimes sends)) now := by
  have hlast : (b.last : ℚ) ≤ now := Int.cast_le.2 (h.last_le.trans hle)
  have hfill := tokensAt_tokensAt (b.limit : ℚ)
    (after (b.limit : ℚ) (b.limit / 1000) (freshTimes sends))
    (by positivity : (0 : ℚ) ≤ b.limit / 1000) hlast
  rw [← h.balance] at hfill
  rw [← hfill, refill]
  split_ifs with hlt
  · simp only [tokensAt, Int.cast_sub, mul_div_assoc]
  · have heq : b.last = now := le_antisymm (h.last_le.trans hle) (not_lt.1 hlt)
    rw [heq, tokensAt, sub_self, zero_mul, add_zero, min_eq_right h.balance_mem.2]

theorem Meters.refill (h : b.Meters sends clock) (hle : clock ≤ now) :
    (b.refill now).Meters sends now := by
  have hlast : (b.refill now).last = now := by
    rw [refill_last, max_eq_right (h.last_le.trans hle)]
  refine ⟨by simpa using h.limited, by simpa using h.paid, (h.mono hle).sends_le, fun x hx => ?_,
    hlast.le, fun dest now' hle' => ?_, by simpa using h.contacts, ?_⟩
  · rw [hlast]
    exact (h.times_le x hx).trans (Int.cast_le.2 (h.last_le.trans hle))
  · rw [isLive, refill_recent]
    exact h.live dest now' (hle.trans hle')
  · rw [h.refill_balance hle, refill_limit, hlast]

/-- What `allows` finds: the endpoint was written to within the window, or there is
    a contact left. -/
theorem Meters.allows (h : b.Meters sends clock) (hle : clock ≤ now) (dest : Endpoint) :
    ((b.allows dest now).2 ↔ Written sends dest now ∨
      1 ≤ tokensAt (b.limit : ℚ) (b.limit / 1000)
        (after (b.limit : ℚ) (b.limit / 1000) (freshTimes sends)) now) ∧
      (b.allows dest now).1.Meters sends now ∧ (b.allows dest now).1.limit = b.limit := by
  have hlimited : b.isLimited := by simpa [isLimited] using h.limited
  rw [ContactBudget.allows]
  by_cases hlive : b.isLive dest now
  · have hw := (h.live dest now hle).1 hlive
    simp only [hlimited, hlive, Bool.not_true, Bool.or_true, ↓reduceIte, true_iff]
    exact ⟨.inl hw, h.mono hle, trivial⟩
  · have hw : ¬Written sends dest now := fun hw => hlive ((h.live dest now hle).2 hw)
    simp only [hlimited, hlive, Bool.not_true, Bool.or_false, Bool.false_eq_true, ↓reduceIte, hw,
      false_or]
    refine ⟨?_, h.refill hle, refill_limit b now⟩
    rw [decide_eq_true_iff, h.refill_balance hle]

/-- Whom something was sent to of late, with the datagram that is recorded. -/
theorem Meters.live_update (h : b.Meters sends now)
    (hsends : ∀ s ∈ sends ++ [(dest, now)], s.2 ≤ now) (dest' : Endpoint) (now' : ℤ)
    (hle : now ≤ now') :
    (Function.update b.recent dest (some now) dest').any (fun at_ => now' - at_ < WindowMs) ↔
      Written (sends ++ [(dest, now)]) dest' now' := by
  by_cases hd : dest' = dest
  · subst hd
    rw [Function.update_self, Option.any_some, decide_eq_true_iff]
    refine ⟨fun hlt => ⟨(dest', now), by simp, rfl, hlt⟩, ?_⟩
    rintro ⟨s, hs, -, hlt⟩
    have := hsends s hs
    omega
  · rw [Function.update_of_ne hd]
    refine (h.live dest' now' hle).trans
      ⟨fun ⟨s, hs, heq⟩ => ⟨s, List.mem_append_left _ hs, heq⟩, ?_⟩
    rintro ⟨s, hs, heq, hlt⟩
    rcases List.mem_append.1 hs with hs | hs
    · exact ⟨s, hs, heq, hlt⟩
    · rw [List.mem_singleton.1 hs] at heq
      exact absurd heq.symm hd

/-- Recording a datagram keeps the budget metering, if it was allowed. -/
theorem Meters.record (h : b.Meters sends now) (hallowed : Written sends dest now ∨
      1 ≤ tokensAt (b.limit : ℚ) (b.limit / 1000)
        (after (b.limit : ℚ) (b.limit / 1000) (freshTimes sends)) now) :
    (b.record dest now).Meters (sends ++ [(dest, now)]) now ∧
    (b.record dest now).limit = b.limit := by
  have hlimited : b.isLimited := by simpa [isLimited] using h.limited
  have hsends : ∀ s ∈ sends ++ [(dest, now)], s.2 ≤ now := fun s hs => by
    rcases List.mem_append.1 hs with hs | hs
    · exact h.sends_le s hs
    · rw [List.mem_singleton.1 hs]
  have hlive := h.live_update hsends
  rw [ContactBudget.record]
  by_cases hold : b.isLive dest now
  · -- Nothing is charged for one that something was sent to of late.
    have hw := (h.live dest now le_rfl).1 hold
    have hfresh : fresh (sends ++ [(dest, now)]) = fresh sends := by
      rw [fresh_append, if_pos hw, List.append_nil]
    have htimes : freshTimes (sends ++ [(dest, now)]) = freshTimes sends := by
      rw [freshTimes, hfresh, freshTimes]
    simp only [hold, ↓reduceIte]
    refine ⟨⟨h.limited, htimes ▸ h.paid, hsends, htimes ▸ h.times_le, h.last_le, hlive, ?_, ?_⟩,
      trivial⟩
    · rw [hfresh]
      exact h.contacts
    · rw [htimes]
      exact h.balance
  · -- A contact is charged, to what there is now.
    have hw : ¬Written sends dest now := fun hw => hold ((h.live dest now le_rfl).2 hw)
    have hpaid := hallowed.resolve_left hw
    have hfresh : fresh (sends ++ [(dest, now)]) = fresh sends ++ [(dest, now)] := by
      rw [fresh_append, if_neg hw]
    have htimes : freshTimes (sends ++ [(dest, now)]) = freshTimes sends ++ [(now : ℚ)] := by
      rw [freshTimes, hfresh, List.map_append]
      rfl
    simp only [hold, Bool.false_eq_true, ↓reduceIte]
    rw [if_pos (by exact hlimited)]
    have hnow : ∀ x ∈ freshTimes sends, x ≤ (now : ℚ) := fun x hx =>
      (h.times_le x hx).trans (Int.cast_le.2 h.last_le)
    have hbal : (ContactBudget.refill { b with
        recent := Function.update b.recent dest (some now), contacts :=
          b.contacts + 1 } now).balance = (b.refill now).balance := by
      simp only [ContactBudget.refill]
      split_ifs <;> rfl
    have hlast : (ContactBudget.refill { b with
        recent := Function.update b.recent dest (some now), contacts := b.contacts + 1 } now).last =
        now := by
      rw [refill_last, max_eq_right h.last_le]
    refine ⟨⟨by simpa using h.limited, ?_, hsends, fun x hx => ?_, hlast.le,
      fun dest' now' hle => ?_, ?_, ?_⟩, by simp⟩
    · rw [htimes]
      simp only [refill_limit]
      exact .snoc _ _ h.paid hnow hpaid
    · rw [htimes] at hx
      rw [hlast]
      rcases List.mem_append.1 hx with hx | hx
      · exact hnow x hx
      · exact (List.mem_singleton.1 hx).le
    · rw [isLive, refill_recent]
      exact hlive dest' now' hle
    · rw [hfresh, refill_contacts, List.length_append, List.length_singleton, ← h.contacts]
    · rw [hbal, h.refill_balance le_rfl, htimes, hlast]
      simp only [refill_limit, after_append]
      exact (tokensAt_charge_self _ _).symm

/-- Pruning is not noticed. -/
theorem Meters.prune (h : b.Meters sends clock) (hle : clock ≤ now) :
    (b.prune now).Meters sends now ∧ (b.prune now).limit = b.limit := by
  refine ⟨⟨h.limited, h.paid, (h.mono hle).sends_le, h.times_le, h.last_le.trans hle,
    fun dest now' hle' => ?_, h.contacts, h.balance⟩, rfl⟩
  rw [← h.live dest now' (hle.trans hle'), isLive, isLive, ContactBudget.prune]
  cases hr : b.recent dest with
  | none => simp [hr]
  | some at_ =>
    simp only [hr, ge_iff_le, Option.any_some, Option.filter_some, decide_eq_true_eq, not_le]
    split_ifs with hold
    · rw [Option.any_some, decide_eq_true_iff]
    · simp only [Option.any_none, Bool.false_eq_true, false_iff]
      omega

end ContactBudget

end Dht
