import DhtCore.Support

/-!
# Pruning is not noticed

What is pruned is what would make no difference: the bucket of an address that has been left
alone for long enough to be full, and the endpoints that were not written to within the window.
A limiter and a budget that are pruned at some times thus stay like those that never are
(`Like`), and answer every call as these do (`answers_prune`).
-/

namespace Dht

/-- What limits what is sent. -/
structure Limits where
  limiter : RateLimiter
  budget : ContactBudget

namespace Limits

/-- A call of the limiter or the budget. -/
inductive Call
  | allow (address : HostAddress) (now : ℤ)
  | allows (dest : Endpoint) (now : ℤ)
  | record (dest : Endpoint) (now : ℤ)
  | setLimit (contactsPerSecond : ℤ) (now : ℤ)
  | pruneLimiter (now : ℤ)
  | pruneBudget (now : ℤ)

/-- The time of a call. -/
def Call.now : Call → ℤ
  | .allow _ now | .allows _ now | .record _ now | .setLimit _ now | .pruneLimiter now
  | .pruneBudget now => now

/-- Whether a call only prunes. -/
def Call.isPrune : Call → Bool
  | .pruneLimiter _ | .pruneBudget _ => true
  | _ => false

/-- What a call answers, and how many contacts there have been after it. -/
structure Answer where
  allowed : Option Bool
  contacts : ℕ

/-- What a call does, and answers. -/
def apply (s : Limits) : Call → Limits × Option Bool
  | .allow address now =>
    let (limiter, allowed) := s.limiter.allow address now
    ({ s with limiter }, some allowed)
  | .allows dest now =>
    let (budget, allowed) := s.budget.allows dest now
    ({ s with budget }, some allowed)
  | .record dest now => ({ s with budget := s.budget.record dest now }, none)
  | .setLimit contactsPerSecond now =>
    ({ s with budget := s.budget.setLimit contactsPerSecond now }, none)
  | .pruneLimiter now => ({ s with limiter := s.limiter.prune now }, none)
  | .pruneBudget now => ({ s with budget := s.budget.prune now }, none)

/-- The answers to all calls but those that prune. -/
def answers (s : Limits) : List Call → List Answer
  | [] => []
  | c :: calls =>
    let (s', allowed) := s.apply c
    if c.isPrune then answers s' calls
    else ⟨allowed, s'.budget.contacts⟩ :: answers s' calls

end Limits

namespace RateLimiter

variable {l l' : RateLimiter} {clock now : ℤ}

/-- A bucket is missing, or it is the same; only one that is full by now may be missing. -/
inductive LikeBucket (burst rate : ℚ) (clock : ℤ) : Option RateBucket → Option RateBucket → Prop
  | same {b : Option RateBucket} (hnonneg : ∀ x ∈ b, 0 ≤ x.tokens ∧ x.last ≤ clock) :
      LikeBucket burst rate clock b b
  | full {b : RateBucket} (hfull : burst ≤ b.tokens + (clock - b.last : ℤ) * rate / 1000) :
      LikeBucket burst rate clock none (some b)

/-- A limiter that may have been pruned is like another one. -/
structure Like (clock : ℤ) (l l' : RateLimiter) : Prop where
  rate : l.rate = l'.rate
  burst : l.burst = l'.burst
  rate_pos : 0 < l'.rate
  burst_pos : 0 < l'.burst
  bucket : ∀ address, LikeBucket l'.burst l'.rate clock (l.buckets address) (l'.buckets address)

theorem LikeBucket.mono {burst rate : ℚ} {b b' : Option RateBucket} (hrate : 0 < rate)
    (h : LikeBucket burst rate clock b b') (hle : clock ≤ now) :
    LikeBucket burst rate now b b' := by
  cases h with
  | same hnonneg => exact .same fun x hx => ⟨(hnonneg x hx).1, (hnonneg x hx).2.trans hle⟩
  | @full b hfull =>
    refine .full (hfull.trans ?_)
    have hcast : ((clock - b.last : ℤ) : ℚ) ≤ ((now - b.last : ℤ) : ℚ) := by
      exact_mod_cast sub_le_sub_right hle _
    gcongr

/-- The tokens that are there now are the same. -/
theorem LikeBucket.tokens {burst rate : ℚ} {b b' : Option RateBucket}
    (h : LikeBucket burst rate now b b') :
    min burst ((b.getD ⟨burst, now⟩).tokens +
        (now - (b.getD ⟨burst, now⟩).last : ℤ) * rate / 1000) =
      min burst ((b'.getD ⟨burst, now⟩).tokens +
        (now - (b'.getD ⟨burst, now⟩).last : ℤ) * rate / 1000) := by
  cases h with
  | same _ => rfl
  | full hfull =>
    rw [Option.getD_some, min_eq_left hfull, Option.getD_none, sub_self, Int.cast_zero, zero_mul,
      zero_div, add_zero, min_self]

theorem LikeBucket.tokens_nonneg {burst rate : ℚ} {b b' : Option RateBucket} (hrate : 0 < rate)
    (hburst : 0 < burst) (h : LikeBucket burst rate now b b') :
    0 ≤ min burst ((b.getD ⟨burst, now⟩).tokens +
      (now - (b.getD ⟨burst, now⟩).last : ℤ) * rate / 1000) := by
  refine le_min hburst.le ?_
  cases h with
  | full _ =>
    rw [Option.getD_none, sub_self, Int.cast_zero, zero_mul, zero_div, add_zero]
    exact hburst.le
  | same hnonneg =>
    cases b with
    | none =>
      rw [Option.getD_none, sub_self, Int.cast_zero, zero_mul, zero_div, add_zero]
      exact hburst.le
    | some x =>
      obtain ⟨htokens, hlast⟩ := hnonneg x rfl
      have hpast : (0 : ℚ) ≤ ((now - x.last : ℤ) : ℚ) := Int.cast_nonneg (sub_nonneg.2 hlast)
      rw [Option.getD_some]
      positivity

theorem Like.mono (h : Like clock l l') (hle : clock ≤ now) : Like now l l' :=
  { h with bucket := fun address => (h.bucket address).mono h.rate_pos hle }

/-- What may be sent is the same, and so is what is left. -/
theorem Like.allow (h : Like now l l') (address : HostAddress) :
    (l.allow address now).2 = (l'.allow address now).2 ∧
      Like now (l.allow address now).1 (l'.allow address now).1 := by
  have htokens := (h.bucket address).tokens
  have hnonneg := (h.bucket address).tokens_nonneg h.rate_pos h.burst_pos
  rw [RateLimiter.allow, RateLimiter.allow, h.rate, h.burst]
  rw [htokens] at hnonneg ⊢
  have hlike : ∀ b : RateBucket, 0 ≤ b.tokens → b.last ≤ now → ∀ other,
      LikeBucket l'.burst l'.rate now (Function.update l.buckets address (some b) other)
        (Function.update l'.buckets address (some b) other) := by
    intro b hb hlast other
    by_cases hne : other = address
    · subst hne
      rw [Function.update_self, Function.update_self]
      refine .same ?_
      rintro x ⟨⟩
      exact ⟨hb, hlast⟩
    · rw [Function.update_of_ne hne, Function.update_of_ne hne]
      exact h.bucket other
  split_ifs with hlt
  · exact ⟨rfl, rfl, rfl, h.rate_pos, h.burst_pos, hlike _ hnonneg le_rfl⟩
  · exact ⟨rfl, rfl, rfl, h.rate_pos, h.burst_pos,
      hlike _ (sub_nonneg.2 (not_lt.1 hlt)) le_rfl⟩

/-- What is pruned has filled up. -/
theorem Like.prune (h : Like now l l') : Like now (l.prune now) l' := by
  refine ⟨h.rate, h.burst, h.rate_pos, h.burst_pos, fun address => ?_⟩
  have hbucket := h.bucket address
  rw [RateLimiter.prune, h.rate, h.burst]
  dsimp only
  generalize l.buckets address = b, l'.buckets address = b' at hbucket ⊢
  cases hbucket with
  | full hfull => exact .full hfull
  | same hnonneg =>
    cases b with
    | none => exact .same fun x hx => absurd hx (Option.not_mem_none x)
    | some x =>
      rw [Option.filter_some]
      split_ifs with hkept
      · exact .same hnonneg
      · refine .full ?_
        have hold : truncate (l'.burst / l'.rate * 1000) < now - x.last := by
          rwa [decide_eq_true_eq, not_not] at hkept
        have hpos : 0 < l'.burst / l'.rate * 1000 := by
          have := h.rate_pos
          have := h.burst_pos
          positivity
        rw [truncate, if_pos hpos.le, Int.floor_lt] at hold
        have hgain : l'.burst < ((now - x.last : ℤ) : ℚ) * l'.rate / 1000 := by
          have hmul := mul_lt_mul_of_pos_right hold h.rate_pos
          rw [mul_right_comm, div_mul_cancel₀ _ h.rate_pos.ne'] at hmul
          linarith
        have htokens := (hnonneg x rfl).1
        linarith

end RateLimiter

namespace ContactBudget

variable {b b' : ContactBudget} {clock now : ℤ}

/-- A budget that may have been pruned is like another one: it differs only in endpoints that
    were not written to within the window. -/
structure Like (clock : ℤ) (b b' : ContactBudget) : Prop where
  live : ∀ now dest, clock ≤ now → b.isLive dest now = b'.isLive dest now
  contacts : b.contacts = b'.contacts
  limit : b.limit = b'.limit
  balance : b.balance = b'.balance
  last : b.last = b'.last

theorem Like.mono (h : Like clock b b') (hle : clock ≤ now) : Like now b b' :=
  { h with live := fun now' dest hle' => h.live now' dest (hle.trans hle') }

theorem Like.isLimited (h : Like clock b b') : b.isLimited = b'.isLimited := by
  rw [ContactBudget.isLimited, h.limit, ContactBudget.isLimited]

theorem Like.refill (h : Like clock b b') (now : ℤ) :
    Like clock (b.refill now) (b'.refill now) := by
  rw [ContactBudget.refill, ContactBudget.refill, h.last, h.limit, h.balance]
  split_ifs
  · exact ⟨h.live, h.contacts, rfl, rfl, rfl⟩
  · exact h

theorem Like.allows (h : Like now b b') (dest : Endpoint) :
    (b.allows dest now).2 = (b'.allows dest now).2 ∧
      Like now (b.allows dest now).1 (b'.allows dest now).1 := by
  rw [ContactBudget.allows, ContactBudget.allows, h.isLimited, h.live now dest le_rfl]
  split_ifs
  · exact ⟨rfl, h⟩
  · refine ⟨?_, h.refill now⟩
    dsimp only
    rw [(h.refill now).balance]

theorem Like.record (h : Like now b b') (dest : Endpoint) :
    Like now (b.record dest now) (b'.record dest now) := by
  have hlive : ∀ now' dest', now ≤ now' →
      (Function.update b.recent dest (some now) dest').any (fun at_ => now' - at_ < WindowMs) =
        (Function.update b'.recent dest (some now) dest').any fun at_ => now' - at_ < WindowMs := by
    intro now' dest' hle
    by_cases hne : dest' = dest
    · subst hne
      rw [Function.update_self, Function.update_self]
    · rw [Function.update_of_ne hne, Function.update_of_ne hne]
      exact h.live now' dest' hle
  rw [ContactBudget.record, ContactBudget.record, h.live now dest le_rfl, h.contacts]
  dsimp only
  have hcharged : ∀ contacts, Like now
      { b with recent := Function.update b.recent dest (some now), contacts }
      { b' with recent := Function.update b'.recent dest (some now), contacts } :=
    fun _ => ⟨hlive, rfl, h.limit, h.balance, h.last⟩
  rw [(hcharged _).isLimited]
  have hrefill := (hcharged (b'.contacts + 1)).refill now
  split_ifs
  · exact ⟨hlive, rfl, h.limit, h.balance, h.last⟩
  · exact ⟨hrefill.live, hrefill.contacts, hrefill.limit, congrArg (· - 1) hrefill.balance,
      hrefill.last⟩
  · exact hcharged _

theorem Like.setLimit (h : Like now b b') (contactsPerSecond : ℤ) :
    Like now (b.setLimit contactsPerSecond now) (b'.setLimit contactsPerSecond now) := by
  rw [ContactBudget.setLimit, ContactBudget.setLimit, h.limit, h.isLimited, h.balance]
  split_ifs
  · exact h
  · exact ⟨h.live, h.contacts, rfl, rfl, rfl⟩
  · exact ⟨h.live, h.contacts, rfl, rfl, rfl⟩

/-- What is pruned was not written to within the window. -/
theorem Like.prune (h : Like now b b') : Like now (b.prune now) b' := by
  refine { h with live := fun now' dest hle => ?_ }
  rw [← h.live now' dest hle, isLive, isLive, ContactBudget.prune]
  dsimp only
  cases b.recent dest with
  | none => rfl
  | some at_ =>
    rw [Option.filter_some, Option.any_some]
    split_ifs with hkept
    · rw [Option.any_some]
    · have hold : WindowMs ≤ now - at_ := by simpa using hkept
      refine (decide_eq_false ?_).symm
      omega

end ContactBudget

namespace Limits

variable {s s' : Limits} {clock : ℤ} {calls : List Call}

/-- Nothing that counts from some time on tells two states apart. -/
structure Like (clock : ℤ) (s s' : Limits) : Prop where
  limiter : RateLimiter.Like clock s.limiter s'.limiter
  budget : ContactBudget.Like clock s.budget s'.budget

/-- A call is answered alike. -/
theorem Like.apply (h : Like clock s s') (c : Call) (hle : clock ≤ c.now) :
    (if c.isPrune then Like c.now (s.apply c).1 s'
      else (s.apply c).2 = (s'.apply c).2 ∧ Like c.now (s.apply c).1 (s'.apply c).1) := by
  have hlimiter := h.limiter.mono hle
  have hbudget := h.budget.mono hle
  cases c with
  | allow address now =>
    obtain ⟨hsame, hlike⟩ := hlimiter.allow address
    exact ⟨congrArg some hsame, hlike, hbudget⟩
  | allows dest now =>
    obtain ⟨hsame, hlike⟩ := hbudget.allows dest
    exact ⟨congrArg some hsame, hlimiter, hlike⟩
  | record dest now => exact ⟨rfl, hlimiter, hbudget.record dest⟩
  | setLimit contactsPerSecond now => exact ⟨rfl, hlimiter, hbudget.setLimit contactsPerSecond⟩
  | pruneLimiter now => exact ⟨hlimiter.prune, hbudget⟩
  | pruneBudget now => exact ⟨hlimiter, hbudget.prune⟩

theorem Like.answers (h : Like clock s s') (hle : ∀ c ∈ calls, clock ≤ c.now)
    (hsorted : (calls.map Call.now).Pairwise (· ≤ ·)) :
    s.answers calls = s'.answers (calls.filter fun c => !c.isPrune) := by
  induction calls generalizing clock s s' with
  | nil => rfl
  | cons c calls ih =>
    rw [List.map_cons, List.pairwise_cons] at hsorted
    have hlater : ∀ c' ∈ calls, c.now ≤ c'.now := fun c' hc' =>
      hsorted.1 _ (List.mem_map_of_mem hc')
    have hc := h.apply c (hle c List.mem_cons_self)
    rw [Limits.answers]
    cases hprune : c.isPrune with
    | true =>
      rw [hprune, if_pos rfl] at hc
      rw [List.filter_cons_of_neg (by simp [hprune])]
      exact ih hc hlater hsorted.2
    | false =>
      rw [hprune, if_neg Bool.false_ne_true] at hc
      rw [List.filter_cons_of_pos (by simp [hprune]), Limits.answers, hprune]
      dsimp only
      rw [if_neg Bool.false_ne_true, if_neg Bool.false_ne_true, hc.1, hc.2.budget.contacts,
        ih hc.2 hlater hsorted.2]

/-- Whenever the limiter and the budget are pruned, they answer all other calls as if they never
    were. -/
theorem answers_prune {rate burst : ℚ} (hrate : 0 < rate) (hburst : 0 < burst)
    (hsorted : (calls.map Call.now).Pairwise (· ≤ ·)) :
    answers ⟨{ rate, burst }, {}⟩ calls =
      answers ⟨{ rate, burst }, {}⟩ (calls.filter fun c => !c.isPrune) := by
  cases calls with
  | nil => rfl
  | cons c calls =>
    have hlike : Like c.now ⟨{ rate, burst }, {}⟩ ⟨{ rate, burst }, {}⟩ := by
      refine ⟨⟨rfl, rfl, hrate, hburst, fun address => .same fun x hx => ?_⟩,
        ⟨fun _ _ _ => rfl, rfl, rfl, rfl, rfl⟩⟩
      exact absurd hx (Option.not_mem_none x)
    refine hlike.answers (fun c' hc' => ?_) hsorted
    rw [List.map_cons, List.pairwise_cons] at hsorted
    rcases List.mem_cons.1 hc' with rfl | hc'
    · exact le_rfl
    · exact hsorted.1 _ (List.mem_map_of_mem hc')

/-- An address is forgotten, which is not noticed. -/
theorem answers_prune_idle :
    answers ⟨{ rate := 1, burst := 2 }, {}⟩
        [.allow .null 0, .pruneLimiter 2001, .pruneBudget 2001, .allow .null 2001] =
      answers ⟨{ rate := 1, burst := 2 }, {}⟩ [.allow .null 0, .allow .null 2001] :=
  answers_prune (by norm_num) (by norm_num) (by decide)

end Limits

end Dht
