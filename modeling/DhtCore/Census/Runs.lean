import DhtCore.Census.Slice
import Mathlib.Logic.Relation

/-!
# Runs of the census

A census with what is under way (`System`): calls of it in any order, each query and each
lookup ending once, at any time, also after the slice it was sent for is over. What holds
after any of them (`Invariant`) is what holds of the slice, with the queries under way that
are of its generation, and that the rounds so far are known (`Rounds`).

So a slice is counted only when all its nodes have had their chance (`counted_slice`).
-/

namespace Dht.Census

open List

/-- A census, and what is under way and has ended of what it sent. -/
structure System where
  census : Census
  /-- The queries under way. -/
  sent : List Query := []
  /-- The generations of the seed lookups under way. -/
  lookups : List ℕ := []
  /-- The queries that have ended, and how. -/
  replies : List (Query × RpcStatus) := []
  /-- The nodes known as each round of the slice started, the latest first. -/
  starts : List (List Endpoint) := []

/-- What happens to a census. -/
inductive Event
  | start (o : Outside) (sizeHint : Family → ℚ)
  | cancel
  | tick (o : Outside)
  /-- A query ends. -/
  | reply (o : Outside) (q : Query) (reply : RpcReply)
  /-- A lookup ends. -/
  | found (o : Outside) (generation : ℕ) (result : Lookup.Result)

namespace System

variable (s : System)

/-- What is under way of the slice. -/
def flying : List Endpoint :=
  (s.sent.filter (·.generation = s.census.generation)).map (·.endpoint)

/-- What has ended of the slice. -/
def ended : List (Endpoint × RpcStatus) :=
  (s.replies.filter (·.1.generation = s.census.generation)).map fun r => (r.1.endpoint, r.2)

/-- The rounds of the slice, once the census has changed. -/
def startsAfter (c : Census) : List (List Endpoint) :=
  if c.generation ≠ s.census.generation then [[]]
  else if c.round ≠ s.census.round then c.nodes.keys :: s.starts
  else s.starts

/-- The census changes, and sends something. -/
def goOn (c : Census) (sent : List Query) (lookups : List ℕ) : System :=
  { s with
    census := c
    sent := s.sent ++ sent
    lookups := s.lookups ++ lookups
    starts := s.startsAfter c }

/-- Something happens to the system. -/
def apply : Event → System
  | .start o sizeHint =>
    let (c, lookups) := s.census.start o sizeHint
    s.goOn c [] lookups
  | .cancel => s.goOn s.census.cancel [] []
  | .tick o =>
    let (c, sent, lookups) := s.census.tick o
    s.goOn c sent lookups
  | .reply o q reply =>
    { s with sent := s.sent.erase q, replies := s.replies ++ [(q, reply.status)] }.goOn
      (s.census.onReply o q reply) [] []
  | .found o generation result =>
    { s with lookups := s.lookups.erase generation }.goOn
      (s.census.onSeedLookup o generation result) [] []

/-- Only what is under way ends. -/
def Legal : Event → Prop
  | .reply _ q _ => q ∈ s.sent
  | .found _ generation _ => generation ∈ s.lookups
  | _ => True

instance (e : Event) : Decidable (s.Legal e) :=
  match e with
  | .reply _ q _ => inferInstanceAs (Decidable (q ∈ s.sent))
  | .found _ generation _ => inferInstanceAs (Decidable (generation ∈ s.lookups))
  | .start .. | .cancel | .tick _ => inferInstanceAs (Decidable True)

/-- One event that may happen. -/
def Step (s s' : System) : Prop := ∃ e, s.Legal e ∧ s.apply e = s'

/-- What a census with a configuration may come to be. -/
def Reachable (config : CensusConfig) (s : System) : Prop :=
  Relation.ReflTransGen Step { census := { config } } s

end System

variable {s : System} {c c' : Census} {o : Outside} {config : CensusConfig}

/-! ## Rounds -/

/-- What is known of the rounds so far: what was found in this one, and that those that
    were quiet found nothing. -/
structure Rounds (c : Census) (start : List Endpoint) (earlier : List (List Endpoint)) : Prop where
  round : c.round = (start :: earlier).length
  nodup : start.Nodup
  known : ∀ e ∈ start, e ∈ c.nodes
  found : c.newThisRound = c.nodes.keys.length - start.length
  nonneg : 0 ≤ c.quietRounds
  quiet_lt : c.quietRounds < c.round
  quiet : ∀ l ∈ (start :: earlier).take (c.quietRounds + 1).toNat, start ⊆ l

variable {start : List Endpoint} {earlier : List (List Endpoint)}

theorem Rounds.congr (h : Rounds c start earlier) (hsame : SameSlice c c') :
    Rounds c' start earlier where
  round := hsame.round.trans h.round
  nodup := h.nodup
  known e he := hsame.known e (h.known e he)
  found := by
    have hfound := hsame.found
    rw [h.found] at hfound
    omega
  nonneg := hsame.quietRounds ▸ h.nonneg
  quiet_lt := hsame.quietRounds ▸ hsame.round ▸ h.quiet_lt
  quiet := hsame.quietRounds ▸ h.quiet

/-- In a round that found nothing, no node was unknown when it started. -/
theorem Rounds.subset_start (h : Rounds c start earlier) (hnew : c.newThisRound = 0) :
    c.nodes.keys ⊆ start := by
  have hle : c.nodes.keys.length ≤ start.length := by
    have hfound := h.found
    omega
  have hsub : start <+~ c.nodes.keys := h.nodup.subperm fun e he => AList.mem_keys.1 (h.known e he)
  exact (hsub.perm_of_length_le hle).symm.subset

/-- Once a round is counted, no node was unknown when one of the quiet rounds started. -/
theorem Rounds.endRound (h : Rounds c start earlier) :
    0 ≤ c.endRound.quietRounds ∧ c.endRound.quietRounds ≤ c.round ∧
      ∀ l ∈ (start :: earlier).take c.endRound.quietRounds.toNat, c.nodes.keys ⊆ l := by
  have hnonneg := h.nonneg
  have hlt := h.quiet_lt
  rw [Census.endRound]
  dsimp only
  split_ifs with hnew
  · exact ⟨by omega, by omega, fun l hl => List.Subset.trans (h.subset_start hnew) (h.quiet l hl)⟩
  · exact ⟨le_rfl, by omega, fun l hl => absurd hl (by simp)⟩

theorem Rounds.beginRound (h : Rounds c start earlier) :
    Rounds (c.endRound.beginRound o) c.nodes.keys (start :: earlier) := by
  obtain ⟨hnonneg, hle, hquiet⟩ := h.endRound
  have hround := h.round
  refine ⟨?_, c.nodes.keys_nodup, fun e he => AList.mem_keys.2 he, (sub_self _).symm,
    hnonneg, ?_, ?_⟩
  · change c.round + 1 = _
    rw [hround, @length_cons _ _ (start :: earlier)]
    push_cast
    ring
  · exact Int.lt_add_one_of_le hle
  · intro l hl
    change l ∈ (c.nodes.keys :: start :: earlier).take (c.endRound.quietRounds + 1).toNat at hl
    rw [Int.toNat_add hnonneg zero_le_one, show (1 : ℤ).toNat = 1 from rfl, take_succ_cons,
      mem_cons] at hl
    rcases hl with rfl | hl
    · exact List.Subset.refl _
    · exact hquiet l hl

/-! ## A new slice -/

/-- What a slice starts with, if one does: nothing is under way but lookups. -/
structure Fresh (c c' : Census) (lookups : List ℕ) : Prop where
  config : c'.config = c.config
  generation : c'.generation = c.generation + 1
  done : c'.done = c.done
  slice : InSlice c' [] []
  pendingLookups : c'.pendingLookups = lookups.length
  lookups : ∀ g ∈ lookups, g = c'.generation
  rounds : c'.isRunning → Rounds c' [] []

theorem inSlice_empty (hnodes : c.nodes = ∅) (hqueue : c.queue = [])
    (houtstanding : c.outstanding = 0) :
    InSlice c [] [] where
  nodup := by simp [hqueue]
  known := by simp [hqueue]
  replied := by simp
  outstanding := houtstanding
  node e n hn := by simp [hnodes] at hn

theorem fresh_finishAll (c : Census) (state : CensusState) (hstate : state ≠ .Running) :
    Fresh c (c.finishAll state) [] where
  config := rfl
  generation := rfl
  done := rfl
  slice := inSlice_empty rfl rfl rfl
  pendingLookups := rfl
  lookups := by simp
  rounds hrunning := absurd (of_decide_eq_true hrunning) hstate

/-- A lookup that is done adds the nodes that it found. -/
theorem onSeedLookup_eq (c : Census) (o : Outside) (result : Lookup.Result) :
    c.onSeedLookup o c.generation result =
      considerAll { c with pendingLookups := c.pendingLookups - 1 } o
        (result.closest.map fun contact => (contact.id, contact.endpoint)) :=
  if_neg (not_not.2 rfl)

/-- More lookups, and a slice that stays as it is. -/
theorem SameSlice.pending (h : SameSlice c c') (n : ℤ) :
    SameSlice { c with pendingLookups := c.pendingLookups + n }
      { c' with pendingLookups := c'.pendingLookups + n } :=
  ⟨h.config, h.state, h.generation, h.family, congrArg (· + n) h.pendingLookups, h.done, h.round,
    h.quietRounds, h.found, h.known⟩

/-- Lookups are started, and may list nodes at once. -/
structure LookedUp (c c' : Census) (lookups : List ℕ) : Prop where
  same : SameSlice { c with pendingLookups := c.pendingLookups + lookups.length } c'
  lookups : ∀ g ∈ lookups, g = c.generation
  slice : ∀ flying replies, InSlice c flying replies → InSlice c' flying replies

theorem lookedUp_startLookup (hpatient : 1 ≤ c.config.failuresToGiveUp) (i : ℕ) :
    LookedUp c (c.startLookup o i).1 (c.startLookup o i).2 := by
  rw [startLookup]
  dsimp only
  cases o.foundAtOnce i with
  | none =>
    exact ⟨.refl _, by simp, fun flying replies h => h.congr rfl rfl (.refl _) rfl⟩
  | some result =>
    dsimp only
    rw [onSeedLookup_eq { c with pendingLookups := c.pendingLookups + 1 }]
    dsimp only
    rw [add_sub_cancel_right]
    refine ⟨?_, by simp, fun flying replies h => h.considerAll hpatient _⟩
    rw [length_nil, Nat.cast_zero, add_zero]
    exact sameSlice_considerAll _ _

theorem lookedUp_startLookups (n i : ℕ) (hpatient : 1 ≤ c.config.failuresToGiveUp) :
    LookedUp c (startLookups o n i c).1 (startLookups o n i c).2 := by
  induction n generalizing i c with
  | zero => exact ⟨by simpa [startLookups] using .refl c, by simp [startLookups], fun _ _ h => h⟩
  | succ n ih =>
    have h := lookedUp_startLookup (o := o) hpatient i
    have h' := ih (c := (c.startLookup o i).1) (i + 1) (h.same.config ▸ hpatient)
    rw [startLookups]
    refine ⟨?_, fun g hg => ?_, fun flying replies hslice => h'.slice _ _ (h.slice _ _ hslice)⟩
    · rw [length_append, Nat.cast_add, ← add_assoc]
      exact (h.same.pending _).trans h'.same
    · rcases mem_append.1 hg with hg | hg
      · exact h.lookups g hg
      · exact (h'.lookups g hg).trans h.same.generation

theorem lookedUp_seedSlice (hpatient : 1 ≤ c.config.failuresToGiveUp) :
    LookedUp c (c.seedSlice o).1 (c.seedSlice o).2 := by
  rw [seedSlice]
  generalize hknown : ((o.catalog.slots.map o.catalog.entryAt).filter _).map
    (fun e : CatalogEntry => (e.id, e.endpoint)) = known
  generalize hclosest : o.closest.map (fun n => (n.id, n.endpoint)) = closest
  have hsame := (sameSlice_considerAll (o := o) known c).trans
    (sameSlice_considerAll (o := o) closest _)
  have h := lookedUp_startLookups (o := o) SeedLookups 0 (hsame.config ▸ hpatient)
  refine ⟨?_, fun g hg => (h.lookups g hg).trans hsame.generation, fun flying replies hslice => ?_⟩
  · exact (hsame.pending _).trans h.same
  · have hslice' := hslice.considerAll (o := o) hpatient known
    exact h.slice _ _ (hslice'.considerAll
      ((sameSlice_considerAll (o := o) known c).config ▸ hpatient) closest)

theorem fresh_startSlice (c : Census) (hpatient : 1 ≤ c.config.failuresToGiveUp) :
    Fresh c (c.startSlice o).1 (c.startSlice o).2 := by
  rw [startSlice]
  split
  · next family _ =>
    have h := fresh_finishAll { c with family, plan := [] } .Done (by simp)
    exact ⟨h.config, h.generation, h.done, h.slice, h.pendingLookups, h.lookups, h.rounds⟩
  · next family plan _ =>
    dsimp only
    generalize hnew : Census.mk .. = new
    have hempty : InSlice (new.beginRound o) [] [] := by
      subst hnew
      exact (inSlice_empty rfl rfl rfl).beginRound rfl
    have hrounds : Rounds (new.beginRound o) [] [] := by
      subst hnew
      exact ⟨rfl, nodup_nil, by simp, rfl, le_rfl, zero_lt_one, by simp [Census.beginRound]⟩
    have hbefore : (new.beginRound o).config = c.config ∧
        (new.beginRound o).generation = c.generation + 1 ∧
        (new.beginRound o).done = c.done ∧ (new.beginRound o).pendingLookups = 0 := by
      subst hnew
      exact ⟨rfl, rfl, rfl, rfl⟩
    obtain ⟨hconfig, hgeneration, hdone, hpending⟩ := hbefore
    have h := lookedUp_seedSlice (o := o) (hconfig ▸ hpatient)
    have hsame := h.same
    have hrounds' : Rounds { new.beginRound o with
        pendingLookups := (new.beginRound o).pendingLookups +
          ((new.beginRound o).seedSlice o).2.length } [] [] :=
      ⟨hrounds.round, hrounds.nodup, hrounds.known, hrounds.found, hrounds.nonneg,
        hrounds.quiet_lt, hrounds.quiet⟩
    exact
      { config := hsame.config.trans hconfig
        generation := hsame.generation.trans hgeneration
        done := hsame.done.trans hdone
        slice := h.slice _ _ hempty
        pendingLookups := by
          rw [hsame.pendingLookups, hpending, zero_add]
        lookups := fun g hg => (h.lookups g hg).trans hsame.generation.symm
        rounds := fun _ => hrounds'.congr hsame }

/-! ## What a call does -/

/-- A tick counts the slice and starts the next one, starts another round, or asks. -/
theorem tick_cases (c : Census) (o : Outside) :
    (c.counting o = none ∧ (¬c.isRunning ∧ c.tick o = (c, [], []) ∨
      c.tick o = (c.finishAll .Cancelled, [], []) ∨
      (c.isRunning ∧ (c.askSome o).1.roundOver ∧ c.tick o =
        ((c.askSome o).1.endRound.beginRound o, (c.askSome o).2, [])) ∨
      c.isRunning ∧ c.tick o = ((c.askSome o).1, (c.askSome o).2, []))) ∨
    c.isRunning ∧ (c.askSome o).1.roundOver ∧ (c.askSome o).1.endRound.sliceOver ∧
      c.counting o = some ((c.askSome o).1.endRound, (c.askSome o).2) ∧
      c.tick o = ((((c.askSome o).1.endRound.finishSlice o).startSlice o).1,
        (c.askSome o).2, (((c.askSome o).1.endRound.finishSlice o).startSlice o).2) := by
  by_cases hrunning : c.isRunning
  · by_cases hnode : o.nodeId c.family = none
    · refine .inl ⟨by simp [counting, hnode], .inr (.inl ?_)⟩
      simp [tick, hrunning, hnode]
    by_cases hcount : (c.askSome o).1.roundOver ∧ (c.askSome o).1.endRound.sliceOver
    · have hcounting : c.counting o = some ((c.askSome o).1.endRound, (c.askSome o).2) := by
        simp [counting, hrunning, hnode, hcount]
      refine .inr ⟨hrunning, hcount.1, hcount.2, hcounting, ?_⟩
      simp [tick, hrunning, hnode, hcounting]
    · have hcounting : c.counting o = none := by
        simp only [counting, hrunning, hnode, Bool.not_true, Bool.false_eq_true, or_self, if_false,
          if_neg hcount]
      by_cases hover : (c.askSome o).1.roundOver
      · refine .inl ⟨hcounting, .inr (.inr (.inl ⟨hrunning, hover, ?_⟩))⟩
        simp [tick, hrunning, hnode, hcounting, hover]
      · refine .inl ⟨hcounting, .inr (.inr (.inr ⟨hrunning, ?_⟩))⟩
        simp [tick, hrunning, hnode, hcounting, hover]
  · refine .inl ⟨by simp [counting, hrunning], .inl ⟨hrunning, ?_⟩⟩
    simp [tick, hrunning]

namespace System

/-- What holds after any run. -/
structure Invariant (config : CensusConfig) (s : System) : Prop where
  config : s.census.config = config
  sent : ∀ q ∈ s.sent, q.generation ≤ s.census.generation
  lookups : ∀ g ∈ s.lookups, g ≤ s.census.generation
  replies : ∀ r ∈ s.replies, r.1.generation ≤ s.census.generation
  slice : InSlice s.census s.flying s.ended
  pendingLookups : s.census.pendingLookups = s.lookups.count s.census.generation
  rounds : s.census.isRunning →
    ∃ start earlier, s.starts = start :: earlier ∧ Rounds s.census start earlier

theorem invariant_init (config : CensusConfig) :
    Invariant config { census := { config } } where
  config := rfl
  sent := by simp
  lookups := by simp
  replies := by simp
  slice := inSlice_empty rfl rfl rfl
  pendingLookups := rfl
  rounds hrunning := absurd (of_decide_eq_true hrunning) (by simp)

/-- A new slice starts, and all that is under way is late. -/
theorem Invariant.fresh (h : s.Invariant config) {b c : Census} {sent : List Query}
    {lookups : List ℕ} (hfresh : Fresh b c lookups) (hconfig : b.config = s.census.config)
    (hgeneration : b.generation = s.census.generation)
    (hsent : ∀ q ∈ sent, q.generation = s.census.generation) :
    (s.goOn c sent lookups).Invariant config := by
  have hnext : c.generation = s.census.generation + 1 :=
    hfresh.generation.trans (by rw [hgeneration])
  have hle : ∀ q ∈ s.sent ++ sent, q.generation ≤ s.census.generation := fun q hq =>
    (mem_append.1 hq).elim (h.sent q) fun hq => (hsent q hq).le
  -- No query and no reply is of the generation that begins.
  have hflying : (s.goOn c sent lookups).flying = [] := by
    rw [flying, map_eq_nil_iff, filter_eq_nil_iff]
    intro q hq heq
    have hlate := hle q hq
    have heq : q.generation = c.generation := of_decide_eq_true heq
    omega
  have hended : (s.goOn c sent lookups).ended = [] := by
    rw [ended, map_eq_nil_iff, filter_eq_nil_iff]
    intro r hr heq
    have hlate := h.replies r hr
    have heq : r.1.generation = c.generation := of_decide_eq_true heq
    omega
  have hcount : s.lookups.count c.generation = 0 := count_eq_zero.2 fun hg => by
    have hlate := h.lookups _ hg
    omega
  have hnew : lookups.count c.generation = lookups.length :=
    count_eq_length.2 fun g hg => (hfresh.lookups g hg).symm
  exact
    { config := (hfresh.config.trans hconfig).trans h.config
      sent := fun q hq => (hle q hq).trans (by change _ ≤ c.generation; omega)
      lookups := fun g hg => (mem_append.1 hg).elim
        (fun hg => (h.lookups g hg).trans (by change _ ≤ c.generation; omega))
        fun hg => (hfresh.lookups g hg).le
      replies := fun r hr => (h.replies r hr).trans (by change _ ≤ c.generation; omega)
      slice := by
        rw [hflying, hended]
        exact hfresh.slice
      pendingLookups := by
        change c.pendingLookups = (s.lookups ++ lookups).count c.generation
        rw [hfresh.pendingLookups, count_append, hcount, hnew, zero_add]
      rounds := fun hrunning => by
        refine ⟨[], [], ?_, hfresh.rounds hrunning⟩
        exact if_pos (by omega) }

/-- The slice goes on. -/
theorem Invariant.goOn (h : s.Invariant config) {s' : System}
    (hconfig : s'.census.config = s.census.config)
    (hgeneration : s'.census.generation = s.census.generation)
    (hsent : ∀ q ∈ s'.sent, q ∈ s.sent ∨ q.generation = s.census.generation)
    (hlookups : ∀ g ∈ s'.lookups, g ∈ s.lookups)
    (hreplies : ∀ r ∈ s'.replies, r ∈ s.replies ∨ r.1 ∈ s.sent)
    (hslice : InSlice s'.census s'.flying s'.ended)
    (hpending : s'.census.pendingLookups = s'.lookups.count s.census.generation)
    (hrounds : s'.census.isRunning →
      ∃ start earlier, s'.starts = start :: earlier ∧ Rounds s'.census start earlier) :
    s'.Invariant config where
  config := hconfig.trans h.config
  sent q hq := hgeneration ▸ (hsent q hq).elim (h.sent q) fun heq => heq.le
  lookups g hg := hgeneration ▸ h.lookups g (hlookups g hg)
  replies r hr := hgeneration ▸ (hreplies r hr).elim (h.replies r) fun hq => h.sent _ hq
  slice := hslice
  pendingLookups := hgeneration ▸ hpending
  rounds := hrounds

theorem startsAfter_of_same (hgeneration : c.generation = s.census.generation)
    (hround : c.round = s.census.round) : s.startsAfter c = s.starts := by
  rw [startsAfter, if_neg (not_not.2 hgeneration), if_neg (not_not.2 hround)]

theorem Invariant.roundsAfter (h : s.Invariant config) {p : ℤ}
    (hsame : SameSlice { s.census with pendingLookups := p } c) (hrunning : c.isRunning) :
    ∃ start earlier, s.startsAfter c = start :: earlier ∧ Rounds c start earlier := by
  have hbefore : s.census.isRunning := by
    rw [isRunning, hsame.state] at hrunning
    exact hrunning
  obtain ⟨start, earlier, hstarts, hrounds⟩ := h.rounds hbefore
  have hrounds' : Rounds { s.census with pendingLookups := p } start earlier :=
    ⟨hrounds.round, hrounds.nodup, hrounds.known, hrounds.found, hrounds.nonneg, hrounds.quiet_lt,
      hrounds.quiet⟩
  exact ⟨start, earlier, (startsAfter_of_same hsame.generation hsame.round).trans hstarts,
    hrounds'.congr hsame⟩

/-- What is under way of the slice, once a query has ended. -/
theorem flying_erase {q : Query} (hq : q ∈ s.sent) :
    s.flying ~ (if q.generation = s.census.generation then [q.endpoint] else []) ++
      ((s.sent.erase q).filter (·.generation = s.census.generation)).map (·.endpoint) := by
  have hperm := ((perm_cons_erase hq).filter
    (·.generation = s.census.generation)).map (·.endpoint)
  rw [filter_cons] at hperm
  refine hperm.trans (.of_eq ?_)
  simp only [decide_eq_true_eq]
  split_ifs <;> rfl

theorem Invariant.reply (h : s.Invariant config)
    (hgive : 1 ≤ config.failuresToGiveUp ∧ config.failuresToGiveUp ≤ 255) {q : Query}
    (hq : q ∈ s.sent) (reply : RpcReply) :
    (s.apply (.reply o q reply)).Invariant config := by
  have hsame := sameSlice_onReply (c := s.census) (o := o) q reply
  have hsent : ∀ q' ∈ s.sent.erase q ++ [], q' ∈ s.sent ∨ q'.generation = s.census.generation :=
    fun q' hq' => .inl (mem_of_mem_erase (by simpa using hq'))
  have hreplies : ∀ r ∈ s.replies ++ [(q, reply.status)], r ∈ s.replies ∨ r.1 ∈ s.sent := by
    intro r hr
    rw [mem_append, mem_singleton] at hr
    refine hr.imp_right ?_
    rintro rfl
    exact hq
  refine h.goOn hsame.config hsame.generation hsent
    (fun g hg => by simpa [apply, System.goOn] using hg)
    hreplies ?_ ?_ (h.roundsAfter hsame)
  · have hflying := flying_erase hq
    have hflying' : (s.apply (.reply o q reply)).flying =
        ((s.sent.erase q).filter (·.generation = s.census.generation)).map (·.endpoint) := by
      rw [flying, show (s.apply (.reply o q reply)).census.generation = s.census.generation from
        hsame.generation]
      simp [apply, System.goOn]
    have hended : (s.apply (.reply o q reply)).ended = s.ended ++
        if q.generation = s.census.generation then [(q.endpoint, reply.status)] else [] := by
      rw [ended, show (s.apply (.reply o q reply)).census.generation = s.census.generation from
        hsame.generation]
      simp only [apply, System.goOn, filter_append, map_append, ended, filter_singleton]
      congr 1
      split_ifs with heq <;> simp [heq]
    rw [hflying', hended]
    -- A reply to an earlier slice leaves what is under way in this one.
    by_cases hlate : q.generation = s.census.generation
    · rw [if_pos hlate] at hflying ⊢
      have hmem : q.endpoint ∈ s.flying := hflying.mem_iff.2 (by simp)
      have hslice := h.slice.onReply (o := o) (h.config ▸ hgive) hlate hmem reply
      refine hslice.perm ?_
      have herase := hflying.erase q.endpoint
      rw [singleton_append, erase_cons_head] at herase
      exact herase.symm
    · rw [if_neg hlate] at hflying ⊢
      rw [append_nil]
      change InSlice (s.census.onReply o q reply) _ _
      rw [Census.onReply, if_pos hlate]
      exact h.slice.perm hflying.symm
  · rw [show (s.apply (.reply o q reply)).census.pendingLookups = s.census.pendingLookups from
      hsame.pendingLookups, h.pendingLookups]
    simp [apply, System.goOn]

theorem Invariant.found (h : s.Invariant config) (hpatient : 1 ≤ config.failuresToGiveUp) {g : ℕ}
    (hg : g ∈ s.lookups) (result : Lookup.Result) :
    (s.apply (.found o g result)).Invariant config := by
  have hsent : ∀ q' ∈ s.sent ++ [], q' ∈ s.sent ∨ q'.generation = s.census.generation :=
    fun q' hq' => .inl (by simpa using hq')
  have hlookups : ∀ g' ∈ s.lookups.erase g ++ [], g' ∈ s.lookups :=
    fun g' hg' => mem_of_mem_erase (by simpa using hg')
  -- A lookup of an earlier slice leaves the count of those that are waited for.
  by_cases hlate : g = s.census.generation
  · subst hlate
    have hsame := sameSlice_considerAll (o := o)
      (result.closest.map fun contact => (contact.id, contact.endpoint))
      { s.census with pendingLookups := s.census.pendingLookups - 1 }
    rw [← onSeedLookup_eq] at hsame
    refine h.goOn hsame.config hsame.generation hsent hlookups (fun r hr => .inl hr) ?_ ?_
      (h.roundsAfter hsame)
    · have hflying : (s.apply (.found o s.census.generation result)).flying = s.flying := by
        rw [flying, show (s.apply (.found o s.census.generation result)).census.generation =
          s.census.generation from hsame.generation]
        simp [apply, System.goOn, flying]
      have hended : (s.apply (.found o s.census.generation result)).ended = s.ended := by
        rw [ended, show (s.apply (.found o s.census.generation result)).census.generation =
          s.census.generation from hsame.generation]
        rfl
      rw [hflying, hended]
      change InSlice (s.census.onSeedLookup o s.census.generation result) _ _
      rw [onSeedLookup_eq]
      have hslice : InSlice { s.census with pendingLookups := s.census.pendingLookups - 1 }
          s.flying s.ended := h.slice.congr rfl rfl (.refl _) rfl
      exact hslice.considerAll (h.config ▸ hpatient) _
    · rw [show (s.apply (.found o s.census.generation result)).census.pendingLookups =
        s.census.pendingLookups - 1 from hsame.pendingLookups, h.pendingLookups]
      have hpos := count_pos_iff.2 hg
      simp only [apply, System.goOn, append_nil, count_erase_self]
      omega
  · have hsame : s.census.onSeedLookup o g result = s.census := if_pos hlate
    have hcensus : (s.apply (.found o g result)).census = s.census := hsame
    have hflying : (s.apply (.found o g result)).flying = s.flying := by
      rw [flying, hcensus]
      simp [apply, System.goOn, flying]
    have hended : (s.apply (.found o g result)).ended = s.ended := by
      rw [ended, hcensus]
      rfl
    refine h.goOn (by rw [hcensus]) (by rw [hcensus]) hsent hlookups (fun r hr => .inl hr) ?_ ?_
      (h.roundsAfter (p := s.census.pendingLookups) (hsame.symm ▸ SameSlice.refl s.census))
    · rw [hflying, hended, hcensus]
      exact h.slice
    · rw [hcensus, h.pendingLookups]
      simp only [apply, System.goOn, append_nil]
      rw [count_erase_of_ne (Ne.symm hlate)]

/-- Nothing happens to the census. -/
theorem Invariant.unchanged (h : s.Invariant config) :
    (s.goOn s.census [] []).Invariant config := by
  rwa [show s.goOn s.census [] [] = s by simp [System.goOn, startsAfter]]

theorem flying_goOn {sent : List Query} (hgeneration : c.generation = s.census.generation)
    (hsent : ∀ q ∈ sent, q.generation = s.census.generation) (lookups : List ℕ) :
    (s.goOn c sent lookups).flying = s.flying ++ sent.map (·.endpoint) := by
  have hall : sent.filter (·.generation = s.census.generation) = sent :=
    filter_eq_self.2 fun q hq => decide_eq_true (hsent q hq)
  simp only [flying, System.goOn, hgeneration, filter_append, map_append, hall]

theorem ended_goOn (hgeneration : c.generation = s.census.generation) (sent : List Query)
    (lookups : List ℕ) : (s.goOn c sent lookups).ended = s.ended := by
  simp only [ended, System.goOn, hgeneration]

/-- Some are asked. -/
theorem Invariant.asked (h : s.Invariant config) :
    InSlice (s.census.askSome o).1
        (s.flying ++ (s.census.askSome o).2.map (·.endpoint)) s.ended ∧
      (∀ q ∈ (s.census.askSome o).2, q.generation = s.census.generation) ∧
      SameSlice s.census (s.census.askSome o).1 :=
  h.slice.askQueued _ _

/-- A round that is over leaves nothing under way of the slice. -/
theorem Invariant.settled (h : s.Invariant config) (hover : (s.census.askSome o).1.roundOver) :
    (s.census.askSome o).1.queue = [] ∧ s.flying = [] ∧ (s.census.askSome o).2 = [] ∧
      s.census.generation ∉ s.lookups := by
  obtain ⟨hslice, -, hsame⟩ := h.asked (o := o)
  obtain ⟨hqueue, hflying, hpending⟩ := hslice.settled hover
  rw [append_eq_nil_iff, map_eq_nil_iff] at hflying
  rw [hsame.pendingLookups, h.pendingLookups] at hpending
  exact ⟨hqueue, hflying.1, hflying.2, count_eq_zero.1 (by omega)⟩

theorem Invariant.tick (h : s.Invariant config) (hpatient : 1 ≤ config.failuresToGiveUp) :
    (s.apply (.tick o)).Invariant config := by
  obtain ⟨hslice, hsent, hsame⟩ := h.asked (o := o)
  change (s.goOn (s.census.tick o).1 (s.census.tick o).2.1 (s.census.tick o).2.2).Invariant _
  rcases tick_cases s.census o with
    ⟨-, ⟨-, htick⟩ | htick | ⟨hrunning, hover, htick⟩ | ⟨hrunning, htick⟩⟩ |
    ⟨-, -, -, -, htick⟩ <;> rw [htick]
  · exact h.unchanged
  · exact h.fresh (fresh_finishAll s.census _ (by simp)) rfl rfl (by simp)
  · -- Another round of the slice: nothing is under way, and some are to be asked again.
    obtain ⟨hqueue, hflying, hasked, -⟩ := h.settled hover
    dsimp only
    rw [hasked]
    rw [hflying, hasked, map_nil, append_nil] at hslice
    have hgeneration : ((s.census.askSome o).1.endRound.beginRound o).generation =
        s.census.generation := hsame.generation
    refine h.goOn hsame.config hsame.generation (fun q hq => .inl (by simpa [System.goOn] using hq))
      (fun g hg => by simpa [System.goOn] using hg) (fun r hr => .inl hr) ?_ ?_ fun _ => ?_
    · rw [flying_goOn hgeneration (by simp), ended_goOn hgeneration, hflying]
      have hend : InSlice (s.census.askSome o).1.endRound [] s.ended :=
        hslice.congr rfl rfl (.refl _) rfl
      exact hend.beginRound hqueue
    · simp only [System.goOn, append_nil, ← h.pendingLookups]
      exact hsame.pendingLookups
    · obtain ⟨start, earlier, hstarts, hrounds⟩ := h.rounds hrunning
      refine ⟨_, start :: earlier, ?_, (hrounds.congr hsame).beginRound⟩
      have hround : ((s.census.askSome o).1.endRound.beginRound o).round ≠ s.census.round := by
        change (s.census.askSome o).1.round + 1 ≠ _
        rw [hsame.round]
        omega
      change s.startsAfter _ = _
      rw [startsAfter, if_neg (not_not.2 hgeneration), if_pos hround, hstarts]
      rfl
  · dsimp only
    refine h.goOn hsame.config hsame.generation (fun q hq => (mem_append.1 hq).imp_right (hsent q))
      (fun g hg => by simpa [System.goOn] using hg) (fun r hr => .inl hr) ?_ ?_
      (h.roundsAfter (p := s.census.pendingLookups) hsame)
    · rw [flying_goOn hsame.generation hsent, ended_goOn hsame.generation]
      exact hslice
    · simp only [System.goOn, append_nil, ← h.pendingLookups]
      exact hsame.pendingLookups
  · exact h.fresh (fresh_startSlice _ ((hsame.config.trans h.config).symm ▸ hpatient)) hsame.config
      hsame.generation hsent

/-- What each event keeps. -/
theorem Invariant.apply (h : s.Invariant config)
    (hgive : 1 ≤ config.failuresToGiveUp ∧ config.failuresToGiveUp ≤ 255) (e : Event)
    (hlegal : s.Legal e) : (s.apply e).Invariant config := by
  cases e with
  | start o sizeHint =>
    change (s.goOn (s.census.start o sizeHint).1 [] (s.census.start o sizeHint).2).Invariant _
    rw [Census.start]
    split_ifs
    · exact h.unchanged
    · exact h.fresh (fresh_startSlice _ (h.config.symm ▸ hgive.1)) rfl rfl (by simp)
  | cancel =>
    change (s.goOn s.census.cancel [] []).Invariant _
    rw [Census.cancel]
    split_ifs
    · exact h.fresh (fresh_finishAll s.census _ (by simp)) rfl rfl (by simp)
    · exact h.unchanged
  | tick o => exact h.tick hgive.1
  | reply o q reply => exact h.reply hgive hlegal reply
  | found o g result => exact h.found hgive.1 hlegal result

theorem Reachable.invariant (h : Reachable config s)
    (hgive : 1 ≤ config.failuresToGiveUp ∧ config.failuresToGiveUp ≤ 255) :
    s.Invariant config := by
  induction h with
  | refl => exact invariant_init config
  | tail _ hstep ih =>
    obtain ⟨e, hlegal, rfl⟩ := hstep
    exact ih.apply hgive e hlegal

end System

/-! ## Counting a slice -/

/-- That all of a slice have had their chance, which a tick counts as `c`, having sent
    queries before that. -/
structure Counted (s : System) (c : Census) (sent : List Query) : Prop where
  queue : c.queue = []
  no_query : ∀ q ∈ s.sent ++ sent, q.generation ≠ c.generation
  no_lookup : c.generation ∉ s.lookups
  outstanding : c.outstanding = 0
  pendingLookups : c.pendingLookups = 0
  /-- All answered, or did not as often as it takes. -/
  node : ∀ e n, c.nodes.lookup e = some n → n.state = .Answered ∨ n.state = .Silent ∧
    c.config.failuresToGiveUp ≤ s.ended.count (e, .Timeout) ∧
    (e, .Response) ∉ s.ended ∧ (e, .Error) ∉ s.ended
  /-- Enough rounds in a row found no new node, or there were enough of them. -/
  rounds : (c.config.quietRoundsToFinish ≤ s.starts.length ∧
      ∀ known ∈ s.starts.take c.config.quietRoundsToFinish.toNat, ∀ e ∈ c.nodes, e ∈ known) ∨
    c.config.maxRounds ≤ c.round

theorem counted_of_counting (h : s.Invariant config) {sent : List Query}
    (hcounting : s.census.counting o = some (c, sent)) : Counted s c sent := by
  rcases tick_cases s.census o with ⟨hnone, -⟩ | ⟨hrunning, hover, hover', hcounting', -⟩
  · rw [hnone] at hcounting
    exact nomatch hcounting
  rw [hcounting', Option.some.injEq, Prod.mk.injEq] at hcounting
  obtain ⟨rfl, rfl⟩ := hcounting
  obtain ⟨hslice, hsent, hsame⟩ := h.asked (o := o)
  obtain ⟨hqueue, hflying, hasked, hlookups⟩ := h.settled hover
  have hgeneration : (s.census.askSome o).1.endRound.generation = s.census.generation :=
    hsame.generation
  have hpending : s.census.pendingLookups = 0 := by
    rw [h.pendingLookups, count_eq_zero.2 hlookups]
    rfl
  rw [hflying, hasked, map_nil, append_nil] at hslice
  refine
    { queue := hqueue
      no_query := fun q hq heq => ?_
      no_lookup := hgeneration ▸ hlookups
      outstanding := hslice.outstanding
      pendingLookups := hsame.pendingLookups.trans hpending
      node := fun e n hn => ?_
      rounds := ?_ }
  · rw [hasked, append_nil] at hq
    rw [System.flying, map_eq_nil_iff, filter_eq_nil_iff] at hflying
    exact hflying q hq (decide_eq_true (heq.trans hgeneration))
  · have hnode := hslice.node e n hn
    by_cases hanswered : n.state = .Answered
    · exact .inl hanswered
    · have hfailing := hnode.failing hanswered
      -- In an empty queue nothing waits, and nothing is asked.
      have hsilent : n.state = .Silent := by
        cases hstate : n.state with
        | Waiting => exact absurd (hnode.waiting hstate) (by simp [hqueue])
        | Asked => exact absurd (hnode.asked hstate) not_mem_nil
        | Answered => exact absurd hstate hanswered
        | Silent => rfl
      refine .inr ⟨hsilent, ?_, hfailing.no_response, hfailing.no_error⟩
      rw [← hfailing.failures]
      exact (hnode.silent hanswered).1 hsilent
  · obtain ⟨start, earlier, hstarts, hrounds⟩ := h.rounds hrunning
    obtain ⟨hnonneg, hle, hquiet⟩ := (hrounds.congr hsame).endRound
    rw [sliceOver, Bool.or_eq_true, decide_eq_true_eq, decide_eq_true_eq] at hover'
    refine hover'.imp (fun henough => ?_) id
    have hround := (hrounds.congr hsame).round
    rw [hstarts]
    refine ⟨henough.trans (hle.trans hround.le), fun known hknown e he => ?_⟩
    have hmem : known ∈ (start :: earlier).take
        (s.census.askSome o).1.endRound.quietRounds.toNat :=
      (take_subset_take_left _ (Int.toNat_le_toNat henough)) hknown
    exact hquiet known hmem (AList.mem_keys.1 he)

/-- The slices that were counted, after an event: a tick may count one, and a start begins
    anew. -/
theorem done_apply (h : s.Invariant config) (hpatient : 1 ≤ config.failuresToGiveUp) (e : Event) :
    (s.apply e).census.done = s.census.done ∨
    (∃ o sizeHint, e = .start o sizeHint ∧ (s.apply e).census.done = []) ∨
    ∃ o c sent, e = .tick o ∧ s.census.counting o = some (c, sent) ∧
      (s.apply e).census.done = s.census.done ++ [c.countSlice o] := by
  cases e with
  | start o sizeHint =>
    change (s.census.start o sizeHint).1.done = _ ∨ _
    by_cases hrunning : s.census.isRunning
    · rw [Census.start, if_pos hrunning]
      exact .inl rfl
    · refine .inr (.inl ⟨o, sizeHint, rfl, ?_⟩)
      change (s.census.start o sizeHint).1.done = _
      rw [Census.start, if_neg hrunning]
      exact (fresh_startSlice _ (h.config.symm ▸ hpatient)).done
  | cancel =>
    change s.census.cancel.done = _ ∨ _
    rw [Census.cancel]
    split_ifs
    · exact .inl rfl
    · exact .inl rfl
  | tick o =>
    obtain ⟨-, -, hsame⟩ := h.asked (o := o)
    change (s.census.tick o).1.done = _ ∨ _
    -- Only a tick that finds the slice over counts it.
    rcases tick_cases s.census o with
      ⟨-, ⟨-, htick⟩ | htick | ⟨-, -, htick⟩ | ⟨-, htick⟩⟩ | ⟨-, -, -, hcounting, htick⟩
    · exact .inl (htick ▸ rfl)
    · exact .inl (htick ▸ rfl)
    · exact .inl (htick ▸ hsame.done)
    · exact .inl (htick ▸ hsame.done)
    · refine .inr (.inr ⟨o, _, _, rfl, hcounting, ?_⟩)
      change (s.census.tick o).1.done = _
      rw [htick]
      refine (fresh_startSlice _ ((hsame.config.trans h.config).symm ▸ hpatient)).done.trans ?_
      exact congrArg (· ++ _) hsame.done
  | reply o q reply => exact .inl (sameSlice_onReply q reply).done
  | found o g result =>
    change (s.census.onSeedLookup o g result).done = _ ∨ _
    rw [onSeedLookup]
    split_ifs
    · exact .inl rfl
    · exact .inl (sameSlice_considerAll _ _).done

/-- In every run, a slice is counted only when all its nodes have had their chance; until then
    the queue holds those that wait, what is under way is counted, and what is late changes
    nothing. -/
theorem counted_slice {config : CensusConfig}
    (hgive : 1 ≤ config.failuresToGiveUp ∧ config.failuresToGiveUp ≤ 255) {s : System}
    (h : s.Reachable config) :
    s.census.outstanding = s.flying.length ∧
    s.census.pendingLookups = s.lookups.count s.census.generation ∧
    (∀ e n, s.census.nodes.lookup e = some n → n.state = .Waiting → s.census.queue.count e = 1) ∧
    (∀ o q reply, q.generation ≠ s.census.generation → s.census.onReply o q reply = s.census) ∧
    (∀ o g result, g ≠ s.census.generation → s.census.onSeedLookup o g result = s.census) ∧
    (∀ o c sent, s.census.counting o = some (c, sent) → Counted s c sent) ∧
    ∀ e, (s.apply e).census.done = s.census.done ∨
      (∃ o sizeHint, e = .start o sizeHint ∧ (s.apply e).census.done = []) ∨
      ∃ o c sent, e = .tick o ∧ s.census.counting o = some (c, sent) ∧
        (s.apply e).census.done = s.census.done ++ [c.countSlice o] := by
  have hinv := h.invariant hgive
  refine ⟨hinv.slice.outstanding, hinv.pendingLookups, fun e n hn hwaiting => ?_,
    fun o q reply hlate => if_pos hlate, fun o g result hlate => if_pos hlate,
    fun o c sent hcounting => counted_of_counting hinv hcounting, done_apply hinv hgive.1⟩
  have hnodup := (sublist_append_left _ _).nodup hinv.slice.nodup
  exact count_eq_one_of_mem hnodup ((hinv.slice.node e n hn).waiting hwaiting)

/-- Our node knows of another one, whose identifier the slice starts with. -/
def oneNode : Outside where
  catalog := .new 10 0
  nodeId _ := some ⟨List.replicate 20 1, NodeId.length_ones⟩
  closest := [{ id := default, endpoint := ⟨.ipv4 0x08080808, 6881⟩ }]

/-- A query to that node times out. -/
def timesOut (bits : ℤ) : Event :=
  .reply oneNode
    { generation := 1, endpoint := ⟨.ipv4 0x08080808, 6881⟩, base := default, bits } {}

/-- A seed lookup ends that found nothing. -/
def findsNothing : Event :=
  .found oneNode 1
    { kind := .GetPeers, target := default, closest := [], peers := [],
      sightings := [], queried := 1
      responded := 1, durationMs := 0, hops := 0, itemFound := false, itemIsMutable := false
      item := {} }

/-- A slice of that node, which never answers. -/
theorem counted_slice_silent : ∃ s c sent, System.Reachable {} s ∧
    s.census.counting oneNode = some (c, sent) ∧ c.nodes.keys.length = 1 ∧ Counted s c sent := by
  let run (events : List Event) : System := events.foldl System.apply { census := { config := {} } }
  let events := [.start oneNode fun _ => 0, findsNothing, findsNothing, findsNothing,
    .tick oneNode, timesOut 20, .tick oneNode, timesOut 12, .tick oneNode, .tick oneNode]
  have hreach : ∀ n ≤ 10, System.Reachable {} (run (events.take n)) := by
    intro n hn
    induction n with
    | zero => exact .refl
    | succ n ih =>
      have hlegal : ∀ n : Fin 10, (run (events.take n)).Legal (events.get n) := by decide +kernel
      have hlt : n < events.length := hn
      have hstep : run (events.take (n + 1)) =
          (run (events.take n)).apply (events.get ⟨n, hlt⟩) := by
        dsimp only [run]
        rw [take_succ_eq_append_getElem hlt, foldl_append]
        rfl
      rw [hstep]
      exact (ih (by omega)).tail ⟨_, hlegal ⟨n, hn⟩, rfl⟩
  have hcounts : (((run events).census.counting oneNode).map fun p => p.1.nodes.keys.length) =
      some 1 := by decide +kernel
  obtain ⟨⟨c, sent⟩, hcounting, hlength⟩ := Option.map_eq_some_iff.1 hcounts
  obtain ⟨-, -, -, -, -, hcounted, -⟩ := counted_slice (by decide) (hreach 10 le_rfl)
  exact ⟨_, c, sent, hreach 10 le_rfl, hcounting, hlength, hcounted _ _ _ hcounting⟩

end Dht.Census
