import DhtCore.Crawler.Queues

/-!
# When entries are asked again

Of a queue of entries to be asked again, only the first one is looked at. Those that are due
are thus served exactly in the states in which the first entry of each queue was asked no later
than the others of the queue (`FirstLeast`), as it is if queries end in the order in which they
were sent (`InOrder`). They need not, and then an entry that is due waits behind one that was
asked later (`exists_kept_waiting`).
-/

namespace Dht.Crawler

open List NodeCatalog

/-- A queue of entries to be asked again. -/
inductive Recheck
  | retry
  | revisit
  | revisitSilent
  deriving DecidableEq

/-- The queue of nodes to be asked again for a reason. -/
def queue (c : Crawler) : Recheck → List CatalogRef
  | .retry => c.retry
  | .revisit => c.revisit
  | .revisitSilent => c.revisitSilent

/-- How long its entries are left alone. -/
def delay (c : Crawler) : Recheck → ℤ
  | .retry => c.config.retryDelayMs
  | .revisit => c.config.revisitIntervalMs
  | .revisitSilent => c.config.silentRevisitIntervalMs

/-- When the node of a ref was last asked, in seconds. -/
def lastQueried (c : Crawler) (r : CatalogRef) : UInt32 := (c.catalog.entryAt r.slot).lastQueried

/-- An entry is still there, and was last asked so long ago. -/
def IsDue (c : Crawler) (now minAgeMs : ℤ) (r : CatalogRef) : Prop :=
  c.catalog.isCurrent r ∧ minAgeMs ≤ c.catalog.ageMs (c.lastQueried r) now

/-- At all times, entries that are due are found. -/
structure Served (c : Crawler) : Prop where
  takeDue : ∀ k minAgeMs env, (c.takeDue env minAgeMs (c.queue k)).2 = none →
    ∀ r ∈ c.queue k, ¬c.IsDue env.now minAgeMs r
  anyDue : ∀ now, c.anyDue now = true ↔ ∃ k, ∃ r ∈ c.queue k, c.IsDue now (c.delay k) r

/-- The first entry of each queue that is still there was asked no later than the others. -/
def FirstLeast (c : Crawler) : Prop :=
  ∀ k, ∀ first ∈ (c.queue k).find? c.catalog.isCurrent, ∀ r ∈ c.queue k,
    c.catalog.isCurrent r → c.lastQueried first ≤ c.lastQueried r

/-- The queue that an entry comes into when a query to it ends. -/
def destination (c : Crawler) (r : CatalogRef) (reply : RpcReply) : Recheck :=
  match reply.status with
  | .Throttled => .retry
  | .Timeout =>
    if ((noteTimeout (c.catalog.entryAt r.slot)).failures.toNat : ℤ) ≥ c.config.failuresToGiveUp
      then .revisitSilent else .retry
  | .Error | .Response => .revisit

/-- A query ends no earlier than those to entries that were asked after it and wait in the queue
    that its entry comes into. -/
def InOrder (c : Crawler) : Event → Prop
  | .reply _ q reply => c.catalog.isCurrent q.ref →
    ∀ r ∈ c.queue (c.destination q.ref reply), c.catalog.isCurrent r →
      c.lastQueried r ≤ c.lastQueried q.ref
  | _ => True

/-- One event that may happen, after which no queue is less in order. -/
def OrderedStep (hash : CatalogKey → ℕ) (present : Family → Bool) (c c' : Crawler) : Prop :=
  ∃ e, c.Legal present e ∧ c.InOrder e ∧ c.apply hash e = some c'

variable {hash : CatalogKey → ℕ} {present : Family → Bool} {env : Outside} {c c' : Crawler}
  {k : Recheck} {r : CatalogRef} {now minAgeMs : ℤ} {l : List CatalogRef}

/-! ## What is found -/

theorem takeDue_eq_none_iff : (c.takeDue env minAgeMs l).2 = none ↔
    ∀ first ∈ l.find? c.catalog.isCurrent,
      0 < minAgeMs ∧ c.catalog.ageMs (c.lastQueried first) env.now < minAgeMs := by
  induction l with
  | nil => simp [Crawler.takeDue]
  | cons r l ih =>
    rw [Crawler.takeDue, find?_cons]
    cases hr : c.catalog.isCurrent r with
    | false => simpa using ih
    | true =>
      rw [if_neg (by simp)]
      split_ifs with hlate
      · simpa [lastQueried] using hlate
      · simpa [lastQueried] using hlate

theorem firstDue_iff : c.firstDue now minAgeMs l = true ↔
    ∃ first ∈ l.find? c.catalog.isCurrent,
      minAgeMs ≤ c.catalog.ageMs (c.lastQueried first) now := by
  induction l with
  | nil => simp [firstDue]
  | cons r l ih =>
    rw [firstDue, find?_cons]
    cases hr : c.catalog.isCurrent r with
    | false => simpa using ih
    | true => simp [lastQueried]

theorem anyDue_iff : c.anyDue now = true ↔ ∃ k, c.firstDue now (c.delay k) (c.queue k) = true := by
  rw [Crawler.anyDue, Bool.or_eq_true, Bool.or_eq_true]
  constructor
  · rintro ((h | h) | h)
    · exact ⟨.retry, h⟩
    · exact ⟨.revisit, h⟩
    · exact ⟨.revisitSilent, h⟩
  · rintro ⟨k, h⟩
    cases k with
    | retry => exact .inl (.inl h)
    | revisit => exact .inl (.inr h)
    | revisitSilent => exact .inr h

/-- What was asked earlier is older. -/
theorem ageMs_anti (d : NodeCatalog) {x y : UInt32} (h : x ≤ y) (now : ℤ) :
    d.ageMs y now ≤ d.ageMs x now := by
  have hle : x.toNat ≤ y.toNat := UInt32.le_iff_toNat_le.1 h
  have hstamp := (d.stamp now).toNat_lt
  rw [NodeCatalog.ageMs, NodeCatalog.ageMs, NodeCatalog.TickMs]
  split_ifs with hy hx hx
  · exact le_rfl
  · rw [hy] at hle
    exact absurd (UInt32.toNat_inj.1 (Nat.le_zero.1 hle)) hx
  · omega
  · omega

/-- At the latest time there is a stamp for, only what was asked earlier is as old. -/
theorem exists_ageMs_lt (d : NodeCatalog) {x y : UInt32} (h : x < y) :
    ∃ now, 0 < d.ageMs x now ∧ d.ageMs y now < d.ageMs x now := by
  have hlt : x.toNat < y.toNat := UInt32.lt_iff_toNat_lt.1 h
  have hy := y.toNat_lt
  let now : ℤ := d.epochMs + (2 ^ 32 - 2) * NodeCatalog.TickMs
  have hstamp : (d.stamp now).toNat = 2 ^ 32 - 1 := by
    have hdiv : (now - d.epochMs).tdiv NodeCatalog.TickMs = 2 ^ 32 - 2 := by
      rw [show now - d.epochMs = (2 ^ 32 - 2) * NodeCatalog.TickMs by ring]
      exact Int.mul_tdiv_cancel _ (by decide)
    rw [stamp, hdiv]
    decide
  have hyne : y ≠ 0 := by
    rintro rfl
    exact absurd hlt (Nat.not_lt_zero _)
  refine ⟨now, ?_⟩
  rw [NodeCatalog.ageMs, NodeCatalog.ageMs, if_neg hyne, hstamp, NodeCatalog.TickMs]
  split_ifs <;> omega

theorem find?_isCurrent (h : c.catalog.isCurrent r) (hr : r ∈ l) :
    ∃ first ∈ l.find? c.catalog.isCurrent, c.catalog.isCurrent first ∧ first ∈ l := by
  have hsome : (l.find? c.catalog.isCurrent).isSome := find?_isSome.2 ⟨r, hr, h⟩
  obtain ⟨first, hfirst⟩ := Option.isSome_iff_exists.1 hsome
  exact ⟨first, hfirst, find?_some hfirst, mem_of_find?_eq_some hfirst⟩

/-- Those that are due are found at all times exactly if none was asked before the first one. -/
theorem served_iff : c.Served ↔ c.FirstLeast := by
  constructor
  · intro hserved k first hfirst r hr hcurrent
    by_contra hlt
    obtain ⟨now, hpos, hage⟩ := exists_ageMs_lt c.catalog (UInt32.not_le.1 hlt)
    let env : Outside := { now, nodeId := fun _ => none }
    refine hserved.takeDue k (c.catalog.ageMs (c.lastQueried r) now) env
      (takeDue_eq_none_iff.2 fun first' hfirst' => ?_) r hr ⟨hcurrent, le_rfl⟩
    rw [Option.mem_unique hfirst' hfirst]
    exact ⟨hpos, hage⟩
  · intro hleast
    refine ⟨fun k minAgeMs env hnone r hr hdue => ?_, fun now => ?_⟩
    · obtain ⟨first, hfirst, -, -⟩ := find?_isCurrent hdue.1 hr
      have hlate := (takeDue_eq_none_iff.1 hnone first hfirst).2
      have hage := ageMs_anti c.catalog (hleast k first hfirst r hr hdue.1) env.now
      exact absurd hdue.2 (not_le.2 (hage.trans_lt hlate))
    · rw [anyDue_iff]
      refine exists_congr fun k => firstDue_iff.trans ⟨?_, ?_⟩
      · rintro ⟨first, hfirst, hage⟩
        exact ⟨first, mem_of_find?_eq_some hfirst, find?_some hfirst, hage⟩
      · rintro ⟨r, hr, hcurrent, hage⟩
        obtain ⟨first, hfirst, -, -⟩ := find?_isCurrent hcurrent hr
        exact ⟨first, hfirst,
          hage.trans (ageMs_anti c.catalog (hleast k first hfirst r hr hcurrent) now)⟩

/-! ## Runs -/

/-- Every queue is in the order in which its entries were asked, of those that are there. -/
def Ordered (c : Crawler) : Prop :=
  ∀ k, (c.queue k).Pairwise fun r r' => c.catalog.isCurrent r → c.catalog.isCurrent r' →
    c.lastQueried r ≤ c.lastQueried r'

theorem Ordered.firstLeast (h : Ordered c) : c.FirstLeast := by
  intro k first hfirst r hr hcurrent
  obtain ⟨hthere, before, after, hqueue, hgone⟩ := find?_eq_some_iff_append.1 hfirst
  have hordered := h k
  rw [hqueue] at hordered hr
  rcases mem_append.1 hr with hr | hr
  · exact absurd hcurrent (by simpa using hgone r hr)
  · rcases mem_cons.1 hr with rfl | hr
    · exact UInt32.le_refl _
    · exact (pairwise_cons.1 (pairwise_append.1 hordered).2.1).1 r hr hthere hcurrent

/-- What only shortens the queues, of entries that it leaves as they are. -/
theorem Ordered.of_sublist (h : Ordered c) (hqueue : ∀ k, c'.queue k <+ c.queue k)
    (hkept : ∀ k, ∀ r ∈ c'.queue k, c'.catalog.isCurrent r →
      c.catalog.isCurrent r ∧ c'.lastQueried r = c.lastQueried r) : Ordered c' := by
  intro k
  refine ((h k).sublist (hqueue k)).imp_of_mem fun {r r'} hr hr' hle hcurrent hcurrent' => ?_
  obtain ⟨hthere, hsame⟩ := hkept k r hr hcurrent
  obtain ⟨hthere', hsame'⟩ := hkept k r' hr' hcurrent'
  rw [hsame, hsame']
  exact hle hthere hthere'

theorem mem_scheduled_of_mem_queue (hr : r ∈ c.queue k) : r ∈ c.scheduled := by
  cases k <;> simp only [queue] at hr <;> simp [scheduled, hr]

/-- Who waits to be asked again is not being asked. -/
theorem Queued.not_mem_scans (h : Queued present c) (hcurrent : c.catalog.isCurrent r)
    (hr : r ∈ c.queue k) : r ∉ c.scans.map (·.ref) := by
  intro hscans
  have hcount := h.count r.slot (isCurrent_iff.1 hcurrent).1
  rw [ref_eq_of_isCurrent hcurrent, count_scheduled] at hcount
  have hpos := count_pos_iff.2 hscans
  have hpos' := count_pos_iff.2 hr
  cases k <;> simp only [queue] at hpos' <;> split_ifs at hcount <;> omega

theorem Ordered.listed (h : Ordered c) (hqueued : Queued present c)
    (hnum : c.catalog.Numbered) (hlisted : Listed hash present c c')
    (hlt : c'.catalog.insertions < 2 ^ 32) : Ordered c' := by
  obtain ⟨added, -, hentered⟩ := hlisted.fresh
  have hrest {α : Type} (f : Ledger → α) := congrArg f hlisted.ledger
  have hqueue : ∀ k, c'.queue k = c.queue k := fun k => by
    cases k with
    | retry => exact hrest Ledger.retry
    | revisit => exact hrest Ledger.revisit
    | revisitSilent => exact hrest Ledger.revisitSilent
  refine h.of_sublist (fun k => (hqueue k).symm ▸ .refl _) fun k r hr hcurrent => ?_
  rw [hqueue] at hr
  obtain ⟨hs, hgen⟩ := isCurrent_iff.1 hcurrent
  rcases (hentered hnum hlt).entry r.slot hs with ⟨hs, href, hsame⟩ | ⟨hnew, -, -⟩
  · refine ⟨isCurrent_iff.2 ⟨hs, ?_⟩, hsame.lastQueried⟩
    exact (congrArg CatalogRef.generation href).symm.trans hgen
  · -- It was queued before it came into the catalogue.
    have hold := hqueued.old r (mem_scheduled_of_mem_queue hr)
    rw [hgen] at hnew
    omega

theorem lastQueried_noteOutcome (give : ℤ) (stamp : UInt32) (reply : RpcReply) (e : CatalogEntry) :
    (noteOutcome give stamp reply e).lastQueried = e.lastQueried := by
  rw [noteOutcome]
  cases reply.status with
  | Throttled => rfl
  | Timeout =>
    dsimp only
    split_ifs <;> rfl
  | Error | Response => exact (sameIdentity_noteAnswer stamp reply e).lastQueried

/-- A stage in which no query ends leaves the queues in order. -/
theorem Ordered.quiet (h : Ordered c) (hqueued : Queued present c) (hqueued' : Queued present c')
    (hcatalog : Catalogued hash c.catalog) (hquiet : Quiet hash present c c')
    (hlt : c'.catalog.insertions < 2 ^ 32) : Ordered c' := by
  obtain ⟨hstage, houtcomes⟩ := hquiet
  cases hstage with
  | listed hlisted => exact h.listed hqueued hcatalog.numbered hlisted hlt
  | moved hmoved =>
    -- What is sent has left its queue, and only its time of asking changes.
    obtain ⟨sent, hscans, -, -, -, -, hqueried⟩ := hmoved.sent
    refine h.of_sublist (fun k => ?_) fun k r hr hcurrent => ?_
    · cases k with
      | retry => exact hmoved.waiting.retry
      | revisit => exact hmoved.waiting.revisit
      | revisitSilent => exact hmoved.waiting.revisitSilent
    · have hthere : c.catalog.isCurrent r := hmoved.catalog.isCurrent r ▸ hcurrent
      refine ⟨hthere, hqueried r.slot ?_⟩
      rw [ref_eq_of_isCurrent hthere]
      intro hsent
      refine hqueued'.not_mem_scans hcurrent hr ?_
      rw [hscans, map_append]
      exact mem_append_right _ hsent
  | dropped | rotated | checked =>
    exact h.of_sublist (fun k => by cases k <;> exact .refl _) fun _ _ _ hcurrent => ⟨hcurrent, rfl⟩
  | unqueued hqueue hr =>
    rename_i r rest
    have hnoted := noted_unqueued hcatalog.invariant hr rest
    refine h.of_sublist (fun k => by cases k <;> exact .refl _) fun k r' _ hcurrent =>
      ⟨hnoted.rewritten.isCurrent r' ▸ hcurrent, ?_⟩
    rw [lastQueried, lastQueried]
    by_cases hs : r'.slot = r.slot
    · rw [hs, hnoted.self]
      rfl
    · rw [hnoted.other _ hs]
  | settled _ hsettled =>
    -- A query ends in this stage, against `houtcomes`.
    have hlength := congrArg length (hsettled.outcomes.symm.trans houtcomes)
    rw [length_append, length_singleton] at hlength
    omega
  | @concluded q reply _ _ hconcluded =>
    have hrest {α : Type} (f : Crawler → α) := congrArg f hconcluded.rest
    refine h.of_sublist (fun k => ?_) fun k r _ hcurrent => ?_
    · have hqueue : c'.queue k = c.queue k := by
        have hk := hrest fun c => c.queue k
        cases k <;> exact hk
      rw [hqueue]
    · have hthere : c.catalog.isCurrent r := hconcluded.rewritten.isCurrent r ▸ hcurrent
      refine ⟨hthere, ?_⟩
      have hsame := (sameIdentity_noteChecked q.check reply (c.catalog.entryAt r.slot)).lastQueried
      rw [lastQueried, hconcluded.entry r.slot (isCurrent_iff.1 hthere).1]
      split_ifs
      · exact hsame
      · exact hsame
      · rfl

theorem queue_onTimeout (hr : c.catalog.isCurrent r) {reply : RpcReply}
    (hstatus : reply.status = .Timeout) (k : Recheck) :
    (c.onTimeout r).queue k = c.queue k ++ if k = c.destination r reply then [r] else [] := by
  have hself : (c.edit r.slot noteTimeout).catalog.entryAt r.slot =
      noteTimeout (c.catalog.entryAt r.slot) := by
    rw [edit, entryAt_setEntry, if_pos ⟨rfl, (isCurrent_iff.1 hr).1.1⟩]
  rw [onTimeout, hself, destination, hstatus]
  dsimp only
  have hconfig : (c.edit r.slot noteTimeout).config = c.config := rfl
  rw [hconfig]
  by_cases hgive : ((noteTimeout (c.catalog.entryAt r.slot)).failures.toNat : ℤ) ≥
      c.config.failuresToGiveUp
  · rw [if_pos hgive, if_pos hgive]
    cases k with
    | revisitSilent => rfl
    | retry | revisit => exact (append_nil _).symm
  · rw [if_neg hgive, if_neg hgive]
    cases k with
    | retry => rfl
    | revisit | revisitSilent => exact (append_nil _).symm

theorem queue_onAnswer (c : Crawler) (env : Outside) (r : CatalogRef) {reply : RpcReply}
    (hstatus : isAnswer reply.status) (k : Recheck) :
    (c.onAnswer env r reply).queue k =
      c.queue k ++ if k = c.destination r reply then [r] else [] := by
  have hdestination : c.destination r reply = .revisit := by
    rw [destination]
    cases hcase : reply.status with
    | Throttled | Timeout =>
      rw [hcase] at hstatus
      exact absurd hstatus (by decide)
    | Error | Response => rfl
  have hfeatures : ∀ c : Crawler, (c.queueFeatures r).queue k = c.queue k := fun c => by
    rw [queueFeatures]
    dsimp only
    split_ifs
    · rfl
    · cases k <;> rfl
  rw [onAnswer, hfeatures, hdestination]
  cases k with
  | revisit => rfl
  | retry | revisitSilent => exact (append_nil _).symm

/-- The end of a query puts the entry asked into one queue, if it is still there. -/
theorem queue_settle (c : Crawler) (env : Outside) (q : Query) (reply : RpcReply) (k : Recheck) :
    (c.settle env q reply).queue k = c.queue k ++
      if c.catalog.isCurrent q.ref ∧ k = c.destination q.ref reply then [q.ref] else [] := by
  rw [settle]
  generalize hc₁ : { c with
    scans := c.scans.erase q
    outcomes := c.outcomes ++ [Outcome.mk q.born reply.status (c.catalog.stamp env.now)]
    outstanding := c.outstanding - 1 }.countReply reply.status = c₁
  have hcatalog : c₁.catalog = c.catalog := by
    rw [← hc₁]
    cases reply.status <;> rfl
  have hqueue : c₁.queue k = c.queue k := by
    rw [← hc₁]
    cases reply.status <;> cases k <;> rfl
  have hdestination : c₁.destination q.ref reply = c.destination q.ref reply := by
    rw [destination, hcatalog, ← hc₁, destination]
    cases reply.status <;> rfl
  rw [hcatalog]
  by_cases hr : c.catalog.isCurrent q.ref
  · simp only [hr, true_and, ↓reduceIte]
    rw [← hqueue, ← hdestination]
    cases hstatus : reply.status with
    | Throttled =>
      rw [destination, hstatus]
      cases k with
      | retry => rfl
      | revisit | revisitSilent => exact (append_nil _).symm
    | Timeout => exact queue_onTimeout (hcatalog.symm ▸ hr) hstatus k
    | Error | Response => exact queue_onAnswer c₁ env q.ref (by rw [hstatus]; rfl) k
  · rw [if_neg hr, if_neg fun hboth => hr hboth.1, append_nil, hqueue]

theorem Ordered.settle (h : Ordered c) {q : Query} {reply : RpcReply}
    (hsettled : Settled hash env q reply c (c.settle env q reply))
    (horder : c.InOrder (.reply env q reply)) : Ordered (c.settle env q reply) := by
  have hcurrent : ∀ r, (c.settle env q reply).catalog.isCurrent r = c.catalog.isCurrent r :=
    hsettled.rewritten.isCurrent
  have hsame : ∀ r, c.catalog.isCurrent r →
      (c.settle env q reply).lastQueried r = c.lastQueried r := fun r hr => by
    rw [lastQueried, hsettled.entry r.slot (isCurrent_iff.1 hr).1]
    split_ifs
    · exact lastQueried_noteOutcome ..
    · exact lastQueried_noteOutcome ..
    · rfl
  intro k
  have hpairwise : (c.queue k ++ if c.catalog.isCurrent q.ref ∧ k = c.destination q.ref reply
      then [q.ref] else []).Pairwise fun r r' => c.catalog.isCurrent r → c.catalog.isCurrent r' →
        c.lastQueried r ≤ c.lastQueried r' := by
    split_ifs with hboth
    · obtain ⟨hq, rfl⟩ := hboth
      refine pairwise_append.2 ⟨h _, pairwise_singleton _ _, fun r hr r' hr' hthere _ => ?_⟩
      rw [mem_singleton.1 hr']
      exact horder hq r hr hthere
    · rw [append_nil]
      exact h k
  rw [queue_settle]
  refine hpairwise.imp fun {r r'} hle hr hr' => ?_
  rw [hcurrent] at hr hr'
  rw [hsame r hr, hsame r' hr']
  exact hle hr hr'

theorem Ordered.quiets (h : Ordered c) (hqueued : Queued present c)
    (hcatalog : Catalogued hash c.catalog) (hquiets : Quiets hash present c c')
    (hlt : c'.catalog.insertions < 2 ^ 32) : Ordered c' ∧ Queued present c' := by
  induction hquiets with
  | refl => exact ⟨h, hqueued⟩
  | tail hpre hquiet ih =>
    have hcatalog' := hcatalog.stages (Quiets.stages hpre)
    obtain ⟨hordered, hqueued'⟩ :=
      ih ((hquiet.1.insertions_le hcatalog'.invariant).trans_lt hlt)
    have hqueued'' := hqueued'.stage hcatalog' hquiet.1 hlt
    exact ⟨hordered.quiet hqueued' hqueued'' hcatalog' hquiet hlt, hqueued''⟩

/-- What a step in which queries end in order keeps, until generations wrap around. -/
theorem Ordered.step (h : Ordered c) (hqueued : Queued present c)
    (hcatalog : Catalogued hash c.catalog) (hstep : OrderedStep hash present c c')
    (hlt : c'.catalog.insertions < 2 ^ 32) : Ordered c' ∧ Queued present c' := by
  obtain ⟨event, hlegal, horder, happly⟩ := hstep
  by_cases hevent : ∃ env q reply, event = .reply env q reply
  · obtain ⟨env, q, reply, rfl⟩ := hevent
    obtain ⟨c₁, hresult, hq, hsettled, hlisted⟩ := settled_apply hcatalog.invariant hlegal
    rw [happly, Option.some.injEq] at hresult
    rw [hresult] at hlt ⊢
    have hstage : Stage hash present c (c.settle env q reply) := .settled hq hsettled
    have hlt' := hlisted.passage.changes.insertions_le.trans_lt hlt
    have hqueued' := hqueued.stage hcatalog hstage hlt'
    have hcatalog' := hcatalog.stage hstage
    exact ⟨(h.settle hsettled horder).listed hqueued' hcatalog'.numbered hlisted hlt,
      hqueued'.listed hcatalog'.numbered hlisted hlt⟩
  · push Not at hevent
    obtain ⟨c₁, hresult, hquiets⟩ := quiets_apply hcatalog.invariant hlegal hevent
    rw [happly, Option.some.injEq] at hresult
    rw [hresult] at hlt ⊢
    exact h.quiets hqueued hcatalog hquiets hlt

theorem OrderedStep.step (h : OrderedStep hash present c c') : Step hash present c c' := by
  obtain ⟨event, hlegal, -, happly⟩ := h
  exact ⟨event, hlegal, happly⟩

theorem ordered_run {catalog : NodeCatalog} {config : CrawlConfig}
    (hcatalog : NodeCatalog.Reachable hash catalog) (hslots : catalog.slots = [])
    (hsteps : Relation.ReflTransGen (OrderedStep hash present) { config, catalog } c)
    (hlt : c.catalog.insertions < 2 ^ 32) : Ordered c ∧ Queued present c := by
  have h := catalogued_of_slots hcatalog hslots
  have hnone : ∀ s, ¬catalog.InUse s := fun s hs => by
    rw [← mem_slots, hslots] at hs
    exact not_mem_nil hs
  induction hsteps with
  | refl =>
    refine ⟨fun k => ?_, fun r hr => absurd hr not_mem_nil, fun s hs => absurd hs (hnone s),
      fun s hs => absurd hs (hnone s)⟩
    cases k <;> exact .nil
  | @tail c c' hpre hstep ih =>
    have hstages : Stages hash present _ c := stages_steps h.invariant
      (Relation.ReflTransGen.mono (fun _ _ => OrderedStep.step) _ _ hpre)
    have hcatalog' := h.stages hstages
    have hle := (stages_step hcatalog'.invariant hstep.step).insertions_le hcatalog'.invariant
    obtain ⟨hordered, hqueued⟩ := ih (hle.trans_lt hlt)
    exact hordered.step hqueued hcatalog' hstep hlt

/-- In a state, the entries that are due are found at all times exactly if the first of each
    queue was asked no later than the others. So it is in all states of a run, until 2^32 nodes
    have been entered, in which queries end in the order in which they were sent. -/
theorem served_iff_run (hash : CatalogKey → ℕ) (config : CrawlConfig) (present : Family → Bool) :
    (∀ c, Reachable hash config present c → (c.Served ↔ c.FirstLeast)) ∧
      ∀ catalog c, NodeCatalog.Reachable hash catalog → catalog.slots = [] →
        Relation.ReflTransGen (OrderedStep hash present) { config, catalog } c →
        c.catalog.insertions < 2 ^ 32 → c.Served :=
  ⟨fun _ _ => served_iff, fun _ _ hcatalog hslots hsteps hlt =>
    served_iff.2 (ordered_run hcatalog hslots hsteps hlt).1.firstLeast⟩

/-! ## Two nodes -/

instance (c : Crawler) (e : Event) : Decidable (c.InOrder e) :=
  match e with
  | .reply .. => inferInstanceAs (Decidable (_ → ∀ r ∈ _, _ → _))
  | .setMonitoring .. | .tick _ | .featureReply .. | .lookup .. | .setCap .. =>
    inferInstanceAs (Decidable True)

/-- Whether what ends is under way, and ticks come while the scan runs. -/
def mayHappen (c : Crawler) : Event → Bool
  | .tick _ => c.monitoring
  | .reply _ q _ => q ∈ c.scans
  | .featureReply _ q _ => q ∈ c.checks
  | .lookup _ kind family _ => (kind, family) ∈ c.lookups
  | .setMonitoring .. | .setCap .. => true

/-- The scan after some events, if they may happen and are as wanted. -/
def follow (hash : CatalogKey → ℕ) (wanted : Crawler → Event → Bool) :
    List Event → Crawler → Option Crawler
  | [], c => some c
  | e :: rest, c =>
    if c.mayHappen e && wanted c e then (c.apply hash e).bind (follow hash wanted rest) else none

theorem follow_run {wanted : Crawler → Event → Bool} {events : List Event}
    (hpresent : ∀ e ∈ events, ∀ env, e.outside = some env →
      ∀ family, (env.nodeId family).isSome = present family)
    (hfollow : follow hash wanted events c = some c') :
    Relation.ReflTransGen
      (fun c c' => ∃ e, c.Legal present e ∧ wanted c e ∧ c.apply hash e = some c') c c' := by
  induction events generalizing c with
  | nil =>
    rw [follow, Option.some.injEq] at hfollow
    exact hfollow ▸ .refl
  | cons e rest ih =>
    rw [follow] at hfollow
    split_ifs at hfollow with hboth
    rw [Bool.and_eq_true] at hboth
    obtain ⟨c₁, happly, hrest⟩ := Option.bind_eq_some_iff.1 hfollow
    have hlegal : c.Legal present e := by
      refine ⟨hpresent e mem_cons_self, ?_⟩
      have hmay := hboth.1
      cases e with
      | setMonitoring | setCap => trivial
      | tick => exact hmay
      | reply | featureReply | lookup => exact of_decide_eq_true hmay
    exact .head ⟨e, hlegal, hboth.2, happly⟩ (ih (fun e he => hpresent e (mem_cons_of_mem _ he))
      hrest)

/-- The hash of the tables of the example. -/
def byPort : CatalogKey → ℕ := fun key => key.port.toNat

/-- There is a node of ours over IPv4. -/
def overIPv4 (now : ℤ) : Outside where
  now := now
  nodeId family := if family = .IPv4 then some ⟨replicate 20 1, NodeId.length_ones⟩ else none

/-- The node that is asked first below. -/
def firstNode : Krpc.CompactNode :=
  ⟨⟨replicate 20 2, rfl⟩, ⟨.ipv4 (HostAddress.dotted 8 8 8 8), 6881⟩⟩

/-- The node that is asked second below. -/
def secondNode : Krpc.CompactNode :=
  ⟨⟨replicate 20 3, rfl⟩, ⟨.ipv4 (HostAddress.dotted 1 1 1 1), 6882⟩⟩

/-- A node answers a query, the first or the second one. -/
def hasAnswered (now : ℤ) (second : Bool) : Event :=
  let node := if second then secondNode else firstNode
  let message : Krpc.Message :=
    { type := .Response, body := .dict [(ascii "id", .string node.id.toBytes)] }
  .reply (overIPv4 now)
    { ref := if second then ⟨1, 2⟩ else ⟨0, 1⟩
      born := if second then 2 else 1
      endpoint := node.endpoint
      near := some node.id }
    { status := .Response, message, sender := node.endpoint }

/-- The first node is asked at once, and the second one after a second. -/
def bothAsked : List Event :=
  [.setMonitoring { overIPv4 0 with start := [firstNode, secondNode] } true,
    .tick { overIPv4 0 with backlogged := fun outstanding => outstanding ≥ 1 },
    .tick { overIPv4 1000 with backlogged := fun outstanding => outstanding ≥ 2 }]

/-- Then both answer in time, the second one first or last. -/
def twoNodes (secondFirst : Bool) : List Event :=
  bothAsked ++ [hasAnswered 1100 secondFirst, hasAnswered 2900 !secondFirst]

theorem present_twoNodes (secondFirst : Bool) : ∀ e ∈ twoNodes secondFirst, ∀ env,
    e.outside = some env → ∀ family, (env.nodeId family).isSome = decide (family = .IPv4) := by
  intro e he env henv family
  simp only [twoNodes, bothAsked, cons_append, nil_append, mem_cons, not_mem_nil, or_false] at he
  obtain rfl | rfl | rfl | rfl | rfl := he
  all_goals
    cases henv
    cases family <;> rfl

/-- If they answer in the order in which they were asked, they are served. -/
theorem served_iff_run_twoNodes :
    ∃ c, follow byPort (fun c e => c.InOrder e) (twoNodes false)
      { config := {}, catalog := .new 10 0 } = some c ∧ c.Served := by
  have hrun : (follow byPort (fun c e => c.InOrder e) (twoNodes false)
      { config := {}, catalog := .new 10 0 }).map (·.catalog.insertions) = some 2 := by
    decide +kernel
  obtain ⟨c, hfollow, hinsertions⟩ := Option.map_eq_some_iff.1 hrun
  have hsteps := Relation.ReflTransGen.mono (p := OrderedStep byPort fun family => family = .IPv4)
    (fun _ _ ⟨e, hlegal, horder, happly⟩ => ⟨e, hlegal, of_decide_eq_true horder, happly⟩) _ _
    (follow_run (present_twoNodes false) hfollow)
  exact ⟨c, hfollow, (served_iff_run byPort {} fun family => family = .IPv4).2 (.new 10 0) c
    ⟨10, 0, .refl⟩ rfl hsteps (by rw [hinsertions]; decide)⟩

/-- If the one that was asked last answers first, the other one waits for it when it is to be asked
    again. -/
theorem exists_kept_waiting :
    ¬∀ (hash : CatalogKey → ℕ) (config : CrawlConfig) (present : Family → Bool) (c : Crawler),
      Reachable hash config present c → c.Served := by
  intro hclaim
  have hrun : (follow byPort (fun _ _ => true) (twoNodes true)
      { config := {}, catalog := .new 10 0 }).map (fun c =>
        (c.revisit, (c.takeDue (overIPv4 600500) 600000 c.revisit).2, c.catalog.isCurrent ⟨0, 1⟩,
          c.catalog.ageMs (c.lastQueried ⟨0, 1⟩) 600500)) =
      some ([⟨1, 2⟩, ⟨0, 1⟩], none, true, 600500) := by
    decide +kernel
  obtain ⟨c, hfollow, hc⟩ := Option.map_eq_some_iff.1 hrun
  simp only [Prod.mk.injEq] at hc
  obtain ⟨hrevisit, hnone, hcurrent, hage⟩ := hc
  have hsteps := Relation.ReflTransGen.mono (p := Step byPort fun family => family = .IPv4)
    (fun _ _ ⟨e, hlegal, _, happly⟩ => ⟨e, hlegal, happly⟩) _ _
    (follow_run (present_twoNodes true) hfollow)
  have hserved := hclaim byPort {} (fun family => family = .IPv4) c
    ⟨.new 10 0, ⟨10, 0, .refl⟩, rfl, hsteps⟩
  refine hserved.takeDue .revisit 600000 (overIPv4 600500) hnone ⟨0, 1⟩ ?_ ⟨hcurrent, ?_⟩
  · rw [queue, hrevisit]
    simp
  · rw [show (overIPv4 600500).now = 600500 from rfl, hage]
    decide

end Dht.Crawler
