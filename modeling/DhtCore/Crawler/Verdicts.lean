import DhtCore.Crawler.Checks

/-!
# What the scan makes of a node

The verdict on a node follows from how the queries to it ended (`Follows`): whether it ever
answered, and how many timed out since (`verdict`). Each time it answers again a spell begins
(`spells`), from which `answeringSince` and `Rejoined` are. An entry keeps little of this: a
count that saturates, two stamps and a flag. A stamp is zero only if there is none, until
stamps wrap around, and the queries are the entry's own, until generations do
(`not_verdicts`).
-/

namespace Dht.Crawler

open List NodeCatalog

/-! ## Verdicts -/

/-- Whether a query was ever answered. -/
def answered (l : List Outcome) : Bool := l.any fun o => isAnswer o.status

/-- The queries that timed out since the last answer, if there was one. -/
def missed (l : List Outcome) : ℕ :=
  (l.reverse.takeWhile fun o => !isAnswer o.status).countP fun o => o.status = .Timeout

/-- The verdict, given up after so many failures. -/
def verdict (give : ℤ) (l : List Outcome) : CatalogState :=
  if answered l then (if missed l ≥ give then .Gone else .Responsive)
  else if missed l ≥ give then .Silent else .New

/-- When spells of answers begin, after those outcomes before, and whether the node was gone. -/
def spellsAfter (give : ℤ) : List Outcome → List Outcome → List (UInt32 × Bool)
  | _, [] => []
  | before, o :: rest =>
    (if isAnswer o.status ∧ verdict give before ≠ .Responsive then
      [(o.stamp, decide (verdict give before = .Gone))]
    else []) ++ spellsAfter give (before ++ [o]) rest

/-- When spells of answers begin, and whether the node was gone. -/
def spells (give : ℤ) (l : List Outcome) : List (UInt32 × Bool) := spellsAfter give [] l

variable {hash : CatalogKey → ℕ} {present : Family → Bool} {config : CrawlConfig}
  {c c' : Crawler} {e e' : CatalogEntry} {o : Outcome} {l before : List Outcome} {give : ℤ}
  {f check : CatalogFlag} {r : CatalogRef} {reply : RpcReply}

theorem spellsAfter_concat (o : Outcome) :
    spellsAfter give before (l ++ [o]) = spellsAfter give before l ++
      if isAnswer o.status ∧ verdict give (before ++ l) ≠ .Responsive then
        [(o.stamp, decide (verdict give (before ++ l) = .Gone))]
      else [] := by
  induction l generalizing before with
  | nil => simp only [nil_append, spellsAfter, append_nil]
  | cons o' rest ih =>
    rw [cons_append, spellsAfter, spellsAfter, ih, append_assoc, append_assoc, singleton_append]

theorem spells_concat (give : ℤ) (l : List Outcome) (o : Outcome) :
    spells give (l ++ [o]) = spells give l ++
      if isAnswer o.status ∧ verdict give l ≠ .Responsive then
        [(o.stamp, decide (verdict give l = .Gone))]
      else [] :=
  spellsAfter_concat o

theorem answered_concat (l : List Outcome) (o : Outcome) :
    answered (l ++ [o]) = (answered l || isAnswer o.status) := by
  simp [answered]

theorem missed_concat (l : List Outcome) (o : Outcome) : missed (l ++ [o]) =
    if isAnswer o.status then 0 else missed l + if o.status = .Timeout then 1 else 0 := by
  rw [missed, reverse_append, reverse_singleton, singleton_append]
  by_cases hanswer : isAnswer o.status
  · rw [if_pos hanswer, takeWhile_cons_of_neg (by simp [hanswer])]
    rfl
  · rw [if_neg hanswer, takeWhile_cons_of_pos (by simp [hanswer]), countP_cons]
    simp only [decide_eq_true_iff]
    rfl

/-- What the outcomes of the queries to it have made of an entry. -/
structure Follows (give : ℤ) (l : List Outcome) (e : CatalogEntry) : Prop where
  state : e.state = verdict give l
  failures : e.failures.toNat = min (missed l) 255
  lastAnswered : e.lastAnswered ≠ 0 ↔ answered l
  spell : (e.answeringSince, e.has .Rejoined) = (spells give l).getLast?.getD (0, false)

/-- What is written to an entry leaves the verdict on it. -/
structure SameVerdict (e e' : CatalogEntry) : Prop where
  state : e'.state = e.state
  failures : e'.failures = e.failures
  lastAnswered : e'.lastAnswered = e.lastAnswered
  answeringSince : e'.answeringSince = e.answeringSince
  rejoined : e'.has .Rejoined = e.has .Rejoined

theorem SameVerdict.trans {e'' : CatalogEntry} (h : SameVerdict e e') (h' : SameVerdict e' e'') :
    SameVerdict e e'' :=
  ⟨h'.state.trans h.state, h'.failures.trans h.failures, h'.lastAnswered.trans h.lastAnswered,
    h'.answeringSince.trans h.answeringSince, h'.rejoined.trans h.rejoined⟩

theorem SameVerdict.follows (h : SameVerdict e e') (hfollows : Follows give l e) :
    Follows give l e' where
  state := h.state.trans hfollows.state
  failures := h.failures ▸ hfollows.failures
  lastAnswered := h.lastAnswered ▸ hfollows.lastAnswered
  spell := by rw [h.answeringSince, h.rejoined, hfollows.spell]

theorem SameStanding.sameVerdict (h : SameStanding e e') : SameVerdict e e' :=
  ⟨h.state, h.failures, h.lastAnswered, h.answeringSince, h.has _ (by decide) (by decide)⟩

theorem sameVerdict_set (e : CatalogEntry) (hf : f ≠ .Rejoined) (on : Bool) :
    SameVerdict e (e.set f on) :=
  ⟨rfl, rfl, rfl, rfl, by rw [CatalogEntry.has_set, if_neg hf.symm]⟩

/-! ## The end of a query -/

/-- A query that was not sent counts as nothing. -/
theorem Follows.throttled (h : Follows give l e) (ho : o.status = .Throttled) :
    Follows give (l ++ [o]) e := by
  have hanswer : isAnswer o.status = false := by rw [ho]; rfl
  have hmissed : missed (l ++ [o]) = missed l := by rw [missed_concat, hanswer, ho]; rfl
  have hanswered : answered (l ++ [o]) = answered l := by
    rw [answered_concat, hanswer, Bool.or_false]
  refine ⟨?_, hmissed ▸ h.failures, hanswered ▸ h.lastAnswered, ?_⟩
  · rw [h.state, verdict, verdict, hmissed, hanswered]
  · rw [spells_concat, hanswer, h.spell]
    simp

/-- One more failure. -/
theorem Follows.timeout (h : Follows give l e) (hgive : give ≤ 255) (ho : o.status = .Timeout)
    (he : e' = noteTimeout e) : Follows give (l ++ [o])
      (if (e'.failures.toNat : ℤ) ≥ give then
        { e' with state := if e'.lastAnswered ≠ 0 then .Gone else .Silent } else e') := by
  have hanswer : isAnswer o.status = false := by rw [ho]; rfl
  have hmissed : missed (l ++ [o]) = missed l + 1 := by rw [missed_concat, hanswer, ho]; rfl
  have hanswered : answered (l ++ [o]) = answered l := by
    rw [answered_concat, hanswer, Bool.or_false]
  have hspells : spells give (l ++ [o]) = spells give l := by
    rw [spells_concat, hanswer]
    simp
  -- The count stops at its most, which is more than it takes to give up.
  have hfailures : e'.failures.toNat = min (missed (l ++ [o])) 255 := by
    have hbefore := h.failures
    rw [he, noteTimeout, hmissed]
    dsimp only
    split_ifs with hlt
    · have hlt := UInt8.lt_iff_toNat_lt.1 hlt
      rw [UInt8.toNat_add]
      change e.failures.toNat < 255 at hlt
      change (e.failures.toNat + 1) % 256 = _
      omega
    · have hge := mt UInt8.lt_iff_toNat_lt.2 hlt
      change ¬e.failures.toNat < 255 at hge
      omega
  have hlast : e'.lastAnswered ≠ 0 ↔ answered (l ++ [o]) := by
    rw [he, hanswered]
    exact h.lastAnswered
  have hspell : (e'.answeringSince, e'.has .Rejoined) =
      (spells give (l ++ [o])).getLast?.getD (0, false) := by
    rw [he, hspells]
    exact h.spell
  have hiff : (e'.failures.toNat : ℤ) ≥ give ↔ (missed (l ++ [o]) : ℤ) ≥ give := by omega
  by_cases hover : (e'.failures.toNat : ℤ) ≥ give
  · rw [if_pos hover]
    refine ⟨?_, hfailures, hlast, hspell⟩
    rw [verdict, if_pos (hiff.1 hover), if_pos (hiff.1 hover)]
    exact if_congr hlast rfl rfl
  · rw [if_neg hover]
    refine ⟨?_, hfailures, hlast, hspell⟩
    have hstate : e'.state = e.state := by rw [he]; rfl
    have hbefore : ¬(missed l : ℤ) ≥ give := by omega
    rw [hstate, h.state, verdict, verdict, if_neg hbefore, if_neg hbefore,
      if_neg (mt hiff.2 hover), if_neg (mt hiff.2 hover), hanswered]

/-- What an answer writes to the fields that the verdict is about. -/
theorem noteAnswer_fields (stamp : UInt32) (reply : RpcReply) (e : CatalogEntry) :
    (noteAnswer stamp reply e).failures = 0 ∧ (noteAnswer stamp reply e).lastAnswered = stamp ∧
      (noteAnswer stamp reply e).answeringSince =
        if e.state = .Responsive then e.answeringSince else stamp := by
  rw [noteAnswer]
  dsimp only
  cases reply.message.senderId <;> split_ifs <;> exact ⟨rfl, rfl, rfl⟩

theorem rejoined_noteAnswer (stamp : UInt32) (reply : RpcReply) (e : CatalogEntry) :
    (noteAnswer stamp reply e).has .Rejoined =
      if e.state = .Responsive then e.has .Rejoined else decide (e.state = .Gone) := by
  rw [CatalogEntry.has, flags_noteAnswer]
  change CatalogEntry.has (if reply.status = .Response then _ else _) _ = _
  split_ifs <;> simp [noteResponse]

/-- An answer, at which a spell begins if there is none. -/
theorem Follows.answer (h : Follows give l e) (hgive : 1 ≤ give) (ho : isAnswer o.status)
    (hstamp : o.stamp ≠ 0) :
    Follows give (l ++ [o]) { noteAnswer o.stamp reply e with state := .Responsive } := by
  obtain ⟨hfailures, hlast, hsince⟩ := noteAnswer_fields o.stamp reply e
  have hmissed : missed (l ++ [o]) = 0 := by rw [missed_concat, if_pos ho]
  have hanswered : answered (l ++ [o]) = true := by rw [answered_concat, ho, Bool.or_true]
  refine ⟨?_, ?_, ?_, ?_⟩
  · rw [verdict, hanswered, hmissed, if_pos rfl, if_neg]
    push_cast
    omega
  · rw [hmissed]
    exact congrArg UInt8.toNat hfailures
  · rw [hanswered]
    exact iff_of_true (fun hzero => hstamp (hlast.symm.trans hzero)) rfl
  · change ((noteAnswer o.stamp reply e).answeringSince, (noteAnswer o.stamp reply e).has _) = _
    rw [hsince, rejoined_noteAnswer, spells_concat, h.state]
    by_cases hresponsive : verdict give l = .Responsive
    · rw [if_pos hresponsive, if_pos hresponsive, if_neg fun hboth => hboth.2 hresponsive,
        append_nil, h.spell]
    · rw [if_neg hresponsive, if_neg hresponsive, if_pos ⟨ho, hresponsive⟩, getLast?_append]
      rfl

/-- What the end of a query makes of an entry. -/
theorem Follows.noteOutcome (born : ℕ) {stamp : UInt32} (h : Follows give l e)
    (hgive : 1 ≤ give ∧ give ≤ 255) (hstamp : isAnswer reply.status → stamp ≠ 0) :
    Follows give (l ++ [⟨born, reply.status, stamp⟩]) (noteOutcome give stamp reply e) := by
  rw [Crawler.noteOutcome]
  cases hstatus : reply.status with
  | Throttled => exact h.throttled rfl
  | Timeout => exact h.timeout hgive.2 rfl rfl
  | Response | Error =>
    rw [hstatus] at hstamp
    exact h.answer (o := ⟨born, _, stamp⟩) hgive.1 rfl (hstamp rfl)

theorem sameVerdict_noteChecked (hcheck : check ∈ checkOrder) (reply : RpcReply)
    (e : CatalogEntry) : SameVerdict e (noteChecked check reply e) := by
  have hne : check ≠ .Rejoined := by
    rintro rfl
    revert hcheck
    decide
  have htries (e : CatalogEntry) (n : ℤ) : SameVerdict e (e.setFeatureTries n) :=
    ⟨rfl, rfl, rfl, rfl, CatalogEntry.has_setFeatureTries ..⟩
  rw [noteChecked]
  cases reply.status with
  | Throttled => exact ⟨rfl, rfl, rfl, rfl, rfl⟩
  | Timeout =>
    rw [noteCheckTimeout]
    dsimp only
    split_ifs
    · exact (htries _ _).trans ((sameVerdict_set _ hne true).trans (htries _ _))
    · exact htries _ _
  | Response | Error =>
    refine noteCheck_rec (P := SameVerdict e) check reply e (fun e' f on h hf _ => ?_)
      (fun e' n h => h.trans ⟨rfl, rfl, rfl, rfl, CatalogEntry.has_setSampleCount ..⟩)
      ((sameVerdict_set e hne true).trans (htries _ _))
    refine h.trans (sameVerdict_set e' ?_ on)
    rintro rfl
    cases hf

/-- An entry that was never asked. -/
theorem Pristine.follows (h : Pristine present e) (hroutable : e.state ≠ .Unroutable)
    (hgive : 1 ≤ give) : Follows give [] e := by
  obtain ⟨hstate, hfailures, -⟩ := h.state.resolve_left hroutable
  refine ⟨?_, by rw [hfailures]; rfl, ?_, ?_⟩
  · rw [hstate, verdict]
    exact (if_neg (show ¬(0 : ℤ) ≥ give by omega)).symm
  · rw [h.lastAnswered]
    decide
  · rw [h.answeringSince, h.has _ (by decide) (by decide)]
    rfl

/-! ## Stages -/

/-- The outcomes of the queries to the entry in a slot. -/
def scansAt (c : Crawler) (s : ℕ) : List Outcome :=
  c.outcomes.filter (·.born = c.catalog.birth s)

/-- The verdict on every entry that can be asked follows from its outcomes. -/
structure Kept (give : ℤ) (c : Crawler) : Prop where
  config : c.config.failuresToGiveUp = give
  known : ∀ r ∈ c.scheduled, r.generation.toNat ≤ c.catalog.insertions
  barred : ∀ s, c.catalog.InUse s → (c.catalog.entryAt s).state = .Unroutable →
    c.catalog.ref s ∉ c.scheduled
  issued : ∀ q ∈ c.scans, Issued c.catalog q.ref q.born
  check : ∀ q ∈ c.checks, q.check ∈ checkOrder
  told : ∀ o ∈ c.outcomes, o.born ≤ c.catalog.insertions
  follows : ∀ s, c.catalog.InUse s → (c.catalog.entryAt s).state ≠ .Unroutable →
    Follows give (c.scansAt s) (c.catalog.entryAt s)

/-- Of a stage in which no query ends. -/
theorem Kept.of_rewritten (h : Kept give c) (hcatalog : Catalogued hash c.catalog)
    (hlt : c.catalog.insertions < 2 ^ 32)
    (hrewritten : Rewritten hash SameVerdict c.catalog c'.catalog) (hconfig : c'.config = c.config)
    (hle : ∀ r, c'.scheduled.count r ≤ c.scheduled.count r)
    (hscans : ∀ q ∈ c'.scans, q ∈ c.scans ∨
      c.catalog.isCurrent q.ref ∧ q.born = c.catalog.birth q.ref.slot)
    (hchecks : ∀ q ∈ c'.checks, q ∈ c.checks ∨ q.check ∈ checkOrder)
    (houtcomes : c'.outcomes = c.outcomes) : Kept give c' where
  config := hconfig ▸ h.config
  known r hr := by
    rw [hrewritten.insertions]
    exact h.known r (count_pos_iff.1 ((count_pos_iff.2 hr).trans_le (hle r)))
  barred s hs hstate hr := by
    have hs := (hrewritten.inUse s).1 hs
    rw [(hrewritten.entry s hs).state] at hstate
    rw [hrewritten.ref] at hr
    exact h.barred s hs hstate (count_pos_iff.1 ((count_pos_iff.2 hr).trans_le (hle _)))
  issued q hq := by
    have hissued : Issued c.catalog q.ref q.born := by
      rcases hscans q hq with hq | ⟨hcurrent, hborn⟩
      · exact h.issued q hq
      · have hissued := hcatalog.issued hlt (isCurrent_iff.1 hcurrent).1
        rwa [ref_eq_of_isCurrent hcurrent, ← hborn] at hissued
    exact hissued.passage hcatalog hrewritten.passage hrewritten.invariant
      (hrewritten.insertions.trans_lt hlt)
  check q hq := (hchecks q hq).elim (h.check q) id
  told o ho := by
    rw [hrewritten.insertions]
    exact h.told o (houtcomes ▸ ho)
  follows s hs hroutable := by
    have hs := (hrewritten.inUse s).1 hs
    have hsame := hrewritten.entry s hs
    rw [scansAt, houtcomes, hrewritten.birth]
    exact hsame.follows (h.follows s hs (hsame.state ▸ hroutable))

theorem Kept.listed (h : Kept give c) (hgive : 1 ≤ give) (hcatalog : Catalogued hash c.catalog)
    (hlisted : Listed hash present c c') (hlt : c'.catalog.insertions < 2 ^ 32) :
    Kept give c' := by
  obtain ⟨added, hfresh, hentered⟩ := hlisted.fresh
  have hent := hentered hcatalog.numbered hlt
  have hle := hlisted.passage.changes.insertions_le
  have hcatalog' := hcatalog.passage hlisted.passage hlisted.invariant
  have hrest {α : Type} (f : Ledger → α) := congrArg f hlisted.ledger
  have hconfig : c'.config = c.config := hrest Ledger.config
  have hscans : c'.scans = c.scans := hrest Ledger.scans
  have hchecks : c'.checks = c.checks := hrest Ledger.checks
  have houtcomes : c'.outcomes = c.outcomes := hrest Ledger.outcomes
  have hscheduled : ∀ r ∈ c'.scheduled, r ∈ c.scheduled ∨ r ∈ added := fun r hr => by
    have hretry : c'.retry = c.retry := hrest Ledger.retry
    have hrevisit : c'.revisit = c.revisit := hrest Ledger.revisit
    have hsilent : c'.revisitSilent = c.revisitSilent := hrest Ledger.revisitSilent
    have hdeferred : c'.deferred = c.deferred := hrest Ledger.deferred
    have hpos := count_pos_iff.2 hr
    rw [count_scheduled, hfresh, hretry, hrevisit, hsilent, hdeferred, hscans, count_append] at hpos
    rw [← count_pos_iff, ← count_pos_iff, count_scheduled]
    omega
  refine ⟨hconfig ▸ h.config, fun r hr => ?_, fun s hs hstate hr => ?_, fun q hq => ?_,
    fun q hq => h.check q (hchecks ▸ hq), fun o ho => ?_, fun s hs hroutable => ?_⟩
  · -- What waits was given out, before or just now.
    rcases hscheduled r hr with hold | hnew
    · exact (h.known r hold).trans hle
    · exact (hent.new r hnew).2
  · rcases hent.entry s hs with ⟨hs₀, href, hsame⟩ | ⟨hnew, -, hcount⟩
    · rw [href] at hr
      rcases hscheduled _ hr with hold | hadded
      · exact h.barred s hs₀ (hsame.state ▸ hstate) hold
      · have hlow := (hcatalog.numbered (hle.trans_lt hlt)).1 s hs₀
        exact not_lt.2 hlow (hent.new _ hadded).1
    · rcases hscheduled _ hr with hold | hadded
      · exact not_lt.2 (h.known _ hold) hnew
      · rw [if_pos hstate] at hcount
        exact count_eq_zero.1 hcount hadded
  · rw [hscans] at hq
    exact (h.issued q hq).passage hcatalog hlisted.passage hlisted.invariant hlt
  · rw [houtcomes] at ho
    exact (h.told o ho).trans hle
  · rw [scansAt, houtcomes, ← hcatalog'.dated hlt s hs]
    rcases hent.entry s hs with ⟨hs₀, href, hsame⟩ | ⟨hnew, hpristine, -⟩
    · have hgen : (c'.catalog.entryAt s).generation = (c.catalog.entryAt s).generation :=
        congrArg CatalogRef.generation href
      rw [hgen, hcatalog.dated (hle.trans_lt hlt) s hs₀]
      exact hsame.toSameStanding.sameVerdict.follows (h.follows s hs₀ (hsame.state ▸ hroutable))
    · -- Nothing was told of an entry that is new.
      have hnone : c.outcomes.filter (·.born = (c'.catalog.entryAt s).generation.toNat) = [] := by
        rw [filter_eq_nil_iff]
        intro o ho hborn
        rw [decide_eq_true_iff] at hborn
        have hold := h.told o ho
        omega
      rw [hnone]
      exact hpristine.follows hroutable hgive

theorem Kept.settled {env : Outside} {q : Query} (h : Kept give c)
    (hgive : 1 ≤ give ∧ give ≤ 255) (hcatalog : Catalogued hash c.catalog)
    (hlt : c.catalog.insertions < 2 ^ 32) (hq : q ∈ c.scans)
    (hstamp : isAnswer reply.status → c.catalog.stamp env.now ≠ 0)
    (hsettled : Settled hash env q reply c c') : Kept give c' := by
  have hrewritten := hsettled.rewritten
  have hissued := h.issued q hq
  have hle (r : CatalogRef) : c'.scheduled.count r ≤ c.scheduled.count r :=
    (Nat.le_add_right _ _).trans (hsettled.scheduled r).le
  have hroutable {s : ℕ} (hs : c.catalog.InUse s) (href : c.catalog.ref s = q.ref) :
      (c.catalog.entryAt s).state ≠ .Unroutable := fun hstate =>
    h.barred s hs hstate (href ▸ mem_append_right _ (mem_map_of_mem hq))
  -- The outcome is the next one of the entry that was asked.
  have hself {s : ℕ} (hs : c.catalog.InUse s) (href : c.catalog.ref s = q.ref) :
      Follows give (c'.scansAt s) (c'.catalog.entryAt s) := by
    rw [hsettled.entry s hs, if_pos href, scansAt, hsettled.outcomes, filter_append,
      hrewritten.birth, filter_cons_of_pos (by simpa using ((hissued.birth s hs).2 href).symm),
      filter_nil, h.config]
    have hfollows := (h.follows s hs (hroutable hs href)).noteOutcome q.born hgive hstamp
    split_ifs
    · exact (sameVerdict_set _ (by decide) true).follows hfollows
    · exact hfollows
  have hother {s : ℕ} (hs : c.catalog.InUse s) (hne : c.catalog.ref s ≠ q.ref) :
      c'.catalog.entryAt s = c.catalog.entryAt s := (hsettled.entry s hs).trans (if_neg hne)
  refine ⟨hsettled.config ▸ h.config, fun r hr => ?_, fun s hs hstate hr => ?_, fun q' hq' => ?_,
    fun q' hq' => h.check q' (hsettled.checks ▸ hq'), fun o ho => ?_, fun s hs hstate => ?_⟩
  · rw [hrewritten.insertions]
    exact h.known r (count_pos_iff.1 ((count_pos_iff.2 hr).trans_le (hle r)))
  · have hs := (hrewritten.inUse s).1 hs
    rw [hrewritten.ref] at hr
    by_cases href : c.catalog.ref s = q.ref
    · -- The verdict on an entry that was asked is never that it cannot be.
      rw [(hself hs href).state, verdict] at hstate
      split_ifs at hstate
    · rw [hother hs href] at hstate
      exact h.barred s hs hstate (count_pos_iff.1 ((count_pos_iff.2 hr).trans_le (hle _)))
  · rw [hsettled.scans] at hq'
    exact (h.issued q' (erase_subset hq')).passage hcatalog hrewritten.passage
      hrewritten.invariant (hrewritten.insertions.trans_lt hlt)
  · rw [hrewritten.insertions]
    rw [hsettled.outcomes] at ho
    rcases mem_append.1 ho with ho | ho
    · exact h.told o ho
    · rw [mem_singleton.1 ho]
      exact hissued.le
  · have hs := (hrewritten.inUse s).1 hs
    by_cases href : c.catalog.ref s = q.ref
    · exact hself hs href
    · rw [hother hs href] at hstate ⊢
      rw [scansAt, hsettled.outcomes, filter_append, hrewritten.birth, filter_cons_of_neg
        (by simpa using Ne.symm (mt (hissued.birth s hs).1 href)), filter_nil, append_nil]
      exact h.follows s hs hstate

theorem nextCheck_mem (e : CatalogEntry) : (nextCheck e).1 ∈ checkOrder := by
  rw [nextCheck]
  cases hfind : featureChecks.find? fun check => !e.has check.1 with
  | none => decide
  | some check =>
    exact mem_append_left [.TestedUnknown]
      (mem_map_of_mem (f := Prod.fst) (mem_of_find?_eq_some hfind))

/-- Only the end of a query adds to the outcomes. -/
theorem Stage.outcomes_subset (hstage : Stage hash present c c') : c.outcomes ⊆ c'.outcomes := by
  cases hstage with
  | listed h =>
    rw [show c'.outcomes = c.outcomes from congrArg Ledger.outcomes h.ledger]
    exact Subset.refl _
  | moved h =>
    rw [show c'.outcomes = c.outcomes from congrArg Aside.outcomes h.aside]
    exact Subset.refl _
  | dropped | rotated | unqueued | checked => exact Subset.refl _
  | settled _ h =>
    rw [h.outcomes]
    exact subset_append_left _ _
  | concluded _ h =>
    have hrest {α : Type} (f : Crawler → α) := congrArg f h.rest
    have houtcomes : c'.outcomes = c.outcomes := hrest Crawler.outcomes
    rw [houtcomes]
    exact Subset.refl _

/-- Every answer has a stamp. -/
def Stamped (c : Crawler) : Prop := ∀ o ∈ c.outcomes, isAnswer o.status → o.stamp ≠ 0

instance : Decidable (Stamped c) :=
  inferInstanceAs (Decidable (∀ o ∈ c.outcomes, isAnswer o.status → o.stamp ≠ 0))

theorem Kept.stage (h : Kept give c) (hgive : 1 ≤ give ∧ give ≤ 255)
    (hcatalog : Catalogued hash c.catalog) (hstage : Stage hash present c c')
    (hlt : c'.catalog.insertions < 2 ^ 32) (hstamped : Stamped c') : Kept give c' := by
  have hlt₀ := (hstage.insertions_le hcatalog.invariant).trans_lt hlt
  have hrefl : Rewritten hash SameVerdict c.catalog c.catalog :=
    .refl hcatalog.invariant fun _ => ⟨rfl, rfl, rfl, rfl, rfl⟩
  cases hstage with
  | listed hlisted => exact h.listed hgive.1 hcatalog hlisted hlt
  | moved hmoved =>
    have hrest {α : Type} (f : Aside → α) := congrArg f hmoved.aside
    have hchecks : c'.checks = c.checks := hrest Aside.checks
    obtain ⟨sent, hscans, -, hcurrent, -⟩ := hmoved.sent
    refine h.of_rewritten hcatalog hlt₀ (hmoved.catalog.mono fun _ _ => SameStanding.sameVerdict)
      (hrest Aside.config) hmoved.count_le (fun q hq => ?_) (fun q hq => .inl (hchecks ▸ hq))
      (hrest Aside.outcomes)
    rw [hscans] at hq
    exact (mem_append.1 hq).imp id (hcurrent q)
  | dropped | rotated =>
    exact h.of_rewritten hcatalog hlt₀ hrefl rfl (fun _ => le_rfl) (fun _ => .inl)
      (fun _ => .inl) rfl
  | checked =>
    refine h.of_rewritten hcatalog hlt₀ hrefl rfl (fun _ => le_rfl) (fun _ => .inl)
      (fun q hq => (mem_append.1 hq).imp id fun hq => ?_) rfl
    rw [mem_singleton.1 hq]
    exact nextCheck_mem _
  | unqueued hqueue hr =>
    rename_i r rest
    have hnoted := noted_unqueued hcatalog.invariant hr rest
    have hrewritten := hnoted.rewritten
    refine h.of_rewritten hcatalog hlt₀ ⟨hrewritten.invariant, hrewritten.inUse, fun s _ => ?_,
      hrewritten.keyAt, hrewritten.generation, hrewritten.nextGeneration, hrewritten.history⟩ rfl
      (fun _ => le_rfl) (fun _ => .inl) (fun _ => .inl) rfl
    by_cases hslot : s = r.slot
    · rw [hslot, hnoted.self]
      exact sameVerdict_set _ (by decide) false
    · rw [hnoted.other s hslot]
      exact ⟨rfl, rfl, rfl, rfl, rfl⟩
  | settled hq hsettled =>
    refine h.settled hgive hcatalog hlt₀ hq (fun hanswer => ?_) hsettled
    exact hstamped _ (hsettled.outcomes ▸ mem_append_right _ (mem_singleton_self _)) hanswer
  | concluded hq hconcluded =>
    rename_i q reply
    have hrest {α : Type} (f : Crawler → α) := congrArg f hconcluded.rest
    have hchecks : c'.checks = c.checks.erase q := hrest Crawler.checks
    have hscheduled : c'.scheduled = c.scheduled := hrest scheduled
    have hscans : c'.scans = c.scans := hrest Crawler.scans
    have hrewritten := hconcluded.rewritten
    refine h.of_rewritten hcatalog hlt₀ ⟨hrewritten.invariant, hrewritten.inUse, fun s hs => ?_,
      hrewritten.keyAt, hrewritten.generation, hrewritten.nextGeneration, hrewritten.history⟩
      (hrest Crawler.config) (fun r => by rw [hscheduled]) (fun q' hq' => .inl (hscans ▸ hq'))
      (fun q' hq' => .inl (erase_subset (hchecks ▸ hq'))) (hrest Crawler.outcomes)
    -- The verdict is not on what a check writes.
    have hsame := sameVerdict_noteChecked (h.check q hq) reply (c.catalog.entryAt s)
    rw [hconcluded.entry s hs]
    split_ifs
    · exact hsame.trans (sameVerdict_set _ (by decide) false)
    · exact hsame
    · exact ⟨rfl, rfl, rfl, rfl, rfl⟩

/-! ## Runs -/

theorem Reached.kept (hc : Reached hash config c)
    (hgive : 1 ≤ config.failuresToGiveUp ∧ config.failuresToGiveUp ≤ 255)
    (hlt : c.catalog.insertions < 2 ^ 32) (hstamped : Stamped c) :
    Kept config.failuresToGiveUp c := by
  obtain ⟨catalog, hcatalog, hnone, hsteps⟩ := hc.start
  refine hsteps.rec_bounded (P := fun c => Stamped c → Kept config.failuresToGiveUp c) hcatalog hlt
    (fun _ => ⟨rfl, fun r hr => absurd hr not_mem_nil, fun s hs => absurd hs (hnone s),
      fun q hq => absurd hq not_mem_nil, fun q hq => absurd hq not_mem_nil,
      fun o ho => absurd ho not_mem_nil, fun s hs => absurd hs (hnone s)⟩)
    (fun present c c' hcatalog hstage hlt hP hstamped => ?_) hstamped
  have hbefore : Stamped c := fun o ho => hstamped o (hstage.outcomes_subset ho)
  exact (hP hbefore).stage hgive hcatalog hstage hlt hstamped

/-- Until generations or stamps wrap around, in every state the scan reaches, the state of
    an entry that can be asked tells whether a query to it was ever answered, and whether too
    many timed out since; `answeringSince` and `Rejoined` tell of when the last spell of
    answers began. -/
theorem verdicts_follow (hash : CatalogKey → ℕ) (config : CrawlConfig) (c : Crawler)
    (hgive : 1 ≤ config.failuresToGiveUp ∧ config.failuresToGiveUp ≤ 255)
    (hc : Reached hash config c) (hlt : c.catalog.insertions < 2 ^ 32) (hstamped : Stamped c)
    (s : ℕ) (hs : c.catalog.InUse s) (hroutable : (c.catalog.entryAt s).state ≠ .Unroutable) :
    let e := c.catalog.entryAt s
    let l := c.scansAt s
    (e.state = .New ↔ ¬answered l ∧ missed l < config.failuresToGiveUp) ∧
    (e.state = .Silent ↔ ¬answered l ∧ missed l ≥ config.failuresToGiveUp) ∧
    (e.state = .Gone ↔ answered l ∧ missed l ≥ config.failuresToGiveUp) ∧
    (e.state = .Responsive ↔ answered l ∧ missed l < config.failuresToGiveUp) ∧
    (e.answeringSince, e.has .Rejoined) =
      (spells config.failuresToGiveUp l).getLast?.getD (0, false) := by
  have hfollows := (hc.kept hgive hlt hstamped).follows s hs hroutable
  have hunder : (missed (c.scansAt s) : ℤ) < config.failuresToGiveUp ↔
      ¬(missed (c.scansAt s) : ℤ) ≥ config.failuresToGiveUp := not_le.symm
  refine ⟨?_, ?_, ?_, ?_, hfollows.spell⟩
  all_goals
    rw [hfollows.state, verdict]
    by_cases hanswered : answered (c.scansAt s) <;>
      by_cases hover : (missed (c.scansAt s) : ℤ) ≥ config.failuresToGiveUp <;>
        simp [hanswered, hover, hunder]

/-- An answer. -/
theorem verdicts_follow_oneAnswer :
    ∃ c, follow byPort (fun _ _ => true) oneAnswer { config := {}, catalog := .new 10 0 } =
      some c ∧ c.catalog.InUse 0 ∧ answered (c.scansAt 0) ∧ missed (c.scansAt 0) < 2 := by
  have hrun : (follow byPort (fun _ _ => true) oneAnswer
      { config := {}, catalog := .new 10 0 }).map (fun c =>
        (c.catalog.insertions, decide (Stamped c),
          c.catalog.entries.map fun e => (e.inUse, e.state))) =
      some (1, true, [(true, .Responsive)]) := by
    decide +kernel
  obtain ⟨c, hfollow, hc⟩ := Option.map_eq_some_iff.1 hrun
  simp only [Prod.mk.injEq, decide_eq_true_iff] at hc
  obtain ⟨hinsertions, hstamped, hentries⟩ := hc
  obtain ⟨e, hone, he⟩ := List.map_eq_singleton_iff.1 hentries
  simp only [Prod.mk.injEq] at he
  have hentry : c.catalog.entryAt 0 = e := by rw [entryAt, hone]; rfl
  have hs : c.catalog.InUse 0 := inUse_iff.2 (hentry ▸ he.1)
  have hstate : (c.catalog.entryAt 0).state = .Responsive := hentry ▸ he.2
  have hreached : Reached byPort {} c := by
    refine reached_follow (fun e he env henv family => ?_) hfollow
    simp only [oneAnswer, mem_cons, not_mem_nil, or_false] at he
    obtain rfl | rfl | rfl := he
    all_goals
      cases henv
      cases family <;> rfl
  obtain ⟨-, -, -, hresponsive, -⟩ := verdicts_follow byPort {} c (by decide) hreached
    (by rw [hinsertions]; decide) hstamped 0 hs (by rw [hstate]; decide)
  obtain ⟨hanswered, hmissed⟩ := hresponsive.1 hstate
  exact ⟨c, hfollow, hs, hanswered, Int.ofNat_lt.1 hmissed⟩

/-! ## Once generations or stamps wrap around -/

/-- A node is entered and asked, and its place is free to be taken. -/
def oneQuery : List Event :=
  [.setMonitoring { overIPv4 0 with start := [firstNode] } true, .tick (overIPv4 0),
    .setMonitoring (overIPv4 0) false]

/-- The answer to a query makes another node responsive, 2^32 entries later. -/
theorem exists_answer_of_other : ∃ c, Reached byPort {} c ∧ Stamped c ∧ c.catalog.InUse 0 ∧
    (c.catalog.entryAt 0).state = .Responsive ∧ ¬answered (c.scansAt 0) := by
  let q : Query := ⟨⟨0, 1⟩, 1, firstNode.endpoint, some firstNode.id⟩
  have hrun : (follow byPort (fun _ _ => true) oneQuery
      { config := {}, catalog := .new 1 0 }).map (fun c =>
        (c.isLone, c.scans, c.outcomes.length, c.catalog.insertions)) = some (true, [q], 0, 1) := by
    decide +kernel
  obtain ⟨c₀, hfollow, hc⟩ := Option.map_eq_some_iff.1 hrun
  simp only [Prod.mk.injEq] at hc
  obtain ⟨hisLone, hscans, houtcomes, hinsertions⟩ := hc
  have hpresent : ∀ e ∈ oneQuery, ∀ env, e.outside = some env →
      ∀ family, (env.nodeId family).isSome = decide (family = .IPv4) := by
    intro e he env henv family
    simp only [oneQuery, mem_cons, not_mem_nil, or_false] at he
    obtain rfl | rfl | rfl := he
    all_goals
      cases henv
      cases family <;> rfl
  obtain ⟨c, ⟨d, hempty, hslots, hsteps⟩, hlone, hledger, -, hbirth, href⟩ :=
    exists_wrapped_follow hpresent hfollow hisLone
  have hrest {α : Type} (f : Ledger → α) := congrArg f hledger
  have hscans : c.scans = [q] := (hrest Ledger.scans).trans hscans
  have houtcomes : c.outcomes = [] :=
    (hrest Ledger.outcomes).trans (List.length_eq_zero_iff.1 houtcomes)
  let env := overIPv4 c.catalog.epochMs
  let error : RpcReply := { status := .Error }
  have hlegal : c.Legal (fun family => family = .IPv4) (.reply env q error) := by
    refine ⟨fun env' henv family => ?_, hscans ▸ mem_singleton_self q⟩
    cases henv
    cases family <;> rfl
  have hsettled : Settled byPort env q error c (c.settle env q error) :=
    settled_settle hlone.invariant (hscans ▸ mem_singleton_self q) error
  have hstamp : c.catalog.stamp env.now = 1 := by
    rw [stamp, show env.now = c.catalog.epochMs from rfl, sub_self]
    decide
  have houtcomes' : (c.settle env q error).outcomes = [⟨1, .Error, 1⟩] := by
    rw [hsettled.outcomes, houtcomes, hstamp]
    rfl
  have hs := hlone.inUse
  refine ⟨c.settle env q error,
    ⟨d, hempty, hslots, hsteps.tail ⟨_, _, hlegal, apply_reply q error⟩⟩, ?_,
    (hsettled.rewritten.inUse 0).2 hs, ?_, ?_⟩
  · rw [Stamped, houtcomes']
    decide
  · rw [hsettled.entry 0 hs, if_pos href]
    split_ifs <;> rfl
  · have hnone : (c.settle env q error).scansAt 0 = [] := by
      rw [scansAt, houtcomes', hsettled.rewritten.birth]
      refine filter_cons_of_neg ?_
      rw [decide_eq_true_iff]
      exact (hinsertions ▸ hbirth).ne
    rw [hnone]
    decide

/-- A node answers when stamps have wrapped around, and then it does not. -/
def answeredLate : List Event :=
  let late := NodeCatalog.TickMs * (2 ^ 32 - 1)
  [.setMonitoring { overIPv4 0 with start := [firstNode] } true, .tick (overIPv4 0),
    .reply (overIPv4 late) ⟨⟨0, 1⟩, 1, firstNode.endpoint, some firstNode.id⟩ { status := .Error },
    .tick (overIPv4 (late + 600100)),
    .reply (overIPv4 (late + 600100)) ⟨⟨0, 1⟩, 1, firstNode.endpoint, none⟩ {}]

/-- A zero stamp says that a node has never answered. -/
theorem exists_answer_forgotten : ∃ c, Reached byPort { failuresToGiveUp := 1 } c ∧
    c.catalog.insertions < 2 ^ 32 ∧ c.catalog.InUse 0 ∧
    (c.catalog.entryAt 0).state = .Silent ∧ answered (c.scansAt 0) := by
  have hrun : (follow byPort (fun _ _ => true) answeredLate
      { config := { failuresToGiveUp := 1 }, catalog := .new 10 0 }).map (fun c =>
        (c.catalog.insertions, c.catalog.entries.map (fun e => (e.inUse, e.state)),
          answered (c.scansAt 0))) =
      some (1, [(true, .Silent)], true) := by
    decide +kernel
  obtain ⟨c, hfollow, hc⟩ := Option.map_eq_some_iff.1 hrun
  simp only [Prod.mk.injEq] at hc
  obtain ⟨hinsertions, hentries, hanswered⟩ := hc
  obtain ⟨e, hone, he⟩ := List.map_eq_singleton_iff.1 hentries
  simp only [Prod.mk.injEq] at he
  have hentry : c.catalog.entryAt 0 = e := by rw [entryAt, hone]; rfl
  refine ⟨c, reached_follow (fun e he env henv family => ?_) hfollow,
    by rw [hinsertions]; decide, inUse_iff.2 (hentry ▸ he.1), hentry ▸ he.2, hanswered⟩
  simp only [answeredLate, mem_cons, not_mem_nil, or_false] at he
  obtain rfl | rfl | rfl | rfl | rfl := he
  all_goals
    cases henv
    cases family <;> rfl

/-- Either wrap-around is enough for the state of an entry not to tell. -/
theorem not_verdicts :
    (¬∀ (hash : CatalogKey → ℕ) (config : CrawlConfig) (c : Crawler),
      1 ≤ config.failuresToGiveUp ∧ config.failuresToGiveUp ≤ 255 → Reached hash config c →
      Stamped c → ∀ s, c.catalog.InUse s → (c.catalog.entryAt s).state ≠ .Unroutable →
        ((c.catalog.entryAt s).state = .Responsive ↔
          answered (c.scansAt s) ∧ missed (c.scansAt s) < config.failuresToGiveUp)) ∧
    ¬∀ (hash : CatalogKey → ℕ) (config : CrawlConfig) (c : Crawler),
      1 ≤ config.failuresToGiveUp ∧ config.failuresToGiveUp ≤ 255 → Reached hash config c →
      c.catalog.insertions < 2 ^ 32 → ∀ s, c.catalog.InUse s →
        (c.catalog.entryAt s).state ≠ .Unroutable →
        ((c.catalog.entryAt s).state = .Silent ↔
          ¬answered (c.scansAt s) ∧ missed (c.scansAt s) ≥ config.failuresToGiveUp) := by
  constructor
  · intro hclaim
    obtain ⟨c, hreached, hstamped, hs, hstate, hanswered⟩ := exists_answer_of_other
    exact hanswered ((hclaim byPort {} c (by decide) hreached hstamped 0 hs
      (by rw [hstate]; decide)).1 hstate).1
  · intro hclaim
    obtain ⟨c, hreached, hlt, hs, hstate, hanswered⟩ := exists_answer_forgotten
    exact ((hclaim byPort _ c (by decide) hreached hlt 0 hs (by rw [hstate]; decide)).1 hstate).1
      hanswered

end Dht.Crawler
