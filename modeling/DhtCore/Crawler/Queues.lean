import DhtCore.Crawler.Stages

/-!
# The queues of the scan

Every entry that can be asked waits in one queue, once, or is being asked (`Queued`), and
what is asked is counted (`Counted`). That an entry which has gone is never asked again
(`queued_once`) rests on generations, which tell entries apart until they wrap around
(`exists_queued_twice`).
-/

namespace Dht.Crawler

open List NodeCatalog

variable {hash : CatalogKey → ℕ} {present : Family → Bool} {config : CrawlConfig}
  {c c' : Crawler} {d d' : NodeCatalog} {s : ℕ} {e : CatalogEntry} {r : CatalogRef}

/-! ## The catalogue -/

/-- What is known of the catalogue, as far as generations have not wrapped around. -/
structure Catalogued (hash : CatalogKey → ℕ) (d : NodeCatalog) : Prop where
  invariant : Invariant hash d
  numbered : d.Numbered
  dated : d.Dated
  distinct : d.Distinct

theorem Catalogued.passage (h : Catalogued hash d) (hpassage : Passage hash d d')
    (hinv : Invariant hash d') : Catalogued hash d' :=
  ⟨hinv, hpassage.changes.numbered h.numbered, hpassage.dated h.numbered h.dated,
    hpassage.distinct h.numbered h.distinct⟩

theorem Catalogued.stage (h : Catalogued hash c.catalog) (hstage : Stage hash present c c') :
    Catalogued hash c'.catalog :=
  h.passage (hstage.passage h.invariant).1 (hstage.passage h.invariant).2

theorem Catalogued.stages (h : Catalogued hash c.catalog) (hstages : Stages hash present c c') :
    Catalogued hash c'.catalog :=
  h.passage (hstages.passage h.invariant).1 (hstages.passage h.invariant).2

theorem catalogued_of_slots (h : NodeCatalog.Reachable hash d) (hslots : d.slots = []) :
    Catalogued hash d := by
  have hnone : ∀ s, ¬d.InUse s := fun s hs => by
    rw [← mem_slots, hslots] at hs
    exact not_mem_nil hs
  exact ⟨h.invariant.1, h.invariant.2, fun _ s hs => absurd hs (hnone s),
    fun _ s _ hs => absurd hs (hnone s)⟩

theorem Stage.insertions_le (hstage : Stage hash present c c') (h : Invariant hash c.catalog) :
    c.catalog.insertions ≤ c'.catalog.insertions :=
  (hstage.passage h).1.changes.insertions_le

theorem Stages.insertions_le (hstages : Stages hash present c c') (h : Invariant hash c.catalog) :
    c.catalog.insertions ≤ c'.catalog.insertions :=
  (hstages.passage h).1.changes.insertions_le

/-- What holds of the first state and is kept by every stage, until generations wrap around. -/
theorem Stages.rec_bounded {P : Crawler → Prop} (hstages : Stages hash present c c')
    (h : Catalogued hash c.catalog) (hlt : c'.catalog.insertions < 2 ^ 32) (hP : P c)
    (hstep : ∀ c c', Catalogued hash c.catalog → Stage hash present c c' →
      c'.catalog.insertions < 2 ^ 32 → P c → P c') : P c' := by
  induction hstages with
  | refl => exact hP
  | tail hpre hstage ih =>
    have h' := h.stages hpre
    have hle := hstage.insertions_le h'.invariant
    exact hstep _ _ h' hstage hlt (ih (hle.trans_lt hlt))

/-! ## Counters -/

/-- What is under way is counted. -/
structure Counted (c : Crawler) : Prop where
  outstanding : c.outstanding = c.scans.length + c.checks.length
  queries : c.queries = c.answers + c.errors + c.timeouts + c.notSent + c.scans.length

theorem Counted.stage (h : Counted c) (hstage : Stage hash present c c') : Counted c' := by
  obtain ⟨hout, hqueries⟩ := h
  cases hstage with
  | listed h =>
    have hrest {α : Type} (f : Ledger → α) := congrArg f h.ledger
    have hscans : c'.scans = c.scans := hrest Ledger.scans
    have hchecks : c'.checks = c.checks := hrest Ledger.checks
    refine ⟨?_, ?_⟩
    · rw [hscans, hchecks, ← hout]
      exact hrest Ledger.outstanding
    · have hanswers : c'.answers = c.answers := hrest Ledger.answers
      have herrors : c'.errors = c.errors := hrest Ledger.errors
      have htimeouts : c'.timeouts = c.timeouts := hrest Ledger.timeouts
      have hnotSent : c'.notSent = c.notSent := hrest Ledger.notSent
      rw [hscans, hanswers, herrors, htimeouts, hnotSent, ← hqueries]
      exact hrest Ledger.queries
  -- What is asked is counted as a query, and as one under way.
  | moved h =>
    have hrest {α : Type} (f : Aside → α) := congrArg f h.aside
    obtain ⟨sent, hscans, -, -, hout', hqueries', -⟩ := h.sent
    have hchecks : c'.checks = c.checks := hrest Aside.checks
    refine ⟨?_, ?_⟩
    · rw [hout', hout, hscans, hchecks, length_append]
      push_cast
      ring
    · have hanswers : c'.answers = c.answers := hrest Aside.answers
      have herrors : c'.errors = c.errors := hrest Aside.errors
      have htimeouts : c'.timeouts = c.timeouts := hrest Aside.timeouts
      have hnotSent : c'.notSent = c.notSent := hrest Aside.notSent
      rw [hqueries', hqueries, hscans, hanswers, herrors, htimeouts, hnotSent, length_append]
      push_cast
      ring
  | dropped | rotated | unqueued => exact ⟨hout, hqueries⟩
  | checked =>
    refine ⟨?_, hqueries⟩
    simp only [askFeature, hout, length_append, length_singleton]
    push_cast
    ring
  -- What ends is counted as one of the outcomes.
  | settled hq h =>
    have hlength := length_erase_of_mem hq
    have hpos := length_pos_of_mem hq
    refine ⟨?_, ?_⟩
    · rw [h.outstanding, hout, h.scans, h.checks]
      omega
    · rw [h.queries, hqueries, h.tally, h.scans]
      omega
  | concluded hq h =>
    have hlength := length_erase_of_mem hq
    have hpos := length_pos_of_mem hq
    have hrest {α : Type} (f : Crawler → α) := congrArg f h.rest
    have hscans : c'.scans = c.scans := hrest Crawler.scans
    have hchecks : c'.checks = c.checks.erase _ := hrest Crawler.checks
    have hout' : c'.outstanding = c.outstanding - 1 := hrest Crawler.outstanding
    refine ⟨?_, ?_⟩
    · rw [hout', hchecks, hscans, hout]
      omega
    · rw [hscans, hrest Crawler.queries, hrest Crawler.answers, hrest Crawler.errors,
        hrest Crawler.timeouts, hrest Crawler.notSent]
      exact hqueries

theorem Counted.stages (h : Counted c) (hstages : Stages hash present c c') : Counted c' := by
  induction hstages with
  | refl => exact h
  | tail _ hstage ih => exact ih.stage hstage

/-! ## Queues -/

/-- Every entry that can be asked waits in one queue, once, or is being asked. -/
structure Queued (present : Family → Bool) (c : Crawler) : Prop where
  old : ∀ r ∈ c.scheduled, r.generation.toNat ≤ c.catalog.insertions
  count : ∀ s, c.catalog.InUse s → c.scheduled.count (c.catalog.ref s) =
    if (c.catalog.entryAt s).state = .Unroutable then 0 else 1
  present : ∀ s, c.catalog.InUse s → (c.catalog.entryAt s).state ≠ .Unroutable →
    present (c.catalog.entryAt s).family

/-- Of a stage that lets no entry in or out. -/
theorem Queued.of_rewritten {P : CatalogEntry → CatalogEntry → Prop} (h : Queued present c)
    (hrewritten : Rewritten hash P c.catalog c'.catalog)
    (hstate : ∀ s, c.catalog.InUse s →
      ((c'.catalog.entryAt s).state = .Unroutable ↔ (c.catalog.entryAt s).state = .Unroutable))
    (hcount : ∀ s, c.catalog.InUse s → (c.catalog.entryAt s).state ≠ .Unroutable →
      c'.scheduled.count (c.catalog.ref s) = c.scheduled.count (c.catalog.ref s))
    (hle : ∀ r, c'.scheduled.count r ≤ c.scheduled.count r) : Queued present c' where
  old r hr := by
    rw [hrewritten.insertions]
    exact h.old r (count_pos_iff.1 ((count_pos_iff.2 hr).trans_le (hle r)))
  count s hs := by
    have hs := (hrewritten.inUse s).1 hs
    have hbefore := h.count s hs
    rw [hrewritten.ref]
    by_cases hunroutable : (c.catalog.entryAt s).state = .Unroutable
    · rw [if_pos hunroutable] at hbefore
      rw [if_pos ((hstate s hs).2 hunroutable)]
      exact Nat.le_zero.1 (hbefore ▸ hle _)
    · rw [if_neg hunroutable] at hbefore
      rw [if_neg (mt (hstate s hs).1 hunroutable), hcount s hs hunroutable, hbefore]
  present s hs hroutable := by
    have hs := (hrewritten.inUse s).1 hs
    have hkey : (c'.catalog.entryAt s).address = (c.catalog.entryAt s).address :=
      congrArg CatalogKey.address (hrewritten.keyAt s)
    rw [CatalogEntry.family, CatalogEntry.isIPv4, hkey]
    exact h.present s hs (mt (hstate s hs).2 hroutable)

/-- Whoever is asked can be reached. -/
theorem Queued.routable (h : Queued present c) (hs : c.catalog.InUse s)
    (hmem : c.catalog.ref s ∈ c.scheduled) : (c.catalog.entryAt s).state ≠ .Unroutable := by
  intro hunroutable
  have hcount := h.count s hs
  rw [if_pos hunroutable] at hcount
  exact not_mem_of_count_eq_zero hcount hmem

theorem noteOutcome_state_ne {give : ℤ} {stamp : UInt32} {reply : RpcReply}
    (h : e.state ≠ .Unroutable) : (noteOutcome give stamp reply e).state ≠ .Unroutable := by
  rw [noteOutcome]
  cases reply.status with
  | Throttled => exact h
  | Timeout =>
    dsimp only
    split_ifs
    · simp
    · simp
    · exact h
  | Error | Response => simp

theorem Queued.listed (h : Queued present c) (hnum : c.catalog.Numbered)
    (hlisted : Listed hash present c c') (hlt : c'.catalog.insertions < 2 ^ 32) :
    Queued present c' := by
  obtain ⟨added, hfresh, hentered⟩ := hlisted.fresh
  have hent := hentered hnum hlt
  have hle := hlisted.passage.changes.insertions_le
  have hscheduled : ∀ r, c'.scheduled.count r = c.scheduled.count r + added.count r := fun r => by
    have hrest {α : Type} (f : Ledger → α) := congrArg f hlisted.ledger
    have hretry : c'.retry = c.retry := hrest Ledger.retry
    have hrevisit : c'.revisit = c.revisit := hrest Ledger.revisit
    have hsilent : c'.revisitSilent = c.revisitSilent := hrest Ledger.revisitSilent
    have hdeferred : c'.deferred = c.deferred := hrest Ledger.deferred
    have hscans : c'.scans = c.scans := hrest Ledger.scans
    rw [count_scheduled, count_scheduled, hfresh, hretry, hrevisit, hsilent, hdeferred, hscans,
      count_append]
    omega
  refine ⟨fun r hr => ?_, fun s hs => ?_, fun s hs hroutable => ?_⟩
  · -- Nothing that waits is of a later generation than those given out.
    have hpos := count_pos_iff.2 hr
    rw [hscheduled] at hpos
    rcases Nat.add_pos_iff_pos_or_pos.1 hpos with hold | hnew
    · exact (h.old r (count_pos_iff.1 hold)).trans hle
    · exact (hent.new r (count_pos_iff.1 hnew)).2
  · rw [hscheduled]
    rcases hent.entry s hs with ⟨hs, href, hsame⟩ | ⟨hnew, -, hcount⟩
    · -- What was there is not added again.
      have hzero : added.count (c.catalog.ref s) = 0 := count_eq_zero.2 fun hin => by
        have hadded := (hent.new _ hin).1
        have hold : (c.catalog.ref s).generation.toNat ≤ c.catalog.insertions :=
          (hnum (hle.trans_lt hlt)).1 s hs
        omega
      rw [href, hzero, hsame.state, add_zero]
      exact h.count s hs
    · have hzero : c.scheduled.count (c'.catalog.ref s) = 0 := count_eq_zero.2 fun hin => by
        have hold := h.old _ hin
        have hnew : c.catalog.insertions < (c'.catalog.ref s).generation.toNat := hnew
        omega
      rw [hzero, zero_add]
      exact hcount
  · rcases hent.entry s hs with ⟨hs, -, hsame⟩ | ⟨-, hpristine, -⟩
    · rw [hsame.family]
      exact h.present s hs (hsame.state ▸ hroutable)
    · exact (hpristine.state.resolve_left hroutable).2.2

theorem Queued.stage (h : Queued present c) (hcatalog : Catalogued hash c.catalog)
    (hstage : Stage hash present c c') (hlt : c'.catalog.insertions < 2 ^ 32) :
    Queued present c' := by
  have hsame : Rewritten hash SameStanding c.catalog c.catalog := .refl hcatalog.invariant .refl
  cases hstage with
  | listed hlisted => exact h.listed hcatalog.numbered hlisted hlt
  | moved hmoved =>
    refine h.of_rewritten hmoved.catalog (fun s hs => ?_) (fun s hs hroutable => ?_) fun r => ?_
    · rw [(hmoved.catalog.entry s hs).state]
    · exact hmoved.count _ (isCurrent_iff.2 ⟨hs, rfl⟩) ⟨hroutable, h.present s hs hroutable⟩
    · exact hmoved.count_le r
  | dropped | rotated | checked =>
    exact h.of_rewritten hsame (fun _ _ => Iff.rfl) (fun _ _ _ => rfl) fun _ => le_rfl
  | unqueued hqueue hr =>
    rename_i r rest
    have hnoted := noted_unqueued hcatalog.invariant hr rest
    refine h.of_rewritten hnoted.rewritten (fun s _ => ?_) (fun _ _ _ => rfl) fun _ => le_rfl
    by_cases hs : s = r.slot
    · rw [hs, hnoted.self]
      rfl
    · rw [hnoted.other s hs]
  -- Who ends a query goes back to a queue, unless it has gone meanwhile.
  | settled hq hsettled =>
    refine h.of_rewritten hsettled.rewritten (fun s hs => ?_) (fun s hs _ => ?_) fun r => ?_
    · rw [hsettled.entry s hs]
      split_ifs with heq
      · have hroutable := h.routable hs (heq ▸ mem_append_right _ (mem_map_of_mem hq))
        exact iff_of_false (noteOutcome_state_ne hroutable) hroutable
      · have hroutable := h.routable hs (heq ▸ mem_append_right _ (mem_map_of_mem hq))
        exact iff_of_false (noteOutcome_state_ne hroutable) hroutable
      · rfl
    · have hcount := hsettled.scheduled (c.catalog.ref s)
      rename_i q _ _
      by_cases hr : c.catalog.isCurrent q.ref
      · rwa [if_pos hr, add_zero] at hcount
      · rw [if_neg hr, count_cons_of_ne, count_nil, add_zero] at hcount
        · exact hcount
        · exact fun heq => hr (heq ▸ isCurrent_iff.2 ⟨hs, rfl⟩)
    · exact (Nat.le_add_right _ _).trans (hsettled.scheduled r).le
  | concluded hq hconcluded =>
    rename_i q reply
    have hrest {α : Type} (f : Crawler → α) := congrArg f hconcluded.rest
    have hscheduled : c'.scheduled = c.scheduled := hrest scheduled
    refine h.of_rewritten hconcluded.rewritten (fun s hs => ?_) (fun _ _ _ => by rw [hscheduled])
      fun _ => by rw [hscheduled]
    rw [hconcluded.entry s hs]
    have hchecked := (sameIdentity_noteChecked q.check reply (c.catalog.entryAt s)).state
    split_ifs
    · exact iff_of_eq (congrArg (· = CatalogState.Unroutable) hchecked)
    · exact iff_of_eq (congrArg (· = CatalogState.Unroutable) hchecked)
    · rfl

/-! ## What is asked -/

/-- A stage only asks entries that are there. -/
theorem Stage.asked (hstage : Stage hash present c c') :
    ∃ asked, c'.asked = c.asked ++ asked ∧ ∀ r ∈ asked, c.catalog.isCurrent r := by
  cases hstage with
  | listed h => exact ⟨[], (congrArg Ledger.asked h.ledger).trans (append_nil _).symm, by simp⟩
  | moved h =>
    obtain ⟨sent, -, hasked, hcurrent, -⟩ := h.sent
    refine ⟨_, hasked, fun r hr => ?_⟩
    obtain ⟨q, hq, rfl⟩ := mem_map.1 hr
    exact (hcurrent q hq).1
  | dropped | rotated | unqueued => exact ⟨[], (append_nil _).symm, by simp⟩
  | checked hqueue hr =>
    rename_i r rest _ _
    refine ⟨[r], ?_, by simpa using hr⟩
    simp only [askFeature, ref_eq_of_isCurrent hr]
  | settled _ h => exact ⟨[], by rw [h.asked, append_nil], by simp⟩
  | concluded _ h =>
    exact ⟨[], (congrArg Crawler.asked h.rest).trans (append_nil _).symm, by simp⟩

/-- What has gone does not come back. -/
theorem Catalogued.gone (h : Catalogued hash d) (hpassage : Passage hash d d')
    (hlt : d'.insertions < 2 ^ 32) (hold : r.generation.toNat ≤ d.insertions)
    (hgone : ¬d.isCurrent r) : ¬d'.isCurrent r := by
  intro hr
  obtain ⟨hs, hgen⟩ := isCurrent_iff.1 hr
  rcases hpassage.changes.later h.numbered hlt hs with ⟨hs, href⟩ | hnew
  · rw [ref_eq_of_isCurrent hr] at href
    exact hgone (isCurrent_iff.2 ⟨hs, congrArg CatalogRef.generation href.symm⟩)
  · rw [hgen] at hnew
    omega

/-- A reference that was given out to an entry of an insertion. -/
structure Issued (d : NodeCatalog) (r : CatalogRef) (born : ℕ) : Prop where
  generation : r.generation.toNat = born
  le : born ≤ d.insertions
  birth : ∀ s, d.InUse s → (d.birth s = born ↔ d.ref s = r)

theorem Catalogued.issued (h : Catalogued hash d) (hlt : d.insertions < 2 ^ 32)
    (hs : d.InUse s) : Issued d (d.ref s) (d.birth s) where
  generation := h.dated hlt s hs
  le := h.dated hlt s hs ▸ (h.numbered hlt).1 s hs
  birth s' hs' := by
    rw [← h.dated hlt s hs, ← h.dated hlt s' hs', UInt32.toNat_inj]
    refine ⟨fun hgen => ?_, fun href => congrArg CatalogRef.generation href⟩
    rw [h.distinct hlt s' s hs' hs hgen]

/-- It stays that entry's, until generations wrap around. -/
theorem Issued.passage {born : ℕ} (h : Issued d r born) (hcatalog : Catalogued hash d)
    (hpassage : Passage hash d d') (hinv : Invariant hash d') (hlt : d'.insertions < 2 ^ 32) :
    Issued d' r born where
  generation := h.generation
  le := h.le.trans hpassage.changes.insertions_le
  birth s hs := by
    have hlt₀ := hpassage.changes.insertions_le.trans_lt hlt
    rw [← (hcatalog.passage hpassage hinv).dated hlt s hs]
    rcases hpassage.changes.later hcatalog.numbered hlt hs with ⟨hs₀, href⟩ | hnew
    · rw [href, ← h.birth s hs₀, ← hcatalog.dated hlt₀ s hs₀,
        show (d'.entryAt s).generation = _ from congrArg CatalogRef.generation href]
      rfl
    · have hle := h.le
      refine iff_of_false (by omega) fun href => ?_
      have hgen : (d'.entryAt s).generation = r.generation := congrArg CatalogRef.generation href
      rw [hgen, h.generation] at hnew
      omega

/-- An entry that has gone is not asked any more. -/
theorem Stages.not_asked (hstages : Stages hash present c c') (h : Catalogued hash c.catalog)
    (hlt : c'.catalog.insertions < 2 ^ 32) (hold : r.generation.toNat ≤ c.catalog.insertions)
    (hgone : ¬c.catalog.isCurrent r) :
    ∃ asked, c'.asked = c.asked ++ asked ∧ r ∉ asked := by
  induction hstages with
  | refl => exact ⟨[], (append_nil _).symm, not_mem_nil⟩
  | tail hpre hstage ih =>
    rename_i b c'
    have hpassage := (Stages.passage hpre h.invariant).1
    have hle := hstage.insertions_le (h.stages hpre).invariant
    obtain ⟨asked, hasked, hnot⟩ := ih (hle.trans_lt hlt)
    obtain ⟨asked', hasked', hcurrent⟩ := hstage.asked
    refine ⟨asked ++ asked', by rw [hasked', hasked, append_assoc], fun hr => ?_⟩
    rcases mem_append.1 hr with hr | hr
    · exact hnot hr
    · exact h.gone hpassage (hle.trans_lt hlt) hold hgone (hcurrent r hr)

/-! ## Runs -/

theorem Reachable.stages (hc : Reachable hash config present c) :
    ∃ c₀ : Crawler, Catalogued hash c₀.catalog ∧ Counted c₀ ∧ Queued present c₀ ∧
      Stages hash present c₀ c := by
  obtain ⟨catalog, hcatalog, hslots, hsteps⟩ := hc
  have h := catalogued_of_slots hcatalog hslots
  have hnone : ∀ s, ¬catalog.InUse s := fun s hs => by
    rw [← mem_slots, hslots] at hs
    exact not_mem_nil hs
  exact ⟨_, h, ⟨rfl, rfl⟩, ⟨fun r hr => absurd hr not_mem_nil, fun s hs => absurd hs (hnone s),
    fun s hs => absurd hs (hnone s)⟩, stages_steps h.invariant hsteps⟩

/-- Something happens to the scan, whatever nodes of ours there are at the time. -/
def AnyStep (hash : CatalogKey → ℕ) (c c' : Crawler) : Prop := ∃ present, c.Step hash present c'

/-- Any number of steps. -/
abbrev AnySteps (hash : CatalogKey → ℕ) : Crawler → Crawler → Prop :=
  Relation.ReflTransGen (AnyStep hash)

/-- A scan that starts with a catalogue that has no entries, with nodes of ours that come and
    go. -/
def Reached (hash : CatalogKey → ℕ) (config : CrawlConfig) (c : Crawler) : Prop :=
  ∃ catalog, NodeCatalog.Reachable hash catalog ∧ catalog.slots = [] ∧
    AnySteps hash { config, catalog } c

theorem AnySteps.passage (hsteps : AnySteps hash c c') (h : Invariant hash c.catalog) :
    Passage hash c.catalog c'.catalog ∧ Invariant hash c'.catalog := by
  induction hsteps with
  | refl => exact ⟨.refl, h⟩
  | tail _ hstep ih =>
    obtain ⟨present, hstep⟩ := hstep
    obtain ⟨hpassage, hinv⟩ := (stages_step ih.2 hstep).passage ih.2
    exact ⟨ih.1.trans hpassage, hinv⟩

/-- What holds at first and is kept by every stage, until generations wrap around. -/
theorem AnySteps.rec_bounded {P : Crawler → Prop} (hsteps : AnySteps hash c c')
    (h : Catalogued hash c.catalog) (hlt : c'.catalog.insertions < 2 ^ 32) (hP : P c)
    (hstep : ∀ present c c', Catalogued hash c.catalog → Stage hash present c c' →
      c'.catalog.insertions < 2 ^ 32 → P c → P c') : P c' := by
  induction hsteps with
  | refl => exact hP
  | tail hpre hlast ih =>
    obtain ⟨present, hlast⟩ := hlast
    obtain ⟨hpassage, hinv⟩ := AnySteps.passage hpre h.invariant
    have hstages := stages_step hinv hlast
    exact hstages.rec_bounded (h.passage hpassage hinv) hlt
      (ih ((hstages.insertions_le hinv).trans_lt hlt)) (hstep present)

theorem Reached.start (hc : Reached hash config c) :
    ∃ catalog, Catalogued hash catalog ∧ (∀ s, ¬catalog.InUse s) ∧
      AnySteps hash { config, catalog } c := by
  obtain ⟨catalog, hcatalog, hslots, hsteps⟩ := hc
  refine ⟨catalog, catalogued_of_slots hcatalog hslots, fun s hs => ?_, hsteps⟩
  rw [← mem_slots, hslots] at hs
  exact not_mem_nil hs

/-- In every state the scan reaches, what is asked is counted. Until 2^32 nodes have been
    entered, every entry that can be asked waits in one queue, once, or is being asked, and
    an entry that has gone is never asked again. -/
theorem queued_once (hash : CatalogKey → ℕ) (config : CrawlConfig) (present : Family → Bool)
    (c : Crawler) (hc : Reachable hash config present c) :
    c.outstanding = c.scans.length + c.checks.length ∧
    c.queries = c.answers + c.errors + c.timeouts + c.notSent + c.scans.length ∧
    (c.catalog.insertions < 2 ^ 32 →
      (∀ s, c.catalog.InUse s → (c.catalog.entryAt s).state ≠ .Unroutable →
        c.scheduled.count (c.catalog.ref s) = 1) ∧
      ∀ c₀ c₁ r, Reachable hash config present c₀ →
        Relation.ReflTransGen (Step hash present) c₀ c₁ →
        Relation.ReflTransGen (Step hash present) c₁ c →
        c₀.catalog.isCurrent r → ¬c₁.catalog.isCurrent r →
        ∃ asked, c.asked = c₁.asked ++ asked ∧ r ∉ asked) := by
  obtain ⟨start, h, hcounted, hqueued, hstages⟩ := hc.stages
  have hcounted := hcounted.stages hstages
  refine ⟨hcounted.outstanding, hcounted.queries, fun hlt => ⟨fun s hs hroutable => ?_, ?_⟩⟩
  · have hqueued := hstages.rec_bounded h hlt hqueued fun _ _ h hstage hlt hqueued =>
      hqueued.stage h hstage hlt
    rw [hqueued.count s hs, if_neg hroutable]
  · intro c₀ c₁ r hc₀ hsteps hsteps' hcurrent hgone
    obtain ⟨_, hstart, -, -, hstages₀⟩ := hc₀.stages
    have h₀ := hstart.stages hstages₀
    have hstages₁ := stages_steps h₀.invariant hsteps
    have h₁ := h₀.stages hstages₁
    have hstages' := stages_steps h₁.invariant hsteps'
    have hle := hstages₁.insertions_le h₀.invariant
    have hle' := hstages'.insertions_le h₁.invariant
    have hold : r.generation.toNat ≤ c₀.catalog.insertions := by
      rw [← (isCurrent_iff.1 hcurrent).2]
      exact (h₀.numbered (by omega)).1 _ (isCurrent_iff.1 hcurrent).1
    exact hstages'.not_asked h₁ hlt (hold.trans hle) hgone

/-- Our routing tables hold one node, over IPv4. -/
def knowsOf (endpoint : Endpoint) : Outside where
  now := 0
  nodeId family := if family = .IPv4 then some ⟨List.replicate 20 1, NodeId.length_ones⟩ else none
  start := [⟨default, endpoint⟩]

/-- A scan that has just started from a node. -/
theorem queued_once_first :
    let hash : CatalogKey → ℕ := fun key => key.port.toNat
    let endpoint : Endpoint := ⟨.ipv4 (HostAddress.dotted 8 8 8 8), 6881⟩
    let c₀ : Crawler := { config := {}, catalog := .new 10 0 }
    ∃ c, c₀.setMonitoring hash (knowsOf endpoint) true = some c ∧ c.catalog.InUse 0 ∧
      c.scheduled.count (c.catalog.ref 0) = 1 := by
  intro hash endpoint c₀
  have hrun : (c₀.setMonitoring hash (knowsOf endpoint) true).map
      (fun c => (c.catalog.entries.map fun e => (e.inUse, e.state), c.catalog.history)) =
      some ([(true, .New)], [.inserted endpoint.catalogKey]) := by
    decide +kernel
  obtain ⟨c, happly, hc⟩ := Option.map_eq_some_iff.1 hrun
  rw [Prod.mk.injEq] at hc
  obtain ⟨e, hentries, he⟩ := List.map_eq_singleton_iff.1 hc.1
  have hentry : c.catalog.entryAt 0 = e := by rw [entryAt, hentries]; rfl
  have hs : c.catalog.InUse 0 := by
    rw [inUse_iff, hentry]
    exact congrArg Prod.fst he
  have hstate : (c.catalog.entryAt 0).state = .New := by
    rw [hentry]
    exact congrArg Prod.snd he
  have hins : c.catalog.insertions < 2 ^ 32 := by
    rw [insertions, hc.2]
    decide
  have hreach : Reachable hash {} (fun family => family = .IPv4) c := by
    refine ⟨.new 10 0, ⟨10, 0, .refl⟩, rfl, .single ⟨.setMonitoring (knowsOf endpoint) true, ⟨?_,
      trivial⟩, happly⟩⟩
    rintro env ⟨⟩ family
    cases family <;> rfl
  obtain ⟨-, -, hqueued⟩ := queued_once hash {} (fun family => family = .IPv4) c hreach
  exact ⟨c, happly, hs, (hqueued hins).1 0 hs (by rw [hstate]; decide)⟩

/-! ## Once generations wrap around -/

/-- What a new node does to a scan, that can be reached. -/
theorem learn_new {env : Outside} {listed : Krpc.CompactNode} (h : Invariant hash c.catalog)
    (hfamily : env.nodeId listed.endpoint.family ≠ none) (hid : isOwnId env listed.id = false)
    (hnone : ∀ s, c.catalog.InUse s → c.catalog.keyAt s ≠ listed.endpoint.catalogKey)
    (hcap : 0 < c.catalog.cap)
    (hproblem : addressProblem listed.endpoint c.config.allowLocalAddresses = .None)
    (draw : ℕ → ℕ) :
    ∃ d d' s, c.catalog.upsert hash draw listed.endpoint env.now = some (d, s, true) ∧
      d'.cap = d.cap ∧ d'.entries.length = d.entries.length ∧
      Rewritten hash (fun e e' => e'.state = e.state ∧ e'.flags = e.flags) d d' ∧
      c.learn hash env draw listed =
        some { c with catalog := d', fresh := c.fresh ++ [d'.ref s] } := by
  obtain ⟨d, s, hupsert, hd, -, -, hs, -⟩ := h.upsert_new hnone hcap draw env.now
  have hskip : ¬(env.nodeId listed.endpoint.family = none ∨ isOwnId env listed.id) := by
    simp [hfamily, hid]
  let d₁ := d.setEntry s (noteSeen (d.stamp env.now) (d.entryAt s))
  obtain ⟨h₁, hwrite₁⟩ := hd.edit (e := noteSeen (d.stamp env.now) (d.entryAt s)) hs rfl hs.2 rfl
  have hrewritten₁ := hwrite₁.rewritten (P := fun e e' => e'.state = e.state ∧ e'.flags = e.flags)
    h₁ rfl (fun _ => ⟨rfl, rfl⟩) ⟨rfl, rfl⟩
  have hs₁ := (hwrite₁.inUse s).2 hs
  obtain ⟨h₂, hwrite₂⟩ := h₁.edit (e := { d₁.entryAt s with id := listed.id }) hs₁ rfl hs₁.2 rfl
  have hrewritten₂ := hwrite₂.rewritten (P := fun e e' => e'.state = e.state ∧ e'.flags = e.flags)
    h₂ rfl (fun _ => ⟨rfl, rfl⟩) ⟨rfl, rfl⟩
  refine ⟨d, d₁.setEntry s { d₁.entryAt s with id := listed.id }, s, hupsert, rfl,
    by simp [d₁, setEntry], hrewritten₁.trans hrewritten₂ fun _ _ _ h h' =>
      ⟨h'.1.trans h.1, h'.2.trans h.2⟩, ?_⟩
  rw [learn, if_neg hskip, hupsert, Option.map_some]
  dsimp only
  rw [if_neg (hd.inUse_ne_noSlot hs), if_pos rfl, welcome]
  exact congrArg some (if_neg fun hne => hne hproblem)

/-- A scan that is paused, with one entry at most. -/
structure Alone (hash : CatalogKey → ℕ) (c : Crawler) : Prop where
  invariant : Invariant hash c.catalog
  cap : c.catalog.cap = 1
  only : ∀ s s', c.catalog.InUse s → c.catalog.InUse s' → s = s'
  allowLocal : c.config.allowLocalAddresses = false
  monitoring : c.monitoring = false
  slots : ∀ r ∈ c.fresh, (r.slot : ℤ) < MaxCap

/-- In a catalogue that is to hold one entry, a new one is alone. -/
theorem only_of_upsert (h : Invariant hash d) (hcap : d.cap = 1)
    (honly : ∀ s s', d.InUse s → d.InUse s' → s = s') {endpoint : Endpoint}
    (hnone : ∀ s, d.InUse s → d.keyAt s ≠ endpoint.catalogKey) {draw : ℕ → ℕ} {now : ℤ}
    (hupsert : d.upsert hash draw endpoint now = some (d', s, true)) :
    Invariant hash d' ∧ d'.cap = 1 ∧ d'.InUse s ∧ (d'.entryAt s).state = .New ∧
      ∀ s', d'.InUse s' → s' = s := by
  obtain ⟨d₁, s₁, hupsert₁, h', -, hcap', hs, hkey, hstate, hadd, hreplace⟩ :=
    h.upsert_new hnone (by omega) draw now
  obtain ⟨rfl, rfl⟩ : d₁ = d' ∧ s₁ = s := by
    rw [hupsert₁, Option.some.injEq, Prod.mk.injEq, Prod.mk.injEq] at hupsert
    exact ⟨hupsert.1, hupsert.2.1⟩
  refine ⟨h', hcap'.trans hcap, hs, hstate, fun s' hs' => h'.eq_of_keyAt hs' hs ?_⟩
  have hbook : d₁.book (d₁.keyAt s') ≠ none := book_ne_none_iff.2 ⟨s', hs', rfl⟩
  by_contra hne
  have hne : d₁.keyAt s' ≠ endpoint.catalogKey := fun heq => hne (heq.trans hkey.symm)
  -- Nothing was there before, or it was the victim.
  rcases lt_or_ge d.size d.cap with hlt | hge
  · rw [hadd hlt, Function.update_of_ne hne, book_ne_none_iff] at hbook
    obtain ⟨s'', hs'', -⟩ := hbook
    have hpos := List.length_pos_of_mem (mem_slots.2 hs'')
    have hsize := h.size
    omega
  · obtain ⟨victim, hvictim, hbook'⟩ := hreplace hge
    rw [hbook', Function.update_of_ne hne] at hbook
    obtain ⟨s₀, hs₀, hkey₀⟩ := book_ne_none_iff.1 hvictim
    by_cases hvic : d₁.keyAt s' = victim
    · rw [hvic, Function.update_self] at hbook
      exact hbook rfl
    · rw [Function.update_of_ne hvic, book_ne_none_iff] at hbook
      obtain ⟨s'', hs'', hkey''⟩ := hbook
      exact hvic (by rw [← hkey'', ← hkey₀, honly s'' s₀ hs'' hs₀])

/-- Of two endpoints, one is new. -/
theorem Alone.exists_new (h : Alone hash c) : ∃ endpoint : Endpoint,
    endpoint.family = .IPv4 ∧ addressProblem endpoint false = .None ∧
      ∀ s, c.catalog.InUse s → c.catalog.keyAt s ≠ endpoint.catalogKey := by
  by_cases hex : ∃ s, c.catalog.InUse s ∧
      c.catalog.keyAt s = (⟨.ipv4 (HostAddress.dotted 8 8 8 8), 6881⟩ : Endpoint).catalogKey
  · obtain ⟨s₀, hs₀, hkey₀⟩ := hex
    refine ⟨⟨.ipv4 (HostAddress.dotted 8 8 4 4), 6881⟩, by decide, by decide, fun s hs hkey => ?_⟩
    rw [h.only s s₀ hs hs₀, hkey₀] at hkey
    exact absurd hkey (by decide)
  · push Not at hex
    exact ⟨⟨.ipv4 (HostAddress.dotted 8 8 8 8), 6881⟩, by decide, by decide, hex⟩

/-- What starting such a scan from a new node does, and pausing it again. -/
structure Again (hash : CatalogKey → ℕ) (c c' : Crawler) (s : ℕ) : Prop where
  alone : Alone hash c'
  fresh : c'.fresh = c.fresh ++ [c'.catalog.ref s]
  ledger : c'.ledger = c.ledger
  inUse : c'.catalog.InUse s
  state : (c'.catalog.entryAt s).state = .New
  upsert : ∃ d draw endpoint now, (∀ s, c.catalog.InUse s →
      c.catalog.keyAt s ≠ (endpoint : Endpoint).catalogKey) ∧
    c.catalog.upsert hash draw endpoint now = some (d, s, true) ∧
    c'.catalog.entries.length = d.entries.length ∧
    Rewritten hash (fun e e' => e'.state = e.state ∧ e'.flags = e.flags) d c'.catalog

theorem Alone.again (h : Alone hash c) : ∃ c' s,
    Relation.ReflTransGen (Step hash fun family => family = .IPv4) c c' ∧ Again hash c c' s := by
  obtain ⟨endpoint, hfamily, hproblem, hnone⟩ := h.exists_new
  -- Monitoring is turned on with a new node to start from, and off again.
  let c₁ : Crawler :=
    { c with monitoring := true, batch := 16, lastSendFailures := 0, lastSeedMs := 0 }
  have hnode : (knowsOf endpoint).nodeId endpoint.family ≠ none := by
    rw [hfamily]
    exact Option.some_ne_none _
  let listed : Krpc.CompactNode := ⟨default, endpoint⟩
  have hid : isOwnId (knowsOf endpoint) listed.id = false := rfl
  obtain ⟨d, d', s, hupsert, hcap, hlength, hrewritten, hlearn⟩ := learn_new (c := c₁)
    h.invariant hnode hid hnone
    (by rw [show c₁.catalog = c.catalog from rfl, h.cap]; decide)
    (by rw [show c₁.config = c.config from rfl, h.allowLocal]; exact hproblem)
    ((knowsOf endpoint).draw 1 0)
  obtain ⟨-, hcap', hs, hstate, honly⟩ := only_of_upsert h.invariant h.cap h.only hnone hupsert
  have hs' := (hrewritten.inUse s).2 hs
  let c₂ : Crawler := { c₁ with catalog := d', fresh := c.fresh ++ [d'.ref s] }
  have hon : c.setMonitoring hash (knowsOf endpoint) true = some c₂ := by
    rw [setMonitoring, h.monitoring, if_neg (by decide)]
    refine (if_pos rfl).trans ?_
    rw [seed, show (knowsOf endpoint).start = [⟨default, endpoint⟩] from rfl, learnAll]
    exact congrArg (Option.bind · _) hlearn
  have hlegal : ∀ on (c : Crawler),
      c.Legal (fun family => family = .IPv4) (.setMonitoring (knowsOf endpoint) on) := by
    refine fun on c => ⟨?_, trivial⟩
    rintro env ⟨⟩ family
    cases family <;> rfl
  refine ⟨{ c₂ with monitoring := false }, s, ?_, ?_, rfl, rfl, hs',
    (hrewritten.entry s hs).1.trans hstate, d, _, endpoint, _, hnone, hupsert, hlength, hrewritten⟩
  · exact .tail (.single ⟨_, hlegal true c, hon⟩) ⟨_, hlegal false c₂, rfl⟩
  · refine ⟨hrewritten.invariant, hcap.trans hcap', fun s₁ s₂ hs₁ hs₂ => ?_, h.allowLocal, rfl,
      fun r hr => ?_⟩
    · rw [honly s₁ ((hrewritten.inUse s₁).1 hs₁), honly s₂ ((hrewritten.inUse s₂).1 hs₂)]
    · rcases mem_append.1 hr with hr | hr
      · exact h.slots r hr
      · rw [mem_singleton.1 hr]
        exact (Int.ofNat_lt.2 hs'.1).trans_le hrewritten.invariant.length

/-- There are only so many references. -/
theorem length_le_of_nodup {refs : List CatalogRef} {m n : ℕ} (hnodup : refs.Nodup)
    (hlt : ∀ r ∈ refs, r.slot < m ∧ r.generation.toNat < n) : refs.length ≤ m * n := by
  have hinj : Function.Injective fun r : CatalogRef => (r.slot, r.generation.toNat) := by
    rintro ⟨s, g⟩ ⟨s', g'⟩ heq
    obtain ⟨hslot, hgen⟩ := Prod.mk.inj heq
    exact congrArg₂ CatalogRef.mk hslot (UInt32.toNat_inj.1 hgen)
  have hsub : (refs.map fun r => (r.slot, r.generation.toNat)).toFinset ⊆
      Finset.range m ×ˢ Finset.range n := by
    intro p hp
    obtain ⟨r, hr, rfl⟩ := mem_map.1 (List.mem_toFinset.1 hp)
    rw [Finset.mem_product, Finset.mem_range, Finset.mem_range]
    exact hlt r hr
  have hcard := Finset.card_le_card hsub
  rwa [List.toFinset_card_of_nodup (hnodup.map hinj), List.length_map, Finset.card_product,
    Finset.card_range, Finset.card_range] at hcard

/-- As there are no more references than slots and generations, the same one is given out
    again sooner or later, and waits twice. -/
theorem exists_queued_twice :
    ¬∀ (hash : CatalogKey → ℕ) (config : CrawlConfig) (present : Family → Bool) (c : Crawler),
      Reachable hash config present c → ∀ s, c.catalog.InUse s →
        (c.catalog.entryAt s).state ≠ .Unroutable → c.scheduled.count (c.catalog.ref s) = 1 := by
  intro hclaim
  let hash : CatalogKey → ℕ := fun key => key.port.toNat
  let start : Crawler := { config := {}, catalog := .new 1 0 }
  -- By the claim each new node would have a reference of its own.
  have hruns : ∀ n : ℕ, ∃ c, Relation.ReflTransGen (Step hash fun family => family = .IPv4)
      start c ∧
      Alone hash c ∧ c.fresh.length = n ∧ c.fresh.Nodup := by
    intro n
    induction n with
    | zero =>
      refine ⟨start, .refl, ⟨invariant_new 1 0, rfl, fun s _ hs => ?_, rfl, rfl, by simp [start]⟩,
        rfl, nodup_nil⟩
      exact absurd hs.1 (Nat.not_lt_zero s)
    | succ n ih =>
      obtain ⟨c, hsteps, halone, hlength, hnodup⟩ := ih
      obtain ⟨c', s, hsteps', hagain⟩ := halone.again
      have hreach : Reachable hash {} (fun family => family = .IPv4) c' :=
        ⟨.new 1 0, ⟨1, 0, .refl⟩, rfl, hsteps.trans hsteps'⟩
      have hcount := hclaim hash {} _ c' hreach s hagain.inUse (by rw [hagain.state]; decide)
      rw [count_scheduled, hagain.fresh, count_append, count_singleton_self] at hcount
      refine ⟨c', hsteps.trans hsteps', hagain.alone,
        by rw [hagain.fresh, length_append, hlength]; rfl, ?_⟩
      rw [hagain.fresh]
      refine hnodup.append (nodup_singleton _) (disjoint_singleton.2 ?_)
      exact count_eq_zero.1 (by omega)
  obtain ⟨c, -, halone, hlength, hnodup⟩ := hruns (MaxCap.toNat * 2 ^ 32 + 1)
  have hslots : ∀ r ∈ c.fresh, r.slot < MaxCap.toNat := fun r hr => by
    have hslot := halone.slots r hr
    omega
  have hle := length_le_of_nodup hnodup fun r hr => ⟨hslots r hr, r.generation.toNat_lt⟩
  omega

end Dht.Crawler
