import DhtCore.Crawler.Listing

/-!
# What a tick asks

A tick takes references out of the queues, and asks the entries they are to or sets them
aside (`Moved`): references that are current are neither lost nor doubled, those that are
not may be dropped, and nothing else is asked.
-/

namespace Dht.Crawler

open List NodeCatalog

variable {hash : CatalogKey → ℕ} {present : Family → Bool} {env : Outside}
  {c c' c'' : Crawler} {slot : ℕ} {held held' : List CatalogRef} {r : CatalogRef}

/-- All the references that wait to be asked, or are. -/
def scheduled (c : Crawler) : List CatalogRef :=
  c.fresh ++ c.retry ++ c.revisit ++ c.revisitSilent ++ c.deferred.map (·.ref) ++
    c.scans.map (·.ref)

theorem count_scheduled (c : Crawler) (r : CatalogRef) : c.scheduled.count r =
    c.fresh.count r + c.retry.count r + c.revisit.count r + c.revisitSilent.count r +
      (c.deferred.map (·.ref)).count r + (c.scans.map (·.ref)).count r := by
  simp only [scheduled, count_append]

/-- What asking for nodes does not touch. -/
structure Aside where
  config : CrawlConfig
  features : List CatalogRef
  answers : ℤ
  errors : ℤ
  timeouts : ℤ
  notSent : ℤ
  checks : List Check
  outcomes : List Outcome
  checked : List CheckOutcome

/-- What dispatching leaves alone. -/
def aside (c : Crawler) : Aside where
  config := c.config
  features := c.features
  answers := c.answers
  errors := c.errors
  timeouts := c.timeouts
  notSent := c.notSent
  checks := c.checks
  outcomes := c.outcomes
  checked := c.checked

/-- Whether an entry can be asked. -/
def Askable (present : Family → Bool) (e : CatalogEntry) : Prop :=
  e.state ≠ .Unroutable ∧ present e.family

theorem Askable.congr {e e' : CatalogEntry} (h : Askable present e) (hsame : SameStanding e e') :
    Askable present e' := by
  rw [Askable, hsame.state, hsame.family]
  exact h

/-- Nothing was queued to be asked again. -/
structure Waiting (c c' : Crawler) : Prop where
  retry : c'.retry <+ c.retry
  revisit : c'.revisit <+ c.revisit
  revisitSilent : c'.revisitSilent <+ c.revisitSilent

theorem Waiting.refl (c : Crawler) : Waiting c c := ⟨.refl _, .refl _, .refl _⟩

theorem Waiting.trans {c c' c'' : Crawler} (h : Waiting c c') (h' : Waiting c' c'') :
    Waiting c c'' :=
  ⟨h'.retry.trans h.retry, h'.revisit.trans h.revisit, h'.revisitSilent.trans h.revisitSilent⟩

/-- References were moved from queue to queue or asked, but for those that are `held`. -/
structure Moved (hash : CatalogKey → ℕ) (present : Family → Bool) (held : List CatalogRef)
    (c c' : Crawler) : Prop where
  catalog : Rewritten hash SameStanding c.catalog c'.catalog
  aside : c'.aside = c.aside
  count : ∀ r, c.catalog.isCurrent r → Askable present (c.catalog.entryAt r.slot) →
    c'.scheduled.count r + held.count r = c.scheduled.count r
  count_le : ∀ r, c'.scheduled.count r + held.count r ≤ c.scheduled.count r
  waiting : Waiting c c'
  sent : ∃ sent : List Query, c'.scans = c.scans ++ sent ∧
    c'.asked = c.asked ++ sent.map (·.ref) ∧
    (∀ q ∈ sent, c.catalog.isCurrent q.ref ∧ q.born = c.catalog.birth q.ref.slot) ∧
    c'.outstanding = c.outstanding + sent.length ∧ c'.queries = c.queries + sent.length ∧
    ∀ s, c.catalog.ref s ∉ sent.map (·.ref) →
      (c'.catalog.entryAt s).lastQueried = (c.catalog.entryAt s).lastQueried

theorem Moved.refl (h : Invariant hash c.catalog) : Moved hash present [] c c where
  catalog := .refl h .refl
  aside := rfl
  count _ _ _ := rfl
  count_le _ := le_rfl
  waiting := .refl c
  sent := ⟨[], (append_nil _).symm, (append_nil _).symm, by simp, by simp, by simp, fun _ _ => rfl⟩

theorem Moved.trans (h : Moved hash present [] c c') (h' : Moved hash present held c' c'') :
    Moved hash present held c c'' where
  catalog := h.catalog.trans h'.catalog fun _ _ _ => .trans
  aside := h'.aside.trans h.aside
  count r hr hask := by
    have hsame := h.catalog.entry r.slot (isCurrent_iff.1 hr).1
    rw [h'.count r (h.catalog.isCurrent r ▸ hr) (hask.congr hsame), ← h.count r hr hask, count_nil,
      add_zero]
  count_le r := (h'.count_le r).trans (h.count_le r)
  waiting := h.waiting.trans h'.waiting
  sent := by
    obtain ⟨sent, hscans, hasked, hcurrent, hout, hqueries, hqueried⟩ := h.sent
    obtain ⟨sent', hscans', hasked', hcurrent', hout', hqueries', hqueried'⟩ := h'.sent
    refine ⟨sent ++ sent', by rw [hscans', hscans, append_assoc],
      by rw [hasked', hasked, append_assoc, map_append], fun q hq => ?_, ?_, ?_, fun s hs => ?_⟩
    · rcases mem_append.1 hq with hq | hq
      · exact hcurrent q hq
      · rw [← h.catalog.isCurrent, ← h.catalog.birth]
        exact hcurrent' q hq
    · rw [hout', hout, length_append]
      push_cast
      ring
    · rw [hqueries', hqueries, length_append]
      push_cast
      ring
    · rw [map_append, mem_append, not_or] at hs
      rw [hqueried' s (h.catalog.ref s ▸ hs.2), hqueried s hs.1]

/-- Moving references from queue to queue only. -/
theorem Moved.of_queues (h : Invariant hash c.catalog) (hcatalog : c'.catalog = c.catalog)
    (haside : c'.aside = c.aside) (hscans : c'.scans = c.scans) (hasked : c'.asked = c.asked)
    (hout : c'.outstanding = c.outstanding) (hqueries : c'.queries = c.queries)
    (hwaiting : Waiting c c') (hcount : ∀ r, c.catalog.isCurrent r →
      Askable present (c.catalog.entryAt r.slot) →
      c'.scheduled.count r + held.count r = c.scheduled.count r)
    (hle : ∀ r, c'.scheduled.count r + held.count r ≤ c.scheduled.count r) :
    Moved hash present held c c' where
  catalog := by rw [hcatalog]; exact .refl h .refl
  aside := haside
  count := hcount
  count_le := hle
  waiting := hwaiting
  sent := ⟨[], by simpa using hscans, by simpa using hasked, by simp, by simpa using hout,
    by simpa using hqueries, fun _ _ => by rw [hcatalog]⟩

/-- What is held is put into a queue. -/
theorem Moved.put (h : Moved hash present held c c') (hcatalog : c''.catalog = c'.catalog)
    (haside : c''.aside = c'.aside) (hscans : c''.scans = c'.scans)
    (hasked : c''.asked = c'.asked) (hout : c''.outstanding = c'.outstanding)
    (hqueries : c''.queries = c'.queries) (hwaiting : Waiting c' c'')
    (hcount : ∀ r, c''.scheduled.count r = c'.scheduled.count r + held.count r) :
    Moved hash present [] c c'' where
  catalog := by
    rw [hcatalog]
    exact h.catalog
  aside := haside.trans h.aside
  count r hr hask := by
    rw [hcount, count_nil, add_zero]
    exact h.count r hr hask
  count_le r := by
    rw [hcount, count_nil, add_zero]
    exact h.count_le r
  waiting := h.waiting.trans hwaiting
  sent := by
    rw [hscans, hasked, hout, hqueries, hcatalog]
    exact h.sent

/-- What is held is asked. -/
theorem Moved.ask (h : Moved hash present [c'.catalog.ref slot] c c') (hs : c'.catalog.InUse slot)
    (firstContact : Bool) : Moved hash present [] c (c'.ask env slot firstContact) := by
  obtain ⟨h₁, hwrite⟩ := h.catalog.invariant.edit
    (e := { c'.catalog.entryAt slot with lastQueried := c'.catalog.stamp env.now }) hs rfl hs.2 rfl
  -- Only the time of asking is written to the entry.
  have hsame : Rewritten hash SameStanding c'.catalog (c'.ask env slot firstContact).catalog :=
    hwrite.rewritten h₁ rfl .refl ⟨rfl, rfl, rfl, rfl, rfl, fun _ _ _ => rfl, rfl, id⟩
  have href : (c'.ask env slot firstContact).catalog.ref slot = c'.catalog.ref slot :=
    hsame.ref slot
  have hcurrent : c.catalog.isCurrent (c'.catalog.ref slot) := by
    rw [← h.catalog.isCurrent, isCurrent_iff]
    exact ⟨hs, rfl⟩
  have hscheduled : (c'.ask env slot firstContact).scheduled =
      c'.scheduled ++ [c'.catalog.ref slot] := by
    rw [← href]
    simp only [scheduled, Crawler.ask, map_append, append_assoc, map_singleton]
    rfl
  refine ⟨h.catalog.trans hsame fun _ _ _ => .trans, h.aside, fun r hr hask => ?_, fun r => ?_,
    ⟨h.waiting.retry, h.waiting.revisit, h.waiting.revisitSilent⟩, ?_⟩
  · rw [hscheduled, count_append, count_nil, add_zero]
    exact h.count r hr hask
  · rw [hscheduled, count_append, count_nil, add_zero]
    exact h.count_le r
  · obtain ⟨sent, hscans, hasked, hcurrent', hout, hqueries, hqueried⟩ := h.sent
    have hbirth : (c'.ask env slot firstContact).catalog.birth slot = c.catalog.birth slot :=
      (hsame.birth slot).trans (h.catalog.birth slot)
    refine ⟨sent ++ _, (congrArg (· ++ _) hscans).trans (append_assoc ..), ?_,
      fun q hq => ?_, ?_, ?_, fun s hs => ?_⟩
    · rw [map_append, ← append_assoc, ← hasked]
      rfl
    · rcases mem_append.1 hq with hq | hq
      · exact hcurrent' q hq
      · rw [mem_singleton] at hq
        subst hq
        exact ⟨href ▸ hcurrent, hbirth⟩
    · change c'.outstanding + 1 = _
      rw [hout, length_append, length_singleton]
      push_cast
      ring
    · change c'.queries + 1 = _
      rw [hqueries, length_append, length_singleton]
      push_cast
      ring
    · rw [map_append, mem_append, not_or] at hs
      rw [← hqueried s hs.1]
      -- An entry that nothing was sent to is another one.
      have hne : s ≠ slot := fun heq => hs.2 (by
        rw [heq, ← h.catalog.ref, ← href]
        exact mem_singleton_self _)
      exact congrArg CatalogEntry.lastQueried (hwrite.entryAt s hne)

/-! ## The next that is due -/

theorem ref_eq_of_isCurrent {d : NodeCatalog} (h : d.isCurrent r) : d.ref r.slot = r := by
  rw [NodeCatalog.ref, (isCurrent_iff.1 h).2]

/-- What is taken out of a queue: an entry that is due, and references that are not current. -/
theorem takeDue_spec (c : Crawler) (env : Outside) (minAgeMs : ℤ) (queue : List CatalogRef) :
    ∃ dropped, (∀ r ∈ dropped, c.catalog.isCurrent r = false) ∧
      queue = dropped ++ ((c.takeDue env minAgeMs queue).2.map c.catalog.ref).toList ++
        (c.takeDue env minAgeMs queue).1 ∧
      ∀ slot ∈ (c.takeDue env minAgeMs queue).2, c.catalog.InUse slot := by
  induction queue with
  | nil => exact ⟨[], by simp, rfl, by simp [takeDue]⟩
  | cons r rest ih =>
    rw [takeDue]
    by_cases hr : c.catalog.isCurrent r
    · rw [if_neg (by simp [hr])]
      refine ⟨[], by simp, ?_⟩
      split_ifs
      · exact ⟨rfl, by simp⟩
      · refine ⟨?_, fun slot hslot => ?_⟩
        · rw [Option.map_some, ref_eq_of_isCurrent hr]
          rfl
        · rw [Option.mem_some_iff] at hslot
          exact hslot ▸ (isCurrent_iff.1 hr).1
    · rw [if_pos (by simp [hr])]
      obtain ⟨dropped, hdropped, hqueue, huse⟩ := ih
      refine ⟨r :: dropped, fun r' hr' => ?_, congrArg (r :: ·) hqueue, huse⟩
      rcases mem_cons.1 hr' with rfl | hr'
      · exact Bool.not_eq_true _ ▸ hr
      · exact hdropped r' hr'

theorem takeDue_sublist (c : Crawler) (env : Outside) (minAgeMs : ℤ) (queue : List CatalogRef) :
    (c.takeDue env minAgeMs queue).1 <+ queue := by
  obtain ⟨dropped, -, hqueue, -⟩ := takeDue_spec c env minAgeMs queue
  conv => rhs; rw [hqueue]
  exact sublist_append_right ..

/-- Taking from a queue moves what is taken only, of the references that are current. -/
theorem moved_takeDue (h : Invariant hash c.catalog) (env : Outside) (minAgeMs : ℤ)
    (queue : List CatalogRef) (hcatalog : c'.catalog = c.catalog) (haside : c'.aside = c.aside)
    (hscans : c'.scans = c.scans) (hasked : c'.asked = c.asked)
    (hout : c'.outstanding = c.outstanding) (hqueries : c'.queries = c.queries)
    (hwaiting : Waiting c c') (hqueue : ∀ r, c'.scheduled.count r + queue.count r =
      c.scheduled.count r + (c.takeDue env minAgeMs queue).1.count r) :
    Moved hash present ((c.takeDue env minAgeMs queue).2.map c.catalog.ref).toList c c' ∧
      ∀ slot ∈ (c.takeDue env minAgeMs queue).2, c.catalog.InUse slot := by
  obtain ⟨dropped, hdropped, htaken, huse⟩ := takeDue_spec c env minAgeMs queue
  have hcount : ∀ r, queue.count r = dropped.count r +
      ((c.takeDue env minAgeMs queue).2.map c.catalog.ref).toList.count r +
      (c.takeDue env minAgeMs queue).1.count r := fun r => by
    rw [← count_append, ← count_append, ← htaken]
  refine ⟨.of_queues h hcatalog haside hscans hasked hout hqueries hwaiting (fun r hr _ => ?_)
    (fun r => ?_), huse⟩
  · have hzero : dropped.count r = 0 := count_eq_zero.2 fun hin => by
      rw [hdropped r hin] at hr
      exact Bool.false_ne_true hr
    have hleft := hcount r
    have hright := hqueue r
    omega
  · have hleft := hcount r
    have hright := hqueue r
    omega

/-- What is next to be asked is held, and the other references move. -/
def Next (hash : CatalogKey → ℕ) (present : Family → Bool) (c : Crawler)
    (next : Crawler × Option (ℕ × Bool)) : Prop :=
  Moved hash present (next.2.map fun p => c.catalog.ref p.1).toList c next.1 ∧
    ∀ p ∈ next.2, c.catalog.InUse p.1

/-- Of a queue with others behind it. -/
theorem next_orElse {taken : Option ℕ} {next : Crawler × Option (ℕ × Bool)} (first : Bool)
    (h : Moved hash present (taken.map c.catalog.ref).toList c c' ∧ ∀ slot ∈ taken,
      c.catalog.InUse slot)
    (hcatalog : c'.catalog = c.catalog) (hnext : Next hash present c' next) :
    Next hash present c (taken.elim next fun slot => (c', some (slot, first))) := by
  cases taken with
  | some slot => exact ⟨h.1, by simpa using h.2⟩
  | none =>
    rw [Next, hcatalog] at hnext
    exact ⟨h.1.trans hnext.1, hnext.2⟩

theorem nextSilent_spec (c : Crawler) (h : Invariant hash c.catalog) (env : Outside) :
    Next hash present c (c.nextSilent env) := by
  have htaken : Moved hash present _ c (c.nextSilent env).1 ∧ _ := moved_takeDue h env
    c.config.silentRevisitIntervalMs c.revisitSilent rfl rfl rfl rfl rfl rfl
    ⟨.refl _, .refl _, takeDue_sublist ..⟩ fun r => by
      simp only [count_scheduled, nextSilent]
      omega
  rw [Next]
  refine ⟨?_, fun p hp => ?_⟩
  · have hmap : ((c.nextSilent env).2.map fun p => c.catalog.ref p.1) =
        (c.takeDue env c.config.silentRevisitIntervalMs c.revisitSilent).2.map c.catalog.ref :=
      Option.map_map ..
    rw [hmap]
    exact htaken.1
  · obtain ⟨slot, hslot, rfl⟩ := Option.map_eq_some_iff.1 hp
    exact htaken.2 slot hslot

theorem nextRevisit_spec (c : Crawler) (h : Invariant hash c.catalog) (env : Outside) :
    Next hash present c (c.nextRevisit env) := by
  let c' := { c with revisit := (c.takeDue env c.config.revisitIntervalMs c.revisit).1 }
  have htaken : Moved hash present _ c c' ∧ _ := moved_takeDue h env c.config.revisitIntervalMs
    c.revisit rfl rfl rfl rfl rfl rfl ⟨.refl _, takeDue_sublist .., .refl _⟩ fun r => by
      simp only [count_scheduled, c']
      omega
  have hnext := next_orElse false htaken rfl (c'.nextSilent_spec h env)
  rw [nextRevisit]
  dsimp only
  cases hslot : (c.takeDue env c.config.revisitIntervalMs c.revisit).2 with
  | some slot =>
    rw [hslot] at hnext
    exact hnext
  | none =>
    rw [hslot] at hnext
    exact hnext

theorem nextRetry_spec (c : Crawler) (h : Invariant hash c.catalog) (env : Outside) :
    Next hash present c (c.nextRetry env) := by
  let c' := { c with retry := (c.takeDue env c.config.retryDelayMs c.retry).1 }
  have htaken : Moved hash present _ c c' ∧ _ := moved_takeDue h env c.config.retryDelayMs c.retry
    rfl rfl rfl rfl rfl rfl ⟨takeDue_sublist .., .refl _, .refl _⟩ fun r => by
      simp only [count_scheduled, c']
      omega
  have hnext := next_orElse false htaken rfl (c'.nextRevisit_spec h env)
  rw [nextRetry]
  dsimp only
  cases hslot : (c.takeDue env c.config.retryDelayMs c.retry).2 with
  | some slot =>
    rw [hslot] at hnext
    exact hnext
  | none =>
    rw [hslot] at hnext
    exact hnext

theorem nextDue_spec (h : Invariant hash c.catalog) (env : Outside) :
    Next hash present c (c.nextDue env) := by
  let c' := { c with fresh := (c.takeDue env 0 c.fresh).1 }
  have htaken : Moved hash present _ c c' ∧ _ := moved_takeDue h env 0 c.fresh rfl rfl rfl
    rfl rfl rfl ⟨.refl _, .refl _, .refl _⟩ fun r => by
      simp only [count_scheduled, c']
      omega
  have hnext := next_orElse true htaken rfl (c'.nextRetry_spec h env)
  rw [nextDue]
  dsimp only
  cases hslot : (c.takeDue env 0 c.fresh).2 with
  | some slot =>
    rw [hslot] at hnext
    exact hnext
  | none =>
    rw [hslot] at hnext
    exact hnext

/-! ## Asking -/

theorem moved_dispatchNext (h : Invariant hash c.catalog)
    (hpresent : ∀ family, (env.nodeId family).isSome = present family) :
    Moved hash present [] c (c.dispatchNext env).1 := by
  obtain ⟨hmoved, huse⟩ : Next hash present c (c.nextDue env) := nextDue_spec h env
  rw [dispatchNext]
  generalize c.nextDue env = result at hmoved huse ⊢
  obtain ⟨c₁, _ | ⟨slot, first⟩⟩ := result
  · exact hmoved
  have hmoved : Moved hash present [c.catalog.ref slot] c c₁ := hmoved
  have huse : c.catalog.InUse slot := huse (slot, first) rfl
  have hsame := hmoved.catalog.entry slot huse
  dsimp only
  split_ifs with hskip hbusy
  · -- It cannot be asked, and is dropped.
    refine ⟨hmoved.catalog, hmoved.aside, fun r hr hask => ?_, fun r => ?_, hmoved.waiting,
      hmoved.sent⟩
    · have hne : c.catalog.ref slot ≠ r := by
        rintro rfl
        rw [hsame.state, hsame.family] at hskip
        rcases hskip with hstate | hnode
        · exact hask.1 hstate
        · have hsome := (hpresent _).trans hask.2
          rw [NodeCatalog.ref, hnode] at hsome
          exact Bool.false_ne_true hsome
      have hcount := hmoved.count r hr hask
      rwa [count_cons_of_ne hne] at hcount
    · rw [count_nil]
      exact (Nat.le_add_right _ _).trans (hmoved.count_le r)
  · -- It is set aside.
    rw [← hmoved.catalog.ref] at hmoved
    refine hmoved.put rfl rfl rfl rfl rfl rfl ⟨.refl _, .refl _, .refl _⟩ fun r => ?_
    simp only [count_scheduled, map_append, count_append, map_cons, map_nil]
    omega
  · rw [← hmoved.catalog.ref] at hmoved
    exact hmoved.ask ((hmoved.catalog.inUse slot).2 huse) first

theorem moved_dispatchUpTo (h : Invariant hash c.catalog)
    (hpresent : ∀ family, (env.nodeId family).isSome = present family)
    (budget : ℕ) : Moved hash present [] c (dispatchUpTo env budget c).1 := by
  induction budget generalizing c with
  | zero => exact .refl h
  | succ budget ih =>
    rw [dispatchUpTo]
    split_ifs
    · exact .refl h
    have hnext := moved_dispatchNext h hpresent
    generalize c.dispatchNext env = result at hnext ⊢
    obtain ⟨c₁, _ | _⟩ := result
    · exact hnext
    · exact hnext.trans (ih hnext.catalog.invariant)

/-- Those set aside are asked, stay aside, or are dropped as they are not current. -/
theorem moved_dispatchDeferred (h : Invariant hash c.catalog) (scan budget : ℕ) :
    Moved hash present [] c (dispatchDeferred env scan budget c).1 := by
  induction scan generalizing c budget with
  | zero => exact .refl h
  | succ scan ih =>
    rw [dispatchDeferred.eq_def]
    dsimp only
    cases hdeferred : c.deferred with
    | nil => exact .refl h
    | cons d rest =>
      cases budget with
      | zero => exact .refl h
      | succ budget =>
        have hcount : ∀ r, c.scheduled.count r =
            ({ c with deferred := rest } : Crawler).scheduled.count r +
            [d.ref].count r := fun r => by
          simp only [count_scheduled, hdeferred, map_cons, count_cons, count_nil]
          omega
        dsimp only
        split_ifs with hcurrent hbusy
        · -- It is dropped.
          have hdrop : Moved hash present [] c { c with deferred := rest } :=
            .of_queues h rfl rfl rfl rfl rfl rfl ⟨.refl _, .refl _, .refl _⟩ (fun r hr _ => by
              have hne : d.ref ≠ r := by
                rintro rfl
                rw [hr] at hcurrent
                exact Bool.false_ne_true hcurrent
              rw [hcount, count_cons_of_ne hne, count_nil])
              fun r => by rw [hcount r, count_nil]; omega
          exact hdrop.trans (ih (c := { c with deferred := rest }) h _)
        · -- It waits on, behind the others.
          have hback : Moved hash present [] c { c with deferred := rest ++ [d] } :=
            .of_queues h rfl rfl rfl rfl rfl rfl ⟨.refl _, .refl _, .refl _⟩ (fun r _ _ => by
              rw [hcount, count_nil]
              simp only [count_scheduled, map_append, count_append, map_cons, map_nil]
              omega) fun r => by
              rw [hcount, count_nil]
              simp only [count_scheduled, map_append, count_append, map_cons, map_nil]
              omega
          exact hback.trans (ih (c := { c with deferred := rest ++ [d] }) h _)
        · have hcurrent : c.catalog.isCurrent d.ref := by simpa using hcurrent
          -- It is held, and then asked.
          let c₁ : Crawler := { c with deferred := rest }
          have hheld : Moved hash present [c₁.catalog.ref d.ref.slot] c c₁ := by
            change Moved hash present [c.catalog.ref d.ref.slot] c c₁
            rw [ref_eq_of_isCurrent hcurrent]
            exact .of_queues h rfl rfl rfl rfl rfl rfl ⟨.refl _, .refl _, .refl _⟩
              (fun r _ _ => (hcount r).symm)
              fun r => (hcount r).ge
          have hasked : Moved hash present [] c (c₁.ask env d.ref.slot d.firstContact) :=
            hheld.ask (isCurrent_iff.1 hcurrent).1 d.firstContact
          exact hasked.trans (ih hasked.catalog.invariant budget)

end Dht.Crawler
