import DhtCore.Crawler.Due

/-!
# The feature checks of the scan

An entry is checked for one feature after the other (`checkOrder`), one check at a time: it
waits for its next check once, or is being checked (`Checked`). A check is concluded by an
answer, or when it times out for the second time (`concludes`), and never made again
(`Examined`). As with the other queues, this rests on generations, until they wrap around
(`exists_check_left`).
-/

namespace Dht.Crawler

open List NodeCatalog

/-! ## What concludes a check -/

/-- The checks, in the order they are made. -/
def checkOrder : List CatalogFlag := [.Tested51, .Tested44, .TestedPeers, .TestedUnknown]

/-- Whether it is a timeout of a check. -/
def CheckOutcome.missed (o : CheckOutcome) (check : CatalogFlag) : Bool :=
  o.check = check && o.status = .Timeout

/-- Whether a check is concluded by the way it ended, after those before. -/
def concludes (before : List CheckOutcome) (o : CheckOutcome) : Bool :=
  match o.status with
  | .Throttled => false
  | .Response | .Error => true
  | .Timeout => before.countP (·.missed o.check) = 1

/-- The checks concluded by some outcomes, after those before. -/
def conclusionsAfter : List CheckOutcome → List CheckOutcome → List CatalogFlag
  | _, [] => []
  | before, o :: rest =>
    (if concludes before o then [o.check] else []) ++ conclusionsAfter (before ++ [o]) rest

/-- The checks concluded by some outcomes. -/
def conclusions (outcomes : List CheckOutcome) : List CatalogFlag := conclusionsAfter [] outcomes

variable {hash : CatalogKey → ℕ} {present : Family → Bool} {config : CrawlConfig}
  {c c' : Crawler} {e e' : CatalogEntry} {o : CheckOutcome} {l before : List CheckOutcome} {k : ℕ}
  {check f : CatalogFlag} {on : Bool} {r : CatalogRef} {reply : RpcReply}

theorem conclusionsAfter_concat (o : CheckOutcome) :
    conclusionsAfter before (l ++ [o]) = conclusionsAfter before l ++
      if concludes (before ++ l) o then [o.check] else [] := by
  induction l generalizing before with
  | nil => simp [conclusionsAfter]
  | cons o' rest ih =>
    rw [cons_append, conclusionsAfter, conclusionsAfter, ih, append_assoc, append_assoc,
      singleton_append]

/-- One more outcome concludes its check, or nothing. -/
theorem conclusions_concat (l : List CheckOutcome) (o : CheckOutcome) :
    conclusions (l ++ [o]) = conclusions l ++ if concludes l o then [o.check] else [] :=
  conclusionsAfter_concat o

/-- What the outcomes of its checks have made of an entry: `k` of them are concluded. -/
structure Examined (k : ℕ) (l : List CheckOutcome) (e : CatalogEntry) : Prop where
  le : k ≤ 4
  conclusions : conclusions l = checkOrder.take k
  has : ∀ f ∈ checkOrder, (e.has f ↔ f ∈ checkOrder.take k)
  made : ∀ o ∈ l, o.check ∈ checkOrder.take (k + 1)
  tries : ∀ f, checkOrder[k]? = some f → e.featureTries = l.countP (·.missed f)
  tries_le : e.featureTries ≤ 1

theorem Examined.featuresDone (h : Examined k l e) : e.featuresDone ↔ k = 4 := by
  have h51 := h.has .Tested51 (by decide)
  have h44 := h.has .Tested44 (by decide)
  have hpeers := h.has .TestedPeers (by decide)
  have hunknown := h.has .TestedUnknown (by decide)
  have hle := h.le
  rw [CatalogEntry.featuresDone, Bool.and_eq_true, Bool.and_eq_true, Bool.and_eq_true, h51, h44,
    hpeers, hunknown]
  interval_cases k <;> decide

/-- The next check is the first that is left. -/
theorem Examined.nextCheck (h : Examined k l e) (hlt : k < 4) :
    checkOrder[k]? = some (nextCheck e).1 := by
  have h51 := h.has .Tested51 (by decide)
  have h44 := h.has .Tested44 (by decide)
  have hpeers := h.has .TestedPeers (by decide)
  rw [Crawler.nextCheck, featureChecks]
  interval_cases k <;>
    simp_all [checkOrder]

theorem not_mem_take (hf : checkOrder[k]? = some f) : f ∉ checkOrder.take k := by
  have hk : k < 4 := (List.getElem?_eq_some_iff.1 hf).1
  interval_cases k <;> obtain rfl := Option.some.inj hf <;> decide

theorem mem_take_succ (hcheck : checkOrder[k]? = some check) :
    f ∈ checkOrder.take (k + 1) ↔ f = check ∨ f ∈ checkOrder.take k := by
  rw [take_add_one, hcheck, Option.toList_some, mem_append, mem_singleton, or_comm]

/-- A check that is concluded is the last one made. -/
theorem Examined.concluded (h : Examined k l e) (hcheck : checkOrder[k]? = some o.check)
    (hconcludes : concludes l o)
    (hhas : ∀ f ∈ checkOrder, e'.has f = (decide (f = o.check) || e.has f))
    (htries : e'.featureTries = 0) : Examined (k + 1) (l ++ [o]) e' where
  le := (List.getElem?_eq_some_iff.1 hcheck).1
  conclusions := by
    rw [conclusions_concat, if_pos hconcludes, h.conclusions, take_add_one, hcheck,
      Option.toList_some]
  has f hf := by
    rw [hhas f hf, Bool.or_eq_true, decide_eq_true_iff, h.has f hf, mem_take_succ hcheck]
  made o' ho' := by
    refine (take_subset_take_left _ (Nat.le_succ _)) ?_
    rcases mem_append.1 ho' with ho' | ho'
    · exact h.made o' ho'
    · rw [mem_singleton.1 ho', mem_take_succ hcheck]
      exact .inl rfl
  tries f hf := by
    -- The next check was not made yet.
    rw [htries, eq_comm, countP_eq_zero]
    intro o' ho' hmissed
    have hsame : o'.check = f := by
      rw [CheckOutcome.missed, Bool.and_eq_true, decide_eq_true_iff] at hmissed
      exact hmissed.1
    refine not_mem_take hf (hsame ▸ ?_)
    rcases mem_append.1 ho' with ho' | ho'
    · exact h.made o' ho'
    · rw [mem_singleton.1 ho', mem_take_succ hcheck]
      exact .inl rfl
  tries_le := htries ▸ Nat.zero_le 1

/-- A check that is not concluded is to be made again. -/
theorem Examined.again (h : Examined k l e) (hcheck : checkOrder[k]? = some o.check)
    (hconcludes : concludes l o = false) (hhas : ∀ f ∈ checkOrder, e'.has f = e.has f)
    (htries : e'.featureTries = e.featureTries + if o.missed o.check then 1 else 0)
    (hle : e'.featureTries ≤ 1) : Examined k (l ++ [o]) e' where
  le := h.le
  conclusions := by
    rw [conclusions_concat, hconcludes, h.conclusions]
    exact append_nil _
  has f hf := by rw [hhas f hf, h.has f hf]
  made o' ho' := by
    rcases mem_append.1 ho' with ho' | ho'
    · exact h.made o' ho'
    · rw [mem_singleton.1 ho', mem_take_succ hcheck]
      exact .inl rfl
  tries f hf := by
    obtain rfl : o.check = f := Option.some.inj (hcheck.symm.trans hf)
    rw [htries, h.tries _ hf, countP_append, countP_singleton]
  tries_le := hle

/-! ## The end of a check -/

theorem has_noteCheck (check : CatalogFlag) (reply : RpcReply) (e : CatalogEntry)
    (hf : isStanding f) : (noteCheck check reply e).has f = (decide (f = check) || e.has f) :=
  noteCheck_rec (P := fun e' => e'.has f = (decide (f = check) || e.has f)) check reply e
    (fun e' g on h hg _ => by
      rw [CatalogEntry.has_set, if_neg, h]
      rintro rfl
      rw [hf] at hg
      cases hg)
    (fun e' n h => by rw [CatalogEntry.has_setSampleCount, h])
    (by
      rw [CatalogEntry.has_setFeatureTries, CatalogEntry.has_set]
      by_cases hcheck : f = check <;> simp [hcheck])

theorem featureTries_noteCheck (check : CatalogFlag) (reply : RpcReply) (e : CatalogEntry) :
    (noteCheck check reply e).featureTries = 0 :=
  noteCheck_rec (P := fun e' => e'.featureTries = 0) check reply e
    (fun e' g on h _ _ => (CatalogEntry.featureTries_set e' g on).trans h)
    (fun e' n h => (CatalogEntry.featureTries_setSampleCount e' n).trans h)
    (CatalogEntry.featureTries_setFeatureTries _ 0)

theorem isStanding_of_mem (hf : f ∈ checkOrder) : isStanding f := by
  revert hf
  cases f <;> decide

theorem has_noteChecked_queued (hcheck : check ∈ checkOrder) (reply : RpcReply)
    (e : CatalogEntry) : (noteChecked check reply e).has .FeatureQueued = e.has .FeatureQueued := by
  have hne : CatalogFlag.FeatureQueued ≠ check := by
    rintro rfl
    revert hcheck
    decide
  rw [noteChecked]
  cases reply.status with
  | Throttled => rfl
  | Timeout =>
    rw [noteCheckTimeout]
    dsimp only
    split_ifs
    · rw [CatalogEntry.has_setFeatureTries, CatalogEntry.has_set, if_neg hne,
        CatalogEntry.has_setFeatureTries]
    · exact CatalogEntry.has_setFeatureTries ..
  | Response | Error =>
    refine (has_noteCheck check reply e rfl).trans ?_
    rw [decide_eq_false hne, Bool.false_or]

/-- What the end of its next check makes of an entry. -/
theorem Examined.noteChecked (h : Examined k l e) (hcheck : checkOrder[k]? = some check)
    (reply : RpcReply) (born : ℕ) :
    ∃ k', Examined k' (l ++ [⟨born, check, reply.status⟩]) (noteChecked check reply e) := by
  have hanswer (hstatus : concludes l ⟨born, check, reply.status⟩) :
      Examined (k + 1) (l ++ [⟨born, check, reply.status⟩]) (noteCheck check reply e) :=
    h.concluded hcheck hstatus (fun f hf => has_noteCheck check reply e (isStanding_of_mem hf))
      (featureTries_noteCheck check reply e)
  rw [Crawler.noteChecked]
  cases hstatus : reply.status with
  | Throttled =>
    exact ⟨k, h.again hcheck rfl (fun _ _ => rfl) (by simp [CheckOutcome.missed]) h.tries_le⟩
  | Response | Error =>
    rw [hstatus] at hanswer
    exact ⟨k + 1, hanswer rfl⟩
  | Timeout =>
    have htries := h.tries check hcheck
    have hle := h.tries_le
    -- The check is made again, unless this was its last try.
    rw [noteCheckTimeout]
    dsimp only
    rw [CatalogEntry.featureTries_setFeatureTries]
    have hclamp : (max 0 (min ((e.featureTries : ℤ) + 1) 3)).toNat = e.featureTries + 1 := by omega
    rw [hclamp]
    split_ifs with htwo
    · refine ⟨k + 1, h.concluded hcheck ?_ (fun f _ => ?_) ?_⟩
      · rw [concludes, decide_eq_true_iff, ← htries]
        rw [FeatureTries] at htwo
        omega
      · rw [CatalogEntry.has_setFeatureTries, CatalogEntry.has_set,
          CatalogEntry.has_setFeatureTries]
        by_cases hf : f = check <;> simp [hf]
      · exact CatalogEntry.featureTries_setFeatureTries _ 0
    · rw [FeatureTries] at htwo
      refine ⟨k, h.again hcheck ?_ (fun f _ => CatalogEntry.has_setFeatureTries ..) ?_ ?_⟩
      · rw [concludes, decide_eq_false_iff_not, ← htries]
        omega
      · rw [CatalogEntry.featureTries_setFeatureTries, hclamp]
        simp [CheckOutcome.missed]
      · rw [CatalogEntry.featureTries_setFeatureTries, hclamp]
        omega

/-! ## What else is written -/

/-- What is written to the flags of an entry that answered. -/
theorem flags_noteAnswer (stamp : UInt32) (reply : RpcReply) (e : CatalogEntry) :
    (noteAnswer stamp reply e).flags =
      let e := if ¬e.state = .Responsive then e.set .Rejoined (e.state = .Gone) else e
      (if reply.status = .Response then noteResponse reply e else e).flags := by
  rw [noteAnswer]
  dsimp only
  cases reply.message.senderId <;> split_ifs <;> rfl

/-- The end of a query for more nodes does not touch the checks. -/
theorem flags_noteOutcome (give : ℤ) (stamp : UInt32) (reply : RpcReply) (e : CatalogEntry) :
    (∀ f, f ≠ .Rejoined → f ≠ .TestedIp → f ≠ .SendsIp →
      (noteOutcome give stamp reply e).has f = e.has f) ∧
      (noteOutcome give stamp reply e).featureTries = e.featureTries := by
  have hanswer : (∀ f, f ≠ .Rejoined → f ≠ .TestedIp → f ≠ .SendsIp →
      ({ noteAnswer stamp reply e with state := .Responsive } : CatalogEntry).has f = e.has f) ∧
        ({ noteAnswer stamp reply e with state := .Responsive } : CatalogEntry).featureTries =
          e.featureTries := by
    simp only [CatalogEntry.has, CatalogEntry.featureTries]
    rw [flags_noteAnswer]
    refine ⟨fun f hrejoined htested hsends => ?_, ?_⟩
    · change CatalogEntry.has (if reply.status = .Response then _ else _) f = e.has f
      split_ifs <;> simp [noteResponse, hrejoined, htested, hsends]
    · change CatalogEntry.featureTries (if reply.status = .Response then _ else _) = e.featureTries
      split_ifs <;> simp [noteResponse]
  rw [noteOutcome]
  cases reply.status with
  | Throttled => exact ⟨fun _ _ _ _ => rfl, rfl⟩
  | Timeout =>
    dsimp only
    split_ifs <;> exact ⟨fun _ _ _ _ => rfl, rfl⟩
  | Response | Error => exact hanswer

/-! ## One check at a time -/

/-- The outcomes of the checks of the entry in a slot. -/
def outcomesAt (c : Crawler) (s : ℕ) : List CheckOutcome :=
  c.checked.filter (·.born = c.catalog.birth s)

/-- How often the reference of an entry waits for a check or is being checked. -/
def checking (c : Crawler) (r : CatalogRef) : ℕ :=
  c.features.count r + (c.checks.map (·.ref)).count r

theorem checking_eq_zero (hfeatures : r ∉ c.features) (hchecks : ∀ q ∈ c.checks, q.ref ≠ r) :
    c.checking r = 0 := by
  rw [checking, count_eq_zero.2 hfeatures, count_eq_zero.2, add_zero]
  rintro hr
  obtain ⟨q, hq, href⟩ := mem_map.1 hr
  exact hchecks q hq href

/-- Every entry waits for its next check once, or is being checked. -/
structure Checked (c : Crawler) : Prop where
  known : ∀ r ∈ c.features, r.generation.toNat ≤ c.catalog.insertions
  issued : ∀ q ∈ c.checks, Issued c.catalog q.ref q.born
  next : ∀ q ∈ c.checks, c.catalog.isCurrent q.ref →
    (c.catalog.entryAt q.ref.slot).featuresDone = false ∧
      q.check = (nextCheck (c.catalog.entryAt q.ref.slot)).1
  told : ∀ o ∈ c.checked, o.born ≤ c.catalog.insertions
  queued : ∀ s, c.catalog.InUse s → c.checking (c.catalog.ref s) =
    if (c.catalog.entryAt s).has .FeatureQueued then 1 else 0
  examined : ∀ s, c.catalog.InUse s →
    ∃ k, Examined k (c.outcomesAt s) (c.catalog.entryAt s)

/-- What is written to entries leaves their checks. -/
structure SameChecks (e e' : CatalogEntry) : Prop where
  has : ∀ f ∈ checkOrder, e'.has f = e.has f
  featureTries : e'.featureTries = e.featureTries

theorem SameChecks.examined (h : SameChecks e e') (hexamined : Examined k l e) :
    Examined k l e' where
  le := hexamined.le
  conclusions := hexamined.conclusions
  has f hf := by rw [h.has f hf, hexamined.has f hf]
  made := hexamined.made
  tries f hf := h.featureTries.trans (hexamined.tries f hf)
  tries_le := h.featureTries.trans_le hexamined.tries_le

theorem SameChecks.featuresDone (h : SameChecks e e') : e'.featuresDone = e.featuresDone := by
  simp only [CatalogEntry.featuresDone, h.has _ (show CatalogFlag.Tested51 ∈ _ by decide),
    h.has _ (show CatalogFlag.Tested44 ∈ _ by decide),
    h.has _ (show CatalogFlag.TestedPeers ∈ _ by decide),
    h.has _ (show CatalogFlag.TestedUnknown ∈ _ by decide)]

theorem SameChecks.nextCheck (h : SameChecks e e') : nextCheck e' = nextCheck e := by
  simp only [Crawler.nextCheck, featureChecks, find?,
    h.has _ (show CatalogFlag.Tested51 ∈ _ by decide),
    h.has _ (show CatalogFlag.Tested44 ∈ _ by decide),
    h.has _ (show CatalogFlag.TestedPeers ∈ _ by decide)]

theorem sameChecks_set (e : CatalogEntry) (on : Bool) :
    SameChecks e (e.set .FeatureQueued on) where
  has f hf := by
    rw [CatalogEntry.has_set, if_neg]
    rintro rfl
    revert hf
    decide
  featureTries := CatalogEntry.featureTries_set e _ on

theorem SameStanding.sameChecks (h : SameStanding e e') : SameChecks e e' where
  has f hf := by
    refine h.has f ?_ ?_ <;> rintro rfl <;> revert hf <;> decide
  featureTries := h.featureTries

/-- No check of a new entry was made. -/
theorem Pristine.examined (h : Pristine present e) : Examined 0 [] e where
  le := Nat.zero_le 4
  conclusions := rfl
  has f hf := by
    rw [h.has f (by rintro rfl; revert hf; decide) (by rintro rfl; revert hf; decide)]
    simp
  made o ho := absurd ho not_mem_nil
  tries f _ := h.featureTries
  tries_le := h.featureTries.trans_le (Nat.zero_le 1)

/-- Of a stage that ends no check. -/
theorem Checked.of_rewritten (h : Checked c) (hcatalog : Catalogued hash c.catalog)
    (hlt : c.catalog.insertions < 2 ^ 32)
    (hrewritten : Rewritten hash (fun _ _ => True) c.catalog c'.catalog)
    (hsame : ∀ s, c.catalog.InUse s → SameChecks (c.catalog.entryAt s) (c'.catalog.entryAt s))
    (hchecked : c'.checked = c.checked)
    (hknown : ∀ r ∈ c'.features, r.generation.toNat ≤ c.catalog.insertions)
    (hcheck : ∀ q ∈ c'.checks, q ∈ c.checks ∨ ∃ s, c.catalog.InUse s ∧ q.ref = c.catalog.ref s ∧
      q.born = c.catalog.birth s ∧ (c.catalog.entryAt s).featuresDone = false ∧
      q.check = (nextCheck (c.catalog.entryAt s)).1)
    (hqueued : ∀ s, c.catalog.InUse s → c'.checking (c.catalog.ref s) =
      if (c'.catalog.entryAt s).has .FeatureQueued then 1 else 0) : Checked c' where
  known r hr := by
    rw [hrewritten.insertions]
    exact hknown r hr
  issued q hq := by
    have hissued : Issued c.catalog q.ref q.born := by
      rcases hcheck q hq with hq | ⟨s, hs, href, hborn, -⟩
      · exact h.issued q hq
      · rw [href, hborn]
        exact hcatalog.issued hlt hs
    exact hissued.passage hcatalog hrewritten.passage hrewritten.invariant
      (hrewritten.insertions.trans_lt hlt)
  next q hq hcurrent := by
    rw [hrewritten.isCurrent] at hcurrent
    have hnext : (c.catalog.entryAt q.ref.slot).featuresDone = false ∧
        q.check = (nextCheck (c.catalog.entryAt q.ref.slot)).1 := by
      rcases hcheck q hq with hq | ⟨s, -, href, -, hnext⟩
      · exact h.next q hq hcurrent
      · rwa [href]
    have hchecks := hsame _ (isCurrent_iff.1 hcurrent).1
    rwa [hchecks.featuresDone, hchecks.nextCheck]
  told o ho := by
    rw [hrewritten.insertions]
    exact h.told o (hchecked ▸ ho)
  queued s hs := by
    rw [hrewritten.ref]
    exact hqueued s ((hrewritten.inUse s).1 hs)
  examined s hs := by
    have hs := (hrewritten.inUse s).1 hs
    obtain ⟨k, hexamined⟩ := h.examined s hs
    rw [outcomesAt, hchecked, hrewritten.birth]
    exact ⟨k, (hsame s hs).examined hexamined⟩

theorem Checked.listed (h : Checked c) (hcatalog : Catalogued hash c.catalog)
    (hlisted : Listed hash present c c') (hlt : c'.catalog.insertions < 2 ^ 32) : Checked c' := by
  obtain ⟨added, -, hentered⟩ := hlisted.fresh
  have hent := hentered hcatalog.numbered hlt
  have hle := hlisted.passage.changes.insertions_le
  have hcatalog' := hcatalog.passage hlisted.passage hlisted.invariant
  have hrest {α : Type} (f : Ledger → α) := congrArg f hlisted.ledger
  have hfeatures : c'.features = c.features := hrest Ledger.features
  have hchecks : c'.checks = c.checks := hrest Ledger.checks
  have hchecked : c'.checked = c.checked := hrest Ledger.checked
  have hchecking (r : CatalogRef) : c'.checking r = c.checking r := by
    rw [checking, checking, hfeatures, hchecks]
  have hbirth' {s : ℕ} (hs : c'.catalog.InUse s) := hcatalog'.dated hlt s hs
  refine ⟨fun r hr => ?_, fun q hq => ?_, fun q hq hcurrent => ?_, fun o ho => ?_, fun s hs => ?_,
    fun s hs => ?_⟩
  · rw [hfeatures] at hr
    exact (h.known r hr).trans hle
  · rw [hchecks] at hq
    exact (h.issued q hq).passage hcatalog hlisted.passage hlisted.invariant hlt
  · rw [hchecks] at hq
    obtain ⟨hs, hgen⟩ := isCurrent_iff.1 hcurrent
    -- A check under way is of an entry that was there before.
    rcases hent.entry _ hs with ⟨hs₀, href, hsame⟩ | ⟨hnew, -, -⟩
    · have hsame := hsame.toSameStanding.sameChecks
      rw [hsame.featuresDone, hsame.nextCheck]
      exact h.next q hq (isCurrent_iff.2
        ⟨hs₀, (congrArg CatalogRef.generation href).symm.trans hgen⟩)
    · have hissued := h.issued q hq
      rw [hgen, hissued.generation] at hnew
      have hborn := hissued.le
      omega
  · rw [hchecked] at ho
    exact (h.told o ho).trans hle
  · rw [hchecking]
    rcases hent.entry s hs with ⟨hold, href, hsame⟩ | ⟨hnew, hpristine, -⟩
    · rw [href, h.queued s hold, hsame.has _ (by decide) (by decide)]
    · have hnew : c.catalog.insertions < (c'.catalog.ref s).generation.toNat := hnew
      -- A new entry is not checked yet, as its generation is one that nothing has.
      have hzero : c.checking (c'.catalog.ref s) = 0 := checking_eq_zero
        (fun hr => not_lt.2 (h.known _ hr) hnew) fun q hq href => by
          have hissued := h.issued q hq
          rw [← href, hissued.generation] at hnew
          exact not_lt.2 hissued.le hnew
      rw [hzero, hpristine.has _ (by decide) (by decide)]
      rfl
  · rcases hent.entry s hs with ⟨hold, href, hsame⟩ | ⟨hnew, hpristine, -⟩
    · obtain ⟨k, hexamined⟩ := h.examined s hold
      have hgen : (c'.catalog.entryAt s).generation = _ := congrArg CatalogRef.generation href
      have hbirth := hcatalog.dated (hle.trans_lt hlt) s hold
      rw [outcomesAt, hchecked, ← hbirth' hs, hgen]
      exact ⟨k, hsame.toSameStanding.sameChecks.examined (hbirth ▸ hexamined)⟩
    · -- Nothing was told of an entry that is new.
      have hnone : c'.outcomesAt s = [] := by
        rw [outcomesAt, hchecked, filter_eq_nil_iff]
        intro o ho hborn
        rw [decide_eq_true_iff, ← hbirth' hs] at hborn
        have hold := h.told o ho
        omega
      rw [hnone]
      exact ⟨0, hpristine.examined⟩

theorem count_erase_check {checks : List Check} {q : Check} (hq : q ∈ checks) (r : CatalogRef) :
    ((checks.erase q).map (·.ref)).count r + [q.ref].count r = (checks.map (·.ref)).count r := by
  have hcount := ((perm_cons_erase hq).map (·.ref)).count_eq r
  rw [map_cons, count_cons] at hcount
  rw [count_singleton, hcount]

/-- An entry that is being checked does not wait, and is not checked twice. -/
theorem Checked.only {q : Check} {s : ℕ} (h : Checked c) (hq : q ∈ c.checks)
    (hs : c.catalog.InUse s) (href : c.catalog.ref s = q.ref) :
    (c.catalog.entryAt s).has .FeatureQueued ∧ c.features.count q.ref = 0 ∧
      ((c.checks.erase q).map (·.ref)).count q.ref = 0 := by
  have hcount := count_erase_check hq q.ref
  have hqueued := h.queued s hs
  rw [href, checking] at hqueued
  rw [count_singleton_self] at hcount
  have hflag : (c.catalog.entryAt s).has .FeatureQueued := by
    by_contra hnot
    rw [if_neg hnot] at hqueued
    omega
  rw [if_pos hflag] at hqueued
  exact ⟨hflag, by omega, by omega⟩

/-- The check under way is the next one of its entry. -/
theorem Checked.exists_examined {q : Check} {s : ℕ} (h : Checked c) (hq : q ∈ c.checks)
    (hs : c.catalog.InUse s) (href : c.catalog.ref s = q.ref) :
    ∃ k, Examined k (c.outcomesAt s) (c.catalog.entryAt s) ∧ checkOrder[k]? = some q.check := by
  have hslot : q.ref.slot = s := (congrArg CatalogRef.slot href).symm
  obtain ⟨hleft, hcheck⟩ := h.next q hq (href ▸ isCurrent_iff.2 ⟨hs, rfl⟩)
  rw [hslot] at hleft hcheck
  obtain ⟨k, hexamined⟩ := h.examined s hs
  have hk : k < 4 := by
    have hdone := mt hexamined.featuresDone.2 (by rw [hleft]; exact Bool.false_ne_true)
    have hle := hexamined.le
    omega
  exact ⟨k, hexamined, hcheck ▸ hexamined.nextCheck hk⟩

/-- When its check ends, an entry waits for the one after it, if there is one left. -/
theorem Checked.checking_concluded {q : Check} {s : ℕ} (h : Checked c) (hq : q ∈ c.checks)
    (hconcluded : Concluded hash q reply c c') (hs : c.catalog.InUse s)
    (href : c.catalog.ref s = q.ref) :
    c'.checking q.ref = if (c'.catalog.entryAt s).has .FeatureQueued then 1 else 0 := by
  have hchecks : c'.checks = c.checks.erase q := congrArg Crawler.checks hconcluded.rest
  have hslot : q.ref.slot = s := (congrArg CatalogRef.slot href).symm
  have hcurrent : c.catalog.isCurrent q.ref := href ▸ isCurrent_iff.2 ⟨hs, rfl⟩
  obtain ⟨hflag, hfeatures, herase⟩ := h.only hq hs href
  obtain ⟨k, -, hcheck⟩ := h.exists_examined hq hs href
  have hflag' := (has_noteChecked_queued (mem_of_getElem? hcheck) reply _).trans hflag
  have hself := (hconcluded.entry s hs).trans (if_pos href)
  rw [hself, checking, hconcluded.features, hchecks, count_append, hslot, hfeatures, herase]
  by_cases hdone : (noteChecked q.check reply (c.catalog.entryAt s)).featuresDone
  · rw [if_neg fun hboth => hboth.2 hdone, if_pos hdone, CatalogEntry.has_set, if_pos rfl]
    rfl
  · rw [if_pos ⟨hcurrent, hdone⟩, if_neg hdone, hflag', if_pos rfl, count_singleton_self]

theorem Checked.concluded {q : Check} (h : Checked c) (hcatalog : Catalogued hash c.catalog)
    (hlt : c.catalog.insertions < 2 ^ 32) (hq : q ∈ c.checks)
    (hconcluded : Concluded hash q reply c c') : Checked c' := by
  have hrest {α : Type} (f : Crawler → α) := congrArg f hconcluded.rest
  have hchecks : c'.checks = c.checks.erase q := hrest Crawler.checks
  have hchecked : c'.checked = c.checked ++ [⟨q.born, q.check, reply.status⟩] :=
    hrest Crawler.checked
  have hrewritten := hconcluded.rewritten
  have hissued := h.issued q hq
  have hother {s : ℕ} (hs : c.catalog.InUse s) (hne : c.catalog.ref s ≠ q.ref) :
      c'.catalog.entryAt s = c.catalog.entryAt s :=
    (hconcluded.entry s hs).trans (if_neg hne)
  refine ⟨fun r hr => ?_, fun q' hq' => ?_, fun q' hq' hcurrent => ?_, fun o ho => ?_,
    fun s hs => ?_, fun s hs => ?_⟩
  · rw [hrewritten.insertions]
    rw [hconcluded.features] at hr
    rcases mem_append.1 hr with hr | hr
    · exact h.known r hr
    · split_ifs at hr
      · rw [mem_singleton.1 hr, hissued.generation]
        exact hissued.le
      · exact absurd hr not_mem_nil
  · exact (h.issued q' (erase_subset (hchecks ▸ hq'))).passage hcatalog hrewritten.passage
      hrewritten.invariant (hrewritten.insertions.trans_lt hlt)
  · rw [hchecks] at hq'
    rw [hrewritten.isCurrent] at hcurrent
    have hs := (isCurrent_iff.1 hcurrent).1
    have href := ref_eq_of_isCurrent hcurrent
    -- Of no other check under way is the entry the same.
    rw [hother hs fun heq => ?_]
    · exact h.next q' (erase_subset hq') hcurrent
    · refine count_eq_zero.1 (h.only hq hs heq).2.2 ?_
      rw [← heq, href]
      exact mem_map_of_mem hq'
  · rw [hrewritten.insertions]
    rw [hchecked] at ho
    rcases mem_append.1 ho with ho | ho
    · exact h.told o ho
    · rw [mem_singleton.1 ho]
      exact hissued.le
  · have hs := (hrewritten.inUse s).1 hs
    rw [hrewritten.ref]
    by_cases href : c.catalog.ref s = q.ref
    · rw [href]
      exact h.checking_concluded hq hconcluded hs href
    · -- Other entries wait and are checked as before.
      have hcount := count_erase_check hq (c.catalog.ref s)
      rw [count_singleton, if_neg (by simpa using Ne.symm href), add_zero] at hcount
      have hfeatures :
          c'.features.count (c.catalog.ref s) = c.features.count (c.catalog.ref s) := by
        rw [hconcluded.features, count_append, Nat.add_eq_left]
        split_ifs
        · rw [count_singleton, if_neg (by simpa using Ne.symm href)]
        · exact count_nil
      rw [checking, hchecks, hcount, hfeatures, hother hs href]
      exact h.queued s hs
  · have hs := (hrewritten.inUse s).1 hs
    rw [outcomesAt, hchecked, filter_append, hrewritten.birth]
    by_cases href : c.catalog.ref s = q.ref
    · -- The outcome is the next one of the entry that was checked, and of no other.
      obtain ⟨k, hexamined, hcheck⟩ := h.exists_examined hq hs href
      obtain ⟨k', hexamined'⟩ := hexamined.noteChecked hcheck reply q.born
      rw [filter_cons_of_pos (by simpa using ((hissued.birth s hs).2 href).symm), filter_nil,
        (hconcluded.entry s hs).trans (if_pos href)]
      refine ⟨k', ?_⟩
      split_ifs
      · exact (sameChecks_set _ _).examined hexamined'
      · exact hexamined'
    · rw [filter_cons_of_neg (by simpa using Ne.symm (mt (hissued.birth s hs).1 href)), filter_nil,
        append_nil, hother hs href]
      exact h.examined s hs

/-- Of a stage that only moves what waits. -/
theorem Checked.of_features (h : Checked c) (hcatalog : Catalogued hash c.catalog)
    (hlt : c.catalog.insertions < 2 ^ 32)
    (hrewritten : Rewritten hash SameStanding c.catalog c'.catalog)
    (hchecked : c'.checked = c.checked) (hchecks : c'.checks = c.checks)
    (hfeatures : ∀ r, c'.features.count r ≤ c.features.count r)
    (hcount : ∀ s, c.catalog.InUse s →
      c'.features.count (c.catalog.ref s) = c.features.count (c.catalog.ref s)) : Checked c' := by
  refine h.of_rewritten hcatalog hlt (hrewritten.mono fun _ _ _ => trivial)
    (fun s hs => (hrewritten.entry s hs).sameChecks) hchecked (fun r hr => ?_)
    (fun q hq => .inl (hchecks ▸ hq)) (fun s hs => ?_)
  · exact h.known r (count_pos_iff.1 ((count_pos_iff.2 hr).trans_le (hfeatures r)))
  · rw [checking, hchecks, hcount s hs, (hrewritten.entry s hs).has _ (by decide) (by decide)]
    exact h.queued s hs

/-- The end of a query for more nodes: an entry that answers waits for its next check, unless
    it does already. -/
theorem Checked.settled {env : Outside} {q : Query} (h : Checked c)
    (hcatalog : Catalogued hash c.catalog) (hlt : c.catalog.insertions < 2 ^ 32)
    (hsettled : Settled hash env q reply c c') : Checked c' := by
  have hsame (s : ℕ) (hs : c.catalog.InUse s) :
      SameChecks (c.catalog.entryAt s) (c'.catalog.entryAt s) := by
    have hflags := flags_noteOutcome c.config.failuresToGiveUp (c.catalog.stamp env.now) reply
      (c.catalog.entryAt s)
    have houtcome : SameChecks (c.catalog.entryAt s) (noteOutcome c.config.failuresToGiveUp
        (c.catalog.stamp env.now) reply (c.catalog.entryAt s)) := by
      refine ⟨fun f hf => hflags.1 f ?_ ?_ ?_, hflags.2⟩ <;> rintro rfl <;> revert hf <;> decide
    rw [hsettled.entry s hs]
    split_ifs
    · have hset := sameChecks_set (noteOutcome c.config.failuresToGiveUp
        (c.catalog.stamp env.now) reply (c.catalog.entryAt s)) true
      exact ⟨fun f hf => (hset.has f hf).trans (houtcome.has f hf),
        hset.featureTries.trans houtcome.featureTries⟩
    · exact houtcome
    · exact ⟨fun _ _ => rfl, rfl⟩
  refine h.of_rewritten hcatalog hlt hsettled.rewritten hsame hsettled.checked (fun r hr => ?_)
    (fun q hq => .inl (hsettled.checks ▸ hq)) (fun s hs => ?_)
  · rw [hsettled.features] at hr
    rcases mem_append.1 hr with hr | hr
    · exact h.known r hr
    · split_ifs at hr with hcond
      · obtain ⟨hs, hgen⟩ := isCurrent_iff.1 hcond.1
        rw [mem_singleton.1 hr, ← hgen]
        exact (hcatalog.numbered hlt).1 _ hs
      · exact absurd hr not_mem_nil
  · have hflags := (flags_noteOutcome c.config.failuresToGiveUp (c.catalog.stamp env.now) reply
      (c.catalog.entryAt s)).1 .FeatureQueued (by decide) (by decide) (by decide)
    have hqueued := h.queued s hs
    rw [checking] at hqueued
    rw [checking, hsettled.features, hsettled.checks, hsettled.entry s hs, count_append]
    by_cases heq : c.catalog.ref s = q.ref
    · have hslot : q.ref.slot = s := (congrArg CatalogRef.slot heq).symm
      have hcurrent : c.catalog.isCurrent q.ref := heq ▸ isCurrent_iff.2 ⟨hs, rfl⟩
      rw [if_pos heq, hslot, heq]
      rw [heq] at hqueued
      -- It waits once: it did not before, or goes on to.
      by_cases hbecomes : becomesQueued reply.status (noteOutcome c.config.failuresToGiveUp
          (c.catalog.stamp env.now) reply (c.catalog.entryAt s))
      · have hnot : (c.catalog.entryAt s).has .FeatureQueued = false := by
          rw [← hflags]
          simp only [becomesQueued, Bool.and_eq_true, Bool.not_eq_true'] at hbecomes
          exact hbecomes.2
        rw [hnot, if_neg Bool.false_ne_true] at hqueued
        rw [if_pos ⟨hcurrent, hbecomes⟩, if_pos hbecomes, CatalogEntry.has_set, if_pos rfl,
          if_pos rfl, count_singleton_self]
        omega
      · rw [if_neg fun hboth => hbecomes hboth.2, if_neg hbecomes, hflags, count_nil, add_zero,
          hqueued]
    · have hzero : (if c.catalog.isCurrent q.ref ∧ becomesQueued reply.status
          (noteOutcome c.config.failuresToGiveUp (c.catalog.stamp env.now) reply
            (c.catalog.entryAt q.ref.slot)) then [q.ref] else []).count (c.catalog.ref s) = 0 := by
        split_ifs
        · rw [count_singleton, if_neg (by simpa using Ne.symm heq)]
        · exact count_nil
      rw [if_neg heq, hzero, add_zero, hqueued]

/-- An entry that is not worth its next check is taken out of the queue. -/
theorem Checked.unqueued {rest : List CatalogRef} (h : Checked c)
    (hcatalog : Catalogued hash c.catalog) (hlt : c.catalog.insertions < 2 ^ 32)
    (hqueue : c.features = r :: rest) (hr : c.catalog.isCurrent r) :
    Checked ({ c with features := rest }.edit r.slot (·.set .FeatureQueued false)) := by
  have hnoted := noted_unqueued hcatalog.invariant hr rest
  have href : c.catalog.ref r.slot = r := ref_eq_of_isCurrent hr
  refine h.of_rewritten hcatalog hlt hnoted.rewritten (fun s _ => ?_) rfl (fun r' hr' => ?_)
    (fun q hq => .inl hq) (fun s hs => ?_)
  · by_cases hslot : s = r.slot
    · rw [hslot, hnoted.self]
      exact sameChecks_set _ _
    · rw [hnoted.other s hslot]
      exact ⟨fun _ _ => rfl, rfl⟩
  · exact h.known r' (hqueue ▸ mem_cons_of_mem r hr')
  · have hqueued := h.queued s hs
    rw [checking, hqueue] at hqueued
    change rest.count _ + (c.checks.map (·.ref)).count _ = _
    by_cases hslot : s = r.slot
    · rw [hslot, href, count_cons_self] at hqueued
      rw [hslot, href, hnoted.self, CatalogEntry.has_set, if_pos rfl]
      rw [if_neg Bool.false_ne_true]
      split_ifs at hqueued <;> omega
    · rw [count_cons_of_ne fun heq => hslot (congrArg CatalogRef.slot heq.symm)] at hqueued
      rw [hnoted.other s hslot, hqueued]

/-- The next check of an entry is made. -/
theorem Checked.checked {rest : List CatalogRef} (h : Checked c)
    (hcatalog : Catalogued hash c.catalog) (hlt : c.catalog.insertions < 2 ^ 32)
    (hqueue : c.features = r :: rest) (hr : c.catalog.isCurrent r)
    (hdone : (c.catalog.entryAt r.slot).featuresDone = false) :
    Checked ({ c with features := rest }.askFeature r.slot) := by
  have href : c.catalog.ref r.slot = r := ref_eq_of_isCurrent hr
  have hmap : (({ c with features := rest }.askFeature r.slot).checks.map fun q : Check => q.ref) =
      (c.checks.map fun q : Check => q.ref) ++ [r] := by
    simp only [askFeature, map_append, map_singleton, href]
  refine h.of_rewritten hcatalog hlt (.refl hcatalog.invariant fun _ => trivial)
    (fun s _ => ⟨fun _ _ => rfl, rfl⟩) rfl
    (fun r' hr' => h.known r' (hqueue ▸ mem_cons_of_mem r hr')) (fun q hq => ?_) (fun s hs => ?_)
  · rcases mem_append.1 hq with hq | hq
    · exact .inl hq
    · rw [mem_singleton.1 hq]
      exact .inr ⟨r.slot, (isCurrent_iff.1 hr).1, rfl, rfl, hdone, rfl⟩
  · have hqueued := h.queued s hs
    rw [checking, hqueue, count_cons] at hqueued
    rw [checking, hmap, count_append, count_singleton]
    change rest.count _ + _ = if (c.catalog.entryAt s).has .FeatureQueued then 1 else 0
    rw [← hqueued]
    omega

theorem Checked.stage (h : Checked c) (hcatalog : Catalogued hash c.catalog)
    (hstage : Stage hash present c c') (hlt : c'.catalog.insertions < 2 ^ 32) : Checked c' := by
  have hlt₀ := (hstage.insertions_le hcatalog.invariant).trans_lt hlt
  have hrefl : Rewritten hash SameStanding c.catalog c.catalog := .refl hcatalog.invariant .refl
  cases hstage with
  | listed hlisted => exact h.listed hcatalog hlisted hlt
  | moved hmoved =>
    have hrest {α : Type} (f : Aside → α) := congrArg f hmoved.aside
    have hfeatures : c'.features = c.features := hrest Aside.features
    exact h.of_features hcatalog hlt₀ hmoved.catalog (hrest Aside.checked) (hrest Aside.checks)
      (fun r => by rw [hfeatures]) fun s _ => by rw [hfeatures]
  | dropped hqueue hr =>
    rename_i r rest
    refine h.of_features hcatalog hlt₀ hrefl rfl rfl (fun r' => ?_) fun s hs => ?_
    · rw [hqueue]
      exact count_le_count_cons
    · rw [hqueue, count_cons_of_ne]
      rintro rfl
      rw [isCurrent_iff.2 ⟨hs, rfl⟩] at hr
      cases hr
  | rotated hqueue =>
    rename_i r rest
    have hperm : (rest ++ [r]).Perm (r :: rest) := perm_append_singleton r rest
    exact h.of_features hcatalog hlt₀ hrefl rfl rfl (fun r' => by rw [hqueue, hperm.count_eq])
      fun s _ => by rw [hqueue, hperm.count_eq]
  | unqueued hqueue hr => exact h.unqueued hcatalog hlt₀ hqueue hr
  | checked hqueue hr hstate hdone => exact h.checked hcatalog hlt₀ hqueue hr hdone
  | settled hq hsettled => exact h.settled hcatalog hlt₀ hsettled
  | concluded hq hconcluded => exact h.concluded hcatalog hlt₀ hq hconcluded

/-! ## Invented peers -/

theorem invents_set (h : e.has .InventsPeers) (hf : f = .InventsPeers → on = true) :
    (e.set f on).has .InventsPeers := by
  rw [CatalogEntry.has_set]
  split_ifs with heq
  · exact hf heq.symm
  · exact h

theorem invents_noteChecked (h : e.has .InventsPeers) (check : CatalogFlag) (reply : RpcReply) :
    (noteChecked check reply e).has .InventsPeers := by
  have hset : (e.set check).has .InventsPeers := invents_set h fun _ => rfl
  rw [noteChecked]
  cases reply.status with
  | Throttled => exact h
  | Timeout =>
    rw [noteCheckTimeout]
    dsimp only
    split_ifs
    · rw [CatalogEntry.has_setFeatureTries]
      exact invents_set ((CatalogEntry.has_setFeatureTries ..).trans h) fun _ => rfl
    · rwa [CatalogEntry.has_setFeatureTries]
  | Response | Error =>
    refine noteCheck_rec (P := fun e => e.has .InventsPeers) check reply e
      (fun e f on he _ hon => invents_set he hon)
      (fun e n he => (CatalogEntry.has_setSampleCount ..).trans he) ?_
    rwa [CatalogEntry.has_setFeatureTries]

/-- While an entry stays, it is not forgotten that its node invents peers. -/
theorem Stage.invents (hstage : Stage hash present c c') (hcatalog : Catalogued hash c.catalog)
    (hlt : c'.catalog.insertions < 2 ^ 32) (hr : c.catalog.isCurrent r)
    (hr' : c'.catalog.isCurrent r) (h : (c.catalog.entryAt r.slot).has .InventsPeers) :
    (c'.catalog.entryAt r.slot).has .InventsPeers := by
  obtain ⟨hs, hgen⟩ := isCurrent_iff.1 hr
  obtain ⟨hs', hgen'⟩ := isCurrent_iff.1 hr'
  have hlt₀ := (hstage.insertions_le hcatalog.invariant).trans_lt hlt
  cases hstage with
  | listed hlisted =>
    obtain ⟨added, -, hentered⟩ := hlisted.fresh
    rcases (hentered hcatalog.numbered hlt).entry _ hs' with ⟨-, -, hsame⟩ | ⟨hnew, -, -⟩
    · exact hsame.invents h
    · have hold := (hcatalog.numbered hlt₀).1 _ hs
      rw [hgen'] at hnew
      rw [hgen] at hold
      omega
  | moved hmoved => exact (hmoved.catalog.entry _ hs).invents h
  | dropped | rotated | checked => exact h
  | unqueued hqueue hr₀ =>
    rename_i r₀ rest
    have hnoted := noted_unqueued hcatalog.invariant hr₀ rest
    by_cases hslot : r.slot = r₀.slot
    · rw [hslot, hnoted.self]
      exact invents_set (hslot ▸ h) nofun
    · rwa [hnoted.other _ hslot]
  | settled hq hsettled =>
    rename_i env q reply
    have hkept : (noteOutcome c.config.failuresToGiveUp (c.catalog.stamp env.now) reply
        (c.catalog.entryAt r.slot)).has .InventsPeers :=
      ((flags_noteOutcome ..).1 _ (by decide) (by decide) (by decide)).trans h
    rw [hsettled.entry _ hs]
    split_ifs
    · exact invents_set hkept nofun
    · exact hkept
    · exact h
  | concluded hq hconcluded =>
    rw [hconcluded.entry _ hs]
    split_ifs
    · exact invents_set (invents_noteChecked h _ _) nofun
    · exact invents_noteChecked h _ _
    · exact h

/-! ## Runs -/

theorem Reached.checked (hc : Reached hash config c) (hlt : c.catalog.insertions < 2 ^ 32) :
    Checked c := by
  obtain ⟨catalog, hcatalog, hnone, hsteps⟩ := hc.start
  refine hsteps.rec_bounded hcatalog hlt ⟨fun r hr => absurd hr not_mem_nil,
    fun q hq => absurd hq not_mem_nil, fun q hq => absurd hq not_mem_nil,
    fun o ho => absurd ho not_mem_nil, fun s hs => absurd hs (hnone s),
    fun s hs => absurd hs (hnone s)⟩ fun _ _ _ hcatalog hstage hlt hchecked => ?_
  exact hchecked.stage hcatalog hstage hlt

/-- Until 2^32 nodes have been entered, in every state the scan reaches: an entry waits for
    its next check or is being checked once, and `FeatureQueued` tells; the checks concluded
    come in their order, and the flags tell which; and while an entry stays, its
    `InventsPeers` does. -/
theorem checks_concluded (hash : CatalogKey → ℕ) (config : CrawlConfig) (c : Crawler)
    (hc : Reached hash config c) (hlt : c.catalog.insertions < 2 ^ 32) :
    (∀ s, c.catalog.InUse s →
      c.checking (c.catalog.ref s) = (if (c.catalog.entryAt s).has .FeatureQueued then 1 else 0) ∧
      conclusions (c.outcomesAt s) <+: checkOrder ∧
      ∀ f ∈ checkOrder, (c.catalog.entryAt s).has f ↔ f ∈ conclusions (c.outcomesAt s)) ∧
    ∀ c₀ r, Reached hash config c₀ → AnySteps hash c₀ c →
      c₀.catalog.isCurrent r → c.catalog.isCurrent r →
      (c₀.catalog.entryAt r.slot).has .InventsPeers →
      (c.catalog.entryAt r.slot).has .InventsPeers := by
  have hchecked := hc.checked hlt
  refine ⟨fun s hs => ?_, fun c₀ r hc₀ hsteps₀ hr₀ hr hinvents => ?_⟩
  · obtain ⟨k, hexamined⟩ := hchecked.examined s hs
    refine ⟨hchecked.queued s hs, hexamined.conclusions ▸ take_prefix k checkOrder, fun f hf => ?_⟩
    rw [hexamined.has f hf, hexamined.conclusions]
  · obtain ⟨catalog, hcatalog, -, hbefore⟩ := hc₀.start
    obtain ⟨hpassage, hinv⟩ := hbefore.passage hcatalog.invariant
    have hcatalog := hcatalog.passage hpassage hinv
    have hle := (AnySteps.passage hsteps₀ hinv).1.changes.insertions_le
    have hold : r.generation.toNat ≤ c₀.catalog.insertions := by
      rw [← (isCurrent_iff.1 hr₀).2]
      exact (hcatalog.numbered (hle.trans_lt hlt)).1 _ (isCurrent_iff.1 hr₀).1
    -- What has gone does not come back, so the entry was there all the time.
    refine (hsteps₀.rec_bounded (P := fun c => r.generation.toNat ≤ c.catalog.insertions ∧
      (c.catalog.isCurrent r → (c.catalog.entryAt r.slot).has .InventsPeers)) hcatalog hlt
      ⟨hold, fun _ => hinvents⟩ fun present c c' hcatalog hstage hlt hP => ?_).2 hr
    have hpassage := (hstage.passage hcatalog.invariant).1
    refine ⟨hP.1.trans (hstage.insertions_le hcatalog.invariant), fun hr' => ?_⟩
    have hr₀ : c.catalog.isCurrent r := by
      by_contra hgone
      exact hcatalog.gone hpassage hlt hP.1 hgone hr'
    exact hstage.invents hcatalog hlt hr₀ hr' (hP.2 hr₀)

/-- A node is entered, asked and answers with an error. -/
def oneAnswer : List Event :=
  [.setMonitoring { overIPv4 0 with start := [firstNode] } true, .tick (overIPv4 0),
    .reply (overIPv4 0) ⟨⟨0, 1⟩, 1, firstNode.endpoint, some firstNode.id⟩ { status := .Error }]

/-- A check of it is made, and times out. -/
def missedCheck : List Event :=
  [.tick (overIPv4 0),
    .featureReply (overIPv4 0)
      ⟨⟨0, 1⟩, 1, firstNode.endpoint, ascii "sample_infohashes", .Tested51⟩ {}]

theorem reached_follow {wanted : Crawler → Event → Bool} {events : List Event} {cap : ℤ}
    (hpresent : ∀ e ∈ events, ∀ env, e.outside = some env →
      ∀ family, (env.nodeId family).isSome = decide (family = .IPv4))
    (hfollow : follow hash wanted events { config, catalog := .new cap 0 } = some c) :
    Reached hash config c :=
  ⟨.new cap 0, ⟨cap, 0, .refl⟩, rfl, Relation.ReflTransGen.mono
    (fun _ _ ⟨e, hlegal, _, happly⟩ => ⟨_, e, hlegal, happly⟩) _ _
    (follow_run hpresent hfollow)⟩

/-- The check is made twice, and then it is concluded. -/
theorem checks_concluded_missed :
    ∃ c, follow byPort (fun _ _ => true) (oneAnswer ++ missedCheck ++ missedCheck)
      { config := {}, catalog := .new 10 0 } = some c ∧ c.catalog.InUse 0 ∧
      CatalogFlag.Tested51 ∈ conclusions (c.outcomesAt 0) ∧ c.checking (c.catalog.ref 0) = 1 := by
  have hrun : (follow byPort (fun _ _ => true) (oneAnswer ++ missedCheck ++ missedCheck)
      { config := {}, catalog := .new 10 0 }).map (fun c =>
        (c.catalog.insertions, c.catalog.entries.map fun e =>
          (e.inUse, e.has .Tested51, e.has .FeatureQueued))) =
      some (1, [(true, true, true)]) := by
    decide +kernel
  obtain ⟨c, hfollow, hc⟩ := Option.map_eq_some_iff.1 hrun
  obtain ⟨hinsertions, hentries⟩ := Prod.mk.inj hc
  obtain ⟨e, hone, he⟩ := List.map_eq_singleton_iff.1 hentries
  simp only [Prod.mk.injEq] at he
  have hentry : c.catalog.entryAt 0 = e := by rw [entryAt, hone]; rfl
  have hs : c.catalog.InUse 0 := inUse_iff.2 (hentry ▸ he.1)
  have hreached : Reached byPort {} c := by
    refine reached_follow (fun e he env henv family => ?_) hfollow
    simp only [oneAnswer, missedCheck, cons_append, nil_append, mem_cons, not_mem_nil,
      or_false] at he
    obtain rfl | rfl | rfl | rfl | rfl | rfl | rfl := he
    all_goals
      cases henv
      cases family <;> rfl
  obtain ⟨hchecking, -, hhas⟩ :=
    (checks_concluded byPort {} c hreached (by rw [hinsertions]; decide)).1 0 hs
  refine ⟨c, hfollow, hs, (hhas .Tested51 (by decide)).1 (hentry ▸ he.2.1), ?_⟩
  rw [hchecking, hentry, he.2.2, if_pos rfl]

/-! ## Once generations wrap around -/

/-- A paused scan with one entry, in the only slot there is. -/
structure Lone (hash : CatalogKey → ℕ) (c : Crawler) : Prop extends Alone hash c where
  length : c.catalog.entries.length = 1
  inUse : c.catalog.InUse 0

/-- Another entry takes its place. -/
theorem Lone.again (h : Lone hash c) : ∃ c',
    Relation.ReflTransGen (Step hash fun family => family = .IPv4) c c' ∧ Lone hash c' ∧
      c'.ledger = c.ledger ∧ (c'.catalog.entryAt 0).has .FeatureQueued = false ∧
      (c'.catalog.entryAt 0).generation = c.catalog.nextGeneration ∧
      c'.catalog.birth 0 = c.catalog.insertions + 1 ∧
      c'.catalog.nextGeneration =
        if c.catalog.nextGeneration + 1 = 0 then 1 else c.catalog.nextGeneration + 1 := by
  obtain ⟨c', s, hsteps, hagain⟩ := h.toAlone.again
  obtain ⟨d, draw, endpoint, now, hnone, hupsert, hlength, hrewritten⟩ := hagain.upsert
  have hcap : 0 < c.catalog.cap := by
    rw [h.cap]
    decide
  have hfull : c.catalog.cap ≤ c.catalog.size := by
    have hpos := length_pos_of_mem (mem_slots.2 h.inUse)
    have hsize := h.invariant.size
    have hone := h.cap
    omega
  obtain ⟨d', s', hupsert', hlength', hflags, hgen, hbirth, hnext⟩ :=
    h.invariant.upsert_full hnone hcap hfull draw now
  obtain ⟨rfl, rfl⟩ : d' = d ∧ s' = s := by
    rw [hupsert', Option.some.injEq, Prod.mk.injEq, Prod.mk.injEq] at hupsert
    exact ⟨hupsert.1, hupsert.2.1⟩
  have hone : c'.catalog.entries.length = 1 := hlength.trans (hlength'.trans h.length)
  have hslot : s' = 0 := by
    have hlt := hagain.inUse.1
    omega
  have hs := (hrewritten.inUse s').1 hagain.inUse
  refine ⟨c', hsteps, ⟨hagain.alone, hone, hslot ▸ hagain.inUse⟩, hagain.ledger, ?_, ?_, ?_, ?_⟩
  · rw [CatalogEntry.has, ← hslot, (hrewritten.entry s' hs).2, hflags]
    decide
  · rw [← hslot, hrewritten.generation, hgen]
  · rw [← hslot, hrewritten.birth, hbirth]
  · rw [hrewritten.nextGeneration, hnext]

/-- Again and again, until the first generation is given out again. -/
theorem Lone.exists_wrapped (h : Lone hash c) (hnext : c.catalog.nextGeneration = 2) :
    ∃ c', Relation.ReflTransGen (Step hash fun family => family = .IPv4) c c' ∧
      Lone hash c' ∧ c'.ledger = c.ledger ∧
      (c'.catalog.entryAt 0).has .FeatureQueued = false ∧
      c.catalog.insertions < c'.catalog.birth 0 ∧ c'.catalog.ref 0 = ⟨0, 1⟩ := by
  have hruns : ∀ n < 2 ^ 32 - 1, ∃ c',
      Relation.ReflTransGen (Step hash fun family => family = .IPv4) c c' ∧ Lone hash c' ∧
        c'.ledger = c.ledger ∧
        c'.catalog.nextGeneration.toNat = if n = 2 ^ 32 - 2 then 1 else n + 2 := by
    intro n hn
    induction n with
    | zero => exact ⟨c, .refl, h, rfl, by rw [hnext]; rfl⟩
    | succ n ih =>
      obtain ⟨c₁, hsteps, hlone, hledger, hgen⟩ := ih (by omega)
      obtain ⟨c₂, hsteps', hlone', hledger', -, -, -, hgen'⟩ := hlone.again
      refine ⟨c₂, hsteps.trans hsteps', hlone', hledger'.trans hledger, ?_⟩
      rw [if_neg (by omega)] at hgen
      have hsucc : (c₁.catalog.nextGeneration + 1).toNat = (n + 3) % 2 ^ 32 := by
        rw [UInt32.toNat_add, hgen]
        rfl
      rw [hgen']
      split_ifs with hzero hlast
      · rfl
      · rw [hzero] at hsucc
        change 0 = _ at hsucc
        omega
      · have hne : (c₁.catalog.nextGeneration + 1).toNat ≠ 0 := fun heq =>
          hzero (UInt32.toNat_inj.1 heq)
        omega
      · omega
  obtain ⟨c₁, hsteps, hlone, hledger, hgen⟩ := hruns (2 ^ 32 - 2) (by decide)
  obtain ⟨c₂, hsteps', hlone', hledger', hflag, hgen', hbirth, -⟩ := hlone.again
  have hle := ((stages_steps h.invariant hsteps).passage h.invariant).1.changes.insertions_le
  refine ⟨c₂, hsteps.trans hsteps', hlone', hledger'.trans hledger, hflag, by omega, ?_⟩
  rw [NodeCatalog.ref, hgen']
  exact congrArg (CatalogRef.mk 0) (UInt32.toNat_inj.1 hgen)

/-- Whether it is such a scan, and the first generation was given out only. -/
def isLone (c : Crawler) : Bool :=
  !c.monitoring && !c.config.allowLocalAddresses && c.fresh.isEmpty && c.catalog.cap = 1 &&
    c.catalog.entries.map (·.inUse) = [true] && c.catalog.nextGeneration = 2

/-- The same after a run. -/
theorem exists_wrapped_follow {events : List Event}
    (hpresent : ∀ e ∈ events, ∀ env, e.outside = some env →
      ∀ family, (env.nodeId family).isSome = decide (family = .IPv4))
    (hfollow : follow byPort (fun _ _ => true) events { config, catalog := .new 1 0 } = some c)
    (hisLone : c.isLone) :
    ∃ c', Reached byPort config c' ∧ Lone byPort c' ∧ c'.ledger = c.ledger ∧
      (c'.catalog.entryAt 0).has .FeatureQueued = false ∧
      c.catalog.insertions < c'.catalog.birth 0 ∧ c'.catalog.ref 0 = ⟨0, 1⟩ := by
  simp only [isLone, Bool.and_eq_true, Bool.not_eq_true', List.isEmpty_iff,
    decide_eq_true_iff] at hisLone
  obtain ⟨⟨⟨⟨⟨hmonitoring, hlocal⟩, hfresh⟩, hcap⟩, hentries⟩, hnext⟩ := hisLone
  have hsteps := Relation.ReflTransGen.mono (p := Step byPort fun family => family = .IPv4)
    (fun _ _ ⟨e, hlegal, _, happly⟩ => ⟨e, hlegal, happly⟩) _ _ (follow_run hpresent hfollow)
  have hinv := ((stages_steps (invariant_new 1 0) hsteps).passage (invariant_new 1 0)).2
  obtain ⟨e, hone, hinUse⟩ := List.map_eq_singleton_iff.1 hentries
  have hlength : c.catalog.entries.length = 1 := by rw [hone]; rfl
  have hlone : Lone byPort c := by
    refine ⟨⟨hinv, hcap, fun s s' hs hs' => ?_, hlocal, hmonitoring, by simp [hfresh]⟩, hlength, ?_⟩
    · have hlt := hs.1
      have hlt' := hs'.1
      omega
    · rw [inUse_iff, entryAt, hone]
      exact hinUse
  obtain ⟨c', hsteps', hwrapped⟩ := hlone.exists_wrapped hnext
  exact ⟨c', ⟨.new 1 0, ⟨1, 0, .refl⟩, rfl,
    Relation.ReflTransGen.mono (fun _ _ hstep => ⟨_, hstep⟩) _ _ (hsteps.trans hsteps')⟩, hwrapped⟩

/-- Its reference is left in the queue when its place is taken, and there it is another one's
    2^32 entries later. -/
theorem exists_check_left :
    ¬∀ (hash : CatalogKey → ℕ) (config : CrawlConfig) (c : Crawler), Reached hash config c →
      ∀ s, c.catalog.InUse s →
        ((c.catalog.entryAt s).has .FeatureQueued ↔ c.checking (c.catalog.ref s) = 1) := by
  intro hclaim
  have hrun : (follow byPort (fun _ _ => true)
      (oneAnswer ++ [.setMonitoring (overIPv4 0) false])
      { config := {}, catalog := .new 1 0 }).map (fun c =>
        (c.isLone, c.features, c.checks.length)) = some (true, [⟨0, 1⟩], 0) := by
    decide +kernel
  obtain ⟨c, hfollow, hc⟩ := Option.map_eq_some_iff.1 hrun
  simp only [Prod.mk.injEq] at hc
  obtain ⟨hisLone, hfeatures, hchecks⟩ := hc
  have hpresent : ∀ e ∈ oneAnswer ++ [.setMonitoring (overIPv4 0) false], ∀ env,
      e.outside = some env → ∀ family, (env.nodeId family).isSome = decide (family = .IPv4) := by
    intro e he env henv family
    simp only [oneAnswer, cons_append, nil_append, mem_cons, not_mem_nil, or_false] at he
    obtain rfl | rfl | rfl | rfl := he
    all_goals
      cases henv
      cases family <;> rfl
  obtain ⟨c', hreached, hlone, hledger, hflag, -, href⟩ :=
    exists_wrapped_follow hpresent hfollow hisLone
  have hrest {α : Type} (f : Ledger → α) := congrArg f hledger
  have hfeatures' : c'.features = [⟨0, 1⟩] := (hrest Ledger.features).trans hfeatures
  have hchecks' : c'.checks = [] :=
    (hrest Ledger.checks).trans (List.length_eq_zero_iff.1 hchecks)
  have hmarked := (hclaim byPort {} c' hreached 0 hlone.inUse).2 <| by
    rw [checking, href, hfeatures', hchecks']
    rfl
  rw [hflag] at hmarked
  cases hmarked

end Dht.Crawler
