import DhtCore.Crawler.Dispatch

/-!
# The scan, stage by stage

Whatever happens to the scan is made of stages (`Stage`): nodes are listed, references are
moved and asked, one is taken out of the queue of feature checks, or a query ends. What holds
between the stages holds of every run (`step_stages`).
-/

namespace Dht.Crawler

open List NodeCatalog

variable {hash : CatalogKey → ℕ} {present : Family → Bool} {env : Outside}
  {c c' c'' : Crawler} {d d' d'' : NodeCatalog} {slot : ℕ} {e e' e'' : CatalogEntry}
    {r : CatalogRef}

/-! ## Writing to one entry -/

/-- What is written to entries leaves what they are. -/
structure SameIdentity (e e' : CatalogEntry) : Prop where
  key : e'.key = e.key
  inUse : e'.inUse = e.inUse
  generation : e'.generation = e.generation
  state : e'.state = e.state
  lastQueried : e'.lastQueried = e.lastQueried

/-- One entry was written to. -/
structure Noted (hash : CatalogKey → ℕ) (slot : ℕ) (e : CatalogEntry) (d d' : NodeCatalog) :
    Prop where
  rewritten : Rewritten hash (fun _ _ => True) d d'
  self : d'.entryAt slot = e
  other : ∀ s, s ≠ slot → d'.entryAt s = d.entryAt s

theorem Noted.refl (h : Invariant hash d) (slot : ℕ) : Noted hash slot (d.entryAt slot) d d :=
  ⟨.refl h fun _ => trivial, rfl, fun _ _ => rfl⟩

theorem Noted.trans (h : Noted hash slot e d d') (h' : Noted hash slot e' d' d'') :
    Noted hash slot e' d d'' :=
  ⟨h.rewritten.trans h'.rewritten fun _ _ _ _ _ => trivial, h'.self,
    fun s hs => (h'.other s hs).trans (h.other s hs)⟩

theorem noted_edit (h : Invariant hash c.catalog) (hs : c.catalog.InUse slot)
    {f : CatalogEntry → CatalogEntry}
    (hf : SameIdentity (c.catalog.entryAt slot) (f (c.catalog.entryAt slot))) :
    Noted hash slot (f (c.catalog.entryAt slot)) c.catalog (c.edit slot f).catalog := by
  obtain ⟨h', hwrite⟩ := h.edit hs hf.key (hf.inUse.trans hs.2) hf.state
  exact ⟨hwrite.rewritten h' hf.generation (fun _ => trivial) trivial, hwrite.entryAt_self,
    hwrite.entryAt⟩

theorem noted_setState (h : Invariant hash d) (hs : d.InUse slot) (state : CatalogState) :
    Noted hash slot { d.entryAt slot with state } d (d.setState slot state) := by
  obtain ⟨h', hwrite⟩ := h.setState hs state
  exact ⟨hwrite.rewritten h' rfl (fun _ => trivial) trivial, hwrite.entryAt_self, hwrite.entryAt⟩

theorem Noted.inUse (h : Noted hash slot e d d') (hs : d.InUse slot) : d'.InUse slot :=
  (h.rewritten.inUse slot).2 hs

/-- The entry a reference is to, if it was noted, and the others. -/
theorem Noted.entryAt (h : Noted hash r.slot e d d') (hr : d.isCurrent r) (s : ℕ) :
    d'.entryAt s = if d.ref s = r then e else d.entryAt s := by
  have href : d.ref r.slot = r := ref_eq_of_isCurrent hr
  split_ifs with heq
  · have hslot : s = r.slot := congrArg CatalogRef.slot heq
    rw [hslot, h.self]
  · exact h.other s fun hslot => heq (by rw [hslot, href])

/-! ## The end of a query -/

theorem sameIdentity_set (e : CatalogEntry) (f : CatalogFlag) (on : Bool) :
    SameIdentity e (e.set f on) := ⟨rfl, rfl, rfl, rfl, rfl⟩

theorem sameIdentity_noteTimeout (e : CatalogEntry) : SameIdentity e (noteTimeout e) :=
  ⟨rfl, rfl, rfl, rfl, rfl⟩

theorem sameIdentity_noteAnswer (stamp : UInt32) (reply : RpcReply) (e : CatalogEntry) :
    SameIdentity e (noteAnswer stamp reply e) := by
  rw [noteAnswer]
  dsimp only
  cases reply.message.senderId <;> split_ifs <;> exact ⟨rfl, rfl, rfl, rfl, rfl⟩

/-- What the end of a query does to the entry that was asked. -/
def noteOutcome (give : ℤ) (stamp : UInt32) (reply : RpcReply) (e : CatalogEntry) : CatalogEntry :=
  match reply.status with
  | .Throttled => e
  | .Timeout =>
    let e := noteTimeout e
    if (e.failures.toNat : ℤ) ≥ give then
      { e with state := if e.lastAnswered ≠ 0 then .Gone else .Silent }
    else e
  | .Error | .Response => { noteAnswer stamp reply e with state := .Responsive }

/-- Whether the end of a query is an answer. -/
def isAnswer (status : RpcStatus) : Bool := status = .Response || status = .Error

/-- Whether the entry asked is then queued for feature checks. -/
def becomesQueued (status : RpcStatus) (e : CatalogEntry) : Bool :=
  isAnswer status && !e.featuresDone && !e.has .FeatureQueued

/-- The scan after the end of a query, before it learns from the response. -/
def settle (c : Crawler) (env : Outside) (q : Query) (reply : RpcReply) : Crawler :=
  let c := { c with
    scans := c.scans.erase q
    outcomes := c.outcomes ++ [Outcome.mk q.born reply.status (c.catalog.stamp env.now)]
    outstanding := c.outstanding - 1 }.countReply reply.status
  if c.catalog.isCurrent q.ref then
    match reply.status with
    | .Throttled => { c with retry := c.retry ++ [q.ref] }
    | .Timeout => c.onTimeout q.ref
    | .Error | .Response => c.onAnswer env q.ref reply
  else c

theorem apply_reply (q : Query) (reply : RpcReply) : c.apply hash (.reply env q reply) =
    if reply.status = .Response then (c.settle env q reply).learnFrom hash env q.ref reply
    else some (c.settle env q reply) := by
  rw [apply, onReply, settle]
  cases reply.status <;> rfl

/-- What the end of a query does. -/
structure Settled (hash : CatalogKey → ℕ) (env : Outside) (q : Query) (reply : RpcReply)
    (c c' : Crawler) : Prop where
  rewritten : Rewritten hash (fun _ _ => True) c.catalog c'.catalog
  entry : ∀ s, c.catalog.InUse s →
    let e := noteOutcome c.config.failuresToGiveUp (c.catalog.stamp env.now) reply
      (c.catalog.entryAt s)
    c'.catalog.entryAt s = if c.catalog.ref s = q.ref then
      (if becomesQueued reply.status e then e.set .FeatureQueued else e) else c.catalog.entryAt s
  config : c'.config = c.config
  scheduled : ∀ r, c'.scheduled.count r +
    (if c.catalog.isCurrent q.ref then 0 else [q.ref].count r) =
    c.scheduled.count r
  scans : c'.scans = c.scans.erase q
  outcomes : c'.outcomes = c.outcomes ++ [⟨q.born, reply.status, c.catalog.stamp env.now⟩]
  features : c'.features = c.features ++
    if c.catalog.isCurrent q.ref ∧
      becomesQueued reply.status (noteOutcome c.config.failuresToGiveUp
      (c.catalog.stamp env.now) reply
        (c.catalog.entryAt q.ref.slot)) then [q.ref] else []
  checks : c'.checks = c.checks
  checked : c'.checked = c.checked
  asked : c'.asked = c.asked
  outstanding : c'.outstanding = c.outstanding - 1
  queries : c'.queries = c.queries
  tally : c'.answers + c'.errors + c'.timeouts + c'.notSent =
    c.answers + c.errors + c.timeouts + c.notSent + 1

/-- An entry was noted, and is to be asked again. -/
structure Requeued (hash : CatalogKey → ℕ) (r : CatalogRef) (e : CatalogEntry) (queues : Bool)
    (c c' : Crawler) : Prop where
  noted : Noted hash r.slot (if queues then e.set .FeatureQueued else e) c.catalog c'.catalog
  count : ∀ r', (c'.retry ++ c'.revisit ++ c'.revisitSilent).count r' =
    (c.retry ++ c.revisit ++ c.revisitSilent).count r' + [r].count r'
  features : c'.features = c.features ++ if queues then [r] else []
  rest : c' = { c with
    catalog := c'.catalog
    retry := c'.retry
    revisit := c'.revisit
    revisitSilent := c'.revisitSilent
    features := c'.features }

theorem requeued_retry (h : Invariant hash c.catalog) :
    Requeued hash r (c.catalog.entryAt r.slot) false c { c with retry := c.retry ++ [r] } where
  noted := .refl h r.slot
  count r' := by
    simp only [count_append]
    omega
  features := (append_nil _).symm
  rest := rfl

theorem requeued_onTimeout (h : Invariant hash c.catalog) (hr : c.catalog.isCurrent r)
    {reply : RpcReply} (hstatus : reply.status = .Timeout) (stamp : UInt32) :
    Requeued hash r (noteOutcome c.config.failuresToGiveUp stamp reply (c.catalog.entryAt r.slot))
      false c (c.onTimeout r) := by
  have hs := (isCurrent_iff.1 hr).1
  have hedit := noted_edit h hs (sameIdentity_noteTimeout _)
  have hnote : noteOutcome c.config.failuresToGiveUp stamp reply (c.catalog.entryAt r.slot) =
      let e := noteTimeout (c.catalog.entryAt r.slot)
      if (e.failures.toNat : ℤ) ≥ c.config.failuresToGiveUp then
        { e with state := if e.lastAnswered ≠ 0 then .Gone else .Silent }
      else e := by
    rw [noteOutcome, hstatus]
  rw [hnote, onTimeout]
  dsimp only
  rw [hedit.self]
  -- With this failure it may be given up, and waits with those that are silent then.
  by_cases hgive : ((noteTimeout (c.catalog.entryAt r.slot)).failures.toNat : ℤ) ≥
      c.config.failuresToGiveUp
  · rw [if_pos hgive, if_pos (show _ ≥ (c.edit r.slot noteTimeout).config.failuresToGiveUp from
      hgive)]
    have hstate := noted_setState hedit.rewritten.invariant (hedit.inUse hs)
      (if (noteTimeout (c.catalog.entryAt r.slot)).lastAnswered ≠ 0 then .Gone else .Silent)
    rw [hedit.self] at hstate
    refine ⟨hedit.trans hstate, fun r' => ?_, (append_nil _).symm, rfl⟩
    simp only [edit, count_append]
    omega
  · rw [if_neg hgive, if_neg (show ¬_ ≥ (c.edit r.slot noteTimeout).config.failuresToGiveUp from
      hgive)]
    refine ⟨hedit, fun r' => ?_, (append_nil _).symm, rfl⟩
    simp only [edit, count_append]
    omega

theorem requeued_onAnswer (h : Invariant hash c.catalog) (hr : c.catalog.isCurrent r)
    {reply : RpcReply} (hstatus : isAnswer reply.status) (give : ℤ) :
    Requeued hash r (noteOutcome give (c.catalog.stamp env.now) reply (c.catalog.entryAt r.slot))
      (becomesQueued reply.status (noteOutcome give (c.catalog.stamp env.now) reply
        (c.catalog.entryAt r.slot))) c (c.onAnswer env r reply) := by
  have hs := (isCurrent_iff.1 hr).1
  have hedit := noted_edit h hs (sameIdentity_noteAnswer (c.catalog.stamp env.now) reply _)
  have hstate := noted_setState hedit.rewritten.invariant (hedit.inUse hs) .Responsive
  rw [hedit.self] at hstate
  have hnoted := hedit.trans hstate
  have hnote : noteOutcome give (c.catalog.stamp env.now) reply (c.catalog.entryAt r.slot) =
      { noteAnswer (c.catalog.stamp env.now) reply (c.catalog.entryAt r.slot) with
        state := .Responsive } := by
    rw [noteOutcome]
    cases hcase : reply.status <;> rw [hcase] at hstatus <;>
      first | rfl | exact absurd hstatus (by decide)
  rw [← hnote] at hnoted
  generalize noteOutcome give (c.catalog.stamp env.now) reply (c.catalog.entryAt r.slot) = e
    at hnoted ⊢
  let c₁ : Crawler := { c.edit r.slot (noteAnswer (c.catalog.stamp env.now) reply) with
    catalog := (c.edit r.slot (noteAnswer (c.catalog.stamp env.now) reply)).catalog.setState r.slot
      .Responsive
    revisit := c.revisit ++ [r] }
  have hcount : ∀ r', (c₁.retry ++ c₁.revisit ++ c₁.revisitSilent).count r' =
      (c.retry ++ c.revisit ++ c.revisitSilent).count r' + [r].count r' := fun r' => by
    simp only [c₁, edit, count_append]
    omega
  have hanswer : c.onAnswer env r reply =
      if e.featuresDone || e.has .FeatureQueued then c₁
      else
        let c := c₁.edit r.slot (·.set .FeatureQueued)
        { c with features := c.features ++ [r] } := by
    rw [← hnoted.self]
    rfl
  rw [hanswer, becomesQueued, hstatus, Bool.true_and]
  -- It waits for its checks as well, unless it does or they are made.
  by_cases hskip : e.featuresDone || e.has .FeatureQueued
  · have hqueue : (!e.featuresDone && !e.has .FeatureQueued) = false := by
      rw [← Bool.not_or, hskip, Bool.not_true]
    rw [if_pos hskip, hqueue]
    exact ⟨hnoted, hcount, (append_nil _).symm, rfl⟩
  · have hqueue : (!e.featuresDone && !e.has .FeatureQueued) = true := by
      rw [← Bool.not_or, Bool.eq_false_of_not_eq_true hskip, Bool.not_false]
    rw [if_neg hskip, hqueue]
    have hset := noted_edit (c := c₁) (f := (·.set .FeatureQueued)) hnoted.rewritten.invariant
        (hnoted.inUse hs)
      (sameIdentity_set (c₁.catalog.entryAt r.slot) .FeatureQueued true)
    have hself : c₁.catalog.entryAt r.slot = e := hnoted.self
    rw [hself] at hset
    exact ⟨hnoted.trans hset, hcount, rfl, rfl⟩

/-- What the end of a query does to the entry asked and its queues, if it is still there. -/
def requeue (c : Crawler) (env : Outside) (r : CatalogRef) (reply : RpcReply) : Crawler :=
  match reply.status with
  | .Throttled => { c with retry := c.retry ++ [r] }
  | .Timeout => c.onTimeout r
  | .Error | .Response => c.onAnswer env r reply

theorem requeued_requeue (h : Invariant hash c.catalog) (hr : c.catalog.isCurrent r)
    (env : Outside) (reply : RpcReply) :
    let e := noteOutcome c.config.failuresToGiveUp (c.catalog.stamp env.now) reply
      (c.catalog.entryAt r.slot)
    Requeued hash r e (becomesQueued reply.status e) c (c.requeue env r reply) := by
  dsimp only
  rw [requeue]
  cases hstatus : reply.status with
  | Throttled =>
    have hnote : ∀ e, noteOutcome c.config.failuresToGiveUp (c.catalog.stamp env.now) reply e = e :=
      fun e => by rw [noteOutcome, hstatus]
    rw [hnote]
    exact requeued_retry h
  | Timeout => exact requeued_onTimeout h hr hstatus _
  | Error | Response =>
    have hanswer : Requeued hash r _ _ c (c.onAnswer env r reply) :=
      requeued_onAnswer h hr (by rw [hstatus]; rfl) c.config.failuresToGiveUp
    rwa [hstatus] at hanswer

theorem settled_settle (h : Invariant hash c.catalog) {q : Query} (hq : q ∈ c.scans)
    (reply : RpcReply) : Settled hash env q reply c (c.settle env q reply) := by
  have hsettle : c.settle env q reply =
      let c₁ := { c with
        scans := c.scans.erase q
        outcomes := c.outcomes ++ [Outcome.mk q.born reply.status (c.catalog.stamp env.now)]
        outstanding := c.outstanding - 1 }.countReply reply.status
      if c₁.catalog.isCurrent q.ref then c₁.requeue env q.ref reply else c₁ := rfl
  -- What is counted concerns neither the entries nor the queues.
  obtain ⟨answers, errors, timeouts, notSent, hcounted, htally⟩ :
      ∃ answers errors timeouts notSent, { c with
        scans := c.scans.erase q
        outcomes := c.outcomes ++ [Outcome.mk q.born reply.status (c.catalog.stamp env.now)]
        outstanding := c.outstanding - 1 }.countReply reply.status = { c with
          scans := c.scans.erase q
          outcomes := c.outcomes ++ [Outcome.mk q.born reply.status (c.catalog.stamp env.now)]
          outstanding := c.outstanding - 1
          answers, errors, timeouts, notSent } ∧
        answers + errors + timeouts + notSent =
          c.answers + c.errors + c.timeouts + c.notSent + 1 := by
    cases reply.status <;> exact ⟨_, _, _, _, rfl, by ring⟩
  rw [hsettle, hcounted]
  generalize hc₁ : ({ c with
    scans := c.scans.erase q
    outcomes := c.outcomes ++ [Outcome.mk q.born reply.status (c.catalog.stamp env.now)]
    outstanding := c.outstanding - 1
    answers, errors, timeouts, notSent } : Crawler) = c₁
  have hscheduled : ∀ r, c₁.scheduled.count r + [q.ref].count r = c.scheduled.count r := fun r => by
    have hcount := ((perm_cons_erase hq).map (·.ref)).count_eq r
    rw [map_cons, count_cons] at hcount
    rw [count_singleton, ← hc₁]
    simp only [count_scheduled]
    omega
  have hcatalog : c₁.catalog = c.catalog := by rw [← hc₁]
  have hconfig : c₁.config = c.config := by rw [← hc₁]
  dsimp only
  rw [hcatalog]
  by_cases hr : c.catalog.isCurrent q.ref
  · rw [if_pos hr]
    have hrequeued := requeued_requeue (hcatalog ▸ h) (hcatalog ▸ hr) env reply
    dsimp only at hrequeued
    rw [hcatalog, hconfig] at hrequeued
    generalize c₁.requeue env q.ref reply = c' at hrequeued
    have hnoted := hrequeued.noted
    rw [hcatalog] at hnoted
    have hrest {α : Type} (f : Crawler → α) := congrArg f hrequeued.rest
    refine ⟨hnoted.rewritten, fun s _ => ?_, (hrest config).trans hconfig, fun r => ?_,
      (hrest scans).trans (by rw [← hc₁]), (hrest outcomes).trans (by rw [← hc₁]), ?_,
      (hrest checks).trans (by rw [← hc₁]), (hrest checked).trans (by rw [← hc₁]),
      (hrest asked).trans (by rw [← hc₁]), (hrest outstanding).trans (by rw [← hc₁]),
      (hrest queries).trans (by rw [← hc₁]), ?_⟩
    · dsimp only
      rw [hnoted.entryAt hr]
      by_cases heq : c.catalog.ref s = q.ref
      · rw [if_pos heq, if_pos heq, show s = q.ref.slot from congrArg CatalogRef.slot heq]
      · rw [if_neg heq, if_neg heq]
    · have hcount := hrequeued.count r
      have hfresh : c'.fresh = c₁.fresh := hrest fresh
      have hdeferred : c'.deferred = c₁.deferred := hrest deferred
      have hscans : c'.scans = c₁.scans := hrest scans
      rw [if_pos hr, ← hscheduled r, count_scheduled, count_scheduled, hfresh, hdeferred, hscans]
      simp only [count_append] at hcount
      omega
    · rw [hrequeued.features, ← hc₁]
      simp only [hr, true_and]
    · have hanswers : c'.answers = answers := (hrest Crawler.answers).trans (by rw [← hc₁])
      have herrors : c'.errors = errors := (hrest Crawler.errors).trans (by rw [← hc₁])
      have htimeouts : c'.timeouts = timeouts := (hrest Crawler.timeouts).trans (by rw [← hc₁])
      have hnotSent : c'.notSent = notSent := (hrest Crawler.notSent).trans (by rw [← hc₁])
      rw [hanswers, herrors, htimeouts, hnotSent, htally]
  · rw [if_neg hr]
    have hsame : Rewritten hash (fun _ _ => True) c.catalog c.catalog := .refl h fun _ => trivial
    refine ⟨by rwa [hcatalog], fun s hs => ?_, hconfig, fun r => ?_,
      by rw [← hc₁], by rw [← hc₁], ?_, by rw [← hc₁], by rw [← hc₁], by rw [← hc₁], by rw [← hc₁],
      by rw [← hc₁], by rw [← hc₁, htally]⟩
    · dsimp only
      rw [hcatalog, if_neg]
      rintro heq
      exact hr (heq ▸ isCurrent_iff.2 ⟨hs, rfl⟩)
    · rw [if_neg hr]
      exact hscheduled r
    · rw [if_neg fun hboth => hr hboth.1, append_nil, ← hc₁]

/-! ## The end of a feature check -/

/-- The flags that tell how an entry stands: what of it is checked, and its last verdict. -/
def isStanding (f : CatalogFlag) : Bool :=
  f = .Tested51 || f = .Tested44 || f = .TestedPeers || f = .TestedUnknown ||
    f = .FeatureQueued || f = .Rejoined

/-- What the answer to a feature check sets, besides that it was made, is no part of how an
    entry stands. -/
theorem noteCheck_rec {P : CatalogEntry → Prop} (check : CatalogFlag) (reply : RpcReply)
    (e : CatalogEntry)
    (hset : ∀ e f on, P e → isStanding f = false → (f = .InventsPeers → on = true) → P (e.set f on))
    (hcount : ∀ e n, P e → P (e.setSampleCount n)) (h : P ((e.set check).setFeatureTries 0)) :
    P (noteCheck check reply e) := by
  unfold noteCheck
  extract_lets response body e₁ e₂ other e₃ e₄ has51 e₅ is204 e₆
  have he₂ : P e₂ := hset _ _ _ (hset _ _ _ h rfl nofun) rfl nofun
  have he₄ : P e₄ := by
    simp only [e₄]
    split_ifs
    · exact hset _ _ _ (hset _ _ _ he₂ rfl nofun) rfl nofun
    · exact he₂
    · exact h
  have he₆ : P (e₆.set .AnswersError (!is204 && !response)) :=
    hset _ _ _ (hset _ _ _ (hset _ _ _ he₄ rfl nofun) rfl nofun) rfl nofun
  clear_value e₄ e₆ has51 is204 response
  -- What is common to all checks is noted; what is left depends on which it is.
  cases check with
  | Tested51 =>
    dsimp only
    split_ifs
    · exact hcount _ _ (hset _ _ _ he₄ rfl nofun)
    · exact hset _ _ _ he₄ rfl nofun
  | Tested44 => exact hset _ _ _ he₄ rfl nofun
  | TestedPeers =>
    dsimp only
    split_ifs
    · exact hset _ _ _ he₄ rfl fun _ => rfl
    · exact he₄
  | _ => exact he₆

theorem sameIdentity_noteCheck (check : CatalogFlag) (reply : RpcReply) (e : CatalogEntry) :
    SameIdentity e (noteCheck check reply e) :=
  noteCheck_rec (P := SameIdentity e) check reply e
    (fun _ _ _ h _ _ => ⟨h.key, h.inUse, h.generation, h.state, h.lastQueried⟩)
    (fun _ _ h => ⟨h.key, h.inUse, h.generation, h.state, h.lastQueried⟩) ⟨rfl, rfl, rfl, rfl, rfl⟩

theorem sameIdentity_noteChecked (check : CatalogFlag) (reply : RpcReply) (e : CatalogEntry) :
    SameIdentity e (noteChecked check reply e) := by
  rw [noteChecked]
  cases reply.status with
  | Throttled => exact ⟨rfl, rfl, rfl, rfl, rfl⟩
  | Timeout =>
    dsimp only
    rw [noteCheckTimeout]
    split_ifs <;> exact ⟨rfl, rfl, rfl, rfl, rfl⟩
  | Response | Error => exact sameIdentity_noteCheck check reply e

/-- The scan after the end of a feature check, before it learns from the response. -/
def conclude (c : Crawler) (q : Check) (reply : RpcReply) : Crawler :=
  let c := { c with
    checks := c.checks.erase q
    checked := c.checked ++ [CheckOutcome.mk q.born q.check reply.status]
    outstanding := c.outstanding - 1 }
  if !c.catalog.isCurrent q.ref then c
  else
    let c := c.edit q.ref.slot (noteChecked q.check reply)
    if (c.catalog.entryAt q.ref.slot).featuresDone then
      c.edit q.ref.slot (·.set .FeatureQueued false)
    else { c with features := c.features ++ [q.ref] }

theorem apply_featureReply (q : Check) (reply : RpcReply) :
    c.apply hash (.featureReply env q reply) =
      if c.catalog.isCurrent q.ref ∧ reply.status = .Response then
        (c.conclude q reply).learnFrom hash env q.ref reply
      else some (c.conclude q reply) := by
  rw [apply, onFeatureReply, conclude]
  dsimp only
  cases c.catalog.isCurrent q.ref with
  | true => simp only [Bool.not_true, Bool.false_eq_true, if_false, true_and]
  | false => simp only [Bool.not_false, if_true, Bool.false_eq_true, false_and, if_false]

/-- What the end of a feature check does. -/
structure Concluded (hash : CatalogKey → ℕ) (q : Check) (reply : RpcReply) (c c' : Crawler) :
    Prop where
  rewritten : Rewritten hash (fun _ _ => True) c.catalog c'.catalog
  entry : ∀ s, c.catalog.InUse s →
    let e := noteChecked q.check reply (c.catalog.entryAt s)
    c'.catalog.entryAt s = if c.catalog.ref s = q.ref then
      (if e.featuresDone then e.set .FeatureQueued false else e) else c.catalog.entryAt s
  features : c'.features = c.features ++
    if c.catalog.isCurrent q.ref ∧
      ¬(noteChecked q.check reply (c.catalog.entryAt q.ref.slot)).featuresDone then [q.ref] else []
  rest : c' = { c with
    catalog := c'.catalog
    features := c'.features
    checks := c.checks.erase q
    checked := c.checked ++ [⟨q.born, q.check, reply.status⟩]
    outstanding := c.outstanding - 1 }

theorem concluded_conclude (h : Invariant hash c.catalog) (q : Check) (reply : RpcReply) :
    Concluded hash q reply c (c.conclude q reply) := by
  let c₁ : Crawler := { c with
    checks := c.checks.erase q
    checked := c.checked ++ [CheckOutcome.mk q.born q.check reply.status]
    outstanding := c.outstanding - 1 }
  -- Only while the entry stays does the answer note anything in it.
  by_cases hr : c.catalog.isCurrent q.ref
  · have hs := (isCurrent_iff.1 hr).1
    have hedit : Noted hash q.ref.slot _ c.catalog
        (c₁.edit q.ref.slot (noteChecked q.check reply)).catalog :=
      noted_edit (c := c₁) h hs (sameIdentity_noteChecked q.check reply _)
    have hself : (c₁.edit q.ref.slot (noteChecked q.check reply)).catalog.entryAt q.ref.slot =
      noteChecked q.check reply (c.catalog.entryAt q.ref.slot) := hedit.self
    have hconclude : c.conclude q reply =
        if (noteChecked q.check reply (c.catalog.entryAt q.ref.slot)).featuresDone then
          (c₁.edit q.ref.slot (noteChecked q.check reply)).edit q.ref.slot
            (·.set .FeatureQueued false)
        else
          { c₁.edit q.ref.slot (noteChecked q.check reply) with
            features := c.features ++ [q.ref] } := by
      rw [← hself, conclude, if_neg (by simpa using hr)]
      rfl
    rw [hconclude]
    -- Either nothing is left to be checked, or the entry waits for its next check.
    by_cases hdone : (noteChecked q.check reply (c.catalog.entryAt q.ref.slot)).featuresDone
    · rw [if_pos hdone]
      have hset := hedit.trans (noted_edit (f := (·.set .FeatureQueued false))
        hedit.rewritten.invariant (hedit.inUse hs) (sameIdentity_set _ _ _))
      rw [hself] at hset
      refine ⟨hset.rewritten, fun s _ => ?_, ?_, rfl⟩
      · dsimp only
        rw [hset.entryAt hr]
        by_cases heq : c.catalog.ref s = q.ref
        · rw [if_pos heq, if_pos heq, show s = q.ref.slot from congrArg CatalogRef.slot heq,
            if_pos hdone]
        · rw [if_neg heq, if_neg heq]
      · rw [if_neg fun hboth => hboth.2 hdone, append_nil]
        rfl
    · rw [if_neg hdone]
      refine ⟨hedit.rewritten, fun s _ => ?_, ?_, rfl⟩
      · dsimp only
        rw [hedit.entryAt hr]
        by_cases heq : c.catalog.ref s = q.ref
        · rw [if_pos heq, if_pos heq, show s = q.ref.slot from congrArg CatalogRef.slot heq,
            if_neg hdone]
        · rw [if_neg heq, if_neg heq]
      · rw [if_pos ⟨hr, hdone⟩]
  · have hconclude : c.conclude q reply = c₁ := if_pos (by simpa using hr)
    rw [hconclude]
    refine ⟨.refl h fun _ => trivial, fun s hs => ?_, ?_, rfl⟩
    · dsimp only
      rw [if_neg]
      rintro heq
      exact hr (heq ▸ isCurrent_iff.2 ⟨hs, rfl⟩)
    · rw [if_neg fun hboth => hr hboth.1, append_nil]

/-! ## Stages -/

/-- A stage of what happens to the scan. -/
inductive Stage (hash : CatalogKey → ℕ) (present : Family → Bool) (c : Crawler) : Crawler → Prop
  | listed {c' : Crawler} (h : Listed hash present c c') : Stage hash present c c'
  | moved {c' : Crawler} (h : Moved hash present [] c c') : Stage hash present c c'
  | dropped {r : CatalogRef} {rest : List CatalogRef} (hqueue : c.features = r :: rest)
    (hr : c.catalog.isCurrent r = false) :
    Stage hash present c { c with features := rest }
  /-- It is queued again when it next answers. -/
  | unqueued {r : CatalogRef} {rest : List CatalogRef} (hqueue : c.features = r :: rest)
    (hr : c.catalog.isCurrent r) :
    Stage hash present c
      ({ c with features := rest }.edit r.slot (·.set .FeatureQueued false))
  | rotated {r : CatalogRef} {rest : List CatalogRef} (hqueue : c.features = r :: rest) :
    Stage hash present c { c with features := rest ++ [r] }
  | checked {r : CatalogRef} {rest : List CatalogRef} (hqueue : c.features = r :: rest)
    (hr : c.catalog.isCurrent r) (hstate : (c.catalog.entryAt r.slot).state = .Responsive)
    (hdone : (c.catalog.entryAt r.slot).featuresDone = false) :
    Stage hash present c ({ c with features := rest }.askFeature r.slot)
  | settled {env : Outside} {q : Query} {reply : RpcReply} {c' : Crawler} (hq : q ∈ c.scans)
    (h : Settled hash env q reply c c') :
    Stage hash present c c'
  | concluded {q : Check} {reply : RpcReply} {c' : Crawler} (hq : q ∈ c.checks)
    (h : Concluded hash q reply c c') :
    Stage hash present c c'

/-- Some stages, one after the other. -/
abbrev Stages (hash : CatalogKey → ℕ) (present : Family → Bool) : Crawler → Crawler → Prop :=
  Relation.ReflTransGen (Stage hash present)

/-- A stage in which no query ends. -/
def Quiet (hash : CatalogKey → ℕ) (present : Family → Bool) (c c' : Crawler) : Prop :=
  Stage hash present c c' ∧ c'.outcomes = c.outcomes

/-- Any number of quiet steps. -/
abbrev Quiets (hash : CatalogKey → ℕ) (present : Family → Bool) : Crawler → Crawler → Prop :=
  Relation.ReflTransGen (Quiet hash present)

theorem Quiets.stages (h : Quiets hash present c c') : Stages hash present c c' :=
  Relation.ReflTransGen.mono (fun _ _ => And.left) _ _ h

theorem quiet_listed (h : Listed hash present c c') : Quiet hash present c c' :=
  ⟨.listed h, congrArg Ledger.outcomes h.ledger⟩

theorem quiet_moved (h : Moved hash present [] c c') : Quiet hash present c c' :=
  ⟨.moved h, congrArg Aside.outcomes h.aside⟩

theorem noted_unqueued (h : Invariant hash c.catalog) (hr : c.catalog.isCurrent r)
    (rest : List CatalogRef) :
    Noted hash r.slot ((c.catalog.entryAt r.slot).set .FeatureQueued false) c.catalog
      ({ c with features := rest }.edit r.slot (·.set .FeatureQueued false)).catalog :=
  noted_edit (c := { c with features := rest }) (f := (·.set .FeatureQueued false)) h
    (isCurrent_iff.1 hr).1 (sameIdentity_set _ _ _)

theorem Stage.passage (h : Stage hash present c c') (hinv : Invariant hash c.catalog) :
    Passage hash c.catalog c'.catalog ∧ Invariant hash c'.catalog := by
  cases h with
  | listed h => exact ⟨h.passage, h.invariant⟩
  | moved h => exact ⟨h.catalog.passage, h.catalog.invariant⟩
  | dropped | rotated | checked => exact ⟨.refl, hinv⟩
  | unqueued hqueue hr =>
    rename_i r rest
    have hnoted := (noted_unqueued hinv hr rest).rewritten
    exact ⟨hnoted.passage, hnoted.invariant⟩
  | settled _ h => exact ⟨h.rewritten.passage, h.rewritten.invariant⟩
  | concluded _ h => exact ⟨h.rewritten.passage, h.rewritten.invariant⟩

theorem Stages.passage (h : Stages hash present c c') (hinv : Invariant hash c.catalog) :
    Passage hash c.catalog c'.catalog ∧ Invariant hash c'.catalog := by
  induction h with
  | refl => exact ⟨.refl, hinv⟩
  | tail _ hstage ih =>
    obtain ⟨hpassage, hinv'⟩ := hstage.passage ih.2
    exact ⟨ih.1.trans hpassage, hinv'⟩

/-! ## What happens is made of stages -/

theorem quiets_dispatchFeatures (h : Invariant hash c.catalog) (scan budget : ℕ) :
    Quiets hash present c (dispatchFeatures env scan budget c).1 := by
  induction scan generalizing c budget with
  | zero => exact .refl
  | succ scan ih =>
    rw [dispatchFeatures.eq_def]
    dsimp only
    cases hqueue : c.features with
    | nil => exact .refl
    | cons r rest =>
      cases budget with
      | zero => exact .refl
      | succ budget =>
        dsimp only
        split_ifs with hr hskip hbusy
        · have hstage : Stage hash present c _ := .dropped hqueue (by simpa using hr)
          exact .head ⟨hstage, rfl⟩ (ih (c := { c with features := rest }) h _)
        · have hr : c.catalog.isCurrent r := by simpa using hr
          have hstage : Stage hash present c _ := .unqueued hqueue hr
          exact .head ⟨hstage, rfl⟩ (ih (hstage.passage h).2 _)
        · have hstage : Stage hash present c _ := .rotated hqueue
          exact .head ⟨hstage, rfl⟩ (ih (c := { c with features := rest ++ [r] }) h _)
        · have hr : c.catalog.isCurrent r := by simpa using hr
          push Not at hskip
          have hstage : Stage hash present c _ :=
            .checked hqueue hr hskip.1 (Bool.eq_false_of_not_eq_true hskip.2.1)
          exact .head ⟨hstage, rfl⟩ (ih (hstage.passage h).2 _)

theorem quiets_dispatch (h : Invariant hash c.catalog)
    (hpresent : ∀ family, (env.nodeId family).isSome = present family) :
    Quiets hash present c (c.dispatch env) := by
  let scanShare := c.batch - max 1 (c.batch / FeatureShareDivisor)
  have hdeferred : Quiets hash present c
      (if env.backlogged c.outstanding then (c, 0)
      else dispatchDeferred env (min c.deferred.length DeferredScanPerTick)
      scanShare.toNat c).1 := by
    split_ifs
    · exact .refl
    · exact .single (quiet_moved (moved_dispatchDeferred h _ _))
  rw [dispatch]
  dsimp only
  generalize (if env.backlogged c.outstanding then (c, 0)
    else dispatchDeferred env (min c.deferred.length DeferredScanPerTick) scanShare.toNat c) = p₁
    at hdeferred ⊢
  obtain ⟨c₁, sent⟩ := p₁
  have h₁ := (hdeferred.stages.passage h).2
  have hnext := moved_dispatchUpTo h₁ hpresent (scanShare - sent).toNat
  dsimp only
  generalize dispatchUpTo env (scanShare - sent).toNat c₁ = p₂ at hnext ⊢
  obtain ⟨c₂, next⟩ := p₂
  have h₂ := hnext.catalog.invariant
  have hfeatures : Quiets hash present c₂
      (if env.backlogged c₂.outstanding then (c₂, 0)
      else dispatchFeatures env (min c₂.features.length DeferredScanPerTick)
        (c₂.batch - (sent + next : ℕ)).toNat c₂).1 := by
    split_ifs
    · exact .refl
    · exact quiets_dispatchFeatures h₂ _ _
  dsimp only
  generalize (if env.backlogged c₂.outstanding then (c₂, 0)
    else dispatchFeatures env (min c₂.features.length DeferredScanPerTick)
      (c₂.batch - (sent + next : ℕ)).toNat c₂) = p₃ at hfeatures ⊢
  obtain ⟨c₃, checks⟩ := p₃
  have h₃ := (hfeatures.stages.passage h₂).2
  have hlast := moved_dispatchUpTo h₃ hpresent (c₃.batch - (sent + next + checks : ℕ)).toNat
  generalize dispatchUpTo env (c₃.batch - (sent + next + checks : ℕ)).toNat c₃ = p₄ at hlast ⊢
  obtain ⟨c₄, last⟩ := p₄
  have h₄ := hlast.catalog.invariant
  refine (hdeferred.tail (quiet_moved hnext)).trans ((hfeatures.tail (quiet_moved hlast)).tail ?_)
  exact quiet_listed (listed_of_rewritten (c := c₄) (.refl h₄ Untouched.refl) rfl rfl)

theorem quiets_tick (h : Invariant hash c.catalog)
    (hpresent : ∀ family, (env.nodeId family).isSome = present family) :
    ∃ c', c.tick hash env = some c' ∧ Quiets hash present c c' := by
  have hpace : Listed hash present c (c.pace env) :=
    listed_of_rewritten (.refl h .refl) rfl rfl
  obtain ⟨catalog, htrim, htrimmed⟩ : ∃ catalog, _ ∧
    Listed hash present (c.pace env) { c.pace env with catalog } :=
      listed_trim hpace.invariant env.trimDraw TrimPerTick
  obtain ⟨c₁, hreplenish, hreplenished⟩ := replenish_spec htrimmed.invariant hpresent
  have hlisted := (hpace.trans htrimmed).trans hreplenished
  have hdispatch := quiets_dispatch hlisted.invariant hpresent
  have h₂ := (hdispatch.stages.passage hlisted.invariant).2
  rw [tick]
  dsimp only
  rw [htrim, Option.bind_some, hreplenish, Option.bind_some]
  split_ifs
  · obtain ⟨c', hestimate, hestimated⟩ := estimateSize_spec
      (c := { c₁.dispatch env with
        nextEstimateMs := env.now + (c₁.dispatch env).config.sizeEstimateIntervalMs }) h₂ hpresent
    exact ⟨c', hestimate, (hdispatch.head (quiet_listed hlisted)).tail
      (quiet_listed (hestimated.congr rfl rfl rfl))⟩
  · exact ⟨_, rfl, hdispatch.head (quiet_listed hlisted)⟩

/-- What happens to the scan, but for the end of a query, is made of such stages. -/
theorem quiets_apply (h : Invariant hash c.catalog) {event : Event}
    (hlegal : c.Legal present event) (hevent : ∀ env q reply, event ≠ .reply env q reply) :
    ∃ c', c.apply hash event = some c' ∧ Quiets hash present c c' := by
  cases event with
  | setMonitoring env on =>
    have hpresent := hlegal.1 env rfl
    rw [apply, setMonitoring]
    dsimp only
    split_ifs
    · exact ⟨c, rfl, .refl⟩
    · obtain ⟨c', hseed, hlisted⟩ := seed_spec (c := { c with
        monitoring := on, batch := 16, lastSendFailures := env.sendFailures }) h hpresent
      exact ⟨c', hseed, .single (quiet_listed (hlisted.congr rfl rfl rfl))⟩
    · have hlisted : Listed hash present c { c with monitoring := on } :=
        listed_of_rewritten (.refl h .refl) rfl rfl
      exact ⟨_, rfl, .single (quiet_listed hlisted)⟩
  | tick env => exact quiets_tick h (hlegal.1 env rfl)
  | reply env q reply => exact absurd rfl (hevent env q reply)
  | featureReply env q reply =>
    have hconcluded := concluded_conclude h q reply
    have hstage : Stage hash present c _ := .concluded hlegal.2 hconcluded
    have houtcomes : (c.conclude q reply).outcomes = c.outcomes :=
      (congrArg outcomes hconcluded.rest).trans rfl
    rw [apply_featureReply]
    split_ifs
    · obtain ⟨c', hlearn, hlisted⟩ :=
        learnFrom_spec (hstage.passage h).2 (hlegal.1 env rfl) q.ref reply
      exact ⟨c', hlearn, .head ⟨hstage, houtcomes⟩ (.single (quiet_listed hlisted))⟩
    · exact ⟨_, rfl, .single ⟨hstage, houtcomes⟩⟩
  | lookup env kind family result =>
    obtain ⟨c', hlookup, hlisted⟩ := onLookup_spec
      (c := { c with lookups := c.lookups.erase (kind, family) }) h (hlegal.1 env rfl) kind family
      result
    exact ⟨c', hlookup, .single (quiet_listed (hlisted.congr rfl rfl rfl))⟩
  | setCap draw cap =>
    have hcap : Listed hash present c { c with catalog := c.catalog.setCap cap } := by
      refine listed_of_rewritten ⟨?_, fun _ => Iff.rfl, fun _ _ => .refl _, fun _ => rfl,
        fun _ => rfl, rfl, rfl⟩ rfl rfl
      obtain ⟨_, happly, h', -⟩ := h.apply (.setCap cap) trivial
      exact Option.some.inj happly ▸ h'
    rw [apply]
    dsimp only
    split_ifs
    · exact ⟨_, rfl, .single (quiet_listed hcap)⟩
    · obtain ⟨catalog, htrim, htrimmed⟩ : ∃ catalog, _ ∧
        Listed hash present { c with catalog := c.catalog.setCap cap } _ :=
          listed_trim hcap.invariant draw NodeCatalog.MaxCap
      exact ⟨_, by rw [htrim, Option.map_some], .single (quiet_listed (hcap.trans htrimmed))⟩

/-- What happens when a query ends: it is settled, and then something may be learned. -/
theorem settled_apply (h : Invariant hash c.catalog) {q : Query} {reply : RpcReply}
    (hlegal : c.Legal present (.reply env q reply)) :
    ∃ c', c.apply hash (.reply env q reply) = some c' ∧ q ∈ c.scans ∧
      Settled hash env q reply c (c.settle env q reply) ∧
      Listed hash present (c.settle env q reply) c' := by
  have hsettled : Settled hash env q reply c (c.settle env q reply) :=
    settled_settle h hlegal.2 reply
  rw [apply_reply]
  split_ifs
  · obtain ⟨c', hlearn, hlisted⟩ :=
      learnFrom_spec hsettled.rewritten.invariant (hlegal.1 env rfl) q.ref reply
    exact ⟨c', hlearn, hlegal.2, hsettled, hlisted⟩
  · exact ⟨_, rfl, hlegal.2, hsettled, .refl hsettled.rewritten.invariant⟩

/-- What happens to the scan has a result, and is made of stages. -/
theorem stages_apply (h : Invariant hash c.catalog) {event : Event}
    (hlegal : c.Legal present event) :
    ∃ c', c.apply hash event = some c' ∧ Stages hash present c c' := by
  by_cases hevent : ∃ env q reply, event = .reply env q reply
  · obtain ⟨env, q, reply, rfl⟩ := hevent
    obtain ⟨c', happly, hq, hsettled, hlisted⟩ := settled_apply h hlegal
    exact ⟨c', happly, .head (.settled hq hsettled) (.single (.listed hlisted))⟩
  · push Not at hevent
    obtain ⟨c', happly, hquiets⟩ := quiets_apply h hlegal hevent
    exact ⟨c', happly, hquiets.stages⟩

theorem stages_step (h : Invariant hash c.catalog) (hstep : c.Step hash present c') :
    Stages hash present c c' := by
  obtain ⟨event, hlegal, happly⟩ := hstep
  obtain ⟨c₁, hresult, hstages⟩ := stages_apply h hlegal
  rw [happly, Option.some.injEq] at hresult
  exact hresult ▸ hstages

theorem stages_steps (h : Invariant hash c.catalog)
    (hsteps : Relation.ReflTransGen (Step hash present) c c') : Stages hash present c c' := by
  induction hsteps with
  | refl => exact .refl
  | tail _ hstep ih => exact ih.trans (stages_step (ih.passage h).2 hstep)

end Dht.Crawler
