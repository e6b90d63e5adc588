import DhtCore.Crawler.Basic
import DhtCore.NodeCatalog.Flags

/-!
# What listing nodes does to the scan

The nodes that others list, that lookups find and that our routing tables hold come into the
catalogue one by one, in place of others if it is full (`Listed`): each new one is queued as
fresh once, unless it cannot be reached, and what the scan knows of those that stay does not
change (`Untouched`).
-/

namespace Dht.Crawler

open List NodeCatalog

/-! ## Entries -/

/-- What neither listing a node nor asking it changes. -/
structure SameStanding (e e' : CatalogEntry) : Prop where
  family : e'.family = e.family
  state : e'.state = e.state
  failures : e'.failures = e.failures
  lastAnswered : e'.lastAnswered = e.lastAnswered
  answeringSince : e'.answeringSince = e.answeringSince
  has : ∀ f, f ≠ .ListsBogons → f ≠ .InventsPeers → e'.has f = e.has f
  featureTries : e'.featureTries = e.featureTries
  invents : e.has .InventsPeers → e'.has .InventsPeers

theorem SameStanding.refl (e : CatalogEntry) : SameStanding e e :=
  ⟨rfl, rfl, rfl, rfl, rfl, fun _ _ _ => rfl, rfl, id⟩

theorem SameStanding.trans {e e' e'' : CatalogEntry} (h : SameStanding e e')
    (h' : SameStanding e' e'') : SameStanding e e'' where
  family := h'.family.trans h.family
  state := h'.state.trans h.state
  failures := h'.failures.trans h.failures
  lastAnswered := h'.lastAnswered.trans h.lastAnswered
  answeringSince := h'.answeringSince.trans h.answeringSince
  has f hb hi := (h'.has f hb hi).trans (h.has f hb hi)
  featureTries := h'.featureTries.trans h.featureTries
  invents := h'.invents ∘ h.invents

/-- What listing a node does not change. -/
structure Untouched (e e' : CatalogEntry) : Prop extends SameStanding e e' where
  lastQueried : e'.lastQueried = e.lastQueried

theorem Untouched.refl (e : CatalogEntry) : Untouched e e := ⟨.refl e, rfl⟩

theorem Untouched.trans {e e' e'' : CatalogEntry} (h : Untouched e e') (h' : Untouched e' e'') :
    Untouched e e'' :=
  ⟨h.toSameStanding.trans h'.toSameStanding, h'.lastQueried.trans h.lastQueried⟩

theorem untouched_set {f : CatalogFlag} {on : Bool} (e : CatalogEntry)
    (hf : f = .ListsBogons ∨ f = .InventsPeers ∧ on = true) : Untouched e (e.set f on) where
  lastQueried := rfl
  family := rfl
  state := rfl
  failures := rfl
  lastAnswered := rfl
  answeringSince := rfl
  has g hb hi := by
    rw [CatalogEntry.has_set, if_neg]
    rintro rfl
    rcases hf with hf | ⟨hf, -⟩
    · exact hb hf
    · exact hi hf
  featureTries := CatalogEntry.featureTries_set e f on
  invents he := by
    rw [CatalogEntry.has_set]
    rcases hf with rfl | ⟨rfl, rfl⟩
    · exact he
    · rfl

theorem untouched_noteListed (allowLocal : Bool) (listed : List Krpc.CompactNode)
    (e : CatalogEntry) : Untouched e (noteListed allowLocal listed e) := by
  rw [noteListed]
  dsimp only
  refine Untouched.trans ?_ (untouched_set _ (.inl rfl))
  split_ifs
  · exact ⟨⟨rfl, rfl, rfl, rfl, rfl, fun _ _ _ => rfl, rfl, id⟩, rfl⟩
  · exact .refl e

/-- An entry that was never asked. -/
structure Pristine (present : Family → Bool) (e : CatalogEntry) : Prop where
  state : e.state = .Unroutable ∨ e.state = .New ∧ e.failures = 0 ∧ present e.family
  lastAnswered : e.lastAnswered = 0
  answeringSince : e.answeringSince = 0
  has : ∀ f, f ≠ .ListsBogons → f ≠ .InventsPeers → e.has f = false
  featureTries : e.featureTries = 0

theorem Pristine.congr {present : Family → Bool} {e e' : CatalogEntry} (h : Pristine present e)
    (hsame : SameStanding e e') : Pristine present e' where
  state := by
    rw [hsame.state, hsame.failures, hsame.family]
    exact h.state
  lastAnswered := hsame.lastAnswered.trans h.lastAnswered
  answeringSince := hsame.answeringSince.trans h.answeringSince
  has f hb hi := (hsame.has f hb hi).trans (h.has f hb hi)
  featureTries := hsame.featureTries.trans h.featureTries

/-! ## The scan -/

/-- What listing nodes does not touch. -/
structure Ledger where
  config : CrawlConfig
  retry : List CatalogRef
  revisit : List CatalogRef
  revisitSilent : List CatalogRef
  deferred : List Deferred
  features : List CatalogRef
  outstanding : ℤ
  queries : ℤ
  answers : ℤ
  errors : ℤ
  timeouts : ℤ
  notSent : ℤ
  scans : List Query
  checks : List Check
  outcomes : List Outcome
  checked : List CheckOutcome
  asked : List CatalogRef

/-- What is kept when nodes are only listed. -/
def ledger (c : Crawler) : Ledger where
  config := c.config
  retry := c.retry
  revisit := c.revisit
  revisitSilent := c.revisitSilent
  deferred := c.deferred
  features := c.features
  outstanding := c.outstanding
  queries := c.queries
  answers := c.answers
  errors := c.errors
  timeouts := c.timeouts
  notSent := c.notSent
  scans := c.scans
  checks := c.checks
  outcomes := c.outcomes
  checked := c.checked
  asked := c.asked

/-- What is in the catalogue: what was there and has not gone, and new entries, of which those
    that can be reached are `added` once. -/
structure Entered (present : Family → Bool) (c c' : NodeCatalog) (added : List CatalogRef) :
    Prop where
  new : ∀ r ∈ added, c.insertions < r.generation.toNat ∧ r.generation.toNat ≤ c'.insertions
  entry : ∀ s, c'.InUse s →
    (c.InUse s ∧ c'.ref s = c.ref s ∧ Untouched (c.entryAt s) (c'.entryAt s)) ∨
    (c.insertions < (c'.entryAt s).generation.toNat ∧ Pristine present (c'.entryAt s) ∧
      added.count (c'.ref s) = if (c'.entryAt s).state = .Unroutable then 0 else 1)

/-- Nodes were listed. -/
structure Listed (hash : CatalogKey → ℕ) (present : Family → Bool) (c c' : Crawler) : Prop where
  invariant : Invariant hash c'.catalog
  passage : Passage hash c.catalog c'.catalog
  ledger : c'.ledger = c.ledger
  fresh : ∃ added, c'.fresh = c.fresh ++ added ∧
    (c.catalog.Numbered → c'.catalog.insertions < 2 ^ 32 →
      Entered present c.catalog c'.catalog added)

variable {hash : CatalogKey → ℕ} {present : Family → Bool} {env : Outside} {c c' c'' : Crawler}
  {slot : ℕ}

/-- Of a scan whose catalogue was only written to. -/
theorem listed_of_rewritten (h : Rewritten hash Untouched c.catalog c'.catalog)
    (hledger : c'.ledger = c.ledger) (hfresh : c'.fresh = c.fresh) : Listed hash present c c' where
  invariant := h.invariant
  passage := h.passage
  ledger := hledger
  fresh := by
    refine ⟨[], by rw [hfresh, append_nil], fun hnum hlt => ⟨by simp, fun s hs => .inl ?_⟩⟩
    have hs := (h.inUse s).1 hs
    exact ⟨hs, h.ref s, h.entry s hs⟩

theorem Listed.refl (h : Invariant hash c.catalog) : Listed hash present c c :=
  listed_of_rewritten (.refl h .refl) rfl rfl

theorem Listed.trans (h : Listed hash present c c') (h' : Listed hash present c' c'') :
    Listed hash present c c'' where
  invariant := h'.invariant
  passage := h.passage.trans h'.passage
  ledger := h'.ledger.trans h.ledger
  fresh := by
    obtain ⟨added, hfresh, hentered⟩ := h.fresh
    obtain ⟨added', hfresh', hentered'⟩ := h'.fresh
    refine ⟨added ++ added', by rw [hfresh', hfresh, append_assoc], fun hnum hlt => ?_⟩
    have hnum' := h.passage.changes.numbered hnum
    have hle := h.passage.changes.insertions_le
    have hle' := h'.passage.changes.insertions_le
    have hent := hentered hnum (hle'.trans_lt hlt)
    have hent' := hentered' hnum' hlt
    refine ⟨fun r hr => ?_, fun s hs => ?_⟩
    · rcases mem_append.1 hr with hr | hr
      · have hadded := hent.new r hr
        omega
      · have hadded := hent'.new r hr
        omega
    · rw [count_append]
      -- Each is counted where it was added: in the second part, in the first, or in neither.
      rcases hent'.entry s hs with ⟨hs', href, hsame⟩ | ⟨hnew, hpristine, hcount⟩
      · rcases hent.entry s hs' with ⟨hs'', href', hsame'⟩ | ⟨hnew, hpristine, hcount⟩
        · exact .inl ⟨hs'', href.trans href', hsame'.trans hsame⟩
        · -- What came first is not added again.
          refine .inr ⟨?_, hpristine.congr hsame.toSameStanding, ?_⟩
          · have hgen : (c''.catalog.entryAt s).generation = (c'.catalog.entryAt s).generation :=
              congrArg CatalogRef.generation href
            rwa [hgen]
          · have hold : (c'.catalog.ref s).generation.toNat ≤ c'.catalog.insertions :=
              (hnum' (hle'.trans_lt hlt)).1 s hs'
            have hzero : added'.count (c'.catalog.ref s) = 0 := count_eq_zero.2 fun hin => by
              have hadded := (hent'.new _ hin).1
              omega
            rw [href, hzero, hcount, hsame.state, add_zero]
      · -- What comes in the second part was not added in the first.
        refine .inr ⟨hle.trans_lt hnew, hpristine, ?_⟩
        have hzero : added.count (c''.catalog.ref s) = 0 := count_eq_zero.2 fun hin => by
          have hadded := (hent.new _ hin).2
          have hnew : c'.catalog.insertions < (c''.catalog.ref s).generation.toNat := hnew
          omega
        rw [hzero, hcount, zero_add]

/-- Writing to an entry what does not change its standing. -/
theorem listed_edit (h : Invariant hash c.catalog) (hs : c.catalog.InUse slot)
    {f : CatalogEntry → CatalogEntry} (hf : Untouched (c.catalog.entryAt slot)
      (f (c.catalog.entryAt slot)))
    (hkey : (f (c.catalog.entryAt slot)).key = c.catalog.keyAt slot)
    (huse : (f (c.catalog.entryAt slot)).inUse = (c.catalog.entryAt slot).inUse)
    (hgen : (f (c.catalog.entryAt slot)).generation = (c.catalog.entryAt slot).generation) :
    Listed hash present c (c.edit slot f) := by
  obtain ⟨h', hspec⟩ := h.edit hs hkey (huse.trans hs.2) hf.state
  exact listed_of_rewritten (hspec.rewritten h' hgen .refl hf) rfl rfl

/-- Two writes to an entry are one. -/
theorem edit_edit (hs : c.catalog.InUse slot) (f g : CatalogEntry → CatalogEntry) :
    (c.edit slot f).edit slot g = c.edit slot (g ∘ f) := by
  rw [edit, edit, edit]
  dsimp only
  rw [entryAt_setEntry, if_pos ⟨rfl, hs.1⟩, setEntry, setEntry, set_set]
  rfl

/-! ## Learning -/

theorem untouched_noteSeen (stamp : UInt32) (e : CatalogEntry) :
    Untouched e (noteSeen stamp e) :=
  ⟨⟨rfl, rfl, rfl, rfl, rfl, fun _ _ _ => rfl, rfl, id⟩, rfl⟩

/-- The entry that a new node gets. -/
theorem Entered.of_placed {present : Family → Bool} {d d₁ d₂ d' : NodeCatalog}
    {key : CatalogKey} {now : ℤ} {added : List CatalogRef}
    (hnum : d.Numbered) (hlt : d'.insertions < 2 ^ 32) (hchanges : Changes hash d d₁)
    (hshrunk : Shrunk d d₁) (hins : d₁.insertions = d.insertions)
    (hplaced : Placed d₁ key now d₂ slot) (hwritten : Rewritten hash (fun _ _ => True) d₂ d')
    (hother : ∀ s, s ≠ slot → d'.entryAt s = d₂.entryAt s)
    (hpristine : Pristine present (d'.entryAt slot))
    (hadded : added = if (d'.entryAt slot).state = .Unroutable then [] else [d'.ref slot]) :
    Entered present d d' added := by
  have hins₂ := insertions_append hplaced.history
  simp only [isInsertion_inserted, ↓reduceIte] at hins₂
  have hins' := hwritten.insertions
  -- The new entry has the next generation, which no other one has.
  have hgen : (d'.entryAt slot).generation.toNat = d.insertions + 1 := by
    rw [hwritten.generation, hplaced.entryAt_self]
    have hnext := (hchanges.numbered hnum (by omega)).2 (by omega)
    rw [hins] at hnext
    exact hnext
  refine ⟨fun r hr => ?_, fun s hs => ?_⟩
  · have hr : r = d'.ref slot := by
      rw [hadded] at hr
      split_ifs at hr
      · exact absurd hr not_mem_nil
      · exact mem_singleton.1 hr
    have hgen : r.generation.toNat = d.insertions + 1 := hr ▸ hgen
    omega
  · by_cases hsl : s = slot
    · subst hsl
      refine .inr ⟨by omega, hpristine, ?_⟩
      rw [hadded]
      split_ifs
      · rfl
      · exact count_singleton_self
    · refine .inl ?_
      have hs₂ := (hplaced.inUse s).1 ((hwritten.inUse s).1 hs)
      have hold := hshrunk s (hs₂.resolve_left hsl)
      have hentry : d'.entryAt s = d.entryAt s :=
        ((hother s hsl).trans (hplaced.entryAt s hsl)).trans hold.2
      exact ⟨hold.1, by rw [NodeCatalog.ref, NodeCatalog.ref, hentry], hentry ▸ .refl _⟩

/-- Whether an address is one at all, and not `::`. -/
def Specified (address : HostAddress) : Prop := address ≠ .null ∧ address ≠ .ipv6 0

theorem family_of_key {e : CatalogEntry} {endpoint : Endpoint} (hkey : e.key = endpoint.catalogKey)
    (hspecified : Specified endpoint.address) : e.family = endpoint.family := by
  have haddress : e.address = endpoint.catalogKey.address := congrArg CatalogKey.address hkey
  rw [CatalogEntry.family, CatalogEntry.isIPv4, haddress, Endpoint.family]
  obtain ⟨address, port⟩ := endpoint
  cases address with
  | null => exact absurd rfl hspecified.1
  | ipv4 a =>
    have hmapped : CatalogEntry.isMappedV4 (HostAddress.mappedPrefix ++ a) := by
      rw [CatalogEntry.isMappedV4, decide_eq_true_eq]
      exact BitVec.extractLsb'_append_eq_left
    exact if_pos hmapped
  | ipv6 a =>
    have hzero : a ≠ 0 := fun h => hspecified.2 (congrArg HostAddress.ipv6 h)
    rw [familyOf]
    by_cases hmapped : a.extractLsb' 32 96 = HostAddress.mappedPrefix
    · rw [normalizeAddress_mapped hmapped]
      exact if_pos (decide_eq_true hmapped)
    · rw [normalizeAddress_ipv6 hmapped hzero]
      exact if_neg fun h => hmapped (of_decide_eq_true h)

/-- What a new node is given: its identifier, and a place in the queue if it can be reached. -/
theorem welcome_spec (h : Invariant hash c.catalog) (hs : c.catalog.InUse slot)
    (listed : Krpc.CompactNode) :
    ∃ e, Rewritten hash (fun _ _ => True) c.catalog (c.welcome slot listed).catalog ∧
      (∀ s, s ≠ slot → (c.welcome slot listed).catalog.entryAt s = c.catalog.entryAt s) ∧
      (c.welcome slot listed).catalog.entryAt slot = e ∧
      e = { c.catalog.entryAt slot with
        id := listed.id, state := e.state, failures := e.failures } ∧
      (c.welcome slot listed).ledger = c.ledger ∧
      (e.state = .Unroutable ∧ (c.welcome slot listed).fresh = c.fresh ∨
        e.state = (c.catalog.entryAt slot).state ∧ e.failures = (c.catalog.entryAt slot).failures ∧
        Specified listed.endpoint.address ∧
        (c.welcome slot listed).fresh = c.fresh ++ [c.catalog.ref slot]) := by
  let problem := addressProblem listed.endpoint c.config.allowLocalAddresses
  -- A node that cannot be reached is noted as unroutable, and not queued.
  by_cases hproblem : problem ≠ .None
  · obtain ⟨h₁, hwrite₁⟩ := h.edit hs (e := { c.catalog.entryAt slot with
      id := listed.id, failures := problem.toByte }) rfl hs.2 rfl
    obtain ⟨h₂, hwrite₂⟩ := h₁.setState ((hwrite₁.inUse slot).2 hs) .Unroutable
    have heq : c.welcome slot listed =
        { c with
          catalog := (c.catalog.setEntry slot { c.catalog.entryAt slot with
            id := listed.id, failures := problem.toByte }).setState slot .Unroutable } := by
      rw [welcome]
      refine (if_pos hproblem).trans ?_
      rw [edit_edit hs]
      rfl
    rw [heq]
    refine ⟨_, (hwrite₁.rewritten h₁ rfl (fun _ => trivial) trivial).trans
      (hwrite₂.rewritten h₂ rfl (fun _ => trivial) trivial) fun _ _ _ _ _ => trivial,
      fun s hs => (hwrite₂.entryAt s hs).trans (hwrite₁.entryAt s hs), hwrite₂.entryAt_self, ?_,
      rfl, .inl ⟨rfl, rfl⟩⟩
    rw [hwrite₁.entryAt_self]
  · obtain ⟨h₁, hwrite₁⟩ := h.edit hs (e := { c.catalog.entryAt slot with id := listed.id }) rfl
      hs.2 rfl
    have hrewritten := hwrite₁.rewritten (P := fun _ _ => True) h₁ rfl (fun _ => trivial) trivial
    have heq : c.welcome slot listed =
        { c with
          catalog := c.catalog.setEntry slot { c.catalog.entryAt slot with id := listed.id }
          fresh := c.fresh ++ [c.catalog.ref slot] } := by
      rw [welcome]
      refine (if_neg hproblem).trans ?_
      rw [← hrewritten.ref slot]
      rfl
    rw [heq]
    refine ⟨_, hrewritten, hwrite₁.entryAt, hwrite₁.entryAt_self, rfl, rfl,
      .inr ⟨rfl, rfl, ⟨fun hnull => hproblem ?_, fun hzero => hproblem ?_⟩, rfl⟩⟩
    · have hunspecified : problem = .Unspecified := by
        simp only [problem, addressProblem, hnull]
        rfl
      rw [hunspecified]
      simp
    · have hunspecified : problem = .Unspecified := by
        simp only [problem, addressProblem, hzero]
        rfl
      rw [hunspecified]
      simp

/-- An entry is pristine that was just made, noted and welcomed. -/
theorem Pristine.of_placed {present : Family → Bool} {d₁ d₂ : NodeCatalog} {key : CatalogKey}
    {now : ℤ} {stamp : UInt32} {id : NodeId} {e : CatalogEntry}
    (hplaced : Placed d₁ key now d₂ slot)
    (he : e = { noteSeen stamp (d₂.entryAt slot) with
      id, state := e.state, failures := e.failures })
    (hstate : e.state = .Unroutable ∨ e.state = (noteSeen stamp (d₂.entryAt slot)).state ∧
      e.failures = (noteSeen stamp (d₂.entryAt slot)).failures ∧
      present (d₂.entryAt slot).family) : Pristine present e := by
  have hplacedAt := hplaced.entryAt_self
  have hflags : e.flags = 0 := (congrArg CatalogEntry.flags he).trans (by
    rw [noteSeen, hplacedAt])
  refine ⟨?_, (congrArg CatalogEntry.lastAnswered he).trans (by rw [noteSeen, hplacedAt]),
    (congrArg CatalogEntry.answeringSince he).trans (by rw [noteSeen, hplacedAt]),
    fun f _ _ => ?_, ?_⟩
  · rcases hstate with hstate | ⟨hstate, hfailures, hfamily⟩
    · exact .inl hstate
    · refine .inr ⟨hstate.trans (by rw [noteSeen, hplacedAt]),
        hfailures.trans (by rw [noteSeen, hplacedAt]), ?_⟩
      have haddress : e.address = (d₂.entryAt slot).address :=
        (congrArg CatalogEntry.address he).trans rfl
      rwa [CatalogEntry.family, CatalogEntry.isIPv4, ← haddress] at hfamily
  · rw [CatalogEntry.has, hflags, UInt32.zero_and]
    rfl
  · rw [CatalogEntry.featureTries, hflags]
    decide

theorem learn_spec (h : Invariant hash c.catalog)
    (hpresent : ∀ family, (env.nodeId family).isSome = present family) (draw : ℕ → ℕ)
    (listed : Krpc.CompactNode) :
    ∃ c', c.learn hash env draw listed = some c' ∧ Listed hash present c c' := by
  rw [learn]
  -- Nodes of a family that is not run and our own identifiers are passed over.
  by_cases hskip : env.nodeId listed.endpoint.family = none ∨ isOwnId env listed.id
  · rw [if_pos hskip]
    exact ⟨c, rfl, .refl h⟩
  rw [if_neg hskip]
  rcases h.upsert_cases draw listed.endpoint env.now with
    -- It is known already, or there is no room for it; or else it is entered.
    ⟨s, hupsert, hs⟩ | ⟨d₁, d₂, s, hupsert, h₂, hchanges, hchange, hshrunk, hins, hplaced⟩
  · rw [hupsert, Option.map_some]
    refine ⟨_, rfl, ?_⟩
    dsimp only
    by_cases hno : s = NoSlot
    · rw [if_pos hno]
      exact .refl h
    · rw [if_neg hno, if_neg Bool.false_ne_true]
      exact listed_edit h (hs.resolve_right hno) (untouched_noteSeen _ _) rfl rfl rfl
  · rw [hupsert, Option.map_some]
    refine ⟨_, rfl, ?_⟩
    have hs : d₂.InUse s := (hplaced.inUse s).2 (.inl rfl)
    dsimp only
    rw [if_neg (h₂.inUse_ne_noSlot hs), if_pos rfl]
    have hfamily : Specified listed.endpoint.address →
        present (d₂.entryAt s).family := fun hne => by
      rw [family_of_key hplaced.key_eq hne, ← hpresent, Option.isSome_iff_ne_none]
      exact fun hnone => hskip (.inl hnone)
    obtain ⟨h₃, hwrite⟩ := h₂.edit (e := noteSeen (d₂.stamp env.now) (d₂.entryAt s)) hs rfl hs.2 rfl
    have hseen : ({ c with catalog := d₂ } : Crawler).edit s (noteSeen (d₂.stamp env.now)) =
        { c with catalog := d₂.setEntry s (noteSeen (d₂.stamp env.now) (d₂.entryAt s)) } := rfl
    rw [hseen]
    generalize hc₃ : ({ c with
      catalog := d₂.setEntry s (noteSeen (d₂.stamp env.now) (d₂.entryAt s)) } : Crawler) = c₃
    have hcatalog : c₃.catalog = d₂.setEntry s (noteSeen (d₂.stamp env.now) (d₂.entryAt s)) := by
      rw [← hc₃]
    have hledger : c₃.ledger = c.ledger := by rw [← hc₃]; rfl
    have hfresh : c₃.fresh = c.fresh := by rw [← hc₃]
    rw [← hcatalog] at h₃ hwrite
    obtain ⟨e, hrewritten, hother, hself, he, hledger', hcases⟩ :=
      welcome_spec h₃ ((hwrite.inUse s).2 hs) listed
    have hwritten := (hwrite.rewritten (P := fun _ _ => True) h₃ rfl (fun _ => trivial)
      trivial).trans hrewritten fun _ _ _ _ _ => trivial
    rw [hwrite.entryAt_self] at he hcases
    refine ⟨hwritten.invariant, hchanges.trans
      (.tail (.single ⟨hchange, h₂⟩) ⟨hwritten.change, hwritten.invariant⟩),
      hledger'.trans hledger, ?_⟩
    refine ⟨if e.state = .Unroutable then [] else [(c₃.welcome s listed).catalog.ref s], ?_,
      fun hnum hlt => .of_placed hnum hlt hchanges.changes hshrunk hins hplaced hwritten
        (fun s' hs' => (hother s' hs').trans (hwrite.entryAt s' hs')) ?_ (by rw [hself])⟩
    · rcases hcases with ⟨hstate, hfresh'⟩ | ⟨hstate, -, -, hfresh'⟩
      · rw [if_pos hstate, hfresh', hfresh, append_nil]
      · rw [if_neg, hfresh', hfresh, ← hrewritten.ref]
        rw [hstate, noteSeen, hplaced.entryAt_self]
        simp
    · rw [hself]
      exact .of_placed hplaced he (hcases.imp (·.1) fun ⟨hstate, hfailures, hne, _⟩ =>
        ⟨hstate, hfailures, hfamily hne⟩)

theorem learnAll_spec (hpresent : ∀ family, (env.nodeId family).isSome = present family)
    (draw : ℕ → ℕ → ℕ) (listed : List Krpc.CompactNode) (h : Invariant hash c.catalog) :
    ∃ c', learnAll hash env draw listed c = some c' ∧ Listed hash present c c' := by
  induction listed generalizing c with
  | nil => exact ⟨c, rfl, .refl h⟩
  | cons n rest ih =>
    obtain ⟨c₁, hlearn, hlisted⟩ := learn_spec h hpresent (draw rest.length) n
    obtain ⟨c', hrest, hlisted'⟩ := ih hlisted.invariant
    refine ⟨c', ?_, hlisted.trans hlisted'⟩
    rw [learnAll, hlearn]
    exact hrest

theorem learnFrom_spec (h : Invariant hash c.catalog)
    (hpresent : ∀ family, (env.nodeId family).isSome = present family) (ref : CatalogRef)
    (reply : RpcReply) :
    ∃ c', c.learnFrom hash env ref reply = some c' ∧ Listed hash present c c' := by
  rw [learnFrom]
  split_ifs with hnote
  · rw [Bool.and_eq_true, isCurrent_iff] at hnote
    have hlisted : Listed hash present c
        (c.edit ref.slot (noteListed c.config.allowLocalAddresses (listedBy reply))) := by
      refine listed_edit h hnote.2.1 (untouched_noteListed _ _ _) ?_ ?_ ?_
      all_goals
        rw [noteListed]
        dsimp only
        split_ifs <;> rfl
    obtain ⟨c', hlearn, hlisted'⟩ := learnAll_spec hpresent (env.draw 0) (listedBy reply)
      hlisted.invariant
    exact ⟨c', hlearn, hlisted.trans hlisted'⟩
  · exact learnAll_spec hpresent (env.draw 0) (listedBy reply) h

/-! ## Seeds and lookups -/

/-- What is neither in the catalogue nor the ledger may change besides. -/
theorem Listed.congr {b : Crawler} (h : Listed hash present b c') (hcatalog : b.catalog = c.catalog)
    (hledger : b.ledger = c.ledger) (hfresh : b.fresh = c.fresh) : Listed hash present c c' where
  invariant := h.invariant
  passage := hcatalog ▸ h.passage
  ledger := h.ledger.trans hledger
  fresh := hcatalog ▸ hfresh ▸ h.fresh

theorem seed_spec (h : Invariant hash c.catalog)
    (hpresent : ∀ family, (env.nodeId family).isSome = present family) :
    ∃ c', c.seed hash env = some c' ∧ Listed hash present c c' := by
  obtain ⟨c', hlearn, hlisted⟩ := learnAll_spec (c := { c with lastSeedMs := env.now }) hpresent
    (env.draw 1) env.start h
  exact ⟨c', hlearn, hlisted.congr rfl rfl rfl⟩

variable (present) in
theorem markInvented_spec (sightings : List PeerSighting) (h : Invariant hash c.catalog) :
    ∃ c', markInvented hash sightings c = some c' ∧ Listed hash present c c' := by
  induction sightings generalizing c with
  | nil => exact ⟨c, rfl, .refl h⟩
  | cons sighting rest ih =>
    obtain ⟨s, hfind, hin, hout⟩ := h.find_eq sighting.source
    rw [markInvented, hfind, Option.bind_some]
    split_ifs with hs
    · have huse : c.catalog.InUse s := (hin (not_not.1 (mt hout hs))).1
      have hlisted : Listed hash present c (c.edit s (·.set .InventsPeers)) :=
        listed_edit h huse (untouched_set _ (.inr ⟨rfl, rfl⟩)) rfl rfl rfl
      obtain ⟨c', hrest, hlisted'⟩ := ih hlisted.invariant
      exact ⟨c', hrest, hlisted.trans hlisted'⟩
    · exact ih h

theorem recordLookup_spec (h : Invariant hash c.catalog)
    (hpresent : ∀ family, (env.nodeId family).isSome = present family) (result : Lookup.Result) :
    ∃ c', c.recordLookup hash env result = some c' ∧ Listed hash present c c' := by
  rw [recordLookup]
  generalize hcounted : (if result.kind = .GetPeers then _ else c : Crawler) = counted
  have hsame : counted.catalog = c.catalog ∧ counted.ledger = c.ledger ∧
      counted.fresh = c.fresh := by
    rw [← hcounted]
    split_ifs <;> exact ⟨rfl, rfl, rfl⟩
  obtain ⟨c₁, hmark, hlisted⟩ := markInvented_spec present result.sightings
    (hsame.1.symm ▸ h)
  obtain ⟨c', hlearn, hlisted'⟩ := learnAll_spec hpresent (env.draw 2)
    (result.closest.map fun n => ⟨n.id, n.endpoint⟩) hlisted.invariant
  refine ⟨c', ?_, (hlisted.trans hlisted').congr hsame.1 hsame.2.1 hsame.2.2⟩
  rw [hmark]
  exact hlearn

theorem onLookup_spec (h : Invariant hash c.catalog)
    (hpresent : ∀ family, (env.nodeId family).isSome = present family) (kind : Lookup.Kind)
    (family : Family) (result : Lookup.Result) :
    ∃ c', c.onLookup hash env kind family result = some c' ∧ Listed hash present c c' := by
  rw [onLookup]
  split_ifs
  · obtain ⟨c', hrecord, hlisted⟩ := recordLookup_spec
      (c := { c with widening := Function.update c.widening family false }) h hpresent result
    exact ⟨c', hrecord, hlisted.congr rfl rfl rfl⟩
  · obtain ⟨c', hrecord, hlisted⟩ := recordLookup_spec
      (c := { c with
        estimating := Function.update c.estimating family (c.estimating family - 1) })
      h hpresent result
    exact ⟨c', hrecord, hlisted.congr rfl rfl rfl⟩

theorem startLookup_spec (h : Invariant hash c.catalog)
    (hpresent : ∀ family, (env.nodeId family).isSome = present family) (kind : Lookup.Kind)
    (family : Family) :
    ∃ c', c.startLookup hash env kind family = some c' ∧ Listed hash present c c' := by
  rw [startLookup]
  cases env.foundAtOnce kind family with
  | some result => exact onLookup_spec h hpresent kind family result
  | none =>
    exact ⟨_, rfl, (Listed.refl (c := { c with lookups := c.lookups ++ [(kind, family)] }) h).congr
      rfl rfl rfl⟩

theorem widen_spec (h : Invariant hash c.catalog)
    (hpresent : ∀ family, (env.nodeId family).isSome = present family) :
    ∃ c', c.widen hash env = some c' ∧ Listed hash present c c' := by
  have hfamily : ∀ (c : Crawler) family, Invariant hash c.catalog →
      ∃ c', c.widenFamily hash env family = some c' ∧ Listed hash present c c' := by
    intro c family h
    rw [widenFamily]
    dsimp only
    split_ifs
    · exact ⟨c, rfl, .refl h⟩
    · obtain ⟨c', hstart, hlisted⟩ := startLookup_spec
        (c := { c with widening := Function.update c.widening family true }) h hpresent .FindNode
        family
      exact ⟨c', hstart, hlisted.congr rfl rfl rfl⟩
  obtain ⟨c₁, hfirst, hlisted⟩ := hfamily c .IPv4 h
  obtain ⟨c', hsecond, hlisted'⟩ := hfamily c₁ .IPv6 hlisted.invariant
  refine ⟨c', ?_, hlisted.trans hlisted'⟩
  rw [widen, hfirst]
  exact hsecond

theorem estimateSize_spec (h : Invariant hash c.catalog)
    (hpresent : ∀ family, (env.nodeId family).isSome = present family) :
    ∃ c', c.estimateSize hash env = some c' ∧ Listed hash present c c' := by
  have hfamily : ∀ (c : Crawler) family, Invariant hash c.catalog →
      ∃ c', c.estimateFamily hash env family = some c' ∧ Listed hash present c c' := by
    intro c family h
    rw [estimateFamily]
    dsimp only
    split_ifs
    · exact ⟨c, rfl, .refl h⟩
    · obtain ⟨c', hstart, hlisted⟩ := startLookup_spec
        (c := { c with
          estimating := Function.update c.estimating family (c.estimating family + 1) })
        h hpresent .GetPeers family
      exact ⟨c', hstart, hlisted.congr rfl rfl rfl⟩
  obtain ⟨c₁, hfirst, hlisted⟩ := hfamily c .IPv4 h
  obtain ⟨c', hsecond, hlisted'⟩ := hfamily c₁ .IPv6 hlisted.invariant
  refine ⟨c', ?_, hlisted.trans hlisted'⟩
  rw [estimateSize, hfirst]
  exact hsecond

theorem replenish_spec (h : Invariant hash c.catalog)
    (hpresent : ∀ family, (env.nodeId family).isSome = present family) :
    ∃ c', c.replenish hash env = some c' ∧ Listed hash present c c' := by
  rw [replenish]
  split_ifs
  · obtain ⟨c₁, hseed, hlisted⟩ := seed_spec (c := c) h hpresent
    obtain ⟨c', hwiden, hlisted'⟩ := widen_spec hlisted.invariant hpresent
    refine ⟨c', ?_, hlisted.trans hlisted'⟩
    rw [hseed]
    exact hwiden
  · exact ⟨c, rfl, .refl h⟩

/-- Trimming the catalogue. -/
theorem listed_trim (h : Invariant hash c.catalog) (draw : ℕ → ℕ → ℕ) (maxEvictions : ℤ) :
    ∃ catalog, c.catalog.trim hash draw maxEvictions = some catalog ∧
      Listed hash present c { c with catalog } := by
  obtain ⟨catalog, htrim, h', hchanges, hshrunk⟩ := h.trim_shrunk draw maxEvictions.toNat
  refine ⟨catalog, htrim, h', hchanges, rfl, [], (append_nil _).symm, fun hnum hlt =>
    ⟨by simp, fun s hs => .inl ⟨(hshrunk s hs).1, ?_, ?_⟩⟩⟩
  · rw [NodeCatalog.ref, NodeCatalog.ref]
    exact congrArg (fun e : CatalogEntry => (⟨s, e.generation⟩ : CatalogRef)) (hshrunk s hs).2
  · exact (hshrunk s hs).2 ▸ .refl _

end Dht.Crawler
