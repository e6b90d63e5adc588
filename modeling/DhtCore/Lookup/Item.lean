import DhtCore.DhtNode.Items
import DhtCore.Krpc.Parsing
import DhtCore.Lookup.Steps

/-!
# Items found by lookups

A lookup for an item keeps the one signed with the highest sequence number of those that
the responses carry (`Carries`), or else a value whose hash is the target. It starts from
the sequence number `-1`, so that it does not find items with negative ones, which nodes
store nonetheless (`exists_not_best`). Its result is the best there is if and only if
there is none, or one with a sequence number that is not negative (`best_iff`).
-/

namespace Dht.Lookup

variable {crypto : Crypto} {l l' : Lookup} {replies : List RpcReply}

/-- A response carries an item of a target and a salt, with a valid signature. -/
structure Carries (crypto : Crypto) (target : NodeId) (salt : Bytes)
    (reply : RpcReply) (item : Item) :
    Prop where
  value : ∃ v, reply.message.body.find (ascii "v") = some v ∧ v.rawSpan reply.datagram = item.value
  key : reply.message.body.stringAt (ascii "k") = some item.publicKey
  signature : reply.message.body.stringAt (ascii "sig") = some item.signature
  sequence : reply.message.body.integerAt (ascii "seq") = some item.sequence
  hash : Bep44.mutableTarget crypto item.publicKey salt = target
  signed : Bep44.verify crypto item.signature (Bep44.signingBuffer salt item.sequence item.value)
    item.publicKey = some true

/-- The response that an event brings, if it is waited for. -/
def processes (l : Lookup) : Event → Option RpcReply
  | .reply endpoint reply =>
    if !l.finished && (l.find endpoint).any (fun c => c.state = .InFlight || c.state = .Slow) &&
        reply.status = .Response then some reply
    else none
  | _ => none

/-- The responses that were waited for in a run. -/
def processed (crypto : Crypto) (l : Lookup) : List Event → List RpcReply
  | [] => []
  | e :: events => (l.processes e).toList ++ processed crypto (l.apply crypto e) events

/-- The result has the item with the highest sequence number of those that responses carry,
    if they carry any, and otherwise nothing but a value whose hash is the target. -/
structure Best (crypto : Crypto) (target : NodeId) (salt : Bytes) (replies : List RpcReply)
    (result : Result) : Prop where
  best : ∀ reply ∈ replies, ∀ item, Carries crypto target salt reply item →
    result.itemFound = true ∧ result.itemIsMutable = true ∧ item.sequence ≤ result.item.sequence
  carried : result.itemFound = true → result.itemIsMutable = true →
    ∃ reply ∈ replies, Carries crypto target salt reply result.item
  hash : result.itemFound = true → result.itemIsMutable = false →
    Bep44.immutableTarget crypto result.item.value = target

/-- A response was parsed from its datagram. -/
def Event.Parsed : Event → Prop
  | .reply _ r => r.status = .Response → (Krpc.parse r.datagram).message = some r.message
  | _ => True

/-! ## What is kept of an item -/

/-- A value in a message has bytes. -/
theorem rawSpan_ne_nil {datagram : Bytes} {message : Krpc.Message} {key : Bytes} {v : BValue}
    (h : (Krpc.parse datagram).message = some message) (hv : message.body.find key = some v) :
    v.rawSpan datagram ≠ [] := by
  obtain ⟨t, ht, hraw⟩ := Krpc.exists_tree_of_parse h hv
  rw [hraw]
  exact List.ne_nil_of_length_pos (t.length_source_pos ht)

/-- An item that is signed has a key and a signature of the right lengths. -/
theorem Carries.lengths {target : NodeId} {salt : Bytes} {reply : RpcReply} {item : Item}
    (h : Carries crypto target salt reply item) :
    item.publicKey.length = Bep44.PublicKeyBytes ∧ item.signature.length =
    Bep44.SignatureBytes := by
  have hsigned := h.signed
  rw [Bep44.verify] at hsigned
  split_ifs at hsigned with hlengths
  · exact nomatch hsigned
  · rw [not_or, not_not, not_not] at hlengths
    exact ⟨hlengths.2, hlengths.1⟩

/-- What is kept of the item of a response: nothing if none that it carries is newer, that
    which it carries if it is newer, or a value whose hash is the target. -/
theorem collectItem_cases {reply : RpcReply}
    (hraw : ∀ v, reply.message.body.find (ascii "v") = some v →
      v.rawSpan reply.datagram ≠ []) {R : Lookup → Prop}
    (ignored : (∀ item, Carries crypto l.target l.salt reply item →
      item.sequence ≤ l.item.sequence) → R l)
    (mutable : ∀ item, Carries crypto l.target l.salt reply item → l.item.sequence < item.sequence →
      (∀ item', Carries crypto l.target l.salt reply item' → item' = item) →
      R { l with itemFound := true, itemIsMutable := true, item })
    (immutable : ∀ value, (∀ item, ¬Carries crypto l.target l.salt reply item) →
      l.itemFound = false →
      Bep44.immutableTarget crypto value = l.target →
      R { l with itemFound := true, itemIsMutable := false, item := { l.item with value } }) :
    R (l.collectItem crypto reply) := by
  rw [collectItem]
  dsimp only
  split
  next hnone =>
    refine ignored fun item h => ?_
    obtain ⟨v, hv, -⟩ := h.value
    cases hnone.symm.trans hv
  next v hv =>
    rw [if_neg (by simpa using hraw v hv)]
    split
    next key signature sequence hkey hsignature hsequence =>
      -- What the response carries, if it carries an item.
      have hitem : ∀ item, Carries crypto l.target l.salt reply item →
          item = { value := v.rawSpan reply.datagram, publicKey := key, signature, sequence } := by
        intro item h
        obtain ⟨v', hv', hvalue⟩ := h.value
        obtain rfl := Option.some.inj (hv.symm.trans hv')
        have hk := Option.some.inj (h.key.symm.trans hkey)
        have hsig := Option.some.inj (h.signature.symm.trans hsignature)
        have hseq := Option.some.inj (h.sequence.symm.trans hsequence)
        cases item
        simp_all
      split_ifs with hlengths htarget hle hverify
      · refine ignored fun item h => ?_
        obtain rfl := hitem item h
        exact absurd hlengths (by simp [h.lengths])
      · refine ignored fun item h => ?_
        obtain rfl := hitem item h
        exact absurd h.hash htarget
      · refine ignored fun item h => ?_
        obtain rfl := hitem item h
        exact hle
      · refine ignored fun item h => ?_
        obtain rfl := hitem item h
        rw [h.signed] at hverify
        exact absurd hverify (by decide)
      · refine mutable _ ⟨⟨v, hv, rfl⟩, hkey, hsignature, hsequence, not_not.1 htarget, ?_⟩
          (not_le.1 hle) hitem
        dsimp only
        cases hsigned : Bep44.verify crypto signature
          (Bep44.signingBuffer l.salt sequence (v.rawSpan reply.datagram)) key with
        | none => simp [hsigned] at hverify
        | some valid => simpa [hsigned] using hverify
    next hmissing =>
      have hnone : ∀ item, ¬Carries crypto l.target l.salt reply item :=
        fun item h => hmissing _ _ _ h.key h.signature h.sequence
      split_ifs with himmutable
      · rw [Bool.and_eq_true, Bool.not_eq_true', decide_eq_true_eq] at himmutable
        exact immutable _ hnone himmutable.1 himmutable.2
      · exact ignored fun item h => absurd h (hnone item)

/-! ## What events do to the item -/

/-- Two lookups look for the same and have found the same. -/
structure SameItem (l l' : Lookup) : Prop where
  kind : l'.kind = l.kind
  target : l'.target = l.target
  salt : l'.salt = l.salt
  itemFound : l'.itemFound = l.itemFound
  itemIsMutable : l'.itemIsMutable = l.itemIsMutable
  item : l'.item = l.item

theorem SameItem.refl (l : Lookup) : SameItem l l := ⟨rfl, rfl, rfl, rfl, rfl, rfl⟩

theorem SameItem.trans {l'' : Lookup} (h : SameItem l l') (h' : SameItem l' l'') : SameItem l l'' :=
  ⟨h'.kind.trans h.kind, h'.target.trans h.target, h'.salt.trans h.salt,
    h'.itemFound.trans h.itemFound, h'.itemIsMutable.trans h.itemIsMutable, h'.item.trans h.item⟩

theorem sameItem_step (l : Lookup) : SameItem l l.step := by
  rw [step]
  split_ifs <;> exact ⟨rfl, rfl, rfl, rfl, rfl, rfl⟩

theorem reports_step (l : Lookup) : l.step.reports = l.reports ∧ l.step.finished = l.finished := by
  rw [step]
  split_ifs <;> exact ⟨rfl, rfl⟩

theorem sameItem_withCandidate {id : NodeId} {endpoint : Endpoint} {hops : ℤ}
    (h : l.withCandidate id endpoint hops = some l') : SameItem l l' := by
  obtain ⟨-, rfl⟩ := withCandidate_eq_some h
  exact ⟨rfl, rfl, rfl, rfl, rfl, rfl⟩

theorem sameItem_addCandidate (l : Lookup) (id : NodeId) (endpoint : Endpoint) (hops : ℤ) :
    SameItem l (l.addCandidate id endpoint hops) := by
  rw [addCandidate]
  split
  next => exact .refl l
  next l' h =>
    split_ifs
    · exact (sameItem_withCandidate h).trans (sameItem_step l')
    · exact sameItem_withCandidate h

/-- Of a response, only the item is kept as such. -/
theorem sameItem_collect (hkind : l.kind = .GetItem) (endpoint : Endpoint) (hops : ℤ)
    (reply : RpcReply) :
    SameItem (l.collectItem crypto reply) (l.collect crypto endpoint hops reply) := by
  have hnodes (l : Lookup) (nodes : List Krpc.CompactNode) :
      SameItem l (nodes.foldl (fun l node => l.addCandidate node.id node.endpoint hops) l) := by
    induction nodes generalizing l with
    | nil => exact .refl l
    | cons node nodes ih => exact (sameItem_addCandidate l node.id node.endpoint hops).trans (ih _)
  rw [collect, if_pos hkind]
  have hkept : (l.collectItem crypto reply).kind = .GetItem := by
    obtain ⟨_, _, _, h⟩ := collectItem_eq crypto l reply
    rw [h]
    exact hkind
  generalize l.collectItem crypto reply = l₁ at hkept ⊢
  rw [if_neg (by rw [hkept]; decide)]
  have h := hnodes { l₁ with started := false } (l₁.nodesIn reply.message.body)
  exact ⟨h.kind, h.target, h.salt, h.itemFound, h.itemIsMutable, h.item⟩

/-- The result has what the lookup has found. -/
structure Reports (l : Lookup) (result : Result) : Prop where
  finished : l.finished = true
  itemFound : result.itemFound = l.itemFound
  itemIsMutable : result.itemIsMutable = l.itemIsMutable
  item : result.item = l.item

theorem Reports.of_same {result : Result} (h : Reports l result) (hsame : SameItem l l')
    (hfinished : l'.finished = l.finished) : Reports l' result :=
  ⟨hfinished.trans h.finished, h.itemFound.trans hsame.itemFound.symm,
    h.itemIsMutable.trans hsame.itemIsMutable.symm, h.item.trans hsame.item.symm⟩

/-- A reply is not waited for, or the query failed, or it brings a response. -/
theorem onReply_cases (crypto : Crypto) (l : Lookup) (endpoint : Endpoint) (reply : RpcReply) :
    (l.processes (.reply endpoint reply) = none ∧ (l.onReply crypto endpoint reply = l ∨
      ∃ c f, l.onReply crypto endpoint reply = (l.conclude endpoint c f).step)) ∨
    l.processes (.reply endpoint reply) = some reply ∧ reply.status = .Response ∧
    l.finished = false ∧
      ∃ c token, l.onReply crypto endpoint reply =
        ((l.noteResponse endpoint c token).collect crypto endpoint (c.hops + 1) reply).step := by
  rw [processes, onReply, withReply]
  cases hfinished : l.finished with
  | true => exact .inl ⟨rfl, .inl rfl⟩
  | false =>
    rw [if_neg Bool.false_ne_true]
    cases hfind : l.find endpoint with
    | none => exact .inl ⟨rfl, .inl rfl⟩
    | some c =>
      dsimp only [Option.any_some]
      by_cases hstate : c.state ≠ .InFlight ∧ c.state ≠ .Slow
      · rw [if_pos hstate, if_neg (by simp [hstate])]
        exact .inl ⟨rfl, .inl rfl⟩
      · rw [if_neg hstate]
        have hawaited : c.state = .InFlight ∨ c.state = .Slow := by tauto
        by_cases hstatus : reply.status = .Response
        · rw [if_neg (not_not.2 hstatus), if_pos (by simp [hstatus, hawaited])]
          exact .inr ⟨rfl, hstatus, rfl, c, _, rfl⟩
        · rw [if_pos hstatus, if_neg (by simp [hstatus])]
          exact .inl ⟨rfl, .inr ⟨c, _, rfl⟩⟩

/-- An event that brings no response that is waited for does not change what was found, and
    what is reported is that. -/
theorem sameItem_apply (crypto : Crypto) {e : Event} (h : l.processes e = none) :
    SameItem l (l.apply crypto e) ∧
    ((∀ result ∈ l.reports, Reports l result) →
      ∀ result ∈ (l.apply crypto e).reports, Reports (l.apply crypto e) result) := by
  -- What is reported stays so if the lookup stays finished and reports nothing more.
  have hstays {l' : Lookup} (hsame : SameItem l l') (hreports : l'.reports = l.reports)
      (hfinished : l'.finished = l.finished) : SameItem l l' ∧
      ((∀ result ∈ l.reports, Reports l result) → ∀ result ∈ l'.reports, Reports l' result) :=
    ⟨hsame, fun hl result hresult => (hl result (hreports ▸ hresult)).of_same hsame hfinished⟩
  have hstep {l' : Lookup} (hsame : SameItem l l') (hreports : l'.reports = l.reports)
      (hfinished : l'.finished = l.finished) := hstays (hsame.trans (sameItem_step l'))
    ((reports_step l').1.trans hreports) ((reports_step l').2.trans hfinished)
  cases e with
  | addCandidate id endpoint =>
    rw [apply, addCandidate]
    split
    next => exact hstays (.refl l) rfl rfl
    next l' hadded =>
      have hkeeps := keeps_withCandidate hadded
      split_ifs
      · exact hstep (sameItem_withCandidate hadded) hkeeps.reports hkeeps.finished
      · exact hstays (sameItem_withCandidate hadded) hkeeps.reports hkeeps.finished
  | start now => exact hstep ⟨rfl, rfl, rfl, rfl, rfl, rfl⟩ rfl rfl
  | resume now =>
    rw [apply, resume]
    split
    next => exact hstays (.refl l) rfl rfl
    next endpoints frames _ =>
      split
      next => exact hstays ⟨rfl, rfl, rfl, rfl, rfl, rfl⟩ rfl rfl
      next hfinished =>
        split
        next => exact hstays ⟨rfl, rfl, rfl, rfl, rfl, rfl⟩ rfl rfl
        next =>
          dsimp only
          split
          next =>
            refine ⟨⟨rfl, rfl, rfl, rfl, rfl, rfl⟩, fun hl result hresult => ?_⟩
            rcases List.mem_append.1 hresult with hresult | hresult
            · exact absurd (hl result hresult).finished hfinished
            · obtain rfl := List.mem_singleton.1 hresult
              exact ⟨rfl, rfl, rfl, rfl⟩
          next => exact hstays ⟨rfl, rfl, rfl, rfl, rfl, rfl⟩ rfl rfl
  | sent endpoint now => exact hstays ⟨rfl, rfl, rfl, rfl, rfl, rfl⟩ rfl rfl
  | checkSlow now =>
    rw [apply, checkSlow]
    split_ifs
    · exact hstays (.refl l) rfl rfl
    · exact hstep ⟨rfl, rfl, rfl, rfl, rfl, rfl⟩ rfl rfl
    · exact hstays ⟨rfl, rfl, rfl, rfl, rfl, rfl⟩ rfl rfl
  | reply endpoint reply =>
    rw [apply]
    rcases onReply_cases crypto l endpoint reply with ⟨-, heq | ⟨c, f, heq⟩⟩ | ⟨hsome, -⟩
    · rw [heq]
      exact hstays (.refl l) rfl rfl
    · rw [heq]
      exact hstep ⟨rfl, rfl, rfl, rfl, rfl, rfl⟩ rfl rfl
    · cases h.symm.trans hsome

/-- An event that brings a response that is waited for. -/
theorem exists_of_processes (crypto : Crypto) {e : Event} {reply : RpcReply}
    (hkind : l.kind = .GetItem) (h : l.processes e = some reply) (hparsed : e.Parsed) :
    (Krpc.parse reply.datagram).message = some reply.message ∧ l.finished = false ∧
      (l.apply crypto e).reports = l.reports ∧
      ∃ l₁, SameItem l l₁ ∧ l₁.reports = l.reports ∧
        SameItem (l₁.collectItem crypto reply) (l.apply crypto e) := by
  cases e with
  | reply endpoint r =>
    rcases onReply_cases crypto l endpoint r
      with ⟨hnone, -⟩ | ⟨hsome, hstatus, hfinished, c, token, heq⟩
    · cases hnone.symm.trans h
    · obtain rfl := Option.some.inj (hsome.symm.trans h)
      have hkeeps : Keeps l ((l.noteResponse endpoint c token).collect crypto endpoint
          (c.hops + 1) r) :=
        (keeps_noteResponse l endpoint c token).trans (keeps_collect _ endpoint (c.hops + 1) r)
      rw [apply, heq]
      refine ⟨hparsed hstatus, hfinished, (reports_step _).1.trans hkeeps.reports,
        l.noteResponse endpoint c token, ⟨rfl, rfl, rfl, rfl, rfl, rfl⟩, rfl, ?_⟩
      have hkind' : (l.noteResponse endpoint c token).kind = .GetItem := hkind
      exact (sameItem_collect hkind' endpoint (c.hops + 1) r).trans (sameItem_step _)
  | _ => cases h

/-! ## Runs -/

/-- What a lookup has found, of the responses that it processed. -/
structure ItemInv (crypto : Crypto) (replies : List RpcReply) (l : Lookup) : Prop where
  kind : l.kind = .GetItem
  le : ∀ reply ∈ replies, ∀ item, Carries crypto l.target l.salt reply item →
    item.sequence ≤ l.item.sequence
  carried : l.itemIsMutable = true → ∃ reply ∈ replies, Carries crypto l.target l.salt reply l.item
  found : l.itemIsMutable = true → l.itemFound = true ∧ 0 ≤ l.item.sequence
  initial : l.itemIsMutable = false → l.item.sequence = -1
  hash : l.itemFound = true → l.itemIsMutable = false →
    Bep44.immutableTarget crypto l.item.value = l.target
  reports : ∀ result ∈ l.reports, Reports l result

theorem ItemInv.of_same (hl : ItemInv crypto replies l) (h : SameItem l l')
    (hreports : ∀ result ∈ l'.reports, Reports l' result) : ItemInv crypto replies l' where
  kind := h.kind.trans hl.kind
  le := by
    rw [h.target, h.salt, h.item]
    exact hl.le
  carried := by
    rw [h.itemIsMutable, h.target, h.salt, h.item]
    exact hl.carried
  found := by
    rw [h.itemIsMutable, h.itemFound, h.item]
    exact hl.found
  initial := by
    rw [h.itemIsMutable, h.item]
    exact hl.initial
  hash := by
    rw [h.itemFound, h.itemIsMutable, h.item, h.target]
    exact hl.hash
  reports := hreports

/-- A response is processed before the lookup is finished. -/
theorem ItemInv.collectItem {reply : RpcReply} (hl : ItemInv crypto replies l)
    (hreports : l.reports = [])
    (hparsed : (Krpc.parse reply.datagram).message = some reply.message) :
    ItemInv crypto (replies ++ [reply]) (l.collectItem crypto reply) := by
  have hnone {l' : Lookup} (h : l'.reports = l.reports) :
      ∀ result ∈ l'.reports, Reports l' result := by
    rw [h, hreports]
    exact fun _ h => absurd h List.not_mem_nil
  have hcarried : ∀ {item}, (∃ r ∈ replies, Carries crypto l.target l.salt r item) →
      ∃ r ∈ replies ++ [reply], Carries crypto l.target l.salt r item :=
    fun ⟨r, hr, h⟩ => ⟨r, List.mem_append_left _ hr, h⟩
  apply collectItem_cases (fun v hv => rawSpan_ne_nil hparsed hv)
  case ignored =>
    intro hle
    refine ⟨hl.kind, fun r hr item h => ?_, fun h => hcarried (hl.carried h), hl.found,
      hl.initial, hl.hash, hl.reports⟩
    rcases List.mem_append.1 hr with hr | hr
    · exact hl.le r hr item h
    · obtain rfl := List.mem_singleton.1 hr
      exact hle item h
  case mutable =>
    intro item hitem hlt honly
    -- The first mutable item beats the sequence number `-1` that stands for none.
    have hnonneg : 0 ≤ item.sequence := by
      cases hmutable : l.itemIsMutable with
      | true => exact (hl.found hmutable).2.trans hlt.le
      | false =>
        rw [hl.initial hmutable] at hlt
        omega
    refine ⟨hl.kind, fun r hr item' h => ?_, fun _ =>
      ⟨reply, List.mem_append_right _ List.mem_cons_self, hitem⟩,
      fun _ => ⟨rfl, hnonneg⟩, nofun, nofun, hnone rfl⟩
    rcases List.mem_append.1 hr with hr | hr
    · exact (hl.le r hr item' h).trans hlt.le
    · obtain rfl := List.mem_singleton.1 hr
      rw [honly item' h]
  case immutable =>
    intro value hcarries hnot hhash
    -- An immutable item is taken only if nothing was found, so that no mutable one was.
    have hmutable : l.itemIsMutable = false := by
      by_contra h
      rw [(hl.found (by simpa using h)).1] at hnot
      exact Bool.noConfusion hnot
    refine ⟨hl.kind, fun r hr item h => ?_, nofun, nofun, fun _ => hl.initial hmutable,
      fun _ _ => hhash, hnone rfl⟩
    rcases List.mem_append.1 hr with hr | hr
    · exact hl.le r hr item h
    · obtain rfl := List.mem_singleton.1 hr
      exact absurd h (hcarries item)

theorem ItemInv.apply {e : Event} (hl : ItemInv crypto replies l) (hparsed : e.Parsed) :
    ItemInv crypto (replies ++ (l.processes e).toList) (l.apply crypto e) := by
  cases h : l.processes e with
  | none =>
    obtain ⟨hsame, hreports⟩ := sameItem_apply crypto h
    rw [Option.toList_none, List.append_nil]
    exact hl.of_same hsame (hreports hl.reports)
  | some reply =>
    obtain ⟨hmessage, hfinished, hreports, l₁, hsame, hreports₁, hsame'⟩ :=
      exists_of_processes crypto hl.kind h hparsed
    -- A reply is processed before the lookup finishes, that is before it reports.
    have hempty : l.reports = [] := by
      refine List.eq_nil_iff_forall_not_mem.2 fun result hresult => ?_
      rw [(hl.reports result hresult).finished] at hfinished
      exact Bool.noConfusion hfinished
    have hnone {l' : Lookup} (h : l'.reports = l.reports) :
        ∀ result ∈ l'.reports, Reports l' result := by
      rw [h, hempty]
      exact fun _ h => absurd h List.not_mem_nil
    have hl₁ : ItemInv crypto replies l₁ := hl.of_same hsame (hnone hreports₁)
    exact (hl₁.collectItem (hreports₁.trans hempty) hmessage).of_same hsame' (hnone hreports)

theorem ItemInv.run {events : List Event} (hl : ItemInv crypto replies l)
    (hparsed : ∀ e ∈ events, e.Parsed) :
    ItemInv crypto (replies ++ processed crypto l events) (l.run crypto events) := by
  induction events generalizing l replies with
  | nil =>
    rw [processed, List.append_nil]
    exact hl
  | cons e events ih =>
    rw [List.forall_mem_cons] at hparsed
    rw [processed, ← List.append_assoc]
    exact ih (hl.apply hparsed.1) hparsed.2

theorem itemInv_new (crypto : Crypto) (target : NodeId) (family : Family) (self : NodeId)
    (allowLocal : Bool) (salt : Bytes) (slowAfterMs queryTimeoutMs : ℤ) :
    ItemInv crypto []
      (((new .GetItem target family self allowLocal).setSalt salt).setTimeouts slowAfterMs
        queryTimeoutMs) where
  kind := rfl
  le _ h := absurd h List.not_mem_nil
  carried := nofun
  found := nofun
  initial _ := rfl
  hash := nofun
  reports _ h := absurd h List.not_mem_nil

/-- The target and the salt of a lookup stay the same. -/
theorem sameGoal_apply (crypto : Crypto) {e : Event} (hkind : l.kind = .GetItem)
    (hparsed : e.Parsed) :
    (l.apply crypto e).target = l.target ∧ (l.apply crypto e).salt = l.salt := by
  cases h : l.processes e with
  | none =>
    obtain ⟨hsame, -⟩ := sameItem_apply crypto h
    exact ⟨hsame.target, hsame.salt⟩
  | some reply =>
    obtain ⟨-, -, -, l₁, hsame, -, hsame'⟩ := exists_of_processes crypto hkind h hparsed
    obtain ⟨_, _, _, hcollected⟩ := collectItem_eq crypto l₁ reply
    rw [hsame'.target, hsame'.salt, hcollected]
    exact ⟨hsame.target, hsame.salt⟩

theorem sameGoal_run {events : List Event} (hl : ItemInv crypto replies l)
    (hparsed : ∀ e ∈ events, e.Parsed) :
    (l.run crypto events).target = l.target ∧ (l.run crypto events).salt = l.salt := by
  induction events generalizing l replies with
  | nil => exact ⟨rfl, rfl⟩
  | cons e events ih =>
    rw [List.forall_mem_cons] at hparsed
    obtain ⟨htarget, hsalt⟩ := sameGoal_apply crypto hl.kind hparsed.1
    obtain ⟨htarget', hsalt'⟩ := ih (hl.apply hparsed.1) hparsed.2
    exact ⟨htarget'.trans htarget, hsalt'.trans hsalt⟩

/-- In every run, the result is the best if and only if the responses carry no item, or one
    whose sequence number is not negative. -/
theorem best_iff (crypto : Crypto) (target : NodeId) (family : Family) (self : NodeId)
    (allowLocal : Bool) (salt : Bytes) (slowAfterMs queryTimeoutMs : ℤ) (events : List Event)
    (hparsed : ∀ e ∈ events, e.Parsed) :
    let l := ((new .GetItem target family self allowLocal).setSalt salt).setTimeouts
      slowAfterMs queryTimeoutMs
    let replies := processed crypto l events
    ∀ result ∈ (l.run crypto events).reports, Best crypto target salt replies result ↔
      (∀ reply ∈ replies, ∀ item, ¬Carries crypto target salt reply item) ∨
        ∃ reply ∈ replies, ∃ item, Carries crypto target salt reply item ∧ 0 ≤ item.sequence := by
  intro l replies result hresult
  have hrun : ItemInv crypto replies (l.run crypto events) :=
    (itemInv_new crypto target family self allowLocal salt slowAfterMs queryTimeoutMs).run hparsed
  obtain ⟨htarget, hsalt⟩ : (l.run crypto events).target = target ∧
      (l.run crypto events).salt = salt :=
    sameGoal_run (itemInv_new crypto target family self allowLocal salt slowAfterMs queryTimeoutMs)
      hparsed
  obtain ⟨-, hfound, hmutable, hitem⟩ := hrun.reports result hresult
  have hle := hrun.le
  have hcarried := hrun.carried
  have hhash := hrun.hash
  have hfoundMutable := hrun.found
  have hinitial := hrun.initial
  rw [htarget, hsalt, ← hitem] at hle
  rw [htarget, hsalt, ← hmutable, ← hitem] at hcarried
  rw [htarget, ← hfound, ← hmutable, ← hitem] at hhash
  rw [← hfound, ← hmutable, ← hitem] at hfoundMutable
  rw [← hmutable, ← hitem] at hinitial
  constructor
  · intro hbest
    rw [or_iff_not_imp_left, not_forall]
    rintro ⟨reply, h⟩
    push Not at h
    obtain ⟨hreply, item, hcarries⟩ := h
    obtain ⟨hf, hm, -⟩ := hbest.best reply hreply item hcarries
    obtain ⟨reply', hreply', hcarries'⟩ := hbest.carried hf hm
    exact ⟨reply', hreply', result.item, hcarries', (hfoundMutable hm).2⟩
  · intro hcondition
    refine ⟨fun reply hreply item hcarries => ?_, fun _ hm => hcarried hm, hhash⟩
    rcases hcondition with hnone | ⟨reply', hreply', item', hcarries', hnonneg⟩
    · exact absurd hcarries (hnone reply hreply item)
    · have hm : result.itemIsMutable = true := by
        by_contra h
        have hinit := hinitial (by simpa using h)
        have hle' := hle reply' hreply' item' hcarries'
        omega
      exact ⟨(hfoundMutable hm).1, hm, hle reply hreply item hcarries⟩

/-! ## An item with a negative sequence number -/

/-- The owner's signature of the value `1:a` with the sequence number `-1`. -/
def negativeSignature : Bytes :=
  Endpoint.bytesOf 32 0x0e990704ef62752b7c59e35f77f6cb9fd2dd7766b95a4aa3b9e27d4c36c0e471 ++
    Endpoint.bytesOf 32 0x2ab14a77dcc5ea7fb6a062de139db6e20d4f16b198d1b9e8bfd5482b06b02203

/-- The hashes and the valid signatures that are needed. -/
def knownToo : Crypto where
  sha1 := DhtNode.known.sha1
  ed25519Check signature message publicKey :=
    publicKey = DhtNode.owner && message = ascii "3:seqi-1e1:v1:a" &&
      signature = negativeSignature || DhtNode.known.ed25519Check signature message publicKey

/-- The datagram of a response with the owner's item. -/
def responseWith (sequence signature : Bytes) : Bytes :=
  ascii "d1:rd2:id20:" ++ List.replicate 20 1 ++ ascii "1:k32:" ++ DhtNode.owner ++
    ascii "3:seqi" ++ sequence ++ ascii "e3:sig64:" ++ signature ++ ascii "1:v1:ae1:t2:aa1:y1:re"

/-- The reply that is parsed from a datagram. -/
def replyOf (datagram : Bytes) : RpcReply where
  status := .Response
  message := DhtNode.messageOf datagram
  datagram := datagram

/-- The one node that is known is asked. -/
def oneAsked : List Event :=
  [.addCandidate ⟨List.replicate 20 1, NodeId.length_ones⟩ DhtNode.host, .start 1, .resume 1,
    .resume 1]

/-- It responds. -/
def oneResponds (datagram : Bytes) : List Event :=
  oneAsked ++ [.reply DhtNode.host (replyOf datagram), .resume 2]

/-- A lookup for the owner's item. -/
def itemSearcher : Lookup :=
  ((new .GetItem (knownToo.sha1 DhtNode.owner) .IPv4 default false).setSalt []).setTimeouts 700 1500

theorem parsed_oneResponds {datagram : Bytes} (h : (Krpc.parse datagram).message.isSome = true) :
    ∀ e ∈ oneResponds datagram, e.Parsed := by
  obtain ⟨message, hmessage⟩ := Option.isSome_iff_exists.1 h
  simp only [oneResponds, oneAsked, List.cons_append, List.nil_append,
    List.forall_mem_cons, Event.Parsed, replyOf, DhtNode.messageOf, hmessage, Option.getD_some,
    implies_true, true_and]
  exact fun _ h => absurd h List.not_mem_nil

/-- What is processed in a run is what it brings when it is waited for. -/
theorem mem_processed {endpoint : Endpoint} {reply : RpcReply} (p : List Event) {q : List Event}
    (h : ((l.run crypto p).processes (.reply endpoint reply)).isSome = true) :
    reply ∈ processed crypto l (p ++ .reply endpoint reply :: q) := by
  induction p generalizing l with
  | nil =>
    have hsome : l.processes (.reply endpoint reply) = some reply := by
      rw [run, List.foldl_nil, processes] at h
      rw [processes]
      split_ifs at h ⊢
      · rfl
      · exact absurd h Bool.false_ne_true
    rw [List.nil_append, processed, hsome]
    exact List.mem_cons_self
  | cons e p ih => exact List.mem_append_right _ (ih h)

/-- The owner's item is not found if its sequence number is `-1`. -/
theorem exists_not_best : ∃ (crypto : Crypto) (target : NodeId) (family : Family) (self : NodeId)
    (allowLocal : Bool) (salt : Bytes) (slowAfterMs queryTimeoutMs : ℤ) (events : List Event),
    let l := ((new .GetItem target family self allowLocal).setSalt salt).setTimeouts
      slowAfterMs queryTimeoutMs
    (∀ e ∈ events, e.Parsed) ∧
    ∃ result ∈ (l.run crypto events).reports,
      ¬Best crypto target salt (processed crypto l events) result := by
  refine ⟨knownToo, knownToo.sha1 DhtNode.owner, .IPv4, default, false, [], 700, 1500,
    oneResponds (responseWith (ascii "-1") negativeSignature),
    parsed_oneResponds (by decide +kernel), ?_⟩
  have hreports : (itemSearcher.run knownToo (oneResponds
      (responseWith (ascii "-1") negativeSignature))).reports.any (fun result =>
      !result.itemFound) := by
    decide +kernel
  obtain ⟨result, hresult, hnot⟩ := List.any_eq_true.1 hreports
  refine ⟨result, hresult, fun hbest => ?_⟩
  have hcarries : Carries knownToo (knownToo.sha1 DhtNode.owner) []
      (replyOf (responseWith (ascii "-1") negativeSignature))
      { value := ascii "1:a", publicKey := DhtNode.owner, signature := negativeSignature,
        sequence := -1 } :=
    ⟨Option.map_eq_some_iff.1 (by decide +kernel), by decide +kernel,
      by decide +kernel, by decide +kernel, by decide +kernel, by decide +kernel⟩
  have hfound := (hbest.best _ (mem_processed oneAsked (by decide +kernel)) _ hcarries).1
  rw [hfound] at hnot
  exact Bool.noConfusion hnot

/-- It is found if its sequence number is `1`. -/
theorem best_iff_positive :
    let datagram := responseWith (ascii "1") (DhtNode.signatureOf (ascii "1:a"))
    ∃ result ∈ (itemSearcher.run knownToo (oneResponds datagram)).reports,
      Best knownToo (knownToo.sha1 DhtNode.owner) []
      (processed knownToo itemSearcher (oneResponds datagram))
        result := by
  intro datagram
  have hreports : (itemSearcher.run knownToo (oneResponds datagram)).reports.any fun _ => true := by
    decide +kernel
  obtain ⟨result, hresult, -⟩ := List.any_eq_true.1 hreports
  have hcarries : Carries knownToo (knownToo.sha1 DhtNode.owner) [] (replyOf datagram)
      { value := ascii "1:a", publicKey := DhtNode.owner
        signature := DhtNode.signatureOf (ascii "1:a"), sequence := 1 } :=
    ⟨Option.map_eq_some_iff.1 (by decide +kernel), by decide +kernel,
      by decide +kernel, by decide +kernel, by decide +kernel, by decide +kernel⟩
  refine ⟨result, hresult, (best_iff knownToo (knownToo.sha1 DhtNode.owner) .IPv4 default
    false [] 700 1500
    (oneResponds datagram) (parsed_oneResponds (by decide +kernel)) result hresult).2 (.inr ?_)⟩
  exact ⟨_, mem_processed oneAsked (by decide +kernel), _, hcarries, by decide⟩

end Dht.Lookup
