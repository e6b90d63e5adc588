import DhtCore.Krpc
import DhtCore.Lib.Distinct
import DhtCore.NetworkStats.Basic

/-!
# Who queries

The nodes that query us are counted by address, as many addresses as there is room for, with what
they say of themselves; and their queries by method (`InboundTally`).

A summary says of the first 500,000 addresses how many there are, how many have been read-only at
any time and what they run, by the latest query that says so, and how many queries came from
others (`summary_tells`).
-/

namespace Dht

/-- What is known of an address. -/
structure Querier where
  versionKey : ℕ := 0
  readOnly : Bool := false
  ipv4 : Bool := true
  deriving DecidableEq

/-- Who queries, and what for. -/
structure InboundSummary where
  queries : ℕ := 0
  /-- Distinct addresses, of those that are tracked. -/
  addresses : ℕ := 0
  ipv4Addresses : ℕ := 0
  ipv6Addresses : ℕ := 0
  readOnlyAddresses : ℕ := 0
  /-- From addresses beyond those. -/
  untrackedQueries : ℕ := 0
  clients : List ClientTally := []
  methods : List (String × ℕ) := []

/-- What is counted of the queries received. -/
structure InboundTally where
  queriers : AList fun _ : BitVec 128 => Querier := ∅
  methods : Tally String ℕ := ∅
  queries : ℕ := 0
  untrackedQueries : ℕ := 0

/-- What a query says of where it comes from. -/
def Querier.see (q : Querier) (query : Krpc.Message) : Querier :=
  let q := { q with readOnly := q.readOnly || query.readOnly }
  if !query.version.isEmpty || q.versionKey = 0 then
    { q with versionKey := CatalogEntry.versionKeyFor query.version }
  else q

/-- Whether an address is one of IPv4. -/
def HostAddress.isV4 : HostAddress → Bool
  | .ipv4 _ => true
  | _ => false

namespace InboundTally

/-- The addresses that are tracked. -/
def MaxAddresses : ℕ := 500000

/-- The methods that are counted by name: a node that makes up names cannot grow the table. -/
def knownMethods : List String :=
  ["ping", "find_node", "get_peers", "announce_peer", "get", "put", "sample_infohashes"]

/-- The name under which a method is counted: `other` if it is not known. -/
def methodLabel (method : Bytes) : String :=
  (knownMethods.find? fun name => ascii name = method).getD "other"

variable (t : InboundTally)

/-- Counts a query that was received. -/
def record (source : Endpoint) (query : Krpc.Message) : InboundTally :=
  let t := { t with
    queries := t.queries + 1
    methods := t.methods.add (methodLabel query.method) 1 }
  let key := source.address.key
  match t.queriers.lookup key with
  | none =>
    if t.queriers.keys.length ≥ MaxAddresses then
      { t with untrackedQueries := t.untrackedQueries + 1 }
    else
      let q : Querier := { ipv4 := source.address.isV4 }
      { t with queriers := t.queriers.insert key (q.see query) }
  | some q => { t with queriers := t.queriers.insert key (q.see query) }

variable (sorting : (α : Type) → Sorting.Algorithm α) (labels : ℕ → ClientLabels)
  (compareText : String → String → Ordering)

/-- A client more. -/
def addClient (clients : AList fun _ : String => ClientTally) (l : ClientLabels) :
    AList fun _ : String => ClientTally :=
  let tally := (clients.lookup l.client).getD {}
  clients.insert l.client { tally with name := l.client, kind := l.kind, count := tally.count + 1 }

/-- The most common one first, then by name. -/
def commonest {α : Type} (count : α → ℚ) (name : α → String) (a b : α) : Bool :=
  if count a ≠ count b then count a > count b else compareText (name a) (name b) = .lt

/-- What was counted, the most common first. -/
def summary : InboundSummary :=
  let queriers := t.queriers.entries.map (·.2)
  let clients := (queriers.map fun q => labels q.versionKey).foldl addClient ∅
  { queries := t.queries
    untrackedQueries := t.untrackedQueries
    addresses := t.queriers.keys.length
    ipv4Addresses := queriers.countP (·.ipv4)
    ipv6Addresses := queriers.countP (!·.ipv4)
    readOnlyAddresses := queriers.countP (·.readOnly)
    clients := (sorting ClientTally).sort (commonest compareText (·.count) (·.name))
      (clients.entries.map (·.2))
    methods := (sorting (String × ℕ)).sort
      (commonest compareText (fun m => (m.2 : ℚ)) (·.1)) t.methods.toList }

/-! ## What was recorded -/

/-- A query, and where it came from. -/
abbrev Received := Endpoint × Krpc.Message

/-- The tally of what was received since it was cleared. -/
def recorded (received : List Received) : InboundTally :=
  received.foldl (fun t p => t.record p.1 p.2) {}

variable (received : List Received) (a : BitVec 128)

/-- The addresses that are tracked: the first ones, as many as there is room for. -/
def tracked : List (BitVec 128) :=
  Distinct.first MaxAddresses (received.map fun p => p.1.address.key)

/-- What came from an address. -/
def comingFrom : List Received := received.filter fun p => p.1.address.key = a

/-- What the latest query that says so says that the node runs. -/
def latestVersion : Bytes :=
  (((received.map (·.2.version)).filter fun version => !version.isEmpty).getLast?).getD []

/-- What is known of whom all queries come from. -/
def querier : Querier where
  versionKey := CatalogEntry.versionKeyFor (latestVersion received)
  readOnly := received.any (·.2.readOnly)
  ipv4 := (received.head?.map (·.1.address.isV4)).getD true

/-- What is known of an address. -/
def seen : Querier := querier (comingFrom received a)

variable {received a} {t : InboundTally} {p : Received}

theorem querier_concat : querier (received ++ [p]) =
    (if received = [] then { ipv4 := p.1.address.isV4 } else querier received).see p.2 := by
  have hlatest : latestVersion (received ++ [p]) =
      if p.2.version.isEmpty then latestVersion received else p.2.version := by
    rw [latestVersion, List.map_append, List.filter_append, List.map_singleton,
      List.filter_singleton]
    cases p.2.version.isEmpty with
    | true => simp [latestVersion]
    | false => simp
  have hnone : CatalogEntry.versionKeyFor [] = 0 := by decide
  have hstart : (if received = [] then { ipv4 := p.1.address.isV4 } else querier received) =
      { querier received with
        ipv4 := ((received ++ [p]).head?.map (·.1.address.isV4)).getD true } := by
    split_ifs with hnil
    · rw [hnil, querier, latestVersion]
      simp [hnone]
    · obtain ⟨q, rest, rfl⟩ := List.exists_cons_of_ne_nil hnil
      rfl
  rw [hstart, querier, hlatest, Querier.see, List.any_append, List.any_cons, List.any_nil,
    Bool.or_false]
  dsimp only
  cases hempty : p.2.version.isEmpty with
  | false => simp [querier]
  | true =>
    by_cases hkey : CatalogEntry.versionKeyFor (latestVersion received) = 0
    · rw [List.isEmpty_iff.1 hempty]
      simp [querier, hkey, hnone]
    · simp [querier, hkey]

/-- What comes from an address does not tell of others. -/
theorem seen_concat_of_ne (h : a ≠ p.1.address.key) :
    seen (received ++ [p]) a = seen received a := by
  rw [seen, comingFrom, List.filter_append, List.filter_cons_of_neg (by simpa using h.symm),
    List.filter_nil, List.append_nil]
  rfl

theorem seen_concat (h : p.1.address.key = a) : seen (received ++ [p]) a =
    (if comingFrom received a = [] then { ipv4 := p.1.address.isV4 } else seen received a).see
      p.2 := by
  have hconcat : comingFrom (received ++ [p]) a = comingFrom received a ++ [p] := by
    rw [comingFrom, List.filter_append, List.filter_cons_of_pos (by simpa using h),
      List.filter_nil]
    rfl
  rw [seen, hconcat, querier_concat]
  rfl

theorem comingFrom_eq_nil : comingFrom received a = [] ↔
    a ∉ received.map fun p => p.1.address.key := by
  rw [comingFrom, List.filter_eq_nil_iff, List.mem_map, not_exists]
  refine forall_congr' fun p => ?_
  rw [decide_eq_true_eq, not_and]

/-- The tables hold what was recorded. -/
structure Records (received : List Received) (t : InboundTally) : Prop where
  queries : t.queries = received.length
  count : ∀ name, t.methods.count name = received.countP fun p => methodLabel p.2.method = name
  mem : ∀ name, name ∈ t.methods ↔ ∃ p ∈ received, methodLabel p.2.method = name
  keys : t.queriers.keys.Perm (tracked received)
  untracked : t.untrackedQueries = received.countP fun p => p.1.address.key ∉ tracked received
  lookup : ∀ a ∈ tracked received, t.queriers.lookup a = some (seen received a)

theorem records_nil : Records [] {} :=
  ⟨rfl, fun _ => rfl, fun _ => by simp [AList.notMem_empty], .refl _, rfl,
    fun _ h => absurd h List.not_mem_nil⟩

theorem count_add_methodLabel (h : ∀ name, t.methods.count name =
      received.countP fun p => methodLabel p.2.method = name) (p : Received) (name : String) :
    (t.methods.add (methodLabel p.2.method) 1).count name =
      (received ++ [p]).countP fun p => methodLabel p.2.method = name := by
  rw [Tally.count_add, List.countP_append, List.countP_singleton, h, h]
  by_cases hname : name = methodLabel p.2.method
  · rw [if_pos hname, if_pos (decide_eq_true hname.symm), hname]
  · rw [if_neg hname, if_neg (by simpa using Ne.symm hname), Nat.add_zero]

theorem mem_add_methodLabel
    (h : ∀ name, name ∈ t.methods ↔ ∃ p ∈ received, methodLabel p.2.method = name) (p : Received)
    (name : String) : name ∈ t.methods.add (methodLabel p.2.method) 1 ↔
      ∃ q ∈ received ++ [p], methodLabel q.2.method = name := by
  rw [Tally.mem_add, h]
  simp only [List.mem_append, List.mem_singleton, or_and_right, exists_or, exists_eq_left]
  rw [or_comm, eq_comm]

theorem tracked_concat (received : List Received) (p : Received) : tracked (received ++ [p]) =
    if p.1.address.key ∈ tracked received ∨ MaxAddresses ≤ (tracked received).length then
      tracked received
    else tracked received ++ [p.1.address.key] := by
  rw [tracked, List.map_append, List.map_singleton]
  exact Distinct.first_concat MaxAddresses _ _

theorem untracked_concat (htracked : tracked (received ++ [p]) = tracked received) :
    (received ++ [p]).countP (fun q => q.1.address.key ∉ tracked (received ++ [p])) =
      received.countP (fun q => q.1.address.key ∉ tracked received) +
        if p.1.address.key ∈ tracked received then 0 else 1 := by
  rw [htracked, List.countP_append, List.countP_singleton]
  by_cases hmem : p.1.address.key ∈ tracked received
  · rw [if_neg (by simpa using hmem), if_pos hmem]
  · rw [if_pos (decide_eq_true hmem), if_neg hmem]

theorem Records.record (h : Records received t) (p : Received) :
    Records (received ++ [p]) (t.record p.1 p.2) := by
  have hqueries : t.queries + 1 = (received ++ [p]).length := by
    rw [h.queries, List.length_append, List.length_singleton]
  have hcount := count_add_methodLabel h.count p
  have hmem := mem_add_methodLabel h.mem p
  have hother : ∀ b ∈ tracked received, b ≠ p.1.address.key →
      t.queriers.lookup b = some (seen (received ++ [p]) b) := fun b hb hne => by
    rw [seen_concat_of_ne hne, h.lookup b hb]
  rw [InboundTally.record]
  dsimp only
  cases hlookup : t.queriers.lookup p.1.address.key with
  | some q =>
    have hkey : p.1.address.key ∈ t.queriers.keys := by
      rw [← AList.mem_keys, ← AList.lookup_isSome, hlookup]
      rfl
    have hin := h.keys.mem_iff.1 hkey
    have htracked : tracked (received ++ [p]) = tracked received := by
      rw [tracked_concat, if_pos (.inl hin)]
    have hseen : seen (received ++ [p]) p.1.address.key = q.see p.2 := by
      have hne : comingFrom received p.1.address.key ≠ [] := fun hnil =>
        comingFrom_eq_nil.1 hnil (Distinct.mem_of_mem_first hin)
      rw [seen_concat rfl, if_neg hne, Option.some.inj ((h.lookup _ hin).symm.trans hlookup)]
    refine ⟨hqueries, hcount, hmem, ?_, ?_, fun b hb => ?_⟩
    · rw [htracked, AList.keys_insert]
      exact (List.perm_cons_erase hkey).symm.trans h.keys
    · rw [untracked_concat htracked, if_pos hin]
      exact h.untracked
    · rw [htracked] at hb
      by_cases hb' : b = p.1.address.key
      · rw [hb', AList.lookup_insert, hseen]
      · rw [AList.lookup_insert_ne hb']
        exact hother b hb hb'
  | none =>
    have hkey : p.1.address.key ∉ t.queriers.keys := by
      rw [← AList.mem_keys, ← AList.lookup_eq_none, hlookup]
    have hout : p.1.address.key ∉ tracked received := fun hin => hkey (h.keys.mem_iff.2 hin)
    have hne : ∀ b ∈ tracked received, b ≠ p.1.address.key := fun b hb heq => hout (heq ▸ hb)
    rw [h.keys.length_eq]
    split_ifs with hfull
    · have htracked : tracked (received ++ [p]) = tracked received := by
        rw [tracked_concat, if_pos (.inr hfull)]
      refine ⟨hqueries, hcount, hmem, htracked ▸ h.keys, ?_, fun b hb => ?_⟩
      · rw [untracked_concat htracked, if_neg hout]
        exact congrArg (· + 1) h.untracked
      · rw [htracked] at hb
        exact hother b hb (hne b hb)
    · have htracked : tracked (received ++ [p]) = tracked received ++ [p.1.address.key] := by
        rw [tracked_concat, if_neg (not_or.2 ⟨hout, hfull⟩)]
      -- As there is room, nothing has come from the address before.
      have hnew : p.1.address.key ∉ received.map fun q => q.1.address.key := fun hin =>
        hout (Distinct.mem_first_of_lt (not_le.1 hfull) hin)
      have hseen : seen (received ++ [p]) p.1.address.key =
          Querier.see { ipv4 := p.1.address.isV4 } p.2 := by
        rw [seen_concat rfl, if_pos (comingFrom_eq_nil.2 hnew)]
      refine ⟨hqueries, hcount, hmem, ?_, ?_, fun b hb => ?_⟩
      · rw [htracked, AList.keys_insert, List.erase_of_not_mem hkey]
        exact (h.keys.cons _).trans (List.perm_append_singleton _ _).symm
      · rw [h.untracked, htracked, List.countP_append, List.countP_singleton,
          if_neg (by simp), Nat.add_zero]
        refine List.countP_congr fun q hq => ?_
        have hne : q.1.address.key ≠ p.1.address.key := fun heq =>
          hnew (heq ▸ List.mem_map_of_mem hq)
        simp [hne]
      · by_cases hb' : b = p.1.address.key
        · rw [hb', AList.lookup_insert, hseen]
        · rw [AList.lookup_insert_ne hb']
          rw [htracked, List.mem_append, List.mem_singleton] at hb
          exact hother b (hb.resolve_right hb') hb'

theorem records_recorded (received : List Received) : Records received (recorded received) := by
  induction received using List.reverseRecOn with
  | nil => exact records_nil
  | append_singleton received p ih =>
    rw [recorded, List.foldl_append]
    exact ih.record p

/-! ## What a summary tells -/

/-- The queriers are those of the addresses that are tracked. -/
theorem Records.queriers (h : Records received t) :
    (t.queriers.entries.map (·.2)).Perm ((tracked received).map (seen received)) := by
  have hmap : t.queriers.entries.map (·.2) = t.queriers.keys.map (seen received) := by
    rw [AList.keys, List.keys, List.map_map]
    refine List.map_congr_left fun e he => ?_
    have hlookup := AList.mem_lookup_iff.2 he
    have hmem : e.1 ∈ t.queriers.keys := List.mem_map_of_mem he
    rw [Option.mem_def, h.lookup e.1 (h.keys.mem_iff.1 hmem)] at hlookup
    exact (Option.some.inj hlookup).symm
  rw [hmap]
  exact h.keys.map _

/-- The clients are those of some labels, with how many have them. -/
structure Counts (ls : List ClientLabels) (clients : AList fun _ : String => ClientTally) :
    Prop where
  mem : ∀ name, name ∈ clients ↔ name ∈ ls.map (·.client)
  tally : ∀ name c, clients.lookup name = some c → c.name = name ∧
    c.count = ls.countP (·.client = name) ∧ ∃ l ∈ ls, l.client = name ∧ l.kind = c.kind

theorem Counts.addClient {ls : List ClientLabels} {clients : AList fun _ : String => ClientTally}
    (h : Counts ls clients) (l : ClientLabels) :
    Counts (ls ++ [l]) (InboundTally.addClient clients l) := by
  refine ⟨fun name => ?_, fun name c hlookup => ?_⟩
  · rw [InboundTally.addClient, AList.mem_insert, h.mem, List.map_append, List.map_singleton,
      List.mem_append, List.mem_singleton, or_comm]
  · rw [InboundTally.addClient] at hlookup
    rw [List.countP_append, List.countP_singleton]
    by_cases hname : name = l.client
    · subst hname
      rw [AList.lookup_insert] at hlookup
      obtain rfl := Option.some.inj hlookup
      refine ⟨rfl, ?_, l, by simp, rfl, rfl⟩
      have hcount :
          ((clients.lookup l.client).getD {}).count = ls.countP (·.client = l.client) := by
        cases hold : clients.lookup l.client with
        | some c => exact (h.tally _ c hold).2.1
        | none =>
          rw [AList.lookup_eq_none, h.mem] at hold
          have hzero : ls.countP (·.client = l.client) = 0 := by
            refine List.countP_eq_zero.2 fun l' hl' heq => hold ?_
            rw [← of_decide_eq_true heq]
            exact List.mem_map_of_mem hl'
          rw [hzero]
          rfl
      rw [if_pos (decide_eq_true rfl), Nat.cast_add, ← hcount]
      rfl
    · rw [AList.lookup_insert_ne hname] at hlookup
      obtain ⟨hc, hcount, l', hl', hlabel⟩ := h.tally name c hlookup
      rw [if_neg (by simpa using Ne.symm hname), Nat.add_zero]
      exact ⟨hc, hcount, l', List.mem_append_left _ hl', hlabel⟩

theorem counts_foldl (ls : List ClientLabels) : Counts ls (ls.foldl addClient ∅) := by
  induction ls using List.reverseRecOn with
  | nil =>
    refine ⟨fun name => by simp [AList.notMem_empty], fun name c h => ?_⟩
    rw [List.foldl_nil, AList.lookup_empty] at h
    cases h
  | append_singleton ls l ih =>
    rw [List.foldl_append]
    exact ih.addClient l

theorem Counts.lookup_name {ls : List ClientLabels} {clients : AList fun _ : String => ClientTally}
    (h : Counts ls clients) {e : Sigma fun _ : String => ClientTally} (he : e ∈ clients.entries) :
    e.2.name = e.1 ∧ clients.lookup e.2.name = some e.2 := by
  have hlookup : clients.lookup e.1 = some e.2 := AList.mem_lookup_iff.2 he
  have hname := (h.tally _ _ hlookup).1
  exact ⟨hname, hname ▸ hlookup⟩

theorem Counts.names {ls : List ClientLabels} {clients : AList fun _ : String => ClientTally}
    (h : Counts ls clients) : (clients.entries.map (·.2)).map (·.name) = clients.keys := by
  rw [List.map_map, AList.keys, List.keys]
  exact List.map_congr_left fun e he => (h.lookup_name he).1

/-- Of a method as many queries were counted as there were, if there were any. -/
theorem Records.mem_methods (h : Records received t) (name : String) (n : ℕ) :
    (name, n) ∈ t.methods.toList ↔
      0 < n ∧ n = received.countP fun p => methodLabel p.2.method = name := by
  have hlookup : (name, n) ∈ t.methods.toList ↔ t.methods.lookup name = some n := by
    rw [← Option.mem_def, AList.mem_lookup_iff, Tally.toList, List.mem_map]
    constructor
    · rintro ⟨⟨name', n'⟩, he, heq⟩
      obtain ⟨rfl, rfl⟩ := Prod.mk.inj heq
      exact he
    · exact fun he => ⟨_, he, rfl⟩
  have hcount := h.count name
  rw [Tally.count] at hcount
  have hpos : name ∈ t.methods ↔ 0 < received.countP fun p => methodLabel p.2.method = name := by
    rw [h.mem, List.countP_pos_iff]
    simp only [decide_eq_true_eq]
  rw [hlookup]
  constructor
  · intro hsome
    rw [hsome, Option.getD_some] at hcount
    have hmem : name ∈ t.methods := AList.lookup_isSome.1 (hsome ▸ rfl)
    exact ⟨hcount ▸ hpos.1 hmem, hcount⟩
  · rintro ⟨hn, rfl⟩
    obtain ⟨n, hsome⟩ := Option.isSome_iff_exists.1 (AList.lookup_isSome.2 (hpos.2 hn))
    rw [hsome, Option.getD_some] at hcount
    rw [hsome, hcount]

/-- The order in which summaries list is a strict weak one. -/
theorem strictWeak_commonest {α : Type} (compareText : String → String → Ordering)
    [Std.TransCmp compareText] (count : α → ℚ) (name : α → String) :
    Sorting.StrictWeak (commonest compareText count name) := by
  have hcmp : commonest compareText count name = fun a b => decide (compareLex
      (Sorting.directed true (compareOn count)) (Ordering.byKey name compareText) a b = .lt) := by
    funext a b
    have hlex : compareLex (Sorting.directed true (compareOn count))
        (Ordering.byKey name compareText) a b =
          (compare (count b) (count a)).then (compareText (name a) (name b)) := rfl
    rw [Bool.eq_iff_iff, decide_eq_true_eq, hlex, commonest]
    rcases lt_trichotomy (count a) (count b) with hlt | heq | hgt
    · rw [if_pos hlt.ne, compare_gt_iff_gt.2 hlt]
      simpa using hlt.le
    · rw [if_neg (not_not.2 heq), compare_eq_iff_eq.2 heq.symm]
      exact decide_eq_true_iff
    · rw [if_pos hgt.ne', compare_lt_iff_lt.2 hgt]
      simpa using hgt
  rw [hcmp]
  exact Sorting.strictWeak_of_cmp _

/-- What the latest query of an address that says so says that it runs. -/
def labelsOf (labels : ℕ → ClientLabels) (received : List Received) (a : BitVec 128) :
    ClientLabels :=
  labels (CatalogEntry.versionKeyFor (latestVersion (comingFrom received a)))

/-- A summary tells of what was received. -/
structure Tells (labels : ℕ → ClientLabels) (compareText : String → String → Ordering)
    (received : List Received) (s : InboundSummary) : Prop where
  queries : s.queries = received.length
  untracked : s.untrackedQueries = received.countP fun p => p.1.address.key ∉ tracked received
  addresses : s.addresses = (tracked received).length
  families : s.ipv4Addresses + s.ipv6Addresses = s.addresses
  ipv4 : s.ipv4Addresses = (tracked received).countP fun a =>
    ((comingFrom received a).head?.map (·.1.address.isV4)).getD true
  readOnly : s.readOnlyAddresses = (tracked received).countP fun a =>
    (comingFrom received a).any (·.2.readOnly)
  /-- Each client once. -/
  names : (s.clients.map (·.name)).Nodup
  client : ∀ a ∈ tracked received, (labelsOf labels received a).client ∈ s.clients.map (·.name)
  count : ∀ c ∈ s.clients,
    c.count = (tracked received).countP fun a => (labelsOf labels received a).client = c.name
  kind : ∀ c ∈ s.clients, ∃ a ∈ tracked received,
    (labelsOf labels received a).client = c.name ∧ (labelsOf labels received a).kind = c.kind
  clients : Sorting.Sorted (commonest compareText (·.count) (·.name)) s.clients
  /-- Each method that was asked for once, the made up ones taken together. -/
  methodNames : (s.methods.map (·.1)).Nodup
  method : ∀ name n, (name, n) ∈ s.methods ↔
    0 < n ∧ n = received.countP fun p => methodLabel p.2.method = name
  methods : Sorting.Sorted (commonest compareText (fun m => (m.2 : ℚ)) (·.1)) s.methods

variable (sorting : (α : Type) → Sorting.Algorithm α) (labels : ℕ → ClientLabels)
  (compareText : String → String → Ordering)

/-- Of what is received since the tally was cleared, a summary tells. -/
theorem summary_tells [Std.TransCmp compareText] (received : List Received) :
    Tells labels compareText received ((recorded received).summary sorting labels compareText) := by
  have h := records_recorded received
  generalize recorded received = t at h
  have hcounts := counts_foldl ((t.queriers.entries.map (·.2)).map fun q => labels q.versionKey)
  have hlabels : ((t.queriers.entries.map (·.2)).map fun q => labels q.versionKey).Perm
      ((tracked received).map (labelsOf labels received)) := by
    have hmap := h.queriers.map fun q => labels q.versionKey
    rwa [List.map_map (l := tracked received)] at hmap
  have hcountP (p : Querier → Bool) : (t.queriers.entries.map (·.2)).countP p =
      (tracked received).countP fun a => p (seen received a) := by
    rw [h.queriers.countP_eq, List.countP_map]
    rfl
  have haddresses : t.queriers.keys.length = (tracked received).length := h.keys.length_eq
  have hfamilies : (t.queriers.entries.map (·.2)).countP (·.ipv4) +
      (t.queriers.entries.map (·.2)).countP (!·.ipv4) = t.queriers.keys.length := by
    rw [AList.keys, List.keys, List.length_map, ← List.length_map (·.2),
      List.length_eq_countP_add_countP (·.ipv4)]
    simp only [Bool.not_eq_true, Bool.decide_eq_false]
  rw [summary]
  generalize (t.queriers.entries.map (·.2)).map (fun q => labels q.versionKey) = ls at *
  generalize ls.foldl addClient ∅ = clients at hcounts
  have hclients := (sorting ClientTally).sort_perm (commonest compareText (·.count) (·.name))
    (clients.entries.map (·.2))
  have hmethods := (sorting (String × ℕ)).sort_perm
    (commonest compareText (fun m => (m.2 : ℚ)) (·.1)) t.methods.toList
  have hnames := hclients.map (·.name)
  rw [hcounts.names] at hnames
  -- What is listed of clients is what the table has at their names.
  have htally : ∀ c ∈ (sorting ClientTally).sort (commonest compareText (·.count) (·.name))
      (clients.entries.map (·.2)), clients.lookup c.name = some c := fun c hc => by
    obtain ⟨e, he, rfl⟩ := List.mem_map.1 (hclients.mem_iff.1 hc)
    exact (hcounts.lookup_name he).2
  refine ⟨h.queries, h.untracked, haddresses, hfamilies, hcountP (·.ipv4), hcountP (·.readOnly),
    ?_, fun a ha => ?_, fun c hc => ?_, fun c hc => ?_, ?_, ?_, fun name n => ?_, ?_⟩
  · exact hnames.nodup_iff.2 clients.nodupKeys
  · rw [hnames.mem_iff, ← AList.mem_keys, hcounts.mem, (hlabels.map _).mem_iff]
    exact List.mem_map_of_mem (List.mem_map_of_mem ha)
  · obtain ⟨-, hcount, -⟩ := hcounts.tally _ c (htally c hc)
    rw [hcount, hlabels.countP_eq, List.countP_map]
    rfl
  · obtain ⟨-, -, l, hl, hclient, hkind⟩ := hcounts.tally _ c (htally c hc)
    obtain ⟨a, ha, rfl⟩ := List.mem_map.1 (hlabels.mem_iff.1 hl)
    exact ⟨a, ha, hclient, hkind⟩
  · exact (sorting ClientTally).sorted_sort _ _ (strictWeak_commonest compareText _ _)
  · have hkeys : t.methods.toList.map (·.1) = t.methods.keys := by
      rw [Tally.toList, List.map_map]
      rfl
    rw [(hmethods.map _).nodup_iff, hkeys]
    exact t.methods.nodupKeys
  · rw [hmethods.mem_iff]
    exact h.mem_methods name n
  · exact (sorting (String × ℕ)).sorted_sort _ _ (strictWeak_commonest compareText _ _)

/-- Of two nodes, one of which asks twice and names its client the second time. -/
theorem summary_tells_renamed :
    let labels (key : ℕ) : ClientLabels :=
      { client := if key = 0 then "unknown" else "named", version := "", kind := "" }
    let first : Endpoint := ⟨.ipv4 1#32, 6881⟩
    let second : Endpoint := ⟨.ipv6 1#128, 6881⟩
    let received : List Received :=
      [(first, { method := ascii "ping" }), (second, { method := ascii "vote", readOnly := true }),
        (first, { method := ascii "ping", version := ascii "LT01" })]
    Tells labels compare received ((recorded received).summary Sorting.mergeSort labels compare) ∧
      tracked received = [first.address.key, second.address.key] ∧
      (labelsOf labels received first.address.key).client = "named" ∧
      received.countP (fun p => methodLabel p.2.method = "other") = 1 :=
  ⟨summary_tells Sorting.mergeSort _ compare _, by decide +kernel, by decide +kernel,
    by decide +kernel⟩

end InboundTally

end Dht
