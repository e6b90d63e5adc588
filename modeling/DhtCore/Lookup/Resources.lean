import DhtCore.Lookup.Steps

/-!
# What a lookup counts

A lookup counts by hand, in `step`, `checkSlow` and `onReply`: the queries that hold a
slot, those that are waited for, and all of them. Between the events the counters are
those of the candidates (`Balanced`), so that the bounds on them hold for the queries too,
and no endpoint is asked twice.

`step` counts a query when it chooses whom to ask. It asks nobody any more once the lookup
is finished, and then has counted queries that are never sent (`givenUp`).
-/

namespace Dht.Lookup

variable {crypto : Crypto} {l l' : Lookup}

/-! ## Whom a lookup has asked, or is about to -/

/-- A candidate, as nodes are listed in replies. -/
def Candidate.node (c : Candidate) : Krpc.CompactNode := ⟨c.id, c.endpoint⟩

/-- The candidates that were asked, or are about to be. -/
def requested (candidates : List Candidate) : List Krpc.CompactNode :=
  (candidates.filter (·.state ≠ .New)).map Candidate.node

theorem requested_cons_of_new {c : Candidate} (hc : c.state = .New) (cs : List Candidate) :
    requested (c :: cs) = requested cs := by
  rw [requested, List.filter_cons_of_neg (by simpa using hc), requested]

theorem requested_cons_of_not_new {c : Candidate} (hc : c.state ≠ .New) (cs : List Candidate) :
    requested (c :: cs) = c.node :: requested cs := by
  rw [requested, List.filter_cons_of_pos (by simpa using hc), requested, List.map_cons]

theorem requested_append (cs cs' : List Candidate) :
    requested (cs ++ cs') = requested cs ++ requested cs' := by
  rw [requested, List.filter_append, List.map_append, requested, requested]

/-- What is said of candidates that were asked, is said of as many of those before. -/
theorem countP_of_filter {p : Candidate → Bool} (hp : ∀ c, p c = true → c.state ≠ .New)
    {cs cs' : List Candidate} (h : cs'.filter (·.state ≠ .New) = cs.filter (·.state ≠ .New)) :
    cs'.countP p = cs.countP p := by
  have hcount (cs : List Candidate) : cs.countP p = (cs.filter (·.state ≠ .New)).countP p := by
    rw [List.countP_filter]
    refine List.countP_congr fun c _ => ?_
    rw [Bool.and_eq_true, decide_eq_true_eq]
    exact ⟨fun hc => ⟨hc, hp c hc⟩, And.left⟩
  rw [hcount, h, ← hcount]

/-- A change of all candidates that leaves who they are, and whether they are new. -/
theorem requested_map {f : Candidate → Candidate} (hnode : ∀ c, (f c).node = c.node)
    (hnew : ∀ c, (f c).state = .New ↔ c.state = .New) (cs : List Candidate) :
    requested (cs.map f) = requested cs := by
  induction cs with
  | nil => rfl
  | cons c cs ih =>
    rw [List.map_cons]
    by_cases hc : c.state = .New
    · rw [requested_cons_of_new ((hnew c).2 hc), requested_cons_of_new hc, ih]
    · rw [requested_cons_of_not_new (mt (hnew c).1 hc), requested_cons_of_not_new hc, ih, hnode]

theorem nodes_replace {front back : List Candidate} {c c' : Candidate} (hnode : c'.node = c.node) :
    (front ++ c' :: back).map Candidate.node = (front ++ c :: back).map Candidate.node := by
  rw [List.map_append, List.map_append, List.map_cons, List.map_cons, hnode]

theorem requested_replace {front back : List Candidate} {c c' : Candidate}
    (hnode : c'.node = c.node) (hnew : c'.state = .New ↔ c.state = .New) :
    requested (front ++ c' :: back) = requested (front ++ c :: back) := by
  rw [requested_append, requested_append]
  by_cases hc : c.state = .New
  · rw [requested_cons_of_new (hnew.2 hc), requested_cons_of_new hc]
  · rw [requested_cons_of_not_new (mt hnew.1 hc), requested_cons_of_not_new hc, hnode]

theorem endpoints_of_nodes {cs cs' : List Candidate}
    (h : cs'.map Candidate.node = cs.map Candidate.node) :
    cs'.map (·.endpoint) = cs.map (·.endpoint) := by
  have hmap := congrArg (List.map Krpc.CompactNode.endpoint) h
  rw [List.map_map, List.map_map] at hmap
  exact hmap

theorem ids_of_nodes {cs cs' : List Candidate}
    (h : cs'.map Candidate.node = cs.map Candidate.node) : cs'.map (·.id) = cs.map (·.id) := by
  have hmap := congrArg (List.map Krpc.CompactNode.id) h
  rw [List.map_map, List.map_map] at hmap
  exact hmap

/-- How many of a list are such, one of its elements apart. -/
theorem countP_append_cons {α : Type*} (p : α → Bool) (front : List α) (a : α) (back : List α) :
    (front ++ a :: back).countP p = (front ++ back).countP p + if p a then 1 else 0 := by
  rw [List.countP_append, List.countP_append, List.countP_cons, Nat.add_assoc]

/-! ## What `step` chooses -/

/-- Some of the candidates were chosen. -/
structure Chosen (cs cs' : List Candidate) (toSend : List Endpoint) : Prop where
  endpoints : cs'.map (·.endpoint) = cs.map (·.endpoint)
  inFlight : cs'.countP (·.state = .InFlight) = cs.countP (·.state = .InFlight) + toSend.length
  awaited : cs'.countP Candidate.isAwaited = cs.countP Candidate.isAwaited + toSend.length
  requested : ((requested cs').map (·.endpoint)).Perm
    (toSend ++ (requested cs).map (·.endpoint))
  kept : (Lookup.requested cs).Sublist (Lookup.requested cs')

theorem Chosen.refl (cs : List Candidate) : Chosen cs cs [] :=
  ⟨rfl, rfl, rfl, .refl _, .refl _⟩

variable {cs cs' : List Candidate} {toSend : List Endpoint}

/-- A candidate is passed over. -/
theorem Chosen.cons (h : Chosen cs cs' toSend) (c : Candidate) :
    Chosen (c :: cs) (c :: cs') toSend where
  endpoints := by rw [List.map_cons, h.endpoints, List.map_cons]
  inFlight := by
    rw [List.countP_cons, List.countP_cons, h.inFlight, Nat.add_right_comm]
  awaited := by
    rw [List.countP_cons, List.countP_cons, h.awaited, Nat.add_right_comm]
  requested := by
    by_cases hc : c.state = .New
    · rw [requested_cons_of_new hc, requested_cons_of_new hc]
      exact h.requested
    · rw [requested_cons_of_not_new hc, requested_cons_of_not_new hc, List.map_cons, List.map_cons]
      exact (h.requested.cons _).trans List.perm_middle.symm
  kept := by
    by_cases hc : c.state = .New
    · rw [requested_cons_of_new hc, requested_cons_of_new hc]
      exact h.kept
    · rw [requested_cons_of_not_new hc, requested_cons_of_not_new hc]
      exact h.kept.cons_cons _

/-- A candidate that is new is asked. -/
theorem Chosen.ask (h : Chosen cs cs' toSend) {c : Candidate} (hc : c.state = .New) :
    Chosen (c :: cs) ({ c with state := .InFlight, sentAtMs := 0 } :: cs')
      (c.endpoint :: toSend) where
  endpoints := by rw [List.map_cons, h.endpoints, List.map_cons]
  inFlight := by
    rw [List.countP_cons_of_pos (by simp), List.countP_cons_of_neg (by simp [hc]), h.inFlight,
      List.length_cons, Nat.add_assoc]
  awaited := by
    rw [List.countP_cons_of_pos (by simp [Candidate.isAwaited]),
      List.countP_cons_of_neg (by simp [Candidate.isAwaited, hc]), h.awaited, List.length_cons,
      Nat.add_assoc]
  requested := by
    rw [requested_cons_of_new hc, requested_cons_of_not_new (by simp), List.map_cons]
    exact h.requested.cons _
  kept := by
    rw [requested_cons_of_new hc, requested_cons_of_not_new (by simp)]
    exact h.kept.cons _

theorem chosen_choose (queries : ℕ) (budget : ℤ) (ahead : ℕ) (cs : List Candidate) :
    Chosen cs (choose queries budget ahead cs).1 (choose queries budget ahead cs).2 := by
  induction cs generalizing queries budget ahead with
  | nil => exact .refl _
  | cons c cs ih =>
    rw [choose]
    split_ifs with hbreak hresponded hnew
    · exact .refl _
    · exact (ih ..).cons c
    · exact (ih ..).ask hnew.1
    · exact (ih ..).cons c

/-- No more are asked than the budget allows. -/
theorem length_choose_le_budget {budget : ℤ} (hbudget : 0 ≤ budget) (queries ahead : ℕ)
    (cs : List Candidate) : ((choose queries budget ahead cs).2.length : ℤ) ≤ budget := by
  induction cs generalizing queries budget ahead with
  | nil => exact hbudget
  | cons c cs ih =>
    rw [choose]
    split_ifs with hbreak hresponded hnew
    · exact hbudget
    · exact ih hbudget ..
    · have hrest := ih (show 0 ≤ budget - 1 by omega) (queries + 1) ahead
      rw [List.length_cons, Nat.cast_add, Nat.cast_one]
      omega
    · exact ih hbudget ..

/-- No more are asked than queries may be sent. -/
theorem length_choose_le_queries {queries : ℕ} (hqueries : queries ≤ MaxQueries) (budget : ℤ)
    (ahead : ℕ) (cs : List Candidate) :
    queries + (choose queries budget ahead cs).2.length ≤ MaxQueries := by
  induction cs generalizing queries budget ahead with
  | nil => exact hqueries
  | cons c cs ih =>
    rw [choose]
    split_ifs with hbreak hresponded hnew
    · exact hqueries
    · exact ih hqueries ..
    · have hrest := ih (show queries + 1 ≤ MaxQueries from hnew.2) (budget - 1) ahead
      rw [List.length_cons]
      omega
    · exact ih hqueries ..

/-! ## What else happens to candidates -/

theorem filter_insertCandidate {target : NodeId} {candidate : Candidate}
    (hnew : candidate.state = .New) (cs : List Candidate) :
    (insertCandidate target candidate cs).filter (·.state ≠ .New) =
    cs.filter (·.state ≠ .New) := by
  induction cs with
  | nil => exact List.filter_cons_of_neg (by simpa using hnew)
  | cons c cs ih =>
    rw [insertCandidate]
    split_ifs
    · rw [List.filter_cons, List.filter_cons, ih]
    · exact List.filter_cons_of_neg (by simpa using hnew)

theorem filter_dropNew (excess : ℕ) (cs : List Candidate) :
    (dropNew excess cs).filter (·.state ≠ .New) = cs.filter (·.state ≠ .New) := by
  induction cs generalizing excess with
  | nil => cases excess <;> rfl
  | cons c cs ih =>
    cases excess with
    | zero => rfl
    | succ excess =>
      rw [dropNew]
      split_ifs with hnew
      · rw [ih, List.filter_cons_of_neg (by simpa using hnew)]
      · rw [List.filter_cons, List.filter_cons, ih]

theorem filter_trim (cs : List Candidate) :
    (trim cs).filter (·.state ≠ .New) = cs.filter (·.state ≠ .New) := by
  rw [trim, List.filter_reverse, filter_dropNew, ← List.filter_reverse, List.reverse_reverse]

theorem perm_insertCandidate (target : NodeId) (candidate : Candidate) (cs : List Candidate) :
    (insertCandidate target candidate cs).Perm (candidate :: cs) := by
  induction cs with
  | nil => exact .refl _
  | cons c cs ih =>
    rw [insertCandidate]
    split_ifs
    · exact (ih.cons c).trans (.swap ..)
    · exact .refl _

/-- The candidate that is found is the one that changes. -/
theorem updateFirst_of_find {endpoint : Endpoint} {c : Candidate} {cs : List Candidate}
    (h : cs.find? (·.endpoint = endpoint) = some c) (f : Candidate → Candidate) :
    ∃ front back, cs = front ++ c :: back ∧ updateFirst endpoint f cs = front ++ f c :: back := by
  induction cs with
  | nil => exact nomatch h
  | cons d cs ih =>
    rw [updateFirst]
    split_ifs with hd
    · rw [List.find?_cons_of_pos (by simpa using hd)] at h
      obtain rfl := Option.some.inj h
      exact ⟨[], cs, rfl, rfl⟩
    · rw [List.find?_cons_of_neg (by simpa using hd)] at h
      obtain ⟨front, back, rfl, hupdated⟩ := ih h
      exact ⟨d :: front, back, rfl, congrArg (d :: ·) hupdated⟩

theorem updateFirst_of_not_find {endpoint : Endpoint} {cs : List Candidate}
    (h : cs.find? (·.endpoint = endpoint) = none) (f : Candidate → Candidate) :
    updateFirst endpoint f cs = cs := by
  induction cs with
  | nil => rfl
  | cons d cs ih =>
    rw [List.find?_eq_none] at h
    rw [updateFirst, if_neg (by simpa using h d List.mem_cons_self), ih]
    exact List.find?_eq_none.2 fun c hc => h c (List.mem_cons_of_mem d hc)

/-- The lookup when it is about to add the nodes that a response tells of. -/
def informed (crypto : Crypto) (l : Lookup) (endpoint : Endpoint) (reply : RpcReply) : Lookup :=
  let l := if l.kind = .GetItem then l.collectItem crypto reply else l
  let l :=
    if l.kind = .GetPeers then
      (Krpc.decodePeers (reply.message.body.listAt (ascii "values")) l.family).foldl
        (·.collectPeer endpoint ·) l
    else l
  { l with started := false }

theorem collect_eq (crypto : Crypto) (l : Lookup) (endpoint : Endpoint) (hops : ℤ)
    (reply : RpcReply) : ∃ started, l.collect crypto endpoint hops reply =
    { ((l.informed crypto endpoint reply).nodesIn reply.message.body).foldl
        (fun l node => l.addCandidate node.id node.endpoint hops)
        (l.informed crypto endpoint reply) with started } := ⟨_, rfl⟩

/-- What holds of a lookup whatever item and peers a response tells of. -/
theorem informed_induction {P : Lookup → Prop} {endpoint : Endpoint} {reply : RpcReply}
    (hitem : ∀ l itemFound itemIsMutable item, P l → P { l with itemFound, itemIsMutable, item })
    (hpeers : ∀ l sightings peerSet peers, P l → P { l with sightings, peerSet, peers })
    (hstarted : ∀ l started, P l → P { l with started })
    (hl : P l) : P (l.informed crypto endpoint reply) := by
  have htold (peers : List Endpoint) (l : Lookup) (hl : P l) :
      P (peers.foldl (·.collectPeer endpoint ·) l) := by
    induction peers generalizing l with
    | nil => exact hl
    | cons peer peers ih =>
      refine ih _ ?_
      show P (l.collectPeer endpoint peer)
      rw [collectPeer]
      split_ifs
      · exact hpeers l _ l.peerSet l.peers hl
      · exact hpeers l _ _ _ hl
      · exact hl
      · exact hpeers l l.sightings _ _ hl
  have hkept : P (if l.kind = .GetItem then l.collectItem crypto reply else l) := by
    split_ifs
    · obtain ⟨_, _, _, h⟩ := collectItem_eq crypto l reply
      rw [h]
      exact hitem _ _ _ _ hl
    · exact hl
  rw [informed]
  generalize (if l.kind = .GetItem then l.collectItem crypto reply else l) = l₁ at hkept ⊢
  refine hstarted _ false ?_
  split_ifs
  · exact htold _ l₁ hkept
  · exact hkept

/-- What holds of a lookup whatever a response says: it adds candidates, and keeps an item
    and peers. -/
theorem collect_induction {P : Lookup → Prop} {endpoint : Endpoint} {hops : ℤ} {reply : RpcReply}
    (hitem : ∀ l itemFound itemIsMutable item, P l → P { l with itemFound, itemIsMutable, item })
    (hpeers : ∀ l sightings peerSet peers, P l → P { l with sightings, peerSet, peers })
    (hstarted : ∀ l started, P l → P { l with started })
    (hadd : ∀ l l' id endpoint hops, P l → withCandidate l id endpoint hops = some l' → P l')
    (hl : P l) : P (l.collect crypto endpoint hops reply) := by
  have hadded (nodes : List Krpc.CompactNode) (l : Lookup) (hl : P l) (hidle : l.started = false) :
      P (nodes.foldl (fun l node => l.addCandidate node.id node.endpoint hops) l) := by
    induction nodes generalizing l with
    | nil => exact hl
    | cons node nodes ih =>
      rw [List.foldl_cons]
      refine ih _ ?_ ((keeps_addCandidate hidle ..).started.trans hidle)
      rw [addCandidate]
      split
      next => exact hl
      next l' h =>
        rw [(keeps_withCandidate h).started, hidle, if_neg Bool.false_ne_true]
        exact hadd _ _ _ _ _ hl h
  obtain ⟨started, hcollect⟩ := collect_eq crypto l endpoint hops reply
  rw [hcollect]
  exact hstarted _ _ (hadded _ _ (informed_induction hitem hpeers hstarted hl) rfl)

/-! ## The counters -/

/-- The counters are those of the candidates, and the queries those that were sent, are about
    to be sent, or were given up. -/
structure Balanced (l : Lookup) (unsent : List Endpoint) : Prop where
  inFlight : l.inFlight = l.candidates.countP (·.state = .InFlight)
  outstanding : l.outstanding = l.candidates.countP Candidate.isAwaited
  inFlight_le : l.inFlight ≤ Alpha
  outstanding_le : l.outstanding ≤ MaxOutstanding
  queries_le : l.queries ≤ MaxQueries
  queries : l.queries = (requested l.candidates).length
  requested : (l.asked.map (·.dest) ++ (l.sending.flatten ++ unsent)).Perm
    ((requested l.candidates).map (·.endpoint))
  distinct : (l.candidates.map (·.endpoint)).Nodup
  seen : ∀ c ∈ l.candidates, c.endpoint ∈ l.seen
  inOrder : InOrder l.target l.candidates

variable {unsent : List Endpoint}

theorem not_mem_seen {id : NodeId} {endpoint : Endpoint} {hops : ℤ}
    (h : l.withCandidate id endpoint hops = some l') : endpoint ∉ l.seen := by
  rw [withCandidate] at h
  split_ifs at h with hself husable hseen
  exact hseen

theorem requested_withCandidate {id : NodeId} {endpoint : Endpoint} {hops : ℤ}
    (h : l.withCandidate id endpoint hops = some l') :
    Lookup.requested l'.candidates = Lookup.requested l.candidates := by
  obtain ⟨-, rfl⟩ := withCandidate_eq_some h
  exact congrArg (List.map Candidate.node)
    ((filter_trim _).trans (filter_insertCandidate rfl l.candidates))

theorem Balanced.requested_nodup (hl : Balanced l unsent) :
    ((Lookup.requested l.candidates).map (·.endpoint)).Nodup := by
  rw [Lookup.requested, List.map_map]
  exact (List.filter_sublist.map _).nodup hl.distinct

theorem Balanced.withCandidate (hl : Balanced l unsent) {id : NodeId} {endpoint : Endpoint}
    {hops : ℤ} (h : l.withCandidate id endpoint hops = some l') : Balanced l' unsent := by
  have hfresh := not_mem_seen h
  have hinOrder := (keeps_withCandidate h).inOrder hl.inOrder
  have hrequested := requested_withCandidate h
  obtain ⟨-, rfl⟩ := withCandidate_eq_some h
  -- The candidate is new, and so counts for nothing yet.
  have hfilter := (filter_trim (insertCandidate l.target { id, endpoint, hops } l.candidates)).trans
    (filter_insertCandidate rfl l.candidates)
  have hsub := trim_sublist (insertCandidate l.target { id, endpoint, hops } l.candidates)
  have hperm := perm_insertCandidate l.target { id, endpoint, hops } l.candidates
  refine ⟨?_, ?_, hl.inFlight_le, hl.outstanding_le, hl.queries_le, ?_, ?_, ?_, ?_, hinOrder⟩
  · rw [hl.inFlight]
    refine congrArg _ (countP_of_filter (fun c hc => ?_) hfilter).symm
    rw [of_decide_eq_true hc]
    decide
  · rw [hl.outstanding]
    exact congrArg _ (countP_of_filter (fun c => Candidate.ne_new_of_isAwaited) hfilter).symm
  · exact hl.queries.trans (congrArg _ hrequested.symm)
  · exact hrequested.symm ▸ hl.requested
  · refine (hsub.map _).nodup ((hperm.map _).nodup_iff.2 (List.nodup_cons.2 ⟨?_, hl.distinct⟩))
    intro hmem
    obtain ⟨c, hc, heq⟩ := List.mem_map.1 hmem
    have hseen : c.endpoint ∈ l.seen := hl.seen c hc
    rw [heq] at hseen
    exact hfresh hseen
  · intro c hc
    rcases List.mem_cons.1 (hperm.mem_iff.1 (hsub.mem hc)) with rfl | hc
    · exact List.mem_cons_self
    · exact List.mem_cons_of_mem _ (hl.seen c hc)

theorem Balanced.collect (hl : Balanced l unsent) (endpoint : Endpoint) (hops : ℤ)
    (reply : RpcReply) : Balanced (l.collect crypto endpoint hops reply) unsent :=
  collect_induction (P := fun l => Balanced l unsent)
    (fun _ _ _ _ h => { h with }) (fun _ _ _ _ h => { h with }) (fun _ _ h => { h with })
    (fun _ _ _ _ _ h => h.withCandidate) hl

/-- What leaves who the candidates are, and which were asked, counts them anew. -/
theorem Balanced.of_nodes (hl : Balanced l unsent)
    (hnodes : l'.candidates.map Candidate.node = l.candidates.map Candidate.node)
    (hrequested : Lookup.requested l'.candidates = Lookup.requested l.candidates)
    (hsame : l'.queries = l.queries ∧ l'.asked = l.asked ∧ l'.sending = l.sending ∧
      l'.seen = l.seen ∧ l'.target = l.target)
    (hinFlight : l'.inFlight = l'.candidates.countP (·.state = .InFlight))
    (houtstanding : l'.outstanding = l'.candidates.countP Candidate.isAwaited)
    (hle : l'.inFlight ≤ l.inFlight ∧ l'.outstanding ≤ l.outstanding) :
    Balanced l' unsent := by
  obtain ⟨hqueries, hasked, hsending, hseen, htarget⟩ := hsame
  have hendpoints := endpoints_of_nodes hnodes
  refine ⟨hinFlight, houtstanding, hle.1.trans hl.inFlight_le, hle.2.trans hl.outstanding_le, ?_,
    ?_, ?_, ?_, ?_, ?_⟩
  · exact hqueries ▸ hl.queries_le
  · rw [hqueries, hl.queries, hrequested]
  · rw [hasked, hsending, hrequested]
    exact hl.requested
  · exact hendpoints.symm ▸ hl.distinct
  · intro c hc
    obtain ⟨d, hd, heq⟩ := List.mem_map.1 (hendpoints ▸ List.mem_map_of_mem hc)
    rw [hseen]
    exact heq ▸ hl.seen d hd
  · exact htarget ▸ hl.inOrder.of_ids (ids_of_nodes hnodes)

theorem requested_conclude {endpoint : Endpoint} {c : Candidate} (hc : l.find endpoint = some c)
    (hawaited : c.isAwaited = true) {f : Candidate → Candidate} (hnode : (f c).node = c.node)
    (hended : (f c).state ≠ .New) :
    Lookup.requested (l.conclude endpoint c f).candidates = Lookup.requested l.candidates := by
  obtain ⟨front, back, hcandidates, hupdated⟩ := updateFirst_of_find hc f
  rw [Lookup.conclude, hupdated, hcandidates]
  exact requested_replace hnode (iff_of_false hended (Candidate.ne_new_of_isAwaited hawaited))

/-- A query that is waited for ends. -/
theorem Balanced.conclude (hl : Balanced l unsent) {endpoint : Endpoint} {c : Candidate}
    (hc : l.find endpoint = some c) (hawaited : c.isAwaited = true) {f : Candidate → Candidate}
    (hnode : (f c).node = c.node) (hended : (f c).state ≠ .New ∧ (f c).isAwaited = false) :
    Balanced (l.conclude endpoint c f) unsent := by
  obtain ⟨front, back, hcandidates, hupdated⟩ := updateFirst_of_find hc f
  have hnot : (f c).state ≠ .InFlight := fun h => by
    rw [isAwaited_iff.2 (.inl h)] at hended
    exact Bool.noConfusion hended.2
  refine hl.of_nodes ?_ ?_ ⟨rfl, rfl, rfl, rfl, rfl⟩ ?_ ?_ ?_
  · rw [Lookup.conclude, hupdated, hcandidates, nodes_replace hnode]
  · exact requested_conclude hc hawaited hnode hended.1
  · rw [Lookup.conclude]
    dsimp only
    rw [hupdated, hl.inFlight, hcandidates, countP_append_cons, countP_append_cons]
    simp only [decide_eq_true_eq, if_neg hnot]
    split_ifs <;> omega
  · rw [Lookup.conclude]
    dsimp only
    rw [hupdated, hl.outstanding, hcandidates, countP_append_cons, countP_append_cons, hended.2,
      hawaited, if_neg Bool.false_ne_true, if_pos rfl]
    omega
  · rw [Lookup.conclude]
    dsimp only
    constructor
    · split_ifs <;> omega
    · omega

theorem Balanced.withReply (hl : Balanced l unsent) {endpoint : Endpoint} {reply : RpcReply}
    (h : l.withReply crypto endpoint reply = some l') : Balanced l' unsent := by
  obtain ⟨-, c, hc, hawaited, rfl | ⟨token, rfl⟩⟩ := withReply_eq_some h
  · exact hl.conclude hc hawaited rfl ⟨nofun, rfl⟩
  · have hconcluded : Balanced (l.noteResponse endpoint c token) unsent :=
      { hl.conclude (f := fun c => { c with state := .Responded, token := token.getD c.token })
          hc hawaited rfl ⟨nofun, rfl⟩ with }
    exact hconcluded.collect endpoint _ reply

theorem inFlight_of_isSlow {now : ℤ} {c : Candidate} (h : l.isSlow now c = true) :
    c.state = .InFlight := by
  simp only [isSlow, Bool.and_eq_true, decide_eq_true_eq] at h
  exact h.1.1

/-- Of the queries in flight those that are slow hold no slot any more. -/
theorem countP_markSlow (l : Lookup) (now : ℤ) (cs : List Candidate) :
    (cs.map fun c => if l.isSlow now c then { c with state := .Slow } else c).countP
      (·.state = .InFlight) + cs.countP (l.isSlow now) = cs.countP (·.state = .InFlight) := by
  induction cs with
  | nil => rfl
  | cons c cs ih =>
    rw [List.map_cons, List.countP_cons, List.countP_cons, List.countP_cons]
    by_cases hslow : l.isSlow now c = true
    · have hin := inFlight_of_isSlow hslow
      simp only [hslow, hin, if_true, decide_true, reduceCtorEq, decide_false, Bool.false_eq_true,
        if_false]
      omega
    · simp only [hslow, Bool.false_eq_true, if_false]
      omega

theorem requested_markSlow (l : Lookup) (now : ℤ) :
    Lookup.requested (l.markSlow now).candidates = Lookup.requested l.candidates := by
  refine requested_map (fun c => ?_) (fun c => ?_) l.candidates
  · split_ifs <;> rfl
  · split_ifs with h
    · simp [inFlight_of_isSlow h]
    · rfl

theorem Balanced.markSlow (hl : Balanced l unsent) (now : ℤ) :
    Balanced (l.markSlow now) unsent := by
  have hcount := countP_markSlow l now l.candidates
  refine hl.of_nodes ?_ ?_ ⟨rfl, rfl, rfl, rfl, rfl⟩ ?_ ?_ ⟨?_, le_rfl⟩
  · rw [Lookup.markSlow, List.map_map]
    refine List.map_congr_left fun c _ => ?_
    dsimp only [Function.comp]
    split_ifs <;> rfl
  · exact requested_markSlow l now
  · rw [Lookup.markSlow]
    dsimp only
    rw [hl.inFlight]
    omega
  · rw [Lookup.markSlow]
    dsimp only
    rw [hl.outstanding, List.countP_map]
    refine congrArg _ (List.countP_congr fun c _ => ?_)
    dsimp only [Function.comp]
    split_ifs with h
    · simp [Candidate.isAwaited, inFlight_of_isSlow h]
    · rfl
  · show l.inFlight - l.candidates.countP (l.isSlow now) ≤ l.inFlight
    omega

theorem requested_onSent (l : Lookup) (endpoint : Endpoint) (now : ℤ) :
    Lookup.requested (l.onSent endpoint now).candidates = Lookup.requested l.candidates := by
  rw [Lookup.onSent]
  cases hc : l.candidates.find? (·.endpoint = endpoint) with
  | none => rw [updateFirst_of_not_find hc]
  | some c =>
    obtain ⟨front, back, hcandidates, hupdated⟩ := updateFirst_of_find hc fun c =>
      if c.state = .InFlight then { c with sentAtMs := now } else c
    rw [hupdated, hcandidates]
    refine requested_replace ?_ ?_ <;> split_ifs <;> rfl

theorem Balanced.onSent (hl : Balanced l unsent) (endpoint : Endpoint) (now : ℤ) :
    Balanced (l.onSent endpoint now) unsent := by
  rw [Lookup.onSent]
  cases hc : l.candidates.find? (·.endpoint = endpoint) with
  | none =>
    rw [updateFirst_of_not_find hc]
    exact { hl with }
  | some c =>
    -- Only the time of the candidate that is found may change.
    obtain ⟨front, back, hcandidates, hupdated⟩ := updateFirst_of_find hc fun c =>
      if c.state = .InFlight then { c with sentAtMs := now } else c
    have hf : (if c.state = .InFlight then { c with sentAtMs := now } else c).node = c.node ∧
        (if c.state = .InFlight then { c with sentAtMs := now } else c).state = c.state := by
      split_ifs <;> exact ⟨rfl, rfl⟩
    refine hl.of_nodes ?_ ?_ ⟨rfl, rfl, rfl, rfl, rfl⟩ ?_ ?_ ⟨le_rfl, le_rfl⟩
    · rw [hupdated, hcandidates, nodes_replace hf.1]
    · exact requested_onSent l endpoint now
    · rw [hupdated, hl.inFlight, hcandidates, countP_append_cons, countP_append_cons, hf.2]
    · rw [hupdated, hl.outstanding, hcandidates, countP_append_cons, countP_append_cons,
        Candidate.isAwaited, Candidate.isAwaited, hf.2]

theorem Balanced.step (hl : Balanced l unsent) : Balanced l.step unsent := by
  rw [Lookup.step]
  split_ifs with hfinished
  · exact hl
  · have hchosen := chosen_choose l.queries l.budget 0 l.candidates
    have hids := ids_choose l.queries l.budget 0 l.candidates
    have hbudget : 0 ≤ l.budget :=
      le_min (sub_nonneg.2 hl.inFlight_le) (sub_nonneg.2 hl.outstanding_le)
    have hle := length_choose_le_budget hbudget l.queries 0 l.candidates
    have hqueries := length_choose_le_queries hl.queries_le l.budget 0 l.candidates
    dsimp only
    generalize choose l.queries l.budget 0 l.candidates = chosen at *
    obtain ⟨candidates, toSend⟩ := chosen
    dsimp only at *
    refine ⟨?_, ?_, ?_, ?_, hqueries, ?_, ?_, ?_, ?_, hl.inOrder.of_ids hids⟩
    · rw [hl.inFlight, hchosen.inFlight, Nat.cast_add]
    · rw [hl.outstanding, hchosen.awaited, Nat.cast_add]
    · have hslots := hle.trans (min_le_left (Alpha - l.inFlight) (MaxOutstanding - l.outstanding))
      exact le_sub_iff_add_le'.1 hslots
    · have hrest := hle.trans (min_le_right (Alpha - l.inFlight) (MaxOutstanding - l.outstanding))
      exact le_sub_iff_add_le'.1 hrest
    · have hlength := hchosen.requested.length_eq
      rw [List.length_append, List.length_map, List.length_map] at hlength
      rw [hl.queries, hlength, Nat.add_comm]
    · rw [List.flatten_cons, List.append_assoc]
      exact List.perm_append_comm_assoc _ _ _ |>.trans
        ((hl.requested.append_left toSend).trans hchosen.requested.symm)
    · exact hchosen.endpoints ▸ hl.distinct
    · intro d hd
      obtain ⟨d', hd', heq⟩ := List.mem_map.1 (hchosen.endpoints ▸ List.mem_map_of_mem hd)
      exact heq ▸ hl.seen d' hd'

/-- Whom a call of `step` chose, and does not ask as it finds the lookup finished. -/
def givenUp (l : Lookup) : Event → List Endpoint
  | .resume _ => if l.finished then l.sending.headD [] else []
  | _ => []

theorem Balanced.resume (hl : Balanced l unsent) (now : ℤ) :
    Balanced (l.resume now) (l.givenUp (.resume now) ++ unsent) := by
  rw [Lookup.resume, Lookup.givenUp]
  split
  next hsending =>
    rw [hsending, List.headD_nil, ite_self]
    exact hl
  next endpoints frames hsending =>
    have hrequested := hl.requested
    rw [hsending, List.flatten_cons] at hrequested
    split_ifs with hfinished
    · rw [hsending, List.headD_cons]
      refine { hl with requested := List.Perm.trans (.append_left _ ?_) hrequested }
      rw [List.append_assoc]
      exact List.perm_append_comm_assoc ..
    · split
      next endpoint rest =>
        refine { hl with requested := ?_ }
        rw [List.map_append, List.map_singleton, List.flatten_cons, List.append_assoc]
        exact hrequested
      next =>
        have hreturned : Balanced { l with sending := frames, slowTimer := l.slowTimer ||
            l.outstanding > 0 } unsent := { hl with requested := hrequested }
        dsimp only
        split_ifs
        · exact { hreturned with }
        · exact hreturned

theorem Balanced.apply (hl : Balanced l unsent) (e : Event) :
    Balanced (l.apply crypto e) (l.givenUp e ++ unsent) := by
  cases e with
  | addCandidate id endpoint =>
    show Balanced (l.addCandidate id endpoint) unsent
    rw [addCandidate]
    split
    next => exact hl
    next l' h =>
      split_ifs
      · exact (hl.withCandidate h).step
      · exact hl.withCandidate h
  | start now =>
    have hbegun : Balanced (l.begin now) unsent := { hl with }
    exact hbegun.step
  | resume now => exact hl.resume now
  | sent endpoint now => exact hl.onSent endpoint now
  | checkSlow now =>
    show Balanced (l.checkSlow now) unsent
    rw [checkSlow]
    split_ifs
    · exact hl
    · exact (hl.markSlow now).step
    · exact hl.markSlow now
  | reply endpoint reply =>
    show Balanced (l.onReply crypto endpoint reply) unsent
    rw [onReply]
    split
    next => exact hl
    next h => exact (hl.withReply h).step

/-- Whom calls of `step` chose, and did not ask as they found the lookup finished. -/
def givenUpIn (crypto : Crypto) (l : Lookup) : List Event → List Endpoint
  | [] => []
  | e :: events => givenUpIn crypto (l.apply crypto e) events ++ l.givenUp e

theorem Balanced.run (hl : Balanced l unsent) (events : List Event) :
    Balanced (l.run crypto events) (givenUpIn crypto l events ++ unsent) := by
  induction events generalizing l unsent with
  | nil => exact hl
  | cons e events ih =>
    rw [givenUpIn, List.append_assoc]
    exact ih (hl.apply e)

theorem balanced_new (kind : Kind) (target : NodeId) (family : Family) (self : NodeId)
    (allowLocal : Bool) (salt : Bytes) (slowAfterMs queryTimeoutMs : ℤ) :
    Balanced (((new kind target family self allowLocal).setSalt salt).setTimeouts slowAfterMs
      queryTimeoutMs) [] where
  inFlight := rfl
  outstanding := rfl
  inFlight_le := show (0 : ℤ) ≤ Alpha by decide
  outstanding_le := show (0 : ℤ) ≤ MaxOutstanding by decide
  queries_le := Nat.zero_le _
  queries := rfl
  requested := .refl _
  distinct := .nil
  seen _ hc := absurd hc List.not_mem_nil
  inOrder := .nil

/-! ## None that was asked is dropped -/

theorem requested_step (l : Lookup) :
    (requested l.candidates).Sublist (requested l.step.candidates) := by
  rw [step]
  split_ifs
  · exact .refl _
  · exact (chosen_choose l.queries l.budget 0 l.candidates).kept

theorem requested_withReply {endpoint : Endpoint} {reply : RpcReply}
    (h : l.withReply crypto endpoint reply = some l') :
    requested l'.candidates = requested l.candidates := by
  obtain ⟨-, c, hc, hawaited, rfl | ⟨token, rfl⟩⟩ := withReply_eq_some h
  · exact requested_conclude hc hawaited rfl nofun
  · exact collect_induction (P := fun l' => requested l'.candidates = requested l.candidates)
      (fun _ _ _ _ h => h) (fun _ _ _ _ h => h) (fun _ _ h => h)
      (fun _ _ _ _ _ h hadded => (requested_withCandidate hadded).trans h)
      (requested_conclude hc hawaited rfl nofun)

theorem requested_apply (crypto : Crypto) (l : Lookup) (e : Event) :
    (requested l.candidates).Sublist (requested (l.apply crypto e).candidates) := by
  cases e with
  | addCandidate id endpoint =>
    rw [apply, addCandidate]
    split
    next => exact .refl _
    next l' h =>
      rw [← requested_withCandidate h]
      split_ifs
      · exact requested_step l'
      · exact .refl _
  | start now => exact requested_step (l.begin now)
  | resume now =>
    rw [apply, Lookup.resume]
    split
    · exact .refl _
    · split_ifs
      · exact .refl _
      · split
        · exact .refl _
        · dsimp only
          split_ifs <;> exact .refl _
  | sent endpoint now =>
    rw [apply, requested_onSent]
  | checkSlow now =>
    rw [apply, checkSlow]
    split_ifs
    · exact .refl _
    · rw [← requested_markSlow l now]
      exact requested_step (l.markSlow now)
    · rw [requested_markSlow]
  | reply endpoint reply =>
    rw [apply, onReply]
    split
    next => exact .refl _
    next l' h =>
      rw [← requested_withReply h]
      exact requested_step l'

theorem requested_run (crypto : Crypto) (l : Lookup) (events : List Event) :
    (requested l.candidates).Sublist (requested (l.run crypto events).candidates) := by
  induction events generalizing l with
  | nil => exact .refl _
  | cons e events ih => exact (requested_apply crypto l e).trans (ih (l.apply crypto e))

theorem mem_requested {node : Krpc.CompactNode} {cs : List Candidate} :
    node ∈ requested cs ↔ ∃ c ∈ cs, c.node = node ∧ c.state ≠ .New := by
  simp only [requested, List.mem_map, List.mem_filter, decide_eq_true_eq]
  exact exists_congr fun c => ⟨fun ⟨⟨hc, hstate⟩, hnode⟩ => ⟨hc, hnode, hstate⟩,
    fun ⟨hc, hnode, hstate⟩ => ⟨⟨hc, hstate⟩, hnode⟩⟩

/-! ## Runs -/

/-- In every run the counters are those of the candidates, and bounded; no endpoint is asked
    twice; and no candidate is dropped that is waited for. -/
theorem counted_run (crypto : Crypto) (kind : Kind) (target : NodeId) (family : Family)
    (self : NodeId) (allowLocal : Bool) (salt : Bytes) (slowAfterMs queryTimeoutMs : ℤ)
    (events : List Event) :
    let l₀ := ((new kind target family self allowLocal).setSalt salt).setTimeouts slowAfterMs
      queryTimeoutMs
    let l := l₀.run crypto events
    (l.inFlight = l.candidates.countP (·.state = .InFlight) ∧ l.inFlight ≤ Alpha) ∧
    (l.outstanding = l.candidates.countP (fun c => c.state = .InFlight ∨ c.state = .Slow) ∧
      l.outstanding ≤ MaxOutstanding) ∧
    (l.queries = l.asked.length + l.sending.flatten.length +
      (givenUpIn crypto l₀ events).length ∧ l.queries ≤ MaxQueries) ∧
    (l.asked.map (·.dest)).Nodup ∧ (l.candidates.map (·.endpoint)).Nodup ∧
    InOrder l.target l.candidates ∧
    ∀ events', ∀ c ∈ l.candidates, c.state = .InFlight ∨ c.state = .Slow →
      ∃ c' ∈ (l.run crypto events').candidates, c'.id = c.id ∧ c'.endpoint = c.endpoint := by
  intro l₀ l
  have hl : Balanced l (givenUpIn crypto l₀ events ++ []) :=
    (balanced_new kind target family self allowLocal salt slowAfterMs queryTimeoutMs).run events
  rw [List.append_nil] at hl
  refine ⟨⟨hl.inFlight, hl.inFlight_le⟩, ⟨?_, hl.outstanding_le⟩, ⟨?_, hl.queries_le⟩, ?_,
    hl.distinct, hl.inOrder, fun events' c hc hstate => ?_⟩
  · rw [hl.outstanding]
    refine congrArg _ (List.countP_congr fun c _ => ?_)
    rw [isAwaited_iff, decide_eq_true_eq]
  · have hlength := hl.requested.length_eq
    rw [List.length_append, List.length_append, List.length_map, List.length_map] at hlength
    rw [hl.queries, ← hlength, Nat.add_assoc]
  · exact (List.nodup_append.1 (hl.requested.nodup_iff.2 hl.requested_nodup)).1
  · have hmem : c.node ∈ requested l.candidates :=
      mem_requested.2 ⟨c, hc, rfl, Candidate.ne_new_of_isAwaited (isAwaited_iff.2 hstate)⟩
    obtain ⟨c', hc', hnode, -⟩ := mem_requested.1 ((requested_run crypto l events').subset hmem)
    exact ⟨c', hc', congrArg Krpc.CompactNode.id hnode, congrArg Krpc.CompactNode.endpoint hnode⟩

/-- Seven nodes respond, the last of them telling of two more, which are both chosen. The first
    of these responds before its query function returns, and the second is not asked. -/
def seventhTells : List Event :=
  [1, 2, 3, 4, 5, 6, 7].map adds ++ [.start 1] ++ goesOn ++ [1, 2, 3, 4, 5, 6].flatMap responds ++
    [.reply (nodeAt 7).endpoint (tells [8, 9]), .resume 800,
      .reply (nodeAt 8).endpoint (tells []), .resume 800, .resume 800]

/-- A query may be counted that is never sent. -/
theorem exists_overcounted : ∃ (crypto : Crypto) (kind : Kind) (target : NodeId) (family : Family)
    (self : NodeId) (allowLocal : Bool) (salt : Bytes) (slowAfterMs queryTimeoutMs : ℤ)
    (events : List Event),
    let l := (((new kind target family self allowLocal).setSalt salt).setTimeouts slowAfterMs
      queryTimeoutMs).run crypto events
    l.sending = [] ∧ l.queries ≠ l.asked.length :=
  ⟨noCrypto, .FindNode, default, .IPv4, (nodeAt 255).id, false, [], 700, 1500, seventhTells,
    by decide +kernel⟩

end Dht.Lookup
