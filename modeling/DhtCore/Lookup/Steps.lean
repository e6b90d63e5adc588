import DhtCore.Lookup.Basic

/-!
# What a lookup does in a step

The candidates stay in the order of their distances (`InOrder`), whatever happens. And of
an event that calls `step`, what it does before (`stepping_spec`).
-/

namespace Dht.Lookup

variable {crypto : Crypto} {l l' : Lookup}

theorem K_pos : 0 < K := by decide

/-- Whether a candidate is waited for. -/
def Candidate.isAwaited (c : Candidate) : Bool := c.state = .InFlight || c.state = .Slow

theorem isAwaited_iff {c : Candidate} :
    c.isAwaited = true ↔ c.state = .InFlight ∨ c.state = .Slow := by
  rw [Candidate.isAwaited, Bool.or_eq_true, decide_eq_true_eq, decide_eq_true_eq]

theorem Candidate.ne_new_of_isAwaited {c : Candidate} (h : c.isAwaited = true) :
    c.state ≠ .New := by
  rcases isAwaited_iff.1 h with h | h <;> rw [h] <;> decide

theorem run_append (p q : List Event) : l.run crypto (p ++ q) = (l.run crypto p).run crypto q :=
  List.foldl_append

/-! ## The order of the candidates -/

/-- Candidates are in the order of their distances to a target. -/
def InOrder (target : NodeId) (candidates : List Candidate) : Prop :=
  candidates.Pairwise fun a b => NodeId.distance target a.id ≤ NodeId.distance target b.id

theorem InOrder.of_ids {target : NodeId} {cs cs' : List Candidate} (h : InOrder target cs)
    (hids : cs'.map (·.id) = cs.map (·.id)) : InOrder target cs' := by
  have hmap (cs : List Candidate) : InOrder target cs ↔
      (cs.map (·.id)).Pairwise fun a b => NodeId.distance target a ≤ NodeId.distance target b :=
    by rw [InOrder, List.pairwise_map]
  rwa [hmap, hids, ← hmap]

theorem ids_choose (queries : ℕ) (budget : ℤ) (ahead : ℕ) (cs : List Candidate) :
    (choose queries budget ahead cs).1.map (·.id) = cs.map (·.id) := by
  induction cs generalizing queries budget ahead with
  | nil => rfl
  | cons c cs ih =>
    rw [choose]
    split_ifs
    · rfl
    · exact congrArg (c.id :: ·) (ih ..)
    · exact congrArg (c.id :: ·) (ih ..)
    · exact congrArg (c.id :: ·) (ih ..)

theorem choose_of_nonpos {queries : ℕ} {budget : ℤ} {ahead : ℕ} (h : budget ≤ 0)
    (cs : List Candidate) :
    choose queries budget ahead cs = (cs, []) := by
  cases cs with
  | nil => rfl
  | cons c cs => rw [choose, if_pos (.inl h)]

/-- What a change of a candidate leaves, it leaves of all of them. -/
theorem map_updateFirst {β : Type*} {g : Candidate → β} {f : Candidate → Candidate}
    (hf : ∀ c, g (f c) = g c) (endpoint : Endpoint) (cs : List Candidate) :
    (updateFirst endpoint f cs).map g = cs.map g := by
  induction cs with
  | nil => rfl
  | cons c cs ih =>
    rw [updateFirst]
    split_ifs
    · rw [List.map_cons, List.map_cons, hf]
    · rw [List.map_cons, List.map_cons, ih]

theorem mem_insertCandidate {target : NodeId} {candidate c : Candidate} {cs : List Candidate}
    (h : c ∈ insertCandidate target candidate cs) : c = candidate ∨ c ∈ cs := by
  induction cs with
  | nil => exact .inl (List.mem_singleton.1 h)
  | cons d cs ih =>
    rw [insertCandidate] at h
    split_ifs at h
    · rcases List.mem_cons.1 h with rfl | h
      · exact .inr List.mem_cons_self
      · exact (ih h).imp_right (List.mem_cons_of_mem _)
    · exact List.mem_cons.1 h

theorem InOrder.insertCandidate {target : NodeId} {cs : List Candidate} (h : InOrder target cs)
    (candidate : Candidate) : InOrder target (insertCandidate target candidate cs) := by
  induction cs with
  | nil => exact List.pairwise_singleton _ _
  | cons d cs ih =>
    obtain ⟨hd, hcs⟩ := List.pairwise_cons.1 h
    rw [Lookup.insertCandidate]
    split_ifs with hcloser
    · refine List.pairwise_cons.2 ⟨fun c hc => ?_, ih hcs⟩
      rcases mem_insertCandidate hc with rfl | hc
      · exact (NodeId.closer_iff.1 hcloser).le
      · exact hd c hc
    · have hle : NodeId.distance target candidate.id ≤ NodeId.distance target d.id :=
        not_lt.1 fun hlt => hcloser (NodeId.closer_iff.2 hlt)
      refine List.pairwise_cons.2 ⟨fun c hc => ?_, h⟩
      rcases List.mem_cons.1 hc with rfl | hc
      · exact hle
      · exact hle.trans (hd c hc)

theorem dropNew_sublist (excess : ℕ) (cs : List Candidate) : (dropNew excess cs).Sublist cs := by
  induction cs generalizing excess with
  | nil => cases excess <;> exact List.Sublist.refl _
  | cons c cs ih =>
    cases excess with
    | zero => exact List.Sublist.refl _
    | succ excess =>
      rw [dropNew]
      split_ifs
      · exact (ih excess).cons _
      · exact (ih _).cons_cons _

theorem trim_sublist (cs : List Candidate) : (trim cs).Sublist cs := by
  rw [trim, ← List.reverse_sublist, List.reverse_reverse]
  exact dropNew_sublist _ _

/-! ## What an event does before it calls `step` -/

/-- The lookup as it is when an event calls `step`. -/
def stepping (crypto : Crypto) (l : Lookup) : Event → Option Lookup
  | .addCandidate id endpoint => (l.withCandidate id endpoint 0).filter (·.started)
  | .start now => some (l.begin now)
  | .checkSlow now =>
    if !l.finished && l.candidates.any (l.isSlow now) then some (l.markSlow now) else none
  | .reply endpoint reply => l.withReply crypto endpoint reply
  | .resume _ => none
  | .sent _ _ => none

/-- An event that calls `step` does that last. -/
theorem apply_of_stepping {e : Event} (h : stepping crypto l e = some l') :
    l.apply crypto e = l'.step := by
  cases e with
  | addCandidate id endpoint =>
    obtain ⟨hadded, hstarted⟩ := Option.filter_eq_some_iff.1 h
    rw [apply, addCandidate, hadded]
    exact if_pos hstarted
  | start now => exact congrArg step (Option.some.inj h)
  | checkSlow now =>
    rw [stepping] at h
    split_ifs at h with hslow
    rw [Bool.and_eq_true, Bool.not_eq_true'] at hslow
    rw [apply, checkSlow, if_neg (by rw [hslow.1]; decide), if_pos hslow.2, Option.some.inj h]
  | reply endpoint reply =>
    rw [stepping] at h
    rw [apply, onReply, h]
  | resume | sent => exact nomatch h

/-- Something that leaves how far the lookup is, and the order of the candidates. -/
structure Keeps (l l' : Lookup) : Prop where
  target : l'.target = l.target
  queries : l'.queries = l.queries
  started : l'.started = l.started
  finished : l'.finished = l.finished
  sending : l'.sending = l.sending
  reports : l'.reports = l.reports
  inOrder : InOrder l.target l.candidates → InOrder l.target l'.candidates

theorem Keeps.refl (l : Lookup) : Keeps l l := ⟨rfl, rfl, rfl, rfl, rfl, rfl, id⟩

theorem Keeps.trans {l'' : Lookup} (h : Keeps l l') (h' : Keeps l' l'') : Keeps l l'' where
  target := h'.target.trans h.target
  queries := h'.queries.trans h.queries
  started := h'.started.trans h.started
  finished := h'.finished.trans h.finished
  sending := h'.sending.trans h.sending
  reports := h'.reports.trans h.reports
  inOrder hl := h.target ▸ h'.inOrder (h.target.symm ▸ h.inOrder hl)

theorem withCandidate_eq_some {id : NodeId} {endpoint : Endpoint} {hops : ℤ}
    (h : l.withCandidate id endpoint hops = some l') : l.finished = false ∧
      l' = { l with
        seen := endpoint :: l.seen
        candidates := trim (insertCandidate l.target { id, endpoint, hops } l.candidates) } := by
  rw [withCandidate] at h
  split_ifs at h with hrejected
  rw [not_or, Bool.not_eq_true] at hrejected
  exact ⟨hrejected.1, (Option.some.inj h).symm⟩

theorem keeps_withCandidate {id : NodeId} {endpoint : Endpoint} {hops : ℤ}
    (h : l.withCandidate id endpoint hops = some l') : Keeps l l' := by
  obtain ⟨-, rfl⟩ := withCandidate_eq_some h
  exact ⟨rfl, rfl, rfl, rfl, rfl, rfl,
    fun hl => (hl.insertCandidate { id, endpoint, hops }).sublist (trim_sublist _)⟩

/-- Before the lookup is started, no candidate that is added is asked. -/
theorem keeps_addCandidate (hl : l.started = false) (id : NodeId) (endpoint : Endpoint) (hops : ℤ) :
    Keeps l (l.addCandidate id endpoint hops) := by
  rw [addCandidate]
  split
  next => exact .refl l
  next l' h =>
    have hkeeps := keeps_withCandidate h
    rw [hkeeps.started, hl, if_neg Bool.false_ne_true]
    exact hkeeps

theorem keeps_markSlow (l : Lookup) (now : ℤ) : Keeps l (l.markSlow now) := by
  refine ⟨rfl, rfl, rfl, rfl, rfl, rfl, fun hl => hl.of_ids ?_⟩
  rw [markSlow, List.map_map]
  refine List.map_congr_left fun c _ => ?_
  dsimp only [Function.comp]
  split_ifs <;> rfl

theorem keeps_conclude (l : Lookup) (endpoint : Endpoint) (c : Candidate)
    {f : Candidate → Candidate} (hf : ∀ c, (f c).id = c.id) : Keeps l (l.conclude endpoint c f) :=
  ⟨rfl, rfl, rfl, rfl, rfl, rfl, fun hl => hl.of_ids (map_updateFirst hf endpoint _)⟩

theorem keeps_noteResponse (l : Lookup) (endpoint : Endpoint) (c : Candidate)
    (token : Option Bytes) :
    Keeps l (l.noteResponse endpoint c token) := by
  refine ⟨rfl, rfl, rfl, rfl, rfl, rfl, fun hl => hl.of_ids ?_⟩
  rw [noteResponse, conclude, map_updateFirst]
  exact fun _ => rfl

/-- Of an item, only that it was found and what it is are kept. -/
theorem collectItem_eq (crypto : Crypto) (l : Lookup) (reply : RpcReply) :
    ∃ itemFound itemIsMutable item, l.collectItem crypto reply =
    { l with itemFound, itemIsMutable, item } := by
  rw [collectItem]
  dsimp only
  split
  · exact ⟨_, _, _, rfl⟩
  · split
    · exact ⟨_, _, _, rfl⟩
    · split
      · split_ifs <;> exact ⟨_, _, _, rfl⟩
      · split <;> exact ⟨_, _, _, rfl⟩

theorem keeps_collectItem (l : Lookup) (reply : RpcReply) :
    Keeps l (l.collectItem crypto reply) := by
  obtain ⟨_, _, _, h⟩ := collectItem_eq crypto l reply
  rw [h]
  exact ⟨rfl, rfl, rfl, rfl, rfl, rfl, id⟩

theorem keeps_collectPeer (l : Lookup) (source peer : Endpoint) :
    Keeps l (l.collectPeer source peer) := by
  rw [collectPeer]
  split_ifs <;> exact ⟨rfl, rfl, rfl, rfl, rfl, rfl, id⟩

theorem keeps_collect (l : Lookup) (endpoint : Endpoint) (hops : ℤ) (reply : RpcReply) :
    Keeps l (l.collect crypto endpoint hops reply) := by
  have hitem : Keeps l (if l.kind = .GetItem then l.collectItem crypto reply else l) := by
    split_ifs
    · exact keeps_collectItem l reply
    · exact .refl l
  have hpeers (l : Lookup) (peers : List Endpoint) :
      Keeps l (peers.foldl (·.collectPeer endpoint ·) l) := by
    induction peers generalizing l with
    | nil => exact .refl l
    | cons peer peers ih => exact (keeps_collectPeer l endpoint peer).trans (ih _)
  have hnodes (l : Lookup) (hl : l.started = false) (nodes : List Krpc.CompactNode) :
      Keeps l (nodes.foldl (fun l node => l.addCandidate node.id node.endpoint hops) l) := by
    induction nodes generalizing l with
    | nil => exact .refl l
    | cons node nodes ih =>
      have hadded := keeps_addCandidate hl node.id node.endpoint hops
      exact hadded.trans (ih _ (hadded.started.trans hl))
  rw [collect]
  generalize (if l.kind = .GetItem then l.collectItem crypto reply else l) = l₁ at hitem ⊢
  have hpeers' : Keeps l₁ (if l₁.kind = .GetPeers then
      (Krpc.decodePeers (reply.message.body.listAt (ascii "values")) l₁.family).foldl
        (·.collectPeer endpoint ·) l₁ else l₁) := by
    split_ifs
    · exact hpeers l₁ _
    · exact .refl l₁
  generalize (if l₁.kind = .GetPeers then
      (Krpc.decodePeers (reply.message.body.listAt (ascii "values")) l₁.family).foldl
        (·.collectPeer endpoint ·) l₁ else l₁) = l₂ at hpeers' ⊢
  have hbatch := hnodes { l₂ with started := false } rfl (l₂.nodesIn reply.message.body)
  refine (hitem.trans hpeers').trans ?_
  exact ⟨hbatch.target, hbatch.queries, rfl, hbatch.finished, hbatch.sending,
    hbatch.reports, hbatch.inOrder⟩

/-- A reply that is waited for, of a candidate that failed, or that responded. -/
theorem withReply_eq_some {endpoint : Endpoint} {reply : RpcReply}
    (h : l.withReply crypto endpoint reply = some l') : l.finished = false ∧
    ∃ c, l.find endpoint = some c ∧ c.isAwaited = true ∧
      (l' = l.conclude endpoint c (fun c => { c with state := .Failed }) ∨
      ∃ token, l' =
        (l.noteResponse endpoint c token).collect crypto endpoint (c.hops + 1) reply) := by
  rw [withReply] at h
  split at h
  next => exact nomatch h
  next hfinished =>
    split at h
    next => exact nomatch h
    next c hc =>
      split at h
      next => exact nomatch h
      next hstate =>
        refine ⟨by simpa using hfinished, c, hc, ?_, ?_⟩
        · rw [isAwaited_iff]
          tauto
        · split at h
          next => exact .inl (Option.some.inj h).symm
          next => exact .inr ⟨_, (Option.some.inj h).symm⟩

theorem withReply_of_response {endpoint : Endpoint} {reply : RpcReply} {c : Candidate}
    (hfinished : l.finished = false) (hc : l.find endpoint = some c) (hawaited : c.isAwaited = true)
    (hresponse : reply.status = .Response) : l.withReply crypto endpoint reply =
    some ((l.noteResponse endpoint c (reply.message.body.stringAt (ascii "token"))).collect crypto
      endpoint (c.hops + 1) reply) := by
  rw [withReply, hfinished, if_neg Bool.false_ne_true, hc]
  have hstate := isAwaited_iff.1 hawaited
  dsimp only
  rw [if_neg (by tauto), if_neg (not_not.2 hresponse)]

/-- A reply that is waited for is that of a candidate that is. -/
theorem keeps_withReply {endpoint : Endpoint} {reply : RpcReply}
    (h : l.withReply crypto endpoint reply = some l') :
    Keeps l l' ∧ l.finished = false ∧
    ∃ c ∈ l.candidates, c.state = .InFlight ∨ c.state = .Slow := by
  obtain ⟨hfinished, c, hc, hawaited, hl'⟩ := withReply_eq_some h
  refine ⟨?_, hfinished, c, List.mem_of_find?_eq_some hc, isAwaited_iff.1 hawaited⟩
  -- All but the state of the candidate stays if it did not respond.
  rcases hl' with rfl | ⟨token, rfl⟩
  · exact keeps_conclude l endpoint c fun _ => rfl
  · exact (keeps_noteResponse l endpoint c _).trans
      (keeps_collect _ endpoint (c.hops + 1) reply)

/-! ## Nodes close to one another -/

/-- A node at a distance from the target `0`, and its endpoint. -/
def nodeAt (d : UInt8) : Krpc.CompactNode where
  id := ⟨List.replicate 19 0 ++ [d], rfl⟩
  endpoint := ⟨.ipv4 (HostAddress.dotted 8 8 8 (BitVec.ofNat 8 d.toNat)), 6881⟩

/-- The candidate at a distance is added. -/
def adds (d : UInt8) : Event := .addCandidate (nodeAt d).id (nodeAt d).endpoint

/-- A response that tells of nodes. -/
def tells (nodes : List UInt8) : RpcReply where
  status := .Response
  message :=
    { type := .Response
      body := .dict [(ascii "nodes", .string (Krpc.encodeNodes (nodes.map nodeAt) .IPv4))] }

/-- The call of `step` asks whom it chose, and returns. -/
def goesOn : List Event := List.replicate 4 (.resume 800)

/-- The node at a distance responds, telling of no others. -/
def responds (d : UInt8) : List Event := .reply (nodeAt d).endpoint (tells []) :: goesOn

/-- A lookup for the target `0`. -/
def searcher : Lookup :=
  ((new .FindNode default .IPv4 (nodeAt 255).id false).setSalt []).setTimeouts 700 1500

/-- Hashes and signatures that play no role. -/
def noCrypto : Crypto := ⟨fun _ => default, fun _ _ _ => false⟩

end Dht.Lookup
