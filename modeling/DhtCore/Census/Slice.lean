import DhtCore.Census.Basic

/-!
# A slice under way

What holds of a slice between calls (`InSlice`), given the nodes with a query under way and the
replies that came: nodes that wait are in the queue once, those asked have a query under way,
and of those that never answered the failures are the timeouts. Listing a node, asking one, a
reply, and a new round each keep it; all but the first change one node only
(`InSlice.setNode`).
-/

namespace Dht.Census

open List

/-- How the queries to a node ended that never answered: so many of them timed out. -/
structure Failing (replies : List (Endpoint × RpcStatus)) (endpoint : Endpoint) (n : SliceNode) :
    Prop where
  failures : n.failures.toNat = replies.count (endpoint, .Timeout)
  no_response : (endpoint, .Response) ∉ replies
  no_error : (endpoint, .Error) ∉ replies

/-- Where a node of the slice is, and why. -/
structure NodeOk (c : Census) (flying : List Endpoint) (replies : List (Endpoint × RpcStatus))
    (endpoint : Endpoint) (n : SliceNode) : Prop where
  waiting : n.state = .Waiting → endpoint ∈ c.queue
  asked : n.state = .Asked → endpoint ∈ flying
  of_queue : endpoint ∈ c.queue → n.state = .Waiting ∨ n.state = .Answered
  of_flying : endpoint ∈ flying → n.state = .Asked ∨ n.state = .Answered
  failing : n.state ≠ .Answered → Failing replies endpoint n
  silent : n.state ≠ .Answered →
    (n.state = .Silent ↔ c.config.failuresToGiveUp ≤ n.failures.toNat)

/-- What holds of a slice between calls, the nodes `flying` having a query under way. -/
structure InSlice (c : Census) (flying : List Endpoint) (replies : List (Endpoint × RpcStatus)) :
    Prop where
  nodup : (c.queue ++ flying).Nodup
  known : ∀ e ∈ c.queue ++ flying, e ∈ c.nodes
  replied : ∀ r ∈ replies, r.1 ∈ c.nodes
  outstanding : c.outstanding = flying.length
  node : ∀ e n, c.nodes.lookup e = some n → NodeOk c flying replies e n

variable {c c' : Census} {flying flying' : List Endpoint}
  {replies replies' : List (Endpoint × RpcStatus)} {endpoint : Endpoint} {n : SliceNode}
  {o : Outside}

/-- A node that nothing happens to stays as it is. -/
theorem NodeOk.frame (h : NodeOk c flying replies endpoint n) (hconfig : c'.config = c.config)
    (hqueue : endpoint ∈ c'.queue ↔ endpoint ∈ c.queue)
    (hflying : endpoint ∈ flying' ↔ endpoint ∈ flying)
    (hreplies : ∀ status, replies'.count (endpoint, status) = replies.count (endpoint, status)) :
    NodeOk c' flying' replies' endpoint n where
  waiting hn := hqueue.2 (h.waiting hn)
  asked hn := hflying.2 (h.asked hn)
  of_queue hn := h.of_queue (hqueue.1 hn)
  of_flying hn := h.of_flying (hflying.1 hn)
  failing hn :=
    { failures := by rw [hreplies, (h.failing hn).failures]
      no_response := by
        rw [← count_eq_zero, hreplies, count_eq_zero]
        exact (h.failing hn).no_response
      no_error := by
        rw [← count_eq_zero, hreplies, count_eq_zero]
        exact (h.failing hn).no_error }
  silent hn := hconfig ▸ h.silent hn

/-- A query that was not sent is no failure. -/
theorem Failing.throttled (h : Failing replies endpoint n) {n' : SliceNode}
    (hfailures : n'.failures = n.failures) :
    Failing (replies ++ [(endpoint, .Throttled)]) endpoint n' where
  failures := by
    rw [hfailures, h.failures, count_append, count_singleton, if_neg (by simp), add_zero]
  no_response := by simpa using h.no_response
  no_error := by simpa using h.no_error

/-- A query that timed out is one failure more. -/
theorem Failing.timeout (h : Failing replies endpoint n) {n' : SliceNode}
    (hfailures : n'.failures = n.failures + 1) (hlt : n.failures.toNat < 255) :
    Failing (replies ++ [(endpoint, .Timeout)]) endpoint n' where
  failures := by
    have hadd : (n.failures + 1).toNat = n.failures.toNat + 1 := by
      rw [UInt8.toNat_add]
      exact Nat.mod_eq_of_lt (by simp; omega)
    rw [hfailures, hadd, h.failures, count_append, count_singleton_self]
  no_response := by simpa using h.no_response
  no_error := by simpa using h.no_error

theorem mem_nodes_iff : endpoint ∈ c.nodes ↔ ∃ n, c.nodes.lookup endpoint = some n := by
  rw [← AList.lookup_isSome, Option.isSome_iff_exists]

/-- What happens to one node, the others staying as they are. -/
theorem InSlice.setNode (h : InSlice c flying replies)
    (hself : c'.nodes.lookup endpoint = some n)
    (hother : ∀ e, e ≠ endpoint → c'.nodes.lookup e = c.nodes.lookup e)
    (hconfig : c'.config = c.config)
    (hqueue : ∀ e, e ≠ endpoint → (e ∈ c'.queue ↔ e ∈ c.queue))
    (hflying : ∀ e, e ≠ endpoint → (e ∈ flying' ↔ e ∈ flying))
    (hreplies : ∀ e status, e ≠ endpoint →
      replies'.count (e, status) = replies.count (e, status))
    (hnodup : (c'.queue ++ flying').Nodup) (houtstanding : c'.outstanding = flying'.length)
    (hnode : NodeOk c' flying' replies' endpoint n) : InSlice c' flying' replies' := by
  have hmem : ∀ e, e = endpoint ∨ e ∈ c.nodes → e ∈ c'.nodes := by
    intro e he
    by_cases heq : e = endpoint
    · exact mem_nodes_iff.2 ⟨n, heq ▸ hself⟩
    · obtain ⟨n', hn'⟩ := mem_nodes_iff.1 (he.resolve_left heq)
      exact mem_nodes_iff.2 ⟨n', (hother e heq).trans hn'⟩
  refine ⟨hnodup, fun e he => hmem e ?_, fun r hr => hmem r.1 ?_, houtstanding, fun e n' he => ?_⟩
  · by_cases heq : e = endpoint
    · exact .inl heq
    · refine .inr (h.known e ?_)
      rwa [mem_append, hqueue e heq, hflying e heq, ← mem_append] at he
  · by_cases heq : r.1 = endpoint
    · exact .inl heq
    · refine .inr (h.replied r ?_)
      have hcount := hreplies r.1 r.2 heq
      rw [← count_pos_iff] at hr ⊢
      rwa [hcount] at hr
  · by_cases heq : e = endpoint
    · rw [heq, hself, Option.some.injEq] at he
      rwa [heq, ← he]
    · rw [hother e heq] at he
      exact (h.node e n' he).frame hconfig (hqueue e heq) (hflying e heq)
        fun status => hreplies e status heq

/-! ## Listing -/

/-- What calls leave as it is while a round goes on: what is found in the round is counted. -/
structure SameSlice (c c' : Census) : Prop where
  config : c'.config = c.config
  state : c'.state = c.state
  generation : c'.generation = c.generation
  family : c'.family = c.family
  pendingLookups : c'.pendingLookups = c.pendingLookups
  done : c'.done = c.done
  round : c'.round = c.round
  quietRounds : c'.quietRounds = c.quietRounds
  found : (c'.nodes.keys.length : ℤ) - c'.newThisRound = c.nodes.keys.length - c.newThisRound
  known : ∀ e ∈ c.nodes, e ∈ c'.nodes

theorem SameSlice.refl (c : Census) : SameSlice c c :=
  ⟨rfl, rfl, rfl, rfl, rfl, rfl, rfl, rfl, rfl, fun _ he => he⟩

theorem SameSlice.trans {c'' : Census} (h : SameSlice c c') (h' : SameSlice c' c'') :
    SameSlice c c'' :=
  ⟨h'.config.trans h.config, h'.state.trans h.state, h'.generation.trans h.generation,
    h'.family.trans h.family, h'.pendingLookups.trans h.pendingLookups, h'.done.trans h.done,
    h'.round.trans h.round, h'.quietRounds.trans h.quietRounds, h'.found.trans h.found,
    fun e he => h'.known e (h.known e he)⟩

/-- Changing a node that is known leaves as many known. -/
theorem length_keys_insert {nodes : AList fun _ : Endpoint => SliceNode}
    (h : endpoint ∈ nodes) : (nodes.insert endpoint n).keys.length = nodes.keys.length := by
  have hmem := AList.mem_keys.1 h
  have hpos := length_pos_of_mem hmem
  rw [AList.keys_insert, length_cons, length_erase_of_mem hmem]
  omega

theorem InSlice.perm (h : InSlice c flying replies) (hperm : flying' ~ flying) :
    InSlice c flying' replies where
  nodup := ((hperm.append_left _).nodup_iff).2 h.nodup
  known e he := h.known e ((hperm.append_left _).mem_iff.1 he)
  replied := h.replied
  outstanding := h.outstanding.trans (congrArg _ hperm.length_eq.symm)
  node e n hn := (h.node e n hn).frame rfl Iff.rfl hperm.mem_iff fun _ => rfl

/-- Nothing of a slice under way depends on the rest of the census. -/
theorem InSlice.congr (h : InSlice c flying replies) (hconfig : c'.config = c.config)
    (hnodes : c'.nodes = c.nodes) (hqueue : c'.queue ~ c.queue)
    (houtstanding : c'.outstanding = c.outstanding) : InSlice c' flying replies where
  nodup := ((hqueue.append_right _).nodup_iff).2 h.nodup
  known e he := hnodes ▸ h.known e ((hqueue.append_right _).mem_iff.1 he)
  replied r hr := hnodes ▸ h.replied r hr
  outstanding := houtstanding.trans h.outstanding
  node e n hn := (h.node e n (hnodes ▸ hn)).frame hconfig hqueue.mem_iff Iff.rfl fun _ => rfl

/-- Listing a node adds it to the slice and to the queue, or does nothing. -/
theorem consider_cases (c : Census) (o : Outside) (id : NodeId) (endpoint : Endpoint) :
    c.consider o id endpoint = c ∨ endpoint ∉ c.nodes ∧ c.consider o id endpoint =
      { c with
        nodes := c.nodes.insert endpoint { listedId := id }
        newThisRound := c.newThisRound + 1
        queue := c.queue ++ [endpoint] } := by
  rw [consider]
  split_ifs with _ _ _ hnew
  · exact .inl rfl
  · exact .inl rfl
  · exact .inl rfl
  · exact .inl rfl
  · exact .inr ⟨hnew, rfl⟩

theorem sameSlice_considerAll (nodes : List (NodeId × Endpoint)) (c : Census) :
    SameSlice c (c.considerAll o nodes) := by
  induction nodes generalizing c with
  | nil => exact .refl c
  | cons n nodes ih =>
    refine SameSlice.trans ?_ (ih (c.consider o n.1 n.2))
    rcases consider_cases c o n.1 n.2 with h | ⟨hnew, h⟩
    · rw [h]
      exact .refl c
    · rw [h]
      refine ⟨rfl, rfl, rfl, rfl, rfl, rfl, rfl, rfl, ?_, fun e he => ?_⟩
      · have hkeys : n.2 ∉ c.nodes.keys := fun hin => hnew (AList.mem_keys.2 hin)
        dsimp only
        rw [AList.keys_insert, length_cons, erase_of_not_mem hkeys]
        push_cast
        ring
      · exact (AList.mem_insert _).2 (.inr he)

theorem InSlice.consider (h : InSlice c flying replies) (hpatient : 1 ≤ c.config.failuresToGiveUp)
    (id : NodeId) (endpoint : Endpoint) : InSlice (c.consider o id endpoint) flying replies := by
  rcases consider_cases c o id endpoint with heq | ⟨hnew, heq⟩
  · rwa [heq]
  · rw [heq]
    have hqueue : endpoint ∉ c.queue ++ flying := fun hin => hnew (h.known _ hin)
    have hreplies : ∀ status, (endpoint, status) ∉ replies :=
      fun status hin => hnew (h.replied _ hin)
    rw [mem_append, not_or] at hqueue
    refine h.setNode (AList.lookup_insert _) (fun e he => AList.lookup_insert_ne he) rfl
      (fun e he => ?_) (fun e he => Iff.rfl) (fun e status he => rfl) ?_
      h.outstanding ?_
    · simp [he]
    · dsimp only
      rw [append_assoc, singleton_append]
      refine (perm_middle.nodup_iff).2 (nodup_cons.2 ⟨?_, h.nodup⟩)
      rwa [mem_append, not_or]
    · exact
        { waiting := fun _ => by simp
          asked := fun hn => nomatch hn
          of_queue := fun _ => .inl rfl
          of_flying := fun hin => absurd hin hqueue.2
          failing := fun _ => ⟨(count_eq_zero.2 (hreplies _)).symm, hreplies _, hreplies _⟩
          silent := fun _ => iff_of_false (fun hn => nomatch hn) fun hle => by
            have hle : c.config.failuresToGiveUp ≤ 0 := hle
            omega }

theorem InSlice.considerAll (h : InSlice c flying replies)
    (hpatient : 1 ≤ c.config.failuresToGiveUp) (nodes : List (NodeId × Endpoint)) :
    InSlice (c.considerAll o nodes) flying replies := by
  induction nodes generalizing c with
  | nil => exact h
  | cons n nodes ih =>
    have hconfig := (sameSlice_considerAll (o := o) [n] c).config
    exact ih (h.consider hpatient n.1 n.2) (hconfig ▸ hpatient)

/-! ## Asking -/

/-- The first one of the queue is asked. -/
theorem InSlice.ask (h : InSlice c flying replies) {rest : List Endpoint}
    (hqueue : c.queue = endpoint :: rest) :
    let asked := Census.ask { c with queue := rest } endpoint
    InSlice asked.1 (flying ++ asked.2.map (·.endpoint)) replies ∧
      (∀ q ∈ asked.2, q.generation = c.generation) ∧ SameSlice c asked.1 := by
  have hmem : endpoint ∈ c.nodes := h.known endpoint (by rw [hqueue]; simp)
  obtain ⟨n, hn⟩ := mem_nodes_iff.1 hmem
  have hnode := h.node endpoint n hn
  have hnodup := h.nodup
  rw [hqueue, cons_append, nodup_cons, mem_append, not_or] at hnodup
  obtain ⟨⟨hrest, hflying⟩, hnodup⟩ := hnodup
  have hstate := hnode.of_queue (by rw [hqueue]; exact mem_cons_self)
  simp only [Census.ask, hn]
  refine ⟨?_, fun q hq => ?_, rfl, rfl, rfl, rfl, rfl, rfl, rfl, rfl, ?_, fun e he => ?_⟩
  · refine h.setNode (AList.lookup_insert _) (fun e he => AList.lookup_insert_ne he) rfl
      (fun e he => ?_) (fun e he => ?_) (fun e status he => rfl) ?_ ?_ ?_
    · rw [hqueue, mem_cons, or_iff_right he]
    · simp [he]
    · dsimp only [map_cons, map_nil]
      rw [← append_assoc, nodup_append]
      refine ⟨hnodup, by simp, fun e he f hf => ?_⟩
      rw [mem_singleton.1 hf]
      rintro rfl
      exact (mem_append.1 he).elim hrest hflying
    · rw [length_append, Nat.cast_add, ← h.outstanding]
      rfl
    · exact
        { waiting := fun hwaiting => by
            dsimp only at hwaiting
            split_ifs at hwaiting
          asked := fun _ => by simp
          of_queue := fun hin => absurd hin hrest
          of_flying := fun _ => by
            dsimp only
            split_ifs
            · exact .inr rfl
            · exact .inl rfl
          failing := fun hne => by
            have hfailing := hnode.failing fun hanswered => hne (if_pos hanswered)
            exact ⟨hfailing.failures, hfailing.no_response, hfailing.no_error⟩
          -- A node that waits has not failed often enough to be silent.
          silent := fun hne => by
            have hnot : n.state ≠ .Answered := fun hanswered => hne (if_pos hanswered)
            have hwaiting := hstate.resolve_right hnot
            have hsilent := hnode.silent hnot
            dsimp only
            rw [if_neg hnot]
            rw [hwaiting] at hsilent
            exact (iff_of_false (fun hn => nomatch hn) fun hle => nomatch hsilent.2 hle) }
  · rw [mem_singleton.1 hq]
  · rw [length_keys_insert hmem]
  · exact (AList.mem_insert _).2 (.inr he)

/-- Asking some of those in the queue. -/
theorem InSlice.askQueued (n scanned : ℕ) (h : InSlice c flying replies) :
    let asked := Census.askQueued o n scanned c
    InSlice asked.1 (flying ++ asked.2.map (·.endpoint)) replies ∧
      (∀ q ∈ asked.2, q.generation = c.generation) ∧ SameSlice c asked.1 := by
  have hnone : InSlice c (flying ++ ([] : List Query).map (·.endpoint)) replies := by
    rwa [map_nil, append_nil]
  induction n generalizing c flying scanned with
  | zero => exact ⟨hnone, by simp [Census.askQueued], .refl c⟩
  | succ n ih =>
    rw [Census.askQueued]
    cases hqueue : c.queue with
    | nil => exact ⟨hnone, by simp, .refl c⟩
    | cons endpoint rest =>
      dsimp only
      by_cases hwindow : ¬c.outstanding < c.config.maxOutstanding
      · rw [if_pos hwindow]
        exact ⟨hnone, by simp, .refl c⟩
      rw [if_neg hwindow]
      by_cases hbusy : o.queuedFor scanned endpoint.address ≥ MaxQueuedPerHost
      · rw [if_pos hbusy]
        have hperm : rest ++ [endpoint] ~ c.queue := hqueue ▸ perm_append_comm
        have hmoved : InSlice { c with queue := rest ++ [endpoint] } flying replies :=
          h.congr rfl rfl hperm rfl
        have hsame' : SameSlice c { c with queue := rest ++ [endpoint] } :=
          ⟨rfl, rfl, rfl, rfl, rfl, rfl, rfl, rfl, rfl, fun _ he => he⟩
        obtain ⟨hslice, hgeneration, hsame⟩ := ih (scanned + 1) hmoved (by
          rwa [map_nil, append_nil])
        exact ⟨hslice, hgeneration, hsame'.trans hsame⟩
      · rw [if_neg hbusy]
        obtain ⟨hslice, hgeneration, hsame⟩ := h.ask hqueue
        obtain ⟨hslice', hgeneration', hsame'⟩ := ih (scanned + 1) hslice (by
          rwa [map_nil, append_nil])
        refine ⟨?_, fun q hq => ?_, hsame.trans hsame'⟩
        · rw [map_append, ← append_assoc]
          exact hslice'
        · rcases mem_append.1 hq with hq | hq
          · exact hgeneration q hq
          · exact (hgeneration' q hq).trans hsame.generation

/-! ## Rounds -/

/-- Once all were asked and replied, no node waits or is asked. -/
theorem InSlice.settled (h : InSlice c flying replies) (hover : c.roundOver) :
    c.queue = [] ∧ flying = [] ∧ c.pendingLookups ≤ 0 := by
  rw [roundOver, Bool.and_eq_true, Bool.not_eq_true', Bool.or_eq_false_iff, decide_eq_false_iff_not,
    decide_eq_false_iff_not, List.isEmpty_iff, gt_iff_lt, not_lt, gt_iff_lt, not_lt] at hover
  obtain ⟨hqueue, houtstanding, hpending⟩ := hover
  rw [h.outstanding] at houtstanding
  exact ⟨hqueue, length_eq_zero_iff.1 (by omega), hpending⟩

/-- The nodes that answered are asked again. -/
theorem InSlice.beginRound (h : InSlice c [] replies) (hqueue : c.queue = []) :
    InSlice (c.beginRound o) [] replies := by
  have hanswered : ∀ e, e ∈ (c.nodes.entries.filter fun e => e.2.state = .Answered).map
      Sigma.fst ↔ ∃ n, c.nodes.lookup e = some n ∧ n.state = .Answered := fun e => by
    rw [mem_map]
    constructor
    · rintro ⟨⟨e, n⟩, hn, rfl⟩
      rw [mem_filter, decide_eq_true_eq] at hn
      exact ⟨n, AList.mem_lookup_iff.2 hn.1, hn.2⟩
    · rintro ⟨n, hn, hstate⟩
      exact ⟨⟨e, n⟩, mem_filter.2 ⟨AList.mem_lookup_iff.1 hn, decide_eq_true hstate⟩, rfl⟩
  have hmem : ∀ e, e ∈ (c.beginRound o).queue ↔
      ∃ n, c.nodes.lookup e = some n ∧ n.state = .Answered := fun e => by
    rw [Census.beginRound, hqueue, nil_append, (o.order_perm _).mem_iff, hanswered]
  have hnodup : ((c.nodes.entries.filter fun e => e.2.state = .Answered).map Sigma.fst).Nodup :=
    (filter_sublist.map _).nodup c.nodes.nodupKeys
  refine ⟨?_, fun e he => ?_, h.replied, h.outstanding, fun e n hn => ?_⟩
  · rw [append_nil, Census.beginRound, hqueue, nil_append, (o.order_perm _).nodup_iff]
    exact hnodup
  · rw [append_nil, hmem] at he
    obtain ⟨n, hn, -⟩ := he
    exact mem_nodes_iff.2 ⟨n, hn⟩
  · have hnode := h.node e n hn
    exact
      { waiting := fun hwaiting => absurd (hnode.waiting hwaiting) (by simp [hqueue])
        asked := fun hasked => absurd (hnode.asked hasked) not_mem_nil
        of_queue := fun hin => by
          obtain ⟨n', hn', hstate⟩ := (hmem e).1 hin
          have hn : c.nodes.lookup e = some n := hn
          rw [hn, Option.some.injEq] at hn'
          exact .inr (hn' ▸ hstate)
        of_flying := fun hin => absurd hin not_mem_nil
        failing := hnode.failing
        silent := hnode.silent }

/-! ## Replies -/

/-- A reply comes for a node with a query under way: the node is no longer asked, and may be
    back in the queue. -/
theorem InSlice.replyTo (h : InSlice c flying replies) (hflying : endpoint ∈ flying)
    (status : RpcStatus) (back : Bool) (hself : c'.nodes.lookup endpoint = some n)
    (hother : ∀ e, e ≠ endpoint → c'.nodes.lookup e = c.nodes.lookup e)
    (hconfig : c'.config = c.config)
    (hqueue : c'.queue = c.queue ++ if back then [endpoint] else [])
    (houtstanding : c'.outstanding = c.outstanding - 1)
    (hnode : n.state ≠ .Answered → Failing (replies ++ [(endpoint, status)]) endpoint n ∧
      (n.state = .Silent ↔ c.config.failuresToGiveUp ≤ n.failures.toNat))
    (hstate : n.state = .Answered ∨ n.state = if back then .Waiting else .Silent) :
    InSlice c' (flying.erase endpoint) (replies ++ [(endpoint, status)]) := by
  have hnodup := nodup_append.1 h.nodup
  -- It is asked once, and does not wait while it is.
  have hnotFlying : endpoint ∉ flying.erase endpoint := hnodup.2.1.not_mem_erase
  have hnotQueue : endpoint ∉ c.queue := fun hin => hnodup.2.2 _ hin _ hflying rfl
  have hpos := length_pos_of_mem hflying
  refine h.setNode hself hother hconfig (fun e he => ?_) (fun e he => mem_erase_of_ne he)
    (fun e st he => ?_) ?_ ?_ ?_
  · rw [hqueue, mem_append]
    cases back <;> simp [he]
  · rw [count_append, count_singleton, if_neg (by simp [Ne.symm he]), add_zero]
  · rw [hqueue]
    cases back with
    | false =>
      rw [if_neg Bool.false_ne_true, append_nil]
      exact ((erase_sublist).append_left c.queue).nodup h.nodup
    | true =>
      rw [if_pos rfl, append_assoc, singleton_append]
      exact ((perm_cons_erase hflying).append_left c.queue).nodup_iff.1 h.nodup
  · rw [houtstanding, h.outstanding, length_erase_of_mem hflying]
    omega
  · exact
      { waiting := fun hwaiting => by
          rw [hwaiting] at hstate
          cases back with
          | false => exact absurd hstate (by simp)
          | true => simp [hqueue]
        asked := fun hasked => by
          rw [hasked] at hstate
          cases back <;> exact absurd hstate (by simp)
        of_queue := fun hin => by
          cases back with
          | false =>
            rw [hqueue, if_neg Bool.false_ne_true, append_nil] at hin
            exact absurd hin hnotQueue
          | true => exact hstate.symm
        of_flying := fun hin => absurd hin hnotFlying
        failing := fun hne => (hnode hne).1
        silent := fun hne => hconfig ▸ (hnode hne).2 }

/-- What a reply does to the slice as a whole. -/
theorem sameSlice_onReply (q : Query) (reply : RpcReply) :
    SameSlice c (c.onReply o q reply) := by
  rw [Census.onReply]
  split
  · exact .refl c
  dsimp only
  split
  · exact ⟨rfl, rfl, rfl, rfl, rfl, rfl, rfl, rfl, rfl, fun _ he => he⟩
  next n hn =>
    have hset : ∀ (n' : SliceNode) (queue : List Endpoint), SameSlice c
        { c with
          outstanding := c.outstanding - 1
          nodes := c.nodes.insert q.endpoint n'
          queue } := fun n' queue =>
      ⟨rfl, rfl, rfl, rfl, rfl, rfl, rfl, rfl,
        by dsimp only; rw [length_keys_insert (mem_nodes_iff.2 ⟨n, hn⟩)],
        fun e he => (AList.mem_insert _).2 (.inr he)⟩
    cases reply.status with
    | Throttled => exact hset _ _
    | Timeout =>
      dsimp only
      split_ifs
      · exact ⟨rfl, rfl, rfl, rfl, rfl, rfl, rfl, rfl, rfl, fun _ he => he⟩
      · exact hset _ c.queue
      · exact hset _ _
    | Response =>
      dsimp only
      rw [if_neg (not_not.2 rfl)]
      split
      · exact hset _ c.queue
      · exact (hset _ c.queue).trans (sameSlice_considerAll _ _)
    | Error =>
      dsimp only
      rw [if_pos (by simp)]
      exact hset _ c.queue

theorem InSlice.onReply (h : InSlice c flying replies)
    (hgive : 1 ≤ c.config.failuresToGiveUp ∧ c.config.failuresToGiveUp ≤ 255) {q : Query}
    (hq : q.generation = c.generation) (hflying : q.endpoint ∈ flying) (reply : RpcReply) :
    InSlice (c.onReply o q reply) (flying.erase q.endpoint)
      (replies ++ [(q.endpoint, reply.status)]) := by
  obtain ⟨n, hn⟩ := mem_nodes_iff.1 (h.known _ (mem_append_right _ hflying))
  have hnode := h.node _ n hn
  have hstate := hnode.of_flying hflying
  have hins : ∀ n' : SliceNode, (c.nodes.insert q.endpoint n').lookup q.endpoint = some n' :=
    fun n' => AList.lookup_insert _
  have hne : ∀ (n' : SliceNode) (e : Endpoint), e ≠ q.endpoint →
      (c.nodes.insert q.endpoint n').lookup e = c.nodes.lookup e :=
    fun n' e he => AList.lookup_insert_ne he
  rw [Census.onReply, if_neg (not_not.2 hq)]
  dsimp only
  rw [hn]
  dsimp only
  cases hreply : reply.status with
  | Throttled =>
    -- It waits again.
    refine h.replyTo hflying _ true (hins _) (hne _) rfl rfl rfl (fun hne => ?_) ?_
    · have hnot : n.state ≠ .Answered := fun hanswered => hne (by simp [hanswered])
      have hasked := hstate.resolve_right hnot
      have hsilent := hnode.silent hnot
      rw [hasked] at hsilent
      refine ⟨(hnode.failing hnot).throttled rfl, ?_⟩
      rw [if_pos hnot]
      exact iff_of_false (by simp) fun hle => nomatch hsilent.2 hle
    · by_cases hanswered : n.state = .Answered
      · exact .inl (by simp [hanswered])
      · exact .inr (by simp [hanswered])
  | Timeout =>
    by_cases hanswered : n.state = .Answered
    · rw [if_pos hanswered]
      exact h.replyTo hflying _ false hn (fun _ _ => rfl) rfl (append_nil _).symm rfl
        (fun hne => absurd hanswered hne) (.inl hanswered)
    · rw [if_neg hanswered]
      -- It was not given up yet, so that its failures are not at their most.
      have hless : ¬c.config.failuresToGiveUp ≤ n.failures.toNat := fun hle => by
        have hsilent := (hnode.silent hanswered).2 hle
        rw [hstate.resolve_right hanswered] at hsilent
        exact nomatch hsilent
      have hfailing : ∀ state, Failing (replies ++ [(q.endpoint, .Timeout)]) q.endpoint
          { n with failures := n.failures + 1, state } := fun _ =>
        (hnode.failing hanswered).timeout rfl (by omega)
      dsimp only
      by_cases hgiveUp : ((n.failures + 1).toNat : ℤ) ≥ c.config.failuresToGiveUp
      · -- It is given up.
        rw [if_pos hgiveUp]
        exact h.replyTo hflying _ false (hins _) (hne _) rfl (append_nil _).symm rfl
          (fun _ => ⟨hfailing _, iff_of_true rfl hgiveUp⟩) (.inr rfl)
      · -- It is to be asked once more.
        rw [if_neg hgiveUp]
        exact h.replyTo hflying _ true (hins _) (hne _) rfl rfl rfl
          (fun _ => ⟨hfailing _, iff_of_false (by simp) hgiveUp⟩) (.inr rfl)
  | Response =>
    -- It has answered, and the nodes that it lists are considered.
    have hreplied : ∀ n' : SliceNode, n'.state = .Answered → InSlice
        (Census.setNode { c with outstanding := c.outstanding - 1 } q.endpoint n')
        (flying.erase q.endpoint) (replies ++ [(q.endpoint, .Response)]) := fun n' hn' =>
      h.replyTo hflying _ false (hins _) (hne _) rfl (append_nil _).symm rfl
        (fun hne => absurd hn' hne) (.inl hn')
    dsimp only
    rw [if_neg (not_not.2 rfl)]
    split
    · exact hreplied _ rfl
    · exact (hreplied _ rfl).considerAll hgive.1 _
  | Error =>
    dsimp only
    rw [if_pos (by simp)]
    exact h.replyTo hflying _ false (hins _) (hne _) rfl (append_nil _).symm rfl
      (fun hne => absurd rfl hne) (.inl rfl)

end Dht.Census
