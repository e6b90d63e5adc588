import DhtCore.RpcManager.Outcome

/-!
# Transaction ids

A query that is sent takes a transaction id, in a state of the manager within a call (`sends`):
the ids that are handed over with the queries are those taken in these states
(`tidsOf_apply`). In all of them fewer than `maxPending` queries await replies, of which there
may never be more than there are ids. So an id that is free is found, whatever number the
search starts from (`takes_free_ids`).
-/

namespace Dht

namespace RpcManager

variable {m : RpcManager} {o : Outside} {q : Queued} {host : HostAddress}

/-! ## Where ids are taken -/

/-- The states in which the turn of a host takes an id. -/
def turnSends (m : RpcManager) (o : Outside) (host : HostAddress) : List RpcManager :=
  match m.queues.lookup host with
  | some (q :: rest) =>
    if (m.affordable q.dest o.now).2 ∧ (m.limiter.allow host o.now).2 then [m.served o host q rest]
    else []
  | _ => []

/-- The states in which the loop of `drain` takes ids. -/
def drainSends (o : Outside) : ℕ → RpcManager → List RpcManager
  | 0, _ => []
  | left + 1, m =>
    match m.order with
    | [] => []
    | host :: order =>
      if !m.canSendNow then []
      else
        let m := { m with order }
        m.turnSends o host ++ drainSends o left (m.turn o host).1

/-- The states in which an event takes ids. -/
def sends (m : RpcManager) : Event → List RpcManager
  | .query o q =>
    if m.queues.lookup q.dest.address = none ∧ ((m.call q).consider q.dest o.now).2 = .sent then
      [m.considering o q]
    else []
  | .drain o => drainSends o m.order.length m
  | _ => []

/-- The ids handed over. -/
def tidsOf (log : List Output) : List Bytes :=
  log.filterMap fun
    | .handed _ tid .. => some tid
    | _ => none

theorem tidsOf_append (log log' : List Output) : tidsOf (log ++ log') = tidsOf log ++ tidsOf log' :=
  List.filterMap_append

theorem tidsOf_send (m : RpcManager) (o : Outside) (q : Queued) :
    tidsOf (m.send o q).log = tidsOf m.log ++ [m.nextTransactionId.1] := by
  rw [send]
  dsimp only
  split
  · cases q.onSent <;> rw [tidsOf_append] <;> rfl
  · rw [reportNotSent, tidsOf_append, tidsOf_append]
    simp [tidsOf]

/-- What is done other than to hand over a query. -/
def Unhanded : Output → Prop
  | .handed .. => False
  | _ => True

theorem Adds.tidsOf_eq {log log' : List Output} (h : Adds Unhanded log log') :
    tidsOf log' = tidsOf log := by
  obtain ⟨outputs, rfl, houtputs⟩ := h
  have hnone : tidsOf outputs = [] := by
    refine List.filterMap_eq_nil_iff.2 fun x hx => ?_
    have hunhanded := houtputs x hx
    cases x with
    | handed => exact hunhanded.elim
    | _ => rfl
  rw [tidsOf_append, hnone, List.append_nil]

theorem tidsOf_turn (m : RpcManager) (o : Outside) (host : HostAddress) :
    tidsOf (m.turn o host).1.log =
      tidsOf m.log ++ (m.turnSends o host).map fun s => s.nextTransactionId.1 := by
  apply turn_cases (P := fun r => tidsOf r.1.log =
    tidsOf m.log ++ (m.turnSends o host).map fun s => s.nextTransactionId.1)
  case gone =>
    intro hlookup
    rw [turnSends, hlookup, List.map_nil, List.append_nil]
  case empty =>
    intro hlookup
    rw [rotate_log, turnSends, hlookup, List.map_nil, List.append_nil]
  case unaffordable =>
    intro q rest hlookup haffordable
    have hsends : m.turnSends o host = [] := by
      rw [turnSends, hlookup]
      exact if_neg fun h => Bool.eq_false_iff.1 haffordable h.1
    rw [rotate_log, hsends, List.map_nil, List.append_nil]
    exact Adds.tidsOf_eq (adds_append (by simp [Unhanded]))
  case limited =>
    intro q rest hlookup haffordable hallow
    have hsends : m.turnSends o host = [] := by
      rw [turnSends, hlookup]
      exact if_neg fun h => Bool.eq_false_iff.1 hallow h.2
    rw [rotate_log, hsends, List.map_nil, List.append_nil]
    exact Adds.tidsOf_eq (adds_append (by simp [Unhanded]))
  case sent =>
    intro q rest hlookup haffordable hallow
    have hsends : m.turnSends o host = [m.served o host q rest] := by
      rw [turnSends, hlookup]
      exact if_pos ⟨haffordable, hallow⟩
    have hserved : tidsOf (m.served o host q rest).log = tidsOf m.log :=
      Adds.tidsOf_eq (adds_append (by simp [Unhanded]))
    rw [rotate_log, tidsOf_send, hserved, hsends, List.map_singleton]

theorem tidsOf_drainLoop (o : Outside) (left : ℕ) (m : RpcManager) (exhausted : Bool) :
    tidsOf (drainLoop o left m exhausted).1.log =
      tidsOf m.log ++ (drainSends o left m).map fun s => s.nextTransactionId.1 := by
  induction left generalizing m exhausted with
  | zero => exact (List.append_nil _).symm
  | succ left ih =>
    rw [drainLoop, drainSends]
    cases horder : m.order with
    | nil => exact (List.append_nil _).symm
    | cons host order =>
      dsimp only
      split_ifs
      · rw [List.map_nil, List.append_nil]
        refine Adds.tidsOf_eq (adds_append fun x hx => ?_)
        obtain ⟨host, -, rfl⟩ := List.mem_map.1 hx
        trivial
      · rw [ih, tidsOf_turn, List.map_append, List.append_assoc]

theorem tidsOf_query (m : RpcManager) (o : Outside) (q : Queued) : tidsOf (m.query o q).log =
    tidsOf m.log ++ (m.sends (.query o q)).map fun s => s.nextTransactionId.1 := by
  obtain ⟨budget, limiter, hc⟩ := (m.call q).consider_fst q.dest o.now
  have hcall : Adds Unhanded m.log (m.call q).log := adds_append (by simp [Unhanded])
  have hconsidering : Adds Unhanded m.log (m.considering o q).log := by
    rw [considering, hc]
    exact hcall.trans (adds_append (by simp [Unhanded]))
  have hkept {m' : RpcManager} (hlog : Adds Unhanded m.log m'.log)
      (hnot : ¬(m.queues.lookup q.dest.address = none ∧
        ((m.call q).consider q.dest o.now).2 = .sent)) :
      tidsOf m'.log =
        tidsOf m.log ++ (m.sends (.query o q)).map fun s => s.nextTransactionId.1 := by
    rw [sends, if_neg hnot, List.map_nil, List.append_nil, hlog.tidsOf_eq]
  apply query_cases (P := fun m' => tidsOf m'.log =
    tidsOf m.log ++ (m.sends (.query o q)).map fun s => s.nextTransactionId.1)
  case sent =>
    intro hlookup hsent
    rw [tidsOf_send, hconsidering.tidsOf_eq, sends, if_pos ⟨hlookup, hsent⟩, List.map_singleton]
  case full =>
    exact fun _ hnot _ => hkept (hconsidering.trans (adds_append (by simp [Unhanded])))
      fun h => hnot h.2
  case first => exact fun _ hnot _ => hkept hconsidering fun h => hnot h.2
  case refused =>
    intro queue hlookup
    refine hkept (hcall.trans (adds_append (by simp [Unhanded]))) fun h => ?_
    rw [h.1] at hlookup
    cases hlookup
  case queued =>
    intro queue hlookup _ _
    refine hkept hcall fun h => ?_
    rw [h.1] at hlookup
    cases hlookup

/-- The ids that an event hands over are those that it takes. -/
theorem tidsOf_apply (m : RpcManager) (e : Event) : tidsOf (m.apply e).log =
    tidsOf m.log ++ (m.sends e).map fun s => s.nextTransactionId.1 := by
  cases e with
  | query o q => exact tidsOf_query m o q
  | drain o =>
    rw [apply, drain, sends, ← tidsOf_drainLoop o m.order.length m false]
    dsimp only
    split_ifs <;> rfl
  | _ =>
    refine (Adds.tidsOf_eq ((adds_apply m _).imp fun x hx => ?_)).trans (List.append_nil _).symm
    cases x <;> simp_all [MayDo, Concludes, Unhanded]

/-! ## Free ids -/

/-- As many queries may await replies as there are ids, and one at least. -/
structure Capable (m : RpcManager) : Prop where
  one_le : 1 ≤ m.maxPending
  le : m.maxPending ≤ 65536

theorem capable_new (nextId : UInt16) : (new nextId).Capable where
  one_le := show 1 ≤ 60000 by decide
  le := show 60000 ≤ 65536 by decide

theorem Capable.of_eq {m' : RpcManager} (h : m.Capable) (heq : m'.maxPending = m.maxPending) :
    m'.Capable :=
  ⟨heq ▸ h.one_le, heq ▸ h.le⟩

theorem Capable.apply (h : m.Capable) (e : Event) : (m.apply e).Capable := by
  rcases m.apply_maxPending e with heq | ⟨n, heq⟩
  · exact h.of_eq heq
  · constructor <;> omega

theorem Capable.run (h : m.Capable) (events : List Event) : (m.run events).Capable := by
  induction events generalizing m with
  | nil => exact h
  | cons e events ih => exact ih (h.apply e)

/-- In a state in which a query may be sent, a free id is found. -/
theorem Capable.exists_free (h : m.Capable) (hcan : m.canSendNow) : ∃ tid next,
    m.nextIdLoop 65536 m.nextId = some (tid, next) ∧ m.nextTransactionId = (tid, next) ∧
      tid ∉ m.pending := by
  have hfree := free_of_canSendNow h.le hcan
  cases hloop : m.nextIdLoop 65536 m.nextId with
  | some next =>
    have hnext : m.nextTransactionId = next := by rw [nextTransactionId, hloop, Option.getD_some]
    exact ⟨next.1, next.2, rfl, hnext, hnext ▸ hfree⟩
  | none =>
    -- Otherwise even the first id that was tried would be pending.
    have hpending : tidOf m.nextId ∈ m.pending := by
      simpa using nextIdLoop_eq_none hloop 0 (by decide)
    rw [nextTransactionId, hloop, Option.getD_none] at hfree
    exact absurd hpending hfree

/-- Ids are taken only in states in which a query may be sent. -/
theorem of_mem_turnSends {s : RpcManager} (hcan : m.canSendNow) (hs : s ∈ m.turnSends o host) :
    s.canSendNow ∧ s.maxPending = m.maxPending := by
  rw [turnSends] at hs
  split at hs
  · split_ifs at hs
    · obtain rfl := List.mem_singleton.1 hs
      exact ⟨hcan, rfl⟩
    · cases hs
  · cases hs

theorem of_mem_drainSends {s : RpcManager} {left : ℕ} (hs : s ∈ drainSends o left m) :
    s.canSendNow ∧ s.maxPending = m.maxPending := by
  induction left generalizing m with
  | zero => cases hs
  | succ left ih =>
    rw [drainSends] at hs
    cases horder : m.order with
    | nil =>
      rw [horder] at hs
      cases hs
    | cons host order =>
      rw [horder] at hs
      dsimp only at hs
      split_ifs at hs with hcap
      · cases hs
      · have hcan : m.canSendNow := by simpa using hcap
        rcases List.mem_append.1 hs with hs | hs
        · exact of_mem_turnSends (m := { m with order }) hcan hs
        · exact (ih hs).imp_right fun heq => heq.trans turn_maxPending

theorem of_mem_sends {s : RpcManager} {e : Event} (hs : s ∈ m.sends e) :
    s.canSendNow ∧ s.maxPending = m.maxPending := by
  cases e with
  | query o q =>
    rw [sends] at hs
    split_ifs at hs with hsent
    · obtain rfl := List.mem_singleton.1 hs
      obtain ⟨budget, limiter, hc⟩ := (m.call q).consider_fst q.dest o.now
      rw [considering, hc]
      exact ⟨(consider_sent.1 hsent.2).2.1, rfl⟩
    · cases hs
  | drain o => exact of_mem_drainSends hs
  | _ => cases hs

/-- Whatever happened to a manager, and whatever happens then: the ids that go out are the ones
    taken in the states of `sends`. In each of them the search for an id ends after no more
    steps than there are ids, with one that is not pending. -/
theorem takes_free_ids (nextId : UInt16) (events : List Event) (e : Event) :
    let m := (new nextId).run events
    (1 ≤ m.maxPending ∧ m.maxPending ≤ 65536) ∧
      tidsOf (m.apply e).log = tidsOf m.log ++ (m.sends e).map (fun s => s.nextTransactionId.1) ∧
      ∀ s ∈ m.sends e, ∃ tid next, s.nextIdLoop 65536 s.nextId = some (tid, next) ∧
        s.nextTransactionId = (tid, next) ∧ tid ∉ s.pending := by
  intro m
  have hcapable : m.Capable := (capable_new nextId).run events
  refine ⟨⟨hcapable.one_le, hcapable.le⟩, tidsOf_apply m e, fun s hs => ?_⟩
  obtain ⟨hcan, hmax⟩ := of_mem_sends hs
  exact (hcapable.of_eq hmax).exists_free hcan

end RpcManager

end Dht
