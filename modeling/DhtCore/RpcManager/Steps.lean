import DhtCore.Lib.Replacing
import DhtCore.RpcManager.Basic
import Mathlib.Data.Fintype.Card

/-!
# What the calls of the RPC manager do

Each call, case by case: `send` (`send_of_accepts`, `send_of_refuses`), `query`
(`query_cases`), and the turn of a host in a pass of `drain` (`turn_cases`). The
loop of `drain` keeps whatever the turns keep (`drainLoop_induction`).

A transaction id taken is a free one, as long as not all of them are pending
(`nextTransactionId_notMem`). A query waits in the queue of its host
(`Addressed.apply`).
-/

namespace Dht

namespace RpcManager

variable {m : RpcManager} {o : Outside} {q : Queued} {host : HostAddress}
    {dest : Endpoint} {now : ℤ}

/-! ## Transaction ids -/

theorem tidOf_injective : Function.Injective tidOf := by
  intro a b h
  simp only [tidOf, List.cons.injEq, and_true] at h
  obtain ⟨hhigh, hlow⟩ := h
  have ha := a.toNat_lt
  have hb := b.toNat_lt
  have hhigh' := congrArg UInt8.toNat hhigh
  have hlow' := congrArg UInt8.toNat hlow
  simp only [UInt8.toNat_ofNat'] at hhigh' hlow'
  exact UInt16.toNat_inj.1 (by omega)

theorem nextIdLoop_eq_some : ∀ {fuel : ℕ} {n n' : UInt16} {tid : Bytes},
    m.nextIdLoop fuel n = some (tid, n') → tid ∉ m.pending
  | fuel + 1, n, n', tid, h => by
    rw [nextIdLoop] at h
    split_ifs at h with hmem
    · exact nextIdLoop_eq_some h
    · obtain ⟨rfl, -⟩ := Prod.mk.injEq .. ▸ Option.some.inj h
      exact hmem

theorem nextIdLoop_eq_none : ∀ {fuel : ℕ} {n : UInt16}, m.nextIdLoop fuel n = none →
    ∀ i < fuel, tidOf (n + UInt16.ofNat i) ∈ m.pending
  | fuel + 1, n, h, i, hi => by
    rw [nextIdLoop] at h
    split_ifs at h with hmem
    cases i with
    | zero => simpa using hmem
    | succ i =>
      have := nextIdLoop_eq_none h i (by omega)
      rwa [UInt16.add_assoc, UInt16.add_comm 1, ← UInt16.ofNat_one, ← UInt16.ofNat_add] at this

/-- While not every id is pending, the next one is free. -/
theorem nextTransactionId_notMem (h : m.pending.entries.length < 65536) :
    m.nextTransactionId.1 ∉ m.pending := by
  rw [nextTransactionId]
  cases hloop : m.nextIdLoop 65536 m.nextId with
  | some next => exact nextIdLoop_eq_some hloop
  | none =>
    have hall : ∀ n : UInt16, tidOf n ∈ m.pending.keys := fun n => by
      have := nextIdLoop_eq_none hloop (n - m.nextId).toNat (n - m.nextId).toNat_lt
      rwa [UInt16.ofNat_toNat, UInt16.add_comm, UInt16.sub_add_cancel] at this
    have hcard : 65536 ≤ m.pending.keys.toFinset.card := by
      have hinj : Function.Injective fun i : Fin 65536 =>
          tidOf (UInt16.ofFin i) := fun i j hij => by
        simpa using congrArg UInt16.toFin (tidOf_injective hij)
      have hsub : Finset.univ.image (fun i : Fin 65536 => tidOf (UInt16.ofFin i)) ⊆
          m.pending.keys.toFinset := by
        rw [Finset.image_subset_iff]
        exact fun i _ => List.mem_toFinset.2 (hall _)
      have := Finset.card_le_card hsub
      rwa [Finset.card_image_of_injective _ hinj, Finset.card_univ, Fintype.card_fin] at this
    have := hcard.trans (List.toFinset_card_le _)
    rw [AList.keys, List.keys, List.length_map] at this
    omega

/-! ## Sending -/

/-- What `send` records of a query that awaits its reply. -/
def pendingFor (m : RpcManager) (o : Outside) (q : Queued) : Pending :=
  { serial := q.serial, dest := q.dest,
    request := Krpc.encodeQuery m.nextTransactionId.1 q.method q.arguments q.version m.readOnly,
    sentAt := o.sendNow q.serial, deadline := o.sendNow q.serial + q.timeoutMs,
    callback := q.callback }

theorem send_of_accepts (h : o.accepts q.serial) : m.send o q =
    { m with
      nextId := m.nextTransactionId.2
      pending := m.pending.insert m.nextTransactionId.1 (m.pendingFor o q)
      budget := m.budget.map (·.record q.dest (o.sendNow q.serial))
      log := m.log ++
        .handed q.serial m.nextTransactionId.1 (m.pendingFor o q).request q.dest
          (o.sendNow q.serial) true (m.charges q.dest (o.sendNow q.serial)) ::
          if q.onSent then [.left q.serial] else [] } := by
  rw [send]
  simp only [h, ↓reduceIte]
  rfl

/-- A query that the operating system does not take is concluded, and pending no more. -/
theorem send_of_refuses (h : o.accepts q.serial = false)
    (hfree : m.nextTransactionId.1 ∉ m.pending) :
    m.send o q = reportNotSent
      { m with
        nextId := m.nextTransactionId.2
        sendFailures := m.sendFailures + 1
        log := m.log ++ [.handed q.serial m.nextTransactionId.1 (m.pendingFor o q).request q.dest
          (o.sendNow q.serial) false false] }
      q.serial q.callback q.dest (o.sendNow q.serial) := by
  rw [send]
  simp only [h, Bool.false_eq_true, ↓reduceIte, Replacing.erase_insert hfree]
  rfl

/-! ## Queries -/

/-- Considering a query changes nothing but the budget and the limiter. -/
theorem consider_fst (m : RpcManager) (dest : Endpoint) (now : ℤ) :
    ∃ budget limiter, (m.consider dest now).1 = { m with budget, limiter } := by
  rw [consider]
  split_ifs
  · exact ⟨_, _, rfl⟩
  · exact ⟨_, _, rfl⟩
  · dsimp only [affordable, allow]
    split_ifs <;> exact ⟨_, _, rfl⟩

/-- The query is sent at once if it is considered and nothing holds it back. -/
theorem consider_sent : (m.consider dest now).2 = .sent ↔
    m.budgetExhausted = false ∧ m.canSendNow ∧ (m.affordable dest now).2 ∧
      (m.limiter.allow dest.address now).2 := by
  rw [consider]
  dsimp only [affordable, allow]
  split_ifs <;> simp_all

/-- A query sent at once was charged to the allowance of its host. -/
theorem consider_fst_of_sent (h : (m.consider dest now).2 = .sent) : (m.consider dest now).1 =
    { m with
      budget := m.budget.map fun b => (b.allows dest now).1
      limiter := (m.limiter.allow dest.address now).1 } := by
  obtain ⟨hbehind, hcap, haffordable, -⟩ := consider_sent.1 h
  rw [consider, if_neg (Bool.eq_false_iff.1 hbehind), if_neg (by simp [hcap])]
  dsimp only
  rw [if_neg (by simp [haffordable])]
  rfl

/-- The manager once a query to a host with no queue was considered. -/
def considering (m : RpcManager) (o : Outside) (q : Queued) : RpcManager :=
  ((m.call q).consider q.dest o.now).1.note
    [.considered q.dest.address ((m.call q).consider q.dest o.now).2]

/-- What is true of each thing that may come of a query is true of what comes of it. -/
theorem query_cases {P : RpcManager → Prop}
    (sent : m.queues.lookup q.dest.address = none → ((m.call q).consider q.dest o.now).2 = .sent →
      P ((m.considering o q).send o { q with serial := m.calls }))
    (full : m.queues.lookup q.dest.address = none → ((m.call q).consider q.dest o.now).2 ≠ .sent →
      MaxQueuedTotal ≤ m.queuedTotal →
      P ((m.considering o q).refuse { q with serial := m.calls } o.now))
    (first : m.queues.lookup q.dest.address = none → ((m.call q).consider q.dest o.now).2 ≠ .sent →
      m.queuedTotal < MaxQueuedTotal →
      P ({ m.considering o q with order := m.order ++ [q.dest.address] }.enqueue
        { q with serial := m.calls }))
    (refused : ∀ queue, m.queues.lookup q.dest.address = some queue →
      P ((m.call q).refuse { q with serial := m.calls } o.now))
    (queued : ∀ queue, m.queues.lookup q.dest.address = some queue →
      (queue.length : ℤ) < m.hostLimit.maxQueued → m.queuedTotal < MaxQueuedTotal →
      P ((m.call q).enqueue { q with serial := m.calls })) :
    P (m.query o q) := by
  obtain ⟨budget, limiter, hc⟩ := (m.call q).consider_fst q.dest o.now
  have horder : (m.considering o q).order = m.order := by rw [considering, hc]; rfl
  have htotal : (m.considering o q).queuedTotal = m.queuedTotal := by rw [considering, hc]; rfl
  rw [query]
  dsimp only
  split
  next hq =>
    rw [← considering]
    split_ifs with hsent hfull
    · exact sent hq hsent
    · exact full hq hsent (htotal ▸ hfull)
    · rw [horder]
      exact first hq hsent (htotal ▸ not_le.1 hfull)
  next queue hq =>
    split_ifs with hfull
    · exact refused queue hq
    · rw [not_or, ge_iff_le, not_le, ge_iff_le, not_le] at hfull
      exact queued queue hq hfull.1 hfull.2

/-- A query to a host with no queue is sent at once if nothing holds it back. -/
theorem query_of_sent (hlookup : m.queues.lookup q.dest.address = none)
    (hsent : ((m.call q).consider q.dest o.now).2 = .sent) :
    m.query o q = (m.considering o q).send o { q with serial := m.calls } := by
  rw [query]
  dsimp only
  split
  next => rw [if_pos hsent, considering]
  next queue hq =>
    have hnone : m.queues.lookup q.dest.address = some queue := hq
    rw [hlookup] at hnone
    cases hnone

/-! ## Draining -/

/-- The manager once the first query of a host was allowed, before it is sent. -/
def served (m : RpcManager) (o : Outside) (host : HostAddress) (q : Queued) (rest : List Queued) :
    RpcManager :=
  (((m.affordable q.dest o.now).1.allow host o.now).1.note [.considered host .sent]).dequeue
    host rest

/-- What is true of each thing that may come of the turn of a host is true of what
    comes of it. -/
theorem turn_cases {P : RpcManager × Bool → Prop}
    (gone : m.queues.lookup host = none → P (m, false))
    (empty : m.queues.lookup host = some [] → P (m.rotate host, false))
    (unaffordable : ∀ q rest, m.queues.lookup host = some (q :: rest) →
      (m.affordable q.dest o.now).2 = false →
      P ((((m.affordable q.dest o.now).1).note [.considered host .unaffordable]).rotate host, true))
    (limited : ∀ q rest, m.queues.lookup host = some (q :: rest) →
      (m.affordable q.dest o.now).2 → (m.limiter.allow host o.now).2 = false →
      P ((((m.affordable q.dest o.now).1.allow host o.now).1.note
        [.considered host .limited]).rotate host, false))
    (sent : ∀ q rest, m.queues.lookup host = some (q :: rest) →
      (m.affordable q.dest o.now).2 → (m.limiter.allow host o.now).2 →
      P (((m.served o host q rest).send o q).rotate host, false)) :
    P (m.turn o host) := by
  rw [turn]
  split
  next hq => exact gone hq
  next queue hq =>
    cases queue with
    | nil => exact empty hq
    | cons q rest =>
      rw [serve]
      dsimp only
      by_cases haffordable : (m.affordable q.dest o.now).2
      · rw [if_neg (by simp [haffordable])]
        by_cases hallow : ((m.affordable q.dest o.now).1.allow host o.now).2
        · rw [if_pos hallow]
          exact sent q rest hq haffordable hallow
        · rw [if_neg hallow]
          exact limited q rest hq haffordable (Bool.eq_false_iff.2 hallow)
      · rw [if_pos (by simp [haffordable])]
        exact unaffordable q rest hq (Bool.eq_false_iff.2 haffordable)

/-- What every turn in a pass keeps is kept by the pass. -/
theorem drainLoop_induction {P : RpcManager → Prop}
    (capped : ∀ m (hosts : List HostAddress), P m →
      P (m.note (hosts.map fun host => .considered host .capped)))
    (turn : ∀ m host order, m.order = host :: order → m.canSendNow → P m →
      P (turn { m with order } o host).1) :
    ∀ {left : ℕ} {m : RpcManager} {exhausted : Bool}, P m → P (drainLoop o left m exhausted).1
  | 0, _, _, h => h
  | left + 1, m, exhausted, h => by
    rw [drainLoop]
    split
    next => exact h
    next host order horder =>
      split_ifs with hcap
      · exact capped m _ h
      · exact drainLoop_induction capped turn (turn m host order horder (by simpa using hcap) h)

/-! ## What waits -/

/-- A query waits in the queue of a host. -/
def Waits (m : RpcManager) (host : HostAddress) (q : Queued) : Prop :=
  ∃ queue, m.queues.lookup host = some queue ∧ q ∈ queue

theorem Waits.congr {m' : RpcManager} (h : m.Waits host q) (hqueues : m.queues = m'.queues) :
    m'.Waits host q := by
  rw [Waits, ← hqueues]
  exact h

theorem send_queues : (m.send o q).queues = m.queues := by
  rw [send]
  dsimp only
  split <;> rfl

theorem Waits.of_insert {m' : RpcManager} {host' : HostAddress} {queue : List Queued}
    (h : m'.Waits host q) (q' : Queued) (hqueues : m'.queues = m.queues.insert host' queue)
    (hqueue : ∀ q ∈ queue, m.Waits host' q ∨ q = q') :
    m.Waits host q ∨ q = q' ∧ host = host' := by
  obtain ⟨queue', hlookup, hq⟩ := h
  rw [hqueues] at hlookup
  by_cases hne : host = host'
  · subst hne
    rw [AList.lookup_insert, Option.some.injEq] at hlookup
    exact (hqueue q (hlookup ▸ hq)).imp_right fun heq => ⟨heq, rfl⟩
  · rw [AList.lookup_insert_ne hne] at hlookup
    exact .inl ⟨queue', hlookup, hq⟩

theorem Waits.of_enqueue {q' : Queued} (h : (m.enqueue q').Waits host q) :
    m.Waits host q ∨ q = q' ∧ host = q'.dest.address := by
  refine h.of_insert q' rfl fun q hq => ?_
  cases hlookup : m.queues.lookup q'.dest.address with
  | none =>
    rw [hlookup] at hq
    exact .inr (by simpa using hq)
  | some queue =>
    rw [hlookup, Option.getD_some, List.mem_append, List.mem_singleton] at hq
    exact hq.imp_left fun hq => ⟨queue, hlookup, hq⟩

theorem Waits.of_rotate {host' : HostAddress} (h : (m.rotate host').Waits host q) :
    m.Waits host q := by
  rw [rotate] at h
  split_ifs at h
  · obtain ⟨queue, hlookup, hq⟩ := h
    by_cases hne : host = host'
    · subst hne
      rw [AList.lookup_erase] at hlookup
      cases hlookup
    · exact ⟨queue, AList.lookup_erase_ne hne ▸ hlookup, hq⟩
  · exact h.congr rfl

/-- A turn makes no query wait that did not. -/
theorem Waits.of_turn {host' : HostAddress} (h : (m.turn o host').1.Waits host q) :
    m.Waits host q := by
  revert h
  apply turn_cases (P := fun r => r.1.Waits host q → m.Waits host q)
  case gone => exact fun _ => id
  case empty => exact fun _ => Waits.of_rotate
  case unaffordable => exact fun _ _ _ _ h => h.of_rotate.congr rfl
  case limited => exact fun _ _ _ _ _ h => h.of_rotate.congr rfl
  case sent =>
    intro q' rest hq' _ _ h
    have hserved := h.of_rotate.congr send_queues
    rcases hserved.of_insert (m := m) q' rfl
      (fun q hq => .inl ⟨_, hq', List.mem_cons_of_mem _ hq⟩) with hwaits | ⟨rfl, rfl⟩
    · exact hwaits
    · exact ⟨_, hq', List.mem_cons_self⟩

theorem Waits.of_query {q' : Queued} (h : (m.query o q').Waits host q) :
    m.Waits host q ∨ q = { q' with serial := m.calls } ∧ host = q'.dest.address := by
  obtain ⟨budget, limiter, hc⟩ := (m.call q').consider_fst q'.dest o.now
  have hqueues : (m.considering o q').queues = m.queues := by rw [considering, hc]; rfl
  revert h
  apply query_cases (P := fun m' => m'.Waits host q →
    m.Waits host q ∨ q = { q' with serial := m.calls } ∧ host = q'.dest.address)
  case sent => exact fun _ _ h => .inl (h.congr (send_queues.trans hqueues))
  case full => exact fun _ _ _ h => .inl (h.congr hqueues)
  case first => exact fun _ _ _ h => h.of_enqueue.imp_left fun h => h.congr hqueues
  case refused => exact fun _ _ h => .inl (h.congr rfl)
  case queued => exact fun _ _ _ _ h => h.of_enqueue.imp_left fun h => h.congr rfl

/-- A query that waits did so before, or was made just now. -/
theorem Waits.of_apply {e : Event} (h : (m.apply e).Waits host q) : m.Waits host q ∨
    ∃ o q', e = .query o q' ∧ q = { q' with serial := m.calls } ∧ host = q'.dest.address := by
  cases e with
  | query o q' => exact h.of_query.imp_right fun h => ⟨o, q', rfl, h⟩
  | drain o =>
    refine .inl ?_
    have hloop : ∀ m', (∀ host q, m'.Waits host q → m.Waits host q) →
        ∀ host q, (drainLoop o m.order.length m' false).1.Waits host q → m.Waits host q :=
      fun m' => drainLoop_induction (P := fun m' => ∀ host q, m'.Waits host q → m.Waits host q)
        (fun _ _ h host q hq => h host q (hq.congr rfl))
        (fun _ _ _ _ _ h host q hq => h host q (hq.of_turn.congr rfl))
    simp only [RpcManager.apply, RpcManager.drain] at h
    split_ifs at h <;> exact hloop m (fun _ _ => id) host q (h.congr rfl)
  | reply now message datagram sender =>
    simp only [RpcManager.apply, RpcManager.handleReply] at h
    split at h
    · exact .inl h
    · split at h <;> exact .inl (h.congr rfl)
  | expire now tids =>
    simp only [RpcManager.apply, RpcManager.expire] at h
    split_ifs at h <;> exact .inl (h.congr rfl)
  | resume =>
    simp only [RpcManager.apply, RpcManager.resume] at h
    split at h
    · exact .inl h
    · exact .inl (h.congr rfl)
    · split at h <;> exact .inl (h.congr rfl)
  | deliver =>
    simp only [RpcManager.apply, RpcManager.deliver] at h
    split at h <;> exact .inl (h.congr rfl)
  | setHostLimit _ | setMaxPending _ | setReadOnly _ | setBudget _ => exact .inl (h.congr rfl)
  | cancelAll =>
    obtain ⟨queue, hlookup, -⟩ := h
    simp [RpcManager.apply, RpcManager.cancelAll] at hlookup

/-- Every query waits in the queue of its host. -/
def Addressed (m : RpcManager) : Prop := ∀ host q, m.Waits host q → q.dest.address = host

theorem Addressed.apply (h : m.Addressed) (e : Event) : (m.apply e).Addressed := by
  intro host q hq
  rcases hq.of_apply with hq | ⟨o, q', -, rfl, rfl⟩
  · exact h host q hq
  · rfl

end RpcManager

end Dht
