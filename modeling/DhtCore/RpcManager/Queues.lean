import DhtCore.Lib.Replacing
import DhtCore.RpcManager.Steps

/-!
# The queues of the RPC manager

The queues, the order of the hosts, the total and the drain timer agree in every
state that a manager can be in (`RpcManager.queued_run`).

`Waiting` is what holds of the queues and the order; while a host has its turn in
`drain` it is not in the order, and its queue may be empty.
-/

namespace Dht

open Replacing

namespace RpcManager

/-- How many queries wait. -/
def waitingCount (m : RpcManager) : ℤ := (m.queues.entries.map fun e => (e.2.length : ℤ)).sum

/-- The queues and the order agree, but for the host that has its turn. If there is a
    bound on them, no queue is longer. -/
structure Waiting (m : RpcManager) (bound : Option ℤ) (turn : Option HostAddress) : Prop where
  total : m.queuedTotal = m.waitingCount
  total_le : m.queuedTotal ≤ MaxQueuedTotal
  nodup : (turn.toList ++ m.order).Nodup
  mem_order : ∀ host, host ∈ turn.toList ++ m.order ↔ host ∈ m.queues
  nonempty : ∀ host, m.queues.lookup host = some [] → host ∈ turn
  length_le : ∀ n ∈ bound, ∀ host queue, m.queues.lookup host = some queue →
    (queue.length : ℤ) ≤ max 1 n
  draining : m.draining = false → m.queues.entries = []

/-- A manager has these limits, and no more queries await replies than may. -/
structure Capped (m : RpcManager) (limit : HostLimit) (maxPending : ℕ) : Prop where
  hostLimit_eq : m.hostLimit = limit
  maxPending_eq : m.maxPending = maxPending
  pending_le : m.pending.entries.length ≤ maxPending

variable {m : RpcManager} {o : Outside} {q : Queued} {host : HostAddress}
    {inTurn : Option HostAddress} {bound : Option ℤ} {limit : HostLimit} {maxPending : ℕ}

/-- Of a manager, only the queues, the order, the total and the timer matter. -/
theorem Waiting.congr {m' : RpcManager} (h : m.Waiting bound inTurn)
    (hqueues : m'.queues = m.queues) (horder : m'.order = m.order)
    (htotal : m'.queuedTotal = m.queuedTotal)
    (hdraining : m'.draining = m.draining) : m'.Waiting bound inTurn := by
  refine ⟨?_, ?_, ?_, ?_, ?_, ?_, ?_⟩
  · rw [htotal, waitingCount, hqueues]
    exact h.total
  · exact htotal ▸ h.total_le
  · exact horder ▸ h.nodup
  · rw [horder, hqueues]
    exact h.mem_order
  · exact hqueues ▸ h.nonempty
  · exact hqueues ▸ h.length_le
  · rw [hdraining, hqueues]
    exact h.draining

/-! ## Sending -/

theorem send_keeps : (m.send o q).queues = m.queues ∧ (m.send o q).order = m.order ∧
    (m.send o q).queuedTotal = m.queuedTotal ∧ (m.send o q).hostLimit = m.hostLimit ∧
    (m.send o q).draining = m.draining ∧ (m.send o q).maxPending = m.maxPending := by
  rw [send]
  dsimp only
  split_ifs <;> exact ⟨rfl, rfl, rfl, rfl, rfl, rfl⟩

theorem Waiting.send (h : m.Waiting bound inTurn) : (m.send o q).Waiting bound inTurn := by
  obtain ⟨hqueues, horder, htotal, -, hdraining, -⟩ := send_keeps (m := m) (o := o) (q := q)
  exact h.congr hqueues horder htotal hdraining

theorem length_erase_le (tid : Bytes) :
    (m.pending.erase tid).entries.length ≤ m.pending.entries.length :=
  (List.kerase_sublist tid m.pending.entries).length_le

theorem send_pending_le : (m.send o q).pending.entries.length ≤ m.pending.entries.length + 1 := by
  have hinsert : ∀ tid p, (m.pending.insert tid p).entries.length ≤ m.pending.entries.length + 1 :=
    fun tid p => by
      rw [entries_insert_erase, List.length_cons]
      exact Nat.succ_le_succ (length_erase_le tid)
  rw [send]
  dsimp only
  split
  · exact hinsert _ _
  · change ((m.pending.insert _ _).erase _).entries.length ≤ _
    exact (List.kerase_sublist _ _).length_le.trans (hinsert _ _)

/-- Of a manager, only the limits and what awaits replies matter. -/
theorem Capped.congr {m' : RpcManager} (h : m.Capped limit maxPending)
    (hlimit : m'.hostLimit = m.hostLimit) (hmax : m'.maxPending = m.maxPending)
    (hpending : m'.pending.entries.length ≤ m.pending.entries.length) :
    m'.Capped limit maxPending :=
  ⟨hlimit.trans h.hostLimit_eq, hmax.trans h.maxPending_eq, hpending.trans h.pending_le⟩

theorem Capped.send (h : m.Capped limit maxPending) (hcan : m.canSendNow) :
    (m.send o q).Capped limit maxPending := by
  obtain ⟨-, -, -, hlimit, -, hmax⟩ := send_keeps (m := m) (o := o) (q := q)
  have hlt : m.pending.entries.length < m.maxPending := by simpa [canSendNow] using hcan
  refine ⟨hlimit.trans h.hostLimit_eq, hmax.trans h.maxPending_eq, ?_⟩
  have := send_pending_le (m := m) (o := o) (q := q)
  have := h.maxPending_eq
  omega

/-! ## The queues -/

/-- The queries that wait are those of a host and the others. -/
theorem waitingCount_of_lookup {queue : List Queued} (h : m.queues.lookup host = some queue) :
    m.waitingCount = queue.length +
      ((m.queues.erase host).entries.map fun e => (e.2.length : ℤ)).sum := by
  rw [waitingCount, ((entries_perm_of_lookup h).map _).sum_eq, List.map_cons, List.sum_cons]

/-- The queue of a host is another one now, and not that much longer. -/
theorem Waiting.insert {m' : RpcManager} {queue queue' : List Queued} (h : m.Waiting bound inTurn)
    (hlookup : m.queues.lookup host = some queue)
    (hqueues : m'.queues = m.queues.insert host queue') (horder : m'.order = m.order)
    (htotal : m'.queuedTotal = m.queuedTotal + (queue'.length - queue.length : ℤ))
    (hmax : m'.queuedTotal ≤ MaxQueuedTotal) (hempty : queue' = [] → host ∈ inTurn)
    (hlength : ∀ n ∈ bound, (queue'.length : ℤ) ≤ max 1 n) (hdraining : m'.draining) :
    m'.Waiting bound inTurn := by
  have hother : ∀ other, other ≠ host → m'.queues.lookup other = m.queues.lookup other :=
    fun other hne => by rw [hqueues, AList.lookup_insert_ne hne]
  have hhost : m'.queues.lookup host = some queue' := by rw [hqueues, AList.lookup_insert]
  refine ⟨?_, hmax, horder ▸ h.nodup, fun other => ?_, fun other hlookup' => ?_,
    fun n hn other queue'' hlookup' => ?_, fun hd => absurd hdraining (by simp [hd])⟩
  · rw [htotal, h.total, waitingCount_of_lookup hlookup, waitingCount, hqueues,
      entries_insert_erase, List.map_cons, List.sum_cons]
    ring
  · rw [horder, h.mem_order, hqueues, AList.mem_insert]
    refine ⟨Or.inr, ?_⟩
    rintro (rfl | hmem)
    · exact AList.lookup_isSome.1 (by rw [hlookup]; rfl)
    · exact hmem
  · by_cases hne : other = host
    · subst hne
      exact hempty (Option.some.inj (hhost.symm.trans hlookup'))
    · exact h.nonempty other (hother other hne ▸ hlookup')
  · by_cases hne : other = host
    · subst hne
      rw [hhost, Option.some.injEq] at hlookup'
      exact hlookup' ▸ hlength n hn
    · exact h.length_le n hn other queue'' (hother other hne ▸ hlookup')

/-- A query joins the queue of its host. -/
theorem Waiting.enqueue {queue : List Queued} (h : m.Waiting bound none)
    (hlookup : m.queues.lookup q.dest.address = some queue)
    (hlt : ∀ n ∈ bound, (queue.length : ℤ) < n) (hmax : m.queuedTotal < MaxQueuedTotal) :
    (m.enqueue q).Waiting bound none := by
  have hqueues : (m.enqueue q).queues = m.queues.insert q.dest.address (queue ++ [q]) := by
    rw [RpcManager.enqueue, hlookup, Option.getD_some]
  refine h.insert hlookup hqueues rfl ?_ ?_ ?_ (fun n hn => ?_) rfl
  · simp [RpcManager.enqueue]
  · exact hmax
  · simp
  · rw [List.length_append, List.length_singleton]
    push_cast
    exact le_max_of_le_right (hlt n hn)

/-- A query is the first to wait for its host, which goes to the back of the order. -/
theorem Waiting.enqueue_first (h : m.Waiting bound none)
    (hlookup : m.queues.lookup q.dest.address = none) (hmax : m.queuedTotal < MaxQueuedTotal) :
    ({ m with order := m.order ++ [q.dest.address] }.enqueue q).Waiting bound none := by
  have hnot : q.dest.address ∉ m.queues := AList.lookup_eq_none.1 hlookup
  have hqueues : ({ m with order := m.order ++ [q.dest.address] }.enqueue q).queues =
      m.queues.insert q.dest.address [q] := by
    rw [RpcManager.enqueue]
    simp only [hlookup, Option.getD_none, List.nil_append]
  have hfind : ∀ other queue, (m.queues.insert q.dest.address [q]).lookup other = some queue →
      queue = [q] ∨ m.queues.lookup other = some queue := fun other queue hother => by
    by_cases hne : other = q.dest.address
    · subst hne
      rw [AList.lookup_insert, Option.some.injEq] at hother
      exact .inl hother.symm
    · exact .inr (AList.lookup_insert_ne hne ▸ hother)
  refine ⟨?_, hmax, ?_, fun other => ?_, fun other hother => ?_, fun n hn other queue hother => ?_,
    fun hd => absurd hd (by simp [RpcManager.enqueue])⟩
  · rw [waitingCount, hqueues, AList.entries_insert_of_notMem hnot, List.map_cons, List.sum_cons,
      ← waitingCount, ← h.total]
    exact add_comm ..
  · change (m.order ++ [q.dest.address]).Nodup
    refine List.nodup_append.2 ⟨h.nodup, List.nodup_singleton _, ?_⟩
    rintro a ha b hb rfl
    rw [List.mem_singleton.1 hb] at ha
    exact hnot ((h.mem_order _).1 ha)
  · rw [hqueues, AList.mem_insert, ← h.mem_order]
    change other ∈ m.order ++ [_] ↔ _
    rw [List.mem_append, List.mem_singleton, or_comm]
    rfl
  · rw [hqueues] at hother
    rcases hfind other _ hother with hq | hq
    · cases hq
    · exact h.nonempty other hq
  · rw [hqueues] at hother
    rcases hfind other _ hother with rfl | hq
    · simp
    · exact h.length_le n hn other queue hq

/-- While something waits, the drain timer is running. -/
theorem Waiting.draining_of_lookup {queue : List Queued} (h : m.Waiting bound inTurn)
    (hlookup : m.queues.lookup host = some queue) : m.draining := by
  by_contra hd
  rw [AList.lookup, h.draining (Bool.eq_false_iff.2 hd)] at hlookup
  cases hlookup

/-- A host in the order has a query waiting. -/
theorem Waiting.exists_front (h : m.Waiting bound none) (hmem : host ∈ m.order) :
    ∃ q rest, m.queues.lookup host = some (q :: rest) := by
  obtain ⟨queue, hlookup⟩ := Option.isSome_iff_exists.1
    (AList.lookup_isSome.2 ((h.mem_order host).1 hmem))
  cases queue with
  | nil => exact absurd (h.nonempty host hlookup) (Option.not_mem_none host)
  | cons q rest => exact ⟨q, rest, hlookup⟩

/-- The host that has its turn loses a query. -/
theorem Waiting.dequeue {rest : List Queued} (h : m.Waiting bound (some host))
    (hlookup : m.queues.lookup host = some (q :: rest)) :
    (m.dequeue host rest).Waiting bound (some host) := by
  refine h.insert hlookup rfl rfl ?_ ?_ (fun _ => rfl) (fun n hn => ?_) ?_
  · rw [List.length_cons]
    simp only [RpcManager.dequeue]
    push_cast
    ring
  · have := h.total_le
    simp only [RpcManager.dequeue]
    omega
  · have := h.length_le n hn host _ hlookup
    rw [List.length_cons] at this
    push_cast at this
    omega
  · exact h.draining_of_lookup hlookup

/-- The turn of a host ends. -/
theorem Waiting.rotate (h : m.Waiting bound (some host)) : (m.rotate host).Waiting bound none := by
  obtain ⟨queue, hlookup⟩ := Option.isSome_iff_exists.1
    (AList.lookup_isSome.2 ((h.mem_order host).1 (by simp)))
  have hnodup : host ∉ m.order ∧ m.order.Nodup := by simpa using h.nodup
  rw [RpcManager.rotate, hlookup, Option.getD_some]
  -- An empty queue is erased, any other goes to the end of the order.
  split_ifs with hempty
  · subst hempty
    have hother : ∀ other queue, (m.queues.erase host).lookup other = some queue →
        other ≠ host ∧ m.queues.lookup other = some queue := fun other queue hother => by
      have hne : other ≠ host := by
        rintro rfl
        rw [AList.lookup_erase] at hother
        cases hother
      exact ⟨hne, AList.lookup_erase_ne hne ▸ hother⟩
    refine ⟨?_, h.total_le, hnodup.2, fun other => ?_, fun other hfind => ?_,
      fun n hn other queue hfind => ?_, fun hd => ?_⟩
    · change m.queuedTotal = _
      rw [h.total, waitingCount_of_lookup hlookup]
      simp [waitingCount]
    · rw [AList.mem_erase, ← h.mem_order]
      simp only [Option.toList_none, List.nil_append, Option.toList_some, List.cons_append,
        List.mem_cons]
      refine ⟨fun hmem => ⟨fun heq => hnodup.1 (heq ▸ hmem), .inr hmem⟩, ?_⟩
      rintro ⟨hne, rfl | hmem⟩
      · exact absurd rfl hne
      · exact hmem
    · obtain ⟨hne, hfind⟩ := hother other _ hfind
      exact absurd (Option.mem_some_iff.1 (h.nonempty other hfind)).symm hne
    · exact h.length_le n hn other queue (hother other _ hfind).2
    · exact List.eq_nil_of_length_eq_zero (Nat.le_zero.1
        ((List.kerase_sublist host m.queues.entries).length_le.trans (by rw [h.draining hd]; rfl)))
  · have hperm : ([host] ++ m.order).Perm (m.order ++ [host]) := List.perm_append_comm
    refine ⟨h.total, h.total_le, (hperm.nodup_iff.1 h.nodup), fun other =>
      ?_, fun other hfind => ?_, h.length_le, h.draining⟩
    · rw [← h.mem_order]
      exact hperm.mem_iff.symm
    · have heq := Option.mem_some_iff.1 (h.nonempty other hfind)
      rw [← heq, hlookup, Option.some.injEq] at hfind
      exact absurd hfind hempty

/-! ## Whole calls -/

theorem considering_keeps : (m.considering o q).queues = m.queues ∧
    (m.considering o q).order = m.order ∧
    (m.considering o q).queuedTotal = m.queuedTotal ∧ (m.considering o q).hostLimit = m.hostLimit ∧
    (m.considering o q).draining = m.draining ∧ (m.considering o q).maxPending = m.maxPending ∧
    (m.considering o q).pending = m.pending := by
  obtain ⟨budget, limiter, hc⟩ := (m.call q).consider_fst q.dest o.now
  rw [considering, hc]
  exact ⟨rfl, rfl, rfl, rfl, rfl, rfl, rfl⟩

theorem Waiting.query (h : m.Waiting bound none) (hbound : ∀ n ∈ bound, n = m.hostLimit.maxQueued)
    (o : Outside) (q : Queued) : (m.query o q).Waiting bound none := by
  obtain ⟨hqueues, horder, htotal, -, hdraining, -⟩ := considering_keeps (m := m) (o := o) (q := q)
  have hcall : (m.call q).Waiting bound none := h.congr rfl rfl rfl rfl
  have hconsidering : (m.considering o q).Waiting bound none :=
    h.congr hqueues horder htotal hdraining
  apply query_cases (P := fun m => m.Waiting bound none)
  case sent => exact fun _ _ => hconsidering.send
  case full => exact fun _ _ _ => hconsidering.congr rfl rfl rfl rfl
  case first =>
    intro hq _ hmax
    rw [← horder]
    exact hconsidering.enqueue_first (q := { q with serial := m.calls })
      (hqueues ▸ hq) (htotal ▸ hmax)
  case refused => exact fun _ _ => hcall.congr rfl rfl rfl rfl
  case queued =>
    exact fun queue hq hlt hmax =>
      hcall.enqueue (q := { q with serial := m.calls }) hq (fun n hn => hbound n hn ▸ hlt) hmax

theorem Waiting.turn_fst {order : List HostAddress} (h : m.Waiting bound none)
    (horder : m.order = host :: order) :
    (RpcManager.turn { m with order } o host).1.Waiting bound none := by
  -- While it has its turn, the host is out of the order.
  have hturn : ({ m with order } : RpcManager).Waiting bound (some host) := by
    refine ⟨h.total, h.total_le, ?_, ?_, fun h' hh => ?_, h.length_le, h.draining⟩
    · simpa [horder] using h.nodup
    · simpa [horder] using h.mem_order
    · exact absurd (h.nonempty h' hh) (Option.not_mem_none h')
  apply turn_cases (P := fun r => r.1.Waiting bound none)
  case gone =>
    intro hq
    exact absurd ((hturn.mem_order host).1 (by simp)) (AList.lookup_eq_none.1 hq)
  case empty => exact fun _ => hturn.rotate
  case unaffordable =>
    refine fun q rest _ _ => Waiting.rotate ?_
    exact hturn.congr rfl rfl rfl rfl
  case limited =>
    refine fun q rest _ _ _ => Waiting.rotate ?_
    exact hturn.congr rfl rfl rfl rfl
  case sent =>
    refine fun q rest hq _ _ => Waiting.rotate (Waiting.send ?_)
    exact (hturn.dequeue hq).congr rfl rfl rfl rfl

theorem Waiting.drain (h : m.Waiting bound none) (o : Outside) :
    (m.drain o).Waiting bound none := by
  have hloop : (drainLoop o m.order.length m false).1.Waiting bound none :=
    drainLoop_induction (P := fun m => m.Waiting bound none)
      (fun m hosts h => h.congr rfl rfl rfl rfl)
        (fun m host order horder _ h => h.turn_fst horder) h
  rw [RpcManager.drain]
  dsimp only
  split_ifs with hempty
  · exact ⟨hloop.total, hloop.total_le, hloop.nodup, hloop.mem_order, hloop.nonempty,
      hloop.length_le, fun _ => hempty⟩
  · exact hloop.congr rfl rfl rfl rfl

theorem Waiting.cancelAll (m : RpcManager) : m.cancelAll.Waiting bound none := by
  refine ⟨rfl, ?_, List.nodup_nil, fun host => ?_, fun host hh => ?_, fun n hn host queue hh => ?_,
    fun _ => rfl⟩
  · change (0 : ℤ) ≤ 20000
    norm_num
  · simp [RpcManager.cancelAll]
  · simp [RpcManager.cancelAll] at hh
  · simp [RpcManager.cancelAll] at hh

theorem Waiting.apply (h : m.Waiting bound none) (hbound : ∀ n ∈ bound, n = m.hostLimit.maxQueued)
    (e : Event) : (m.apply e).Waiting bound none := by
  cases e with
  | query o q => exact h.query hbound o q
  | drain o => exact h.drain o
  | reply now message datagram sender =>
    simp only [RpcManager.apply, RpcManager.handleReply]
    split
    · exact h
    · split
      · exact h
      · exact h.congr rfl rfl rfl rfl
  | expire now tids =>
    simp only [RpcManager.apply, RpcManager.expire]
    split_ifs <;> exact h.congr rfl rfl rfl rfl
  | resume =>
    simp only [RpcManager.apply, RpcManager.resume]
    split
    · exact h
    · exact h.congr rfl rfl rfl rfl
    · split <;> exact h.congr rfl rfl rfl rfl
  | deliver =>
    simp only [RpcManager.apply, RpcManager.deliver]
    split
    · exact h
    · exact h.congr rfl rfl rfl rfl
  | cancelAll => exact Waiting.cancelAll m
  | setHostLimit _ | setMaxPending _ | setReadOnly _ | setBudget _ => exact h.congr rfl rfl rfl rfl

/-! ## The limits -/

theorem Capped.query (h : m.Capped limit maxPending) (o : Outside) (q : Queued) :
    (m.query o q).Capped limit maxPending := by
  obtain ⟨-, -, -, hlimit, -, hmax, hpending⟩ := considering_keeps (m := m) (o := o) (q := q)
  have hconsidering : (m.considering o q).Capped limit maxPending :=
    h.congr hlimit hmax (by rw [hpending])
  apply query_cases (P := fun m => m.Capped limit maxPending)
  case sent =>
    intro _ hsent
    have hcan : (m.considering o q).canSendNow := by
      rw [canSendNow, hpending, hmax]
      exact (consider_sent.1 hsent).2.1
    exact hconsidering.send hcan
  case full => exact fun _ _ _ => hconsidering.congr rfl rfl le_rfl
  case first => exact fun _ _ _ => hconsidering.congr rfl rfl le_rfl
  case refused => exact fun _ _ => h.congr rfl rfl le_rfl
  case queued => exact fun _ _ _ _ => h.congr rfl rfl le_rfl

theorem Capped.rotate (h : m.Capped limit maxPending) :
    (m.rotate host).Capped limit maxPending := by
  rw [RpcManager.rotate]
  split_ifs <;> exact h.congr rfl rfl le_rfl

theorem Capped.turn (h : m.Capped limit maxPending) (hcan : m.canSendNow) :
    (m.turn o host).1.Capped limit maxPending := by
  apply turn_cases (P := fun r => r.1.Capped limit maxPending)
  case gone => exact fun _ => h
  case empty => exact fun _ => h.rotate
  case unaffordable =>
    refine fun q rest _ _ => Capped.rotate ?_
    exact h.congr rfl rfl le_rfl
  case limited =>
    refine fun q rest _ _ _ => Capped.rotate ?_
    exact h.congr rfl rfl le_rfl
  case sent =>
    refine fun q rest _ _ _ => Capped.rotate (Capped.send ?_ hcan)
    exact h.congr rfl rfl le_rfl

theorem Capped.drain (h : m.Capped limit maxPending) (o : Outside) :
    (m.drain o).Capped limit maxPending := by
  have hloop : (drainLoop o m.order.length m false).1.Capped limit maxPending := by
    refine drainLoop_induction (P := fun m => m.Capped limit maxPending)
      (fun m hosts h => h.congr rfl rfl le_rfl) (fun m host order _ hcan h => Capped.turn ?_ hcan) h
    exact h.congr rfl rfl le_rfl
  rw [RpcManager.drain]
  dsimp only
  split_ifs <;> exact hloop.congr rfl rfl le_rfl

/-- An event that does not change the limits a manager was given. -/
def Event.KeepsLimits : Event → Prop
  | .setHostLimit _ | .setMaxPending _ => False
  | _ => True

theorem Capped.apply (h : m.Capped limit maxPending) {e : Event} (he : e.KeepsLimits) :
    (m.apply e).Capped limit maxPending := by
  cases e with
  | query o q => exact h.query o q
  | drain o => exact h.drain o
  | reply now message datagram sender =>
    simp only [RpcManager.apply, RpcManager.handleReply]
    split
    · exact h
    · split
      · exact h
      · exact h.congr rfl rfl (length_erase_le _)
  | expire now tids =>
    simp only [RpcManager.apply, RpcManager.expire]
    split_ifs <;> exact h.congr rfl rfl le_rfl
  | resume =>
    simp only [RpcManager.apply, RpcManager.resume]
    split
    · exact h
    · exact h.congr rfl rfl le_rfl
    · split
      · exact h.congr rfl rfl le_rfl
      · exact h.congr rfl rfl (length_erase_le _)
  | deliver =>
    simp only [RpcManager.apply, RpcManager.deliver]
    split <;> exact h.congr rfl rfl le_rfl
  | cancelAll => exact h.congr rfl rfl (Nat.zero_le _)
  | setReadOnly _ | setBudget _ => exact h.congr rfl rfl le_rfl
  | setHostLimit _ | setMaxPending _ => exact he.elim

/-! ## The drain timer -/

/-- The drain timer is not running for nothing. -/
def Timed (m : RpcManager) : Prop := m.draining → m.queues.entries ≠ []

theorem timed_enqueue : (m.enqueue q).Timed := by
  intro _
  rw [enqueue]
  simp only [entries_insert_erase]
  exact List.cons_ne_nil _ _

theorem Timed.congr {m' : RpcManager} (h : m.Timed) (hqueues : m'.queues = m.queues)
    (hdraining : m'.draining = m.draining) : m'.Timed := by
  rw [Timed, hqueues, hdraining]
  exact h

theorem Timed.send (h : m.Timed) : (m.send o q).Timed :=
  have hsend := send_keeps (m := m) (o := o) (q := q)
  h.congr hsend.1 hsend.2.2.2.2.1

theorem Timed.query (h : m.Timed) (o : Outside) (q : Queued) : (m.query o q).Timed := by
  obtain ⟨budget, limiter, hc⟩ := (m.call q).consider_fst q.dest o.now
  have hconsidering : (m.considering o q).Timed := by
    rw [considering, hc]
    exact h.congr rfl rfl
  apply query_cases (P := Timed)
  case sent => exact fun _ _ => hconsidering.send
  case full => exact fun _ _ _ => hconsidering.congr rfl rfl
  case first => exact fun _ _ _ => timed_enqueue
  case refused => exact fun _ _ => h.congr rfl rfl
  case queued => exact fun _ _ _ _ => timed_enqueue

theorem timed_drain (m : RpcManager) (o : Outside) : (m.drain o).Timed := by
  rw [drain]
  dsimp only
  split_ifs with hempty
  · exact fun hd => absurd hd (by simp)
  · exact fun _ => hempty

theorem Timed.apply (h : m.Timed) (e : Event) : (m.apply e).Timed := by
  cases e with
  | query o q => exact h.query o q
  | drain o => exact timed_drain m o
  | reply now message datagram sender =>
    simp only [RpcManager.apply, RpcManager.handleReply]
    split
    · exact h
    · split
      · exact h
      · exact h.congr rfl rfl
  | expire now tids =>
    simp only [RpcManager.apply, RpcManager.expire]
    split_ifs <;> exact h.congr rfl rfl
  | resume =>
    simp only [RpcManager.apply, RpcManager.resume]
    split
    · exact h
    · exact h.congr rfl rfl
    · split <;> exact h.congr rfl rfl
  | deliver =>
    simp only [RpcManager.apply, RpcManager.deliver]
    split
    · exact h
    · exact h.congr rfl rfl
  | cancelAll => exact fun hd => absurd hd (by simp [RpcManager.apply, RpcManager.cancelAll])
  | setHostLimit _ | setMaxPending _ | setReadOnly _ | setBudget _ => exact h.congr rfl rfl

/-! ## Runs -/

/-- A new manager with limits set. -/
def limited (nextId : UInt16) (limit : HostLimit) (maxPending : ℤ) : RpcManager :=
  ((new nextId).setHostLimit limit).setMaxPending maxPending

theorem waiting_new (nextId : UInt16) : (new nextId).Waiting bound none :=
  (Waiting.cancelAll (new nextId)).congr rfl rfl rfl rfl

/-- Whatever happens to a manager, its queues and its order agree. -/
theorem waiting_run : ∀ {events : List Event} {m : RpcManager}, m.Waiting none none →
    (m.run events).Waiting none none
  | [], _, h => h
  | e :: _, m, h => waiting_run (m := m.apply e)
      (h.apply (fun n hn => absurd hn (Option.not_mem_none n)) e)

/-- The queues of a manager whose limits are these, between calls. -/
structure WellQueued (m : RpcManager) (limit : HostLimit) (maxPending : ℕ) : Prop where
  total : m.queuedTotal = m.waitingCount
  total_le : m.queuedTotal ≤ MaxQueuedTotal
  nonempty : ∀ host, m.queues.lookup host ≠ some []
  /-- The order lists each host that has a queue once, and no others. -/
  nodup : m.order.Nodup
  mem_order : ∀ host, host ∈ m.order ↔ host ∈ m.queues
  length_le : ∀ host queue, m.queues.lookup host = some queue →
    (queue.length : ℤ) ≤ max 1 limit.maxQueued
  pending_le : m.pending.entries.length ≤ maxPending
  /-- The drain timer is running exactly if something waits. -/
  draining : m.draining ↔ m.queues.entries ≠ []

theorem Waiting.wellQueued (h : m.Waiting (some limit.maxQueued) none)
    (hcapped : m.Capped limit maxPending) (htimed : m.Timed) : m.WellQueued limit maxPending := by
  refine ⟨h.total, h.total_le, fun host hh => ?_, h.nodup, h.mem_order, h.length_le _ rfl,
    hcapped.pending_le, htimed, fun hne => ?_⟩
  · exact Option.not_mem_none host (h.nonempty host hh)
  · by_contra hd
    exact hne (h.draining (Bool.eq_false_iff.2 hd))

theorem wellQueued_of_run : ∀ {events : List Event} {m : RpcManager},
    m.Waiting (some limit.maxQueued) none → m.Capped limit maxPending → m.Timed →
      (∀ e ∈ events, e.KeepsLimits) → (m.run events).WellQueued limit maxPending
  | [], _, h, hcapped, htimed, _ => h.wellQueued hcapped htimed
  | e :: _, m, h, hcapped, htimed, hkeeps =>
    wellQueued_of_run (m := m.apply e)
      (h.apply (fun _ hn => Option.mem_some_iff.1 hn ▸ congrArg _ hcapped.hostLimit_eq.symm) e)
      (hcapped.apply (hkeeps e List.mem_cons_self)) (htimed.apply e)
      fun e' he' => hkeeps e' (List.mem_cons_of_mem _ he')

/-- Whatever happens to a manager with fixed limits, its queues are as they should be. -/
theorem wellQueued_run (nextId : UInt16) (limit : HostLimit) (maxPending : ℤ) (events : List Event)
    (h : ∀ e ∈ events, e.KeepsLimits) :
    ((limited nextId limit maxPending).run events).WellQueued limit
      (max 1 (min maxPending 65536)).toNat :=
  wellQueued_of_run ((waiting_new nextId).congr rfl rfl rfl rfl) ⟨rfl, rfl, Nat.zero_le _⟩
    (fun hd => absurd hd (by simp [limited, setMaxPending, setHostLimit, new])) h

/-- Two queries to one host, of which one is sent at once and one in a later pass. -/
theorem wellQueued_run_queries :
    ((limited 0 { burst := 1 } 1).run [.query ⟨0, fun _ => 0, fun _ => true⟩
      ⟨0, default, [], [], [], true, 3000, false⟩,
      .query ⟨0, fun _ => 0, fun _ => true⟩ ⟨0, default, [], [], [], true, 3000, false⟩,
      .drain ⟨500, fun _ => 500, fun _ => true⟩]).WellQueued { burst := 1 } 1 :=
  wellQueued_run 0 { burst := 1 } 1 _ (by simp [Event.KeepsLimits])

end RpcManager

end Dht
