import DhtCore.Lib.Replacing
import DhtCore.RpcManager.Steps
import Mathlib.Data.Multiset.Range

/-!
# The outcome of a query

Every query is at any moment in exactly one place: it waits in the queue of its
host, or it awaits its reply, or it was concluded (`Accounted.places`). Its
callback is told of the one outcome it has, or about to be told (`Accounted.told`).

While one of the calls moves a query from one place to another, it has it in its
`hand`.
-/

namespace Dht

open Replacing

namespace RpcManager

/-! ## What was done -/

/-- The queries made. The one of the `n`-th call is the `n`-th of them. -/
def callsOf (log : List Output) : List Queued :=
  log.filterMap fun
    | .called q => some q
    | _ => none

/-- The outcomes there were. -/
def outcomesOf (log : List Output) : List (ℕ × RpcReply) :=
  log.filterMap fun
    | .concluded serial reply _ => some (serial, reply)
    | _ => none

/-- What callbacks were told. -/
def ranOf (log : List Output) : List (ℕ × RpcReply) :=
  log.filterMap fun
    | .ran serial reply => some (serial, reply)
    | _ => none

/-- The queries of which the operating system took a datagram. -/
def acceptedOf (log : List Output) : List ℕ :=
  log.filterMap fun
    | .handed serial _ _ _ _ true _ => some serial
    | _ => none

/-- What the manager did that is not about what becomes of a query. -/
def Idle : Output → Prop
  | .considered .. | .left _ | .handed _ _ _ _ _ false _ => True
  | _ => False

variable {log outputs : List Output}

theorem callsOf_append : callsOf (log ++ outputs) = callsOf log ++ callsOf outputs :=
  List.filterMap_append

theorem outcomesOf_append : outcomesOf (log ++ outputs) = outcomesOf log ++ outcomesOf outputs :=
  List.filterMap_append

theorem ranOf_append : ranOf (log ++ outputs) = ranOf log ++ ranOf outputs := List.filterMap_append

theorem acceptedOf_append : acceptedOf (log ++ outputs) = acceptedOf log ++ acceptedOf outputs :=
  List.filterMap_append

theorem of_idle (h : ∀ x ∈ outputs, Idle x) : callsOf outputs = [] ∧ outcomesOf outputs = [] ∧
    ranOf outputs = [] ∧ acceptedOf outputs = [] := by
  refine ⟨?_, ?_, ?_, ?_⟩ <;>
  · refine List.filterMap_eq_nil_iff.2 fun x hx => ?_
    have := h x hx
    rcases x with _ | ⟨_, _, _, _, _, _ | _, _⟩ | _ | _ | _ | _
    all_goals first | rfl | exact this.elim

/-! ## Where the queries are -/

/-- The queries that wait. -/
def waiting (m : RpcManager) : Multiset ℕ := ↑(m.queues.entries.flatMap fun e => e.2.map (·.serial))

/-- The queries that await their replies. -/
def awaiting (m : RpcManager) : Multiset ℕ := ↑(m.pending.entries.map fun e => e.2.serial)

/-- The queries that were concluded. -/
def concluded (log : List Output) : Multiset ℕ := ↑((outcomesOf log).map (·.1))

/-- The queries concluded after the operating system took a datagram of theirs. -/
def answered (log : List Output) : Multiset ℕ :=
  ↑(((outcomesOf log).filter fun x => x.2.status ≠ .Throttled).map (·.1))

/-- Whether the query of a call has a callback. -/
def hasCallback (log : List Output) (serial : ℕ) : Bool := (callsOf log)[serial]?.any (·.callback)

/-- A query that awaits its reply is one that was called, and that was sent so. -/
structure SentAs (log : List Output) (tid : Bytes) (p : Pending) (q : Queued) : Prop where
  asked : (callsOf log)[p.serial]? = some q
  dest : p.dest = q.dest
  callback : p.callback = q.callback
  deadline : p.deadline = p.sentAt + q.timeoutMs
  handed : ∃ charged, Output.handed p.serial tid p.request p.dest p.sentAt true charged ∈ log

/-- A reply is from the endpoint that its query was sent to, under the id it was sent with. -/
def Matches (log : List Output) (serial : ℕ) (reply : RpcReply) : Prop :=
  ∃ q sentAt charged, (callsOf log)[serial]? = some q ∧ reply.sender = q.dest ∧
    Output.handed serial reply.message.transactionId reply.request q.dest sentAt true charged ∈ log

/-- All queries are accounted for, but for the one in hand. -/
structure Accounted (m : RpcManager) (hand : Option Queued) : Prop where
  calls : (callsOf m.log).map (·.serial) = List.range m.calls
  /-- Every query is in exactly one place. -/
  places : ↑(hand.toList.map (·.serial)) + m.waiting + m.awaiting + concluded m.log =
    Multiset.range m.calls
  /-- Every outcome was told to the callback, or is about to be. -/
  told : (ranOf m.log : Multiset (ℕ × RpcReply)) + m.posted =
    ↑((outcomesOf m.log).filter fun x => hasCallback m.log x.1)
  accepted : (acceptedOf m.log : Multiset ℕ) = m.awaiting + answered m.log
  hand : ∀ q ∈ hand, (callsOf m.log)[q.serial]? = some q
  waits : ∀ host q, m.Waits host q → (callsOf m.log)[q.serial]? = some q
  pends : ∀ tid p, m.pending.lookup tid = some p → ∃ q, SentAs m.log tid p q
  answers : ∀ serial reply, (serial, reply) ∈ outcomesOf m.log →
    reply.status = .Response ∨ reply.status = .Error → Matches m.log serial reply

variable {m m' : RpcManager} {hand : Option Queued} {o : Outside} {q : Queued} {host : HostAddress}
  {now : ℤ}

theorem asked_append {serial : ℕ} (h : (callsOf log)[serial]? = some q) :
    (callsOf (log ++ outputs))[serial]? = some q := by
  rw [callsOf_append, List.getElem?_append_left (List.getElem?_eq_some_iff.1 h).1, h]

theorem SentAs.append {tid : Bytes} {p : Pending} (h : SentAs log tid p q) :
    SentAs (log ++ outputs) tid p q := by
  obtain ⟨hasked, hdest, hcallback, hdeadline, charged, hhanded⟩ := h
  exact ⟨asked_append hasked, hdest, hcallback, hdeadline, charged, List.mem_append_left _ hhanded⟩

theorem Matches.append {serial : ℕ} {reply : RpcReply} (h : Matches log serial reply) :
    Matches (log ++ outputs) serial reply := by
  obtain ⟨q, sentAt, charged, hasked, hsender, hhanded⟩ := h
  exact ⟨q, sentAt, charged, asked_append hasked, hsender, List.mem_append_left _ hhanded⟩

/-! ### The queues -/

/-- The queries that wait for other hosts. -/
def waitingElsewhere (m : RpcManager) (host : HostAddress) : Multiset ℕ :=
  ↑((m.queues.erase host).entries.flatMap fun e => e.2.map (·.serial))

theorem waiting_eq (m : RpcManager) (host : HostAddress) : m.waiting =
    ↑(((m.queues.lookup host).getD []).map (·.serial)) + m.waitingElsewhere host := by
  rw [waiting, waitingElsewhere, Multiset.coe_add, Multiset.coe_eq_coe]
  cases hlookup : m.queues.lookup host with
  | none => simp [entries_erase_of_lookup_eq_none hlookup]
  | some queue => exact (entries_perm_of_lookup hlookup).flatMap_right _

theorem waiting_of_insert {queue : List Queued} (h : m'.queues = m.queues.insert host queue) :
    m'.waiting = ↑(queue.map (·.serial)) + m.waitingElsewhere host := by
  rw [waiting, h, entries_insert_erase]
  rfl

theorem waiting_rotate : (m.rotate host).waiting = m.waiting := by
  rw [rotate]
  split_ifs with hempty
  · rw [m.waiting_eq host, hempty, List.map_nil, Multiset.coe_nil, zero_add]
    rfl
  · rfl

theorem awaiting_of_lookup {tid : Bytes} {p : Pending} (h : m.pending.lookup tid = some p)
    (hpending : m'.pending = m.pending.erase tid) : m.awaiting = {p.serial} + m'.awaiting := by
  rw [awaiting, awaiting, hpending, ← Multiset.coe_singleton, Multiset.coe_add, Multiset.coe_eq_coe]
  exact (entries_perm_of_lookup h).map _

theorem awaiting_of_insert {tid : Bytes} {p : Pending} (h : tid ∉ m.pending)
    (hpending : m'.pending = m.pending.insert tid p) : m'.awaiting = {p.serial} + m.awaiting := by
  rw [awaiting, awaiting, hpending, AList.entries_insert_of_notMem h, ← Multiset.coe_singleton,
    Multiset.coe_add]
  rfl

/-! ### One query at a time -/

/-- What the manager did that is not about a query leaves them accounted for. -/
theorem Accounted.idle (h : m.Accounted hand) (hqueues : m'.queues = m.queues)
    (hpending : m'.pending = m.pending) (hcalls : m'.calls = m.calls)
    (hposted : m'.posted = m.posted) (hlog : m'.log = m.log ++ outputs)
    (hidle : ∀ x ∈ outputs, Idle x) : m'.Accounted hand := by
  obtain ⟨hc, ho, hr, ha⟩ := of_idle hidle
  have hwaiting : m'.waiting = m.waiting := by rw [waiting, waiting, hqueues]
  have hawaiting : m'.awaiting = m.awaiting := by rw [awaiting, awaiting, hpending]
  have hcallsOf : callsOf m'.log = callsOf m.log := by
      rw [hlog, callsOf_append, hc, List.append_nil]
  have houtcomes : outcomesOf m'.log = outcomesOf m.log := by
    rw [hlog, outcomesOf_append, ho, List.append_nil]
  refine ⟨?_, ?_, ?_, ?_, ?_, ?_, ?_, ?_⟩
  · rw [hcallsOf, hcalls]
    exact h.calls
  · rw [hwaiting, hawaiting, concluded, houtcomes, hcalls]
    exact h.places
  · rw [hlog, ranOf_append, hr, List.append_nil, ← hlog, houtcomes, hposted]
    simp only [hasCallback, hcallsOf]
    exact h.told
  · rw [hlog, acceptedOf_append, ha, List.append_nil, ← hlog, hawaiting, answered, houtcomes]
    exact h.accepted
  · rw [hcallsOf]
    exact h.hand
  · rw [hcallsOf]
    exact fun host q hq => h.waits host q (hq.congr hqueues)
  · rw [hpending, hlog]
    exact fun tid p hp => (h.pends tid p hp).imp fun q hq => hq.append
  · rw [houtcomes, hlog]
    exact fun serial reply hmem hstatus => (h.answers serial reply hmem hstatus).append

theorem Accounted.congr (h : m.Accounted hand) (hqueues : m'.queues = m.queues)
    (hpending : m'.pending = m.pending) (hcalls : m'.calls = m.calls)
    (hposted : m'.posted = m.posted) (hlog : m'.log = m.log) : m'.Accounted hand :=
  h.idle hqueues hpending hcalls hposted (hlog.trans (List.append_nil _).symm) (by simp)

/-- The queries concluded were called. -/
theorem Accounted.asked_of_outcome (h : m.Accounted hand) {x : ℕ × RpcReply}
    (hx : x ∈ outcomesOf m.log) :
    ∃ q, (callsOf m.log)[x.1]? = some q := by
  have hmem : x.1 ∈ Multiset.range m.calls := by
    rw [← h.places]
    exact Multiset.mem_add.2 (.inr (Multiset.mem_coe.2 (List.mem_map_of_mem hx)))
  have hlength : (callsOf m.log).length = m.calls := by
    rw [← List.length_map, h.calls, List.length_range]
  rw [Multiset.mem_range, ← hlength] at hmem
  exact ⟨_, List.getElem?_eq_getElem hmem⟩

theorem Accounted.call (h : m.Accounted none) (q : Queued) :
    (m.call q).Accounted (some { q with serial := m.calls }) := by
  have hlength : (callsOf m.log).length = m.calls := by
    rw [← List.length_map, h.calls, List.length_range]
  have hcallsOf : callsOf (m.call q).log = callsOf m.log ++ [{ q with serial := m.calls }] :=
    callsOf_append
  have houtcomes : outcomesOf (m.call q).log = outcomesOf m.log :=
    outcomesOf_append.trans (List.append_nil _)
  have hran : ranOf (m.call q).log = ranOf m.log := ranOf_append.trans (List.append_nil _)
  have haccepted : acceptedOf (m.call q).log = acceptedOf m.log :=
    acceptedOf_append.trans (List.append_nil _)
  refine ⟨?_, ?_, ?_, ?_, ?_, ?_, ?_, ?_⟩
  · rw [hcallsOf, List.map_append, h.calls]
    exact List.range_succ.symm
  · have := h.places
    simp only [Option.toList_none, List.map_nil, Multiset.coe_nil, zero_add] at this
    rw [concluded, houtcomes, ← concluded]
    change {m.calls} + m.waiting + m.awaiting + concluded m.log = Multiset.range (m.calls + 1)
    rw [Multiset.range_succ, ← this, ← Multiset.singleton_add]
    abel
  · rw [hran, houtcomes]
    refine h.told.trans (congrArg _ (List.filter_congr fun x hx => ?_))
    obtain ⟨q', hq'⟩ := h.asked_of_outcome hx
    rw [hasCallback, hasCallback, hq', hcallsOf, List.getElem?_append_left
      (List.getElem?_eq_some_iff.1 hq').1, hq']
  · rw [haccepted, answered, houtcomes]
    exact h.accepted
  · intro q' hq'
    cases hq'
    rw [hcallsOf, List.getElem?_append_right hlength.le, hlength]
    simp
  · exact fun host q' hq' => asked_append (h.waits host q' hq')
  · exact fun tid p hp => (h.pends tid p hp).imp fun q hq => hq.append
  · rw [houtcomes]
    exact fun serial reply hmem hstatus => (h.answers serial reply hmem hstatus).append

/-- A query moves between the hand and a queue. -/
theorem Accounted.requeue {hand' : Option Queued} (h : m.Accounted hand)
    (hpending : m'.pending = m.pending) (hcalls : m'.calls = m.calls)
    (hposted : m'.posted = m.posted) (hlog : m'.log = m.log)
    (hplaces : ↑(hand'.toList.map (·.serial)) + m'.waiting =
      ↑(hand.toList.map (·.serial)) + m.waiting)
    (hhand : ∀ q ∈ hand', q ∈ hand ∨ ∃ host, m.Waits host q)
    (hwaits : ∀ host q, m'.Waits host q → m.Waits host q ∨ q ∈ hand) : m'.Accounted hand' := by
  have hawaiting : m'.awaiting = m.awaiting := by rw [awaiting, awaiting, hpending]
  refine ⟨?_, ?_, ?_, ?_, fun q hq => ?_, fun host q hq => ?_, ?_, ?_⟩
  · rw [hlog, hcalls]
    exact h.calls
  · rw [hplaces, hawaiting, hlog, hcalls]
    exact h.places
  · rw [hlog, hposted]
    exact h.told
  · rw [hlog, hawaiting]
    exact h.accepted
  · rw [hlog]
    rcases hhand q hq with hq | ⟨host, hq⟩
    · exact h.hand q hq
    · exact h.waits host q hq
  · rw [hlog]
    exact (hwaits host q hq).elim (h.waits host q) (h.hand q)
  · rw [hpending, hlog]
    exact h.pends
  · rw [hlog]
    exact h.answers

theorem Accounted.enqueue (h : m.Accounted (some q)) : (m.enqueue q).Accounted none := by
  refine h.requeue rfl rfl rfl rfl ?_ (fun q hq => absurd hq (Option.not_mem_none q))
    fun host q' hq' => hq'.of_enqueue.imp_right fun ⟨heq, _⟩ => heq ▸ rfl
  rw [waiting_of_insert (m := m) rfl, m.waiting_eq q.dest.address]
  simp only [Option.toList_none, Option.toList_some, List.map_nil, List.map_append, List.map_cons,
    Multiset.coe_nil, ← Multiset.coe_add, Multiset.coe_singleton]
  abel

theorem Accounted.dequeue {rest : List Queued} (h : m.Accounted none)
    (hlookup : m.queues.lookup host = some (q :: rest)) :
    (m.dequeue host rest).Accounted (some q) := by
  refine h.requeue rfl rfl rfl rfl ?_ (fun q' hq' => ?_) fun host' q' hq' => ?_
  · rw [waiting_of_insert (m := m) rfl, m.waiting_eq host, hlookup]
    simp only [Option.toList_none, Option.toList_some, List.map_nil, List.map_cons,
      Option.getD_some, Multiset.coe_nil, ← Multiset.singleton_add, ← Multiset.cons_coe]
    abel
  · cases hq'
    exact .inr ⟨host, _, hlookup, List.mem_cons_self⟩
  · rcases hq'.of_insert (m := m) q rfl
      (fun q hq => .inl ⟨_, hlookup, List.mem_cons_of_mem _ hq⟩) with hwaits | ⟨rfl, rfl⟩
    · exact .inl hwaits
    · exact .inl ⟨_, hlookup, List.mem_cons_self⟩

theorem Accounted.rotate (h : m.Accounted hand) : (m.rotate host).Accounted hand := by
  have hsame : (m.rotate host).pending = m.pending ∧ (m.rotate host).calls = m.calls ∧
      (m.rotate host).posted = m.posted ∧ (m.rotate host).log = m.log := by
    rw [RpcManager.rotate]
    split_ifs <;> exact ⟨rfl, rfl, rfl, rfl⟩
  refine h.requeue hsame.1 hsame.2.1 hsame.2.2.1 hsame.2.2.2 ?_ (fun q hq => .inl hq)
    fun host' q hq => .inl hq.of_rotate
  rw [waiting_rotate]

/-- A query is concluded with an outcome, of which its callback is told now or later. -/
theorem Accounted.outcome {x : ℕ × RpcReply} {callback : Bool} {q : Queued} (h : m.Accounted hand)
    (hasked : (callsOf m.log)[x.1]? = some q) (hcallback : callback = q.callback)
    (hqueues : m'.queues = m.queues) (hcalls : m'.calls = m.calls)
    (hcallsOf : callsOf m'.log = callsOf m.log)
    (houtcomes : outcomesOf m'.log = outcomesOf m.log ++ [x])
    (htold : (ranOf m'.log : Multiset (ℕ × RpcReply)) + m'.posted =
      ranOf m.log + m.posted + if callback then {x} else 0)
    (hplaces : {x.1} + m'.awaiting = ↑(hand.toList.map (·.serial)) + m.awaiting)
    (haccepted : (acceptedOf m'.log : Multiset ℕ) = m'.awaiting + answered m'.log)
    (hpends : ∀ tid p, m'.pending.lookup tid = some p → ∃ q, SentAs m'.log tid p q)
    (hlog : m.log <+: m'.log)
    (hanswer : x.2.status = .Response ∨ x.2.status = .Error → Matches m'.log x.1 x.2) :
    m'.Accounted none := by
  have hwaiting : m'.waiting = m.waiting := by rw [waiting, waiting, hqueues]
  refine ⟨?_, ?_, ?_, haccepted, fun q hq => absurd hq (Option.not_mem_none q), ?_, hpends, ?_⟩
  · rw [hcallsOf, hcalls]
    exact h.calls
  · rw [hwaiting, hcalls, concluded, houtcomes, List.map_append, ← Multiset.coe_add, ← concluded,
      ← h.places]
    calc _ = m.waiting + ({x.1} + m'.awaiting) + concluded m.log := by
          simp only [Option.toList_none, List.map_nil, Multiset.coe_nil, List.map_cons,
            Multiset.coe_singleton]
          abel
      _ = _ := by
          rw [hplaces]
          abel
  · have hfilter : ∀ serial, hasCallback m'.log serial = hasCallback m.log serial := by
      intro serial
      rw [hasCallback, hasCallback, hcallsOf]
    have hx : hasCallback m.log x.1 = callback := by
      rw [hasCallback, hasked, hcallback]
      rfl
    rw [htold, h.told, houtcomes, List.filter_append, ← Multiset.coe_add]
    simp only [hfilter, List.filter_cons, hx, List.filter_nil]
    cases callback <;> rfl
  · rw [hcallsOf]
    exact fun host q hq => h.waits host q (hq.congr hqueues)
  · intro serial reply hmem hstatus
    rw [houtcomes, List.mem_append, List.mem_singleton] at hmem
    obtain ⟨outputs, houtputs⟩ := hlog
    rcases hmem with hmem | rfl
    · rw [← houtputs]
      exact (h.answers serial reply hmem hstatus).append
    · exact hanswer hstatus

/-- The outcome of the query in hand is that it was never sent. -/
theorem Accounted.reportNotSent (h : m.Accounted (some q)) :
    (m.reportNotSent q.serial q.callback q.dest now).Accounted none := by
  have hlog : (m.reportNotSent q.serial q.callback q.dest now).log =
      m.log ++ [.concluded q.serial { status := .Throttled, sender := q.dest } now] := rfl
  refine h.outcome (x := (q.serial, { status := .Throttled, sender := q.dest })) (h.hand q rfl) rfl
    rfl rfl ?_ ?_ ?_ rfl ?_ ?_ ⟨_, hlog.symm⟩ (by simp)
  · rw [hlog, callsOf_append]
    exact List.append_nil _
  · rw [hlog, outcomesOf_append]
    rfl
  · rw [hlog, ranOf_append, RpcManager.reportNotSent]
    cases q.callback
    · simp [ranOf]
    · simp only [ranOf, ↓reduceIte, List.filterMap_cons, List.filterMap_nil, List.append_nil,
        ← Multiset.coe_add, Multiset.coe_singleton, add_assoc]
  · rw [hlog, acceptedOf_append, answered, outcomesOf_append, List.filter_append]
    have := h.accepted
    simpa [outcomesOf, acceptedOf, answered, awaiting, RpcManager.reportNotSent] using this
  · rw [hlog]
    exact fun tid p hp => (h.pends tid p hp).imp fun q hq => hq.append

/-- The operating system took the datagram of the query in hand. -/
theorem Accounted.send_of_accepts (h : m.Accounted (some q))
    (hfree : m.nextTransactionId.1 ∉ m.pending)
    (haccepts : o.accepts q.serial) : (m.send o q).Accounted none := by
  obtain ⟨tail, hlog, htail⟩ : ∃ tail, (m.send o q).log = m.log ++ ([.handed q.serial
      m.nextTransactionId.1 (m.pendingFor o q).request q.dest (o.sendNow q.serial) true
      (m.charges q.dest (o.sendNow q.serial))] ++ tail) ∧ ∀ x ∈ tail, Idle x := by
    rw [RpcManager.send_of_accepts haccepts]
    refine ⟨if q.onSent then [.left q.serial] else [], rfl, ?_⟩
    cases q.onSent <;> simp [Idle]
  -- One query is handed out, and the rest of the log says nothing about queries.
  obtain ⟨hc, ho, hr, ha⟩ := of_idle htail
  have hsame : (m.send o q).queues = m.queues ∧ (m.send o q).calls = m.calls ∧
      (m.send o q).posted = m.posted ∧
      (m.send o q).pending = m.pending.insert m.nextTransactionId.1 (m.pendingFor o q) := by
    rw [RpcManager.send_of_accepts haccepts]
    exact ⟨rfl, rfl, rfl, rfl⟩
  obtain ⟨hqueues, hcalls, hposted, hpending⟩ := hsame
  have hcallsOf : callsOf (m.send o q).log = callsOf m.log := by
    rw [hlog, callsOf_append, callsOf_append, hc]
    exact List.append_nil _
  have houtcomes : outcomesOf (m.send o q).log = outcomesOf m.log := by
    rw [hlog, outcomesOf_append, outcomesOf_append, ho]
    exact List.append_nil _
  have hran : ranOf (m.send o q).log = ranOf m.log := by
    rw [hlog, ranOf_append, ranOf_append, hr]
    exact List.append_nil _
  have haccepted : acceptedOf (m.send o q).log = acceptedOf m.log ++ [q.serial] := by
    rw [hlog, acceptedOf_append, acceptedOf_append, ha]
    rfl
  have hwaiting : (m.send o q).waiting = m.waiting := by rw [waiting, waiting, hqueues]
  have hawaiting : (m.send o q).awaiting = {q.serial} + m.awaiting :=
    awaiting_of_insert hfree hpending
  refine ⟨?_, ?_, ?_, ?_, fun q hq => absurd hq (Option.not_mem_none q), ?_, fun tid p hp => ?_, ?_⟩
  · rw [hcallsOf, hcalls]
    exact h.calls
  · rw [hwaiting, hawaiting, hcalls, concluded, houtcomes, ← concluded, ← h.places]
    simp only [Option.toList_none, Option.toList_some, List.map_nil, List.map_cons,
      Multiset.coe_nil, Multiset.coe_singleton]
    abel
  · rw [hran, houtcomes, hposted]
    simp only [hasCallback, hcallsOf]
    exact h.told
  · rw [haccepted, hawaiting, answered, houtcomes, ← answered, ← Multiset.coe_add, h.accepted,
      Multiset.coe_singleton]
    abel
  · rw [hcallsOf]
    exact fun host q hq => h.waits host q (hq.congr hqueues)
  · rw [hpending] at hp
    -- The new transaction is this query's; the others were there before.
    by_cases htid : tid = m.nextTransactionId.1
    · subst htid
      rw [AList.lookup_insert, Option.some.injEq] at hp
      subst hp
      refine ⟨q, ?_, rfl, rfl, rfl, m.charges q.dest (o.sendNow q.serial), ?_⟩
      · rw [hcallsOf]
        exact h.hand q rfl
      · rw [hlog]
        exact List.mem_append_right _ (List.mem_append_left _ List.mem_cons_self)
    · rw [AList.lookup_insert_ne htid] at hp
      rw [hlog]
      exact (h.pends tid p hp).imp fun q hq => hq.append
  · rw [houtcomes, hlog]
    exact fun serial reply hmem hstatus => (h.answers serial reply hmem hstatus).append

theorem Accounted.send (h : m.Accounted (some q)) (hfree : m.nextTransactionId.1 ∉ m.pending)
    (o : Outside) : (m.send o q).Accounted none := by
  by_cases haccepts : o.accepts q.serial
  · exact h.send_of_accepts hfree haccepts
  · rw [send_of_refuses (Bool.eq_false_iff.2 haccepts) hfree]
    refine Accounted.reportNotSent (Accounted.idle h rfl rfl rfl rfl rfl ?_)
    simp [Idle]

/-- A query that awaits its reply is concluded. -/
theorem Accounted.conclude {tid : Bytes} {p : Pending} {reply : RpcReply} (h : m.Accounted none)
    (hlookup : m.pending.lookup tid = some p) (hstatus : reply.status ≠ .Throttled)
    (hmatches : reply.status = .Response ∨ reply.status = .Error →
      reply.sender = p.dest ∧ reply.message.transactionId = tid ∧ reply.request = p.request) :
    ({ m with pending := m.pending.erase tid }.conclude p.serial p.callback reply now).Accounted
    none := by
  obtain ⟨q, hsent⟩ := h.pends tid p hlookup
  obtain ⟨charged, hhanded⟩ := hsent.handed
  have hcallback := hsent.callback
  have hlog : ({ m with pending := m.pending.erase tid }.conclude p.serial p.callback reply
      now).log = m.log ++ .concluded p.serial reply now :: if p.callback then
      [.ran p.serial reply] else [] := rfl
  have hawaiting : m.awaiting = {p.serial} + awaiting
      ({ m with pending := m.pending.erase tid }.conclude p.serial p.callback reply now) :=
    awaiting_of_lookup hlookup rfl
  have houtcomes : outcomesOf ({ m with pending := m.pending.erase tid }.conclude
      p.serial p.callback reply now).log = outcomesOf m.log ++ [(p.serial, reply)] := by
    rw [hlog, outcomesOf_append]
    cases p.callback <;> rfl
  -- The transaction leaves the pending ones as its outcome joins the log.
  refine h.outcome (x := (p.serial, reply)) hsent.asked hcallback rfl rfl ?_ houtcomes ?_ ?_ ?_ ?_
    ⟨_, hlog.symm⟩ ?_
  · rw [hlog, callsOf_append]
    cases p.callback <;> exact List.append_nil _
  · rw [hlog, ranOf_append, RpcManager.conclude]
    cases p.callback
    · simp [ranOf, note]
    · simp only [ranOf, note, ↓reduceIte, List.filterMap_cons, List.filterMap_nil,
        ← Multiset.coe_add, Multiset.coe_singleton]
      abel
  · rw [hawaiting]
    simp
  · have hnone : acceptedOf ({ m with pending := m.pending.erase tid }.conclude
        p.serial p.callback reply now).log = acceptedOf m.log := by
      rw [hlog, acceptedOf_append]
      cases p.callback <;> exact List.append_nil _
    rw [hnone, h.accepted, answered, answered, houtcomes, List.filter_append, hawaiting,
      List.map_append, ← Multiset.coe_add]
    simp only [ne_eq, hstatus, not_false_eq_true, decide_true, List.filter_cons_of_pos,
      List.filter_nil, List.map_cons, List.map_nil, Multiset.coe_singleton]
    abel
  · intro tid' p' hp'
    -- No other transaction is touched.
    have hne : tid' ≠ tid := by
      rintro rfl
      have hnone : (m.pending.erase tid').lookup tid' = some p' := hp'
      rw [AList.lookup_erase] at hnone
      cases hnone
    have hlookup' : m.pending.lookup tid' = some p' := by
      rw [← AList.lookup_erase_ne hne]
      exact hp'
    rw [hlog]
    exact (h.pends tid' p' hlookup').imp fun q hq => hq.append
  · intro hanswer
    obtain ⟨hsender, htid, hrequest⟩ := hmatches hanswer
    rw [hlog]
    refine Matches.append ⟨q, p.sentAt, charged, hsent.asked, hsender.trans hsent.dest, ?_⟩
    rw [htid, hrequest, ← hsent.dest]
    exact hhanded

/-! ## Whole calls -/

theorem send_maxPending : (m.send o q).maxPending = m.maxPending := by
  rw [send]
  dsimp only
  split <;> rfl

theorem rotate_maxPending : (m.rotate host).maxPending = m.maxPending := by
  rw [rotate]
  split_ifs <;> rfl

theorem query_maxPending (m : RpcManager) (o : Outside) (q : Queued) :
    (m.query o q).maxPending = m.maxPending := by
  obtain ⟨budget, limiter, hc⟩ := (m.call q).consider_fst q.dest o.now
  have hconsidering : (m.considering o q).maxPending = m.maxPending := by
    rw [considering, hc]
    rfl
  apply query_cases (P := fun m' => m'.maxPending = m.maxPending)
  case sent => exact fun _ _ => send_maxPending.trans hconsidering
  case full => exact fun _ _ _ => hconsidering
  case first => exact fun _ _ _ => hconsidering
  case refused => exact fun _ _ => rfl
  case queued => exact fun _ _ _ _ => rfl

theorem turn_maxPending : (m.turn o host).1.maxPending = m.maxPending := by
  apply turn_cases (P := fun r => r.1.maxPending = m.maxPending)
  case gone => exact fun _ => rfl
  case empty => exact fun _ => rotate_maxPending
  case unaffordable => exact fun _ _ _ _ => rotate_maxPending
  case limited => exact fun _ _ _ _ _ => rotate_maxPending
  case sent => exact fun _ _ _ _ _ => rotate_maxPending.trans send_maxPending

theorem drain_maxPending (m : RpcManager) (o : Outside) :
    (m.drain o).maxPending = m.maxPending := by
  have hloop : (drainLoop o m.order.length m false).1.maxPending = m.maxPending :=
    drainLoop_induction (P := fun m' => m'.maxPending = m.maxPending) (fun _ _ h => h)
      (fun _ _ _ _ _ h => turn_maxPending.trans h) rfl
  rw [drain]
  dsimp only
  split_ifs <;> exact hloop

/-- The cap on pending queries stays, unless it is set to another within its bounds. -/
theorem apply_maxPending (m : RpcManager) (e : Event) : (m.apply e).maxPending = m.maxPending ∨
    ∃ n : ℤ, (m.apply e).maxPending = (max 1 (min n 65536)).toNat := by
  cases e with
  | query o q => exact .inl (query_maxPending m o q)
  | drain o => exact .inl (drain_maxPending m o)
  | setMaxPending maxPending => exact .inr ⟨maxPending, rfl⟩
  | reply now message datagram sender =>
    refine .inl ?_
    rw [RpcManager.apply, handleReply]
    split
    · rfl
    · split <;> rfl
  | expire now tids =>
    refine .inl ?_
    rw [RpcManager.apply, expire]
    dsimp only
    split_ifs <;> rfl
  | resume =>
    refine .inl ?_
    rw [RpcManager.apply, resume]
    split
    · rfl
    · rfl
    · dsimp only
      split <;> rfl
  | deliver =>
    refine .inl ?_
    rw [RpcManager.apply, deliver]
    split <;> rfl
  | setHostLimit | setReadOnly | setBudget | cancelAll => exact .inl rfl

/-- While a query may be sent, there is an id for it. -/
theorem free_of_canSendNow (hmax : m.maxPending ≤ 65536) (hcan : m.canSendNow) :
    m.nextTransactionId.1 ∉ m.pending := by
  refine nextTransactionId_notMem ?_
  have : m.pending.entries.length < m.maxPending := by simpa [canSendNow] using hcan
  omega

/-- All queries are accounted for, between calls. -/
structure Sound (m : RpcManager) : Prop where
  accounted : m.Accounted none
  maxPending_le : m.maxPending ≤ 65536

theorem Sound.query (h : m.Sound) (o : Outside) (q : Queued) : (m.query o q).Sound := by
  obtain ⟨haccounted, hmax⟩ := h
  obtain ⟨budget, limiter, hc⟩ := (m.call q).consider_fst q.dest o.now
  have hcall := haccounted.call q
  have hconsidering : (m.considering o q).Accounted (some { q with serial := m.calls }) := by
    rw [considering, hc]
    exact hcall.idle rfl rfl rfl rfl rfl (by simp [Idle])
  have hmax' : (m.considering o q).maxPending ≤ 65536 := by
    rw [considering, hc]
    exact hmax
  apply query_cases (P := Sound)
  case sent =>
    intro _ hsent
    -- It is sent only below the cap on pending ones, so that an identifier is free.
    have hcan : (m.considering o q).canSendNow := by
      rw [considering, hc]
      exact (consider_sent.1 hsent).2.1
    exact ⟨hconsidering.send (free_of_canSendNow hmax' hcan) o, send_maxPending.trans_le hmax'⟩
  case full =>
    refine fun _ _ _ => ⟨Accounted.reportNotSent ?_, hmax'⟩
    exact hconsidering.congr rfl rfl rfl rfl rfl
  case first =>
    refine fun _ _ _ => ⟨Accounted.enqueue ?_, hmax'⟩
    exact hconsidering.congr rfl rfl rfl rfl rfl
  case refused =>
    refine fun _ _ => ⟨Accounted.reportNotSent ?_, hmax⟩
    exact hcall.congr rfl rfl rfl rfl rfl
  case queued => exact fun _ _ _ _ => ⟨hcall.enqueue, hmax⟩

theorem Sound.turn (h : m.Sound) (hcan : m.canSendNow) : (m.turn o host).1.Sound := by
  obtain ⟨haccounted, hmax⟩ := h
  apply turn_cases (P := fun r => r.1.Sound)
  case gone => exact fun _ => ⟨haccounted, hmax⟩
  case empty => exact fun _ => ⟨haccounted.rotate, rotate_maxPending.trans_le hmax⟩
  case unaffordable =>
    refine fun q rest _ _ => ⟨Accounted.rotate ?_, rotate_maxPending.trans_le hmax⟩
    exact haccounted.idle rfl rfl rfl rfl rfl (by simp [Idle])
  case limited =>
    refine fun q rest _ _ _ => ⟨Accounted.rotate ?_, rotate_maxPending.trans_le hmax⟩
    exact haccounted.idle rfl rfl rfl rfl rfl (by simp [Idle])
  case sent =>
    intro q rest hq _ _
    have hserved : (m.served o host q rest).Accounted (some q) :=
      (haccounted.dequeue hq).idle rfl rfl rfl rfl rfl (by simp [Idle])
    exact ⟨(hserved.send (free_of_canSendNow hmax hcan) o).rotate,
      rotate_maxPending.trans_le (send_maxPending.trans_le hmax)⟩

theorem Sound.drain (h : m.Sound) (o : Outside) : (m.drain o).Sound := by
  have hloop : (drainLoop o m.order.length m false).1.Sound := by
    refine drainLoop_induction (P := Sound)
      (fun m hosts h => ⟨h.1.idle rfl rfl rfl rfl rfl (by simp [Idle]), h.2⟩)
      (fun m host order _ hcan h => Sound.turn (m := { m with order }) ⟨?_, h.2⟩ hcan) h
    exact h.1.congr rfl rfl rfl rfl rfl
  rw [RpcManager.drain]
  dsimp only
  split_ifs <;> exact ⟨hloop.1.congr rfl rfl rfl rfl rfl, hloop.2⟩

theorem Sound.handleReply (h : m.Sound) {now : ℤ} {message : Krpc.Message} {datagram : Bytes}
    {sender : Endpoint} : (m.handleReply now message datagram sender).1.Sound := by
  rw [RpcManager.handleReply]
  split
  next => exact h
  next p hlookup =>
    split
    next => exact h
    next hsender =>
      refine ⟨h.1.conclude hlookup ?_ fun _ => ⟨(not_ne_iff.1 hsender).symm, rfl, rfl⟩, h.2⟩
      dsimp only
      split_ifs <;> simp

theorem Sound.resume (h : m.Sound) : m.resume.Sound := by
  rw [RpcManager.resume]
  split
  next => exact h
  next => exact ⟨h.1.congr rfl rfl rfl rfl rfl, h.2⟩
  next now tid tids frames _ =>
    dsimp only
    split
    next => exact ⟨h.1.congr rfl rfl rfl rfl rfl, h.2⟩
    next p hlookup =>
      refine ⟨Accounted.conclude (m := { m with expiring := (now, tids) :: frames }) ?_ hlookup
        (by simp) (by simp), h.2⟩
      exact h.1.congr rfl rfl rfl rfl rfl

theorem Sound.deliver (h : m.Sound) : m.deliver.Sound := by
  rw [RpcManager.deliver]
  split
  next => exact h
  next serial reply posted hposted =>
    set m' := note { m with posted := posted } [.ran serial reply]
    have hcallsOf : callsOf m'.log = callsOf m.log := callsOf_append.trans (List.append_nil _)
    have houtcomes : outcomesOf m'.log = outcomesOf m.log :=
      outcomesOf_append.trans (List.append_nil _)
    have haccepted : acceptedOf m'.log = acceptedOf m.log :=
      acceptedOf_append.trans (List.append_nil _)
    have hran : ranOf m'.log = ranOf m.log ++ [(serial, reply)] := ranOf_append
    refine ⟨⟨?_, ?_, ?_, ?_, fun q hq => absurd hq (Option.not_mem_none q), ?_,
      fun tid p hp => (h.1.pends tid p hp).imp fun q hq => hq.append, ?_⟩, h.2⟩
    · rw [hcallsOf]
      exact h.1.calls
    · rw [concluded, houtcomes]
      exact h.1.places
    · -- What was posted first has run.
      rw [hran, houtcomes, ← Multiset.coe_add]
      simp only [hasCallback, hcallsOf]
      refine Eq.trans ?_ h.1.told
      rw [hposted, Multiset.coe_singleton, ← Multiset.cons_coe, ← Multiset.singleton_add, add_assoc]
      rfl
    · rw [haccepted, answered, houtcomes]
      exact h.1.accepted
    · rw [hcallsOf]
      exact h.1.waits
    · rw [houtcomes]
      exact fun serial reply hmem hstatus => (h.1.answers serial reply hmem hstatus).append

/-- An event that leaves no query to itself. -/
def Event.KeepsQueries : Event → Prop
  | .cancelAll => False
  | _ => True

theorem Sound.apply (h : m.Sound) {e : Event} (hkeeps : e.KeepsQueries) : (m.apply e).Sound := by
  cases e with
  | query o q => exact h.query o q
  | drain o => exact h.drain o
  | reply now message datagram sender => exact h.handleReply
  | expire now tids =>
    simp only [RpcManager.apply, RpcManager.expire]
    split_ifs <;> exact ⟨h.1.congr rfl rfl rfl rfl rfl, h.2⟩
  | resume => exact h.resume
  | deliver => exact h.deliver
  | setMaxPending maxPending =>
    refine ⟨h.1.congr rfl rfl rfl rfl rfl, ?_⟩
    simp only [RpcManager.apply, RpcManager.setMaxPending]
    omega
  | setHostLimit _ | setReadOnly _ | setBudget _ => exact ⟨h.1.congr rfl rfl rfl rfl rfl, h.2⟩
  | cancelAll => exact hkeeps.elim

/-! ## What an event adds -/

/-- Something was done beyond what had been, and nothing else. -/
def Adds (P : Output → Prop) (log log' : List Output) : Prop :=
  ∃ outputs, log' = log ++ outputs ∧ ∀ x ∈ outputs, P x

/-- What sending does: no query is concluded but as never sent, and no callback runs. -/
def Sends : Output → Prop
  | .considered .. | .handed .. | .left _ => True
  | .concluded _ reply _ => reply.status = .Throttled
  | _ => False

/-- A query is concluded, and its callback told. -/
def Concludes (P : RpcReply → Prop) : Output → Prop
  | .concluded _ reply _ | .ran _ reply => P reply
  | _ => False

/-- What an event may do. -/
def MayDo : Event → Output → Prop
  | .query _ _, x => Sends x ∨ ∃ q, x = .called q
  | .drain _, x => Sends x
  | .reply _ message _ sender, x => Concludes
      (fun reply => reply.status ≠ .Timeout ∧ reply.message = message ∧ reply.sender = sender) x
  | .resume, x => Concludes (fun reply => reply.status = .Timeout) x
  | .deliver, x => ∃ serial reply, x = .ran serial reply
  | _, _ => False

variable {P Q : Output → Prop} {log' log'' : List Output}

theorem adds_refl : Adds P log log := ⟨[], (List.append_nil _).symm, by simp⟩

theorem adds_append (h : ∀ x ∈ outputs, P x) : Adds P log (log ++ outputs) := ⟨outputs, rfl, h⟩

theorem Adds.trans (h : Adds P log log') (h' : Adds P log' log'') : Adds P log log'' := by
  obtain ⟨outputs, rfl, houtputs⟩ := h
  obtain ⟨outputs', rfl, houtputs'⟩ := h'
  refine ⟨outputs ++ outputs', List.append_assoc .., fun x hx => ?_⟩
  exact (List.mem_append.1 hx).elim (houtputs x) (houtputs' x)

theorem Adds.imp (h : Adds P log log') (himp : ∀ x, P x → Q x) : Adds Q log log' := by
  obtain ⟨outputs, rfl, houtputs⟩ := h
  exact ⟨outputs, rfl, fun x hx => himp x (houtputs x hx)⟩

theorem adds_send : Adds Sends m.log (m.send o q).log := by
  rw [send]
  dsimp only
  split
  · refine adds_append ?_
    cases q.onSent <;> simp [Sends]
  · exact (adds_append (by simp [Sends])).trans (adds_append (by simp [Sends]))

theorem rotate_log : (m.rotate host).log = m.log := by
  rw [rotate]
  split_ifs <;> rfl

theorem adds_query (m : RpcManager) (o : Outside) (q : Queued) :
    Adds (MayDo (.query o q)) m.log (m.query o q).log := by
  obtain ⟨budget, limiter, hc⟩ := (m.call q).consider_fst q.dest o.now
  have hcall : Adds (MayDo (.query o q)) m.log (m.call q).log := adds_append (by simp [MayDo])
  have hconsidering : Adds (MayDo (.query o q)) m.log (m.considering o q).log := by
    rw [considering, hc]
    exact hcall.trans (adds_append (by simp [MayDo, Sends]))
  apply query_cases (P := fun m' => Adds (MayDo (.query o q)) m.log m'.log)
  case sent => exact fun _ _ => hconsidering.trans (adds_send.imp fun x hx => .inl hx)
  case full => exact fun _ _ _ => hconsidering.trans (adds_append (by simp [MayDo, Sends]))
  case first => exact fun _ _ _ => hconsidering
  case refused => exact fun _ _ => hcall.trans (adds_append (by simp [MayDo, Sends]))
  case queued => exact fun _ _ _ _ => hcall

theorem adds_turn (m : RpcManager) (o : Outside) (host : HostAddress) :
    Adds Sends m.log (m.turn o host).1.log := by
  apply turn_cases (P := fun r => Adds Sends m.log r.1.log)
  case gone => exact fun _ => adds_refl
  case empty => exact fun _ => rotate_log ▸ adds_refl
  case unaffordable =>
    intro _ _ _ _
    rw [rotate_log]
    exact adds_append (by simp [Sends])
  case limited =>
    intro _ _ _ _ _
    rw [rotate_log]
    exact adds_append (by simp [Sends])
  case sent =>
    intro q rest _ _ _
    rw [rotate_log]
    exact (adds_append (by simp [Sends])).trans adds_send

theorem adds_drain (m : RpcManager) (o : Outside) : Adds Sends m.log (m.drain o).log := by
  have hloop : Adds Sends m.log (drainLoop o m.order.length m false).1.log := by
    refine drainLoop_induction (P := fun m' => Adds Sends m.log m'.log)
      (fun m' hosts h => h.trans (adds_append (by simp [Sends])))
      (fun m' host order _ _ h => h.trans ?_) adds_refl
    exact adds_turn { m' with order } o host
  rw [RpcManager.drain]
  dsimp only
  split_ifs <;> exact hloop

theorem adds_conclude {serial : ℕ} {callback : Bool} {reply : RpcReply} {P : RpcReply → Prop}
    (h : P reply) : Adds (Concludes P) m.log (m.conclude serial callback reply now).log := by
  refine adds_append ?_
  cases callback <;> simp [Concludes, h]

/-- An event does what it may do. -/
theorem adds_apply (m : RpcManager) (e : Event) : Adds (MayDo e) m.log (m.apply e).log := by
  cases e with
  | query o q => exact adds_query m o q
  | drain o => exact adds_drain m o
  | reply now message datagram sender =>
    simp only [RpcManager.apply, RpcManager.handleReply]
    split
    · exact adds_refl
    · split
      · exact adds_refl
      · refine adds_conclude (m := { m with pending := _ }) ?_
        dsimp only
        split_ifs <;> simp
  | resume =>
    simp only [RpcManager.apply, RpcManager.resume]
    split
    · exact adds_refl
    · exact adds_refl
    · split
      · exact adds_refl
      · refine adds_conclude (m := { m with pending := _, expiring := _ }) ?_
        rfl
  | deliver =>
    simp only [RpcManager.apply, RpcManager.deliver]
    split
    · exact adds_refl
    · exact adds_append (by simp [MayDo])
  | expire now tids =>
    simp only [RpcManager.apply, RpcManager.expire]
    split_ifs <;> exact adds_refl
  | setHostLimit _ | setMaxPending _ | setReadOnly _ | setBudget _ | cancelAll => exact adds_refl

/-! ## Runs -/

/-- What becomes of queries, but for the time at which they time out. -/
structure ExactlyOnce (m : RpcManager) : Prop where
  /-- Every query made is in one place, and in it once. -/
  places : m.waiting + m.awaiting + concluded m.log = Multiset.range m.calls
  /-- The callbacks told of an outcome, and those to be told, are the callbacks of
      the queries concluded. -/
  told : (ranOf m.log : Multiset (ℕ × RpcReply)) + m.posted =
    ↑((outcomesOf m.log).filter fun x => hasCallback m.log x.1)
  /-- No callback runs twice. -/
  ran_nodup : ((ranOf m.log).map (·.1)).Nodup
  /-- A response is from the endpoint queried, under the id sent. -/
  answers : ∀ serial reply, (serial, reply) ∈ outcomesOf m.log →
    reply.status = .Response ∨ reply.status = .Error → Matches m.log serial reply
  /-- What is reported as never sent was not sent. -/
  unsent : ∀ serial reply, (serial, reply) ∈ outcomesOf m.log → reply.status = .Throttled →
    serial ∉ acceptedOf m.log
  /-- Only a message concludes a query with a response. -/
  by_message : ∀ e serial reply, (serial, reply) ∈ outcomesOf (m.apply e).log →
    (serial, reply) ∉ outcomesOf m.log → reply.status = .Response ∨ reply.status = .Error →
      ∃ now datagram, e = .reply now reply.message datagram reply.sender
  /-- No callback runs within a call of `query`. -/
  query_runs_none : ∀ o q, ranOf (m.query o q).log = ranOf m.log
  /-- A message under an unknown id, or from another endpoint, changes nothing. -/
  unmatched : ∀ now message datagram sender,
    (∀ p, m.pending.lookup message.transactionId = some p → p.dest ≠ sender) →
      m.handleReply now message datagram sender = (m, false)

theorem mem_outcomesOf {serial : ℕ} {reply : RpcReply} :
    (serial, reply) ∈ outcomesOf log ↔ ∃ now, .concluded serial reply now ∈ log := by
  rw [outcomesOf, List.mem_filterMap]
  constructor
  · rintro ⟨x, hx, hsome⟩
    cases x <;> simp at hsome
    obtain ⟨rfl, rfl⟩ := hsome
    exact ⟨_, hx⟩
  · rintro ⟨now, hmem⟩
    exact ⟨_, hmem, rfl⟩

/-- No query is concluded twice, nor awaits its reply still. -/
theorem Sound.nodup (h : m.Sound) : ((outcomesOf m.log).map (·.1)).Nodup ∧
    Disjoint m.awaiting (concluded m.log) := by
  have hnodup : (m.waiting + m.awaiting + concluded m.log).Nodup := by
    have := h.accounted.places
    simp only [Option.toList_none, List.map_nil, Multiset.coe_nil, zero_add] at this
    rw [this]
    exact Multiset.nodup_range _
  obtain ⟨-, hconcluded, hdisjoint⟩ := Multiset.nodup_add.1 hnodup
  exact ⟨Multiset.coe_nodup.1 hconcluded,
    hdisjoint.mono_left (Multiset.le_add_left _ _)⟩

/-- A query has one outcome. -/
theorem Sound.outcome_unique (h : m.Sound) {serial : ℕ} {reply reply' : RpcReply}
    (hmem : (serial, reply) ∈ outcomesOf m.log) (hmem' : (serial, reply') ∈ outcomesOf m.log) :
    reply = reply' := by
  have := List.inj_on_of_nodup_map h.nodup.1 hmem hmem' rfl
  exact congrArg Prod.snd this

/-- The operating system took no datagram of a query reported as never sent. -/
theorem Sound.unsent (h : m.Sound) {serial : ℕ} {reply : RpcReply}
    (hmem : (serial, reply) ∈ outcomesOf m.log) (hstatus : reply.status = .Throttled) :
    serial ∉ acceptedOf m.log := by
  intro haccepted
  rw [← Multiset.mem_coe, h.accounted.accepted, Multiset.mem_add] at haccepted
  rcases haccepted with hawaiting | hanswered
  · exact Multiset.disjoint_left.1 h.nodup.2 hawaiting
      (Multiset.mem_coe.2 (List.mem_map_of_mem hmem))
  · rw [answered, Multiset.mem_coe, List.mem_map] at hanswered
    obtain ⟨⟨_, reply'⟩, hfilter, rfl⟩ := hanswered
    obtain ⟨hmem', hstatus'⟩ := List.mem_filter.1 hfilter
    rw [← h.outcome_unique hmem hmem', hstatus] at hstatus'
    simp at hstatus'

/-- The operating system took datagrams only of queries that were made. -/
theorem Sound.accepted_lt (h : m.Sound) {serial : ℕ} (hmem : serial ∈ acceptedOf m.log) :
    serial < m.calls := by
  have hplaces := h.accounted.places
  rw [← Multiset.mem_range, ← hplaces]
  rw [← Multiset.mem_coe, h.accounted.accepted] at hmem
  have hle : answered m.log ≤ concluded m.log :=
    Multiset.coe_le.2 (List.filter_sublist.map _).subperm
  rcases Multiset.mem_add.1 hmem with hawaiting | hanswered
  · exact Multiset.mem_add.2 (.inl (Multiset.mem_add.2 (.inr hawaiting)))
  · exact Multiset.mem_add.2 (.inr (Multiset.mem_of_le hle hanswered))

theorem Sound.ran_nodup (h : m.Sound) : ((ranOf m.log).map (·.1)).Nodup := by
  have hle : (ranOf m.log : Multiset (ℕ × RpcReply)) ≤ outcomesOf m.log := by
    refine (Multiset.le_add_right _ _).trans (h.accounted.told.trans_le ?_)
    exact Multiset.coe_le.2 List.filter_sublist.subperm
  have := Multiset.nodup_of_le (Multiset.map_le_map hle (f := Prod.fst))
      (Multiset.coe_nodup.2 h.nodup.1)
  exact Multiset.coe_nodup.1 this

theorem Sound.exactlyOnce (h : m.Sound) : m.ExactlyOnce := by
  have hplaces := h.accounted.places
  simp only [Option.toList_none, List.map_nil, Multiset.coe_nil, zero_add] at hplaces
  refine ⟨hplaces, h.accounted.told, h.ran_nodup, h.accounted.answers,
    fun serial reply => h.unsent, fun e serial reply hmem hnew hstatus => ?_, fun o q => ?_,
    fun now message datagram sender hnone => ?_⟩
  · obtain ⟨now, hconcluded⟩ := mem_outcomesOf.1 hmem
    obtain ⟨outputs, hlog, hmay⟩ := adds_apply m e
    rw [hlog, List.mem_append] at hconcluded
    -- An outcome that is new was added by this event.
    have := hmay _ (hconcluded.resolve_left fun hold => hnew (mem_outcomesOf.2 ⟨now, hold⟩))
    cases e with
    | reply now message datagram sender =>
      obtain ⟨-, rfl, rfl⟩ := this
      exact ⟨now, datagram, rfl⟩
    | _ => simp_all [MayDo, Sends, Concludes]
  · obtain ⟨outputs, hlog, hmay⟩ := adds_query m o q
    have hnone : ranOf outputs = [] := List.filterMap_eq_nil_iff.2 fun x hx => by
      have := hmay x hx
      cases x <;> simp_all [MayDo, Sends]
    rw [hlog, ranOf_append, hnone, List.append_nil]
  · rw [RpcManager.handleReply]
    split
    next => rfl
    next p hp => rw [if_pos (hnone p hp)]

theorem sound_new (nextId : UInt16) : (new nextId).Sound :=
  ⟨⟨rfl, rfl, rfl, rfl, by simp, fun host q ⟨queue, hlookup, _⟩ => by simp [new] at hlookup,
    fun tid p hp => by simp [new] at hp, by simp [new, outcomesOf]⟩, by simp [new]⟩

theorem sound_run : ∀ {events : List Event} {m : RpcManager}, m.Sound →
    (∀ e ∈ events, e.KeepsQueries) → (m.run events).Sound
  | [], _, h, _ => h
  | e :: _, m, h, hkeeps =>
    sound_run (m := m.apply e) (h.apply (hkeeps e List.mem_cons_self))
      fun e' he' => hkeeps e' (List.mem_cons_of_mem _ he')

end RpcManager

end Dht
