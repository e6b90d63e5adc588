import DhtCore.Krpc
import DhtCore.Support
import Mathlib.Data.List.AList

/-!
# The RPC manager

Outstanding KRPC transactions: ids, matching, timeouts, and the per-host send
limit. A query is sent at once if its host has allowance, and otherwise waits
in the queue of its host; `drain` sends what waits, host by host.

* A call gets what is outside the manager from an `Outside`: the clock, and
  whether the operating system takes a datagram.
* Callbacks may call back into the manager. `query`, `drain` and the sending
  they do run none, and `handleReply` runs one as the last thing it does. But
  `expire` runs callbacks one after another, so that anything may happen between
  its steps (`resume`); what it has still to conclude is in `expiring`. Callbacks
  posted to the event loop are in `posted`, until they run (`deliver`).
* The manager's `budget` is shared with others: it may be changed from outside
  (`Event.setBudget`).

Queries are numbered by their calls of `query`, which the program does not do;
nor does it keep the `log` of what was done.
-/

namespace Dht

/-- How a query ended (`RpcReply::Status`). -/
inductive RpcStatus
  | Response
  | Error
  | Timeout
  /-- Never sent. -/
  | Throttled
  deriving DecidableEq, Repr

/-- What a callback is told. -/
structure RpcReply where
  status : RpcStatus := .Timeout
  message : Krpc.Message := {}
  /-- The bytes the message was parsed from. -/
  datagram : Bytes := []
  /-- The bytes we sent. -/
  request : Bytes := []
  sender : Endpoint := default
  rttMs : ℤ := -1

/-- How hard we may lean on any one host. -/
structure HostLimit where
  ratePerSecond : ℚ := 2
  burst : ℚ := 2
  /-- Per host; beyond this a query is refused. -/
  maxQueued : ℤ := 64
  deriving DecidableEq

/-- A query, and the number of its call. -/
structure Queued where
  serial : ℕ
  dest : Endpoint
  method : Bytes := []
  arguments : BValue.Dict := []
  version : Bytes := []
  /-- Whether there is a callback. -/
  callback : Bool := true
  timeoutMs : ℤ := 3000
  /-- Whether there is a function to call when the query goes out. -/
  onSent : Bool := false

/-- A query that awaits its reply. -/
structure Pending where
  serial : ℕ
  dest : Endpoint
  request : Bytes
  sentAt : ℤ
  deadline : ℤ
  callback : Bool

/-- What became of a query, or of the first one waiting for a host, when it was
    considered for sending. -/
inductive Verdict
  | sent
  /-- Other hosts are waiting for the budget. -/
  | behind
  /-- Too many queries await replies. -/
  | capped
  | unaffordable
  /-- The host has no allowance. -/
  | limited
  deriving DecidableEq, Repr

/-- What the manager did. -/
inductive Output
  /-- `query` was called. -/
  | called (q : Queued)
  /-- A datagram was handed to the operating system. -/
  | handed (serial : ℕ) (tid datagram : Bytes) (dest : Endpoint) (sentAt : ℤ)
    (accepted charged : Bool)
  /-- The query went out, as its caller was told. -/
  | left (serial : ℕ)
  /-- The manager is done with a query. -/
  | concluded (serial : ℕ) (reply : RpcReply) (now : ℤ)
  /-- The callback of a query ran. -/
  | ran (serial : ℕ) (reply : RpcReply)
  /-- A host was considered. -/
  | considered (host : HostAddress) (verdict : Verdict)

/-- What a call gets from outside: the time at which it is made, the time at
    which it sends a query, and whether the operating system takes the datagram. -/
structure Outside where
  now : ℤ
  sendNow : ℕ → ℤ := fun _ => now
  accepts : ℕ → Bool := fun _ => true

/-- The RPC manager. -/
structure RpcManager where
  pending : AList (fun _ : Bytes => Pending) := ∅
  queues : AList (fun _ : HostAddress => List Queued) := ∅
  /-- Hosts with waiting queries, served in turn. -/
  order : List HostAddress := []
  budget : Option ContactBudget := none
  /-- Hosts are waiting on the budget. -/
  budgetExhausted : Bool := false
  hostLimit : HostLimit := {}
  limiter : RateLimiter := { rate := 2, burst := 2 }
  /-- Whether the drain timer is running. -/
  draining : Bool := false
  lastPrune : ℤ := 0
  queuedTotal : ℤ := 0
  delayed : ℕ := 0
  refused : ℕ := 0
  sendFailures : ℕ := 0
  maxPending : ℕ := 60000
  nextId : UInt16
  readOnly : Bool := false
  calls : ℕ := 0
  posted : List (ℕ × RpcReply) := []
  /-- What the calls of `expire` under way have still to conclude, the innermost
      first, and the times they were made at. -/
  expiring : List (ℤ × List Bytes) := []
  log : List Output := []

namespace RpcManager

/-- How many queries may wait in all. -/
def MaxQueuedTotal : ℤ := 20000

/-- The time between prunings of what no longer limits, in milliseconds. -/
def PruneIntervalMs : ℤ := 5000

/-- A new manager, whose transaction ids start at a random one. -/
def new (nextId : UInt16) : RpcManager := { nextId }

variable (m : RpcManager)

/-- The manager after something more was done. -/
def note (outputs : List Output) : RpcManager := { m with log := m.log ++ outputs }

/-- Sets how many queries a host is sent, and forgets what it was sent by now. -/
def setHostLimit (limit : HostLimit) : RpcManager :=
  { m with hostLimit := limit, limiter := { rate := limit.ratePerSecond, burst := limit.burst } }

/-- Sets how many queries may be pending, no more than there are transaction ids. -/
def setMaxPending (maxPending : ℤ) : RpcManager :=
  { m with maxPending := (max 1 (min maxPending 65536)).toNat }

/-! ## Transaction ids -/

/-- The two bytes of an id. -/
def tidOf (n : UInt16) : Bytes := [UInt8.ofNat (n.toNat / 256), UInt8.ofNat (n.toNat % 256)]

/-- The loop of `nextTransactionId`: the first id not pending from `n` on, and the
    number after it. -/
def nextIdLoop : ℕ → UInt16 → Option (Bytes × UInt16)
  | 0, _ => none
  | fuel + 1, n => if tidOf n ∈ m.pending then nextIdLoop fuel (n + 1) else some (tidOf n, n + 1)

/-- An id that is not pending, and the number to go on from. All ids are tried; if
    none were free, there would be no end to it. -/
def nextTransactionId : Bytes × UInt16 :=
  (m.nextIdLoop 65536 m.nextId).getD (tidOf m.nextId, m.nextId)

/-! ## Sending -/

/-- Whether one more query may be pending. -/
def canSendNow : Bool := m.pending.entries.length < m.maxPending

/-- Whether a query to an endpoint is within the budget. -/
def affordable (dest : Endpoint) (now : ℤ) : RpcManager × Bool :=
  ({ m with budget := m.budget.map fun b => (b.allows dest now).1 },
    m.budget.all fun b => (b.allows dest now).2)

/-- Whether the host has allowance left, of which it takes. -/
def allow (host : HostAddress) (now : ℤ) : RpcManager × Bool :=
  ({ m with limiter := (m.limiter.allow host now).1 }, (m.limiter.allow host now).2)

/-- Has a query concluded as never sent; its callback is told later. -/
def reportNotSent (serial : ℕ) (callback : Bool) (dest : Endpoint) (now : ℤ) : RpcManager :=
  let reply : RpcReply := { status := .Throttled, sender := dest }
  { m with
    posted := if callback then m.posted ++ [(serial, reply)] else m.posted
    log := m.log ++ [.concluded serial reply now] }

/-- Whether sending to an endpoint is charged to the budget. -/
def charges (dest : Endpoint) (now : ℤ) : Bool := m.budget.any fun b =>
    b.isLimited && !b.isLive dest now

/-- Hands a query to the operating system. -/
def send (o : Outside) (q : Queued) : RpcManager :=
  let (tid, nextId) := m.nextTransactionId
  let now := o.sendNow q.serial
  let datagram := Krpc.encodeQuery tid q.method q.arguments q.version m.readOnly
  let pending := m.pending.insert tid
    { serial := q.serial, dest := q.dest, request := datagram, sentAt := now,
      deadline := now + q.timeoutMs, callback := q.callback }
  if o.accepts q.serial then
    { m with
      nextId
      pending
      budget := m.budget.map (·.record q.dest now)
      log := m.log ++ .handed q.serial tid datagram q.dest now true (m.charges q.dest now) ::
        if q.onSent then [.left q.serial] else [] }
  else
    -- Never left the machine.
    reportNotSent
      { m with
        nextId
        sendFailures := m.sendFailures + 1
        pending := pending.erase tid
        log := m.log ++ [.handed q.serial tid datagram q.dest now false false] }
      q.serial q.callback q.dest now

/-- Refuses a query. -/
def refuse (q : Queued) (now : ℤ) : RpcManager :=
  { m with refused := m.refused + 1 }.reportNotSent q.serial q.callback q.dest now

/-- Considers a query to a host with no queue. -/
def consider (dest : Endpoint) (now : ℤ) : RpcManager × Verdict :=
  if m.budgetExhausted then (m, .behind)
  else if !m.canSendNow then (m, .capped)
  else
    let (m, ok) := m.affordable dest now
    if !ok then (m, .unaffordable)
    else
      let (m, ok) := m.allow dest.address now
      (m, if ok then .sent else .limited)

/-- Adds a query to the queue of its host. -/
def enqueue (q : Queued) : RpcManager :=
  { m with
    queues := m.queues.insert q.dest.address ((m.queues.lookup q.dest.address).getD [] ++ [q])
    queuedTotal := m.queuedTotal + 1
    delayed := m.delayed + 1
    draining := true }

/-- A call of `query` is made. -/
def call (q : Queued) : RpcManager :=
  { m with calls := m.calls + 1 }.note [.called { q with serial := m.calls }]

/-- Sends a query now if its host has allowance, otherwise queues it behind any
    others for that host, or refuses it. -/
def query (o : Outside) (q : Queued) : RpcManager :=
  let (m, q) := (m.call q, { q with serial := m.calls })
  match m.queues.lookup q.dest.address with
  | none =>
    let (m, verdict) := m.consider q.dest o.now
    let m := m.note [.considered q.dest.address verdict]
    if verdict = .sent then m.send o q
    else if m.queuedTotal ≥ MaxQueuedTotal then m.refuse q o.now
    else { m with order := m.order ++ [q.dest.address] }.enqueue q
  | some queue =>
    if queue.length ≥ m.hostLimit.maxQueued ∨ m.queuedTotal ≥ MaxQueuedTotal then m.refuse q o.now
    else m.enqueue q

/-! ## Draining -/

/-- Takes the first query from the queue of a host. -/
def dequeue (host : HostAddress) (rest : List Queued) : RpcManager :=
  { m with queues := m.queues.insert host rest, queuedTotal := m.queuedTotal - 1 }

/-- Serves a host in its turn: sends its first query, if that is within the budget
    and the host has allowance. Also says whether the budget held it back. -/
def serve (o : Outside) (host : HostAddress) : List Queued → RpcManager × Bool
  | [] => (m, false)
  | q :: rest =>
    let (m, ok) := m.affordable q.dest o.now
    if !ok then (m.note [.considered host .unaffordable], true)
    else
      let (m, ok) := m.allow host o.now
      if ok then (((m.note [.considered host .sent]).dequeue host rest).send o q, false)
      else (m.note [.considered host .limited], false)

/-- Forgets the queue of a host if it is empty, or else puts the host at the back
    of the order. -/
def rotate (host : HostAddress) : RpcManager :=
  if (m.queues.lookup host).getD [] = [] then { m with queues := m.queues.erase host }
  else { m with order := m.order ++ [host] }

/-- The turn of a host taken from the front of the order. -/
def turn (o : Outside) (host : HostAddress) : RpcManager × Bool :=
  match m.queues.lookup host with
  | none => (m, false)
  | some queue =>
    let (m, exhausted) := m.serve o host queue
    (m.rotate host, exhausted)

/-- The loop of `drain`, so many hosts being left. -/
def drainLoop (o : Outside) : ℕ → RpcManager → Bool → RpcManager × Bool
  | 0, m, exhausted => (m, exhausted)
  | left + 1, m, exhausted =>
    match m.order with
    | [] => (m, exhausted)
    | host :: order =>
      if !m.canSendNow then
        (m.note ((m.order.take (left + 1)).map fun h => .considered h .capped), true)
      else
        let (m, held) := turn { m with order } o host
        drainLoop o left m (exhausted || held)

/-- One query per host per pass, taking hosts in turn. -/
def drain (o : Outside) : RpcManager :=
  let (m, exhausted) := drainLoop o m.order.length m false
  let m := { m with budgetExhausted := exhausted }
  if m.queues.entries = [] then { m with draining := false, budgetExhausted := false } else m

/-! ## Concluding -/

/-- Concludes a query, which runs its callback. -/
def conclude (serial : ℕ) (callback : Bool) (reply : RpcReply) (now : ℤ) : RpcManager :=
  m.note (.concluded serial reply now :: if callback then [.ran serial reply] else [])

/-- Whether a message is the reply to an outstanding query, which it concludes. -/
def handleReply (now : ℤ) (message : Krpc.Message) (datagram : Bytes) (sender : Endpoint) :
    RpcManager × Bool :=
  match m.pending.lookup message.transactionId with
  | none => (m, false)
  | some p =>
    if p.dest ≠ sender then (m, false)
    else
      let reply : RpcReply :=
        { status := if message.type = .Error then .Error else .Response
          message
          datagram
          request := p.request
          sender
          rttMs := now - p.sentAt }
      ({ m with pending := m.pending.erase message.transactionId }.conclude p.serial
        p.callback reply now, true)

/-- Finds the queries that have timed out, the ids being gone through in the order
    of `tids`. -/
def expire (now : ℤ) (tids : List Bytes) : RpcManager :=
  let m := if now - m.lastPrune ≥ PruneIntervalMs then
    { m with limiter := m.limiter.prune now, lastPrune := now } else m
  let expired := tids.filter fun tid => (m.pending.lookup tid).any fun p => p.deadline ≤ now
  { m with expiring := (now, expired) :: m.expiring }

/-- The innermost `expire` goes on: it concludes the next query, if that is still
    outstanding, or returns. -/
def resume : RpcManager :=
  match m.expiring with
  | [] => m
  | (_, []) :: frames => { m with expiring := frames }
  | (now, tid :: tids) :: frames =>
    let m := { m with expiring := (now, tids) :: frames }
    match m.pending.lookup tid with
    | none => m
    | some p =>
      { m with pending := m.pending.erase tid }.conclude p.serial p.callback
        { status := .Timeout, request := p.request, sender := p.dest } now

/-- The next callback posted runs. -/
def deliver : RpcManager :=
  match m.posted with
  | [] => m
  | (serial, reply) :: posted => { m with posted }.note [.ran serial reply]

/-- Drops all queries, pending or waiting, without a word. -/
def cancelAll : RpcManager :=
  { m with
    pending := ∅
    queues := ∅
    order := []
    queuedTotal := 0
    budgetExhausted := false
    draining := false }

/-! ## Runs -/

/-- What may happen to a manager. -/
inductive Event
  | query (o : Outside) (q : Queued)
  | drain (o : Outside)
  | reply (now : ℤ) (message : Krpc.Message) (datagram : Bytes) (sender : Endpoint)
  | expire (now : ℤ) (tids : List Bytes)
  | resume
  | deliver
  | setHostLimit (limit : HostLimit)
  | setMaxPending (maxPending : ℤ)
  | setReadOnly (readOnly : Bool)
  /-- The budget is set, or was changed by others. -/
  | setBudget (budget : Option ContactBudget)
  | cancelAll

/-- The manager after an event. -/
def apply : Event → RpcManager
  | .query o q => m.query o q
  | .drain o => m.drain o
  | .reply now message datagram sender => (m.handleReply now message datagram sender).1
  | .expire now tids => m.expire now tids
  | .resume => m.resume
  | .deliver => m.deliver
  | .setHostLimit limit => m.setHostLimit limit
  | .setMaxPending maxPending => m.setMaxPending maxPending
  | .setReadOnly readOnly => { m with readOnly }
  | .setBudget budget => { m with budget }
  | .cancelAll => m.cancelAll

/-- `expire` goes through the ids that are pending, in some order. -/
def Legal : Event → Prop
  | .expire _ tids => tids.Perm m.pending.keys
  | _ => True

/-- The manager after events. -/
def run (events : List Event) : RpcManager := events.foldl apply m

/-- Events that may happen one after another. -/
def LegalRun : RpcManager → List Event → Prop
  | _, [] => True
  | m, e :: events => m.Legal e ∧ LegalRun (m.apply e) events

end RpcManager

end Dht
