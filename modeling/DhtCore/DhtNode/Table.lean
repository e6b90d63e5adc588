import DhtCore.DhtNode.Basic
import DhtCore.RoutingTable.Endpoints

/-!
# Who gets into the table

What the events of a node do to its routing table is a series of calls of the table
(`GoesOn`), and only a datagram has the table hear from a node (`goesOn_apply`): a
response with that node's ID to a query that is pending to just the endpoint it
comes from. Callbacks that are told of such a response are told by `handleReply`
alone (`told_handleReply`); the others are of timeouts (`told_resume`) or of queries
never sent (`Unsent.told_deliver`).

* A spoofed address gets nobody into the table (`confirmed_run`).
* Bootstrap routers are to stay out of it (`RoutersOut`). They are kept out when they
  answer, but an endpoint that is in the table already may be made a router
  (`exists_not_routersOut`); if that never happens, they stay out
  (`routersOut_iff`).
-/

namespace Dht

open Replacing

/-! ## What callbacks are told -/

namespace RpcManager

variable {m m' : RpcManager} {o : Outside} {q : Queued} {host : HostAddress} {now : ℤ}

/-- The callbacks posted are those of queries never sent. -/
def Unsent (m : RpcManager) : Prop := ∀ r ∈ m.posted, r.2.status = .Throttled

theorem Unsent.congr (h : m.Unsent) (hposted : m'.posted = m.posted) : m'.Unsent := by
  rwa [Unsent, hposted]

theorem Unsent.reportNotSent (h : m.Unsent) (serial : ℕ) (callback : Bool)
    (dest : Endpoint) (now : ℤ) :
    (m.reportNotSent serial callback dest now).Unsent := by
  rw [RpcManager.reportNotSent]
  cases callback with
  | false => exact h.congr rfl
  | true =>
    intro r hr
    rcases List.mem_append.1 hr with hr | hr
    · exact h r hr
    · rw [List.mem_singleton.1 hr]

theorem Unsent.send (h : m.Unsent) : (m.send o q).Unsent := by
  rw [RpcManager.send]
  dsimp only
  split
  · exact h.congr rfl
  · exact Unsent.reportNotSent (h.congr rfl) _ _ _ (o.sendNow q.serial)

theorem Unsent.rotate (h : m.Unsent) : (m.rotate host).Unsent := by
  rw [RpcManager.rotate]
  split_ifs <;> exact h.congr rfl

theorem Unsent.query (h : m.Unsent) : (m.query o q).Unsent := by
  obtain ⟨budget, limiter, hc⟩ := (m.call q).consider_fst q.dest o.now
  have hposted : (m.considering o q).posted = m.posted := by rw [considering, hc]; rfl
  apply query_cases
  case sent => exact fun _ _ => (h.congr hposted).send
  case full => exact fun _ _ _ => Unsent.reportNotSent (h.congr hposted) _ _ _ o.now
  case first => exact fun _ _ _ => h.congr hposted
  case refused => exact fun _ _ => Unsent.reportNotSent (h.congr rfl) _ _ _ o.now
  case queued => exact fun _ _ _ _ => h.congr rfl

theorem Unsent.turn (h : m.Unsent) : (m.turn o host).1.Unsent := by
  apply turn_cases (P := fun r => r.1.Unsent)
  case gone => exact fun _ => h
  case empty => exact fun _ => h.rotate
  case unaffordable => exact fun _ _ _ _ => Unsent.rotate (h.congr rfl)
  case limited => exact fun _ _ _ _ _ => Unsent.rotate (h.congr rfl)
  case sent => exact fun q rest _ _ _ => (Unsent.send (m := m.served o host q rest) h).rotate

theorem Unsent.drain (h : m.Unsent) : (m.drain o).Unsent := by
  have hloop : (drainLoop o m.order.length m false).1.Unsent :=
    drainLoop_induction (fun _ _ h => h.congr rfl) (fun _ _ _ _ _ h => Unsent.turn (h.congr rfl)) h
  rw [RpcManager.drain]
  dsimp only
  split_ifs <;> exact hloop.congr rfl

theorem Unsent.apply (h : m.Unsent) (e : Event) : (m.apply e).Unsent := by
  cases e with
  | query o q => exact h.query
  | drain o => exact h.drain
  | reply now message datagram sender =>
    rw [RpcManager.apply, handleReply]
    split
    · exact h
    · split_ifs <;> exact h.congr rfl
  | expire now tids =>
    rw [RpcManager.apply, RpcManager.expire]
    split_ifs <;> exact h.congr rfl
  | resume =>
    rw [RpcManager.apply, RpcManager.resume]
    split
    · exact h
    · exact h.congr rfl
    · dsimp only
      split <;> exact h.congr rfl
  | deliver =>
    rw [RpcManager.apply, RpcManager.deliver]
    split
    next => exact h
    next hposted => exact fun r hr => h r (hposted ▸ List.mem_cons_of_mem _ hr)
  | setHostLimit _ | setMaxPending _ | setReadOnly _ | setBudget _ | cancelAll => exact h.congr rfl

/-- What callbacks are told in a step. -/
def told (m m' : RpcManager) : List (ℕ × RpcReply) := ranOf (m'.log.drop m.log.length)

theorem told_of_log (outputs : List Output) (h : m'.log = m.log ++ outputs) :
    told m m' = ranOf outputs := by
  rw [told, h, List.drop_left]

theorem told_conclude (h : m.log = m'.log) (serial : ℕ) (callback : Bool) (reply : RpcReply) :
    told m (m'.conclude serial callback reply now) = if callback then
    [(serial, reply)] else [] := by
  rw [told_of_log (.concluded serial reply now :: if callback then [.ran serial reply] else [])
    (by rw [h]; rfl)]
  cases callback <;> rfl

/-- A reply that is matched with a query of ours, and what it is told. -/
theorem told_handleReply (m : RpcManager) (now : ℤ) (message : Krpc.Message) (datagram : Bytes)
    (sender : Endpoint) {r : ℕ × RpcReply}
    (hr : r ∈ told m (m.handleReply now message datagram sender).1) :
    (∃ p, m.pending.lookup message.transactionId = some p ∧ p.dest = sender) ∧
      r.2.status = (if message.type = .Error then .Error else .Response) ∧
      r.2.message = message ∧ r.2.sender = sender := by
  rw [handleReply] at hr
  split at hr
  next => simp [told, ranOf] at hr
  next p hp =>
    by_cases hdest : p.dest ≠ sender
    · simp [hdest, told, ranOf] at hr
    · rw [if_neg hdest] at hr
      dsimp only at hr
      rw [told_conclude (by rfl)] at hr
      split at hr
      · rw [List.mem_singleton.1 hr]
        exact ⟨⟨p, hp, not_not.1 hdest⟩, rfl, rfl, rfl⟩
      · exact absurd hr List.not_mem_nil

theorem told_resume (m : RpcManager) : ∀ r ∈ told m m.resume, r.2.status = .Timeout := by
  intro r hr
  rw [resume] at hr
  split at hr
  · simp [told, ranOf] at hr
  · simp [told, ranOf] at hr
  · dsimp only at hr
    split at hr
    · simp [told, ranOf] at hr
    · rw [told_conclude (by rfl)] at hr
      split_ifs at hr
      · rw [List.mem_singleton.1 hr]
      · exact absurd hr List.not_mem_nil

theorem Unsent.told_deliver (h : m.Unsent) : ∀ r ∈ told m m.deliver, r.2.status = .Throttled := by
  intro r hr
  rw [deliver] at hr
  split at hr
  next => simp [told, ranOf] at hr
  next serial reply posted hposted =>
    rw [told_of_log [.ran serial reply] rfl] at hr
    rw [List.mem_singleton.1 hr]
    exact h (serial, reply) (hposted ▸ List.mem_cons_self)

end RpcManager

namespace DhtNode

open RoutingTable (Op)

variable {crypto : Crypto} {w : Surroundings} {n n' n'' : DhtNode} {P : NodeId → Endpoint → Prop}

/-! ## What a node does to its table -/

/-- A query other than a put changes no items. -/
theorem dispatch_of_ne (crypto : Crypto) (w : Surroundings) (n : DhtNode) {message : Krpc.Message}
    (sender : Endpoint) (datagram : Bytes) (h : message.method ≠ ascii "put") : ∃ storage tokens,
      (n.dispatch crypto w message sender datagram).1 = { n with storage, tokens } := by
  rw [dispatch]
  split_ifs
  · exact ⟨_, _, rfl⟩
  · exact ⟨_, _, rfl⟩
  · rw [getPeers]
    split <;> exact ⟨_, _, rfl⟩
  · rw [announcePeer]
    dsimp only
    split
    · exact ⟨_, _, rfl⟩
    · split
      · exact ⟨_, _, rfl⟩
      · split_ifs <;> exact ⟨_, _, rfl⟩
  · rw [handleGet]
    dsimp only
    split <;> exact ⟨_, _, rfl⟩
  · exact ⟨_, _, rfl⟩
  · exact ⟨_, _, rfl⟩

theorem dispatch_put (crypto : Crypto) (w : Surroundings) (n : DhtNode) {message : Krpc.Message}
    (sender : Endpoint) (datagram : Bytes) (h : message.method = ascii "put") :
    n.dispatch crypto w message sender datagram = n.handlePut crypto w message sender datagram := by
  rw [dispatch, if_neg (by rw [h]; decide), if_neg (by rw [h]; decide), if_neg (by rw [h]; decide),
    if_neg (by rw [h]; decide), if_neg (by rw [h]; decide), if_neg (by rw [h]; decide), if_pos h]

theorem handlePut_fst (crypto : Crypto) (w : Surroundings) (n : DhtNode) (message : Krpc.Message)
    (sender : Endpoint) (datagram : Bytes) : ∃ items tokens,
      (n.handlePut crypto w message sender datagram).1 = { n with items, tokens } := by
  rw [handlePut]
  dsimp only
  split
  · exact ⟨_, _, rfl⟩
  · split_ifs
    · exact ⟨_, _, rfl⟩
    · exact ⟨_, _, rfl⟩
    · exact ⟨_, _, rfl⟩
    · split
      · exact ⟨_, _, rfl⟩
      · rw [handleMutablePut]
        dsimp only
        split_ifs
        · exact ⟨_, _, rfl⟩
        · exact ⟨_, _, rfl⟩
        · split
          · split_ifs
            · exact ⟨_, _, rfl⟩
            · split <;> exact ⟨_, _, rfl⟩
          · exact ⟨_, _, rfl⟩

/-- The answer to a query changes nothing but what is kept for others. -/
theorem dispatch_fst (crypto : Crypto) (w : Surroundings) (n : DhtNode) (message : Krpc.Message)
    (sender : Endpoint) (datagram : Bytes) : ∃ storage items tokens,
      (n.dispatch crypto w message sender datagram).1 = { n with storage, items, tokens } := by
  by_cases hput : message.method = ascii "put"
  · obtain ⟨items, tokens, h⟩ := handlePut_fst crypto w n message sender datagram
    exact ⟨n.storage, items, tokens, by rw [dispatch_put crypto w n sender datagram hput, h]⟩
  · obtain ⟨storage, tokens, h⟩ := dispatch_of_ne crypto w n sender datagram hput
    exact ⟨storage, n.items, tokens, h⟩

/-- A node went on with the routers it had, and heard only from nodes of whom `P` holds. -/
structure GoesOn (P : NodeId → Endpoint → Prop) (n n' : DhtNode) : Prop where
  table : ∃ ops, n'.table = n.table.run ops ∧
    ∀ id endpoint version rttMs now, Op.heardFrom id endpoint version rttMs now ∈ ops →
    P id endpoint
  unsent : n.rpc.Unsent → n'.rpc.Unsent
  routers : ∀ endpoint, n'.isRouter endpoint = n.isRouter endpoint

theorem goesOn_of_eq (htable : n'.table = n.table) (hrpc : n.rpc.Unsent → n'.rpc.Unsent)
    (hseeds : n'.seeds = n.seeds) : GoesOn P n n' :=
  ⟨⟨[], htable, by simp⟩, hrpc, fun endpoint => by rw [isRouter, hseeds, isRouter]⟩

theorem GoesOn.refl (n : DhtNode) : GoesOn P n n := goesOn_of_eq rfl (fun h => h) rfl

theorem GoesOn.trans (h : GoesOn P n n') (h' : GoesOn P n' n'') : GoesOn P n n'' := by
  obtain ⟨ops, htable, hops⟩ := h.table
  obtain ⟨ops', htable', hops'⟩ := h'.table
  refine ⟨⟨ops ++ ops', ?_, fun id endpoint version rttMs now hop => ?_⟩, h'.unsent ∘ h.unsent,
    fun endpoint => (h'.routers endpoint).trans (h.routers endpoint)⟩
  · rw [htable', htable, RoutingTable.run, RoutingTable.run, RoutingTable.run, List.foldl_append]
  · exact (List.mem_append.1 hop).elim (hops _ _ _ _ _) (hops' _ _ _ _ _)

/-- The table is called, not to hear from a node unless `P` holds of it. -/
theorem goesOn_table (n : DhtNode) (op : Op)
    (hop : ∀ id endpoint version rttMs now, op = .heardFrom id endpoint version rttMs now →
      P id endpoint) :
    GoesOn P n { n with table := n.table.apply op } :=
  ⟨⟨[op], rfl, fun _ _ _ _ _ h => hop _ _ _ _ _ (List.mem_singleton.1 h).symm⟩,
    (fun h => h), fun _ => rfl⟩

theorem goesOn_sendQuery (n : DhtNode) (o : Outside) (dest : Endpoint) (method : Bytes)
    (arguments : BValue.Dict) (timeoutMs : ℤ) (onSent : Bool) :
    GoesOn P n (n.sendQuery o dest method arguments timeoutMs onSent) :=
  goesOn_of_eq rfl (·.query) rfl

theorem goesOn_maybeVerify (n : DhtNode) (id : NodeId) (sender : Endpoint) :
    GoesOn P n (n.maybeVerify w id sender) := by
  have hrecent : ∀ recentVerifications, GoesOn P n { n with recentVerifications } :=
    fun _ => goesOn_of_eq rfl (fun h => h) rfl
  rw [maybeVerify]
  split_ifs
  · exact .refl n
  · exact .refl n
  · exact .refl n
  · exact (hrecent _).trans (goesOn_sendQuery ..)

theorem goesOn_noteSender (n : DhtNode) (message : Krpc.Message) (id : NodeId) (sender : Endpoint) :
    GoesOn P n (n.noteSender w message id sender) := by
  have hqueried : GoesOn P n { n with table := (n.table.queriedBy id sender w.now).1 } :=
    goesOn_table n (.queriedBy id sender w.now) (by simp)
  rw [noteSender]
  dsimp only
  split_ifs
  · exact .refl n
  · exact hqueried
  · exact hqueried.trans (goesOn_maybeVerify ..)

/-- Hearing a query, a node hears from nobody. -/
theorem goesOn_handleQuery (n : DhtNode) (message : Krpc.Message) (sender : Endpoint)
    (datagram : Bytes) :
    GoesOn P n (n.handleQuery crypto w message sender datagram).1 := by
  have hlimiter : ∀ limiter, GoesOn P n { n with limiter } := fun _ =>
      goesOn_of_eq rfl (fun h => h) rfl
  rw [handleQuery]
  dsimp only
  split_ifs
  · exact hlimiter _
  · exact hlimiter _
  · split
    next => exact hlimiter _
    next id hid =>
      have hnoted := (hlimiter (n.limiter.allow sender.address w.now).1).trans
        (goesOn_noteSender (w := w) _ message id sender)
      obtain ⟨storage, items, tokens, heq⟩ :=
        dispatch_fst crypto w (noteSender w _ message id sender)
        message sender datagram
      rw [heq]
      exact hnoted.trans (goesOn_of_eq rfl (fun h => h) rfl)

/-! ## Replies -/

theorem goesOn_adoptExternalAddress (n : DhtNode) (address : HostAddress) :
    GoesOn P n (n.adoptExternalAddress w address) := by
  rw [adoptExternalAddress]
  split_ifs
  · exact .refl n
  · exact (goesOn_table n (.rebuild _ w.later) (by simp)).trans (goesOn_of_eq rfl (fun h => h) rfl)

theorem goesOn_noteAddress (n : DhtNode) (message : Krpc.Message) (sender : Endpoint) :
    GoesOn P n (n.noteAddress w message sender) := by
  rw [noteAddress]
  split
  next => exact .refl n
  next reported _ =>
    have hvoter : ∀ voter, GoesOn P n { n with voter } := fun _ => goesOn_of_eq rfl (fun h => h) rfl
    dsimp only
    split_ifs
    · exact (hvoter _).trans (goesOn_adoptExternalAddress ..)
    · exact hvoter _

/-- A reply has a node heard from if it is a response with its ID, not from a router
    and not read-only. -/
theorem goesOn_onRpcReply (n : DhtNode) (reply : RpcReply)
    (hP : reply.status = .Response → ∀ id, reply.message.senderId = some id →
      reply.message.readOnly = false → n.isRouter reply.sender = false → P id reply.sender) :
    GoesOn P n (n.onRpcReply w reply) := by
  rw [onRpcReply]
  split
  next => exact goesOn_table n (.failed reply.sender w.now) (by simp)
  next => exact .refl n
  next => exact .refl n
  next hstatus =>
    have hnoted : GoesOn P n (n.noteAddress w reply.message reply.sender) := goesOn_noteAddress ..
    dsimp only
    split
    next => exact hnoted
    next id hid =>
      split_ifs with hheard
      · simp only [hnoted.routers, Bool.and_eq_true, Bool.not_eq_true'] at hheard
        -- The one call that adds to the table: a response, not read-only, not from a router.
        refine hnoted.trans (goesOn_table _ (.heardFrom id reply.sender _ _ _) ?_)
        rintro _ _ _ _ _ ⟨⟩
        exact hP hstatus id hid hheard.2 hheard.1
      · exact hnoted

theorem goesOn_onSeedReply (n : DhtNode) (serial : ℕ) (reply : RpcReply) :
    GoesOn P n (n.onSeedReply serial reply) := by
  rw [onSeedReply]
  split
  next => exact .refl n
  next endpoint _ =>
    split
    next => exact .refl n
    next seed hseed =>
      refine ⟨⟨[], rfl, by simp⟩, fun h => h, fun other => ?_⟩
      have hsource : (seedReplied seed reply).source = seed.source := by
        rw [seedReplied]
        split_ifs
        · rfl
        · dsimp only
          split <;> rfl
      rw [isRouter, isRouter]
      by_cases hother : other = endpoint
      · rw [hother, AList.lookup_insert, hseed, Option.any_some, Option.any_some, hsource]
      · rw [AList.lookup_insert_ne hother]

/-- The RPC manager took a step, whose callbacks were told of certain replies. -/
theorem goesOn_withRpc (n : DhtNode) {rpc : RpcManager} (hrpc : n.rpc.Unsent → rpc.Unsent)
    (hP : ∀ r ∈ n.rpc.told rpc, r.2.status = .Response → ∀ id, r.2.message.senderId = some id →
      r.2.message.readOnly = false → n.isRouter r.2.sender = false → P id r.2.sender) :
    GoesOn P n (n.withRpc w rpc) := by
  have hfold : ∀ (l : List (ℕ × RpcReply)) (n' : DhtNode), GoesOn P n n' →
      (∀ r ∈ l, r.2.status = .Response → ∀ id, r.2.message.senderId = some id →
        r.2.message.readOnly = false → n.isRouter r.2.sender = false → P id r.2.sender) →
      GoesOn P n (l.foldl (fun n ran => (n.onRpcReply w ran.2).onSeedReply ran.1 ran.2) n') := by
    intro l
    induction l with
    | nil => exact fun n' h _ => h
    | cons r l ih =>
      intro n' h hl
      refine ih _ (h.trans ((goesOn_onRpcReply n' r.2 ?_).trans (goesOn_onSeedReply ..)))
        fun r hr => hl r (List.mem_cons_of_mem _ hr)
      intro hstatus id hid hro hrouter
      exact hl r List.mem_cons_self hstatus id hid hro (h.routers r.2.sender ▸ hrouter)
  exact hfold _ _ (goesOn_of_eq rfl hrpc rfl) hP

/-- A datagram is a response to a query of ours that is pending to its sender. -/
def Expects (n : DhtNode) (data : Bytes) (sender : Endpoint) (message : Krpc.Message) : Prop :=
  (Krpc.parse data).message = some message ∧ message.type = .Response ∧
    ∃ p, n.rpc.pending.lookup message.transactionId = some p ∧ p.dest = sender

/-- Such a response has a node's ID, and is not read-only. -/
def Confirms (n : DhtNode) (data : Bytes) (sender : Endpoint) (id : NodeId) : Prop :=
  ∃ message, n.Expects data sender message ∧ message.senderId = some id ∧ message.readOnly = false

theorem goesOn_handleDatagram (crypto : Crypto) (w : Surroundings) (n : DhtNode) (data : Bytes)
    (sender : Endpoint) :
    GoesOn (fun id endpoint => endpoint = sender ∧ n.Confirms data sender id ∧
      n.isRouter sender = false)
      n (n.handleDatagram crypto w data sender).1 := by
  rw [handleDatagram]
  split
  next => exact .refl n
  next message hparse =>
    split_ifs with htype
    · exact goesOn_handleQuery ..
    · refine goesOn_withRpc n (·.apply (.reply w.outside.now message data sender)) ?_
      intro r hr hstatus id hid hro hrouter
      -- The reply was pending, and its sender is the one that was asked.
      obtain ⟨hpending, hresponse, hmessage, hsender⟩ := RpcManager.told_handleReply _ _ _ _ _ hr
      rw [hmessage] at hid hro
      rw [hsender] at hrouter ⊢
      refine ⟨rfl, ⟨message, ⟨hparse, ?_, hpending⟩, hid, hro⟩, hrouter⟩
      rw [hstatus] at hresponse
      cases hm : message.type with
      | Query => exact absurd hm htype
      | Response => rfl
      | Error =>
        rw [hm, if_pos rfl] at hresponse
        cases hresponse

/-! ## Events -/

theorem goesOn_pingNodes (n : DhtNode) : GoesOn P n (n.pingNodes w) := by
  rw [pingNodes]
  refine foldl_invariant (P := GoesOn P n) (.refl n) (fun n' node h => h.trans ?_) _
  exact (goesOn_table n' (.markPinged node.endpoint w.now) (by simp)).trans (goesOn_sendQuery ..)

theorem goesOn_refreshBucket (n : DhtNode) : GoesOn P n (n.refreshBucket w) := by
  rw [refreshBucket]
  split_ifs
  · exact .refl n
  · split
    next => exact .refl n
    next bucket _ => exact goesOn_table n (.touchBucket bucket w.now) (by simp)

/-- A node is heard from by an event: its ID is confirmed by a datagram, and it is no router. -/
def HeardBy (n : DhtNode) (e : Event) (id : NodeId) (endpoint : Endpoint) : Prop :=
  ∃ w data, e = .datagram w data endpoint ∧ n.Confirms data endpoint id ∧
    n.isRouter endpoint = false

/-- What an event does to the table. -/
theorem goesOn_apply (crypto : Crypto) (h : n.rpc.Unsent) {e : Event}
    (hseed : ∀ w endpoint source, e ≠ .addSeed w endpoint source) :
    GoesOn (n.HeardBy e) n (n.apply crypto e) := by
  cases e with
  | datagram w data sender =>
    obtain ⟨⟨ops, htable, hops⟩, hunsent, hrouters⟩ := goesOn_handleDatagram crypto w
      n data sender
    refine ⟨⟨ops, htable, fun id endpoint version rttMs now hop => ?_⟩, hunsent, hrouters⟩
    obtain ⟨rfl, hheard⟩ := hops _ _ _ _ _ hop
    exact ⟨w, data, rfl, hheard⟩
  | query o dest method arguments timeoutMs onSent => exact goesOn_sendQuery ..
  | addSeed w endpoint source => exact absurd rfl (hseed w endpoint source)
  | setId id now =>
    exact (goesOn_table n (.rebuild id now) (by simp)).trans (goesOn_of_eq rfl (fun h => h) rfl)
  | setReadOnly readOnly =>
    rw [DhtNode.apply, DhtNode.setReadOnly]
    split_ifs
    · exact .refl n
    · exact goesOn_of_eq rfl (fun h => h) rfl
  | maintenance w =>
    exact (goesOn_pingNodes n).trans ((goesOn_refreshBucket _).trans
      (goesOn_of_eq rfl (fun h => h) rfl))
  | drain o => exact goesOn_of_eq rfl (·.drain) rfl
  | expire now tids => exact goesOn_of_eq rfl (·.apply (.expire now tids)) rfl
  | resume w =>
    refine goesOn_withRpc n (·.apply .resume) fun r hr hstatus => ?_
    rw [RpcManager.told_resume n.rpc r hr] at hstatus
    cases hstatus
  | deliver w =>
    refine goesOn_withRpc n (·.apply .deliver) fun r hr hstatus => ?_
    rw [h.told_deliver r hr] at hstatus
    cases hstatus
  | setBudget _ | expireStorage _ | reorder _ => exact goesOn_of_eq rfl (fun h => h) rfl
  | close => exact goesOn_of_eq rfl (·.apply .cancelAll) rfl

/-! ## Spoofed addresses -/

/-- The table is well formed, and the callbacks posted are those of queries never sent. -/
def Sound (n : DhtNode) : Prop := n.table.WellFormed ∧ n.rpc.Unsent

theorem sound_new (config : NodeConfig) (id : NodeId) (budget : Option ContactBudget)
    (nextId : UInt16) : (new config id budget nextId).Sound :=
  ⟨RoutingTable.wellFormed_new id true, fun _ h => absurd h List.not_mem_nil⟩

theorem addSeed_table (n : DhtNode) (endpoint : Endpoint) (source : SeedSource) :
    (n.addSeed w endpoint source).table = n.table := by
  rw [DhtNode.addSeed]
  split <;> rfl

theorem GoesOn.sound (h : GoesOn P n n') (hn : n.Sound) : n'.Sound := by
  obtain ⟨ops, htable, -⟩ := h.table
  exact ⟨htable ▸ hn.1.run ops, h.unsent hn.2⟩

theorem Sound.apply (h : n.Sound) (e : Event) : (n.apply crypto e).Sound := by
  by_cases hseed : ∀ w endpoint source, e ≠ .addSeed w endpoint source
  · exact (goesOn_apply crypto h.2 hseed).sound h
  · push Not at hseed
    obtain ⟨w, endpoint, source, rfl⟩ := hseed
    refine ⟨(addSeed_table (w := w) n endpoint source).symm ▸ h.1, ?_⟩
    rw [DhtNode.apply, DhtNode.addSeed]
    split
    · exact h.2
    · exact h.2.query

/-- An event brings in only pairs that were heard from. -/
theorem Sound.mem_pairs_apply (h : n.Sound) {e : Event} {x : NodeId × Endpoint}
    (hx : x ∈ (n.apply crypto e).table.pairs) : x ∈ n.table.pairs ∨ n.HeardBy e x.1 x.2 := by
  by_cases hseed : ∀ w endpoint source, e ≠ .addSeed w endpoint source
  · obtain ⟨ops, htable, hops⟩ := (goesOn_apply crypto h.2 hseed).table
    rcases h.1.mem_pairs_run ops (htable ▸ hx) with hx | ⟨version, rttMs, now, hop⟩
    · exact .inl hx
    · exact .inr (hops _ _ _ _ _ hop)
  · push Not at hseed
    obtain ⟨w, endpoint, source, rfl⟩ := hseed
    exact .inl (addSeed_table (w := w) n endpoint source ▸ hx)

theorem pairs_noteSender (n : DhtNode) (message : Krpc.Message) (id : NodeId) (sender : Endpoint) :
    (n.noteSender w message id sender).table.pairs = n.table.pairs := by
  have hqueried := RoutingTable.pairs_queriedBy n.table id sender w.now
  rw [noteSender]
  dsimp only
  split_ifs
  · rfl
  · exact hqueried
  · rw [maybeVerify]
    split_ifs <;> exact hqueried

theorem pairs_handleQuery (n : DhtNode) (message : Krpc.Message) (sender : Endpoint)
    (datagram : Bytes) :
    (n.handleQuery crypto w message sender datagram).1.table.pairs = n.table.pairs := by
  rw [handleQuery]
  dsimp only
  split_ifs
  · rfl
  · rfl
  · split
    next => rfl
    next id _ =>
      obtain ⟨storage, items, tokens, heq⟩ :=
        dispatch_fst crypto w (noteSender w _ message id sender)
        message sender datagram
      rw [heq]
      exact pairs_noteSender ..

/-- Errors change nothing in the table. -/
theorem table_withRpc (n : DhtNode) (rpc : RpcManager)
    (h : ∀ r ∈ n.rpc.told rpc, r.2.status = .Error) :
    (n.withRpc w rpc).table = n.table := by
  have hfold : ∀ (l : List (ℕ × RpcReply)) (n : DhtNode), (∀ r ∈ l, r.2.status = .Error) →
      (l.foldl (fun n ran => (n.onRpcReply w ran.2).onSeedReply ran.1 ran.2) n).table =
      n.table := by
    intro l
    induction l with
    | nil => exact fun _ _ => rfl
    | cons r l ih =>
      intro n hl
      rw [List.foldl_cons, ih _ fun r hr => hl r (List.mem_cons_of_mem _ hr), onRpcReply,
        hl r List.mem_cons_self]
      dsimp only
      rw [onSeedReply]
      split
      · rfl
      · split <;> rfl
  exact hfold _ _ h

/-- A datagram other than an expected response changes no pair. -/
theorem pairs_handleDatagram {data : Bytes} {sender : Endpoint}
    (h : ∀ message, ¬n.Expects data sender message) :
    (n.handleDatagram crypto w data sender).1.table.pairs = n.table.pairs := by
  rw [handleDatagram]
  split
  next => rfl
  next message hparse =>
    split_ifs with htype
    · exact pairs_handleQuery ..
    · refine congrArg RoutingTable.pairs (table_withRpc n _ fun r hr => ?_)
      obtain ⟨hpending, hstatus, -⟩ := RpcManager.told_handleReply _ _ _ _ _ hr
      cases hm : message.type with
      | Query => exact absurd hm htype
      | Response => exact absurd ⟨hparse, hm, hpending⟩ (h message)
      | Error => rw [hstatus, hm, if_pos rfl]

/-- Every pair of the main table and the caches is of an endpoint from which earlier a
    response came to a query pending to just that endpoint, with that ID and not
    read-only. No other datagram ever changes a pair. -/
theorem confirmed_run (crypto : Crypto) (config : NodeConfig) (id : NodeId)
    (budget : Option ContactBudget) (nextId : UInt16) (events : List Event) :
    let after (events : List Event) := (new config id budget nextId).run crypto events
    (∀ x ∈ (after events).table.pairs, ∃ p w data, p ++ [.datagram w data x.2] <+: events ∧
      (after p).Confirms data x.2 x.1) ∧
    ∀ w data sender, (∀ message, ¬(after events).Expects data sender message) →
      ((after events).handleDatagram crypto w data sender).1.table.pairs =
        (after events).table.pairs := by
  intro after
  refine ⟨?_, fun w data sender h => pairs_handleDatagram h⟩
  induction events using List.reverseRecOn with
  | nil => exact fun x hx => absurd hx List.not_mem_nil
  | append_singleton events e ih =>
    intro x hx
    have hsound : (after events).Sound :=
      foldl_invariant (sound_new config id budget nextId) (fun _ e h => h.apply e) events
    have happly : after (events ++ [e]) = (after events).apply crypto e := by
      simp only [after, DhtNode.run, List.foldl_append, List.foldl_cons, List.foldl_nil]
    rw [happly] at hx
    rcases hsound.mem_pairs_apply hx with hx | ⟨w, data, rfl, hconfirms, -⟩
    · obtain ⟨p, w, data, hp, hconfirms⟩ := ih x hx
      exact ⟨p, w, data, hp.trans (List.prefix_append _ _), hconfirms⟩
    · exact ⟨events, w, data, List.prefix_refl _, hconfirms⟩

/-! ## Routers -/

/-- No router is in the main table or a cache. -/
def RoutersOut (n : DhtNode) : Prop :=
  ∀ endpoint seed, n.seeds.lookup endpoint = some seed → seed.source = .Bootstrap →
    ∀ node, node ∈ n.table.allNodes ∨ node ∈ n.table.allReplacements → node.endpoint ≠ endpoint

/-- `addSeed` makes an endpoint a router: it names one that was no seed, or was one
    that no attempt was made at. -/
def MakesRouter (n : DhtNode) (endpoint : Endpoint) (source : SeedSource) : Prop :=
  source = .Bootstrap ∧ endpoint.isValid ∧ endpoint.family = n.config.family ∧
    ∀ seed, n.seeds.lookup endpoint = some seed → seed.state = .Querying ∧ seed.lastAttempt = 0

/-- What an event must not do: make an endpoint a router that the table or a cache has. -/
def SparesTable (n : DhtNode) : Event → Prop
  | .addSeed _ endpoint source => n.MakesRouter endpoint source →
      ∀ node, node ∈ n.table.allNodes ∨ node ∈ n.table.allReplacements → node.endpoint ≠ endpoint
  | _ => True

theorem isRouter_eq_true {endpoint : Endpoint} : n.isRouter endpoint = true ↔
    ∃ seed, n.seeds.lookup endpoint = some seed ∧ seed.source = .Bootstrap := by
  simp [isRouter, Option.any_eq_true]

theorem routersOut_iff_pairs : n.RoutersOut ↔ ∀ x ∈ n.table.pairs, n.isRouter x.2 = false := by
  simp only [RoutersOut, RoutingTable.pairs, RoutingTable.pair, List.forall_mem_map,
    RoutingTable.mem_entries]
  constructor
  · intro h node hnode
    refine Bool.eq_false_iff.2 fun hrouter => ?_
    obtain ⟨seed, hseed, hsource⟩ := isRouter_eq_true.1 hrouter
    exact h _ seed hseed hsource node hnode rfl
  · rintro h endpoint seed hseed hsource node hnode rfl
    exact absurd (isRouter_eq_true.2 ⟨seed, hseed, hsource⟩) (Bool.eq_false_iff.1 (h node hnode))

/-- A node that was asked as any other, and answered, before it was made a router. -/
theorem exists_not_routersOut : ∃ (crypto : Crypto) (config : NodeConfig) (id : NodeId)
    (nextId : UInt16) (events : List Event),
    ¬((new config id none nextId).run crypto events).RoutersOut := by
  let node : NodeId := ⟨0x80 :: List.replicate 19 0, rfl⟩
  let host : Endpoint := ⟨.ipv4 (HostAddress.dotted 8 8 8 8), 6881⟩
  let response := ascii "d1:rd2:id20:" ++ node.toBytes ++ ascii "e1:t2:" ++ RpcManager.tidOf 0 ++
    ascii "1:y1:re"
  refine ⟨⟨fun _ => default, fun _ _ _ => false⟩, {}, default, 0,
    [.query { now := 1 } host (ascii "find_node") [] 3000 false,
      .datagram { now := 2 } response host, .addSeed { now := 3 } host .Bootstrap], ?_⟩
  rw [routersOut_iff_pairs]
  decide +kernel

/-- What `addSeed` makes a router. -/
theorem isRouter_addSeed {endpoint : Endpoint} {source : SeedSource}
    (h : n.MakesRouter endpoint source) :
    (n.addSeed w endpoint source).isRouter endpoint = true := by
  obtain ⟨rfl, hvalid, hfamily, hfresh⟩ := h
  have hseed : ((n.seeds.lookup endpoint).getD {}).state = .Querying ∧
      ((n.seeds.lookup endpoint).getD {}).lastAttempt = 0 := by
    cases hlookup : n.seeds.lookup endpoint with
    | none => exact ⟨rfl, rfl⟩
    | some seed => exact hfresh seed hlookup
  rw [DhtNode.addSeed, if_neg (by simp [hvalid, hfamily]), isRouter_eq_true]
  refine ⟨_, AList.lookup_insert _, ?_⟩
  dsimp only
  rw [if_neg (by simp), if_pos hseed]

/-- It makes no other endpoint a router. -/
theorem isRouter_of_addSeed {endpoint other : Endpoint} {source : SeedSource}
    (h : (n.addSeed w endpoint source).isRouter other = true) :
    n.isRouter other = true ∨ other = endpoint ∧ n.MakesRouter endpoint source := by
  rw [DhtNode.addSeed] at h
  split at h
  next => exact .inl h
  next hok =>
    simp only [Bool.or_eq_true, Bool.not_eq_true', decide_eq_true_eq, not_or, Bool.not_eq_false,
      ne_eq, not_not] at hok
    obtain ⟨seed, hseed, hsource⟩ := isRouter_eq_true.1 h
    by_cases hother : other = endpoint
    · subst hother
      obtain rfl := Option.some.inj ((AList.lookup_insert _).symm.trans hseed)
      dsimp only at hsource
      split_ifs at hsource with hinjected hfresh
      · refine .inr ⟨rfl, hsource, hok.1, hok.2, fun seed hlookup => ?_⟩
        rwa [hlookup, Option.getD_some] at hfresh
      · cases hlookup : n.seeds.lookup other with
        | none => simp [hlookup] at hsource
        | some seed => exact .inl (isRouter_eq_true.2 ⟨seed, hlookup, by rwa [hlookup] at hsource⟩)
    · exact .inl (isRouter_eq_true.2 ⟨seed, (AList.lookup_insert_ne hother).symm.trans hseed,
        hsource⟩)

/-- An event keeps routers out if and only if it makes no endpoint a router that the
    table or a cache has. -/
theorem RoutersOut.apply_iff (h : n.RoutersOut) (hsound : n.Sound) (e : Event) :
    (n.apply crypto e).RoutersOut ↔ n.SparesTable e := by
  rw [routersOut_iff_pairs] at h ⊢
  by_cases hseed : ∀ w endpoint source, e ≠ .addSeed w endpoint source
  · have hspares : n.SparesTable e := by
      cases e with
      | addSeed w endpoint source => exact absurd rfl (hseed w endpoint source)
      | _ => trivial
    refine iff_of_true (fun x hx => ?_) hspares
    rw [(goesOn_apply crypto hsound.2 hseed).routers]
    rcases hsound.mem_pairs_apply hx with hx | ⟨-, -, -, -, hrouter⟩
    · exact h x hx
    · exact hrouter
  · push Not at hseed
    obtain ⟨w, endpoint, source, rfl⟩ := hseed
    simp only [DhtNode.apply, addSeed_table, SparesTable, ← RoutingTable.mem_entries]
    constructor
    · intro hout hmakes node hnode he
      have hfalse := hout (RoutingTable.pair node) (List.mem_map_of_mem hnode)
      rw [RoutingTable.pair, he, isRouter_addSeed hmakes] at hfalse
      cases hfalse
    · intro hspares x hx
      obtain ⟨node, hnode, rfl⟩ := List.mem_map.1 hx
      refine Bool.eq_false_iff.2 fun hrouter => ?_
      rcases isRouter_of_addSeed hrouter with hold | ⟨he, hmakes⟩
      · exact absurd hold (Bool.eq_false_iff.1 (h _ hx))
      · exact hspares hmakes node hnode he

/-- Routers stay out of the table in every state of a run if and only if `addSeed` never
    makes an endpoint a router that the table or a cache has. -/
theorem routersOut_iff (crypto : Crypto) (config : NodeConfig) (id : NodeId)
    (budget : Option ContactBudget) (nextId : UInt16) (events : List Event) :
    (∀ p, p <+: events → ((new config id budget nextId).run crypto p).RoutersOut) ↔
      ∀ p e, p ++ [e] <+: events → ((new config id budget nextId).run crypto p).SparesTable e :=
  forall_prefix_iff (sound_new config id budget nextId)
    (fun endpoint seed hseed => by simp [new] at hseed) (fun _ e h => h.apply e)
    (fun _ e hsound h => h.apply_iff hsound e) events

end DhtNode

end Dht
