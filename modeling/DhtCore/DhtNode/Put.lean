import DhtCore.DhtNode.Get
import DhtCore.DhtNode.Table
import DhtCore.Krpc.Encoding
import DhtCore.Lib.Join
import DhtCore.Lookup.Basic
import DhtCore.RpcManager.Newcomers
import DhtCore.RpcManager.Sent

/-!
# Puts

A put asks the closest nodes that a lookup has found to store an item, each with the token
that it gave. A node that runs the same code takes from the query the item as it was put,
byte for byte, and tries to store it (`takes_of_conveys`).

Whoever put it is told once, when all who were asked have answered or failed, how many
answered, in whatever order and whatever else happens to the node (`toldOnce_queryClosest`).

The same goes for announcements, which have the peer kept (`announce_kept`).
-/

namespace Dht

/-- An item to be put. -/
structure PutRequest where
  target : NodeId
  /-- Bencoded. -/
  value : Bytes
  isMutable : Bool := false
  publicKey : Bytes := []
  salt : Bytes := []
  signature : Bytes := []
  sequence : ℤ := 0
  cas : Option ℤ := none

namespace PutRequest

/-- The arguments of the query of a put. -/
def arguments (r : PutRequest) (token : Bytes) : BValue.Dict :=
  let args : BValue.Dict := []
  let args := args.emplace (ascii "token") (.string token)
  let args := args.emplace (ascii "v") (.preEncoded r.value)
  if r.isMutable then
    let args := args.emplace (ascii "k") (.string r.publicKey)
    let args := args.emplace (ascii "seq") (.integer r.sequence)
    let args := args.emplace (ascii "sig") (.string r.signature)
    let args := if !r.salt.isEmpty then args.emplace (ascii "salt") (.string r.salt) else args
    match r.cas with
    | some cas => args.emplace (ascii "cas") (.integer cas)
    | none => args
  else args

variable (crypto : Crypto) (r : PutRequest)

/-- The mutable item that is put. -/
def item : MutableItem where
  target := Bep44.mutableTarget crypto r.publicKey r.salt
  publicKey := r.publicKey
  salt := r.salt
  signature := r.signature
  value := r.value
  sequence := r.sequence

/-- What a node that takes the item tries. -/
def tryAt (items : ItemStorage) (now : ℤ) : ItemStorage × PutResult :=
  if r.isMutable then items.putMutable (r.item crypto) r.cas now
  else items.putImmutable (Bep44.immutableTarget crypto r.value) r.value now

/-- What a publisher sees to: the value is bencoded and within the limit, and what a mutable item
    has besides is in range and signed. -/
structure WellFormed : Prop where
  bencoded : ∃ t : Bencode.Tree, t.Fits 30 ∧ r.value = t.source
  length_le : r.value.length ≤ Bep44.MaxValueBytes
  salt : r.isMutable → r.salt.length ≤ Bep44.MaxSaltBytes
  sequence : r.isMutable → Bencode.IsInt64 r.sequence
  cas : r.isMutable → ∀ c ∈ r.cas, Bencode.IsInt64 c
  signed : r.isMutable → Bep44.verify crypto r.signature
    (Bep44.signingBuffer r.salt r.sequence r.value) r.publicKey = some true

end PutRequest

namespace DhtNode

/-- The arguments of the query of an announcement. -/
def announceArguments (infohash : NodeId) (port : UInt16) (impliedPort : Bool) (token : Bytes) :
    BValue.Dict :=
  let args : BValue.Dict := []
  let args := args.emplace (ascii "info_hash") (.string infohash.toBytes)
  let args := args.emplace (ascii "port") (.integer port.toNat)
  let args := args.emplace (ascii "token") (.string token)
  if impliedPort then args.emplace (ascii "implied_port") (.integer 1) else args

/-- The queries to the nodes that gave a token, and the numbers of their calls. -/
def queryClosest (o : ℕ → Outside) (method : Bytes) (arguments : Bytes → BValue.Dict) :
    DhtNode → List Lookup.Contact → DhtNode × List ℕ
  | n, [] => (n, [])
  | n, contact :: rest =>
    if contact.token.isEmpty then queryClosest o method arguments n rest
    else
      let serial := n.rpc.calls
      let (n, serials) := queryClosest o method arguments
        (n.sendQuery (o serial) contact.endpoint method (arguments contact.token)) rest
      (n, serial :: serials)

/-- A put, once the lookup is done. -/
def put (o : ℕ → Outside) (n : DhtNode) (r : PutRequest) (closest : List Lookup.Contact) :
    DhtNode × List ℕ :=
  n.queryClosest o (ascii "put") r.arguments closest

/-- An announcement, once the lookup is done. -/
def announce (o : ℕ → Outside) (n : DhtNode) (infohash : NodeId) (port : UInt16)
    (impliedPort : Bool) (closest : List Lookup.Contact) : DhtNode × List ℕ :=
  n.queryClosest o (ascii "announce_peer") (announceArguments infohash port impliedPort) closest

/-- The callback of such a query counts a response. -/
def countAccepted (accepted : ℕ) (reply : RpcReply) : ℕ :=
  if reply.status = .Response then accepted + 1 else accepted

/-- How many have accepted, as often as it is told: each callback that runs counts, and if
    nobody was asked it is told at once. -/
def told (serials : List ℕ) (log : List Output) : List ℕ :=
  Join.reports countAccepted 0 serials.length
    (((RpcManager.ranOf log).filter (·.1 ∈ serials)).map (·.2))

/-! ## What a node has its RPC manager do -/

open Replacing

variable {crypto : Crypto} {w : Surroundings} {n n' n'' : DhtNode}

/-- The RPC manager of a node has taken calls, by which no query is dropped. -/
def Drives (n n' : DhtNode) : Prop :=
  ∃ events, n'.rpc = n.rpc.run events ∧ ∀ e ∈ events, e.KeepsQueries

theorem drives_of_eq (h : n'.rpc = n.rpc) : Drives n n' := ⟨[], h, by simp⟩

/-- The manager took one call. -/
theorem drives_call (n : DhtNode) (e : RpcManager.Event) (hkeeps : e.KeepsQueries)
    (h : n'.rpc = n.rpc.apply e) : Drives n n' :=
  ⟨[e], h, fun _ he => List.mem_singleton.1 he ▸ hkeeps⟩

theorem Drives.trans (h : Drives n n') (h' : Drives n' n'') : Drives n n'' := by
  obtain ⟨events, heq, hkeeps⟩ := h
  obtain ⟨events', heq', hkeeps'⟩ := h'
  refine ⟨events ++ events', ?_, fun e he => (List.mem_append.1 he).elim (hkeeps e) (hkeeps' e)⟩
  rw [heq', heq, RpcManager.run, RpcManager.run, RpcManager.run, List.foldl_append]

theorem drives_sendQuery (n : DhtNode) (o : Outside) (dest : Endpoint) (method : Bytes)
    (arguments : BValue.Dict) (timeoutMs : ℤ) (onSent : Bool) :
    Drives n (n.sendQuery o dest method arguments timeoutMs onSent) :=
  drives_call n (.query o _) trivial rfl

theorem drives_noteSender (n : DhtNode) (message : Krpc.Message) (id : NodeId)
    (sender : Endpoint) : Drives n (n.noteSender w message id sender) := by
  rw [noteSender]
  dsimp only
  split_ifs
  · exact drives_of_eq rfl
  · exact drives_of_eq rfl
  · rw [maybeVerify]
    split_ifs
    · exact drives_of_eq rfl
    · exact drives_of_eq rfl
    · exact drives_of_eq rfl
    · exact drives_call n (.query w.outside _) trivial rfl

theorem drives_handleQuery (crypto : Crypto) (w : Surroundings) (n : DhtNode)
    (message : Krpc.Message) (sender : Endpoint) (datagram : Bytes) :
    Drives n (n.handleQuery crypto w message sender datagram).1 := by
  rw [handleQuery]
  dsimp only
  split_ifs
  · exact drives_of_eq rfl
  · exact drives_of_eq rfl
  · split
    next => exact drives_of_eq rfl
    next id _ =>
      obtain ⟨storage, items, tokens, heq⟩ :=
        dispatch_fst crypto w (noteSender w _ message id sender) message sender datagram
      rw [heq]
      exact drives_noteSender ..

theorem rpc_onRpcReply (n : DhtNode) (reply : RpcReply) : (n.onRpcReply w reply).rpc = n.rpc := by
  have hnoted : (n.noteAddress w reply.message reply.sender).rpc = n.rpc := by
    rw [noteAddress]
    split
    · rfl
    · dsimp only
      split_ifs
      · rw [adoptExternalAddress]
        split_ifs <;> rfl
      · rfl
  rw [onRpcReply]
  split
  · rfl
  · rfl
  · rfl
  · dsimp only
    split
    · exact hnoted
    · split_ifs <;> exact hnoted

/-- Callbacks send nothing by themselves. -/
theorem rpc_withRpc (n : DhtNode) (rpc : RpcManager) : (n.withRpc w rpc).rpc = rpc := by
  rw [withRpc]
  refine foldl_invariant (P := fun n' : DhtNode => n'.rpc = rpc) rfl (fun n' ran h => ?_) _
  rw [onSeedReply]
  split
  · exact (rpc_onRpcReply ..).trans h
  · split <;> exact (rpc_onRpcReply ..).trans h

theorem drives_onMaintenance (n : DhtNode) : Drives n (n.onMaintenance w) := by
  have hpinged : Drives n (n.pingNodes w) := by
    rw [pingNodes]
    refine foldl_invariant (P := Drives n) (drives_of_eq rfl) (fun n' node h => h.trans ?_) _
    exact drives_call n' (.query w.outside _) trivial rfl
  have hrefreshed : ((n.pingNodes w).refreshBucket w).rpc = (n.pingNodes w).rpc := by
    rw [refreshBucket]
    split_ifs
    · rfl
    · split <;> rfl
  exact hpinged.trans (drives_of_eq hrefreshed)

theorem drives_apply (crypto : Crypto) (n : DhtNode) {e : Event} (hopen : e ≠ .close) :
    Drives n (n.apply crypto e) := by
  cases e with
  | datagram w data sender =>
    rw [DhtNode.apply, handleDatagram]
    split
    next => exact drives_of_eq rfl
    next message _ =>
      split_ifs
      · exact drives_handleQuery ..
      · exact drives_call n (.reply w.outside.now message data sender) trivial (rpc_withRpc ..)
  | query o dest method arguments timeoutMs onSent => exact drives_sendQuery ..
  | addSeed w endpoint source =>
    rw [DhtNode.apply, DhtNode.addSeed]
    by_cases hother : (!endpoint.isValid || decide (endpoint.family ≠ n.config.family)) = true
    · rw [if_pos hother]
      exact drives_of_eq rfl
    · rw [if_neg hother]
      exact drives_call n (.query w.outside _) trivial rfl
  | setReadOnly readOnly =>
    rw [DhtNode.apply, DhtNode.setReadOnly]
    split_ifs
    · exact drives_of_eq rfl
    · exact drives_call n (.setReadOnly readOnly) trivial rfl
  | maintenance w => exact drives_onMaintenance n
  | drain o => exact drives_call n (.drain o) trivial rfl
  | expire now tids => exact drives_call n (.expire now tids) trivial rfl
  | resume w => exact drives_call n .resume trivial (rpc_withRpc ..)
  | deliver w => exact drives_call n .deliver trivial (rpc_withRpc ..)
  | setBudget budget => exact drives_call n (.setBudget budget) trivial rfl
  | setId | expireStorage | reorder => exact drives_of_eq rfl
  | close => exact absurd rfl hopen

/-- As long as a node is open, its manager keeps its queries. -/
theorem drives_run (crypto : Crypto) : ∀ {events : List Event} {n : DhtNode},
    .close ∉ events → Drives n (n.run crypto events)
  | [], _, _ => drives_of_eq rfl
  | e :: _, n, hopen =>
    (drives_apply crypto n fun h => hopen (h ▸ List.mem_cons_self)).trans
      (drives_run crypto (n := n.apply crypto e) fun h => hopen (List.mem_cons_of_mem _ h))

theorem Drives.sound (h : Drives n n') (hsound : n.rpc.Sound) : n'.rpc.Sound := by
  obtain ⟨events, heq, hkeeps⟩ := h
  rw [heq]
  exact RpcManager.sound_run hsound hkeeps

theorem Drives.encodes (h : Drives n n') (hsound : n.rpc.Sound) (hencodes : n.rpc.Encodes) :
    n'.rpc.Encodes := by
  obtain ⟨events, heq, hkeeps⟩ := h
  rw [heq]
  exact RpcManager.encodes_run hencodes hsound hkeeps

/-! ## Who is asked -/

open RpcManager

/-- The query to one of the closest nodes, and its number. -/
def queryTo (n : DhtNode) (method : Bytes) (arguments : Bytes → BValue.Dict)
    (contact : Lookup.Contact) (serial : ℕ) : Queued where
  serial
  dest := contact.endpoint
  method
  arguments := (arguments contact.token).insertOrAssign (ascii "id") (.string n.id.toBytes)
  version := n.config.version

/-- Those who gave a token. -/
def askable (contacts : List Lookup.Contact) : List Lookup.Contact :=
  contacts.filter (!·.token.isEmpty)

theorem Drives.log (h : Drives n n') : ∃ outputs, n'.rpc.log = n.rpc.log ++ outputs := by
  obtain ⟨events, heq, -⟩ := h
  rw [heq]
  clear heq
  generalize n.rpc = m
  induction events generalizing m with
  | nil => exact ⟨[], (List.append_nil _).symm⟩
  | cons e events ih =>
    obtain ⟨outputs, hlog, -⟩ := adds_apply m e
    obtain ⟨outputs', hrun⟩ := ih (m.apply e)
    exact ⟨outputs ++ outputs', by
      rw [RpcManager.run, List.foldl_cons, ← RpcManager.run, hrun, hlog, List.append_assoc]⟩

theorem Drives.asked (h : Drives n n') {serial : ℕ} {q : Queued}
    (hq : (callsOf n.rpc.log)[serial]? = some q) : (callsOf n'.rpc.log)[serial]? = some q := by
  obtain ⟨outputs, hlog⟩ := h.log
  rw [hlog]
  exact asked_append hq

/-- All who gave a token are asked, one after another, each with the token it gave. -/
theorem queryClosest_spec (o : ℕ → Outside) (method : Bytes) (arguments : Bytes → BValue.Dict) :
    ∀ (contacts : List Lookup.Contact) {n : DhtNode}, n.rpc.Sound →
      Drives n (n.queryClosest o method arguments contacts).1 ∧
      (n.queryClosest o method arguments contacts).2 =
        List.range' n.rpc.calls (askable contacts).length ∧
      List.Forall₂ (fun contact serial =>
        (callsOf (n.queryClosest o method arguments contacts).1.rpc.log)[serial]? =
          some (n.queryTo method arguments contact serial))
        (askable contacts) (n.queryClosest o method arguments contacts).2
  | [], n, _ => ⟨drives_of_eq rfl, rfl, .nil⟩
  | contact :: rest, n, hsound => by
    rw [queryClosest, askable, List.filter_cons]
    by_cases htoken : contact.token.isEmpty
    · rw [if_pos htoken, if_neg (by simp [htoken])]
      exact queryClosest_spec o method arguments rest hsound
    · rw [if_neg htoken, if_pos (by simp [htoken]), ← askable]
      have hsent := drives_sendQuery n (o n.rpc.calls) contact.endpoint method
        (arguments contact.token) 3000 false
      obtain ⟨hdrives, hserials, hasked⟩ :=
        queryClosest_spec o method arguments rest (hsent.sound hsound)
      have hcalls : (n.sendQuery (o n.rpc.calls) contact.endpoint method
          (arguments contact.token)).rpc.calls = n.rpc.calls + 1 := query_calls
      rw [hcalls] at hserials
      have hfirst : (callsOf (n.sendQuery (o n.rpc.calls) contact.endpoint method
          (arguments contact.token)).rpc.log)[n.rpc.calls]? =
          some (n.queryTo method arguments contact n.rpc.calls) := asked_query hsound _ _
      refine ⟨hsent.trans hdrives, ?_, .cons (hdrives.asked hfirst) hasked⟩
      rw [List.length_cons, List.range'_succ]
      exact congrArg (n.rpc.calls :: ·) hserials

theorem sound_rpc_new (config : NodeConfig) (id : NodeId) (budget : Option ContactBudget)
    (nextId : UInt16) : (new config id budget nextId).rpc.Sound :=
  have h := RpcManager.sound_new nextId
  ⟨h.1.congr rfl rfl rfl rfl rfl, h.2⟩

theorem encodes_rpc_new (config : NodeConfig) (id : NodeId) (budget : Option ContactBudget)
    (nextId : UInt16) : (new config id budget nextId).rpc.Encodes :=
  fun _ hx => absurd hx List.not_mem_nil

/-- What is sent for such a query, then or later, goes to one of the closest nodes, with the
    token it gave. -/
theorem sent_of_queryClosest {start : DhtNode} (hsound : start.rpc.Sound)
    (hencodes : start.rpc.Encodes) (hbefore : Drives start n) {o : ℕ → Outside} {method : Bytes}
    {arguments : Bytes → BValue.Dict} {closest : List Lookup.Contact}
    (hafter : Drives (n.queryClosest o method arguments closest).1 n') {serial : ℕ}
    {tid datagram : Bytes} {dest : Endpoint} {now : ℤ} {accepted charged : Bool}
    (hserial : serial ∈ (n.queryClosest o method arguments closest).2)
    (hsent : Output.handed serial tid datagram dest now accepted charged ∈ n'.rpc.log) :
    tid.length = 2 ∧ ∃ contact ∈ askable closest, dest = contact.endpoint ∧ ∃ readOnly,
      datagram = Krpc.encodeQuery tid method
        ((arguments contact.token).insertOrAssign (ascii "id") (.string n.id.toBytes))
        n.config.version readOnly := by
  obtain ⟨hdrives, -, hasked⟩ :=
    queryClosest_spec o method arguments closest (hbefore.sound hsound)
  obtain ⟨htid, q, readOnly, hq, hdest, hdatagram⟩ :=
    ((hbefore.trans hdrives).trans hafter).encodes hsound hencodes _ hsent
  -- The call of that number is the query to one of the closest nodes.
  obtain ⟨i, hi, rfl⟩ := List.getElem_of_mem hserial
  have hi' : i < (askable closest).length := hasked.length_eq ▸ hi
  have hcalled := hafter.asked ((List.forall₂_iff_get.1 hasked).2 i hi' hi)
  obtain rfl := Option.some.inj (hq.symm.trans hcalled)
  exact ⟨htid, (askable closest)[i], List.getElem_mem hi', hdest, readOnly, hdatagram⟩

/-! ## Told once -/

theorem foldl_countAccepted (replies : List RpcReply) (accepted : ℕ) :
    replies.foldl countAccepted accepted =
      accepted + replies.countP fun reply => reply.status = .Response := by
  induction replies generalizing accepted with
  | nil => rfl
  | cons reply replies ih =>
    rw [List.foldl_cons, ih, countAccepted, List.countP_cons]
    by_cases hresponse : reply.status = .Response
    · rw [if_pos hresponse, if_pos (decide_eq_true hresponse), Nat.add_right_comm, Nat.add_assoc]
    · rw [if_neg hresponse, if_neg (by simpa using hresponse), Nat.add_zero]

/-- Whoever had the closest nodes asked is told how many have accepted when all have
    answered or failed, and then only. -/
structure ToldOnce (closest : List Lookup.Contact) (serials : List ℕ)
    (log : List Output) : Prop where
  attempted : serials.length = (askable closest).length
  waiting : (∃ serial ∈ serials, serial ∉ (ranOf log).map (·.1)) → told serials log = []
  done : (∀ serial ∈ serials, serial ∈ (ranOf log).map (·.1)) →
    told serials log =
      [(ranOf log).countP fun ran => ran.1 ∈ serials ∧ ran.2.status = .Response]

theorem toldOnce_of_nodup {closest : List Lookup.Contact} {serials : List ℕ}
    {log : List Output} (hlen : serials.length = (askable closest).length)
    (hserials : serials.Nodup) (hran : ((ranOf log).map (·.1)).Nodup) :
    ToldOnce closest serials log := by
  have hcount : ((((ranOf log).filter (·.1 ∈ serials)).map (·.2)).foldl countAccepted 0) =
      (ranOf log).countP fun ran => ran.1 ∈ serials ∧ ran.2.status = .Response := by
    rw [foldl_countAccepted, Nat.zero_add, List.countP_map, List.countP_filter]
    refine List.countP_congr fun ran _ => ?_
    simp [and_comm]
  have hall : serials ⊆ ((ranOf log).filter (·.1 ∈ serials)).map (·.1) ↔
      ∀ serial ∈ serials, serial ∈ (ranOf log).map (·.1) := by
    refine ⟨fun h serial hserial => ?_, fun h serial hserial => ?_⟩
    · exact (List.filter_sublist.map _).subset (h hserial)
    · obtain ⟨ran, hmem, rfl⟩ := List.mem_map.1 (h serial hserial)
      exact List.mem_map_of_mem (List.mem_filter.2 ⟨hmem, decide_eq_true hserial⟩)
  have htold : told serials log = if ∀ serial ∈ serials, serial ∈ (ranOf log).map (·.1) then
      [(ranOf log).countP fun ran => ran.1 ∈ serials ∧ ran.2.status = .Response] else [] := by
    rw [told, ← hcount, ← if_congr hall rfl rfl]
    refine Join.reports_of_tickets countAccepted hserials (hran.sublist (List.filter_sublist.map _))
      (fun serial hserial => ?_) 0
    obtain ⟨ran, hmem, rfl⟩ := List.mem_map.1 hserial
    exact of_decide_eq_true (List.mem_filter.1 hmem).2
  refine ⟨hlen, fun ⟨serial, hserial, hwaits⟩ => ?_, fun h => ?_⟩
  · rw [htold, if_neg fun h => hwaits (h serial hserial)]
  · rw [htold, if_pos h]

theorem toldOnce_queryClosest (hsound : n.rpc.Sound) (o : ℕ → Outside) (method : Bytes)
    (arguments : Bytes → BValue.Dict) (closest : List Lookup.Contact)
    (h : Drives (n.queryClosest o method arguments closest).1 n') :
    ToldOnce closest (n.queryClosest o method arguments closest).2 n'.rpc.log := by
  obtain ⟨hdrives, hserials, hasked⟩ := queryClosest_spec o method arguments closest hsound
  refine toldOnce_of_nodup hasked.length_eq.symm ?_ ((hdrives.trans h).sound hsound).ran_nodup
  rw [hserials]
  exact List.nodup_range'

/-! ## What arrives -/

open Bencode

variable {r : PutRequest} {id : NodeId} {token : Bytes} {message : Krpc.Message}
  {sender : Endpoint} {datagram : Bytes}

/-- A query asks to put an item. -/
structure Conveys (r : PutRequest) (id : NodeId) (token : Bytes) (message : Krpc.Message)
    (datagram : Bytes) : Prop where
  type : message.type = .Query
  method : message.method = ascii "put"
  sender : message.senderId = some id
  token : message.body.stringAt (ascii "token") = some token
  value : rawValue message datagram = r.value
  key : message.body.stringAt (ascii "k") = if r.isMutable then some r.publicKey else none
  salt : r.isMutable → (message.body.stringAt (ascii "salt")).getD [] = r.salt
  sequence : r.isMutable → message.body.integerAt (ascii "seq") = some r.sequence
  signature : r.isMutable → message.body.stringAt (ascii "sig") = some r.signature
  cas : r.isMutable → message.body.integerAt (ascii "cas") = r.cas

theorem plainBut_arguments (h : r.WellFormed crypto) (token : Bytes) :
    PlainBut (ascii "v") r.value (r.arguments token) := by
  have hvalue : PlainBut (ascii "v") r.value
      ((BValue.Dict.emplace (ascii "token") (.string token) []).emplace (ascii "v")
        (.preEncoded r.value)) :=
    ((PlainBut.nil _ _).emplace (by decide) (plain_string _)).emplace_self rfl
  rw [PutRequest.arguments]
  dsimp only
  by_cases hmutable : r.isMutable
  · rw [if_pos hmutable]
    have hkeyed := hvalue.emplace (by decide : ascii "k" ≠ ascii "v") (plain_string r.publicKey)
    have hnumbered := hkeyed.emplace (by decide : ascii "seq" ≠ ascii "v")
      (plain_integer (h.sequence hmutable))
    have hsigned := hnumbered.emplace (by decide : ascii "sig" ≠ ascii "v")
      (plain_string r.signature)
    have hsalted := hsigned.emplace (by decide : ascii "salt" ≠ ascii "v") (plain_string r.salt)
    cases hcas : r.cas with
    | none =>
      dsimp only
      split_ifs
      · exact hsalted
      · exact hsigned
    | some cas =>
      have hplain := plain_integer (h.cas hmutable cas hcas)
      dsimp only
      split_ifs
      · exact hsalted.emplace (by decide) hplain
      · exact hsigned.emplace (by decide) hplain
  · rw [if_neg hmutable]
    exact hvalue

/-- What is among the arguments of a put. -/
theorem lookup_arguments (r : PutRequest) (token : Bytes) :
    (r.arguments token).lookup (ascii "token") = some (.string token) ∧
    (r.arguments token).lookup (ascii "v") = some (.preEncoded r.value) ∧
    (r.arguments token).lookup (ascii "k") =
      (if r.isMutable then some (.string r.publicKey) else none) ∧
    (r.isMutable → (r.arguments token).lookup (ascii "seq") = some (.integer r.sequence) ∧
      (r.arguments token).lookup (ascii "sig") = some (.string r.signature) ∧
      (r.arguments token).lookup (ascii "salt") =
        (if r.salt.isEmpty then none else some (.string r.salt)) ∧
      (r.arguments token).lookup (ascii "cas") = r.cas.map fun cas => .integer cas) := by
  obtain ⟨target, value, isMutable, publicKey, salt, signature, sequence, cas⟩ := r
  cases isMutable with
  | false => exact ⟨rfl, rfl, rfl, fun h => absurd h Bool.false_ne_true⟩
  | true => cases salt <;> cases cas <;> exact ⟨rfl, rfl, rfl, fun _ => ⟨rfl, rfl, rfl, rfl⟩⟩

/-- What is read of the arguments of a query: the plain ones as what they are, the one that was
    encoded before as its bytes, and nothing else. -/
structure Reads (arguments : BValue.Dict) (k : Bytes) (id : NodeId) (message : Krpc.Message)
    (datagram : Bytes) : Prop where
  type : message.type = .Query
  sender : message.senderId = some id
  string : ∀ {key s}, key ≠ ascii "id" → key ≠ k → arguments.lookup key = some (.string s) →
    message.body.stringAt key = some s
  integer : ∀ {key i}, key ≠ ascii "id" → key ≠ k → arguments.lookup key = some (.integer i) →
    message.body.integerAt key = some i
  absent : ∀ {key}, key ≠ ascii "id" → arguments.lookup key = none →
    message.body.stringAt key = none ∧ message.body.integerAt key = none
  raw : ∀ {v}, k ≠ ascii "id" → arguments.lookup k = some v →
    ∃ read, message.body.find k = some read ∧ read.rawSpan datagram = bencode v

theorem reads_of_query {arguments : BValue.Dict} {t : Tree} {k tid method version : Bytes}
    {readOnly : Bool} (ht : t.Fits 30) (hplain : PlainBut k t.source arguments)
    (hk : ascii "id" ≠ k)
    (hdatagram : datagram = Krpc.encodeQuery tid method
      (arguments.insertOrAssign (ascii "id") (.string id.toBytes)) version readOnly)
    (hlen : datagram.length < 10 ^ 10) :
    ∃ message, (Krpc.parse datagram).message = some message ∧ message.transactionId = tid ∧
      message.method = method ∧ Reads arguments k id message datagram := by
  subst hdatagram
  obtain ⟨message, hparse, htype, htid, hmethod, hnone, hread⟩ :=
    Krpc.parse_encodeQuery_spliced ht (hplain.insertOrAssign hk (plain_string id.toBytes)) hlen
  have hlookup : ∀ {key : Bytes}, key ≠ ascii "id" →
      (arguments.insertOrAssign (ascii "id") (.string id.toBytes)).lookup key =
        arguments.lookup key :=
    fun hne => BValue.Dict.lookup_insertOrAssign_of_ne hne ..
  refine ⟨message, hparse, htid, hmethod, htype, ?_, ?_, ?_, ?_, ?_⟩
  · obtain ⟨read, hfind, -, herase⟩ := hread _ _ (BValue.Dict.lookup_insertOrAssign ..)
    rw [Krpc.Message.senderId, stringAt_of_find hfind (herase hk), Option.bind_some,
      NodeId.fromBytes_toBytes]
  · intro key s hid hne hs
    obtain ⟨read, hfind, -, herase⟩ := hread key _ ((hlookup hid).trans hs)
    exact stringAt_of_find hfind (herase hne)
  · intro key i hid hne hi
    obtain ⟨read, hfind, -, herase⟩ := hread key _ ((hlookup hid).trans hi)
    exact integerAt_of_find hfind (herase hne)
  · intro key hid hkey
    have hfind := hnone key ((hlookup hid).trans hkey)
    exact ⟨by rw [BValue.stringAt, hfind], by rw [BValue.integerAt, hfind]⟩
  · intro v hid hv
    obtain ⟨read, hfind, hspan, -⟩ := hread k _ ((hlookup hid).trans hv)
    exact ⟨read, hfind, hspan⟩

/-- The query of a put conveys the item: whoever parses it reads it as it was put. -/
theorem conveys_of_query (h : r.WellFormed crypto) {tid version : Bytes} {readOnly : Bool}
    (hdatagram : datagram = Krpc.encodeQuery tid (ascii "put")
      ((r.arguments token).insertOrAssign (ascii "id") (.string id.toBytes)) version readOnly)
    (hlen : datagram.length < 10 ^ 10) :
    ∃ message, (Krpc.parse datagram).message = some message ∧ message.transactionId = tid ∧
      Conveys r id token message datagram := by
  obtain ⟨t, ht, hvalue⟩ := h.bencoded
  have hplain := plainBut_arguments h token
  rw [hvalue] at hplain
  obtain ⟨message, hparse, htid, hmethod, hreads⟩ :=
    reads_of_query ht hplain (by decide) hdatagram hlen
  obtain ⟨htoken, hv, hk, hmutable⟩ := lookup_arguments r token
  refine ⟨message, hparse, htid, hreads.type, hmethod, hreads.sender,
    hreads.string (by decide) (by decide) htoken, ?_, ?_, fun hm => ?_, fun hm => ?_,
    fun hm => ?_, fun hm => ?_⟩
  · obtain ⟨read, hfind, hspan⟩ := hreads.raw (by decide) hv
    rw [rawValue, hfind, Option.map_some, Option.getD_some, hspan]
    rfl
  · by_cases hm : r.isMutable
    · rw [if_pos hm] at hk ⊢
      exact hreads.string (by decide) (by decide) hk
    · rw [if_neg hm] at hk ⊢
      exact (hreads.absent (by decide) hk).1
  · obtain ⟨-, -, hsalt, -⟩ := hmutable hm
    split_ifs at hsalt with hempty
    · rw [(hreads.absent (by decide) hsalt).1, List.isEmpty_iff.1 hempty]
      rfl
    · rw [hreads.string (by decide) (by decide) hsalt, Option.getD_some]
  · exact hreads.integer (by decide) (by decide) (hmutable hm).1
  · exact hreads.string (by decide) (by decide) (hmutable hm).2.1
  · obtain ⟨-, -, -, hcas⟩ := hmutable hm
    cases hc : r.cas with
    | none =>
      rw [hc] at hcas
      exact (hreads.absent (by decide) hcas).2
    | some cas =>
      rw [hc] at hcas
      exact hreads.integer (by decide) (by decide) hcas

/-- A put of an immutable item within the limit is answered as a response. -/
theorem answerTo_putImmutable {items : ItemStorage} {target : NodeId} {value : Bytes} {now : ℤ}
    (hlen : value.length ≤ Bep44.MaxValueBytes) :
    answerTo (items.putImmutable target value now).2 = .response [] := by
  apply ItemStorage.putImmutable_cases (R := fun r => answerTo r.2 = .response [])
  case tooBig => exact fun h => absurd hlen (not_le.2 h)
  case refreshed => exact fun _ _ => rfl
  case stored => exact fun _ _ => rfl

/-- A node that has given the token tries to store the item. -/
theorem handlePut_of_conveys (h : Conveys r id token message datagram) (hr : r.WellFormed crypto)
    (hvalid : (n.tokens.validate crypto w.secrets token sender.address w.now).2) :
    n.handlePut crypto w message sender datagram =
      ({ n with
          tokens := (n.tokens.validate crypto w.secrets token sender.address w.now).1
          items := (r.tryAt crypto n.items w.now).1 },
        answerTo (r.tryAt crypto n.items w.now).2) := by
  have hne : ¬r.value.isEmpty := by
    obtain ⟨t, ht, hvalue⟩ := hr.bencoded
    have := Tree.length_source_pos ht
    rw [List.isEmpty_iff_length_eq_zero, hvalue]
    omega
  rw [handlePut]
  dsimp only
  rw [← rawValue, h.value, h.token]
  dsimp only
  rw [if_neg (by simp [hvalid]), if_neg hne, if_neg (not_lt.2 hr.length_le), h.key]
  rw [PutRequest.tryAt]
  by_cases hm : r.isMutable
  · rw [if_pos hm, if_pos hm]
    have hverified := hr.signed hm
    obtain ⟨hsig, hkey⟩ : r.signature.length = Bep44.SignatureBytes ∧
        r.publicKey.length = Bep44.PublicKeyBytes := by
      rw [Bep44.verify] at hverified
      by_cases hlen : r.signature.length ≠ Bep44.SignatureBytes ∨
          r.publicKey.length ≠ Bep44.PublicKeyBytes
      · rw [if_pos hlen] at hverified
        simp at hverified
      · rwa [not_or, not_not, not_not] at hlen
    dsimp only
    rw [handleMutablePut, if_neg (not_not.2 hkey), h.salt hm]
    dsimp only
    rw [if_neg (not_lt.2 (hr.salt hm)), h.sequence hm, h.signature hm, h.cas hm]
    dsimp only
    rw [if_neg (not_not.2 hsig), hverified]
    rfl
  · rw [if_neg hm, if_neg hm, answerTo_putImmutable hr.length_le]

theorem fits_nothing : (Tree.string ⟨Decimal.digits ([] : Bytes).length, []⟩).Fits 30 := by
  rw [Tree.Fits]
  exact ok_text (by decide)

theorem parse_response (n : DhtNode) (message : Krpc.Message) (sender : Endpoint)
    (hlen : (n.datagramOf message sender (.response [])).length < 10 ^ 10) :
    ∃ answer, (Krpc.parse (n.datagramOf message sender (.response []))).message = some answer ∧
      answer.transactionId = message.transactionId ∧ answer.type = .Response := by
  obtain ⟨answer, hparse, htype, htid, -⟩ := Krpc.parse_encodeResponse (k := ascii "v")
    fits_nothing ((PlainBut.nil _ _).insertOrAssign (by decide : ascii "id" ≠ ascii "v")
      (plain_string n.id.toBytes)) hlen
  exact ⟨answer, hparse, htid, htype⟩

theorem parse_error (n : DhtNode) (message : Krpc.Message) (sender : Endpoint) {code : ℤ}
    {text : Bytes} (hcode : IsInt64 code) (htext : text.length < 10 ^ 10)
    (htid : message.transactionId.length < 10 ^ 10)
    (hlen : (n.datagramOf message sender (.error code text)).length < 10 ^ 10) :
    ∃ answer, (Krpc.parse (n.datagramOf message sender (.error code text))).message =
      some answer ∧ answer.transactionId = message.transactionId ∧ answer.type = .Error := by
  have hversion : n.config.version.length < 10 ^ 10 := by
    by_cases hempty : n.config.version.isEmpty
    · rw [List.isEmpty_iff.1 hempty]
      decide
    · have hmem : (ascii "v", BValue.string n.config.version) ∈
          Krpc.errorRoot message.transactionId code text n.config.version := by
        obtain ⟨before, after, heq, -⟩ := List.lookup_eq_some_iff.1 (show
          (Krpc.errorRoot message.transactionId code text n.config.version).lookup (ascii "v") =
            some (.string n.config.version) by
          rw [Krpc.errorRoot, if_pos (by simpa using hempty)]
          rfl)
        rw [heq]
        exact List.mem_append_right _ List.mem_cons_self
      have hle := (length_bencode_entry hmem).trans_lt hlen
      rw [bencode, List.length_append] at hle
      omega
  obtain ⟨⟨answer, hparse, herase⟩, -⟩ := Krpc.parses_encodeError htid hcode htext hversion
  have htid' : answer.erase.transactionId = message.transactionId := by rw [herase]; rfl
  have htype : answer.erase.type = .Error := by rw [herase]; rfl
  refine ⟨answer, ?_, htid', htype⟩
  rw [datagramOf, hparse]

/-- The answer to a put parses, under the id of the query, as a response if the item is now
    held, and as an error else. -/
theorem parse_answerTo (n : DhtNode) (message : Krpc.Message) (sender : Endpoint)
    (result : PutResult) (htid : message.transactionId.length < 10 ^ 10)
    (hlen : (n.datagramOf message sender (answerTo result)).length < 10 ^ 10) :
    ∃ answer, (Krpc.parse (n.datagramOf message sender (answerTo result))).message = some answer ∧
      answer.transactionId = message.transactionId ∧
      answer.type = if result = .Stored ∨ result = .Refreshed then .Response else .Error := by
  cases result with
  | Stored => exact n.parse_response message sender hlen
  | Refreshed => exact n.parse_response message sender hlen
  | CasMismatch => exact n.parse_error message sender (by decide) (by decide) htid hlen
  | SequenceTooLow => exact n.parse_error message sender (by decide) (by decide) htid hlen
  | TooBig => exact n.parse_error message sender (by decide) (by decide) htid hlen
  | SaltTooLong => exact n.parse_error message sender (by decide) (by decide) htid hlen

/-- A node hears a query, and has given the token in it. -/
structure Admits (crypto : Crypto) (w : Surroundings) (n : DhtNode) (token : Bytes)
    (sender : Endpoint) : Prop where
  allowed : (n.limiter.allow sender.address w.now).2
  heard : n.config.readOnly = false
  valid : (n.tokens.validate crypto w.secrets token sender.address w.now).2

/-- A node takes an item from a datagram: it tries to store it, and what it answers parses, under
    the id of the query, as a response just if it holds the item. -/
def Takes (crypto : Crypto) (w : Surroundings) (n : DhtNode) (r : PutRequest) (tid : Bytes)
    (sender : Endpoint) (datagram : Bytes) : Prop :=
  (n.handleDatagram crypto w datagram sender).1.items = (r.tryAt crypto n.items w.now).1 ∧
    ∃ reply, (n.handleDatagram crypto w datagram sender).2 = some reply ∧
      (reply.length < 10 ^ 10 → ∃ answer, (Krpc.parse reply).message = some answer ∧
        answer.transactionId = tid ∧
        answer.type = if (r.tryAt crypto n.items w.now).2 = .Stored ∨
          (r.tryAt crypto n.items w.now).2 = .Refreshed then .Response else .Error)

theorem keeps_noteSender (n : DhtNode) (message : Krpc.Message) (id : NodeId)
    (sender : Endpoint) : (n.noteSender w message id sender).tokens = n.tokens ∧
      (n.noteSender w message id sender).storage = n.storage := by
  rw [noteSender]
  dsimp only
  split_ifs
  · exact ⟨rfl, rfl⟩
  · exact ⟨rfl, rfl⟩
  · rw [maybeVerify]
    split_ifs <;> exact ⟨rfl, rfl⟩

/-- A query that is heard is answered by its method, nothing having become of what is kept for
    others before. -/
theorem handleDatagram_of_query (hadmits : n.Admits crypto w token sender)
    (hparse : (Krpc.parse datagram).message = some message) (htype : message.type = .Query)
    (hid : message.senderId = some id) :
    ∃ n' : DhtNode, n'.items = n.items ∧ n'.storage = n.storage ∧ n'.tokens = n.tokens ∧
      n.handleDatagram crypto w datagram sender =
        ((n'.dispatch crypto w message sender datagram).1,
          some ((n'.dispatch crypto w message sender datagram).1.datagramOf message sender
            (n'.dispatch crypto w message sender datagram).2)) := by
  obtain ⟨htokens, hstorage⟩ := keeps_noteSender (w := w)
    { n with limiter := (n.limiter.allow sender.address w.now).1 } message id sender
  refine ⟨noteSender w { n with limiter := (n.limiter.allow sender.address w.now).1 } message id
    sender, items_noteSender .., hstorage, htokens, ?_⟩
  rw [handleDatagram, hparse]
  dsimp only
  rw [if_pos htype, handleQuery]
  dsimp only
  rw [hadmits.allowed, if_neg (by simp), hadmits.heard, if_neg (by simp), hid]
  rfl

theorem takes_of_conveys (hr : r.WellFormed crypto) (hadmits : n.Admits crypto w token sender)
    (hparse : (Krpc.parse datagram).message = some message)
    (h : Conveys r id token message datagram) (htid : message.transactionId.length < 10 ^ 10) :
    n.Takes crypto w r message.transactionId sender datagram := by
  obtain ⟨n', hitems, -, htokens, hhandled⟩ :=
    handleDatagram_of_query hadmits hparse h.type h.sender
  rw [dispatch_put crypto w n' sender datagram h.method] at hhandled
  rw [handlePut_of_conveys h hr (by rw [htokens]; exact hadmits.valid), hitems] at hhandled
  rw [Takes, hhandled]
  exact ⟨rfl, _, rfl, parse_answerTo _ message sender _ htid⟩

/-! ## Announcements -/

variable {infohash : NodeId} {port : UInt16} {impliedPort : Bool}

theorem plainBut_announceArguments (raw : Bytes) :
    PlainBut (ascii "v") raw (announceArguments infohash port impliedPort token) := by
  have hport : IsInt64 port.toNat := by
    have := port.toNat_lt
    constructor <;> omega
  have hplain : PlainBut (ascii "v") raw
      (((BValue.Dict.emplace (ascii "info_hash") (.string infohash.toBytes) []).emplace
        (ascii "port") (.integer port.toNat)).emplace (ascii "token") (.string token)) :=
    (((PlainBut.nil _ _).emplace (by decide) (plain_string _)).emplace (by decide)
      (plain_integer hport)).emplace (by decide) (plain_string _)
  rw [announceArguments]
  split_ifs
  · exact hplain.emplace (by decide) (plain_integer (by decide))
  · exact hplain

/-- The port that is announced. -/
def announcedPort (port : UInt16) (impliedPort : Bool) (sender : Endpoint) : UInt16 :=
  if impliedPort then sender.port else port

/-- What a node does that has given the token: it keeps the peer, unless its port is zero. -/
def Keeps (crypto : Crypto) (w : Surroundings) (n : DhtNode) (infohash : NodeId) (port : UInt16)
    (tid : Bytes) (sender : Endpoint) (datagram : Bytes) : Prop :=
  (n.handleDatagram crypto w datagram sender).1.storage =
      (if port = 0 then n.storage
      else n.storage.announce infohash (Endpoint.of sender.address port) w.now) ∧
    ∃ reply, (n.handleDatagram crypto w datagram sender).2 = some reply ∧
      (reply.length < 10 ^ 10 → ∃ answer, (Krpc.parse reply).message = some answer ∧
        answer.transactionId = tid ∧ answer.type = if port = 0 then .Error else .Response)

theorem announcePeer_of_reads
    (h : Reads (announceArguments infohash port impliedPort token) (ascii "v") id message datagram)
    (hvalid : (n.tokens.validate crypto w.secrets token sender.address w.now).2) :
    n.announcePeer crypto w message sender =
      if announcedPort port impliedPort sender = 0 then
        ({ n with tokens := (n.tokens.validate crypto w.secrets token sender.address w.now).1 },
          protocolError "invalid port")
      else
        ({ n with
            tokens := (n.tokens.validate crypto w.secrets token sender.address w.now).1
            storage := n.storage.announce infohash
              (Endpoint.of sender.address (announcedPort port impliedPort sender)) w.now },
          .response []) := by
  have hinfohash : message.body.stringAt (ascii "info_hash") = some infohash.toBytes := by
    refine h.string (by decide) (by decide) ?_
    cases impliedPort <;> rfl
  have htoken : message.body.stringAt (ascii "token") = some token := by
    refine h.string (by decide) (by decide) ?_
    cases impliedPort <;> rfl
  have hport : message.body.integerAt (ascii "port") = some (port.toNat : ℤ) := by
    refine h.integer (by decide) (by decide) ?_
    cases impliedPort <;> rfl
  -- The key is left out where the port is not implied, and counts as 0 then.
  have himplied : (message.body.integerAt (ascii "implied_port")).getD 0 = 1 ↔ impliedPort := by
    cases impliedPort with
    | false =>
      rw [(h.absent (by decide) rfl).2]
      decide
    | true =>
      rw [h.integer (i := 1) (by decide) (by decide) rfl]
      decide
  have hannounced : (if (message.body.integerAt (ascii "implied_port")).getD 0 = 1 then
      (sender.port.toNat : ℤ) else (message.body.integerAt (ascii "port")).getD 0) =
      (announcedPort port impliedPort sender).toNat := by
    rw [hport, Option.getD_some, announcedPort, if_congr himplied rfl rfl]
    split_ifs <;> rfl
  have hinvalid : (((announcedPort port impliedPort sender).toNat : ℤ) < 1 ∨
      ((announcedPort port impliedPort sender).toNat : ℤ) > 65535) ↔
      announcedPort port impliedPort sender = 0 := by
    have hlt := (announcedPort port impliedPort sender).toNat_lt
    rw [← UInt16.toNat_inj, UInt16.toNat_zero]
    omega
  rw [announcePeer, idAt, hinfohash, Option.getD_some, NodeId.fromBytes_toBytes]
  dsimp only
  rw [htoken]
  dsimp only
  rw [if_neg (by simp [hvalid]), hannounced, if_congr hinvalid rfl rfl, Int.toNat_natCast,
    UInt16.ofNat_toNat]

theorem keeps_of_reads (hadmits : n.Admits crypto w token sender)
    (hparse : (Krpc.parse datagram).message = some message)
    (hmethod : message.method = ascii "announce_peer")
    (h : Reads (announceArguments infohash port impliedPort token) (ascii "v") id message datagram)
    (htid : message.transactionId.length < 10 ^ 10) :
    n.Keeps crypto w infohash (announcedPort port impliedPort sender) message.transactionId sender
      datagram := by
  obtain ⟨n', -, hstorage, htokens, hhandled⟩ :=
    handleDatagram_of_query hadmits hparse h.type h.sender
  have hdispatch : n'.dispatch crypto w message sender datagram =
      n'.announcePeer crypto w message sender := by
    rw [dispatch, if_neg (by rw [hmethod]; decide), if_neg (by rw [hmethod]; decide),
      if_neg (by rw [hmethod]; decide), if_pos hmethod]
  rw [hdispatch, announcePeer_of_reads h (by rw [htokens]; exact hadmits.valid), hstorage]
    at hhandled
  rw [Keeps, hhandled]
  split_ifs
  · exact ⟨rfl, _, rfl, parse_error _ message sender (by decide) (by decide) htid⟩
  · exact ⟨rfl, _, rfl, parse_response _ message sender⟩

/-- Whatever a node sends for an announcement, in any run, has whoever has given the token in it
    keep the peer, with the address that it comes from. -/
theorem announce_kept (crypto : Crypto) (config : NodeConfig) (id : NodeId)
    (budget : Option ContactBudget) (nextId : UInt16) (before after : List Event)
    (o : ℕ → Outside) (infohash : NodeId) (port : UInt16) (impliedPort : Bool)
    (closest : List Lookup.Contact) (hbefore : .close ∉ before) (hafter : .close ∉ after)
    (serial : ℕ) (tid datagram : Bytes) (dest : Endpoint) (at_ : ℤ) (accepted charged : Bool)
    (hserial : serial ∈ (((new config id budget nextId).run crypto before).announce o infohash port
      impliedPort closest).2)
    (hsent : Output.handed serial tid datagram dest at_ accepted charged ∈
      ((((new config id budget nextId).run crypto before).announce o infohash port impliedPort
        closest).1.run crypto after).rpc.log)
    (hlen : datagram.length < 10 ^ 10) :
    ∃ contact ∈ askable closest, dest = contact.endpoint ∧
      ∀ (w : Surroundings) (keeper : DhtNode) (sender : Endpoint),
        keeper.Admits crypto w contact.token sender →
        keeper.Keeps crypto w infohash (announcedPort port impliedPort sender) tid sender
          datagram := by
  obtain ⟨htid, contact, hcontact, hdest, readOnly, hdatagram⟩ :=
    sent_of_queryClosest (sound_rpc_new config id budget nextId) (encodes_rpc_new config id budget
      nextId) (drives_run crypto hbefore) (drives_run crypto hafter) hserial hsent
  refine ⟨contact, hcontact, hdest, fun w keeper sender hadmits => ?_⟩
  obtain ⟨message, hparse, rfl, hmethod, hreads⟩ :=
    reads_of_query fits_nothing (plainBut_announceArguments _) (by decide) hdatagram hlen
  exact keeps_of_reads hadmits hparse hmethod hreads (by omega)

/-- A node that has given a token. -/
def giver : Lookup.Contact := ⟨default, host, Endpoint.bytesOf 8 0x2b8ea1e3273d0462⟩

/-- The node that gave the token keeps the peer, under the port that the announcement came from. -/
theorem announce_kept_implied : ∃ datagram,
    (new {} default none 0).Keeps known { now := 1 } default 6881 (tidOf 0) host datagram := by
  obtain ⟨now, charged, hsent⟩ := handed_of_sent (m := (new {} default none 0).rpc)
    (o := { now := 0 }) (q := (new {} default none 0).queryTo (ascii "announce_peer")
      (announceArguments default 0 true) giver 0) rfl (by decide +kernel) rfl
    (AList.notMem_empty _)
  obtain ⟨contact, hcontact, -, hkeeps⟩ := announce_kept known {} default none 0 [] []
    (fun _ => { now := 0 }) default 0 true [giver] List.not_mem_nil List.not_mem_nil 0 _ _ host now
    true charged List.mem_cons_self hsent (by decide +kernel)
  obtain rfl := List.mem_singleton.1 (List.mem_of_mem_filter hcontact)
  exact ⟨_, hkeeps { now := 1 } (new {} default none 0) host
    ⟨by decide +kernel, rfl, by decide +kernel⟩⟩

end DhtNode

end Dht
