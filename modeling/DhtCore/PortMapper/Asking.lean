import DhtCore.PortMapper.Basic
import DhtCore.Upnp.Runs

/-!
# The mapping that is asked for

The mapper asks for one mapping at a time (`Standing.current`). Of every event it is shown

* that the mapper can release the mapping in the state `Mapped` (`Standing.Sound`,
  `sound_apply`);
* that it goes on asking for the same one (`current_apply`), unless it gives it up
  (`givesUp`): for another protocol, another port, another service, or for good.

What the gateway grants, and when, plays no part in it.
-/

namespace Dht

open Upnp

namespace PortMapper

/-- What a gateway knows a mapping by. -/
inductive Mapping
  | pcp (gateway : HostAddress) (gatewayPort : UInt16) (nonce : Bytes) (internalPort : UInt16)
  | natPmp (gateway : HostAddress) (gatewayPort internalPort : UInt16)
  | upnp (service : Service) (externalPort : UInt16)
  deriving DecidableEq

/-- Whether UPnP asks for a mapping at a stage, or has one. -/
def isAsking : Stage → Bool
  | .Mapping | .Renewing | .AskingAddress | .Mapped => true
  | .Idle | .Searching | .Describing => false

/-- The mapping that UPnP asks for, or has. -/
def upnpMapping (u : UpnpIgd) : Option Mapping :=
  if isAsking u.stage then u.services[u.serviceIndex]?.map (.upnp · u.externalPort) else none

/-- What the mapper knows of its mapping. -/
structure Standing where
  protocol : Protocol
  state : MappingState
  socket : Bool
  gateway : HostAddress
  gatewayPort : UInt16
  nonce : Bytes
  internalPort : UInt16
  upnp : UpnpIgd

variable (qt : Qt) (o : Outside) (m : PortMapper)

/-- What a mapper knows of its mapping. -/
def standing : Standing where
  protocol := m.protocol
  state := m.snapshot.state
  socket := m.socket
  gateway := m.gateway
  gatewayPort := m.gatewayPort
  nonce := m.nonce
  internalPort := m.snapshot.internalPort
  upnp := m.upnp

/-- The mapping that is asked for. -/
def Standing.current (s : Standing) : Option Mapping :=
  match s.protocol with
  | .Pcp => if s.socket then some (.pcp s.gateway s.gatewayPort s.nonce s.internalPort) else none
  | .NatPmp => if s.socket then some (.natPmp s.gateway s.gatewayPort s.internalPort) else none
  | .Upnp => upnpMapping s.upnp

/-- Whether UPnP has a mapping that it can drop. -/
def Holds (u : UpnpIgd) : Prop := u.stage = .Mapped ∨ u.stage = .Renewing

/-- What is in the state `Mapped` can be released. -/
structure Standing.Sound (s : Standing) : Prop where
  upnp : s.upnp.Sound
  nonce : s.state = .Mapped → s.protocol = .Pcp → s.nonce.length = 12
  socket : s.state = .Mapped → s.protocol ≠ .Upnp → s.socket
  holds : s.state = .Mapped → s.protocol = .Upnp → Holds s.upnp

/-! ## Giving up -/

/-- Whether a datagram is from the gateway. -/
def isFromGateway (d : Received) : Bool :=
  normalizeAddress d.sender.address = m.gateway && d.sender.port = m.gatewayPort

/-- The MAP response of PCP. -/
def isMapResponse (data : Bytes) : Bool :=
  data.getD 0 0 = 2 && data.getD 1 0 &&& 0x80 ≠ 0 && data.getD 1 0 &&& 0x7f = 1

/-- A MAP response with an error, or any answer of NAT-PMP. -/
def isPcpRefusal (data : Bytes) : Bool :=
  data.getD 0 0 = 0 || isMapResponse data && data.getD 3 0 ≠ 0 && 24 ≤ data.length

/-- A UDP mapping response with an error. -/
def isNatPmpRefusal (data : Bytes) : Bool :=
  data.getD 0 0 = 0 && data.getD 1 0 = 129 && numberAt data 2 2 ≠ 0 && 4 ≤ data.length

/-- Whether the protocol is given up at a datagram. -/
def isRefusal (d : Received) : Bool :=
  m.isFromGateway d && 2 ≤ d.data.length &&
    match m.protocol with
    | .Pcp => isPcpRefusal d.data
    | .NatPmp => isNatPmpRefusal d.data
    | .Upnp => false

/-- Whether the protocol is given up at one of some datagrams. -/
def refusesAny : PortMapper → List Received → Bool
  | _, [] => false
  | m, d :: rest => m.isRefusal d || refusesAny (m.onDatagram qt o d) rest

/-- Whether a request to add a mapping finishes, and is heard of. -/
def isAdding (serial : ℕ) : Bool :=
  (m.upnp.inFlight.find? (·.serial = serial)).any fun r =>
    r.generation = m.upnp.generation && r.handler = .onAddMapping

/-- Whether UPnP, its port or its service is given up at a reply. -/
def isUpnpRefusal (serial : ℕ) (reply : HttpReply) (draw : ℕ) : Bool :=
  let result := parseSoapResponse qt reply.status reply.body
  m.isAdding serial && !result.ok &&
    if result.errorCode = 718 ∧ m.upnp.conflicts < UpnpIgd.MaxConflictRetries then
      UpnpIgd.drawPort draw ≠ m.upnp.externalPort
    else ¬(result.errorCode = 725 ∧ m.upnp.lease ≠ 0)

/-- Whether the mapper is stopped at an event, be it to start anew. -/
def isStop : Event → Bool
  | .start _ | .stop => true
  | _ => false

/-- Whether the mapping that is asked for is given up, other than by a call. -/
def givesUp : Event → Bool
  | .retryTimeout => m.retryTimer.isSome && m.retryDelays.1.length ≤ m.attempt + 1
  | .readyRead pending => m.socket && refusesAny qt o m pending
  | .upnpFinished serial reply draw => m.isUpnpRefusal qt serial reply draw
  | _ => false

variable {qt o m} {m' : PortMapper} {s : Standing} {k : Mapping} {d : Received}
  {u u' u'' : UpnpIgd} {h : Happening} {hs : List Happening}

/-! ## What UPnP tells -/

/-- The signal that a mapping stands. -/
def isMapped : Happening → Bool
  | .mapped .. => true
  | _ => false

/-- Nothing is told of a mapping that stands. -/
def Silent (u u' : UpnpIgd) : Prop :=
  ∃ hs, u'.log = u.log ++ hs ∧ ∀ h ∈ hs, isMapped h = false

theorem Silent.refl (u : UpnpIgd) : Silent u u := ⟨[], (List.append_nil _).symm, nofun⟩

theorem Silent.trans (h : Silent u u') (h' : Silent u' u'') : Silent u u'' := by
  obtain ⟨hs, hlog, hall⟩ := h
  obtain ⟨hs', hlog', hall'⟩ := h'
  refine ⟨hs ++ hs', by rw [hlog', hlog, List.append_assoc], fun h hh => ?_⟩
  exact (List.mem_append.1 hh).elim (hall h) (hall' h)

theorem silent_concat (hlog : u'.log = u.log ++ [h]) (hnot : isMapped h = false) :
    Silent u u' := ⟨[h], hlog, by simpa using hnot⟩

theorem silent_post (action : String) (arguments : List (String × String)) (handler : Handler) :
    Silent u (u.post action arguments handler) := by
  rw [UpnpIgd.post]
  cases u.services[u.serviceIndex]? with
  | none => exact .refl u
  | some service => exact silent_concat rfl rfl

theorem silent_addMapping (u : UpnpIgd) (qt : Qt) : Silent u (u.addMapping qt) :=
  (silent_concat rfl rfl).trans (silent_post ..)

theorem silent_describe (u : UpnpIgd) (location : Url) : Silent u (u.describe location) :=
  ⟨[_, _], List.append_assoc .., by simp [isMapped]⟩

theorem silent_tryNextLocation (u : UpnpIgd) (why : String) :
    Silent u (u.tryNextLocation why) := by
  rw [UpnpIgd.tryNextLocation]
  dsimp only
  cases u.locations[u.nextLocation + 1]? with
  | none => exact silent_concat rfl rfl
  | some location => exact silent_describe _ location

theorem silent_onSearchTimeout (u : UpnpIgd) : Silent u u.onSearchTimeout := by
  rw [UpnpIgd.onSearchTimeout]
  split_ifs
  · exact .refl u
  · dsimp only
    split
    · exact silent_describe _ _
    · split_ifs
      · exact ⟨[_, _], List.append_assoc .., by simp [isMapped]⟩
      · exact silent_concat rfl rfl

theorem silent_onDatagrams (pending : List Datagram) :
    Silent u (UpnpIgd.onDatagrams qt pending u) := by
  induction pending generalizing u with
  | nil => exact .refl u
  | cons datagram rest ih =>
    rw [UpnpIgd.onDatagrams]
    cases parseSearchResponse qt datagram.data with
    | none => exact ih
    | some response =>
      dsimp only
      split_ifs
      · exact ih
      · exact ih
      · exact silent_describe _ _
      · exact ih

theorem silent_onDescription (u : UpnpIgd) (reply : HttpReply) :
    Silent u (u.onDescription qt reply) := by
  rw [UpnpIgd.onDescription]
  dsimp only
  split_ifs
  · exact silent_tryNextLocation u.clearReply _
  · exact (silent_concat rfl rfl).trans (silent_tryNextLocation ..)
  · exact (silent_concat rfl rfl).trans (silent_addMapping ..)

/-- A first mapping does not stand as long as its address is not known. -/
theorem silent_onAddMapping (hstage : u.stage ≠ .Renewing) (reply : HttpReply) (draw : ℕ) :
    Silent u (u.onAddMapping qt reply draw) := by
  have hstage' : u.clearReply.stage ≠ .Renewing := hstage
  rw [UpnpIgd.onAddMapping]
  split_ifs
  · exact silent_post (u := { u.clearReply with stage := .AskingAddress }) ..
  · exact silent_addMapping { u.clearReply with conflicts := _, externalPort := _ } qt
  · exact silent_addMapping { u.clearReply with lease := 0 } qt
  · exact silent_addMapping { u.clearReply with serviceIndex := _ } qt
  · exact silent_tryNextLocation u.clearReply _
  · exact silent_concat rfl rfl

theorem silent_start (u : UpnpIgd) (gateway localAddress : HostAddress)
    (internalPort suggested : UInt16) (leaseSeconds : UInt32) (bindsLocal bindsAny : Bool)
    (error : String) : ∀ h ∈ (u.start gateway localAddress internalPort suggested leaseSeconds
      bindsLocal bindsAny error).log, isMapped h = false := by
  rw [UpnpIgd.start]
  split
  · exact fun h hh => List.mem_singleton.1 hh ▸ rfl
  · exact fun h hh => List.mem_singleton.1 hh ▸ rfl
  · split_ifs
    · simp [UpnpIgd.search, UpnpIgd.emit, UpnpIgd.reset, isMapped]
    · exact fun h hh => List.mem_singleton.1 hh ▸ rfl

/-- What is told of a mapping: that it stands only if UPnP holds it, and that it failed if UPnP
    did hold it and does no more. -/
def Tells (u u' : UpnpIgd) : Prop :=
  ∃ hs, u'.log = u.log ++ hs ∧ (Holds u' ∨
    (∀ h ∈ hs, isMapped h = false) ∧ (Holds u → ∃ message, Happening.failed message ∈ hs))

theorem Silent.tells (h : Silent u u') (hnot : ¬Holds u) : Tells u u' :=
  h.imp fun _ hhs => ⟨hhs.1, .inr ⟨hhs.2, fun hholds => absurd hholds hnot⟩⟩

theorem Tells.refl (u : UpnpIgd) : Tells u u := by
  by_cases hholds : Holds u
  · exact ⟨[], (List.append_nil _).symm, .inl hholds⟩
  · exact (Silent.refl u).tells hholds

/-- Nothing is heard of a request that finishes, or what the stage waits for is. -/
theorem finished_cases (qt : Qt) (h : u.Sound) (serial : ℕ) (reply : HttpReply) (draw : ℕ) :
    u.inFlight.find? (·.serial = serial) = none ∧
        u.apply qt (.finished serial reply draw) = u ∨
      ∃ r, u.inFlight.find? (·.serial = serial) = some r ∧ r.generation = u.generation ∧
        u.stage.handler = some r.handler ∧ u.apply qt (.finished serial reply draw) =
          { u with inFlight := [] }.handle qt reply draw r.handler := by
  rw [UpnpIgd.apply]
  cases hfind : u.inFlight.find? (·.serial = serial) with
  | none => exact .inl ⟨rfl, rfl⟩
  | some r =>
    have hr := List.mem_of_find?_eq_some hfind
    cases hhandler : u.stage.handler with
    | none =>
      rw [h.quiet hhandler] at hr
      cases hr
    | some handler =>
      obtain ⟨serial', -, hinFlight⟩ := h.waiting handler hhandler
      rw [hinFlight, List.mem_singleton] at hr
      refine .inr ⟨r, rfl, by rw [hr], by rw [hr], ?_⟩
      dsimp only
      rw [UpnpIgd.onFinished, if_pos (by rw [hr]), hinFlight, hr, List.erase_cons_head]

theorem holds_addMapping (h : Holds u) (qt : Qt) : Holds (u.addMapping qt) := by
  rw [UpnpIgd.addMapping, UpnpIgd.post]
  split <;> exact h

/-- A renewal is asked for again, or concluded. -/
theorem tells_onAddMapping (hstage : u.stage = .Renewing) (reply : HttpReply) (draw : ℕ) :
    Tells u (u.onAddMapping qt reply draw) := by
  have hagain (v : UpnpIgd) (hv : v.stage = .Renewing) (hlog : v.log = u.log) :
      Tells u (v.addMapping qt) := by
    obtain ⟨hs, hadded, -⟩ := silent_addMapping v qt
    exact ⟨hs, hlog ▸ hadded, .inl (holds_addMapping (.inr hv) qt)⟩
  have hstage' : u.clearReply.stage = .Renewing := hstage
  rw [UpnpIgd.onAddMapping]
  rw [if_pos hstage', if_pos hstage']
  split_ifs
  · exact ⟨_, rfl, .inl (.inl rfl)⟩
  · exact hagain _ hstage rfl
  · exact hagain _ hstage rfl
  · exact ⟨_, rfl, .inr ⟨by simp [isMapped], fun _ => ⟨_, List.mem_singleton_self _⟩⟩⟩

theorem tells_finished (qt : Qt) (h : u.Sound) (serial : ℕ) (reply : HttpReply) (draw : ℕ) :
    Tells u (u.apply qt (.finished serial reply draw)) := by
  obtain ⟨-, hsame⟩ | ⟨r, -, -, hhandler, hhandle⟩ := finished_cases qt h serial reply draw
  · rw [hsame]
    exact .refl u
  rw [hhandle]
  cases hr : r.handler with
  | onDescription =>
    rw [hr, Stage.handler_eq_onDescription] at hhandler
    exact (silent_onDescription { u with inFlight := [] } reply).tells (by simp [Holds, hhandler])
  | onAddMapping =>
    rw [hr, Stage.handler_eq_onAddMapping] at hhandler
    rcases hhandler with hstage | hstage
    · refine Silent.tells ?_ (by simp [Holds, hstage])
      exact silent_onAddMapping (u := { u with inFlight := [] }) (by simp [hstage]) reply draw
    · exact tells_onAddMapping (u := { u with inFlight := [] }) hstage reply draw
  | onAddress => exact ⟨_, rfl, .inl (.inl rfl)⟩

theorem tells_renew (u : UpnpIgd) (qt : Qt) : Tells u (u.renew qt) := by
  rw [UpnpIgd.renew]
  split_ifs
  · exact .refl u
  · obtain ⟨hs, hlog, -⟩ := silent_addMapping { u with stage := .Renewing } qt
    exact ⟨hs, hlog, .inl (holds_addMapping (.inr rfl) qt)⟩

/-- Nothing is searched for by who asks for a mapping, or has it. -/
theorem onDatagrams_eq (hstage : u.stage ≠ .Searching) (pending : List Datagram) :
    UpnpIgd.onDatagrams qt pending u = u := by
  induction pending with
  | nil => rfl
  | cons datagram rest ih =>
    rw [UpnpIgd.onDatagrams]
    cases parseSearchResponse qt datagram.data with
    | none => exact ih
    | some response => exact (if_pos hstage).trans ih

theorem apply_datagrams_eq (hstage : u.stage ≠ .Searching) (pending : List Datagram) :
    u.apply qt (.datagrams pending) = u := by
  rw [UpnpIgd.apply, onDatagrams_eq hstage, ite_self]

theorem apply_searchTimeout_eq (h : u.Sound) (hstage : u.stage ≠ .Searching) :
    u.apply qt .searchTimeout = u := if_neg (mt h.timer.1 hstage)

theorem not_searching_of_holds (h : Holds u) : u.stage ≠ .Searching := by
  rcases h with hstage | hstage <;> simp [hstage]

/-- What happens to UPnP while it is not called tells what becomes of its mapping. -/
theorem tells_apply (qt : Qt) (h : u.Sound) {e : UpnpIgd.Event} (he : e.Ongoing) :
    Tells u (u.apply qt e) := by
  cases e with
  | renew => exact tells_renew u qt
  | datagrams pending =>
    by_cases hholds : Holds u
    · rw [apply_datagrams_eq (not_searching_of_holds hholds)]
      exact .refl u
    · refine Silent.tells ?_ hholds
      rw [UpnpIgd.apply]
      split_ifs
      · exact silent_onDatagrams pending
      · exact .refl u
  | searchTimeout =>
    by_cases hholds : Holds u
    · rw [apply_searchTimeout_eq h (not_searching_of_holds hholds)]
      exact .refl u
    · refine Silent.tells ?_ hholds
      rw [UpnpIgd.apply]
      split_ifs
      · exact silent_onSearchTimeout { u with searchTimer := none }
      · exact .refl u
  | finished serial reply draw => exact tells_finished qt h serial reply draw
  | start | releaseBlocking | cancel | setSearchTarget | setSearchDelays => exact he.elim

/-! ## What is asked for -/

/-- Whatever is told, no more changes than the state. -/
theorem exists_standing_hear (m : PortMapper) (h : Happening) :
    ∃ state, (m.hear h).standing = { m.standing with state } := by
  cases h with
  | progress message =>
    rw [hear]
    split_ifs <;> exact ⟨_, rfl⟩
  | mapped port lease address =>
    rw [hear]
    split_ifs <;> exact ⟨_, rfl⟩
  | failed message =>
    rw [hear]
    split_ifs <;> exact ⟨_, rfl⟩
  | searched | requested | described | released => exact ⟨_, rfl⟩

theorem exists_standing_foldl_hear (m : PortMapper) (hs : List Happening) :
    ∃ state, (hs.foldl hear m).standing = { m.standing with state } := by
  induction hs generalizing m with
  | nil => exact ⟨_, rfl⟩
  | cons h hs ih =>
    obtain ⟨state, hstanding⟩ := exists_standing_hear m h
    obtain ⟨state', hstanding'⟩ := ih (m.hear h)
    exact ⟨state', by rw [List.foldl_cons, hstanding', hstanding]⟩

/-- Nothing is heard of UPnP by another protocol. -/
theorem standing_hear_of_ne (hne : m.protocol ≠ .Upnp) : (m.hear h).standing = m.standing := by
  cases h with
  | progress message =>
    rw [hear]
    split_ifs <;> rfl
  | mapped port lease address => rw [hear, if_neg hne]
  | failed message => rw [hear, if_neg hne]
  | searched | requested | described | released => rfl

theorem standing_foldl_hear_of_ne (hne : m.protocol ≠ .Upnp) :
    (hs.foldl hear m).standing = m.standing := by
  induction hs generalizing m with
  | nil => rfl
  | cons h hs ih =>
    have hstanding : (m.hear h).standing = m.standing := standing_hear_of_ne hne
    refine (ih ?_).trans hstanding
    rw [show (m.hear h).protocol = m.protocol from congrArg Standing.protocol hstanding]
    exact hne

/-- What tells of no mapping does not lead to the state `Mapped`, and a failure leads out of
    it. -/
theorem mapped_of_hear (hprotocol : m.protocol = .Upnp) (hnot : isMapped h = false)
    (hmapped : (m.hear h).snapshot.state = .Mapped) :
    m.snapshot.state = .Mapped ∧ ∀ message, h ≠ .failed message := by
  cases h with
  | progress message =>
    rw [hear] at hmapped
    split_ifs at hmapped <;> exact ⟨hmapped, nofun⟩
  | mapped port lease address => cases hnot
  | failed message =>
    rw [hear, if_pos hprotocol] at hmapped
    cases hmapped
  | searched | requested | described | released => exact ⟨hmapped, nofun⟩

theorem mapped_of_foldl_hear (hprotocol : m.protocol = .Upnp) (hnot : ∀ h ∈ hs, isMapped h = false)
    (hmapped : (hs.foldl hear m).snapshot.state = .Mapped) :
    m.snapshot.state = .Mapped ∧ ∀ message, .failed message ∉ hs := by
  induction hs generalizing m with
  | nil => exact ⟨hmapped, fun _ => List.not_mem_nil⟩
  | cons h hs ih =>
    obtain ⟨state, hstanding⟩ := exists_standing_hear m h
    have hprotocol' : (m.hear h).protocol = .Upnp :=
      (congrArg Standing.protocol hstanding).trans hprotocol
    obtain ⟨hafter, hrest⟩ := ih hprotocol' (fun h' hh' => hnot h' (.tail h hh')) hmapped
    obtain ⟨hbefore, hfirst⟩ := mapped_of_hear hprotocol (hnot h List.mem_cons_self) hafter
    refine ⟨hbefore, fun message hmem => ?_⟩
    exact (List.mem_cons.1 hmem).elim (fun heq => hfirst message heq.symm) (hrest message)

theorem upnp_foldl_hear : (hs.foldl hear m).upnp = m.upnp := by
  obtain ⟨state, hstanding⟩ := exists_standing_foldl_hear m hs
  exact congrArg Standing.upnp hstanding

theorem standing_sendRequest : m.sendRequest.standing = m.standing := by
  rw [sendRequest]
  split_ifs <;> rfl

theorem upnp_sendRequest : m.sendRequest.upnp = m.upnp :=
  congrArg Standing.upnp standing_sendRequest

/-! ## What the state says -/

theorem Standing.Sound.of_ne (hupnp : s.upnp.Sound) (hstate : s.state ≠ .Mapped) : s.Sound :=
  ⟨hupnp, fun hmapped => absurd hmapped hstate, fun hmapped => absurd hmapped hstate,
    fun hmapped => absurd hmapped hstate⟩

theorem sound_withUpnp (h : m.standing.Sound) (hsound : u.Sound) (htells : Tells m.upnp u) :
    (m.withUpnp u m.upnp.log.length).standing.Sound := by
  obtain ⟨hs, hlog, htold⟩ := htells
  rw [withUpnp, hlog, List.drop_left]
  by_cases hprotocol : m.protocol = .Upnp
  · have hmapped (hnot : ∀ h ∈ hs, isMapped h = false) :=
      mapped_of_foldl_hear (m := { m with upnp := u }) hprotocol hnot
    obtain ⟨state, hstanding⟩ := exists_standing_foldl_hear { m with upnp := u } hs
    rw [show (hs.foldl hear { m with upnp := u }).snapshot.state = state from
      congrArg Standing.state hstanding] at hmapped
    rw [hstanding]
    refine ⟨hsound, fun _ hpcp => ?_, fun _ hne => absurd hprotocol hne, fun hstate _ => ?_⟩
    · exact absurd (hprotocol.symm.trans hpcp) nofun
    · refine htold.resolve_right fun ⟨hnot, hfailed⟩ => ?_
      obtain ⟨hbefore, hnone⟩ := hmapped hnot hstate
      obtain ⟨message, hmem⟩ := hfailed (h.holds hbefore hprotocol)
      exact hnone message hmem
  · rw [standing_foldl_hear_of_ne (m := { m with upnp := u }) hprotocol]
    exact ⟨hsound, h.nonce, h.socket, fun _ hupnp => absurd hupnp hprotocol⟩

/-- The socket stays, and what the state says. -/
structure Sane (m m' : PortMapper) : Prop where
  socket : m'.socket = m.socket
  sound : m.socket → m.standing.Sound → m'.standing.Sound

theorem Sane.refl (m : PortMapper) : Sane m m := ⟨rfl, fun _ => id⟩

theorem Sane.trans {m'' : PortMapper} (h : Sane m m') (h' : Sane m' m'') : Sane m m'' :=
  ⟨h'.socket.trans h.socket, fun hsocket hsound =>
    h'.sound (h.socket.trans hsocket) (h.sound hsocket hsound)⟩

theorem Sane.of_standing (h : m'.standing = m.standing) : Sane m m' :=
  ⟨congrArg Standing.socket h, fun _ hsound => h ▸ hsound⟩

/-- When a protocol is begun, no mapping stands. -/
theorem standing_beginProtocol (qt : Qt) (o : Outside) (m : PortMapper) (protocol : Protocol) :
    (m.beginProtocol qt o protocol).snapshot.state ≠ .Mapped ∧
      (m.beginProtocol qt o protocol).socket = m.socket ∧
      (m.upnp.Sound → (m.beginProtocol qt o protocol).upnp.Sound) := by
  rw [beginProtocol]
  split_ifs with hprotocol
  · rw [withUpnp, List.drop_zero]
    refine ⟨fun hmapped => ?_, ?_, fun h => ?_⟩
    · have hbefore := (mapped_of_foldl_hear hprotocol
        (fun h => silent_start _ _ _ _ _ _ _ _ _ h) hmapped).1
      cases hbefore
    · obtain ⟨state, hstanding⟩ := exists_standing_foldl_hear _ _
      exact (congrArg Standing.socket hstanding).trans rfl
    · rw [upnp_foldl_hear]
      exact (h.start ..).1
  · refine ⟨fun hmapped => ?_, congrArg Standing.socket standing_sendRequest, fun h => ?_⟩
    · have hbefore := (congrArg Standing.state standing_sendRequest).symm.trans hmapped
      cases hbefore
    · rw [upnp_sendRequest]
      exact h

theorem sound_beginProtocol (h : m.upnp.Sound) (protocol : Protocol) :
    (m.beginProtocol qt o protocol).standing.Sound := by
  obtain ⟨hstate, -, hupnp⟩ := standing_beginProtocol qt o m protocol
  exact .of_ne (hupnp h) hstate

theorem sound_fallBack (h : m.upnp.Sound) (reason : String) :
    (m.fallBack qt o reason).standing.Sound := by
  rw [fallBack]
  split
  · exact sound_beginProtocol (by exact h) _
  · exact sound_beginProtocol (by exact h) _
  · exact .of_ne h nofun

theorem sane_beginProtocol (protocol : Protocol) : Sane m (m.beginProtocol qt o protocol) :=
  ⟨(standing_beginProtocol qt o m protocol).2.1, fun _ h => sound_beginProtocol h.upnp protocol⟩

theorem sane_fallBack (reason : String) : Sane m (m.fallBack qt o reason) := by
  refine ⟨?_, fun _ h => sound_fallBack h.upnp reason⟩
  rw [fallBack]
  split
  · exact (standing_beginProtocol ..).2.1
  · exact (standing_beginProtocol ..).2.1
  · rfl

theorem sane_handlePcp (data : Bytes) : Sane m (m.handlePcp qt o data) := by
  simp only [handlePcp]
  split_ifs with hshort hother hunsupported hresult hforeign
  · exact .refl m
  · exact .refl m
  · exact sane_beginProtocol _
  · exact sane_fallBack _
  · exact .refl m
  · rw [not_or, not_not] at hshort
    rw [not_or, not_lt, not_not] at hforeign
    refine ⟨rfl, fun hsocket h => ⟨h.upnp, fun _ _ => ?_, fun _ _ => hsocket, fun _ hupnp => ?_⟩⟩
    · -- The nonce was read from the answer, which is long enough.
      change m.nonce.length = 12
      rw [← hforeign.2, List.length_take, List.length_drop]
      omega
    · exact absurd (hshort.1.symm.trans hupnp) nofun

theorem sane_handleNatPmp (data : Bytes) : Sane m (m.handleNatPmp qt o data) := by
  simp only [handleNatPmp]
  split_ifs with hpcp hshort hmapping hresult hlength
  · exact sane_beginProtocol _
  · exact .refl m
  · exact sane_fallBack _
  · exact .refl m
  · rw [not_or, not_not] at hshort
    refine ⟨rfl, fun hsocket h => ⟨h.upnp, fun _ hprotocol => absurd hprotocol hpcp,
      fun _ _ => hsocket, fun _ hupnp => absurd (hshort.1.symm.trans hupnp) nofun⟩⟩
  · exact .refl m
  · exact .of_standing rfl
  · exact .refl m

theorem sane_onDatagram (d : Received) : Sane m (m.onDatagram qt o d) := by
  rw [onDatagram]
  split_ifs
  · exact .refl m
  · exact .refl m
  · exact sane_handlePcp _
  · exact sane_handleNatPmp _
  · exact .refl m

theorem sane_onDatagrams (pending : List Received) :
    Sane m (pending.foldl (onDatagram qt o) m) := by
  induction pending generalizing m with
  | nil => exact .refl m
  | cons d rest ih => exact (sane_onDatagram d).trans ih

/-! ## Stopping and starting -/

theorem sound_release (h : m.upnp.Sound) : (m.release o).upnp.Sound := by
  rw [release]
  split_ifs
  · exact h
  · exact h.releaseBlocking o.connects
  all_goals exact h

theorem upnp_stopInternal (o : Outside) (m : PortMapper) (notify : Bool) :
    (m.stopInternal o notify).upnp = (m.release o).upnp.cancel := by
  rw [stopInternal]
  split_ifs <;> rfl

theorem state_stopInternal (o : Outside) (m : PortMapper) (notify : Bool) :
    (m.stopInternal o notify).snapshot.state = .Disabled := by
  rw [stopInternal]
  split_ifs <;> rfl

theorem sound_stopInternal (h : m.upnp.Sound) (notify : Bool) :
    (m.stopInternal o notify).upnp.Sound :=
  upnp_stopInternal o m notify ▸ (sound_release h).cancel

/-- What is stopped fails to start, or begins with PCP. -/
theorem start_cases (qt : Qt) (o : Outside) (m : PortMapper) (port : UInt16) :
    ∃ m' : PortMapper, m'.upnp = (m.stopInternal o false).upnp ∧
      m'.log = (m.stopInternal o false).log ∧
      ((∃ message, m.start qt o port = m'.fail message) ∨
        m.start qt o port = m'.beginProtocol qt o .Pcp) := by
  simp only [start]
  split_ifs
  all_goals first
    | refine ⟨_, ?_, ?_, .inr rfl⟩ <;> rfl
    | refine ⟨_, ?_, ?_, .inl ⟨_, rfl⟩⟩ <;> rfl

theorem sound_start (h : m.upnp.Sound) (port : UInt16) : (m.start qt o port).standing.Sound := by
  have hstop := sound_stopInternal (o := o) h false
  obtain ⟨m', hupnp, -, ⟨message, hfail⟩ | hbegin⟩ := start_cases qt o m port
  · rw [hfail]
    exact .of_ne (show m'.upnp.Sound from hupnp ▸ hstop) nofun
  · rw [hbegin]
    exact sound_beginProtocol (hupnp ▸ hstop) .Pcp

theorem sound_stop (h : m.upnp.Sound) : (m.stop o).standing.Sound := by
  refine .of_ne (sound_stopInternal h true) fun hmapped => ?_
  have hdisabled : (m.stop o).snapshot.state = .Disabled := state_stopInternal o m true
  exact absurd (hmapped.symm.trans hdisabled) nofun

/-- What the state says of the mapping is so after whatever happens. -/
theorem sound_apply (h : m.standing.Sound) (e : Event) : (m.apply qt o e).standing.Sound := by
  cases e with
  | start port => exact sound_start h.upnp port
  | stop => exact sound_stop h.upnp
  | setGatewayOverride => exact h
  | setRetryDelays delaysMs =>
    rw [apply, setRetryDelays]
    split_ifs <;> exact h
  | setUpnpSearchTarget address port =>
    have hupnp : (m.upnp.apply qt (.setSearchTarget address port)).Sound := h.upnp.apply _
    exact ⟨hupnp, h.nonce, h.socket, h.holds⟩
  | setUpnpSearchDelays delaysMs =>
    have hupnp : (m.upnp.apply qt (.setSearchDelays delaysMs)).Sound := h.upnp.apply _
    -- The delays are no part of what UPnP holds.
    refine ⟨hupnp, h.nonce, h.socket, fun hstate hprotocol => ?_⟩
    have hholds : Holds m.upnp := h.holds hstate hprotocol
    change Holds (m.upnp.setSearchDelays delaysMs)
    rw [UpnpIgd.setSearchDelays]
    split_ifs <;> exact hholds
  | retryTimeout =>
    rw [apply]
    split_ifs
    · rw [onRetryTimeout]
      split_ifs
      · rw [standing_sendRequest]
        exact h
      · exact sound_beginProtocol (by exact h.upnp) _
      · exact sound_fallBack (by exact h.upnp) _
    · exact h
  | renewTimeout =>
    rw [apply]
    split_ifs
    · rw [onRenewTimeout]
      split_ifs
      · exact sound_withUpnp h (h.upnp.apply .renew) (tells_renew m.upnp qt)
      · rw [standing_sendRequest]
        exact h
    · exact h
  | readyRead pending =>
    rw [apply]
    split_ifs with hsocket
    · exact (sane_onDatagrams pending).sound hsocket h
    · exact h
  | upnpDatagrams pending =>
    exact sound_withUpnp h (h.upnp.apply (.datagrams pending)) (tells_apply qt h.upnp trivial)
  | upnpSearchTimeout =>
    exact sound_withUpnp h (h.upnp.apply .searchTimeout) (tells_apply qt h.upnp trivial)
  | upnpFinished serial reply draw =>
    exact sound_withUpnp h (h.upnp.apply (.finished serial reply draw))
      (tells_apply qt h.upnp trivial)

/-! ## What is asked for -/

theorem current_withUpnp (m : PortMapper) (u : UpnpIgd) (n : ℕ) :
    (m.withUpnp u n).standing.current = { m.standing with upnp := u }.current := by
  obtain ⟨state, hstanding⟩ := exists_standing_foldl_hear { m with upnp := u } (u.log.drop n)
  rw [withUpnp, hstanding]
  rfl

theorem upnpMapping_eq_some : upnpMapping u = some k ↔ isAsking u.stage ∧
    u.services[u.serviceIndex]?.map (.upnp · u.externalPort) = some k := by
  rw [upnpMapping]
  exact Option.ite_none_right_eq_some

theorem upnpMapping_post (action : String) (arguments : List (String × String))
    (handler : Handler) : upnpMapping (u.post action arguments handler) = upnpMapping u := by
  rw [UpnpIgd.post]
  split <;> rfl

theorem upnpMapping_addMapping (u : UpnpIgd) (qt : Qt) :
    upnpMapping (u.addMapping qt) = upnpMapping u :=
  upnpMapping_post ..

theorem upnpMapping_renew (hmapping : upnpMapping u = some k) (qt : Qt) :
    upnpMapping (u.renew qt) = some k := by
  rw [UpnpIgd.renew]
  split_ifs
  · exact hmapping
  · rw [upnpMapping_addMapping]
    exact upnpMapping_eq_some.2 ⟨rfl, (upnpMapping_eq_some.1 hmapping).2⟩

/-- Unless the gateway refuses it, the mapping is asked for still. -/
theorem upnpMapping_onAddMapping (hmapping : upnpMapping u = some k) (reply : HttpReply)
    (draw : ℕ) (hnot : (parseSoapResponse qt reply.status reply.body).ok = false →
      if (parseSoapResponse qt reply.status reply.body).errorCode = 718 ∧
        u.conflicts < UpnpIgd.MaxConflictRetries then UpnpIgd.drawPort draw = u.externalPort
      else (parseSoapResponse qt reply.status reply.body).errorCode = 725 ∧ u.lease ≠ 0) :
    upnpMapping (u.onAddMapping qt reply draw) = some k := by
  have hservice := (upnpMapping_eq_some.1 hmapping).2
  rw [UpnpIgd.onAddMapping]
  cases hok : (parseSoapResponse qt reply.status reply.body).ok with
  | true =>
    rw [if_pos rfl]
    split_ifs
    · exact upnpMapping_eq_some.2 ⟨rfl, hservice⟩
    · rw [UpnpIgd.askAddress, upnpMapping_post]
      exact upnpMapping_eq_some.2 ⟨rfl, hservice⟩
  | false =>
    have hnot := hnot hok
    rw [if_neg Bool.false_ne_true]
    by_cases hother : (parseSoapResponse qt reply.status reply.body).errorCode = 718 ∧
        u.conflicts < UpnpIgd.MaxConflictRetries
    · rw [if_pos hother] at hnot
      rw [if_pos (show _ ∧ u.clearReply.conflicts < _ from hother), hnot, upnpMapping_addMapping]
      exact hmapping
    · rw [if_neg hother] at hnot
      rw [if_neg (show ¬(_ ∧ u.clearReply.conflicts < _) from hother),
        if_pos (show _ ∧ u.clearReply.lease ≠ 0 from hnot), upnpMapping_addMapping]
      exact hmapping

theorem isAdding_eq {serial : ℕ} {r : InFlight}
    (hfind : m.upnp.inFlight.find? (·.serial = serial) = some r)
    (hgen : r.generation = m.upnp.generation) (hhandler : r.handler = .onAddMapping) :
    m.isAdding serial = true := by
  rw [isAdding, hfind, Option.any_some, decide_eq_true hgen, decide_eq_true hhandler]
  rfl

theorem upnpMapping_finished (h : m.upnp.Sound) (hmapping : upnpMapping m.upnp = some k)
    {serial draw : ℕ} {reply : HttpReply}
    (hnot : m.isUpnpRefusal qt serial reply draw = false) :
    upnpMapping (m.upnp.apply qt (.finished serial reply draw)) = some k := by
  obtain ⟨-, hsame⟩ | ⟨r, hfind, hgen, hhandler, hhandle⟩ :=
    finished_cases qt h serial reply draw
  · rw [hsame]
    exact hmapping
  obtain ⟨hasking, hservice⟩ := upnpMapping_eq_some.1 hmapping
  rw [hhandle]
  cases hr : r.handler with
  | onDescription =>
    rw [hr, Stage.handler_eq_onDescription] at hhandler
    rw [hhandler] at hasking
    cases hasking
  | onAddMapping =>
    rw [isUpnpRefusal, isAdding_eq hfind hgen hr] at hnot
    refine upnpMapping_onAddMapping (u := { m.upnp with inFlight := [] }) hmapping reply draw
      fun hok => ?_
    simp only [hok, Bool.true_and, Bool.not_false] at hnot
    split_ifs at hnot ⊢ <;> simpa using hnot
  | onAddress => exact upnpMapping_eq_some.2 ⟨rfl, hservice⟩

theorem not_searching_of_isAsking (h : isAsking u.stage) : u.stage ≠ .Searching := fun hstage => by
  rw [hstage] at h
  cases h

theorem isMapResponse_iff {data : Bytes} : isMapResponse data ↔ data.getD 0 0 = 2 ∧
    ¬(data.getD 1 0 &&& 0x80 = 0 ∨ data.getD 1 0 &&& 0x7f ≠ 1) := by
  rw [isMapResponse, Bool.and_eq_true, Bool.and_eq_true, decide_eq_true_iff, decide_eq_true_iff,
    decide_eq_true_iff, and_assoc, not_or, not_not]

theorem isPcpRefusal_iff {data : Bytes} : isPcpRefusal data ↔ data.getD 0 0 = 0 ∨
    isMapResponse data ∧ data.getD 3 0 ≠ 0 ∧ 24 ≤ data.length := by
  rw [isPcpRefusal, Bool.or_eq_true, Bool.and_eq_true, Bool.and_eq_true, decide_eq_true_iff,
    decide_eq_true_iff, decide_eq_true_iff, and_assoc]

theorem isNatPmpRefusal_iff {data : Bytes} : isNatPmpRefusal data ↔ data.getD 0 0 = 0 ∧
    data.getD 1 0 = 129 ∧ numberAt data 2 2 ≠ 0 ∧ 4 ≤ data.length := by
  rw [isNatPmpRefusal, Bool.and_eq_true, Bool.and_eq_true, Bool.and_eq_true, decide_eq_true_iff,
    decide_eq_true_iff, decide_eq_true_iff, decide_eq_true_iff, and_assoc, and_assoc]

/-- PCP asks on, whatever it is answered, unless it is refused. -/
theorem current_handlePcp {data : Bytes} (hversion : data.getD 0 0 = 2)
    (hnot : m.protocol = .Pcp → ¬isPcpRefusal data) :
    (m.handlePcp qt o data).standing.current = m.standing.current := by
  have hzero (hshort : ¬(m.protocol ≠ .Pcp ∨ data.length < 24))
      (hother : ¬(data.getD 1 0 &&& 0x80 = 0 ∨ data.getD 1 0 &&& 0x7f ≠ 1)) :
      (data.getD 3 0).toNat = 0 := by
    rw [not_or, not_not, not_lt] at hshort
    by_contra hne
    refine hnot hshort.1 (isPcpRefusal_iff.2 (.inr ⟨isMapResponse_iff.2 ⟨hversion, hother⟩,
      fun heq => hne ?_, hshort.2⟩))
    rw [heq]
    rfl
  simp only [handlePcp]
  split_ifs with hshort hother hunsupported hresult
  · rfl
  · rfl
  · rw [hzero hshort hother] at hunsupported
    cases hunsupported
  · exact absurd (hzero hshort hother) hresult
  · rfl
  · rfl

/-- NAT-PMP asks on, whatever it is answered, unless it is refused. -/
theorem current_handleNatPmp {data : Bytes} (hversion : data.getD 0 0 = 0)
    (hpcp : m.protocol ≠ .Pcp) (hnot : m.protocol = .NatPmp → ¬isNatPmpRefusal data) :
    (m.handleNatPmp qt o data).standing.current = m.standing.current := by
  simp only [handleNatPmp]
  rw [if_neg hpcp]
  split_ifs with hshort hmapping hresult
  · rfl
  · rw [not_or, not_not, not_lt] at hshort
    exact absurd (isNatPmpRefusal_iff.2 ⟨hversion, hmapping, hresult, hshort.2⟩) (hnot hshort.1)
  all_goals rfl

theorem current_onDatagram (qt : Qt) (o : Outside) (hnot : m.isRefusal d = false) :
    (m.onDatagram qt o d).standing.current = m.standing.current := by
  rw [onDatagram]
  split_ifs with hforeign hshort htwo hzero
  · rfl
  · rfl
  all_goals
    have hgateway : m.isFromGateway d = true := by
      rw [not_or, not_not, not_not] at hforeign
      rw [isFromGateway, decide_eq_true hforeign.1, decide_eq_true hforeign.2]
      rfl
    rw [isRefusal, hgateway, decide_eq_true (not_lt.1 hshort), Bool.true_and, Bool.true_and] at hnot
  · refine current_handlePcp htwo fun hprotocol hrefusal => ?_
    rw [hprotocol] at hnot
    exact absurd hrefusal (Bool.eq_false_iff.1 hnot)
  · refine current_handleNatPmp hzero (fun hprotocol => ?_) fun hprotocol hrefusal => ?_
    · rw [hprotocol] at hnot
      exact absurd (isPcpRefusal_iff.2 (.inl hzero)) (Bool.eq_false_iff.1 hnot)
    · rw [hprotocol] at hnot
      exact absurd hrefusal (Bool.eq_false_iff.1 hnot)

theorem current_onDatagrams {pending : List Received}
    (hnot : refusesAny qt o m pending = false) :
    (pending.foldl (onDatagram qt o) m).standing.current = m.standing.current := by
  induction pending generalizing m with
  | nil => rfl
  | cons d rest ih =>
    obtain ⟨hfirst, hrest⟩ := Bool.or_eq_false_iff.1 hnot
    exact (ih hrest).trans (current_onDatagram qt o hfirst)

/-- What happens to UPnP matters if UPnP is tried. -/
theorem Standing.current_setUpnp (hcurrent : s.current = some k)
    (hmapping : upnpMapping s.upnp = some k → upnpMapping u = some k) :
    { s with upnp := u }.current = some k := by
  cases s with
  | mk protocol =>
    cases protocol with
    | Pcp | NatPmp => exact hcurrent
    | Upnp => exact hmapping hcurrent

theorem current_withUpnp_eq_some (hcurrent : m.standing.current = some k)
    (hmapping : upnpMapping m.upnp = some k → upnpMapping u = some k) (n : ℕ) :
    (m.withUpnp u n).standing.current = some k :=
  (current_withUpnp m u n).trans (Standing.current_setUpnp hcurrent hmapping)

/-- Unless it is given up, the mapping that was asked for is asked for still. -/
theorem current_apply (h : m.standing.Sound) {e : Event} (hcurrent : m.standing.current = some k)
    (hstop : isStop e = false) (hnot : m.givesUp qt o e = false) :
    (m.apply qt o e).standing.current = some k := by
  cases e with
  | start | stop => cases hstop
  | setGatewayOverride => exact hcurrent
  | setRetryDelays delaysMs =>
    rw [apply, setRetryDelays]
    split_ifs <;> exact hcurrent
  | setUpnpSearchTarget address port => exact hcurrent
  | setUpnpSearchDelays delaysMs =>
    rw [apply, UpnpIgd.setSearchDelays]
    split_ifs <;> exact hcurrent
  | retryTimeout =>
    rw [apply]
    split_ifs with hruns
    · -- As it is not given up, another attempt is left.
      have hleft : m.attempt + 1 < m.retryDelays.1.length := by
        simpa [givesUp, hruns] using hnot
      rw [onRetryTimeout]
      dsimp only
      rw [if_pos hleft, standing_sendRequest]
      exact hcurrent
    · exact hcurrent
  | renewTimeout =>
    rw [apply]
    split_ifs
    · rw [onRenewTimeout]
      split_ifs
      · refine current_withUpnp_eq_some ?_ (fun hmapping => upnpMapping_renew hmapping qt) _
        exact hcurrent
      · rw [standing_sendRequest]
        exact hcurrent
    · exact hcurrent
  | readyRead pending =>
    rw [apply]
    split_ifs with hsocket
    · rw [givesUp, hsocket, Bool.true_and] at hnot
      rw [current_onDatagrams hnot]
      exact hcurrent
    · exact hcurrent
  | upnpDatagrams pending =>
    refine current_withUpnp_eq_some hcurrent (fun hmapping => ?_) _
    -- While UPnP asks for a mapping it does not search.
    have hasking := (upnpMapping_eq_some.1 hmapping).1
    rw [apply_datagrams_eq (not_searching_of_isAsking hasking)]
    exact hmapping
  | upnpSearchTimeout =>
    refine current_withUpnp_eq_some hcurrent (fun hmapping => ?_) _
    have hasking := (upnpMapping_eq_some.1 hmapping).1
    rw [apply_searchTimeout_eq (u := m.upnp) h.upnp (not_searching_of_isAsking hasking)]
    exact hmapping
  | upnpFinished serial reply draw =>
    exact current_withUpnp_eq_some hcurrent
      (fun hmapping => upnpMapping_finished h.upnp hmapping hnot) _

end PortMapper

end Dht
