import DhtCore.Upnp.Basic

/-!
# The port mapper

`PortMapper` maps the DHT's UDP port on the IPv4 gateway: it tries PCP, then NAT-PMP, then
UPnP, and renews the mapping that it gets.

* A run is a sequence of `Event`s: calls, timers, and datagrams; those that end in `upnp`
  happen to the `UpnpIgd` that it has. Nothing happens on timers that do not run.
* A call gets what is outside the program from an `Outside`: the default gateway, what
  sockets can be bound, random bytes.
* The functions of `UpnpIgd` emit signals at their end, or `progress`, whose slot only
  takes over the message. So the slots run when the function is done (`hear`).

The program does not keep the `log` of the datagrams sent and of the changes told.
-/

namespace Dht

open Upnp

/-- `PortMappingSnapshot::State`. -/
inductive MappingState
  | Disabled
  | Discovering
  | Mapped
  | Failed
  deriving DecidableEq, Repr

/-- What is shown of the mapping. -/
structure PortMappingSnapshot where
  state : MappingState := .Disabled
  protocol : String := ""
  gateway : HostAddress := .null
  externalAddress : HostAddress := .null
  internalPort : UInt16 := 0
  externalPort : UInt16 := 0
  lifetimeSeconds : UInt32 := 0
  message : String := ""
  deriving DecidableEq

/-- The protocols by which a mapping is asked for, in the order in which they are tried. -/
inductive Protocol
  | Pcp
  | NatPmp
  | Upnp
  deriving DecidableEq, Repr

/-- What a `PortMapper` did. -/
inductive MapperOutput
  | sent (data : Bytes) (address : HostAddress) (port : UInt16)
  | changed
  deriving DecidableEq

/-- Maps a UDP port on the gateway. -/
structure PortMapper where
  /-- Whether there is a socket. -/
  socket : Bool := false
  /-- What the retry timer was started with, while it runs. -/
  retryTimer : Option ℕ := none
  /-- What the renewal timer was started with, while it runs. -/
  renewTimer : Option ℤ := none
  snapshot : PortMappingSnapshot := {}
  protocol : Protocol := .Pcp
  retryDelays : { delays : List ℕ // delays ≠ [] } := ⟨[250, 500, 1000, 2000], List.cons_ne_nil _ _⟩
  attempt : ℕ := 0
  gatewayOverride : HostAddress := .null
  gatewayOverridePort : UInt16 := 5351
  gateway : HostAddress := .null
  gatewayPort : UInt16 := 5351
  localAddress : HostAddress := .null
  nonce : Bytes := []
  upnp : UpnpIgd := {}
  reasons : List String := []
  active : Bool := false
  log : List MapperOutput := []

namespace PortMapper

/-- The lifetime that is asked for, in seconds. -/
def RequestedLifetime : UInt32 := 3600

/-- The port at which gateways are asked by PCP and NAT-PMP. -/
def GatewayPort : UInt16 := 5351

/-- What a call gets from outside. -/
structure Outside where
  defaultGateway : HostAddress := .null
  /-- The address from which the gateway is reached. -/
  probeAddress : HostAddress := .null
  /-- Whether a socket can be bound, and why not. -/
  binds : Bool := true
  errorString : String := ""
  nonce : { bytes : Bytes // bytes.length = 12 } := ⟨List.replicate 12 0, rfl⟩
  /-- Whether the search socket of UPnP can be bound to the local address and to any. -/
  upnpBindsLocal : Bool := true
  upnpBindsAny : Bool := true
  /-- Whether the UPnP gateway can be connected to in time. -/
  connects : Bool := true

variable (qt : Qt) (o : Outside) (m : PortMapper)

/-- Takes down what was done. -/
def emit (output : MapperOutput) : PortMapper := { m with log := m.log ++ [output] }

/-- Sends a datagram to the gateway. -/
def writeDatagram (data : Bytes) : PortMapper := m.emit (.sent data m.gateway m.gatewayPort)

/-- What the protocol is called. -/
def protocolName : String :=
  match m.protocol with
  | .Pcp => "PCP"
  | .NatPmp => "NAT-PMP"
  | .Upnp => "UPnP IGD"

/-! ## Messages -/

/-- The external port to ask for. -/
def suggested : UInt16 :=
  if m.snapshot.externalPort ≠ 0 then m.snapshot.externalPort else m.snapshot.internalPort

/-- `QHostAddress::toIPv4Address`. -/
def toIPv4Address : HostAddress → ℕ
  | .ipv4 a => a.toNat
  | .null | .ipv6 _ => 0

/-- The MAP request of PCP: a lifetime of zero drops the mapping. -/
def buildPcpMap (lifetime : UInt32) : Bytes :=
  -- The version, and the MAP request.
  [2, 1, 0, 0] ++ Endpoint.bytesOf 4 lifetime.toNat ++
  -- The client address, IPv4-mapped.
  List.replicate 10 0 ++ [0xff, 0xff] ++ Endpoint.bytesOf 4 (toIPv4Address m.localAddress) ++
  m.nonce ++
  -- UDP.
  [17, 0, 0, 0] ++ Endpoint.bytesOf 2 m.snapshot.internalPort.toNat ++
  Endpoint.bytesOf 2 m.suggested.toNat ++
  -- The suggested external address ::ffff:0.0.0.0 is no preference.
  List.replicate 10 0 ++ [0xff, 0xff, 0, 0, 0, 0]

/-- The request of NAT-PMP to map a UDP port: a lifetime of zero drops the mapping. -/
def buildNatPmpMap (lifetime : UInt32) : Bytes :=
  [0, 1, 0, 0] ++ Endpoint.bytesOf 2 m.snapshot.internalPort.toNat ++
  Endpoint.bytesOf 2 (if lifetime ≠ 0 then m.suggested.toNat else 0) ++
  Endpoint.bytesOf 4 lifetime.toNat

/-- What a result code of PCP says. -/
def pcpResultName : ℕ → String
  | 2 => "not authorized"
  | 3 => "malformed request"
  | 4 => "unsupported opcode"
  | 5 => "unsupported option"
  | 6 => "malformed option"
  | 7 => "network failure"
  | 8 => "no resources"
  | 9 => "unsupported protocol"
  | 10 => "user quota exceeded"
  | 11 => "cannot provide external address"
  | 12 => "address mismatch"
  | 13 => "excessive remote peers"
  | code => "result code " ++ toString code

/-- What a result code of NAT-PMP says. -/
def natPmpResultName : ℕ → String
  | 2 => "not authorized or refused"
  | 3 => "network failure"
  | 4 => "out of resources"
  | 5 => "unsupported opcode"
  | code => "result code " ++ toString code

/-- The number in `n` bytes of a message, most significant first. -/
def numberAt (data : Bytes) (start n : ℕ) : ℕ := NodeId.bigEndian ((data.drop start).take n)

/-! ## Mapping -/

/-- A number narrowed to an `int`. -/
def toInt32 (n : ℤ) : ℤ := n.bmod (2 ^ 32)

/-- The time after which a mapping is renewed, in milliseconds. -/
def renewDelay (lifetime : UInt32) : ℤ :=
  -- A permanent UPnP mapping (lifetime 0) is still refreshed now and then, in case the
  -- gateway restarts.
  let renewSeconds := if lifetime = 0 then UpnpIgd.PermanentRefreshSeconds.toNat
    else max 30 (lifetime.toNat / 2)
  toInt32 (renewSeconds * 1000)

/-- The mapping stands: it is shown, and will be renewed. -/
def mapped (externalPort : UInt16) (lifetime : UInt32) (externalAddress : HostAddress) :
    PortMapper :=
  let known := externalAddress ≠ .null ∧ externalAddress ≠ .ipv4 0
  let m := { m with
    retryTimer := none
    snapshot := { m.snapshot with
      state := .Mapped
      protocol := m.protocolName
      externalPort
      lifetimeSeconds := lifetime
      externalAddress := if known then externalAddress else m.snapshot.externalAddress
      message := "External port " ++ toString externalPort.toNat ++ " mapped via " ++
        m.protocolName }
    renewTimer := some (renewDelay lifetime) }
  m.emit .changed

/-- Gives up, and shows why. -/
def fail (message : String) : PortMapper :=
  { m with
    retryTimer := none
    renewTimer := none
    snapshot := { m.snapshot with state := .Failed, message } }.emit .changed

/-- Fails with every reason so far: `fallBack` after the last protocol. -/
def failWith (reason : String) : PortMapper :=
  let m := { m with reasons := m.reasons ++ [reason] }
  m.fail (" ".intercalate m.reasons)

/-- The slots of the signals of `UpnpIgd`. -/
def hear (m : PortMapper) : Happening → PortMapper
  | .progress message =>
    if m.protocol ≠ .Upnp ∨ m.snapshot.state = .Mapped then m
    else { m with snapshot := { m.snapshot with message } }.emit .changed
  | .mapped port lease external => if m.protocol = .Upnp then m.mapped port lease external else m
  | .failed message => if m.protocol = .Upnp then m.failWith message else m
  | .searched .. | .requested _ | .described _ | .released .. => m

/-- Takes over what happened to the `UpnpIgd`, and hears what it emitted after the first
    `n` things that it did. -/
def withUpnp (u : UpnpIgd) (n : ℕ) : PortMapper := (u.log.drop n).foldl hear { m with upnp := u }

/-- Asks the gateway for the mapping, and waits for its answer. -/
def sendRequest : PortMapper :=
  if m.socket then
    let request := if m.protocol = .Pcp then m.buildPcpMap RequestedLifetime
      else m.buildNatPmpMap RequestedLifetime
    let delay := m.retryDelays.1.getD m.attempt (m.retryDelays.1.getLast m.retryDelays.2)
    { m.writeDatagram request with retryTimer := some delay }
  else m

/-- Goes over to a protocol. -/
def beginProtocol (protocol : Protocol) : PortMapper :=
  let m := { m with protocol, attempt := 0 }
  let m := { m with snapshot := { m.snapshot with
    state := .Discovering
    protocol := m.protocolName
    message := "Asking gateway " ++ qt.addressText m.gateway ++ " via " ++ m.protocolName } }
  let m := m.emit .changed
  if protocol = .Upnp then
    let m := { m with retryTimer := none }
    m.withUpnp (m.upnp.start m.gateway m.localAddress m.snapshot.internalPort
      m.snapshot.externalPort RequestedLifetime o.upnpBindsLocal o.upnpBindsAny o.errorString) 0
  else m.sendRequest

/-- Moves on to the next protocol, or fails with every reason so far. -/
def fallBack (reason : String) : PortMapper :=
  match m.protocol with
  | .Pcp => { m with reasons := m.reasons ++ [reason] }.beginProtocol qt o .NatPmp
  | .NatPmp => { m with reasons := m.reasons ++ [reason] }.beginProtocol qt o .Upnp
  | .Upnp => m.failWith reason

/-! ## Calls -/

/-- Sets the gateway to ask in the place of the default one. -/
def setGatewayOverride (address : HostAddress) (port : UInt16) : PortMapper :=
  { m with gatewayOverride := normalizeAddress address, gatewayOverridePort := port }

/-- Sets how long answers are waited for, one time after the other. -/
def setRetryDelays (delaysMs : List ℕ) : PortMapper :=
  if h : delaysMs ≠ [] then { m with retryDelays := ⟨delaysMs, h⟩ } else m

/-- Best effort: asks the gateway to drop the mapping now rather than leaving it to
    expire. -/
def release : PortMapper :=
  if m.snapshot.state ≠ .Mapped then m
  else if m.protocol = .Upnp then { m with upnp := m.upnp.releaseBlocking o.connects }
  else if m.socket then
    m.writeDatagram (if m.protocol = .Pcp then m.buildPcpMap 0 else m.buildNatPmpMap 0)
  else m

/-- Drops the mapping, and forgets it. -/
def stopInternal (notify : Bool) : PortMapper :=
  let m := m.release o
  let wasActive := m.active
  let m := { m with
    upnp := m.upnp.cancel
    retryTimer := none
    renewTimer := none
    socket := false
    active := false
    snapshot := {} }
  if notify ∧ wasActive then m.emit .changed else m

/-- Stops, and tells so. -/
def stop : PortMapper := m.stopInternal o true

/-- Starts anew: asks the gateway for a mapping of a port. -/
def start (internalPort : UInt16) : PortMapper :=
  let m := m.stopInternal o false
  let overridden := m.gatewayOverride ≠ .null
  let gateway := if overridden then m.gatewayOverride else o.defaultGateway
  let m := { m with
    active := true
    snapshot := { internalPort, gateway }
    reasons := []
    gateway
    gatewayPort := if overridden then m.gatewayOverridePort else GatewayPort }
  if m.gateway = .null then m.fail "No IPv4 default gateway found"
  else
    let m := { m with localAddress := normalizeAddress o.probeAddress, socket := true }
    if ¬o.binds then m.fail ("Could not open a socket for port mapping: " ++ o.errorString)
    else { m with nonce := o.nonce.1 }.beginProtocol qt o .Pcp

/-! ## What happens -/

/-- There was no answer in time: asks again, or goes over to the next protocol. -/
def onRetryTimeout : PortMapper :=
  let m := { m with attempt := m.attempt + 1 }
  if m.attempt < m.retryDelays.1.length then m.sendRequest
  else if m.protocol = .Pcp then m.beginProtocol qt o .NatPmp
  else m.fallBack qt o
    ("Gateway " ++ qt.addressText m.gateway ++ " did not answer PCP or NAT-PMP.")

/-- The mapping is to be renewed. -/
def onRenewTimeout : PortMapper :=
  if m.protocol = .Upnp then m.withUpnp (m.upnp.renew qt) m.upnp.log.length
  else { m with attempt := 0 }.sendRequest

/-- What an answer of PCP does. -/
def handlePcp (data : Bytes) : PortMapper :=
  if m.protocol ≠ .Pcp ∨ data.length < 24 then m
  else
    let opcode := data.getD 1 0
    if opcode &&& 0x80 = 0 ∨ opcode &&& 0x7f ≠ 1 then m
    else
      let result := (data.getD 3 0).toNat
      -- UNSUPP_VERSION
      if result = 1 then m.beginProtocol qt o .NatPmp
      else if result ≠ 0 then
        m.fallBack qt o ("Gateway refused the PCP mapping: " ++ pcpResultName result ++ ".")
      else if data.length < 60 ∨ (data.drop 24).take 12 ≠ m.nonce then m
      else
        let lifetime := UInt32.ofNat (numberAt data 4 4)
        let externalPort := UInt16.ofNat (numberAt data 42 2)
        let v6 := HostAddress.ipv6 (BitVec.ofNat 128 (numberAt data 44 16))
        m.mapped externalPort lifetime (normalizeAddress v6)

/-- What an answer of NAT-PMP does. -/
def handleNatPmp (data : Bytes) : PortMapper :=
  -- A NAT-PMP-only gateway answers a PCP request with a version 0 "unsupported version"
  -- reply.
  if m.protocol = .Pcp then m.beginProtocol qt o .NatPmp
  else if m.protocol ≠ .NatPmp ∨ data.length < 4 then m
  else
    let opcode := data.getD 1 0
    let result := numberAt data 2 2
    -- UDP mapping response
    if opcode = 129 then
      if result ≠ 0 then
        m.fallBack qt o ("Gateway refused the NAT-PMP mapping: " ++ natPmpResultName result ++ ".")
      else if data.length < 16 then m
      else
        let externalPort := UInt16.ofNat (numberAt data 10 2)
        let lifetime := UInt32.ofNat (numberAt data 12 4)
        -- The external address is asked for.
        (m.mapped externalPort lifetime .null).writeDatagram [0, 0]
    -- external address response
    else if opcode = 128 then
      if result ≠ 0 ∨ data.length < 12 then m
      else
        let externalAddress := HostAddress.ipv4 (BitVec.ofNat 32 (numberAt data 8 4))
        { m with snapshot := { m.snapshot with externalAddress } }.emit .changed
    else m

/-- A datagram, and who sent it. -/
structure Received where
  sender : Endpoint
  data : Bytes
  deriving DecidableEq

/-- What a datagram does: nothing, unless the gateway sent it. -/
def onDatagram (m : PortMapper) (datagram : Received) : PortMapper :=
  if normalizeAddress datagram.sender.address ≠ m.gateway ∨
      datagram.sender.port ≠ m.gatewayPort then m
  else if datagram.data.length < 2 then m
  else if datagram.data.getD 0 0 = 2 then m.handlePcp qt o datagram.data
  else if datagram.data.getD 0 0 = 0 then m.handleNatPmp qt o datagram.data
  else m

/-! ## Runs -/

/-- What may happen to a `PortMapper`. -/
inductive Event
  | start (internalPort : UInt16)
  | stop
  | setGatewayOverride (address : HostAddress) (port : UInt16)
  | setRetryDelays (delaysMs : List ℕ)
  | setUpnpSearchTarget (address : HostAddress) (port : UInt16)
  | setUpnpSearchDelays (delaysMs : List ℕ)
  | retryTimeout
  | renewTimeout
  /-- Datagrams are pending. -/
  | readyRead (pending : List Received)
  | upnpDatagrams (pending : List Datagram)
  | upnpSearchTimeout
  | upnpFinished (serial : ℕ) (reply : HttpReply) (draw : ℕ)

/-- Something happens. -/
def apply (m : PortMapper) (o : Outside) : Event → PortMapper
  | .start internalPort => m.start qt o internalPort
  | .stop => m.stop o
  | .setGatewayOverride address port => m.setGatewayOverride address port
  | .setRetryDelays delaysMs => m.setRetryDelays delaysMs
  | .setUpnpSearchTarget address port => { m with upnp := m.upnp.setSearchTarget address port }
  | .setUpnpSearchDelays delaysMs => { m with upnp := m.upnp.setSearchDelays delaysMs }
  | .retryTimeout =>
    if m.retryTimer.isSome then { m with retryTimer := none }.onRetryTimeout qt o else m
  | .renewTimeout =>
    if m.renewTimer.isSome then { m with renewTimer := none }.onRenewTimeout qt else m
  | .readyRead pending => if m.socket then pending.foldl (onDatagram qt o) m else m
  | .upnpDatagrams pending => m.withUpnp (m.upnp.apply qt (.datagrams pending)) m.upnp.log.length
  | .upnpSearchTimeout => m.withUpnp (m.upnp.apply qt .searchTimeout) m.upnp.log.length
  | .upnpFinished serial reply draw =>
    m.withUpnp (m.upnp.apply qt (.finished serial reply draw)) m.upnp.log.length

end PortMapper

end Dht
