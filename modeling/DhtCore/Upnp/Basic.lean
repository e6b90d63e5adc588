import DhtCore.Bencode
import DhtCore.Endpoint

/-!
# UPnP gateways

`UpnpIgd` maps a UDP port on an Internet Gateway Device: it searches for one with
SSDP, reads its description, and asks its WAN connection services one after the
other for the mapping.

* What Qt reads in texts (URLs, addresses, the elements of XML) is a parameter
  (`Qt`); what the program then makes of them is modelled
  (`Upnp.parseSearchResponse`, `Upnp.parseDescription`, `Upnp.parseSoapResponse`).
* A run is a sequence of `Event`s: calls from outside, datagrams, the timer, and
  HTTP requests that finish, well or badly. An event that cannot happen (a timer
  that is not running, a request that is not in flight) changes nothing.
* Aborting a request finishes it at once, under a generation that is over, so that
  nothing hears of it: `cancel` takes it out of those in flight.

Requests are numbered in the order in which they are made, which the program does
not do; nor does it keep the `log` of what happened since `start`.
-/

namespace Dht

namespace Upnp

/-! ## What Qt reads -/

/-- A URL, as far as the program looks at it (`QUrl`). -/
structure Url where
  text : String := ""
  scheme : String := ""
  host : String := ""
  isValid : Bool := false
  isRelative : Bool := true
  deriving DecidableEq, Inhabited

/-- What a reader of XML comes to, step by step (`QXmlStreamReader::readNext`). -/
inductive Token
  | startElement (name : String)
  | endElement (name : String)
  | characters (text : String)
  | entityReference (text : String)
  /-- The document's start and end, comments and processing instructions. -/
  | other

/-- A text read as XML, up to the first error if there is one. -/
structure Xml where
  tokens : List Token
  hasError : Bool

/-- What Qt reads in texts, and how it writes addresses. -/
structure Qt where
  /-- `QUrl::fromEncoded`. -/
  fromEncoded : Bytes → Url
  /-- `QUrl(text)`. -/
  url : String → Url
  /-- A reference resolved against a URL. -/
  resolved : Url → String → Url
  /-- `QHostAddress(text)`. -/
  hostAddress : String → HostAddress
  addressText : HostAddress → String
  xml : Bytes → Xml

/-- White space (`QChar::isSpace`). -/
def isSpace (c : Char) : Bool :=
  let n := c.toNat
  n = 0x20 || (9 ≤ n && n ≤ 13) || n = 0x85 || n = 0xa0 || n = 0x1680 ||
    (0x2000 ≤ n && n ≤ 0x200a) || n = 0x2028 || n = 0x2029 || n = 0x202f || n = 0x205f ||
    n = 0x3000

/-- A text without the white space around it (`QString::trimmed`). -/
def trimmedText (s : String) : String :=
  .ofList ((s.toList.dropWhile isSpace).reverse.dropWhile isSpace).reverse

/-- The `int` that a text is, zero if it is none (`QString::toInt`). -/
def toInt (s : String) : ℤ :=
  let (negative, digits) : Bool × List Char := match s.toList with
    | '-' :: digits => (true, digits)
    | '+' :: digits => (false, digits)
    | digits => (false, digits)
  let value : ℕ := digits.foldl (fun n c => 10 * n + (c.toNat - '0'.toNat)) 0
  let number : ℤ := if negative then -value else value
  if digits ≠ [] ∧ digits.all Char.isDigit ∧ -2 ^ 31 ≤ number ∧ number < 2 ^ 31 then number else 0

/-- Bytes without the white space around them (`QByteArray::trimmed`). -/
def trimmed (b : Bytes) : Bytes :=
  let isSpace (c : UInt8) : Bool := c = 32 || (9 ≤ c && c ≤ 13)
  ((b.dropWhile isSpace).reverse.dropWhile isSpace).reverse

/-- ASCII letters in upper case (`QByteArray::toUpper`). -/
def toUpper (b : Bytes) : Bytes := b.map fun c => if 97 ≤ c ∧ c ≤ 122 then c - 32 else c

/-! ## Search responses -/

/-- What an SSDP search response says. -/
structure SearchResponse where
  location : Url := {}
  searchTarget : Bytes := []

variable (qt : Qt)

/-- A header of a search response. -/
def SearchResponse.withHeader (r : SearchResponse) (raw : Bytes) : SearchResponse :=
  let line := trimmed raw
  let colon := line.idxOf (UInt8.ofNat ':'.toNat)
  if colon = 0 ∨ colon = line.length then r
  else
    let name := toUpper (trimmed (line.take colon))
    let value := trimmed (line.drop (colon + 1))
    if name = ascii "LOCATION" then { r with location := qt.fromEncoded value }
    else if name = ascii "ST" then { r with searchTarget := value }
    else r

/-- The search response that a datagram is, if it is one. -/
def parseSearchResponse (datagram : Bytes) : Option SearchResponse :=
  let lines := datagram.splitOn (UInt8.ofNat '\n'.toNat)
  let status := (trimmed (lines.headD [])).splitOn (UInt8.ofNat ' '.toNat)
  match status with
  | version :: code :: _ =>
    if ¬(ascii "HTTP/1.").isPrefixOf (toUpper version) ∨ code ≠ ascii "200" then none
    else
      let r := lines.tail.foldl (SearchResponse.withHeader qt) {}
      if ¬r.location.isValid ∨ r.location.scheme ≠ "http" ∨ r.location.host = "" then none
      else some r
  | _ => none

/-! ## Descriptions -/

/-- A service of a device. -/
structure Service where
  type : String
  controlUrl : Url
  deriving DecidableEq

/-- The best services come first. -/
def serviceRank (type : String) : ℕ :=
  if type = "urn:schemas-upnp-org:service:WANIPConnection:2" then 0
  else if type = "urn:schemas-upnp-org:service:WANIPConnection:1" then 1
  else if type = "urn:schemas-upnp-org:service:WANPPPConnection:1" then 2
  else 3

/-- Whether a service is one that maps ports. -/
def isWanConnection (type : String) : Bool :=
  "urn:schemas-upnp-org:service:WANIPConnection:".toList.isPrefixOf type.toList ||
    "urn:schemas-upnp-org:service:WANPPPConnection:".toList.isPrefixOf type.toList

/-- The text of the element that was just started, and what there is to read after
    its end. An element in it is an error, which ends the reading. -/
def readElementText : List Token → String × List Token
  | [] => ("", [])
  | .characters text :: rest | .entityReference text :: rest =>
    (text ++ (readElementText rest).1, (readElementText rest).2)
  | .endElement _ :: rest => ("", rest)
  | .startElement _ :: _ => ("", [])
  | .other :: rest => readElementText rest

theorem length_readElementText_le : ∀ tokens, (readElementText tokens).2.length ≤ tokens.length
  | [] | .endElement _ :: _ | .startElement _ :: _ => by simp [readElementText]
  | .characters _ :: rest | .entityReference _ :: rest | .other :: rest => by
    rw [readElementText, List.length_cons]
    exact (length_readElementText_le rest).trans (Nat.le_succ _)

/-- What was read of a description. -/
structure Description where
  base : Url := {}
  /-- Types and control URLs. -/
  found : List (String × String) := []
  inService : Bool := false
  type : String := ""
  control : String := ""

/-- Reads on, from a token on; what follows the rest is left to read. -/
def Description.next (d : Description) (rest : List Token) : Token → Description × List Token
  | .startElement name =>
    if name = "URLBase" then
      ({ d with base := qt.url (trimmedText (readElementText rest).1) }, (readElementText rest).2)
    else if name = "service" then ({ d with inService := true, type := "", control := "" }, rest)
    else if d.inService ∧ name = "serviceType" then
      ({ d with type := trimmedText (readElementText rest).1 }, (readElementText rest).2)
    else if d.inService ∧ name = "controlURL" then
      ({ d with control := trimmedText (readElementText rest).1 }, (readElementText rest).2)
    else (d, rest)
  | .endElement name =>
    if name = "service" then
      ({ d with
        inService := false
        found := if isWanConnection d.type ∧ d.control ≠ "" then d.found ++ [(d.type, d.control)]
          else d.found }, rest)
    else (d, rest)
  | .characters _ | .entityReference _ | .other => (d, rest)

theorem Description.length_next_le (d : Description) (rest : List Token) (token : Token) :
    (d.next qt rest token).2.length ≤ rest.length := by
  cases token with
  | startElement name =>
    simp only [next]
    split_ifs
    · exact length_readElementText_le rest
    · exact le_rfl
    · exact length_readElementText_le rest
    · exact length_readElementText_le rest
    · exact le_rfl
  | endElement name =>
    simp only [next]
    split_ifs <;> exact le_rfl
  | characters | entityReference | other => exact le_rfl

/-- Reads a description to its end. -/
def Description.readAll (d : Description) : List Token → Description
  | [] => d
  | token :: rest => readAll (d.next qt rest token).1 (d.next qt rest token).2
termination_by tokens => tokens.length
decreasing_by exact Nat.lt_succ_of_le (d.length_next_le qt rest token)

/-- The WAN connection services in a device description, best first. Relative control
    URLs are resolved against `URLBase`, or else the location. -/
def parseDescription (xml : Bytes) (location : Url) : List Service :=
  let d := Description.readAll qt {} (qt.xml xml).tokens
  let root := if d.base.isValid ∧ ¬d.base.isRelative then d.base else location
  let services := d.found.map fun (t, c) => Service.mk t (qt.resolved root c)
  services.mergeSort fun a b => serviceRank a.type ≤ serviceRank b.type

/-! ## SOAP -/

/-- A text without characters that mean something in HTML (`QString::toHtmlEscaped`). -/
def toHtmlEscaped (s : String) : String :=
  .join (s.toList.map fun
    | '<' => "&lt;"
    | '>' => "&gt;"
    | '&' => "&amp;"
    | '"' => "&quot;"
    | c => c.toString)

/-- The body of a request to a service. -/
def soapEnvelope (serviceType action : String) (arguments : List (String × String)) : String :=
  "<?xml version=\"1.0\"?>\r\n" ++
  "<s:Envelope xmlns:s=\"http://schemas.xmlsoap.org/soap/envelope/\" " ++
  "s:encodingStyle=\"http://schemas.xmlsoap.org/soap/encoding/\"><s:Body>" ++
  "<u:" ++ action ++ " xmlns:u=\"" ++ serviceType ++ "\">" ++
  .join (arguments.map fun (name, value) =>
    "<" ++ name ++ ">" ++ toHtmlEscaped value ++ "</" ++ name ++ ">") ++
  "</u:" ++ action ++ "></s:Body></s:Envelope>\r\n"

/-- A SOAP reply: the text of each element in the body, and for a fault the UPnP error
    code and description. -/
structure SoapResult where
  ok : Bool := false
  errorCode : ℤ := 0
  errorDescription : String := ""
  values : List (String × String) := []

/-- The text of an element, empty if there is none. -/
def SoapResult.value (r : SoapResult) (element : String) : String :=
  (r.values.lookup element).getD ""

/-- An element whose end was not read yet. -/
structure Open where
  name : String
  text : String := ""
  hasChildren : Bool := false

/-- What was read of a SOAP reply. The innermost element comes first. -/
structure SoapReader where
  stack : List Open := []
  fault : Bool := false
  result : SoapResult := {}

/-- The end of a leaf: the values, not their containers. -/
def SoapResult.withLeaf (r : SoapResult) (name text : String) : SoapResult :=
  let r := { r with values := r.values ++ [(name, text)] }
  if name = "errorCode" then { r with errorCode := toInt text }
  else if name = "errorDescription" then { r with errorDescription := text }
  else r

/-- What is made of the next token. -/
def SoapReader.next (r : SoapReader) : Token → SoapReader
  | .startElement name =>
    { r with
      stack := { name } :: match r.stack with
        | [] => []
        | e :: stack => { e with hasChildren := true } :: stack
      fault := r.fault || name = "Fault" }
  | .characters text => match r.stack with
    | [] => r
    | e :: stack => { r with stack := { e with text := e.text ++ text } :: stack }
  | .endElement _ => match r.stack with
    | [] => r
    | e :: stack =>
      { r with
        stack
        result := if e.hasChildren then r.result
          else r.result.withLeaf e.name (trimmedText e.text) }
  | .entityReference _ | .other => r

/-- What a service answered. -/
def parseSoapResponse (httpStatus : ℤ) (body : Bytes) : SoapResult :=
  let xml := qt.xml body
  let r := xml.tokens.foldl SoapReader.next {}
  { r.result with ok := httpStatus = 200 ∧ ¬r.fault ∧ ¬xml.hasError }

end Upnp

open Upnp

/-! ## The gateway's client -/

/-- What a `UpnpIgd` is about. -/
inductive Stage
  | Idle
  | Searching
  | Describing
  | Mapping
  | Renewing
  | AskingAddress
  | Mapped
  deriving DecidableEq, Repr

/-- Which function is told that a request has finished. -/
inductive Handler
  | onDescription
  | onAddMapping
  | onAddress
  deriving DecidableEq, Repr

/-- An HTTP request. -/
inductive Request
  | get (url : Url)
  | post (url : Url) (soapAction body : String)
  deriving DecidableEq

/-- A request in flight. -/
structure InFlight where
  serial : ℕ
  handler : Handler
  generation : ℕ
  deriving DecidableEq

/-- How a request finished. -/
structure HttpReply where
  /-- Whether there was an error. -/
  error : Bool := false
  errorString : String := ""
  /-- Zero if there is none. -/
  status : ℤ := 0
  body : Bytes := []
  deriving DecidableEq

/-- What a `UpnpIgd` did, read and emitted. -/
inductive Happening
  | progress (message : String)
  | searched (target : HostAddress) (port : UInt16) (st : String)
  | requested (request : Request)
  /-- A description was read. -/
  | described (services : List Service)
  | mapped (externalPort : UInt16) (leaseSeconds : UInt32) (externalAddress : HostAddress)
  | failed (message : String)
  /-- The gateway was sent `DeletePortMapping`. -/
  | released (service : Service) (externalPort : UInt16)
  deriving DecidableEq

/-- A datagram, and who sent it. -/
structure Datagram where
  senderAddress : HostAddress
  data : Bytes
  deriving DecidableEq

/-- The times to wait for answers to a search, one after the other, in milliseconds. -/
abbrev SearchDelays := { delays : List ℕ // delays ≠ [] }

/-- Maps a UDP port on an Internet Gateway Device. -/
structure UpnpIgd where
  /-- Whether the search socket is open. -/
  socket : Bool := false
  /-- What the search timer was started with, while it runs. -/
  searchTimer : Option ℕ := none
  searchDelays : SearchDelays := ⟨[1000, 1000, 1500], List.cons_ne_nil _ _⟩
  searchAttempt : ℕ := 0
  searchOverride : HostAddress := .null
  searchOverridePort : UInt16 := 1900
  gateway : HostAddress := .null
  localAddress : HostAddress := .null
  internalPort : UInt16 := 0
  externalPort : UInt16 := 0
  lease : UInt32 := 0
  conflicts : ℕ := 0
  /-- Found by the search, the gateway's first. -/
  locations : List Url := []
  nextLocation : ℕ := 0
  location : Url := {}
  services : List Service := []
  serviceIndex : ℕ := 0
  problems : List String := []
  stage : Stage := .Idle
  generation : ℕ := 0
  /-- The request made last, unless it was heard of. -/
  reply : Option ℕ := none
  inFlight : List InFlight := []
  /-- How many requests were made. -/
  posted : ℕ := 0
  log : List Happening := []

namespace UpnpIgd

/-- The port that devices are searched at. -/
def SsdpPort : UInt16 := 1900

/-- How often another port is tried when one is taken. -/
def MaxConflictRetries : ℕ := 3

/-- A gateway that only allows permanent mappings is refreshed this often instead. -/
def PermanentRefreshSeconds : UInt32 := 30 * 60

/-- The group that devices are searched in. -/
def SsdpGroup : HostAddress := .ipv4 (HostAddress.dotted 239 255 255 250)

variable (qt : Qt) (u : UpnpIgd)

/-- Takes down what was done. -/
def emit (h : Happening) : UpnpIgd := { u with log := u.log ++ [h] }

/-! ### Calls -/

/-- Sets where to search in the place of the group. -/
def setSearchTarget (address : HostAddress) (port : UInt16) : UpnpIgd :=
  { u with searchOverride := address, searchOverridePort := port }

/-- Sets how long answers to a search are waited for, one time after the other. -/
def setSearchDelays (delaysMs : List ℕ) : UpnpIgd :=
  if h : delaysMs ≠ [] then { u with searchDelays := ⟨delaysMs, h⟩ } else u

/-- Drops whatever is under way. -/
def cancel : UpnpIgd :=
  { u with
    generation := u.generation + 1
    searchTimer := none
    inFlight := u.inFlight.filter fun r => some r.serial ≠ u.reply
    reply := none
    socket := false
    stage := .Idle }

/-- Drops whatever is under way, and tells why. -/
def fail (message : String) : UpnpIgd := u.cancel.emit (.failed message)

/-- Searches for a gateway, and waits for answers. -/
def search : UpnpIgd :=
  let target := if u.searchOverride = .null then SsdpGroup else u.searchOverride
  let port := if u.searchOverride = .null then SsdpPort else u.searchOverridePort
  let u := u.emit (.searched target port "urn:schemas-upnp-org:device:InternetGatewayDevice:1")
  let u := u.emit (.searched target port "urn:schemas-upnp-org:device:InternetGatewayDevice:2")
  let delay := u.searchDelays.1.getD u.searchAttempt (u.searchDelays.1.getLast u.searchDelays.2)
  { u with searchTimer := some delay }

/-- Makes an HTTP request. -/
def request (r : Request) (handler : Handler) : UpnpIgd :=
  { u with
    reply := some u.posted
    inFlight := u.inFlight ++ [⟨u.posted, handler, u.generation⟩]
    posted := u.posted + 1
    log := u.log ++ [.requested r] }

/-- Asks a device to describe itself. -/
def describe (location : Url) : UpnpIgd :=
  let u := { u with
    searchTimer := none
    stage := .Describing
    location
    nextLocation := u.locations.idxOf location }
  let u := u.emit (.progress ("Reading the UPnP description at " ++ location.text))
  u.request (.get location) .onDescription

/-- In the order the specification lists them; some gateways insist. -/
def addArguments : List (String × String) :=
  [("NewRemoteHost", ""), ("NewExternalPort", toString u.externalPort.toNat),
    ("NewProtocol", "UDP"), ("NewInternalPort", toString u.internalPort.toNat),
    ("NewInternalClient", qt.addressText u.localAddress), ("NewEnabled", "1"),
    ("NewPortMappingDescription", "DHT Inspector"),
    ("NewLeaseDuration", toString u.lease.toNat)]

/-- Posts to the service that is asked at present. -/
def post (action : String) (arguments : List (String × String)) (handler : Handler) : UpnpIgd :=
  match u.services[u.serviceIndex]? with
  | some service =>
    u.request (.post service.controlUrl ("\"" ++ service.type ++ "#" ++ action ++ "\"")
      (soapEnvelope service.type action arguments)) handler
  | none => u

/-- Asks the service for the mapping. -/
def addMapping : UpnpIgd :=
  let u := u.emit (.progress ("Asking " ++ u.location.host ++ " for port " ++
    toString u.externalPort.toNat ++ " via UPnP"))
  u.post "AddPortMapping" (u.addArguments qt) .onAddMapping

/-- Asks the service for the external address. -/
def askAddress : UpnpIgd :=
  { u with stage := .AskingAddress }.post "GetExternalIPAddress" [] .onAddress

/-- Goes on to the next device, or fails with every problem so far. -/
def tryNextLocation (why : String) : UpnpIgd :=
  let u := { u with problems := u.problems ++ [why] }
  match u.locations[u.nextLocation + 1]? with
  | some location => u.describe location
  | none => u.fail ("UPnP failed: " ++ "; ".intercalate u.problems)

/-- Forgets the attempt before. -/
def reset (gateway localAddress : HostAddress) (internalPort suggestedExternalPort : UInt16)
    (leaseSeconds : UInt32) : UpnpIgd :=
  { u.cancel with
    gateway := normalizeAddress gateway
    localAddress := normalizeAddress localAddress
    internalPort
    externalPort := if suggestedExternalPort ≠ 0 then suggestedExternalPort else internalPort
    lease := leaseSeconds
    conflicts := 0
    locations := []
    nextLocation := 0
    location := {}
    services := []
    serviceIndex := 0
    problems := []
    log := [] }

/-- `bindsLocal` and `bindsAny` are whether a socket can be bound to the local address and
    to any, `errorString` why not. -/
def start (gateway localAddress : HostAddress) (internalPort suggestedExternalPort : UInt16)
    (leaseSeconds : UInt32) (bindsLocal bindsAny : Bool) (errorString : String) : UpnpIgd :=
  let u := u.reset gateway localAddress internalPort suggestedExternalPort leaseSeconds
  match u.localAddress with
  | .null | .ipv6 _ => u.fail "UPnP: no local IPv4 address towards the gateway"
  | .ipv4 _ =>
    if bindsLocal ∨ bindsAny then
      let u := { u with socket := true, stage := .Searching, searchAttempt := 0 }
      (u.emit (.progress "Searching for a UPnP gateway")).search
    else u.fail ("UPnP: could not open a socket: " ++ errorString)

/-- Adds the same mapping again, extending its lease. -/
def renew : UpnpIgd :=
  if u.stage ≠ .Mapped ∨ u.services = [] then u
  else { u with stage := .Renewing }.addMapping qt

/-- Removes the mapping, if the gateway can be connected to in time. -/
def releaseBlocking (connects : Bool) : UpnpIgd :=
  if u.stage ≠ .Mapped ∧ u.stage ≠ .Renewing then u
  else match u.services[u.serviceIndex]? with
    | none => u
    | some service =>
      if connects then u.cancel.emit (.released service u.externalPort) else u.cancel

/-! ### What happens -/

/-- The wait for answers is over. -/
def onSearchTimeout : UpnpIgd :=
  if u.stage ≠ .Searching then u
  else
    let u := { u with searchAttempt := u.searchAttempt + 1 }
    match u.locations with
    -- No answer from the gateway itself, but other devices answered.
    | location :: _ => u.describe location
    | [] =>
      if u.searchAttempt < u.searchDelays.1.length then u.search
      else u.fail "No UPnP gateway answered"

/-- What comes after the gateway's own answer stays in the socket: it is not looked at,
    as the search is over. -/
def onDatagrams : List Datagram → UpnpIgd → UpnpIgd
  | [], u => u
  | datagram :: rest, u =>
    match parseSearchResponse qt datagram.data with
    | none => onDatagrams rest u
    | some response =>
      if u.stage ≠ .Searching then onDatagrams rest u
      else if response.location ∈ u.locations then onDatagrams rest u
      else if qt.hostAddress response.location.host = u.gateway ∨
          normalizeAddress datagram.senderAddress = u.gateway then
        { u with locations := response.location :: u.locations, searchTimer := none }.describe
          response.location
      else onDatagrams rest { u with locations := u.locations ++ [response.location] }

/-- The request made last is heard of. -/
def clearReply : UpnpIgd := { u with reply := none }

/-- The services that a description offers. -/
def withServices (services : List Service) : UpnpIgd :=
  { u with services, log := u.log ++ [.described services] }

/-- A description was asked for: its first service is asked for the mapping. -/
def onDescription (reply : HttpReply) : UpnpIgd :=
  let u := u.clearReply
  if reply.error then u.tryNextLocation (u.location.text ++ ": " ++ reply.errorString)
  else
    let u := u.withServices (parseDescription qt reply.body u.location)
    if u.services = [] then
      u.tryNextLocation (u.location.text ++ " offers no WAN connection service")
    else { u with serviceIndex := 0, stage := .Mapping }.addMapping qt

/-- A port from 49152 on (`QRandomGenerator::bounded`). -/
def drawPort (draw : ℕ) : UInt16 := UInt16.ofNat (49152 + draw % (65536 - 49152))

/-- Why a mapping was refused. -/
def refusal (result : SoapResult) (reply : HttpReply) : String :=
  if result.errorCode ≠ 0 then
    "error " ++ toString result.errorCode ++ " " ++ result.errorDescription
  else if reply.status ≠ 0 then "HTTP status " ++ toString reply.status
  else reply.errorString

/-- A mapping was asked for: it stands, is asked for otherwise, or is refused. -/
def onAddMapping (reply : HttpReply) (draw : ℕ) : UpnpIgd :=
  let u := u.clearReply
  let result := parseSoapResponse qt reply.status reply.body
  let reason := refusal result reply
  if result.ok then
    if u.stage = .Renewing then
      { u with stage := .Mapped }.emit (.mapped u.externalPort u.lease .null)
    else u.askAddress
  else if result.errorCode = 718 ∧ u.conflicts < MaxConflictRetries then
    -- Someone else holds the port on the gateway: pick another.
    { u with conflicts := u.conflicts + 1, externalPort := drawPort draw }.addMapping qt
  else if result.errorCode = 725 ∧ u.lease ≠ 0 then
    -- OnlyPermanentLeasesSupported.
    { u with lease := 0 }.addMapping qt
  else if u.stage = .Renewing then
    u.fail ("UPnP gateway " ++ u.location.host ++ " would not renew the mapping: " ++ reason)
  else if result.errorCode = 606 ∨ result.errorCode = 401 ∨ result.errorCode = 0 then
    -- Not allowed or not understood here: another service or device may do better.
    if u.serviceIndex + 1 < u.services.length then
      { u with serviceIndex := u.serviceIndex + 1 }.addMapping qt
    else u.tryNextLocation (u.location.host ++ " refused the mapping (" ++ reason ++ ")")
  else u.fail ("UPnP gateway " ++ u.location.host ++ " refused the mapping: " ++ reason)

/-- The address was asked for. -/
def onAddress (reply : HttpReply) : UpnpIgd :=
  let result := parseSoapResponse qt reply.status reply.body
  let external := if result.ok then qt.hostAddress (result.value "NewExternalIPAddress") else .null
  -- The mapping stands whether or not the address came back.
  { u.clearReply with stage := .Mapped, socket := false }.emit
    (.mapped u.externalPort u.lease external)

/-- What hears of a request is told how it finished. -/
def handle (reply : HttpReply) (draw : ℕ) : Handler → UpnpIgd
  | .onDescription => u.onDescription qt reply
  | .onAddMapping => u.onAddMapping qt reply draw
  | .onAddress => u.onAddress qt reply

/-- A request has finished. Nothing hears of it if its generation is over. -/
def onFinished (r : InFlight) (reply : HttpReply) (draw : ℕ) : UpnpIgd :=
  let u := { u with inFlight := u.inFlight.erase r }
  if r.generation = u.generation then u.handle qt reply draw r.handler else u

/-! ### Runs -/

/-- What may happen to a `UpnpIgd`. -/
inductive Event
  | start (gateway localAddress : HostAddress) (internalPort suggestedExternalPort : UInt16)
    (leaseSeconds : UInt32) (bindsLocal bindsAny : Bool) (errorString : String)
  | renew
  | releaseBlocking (connects : Bool)
  | cancel
  | setSearchTarget (address : HostAddress) (port : UInt16)
  | setSearchDelays (delaysMs : List ℕ)
  /-- Datagrams are pending. -/
  | datagrams (pending : List Datagram)
  /-- The search timer fires. -/
  | searchTimeout
  /-- The request of the number finishes. -/
  | finished (serial : ℕ) (reply : HttpReply) (draw : ℕ)
  deriving DecidableEq

/-- Something happens. -/
def apply : Event → UpnpIgd
  | .start gateway localAddress internalPort suggested leaseSeconds bindsLocal bindsAny error =>
    u.start gateway localAddress internalPort suggested leaseSeconds bindsLocal bindsAny error
  | .renew => u.renew qt
  | .releaseBlocking connects => u.releaseBlocking connects
  | .cancel => u.cancel
  | .setSearchTarget address port => u.setSearchTarget address port
  | .setSearchDelays delaysMs => u.setSearchDelays delaysMs
  | .datagrams pending => if u.socket then onDatagrams qt pending u else u
  | .searchTimeout =>
    if u.searchTimer.isSome then { u with searchTimer := none }.onSearchTimeout else u
  | .finished serial reply draw =>
    match u.inFlight.find? (·.serial = serial) with
    | some r => u.onFinished qt r reply draw
    | none => u

end UpnpIgd

end Dht
