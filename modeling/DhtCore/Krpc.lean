import DhtCore.Bencode.Decoder
import DhtCore.Endpoint

/-!
# KRPC messages

The messages of the protocol: the encoding of queries, responses and errors, and
the node and peer lists that they carry. What a datagram parses to (`parse`) is a
`Message`.
-/

namespace Dht.Krpc

/-- The kinds of messages. -/
inductive MessageType
  | Query
  | Response
  | Error
  deriving DecidableEq, Repr

/-- A message received. -/
structure Message where
  type : MessageType := .Query
  transactionId : Bytes := []
  /-- Queries only. -/
  method : Bytes := []
  /-- `a` for queries, `r` for responses. -/
  body : BValue := .invalid
  errorCode : ℤ := 0
  errorMessage : Bytes := []
  version : Bytes := []
  /-- How the sender sees us (`ip`). -/
  reportedAddress : Option Endpoint := none
  readOnly : Bool := false
  deriving Inhabited

/-- The error for a malformed message, wrong arguments, or a bad token. -/
def ProtocolError : ℤ := 203

/-- The error for a method that is not known. -/
def MethodUnknown : ℤ := 204

/-- The `id` argument or return value, if present and well formed. -/
def Message.senderId (message : Message) : Option NodeId :=
  (message.body.stringAt (ascii "id")).bind NodeId.fromBytes

/-- What parsing yields. -/
structure ParseResult where
  message : Option Message := none
  error : String := ""
  /-- Whenever `t` was readable. -/
  transactionId : Bytes := []
  warnings : List String := []

/-- The message of a type, from what was read of it so far. -/
def parseBody (out : ParseResult) (message : Message) (root : BValue) (y : UInt8) : ParseResult :=
  if y = 'q'.toUInt8 then
    match root.stringAt (ascii "q"), root.dictAt (ascii "a") with
    | none, _ => { out with error := "query without method name 'q'" }
    | some _, none => { out with error := "query without argument dictionary 'a'" }
    | some method, some args =>
      { out with message := some { message with type := .Query, method, body := args } }
  else if y = 'r'.toUInt8 then
    match root.dictAt (ascii "r") with
    | none => { out with error := "response without return dictionary 'r'" }
    | some values => { out with message := some { message with type := .Response, body := values } }
  else if y = 'e'.toUInt8 then
    match ((root.listAt (ascii "e")).map BValue.toList).getD [] with
    | .integer code _ :: rest =>
      let errorMessage := match rest with
        | .string text _ :: _ => text
        | _ => []
      { out with message := some { message with type := .Error, errorCode := code, errorMessage } }
    | _ =>
      { out with
        message := some { message with type := .Error }
        warnings := out.warnings ++ ["error message without a [code, message] list"] }
  else { out with error := s!"unknown message type '{String.singleton (Char.ofNat y.toNat)}'" }

/-- Reads a message from a datagram, or says what is wrong with it. -/
def parse (datagram : Bytes) : ParseResult :=
  let decoded := bdecode datagram
  let out : ParseResult := { warnings := decoded.warnings }
  match decoded.error with
  | some e => { out with error := s!"bencode error at offset {e.offset}: {e.message}" }
  | none =>
    let root := decoded.value
    if !root.isDict then { out with error := "top-level value is not a dictionary" }
    else
      match root.stringAt (ascii "t") with
      | none => { out with error := "missing transaction id 't'" }
      | some tid =>
        let out := { out with transactionId := tid }
        match root.stringAt (ascii "y") with
        | some [y] =>
          let message : Message :=
            { transactionId := tid
              version := (root.stringAt (ascii "v")).getD []
              reportedAddress := (root.stringAt (ascii "ip")).bind Endpoint.fromCompact
              readOnly := root.integerAt (ascii "ro") = some 1 }
          parseBody out message root y
        | _ => { out with error := "missing or invalid message type 'y'" }

/-- The datagram of a query. -/
def encodeQuery (transactionId method : Bytes) (arguments : BValue.Dict) (version : Bytes)
    (readOnly : Bool) : Bytes :=
  let root : BValue.Dict := []
  let root := root.emplace (ascii "t") (.string transactionId)
  let root := root.emplace (ascii "y") (.string (ascii "q"))
  let root := root.emplace (ascii "q") (.string method)
  let root := root.emplace (ascii "a") (.dict arguments)
  let root := if readOnly then root.emplace (ascii "ro") (.integer 1) else root
  let root := if !version.isEmpty then root.emplace (ascii "v") (.string version) else root
  bencode (.dict root)

/-- The datagram of a response. -/
def encodeResponse (transactionId : Bytes) (values : BValue.Dict) (version : Bytes)
    (requester : Endpoint) : Bytes :=
  let root : BValue.Dict := []
  let root := root.emplace (ascii "t") (.string transactionId)
  let root := root.emplace (ascii "y") (.string (ascii "r"))
  let root := root.emplace (ascii "r") (.dict values)
  let root := if requester.isValid then root.emplace (ascii "ip") (.string requester.toCompact)
      else root
  let root := if !version.isEmpty then root.emplace (ascii "v") (.string version) else root
  bencode (.dict root)

/-- The datagram of an error. -/
def encodeError (transactionId : Bytes) (code : ℤ) (message version : Bytes) : Bytes :=
  let root : BValue.Dict := []
  let root := root.emplace (ascii "t") (.string transactionId)
  let root := root.emplace (ascii "y") (.string (ascii "e"))
  let root := root.emplace (ascii "e") (.list [.integer code, .string message])
  let root := if !version.isEmpty then root.emplace (ascii "v") (.string version) else root
  bencode (.dict root)

/-- A node of a compact list. -/
structure CompactNode where
  id : NodeId
  endpoint : Endpoint
  deriving DecidableEq

/-- The nodes of a compact list, and whether bytes were left over. -/
structure DecodedNodes where
  nodes : List CompactNode := []
  malformed : Bool := false

/-- The compact list of nodes, without those of the other family. -/
def encodeNodes (nodes : List CompactNode) (family : Family) : Bytes :=
  nodes.flatMap fun node =>
    if node.endpoint.family ≠ family then [] else node.id.toBytes ++ node.endpoint.toCompact

/-- The length of an entry of a compact node list. -/
def nodeEntryLength : Family → ℕ
  | .IPv4 => 26
  | .IPv6 => 38

/-- The entries of a compact node list, of which so many whole ones are left. -/
def decodeEntries (entry : ℕ) : ℕ → Bytes → List CompactNode
  | 0, _ => []
  | left + 1, data =>
    match NodeId.fromBytes (data.take NodeId.Size),
      Endpoint.fromCompact ((data.take entry).drop NodeId.Size) with
    | some id, some endpoint => ⟨id, endpoint⟩ :: decodeEntries entry left (data.drop entry)
    | _, _ => decodeEntries entry left (data.drop entry)

/-- The nodes of a compact list (BEP 5 `nodes`, BEP 32 `nodes6`). -/
def decodeNodes (data : Bytes) (family : Family) : DecodedNodes :=
  let entry := nodeEntryLength family
  { nodes := decodeEntries entry (data.length / entry) data
    malformed := data.length % entry ≠ 0 }

/-- The peers of a `values` list, those of a family. -/
def decodePeers (values : Option BValue) (family : Family) : List Endpoint :=
  match values with
  | none => []
  | some values =>
    if !values.isList then []
    else
      let expected := match family with
        | .IPv4 => 6
        | .IPv6 => 18
      values.toList.filterMap fun
        | .string bytes _ => if bytes.length = expected then Endpoint.fromCompact bytes else none
        | _ => none

end Dht.Krpc
