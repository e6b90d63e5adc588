import DhtCore.Bencode.RoundTrip
import DhtCore.Krpc.Parsing

/-!
# Encoding and parsing agree

The three encoders against the one parser: what is encoded parses, without an error or
a warning, to a message with all that was encoded in it (`parse_encode`).

An encoder adds its entries one by one (`Dict.emplace`), which keeps them in order
(`Encodable.emplace`); so the datagram decodes to the root that was encoded, up to where
its values were read from. The accessors of the parser do not see the difference
(`stringAt_erase` and its like), and read from the root what was added to it.
-/

namespace Dht

namespace BValue

/-! ## Roots -/

/-- Adding an entry keeps the keys in order. -/
theorem Dict.pairwise_emplace {key : Bytes} {value : BValue} {dict : Dict}
    (h : (dict.map Prod.fst).Pairwise (· < ·)) :
    ((dict.emplace key value).map Prod.fst).Pairwise (· < ·) := by
  induction dict with
  | nil => exact List.pairwise_singleton _ _
  | cons e dict ih =>
    obtain ⟨k, v⟩ := e
    rw [List.map_cons, List.pairwise_cons] at h
    rw [emplace]
    split_ifs with hlt heq
    · -- Before the first key, it is before all of them.
      refine List.pairwise_cons.2 ⟨fun k' hk' => ?_, List.pairwise_cons.2 h⟩
      rcases List.mem_cons.1 hk' with rfl | hk'
      · exact hlt
      · exact List.lt_trans hlt (h.1 k' hk')
    · exact List.pairwise_cons.2 h
    · refine List.pairwise_cons.2 ⟨fun k' hk' => ?_, ih h.2⟩
      obtain ⟨e', he', rfl⟩ := List.mem_map.1 hk'
      rcases mem_emplace he' with rfl | he'
      · exact ((Std.lt_trichotomy k key).resolve_right fun h =>
          h.elim (fun h => heq h.symm) hlt)
      · exact h.1 _ (List.mem_map_of_mem he')

variable {levels : ℕ} {value : BValue} {dict : Dict}

theorem encodable_nil : (BValue.dict []).Encodable (levels + 1) :=
  ⟨List.Pairwise.nil, fun _ he => absurd he List.not_mem_nil⟩

/-- An entry that can be encoded can be added to a dictionary that can. -/
theorem Encodable.emplace (h : (BValue.dict dict).Encodable (levels + 1)) (key : Bytes)
    (hkey : key.length < 10 ^ 10) (hvalue : value.Encodable levels) :
    (BValue.dict (dict.emplace key value)).Encodable (levels + 1) := by
  refine ⟨Dict.pairwise_emplace h.1, fun e he => ?_⟩
  rcases Dict.mem_emplace he with rfl | he
  · exact ⟨hkey, hvalue⟩
  · exact h.2 e he

theorem encodable_string {s : Bytes} (h : s.length < 10 ^ 10) :
    (BValue.string s).Encodable levels := by
  cases levels <;> exact h

theorem encodable_integer {n : ℤ} (h : Bencode.IsInt64 n) :
    (BValue.integer n).Encodable levels := by
  cases levels <;> exact h

/-! ## What the accessors see -/

theorem lookup_eraseDict (key : Bytes) : ∀ entries : Dict,
    List.lookup key (eraseDict entries) = (entries.lookup key).map erase
  | [] => rfl
  | (k, v) :: entries => by
    rw [eraseDict, List.lookup_cons, List.lookup_cons, lookup_eraseDict key entries]
    cases key == k <;> rfl

/-- What is found in a value does not depend on where it was read from. -/
theorem find_erase (v : BValue) (key : Bytes) : v.erase.find key = (v.find key).map erase := by
  cases v with
  | dict entries span => exact lookup_eraseDict key entries
  | _ => rfl

theorem stringAt_erase (v : BValue) (key : Bytes) : v.erase.stringAt key = v.stringAt key := by
  rw [stringAt, stringAt, find_erase]
  cases v.find key with
  | none => rfl
  | some w => cases w <;> rfl

theorem integerAt_erase (v : BValue) (key : Bytes) : v.erase.integerAt key = v.integerAt key := by
  rw [integerAt, integerAt, find_erase]
  cases v.find key with
  | none => rfl
  | some w => cases w <;> rfl

theorem dictAt_erase (v : BValue) (key : Bytes) :
    v.erase.dictAt key = (v.dictAt key).map erase := by
  rw [dictAt, dictAt, find_erase]
  cases v.find key with
  | none => rfl
  | some w => cases w <;> rfl

theorem listAt_erase (v : BValue) (key : Bytes) :
    v.erase.listAt key = (v.listAt key).map erase := by
  rw [listAt, listAt, find_erase]
  cases v.find key with
  | none => rfl
  | some w => cases w <;> rfl

theorem isDict_erase (v : BValue) : v.erase.isDict = v.isDict := by cases v <;> rfl

end BValue

namespace Krpc

open Bencode BValue

/-- The message without where its body was read from. -/
def Message.erase (message : Message) : Message := { message with body := message.body.erase }

/-- The datagram parses to the message, without an error or a warning; and it has a version
    if the message does. -/
structure Parses (datagram : Bytes) (message : Message) : Prop where
  read : ∃ read, parse datagram =
    { message := some read, transactionId := message.transactionId } ∧ read.erase = message.erase
  version : ((bdecode datagram).value.find (ascii "v") = none) ↔ message.version = []

/-- The entry of a version, which is left out if empty. -/
def versionEntry (version : Bytes) : Option BValue :=
  if version = [] then none else some (.string version)

variable {root : BValue.Dict} {transactionId version : Bytes}

/-- A root that is encoded is parsed as the root it was: of what can be read from a value
    that differs from it in where it was read from. -/
theorem parses_bencode {message : Message} (root : BValue.Dict) (y : UInt8)
    (h : (BValue.dict root).Encodable 32)
    (ht : root.lookup (ascii "t") = some (.string message.transactionId))
    (hy : root.lookup (ascii "y") = some (.string [y]))
    (hv : root.lookup (ascii "v") = versionEntry message.version)
    (hip : ((BValue.dict root).stringAt (ascii "ip")).bind Endpoint.fromCompact =
      message.reportedAddress)
    (hro : decide ((BValue.dict root).integerAt (ascii "ro") = some 1) = message.readOnly)
    (hbody : ∀ decoded : BValue, decoded.erase = (BValue.dict root).erase →
      ∃ read, parseBody { transactionId := message.transactionId }
        { transactionId := message.transactionId, version := message.version,
          reportedAddress := message.reportedAddress, readOnly := message.readOnly } decoded y =
        { message := some read, transactionId := message.transactionId } ∧
          read.erase = message.erase) :
    Parses (bencode (.dict root)) message := by
  obtain ⟨herror, hwarnings, hvalue⟩ := decode_bencode h (d := 32)
  generalize hdecoded : (bdecode (bencode (.dict root))).value = decoded at hvalue
  -- What is read from a value does not depend on where it was read from.
  have hstring : ∀ key, decoded.stringAt key = (BValue.dict root).stringAt key := fun key => by
    rw [← stringAt_erase, hvalue, stringAt_erase]
  have hversion : ((BValue.dict root).stringAt (ascii "v")).getD [] = message.version := by
    rw [stringAt, find, hv, versionEntry]
    split_ifs with hnil
    · exact hnil.symm
    · rfl
  -- The keys that all messages have are found, so that the body decides.
  have hparse : parse (bencode (.dict root)) =
      parseBody { transactionId := message.transactionId }
        { transactionId := message.transactionId, version := message.version,
          reportedAddress := message.reportedAddress, readOnly := message.readOnly } decoded y := by
    have hisDict : decoded.isDict = true := by
      rw [← isDict_erase, hvalue, isDict_erase]
      rfl
    have htid : decoded.stringAt (ascii "t") = some message.transactionId := by
      rw [hstring, stringAt, find, ht]
    have htype : decoded.stringAt (ascii "y") = some [y] := by
      rw [hstring, stringAt, find, hy]
    have hreadOnly : decide (decoded.integerAt (ascii "ro") = some 1) = message.readOnly := by
      rw [← hro, ← integerAt_erase, hvalue, integerAt_erase]
    rw [parse]
    dsimp only
    rw [herror, hwarnings]
    dsimp only
    rw [hdecoded, hisDict, htid, htype, hstring, hstring, hversion, hip, hreadOnly]
    rfl
  refine ⟨?_, ?_⟩
  · rw [hparse]
    exact hbody decoded hvalue
  · -- The version is found where it was put, if it was.
    have hfind : (decoded.find (ascii "v")).map BValue.erase =
        (versionEntry message.version).map BValue.erase := by
      rw [← find_erase, hvalue, find_erase, find, hv]
    rw [hdecoded, ← Option.map_eq_none_iff (f := BValue.erase), hfind, Option.map_eq_none_iff,
      versionEntry]
    split_ifs with hnil
    · exact iff_of_true rfl hnil
    · exact iff_of_false (by simp) hnil

theorem stringAt_of_erase {decoded : BValue} (h : decoded.erase = (BValue.dict root).erase)
    {key s : Bytes} (hkey : root.lookup key = some (.string s)) :
    decoded.stringAt key = some s := by
  rw [← stringAt_erase, h, stringAt_erase, stringAt, find, hkey]

theorem dictAt_of_erase {decoded : BValue} (h : decoded.erase = (BValue.dict root).erase)
    {key : Bytes} {entries : BValue.Dict} (hkey : root.lookup key = some (.dict entries)) :
    ∃ v, decoded.dictAt key = some v ∧ v.erase = (BValue.dict entries).erase := by
  have hdict : (decoded.dictAt key).map BValue.erase = some (BValue.dict entries).erase := by
    rw [← dictAt_erase, h, dictAt_erase, dictAt, find, hkey]
    rfl
  exact Option.map_eq_some_iff.1 hdict

/-! ## Queries -/

/-- The entries of the datagram of a query. -/
def queryRoot (transactionId method : Bytes) (arguments : BValue.Dict) (version : Bytes)
    (readOnly : Bool) : BValue.Dict :=
  let root : BValue.Dict := []
  let root := root.emplace (ascii "t") (.string transactionId)
  let root := root.emplace (ascii "y") (.string (ascii "q"))
  let root := root.emplace (ascii "q") (.string method)
  let root := root.emplace (ascii "a") (.dict arguments)
  let root := if readOnly then root.emplace (ascii "ro") (.integer 1) else root
  if !version.isEmpty then root.emplace (ascii "v") (.string version) else root

/-- The entries that every message starts with. -/
theorem encodable_envelope (ht : transactionId.length < 10 ^ 10) (type : UInt8) :
    (BValue.dict (((BValue.Dict.emplace (ascii "t") (.string transactionId) []).emplace
      (ascii "y") (.string [type])))).Encodable 32 :=
  ((encodable_nil.emplace _ (by decide) (encodable_string ht)).emplace _ (by decide)
    (encodable_string (by simp)))

variable {method text : Bytes} {arguments values : BValue.Dict} {readOnly : Bool} {code : ℤ}

theorem encodable_queryRoot (ht : transactionId.length < 10 ^ 10) (hm : method.length < 10 ^ 10)
    (hv : version.length < 10 ^ 10) (ha : (BValue.dict arguments).Encodable 31) :
    (BValue.dict (queryRoot transactionId method arguments version readOnly)).Encodable 32 := by
  have hroot := ((encodable_envelope ht 'q'.toUInt8).emplace (ascii "q") (by decide)
    (encodable_string hm)).emplace (ascii "a") (by decide) ha
  rw [queryRoot]
  split_ifs
  · exact (hroot.emplace _ (by decide) (encodable_integer (by decide))).emplace _ (by decide)
      (encodable_string hv)
  · exact hroot.emplace _ (by decide) (encodable_string hv)
  · exact hroot.emplace _ (by decide) (encodable_integer (by decide))
  · exact hroot

theorem lookup_queryRoot {key : Bytes} (hro : key ≠ ascii "ro") (hv : key ≠ ascii "v") :
    (queryRoot transactionId method arguments version readOnly).lookup key =
      List.lookup key [(ascii "a", .dict arguments), (ascii "q", .string method),
        (ascii "t", .string transactionId), (ascii "y", .string (ascii "q"))] := by
  rw [queryRoot]
  split_ifs
  · rw [lookup_emplace_of_ne hv, lookup_emplace_of_ne hro]
    rfl
  · rw [lookup_emplace_of_ne hv]
    rfl
  · rw [lookup_emplace_of_ne hro]
    rfl
  · rfl

/-- A query parses to what was encoded in it. -/
theorem parses_encodeQuery (ht : transactionId.length < 10 ^ 10) (hm : method.length < 10 ^ 10)
    (hv : version.length < 10 ^ 10) (ha : (BValue.dict arguments).Encodable 31) :
    Parses (encodeQuery transactionId method arguments version readOnly)
      { type := .Query, transactionId, method, body := .dict arguments, version, readOnly } := by
  have hlookup : ∀ key, key ≠ ascii "ro" → key ≠ ascii "v" →
      (queryRoot transactionId method arguments version readOnly).lookup key =
        List.lookup key [(ascii "a", .dict arguments), (ascii "q", .string method),
          (ascii "t", .string transactionId), (ascii "y", .string (ascii "q"))] :=
    fun key hro hv => lookup_queryRoot hro hv
  refine parses_bencode _ 'q'.toUInt8 (encodable_queryRoot ht hm hv ha)
    (hlookup _ (by decide) (by decide)) (hlookup (ascii "y") (by decide) (by decide)) ?_ ?_ ?_
    fun decoded hdecoded => ?_
  · cases readOnly <;> cases version <;> rfl
  · cases readOnly <;> cases version <;> rfl
  · cases readOnly <;> cases version <;> rfl
  · have hmethod := stringAt_of_erase hdecoded (hlookup (ascii "q") (by decide) (by decide))
    obtain ⟨args, hargs, herase⟩ :=
      dictAt_of_erase hdecoded (hlookup (ascii "a") (by decide) (by decide))
    rw [parseBody, if_pos rfl, hmethod, hargs]
    exact ⟨_, rfl, by rw [Message.erase, Message.erase]; simp only [herase]⟩

/-- All but the arguments is plain. -/
theorem plainBut_queryRoot : PlainBut (ascii "a") (bencode (.dict arguments))
    (queryRoot transactionId method arguments version readOnly) := by
  have hroot : PlainBut (ascii "a") (bencode (.dict arguments))
      ((((BValue.Dict.emplace (ascii "t") (.string transactionId) []).emplace (ascii "y")
        (.string (ascii "q"))).emplace (ascii "q") (.string method)).emplace (ascii "a")
        (.dict arguments)) :=
    ((((PlainBut.nil _ _).emplace (by decide) (plain_string _)).emplace (by decide)
      (plain_string _)).emplace (by decide) (plain_string _)).emplace_self rfl
  rw [queryRoot]
  split_ifs
  · exact (hroot.emplace (by decide) (plain_integer (by decide))).emplace (by decide)
      (plain_string _)
  · exact hroot.emplace (by decide) (plain_string _)
  · exact hroot.emplace (by decide) (plain_integer (by decide))
  · exact hroot

/-- A query parses, its arguments, one of which may have been encoded before, with the bytes
    they were encoded as. -/
theorem parse_encodeQuery_spliced {t : Tree} (ht : t.Fits 30) {k : Bytes}
    (harguments : PlainBut k t.source arguments)
    (hlen : (encodeQuery transactionId method arguments version readOnly).length < 10 ^ 10) :
    ∃ query,
      (parse (encodeQuery transactionId method arguments version readOnly)).message = some query ∧
      query.type = .Query ∧ query.transactionId = transactionId ∧ query.method = method ∧
      (∀ key, arguments.lookup key = none → query.body.find key = none) ∧
      ∀ key v, arguments.lookup key = some v → ∃ read, query.body.find key = some read ∧
        read.rawSpan (encodeQuery transactionId method arguments version readOnly) = bencode v ∧
        (key ≠ k → read.erase = v.erase) := by
  have hencode : encodeQuery transactionId method arguments version readOnly =
      bencode (.dict (queryRoot transactionId method arguments version readOnly)) := rfl
  rw [hencode] at hlen ⊢
  obtain ⟨herror, hisDict, hstring, body, hdict, hnone, hread⟩ := decode_spliced ht harguments
    plainBut_queryRoot (lookup_queryRoot (by decide) (by decide)) hlen
  have htid := hstring (ascii "t") transactionId (by decide)
    (lookup_queryRoot (by decide) (by decide))
  have hy := hstring (ascii "y") (ascii "q") (by decide)
    (lookup_queryRoot (by decide) (by decide))
  have hmethod := hstring (ascii "q") method (by decide)
    (lookup_queryRoot (by decide) (by decide))
  generalize bencode (.dict (queryRoot transactionId method arguments version readOnly)) = r at *
  have hparse : (parse r).message = some
      { type := .Query
        transactionId
        method
        body
        version := ((bdecode r).value.stringAt (ascii "v")).getD []
        reportedAddress := ((bdecode r).value.stringAt (ascii "ip")).bind Endpoint.fromCompact
        readOnly := (bdecode r).value.integerAt (ascii "ro") = some 1 } := by
    rw [parse]
    dsimp only
    rw [herror]
    dsimp only
    rw [hisDict, htid, hy, show ascii "q" = ['q'.toUInt8] from rfl]
    dsimp only
    rw [parseBody, if_pos rfl, hmethod, hdict]
    rfl
  exact ⟨_, hparse, rfl, rfl, rfl, hnone, hread⟩

/-! ## Responses -/

theorem encodable_responseRoot {requester : Endpoint} (ht : transactionId.length < 10 ^ 10)
    (hv : version.length < 10 ^ 10) (hvalues : (BValue.dict values).Encodable 31) :
    (BValue.dict (responseRoot transactionId values version requester)).Encodable 32 := by
  have hroot := (encodable_envelope ht 'r'.toUInt8).emplace (ascii "r") (by decide) hvalues
  have hcompact : requester.toCompact.length < 10 ^ 10 := by
    rw [Endpoint.toCompact]
    split <;> simp
  rw [responseRoot]
  split_ifs
  · exact (hroot.emplace _ (by decide) (encodable_string hcompact)).emplace _ (by decide)
      (encodable_string hv)
  · exact hroot.emplace _ (by decide) (encodable_string hv)
  · exact hroot.emplace _ (by decide) (encodable_string hcompact)
  · exact hroot

/-- A response parses to what was encoded in it, with the requester if there is one. -/
theorem parses_encodeResponse {requester : Endpoint}
    (hrequester : normalizeAddress requester.address = requester.address)
    (ht : transactionId.length < 10 ^ 10) (hv : version.length < 10 ^ 10)
    (hvalues : (BValue.dict values).Encodable 31) :
    Parses (encodeResponse transactionId values version requester)
      { type := .Response
        transactionId
        body := .dict values
        version
        reportedAddress := if requester.isValid then some requester else none } := by
  refine parses_bencode (responseRoot transactionId values version requester) 'r'.toUInt8
    (encodable_responseRoot ht hv hvalues) (lookup_responseRoot (by decide) (by decide))
    (lookup_responseRoot (by decide) (by decide)) ?_ ?_ ?_ fun decoded hdecoded => ?_
  · rw [responseRoot]
    cases requester.isValid <;> cases version <;> rfl
  · -- The address is that which the requester has, as it is valid.
    have hip : (BValue.dict (responseRoot transactionId values version requester)).stringAt
        (ascii "ip") = if requester.isValid then some requester.toCompact else none := by
      rw [responseRoot]
      cases requester.isValid <;> cases version <;> rfl
    rw [hip]
    split_ifs with hvalid
    · have hnull : requester.address ≠ .null := by
        rw [Endpoint.isValid, Bool.and_eq_true, bne_iff_ne] at hvalid
        exact hvalid.1
      exact Endpoint.fromCompact_toCompact hnull hrequester
    · rfl
  · rw [responseRoot]
    cases requester.isValid <;> cases version <;> rfl
  · obtain ⟨v, hvalue, herase⟩ :=
      dictAt_of_erase hdecoded (lookup_responseRoot (k := ascii "r") (by decide) (by decide))
    rw [parseBody, if_neg (by decide), if_pos rfl, hvalue]
    exact ⟨_, rfl, by rw [Message.erase, Message.erase]; simp only [herase]⟩

/-! ## Errors -/

/-- The entries of the datagram of an error. -/
def errorRoot (transactionId : Bytes) (code : ℤ) (message version : Bytes) : BValue.Dict :=
  let root : BValue.Dict := []
  let root := root.emplace (ascii "t") (.string transactionId)
  let root := root.emplace (ascii "y") (.string (ascii "e"))
  let root := root.emplace (ascii "e") (.list [.integer code, .string message])
  if !version.isEmpty then root.emplace (ascii "v") (.string version) else root

theorem encodable_errorRoot (ht : transactionId.length < 10 ^ 10) (hcode : IsInt64 code)
    (htext : text.length < 10 ^ 10) (hv : version.length < 10 ^ 10) :
    (BValue.dict (errorRoot transactionId code text version)).Encodable 32 := by
  have hlist : (BValue.list [.integer code, .string text]).Encodable 31 := by
    intro item hitem
    rcases List.mem_cons.1 hitem with rfl | hitem
    · exact encodable_integer hcode
    · obtain rfl := List.mem_singleton.1 hitem
      exact encodable_string htext
  have hroot := (encodable_envelope ht 'e'.toUInt8).emplace (ascii "e") (by decide) hlist
  rw [errorRoot]
  split_ifs
  · exact hroot.emplace _ (by decide) (encodable_string hv)
  · exact hroot

/-- A list of an integer and a string is read as one. -/
theorem exists_of_eraseList {items : List BValue} {n : ℤ} {s : Bytes}
    (h : eraseList items = [.integer n, .string s]) :
    ∃ span span', items = [.integer n span, .string s span'] := by
  obtain ⟨a, b, rfl, ha, hb⟩ : ∃ a b, items = [a, b] ∧ a.erase = .integer n ∧
      b.erase = .string s := by
    rcases items with _ | ⟨a, _ | ⟨b, _ | ⟨c, rest⟩⟩⟩ <;>
      simp only [eraseList, List.cons.injEq, reduceCtorEq, and_true, and_false] at h
    exact ⟨a, b, rfl, h⟩
  cases a <;> simp only [BValue.erase, reduceCtorEq, BValue.integer.injEq, and_true] at ha
  cases b <;> simp only [BValue.erase, reduceCtorEq, BValue.string.injEq, and_true] at hb
  exact ⟨_, _, by rw [ha, hb]⟩

/-- An error parses to what was encoded in it. -/
theorem parses_encodeError (ht : transactionId.length < 10 ^ 10) (hcode : IsInt64 code)
    (htext : text.length < 10 ^ 10) (hv : version.length < 10 ^ 10) :
    Parses (encodeError transactionId code text version)
      { type := .Error, transactionId, errorCode := code, errorMessage := text, version } := by
  refine parses_bencode (errorRoot transactionId code text version) 'e'.toUInt8
    (encodable_errorRoot ht hcode htext hv) ?_ ?_ ?_ ?_ ?_ fun decoded hdecoded => ?_
  · cases version <;> rfl
  · cases version <;> rfl
  · cases version <;> rfl
  · cases version <;> rfl
  · cases version <;> rfl
  · have hkey : (errorRoot transactionId code text version).lookup (ascii "e") =
        some (.list [.integer code, .string text]) := by cases version <;> rfl
    have hlist : (decoded.listAt (ascii "e")).map BValue.erase =
        some (.list [.integer code, .string text]) := by
      rw [← listAt_erase, hdecoded, listAt_erase, listAt, find, hkey]
      rfl
    obtain ⟨v, hv, herase⟩ := Option.map_eq_some_iff.1 hlist
    cases v <;> simp only [BValue.erase, reduceCtorEq, BValue.list.injEq, and_true] at herase
    obtain ⟨span, span', rfl⟩ := exists_of_eraseList herase
    rw [parseBody, if_neg (by decide), if_neg (by decide), if_pos rfl, hv]
    exact ⟨_, rfl, rfl⟩

/-- Encoding and parsing agree: every query, response and error parses, without an error or
    a warning, to what was encoded in it. -/
theorem parse_encode (transactionId version : Bytes) (ht : transactionId.length < 10 ^ 10)
    (hv : version.length < 10 ^ 10) :
    (∀ (method : Bytes) (arguments : BValue.Dict) (readOnly : Bool), method.length < 10 ^ 10 →
      (BValue.dict arguments).Encodable 31 →
        Parses (encodeQuery transactionId method arguments version readOnly)
          { type := .Query, transactionId, method, body := .dict arguments, version, readOnly }) ∧
    (∀ (values : BValue.Dict) (address : HostAddress) (port : UInt16),
      (BValue.dict values).Encodable 31 →
        let requester := Endpoint.of address port
        Parses (encodeResponse transactionId values version requester)
          { type := .Response
            transactionId
            body := .dict values
            version
            reportedAddress := if requester.isValid then some requester else none }) ∧
    ∀ (code : ℤ) (text : Bytes), IsInt64 code → text.length < 10 ^ 10 →
      Parses (encodeError transactionId code text version)
        { type := .Error, transactionId, errorCode := code, errorMessage := text, version } :=
  ⟨fun _ _ _ hm ha => parses_encodeQuery ht hm hv ha,
    fun _ _ _ hvalues => parses_encodeResponse (Endpoint.normalizeAddress_idem _) ht hv hvalues,
    fun _ _ hcode htext => parses_encodeError ht hcode htext hv⟩

/-- A ping, its answer to a host seen at `203.0.113.5` through IPv6, and its refusal. -/
theorem parse_encode_ping :
    let arguments : BValue.Dict := [(ascii "id", .string (ascii "abcdefghij0123456789"))]
    let requester := Endpoint.of (.ipv6 (HostAddress.mappedPrefix ++ 0xcb007105#32)) 6881
    Parses (encodeQuery (ascii "aa") (ascii "ping") arguments [] true)
      { type := .Query, transactionId := ascii "aa", method := ascii "ping",
        body := .dict arguments, readOnly := true } ∧
    Parses (encodeResponse (ascii "aa") arguments [] requester)
      { type := .Response, transactionId := ascii "aa", body := .dict arguments,
        reportedAddress := some ⟨.ipv4 0xcb007105#32, 6881⟩ } ∧
    Parses (encodeError (ascii "aa") MethodUnknown (ascii "Method Unknown") [])
      { type := .Error, transactionId := ascii "aa", errorCode := 204,
        errorMessage := ascii "Method Unknown" } := by
  have harguments : (BValue.dict [(ascii "id", .string (ascii "abcdefghij0123456789"))]).Encodable
      31 := encodable_nil.emplace _ (by decide) (encodable_string (by decide))
  obtain ⟨hquery, hresponse, herror⟩ := parse_encode (ascii "aa") [] (by decide) (by decide)
  exact ⟨hquery _ _ true (by decide) harguments, hresponse _ _ _ harguments,
    herror _ _ (by decide) (by decide)⟩

end Krpc

end Dht
