import DhtCore.Bencode.Splice
import DhtCore.Krpc

/-!
# Parsing messages

What a message that parses says about its datagram: its body, and the values in it,
are of the grammar, and were read where they are (`exists_tree_of_parse`). And a
response that is encoded parses, its values with the bytes they were encoded as, also
where these were encoded before by someone else (`parse_encodeResponse`).
-/

namespace Dht.Krpc

open Bencode

variable {datagram : Bytes} {message : Message}

theorem ascii_r : ascii "r" = ['r'.toUInt8] := rfl

/-! ## What parses -/

/-- A body is a value at a key of the datagram, if there is one. -/
theorem body_of_parseBody {out : ParseResult} {root : BValue} {y : UInt8}
    (hout : out.message = none) (hbody : message.body = .invalid) {read : Message}
    (h : (parseBody out message root y).message = some read) :
    read.body = .invalid ∨ ∃ key, root.find key = some read.body := by
  have hdict : ∀ {key : Bytes} {v : BValue}, root.dictAt key = some v → root.find key = some v :=
    fun h => (Option.filter_eq_some_iff.1 h).1
  rw [parseBody] at h
  split_ifs at h
  · split at h
    · simp [hout] at h
    · simp [hout] at h
    · obtain rfl := Option.some.inj h
      exact .inr ⟨_, hdict ‹_›⟩
  · split at h
    · simp [hout] at h
    · obtain rfl := Option.some.inj h
      exact .inr ⟨_, hdict ‹_›⟩
  · split at h <;> obtain rfl := Option.some.inj h
    · exact .inl hbody
    · exact .inl hbody
  · simp [hout] at h

/-- What parses decodes, and its body is a value at a key of it. -/
theorem body_of_parse (h : (parse datagram).message = some message) :
    (bdecode datagram).ok ∧
      (message.body = .invalid ∨ ∃ key, (bdecode datagram).value.find key = some message.body) := by
  rw [parse] at h
  dsimp only at h
  split at h
  next => cases h
  next herror =>
    refine ⟨by rw [BDecodeResult.ok, herror]; rfl, ?_⟩
    split_ifs at h
    split at h
    next => cases h
    next =>
      split at h
      next => exact body_of_parseBody rfl rfl h
      next => cases h

/-- A value in the body of a message is one of the grammar, with levels to spare, and its
    bytes are those it is written as. -/
theorem exists_tree_of_parse (h : (parse datagram).message = some message)
    {key : Bytes} {v : BValue} (hv : message.body.find key = some v) :
    ∃ t : Tree, t.Fits 30 ∧ v.rawSpan datagram = t.source := by
  obtain ⟨hok, hbody⟩ := body_of_parse h
  rcases hbody with hinvalid | ⟨key', hbody⟩
  · rw [hinvalid] at hv
    exact nomatch hv
  · obtain ⟨t, ht, rest, hdata⟩ := (Decoder.bdecode_iff datagram 32).1.1 hok
    rw [(Decoder.bdecode_of_tree ht hdata.symm).1] at hbody
    have hdata' : datagram = [] ++ t.source ++ rest := by rw [List.nil_append, hdata]
    obtain ⟨l, body, pre, post, hlevels, hbodyFits, hbodyData, hbodyEq⟩ :=
      find_valueAt ht hdata' hbody
    rw [hbodyEq] at hv
    obtain ⟨l', u, pre', post', hlevels', hu, hudata, rfl⟩ := find_valueAt hbodyFits hbodyData hv
    obtain rfl : l' = 30 := by
      have h32 : (32 : ℤ).toNat = 32 := rfl
      omega
    exact ⟨u, hu, rawSpan_valueAt hu hudata⟩

/-! ## What responses parse to -/

/-- The entries of the datagram of a response. -/
def responseRoot (transactionId : Bytes) (values : BValue.Dict) (version : Bytes)
    (requester : Endpoint) :
    BValue.Dict :=
  let root : BValue.Dict := []
  let root := root.emplace (ascii "t") (.string transactionId)
  let root := root.emplace (ascii "y") (.string (ascii "r"))
  let root := root.emplace (ascii "r") (.dict values)
  let root := if requester.isValid then root.emplace (ascii "ip") (.string requester.toCompact)
      else root
  if !version.isEmpty then root.emplace (ascii "v") (.string version) else root

theorem lookup_emplace_of_ne {dict : BValue.Dict} {key k : Bytes} (hne : k ≠ key) (v : BValue) :
    (dict.emplace key v).lookup k = dict.lookup k := by
  induction dict with
  | nil => simp [BValue.Dict.emplace, List.lookup_cons, beq_false_of_ne hne]
  | cons e dict ih =>
    obtain ⟨k', v'⟩ := e
    rw [BValue.Dict.emplace]
    split_ifs with hlt heq
    · rw [List.lookup_cons, beq_false_of_ne hne]
    · rfl
    · rw [List.lookup_cons, List.lookup_cons, ih]

theorem mem_of_lookup {dict : BValue.Dict} {k : Bytes} {v : BValue} (h : dict.lookup k = some v) :
    (k, v) ∈ dict := by
  obtain ⟨l₁, l₂, rfl, -⟩ := List.lookup_eq_some_iff.1 h
  exact List.mem_append_right _ List.mem_cons_self

variable {transactionId version : Bytes} {values : BValue.Dict} {requester : Endpoint}

/-- The address and the version do not stand in the way of the rest. -/
theorem lookup_responseRoot {k : Bytes} (hip : k ≠ ascii "ip") (hv : k ≠ ascii "v") :
    (responseRoot transactionId values version requester).lookup k =
      List.lookup k [(ascii "r", .dict values), (ascii "t", .string transactionId),
        (ascii "y", .string (ascii "r"))] := by
  rw [responseRoot]
  split_ifs
  · rw [lookup_emplace_of_ne hv, lookup_emplace_of_ne hip]
    rfl
  · rw [lookup_emplace_of_ne hv]
    rfl
  · rw [lookup_emplace_of_ne hip]
    rfl
  · rfl

/-- All but the values is plain. -/
theorem plainBut_responseRoot :
    PlainBut (ascii "r") (bencode (.dict values))
    (responseRoot transactionId values version requester) := by
  have hroot : PlainBut (ascii "r") (bencode (.dict values))
      (((BValue.Dict.emplace (ascii "t") (.string transactionId) []).emplace (ascii "y")
        (.string (ascii "r"))).emplace (ascii "r") (.dict values)) :=
    (((PlainBut.nil _ _).emplace (by decide) (plain_string _)).emplace (by decide)
      (plain_string _)).emplace_self rfl
  rw [responseRoot]
  split_ifs
  · exact (hroot.emplace (by decide) (plain_string _)).emplace (by decide) (plain_string _)
  · exact hroot.emplace (by decide) (plain_string _)
  · exact hroot.emplace (by decide) (plain_string _)
  · exact hroot

/-- A dictionary in the place of a key of another one, which is plain else, is read there, its
    values, one of which may have been encoded before, with the bytes they were encoded as. -/
theorem decode_spliced {t : Tree} (ht : t.Fits 30) {k body : Bytes} {root : BValue.Dict}
    (hvalues : PlainBut k t.source values) (hroot : PlainBut body (bencode (.dict values)) root)
    (hbody : root.lookup body = some (.dict values))
    (hlen : (bencode (.dict root)).length < 10 ^ 10) :
    (bdecode (bencode (.dict root))).error = none ∧
      (bdecode (bencode (.dict root))).value.isDict = true ∧
      (∀ key s, key ≠ body → root.lookup key = some (.string s) →
        (bdecode (bencode (.dict root))).value.stringAt key = some s) ∧
      ∃ read, (bdecode (bencode (.dict root))).value.dictAt body = some read ∧
        (∀ key, values.lookup key = none → read.find key = none) ∧
        ∀ key v, values.lookup key = some v → ∃ u, read.find key = some u ∧
          u.rawSpan (bencode (.dict root)) = bencode v ∧ (key ≠ k → u.erase = v.erase) := by
  generalize hr : bencode (.dict root) = r at hlen ⊢
  -- The tree of the values is in that of the datagram.
  have hvaluesLen : (bencode (.dict values)).length < 10 ^ 10 := by
    have hle := length_bencode_entry (mem_of_lookup hbody)
    rw [← hr] at hlen
    dsimp only at hle
    omega
  obtain ⟨hbodyFits, hbodySource⟩ := spliceAt_spec ht hvaluesLen hvalues
  obtain ⟨hfits, hsource⟩ := spliceAt_spec hbodyFits (hr ▸ hlen) (hbodySource ▸ hroot)
  have hdata : r = (spliceAt body (spliceAt k t values) root).source ++ [] := by
    rw [← hr, hsource, List.append_nil]
  have hfits' : (spliceAt body (spliceAt k t values) root).Fits (32 : ℤ).toNat := hfits
  obtain ⟨hvalue, herror, -⟩ := Decoder.bdecode_of_tree hfits' hdata
  obtain ⟨pre, post, hpre, hfind⟩ :=
    find_spliceAt (k := body) (t := spliceAt k t values) hbody 0
  rw [spliced, if_pos rfl] at hpre hfind
  refine ⟨herror, by rw [hvalue]; rfl, fun key s hne hkey => ?_, _,
    by rw [BValue.dictAt, hvalue, hfind]; rfl, fun key hkey => find_spliceAt_eq_none hkey _,
    fun key v hkey => ?_⟩
  · obtain ⟨_, -, -, hfindKey⟩ := find_spliceAt (k := body) (t := spliceAt k t values) hkey 0
    rw [BValue.stringAt, hvalue, hfindKey, spliced, if_neg hne]
    rfl
  · obtain ⟨pre', post', hpre', hfind'⟩ := find_spliceAt (k := k) (t := t) hkey (0 + pre.length)
    have hmem := mem_of_lookup hkey
    have hle := length_bencode_entry hmem
    have hvLen : (bencode v).length < 10 ^ 10 := by
      dsimp only at hle
      omega
    obtain ⟨hspliced, hvSource⟩ := source_spliced 30 (hvalues _ hmem) hvLen
    refine ⟨_, hfind', ?_, fun hne => ?_⟩
    · have hdata' : r = (pre ++ pre') ++ (spliced k t key v).source ++ (post' ++ post) := by
        rw [hdata, hpre, hpre']
        simp only [List.append_assoc, List.append_nil]
      rw [hvSource, Nat.zero_add, ← List.length_append]
      exact rawSpan_valueAt (hspliced ht) hdata'
    · have hplain := hvalues _ hmem
      rw [if_neg hne] at hplain
      rw [spliced, if_neg hne]
      exact (treeOf_spec 30 v (hplain.encodable hvLen)).2.2 _

/-- A response parses, its values, one of which may have been encoded before, with the bytes
    they were encoded as. -/
theorem parse_encodeResponse {t : Tree} (ht : t.Fits 30) {k : Bytes}
    (hvalues : PlainBut k t.source values)
    (hlen : (encodeResponse transactionId values version requester).length < 10 ^ 10) :
    ∃ response,
      (parse (encodeResponse transactionId values version requester)).message = some response ∧
      response.type = .Response ∧ response.transactionId = transactionId ∧
      ∀ key v, values.lookup key = some v → ∃ read, response.body.find key = some read ∧
        read.rawSpan (encodeResponse transactionId values version requester) = bencode v ∧
        (key ≠ k → read.erase = v.erase) := by
  have hencode : encodeResponse transactionId values version requester =
      bencode (.dict (responseRoot transactionId values version requester)) := rfl
  rw [hencode] at hlen ⊢
  obtain ⟨herror, hisDict, hstring, body, hdict, -, hread⟩ := decode_spliced ht hvalues
    plainBut_responseRoot (lookup_responseRoot (by decide) (by decide)) hlen
  have htid := hstring (ascii "t") transactionId (by decide)
    (lookup_responseRoot (by decide) (by decide))
  have hy := hstring (ascii "y") (ascii "r") (by decide)
    (lookup_responseRoot (by decide) (by decide))
  generalize bencode (.dict (responseRoot transactionId values version requester)) = r at *
  have hparse : (parse r).message = some
      { type := .Response
        transactionId
        body
        version := ((bdecode r).value.stringAt (ascii "v")).getD []
        reportedAddress := ((bdecode r).value.stringAt (ascii "ip")).bind Endpoint.fromCompact
        readOnly := (bdecode r).value.integerAt (ascii "ro") = some 1 } := by
    rw [parse]
    dsimp only
    rw [herror]
    dsimp only
    rw [hisDict, htid, hy, ascii_r]
    dsimp only
    rw [parseBody, if_neg (by decide), if_pos rfl, hdict]
    rfl
  exact ⟨_, hparse, rfl, rfl, hread⟩

end Dht.Krpc
