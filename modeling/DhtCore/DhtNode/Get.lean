import DhtCore.DhtNode.Items
import DhtCore.Krpc.Parsing

/-!
# Gets

A value that was put goes to whoever gets it as it came, byte for byte, canonical or
not: the answer to a get parses, and the bytes of the value in it are those that were
in the datagram of the put (`value_of_get`).
-/

namespace Dht.DhtNode

open Bencode

variable {crypto : Crypto} {w : Surroundings} {n : DhtNode} {get : Krpc.Message} {sender : Endpoint}
  {target : NodeId} {raw : Bytes}

/-- What a get is answered with: the value of an immutable item, or of a mutable one unless
    the getter holds it. -/
def Offers (n : DhtNode) (get : Krpc.Message) (target : NodeId) (raw : Bytes) : Prop :=
  match n.items.immutable.lookup target with
  | some item => item.value = raw
  | none => ∃ item, n.items.mutable.lookup target = some item ∧ item.value = raw ∧
      (get.body.integerAt (ascii "seq")).all (item.sequence > ·)

theorem plainBut_nodesFor (n : DhtNode) (w : Surroundings) (target : NodeId) (arguments : BValue) :
    PlainBut (ascii "v") raw (n.nodesFor w target arguments) := by
  have hfill : ∀ {family out table} {key : String}, ascii key ≠ ascii "v" →
      PlainBut (ascii "v") raw out →
      PlainBut (ascii "v") raw (fill target family key out table) := by
    intro family out table key hne hout
    cases table with
    | none => exact hout
    | some table =>
      rw [fill]
      split_ifs
      · exact hout
      · exact hout.insertOrAssign hne (plain_string _)
  rw [nodesFor]
  dsimp only
  split_ifs
  all_goals first
    | exact .nil _ _
    | exact hfill (by decide) (.nil _ _)
    | exact hfill (by decide) (hfill (by decide) (.nil _ _))

/-- What the answer to a get carries besides the value, if that is of a mutable item. -/
def Carries (n : DhtNode) (target : NodeId) (values : BValue.Dict) : Prop :=
  n.items.immutable.lookup target = none → ∀ item, n.items.mutable.lookup target = some item →
    values.lookup (ascii "k") = some (.string item.publicKey) ∧
    values.lookup (ascii "seq") = some (.integer item.sequence) ∧
    values.lookup (ascii "sig") = some (.string item.signature)

/-- The value offered is in the answer to a get, as bytes, and the rest is plain. -/
theorem handleGet_of_offers (crypto : Crypto) (w : Surroundings) (sender : Endpoint)
    (htarget : idAt get "target" = some target)
    (hseq : ∀ item, n.items.mutable.lookup target = some item → IsInt64 item.sequence)
    (hoffers : n.Offers get target raw) :
    ∃ values, (n.handleGet crypto w get sender).2 = .response values ∧
      PlainBut (ascii "v") raw values ∧ values.lookup (ascii "v") = some (.preEncoded raw) ∧
      n.Carries target values := by
  rw [handleGet, htarget]
  dsimp only [ItemStorage.immutableItem, ItemStorage.mutableItem]
  generalize n.tokens.generate crypto w.secrets sender.address w.now = generated
  have hnodes : PlainBut (ascii "v") raw
      ((n.nodesFor w target get.body).insertOrAssign (ascii "token") (.string generated.2)) :=
    (plainBut_nodesFor n w target get.body).insertOrAssign (by decide) (plain_string _)
  rw [Offers] at hoffers
  cases himmutable : n.items.immutable.lookup target with
  | some item =>
    rw [himmutable] at hoffers
    obtain rfl := hoffers
    refine ⟨_, rfl, hnodes.insertOrAssign_self rfl, BValue.Dict.lookup_insertOrAssign ..,
      fun hnone => ?_⟩
    cases himmutable.symm.trans hnone
  | none =>
    rw [himmutable] at hoffers
    obtain ⟨item, hitem, rfl, hnewer⟩ := hoffers
    have hitemSeq := hseq item hitem
    simp only [hitem]
    rw [if_pos hnewer]
    refine ⟨_, rfl, ?_, ?_, ?_⟩
    · exact (((hnodes.insertOrAssign (by decide) (plain_string _)).insertOrAssign (by decide)
        (plain_integer hitemSeq)).insertOrAssign_self rfl).insertOrAssign (by decide)
        (plain_string _)
    · rw [BValue.Dict.lookup_insertOrAssign_of_ne (by decide), BValue.Dict.lookup_insertOrAssign]
    · rintro - item' hitem'
      obtain rfl := Option.some.inj (hitem.symm.trans hitem')
      refine ⟨?_, ?_, BValue.Dict.lookup_insertOrAssign ..⟩
      · rw [BValue.Dict.lookup_insertOrAssign_of_ne (by decide),
          BValue.Dict.lookup_insertOrAssign_of_ne (by decide),
          BValue.Dict.lookup_insertOrAssign_of_ne (by decide), BValue.Dict.lookup_insertOrAssign]
      · rw [BValue.Dict.lookup_insertOrAssign_of_ne (by decide),
          BValue.Dict.lookup_insertOrAssign_of_ne (by decide), BValue.Dict.lookup_insertOrAssign]

/-- A value that is read as another one, up to where, is the same string. -/
theorem stringAt_of_find {v read : BValue} {key s : Bytes} (h : v.find key = some read)
    (hread : read.erase = (BValue.string s).erase) : v.stringAt key = some s := by
  rw [BValue.stringAt, h]
  cases read with
  | string s' _ =>
    injection hread with hs
    rw [hs]
  | _ => cases hread

theorem integerAt_of_find {v read : BValue} {key : Bytes} {k : ℤ} (h : v.find key = some read)
    (hread : read.erase = (BValue.integer k).erase) : v.integerAt key = some k := by
  rw [BValue.integerAt, h]
  cases read with
  | integer k' _ =>
    injection hread with hk
    rw [hk]
  | _ => cases hread

/-- A value goes from the datagram of a put to that of the answer to a get, byte for byte: the
    answer parses, and the bytes of its value are those of the put's, with which the key, the
    sequence number and the signature of a mutable item come. -/
theorem value_of_get (crypto : Crypto) (put : Bytes) (message : Krpc.Message) (v : BValue)
    (hput : (Krpc.parse put).message = some message) (hv : message.body.find (ascii "v") = some v)
    (n : DhtNode) (w : Surroundings) (get : Krpc.Message) (sender : Endpoint) (target : NodeId)
    (htarget : idAt get "target" = some target)
    (hseq : ∀ item, n.items.mutable.lookup target = some item → IsInt64 item.sequence)
    (hoffers : n.Offers get target (v.rawSpan put)) :
    let answered := n.handleGet crypto w get sender
    let datagram := answered.1.datagramOf get sender answered.2
    datagram.length < 10 ^ 10 →
    (∃ values, answered.2 = .response values ∧
      values.lookup (ascii "v") = some (.preEncoded (v.rawSpan put))) ∧
    ∃ response read, (Krpc.parse datagram).message = some response ∧ response.type = .Response ∧
      response.transactionId = get.transactionId ∧
      response.body.find (ascii "v") = some read ∧ read.rawSpan datagram = v.rawSpan put ∧
      (n.items.immutable.lookup target = none → ∀ item, n.items.mutable.lookup target = some item →
        response.body.stringAt (ascii "k") = some item.publicKey ∧
        response.body.integerAt (ascii "seq") = some item.sequence ∧
        response.body.stringAt (ascii "sig") = some item.signature) := by
  intro answered datagram hlen
  obtain ⟨values, hanswer, hplain, hvalue, hcarries⟩ :=
    handleGet_of_offers crypto w sender htarget hseq hoffers
  obtain ⟨t, ht, hraw⟩ := Krpc.exists_tree_of_parse hput hv
  refine ⟨⟨values, hanswer, hvalue⟩, ?_⟩
  have hdatagram : datagram = Krpc.encodeResponse get.transactionId
      (values.insertOrAssign (ascii "id") (.string answered.1.id.toBytes)) answered.1.config.version
      (if answered.1.config.bep42 then sender else default) := by
    simp only [datagram, answered, hanswer, datagramOf]
  rw [hraw] at hplain
  rw [hdatagram] at hlen ⊢
  obtain ⟨response, hparse, htype, htid, hread⟩ :=
    Krpc.parse_encodeResponse ht (hplain.insertOrAssign (by decide) (plain_string _)) hlen
  have hlookup : ∀ {key : Bytes} {value : BValue}, key ≠ ascii "id" →
      values.lookup key = some value →
      (values.insertOrAssign (ascii "id") (.string answered.1.id.toBytes)).lookup key =
      some value :=
    fun hne h => (BValue.Dict.lookup_insertOrAssign_of_ne hne ..).trans h
  obtain ⟨read, hfind, hspan, -⟩ := hread _ _ (hlookup (by decide) hvalue)
  refine ⟨response, read, hparse, htype, htid, hfind, hspan, fun hnone item hitem => ?_⟩
  obtain ⟨hk, hseq', hsig⟩ := hcarries hnone item hitem
  obtain ⟨readKey, hfindKey, -, hkey⟩ := hread _ _ (hlookup (by decide) hk)
  obtain ⟨readSeq, hfindSeq, -, hsequence⟩ := hread _ _ (hlookup (by decide) hseq')
  obtain ⟨readSig, hfindSig, -, hsignature⟩ := hread _ _ (hlookup (by decide) hsig)
  exact ⟨stringAt_of_find hfindKey (hkey (by decide)),
    integerAt_of_find hfindSeq (hsequence (by decide)),
    stringAt_of_find hfindSig (hsignature (by decide))⟩

/-- A put of a list in which there is a number with leading zeros. -/
def zerosPut : Bytes :=
  ascii "d1:ad2:id20:aaaaaaaaaaaaaaaaaaaa5:token8:bbbbbbbb1:vli007e2:aaee1:q3:put1:t2:cc1:y1:qe"

/-- A node that stores the list. -/
def zerosNode : DhtNode :=
  { new {} default none 0 with
    items :=
      { immutable := (∅ : AList _).insert default
          { target := default, value := ascii "li007e2:aae" } } }

/-- A get of the list. -/
def zerosGet : Krpc.Message where
  transactionId := ascii "dd"
  body := .dict [(ascii "target", .string (default : NodeId).toBytes)]

/-- The list comes with its zeros. -/
theorem value_of_get_zeros :
    let answered := zerosNode.handleGet known { now := 2 } zerosGet host
    let datagram := answered.1.datagramOf zerosGet host answered.2
    ∃ response read, (Krpc.parse datagram).message = some response ∧
      response.body.find (ascii "v") = some read ∧ read.rawSpan datagram = ascii "li007e2:aae" := by
  intro answered datagram
  obtain ⟨message, hput⟩ : ∃ message, (Krpc.parse zerosPut).message = some message :=
    Option.isSome_iff_exists.1 (by decide +kernel)
  have hmessage : message = messageOf zerosPut := by rw [messageOf, hput, Option.getD_some]
  obtain ⟨v, hv⟩ : ∃ v, message.body.find (ascii "v") = some v := by
    rw [hmessage]
    exact Option.isSome_iff_exists.1 (by decide +kernel)
  have hraw : v.rawSpan zerosPut = ascii "li007e2:aae" := by
    have h : rawValue (messageOf zerosPut) zerosPut = ascii "li007e2:aae" := by decide +kernel
    rwa [rawValue, ← hmessage, hv] at h
  have hoffers : zerosNode.Offers zerosGet default (v.rawSpan zerosPut) := by
    rw [hraw, Offers, zerosNode, AList.lookup_insert]
  obtain ⟨-, response, read, hparse, -, -, hfind, hspan, -⟩ :=
    value_of_get known zerosPut message v hput
    hv zerosNode { now := 2 } zerosGet host default (by decide +kernel)
      (fun _ h => absurd h (by simp [zerosNode])) hoffers
    (by decide +kernel)
  exact ⟨response, read, hparse, hfind, hspan.trans hraw⟩

end Dht.DhtNode
