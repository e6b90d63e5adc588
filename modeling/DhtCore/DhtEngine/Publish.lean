import DhtCore.DhtNode.Put

/-!
# Publishing

The engine has an item put, or a peer announced, by its node of each family. It reports once, when
both are done, with what they have asked and got together, in whatever order they are done and
whatever else happens to the nodes (`reported_once`).

An item that is not published for some reason is reported at once, with the reason. What is put of
the others is well formed, so that whoever has given a token for it takes it
(`published_taken`).
-/

namespace Dht

/-- What is published. -/
inductive PublishKind
  | Announce
  | Immutable
  | Mutable
  deriving DecidableEq, Repr

/-- What is reported of it. -/
structure PublishResult where
  kind : PublishKind := .Announce
  target : NodeId
  /-- Nodes that stored it. -/
  accepted : ℕ := 0
  /-- Nodes that were asked. -/
  attempted : ℕ := 0
  sequence : ℤ := -1
  error : String := ""
  deriving DecidableEq

namespace DhtEngine

variable (crypto : Crypto)

/-! ## What is put -/

/-- The bytes of a secret key of Ed25519. -/
def secretKeyBytes : ℕ := 64

/-- The signature of a message (`ed25519::sign`), by `crypto_ed25519_sign`. -/
def sign (ed25519Sign : Bytes → Bytes → Bytes) (message secretKey : Bytes) : Bytes :=
  if secretKey.length ≠ secretKeyBytes then [] else ed25519Sign secretKey message

/-- What comes of a call that has something published: it is put, or it is reported at once why
    it is not. -/
abbrev Published := Except PublishResult (PublishResult × PutRequest)

/-- What is put for an immutable value, or what is wrong with it. -/
def publishImmutable (bencodedValue : Bytes) : Published :=
  let result : PublishResult :=
    { kind := .Immutable, target := Bep44.immutableTarget crypto bencodedValue }
  if bencodedValue.length > Bep44.MaxValueBytes then
    .error { result with
      error := "value is larger than the " ++ toString Bep44.MaxValueBytes ++ " byte limit" }
  else .ok (result, { target := result.target, value := bencodedValue })

/-- What is put for a mutable item, or what is wrong with it. -/
def publishMutable (ed25519Sign : Bytes → Bytes → Bytes) (publicKey secretKey salt : Bytes)
    (sequence : ℤ) (bencodedValue : Bytes) (cas : Option ℤ) : Published :=
  let result : PublishResult :=
    { kind := .Mutable, sequence, target := Bep44.mutableTarget crypto publicKey salt }
  let fail (message : String) := Except.error { result with error := message }
  if publicKey.length ≠ Bep44.PublicKeyBytes ∨ secretKey.length ≠ secretKeyBytes then
    fail "the key pair is not a valid Ed25519 key"
  else if bencodedValue.length > Bep44.MaxValueBytes then
    fail ("value is larger than the " ++ toString Bep44.MaxValueBytes ++ " byte limit")
  else if salt.length > Bep44.MaxSaltBytes then
    fail ("salt is longer than " ++ toString Bep44.MaxSaltBytes ++ " bytes")
  else
    let signature := sign ed25519Sign (Bep44.signingBuffer salt sequence bencodedValue) secretKey
    if signature.isEmpty then fail "could not sign the item"
    else
      .ok (result,
        { target := result.target, value := bencodedValue, isMutable := true, publicKey, salt,
          sequence, cas, signature })

/-! ## What is reported -/

/-- A family is done with a put. -/
def collect (result : PublishResult) (told : ℕ × ℕ) : PublishResult :=
  { result with
    accepted := result.accepted + told.1
    attempted := result.attempted + told.2 }

/-- The reports of a put in so many families, as these tell of it. -/
def putReported (result : PublishResult) (families : ℕ) (told : List (ℕ × ℕ)) :
    List PublishResult :=
  Join.reports collect result families told

/-- What is reported of an announcement, of which only acceptances are told. -/
def announceResult (infohash : NodeId) (accepted : ℕ) : PublishResult :=
  { kind := .Announce, target := infohash, accepted, attempted := accepted }

/-- What is reported of an announcement, as the families are told of. -/
def announceReported (infohash : NodeId) (families : ℕ) (told : List ℕ) : List PublishResult :=
  (Join.reports (· + ·) 0 families told).map (announceResult infohash)

/-- A family's part: the node when its lookup is done, the closest nodes that were found, and
    what happens to the node from then on. -/
structure Part where
  node : DhtNode
  closest : List Lookup.Contact
  after : List DhtNode.Event

namespace Part

variable (o : ℕ → Outside) (method : Bytes) (arguments : Bytes → BValue.Dict) (p : Part)

/-- The node has been open all along, and stays so. -/
def Open : Prop :=
  (∃ config id budget nextId before, .close ∉ before ∧
    p.node = (DhtNode.new config id budget nextId).run crypto before) ∧ .close ∉ p.after

/-- The node once it has asked, and the numbers of the calls. -/
def asked : DhtNode × List ℕ := p.node.queryClosest o method arguments p.closest

/-- What the node of a family did in the end. -/
def log : List Output := ((p.asked o method arguments).1.run crypto p.after).rpc.log

/-- All who were asked have answered or failed. -/
def Done : Prop :=
  ∀ serial ∈ (p.asked o method arguments).2,
    serial ∈ (RpcManager.ranOf (p.log crypto o method arguments)).map (·.1)

instance : Decidable (p.Done crypto o method arguments) :=
  inferInstanceAs (Decidable (∀ _ ∈ _, _))

/-- How many of them have accepted. -/
def accepted : ℕ :=
  (RpcManager.ranOf (p.log crypto o method arguments)).countP fun ran =>
    ran.1 ∈ (p.asked o method arguments).2 ∧ ran.2.status = .Response

/-- How many were asked: all who gave a token. -/
def attempted : ℕ := (DhtNode.askable p.closest).length

/-- What the node tells, how many have accepted. -/
def told : List ℕ := DhtNode.told (p.asked o method arguments).2 (p.log crypto o method arguments)

variable {crypto o method arguments p}

theorem told_of_open (h : p.Open crypto) : p.told crypto o method arguments =
    if p.Done crypto o method arguments then [p.accepted crypto o method arguments] else [] := by
  obtain ⟨⟨config, id, budget, nextId, before, hbefore, hnode⟩, hafter⟩ := h
  have hsound : p.node.rpc.Sound := hnode ▸ (DhtNode.drives_run crypto hbefore).sound
    (DhtNode.sound_rpc_new config id budget nextId)
  have htold := DhtNode.toldOnce_queryClosest hsound o method arguments p.closest
    (DhtNode.drives_run crypto hafter)
  rw [told]
  split_ifs with hdone
  · exact htold.done hdone
  · simp only [Done, not_forall, exists_prop] at hdone
    exact htold.waiting hdone

/-- No more accept than are asked. -/
theorem accepted_le (h : p.Open crypto) : p.accepted crypto o method arguments ≤ p.attempted := by
  obtain ⟨⟨config, id, budget, nextId, before, hbefore, hnode⟩, hafter⟩ := h
  have hsound : p.node.rpc.Sound := hnode ▸ (DhtNode.drives_run crypto hbefore).sound
    (DhtNode.sound_rpc_new config id budget nextId)
  obtain ⟨hdrives, -, hasked⟩ := DhtNode.queryClosest_spec o method arguments p.closest hsound
  have hran := ((hdrives.trans (DhtNode.drives_run crypto hafter)).sound hsound).ran_nodup
  rw [attempted, hasked.length_eq, accepted, List.countP_eq_length_filter, ← List.length_map (·.1)]
  refine (List.subperm_of_subset (hran.sublist (List.filter_sublist.map _)) ?_).length_le
  intro serial hserial
  obtain ⟨ran, hmem, rfl⟩ := List.mem_map.1 hserial
  exact (of_decide_eq_true (List.mem_filter.1 hmem).2).1

end Part

/-! ## Reported once -/

variable {crypto : Crypto} {o : ℕ → Outside} {method : Bytes} {arguments : Bytes → BValue.Dict}
  {parts : List Part}

/-- Each family that is done tells once, and the others do not. -/
theorem length_told (h : ∀ p ∈ parts, p.Open crypto) :
    (parts.flatMap (Part.told crypto o method arguments)).length =
      parts.countP fun p => p.Done crypto o method arguments := by
  induction parts with
  | nil => rfl
  | cons p parts ih =>
    obtain ⟨hp, hparts⟩ := List.forall_mem_cons.1 h
    rw [List.flatMap_cons, List.length_append, ih hparts, Part.told_of_open hp, List.countP_cons]
    by_cases hdone : p.Done crypto o method arguments
    · rw [if_pos hdone, if_pos (decide_eq_true hdone), List.length_singleton, Nat.add_comm]
    · rw [if_neg hdone, if_neg (by simpa using hdone), List.length_nil, Nat.zero_add, Nat.add_zero]

theorem told_of_done (h : ∀ p ∈ parts, p.Open crypto)
    (hdone : ∀ p ∈ parts, p.Done crypto o method arguments) {α : Type*} (f : Part → ℕ → α) :
    (parts.flatMap fun p => (p.told crypto o method arguments).map (f p)) =
      parts.map fun p => f p (p.accepted crypto o method arguments) := by
  rw [List.map_eq_flatMap]
  refine List.flatMap_congr fun p hp => ?_
  rw [Part.told_of_open (h p hp), if_pos (hdone p hp), List.map_singleton]

/-- So there is a report when all are done, and only one. -/
theorem reports_of_told {S R : Type*} (f : S → R → S) (s : S) (h : ∀ p ∈ parts, p.Open crypto)
    (told : List R)
    (hlength : told.length = (parts.flatMap (Part.told crypto o method arguments)).length) :
    Join.reports f s parts.length told =
      if ∀ p ∈ parts, p.Done crypto o method arguments then [told.foldl f s] else [] := by
  rw [length_told h] at hlength
  rw [Join.reports_of_length_le _ (hlength ▸ List.countP_le_length)]
  refine if_congr ?_ rfl rfl
  rw [hlength, List.countP_eq_length]
  simp only [decide_eq_true_eq]

theorem foldl_collect (result : PublishResult) (told : List (ℕ × ℕ)) :
    told.foldl collect result =
      { result with
        accepted := result.accepted + (told.map (·.1)).sum
        attempted := result.attempted + (told.map (·.2)).sum } := by
  induction told generalizing result with
  | nil => rfl
  | cons t told ih =>
    rw [List.foldl_cons, ih]
    simp only [collect, List.map_cons, List.sum_cons, Nat.add_assoc]

/-- A publication is reported once, when all who were asked in both families have answered or
    failed, whichever family is done first: with how many have accepted of how many, and more
    never accept than are asked. -/
theorem reported_once (crypto : Crypto) (o : ℕ → Outside) (parts : List Part)
    (hopen : ∀ p ∈ parts, p.Open crypto) :
    (∀ (r : PutRequest) (result : PublishResult) (told : List (ℕ × ℕ)),
      told.Perm (parts.flatMap fun p =>
        (p.told crypto o (ascii "put") r.arguments).map (·, p.attempted)) →
      putReported result parts.length told =
        if ∀ p ∈ parts, p.Done crypto o (ascii "put") r.arguments then
          [{ result with
            accepted := result.accepted +
              (parts.map (Part.accepted crypto o (ascii "put") r.arguments)).sum
            attempted := result.attempted + (parts.map Part.attempted).sum }]
        else []) ∧
    (∀ (infohash : NodeId) (port : UInt16) (impliedPort : Bool) (told : List ℕ),
      told.Perm (parts.flatMap fun p => p.told crypto o (ascii "announce_peer")
        (DhtNode.announceArguments infohash port impliedPort)) →
      announceReported infohash parts.length told =
        if ∀ p ∈ parts, p.Done crypto o (ascii "announce_peer")
          (DhtNode.announceArguments infohash port impliedPort) then
          [announceResult infohash (parts.map (Part.accepted crypto o (ascii "announce_peer")
            (DhtNode.announceArguments infohash port impliedPort))).sum]
        else []) ∧
    ∀ p ∈ parts, ∀ method arguments, p.accepted crypto o method arguments ≤ p.attempted := by
  refine ⟨fun r result told htold => ?_, fun infohash port impliedPort told htold => ?_,
    fun p hp method arguments => Part.accepted_le (hopen p hp)⟩
  · rw [putReported, reports_of_told collect result hopen told
      (by simpa only [List.length_flatMap, List.length_map] using htold.length_eq)]
    split_ifs with hdone
    · rw [told_of_done hopen hdone (fun p accepted => (accepted, p.attempted))] at htold
      rw [foldl_collect, (htold.map (·.1)).sum_eq, (htold.map (·.2)).sum_eq, List.map_map,
        List.map_map]
      rfl
    · rfl
  · rw [announceReported, reports_of_told (· + ·) 0 hopen told htold.length_eq]
    split_ifs with hdone
    · have hmap := told_of_done hopen hdone (fun _ accepted => accepted)
      simp only [List.map_id'] at hmap
      rw [hmap] at htold
      rw [List.map_singleton, ← List.sum_eq_foldl, htold.sum_eq]
    · rfl

/-- A new node that knows one that has given a token, and of which it hears no more. -/
def unanswered : Part where
  node := DhtNode.new {} default none 0
  closest := [DhtNode.giver]
  after := [.expire 3000 [RpcManager.tidOf 0], .resume { now := 3000 }]

theorem open_unanswered (crypto : Crypto) : unanswered.Open crypto :=
  ⟨⟨{}, default, none, 0, [], List.not_mem_nil, rfl⟩, by simp [unanswered]⟩

/-- An announcement that is not answered is reported as accepted by nobody. -/
theorem reported_once_unanswered :
    announceReported default 1 [0] = [announceResult default 0] := by
  have hreported := (reported_once DhtNode.known (fun _ => { now := 0 }) [unanswered]
    (by simp [open_unanswered])).2.1 default 6881 false [0] (by decide +kernel)
  have haccepted : ([unanswered].map (Part.accepted DhtNode.known (fun _ => { now := 0 })
      (ascii "announce_peer") (DhtNode.announceArguments default 6881 false))).sum = 0 := by
    decide +kernel
  rwa [List.length_singleton, if_pos (by decide +kernel), haccepted] at hreported

/-! ## Taken -/

/-- Whatever is sent for an item that is put is taken by whoever has given the token in it. -/
def Part.Taken (crypto : Crypto) (r : PutRequest) (p : Part) : Prop :=
  ∀ (o : ℕ → Outside), ∀ serial ∈ (p.asked o (ascii "put") r.arguments).2,
    ∀ tid datagram dest now accepted charged,
      .handed serial tid datagram dest now accepted charged ∈
        p.log crypto o (ascii "put") r.arguments → datagram.length < 10 ^ 10 →
      ∃ contact ∈ DhtNode.askable p.closest, dest = contact.endpoint ∧
        ∀ (w : Surroundings) (taker : DhtNode) (sender : Endpoint),
          taker.Admits crypto w contact.token sender →
          taker.Takes crypto w r tid sender datagram

theorem taken_of_wellFormed {p : Part} {r : PutRequest} (h : p.Open crypto)
    (hr : r.WellFormed crypto) : p.Taken crypto r := by
  obtain ⟨⟨config, id, budget, nextId, before, hbefore, hnode⟩, hafter⟩ := h
  intro o serial hserial tid datagram dest now accepted charged hsent hlen
  obtain ⟨htid, contact, hcontact, hdest, readOnly, hdatagram⟩ :=
    DhtNode.sent_of_queryClosest (DhtNode.sound_rpc_new config id budget nextId)
      (DhtNode.encodes_rpc_new config id budget nextId)
      (hnode ▸ DhtNode.drives_run crypto hbefore) (DhtNode.drives_run crypto hafter) hserial hsent
  refine ⟨contact, hcontact, hdest, fun w taker sender hadmits => ?_⟩
  obtain ⟨message, hparse, rfl, hconveys⟩ := DhtNode.conveys_of_query hr hdatagram hlen
  exact DhtNode.takes_of_conveys hr hadmits hparse hconveys (by omega)

/-- The signature of a message made with a secret key verifies with the public one. -/
def Signs (crypto : Crypto) (ed25519Sign : Bytes → Bytes → Bytes)
    (publicKey secretKey message : Bytes) : Prop :=
  (ed25519Sign secretKey message).length = Bep44.SignatureBytes ∧
    crypto.ed25519Check (ed25519Sign secretKey message) message publicKey

/-- It is put in both families, and whatever is sent for it is taken. -/
def Published.Starts (crypto : Crypto) (published : Published) (result : PublishResult)
    (r : PutRequest) : Prop :=
  published = .ok (result, r) ∧ ∀ p : Part, p.Open crypto → p.Taken crypto r

/-- It is put nowhere, and what is wrong is reported at once. -/
def Published.Fails (published : Published) (result : PublishResult) : Prop :=
  ∃ error, error ≠ "" ∧ published = .error { result with error }

theorem publishImmutable_taken (crypto : Crypto) {value : Bytes}
    (hvalue : ∃ t : Bencode.Tree, t.Fits 30 ∧ value = t.source)
    (hlen : value.length ≤ Bep44.MaxValueBytes) :
    Published.Starts crypto (publishImmutable crypto value)
      { kind := .Immutable, target := Bep44.immutableTarget crypto value }
      { target := Bep44.immutableTarget crypto value, value } := by
  refine ⟨by rw [publishImmutable, if_neg (not_lt.2 hlen)], fun p h => taken_of_wellFormed h ?_⟩
  exact ⟨hvalue, hlen, by simp, by simp, by simp, by simp⟩

theorem publishMutable_taken {ed25519Sign : Bytes → Bytes → Bytes}
    {publicKey secretKey salt value : Bytes} {sequence : ℤ} {cas : Option ℤ}
    (hsigns : Signs crypto ed25519Sign publicKey secretKey
      (Bep44.signingBuffer salt sequence value))
    (hvalue : ∃ t : Bencode.Tree, t.Fits 30 ∧ value = t.source)
    (hsequence : Bencode.IsInt64 sequence) (hcas : ∀ c ∈ cas, Bencode.IsInt64 c)
    (hkey : publicKey.length = Bep44.PublicKeyBytes) (hsecret : secretKey.length = secretKeyBytes)
    (hlen : value.length ≤ Bep44.MaxValueBytes) (hsalt : salt.length ≤ Bep44.MaxSaltBytes) :
    Published.Starts crypto
      (publishMutable crypto ed25519Sign publicKey secretKey salt sequence value cas)
      { kind := .Mutable, sequence, target := Bep44.mutableTarget crypto publicKey salt }
      { target := Bep44.mutableTarget crypto publicKey salt, value, isMutable := true, publicKey,
        salt, sequence, cas,
        signature := ed25519Sign secretKey (Bep44.signingBuffer salt sequence value) } := by
  obtain ⟨hsignature, hverifies⟩ := hsigns
  have hsign : sign ed25519Sign (Bep44.signingBuffer salt sequence value) secretKey =
      ed25519Sign secretKey (Bep44.signingBuffer salt sequence value) := by
    rw [sign, if_neg (not_not.2 hsecret)]
  refine ⟨?_, fun p h => taken_of_wellFormed h ⟨hvalue, hlen, fun _ => hsalt, fun _ => hsequence,
    fun _ => hcas, fun _ => ?_⟩⟩
  · rw [publishMutable, if_neg (not_or.2 ⟨not_not.2 hkey, not_not.2 hsecret⟩),
      if_neg (not_lt.2 hlen), if_neg (not_lt.2 hsalt), hsign]
    dsimp only
    rw [if_neg]
    rw [List.isEmpty_iff_length_eq_zero, hsignature]
    decide
  · dsimp only
    rw [Bep44.verify, if_neg (not_or.2 ⟨not_not.2 hsignature, not_not.2 hkey⟩), hverifies]

theorem fails_publishMutable {ed25519Sign : Bytes → Bytes → Bytes}
    {publicKey secretKey salt value : Bytes} {sequence : ℤ} {cas : Option ℤ}
    (h : ¬(publicKey.length = Bep44.PublicKeyBytes ∧ secretKey.length = secretKeyBytes ∧
      value.length ≤ Bep44.MaxValueBytes ∧ salt.length ≤ Bep44.MaxSaltBytes)) :
    Published.Fails (publishMutable crypto ed25519Sign publicKey secretKey salt sequence value cas)
      { kind := .Mutable, sequence, target := Bep44.mutableTarget crypto publicKey salt } := by
  rw [publishMutable]
  dsimp only
  split_ifs with hkeys hlen hsalt hempty
  · exact ⟨_, by decide, rfl⟩
  · exact ⟨_, by decide, rfl⟩
  · exact ⟨_, by decide, rfl⟩
  · exact ⟨_, by decide, rfl⟩
  · rw [not_or, not_not, not_not] at hkeys
    exact absurd ⟨hkeys.1, hkeys.2, not_lt.1 hlen, not_lt.1 hsalt⟩ h

/-- What is published is either reported at once with what is wrong with it, and put nowhere, or
    put in both families; and then whatever is sent for it, at once or later, is taken as it was
    published by whoever has given the token in it. -/
theorem published_taken (crypto : Crypto) (value : Bytes)
    (hvalue : ∃ t : Bencode.Tree, t.Fits 30 ∧ value = t.source) :
    (if value.length ≤ Bep44.MaxValueBytes then
      Published.Starts crypto (publishImmutable crypto value)
        { kind := .Immutable, target := Bep44.immutableTarget crypto value }
        { target := Bep44.immutableTarget crypto value, value }
    else Published.Fails (publishImmutable crypto value)
      { kind := .Immutable, target := Bep44.immutableTarget crypto value }) ∧
    ∀ (ed25519Sign : Bytes → Bytes → Bytes) (publicKey secretKey salt : Bytes) (sequence : ℤ)
      (cas : Option ℤ),
      Signs crypto ed25519Sign publicKey secretKey (Bep44.signingBuffer salt sequence value) →
      Bencode.IsInt64 sequence → (∀ c ∈ cas, Bencode.IsInt64 c) →
      if publicKey.length = Bep44.PublicKeyBytes ∧ secretKey.length = secretKeyBytes ∧
          value.length ≤ Bep44.MaxValueBytes ∧ salt.length ≤ Bep44.MaxSaltBytes then
        Published.Starts crypto
          (publishMutable crypto ed25519Sign publicKey secretKey salt sequence value cas)
          { kind := .Mutable, sequence, target := Bep44.mutableTarget crypto publicKey salt }
          { target := Bep44.mutableTarget crypto publicKey salt, value, isMutable := true,
            publicKey, salt, sequence, cas,
            signature := ed25519Sign secretKey (Bep44.signingBuffer salt sequence value) }
      else Published.Fails
        (publishMutable crypto ed25519Sign publicKey secretKey salt sequence value cas)
        { kind := .Mutable, sequence, target := Bep44.mutableTarget crypto publicKey salt } := by
  refine ⟨?_, fun ed25519Sign publicKey secretKey salt sequence cas hsigns hsequence hcas => ?_⟩
  · split_ifs with hlen
    · exact publishImmutable_taken crypto hvalue hlen
    · rw [publishImmutable, if_pos (not_le.1 hlen)]
      exact ⟨_, by decide, rfl⟩
  · split_ifs with hfits
    · obtain ⟨hkey, hsecret, hlen, hsalt⟩ := hfits
      exact publishMutable_taken hsigns hvalue hsequence hcas hkey hsecret hlen hsalt
    · exact fails_publishMutable hfits

/-- The secret key of an owner. -/
def ownersSecret : Bytes :=
  Endpoint.bytesOf 32 0x9d61b19deffd5a60ba844af492ec2cc44449c5697b326919703bac031cae7f60 ++
    DhtNode.owner

/-- The owner's put of the value `1:a`. -/
def ownersPut : PutRequest where
  target := Bep44.mutableTarget DhtNode.known DhtNode.owner []
  value := ascii "1:a"
  isMutable := true
  publicKey := DhtNode.owner
  sequence := 1
  signature := DhtNode.signatureOf (ascii "1:a")

/-- It starts, and is taken by a node that has given a token for it. -/
theorem published_taken_owner :
    Published.Starts DhtNode.known
      (publishMutable DhtNode.known (fun _ _ => DhtNode.signatureOf (ascii "1:a")) DhtNode.owner
        ownersSecret [] 1 (ascii "1:a") none)
      { kind := .Mutable, sequence := 1,
        target := Bep44.mutableTarget DhtNode.known DhtNode.owner [] } ownersPut ∧
    ∃ datagram, (DhtNode.new {} default none 0).Takes DhtNode.known { now := 1 } ownersPut
      (RpcManager.tidOf 0) DhtNode.host datagram := by
  have hstarts := (published_taken DhtNode.known (ascii "1:a")
    ⟨.string ⟨Decimal.digits (ascii "a").length, ascii "a"⟩, by
      rw [Bencode.Tree.Fits]
      exact Bencode.ok_text (by decide), by decide +kernel⟩).2
    (fun _ _ => DhtNode.signatureOf (ascii "1:a")) DhtNode.owner ownersSecret [] 1 none
    ⟨by decide +kernel, by decide +kernel⟩ (by decide) (by simp)
  rw [if_pos (by decide +kernel)] at hstarts
  refine ⟨hstarts, ?_⟩
  obtain ⟨now, charged, hsent⟩ := RpcManager.handed_of_sent
    (m := (DhtNode.new {} default none 0).rpc) (o := { now := 0 })
    (q := (DhtNode.new {} default none 0).queryTo (ascii "put") ownersPut.arguments DhtNode.giver 0)
    rfl (by decide +kernel) rfl (AList.notMem_empty _)
  obtain ⟨contact, hcontact, -, htakes⟩ := hstarts.2 { unanswered with after := [] }
    ⟨(open_unanswered _).1, List.not_mem_nil⟩ (fun _ => { now := 0 }) 0 List.mem_cons_self _ _
    DhtNode.host now true charged hsent (by decide +kernel)
  obtain rfl := List.mem_singleton.1 (List.mem_of_mem_filter hcontact)
  exact ⟨_, htakes { now := 1 } (DhtNode.new {} default none 0) DhtNode.host
    ⟨by decide +kernel, rfl, by decide +kernel⟩⟩

end DhtEngine

end Dht
