import DhtCore.DhtNode.Table
import DhtCore.Storage.Items

/-!
# Puts

What comes of a put (`handlePut_cases`): it is refused with an error, or its value is
stored under its hash, or, checked, as a mutable item. Nothing else that happens to a
node brings in items (`items_apply`).

* In every run what is stored is genuine, within the limits, and never replaced by
  what is older or not expected; an error leaves all as it was (`itemsSafe_run`).
* A put that is answered should be stored, and returned by a get. It is not if a
  mutable item with the same sequence number is there, which is refreshed whatever
  its value (`exists_not_durable`), and a get does not return it if there is an
  immutable item of the same target, whose value is the key and the salt. Otherwise
  it is (`durable_iff`).
-/

namespace Dht.DhtNode

open Replacing

variable {crypto : Crypto} {w : Surroundings} {n n' : DhtNode} {message : Krpc.Message}
  {sender : Endpoint} {datagram : Bytes}

/-- The bytes of the value of a put, as they were sent. -/
def rawValue (message : Krpc.Message) (datagram : Bytes) : Bytes :=
  ((message.body.find (ascii "v")).map fun v => v.rawSpan datagram).getD []

/-- A put asks for a mutable item to be stored. -/
structure Asks (message : Krpc.Message) (datagram : Bytes) (item : MutableItem) : Prop where
  key : message.body.stringAt (ascii "k") = some item.publicKey
  salt : (message.body.stringAt (ascii "salt")).getD [] = item.salt
  sequence : message.body.integerAt (ascii "seq") = some item.sequence
  signature : message.body.stringAt (ascii "sig") = some item.signature
  value : rawValue message datagram = item.value

/-- What is true of each thing that may come of a put. -/
theorem handlePut_cases {R : DhtNode × Answer → Prop}
    (refused : ∀ tokens code text, R ({ n with tokens }, .error code text))
    (immutable : ∀ tokens, message.body.stringAt (ascii "k") = none →
      (rawValue message datagram).length ≤ Bep44.MaxValueBytes →
      R ({ n with
        tokens
        items := (n.items.putImmutable (Bep44.immutableTarget crypto (rawValue message datagram))
          (rawValue message datagram) w.now).1 }, .response []))
    (mutable : ∀ tokens item, Asks message datagram item → item.Genuine crypto item.target →
      R ({ n with
        tokens
        items := (n.items.putMutable item (message.body.integerAt (ascii "cas")) w.now).1 },
        answerTo (n.items.putMutable item (message.body.integerAt (ascii "cas")) w.now).2)) :
    R (n.handlePut crypto w message sender datagram) := by
  rw [handlePut]
  dsimp only
  rw [← rawValue]
  split
  next => exact refused n.tokens _ _
  next token _ =>
    generalize n.tokens.validate crypto w.secrets token sender.address w.now = validated
    split_ifs with hvalid hempty hlong
    · exact refused _ _ _
    · exact refused _ _ _
    · exact refused _ _ _
    · have hlen := not_lt.1 hlong
      split
      next hk => exact immutable _ hk hlen
      next key hk =>
        rw [handleMutablePut]
        by_cases hkey : key.length ≠ Bep44.PublicKeyBytes
        · rw [if_pos hkey]
          exact refused _ _ _
        rw [if_neg hkey]
        dsimp only
        by_cases hsalt : ((message.body.stringAt (ascii "salt")).getD []).length >
          Bep44.MaxSaltBytes
        · rw [if_pos hsalt]
          exact refused _ _ _
        rw [if_neg hsalt]
        split
        next sequence signature hsequence hsignature =>
          split_ifs with hsig
          · exact refused _ _ _
          · split
            next => exact refused _ _ _
            next => exact refused _ _ _
            -- Only here has the signature been checked over the raw value.
            next hverified =>
              exact mutable _ _ ⟨hk, rfl, hsequence, hsignature, rfl⟩
                ⟨rfl, rfl, hverified, hlen, not_lt.1 hsalt⟩
        next => exact refused _ _ _

/-! ## What a node does to its items -/

theorem items_noteSender (n : DhtNode) (message : Krpc.Message) (id : NodeId) (sender : Endpoint) :
    (n.noteSender w message id sender).items = n.items := by
  rw [noteSender]
  dsimp only
  split_ifs
  · rfl
  · rfl
  · rw [maybeVerify]
    split_ifs <;> rfl

/-- A query leaves the items as they are, being refused if it is a put, or it is a put that
    is handled. -/
theorem handleQuery_cases (crypto : Crypto) (w : Surroundings) (n : DhtNode)
    (message : Krpc.Message) (sender : Endpoint) (datagram : Bytes) :
    ((n.handleQuery crypto w message sender datagram).1.items = n.items ∧
      (message.method = ascii "put" → ∀ values,
        (n.handleQuery crypto w message sender datagram).2 ≠ some (.response values))) ∨
    message.method = ascii "put" ∧ ∃ n' : DhtNode, n'.items = n.items ∧
      n.handleQuery crypto w message sender datagram =
        ((n'.handlePut crypto w message sender datagram).1,
          some (n'.handlePut crypto w message sender datagram).2) := by
  rw [handleQuery]
  dsimp only
  split_ifs
  · exact .inl ⟨rfl, by simp⟩
  · exact .inl ⟨rfl, by simp⟩
  · split
    next => exact .inl ⟨rfl, by simp [protocolError]⟩
    next id _ =>
      by_cases hput : message.method = ascii "put"
      · rw [dispatch_put crypto w _ sender datagram hput]
        -- The sender is noted first, which touches no item.
        refine .inr ⟨hput, _, ?_, rfl⟩
        exact items_noteSender ..
      · obtain ⟨storage, tokens, heq⟩ :=
          dispatch_of_ne crypto w (noteSender w _ message id sender) sender
          datagram hput
        rw [heq]
        exact .inl ⟨items_noteSender .., fun h => absurd h hput⟩

theorem items_onRpcReply (n : DhtNode) (reply : RpcReply) :
    (n.onRpcReply w reply).items = n.items := by
  have hnoted : (n.noteAddress w reply.message reply.sender).items = n.items := by
    rw [noteAddress]
    split
    · rfl
    · dsimp only
      split_ifs
      · rw [adoptExternalAddress]
        split_ifs <;> rfl
      · rfl
  rw [onRpcReply]
  split
  · rfl
  · rfl
  · rfl
  · dsimp only
    split
    · exact hnoted
    · split_ifs <;> exact hnoted

theorem items_withRpc (n : DhtNode) (rpc : RpcManager) : (n.withRpc w rpc).items = n.items := by
  rw [withRpc]
  refine foldl_invariant (P := fun n' : DhtNode => n'.items = n.items) ?_ ?_ _
  · rfl
  · intro n' ran h
    rw [onSeedReply]
    split
    · exact (items_onRpcReply ..).trans h
    · split <;> exact (items_onRpcReply ..).trans h

theorem items_onMaintenance (n : DhtNode) : (n.onMaintenance w).items = n.items := by
  have hpinged : (n.pingNodes w).items = n.items := by
    rw [pingNodes]
    refine foldl_invariant (P := fun n' : DhtNode => n'.items = n.items) rfl ?_ _
    exact fun n' node h => h
  have hrefreshed : ((n.pingNodes w).refreshBucket w).items = (n.pingNodes w).items := by
    rw [refreshBucket]
    split_ifs
    · rfl
    · split <;> rfl
  exact hrefreshed.trans hpinged

/-- What a put does to the items is one call. -/
theorem items_handlePut (n : DhtNode) (hnow : w.now < ItemStorage.EndOfTime) :
    (n.handlePut crypto w message sender datagram).1.items = n.items ∨
    ∃ op, n.items.Allowed crypto op ∧
      (n.handlePut crypto w message sender datagram).1.items = n.items.apply crypto op := by
  apply handlePut_cases (R := fun r => r.1.items = n.items ∨
    ∃ op, n.items.Allowed crypto op ∧ r.1.items = n.items.apply crypto op)
  case refused => exact fun _ _ _ => .inl rfl
  case immutable =>
    exact fun _ _ _ => .inr
      ⟨.putImmutable (rawValue message datagram) w.now, hnow, rfl⟩
  case mutable => exact fun _ item _ hitem => .inr ⟨.putMutable item _ w.now, ⟨hitem, hnow⟩, rfl⟩

/-- What an event does to the items is at most one call. -/
theorem items_apply (crypto : Crypto) (n : DhtNode) {e : Event} (h : n.Legal e) :
    (n.apply crypto e).items = n.items ∨
    ∃ op, n.items.Allowed crypto op ∧ (n.apply crypto e).items = n.items.apply crypto op := by
  cases e with
  | datagram w data sender =>
    rw [DhtNode.apply, handleDatagram]
    split
    next => exact .inl rfl
    next message _ =>
      split_ifs
      · dsimp only
        rcases handleQuery_cases crypto w n message sender data with
          ⟨heq, -⟩ | ⟨-, n', hitems, heq⟩
        · exact .inl heq
        · rw [heq, ← hitems]
          exact items_handlePut n' h
      · exact .inl (items_withRpc ..)
  | addSeed w endpoint source =>
    rw [DhtNode.apply, DhtNode.addSeed]
    split <;> exact .inl rfl
  | setReadOnly readOnly =>
    rw [DhtNode.apply, DhtNode.setReadOnly]
    split_ifs <;> exact .inl rfl
  | maintenance w => exact .inl (items_onMaintenance n)
  | resume w => exact .inl (items_withRpc ..)
  | deliver w => exact .inl (items_withRpc ..)
  | expireStorage now => exact .inr ⟨.expire now, trivial, rfl⟩
  | reorder items => exact .inr ⟨.reorder items, h, rfl⟩
  | query _ _ _ _ _ _ | setId _ _ | drain _ | expire _ _ | setBudget _ | close => exact .inl rfl

/-- A put that is answered with an error leaves the items as they are. -/
theorem items_of_error {code : ℤ} {text : Bytes}
    (h : (n.handlePut crypto w message sender datagram).2 = .error code text) :
    (n.handlePut crypto w message sender datagram).1.items = n.items := by
  revert h
  apply handlePut_cases (R := fun r => r.2 = .error code text → r.1.items = n.items)
  case refused => exact fun _ _ _ _ => rfl
  case immutable => exact fun _ _ _ h => nomatch h
  case mutable =>
    intro _ item _ _
    apply ItemStorage.putMutable_cases (R := fun r => answerTo r.2 = .error code text →
      r.1 = n.items)
    case refused => exact fun _ _ _ _ => rfl
    case refreshed => exact fun _ _ _ _ h => nomatch h
    case replaced => exact fun _ _ _ _ h => nomatch h
    case added => exact fun _ _ h => nomatch h

/-- A put that expects a sequence number changes no mutable item with another one. -/
theorem eq_of_cas {c : ℤ} (hcas : message.body.integerAt (ascii "cas") = some c) {target : NodeId}
    {old new : MutableItem} (hold : n.items.mutable.lookup target = some old)
    (hnew : (n.handlePut crypto w message sender datagram).1.items.mutable.lookup target = some new)
    (hne : new ≠ old) : old.sequence = c := by
  revert hnew
  apply handlePut_cases (R := fun r => r.1.items.mutable.lookup target = some new →
    old.sequence = c)
  case refused => exact fun _ _ _ h => absurd (Option.some.inj (h.symm.trans hold)) hne
  case immutable => exact fun _ _ _ h => absurd (ItemStorage.mutable_putImmutable hold h) hne
  case mutable =>
    intro _ item _ _ h
    exact ((ItemStorage.mutable_putMutable hold h).resolve_left hne).1 c hcas

/-! ## An owner who signs twice -/

/-- The public key of an owner. -/
def owner : Bytes :=
  Endpoint.bytesOf 32 0xd75a980182b10ab7d54bfed3c964073a0ee172f3daa62325af021a68f707511a

/-- The owner's signature of a value, with the sequence number 1. -/
def signatureOf (value : Bytes) : Bytes :=
  if value = ascii "1:a" then
    Endpoint.bytesOf 32 0x77114c094e2d6afa7edbb0c8c2b1b320632cea115e9d9c9c3019ac344f7652a6 ++
      Endpoint.bytesOf 32 0x0ae244f9c946dd0ab52df87417e10b3ac0a68e70d83d99c1f4ca3545f3a9b502
  else
    Endpoint.bytesOf 32 0xfa7c35cd576c854725b58b1c181783602aa7a029ca685470df6053f409545c1a ++
      Endpoint.bytesOf 32 0xafa25a08701bd88e891b694bc9f4a8e4d7e77fe81d388ff7a7ac51f2a6e6810c

/-- The hashes and the valid signatures that are needed. -/
def known : Crypto where
  sha1 bytes :=
    if bytes = owner then ⟨Endpoint.bytesOf 20 0x5b27aa5589179770e47575b162a1ded97b8bfc6d, rfl⟩
    else if bytes = [8, 8, 8, 8] then
      ⟨Endpoint.bytesOf 20 0x2b8ea1e3273d046280cbc5f24c9b615fbded944f, rfl⟩
    else default
  ed25519Check signature message publicKey :=
    publicKey = owner && [ascii "1:a", ascii "1:b"].any fun value =>
      message = ascii "3:seqi1e1:v" ++ value && signature = signatureOf value

/-- A put of a value by the owner. -/
def putOf (value : Bytes) : Bytes :=
  ascii "d1:ad2:id20:" ++ List.replicate 20 1 ++ ascii "1:k32:" ++ owner ++
    ascii "3:seqi1e3:sig64:" ++ signatureOf value ++ ascii "5:token8:" ++
    Endpoint.bytesOf 8 0x2b8ea1e3273d0462 ++ ascii "1:v" ++ value ++ ascii "e1:q3:put1:t2:aa1:y1:qe"

/-- The owner's endpoint. -/
def host : Endpoint := ⟨.ipv4 (HostAddress.dotted 8 8 8 8), 6881⟩

/-- The put of the value `1:a` arrives. -/
def firstPut : Event := .datagram { now := 1 } (putOf (ascii "1:a")) host

theorem legal_firstPut (n : DhtNode) : n.Legal firstPut := by
  show (1 : ℤ) < 2 ^ 63 - 1
  norm_num

/-- The owner's signature of the value `1:b`, with the sequence number 2. -/
def renewedSignature : Bytes :=
  Endpoint.bytesOf 32 0x39458efae2359944c74bf15bbb1f4f8dc1717b141333aa8d73393379fb7db85a ++
    Endpoint.bytesOf 32 0xc7f65d53aad2ced5ab84719dbfadf1086cf9228c5f9ed743ae50790f1f3fa60d

/-- The hashes and the valid signatures, that one among them. -/
def knownRenewed : Crypto where
  sha1 := known.sha1
  ed25519Check signature message publicKey :=
    publicKey = owner && message = ascii "3:seqi2e1:v1:b" && signature = renewedSignature ||
      known.ed25519Check signature message publicKey

/-- The owner's put of the value `1:b` arrives, in place of the item with the sequence number 1. -/
def renewedPut : Event :=
  .datagram { now := 2 } (ascii "d1:ad3:casi1e2:id20:" ++ List.replicate 20 1 ++ ascii "1:k32:" ++
    owner ++ ascii "3:seqi2e3:sig64:" ++ renewedSignature ++ ascii "5:token8:" ++
    Endpoint.bytesOf 8 0x2b8ea1e3273d0462 ++ ascii "1:v1:be1:q3:put1:t2:aa1:y1:qe") host

theorem legal_renewedPut (n : DhtNode) : n.Legal renewedPut := by
  show (2 : ℤ) < 2 ^ 63 - 1
  norm_num

/-- What a datagram says. -/
def messageOf (datagram : Bytes) : Krpc.Message := (Krpc.parse datagram).message.getD {}

/-! ## Runs -/

theorem legalRun_append {p q : List Event} : n.LegalRun crypto (p ++ q) ↔
    n.LegalRun crypto p ∧ (n.run crypto p).LegalRun crypto q := by
  induction p generalizing n with
  | nil => simp [LegalRun, DhtNode.run]
  | cons e p ih =>
    rw [List.cons_append, LegalRun, ih, LegalRun, and_assoc, DhtNode.run, DhtNode.run,
      List.foldl_cons]

/-- In a run, the sequence number of a mutable item that stays does not decrease. -/
theorem sequence_le_run {events : List Event} (h : n.LegalRun crypto events) {target : NodeId}
    (hstays : ∀ r, r <+: events → target ∈ (n.run crypto r).items.mutable) {old new : MutableItem}
    (hold : n.items.mutable.lookup target = some old)
    (hnew : (n.run crypto events).items.mutable.lookup target = some new) :
    old.sequence ≤ new.sequence := by
  induction events generalizing n old with
  | nil => exact (Option.some.inj (hold.symm.trans hnew)) ▸ le_rfl
  | cons e events ih =>
    have hthere := hstays [e] ((List.prefix_cons_inj e).2 (List.nil_prefix))
    obtain ⟨next, hnext⟩ := Option.isSome_iff_exists.1 (AList.lookup_isSome.2 hthere)
    have hstep : old.sequence ≤ next.sequence := by
      rcases items_apply crypto n h.1 with heq | ⟨op, hop, heq⟩
      · have hnext' : n.items.mutable.lookup target = some next := heq ▸ hnext
        exact (Option.some.inj (hold.symm.trans hnext')) ▸ le_rfl
      · exact ItemStorage.sequence_le_apply hop hold (heq ▸ hnext)
    exact hstep.trans (ih h.2 (fun r hr => hstays (e :: r) ((List.prefix_cons_inj e).2 hr))
      hnext hnew)

/-- What puts do not do: change a mutable item other than the expected one, or the
    items at all if they are answered with an error. -/
structure PutsSafely (crypto : Crypto) (n : DhtNode) : Prop where
  cas : ∀ w message sender datagram c, message.method = ascii "put" →
    message.body.integerAt (ascii "cas") = some c → ∀ target old new,
      n.items.mutable.lookup target = some old →
      (n.handleQuery crypto w message sender datagram).1.items.mutable.lookup target = some new →
      new ≠ old → old.sequence = c
  error : ∀ w message sender datagram code text,
    (n.handleQuery crypto w message sender datagram).2 = some (.error code text) →
    (n.handleQuery crypto w message sender datagram).1.items = n.items

theorem putsSafely (crypto : Crypto) (n : DhtNode) : n.PutsSafely crypto := by
  constructor
  · intro w message sender datagram c _ hcas target old new hold hnew hne
    rcases handleQuery_cases crypto w n message sender datagram with
      ⟨heq, -⟩ | ⟨-, n', hitems, heq⟩
    · rw [heq, hold] at hnew
      exact absurd (Option.some.inj hnew).symm hne
    · rw [heq] at hnew
      exact eq_of_cas hcas (hitems ▸ hold) hnew hne
  · intro w message sender datagram code text herror
    rcases handleQuery_cases crypto w n message sender datagram with
      ⟨heq, -⟩ | ⟨-, n', hitems, heq⟩
    · exact heq
    · rw [heq] at herror ⊢
      exact (items_of_error (Option.some.inj herror)).trans hitems

/-- In every run the items stored are genuine and not too many. -/
theorem items_run {config : NodeConfig} {id : NodeId} {budget : Option ContactBudget}
    {nextId : UInt16} {events : List Event}
    (h : (new config id budget nextId).LegalRun crypto events) :
    ((new config id budget nextId).run crypto events).items.Sound crypto ∧
      ((new config id budget nextId).run crypto events).items.Timely := by
  refine forall_prefix_of_step (P := fun n : DhtNode => n.items.Sound crypto ∧ n.items.Timely)
    (C := Legal) ⟨⟨⟨?_, ?_⟩, Nat.zero_le _⟩, ⟨?_, ?_⟩⟩ (fun n e hn he => ?_) (fun q e hq => ?_)
    (List.prefix_refl events)
  · exact fun _ _ h => nomatch h
  · exact fun _ _ h => nomatch h
  · exact fun _ _ h => nomatch h
  · exact fun _ _ h => nomatch h
  · rcases items_apply crypto n he with heq | ⟨op, hop, heq⟩
    · rwa [heq]
    · rw [heq]
      exact ⟨hn.1.apply hn.2 hop, hn.2.apply hop⟩
  · obtain ⟨rest, rfl⟩ := hq
    rw [legalRun_append, legalRun_append] at h
    exact h.1.2.1

/-- In every run the items stored are genuine and not too many, the sequence number of a
    mutable item that stays does not decrease, and puts are safe. -/
theorem itemsSafe_run (crypto : Crypto) (config : NodeConfig) (id : NodeId)
    (budget : Option ContactBudget) (nextId : UInt16) (events : List Event)
    (h : (new config id budget nextId).LegalRun crypto events) :
    let after (events : List Event) := (new config id budget nextId).run crypto events
    (∀ p, p <+: events → (after p).items.Sound crypto ∧ (after p).PutsSafely crypto) ∧
    ∀ p s, p ++ s <+: events →
      ∀ target, (∀ r, r <+: s → target ∈ (after (p ++ r)).items.mutable) →
      ∀ old new, (after p).items.mutable.lookup target = some old →
        (after (p ++ s)).items.mutable.lookup target = some new → old.sequence ≤ new.sequence := by
  intro after
  have hrun : ∀ p q, after (p ++ q) = (after p).run crypto q := fun p q => List.foldl_append
  constructor
  · rintro p ⟨rest, rfl⟩
    exact ⟨(items_run (legalRun_append.1 h).1).1, putsSafely crypto _⟩
  · rintro p s ⟨rest, rfl⟩ target hstays old new hold hnew
    rw [legalRun_append, legalRun_append] at h
    refine sequence_le_run h.1.2 (fun r hr => ?_) hold (hrun p s ▸ hnew)
    exact hrun p r ▸ hstays r hr

/-- The owner's item, after some events. -/
def ownersItem (events : List Event) : Option MutableItem :=
  ((new {} default none 0).run knownRenewed events).items.mutable.lookup (knownRenewed.sha1 owner)

/-- A run in which an item is stored, and then a newer one in its place. -/
theorem itemsSafe_run_replaced : ∃ old new, ownersItem [firstPut] = some old ∧
    ownersItem [firstPut, renewedPut] = some new ∧ old.value = ascii "1:a" ∧
    new.value = ascii "1:b" ∧ old.sequence ≤ new.sequence ∧
    let n := (DhtNode.new {} default none 0).run knownRenewed [firstPut, renewedPut]
    n.items.Sound knownRenewed ∧ n.PutsSafely knownRenewed := by
  have hstored : (ownersItem [firstPut]).map (·.value) = some (ascii "1:a") := by decide +kernel
  have hreplaced : (ownersItem [firstPut, renewedPut]).map (·.value) = some (ascii "1:b") := by
    decide +kernel
  obtain ⟨old, hold, hvalue⟩ := Option.map_eq_some_iff.1 hstored
  obtain ⟨new, hnew, hvalue'⟩ := Option.map_eq_some_iff.1 hreplaced
  obtain ⟨hsafe, hsequence⟩ := itemsSafe_run knownRenewed {} default none 0 [firstPut, renewedPut]
    ⟨legal_firstPut _, legal_renewedPut _, trivial⟩
  have hle : ∀ p s, p ++ s <+: [firstPut, renewedPut] →
      (∀ r, r <+: s → (ownersItem (p ++ r)).isSome) → ∀ old new, ownersItem p = some old →
      ownersItem (p ++ s) = some new → old.sequence ≤ new.sequence := fun p s hps hstays =>
    hsequence p s hps _ fun r hr => AList.lookup_isSome.1 (hstays r hr)
  refine ⟨old, new, hold, hnew, hvalue, hvalue', ?_, hsafe _ (List.prefix_refl _)⟩
  refine hle [firstPut] [renewedPut] (List.prefix_refl _) (fun r hr => ?_) old new hold hnew
  rcases List.prefix_cons_iff.1 hr with rfl | ⟨rest, rfl, hrest⟩
  · exact Option.isSome_of_eq_some hold
  · rw [List.prefix_nil.1 hrest]
    exact Option.isSome_of_eq_some hnew

/-! ## Puts acknowledged -/

/-- The target of a put: what its item is stored under. -/
def putTarget (crypto : Crypto) (message : Krpc.Message) (raw : Bytes) : NodeId :=
  match message.body.stringAt (ascii "k") with
  | none => Bep44.immutableTarget crypto raw
  | some key => Bep44.mutableTarget crypto key ((message.body.stringAt (ascii "salt")).getD [])

/-- The item of a put is stored, with the value, and the sequence number and the signature
    if it is mutable. -/
def Stores (crypto : Crypto) (n : DhtNode) (message : Krpc.Message) (raw : Bytes) : Prop :=
  match message.body.stringAt (ascii "k") with
  | none => ∃ item, n.items.immutableItem (putTarget crypto message raw) = some item ∧
    item.value = raw
  | some _ => ∃ item, n.items.mutableItem (putTarget crypto message raw) = some item ∧
      item.value = raw ∧ message.body.integerAt (ascii "seq") = some item.sequence ∧
      message.body.stringAt (ascii "sig") = some item.signature

/-- A get for a target, by someone who holds no item, returns a value. -/
def Returns (crypto : Crypto) (n : DhtNode) (target : NodeId) (raw : Bytes) : Prop :=
  ∀ w get sender, idAt get "target" = some target → get.body.integerAt (ascii "seq") = none →
    ∃ values, (n.handleGet crypto w get sender).2 = .response values ∧
      values.lookup (ascii "v") = some (.preEncoded raw)

/-- The items that are left once there is room for a mutable item. -/
def roomFor (n : DhtNode) (target : NodeId) : ItemStorage :=
  if target ∈ n.items.mutable then n.items else n.items.makeRoom

/-- Nothing stored stands against a put: no mutable item with the same sequence number but
    another value or signature, and no immutable item with another value, under the
    target of a mutable item. -/
def Unopposed (crypto : Crypto) (n : DhtNode) (message : Krpc.Message) (raw : Bytes) : Prop :=
  (message.body.stringAt (ascii "k")).isSome →
    (∀ old, n.items.mutable.lookup (putTarget crypto message raw) = some old →
      message.body.integerAt (ascii "seq") = some old.sequence →
      old.value = raw ∧ message.body.stringAt (ascii "sig") = some old.signature) ∧
    ∀ item, (n.roomFor (putTarget crypto message raw)).immutable.lookup
    (putTarget crypto message raw) = some item → item.value = raw

/-- What a get of an immutable item returns. -/
theorem handleGet_of_immutable (crypto : Crypto) {target : NodeId} {item : ImmutableItem}
    (hitem : n.items.immutable.lookup target = some item) (w : Surroundings) (get : Krpc.Message)
    (sender : Endpoint) (htarget : idAt get "target" = some target) :
    ∃ values, (n.handleGet crypto w get sender).2 = .response values ∧
      values.lookup (ascii "v") = some (.preEncoded item.value) := by
  rw [handleGet, htarget]
  dsimp only [ItemStorage.immutableItem]
  rw [hitem]
  exact ⟨_, rfl, BValue.Dict.lookup_insertOrAssign ..⟩

/-- What a get of a mutable item returns, if there is no immutable one of the target. -/
theorem handleGet_of_mutable {target : NodeId} {item : MutableItem}
    (hnone : n.items.immutable.lookup target = none)
    (hitem : n.items.mutable.lookup target = some item) (w : Surroundings) (get : Krpc.Message)
    (sender : Endpoint) (htarget : idAt get "target" = some target)
    (hseq : get.body.integerAt (ascii "seq") = none) :
    ∃ values, (n.handleGet crypto w get sender).2 = .response values ∧
      values.lookup (ascii "v") = some (.preEncoded item.value) := by
  rw [handleGet, htarget]
  dsimp only [ItemStorage.immutableItem, ItemStorage.mutableItem]
  rw [hnone, hitem, hseq]
  refine ⟨_, rfl, ?_⟩
  dsimp only
  rw [if_pos (by rfl), BValue.Dict.lookup_insertOrAssign_of_ne (by decide),
    BValue.Dict.lookup_insertOrAssign]

/-- Which value a get of a mutable item returns: that of an immutable one of the target, if
    there is one. -/
theorem returns_iff {target : NodeId} {raw : Bytes} {item : MutableItem}
    (hitem : n.items.mutable.lookup target = some item) (hvalue : item.value = raw) :
    n.Returns crypto target raw ↔
      ∀ item, n.items.immutable.lookup target = some item → item.value = raw := by
  constructor
  · intro h item himmutable
    let get : Krpc.Message := { body := .dict [(ascii "target", .string target.toBytes)] }
    have htarget : idAt get "target" = some target := NodeId.fromBytes_toBytes target
    obtain ⟨values, hanswer, hv⟩ := h { now := 0 } get default htarget rfl
    obtain ⟨values', hanswer', hv'⟩ := handleGet_of_immutable crypto himmutable { now := 0 }
      get default htarget
    obtain rfl := Answer.response.inj (hanswer.symm.trans hanswer')
    injection hv.symm.trans hv' with heq
    injection heq with heq
    exact heq.symm
  · intro h w get sender htarget hseq
    cases himmutable : n.items.immutable.lookup target with
    | some item =>
      rw [← h item himmutable]
      exact handleGet_of_immutable crypto himmutable w get sender htarget
    | none =>
      rw [← hvalue]
      exact handleGet_of_mutable himmutable hitem w get sender htarget hseq

/-- An immutable item that is stored is returned. -/
theorem returns_of_immutable (crypto : Crypto) {target : NodeId} {item : ImmutableItem}
    (hitem : n.items.immutable.lookup target = some item) : n.Returns crypto target item.value :=
  fun w get sender htarget _ => handleGet_of_immutable crypto hitem w get sender htarget

/-- Which mutable items stored are as a put asked for. -/
theorem stores_and_returns_iff (crypto : Crypto) (raw : Bytes) {key : Bytes} {item : MutableItem}
    (hk : message.body.stringAt (ascii "k") = some key)
    (hitem : n.items.mutable.lookup (putTarget crypto message raw) = some item)
    (hseq : message.body.integerAt (ascii "seq") = some item.sequence) :
    n.Stores crypto message raw ∧ n.Returns crypto (putTarget crypto message raw) raw ↔
      (item.value = raw ∧ message.body.stringAt (ascii "sig") = some item.signature) ∧
      ∀ item, n.items.immutable.lookup (putTarget crypto message raw) = some item →
      item.value = raw := by
  have hstores : n.Stores crypto message raw ↔
      item.value = raw ∧ message.body.stringAt (ascii "sig") = some item.signature := by
    rw [Stores, hk]
    constructor
    · rintro ⟨item', hitem', hvalue, -, hsig⟩
      obtain rfl := Option.some.inj (hitem'.symm.trans hitem)
      exact ⟨hvalue, hsig⟩
    · rintro ⟨hvalue, hsig⟩
      exact ⟨item, hitem, hvalue, hseq, hsig⟩
  rw [hstores]
  exact and_congr_right fun h => returns_iff hitem h.1

/-- A put that is answered is stored, and returned by a get, if and only if nothing stands
    against it. -/
theorem handlePut_iff (hsound : n.items.Sound crypto)
    (hcollision : ∀ item, n.items.immutable.lookup
      (putTarget crypto message (rawValue message datagram)) =
        some item →
      crypto.sha1 item.value = crypto.sha1 (rawValue message datagram) →
        item.value = rawValue message datagram)
    {values : BValue.Dict} (hanswer : (n.handlePut crypto w message sender datagram).2 =
      .response values) :
    (n.handlePut crypto w message sender datagram).1.Stores crypto message
    (rawValue message datagram) ∧
      (n.handlePut crypto w message sender datagram).1.Returns crypto
        (putTarget crypto message (rawValue message datagram)) (rawValue message datagram) ↔
    n.Unopposed crypto message (rawValue message datagram) := by
  revert hanswer
  apply handlePut_cases (R := fun r => r.2 = .response values →
    (r.1.Stores crypto message (rawValue message datagram) ∧
      r.1.Returns crypto (putTarget crypto message (rawValue message datagram))
      (rawValue message datagram) ↔
    n.Unopposed crypto message (rawValue message datagram)))
  case refused => exact fun _ _ _ h => nomatch h
  case immutable =>
    intro tokens hk hlen _
    have htarget : putTarget crypto message (rawValue message datagram) =
        Bep44.immutableTarget crypto (rawValue message datagram) := by rw [putTarget, hk]
    refine iff_of_true ?_ (by simp [Unopposed, hk])
    rw [htarget] at hcollision ⊢
    -- Either way an item with the value is stored.
    have hstored : ∃ item, (n.items.putImmutable
        (Bep44.immutableTarget crypto (rawValue message datagram))
        (rawValue message datagram) w.now).1.immutable.lookup
          (Bep44.immutableTarget crypto (rawValue message datagram)) = some item ∧
        item.value = rawValue message datagram := by
      apply ItemStorage.putImmutable_cases (R := fun r => ∃ item,
        r.1.immutable.lookup (Bep44.immutableTarget crypto (rawValue message datagram)) =
        some item ∧
        item.value = rawValue message datagram)
      case tooBig => exact fun h => absurd hlen (not_le.2 h)
      case refreshed =>
        intro item hitem
        refine ⟨_, AList.lookup_insert _, hcollision item hitem ?_⟩
        exact (hsound.items.immutable _ item hitem).hash.symm
      case stored => exact fun _ _ => ⟨_, AList.lookup_insert _, rfl⟩
    obtain ⟨item, hitem, hvalue⟩ := hstored
    refine ⟨?_, ?_⟩
    · rw [Stores, hk]
      exact ⟨item, htarget.symm ▸ hitem, hvalue⟩
    · have hreturns := returns_of_immutable crypto
        (n := { n with
          tokens
          items := (n.items.putImmutable (Bep44.immutableTarget crypto (rawValue message datagram))
            (rawValue message datagram) w.now).1 }) hitem
      rwa [hvalue] at hreturns
  case mutable =>
    intro tokens item hasks hgenuine
    have htarget : putTarget crypto message (rawValue message datagram) = item.target := by
      rw [putTarget, hasks.key, hgenuine.hash]
      dsimp only
      rw [hasks.salt]
    have hunopposed : n.Unopposed crypto message (rawValue message datagram) ↔
        (∀ old, n.items.mutable.lookup item.target = some old → item.sequence = old.sequence →
          old.value = item.value ∧ item.signature = old.signature) ∧
        ∀ item', (n.roomFor item.target).immutable.lookup item.target = some item' →
          item'.value = item.value := by
      rw [Unopposed, htarget, hasks.value, hasks.key, hasks.sequence, hasks.signature]
      simp only [Option.isSome_some, forall_const, Option.some.injEq]
    -- What is stored under the target then, and whether that is what was asked for.
    have hiff {items : ItemStorage} (stored : MutableItem)
        (hstored : items.mutable.lookup item.target = some stored)
        (hseq : item.sequence = stored.sequence) :
        Stores crypto { n with tokens, items } message (rawValue message datagram) ∧
          Returns crypto { n with tokens, items }
          (putTarget crypto message (rawValue message datagram))
            (rawValue message datagram) ↔
        (stored.value = item.value ∧ item.signature = stored.signature) ∧
          ∀ item', items.immutable.lookup item.target = some item' → item'.value = item.value := by
      have h := stores_and_returns_iff crypto (rawValue message datagram)
          (n := { n with tokens, items })
        hasks.key (htarget.symm ▸ hstored) (hseq ▸ hasks.sequence)
      rw [h, htarget, hasks.value, hasks.signature, Option.some.injEq]
    rw [hunopposed]
    apply ItemStorage.putMutable_cases (R := fun r => answerTo r.2 = .response values →
      (Stores crypto { n with tokens, items := r.1 } message (rawValue message datagram) ∧
        Returns crypto { n with tokens, items := r.1 }
          (putTarget crypto message (rawValue message datagram)) (rawValue message datagram) ↔ _))
    case refused =>
      intro r hstored hrefreshed h
      cases r with
      | Stored => exact absurd rfl hstored
      | Refreshed => exact absurd rfl hrefreshed
      | _ => exact nomatch h
    case refreshed =>
      intro old hold _ hseq _
      rw [hiff { old with storedAt := w.now } (AList.lookup_insert _) hseq, roomFor,
        if_pos (AList.lookup_isSome.1 (Option.isSome_of_eq_some hold))]
      simp only [hold, Option.some.injEq, forall_eq', hseq, forall_const]
    case replaced =>
      intro old hold _ hlt _
      rw [hiff { item with storedAt := w.now } (AList.lookup_insert _) rfl, roomFor,
        if_pos (AList.lookup_isSome.1 (Option.isSome_of_eq_some hold))]
      simp only [hold, Option.some.injEq, forall_eq', hlt.ne', false_implies, and_self, true_and]
    case added =>
      intro hnone _ _
      rw [hiff { item with storedAt := w.now } (AList.lookup_insert _) rfl, roomFor,
        if_neg (AList.lookup_eq_none.1 hnone)]
      simp only [hnone, reduceCtorEq, false_implies, implies_true, and_self, true_and]

theorem Unopposed.congr {raw : Bytes} (h : n'.items = n.items) :
    n'.Unopposed crypto message raw ↔ n.Unopposed crypto message raw := by
  rw [Unopposed, Unopposed, roomFor, roomFor, h]

/-- Nothing stands against the first put. -/
theorem unopposed_of_empty {raw : Bytes} (h : n.items = {}) : n.Unopposed crypto message raw := by
  rw [Unopposed, roomFor, h, if_neg (by simp)]
  exact fun _ => ⟨fun old hold => by simp at hold, fun item hitem => by
    simp [ItemStorage.makeRoom, ItemStorage.immutableCount, ItemStorage.mutableCount,
      ItemStorage.MaxItems] at hitem⟩

/-- In every run, a put that is answered is stored, and returned by a get, if and only if
    nothing stands against it. -/
theorem durable_iff (crypto : Crypto) (config : NodeConfig) (id : NodeId)
    (budget : Option ContactBudget) (nextId : UInt16) (events : List Event)
    (hlegal : (new config id budget nextId).LegalRun crypto events) (w : Surroundings)
    (message : Krpc.Message) (sender : Endpoint) (datagram : Bytes) (values : BValue.Dict) :
    let n := (new config id budget nextId).run crypto events
    let raw := rawValue message datagram
    let n' := (n.handleQuery crypto w message sender datagram).1
    message.method = ascii "put" →
    (n.handleQuery crypto w message sender datagram).2 = some (.response values) →
    (∀ item, n.items.immutable.lookup (putTarget crypto message raw) = some item →
      crypto.sha1 item.value = crypto.sha1 raw → item.value = raw) →
    (n'.Stores crypto message raw ∧ n'.Returns crypto (putTarget crypto message raw) raw ↔
      n.Unopposed crypto message raw) := by
  intro n raw n' hput hanswer hcollision
  have hsound : n.items.Sound crypto := (items_run hlegal).1
  rcases handleQuery_cases crypto w n message sender datagram with
    ⟨-, hrefused⟩ | ⟨-, m, hitems, heq⟩
  · exact absurd hanswer (hrefused hput values)
  · rw [heq] at hanswer
    -- The put meets the items as the run left them.
    have hm := handlePut_iff (n := m) (hitems ▸ hsound) (hitems ▸ hcollision)
        (Option.some.inj hanswer)
    rw [Unopposed.congr hitems] at hm
    simp only [n', heq]
    exact hm

theorem exists_response (answer : Option Answer)
    (h : (match answer with | some (.response _) => true | _ => false) = true) :
    ∃ values, answer = some (.response values) := by
  match answer, h with
  | some (.response values), _ => exact ⟨values, rfl⟩

/-- The first put of a run is stored and returned. -/
theorem durable_iff_first :
    let n := (new {} default none 0).run known []
    let n' := (n.handleQuery known { now := 1 } (messageOf (putOf (ascii "1:a"))) host
      (putOf (ascii "1:a"))).1
    n'.Stores known (messageOf (putOf (ascii "1:a")))
        (rawValue (messageOf (putOf (ascii "1:a"))) (putOf (ascii "1:a"))) ∧
      n'.Returns known (putTarget known (messageOf (putOf (ascii "1:a")))
        (rawValue (messageOf (putOf (ascii "1:a"))) (putOf (ascii "1:a"))))
        (rawValue (messageOf (putOf (ascii "1:a"))) (putOf (ascii "1:a"))) := by
  intro n n'
  obtain ⟨values, hanswer⟩ := exists_response ((n.handleQuery known { now := 1 }
    (messageOf (putOf (ascii "1:a"))) host (putOf (ascii "1:a"))).2) (by decide +kernel)
  refine (durable_iff known {} default none 0 [] trivial { now := 1 }
    (messageOf (putOf (ascii "1:a")))
    host (putOf (ascii "1:a")) values (by decide +kernel) hanswer (fun item h => nomatch h)).2 ?_
  exact unopposed_of_empty rfl

/-- A mutable item with another value is not what was put. -/
theorem not_stores {raw : Bytes} (key value : Bytes)
    (hk : message.body.stringAt (ascii "k") = some key)
    (hitem : (n.items.mutableItem (putTarget crypto message raw)).map (·.value) = some value)
    (hne : value ≠ raw) : ¬n.Stores crypto message raw := by
  rw [Stores, hk]
  rintro ⟨item, hitem', rfl, -⟩
  rw [hitem', Option.map_some, Option.some.injEq] at hitem
  exact hne hitem.symm

/-- A second put with the same sequence number is answered, but what it puts is not stored. -/
theorem exists_not_durable : ∃ (crypto : Crypto) (events : List Event) (w : Surroundings)
    (message : Krpc.Message) (sender : Endpoint) (datagram : Bytes) (values : BValue.Dict),
    let n := (new {} default none 0).run crypto events
    (new {} default none 0).LegalRun crypto events ∧ message.method = ascii "put" ∧
    (n.handleQuery crypto w message sender datagram).2 = some (.response values) ∧
    n.items.immutable.entries = [] ∧
    ¬(n.handleQuery crypto w message sender datagram).1.Stores crypto message
      (rawValue message datagram) := by
  obtain ⟨values, hanswer⟩ := exists_response ((((new {} default none 0).run known
    [firstPut]).handleQuery known { now := 2 } (messageOf (putOf (ascii "1:b"))) host
      (putOf (ascii "1:b"))).2) (by decide +kernel)
  refine ⟨known, [firstPut], { now := 2 }, messageOf (putOf (ascii "1:b")), host,
    putOf (ascii "1:b"), values, ⟨legal_firstPut _, trivial⟩, by decide +kernel, hanswer,
    by decide +kernel, ?_⟩
  exact not_stores owner (ascii "1:a") (by decide +kernel) (by decide +kernel) (by decide +kernel)

end Dht.DhtNode
