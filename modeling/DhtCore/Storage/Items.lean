import DhtCore.Storage

/-!
# The items stored for others

Every item of `ItemStorage` is what it claims to be (`ImmutableItem.Genuine`,
`MutableItem.Genuine`), and there are at most `MaxItems` (`Sound`), whatever calls
are made (`Sound.apply`): a new item only comes in after room was made for it
(`count_makeRoom`). A mutable item that stays is never replaced by an older one
(`sequence_le_apply`).

Making room drops the oldest item, one put before the end of time (`EndOfTime`, the
value that the search for it starts from).
-/

namespace Dht

open Replacing

/-- The item is stored under the hash of its value, which is not too long. -/
structure ImmutableItem.Genuine (crypto : Crypto) (target : NodeId) (item : ImmutableItem) :
    Prop where
  target_eq : item.target = target
  hash : target = Bep44.immutableTarget crypto item.value
  value_le : item.value.length ≤ Bep44.MaxValueBytes

/-- The item is stored under the hash of its key and its salt, and signed with the key;
    its value and its salt are not too long. -/
structure MutableItem.Genuine (crypto : Crypto) (target : NodeId) (item : MutableItem) : Prop where
  target_eq : item.target = target
  hash : target = Bep44.mutableTarget crypto item.publicKey item.salt
  signed : Bep44.verify crypto item.signature
    (Bep44.signingBuffer item.salt item.sequence item.value) item.publicKey = some true
  value_le : item.value.length ≤ Bep44.MaxValueBytes
  salt_le : item.salt.length ≤ Bep44.MaxSaltBytes

namespace ItemStorage

variable {crypto : Crypto} {s : ItemStorage} {target : NodeId} {now : ℤ}

/-- The items under their targets satisfy predicates. -/
structure Holds (P : NodeId → ImmutableItem → Prop) (Q : NodeId → MutableItem → Prop)
    (s : ItemStorage) : Prop where
  immutable : ∀ target item, s.immutable.lookup target = some item → P target item
  mutable : ∀ target item, s.mutable.lookup target = some item → Q target item

/-- What is stored was so before the end of time. -/
def Timely (s : ItemStorage) : Prop :=
  s.Holds (fun _ item => item.storedAt < EndOfTime) fun _ item => item.storedAt < EndOfTime

/-- What is stored is genuine, and not too much. -/
structure Sound (crypto : Crypto) (s : ItemStorage) : Prop where
  items : s.Holds (fun target item => item.Genuine crypto target)
    fun target item => item.Genuine crypto target
  count_le : s.immutableCount + s.mutableCount ≤ MaxItems

/-- A call that changes the items: something is put under its hash, what is too old is
    dropped, or the items are put in another order. -/
inductive Op
  | putImmutable (value : Bytes) (now : ℤ)
  | putMutable (item : MutableItem) (cas : Option ℤ) (now : ℤ)
  | expire (now : ℤ)
  | reorder (items : ItemStorage)

/-- Something is done to the storage. -/
def apply (crypto : Crypto) (s : ItemStorage) : Op → ItemStorage
  | .putImmutable value now => (s.putImmutable (Bep44.immutableTarget crypto value) value now).1
  | .putMutable item cas now => (s.putMutable item cas now).1
  | .expire now => s.expire now
  | .reorder items => items

/-- A mutable item was checked before it is put. -/
def Allowed (crypto : Crypto) (s : ItemStorage) : Op → Prop
  | .putImmutable _ now => now < EndOfTime
  | .putMutable item _ now => item.Genuine crypto item.target ∧ now < EndOfTime
  | .expire _ => True
  | .reorder items => items.immutable.entries.Perm s.immutable.entries ∧
      items.mutable.entries.Perm s.mutable.entries

/-! ## Making room -/

/-- A loop over items finds one older than what it started from, or there is none. -/
theorem among_cases (areMutable : Bool) : ∀ (items : List (NodeId × ℤ)) (o : Oldest),
    (o.among areMutable items = o ∧ ∀ item ∈ items, o.oldest ≤ item.2) ∨
      ∃ item ∈ items, o.among areMutable items = ⟨item.2, item.1, areMutable⟩
  | [], o => .inl ⟨rfl, by simp⟩
  | item :: items, o => by
    have hcons : o.among areMutable (item :: items) =
        (if item.2 < o.oldest then (⟨item.2, item.1, areMutable⟩ : Oldest) else o).among
        areMutable items :=
      rfl
    rw [hcons]
    split_ifs with hlt
    · rcases among_cases areMutable items ⟨item.2, item.1, areMutable⟩
        with ⟨heq, -⟩ | ⟨found, hmem, heq⟩
      · exact .inr ⟨item, List.mem_cons_self, heq⟩
      · exact .inr ⟨found, List.mem_cons_of_mem _ hmem, heq⟩
    · rcases among_cases areMutable items o with ⟨heq, hle⟩ | ⟨found, hmem, heq⟩
      · exact .inl ⟨heq, List.forall_mem_cons.2 ⟨not_lt.1 hlt, hle⟩⟩
      · exact .inr ⟨found, List.mem_cons_of_mem _ hmem, heq⟩

/-- Making room drops an item, or nothing is done as there is room. -/
theorem makeRoom_cases (h : s.Timely) :
    (s.immutableCount + s.mutableCount < MaxItems ∧ s.makeRoom = s) ∨
    (∃ victim ∈ s.immutable, s.makeRoom = { s with immutable := s.immutable.erase victim }) ∨
    ∃ victim ∈ s.mutable, s.makeRoom = { s with mutable := s.mutable.erase victim } := by
  rw [makeRoom]
  split_ifs with hroom
  · exact .inl ⟨hroom, rfl⟩
  · refine .inr ?_
    have hmem {β : Type} {m : AList (fun _ : NodeId => β)} {f : β → ℤ} {item : NodeId × ℤ}
        (hitem : item ∈ m.entries.map fun e => (e.1, f e.2)) : item.1 ∈ m := by
      obtain ⟨e, he, rfl⟩ := List.mem_map.1 hitem
      exact List.mem_keys_of_mem he
    have hnone {β : Type} {m : AList (fun _ : NodeId => β)} {f : β → ℤ}
        (htimely : ∀ target item, m.lookup target = some item → f item < EndOfTime)
        (hle : ∀ item ∈ m.entries.map fun e => (e.1, f e.2), EndOfTime ≤ item.2) :
        m.entries = [] := by
      refine List.eq_nil_iff_forall_not_mem.2 fun e he => ?_
      exact absurd (hle _ (List.mem_map_of_mem he))
        (not_le.2 (htimely _ _ (lookup_eq_some_iff.2 he)))
    dsimp only
    rcases among_cases true (s.mutable.entries.map fun e => (e.1, e.2.storedAt))
        (Oldest.among {} false (s.immutable.entries.map fun e => (e.1, e.2.storedAt))) with
      ⟨heq, hmutable⟩ | ⟨item, hitem, heq⟩
    · rw [heq]
      rcases among_cases false (s.immutable.entries.map fun e => (e.1, e.2.storedAt)) {} with
        ⟨heq', himmutable⟩ | ⟨item, hitem, heq'⟩
      · -- No item is older than the end of time, so that there is none at all.
        rw [heq'] at hmutable
        refine absurd ?_ hroom
        rw [immutableCount, mutableCount, hnone h.immutable himmutable, hnone h.mutable hmutable]
        exact Nat.zero_lt_succ _
      · rw [heq', if_neg (by simp)]
        exact .inl ⟨item.1, hmem hitem, rfl⟩
    · rw [heq, if_pos rfl]
      exact .inr ⟨item.1, hmem hitem, rfl⟩

/-- Making room only drops items. -/
theorem lookup_of_makeRoom (s : ItemStorage) :
    (∀ target item, s.makeRoom.immutable.lookup target = some item →
      s.immutable.lookup target = some item) ∧
    ∀ target item, s.makeRoom.mutable.lookup target = some item →
    s.mutable.lookup target = some item := by
  rw [makeRoom]
  dsimp only
  split_ifs
  · exact ⟨fun _ _ h => h, fun _ _ h => h⟩
  · exact ⟨fun _ _ h => h, fun _ _ h => lookup_of_lookup_erase h⟩
  · exact ⟨fun _ _ h => lookup_of_lookup_erase h, fun _ _ h => h⟩

/-- There is room for one more item then. -/
theorem count_makeRoom (h : s.Timely) (hle : s.immutableCount + s.mutableCount ≤ MaxItems) :
    s.makeRoom.immutableCount + s.makeRoom.mutableCount < MaxItems := by
  rcases makeRoom_cases h with ⟨hroom, heq⟩ | ⟨victim, hvictim, heq⟩ | ⟨victim, hvictim, heq⟩
  · rwa [heq]
  · have := length_erase hvictim
    rw [immutableCount, mutableCount] at *
    rw [heq]
    dsimp only
    omega
  · have := length_erase hvictim
    rw [immutableCount, mutableCount] at *
    rw [heq]
    dsimp only
    omega

/-! ## Putting items -/

/-- What is true of each thing that may come of putting an immutable item. -/
theorem putImmutable_cases {R : ItemStorage × PutResult → Prop} {value : Bytes}
    (tooBig : Bep44.MaxValueBytes < value.length → R (s, .TooBig))
    (refreshed : ∀ item, s.immutable.lookup target = some item →
      R ({ s with immutable := s.immutable.insert target { item with storedAt := now } },
      .Refreshed))
    (stored : value.length ≤ Bep44.MaxValueBytes → s.immutable.lookup target = none →
      R ({ s.makeRoom with
        immutable := s.makeRoom.immutable.insert target { target, value, storedAt := now } },
        .Stored)) :
    R (s.putImmutable target value now) := by
  rw [putImmutable]
  by_cases hlen : value.length > Bep44.MaxValueBytes
  · rw [if_pos hlen]
    exact tooBig hlen
  · rw [if_neg hlen]
    split
    next item hitem => exact refreshed item hitem
    next hnone => exact stored (not_lt.1 hlen) hnone

/-- What is true of each thing that may come of putting a mutable item. -/
theorem putMutable_cases {R : ItemStorage × PutResult → Prop} {item : MutableItem} {cas : Option ℤ}
    (refused : ∀ r, r ≠ .Stored → r ≠ .Refreshed → R (s, r))
    (refreshed : ∀ old, s.mutable.lookup item.target = some old → (∀ c ∈ cas, old.sequence = c) →
      item.sequence = old.sequence →
      R ({ s with mutable := s.mutable.insert item.target { old with storedAt := now } },
      .Refreshed))
    (replaced : ∀ old, s.mutable.lookup item.target = some old → (∀ c ∈ cas, old.sequence = c) →
      old.sequence < item.sequence →
      R ({ s with mutable := s.mutable.insert item.target { item with storedAt := now } }, .Stored))
    (added : s.mutable.lookup item.target = none → cas = none →
      R ({ s.makeRoom with
        mutable := s.makeRoom.mutable.insert item.target { item with storedAt := now } },
        .Stored)) :
    R (s.putMutable item cas now) := by
  rw [putMutable]
  by_cases hvalue : item.value.length > Bep44.MaxValueBytes
  · rw [if_pos hvalue]
    exact refused _ (by simp) (by simp)
  by_cases hsalt : item.salt.length > Bep44.MaxSaltBytes
  · rw [if_neg hvalue, if_pos hsalt]
    exact refused _ (by simp) (by simp)
  rw [if_neg hvalue, if_neg hsalt]
  dsimp only
  split
  next old hold =>
    -- The item that is held must be the one that was meant.
    by_cases hcas : cas.any (old.sequence ≠ ·)
    · rw [if_pos hcas]
      exact refused _ (by simp) (by simp)
    · have hcas' : ∀ c ∈ cas, old.sequence = c := by
        rintro c rfl
        simpa using hcas
      rw [if_neg hcas]
      split_ifs with hlow heq
      · exact refused _ (by simp) (by simp)
      · exact refreshed old hold hcas' heq
      · exact replaced old hold hcas' (by omega)
  next hnone =>
    cases cas with
    | none => exact added hnone rfl
    | some c => exact refused _ (by simp) (by simp)

section Holds

variable {P : NodeId → ImmutableItem → Prop} {Q : NodeId → MutableItem → Prop}

theorem Holds.makeRoom (h : s.Holds P Q) : s.makeRoom.Holds P Q :=
  ⟨fun target item hitem => h.immutable target item ((lookup_of_makeRoom s).1 target item hitem),
    fun target item hitem => h.mutable target item ((lookup_of_makeRoom s).2 target item hitem)⟩

theorem Holds.insertImmutable (h : s.Holds P Q) {item : ImmutableItem} (hitem : P target item) :
    Holds P Q { s with immutable := s.immutable.insert target item } := by
  refine ⟨fun t i hi => ?_, h.mutable⟩
  rcases lookup_insert_cases hi with ⟨rfl, rfl⟩ | ⟨-, hi⟩
  · exact hitem
  · exact h.immutable t i hi

theorem Holds.insertMutable (h : s.Holds P Q) {item : MutableItem} (hitem : Q target item) :
    Holds P Q { s with mutable := s.mutable.insert target item } := by
  refine ⟨h.immutable, fun t i hi => ?_⟩
  rcases lookup_insert_cases hi with ⟨rfl, rfl⟩ | ⟨-, hi⟩
  · exact hitem
  · exact h.mutable t i hi

/-- Predicates that do not mind when an item was stored hold of all items whatever is
    called, if they hold of those put. -/
theorem Holds.apply (h : s.Holds P Q) {op : Op} (hop : s.Allowed crypto op)
    (hnew : ∀ value now, op = .putImmutable value now → value.length ≤ Bep44.MaxValueBytes →
      P (Bep44.immutableTarget crypto value)
        { target := Bep44.immutableTarget crypto value, value, storedAt := now })
    (hnew' : ∀ item cas now, op = .putMutable item cas now →
      Q item.target { item with storedAt := now })
    (hold : ∀ target item now, now < EndOfTime → P target item →
      P target { item with storedAt := now })
    (hold' : ∀ target item now, now < EndOfTime → Q target item →
      Q target { item with storedAt := now }) :
    (s.apply crypto op).Holds P Q := by
  cases op with
  | putImmutable value now =>
    apply putImmutable_cases (R := fun r => r.1.Holds P Q)
    case tooBig => exact fun _ => h
    case refreshed =>
      exact fun item hitem => h.insertImmutable (hold _ item now hop (h.immutable _ item hitem))
    case stored => exact fun hlen _ => h.makeRoom.insertImmutable (hnew value now rfl hlen)
  | putMutable item cas now =>
    have hitem := hnew' item cas now rfl
    apply putMutable_cases (R := fun r => r.1.Holds P Q)
    case refused => exact fun _ _ _ => h
    case refreshed =>
      exact fun old hlookup _ _ => h.insertMutable (hold' _ old now hop.2 (h.mutable _ old hlookup))
    case replaced => exact fun _ _ _ _ => h.insertMutable hitem
    case added => exact fun _ _ => h.makeRoom.insertMutable hitem
  | expire now =>
    refine ⟨fun target item hitem => h.immutable target item ?_,
      fun target item hitem => h.mutable target item ?_⟩
    · exact (Option.filter_eq_some_iff.1 ((lookup_retain _ target).symm.trans hitem)).1
    · exact (Option.filter_eq_some_iff.1 ((lookup_retain _ target).symm.trans hitem)).1
  | reorder items =>
    exact ⟨fun target item hitem => h.immutable target item (AList.perm_lookup hop.1 ▸ hitem),
      fun target item hitem => h.mutable target item (AList.perm_lookup hop.2 ▸ hitem)⟩

end Holds

theorem Timely.apply (h : s.Timely) {op : Op} (hop : s.Allowed crypto op) :
    (s.apply crypto op).Timely := by
  refine Holds.apply h hop ?_ ?_ (fun _ _ _ hnow _ => hnow) (fun _ _ _ hnow _ => hnow)
  · rintro value now rfl -
    exact hop
  · rintro item cas now rfl
    exact hop.2

/-- No call makes the items too many. -/
theorem count_apply (h : s.Timely) (hle : s.immutableCount + s.mutableCount ≤ MaxItems) {op : Op}
    (hop : s.Allowed crypto op) :
    (s.apply crypto op).immutableCount + (s.apply crypto op).mutableCount ≤ MaxItems := by
  have hroom := count_makeRoom h hle
  simp only [immutableCount, mutableCount] at *
  cases op with
  | putImmutable value now =>
    apply putImmutable_cases
      (R := fun r => r.1.immutable.entries.length + r.1.mutable.entries.length ≤ MaxItems)
    case tooBig => exact fun _ => hle
    case refreshed =>
      intro item hitem
      rwa [length_insert, if_pos (AList.lookup_isSome.1 (Option.isSome_of_eq_some hitem))]
    case stored =>
      intro _ _
      dsimp only
      -- Room was made for one.
      rw [length_insert]
      split_ifs <;> omega
  | putMutable item cas now =>
    apply putMutable_cases
      (R := fun r => r.1.immutable.entries.length + r.1.mutable.entries.length ≤ MaxItems)
    case refused => exact fun _ _ _ => hle
    case refreshed =>
      intro old hold _ _
      rwa [length_insert, if_pos (AList.lookup_isSome.1 (Option.isSome_of_eq_some hold))]
    case replaced =>
      intro old hold _ _
      rwa [length_insert, if_pos (AList.lookup_isSome.1 (Option.isSome_of_eq_some hold))]
    case added =>
      intro _ _
      dsimp only
      rw [length_insert]
      split_ifs <;> omega
  | expire now =>
    exact (Nat.add_le_add (List.length_filter_le _ _) (List.length_filter_le _ _)).trans hle
  | reorder items =>
    rw [ItemStorage.apply, hop.1.length_eq, hop.2.length_eq]
    exact hle

theorem Sound.apply (h : s.Sound crypto) (htimely : s.Timely) {op : Op}
    (hop : s.Allowed crypto op) :
    (s.apply crypto op).Sound crypto := by
  refine ⟨h.items.apply hop ?_ ?_ ?_ ?_, count_apply htimely h.count_le hop⟩
  · exact fun value now _ hlen => ⟨rfl, rfl, hlen⟩
  · rintro item cas now rfl
    exact ⟨rfl, hop.1.hash, hop.1.signed, hop.1.value_le, hop.1.salt_le⟩
  · exact fun _ _ _ _ h => ⟨h.target_eq, h.hash, h.value_le⟩
  · exact fun _ _ _ _ h => ⟨h.target_eq, h.hash, h.signed, h.value_le, h.salt_le⟩

/-! ## Mutable items that stay -/

/-- An immutable item put leaves the mutable ones as they are, or drops them. -/
theorem mutable_putImmutable {value : Bytes} {old new : MutableItem} {other : NodeId}
    (hold : s.mutable.lookup other = some old)
    (hnew : (s.putImmutable target value now).1.mutable.lookup other = some new) : new = old := by
  revert new
  apply putImmutable_cases (R := fun r => ∀ {new}, r.1.mutable.lookup other = some new → new = old)
  case tooBig => exact fun _ _ h => Option.some.inj (h.symm.trans hold)
  case refreshed => exact fun _ _ _ h => Option.some.inj (h.symm.trans hold)
  case stored =>
    exact fun _ _ _ h => Option.some.inj (((lookup_of_makeRoom s).2 other _ h).symm.trans hold)

/-- A mutable item put leaves the mutable items as they are, or drops them, or refreshes
    or replaces one that is not newer, if that is the one expected. -/
theorem mutable_putMutable {item old new : MutableItem} {cas : Option ℤ}
    (hold : s.mutable.lookup target = some old)
    (hnew : (s.putMutable item cas now).1.mutable.lookup target = some new) :
    new = old ∨ (∀ c ∈ cas, old.sequence = c) ∧ old.sequence ≤ new.sequence := by
  have hkept {m : ItemStorage} (hm : ∀ target item, m.mutable.lookup target = some item →
      s.mutable.lookup target = some item) {new' : MutableItem} (hnew' : item.target = target →
        (∀ c ∈ cas, old.sequence = c) ∧ old.sequence ≤ new'.sequence)
      (h : (m.mutable.insert item.target new').lookup target = some new) :
      new = old ∨ (∀ c ∈ cas, old.sequence = c) ∧ old.sequence ≤ new.sequence := by
    rcases lookup_insert_cases h with ⟨he, rfl⟩ | ⟨-, h⟩
    · exact .inr (hnew' he.symm)
    · exact .inl (Option.some.inj ((hm target new h).symm.trans hold))
  revert hnew
  apply putMutable_cases (R := fun r => r.1.mutable.lookup target = some new →
    new = old ∨ (∀ c ∈ cas, old.sequence = c) ∧ old.sequence ≤ new.sequence)
  case refused => exact fun _ _ _ h => .inl (Option.some.inj (h.symm.trans hold))
  case refreshed =>
    intro old' hold' hcas _
    refine hkept (fun _ _ h => h) fun he => ?_
    obtain rfl := Option.some.inj ((he ▸ hold').symm.trans hold)
    exact ⟨hcas, le_rfl⟩
  case replaced =>
    intro old' hold' hcas hlt
    refine hkept (fun _ _ h => h) fun he => ?_
    obtain rfl := Option.some.inj ((he ▸ hold').symm.trans hold)
    exact ⟨hcas, hlt.le⟩
  case added =>
    intro hnone _
    refine hkept (lookup_of_makeRoom s).2 fun he => ?_
    rw [he, hold] at hnone
    cases hnone

/-- While a mutable item stays, its sequence number does not decrease. -/
theorem sequence_le_apply {op : Op} (hop : s.Allowed crypto op) {old new : MutableItem}
    (hold : s.mutable.lookup target = some old)
    (hnew : (s.apply crypto op).mutable.lookup target = some new) :
    old.sequence ≤ new.sequence := by
  cases op with
  | putImmutable value now => rw [mutable_putImmutable hold hnew]
  | putMutable item cas now =>
    rcases mutable_putMutable hold hnew with rfl | ⟨-, hle⟩
    · exact le_rfl
    · exact hle
  | expire now =>
    have hnew' := (Option.filter_eq_some_iff.1 ((lookup_retain _ target).symm.trans hnew)).1
    rw [Option.some.inj (hnew'.symm.trans hold)]
  | reorder items =>
    have hnew' : s.mutable.lookup target = some new := AList.perm_lookup hop.2 ▸ hnew
    rw [Option.some.inj (hnew'.symm.trans hold)]

end ItemStorage

end Dht
