import DhtCore.Bencode.Reading

/-!
# Encoding and decoding

`bencode` against the decoder, by way of the canonical trees: a canonical tree is
written as `bencode` writes its value (`bencode_valueAt`), and every value that can be
encoded is that of a canonical tree (`treeOf`). So what is encoded decodes to itself
without a warning (`bdecode_bencode`), and what decodes without a warning is what its
value encodes to (`bencode_of_bdecode`).

Values are the same up to where they were read from (`BValue.erase`), which
encoding does not look at.
-/

namespace Dht

mutual

/-- The value without where it was read from. -/
def BValue.erase : BValue → BValue
  | .invalid _ => .invalid
  | .integer value _ => .integer value
  | .string value _ => .string value
  | .list items _ => .list (eraseList items)
  | .dict entries _ => .dict (eraseDict entries)
  | .preEncoded bytes _ => .preEncoded bytes

/-- Values, wherever they were read. -/
def eraseList : List BValue → List BValue
  | [] => []
  | item :: items => item.erase :: eraseList items

/-- Entries, wherever their values were read. -/
def eraseDict : List (Bytes × BValue) → List (Bytes × BValue)
  | [] => []
  | (key, item) :: entries => (key, item.erase) :: eraseDict entries

end

/-- A value that can be encoded, so many levels deep: of 64-bit integers, byte strings
    shorter than `10 ^ 10`, lists and dictionaries. -/
def BValue.Encodable : ℕ → BValue → Prop
  | _, .integer value _ => Bencode.IsInt64 value
  | _, .string value _ => value.length < 10 ^ 10
  | levels + 1, .list items _ => ∀ item ∈ items, item.Encodable levels
  | levels + 1, .dict entries _ => (entries.map Prod.fst).Pairwise (· < ·) ∧
      ∀ e ∈ entries, e.1.length < 10 ^ 10 ∧ e.2.Encodable levels
  | _, _ => False

namespace Bencode

open Decimal

mutual

/-- The canonical tree of a value. -/
def treeOf : BValue → Tree
  | .integer value _ => .integer (value < 0) (digits value.natAbs)
  | .string value _ => .string ⟨digits value.length, value⟩
  | .list items _ => .list (treesOf items)
  | .dict entries _ => .dict (entriesOf entries)
  | .invalid _ => .list []
  | .preEncoded _ _ => .list []

/-- What values are encoded as. -/
def treesOf : List BValue → List Tree
  | [] => []
  | item :: items => treeOf item :: treesOf items

/-- What entries are encoded as. -/
def entriesOf : List (Bytes × BValue) → List (Text × Tree)
  | [] => []
  | (key, item) :: entries => (⟨digits key.length, key⟩, treeOf item) :: entriesOf entries

end

/-! ## Decimal numbers -/

/-- The digits of a number are its numeral, as it is written. -/
theorem map_toDigits (n : ℕ) :
    (Nat.toDigits 10 n).map (fun c => UInt8.ofNat c.toNat) = numeral (digits n) := by
  have hdigit : ∀ d : Fin 10,
      UInt8.ofNat (Nat.digitChar d).toNat = '0'.toUInt8 + UInt8.ofNat d := by
    decide
  induction n using Nat.strong_induction_on with
  | _ n ih =>
    rcases lt_or_ge n 10 with h | h
    · rw [Nat.toDigits_of_lt_base h, digits_of_lt h, List.map_singleton]
      have hn := hdigit ⟨n, h⟩
      simpa [numeral, Nat.mod_eq_of_lt h] using hn
    · rw [Nat.toDigits_of_base_le (by omega) h, digits_of_le h, List.map_append,
        ih (n / 10) (by omega), List.map_singleton]
      have hn := hdigit ⟨n % 10, Nat.mod_lt n (by omega)⟩
      simpa [numeral] using hn

theorem decimal_natCast (n : ℕ) : decimal n = numeral (digits n) := map_toDigits n

/-- A length without leading zeros is written as `bencode` writes it. -/
theorem decimal_length {s : Text} (hok : s.Ok) (hs : Decimal.Canonical s.length) :
    decimal s.bytes.length = numeral s.length := by
  rw [decimal_natCast, ← hok.value, digits_value hs]

theorem decimal_number {negative : Bool} {ds : Numeral} (hds : Decimal.Canonical ds)
    (hzero : ¬(negative ∧ value ds = 0)) :
    decimal (number negative ds) = (if negative then ascii "-" else []) ++ numeral ds := by
  cases negative with
  | false =>
    rw [number, if_neg Bool.false_ne_true, decimal_natCast, digits_value hds]
    rfl
  | true =>
    -- The number is negative: its magnitude is not zero.
    obtain ⟨n, hn⟩ : ∃ n, value ds = n + 1 := Nat.exists_eq_succ_of_ne_zero fun h => hzero ⟨rfl, h⟩
    rw [number, if_pos rfl, hn, show (-((n + 1 : ℕ) : ℤ)) = Int.negSucc n from rfl,
      decimal, if_pos rfl, map_toDigits, ← hn, digits_value hds]
    rfl

/-! ## Canonical trees -/

/-- A key after all of a dictionary is added at its end. -/
theorem emplace_of_lt {dict : BValue.Dict} {key : Bytes} (h : ∀ k ∈ dict.map Prod.fst, k < key)
    (v : BValue) : dict.emplace key v = dict ++ [(key, v)] := by
  induction dict with
  | nil => rfl
  | cons e dict ih =>
    obtain ⟨k, w⟩ := e
    rw [List.map_cons, List.forall_mem_cons] at h
    have hkey : ¬key < k := fun hlt => List.lt_irrefl _ (List.lt_trans hlt h.1)
    have hne : key ≠ k := fun he => List.lt_irrefl k (he ▸ h.1)
    rw [BValue.Dict.emplace, if_neg hkey, if_neg hne, ih h.2, List.cons_append]

theorem lookup_of_lt {dict : BValue.Dict} {key : Bytes} (h : ∀ k ∈ dict.map Prod.fst, k < key) :
    dict.lookup key = none := by
  rw [List.lookup_eq_none_iff]
  intro e he
  have hlt := h e.1 (List.mem_map_of_mem he)
  rw [bne_iff_ne]
  rintro rfl
  exact List.lt_irrefl _ hlt

theorem bencodeDict_append (es es' : List (Bytes × BValue)) :
    bencodeDict (es ++ es') = bencodeDict es ++ bencodeDict es' := by
  induction es with
  | nil => rfl
  | cons e es ih => simp [bencodeDict, ih]

mutual

/-- A canonical tree is written as its value is encoded. -/
theorem bencode_valueAt {levels : ℕ} : ∀ (t : Tree) (pos : ℕ), t.Fits levels → t.Canonical →
    bencode (t.valueAt pos) = t.source
  | .integer negative ds, pos, _, hcan => by
    cases hcan with
    | integer hds hzero =>
      rw [Tree.valueAt, bencode, Tree.source, integerSource, decimal_number hds hzero]
      simp
  | .string s, pos, ht, hcan => by
    have hok : s.Ok := by cases levels <;> exact ht
    cases hcan with
    | string hs => rw [Tree.valueAt, bencode, Tree.source, Text.source, decimal_length hok hs]
  | .list items, pos, ht, hcan => by
    cases hcan with
    | list hitems =>
      cases levels with
      | zero => exact absurd ht id
      | succ levels =>
        rw [Tree.valueAt, bencode, Tree.source, bencodeList_itemsAt items (pos + 1) ht hitems]
  | .dict es, pos, ht, hcan => by
    cases hcan with
    | dict hkeys hlengths hvalues =>
      cases levels with
      | zero => exact absurd ht id
      | succ levels =>
        rw [Tree.valueAt, bencode, Tree.source,
          bencodeDict_entriesAt es (pos + 1) [] ht hlengths hvalues (by simpa using hkeys)]
        rfl

theorem bencodeList_itemsAt {levels : ℕ} : ∀ (items : List Tree) (pos : ℕ),
    (∀ t ∈ items, t.Fits levels) → (∀ t ∈ items, t.Canonical) →
      bencodeList (itemsAt pos items) = sourceItems items
  | [], _, _, _ => rfl
  | t :: items, pos, ht, hcan => by
    rw [List.forall_mem_cons] at ht hcan
    rw [itemsAt, bencodeList, sourceItems, bencode_valueAt t pos ht.1 hcan.1,
      bencodeList_itemsAt items _ ht.2 hcan.2]

/-- In order, entries are added at the end of the dictionary, one after the other. -/
theorem bencodeDict_entriesAt {levels : ℕ} : ∀ (es : List (Text × Tree)) (pos : ℕ)
    (dict : BValue.Dict), (∀ e ∈ es, e.1.Ok ∧ e.2.Fits levels) →
      (∀ e ∈ es, Decimal.Canonical e.1.length) → (∀ e ∈ es, e.2.Canonical) →
      (dict.map Prod.fst ++ es.map (·.1.bytes)).Pairwise (· < ·) →
        bencodeDict (entriesAt pos dict es) = bencodeDict dict ++ sourceEntries es
  | [], _, dict, _, _, _, _ => by rw [entriesAt, sourceEntries, List.append_nil]
  | (key, t) :: es, pos, dict, ht, hlengths, hvalues, hkeys => by
    rw [List.forall_mem_cons] at ht hlengths hvalues
    have hlt : ∀ k ∈ dict.map Prod.fst, k < key.bytes := fun k hk =>
      (List.pairwise_append.1 hkeys).2.2 k hk key.bytes List.mem_cons_self
    rw [entriesAt, lookup_of_lt hlt, Option.isSome_none, if_neg Bool.false_ne_true,
      emplace_of_lt hlt, bencodeDict_entriesAt es _ _ ht.2 hlengths.2 hvalues.2
      (by simpa using hkeys), bencodeDict_append, sourceEntries, bencodeDict, bencodeDict,
      List.append_nil, bencode_valueAt t _ ht.1.2 hvalues.1, Text.source,
      decimal_length ht.1.1 hlengths.1]
    simp

end

/-! ## What decodes without a warning -/

mutual

/-- Encoding does not look at where a value was read from. -/
theorem bencode_erase : ∀ v : BValue, bencode v.erase = bencode v
  | .invalid _ => rfl
  | .integer _ _ => rfl
  | .string _ _ => rfl
  | .preEncoded _ _ => rfl
  | .list items _ => by rw [BValue.erase, bencode, bencode, bencodeList_erase items]
  | .dict entries _ => by rw [BValue.erase, bencode, bencode, bencodeDict_erase entries]

theorem bencodeList_erase : ∀ items : List BValue, bencodeList (eraseList items) = bencodeList items
  | [] => rfl
  | item :: items => by
    rw [eraseList, bencodeList, bencodeList, bencode_erase item, bencodeList_erase items]

theorem bencodeDict_erase : ∀ entries : List (Bytes × BValue),
    bencodeDict (eraseDict entries) = bencodeDict entries
  | [] => rfl
  | (key, item) :: entries => by
    rw [eraseDict, bencodeDict, bencodeDict, bencode_erase item, bencodeDict_erase entries]

end

/-- Data decoded without a warning are what the value encodes to. -/
theorem bencode_value {data : Bytes} {maxDepth : ℤ} (hok : (bdecode data maxDepth).ok)
    (hwarnings : (bdecode data maxDepth).warnings = []) :
    bencode (bdecode data maxDepth).value = data := by
  obtain ⟨t, ht, rest, hdata⟩ := (Decoder.bdecode_iff data maxDepth).1.1 hok
  obtain ⟨hvalue, -, hclean⟩ := Decoder.bdecode_of_tree ht hdata.symm
  obtain ⟨hcan, rfl⟩ := hclean.1 hwarnings
  rw [hvalue, bencode_valueAt t 0 ht hcan, ← hdata, List.append_nil]

/-- No deviation goes without a warning: what decodes without one is the encoding of
    its value, and so the only data that decode to it without one. -/
theorem bencode_of_bdecode (data : Bytes) (maxDepth : ℤ) (hok : (bdecode data maxDepth).ok)
    (hwarnings : (bdecode data maxDepth).warnings = []) :
    bencode (bdecode data maxDepth).value = data ∧
      ∀ (data' : Bytes) (maxDepth' : ℤ), (bdecode data' maxDepth').ok →
        (bdecode data' maxDepth').warnings = [] →
        (bdecode data' maxDepth').value.erase = (bdecode data maxDepth).value.erase →
        data' = data := by
  refine ⟨bencode_value hok hwarnings, fun data' maxDepth' hok' hwarnings' hvalue => ?_⟩
  rw [← bencode_value hok' hwarnings', ← bencode_erase, hvalue, bencode_erase,
    bencode_value hok hwarnings]

/-- A query, as it is sent. -/
theorem bencode_of_bdecode_ping :
    let data := ascii "d1:ad2:idi-5ee1:q4:ping1:t2:aa1:y1:qe"
    bencode (bdecode data 32).value = data ∧
      ∀ (data' : Bytes) (maxDepth' : ℤ), (bdecode data' maxDepth').ok →
        (bdecode data' maxDepth').warnings = [] →
        (bdecode data' maxDepth').value.erase = (bdecode data 32).value.erase → data' = data :=
  bencode_of_bdecode _ 32 (by decide +kernel) (by decide +kernel)

/-! ## What is encoded -/

variable {levels : ℕ}

theorem ok_text {s : Bytes} (h : s.length < 10 ^ 10) : Text.Ok ⟨digits s.length, s⟩ where
  ne_nil := digits_ne_nil _
  length_le := length_digits_le_iff.2 h
  value := value_digits _

theorem number_natAbs (n : ℤ) : number (n < 0) (digits n.natAbs) = n := by
  rw [number, value_digits]
  split_ifs with h <;> simp only [decide_eq_true_eq] at h <;> omega

mutual

/-- The canonical tree of a value that can be encoded fits, is canonical, and has
    the value. -/
theorem treeOf_spec : ∀ (levels : ℕ) (v : BValue), v.Encodable levels →
    (treeOf v).Fits levels ∧ (treeOf v).Canonical ∧ ∀ pos, ((treeOf v).valueAt pos).erase = v.erase
  | levels, .integer n _, h => by
    have hint : IsInt64 n := by cases levels <;> exact h
    -- The digits of the absolute value, signed, are the number.
    have hnumber : IsInt64 (number (n < 0) (digits n.natAbs)) := by rwa [number_natAbs]
    refine ⟨by cases levels <;> exact ⟨digits_ne_nil _, hnumber⟩,
      .integer (canonical_digits _) ?_, fun pos => ?_⟩
    · rw [value_digits, decide_eq_true_eq]
      omega
    · rw [treeOf, Tree.valueAt, number_natAbs]
      rfl
  | levels, .string s _, h => by
    have hlen : s.length < 10 ^ 10 := by cases levels <;> exact h
    exact ⟨by cases levels <;> exact ok_text hlen, .string (canonical_digits _), fun _ => rfl⟩
  | levels + 1, .list items _, h => by
    obtain ⟨hfits, hcan, hvalue⟩ := treesOf_spec levels items h
    refine ⟨hfits, .list hcan, fun pos => ?_⟩
    rw [treeOf, Tree.valueAt, BValue.erase, BValue.erase, hvalue]
  | levels + 1, .dict entries _, h => by
    obtain ⟨hkeys, hentries⟩ := h
    obtain ⟨hfits, hlengths, hcan, hmap, hvalue⟩ := entriesOf_spec levels entries hentries
    refine ⟨hfits, .dict (hmap ▸ hkeys) hlengths hcan, fun pos => ?_⟩
    rw [treeOf, Tree.valueAt, BValue.erase, BValue.erase, hvalue _ [] (by simpa using hkeys)]
    rfl
  | levels, .invalid _, h => by cases levels <;> exact absurd h id
  | levels, .preEncoded _ _, h => by cases levels <;> exact absurd h id
  | 0, .list _ _, h => absurd h id
  | 0, .dict _ _, h => absurd h id

theorem treesOf_spec : ∀ (levels : ℕ) (items : List BValue),
    (∀ item ∈ items, item.Encodable levels) →
    (∀ t ∈ treesOf items, t.Fits levels) ∧ (∀ t ∈ treesOf items, t.Canonical) ∧
      ∀ pos, eraseList (itemsAt pos (treesOf items)) = eraseList items
  | _, [], _ => ⟨by simp [treesOf], by simp [treesOf], fun _ => rfl⟩
  | levels, item :: items, h => by
    rw [List.forall_mem_cons] at h
    obtain ⟨hfit, hcan, hvalue⟩ := treeOf_spec levels item h.1
    obtain ⟨hfits, hcans, hvalues⟩ := treesOf_spec levels items h.2
    refine ⟨List.forall_mem_cons.2 ⟨hfit, hfits⟩, List.forall_mem_cons.2 ⟨hcan, hcans⟩,
      fun pos => ?_⟩
    rw [treesOf, itemsAt, eraseList, eraseList, hvalue, hvalues]

theorem entriesOf_spec : ∀ (levels : ℕ) (entries : List (Bytes × BValue)),
    (∀ e ∈ entries, e.1.length < 10 ^ 10 ∧ e.2.Encodable levels) →
    (∀ e ∈ entriesOf entries, e.1.Ok ∧ e.2.Fits levels) ∧
      (∀ e ∈ entriesOf entries, Decimal.Canonical e.1.length) ∧
      (∀ e ∈ entriesOf entries, e.2.Canonical) ∧
      (entriesOf entries).map (·.1.bytes) = entries.map Prod.fst ∧
      ∀ pos (dict : BValue.Dict), (dict.map Prod.fst ++ entries.map Prod.fst).Pairwise (· < ·) →
        eraseDict (entriesAt pos dict (entriesOf entries)) = eraseDict dict ++ eraseDict entries
  | _, [], _ => by simp [entriesOf, entriesAt, eraseDict]
  | levels, (key, item) :: entries, h => by
    rw [List.forall_mem_cons] at h
    obtain ⟨hfit, hcan, hvalue⟩ := treeOf_spec levels item h.1.2
    obtain ⟨hfits, hlengths, hcans, hmap, hvalues⟩ := entriesOf_spec levels entries h.2
    refine ⟨List.forall_mem_cons.2 ⟨⟨ok_text h.1.1, hfit⟩, hfits⟩,
      List.forall_mem_cons.2 ⟨canonical_digits _, hlengths⟩, List.forall_mem_cons.2 ⟨hcan, hcans⟩,
      congrArg (key :: ·) hmap, fun pos dict hkeys => ?_⟩
    have hlt : ∀ k ∈ dict.map Prod.fst, k < key := fun k hk =>
      (List.pairwise_append.1 hkeys).2.2 k hk key List.mem_cons_self
    have happend : ∀ d₁ d₂ : BValue.Dict, eraseDict (d₁ ++ d₂) = eraseDict d₁ ++ eraseDict d₂ := by
      intro d₁ d₂
      induction d₁ with
      | nil => rfl
      | cons e d₁ ih => rw [List.cons_append, eraseDict, eraseDict, ih, List.cons_append]
    rw [entriesOf, entriesAt, lookup_of_lt hlt, Option.isSome_none, if_neg Bool.false_ne_true,
      emplace_of_lt hlt, hvalues _ _ (by simpa using hkeys), happend, eraseDict,
      eraseDict, eraseDict, hvalue]
    simp

end

/-- What is encoded is the whole of a canonical tree, and so it is read. -/
theorem decode_bencode {v : BValue} {d : ℤ} (h : v.Encodable d.toNat) :
    (bdecode (bencode v) d).error = none ∧
      (bdecode (bencode v) d).warnings = [] ∧
      (bdecode (bencode v) d).value.erase = v.erase := by
  obtain ⟨hfits, hcan, hvalue⟩ := treeOf_spec _ v h
  have hsource : bencode v = (treeOf v).source ++ [] := by
    rw [List.append_nil, ← bencode_valueAt (treeOf v) 0 hfits hcan, ← bencode_erase, ← hvalue 0,
      bencode_erase]
  obtain ⟨hdecoded, herror, hclean⟩ := Decoder.bdecode_of_tree hfits hsource
  refine ⟨herror, hclean.2 ⟨hcan, rfl⟩, ?_⟩
  rw [hdecoded, hvalue]

/-- What is encoded decodes to itself, without a warning. -/
theorem bdecode_bencode (v : BValue) (maxDepth : ℤ) (h : v.Encodable maxDepth.toNat) :
    (bdecode (bencode v) maxDepth).ok ∧ (bdecode (bencode v) maxDepth).warnings = [] ∧
      (bdecode (bencode v) maxDepth).value.erase = v.erase := by
  obtain ⟨herror, hwarnings, hvalue⟩ := decode_bencode h
  exact ⟨by rw [BDecodeResult.ok, herror]; rfl, hwarnings, hvalue⟩

/-- The least integer, in a list in a dictionary. -/
theorem bdecode_bencode_nested :
    let v : BValue := .dict [(ascii "a", .list [.integer (-2 ^ 63), .string (ascii "two")]),
      (ascii "b", .dict [])]
    (bdecode (bencode v) 2).ok ∧ (bdecode (bencode v) 2).warnings = [] ∧
      (bdecode (bencode v) 2).value.erase = v.erase := by
  refine bdecode_bencode _ 2 ⟨by decide, ?_⟩
  simp [BValue.Encodable, IsInt64, ascii]

end Bencode

end Dht
