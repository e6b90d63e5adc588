import DhtCore.Bencode.Decoder
import DhtCore.Lib.Decimal

/-!
# The grammar of bencode

What the decoder accepts, as derivation trees (`Tree`): an integer is `i`, a sign
and digits, and `e`; a string its length, `:` and so many bytes; a list and a
dictionary their contents between a letter and `e`.

* `Tree.source` is what a tree is written as, `Tree.valueAt` what it means when it
  is at a position of the data. Of the entries of a dictionary with the same key,
  the first is the one that counts (`lookup_entriesAt`).
* `Tree.Fits` says that the numbers are in range and the containers nest within a
  limit: the trees of values that are accepted.
* `Tree.Canonical` says which are written as `bencode` writes them.
-/

namespace Dht.Bencode

open Decimal

/-- A numeral as it is written. -/
def numeral (ds : Numeral) : Bytes := ds.map fun d => '0'.toUInt8 + UInt8.ofNat d

/-- A string of the grammar: its length as written, and its bytes. -/
structure Text where
  length : Numeral
  bytes : Bytes

/-- What a string is written as. -/
def Text.source (s : Text) : Bytes := numeral s.length ++ ascii ":" ++ s.bytes

/-- A string whose length is that of its bytes, in at most ten digits. -/
structure Text.Ok (s : Text) : Prop where
  ne_nil : s.length ≠ []
  length_le : s.length.length ≤ 10
  value : value s.length = s.bytes.length

/-- A value of the grammar. -/
inductive Tree
  | integer (negative : Bool) (digits : Numeral)
  | string (s : Text)
  | list (items : List Tree)
  | dict (entries : List (Text × Tree))

/-- The number that a sign and digits stand for. -/
def number (negative : Bool) (digits : Numeral) : ℤ :=
  if negative then -(value digits : ℤ) else value digits

/-- A signed 64-bit number. -/
def IsInt64 (n : ℤ) : Prop := -2 ^ 63 ≤ n ∧ n < 2 ^ 63

instance (n : ℤ) : Decidable (IsInt64 n) := inferInstanceAs (Decidable (_ ∧ _))

/-- What an integer is written as. -/
def integerSource (negative : Bool) (digits : Numeral) : Bytes :=
  ascii "i" ++ (if negative then ascii "-" else []) ++ numeral digits ++ ascii "e"

mutual

/-- What a value is written as. -/
def Tree.source : Tree → Bytes
  | .integer negative digits => integerSource negative digits
  | .string s => s.source
  | .list items => ascii "l" ++ sourceItems items ++ ascii "e"
  | .dict entries => ascii "d" ++ sourceEntries entries ++ ascii "e"

/-- The bytes of values, one after the other. -/
def sourceItems : List Tree → Bytes
  | [] => []
  | t :: ts => t.source ++ sourceItems ts

/-- The bytes of keys and values, one after the other. -/
def sourceEntries : List (Text × Tree) → Bytes
  | [] => []
  | (key, t) :: es => key.source ++ t.source ++ sourceEntries es

end

mutual

/-- The value of a tree that is at a position of the data. -/
def Tree.valueAt (pos : ℕ) : Tree → BValue
  | .integer negative digits =>
    .integer (number negative digits) ⟨pos, (integerSource negative digits).length⟩
  | .string s => .string s.bytes ⟨pos, s.source.length⟩
  | .list items => .list (itemsAt (pos + 1) items) ⟨pos, (Tree.list items).source.length⟩
  | .dict entries => .dict (entriesAt (pos + 1) [] entries) ⟨pos, (Tree.dict entries).source.length⟩

/-- The values of a list whose first starts at a position. -/
def itemsAt (pos : ℕ) : List Tree → List BValue
  | [] => []
  | t :: ts => t.valueAt pos :: itemsAt (pos + t.source.length) ts

/-- The dictionary with the entries at a position added, each unless it has the key. -/
def entriesAt (pos : ℕ) (dict : BValue.Dict) : List (Text × Tree) → BValue.Dict
  | [] => dict
  | (key, t) :: es =>
    let value := t.valueAt (pos + key.source.length)
    entriesAt (pos + key.source.length + t.source.length)
      (if (dict.lookup key.bytes).isSome then dict else dict.emplace key.bytes value) es

end

/-- A value in range whose containers nest at most so many levels deep. -/
def Tree.Fits : ℕ → Tree → Prop
  | _, .integer negative digits => digits ≠ [] ∧ IsInt64 (number negative digits)
  | _, .string s => s.Ok
  | levels + 1, .list items => ∀ t ∈ items, t.Fits levels
  | levels + 1, .dict entries => ∀ e ∈ entries, e.1.Ok ∧ e.2.Fits levels
  | 0, .list _ => False
  | 0, .dict _ => False

/-- A value written without leading zeros or a negative zero, the keys of its
    dictionaries in order. -/
inductive Tree.Canonical : Tree → Prop
  | integer {negative : Bool} {digits : Numeral} : Decimal.Canonical digits →
      ¬(negative ∧ value digits = 0) → Canonical (.integer negative digits)
  | string {s : Text} : Decimal.Canonical s.length → Canonical (.string s)
  | list {items : List Tree} : (∀ t ∈ items, Canonical t) → Canonical (.list items)
  | dict {entries : List (Text × Tree)} : (entries.map (·.1.bytes)).Pairwise (· < ·) →
      (∀ e ∈ entries, Decimal.Canonical e.1.length) → (∀ e ∈ entries, Canonical e.2) →
        Canonical (.dict entries)

/-! ## What values are written as -/

theorem ascii_i : ascii "i" = ['i'.toUInt8] := rfl
theorem ascii_minus : ascii "-" = ['-'.toUInt8] := rfl
theorem ascii_e : ascii "e" = ['e'.toUInt8] := rfl
theorem ascii_l : ascii "l" = ['l'.toUInt8] := rfl
theorem ascii_d : ascii "d" = ['d'.toUInt8] := rfl
theorem ascii_colon : ascii ":" = [':'.toUInt8] := rfl

@[simp]
theorem numeral_nil : numeral [] = [] := rfl

@[simp]
theorem numeral_cons (d : Fin 10) (ds : Numeral) :
    numeral (d :: ds) = ('0'.toUInt8 + UInt8.ofNat d) :: numeral ds := rfl

@[simp]
theorem length_numeral (ds : Numeral) : (numeral ds).length = ds.length := by
  simp [numeral]

/-- What a digit is written as is a digit. -/
theorem isDigit_digit (d : Fin 10) : Decoder.isDigit ('0'.toUInt8 + UInt8.ofNat d) = true := by
  revert d
  decide

theorem digit_toNat (d : Fin 10) : ('0'.toUInt8 + UInt8.ofNat d).toNat - '0'.toNat = d := by
  revert d
  decide

/-- Every digit is one of the numerals. -/
theorem exists_digit {c : UInt8} (h : Decoder.isDigit c) :
    ∃ d : Fin 10, c = '0'.toUInt8 + UInt8.ofNat d := by
  obtain ⟨n, rfl⟩ : ∃ n : Fin 256, c = UInt8.ofNat n := ⟨⟨c.toNat, c.toNat_lt⟩, by simp⟩
  revert n
  decide +kernel

/-- Data starts with as many digits as there are. -/
theorem exists_numeral (data : Bytes) : ∃ ds rest, data = numeral ds ++ rest ∧
    ∀ c ∈ rest.head?, Decoder.isDigit c = false := by
  induction data with
  | nil => exact ⟨[], [], rfl, by simp⟩
  | cons c cs ih =>
    by_cases hc : Decoder.isDigit c
    · obtain ⟨d, rfl⟩ := exists_digit hc
      obtain ⟨ds, rest, rfl, hrest⟩ := ih
      exact ⟨d :: ds, rest, rfl, hrest⟩
    · exact ⟨[], c :: cs, rfl, by simpa using hc⟩

/-- How a value starts, and that it is written as something at all. -/
theorem Tree.exists_head {levels : ℕ} {t : Tree} (h : t.Fits levels) :
    ∃ c cs, t.source = c :: cs ∧ c ≠ 'e'.toUInt8 := by
  cases t with
  | integer negative digits =>
    exact ⟨'i'.toUInt8, _, by rw [Tree.source, integerSource, ascii_i]; rfl, by decide⟩
  | string s =>
    have hok : s.Ok := by cases levels <;> exact h
    obtain ⟨d, ds, hds⟩ := List.exists_cons_of_ne_nil hok.ne_nil
    refine ⟨'0'.toUInt8 + UInt8.ofNat d, _, by rw [Tree.source, Text.source, hds]; rfl, ?_⟩
    exact fun h => absurd (h ▸ isDigit_digit d) (by decide)
  | list items => exact ⟨'l'.toUInt8, _, by rw [Tree.source, ascii_l]; rfl, by decide⟩
  | dict entries => exact ⟨'d'.toUInt8, _, by rw [Tree.source, ascii_d]; rfl, by decide⟩

theorem Tree.length_source_pos {levels : ℕ} {t : Tree} (h : t.Fits levels) :
    0 < t.source.length := by
  obtain ⟨c, cs, hsource, -⟩ := t.exists_head h
  rw [hsource]
  exact Nat.succ_pos _

/-! ## Which entry of a key counts -/

theorem lookup_emplace {dict : BValue.Dict} {key : Bytes} (h : dict.lookup key = none)
    (value : BValue) (k : Bytes) : (dict.emplace key value).lookup k = if k = key then some value
    else dict.lookup k := by
  induction dict with
  | nil => simp [BValue.Dict.emplace, List.lookup_cons, List.lookup_nil]; grind
  | cons e dict ih =>
    obtain ⟨k', v'⟩ := e
    rw [List.lookup_cons] at h
    have hne : key ≠ k' := by
      rintro rfl
      simp at h
    have hrest : dict.lookup key = none := by grind
    rw [BValue.Dict.emplace]
    split_ifs <;> grind

/-- The value of the first entry of a key, of entries at a position. -/
def firstAt (k : Bytes) (pos : ℕ) : List (Text × Tree) → Option BValue
  | [] => none
  | (key, t) :: es =>
    if key.bytes = k then some (t.valueAt (pos + key.source.length))
    else firstAt k (pos + key.source.length + t.source.length) es

/-- The value of a key is that of its first entry. -/
theorem lookup_entriesAt (k : Bytes) (pos : ℕ) (dict : BValue.Dict) (es : List (Text × Tree)) :
    (entriesAt pos dict es).lookup k = (dict.lookup k).or (firstAt k pos es) := by
  induction es generalizing pos dict with
  | nil => simp [entriesAt, firstAt]
  | cons e es ih =>
    obtain ⟨key, t⟩ := e
    rw [entriesAt, firstAt, ih]
    -- A key that is already there keeps its first value.
    cases hk : dict.lookup key.bytes with
    | some v =>
      rw [Option.isSome_some, if_pos rfl]
      split_ifs with he
      · rw [← he, hk]
        rfl
      · rfl
    | none =>
      rw [Option.isSome_none, if_neg Bool.false_ne_true, lookup_emplace hk]
      split_ifs with he he' he'
      · rw [he, hk]
        rfl
      · exact absurd he.symm he'
      · exact absurd he'.symm he
      · rfl

end Dht.Bencode
