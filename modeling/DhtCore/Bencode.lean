import DhtCore.NodeId

/-!
# Bencoded values

The values of the wire format (`BValue`) and their canonical encoding
(`bencode`). A dictionary is a list of entries in the order of their keys, as
a `std::map` holds them; `Dict.emplace` keeps it in order.

A decoded value knows where it sat in its source (`Span`), so that what was sent
can be echoed and hashed byte for byte (`BValue.rawSpan`).
-/

namespace Dht

/-- The bytes of a text of ASCII characters. -/
def ascii (s : String) : Bytes := s.toList.map fun c => UInt8.ofNat c.toNat

/-- The decimal digits of a number (`QByteArray::number`). -/
def decimal : ℤ → Bytes
  | .ofNat n => (Nat.toDigits 10 n).map fun c => UInt8.ofNat c.toNat
  | .negSucc n => UInt8.ofNat '-'.toNat :: (Nat.toDigits 10 (n + 1)).map fun c =>
    UInt8.ofNat c.toNat

/-- Where a value sat in the decoded input, if it was decoded. -/
structure Span where
  start : ℤ := -1
  length : ℤ := 0
  deriving DecidableEq, Repr

/-- A bencoded value. -/
inductive BValue
  | invalid (span : Span := {})
  | integer (value : ℤ) (span : Span := {})
  | string (value : Bytes) (span : Span := {})
  | list (items : List BValue) (span : Span := {})
  | dict (entries : List (Bytes × BValue)) (span : Span := {})
  /-- Already bencoded, to be emitted byte for byte. -/
  | preEncoded (bytes : Bytes) (span : Span := {})

namespace BValue

instance : Inhabited BValue := ⟨.invalid⟩

/-- The entries of a dictionary, in the order of their keys. -/
abbrev Dict := List (Bytes × BValue)

/-- Adds an entry unless there is one of the key (`std::map::emplace`). -/
def Dict.emplace (key : Bytes) (value : BValue) : Dict → Dict
  | [] => [(key, value)]
  | (k, v) :: rest =>
    if key < k then (key, value) :: (k, v) :: rest
    else if key = k then (k, v) :: rest
    else (k, v) :: Dict.emplace key value rest

/-- Adds an entry, in the place of the one of the key if there is one
    (`std::map::insert_or_assign`). -/
def Dict.insertOrAssign (key : Bytes) (value : BValue) : Dict → Dict
  | [] => [(key, value)]
  | (k, v) :: rest =>
    if key < k then (key, value) :: (k, v) :: rest
    else if key = k then (key, value) :: rest
    else (k, v) :: Dict.insertOrAssign key value rest

theorem Dict.mem_emplace {key : Bytes} {value : BValue} {e : Bytes × BValue} : ∀ {dict : Dict},
    e ∈ dict.emplace key value → e = (key, value) ∨ e ∈ dict
  | [], h => .inl (List.mem_singleton.1 h)
  | (k, v) :: rest, h => by
    rw [emplace] at h
    split_ifs at h with hlt heq
    · exact List.mem_cons.1 h
    · exact .inr h
    · rcases List.mem_cons.1 h with rfl | h
      · exact .inr List.mem_cons_self
      · exact (mem_emplace h).imp_right (List.mem_cons_of_mem _)

theorem Dict.mem_insertOrAssign {key : Bytes} {value : BValue} {e : Bytes × BValue} :
    ∀ {dict : Dict}, e ∈ dict.insertOrAssign key value → e = (key, value) ∨ e ∈ dict
  | [], h => .inl (List.mem_singleton.1 h)
  | (k, v) :: rest, h => by
    rw [insertOrAssign] at h
    split_ifs at h with hlt heq
    · exact List.mem_cons.1 h
    · exact (List.mem_cons.1 h).imp_right (List.mem_cons_of_mem _)
    · rcases List.mem_cons.1 h with rfl | h
      · exact .inr List.mem_cons_self
      · exact (mem_insertOrAssign h).imp_right (List.mem_cons_of_mem _)

/-- What is found after an entry was added is that, under its key. -/
@[simp]
theorem Dict.lookup_insertOrAssign (key : Bytes) (value : BValue) : ∀ dict : Dict,
    (dict.insertOrAssign key value).lookup key = some value
  | [] => by simp [insertOrAssign]
  | (k, v) :: rest => by
    rw [insertOrAssign]
    split_ifs with hlt heq
    · simp
    · simp
    · rw [List.lookup_cons, beq_false_of_ne heq]
      exact lookup_insertOrAssign key value rest

theorem Dict.lookup_insertOrAssign_of_ne {key other : Bytes} (hne : other ≠ key) (value : BValue) :
    ∀ dict : Dict, (dict.insertOrAssign key value).lookup other = dict.lookup other
  | [] => by simp [insertOrAssign, hne]
  | (k, v) :: rest => by
    rw [insertOrAssign]
    split_ifs with hlt heq
    · rw [List.lookup_cons, beq_false_of_ne hne]
    · subst heq
      rw [List.lookup_cons, List.lookup_cons, beq_false_of_ne hne]
    · rw [List.lookup_cons, List.lookup_cons, lookup_insertOrAssign_of_ne hne value rest]

/-- Whether a value is a list. -/
def isList : BValue → Bool
  | list _ _ => true
  | _ => false

/-- Whether a value is a dictionary. -/
def isDict : BValue → Bool
  | dict _ _ => true
  | _ => false

/-- The items of a list, and none of anything else. -/
def toList : BValue → List BValue
  | list items _ => items
  | _ => []

/-- The value of a key, if this is a dictionary with the key. -/
def find (key : Bytes) : BValue → Option BValue
  | dict entries _ => entries.lookup key
  | _ => none

/-- The string at a key. -/
def stringAt (v : BValue) (key : Bytes) : Option Bytes :=
  match v.find key with
  | some (string value _) => some value
  | _ => none

/-- The integer at a key. -/
def integerAt (v : BValue) (key : Bytes) : Option ℤ :=
  match v.find key with
  | some (integer value _) => some value
  | _ => none

/-- The list at a key. -/
def listAt (v : BValue) (key : Bytes) : Option BValue := (v.find key).filter isList

/-- The dictionary at a key. -/
def dictAt (v : BValue) (key : Bytes) : Option BValue := (v.find key).filter isDict

/-- Where the value sat in the decoded input. -/
def span : BValue → Span
  | invalid s => s
  | integer _ s => s
  | string _ s => s
  | list _ s => s
  | dict _ s => s
  | preEncoded _ s => s

/-- The bytes of the value as they were in the decoded input. -/
def rawSpan (v : BValue) (source : Bytes) : Bytes :=
  let ⟨start, length⟩ := v.span
  if start < 0 ∨ length ≤ 0 ∨ start + length > source.length then []
  else (source.drop start.toNat).take length.toNat

end BValue

mutual

/-- The canonical encoding of a value. -/
def bencode : BValue → Bytes
  | .invalid _ => []
  | .integer value _ => ascii "i" ++ decimal value ++ ascii "e"
  | .preEncoded bytes _ => bytes
  | .string s _ => decimal s.length ++ ascii ":" ++ s
  | .list items _ => ascii "l" ++ bencodeList items ++ ascii "e"
  | .dict entries _ => ascii "d" ++ bencodeDict entries ++ ascii "e"

/-- The encodings of the items of a list. -/
def bencodeList : List BValue → Bytes
  | [] => []
  | item :: items => bencode item ++ bencodeList items

/-- The encodings of the keys and the values of a dictionary. -/
def bencodeDict : List (Bytes × BValue) → Bytes
  | [] => []
  | (key, item) :: entries =>
    decimal key.length ++ ascii ":" ++ key ++ bencode item ++ bencodeDict entries

end

end Dht
