import DhtCore.Bencode

/-!
# The decoder

`bdecode` reads one value off the front of its input. It is lenient: what is not
canonical is read all the same, with a warning, and so are bytes after the value.

The `Decoder` keeps what is left of the data from its position on. A function that
fails has said so in the decoder's error, where the first failure stays; the
warnings given before remain. How deep values may still nest (`levels`) is what
`maxDepth` leaves at the depth of the value read. The loops over the contents of
lists and dictionaries are given as many turns as there are bytes left: every turn
reads one.
-/

namespace Dht

/-- Why the decoder gave up, and where. -/
structure BDecodeError where
  offset : ℕ
  message : String
  deriving DecidableEq, Repr

/-- What decoding yields. -/
structure BDecodeResult where
  value : BValue := .invalid
  error : Option BDecodeError := none
  /-- The deviations from canonical bencode. -/
  warnings : List String := []

/-- Whether decoding succeeded. -/
def BDecodeResult.ok (r : BDecodeResult) : Bool := r.error.isNone

/-- The value, said to have been read from a place of the input (`setRawSpan`). -/
def BValue.setRawSpan (s : Span) : BValue → BValue
  | invalid _ => invalid s
  | integer value _ => integer value s
  | string value _ => string value s
  | list items _ => list items s
  | dict entries _ => dict entries s
  | preEncoded bytes _ => preEncoded bytes s

/-- A byte as two hexadecimal digits. -/
def hexByte (c : UInt8) : String := String.ofList
    [(c.toNat / 16).digitChar, (c.toNat % 16).digitChar]

/-- Whether percent-encoding leaves a byte as it is. -/
def isUnreserved (c : UInt8) : Bool :=
  let c := Char.ofNat c.toNat
  c.isAlphanum || c = '-' || c = '.' || c = '_' || c = '~'

/-- The percent-encoding of bytes (`QByteArray::toPercentEncoding`). -/
def percentEncoding (bytes : Bytes) : String :=
  String.join (bytes.map fun c =>
    if isUnreserved c then String.singleton (Char.ofNat c.toNat) else "%" ++ (hexByte c).toUpper)

/-- The state of the decoder: its position in the data, the data from there on, and
    what it has to report. -/
structure Decoder where
  pos : ℕ := 0
  rest : Bytes
  error : Option BDecodeError := none
  warnings : List String := []

namespace Decoder

/-- Gives up, for the first reason there was. -/
def fail {α : Type} (d : Decoder) (message : String) : Option α × Decoder :=
  (none, if d.error.isNone then { d with error := some ⟨d.pos, message⟩ } else d)

/-- Notes what is wrong here, without refusing it. -/
def warn (d : Decoder) (message : String) : Decoder :=
  { d with warnings := d.warnings ++ [s!"offset {d.pos}: {message}"] }

/-- The decoder `n` bytes further on. -/
def advance (d : Decoder) (n : ℕ) : Decoder := { d with pos := d.pos + n, rest := d.rest.drop n }

/-- Whether a byte is a decimal digit. -/
def isDigit (c : UInt8) : Bool := '0'.toUInt8 ≤ c && c ≤ '9'.toUInt8

/-- What a loop over digits ends with. -/
structure Scan where
  /-- Whether it refused a digit. -/
  refused : Bool
  number : ℕ
  digitCount : ℕ

/-- The loops over digits of `parseInteger` and `parseString`. They end at a digit
    they refuse, given the number read so far, how many digits it had, and the digit. -/
def scanDigits (refuses : ℕ → ℕ → ℕ → Bool) (number digitCount : ℕ) : Bytes → Scan
  | [] => ⟨false, number, digitCount⟩
  | c :: cs =>
    if isDigit c then
      let digit := c.toNat - '0'.toNat
      if refuses number digitCount digit then ⟨true, number, digitCount⟩
      else scanDigits refuses (number * 10 + digit) (digitCount + 1) cs
    else ⟨false, number, digitCount⟩

/-- Whether another digit would take an unsigned 64-bit number out of range. -/
def overflows (magnitude _digitCount digit : ℕ) : Bool := magnitude > (2 ^ 64 - 1 - digit) / 10

/-- Whether a length has all the digits it may have. -/
def tooLong (_length digitCount _digit : ℕ) : Bool := digitCount ≥ 10

/-- An integer: `i`, a sign or none, digits, and `e`. -/
def parseInteger (d : Decoder) : Option BValue × Decoder :=
  let start := d.pos
  let d := d.advance 1 -- 'i'
  let negative := d.rest.head? = some '-'.toUInt8
  let d := if negative then d.advance 1 else d
  let first := d.rest.head?
  let ⟨refused, magnitude, digitCount⟩ := scanDigits overflows 0 0 d.rest
  let d := d.advance digitCount
  if refused then d.fail "integer out of range"
  else
    match d.rest with
    | [] => d.fail s!"unterminated integer starting at offset {start}"
    | c :: _ =>
      if c ≠ 'e'.toUInt8 then d.fail "invalid character in integer"
      else if digitCount = 0 then d.fail "integer has no digits"
      else
        let limit := if negative then 2 ^ 63 else 2 ^ 63 - 1
        if magnitude > limit then d.fail "integer out of range"
        else
          let d := if digitCount > 1 ∧ first = some '0'.toUInt8 then
              d.warn "integer has leading zeros"
            else d
          let d := if negative ∧ magnitude = 0 then d.warn "negative zero" else d
          let value := if negative then 0 - BitVec.ofNat 64 magnitude else BitVec.ofNat 64 magnitude
          (some (.integer value.toInt), d.advance 1) -- 'e'

/-- A string: its length in digits, a colon, and as many bytes. -/
def parseString (d : Decoder) : Option Bytes × Decoder :=
  let first := d.rest.head?
  let ⟨refused, length, digitCount⟩ := scanDigits tooLong 0 0 d.rest
  let d := d.advance digitCount
  if refused then d.fail "string length prefix too long"
  else
    match d.rest with
    | [] => d.fail "unterminated string length"
    | c :: _ =>
      if c ≠ ':'.toUInt8 then d.fail "expected ':' after string length"
      else
        let d := if digitCount > 1 ∧ first = some '0'.toUInt8 then
            d.warn "string length has leading zeros"
          else d
        let d := d.advance 1 -- ':'
        let remaining := d.rest.length
        if length > remaining then
          d.fail s!"string length {length} exceeds the {remaining} byte(s) remaining"
        else (some (d.rest.take length), d.advance length)

section Containers

-- How the values inside are read, and where the container started.
variable (parse : Decoder → Option BValue × Decoder) (start : ℕ)

/-- The loop of `parseList`. -/
def itemLoop : ℕ → List BValue → Decoder → Option (List BValue) × Decoder
  | 0, _, d => (none, d)
  | turns + 1, items, d =>
    match d.rest with
    | [] => d.fail s!"unterminated list starting at offset {start}"
    | c :: _ =>
      if c = 'e'.toUInt8 then (some items, d.advance 1)
      else
        match parse d with
        | (none, d) => (none, d)
        | (some item, d) => itemLoop turns (items ++ [item]) d

/-- A list: `l`, values, and `e`. -/
def parseList (d : Decoder) : Option BValue × Decoder :=
  let start := d.pos
  let d := d.advance 1 -- 'l'
  match itemLoop parse start (d.rest.length + 1) [] d with
  | (none, d) => (none, d)
  | (some items, d) => (some (.list items), d)

/-- The loop of `parseDict`. -/
def entryLoop : ℕ → BValue.Dict → Option Bytes → Decoder → Option BValue.Dict × Decoder
  | 0, _, _, d => (none, d)
  | turns + 1, dict, previousKey, d =>
    match d.rest with
    | [] => d.fail s!"unterminated dictionary starting at offset {start}"
    | c :: _ =>
      if c = 'e'.toUInt8 then (some dict, d.advance 1)
      else if !isDigit c then d.fail "dictionary key must be a string"
      else
        match parseString d with
        | (none, d) => (none, d)
        | (some key, d) =>
          let duplicate := (dict.lookup key).isSome
          let d := if duplicate then
              d.warn s!"duplicate dictionary key \"{percentEncoding key}\""
            else if previousKey.any (key < ·) then d.warn "dictionary keys not sorted"
            else d
          match parse d with
          | (none, d) => (none, d)
          | (some value, d) =>
            entryLoop turns (if duplicate then dict else dict.emplace key value) (some key) d

/-- A dictionary: `d`, keys with their values, and `e`. -/
def parseDict (d : Decoder) : Option BValue × Decoder :=
  let start := d.pos
  let d := d.advance 1 -- 'd'
  match entryLoop parse start (d.rest.length + 1) [] none d with
  | (none, d) => (none, d)
  | (some dict, d) => (some (.dict dict), d)

end Containers

/-- Reads a value, the ones it may contain, if any, with `parse`. -/
def parseValueInner (maxDepth : ℤ) (parse : Option (Decoder → Option BValue × Decoder))
    (d : Decoder) : Option BValue × Decoder :=
  match d.rest with
  | [] => d.fail "unexpected end of data"
  | c :: _ =>
    if c = 'i'.toUInt8 then d.parseInteger
    else if isDigit c then
      match d.parseString with
      | (none, d) => (none, d)
      | (some s, d) => (some (.string s), d)
    else if c = 'l'.toUInt8 ∨ c = 'd'.toUInt8 then
      match parse with
      | none => d.fail s!"nesting deeper than {maxDepth} levels"
      | some parse => if c = 'l'.toUInt8 then parseList parse d else parseDict parse d
    else d.fail s!"unexpected byte 0x{hexByte c}"

/-- Reads a value, and notes where it was. -/
def parseSpanned (inner : Decoder → Option BValue × Decoder) (d : Decoder) :
    Option BValue × Decoder :=
  let start := d.pos
  match inner d with
  | (none, d) => (none, d)
  | (some value, d) => (some (value.setRawSpan ⟨start, d.pos - start⟩), d)

/-- Reads a value in which containers may nest `levels` deep. -/
def parseValue (maxDepth : ℤ) : ℕ → Decoder → Option BValue × Decoder
  | 0 => parseSpanned (parseValueInner maxDepth none)
  | levels + 1 => parseSpanned (parseValueInner maxDepth (some (parseValue maxDepth levels)))

/-- Reads one value, and warns of what comes after it. -/
def run (d : Decoder) (maxDepth : ℤ) : BDecodeResult :=
  match parseValue maxDepth maxDepth.toNat d with
  | (none, d) => { error := d.error, warnings := d.warnings }
  | (some value, d) =>
    let d := if d.rest.isEmpty then d
      else d.warn s!"{d.rest.length} trailing byte(s) after the top-level value"
    { value, error := d.error, warnings := d.warnings }

end Decoder

/-- Decodes the value at the front of the data. -/
def bdecode (data : Bytes) (maxDepth : ℤ := 32) : BDecodeResult :=
  Decoder.run { rest := data } maxDepth

end Dht
