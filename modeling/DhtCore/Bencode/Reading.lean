import DhtCore.Bencode.Grammar

/-!
# What the decoder accepts

The decoder against the grammar. `Read` says what has been read between two states
of the decoder, and whether without warnings; `Fails`, that it gave up within the
data. Every function reads what the grammar derives (`Reads`), and gives up on
everything else (`Decides`): those of integers and strings, those of lists and
dictionaries if the one that reads their contents does (`Reads.parseList`,
`Decides.parseList`), and so `parseValue` by induction on the levels left.

So `bdecode` succeeds exactly on the data that start with a value of the grammar,
which is then the only one that they start with (`bdecode_iff`).
-/

namespace Dht.Decoder

open Bencode Decimal

variable {d d₁ d₂ : Decoder} {source rest : Bytes} {clean : Prop}

/-- What has been read from one state to another, and whether it was all canonical. -/
structure Read (d d' : Decoder) (source : Bytes) (clean : Prop) : Prop where
  error : d'.error = d.error
  pos : d'.pos = d.pos + source.length
  rest : d.rest = source ++ d'.rest
  warnings : ∃ ws, d'.warnings = d.warnings ++ ws ∧ (ws = [] ↔ clean)

/-- The end of the data. -/
def finish (d : Decoder) : ℕ := d.pos + d.rest.length

/-- The function gave up, at a position of the data. -/
def Fails {α : Type} (finish : ℕ) (r : Option α × Decoder) : Prop :=
  r.1 = none ∧ ∃ e, r.2.error = some e ∧ e.offset ≤ finish

/-- The function reads all values that nest so many levels deep. -/
def Reads (parse : Decoder → Option BValue × Decoder) (levels : ℕ) : Prop :=
  ∀ (d : Decoder) (t : Tree) (rest : Bytes), t.Fits levels → d.rest = t.source ++ rest →
    ∃ d', parse d = (some (t.valueAt d.pos), d') ∧ Read d d' t.source t.Canonical

/-- The function gives up where there is no such value. -/
def Decides (parse : Decoder → Option BValue × Decoder) (levels : ℕ) : Prop :=
  ∀ d, d.error = none →
    (∃ (t : Tree) (rest : Bytes), t.Fits levels ∧ d.rest = t.source ++ rest) ∨
    Fails d.finish (parse d)

/-! ## Reading and giving up -/

theorem Read.refl (d : Decoder) : Read d d [] True := ⟨rfl, rfl, rfl, [], by simp, by simp⟩

theorem Read.congr {source' : Bytes} {clean' : Prop} (h : Read d d₁ source clean)
    (hsource : source = source') (hclean : clean ↔ clean') : Read d d₁ source' clean' := by
  rwa [← hsource, ← propext hclean]

theorem Read.trans {source' : Bytes} {clean' : Prop} (h : Read d d₁ source clean)
    (h' : Read d₁ d₂ source' clean') : Read d d₂ (source ++ source') (clean ∧ clean') where
  error := h'.error.trans h.error
  pos := by rw [h'.pos, h.pos, List.length_append, Nat.add_assoc]
  rest := by rw [h.rest, h'.rest, List.append_assoc]
  warnings := by
    obtain ⟨ws, hws, hclean⟩ := h.warnings
    obtain ⟨ws', hws', hclean'⟩ := h'.warnings
    refine ⟨ws ++ ws', by rw [hws', hws, List.append_assoc], ?_⟩
    rw [List.append_eq_nil_iff, hclean, hclean']

theorem Read.finish_eq (h : Read d d₁ source clean) : d₁.finish = d.finish := by
  rw [finish, finish, h.pos, h.rest, List.length_append, Nat.add_assoc]

theorem Read.rest_eq (h : Read d d₁ source clean) (hrest : d.rest = source ++ rest) :
    d₁.rest = rest :=
  List.append_cancel_left (h.rest.symm.trans hrest)

theorem Read.error_eq (h : Read d d₁ source clean) (he : d.error = none) : d₁.error = none :=
  h.error.trans he

/-- Going on past what the data start with. -/
theorem read_advance (source : Bytes) (h : d.rest = source ++ rest) :
    Read d (d.advance source.length) source True where
  error := rfl
  pos := rfl
  rest := by rw [advance, h, List.drop_left]
  warnings := ⟨[], by simp [advance], by simp⟩

/-- Warning, or not. -/
theorem read_warn_if (d : Decoder) (p : Prop) [Decidable p] (message : String) :
    Read d (if p then d.warn message else d) [] (¬p) := by
  split_ifs with hp
  · exact ⟨rfl, rfl, rfl, _, rfl, by simpa using hp⟩
  · exact (Read.refl d).congr rfl (by simpa using hp)

/-- Warning for one reason, or for another, or not. -/
theorem read_warn_else (d : Decoder) (p q : Prop) [Decidable p] [Decidable q] (m m' : String) :
    Read d (if p then d.warn m else if q then d.warn m' else d) [] (¬p ∧ ¬q) := by
  by_cases hp : p
  · rw [if_pos hp, ← if_pos (c := p) hp (t := d.warn m) (e := d)]
    exact (read_warn_if d p m).congr rfl (by tauto)
  · rw [if_neg hp]
    exact (read_warn_if d q m').congr rfl (by tauto)

theorem pos_le_finish (d : Decoder) : d.pos ≤ d.finish := Nat.le_add_right _ _

theorem fails_fail {α : Type} {n : ℕ} (he : d.error = none) (hn : d.pos ≤ n) (message : String) :
    Fails n (d.fail message : Option α × Decoder) := by
  refine ⟨rfl, ⟨d.pos, message⟩, ?_, hn⟩
  simp [fail, he]

/-- A function that gives up yields nothing but the decoder with its error. -/
theorem Fails.exists_eq {α : Type} {n : ℕ} {r : Option α × Decoder} (h : Fails n r) :
    ∃ d', r = (none, d') ∧ ∀ {β : Type}, Fails n ((none, d') : Option β × Decoder) := by
  obtain ⟨o, d'⟩ := r
  obtain ⟨rfl, he⟩ := h
  exact ⟨d', rfl, rfl, he⟩

/-! ## Digits -/

/-- Whether a loop over digits goes on to the end of a numeral. -/
def Accepts (refuses : ℕ → ℕ → ℕ → Bool) (n digitCount : ℕ) : Numeral → Prop
  | [] => True
  | x :: ds => refuses n digitCount x = false ∧ Accepts refuses (n * 10 + x) (digitCount + 1) ds

variable {refuses : ℕ → ℕ → ℕ → Bool} {n digitCount : ℕ} {ds : Numeral}

theorem not_digit_head {c : UInt8} (hc : isDigit c = false) (cs : Bytes) :
    ∀ x ∈ (c :: cs).head?, isDigit x = false := by
  simpa using hc

/-- The loop reads all the digits there are, if it accepts them. -/
theorem scanDigits_of_accepts (hrest : ∀ c ∈ rest.head?, isDigit c = false)
    (h : Accepts refuses n digitCount ds) : scanDigits refuses n digitCount (numeral ds ++ rest) =
      ⟨false, valueFrom n ds, digitCount + ds.length⟩ := by
  induction ds generalizing n digitCount with
  | nil =>
    cases rest with
    | nil => rfl
    | cons c cs => simp [scanDigits, hrest c rfl]
  | cons x ds ih =>
    simp only [numeral_cons, List.cons_append, scanDigits, isDigit_digit, digit_toNat, h.1,
      Bool.false_eq_true, ↓reduceIte, ih h.2, valueFrom_cons, List.length_cons]
    rw [Nat.add_assoc, Nat.add_comm 1]

/-- It ends within the digits otherwise. -/
theorem scanDigits_of_not_accepts (rest : Bytes) (h : ¬Accepts refuses n digitCount ds) : ∃ m k,
    scanDigits refuses n digitCount (numeral ds ++ rest) = ⟨true, m, k⟩ ∧
    k ≤ digitCount + ds.length := by
  induction ds generalizing n digitCount with
  | nil => exact absurd trivial h
  | cons x ds ih =>
    simp only [numeral_cons, List.cons_append, scanDigits, isDigit_digit, digit_toNat, ↓reduceIte,
      List.length_cons]
    cases hx : refuses n digitCount x with
    | true => exact ⟨n, digitCount, rfl, by omega⟩
    | false =>
      obtain ⟨m, k, hscan, hk⟩ := ih fun hds => h ⟨hx, hds⟩
      exact ⟨m, k, hscan, by omega⟩

/-- An unsigned 64-bit number is read whole if it is one. -/
theorem accepts_overflows {k : ℕ} (hn : n < 2 ^ 64) :
    Accepts overflows n k ds ↔ valueFrom n ds < 2 ^ 64 := by
  induction ds generalizing n k with
  | nil => simpa [Accepts] using hn
  | cons x ds ih =>
    have hx : overflows n k x = false ↔ n * 10 + x < 2 ^ 64 := by
      rw [overflows, decide_eq_false_iff_not]
      omega
    rw [Accepts, hx, valueFrom_cons]
    constructor
    · rintro ⟨hlt, hds⟩
      exact (ih hlt).1 hds
    · intro hlt
      have hle : n * 10 + x ≤ valueFrom (n * 10 + x) ds := le_valueFrom
      exact ⟨hle.trans_lt hlt, (ih (hle.trans_lt hlt)).2 hlt⟩

/-- A length is read whole if it has at most ten digits. -/
theorem accepts_tooLong (hcount : digitCount ≤ 10) :
    Accepts tooLong n digitCount ds ↔ digitCount + ds.length ≤ 10 := by
  induction ds generalizing n digitCount with
  | nil => simpa [Accepts] using hcount
  | cons x ds ih =>
    rw [Accepts, tooLong, decide_eq_false_iff_not, List.length_cons]
    constructor
    · rintro ⟨hlt, hds⟩
      have hle := (ih (by omega)).1 hds
      omega
    · intro hle
      exact ⟨by omega, (ih (by omega)).2 (by omega)⟩

/-- The first of the digits, as the loop's caller sees it. -/
theorem head_numeral_eq_zero (hne : ds ≠ []) :
    (numeral ds ++ rest).head? = some '0'.toUInt8 ↔ ds.head? = some 0 := by
  cases ds with
  | nil => exact absurd rfl hne
  | cons x ds =>
    rw [numeral_cons, List.cons_append, List.head?_cons, List.head?_cons, Option.some.injEq,
      Option.some.injEq]
    clear hne
    revert x
    decide

/-- No leading zeros: what both callers of the loop check. -/
theorem canonical_iff_not_leading (hne : ds ≠ []) : Decimal.Canonical ds ↔
    ¬(ds.length > 1 ∧ (numeral ds ++ rest).head? = some '0'.toUInt8) := by
  rw [head_numeral_eq_zero hne]
  exact ⟨fun h hlead => h.head_ne_zero hlead.1 hlead.2,
    fun h => ⟨hne, fun hlen hhead => h ⟨hlen, hhead⟩⟩⟩

/-! ## Strings and integers -/

/-- A string is read. -/
theorem parseString_text {s : Text} (hs : s.Ok) (h : d.rest = s.source ++ rest) :
    ∃ d', parseString d = (some s.bytes, d') ∧ Read d d' s.source (Decimal.Canonical s.length) := by
  have hrest : d.rest = numeral s.length ++ (':'.toUInt8 :: (s.bytes ++ rest)) := by
    rw [h, Text.source, ascii_colon]
    simp
  have hscan : scanDigits tooLong 0 0 d.rest = ⟨false, s.bytes.length, s.length.length⟩ := by
    rw [hrest, scanDigits_of_accepts (not_digit_head (by decide) _)
      ((accepts_tooLong (Nat.zero_le _)).2 (by simpa using hs.length_le)), Nat.zero_add]
    exact congrArg (Scan.mk false · _) hs.value
  -- Past the digits, the warning, the colon, and the bytes.
  have h₁ := read_advance (numeral _) hrest
  rw [length_numeral] at h₁
  have hd₁ := h₁.rest_eq hrest
  rw [parseString, hscan]
  dsimp only
  rw [hd₁]
  simp only [Bool.false_eq_true, ↓reduceIte, ne_eq, not_true_eq_false]
  have h₂ := h₁.trans (read_warn_if (d.advance s.length.length)
    (s.length.length > 1 ∧ d.rest.head? = some '0'.toUInt8) "string length has leading zeros")
  have hd₂ := h₂.rest_eq (by simpa using hrest)
  have h₃ := h₂.trans (read_advance (ascii ":") hd₂)
  have hd₃ := h₃.rest_eq (by simpa [ascii_colon] using hrest)
  have h₄ := h₃.trans (read_advance s.bytes hd₃)
  rw [show (ascii ":").length = 1 from rfl] at h₄ hd₃
  rw [hd₃, if_neg (by simp), List.take_left]
  refine ⟨_, rfl, h₄.congr (by simp [Text.source]) ?_⟩
  rw [canonical_iff_not_leading hs.ne_nil, ← hrest]
  tauto

/-- What does not start with a string is given up. -/
theorem parseString_decides (he : d.error = none) {c : UInt8} {cs : Bytes} (hd : d.rest = c :: cs)
    (hc : isDigit c) :
    (∃ (s : Text) (rest : Bytes), s.Ok ∧ d.rest = s.source ++ rest) ∨
    Fails d.finish (parseString d) := by
  obtain ⟨ds, rest, hrest, hdigit⟩ := exists_numeral d.rest
  have hne : ds ≠ [] := by
    rintro rfl
    rw [hd] at hrest
    simp [hdigit c (by rw [← List.nil_append rest, ← numeral_nil, ← hrest]; rfl)] at hc
  have h₁ := read_advance (numeral _) hrest
  rw [length_numeral] at h₁
  have hd₁ := h₁.rest_eq hrest
  have he₁ := h₁.error_eq he
  -- More than ten digits are given up before there is a length.
  by_cases hlen : ds.length ≤ 10
  · have hscan : scanDigits tooLong 0 0 d.rest = ⟨false, value ds, ds.length⟩ := by
      rw [hrest, scanDigits_of_accepts hdigit
        ((accepts_tooLong (Nat.zero_le _)).2 (by simpa using hlen)),
        Nat.zero_add, value]
    have hpos := h₁.finish_eq ▸ pos_le_finish (d.advance ds.length)
    rw [parseString, hscan]
    dsimp only
    rw [hd₁]
    cases rest with
    | nil => exact .inr (fails_fail he₁ hpos _)
    | cons c' rest =>
      by_cases hcolon : c' = ':'.toUInt8
      · -- There is a colon; it remains whether there are that many bytes after it.
        subst hcolon
        by_cases hbytes : value ds ≤ rest.length
        · refine .inl ⟨⟨ds, rest.take (value ds)⟩, rest.drop (value ds),
            ⟨hne, hlen, by simpa using hbytes⟩, ?_⟩
          rw [hrest, Text.source, ascii_colon]
          simp
        · simp only [Bool.false_eq_true, ↓reduceIte, ne_eq, not_true_eq_false]
          have h₂ := h₁.trans (read_warn_if (d.advance ds.length)
            (ds.length > 1 ∧ d.rest.head? = some '0'.toUInt8) "string length has leading zeros")
          have hd₂ := h₂.rest_eq (by simpa using hrest)
          have h₃ := h₂.trans (read_advance (ascii ":") hd₂)
          have hd₃ := h₃.rest_eq (by simpa [ascii_colon] using hrest)
          rw [show (ascii ":").length = 1 from rfl] at h₃ hd₃
          rw [hd₃, if_pos (by omega)]
          exact .inr (fails_fail (h₃.error_eq he) (h₃.finish_eq ▸ pos_le_finish _) _)
      · simp only [Bool.false_eq_true, ↓reduceIte, ne_eq, hcolon, not_false_eq_true]
        exact .inr (fails_fail he₁ hpos _)
  · obtain ⟨m, k, hscan, hk⟩ := scanDigits_of_not_accepts rest
      (mt (accepts_tooLong (n := 0) (Nat.zero_le 10)).1 (by simpa using hlen))
    rw [← hrest] at hscan
    rw [parseString, hscan]
    refine .inr (fails_fail (d := d.advance k) he ?_ _)
    rw [finish, hrest, List.length_append, length_numeral, advance]
    dsimp only
    omega

/-- The machine's arithmetic on a magnitude that is not too large for its sign. -/
theorem toInt_magnitude {negative : Bool} {magnitude : ℕ}
    (h : magnitude ≤ if negative then 2 ^ 63 else 2 ^ 63 - 1) :
    (if negative then 0 - BitVec.ofNat 64 magnitude else BitVec.ofNat 64 magnitude).toInt =
      if negative then -(magnitude : ℤ) else magnitude := by
  cases negative
  · simp only [Bool.false_eq_true, ↓reduceIte] at h ⊢
    rw [BitVec.toInt_eq_toNat_cond, BitVec.toNat_ofNat, Nat.mod_eq_of_lt (by omega),
      if_pos (by omega)]
  · simp only [↓reduceIte] at h ⊢
    have hmod : magnitude % 2 ^ 64 = magnitude := Nat.mod_eq_of_lt (by omega)
    have hzero : (0 : BitVec 64).toNat = 0 := rfl
    simp only [BitVec.toInt_eq_toNat_cond, BitVec.toNat_sub, BitVec.toNat_ofNat, hmod, hzero]
    split_ifs <;> omega

theorem isInt64_number {negative : Bool} {ds : Numeral} :
    IsInt64 (number negative ds) ↔ value ds ≤ if negative then 2 ^ 63 else 2 ^ 63 - 1 := by
  cases negative <;> simp only [IsInt64, number, ↓reduceIte, Bool.false_eq_true] <;> omega

/-- The letter and the sign of an integer. -/
def signed (negative : Bool) : Bytes := ascii "i" ++ if negative then ascii "-" else []

theorem integerSource_eq (negative : Bool) (ds : Numeral) :
    integerSource negative ds = signed negative ++ numeral ds ++ ascii "e" := rfl

/-- Reading the letter and the sign: there is one if the data goes on with it. -/
theorem read_signed {negative : Bool} (h : d.rest = signed negative ++ rest)
    (hrest : ¬negative → rest.head? ≠ some '-'.toUInt8) :
    ((d.advance 1).rest.head? = some '-'.toUInt8 ↔ negative) ∧
      Read d (if (d.advance 1).rest.head? = some '-'.toUInt8 then (d.advance 1).advance 1
        else d.advance 1) (signed negative) True := by
  have h₁ : Read d (d.advance 1) (ascii "i") True :=
    read_advance (ascii "i") (by rw [h, signed, List.append_assoc])
  have hd₁ := h₁.rest_eq (by rw [h, signed, List.append_assoc])
  cases negative with
  | false =>
    have hne : rest.head? ≠ some '-'.toUInt8 := hrest (by simp)
    rw [hd₁]
    exact ⟨by simpa using hne, by simpa [hne, signed] using h₁⟩
  | true =>
    have h₂ := h₁.trans (read_advance (ascii "-") hd₁)
    rw [hd₁]
    exact ⟨by simp [ascii_minus], by simpa [ascii_minus, signed] using h₂⟩

/-- An integer is read. -/
theorem parseInteger_integer {negative : Bool} (hne : ds ≠ []) (hint : IsInt64 (number negative ds))
    (h : d.rest = integerSource negative ds ++ rest) :
    ∃ d', parseInteger d = (some (.integer (number negative ds)), d') ∧
      Read d d' (integerSource negative ds)
      (Decimal.Canonical ds ∧ ¬(negative ∧ value ds = 0)) := by
  have hrange := isInt64_number.1 hint
  have hrest : d.rest = signed negative ++ (numeral ds ++ ('e'.toUInt8 :: rest)) := by
    rw [h, integerSource_eq, ascii_e]
    simp
  have hlen : ds.length ≠ 0 := by simpa using hne
  obtain ⟨hneg, h₁⟩ := read_signed hrest fun _ hx => by
    obtain ⟨x, xs, rfl⟩ := List.exists_cons_of_ne_nil hne
    have hdigit := isDigit_digit x
    rw [numeral_cons, List.cons_append, List.head?_cons, Option.some.injEq] at hx
    rw [hx] at hdigit
    exact absurd hdigit (by decide)
  have hd₁ := h₁.rest_eq hrest
  set d₁ := if (d.advance 1).rest.head? = some '-'.toUInt8 then (d.advance 1).advance 1
    else d.advance 1 with hd₁_def
  have hscan : scanDigits overflows 0 0 d₁.rest = ⟨false, value ds, ds.length⟩ := by
    rw [hd₁, scanDigits_of_accepts (not_digit_head (by decide) _)
      ((accepts_overflows (by decide)).2 ?_), Nat.zero_add, value]
    change value ds < 2 ^ 64
    cases negative <;> simp only [↓reduceIte, Bool.false_eq_true] at hrange <;> omega
  -- Past the digits, both warnings, and the `e`.
  have h₂ := h₁.trans (read_advance (numeral _) hd₁)
  rw [length_numeral] at h₂
  have hd₂ := h₂.rest_eq (by simpa using hrest)
  have h₃ := h₂.trans (read_warn_if (d₁.advance ds.length)
    (ds.length > 1 ∧ d₁.rest.head? = some '0'.toUInt8) "integer has leading zeros")
  have h₄ := h₃.trans (read_warn_if _ (negative ∧ value ds = 0) "negative zero")
  have h₅ := h₄.trans (read_advance (ascii "e") (h₄.rest_eq (by simpa [ascii_e] using hrest)))
  rw [parseInteger]
  simp only [← hd₁_def, hscan]
  rw [hd₂]
  simp only [Bool.false_eq_true, ↓reduceIte, ne_eq, not_true_eq_false, hlen, hneg,
    if_neg (not_lt.2 hrange), toInt_magnitude hrange]
  refine ⟨_, rfl, h₅.congr (by simp [integerSource_eq]) ?_⟩
  rw [canonical_iff_not_leading hne, ← hd₁]
  tauto

/-- What starts as an integer but is none is given up. -/
theorem parseInteger_decides (he : d.error = none) {cs : Bytes} (hd : d.rest = 'i'.toUInt8 :: cs) :
    (∃ (negative : Bool) (ds : Numeral) (rest : Bytes), ds ≠ [] ∧ IsInt64 (number negative ds) ∧
      d.rest = integerSource negative ds ++ rest) ∨ Fails d.finish (parseInteger d) := by
  -- Whether there is a sign, and the longest run of digits after it.
  obtain ⟨negative, tail, hcs, htail⟩ : ∃ (negative : Bool) (tail : Bytes),
      cs = (if negative then ascii "-" else []) ++ tail ∧
        (¬negative → tail.head? ≠ some '-'.toUInt8) := by
    by_cases hminus : cs.head? = some '-'.toUInt8
    · obtain ⟨tail, rfl⟩ := List.head?_eq_some_iff.1 hminus
      exact ⟨true, tail, rfl, by simp⟩
    · exact ⟨false, cs, rfl, fun _ => hminus⟩
  obtain ⟨ds, rest, rfl, hdigit⟩ := exists_numeral tail
  have hrest : d.rest = signed negative ++ (numeral ds ++ rest) := by
    rw [hd, hcs, signed, ascii_i]
    simp
  obtain ⟨hneg, h₁⟩ := read_signed hrest htail
  have hd₁ := h₁.rest_eq hrest
  have he₁ := h₁.error_eq he
  set d₁ := if (d.advance 1).rest.head? = some '-'.toUInt8 then (d.advance 1).advance 1
    else d.advance 1 with hd₁_def
  have h₂ := h₁.trans (read_advance (numeral _) hd₁)
  rw [length_numeral] at h₂
  have hd₂ := h₂.rest_eq (by simpa using hrest)
  have he₂ := h₂.error_eq he
  have hpos := h₂.finish_eq ▸ pos_le_finish (d₁.advance ds.length)
  -- Either the digits can be summed up without overflow, or the scan stops in them.
  by_cases hlt : value ds < 2 ^ 64
  · have hscan : scanDigits overflows 0 0 d₁.rest = ⟨false, value ds, ds.length⟩ := by
      rw [hd₁, scanDigits_of_accepts hdigit ((accepts_overflows (by decide)).2 hlt),
        Nat.zero_add, value]
    rw [parseInteger]
    simp only [← hd₁_def, hscan]
    rw [hd₂]
    cases rest with
    | nil => exact .inr (fails_fail he₂ hpos _)
    | cons c rest =>
      by_cases hend : c = 'e'.toUInt8
      · subst hend
        simp only [Bool.false_eq_true, ↓reduceIte, ne_eq, not_true_eq_false, hneg]
        by_cases hlen : ds.length = 0
        · rw [if_pos hlen]
          exact .inr (fails_fail he₂ hpos _)
        · by_cases hrange : value ds ≤ if negative then 2 ^ 63 else 2 ^ 63 - 1
          · refine .inl ⟨negative, ds, rest, by simpa using hlen, isInt64_number.2 hrange, ?_⟩
            rw [hrest, integerSource_eq, ascii_e]
            simp
          · rw [if_neg hlen, if_pos (not_le.1 hrange)]
            exact .inr (fails_fail he₂ hpos _)
      · simp only [Bool.false_eq_true, ↓reduceIte, ne_eq, hend, not_false_eq_true]
        exact .inr (fails_fail he₂ hpos _)
  · obtain ⟨m, k, hscan, hk⟩ := scanDigits_of_not_accepts rest
      (mt (accepts_overflows (n := 0) (k := 0) (by decide)).1 hlt)
    rw [← hd₁] at hscan
    rw [parseInteger]
    simp only [← hd₁_def, hscan]
    refine .inr (fails_fail (d := d₁.advance k) he₁ ?_ _)
    have hfin := h₁.finish_eq
    rw [finish, hd₁, List.length_append, length_numeral] at hfin
    rw [← hfin, advance]
    dsimp only
    omega

/-! ## Lists and dictionaries -/

section Containers

variable {parse : Decoder → Option BValue × Decoder} {levels turns : ℕ} (start : ℕ)

theorem Reads.itemLoop (hparse : Reads parse levels) {items : List Tree} (acc : List BValue)
    (hfits : ∀ t ∈ items, t.Fits levels) (h : d.rest = sourceItems items ++ 'e'.toUInt8 :: rest)
    (hturns : d.rest.length < turns) :
    ∃ d', itemLoop parse start turns acc d = (some (acc ++ itemsAt d.pos items), d') ∧
      Read d d' (sourceItems items ++ ascii "e") (∀ t ∈ items, t.Canonical) := by
  induction items generalizing d acc turns with
  | nil =>
    obtain ⟨turns, rfl⟩ : ∃ k, turns = k + 1 := ⟨turns - 1, by omega⟩
    rw [sourceItems, List.nil_append] at h
    rw [Decoder.itemLoop, h]
    refine ⟨d.advance 1, by simp [itemsAt], (read_advance (ascii "e") h).congr rfl (by simp)⟩
  | cons t items ih =>
    obtain ⟨turns, rfl⟩ : ∃ k, turns = k + 1 := ⟨turns - 1, by omega⟩
    have ht := hfits t List.mem_cons_self
    obtain ⟨c, cs, hc, hne⟩ := t.exists_head ht
    rw [sourceItems, List.append_assoc] at h
    obtain ⟨d₁, hparsed, hread⟩ := hparse d t _ ht h
    have hd₁ := hread.rest_eq h
    -- An item is not empty, so that the turns suffice for what is left.
    have hpos := t.length_source_pos ht
    have hlen := congrArg List.length hread.rest
    rw [List.length_append] at hlen
    obtain ⟨d₂, hloop, hread'⟩ := ih (acc ++ [t.valueAt d.pos])
      (fun t' ht' => hfits t' (List.mem_cons_of_mem _ ht')) hd₁ (by omega : d₁.rest.length < turns)
    refine ⟨d₂, ?_, (hread.trans hread').congr (by rw [sourceItems, List.append_assoc]) (by simp)⟩
    rw [Decoder.itemLoop, h, hc]
    simp only [List.cons_append, hne, ↓reduceIte, hparsed, hloop, hread.pos, itemsAt,
      List.append_assoc, List.nil_append]

theorem Decides.itemLoop (hparse : Reads parse levels) (hdec : Decides parse levels)
    (acc : List BValue) (he : d.error = none) (hturns : d.rest.length < turns) :
    (∃ (items : List Tree) (rest : Bytes), (∀ t ∈ items, t.Fits levels) ∧
      d.rest = sourceItems items ++ 'e'.toUInt8 :: rest) ∨
    Fails d.finish (itemLoop parse start turns acc d) := by
  induction turns generalizing d acc with
  | zero => exact absurd hturns (Nat.not_lt_zero _)
  | succ turns ih =>
    rw [Decoder.itemLoop]
    cases hd : d.rest with
    | nil => exact .inr (fails_fail he (pos_le_finish d) _)
    | cons c cs =>
      by_cases hc : c = 'e'.toUInt8
      · exact .inl ⟨[], cs, by simp, by rw [hc]; rfl⟩
      · dsimp only
        rw [if_neg hc]
        rcases hdec d he with ⟨t, rest, ht, hrest⟩ | hfails
        · -- The item is read; the rest of the list is what decides.
          obtain ⟨d₁, hparsed, hread⟩ := hparse d t rest ht hrest
          have hpos := t.length_source_pos ht
          have hlen := congrArg List.length hread.rest
          rw [List.length_append] at hlen
          rw [hparsed]
          dsimp only
          rcases ih (acc ++ [t.valueAt d.pos]) (hread.error_eq he) (by omega) with
            ⟨items, rest', hitems, hrest'⟩ | hfails
          · refine .inl ⟨t :: items, rest', List.forall_mem_cons.2 ⟨ht, hitems⟩, ?_⟩
            rw [← hd, hread.rest, hrest', sourceItems, List.append_assoc]
          · exact .inr (hread.finish_eq ▸ hfails)
        · obtain ⟨d₁, hparsed, hfails'⟩ := hfails.exists_eq
          rw [hparsed]
          exact .inr hfails'

theorem Reads.parseList (hparse : Reads parse levels) {items : List Tree}
    (hfits : ∀ t ∈ items, t.Fits levels) (h : d.rest = (Tree.list items).source ++ rest) :
    ∃ d', parseList parse d = (some (.list (itemsAt (d.pos + 1) items)), d') ∧
      Read d d' (Tree.list items).source (Tree.list items).Canonical := by
  rw [Tree.source, List.append_assoc, List.append_assoc] at h
  have h₁ := read_advance (ascii "l") h
  obtain ⟨d₂, hloop, h₂⟩ := hparse.itemLoop (d := d.advance 1) d.pos [] hfits
    (h₁.rest_eq h) (Nat.lt_succ_self _)
  refine ⟨d₂, by rw [Decoder.parseList, hloop]; rfl, ?_⟩
  refine (h₁.trans h₂).congr (by rw [Tree.source, List.append_assoc]) ?_
  rw [true_and]
  exact ⟨.list, fun h => by cases h; assumption⟩

theorem Decides.parseList (hparse : Reads parse levels) (hdec : Decides parse levels)
    (he : d.error = none) {cs : Bytes} (hd : d.rest = 'l'.toUInt8 :: cs) :
    (∃ (items : List Tree) (rest : Bytes), (∀ t ∈ items, t.Fits levels) ∧
      d.rest = (Tree.list items).source ++ rest) ∨ Fails d.finish (parseList parse d) := by
  have h₁ : Read d (d.advance 1) (ascii "l") True := read_advance (ascii "l") hd
  rcases hdec.itemLoop (d := d.advance 1) d.pos hparse [] he (Nat.lt_succ_self _) with
    ⟨items, rest, hitems, hrest⟩ | hfails
  · refine .inl ⟨items, rest, hitems, ?_⟩
    rw [h₁.rest, hrest, Tree.source, ascii_e]
    simp
  · obtain ⟨d₂, hloop, hfails'⟩ := hfails.exists_eq
    rw [Decoder.parseList, hloop]
    exact .inr (h₁.finish_eq ▸ hfails')

/-- Whether keys come in order: none has been seen before, nor comes before the last
    one seen. -/
def InOrder (seen : List Bytes) : List Bytes → Prop
  | [] => True
  | key :: keys => (key ∉ seen ∧ ∀ p ∈ seen.getLast?, ¬key < p) ∧ InOrder (seen ++ [key]) keys

/-- Comparing every key with the one before is enough to see that they are sorted. -/
theorem inOrder_iff {seen : List Bytes} (hseen : seen.Pairwise (· < ·)) (keys : List Bytes) :
    InOrder seen keys ↔ (seen ++ keys).Pairwise (· < ·) := by
  induction keys generalizing seen with
  | nil => simpa [InOrder] using hseen
  | cons key keys ih =>
    have hnew : (key ∉ seen ∧ ∀ p ∈ seen.getLast?, ¬key < p) ↔ ∀ s ∈ seen, s < key := by
      constructor
      · rintro ⟨hnotin, hlast⟩ s hs
        -- All that was seen is at most the last of it.
        obtain ⟨init, last, rfl⟩ := (List.eq_nil_or_concat' seen).resolve_left
          (List.ne_nil_of_mem hs)
        have hle : s = last ∨ s < last := by
          rcases List.mem_append.1 hs with hs | hs
          · exact .inr ((List.pairwise_append.1 hseen).2.2 s hs last (List.mem_singleton_self _))
          · exact .inl (List.mem_singleton.1 hs)
        have hlt : last < key := by
          rcases Std.lt_trichotomy last key with hlt | rfl | hgt
          · exact hlt
          · exact absurd (List.mem_append_right _ (List.mem_singleton_self _)) hnotin
          · exact absurd hgt (hlast last (by simp))
        rcases hle with rfl | hle
        · exact hlt
        · exact List.lt_trans hle hlt
      · intro hlt
        refine ⟨fun hin => List.lt_irrefl _ (hlt key hin), fun p hp hkey => ?_⟩
        exact List.lt_irrefl _ (List.lt_trans hkey (hlt p (List.mem_of_getLast? hp)))
    rw [InOrder, hnew]
    constructor
    · rintro ⟨hlt, hkeys⟩
      have hseen' : (seen ++ [key]).Pairwise (· < ·) :=
        List.pairwise_append.2 ⟨hseen, List.pairwise_singleton _ _, by simpa using hlt⟩
      simpa using (ih hseen').1 hkeys
    · intro hall
      have hall' : (seen ++ [key] ++ keys).Pairwise (· < ·) := by simpa using hall
      have hseen' := (List.pairwise_append.1 hall').1
      exact ⟨fun s hs => (List.pairwise_append.1 hseen').2.2 s hs key (List.mem_singleton_self _),
        (ih hseen').2 hall'⟩

theorem Reads.entryLoop (hparse : Reads parse levels) {es : List (Text × Tree)}
    (dict : BValue.Dict) (seen : List Bytes) (hseen : ∀ k, (dict.lookup k).isSome ↔ k ∈ seen)
    (hfits : ∀ e ∈ es, e.1.Ok ∧ e.2.Fits levels)
    (h : d.rest = sourceEntries es ++ 'e'.toUInt8 :: rest) (hturns : d.rest.length < turns) :
    ∃ d', entryLoop parse start turns dict seen.getLast? d = (some (entriesAt d.pos dict es), d') ∧
      Read d d' (sourceEntries es ++ ascii "e")
        (InOrder seen (es.map (·.1.bytes)) ∧ (∀ e ∈ es, Decimal.Canonical e.1.length) ∧
          ∀ e ∈ es, e.2.Canonical) := by
  induction es generalizing d dict seen turns with
  | nil =>
    obtain ⟨turns, rfl⟩ : ∃ k, turns = k + 1 := ⟨turns - 1, by omega⟩
    rw [sourceEntries, List.nil_append] at h
    rw [Decoder.entryLoop, h]
    refine ⟨d.advance 1, by simp [entriesAt], (read_advance (ascii "e") h).congr rfl ?_⟩
    simp [InOrder]
  | cons e es ih =>
    obtain ⟨key, t⟩ := e
    obtain ⟨turns, rfl⟩ : ∃ k, turns = k + 1 := ⟨turns - 1, by omega⟩
    obtain ⟨hkey, ht⟩ := hfits _ List.mem_cons_self
    rw [sourceEntries, List.append_assoc, List.append_assoc] at h
    -- The key, the warnings about it, the value, and the rest of the dictionary.
    obtain ⟨d₁, hparsedKey, h₁⟩ := parseString_text hkey h
    have hd₁ := h₁.rest_eq h
    obtain ⟨d₂, hd₂_eq⟩ : ∃ d₂, d₂ = if (dict.lookup key.bytes).isSome then
        d₁.warn s!"duplicate dictionary key \"{percentEncoding key.bytes}\""
      else if seen.getLast?.any (key.bytes < ·) then d₁.warn "dictionary keys not sorted"
      else d₁ := ⟨_, rfl⟩
    have h₂ := h₁.trans (hd₂_eq ▸ read_warn_else d₁ _ _ _ _)
    have hd₂ := h₂.rest_eq (by simpa using h)
    obtain ⟨d₃, hparsed, h₃⟩ := hparse _ t _ ht hd₂
    have hd₃ := h₃.rest_eq hd₂
    have h₁₃ := h₂.trans h₃
    have hlen := congrArg List.length h₁₃.rest
    have hpos := t.length_source_pos ht
    rw [List.length_append, List.length_append] at hlen
    have hlast : (seen ++ [key.bytes]).getLast? = some key.bytes := by simp
    have hdict : ∀ k, (List.lookup k (if (dict.lookup key.bytes).isSome then dict
        else dict.emplace key.bytes (t.valueAt (d.pos + key.source.length)))).isSome ↔
          k ∈ seen ++ [key.bytes] := by
      intro k
      rw [List.mem_append, List.mem_singleton, ← hseen k]
      cases hdup : dict.lookup key.bytes with
      | some v =>
        rw [Option.isSome_some, if_pos rfl]
        refine ⟨.inl, ?_⟩
        rintro (hin | rfl)
        · exact hin
        · rw [hdup, Option.isSome_some]
      | none =>
        rw [Option.isSome_none, if_neg Bool.false_ne_true, lookup_emplace hdup]
        split_ifs with hk <;> simp [hk]
    obtain ⟨d₄, hloop, h₄⟩ := ih _ _ hdict (fun e he => hfits e (List.mem_cons_of_mem _ he)) hd₃
      (by omega : d₃.rest.length < turns)
    rw [hlast] at hloop
    obtain ⟨x, xs, hx⟩ := List.exists_cons_of_ne_nil hkey.ne_nil
    have hhead : d.rest = ('0'.toUInt8 + UInt8.ofNat x) :: d.rest.tail := by
      rw [h, Text.source, hx]
      rfl
    have hne : '0'.toUInt8 + UInt8.ofNat x ≠ 'e'.toUInt8 := fun hx =>
      absurd (hx ▸ isDigit_digit x) (by decide)
    refine ⟨d₄, ?_, (h₁₃.trans h₄).congr ?_ ?_⟩
    · rw [Decoder.entryLoop, hhead]
      simp only [hne, ↓reduceIte, isDigit_digit, Bool.not_true, Bool.false_eq_true, hparsedKey,
        ← hd₂_eq, hparsed]
      rw [h₂.pos, List.append_nil, hloop, h₁₃.pos, entriesAt, List.length_append,
        List.append_nil, Nat.add_assoc]
    · simp only [sourceEntries, List.append_nil, List.append_assoc]
    · have hany : ∀ o : Option Bytes, o.any (key.bytes < ·) ↔ ∃ p ∈ o, key.bytes < p := by
        rintro (_ | p) <;> simp
      rw [hseen, hany, List.map_cons, InOrder]
      simp only [List.forall_mem_cons]
      push Not
      tauto

theorem Decides.entryLoop (hparse : Reads parse levels) (hdec : Decides parse levels)
    (dict : BValue.Dict) (previousKey : Option Bytes) (he : d.error = none)
    (hturns : d.rest.length < turns) :
    (∃ (es : List (Text × Tree)) (rest : Bytes), (∀ e ∈ es, e.1.Ok ∧ e.2.Fits levels) ∧
      d.rest = sourceEntries es ++ 'e'.toUInt8 :: rest) ∨
    Fails d.finish (entryLoop parse start turns dict previousKey d) := by
  induction turns generalizing d dict previousKey with
  | zero => exact absurd hturns (Nat.not_lt_zero _)
  | succ turns ih =>
    rw [Decoder.entryLoop]
    cases hd : d.rest with
    | nil => exact .inr (fails_fail he (pos_le_finish d) _)
    | cons c cs =>
      by_cases hc : c = 'e'.toUInt8
      · exact .inl ⟨[], cs, by simp, by rw [hc]; rfl⟩
      dsimp only
      rw [if_neg hc]
      -- An entry starts with a string, which starts with a digit.
      by_cases hdigit : isDigit c
      · rw [if_neg (by simpa using hdigit)]
        rcases parseString_decides he hd hdigit with ⟨key, rest, hkey, hrest⟩ | hfails
        · -- The key is read, with or without a warning; then the value decides.
          obtain ⟨d₁, hparsedKey, h₁⟩ := parseString_text hkey hrest
          rw [hparsedKey]
          dsimp only
          obtain ⟨d₂, hd₂⟩ : ∃ d₂, d₂ = if (dict.lookup key.bytes).isSome then
              d₁.warn s!"duplicate dictionary key \"{percentEncoding key.bytes}\""
            else if previousKey.any (key.bytes < ·) then d₁.warn "dictionary keys not sorted"
            else d₁ := ⟨_, rfl⟩
          have h₂ := h₁.trans (hd₂ ▸ read_warn_else d₁ _ _ _ _)
          rw [← hd₂]
          rcases hdec d₂ (h₂.error_eq he) with ⟨t, rest', ht, hrest'⟩ | hfails
          · obtain ⟨d₃, hparsed, h₃⟩ := hparse d₂ t rest' ht hrest'
            have h₁₃ := h₂.trans h₃
            have hpos := t.length_source_pos ht
            have hlen := congrArg List.length h₁₃.rest
            rw [List.length_append, List.length_append] at hlen
            rw [hparsed]
            rcases ih _ (some key.bytes) (h₁₃.error_eq he) (by omega) with
              ⟨es, rest'', hes, hrest''⟩ | hfails
            · refine .inl ⟨(key, t) :: es, rest'', List.forall_mem_cons.2 ⟨⟨hkey, ht⟩, hes⟩, ?_⟩
              rw [← hd, h₁₃.rest, hrest'', sourceEntries, List.append_nil, List.append_assoc,
                List.append_assoc, List.append_assoc]
            · exact .inr (h₁₃.finish_eq ▸ hfails)
          · obtain ⟨d₃, hparsed, hfails'⟩ := hfails.exists_eq
            rw [hparsed]
            exact .inr (h₂.finish_eq ▸ hfails')
        · obtain ⟨d₁, hparsed, hfails'⟩ := hfails.exists_eq
          rw [hparsed]
          exact .inr hfails'
      · rw [if_pos (by simpa using hdigit)]
        exact .inr (fails_fail he (pos_le_finish d) _)

theorem Reads.parseDict (hparse : Reads parse levels) {es : List (Text × Tree)}
    (hfits : ∀ e ∈ es, e.1.Ok ∧ e.2.Fits levels) (h : d.rest = (Tree.dict es).source ++ rest) :
    ∃ d', parseDict parse d = (some (.dict (entriesAt (d.pos + 1) [] es)), d') ∧
      Read d d' (Tree.dict es).source (Tree.dict es).Canonical := by
  rw [Tree.source, List.append_assoc, List.append_assoc] at h
  have h₁ := read_advance (ascii "d") h
  obtain ⟨d₂, hloop, h₂⟩ := hparse.entryLoop (d := d.advance 1) d.pos [] [] (by simp) hfits
    (h₁.rest_eq h) (Nat.lt_succ_self _)
  refine ⟨d₂, by rw [Decoder.parseDict, ← List.getLast?_nil, hloop]; rfl, ?_⟩
  refine (h₁.trans h₂).congr (by rw [Tree.source, List.append_assoc]) ?_
  rw [true_and, inOrder_iff List.Pairwise.nil, List.nil_append]
  constructor
  · rintro ⟨hkeys, hlengths, hvalues⟩
    exact .dict hkeys hlengths hvalues
  · intro h
    cases h
    exact ⟨‹_›, ‹_›, ‹_›⟩

theorem Decides.parseDict (hparse : Reads parse levels) (hdec : Decides parse levels)
    (he : d.error = none) {cs : Bytes} (hd : d.rest = 'd'.toUInt8 :: cs) :
    (∃ (es : List (Text × Tree)) (rest : Bytes), (∀ e ∈ es, e.1.Ok ∧ e.2.Fits levels) ∧
      d.rest = (Tree.dict es).source ++ rest) ∨ Fails d.finish (parseDict parse d) := by
  have h₁ : Read d (d.advance 1) (ascii "d") True := read_advance (ascii "d") hd
  rcases hdec.entryLoop (d := d.advance 1) d.pos hparse [] none he (Nat.lt_succ_self _) with
    ⟨es, rest, hes, hrest⟩ | hfails
  · refine .inl ⟨es, rest, hes, ?_⟩
    rw [h₁.rest, hrest, Tree.source, ascii_e]
    simp
  · obtain ⟨d₂, hloop, hfails'⟩ := hfails.exists_eq
    rw [Decoder.parseDict, hloop]
    exact .inr (h₁.finish_eq ▸ hfails')

end Containers

/-! ## Values -/

variable {levels : ℕ} {maxDepth : ℤ}

/-- What reads the values one level deeper, if there are levels left. -/
def deeper (maxDepth : ℤ) : ℕ → Option (Decoder → Option BValue × Decoder)
  | 0 => none
  | levels + 1 => some (parseValue maxDepth levels)

theorem parseValue_eq (maxDepth : ℤ) (levels : ℕ) :
    parseValue maxDepth levels = parseSpanned
    (parseValueInner maxDepth (deeper maxDepth levels)) := by
  cases levels <;> rfl

/-- A tree fits if it is in range and its contents, if any, fit one level deeper. -/
theorem reads_parseSpanned {inner : Decoder → Option BValue × Decoder}
    (h : ∀ (d : Decoder) (t : Tree) (rest : Bytes), t.Fits levels → d.rest = t.source ++ rest →
      ∃ v d', inner d = (some v, d') ∧ Read d d' t.source t.Canonical ∧
        v.setRawSpan ⟨d.pos, t.source.length⟩ = t.valueAt d.pos) :
    Reads (parseSpanned inner) levels := by
  intro d t rest ht hrest
  obtain ⟨v, d', hinner, hread, hv⟩ := h d t rest ht hrest
  refine ⟨d', ?_, hread⟩
  rw [parseSpanned, hinner]
  dsimp only
  rw [hread.pos, ← hv]
  simp

/-- `parseValue` reads all values that nest within the levels left, if one level
    deeper it does. -/
theorem reads_parseValue_of (h : ∀ l, levels = l + 1 → Reads (parseValue maxDepth l) l) :
    Reads (parseValue maxDepth levels) levels := by
  rw [parseValue_eq]
  refine reads_parseSpanned fun d t rest ht hrest => ?_
  obtain ⟨c, cs, hc, -⟩ := t.exists_head ht
  have hd : d.rest = c :: (cs ++ rest) := by rw [hrest, hc, List.cons_append]
  rw [parseValueInner, hd]
  dsimp only
  -- The first byte tells the kinds apart.
  cases t with
  | integer negative digits =>
    obtain ⟨hne, hint⟩ : digits ≠ [] ∧ IsInt64 (number negative digits) := by
        cases levels <;> exact ht
    obtain rfl : c = 'i'.toUInt8 := (List.cons_eq_cons.1 hc).1.symm
    obtain ⟨d', hparsed, hread⟩ := parseInteger_integer hne hint hrest
    refine ⟨_, d', by rw [if_pos rfl, hparsed], hread.congr rfl ?_, rfl⟩
    exact ⟨fun h => .integer h.1 h.2, fun h => by cases h; exact ⟨‹_›, ‹_›⟩⟩
  | string s =>
    have hok : s.Ok := by cases levels <;> exact ht
    obtain ⟨x, xs, hx⟩ := List.exists_cons_of_ne_nil hok.ne_nil
    have hcx : c = '0'.toUInt8 + UInt8.ofNat x := by
      rw [Tree.source, Text.source, hx] at hc
      exact (List.cons_eq_cons.1 hc).1.symm
    have hdigit : isDigit c := hcx ▸ isDigit_digit x
    have hi : c ≠ 'i'.toUInt8 := fun hci => absurd (hci ▸ hdigit) (by decide)
    obtain ⟨d', hparsed, hread⟩ := parseString_text hok hrest
    refine ⟨.string s.bytes, d', by rw [if_neg hi, if_pos hdigit, hparsed], hread.congr rfl ?_, rfl⟩
    exact ⟨fun h => .string h, fun h => by cases h; assumption⟩
  | list items =>
    obtain ⟨l, rfl⟩ : ∃ l, levels = l + 1 := by
      cases levels with
      | zero => exact absurd ht id
      | succ l => exact ⟨l, rfl⟩
    obtain rfl : c = 'l'.toUInt8 := (List.cons_eq_cons.1 hc).1.symm
    obtain ⟨d', hparsed, hread⟩ := (h l rfl).parseList ht hrest
    exact ⟨_, d', hparsed, hread, rfl⟩
  | dict entries =>
    obtain ⟨l, rfl⟩ : ∃ l, levels = l + 1 := by
      cases levels with
      | zero => exact absurd ht id
      | succ l => exact ⟨l, rfl⟩
    obtain rfl : c = 'd'.toUInt8 := (List.cons_eq_cons.1 hc).1.symm
    obtain ⟨d', hparsed, hread⟩ := (h l rfl).parseDict ht hrest
    exact ⟨_, d', hparsed, hread, rfl⟩

theorem reads_parseValue (maxDepth : ℤ) (levels : ℕ) :
    Reads (parseValue maxDepth levels) levels := by
  induction levels with
  | zero => exact reads_parseValue_of fun l hl => absurd hl (Nat.succ_ne_zero l).symm
  | succ levels ih => exact reads_parseValue_of fun l hl => Nat.succ.inj hl ▸ ih

theorem Decides.parseSpanned {inner : Decoder → Option BValue × Decoder}
    (h : Decides inner levels) : Decides (parseSpanned inner) levels := by
  intro d he
  refine (h d he).imp_right fun hfails => ?_
  obtain ⟨d', hinner, hfails'⟩ := hfails.exists_eq
  rw [Decoder.parseSpanned, hinner]
  exact hfails'

/-- It gives up on everything else, if one level deeper it does. -/
theorem decides_parseValue_of (h : ∀ l, levels = l + 1 → Decides (parseValue maxDepth l) l) :
    Decides (parseValue maxDepth levels) levels := by
  rw [parseValue_eq]
  refine Decides.parseSpanned fun d he => ?_
  rw [parseValueInner]
  cases hd : d.rest with
  | nil => exact .inr (fails_fail he (pos_le_finish d) _)
  | cons c cs =>
    dsimp only
    by_cases hi : c = 'i'.toUInt8
    · subst hi
      rw [if_pos rfl, ← hd]
      refine (parseInteger_decides he hd).imp_left ?_
      rintro ⟨negative, ds, rest, hne, hint, hrest⟩
      exact ⟨.integer negative ds, rest, by cases levels <;> exact ⟨hne, hint⟩, hrest⟩
    rw [if_neg hi]
    by_cases hdigit : isDigit c
    · rw [if_pos hdigit, ← hd]
      rcases parseString_decides he hd hdigit with ⟨s, rest, hok, hrest⟩ | hfails
      · exact .inl ⟨.string s, rest, by cases levels <;> exact hok, hrest⟩
      · obtain ⟨d', hparsed, hfails'⟩ := hfails.exists_eq
        rw [hparsed]
        exact .inr hfails'
    rw [if_neg hdigit]
    by_cases hld : c = 'l'.toUInt8 ∨ c = 'd'.toUInt8
    · rw [if_pos hld]
      -- A container at the depth limit is refused.
      cases levels with
      | zero => exact .inr (fails_fail he (pos_le_finish d) _)
      | succ l =>
        have hreads := reads_parseValue maxDepth l
        dsimp only [deeper]
        by_cases hl : c = 'l'.toUInt8
        · subst hl
          rw [if_pos rfl, ← hd]
          refine ((h l rfl).parseList hreads he hd).imp_left ?_
          exact fun ⟨items, rest, hitems, hrest⟩ => ⟨.list items, rest, hitems, hrest⟩
        · obtain rfl := hld.resolve_left hl
          rw [if_neg hl, ← hd]
          refine ((h l rfl).parseDict hreads he hd).imp_left ?_
          exact fun ⟨es, rest, hes, hrest⟩ => ⟨.dict es, rest, hes, hrest⟩
    · rw [if_neg hld]
      exact .inr (fails_fail he (pos_le_finish d) _)

theorem decides_parseValue (maxDepth : ℤ) (levels : ℕ) :
    Decides (parseValue maxDepth levels) levels := by
  induction levels with
  | zero => exact decides_parseValue_of fun l hl => absurd hl (Nat.succ_ne_zero l).symm
  | succ levels ih => exact decides_parseValue_of fun l hl => Nat.succ.inj hl ▸ ih

/-! ## The decoder -/

section Decode

variable {data : Bytes} {t : Tree}

/-- Data that start with a value of the grammar are decoded: to that value, and
    without warnings if it is canonical and all there is. -/
theorem bdecode_of_tree (ht : t.Fits maxDepth.toNat) (h : data = t.source ++ rest) :
    (bdecode data maxDepth).value = t.valueAt 0 ∧ (bdecode data maxDepth).error = none ∧
      ((bdecode data maxDepth).warnings = [] ↔ t.Canonical ∧ rest = []) := by
  obtain ⟨d', hparsed, hread⟩ := reads_parseValue maxDepth _ { rest := data } t rest ht h
  have hd' := hread.rest_eq h
  obtain ⟨ws, hws, hclean⟩ := hread.warnings
  rw [List.nil_append] at hws
  rw [bdecode, run, hparsed]
  dsimp only
  rw [hd']
  split_ifs with hrest
  · exact ⟨rfl, hread.error, by rw [hws, hclean, List.isEmpty_iff.1 hrest]; simp⟩
  · refine ⟨rfl, hread.error, iff_of_false ?_ fun hboth => hrest (List.isEmpty_iff.2 hboth.2)⟩
    simp [warn]

/-- Decoding fails only within the data, and only where no value is. -/
theorem bdecode_decides (data : Bytes) (maxDepth : ℤ) :
    (∃ (t : Tree) (rest : Bytes), t.Fits maxDepth.toNat ∧ data = t.source ++ rest) ∨
      ((bdecode data maxDepth).value = .invalid ∧
        ∃ e, (bdecode data maxDepth).error = some e ∧ e.offset ≤ data.length) := by
  refine (decides_parseValue maxDepth _ { rest := data } rfl).imp_right fun hfails => ?_
  obtain ⟨d', hparsed, hfails'⟩ := hfails.exists_eq
  obtain ⟨-, e, he, hoffset⟩ := @hfails' Unit
  rw [bdecode, run, hparsed]
  exact ⟨rfl, e, he, by simpa [finish] using hoffset⟩

/-- Data start with at most one value: it ends where the decoder stops. -/
theorem source_unique {t' : Tree} {rest' : Bytes} {levels : ℕ} (ht : t.Fits levels)
    (ht' : t'.Fits levels) (h : t.source ++ rest = t'.source ++ rest') : t.source = t'.source := by
  obtain ⟨d₁, hparsed, hread⟩ := reads_parseValue 0 levels { rest := t.source ++ rest } t rest
      ht rfl
  obtain ⟨d₂, hparsed', hread'⟩ :=
    reads_parseValue 0 levels { rest := t.source ++ rest } t' rest' ht' h
  obtain rfl : d₁ = d₂ := (Prod.ext_iff.1 (hparsed.symm.trans hparsed')).2
  exact List.append_cancel_right (hread.rest.symm.trans hread'.rest)

/-- The decoder accepts exactly the data that start with a value of the grammar,
    which is the only one they start with; it yields the value, in which the first
    of several entries with the same key counts, and otherwise says where it failed. -/
theorem bdecode_iff (data : Bytes) (maxDepth : ℤ) :
    ((bdecode data maxDepth).ok ↔ ∃ t : Tree, t.Fits maxDepth.toNat ∧ t.source <+: data) ∧
    (∀ t : Tree, t.Fits maxDepth.toNat → t.source <+: data →
      (bdecode data maxDepth).value = t.valueAt 0 ∧
      ∀ t' : Tree, t'.Fits maxDepth.toNat → t'.source <+: data → t'.source = t.source) ∧
    (∀ (pos : ℕ) (es : List (Text × Tree)) (key : Bytes),
      ((Tree.dict es).valueAt pos).find key = firstAt key (pos + 1) es) ∧
    (¬(bdecode data maxDepth).ok → (bdecode data maxDepth).value = .invalid ∧
      ∃ e, (bdecode data maxDepth).error = some e ∧ e.offset ≤ data.length) := by
  refine ⟨⟨fun hok => ?_, ?_⟩, ?_, fun pos es key => ?_, fun hok => ?_⟩
  · rcases bdecode_decides data maxDepth with ⟨t, rest, ht, h⟩ | ⟨-, e, he, -⟩
    · exact ⟨t, ht, rest, h.symm⟩
    · simp [BDecodeResult.ok, he] at hok
  · rintro ⟨t, ht, rest, h⟩
    rw [BDecodeResult.ok, (bdecode_of_tree ht h.symm).2.1]
    rfl
  · rintro t ht ⟨rest, h⟩
    refine ⟨(bdecode_of_tree ht h.symm).1, ?_⟩
    rintro t' ht' ⟨rest', h'⟩
    exact source_unique ht' ht (h'.trans h.symm)
  · rw [Tree.valueAt, BValue.find, lookup_entriesAt, List.lookup_nil, Option.none_or]
  · refine (bdecode_decides data maxDepth).resolve_left ?_
    rintro ⟨t, rest, ht, h⟩
    rw [BDecodeResult.ok, (bdecode_of_tree ht h).2.1] at hok
    exact hok rfl

end Decode

end Dht.Decoder
