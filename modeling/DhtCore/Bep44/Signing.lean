import DhtCore.Bencode.RoundTrip
import DhtCore.Bep44
import DhtCore.Lib.PrefixFree

/-!
# What signatures cover

The text that the signature of a mutable item covers says which salt, which sequence number
and which value are signed, whatever bytes are in the salt and in the value
(`signingBuffer_eq_iff`). What comes before the value is prefix free: a salt is written
after its length, a number is ended by a letter, and that there is no salt shows in the
first byte.
-/

namespace Dht

open Decimal Bencode

/-! ## Numbers -/

theorem numeral_injective : Function.Injective numeral := by
  intro ds
  induction ds with
  | nil => exact fun es h => (List.length_eq_zero_iff.1 (by rw [← length_numeral, ← h]; rfl)).symm
  | cons d ds ih =>
    rintro (_ | ⟨e, es⟩) h
    · exact List.length_eq_zero_iff.1 (by rw [← length_numeral, h]; rfl)
    · rw [numeral_cons, numeral_cons, List.cons.injEq] at h
      have hde : d = e := Fin.ext (by rw [← digit_toNat d, ← digit_toNat e, h.1])
      rw [hde, ih h.2]

theorem mem_numeral {ds : Numeral} {c : UInt8} (h : c ∈ numeral ds) : Decoder.isDigit c := by
  induction ds with
  | nil => cases h
  | cons d ds ih =>
    rw [numeral_cons, List.mem_cons] at h
    rcases h with rfl | h
    · exact isDigit_digit d
    · exact ih h

theorem decimal_negSucc (n : ℕ) :
    decimal (.negSucc n) = '-'.toUInt8 :: numeral (digits (n + 1)) := by
  rw [← map_toDigits]
  rfl

/-- Numbers are written with digits and a minus sign. -/
theorem mem_decimal {n : ℤ} {c : UInt8} (h : c ∈ decimal n) :
    c = '-'.toUInt8 ∨ Decoder.isDigit c := by
  cases n with
  | ofNat n =>
    rw [Int.ofNat_eq_natCast, decimal_natCast] at h
    exact .inr (mem_numeral h)
  | negSucc n =>
    rw [decimal_negSucc, List.mem_cons] at h
    exact h.imp_right mem_numeral

theorem digits_injective : Function.Injective digits := fun m n h => by
  rw [← value_digits m, h, value_digits]

theorem decimal_injective : Function.Injective decimal := by
  -- A number that is not negative starts with a digit.
  have hsign (m n : ℕ) : decimal m ≠ decimal (.negSucc n) := by
    rw [decimal_natCast, decimal_negSucc]
    intro h
    have hdigit := mem_numeral (h ▸ List.mem_cons_self)
    exact absurd hdigit (by decide)
  intro m n h
  cases m with
  | ofNat m =>
    cases n with
    | ofNat n =>
      rw [Int.ofNat_eq_natCast, Int.ofNat_eq_natCast, decimal_natCast, decimal_natCast] at h
      rw [digits_injective (numeral_injective h)]
    | negSucc n => exact absurd h (hsign m n)
  | negSucc m =>
    cases n with
    | ofNat n => exact absurd h.symm (hsign n m)
    | negSucc n =>
      rw [decimal_negSucc, decimal_negSucc, List.cons_inj_right] at h
      rw [Nat.succ.inj (digits_injective (numeral_injective h))]

/-- A number that is ended by a byte that is neither a digit nor a minus sign. -/
theorem prefixFreeOn_decimal {stop : UInt8} (hminus : stop ≠ '-'.toUInt8)
    (hdigit : ¬Decoder.isDigit stop) (s : Set ℤ) : PrefixFreeOn (decimal · ++ [stop]) s :=
  .terminated decimal_injective.injOn fun _ _ hmem => (mem_decimal hmem).elim hminus hdigit

namespace Bep44

/-! ## The parts of the buffer -/

/-- A salt, as it is written if there is one. -/
def saltPart (salt : Bytes) : Bytes :=
  ascii "4:salt" ++ (decimal salt.length ++ ascii ":" ++ salt)

/-- The sequence number, and what announces the value. -/
def sequencePart (sequence : ℤ) : Bytes :=
  ascii "3:seqi" ++ (decimal sequence ++ ascii "e" ++ ascii "1:v")

/-- All that comes before the value. -/
def signingHeader (p : Bytes × ℤ) : Bytes :=
  (if p.1.isEmpty then [] else saltPart p.1) ++ sequencePart p.2

theorem signingBuffer_eq (salt : Bytes) (sequence : ℤ) (bencodedValue : Bytes) :
    signingBuffer salt sequence bencodedValue =
      signingHeader (salt, sequence) ++ bencodedValue := by
  have hend : ascii "e1:v" = ascii "e" ++ ascii "1:v" := rfl
  rw [signingBuffer, signingHeader, sequencePart, saltPart, hend]
  simp only [List.append_assoc]

theorem prefixFreeOn_saltPart (s : Set Bytes) : PrefixFreeOn saltPart s := by
  have hlength : PrefixFreeOn (fun n : ℕ => decimal n ++ ascii ":") Set.univ :=
    fun m _ n _ x y h => by
      obtain ⟨hmn, hxy⟩ := prefixFreeOn_decimal (by decide) (by decide) Set.univ
        (Set.mem_univ _) (Set.mem_univ _) h
      exact ⟨Int.ofNat.inj hmn, hxy⟩
  exact (PrefixFreeOn.lengthPrefixed hlength s).prepend _

theorem prefixFreeOn_sequencePart (s : Set ℤ) : PrefixFreeOn sequencePart s :=
  ((prefixFreeOn_decimal (by decide) (by decide) s).postpend _).prepend _

/-- The header with a salt starts with a `4`, that without with a `3`. -/
theorem prefixFreeOn_signingHeader : PrefixFreeOn signingHeader Set.univ := by
  have hsalted : PrefixFreeOn signingHeader {p | p.1 ≠ []} := by
    have happend := (prefixFreeOn_saltPart Set.univ).append (prefixFreeOn_sequencePart Set.univ)
    intro p hp q hq x y h
    rw [signingHeader, signingHeader, if_neg (by simpa using hp), if_neg (by simpa using hq)] at h
    exact happend ⟨Set.mem_univ _, Set.mem_univ _⟩ ⟨Set.mem_univ _, Set.mem_univ _⟩ h
  have hunsalted : PrefixFreeOn signingHeader {p | p.1 = []} := by
    rintro ⟨_, m⟩ rfl ⟨_, n⟩ rfl x y h
    obtain ⟨rfl, hxy⟩ := prefixFreeOn_sequencePart Set.univ (Set.mem_univ m) (Set.mem_univ n) h
    exact ⟨rfl, hxy⟩
  have hunion := hsalted.union hunsalted (b := '4'.toUInt8) (c := '3'.toUInt8) (by decide) ?_ ?_
  · exact hunion.mono fun p _ => (eq_or_ne p.1 []).symm
  · intro p hp
    rw [signingHeader, if_neg (by simpa using hp)]
    rfl
  · rintro ⟨_, n⟩ rfl
    rfl

/-- What is signed determines the salt, the sequence number and the value. -/
theorem signingBuffer_eq_iff (salt₁ salt₂ : Bytes) (sequence₁ sequence₂ : ℤ)
    (value₁ value₂ : Bytes) :
    signingBuffer salt₁ sequence₁ value₁ = signingBuffer salt₂ sequence₂ value₂ ↔
      salt₁ = salt₂ ∧ sequence₁ = sequence₂ ∧ value₁ = value₂ := by
  constructor
  · intro h
    rw [signingBuffer_eq, signingBuffer_eq] at h
    obtain ⟨hheader, hvalue⟩ :=
      prefixFreeOn_signingHeader (Set.mem_univ _) (Set.mem_univ _) h
    obtain ⟨hsalt, hsequence⟩ := Prod.mk.inj hheader
    exact ⟨hsalt, hsequence, hvalue⟩
  · rintro ⟨rfl, rfl, rfl⟩
    rfl

/-- A salt that looks like what follows a salt. -/
example : signingBuffer (ascii "1:a3:seqi1e1:v") 2 (ascii "0:") ≠
    signingBuffer (ascii "1:a") 1 (ascii "3:seqi2e1:v0:") := by
  decide

end Bep44

end Dht
