import DhtCore.PortMapper.Basic

/-!
# Renewals

A mapping is to be renewed at half its lifetime, before it lapses. The time until then is
counted in milliseconds by an `int`, and is 30 seconds at least: the mapping is renewed in
time if it stands for more than 30 seconds, and the milliseconds do not overflow into the
negative (`inTime_mapped_iff`).
-/

namespace Dht

namespace PortMapper

/-- The renewal timer runs, and fires before a mapping granted now has lapsed. -/
def InTime (m : PortMapper) (lifetime : UInt32) : Prop :=
  ∃ interval, m.renewTimer = some interval ∧ 0 < interval ∧ interval < 2 ^ 31 ∧
    interval < 1000 * lifetime.toNat

theorem renewTimer_mapped (m : PortMapper) (externalPort : UInt16) (lifetime : UInt32)
    (externalAddress : HostAddress) :
    (m.mapped externalPort lifetime externalAddress).renewTimer = some (renewDelay lifetime) := rfl

theorem inTime_iff {m : PortMapper} {lifetime : UInt32} {interval : ℤ}
    (h : m.renewTimer = some interval) : m.InTime lifetime ↔
      0 < interval ∧ interval < 2 ^ 31 ∧ interval < 1000 * lifetime.toNat := by
  constructor
  · rintro ⟨other, hother, hlt⟩
    obtain rfl : interval = other := Option.some.inj (h.symm.trans hother)
    exact hlt
  · exact fun hlt => ⟨interval, h, hlt⟩

theorem toInt32_pos_iff (k : ℕ) :
    0 < toInt32 k ↔ k / 2 ^ 31 % 2 = 0 ∧ k % 2 ^ 32 ≠ 0 := by
  rw [toInt32, Int.bmod_def]
  split_ifs <;> omega

theorem toInt32_lt (n : ℤ) : toInt32 n < 2 ^ 31 := by
  rw [toInt32, Int.bmod_def]
  split_ifs <;> omega

theorem toInt32_le {n : ℤ} (h : 0 ≤ n) : toInt32 n ≤ n := by
  rw [toInt32, Int.bmod_def]
  split_ifs <;> omega

/-- What is no multiple of 2²⁹ seconds has milliseconds that do not vanish as an `int`. -/
theorem millis_mod_ne_zero_iff (n : ℕ) : 1000 * n % 2 ^ 32 ≠ 0 ↔ ¬2 ^ 29 ∣ n := by
  have hn : 1000 * n = 8 * (125 * n) := by omega
  have hcoprime : Nat.Coprime (2 ^ 29) 125 := by norm_num
  rw [Ne, ← Nat.dvd_iff_mod_eq_zero, hn, show 2 ^ 32 = 8 * 2 ^ 29 from rfl,
    Nat.mul_dvd_mul_iff_left (by decide), hcoprime.dvd_mul_left]

/-- A mapping is renewed in time if it stands for more than the 30 seconds that are waited
    at least, and an even number of times 2³¹ ms fits into half its lifetime, which is no
    multiple of 2²⁹ s. -/
theorem inTime_mapped_iff (m : PortMapper) (externalPort : UInt16) (lifetime : UInt32)
    (externalAddress : HostAddress) (h : lifetime ≠ 0) :
    (m.mapped externalPort lifetime externalAddress).InTime lifetime ↔
      31 ≤ lifetime.toNat ∧ 1000 * (lifetime.toNat / 2) / 2 ^ 31 % 2 = 0 ∧
        ¬2 ^ 29 ∣ lifetime.toNat / 2 := by
  rw [inTime_iff (renewTimer_mapped m externalPort lifetime externalAddress), renewDelay, if_neg h]
  rcases Nat.lt_or_ge lifetime.toNat 60 with hshort | hlong
  · -- Thirty seconds are waited.
    have hmax : max 30 (lifetime.toNat / 2) = 30 := by omega
    have hexact : toInt32 ((30 : ℕ) * 1000) = 30000 := by decide
    have hzero : 1000 * (lifetime.toNat / 2) / 2 ^ 31 = 0 := Nat.div_eq_of_lt (by omega)
    rw [hmax, hexact, hzero]
    omega
  · -- Half the lifetime is waited, or what is left of it.
    have hmax : max 30 (lifetime.toNat / 2) = lifetime.toNat / 2 := by omega
    have hcast : ((lifetime.toNat / 2 : ℕ) : ℤ) * 1000 =
        (1000 * (lifetime.toNat / 2) : ℕ) := by push_cast; ring
    rw [hmax, hcast, toInt32_pos_iff, millis_mod_ne_zero_iff]
    have hlt := toInt32_lt (1000 * (lifetime.toNat / 2) : ℕ)
    have hle : toInt32 (1000 * (lifetime.toNat / 2) : ℕ) ≤ (1000 * (lifetime.toNat / 2) : ℕ) :=
      toInt32_le (Nat.cast_nonneg _)
    constructor
    · rintro ⟨hpos, -, -⟩
      exact ⟨by omega, hpos⟩
    · rintro ⟨-, hpos⟩
      exact ⟨hpos, hlt, by omega⟩

/-- A lifetime of an hour, as it is asked for. -/
theorem inTime_mapped_hour : (mapped {} 6881 3600 .null).InTime 3600 :=
  (inTime_mapped_iff {} 6881 3600 .null (by decide)).2 (by decide)

/-- A mapping for 30 seconds lapses when it is renewed, and one for ever, as gateways grant
    it, is not renewed at all: its timer is started with a negative time. -/
theorem not_inTime_mapped : ¬(mapped {} 6881 30 .null).InTime 30 ∧
    (mapped {} 6881 0xffffffff .null).renewTimer = some (-1000) ∧
    ¬(mapped {} 6881 0xffffffff .null).InTime 0xffffffff := by
  have hshort : renewDelay 30 = 30000 := by decide
  have hlong : renewDelay 0xffffffff = -1000 := by decide
  refine ⟨?_, congrArg some hlong, ?_⟩
  · rw [inTime_iff (renewTimer_mapped ..), hshort]
    decide
  · rw [inTime_iff (renewTimer_mapped ..), hlong]
    decide

end PortMapper

end Dht
