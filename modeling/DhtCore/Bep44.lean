import DhtCore.Bencode

/-!
# Stored items

The limits, targets and signatures of BEP 44. SHA-1 and Ed25519 are given
(`Crypto`); a target is a hash of bytes as they were sent.
-/

namespace Dht

/-- The cryptographic functions, which come from libraries. -/
structure Crypto where
  /-- `QCryptographicHash` with SHA-1. -/
  sha1 : Bytes → NodeId
  /-- `crypto_ed25519_check`: a signature, a message, and a public key. -/
  ed25519Check : Bytes → Bytes → Bytes → Bool

namespace Bep44

/-- The bytes of a value that may be stored, encoded. -/
def MaxValueBytes : ℕ := 1000

/-- The bytes of a salt. -/
def MaxSaltBytes : ℕ := 64

/-- The bytes of a public key of Ed25519. -/
def PublicKeyBytes : ℕ := 32

/-- The bytes of a signature of Ed25519. -/
def SignatureBytes : ℕ := 64

/-- How long an item is kept that is not put again, in milliseconds. -/
def ItemTtlMs : ℤ := 2 * 60 * 60 * 1000

/-- The error for a value that is too big. -/
def MessageTooBig : ℤ := 205

/-- The error for a signature that does not verify. -/
def InvalidSignature : ℤ := 206

/-- The error for a salt that is too long. -/
def SaltTooLong : ℤ := 207

/-- The error for another sequence number than the one stored. -/
def CasMismatch : ℤ := 301

/-- The error for a sequence number lower than the one stored. -/
def SequenceTooLow : ℤ := 302

variable (crypto : Crypto)

/-- The target of an immutable item: the hash of its value. -/
def immutableTarget (bencodedValue : Bytes) : NodeId := crypto.sha1 bencodedValue

/-- The target of a mutable item: the hash of its public key and its salt. -/
def mutableTarget (publicKey salt : Bytes) : NodeId := crypto.sha1 (publicKey ++ salt)

/-- What the signature of a mutable item covers. -/
def signingBuffer (salt : Bytes) (sequence : ℤ) (bencodedValue : Bytes) : Bytes :=
  (if salt.isEmpty then [] else ascii "4:salt" ++ decimal salt.length ++ ascii ":" ++ salt) ++
    ascii "3:seqi" ++ decimal sequence ++ ascii "e1:v" ++ bencodedValue

/-- Whether a signature is valid, if there is an implementation to tell. -/
def verify (signature message publicKey : Bytes) : Option Bool :=
  if signature.length ≠ SignatureBytes ∨ publicKey.length ≠ PublicKeyBytes then some false
  else some (crypto.ed25519Check signature message publicKey)

end Bep44

end Dht
