import Computantis.Model.Vertex

/-! @model wallet | name:Wallets and the verifier | family:data |
    source:src/wallet/wallet.go, src/wallet/verifier.go

    A wallet signs the digest of a message with its private key; its address is its public key with a
    version in front and a checksum behind, in base 58. `Helper` checks a signature from the address
    alone. The primitives come from outside and are a parameter (`Crypto`). -/

namespace Computantis

/-- The primitives of `crypto/sha256`, `crypto/ed25519` and the base-58 package. -/
structure Crypto where
  sum256 : Bytes → Hash
  sign : (privateKey digest : Bytes) → Bytes
  verify : (publicKey digest signature : Bytes) → Bool
  base58Encode : Bytes → Bytes
  base58Decode : Bytes → Option Bytes

structure Wallet where
  privateKey : Bytes
  publicKey : Bytes

namespace Wallet

def checksumLength : ℕ := 4
def version : UInt8 := 0

/-- `ed25519.PublicKeySize`. -/
def publicKeySize : ℕ := 32

def checksum (crypto : Crypto) (payload : Bytes) : Bytes :=
  let firstHash := crypto.sum256 payload
  let secondHash := crypto.sum256 firstHash.bytes
  secondHash.bytes.take checksumLength

def address (crypto : Crypto) (w : Wallet) : Address :=
  let vers := version :: w.publicKey
  let cs := checksum crypto vers
  crypto.base58Encode (vers ++ cs)

def sign (crypto : Crypto) (w : Wallet) (message : Bytes) : Hash × Bytes :=
  let digest := crypto.sum256 message
  (digest, crypto.sign w.privateKey digest.bytes)

/-- The wallet as a `Signer`. -/
def signer (crypto : Crypto) (w : Wallet) : Signer := ⟨w.sign crypto, w.address crypto⟩

end Wallet

namespace Helper

inductive HelperError where
  | hashCorrupted
  | base58
  | addressLength
  | checksumNotEqual
  | signatureNotValid
  /-- `ed25519.Verify` panics on a key of another size. -/
  | panicked
  deriving DecidableEq, Repr

def addressToPubKey (crypto : Crypto) (address : Address) : Except HelperError Bytes :=
  match crypto.base58Decode address with
  | none => .error .base58
  | some decoded =>
    if decoded.length < Wallet.checksumLength + 1 then .error .addressLength
    else
      let actualChecksum := decoded.drop (decoded.length - Wallet.checksumLength)
      let versioned := decoded.take (decoded.length - Wallet.checksumLength)
      if actualChecksum = Wallet.checksum crypto versioned then .ok versioned.tail
      else .error .checksumNotEqual

def verify (crypto : Crypto) (message signature : Bytes) (hash : Hash) (address : Address) :
    Except HelperError Unit :=
  let digest := crypto.sum256 message
  if hash ≠ digest then .error .hashCorrupted
  else match addressToPubKey crypto address with
    | .error e => .error e
    | .ok pubKey =>
      if pubKey.length ≠ Wallet.publicKeySize then .error .panicked
      else if crypto.verify pubKey digest.bytes signature then .ok ()
      else .error .signatureNotValid

/-- The helper as a `Verifier`. -/
def verifier (crypto : Crypto) : Verifier where
  check message signature hash address :=
    match verify crypto message signature hash address with
    | .ok () => .accepted
    | .error .panicked => .panicked
    | .error _ => .refused

end Helper

/-- What is taken of the primitives: base 58 is read back, and a key pair verifies what it signed and
    nothing else. -/
structure Crypto.Matching (crypto : Crypto) (w : Wallet) : Prop where
  base58 : ∀ b, crypto.base58Decode (crypto.base58Encode b) = some b
  keySize : w.publicKey.length = Wallet.publicKeySize
  signs : ∀ digest signature, crypto.verify w.publicKey digest signature = true ↔
    signature = crypto.sign w.privateKey digest

theorem Wallet.checksum_length (crypto : Crypto) (payload : Bytes) :
    (Wallet.checksum crypto payload).length = Wallet.checksumLength := by
  simp [checksum, checksumLength, Hash.len]

variable {crypto : Crypto}

theorem Helper.addressToPubKey_ok_iff {address : Address} {key : Bytes} :
    addressToPubKey crypto address = .ok key ↔ ∃ version,
      crypto.base58Decode address = some (version :: key ++ Wallet.checksum crypto (version :: key)) := by
  unfold addressToPubKey
  cases crypto.base58Decode address with
  | none => simp
  | some decoded =>
    simp only [Option.some.injEq]
    constructor
    · intro h
      split at h
      · cases h
      next hlong =>
        split at h
        next hsum =>
          cases h
          cases decoded with
          | nil => simp [Wallet.checksumLength] at hlong
          | cons version rest =>
            refine ⟨version, ?_⟩
            -- the version is the head of what stands before the checksum
            obtain ⟨n, hn⟩ : ∃ n, (version :: rest).length - Wallet.checksumLength = n + 1 :=
              ⟨(version :: rest).length - Wallet.checksumLength - 1, by omega⟩
            rw [hn, List.take_succ_cons, List.tail_cons, ← List.take_succ_cons, ← hn, ← hsum,
              List.take_append_drop]
        · cases h
    · rintro ⟨version, rfl⟩
      have hlen := Wallet.checksum_length crypto (version :: key)
      rw [List.length_append, hlen, Nat.add_sub_cancel, List.take_left, List.drop_left, if_pos rfl,
        if_neg (by rw [List.length_cons]; omega), List.tail_cons]

theorem Wallet.addressToPubKey_address (hbase : ∀ b, crypto.base58Decode (crypto.base58Encode b) = some b)
    (w : Wallet) :
    Helper.addressToPubKey crypto (w.address crypto) = .ok w.publicKey :=
  Helper.addressToPubKey_ok_iff.mpr ⟨Wallet.version, hbase _⟩

theorem Crypto.Matching.addressToPubKey {w : Wallet} (h : crypto.Matching w) :
    Helper.addressToPubKey crypto (w.address crypto) = .ok w.publicKey := w.addressToPubKey_address h.base58

section Verifier

variable {crypto : Crypto} {message signature : Bytes} {hash : Hash} {address : Address}

theorem Helper.verifier_verify_iff : (verifier crypto).verify message signature hash address = true ↔
    verify crypto message signature hash address = .ok () := by
  rw [Verifier.verify_iff, verifier]
  simp only
  split
  next h => simp [h]
  next h => simp [h]
  next h => simp [h]

theorem Helper.verifier_panics_iff : (verifier crypto).check message signature hash address = .panicked ↔
    verify crypto message signature hash address = .error .panicked := by
  rw [verifier]
  simp only
  split
  next h => simp [h]
  next h => simp [h]
  next hne h => simpa [h] using hne

end Verifier

theorem Crypto.Matching.verify_iff {w : Wallet} (h : crypto.Matching w) (message signature : Bytes) (hash : Hash) :
    (Helper.verifier crypto).verify message signature hash (w.address crypto) = true ↔
      (hash, signature) = w.sign crypto message := by
  rw [Helper.verifier_verify_iff]
  simp only [Helper.verify, h.addressToPubKey, h.keySize, ne_eq, not_true_eq_false, if_false, Wallet.sign,
    Prod.mk.injEq]
  by_cases hd : hash = crypto.sum256 message
  · rw [if_neg (not_not.mpr hd), ← h.signs]
    cases hv : crypto.verify w.publicKey (crypto.sum256 message).bytes signature <;> simp [hd]
  · simp [hd]

end Computantis
