import Computantis.Model.Wallet

/-! @law verifying | name:Verification under any address | family:safety | about:Model/Wallet

    The checksum in an address is made from the address itself, so anybody can make one for a payload of any
    length. `AddressToPubKey` compares the checksums and returns what stands between version and checksum;
    `ed25519.Verify` panics when that is not 32 bytes long. So `Verify` is total on just the addresses whose
    payload has the right length (`WellSized`), among them those of all wallets. -/

namespace Computantis.Helper

/-- The primitives of a wallet belong together: its key has the size of `ed25519`, and the key accepts what the
    wallet signs. -/
structure Paired (crypto : Crypto) (w : Wallet) : Prop where
  keySize : w.publicKey.length = Wallet.publicKeySize
  accepts : ∀ digest, crypto.verify w.publicKey digest (crypto.sign w.privateKey digest) = true

/-- `Verify` returns for every message, signature and hash, and a key that is read from the address has the
    length that it needs. -/
structure Total (crypto : Crypto) (address : Address) : Prop where
  returns : ∀ message signature hash, verify crypto message signature hash address ≠ .error .panicked
  keySize : ∀ key, addressToPubKey crypto address = .ok key → key.length = Wallet.publicKeySize

/-- When the string stands for a version, a key and the checksum of both, the key has 32 bytes. -/
def WellSized (crypto : Crypto) (address : Address) : Prop :=
  ∀ version key, crypto.base58Decode address = some (version :: key ++ Wallet.checksum crypto (version :: key)) →
    key.length = Wallet.publicKeySize

section Verifying

variable {crypto : Crypto} {address : Address}

theorem addressToPubKey_ne_panicked : addressToPubKey crypto address ≠ .error .panicked := by
  unfold addressToPubKey
  split
  · simp
  · split
    · simp
    · dsimp only
      split <;> simp

/-- EXACT: `Verify` panics on a hash that is right, under an address with a key of the wrong length. -/
theorem verify_panics_iff {message signature : Bytes} {hash : Hash} :
    verify crypto message signature hash address = .error .panicked ↔
      hash = crypto.sum256 message ∧ ∃ key, addressToPubKey crypto address = .ok key ∧
        key.length ≠ Wallet.publicKeySize := by
  unfold verify
  cases hkey : addressToPubKey crypto address with
  | error e =>
    have hne : e ≠ .panicked := fun h => addressToPubKey_ne_panicked (hkey.trans (congrArg _ h))
    by_cases hhash : hash = crypto.sum256 message <;> simp [hhash, hne]
  | ok key =>
    by_cases hhash : hash = crypto.sum256 message
    · by_cases hsize : key.length = Wallet.publicKeySize
      · cases hverify : crypto.verify key (crypto.sum256 message).bytes signature <;> simp [hhash, hsize, hverify]
      · simp [hhash, hsize]
    · simp [hhash]

theorem wellSized_iff : WellSized crypto address ↔
    ∀ key, addressToPubKey crypto address = .ok key → key.length = Wallet.publicKeySize := by
  simp only [WellSized, addressToPubKey_ok_iff, forall_exists_index]
  exact forall_comm

theorem total_iff : Total crypto address ↔ WellSized crypto address := by
  rw [wellSized_iff]
  constructor
  · intro h
    exact h.keySize
  · intro hsize
    refine ⟨?_, hsize⟩
    intro message signature hash hpanic
    obtain ⟨-, key, hkey, hne⟩ := verify_panics_iff.mp hpanic
    exact hne (hsize key hkey)

theorem forged_address_panics (hbase : ∀ b, crypto.base58Decode (crypto.base58Encode b) = some b)
    {version : UInt8} {key : Bytes} (hkey : key.length ≠ Wallet.publicKeySize) (message signature : Bytes) :
    verify crypto message signature (crypto.sum256 message)
      (crypto.base58Encode (version :: key ++ Wallet.checksum crypto (version :: key))) = .error .panicked :=
  verify_panics_iff.mpr ⟨rfl, key, addressToPubKey_ok_iff.mpr ⟨version, hbase _⟩, hkey⟩

theorem Paired.verify_sign {w : Wallet} (hw : Paired crypto w)
    (hbase : ∀ b, crypto.base58Decode (crypto.base58Encode b) = some b) (message : Bytes) :
    verify crypto message (w.sign crypto message).2 (w.sign crypto message).1 (w.address crypto) = .ok () := by
  simp [verify, Wallet.sign, w.addressToPubKey_address hbase, hw.keySize, hw.accepts]

/-- VERDICT: verification is total under just the addresses whose payload has the right length, and works for
    every wallet. -/
theorem verify_total_iff (hbase : ∀ b, crypto.base58Decode (crypto.base58Encode b) = some b) :
    (∀ address, Total crypto address ↔ WellSized crypto address) ∧
      ∀ w, Paired crypto w → addressToPubKey crypto (w.address crypto) = .ok w.publicKey ∧
        ∀ message, verify crypto message (w.sign crypto message).2 (w.sign crypto message).1
          (w.address crypto) = .ok () := by
  refine ⟨fun address => total_iff, ?_⟩
  intro w hw
  exact ⟨w.addressToPubKey_address hbase, hw.verify_sign hbase⟩

end Verifying

/-! ### A forged address -/

/-- Digests that show the length of a message, keys that sign with themselves, and addresses in plain bytes. -/
def bareCrypto : Crypto where
  sum256 message := ⟨UInt8.ofNat message.length :: List.replicate 31 0, by simp⟩
  sign privateKey digest := privateKey ++ digest
  verify publicKey digest signature := decide (signature = publicKey ++ digest)
  base58Encode b := b
  base58Decode b := some b

theorem bareCrypto_base58 (b : Bytes) : bareCrypto.base58Decode (bareCrypto.base58Encode b) = some b := rfl

/-- The address with the empty key: a version and its checksum. -/
theorem empty_key_panics :
    verify bareCrypto [1, 2, 3] [] (bareCrypto.sum256 [1, 2, 3]) (0 :: Wallet.checksum bareCrypto [0]) =
        .error .panicked ∧
      ¬ Total bareCrypto (0 :: Wallet.checksum bareCrypto [0]) := by
  have hkey : ([] : Bytes).length ≠ Wallet.publicKeySize := by decide
  have hpanic := @forged_address_panics _ bareCrypto_base58 0 _ hkey [1, 2, 3] []
  exact ⟨hpanic, fun h => h.returns _ _ _ hpanic⟩

/-- Under the address of a wallet nothing panics. -/
theorem wallet_address_total :
    let w : Wallet := ⟨List.replicate 32 7, List.replicate 32 7⟩
    Total bareCrypto (w.address bareCrypto) ∧
      addressToPubKey bareCrypto (w.address bareCrypto) = .ok (List.replicate 32 7) := by
  intro w
  obtain ⟨htotal, hwallet⟩ := verify_total_iff bareCrypto_base58
  have hkey := (hwallet w ⟨rfl, fun digest => by simp [bareCrypto, w]⟩).1
  refine ⟨(htotal _).mpr (wellSized_iff.mpr ?_), hkey⟩
  intro key h
  rw [hkey] at h
  cases h
  rfl

end Computantis.Helper
