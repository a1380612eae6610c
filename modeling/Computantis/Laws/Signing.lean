import Computantis.Laws.Assumptions
import Computantis.Model.Client

/-! @law signing | name:What the C client signs | family:refinement | about:Model/Client, Model/Vertex

    Both clients sign subject, data, issuer and receiver in a row. Behind them the Go client puts the
    nanoseconds in little-endian order and the two parts of the spice; the C client puts a sum of seconds and
    microseconds, from the highest byte on, copied up to its first zero, and no spice at all. So its buffer is
    shorter by sixteen bytes, whatever the fields and the time are.

        Go   subject data issuer receiver  le64 nanoseconds  le64 currency  le64 supplementary
        C    subject data issuer receiver  00 … 00

    Digest and signature are binary, and they too are copied into the transaction as strings. What stands
    behind a zero byte is lost. -/

namespace Computantis.Client

open Schemes.CString

/-- The transaction of the Go client with these fields, created at this instant, with no spice. -/
def sameFields (subject data issuerAddress receiverAddress : Bytes) (now : Timeval) : Computantis.Transaction where
  createdAt := now.instant
  issuerAddress := issuerAddress
  receiverAddress := receiverAddress
  subject := subject
  data := data
  issuerSignature := []
  receiverSignature := []
  hash := Hash.zero
  spice := ⟨0, 0⟩

section Buffer

variable (subject data issuerAddress receiverAddress : Bytes) (now : Timeval)

theorem signedBuffer_length : (signedBuffer subject data issuerAddress receiverAddress now).length =
    strlen subject + strlen data + strlen issuerAddress + strlen receiverAddress + 8 := by
  simp only [signedBuffer, List.length_append, strncpy_length]

theorem getMessage_length (t : Computantis.Transaction) : t.getMessage.length =
    t.subject.length + t.data.length + t.issuerAddress.length + t.receiverAddress.length + 24 := by
  simp only [Computantis.Transaction.getMessage, List.length_append, le64_length]

theorem signedBuffer_ne :
    signedBuffer subject data issuerAddress receiverAddress now ≠
      (sameFields subject data issuerAddress receiverAddress now).getMessage := by
  intro h
  have hlen := congrArg List.length h
  rw [signedBuffer_length, getMessage_length] at hlen
  have hsubject := strlen_le subject
  have hdata := strlen_le data
  have hissuer := strlen_le issuerAddress
  have hreceiver := strlen_le receiverAddress
  simp only [sameFields] at hlen
  omega

end Buffer

/-- A word below 2⁵⁶ has a zero byte in front, which ends its copy: no time of the next two billion years
    is signed. -/
theorem timestamp_hidden {now : Timeval} (h0 : 0 ≤ now.tvSec + now.tvUsec)
    (h : now.tvSec + now.tvUsec < 2 ^ 56) :
    strncpy (convertToCharArrayLittleEndian now.msTime) 8 = List.replicate 8 0 := by
  have hword : now.msTime.toNat < 2 ^ 56 := by
    rw [Timeval.msTime, UInt64.toNat_ofNat', Int.emod_eq_of_lt h0 (by omega)]
    omega
  have hhead : convertToCharArrayLittleEndian now.msTime =
      0 :: (convertToCharArrayLittleEndian now.msTime).tail := by
    refine List.cons_eq_cons.mpr ⟨?_, rfl⟩
    rw [← UInt8.toNat_inj]
    simp only [UInt64.toNat_toUInt8, UInt64.toNat_and, UInt64.toNat_shiftRight]
    have hzero : now.msTime.toNat / 72057594037927936 = 0 := Nat.div_eq_of_lt hword
    simp [Nat.shiftRight_eq_div_pow, hzero]
  rw [hhead, strncpy_zero_cons]

section Node

variable {subject data receiverAddress : Bytes} {s : Signer} {now : Timeval} {t : Transaction}

theorem transactionNew_hash (ht : transactionNew subject data receiverAddress s now = some t) :
    t.hash = copiedHash (s.sign (signedBuffer subject data s.address receiverAddress now)).1 := by
  simp only [transactionNew, Option.ite_none_left_eq_some, Option.some.injEq] at ht
  obtain ⟨-, -, rfl⟩ := ht
  rfl

theorem transactionNew_message (hs : 0 ∉ subject) (hd : 0 ∉ data) (hi : 0 ∉ s.address)
    (hr : 0 ∉ receiverAddress) (ht : transactionNew subject data receiverAddress s now = some t) :
    t.toNode.getMessage = (sameFields subject data s.address receiverAddress now).getMessage := by
  simp only [transactionNew, Option.ite_none_left_eq_some, Option.some.injEq] at ht
  obtain ⟨-, -, rfl⟩ := ht
  simp only [Transaction.toNode, sameFields, Computantis.Transaction.getMessage, strncpy_strlen,
    contents_of_zero_free hs, contents_of_zero_free hd, contents_of_zero_free hi, contents_of_zero_free hr]

end Node

theorem hash_of_verify {crypto : Crypto} {message signature : Bytes} {hash : Hash} {address : Address}
    (h : (Helper.verifier crypto).verify message signature hash address = true) :
    hash = crypto.sum256 message := by
  by_contra hne
  rw [Helper.verifier_verify_iff, Helper.verify, if_pos hne] at h
  cases h

/-- VERDICT: the C client never signs the bytes of the Go client, and a node takes its transaction only if
    the copied digest of its buffer happens to be the digest of the message, which is another one. -/
theorem signed_bytes_never_agree {subject data issuerAddress receiverAddress : Bytes} (hs : 0 ∉ subject)
    (hd : 0 ∉ data) (hi : 0 ∉ issuerAddress) (hr : 0 ∉ receiverAddress) (now : Timeval) :
    signedBuffer subject data issuerAddress receiverAddress now ≠
        (sameFields subject data issuerAddress receiverAddress now).getMessage ∧
      ∀ (crypto : Crypto) (w : Wallet) (t : Transaction), w.address crypto = issuerAddress →
        transactionNew subject data receiverAddress (w.signer crypto) now = some t →
        t.toNode.verifyIssuer (Helper.verifier crypto) = true →
        copiedHash (crypto.sum256 (signedBuffer subject data issuerAddress receiverAddress now)) =
          crypto.sum256 (sameFields subject data issuerAddress receiverAddress now).getMessage := by
  refine ⟨signedBuffer_ne subject data issuerAddress receiverAddress now, ?_⟩
  rintro crypto w t rfl ht hv
  have hdigest := hash_of_verify hv
  rw [transactionNew_message hs hd hi hr ht] at hdigest
  exact (transactionNew_hash ht).symm.trans hdigest

/-- A transaction issued a little after the turn of the millennium: the buffers differ, and the node refuses
    what the client has made of it. -/
theorem greeting_refused :
    signedBuffer [104, 105] [121, 111] (List.replicate 64 7) (Transparent.wallet 8) ⟨10 ^ 9, 500⟩ ≠
        (sameFields [104, 105] [121, 111] (List.replicate 64 7) (Transparent.wallet 8) ⟨10 ^ 9, 500⟩).getMessage ∧
      ∃ t, transactionNew [104, 105] [121, 111] (Transparent.wallet 8)
          (Transparent.signer (List.replicate 64 7)) ⟨10 ^ 9, 500⟩ = some t ∧
        t.toNode.verifyIssuer Transparent.verifier = false :=
  ⟨signedBuffer_ne _ _ _ _ _, _, rfl, by decide +kernel⟩

/-- A digest without a zero byte. -/
def fives (_ : Bytes) : Hash := ⟨List.replicate 32 5, rfl⟩

/-- Primitives with one digest for all messages, one signature for all keys, and strings without zero bytes. -/
def uniformCrypto : Crypto where
  sum256 := fives
  sign _ _ := List.replicate 64 9
  verify _ _ signature := decide (signature = List.replicate 64 9)
  base58Encode b := b.map (· + 1)
  base58Decode b := some (b.map (· - 1))

def uniformWallet : Wallet := ⟨[], List.replicate 32 7⟩

/-- The buffers differ; where their digests are the same by a collision, the node takes the transaction. -/
theorem greeting_bytes_differ :
    let address := uniformWallet.address uniformCrypto
    signedBuffer [104, 105] [121, 111] address (Transparent.wallet 8) ⟨10 ^ 9, 500⟩ ≠
        (sameFields [104, 105] [121, 111] address (Transparent.wallet 8) ⟨10 ^ 9, 500⟩).getMessage ∧
      ∃ t, transactionNew [104, 105] [121, 111] (Transparent.wallet 8) (uniformWallet.signer uniformCrypto)
          ⟨10 ^ 9, 500⟩ = some t ∧
        t.toNode.verifyIssuer (Helper.verifier uniformCrypto) = true ∧
        copiedHash (uniformCrypto.sum256 (signedBuffer [104, 105] [121, 111] address (Transparent.wallet 8)
            ⟨10 ^ 9, 500⟩)) =
          uniformCrypto.sum256 (sameFields [104, 105] [121, 111] address (Transparent.wallet 8)
            ⟨10 ^ 9, 500⟩).getMessage := by
  intro address
  obtain ⟨hne, hdigest⟩ := @signed_bytes_never_agree [104, 105] [121, 111] address (Transparent.wallet 8) (by decide)
    (by decide) (by decide +kernel) (by decide) ⟨10 ^ 9, 500⟩
  obtain ⟨t, ht, hv⟩ : ∃ t, transactionNew [104, 105] [121, 111] (Transparent.wallet 8)
      (uniformWallet.signer uniformCrypto) ⟨10 ^ 9, 500⟩ = some t ∧
      t.toNode.verifyIssuer (Helper.verifier uniformCrypto) = true := ⟨_, rfl, by decide +kernel⟩
  exact ⟨hne, t, ht, hv, hdigest uniformCrypto uniformWallet t rfl ht hv⟩

/-! ### What the transaction carries -/

/-- `Signer_sign` returns the digest of the message and a signature of it that the key accepts. -/
structure SignsFor (crypto : Crypto) (pkey : Bytes) (s : Signer) : Prop where
  digest : ∀ msg, (s.sign msg).1 = crypto.sum256 msg
  accepts : ∀ msg, crypto.verify pkey (s.sign msg).1.bytes (s.sign msg).2 = true

theorem digestCmp_iff (h k : Hash) : digestCmp h.bytes k.bytes = true ↔ h = k := by
  constructor
  · intro hcmp
    rw [digestCmp, List.all_eq_true] at hcmp
    refine Hash.bytes_inj.mp (List.ext_getElem (h.len.trans k.len.symm) fun i hi hi' => ?_)
    have hbyte := hcmp i (List.mem_range.mpr (by rwa [h.len] at hi))
    rwa [List.getD_eq_getElem?_getD, List.getD_eq_getElem?_getD, List.getElem?_eq_getElem hi,
      List.getElem?_eq_getElem hi', Option.getD_some, Option.getD_some, beq_iff_eq] at hbyte
  · rintro rfl
    simp [digestCmp]

section Carried

variable {crypto : Crypto} {pkey : Bytes} {s : Signer} {subject data receiverAddress : Bytes} {now : Timeval}
  {t : Transaction}

/-- SPEC: a signature verifies for a message when the digest is that of the message and the key accepts. -/
theorem signatureVerify_iff {hash : Hash} {signature msg : Bytes} (hsig : signature ≠ []) (hmsg : msg ≠ []) :
    signatureVerify crypto ⟨hash.bytes, signature⟩ pkey msg msg.length = some true ↔
      crypto.sum256 msg = hash ∧ crypto.verify pkey hash.bytes signature = true := by
  have hlen : ¬ msg.length ≤ 0 := by rwa [Nat.le_zero, List.length_eq_zero_iff]
  have hdigest : hash.bytes ≠ [] := by
    rw [← List.length_pos_iff, hash.len]
    decide
  simp only [signatureVerify, List.length_eq_zero_iff, hsig, hdigest, hmsg, if_false, if_neg hlen,
    List.take_length]
  split
  next hcmp => simp [← digestCmp_iff, hcmp]
  next hcmp =>
    rw [Bool.not_eq_false, digestCmp_iff] at hcmp
    simp [hcmp]

/-- The transaction carries the digest and the signature of the buffer as they were returned, and they verify
    for it. -/
structure CarriesSigned (crypto : Crypto) (pkey : Bytes) (s : Signer) (buffer : Bytes) (t : Transaction) :
    Prop where
  hash : t.hash = (s.sign buffer).1
  signature : t.issuerSignature = (s.sign buffer).2
  verifies : signatureVerify crypto ⟨t.hash.bytes, t.issuerSignature⟩ pkey buffer buffer.length = some true

theorem copiedHash_eq_iff (h : Hash) : copiedHash h = h ↔ ZerosLast h.bytes := by
  have hself := strncpy_eq_self_iff h.bytes
  rw [h.len] at hself
  rw [← Hash.bytes_inj, copiedHash, hself]

theorem copiedSignature_eq_iff {signature : Bytes} (hlen : signature.length = signatureLen) :
    strncpy signature signatureLen = signature ↔ ZerosLast signature := by
  rw [← strncpy_eq_self_iff, hlen]

theorem transactionNew_signature (ht : transactionNew subject data receiverAddress s now = some t) :
    (s.sign (signedBuffer subject data s.address receiverAddress now)).2.length = signatureLen ∧
      t.issuerSignature =
        strncpy (s.sign (signedBuffer subject data s.address receiverAddress now)).2 signatureLen := by
  simp only [transactionNew, Option.ite_none_left_eq_some, Option.some.injEq, ne_eq, not_not] at ht
  obtain ⟨-, hlen, rfl⟩ := ht
  exact ⟨hlen, rfl⟩

end Carried

/-- VERDICT: the transaction carries what was signed exactly when in the digest and in the signature nothing
    but zeros follows the first zero byte. -/
theorem carries_signed_iff {crypto : Crypto} {pkey : Bytes} {s : Signer} (hs : SignsFor crypto pkey s)
    {subject data receiverAddress : Bytes} {now : Timeval} {t : Transaction}
    (ht : transactionNew subject data receiverAddress s now = some t) :
    CarriesSigned crypto pkey s (signedBuffer subject data s.address receiverAddress now) t ↔
      ZerosLast (s.sign (signedBuffer subject data s.address receiverAddress now)).1.bytes ∧
        ZerosLast (s.sign (signedBuffer subject data s.address receiverAddress now)).2 := by
  have hbuffer : signedBuffer subject data s.address receiverAddress now ≠ [] := by
    rw [← List.length_pos_iff, signedBuffer_length]
    omega
  have hhash := transactionNew_hash ht
  obtain ⟨hlen, hsignature⟩ := transactionNew_signature ht
  rw [← copiedHash_eq_iff, ← copiedSignature_eq_iff hlen, ← hhash, ← hsignature]
  constructor
  · intro h
    exact ⟨h.hash, h.signature⟩
  · rintro ⟨hh, hsig⟩
    refine ⟨hh, hsig, ?_⟩
    have hne : t.issuerSignature ≠ [] := by
      rw [hsig, ← List.length_pos_iff, hlen]
      decide
    refine (signatureVerify_iff hne hbuffer).mpr ⟨?_, ?_⟩
    · rw [hh, hs.digest]
    · rw [hh, hsig]
      exact hs.accepts _

/-! ### Bytes behind a zero -/

/-- Any digest, and keys that accept one signature each, whatever is signed. -/
def sampleCrypto (digest : Bytes → Hash) : Crypto where
  sum256 := digest
  sign privateKey _ := privateKey
  verify publicKey _ signature := decide (signature = publicKey)
  base58Encode b := b
  base58Decode b := some b

/-- A signer with an address of one character. -/
def sampleSigner (digest : Bytes → Hash) (signature : Bytes) : Signer := ⟨fun msg => (digest msg, signature), [49]⟩

theorem sampleSigner_signs (digest : Bytes → Hash) (signature : Bytes) :
    SignsFor (sampleCrypto digest) signature (sampleSigner digest signature) where
  digest _ := rfl
  accepts _ := decide_eq_true rfl

/-- A greeting as it is signed and sent. -/
def greetingBuffer : Bytes := signedBuffer [104, 105] [121, 111] [49] (Transparent.wallet 8) ⟨10 ^ 9, 500⟩

def greeting (digest : Bytes → Hash) (signature : Bytes) : Option Transaction :=
  transactionNew [104, 105] [121, 111] (Transparent.wallet 8) (sampleSigner digest signature) ⟨10 ^ 9, 500⟩

/-- BUG: the bytes behind a zero in the digest, or in the signature, are missing from the transaction, and what
    it carries does not verify. -/
theorem bytes_behind_zero_lost :
    (∃ t, greeting Transparent.digest (List.replicate 64 7) = some t ∧ t.hash ≠ Transparent.digest greetingBuffer ∧
      signatureVerify (sampleCrypto Transparent.digest) ⟨t.hash.bytes, t.issuerSignature⟩ (List.replicate 64 7)
        greetingBuffer greetingBuffer.length = some false) ∧
    ∃ t, greeting fives (7 :: 0 :: List.replicate 62 7) = some t ∧
      t.issuerSignature = 7 :: List.replicate 63 0 ∧
      signatureVerify (sampleCrypto fives) ⟨t.hash.bytes, t.issuerSignature⟩ (7 :: 0 :: List.replicate 62 7)
        greetingBuffer greetingBuffer.length = some false := by
  refine ⟨⟨_, rfl, ?_⟩, ⟨_, rfl, ?_⟩⟩
  · decide +kernel
  · decide +kernel

/-- Without zero bytes everything comes through. -/
theorem zero_free_signature_carried : ∃ t, greeting fives (List.replicate 64 7) = some t ∧
    CarriesSigned (sampleCrypto fives) (List.replicate 64 7) (sampleSigner fives (List.replicate 64 7))
      greetingBuffer t :=
  ⟨_, rfl, (carries_signed_iff (sampleSigner_signs fives (List.replicate 64 7)) rfl).mpr
    ⟨by decide +kernel, by decide +kernel⟩⟩

end Computantis.Client
