import Computantis.Model.Spice

/-! @model vertex | name:Transactions and vertices | family:data |
    source:src/transaction/transaction.go, src/accountant/vertex.go

    A transaction moves spice or carries data; a vertex seals one transaction together with the
    hashes of its two parents, its creation time and its weight. Signing and verifying go through
    the two interfaces the accountant is built with (`Signer`, `Verifier`). -/

namespace Computantis

/-- A Go string or byte slice. -/
abbrev Bytes := List UInt8

instance instLawfulBEqBytes : LawfulBEq Bytes := inferInstance

abbrev Address := Bytes

/-- Nanoseconds since the Unix epoch. -/
abbrev Time := ℤ

/-- A `[32]byte`. -/
structure Hash where
  bytes : Bytes
  len : bytes.length = 32
  deriving DecidableEq

/-- The zero value `[32]byte{}`. -/
def Hash.zero : Hash := ⟨List.replicate 32 0, rfl⟩

theorem Hash.bytes_inj {h k : Hash} : h.bytes = k.bytes ↔ h = k := by
  cases h; cases k; simp

/-- `binary.LittleEndian.PutUint64`. -/
def le64 (x : UInt64) : Bytes :=
  (List.range 8).map fun i => UInt8.ofNat (x.toNat / 256 ^ i)

theorem mod_pow_of_bytes {a b : ℕ} : ∀ {n : ℕ}, (∀ i < n, a / 256 ^ i % 256 = b / 256 ^ i % 256) →
    a % 256 ^ n = b % 256 ^ n
  | 0, _ => by simp [Nat.mod_one]
  | n + 1, h => by
      rw [Nat.mod_pow_succ, Nat.mod_pow_succ, mod_pow_of_bytes fun i hi => h i (by omega), h n (by omega)]

theorem le64_injective {x y : UInt64} (h : le64 x = le64 y) : x = y := by
  have hbyte : ∀ i < 8, x.toNat / 256 ^ i % 256 = y.toNat / 256 ^ i % 256 := by
    intro i hi
    have := congrArg UInt8.toNat (List.map_inj_left.mp h i (List.mem_range.mpr hi))
    simpa using this
  have hmod := mod_pow_of_bytes hbyte
  rw [Nat.mod_eq_of_lt (x.toNat_lt.trans_eq (by norm_num)),
    Nat.mod_eq_of_lt (y.toNat_lt.trans_eq (by norm_num))] at hmod
  exact UInt64.toNat_inj.mp hmod

@[simp] theorem le64_length (x : UInt64) : (le64 x).length = 8 := by simp [le64]

/-- `uint64(t.UnixNano())`. -/
def unixNano (t : Time) : UInt64 := UInt64.ofNat (t % 2 ^ 64).toNat

/-- `time.Unix(0, int64(n))`: the word is read in two's complement. -/
def timeOfNano (n : UInt64) : Time := if n.toNat < 2 ^ 63 then n.toNat else (n.toNat : ℤ) - 2 ^ 64

/-- `t.Unix()`: whole seconds, rounded down. -/
def unixSeconds (t : Time) : ℤ := t / 10 ^ 9

/-- `t.IsZero()`: the first second of the year 1. -/
def Time.isZero (t : Time) : Bool := decide (t = -62135596800 * 10 ^ 9)

variable {t : ℤ} {message signature : Bytes} {address : Address}

theorem timeOfNano_unixNano (h0 : 0 ≤ t) (h : t < 2 ^ 63) : timeOfNano (unixNano t) = t := by
  have hn : (unixNano t).toNat = t.toNat := by
    rw [unixNano, UInt64.toNat_ofNat_of_lt' (by simp only [UInt64.size]; omega),
      Int.emod_eq_of_lt h0 (by omega)]
  rw [timeOfNano, hn, if_pos (by omega)]
  exact Int.toNat_of_nonneg h0

theorem Time.isZero_of_pos (h : 0 < t) : Time.isZero t = false := by
  simp only [Time.isZero, decide_eq_false_iff_not]
  rintro rfl
  exact absurd h (by decide)

theorem unixNano_ne_zero (h0 : 0 < t) (h : t < 2 ^ 63) : unixNano t ≠ 0 := by
  rintro hz
  have ht := timeOfNano_unixNano h0.le h
  rw [hz] at ht
  exact h0.ne ht

/-- How a call of `Verify` ends: with nil, with an error, or not at all, when it panics. -/
inductive Verdict where
  | accepted
  | refused
  | panicked
  deriving DecidableEq, Repr

/-- The second check is made when the first has returned nil. -/
def Verdict.andThen : Verdict → Verdict → Verdict
  | .accepted, d => d
  | .refused, _ => .refused
  | .panicked, _ => .panicked

theorem Verdict.andThen_eq_accepted_iff {d d' : Verdict} :
    d.andThen d' = .accepted ↔ d = .accepted ∧ d' = .accepted := by
  cases d <;> simp [andThen]

theorem Verdict.andThen_eq_panicked_iff {d d' : Verdict} :
    d.andThen d' = .panicked ↔ d = .panicked ∨ d = .accepted ∧ d' = .panicked := by
  cases d <;> simp [andThen]

/-- The `signatureVerifier` interface. -/
structure Verifier where
  check : (message signature : Bytes) → Hash → Address → Verdict

/-- `Verify` returns nil. -/
def Verifier.verify (v : Verifier) (message signature : Bytes) (hash : Hash) (address : Address) : Bool :=
  decide (v.check message signature hash address = .accepted)

theorem Verifier.verify_iff {v : Verifier} {hash : Hash} :
    v.verify message signature hash address = true ↔ v.check message signature hash address = .accepted :=
  decide_eq_true_iff

theorem Verifier.check_ne_panicked {v : Verifier} {hash : Hash} (h : v.verify message signature hash address = true) :
    v.check message signature hash address ≠ .panicked := by
  rw [verify_iff.mp h]
  exact Verdict.noConfusion

/-- The `Signer` interface. -/
structure Signer where
  sign : Bytes → Hash × Bytes
  address : Address

/-- The signed content of a transaction, its hash and its signatures. -/
structure Transaction where
  createdAt : Time
  issuerAddress : Address
  receiverAddress : Address
  subject : Bytes
  data : Bytes
  issuerSignature : Bytes
  receiverSignature : Bytes
  hash : Hash
  spice : Melange
  deriving DecidableEq

namespace Transaction

/-- The address is a party of the transaction. -/
def Concerns (t : Transaction) (a : Address) : Prop := t.issuerAddress = a ∨ t.receiverAddress = a

instance (t : Transaction) (a : Address) : Decidable (t.Concerns a) := inferInstanceAs (Decidable (_ ∨ _))

/-- The zero value. -/
def zero : Transaction := ⟨-62135596800 * 10 ^ 9, [], [], [], [], [], [], Hash.zero, ⟨0, 0⟩⟩

def minAddressLength : ℕ := 49

/-- The message that issuer and receiver sign. -/
def getMessage (t : Transaction) : Bytes :=
  t.subject ++ t.data ++ t.issuerAddress ++ t.receiverAddress ++ le64 (unixNano t.createdAt) ++
    le64 t.spice.currency ++ le64 t.spice.supplementaryCurrency

/-- `transaction.New`, at time `now`. -/
def new (subject : Bytes) (spice : Melange) (data : Bytes) (receiverAddress : Address)
    (issuer : Signer) (now : Time) : Option Transaction :=
  if subject.length = 0 then none
  else if receiverAddress.length < minAddressLength then none
  else
    let message := subject ++ data ++ issuer.address ++ receiverAddress ++ le64 (unixNano now) ++
      le64 spice.currency ++ le64 spice.supplementaryCurrency
    let signed := issuer.sign message
    some { createdAt := now, issuerAddress := issuer.address, receiverAddress, subject, data,
           issuerSignature := signed.2, receiverSignature := [], hash := signed.1, spice }

def isContract (t : Transaction) : Bool := t.data.length != 0

def isSpiceTransfer (t : Transaction) : Bool := !t.spice.empty

def isEmpty (t : Transaction) : Bool := !t.isContract && !t.isSpiceTransfer

/-- How `VerifyIssuer` ends. -/
def checkIssuer (v : Verifier) (t : Transaction) : Verdict :=
  v.check t.getMessage t.issuerSignature t.hash t.issuerAddress

/-- How `VerifyIssuerReceiver` ends: the issuer's signature is looked at first. -/
def checkIssuerReceiver (v : Verifier) (t : Transaction) : Verdict :=
  (v.check t.getMessage t.issuerSignature t.hash t.issuerAddress).andThen
    (v.check t.getMessage t.receiverSignature t.hash t.receiverAddress)

/-- `VerifyIssuer` returns nil. -/
def verifyIssuer (v : Verifier) (t : Transaction) : Bool :=
  v.verify t.getMessage t.issuerSignature t.hash t.issuerAddress

/-- `VerifyIssuerReceiver` returns nil. -/
def verifyIssuerReceiver (v : Verifier) (t : Transaction) : Bool :=
  v.verify t.getMessage t.issuerSignature t.hash t.issuerAddress &&
    v.verify t.getMessage t.receiverSignature t.hash t.receiverAddress

variable {t : Transaction}

theorem checkIssuer_eq_accepted_iff {v : Verifier} :
    t.checkIssuer v = .accepted ↔ t.verifyIssuer v = true := Verifier.verify_iff.symm

theorem checkIssuerReceiver_eq_accepted_iff {v : Verifier} :
    t.checkIssuerReceiver v = .accepted ↔ t.verifyIssuerReceiver v = true := by
  rw [checkIssuerReceiver, Verdict.andThen_eq_accepted_iff, verifyIssuerReceiver, Bool.and_eq_true,
    Verifier.verify_iff, Verifier.verify_iff]

/-- Days for which a transaction can be signed by its receiver. -/
def expirationTimeInDays : ℕ := 7

/-- `addTime`: `addDate` is `AddDate(0, 0, days)` in the calendar of the process. -/
def addTime (addDate : Time → ℕ → Time) (t : Time) : Time := addDate t expirationTimeInDays

/-- What `Sign` refuses a transaction for. -/
inductive SignError where
  | errTransactionHasAFutureTime
  | errExpiredTransaction
  | errAddressIsInvalid
  | errSignatureNotValidOrDataCorrupted
  | errTransactionHashIsInvalid
  /-- `Verify` has panicked. -/
  | panicked
  deriving DecidableEq, Repr

/-- `Sign`, at time `now`: the hash, and the transaction with the receiver's signature on it. -/
def sign (addDate : Time → ℕ → Time) (t : Transaction) (receiver : Signer) (v : Verifier)
    (now : Time) : Except SignError (Hash × Transaction) :=
  if unixSeconds t.createdAt > unixSeconds now then .error .errTransactionHasAFutureTime
  else if unixSeconds (addTime addDate t.createdAt) < unixSeconds now then .error .errExpiredTransaction
  else if receiver.address ≠ t.receiverAddress then .error .errAddressIsInvalid
  else
    let message := t.subject ++ t.data ++ t.issuerAddress ++ receiver.address ++
      le64 (unixNano t.createdAt) ++ le64 t.spice.currency ++ le64 t.spice.supplementaryCurrency
    match v.check message t.issuerSignature t.hash t.issuerAddress with
    | .panicked => .error .panicked
    | .refused => .error .errSignatureNotValidOrDataCorrupted
    | .accepted =>
      let signed := receiver.sign message
      if signed.1 ≠ t.hash then .error .errTransactionHashIsInvalid
      else .ok (signed.1, { t with receiverSignature := signed.2 })

theorem isSpiceTransfer_eq_false : t.isSpiceTransfer = false ↔ t.spice.value = 0 := by
  rw [isSpiceTransfer, Bool.not_eq_false', Melange.empty_iff]

end Transaction

/-- `max(leftWeight, rightWeight) + 1` in machine words. -/
def calcNewWeight (leftWeight rightWeight : UInt64) : UInt64 := max leftWeight rightWeight + 1

/-- A vertex of the accounting book's graph. -/
structure Vertex where
  signerPublicAddress : Address
  createdAt : Time
  signature : Bytes
  transaction : Transaction
  hash : Hash
  leftParentHash : Hash
  rightParentHash : Hash
  weight : UInt64
  deriving DecidableEq

namespace Vertex

/-- The bytes that the sealing signature covers. -/
def initData (v : Vertex) : Bytes :=
  v.transaction.hash.bytes ++ v.leftParentHash.bytes ++ v.rightParentHash.bytes ++
    (le64 (unixNano v.createdAt) ++ le64 v.weight)

/-- `NewVertex`, at time `now`: seal `trx` under the two parents. -/
def new (trx : Transaction) (leftParentHash rightParentHash : Hash) (weight : UInt64)
    (signer : Signer) (now : Time) : Vertex :=
  let candidate : Vertex :=
    { signerPublicAddress := signer.address, createdAt := now, signature := [], transaction := trx,
      hash := Hash.zero, leftParentHash, rightParentHash, weight }
  let signed := signer.sign candidate.initData
  { candidate with hash := signed.1, signature := signed.2 }

/-- How `verify` ends: the issuer's signature, the receiver's when there is one, and the seal. -/
def check (verifier : Verifier) (v : Vertex) : Verdict :=
  (if v.transaction.receiverSignature.length ≠ 0 then v.transaction.checkIssuerReceiver verifier
   else v.transaction.checkIssuer verifier).andThen
    (verifier.check v.initData v.signature v.hash v.signerPublicAddress)

/-- `verify` returns nil. -/
def verify (verifier : Verifier) (v : Vertex) : Bool :=
  (if v.transaction.receiverSignature.length ≠ 0 then v.transaction.verifyIssuerReceiver verifier
   else v.transaction.verifyIssuer verifier) &&
    verifier.verify v.initData v.signature v.hash v.signerPublicAddress

theorem check_eq_accepted_iff {verifier : Verifier} {v : Vertex} :
    v.check verifier = .accepted ↔ v.verify verifier = true := by
  unfold check verify
  rw [Verdict.andThen_eq_accepted_iff, Bool.and_eq_true, Verifier.verify_iff]
  split
  · rw [Transaction.checkIssuerReceiver_eq_accepted_iff]
  · rw [Transaction.checkIssuer_eq_accepted_iff]

/-- The parent hashes, left first. -/
def parentHashes (v : Vertex) : List Hash := [v.leftParentHash, v.rightParentHash]

section New

variable (trx : Transaction) (l r : Hash) (w : UInt64) (signer : Signer) (now : Time)

@[simp] theorem new_transaction : (new trx l r w signer now).transaction = trx := rfl
@[simp] theorem new_leftParentHash : (new trx l r w signer now).leftParentHash = l := rfl
@[simp] theorem new_rightParentHash : (new trx l r w signer now).rightParentHash = r := rfl
@[simp] theorem new_weight : (new trx l r w signer now).weight = w := rfl
@[simp] theorem new_signerPublicAddress :
    (new trx l r w signer now).signerPublicAddress = signer.address := rfl

end New

end Vertex

end Computantis
