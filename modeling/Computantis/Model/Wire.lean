import Computantis.Model.Vertex

/-! @model wire | name:Transactions and vertices on the wire | family:data |
    source:src/transformers/transaction.go, src/gossip/gossip.go

    Nodes exchange protocol-buffer messages. Times travel as unsigned words, hashes as slices of any
    length, and sub-messages may be absent. Reading an absent sub-message or a slice that is too short
    for an array panics. -/

namespace Computantis

structure ProtoSpice where
  currency : UInt64
  supplementaryCurrency : UInt64
  deriving DecidableEq

structure ProtoTransaction where
  subject : Bytes
  data : Bytes
  hash : Bytes
  createdAt : UInt64
  receiverAddress : Bytes
  issuerAddress : Bytes
  receiverSignature : Bytes
  issuerSignature : Bytes
  spice : Option ProtoSpice
  deriving DecidableEq

structure ProtoVertex where
  signerPublicAddress : Bytes
  createdAt : UInt64
  signature : Bytes
  transaction : Option ProtoTransaction
  hash : Bytes
  leftParentHash : Bytes
  rightParentHash : Bytes
  weight : UInt64
  deriving DecidableEq

inductive WireError where
  | errProcessing
  | errTrxIsEmpty
  | panicked
  deriving DecidableEq, Repr

/-- The answer of a check, `true` for nil, or its panic. -/
def Verdict.returned : Verdict → Except WireError Bool
  | .accepted => .ok true
  | .refused => .ok false
  | .panicked => .error .panicked

/-- `[32]byte(slice)`. -/
def Hash.ofSlice (b : Bytes) : Except WireError Hash :=
  if h : 32 ≤ b.length then .ok ⟨b.take 32, by simp [h]⟩ else .error .panicked

@[simp] theorem Hash.ofSlice_bytes (h : Hash) : Hash.ofSlice h.bytes = .ok h := by
  cases h with
  | mk bytes len => simp [Hash.ofSlice, ← len]

theorem Hash.ofSlice_short {b : Bytes} (h : b.length < 32) : Hash.ofSlice b = .error .panicked := by
  rw [Hash.ofSlice, dif_neg (by omega)]

theorem Hash.ofSlice_long {b : Bytes} (h : ¬ b.length < 32) : ∃ hash, Hash.ofSlice b = .ok hash := by
  rw [Hash.ofSlice, dif_pos (by omega)]
  exact ⟨_, rfl⟩

/-- `Verify` over a digest of the wire does not return: the digest is too short for an array, or `Verify` itself
    panics. -/
def Verifier.Breaks (v : Verifier) (message signature digest : Bytes) (address : Address) : Prop :=
  digest.length < 32 ∨
    ∃ hash, Hash.ofSlice digest = .ok hash ∧ v.check message signature hash address = .panicked

theorem Verifier.breaks_iff {v : Verifier} {message signature digest : Bytes} {address : Address} {hash : Hash}
    (h : Hash.ofSlice digest = .ok hash) :
    v.Breaks message signature digest address ↔ v.check message signature hash address = .panicked := by
  have hlong : ¬ digest.length < 32 := fun hshort => by
    rw [Hash.ofSlice_short hshort] at h
    cases h
  simp [Breaks, hlong, h]

def Melange.toProto (s : Melange) : ProtoSpice := ⟨s.currency, s.supplementaryCurrency⟩

/-- The fields of a spice message, which is read through a pointer. -/
def Melange.ofProto : Option ProtoSpice → Except WireError Melange
  | none => .error .panicked
  | some s => .ok ⟨s.currency, s.supplementaryCurrency⟩

@[simp] theorem Melange.ofProto_toProto (s : Melange) : Melange.ofProto (some s.toProto) = .ok s := rfl

/-- The fields that both directions of the gossip and the transformers copy. -/
def Transaction.toProto (t : Transaction) : ProtoTransaction where
  subject := t.subject
  data := t.data
  hash := t.hash.bytes
  createdAt := unixNano t.createdAt
  receiverAddress := t.receiverAddress
  issuerAddress := t.issuerAddress
  receiverSignature := t.receiverSignature
  issuerSignature := t.issuerSignature
  spice := some t.spice.toProto

def Transaction.ofProto (p : ProtoTransaction) : Except WireError Transaction := do
  let hash ← Hash.ofSlice p.hash
  let spice ← Melange.ofProto p.spice
  return { createdAt := timeOfNano p.createdAt, issuerAddress := p.issuerAddress,
           receiverAddress := p.receiverAddress, subject := p.subject, data := p.data,
           issuerSignature := p.issuerSignature, receiverSignature := p.receiverSignature, hash, spice }

/-- `TrxToProtoTrx`; a `[32]byte` is never of length zero. -/
def trxToProtoTrx (trx : Transaction) : Except WireError ProtoTransaction :=
  if trx.subject = [] ∨ trx.issuerAddress = [] ∨ trx.receiverAddress = [] ∨ trx.hash.bytes.length = 0 ∨
      Time.isZero trx.createdAt = true ∨ trx.issuerSignature.length = 0 then .error .errProcessing
  else .ok trx.toProto

/-- `ProtoTrxToTrx`. -/
def protoTrxToTrx : Option ProtoTransaction → Except WireError Transaction
  | none => .error .errTrxIsEmpty
  | some p =>
    if p.subject = [] ∨ p.issuerAddress = [] ∨ p.receiverAddress = [] ∨ p.hash.length = 0 ∨
        p.createdAt = 0 ∨ p.issuerSignature.length = 0 then .error .errTrxIsEmpty
    else Transaction.ofProto p

/-- A handler that converts the transaction and checks it does not return: one of the two panics. -/
def TrxBreaks (check : Transaction → Verdict) (req : Option ProtoTransaction) : Prop :=
  protoTrxToTrx req = .error .panicked ∨ ∃ trx, protoTrxToTrx req = .ok trx ∧ check trx = .panicked

def mapAccountantVertexToProtoVertex (vrx : Vertex) : ProtoVertex where
  signerPublicAddress := vrx.signerPublicAddress
  createdAt := unixNano vrx.createdAt
  signature := vrx.signature
  transaction := some vrx.transaction.toProto
  hash := vrx.hash.bytes
  leftParentHash := vrx.leftParentHash.bytes
  rightParentHash := vrx.rightParentHash.bytes
  weight := vrx.weight

def mapProtoVertexToAccountantVertex (vg : ProtoVertex) : Except WireError Vertex :=
  match vg.transaction with
  | none => .error .panicked
  | some p => do
    let transaction ← Transaction.ofProto p
    let hash ← Hash.ofSlice vg.hash
    let leftParentHash ← Hash.ofSlice vg.leftParentHash
    let rightParentHash ← Hash.ofSlice vg.rightParentHash
    return { signerPublicAddress := vg.signerPublicAddress, createdAt := timeOfNano vg.createdAt,
             signature := vg.signature, transaction, hash, leftParentHash, rightParentHash,
             weight := vg.weight }

/-! ### Round trips -/

/-- The Unix epoch to the end of the signed nanosecond range. -/
def Time.Wired (t : Time) : Prop := 0 < t ∧ t < 2 ^ 63

theorem Transaction.ofProto_toProto {t : Transaction} (ht : Time.Wired t.createdAt) :
    Transaction.ofProto t.toProto = .ok t := by
  simp only [ofProto, toProto, Hash.ofSlice_bytes, Melange.ofProto_toProto,
    timeOfNano_unixNano ht.1.le ht.2]
  rfl

/-- What `TrxToProtoTrx` lets through and `ProtoTrxToTrx` then takes. -/
structure Transaction.Sendable (t : Transaction) : Prop where
  subject : t.subject ≠ []
  issuer : t.issuerAddress ≠ []
  receiver : t.receiverAddress ≠ []
  time : Time.Wired t.createdAt
  signature : t.issuerSignature ≠ []

theorem Transaction.Sendable.crosses {t : Transaction} (h : t.Sendable) :
    trxToProtoTrx t = .ok t.toProto ∧ protoTrxToTrx (some t.toProto) = .ok t := by
  have hnano := unixNano_ne_zero h.time.1 h.time.2
  have hzero := Time.isZero_of_pos h.time.1
  refine ⟨?_, ?_⟩
  · simp [trxToProtoTrx, h.subject, h.issuer, h.receiver, h.signature, hzero, t.hash.len]
  · rw [protoTrxToTrx, if_neg, Transaction.ofProto_toProto h.time]
    simp [Transaction.toProto, h.subject, h.issuer, h.receiver, h.signature, hnano, t.hash.len]

theorem Vertex.crosses {v : Vertex} (ht : Time.Wired v.transaction.createdAt) :
    mapProtoVertexToAccountantVertex (mapAccountantVertexToProtoVertex v) =
      .ok { v with createdAt := timeOfNano (unixNano v.createdAt) } := by
  simp only [mapProtoVertexToAccountantVertex, mapAccountantVertexToProtoVertex, Hash.ofSlice_bytes,
    Transaction.ofProto_toProto ht]
  rfl

end Computantis
