import Computantis.Laws.Assumptions
import Computantis.Model.Wallet
import Mathlib.Data.Set.Function
import Mathlib.Data.UInt

/-! @law messages | name:What signatures and hashes bind | family:encoding |
    about:Model/Vertex, Model/Wire, Model/Wallet

    A transaction's message is its fields one after the other: four of any length, then three words.
    Nothing marks where a field ends, so the message fixes the fields only together with their lengths.
    A vertex is hashed over its transaction's hash, its parents, its time and its weight; who sealed it
    and whether the receiver has signed are not among the hashed bytes.

        subject ─ data ─ issuer ─ receiver ─ time ─ currency ─ supplementary
        └──────── any lengths ───────────┘   └───── 8 bytes each ─────┘

    The second half follows a transaction from its issuer over the wire to its receiver and on into a
    vertex: every conversion gives back the fields that were signed. -/

namespace Computantis

open Schemes

/-! ### The message of a transaction -/

theorem Melange.eq_of_words : ∀ {m n : Melange}, m.currency = n.currency →
    m.supplementaryCurrency = n.supplementaryCurrency → m = n
  | ⟨_, _⟩, ⟨_, _⟩, rfl, rfl => rfl

namespace Transaction

/-- The pieces of the message in their order. -/
def fields (t : Transaction) : List Bytes :=
  [t.subject, t.data, t.issuerAddress, t.receiverAddress, le64 (unixNano t.createdAt),
    le64 t.spice.currency, le64 t.spice.supplementaryCurrency]

theorem getMessage_eq_flatten (t : Transaction) : t.getMessage = t.fields.flatten := by
  simp [getMessage, fields]

/-- The two transactions say the same. -/
structure SameContent (t u : Transaction) : Prop where
  subject : t.subject = u.subject
  data : t.data = u.data
  issuerAddress : t.issuerAddress = u.issuerAddress
  receiverAddress : t.receiverAddress = u.receiverAddress
  createdAt : unixNano t.createdAt = unixNano u.createdAt
  spice : t.spice = u.spice

/-- The first three fields end at the same places; the rest then do, too. -/
structure SameLayout (t u : Transaction) : Prop where
  subject : t.subject.length = u.subject.length
  data : t.data.length = u.data.length
  issuerAddress : t.issuerAddress.length = u.issuerAddress.length

variable {t u : Transaction}

theorem SameContent.layout (h : SameContent t u) : SameLayout t u :=
  ⟨by rw [h.subject], by rw [h.data], by rw [h.issuerAddress]⟩

theorem getMessage_length (t : Transaction) : t.getMessage.length =
    t.subject.length + t.data.length + t.issuerAddress.length + t.receiverAddress.length + 24 := by
  simp only [getMessage, List.length_append, le64_length]

theorem SameLayout.fields_eq (hl : SameLayout t u) (h : t.getMessage = u.getMessage) : t.fields = u.fields := by
  have hlen := congrArg List.length h
  rw [getMessage_length, getMessage_length, hl.subject, hl.data, hl.issuerAddress] at hlen
  have hreceiver : t.receiverAddress.length = u.receiverAddress.length := by omega
  refine List.eq_iff_flatten_eq.mpr ⟨?_, ?_⟩
  · rw [← getMessage_eq_flatten, ← getMessage_eq_flatten, h]
  · simp [fields, hl.subject, hl.data, hl.issuerAddress, hreceiver]

theorem SameLayout.content (hl : SameLayout t u) (h : t.getMessage = u.getMessage) : SameContent t u := by
  have hf := hl.fields_eq h
  simp only [fields, List.cons.injEq, and_true] at hf
  obtain ⟨hs, hd, hi, hr, ht, hc, hsc⟩ := hf
  exact ⟨hs, hd, hi, hr, le64_injective ht, Melange.eq_of_words (le64_injective hc) (le64_injective hsc)⟩

end Transaction

/-- SPEC: the message fixes the transaction exactly up to where its fields end. -/
theorem message_agrees_iff {t u : Transaction} (h : t.getMessage = u.getMessage) :
    t.SameContent u ↔ t.SameLayout u :=
  ⟨fun hc => hc.layout, fun hl => hl.content h⟩

namespace Transaction

/-- The transaction with its data moved to the end of its subject. -/
def shifted (t : Transaction) : Transaction := { t with subject := t.subject ++ t.data, data := [] }

@[simp] theorem shifted_getMessage (t : Transaction) : t.shifted.getMessage = t.getMessage := by
  simp [shifted, getMessage]

end Transaction

namespace Transparent

/-- A contract with spice, from `wallet 7` to `wallet 8`. -/
def contract : Transaction := trx (wallet 7) (wallet 8) ⟨1, 0⟩ [5, 6] 10

end Transparent

/-- One signature authenticates a contract and a plain transfer. -/
theorem contract_shifts_to_transfer : ∃ t u : Transaction,
    t.subject ≠ [] ∧ u.subject ≠ [] ∧ t.issuerAddress ≠ [] ∧ t.receiverAddress ≠ [] ∧
    u.issuerAddress ≠ [] ∧ u.receiverAddress ≠ [] ∧ t.getMessage = u.getMessage ∧
    t.issuerSignature = u.issuerSignature ∧ t.hash = u.hash ∧
    t.verifyIssuer Transparent.verifier = true ∧ u.verifyIssuer Transparent.verifier = true ∧
    t.isContract = true ∧ u.isContract = false ∧ ¬ t.SameContent u :=
  ⟨Transparent.contract, Transparent.contract.shifted, by decide, by decide, by decide, by decide, by decide,
    by decide, (Transaction.shifted_getMessage _).symm, rfl, rfl, by decide +kernel, by decide +kernel, rfl,
    rfl, fun h => absurd h.data (by decide)⟩

/-- The receiver's signature is not part of the message, so the law applies to the two versions. -/
theorem contract_accepted_agrees :
    Transparent.contract.SameContent { Transparent.contract with receiverSignature := Transparent.wallet 8 } :=
  (message_agrees_iff (t := Transparent.contract)
    (u := { Transparent.contract with receiverSignature := Transparent.wallet 8 }) rfl).mpr ⟨rfl, rfl, rfl⟩

/-! ### The hash of a vertex -/

/-- The verifier recomputes the digest, which has no collision among the messages in `M`. -/
structure CheckedDigest (verifier : Verifier) (digest : Bytes → Hash) (M : Set Bytes) : Prop where
  verifier : ∀ message signature hash address,
    verifier.verify message signature hash address = true → hash = digest message
  injective : Set.InjOn digest M

namespace Vertex

theorem initData_inj {v w : Vertex} (h : v.initData = w.initData) :
    v.transaction.hash = w.transaction.hash ∧ v.leftParentHash = w.leftParentHash ∧
      v.rightParentHash = w.rightParentHash ∧ unixNano v.createdAt = unixNano w.createdAt ∧
      v.weight = w.weight := by
  have hlen : ∀ h k : Hash, h.bytes.length = k.bytes.length := fun h k => by rw [h.len, k.len]
  simp only [initData, List.append_assoc] at h
  obtain ⟨ht, h⟩ := List.append_inj h (hlen _ _)
  obtain ⟨hl, h⟩ := List.append_inj h (hlen _ _)
  obtain ⟨hr, h⟩ := List.append_inj h (hlen _ _)
  obtain ⟨hc, hw⟩ := List.append_inj h (by simp)
  exact ⟨Hash.bytes_inj.mp ht, Hash.bytes_inj.mp hl, Hash.bytes_inj.mp hr, le64_injective hc,
    le64_injective hw⟩

theorem hash_eq_digest {verifier : Verifier} {digest : Bytes → Hash} {M : Set Bytes}
    (hd : CheckedDigest verifier digest M) {v : Vertex} (hv : v.verify verifier = true) :
    v.hash = digest v.initData ∧ v.transaction.hash = digest v.transaction.getMessage := by
  rw [verify, Bool.and_eq_true] at hv
  obtain ⟨htrx, hseal⟩ := hv
  refine ⟨hd.verifier _ _ _ _ hseal, ?_⟩
  split at htrx
  · rw [Transaction.verifyIssuerReceiver, Bool.and_eq_true] at htrx
    exact hd.verifier _ _ _ _ htrx.1
  · exact hd.verifier _ _ _ _ htrx

/-- The two vertices agree on everything that other nodes act on. -/
structure SameRecord (v w : Vertex) : Prop where
  leftParentHash : v.leftParentHash = w.leftParentHash
  rightParentHash : v.rightParentHash = w.rightParentHash
  weight : v.weight = w.weight
  createdAt : unixNano v.createdAt = unixNano w.createdAt
  signerPublicAddress : v.signerPublicAddress = w.signerPublicAddress
  trxHash : v.transaction.hash = w.transaction.hash
  content : v.transaction.SameContent w.transaction
  accepted : v.transaction.receiverSignature = [] ↔ w.transaction.receiverSignature = []

end Vertex

/-- SPEC: verified vertices with one hash agree exactly when the sealing wallet, the layout of the
    transaction and the presence of the receiver's signature, which no hash covers, are the same. -/
theorem hash_identifies_iff {verifier : Verifier} {digest : Bytes → Hash} {M : Set Bytes}
    (hd : CheckedDigest verifier digest M) {v w : Vertex} (hv : v.verify verifier = true)
    (hw : w.verify verifier = true)
    (hM : {v.initData, w.initData, v.transaction.getMessage, w.transaction.getMessage} ⊆ M)
    (h : v.hash = w.hash) :
    v.SameRecord w ↔ v.signerPublicAddress = w.signerPublicAddress ∧
      v.transaction.SameLayout w.transaction ∧
      (v.transaction.receiverSignature = [] ↔ w.transaction.receiverSignature = []) := by
  obtain ⟨hvh, hvt⟩ := Vertex.hash_eq_digest hd hv
  obtain ⟨hwh, hwt⟩ := Vertex.hash_eq_digest hd hw
  have hdata : v.initData = w.initData :=
    hd.injective (hM (by simp)) (hM (by simp)) (by rw [← hvh, ← hwh, h])
  obtain ⟨htrx, hl, hr, ht, hweight⟩ := Vertex.initData_inj hdata
  have hmessage : v.transaction.getMessage = w.transaction.getMessage :=
    hd.injective (hM (by simp)) (hM (by simp)) (by rw [← hvt, ← hwt, htrx])
  refine ⟨fun hs => ⟨hs.signerPublicAddress, hs.content.layout, hs.accepted⟩, ?_⟩
  rintro ⟨hsigner, hlayout, haccepted⟩
  exact ⟨hl, hr, hweight, ht, hsigner, htrx, hlayout.content hmessage, haccepted⟩

namespace Transparent

/-- The contract with its receiver's signature, sealed by `peer`. -/
def acceptedVertex : Vertex :=
  Vertex.new { contract with receiverSignature := wallet 8 } (root 0).hash (root 0).hash 1 (signer peer) 11

/-- What somebody who passes the vertex on can make of it: drop the receiver's signature, seal it
    with another wallet, move the data into the subject. -/
def stripped : Vertex :=
  { acceptedVertex with transaction := { acceptedVertex.transaction with receiverSignature := [] } }
def resealed : Vertex :=
  { acceptedVertex with signerPublicAddress := wallet 4, signature := wallet 4 }
def reworded : Vertex :=
  { acceptedVertex with transaction := acceptedVertex.transaction.shifted }

theorem checkedDigest {M : Set Bytes} (h : Set.InjOn digest M) : CheckedDigest verifier digest M where
  verifier message signature hash address hv := by
    simp only [verifier_verify, decide_eq_true_eq] at hv
    exact hv.1
  injective := h

theorem accepted_injOn :
    Set.InjOn digest {acceptedVertex.initData, acceptedVertex.transaction.getMessage} := by
  have hne : digest acceptedVertex.initData ≠ digest acceptedVertex.transaction.getMessage := by
    decide +kernel
  rintro a (rfl | rfl) b (rfl | rfl) h
  · rfl
  · exact absurd h hne
  · exact absurd h.symm hne
  · rfl

end Transparent

/-- Three altered vertices keep the hash and still verify: one that no longer shows the acceptance, one
    sealed by another wallet, one whose contract has become a plain transfer. -/
theorem altered_vertices_keep_hash : ∃ (digest : Bytes → Hash) (verifier : Verifier) (v a b c : Vertex),
    CheckedDigest verifier digest {v.initData, v.transaction.getMessage} ∧
    (∀ w ∈ [a, b, c], w.initData = v.initData ∧ w.transaction.getMessage = v.transaction.getMessage ∧
      w.verify verifier = true ∧ w.hash = v.hash ∧ ¬ v.SameRecord w) ∧ v.verify verifier = true ∧
    v.transaction.receiverSignature ≠ [] ∧ a.transaction.receiverSignature = [] ∧
    v.signerPublicAddress ≠ b.signerPublicAddress ∧
    v.transaction.isContract = true ∧ c.transaction.isContract = false := by
  open Transparent in
  refine ⟨digest, verifier, acceptedVertex, stripped, resealed, reworded, checkedDigest accepted_injOn, ?_,
    by decide +kernel, by decide, rfl, by decide, rfl, rfl⟩
  simp only [List.mem_cons, List.not_mem_nil, or_false, forall_eq_or_imp, forall_eq]
  refine ⟨⟨rfl, rfl, by decide +kernel, rfl, ?_⟩, ⟨rfl, rfl, by decide +kernel, rfl, ?_⟩,
    ⟨rfl, Transaction.shifted_getMessage _, by decide +kernel, rfl, ?_⟩⟩
  · exact fun h => absurd (h.accepted.mpr rfl) (by decide)
  · exact fun h => absurd h.signerPublicAddress (by decide)
  · exact fun h => absurd h.content.data (by decide)

/-- The law at two copies of the accepted vertex whose times are a whole word of nanoseconds apart. -/
theorem accepted_copies_agree :
    Transparent.acceptedVertex.SameRecord
      { Transparent.acceptedVertex with createdAt := Transparent.acceptedVertex.createdAt + 2 ^ 64 } := by
  open Transparent in
  have hdata : ({ acceptedVertex with createdAt := acceptedVertex.createdAt + 2 ^ 64 } : Vertex).initData =
      acceptedVertex.initData := by decide +kernel
  refine (hash_identifies_iff (v := acceptedVertex)
    (w := { acceptedVertex with createdAt := acceptedVertex.createdAt + 2 ^ 64 })
    (checkedDigest accepted_injOn) (by decide +kernel) (by decide +kernel) ?_ rfl).mpr
    ⟨rfl, ⟨rfl, rfl, rfl⟩, Iff.rfl⟩
  rw [hdata]
  simp

/-! ### The life of a transaction -/

/-- Verification accepts under the wallet's address exactly what the wallet signed; wallets share the
    digest. -/
structure Signer.Matches (verifier : Verifier) (digest : Bytes → Hash) (w : Signer) : Prop where
  digest : ∀ message, (w.sign message).1 = digest message
  accepts : ∀ message signature hash,
    verifier.verify message signature hash w.address = true ↔ (hash, signature) = w.sign message

theorem Crypto.Matching.matches {crypto : Crypto} {w : Wallet} (h : crypto.Matching w) :
    Signer.Matches (Helper.verifier crypto) crypto.sum256 (w.signer crypto) where
  digest _ := rfl
  accepts := h.verify_iff

section Life

variable {verifier : Verifier} {digest : Bytes → Hash} {issuer receiver : Signer} {subject data : Bytes}
  {spice : Melange} {created now : Time}

/-- The transaction that `New` makes. -/
def issuedTrx (subject : Bytes) (spice : Melange) (data : Bytes) (receiverAddress : Address)
    (issuer : Signer) (created : Time) : Transaction :=
  let unsigned : Transaction :=
    { createdAt := created, issuerAddress := issuer.address, receiverAddress, subject, data,
      issuerSignature := [], receiverSignature := [], hash := Hash.zero, spice }
  { unsigned with hash := (issuer.sign unsigned.getMessage).1,
                  issuerSignature := (issuer.sign unsigned.getMessage).2 }

theorem new_eq_issuedTrx (hsubject : subject ≠ []) {receiverAddress : Address}
    (hreceiver : Transaction.minAddressLength ≤ receiverAddress.length) :
    Transaction.new subject spice data receiverAddress issuer created =
      some (issuedTrx subject spice data receiverAddress issuer created) := by
  rw [Transaction.new, if_neg (by simpa using hsubject), if_neg (by omega)]
  rfl

/-- SPEC: inside the validity window the receiver adds a signature to what a matching issuer signed. -/
theorem sign_ok (addDate : Time → ℕ → Time) {t : Transaction} (hr : receiver.Matches verifier digest)
    (hto : t.receiverAddress = receiver.address) (hv : t.verifyIssuer verifier = true)
    (hhash : t.hash = digest t.getMessage) (hstart : unixSeconds t.createdAt ≤ unixSeconds now)
    (hend : unixSeconds now ≤ unixSeconds (Transaction.addTime addDate t.createdAt)) :
    t.sign addDate receiver verifier now =
      .ok (t.hash, { t with receiverSignature := (receiver.sign t.getMessage).2 }) := by
  have hmessage : t.subject ++ t.data ++ t.issuerAddress ++ receiver.address ++
      le64 (unixNano t.createdAt) ++ le64 t.spice.currency ++ le64 t.spice.supplementaryCurrency =
      t.getMessage := by rw [Transaction.getMessage, hto]
  rw [Transaction.verifyIssuer, Verifier.verify_iff] at hv
  simp only [Transaction.sign, not_lt.mpr hstart, not_lt.mpr hend, if_false, hto, ne_eq,
    not_true_eq_false, hmessage, hv, hr.digest, ← hhash]

theorem Signer.Matches.issued_verifies (hi : issuer.Matches verifier digest) (subject : Bytes)
    (spice : Melange) (data : Bytes) (receiverAddress : Address) (created : Time) :
    let t := issuedTrx subject spice data receiverAddress issuer created
    t.verifyIssuer verifier = true ∧ t.hash = digest t.getMessage :=
  ⟨(hi.accepts _ _ _).mpr rfl, hi.digest _⟩

end Life

/-- RUN: from `New` over the wire to `Sign`, over the wire into a vertex and through gossip, both
    signatures verify at the end and the hash is the one that `New` computed. -/
theorem signatures_survive {verifier : Verifier} {digest : Bytes → Hash} {issuer receiver : Signer}
    (hi : issuer.Matches verifier digest) (hr : receiver.Matches verifier digest)
    (hissuer : issuer.address ≠ []) (hsigns : ∀ message, (issuer.sign message).2 ≠ [])
    {subject : Bytes} (hsubject : subject ≠ []) (data : Bytes) (spice : Melange)
    (hreceiver : Transaction.minAddressLength ≤ receiver.address.length)
    {created now : Time} (hcreated : Time.Wired created) (addDate : Time → ℕ → Time)
    (hstart : unixSeconds created ≤ unixSeconds now)
    (hend : unixSeconds now ≤ unixSeconds (Transaction.addTime addDate created)) :
    ∃ t p t₁ t₂ p₂ t₃, Transaction.new subject spice data receiver.address issuer created = some t ∧
      trxToProtoTrx t = .ok p ∧ protoTrxToTrx (some p) = .ok t₁ ∧
      t₁.sign addDate receiver verifier now = .ok (t.hash, t₂) ∧
      trxToProtoTrx t₂ = .ok p₂ ∧ protoTrxToTrx (some p₂) = .ok t₃ ∧
      ∀ v : Vertex, v.transaction = t₃ →
        ∃ u, mapProtoVertexToAccountantVertex (mapAccountantVertexToProtoVertex v) = .ok u ∧
          u.transaction.verifyIssuerReceiver verifier = true ∧ u.transaction.hash = t.hash := by
  obtain ⟨hv, hhash⟩ := hi.issued_verifies subject spice data receiver.address created
  have hto : receiver.address ≠ [] := by
    rintro h
    rw [h] at hreceiver
    cases hreceiver
  have hsend : (issuedTrx subject spice data receiver.address issuer created).Sendable :=
    ⟨hsubject, hissuer, hto, hcreated, hsigns _⟩
  have hsigned := sign_ok addDate hr rfl hv hhash hstart hend
  -- the receiver's signature is the only field that `Sign` touches
  have hsend' : ({ issuedTrx subject spice data receiver.address issuer created with
      receiverSignature := (receiver.sign (issuedTrx subject spice data receiver.address issuer
        created).getMessage).2 } : Transaction).Sendable :=
    ⟨hsubject, hissuer, hto, hcreated, hsigns _⟩
  refine ⟨_, _, _, _, _, _, new_eq_issuedTrx hsubject hreceiver, hsend.crosses.1, hsend.crosses.2, hsigned,
    hsend'.crosses.1, hsend'.crosses.2, ?_⟩
  intro v hvt
  refine ⟨_, Vertex.crosses (by rw [hvt]; exact hcreated), ?_, by rw [hvt]⟩
  rw [hvt, Transaction.verifyIssuerReceiver, Bool.and_eq_true]
  refine ⟨hv, (hr.accepts _ _ _).mpr (Prod.ext ?_ rfl)⟩
  rw [hr.digest]
  exact hhash

theorem Transparent.matches (address : Address) : (signer address).Matches verifier digest where
  digest _ := rfl
  accepts message signature hash := by simp [signer, verifier_verify]

/-- A contract from `wallet 7`, signed by `wallet 8` a second later. -/
theorem contract_survives : ∃ t p t₁ t₂ p₂ t₃,
    Transaction.new [1] ⟨1, 2 * 10 ^ 18⟩ [5] (Transparent.wallet 8) (Transparent.signer (Transparent.wallet 7))
      (10 ^ 18) = some t ∧
    trxToProtoTrx t = .ok p ∧ protoTrxToTrx (some p) = .ok t₁ ∧
    t₁.sign (fun t days => t + days * (86400 * 10 ^ 9)) (Transparent.signer (Transparent.wallet 8))
      Transparent.verifier (10 ^ 18 + 10 ^ 9) = .ok (t.hash, t₂) ∧
    trxToProtoTrx t₂ = .ok p₂ ∧ protoTrxToTrx (some p₂) = .ok t₃ ∧
    ∀ v : Vertex, v.transaction = t₃ →
      ∃ u, mapProtoVertexToAccountantVertex (mapAccountantVertexToProtoVertex v) = .ok u ∧
        u.transaction.verifyIssuerReceiver Transparent.verifier = true ∧ u.transaction.hash = t.hash :=
  signatures_survive (Transparent.matches (Transparent.wallet 7)) (Transparent.matches (Transparent.wallet 8))
    (by decide) (fun _ => List.cons_ne_nil _ _) (by decide) [5] ⟨1, 2 * 10 ^ 18⟩ (by decide)
    ⟨by decide, by decide⟩ (fun t days => t + days * (86400 * 10 ^ 9)) (by decide) (by decide)

end Computantis
