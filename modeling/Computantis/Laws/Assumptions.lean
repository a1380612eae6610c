import Computantis.Model.Service
import Mathlib.Logic.Equiv.List

/-! @law assumptions | name:What is assumed of digests and signatures | family:assumption |
    about:Model/Vertex

    The accountant sees hashing and signing through two interfaces. Laws that need more of them than
    that they are functions say so with a structure below. The transparent scheme at the end meets
    all of them: it signs with the address itself, and its digest shows the length and the last bytes
    of the message. It is what the concrete runs of this development are signed with. -/

namespace Computantis

/-- No digest that is signed or accepted is the zero hash. -/
structure NonzeroDigests (env : Env) : Prop where
  verifier : ∀ message signature address, env.verifier.verify message signature Hash.zero address = false
  signer : ∀ message, (env.signer.sign message).1 ≠ Hash.zero

section

variable {env : Env} {t : Transaction} {subject : Bytes} {spice : Melange} {receiver : Address}

theorem NonzeroDigests.hash_ne (hz : NonzeroDigests env) {v : Vertex} (hv : v.verify env.verifier = true) :
    v.hash ≠ Hash.zero := by
  rintro h
  simp only [Vertex.verify, h, hz.verifier, Bool.and_false] at hv
  cases hv

/-- What the node signs verifies. -/
structure OwnSignatures (env : Env) : Prop where
  verify : ∀ message, env.verifier.verify message (env.signer.sign message).2
    (env.signer.sign message).1 env.signer.address = true

theorem issuer_of_new {data : Bytes} {issuer : Signer} {now : Time}
    (h : Transaction.new subject spice data receiver issuer now = some t) :
    t.issuerAddress = issuer.address := by
  unfold Transaction.new at h
  split at h
  · cases h
  · split at h
    · cases h
    · cases h; rfl

theorem OwnSignatures.trx (ho : OwnSignatures env) {data : Bytes} {now : Time}
    (h : Transaction.new subject spice data receiver env.signer now = some t) :
    t.verifyIssuer env.verifier = true ∧ t.receiverSignature = [] := by
  unfold Transaction.new at h
  split at h
  · cases h
  · split at h
    · cases h
    · cases h
      exact ⟨ho.verify _, rfl⟩

/-- The signatures of a transaction that a vertex is verified for: the issuer's, and the receiver's when
    there is one. -/
def Transaction.authentic (verifier : Verifier) (t : Transaction) : Bool :=
  if t.receiverSignature.length ≠ 0 then t.verifyIssuerReceiver verifier else t.verifyIssuer verifier

theorem Vertex.verify_eq (verifier : Verifier) (v : Vertex) : v.verify verifier =
    (v.transaction.authentic verifier && verifier.verify v.initData v.signature v.hash v.signerPublicAddress) :=
  rfl

theorem OwnSignatures.verify_new (ho : OwnSignatures env) (t : Transaction) (l r : Hash) (w : UInt64) (now : Time) :
    (Vertex.new t l r w env.signer now).verify env.verifier = t.authentic env.verifier := by
  have hseal := ho.verify (Vertex.new t l r w env.signer now).initData
  rw [Vertex.verify_eq, Vertex.new_transaction]
  exact (Bool.and_eq_left_iff_imp.mpr fun _ => hseal)

theorem OwnSignatures.new (ho : OwnSignatures env) (l r : Hash) (w : UInt64) (now : Time)
    (hissuer : t.verifyIssuer env.verifier = true) (hreceiver : t.receiverSignature = []) :
    (Vertex.new t l r w env.signer now).verify env.verifier = true := by
  rw [ho.verify_new, Transaction.authentic, hreceiver, if_neg (by simp), hissuer]

end

/-- What is written is read back unchanged. -/
structure Codec.Faithful (codec : Codec) : Prop where
  vertex : ∀ v, codec.decodeVertex (codec.encodeVertex v) = (v, true)
  spice : ∀ s, codec.decodeSpice (codec.encodeSpice s) = (s, true)

/-! ### Numbering vertices -/

section Numbering

instance instEncodableUInt8 : Encodable UInt8 := Encodable.ofLeftInverse UInt8.toNat UInt8.ofNat fun _ => by simp

instance instEncodableUInt64 : Encodable UInt64 := Encodable.ofLeftInverse UInt64.toNat UInt64.ofNat fun _ => by simp

instance : Encodable Hash :=
  Encodable.ofLeftInjection Hash.bytes (fun b => if h : b.length = 32 then some ⟨b, h⟩ else none)
    fun h => by simp [h.len]

instance : Encodable Melange :=
  Encodable.ofLeftInverse (fun m => (m.currency, m.supplementaryCurrency)) (fun p => ⟨p.1, p.2⟩)
    fun _ => rfl

instance : Encodable Transaction :=
  Encodable.ofLeftInverse
    (fun t => (t.createdAt, t.issuerAddress, t.receiverAddress, t.subject, t.data, t.issuerSignature,
      t.receiverSignature, t.hash, t.spice))
    (fun ⟨c, i, r, s, d, is, rs, h, m⟩ => ⟨c, i, r, s, d, is, rs, h, m⟩) fun _ => rfl

instance : Encodable Vertex :=
  Encodable.ofLeftInverse
    (fun v => (v.signerPublicAddress, v.createdAt, v.signature, v.transaction, v.hash,
      v.leftParentHash, v.rightParentHash, v.weight))
    (fun ⟨a, c, s, t, h, l, r, w⟩ => ⟨a, c, s, t, h, l, r, w⟩) fun _ => rfl

end Numbering

/-- What is encoded is decoded unchanged. -/
structure TrxCodec.Faithful (codec : TrxCodec) : Prop where
  decode : ∀ t, codec.decode (codec.encode t) = some t

/-! ### The transparent scheme -/

namespace Transparent

/-- The zero value of a vertex. -/
def zeroVertex : Vertex where
  signerPublicAddress := []
  createdAt := 0
  signature := []
  transaction := ⟨0, [], [], [], [], [], [], Hash.zero, ⟨0, 0⟩⟩
  hash := Hash.zero
  leftParentHash := Hash.zero
  rightParentHash := Hash.zero
  weight := 0

/-- Numbers in unary after a tag. Decoding the other kind finds none of its fields and succeeds
    with the zero value, as a map decoder does. -/
def codec : Codec where
  encodeVertex v := 1 :: List.replicate (Encodable.encode v) 0
  decodeVertex
    | 1 :: bytes => match (Encodable.decode bytes.length : Option Vertex) with
      | some v => (v, true)
      | none => (zeroVertex, false)
    | _ => (zeroVertex, true)
  encodeSpice s := 0 :: List.replicate (Encodable.encode s) 0
  decodeSpice
    | 0 :: bytes => match (Encodable.decode bytes.length : Option Melange) with
      | some s => (s, true)
      | none => (⟨0, 0⟩, false)
    | _ => (⟨0, 0⟩, true)

theorem codec_faithful : codec.Faithful where
  vertex v := by simp [codec]
  spice s := by simp [codec]

/-- A nonzero byte, the length and the last bytes of the message, latest first. -/
def digest (message : Bytes) : Hash where
  bytes := 1 :: UInt8.ofNat message.length :: (message.reverse ++ List.replicate 30 0).take 30
  len := by simp

def signer (address : Address) : Signer := ⟨fun message => (digest message, address), address⟩

def verifier : Verifier where
  check message signature hash address :=
    if hash = digest message ∧ signature = address then .accepted else .refused

theorem verifier_ne_panicked (message signature : Bytes) (hash : Hash) (address : Address) :
    verifier.check message signature hash address ≠ .panicked := by
  simp only [verifier]
  split <;> simp

theorem check_ne_panicked (v : Vertex) : v.check verifier ≠ .panicked := by
  have htrx : (if v.transaction.receiverSignature.length ≠ 0 then v.transaction.checkIssuerReceiver verifier
      else v.transaction.checkIssuer verifier) ≠ .panicked := by
    split
    · rw [Transaction.checkIssuerReceiver, ne_eq, Verdict.andThen_eq_panicked_iff]
      rintro (h | ⟨-, h⟩) <;> exact verifier_ne_panicked _ _ _ _ h
    · exact verifier_ne_panicked _ _ _ _
  rw [Vertex.check, ne_eq, Verdict.andThen_eq_panicked_iff]
  rintro (h | ⟨-, h⟩)
  · exact htrx h
  · exact verifier_ne_panicked _ _ _ _ h

theorem verifier_verify (message signature : Bytes) (hash : Hash) (address : Address) :
    verifier.verify message signature hash address = decide (hash = digest message ∧ signature = address) := by
  simp [Verifier.verify, verifier]

theorem digest_ne_zero (message : Bytes) : digest message ≠ Hash.zero := by
  rintro h
  have := congrArg (fun k : Hash => k.bytes.head?) h
  simp [digest, Hash.zero, List.replicate] at this

/-- A node that signs as `address`. -/
def env (address : Address) : Env := ⟨verifier, signer address, codec⟩

theorem nonzeroDigests (address : Address) : NonzeroDigests (env address) where
  verifier message signature a := by
    have := (digest_ne_zero message).symm
    simp [env, verifier_verify, this]
  signer message := digest_ne_zero message

theorem ownSignatures (address : Address) : OwnSignatures (env address) where
  verify message := by simp [env, verifier_verify, signer]

/-- A transaction as its issuer signs it. -/
def trx (issuer receiver : Address) (spice : Melange) (data : Bytes) (now : Time) : Transaction :=
  let unsigned : Transaction :=
    { createdAt := now, issuerAddress := issuer, receiverAddress := receiver, subject := [1], data,
      issuerSignature := issuer, receiverSignature := [], hash := Hash.zero, spice }
  { unsigned with hash := digest unsigned.getMessage }

/-! ### A small ledger -/

/-- The wallet address made of one byte. -/
def wallet (n : UInt8) : Address := List.replicate 49 n

/-- The node of the sample runs, and a node that it receives vertices from. -/
def hub : Address := wallet 2
def peer : Address := wallet 3

/-- A genesis that pays `amount` to `wallet 7`. -/
def genesisSpec (amount : UInt64) : Book.GenesisSpec := ⟨[1], ⟨amount, 0⟩, [], wallet 7, 1, 2⟩

def genesisTrx (amount : UInt64) : Transaction := trx hub (wallet 7) ⟨amount, 0⟩ [] 1

def root (amount : UInt64) : Vertex :=
  Vertex.new (genesisTrx amount) Hash.zero Hash.zero 0 (signer hub) 2

/-- A vertex that `peer` seals. -/
def sealed (t : Transaction) (l r : Vertex) (weight : UInt64) (now : Time) : Vertex :=
  Vertex.new t l.hash r.hash weight (signer peer) now

/-- One undisturbed `AddLeaf`. -/
def addEvents (v : Vertex) : List Event :=
  [.beginAdd v .none, .finishAdd (newMemory v) (fun _ => .calm []) .none]

/-- One undisturbed `CreateLeaf`. -/
def createEvents (t : Transaction) (now : Time) : List Event :=
  [.beginCreate t .none, .finishCreate t ⟨[], fun _ => .calm []⟩ ⟨[], fun _ => .calm []⟩ now .none]

/-- The sample node after its genesis. -/
def start (amount : UInt64) : Node :=
  ((Node.genesis (env hub) 0 (genesisSpec amount)).map Prod.fst).getD ⟨newAccountingBook 0, []⟩

theorem genesis_start (amount : UInt64) :
    Node.genesis (env hub) 0 (genesisSpec amount) = some (start amount, root amount) := rfl

/-! ### A small server -/

/-- Every byte behind a one, and a zero at the end. -/
def putBytes (b : Bytes) : Bytes := b.flatMap (fun x => [1, x]) ++ [0]

def takeBytes : Bytes → Option (Bytes × Bytes)
  | 0 :: rest => some ([], rest)
  | 1 :: x :: rest => (takeBytes rest).map fun p => (x :: p.1, p.2)
  | _ => none

theorem take_putBytes (b rest : Bytes) : takeBytes (putBytes b ++ rest) = some (b, rest) := by
  induction b with
  | nil => rfl
  | cons x b ih =>
    have hcons : putBytes (x :: b) ++ rest = 1 :: x :: (putBytes b ++ rest) := by simp [putBytes]
    rw [hcons, takeBytes, ih, Option.map_some]

/-- A number as that many zeros. -/
def putNat (n : ℕ) : Bytes := putBytes (List.replicate n 0)

def takeNat (b : Bytes) : Option (ℕ × Bytes) := (takeBytes b).map fun p => (p.1.length, p.2)

theorem take_putNat (n : ℕ) (rest : Bytes) : takeNat (putNat n ++ rest) = some (n, rest) := by
  rw [takeNat, putNat, take_putBytes, Option.map_some, List.length_replicate]

/-- The fields one after the other. -/
def putTrx (t : Transaction) : Bytes :=
  putNat t.createdAt.toNat ++ putNat (-t.createdAt).toNat ++ putBytes t.issuerAddress ++
    putBytes t.receiverAddress ++ putBytes t.subject ++ putBytes t.data ++ putBytes t.issuerSignature ++
    putBytes t.receiverSignature ++ putBytes t.hash.bytes ++ putNat t.spice.currency.toNat ++
    putNat t.spice.supplementaryCurrency.toNat

def takeTrx (b : Bytes) : Option Transaction := do
  let (after, b) ← takeNat b
  let (before, b) ← takeNat b
  let (issuerAddress, b) ← takeBytes b
  let (receiverAddress, b) ← takeBytes b
  let (subject, b) ← takeBytes b
  let (data, b) ← takeBytes b
  let (issuerSignature, b) ← takeBytes b
  let (receiverSignature, b) ← takeBytes b
  let (hash, b) ← takeBytes b
  let (currency, b) ← takeNat b
  let (supplementary, _) ← takeNat b
  if h : hash.length = 32 then
    return { createdAt := (after : ℤ) - before, issuerAddress, receiverAddress, subject, data, issuerSignature,
             receiverSignature, hash := ⟨hash, h⟩, spice := ⟨UInt64.ofNat currency, UInt64.ofNat supplementary⟩ }
  else none

def plainCodec : TrxCodec := ⟨putTrx, takeTrx⟩

theorem plainCodec_faithful : plainCodec.Faithful where
  decode t := by
    have htime : (t.createdAt.toNat : ℤ) - (-t.createdAt).toNat = t.createdAt := by
      have : ∀ n : ℤ, (n.toNat : ℤ) - (-n).toNat = n := fun n => by omega
      exact this _
    have hlast : takeNat (putNat t.spice.supplementaryCurrency.toNat) =
        some (t.spice.supplementaryCurrency.toNat, []) := by
      have := take_putNat t.spice.supplementaryCurrency.toNat []
      rwa [List.append_nil] at this
    simp only [plainCodec, putTrx, takeTrx, bind, Option.bind, List.append_assoc, take_putNat, take_putBytes,
      hlast]
    rw [dif_pos t.hash.len, htime]
    simp

/-- The server of the sample node, with room for the data of a contract. -/
def serverEnv : ServerEnv := ⟨env hub, plainCodec, 1024⟩

/-- The server after a genesis that pays 10 to `wallet 7`. -/
def service : Service := ⟨(start 10).book, ∅, ∅, ⟨[], [], false⟩, [], false⟩

/-- Nothing fails, and maps and walkers deliver in the order in which they are kept. -/
def calmly (now : Time) : Circumstance where
  flashGet := false
  flashSet := false
  dataValid := true
  cache := .none
  ledger := .none
  first := ⟨[], fun _ => .calm []⟩
  second := ⟨[], fun _ => .calm []⟩
  order := []
  walk := ⟨[], none⟩
  fundsFail := false
  mapFails := false
  readFails := false
  now := now

/-- A request about the address that `signer` signs. -/
def askFor (a signature : Address) : SignedHash := ⟨a, a, (digest a).bytes, signature⟩

end Transparent

end Computantis
