import Computantis.Laws.Intake

/-! @law authenticity | name:Only authentic vertices | family:invariant | about:Model/Notary

    Vertices enter the graph by five doors. Genesis and `AddLeaf` verify what they insert, or make it
    themselves. `Confirm` verifies both signatures of its transaction. But `Propose`, `GossipTrx` and with
    them `Reject` look at the issuer's signature only, so a receiver's signature that does not verify gets
    through; and `LoadDag` verifies nothing. -/

namespace Computantis

open Schemes

/-! ### The invariant of the server -/

theorem Transaction.authentic_of_both {verifier : Verifier} {t : Transaction}
    (h : t.verifyIssuerReceiver verifier = true) : t.authentic verifier = true := by
  unfold Transaction.authentic
  split
  · exact h
  · exact (Bool.and_eq_true _ _ ▸ h : _ ∧ _).1

/-- CONDITION on a request: the transaction carries no receiver's signature, or one that verifies. -/
def ReceiverSigned (verifier : Verifier) (req : Option ProtoTransaction) : Prop :=
  ∀ trx, protoTrxToTrx req = .ok trx → trx.receiverSignature = [] ∨
    verifier.verify trx.getMessage trx.receiverSignature trx.hash trx.receiverAddress = true

theorem ReceiverSigned.authentic {verifier : Verifier} {req : Option ProtoTransaction} {trx : Transaction}
    (h : ReceiverSigned verifier req) (htrx : protoTrxToTrx req = .ok trx)
    (hissuer : trx.verifyIssuer verifier = true) : trx.authentic verifier = true := by
  unfold Transaction.authentic
  rcases h trx htrx with hnone | hsigned
  · rw [if_neg (by simp [hnone])]
    exact hissuer
  · split
    · exact Bool.and_eq_true_iff.mpr ⟨hissuer, hsigned⟩
    · exact hissuer

/-- CONDITION on an event: what is loaded verifies, and so does a receiver's signature on what is
    proposed or gossiped. -/
def Server.Event.Honest (env : ServerEnv) : Server.Event → Prop
  | .load _ stream => ∀ v ∈ delivered stream, v.verify env.ledger.verifier = true
  | .propose req _ _ => ReceiverSigned env.ledger.verifier req
  | .gossipTrx req _ => ReceiverSigned env.ledger.verifier req
  | _ => True

/-- Every transaction of the cache is authentic. -/
def AwaitedAuthentic (env : ServerEnv) (mem : BigCache) : Prop :=
  Caches (fun t => t.authentic env.ledger.verifier = true) env mem

/-- INVARIANT: everything in the graph verifies, and so will everything on its way. -/
structure Authentic (env : ServerEnv) (s : Server) : Prop where
  ledger : Every (fun v => v.verify env.ledger.verifier = true) s.node.book
  adds : s.node.PendingVerified env.ledger
  creates : ∀ trx, Call.create trx ∈ s.node.pending → trx.authentic env.ledger.verifier = true
  awaited : AwaitedAuthentic env s.cache

theorem Server.Event.Honest.brings {env : ServerEnv} (ho : OwnSignatures env.ledger) {e : Server.Event}
    (he : e.Honest env) : e.Brings (fun t => t.authentic env.ledger.verifier = true)
      (fun v => v.verify env.ledger.verifier = true) env := by
  cases e with
  | genesis spec saveFails =>
    intro g hg
    obtain ⟨t, ht, rfl⟩ := hg
    exact ho.new _ _ _ _ (ho.trx ht).1 (ho.trx ht).2
  | load sched stream => exact he
  | propose req f faults => exact fun trx htrx hissuer => he.authentic htrx hissuer
  | confirm req f faults => exact fun trx _ hboth => Transaction.authentic_of_both hboth
  | gossipTrx req f => exact fun trx htrx hissuer => he.authentic htrx hissuer
  | gossipVrx req faults => exact fun _ _ hverified => hverified
  | _ => trivial

namespace Authentic

variable {env : ServerEnv} {s : Server}

theorem call (ho : OwnSignatures env.ledger) {e : Event}
    (hcreate : ∀ trx faults, e = .beginCreate trx faults → trx.authentic env.ledger.verifier = true)
    (h : Authentic env s) : Authentic env { s with node := s.node.step env.ledger e } := by
  refine ⟨h.ledger.step fun leaf l r hs => ?_, h.adds.step e, fun trx htrx => ?_, h.awaited⟩
  · cases e with
    | finishCreate trx first second now faults =>
      obtain ⟨hp, rfl, -⟩ := hs
      exact (ho.verify_new trx _ _ _ now).trans (h.creates trx hp)
    | finishAdd m probe faults =>
      obtain ⟨hp, rfl⟩ := hs
      exact h.adds m hp
    | _ => exact hs.elim
  · rcases Node.pending_step htrx with hold | hnew
    · exact h.creates trx hold
    · cases hnew with
      | create => exact hcreate trx _ rfl

theorem serving (ho : OwnSignatures env.ledger) : Serving (fun t => t.authentic env.ledger.verifier = true)
    (fun v => v.verify env.ledger.verifier = true) env (Authentic env) where
  caches h := h.awaited
  cached hcache h := ⟨h.ledger, h.adds, h.creates, hcache⟩
  lived {s l} hl h := by
    cases l with
    | genesis spec saveFails =>
      exact ⟨Every.inserting.createGenesis hl saveFails h.ledger, h.adds, h.creates, h.awaited⟩
    | load sched stream => exact ⟨Every.inserting.loadDag sched hl h.ledger, h.adds, h.creates, h.awaited⟩
    | call e =>
      refine h.call ho fun trx faults heq => ?_
      subst heq
      exact hl
    | _ => exact hl.elim

theorem fresh (n : UInt64) : Authentic env (Server.fresh n) := by
  refine ⟨Every.fresh n, ?_, ?_, fun k raw t hraw => ?_⟩
  · simp [Node.PendingVerified, Node.PendingAdds, Server.fresh, Node.fresh]
  · simp [Server.fresh, Node.fresh]
  · cases hraw

end Authentic

/-- ONLY AUTHENTIC VERTICES: whatever a server has been asked to do, if the streams that it loaded hold
    vertices that verify and every receiver's signature on a proposed or gossiped transaction verifies,
    then every vertex of its graph verifies. -/
theorem ledger_authentic {env : ServerEnv} (ho : OwnSignatures env.ledger) (hc : env.trxCodec.Faithful)
    (n : UInt64) {es : List Server.Event} (hes : ∀ e ∈ es, e.Honest env) :
    let b := (run (Server.step env) (Server.fresh n) es).node.book
    ∀ v, b.dag.getVertex v.hash = some v → v.verify env.ledger.verifier = true := by
  intro b v hv
  have hrun := (Authentic.serving ho).run hc (fun e he => (hes e he).brings ho) (Authentic.fresh n)
  exact hrun.ledger v.hash v hv

/-! ### Two doors -/

namespace Transparent

/-- A payment with some bytes as the receiver's signature. -/
def signedPayment (receiverSignature : Bytes) : Transaction :=
  { trx (wallet 7) (wallet 8) ⟨4, 0⟩ [] 3 with receiverSignature }

/-- The payment is proposed to a server with a genesis vertex, and a leaf is created for it. -/
def proposeEvents (receiverSignature : Bytes) : List Server.Event :=
  [.genesis (genesisSpec 10) false,
    .propose (some (signedPayment receiverSignature).toProto) .none .none,
    .ledger (.finishCreate (signedPayment receiverSignature) ⟨[], fun _ => .calm []⟩
      ⟨[], fun _ => .calm []⟩ 6 .none) trivial]

/-- The leaf that is created. -/
def proposedLeaf (receiverSignature : Bytes) : Vertex :=
  Book.tip (env hub) (signedPayment receiverSignature) (root 10) (root 10) 6

/-- A vertex with somebody else's signature for its seal, in a stream below the genesis vertex. -/
def forged : Vertex :=
  { sealed (trx (wallet 7) (wallet 8) ⟨4, 0⟩ [] 3) (root 10) (root 10) 1 4 with signature := wallet 9 }

def loadEvents : List Server.Event := [.load ⟨[], [], fun _ => false⟩ [some (root 10), some forged]]

/-- The graph after the events. -/
def served (es : List Server.Event) : Book := (run (Server.step serverEnv) (Server.fresh 0) es).node.book

end Transparent

open Transparent in
/-- BUG: a proposed payment with a receiver's signature that does not verify becomes a leaf that does not
    verify; and a stream with a forged vertex is loaded. -/
theorem unauthentic_vertices :
    ((served (proposeEvents [9])).dagLoaded = true ∧
      (served (proposeEvents [9])).dag.getVertex (proposedLeaf [9]).hash = some (proposedLeaf [9]) ∧
      (proposedLeaf [9]).verify verifier = false) ∧
    (served loadEvents).dagLoaded = true ∧ (served loadEvents).dag.getVertex forged.hash = some forged ∧
      forged.verify verifier = false := by
  decide +kernel

open Transparent in
/-- The law at a payment without a receiver's signature. -/
theorem proposed_payment_verifies :
    (served (proposeEvents [])).dag.getVertex (proposedLeaf []).hash = some (proposedLeaf []) ∧
      (proposedLeaf []).verify serverEnv.ledger.verifier = true := by
  have hleaf : (served (proposeEvents [])).dag.getVertex (proposedLeaf []).hash = some (proposedLeaf []) := by
    decide +kernel
  have hsame : protoTrxToTrx (some (signedPayment []).toProto) = .ok (signedPayment []) := by decide +kernel
  have hreq : ReceiverSigned serverEnv.ledger.verifier (some (signedPayment []).toProto) := by
    intro t ht
    rw [hsame] at ht
    obtain rfl := Except.ok.inj ht
    exact Or.inl rfl
  have hes : ∀ e ∈ proposeEvents [], e.Honest serverEnv := by
    rw [proposeEvents]
    exact List.forall_mem_cons.mpr ⟨trivial, List.forall_mem_cons.mpr ⟨hreq, List.forall_mem_singleton.mpr trivial⟩⟩
  have ho : OwnSignatures serverEnv.ledger := ownSignatures hub
  refine ⟨hleaf, ledger_authentic ho plainCodec_faithful 0 hes (proposedLeaf []) ?_⟩
  rw [served] at hleaf
  exact hleaf

end Computantis
