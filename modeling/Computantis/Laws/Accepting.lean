import Computantis.Laws.Assumptions
import Computantis.Model.Middleware

/-! @law accepting | name:What a client takes from a node | family:security | about:Model/Middleware, Model/Wire

    `ReadSavedTransaction` means to choose between two checks of what the node answers: the issuer's signature
    alone, or both signatures. It chooses by the receiver's address, which `ProtoTrxToTrx` has made sure of
    before. So the second check is never made, and whatever stands in the place of the receiver's signature is
    returned as it came (`readSaved_ok_iff`).

        answer ──ProtoTrxToTrx──▶ receiver ≠ "" ──▶ VerifyIssuer
                                  receiver = "" ──▶ VerifyIssuerReceiver   (never) -/

namespace Computantis

/-! ### The wire -/

/-- The same transaction with something else for the receiver's signature. -/
def Transaction.resigned (t : Transaction) (signature : Bytes) : Transaction :=
  { t with receiverSignature := signature }

theorem Transaction.ofProto_ok {p : ProtoTransaction} {t : Transaction} (h : Transaction.ofProto p = .ok t) :
    t.receiverAddress = p.receiverAddress ∧
      ∀ signature, Transaction.ofProto { p with receiverSignature := signature } = .ok (t.resigned signature) := by
  unfold Transaction.ofProto at h ⊢
  cases hhash : Hash.ofSlice p.hash with
  | error e =>
    rw [hhash] at h
    cases h
  | ok hash =>
    cases hspice : Melange.ofProto p.spice with
    | error e =>
      rw [hhash, hspice] at h
      cases h
    | ok spice =>
      rw [hhash, hspice] at h
      cases h
      refine ⟨rfl, fun signature => ?_⟩
      rw [hhash, hspice]
      rfl

/-- A transaction that has crossed the wire has a receiver, and any receiver's signature crosses with it. -/
theorem protoTrxToTrx_ok {p : Option ProtoTransaction} {t : Transaction} (h : protoTrxToTrx p = .ok t) :
    t.receiverAddress ≠ [] ∧ ∀ signature,
      protoTrxToTrx (p.map fun p => { p with receiverSignature := signature }) = .ok (t.resigned signature) := by
  cases p with
  | none => cases h
  | some p =>
    rw [protoTrxToTrx] at h
    split at h
    · cases h
    next hfields =>
      obtain ⟨hreceiver, hresigned⟩ := Transaction.ofProto_ok h
      refine ⟨?_, fun signature => ?_⟩
      · rw [hreceiver]
        exact fun hempty => hfields (.inr (.inr (.inl hempty)))
      · rw [Option.map_some, protoTrxToTrx, if_neg hfields, hresigned]

/-! ### The check -/

namespace WalletClient

variable {c : WalletClient} {saved : SignedHash → Option (Option ProtoTransaction)} {hash : Hash}

/-- SPEC: a transaction is returned when the client is ready, the call succeeds, the answer converts and the
    issuer's signature verifies. -/
theorem readSaved_ok_iff {trx : Transaction} : c.readSavedTransaction saved hash = .ok trx ↔
    c.ready = true ∧ ∃ p, saved ((Operation.readSavedTransaction hash).signedHash c.w) = some p ∧
      protoTrxToTrx p = .ok trx ∧ trx.verifyIssuer c.verifier = true := by
  unfold readSavedTransaction
  cases c.ready with
  | false => simp
  | true =>
    cases hsaved : saved ((Operation.readSavedTransaction hash).signedHash c.w) with
    | none => simp
    | some p =>
      cases hconv : protoTrxToTrx p with
      | error e => simp [hconv]
      | ok t =>
        -- the switch takes its first case, for the conversion has refused an empty address
        have hfirst : decide (t.receiverAddress ≠ []) = true := decide_eq_true (protoTrxToTrx_ok hconv).1
        simp only [hfirst, Bool.true_eq_false, if_false, true_and, Option.some.injEq, exists_eq_left', hconv,
          Except.ok.injEq]
        cases hverdict : t.checkIssuer c.verifier with
        | accepted =>
          rw [Except.ok.injEq]
          refine ⟨fun h => ?_, And.left⟩
          subst h
          exact ⟨rfl, Transaction.checkIssuer_eq_accepted_iff.mp hverdict⟩
        | refused | panicked =>
          refine iff_of_false (by simp) ?_
          rintro ⟨rfl, h⟩
          rw [Transaction.checkIssuer_eq_accepted_iff.mpr h] at hverdict
          cases hverdict

/-- What the client returns with a receiver's signature, it has verified as signed by both. -/
def ReportsVerified (c : WalletClient) (saved : SignedHash → Option (Option ProtoTransaction)) (hash : Hash) :
    Prop :=
  ∀ trx, c.readSavedTransaction saved hash = .ok trx → trx.receiverSignature ≠ [] →
    trx.verifyIssuerReceiver c.verifier = true

end WalletClient

/-- VERDICT: the client reports no unverified acceptance exactly when the node answers with none that the
    issuer has signed. -/
theorem reports_verified_iff (c : WalletClient) (saved : SignedHash → Option (Option ProtoTransaction))
    (hash : Hash) : c.ReportsVerified saved hash ↔
      (c.ready = true → ∀ p trx, saved ((Operation.readSavedTransaction hash).signedHash c.w) = some p →
        protoTrxToTrx p = .ok trx → trx.verifyIssuer c.verifier = true →
        trx.receiverSignature = [] ∨
          c.verifier.verify trx.getMessage trx.receiverSignature trx.hash trx.receiverAddress = true) := by
  constructor
  · intro h hready p trx hsaved hconv hissuer
    rcases eq_or_ne trx.receiverSignature [] with hnone | hsome
    · exact .inl hnone
    · have hboth := h trx (WalletClient.readSaved_ok_iff.mpr ⟨hready, p, hsaved, hconv, hissuer⟩) hsome
      rw [Transaction.verifyIssuerReceiver, Bool.and_eq_true] at hboth
      exact .inr hboth.2
  · intro h trx hread hsome
    obtain ⟨hready, p, hsaved, hconv, hissuer⟩ := WalletClient.readSaved_ok_iff.mp hread
    rw [Transaction.verifyIssuerReceiver, Bool.and_eq_true]
    exact ⟨hissuer, (h hready p trx hsaved hconv hissuer).resolve_left hsome⟩

namespace Transparent

/-- The client of the wallet that pays. -/
def reader : WalletClient := ⟨true, signer (wallet 7), verifier⟩

/-- A payment that its receiver has never seen, with one byte for the receiver's signature. -/
def unseen : Transaction := (trx (wallet 7) (wallet 8) ⟨4, 0⟩ [] 3).resigned [9]

end Transparent

open Transparent in
/-- BUG: the node answers with the payment, and the client returns it as signed by its receiver. -/
theorem unverified_acceptance_reported :
    reader.readSavedTransaction (fun _ => some (some unseen.toProto)) unseen.hash = .ok unseen ∧
      unseen.verifyIssuerReceiver verifier = false ∧
      ¬ reader.ReportsVerified (fun _ => some (some unseen.toProto)) unseen.hash := by
  have hread : reader.readSavedTransaction (fun _ => some (some unseen.toProto)) unseen.hash = .ok unseen ∧
      unseen.verifyIssuerReceiver verifier = false := by decide +kernel
  refine ⟨hread.1, hread.2, fun h => ?_⟩
  have hboth := h unseen hread.1 (by decide)
  exact absurd (hread.2.symm.trans hboth) (by decide)

end Computantis
