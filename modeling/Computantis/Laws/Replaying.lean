import Computantis.Laws.Rejecting
import Computantis.Model.Middleware

/-! @law replaying | name:Requests at other endpoints | family:security | about:Model/Middleware, Model/Service

    No signed request says which operation it is for. What a client signs to read a saved transaction is, byte
    for byte, what it signs to reject it, so whoever gets the one can send it as the other. Two endpoints that
    take such requests change something: `Reject` takes a contract from the cache, and `Webhooks` sets a hook.
    Neither refuses the requests of other operations for what they are.

        ReadSavedTransaction h ──▶ ⟨address, h, digest h, signature⟩ ──▶ Saved
                                          │ replayed
                                          └──▶ Reject: the contract is gone, its leaf is there -/

namespace Computantis

section Replays

variable {env : ServerEnv} {c : Circumstance} {s : Service} {w : Signer} {digest : Bytes → Hash}

theorem Operation.signed_ok (hw : w.Matches env.ledger.verifier digest) (op : Operation) :
    (op.signedHash w).signed env.ledger.verifier = .ok true := by
  rw [SignedHash.signed, Operation.signedHash, Hash.ofSlice_bytes]
  exact congrArg Verdict.returned (Verifier.verify_iff.mp ((hw.accepts _ _ _).mpr rfl))

/-- EXACT (`Reject`): the request of an operation changes nothing exactly when its data names no contract
    that waits for the wallet. -/
theorem Operation.reject_iff (hw : w.Matches env.ledger.verifier digest) (op : Operation) :
    Unchanged env s (s.reject env c (some (op.signedHash w))).1 ↔
      ∀ hash, Hash.ofSlice (op.data w.address) = .ok hash →
        ¬ Takes env.trxCodec c.cache s.cache hash w.address := by
  rw [reject_unchanged_iff]
  constructor
  · intro h
    exact h _ (Hash.ofSlice_bytes _) ((hw.accepts _ _ _).mpr rfl)
  · intro h hash _ _
    exact h

theorem Operation.webhooks_iff (hw : w.Matches env.ledger.verifier digest) (hooks : Hooks) (op : Operation) :
    (∃ e, hooks.webhooks env.ledger.verifier (op.signedHash w) = (hooks, .error e)) ↔
      Url.parse (op.data w.address) = false := by
  have hdata : (op.signedHash w).data = op.data w.address := rfl
  rw [Hooks.webhooks, op.signed_ok hw, hdata]
  cases Url.parse (op.data w.address) with
  | false => exact iff_of_true ⟨_, rfl⟩ rfl
  | true =>
    refine iff_of_false ?_ (by decide)
    rintro ⟨e, h⟩
    cases congrArg Prod.snd h

end Replays

/-- VERDICT: the two endpoints that change something refuse the request of an operation that is not meant for
    them exactly when its data, as far as it is a hash, names no contract that waits for the wallet, and when
    it is no URL. -/
theorem replay_refused_iff {env : ServerEnv} {w : Signer} {digest : Bytes → Hash}
    (hw : w.Matches env.ledger.verifier digest) (c : Circumstance) (s : Service) (hooks : Hooks)
    (op : Operation) :
    ((op.endpoint ≠ .reject → Unchanged env s (s.reject env c (some (op.signedHash w))).1) ∧
      (op.endpoint ≠ .webhooks →
        ∃ e, hooks.webhooks env.ledger.verifier (op.signedHash w) = (hooks, .error e))) ↔
    ((op.endpoint ≠ .reject → ∀ hash, Hash.ofSlice (op.data w.address) = .ok hash →
        ¬ Takes env.trxCodec c.cache s.cache hash w.address) ∧
      (op.endpoint ≠ .webhooks → Url.parse (op.data w.address) = false)) := by
  refine and_congr ?_ ?_
  · exact imp_congr_right fun _ => op.reject_iff hw
  · exact imp_congr_right fun _ => op.webhooks_iff hw hooks

open Transparent in
/-- BUG: the receiver asks to read a contract that waits for it. The message is that of a rejection, `Reject`
    takes it, and the contract is in the ledger and no longer waits. A request for a balance sets a hook, since an
    address of letters is a URL. -/
theorem saved_request_rejects :
    (Operation.readSavedTransaction (deal 0).hash).signedHash (signer (wallet 8)) =
        (Operation.rejectTransactions (deal 0).hash).signedHash (signer (wallet 8)) ∧
      ((dealt 0).reject serverEnv (calmly 6)
        (some ((Operation.readSavedTransaction (deal 0).hash).signedHash (signer (wallet 8))))).2 = .ok .empty ∧
      ¬ Unchanged serverEnv (dealt 0) ((dealt 0).reject serverEnv (calmly 6)
        (some ((Operation.readSavedTransaction (deal 0).hash).signedHash (signer (wallet 8))))).1 ∧
      (Hooks.webhooks verifier ∅ (Operation.readBalance.signedHash (signer (wallet 87)))).2 = .ok () := by
  refine ⟨rfl, by decide +kernel, fun h => ?_, by decide +kernel⟩
  -- the contract is found before and not after
  have hread : (removeAwaitedTransaction plainCodec .none ((dealt 0).reject serverEnv (calmly 6)
        (some ((Operation.readSavedTransaction (deal 0).hash).signedHash (signer (wallet 8))))).1.cache
        (deal 0).hash (wallet 8)).2 = .error .errTransactionNotFound ∧
      (removeAwaitedTransaction plainCodec .none (dealt 0).cache (deal 0).hash (wallet 8)).2 =
        .ok (deal 0, none) := by decide +kernel
  have hsame := h.cache.remove (deal 0).hash (wallet 8)
  rw [show serverEnv.trxCodec = plainCodec from rfl, hread.1, hread.2] at hsame
  cases hsame

open Transparent in
/-- Where no contract waits and the hash is no URL, both endpoints refuse the request. -/
theorem saved_request_refused :
    (Unchanged serverEnv service (service.reject serverEnv (calmly 6)
        (some ((Operation.readSavedTransaction (deal 0).hash).signedHash (signer (wallet 8))))).1) ∧
      ∃ e, Hooks.webhooks verifier ∅
        ((Operation.readSavedTransaction (deal 0).hash).signedHash (signer (wallet 8))) = (∅, .error e) := by
  have hw : (signer (wallet 8)).Matches serverEnv.ledger.verifier digest := Transparent.matches (wallet 8)
  have hurl : Url.parse ((Operation.readSavedTransaction (deal 0).hash).data (signer (wallet 8)).address) = false := by
    decide +kernel
  have h := (replay_refused_iff hw (calmly 6) service ∅ (.readSavedTransaction (deal 0).hash)).mpr ⟨?_, fun _ => hurl⟩
  · exact ⟨h.1 (by decide), h.2 (by decide)⟩
  · rintro - hash - ⟨-, -, raw, -, hraw, -⟩
    cases hraw

end Computantis
