import Mathlib.Algebra.BigOperators.Group.Finset.Piecewise
import Mathlib.Algebra.GroupWithZero.Nat

/-! @scheme transfers | name:Books of transfers | family:measure

    A book is a list of entries, each of which moves an amount from a payer to a payee. What all accounts
    together have received is what they have paid: the sum over the accounts is exchanged with the sum over
    the entries. So what some accounts hold above zero is what the others are in debt. -/

namespace Schemes

variable {α τ : Type} [DecidableEq α]

/-- What an account gets (or gives) in a list of entries, when `who` names the account of an entry. -/
def flow (who : τ → α) (amount : τ → ℕ) (a : α) (ts : List τ) : ℕ :=
  (ts.map fun t => if who t = a then amount t else 0).sum

variable {who payer payee : τ → α} {amount : τ → ℕ}

theorem sum_flow {S : Finset α} {ts : List τ} (h : ∀ t ∈ ts, amount t ≠ 0 → who t ∈ S) :
    ∑ a ∈ S, flow who amount a ts = (ts.map amount).sum := by
  induction ts with
  | nil => simp [flow]
  | cons t ts ih =>
    obtain ⟨ht, hts⟩ := List.forall_mem_cons.mp h
    have hone : ∑ a ∈ S, (if who t = a then amount t else 0) = amount t := by
      by_cases hz : amount t = 0
      · simp [hz]
      · rw [Finset.sum_ite_eq, if_pos (ht hz)]
    simp only [flow, List.map_cons, List.sum_cons, Finset.sum_add_distrib, hone] at ih ⊢
    rw [ih hts]

theorem held_eq_owed {S : Finset α} {ts : List τ} (hpayer : ∀ t ∈ ts, amount t ≠ 0 → payer t ∈ S)
    (hpayee : ∀ t ∈ ts, amount t ≠ 0 → payee t ∈ S) :
    ∑ a ∈ S, (flow payee amount a ts - flow payer amount a ts) =
      ∑ a ∈ S, (flow payer amount a ts - flow payee amount a ts) := by
  have hsum : ∑ a ∈ S, flow payee amount a ts = ∑ a ∈ S, flow payer amount a ts :=
    (sum_flow hpayee).trans (sum_flow hpayer).symm
  -- both sides become the same sum when what was paid is added
  have hpoint : ∀ a, flow payee amount a ts - flow payer amount a ts + flow payer amount a ts =
      flow payer amount a ts - flow payee amount a ts + flow payee amount a ts := fun a => by omega
  have hall : ∑ a ∈ S, (flow payee amount a ts - flow payer amount a ts) + ∑ a ∈ S, flow payer amount a ts =
      ∑ a ∈ S, (flow payer amount a ts - flow payee amount a ts) + ∑ a ∈ S, flow payee amount a ts := by
    rw [← Finset.sum_add_distrib, ← Finset.sum_add_distrib]
    exact Finset.sum_congr rfl fun a _ => hpoint a
  omega

end Schemes
