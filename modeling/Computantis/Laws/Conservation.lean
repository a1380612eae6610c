import Computantis.Laws.Tips
import Computantis.Schemes.Transfers

/-! @law conservation | name:Money is conserved | family:measure | about:Model/Truncate

    Every balance is read from one tip and its past. There each transfer is counted once for its issuer and
    once for its receiver, and only the genesis vertex takes from the genesis wallet. So what all wallets
    are said to own, together with what has gone back to the genesis wallet, is the genesis amount and
    whatever has been overdrawn: an overdraft is the only way in which money comes into being.

        owned + returned to the genesis wallet = genesis amount + overdrawn -/

namespace Computantis

open Schemes

/-- The value of the balance that is reported for an address, none if there is an error. -/
def reported (env : Env) (b : Book) (order walk : List Hash) (now : Time) (a : Address) : ℕ :=
  match b.calculateBalance env order ⟨walk, none⟩ false now a with
  | .ok balance => balance.spice.value
  | .error _ => 0

/-- How much more the address has issued in the past of the tip than it has received. -/
def overdrawn (d : Dag) (tip : Hash) (a : Address) : ℕ := issued a (d.past tip) - received a (d.past tip)

section Reported

variable {env : Env} {b : Book} {a : Address} {order : List Hash} {tip : Hash}

/-- EXACT: the balance is what the address has received in the past of the tip, less what it has issued. -/
theorem reported_eq (hfit : PastFits env.codec b tip a) (hzero : (b.stored env.codec a).value = 0)
    (htip : (enumerate order b.dag.graph.leaves).getLast? = some tip) (walk : List Hash) (now : Time) :
    reported env b order walk now a = received a (b.dag.past tip) - issued a (b.dag.past tip) := by
  have hmem : tip ∈ b.dag.graph.nodes :=
    (Digraph.mem_leaves.mp (mem_enumerate.mp (List.mem_of_getLast? htip))).1
  have hiff := balanceFrom_ok_iff_worth hfit hmem walk
  have hworth : worth env.codec b tip a = received a (b.dag.past tip) - issued a (b.dag.past tip) := by
    rw [worth, hzero]
    omega
  rw [reported, calculateBalance_eq htip]
  cases hres : b.balanceFrom env.codec tip ⟨walk, none⟩ false a with
  | ok m =>
    have hvalue := ((hiff m).mp hres).2
    simp only [Except.map]
    omega
  | error e =>
    -- a wallet that is not in debt has a balance
    have hdebt : worth env.codec b tip a < 0 := by
      by_contra hnot
      have hcap := worth_lt_cap hfit
      obtain ⟨m, hm, hv⟩ := Melange.exists_value (n := (worth env.codec b tip a).toNat) (by omega)
      rw [(hiff m).mpr ⟨hm, by omega⟩] at hres
      cases hres
    simp only [Except.map]
    omega

end Reported

theorem Node.run_frame (env : Env) {s : Node} {es : List Event} (hes : ∀ e ∈ es, e.Ordinary) :
    Frame s.book (run (Node.step env) s es).book :=
  run_invariant_along (P := fun (_ : Node) (e : Event) => e.Ordinary) (I := fun (t : Node) => Frame s.book t.book)
    (fun t _ he hf => hf.trans (t.step_frame env he)) (along_of_forall hes s) (Frame.refl _)

/-! ### The genesis wallet -/

theorem issued_genesis {g : Vertex} {b : Book} (hc : Closed g b) {γ : Address}
    (hg : g.transaction.issuerAddress = γ)
    (hother : ∀ k v, b.dag.getVertex k = some v → v ≠ g → v.transaction.issuerAddress ≠ γ) {tip : Hash}
    (htip : tip ∈ b.dag.graph.nodes) : issued γ (b.dag.past tip) = g.transaction.spice.value := by
  have hnodup : (b.dag.past tip).Nodup := Dag.vertices_nodup (b.dag.past_nodup tip)
  have hgmem : g ∈ b.dag.past tip := by
    obtain ⟨v, hv⟩ : ∃ v, b.dag.getVertex g.hash = some v := Digraph.mem_nodes.mp (hc.genesis_mem htip)
    obtain rfl := hc.genesis v hv
    exact Dag.mem_past.mpr ⟨(hc.reach tip htip).imp_left Eq.symm, hv⟩
  obtain ⟨us, ws, hsplit⟩ := List.append_of_mem hgmem
  have hrest : ∀ v ∈ us ++ ws, issuedBy γ v = 0 := by
    intro v hv
    have hmem : v ∈ b.dag.past tip := by
      rw [hsplit]
      exact (List.mem_append.mp hv).elim (List.mem_append_left _) fun h =>
        List.mem_append_right _ (List.mem_cons_of_mem _ h)
    have hne : v ≠ g := by
      rintro rfl
      have hperm : (v :: (us ++ ws)).Nodup := List.perm_middle.nodup_iff.mp (hsplit ▸ hnodup)
      exact (List.nodup_cons.mp hperm).1 hv
    rw [issuedBy, if_neg (hother _ v (Dag.mem_past.mp hmem).2 hne)]
  have hzero : issued γ (us ++ ws) = 0 := by
    rw [issued, List.sum_eq_zero]
    intro n hn
    obtain ⟨v, hv, rfl⟩ := List.mem_map.mp hn
    exact hrest v hv
  rw [hsplit, issued_perm γ List.perm_middle, issued_cons, hzero, issuedBy, if_pos hg, Nat.add_zero]

/-- MONEY IS CONSERVED: in every state that ordinary events reach from the genesis, with all spice normalised
    and totals that fit, take the balances of any wallets that include everybody who has moved spice in the
    past of the tip, but not the genesis wallet. What they own together, with what the genesis wallet has
    received, is the genesis amount with what they have overdrawn. -/
theorem money_conserved {env : Env} (hz : NonzeroDigests env) {n : UInt64} {spec : Book.GenesisSpec} {s : Node}
    {g : Vertex} (h : Node.genesis env n spec = some (s, g)) {es : List Event} (hes : ∀ e ∈ es, e.Ordinary)
    (hfits : SpiceFits (run (Node.step env) s es).book.dag) (order : List Hash) (walk : Address → List Hash)
    (now : Address → Time) (wallets : Finset Address) (hγ : env.signer.address ∉ wallets) {tip : Hash} :
    let b := (run (Node.step env) s es).book
    (enumerate order b.dag.graph.leaves).getLast? = some tip →
    (∀ v ∈ b.dag.past tip, ∀ a, v.Party a → a ≠ env.signer.address → a ∈ wallets) →
    ∑ a ∈ wallets, reported env b order (walk a) (now a) a + received env.signer.address (b.dag.past tip) =
      g.transaction.spice.value + ∑ a ∈ wallets, overdrawn b.dag tip a := by
  intro b htip hparty
  have hmem : tip ∈ b.dag.graph.nodes :=
    (Digraph.mem_leaves.mp (mem_enumerate.mp (List.mem_of_getLast? htip))).1
  obtain ⟨hclosed, -⟩ := closed_run hz h hes
  have hframe := Node.run_frame env (s := s) hes
  have hstore : b.verticesDB = ∅ := hframe.verticesDB.trans (founded h).verticesDB
  have haddr : b.genesisPublicAddress = env.signer.address :=
    hframe.genesisPublicAddress.trans (founded h).address
  have hissuer : g.transaction.issuerAddress = env.signer.address := by
    obtain ⟨t, ht, rfl⟩ := (founded h).made
    exact issuer_of_new ht
  have hisolated := (genesis_wallet_isolated h hes).1
  have hgenesis := issued_genesis hclosed hissuer
    (fun k v hv hne => haddr ▸ (hisolated k v hv hne).1) hmem
  -- everybody who takes part, the genesis wallet included
  have hall : ∀ v ∈ b.dag.past tip, ∀ a, v.Party a → a ∈ insert env.signer.address wallets := by
    intro v hv a ha
    rcases eq_or_ne a env.signer.address with rfl | hne
    · exact Finset.mem_insert_self ..
    · exact Finset.mem_insert_of_mem (hparty v hv a ha hne)
  have hmoves : ∀ v : Vertex, v.transaction.spice.value ≠ 0 → v.transaction.isSpiceTransfer = true := by
    intro v hv
    rw [← Bool.not_eq_false, Transaction.isSpiceTransfer_eq_false]
    exact hv
  have hbalance : ∑ a ∈ insert env.signer.address wallets,
      (received a (b.dag.past tip) - issued a (b.dag.past tip)) =
      ∑ a ∈ insert env.signer.address wallets, (issued a (b.dag.past tip) - received a (b.dag.past tip)) :=
    held_eq_owed (fun v hv hne => hall v hv _ ⟨hmoves v hne, Or.inl rfl⟩)
      (fun v hv hne => hall v hv _ ⟨hmoves v hne, Or.inr rfl⟩)
  rw [Finset.sum_insert hγ, Finset.sum_insert hγ, hgenesis] at hbalance
  have hreported : ∑ a ∈ wallets, reported env b order (walk a) (now a) a =
      ∑ a ∈ wallets, (received a (b.dag.past tip) - issued a (b.dag.past tip)) := by
    refine Finset.sum_congr rfl fun a _ => ?_
    obtain ⟨hfit, hzero⟩ : FundsFit env.codec b a ∧ (b.stored env.codec a).value = 0 :=
      hfits.fundsFit hstore a
    exact reported_eq (hfit.past tip) hzero htip (walk a) (now a)
  rw [hreported]
  simp only [overdrawn]
  omega

open Transparent in
/-- The law at a double spending: the wallets own 20 of the 10 that there were, and 10 are overdrawn. -/
theorem double_spending_makes_money :
    let b := (run (Node.step (env hub)) (start 10) doubleSpendEvents).book
    let spenders : Finset Address := {wallet 7, wallet 8, wallet 9}
    (∑ a ∈ spenders, reported (env hub) b [] [] 11 a + received hub (b.dag.past afterMerge.hash) =
      (root 10).transaction.spice.value + ∑ a ∈ spenders, overdrawn b.dag afterMerge.hash a) ∧
    ∑ a ∈ spenders, reported (env hub) b [] [] 11 a = 20 * 10 ^ 18 ∧
    (root 10).transaction.spice.value = 10 * 10 ^ 18 := by
  intro b spenders
  have hes : ∀ e ∈ doubleSpendEvents, e.Ordinary := by
    simp [doubleSpendEvents, addEvents, Event.Ordinary]
  obtain ⟨hnorm, htotal⟩ : (∀ v ∈ b.dag.all, v.transaction.spice.Norm) ∧
      (b.dag.all.map fun v => v.transaction.spice.value).sum < Melange.cap := by
    decide +kernel
  have htip : (enumerate []
      (run (Node.step (env hub)) (start 10) doubleSpendEvents).book.dag.graph.leaves).getLast? =
      some afterMerge.hash := by decide +kernel
  have hends : ∀ v ∈ (run (Node.step (env hub)) (start 10) doubleSpendEvents).book.dag.past afterMerge.hash,
      (v.transaction.issuerAddress = hub ∨ v.transaction.issuerAddress ∈ spenders) ∧
        v.transaction.receiverAddress ∈ spenders := by decide +kernel
  have hγ : hub ∉ spenders := by decide +kernel
  refine ⟨?_, by decide +kernel⟩
  exact money_conserved (nonzeroDigests hub) (genesis_start 10) hes (.of_total hnorm htotal) []
    (fun _ => []) (fun _ => 11) spenders hγ htip fun v hv a ha hne =>
      ha.2.elim (fun h => h ▸ (hends v hv).1.resolve_left (h ▸ hne)) fun h => h ▸ (hends v hv).2

end Computantis
