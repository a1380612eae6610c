import Computantis.Laws.Settling

/-! @law tips | name:What is read from the last tip | family:order | about:Model/Truncate, Model/Service

    Balances and lists of transactions are read from one leaf and its ancestors. The leaf is the one that the
    enumeration of the leaves ends with, and that can be any of them, so everything outside the past of that leaf
    is missed. The order of the ancestors does not matter to a balance as long as the totals fit, and never to a
    list of transactions. -/

namespace Computantis

open Schemes

/-! ### Balances -/

section Balances

variable {env : Env} {b : Book} {a : Address}

/-- Undisturbed runs of `CalculateBalance` give the same result in whatever order leaves and ancestors come. -/
def BalanceOrderFree (env : Env) (b : Book) (a : Address) : Prop :=
  ∀ now order order' walk walk', b.calculateBalance env order ⟨walk, none⟩ false now a =
    b.calculateBalance env order' ⟨walk', none⟩ false now a

/-- The two leaves have the same worth for the address, or it is in debt at both. -/
def SameWorth (codec : Codec) (b : Book) (a : Address) (leaf leaf' : Hash) : Prop :=
  worth codec b leaf a = worth codec b leaf' a ∨ worth codec b leaf a < 0 ∧ worth codec b leaf' a < 0

instance (codec : Codec) (b : Book) (a : Address) (leaf leaf' : Hash) :
    Decidable (SameWorth codec b a leaf leaf') := inferInstanceAs (Decidable (_ ∨ _))

theorem calculateBalance_eq {order : List Hash} {leaf : Hash}
    (h : (enumerate order b.dag.graph.leaves).getLast? = some leaf) (p : WalkProbe) (now : Time) :
    b.calculateBalance env order p false now a =
      (b.balanceFrom env.codec leaf p false a).map fun s => ⟨now, a, s⟩ := by
  rw [Book.calculateBalance, h]

theorem balance_map_inj {r r' : Except Err Melange} {now : Time} :
    r.map (fun s => Book.Balance.mk now a s) = r'.map (fun s => Book.Balance.mk now a s) ↔ r = r' := by
  constructor
  · intro h
    cases r <;> cases r' <;> simp_all [Except.map]
  · intro h
    rw [h]

theorem balanceOrderFree_iff : BalanceOrderFree env b a ↔
    ∀ leaf ∈ b.dag.graph.leaves, ∀ leaf' ∈ b.dag.graph.leaves, ∀ walk walk',
      b.balanceFrom env.codec leaf ⟨walk, none⟩ false a = b.balanceFrom env.codec leaf' ⟨walk', none⟩ false a := by
  constructor
  · intro h leaf hleaf leaf' hleaf' walk walk'
    obtain ⟨order, horder⟩ := exists_enumerate_getLast b.dag.graph.leaves_nodup hleaf
    obtain ⟨order', horder'⟩ := exists_enumerate_getLast b.dag.graph.leaves_nodup hleaf'
    have hsame := h 0 order order' walk walk'
    rw [calculateBalance_eq horder, calculateBalance_eq horder'] at hsame
    exact balance_map_inj.mp hsame
  · intro h now order order' walk walk'
    rcases eq_or_ne b.dag.graph.leaves [] with hnil | hne
    · simp [Book.calculateBalance, hnil]
    · obtain ⟨leaf, hleaf, hlast⟩ := getLast_enumerate order hne
      obtain ⟨leaf', hleaf', hlast'⟩ := getLast_enumerate order' hne
      rw [calculateBalance_eq hlast, calculateBalance_eq hlast', h leaf hleaf leaf' hleaf' walk walk']

theorem balanceFrom_eq_iff {leaf leaf' : Hash} (hfit : PastFits env.codec b leaf a)
    (hfit' : PastFits env.codec b leaf' a) (hleaf : leaf ∈ b.dag.graph.nodes) (hleaf' : leaf' ∈ b.dag.graph.nodes)
    (walk walk' : List Hash) :
    b.balanceFrom env.codec leaf ⟨walk, none⟩ false a = b.balanceFrom env.codec leaf' ⟨walk', none⟩ false a ↔
      SameWorth env.codec b a leaf leaf' := by
  rw [SameWorth, ← Melange.same_value_iff (worth_lt_cap hfit) (worth_lt_cap hfit')]
  simp only [← balanceFrom_ok_iff_worth hfit hleaf walk, ← balanceFrom_ok_iff_worth hfit' hleaf' walk']
  constructor
  · intro h m
    rw [h]
  · intro h
    -- when there is no balance, the error is the same at all leaves
    obtain ⟨q, hqn, -, hqi, hq⟩ := balanceFrom_settles hfit hleaf walk
    obtain ⟨q', hqn', -, hqi', hq'⟩ := balanceFrom_settles hfit' hleaf' walk'
    have hreceived := hfit.received
    have hreceived' := hfit'.received
    rcases settleBalance_cases hfit.stored hqn (by omega) with ⟨-, herr⟩ | ⟨m, hok, -⟩
    · rcases settleBalance_cases hfit'.stored hqn' (by omega) with ⟨-, herr'⟩ | ⟨m', hok', -⟩
      · rw [hq, hq', herr, herr']
      · exact (h m').mpr (hq'.trans hok') ▸ (hq'.trans hok').symm
    · exact (hq.trans hok).trans ((h m).mp (hq.trans hok)).symm

end Balances

/-- VERDICT (balance): where the totals over the pasts of the leaves fit, it does not depend on the enumerations
    exactly when the address has the same worth at all leaves, or is in debt at all of them. -/
theorem balance_order_free_iff {env : Env} {b : Book} {a : Address}
    (hfit : ∀ leaf ∈ b.dag.graph.leaves, PastFits env.codec b leaf a) : BalanceOrderFree env b a ↔
      ∀ leaf ∈ b.dag.graph.leaves, ∀ leaf' ∈ b.dag.graph.leaves, SameWorth env.codec b a leaf leaf' := by
  have hnode : ∀ leaf ∈ b.dag.graph.leaves, leaf ∈ b.dag.graph.nodes := fun _ h => (Digraph.mem_leaves.mp h).1
  rw [balanceOrderFree_iff]
  constructor
  · intro h leaf hleaf leaf' hleaf'
    exact (balanceFrom_eq_iff (hfit leaf hleaf) (hfit leaf' hleaf') (hnode leaf hleaf) (hnode leaf' hleaf')
      [] []).mp (h leaf hleaf leaf' hleaf' [] [])
  · intro h leaf hleaf leaf' hleaf' walk walk'
    exact (balanceFrom_eq_iff (hfit leaf hleaf) (hfit leaf' hleaf') (hnode leaf hleaf) (hnode leaf' hleaf')
      walk walk').mpr (h leaf hleaf leaf' hleaf')

/-! ### Transactions -/

section Transactions

variable {b : Book} {a : Address}

/-- The transactions of those of the vertices that concern the address. -/
def concerning (a : Address) (vs : List Vertex) : List Transaction :=
  (vs.filter fun v => decide (v.transaction.Concerns a)).map Vertex.transaction

theorem concerning_cons (v : Vertex) (vs : List Vertex) : concerning a (v :: vs) =
    (if v.transaction.Concerns a then [v.transaction] else []) ++ concerning a vs := by
  unfold concerning
  by_cases h : v.transaction.Concerns a <;> simp [h]

theorem concerning_perm {vs ws : List Vertex} (h : vs.Perm ws) : (concerning a vs).Perm (concerning a ws) :=
  (h.filter _).map _

theorem walkTransactions_calm {d : Dag} (ids : List Hash) : ∀ (i : ℕ) (visited : List Hash)
    (transactions : List Transaction), (∀ id ∈ ids, id ∈ d.graph.nodes) →
      Book.walkTransactions d a none ids i visited transactions =
        .ok (transactions ++ concerning a (d.vertices (firsts visited ids))) := by
  induction ids with
  | nil =>
    intro i visited transactions _
    simp [Book.walkTransactions, firsts, Dag.vertices, concerning]
  | cons id ids ih =>
    intro i visited transactions h
    have hids : ∀ x ∈ ids, x ∈ d.graph.nodes := fun x hx => h x (List.mem_cons_of_mem _ hx)
    rw [Book.walkTransactions, firsts, if_neg (by simp)]
    by_cases hvis : id ∈ visited
    · rw [if_pos hvis, if_pos hvis]
      exact ih _ _ _ hids
    · obtain ⟨v, hv⟩ : ∃ v, d.getVertex id = some v := Digraph.mem_nodes.mp (h id (List.mem_cons_self ..))
      have hvs : d.vertices (id :: firsts (id :: visited) ids) = v :: d.vertices (firsts (id :: visited) ids) := by
        simp [Dag.vertices, hv]
      rw [if_neg hvis, if_neg hvis, hvs, concerning_cons, ← List.append_assoc]
      simp only [hv]
      rw [ih _ _ _ hids]
      split <;> simp

/-- SPEC (reading): what concerns the address in the past of the leaf that the enumeration ends with. -/
theorem readDAGTransactions_calm {order : List Hash} {leaf : Hash}
    (h : (enumerate order b.dag.graph.leaves).getLast? = some leaf) (walk : List Hash) :
    ∃ trxs, b.readDAGTransactionsByAddress order ⟨walk, none⟩ a = .ok trxs ∧
      trxs.Perm (concerning a (b.dag.past leaf)) := by
  have hleaf : leaf ∈ b.dag.graph.nodes := (Digraph.mem_leaves.mp (mem_enumerate.mp (List.mem_of_getLast? h))).1
  obtain ⟨v, hv⟩ : ∃ v, b.dag.getVertex leaf = some v := Digraph.mem_nodes.mp hleaf
  have hids := enumerates_walk b.dag leaf walk
  have hknown : ∀ id ∈ arrange walk (b.dag.graph.ancestors leaf), id ∈ b.dag.graph.nodes := fun id hid =>
    (Digraph.mem_ancestors.mp (mem_arrange.mp hid)).left
  have hperm : (firsts [] (arrange walk (b.dag.graph.ancestors leaf))).Perm (b.dag.graph.ancestors leaf) := by
    refine (List.perm_ext_iff_of_nodup hids.nodup (b.dag.graph.ancestors_nodup _)).mpr ?_
    intro x
    rw [hids.mem, Digraph.mem_ancestors]
  have hlist : ∀ ids, b.dag.vertices (leaf :: ids) = v :: b.dag.vertices ids := fun ids => by
    simp [Dag.vertices, hv]
  refine ⟨concerning a (b.dag.vertices (leaf :: firsts [] (arrange walk (b.dag.graph.ancestors leaf)))), ?_, ?_⟩
  · rw [Book.readDAGTransactionsByAddress, h]
    simp only [hv]
    rw [walkTransactions_calm _ _ _ _ hknown, hlist, concerning_cons]
  · exact concerning_perm ((hperm.cons leaf).filterMap _)

/-- Undisturbed, `ReadDAGTransactionsByAddress` returns the transactions of all vertices that concern the
    address, each once, whatever the enumerations. -/
def ReadsAll (b : Book) (a : Address) : Prop :=
  ∀ order walk, ∃ trxs, b.readDAGTransactionsByAddress order ⟨walk, none⟩ a = .ok trxs ∧
    trxs.Perm (concerning a b.dag.all)

theorem concerning_past_perm_iff {leaf : Hash} :
    (concerning a (b.dag.past leaf)).Perm (concerning a b.dag.all) ↔
      ∀ v ∈ b.dag.all, v.transaction.Concerns a → v ∈ b.dag.past leaf := by
  have hpast : (b.dag.past leaf).Nodup := Dag.vertices_nodup (b.dag.past_nodup leaf)
  have hall : b.dag.all.Nodup := Dag.vertices_nodup b.dag.graph.nodes.keys_nodup
  have hsub : (b.dag.past leaf).filter (fun v => decide (v.transaction.Concerns a)) ⊆
      b.dag.all.filter fun v => decide (v.transaction.Concerns a) := by
    intro v hv
    rw [List.mem_filter] at hv ⊢
    exact ⟨Dag.mem_all.mpr (Dag.mem_past.mp hv.1).2, hv.2⟩
  have hsubperm := List.subperm_of_subset (hpast.filter _) hsub
  constructor
  · intro hperm v hv hconcerns
    have hlen := hperm.length_eq
    rw [concerning, concerning, List.length_map, List.length_map] at hlen
    have hmem := (hsubperm.perm_of_length_le hlen.ge).mem_iff.mpr
      (List.mem_filter.mpr ⟨hv, decide_eq_true hconcerns⟩)
    exact (List.mem_filter.mp hmem).1
  · intro h
    refine List.Perm.map _ ?_
    refine (List.perm_ext_iff_of_nodup (hpast.filter _) (hall.filter _)).mpr fun v => ⟨fun hv => hsub hv, ?_⟩
    intro hv
    rw [List.mem_filter] at hv ⊢
    exact ⟨h v hv.1 (of_decide_eq_true hv.2), hv.2⟩

end Transactions

/-- VERDICT (transactions): the reading is complete exactly when there is a vertex and all that concerns the
    address is in the past of every leaf. -/
theorem reads_all_iff (b : Book) (a : Address) : ReadsAll b a ↔ b.dag.graph.leaves ≠ [] ∧
    ∀ leaf ∈ b.dag.graph.leaves, ∀ v ∈ b.dag.all, v.transaction.Concerns a → v ∈ b.dag.past leaf := by
  constructor
  · intro h
    refine ⟨?_, ?_⟩
    · intro hnil
      obtain ⟨trxs, hread, -⟩ := h [] []
      rw [Book.readDAGTransactionsByAddress, hnil] at hread
      simp at hread
    · intro leaf hleaf
      obtain ⟨order, horder⟩ := exists_enumerate_getLast b.dag.graph.leaves_nodup hleaf
      obtain ⟨trxs, hread, hperm⟩ := h order []
      obtain ⟨trxs', hread', hperm'⟩ := readDAGTransactions_calm (a := a) horder []
      cases hread.symm.trans hread'
      exact concerning_past_perm_iff.mp (hperm'.symm.trans hperm)
  · rintro ⟨hne, hpast⟩ order walk
    obtain ⟨leaf, hleaf, hlast⟩ := getLast_enumerate order hne
    obtain ⟨trxs, hread, hperm⟩ := readDAGTransactions_calm (a := a) hlast walk
    exact ⟨trxs, hread, hperm.trans (concerning_past_perm_iff.mpr (hpast leaf hleaf))⟩

/-! ### Two tips -/

namespace Transparent

/-- Four of the ten of `wallet 7` go to `wallet 8` below the genesis vertex, and beside it is a contract between
    two others. -/
def twoTips : Book := (run (Node.step (env hub)) (start 10)
  (addEvents (sealed (trx (wallet 7) (wallet 8) ⟨4, 0⟩ [] 3) (root 10) (root 10) 1 4) ++
    addEvents (sealed (trx (wallet 9) (wallet 6) ⟨0, 0⟩ [1] 5) (root 10) (root 10) 1 6))).book

/-- The balance of `wallet 8` is four or nothing, whichever of the two tips comes last. -/
theorem balance_depends_on_tip :
    (twoTips.calculateBalance (env hub) twoTips.dag.graph.leaves ⟨[], none⟩ false 9 (wallet 8)).toOption.map
        Book.Balance.spice = some ⟨4, 0⟩ ∧
      (twoTips.calculateBalance (env hub) twoTips.dag.graph.leaves.reverse ⟨[], none⟩ false 9
        (wallet 8)).toOption.map Book.Balance.spice = some ⟨0, 0⟩ ∧
      ¬ BalanceOrderFree (env hub) twoTips (wallet 8) := by
  obtain ⟨hfour, hnone⟩ : (twoTips.calculateBalance (env hub) twoTips.dag.graph.leaves ⟨[], none⟩ false 9
        (wallet 8)).toOption.map Book.Balance.spice = some ⟨4, 0⟩ ∧
      (twoTips.calculateBalance (env hub) twoTips.dag.graph.leaves.reverse ⟨[], none⟩ false 9
        (wallet 8)).toOption.map Book.Balance.spice = some ⟨0, 0⟩ := by
    decide +kernel
  refine ⟨hfour, hnone, ?_⟩
  intro hfree
  rw [hfree 9 _ twoTips.dag.graph.leaves.reverse [] [], hnone] at hfour
  cases hfour

/-- A tip below both has the same balance from everywhere. -/
theorem merged_tips_agree :
    BalanceOrderFree (env hub) (run (Node.step (env hub)) (start 10) forkEvents).book (wallet 8) := by
  obtain ⟨hnorm, htotal, hstore, hworth⟩ :
      (∀ v ∈ (run (Node.step (env hub)) (start 10) forkEvents).book.dag.all, v.transaction.spice.Norm) ∧
      ((run (Node.step (env hub)) (start 10) forkEvents).book.dag.all.map fun v =>
        v.transaction.spice.value).sum < Melange.cap ∧
      (run (Node.step (env hub)) (start 10) forkEvents).book.verticesDB.entries = [] ∧
      ∀ leaf ∈ (run (Node.step (env hub)) (start 10) forkEvents).book.dag.graph.leaves,
        ∀ leaf' ∈ (run (Node.step (env hub)) (start 10) forkEvents).book.dag.graph.leaves,
          SameWorth codec (run (Node.step (env hub)) (start 10) forkEvents).book (wallet 8) leaf leaf' := by
    decide +kernel
  have hfit : FundsFit codec (run (Node.step (env hub)) (start 10) forkEvents).book (wallet 8) :=
    ((SpiceFits.of_total hnorm htotal).fundsFit (AList.ext hstore) (wallet 8)).1
  exact (balance_order_free_iff fun leaf _ => hfit.past leaf).mpr hworth

/-- Read from the tip beside it, the transfer is missing. -/
theorem transfer_not_read :
    twoTips.readDAGTransactionsByAddress twoTips.dag.graph.leaves.reverse ⟨[], none⟩ (wallet 8) = .ok [] ∧
      ¬ ReadsAll twoTips (wallet 8) := by
  obtain ⟨hread, hone⟩ :
      twoTips.readDAGTransactionsByAddress twoTips.dag.graph.leaves.reverse ⟨[], none⟩ (wallet 8) = .ok [] ∧
      (concerning (wallet 8) twoTips.dag.all).length = 1 := by
    decide +kernel
  refine ⟨hread, ?_⟩
  intro hall
  obtain ⟨trxs, hread', hperm⟩ := hall twoTips.dag.graph.leaves.reverse []
  cases hread.symm.trans hread'
  rw [← hperm.length_eq] at hone
  cases hone

end Transparent

end Computantis
