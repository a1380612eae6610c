import Computantis.Laws.Validated
import Mathlib.Algebra.BigOperators.Group.Finset.Basic
import Mathlib.Algebra.Order.BigOperators.Group.Finset

/-! @law spending | name:No double spending | family:invariant | about:Model/Node

    A leaf is validated against its own past and only for the issuer of its own transaction. When two
    branches meet, nobody adds up what one issuer has spent on both: two spendings of the same funds,
    each fine on its branch, end up in the past of one vertex (`double_spending_accepted`). Where no
    issuer spends on both sides of a merge, no address but the genesis issuer ever issues more than it
    has received in the past of a vertex with a child. -/

namespace Computantis

open Schemes

/-! ### Sums over a past -/

section

variable {ids : List Hash} {b : Book} {v : Vertex} {env : Env} {d : Dag} {codec : Codec} {a : Address}

theorem Dag.sum_vertices (d : Dag) (w : Vertex → ℕ) (hnd : ids.Nodup) :
    ((d.vertices ids).map w).sum = ∑ k ∈ ids.toFinset, ((d.getVertex k).map w).getD 0 := by
  rw [List.sum_toFinset _ hnd]
  clear hnd
  induction ids with
  | nil => rfl
  | cons k ids ih =>
    rw [List.map_cons, List.sum_cons, ← ih, Dag.vertices, List.filterMap_cons]
    cases d.getVertex k <;> simp [Dag.vertices]

theorem Dag.sum_vertices_le (d : Dag) (w : Vertex → ℕ) {ids' : List Hash} (hnd : ids.Nodup) (hnd' : ids'.Nodup)
    (h : ∀ v, d.getVertex v.hash = some v → v.hash ∈ ids → w v ≠ 0 → v.hash ∈ ids') :
    ((d.vertices ids).map w).sum ≤ ((d.vertices ids').map w).sum := by
  rw [d.sum_vertices w hnd, d.sum_vertices w hnd']
  refine Finset.sum_le_sum_of_ne_zero fun k hk hne => ?_
  rw [List.mem_toFinset] at hk ⊢
  cases hget : d.getVertex k with
  | none => rw [hget] at hne; exact absurd rfl hne
  | some v =>
    have hkey : v.hash = k := d.keyed hget
    subst hkey
    rw [hget] at hne
    exact h v hget hk hne

theorem Dag.past_nodup (d : Dag) (k : Hash) : (k :: d.graph.ancestors k).Nodup :=
  List.nodup_cons.mpr ⟨fun h => (Digraph.mem_ancestors.mp h).ne rfl, d.graph.ancestors_nodup k⟩

/-- All spice of the graph is normalised and nobody's totals overflow. -/
structure SpiceFits (d : Dag) : Prop where
  norm : ∀ v ∈ d.all, v.transaction.spice.Norm
  issued : ∀ a, issued a d.all < Melange.cap
  received : ∀ a, received a d.all < Melange.cap

theorem Dag.issued_le_all (d : Dag) (a : Address) (hnd : ids.Nodup) : issued a (d.vertices ids) ≤ issued a d.all :=
  d.sum_vertices_le (issuedBy a) hnd d.graph.nodes.keys_nodup fun _ hv _ _ =>
    AList.mem_keys.mp (Dag.mem_nodes hv)

theorem Dag.received_le_all (d : Dag) (a : Address) (hnd : ids.Nodup) :
    received a (d.vertices ids) ≤ received a d.all :=
  d.sum_vertices_le (receivedBy a) hnd d.graph.nodes.keys_nodup fun _ hv _ _ =>
    AList.mem_keys.mp (Dag.mem_nodes hv)

theorem SpiceFits.of_total (norm : ∀ v ∈ d.all, v.transaction.spice.Norm)
    (total : (d.all.map fun v => v.transaction.spice.value).sum < Melange.cap) : SpiceFits d := by
  refine ⟨norm, fun a => lt_of_le_of_lt (List.sum_le_sum fun v _ => ?_) total,
    fun a => lt_of_le_of_lt (List.sum_le_sum fun v _ => ?_) total⟩
  · rw [issuedBy]; split <;> omega
  · rw [receivedBy]; split <;> omega

/-! ### What one validation says about its own past -/

/-- The funds that the store keeps for an address. -/
def Book.stored (codec : Codec) (b : Book) (a : Address) : Melange :=
  (b.readAddressFundsFromStorage codec a false).1

theorem readAddressFunds_calm (codec : Codec) (b : Book) (a : Address) :
    b.readAddressFundsFromStorage codec a false = (b.stored codec a, none) ∨
      b.readAddressFundsFromStorage codec a false = (b.stored codec a, some .errBalanceUnavailable) := by
  rw [Book.stored, Book.readAddressFundsFromStorage, if_neg (by simp)]
  cases b.verticesDB.lookup a
  · exact Or.inr rfl
  · exact Or.inl rfl

/-- All spice is normalised, what is stored for the address decodes, and its totals do not overflow. -/
structure FundsFit (codec : Codec) (b : Book) (a : Address) : Prop where
  norm : ∀ v ∈ b.dag.all, v.transaction.spice.Norm
  stored : ∀ buf, b.verticesDB.lookup a = some buf →
    (codec.decodeSpice buf).2 = true ∧ (codec.decodeSpice buf).1.Norm
  issued : issued a b.dag.all < Melange.cap
  received : (b.stored codec a).value + received a b.dag.all < Melange.cap

theorem FundsFit.stored_norm (h : FundsFit codec b a) : (b.stored codec a).Norm := by
  rw [Book.stored, Book.readAddressFundsFromStorage, if_neg (by simp)]
  cases hbuf : b.verticesDB.lookup a with
  | none => exact Melange.norm_zero
  | some buf => exact (h.stored buf hbuf).2

theorem SpiceFits.fundsFit (h : SpiceFits b.dag) (hstore : b.verticesDB = ∅) (a : Address) :
    FundsFit codec b a ∧ (b.stored codec a).value = 0 := by
  have hz : b.stored codec a = Melange.zero := by
    simp only [Book.stored, Book.readAddressFundsFromStorage, hstore, AList.lookup_empty]
    rfl
  refine ⟨⟨h.norm, fun buf hbuf => ?_, h.issued a, ?_⟩, by rw [hz, Melange.value_zero]⟩
  · rw [hstore, AList.lookup_empty] at hbuf
    cases hbuf
  · rw [hz, Melange.value_zero, Nat.zero_add]
    exact h.received a

/-- The spice of one past and what is stored for the address are normalised, and its totals do not overflow. -/
structure PastFits (codec : Codec) (b : Book) (k : Hash) (a : Address) : Prop where
  norm : AllNorm (b.dag.past k)
  stored : (b.stored codec a).Norm
  issued : issued a (b.dag.past k) < Melange.cap
  received : (b.stored codec a).value + received a (b.dag.past k) < Melange.cap

theorem FundsFit.past (h : FundsFit codec b a) (k : Hash) :
    PastFits codec b k a where
  norm v hv := h.norm v (Dag.mem_all.mpr (Dag.mem_past.mp hv).2)
  stored := h.stored_norm
  issued := lt_of_le_of_lt (b.dag.issued_le_all a (b.dag.past_nodup k)) h.issued
  received := lt_of_le_of_lt (Nat.add_le_add_left (b.dag.received_le_all a (b.dag.past_nodup k)) _) h.received

theorem foldFunds_past {p : Pots} (hp : p.Norm) (hnorm : AllNorm (d.past v.hash)) (hv : d.getVertex v.hash = some v)
    (hids : Enumerates d v.hash ids) (hout : p.spiceOut.value + issued a (d.past v.hash) < Melange.cap)
    (hin : p.spiceIn.value + received a (d.past v.hash) < Melange.cap) :
    ∃ q, (pourFunds a v p).bind (foldFunds a (d.vertices ids)) = .ok q ∧ q.Norm ∧
      q.spiceOut.value = p.spiceOut.value + issued a (d.past v.hash) ∧
      q.spiceIn.value = p.spiceIn.value + received a (d.past v.hash) := by
  have hperm : (v.hash :: ids).Perm (v.hash :: d.graph.ancestors v.hash) := by
    refine List.Perm.cons _
      ((List.perm_ext_iff_of_nodup hids.nodup (d.graph.ancestors_nodup _)).mpr ?_)
    intro x; rw [hids.mem, Digraph.mem_ancestors]
  have hlist : d.vertices (v.hash :: ids) = v :: d.vertices ids := by
    simp [Dag.vertices, hv]
  have hpast : (v :: d.vertices ids).Perm (d.past v.hash) := hlist ▸ hperm.filterMap _
  rw [← issued_perm _ hpast] at hout ⊢
  rw [← received_perm _ hpast] at hin ⊢
  rw [← foldFunds_cons]
  exact foldFunds_exact hp (hnorm.perm hpast.symm) hout hin

theorem openPots_exact (h : (b.stored env.codec v.transaction.issuerAddress).Norm) : ∃ m : Melange, m.Norm ∧
      m.value = (b.stored env.codec v.transaction.issuerAddress).value ∧
      b.openPots env v false = pourFunds v.transaction.issuerAddress v ⟨m, Melange.zero⟩ := by
  have hfit := Melange.value_lt_cap h
  obtain ⟨m, hm, hmn, hmv⟩ := Melange.supply_exact Melange.norm_zero h
    (by rw [Melange.value_zero]; omega)
  refine ⟨m, hmn, by rw [hmv, Melange.value_zero, Nat.zero_add], ?_⟩
  rw [Book.openPots]
  rcases readAddressFunds_calm env.codec b v.transaction.issuerAddress with hread | hread <;> rw [hread] <;>
    simp only [hm]

/-- VERDICT: the funds check compares what the issuer has issued with what it has in the store and has
    received in the past of the vertex, whatever the enumeration. -/
theorem fundsPassIn_iff_stored (hfit : PastFits env.codec b v.hash v.transaction.issuerAddress)
    (hv : b.dag.getVertex v.hash = some v) (hids : Enumerates b.dag v.hash ids) :
    FundsPassIn env b v ids ↔ issued v.transaction.issuerAddress (b.dag.past v.hash) ≤
      (b.stored env.codec v.transaction.issuerAddress).value +
        received v.transaction.issuerAddress (b.dag.past v.hash) := by
  obtain ⟨m, hmn, hmv, hopen⟩ := openPots_exact hfit.stored
  obtain ⟨q, hq, hqn, hqo, hqi⟩ := foldFunds_past (a := v.transaction.issuerAddress)
    (p := ⟨m, Melange.zero⟩) ⟨hmn, Melange.norm_zero⟩ hfit.norm hv hids
    (by rw [Melange.value_zero, Nat.zero_add]; exact hfit.issued) (by rw [hmv]; exact hfit.received)
  have hcheck : checkHasSufficientfunds q = .ok () ↔
      issued v.transaction.issuerAddress (b.dag.past v.hash) ≤
        (b.stored env.codec v.transaction.issuerAddress).value +
          received v.transaction.issuerAddress (b.dag.past v.hash) := by
    rw [checkHasSufficientfunds_iff hqn, hqo, hqi, hmv, Melange.value_zero, Nat.zero_add]
  rw [← hcheck, FundsPassIn, hopen]
  cases hpour : pourFunds v.transaction.issuerAddress v ⟨m, Melange.zero⟩ with
  | error e => rw [hpour] at hq; cases hq
  | ok start =>
    rw [hpour] at hq
    refine ⟨?_, fun h => ⟨start, q, rfl, hq, h⟩⟩
    rintro ⟨start', pots, hopen', hfold, hok⟩
    cases hopen'
    cases hfold.symm.trans hq
    exact hok

/-- VERDICT (empty store): the funds check compares what the issuer has issued and received. -/
theorem fundsPassIn_iff (hfit : SpiceFits b.dag) (hstore : b.verticesDB = ∅) (hv : b.dag.getVertex v.hash = some v)
    (hids : Enumerates b.dag v.hash ids) :
    FundsPassIn env b v ids ↔ issued v.transaction.issuerAddress (b.dag.past v.hash) ≤
      received v.transaction.issuerAddress (b.dag.past v.hash) := by
  obtain ⟨hfit', hzero⟩ : FundsFit env.codec b _ ∧ (b.stored env.codec _).value = 0 :=
    hfit.fundsFit hstore v.transaction.issuerAddress
  rw [fundsPassIn_iff_stored (hfit'.past _) hv hids, hzero, Nat.zero_add]

/-! ### Merges -/

/-- CONDITION on two parents: apart from the genesis issuer nobody transfers spice both in the past
    of one alone and in the past of the other alone. -/
def NoParallelSpending (d : Dag) (genesisIssuer : Address) (l r : Hash) : Prop :=
  ∀ x ∈ d.past l, x ∉ d.past r → ∀ y ∈ d.past r, y ∉ d.past l →
    x.transaction.isSpiceTransfer = true → y.transaction.isSpiceTransfer = true →
    x.transaction.issuerAddress = y.transaction.issuerAddress →
    x.transaction.issuerAddress = genesisIssuer

instance (d : Dag) (a : Address) (l r : Hash) : Decidable (NoParallelSpending d a l r) :=
  inferInstanceAs (Decidable (∀ x ∈ d.past l, x ∉ d.past r → ∀ y ∈ d.past r, y ∉ d.past l → _))

/-- CONDITION: the vertex that the step inserts does not merge parallel spendings. -/
def MergeStep (g : Vertex) (s : Node) : Event → Prop
  | .finishAdd m _ _ => NoParallelSpending s.book.dag g.transaction.issuerAddress
      m.vrx.leftParentHash m.vrx.rightParentHash
  | .finishCreate .. => ∀ l ∈ s.book.dag.graph.leaves, ∀ r ∈ s.book.dag.graph.leaves,
      NoParallelSpending s.book.dag g.transaction.issuerAddress l r
  | _ => True

instance (g : Vertex) (s : Node) : (e : Event) → Decidable (MergeStep g s e)
  | .finishAdd .. | .finishCreate .. | .beginCreate .. | .beginAdd .. | .beginReplay .. | .tick
  | .truncate .. => by dsimp only [MergeStep]; infer_instance

theorem mem_past_samePast {d' : Dag} {k : Hash} (h : Digraph.SamePast d.graph d'.graph k) :
    v ∈ d'.past k ↔ v ∈ d.past k := by
  rw [Dag.mem_past, Dag.mem_past, h.anc]
  refine and_congr_right fun hv => ?_
  rw [Dag.getVertex, Dag.getVertex, h.get v.hash hv]

/-- The vertex does not merge parallel spendings. -/
def Merged (g : Vertex) (d : Dag) (v : Vertex) : Prop :=
  NoParallelSpending d g.transaction.issuerAddress v.leftParentHash v.rightParentHash

theorem merged_pastOnly (g : Vertex) : PastOnly (Merged g) := by
  intro d d' v hl hr h x hx hx' y hy hy'
  rw [mem_past_samePast hl] at hx hy'
  rw [mem_past_samePast hr] at hx' hy
  exact h x hx hx' y hy hy'

theorem mergeStep_origin {g : Vertex} {s : Node} {e : Event} (hw : MergeStep g s e) {leaf l r : Vertex}
    (ho : s.origin env e leaf l r) : Merged g s.book.dag leaf := by
  cases e with
  | finishCreate trx first second now faults =>
    obtain ⟨-, rfl, hleft, hright⟩ := ho
    exact hw l.hash hleft.mem_leaves r.hash hright.mem_leaves
  | finishAdd m probe faults =>
    obtain ⟨-, rfl⟩ := ho
    exact hw
  | _ => exact ho.elim

end

/-! ### The law -/

section Law

variable {env : Env} {g : Vertex} {b : Book} {a : Address}

theorem issuedBy_ne_zero {v : Vertex} (h : issuedBy a v ≠ 0) :
    v.transaction.issuerAddress = a ∧ v.transaction.isSpiceTransfer = true := by
  rw [issuedBy] at h
  split at h
  next hi =>
    refine ⟨hi, ?_⟩
    by_contra hs
    exact h (Transaction.isSpiceTransfer_eq_false.mp (by simpa using hs))
  next => exact absurd rfl h

theorem received_past_mono (d : Dag) {p k : Hash} (h : d.graph.Anc p k) :
    received a (d.past p) ≤ received a (d.past k) := by
  refine d.sum_vertices_le (receivedBy a) (d.past_nodup p) (d.past_nodup k) fun v _ hv _ => ?_
  rw [List.mem_cons, Digraph.mem_ancestors] at hv ⊢
  rcases hv with rfl | hv
  · exact Or.inr h
  · exact Or.inr (hv.trans h)

/-- What `a` issues in the past of a vertex it does not issue itself, it issues in the past of one
    parent, when the past of the other alone has nothing. -/
theorem issued_past_le {v : Vertex} (hv : b.dag.getVertex v.hash = some v)
    (hself : issuedBy a v = 0) {p q : Hash}
    (hpq : ∀ x, b.dag.graph.Arc x v.hash ↔ x = p ∨ x = q)
    (hq : ∀ y ∈ b.dag.past q, y ∉ b.dag.past p → issuedBy a y = 0) :
    issued a (b.dag.past v.hash) ≤ issued a (b.dag.past p) := by
  refine b.dag.sum_vertices_le (issuedBy a) (b.dag.past_nodup _) (b.dag.past_nodup p)
    fun x hx hmem hx0 => ?_
  have hpast : x ∈ b.dag.past p ↔ x.hash ∈ p :: b.dag.graph.ancestors p := by
    rw [Dag.past, Dag.mem_vertices]; exact ⟨fun h => h.1, fun h => ⟨h, hx⟩⟩
  rw [List.mem_cons, Digraph.mem_ancestors] at hmem
  rcases hmem with he | hanc
  · cases hv.symm.trans (he ▸ hx)
    exact absurd hself hx0
  · -- the last edge of the path comes from one of the two parents
    obtain ⟨c, hxc, hcv⟩ := Relation.TransGen.tail'_iff.mp hanc
    have hmemc : x ∈ b.dag.past c := by
      rw [Dag.mem_past]
      exact ⟨(Relation.reflTransGen_iff_eq_or_transGen.mp hxc).imp Eq.symm id, hx⟩
    rcases (hpq c).mp hcv with rfl | rfl
    · exact hpast.mp hmemc
    · by_contra hnot
      exact hx0 (hq x hmemc fun h => hnot (hpast.mp h))

theorem issued_le_received (hv : Validated env g b) (hm : EachVertex g (Merged g) b)
    (hfit : SpiceFits b.dag) (ha : a ≠ g.transaction.issuerAddress) :
    ∀ k, k ∈ b.dag.graph.nodes → b.dag.graph.HasChild k →
      issued a (b.dag.past k) ≤ received a (b.dag.past k) := by
  have hc := hv.closed
  refine b.dag.graph.anc_induction fun k hk ih hchild => ?_
  obtain ⟨v, hget⟩ : ∃ v, b.dag.getVertex k = some v := Digraph.mem_nodes.mp hk
  have hkey : v.hash = k := b.dag.keyed hget
  subst hkey
  by_cases hg : v.hash = g.hash
  · -- the genesis vertex has no past, and only the genesis issuer issues in it
    have hvg : v = g := hc.genesis v (hg ▸ hget)
    have hnil : b.dag.graph.ancestors v.hash = [] := by
      refine List.eq_nil_iff_forall_not_mem.mpr fun x hx => ?_
      obtain ⟨c, -, hcv⟩ := Relation.TransGen.tail'_iff.mp (Digraph.mem_ancestors.mp hx)
      exact hc.root c (hg ▸ hcv)
    have hpast : b.dag.past v.hash = [v] := by simp [Dag.past, Dag.vertices, hnil, hget]
    rw [hpast, hvg]
    simp [issuedBy, Ne.symm ha]
  · have hpar := hc.parents v.hash v hget hg
    have hl := (hpar v.leftParentHash).mpr (Or.inl rfl)
    have hr := (hpar v.rightParentHash).mpr (Or.inr rfl)
    by_cases hself : issuedBy a v = 0
    · -- nobody spends in parallel, so one of the two sides has nothing of `a`
      by_cases hleft : ∀ x ∈ b.dag.past v.leftParentHash, x ∉ b.dag.past v.rightParentHash →
          issuedBy a x = 0
      · calc issued a (b.dag.past v.hash)
          _ ≤ issued a (b.dag.past v.rightParentHash) :=
            issued_past_le hget hself (fun x => (hpar x).trans or_comm) hleft
          _ ≤ received a (b.dag.past v.rightParentHash) := ih _ (.single hr) ⟨_, hr⟩
          _ ≤ received a (b.dag.past v.hash) := received_past_mono _ (.single hr)
      · push Not at hleft
        obtain ⟨x, hx, hx', hx0⟩ := hleft
        obtain ⟨hxi, hxs⟩ := issuedBy_ne_zero hx0
        have hright : ∀ y ∈ b.dag.past v.rightParentHash, y ∉ b.dag.past v.leftParentHash →
            issuedBy a y = 0 := by
          intro y hy hy'
          by_contra hy0
          obtain ⟨hyi, hys⟩ := issuedBy_ne_zero hy0
          exact ha (hxi ▸ hm v hget hg x hx hx' y hy hy' hxs hys (hxi.trans hyi.symm))
        calc issued a (b.dag.past v.hash)
          _ ≤ issued a (b.dag.past v.leftParentHash) := issued_past_le hget hself hpar hright
          _ ≤ received a (b.dag.past v.leftParentHash) := ih _ (.single hl) ⟨_, hl⟩
          _ ≤ received a (b.dag.past v.hash) := received_past_mono _ (.single hl)
    · -- the vertex itself spends, and has passed for this issuer
      obtain ⟨rfl, hs⟩ := issuedBy_ne_zero hself
      obtain ⟨ids, hids, hpass⟩ := hv.funded v hget hchild hg hs
      exact (fundsPassIn_iff hfit hv.unstored hget hids).mp hpass

end Law

/-- NO DOUBLE SPENDING: along a run whose insertions merge no parallel spendings, in the past of a
    vertex with a child no address but the genesis issuer has issued more than it has received. -/
theorem no_double_spending {env : Env} (hz : NonzeroDigests env) {n : UInt64} {spec : Book.GenesisSpec}
    {s : Node} {g : Vertex} (h : Node.genesis env n spec = some (s, g)) {es : List Event}
    (hes : ∀ e ∈ es, e.Ordinary) (hm : Along (Node.step env) (MergeStep g) s es)
    (hfit : SpiceFits (run (Node.step env) s es).book.dag) :
    let d := (run (Node.step env) s es).book.dag
    ∀ k v, d.getVertex k = some v → d.graph.HasChild k → ∀ a, a ≠ g.transaction.issuerAddress →
      issued a (d.past k) ≤ received a (d.past k) := by
  intro d k v hk hchild a ha
  obtain ⟨hs, hmd⟩ := sound_run hz h (I := fun t => EachVertex g (Merged g) t.book) (.genesis h)
    (fun t e he hp hs hi => hi.step (merged_pastOnly g) hz he hs
      fun _ _ _ ho _ _ _ _ => mergeStep_origin hp ho) hes hm
  exact issued_le_received hs.validated hmd hfit ha k (Dag.mem_nodes hk) hchild

/-! ### The same funds spent on two branches -/

namespace Transparent

/-- `wallet 7` holds ten and sends all of it to `wallet 8` on one branch, -/
def spendLeft : Vertex := sealed (trx (wallet 7) (wallet 8) ⟨10, 0⟩ [] 3) (root 10) (root 10) 1 4

/-- and to `wallet 9` on another. -/
def spendRight : Vertex := sealed (trx (wallet 7) (wallet 9) ⟨10, 0⟩ [] 5) (root 10) (root 10) 1 6

/-- A vertex without spice merges the branches, -/
def merge : Vertex := sealed (trx (wallet 8) (wallet 9) ⟨0, 0⟩ [1] 7) spendLeft spendRight 2 8

/-- and gets a child. -/
def afterMerge : Vertex := sealed (trx (wallet 8) (wallet 9) ⟨0, 0⟩ [2] 9) merge merge 3 10

def doubleSpendEvents : List Event :=
  addEvents spendLeft ++ addEvents spendRight ++ addEvents merge ++ addEvents afterMerge

end Transparent

open Transparent in
/-- BUG: all four vertices verify and are accepted; the merge has a child, and in its past `wallet 7`
    has issued twenty and received ten. -/
theorem double_spending_accepted :
    let d := (run (Node.step (env hub)) (start 10) doubleSpendEvents).book.dag
    (∀ e ∈ doubleSpendEvents, e.Ordinary) ∧ (∀ v ∈ d.all, v.verify verifier = true) ∧ SpiceFits d ∧
      d.getVertex merge.hash = some merge ∧ d.graph.HasChild merge.hash ∧
      wallet 7 ≠ (root 10).transaction.issuerAddress ∧
      ¬ issued (wallet 7) (d.past merge.hash) ≤ received (wallet 7) (d.past merge.hash) := by
  intro d
  have hrun : (∀ v ∈ d.all, v.verify verifier = true) ∧ (∀ v ∈ d.all, v.transaction.spice.Norm) ∧
      (d.all.map fun v => v.transaction.spice.value).sum < Melange.cap ∧
      d.getVertex merge.hash = some merge ∧ d.graph.Arc merge.hash afterMerge.hash ∧
      wallet 7 ≠ (root 10).transaction.issuerAddress ∧
      ¬ issued (wallet 7) (d.past merge.hash) ≤ received (wallet 7) (d.past merge.hash) := by
    decide +kernel
  obtain ⟨hver, hnorm, htotal, hget, harc, hne, hissued⟩ := hrun
  refine ⟨?_, hver, .of_total hnorm htotal, hget, ⟨_, harc⟩, hne, hissued⟩
  simp [doubleSpendEvents, addEvents, Event.Ordinary]

namespace Transparent

/-- `wallet 8` gets four of the ten of `wallet 7`, -/
def share : Vertex := sealed (trx (wallet 7) (wallet 8) ⟨4, 0⟩ [] 3) (root 10) (root 10) 1 4

/-- and both of them pay `wallet 9`, each on a branch of its own. -/
def sevenPays : Vertex := sealed (trx (wallet 7) (wallet 9) ⟨3, 0⟩ [] 5) share share 2 6
def eightPays : Vertex := sealed (trx (wallet 8) (wallet 9) ⟨2, 0⟩ [] 7) share share 2 8

/-- The branches are merged, and the merge gets a child. -/
def bothPaid : Vertex := sealed (trx (wallet 8) (wallet 9) ⟨0, 0⟩ [1] 9) sevenPays eightPays 3 10
def afterBoth : Vertex := sealed (trx (wallet 8) (wallet 9) ⟨0, 0⟩ [2] 11) bothPaid bothPaid 4 12

def sharedEvents : List Event :=
  addEvents share ++ addEvents sevenPays ++ addEvents eightPays ++ addEvents bothPaid ++ addEvents afterBoth

end Transparent

open Transparent in
/-- The law below a merge of two branches on which different addresses spend. -/
theorem merged_spending :
    let d := (run (Node.step (env hub)) (start 10) sharedEvents).book.dag
    bothPaid.leftParentHash ≠ bothPaid.rightParentHash ∧ ∀ a ∈ [wallet 7, wallet 8],
      issued a (d.past bothPaid.hash) ≠ 0 ∧
        issued a (d.past bothPaid.hash) ≤ received a (d.past bothPaid.hash) := by
  intro d
  have hes : ∀ e ∈ sharedEvents, e.Ordinary := by simp [sharedEvents, addEvents, Event.Ordinary]
  have hrun : Along (Node.step (env hub)) (MergeStep (root 10)) (start 10) sharedEvents ∧
      (∀ v ∈ d.all, v.transaction.spice.Norm) ∧
      (d.all.map fun v => v.transaction.spice.value).sum < Melange.cap ∧
      d.getVertex bothPaid.hash = some bothPaid ∧ d.graph.isLeaf bothPaid.hash = false ∧
      bothPaid.leftParentHash ≠ bothPaid.rightParentHash ∧
      ∀ a ∈ [wallet 7, wallet 8], a ≠ (root 10).transaction.issuerAddress ∧ issued a (d.past bothPaid.hash) ≠ 0 := by
    decide +kernel
  obtain ⟨hm, hnorm, htotal, hget, hleaf, hmerges, hissuers⟩ := hrun
  refine ⟨hmerges, fun a ha => ⟨(hissuers a ha).2, ?_⟩⟩
  exact no_double_spending (nonzeroDigests hub) (genesis_start 10) hes hm (.of_total hnorm htotal) _ _ hget
    (Digraph.isLeaf_eq_false.mp hleaf) a (hissuers a ha).1

end Computantis
