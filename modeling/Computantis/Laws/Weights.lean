import Computantis.Laws.Validated

/-! @law weights | name:Weights along edges | family:invariant | about:Model/Node

    A vertex made here weighs one more than the heavier of its parents. A received vertex carries
    whatever weight its signer chose: `addLeafMemorized` never looks at it, so a vertex as light as
    its parent is accepted (`light_child_accepted`). In runs whose received vertices are weighted by
    the rule, and whose tips stay below the end of the machine word, weights rise along every edge. -/

namespace Computantis

open Schemes

theorem toNat_max (a b : UInt64) : (max a b).toNat = max a.toNat b.toNat := by
  change (if a ≤ b then b else a).toNat = _
  split
  next h => rw [max_eq_right (UInt64.le_iff_toNat_le.mp h)]
  next h => rw [max_eq_left (Nat.le_of_not_le fun h' => h (UInt64.le_iff_toNat_le.mpr h'))]

theorem calcNewWeight_exact {l r : UInt64} (hl : l.toNat + 1 < 2 ^ 64) (hr : r.toNat + 1 < 2 ^ 64) :
    (calcNewWeight l r).toNat = max l.toNat r.toNat + 1 := by
  rw [calcNewWeight, UInt64.toNat_add, toNat_max, UInt64.toNat_one]
  exact Nat.mod_eq_of_lt (by omega)

/-- CONDITION: a received vertex is weighted by its parents, and the leaves from which a vertex is
    made here are not at the end of the machine word. -/
def WeighedStep (s : Node) : Event → Prop
  | .finishAdd m _ _ => ∀ l ∈ s.book.dag.getVertex m.vrx.leftParentHash,
      ∀ r ∈ s.book.dag.getVertex m.vrx.rightParentHash,
        m.vrx.weight.toNat = max l.weight.toNat r.weight.toNat + 1
  | .finishCreate .. => ∀ k ∈ s.book.dag.graph.leaves, ∀ v ∈ s.book.dag.getVertex k,
      v.weight.toNat + 1 < 2 ^ 64
  | _ => True

instance (s : Node) : (e : Event) → Decidable (WeighedStep s e)
  | .finishAdd .. | .finishCreate .. | .beginCreate .. | .beginAdd .. | .beginReplay .. | .tick
  | .truncate .. => by dsimp only [WeighedStep]; infer_instance

/-- The vertex is weighted by its parents. -/
def Weighed (d : Dag) (v : Vertex) : Prop :=
  ∀ l r, d.getVertex v.leftParentHash = some l → d.getVertex v.rightParentHash = some r →
    v.weight.toNat = max l.weight.toNat r.weight.toNat + 1

theorem weighed_pastOnly : PastOnly Weighed := by
  intro d d' v hl hr h l r hgl hgr
  rw [Dag.getVertex, hl.get _ (Or.inl rfl)] at hgl
  rw [Dag.getVertex, hr.get _ (Or.inl rfl)] at hgr
  exact h l r hgl hgr

theorem weighed_origin {env : Env} {s : Node} {e : Event} (hw : WeighedStep s e) {leaf l r : Vertex}
    (ho : s.origin env e leaf l r) : Weighed s.book.dag leaf := by
  intro l' r' hl' hr'
  cases e with
  | finishCreate trx first second now faults =>
    obtain ⟨-, rfl, hleft, hright⟩ := ho
    cases hleft.1.symm.trans hl'
    cases hright.1.symm.trans hr'
    exact calcNewWeight_exact (hw l.hash hleft.mem_leaves l hleft.1)
      (hw r.hash hright.mem_leaves r hright.1)
  | finishAdd m probe faults =>
    obtain ⟨-, rfl⟩ := ho
    exact hw l' hl' r' hr'
  | _ => exact ho.elim

/-- WEIGHTS: along a run of weighed steps every vertex but the genesis vertex weighs one more, without
    wrapping around, than the heavier of its two parents, and weights rise along every edge. -/
theorem weights_consistent {env : Env} (hz : NonzeroDigests env) {n : UInt64} {spec : Book.GenesisSpec}
    {s : Node} {g : Vertex} (h : Node.genesis env n spec = some (s, g)) {es : List Event}
    (hes : ∀ e ∈ es, e.Ordinary) (hw : Along (Node.step env) WeighedStep s es) :
    let d := (run (Node.step env) s es).book.dag
    (∀ k v, d.getVertex k = some v → v ≠ g → ∃ l r, d.getVertex v.leftParentHash = some l ∧
      d.getVertex v.rightParentHash = some r ∧ v.weight = calcNewWeight l.weight r.weight ∧
      v.weight.toNat = max l.weight.toNat r.weight.toNat + 1) ∧
    (∀ p k u v, d.graph.Arc p k → d.getVertex p = some u → d.getVertex k = some v →
      u.weight < v.weight) := by
  intro d
  obtain ⟨hs, hwd⟩ := sound_run hz h (I := fun t => EachVertex g Weighed t.book) (.genesis h)
    (fun t e he hp hs hi => hi.step weighed_pastOnly hz he hs
      fun _ _ _ ho _ _ _ _ => weighed_origin hp ho) hes hw
  have hc : Closed g (run (Node.step env) s es).book := hs.closed
  have hpar : ∀ k v, d.getVertex k = some v → k ≠ g.hash → ∃ l r,
      d.getVertex v.leftParentHash = some l ∧ d.getVertex v.rightParentHash = some r ∧
      v.weight.toNat = max l.weight.toNat r.weight.toNat + 1 := by
    intro k v hk hne
    have hkey : v.hash = k := d.keyed hk
    subst hkey
    have harc := hc.parents v.hash v hk hne
    obtain ⟨l, hl⟩ := Digraph.mem_nodes.mp ((harc _).mpr (Or.inl rfl)).left
    obtain ⟨r, hr⟩ := Digraph.mem_nodes.mp ((harc _).mpr (Or.inr rfl)).left
    exact ⟨l, r, hl, hr, hwd v hk hne l r hl hr⟩
  refine ⟨?_, ?_⟩
  · intro k v hk hne
    obtain ⟨l, r, hl, hr, hwt⟩ := hpar k v hk fun he => hne (hc.genesis v (he ▸ hk))
    refine ⟨l, r, hl, hr, ?_, hwt⟩
    have hlt := v.weight.toNat_lt
    exact UInt64.toNat_inj.mp (by rw [hwt, calcNewWeight_exact (by omega) (by omega)])
  · intro p k u v ha hu hv
    have hne : k ≠ g.hash := by
      rintro rfl; exact hc.root p ha
    obtain ⟨l, r, hl, hr, hwt⟩ := hpar k v hv hne
    rw [UInt64.lt_iff_toNat_lt]
    rcases (hc.parents k v hv hne p).mp ha with rfl | rfl
    · cases hl.symm.trans hu; omega
    · cases hr.symm.trans hu; omega

/-! ### A light child -/

/-- A vertex of weight zero below the genesis vertex, which has weight zero too. -/
def Transparent.light : Vertex :=
  sealed (trx (wallet 7) (wallet 8) ⟨4, 0⟩ [] 3) (root 10) (root 10) 0 4

open Transparent in
/-- BUG: the vertex verifies, is accepted and hangs below a parent of the same weight. -/
theorem light_child_accepted :
    let d := (run (Node.step (env hub)) (start 10) (addEvents light)).book.dag
    (∀ e ∈ addEvents light, e.Ordinary) ∧ light.verify verifier = true ∧
      d.getVertex light.hash = some light ∧ light ≠ root 10 ∧
      d.getVertex light.leftParentHash = some (root 10) ∧
      d.getVertex light.rightParentHash = some (root 10) ∧
      light.weight ≠ calcNewWeight (root 10).weight (root 10).weight ∧
      d.graph.Arc (root 10).hash light.hash ∧ ¬ (root 10).weight < light.weight := by
  refine ⟨by simp [addEvents, Event.Ordinary], ?_⟩
  decide +kernel

open Transparent in
/-- The law at the run of a weighed transfer and a tip made below it. -/
theorem chain_weights :
    let d := (run (Node.step (env hub)) (start 10) chainEvents).book.dag
    d.graph.arcs.length = 2 ∧
      ∀ p k u v, d.graph.Arc p k → d.getVertex p = some u → d.getVertex k = some v →
        u.weight < v.weight := by
  have hes : ∀ e ∈ chainEvents, e.Ordinary := by
    simp [chainEvents, addEvents, createEvents, Event.Ordinary]
  have hw : Along (Node.step (env hub)) WeighedStep (start 10) chainEvents := by decide +kernel
  exact ⟨by decide +kernel, (weights_consistent (nonzeroDigests hub) (genesis_start 10) hes hw).2⟩

end Computantis
