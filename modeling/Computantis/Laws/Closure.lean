import Computantis.Laws.Assumptions
import Computantis.Laws.Moves

/-! @law closure | name:Parent closure | family:invariant | about:Model/Node

    In a book that is never truncated every vertex but the genesis vertex hangs below both parents
    it names, by exactly those edges, and every vertex is reachable from the genesis vertex. Deleting
    a leaf never orphans anybody, and a new vertex gets its edges in the same call.

    The edge loop starts its `addedHash` at the zero hash, so the law needs that no digest is zero. -/

namespace Computantis

open Schemes

/-! ### One step of a node -/

/-- The vertex that an event inserts below `l` and `r`. -/
def Node.origin (env : Env) (s : Node) : Event → Vertex → Vertex → Vertex → Prop
  | .finishCreate trx _ _ now _ => fun leaf l r => .create trx ∈ s.pending ∧
      leaf = Book.tip env trx l r now ∧ IsLeafOf s.book l ∧ IsLeafOf s.book r
  | .finishAdd m _ _ => fun leaf _ _ => .add m ∈ s.pending ∧ leaf = m.vrx
  | _ => fun _ _ _ => False

def Event.faults : Event → Faults
  | .beginCreate _ f | .beginAdd _ f | .beginReplay f | .finishCreate _ _ _ _ f | .finishAdd _ _ f => f
  | .tick | .truncate _ => Faults.none

/-- What an ordinary event does to the book of a node: nothing that a law looks at, or the locked
    part of a pending call. -/
inductive Node.Takes (env : Env) (s : Node) : Event → Book → Prop where
  | quiet {e : Event} {b : Book} (frame : Frame s.book b) (dag : b.dag = s.book.dag)
      (trxs : b.trxsToVertxDB = s.book.trxsToVertxDB) : Takes env s e b
  | create {trx : Transaction} {first second : Book.Pass} {now : Time} {faults : Faults}
      (pending : .create trx ∈ s.pending) : Takes env s (.finishCreate trx first second now faults)
        (s.book.createLeafLocked env trx first second now faults).1
  | add {m : Memory} {probe : Hash → Probe} {faults : Faults} (pending : .add m ∈ s.pending) :
      Takes env s (.finishAdd m probe faults) (s.book.addLeafLocked env m probe faults).1

section

variable {env : Env} {s : Node} {e : Event} {spec : Book.GenesisSpec} {g : Vertex} {n : UInt64}

theorem Node.step_takes (env : Env) (s : Node) (he : e.Ordinary) : s.Takes env e (s.step env e).book := by
  cases e with
  | beginCreate trx faults =>
    simp only [Node.step, Node.beginCreate]
    split <;> exact .quiet (Frame.refl _) rfl rfl
  | beginAdd leaf faults =>
    simp only [Node.step, Node.beginAdd]
    split
    · exact .quiet (Frame.refl _) rfl rfl
    · split <;> exact .quiet (Frame.refl _) rfl rfl
  | beginReplay faults =>
    simp only [Node.step, Node.beginReplay]
    split
    · exact .quiet (Frame.refl _) rfl rfl
    · split <;> exact .quiet ⟨rfl, rfl, rfl, rfl⟩ rfl rfl
  | finishCreate trx first second now faults =>
    simp only [Node.step]
    split
    next hp => exact .create hp
    next => exact .quiet (Frame.refl _) rfl rfl
  | finishAdd m probe faults =>
    simp only [Node.step]
    split
    next hp => exact .add hp
    next => exact .quiet (Frame.refl _) rfl rfl
  | tick => exact .quiet ⟨rfl, rfl, rfl, rfl⟩ rfl rfl
  | truncate t => exact he.elim

theorem Node.step_shape (env : Env) (s : Node) (he : e.Ordinary) :
    ∃ b1, Shrunk env e.faults s.book b1 ∧
      Move env e.faults (s.origin env e) b1 (s.step env e).book := by
  have ht := s.step_takes env he
  generalize (s.step env e).book = b' at ht
  cases ht with
  | quiet hf hd ht => exact ⟨s.book, .refl, .idle hf hd ht⟩
  | create hp =>
    obtain ⟨b1, hs, hm⟩ := createLeafLocked_moves env _ s.book _ _ _ _
    exact ⟨b1, hs, hm.mono fun _ _ _ h => ⟨hp, h⟩⟩
  | add hp =>
    obtain ⟨b1, hs, hm⟩ := addLeafLocked_moves env _ s.book _ _
    exact ⟨b1, hs, hm.mono fun _ _ _ h => ⟨hp, h⟩⟩

theorem Node.step_frame (env : Env) (s : Node) (he : e.Ordinary) : Frame s.book (s.step env e).book := by
  obtain ⟨b1, hs, hm⟩ := s.step_shape env he
  exact hs.remains.frame.trans hm.frame

theorem Node.step_moves (env : Env) (s : Node) (he : e.Ordinary) :
    Moves env e.faults (s.origin env e) s.book (s.step env e).book := by
  obtain ⟨b1, hs, hm⟩ := s.step_shape env he
  exact (Relation.ReflTransGen.mono (fun _ _ => Move.mono fun _ _ _ h => h.elim) _ _ hs).tail hm

/-! ### What the checks before the lock leave behind -/

/-- The fact holds of every received vertex that waits for the lock. -/
def Node.PendingAdds (Q : Vertex → Prop) (s : Node) : Prop := ∀ m, Call.add m ∈ s.pending → Q m.vrx

/-- Every vertex waiting for the lock has passed `verify`. -/
def Node.PendingVerified (env : Env) (s : Node) : Prop := s.PendingAdds fun v => v.verify env.verifier = true

/-- SPEC (checks of `addLeafMemorized`): the issuer is not the genesis wallet and the vertex verifies. -/
theorem addLeafChecks_ok {b : Book} {leaf : Vertex} {faults : Faults} (h : b.addLeafChecks env leaf faults = .ok ()) :
    leaf.transaction.issuerAddress ≠ b.genesisPublicAddress ∧ leaf.verify env.verifier = true := by
  unfold Book.addLeafChecks at h
  split at h
  · cases h
  next hissuer =>
    split at h
    · cases h
    · cases h
    · split at h
      · cases h
      · cases h
      · split at h
        next hv => exact ⟨hissuer, hv⟩
        · cases h

/-- The call that an event lets past its checks. -/
inductive Node.Enters (env : Env) (s : Node) : Event → Call → Prop
  | create {trx : Transaction} {faults : Faults} (checks : s.book.createLeafChecks env trx faults = .ok ()) :
    Enters env s (.beginCreate trx faults) (.create trx)
  | add {leaf : Vertex} {faults : Faults} (guard : s.book.addLeafGuard leaf = .ok ())
    (checks : s.book.addLeafChecks env leaf faults = .ok ()) :
    Enters env s (.beginAdd leaf faults) (.add (newMemory leaf))
  | replay {m : Memory} {pub : List Memory} {faults : Faults} (next : s.book.repeater.pub = m :: pub)
    (checks : { s.book with repeater := { s.book.repeater with pub } }.addLeafChecks env m.vrx faults = .ok ()) :
    Enters env s (.beginReplay faults) (.add m)

theorem Node.pending_step {c : Call} (h : c ∈ (s.step env e).pending) : c ∈ s.pending ∨ s.Enters env e c := by
  cases e with
  | beginCreate trx faults =>
    simp only [Node.step, Node.beginCreate] at h
    split at h
    · exact Or.inl h
    next hc =>
      rcases List.mem_append.mp h with h | h
      · exact Or.inl h
      · rw [List.mem_singleton.mp h]
        exact Or.inr (.create hc)
  | beginAdd leaf faults =>
    simp only [Node.step, Node.beginAdd] at h
    split at h
    · exact Or.inl h
    next hg =>
      split at h
      · exact Or.inl h
      next hc =>
        rcases List.mem_append.mp h with h | h
        · exact Or.inl h
        · rw [List.mem_singleton.mp h]
          exact Or.inr (.add hg hc)
  | beginReplay faults =>
    simp only [Node.step, Node.beginReplay] at h
    split at h
    · exact Or.inl h
    next hpub =>
      split at h
      · exact Or.inl h
      next hc =>
        rcases List.mem_append.mp h with h | h
        · exact Or.inl h
        · rw [List.mem_singleton.mp h]
          exact Or.inr (.replay hpub hc)
  | finishCreate trx first second now faults =>
    simp only [Node.step] at h
    split at h
    · exact Or.inl (List.mem_of_mem_erase h)
    · exact Or.inl h
  | finishAdd m probe faults =>
    simp only [Node.step] at h
    split at h
    · exact Or.inl (List.mem_of_mem_erase h)
    · exact Or.inl h
  | tick => exact Or.inl h
  | truncate t => exact Or.inl h

theorem Node.PendingAdds.step {Q : Vertex → Prop}
    (hQ : ∀ (b : Book) (leaf : Vertex) (faults : Faults), b.genesisPublicAddress = s.book.genesisPublicAddress →
      b.addLeafChecks env leaf faults = .ok () → Q leaf) (h : s.PendingAdds Q) (e : Event) :
    (s.step env e).PendingAdds Q := by
  intro m hm
  rcases Node.pending_step hm with hold | hnew
  · exact h m hold
  · cases hnew with
    | add _ hc => exact hQ _ _ _ rfl hc
    | replay _ hc => exact hQ _ _ _ rfl hc

theorem Node.PendingVerified.step (h : s.PendingVerified env) (e : Event) : (s.step env e).PendingVerified env :=
  Node.PendingAdds.step (fun _ _ _ _ hc => (addLeafChecks_ok hc).2) h e

theorem NonzeroDigests.origin_ne (hz : NonzeroDigests env) (hs : s.PendingVerified env) {leaf l r : Vertex}
    (ho : s.origin env e leaf l r) :
    leaf.hash ≠ Hash.zero := by
  cases e with
  | finishCreate trx first second now faults =>
    obtain ⟨-, rfl, -⟩ := ho
    exact hz.signer _
  | finishAdd m probe faults =>
    obtain ⟨hp, rfl⟩ := ho
    exact hz.hash_ne (hs m hp)
  | _ => exact ho.elim

/-! ### The invariant -/

/-- INVARIANT: `g` is the only root, everything else hangs below its declared parents and `g`. -/
structure Closed (g : Vertex) (b : Book) : Prop where
  nonzero : ∀ k, k ∈ b.dag.graph.nodes → k ≠ Hash.zero
  genesis : ∀ v, b.dag.getVertex g.hash = some v → v = g
  root : ∀ p, ¬ b.dag.graph.Arc p g.hash
  parents : ∀ k v, b.dag.getVertex k = some v → k ≠ g.hash →
    ∀ p, b.dag.graph.Arc p k ↔ p = v.leftParentHash ∨ p = v.rightParentHash
  reach : ∀ k, k ∈ b.dag.graph.nodes → k = g.hash ∨ b.dag.graph.Anc g.hash k

namespace Closed

variable {g : Vertex} {b b' : Book}

theorem genesis_mem (h : Closed g b) {k : Hash} (hk : k ∈ b.dag.graph.nodes) :
    g.hash ∈ b.dag.graph.nodes := by
  rcases h.reach k hk with rfl | ha
  · exact hk
  · exact ha.left

theorem eq_of_isRoot (h : Closed g b) {v : Vertex} (hv : b.dag.getVertex v.hash = some v)
    (hr : b.dag.graph.isRoot v.hash = true) : v.hash = g.hash := by
  by_contra hne
  refine Digraph.isRoot_iff.mp hr v.leftParentHash ?_
  exact (h.parents v.hash v hv hne _).mpr (Or.inl rfl)

theorem of_dag_eq (h : Closed g b) (hd : b'.dag = b.dag) : Closed g b' := by
  obtain ⟨h1, h2, h3, h4, h5⟩ := h
  rw [← hd] at h1 h2 h3 h4 h5
  exact ⟨h1, h2, h3, h4, h5⟩

theorem congr (h : Closed g b) (hget : ∀ k, b'.dag.getVertex k = b.dag.getVertex k)
    (harc : ∀ x y, b'.dag.graph.Arc x y ↔ b.dag.graph.Arc x y) : Closed g b' := by
  have hmem : ∀ k, k ∈ b'.dag.graph.nodes → k ∈ b.dag.graph.nodes := fun k hk => by
    obtain ⟨v, hv⟩ := Digraph.mem_nodes.mp hk
    exact Dag.mem_nodes ((hget k).symm.trans hv)
  refine ⟨fun k hk => h.nonzero k (hmem k hk), fun v hv => h.genesis v ((hget _).symm.trans hv),
    fun p hp => h.root p ((harc _ _).mp hp), fun k v hv hne p => ?_, fun k hk => ?_⟩
  · rw [harc]
    exact h.parents k v ((hget k).symm.trans hv) hne p
  · exact (h.reach k (hmem k hk)).imp_right (Digraph.anc_mono fun x y hxy => (harc x y).mpr hxy)

theorem delete (h : Closed g b) {n : Hash} (hn : ¬ b.dag.graph.HasChild n)
    (hd : b'.dag = b.dag.deleteVertex n) : Closed g b' := by
  have hgraph : b'.dag.graph = b.dag.graph.delete n := by rw [hd]; rfl
  have hget : ∀ k v, b'.dag.getVertex k = some v → k ≠ n ∧ b.dag.getVertex k = some v := by
    intro k v hk
    rw [Dag.getVertex, hgraph, Digraph.get_delete] at hk
    split at hk
    · cases hk
    next hne => exact ⟨hne, hk⟩
  refine ⟨?_, ?_, ?_, ?_, ?_⟩
  · intro k hk
    rw [hgraph, Digraph.mem_delete] at hk
    exact h.nonzero k hk.2
  · exact fun v hv => h.genesis v (hget _ _ hv).2
  · intro p hp
    rw [hgraph, Digraph.arc_delete] at hp
    exact h.root p hp.1
  · intro k v hk hne p
    obtain ⟨hkn, hk'⟩ := hget _ _ hk
    rw [hgraph, Digraph.arc_delete, ← h.parents k v hk' hne p]
    exact ⟨fun ha => ha.1, fun ha => ⟨ha, fun e => hn ⟨k, e ▸ ha⟩, hkn⟩⟩
  · intro k hk
    rw [hgraph, Digraph.mem_delete] at hk
    rw [hgraph, Digraph.anc_delete_leaf hn hk.1]
    exact h.reach k hk.2

theorem grow (h : Closed g b) {leaf l r : Vertex} (left : leaf.leftParentHash = l.hash)
    (right : leaf.rightParentHash = r.hash) (hl : b.dag.getVertex l.hash = some l)
    (hleaf : leaf.hash ≠ Hash.zero)
    (hg : Digraph.Grown b.dag.graph b'.dag.graph leaf.hash leaf (edgeParents leaf)) : Closed g b' := by
  have hlmem : l.hash ∈ b.dag.graph.nodes := Dag.mem_nodes hl
  have hgmem := h.genesis_mem hlmem
  have hgne : g.hash ≠ leaf.hash := hg.ne hgmem
  have hedge : edgeParents leaf = [l.hash, r.hash] := by
    rw [edgeParents, left, if_neg (h.nonzero _ hlmem), Vertex.parentHashes, left, right]
  refine ⟨?_, ?_, ?_, ?_, ?_⟩
  · intro k hk
    rcases hg.mem.mp hk with rfl | hk
    · exact hleaf
    · exact h.nonzero k hk
  · intro v hv
    rw [Dag.getVertex, hg.get_of_ne hgne] at hv
    exact h.genesis v hv
  · intro p hp
    exact h.root p ((hg.arc_of_ne hgne).mp hp)
  · intro k v hk hne p
    by_cases hkn : k = leaf.hash
    · subst hkn
      rw [Dag.getVertex, hg.get_self] at hk
      cases hk
      rw [hg.arc_self, hedge, left, right]; simp
    · rw [Dag.getVertex, hg.get_of_ne hkn] at hk
      rw [hg.arc_of_ne hkn]
      exact h.parents k v hk hne p
  · intro k hk
    rcases hg.mem.mp hk with rfl | hk
    · right
      refine hg.anc_self.mpr ⟨l.hash, by simp [hedge], ?_⟩
      exact (h.reach l.hash hlmem).imp Eq.symm id
    · rw [hg.anc_of_ne (hg.ne hk)]
      exact h.reach k hk

/-- CONTENT: the declared parents determine the past, so two closed graphs that agree on the past of
    a vertex as one of them has it agree on the past as the other has it. -/
theorem samePast (h : Closed g b) (h' : Closed g b') {k : Hash}
    (hk : ∀ x, x = k ∨ b.dag.graph.Anc x k → b'.dag.getVertex x = b.dag.getVertex x) :
    Digraph.SamePast b.dag.graph b'.dag.graph k := by
  have harc : ∀ p c, c = k ∨ b.dag.graph.Anc c k → (b'.dag.graph.Arc p c ↔ b.dag.graph.Arc p c) := by
    intro p c hc
    by_cases hg : c = g.hash
    · subst hg; exact iff_of_false (h'.root p) (h.root p)
    · cases hget : b.dag.getVertex c with
      | none =>
        have hnone : c ∉ b.dag.graph.nodes := Digraph.get_eq_none.mp hget
        have hnone' : c ∉ b'.dag.graph.nodes := Digraph.get_eq_none.mp ((hk c hc).trans hget)
        exact iff_of_false (fun ha => hnone' ha.right) (fun ha => hnone ha.right)
      | some v => rw [h.parents c v hget hg, h'.parents c v ((hk c hc).trans hget) hg]
  exact .of_arc harc hk

theorem move {faults : Faults} {origin : Vertex → Vertex → Vertex → Prop}
    (ho : ∀ leaf l r, origin leaf l r → leaf.hash ≠ Hash.zero) (hm : Move env faults origin b b') (h : Closed g b) :
    Closed g b' := by
  cases hm with
  | idle _ hd _ => exact h.of_dag_eq hd
  | reject _ _ hleaf _ hd _ => exact h.delete hleaf hd
  | refuse _ _ _ _ hd _ => exact h.of_dag_eq hd
  | grow _ hs left right hl _ _ hd _ => exact h.grow left right hl.1 (ho _ _ _ hs) hd

end Closed

/-- The node of a completed genesis: one vertex without edges, in the index, and empty stores. -/
structure Founded (env : Env) (spec : Book.GenesisSpec) (g : Vertex) (s : Node) : Prop where
  grown : Digraph.Grown Digraph.empty s.book.dag.graph g.hash g []
  pending : s.pending = []
  repeater : s.book.repeater = Buffer.empty
  verticesDB : s.book.verticesDB = ∅
  trustedNodesDB : s.book.trustedNodesDB = []
  trxs : s.book.trxsToVertxDB = (∅ : AList fun _ : Hash => Hash).insert g.transaction.hash g.hash
  address : s.book.genesisPublicAddress = env.signer.address
  loaded : s.book.dagLoaded = true
  made : ∃ t, Transaction.new spec.subject spec.spice spec.data spec.receiverPublicAddress env.signer
    spec.trxAt = some t ∧ g = Vertex.new t Hash.zero Hash.zero 0 env.signer spec.vrxAt

theorem founded (h : Node.genesis env n spec = some (s, g)) : Founded env spec g s := by
  unfold Node.genesis Book.createGenesis at h
  split at h
  · cases h
  next book vrx hres =>
    cases h
    split at hres
    · cases hres
    · split at hres
      · cases hres
      next trx htrx =>
        simp only at hres
        split at hres
        · cases hres
        next b1 hsave =>
          obtain ⟨-, rfl⟩ := saveTrx_ok hsave
          split at hres
          · cases hres
          next dag hadd =>
            cases hres
            exact ⟨Digraph.Grown.of_addNode (Dag.addVertexByID_eq_some hadd), rfl, rfl, rfl, rfl, rfl, rfl,
              rfl, trx, htrx, rfl⟩

theorem Founded.eq {v : Vertex} {k : Hash} (h : Founded env spec g s) (hv : s.book.dag.getVertex k = some v) :
    k = g.hash ∧ v = g := by
  obtain rfl : k = g.hash :=
    (h.grown.mem.mp (Dag.mem_nodes hv)).resolve_right (by simp [Digraph.empty])
  rw [Dag.getVertex, h.grown.get_self] at hv
  exact ⟨rfl, (Option.some.inj hv).symm⟩

theorem closed_genesis (hz : NonzeroDigests env) (h : Node.genesis env n spec = some (s, g)) : Closed g s.book := by
  have hf := founded h
  obtain ⟨t, -, hnew⟩ := hf.made
  have hmem : ∀ k, k ∈ s.book.dag.graph.nodes → k = g.hash := fun k hk => by
    obtain ⟨v, hv⟩ := Digraph.mem_nodes.mp hk
    exact (hf.eq hv).1
  refine ⟨?_, fun v hv => (hf.eq hv).2, ?_, ?_, fun k hk => Or.inl (hmem k hk)⟩
  · intro k hk
    rw [hmem k hk, hnew]; exact hz.signer _
  · intro p hp
    simpa using hf.grown.arc_self.mp hp
  · intro k v hk hne
    exact absurd (hf.eq hk).1 hne

/-- RUN: the invariant holds in every state that ordinary events reach from the genesis node. -/
theorem closed_run (hz : NonzeroDigests env) (h : Node.genesis env n spec = some (s, g)) {es : List Event}
    (hes : ∀ e ∈ es, e.Ordinary) :
    Closed g (run (Node.step env) s es).book ∧ (run (Node.step env) s es).PendingVerified env := by
  refine run_invariant_along (P := fun (_ : Node) (e : Event) => e.Ordinary)
    (I := fun (s : Node) => Closed g s.book ∧ s.PendingVerified env) ?_ (along_of_forall hes s) ?_
  · rintro s e he ⟨hc, hp⟩
    exact ⟨Moves.invariant (fun hm hb => hb.move (fun _ _ _ ho => hz.origin_ne hp ho) hm)
      (s.step_moves env he) hc, hp.step e⟩
  · refine ⟨closed_genesis hz h, ?_⟩
    rw [Node.PendingVerified, Node.PendingAdds, (founded h).pending]
    simp

end

/-- PARENT CLOSURE: in every reachable state each vertex but the genesis vertex has both declared
    parents in the graph and edges from exactly these, only the genesis vertex is a root, and every
    vertex is reachable from it. -/
theorem parent_closure {env : Env} (hz : NonzeroDigests env) {n : UInt64} {spec : Book.GenesisSpec}
    {s : Node} {g : Vertex} (h : Node.genesis env n spec = some (s, g)) {es : List Event}
    (hes : ∀ e ∈ es, e.Ordinary) :
    let d := (run (Node.step env) s es).book.dag
    (∀ k v, d.getVertex k = some v → v ≠ g →
      (∃ l, d.getVertex v.leftParentHash = some l) ∧ (∃ r, d.getVertex v.rightParentHash = some r) ∧
        ∀ p, d.graph.Arc p k ↔ p = v.leftParentHash ∨ p = v.rightParentHash) ∧
    (∀ k ∈ d.graph.roots, d.getVertex k = some g) ∧
    (∀ k v, d.getVertex k = some v → v = g ∨ d.graph.Anc g.hash k) := by
  intro d
  obtain ⟨hc, -⟩ := closed_run hz h hes
  have hne : ∀ k v, d.getVertex k = some v → v ≠ g → k ≠ g.hash := by
    rintro k v hk hv rfl; exact hv (hc.genesis v hk)
  refine ⟨?_, ?_, ?_⟩
  · intro k v hk hv
    have hpar := hc.parents k v hk (hne k v hk hv)
    exact ⟨Digraph.mem_nodes.mp ((hpar _).mpr (Or.inl rfl)).left,
      Digraph.mem_nodes.mp ((hpar _).mpr (Or.inr rfl)).left, hpar⟩
  · intro k hk
    obtain ⟨hmem, hroot⟩ := Digraph.mem_roots.mp hk
    obtain ⟨v, hv⟩ := Digraph.mem_nodes.mp hmem
    have hkey : v.hash = k := d.keyed hv
    subst hkey
    have heq := hc.eq_of_isRoot hv (Digraph.isRoot_iff.mpr hroot)
    have hvg : v = g := hc.genesis v (heq ▸ hv)
    rw [← hvg]; exact hv
  · intro k v hk
    by_cases hv : v = g
    · exact Or.inl hv
    · exact Or.inr ((hc.reach k (Dag.mem_nodes hk)).resolve_left (hne k v hk hv))

/-- Two received vertices below the genesis vertex, and one made here below both. -/
def Transparent.forkEvents : List Event :=
  addEvents (sealed (trx (wallet 7) (wallet 8) ⟨4, 0⟩ [] 3) (root 10) (root 10) 1 4) ++
    addEvents (sealed (trx (wallet 9) (wallet 8) ⟨0, 0⟩ [1] 5) (root 10) (root 10) 1 6) ++
    createEvents (trx (wallet 8) (wallet 9) ⟨1, 0⟩ [] 7) 8

open Transparent in
/-- The law at a run that ends with four vertices: its only root is the genesis vertex. -/
theorem fork_parent_closure :
    let d := (run (Node.step (env hub)) (start 10) forkEvents).book.dag
    d.graph.nodes.keys.length = 4 ∧ d.graph.arcs.length = 4 ∧
      (∀ k ∈ d.graph.roots, d.getVertex k = some (root 10)) ∧
      ∀ k v, d.getVertex k = some v → v = root 10 ∨ d.graph.Anc (root 10).hash k := by
  have hes : ∀ e ∈ forkEvents, e.Ordinary := by
    simp [forkEvents, addEvents, createEvents, Event.Ordinary]
  obtain ⟨-, hroots, hreach⟩ := parent_closure (nonzeroDigests hub) (genesis_start 10) hes
  exact ⟨by decide +kernel, by decide +kernel, hroots, hreach⟩

end Computantis
