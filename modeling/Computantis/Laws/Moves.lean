import Computantis.Laws.Funds

/-! @law moves | name:What a locked call can do | family:transition | about:Model/Ledger

    Everything `createLeaf` and `addLeafMemorized` do under the lock is a sequence of four kinds of
    move: nothing happens to the ledger, a leaf that fails validation is deleted, an insertion is
    refused because the hash is known, or a new childless vertex appears below two known parents
    that have a child already or have just passed. Every law about reachable ledgers is an invariant
    of these moves.

        addLeafLocked     =  idle* · (reject | refuse | grow | idle)
        createLeafLocked  =  reject* · (refuse | grow | idle)

    The moves before the last one insert nothing, so what the last one sees was there when the call
    took the lock (`Shrunk`). -/

namespace Computantis

open Schemes

/-! ### What a passed validation leaves behind -/

/-- The funds check over a list of ancestors, free of contexts and failing stores. -/
def FundsPassIn (env : Env) (b : Book) (v : Vertex) (ids : List Hash) : Prop :=
  ∃ start pots, b.openPots env v false = .ok start ∧
    foldFunds v.transaction.issuerAddress (b.dag.vertices ids) start = .ok pots ∧
    checkHasSufficientfunds pots = .ok ()

/-- The list enumerates the ancestors of `k`. -/
structure Enumerates (d : Dag) (k : Hash) (ids : List Hash) : Prop where
  nodup : ids.Nodup
  mem : ∀ x, x ∈ ids ↔ d.graph.Anc x k

/-- The funds check succeeds for some enumeration of the ancestors. -/
def FundsPass (env : Env) (b : Book) (v : Vertex) : Prop :=
  ∃ ids, Enumerates b.dag v.hash ids ∧ FundsPassIn env b v ids

/-- The vertex has passed a validation that looked at its funds, or did not have to. -/
structure Passed (env : Env) (b : Book) (v : Vertex) : Prop where
  verified : v.verify env.verifier = true
  funded : b.dag.graph.isRoot v.hash = true ∨ v.transaction.isSpiceTransfer = false ∨
    v.signerPublicAddress ∈ b.trustedNodesDB ∨ FundsPass env b v

variable {b b' : Book} {env : Env} {v : Vertex} {faults : Faults} {p : Probe} {ids : List Hash} {Q : Vertex → Prop}
  {o origin : Vertex → Vertex → Vertex → Prop}

theorem openPots_ok {fails : Bool} {p : Pots} (h : b.openPots env v fails = .ok p) :
    b.openPots env v false = .ok p := by
  cases fails with
  | false => exact h
  | true => simp [Book.openPots, Book.readAddressFundsFromStorage] at h

theorem enumerates_walk (d : Dag) (k : Hash) (order : List Hash) :
    Enumerates d k (firsts [] (arrange order (d.graph.ancestors k))) :=
  ⟨firsts_nodup _ _, fun x => by simp [mem_firsts, mem_arrange, Digraph.mem_ancestors]⟩

theorem fundsPass_of_validateFunds (h : b.validateFunds env p v = .ok ()) : FundsPass env b v := by
  unfold Book.validateFunds at h
  split at h
  · cases h
  next start hstart =>
    split at h
    · cases h
    next pots hpots =>
      split at h
      · cases h
      next hcheck =>
        obtain ⟨-, hfold⟩ := walkFunds_calm.mp (walkFunds_ok hpots)
        exact ⟨_, enumerates_walk b.dag v.hash p.order, start, pots, openPots_ok hstart, hfold, hcheck⟩

theorem validateLeaf_ok (h : b.validateLeaf env p v = .ok ()) :
    b.isValidWeight v.weight = true ∧ v.hash ∈ b.dag.graph.nodes ∧ Passed env b v := by
  unfold Book.validateLeaf at h
  split at h
  · cases h
  next hw =>
    split at h
    · cases h
    next hv =>
      split at h
      · cases h
      next hmem =>
        refine ⟨by simpa using hw, not_not.mp hmem, by simpa using hv, ?_⟩
        split at h
        next hroot => exact Or.inl hroot
        next =>
          split at h
          · cases h
          next trusted ht =>
            split at h
            next hskip =>
              rcases hskip with hskip | rfl
              · exact Or.inr (Or.inl hskip)
              · refine Or.inr (Or.inr (Or.inl ?_))
                unfold Book.checkIsTrustedNode at ht
                split at ht
                · cases ht
                · simpa using ht
            next => exact Or.inr (Or.inr (Or.inr (fundsPass_of_validateFunds h)))

/-- The validation ends in a panic of `Verify`: nothing is removed, and the process is gone. -/
def Book.LeafPanics (env : Env) (b : Book) (p : Probe) (v : Vertex) : Prop := crashed (b.validateLeaf env p v) = true

theorem leafPanics_iff {e : Err} (h : b.validateLeaf env p v = .error e) : b.LeafPanics env p v ↔ .panicked ∈ e := by
  rw [Book.LeafPanics, h, crashed, decide_eq_true_iff]

theorem Book.LeafPanics.error (h : b.LeafPanics env p v) :
    ∃ e, b.validateLeaf env p v = .error e ∧ .panicked ∈ e := by
  cases hval : b.validateLeaf env p v with
  | error e => exact ⟨e, rfl, (leafPanics_iff hval).mp h⟩
  | ok _ =>
    rw [Book.LeafPanics, hval] at h
    cases h

/-! ### The parts of a book that no locked call changes -/

structure Frame (b b' : Book) : Prop where
  verticesDB : b'.verticesDB = b.verticesDB
  trustedNodesDB : b'.trustedNodesDB = b.trustedNodesDB
  genesisPublicAddress : b'.genesisPublicAddress = b.genesisPublicAddress
  dagLoaded : b'.dagLoaded = b.dagLoaded

theorem Frame.refl (b : Book) : Frame b b := ⟨rfl, rfl, rfl, rfl⟩

theorem Frame.trans {a c : Book} (h : Frame a b) (k : Frame b c) : Frame a c :=
  ⟨k.verticesDB.trans h.verticesDB, k.trustedNodesDB.trans h.trustedNodesDB,
    k.genesisPublicAddress.trans h.genesisPublicAddress, k.dagLoaded.trans h.dagLoaded⟩

section Projections

variable (b : Book) (v : Vertex) (h : Hash) (w : UInt64) (fails : Bool) (faults : Faults)

@[simp] theorem updateWeight_dag : (b.updateWeightAndThroughput w).dag = b.dag := rfl
@[simp] theorem updateWeight_trxs :
    (b.updateWeightAndThroughput w).trxsToVertxDB = b.trxsToVertxDB := rfl

theorem frame_updateWeight : Frame b (b.updateWeightAndThroughput w) := ⟨rfl, rfl, rfl, rfl⟩

@[simp] theorem removeTrx_dag : (b.removeTrxInVertex h fails).dag = b.dag := by
  unfold Book.removeTrxInVertex; split <;> rfl

theorem frame_removeTrx : Frame b (b.removeTrxInVertex h fails) := by
  unfold Book.removeTrxInVertex; split <;> exact ⟨rfl, rfl, rfl, rfl⟩

@[simp] theorem discard_dag : (b.discard v faults).dag = b.dag.deleteVertex v.hash := by
  rw [Book.discard, removeTrx_dag]

theorem discard_getVertex (k : Hash) :
    (b.discard v faults).dag.getVertex k = if k = v.hash then none else b.dag.getVertex k := by
  rw [discard_dag, Dag.getVertex, Dag.deleteVertex_graph, Digraph.get_delete]
  rfl

theorem frame_discard : Frame b (b.discard v faults) :=
  Frame.trans (b := { b with dag := b.dag.deleteVertex v.hash }) ⟨rfl, rfl, rfl, rfl⟩
    (frame_removeTrx _ _ _)

/-- The index after a transaction has been removed from it. -/
def unmapped (faults : Faults) (trxs : AList fun _ : Hash => Hash) (h : Hash) :
    AList fun _ : Hash => Hash :=
  if faults.removeTrx h then trxs else trxs.erase h

theorem removeTrx_trxs : (b.removeTrxInVertex h (faults.removeTrx h)).trxsToVertxDB =
    unmapped faults b.trxsToVertxDB h := by
  unfold Book.removeTrxInVertex unmapped; split <;> rfl

theorem discard_trxs : (b.discard v faults).trxsToVertxDB =
    unmapped faults b.trxsToVertxDB v.transaction.hash := by
  rw [Book.discard, removeTrx_trxs]

end Projections

/-! ### A passed vertex stays passed as long as its past does -/

theorem Dag.vertices_congr {d d' : Dag} (h : ∀ x ∈ ids, d'.getVertex x = d.getVertex x) :
    d'.vertices ids = d.vertices ids :=
  List.filterMap_congr h

theorem openPots_frame (hf : Frame b b') (v : Vertex) (fails : Bool) :
    b'.openPots env v fails = b.openPots env v fails := by
  simp only [Book.openPots, Book.readAddressFundsFromStorage, hf.verticesDB]

theorem Enumerates.samePast {d d' : Dag} {k : Hash} (h : Enumerates d k ids)
    (hp : Digraph.SamePast d.graph d'.graph k) : Enumerates d' k ids :=
  ⟨h.nodup, fun x => (h.mem x).trans (hp.anc x).symm⟩

theorem FundsPassIn.frame (h : FundsPassIn env b v ids) (hf : Frame b b')
    (hp : Digraph.SamePast b.dag.graph b'.dag.graph v.hash) (hids : Enumerates b.dag v.hash ids) :
    FundsPassIn env b' v ids := by
  obtain ⟨start, pots, hopen, hfold, hcheck⟩ := h
  refine ⟨start, pots, ?_, ?_, hcheck⟩
  · rw [openPots_frame hf]; exact hopen
  · rw [Dag.vertices_congr fun x hx => hp.get x (Or.inr ((hids.mem x).mp hx))]; exact hfold

theorem FundsPass.frame (h : FundsPass env b v) (hf : Frame b b')
    (hp : Digraph.SamePast b.dag.graph b'.dag.graph v.hash) : FundsPass env b' v := by
  obtain ⟨ids, hids, hin⟩ := h
  exact ⟨ids, hids.samePast hp, hin.frame hf hp hids⟩

theorem Passed.frame (h : Passed env b v) (hf : Frame b b') (hp : Digraph.SamePast b.dag.graph b'.dag.graph v.hash) :
    Passed env b' v := by
  refine ⟨h.verified, ?_⟩
  rw [hp.isRoot, hf.trustedNodesDB]
  exact h.funded.imp_right (Or.imp_right (Or.imp_right (·.frame hf hp)))

/-! ### Moves -/

/-- The parents whose edges the edge loop adds: none when the left hash is the loop's start value. -/
def edgeParents (leaf : Vertex) : List Hash :=
  if leaf.leftParentHash = Hash.zero then [] else leaf.parentHashes

/-- A vertex that may get a child: it has one, or it has passed. -/
def Extendable (env : Env) (b : Book) (v : Vertex) : Prop :=
  b.dag.getVertex v.hash = some v ∧ (b.dag.graph.HasChild v.hash ∨ Passed env b v)

theorem Extendable.of_eq (h : Extendable env b v) (hd : b'.dag = b.dag) (hf : Frame b b') : Extendable env b' v := by
  refine ⟨by rw [hd]; exact h.1, ?_⟩
  rcases h.2 with hc | hp
  · rw [hd]; exact Or.inl hc
  · exact Or.inr (hp.frame hf (by rw [hd]; exact .refl _ _))

/-- One elementary change of the ledger; `origin leaf l r` says which vertex a call inserts. -/
inductive Move (env : Env) (faults : Faults) (origin : Vertex → Vertex → Vertex → Prop) :
    Book → Book → Prop where
  | idle {b b' : Book} (frame : Frame b b') (dag : b'.dag = b.dag)
      (trxs : b'.trxsToVertxDB = b.trxsToVertxDB) : Move env faults origin b b'
  | reject {b b' : Book} {v : Vertex} {p : Probe} {e : Err} (frame : Frame b b')
      (known : b.dag.getVertex v.hash = some v) (leaf : ¬ b.dag.graph.HasChild v.hash)
      (failed : b.validateLeaf env p v = .error e) (dag : b'.dag = b.dag.deleteVertex v.hash)
      (trxs : b'.trxsToVertxDB = unmapped faults b.trxsToVertxDB v.transaction.hash) :
      Move env faults origin b b'
  | refuse {b b' : Book} {leaf l r : Vertex} (frame : Frame b b') (source : origin leaf l r)
      (known : leaf.hash ∈ b.dag.graph.nodes)
      (unused : b.trxsToVertxDB.lookup leaf.transaction.hash = none) (dag : b'.dag = b.dag)
      (trxs : b'.trxsToVertxDB = unmapped faults
        (b.trxsToVertxDB.insert leaf.transaction.hash leaf.hash) leaf.transaction.hash) :
      Move env faults origin b b'
  | grow {b b' : Book} {leaf l r : Vertex} (frame : Frame b b') (source : origin leaf l r)
      (left : leaf.leftParentHash = l.hash) (right : leaf.rightParentHash = r.hash)
      (leftOk : Extendable env b l) (rightOk : Extendable env b r)
      (unused : b.trxsToVertxDB.lookup leaf.transaction.hash = none)
      (dag : Digraph.Grown b.dag.graph b'.dag.graph leaf.hash leaf (edgeParents leaf))
      (trxs : b'.trxsToVertxDB = b.trxsToVertxDB.insert leaf.transaction.hash leaf.hash) :
      Move env faults origin b b'

/-- A sequence of moves. -/
abbrev Moves (env : Env) (faults : Faults) (origin : Vertex → Vertex → Vertex → Prop) :
    Book → Book → Prop := Relation.ReflTransGen (Move env faults origin)

theorem Moves.invariant {I : Book → Prop} (step : ∀ {b b'}, Move env faults origin b b' → I b → I b')
    (h : Moves env faults origin b b') (hb : I b) : I b' := by
  induction h with
  | refl => exact hb
  | tail _ hm ih => exact step hm ih

theorem Move.mono {o' : Vertex → Vertex → Vertex → Prop} (h : ∀ leaf l r, o leaf l r → o' leaf l r)
    (hm : Move env faults o b b') :
    Move env faults o' b b' := by
  cases hm with
  | idle hf hd ht => exact .idle hf hd ht
  | reject hf hk hl he hd ht => exact .reject hf hk hl he hd ht
  | refuse hf hs hk hu hd ht => exact .refuse hf (h _ _ _ hs) hk hu hd ht
  | grow hf hs h1 h2 h3 h4 hu hd ht => exact .grow hf (h _ _ _ hs) h1 h2 h3 h4 hu hd ht

theorem Move.frame (hm : Move env faults o b b') : Frame b b' := by
  cases hm <;> assumption

/-- Nothing is inserted. -/
def NoOrigin (_ _ _ : Vertex) : Prop := False

/-- A sequence of moves that insert nothing. -/
abbrev Shrunk (env : Env) (faults : Faults) : Book → Book → Prop := Moves env faults NoOrigin

/-- What is left after shrinking was there before, with the same past. -/
structure Remains (b b' : Book) : Prop where
  frame : Frame b b'
  get : ∀ {k v}, b'.dag.getVertex k = some v → b.dag.getVertex k = some v
  past : ∀ {k}, k ∈ b'.dag.graph.nodes → Digraph.SamePast b.dag.graph b'.dag.graph k

theorem Remains.refl (b : Book) : Remains b b := ⟨Frame.refl b, id, fun _ => .refl _ _⟩

theorem Remains.trans {a c : Book} (h : Remains a b) (k : Remains b c) : Remains a c := by
  refine ⟨h.frame.trans k.frame, fun hv => h.get (k.get hv), fun hx => ?_⟩
  obtain ⟨v, hv⟩ := Digraph.mem_nodes.mp hx
  exact (h.past (Dag.mem_nodes (k.get hv))).trans (k.past hx)

theorem Remains.of_delete {n : Hash} (hf : Frame b b') (hn : ¬ b.dag.graph.HasChild n)
    (hd : b'.dag = b.dag.deleteVertex n) : Remains b b' := by
  refine ⟨hf, fun hk => ?_, fun hk => ?_⟩
  · rw [hd, Dag.getVertex, Dag.deleteVertex_graph, Digraph.get_delete] at hk
    split at hk
    · cases hk
    · exact hk
  · rw [hd, Dag.deleteVertex_graph] at hk ⊢
    exact Digraph.samePast_delete hn (Digraph.mem_delete.mp hk).1

theorem Remains.of_dag_eq (hf : Frame b b') (hd : b'.dag = b.dag) : Remains b b' := by
  refine ⟨hf, fun hv => hd ▸ hv, fun _ => ?_⟩
  rw [hd]; exact .refl _ _

theorem Move.remains (hm : Move env faults NoOrigin b b') : Remains b b' := by
  cases hm with
  | idle hf hd _ => exact .of_dag_eq hf hd
  | reject hf _ hleaf _ hd _ => exact .of_delete hf hleaf hd
  | refuse _ hs => exact hs.elim
  | grow _ hs => exact hs.elim

theorem Shrunk.remains (h : Shrunk env faults b b') : Remains b b' := by
  induction h with
  | refl => exact Remains.refl b
  | tail _ hm ih => exact ih.trans hm.remains

/-! ### Facts about every vertex -/

/-- The fact holds of every vertex of the graph. -/
def Every (Q : Vertex → Prop) (b : Book) : Prop := ∀ k v, b.dag.getVertex k = some v → Q v

theorem Every.of_shrunk (h : Every Q b) (hget : ∀ k v, b'.dag.getVertex k = some v → b.dag.getVertex k = some v) :
    Every Q b' :=
  fun k v hv => h k v (hget k v hv)

theorem Every.grow (h : Every Q b) {leaf : Vertex} {ps : List Hash} (hleaf : Q leaf)
    (hd : Digraph.Grown b.dag.graph b'.dag.graph leaf.hash leaf ps) : Every Q b' := by
  intro k v hk
  rcases eq_or_ne k leaf.hash with rfl | hne
  · rw [Dag.getVertex, hd.get_self] at hk
    cases hk
    exact hleaf
  · rw [Dag.getVertex, hd.get_of_ne hne] at hk
    exact h k v hk

theorem Every.move (ho : ∀ leaf l r, origin leaf l r → Q leaf) (hm : Move env faults origin b b') (h : Every Q b) :
    Every Q b' := by
  cases hm with
  | idle _ hd _ => exact h.of_shrunk fun k v hv => hd ▸ hv
  | refuse _ _ _ _ hd _ => exact h.of_shrunk fun k v hv => hd ▸ hv
  | reject hf _ hleaf _ hd _ => exact h.of_shrunk fun k v hv => (Remains.of_delete hf hleaf hd).get hv
  | grow _ hs _ _ _ _ _ hd _ => exact h.grow (ho _ _ _ hs) hd

/-! ### The insertion is one move -/

section Steps

variable {env : Env} {faults : Faults} {origin : Vertex → Vertex → Vertex → Prop} {b : Book} {v : Vertex}

theorem addEdges_getVertex (child : Hash) (ps : List Hash) : ∀ (added : Hash) (d : Dag) (k : Hash),
    (Book.addEdges child ps added d).1.getVertex k = d.getVertex k := by
  induction ps with
  | nil => exact fun _ _ _ => rfl
  | cons p ps ih =>
    intro added d k
    rw [Book.addEdges]
    split
    · rfl
    · cases hadd : d.addEdge p child with
      | none => rfl
      | some d' =>
        simp only
        rw [ih, Dag.getVertex, Dag.getVertex, Digraph.get,
          (Digraph.addArc_spec (Dag.addEdge_eq_some hadd)).2.1, Digraph.get]

theorem addEdges_grown {g : Digraph Hash Vertex} {d : Dag} {leaf l r : Vertex}
    (h : Digraph.Grown g d.graph leaf.hash leaf []) (hl : l.hash ∈ g.nodes) (hr : r.hash ∈ g.nodes)
    (left : leaf.leftParentHash = l.hash) (right : leaf.rightParentHash = r.hash) :
    ∃ d', Book.addEdges leaf.hash [l.hash, r.hash] Hash.zero d = (d', true) ∧
      Digraph.Grown g d'.graph leaf.hash leaf (edgeParents leaf) := by
  by_cases hz : l.hash = Hash.zero
  · refine ⟨d, by rw [Book.addEdges, if_pos hz], h.congr fun x => ?_⟩
    simp [edgeParents, left, hz]
  · obtain ⟨g1, hg1, hgrown1⟩ := h.addArc hl (by simp)
    obtain ⟨d1, hd1⟩ := Dag.addEdge_isSome hg1
    have hd1g : d1.graph = g1 := by
      have := Dag.addEdge_eq_some hd1
      rw [hg1] at this; exact (Option.some.inj this).symm
    rw [← hd1g] at hgrown1
    by_cases hlr : r.hash = l.hash
    · refine ⟨d1, ?_, hgrown1.congr fun x => ?_⟩
      · rw [Book.addEdges, if_neg hz, hd1]
        simp [Book.addEdges, hlr]
      · simp [edgeParents, left, right, hz, hlr, Vertex.parentHashes]
    · obtain ⟨g2, hg2, hgrown2⟩ := hgrown1.addArc hr (by simpa using hlr)
      obtain ⟨d2, hd2⟩ := Dag.addEdge_isSome hg2
      have hd2g : d2.graph = g2 := by
        have := Dag.addEdge_eq_some hd2
        rw [hg2] at this; exact (Option.some.inj this).symm
      rw [← hd2g] at hgrown2
      refine ⟨d2, ?_, hgrown2.congr fun x => ?_⟩
      · rw [Book.addEdges, if_neg hz, hd1]
        simp [Book.addEdges, hlr, hd2]
      · simp [edgeParents, left, right, hz, Vertex.parentHashes]

theorem saveTrx_ok {t v : Hash} {fails : Bool} (h : b.saveTrxInVertex t v fails = .ok b') :
    b.trxsToVertxDB.lookup t = none ∧ b' = { b with trxsToVertxDB := b.trxsToVertxDB.insert t v } := by
  unfold Book.saveTrxInVertex at h
  split at h
  · cases h
  · split at h
    · cases h
    next hn => cases h; exact ⟨by simpa using hn, rfl⟩

/-- The book after `saveTrxInVertex`. -/
def Book.mapped (b : Book) (leaf : Vertex) : Book :=
  { b with trxsToVertxDB := b.trxsToVertxDB.insert leaf.transaction.hash leaf.hash }

/-- How an insertion ends: the index refuses the transaction, the graph has the hash already, an edge cannot be added
    and the vertex is taken out again, or it is there. -/
inductive Insertion (b : Book) (leaf : Vertex) (parents : List Vertex) (faults : Faults) (onSave : Err → Err)
    (rejected : Err) : Book × Except Err Unit → Prop
  | unsaved {e : Err} (save : b.saveTrxInVertex leaf.transaction.hash leaf.hash faults.saveTrx = .error e) :
      Insertion b leaf parents faults onSave rejected (b, .error (onSave e))
  | known (free : b.trxsToVertxDB.lookup leaf.transaction.hash = none) (known : leaf.hash ∈ b.dag.graph.nodes) :
      Insertion b leaf parents faults onSave rejected ((b.mapped leaf).removeTrxInVertex leaf.transaction.hash
        (faults.removeTrx leaf.transaction.hash), .error rejected)
  | torn {d d' : Dag} (free : b.trxsToVertxDB.lookup leaf.transaction.hash = none)
      (grown : Digraph.Grown b.dag.graph d.graph leaf.hash leaf [])
      (edges : Book.addEdges leaf.hash (parents.map Vertex.hash) Hash.zero d = (d', false))
      (get : ∀ k, d'.getVertex k = if k = leaf.hash then some leaf else b.dag.getVertex k) :
      Insertion b leaf parents faults onSave rejected
        ({ b.mapped leaf with dag := d' }.discard leaf faults, .error rejected)
  | done {d d' : Dag} (free : b.trxsToVertxDB.lookup leaf.transaction.hash = none)
      (grown : Digraph.Grown b.dag.graph d.graph leaf.hash leaf [])
      (edges : Book.addEdges leaf.hash (parents.map Vertex.hash) Hash.zero d = (d', true))
      (get : ∀ k, d'.getVertex k = if k = leaf.hash then some leaf else b.dag.getVertex k) :
      Insertion b leaf parents faults onSave rejected
        ({ b.mapped leaf with dag := d', truncateSignal := b.truncateSignal ++ [leaf.weight] }, .ok ())

theorem insertVertex_cases (b : Book) (leaf : Vertex) (parents : List Vertex) (faults : Faults) (onSave : Err → Err)
    (rejected : Err) :
    Insertion b leaf parents faults onSave rejected (b.insertVertex leaf parents faults onSave rejected) := by
  unfold Book.insertVertex
  split
  next e hsave => exact .unsaved hsave
  next hsave =>
    obtain ⟨free, rfl⟩ := saveTrx_ok hsave
    split
    next hadd => exact .known free (Dag.addVertexByID_eq_none.mp hadd)
    next d hadd =>
      have grown := Digraph.Grown.of_addNode (Dag.addVertexByID_eq_some hadd)
      have get : ∀ {d' : Dag} {ok : Bool}, Book.addEdges leaf.hash (parents.map Vertex.hash) Hash.zero d = (d', ok) →
          ∀ k, d'.getVertex k = if k = leaf.hash then some leaf else b.dag.getVertex k := by
        intro d' ok edges k
        have hsame := addEdges_getVertex leaf.hash (parents.map Vertex.hash) Hash.zero d k
        rw [edges] at hsame
        exact hsame.trans (grown.get k)
      split
      next edges => exact .torn free grown edges (get edges)
      next edges => exact .done free grown edges (get edges)

section Inserted

variable {leaf : Vertex} {parents : List Vertex} {onSave : Err → Err} {rejected : Err}

/-- An insertion that succeeds is of a new hash and a new transaction, and is indexed. -/
theorem insertVertex_done (h : (b.insertVertex leaf parents faults onSave rejected).2 = .ok ()) :
    leaf.hash ∉ b.dag.graph.nodes ∧ b.trxsToVertxDB.lookup leaf.transaction.hash = none ∧
      (b.insertVertex leaf parents faults onSave rejected).1.trxsToVertxDB.lookup leaf.transaction.hash =
        some leaf.hash := by
  have hcases := insertVertex_cases b leaf parents faults onSave rejected
  generalize b.insertVertex leaf parents faults onSave rejected = res at h hcases ⊢
  cases hcases with
  | unsaved | known | torn => cases h
  | done free grown => exact ⟨grown.fresh, free, AList.lookup_insert _⟩

/-- SPEC (graph): the leaf is there after a success, and nothing else changes. -/
theorem insertVertex_get (k : Hash) : (b.insertVertex leaf parents faults onSave rejected).1.dag.getVertex k =
    if (b.insertVertex leaf parents faults onSave rejected).2 = .ok () ∧ k = leaf.hash then some leaf
    else b.dag.getVertex k := by
  have h := insertVertex_cases b leaf parents faults onSave rejected
  generalize b.insertVertex leaf parents faults onSave rejected = res at h ⊢
  cases h with
  | unsaved => simp
  | known => simp [Book.mapped]
  | torn free grown edges get =>
    have hnew : b.dag.getVertex leaf.hash = none := Digraph.get_eq_none.mpr grown.fresh
    simp only [discard_getVertex, get, reduceCtorEq, false_and, if_false]
    split
    next hk => rw [hk, hnew]
    next => rfl
  | done free grown edges get => simpa using get k

end Inserted

/-- SPEC (insertion): below extendable parents it changes nothing, is refused for a known hash, or
    grows the graph. -/
theorem insertVertex_move {leaf l r : Vertex} {onSave : Err → Err} {rejected : Err} (source : origin leaf l r)
    (left : leaf.leftParentHash = l.hash) (right : leaf.rightParentHash = r.hash) (hl : Extendable env b l)
    (hr : Extendable env b r) :
    Move env faults origin b (b.insertVertex leaf [l, r] faults onSave rejected).1 := by
  have h := insertVertex_cases b leaf [l, r] faults onSave rejected
  generalize b.insertVertex leaf [l, r] faults onSave rejected = res at h ⊢
  cases h with
  | unsaved => exact .idle (Frame.refl b) rfl rfl
  | known free known =>
    refine .refuse ?_ source known free (removeTrx_dag _ _ _) (removeTrx_trxs _ _ _)
    exact Frame.trans (b := b.mapped leaf) ⟨rfl, rfl, rfl, rfl⟩ (frame_removeTrx _ _ _)
  | torn free grown edges =>
    obtain ⟨d', hd', -⟩ := addEdges_grown grown (Dag.mem_nodes hl.1) (Dag.mem_nodes hr.1) left right
    cases hd'.symm.trans edges
  | done free grown edges =>
    obtain ⟨d', hd', hgrown⟩ := addEdges_grown grown (Dag.mem_nodes hl.1) (Dag.mem_nodes hr.1) left right
    cases hd'.symm.trans edges
    exact .grow ⟨rfl, rfl, rfl, rfl⟩ source left right hl hr free hgrown rfl

/-! ### The parent loop of `addLeafMemorized` -/

theorem dismiss_move {probe : Probe} {e : Err} (hself : b.dag.getVertex v.hash = some v)
    (hchild : ¬ b.dag.graph.HasChild v.hash) (hval : b.validateLeaf env probe v = .error e) :
    Move env faults origin b (b.dismiss v e faults) := by
  unfold Book.dismiss
  split
  · exact .idle (Frame.refl b) rfl rfl
  · exact .reject (frame_discard _ _ _) hself hchild hval (discard_dag _ _ _) (discard_trxs _ _ _)

/-- SPEC (one parent): the loop parks the call, rejects the parent, or goes on with the parent
    extendable and only the counters changed. -/
theorem checkParents_cons (env : Env) (faults : Faults) (origin : Vertex → Vertex → Vertex → Prop)
    (b : Book) (m : Memory) (probe : Hash → Probe) (hash : Hash) (rest : List Hash)
    (acc : List Vertex) :
    (∃ b' e, b.checkParents env m probe faults (hash :: rest) acc = (b', .error e) ∧
      Move env faults origin b b') ∨
    (∃ b' v, Extendable env b' v ∧ v.hash = hash ∧ b'.dag = b.dag ∧ Frame b b' ∧
      b'.trxsToVertxDB = b.trxsToVertxDB ∧
      b.checkParents env m probe faults (hash :: rest) acc =
        b'.checkParents env m probe faults rest (acc ++ [v])) := by
  rw [Book.checkParents]
  cases hget : b.dag.getVertex hash with
  | none =>
    left
    cases hins : b.repeater.insert m with
    | error e => exact ⟨b, _, rfl, .idle (Frame.refl b) rfl rfl⟩
    | ok rep => exact ⟨_, _, rfl, .idle ⟨rfl, rfl, rfl, rfl⟩ rfl rfl⟩
  | some v =>
    have hv : v.hash = hash := b.dag.keyed hget
    have hself : b.dag.getVertex v.hash = some v := hv ▸ hget
    simp only
    split
    next hleaf =>
      have hchild : ¬ b.dag.graph.HasChild v.hash := by rw [hv]; exact Digraph.isLeaf_iff.mp hleaf
      cases hval : b.validateLeaf env (probe hash) v with
      | error e =>
        left
        exact ⟨_, _, rfl, dismiss_move hself hchild hval⟩
      | ok _ =>
        right
        have hpass := (validateLeaf_ok hval).2.2
        exact ⟨b.updateWeightAndThroughput v.weight, v,
          Extendable.of_eq ⟨hself, Or.inr hpass⟩ rfl (frame_updateWeight _ _), hv, rfl,
          frame_updateWeight _ _, rfl, rfl⟩
    next hleaf =>
      right
      have hchild : b.dag.graph.HasChild v.hash := by
        rw [hv]; exact Digraph.isLeaf_eq_false.mp (by simpa using hleaf)
      exact ⟨b, v, ⟨hself, Or.inl hchild⟩, hv, rfl, Frame.refl b, rfl, rfl⟩

theorem addLeafLocked_moves (env : Env) (faults : Faults) (b : Book) (m : Memory) (probe : Hash → Probe) :
    ∃ b1, Shrunk env faults b b1 ∧
      Move env faults (fun leaf _ _ => leaf = m.vrx) b1 (b.addLeafLocked env m probe faults).1 := by
  unfold Book.addLeafLocked Vertex.parentHashes
  rcases checkParents_cons env faults (fun leaf _ _ => leaf = m.vrx) b m probe
    m.vrx.leftParentHash [m.vrx.rightParentHash] [] with
    ⟨b1, e, heq, hmove⟩ | ⟨b1, l, hl, hlh, hd1, hf1, ht1, heq⟩
  · rw [heq]; exact ⟨b, .refl, hmove⟩
  rw [heq]
  have hidle1 : Move env faults NoOrigin b b1 := .idle hf1 hd1 ht1
  rcases checkParents_cons env faults (fun leaf _ _ => leaf = m.vrx) b1 m probe
    m.vrx.rightParentHash [] ([] ++ [l]) with
    ⟨b2, e, heq, hmove⟩ | ⟨b2, r, hr, hrh, hd2, hf2, ht2, heq⟩
  · rw [heq]; exact ⟨b1, .single hidle1, hmove⟩
  rw [heq, Book.checkParents]
  have hidle2 : Move env faults NoOrigin b1 b2 := .idle hf2 hd2 ht2
  refine ⟨b2, .tail (.single hidle1) hidle2, ?_⟩
  exact insertVertex_move rfl hlh.symm hrh.symm (hl.of_eq hd2 hf2) hr

/-! ### The leaf loop of `getValidLeaves` -/

/-- A leaf of the graph as the loop holds it. -/
def IsLeafOf (b : Book) (v : Vertex) : Prop :=
  b.dag.getVertex v.hash = some v ∧ ¬ b.dag.graph.HasChild v.hash

theorem IsLeafOf.mem_leaves (h : IsLeafOf b v) : v.hash ∈ b.dag.graph.leaves :=
  Digraph.mem_leaves.mpr ⟨Dag.mem_nodes h.1, h.2⟩

theorem IsLeafOf.discard {u : Vertex} (hv : IsLeafOf b v) (hne : v.hash ≠ u.hash) :
    IsLeafOf (b.discard u faults) v := by
  refine ⟨?_, ?_⟩
  · rw [discard_dag, Dag.getVertex, Dag.deleteVertex_graph, Digraph.get_delete, if_neg hne]; exact hv.1
  · rintro ⟨c, hc⟩
    rw [discard_dag, Dag.deleteVertex_graph, Digraph.arc_delete] at hc
    exact hv.2 ⟨c, hc.1⟩

theorem Passed.discard {u : Vertex} (hp : Passed env b v) (hu : IsLeafOf b u) (hne : v.hash ≠ u.hash) :
    Passed env (b.discard u faults) v := by
  refine hp.frame (frame_discard _ _ _) ?_
  rw [discard_dag, Dag.deleteVertex_graph]
  exact Digraph.samePast_delete hu.2 hne

theorem pickLeaves_moves (probe : Hash → Probe) : ∀ (todo found : List Vertex) (err : Option Err)
    (b : Book), ((found ++ todo).map Vertex.hash).Nodup → (∀ v ∈ todo, IsLeafOf b v) →
    (∀ v ∈ found, IsLeafOf b v ∧ Passed env b v) →
    Shrunk env faults b (Book.pickLeaves env probe faults todo found err b).1 ∧
      ∀ v ∈ (Book.pickLeaves env probe faults todo found err b).2.1, v ∈ found ++ todo ∧
        IsLeafOf (Book.pickLeaves env probe faults todo found err b).1 v ∧
        Passed env (Book.pickLeaves env probe faults todo found err b).1 v
  | [], found, err, b, _, _, hfound => ⟨.refl, fun v hv => ⟨List.mem_append_left _ hv, hfound v hv⟩⟩
  | u :: todo, found, err, b, hnd, htodo, hfound => by
      rw [Book.pickLeaves]
      split
      · exact ⟨.refl, fun v hv => ⟨List.mem_append_left _ hv, hfound v hv⟩⟩
      have hu := htodo u (List.mem_cons_self ..)
      have hne : ∀ v, v ∈ found ∨ v ∈ todo → v.hash ≠ u.hash := by
        rw [List.map_append, List.map_cons] at hnd
        have hnd' := List.nodup_middle.mp hnd
        rintro v hv heq
        refine (List.nodup_cons.mp hnd').1 ?_
        rw [← heq, ← List.map_append]
        exact List.mem_map_of_mem (List.mem_append.mpr hv)
      cases hval : b.validateLeaf env (probe u.hash) u with
      | error e =>
        simp only
        split
        · exact ⟨.refl, fun v hv => ⟨List.mem_append_left _ hv, hfound v hv⟩⟩
        have hmove : Move env faults NoOrigin b
            ((b.discard u faults).updateWeightAndThroughput u.weight) :=
          .reject ((frame_discard _ _ _).trans (frame_updateWeight _ _)) hu.1 hu.2 hval
            (discard_dag _ _ _) (discard_trxs _ _ _)
        have hnd' : ((found ++ todo).map Vertex.hash).Nodup := by
          rw [List.map_append, List.map_cons] at hnd
          rw [List.map_append]
          exact (List.nodup_cons.mp (List.nodup_middle.mp hnd)).2
        have ih := pickLeaves_moves probe todo found (some e)
          ((b.discard u faults).updateWeightAndThroughput u.weight) hnd'
          (fun v hv => (htodo v (List.mem_cons_of_mem _ hv)).discard (hne v (Or.inr hv)))
          (fun v hv => ⟨(hfound v hv).1.discard (hne v (Or.inl hv)),
            ((hfound v hv).2.discard hu (hne v (Or.inl hv))).frame (frame_updateWeight _ _)
              (.refl _ _)⟩)
        refine ⟨.head hmove ih.1, fun v hv => ⟨?_, (ih.2 v hv).2⟩⟩
        rcases List.mem_append.mp (ih.2 v hv).1 with hv | hv
        · exact List.mem_append_left _ hv
        · exact List.mem_append_right _ (List.mem_cons_of_mem _ hv)
      | ok _ =>
        have ih := pickLeaves_moves probe todo (found ++ [u]) none b (by simpa using hnd)
          (fun v hv => htodo v (List.mem_cons_of_mem _ hv)) (fun v hv => ?_)
        · simpa using ih
        · rcases List.mem_append.mp hv with hv | hv
          · exact hfound v hv
          · rw [List.mem_singleton.mp hv]; exact ⟨hu, (validateLeaf_ok hval).2.2⟩

theorem leaves_snapshot (b : Book) (order : List Hash) :
    ((((enumerate order b.dag.graph.leaves).filterMap b.dag.getVertex)).map Vertex.hash).Nodup ∧
      ∀ v ∈ (enumerate order b.dag.graph.leaves).filterMap b.dag.getVertex, IsLeafOf b v := by
  have hleaf : ∀ v ∈ (enumerate order b.dag.graph.leaves).filterMap b.dag.getVertex, IsLeafOf b v := by
    intro v hv
    obtain ⟨hk, hget⟩ := Dag.mem_vertices.mp hv
    exact ⟨hget, (Digraph.mem_leaves.mp (mem_enumerate.mp hk)).2⟩
  exact ⟨Dag.vertices_hash_nodup (enumerate_nodup (Digraph.leaves_nodup _)), hleaf⟩

theorem getValidLeaves_moves (env : Env) (faults : Faults) (b : Book) (pass : Book.Pass) :
    Shrunk env faults b (b.getValidLeaves env pass faults).1 ∧
      ∀ v ∈ (b.getValidLeaves env pass faults).2.1, IsLeafOf b v ∧
        IsLeafOf (b.getValidLeaves env pass faults).1 v ∧
        Passed env (b.getValidLeaves env pass faults).1 v := by
  obtain ⟨hnd, hleaf⟩ := leaves_snapshot b pass.order
  obtain ⟨hmoves, hfound⟩ :=
    pickLeaves_moves pass.probe _ [] none b (by simpa using hnd) hleaf (by simp)
  exact ⟨hmoves, fun v hv => ⟨hleaf v (hfound v hv).1, (hfound v hv).2⟩⟩

/-- STEP (`CreateLeaf` under the lock): rejections, then one move; the parents of the tip were leaves
    when the call took the lock. -/
theorem createLeafLocked_moves (env : Env) (faults : Faults) (b : Book) (trx : Transaction)
    (first second : Book.Pass) (now : Time) :
    ∃ b1, Shrunk env faults b b1 ∧
      Move env faults (fun leaf l r => leaf = Book.tip env trx l r now ∧ IsLeafOf b l ∧ IsLeafOf b r)
        b1 (b.createLeafLocked env trx first second now faults).1 := by
  unfold Book.createLeafLocked
  obtain ⟨hmoves, hfound⟩ := getValidLeaves_moves env faults b first
  generalize b.getValidLeaves env first faults = res at hmoves hfound
  obtain ⟨b1, found, err⟩ := res
  cases err with
  | some e => exact ⟨b1, hmoves, .idle (Frame.refl b1) rfl rfl⟩
  | none =>
    cases found with
    | nil =>
      obtain ⟨hmoves2, -⟩ := getValidLeaves_moves env faults b1 second
      simp only
      generalize b1.getValidLeaves env second faults = res2 at hmoves2
      obtain ⟨b2, found2, err2⟩ := res2
      refine ⟨b2, hmoves.trans hmoves2, ?_⟩
      cases err2 with
      | some e => exact .idle (Frame.refl b2) rfl rfl
      | none => cases found2 <;> exact .idle (Frame.refl b2) rfl rfl
    | cons l rest =>
      have hl := hfound l (List.mem_cons_self ..)
      have hr : IsLeafOf b (rest.headD l) ∧ IsLeafOf b1 (rest.headD l) ∧
          Passed env b1 (rest.headD l) := by
        cases rest with
        | nil => exact hl
        | cons r rest => exact hfound r (List.mem_cons_of_mem _ (List.mem_cons_self ..))
      refine ⟨b1, hmoves, ?_⟩
      have hmove : Move env faults
          (fun leaf l r => leaf = Book.tip env trx l r now ∧ IsLeafOf b l ∧ IsLeafOf b r) b1
          (b1.insertVertex (Book.tip env trx l (rest.headD l) now) [l, rest.headD l] faults
            (fun _ => [.errUnexpected]) [.errNewLeafRejected]).1 :=
        insertVertex_move ⟨rfl, hl.1, hr.1⟩ rfl rfl ⟨hl.2.1.1, Or.inr hl.2.2⟩
          ⟨hr.2.1.1, Or.inr hr.2.2⟩
      simp only [Book.sealTip]
      generalize b1.insertVertex _ _ _ _ _ = ins at hmove
      obtain ⟨b2, res⟩ := ins
      cases res <;> exact hmove

end Steps

end Computantis
