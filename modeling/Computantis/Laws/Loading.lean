import Computantis.Laws.Moves
import Computantis.Model.Stream

/-! @law loading | name:What LoadDag accepts | family:spec | about:Model/Stream

    `LoadDag` first reads the stream up to its end or its first nil vertex, then draws the declared
    edges in some order. The first loop succeeds on vertices whose hashes and transactions are new to
    the book and not repeated (`Unseen`). The second succeeds in every order or in none: it needs that
    no transaction is empty, that at most one vertex is sealed by its own issuer, and that the declared
    edges join streamed vertices without a cycle (`Loadable`).

        stream ──delivered──▶ vertices ──Unseen──▶ book without edges ──Loadable──▶ loaded book -/

namespace Computantis

open Schemes

/-- The vertices before the first nil of a stream. -/
def delivered : List (Option Vertex) → List Vertex
  | [] => []
  | none :: _ => []
  | some v :: rest => v :: delivered rest

theorem delivered_map_some (vs : List Vertex) : delivered (vs.map some) = vs := by
  induction vs with
  | nil => rfl
  | cons v vs ih => rw [List.map_cons, delivered, ih]

/-! ### The first loop -/

/-- No hash and no transaction of the vertices is repeated or known to the book. -/
structure Unseen (b : Book) (vs : List Vertex) : Prop where
  hashes : (vs.map Vertex.hash).Nodup
  trxs : (vs.map fun v => v.transaction.hash).Nodup
  newHash : ∀ v ∈ vs, v.hash ∉ b.dag.graph.nodes
  newTrx : ∀ v ∈ vs, b.trxsToVertxDB.lookup v.transaction.hash = none

/-- The book `b` with the vertices read and mapped, and no edge added. -/
structure Collected (b : Book) (vs : List Vertex) (b' : Book) : Prop where
  get : ∀ k v, b'.dag.getVertex k = some v ↔ b.dag.getVertex k = some v ∨ (v ∈ vs ∧ v.hash = k)
  arc : ∀ x y, b'.dag.graph.Arc x y ↔ b.dag.graph.Arc x y
  trxs : ∀ h w, b'.trxsToVertxDB.lookup h = some w ↔
    b.trxsToVertxDB.lookup h = some w ∨ ∃ v ∈ vs, v.transaction.hash = h ∧ v.hash = w
  rest : b' = { b with dag := b'.dag, trxsToVertxDB := b'.trxsToVertxDB }

namespace Collected

variable {b b1 b' : Book} {us vs : List Vertex}

theorem nil (b : Book) : Collected b [] b := ⟨by simp, by simp, by simp, rfl⟩

theorem append (h : Collected b us b1) (h' : Collected b1 vs b') : Collected b (us ++ vs) b' := by
  refine ⟨fun k v => ?_, fun x y => (h'.arc x y).trans (h.arc x y), fun k w => ?_, ?_⟩
  · rw [h'.get, h.get, List.mem_append, or_and_right, or_assoc]
  · rw [h'.trxs, h.trxs]
    simp only [List.mem_append, or_and_right, exists_or, or_assoc]
  · rw [h'.rest, h.rest]

theorem mem (h : Collected b vs b') {k : Hash} :
    k ∈ b'.dag.graph.nodes ↔ k ∈ b.dag.graph.nodes ∨ ∃ v ∈ vs, v.hash = k := by
  have hget : ∀ v, b'.dag.graph.get k = some v ↔ b.dag.graph.get k = some v ∨ (v ∈ vs ∧ v.hash = k) := h.get k
  simp only [Digraph.mem_nodes, hget, exists_or]

theorem unmapped (h : Collected b vs b') {k : Hash} : b'.trxsToVertxDB.lookup k = none ↔
    b.trxsToVertxDB.lookup k = none ∧ ∀ v ∈ vs, v.transaction.hash ≠ k := by
  simp only [Option.eq_none_iff_forall_ne_some, ne_eq, h.trxs, not_or, forall_and, not_exists, not_and]
  exact and_congr_right fun _ => ⟨fun h v hv he => h _ v hv he rfl, fun h _ v hv he _ => h v hv he⟩

end Collected

variable {v : Vertex} {d : Dag} {vs : List Vertex} {saveFails : Hash → Bool}

theorem collected_one {b b1 : Book} {fails : Bool} {dag : Dag}
    (hsave : b.saveTrxInVertex v.transaction.hash v.hash fails = .ok b1) (hadd : b1.dag.addVertexByID v = some dag) :
    b.trxsToVertxDB.lookup v.transaction.hash = none ∧ v.hash ∉ b.dag.graph.nodes ∧
      Collected b [v] { b1 with dag } := by
  obtain ⟨hnone, rfl⟩ := saveTrx_ok hsave
  have hgraph := Dag.addVertexByID_eq_some hadd
  obtain ⟨hnew, harcs, hget⟩ := Digraph.addNode_spec hgraph
  refine ⟨hnone, hnew, fun k u => ?_, fun x y => by simp only [Digraph.Arc, harcs], fun k w => ?_, rfl⟩
  · rw [Dag.getVertex, hget]
    rcases eq_or_ne k v.hash with rfl | hk
    · have hb : b.dag.getVertex v.hash = none := Digraph.get_eq_none.mpr hnew
      simp only [if_true, hb, List.mem_singleton, reduceCtorEq, false_or, Option.some.injEq]
      exact ⟨fun h => ⟨h.symm, h ▸ rfl⟩, fun h => h.1.symm⟩
    · rw [if_neg hk, List.mem_singleton]
      refine (or_iff_left ?_).symm
      rintro ⟨rfl, rfl⟩
      exact hk rfl
  · simp only [List.mem_singleton, exists_eq_left]
    rcases eq_or_ne k v.transaction.hash with rfl | hk
    · rw [AList.lookup_insert, hnone]
      simp
    · rw [AList.lookup_insert_ne hk]
      exact (or_iff_left fun h => hk h.1.symm).symm

theorem unseen_cons {b b1 : Book} (hc : Collected b [v] b1) :
    Unseen b (v :: vs) ↔ (b.trxsToVertxDB.lookup v.transaction.hash = none ∧ v.hash ∉ b.dag.graph.nodes) ∧
      Unseen b1 vs := by
  have hmem : ∀ k, k ∈ b1.dag.graph.nodes ↔ k ∈ b.dag.graph.nodes ∨ v.hash = k := fun k => by
    simpa using hc.mem (k := k)
  have hnone : ∀ k, b1.trxsToVertxDB.lookup k = none ↔
      b.trxsToVertxDB.lookup k = none ∧ v.transaction.hash ≠ k := fun k => by
    simpa using hc.unmapped (k := k)
  constructor
  · rintro ⟨hh, ht, hnh, hnt⟩
    rw [List.map_cons, List.nodup_cons, List.mem_map, not_exists] at hh ht
    refine ⟨⟨hnt v (List.mem_cons_self ..), hnh v (List.mem_cons_self ..)⟩, hh.2, ht.2, fun u hu => ?_,
      fun u hu => ?_⟩
    · rw [hmem, not_or]
      exact ⟨hnh u (List.mem_cons_of_mem _ hu), fun he => hh.1 u ⟨hu, he.symm⟩⟩
    · rw [hnone]
      exact ⟨hnt u (List.mem_cons_of_mem _ hu), fun he => ht.1 u ⟨hu, he.symm⟩⟩
  · rintro ⟨⟨hvt, hvh⟩, hh, ht, hnh, hnt⟩
    have hnew : ∀ u ∈ vs, (u.hash ∉ b.dag.graph.nodes ∧ v.hash ≠ u.hash) ∧
        (b.trxsToVertxDB.lookup u.transaction.hash = none ∧ v.transaction.hash ≠ u.transaction.hash) :=
      fun u hu => ⟨not_or.mp (mt (hmem _).mpr (hnh u hu)), (hnone _).mp (hnt u hu)⟩
    refine ⟨List.nodup_cons.mpr ⟨?_, hh⟩, List.nodup_cons.mpr ⟨?_, ht⟩, ?_, ?_⟩
    · rw [List.mem_map]
      rintro ⟨u, hu, he⟩
      exact (hnew u hu).1.2 he.symm
    · rw [List.mem_map]
      rintro ⟨u, hu, he⟩
      exact (hnew u hu).2.2 he.symm
    · exact List.forall_mem_cons.mpr ⟨hvh, fun u hu => (hnew u hu).1.1⟩
    · exact List.forall_mem_cons.mpr ⟨hvt, fun u hu => (hnew u hu).2.1⟩

/-- RUN (first loop): when it succeeds, the vertices were unseen and are now collected. -/
theorem loadVertices_ok (st : List (Option Vertex)) :
    ∀ {b b' : Book}, b.loadVertices saveFails st = (b', none) →
      Unseen b (delivered st) ∧ Collected b (delivered st) b' := by
  induction st with
  | nil =>
    intro b b' h
    cases h
    exact ⟨⟨.nil, .nil, by simp [delivered], by simp [delivered]⟩, .nil b⟩
  | cons o rest ih =>
    intro b b' h
    cases o with
    | none =>
      cases h
      exact ⟨⟨.nil, .nil, by simp [delivered], by simp [delivered]⟩, .nil b⟩
    | some v =>
      rw [Book.loadVertices] at h
      cases hsave : b.saveTrxInVertex v.transaction.hash v.hash (saveFails v.transaction.hash) with
      | error e => rw [hsave] at h; cases h
      | ok b1 =>
        simp only [hsave] at h
        cases hadd : b1.dag.addVertexByID v with
        | none => rw [hadd] at h; cases h
        | some dag =>
          simp only [hadd] at h
          obtain ⟨hnone, hnew, hone⟩ := collected_one hsave hadd
          obtain ⟨hunseen, hrest⟩ := ih h
          exact ⟨(unseen_cons hone).mpr ⟨⟨hnone, hnew⟩, hunseen⟩, hone.append hrest⟩

/-- RUN (first loop): with working stores it takes every unseen stream. -/
theorem loadVertices_takes (hstores : ∀ k, saveFails k = false) (st : List (Option Vertex)) :
    ∀ {b : Book}, Unseen b (delivered st) →
      ∃ b', b.loadVertices saveFails st = (b', none) := by
  induction st with
  | nil => exact fun _ => ⟨_, rfl⟩
  | cons o rest ih =>
    intro b h
    cases o with
    | none => exact ⟨_, rfl⟩
    | some v =>
      have hnone := h.newTrx v (List.mem_cons_self ..)
      obtain ⟨dag, hadd⟩ : ∃ dag, b.dag.addVertexByID v = some dag := by
        rw [← Option.isSome_iff_exists, Option.isSome_iff_ne_none, ne_eq, Dag.addVertexByID_eq_none]
        exact h.newHash v (List.mem_cons_self ..)
      have hsave : b.saveTrxInVertex v.transaction.hash v.hash (saveFails v.transaction.hash) =
          .ok { b with trxsToVertxDB := b.trxsToVertxDB.insert v.transaction.hash v.hash } := by
        simp [Book.saveTrxInVertex, hnone, hstores]
      obtain ⟨-, -, hone⟩ := collected_one hsave hadd
      rw [Book.loadVertices, hsave]
      simp only [hadd]
      exact ih ((unseen_cons hone).mp h).2

/-! ### The second loop -/

/-- The vertex is sealed by the wallet that issued its transaction, as only a genesis vertex may be. -/
def Vertex.own (v : Vertex) : Bool := decide (v.transaction.issuerAddress = v.signerPublicAddress)

/-- The graph `d` with the edges that the vertices declare. -/
structure Drawn (d : Dag) (vs : List Vertex) (d' : Dag) : Prop where
  get : ∀ k, d'.getVertex k = d.getVertex k
  arc : ∀ x y, d'.graph.Arc x y ↔ d.graph.Arc x y ∨ ∃ v ∈ vs, v.hash = y ∧ x ∈ edgeParents v

namespace Drawn

theorem nil (d : Dag) : Drawn d [] d := ⟨fun _ => rfl, by simp⟩

theorem append {d1 d' : Dag} {us : List Vertex} (h : Drawn d us d1) (h' : Drawn d1 vs d') :
    Drawn d (us ++ vs) d' := by
  refine ⟨fun k => (h'.get k).trans (h.get k), fun x y => ?_⟩
  rw [h'.arc, h.arc]
  simp only [List.mem_append, or_and_right, exists_or, or_assoc]

end Drawn

theorem addEdge_ok {d' : Dag} {p c : Hash} (h : d.addEdge p c = some d') :
    (∀ k, d'.getVertex k = d.getVertex k) ∧
      ∀ x y, d'.graph.Arc x y ↔ d.graph.Arc x y ∨ (x = p ∧ y = c) := by
  obtain ⟨-, hnodes, harcs⟩ := Digraph.addArc_spec (Dag.addEdge_eq_some h)
  exact ⟨fun k => by rw [Dag.getVertex, Dag.getVertex, Digraph.get, Digraph.get, hnodes], harcs⟩

theorem addEdges_ok {d' : Dag} (h : Book.addEdges v.hash v.parentHashes Hash.zero d = (d', true)) : Drawn d [v] d' := by
  rw [Vertex.parentHashes, Book.addEdges] at h
  split at h
  next hl =>
    cases h
    exact ⟨fun _ => rfl, fun x y => by simp [edgeParents, hl]⟩
  next hl =>
    cases h1 : d.addEdge v.leftParentHash v.hash with
    | none => rw [h1] at h; cases h
    | some d1 =>
      simp only [h1] at h
      obtain ⟨hget1, harc1⟩ := addEdge_ok h1
      rw [Book.addEdges] at h
      split at h
      next hr =>
        cases h
        refine ⟨hget1, fun x y => ?_⟩
        have hedge : x ∈ edgeParents v ↔ x = v.leftParentHash := by
          simp [edgeParents, hl, Vertex.parentHashes, hr]
        simp only [harc1, List.mem_singleton, exists_eq_left, hedge]
        rw [and_comm, eq_comm (a := y)]
      next hr =>
        cases h2 : d1.addEdge v.rightParentHash v.hash with
        | none => rw [h2] at h; cases h
        | some d2 =>
          simp only [h2] at h
          cases h
          obtain ⟨hget2, harc2⟩ := addEdge_ok h2
          refine ⟨fun k => (hget2 k).trans (hget1 k), fun x y => ?_⟩
          have hedge : x ∈ edgeParents v ↔ x = v.leftParentHash ∨ x = v.rightParentHash := by
            simp [edgeParents, hl, Vertex.parentHashes]
          simp only [harc2, harc1, List.mem_singleton, exists_eq_left, hedge, or_assoc]
          rw [eq_comm (a := v.hash), and_or_left, and_comm (a := y = _), and_comm (a := y = _)]

theorem addEdge_part {whole : Dag} (hget : ∀ k, d.getVertex k = whole.getVertex k)
    (hpart : ∀ x y, d.graph.Arc x y → whole.graph.Arc x y) {p c : Hash} (harc : whole.graph.Arc p c)
    (hnew : ¬ d.graph.Arc p c) : ∃ d', d.addEdge p c = some d' := by
  have hmem : ∀ k, k ∈ whole.graph.nodes → k ∈ d.graph.nodes := fun k hk => by
    obtain ⟨v, hv⟩ := Digraph.mem_nodes.mp hk
    exact Dag.mem_nodes ((hget k).trans hv)
  obtain ⟨g', hg'⟩ := Digraph.addArc_of_part hpart (hmem p harc.left) (hmem c harc.right) harc hnew
  exact Dag.addEdge_isSome hg'

theorem addEdges_part {whole : Dag} (hget : ∀ k, d.getVertex k = whole.getVertex k)
    (hpart : ∀ x y, d.graph.Arc x y → whole.graph.Arc x y) (harc : ∀ p ∈ edgeParents v, whole.graph.Arc p v.hash)
    (hnew : ∀ p, ¬ d.graph.Arc p v.hash) :
    ∃ d', Book.addEdges v.hash v.parentHashes Hash.zero d = (d', true) := by
  rw [Vertex.parentHashes, Book.addEdges]
  by_cases hl : v.leftParentHash = Hash.zero
  · exact ⟨d, by rw [if_pos hl]⟩
  have hedge : edgeParents v = [v.leftParentHash, v.rightParentHash] := by
    rw [edgeParents, if_neg hl, Vertex.parentHashes]
  have hleft : whole.graph.Arc v.leftParentHash v.hash := harc _ (by simp [hedge])
  obtain ⟨d1, h1⟩ := addEdge_part hget hpart hleft (hnew _)
  obtain ⟨hget1, harc1⟩ := addEdge_ok h1
  rw [if_neg hl, h1]
  by_cases hr : v.rightParentHash = v.leftParentHash
  · exact ⟨d1, by simp [Book.addEdges, hr]⟩
  have hpart1 : ∀ x y, d1.graph.Arc x y → whole.graph.Arc x y := by
    intro x y hxy
    rcases (harc1 x y).mp hxy with hxy | ⟨rfl, rfl⟩
    · exact hpart x y hxy
    · exact hleft
  obtain ⟨d2, h2⟩ := addEdge_part (fun k => (hget1 k).trans (hget k)) hpart1 (harc _ (by simp [hedge]))
    (fun h => ((harc1 _ _).mp h).elim (hnew _) fun h => hr h.1)
  exact ⟨d2, by simp [Book.addEdges, hr, h2]⟩

/-- SPEC (one vertex): it is connected exactly when it is not a second own vertex, is not empty and
    its edges are accepted. -/
theorem connect_eq_ok {s s' : Loading} : s.connect v = .ok s' ↔
    ¬ (v.own && s.genesisCandidateReceived) = true ∧ v.transaction.isEmpty = false ∧
      ∃ d, Book.addEdges v.hash v.parentHashes Hash.zero s.dag = (d, true) ∧
        s' = ⟨d, if v.weight > s.maxWeight then v.weight else s.maxWeight,
          v.own || s.genesisCandidateReceived⟩ := by
  unfold Loading.connect Vertex.own
  simp only
  split
  next h => simp [h]
  next h =>
    cases hempty : v.transaction.isEmpty with
    | true => simp
    | false =>
      simp only [Bool.false_eq_true, if_false, true_and]
      generalize Book.addEdges v.hash v.parentHashes Hash.zero s.dag = res
      obtain ⟨d, ok⟩ := res
      cases ok with
      | false => simp
      | true =>
        simp only [Except.ok.injEq, Prod.mk.injEq, and_true, exists_eq_left']
        exact ⟨fun e => ⟨h, e.symm⟩, fun e => e.2.symm⟩

/-- RUN (second loop): when it succeeds, all declared edges are drawn, no transaction is empty, and
    at most one vertex is its own. -/
theorem connectAll_ok (todo : List Vertex) : ∀ {s s' : Loading}, Loading.connectAll todo s = .ok s' →
    Drawn s.dag todo s'.dag ∧ (∀ v ∈ todo, v.transaction.isEmpty = false) ∧
      todo.countP Vertex.own + s.genesisCandidateReceived.toNat ≤ 1 := by
  induction todo with
  | nil =>
    intro s s' h
    cases h
    exact ⟨.nil _, by simp, by simpa using Bool.toNat_le _⟩
  | cons v todo ih =>
    intro s s' h
    rw [Loading.connectAll] at h
    cases hv : s.connect v with
    | error e => rw [hv] at h; cases h
    | ok s1 =>
      simp only [hv] at h
      obtain ⟨hown, hempty, d, hedges, rfl⟩ := connect_eq_ok.mp hv
      obtain ⟨hdrawn, hfull, hcount⟩ := ih h
      refine ⟨(addEdges_ok hedges).append hdrawn, List.forall_mem_cons.mpr ⟨hempty, hfull⟩, ?_⟩
      rw [List.countP_cons]
      cases ho : v.own <;> cases hg : s.genesisCandidateReceived <;> simp_all

/-- RUN (second loop): it succeeds on vertices whose edges are edges of an acyclic whole. -/
theorem connectAll_draws (whole : Dag) (todo : List Vertex) : ∀ {s : Loading},
    (∀ k, s.dag.getVertex k = whole.getVertex k) →
    (∀ x y, s.dag.graph.Arc x y → whole.graph.Arc x y) →
    (∀ v ∈ todo, ∀ p, ¬ s.dag.graph.Arc p v.hash) → (todo.map Vertex.hash).Nodup →
    (∀ v ∈ todo, ∀ p ∈ edgeParents v, whole.graph.Arc p v.hash) →
    (∀ v ∈ todo, v.transaction.isEmpty = false) →
    todo.countP Vertex.own + s.genesisCandidateReceived.toNat ≤ 1 →
    ∃ s', Loading.connectAll todo s = .ok s' := by
  induction todo with
  | nil => exact fun _ _ _ _ _ _ _ => ⟨_, rfl⟩
  | cons v todo ih =>
    intro s hget hpart hnew hnd harc hfull hcount
    obtain ⟨harcv, harc⟩ := List.forall_mem_cons.mp harc
    obtain ⟨hemptyv, hfull⟩ := List.forall_mem_cons.mp hfull
    obtain ⟨hnewv, hnew⟩ := List.forall_mem_cons.mp hnew
    obtain ⟨hvnot, hnd⟩ := List.nodup_cons.mp hnd
    obtain ⟨d, hedges⟩ := addEdges_part hget hpart harcv hnewv
    have hdrawn := addEdges_ok hedges
    rw [List.countP_cons] at hcount
    have hown : ¬ (v.own && s.genesisCandidateReceived) = true := by
      rw [Bool.and_eq_true]
      rintro ⟨ho, hg⟩
      simp [ho, hg] at hcount
    have hstep := connect_eq_ok.mpr ⟨hown, hemptyv, d, hedges, rfl⟩
    rw [Loading.connectAll, hstep]
    refine ih (fun k => (hdrawn.get k).trans (hget k)) ?_ ?_ hnd harc hfull ?_
    · intro x y hxy
      rcases (hdrawn.arc x y).mp hxy with hxy | ⟨u, hu, rfl, hx⟩
      · exact hpart x y hxy
      · cases List.mem_singleton.mp hu
        exact harcv x hx
    · intro u hu p hp
      rcases (hdrawn.arc p u.hash).mp hp with hp | ⟨w, hw, he, -⟩
      · exact hnew u hu p hp
      · cases List.mem_singleton.mp hw
        exact hvnot (he ▸ List.mem_map_of_mem hu)
    · cases ho : v.own <;> cases hg : s.genesisCandidateReceived <;> simp_all

/-! ### Loading into a book without vertices -/

/-- What the second loop leaves behind, connected or not. -/
def Loading.left : Except (Loading × Err) Loading → Loading
  | .ok s => s
  | .error (s, _) => s

theorem connect_getVertex (s : Loading) (v : Vertex) (k : Hash) :
    (Loading.left (s.connect v)).dag.getVertex k = s.dag.getVertex k := by
  have hedges := addEdges_getVertex v.hash v.parentHashes Hash.zero s.dag k
  unfold Loading.connect
  simp only
  split
  · rfl
  · split
    · rfl
    · split
      next hres => rw [hres] at hedges; exact hedges
      next hres => rw [hres] at hedges; exact hedges

/-- RUN (second loop): the vertices stay as they are, whatever comes of it. -/
theorem connectAll_getVertex (todo : List Vertex) : ∀ (s : Loading) (k : Hash),
    (Loading.left (Loading.connectAll todo s)).dag.getVertex k = s.dag.getVertex k := by
  induction todo with
  | nil => exact fun _ _ => rfl
  | cons v todo ih =>
    intro s k
    have hone := connect_getVertex s v k
    rw [Loading.connectAll]
    cases hs : s.connect v with
    | error e => rw [hs] at hone; exact hone
    | ok s1 => rw [hs] at hone; exact (ih s1 k).trans hone

theorem loadLocked_frame (b : Book) (sched : LoadSchedule) (st : List (Option Vertex)) :
    let b' := (b.loadLocked sched st).1
    let b1 := (b.loadVertices sched.saveFails st).1
    (∀ k, b'.dag.getVertex k = b1.dag.getVertex k) ∧ b'.verticesDB = b1.verticesDB ∧
      b'.trxsToVertxDB = b1.trxsToVertxDB := by
  unfold Book.loadLocked
  cases b.loadVertices sched.saveFails st with
  | mk b1 err =>
    cases err with
    | some e => exact ⟨fun _ => rfl, rfl, rfl⟩
    | none =>
      have hget := connectAll_getVertex
        ((enumerate sched.vertices b1.dag.graph.nodes.keys).filterMap b1.dag.getVertex) ⟨b1.dag, 0, false⟩
      simp only
      split
      next hres => rw [hres] at hget; exact ⟨hget, rfl, rfl⟩
      next hres =>
        rw [hres] at hget
        split
        · exact ⟨hget, rfl, rfl⟩
        · exact ⟨hget, rfl, rfl⟩

/-- The vertices and the graph that loading makes of them. -/
structure Loadable (vs : List Vertex) (whole : Dag) : Prop where
  hashes : (vs.map Vertex.hash).Nodup
  trxs : (vs.map fun v => v.transaction.hash).Nodup
  nonempty : vs ≠ []
  full : ∀ v ∈ vs, v.transaction.isEmpty = false
  founder : vs.countP Vertex.own ≤ 1
  get : ∀ k v, whole.getVertex k = some v ↔ v ∈ vs ∧ v.hash = k
  arc : ∀ x y, whole.graph.Arc x y ↔ ∃ v ∈ vs, v.hash = y ∧ x ∈ edgeParents v

/-- What `LoadDag` leaves behind in a book without vertices, but for the graph. -/
structure Loaded (b : Book) (vs : List Vertex) (whole : Dag) (b' : Book) : Prop where
  dagLoaded : b'.dagLoaded = true
  genesis : ∃ r, whole.getVertex r.hash = some r ∧ (∀ p, ¬ whole.graph.Arc p r.hash) ∧
    b'.genesisPublicAddress = r.transaction.issuerAddress
  trxs : ∀ h w, b'.trxsToVertxDB.lookup h = some w ↔
    b.trxsToVertxDB.lookup h = some w ∨ ∃ v ∈ vs, v.transaction.hash = h ∧ v.hash = w
  verticesDB : b'.verticesDB = b.verticesDB

theorem all_perm (hnd : (vs.map Vertex.hash).Nodup) (hget : ∀ k v, d.getVertex k = some v ↔ v ∈ vs ∧ v.hash = k)
    (order : List Hash) :
    ((enumerate order d.graph.nodes.keys).filterMap d.getVertex).Perm vs := by
  refine (List.perm_ext_iff_of_nodup (Dag.vertices_nodup (enumerate_nodup d.graph.nodes.keys_nodup))
    hnd.of_map).mpr fun v => ?_
  refine (Dag.mem_vertices (d := d)).trans ?_
  rw [mem_enumerate, hget]
  refine ⟨fun h => h.2.1, fun h => ⟨AList.mem_keys.mp (Dag.mem_nodes (v := v) ?_), h, rfl⟩⟩
  exact (hget v.hash v).mpr ⟨h, rfl⟩

theorem newAccountingBook_getVertex (n : UInt64) (k : Hash) :
    (newAccountingBook n).dag.getVertex k = none := by
  simp [newAccountingBook, Dag.getVertex, Dag.empty, Digraph.get, Digraph.empty]

section Load

variable {b b' : Book} {sched : LoadSchedule} {st : List (Option Vertex)}

/-- SPEC (inversion): a load that succeeds has read unseen vertices and drawn the edges of every vertex
    that is then in the graph. -/
theorem loadDag_ok (h : b.loadDag sched st = (b', none)) : Unseen b (delivered st) ∧
    ∃ b1 : Book, Collected b (delivered st) b1 ∧ (∃ r, b'.dag.getVertex r.hash = some r) ∧
      let vs := (enumerate sched.vertices b1.dag.graph.nodes.keys).filterMap b1.dag.getVertex
      Drawn b1.dag vs b'.dag ∧ (∀ v ∈ vs, v.transaction.isEmpty = false) ∧ vs.countP Vertex.own ≤ 1 := by
  unfold Book.loadDag Book.loadLocked at h
  split at h
  · cases h
  simp only at h
  cases hload : b.loadVertices sched.saveFails st with
  | mk b1 err =>
    cases err with
    | some e => simp only [hload] at h; cases h
    | none =>
      obtain ⟨hunseen, hc⟩ := loadVertices_ok st hload
      simp only [hload] at h
      cases hconn : Loading.connectAll ((enumerate sched.vertices b1.dag.graph.nodes.keys).filterMap
          b1.dag.getVertex) ⟨b1.dag, 0, false⟩ with
      | error e => simp only [hconn] at h; cases h
      | ok s =>
        obtain ⟨hdrawn, hfull, hcount⟩ := connectAll_ok _ hconn
        simp only [hconn] at h
        cases hroots : (enumerate sched.roots s.dag.graph.roots).filterMap s.dag.getVertex with
        | nil => simp only [hroots] at h; cases h
        | cons r rest =>
          simp only [hroots] at h
          obtain ⟨rfl, -⟩ := Prod.mk.inj h
          have hr := ((Dag.mem_vertices (d := s.dag)).mp (hroots ▸ List.mem_cons_self ..)).2
          exact ⟨hunseen, b1, hc, ⟨r, hr⟩, hdrawn, hfull, by simpa using hcount⟩

theorem loadDag_getVertex (h : b.loadDag sched st = (b', none)) (k : Hash) (v : Vertex) :
    b'.dag.getVertex k = some v ↔ b.dag.getVertex k = some v ∨ (v ∈ delivered st ∧ v.hash = k) := by
  obtain ⟨-, b1, hc, -, hdrawn, -⟩ := loadDag_ok h
  rw [hdrawn.get, hc.get]

theorem arc_of_empty (hempty : ∀ k, b.dag.getVertex k = none) (x y : Hash) : ¬ b.dag.graph.Arc x y := by
  intro harc
  obtain ⟨v, hv⟩ : ∃ v, b.dag.getVertex x = some v := Digraph.mem_nodes.mp harc.left
  rw [hempty] at hv
  cases hv

theorem loadable_of_loadDag (hempty : ∀ k, b.dag.getVertex k = none)
    (h : b.loadDag sched st = (b', none)) : Loadable (delivered st) b'.dag := by
  obtain ⟨hunseen, b1, hc, ⟨r, hr⟩, hdrawn, hfull, hcount⟩ := loadDag_ok h
  have hget : ∀ k v, b1.dag.getVertex k = some v ↔ v ∈ delivered st ∧ v.hash = k := fun k v => by
    rw [hc.get, hempty]; simp
  have hperm := all_perm hunseen.hashes hget sched.vertices
  refine ⟨hunseen.hashes, hunseen.trxs, ?_, fun v hv => hfull v (hperm.mem_iff.mpr hv), ?_, fun k v => ?_,
    fun x y => ?_⟩
  · rintro hnil
    rw [hdrawn.get, hget, hnil] at hr
    cases hr.1
  · rw [← hperm.countP_eq]; exact hcount
  · rw [hdrawn.get, hget]
  · refine (hdrawn.arc x y).trans ?_
    simp only [hperm.mem_iff]
    exact or_iff_right fun harc => arc_of_empty hempty x y ((hc.arc x y).mp harc)

/-- SPEC (loading): with working stores a book without vertices that knows none of the transactions
    loads what is loadable, in every order. -/
theorem Loadable.loadDag {whole : Dag} (hl : Loadable (delivered st) whole) (hb : b.dagLoaded = false)
    (hempty : ∀ k, b.dag.getVertex k = none)
    (hnew : ∀ v ∈ delivered st, b.trxsToVertxDB.lookup v.transaction.hash = none)
    (hstores : ∀ k, sched.saveFails k = false) :
    ∃ b', b.loadDag sched st = (b', none) ∧ (∀ k, b'.dag.getVertex k = whole.getVertex k) ∧
      (∀ x y, b'.dag.graph.Arc x y ↔ whole.graph.Arc x y) ∧ Loaded b (delivered st) whole b' := by
  have hunseen : Unseen b (delivered st) :=
    ⟨hl.hashes, hl.trxs, fun v _ => Digraph.get_eq_none.mp (hempty v.hash), hnew⟩
  obtain ⟨b1, hload⟩ := loadVertices_takes hstores st hunseen
  obtain ⟨-, hc⟩ := loadVertices_ok st hload
  have hget : ∀ k v, b1.dag.getVertex k = some v ↔ v ∈ delivered st ∧ v.hash = k := fun k v => by
    rw [hc.get, hempty]; simp
  have hgetw : ∀ k, b1.dag.getVertex k = whole.getVertex k := fun k =>
    Option.ext fun v => (hget k v).trans (hl.get k v).symm
  have harc0 : ∀ x y, ¬ b1.dag.graph.Arc x y := fun x y harc =>
    arc_of_empty hempty x y ((hc.arc x y).mp harc)
  have hperm := all_perm hl.hashes hget sched.vertices
  obtain ⟨s, hconn⟩ := connectAll_draws whole
    ((enumerate sched.vertices b1.dag.graph.nodes.keys).filterMap b1.dag.getVertex)
    (s := ⟨b1.dag, 0, false⟩) hgetw (fun x y h => absurd h (harc0 x y)) (fun v _ p => harc0 p _)
    ((hperm.map _).nodup_iff.mpr hl.hashes)
    (fun v hv p hp => (hl.arc p v.hash).mpr ⟨v, hperm.mem_iff.mp hv, rfl, hp⟩)
    (fun v hv => hl.full v (hperm.mem_iff.mp hv)) (by simpa [hperm.countP_eq] using hl.founder)
  obtain ⟨hdrawn, -, -⟩ := connectAll_ok _ hconn
  have hgets : ∀ k, s.dag.getVertex k = whole.getVertex k := fun k => (hdrawn.get k).trans (hgetw k)
  have harcs : ∀ x y, s.dag.graph.Arc x y ↔ whole.graph.Arc x y := fun x y => by
    rw [hdrawn.arc, hl.arc]
    simp only [hperm.mem_iff]
    exact or_iff_right (harc0 x y)
  obtain ⟨v0, hv0⟩ := List.exists_mem_of_ne_nil _ hl.nonempty
  have hroot : ∃ r rest, (enumerate sched.roots s.dag.graph.roots).filterMap s.dag.getVertex = r :: rest := by
    refine List.exists_cons_of_ne_nil fun hnil => ?_
    obtain ⟨k, hk⟩ := List.exists_mem_of_ne_nil _ (s.dag.graph.roots_ne_nil
      (Digraph.mem_nodes.mpr ⟨v0, (hgets _).trans ((hl.get _ _).mpr ⟨hv0, rfl⟩)⟩))
    obtain ⟨u, hu⟩ : ∃ u, s.dag.getVertex k = some u := Digraph.mem_nodes.mp (Digraph.mem_roots.mp hk).1
    have hmem : u ∈ (enumerate sched.roots s.dag.graph.roots).filterMap s.dag.getVertex :=
      List.mem_filterMap.mpr ⟨k, mem_enumerate.mpr hk, hu⟩
    rw [hnil] at hmem
    cases hmem
  obtain ⟨r, rest, hr⟩ := hroot
  have hrmem := (Dag.mem_vertices (d := s.dag)).mp (hr ▸ List.mem_cons_self (a := r))
  have hrroot := (Digraph.mem_roots.mp (mem_enumerate.mp hrmem.1)).2
  unfold Book.loadDag Book.loadLocked
  simp only [hb, Bool.false_eq_true, if_false, hload, hconn, hr]
  refine ⟨_, rfl, hgets, harcs, rfl, ⟨r, (hgets _).symm.trans hrmem.2, fun p hp =>
    hrroot p ((harcs _ _).mpr hp), rfl⟩, hc.trxs, ?_⟩
  rw [hc.rest]
  rfl

end Load

end Computantis
