import Computantis.Laws.Closure

/-! @law validated | name:Validated before extended | family:invariant | about:Model/Node

    A parent that has a child is not validated again. This is sound: whoever has a child has passed
    the funds check once, and no later step changes its past. For the same reason a vertex with a
    child survives every step: only leaves are validated, and a step looks only at those that are
    leaves when it takes the lock. -/

namespace Computantis

open Schemes

/-! ### A vertex with a child survives the step -/

section Survival

variable {env : Env} {faults : Faults} {k : Hash} {v : Vertex} {b : Book}

theorem getVertex_discard {u : Vertex} (hk : k ≠ u.hash) :
    (b.discard u faults).dag.getVertex k = b.dag.getVertex k := by
  rw [discard_getVertex, if_neg hk]

theorem getVertex_dismiss {u : Vertex} {e : Err} (hk : k ≠ u.hash) :
    (b.dismiss u e faults).dag.getVertex k = b.dag.getVertex k := by
  unfold Book.dismiss
  split
  · rfl
  · exact getVertex_discard hk

theorem pickLeaves_getVertex (probe : Hash → Probe) : ∀ (todo found : List Vertex)
    (err : Option Err) (b : Book), (∀ v ∈ todo, k ≠ v.hash) →
    (Book.pickLeaves env probe faults todo found err b).1.dag.getVertex k = b.dag.getVertex k
  | [], _, _, _, _ => rfl
  | u :: todo, found, err, b, hk => by
      rw [Book.pickLeaves]
      split
      · rfl
      have hrest : ∀ v ∈ todo, k ≠ v.hash := fun v hv => hk v (List.mem_cons_of_mem _ hv)
      cases b.validateLeaf env (probe u.hash) u with
      | error e =>
        simp only
        split
        · rfl
        rw [pickLeaves_getVertex probe todo found _ _ hrest, updateWeight_dag]
        exact getVertex_discard (hk u (List.mem_cons_self ..))
      | ok _ => exact pickLeaves_getVertex probe todo _ _ b hrest

theorem getValidLeaves_getVertex (env : Env) (faults : Faults) (b : Book) (pass : Book.Pass)
    (hk : b.dag.graph.HasChild k) :
    (b.getValidLeaves env pass faults).1.dag.getVertex k = b.dag.getVertex k := by
  refine pickLeaves_getVertex pass.probe _ [] none b ?_
  rintro v hv rfl
  exact ((leaves_snapshot b pass.order).2 v hv).2 hk

theorem pickLeaves_eq_nil (probe : Hash → Probe) : ∀ (todo found : List Vertex) (err : Option Err)
    (b : Book), (Book.pickLeaves env probe faults todo found err b).2 = ([], none) →
    found = [] ∧ todo = [] ∧ err = none
  | [], found, err, b, h => by
      rw [Book.pickLeaves, Prod.mk.injEq] at h
      exact ⟨h.1, rfl, h.2⟩
  | u :: todo, found, err, b, h => by
      rw [Book.pickLeaves] at h
      split at h
      · rw [Prod.mk.injEq] at h
        next hlen => rw [h.1] at hlen; cases hlen
      · cases hval : b.validateLeaf env (probe u.hash) u with
        | error e =>
          simp only [hval] at h
          split at h
          · cases h
          · cases (pickLeaves_eq_nil probe todo _ _ _ h).2.2
        | ok _ =>
          rw [hval] at h
          have := (pickLeaves_eq_nil probe todo _ _ _ h).1
          simp at this

theorem getValidLeaves_ne_nil (env : Env) (faults : Faults) (b : Book) (pass : Book.Pass) (hk : k ∈ b.dag.graph.nodes) :
    (b.getValidLeaves env pass faults).2 ≠ ([], none) := by
  intro h
  obtain ⟨-, htodo, -⟩ := pickLeaves_eq_nil pass.probe _ [] none b h
  obtain ⟨l, hl⟩ := List.exists_mem_of_ne_nil _ (b.dag.graph.leaves_ne_nil hk)
  obtain ⟨v, hv⟩ := Digraph.mem_nodes.mp (Digraph.mem_leaves.mp hl).1
  have hmem : v ∈ (enumerate pass.order b.dag.graph.leaves).filterMap b.dag.getVertex :=
    List.mem_filterMap.mpr ⟨l, mem_enumerate.mpr hl, hv⟩
  rw [htodo] at hmem
  cases hmem

theorem insertVertex_getVertex (faults : Faults) (leaf : Vertex) (parents : List Vertex) (onSave : Err → Err)
    (rejected : Err) (hk : b.dag.getVertex k = some v) :
    (b.insertVertex leaf parents faults onSave rejected).1.dag.getVertex k = some v := by
  rw [insertVertex_get, if_neg, hk]
  rintro ⟨hok, rfl⟩
  exact (insertVertex_done hok).1 (Dag.mem_nodes hk)

theorem createLeafLocked_getVertex (env : Env) (faults : Faults) (b : Book) (trx : Transaction)
    (first second : Book.Pass) (now : Time) (hk : b.dag.getVertex k = some v)
    (hkeep : (b.getValidLeaves env first faults).1.dag.getVertex k = some v) :
    (b.createLeafLocked env trx first second now faults).1.dag.getVertex k = some v := by
  unfold Book.createLeafLocked
  -- there are vertices, so there are leaves, and the first pass leaves a leaf or an error behind
  have hnil := getValidLeaves_ne_nil env faults b first (Dag.mem_nodes hk)
  generalize b.getValidLeaves env first faults = res at hkeep hnil
  obtain ⟨b1, found, err⟩ := res
  cases err with
  | some e => exact hkeep
  | none =>
    cases found with
    | nil => exact absurd rfl hnil
    | cons l rest =>
      have hins := insertVertex_getVertex faults (Book.tip env trx l (rest.headD l) now)
        [l, rest.headD l] (fun _ => [.errUnexpected]) [.errNewLeafRejected] hkeep
      simp only [Book.sealTip]
      generalize b1.insertVertex _ _ _ _ _ = ins at hins
      obtain ⟨b2, res⟩ := ins
      cases res <;> exact hins

theorem createLeafLocked_ne_panicked (env : Env) (faults : Faults) (b : Book) (trx : Transaction)
    (first second : Book.Pass) (now : Time) (hk : k ∈ b.dag.graph.nodes) :
    (b.createLeafLocked env trx first second now faults).2 ≠ .panicked := by
  unfold Book.createLeafLocked
  have hnil := getValidLeaves_ne_nil env faults b first hk
  generalize b.getValidLeaves env first faults = res at hnil
  obtain ⟨b1, found, err⟩ := res
  cases err with
  | some e => simp
  | none =>
    cases found with
    | nil => exact absurd rfl hnil
    | cons l rest =>
      simp only [Book.sealTip]
      generalize b1.insertVertex _ _ _ _ _ = ins
      obtain ⟨b2, res⟩ := ins
      cases res <;> simp

theorem checkParents_getVertex (m : Memory) (probe : Hash → Probe) :
    ∀ (hashes : List Hash) (acc : List Vertex) (b : Book), (k ∈ hashes → b.dag.graph.HasChild k) →
      b.dag.getVertex k = some v →
      (b.checkParents env m probe faults hashes acc).1.dag.getVertex k = some v
  | [], _, _, _, hk => hk
  | hash :: rest, acc, b, hc, hk => by
      have hrest : k ∈ rest → b.dag.graph.HasChild k := fun h => hc (List.mem_cons_of_mem _ h)
      rw [Book.checkParents]
      cases hget : b.dag.getVertex hash with
      | none =>
        simp only
        cases b.repeater.insert m <;> exact hk
      | some u =>
        have hu : u.hash = hash := b.dag.keyed hget
        simp only
        split
        next hleaf =>
          cases b.validateLeaf env (probe hash) u with
          | error e =>
            have hne : k ≠ u.hash := by
              rintro rfl
              exact Digraph.isLeaf_iff.mp hleaf (hu ▸ hc (hu ▸ List.mem_cons_self ..))
            simp only
            rw [getVertex_dismiss hne]; exact hk
          | ok _ => exact checkParents_getVertex m probe rest _ _ hrest hk
        next => exact checkParents_getVertex m probe rest _ b hrest hk

theorem addLeafLocked_getVertex (env : Env) (faults : Faults) (b : Book) (m : Memory) (probe : Hash → Probe)
    (hkeep : (b.checkParents env m probe faults m.vrx.parentHashes []).1.dag.getVertex k = some v) :
    (b.addLeafLocked env m probe faults).1.dag.getVertex k = some v := by
  unfold Book.addLeafLocked
  generalize b.checkParents env m probe faults m.vrx.parentHashes [] = res at hkeep
  obtain ⟨b1, res⟩ := res
  cases res with
  | error e => exact hkeep
  | ok validated => exact insertVertex_getVertex faults m.vrx validated _ _ hkeep

theorem Move.getVertex {origin : Vertex → Vertex → Vertex → Prop} {b' : Book} (hm : Move env faults origin b b')
    (hc : b.dag.graph.HasChild k) (hk : b.dag.getVertex k = some v) : b'.dag.getVertex k = some v := by
  cases hm with
  | idle _ hd _ => rw [hd]; exact hk
  | refuse _ _ _ _ hd _ => rw [hd]; exact hk
  | @reject u _ _ _ _ hleaf _ hd _ =>
    have hne : k ≠ u.hash := by
      rintro rfl; exact hleaf hc
    rw [hd, Dag.getVertex, Dag.deleteVertex_graph, Digraph.get_delete, if_neg hne]
    exact hk
  | grow _ _ _ _ _ _ _ hd _ =>
    rw [Dag.getVertex, hd.get_of_ne (hd.ne (Dag.mem_nodes hk))]; exact hk

theorem Node.step_getVertex (env : Env) (s : Node) {e : Event} (he : e.Ordinary) (hc : s.book.dag.graph.HasChild k)
    (hk : s.book.dag.getVertex k = some v) :
    (s.step env e).book.dag.getVertex k = some v := by
  have ht := s.step_takes env he
  generalize (s.step env e).book = b' at ht
  cases ht with
  | quiet _ hd _ => rw [hd]; exact hk
  | create _ =>
    exact createLeafLocked_getVertex env _ s.book _ _ _ _ hk
      ((getValidLeaves_getVertex env _ s.book _ hc).trans hk)
  | add _ =>
    exact addLeafLocked_getVertex env _ s.book _ _
      (checkParents_getVertex _ _ _ _ _ (fun _ => hc) hk)

end Survival

/-! ### Whoever has a child has passed -/

section

variable {env : Env} {g : Vertex} {s : Node} {n : UInt64} {spec : Book.GenesisSpec} {es : List Event}

theorem Move.extendable {faults : Faults} {origin : Vertex → Vertex → Vertex → Prop} {b b' : Book}
    (hm : Move env faults origin b b') {v : Vertex} (hv : b'.dag.getVertex v.hash = some v)
    (hc : b'.dag.graph.HasChild v.hash) :
    Extendable env b v ∧ Digraph.SamePast b.dag.graph b'.dag.graph v.hash := by
  cases hm with
  | idle _ hd _ =>
    rw [hd] at hv hc ⊢
    exact ⟨⟨hv, Or.inl hc⟩, .refl _ _⟩
  | refuse _ _ _ _ hd _ =>
    rw [hd] at hv hc ⊢
    exact ⟨⟨hv, Or.inl hc⟩, .refl _ _⟩
  | @reject u _ _ hf _ hleaf _ hd _ =>
    have hrem := Remains.of_delete hf hleaf hd
    obtain ⟨c, hc⟩ := hc
    rw [hd, Dag.deleteVertex_graph, Digraph.arc_delete] at hc
    exact ⟨⟨hrem.get hv, Or.inl ⟨c, hc.1⟩⟩, hrem.past (Dag.mem_nodes hv)⟩
  | @grow leaf l r _ _ left right hl hr _ hd _ =>
    have hleaf : v.hash ≠ leaf.hash := by
      intro he; exact hd.childless (he ▸ hc)
    have hmem : v.hash ∈ b.dag.graph.nodes :=
      (hd.mem.mp (Dag.mem_nodes hv)).resolve_left hleaf
    have hvb : b.dag.getVertex v.hash = some v := by
      rw [Dag.getVertex, ← hd.get_of_ne hleaf]; exact hv
    refine ⟨?_, hd.samePast hmem⟩
    -- an old child, or one of the two parents of the new vertex
    rcases hd.hasChild.mp hc with hc | hc
    · exact ⟨hvb, Or.inl hc⟩
    · have hpar : v.hash = l.hash ∨ v.hash = r.hash := by
        rw [edgeParents, Vertex.parentHashes, left, right] at hc
        split at hc
        · cases hc
        · simpa using hc
      rcases hpar with he | he
      · cases hvb.symm.trans (he ▸ hl.1); exact hl
      · cases hvb.symm.trans (he ▸ hr.1); exact hr

/-- INVARIANT: nobody is trusted, nothing is stored, every vertex with a child verifies and, but for
    the genesis vertex, has passed the funds check if it moves spice. -/
structure Validated (env : Env) (g : Vertex) (b : Book) : Prop where
  closed : Closed g b
  untrusted : b.trustedNodesDB = []
  unstored : b.verticesDB = ∅
  verified : ∀ v, b.dag.getVertex v.hash = some v → b.dag.graph.HasChild v.hash →
    v.verify env.verifier = true
  funded : ∀ v, b.dag.getVertex v.hash = some v → b.dag.graph.HasChild v.hash → v.hash ≠ g.hash →
    v.transaction.isSpiceTransfer = true → FundsPass env b v

namespace Validated

variable {env : Env} {g : Vertex} {b b' : Book}

theorem fundsPass_of_extendable (h : Validated env g b) {v : Vertex} (hv : Extendable env b v)
    (hne : v.hash ≠ g.hash) (hs : v.transaction.isSpiceTransfer = true) : FundsPass env b v := by
  rcases hv.2 with hc | hp
  · exact h.funded v hv.1 hc hne hs
  · rcases hp.funded with hroot | hnot | htrust | hf
    · exact absurd (h.closed.eq_of_isRoot hv.1 hroot) hne
    · rw [hs] at hnot; cases hnot
    · rw [h.untrusted] at htrust; cases htrust
    · exact hf

theorem verified_of_extendable (h : Validated env g b) {v : Vertex} (hv : Extendable env b v) :
    v.verify env.verifier = true := by
  rcases hv.2 with hc | hp
  · exact h.verified v hv.1 hc
  · exact hp.verified

theorem move {faults : Faults} {origin : Vertex → Vertex → Vertex → Prop}
    (ho : ∀ leaf l r, origin leaf l r → leaf.hash ≠ Hash.zero) (hm : Move env faults origin b b')
    (h : Validated env g b) : Validated env g b' := by
  have hframe : Frame b b' := hm.frame
  refine ⟨h.closed.move ho hm, hframe.trustedNodesDB.trans h.untrusted,
    hframe.verticesDB.trans h.unstored, ?_, ?_⟩
  · intro v hv hc
    exact h.verified_of_extendable (hm.extendable hv hc).1
  · intro v hv hc hne hs
    obtain ⟨hext, hpast⟩ := hm.extendable hv hc
    exact (h.fundsPass_of_extendable hext hne hs).frame hframe hpast

end Validated

/-- What holds of every node that has never truncated. -/
structure Sound (env : Env) (g : Vertex) (s : Node) : Prop where
  validated : Validated env g s.book
  pending : s.PendingVerified env

theorem Sound.closed (h : Sound env g s) : Closed g s.book :=
  h.validated.closed

theorem Sound.step (hz : NonzeroDigests env) (h : Sound env g s) {e : Event} (he : e.Ordinary) :
    Sound env g (s.step env e) :=
  ⟨Moves.invariant (fun hm hb => hb.move (fun _ _ _ ho => hz.origin_ne h.pending ho) hm)
    (s.step_moves env he) h.validated, h.pending.step e⟩

theorem sound_genesis (hz : NonzeroDigests env) (h : Node.genesis env n spec = some (s, g)) : Sound env g s := by
  have hf := founded h
  refine ⟨⟨closed_genesis hz h, hf.trustedNodesDB, hf.verticesDB, ?_, ?_⟩, ?_⟩
  · intro v hv hc
    exact absurd ((hf.eq hv).1 ▸ hc) hf.grown.childless
  · intro v hv _ hne
    exact absurd (hf.eq hv).1 hne
  · rw [Node.PendingVerified, Node.PendingAdds, hf.pending]; simp

/-- INDUCTION: what holds of the genesis node and is kept by every step of a sound node that meets
    the condition holds after every run of ordinary events along the condition. -/
theorem sound_run (hz : NonzeroDigests env) (h : Node.genesis env n spec = some (s, g)) {I : Node → Prop}
    {P : Node → Event → Prop} (h0 : I s) (hstep : ∀ t e, e.Ordinary → P t e → Sound env g t → I t → I (t.step env e))
    (hes : ∀ e ∈ es, e.Ordinary) (hP : Along (Node.step env) P s es) :
    Sound env g (run (Node.step env) s es) ∧ I (run (Node.step env) s es) := by
  refine run_invariant_along (P := fun (t : Node) (e : Event) => e.Ordinary ∧ P t e)
    (I := fun (t : Node) => Sound env g t ∧ I t) ?_ ((along_of_forall hes s).and hP)
    ⟨sound_genesis hz h, h0⟩
  rintro t e ⟨he, hp⟩ ⟨hs, hi⟩
  exact ⟨hs.step hz he, hstep t e he hp hs hi⟩

/-- RUN: every state that ordinary events reach from the genesis node is sound. -/
theorem sound_of_run (hz : NonzeroDigests env) (h : Node.genesis env n spec = some (s, g))
    (hes : ∀ e ∈ es, e.Ordinary) : Sound env g (run (Node.step env) s es) :=
  (sound_run hz h (I := fun _ => True) trivial (fun _ _ _ _ _ _ => trivial) hes
    (along_of_forall (P := fun _ => True) (fun _ _ => trivial) s)).1

/-! ### Facts about each vertex and the pasts of its parents -/

/-- The fact holds of every vertex but the genesis vertex. -/
def EachVertex (g : Vertex) (Q : Dag → Vertex → Prop) (b : Book) : Prop :=
  ∀ v, b.dag.getVertex v.hash = some v → v.hash ≠ g.hash → Q b.dag v

/-- The fact looks at nothing of the graph but the pasts of the two parents. -/
def PastOnly (Q : Dag → Vertex → Prop) : Prop :=
  ∀ {d d' : Dag} {v : Vertex}, Digraph.SamePast d.graph d'.graph v.leftParentHash →
    Digraph.SamePast d.graph d'.graph v.rightParentHash → Q d v → Q d' v

namespace EachVertex

variable {env : Env} {g : Vertex} {Q : Dag → Vertex → Prop} {b b' : Book}

theorem remains (hQ : PastOnly Q) (h : EachVertex g Q b) (hr : Remains b b') (hc : Closed g b') :
    EachVertex g Q b' := by
  intro v hv hne
  have hpar := hc.parents v.hash v hv hne
  exact hQ (hr.past ((hpar _).mpr (Or.inl rfl)).left) (hr.past ((hpar _).mpr (Or.inr rfl)).left)
    (h v (hr.get hv) hne)

theorem step (hQ : PastOnly Q) (hz : NonzeroDigests env) {e : Event} (he : e.Ordinary) (hs : Sound env g s)
    (hnew : ∀ leaf l r, s.origin env e leaf l r → leaf.leftParentHash = l.hash →
      leaf.rightParentHash = r.hash → s.book.dag.getVertex l.hash = some l →
      s.book.dag.getVertex r.hash = some r → Q s.book.dag leaf) (h : EachVertex g Q s.book) :
    EachVertex g Q (s.step env e).book := by
  obtain ⟨b1, hshrunk, hm⟩ := s.step_shape env he
  have hrem := hshrunk.remains
  have hc1 : Closed g b1 := Moves.invariant (fun hm hb => hb.move (fun _ _ _ ho => ho.elim) hm)
    hshrunk hs.closed
  have hc2 : Closed g (s.step env e).book := (hs.step hz he).closed
  have h1 : EachVertex g Q b1 := h.remains hQ hrem hc1
  cases hm with
  | idle hf hd _ => exact h1.remains hQ (.of_dag_eq hf hd) hc2
  | refuse hf _ _ _ hd _ => exact h1.remains hQ (.of_dag_eq hf hd) hc2
  | reject hf _ hleaf _ hd _ => exact h1.remains hQ (.of_delete hf hleaf hd) hc2
  | @grow leaf l r _ ho left right hl hr _ hd _ =>
    have hlmem := Dag.mem_nodes hl.1
    have hrmem := Dag.mem_nodes hr.1
    intro v hv hne
    by_cases hnewv : v.hash = leaf.hash
    · -- the new vertex: the pasts of its parents are those of the state the step began in
      rw [hnewv, Dag.getVertex, hd.get_self] at hv
      cases hv
      refine hQ ?_ ?_ (hnew leaf l r ho left right (hrem.get hl.1) (hrem.get hr.1))
      · rw [left]; exact (hrem.past hlmem).trans (hd.samePast hlmem)
      · rw [right]; exact (hrem.past hrmem).trans (hd.samePast hrmem)
    · -- an old vertex: its parents are old
      have hvmem := (hd.mem.mp (Dag.mem_nodes hv)).resolve_left hnewv
      have hvold : b1.dag.getVertex v.hash = some v := by
        rw [Dag.getVertex, hd.get_of_ne hnewv] at hv; exact hv
      have hpar := hc1.parents v.hash v hvold hne
      exact hQ (hd.samePast ((hpar _).mpr (Or.inl rfl)).left)
        (hd.samePast ((hpar _).mpr (Or.inr rfl)).left) (h1 v hvold hne)

theorem genesis (h : Node.genesis env n spec = some (s, g)) : EachVertex g Q s.book := by
  intro v hv hne
  exact absurd ((founded h).eq hv).1 hne

end EachVertex

theorem openPots_unstored {b : Book} (h : b.verticesDB = ∅) (v : Vertex) :
    b.openPots env v false = pourFunds v.transaction.issuerAddress v Pots.zero := by
  have hs : Melange.zero.supply ⟨0, 0⟩ = (Melange.zero, none) := by decide +kernel
  simp [Book.openPots, Book.readAddressFundsFromStorage, h, hs, Pots.zero]

end

/-- VALIDATED BEFORE EXTENDED: in every reachable state the funds check succeeds, for some
    enumeration of the ancestors, on every vertex that has a child, moves spice and is not the genesis
    vertex; and no step deletes a vertex that has a child, neither one that has it when the step
    begins nor one that has it when the deletion happens. -/
theorem validated_before_extended {env : Env} (hz : NonzeroDigests env) {n : UInt64}
    {spec : Book.GenesisSpec} {s : Node} {g : Vertex} (h : Node.genesis env n spec = some (s, g))
    {es : List Event} (hes : ∀ e ∈ es, e.Ordinary) :
    let t := run (Node.step env) s es
    (∀ k v, t.book.dag.getVertex k = some v → t.book.dag.graph.HasChild k → v ≠ g →
      v.transaction.isSpiceTransfer = true →
      ∃ ids : List Hash, ids.Nodup ∧ (∀ x, x ∈ ids ↔ t.book.dag.graph.Anc x k) ∧
        ∃ pots, foldFunds v.transaction.issuerAddress (v :: t.book.dag.vertices ids) Pots.zero = .ok pots ∧
          checkHasSufficientfunds pots = .ok ()) ∧
    (∀ e : Event, e.Ordinary →
      (∀ k v, t.book.dag.graph.HasChild k → t.book.dag.getVertex k = some v →
        (t.step env e).book.dag.getVertex k = some v) ∧
      Relation.ReflTransGen (fun b b' => Move env e.faults (t.origin env e) b b' ∧
        ∀ k v, b.dag.graph.HasChild k → b.dag.getVertex k = some v → b'.dag.getVertex k = some v)
        t.book (t.step env e).book) := by
  intro t
  have hv : Validated env g t.book := (sound_of_run hz h hes).validated
  refine ⟨?_, fun e he => ⟨fun k v hc hk => t.step_getVertex env he hc hk, ?_⟩⟩
  · intro k v hk hc hne hs
    have hkey : v.hash = k := t.book.dag.keyed hk
    subst hkey
    have hg : v.hash ≠ g.hash := fun he => hne (hv.closed.genesis v (he ▸ hk))
    obtain ⟨ids, hids, start, pots, hopen, hfold, hcheck⟩ := hv.funded v hk hc hg hs
    refine ⟨ids, hids.nodup, hids.mem, pots, ?_, hcheck⟩
    rw [openPots_unstored hv.unstored] at hopen
    rw [foldFunds_cons, hopen]; exact hfold
  · refine Relation.ReflTransGen.mono (fun b b' hm => ⟨hm, fun k v hc hk => ?_⟩) _ _ (t.step_moves env he)
    exact hm.getVertex hc hk

/-- A transfer below the genesis vertex, and a vertex below the transfer. -/
def Transparent.transfer : Vertex :=
  sealed (trx (wallet 7) (wallet 8) ⟨4, 0⟩ [] 3) (root 10) (root 10) 1 4

def Transparent.chainEvents : List Event :=
  addEvents transfer ++ createEvents (trx (wallet 8) (wallet 9) ⟨1, 0⟩ [] 5) 6

open Transparent in
/-- The law at a run in which a transfer gets a child: its funds check succeeds. -/
theorem chain_validated :
    let t := run (Node.step (env hub)) (start 10) chainEvents
    t.book.dag.getVertex transfer.hash = some transfer ∧
      transfer.transaction.isSpiceTransfer = true ∧
      ∃ ids : List Hash, ids.Nodup ∧ (∀ x, x ∈ ids ↔ t.book.dag.graph.Anc x transfer.hash) ∧
        ∃ pots, foldFunds (wallet 7) (transfer :: t.book.dag.vertices ids) Pots.zero = .ok pots ∧
          checkHasSufficientfunds pots = .ok () := by
  have hes : ∀ e ∈ chainEvents, e.Ordinary := by
    simp [chainEvents, addEvents, createEvents, Event.Ordinary]
  have hget : (run (Node.step (env hub)) (start 10) chainEvents).book.dag.getVertex transfer.hash =
      some transfer := by decide +kernel
  have hleaf : (run (Node.step (env hub)) (start 10) chainEvents).book.dag.graph.isLeaf transfer.hash =
      false := by decide +kernel
  have hspice : transfer.transaction.isSpiceTransfer = true := by decide +kernel
  exact ⟨hget, hspice, (validated_before_extended (nonzeroDigests hub) (genesis_start 10) hes).1
    _ _ hget (Digraph.isLeaf_eq_false.mp hleaf) (by decide +kernel) hspice⟩

end Computantis
