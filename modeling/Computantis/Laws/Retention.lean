import Computantis.Laws.History
import Computantis.Laws.Shelf

/-! @law retention | name:Valid leaves | family:error-handling | about:Model/Ledger

    `CreateLeaf` and `AddLeaf` validate the leaves that they build on and delete a leaf whose validation
    returns an error, whatever the error is: a verdict, a cancelled context, a store that cannot be read.
    A validation also raises the weight counter, so a leaf that is validated first can make the next one
    too light. For a leaf that meets the conditions, the validation succeeds exactly when it is left in
    peace (`Quiet`), and then the leaf stays if its weight makes up for what is validated before it. -/

namespace Computantis

open Schemes

/-! ### Every reachable book is indexed -/

namespace Indexed

variable {b b' : Book}

theorem of_shrunk (h : Indexed b) (hget : ∀ v, b'.dag.getVertex v.hash = some v → b.dag.getVertex v.hash = some v)
    (ht : b'.trxsToVertxDB = b.trxsToVertxDB) : Indexed b' := by
  intro v hv
  rw [ht]
  exact h v (hget v hv)

theorem map (h : Indexed b) {k : Hash} (hunused : b.trxsToVertxDB.lookup k = none) (w : Hash) :
    Indexed { b with trxsToVertxDB := b.trxsToVertxDB.insert k w } := by
  intro v hv
  rw [AList.lookup_insert_ne (h.ne_of_unused hunused hv)]
  exact h v hv

theorem add (h : Indexed b) {v : Vertex} {fails : Bool} {b1 : Book} {dag : Dag}
    (hsave : b.saveTrxInVertex v.transaction.hash v.hash fails = .ok b1)
    (hadd : b1.dag.addVertexByID v = some dag) : Indexed { b1 with dag } := by
  obtain ⟨hunused, rfl⟩ := saveTrx_ok hsave
  have hgrown := Digraph.Grown.of_addNode (Dag.addVertexByID_eq_some hadd)
  intro u hu
  rcases (getVertex_grown hgrown u).mp hu with rfl | hu
  · exact AList.lookup_insert _
  · exact h.map hunused _ u hu

theorem inserting : Inserting (fun _ => True) Indexed where
  kept hget _ ht h := h.of_shrunk (fun v hv => hget v.hash ▸ hv) ht
  saved hsave h := by
    obtain ⟨hunused, rfl⟩ := saveTrx_ok hsave
    exact h.map hunused _
  added _ hsave hadd h := h.add hsave hadd

theorem truncate (h : Indexed b) (env : Env) (t : TruncateSchedule) : Indexed (b.truncate env t).1 := by
  refine h.of_shrunk (fun v hv => ?_) ?_
  · rcases truncate_dag env b t with hdag | ⟨top, hcut⟩
    · rwa [hdag] at hv
    · rw [hcut.get] at hv
      split at hv
      · cases hv
      · exact hv
  · obtain ⟨db, dag, n, hwrites⟩ := truncate_writes env b t
    rw [hwrites]

theorem live {env : Env} {s : Node} (h : Indexed s.book) (l : Life) : Indexed (s.live env l).book := by
  cases l with
  | genesis spec fails => exact inserting.createGenesis (fun _ _ => trivial) fails h
  | load sched st => exact inserting.loadDag sched (fun _ _ => trivial) h
  | restart n =>
    intro v hv
    rw [show (s.live env (.restart n)).book.dag.getVertex v.hash = none from
      newAccountingBook_getVertex n v.hash] at hv
    cases hv
  | trust a => exact h
  | distrust a => exact h
  | call e =>
    by_cases he : e.Ordinary
    · exact h.step he
    · cases e with
      | truncate t => exact h.truncate env t
      | _ => exact absurd trivial he

end Indexed

/-- RUN: in every life the index leads to the vertices of the graph. -/
theorem indexed_live (env : Env) (n : UInt64) (ls : List Life) :
    Indexed (run (Node.live env) (Node.fresh n) ls).book := by
  refine run_invariant (I := fun s : Node => Indexed s.book) (fun s l h => h.live l) ls fun v hv => ?_
  rw [show (Node.fresh n).book.dag.getVertex v.hash = none from newAccountingBook_getVertex n v.hash] at hv
  cases hv

/-! ### When the validation of a valid leaf succeeds -/

/-- The walk over `n` iterations is not cancelled before its end. -/
def Uncut (cancelAt : Option ℕ) (n : ℕ) : Prop := ∀ i, cancelAt = some i → n ≤ i

theorem walkFunds_uncut {env : Env} {d : Dag} {leaf : Vertex} {c : Option ℕ} (ids : List Hash) :
    ∀ {visited : List Hash} {i : ℕ} {p q : Pots}, walkFunds env d leaf c ids i visited p = .ok q →
      ∀ j, c = some j → i ≤ j → i + ids.length ≤ j := by
  induction ids with
  | nil => exact fun _ j _ hij => hij
  | cons id ids ih =>
    intro visited i p q h j hj hij
    have hne : i ≠ j := by
      rintro rfl
      rw [walkFunds, if_pos hj] at h
      cases h
    have hrest : ∀ {visited' : List Hash} {p' : Pots},
        walkFunds env d leaf c ids (i + 1) visited' p' = .ok q → i + (id :: ids).length ≤ j := by
      intro visited' p' h'
      have := ih h' j hj (by omega)
      rw [List.length_cons]
      omega
    rw [walkFunds] at h
    split at h
    · cases h
    · split at h
      · exact hrest h
      · split at h
        · cases h
        · split at h
          · cases h
          · split at h
            · cases h
            · split at h
              · cases h
              · exact hrest h

theorem walkFunds_of_uncut {env : Env} {d : Dag} {leaf : Vertex} {c : Option ℕ} (ids : List Hash) :
    ∀ {visited : List Hash} {i : ℕ} {p : Pots}, (∀ j, c = some j → i ≤ j → i + ids.length ≤ j) →
      walkFunds env d leaf c ids i visited p = walkFunds env d leaf none ids i visited p := by
  induction ids with
  | nil => exact fun _ => rfl
  | cons id ids ih =>
    intro visited i p hc
    have hne : c ≠ some i := fun h => by
      have := hc i h le_rfl
      rw [List.length_cons] at this
      omega
    have hrest : ∀ {visited' : List Hash} {p' : Pots}, walkFunds env d leaf c ids (i + 1) visited' p' =
        walkFunds env d leaf none ids (i + 1) visited' p' := by
      intro visited' p'
      refine ih fun j hj hij => ?_
      have := hc j hj (by omega)
      rw [List.length_cons] at this
      omega
    simp only [walkFunds, if_neg hne, reduceCtorEq, if_false, hrest]

/-- Whether the funds of the leaf are looked at: it moves spice and its node is not trusted. -/
def Vertex.Spends (b : Book) (v : Vertex) : Prop :=
  v.transaction.isSpiceTransfer = true ∧ v.signerPublicAddress ∉ b.trustedNodesDB

/-- The conditions on a leaf. -/
structure LeafConditions (env : Env) (b : Book) (v : Vertex) : Prop where
  leaf : IsLeafOf b v
  weight : b.isValidWeight v.weight = true
  verified : v.verify env.verifier = true
  funded : b.dag.graph.isRoot v.hash = true ∨
    (¬ v.Spends b ∧ v.leftParentHash ∈ b.dag.graph.nodes ∧ v.rightParentHash ∈ b.dag.graph.nodes) ∨
    (v.Spends b ∧ FundsPass env b v)

/-- What the funds check meets is harmless: the stored funds can be read, the context lives until the
    walk is over, the parents on the way verify, and funds that suffice suffice in the order of the walk
    too. -/
structure Probe.Clear (env : Env) (b : Book) (p : Probe) (v : Vertex) : Prop where
  fundsFails : p.fundsFails = false
  uncut : Uncut p.cancelAt (arrange p.order (b.dag.graph.ancestors v.hash)).length
  parents : ∀ u, b.dag.getVertex u.hash = some u → b.dag.graph.Anc u.hash v.hash →
    u.hash ∈ v.parentHashes → u.verify env.verifier = true
  order : ∀ ids, Enumerates b.dag v.hash ids → FundsPassIn env b v ids →
    FundsPassIn env b v (firsts [] (arrange p.order (b.dag.graph.ancestors v.hash)))

/-- The validation of the leaf is left in peace: the leaf is a root, or the trusted nodes can be read
    and the funds check is harmless when there is one. -/
def Quiet (env : Env) (b : Book) (p : Probe) (v : Vertex) : Prop :=
  b.dag.graph.isRoot v.hash = true ∨ (p.trustedFails = false ∧ (v.Spends b → p.Clear env b v))

section Validation

variable {env : Env} {b : Book} {p : Probe} {v : Vertex}

theorem validateFunds_iff (hf : FundsPass env b v) :
    b.validateFunds env p v = .ok () ↔ p.Clear env b v := by
  have henum := enumerates_walk b.dag v.hash p.order
  constructor
  · intro h
    unfold Book.validateFunds at h
    split at h
    · cases h
    next start hopen =>
      split at h
      · cases h
      next pots hwalk =>
        split at h
        · cases h
        next hcheck =>
          obtain ⟨hmet, hfold⟩ := walkFunds_calm.mp (walkFunds_ok hwalk)
          refine ⟨?_, fun j hj => ?_, fun u hu hanc hpar => ?_, fun _ _ _ => ?_⟩
          · rw [← Bool.not_eq_true]
            intro hfails
            simp [Book.openPots, Book.readAddressFundsFromStorage, hfails] at hopen
          · have := walkFunds_uncut _ hwalk j hj (Nat.zero_le j)
            omega
          · obtain ⟨w, hw, hverify⟩ := hmet u.hash ((henum.mem _).mpr hanc)
            rw [hu] at hw
            cases hw
            exact hverify (by simpa [Vertex.parentHashes] using hpar)
          · exact ⟨start, pots, openPots_ok hopen, hfold, hcheck⟩
  · intro hp
    obtain ⟨ids, hids, hpass⟩ := hf
    obtain ⟨start, pots, hopen, hfold, hcheck⟩ := hp.order ids hids hpass
    have hwalk : walkFunds env b.dag v p.cancelAt (arrange p.order (b.dag.graph.ancestors v.hash)) 0 []
        start = .ok pots := by
      rw [walkFunds_of_uncut _ fun j hj _ => by have := hp.uncut j hj; omega]
      refine walkFunds_calm.mpr ⟨fun id hid => ?_, hfold⟩
      have hanc := (henum.mem id).mp hid
      obtain ⟨u, hu⟩ : ∃ u, b.dag.getVertex id = some u := Digraph.mem_nodes.mp hanc.left
      obtain rfl : u.hash = id := b.dag.keyed hu
      exact ⟨u, hu, fun hpar => hp.parents u hu hanc (by simpa [Vertex.parentHashes] using hpar)⟩
    simp only [Book.validateFunds, hp.fundsFails, hopen, hwalk, hcheck]

theorem validateLeaf_iff_quiet (h : LeafConditions env b v) :
    b.validateLeaf env p v = .ok () ↔ Quiet env b p v := by
  have hmem : v.hash ∈ b.dag.graph.nodes := Dag.mem_nodes h.leaf.1
  unfold Book.validateLeaf Quiet
  rw [h.weight, h.verified, if_neg (by simp), if_neg (by simp), if_neg (not_not.mpr hmem)]
  by_cases hroot : b.dag.graph.isRoot v.hash = true
  · simp [hroot]
  rw [if_neg hroot]
  simp only [hroot, Bool.false_eq_true, false_or]
  cases htrust : p.trustedFails with
  | true => simp [Book.checkIsTrustedNode]
  | false =>
    simp only [Book.checkIsTrustedNode, Bool.false_eq_true, if_false, true_and, decide_eq_true_eq]
    have hcases : (v.transaction.isSpiceTransfer = false ∨ v.signerPublicAddress ∈ b.trustedNodesDB) ↔
        ¬ v.Spends b := by
      rw [Vertex.Spends, not_and_or, not_not, Bool.not_eq_true]
    by_cases hspends : v.Spends b
    · have hf : FundsPass env b v := by
        rcases h.funded with hr | ⟨hn, -⟩ | ⟨-, hf⟩
        · exact absurd hr hroot
        · exact absurd hspends hn
        · exact hf
      rw [if_neg (mt hcases.mp (not_not.mpr hspends)), validateFunds_iff hf]
      simp only [hspends, true_implies]
    · obtain ⟨hl, hr⟩ : v.leftParentHash ∈ b.dag.graph.nodes ∧ v.rightParentHash ∈ b.dag.graph.nodes := by
        rcases h.funded with hr | ⟨-, hp⟩ | ⟨hs, -⟩
        · exact absurd hr hroot
        · exact hp
        · exact absurd hs hspends
      have hl' : b.dag.getVertex v.leftParentHash ≠ none := fun hn => Digraph.get_eq_none.mp hn hl
      have hr' : b.dag.getVertex v.rightParentHash ≠ none := fun hn => Digraph.get_eq_none.mp hn hr
      rw [if_pos (hcases.mpr hspends), if_neg hr', if_neg hl']
      simp [hspends]

end Validation

/-! ### What a call leaves of a valid leaf -/

/-- The leaf is in the graph, and the index leads to it. -/
def Stands (b : Book) (v : Vertex) : Prop :=
  b.dag.getVertex v.hash = some v ∧ b.trxsToVertxDB.lookup v.transaction.hash = some v.hash

/-- CONDITION on a leaf that the event validates: it is left in peace, in whatever order its funds are
    added up; no leaf looked at outweighs it by more than the throughput, which does not overflow; and
    the parents that it names are above it. -/
structure SafeLook (env : Env) (b : Book) (e : Event) (v : Vertex) : Prop where
  quiet : Quiet env b (e.probe v.hash) v
  order : v.Spends b → OrderFree env b v
  leaves : ∀ k ∈ b.dag.graph.leaves, e.LooksAt k → ∀ u ∈ b.dag.getVertex k,
    u.weight.toNat ≤ v.weight.toNat + b.throughput.toNat
  room : b.throughput.toNat +
    (b.dag.graph.leaves.length + 2) * (b.dag.graph.nodes.keys.length + 1) < 2 ^ 64
  attached : ¬ v.Spends b → ∀ k ∈ v.parentHashes, k ∈ b.dag.graph.nodes → b.dag.graph.Anc k v.hash

section Persistence

variable {env : Env} {b b' : Book} {p : Probe} {v : Vertex}

theorem Vertex.spends_frame (h : Frame b b') : v.Spends b' ↔ v.Spends b := by
  rw [Vertex.Spends, Vertex.Spends, h.trustedNodesDB]

theorem Probe.Clear.frame (h : p.Clear env b v) (hf : Frame b b')
    (hp : Digraph.SamePast b.dag.graph b'.dag.graph v.hash) (ho : OrderFree env b v) :
    p.Clear env b' v := by
  have hperm : (b'.dag.graph.ancestors v.hash).Perm (b.dag.graph.ancestors v.hash) :=
    (List.perm_ext_iff_of_nodup (Digraph.ancestors_nodup _ _) (Digraph.ancestors_nodup _ _)).mpr fun x => by
      rw [Digraph.mem_ancestors, Digraph.mem_ancestors, hp.anc]
  refine ⟨h.fundsFails, fun j hj => ?_, fun u hu hanc hpar => ?_, fun ids hids hpass => ?_⟩
  · rw [(arrange_perm hperm).length_eq]
    exact h.uncut j hj
  · have hanc' := (hp.anc _).mp hanc
    exact h.parents u ((hp.get _ (Or.inr hanc')).symm.trans hu) hanc' hpar
  · exact ho.frame hf hp ids _ hids (enumerates_walk _ _ _) hpass

theorem Quiet.frame (h : Quiet env b p v) (hf : Frame b b')
    (hp : Digraph.SamePast b.dag.graph b'.dag.graph v.hash) (ho : v.Spends b → OrderFree env b v) :
    Quiet env b' p v := by
  unfold Quiet
  rw [hp.isRoot, Vertex.spends_frame hf]
  exact h.imp_right fun ⟨ht, hc⟩ => ⟨ht, fun hs => (hc hs).frame hf hp (ho hs)⟩

theorem IsLeafOf.remains (h : IsLeafOf b v) (hr : Remains b b') (hv : b'.dag.getVertex v.hash = some v) :
    IsLeafOf b' v := by
  refine ⟨hv, ?_⟩
  rintro ⟨c, hc⟩
  exact h.2 (((hr.past hc.right).anc _).mp (.single hc)).hasChild

theorem LeafConditions.remains (h : LeafConditions env b v) (hr : Remains b b')
    (hv : b'.dag.getVertex v.hash = some v) (hw : b'.isValidWeight v.weight = true)
    (ha : ¬ v.Spends b → ∀ k ∈ v.parentHashes, k ∈ b.dag.graph.nodes → b.dag.graph.Anc k v.hash) :
    LeafConditions env b' v := by
  have hp := hr.past (Dag.mem_nodes hv)
  refine ⟨h.leaf.remains hr hv, hw, h.verified, ?_⟩
  rw [hp.isRoot, Vertex.spends_frame hr.frame]
  rcases h.funded with hroot | ⟨hs, hl, hright⟩ | ⟨hs, hfunds⟩
  · exact .inl hroot
  · have hstay : ∀ k ∈ v.parentHashes, k ∈ b.dag.graph.nodes → k ∈ b'.dag.graph.nodes :=
      fun k hk hmem => ((hp.anc k).mpr (ha hs k hk hmem)).left
    exact .inr (.inl ⟨hs, hstay _ (by simp [Vertex.parentHashes]) hl,
      hstay _ (by simp [Vertex.parentHashes]) hright⟩)
  · exact .inr (.inr ⟨hs, hfunds.frame hr.frame hp⟩)

theorem SafeLook.firm {e : Event} (h : SafeLook env b e v) (hv : LeafConditions env b v) :
    Firm env (fun _ => True) b (v.weight.toNat + b.throughput.toNat) (e.probe v.hash) v := by
  intro b' n hs _ hget
  have hp := hs.remains.past (Dag.mem_nodes hget)
  have hw : b'.isValidWeight v.weight = true := by
    rw [isValidWeight_iff]
    have h1 := hs.weight
    have h2 := hs.throughput
    omega
  exact (validateLeaf_iff_quiet (hv.remains hs.remains hget hw h.attached)).mpr
    (h.quiet.frame hs.remains.frame hp h.order)

end Persistence

/-! ### The leaf that is looked at first -/

/-- The event takes the lock and validates this leaf before any other, and only once. -/
def Node.LooksFirstAt (s : Node) (v : Vertex) : Event → Prop
  | .finishCreate trx first _ _ _ => .create trx ∈ s.pending ∧ trx ≠ v.transaction ∧
      (enumerate first.order s.book.dag.graph.leaves).head? = some v.hash
  | .finishAdd m _ _ => .add m ∈ s.pending ∧ m.vrx.leftParentHash = v.hash ∧
      m.vrx.rightParentHash ≠ v.hash
  | _ => False

section First

variable {env : Env} {faults : Faults} {b : Book} {v : Vertex}

theorem getVertex_discard_self (b : Book) (v : Vertex) (faults : Faults) :
    (b.discard v faults).dag.getVertex v.hash = none := by
  rw [discard_getVertex, if_pos rfl]

theorem insertVertex_getVertex_iff (faults : Faults) (leaf : Vertex) (parents : List Vertex)
    (onSave : Err → Err) (rejected : Err) (hne : v ≠ leaf) :
    (b.insertVertex leaf parents faults onSave rejected).1.dag.getVertex v.hash = some v ↔
      b.dag.getVertex v.hash = some v := by
  refine ⟨fun h => ?_, insertVertex_getVertex faults leaf parents onSave rejected⟩
  rw [insertVertex_get] at h
  split at h
  · exact absurd (Option.some.inj h).symm hne
  · exact h

/-- `CreateLeaf` keeps the first of the leaves exactly when it passes its validation or the call panics. -/
theorem createLeafLocked_first {trx : Transaction} {first second : Book.Pass} {now : Time}
    (hv : b.dag.getVertex v.hash = some v) (htrx : trx ≠ v.transaction)
    (hfirst : (enumerate first.order b.dag.graph.leaves).head? = some v.hash) :
    (b.createLeafLocked env trx first second now faults).1.dag.getVertex v.hash = some v ↔
      b.validateLeaf env (first.probe v.hash) v = .ok () ∨ b.LeafPanics env (first.probe v.hash) v := by
  obtain ⟨rest, hrest⟩ : ∃ rest, enumerate first.order b.dag.graph.leaves = v.hash :: rest := by
    cases henum : enumerate first.order b.dag.graph.leaves with
    | nil => rw [henum] at hfirst; cases hfirst
    | cons k rest =>
      rw [henum, List.head?_cons, Option.some.injEq] at hfirst
      exact ⟨rest, hfirst ▸ rfl⟩
  obtain ⟨hnd, -⟩ := leaves_snapshot b first.order
  have hpass : (b.getValidLeaves env first faults).1.dag.getVertex v.hash = some v ↔
      b.validateLeaf env (first.probe v.hash) v = .ok () ∨ b.LeafPanics env (first.probe v.hash) v := by
    have htodo : (enumerate first.order b.dag.graph.leaves).filterMap b.dag.getVertex =
        v :: rest.filterMap b.dag.getVertex := by
      rw [hrest, List.filterMap_cons_some hv]
    rw [htodo, List.map_cons, List.nodup_cons] at hnd
    have hothers : ∀ u ∈ rest.filterMap b.dag.getVertex, v.hash ≠ u.hash := fun u hu he =>
      hnd.1 (he ▸ List.mem_map_of_mem hu)
    rw [Book.getValidLeaves, htodo, Book.pickLeaves, if_neg (by simp)]
    cases hval : b.validateLeaf env (first.probe v.hash) v with
    | ok _ =>
      simp only
      rw [pickLeaves_getVertex first.probe _ _ _ _ hothers]
      exact iff_of_true hv (Or.inl trivial)
    | error e =>
      simp only [leafPanics_iff hval, reduceCtorEq, false_or]
      split
      next he => exact iff_of_true hv he
      next he =>
        rw [pickLeaves_getVertex first.probe _ _ _ _ hothers, updateWeight_dag, getVertex_discard_self]
        simp [he]
  rw [← hpass]
  refine ⟨fun h => ?_, createLeafLocked_getVertex env faults b trx first second now hv⟩
  unfold Book.createLeafLocked at h
  have hnil := getValidLeaves_ne_nil env faults b first (Dag.mem_nodes hv)
  generalize b.getValidLeaves env first faults = res at h hnil ⊢
  obtain ⟨b1, found, err⟩ := res
  cases err with
  | some e => exact h
  | none =>
    cases found with
    | nil => exact absurd rfl hnil
    | cons l others =>
      have hne : v ≠ Book.tip env trx l (others.headD l) now := by
        rintro rfl
        exact htrx rfl
      have hins := insertVertex_getVertex_iff (b := b1) faults _ [l, others.headD l]
        (fun _ => [.errUnexpected]) [.errNewLeafRejected] hne
      simp only [Book.sealTip] at h
      generalize b1.insertVertex _ _ _ _ _ = ins at h hins
      obtain ⟨b2, res⟩ := ins
      cases res <;> exact hins.mp h

theorem addLeafLocked_first {m : Memory} {probe : Hash → Probe} (hv : IsLeafOf b v)
    (hleft : m.vrx.leftParentHash = v.hash) (hright : m.vrx.rightParentHash ≠ v.hash) :
    (b.addLeafLocked env m probe faults).1.dag.getVertex v.hash = some v ↔
      b.validateLeaf env (probe v.hash) v = .ok () ∨ b.LeafPanics env (probe v.hash) v := by
  have hrefused : ∀ e, b.validateLeaf env (probe v.hash) v = .error e →
      b.checkParents env m probe faults m.vrx.parentHashes [] =
        (b.dismiss v e faults, .error (.errLeafRejected :: e)) := by
    intro e hval
    rw [Vertex.parentHashes, hleft, Book.checkParents, hv.1]
    simp only [Digraph.isLeaf_iff.mpr hv.2, if_true, hval]
  have hpassed : b.validateLeaf env (probe v.hash) v = .ok () →
      b.checkParents env m probe faults m.vrx.parentHashes [] =
        (b.updateWeightAndThroughput v.weight).checkParents env m probe faults [m.vrx.rightParentHash] [v] := by
    intro hval
    rw [Vertex.parentHashes, hleft, Book.checkParents, hv.1]
    simp only [Digraph.isLeaf_iff.mpr hv.2, if_true, hval]
    rfl
  cases hval : b.validateLeaf env (probe v.hash) v with
  | error e =>
    simp only [Book.addLeafLocked, hrefused e hval, Book.dismiss, leafPanics_iff hval, reduceCtorEq, false_or]
    split
    next he => exact iff_of_true hv.1 he
    next he =>
      rw [getVertex_discard_self]
      simp [he]
  | ok _ =>
    refine iff_of_true (addLeafLocked_getVertex env _ _ _ _ ?_) (Or.inl rfl)
    rw [hpassed hval]
    refine checkParents_getVertex m probe _ _ _ (fun h => ?_) hv.1
    exact absurd (List.mem_singleton.mp h).symm hright

/-- STEP: the leaf that is looked at first stays exactly when it passes its validation or the call panics. -/
theorem Node.LooksFirstAt.getVertex {s : Node} {e : Event} (h : s.LooksFirstAt v e)
    (hv : IsLeafOf s.book v) : (s.step env e).book.dag.getVertex v.hash = some v ↔
      s.book.validateLeaf env (e.probe v.hash) v = .ok () ∨ s.book.LeafPanics env (e.probe v.hash) v := by
  cases e with
  | finishCreate trx first second now faults =>
    obtain ⟨hpending, htrx, hfirst⟩ := h
    rw [Node.step, if_pos hpending]
    exact createLeafLocked_first hv.1 htrx hfirst
  | finishAdd m probe faults =>
    obtain ⟨hpending, hleft, hright⟩ := h
    rw [Node.step, if_pos hpending]
    exact addLeafLocked_first hv hleft hright
  | _ => exact h.elim

end First

/-- VALID LEAVES: in every life of a node, a leaf that meets the conditions is in the graph and in the
    index after every call that is safe for it; the one that a call looks at first is there exactly when
    its validation is left in peace or has panicked over a parent. -/
theorem valid_leaf_kept (env : Env) (n : UInt64) (ls : List Life) {v : Vertex} {e : Event}
    (he : e.Ordinary) :
    let s := run (Node.live env) (Node.fresh n) ls
    LeafConditions env s.book v →
      ((e.LooksAt v.hash → SafeLook env s.book e v) → Stands (s.step env e).book v) ∧
      (s.LooksFirstAt v e → (Stands (s.step env e).book v ↔
        Quiet env s.book (e.probe v.hash) v ∨ s.book.LeafPanics env (e.probe v.hash) v)) := by
  intro s hv
  have hindexed : Indexed (s.step env e).book := (indexed_live env n ls).step he
  have hstands : Stands (s.step env e).book v ↔ (s.step env e).book.dag.getVertex v.hash = some v :=
    ⟨fun h => h.1, fun h => ⟨h, hindexed v h⟩⟩
  rw [hstands]
  constructor
  · intro hsafe
    refine step_keeps (I := fun _ => True) (W := v.weight.toNat + s.book.throughput.toNat)
      (fun _ _ => trivial) he hv.leaf.1 trivial fun hlook => ?_
    have hlook := hsafe hlook
    exact ⟨⟨(isValidWeight_iff _ _).mp hv.weight, hlook.leaves, hlook.room⟩, hlook.firm hv⟩
  · intro hfirst
    rw [hfirst.getVertex hv.leaf, validateLeaf_iff_quiet hv]

/-! ### Losing a payment -/

namespace Transparent

/-- A payment out of the genesis funds, and a vertex below it. -/
def payment : Vertex := sealed (trx (wallet 7) (wallet 8) ⟨4, 0⟩ [] 3) (root 10) (root 10) 1 4

def follower : Vertex := sealed (trx (wallet 8) (wallet 9) ⟨1, 0⟩ [] 5) payment (root 10) 2 6

/-- The payment gets in, and the vertex below it waits for the lock. -/
def paying : List Life :=
  .genesis (genesisSpec 10) false :: (addEvents payment ++ [Event.beginAdd follower .none]).map Life.call

def paid : Node := run (Node.live (env hub)) (Node.fresh 0) paying

/-- The vertex below the payment gets the lock; the validation of the payment finds its context cancelled
    at the given iteration. -/
def follow (cancelAt : Option ℕ) : Event :=
  .finishAdd (newMemory follower) (fun _ => ⟨[], cancelAt, false, false⟩) .none

theorem paid_ancestors : paid.book.dag.graph.ancestors payment.hash = [(root 10).hash] := by
  decide +kernel

theorem payment_conditions : LeafConditions (env hub) paid.book payment := by
  have hfacts : paid.book.dag.getVertex payment.hash = some payment ∧
      paid.book.dag.graph.isLeaf payment.hash = true ∧ paid.book.isValidWeight payment.weight = true ∧
      payment.verify verifier = true ∧ payment.transaction.isSpiceTransfer = true ∧
      payment.signerPublicAddress ∉ paid.book.trustedNodesDB ∧
      paid.book.validateFunds (env hub) (.calm []) payment = .ok () := by
    decide +kernel
  obtain ⟨hget, hleaf, hweight, hverify, hspice, htrust, hfunds⟩ := hfacts
  exact ⟨⟨hget, Digraph.isLeaf_iff.mp hleaf⟩, hweight, hverify,
    .inr (.inr ⟨⟨hspice, htrust⟩, fundsPass_of_validateFunds hfunds⟩)⟩

end Transparent

open Transparent in
/-- BUG: a funded payment is deleted from the graph and from the index because the call that would build
    on it is cancelled while it validates the payment. -/
theorem payment_lost :
    LeafConditions (env hub) paid.book payment ∧ (follow (some 0)).Ordinary ∧
      Stands paid.book payment ∧
      (paid.step (env hub) (follow (some 0))).book.dag.getVertex payment.hash = none ∧
      (paid.step (env hub) (follow (some 0))).book.trxsToVertxDB.lookup payment.transaction.hash = none := by
  refine ⟨payment_conditions, trivial, ?_⟩
  unfold Stands
  decide +kernel

open Transparent in
/-- The law at the same call with a context that lives. -/
theorem payment_stands :
    (paid.step (env hub) (follow none)).book.dag.getVertex follower.hash = some follower ∧
      Stands (paid.step (env hub) (follow none)).book payment := by
  have hnew : (paid.step (env hub) (follow none)).book.dag.getVertex follower.hash = some follower ∧
      paid.book.dag.getVertex (root 10).hash = some (root 10) ∧
      (root 10).verify verifier = true ∧ .add (newMemory follower) ∈ paid.pending ∧
      follower.leftParentHash = payment.hash ∧ follower.rightParentHash ≠ payment.hash := by
    decide +kernel
  obtain ⟨hnew, hroot, hverify, hpending, hleft, hright⟩ := hnew
  have hids : ∀ {ids : List Hash}, Enumerates paid.book.dag payment.hash ids → ids = [(root 10).hash] := by
    intro ids h
    refine List.perm_singleton.mp ((List.perm_ext_iff_of_nodup h.nodup (by simp)).mpr fun x => ?_)
    rw [h.mem, ← paid_ancestors, Digraph.mem_ancestors]
  have hclear : (Probe.mk [] none false false).Clear (env hub) paid.book payment := by
    refine ⟨rfl, fun j hj => (nomatch hj), fun u hu hanc _ => ?_, fun ids h hpass => ?_⟩
    · have hkey := Digraph.mem_ancestors.mpr hanc
      rw [paid_ancestors, List.mem_singleton] at hkey
      rw [hkey, hroot] at hu
      cases hu
      exact hverify
    · rwa [hids (enumerates_walk _ _ _), ← hids h]
  have hlaw := valid_leaf_kept (env hub) 0 paying (v := payment) (e := follow none) trivial
    payment_conditions
  exact ⟨hnew, (hlaw.2 ⟨hpending, hleft, hright⟩).mpr (.inl (.inr ⟨rfl, fun _ => hclear⟩))⟩

end Computantis
