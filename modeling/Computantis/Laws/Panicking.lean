import Computantis.Laws.Validated

/-! @law panicking | name:Where verification panics in the ledger | family:safety | about:Model/Ledger

    `Verify` panics over an address with a key of the wrong size, and the ledger calls it on three kinds of
    vertices: on one that is added, when everything before has passed, on a leaf that is built on, and on the
    parents of such a leaf. In a graph without vertices of that kind (`Sturdy`) a call panics only over the
    vertex that it is given.

        AddLeaf      vertex ──▶ parents that are leaves ──▶ their parents
        CreateLeaf              leaves                  ──▶ their parents -/

namespace Computantis

open Schemes

/-! ### Results -/

section Results

variable {α β : Type}

@[simp] theorem crashed_ok (a : α) : crashed (.ok a : Except Err α) = false := rfl

@[simp] theorem crashed_error (e : Err) : crashed (.error e : Except Err α) = decide (.panicked ∈ e) := rfl

theorem crashed_map (x : Except Err α) (f : α → β) : crashed (x.map f) = crashed x := by
  cases x <;> rfl

theorem crashed_bind {x : Except Err α} {f : α → Except Err β} (hx : crashed x = false)
    (hf : ∀ a, crashed (f a) = false) : crashed (x.bind f) = false := by
  cases x with
  | error e => exact hx
  | ok a => exact hf a

theorem Verdict.mem_refusal {d : Verdict} {e : Err} (he : .panicked ∉ e) : .panicked ∈ d.refusal e ↔ d = .panicked := by
  unfold refusal
  split
  next h => simp [h]
  next h => simp [h, he]

end Results

/-! ### What does not verify returns -/

section Returns

variable (env : Env) (b : Book)

theorem supplyPot_returns (m amount : Melange) : crashed (supplyPot m amount) = false := by
  unfold supplyPot
  split <;> simp

theorem pourFunds_returns (issuer : Address) (vrx : Vertex) (pots : Pots) :
    crashed (pourFunds issuer vrx pots) = false := by
  unfold pourFunds
  split
  · rfl
  · refine crashed_bind ?_ fun pots => ?_
    · split
      · rw [crashed_map]
        exact supplyPot_returns _ _
      · rfl
    · split
      · rw [crashed_map]
        exact supplyPot_returns _ _
      · rfl

theorem openPots_returns (leaf : Vertex) (fails : Bool) : crashed (b.openPots env leaf fails) = false := by
  unfold Book.openPots
  split
  · simp
  · split
    · simp
    · exact pourFunds_returns _ _ _

theorem checkHasSufficientfunds_returns (pots : Pots) : crashed (checkHasSufficientfunds pots) = false := by
  unfold checkHasSufficientfunds
  split <;> simp

theorem checkIsTrustedNode_returns (a : Address) (fails : Bool) : crashed (b.checkIsTrustedNode a fails) = false := by
  unfold Book.checkIsTrustedNode
  split <;> simp

theorem checkVertexExists_returns (k : Hash) (fails : Bool) : crashed (b.checkVertexExists k fails) = false := by
  unfold Book.checkVertexExists Book.checkVertexExistInStorage
  repeat' split
  all_goals simp

theorem checkTrxInVertexExists_returns (k : Hash) (fails : Bool) :
    crashed (b.checkTrxInVertexExists k fails) = false := by
  unfold Book.checkTrxInVertexExists
  split <;> simp

theorem saveTrxInVertex_returns (trxHash vrxHash : Hash) (fails : Bool) :
    crashed (b.saveTrxInVertex trxHash vrxHash fails) = false := by
  unfold Book.saveTrxInVertex
  repeat' split
  all_goals simp

theorem insertVertex_returns (leaf : Vertex) (parents : List Vertex) (faults : Faults) {onSave : Err → Err}
    {rejected : Err} (hsave : ∀ e, .panicked ∉ e → .panicked ∉ onSave e) (hrejected : .panicked ∉ rejected) :
    crashed (b.insertVertex leaf parents faults onSave rejected).2 = false := by
  unfold Book.insertVertex
  have hstore := saveTrxInVertex_returns b leaf.transaction.hash leaf.hash faults.saveTrx
  split
  next e he =>
    rw [he] at hstore
    simpa using hsave e (by simpa using hstore)
  · split
    · simpa using hrejected
    · split
      · simpa using hrejected
      · simp

theorem createLeafChecks_returns (trx : Transaction) (faults : Faults) :
    crashed (b.createLeafChecks env trx faults) = false := by
  unfold Book.createLeafChecks
  repeat' split
  all_goals simp

theorem createLeafChecks_loaded {env : Env} {b : Book} {trx : Transaction} {faults : Faults}
    (h : b.createLeafChecks env trx faults = .ok ()) : b.dagLoaded = true := by
  unfold Book.createLeafChecks at h
  split at h
  · cases h
  next hloaded => simpa using hloaded

theorem addLeafGuard_returns (leaf : Vertex) : crashed (b.addLeafGuard leaf) = false := by
  unfold Book.addLeafGuard
  repeat' split
  all_goals simp

end Returns

/-! ### The vertex that is added -/

/-- `addLeafMemorized` gets as far as the signatures of the vertex. -/
structure ReachesVerify (b : Book) (v : Vertex) (faults : Faults) : Prop where
  notGenesis : v.transaction.issuerAddress ≠ b.genesisPublicAddress
  fresh : b.checkVertexExists v.hash faults.checkVertex = .ok false
  unused : b.checkTrxInVertexExists v.transaction.hash faults.checkTrx = .ok false

/-- `AddLeaf` comes to the signatures of its vertex, and `Verify` panics over them. -/
def AddPanics (env : Env) (b : Book) (v : Vertex) (faults : Faults) : Prop :=
  b.addLeafGuard v = .ok () ∧ ReachesVerify b v faults ∧ v.check env.verifier = .panicked

theorem addLeafChecks_panics_iff {env : Env} {b : Book} {v : Vertex} {faults : Faults} :
    crashed (b.addLeafChecks env v faults) = true ↔
      ReachesVerify b v faults ∧ v.check env.verifier = .panicked := by
  unfold Book.addLeafChecks
  split
  next hgenesis => exact iff_of_false (by simp) fun h => h.1.notGenesis hgenesis
  next hgenesis =>
    have hvertex := checkVertexExists_returns b v.hash faults.checkVertex
    have htrx := checkTrxInVertexExists_returns b v.transaction.hash faults.checkTrx
    split
    next e he =>
      rw [he] at hvertex
      exact iff_of_false (by simpa using hvertex) fun h => by cases he.symm.trans h.1.fresh
    next hknown => exact iff_of_false (by simp) fun h => by cases hknown.symm.trans h.1.fresh
    next hfresh =>
      split
      next e he =>
        rw [he] at htrx
        exact iff_of_false (by simpa using htrx) fun h => by cases he.symm.trans h.1.unused
      next hused => exact iff_of_false (by simp) fun h => by cases hused.symm.trans h.1.unused
      next hunused =>
        have hreaches : ReachesVerify b v faults := ⟨hgenesis, hfresh, hunused⟩
        simp only [hreaches, true_and]
        split
        next hv => simp [Vertex.check_eq_accepted_iff.mpr hv]
        next hv => simp [Verdict.mem_refusal]

/-! ### A graph without vertices that panic -/

/-- `Verify` panics over no vertex of the graph. -/
def Book.Sturdy (env : Env) (b : Book) : Prop :=
  ∀ k v, b.dag.getVertex k = some v → v.check env.verifier ≠ .panicked

namespace Book.Sturdy

variable {env : Env} {b : Book}

theorem discard (h : b.Sturdy env) (u : Vertex) (faults : Faults) : (b.discard u faults).Sturdy env := by
  intro k v hv
  rw [discard_getVertex] at hv
  split at hv
  · cases hv
  · exact h k v hv

theorem walkFunds_returns (h : b.Sturdy env) (leaf : Vertex) (cancelAt : Option ℕ) (ids : List Hash) :
    ∀ (i : ℕ) (visited : List Hash) (pots : Pots),
      crashed (walkFunds env b.dag leaf cancelAt ids i visited pots) = false := by
  induction ids with
  | nil => exact fun _ _ _ => rfl
  | cons id ids ih =>
    intro i visited pots
    rw [walkFunds]
    split
    · simp
    · split
      · exact ih _ _ _
      · split
        · simp
        next vrx hvrx =>
          have hrefused : .panicked ∉ (vrx.check env.verifier).refusal [.errLeafRejected, .verification] := by
            rw [Verdict.mem_refusal (by simp)]
            exact h _ _ hvrx
          have hpour := pourFunds_returns leaf.transaction.issuerAddress vrx pots
          split
          · simpa using hrefused
          · split
            · simpa using hrefused
            · split
              next e he =>
                rw [he] at hpour
                simpa using hpour
              · exact ih _ _ _

theorem validateFunds_returns (h : b.Sturdy env) (p : Probe) (v : Vertex) :
    crashed (b.validateFunds env p v) = false := by
  unfold Book.validateFunds
  have hopen := openPots_returns env b v p.fundsFails
  split
  next e he =>
    rw [he] at hopen
    simpa using hopen
  next start hstart =>
    have hwalk := h.walkFunds_returns v p.cancelAt (arrange p.order (b.dag.graph.ancestors v.hash)) 0 [] start
    split
    next e he =>
      rw [he] at hwalk
      simpa using hwalk
    next pots hpots =>
      have hcheck := checkHasSufficientfunds_returns pots
      split
      next e he =>
        rw [he] at hcheck
        simpa using hcheck
      · simp

theorem validateLeaf_returns (h : b.Sturdy env) (p : Probe) {v : Vertex} (hv : v.check env.verifier ≠ .panicked) :
    crashed (b.validateLeaf env p v) = false := by
  unfold Book.validateLeaf
  split
  · simp
  · split
    · simp [Verdict.mem_refusal, hv]
    · split
      · simp
      · split
        · simp
        · have htrusted := checkIsTrustedNode_returns b v.signerPublicAddress p.trustedFails
          split
          next e he =>
            rw [he] at htrusted
            simpa using htrusted
          · split
            · split
              · simp
              · split <;> simp
            · exact h.validateFunds_returns p v

theorem checkParents_returns (m : Memory) (probe : Hash → Probe) (faults : Faults) (hashes : List Hash) :
    ∀ (acc : List Vertex) {b : Book}, b.Sturdy env →
      crashed (b.checkParents env m probe faults hashes acc).2 = false := by
  induction hashes with
  | nil => exact fun _ _ _ => rfl
  | cons hash rest ih =>
    intro acc b h
    rw [Book.checkParents]
    split
    · split <;> simp
    next u hu =>
      split
      · have hval := h.validateLeaf_returns (probe hash) (h _ _ hu)
        split
        next e he =>
          rw [he] at hval
          simpa using hval
        · exact ih _ h
      · exact ih _ h

/-- RUN (leaf loop): the error that it reports is one that was returned. -/
theorem pickLeaves_returns (probe : Hash → Probe) (faults : Faults) (todo : List Vertex) :
    ∀ (found : List Vertex) (err : Option Err) {b : Book}, b.Sturdy env →
      (∀ v ∈ todo, v.check env.verifier ≠ .panicked) → (∀ e ∈ err, .panicked ∉ e) →
      ∀ e ∈ (Book.pickLeaves env probe faults todo found err b).2.2, .panicked ∉ e := by
  induction todo with
  | nil => exact fun _ _ _ _ _ herr => herr
  | cons u todo ih =>
    intro found err b h htodo herr
    have hrest : ∀ v ∈ todo, v.check env.verifier ≠ .panicked := fun v hv => htodo v (List.mem_cons_of_mem _ hv)
    have hval := h.validateLeaf_returns (probe u.hash) (htodo u (List.mem_cons_self ..))
    rw [Book.pickLeaves]
    split
    · exact herr
    · split
      next e he =>
        rw [he, crashed_error, decide_eq_false_iff_not] at hval
        rw [if_neg hval]
        refine ih _ _ (h.discard u faults) hrest ?_
        rintro _ ⟨⟩
        exact hval
      · exact ih _ _ h hrest fun _ hnone => by cases hnone

theorem createLeaf_returns (h : b.Sturdy env) (hsome : b.dagLoaded = true → ∃ k, k ∈ b.dag.graph.nodes)
    (trx : Transaction) (first second : Book.Pass) (now : Time) (faults : Faults) :
    (b.createLeaf env trx first second now faults).2 ≠ .panicked ∧
      ∀ e, (b.createLeaf env trx first second now faults).2 = .failed e → .panicked ∉ e := by
  have hchecks := createLeafChecks_returns env b trx faults
  unfold Book.createLeaf
  split
  next e he =>
    rw [he, crashed_error, decide_eq_false_iff_not] at hchecks
    refine ⟨by simp, ?_⟩
    rintro _ ⟨⟩
    exact hchecks
  next hpassed =>
    obtain ⟨k, hk⟩ := hsome (createLeafChecks_loaded hpassed)
    refine ⟨createLeafLocked_ne_panicked env faults b trx first second now hk, ?_⟩
    have hnil := getValidLeaves_ne_nil env faults b first hk
    have herr : ∀ e ∈ (b.getValidLeaves env first faults).2.2, .panicked ∉ e :=
      pickLeaves_returns first.probe faults _ [] none h
        (fun v hv => h _ _ ((leaves_snapshot b first.order).2 v hv).1) (by simp)
    unfold Book.createLeafLocked
    generalize b.getValidLeaves env first faults = res at hnil herr
    obtain ⟨b1, found, err⟩ := res
    cases err with
    | some e =>
      rintro _ ⟨⟩
      exact herr e rfl
    | none =>
      cases found with
      | nil => exact absurd rfl hnil
      | cons l rest =>
        have hins : crashed (b1.insertVertex (Book.tip env trx l (rest.headD l) now) [l, rest.headD l] faults
            (fun _ => [.errUnexpected]) [.errNewLeafRejected]).2 = false :=
          insertVertex_returns b1 _ _ faults (by simp) (by simp)
        simp only [Book.sealTip]
        split
        next e he =>
          rw [he] at hins
          rintro _ ⟨⟩
          simpa using hins
        · rintro _ ⟨⟩

theorem addLeaf_panics_iff (h : b.Sturdy env) (v : Vertex) (probe : Hash → Probe) (faults : Faults) :
    crashed (b.addLeaf env v probe faults).2 = true ↔ AddPanics env b v faults := by
  have hguard := addLeafGuard_returns b v
  unfold Book.addLeaf AddPanics
  cases hpassed : b.addLeafGuard v with
  | error e =>
    rw [hpassed] at hguard
    exact iff_of_false (by simpa using hguard) (by simp)
  | ok _ =>
    rw [← addLeafChecks_panics_iff]
    simp only [true_and, Book.addLeafMemorized]
    cases hchecks : b.addLeafChecks env (newMemory v).vrx faults with
    | error e => rw [show b.addLeafChecks env v faults = .error e from hchecks]
    | ok _ =>
      -- past the checks nothing panics
      rw [show b.addLeafChecks env v faults = .ok _ from hchecks]
      have hparents := checkParents_returns (newMemory v) probe faults (newMemory v).vrx.parentHashes [] h
      refine iff_of_false ?_ (by simp)
      simp only [Bool.not_eq_true, Book.addLeafLocked]
      generalize b.checkParents env (newMemory v) probe faults (newMemory v).vrx.parentHashes [] = res at hparents
      obtain ⟨b1, e | us⟩ := res
      · exact hparents
      · exact insertVertex_returns b1 v us faults (by simp) (by simp)

end Book.Sturdy

end Computantis
