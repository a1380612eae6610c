import Computantis.Laws.Failing

/-! @law picking | name:One bad leaf fails another's transaction | family:order | about:Model/Ledger

    `getValidLeaves` goes through the leaves until two have passed, discards those that fail, and keeps one error
    for all of them: the next verdict overwrites it. A leaf over which `Verify` panics ends the loop. So what it
    reports is the verdict on the leaf that it came to last (`getValidLeaves_eq`), and `CreateLeaf` gives up on it
    even when a leaf has passed before. The second attempt is made only when there was neither a leaf nor an
    error, which is to say on an empty graph, and it never succeeds (`createLeaf_done_iff`).

        leaves   ok   bad        ok   bad  ok       bad
        err      nil  e          nil  e    nil      e
                      ▲ failed             ▲ done   ▲ failed, no second attempt -/

namespace Computantis

open Schemes

/-! ### The verdicts of one pass -/

/-- The verdicts that the loop of `getValidLeaves` comes to after `n` leaves have passed; a panic is the last. -/
def verdicts (env : Env) (probe : Hash → Probe) (faults : Faults) :
    List Vertex → ℕ → Book → List (Vertex × Except Err Unit)
  | [], _, _ => []
  | vrx :: rest, n, b =>
    if n = 2 then []
    else match b.validateLeaf env (probe vrx.hash) vrx with
      | .error e => (vrx, .error e) ::
          if .panicked ∈ e then []
          else verdicts env probe faults rest n ((b.discard vrx faults).updateWeightAndThroughput vrx.weight)
      | .ok () => (vrx, .ok ()) :: verdicts env probe faults rest (n + 1) b

/-- The leaves that have passed. -/
def passing (vs : List (Vertex × Except Err Unit)) : List Vertex := (vs.filter fun p => p.2.isOk).map Prod.fst

/-- The error that the loop reports: each verdict overwrites the one before. -/
def reportedErr (err : Option Err) (vs : List (Vertex × Except Err Unit)) : Option Err :=
  vs.foldl (fun _ p => match p.2 with
    | .error e => some e
    | .ok () => none) err

/-- The last leaf that the loop comes to passes. -/
def LastPasses (vs : List (Vertex × Except Err Unit)) : Prop := ∃ v, vs.getLast? = some (v, .ok ())

/-- The verdicts of one pass over the leaves. -/
def Book.passVerdicts (env : Env) (b : Book) (pass : Book.Pass) (faults : Faults) :
    List (Vertex × Except Err Unit) :=
  verdicts env pass.probe faults ((enumerate pass.order b.dag.graph.leaves).filterMap b.dag.getVertex) 0 b

section Verdicts

variable {env : Env} {faults : Faults}

theorem mem_passing {vs : List (Vertex × Except Err Unit)} {v : Vertex} :
    v ∈ passing vs ↔ (v, .ok ()) ∈ vs := by
  simp only [passing, List.mem_map, List.mem_filter]
  constructor
  · rintro ⟨⟨u, verdict⟩, ⟨hmem, hok⟩, rfl⟩
    cases verdict with
    | error e => cases hok
    | ok _ => exact hmem
  · intro hmem
    exact ⟨_, ⟨hmem, rfl⟩, rfl⟩

theorem reportedErr_eq_none (vs : List (Vertex × Except Err Unit)) (err : Option Err) :
    reportedErr err vs = none ↔ vs = [] ∧ err = none ∨ LastPasses vs := by
  induction vs using List.reverseRecOn with
  | nil => simp [reportedErr, LastPasses]
  | append_singleton vs p _ =>
    obtain ⟨v, verdict⟩ := p
    rw [reportedErr, List.foldl_append, LastPasses]
    cases verdict <;> simp

theorem pickLeaves_eq (probe : Hash → Probe) (todo : List Vertex) :
    ∀ (found : List Vertex) (err : Option Err) (b : Book),
      (Book.pickLeaves env probe faults todo found err b).2 =
        (found ++ passing (verdicts env probe faults todo found.length b),
          reportedErr err (verdicts env probe faults todo found.length b)) := by
  induction todo with
  | nil =>
    intro found err b
    simp [Book.pickLeaves, verdicts, passing, reportedErr]
  | cons u todo ih =>
    intro found err b
    rw [Book.pickLeaves, verdicts]
    by_cases hlen : found.length = 2
    · simp [hlen, passing, reportedErr]
    · rw [if_neg hlen, if_neg hlen]
      cases b.validateLeaf env (probe u.hash) u with
      | error e =>
        simp only
        split
        · simp [passing, reportedErr, Except.isOk, Except.toBool]
        · rw [ih]
          simp [passing, reportedErr, Except.isOk, Except.toBool]
      | ok _ =>
        rw [ih]
        simp [passing, reportedErr, Except.isOk, Except.toBool]

theorem getValidLeaves_eq (env : Env) (b : Book) (pass : Book.Pass) (faults : Faults) :
    (b.getValidLeaves env pass faults).2 =
      (passing (b.passVerdicts env pass faults), reportedErr none (b.passVerdicts env pass faults)) := by
  rw [Book.getValidLeaves, pickLeaves_eq, List.nil_append]
  rfl

/-- RUN (leaf loop): a transaction that the index does not have, it does not get. -/
theorem pickLeaves_unused (probe : Hash → Probe) {t : Hash} (todo : List Vertex) :
    ∀ (found : List Vertex) (err : Option Err) (b : Book), b.trxsToVertxDB.lookup t = none →
      (Book.pickLeaves env probe faults todo found err b).1.trxsToVertxDB.lookup t = none := by
  induction todo with
  | nil => exact fun _ _ _ h => h
  | cons u todo ih =>
    intro found err b h
    rw [Book.pickLeaves]
    split
    · exact h
    · split
      · split
        · exact h
        refine ih _ _ _ ?_
        rw [updateWeight_trxs, discard_trxs, unmapped]
        split
        · exact h
        · by_cases ht : t = u.transaction.hash
          · rw [ht, AList.lookup_erase]
          · rw [AList.lookup_erase_ne ht, h]
      · exact ih _ _ _ h

end Verdicts

/-! ### When a transaction gets its vertex -/

section Creating

variable {env : Env} {b : Book} {trx : Transaction} {first second : Book.Pass} {now : Time}

/-- The book is loaded, and the transaction is not empty, not yet used and neither of the node nor of the genesis
    wallet. -/
structure Creatable (env : Env) (b : Book) (trx : Transaction) : Prop where
  loaded : b.dagLoaded = true
  nonempty : trx.isEmpty = false
  notNode : trx.issuerAddress ≠ env.signer.address
  notGenesis : trx.issuerAddress ≠ b.genesisPublicAddress
  unused : b.trxsToVertxDB.lookup trx.hash = none

theorem Creatable.checks (h : Creatable env b trx) : b.createLeafChecks env trx .none = .ok () := by
  simp [Book.createLeafChecks, h.loaded, h.nonempty, h.notNode, h.notGenesis, Book.checkTrxInVertexExists, Faults.none,
    h.unused]

/-- SPEC (insertion): with a store that works and known parents, it succeeds exactly with a new hash. -/
theorem insertVertex_ok_iff {leaf l r : Vertex} {onSave : Err → Err} {rejected : Err}
    (hunused : b.trxsToVertxDB.lookup leaf.transaction.hash = none) (hl : l.hash ∈ b.dag.graph.nodes)
    (hr : r.hash ∈ b.dag.graph.nodes) (left : leaf.leftParentHash = l.hash) (right : leaf.rightParentHash = r.hash) :
    (b.insertVertex leaf [l, r] .none onSave rejected).2 = .ok () ↔ leaf.hash ∉ b.dag.graph.nodes := by
  have hsave : b.saveTrxInVertex leaf.transaction.hash leaf.hash Faults.none.saveTrx =
      .ok { b with trxsToVertxDB := b.trxsToVertxDB.insert leaf.transaction.hash leaf.hash } := by
    simp [Book.saveTrxInVertex, Faults.none, hunused]
  rw [Book.insertVertex, hsave]
  cases hadd : b.dag.addVertexByID leaf with
  | none => simp [hadd, Dag.addVertexByID_eq_none.mp hadd]
  | some d =>
    have hnew : leaf.hash ∉ b.dag.graph.nodes := by
      intro hmem
      rw [Dag.addVertexByID_eq_none.mpr hmem] at hadd
      cases hadd
    obtain ⟨d', hd', -⟩ := addEdges_grown (Digraph.Grown.of_addNode (Dag.addVertexByID_eq_some hadd)) hl hr left right
    simp [hadd, hd', hnew]

theorem sealTip_done_iff {l r : Vertex} (hunused : b.trxsToVertxDB.lookup trx.hash = none)
    (hl : l.hash ∈ b.dag.graph.nodes) (hr : r.hash ∈ b.dag.graph.nodes) (tip : Vertex) :
    (∃ b', b.sealTip env trx l r now .none = (b', .done tip)) ↔
      tip = Book.tip env trx l r now ∧ tip.hash ∉ b.dag.graph.nodes := by
  have hinsert : (b.insertVertex (Book.tip env trx l r now) [l, r] .none (fun _ => [.errUnexpected])
      [.errNewLeafRejected]).2 = .ok () ↔ (Book.tip env trx l r now).hash ∉ b.dag.graph.nodes :=
    insertVertex_ok_iff hunused hl hr rfl rfl
  rw [Book.sealTip]
  generalize b.insertVertex (Book.tip env trx l r now) [l, r] .none (fun _ => [.errUnexpected])
    [.errNewLeafRejected] = res at hinsert
  obtain ⟨b1, verdict⟩ := res
  cases verdict with
  | error e =>
    have hknown : (Book.tip env trx l r now).hash ∈ b.dag.graph.nodes := by
      by_contra hnew
      cases hinsert.mpr hnew
    constructor
    · rintro ⟨b', hdone⟩
      cases hdone
    · rintro ⟨rfl, hnew⟩
      exact absurd hknown hnew
  | ok _ =>
    constructor
    · rintro ⟨b', hdone⟩
      cases hdone
      exact ⟨rfl, hinsert.mp rfl⟩
    · rintro ⟨rfl, -⟩
      exact ⟨b1, rfl⟩

/-- EXACT (`CreateLeaf`): it makes a tip exactly when the last leaf that the first pass comes to passes, below the
    first two that have passed and with a new hash. -/
theorem createLeaf_done_iff (h : Creatable env b trx) (tip : Vertex) :
    (∃ b', b.createLeaf env trx first second now .none = (b', .done tip)) ↔
      LastPasses (b.passVerdicts env first .none) ∧ ∃ l rest, passing (b.passVerdicts env first .none) = l :: rest ∧
        tip = Book.tip env trx l (rest.headD l) now ∧
        tip.hash ∉ (b.getValidLeaves env first .none).1.dag.graph.nodes := by
  have hleaves := (getValidLeaves_moves env .none b first).2
  have hunused : (b.getValidLeaves env first .none).1.trxsToVertxDB.lookup trx.hash = none :=
    pickLeaves_unused first.probe _ [] none b h.unused
  have hspec := getValidLeaves_eq env b first .none
  rw [Book.createLeaf, h.checks]
  simp only [Book.createLeafLocked]
  generalize b.getValidLeaves env first .none = res at hleaves hunused hspec ⊢
  obtain ⟨b1, found, err⟩ := res
  obtain ⟨rfl, rfl⟩ := Prod.mk.inj hspec
  have hreported := reportedErr_eq_none (b.passVerdicts env first .none) none
  cases herr : reportedErr none (b.passVerdicts env first .none) with
  | some e =>
    -- the last verdict is an error, and `CreateLeaf` returns it
    have hlast : ¬ LastPasses (b.passVerdicts env first .none) := by
      intro hlast
      rw [hreported.mpr (Or.inr hlast)] at herr
      cases herr
    simp [hlast]
  | none =>
    cases hpassing : passing (b.passVerdicts env first .none) with
    | nil =>
      -- without a leaf the second attempt is made, and it never ends with a tip
      simp only [reduceCtorEq, false_and, exists_false, and_false, iff_false]
      rintro ⟨b', hdone⟩
      generalize b1.getValidLeaves env second .none = res at hdone
      obtain ⟨b2, found, _ | e⟩ := res
      · cases found <;> cases hdone
      · cases hdone
    | cons l rest =>
      have hnode : ∀ v ∈ passing (b.passVerdicts env first .none), v.hash ∈ b1.dag.graph.nodes := fun v hv =>
        Dag.mem_nodes ((hleaves v hv).2.1.1)
      rw [hpassing] at hnode
      have hr : rest.headD l ∈ l :: rest := by cases rest <;> simp
      have hlast : LastPasses (b.passVerdicts env first .none) := by
        refine (hreported.mp herr).resolve_left ?_
        rintro ⟨hnil, -⟩
        rw [hnil] at hpassing
        cases hpassing
      simp only
      rw [sealTip_done_iff hunused (hnode l (List.mem_cons_self ..)) (hnode _ hr) tip]
      constructor
      · rintro ⟨htip, hnew⟩
        exact ⟨hlast, l, rest, rfl, htip, hnew⟩
      · rintro ⟨-, l', rest', heq, htip, hnew⟩
        cases heq
        exact ⟨htip, hnew⟩

/-- The hash of the tip below the leaves that have passed is new. -/
def TipNew (env : Env) (b : Book) (trx : Transaction) (first : Book.Pass) (now : Time) : Prop :=
  ∀ l rest, passing (b.passVerdicts env first .none) = l :: rest →
    (Book.tip env trx l (rest.headD l) now).hash ∉ (b.getValidLeaves env first .none).1.dag.graph.nodes

/-- Some leaf of the book passes validation. -/
def SomeLeafPasses (env : Env) (b : Book) (pass : Book.Pass) : Prop :=
  ∃ v, IsLeafOf b v ∧ b.validateLeaf env (pass.probe v.hash) v = .ok ()

/-- Bad leaves do no harm: when some leaf passes, the transaction gets a vertex below leaves that passed; and when
    none does, but one of those that are leaves after the first pass, it gets a vertex too. -/
structure OthersHarmless (env : Env) (b : Book) (trx : Transaction) (first second : Book.Pass) (now : Time) :
    Prop where
  passes : SomeLeafPasses env b first → ∃ b' tip, b.createLeaf env trx first second now .none = (b', .done tip) ∧
    ∀ p ∈ tip.parentHashes, ∃ v, IsLeafOf b v ∧ v.hash = p ∧ (v, .ok ()) ∈ b.passVerdicts env first .none
  exposes : ¬ SomeLeafPasses env b first → SomeLeafPasses env (b.getValidLeaves env first .none).1 second →
    ∃ b' tip, b.createLeaf env trx first second now .none = (b', .done tip)

theorem LastPasses.passing_ne_nil {vs : List (Vertex × Except Err Unit)} (h : LastPasses vs) : passing vs ≠ [] := by
  obtain ⟨v, hlast⟩ := h
  exact List.ne_nil_of_mem (mem_passing.mpr (List.mem_of_getLast? hlast))

theorem createLeaf_succeeds_iff (second : Book.Pass) (h : Creatable env b trx) :
    (∃ b' tip, b.createLeaf env trx first second now .none = (b', .done tip)) ↔
      LastPasses (b.passVerdicts env first .none) ∧ TipNew env b trx first now := by
  rw [exists_comm]
  simp only [createLeaf_done_iff h]
  constructor
  · rintro ⟨tip, hlast, l, rest, hpassing, rfl, hnew⟩
    refine ⟨hlast, ?_⟩
    intro l' rest' heq
    cases hpassing.symm.trans heq
    exact hnew
  · rintro ⟨hlast, hnew⟩
    obtain ⟨l, rest, hpassing⟩ := List.exists_cons_of_ne_nil hlast.passing_ne_nil
    exact ⟨_, hlast, l, rest, hpassing, rfl, hnew l rest hpassing⟩

end Creating

/-! ### A good leaf and a bad one -/

namespace Transparent

/-- Four of the ten of `wallet 7`, and two that `wallet 9` does not have. -/
def goodLeaf : Vertex := sealed (trx (wallet 7) (wallet 8) ⟨4, 0⟩ [] 3) (root 10) (root 10) 1 4
def badLeaf : Vertex := sealed (trx (wallet 9) (wallet 8) ⟨2, 0⟩ [] 5) (root 10) (root 10) 1 6

def bothLeaves : Book := (run (Node.step (env hub)) (start 10) (addEvents goodLeaf ++ addEvents badLeaf)).book

def badAlone : Book := (run (Node.step (env hub)) (start 10) (addEvents badLeaf)).book

/-- A bargain without spice. -/
def bargain : Transaction := trx (wallet 8) (wallet 6) ⟨0, 0⟩ [1] 7

/-- The leaves in the given order. -/
def inOrder (vs : List Vertex) : Book.Pass := ⟨vs.map Vertex.hash, fun _ => .calm []⟩

end Transparent

end Computantis
