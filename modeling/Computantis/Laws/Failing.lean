import Computantis.Laws.Awaiting
import Computantis.Laws.Validated

/-! @law failing | name:What a failed request leaves behind | family:atomicity | about:Model/Service

    A handler works through cache, ledger and pipe without taking anything back. So a request that fails
    has changed nothing exactly when it fails before its first change: before the transaction is put into
    the cache or taken out of it, and in the ledger before a leaf is discarded or the new transaction gets
    its index entry. The ledger takes back one thing only, the index entry of a tip that the graph refuses.

        Propose (contract)   save ─✗─ index entries
        Confirm, Reject      remove ─✗─ index entries ─✗─ CreateLeaf ─✗─ pipe
        Propose (payment)    leaves ─✗─ index ─(undone)─ graph ─✗─ pipe -/

namespace Computantis

open Schemes

/-! ### The cache -/

section Cache

variable {codec : TrxCodec} {f : CacheFaults} {mem mem' : BigCache} {hash : Hash} {address : Address}
  {trx : Transaction}

/-- No reader and no remover tells the two stores apart. -/
structure SameSeen (codec : TrxCodec) (mem mem' : BigCache) : Prop where
  read : ∀ a, (readTransactions codec .none mem' a).2 = (readTransactions codec .none mem a).2
  remove : ∀ hash a,
    (removeAwaitedTransaction codec .none mem' hash a).2 = (removeAwaitedTransaction codec .none mem hash a).2

theorem SameSeen.refl (codec : TrxCodec) (mem : BigCache) : SameSeen codec mem mem :=
  ⟨fun _ => rfl, fun _ _ => rfl⟩

theorem remove_notFound_iff (codec : TrxCodec) (mem : BigCache) (hash : Hash) (address : Address) :
    (removeAwaitedTransaction codec .none mem hash address).2 = .error .errTransactionNotFound ↔
      mem.lookup (encodeTrxKey hash) = none := by
  unfold removeAwaitedTransaction
  simp only [BigCache.get, BigCache.delete, CacheFaults.none, Bool.false_eq_true, if_false]
  cases hlook : mem.lookup (encodeTrxKey hash) with
  | none => simp
  | some raw =>
    cases hdec : codec.decode raw with
    | none => simp [hdec]
    | some trx => by_cases hr : trx.receiverAddress = address <;> simp [hdec, hr]

theorem SameSeen.lookup (h : SameSeen codec mem mem') (hash : Hash) :
    mem'.lookup (encodeTrxKey hash) = none ↔ mem.lookup (encodeTrxKey hash) = none := by
  rw [← remove_notFound_iff codec mem' hash [], h.remove, remove_notFound_iff]

/-- The removal gets as far as deleting the transaction. -/
def Takes (codec : TrxCodec) (f : CacheFaults) (mem : BigCache) (hash : Hash) (address : Address) : Prop :=
  f.get (encodeTrxKey hash) = false ∧ f.delete (encodeTrxKey hash) = false ∧
    ∃ raw trx, mem.lookup (encodeTrxKey hash) = some raw ∧ codec.decode raw = some trx ∧
      trx.receiverAddress = address

/-- The save gets as far as storing the transaction. -/
def Stores (f : CacheFaults) (mem : BigCache) (hash : Hash) : Prop :=
  mem.lookup (encodeTrxKey hash) = none ∧ f.get (encodeTrxKey hash) = false ∧ f.set (encodeTrxKey hash) = false

/-- SPEC (remove): all or nothing under the hash, and nothing at all if the transaction is not deleted. -/
theorem removeAwaited_cases (codec : TrxCodec) (f : CacheFaults) (mem : BigCache) (hash : Hash) (address : Address) :
    (Takes codec f mem hash address ∧
      (removeAwaitedTransaction codec f mem hash address).1.lookup (encodeTrxKey hash) = none) ∨
    (¬ Takes codec f mem hash address ∧ (removeAwaitedTransaction codec f mem hash address).1 = mem ∧
      ∃ e, (removeAwaitedTransaction codec f mem hash address).2 = .error e) := by
  unfold removeAwaitedTransaction
  simp only [BigCache.get]
  by_cases hget : f.get (encodeTrxKey hash) = true
  · right
    rw [if_pos hget]
    refine ⟨?_, rfl, _, rfl⟩
    rintro ⟨hget', -⟩
    simp [hget] at hget'
  rw [if_neg hget]
  cases hlook : mem.lookup (encodeTrxKey hash) with
  | none =>
    right
    refine ⟨?_, rfl, _, rfl⟩
    rintro ⟨-, -, raw, -, hraw, -⟩
    rw [hlook] at hraw
    cases hraw
  | some raw =>
    simp only
    cases hdec : codec.decode raw with
    | none =>
      right
      refine ⟨?_, rfl, _, rfl⟩
      rintro ⟨-, -, raw', trx, hraw, hdec', -⟩
      rw [hlook] at hraw
      cases hraw
      rw [hdec] at hdec'
      cases hdec'
    | some trx =>
      have htakes : Takes codec f mem hash address ↔
          f.delete (encodeTrxKey hash) = false ∧ trx.receiverAddress = address := by
        simp [Takes, hget, hlook, hdec]
      rw [htakes]
      by_cases hr : trx.receiverAddress = address
      · simp only [hr, ne_eq, not_true_eq_false, if_false]
        by_cases hdel : f.delete (encodeTrxKey hash) = true
        · right
          simp [BigCache.delete, hdel]
        · left
          simp only [BigCache.delete, hdel, Bool.false_eq_true, if_false, hlook]
          refine ⟨by simp, ?_⟩
          rw [foldl_trx fun mem err a => dropAwaited_trx hash hash err a, AList.lookup_erase]
      · right
        simp [hr]

theorem saveAwaited_cases (codec : TrxCodec) (f : CacheFaults) (mem : BigCache) (trx : Transaction) :
    (Stores f mem trx.hash ∧
      (saveAwaitedTransaction codec f mem trx).1.lookup (encodeTrxKey trx.hash) = some (codec.encode trx)) ∨
    (¬ Stores f mem trx.hash ∧ (saveAwaitedTransaction codec f mem trx).1 = mem ∧
      ∃ e, (saveAwaitedTransaction codec f mem trx).2 = some e) := by
  unfold saveAwaitedTransaction
  simp only [BigCache.get, Stores]
  by_cases hget : f.get (encodeTrxKey trx.hash) = true
  · right
    simp [hget]
  cases hlook : mem.lookup (encodeTrxKey trx.hash) with
  | some raw =>
    right
    simp [hget]
  | none =>
    simp only [hget, Bool.false_eq_true, if_false]
    by_cases hset : f.set (encodeTrxKey trx.hash) = true
    · right
      simp [BigCache.set, hset]
    · left
      simp only [BigCache.set, hset, Bool.false_eq_true, if_false]
      refine ⟨by simp, ?_⟩
      rw [foldl_trx fun mem err a => noteAwaited_trx trx.hash trx.hash err a, AList.lookup_insert]

theorem remove_unseen_iff : SameSeen codec mem (removeAwaitedTransaction codec f mem hash address).1 ↔
    ¬ Takes codec f mem hash address := by
  rcases removeAwaited_cases codec f mem hash address with ⟨htakes, hgone⟩ | ⟨hnot, hsame, -⟩
  · refine ⟨fun h => ?_, fun h => (h htakes).elim⟩
    obtain ⟨-, -, raw, -, hraw, -⟩ := htakes
    rw [(h.lookup hash).mp hgone] at hraw
    cases hraw
  · rw [hsame]
    exact ⟨fun _ => hnot, fun _ => .refl _ _⟩

theorem save_unseen_iff (codec : TrxCodec) (f : CacheFaults) (mem : BigCache) (trx : Transaction) :
    SameSeen codec mem (saveAwaitedTransaction codec f mem trx).1 ↔ ¬ Stores f mem trx.hash := by
  rcases saveAwaited_cases codec f mem trx with ⟨hstores, hthere⟩ | ⟨hnot, hsame, -⟩
  · refine ⟨fun h => ?_, fun h => (h hstores).elim⟩
    rw [(h.lookup trx.hash).mpr hstores.1] at hthere
    cases hthere
  · rw [hsame]
    exact ⟨fun _ => hnot, fun _ => .refl _ _⟩

end Cache

/-! ### The ledger -/

section Ledger

variable {env : Env} {b : Book} {trx : Transaction} {first second : Book.Pass} {now : Time} {faults : Faults}
  {pass : Book.Pass} {k : Hash} {onSave : Err → Err} {rejected : Err}

/-- The first two leaves that the pass comes to. -/
def Book.tips (b : Book) (pass : Book.Pass) : List Vertex :=
  ((enumerate pass.order b.dag.graph.leaves).filterMap b.dag.getVertex).take 2

/-- The two leaves validate, so that the pass looks no further and discards nothing. -/
def TipsValid (env : Env) (b : Book) (pass : Book.Pass) : Prop :=
  ∀ v ∈ b.tips pass, b.validateLeaf env (pass.probe v.hash) v = .ok ()

/-- The first of the two that does not validate makes `Verify` panic, and the pass ends there. -/
def TipsPanic (env : Env) (b : Book) (pass : Book.Pass) : Prop :=
  ∃ passed v rest, b.tips pass = passed ++ v :: rest ∧
    (∀ u ∈ passed, b.validateLeaf env (pass.probe u.hash) u = .ok ()) ∧ b.LeafPanics env (pass.probe v.hash) v

/-- CONDITION (ledger): `CreateLeaf` fails before the lock is taken, or panics before it discards a leaf; or
    the leaves are sound and there are none, or the index refuses the transaction, or the graph knows the tip
    and the index entry can be taken back. -/
def Unwound (env : Env) (b : Book) (trx : Transaction) (first : Book.Pass) (now : Time) (faults : Faults) : Prop :=
  b.createLeafChecks env trx faults ≠ .ok () ∨ TipsPanic env b first ∨
  TipsValid env b first ∧ ∀ l rest, b.tips first = l :: rest →
    faults.saveTrx = true ∨
      (Book.tip env trx l (rest.headD l) now).hash ∈ b.dag.graph.nodes ∧ faults.removeTrx trx.hash = false

theorem getValidLeaves_sound (faults : Faults) (h : TipsValid env b pass) :
    b.getValidLeaves env pass faults = (b, b.tips pass, none) := by
  unfold TipsValid Book.tips at h
  unfold Book.getValidLeaves Book.tips
  generalize (enumerate pass.order b.dag.graph.leaves).filterMap b.dag.getVertex = vs at h
  match vs, h with
  | [], _ => rfl
  | [l], h => simp [Book.pickLeaves, h l (by simp)]
  | [l, r], h => simp [Book.pickLeaves, h l (by simp), h r (by simp)]
  | l :: r :: u :: rest, h => simp [Book.pickLeaves, h l (by simp), h r (by simp)]

theorem getValidLeaves_panics (faults : Faults) (h : TipsPanic env b pass) :
    ∃ found e, b.getValidLeaves env pass faults = (b, found, some e) := by
  obtain ⟨passed, v, rest, htips, hpassed, hpanics⟩ := h
  obtain ⟨e, hv, he⟩ := hpanics.error
  unfold Book.tips at htips
  unfold Book.getValidLeaves
  generalize (enumerate pass.order b.dag.graph.leaves).filterMap b.dag.getVertex = vs at htips
  rcases passed with _ | ⟨u, _ | ⟨u', passed⟩⟩
  · rcases vs with _ | ⟨l, vs⟩
    · cases htips
    · obtain ⟨hl, -⟩ := List.cons.inj htips
      exact ⟨[], e, by simp [Book.pickLeaves, hl, hv, he]⟩
  · rcases vs with _ | ⟨l, _ | ⟨r, vs⟩⟩
    · cases htips
    · cases htips
    · obtain ⟨hl, htips⟩ := List.cons.inj htips
      obtain ⟨hr, -⟩ := List.cons.inj htips
      exact ⟨[u], e, by simp [Book.pickLeaves, hl, hr, hpassed u (by simp), hv, he]⟩
  · have hlen := congrArg List.length htips
    simp only [List.length_take, List.length_append, List.length_cons] at hlen
    omega

theorem pickLeaves_gone (probe : Hash → Probe) (todo : List Vertex) :
    ∀ (found : List Vertex) (err : Option Err) (b : Book), b.dag.getVertex k = none →
      (Book.pickLeaves env probe faults todo found err b).1.dag.getVertex k = none := by
  induction todo with
  | nil => exact fun _ _ _ h => h
  | cons u todo ih =>
    intro found err b h
    rw [Book.pickLeaves]
    split
    · exact h
    · split
      · split
        · exact h
        refine ih _ _ _ ?_
        rw [updateWeight_dag, discard_getVertex, h, ite_self]
      · exact ih _ _ _ h

theorem getValidLeaves_unsound (faults : Faults) (h : ¬ TipsValid env b pass) (hp : ¬ TipsPanic env b pass) :
    ∃ k, b.dag.getVertex k ≠ none ∧ (b.getValidLeaves env pass faults).1.dag.getVertex k = none := by
  have hleaf := (leaves_snapshot b pass.order).2
  unfold TipsValid Book.tips at h
  unfold TipsPanic Book.tips at hp
  unfold Book.getValidLeaves
  generalize (enumerate pass.order b.dag.graph.leaves).filterMap b.dag.getVertex = vs at h hp hleaf
  have hthere : ∀ v ∈ vs, b.dag.getVertex v.hash ≠ none := fun v hv => by simp [(hleaf v hv).1]
  -- a leaf that fails while the book is still as it was
  have hlost : ∀ (v : Vertex) (rest found : List Vertex) (e : Err), (Book.pickLeaves env pass.probe faults rest found
      (some e) ((b.discard v faults).updateWeightAndThroughput v.weight)).1.dag.getVertex v.hash = none := by
    intro v rest found e
    refine pickLeaves_gone _ _ _ _ _ ?_
    rw [updateWeight_dag, discard_getVertex, if_pos rfl]
  cases vs with
  | nil => simp at h
  | cons l rest =>
    rw [Book.pickLeaves, if_neg (by simp)]
    cases hl : b.validateLeaf env (pass.probe l.hash) l with
    | error e =>
      have he : .panicked ∉ e := fun he =>
        hp ⟨[], l, rest.take 1, by simp, by simp, (leafPanics_iff hl).mpr he⟩
      simp only [if_neg he]
      exact ⟨l.hash, hthere l (by simp), hlost l _ _ e⟩
    | ok _ =>
      cases rest with
      | nil => simp [hl] at h
      | cons r rest =>
        rw [Book.pickLeaves, if_neg (by simp)]
        cases hr : b.validateLeaf env (pass.probe r.hash) r with
        | error e =>
          have he : .panicked ∉ e := fun he =>
            hp ⟨[l], r, [], by simp, by simp [hl], (leafPanics_iff hr).mpr he⟩
          simp only [if_neg he]
          exact ⟨r.hash, hthere r (by simp), hlost r _ _ e⟩
        | ok _ => simp [hl, hr] at h

theorem insertVertex_gone {leaf : Vertex} {parents : List Vertex} (h : b.dag.getVertex k = none) :
    (b.insertVertex leaf parents faults onSave rejected).1.dag.getVertex k = none ∨
      (b.insertVertex leaf parents faults onSave rejected).1.trxsToVertxDB.lookup leaf.transaction.hash ≠ none := by
  by_cases hok : (b.insertVertex leaf parents faults onSave rejected).2 = .ok ()
  · right
    rw [(insertVertex_done hok).2.2]
    rintro ⟨⟩
  · left
    rw [insertVertex_get, if_neg fun hk => hok hk.1, h]

theorem createLeafChecks_unused (h : b.createLeafChecks env trx faults = .ok ()) :
    b.trxsToVertxDB.lookup trx.hash = none := by
  cases hlook : b.trxsToVertxDB.lookup trx.hash with
  | none => rfl
  | some k =>
    unfold Book.createLeafChecks Book.checkTrxInVertexExists at h
    rw [hlook] at h
    repeat' split at h
    all_goals cases h
    next hchecked => split at hchecked <;> cases hchecked

theorem erase_insert_new {β : Type} {s : AList fun _ : Hash => β} {v : β} (h : s.lookup k = none) :
    (s.insert k v).erase k = s := by
  have hk : k ∉ s := AList.lookup_eq_none.mp h
  rw [AList.insert_of_notMem hk]
  apply AList.ext
  exact List.kerase_cons_eq rfl

/-- SPEC (insertion): below two known parents, under a transaction that the index does not have, it leaves
    the book as it was exactly when the index refuses the transaction, or the graph knows the vertex and
    the index entry can be taken back. -/
theorem insertVertex_kept_iff {leaf l r : Vertex} (hunused : b.trxsToVertxDB.lookup leaf.transaction.hash = none)
    (hl : l.hash ∈ b.dag.graph.nodes) (hr : r.hash ∈ b.dag.graph.nodes) (left : leaf.leftParentHash = l.hash)
    (right : leaf.rightParentHash = r.hash) :
    (b.insertVertex leaf [l, r] faults onSave rejected).1 = b ↔
      faults.saveTrx = true ∨ leaf.hash ∈ b.dag.graph.nodes ∧ faults.removeTrx leaf.transaction.hash = false := by
  -- the index shows an insertion that is not taken back
  have hne : ∀ {b' : Book}, b'.trxsToVertxDB.lookup leaf.transaction.hash = some leaf.hash → b' ≠ b := by
    rintro b' h rfl
    rw [hunused] at h
    cases h
  unfold Book.insertVertex Book.saveTrxInVertex
  by_cases hsave : faults.saveTrx = true
  · simp [hsave]
  simp only [hsave, hunused, Option.isSome_none, Bool.false_eq_true, if_false, false_or]
  cases hadd : b.dag.addVertexByID leaf with
  | none =>
    have hknown := Dag.addVertexByID_eq_none.mp hadd
    simp only [Book.removeTrxInVertex]
    by_cases hrm : faults.removeTrx leaf.transaction.hash = true
    · simp only [hrm, if_true, Bool.true_eq_false, and_false, iff_false]
      exact hne (AList.lookup_insert _)
    · simp [hrm, hknown, erase_insert_new hunused]
  | some d =>
    have hnew : leaf.hash ∉ b.dag.graph.nodes := fun h => by
      rw [Dag.addVertexByID_eq_none.mpr h] at hadd
      cases hadd
    obtain ⟨d', hd', -⟩ := addEdges_grown (Digraph.Grown.of_addNode (Dag.addVertexByID_eq_some hadd)) hl hr left right
    simp only [List.map_cons, List.map_nil, hd', hnew, false_and, iff_false]
    exact hne (AList.lookup_insert _)

theorem sealTip_book (l r : Vertex) : (b.sealTip env trx l r now faults).1 =
    (b.insertVertex (Book.tip env trx l r now) [l, r] faults (fun _ => [.errUnexpected]) [.errNewLeafRejected]).1 := by
  simp only [Book.sealTip]
  generalize b.insertVertex _ _ _ _ _ = ins
  obtain ⟨b', _ | _⟩ := ins <;> rfl

theorem createLeafLocked_unsound (hunused : b.trxsToVertxDB.lookup trx.hash = none) (h : ¬ TipsValid env b first)
    (hp : ¬ TipsPanic env b first) : (b.createLeafLocked env trx first second now faults).1 ≠ b := by
  obtain ⟨k, hthere, hgone⟩ := getValidLeaves_unsound faults h hp
  have hne : ∀ {b' : Book}, b'.dag.getVertex k = none → b' ≠ b := by
    rintro b' hk rfl
    exact hthere hk
  unfold Book.createLeafLocked
  -- the leaf that is gone was a vertex, so the first pass leaves a leaf or an error behind
  obtain ⟨v, hv⟩ := Option.ne_none_iff_exists'.mp hthere
  have hnil := getValidLeaves_ne_nil env faults b first (Dag.mem_nodes hv)
  generalize b.getValidLeaves env first faults = res at hgone hnil
  obtain ⟨b1, found, err⟩ := res
  cases err with
  | some e => exact hne hgone
  | none =>
    cases found with
    | nil => exact absurd rfl hnil
    | cons l rest =>
      simp only
      have hseal : (b1.sealTip env trx l (rest.headD l) now faults).1.dag.getVertex k = none ∨
          (b1.sealTip env trx l (rest.headD l) now faults).1.trxsToVertxDB.lookup trx.hash ≠ none := by
        rw [sealTip_book]
        exact insertVertex_gone hgone
      rcases hseal with hgone | hused
      · exact hne hgone
      · intro heq
        rw [heq] at hused
        exact hused hunused

theorem createLeaf_kept_iff (second : Book.Pass) :
    (b.createLeaf env trx first second now faults).1 = b ↔ Unwound env b trx first now faults := by
  unfold Book.createLeaf Unwound
  cases hchecks : b.createLeafChecks env trx faults with
  | error e => simp
  | ok _ =>
    have hunused := createLeafChecks_unused hchecks
    simp only [ne_eq, not_true_eq_false, false_or]
    by_cases hpanic : TipsPanic env b first
    · obtain ⟨found, e, hsame⟩ := getValidLeaves_panics faults hpanic
      simp only [hpanic, true_or, Book.createLeafLocked, hsame]
    rw [or_iff_right hpanic]
    by_cases hsound : TipsValid env b first
    · have hsame := getValidLeaves_sound faults hsound
      simp only [hsound, true_and, Book.createLeafLocked, hsame]
      cases htips : b.tips first with
      | nil =>
        have hnone : TipsValid env b second := by
          intro v hv
          have hleaf := (leaves_snapshot b second.order).2 v (List.mem_of_mem_take hv)
          refine absurd ?_ (getValidLeaves_ne_nil env faults b first (Dag.mem_nodes hleaf.1))
          rw [hsame, htips]
        simp only [getValidLeaves_sound faults hnone]
        cases b.tips second <;> simp
      | cons l rest =>
        have hmem : ∀ v ∈ b.tips first, v.hash ∈ b.dag.graph.nodes := fun v hv =>
          Dag.mem_nodes (((leaves_snapshot b first.order).2 v (List.mem_of_mem_take hv)).1)
        have hr : rest.headD l ∈ b.tips first := by
          rw [htips]
          cases rest <;> simp
        simp only [List.cons.injEq, and_imp, forall_eq', forall_apply_eq_imp_iff, sealTip_book]
        exact insertVertex_kept_iff hunused (hmem l (htips ▸ List.mem_cons_self ..)) (hmem _ hr) rfl rfl
    · simp only [hsound, false_and, iff_false]
      exact createLeafLocked_unsound hunused hsound hpanic

end Ledger

/-! ### The handlers -/

section Handlers

variable (env : ServerEnv) (w : Circumstance) (s : Service)

/-- Nothing has happened to the awaited transactions, as far as anybody can see, and nothing to the
    ledger. -/
structure Unchanged (env : ServerEnv) (s s' : Service) : Prop where
  cache : SameSeen env.trxCodec s.cache s'.cache
  book : s'.book = s.book

/-- The requests that bring a transaction in or decide about one. -/
def Request.Submits : Request → Prop
  | .propose _ | .confirm _ | .reject _ => True
  | _ => False

/-- CONDITION: the request fails before its first change. A contract is not stored, nothing is taken from
    the cache, or the ledger is left as it was. -/
def Spared (env : ServerEnv) (w : Circumstance) (s : Service) : Request → Prop
  | .propose (some p) => ∀ trx, protoTrxToTrx (some p) = .ok trx → trx.verifyIssuer env.ledger.verifier = true →
      if trx.isContract then trx.data.length > env.dataSize ∨ ¬ Stores w.cache s.cache trx.hash
      else Unwound env.ledger s.book trx w.first w.now w.ledger
  | .confirm req => ∀ trx, protoTrxToTrx req = .ok trx → trx.verifyIssuerReceiver env.ledger.verifier = true →
      ¬ Takes env.trxCodec w.cache s.cache trx.hash trx.receiverAddress
  | .reject (some p) => ∀ hash, Hash.ofSlice p.hash = .ok hash →
      env.ledger.verifier.verify p.data p.signature hash p.address = true →
      ∀ trxHash, Hash.ofSlice p.data = .ok trxHash → ¬ Takes env.trxCodec w.cache s.cache trxHash p.address
  | _ => True

theorem createLeaf_book (trx : Transaction) (forget : List Chore) : (s.createLeaf env w trx forget).1.book =
    (s.book.createLeaf env.ledger trx w.first w.second w.now w.ledger).1 := by
  unfold Service.createLeaf
  split
  next h => rw [h]
  next h => rw [h]
  next h => split <;> rw [h]

theorem createLeaf_cache (trx : Transaction) (forget : List Chore) :
    (s.createLeaf env w trx forget).1.cache = s.cache := by
  unfold Service.createLeaf
  split
  · rfl
  · rfl
  · split <;> rfl

theorem Unchanged.refl (s : Service) : Unchanged env s s := ⟨.refl _ _, rfl⟩

theorem propose_unchanged_iff (req : Option ProtoTransaction) :
    Unchanged env s (s.propose env w req).1 ↔ Spared env w s (.propose req) := by
  unfold Service.propose
  cases req with
  | none => exact iff_of_true (Unchanged.refl env s) trivial
  | some p =>
    simp only [Spared, Notary.propose]
    cases hmap : protoTrxToTrx (some p) with
    | error e => exact iff_of_true (Unchanged.refl env s) (by simp)
    | ok trx =>
      simp only [Except.ok.injEq, forall_eq']
      by_cases hv : trx.verifyIssuer env.ledger.verifier = false
      · simp only [hv, if_true]
        exact iff_of_true (Unchanged.refl env s) (by simp)
      · rw [if_neg hv]
        simp only [Bool.not_eq_false] at hv
        simp only [hv, true_imp_iff]
        by_cases hcontract : trx.isContract = true
        · simp only [hcontract, if_true]
          by_cases hsize : trx.data.length > env.dataSize
          · rw [if_pos hsize]
            exact iff_of_true (Unchanged.refl env s) (Or.inl hsize)
          · rw [if_neg hsize]
            simp only [hsize, false_or]
            rw [← save_unseen_iff env.trxCodec]
            generalize saveAwaitedTransaction env.trxCodec w.cache s.cache trx = res
            obtain ⟨cache, _ | _⟩ := res
            · exact ⟨fun h => h.cache, fun h => ⟨h, rfl⟩⟩
            · exact ⟨fun h => h.cache, fun h => ⟨h, rfl⟩⟩
        · simp only [hcontract, Bool.false_eq_true, if_false]
          rw [← createLeaf_kept_iff w.second]
          refine ⟨fun h => ?_, fun h => ⟨?_, ?_⟩⟩
          · have hbook := h.book
            rwa [createLeaf_book] at hbook
          · rw [createLeaf_cache]
            exact .refl _ _
          · rw [createLeaf_book]
            exact h

/-- What is common to the two handlers that remove: the cache decides, since nothing is created for a
    transaction that is not taken from it. -/
theorem removed_unchanged_iff {hash : Hash} {address : Address} {s' : Service}
    (hcache : s'.cache = (removeAwaitedTransaction env.trxCodec w.cache s.cache hash address).1)
    (hbook : (∃ e, (removeAwaitedTransaction env.trxCodec w.cache s.cache hash address).2 = .error e) →
      s'.book = s.book) :
    Unchanged env s s' ↔ ¬ Takes env.trxCodec w.cache s.cache hash address := by
  rw [← remove_unseen_iff (f := w.cache), ← hcache]
  refine ⟨fun h => h.cache, fun h => ⟨h, ?_⟩⟩
  rcases removeAwaited_cases env.trxCodec w.cache s.cache hash address with ⟨htakes, -⟩ | ⟨-, -, herr⟩
  · rw [hcache, remove_unseen_iff] at h
    exact absurd htakes h
  · exact hbook herr

theorem confirm_unchanged_iff (req : Option ProtoTransaction) :
    Unchanged env s (s.confirm env w req).1 ↔ Spared env w s (.confirm req) := by
  simp only [Service.confirm, Spared, Notary.confirm]
  cases hmap : protoTrxToTrx req with
  | error e => exact iff_of_true (Unchanged.refl env s) (by simp)
  | ok trx =>
    simp only [Except.ok.injEq, forall_eq']
    by_cases hv : trx.verifyIssuerReceiver env.ledger.verifier = false
    · simp only [hv, if_true]
      exact iff_of_true (Unchanged.refl env s) (by simp)
    · rw [if_neg hv]
      simp only [Bool.not_eq_false] at hv
      simp only [hv, true_imp_iff]
      apply removed_unchanged_iff
      · generalize removeAwaitedTransaction env.trxCodec w.cache s.cache trx.hash trx.receiverAddress = res
        obtain ⟨cache, e | ⟨t, _ | e⟩⟩ := res
        · rfl
        · exact createLeaf_cache env w _ _ _
        · rfl
      · rintro ⟨e, he⟩
        generalize removeAwaitedTransaction env.trxCodec w.cache s.cache trx.hash trx.receiverAddress = res at he
        obtain ⟨cache, e' | t⟩ := res
        · rfl
        · cases he

theorem reject_unchanged_iff (req : Option SignedHash) :
    Unchanged env s (s.reject env w req).1 ↔ Spared env w s (.reject req) := by
  unfold Service.reject
  cases req with
  | none => exact iff_of_true (Unchanged.refl env s) trivial
  | some p =>
    simp only [Spared, Notary.reject]
    cases hhash : Hash.ofSlice p.hash with
    | error e => exact iff_of_true (Unchanged.refl env s) (by simp)
    | ok hash =>
      simp only [Except.ok.injEq, forall_eq']
      by_cases hv : env.ledger.verifier.verify p.data p.signature hash p.address = false
      · simp only [hv, if_true]
        exact iff_of_true (Unchanged.refl env s) (by simp)
      · rw [if_neg hv]
        simp only [Bool.not_eq_false] at hv
        simp only [hv, true_imp_iff]
        cases hdata : Hash.ofSlice p.data with
        | error e => exact iff_of_true (Unchanged.refl env s) (by simp)
        | ok trxHash =>
          simp only [Except.ok.injEq, forall_eq']
          apply removed_unchanged_iff
          · generalize removeAwaitedTransaction env.trxCodec w.cache s.cache trxHash p.address = res
            obtain ⟨cache, e | ⟨t, _ | e⟩⟩ := res
            · rfl
            · exact createLeaf_cache env w _ _ _
            · rfl
          · rintro ⟨e, he⟩
            generalize removeAwaitedTransaction env.trxCodec w.cache s.cache trxHash p.address = res at he
            obtain ⟨cache, e' | t⟩ := res
            · rfl
            · cases he

/-- EXACT: a request leaves the awaited transactions and the ledger as they were exactly when it fails before
    its first change. -/
theorem failed_request_unchanged_iff {env : ServerEnv} {w : Circumstance} {s : Service} {r : Request}
    (hr : r.Submits) :
    Unchanged env s (s.handle env w r).1 ↔ Spared env w s r := by
  cases r with
  | propose req => exact propose_unchanged_iff env w s req
  | confirm req => exact confirm_unchanged_iff env w s req
  | reject req => exact reject_unchanged_iff env w s req
  | waiting req => exact hr.elim
  | saved req => exact hr.elim
  | balance req => exact hr.elim
  | transactionsInDAG req => exact hr.elim

end Handlers

/-! ### A lost contract -/

namespace Transparent

/-- `wallet 9` pays what it does not have: the server takes it, and a leaf is there that no validation will
    pass. -/
def brokePayment : Transaction := trx (wallet 9) (wallet 6) ⟨4, 0⟩ [] 3

/-- The contract as its receiver confirms it. -/
def accepted : Transaction := { offer (wallet 8) 4 with receiverSignature := wallet 8 }

/-- The server after an unfunded payment and an offer to `wallet 8`, both proposed with success. -/
def offered : Service :=
  ((service.handle serverEnv (calmly 5) (.propose (some brokePayment.toProto))).1.handle serverEnv (calmly 6)
    (.propose (some (offer (wallet 8) 4).toProto))).1

/-- The receiver confirms the contract. -/
def confirmed : Service × Except NotaryError Reply :=
  offered.handle serverEnv (calmly 7) (.confirm (some accepted.toProto))

/-- A server that is about to stop. -/
def stopping : Service := { service with pipe := ⟨[], [], true⟩ }

/-- A funded payment is proposed to it. -/
def cutOff : Service × Except NotaryError Reply :=
  stopping.handle serverEnv (calmly 5) (.propose (some (trx (wallet 7) (wallet 8) ⟨4, 0⟩ [] 3).toProto))

end Transparent

open Transparent in
/-- BUG: no leaf can be created for the confirmed contract, because of the unfunded payment of somebody else;
    the confirmation fails, the contract is gone from the list of its receiver, and confirming again does not
    find it. A payment that the closed pipe does not take fails too, and is in the ledger. -/
theorem failed_confirm_loses_contract :
    (confirmed.2 = .error .errProcessing ∧ ¬ Unchanged serverEnv offered confirmed.1 ∧
      (readTransactions plainCodec .none offered.cache (wallet 8)).2 = .returned [offer (wallet 8) 4] none ∧
      (readTransactions plainCodec .none confirmed.1.cache (wallet 8)).2 =
        .returned [] (some .errTransactionNotFound) ∧
      (confirmed.1.handle serverEnv (calmly 8) (.confirm (some accepted.toProto))).2 = .error .errNoDataPresent) ∧
    (cutOff.2 = .error .errProcessing ∧ ¬ Unchanged serverEnv stopping cutOff.1) := by
  have hread : (readTransactions plainCodec .none offered.cache (wallet 8)).2 =
      .returned [offer (wallet 8) 4] none ∧
    (readTransactions plainCodec .none confirmed.1.cache (wallet 8)).2 =
      .returned [] (some .errTransactionNotFound) := by decide +kernel
  have hindex : cutOff.1.book.trxsToVertxDB.lookup (trx (wallet 7) (wallet 8) ⟨4, 0⟩ [] 3).hash ≠
      stopping.book.trxsToVertxDB.lookup (trx (wallet 7) (wallet 8) ⟨4, 0⟩ [] 3).hash := by decide +kernel
  refine ⟨⟨by decide +kernel, fun h => ?_, hread.1, hread.2, by decide +kernel⟩, by decide +kernel, fun h => ?_⟩
  · have hsame : (readTransactions plainCodec .none confirmed.1.cache (wallet 8)).2 =
        (readTransactions plainCodec .none offered.cache (wallet 8)).2 := h.cache.read (wallet 8)
    rw [hread.1, hread.2] at hsame
    cases hsame
  · exact hindex (by rw [h.book])

open Transparent in
/-- A confirmation for which nothing waits fails and changes nothing. -/
theorem unknown_confirm_unchanged :
    (service.handle serverEnv (calmly 7) (.confirm (some accepted.toProto))).2 = .error .errNoDataPresent ∧
      Unchanged serverEnv service (service.handle serverEnv (calmly 7) (.confirm (some accepted.toProto))).1 := by
  have hfails : (service.handle serverEnv (calmly 7) (.confirm (some accepted.toProto))).2 =
      .error .errNoDataPresent := by decide +kernel
  refine ⟨hfails, (failed_request_unchanged_iff (r := .confirm _) trivial).mpr ?_⟩
  rintro trx - - ⟨-, -, raw, -, hraw, -⟩
  cases hraw

end Computantis
