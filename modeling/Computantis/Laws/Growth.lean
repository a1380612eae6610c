import Computantis.Laws.Admission

/-! @law growth | name:Long chains | family:progress | about:Model/Node

    The other laws say what a node never does; this one says what it does. An undisturbed `AddLeaf` of
    a fresh, signed vertex below a leaf that validates is accepted (`add_appends`). From it, by
    induction, a chain of any length up to what the counters allow is reachable: truncation does
    nothing before a leaf has a thousand ancestors, so every concrete run that truncates needs one. -/

namespace Computantis

open Schemes

/-! ### An accepted vertex -/

/-- Nothing stands against adding `v` below the leaf `l`, named as both parents. -/
structure Appendable (env : Env) (probe : Hash → Probe) (s : Node) (l v : Vertex) : Prop where
  idle : s.pending = []
  loaded : s.book.dagLoaded = true
  proper : Proper v.signerPublicAddress v.transaction
  foreign : v.transaction.issuerAddress ≠ s.book.genesisPublicAddress
  fresh : v.hash ∉ s.book.dag.graph.nodes
  unstored : s.book.verticesDB.lookup v.hash.bytes = none
  unused : s.book.trxsToVertxDB.lookup v.transaction.hash = none
  verified : v.verify env.verifier = true
  left : v.leftParentHash = l.hash
  right : v.rightParentHash = l.hash
  nonzero : l.hash ≠ Hash.zero
  leaf : IsLeafOf s.book l
  valid : s.book.validateLeaf env (probe l.hash) l = .ok ()
  -- both parents are looked at, so the leaf is validated twice
  again : (s.book.updateWeightAndThroughput l.weight).validateLeaf env (probe l.hash) l = .ok ()

namespace Appendable

variable {env : Env} {probe : Hash → Probe} {s : Node} {l v : Vertex}

/-- The counters after both validations. -/
def counted (b : Book) (l : Vertex) : Book :=
  (b.updateWeightAndThroughput l.weight).updateWeightAndThroughput l.weight

theorem begin_ok (h : Appendable env probe s l v) :
    s.step env (.beginAdd v .none) = ⟨s.book, [.add (newMemory v)]⟩ := by
  have hguard : s.book.addLeafGuard v = .ok () := by
    simp [Book.addLeafGuard, h.loaded, h.proper.foreign, h.proper.nonempty]
  have hget : s.book.dag.getVertex v.hash = none := Digraph.get_eq_none.mpr h.fresh
  have hchecks : s.book.addLeafChecks env v .none = .ok () := by
    simp [Book.addLeafChecks, h.foreign, Book.checkVertexExists, hget, Book.checkVertexExistInStorage,
      h.unstored, Book.checkTrxInVertexExists, h.unused, h.verified, Faults.none]
  simp only [Node.step, Node.beginAdd, hguard, hchecks, h.idle, List.nil_append]

theorem checkParents_ok (h : Appendable env probe s l v) :
    s.book.checkParents env (newMemory v) probe .none (newMemory v).vrx.parentHashes [] =
      (counted s.book l, .ok [l, l]) := by
  have hleaf : s.book.dag.graph.isLeaf l.hash = true := Digraph.isLeaf_iff.mpr h.leaf.2
  simp [newMemory, Vertex.parentHashes, h.left, h.right, Book.checkParents, h.leaf.1, hleaf, h.valid,
    h.again, counted]

theorem add_appends (h : Appendable env probe s l v) : ∃ dag : Dag,
    Digraph.Grown s.book.dag.graph dag.graph v.hash v [l.hash] ∧
    run (Node.step env) s [.beginAdd v .none, .finishAdd (newMemory v) probe .none] =
      ⟨{ counted s.book l with
          dag := dag, trxsToVertxDB := s.book.trxsToVertxDB.insert v.transaction.hash v.hash,
          truncateSignal := s.book.truncateSignal ++ [v.weight] }, []⟩ := by
  obtain ⟨d, hd⟩ : ∃ d, s.book.dag.addVertexByID v = some d := by
    rw [← Option.isSome_iff_exists, Option.isSome_iff_ne_none, ne_eq, Dag.addVertexByID_eq_none]
    exact h.fresh
  have hl : l.hash ∈ s.book.dag.graph.nodes := Dag.mem_nodes h.leaf.1
  obtain ⟨dag, hdag, hgrown⟩ := addEdges_grown (Digraph.Grown.of_addNode (Dag.addVertexByID_eq_some hd))
    hl hl h.left h.right
  refine ⟨dag, hgrown.congr fun x => ?_, ?_⟩
  · simp [edgeParents, h.left, h.right, h.nonzero, Vertex.parentHashes]
  · have hsave : (counted s.book l).saveTrxInVertex v.transaction.hash v.hash false = .ok
        { counted s.book l with trxsToVertxDB := s.book.trxsToVertxDB.insert v.transaction.hash v.hash } := by
      simp [Book.saveTrxInVertex, counted, h.unused]
    have hadd : (counted s.book l).dag.addVertexByID v = some d := hd
    have hlocked : (s.book.addLeafLocked env (newMemory v) probe .none).1 =
        { counted s.book l with
          dag := dag, trxsToVertxDB := s.book.trxsToVertxDB.insert v.transaction.hash v.hash,
          truncateSignal := s.book.truncateSignal ++ [v.weight] } := by
      rw [Book.addLeafLocked, h.checkParents_ok]
      simp only [Book.insertVertex]
      rw [show (newMemory v).vrx = v from rfl, show Faults.none.saveTrx = false from rfl, hsave]
      simp only [hadd, List.map_cons, List.map_nil, hdag]
      rfl
    rw [run_cons, h.begin_ok, run_cons, run_nil]
    simp only [Node.step, List.mem_singleton, if_true, hlocked, List.erase_cons_head]

end Appendable

/-! ### The vertex to cut at -/

theorem performAll_next : ∀ (us : List Vertex) (v : Vertex) (vs : List Vertex) (h : HashAtDepth),
    h.depth.toNat = us.length + 1 → (performAll HashAtDepth.next (us ++ v :: vs) h).1.hash = v.hash
  | [], v, vs, h, hd => by
      have hone : h.depth = 1 := by
        rw [← UInt64.toNat_inj]; exact hd
      simp [performAll, HashAtDepth.next, hone]
  | u :: us, v, vs, h, hd => by
      have hsub : (h.depth - 1).toNat = us.length + 1 := by
        have := h.depth.toNat_lt
        rw [UInt64.toNat_sub, hd, List.length_cons]
        have h1 : (1 : UInt64).toNat = 1 := rfl
        rw [List.length_cons] at hd
        omega
      have hne : h.depth - 1 ≠ 0 := by
        intro he
        rw [he] at hsub
        simp at hsub
      rw [List.cons_append, performAll, HashAtDepth.next, if_neg hne]
      exact performAll_next us v vs _ hsub

/-! ### Bytes that tell messages apart -/

namespace Transparent

theorem digest_suffix {m m' t t' : Bytes} (hlen : t.length = t'.length) (h30 : t.length ≤ 30)
    (h : digest (m ++ t) = digest (m' ++ t')) : t = t' := by
  have hbytes := congrArg Hash.bytes h
  simp only [digest, List.cons.injEq, true_and, List.reverse_append, List.append_assoc] at hbytes
  have htake := congrArg (List.take t.length) hbytes.2
  rw [List.take_take, List.take_take, Nat.min_eq_left h30] at htake
  rw [List.take_left' (by simp), List.take_left' (by simp [hlen])] at htake
  exact List.reverse_injective htake

theorem message_suffix (t : Transaction) : ∃ m : Bytes, t.getMessage = m ++ (le64 (unixNano t.createdAt) ++
    (le64 t.spice.currency ++ le64 t.spice.supplementaryCurrency)) :=
  ⟨t.subject ++ t.data ++ t.issuerAddress ++ t.receiverAddress, by simp [Transaction.getMessage]⟩

/-! ### The links of a chain -/

/-- The first link pays 4 from `wallet 7` to `receiver`; the others move no spice. -/
def linkTrx (receiver : Address) : ℕ → Transaction
  | 0 => trx (wallet 7) receiver ⟨4, 0⟩ [] 2
  | n + 1 => trx (wallet 9) (wallet 8) ⟨0, 0⟩ [1] (n + 3)

/-- The chain: the genesis vertex, then each link below the one before it. -/
def link (receiver : Address) : ℕ → Vertex
  | 0 => root 10
  | n + 1 => sealed (linkTrx receiver n) (link receiver n) (link receiver n) (UInt64.ofNat (n + 1)) (n + 3)

section Links

variable {receiver : Address}

theorem link_weight (i : ℕ) : (link receiver i).weight = UInt64.ofNat i := by
  cases i <;> rfl

theorem link_hash (i : ℕ) : (link receiver i).hash = digest (link receiver i).initData := by
  cases i <;> rfl

theorem link_hash_ne_zero (i : ℕ) : (link receiver i).hash ≠ Hash.zero := by
  rw [link_hash]; exact digest_ne_zero _

theorem link_hash_inj {i j : ℕ} (hi : i < 2 ^ 64) (hj : j < 2 ^ 64)
    (h : (link receiver i).hash = (link receiver j).hash) : i = j := by
  rw [link_hash, link_hash, Vertex.initData, Vertex.initData, ← List.append_assoc, ← List.append_assoc] at h
  have hw := le64_injective (digest_suffix (by simp [le64_length]) (by simp [le64_length]) h)
  rw [link_weight, link_weight, ← UInt64.toNat_inj, UInt64.toNat_ofNat', UInt64.toNat_ofNat',
    Nat.mod_eq_of_lt hi, Nat.mod_eq_of_lt hj] at hw
  exact hw

theorem link_trx_createdAt (i : ℕ) : (link receiver i).transaction.createdAt = i + 1 := by
  match i with
  | 0 => rfl
  | 1 => rfl
  | n + 2 =>
    change ((n : ℤ) + 3) = ((n + 2 : ℕ) : ℤ) + 1
    push_cast; ring

theorem link_trx_hash (i : ℕ) :
    (link receiver i).transaction.hash = digest (link receiver i).transaction.getMessage := by
  match i with
  | 0 => rfl
  | 1 => rfl
  | n + 2 => rfl

theorem link_trx_hash_inj {i j : ℕ} (hi : i < 2 ^ 63) (hj : j < 2 ^ 63)
    (h : (link receiver i).transaction.hash = (link receiver j).transaction.hash) : i = j := by
  obtain ⟨m, hm⟩ := message_suffix (link receiver i).transaction
  obtain ⟨m', hm'⟩ := message_suffix (link receiver j).transaction
  rw [link_trx_hash, link_trx_hash, hm, hm'] at h
  have ht := digest_suffix (by simp [le64_length]) (by simp [le64_length]) h
  have htime := le64_injective (List.append_inj_left ht (by simp [le64_length]))
  rw [link_trx_createdAt, link_trx_createdAt, unixNano, unixNano, ← UInt64.toNat_inj,
    UInt64.toNat_ofNat', UInt64.toNat_ofNat'] at htime
  omega

theorem link_proper (i : ℕ) :
    Proper (link receiver (i + 1)).signerPublicAddress (link receiver (i + 1)).transaction := by
  cases i with
  | zero => exact ⟨by simp [link, sealed, linkTrx, trx, Transaction.isEmpty, Transaction.isSpiceTransfer,
      Melange.empty], show wallet 7 ≠ peer by decide⟩
  | succ n => exact ⟨rfl, show wallet 9 ≠ peer by decide⟩

theorem link_verified (i : ℕ) : (link receiver i).verify verifier = true := by
  match i with
  | 0 => simp [link, root, genesisTrx, Vertex.verify, Vertex.new, trx, Transaction.verifyIssuer, verifier_verify,
      signer, Transaction.getMessage, Vertex.initData]
  | 1 => simp [link, sealed, linkTrx, Vertex.verify, Vertex.new, trx, Transaction.verifyIssuer, verifier_verify,
      signer, Transaction.getMessage, Vertex.initData]
  | n + 2 => simp [link, sealed, linkTrx, Vertex.verify, Vertex.new, trx, Transaction.verifyIssuer,
      verifier_verify, signer, Transaction.getMessage, Vertex.initData]

theorem link_foreign (i : ℕ) : (link receiver (i + 1)).transaction.issuerAddress ≠ hub := by
  cases i with
  | zero => exact show wallet 7 ≠ hub by decide
  | succ n => exact show wallet 9 ≠ hub by decide

theorem link_party {a : Address} : ∀ {i : ℕ}, (link receiver i).Party a →
    a = hub ∨ a = wallet 7 ∨ a = receiver
  | 0, h => h.2.imp id Or.inl
  | 1, h => Or.inr h.2
  | _ + 2, h => absurd h.1 (by simp [link, sealed, linkTrx, trx, Transaction.isSpiceTransfer, Melange.empty])

end Links

/-! ### The chain is reachable -/

/-- The node holds the first `i + 1` links and nothing else. -/
structure Chain (receiver : Address) (i : ℕ) (s : Node) : Prop where
  idle : s.pending = []
  loaded : s.book.dagLoaded = true
  address : s.book.genesisPublicAddress = hub
  untrusted : s.book.trustedNodesDB = []
  unstored : s.book.verticesDB = ∅
  get : ∀ k v, s.book.dag.getVertex k = some v ↔
    ∃ j ≤ i, v = link receiver j ∧ k = (link receiver j).hash
  arc : ∀ x y, s.book.dag.graph.Arc x y ↔
    ∃ j < i, x = (link receiver j).hash ∧ y = (link receiver (j + 1)).hash
  trxs : ∀ k w, s.book.trxsToVertxDB.lookup k = some w ↔
    ∃ j ≤ i, k = (link receiver j).transaction.hash ∧ w = (link receiver j).hash
  weight : s.book.weight.toNat ≤ 50 + i
  throughput : s.book.throughput.toNat = 52 + 4 * i

/-- The last link validates, also when it is validated again. -/
def Validates (receiver : Address) (i : ℕ) (s : Node) : Prop :=
  s.book.validateLeaf (env hub) (.calm []) (link receiver i) = .ok () ∧
    (s.book.updateWeightAndThroughput (link receiver i).weight).validateLeaf (env hub) (.calm [])
      (link receiver i) = .ok ()

instance (receiver : Address) (i : ℕ) (s : Node) : Decidable (Validates receiver i s) :=
  inferInstanceAs (Decidable (_ ∧ _))

namespace Chain

variable {receiver : Address} {i : ℕ} {s : Node}

theorem get_link (h : Chain receiver i s) {j : ℕ} (hj : j ≤ i) :
    s.book.dag.getVertex (link receiver j).hash = some (link receiver j) :=
  (h.get _ _).mpr ⟨j, hj, rfl, rfl⟩

theorem isLeafOf (h : Chain receiver i s) (hi : i < 2 ^ 32) : IsLeafOf s.book (link receiver i) := by
  refine ⟨h.get_link le_rfl, ?_⟩
  rintro ⟨c, hc⟩
  obtain ⟨j, hj, heq, -⟩ := (h.arc _ _).mp hc
  have := link_hash_inj (by omega) (by omega) heq
  omega

theorem leaves_eq (h : Chain receiver i s) (hi : i < 2 ^ 32) :
    s.book.dag.graph.leaves = [(link receiver i).hash] := by
  refine List.perm_singleton.mp ((List.perm_ext_iff_of_nodup (Digraph.leaves_nodup _)
    (List.nodup_singleton _)).mpr fun k => ?_)
  rw [List.mem_singleton]
  refine ⟨fun hk => ?_, ?_⟩
  · obtain ⟨hmem, hchild⟩ := Digraph.mem_leaves.mp hk
    obtain ⟨v, hv⟩ : ∃ v, s.book.dag.getVertex k = some v := Digraph.mem_nodes.mp hmem
    obtain ⟨j, hj, -, rfl⟩ := (h.get k v).mp hv
    rcases Nat.lt_or_ge j i with hlt | hge
    · exact absurd ⟨_, (h.arc _ _).mpr ⟨j, hlt, rfl, rfl⟩⟩ hchild
    · rw [Nat.le_antisymm hj hge]
  · rintro rfl; exact (h.isLeafOf hi).mem_leaves

theorem anc_iff (h : Chain receiver i s) (hi : i < 2 ^ 32) : ∀ {j : ℕ}, j ≤ i → ∀ x,
    s.book.dag.graph.Anc x (link receiver j).hash ↔ ∃ k < j, x = (link receiver k).hash
  | 0, _, x => by
      refine iff_of_false (fun hx => ?_) (by simp)
      obtain ⟨p, -, hp⟩ := Relation.TransGen.tail'_iff.mp hx
      obtain ⟨j, hj, -, heq⟩ := (h.arc _ _).mp hp
      have := link_hash_inj (by omega) (by omega) heq
      omega
  | j + 1, hj, x => by
      have hparent : ∀ p, s.book.dag.graph.Arc p (link receiver (j + 1)).hash ↔
          p = (link receiver j).hash := by
        intro p
        refine ⟨fun hp => ?_, fun hp => (h.arc _ _).mpr ⟨j, hj, hp, rfl⟩⟩
        obtain ⟨k, hk, rfl, heq⟩ := (h.arc _ _).mp hp
        have := link_hash_inj (by omega) (by omega) heq
        rw [show k = j by omega]
      constructor
      · intro hx
        obtain ⟨p, hxp, hp⟩ := Relation.TransGen.tail'_iff.mp hx
        obtain rfl := (hparent p).mp hp
        rcases Relation.reflTransGen_iff_eq_or_transGen.mp hxp with heq | hxp
        · exact ⟨j, by omega, heq.symm⟩
        · obtain ⟨k, hk, rfl⟩ := (anc_iff h hi (by omega) x).mp hxp
          exact ⟨k, by omega, rfl⟩
      · rintro ⟨k, hk, rfl⟩
        have hlast := (hparent _).mpr rfl
        rcases Nat.lt_succ_iff_lt_or_eq.mp hk with hk | rfl
        · exact .tail ((anc_iff h hi (by omega) _).mpr ⟨k, hk, rfl⟩) hlast
        · exact .single hlast

theorem isValidWeight (h : Chain receiver i s) (w : UInt64) : s.book.isValidWeight w = true := by
  have hgt : s.book.throughput > s.book.weight := by
    rw [gt_iff_lt, UInt64.lt_iff_toNat_lt]
    have := h.weight
    have := h.throughput
    omega
  rw [Book.isValidWeight, if_pos hgt]

theorem updated (h : Chain receiver i s) (hi : i < 2 ^ 32) {b : Book} {w : UInt64} {t : ℕ}
    (hb : b.dag = s.book.dag) (hw : b.weight.toNat ≤ 50 + i) (ht : b.throughput.toNat = t)
    (hsmall : t < 2 ^ 40) (hle : w.toNat ≤ i) :
    (b.updateWeightAndThroughput w).weight.toNat ≤ 50 + i ∧
      (b.updateWeightAndThroughput w).throughput.toNat = t + 2 := by
  refine ⟨?_, ?_⟩
  · simp only [Book.updateWeightAndThroughput]
    split
    · omega
    · exact hw
  · have hl : UInt64.ofNat b.dag.graph.leaves.length = 1 := by rw [hb, h.leaves_eq hi]; rfl
    simp only [Book.updateWeightAndThroughput, hl, UInt64.toNat_add, ht]
    have h1 : (1 : UInt64).toNat = 1 := rfl
    omega

theorem hash_ne_next (hi : i < 2 ^ 32) {j : ℕ} (hj : j ≤ i) :
    (link receiver j).hash ≠ (link receiver (i + 1)).hash := by
  intro heq
  have := link_hash_inj (by omega) (by omega) heq
  omega

theorem ready (h : Chain receiver i s) (hi : i < 2 ^ 32) (hvalid : Validates receiver i s) :
    Appendable (env hub) (fun _ => .calm []) s (link receiver i) (link receiver (i + 1)) := by
  have hfresh : (link receiver (i + 1)).hash ∉ s.book.dag.graph.nodes := by
    intro hmem
    obtain ⟨v, hv⟩ : ∃ v, s.book.dag.getVertex _ = some v := Digraph.mem_nodes.mp hmem
    obtain ⟨j, hj, -, heq⟩ := (h.get _ _).mp hv
    exact hash_ne_next hi hj heq.symm
  have hunused : s.book.trxsToVertxDB.lookup (link receiver (i + 1)).transaction.hash = none := by
    rw [Option.eq_none_iff_forall_ne_some]
    intro w hw
    obtain ⟨j, hj, heq, -⟩ := (h.trxs _ _).mp hw
    have := link_trx_hash_inj (by omega) (by omega) heq
    omega
  exact
    { idle := h.idle, loaded := h.loaded, proper := link_proper i
      foreign := by rw [h.address]; exact link_foreign i
      fresh := hfresh, unstored := by rw [h.unstored]; rfl
      unused := hunused, verified := link_verified (i + 1), left := rfl, right := rfl
      nonzero := link_hash_ne_zero i, leaf := h.isLeafOf hi, valid := hvalid.1, again := hvalid.2 }

theorem add (h : Chain receiver i s) (hi : i < 2 ^ 32) (hvalid : Validates receiver i s) :
    Chain receiver (i + 1) (run (Node.step (env hub)) s (addEvents (link receiver (i + 1)))) := by
  have hnew : ∀ j ≤ i, (link receiver j).hash ≠ (link receiver (i + 1)).hash := fun j hj =>
    hash_ne_next hi hj
  obtain ⟨dag, hgrown, hrun⟩ := (h.ready hi hvalid).add_appends
  rw [addEvents, hrun]
  have hwle : (link receiver i).weight.toNat ≤ i := by
    rw [link_weight, UInt64.toNat_ofNat']; exact Nat.mod_le _ _
  obtain ⟨hw1, ht1⟩ := h.updated (w := (link receiver i).weight) hi rfl h.weight h.throughput (by omega) hwle
  obtain ⟨hw2, ht2⟩ := h.updated (b := s.book.updateWeightAndThroughput (link receiver i).weight)
    (w := (link receiver i).weight) hi rfl hw1 ht1 (by omega) hwle
  refine ⟨rfl, h.loaded, h.address, h.untrusted, h.unstored, fun k v => ?_, fun x y => ?_, fun k w => ?_,
    by simp only [Appendable.counted]; omega, by simp only [Appendable.counted]; omega⟩
  · by_cases hk : k = (link receiver (i + 1)).hash
    · subst hk
      simp only [Dag.getVertex, hgrown.get_self, Option.some.injEq]
      constructor
      · rintro rfl; exact ⟨i + 1, le_rfl, rfl, rfl⟩
      · rintro ⟨j, hj, rfl, heq⟩
        rcases Nat.lt_or_ge i j with hlt | hge
        · rw [show j = i + 1 by omega]
        · exact absurd heq.symm (hnew j hge)
    · simp only [Dag.getVertex, hgrown.get_of_ne hk]
      refine (h.get k v).trans ⟨?_, ?_⟩
      · rintro ⟨j, hj, hv⟩; exact ⟨j, by omega, hv⟩
      · rintro ⟨j, hj, hv, rfl⟩
        refine ⟨j, ?_, hv, rfl⟩
        by_contra hlt
        exact hk (by rw [show j = i + 1 by omega])
  · rw [hgrown.arc, h.arc]
    constructor
    · rintro (⟨j, hj, hx, hy⟩ | ⟨rfl, hx⟩)
      · exact ⟨j, by omega, hx, hy⟩
      · exact ⟨i, by omega, List.mem_singleton.mp hx, rfl⟩
    · rintro ⟨j, hj, rfl, rfl⟩
      rcases Nat.lt_succ_iff_lt_or_eq.mp hj with hj | rfl
      · exact Or.inl ⟨j, hj, rfl, rfl⟩
      · exact Or.inr ⟨rfl, by simp⟩
  · by_cases hk : k = (link receiver (i + 1)).transaction.hash
    · subst hk
      simp only [AList.lookup_insert, Option.some.injEq]
      constructor
      · rintro rfl; exact ⟨i + 1, le_rfl, rfl, rfl⟩
      · rintro ⟨j, hj, heq, rfl⟩
        rw [link_trx_hash_inj (by omega) (by omega) heq]
    · simp only [AList.lookup_insert_ne hk]
      refine (h.trxs k w).trans ⟨?_, ?_⟩
      · rintro ⟨j, hj, hv⟩; exact ⟨j, by omega, hv⟩
      · rintro ⟨j, hj, rfl, hw⟩
        refine ⟨j, ?_, rfl, hw⟩
        by_contra hlt
        exact hk (by rw [show j = i + 1 by omega])

theorem validateLeaf_data (h : Chain receiver (i + 2) s) {b : Book} (hd : b.dag = s.book.dag)
    (hw : b.isValidWeight (link receiver (i + 2)).weight = true) :
    b.validateLeaf (env hub) (.calm []) (link receiver (i + 2)) = .ok () := by
  have hget := h.get_link (j := i + 1) (by omega)
  have hleft : (link receiver (i + 2)).leftParentHash = (link receiver (i + 1)).hash := rfl
  have hright : (link receiver (i + 2)).rightParentHash = (link receiver (i + 1)).hash := rfl
  have hmem : (link receiver (i + 2)).hash ∈ s.book.dag.graph.nodes :=
    Dag.mem_nodes (h.get_link le_rfl)
  have hdata : (link receiver (i + 2)).transaction.isSpiceTransfer = false := rfl
  have hverify : (link receiver (i + 2)).verify (env hub).verifier = true := link_verified _
  simp [Book.validateLeaf, hw, hverify, hmem, Book.checkIsTrustedNode, Probe.calm, hdata, hleft, hright,
    hd, hget]

theorem validates_data (h : Chain receiver (i + 2) s) (hi : i + 2 < 2 ^ 32) : Validates receiver (i + 2) s := by
  refine ⟨h.validateLeaf_data rfl (h.isValidWeight _), h.validateLeaf_data rfl ?_⟩
  have hwle : (link receiver (i + 2)).weight.toNat ≤ i + 2 := by
    rw [link_weight, UInt64.toNat_ofNat']; exact Nat.mod_le _ _
  obtain ⟨hw1, ht1⟩ := h.updated (w := (link receiver (i + 2)).weight) hi rfl h.weight h.throughput
    (by omega) hwle
  have hgt : (s.book.updateWeightAndThroughput (link receiver (i + 2)).weight).throughput >
      (s.book.updateWeightAndThroughput (link receiver (i + 2)).weight).weight := by
    rw [gt_iff_lt, UInt64.lt_iff_toNat_lt]; omega
  rw [Book.isValidWeight, if_pos hgt]

end Chain

/-- The deliveries that build the chain up to link `n`. -/
def chain (receiver : Address) : ℕ → List Event
  | 0 => []
  | n + 1 => chain receiver n ++ addEvents (link receiver (n + 1))

theorem mem_chain {receiver : Address} {e : Event} : ∀ {n : ℕ}, e ∈ chain receiver n →
    ∃ j ≤ n, e ∈ addEvents (link receiver j)
  | 0, h => by simp [chain] at h
  | n + 1, h => by
      rcases List.mem_append.mp h with h | h
      · obtain ⟨j, hj, hmem⟩ := mem_chain h
        exact ⟨j, by omega, hmem⟩
      · exact ⟨n + 1, le_rfl, h⟩

theorem chain_zero (receiver : Address) : Chain receiver 0 (start 10) := by
  have hf := founded (genesis_start 10)
  refine ⟨rfl, rfl, rfl, rfl, rfl, fun k v => ?_, fun x y => ?_, fun k w => ?_, by decide +kernel,
    by decide +kernel⟩
  · constructor
    · intro hv
      obtain ⟨rfl, rfl⟩ := hf.eq hv
      exact ⟨0, le_rfl, rfl, rfl⟩
    · rintro ⟨j, hj, rfl, rfl⟩
      obtain rfl : j = 0 := by omega
      exact hf.grown.get_self
  · simp only [Nat.not_lt_zero, false_and, exists_false, iff_false]
    intro hxy
    have hy : y = (root 10).hash := by
      obtain ⟨v, hv⟩ : ∃ v, (start 10).book.dag.getVertex y = some v := Digraph.mem_nodes.mp hxy.right
      exact (hf.eq hv).1
    subst hy
    simpa using hf.grown.arc_self.mp hxy
  · rw [hf.trxs]
    by_cases hk : k = (root 10).transaction.hash
    · subst hk
      rw [AList.lookup_insert, Option.some.injEq]
      constructor
      · rintro rfl; exact ⟨0, le_rfl, rfl, rfl⟩
      · rintro ⟨j, hj, -, rfl⟩
        obtain rfl : j = 0 := by omega
        rfl
    · rw [AList.lookup_insert_ne hk]
      refine iff_of_false (by simp) ?_
      rintro ⟨j, hj, rfl, -⟩
      obtain rfl : j = 0 := by omega
      exact hk rfl

/-- RUN: the chain is reachable, and its last link validates, if its first payment validates. -/
theorem chain_validates {receiver : Address}
    (hpay : Validates receiver 1 (run (Node.step (env hub)) (start 10) (chain receiver 1))) (n : ℕ) : n < 2 ^ 32 →
    Chain receiver n (run (Node.step (env hub)) (start 10) (chain receiver n)) ∧
      Validates receiver n (run (Node.step (env hub)) (start 10) (chain receiver n)) := by
  induction n with
  | zero =>
    have hroot : Validates [] 0 (start 10) := by decide +kernel
    exact fun _ => ⟨chain_zero receiver, hroot⟩
  | succ n ih =>
    intro hn
    obtain ⟨hchain, hvalid⟩ := ih (by omega)
    have hnext := hchain.add (by omega) hvalid
    rw [chain, run_append]
    refine ⟨hnext, ?_⟩
    cases n with
    | zero => exact hpay
    | succ n => exact hnext.validates_data (by omega)

theorem chain_run {receiver : Address}
    (hpay : Validates receiver 1 (run (Node.step (env hub)) (start 10) (chain receiver 1))) (n : ℕ)
    (hn : n < 2 ^ 32) :
    Chain receiver n (run (Node.step (env hub)) (start 10) (chain receiver n)) :=
  (chain_validates hpay n hn).1

-- a thousand links are reasoned about through the lemmas above, never by unfolding
attribute [irreducible] chain

/-! ### Truncating the chain -/

/-- One truncation of a chain of `n` links. A walk of a chain delivers the nearest ancestor first. -/
def cutChain (receiver : Address) (n : ℕ) : TruncateSchedule where
  pick := []
  first := ⟨(List.range n).reverse.map fun j => (link receiver j).hash, none⟩
  second := ⟨[], none⟩
  third := ⟨[], none⟩
  createFails := false
  backupFails := false
  backupVersion := 0
  iterFails := false
  saveVertexFails _ := false
  saveFundsFails _ := false
  fundsOrder := []

theorem Chain.above_eq {receiver : Address} {n : ℕ} {s : Node} (h : Chain receiver n s) (hn : n < 2 ^ 32) :
    s.book.dag.above (link receiver n).hash ((List.range n).reverse.map fun j => (link receiver j).hash) =
      (List.range n).reverse.map (link receiver) := by
  have hanc : ∀ x, x ∈ (List.range n).reverse.map (fun j => (link receiver j).hash) ↔
      x ∈ s.book.dag.graph.ancestors (link receiver n).hash := by
    intro x
    rw [Digraph.mem_ancestors, h.anc_iff hn le_rfl]
    simp [eq_comm]
  have hnodup : ((List.range n).reverse.map fun j => (link receiver j).hash).Nodup := by
    refine List.Nodup.map_on (fun j hj k hk heq => ?_) (List.nodup_reverse.mpr List.nodup_range)
    rw [List.mem_reverse, List.mem_range] at hj hk
    exact link_hash_inj (by omega) (by omega) heq
  rw [Dag.above, arrange_self hanc, firsts_eq_self hnodup (by simp), Dag.vertices, List.filterMap_map,
    ← List.filterMap_eq_map]
  refine List.filterMap_congr fun j hj => ?_
  exact h.get_link (List.mem_range.mp (List.mem_reverse.mp hj)).le

theorem range_reverse_split (m : ℕ) : (List.range (m + 1000)).reverse =
    ((List.range 999).map (m + 1 + ·)).reverse ++ m :: (List.range m).reverse := by
  have hsplit : List.range (m + 1000) = List.range m ++ [m] ++ (List.range 999).map (m + 1 + ·) := by
    rw [← List.range_succ, ← List.range_add]
  rw [hsplit, List.reverse_append, List.reverse_append]
  rfl

theorem Chain.cutTop {receiver : Address} {m : ℕ} {s : Node} (h : Chain receiver (m + 1000) s)
    (hm : m + 1000 < 2 ^ 32) :
    s.book.cutTop (cutChain receiver (m + 1000)) (link receiver (m + 1000)).hash = (link receiver m).hash := by
  have hmem : (link receiver (m + 1000)).hash ∈ s.book.dag.graph.nodes :=
    Dag.mem_nodes (h.get_link le_rfl)
  have hdepth : (newHashAtDepth truncateDiff).depth.toNat =
      (((List.range 999).map (m + 1 + ·)).reverse.map (link receiver)).length + 1 := by
    rw [List.length_map, List.length_reverse, List.length_map, List.length_range]; rfl
  rw [Book.cutTop, cutChain, performOnAncestorWalker_calm hmem, h.above_eq (by omega),
    range_reverse_split, List.map_append, List.map_cons]
  exact performAll_next _ _ _ _ hdepth

theorem Chain.cut {receiver : Address} {m : ℕ} {s : Node} (h : Chain receiver (m + 1000) s)
    (hm : m + 1000 < 2 ^ 32) : ∃ b', s.book.truncate (env hub) (cutChain receiver (m + 1000)) = (b', none) ∧
      Cut codec (cutChain receiver (m + 1000)) s.book b' (link receiver m).hash := by
  have hleaves : enumerate (cutChain receiver (m + 1000)).pick s.book.dag.graph.leaves =
      [(link receiver (m + 1000)).hash] := by
    rw [h.leaves_eq (by omega)]; rfl
  have htop : (link receiver m).hash ∈ s.book.dag.graph.nodes :=
    Dag.mem_nodes (h.get_link (by omega))
  obtain ⟨b', hb'⟩ := cutBelow_isOk codec { s.book with lastBackup := 1 } (t := cutChain receiver (m + 1000))
    ⟨rfl, rfl, fun _ => rfl, fun _ => rfl⟩ htop (fun v _ _ => by rw [h.unstored]; rfl)
  refine ⟨b', ?_, (cutBelow_ok hb').of_lastBackup⟩
  rw [Book.truncate, hleaves]
  simp only [h.cutTop hm]
  exact hb'

end Transparent

end Computantis
