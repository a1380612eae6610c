import Computantis.Laws.Growth
import Computantis.Laws.Shelf

/-! @law uniqueness | name:One vertex per transaction | family:invariant | about:Model/Node

    With working stores the index is exact: it maps a transaction to the one vertex, of the graph or
    of the vertex store, that carries it. Rejections erase their own mapping, an insertion that fails
    leaves none, and a truncation moves vertices from the graph to the store and keeps the index.

    The last needs two things that the code does not check. The vertex store keeps vertices and funds
    in one key space and takes every key of 32 bytes for a vertex, so an address of 32 bytes can name
    the key of a vertex. And a truncation that is cancelled halfway leaves vertices in both places. -/

namespace Computantis

open Schemes

/-- INVARIANT: the index is exact, nothing is in the graph and in the store, and every key of 32 bytes
    holds the vertex with that hash. -/
structure Exact (codec : Codec) (digest : Bytes → Hash) (M : Set Bytes) (b : Book) : Prop where
  sealed : ∀ v, Held codec b v → SealedIn digest M v
  index : ∀ h w, b.trxsToVertxDB.lookup h = some w ↔
    ∃ v, Held codec b v ∧ v.transaction.hash = h ∧ v.hash = w
  apart : ∀ u v, b.dag.getVertex u.hash = some u → InStore codec b v → u.hash ≠ v.hash
  keys : ∀ (k : Hash) buf, b.verticesDB.lookup k.bytes = some buf →
    ∃ v, v.hash = k ∧ codec.decodeVertex buf = (v, true)

namespace Exact

variable {env : Env} {digest : Bytes → Hash} {M : Set Bytes} {codec : Codec} {b b' : Book}

theorem shelved (h : Exact codec digest M b) : Shelved codec digest M b :=
  ⟨h.sealed, fun v hv => (h.index _ _).mpr ⟨v, hv, rfl, rfl⟩, h.apart, h.keys⟩

theorem held_of_lookup (h : Exact codec digest M b) {k w : Hash}
    (hk : b.trxsToVertxDB.lookup k = some w) : ∃ v, Held codec b v ∧ v.transaction.hash = k ∧ v.hash = w :=
  (h.index k w).mp hk

end Exact

section

variable {digest : Bytes → Hash} {M : Set Bytes}

theorem Shelved.exact {codec : Codec} {b : Book} (h : Shelved codec digest M b)
    (hback : ∀ k w, b.trxsToVertxDB.lookup k = some w →
      ∃ v, Held codec b v ∧ v.transaction.hash = k ∧ v.hash = w) : Exact codec digest M b := by
  refine ⟨h.sealed, fun k w => ⟨hback k w, ?_⟩, h.apart, h.keys⟩
  rintro ⟨v, hv, rfl, rfl⟩
  exact h.mapped v hv

namespace Exact

variable {env : Env} {digest : Bytes → Hash} {M : Set Bytes} {codec : Codec} {b b' : Book}

theorem of_eq (h : Exact codec digest M b) (hd : b'.dag = b.dag) (hs : b'.verticesDB = b.verticesDB)
    (ht : b'.trxsToVertxDB = b.trxsToVertxDB) : Exact codec digest M b' := by
  refine (h.shelved.of_eq (fun k => by rw [hd]) hs ht).exact fun k w hk => ?_
  obtain ⟨v, hv, heq⟩ := h.held_of_lookup (ht ▸ hk)
  exact ⟨v, by rwa [Held, InStore, hd, hs], heq⟩

theorem reject (h : Exact codec digest M b) {u : Vertex} (hu : b.dag.getVertex u.hash = some u)
    (hd : b'.dag = b.dag.deleteVertex u.hash) (hs : b'.verticesDB = b.verticesDB)
    {faults : Faults} (hf : ∀ k, faults.removeTrx k = false)
    (ht : b'.trxsToVertxDB = unmapped faults b.trxsToVertxDB u.transaction.hash) :
    Exact codec digest M b' := by
  refine (h.shelved.reject hu hd hs ht).exact fun k w hk => ?_
  rw [ht, unmapped, hf, if_neg (by simp)] at hk
  rcases eq_or_ne k u.transaction.hash with rfl | hne
  · rw [AList.lookup_erase] at hk
    cases hk
  · rw [AList.lookup_erase_ne hne] at hk
    obtain ⟨v, hv, rfl, rfl⟩ := h.held_of_lookup hk
    exact ⟨v, (h.shelved.held_reject hu hd hs v).mpr ⟨hv, fun e => hne (e ▸ rfl)⟩, rfl, rfl⟩

theorem grow (hd : Digests env digest M) (h : Exact codec digest M b) {leaf : Vertex} {ps : List Hash}
    (hleaf : SealedIn digest M leaf) (hunused : b.trxsToVertxDB.lookup leaf.transaction.hash = none)
    (hg : Digraph.Grown b.dag.graph b'.dag.graph leaf.hash leaf ps)
    (hs : b'.verticesDB = b.verticesDB)
    (ht : b'.trxsToVertxDB = b.trxsToVertxDB.insert leaf.transaction.hash leaf.hash) :
    Exact codec digest M b' := by
  refine (h.shelved.grow hd hleaf hunused hg hs ht).exact fun k w hk => ?_
  rw [ht] at hk
  rcases eq_or_ne k leaf.transaction.hash with rfl | hne
  · rw [AList.lookup_insert, Option.some.injEq] at hk
    exact ⟨leaf, (held_grown hg hs leaf).mpr (Or.inl rfl), rfl, hk⟩
  · rw [AList.lookup_insert_ne hne] at hk
    obtain ⟨v, hv, heq⟩ := h.held_of_lookup hk
    exact ⟨v, (held_grown hg hs v).mpr (Or.inr hv), heq⟩

theorem move (hd : Digests env digest M) {faults : Faults} (hf : ∀ k, faults.removeTrx k = false)
    {origin : Vertex → Vertex → Vertex → Prop}
    (ho : ∀ leaf l r, origin leaf l r → SealedIn digest M leaf) (hm : Move env faults origin b b')
    (h : Exact codec digest M b) : Exact codec digest M b' := by
  cases hm with
  | idle hframe hdag ht => exact h.of_eq hdag hframe.verticesDB ht
  | reject hframe hknown _ _ hdag ht => exact h.reject hknown hdag hframe.verticesDB hf ht
  | refuse _ hs hknown hunused => exact absurd hunused (h.shelved.not_refused hd (ho _ _ _ hs) hknown)
  | grow hframe hs _ _ _ _ hunused hdag ht =>
    exact h.grow hd (ho _ _ _ hs) hunused hdag hframe.verticesDB ht

theorem cut (hc : codec.Faithful) (h : Exact codec digest M b) {t : TruncateSchedule} {top : Hash}
    (hcut : Cut codec t b b' top) (hparty : NoHashAddress b) : Exact codec digest M b' := by
  refine (h.shelved.cut hc hcut hparty).exact fun k w hk => ?_
  rw [hcut.frame] at hk
  obtain ⟨v, hv, heq⟩ := h.held_of_lookup hk
  exact ⟨v, (held_cut hc hcut hparty v).mpr hv, heq⟩

end Exact

/-! ### The runs -/

/-- The store operations whose failure nobody notices or repairs do not fail. -/
def Event.StoresWork : Event → Prop
  | .truncate t => (∀ k, t.saveVertexFails k = false) ∧ ∀ a, t.saveFundsFails a = false
  | e => ∀ k, e.faults.removeTrx k = false

/-- A truncation is not cancelled once it saves, and nobody who moves spice in the graph has an address
    of 32 bytes. -/
def CleanCut (s : Node) : Event → Prop
  | .truncate t => t.second.cancelAt = none ∧ t.third.cancelAt = none ∧ NoHashAddress s.book
  | _ => True

theorem Exact.step {env : Env} (hc : env.codec.Faithful) (hd : Digests env digest M) {s : Node}
    (hs : s.PendingVerified env) {e : Event} (hwork : e.StoresWork) (hM : SealsIn env M s e) (hclean : CleanCut s e)
    (h : Exact env.codec digest M s.book) : Exact env.codec digest M (s.step env e).book := by
  by_cases he : e.Ordinary
  · have hfaults : ∀ k, e.faults.removeTrx k = false := by
      cases e with
      | truncate t => exact he.elim
      | _ => exact hwork
    exact Moves.invariant (fun hm hb => hb.move hd hfaults (fun _ _ _ ho => hd.origin hs hM ho) hm)
      (s.step_moves env he) h
  · cases e with
    | truncate t =>
      obtain ⟨hsecond, hthird, hparty⟩ := hclean
      rcases h.shelved.truncate_cut ⟨hsecond, hthird, hwork.1, hwork.2⟩ with ⟨n, hn⟩ | ⟨top, hcut⟩
      · exact h.of_eq (by rw [Node.step, hn]) (by rw [Node.step, hn]) (by rw [Node.step, hn])
      · exact h.cut hc hcut hparty
    | _ => exact absurd trivial he

theorem exact_genesis {env : Env} (hd : Digests env digest M) {n : UInt64} {spec : Book.GenesisSpec} {s : Node}
    {g : Vertex} (h : Node.genesis env n spec = some (s, g)) (hg : g.initData ∈ M) :
    Exact env.codec digest M s.book := by
  have hf := founded h
  refine (shelved_genesis hd h hg).exact fun k w hk => ?_
  rw [hf.trxs] at hk
  rcases eq_or_ne k g.transaction.hash with rfl | hne
  · rw [AList.lookup_insert, Option.some.injEq] at hk
    exact ⟨g, Or.inl hf.grown.get_self, rfl, hk⟩
  · rw [AList.lookup_insert_ne hne] at hk
    simp at hk

end

/-- TRANSACTION UNIQUENESS AND INDEX CONSISTENCY: in every run whose truncations are clean, the index
    maps `k` to `w` exactly when exactly one vertex of the graph or the vertex store carries a
    transaction with hash `k` and that vertex has hash `w`, and no two vertices hold the same
    transaction. -/
theorem transactions_unique {env : Env} (hc : env.codec.Faithful) {digest : Bytes → Hash} {M : Set Bytes}
    (hd : Digests env digest M) {n : UInt64} {spec : Book.GenesisSpec} {s : Node} {g : Vertex}
    (h : Node.genesis env n spec = some (s, g)) (hg : g.initData ∈ M) {es : List Event}
    (hwork : ∀ e ∈ es, e.StoresWork) (hM : Along (Node.step env) (SealsIn env M) s es)
    (hclean : Along (Node.step env) CleanCut s es) :
    let b := (run (Node.step env) s es).book
    (∀ k w, b.trxsToVertxDB.lookup k = some w ↔
      ∃ v, Held env.codec b v ∧ v.transaction.hash = k ∧ v.hash = w ∧
        ∀ u, Held env.codec b u → u.transaction.hash = k → u = v) ∧
    ∀ u v, Held env.codec b u → Held env.codec b v → u.transaction.hash = v.transaction.hash → u = v := by
  intro b
  have hrun := run_invariant_along
    (P := fun (s : Node) (e : Event) => (e.StoresWork ∧ SealsIn env M s e) ∧ CleanCut s e)
    (I := fun (s : Node) => Exact env.codec digest M s.book ∧ s.PendingVerified env)
    (fun s e ⟨⟨hw, hm⟩, hcl⟩ ⟨hex, hp⟩ => ⟨hex.step hc hd hp hw hm hcl, hp.step e⟩)
    (((along_of_forall hwork s).and hM).and hclean)
    ⟨exact_genesis hd h hg, by rw [Node.PendingVerified, Node.PendingAdds, (founded h).pending]; simp⟩
  have hex : Exact env.codec digest M b := hrun.1
  refine ⟨fun k w => ?_, fun u v hu hv heq => hex.shelved.unique hu hv heq⟩
  rw [hex.index]
  refine exists_congr fun v => and_congr_right fun hv => and_congr_right fun hk => ?_
  exact (and_iff_left fun u hu hku => hex.shelved.unique hu hv (hku.trans hk.symm)).symm

theorem run_truncate (env : Env) (s : Node) (es : List Event) (t : TruncateSchedule) :
    (run (Node.step env) s (es ++ [.truncate t])).book =
      ((run (Node.step env) s es).book.truncate env t).1 := by
  rw [run_append]; rfl

namespace Transparent

/-- The messages under the seals of the first links. -/
def linkMessages (receiver : Address) (n : ℕ) : Set Bytes := {m | ∃ j ≤ n, m = (link receiver j).initData}

theorem digests_links (receiver : Address) {n : ℕ} (hn : n < 2 ^ 64) :
    Digests (env hub) digest (linkMessages receiver n) where
  signer _ := rfl
  verifier message signature hash address h := by
    simp only [env, verifier_verify, decide_eq_true_eq] at h
    exact h.1
  injective := by
    rintro _ ⟨i, hi, rfl⟩ _ ⟨j, hj, rfl⟩ h
    rw [← link_hash, ← link_hash] at h
    rw [link_hash_inj (by omega) (by omega) h]

section

variable {s : Node} {receiver : Address}

theorem Chain.noHashAddress {n : ℕ} (h : Chain receiver n s) (hlen : receiver.length ≠ 32) : NoHashAddress s.book := by
  intro v a hv hp
  obtain ⟨j, -, rfl, -⟩ := (h.get _ _).mp hv
  rcases link_party hp with rfl | rfl | rfl
  · decide
  · decide
  · exact hlen

section ChainRun

variable (receiver : Address) (n : ℕ) (t : TruncateSchedule)

theorem root_mem_linkMessages : (root 10).initData ∈ linkMessages receiver n := ⟨0, by omega, rfl⟩

theorem storesWork_chain (hvertex : ∀ k, t.saveVertexFails k = false)
    (hfunds : ∀ a, t.saveFundsFails a = false) :
    ∀ e ∈ chain receiver n ++ [.truncate t], e.StoresWork := by
  intro e he
  rcases List.mem_append.mp he with he | he
  · obtain ⟨j, -, hmem⟩ := mem_chain he
    simp only [addEvents, List.mem_cons, List.not_mem_nil, or_false] at hmem
    rcases hmem with rfl | rfl <;> exact fun _ => rfl
  · rw [List.mem_singleton.mp he]
    exact ⟨hvertex, hfunds⟩

theorem cleanCut_chain (hsecond : t.second.cancelAt = none) (hthird : t.third.cancelAt = none)
    (hn : Chain receiver n (run (Node.step (env hub)) (start 10) (chain receiver n)))
    (hlen : receiver.length ≠ 32) :
    Along (Node.step (env hub)) CleanCut (start 10) (chain receiver n ++ [.truncate t]) := by
  refine Along.append (along_of_always (fun e he s => ?_) _) ⟨⟨hsecond, hthird, fun v a hv hp => ?_⟩, trivial⟩
  · obtain ⟨j, -, hmem⟩ := mem_chain he
    simp only [addEvents, List.mem_cons, List.not_mem_nil, or_false] at hmem
    rcases hmem with rfl | rfl <;> trivial
  · exact hn.noHashAddress hlen v a hv hp

theorem sealsIn_chain : Along (Node.step (env hub)) (SealsIn (env hub) (linkMessages receiver n)) (start 10)
    (chain receiver n ++ [.truncate t]) := by
  refine along_of_always (fun e he s => ?_) _
  rcases List.mem_append.mp he with he | he
  · obtain ⟨j, hj, hmem⟩ := mem_chain he
    simp only [addEvents, List.mem_cons, List.not_mem_nil, or_false] at hmem
    rintro leaf l r ho
    rcases hmem with rfl | rfl
    · exact ho.elim
    · obtain ⟨-, rfl⟩ := ho
      exact ⟨j, hj, rfl⟩
  · rw [List.mem_singleton.mp he]
    exact fun _ _ _ ho => ho.elim

end ChainRun

/-- An address with the bytes of the genesis hash. -/
def victim : Address := (root 10).hash.bytes

theorem victim_chain : Chain victim 1002 (run (Node.step (env hub)) (start 10) (chain victim 1002)) :=
  chain_run (by decide +kernel) 1002 (by omega)

theorem plain_chain :
    Chain (wallet 8) 1002 (run (Node.step (env hub)) (start 10) (chain (wallet 8) 1002)) :=
  chain_run (by decide +kernel) 1002 (by omega)

theorem Chain.victim_mem_cutFunds (h : Chain victim 1002 s) :
    (root 10).hash.bytes ∈ cutFunds codec s.book (cutChain victim 1002) (link victim 2).hash := by
  refine mem_fundsOver.mpr (Or.inr ⟨link victim 1, Dag.mem_above.mpr ⟨?_, ?_⟩, ?_⟩)
  · exact h.get_link (by omega)
  · exact (h.anc_iff (by omega) (by omega) _).mpr ⟨1, by omega, rfl⟩
  · exact ⟨by decide +kernel, Or.inr rfl⟩

theorem Chain.root_cut (h : Chain receiver 1002 s) {b' : Book}
    (hcut : Cut codec (cutChain receiver 1002) s.book b' (link receiver 2).hash) :
    b'.dag.getVertex (root 10).hash = none := by
  rw [hcut.get, if_pos]
  exact (h.anc_iff (by omega) (by omega) _).mpr ⟨0, by omega, rfl⟩

theorem genesis_of_cut (hchain : Chain receiver 1002 s) {b : Book}
    (hb : b = (s.book.truncate (env hub) (cutChain receiver 1002)).1) {P : Hash → Hash → Prop}
    (hindex : ∀ k w, b.trxsToVertxDB.lookup k = some w ↔ P k w) :
    b.dag.getVertex (root 10).hash = none ∧ P (root 10).transaction.hash (root 10).hash := by
  obtain ⟨b', hb', hcut⟩ := hchain.cut (m := 2) (by omega)
  rw [hb'] at hb
  subst hb
  refine ⟨hchain.root_cut hcut, (hindex _ _).mp ?_⟩
  rw [hcut.frame]
  exact (hchain.trxs _ _).mpr ⟨0, by omega, rfl, rfl⟩

/-- A payment to the bytes of the genesis hash, then a truncation: the index still maps the genesis
    transaction to the genesis vertex, but the funds have overwritten it and no vertex carries it. -/
theorem overwritten_of_cut (hchain : Chain victim 1002 s) {b : Book}
    (hb : b = (s.book.truncate (env hub) (cutChain victim 1002)).1) :
    ¬ ∀ k w, b.trxsToVertxDB.lookup k = some w ↔
      ∃ v, Held (env hub).codec b v ∧ v.transaction.hash = k ∧ v.hash = w ∧
        ∀ u, Held (env hub).codec b u → u.transaction.hash = k → u = v := by
  intro hindex
  obtain ⟨hgone, v, hv, -, hhash, -⟩ := genesis_of_cut hchain hb hindex
  obtain ⟨b', hb', hcut⟩ := hchain.cut (m := 2) (by omega)
  rw [hb'] at hb
  subst hb
  rcases hv with hv | ⟨buf, hbuf, hdec⟩
  · rw [hhash, hgone] at hv
    cases hv
  · -- under the hash of the genesis vertex there are funds now
    rw [hhash, hcut.funds _ hchain.victim_mem_cutFunds] at hbuf
    cases hbuf
    have hzero : v = zeroVertex := (Prod.mk.inj hdec).1.symm
    rw [hzero] at hhash
    exact absurd hhash.symm (digest_ne_zero _)

end

end Transparent

open Transparent in
/-- In a run whose digests do not collide and whose stores work the index maps a transaction that no
    vertex carries. -/
theorem stored_vertex_overwritten :
    let es := chain victim 1002 ++ [.truncate (cutChain victim 1002)]
    let M := linkMessages victim 1002
    let b := (run (Node.step (env hub)) (start 10) es).book
    Digests (env hub) digest M ∧ (root 10).initData ∈ M ∧
    (∀ e ∈ es, e.StoresWork) ∧ Along (Node.step (env hub)) (SealsIn (env hub) M) (start 10) es ∧
    ¬ ∀ k w, b.trxsToVertxDB.lookup k = some w ↔
      ∃ v, Held (env hub).codec b v ∧ v.transaction.hash = k ∧ v.hash = w ∧
        ∀ u, Held (env hub).codec b u → u.transaction.hash = k → u = v :=
  ⟨digests_links victim (by omega), root_mem_linkMessages victim 1002,
    storesWork_chain victim 1002 (cutChain victim 1002) (fun _ => rfl) (fun _ => rfl),
    sealsIn_chain victim 1002 (cutChain victim 1002), overwritten_of_cut victim_chain (run_truncate _ _ _ _)⟩

open Transparent in
/-- The law at a chain that is cut: the genesis transaction belongs to one vertex, now in the store. -/
theorem chain_unique :
    let b := (run (Node.step (env hub)) (start 10)
      (chain (wallet 8) 1002 ++ [.truncate (cutChain (wallet 8) 1002)])).book
    b.dag.getVertex (root 10).hash = none ∧
    ∃ v, Held (env hub).codec b v ∧ v.transaction.hash = (root 10).transaction.hash ∧
      v.hash = (root 10).hash ∧
      ∀ u, Held (env hub).codec b u → u.transaction.hash = (root 10).transaction.hash → u = v :=
  have hchain := plain_chain
  have hlaw := transactions_unique codec_faithful (digests_links (wallet 8) (by omega)) (genesis_start 10)
    (root_mem_linkMessages (wallet 8) 1002)
    (storesWork_chain (wallet 8) 1002 (cutChain (wallet 8) 1002) (fun _ => rfl) (fun _ => rfl))
    (sealsIn_chain (wallet 8) 1002 (cutChain (wallet 8) 1002))
    (cleanCut_chain (wallet 8) 1002 (cutChain (wallet 8) 1002) rfl rfl hchain (by decide))
  genesis_of_cut hchain (run_truncate _ _ _ _) hlaw.1

end Computantis
