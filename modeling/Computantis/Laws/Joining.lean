import Computantis.Laws.Reading
import Computantis.Laws.Retention
import Computantis.Laws.Streaming

/-! @law joining | name:Joining after a truncation | family:roundtrip | about:Model/Stream, Model/Truncate

    A vertex keeps naming its parents when a truncation has moved them to the store, and `LoadDag` draws
    the edges that the vertices name. So the stream of a book whose oldest vertices have been cut cannot
    be loaded: the only vertex that names no parents is the genesis vertex, and a truncation that cuts
    anything cuts it. As long as it is there nothing has been cut and nothing is in the store. -/

namespace Computantis

open Schemes

/-! ### What is left of the graph after truncations -/

/-- A truncation returns no error. -/
def Node.Succeeds (env : Env) (s : Node) : Event → Prop
  | .truncate t => (s.book.truncate env t).2 = none
  | _ => True

/-- A vertex that came in by a call: it has passed the guards, and it names a parent. -/
structure Descendant (v : Vertex) : Prop where
  proper : Proper v.signerPublicAddress v.transaction
  parent : v.leftParentHash ≠ Hash.zero

/-- INVARIANT: everything but `g` came in by a call, and if `g` is there, nothing has been cut. -/
structure Descends (g : Vertex) (b : Book) : Prop where
  nonzero : ∀ k, k ∈ b.dag.graph.nodes → k ≠ Hash.zero
  besides : OnlyBesides g Descendant b
  intact : b.dag.getVertex g.hash = some g → Closed g b ∧ b.verticesDB = ∅

namespace Descends

variable {g : Vertex} {b b' : Book}

theorem of_shrunk (h : Descends g b) (hget : ∀ k v, b'.dag.getVertex k = some v → b.dag.getVertex k = some v)
    (hintact : b'.dag.getVertex g.hash = some g → Closed g b' ∧ b'.verticesDB = ∅) : Descends g b' := by
  refine ⟨fun k hk => ?_, fun k v hv => h.besides k v (hget k v hv), hintact⟩
  obtain ⟨v, hv⟩ := Digraph.mem_nodes.mp hk
  exact h.nonzero k (Dag.mem_nodes (hget k v hv))

theorem move {env : Env} {faults : Faults} {origin : Vertex → Vertex → Vertex → Prop}
    (ho : ∀ leaf l r, origin leaf l r → leaf.hash ≠ Hash.zero ∧
      Proper leaf.signerPublicAddress leaf.transaction)
    (hg : g.leftParentHash = Hash.zero) (hm : Move env faults origin b b') (h : Descends g b) :
    Descends g b' := by
  have hclosed : Closed g b → Closed g b' := fun hc => hc.move (fun leaf l r hs => (ho leaf l r hs).1) hm
  have hstore : b'.verticesDB = b.verticesDB := hm.frame.verticesDB
  have hintact : b.dag.getVertex g.hash = some g → Closed g b' ∧ b'.verticesDB = ∅ := fun hget =>
    (h.intact hget).imp hclosed fun hempty => hstore.trans hempty
  cases hm with
  | idle _ hd _ => exact h.of_shrunk (fun k v hv => hd ▸ hv) fun hget => hintact (hd ▸ hget)
  | refuse _ _ _ _ hd _ => exact h.of_shrunk (fun k v hv => hd ▸ hv) fun hget => hintact (hd ▸ hget)
  | reject hf _ hleaf _ hd _ =>
    have hrem := Remains.of_delete hf hleaf hd
    exact h.of_shrunk (fun k v hv => hrem.get hv) fun hget => hintact (hrem.get hget)
  | @grow leaf l r _ hs left _ hl _ _ hd _ =>
    obtain ⟨hleaf, hproper⟩ := ho leaf l r hs
    have hparent : leaf.leftParentHash ≠ Hash.zero :=
      left ▸ h.nonzero _ (Dag.mem_nodes hl.1)
    have hget := getVertex_grown hd
    refine ⟨fun k hk => ?_, fun k v hv => ?_, fun hgenesis => hintact ?_⟩
    · rcases hd.mem.mp hk with rfl | hk
      · exact hleaf
      · exact h.nonzero k hk
    · obtain rfl : v.hash = k := b'.dag.keyed hv
      rcases (hget v).mp hv with rfl | hv
      · exact Or.inr ⟨hproper, hparent⟩
      · exact h.besides _ v hv
    · rcases (hget g).mp hgenesis with rfl | hold
      · exact absurd hg hparent
      · exact hold

theorem intact_cut {codec : Codec} {t : TruncateSchedule} {top : Hash} (hc : Closed g b)
    (hempty : b.verticesDB = ∅) (hcut : Cut codec t b b' top) (hg : b'.dag.getVertex g.hash = some g) :
    Closed g b' ∧ b'.verticesDB = ∅ := by
  have hnone : ∀ k, ¬ b.dag.graph.Anc k top := by
    rw [hcut.get] at hg
    split at hg
    · cases hg
    next hnot =>
      rcases hc.reach top hcut.known with rfl | hanc
      · intro k hk
        obtain ⟨p, -, hp⟩ := Relation.TransGen.tail'_iff.mp hk
        exact hc.root p hp
      · exact absurd hanc hnot
  have hget : ∀ k, b'.dag.getVertex k = b.dag.getVertex k := fun k => by rw [hcut.get, if_neg (hnone k)]
  have harc : ∀ x y, b'.dag.graph.Arc x y ↔ b.dag.graph.Arc x y := fun x y => by
    rw [hcut.arc]
    exact and_iff_left ⟨hnone x, hnone y⟩
  have hfunds : ∀ a, a ∉ cutFunds codec b t top := fun a ha => by
    rcases mem_fundsOver.mp ha with ha | ⟨v, hv, -⟩
    · simp [forEachfundFromStorage, hempty, AList.mem_keys] at ha
    · exact hnone _ (Dag.mem_above.mp hv).2
  have hlookup : ∀ k, k ∉ b'.verticesDB := fun k => by
    rw [← AList.lookup_eq_none, hcut.other k (hfunds k) fun v _ hanc => absurd hanc (hnone _), hempty]
    exact AList.lookup_empty k
  refine ⟨hc.congr hget harc, AList.ext (List.eq_nil_iff_forall_not_mem.mpr fun e he => ?_)⟩
  exact hlookup e.1 (AList.mem_keys.mpr (List.mem_keys_of_mem he))

theorem truncate {env : Env} {t : TruncateSchedule} (hok : (b.truncate env t).2 = none)
    (h : Descends g b) : Descends g (b.truncate env t).1 := by
  cases hleaves : enumerate t.pick b.dag.graph.leaves with
  | nil =>
    rw [show b.truncate env t = (b, none) by rw [Book.truncate, hleaves]]
    exact h
  | cons leaf rest =>
    have hcut := truncate_ok (by rw [hleaves]; rfl) hok
    have hget : ∀ k v, (b.truncate env t).1.dag.getVertex k = some v → b.dag.getVertex k = some v := by
      intro k v hv
      rw [hcut.get] at hv
      split at hv
      · cases hv
      · exact hv
    refine h.of_shrunk hget fun hg => ?_
    obtain ⟨hc, hempty⟩ := h.intact (hget _ _ hg)
    exact intact_cut hc hempty hcut hg

end Descends

/-- INVARIANT of the node. -/
structure Joinable (env : Env) (g : Vertex) (s : Node) : Prop where
  admitted : Admitted env s
  verified : s.PendingVerified env
  indexed : Indexed s.book
  descends : Descends g s.book

section

variable {env : Env} {g : Vertex} {s : Node} {spec : Book.GenesisSpec}

theorem Joinable.step (hz : NonzeroDigests env) (hg : g.leftParentHash = Hash.zero) {e : Event}
    (he : s.Succeeds env e) (h : Joinable env g s) : Joinable env g (s.step env e) := by
  by_cases hord : e.Ordinary
  · refine ⟨h.admitted.step e, h.verified.step e, h.indexed.step hord, ?_⟩
    exact Moves.invariant (fun hm hb => hb.move (fun leaf l r ho =>
      ⟨hz.origin_ne h.verified ho, h.admitted.origin ho⟩) hg hm) (s.step_moves env hord) h.descends
  · cases e with
    | truncate t =>
      exact ⟨h.admitted.step _, h.verified.step _, h.indexed.truncate env t, h.descends.truncate he⟩
    | _ => exact absurd trivial hord

theorem joinable_genesis (hz : NonzeroDigests env) {n : UInt64} (h : Node.genesis env n spec = some (s, g)) :
    Joinable env g s := by
  have hf := founded h
  have hc := closed_genesis hz h
  refine ⟨hf.admitted, ?_, indexed_genesis h, hc.nonzero, fun k v hv => Or.inl (hf.eq hv).2,
    fun _ => ⟨hc, hf.verticesDB⟩⟩
  rw [Node.PendingVerified, Node.PendingAdds, hf.pending]
  simp

/-- RUN: the invariant holds after calls and successful truncations. -/
theorem joinable_run (hz : NonzeroDigests env) {n : UInt64} (h : Node.genesis env n spec = some (s, g))
    {es : List Event} (hes : Along (Node.step env) (Node.Succeeds env) s es) :
    Joinable env g (run (Node.step env) s es) := by
  have hg : g.leftParentHash = Hash.zero := by
    obtain ⟨t, -, rfl⟩ := (founded h).made
    rfl
  exact run_invariant_along (I := Joinable env g) (fun s e he hs => hs.step hz hg he) hes
    (joinable_genesis hz h)

end

/-! ### Balances -/

theorem walkBalance_congr {d d' : Dag} (hget : ∀ k, d'.getVertex k = d.getVertex k) (a : Address)
    (c : Option ℕ) (ids : List Hash) : ∀ (i : ℕ) (visited : List Hash) (pots : Pots),
      Book.walkBalance d' a c ids i visited pots = Book.walkBalance d a c ids i visited pots := by
  induction ids with
  | nil => exact fun _ _ _ => rfl
  | cons id ids ih =>
    intro i visited pots
    simp only [Book.walkBalance, hget, ih]

theorem balanceFrom_congr {codec : Codec} {b b' : Book} (hget : ∀ k, b'.dag.getVertex k = b.dag.getVertex k)
    (hstore : b'.verticesDB = b.verticesDB) {leaf : Hash} {p : WalkProbe}
    (hp : ∀ x, x ∈ p.order ↔ b.dag.graph.Anc x leaf) (hp' : ∀ x, x ∈ p.order ↔ b'.dag.graph.Anc x leaf)
    (fails : Bool) (a : Address) :
    b'.balanceFrom codec leaf p fails a = b.balanceFrom codec leaf p fails a := by
  have harrange : arrange p.order (b.dag.graph.ancestors leaf) = p.order :=
    arrange_self fun x => (hp x).trans Digraph.mem_ancestors.symm
  have harrange' : arrange p.order (b'.dag.graph.ancestors leaf) = p.order :=
    arrange_self fun x => (hp' x).trans Digraph.mem_ancestors.symm
  simp only [Book.balanceFrom, hget, harrange, harrange', walkBalance_congr hget,
    Book.readAddressFundsFromStorage, hstore]

/-! ### Joining -/

/-- A new node loads the stream, and every balance from a leaf is that of the streaming node when both
    walk the past of the leaf in the same order. -/
def Joins (codec : Codec) (b : Book) (sched : StreamSchedule) (m : UInt64) (load : LoadSchedule) : Prop :=
  ∃ b', (newAccountingBook m).loadDag load ((b.dag.stream sched).map some) = (b', none) ∧
    ∀ leaf ∈ b.dag.graph.leaves, ∀ p : WalkProbe, (∀ x, x ∈ p.order ↔ b.dag.graph.Anc x leaf) →
      ∀ fails a, b'.balanceFrom codec leaf p fails a = b.balanceFrom codec leaf p fails a

section Joining

variable {env : Env} {g : Vertex} {s : Node} {sched : StreamSchedule} {m : UInt64} {load : LoadSchedule}

theorem Joinable.genesis_of_load (h : Joinable env g s) (hcalm : sched.cancelAt = none) {b' : Book}
    (hload : (newAccountingBook m).loadDag load ((s.book.dag.stream sched).map some) = (b', none)) :
    s.book.dag.getVertex g.hash = some g ∧ g.transaction.isEmpty = false := by
  have hl := loadable_of_loadDag (newAccountingBook_getVertex m) hload
  rw [delivered_map_some] at hl
  have hmem : ∀ v, v ∈ s.book.dag.stream sched ↔ s.book.dag.getVertex v.hash = some v := fun v =>
    (stream_perm hcalm).2.mem_iff.trans Dag.mem_all
  obtain ⟨v0, hv0⟩ := List.exists_mem_of_ne_nil _ hl.nonempty
  obtain ⟨k, hk⟩ := List.exists_mem_of_ne_nil _ (b'.dag.graph.roots_ne_nil
    (Digraph.mem_nodes.mpr ⟨v0, (hl.get _ _).mpr ⟨hv0, rfl⟩⟩))
  obtain ⟨hknown, hroot⟩ := Digraph.mem_roots.mp hk
  obtain ⟨r, hr⟩ := Digraph.mem_nodes.mp hknown
  obtain ⟨hrmem, rfl⟩ := (hl.get k r).mp hr
  -- a root of the loaded graph declares no edges
  have hzero : r.leftParentHash = Hash.zero := by
    by_contra hne
    refine hroot r.leftParentHash ((hl.arc _ _).mpr ⟨r, hrmem, rfl, ?_⟩)
    simp [edgeParents, hne, Vertex.parentHashes]
  have hrget := (hmem r).mp hrmem
  rcases h.descends.besides _ r hrget with rfl | hd
  · exact ⟨hrget, hl.full r hrmem⟩
  · exact absurd hzero hd.parent

theorem Joinable.streamable (h : Joinable env g s) (hg : s.book.dag.getVertex g.hash = some g)
    (hgenesis : g.transaction.isEmpty = false ∧ g.transaction.issuerAddress = g.signerPublicAddress ∧
      g.leftParentHash = Hash.zero) : Streamable g s.book := by
  refine ⟨(h.descends.intact hg).1, h.indexed, hgenesis, fun v hv hne => ?_⟩
  rcases h.descends.besides _ v hv with rfl | hd
  · exact absurd rfl hne
  · exact hd.proper

/-- SPEC (joining): it works exactly as long as the genesis vertex is there and its transaction is not
    empty. -/
theorem Joinable.joins_iff (h : Joinable env g s)
    (hgenesis : g.transaction.issuerAddress = g.signerPublicAddress ∧ g.leftParentHash = Hash.zero)
    (hcalm : sched.cancelAt = none) (hstores : ∀ k, load.saveFails k = false) :
    Joins env.codec s.book sched m load ↔
      s.book.dag.getVertex g.hash = some g ∧ g.transaction.isEmpty = false := by
  constructor
  · rintro ⟨b', hload, -⟩
    exact h.genesis_of_load hcalm hload
  · rintro ⟨hg, hfull⟩
    have hs := h.streamable hg ⟨hfull, hgenesis⟩
    obtain ⟨hnd, hperm⟩ := stream_perm (d := s.book.dag) hcalm
    have hout : s.book.dag.stream sched ≠ [] :=
      List.ne_nil_of_mem (hperm.mem_iff.mpr (Dag.mem_all.mpr hg))
    have hl : Loadable (delivered ((s.book.dag.stream sched).map some)) s.book.dag := by
      rw [delivered_map_some]; exact hs.loadable hperm hout
    obtain ⟨b', hload, hget, harc, hrest⟩ := hl.loadDag (b := newAccountingBook m) rfl
      (newAccountingBook_getVertex m) (by simp [newAccountingBook]) hstores
    refine ⟨b', hload, fun leaf _ p hp fails a => ?_⟩
    have hanc : ∀ x, b'.dag.graph.Anc x leaf ↔ s.book.dag.graph.Anc x leaf := fun x =>
      ⟨Digraph.anc_mono fun x y => (harc x y).mp, Digraph.anc_mono fun x y => (harc x y).mpr⟩
    have hstore : b'.verticesDB = s.book.verticesDB := by
      rw [hrest.verticesDB, (h.descends.intact hg).2]
      rfl
    exact balanceFrom_congr hget hstore hp (fun x => (hp x).trans (hanc x).symm) fails a

end Joining

/-- JOINING AFTER TRUNCATIONS: in every state that calls and successful truncations reach, a new node
    that loads the stream finishes and computes the balances of the streaming node exactly when the
    genesis vertex is still in the graph and its transaction is not empty. -/
theorem join_iff_genesis {env : Env} (hz : NonzeroDigests env) {n : UInt64} {spec : Book.GenesisSpec}
    {s : Node} {g : Vertex} (h : Node.genesis env n spec = some (s, g)) {es : List Event}
    (hes : Along (Node.step env) (Node.Succeeds env) s es) {sched : StreamSchedule}
    (hcalm : sched.cancelAt = none) (m : UInt64) {load : LoadSchedule}
    (hstores : ∀ k, load.saveFails k = false) :
    let b := (run (Node.step env) s es).book
    Joins env.codec b sched m load ↔
      b.dag.getVertex g.hash = some g ∧ g.transaction.isEmpty = false := by
  refine (joinable_run hz h hes).joins_iff ?_ hcalm hstores
  obtain ⟨t, ht, rfl⟩ := (founded h).made
  exact ⟨(issuer_of_new ht).trans rfl, rfl⟩

namespace Transparent

theorem succeeds_chain {receiver : Address} {m : ℕ}
    (h : Chain receiver (m + 1000) (run (Node.step (env hub)) (start 10) (chain receiver (m + 1000))))
    (hm : m + 1000 < 2 ^ 32) : Along (Node.step (env hub)) (Node.Succeeds (env hub)) (start 10)
      (chain receiver (m + 1000) ++ [.truncate (cutChain receiver (m + 1000))]) := by
  refine Along.append (along_of_always (fun e he s => ?_) _) ⟨?_, trivial⟩
  · obtain ⟨j, -, hmem⟩ := mem_chain he
    simp only [addEvents, List.mem_cons, List.not_mem_nil, or_false] at hmem
    rcases hmem with rfl | rfl <;> trivial
  · obtain ⟨b', hb', -⟩ := h.cut hm
    rw [Node.Succeeds, hb']

end Transparent

open Transparent in
/-- BUG: a chain of 1003 vertices is truncated, with success, and its stream has vertices; no new node
    can load it, in whatever order. -/
theorem cut_chain_unjoinable :
    let es := chain (wallet 8) 1002 ++ [.truncate (cutChain (wallet 8) 1002)]
    let b := (run (Node.step (env hub)) (start 10) es).book
    Along (Node.step (env hub)) (Node.Succeeds (env hub)) (start 10) es ∧
    b.dag.stream ⟨[], fun _ => [], none⟩ ≠ [] ∧
    ∀ sched, sched.cancelAt = none → ∀ m load, (∀ k, load.saveFails k = false) →
      ¬ ∃ b', (newAccountingBook m).loadDag load ((b.dag.stream sched).map some) = (b', none) := by
  intro es b
  have hes : Along (Node.step (env hub)) (Node.Succeeds (env hub)) (start 10) es :=
    succeeds_chain (m := 2) plain_chain (by omega)
  obtain ⟨b', hb', hcut⟩ := plain_chain.cut (m := 2) (by omega)
  have hb : b = b' := (run_truncate _ _ _ _).trans (congrArg Prod.fst hb')
  have hgone : b.dag.getVertex (root 10).hash = none := hb ▸ plain_chain.root_cut hcut
  have hlast : b.dag.getVertex (link (wallet 8) 1002).hash = some (link (wallet 8) 1002) := by
    rw [hb, hcut.get, if_neg, plain_chain.get_link le_rfl]
    rw [plain_chain.anc_iff (by omega) (by omega)]
    rintro ⟨j, hj, heq⟩
    exact absurd (link_hash_inj (by omega) (by omega) heq) (by omega)
  refine ⟨hes, List.ne_nil_of_mem ((stream_perm rfl).2.mem_iff.mpr (Dag.mem_all.mpr hlast)), ?_⟩
  rintro sched hcalm m load - ⟨b1, hload⟩
  have hjoin := (joinable_run (nonzeroDigests hub) (genesis_start 10) hes).genesis_of_load hcalm hload
  rw [hjoin.1] at hgone
  cases hgone

open Transparent in
/-- The law at a chain of 1001 vertices: the truncation finds the genesis vertex as the one to cut at, and
    a node can join. -/
theorem uncut_chain_joins :
    let es := chain (wallet 8) 1000 ++ [.truncate (cutChain (wallet 8) 1000)]
    Joins codec (run (Node.step (env hub)) (start 10) es).book ⟨[], fun _ => [], none⟩ 0
      ⟨[], [], fun _ => false⟩ := by
  intro es
  have hchain : Chain (wallet 8) 1000 (run (Node.step (env hub)) (start 10) (chain (wallet 8) 1000)) :=
    chain_run (by decide +kernel) 1000 (by omega)
  obtain ⟨b', hb', hcut⟩ := hchain.cut (m := 0) (by omega)
  have hb : (run (Node.step (env hub)) (start 10) es).book = b' :=
    (run_truncate _ _ _ _).trans (congrArg Prod.fst hb')
  refine (join_iff_genesis (nonzeroDigests hub) (genesis_start 10)
    (succeeds_chain (m := 0) hchain (by omega)) rfl 0 fun _ => rfl).mpr ⟨?_, by decide +kernel⟩
  rw [hb, hcut.get, if_neg]
  · exact hchain.get_link (j := 0) (by omega)
  · rw [hchain.anc_iff (by omega) (by omega)]
    rintro ⟨j, hj, -⟩
    omega

end Computantis
