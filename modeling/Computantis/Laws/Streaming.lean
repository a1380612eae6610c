import Computantis.Laws.Admission
import Computantis.Laws.Index
import Computantis.Laws.Loading

/-! @law streaming | name:Streaming and loading | family:roundtrip | about:Model/Stream

    Every vertex is a leaf or an ancestor of one, and the visited set is shared by all leaves, so a
    stream holds every vertex once (`stream_perm`). Loading it finds every transaction new, because the
    index of the source maps each to its own vertex, and every declared edge acceptable, because it is
    an edge of the acyclic source. -/

namespace Computantis

open Schemes

/-! ### A stream holds every vertex once -/

section Stream

variable {d : Dag}

/-- What the stream has sent when the leaves in `done` are finished. -/
structure SentBelow (d : Dag) (done : List Hash) (s : Streaming) : Prop where
  left : s.left = false
  visited : ∀ x, x ∈ s.visited ↔ ∃ l ∈ done, d.graph.Anc x l
  sent : ∀ v, v ∈ s.sent ↔ d.getVertex v.hash = some v ∧
    (v.hash ∈ done ∨ ∃ l ∈ done, d.graph.Anc v.hash l)
  nodup : s.sent.Nodup

theorem streamAncestors_calm : ∀ (ids : List Hash) (s : Streaming),
    (∀ id ∈ ids, ∃ v, d.getVertex id = some v) →
    (d.streamAncestors none ids s).sent = s.sent ++ d.vertices (firsts s.visited ids) ∧
      (∀ x, x ∈ (d.streamAncestors none ids s).visited ↔ x ∈ s.visited ∨ x ∈ ids) ∧
      (d.streamAncestors none ids s).left = s.left
  | [], s, _ => by simp [Dag.streamAncestors, firsts, Dag.vertices]
  | id :: ids, s, h => by
      have hids : ∀ x ∈ ids, ∃ v, d.getVertex x = some v := fun x hx => h x (List.mem_cons_of_mem _ hx)
      rw [Dag.streamAncestors, if_neg (by simp), firsts]
      by_cases hvis : id ∈ s.visited
      · rw [if_pos hvis, if_pos hvis]
        obtain ⟨h1, h2, h3⟩ := streamAncestors_calm ids { s with looks := s.looks + 1 } hids
        refine ⟨h1, fun x => ?_, h3⟩
        rw [h2, List.mem_cons]
        constructor
        · rintro (hx | hx)
          · exact Or.inl hx
          · exact Or.inr (Or.inr hx)
        · rintro (hx | rfl | hx)
          · exact Or.inl hx
          · exact Or.inl hvis
          · exact Or.inr hx
      · rw [if_neg hvis, if_neg hvis]
        obtain ⟨v, hv⟩ := h id (List.mem_cons_self ..)
        simp only [hv]
        obtain ⟨h1, h2, h3⟩ := streamAncestors_calm ids
          { s with sent := s.sent ++ [v], visited := id :: s.visited, looks := s.looks + 1 } hids
        refine ⟨?_, fun x => ?_, h3⟩
        · rw [h1]; simp [Dag.vertices, hv]
        · rw [h2, List.mem_cons, List.mem_cons]; tauto

theorem SentBelow.leaf {done : List Hash} {s : Streaming} (h : SentBelow d done s) {l : Hash} {v : Vertex}
    (hv : d.getVertex l = some v) (hl : l ∉ done) (hleaf : ¬ d.graph.HasChild l)
    (hdone : ∀ k ∈ done, ¬ d.graph.HasChild k) (order : List Hash) :
    SentBelow d (done ++ [l]) (d.streamAncestors none (arrange order (d.graph.ancestors l))
      { s with sent := s.sent ++ [v], looks := s.looks + 1 }) := by
  have hkey : v.hash = l := d.keyed hv
  have hanc : ∀ x, x ∈ arrange order (d.graph.ancestors l) ↔ d.graph.Anc x l := fun x => by
    rw [mem_arrange, Digraph.mem_ancestors]
  obtain ⟨hsent, hvis, hleft⟩ := streamAncestors_calm (d := d) (arrange order (d.graph.ancestors l))
    { s with sent := s.sent ++ [v], looks := s.looks + 1 }
    fun x hx => Digraph.mem_nodes.mp ((hanc x).mp hx).left
  have hnew : ∀ u, u ∈ d.vertices (firsts s.visited (arrange order (d.graph.ancestors l))) ↔
      d.getVertex u.hash = some u ∧ d.graph.Anc u.hash l ∧ ¬ ∃ k ∈ done, d.graph.Anc u.hash k := by
    intro u
    rw [Dag.mem_vertices, mem_firsts, hanc, h.visited]; tauto
  refine ⟨hleft.trans h.left, fun x => ?_, fun u => ?_, ?_⟩
  · rw [hvis, h.visited, hanc]; simp [or_and_right, exists_or]
  · rw [hsent, List.mem_append, List.mem_append, hnew, h.sent, List.mem_singleton]
    constructor
    · rintro ((⟨hu, hu' | ⟨k, hk, hu'⟩⟩ | rfl) | ⟨hu, hu', -⟩)
      · exact ⟨hu, Or.inl (List.mem_append_left _ hu')⟩
      · exact ⟨hu, Or.inr ⟨k, List.mem_append_left _ hk, hu'⟩⟩
      · exact ⟨hkey ▸ hv, Or.inl (by simp [hkey])⟩
      · exact ⟨hu, Or.inr ⟨l, by simp, hu'⟩⟩
    · rintro ⟨hu, hu'⟩
      by_cases hold : u.hash ∈ done ∨ ∃ k ∈ done, d.graph.Anc u.hash k
      · exact Or.inl (Or.inl ⟨hu, hold⟩)
      · rw [not_or] at hold
        rcases hu' with hu' | ⟨k, hk, hu'⟩
        · rcases List.mem_append.mp hu' with hu' | hu'
          · exact absurd hu' hold.1
          · rw [List.mem_singleton] at hu'
            exact Or.inl (Or.inr (Option.some.inj (hu.symm.trans (hu' ▸ hv))))
        · rcases List.mem_append.mp hk with hk | hk
          · exact absurd ⟨k, hk, hu'⟩ hold.2
          · rw [List.mem_singleton] at hk
            exact Or.inr ⟨hu, hk ▸ hu', hold.2⟩
  · rw [hsent]
    refine List.Nodup.append ?_ (Dag.vertices_nodup (firsts_nodup _ _)) ?_
    · refine List.Nodup.append h.nodup (List.nodup_singleton v) ?_
      rw [List.disjoint_singleton]
      rw [h.sent, hkey]
      rintro ⟨-, hl' | ⟨k, -, hk⟩⟩
      · exact hl hl'
      · exact hleaf hk.hasChild
    · intro u hu hu'
      rw [hnew] at hu'
      rcases List.mem_append.mp hu with hu | hu
      · rcases ((h.sent u).mp hu).2 with hd | hd
        · exact hdone _ hd hu'.2.1.hasChild
        · exact hu'.2.2 hd
      · rw [List.mem_singleton] at hu
        exact hu'.2.1.ne (hu ▸ hkey)

/-- RUN (outer loop): when all leaves are done, the leaves and their ancestors have been sent. -/
theorem streamLeaves_calm {sched : StreamSchedule} (hcalm : sched.cancelAt = none) :
    ∀ (todo done : List Hash) (s : Streaming), (done ++ todo).Nodup →
      (∀ k ∈ done ++ todo, k ∈ d.graph.leaves) → SentBelow d done s →
      SentBelow d (done ++ todo) (d.streamLeaves sched todo s)
  | [], done, s, _, _, h => by simpa [Dag.streamLeaves] using h
  | l :: todo, done, s, hnd, hleaves, h => by
      have hl := Digraph.mem_leaves.mp (hleaves l (by simp))
      obtain ⟨v, hv⟩ : ∃ v, d.getVertex l = some v := Digraph.mem_nodes.mp hl.1
      have hnot : l ∉ done := fun hmem =>
        (List.nodup_append.mp hnd).2.2 l hmem l (List.mem_cons_self ..) rfl
      have hnext := h.leaf hv hnot hl.2
        (fun k hk => (Digraph.mem_leaves.mp (hleaves k (List.mem_append_left _ hk))).2) (sched.walk l)
      rw [Dag.streamLeaves, hcalm, if_neg (by simp)]
      simp only [hv, hnext.left, Bool.false_eq_true, if_false]
      have := streamLeaves_calm hcalm todo (done ++ [l]) _ (by simpa using hnd) (by simpa using hleaves) hnext
      simpa using this

theorem stream_perm {sched : StreamSchedule} (hcalm : sched.cancelAt = none) :
    (d.stream sched).Nodup ∧ (d.stream sched).Perm d.all := by
  have hbegin : SentBelow d [] Streaming.begin :=
    ⟨rfl, by simp [Streaming.begin], by simp [Streaming.begin], by simp [Streaming.begin]⟩
  have h := streamLeaves_calm hcalm (enumerate sched.leaves d.graph.leaves) [] _
    (by simpa using enumerate_nodup d.graph.leaves_nodup)
    (fun k hk => mem_enumerate.mp (by simpa using hk)) hbegin
  rw [List.nil_append] at h
  refine ⟨h.nodup, (List.perm_ext_iff_of_nodup h.nodup
    (Dag.vertices_nodup d.graph.nodes.keys_nodup)).mpr fun v => ?_⟩
  refine (h.sent v).trans (Iff.trans ?_ Dag.mem_all.symm)
  refine and_iff_left_of_imp fun hv => ?_
  -- every vertex is a leaf or lies above one
  obtain ⟨l, hl, hlv⟩ := d.graph.exists_leaf_below (Dag.mem_nodes hv)
  rcases hlv with rfl | hlv
  · exact Or.inl (mem_enumerate.mpr hl)
  · exact Or.inr ⟨l, mem_enumerate.mpr hl, hlv⟩

end Stream

/-! ### What a stream has to be for loading to take it -/

/-- The graph, its transactions and its genesis vertex as loading needs them. -/
structure Streamable (g : Vertex) (b : Book) : Prop where
  closed : Closed g b
  indexed : Indexed b
  genesis : g.transaction.isEmpty = false ∧ g.transaction.issuerAddress = g.signerPublicAddress ∧
    g.leftParentHash = Hash.zero
  proper : EachVertex g (fun _ v => Proper v.signerPublicAddress v.transaction) b

namespace Streamable

variable {g : Vertex} {b : Book} {out : List Vertex}

theorem own_eq_genesis (hs : Streamable g b) {v : Vertex} (hv : b.dag.getVertex v.hash = some v)
    (hown : v.own = true) : v = g := by
  rcases eq_or_ne v.hash g.hash with heq | hne
  · exact hs.closed.genesis v (heq ▸ hv)
  · exact absurd (by simpa [Vertex.own] using hown) (hs.proper v hv hne).foreign

theorem arc_iff (hs : Streamable g b) {v : Vertex} (hv : b.dag.getVertex v.hash = some v) (x : Hash) :
    b.dag.graph.Arc x v.hash ↔ x ∈ edgeParents v := by
  rcases eq_or_ne v.hash g.hash with heq | hne
  · obtain rfl := hs.closed.genesis v (heq ▸ hv)
    simp [edgeParents, hs.genesis.2.2, hs.closed.root x]
  · have harc := hs.closed.parents v.hash v hv hne
    have hleft : v.leftParentHash ≠ Hash.zero :=
      hs.closed.nonzero _ ((harc _).mpr (Or.inl rfl)).left
    simp [harc, edgeParents, hleft, Vertex.parentHashes]

theorem loadable (hs : Streamable g b) (hperm : out.Perm b.dag.all) (hout : out ≠ []) :
    Loadable out b.dag := by
  have hmem : ∀ v, v ∈ out ↔ b.dag.getVertex v.hash = some v := fun v =>
    hperm.mem_iff.trans Dag.mem_all
  have hnd : out.Nodup := hperm.nodup_iff.mpr (Dag.vertices_nodup b.dag.graph.nodes.keys_nodup)
  have hget : ∀ k v, b.dag.getVertex k = some v ↔ v ∈ out ∧ v.hash = k := fun k v => by
    rw [hmem]
    refine ⟨fun h => ?_, fun ⟨h, hk⟩ => hk ▸ h⟩
    obtain rfl : v.hash = k := b.dag.keyed h
    exact ⟨h, rfl⟩
  have hinj : ∀ {β : Type} (f : Vertex → β), (∀ u ∈ out, ∀ v ∈ out, f u = f v → u = v) →
      (out.map f).Nodup := fun f hf => List.Nodup.map_on (fun u hu v hv => hf u hu v hv) hnd
  refine ⟨hinj _ fun u hu v hv heq => ?_, hinj _ fun u hu v hv heq => ?_, hout, fun v hv => ?_, ?_, hget,
    fun x y => ?_⟩
  · exact Option.some.inj (((hmem u).mp hu).symm.trans (heq ▸ (hmem v).mp hv))
  · exact hs.indexed.unique ((hmem u).mp hu) ((hmem v).mp hv) heq
  · rcases eq_or_ne v.hash g.hash with heq | hne
    · obtain rfl := hs.closed.genesis v (heq ▸ (hmem v).mp hv)
      exact hs.genesis.1
    · exact (hs.proper v ((hmem v).mp hv) hne).nonempty
  · rw [List.countP_eq_length_filter]
    have hsub : out.filter Vertex.own ⊆ [g] := fun v hv => by
      obtain ⟨hv, hown⟩ := List.mem_filter.mp hv
      exact List.mem_singleton.mpr (hs.own_eq_genesis ((hmem v).mp hv) hown)
    exact (List.subperm_of_subset (hnd.filter _) hsub).length_le
  · constructor
    · intro harc
      obtain ⟨v, hv⟩ : ∃ v, b.dag.getVertex y = some v := Digraph.mem_nodes.mp harc.right
      obtain ⟨hvmem, rfl⟩ := (hget y v).mp hv
      exact ⟨v, hvmem, rfl, (hs.arc_iff hv x).mp harc⟩
    · rintro ⟨v, hv, rfl, hx⟩
      exact (hs.arc_iff ((hmem v).mp hv) x).mpr hx

end Streamable

/-! ### Streaming, then loading -/

theorem streamable_genesis {env : Env} (hz : NonzeroDigests env) {n : UInt64} {spec : Book.GenesisSpec}
    {s : Node} {g : Vertex} (h : Node.genesis env n spec = some (s, g))
    (hempty : g.transaction.isEmpty = false) : Streamable g s.book := by
  refine ⟨closed_genesis hz h, indexed_genesis h, ⟨hempty, ?_, ?_⟩, EachVertex.genesis h⟩
  · obtain ⟨t, ht, rfl⟩ := (founded h).made
    exact (issuer_of_new ht).trans rfl
  · obtain ⟨t, -, rfl⟩ := (founded h).made
    rfl

/-- RUN: every book that has never been truncated can be streamed to another node. -/
theorem streamable_run {env : Env} (hz : NonzeroDigests env) {n : UInt64} {spec : Book.GenesisSpec}
    {s : Node} {g : Vertex} (h : Node.genesis env n spec = some (s, g))
    (hempty : g.transaction.isEmpty = false) {es : List Event} (hes : ∀ e ∈ es, e.Ordinary) :
    Streamable g (run (Node.step env) s es).book ∧
      (run (Node.step env) s es).book.genesisPublicAddress = g.transaction.issuerAddress := by
  have hstart := streamable_genesis hz h hempty
  have hf := founded h
  have haddr : s.book.genesisPublicAddress = g.transaction.issuerAddress := by
    obtain ⟨t, ht, rfl⟩ := hf.made
    rw [hf.address]; exact (issuer_of_new ht).symm
  have hrun := sound_run hz h (P := fun _ _ => True)
    (I := fun t => Indexed t.book ∧ Admitted env t ∧
      EachVertex g (fun _ v => Proper v.signerPublicAddress v.transaction) t.book ∧
      t.book.genesisPublicAddress = g.transaction.issuerAddress)
    ⟨hstart.indexed, hf.admitted, hstart.proper, haddr⟩
    (by
      rintro t e he - hs ⟨hi, hadm, hp, ha⟩
      refine ⟨hi.step he, hadm.step e, ?_, (t.step_frame env he).genesisPublicAddress.trans ha⟩
      exact EachVertex.step (fun _ _ h => h) hz he hs (fun _ _ _ ho _ _ _ _ => hadm.origin ho) hp)
    hes (along_of_forall (P := fun _ => True) (fun _ _ => trivial) s)
  obtain ⟨hs, hi, -, hp, ha⟩ := hrun
  exact ⟨⟨hs.closed, hi, hstart.genesis, hp⟩, ha⟩

/-- LOAD: a list of all vertices of a streamable book, each once, loads into a new book and gives the
    same graph. -/
theorem loadDag_spec {g : Vertex} {b : Book} (hs : Streamable g b) {out : List Vertex}
    (hperm : out.Perm b.dag.all) (hout : out ≠ []) (m : UInt64) {load : LoadSchedule}
    (hstores : ∀ k, load.saveFails k = false) :
    ∃ b', (newAccountingBook m).loadDag load (out.map some) = (b', none) ∧
      (∀ k, b'.dag.getVertex k = b.dag.getVertex k) ∧
      (∀ x y, b'.dag.graph.Arc x y ↔ b.dag.graph.Arc x y) ∧
      b'.genesisPublicAddress = g.transaction.issuerAddress ∧ b'.dagLoaded = true ∧
      ∀ h w, b'.trxsToVertxDB.lookup h = some w ↔ ∃ v ∈ out, v.transaction.hash = h ∧ v.hash = w := by
  have hl : Loadable (delivered (out.map some)) b.dag := by
    rw [delivered_map_some]; exact hs.loadable hperm hout
  obtain ⟨b', hload, hget, harc, hrest⟩ := hl.loadDag (b := newAccountingBook m) rfl
    (newAccountingBook_getVertex m) (by simp [newAccountingBook]) hstores
  obtain ⟨r, hr, hroot, haddr⟩ := hrest.genesis
  have hrg : r = g := hs.closed.genesis r
    (hs.closed.eq_of_isRoot hr (Digraph.isRoot_iff.mpr hroot) ▸ hr)
  refine ⟨b', hload, hget, harc, hrg ▸ haddr, hrest.dagLoaded, fun h w => ?_⟩
  rw [hrest.trxs, delivered_map_some]
  simp [newAccountingBook]

/-- STREAMING THEN LOADING reproduces the graph: from every reachable state with a nonempty graph,
    whatever the orders of enumeration, the stream holds every vertex exactly once, and loading it
    into a new book succeeds and yields the same vertices, the same edges, the same genesis address
    and an index of exactly the streamed transactions. -/
theorem stream_then_load {env : Env} (hz : NonzeroDigests env) {n : UInt64} {spec : Book.GenesisSpec}
    {s : Node} {g : Vertex} (h : Node.genesis env n spec = some (s, g))
    (hempty : g.transaction.isEmpty = false) {es : List Event} (hes : ∀ e ∈ es, e.Ordinary)
    (hdag : (run (Node.step env) s es).book.dag.graph.nodes.keys ≠ []) (sched : StreamSchedule)
    (hcalm : sched.cancelAt = none) (m : UInt64) (load : LoadSchedule)
    (hstores : ∀ k, load.saveFails k = false) :
    let b := (run (Node.step env) s es).book
    (b.dag.stream sched).Nodup ∧ (∀ v, v ∈ b.dag.stream sched ↔ b.dag.getVertex v.hash = some v) ∧
    ∃ b', (newAccountingBook m).loadDag load ((b.dag.stream sched).map some) = (b', none) ∧
      (∀ k, b'.dag.getVertex k = b.dag.getVertex k) ∧
      (∀ x y, b'.dag.graph.Arc x y ↔ b.dag.graph.Arc x y) ∧
      b'.genesisPublicAddress = b.genesisPublicAddress ∧ b'.dagLoaded = true ∧
      ∀ k w, b'.trxsToVertxDB.lookup k = some w ↔
        ∃ v ∈ b.dag.stream sched, v.transaction.hash = k ∧ v.hash = w := by
  intro b
  obtain ⟨hs, haddr⟩ := streamable_run hz h hempty hes
  obtain ⟨hnd, hperm⟩ := stream_perm (d := b.dag) hcalm
  have hmem : ∀ v, v ∈ b.dag.stream sched ↔ b.dag.getVertex v.hash = some v := fun v =>
    hperm.mem_iff.trans Dag.mem_all
  have hout : b.dag.stream sched ≠ [] := by
    obtain ⟨k, hk⟩ := List.exists_mem_of_ne_nil _ hdag
    obtain ⟨v, hv⟩ : ∃ v, b.dag.getVertex k = some v := Digraph.mem_nodes.mp (AList.mem_keys.mpr hk)
    have hkey := b.dag.keyed hv
    exact List.ne_nil_of_mem ((hmem v).mpr (hkey ▸ hv))
  obtain ⟨b', hload, hget, harc, ha, hl, htrxs⟩ := loadDag_spec hs hperm hout m hstores
  exact ⟨hnd, hmem, b', hload, hget, harc, ha.trans haddr.symm, hl, htrxs⟩

open Transparent in
/-- The law at a fork that ends with four vertices, delivered in the order of the graph. -/
theorem fork_streamed :
    let b := (run (Node.step (env hub)) (start 10) forkEvents).book
    (b.dag.stream ⟨[], fun _ => [], none⟩).length = 4 ∧
    ∃ b', (newAccountingBook 0).loadDag ⟨[], [], fun _ => false⟩
        ((b.dag.stream ⟨[], fun _ => [], none⟩).map some) = (b', none) ∧
      (∀ k, b'.dag.getVertex k = b.dag.getVertex k) ∧
      ∀ x y, b'.dag.graph.Arc x y ↔ b.dag.graph.Arc x y := by
  have hes : ∀ e ∈ forkEvents, e.Ordinary := by
    simp [forkEvents, addEvents, createEvents, Event.Ordinary]
  obtain ⟨hlen, hdag⟩ : ((run (Node.step (env hub)) (start 10) forkEvents).book.dag.stream
      ⟨[], fun _ => [], none⟩).length = 4 ∧
      (run (Node.step (env hub)) (start 10) forkEvents).book.dag.graph.nodes.keys ≠ [] := by
    decide +kernel
  obtain ⟨-, -, b', hload, hget, harc, -⟩ := stream_then_load (nonzeroDigests hub) (genesis_start 10)
    (by decide +kernel) hes hdag ⟨[], fun _ => [], none⟩ rfl 0 ⟨[], [], fun _ => false⟩ (fun _ => rfl)
  exact ⟨hlen, b', hload, hget, harc⟩

end Computantis
