import Computantis.Laws.Uniqueness
import Computantis.Model.Federation

/-! @law completeness | name:The history is complete | family:invariant | about:Model/Federation

    Every vertex that a node holds, in the graph or in its store, hangs below parents that the node holds
    as well, down to the genesis vertex (`Complete`): a new vertex finds its parents in the graph, only a
    childless vertex is rejected, a truncation stores a vertex together with all its ancestors, and a
    stream is loaded only if every declared edge can be drawn.

    The seal of a vertex covers the hashes of its parents, so the declared past of a vertex means the same
    for everybody; what a node makes of it is a matter of which vertices it holds. -/

namespace Computantis

open Schemes

/-- One digest for the whole federation: without a collision among the messages in `M`, and never zero. -/
structure Federation.Hashes (fed : Federation) (digest : Bytes → Hash) (M : Set Bytes) : Prop where
  signer : ∀ signer ∈ fed.signers, ∀ message, (signer.sign message).1 = digest message
  verifier : ∀ message signature hash address,
    fed.verifier.verify message signature hash address = true → hash = digest message
  injective : Set.InjOn digest M
  nonzero : ∀ message ∈ M, digest message ≠ Hash.zero

theorem Federation.Hashes.digests {fed : Federation} {digest : Bytes → Hash} {M : Set Bytes}
    (h : fed.Hashes digest M) {signer : Signer} (hs : signer ∈ fed.signers) :
    Digests (fed.env signer) digest M := ⟨h.signer signer hs, h.verifier, h.injective⟩

theorem loadDag_verticesDB {b b' : Book} {load : LoadSchedule} {st : List (Option Vertex)} {err : Option Err}
    (h : b.loadDag load st = (b', err)) : b'.verticesDB = b.verticesDB := by
  have hkept : Inserting (fun _ => True) fun c => c.verticesDB = b.verticesDB := by
    refine ⟨fun _ hs _ hb => hs.trans hb, fun hsave hb => ?_, fun _ hsave _ hb => ?_⟩
    · obtain ⟨-, rfl⟩ := saveTrx_ok hsave
      exact hb
    · obtain ⟨-, rfl⟩ := saveTrx_ok hsave
      exact hb
  have hload : (b.loadDag load st).1.verticesDB = b.verticesDB := hkept.loadDag load (fun _ _ => trivial) rfl
  rwa [h] at hload

theorem streamAncestors_mem {d : Dag} (cancelAt : Option ℕ) : ∀ (ids : List Hash) (s : Streaming),
    (∀ v ∈ s.sent, d.getVertex v.hash = some v) →
      ∀ v ∈ (d.streamAncestors cancelAt ids s).sent, d.getVertex v.hash = some v
  | [], s, h => h
  | id :: ids, s, h => by
    rw [Dag.streamAncestors]
    split
    · exact h
    · split
      · exact streamAncestors_mem cancelAt ids _ h
      · split
        · exact h
        next vrx hget =>
          have hkey : vrx.hash = id := d.keyed hget
          refine streamAncestors_mem cancelAt ids _ (List.forall_mem_append.mpr ⟨h, ?_⟩)
          exact List.forall_mem_singleton.mpr (hkey ▸ hget)

theorem streamLeaves_mem {d : Dag} {sched : StreamSchedule} : ∀ (ids : List Hash) (s : Streaming),
    (∀ v ∈ s.sent, d.getVertex v.hash = some v) →
      ∀ v ∈ (d.streamLeaves sched ids s).sent, d.getVertex v.hash = some v
  | [], s, h => h
  | id :: ids, s, h => by
    rw [Dag.streamLeaves]
    split
    · exact h
    · split
      · exact h
      next vrx hget =>
        have hkey : vrx.hash = id := d.keyed hget
        have hsent := streamAncestors_mem sched.cancelAt
          (arrange (sched.walk id) (d.graph.ancestors id))
          { s with sent := s.sent ++ [vrx], looks := s.looks + 1 }
          (List.forall_mem_append.mpr ⟨h, List.forall_mem_singleton.mpr (hkey ▸ hget)⟩)
        simp only
        split
        · exact hsent
        · exact streamLeaves_mem ids _ hsent

theorem mem_stream {d : Dag} {sched : StreamSchedule} {v : Vertex} (h : v ∈ d.stream sched) :
    d.getVertex v.hash = some v :=
  streamLeaves_mem _ .begin (by simp [Streaming.begin]) v h

/-! ### The past of a vertex -/

/-- One declared step back from a vertex that the node holds. -/
def Book.Parent (codec : Codec) (b : Book) (p c : Hash) : Prop :=
  ∃ v, Held codec b v ∧ v.hash = c ∧ p ∈ edgeParents v

/-- The declared past, through the graph and the store. -/
def Book.Past (codec : Codec) (b : Book) : Hash → Hash → Prop := Relation.TransGen (b.Parent codec)

/-- INVARIANT: all declared parents are held, those of a stored vertex in the store; the edges of the graph
    are the declared ones between its vertices; the past has no cycle and ends with the genesis vertex. -/
structure Complete (codec : Codec) (g : Vertex) (b : Book) : Prop where
  arc : ∀ v, b.dag.getVertex v.hash = some v → ∀ x,
    b.dag.graph.Arc x v.hash ↔ x ∈ edgeParents v ∧ x ∈ b.dag.graph.nodes
  parents : ∀ v, Held codec b v → ∀ p ∈ edgeParents v, ∃ u, Held codec b u ∧ u.hash = p
  stored : ∀ v, InStore codec b v → ∀ p ∈ edgeParents v, ∃ u, InStore codec b u ∧ u.hash = p
  ranked : ∃ rank : Hash → ℕ, ∀ v, Held codec b v → ∀ p ∈ edgeParents v, rank p < rank v.hash
  root : ∀ v, Held codec b v → edgeParents v = [] → v.hash = g.hash

namespace Complete

variable {codec : Codec} {g : Vertex} {b b' : Book} {digest : Bytes → Hash} {M : Set Bytes} {env : Env}

theorem of_eq (h : Complete codec g b) (hd : b'.dag = b.dag) (hs : b'.verticesDB = b.verticesDB) :
    Complete codec g b' := by
  obtain ⟨h1, h2, h3, h4, h5⟩ := h
  have hheld : Held codec b' = Held codec b := by
    funext v
    simp only [Held, InStore, hd, hs]
  refine ⟨?_, ?_, ?_, ?_, ?_⟩
  · rw [hd]; exact h1
  · rw [hheld]; exact h2
  · simp only [InStore, hs]; exact h3
  · rw [hheld]; exact h4
  · rw [hheld]; exact h5

theorem not_parent (h : Complete codec g b) (hs : Shelved codec digest M b) {u v : Vertex}
    (hu : b.dag.getVertex u.hash = some u) (hleaf : ¬ b.dag.graph.HasChild u.hash) (hv : Held codec b v) :
    u.hash ∉ edgeParents v := by
  intro hmem
  rcases hv with hv | hv
  · exact hleaf ⟨v.hash, (h.arc v hv u.hash).mpr ⟨hmem, Dag.mem_nodes hu⟩⟩
  · obtain ⟨w, hw, hhash⟩ := h.stored v hv u.hash hmem
    exact hs.apart u w hu hw hhash.symm

theorem reject (h : Complete codec g b) (hs : Shelved codec digest M b) {u : Vertex}
    (hu : b.dag.getVertex u.hash = some u) (hleaf : ¬ b.dag.graph.HasChild u.hash)
    (hd : b'.dag = b.dag.deleteVertex u.hash) (hdb : b'.verticesDB = b.verticesDB) : Complete codec g b' := by
  have hheld := hs.held_reject hu hd hdb
  have hgraph : b'.dag.graph = b.dag.graph.delete u.hash := by rw [hd]; rfl
  refine ⟨fun v hv x => ?_, fun v hv p hp => ?_, fun v hv p hp => ?_, ?_, fun v hv => ?_⟩
  · obtain ⟨hv, hne⟩ := (getVertex_delete hd v).mp hv
    rw [hgraph, Digraph.arc_delete, Digraph.mem_delete, h.arc v hv x]
    constructor
    · rintro ⟨⟨hx, hmem⟩, hxu, -⟩
      exact ⟨hx, hxu, hmem⟩
    · rintro ⟨hx, hxu, hmem⟩
      exact ⟨⟨hx, hmem⟩, hxu, hne⟩
  · obtain ⟨hv, -⟩ := (hheld v).mp hv
    obtain ⟨w, hw, rfl⟩ := h.parents v hv p hp
    refine ⟨w, (hheld w).mpr ⟨hw, ?_⟩, rfl⟩
    rintro rfl
    exact h.not_parent hs hu hleaf hv hp
  · obtain ⟨w, hw, rfl⟩ := h.stored v ((inStore_congr hdb v).mp hv) p hp
    exact ⟨w, (inStore_congr hdb w).mpr hw, rfl⟩
  · obtain ⟨rank, hrank⟩ := h.ranked
    exact ⟨rank, fun v hv => hrank v ((hheld v).mp hv).1⟩
  · exact h.root v ((hheld v).mp hv).1

theorem grow (hdig : Digests env digest M) (hz : ∀ message ∈ M, digest message ≠ Hash.zero) (h : Complete codec g b)
    (hs : Shelved codec digest M b) {leaf l r : Vertex} (hleaf : SealedIn digest M leaf)
    (left : leaf.leftParentHash = l.hash) (right : leaf.rightParentHash = r.hash)
    (hl : b.dag.getVertex l.hash = some l) (hr : b.dag.getVertex r.hash = some r)
    (hunused : b.trxsToVertxDB.lookup leaf.transaction.hash = none)
    (hg : Digraph.Grown b.dag.graph b'.dag.graph leaf.hash leaf (edgeParents leaf))
    (hdb : b'.verticesDB = b.verticesDB) : Complete codec g b' := by
  have hheld : ∀ v, Held codec b' v ↔ v = leaf ∨ Held codec b v := held_grown hg hdb
  have hnew : ∀ v, Held codec b v → v.hash ≠ leaf.hash := fun v hv => hs.hash_ne_of_unused hdig hleaf hunused hv
  -- both parents are in the graph, and their hashes are not zero
  have hlz : l.hash ≠ Hash.zero := by
    have hsealed := hs.sealed l (Or.inl hl)
    rw [hsealed.2]
    exact hz _ hsealed.1
  have hedge : edgeParents leaf = [l.hash, r.hash] := by
    rw [edgeParents, left, if_neg hlz, Vertex.parentHashes, left, right]
  have hparent : ∀ p ∈ edgeParents leaf, ∃ u, b.dag.getVertex u.hash = some u ∧ u.hash = p := by
    rw [hedge]
    exact List.forall_mem_cons.mpr ⟨⟨l, hl, rfl⟩, List.forall_mem_singleton.mpr ⟨r, hr, rfl⟩⟩
  have hold : ∀ v, Held codec b v → ∀ p ∈ edgeParents v, p ≠ leaf.hash := by
    intro v hv p hp heq
    obtain ⟨u, hu, hup⟩ := h.parents v hv p hp
    exact hnew u hu (hup.trans heq)
  refine ⟨fun v hv x => ?_, fun v hv p hp => ?_, fun v hv p hp => ?_, ?_, fun v hv hnil => ?_⟩
  · rcases (getVertex_grown hg v).mp hv with rfl | hv
    · rw [hg.arc_self, hg.mem]
      refine ⟨fun hx => ⟨hx, Or.inr ?_⟩, fun hx => hx.1⟩
      obtain ⟨u, hu, rfl⟩ := hparent x hx
      exact Dag.mem_nodes hu
    · rw [hg.arc_of_ne (hnew v (Or.inl hv)), h.arc v hv x, hg.mem]
      exact and_congr_right fun hx => (or_iff_right (hold v (Or.inl hv) x hx)).symm
  · rcases (hheld v).mp hv with rfl | hv
    · obtain ⟨u, hu, rfl⟩ := hparent p hp
      exact ⟨u, (hheld u).mpr (Or.inr (Or.inl hu)), rfl⟩
    · obtain ⟨u, hu, rfl⟩ := h.parents v hv p hp
      exact ⟨u, (hheld u).mpr (Or.inr hu), rfl⟩
  · obtain ⟨u, hu, rfl⟩ := h.stored v ((inStore_congr hdb v).mp hv) p hp
    exact ⟨u, (inStore_congr hdb u).mpr hu, rfl⟩
  · -- the new vertex comes after its parents, and before nobody
    obtain ⟨rank, hrank⟩ := h.ranked
    refine ⟨Function.update rank leaf.hash (max (rank l.hash) (rank r.hash) + 1), fun v hv p hp => ?_⟩
    rcases (hheld v).mp hv with rfl | hv
    · obtain ⟨u, hu, rfl⟩ := hparent p hp
      rw [Function.update_of_ne (hnew u (Or.inl hu)), Function.update_self]
      rw [hedge, List.mem_cons, List.mem_singleton] at hp
      rcases hp with hp | hp <;> rw [hp] <;> omega
    · rw [Function.update_of_ne (hold v hv p hp), Function.update_of_ne (hnew v hv)]
      exact hrank v hv p hp
  · rcases (hheld v).mp hv with rfl | hv
    · rw [hedge] at hnil
      cases hnil
    · exact h.root v hv hnil

theorem move (hdig : Digests env digest M) (hz : ∀ message ∈ M, digest message ≠ Hash.zero) {faults : Faults}
    {origin : Vertex → Vertex → Vertex → Prop} (ho : ∀ leaf l r, origin leaf l r → SealedIn digest M leaf)
    (hm : Move env faults origin b b') (hs : Shelved codec digest M b) (h : Complete codec g b) :
    Complete codec g b' := by
  cases hm with
  | idle hframe hdag _ => exact h.of_eq hdag hframe.verticesDB
  | reject hframe hknown hleaf _ hdag _ => exact h.reject hs hknown hleaf hdag hframe.verticesDB
  | refuse hframe _ _ _ hdag _ => exact h.of_eq hdag hframe.verticesDB
  | grow hframe hsource left right hl hr hunused hdag _ =>
    exact h.grow hdig hz hs (ho _ _ _ hsource) left right hl.1 hr.1 hunused hdag hframe.verticesDB

theorem cut (hc : codec.Faithful) (h : Complete codec g b) {t : TruncateSchedule} {top : Hash}
    (hcut : Cut codec t b b' top) (hparty : NoHashAddress b) : Complete codec g b' := by
  have hheld := held_cut hc hcut hparty
  have hstore := inStore_cut hc hcut hparty
  have hmem : ∀ x, x ∈ b'.dag.graph.nodes ↔ x ∈ b.dag.graph.nodes ∧ ¬ b.dag.graph.Anc x top := fun x => by
    have hget := hcut.get x
    rw [← not_iff_not, ← Digraph.get_eq_none, ← Dag.getVertex, hget, not_and, not_not,
      ← Digraph.get_eq_none.not_left]
    by_cases ha : b.dag.graph.Anc x top <;> simp [ha, Dag.getVertex]
  refine ⟨fun v hv x => ?_, fun v hv p hp => ?_, fun v hv p hp => ?_, ?_, fun v hv => ?_⟩
  · obtain ⟨hv, hva⟩ := (getVertex_cut hcut v).mp hv
    rw [hcut.arc, h.arc v hv x, hmem]
    constructor
    · rintro ⟨⟨hx, hxm⟩, hxa, -⟩
      exact ⟨hx, hxm, hxa⟩
    · rintro ⟨hx, hxm, hxa⟩
      exact ⟨⟨hx, hxm⟩, hxa, hva⟩
  · obtain ⟨u, hu, rfl⟩ := h.parents v ((hheld v).mp hv) p hp
    exact ⟨u, (hheld u).mpr hu, rfl⟩
  · rcases (hstore v).mp hv with hv | ⟨hv, hva⟩
    · obtain ⟨u, hu, rfl⟩ := h.stored v hv p hp
      exact ⟨u, (hstore u).mpr (Or.inl hu), rfl⟩
    · obtain ⟨u, hu | hu, rfl⟩ := h.parents v (Or.inl hv) p hp
      · have harc := (h.arc v hv u.hash).mpr ⟨hp, Dag.mem_nodes hu⟩
        exact ⟨u, (hstore u).mpr (Or.inr ⟨hu, Relation.TransGen.head harc hva⟩), rfl⟩
      · exact ⟨u, (hstore u).mpr (Or.inl hu), rfl⟩
  · obtain ⟨rank, hrank⟩ := h.ranked
    exact ⟨rank, fun v hv => hrank v ((hheld v).mp hv)⟩
  · exact h.root v ((hheld v).mp hv)

theorem step (hc : env.codec.Faithful) (hdig : Digests env digest M) (hz : ∀ message ∈ M, digest message ≠ Hash.zero)
    {s : Node} (hp : s.PendingVerified env) {e : Event} (hM : SealsIn env M s e) (hsound : SoundCut s e)
    (hs : Shelved env.codec digest M s.book) (h : Complete env.codec g s.book) :
    Complete env.codec g (s.step env e).book := by
  have ho : ∀ leaf l r, s.origin env e leaf l r → SealedIn digest M leaf := fun _ _ _ ho => hdig.origin hp hM ho
  by_cases he : e.Ordinary
  · exact (Moves.invariant
      (I := fun b => Shelved env.codec digest M b ∧ Complete env.codec g b)
      (fun hm hb => ⟨hb.1.move hdig ho hm, hb.2.move hdig hz ho hm hb.1⟩) (s.step_moves env he) ⟨hs, h⟩).2
  · cases e with
    | truncate t =>
      rcases hs.truncate_cut hsound.1 with ⟨n, hn⟩ | ⟨top, hcut⟩
      · exact h.of_eq (by rw [Node.step, hn]) (by rw [Node.step, hn])
      · exact h.cut hc hcut hsound.2
    | _ => exact absurd trivial he

theorem founded {n : UInt64} {spec : Book.GenesisSpec} {s : Node} (h : Node.genesis env n spec = some (s, g)) :
    Complete codec g s.book := by
  have hf := Computantis.founded h
  have hnil : edgeParents g = [] := by
    obtain ⟨t, -, rfl⟩ := hf.made
    rfl
  have hheld : ∀ v, Held codec s.book v → v = g := by
    rintro v (hv | ⟨buf, hbuf, -⟩)
    · exact (hf.eq hv).2
    · rw [hf.verticesDB] at hbuf
      cases hbuf
  have hnone : ∀ v, Held codec s.book v → ∀ p, p ∉ edgeParents v := by
    intro v hv p hp
    rw [hheld v hv, hnil] at hp
    cases hp
  refine ⟨fun v hv x => ?_, fun v hv p hp => absurd hp (hnone v hv p), fun v hv p hp =>
    absurd hp (hnone v (Or.inr hv) p), ⟨fun _ => 0, fun v hv p hp => absurd hp (hnone v hv p)⟩, fun v hv _ => by
    rw [hheld v hv]⟩
  obtain rfl := hheld v (Or.inl hv)
  rw [hf.grown.arc_self, hnil]
  simp

theorem loaded (h : Complete codec g b) {n : UInt64} {load : LoadSchedule} {st : List (Option Vertex)}
    (hst : ∀ v ∈ delivered st, ∃ u, Held codec b u ∧ u.hash = v.hash ∧ edgeParents u = edgeParents v)
    (hload : (newAccountingBook n).loadDag load st = (b', none)) : Complete codec g b' := by
  have hl := loadable_of_loadDag (newAccountingBook_getVertex n) hload
  have hheld : ∀ v, Held codec b' v ↔ v ∈ delivered st := fun v => by
    rw [Held, hl.get, InStore, loadDag_verticesDB hload]
    simp [newAccountingBook]
  have harc : ∀ v, Held codec b' v → ∀ p ∈ edgeParents v, b'.dag.graph.Arc p v.hash := fun v hv p hp =>
    (hl.arc p v.hash).mpr ⟨v, (hheld v).mp hv, rfl, hp⟩
  refine ⟨fun v hv x => ⟨fun hx => ⟨?_, hx.left⟩, fun hx => harc v (Or.inl hv) x hx.1⟩, fun v hv p hp => ?_,
    fun v hv p hp => ?_, ⟨fun k => (b'.dag.graph.ancestors k).length, fun v hv p hp =>
      Digraph.length_ancestors_lt (harc v hv p hp)⟩, fun v hv hnil => ?_⟩
  · obtain ⟨u, hu, hhash, hxu⟩ := (hl.arc x v.hash).mp hx
    obtain rfl : u = v := by
      have hget := (hl.get v.hash u).mpr ⟨hu, hhash⟩
      exact Option.some.inj (hget.symm.trans hv)
    exact hxu
  · obtain ⟨u, hu⟩ := Digraph.mem_nodes.mp (harc v hv p hp).left
    have hkey : u.hash = p := b'.dag.keyed hu
    exact ⟨u, Or.inl (hkey ▸ hu), hkey⟩
  · obtain ⟨buf, hbuf, -⟩ := hv
    rw [loadDag_verticesDB hload] at hbuf
    cases hbuf
  · obtain ⟨u, hu, hhash, hedges⟩ := hst v ((hheld v).mp hv)
    exact hhash ▸ h.root u hu (hedges.trans hnil)

end Complete

/-! ### The members of a federation -/

/-- CONDITION on a call: what it inserts is sealed over a message in `M`, and a truncation is sound. -/
def SoundCall (M : Set Bytes) (env : Env) (s : Node) (e : Event) : Prop := SealsIn env M s e ∧ SoundCut s e

theorem Member.run {fed : Federation} {G : Vertex → Prop} {P : Env → Node → Event → Prop} {signer : Signer}
    {g : Vertex} {es : List Event} : ∀ {s : Node}, Member fed G P signer g s →
      Along (Node.step (fed.env signer)) (P (fed.env signer)) s es →
        Member fed G P signer g (Schemes.run (Node.step (fed.env signer)) s es) := by
  induction es with
  | nil => exact fun h _ => h
  | cons e es ih => exact fun h hes => ih (h.called hes.1) hes.2

/-- A node of the federation whose calls are sound. -/
abbrev Federation.Sound (fed : Federation) (M : Set Bytes) : Signer → Vertex → Node → Prop :=
  Member fed (fun g => g.initData ∈ M) (SoundCall M)

/-- INVARIANT of every member. -/
structure Settled (fed : Federation) (digest : Bytes → Hash) (M : Set Bytes) (signer : Signer) (g : Vertex)
    (s : Node) : Prop where
  listed : signer ∈ fed.signers
  shelved : Shelved fed.codec digest M s.book
  complete : Complete fed.codec g s.book
  pending : s.PendingVerified (fed.env signer)

section Members

variable {fed : Federation} {digest : Bytes → Hash} {M : Set Bytes} {signer signer' : Signer} {g g' : Vertex}
  {s s' : Node} {v : Vertex} {codec : Codec} {b : Book}

theorem Settled.arrives (h : Settled fed digest M signer g s) (sched : StreamSchedule) (fails : ℕ → Bool)
    (arrived : ℕ) : ∀ v ∈ delivered (receiveDag ((serveDag fails 0 (s.book.dag.stream sched)).1.take arrived)),
      SealedIn digest M v ∧
        ∃ u, Held fed.codec s.book u ∧ u.hash = v.hash ∧ edgeParents u = edgeParents v := by
  obtain ⟨k, hk⟩ := receiveDag_serveDag fails (s.book.dag.stream sched) arrived
  rw [hk, delivered_map_some]
  intro v hv
  obtain ⟨u, hu, rfl⟩ := List.mem_map.mp hv
  have hmem := mem_stream (List.mem_of_mem_take hu)
  have hsealed := h.shelved.sealed u (Or.inl hmem)
  refine ⟨⟨?_, ?_⟩, u, Or.inl hmem, rfl, rfl⟩
  · rw [Vertex.wired_initData]
    exact hsealed.1
  · rw [Vertex.wired_initData, Vertex.wired_hash]
    exact hsealed.2

/-- RUN: the invariant holds in every state of every member. -/
theorem Federation.Sound.settled (hc : fed.codec.Faithful) (hd : fed.Hashes digest M)
    (h : fed.Sound M signer g s) : Settled fed digest M signer g s := by
  induction h with
  | @founded signer n spec s g hmem hmade hgood =>
    have hshelved := shelved_genesis (hd.digests hmem) hmade hgood
    refine ⟨hmem, hshelved, .founded hmade, ?_⟩
    rw [Node.PendingVerified, Node.PendingAdds, (founded hmade).pending]
    simp
  | @joined signer other g s hmem _ sched fails arrived n load book hload ih =>
    have harrives := ih.arrives sched fails arrived
    have hbook : book = ((newAccountingBook n).loadDag load
        (receiveDag ((serveDag fails 0 (s.book.dag.stream sched)).1.take arrived))).1 := by rw [hload]
    refine ⟨hmem, ?_, ih.complete.loaded (fun v hv => (harrives v hv).2) hload,
      by simp [Node.PendingVerified, Node.PendingAdds]⟩
    rw [hbook]
    exact (Shelved.inserting (hd.digests hmem)).loadDag load (fun v hv => (harrives v hv).1) (.newAccountingBook n)
  | @called signer g s _ e hcall ih =>
    have hdig := hd.digests ih.listed
    exact ⟨ih.listed, ih.shelved.step hc hdig ih.pending hcall.1 hcall.2,
      ih.complete.step hc hdig hd.nonzero ih.pending hcall.1 hcall.2 ih.shelved, ih.pending.step e⟩

theorem Settled.read (h : Settled fed digest M signer g s) (hv : Held fed.codec s.book v) :
    s.book.readVertex fed.codec v.hash false = .ok v := by
  rw [Book.readVertex]
  rcases hv with hv | ⟨buf, hbuf, hdec⟩
  · rw [hv]
  · have hnone : s.book.dag.getVertex v.hash = none := by
      rw [Option.eq_none_iff_forall_ne_some]
      intro u hu
      have hkey : u.hash = v.hash := s.book.dag.keyed hu
      exact h.shelved.apart u v (hkey ▸ hu) ⟨buf, hbuf, hdec⟩ hkey
    rw [hnone]
    simp only [Book.readVertexFromStorage, hbuf, hdec, Bool.false_eq_true, if_false]

theorem Settled.readTransaction (h : Settled fed digest M signer g s) (hv : Held fed.codec s.book v) :
    s.book.readTransactionByHash fed.codec v.transaction.hash false false = .ok v.transaction := by
  have hread := h.read hv
  rw [Book.readTransactionByHash, Book.readVertexHashContainingTrxHashFromStorage, h.shelved.mapped v hv]
  rw [Book.readVertex] at hread
  cases hget : s.book.dag.getVertex v.hash with
  | some u =>
    rw [hget] at hread
    obtain rfl := Except.ok.inj hread
    simp [hget]
  | none =>
    obtain hget' | ⟨buf, hbuf, hdec⟩ := hv
    · rw [hget] at hget'
      cases hget'
    · simp [hget, Book.readTransactionFromStorage, hbuf, hdec]

theorem Complete.past_held (h : Complete codec g b) {x k : Hash} (hx : b.Past codec x k) :
    ∃ u, Held codec b u ∧ u.hash = x := by
  induction hx using Relation.TransGen.head_induction_on with
  | single hp =>
    obtain ⟨v, hv, -, hmem⟩ := hp
    exact h.parents v hv _ hmem
  | head hp _ _ =>
    obtain ⟨v, hv, -, hmem⟩ := hp
    exact h.parents v hv _ hmem

theorem Complete.past_irrefl (h : Complete codec g b) (k : Hash) : ¬ b.Past codec k k := by
  obtain ⟨rank, hrank⟩ := h.ranked
  have hlt : ∀ {x y : Hash}, b.Past codec x y → rank x < rank y := by
    intro x y hxy
    induction hxy with
    | single hp =>
      obtain ⟨v, hv, rfl, hmem⟩ := hp
      exact hrank v hv _ hmem
    | tail _ hp ih =>
      obtain ⟨v, hv, rfl, hmem⟩ := hp
      exact ih.trans (hrank v hv _ hmem)
  exact fun hk => (hlt hk).false

theorem Complete.exists_root (h : Complete codec g b) (hv : Held codec b v) :
    ∃ r, Held codec b r ∧ edgeParents r = [] ∧ (v = r ∨ b.Past codec r.hash v.hash) := by
  obtain ⟨rank, hrank⟩ := h.ranked
  induction hn : rank v.hash using Nat.strong_induction_on generalizing v with
  | h n ih =>
    cases hedge : edgeParents v with
    | nil => exact ⟨v, hv, hedge, Or.inl rfl⟩
    | cons p ps =>
      have hp : p ∈ edgeParents v := by rw [hedge]; exact List.mem_cons_self ..
      obtain ⟨u, hu, rfl⟩ := h.parents v hv p hp
      obtain ⟨r, hr, hnil, hur⟩ := ih _ (hn ▸ hrank v hv _ hp) hu rfl
      have hstep : b.Parent codec u.hash v.hash := ⟨v, hv, rfl, hp⟩
      refine ⟨r, hr, hnil, Or.inr ?_⟩
      rcases hur with rfl | hur
      · exact .single hstep
      · exact hur.tail hstep

/-- THE HISTORY IS COMPLETE: whatever calls a node has taken, however often it has been truncated, and
    whichever node it has loaded its graph from, each vertex that it holds descends from the genesis vertex
    and not from itself, and it and all of its past can be read, the vertices and their transactions. -/
theorem history_complete (hc : fed.codec.Faithful) (hd : fed.Hashes digest M) (h : fed.Sound M signer g s)
    {v : Vertex} (hv : Held fed.codec s.book v) :
    (v.hash = g.hash ∨ s.book.Past fed.codec g.hash v.hash) ∧ ¬ s.book.Past fed.codec v.hash v.hash ∧
      ∀ x, x = v.hash ∨ s.book.Past fed.codec x v.hash → ∃ u, s.book.readVertex fed.codec x false = .ok u ∧
        u.hash = x ∧ s.book.readTransactionByHash fed.codec u.transaction.hash false false = .ok u.transaction := by
  have hs := h.settled hc hd
  refine ⟨?_, hs.complete.past_irrefl v.hash, fun x hx => ?_⟩
  · obtain ⟨r, hr, hnil, hvr⟩ := hs.complete.exists_root hv
    rw [← hs.complete.root r hr hnil]
    exact hvr.imp_left (congrArg Vertex.hash)
  · obtain ⟨u, hu, rfl⟩ : ∃ u, Held fed.codec s.book u ∧ u.hash = x := by
      rcases hx with rfl | hx
      · exact ⟨v, hv, rfl⟩
      · exact hs.complete.past_held hx
    exact ⟨u, hs.read hu, rfl, hs.readTransaction hu⟩

end Members

namespace Transparent

/-- The nodes that sign with their address. -/
def fed : Federation := ⟨verifier, codec, Set.range signer⟩

theorem hashes_of_injOn {M : Set Bytes} (h : Set.InjOn digest M) : fed.Hashes digest M where
  signer := by
    rintro _ ⟨a, rfl⟩ message
    rfl
  verifier message signature hash address h := by
    simp only [fed, verifier_verify, decide_eq_true_eq] at h
    exact h.1
  injective := h
  nonzero message _ := digest_ne_zero message

theorem soundCut_chain {n : ℕ} (hn : Chain (wallet 8) n (run (Node.step (env hub)) (start 10) (chain (wallet 8) n))) :
    Along (Node.step (env hub)) SoundCut (start 10) (chain (wallet 8) n ++ [.truncate (cutChain (wallet 8) n)]) := by
  refine Along.append (along_of_always (fun e he s => ?_) _)
    ⟨⟨⟨rfl, rfl, fun _ => rfl, fun _ => rfl⟩, hn.noHashAddress (by decide)⟩, trivial⟩
  obtain ⟨j, -, hmem⟩ := mem_chain he
  simp only [addEvents, List.mem_cons, List.not_mem_nil, or_false] at hmem
  rcases hmem with rfl | rfl <;> trivial

theorem sound_chain : fed.Sound (linkMessages (wallet 8) 1002) (signer hub) (root 10)
    (run (Node.step (env hub)) (start 10) (chain (wallet 8) 1002 ++ [.truncate (cutChain (wallet 8) 1002)])) :=
  Member.run (.founded ⟨hub, rfl⟩ (genesis_start 10) (root_mem_linkMessages _ _))
    ((sealsIn_chain _ _ _).and (soundCut_chain plain_chain))

end Transparent

open Transparent in
/-- The law at a chain that is cut: the genesis vertex has left the graph and is read as the past of the
    last link. -/
theorem cut_chain_complete :
    let b := (run (Node.step (env hub)) (start 10)
      (chain (wallet 8) 1002 ++ [.truncate (cutChain (wallet 8) 1002)])).book
    b.dag.getVertex (root 10).hash = none ∧ b.Past codec (root 10).hash (link (wallet 8) 1002).hash ∧
      ∃ u, b.readVertex codec (root 10).hash false = .ok u ∧ u.hash = (root 10).hash ∧
        b.readTransactionByHash codec u.transaction.hash false false = .ok u.transaction := by
  intro b
  obtain ⟨b', hb', hcut⟩ := plain_chain.cut (m := 2) (by omega)
  have hb : b = b' := by
    simp only [b, run_truncate, hb']
  have hne : ∀ j ≤ 2, (link (wallet 8) 1002).hash ≠ (link (wallet 8) j).hash := fun j hj h => by
    have := link_hash_inj (by omega) (by omega) h
    omega
  have hlast : Held codec b (link (wallet 8) 1002) := by
    refine Or.inl ?_
    rw [hb, hcut.get, if_neg, plain_chain.get_link le_rfl]
    intro hanc
    obtain ⟨j, hj, heq⟩ := (plain_chain.anc_iff (by omega) (by omega) _).mp hanc
    exact hne j (by omega) heq
  obtain ⟨hroot, -, hread⟩ := history_complete codec_faithful
    (hashes_of_injOn (digests_links (wallet 8) (by omega)).injective) sound_chain hlast
  have hpast := hroot.resolve_left (hne 0 (by omega))
  exact ⟨by rw [hb]; exact plain_chain.root_cut hcut, hpast, hread _ (Or.inr hpast)⟩

end Computantis
