import Computantis.Laws.Closure

/-! @law index | name:The transaction index | family:invariant | about:Model/Book, Model/Node

    The index maps the transaction of every vertex of the graph to that vertex. Insertions save the
    mapping before they touch the graph and refuse a transaction that has one; a vertex that leaves
    the graph takes its own mapping with it and nobody else's, because two vertices of the graph never
    share a transaction. None of this needs the stores to work. -/

namespace Computantis

open Schemes

/-- INVARIANT: every vertex of the graph is found under its transaction. -/
def Indexed (b : Book) : Prop :=
  ∀ v, b.dag.getVertex v.hash = some v → b.trxsToVertxDB.lookup v.transaction.hash = some v.hash

theorem lookup_unmapped_ne {faults : Faults} {trxs : AList fun _ : Hash => Hash} {h k : Hash}
    (hne : k ≠ h) : (unmapped faults trxs h).lookup k = trxs.lookup k := by
  unfold unmapped
  split
  · rfl
  · exact AList.lookup_erase_ne hne

namespace Indexed

variable {b b' : Book}

theorem unique (h : Indexed b) {u v : Vertex} (hu : b.dag.getVertex u.hash = some u)
    (hv : b.dag.getVertex v.hash = some v) (heq : u.transaction.hash = v.transaction.hash) : u = v := by
  have hhash : u.hash = v.hash := Option.some.inj ((h u hu).symm.trans (heq ▸ h v hv))
  exact Option.some.inj (hu.symm.trans (hhash ▸ hv))

theorem ne_of_unused (h : Indexed b) {k : Hash} (hk : b.trxsToVertxDB.lookup k = none) {v : Vertex}
    (hv : b.dag.getVertex v.hash = some v) : v.transaction.hash ≠ k := by
  rintro rfl
  rw [h v hv] at hk
  cases hk

theorem move {env : Env} {faults : Faults} {origin : Vertex → Vertex → Vertex → Prop}
    (hm : Move env faults origin b b') (h : Indexed b) : Indexed b' := by
  intro v hv
  cases hm with
  | idle _ hd ht => rw [ht]; exact h v (hd ▸ hv)
  | @reject u _ _ hf hknown hleaf _ hd ht =>
    have hold := (Remains.of_delete hf hleaf hd).get hv
    -- the rejected vertex is gone, so what is left carries another transaction
    have hne : v.transaction.hash ≠ u.transaction.hash := by
      intro heq
      obtain rfl := h.unique hold hknown heq
      rw [hd, Dag.getVertex, Dag.deleteVertex_graph, Digraph.get_delete, if_pos rfl] at hv
      cases hv
    rw [ht, lookup_unmapped_ne hne]; exact h v hold
  | refuse _ _ _ hu hd ht =>
    have hold := hd ▸ hv
    have hne := h.ne_of_unused hu hold
    rw [ht, lookup_unmapped_ne hne, AList.lookup_insert_ne hne]; exact h v hold
  | @grow leaf l r _ _ _ _ _ _ hu hd ht =>
    rw [ht]
    by_cases hnew : v.hash = leaf.hash
    · rw [hnew, Dag.getVertex, hd.get_self] at hv
      cases hv
      exact AList.lookup_insert _
    · rw [Dag.getVertex, hd.get_of_ne hnew] at hv
      rw [AList.lookup_insert_ne (h.ne_of_unused hu hv)]; exact h v hv

theorem step {env : Env} {s : Node} (h : Indexed s.book) {e : Event} (he : e.Ordinary) :
    Indexed (s.step env e).book :=
  Moves.invariant (fun hm hb => hb.move hm) (s.step_moves env he) h

end Indexed

theorem indexed_genesis {env : Env} {n : UInt64} {spec : Book.GenesisSpec} {s : Node} {g : Vertex}
    (h : Node.genesis env n spec = some (s, g)) : Indexed s.book := by
  intro v hv
  have hf := founded h
  rw [(hf.eq hv).2, hf.trxs]
  exact AList.lookup_insert _

end Computantis
