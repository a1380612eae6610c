import Computantis.Laws.Funds
import Computantis.Model.Truncate

/-! @law cut | name:What a truncation does | family:transition | about:Model/Truncate

    An uncancelled walk performs its action on every ancestor once, in the order delivered
    (`walkLoop_calm`). So a truncation that succeeds has cut the graph at some vertex `top`: the
    ancestors of `top` have moved from the graph to the vertex store, and every address of the funds
    map has its settled funds under its own bytes (`Cut`). -/

namespace Computantis

open Schemes

/-! ### Walks -/

/-- The action on a list of vertices, up to the first error. -/
def performAll {σ : Type} (perform : Vertex → σ → σ × Option Err) : List Vertex → σ → σ × Option Err
  | [], s => (s, none)
  | v :: vs, s => match perform v s with
    | (s, some e) => if e = [.errBreak] then (s, none) else (s, some (.errUnexpected :: e))
    | (s, none) => performAll perform vs s

section Walks

variable {σ : Type} {d : Dag} {perform : Vertex → σ → σ × Option Err}

theorem walkLoop_calm : ∀ (ids : List Hash) (i : ℕ) (visited : List Hash) (s : σ),
    (∀ id ∈ ids, id ∈ d.graph.nodes) →
    walkLoop d none perform ids i visited s = performAll perform (d.vertices (firsts visited ids)) s
  | [], i, visited, s, _ => rfl
  | id :: ids, i, visited, s, h => by
      have hids : ∀ x ∈ ids, x ∈ d.graph.nodes := fun x hx => h x (List.mem_cons_of_mem _ hx)
      rw [walkLoop, firsts, if_neg (by simp)]
      by_cases hvis : id ∈ visited
      · rw [if_pos hvis, if_pos hvis]
        exact walkLoop_calm ids _ _ _ hids
      · obtain ⟨v, hv⟩ : ∃ v, d.getVertex id = some v := Digraph.mem_nodes.mp (h id (List.mem_cons_self ..))
        have hvs : d.vertices (id :: firsts (id :: visited) ids) =
            v :: d.vertices (firsts (id :: visited) ids) := by simp [Dag.vertices, hv]
        rw [if_neg hvis, if_neg hvis, hvs, performAll]
        simp only [hv]
        generalize perform v s = res
        obtain ⟨s1, e⟩ := res
        cases e with
        | some e => rfl
        | none => exact walkLoop_calm ids _ _ _ hids

theorem walkLoop_ok {c : Option ℕ} : ∀ {ids : List Hash} {i : ℕ} {visited : List Hash} {s s' : σ},
    walkLoop d c perform ids i visited s = (s', none) →
      walkLoop d none perform ids i visited s = (s', none)
  | [], _, _, _, _, h => h
  | id :: ids, i, visited, s, s', h => by
      rw [walkLoop] at h ⊢
      split at h
      · cases h
      · rw [if_neg (by simp)]
        split at h
        next hvis => rw [if_pos hvis]; exact walkLoop_ok h
        next hvis =>
          rw [if_neg hvis]
          cases hget : d.getVertex id with
          | none => rw [hget] at h; exact h
          | some v =>
            rw [hget] at h
            simp only at h ⊢
            generalize perform v s = res at h ⊢
            obtain ⟨s1, e⟩ := res
            cases e with
            | some e => exact h
            | none => exact walkLoop_ok h

/-- The ancestors of `top` in the order in which a walk acts on them. -/
def Dag.above (d : Dag) (top : Hash) (order : List Hash) : List Vertex :=
  d.vertices (firsts [] (arrange order (d.graph.ancestors top)))

theorem Dag.mem_above {top : Hash} {order : List Hash} {v : Vertex} :
    v ∈ d.above top order ↔ d.getVertex v.hash = some v ∧ d.graph.Anc v.hash top := by
  rw [Dag.above, Dag.mem_vertices, mem_firsts, mem_arrange, Digraph.mem_ancestors]
  simp [and_comm]

theorem Dag.above_nodup (top : Hash) (order : List Hash) : ((d.above top order).map Vertex.hash).Nodup :=
  Dag.vertices_hash_nodup (firsts_nodup _ _)

theorem performOnAncestorWalker_calm {top : Hash} (htop : top ∈ d.graph.nodes) (order : List Hash) (s : σ) :
    performOnAncestorWalker d top ⟨order, none⟩ perform s = performAll perform (d.above top order) s := by
  rw [performOnAncestorWalker, if_neg (by simpa using htop), walkLoop_calm]
  · rfl
  · exact fun id hid => (Digraph.mem_ancestors.mp (mem_arrange.mp hid)).left

theorem performOnAncestorWalker_ok {top : Hash} {p : WalkProbe} {s s' : σ}
    (h : performOnAncestorWalker d top p perform s = (s', none)) :
    top ∈ d.graph.nodes ∧ performAll perform (d.above top p.order) s = (s', none) := by
  by_cases htop : top ∈ d.graph.nodes
  · refine ⟨htop, ?_⟩
    rw [← performOnAncestorWalker_calm htop]
    rw [performOnAncestorWalker, if_neg (by simpa using htop)] at h ⊢
    exact walkLoop_ok h
  · rw [performOnAncestorWalker, if_pos htop] at h
    cases h

end Walks

/-! ### The third walk -/

theorem performAll_collect : ∀ (vs : List Vertex) (ids : List Hash),
    performAll collect vs ids = (ids ++ vs.map Vertex.hash, none)
  | [], ids => by simp [performAll]
  | v :: vs, ids => by
      rw [performAll, collect]
      simp [performAll_collect vs]

/-! ### The second walk -/

section Saving

variable {codec : Codec} {fails : Hash → Bool}

/-- The vertices `vs` have been added to the store. -/
structure Stored (codec : Codec) (vs : List Vertex) (db db' : VertexStore) : Prop where
  fresh : ∀ v ∈ vs, db.lookup v.hash.bytes = none
  saved : ∀ v ∈ vs, db'.lookup v.hash.bytes = some (codec.encodeVertex v)
  other : ∀ k, (∀ v ∈ vs, v.hash.bytes ≠ k) → db'.lookup k = db.lookup k

/-- The funds map after the vertices `vs`. -/
def fundsOver (f : FundsMemMap) (vs : List Vertex) : FundsMemMap :=
  vs.foldl (fun f v => FundsMemMap.nextVertex v f) f

theorem saveVertexToStorage_ok {v : Vertex} {failing : Bool} {db db' : VertexStore}
    (h : saveVertexToStorage codec failing v db = (db', none)) :
    db.lookup v.hash.bytes = none ∧ db' = db.insert v.hash.bytes (codec.encodeVertex v) := by
  unfold saveVertexToStorage at h
  split at h
  · cases h
  · split at h
    · cases h
    next hn => cases h; exact ⟨by simpa using hn, rfl⟩

theorem Stored.cons {v : Vertex} {vs : List Vertex} {db db' : VertexStore}
    (hv : db.lookup v.hash.bytes = none)
    (h : Stored codec vs (db.insert v.hash.bytes (codec.encodeVertex v)) db') :
    Stored codec (v :: vs) db db' := by
  have hne : ∀ u ∈ vs, u.hash.bytes ≠ v.hash.bytes := by
    intro u hu heq
    have := h.fresh u hu
    rw [heq, AList.lookup_insert] at this
    cases this
  refine ⟨?_, ?_, ?_⟩
  · intro u hu
    rcases List.mem_cons.mp hu with rfl | hu
    · exact hv
    · rw [← h.fresh u hu, AList.lookup_insert_ne (hne u hu)]
  · intro u hu
    rcases List.mem_cons.mp hu with rfl | hu
    · rw [h.other _ hne, AList.lookup_insert]
    · exact h.saved u hu
  · intro k hk
    rw [h.other k fun u hu => hk u (List.mem_cons_of_mem _ hu),
      AList.lookup_insert_ne (hk v (List.mem_cons_self ..)).symm]

theorem accountAndSave_ok : ∀ {vs : List Vertex} {f f' : FundsMemMap} {db db' : VertexStore},
    performAll (accountAndSave codec fails) vs (f, db) = ((f', db'), none) →
      f' = fundsOver f vs ∧ Stored codec vs db db'
  | [], f, f', db, db', h => by
      cases h
      exact ⟨rfl, by simp, by simp, by simp⟩
  | v :: vs, f, f', db, db', h => by
      rw [performAll, accountAndSave] at h
      cases hsave : saveVertexToStorage codec (fails v.hash) v db with
      | mk db1 e =>
        rw [hsave] at h
        cases e with
        | some e =>
          have hbreak : e ≠ [.errBreak] := by
            unfold saveVertexToStorage at hsave
            split at hsave
            · cases hsave; simp
            · split at hsave
              · cases hsave; simp
              · cases hsave
          simp [hbreak] at h
        | none =>
          obtain ⟨hv, rfl⟩ := saveVertexToStorage_ok hsave
          obtain ⟨hf, hst⟩ := accountAndSave_ok h
          exact ⟨hf, hst.cons hv⟩

theorem accountAndSave_isOk (codec : Codec) (hfails : ∀ k, fails k = false) : ∀ {vs : List Vertex} (f : FundsMemMap)
    {db : VertexStore}, (vs.map Vertex.hash).Nodup → (∀ v ∈ vs, db.lookup v.hash.bytes = none) →
    ∃ f' db', performAll (accountAndSave codec fails) vs (f, db) = ((f', db'), none)
  | [], f, db, _, _ => ⟨f, db, rfl⟩
  | v :: vs, f, db, hnd, hnew => by
      rw [List.map_cons, List.nodup_cons] at hnd
      have hv := hnew v (List.mem_cons_self ..)
      have hsave : saveVertexToStorage codec (fails v.hash) v db =
          (db.insert v.hash.bytes (codec.encodeVertex v), none) := by
        simp [saveVertexToStorage, hfails, hv]
      rw [performAll, accountAndSave, hsave]
      refine accountAndSave_isOk codec hfails _ hnd.2 fun u hu => ?_
      rw [AList.lookup_insert_ne]
      · exact hnew u (List.mem_cons_of_mem _ hu)
      · intro heq
        exact hnd.1 (Hash.bytes_inj.mp heq ▸ List.mem_map_of_mem hu)

end Saving

/-! ### The funds map -/

/-- The vertex moves spice from or to the address. -/
def Vertex.Party (v : Vertex) (a : Address) : Prop :=
  v.transaction.isSpiceTransfer = true ∧
    (a = v.transaction.issuerAddress ∨ a = v.transaction.receiverAddress)

variable {f : FundsMemMap} {fails : Address → Bool}

theorem mem_nextVertex {v : Vertex} {a : Address} : a ∈ FundsMemMap.nextVertex v f ↔ a ∈ f ∨ v.Party a := by
  unfold FundsMemMap.nextVertex Vertex.Party
  split
  next hs =>
    simp only [FundsMemMap.updateFounds, AList.mem_insert, hs, true_and]
    tauto
  next hs => simp [hs]

theorem mem_fundsOver : ∀ {vs : List Vertex} {f : FundsMemMap} {a : Address},
    a ∈ fundsOver f vs ↔ a ∈ f ∨ ∃ v ∈ vs, v.Party a
  | [], f, a => by simp [fundsOver]
  | v :: vs, f, a => by
      have ih := @mem_fundsOver vs (FundsMemMap.nextVertex v f) a
      rw [fundsOver, List.foldl_cons]
      rw [fundsOver] at ih
      rw [ih, mem_nextVertex, or_assoc]
      simp

theorem saveToStorage_ok {codec : Codec} :
    ∀ {as : List Address} {db db' : VertexStore}, saveToStorage codec fails f as db = (db', none) →
      ∀ k, db'.lookup k = if k ∈ as then some (codec.encodeSpice (FundsMemMap.settled (FundsMemMap.get f k)))
        else db.lookup k
  | [], db, db', h, k => by cases h; simp
  | a :: as, db, db', h, k => by
      rw [saveToStorage] at h
      split at h
      · cases h
      · rw [saveToStorage_ok h k]
        by_cases hk : k ∈ as
        · simp [hk]
        · by_cases hka : k = a
          · subst hka; simp [hk, saveFundsToStorage]
          · simp [hk, hka, saveFundsToStorage, AList.lookup_insert_ne hka]

theorem saveToStorage_isOk (codec : Codec) (hfails : ∀ a, fails a = false) : ∀ (as : List Address) (db : VertexStore),
    ∃ db', saveToStorage codec fails f as db = (db', none)
  | [], db => ⟨db, rfl⟩
  | a :: as, db => by
      rw [saveToStorage, if_neg (by simp [hfails])]
      exact saveToStorage_isOk codec hfails as _

/-! ### The cut -/

/-- The funds map that a truncation at `top` saves. -/
def cutFunds (codec : Codec) (b : Book) (t : TruncateSchedule) (top : Hash) : FundsMemMap :=
  fundsOver (forEachfundFromStorage codec b.verticesDB) (b.dag.above top t.second.order)

/-- What a truncation at `top` does. -/
structure Cut (codec : Codec) (t : TruncateSchedule) (b b' : Book) (top : Hash) : Prop where
  known : top ∈ b.dag.graph.nodes
  frame : b' = { b with verticesDB := b'.verticesDB, dag := b'.dag, lastBackup := b'.lastBackup }
  get : ∀ k, b'.dag.getVertex k = if b.dag.graph.Anc k top then none else b.dag.getVertex k
  arc : ∀ x y, b'.dag.graph.Arc x y ↔
    b.dag.graph.Arc x y ∧ ¬ b.dag.graph.Anc x top ∧ ¬ b.dag.graph.Anc y top
  fresh : ∀ v, b.dag.getVertex v.hash = some v → b.dag.graph.Anc v.hash top →
    b.verticesDB.lookup v.hash.bytes = none
  funds : ∀ a ∈ cutFunds codec b t top, b'.verticesDB.lookup a =
    some (codec.encodeSpice (FundsMemMap.settled (FundsMemMap.get (cutFunds codec b t top) a)))
  saved : ∀ v, b.dag.getVertex v.hash = some v → b.dag.graph.Anc v.hash top →
    v.hash.bytes ∉ cutFunds codec b t top →
    b'.verticesDB.lookup v.hash.bytes = some (codec.encodeVertex v)
  other : ∀ k, k ∉ cutFunds codec b t top →
    (∀ v, b.dag.getVertex v.hash = some v → b.dag.graph.Anc v.hash top → v.hash.bytes ≠ k) →
    b'.verticesDB.lookup k = b.verticesDB.lookup k

theorem foldl_deleteVertex_graph : ∀ (ids : List Hash) (d : Dag),
    (ids.foldl Dag.deleteVertex d).graph = d.graph.deleteAll ids
  | [], _ => rfl
  | id :: ids, d => by
      rw [List.foldl_cons, foldl_deleteVertex_graph ids]; rfl

section Truncate

variable {codec : Codec} {b b' : Book} {t : TruncateSchedule} {top : Hash}

theorem mem_map_above {order : List Hash} {k : Hash} :
    k ∈ (b.dag.above top order).map Vertex.hash ↔ b.dag.graph.Anc k top := by
  rw [List.mem_map]
  constructor
  · rintro ⟨v, hv, rfl⟩
    exact (Dag.mem_above.mp hv).2
  · intro hk
    obtain ⟨v, hv⟩ : ∃ v, b.dag.getVertex k = some v := Digraph.mem_nodes.mp hk.left
    obtain rfl := b.dag.keyed hv
    exact ⟨v, Dag.mem_above.mpr ⟨hv, hk⟩, rfl⟩

theorem cutBelow_ok (h : b.cutBelow codec t top = (b', none)) : Cut codec t b b' top := by
  unfold Book.cutBelow at h
  split at h
  · cases h
  next f db1 hwalk =>
    obtain ⟨htop, hperf⟩ := performOnAncestorWalker_ok hwalk
    obtain ⟨rfl, hst⟩ := accountAndSave_ok hperf
    split at h
    · cases h
    next db2 hfunds =>
      split at h
      · cases h
      next ids hthird =>
        obtain ⟨-, hcollect⟩ := performOnAncestorWalker_ok hthird
        rw [performAll_collect, List.nil_append] at hcollect
        cases hcollect
        cases h
        have hlookup : ∀ k, db2.lookup k = if k ∈ cutFunds codec b t top then
            some (codec.encodeSpice (FundsMemMap.settled (FundsMemMap.get (cutFunds codec b t top) k)))
            else db1.lookup k := fun k => by
          rw [saveToStorage_ok hfunds k]
          simp only [mem_enumerate, AList.mem_keys, cutFunds]
        refine ⟨htop, rfl, fun k => ?_, fun x y => ?_, fun v hv ha => ?_, fun a ha => ?_,
          fun v hv ha hk => ?_, fun k hk hne => ?_⟩
        · simp only [Dag.getVertex, foldl_deleteVertex_graph, Digraph.get_deleteAll, mem_map_above]
        · simp only [foldl_deleteVertex_graph, Digraph.arc_deleteAll, mem_map_above]
        · exact hst.fresh v (Dag.mem_above.mpr ⟨hv, ha⟩)
        · simp only [hlookup, if_pos ha]
        · simp only [hlookup, if_neg hk]
          exact hst.saved v (Dag.mem_above.mpr ⟨hv, ha⟩)
        · simp only [hlookup, if_neg hk]
          exact hst.other k fun v hv => hne v (Dag.mem_above.mp hv).1 (Dag.mem_above.mp hv).2

/-- The stores work and no walk that writes or deletes is cancelled. -/
structure TruncateSchedule.Undisturbed (t : TruncateSchedule) : Prop where
  second : t.second.cancelAt = none
  third : t.third.cancelAt = none
  saveVertex : ∀ k, t.saveVertexFails k = false
  saveFunds : ∀ a, t.saveFundsFails a = false

theorem cutBelow_isOk (codec : Codec) (b : Book) (ht : t.Undisturbed) (htop : top ∈ b.dag.graph.nodes)
    (hnew : ∀ v, b.dag.getVertex v.hash = some v → b.dag.graph.Anc v.hash top →
      b.verticesDB.lookup v.hash.bytes = none) : ∃ b', b.cutBelow codec t top = (b', none) := by
  obtain ⟨f, db1, hperf⟩ := accountAndSave_isOk codec ht.saveVertex
    (forEachfundFromStorage codec b.verticesDB) (Dag.above_nodup (d := b.dag) top t.second.order)
    (fun v hv => hnew v (Dag.mem_above.mp hv).1 (Dag.mem_above.mp hv).2)
  have hsecond : t.second = ⟨t.second.order, none⟩ := by rw [← ht.second]
  have hthird : t.third = ⟨t.third.order, none⟩ := by rw [← ht.third]
  obtain ⟨db2, hfunds⟩ := saveToStorage_isOk codec (f := f) ht.saveFunds
    (enumerate t.fundsOrder f.keys) db1
  unfold Book.cutBelow
  rw [hsecond, performOnAncestorWalker_calm htop, hperf]
  simp only [hfunds]
  rw [hthird, performOnAncestorWalker_calm htop, performAll_collect]
  exact ⟨_, rfl⟩

theorem cutBelow_unknown (codec : Codec) (b : Book) (t : TruncateSchedule)
    (htop : top ∉ b.dag.graph.nodes) : (b.cutBelow codec t top).1 = b := by
  unfold Book.cutBelow
  rw [performOnAncestorWalker, if_pos htop]

theorem truncate_writes (env : Env) (b : Book) (t : TruncateSchedule) : ∃ db dag n,
    (b.truncate env t).1 = { b with verticesDB := db, dag := dag, lastBackup := n } := by
  unfold Book.truncate
  split
  · exact ⟨_, _, _, rfl⟩
  · simp only
    split
    · exact ⟨_, _, _, rfl⟩
    · split
      · exact ⟨_, _, _, rfl⟩
      · split
        · exact ⟨_, _, _, rfl⟩
        · unfold Book.cutBelow
          split
          · exact ⟨_, _, _, rfl⟩
          · split
            · exact ⟨_, _, _, rfl⟩
            · split <;> exact ⟨_, _, _, rfl⟩

theorem truncate_cases (env : Env) (b : Book) (t : TruncateSchedule) :
    (∃ n, (b.truncate env t).1 = { b with lastBackup := n }) ∨
    ∃ leaf ∈ b.dag.graph.leaves, b.truncate env t =
      { b with lastBackup := t.backupVersion + 1 }.cutBelow env.codec t (b.cutTop t leaf) := by
  unfold Book.truncate
  cases hleaves : enumerate t.pick b.dag.graph.leaves with
  | nil => exact Or.inl ⟨_, rfl⟩
  | cons leaf rest =>
    simp only
    split
    · exact Or.inl ⟨_, rfl⟩
    · split
      · exact Or.inl ⟨_, rfl⟩
      · split
        · exact Or.inl ⟨_, rfl⟩
        · exact Or.inr ⟨leaf, mem_enumerate.mp (hleaves ▸ List.mem_cons_self ..), rfl⟩

theorem Cut.of_lastBackup {n : UInt64} (h : Cut codec t { b with lastBackup := n } b' top) :
    Cut codec t b b' top :=
  ⟨h.known, h.frame, h.get, h.arc, h.fresh, h.funds, h.saved, h.other⟩

theorem truncate_dag (env : Env) (b : Book) (t : TruncateSchedule) :
    (b.truncate env t).1.dag = b.dag ∨ ∃ top, Cut env.codec t b (b.truncate env t).1 top := by
  rcases truncate_cases env b t with ⟨n, hn⟩ | ⟨leaf, -, heq⟩
  · exact Or.inl (by rw [hn])
  · rw [heq]
    cases hres : Book.cutBelow env.codec { b with lastBackup := t.backupVersion + 1 } t (b.cutTop t leaf) with
    | mk b' err =>
      cases err with
      | none => exact Or.inr ⟨_, (cutBelow_ok hres).of_lastBackup⟩
      | some e =>
        unfold Book.cutBelow at hres
        split at hres
        · cases hres; exact Or.inl rfl
        · split at hres
          · cases hres; exact Or.inl rfl
          · split at hres
            · cases hres; exact Or.inl rfl
            · cases hres

end Truncate

theorem mem_forEachfund {codec : Codec} {db : VertexStore} {a : Address}
    (h : a ∈ forEachfundFromStorage codec db) : a.length ≠ 32 := by
  revert h
  unfold forEachfundFromStorage
  refine List.foldlRecOn (motive := fun f : FundsMemMap => a ∈ f → a.length ≠ 32) db.entries _ (by simp) ?_
  intro f hf e _ ha
  split at ha
  · exact hf ha
  next hlen =>
    split at ha
    · rcases (AList.mem_insert _).mp ha with rfl | ha
      · exact hlen
      · exact hf ha
    · exact hf ha

end Computantis
