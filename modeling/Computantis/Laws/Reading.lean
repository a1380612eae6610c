import Computantis.Laws.Uniqueness

/-! @law reading | name:Truncation loses no vertex | family:frame | about:Model/Truncate

    A reader looks in the graph first and in the store second. A truncation saves before it deletes, so
    wherever it stops the reader finds what it found before, as long as the funds it saves go to keys
    that are not 32 bytes long: they are saved over whatever is there. That no vertex is in both places
    after a success is a matter of the whole run (`Shelved`). -/

namespace Computantis

open Schemes

/-! ### Wherever a truncation stops -/

section Walk

variable {σ : Type} {d : Dag} {perform : Vertex → σ → σ × Option Err} {I : σ → Prop}

theorem walkLoop_invariant (hstep : ∀ v s, d.getVertex v.hash = some v → I s → I (perform v s).1)
    {cancelAt : Option ℕ} (ids : List Hash) : ∀ (i : ℕ) (visited : List Hash) {s : σ}, I s →
      I (walkLoop d cancelAt perform ids i visited s).1 := by
  induction ids with
  | nil => exact fun _ _ _ h => h
  | cons id rest ih =>
    intro i visited s h
    rw [walkLoop]
    split
    · exact h
    · split
      · exact ih _ _ h
      · cases hget : d.getVertex id with
        | none => exact h
        | some v =>
          have hv : I (perform v s).1 := hstep v s (d.keyed hget ▸ hget) h
          simp only
          split
          next hres =>
            rw [hres] at hv
            split <;> exact hv
          next hres =>
            rw [hres] at hv
            exact ih _ _ hv

theorem performOnAncestorWalker_invariant
    (hstep : ∀ v s, d.getVertex v.hash = some v → I s → I (perform v s).1) {top : Hash} (p : WalkProbe)
    {s : σ} (h : I s) : I (performOnAncestorWalker d top p perform s).1 := by
  rw [performOnAncestorWalker]
  split
  · exact h
  · exact walkLoop_invariant hstep _ _ _ h

end Walk

/-- Under the keys of 32 bytes nothing changes but that vertices of the graph are saved to free ones. -/
def Saved (codec : Codec) (d : Dag) (db db' : VertexStore) : Prop :=
  ∀ k : Hash, db'.lookup k.bytes = db.lookup k.bytes ∨
    ∃ v, d.getVertex k = some v ∧ db'.lookup k.bytes = some (codec.encodeVertex v)

section Partial

variable {codec : Codec} {d : Dag} {db db1 db2 : VertexStore} {b b' : Book} {t : TruncateSchedule}

theorem Saved.save (h : Saved codec d db db1) (fails : Bool) {v : Vertex}
    (hv : d.getVertex v.hash = some v) :
    Saved codec d db (saveVertexToStorage codec fails v db1).1 := by
  unfold saveVertexToStorage
  split
  · exact h
  · split
    · exact h
    · intro k
      rcases eq_or_ne k v.hash with rfl | hk
      · exact Or.inr ⟨v, hv, AList.lookup_insert _⟩
      · rw [AList.lookup_insert_ne fun heq => hk (Hash.bytes_inj.mp heq)]
        exact h k

/-- RUN (funds): saved under addresses that are not 32 bytes long they touch no vertex. -/
theorem Saved.saveToStorage (f : FundsMemMap) (fails : Address → Bool) (as : List Address) :
    ∀ {db1 : VertexStore}, (∀ a ∈ as, a.length ≠ 32) → Saved codec d db db1 →
      Saved codec d db (saveToStorage codec fails f as db1).1 := by
  induction as with
  | nil => exact fun _ h => h
  | cons a rest ih =>
    intro db1 hlen h
    rw [Computantis.saveToStorage]
    split
    · exact h
    · refine ih (fun x hx => hlen x (List.mem_cons_of_mem _ hx)) fun k => ?_
      have hne : k.bytes ≠ a := fun heq => hlen a (List.mem_cons_self ..) (heq ▸ k.len)
      rw [saveFundsToStorage, AList.lookup_insert_ne hne]
      exact h k

theorem accountAndSave_saved (codec : Codec) (hparty : NoHashAddress b) (fails : Hash → Bool) (top : Hash)
    (p : WalkProbe) :
    let res := (performOnAncestorWalker b.dag top p (accountAndSave codec fails)
      (forEachfundFromStorage codec b.verticesDB, b.verticesDB)).1
    (∀ a ∈ res.1, a.length ≠ 32) ∧ Saved codec b.dag b.verticesDB res.2 := by
  refine performOnAncestorWalker_invariant
    (I := fun s : FundsMemMap × VertexStore =>
      (∀ a ∈ s.1, a.length ≠ 32) ∧ Saved codec b.dag b.verticesDB s.2)
    (fun v s hv ⟨hf, hs⟩ => ⟨fun a ha => ?_, hs.save _ hv⟩) p
    ⟨fun a ha => mem_forEachfund ha, fun _ => Or.inl rfl⟩
  rcases mem_nextVertex.mp ha with ha | ha
  · exact hf a ha
  · exact hparty v a hv ha

/-- What a truncation has done wherever it stops. -/
structure Retained (codec : Codec) (t : TruncateSchedule) (b b' : Book) : Prop where
  trxs : b'.trxsToVertxDB = b.trxsToVertxDB
  saved : Saved codec b.dag b.verticesDB b'.verticesDB
  dag : b'.dag = b.dag ∨ ∃ top, Cut codec t b b' top

theorem Retained.of_lastBackup {n : UInt64} (h : Retained codec t { b with lastBackup := n } b') :
    Retained codec t b b' :=
  ⟨h.trxs, h.saved, h.dag.imp_right fun ⟨top, hcut⟩ => ⟨top, hcut.of_lastBackup⟩⟩

theorem cutBelow_retained (hparty : NoHashAddress b) (t : TruncateSchedule) (top : Hash) :
    Retained codec t b (b.cutBelow codec t top).1 := by
  cases hres : b.cutBelow codec t top with
  | mk b' err =>
    cases err with
    | none =>
      have hcut := cutBelow_ok hres
      refine ⟨by rw [hcut.frame], fun k => ?_, Or.inr ⟨top, hcut⟩⟩
      have hnot := hash_notMem_cutFunds codec t top hparty k
      by_cases ha : b.dag.graph.Anc k top
      · obtain ⟨v, hv⟩ : ∃ v, b.dag.getVertex k = some v := Digraph.mem_nodes.mp ha.left
        obtain rfl : v.hash = k := b.dag.keyed hv
        exact Or.inr ⟨v, hv, hcut.saved v hv ha hnot⟩
      · exact Or.inl (hcut.other _ hnot fun v _ hva heq => ha (Hash.bytes_inj.mp heq ▸ hva))
    | some e =>
      -- the graph is as it was; the store is wherever the saving stopped
      obtain ⟨hkeys, hsaved⟩ := accountAndSave_saved codec hparty t.saveVertexFails top t.second
      unfold Book.cutBelow at hres
      split at hres
      next hwalk =>
        rw [hwalk] at hsaved
        cases hres
        exact ⟨rfl, hsaved, Or.inl rfl⟩
      next f db1 hwalk =>
        rw [hwalk] at hkeys hsaved
        have hfunds := Saved.saveToStorage f t.saveFundsFails (enumerate t.fundsOrder f.keys)
          (fun a ha => hkeys a (AList.mem_keys.mpr (mem_enumerate.mp ha))) hsaved
        split at hres
        next hres2 =>
          rw [hres2] at hfunds
          cases hres
          exact ⟨rfl, hfunds, Or.inl rfl⟩
        next hres2 =>
          rw [hres2] at hfunds
          split at hres
          · cases hres
            exact ⟨rfl, hfunds, Or.inl rfl⟩
          · cases hres

theorem truncate_retained {env : Env} (hparty : NoHashAddress b) (t : TruncateSchedule) :
    Retained env.codec t b (b.truncate env t).1 := by
  rcases truncate_cases env b t with ⟨n, hn⟩ | ⟨leaf, -, heq⟩
  · rw [hn]
    exact ⟨rfl, fun _ => Or.inl rfl, Or.inl rfl⟩
  · rw [heq]
    exact (cutBelow_retained (b := { b with lastBackup := t.backupVersion + 1 }) hparty t _).of_lastBackup

/-! ### What a reader sees -/

theorem Retained.reads (hc : codec.Faithful) (h : Retained codec t b b') (k : Hash) :
    (b'.dag.getVertex k = b.dag.getVertex k ∧
        (b.dag.getVertex k = none → b'.verticesDB.lookup k.bytes = b.verticesDB.lookup k.bytes)) ∨
      ∃ v buf, b.dag.getVertex k = some v ∧ b'.dag.getVertex k = none ∧
        b'.verticesDB.lookup k.bytes = some buf ∧ codec.decodeVertex buf = (v, true) := by
  have hstore : b.dag.getVertex k = none → b'.verticesDB.lookup k.bytes = b.verticesDB.lookup k.bytes := by
    intro hnone
    rcases h.saved k with hsame | ⟨v, hv, -⟩
    · exact hsame
    · rw [hnone] at hv
      cases hv
  rcases h.dag with hdag | ⟨top, hcut⟩
  · exact Or.inl ⟨by rw [hdag], hstore⟩
  · by_cases ha : b.dag.graph.Anc k top
    · obtain ⟨v, hv⟩ : ∃ v, b.dag.getVertex k = some v := Digraph.mem_nodes.mp ha.left
      obtain rfl : v.hash = k := b.dag.keyed hv
      refine Or.inr ⟨v, codec.encodeVertex v, hv, by rw [hcut.get, if_pos ha], ?_, hc.vertex v⟩
      -- the cut found the key free, so what is there now is the vertex
      rcases h.saved v.hash with hsame | ⟨u, hu, hsaved⟩
      · have hfresh := hcut.fresh v hv ha
        rw [hfresh] at hsame
        by_cases hk : v.hash.bytes ∈ cutFunds codec b t top
        · rw [hcut.funds _ hk] at hsame
          cases hsame
        · rw [hcut.saved v hv ha hk] at hsame
          cases hsame
      · rw [hv] at hu
        cases hu
        exact hsaved
    · exact Or.inl ⟨by rw [hcut.get, if_neg ha], hstore⟩

theorem Retained.readVertex (hc : codec.Faithful) (h : Retained codec t b b') (k : Hash) :
    b'.readVertex codec k false = b.readVertex codec k false := by
  unfold Book.readVertex Book.readVertexFromStorage
  rcases h.reads hc k with ⟨hget, hstore⟩ | ⟨v, buf, hv, hnone, hbuf, hdec⟩
  · rw [hget]
    cases hb : b.dag.getVertex k with
    | some v => rfl
    | none => simp only [hstore hb]
  · simp [hv, hnone, hbuf, hdec]

theorem Retained.readTransactionByHash (hc : codec.Faithful) (h : Retained codec t b b') (k : Hash) :
    b'.readTransactionByHash codec k false false = b.readTransactionByHash codec k false false := by
  unfold Book.readTransactionByHash Book.readVertexHashContainingTrxHashFromStorage
  rw [h.trxs]
  cases b.trxsToVertxDB.lookup k with
  | none => rfl
  | some w =>
    simp only [Book.readTransactionFromStorage, Bool.false_eq_true, if_false]
    rcases h.reads hc w with ⟨hget, hstore⟩ | ⟨v, buf, hv, hnone, hbuf, hdec⟩
    · rw [hget]
      cases hb : b.dag.getVertex w with
      | some v => rfl
      | none => simp only [hstore hb]
    · simp [hv, hnone, hbuf, hdec]

end Partial

theorem truncate_ok {env : Env} {b : Book} {t : TruncateSchedule} {leaf : Hash}
    (hleaf : (enumerate t.pick b.dag.graph.leaves).head? = some leaf)
    (h : (b.truncate env t).2 = none) : Cut env.codec t b (b.truncate env t).1 (b.cutTop t leaf) := by
  cases hres : b.truncate env t with
  | mk b' err =>
    rw [hres] at h
    cases h
    unfold Book.truncate at hres
    cases hleaves : enumerate t.pick b.dag.graph.leaves with
    | nil => rw [hleaves] at hleaf; cases hleaf
    | cons l rest =>
      rw [hleaves] at hleaf hres
      cases hleaf
      simp only at hres
      split at hres
      · cases hres
      · split at hres
        · cases hres
        · split at hres
          · cases hres
          · exact (cutBelow_ok hres).of_lastBackup

/-! ### Lives that consist of calls -/

theorem run_live_calls (env : Env) (es : List Event) : ∀ s : Node,
    run (Node.live env) s (es.map Life.call) = run (Node.step env) s es := by
  induction es with
  | nil => exact fun _ => rfl
  | cons e es ih => exact fun s => ih (s.step env e)

theorem along_live_calls {env : Env} {P : Node → Life → Prop} (es : List Event) : ∀ {s : Node},
    Along (Node.step env) (fun s e => P s (.call e)) s es → Along (Node.live env) P s (es.map Life.call) := by
  induction es with
  | nil => exact fun _ => trivial
  | cons e es ih => exact fun h => ⟨h.1, ih h.2⟩

/-- TRUNCATION LOSES NO VERTEX: after every life, wherever a truncation stops, every reader finds what it found
    before. If it succeeds and the earlier ones were sound, what has left the graph are the ancestors of the
    vertex it chose, and nothing is in the graph and in the store. -/
theorem truncate_keeps_vertices {env : Env} (hc : env.codec.Faithful) (n : UInt64) (ls : List Life)
    (hparty : NoHashAddress (run (Node.live env) (Node.fresh n) ls).book) (t : TruncateSchedule) :
    let b := (run (Node.live env) (Node.fresh n) ls).book
    let b' := (b.truncate env t).1
    (∀ k, b'.readVertex env.codec k false = b.readVertex env.codec k false) ∧
    (∀ k, b'.readTransactionByHash env.codec k false false =
      b.readTransactionByHash env.codec k false false) ∧
    ∀ (digest : Bytes → Hash) (M : Set Bytes), Digests env digest M →
      Along (Node.live env) (Seals env digest M) (Node.fresh n) ls →
      Along (Node.live env) SoundLife (Node.fresh n) ls → (b.truncate env t).2 = none →
      (∀ k v, b.dag.getVertex k = some v → (b'.dag.getVertex k = none ↔
        ∃ leaf, (enumerate t.pick b.dag.graph.leaves).head? = some leaf ∧
          b.dag.graph.Anc k (b.cutTop t leaf))) ∧
      ∀ k v, b'.dag.getVertex k = some v → b'.verticesDB.lookup k.bytes = none := by
  intro b b'
  have hret : Retained env.codec t b b' := truncate_retained hparty t
  refine ⟨hret.readVertex hc, hret.readTransactionByHash hc, ?_⟩
  intro digest M hd hM hsound hok
  have hshelved : Shelved env.codec digest M b := shelved_live hc hd n hM hsound
  have hfresh : ∀ {x : Book}, Shelved env.codec digest M x → ∀ k v, x.dag.getVertex k = some v →
      x.verticesDB.lookup k.bytes = none := by
    intro x hx k v hv
    obtain rfl := x.dag.keyed hv
    exact hx.fresh hv
  cases hhead : (enumerate t.pick b.dag.graph.leaves).head? with
  | none =>
    have hnil : enumerate t.pick b.dag.graph.leaves = [] := List.head?_eq_none_iff.mp hhead
    have hsame : b' = b := by simp only [b', Book.truncate, hnil]
    rw [hsame]
    exact ⟨fun k v hv => by simp [hv], hfresh hshelved⟩
  | some leaf =>
    have hcut : Cut env.codec t b b' (b.cutTop t leaf) := truncate_ok hhead hok
    refine ⟨fun k v hv => ?_, hfresh (hshelved.cut hc hcut hparty)⟩
    rw [hcut.get]
    by_cases ha : b.dag.graph.Anc k (b.cutTop t leaf) <;> simp [ha, hv]

namespace Transparent

/-- A life: the genesis vertex, then a chain. -/
def chainLife (receiver : Address) (n : ℕ) : List Life :=
  .genesis (genesisSpec 10) false :: (chain receiver n).map Life.call

section ChainLife

variable (receiver : Address) (n : ℕ)

theorem run_chainLife : run (Node.live (env hub)) (Node.fresh 0) (chainLife receiver n) =
    run (Node.step (env hub)) (start 10) (chain receiver n) := by
  rw [chainLife, run_cons, run_live_calls]
  rfl

theorem genesisOf_root {g : Vertex} (h : GenesisOf (env hub) (genesisSpec 10) g) : g = root 10 := by
  obtain ⟨t, ht, rfl⟩ := h
  cases ht
  rfl

theorem seals_chainLife : Along (Node.live (env hub)) (Seals (env hub) digest (linkMessages receiver n))
    (Node.fresh 0) (chainLife receiver n) := by
  refine ⟨fun g hg => genesisOf_root hg ▸ root_mem_linkMessages receiver n, along_live_calls _ ?_⟩
  exact (sealsIn_chain receiver n (cutChain receiver n)).append_left

theorem soundLife_chainLife :
    Along (Node.live (env hub)) SoundLife (Node.fresh 0) (chainLife receiver n) := by
  refine ⟨trivial, along_live_calls _ (along_of_always (fun e he s => ?_) _)⟩
  obtain ⟨j, -, hmem⟩ := mem_chain he
  simp only [addEvents, List.mem_cons, List.not_mem_nil, or_false] at hmem
  rcases hmem with rfl | rfl <;> trivial

end ChainLife

theorem Chain.readVertex_root {receiver : Address} {s : Node} (h : Chain receiver 1002 s) :
    s.book.readVertex codec (root 10).hash false = .ok (root 10) := by
  have hget : s.book.dag.getVertex (root 10).hash = some (root 10) := h.get_link (j := 0) (by omega)
  rw [Book.readVertex, hget]

theorem readVertex_overwritten {s : Node} (h : Chain victim 1002 s) :
    (s.book.truncate (env hub) (cutChain victim 1002)).1.readVertex codec (root 10).hash false =
      .ok zeroVertex := by
  obtain ⟨b', hb', hcut⟩ := h.cut (m := 2) (by omega)
  have hfunds := hcut.funds _ h.victim_mem_cutFunds
  simp only [hb', Book.readVertex, h.root_cut hcut, Book.readVertexFromStorage, hfunds]
  rfl

end Transparent

open Transparent in
/-- A payment to the bytes of the genesis hash, then an undisturbed truncation that succeeds: a reader of
    the genesis vertex gets the zero vertex. -/
theorem genesis_unreadable :
    let ls := chainLife victim 1002
    let M := linkMessages victim 1002
    let b := (run (Node.live (env hub)) (Node.fresh 0) ls).book
    let res := b.truncate (env hub) (cutChain victim 1002)
    Digests (env hub) digest M ∧ Along (Node.live (env hub)) (Seals (env hub) digest M) (Node.fresh 0) ls ∧
    Along (Node.live (env hub)) SoundLife (Node.fresh 0) ls ∧ (cutChain victim 1002).Undisturbed ∧
    res.2 = none ∧ b.readVertex codec (root 10).hash false = .ok (root 10) ∧
    res.1.readVertex codec (root 10).hash false = .ok zeroVertex ∧ root 10 ≠ zeroVertex := by
  intro ls M b res
  have hb : b = (run (Node.step (env hub)) (start 10) (chain victim 1002)).book := by
    simp only [b, ls, run_chainLife]
  refine ⟨digests_links victim (by omega), seals_chainLife victim 1002, soundLife_chainLife victim 1002,
    ⟨rfl, rfl, fun _ => rfl, fun _ => rfl⟩, ?_, ?_, ?_, ?_⟩
  · obtain ⟨b', hb', -⟩ := victim_chain.cut (m := 2) (by omega)
    simp only [res, hb, hb']
  · rw [hb]
    exact victim_chain.readVertex_root
  · simp only [res, hb]
    exact readVertex_overwritten victim_chain
  · exact fun h => digest_ne_zero _ (congrArg Vertex.hash h)

open Transparent in
/-- The law at a chain that is cut: the genesis vertex leaves the graph and is read from the store, and nothing is
    in both. -/
theorem genesis_stays_readable :
    let b := (run (Node.live (env hub)) (Node.fresh 0) (chainLife (wallet 8) 1002)).book
    let b' := (b.truncate (env hub) (cutChain (wallet 8) 1002)).1
    b'.dag.getVertex (root 10).hash = none ∧ b'.readVertex codec (root 10).hash false = .ok (root 10) ∧
      ∀ k v, b'.dag.getVertex k = some v → b'.verticesDB.lookup k.bytes = none := by
  have hchain : Chain (wallet 8) 1002
      (run (Node.live (env hub)) (Node.fresh 0) (chainLife (wallet 8) 1002)) :=
    run_chainLife (wallet 8) 1002 ▸ plain_chain
  obtain ⟨b', hb', hcut⟩ := hchain.cut (m := 2) (by omega)
  obtain ⟨hread, -, hapart⟩ := truncate_keeps_vertices codec_faithful 0 (chainLife (wallet 8) 1002)
    (hchain.noHashAddress (by decide)) (cutChain (wallet 8) 1002)
  refine ⟨?_, (hread _).trans hchain.readVertex_root, ?_⟩
  · simp only [hb']
    exact hchain.root_cut hcut
  · exact (hapart digest _ (digests_links (wallet 8) (by omega)) (seals_chainLife (wallet 8) 1002)
      (soundLife_chainLife (wallet 8) 1002) (by simp only [hb'])).2

end Computantis
