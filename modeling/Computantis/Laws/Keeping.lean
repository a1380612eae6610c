import Computantis.Laws.Reading

/-! @law keeping | name:The truncation goroutine survives | family:safety | about:Model/Node

    `runTruncate` ends the process when a truncation fails. With working stores a truncation fails in two
    ways: the leaf it starts from has fewer than `truncateDiff` ancestors, so that it looks for the vertex
    with the zero hash, or a vertex it saves is in the store already. The second does not happen while
    nobody has an address of 32 bytes (`Shelved`). The first is a matter of weights, which whoever seals a
    vertex chooses. -/

namespace Computantis

open Schemes

/-! ### When a truncation succeeds -/

/-- The stores and the backup file do not fail. -/
structure TruncateSchedule.Works (t : TruncateSchedule) : Prop where
  create : t.createFails = false
  backup : t.backupFails = false
  iter : t.iterFails = false
  saveVertex : ∀ k, t.saveVertexFails k = false
  saveFunds : ∀ a, t.saveFundsFails a = false

/-- No walk is cancelled. -/
structure TruncateSchedule.Uncancelled (t : TruncateSchedule) : Prop where
  first : t.first.cancelAt = none
  second : t.second.cancelAt = none
  third : t.third.cancelAt = none

/-- The leaf from which the truncation starts has enough ancestors. -/
def DeepEnough (b : Book) (t : TruncateSchedule) : Prop :=
  ∀ leaf, (enumerate t.pick b.dag.graph.leaves).head? = some leaf →
    truncateDiff.toNat ≤ (b.dag.graph.ancestors leaf).length

theorem above_length {b : Book} {top : Hash} (order : List Hash) :
    (b.dag.above top order).length = (b.dag.graph.ancestors top).length := by
  have hperm : ((b.dag.above top order).map Vertex.hash).Perm (b.dag.graph.ancestors top) := by
    rw [List.perm_ext_iff_of_nodup (Dag.above_nodup top order) (Digraph.ancestors_nodup _ _)]
    intro k
    rw [mem_map_above, Digraph.mem_ancestors]
  rw [← hperm.length_eq, List.length_map]

theorem cutTop_anc {b : Book} {t : TruncateSchedule} {leaf : Hash} (hleaf : leaf ∈ b.dag.graph.nodes)
    (hfirst : t.first.cancelAt = none)
    (hdeep : truncateDiff.toNat ≤ (b.dag.graph.ancestors leaf).length) :
    b.dag.graph.Anc (b.cutTop t leaf) leaf := by
  have hprobe : t.first = ⟨t.first.order, none⟩ := by rw [← hfirst]
  rw [Book.cutTop, hprobe, performOnAncestorWalker_calm hleaf]
  -- the vertex at which the countdown ends
  have hlen : truncateDiff.toNat - 1 < (b.dag.above leaf t.first.order).length := by
    rw [above_length]
    have hpos : 0 < truncateDiff.toNat := by decide
    omega
  obtain ⟨us, v, vs, hsplit, hus⟩ : ∃ us v vs, b.dag.above leaf t.first.order = us ++ v :: vs ∧
      us.length = truncateDiff.toNat - 1 :=
    ⟨_, _, _, (List.take_append_drop (truncateDiff.toNat - 1) _).symm.trans
      (by rw [List.drop_eq_getElem_cons hlen]), by rw [List.length_take]; omega⟩
  have hnext := performAll_next us v vs (newHashAtDepth truncateDiff)
    (by rw [hus]; rfl)
  rw [hsplit, hnext]
  exact (Dag.mem_above.mp (hsplit ▸ List.mem_append_right us (List.mem_cons_self ..))).2

theorem truncate_succeeds {env : Env} {b : Book} {t : TruncateSchedule} (hworks : t.Works)
    (hcalm : t.Uncancelled) (hdeep : DeepEnough b t)
    (hfresh : ∀ v, b.dag.getVertex v.hash = some v → b.verticesDB.lookup v.hash.bytes = none) :
    (b.truncate env t).2 = none := by
  unfold Book.truncate
  cases hleaves : enumerate t.pick b.dag.graph.leaves with
  | nil => rfl
  | cons leaf rest =>
    have hleaf : leaf ∈ b.dag.graph.nodes :=
      (Digraph.mem_leaves.mp (mem_enumerate.mp (hleaves ▸ List.mem_cons_self ..))).1
    have htop := cutTop_anc hleaf hcalm.first (hdeep leaf (by rw [hleaves]; rfl))
    obtain ⟨b', hb'⟩ := cutBelow_isOk env.codec { b with lastBackup := t.backupVersion + 1 }
      ⟨hcalm.second, hcalm.third, hworks.saveVertex, hworks.saveFunds⟩ htop.left fun v hv _ => hfresh v hv
    simp only [hworks.create, hworks.backup, hworks.iter, Bool.false_eq_true, if_false, hb']

/-! ### The goroutine -/

section Goroutine

variable {env : Env} {digest : Bytes → Hash} {M : Set Bytes} {s : Keeper} {t : TruncateSchedule}

/-- The calls are not truncations, and what they insert is sealed over a message in `M`. -/
def Keeper.Seals (env : Env) (M : Set Bytes) (s : Keeper) : Keeper.Event → Prop
  | .call e => e.Ordinary ∧ SealsIn env M s.node e
  | _ => True

/-- The stores and the backup file work. -/
def Keeper.Event.Works : Keeper.Event → Prop
  | .truncate t => t.Works
  | _ => True

/-- A truncation that begins is not cancelled, starts from a leaf with enough ancestors, and nobody who
    moves spice has an address of 32 bytes. -/
def Keeper.Safe (s : Keeper) : Keeper.Event → Prop
  | .truncate t => ∀ w, s.truncator = .holding w →
      t.Uncancelled ∧ DeepEnough s.node.book t ∧ NoHashAddress s.node.book
  | _ => True

/-- INVARIANT: the goroutine runs, and the vertices are where they belong. -/
structure Keeper.Runs (env : Env) (digest : Bytes → Hash) (M : Set Bytes) (s : Keeper) : Prop where
  shelved : Shelved env.codec digest M s.node.book
  verified : s.node.PendingVerified env
  running : s.truncator ≠ .returned

theorem Keeper.Runs.receive (h : s.Runs env digest M) : s.receive.Runs env digest M := by
  unfold Keeper.receive
  split
  · refine ⟨h.shelved.of_eq (fun _ => rfl) rfl rfl, h.verified, ?_⟩
    simp only
    split <;> simp
  · exact h

theorem Keeper.Runs.returns_nil (h : s.Runs env digest M) (hworks : t.Works) (hcalm : t.Uncancelled)
    (hdeep : DeepEnough s.node.book t) :
    (s.node.book.truncate env t).2 = none :=
  truncate_succeeds hworks hcalm hdeep fun _ hv => h.shelved.fresh hv

theorem Keeper.Runs.truncate (hc : env.codec.Faithful) (h : s.Runs env digest M) (hworks : t.Works)
    (hsafe : s.Safe (.truncate t)) :
    (s.truncate env t).Runs env digest M := by
  unfold Keeper.truncate
  split
  next w hw =>
    obtain ⟨hcalm, hdeep, hparty⟩ := hsafe w hw
    have hnil := h.returns_nil hworks hcalm hdeep
    have hkeep : Shelved env.codec digest M (s.node.book.truncate env t).1 := by
      rcases h.shelved.truncate_cut
        ⟨hcalm.second, hcalm.third, hworks.saveVertex, hworks.saveFunds⟩ with ⟨n, hn⟩ | ⟨top, hcut⟩
      · rw [hn]
        exact h.shelved.of_eq (fun _ => rfl) rfl rfl
      · exact h.shelved.cut hc hcut hparty
    split
    next hres =>
      rw [hres] at hnil
      cases hnil
    next hres =>
      rw [hres] at hkeep
      exact ⟨hkeep.of_eq (fun _ => rfl) rfl rfl, h.verified, by simp⟩
  · exact h

theorem Keeper.Runs.step (hc : env.codec.Faithful) (hd : Digests env digest M) {e : Keeper.Event}
    (hM : s.Seals env M e) (hworks : e.Works) (hsafe : s.Safe e) (h : s.Runs env digest M) :
    (s.step env e).Runs env digest M := by
  cases e with
  | call e =>
    have hsound : SoundCut s.node e := by
      cases e with
      | truncate t => exact hM.1.elim
      | _ => trivial
    exact ⟨h.shelved.step hc hd h.verified hM.2 hsound, h.verified.step e, h.running⟩
  | receive => exact h.receive
  | truncate t => exact h.truncate hc hworks hsafe

/-- THE GOROUTINE SURVIVES: in every run whose truncations are safe, `runTruncate` has not returned, and
    a safe truncation returns nil. -/
theorem truncation_never_fatal (hc : env.codec.Faithful) (hd : Digests env digest M) {n : UInt64}
    {spec : Book.GenesisSpec} {s : Node} {g : Vertex} (h : Node.genesis env n spec = some (s, g))
    (hg : g.initData ∈ M) {es : List Keeper.Event}
    (hM : Along (Keeper.step env) (Keeper.Seals env M) ⟨s, .receiving⟩ es)
    (hworks : ∀ e ∈ es, e.Works) (hsafe : Along (Keeper.step env) Keeper.Safe ⟨s, .receiving⟩ es) :
    let k := run (Keeper.step env) ⟨s, .receiving⟩ es
    k.truncator ≠ .returned ∧
    ∀ t : TruncateSchedule, t.Works → t.Uncancelled → DeepEnough k.node.book t →
      (k.node.book.truncate env t).2 = none := by
  intro k
  have hstart : Keeper.Runs env digest M ⟨s, .receiving⟩ :=
    ⟨shelved_genesis hd h hg, by simp [Node.PendingVerified, Node.PendingAdds, (founded h).pending], by simp⟩
  have hrun : k.Runs env digest M := by
    refine run_invariant_along
      (P := fun (s : Keeper) (e : Keeper.Event) => (s.Seals env M e ∧ e.Works) ∧ s.Safe e)
      (I := fun s : Keeper => s.Runs env digest M) ?_
      ((hM.and (along_of_forall hworks _)).and hsafe) hstart
    rintro s e ⟨⟨hm, hw⟩, hs⟩ hr
    exact hr.step hc hd hm hw hs
  exact ⟨hrun.running, fun t hw hcalm hdeep => hrun.returns_nil hw hcalm hdeep⟩

end Goroutine

/-- SPEC (signal): a weight asks for a truncation when it is more than `truncateDiff` above the mark. -/
theorem checkCanTruncate_iff {w mark : UInt64} :
    checkCanTruncate w mark = true ↔ mark.toNat + truncateDiff.toNat < w.toNat := by
  simp only [checkCanTruncate, Bool.and_eq_true, decide_eq_true_eq, gt_iff_lt, UInt64.lt_iff_toNat_lt]
  constructor
  · rintro ⟨⟨-, hdiff⟩, hsub⟩
    rw [UInt64.toNat_sub_of_le _ _ (UInt64.le_iff_toNat_le.mpr hdiff.le)] at hsub
    omega
  · intro h
    have hdiff : truncateDiff.toNat < w.toNat := by omega
    rw [UInt64.toNat_sub_of_le _ _ (UInt64.le_iff_toNat_le.mpr hdiff.le)]
    omega

/-! ### Concrete runs -/

theorem run_keeper_calls (env : Env) (p : Truncator) (es : List Event) : ∀ s : Node,
    run (Keeper.step env) ⟨s, p⟩ (es.map Keeper.Event.call) = ⟨run (Node.step env) s es, p⟩ := by
  induction es with
  | nil => exact fun _ => rfl
  | cons e es ih => exact fun s => ih (s.step env e)

theorem receive_only {s : Node} {w : UInt64} (hs : s.book.truncateSignal = [w]) :
    (⟨s, .receiving⟩ : Keeper).receive = ⟨{ s with book := { s.book with truncateSignal := [] } },
      if checkCanTruncate w s.book.nextWeightTruncate then .holding w else .receiving⟩ := by
  simp [Keeper.receive, hs]

namespace Transparent

/-- An undisturbed truncation in the order of the graph. -/
def calmCut : TruncateSchedule where
  pick := []
  first := ⟨[], none⟩
  second := ⟨[], none⟩
  third := ⟨[], none⟩
  createFails := false
  backupFails := false
  backupVersion := 0
  iterFails := false
  saveVertexFails _ := false
  saveFundsFails _ := false
  fundsOrder := []

theorem calmCut_works : calmCut.Works := ⟨rfl, rfl, rfl, fun _ => rfl, fun _ => rfl⟩

theorem calmCut_uncancelled : calmCut.Uncancelled := ⟨rfl, rfl, rfl⟩

/-- A payment below the genesis vertex, sealed with a weight of two hundred thousand. -/
def heavy : Vertex := sealed (linkTrx (wallet 8) 0) (root 10) (root 10) 200000 3

/-- The vertex is added, its weight received, and the truncation runs. -/
def heavyRun : List Keeper.Event :=
  (addEvents heavy).map .call ++ [.receive, .truncate calmCut]

/-- The messages under the two seals. -/
def heavyMessages : Set Bytes := {(root 10).initData, heavy.initData}

theorem digests_heavy : Digests (env hub) digest heavyMessages where
  signer _ := rfl
  verifier message signature hash address h := by
    simp only [env, verifier_verify, decide_eq_true_eq] at h
    exact h.1
  injective := by
    have hne : digest (root 10).initData ≠ digest heavy.initData := by decide +kernel
    rintro _ (rfl | rfl) _ (rfl | rfl) h
    · rfl
    · exact absurd h hne
    · exact absurd h.symm hne
    · rfl

theorem checkCanTruncate_low {w : UInt64} (hw : w.toNat ≤ 101000) :
    checkCanTruncate w truncateVrxTopMark = false := by
  rw [Bool.eq_false_iff]
  intro h
  have hfar := checkCanTruncate_iff.mp h
  have htop : truncateVrxTopMark.toNat = 100000 := rfl
  have hthousand : truncateDiff.toNat = 1000 := rfl
  omega

theorem Chain.of_signals {receiver : Address} {n : ℕ} {s : Node} (h : Chain receiver n s)
    (ws : List UInt64) : Chain receiver n { s with book := { s.book with truncateSignal := ws } } :=
  ⟨h.idle, h.loaded, h.address, h.untrusted, h.unstored, h.get, h.arc, h.trxs, h.weight, h.throughput⟩

theorem Chain.ancestors_length {receiver : Address} {n : ℕ} {s : Node} (h : Chain receiver n s)
    (hn : n < 2 ^ 32) : (s.book.dag.graph.ancestors (link receiver n).hash).length = n := by
  have hnd : ((List.range n).map fun j => (link receiver j).hash).Nodup := by
    refine List.Nodup.map_on (fun i hi j hj heq => ?_) List.nodup_range
    rw [List.mem_range] at hi hj
    exact link_hash_inj (by omega) (by omega) heq
  have hperm : (s.book.dag.graph.ancestors (link receiver n).hash).Perm
      ((List.range n).map fun j => (link receiver j).hash) := by
    rw [List.perm_ext_iff_of_nodup (Digraph.ancestors_nodup _ _) hnd]
    intro k
    rw [Digraph.mem_ancestors, h.anc_iff hn le_rfl, List.mem_map]
    simp only [List.mem_range, eq_comm]
  rw [hperm.length_eq, List.length_map, List.length_range]

theorem Chain.deepEnough {receiver : Address} {n : ℕ} {s : Node} (h : Chain receiver n s) (hn : n < 2 ^ 32)
    (hlong : 1000 ≤ n) (t : TruncateSchedule) : DeepEnough s.book t := by
  intro leaf hleaf
  have hmem : leaf ∈ s.book.dag.graph.leaves := mem_enumerate.mp (List.mem_of_mem_head? hleaf)
  rw [h.leaves_eq hn, List.mem_singleton] at hmem
  rw [hmem, h.ancestors_length hn]
  exact hlong

/-! A chain that grows link by link, with its truncation goroutine at work. -/

/-- The calls that add a link. -/
def linkCalls (receiver : Address) (j : ℕ) : List Keeper.Event :=
  (addEvents (link receiver j)).map .call

/-- Links that are added one by one, the weight of each received at once. -/
def drained (receiver : Address) : ℕ → List Keeper.Event
  | 0 => []
  | n + 1 => drained receiver n ++ (linkCalls receiver (n + 1) ++ [.receive])

theorem drained_zero (receiver : Address) : drained receiver 0 = [] := rfl

theorem drained_succ (receiver : Address) (n : ℕ) :
    drained receiver (n + 1) = drained receiver n ++ (linkCalls receiver (n + 1) ++ [.receive]) := rfl

/-- A node with the first `n` links, the last of which validates. -/
structure Extends (receiver : Address) (n : ℕ) (s : Node) : Prop where
  chain : Chain receiver n s
  valid : Validates receiver n s
  next : s.book.nextWeightTruncate = truncateVrxTopMark
  first : n = 0 → s = start 10

/-- The first payment validates once it is added. -/
def FirstPays (receiver : Address) : Prop :=
  Validates receiver 1 (run (Node.step (env hub)) (start 10) (addEvents (link receiver 1)))

instance (receiver : Address) : Decidable (FirstPays receiver) :=
  inferInstanceAs (Decidable (Validates _ _ _))

section Growing

variable {receiver : Address} {n : ℕ} {s : Node}

theorem Extends.add (hpay : FirstPays receiver) (h : Extends receiver n s) (hn : n + 1 < 2 ^ 32) :
    ∃ s', Extends receiver (n + 1) s' ∧
      s'.book.truncateSignal = s.book.truncateSignal ++ [UInt64.ofNat (n + 1)] ∧
      ∀ p, run (Keeper.step (env hub)) ⟨s, p⟩ (linkCalls receiver (n + 1)) = ⟨s', p⟩ := by
  have hchain := h.chain.add (by omega) h.valid
  obtain ⟨dag, -, hrun⟩ := (h.chain.ready (by omega) h.valid).add_appends
  refine ⟨run (Node.step (env hub)) s (addEvents (link receiver (n + 1))), ⟨hchain, ?_, ?_, by omega⟩, ?_,
    fun p => run_keeper_calls (env hub) p _ s⟩
  · cases n with
    | zero =>
      rw [h.first rfl]
      exact hpay
    | succ n => exact hchain.validates_data hn
  · rw [addEvents, hrun]
    exact h.next
  · rw [addEvents, hrun, ← link_weight]

theorem Extends.of_signals (h : Extends receiver (n + 1) s) (ws : List UInt64) :
    Extends receiver (n + 1) { s with book := { s.book with truncateSignal := ws } } :=
  ⟨h.chain.of_signals ws, h.valid, h.next, by omega⟩

theorem Extends.drain (hpay : FirstPays receiver) (h : Extends receiver n s) (hn : n + 1 < 2 ^ 32)
    (hempty : s.book.truncateSignal = []) : ∃ s', Extends receiver (n + 1) s' ∧
      s'.book.truncateSignal = [] ∧
      run (Keeper.step (env hub)) ⟨s, .receiving⟩ (linkCalls receiver (n + 1) ++ [.receive]) =
        ⟨s', if checkCanTruncate (UInt64.ofNat (n + 1)) truncateVrxTopMark then
          .holding (UInt64.ofNat (n + 1)) else .receiving⟩ := by
  obtain ⟨s', hs', hsignals, hrun⟩ := h.add hpay hn
  rw [hempty, List.nil_append] at hsignals
  refine ⟨_, hs'.of_signals [], rfl, ?_⟩
  rw [run_append, hrun, run_cons, run_nil, Keeper.step, receive_only hsignals, hs'.next]

/-- RUN: below the mark the goroutine takes every weight and comes back for the next. -/
theorem run_drained (hpay : FirstPays receiver) (n : ℕ) : n ≤ 101000 →
    ∃ s, Extends receiver n s ∧ s.book.truncateSignal = [] ∧
      run (Keeper.step (env hub)) ⟨start 10, .receiving⟩ (drained receiver n) = ⟨s, .receiving⟩ := by
  induction n with
  | zero =>
    have hroot : Validates [] 0 (start 10) := by decide +kernel
    exact fun _ => ⟨start 10, ⟨chain_zero receiver, hroot, rfl, fun _ => rfl⟩, rfl, rfl⟩
  | succ n ih =>
    intro hn
    obtain ⟨s, hs, hempty, hrun⟩ := ih (by omega)
    obtain ⟨s', hs', hempty', hrun'⟩ := hs.drain hpay (by omega) hempty
    have hlow : checkCanTruncate (UInt64.ofNat (n + 1)) truncateVrxTopMark = false := by
      refine checkCanTruncate_low ?_
      rw [UInt64.toNat_ofNat']
      exact (Nat.mod_le _ _).trans (by omega)
    refine ⟨s', hs', hempty', ?_⟩
    rw [drained, run_append, hrun, hrun', hlow]
    rfl

theorem mem_drained {e : Keeper.Event} (n : ℕ) : e ∈ drained receiver n →
    e = .receive ∨ ∃ j ≤ n, e ∈ linkCalls receiver j := by
  induction n with
  | zero => simp [drained]
  | succ n ih =>
    rw [drained, List.mem_append, List.mem_append, List.mem_singleton]
    rintro (he | he | rfl)
    · rcases ih he with rfl | ⟨j, hj, he⟩
      · exact Or.inl rfl
      · exact Or.inr ⟨j, by omega, he⟩
    · exact Or.inr ⟨n + 1, le_rfl, he⟩
    · exact Or.inl rfl

theorem run_marked (hpay : FirstPays receiver) : ∃ s, Extends receiver 101001 s ∧
    s.book.truncateSignal = [] ∧
    run (Keeper.step (env hub)) ⟨start 10, .receiving⟩ (drained receiver 101001) = ⟨s, .holding 101001⟩ := by
  obtain ⟨s, hs, hempty, hrun⟩ := run_drained hpay 101000 le_rfl
  obtain ⟨s', hs', hempty', hrun'⟩ := hs.drain hpay (by omega) hempty
  have hmark : checkCanTruncate (UInt64.ofNat (101000 + 1)) truncateVrxTopMark = true := by decide +kernel
  refine ⟨s', hs', hempty', ?_⟩
  rw [drained_succ receiver 101000, run_append, hrun, hrun', hmark]
  rfl

attribute [irreducible] drained

theorem seals_drained (n : ℕ) (s : Keeper) : Along (Keeper.step (env hub))
    (Keeper.Seals (env hub) (linkMessages receiver n)) s (drained receiver n) := by
  refine along_of_always (fun e he s => ?_) s
  rcases mem_drained n he with rfl | ⟨j, hj, he⟩
  · trivial
  · simp only [linkCalls, addEvents, List.map_cons, List.map_nil, List.mem_cons, List.not_mem_nil,
      or_false] at he
    rcases he with rfl | rfl
    · exact ⟨trivial, fun _ _ _ ho => ho.elim⟩
    · refine ⟨trivial, fun leaf l r ho => ?_⟩
      obtain ⟨-, rfl⟩ := ho
      exact ⟨j, hj, rfl⟩

theorem quiet_drained (n : ℕ) {e : Keeper.Event} (he : e ∈ drained receiver n) :
    e.Works ∧ ∀ s : Keeper, s.Safe e := by
  rcases mem_drained n he with rfl | ⟨j, hj, he⟩
  · exact ⟨trivial, fun _ => trivial⟩
  · obtain ⟨f, -, rfl⟩ := List.mem_map.mp he
    exact ⟨trivial, fun _ => trivial⟩

end Growing

end Transparent

open Transparent in
/-- One vertex of great weight: the truncation that it asks for finds one ancestor and fails, and the
    goroutine returns. -/
theorem heavy_vertex_fatal :
    Digests (env hub) digest heavyMessages ∧ (root 10).initData ∈ heavyMessages ∧
    Along (Keeper.step (env hub)) (Keeper.Seals (env hub) heavyMessages) ⟨start 10, .receiving⟩ heavyRun ∧
    (∀ e ∈ heavyRun, e.Works) ∧
    (run (Keeper.step (env hub)) ⟨start 10, .receiving⟩ (heavyRun.take 3)).truncator = .holding 200000 ∧
    (run (Keeper.step (env hub)) ⟨start 10, .receiving⟩ heavyRun).truncator = .returned := by
  refine ⟨digests_heavy, Or.inl rfl, ?_, ?_, by decide +kernel, by decide +kernel⟩
  · refine ⟨⟨trivial, fun _ _ _ ho => ho.elim⟩, ⟨trivial, fun leaf l r ho => ?_⟩, trivial, trivial, trivial⟩
    obtain ⟨-, rfl⟩ := ho
    exact Or.inr rfl
  · intro e he
    simp only [heavyRun, addEvents, List.map_cons, List.map_nil, List.cons_append, List.nil_append,
      List.mem_cons, List.not_mem_nil, or_false] at he
    rcases he with rfl | rfl | rfl | rfl
    · trivial
    · trivial
    · trivial
    · exact calmCut_works

open Transparent in
/-- The law at a chain of more than a hundred thousand links: its last weight asks for a truncation, and
    the goroutine survives it. -/
theorem long_chain_survives :
    (run (Keeper.step (env hub)) ⟨start 10, .receiving⟩ (drained (wallet 8) 101001)).truncator =
      .holding 101001 ∧
    (run (Keeper.step (env hub)) ⟨start 10, .receiving⟩
      (drained (wallet 8) 101001 ++ [.truncate calmCut])).truncator ≠ .returned := by
  have hpay : FirstPays (wallet 8) := by decide +kernel
  obtain ⟨s, hs, -, hrun⟩ := run_marked hpay
  have hseals : Along (Keeper.step (env hub)) (Keeper.Seals (env hub) (linkMessages (wallet 8) 101001))
      ⟨start 10, .receiving⟩ (drained (wallet 8) 101001 ++ [.truncate calmCut]) :=
    (seals_drained 101001 _).append ⟨trivial, trivial⟩
  refine ⟨by rw [hrun], ?_⟩
  refine (truncation_never_fatal codec_faithful (digests_links (wallet 8) (by omega)) (genesis_start 10)
    (root_mem_linkMessages (wallet 8) 101001) hseals ?_ ?_).1
  · intro e he
    rcases List.mem_append.mp he with he | he
    · exact (quiet_drained 101001 he).1
    · rw [List.mem_singleton.mp he]
      exact calmCut_works
  · refine (along_of_always (fun e he s => (quiet_drained 101001 he).2 s) _).append ⟨fun w _ => ?_, trivial⟩
    rw [hrun]
    exact ⟨calmCut_uncancelled, hs.chain.deepEnough (by omega) (by omega) _,
      hs.chain.noHashAddress (by decide)⟩

end Computantis
