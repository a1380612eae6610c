import Computantis.Laws.Cut
import Computantis.Laws.Index
import Computantis.Laws.Loading
import Computantis.Laws.Messages

/-! @law shelf | name:Vertices in the graph and in the store | family:invariant | about:Model/Node

    A vertex lives in the graph until a truncation moves it to the vertex store. As long as truncations
    run to their end, nothing is in both places, every stored record of 32 bytes is a vertex under its
    own hash, and every vertex is mapped under its transaction (`Shelved`). Without collisions a
    vertex that is received twice is therefore recognised even when its first copy is in the store: its
    transaction has a mapping.

    The vertex store keeps vertices and funds in one key space and takes every key of 32 bytes for a
    vertex, so the invariant needs that nobody who moves spice has an address of 32 bytes. -/

namespace Computantis

open Schemes

/-- Signer and verifier use one digest, which has no collision among the messages in `M`. -/
structure Digests (env : Env) (digest : Bytes → Hash) (M : Set Bytes) : Prop where
  signer : ∀ message, (env.signer.sign message).1 = digest message
  verifier : ∀ message signature hash address,
    env.verifier.verify message signature hash address = true → hash = digest message
  injective : Set.InjOn digest M

/-- The store keeps the vertex under its hash. -/
def InStore (codec : Codec) (b : Book) (v : Vertex) : Prop :=
  ∃ buf, b.verticesDB.lookup v.hash.bytes = some buf ∧ codec.decodeVertex buf = (v, true)

/-- The vertex is in the graph or in the vertex store. -/
def Held (codec : Codec) (b : Book) (v : Vertex) : Prop :=
  b.dag.getVertex v.hash = some v ∨ InStore codec b v

/-- The vertex is sealed with the digest of a message in `M`. -/
def SealedIn (digest : Bytes → Hash) (M : Set Bytes) (v : Vertex) : Prop :=
  v.initData ∈ M ∧ v.hash = digest v.initData

variable {env : Env} {digest : Bytes → Hash} {M : Set Bytes}

theorem SealedIn.trx_eq (hd : Digests env digest M) {u v : Vertex} (hu : SealedIn digest M u)
    (hv : SealedIn digest M v) (h : u.hash = v.hash) :
    u.transaction.hash = v.transaction.hash := by
  have hdata : u.initData = v.initData := hd.injective hu.1 hv.1 (hu.2 ▸ hv.2 ▸ h)
  exact (Vertex.initData_inj hdata).1

/-- Nobody who moves spice in the graph has an address as long as a hash. -/
def NoHashAddress (b : Book) : Prop :=
  ∀ v a, b.dag.getVertex v.hash = some v → v.Party a → a.length ≠ 32

/-! ### What is held after each change -/

section Changes

variable {codec : Codec} {b b' : Book}

theorem inStore_congr (hs : b'.verticesDB = b.verticesDB) (v : Vertex) :
    InStore codec b' v ↔ InStore codec b v := by
  rw [InStore, InStore, hs]

theorem getVertex_delete {u : Vertex} (hd : b'.dag = b.dag.deleteVertex u.hash) (v : Vertex) :
    b'.dag.getVertex v.hash = some v ↔ b.dag.getVertex v.hash = some v ∧ v.hash ≠ u.hash := by
  rw [hd, Dag.getVertex, Dag.deleteVertex_graph, Digraph.get_delete]
  rcases eq_or_ne v.hash u.hash with heq | hne
  · simp [heq]
  · rw [if_neg hne]; exact (and_iff_left hne).symm

theorem getVertex_grown {leaf : Vertex} {ps : List Hash}
    (hg : Digraph.Grown b.dag.graph b'.dag.graph leaf.hash leaf ps) (v : Vertex) :
    b'.dag.getVertex v.hash = some v ↔ v = leaf ∨ b.dag.getVertex v.hash = some v := by
  rcases eq_or_ne v.hash leaf.hash with heq | hne
  · have hnone : b.dag.getVertex leaf.hash = none := Digraph.get_eq_none.mpr hg.fresh
    rw [heq, Dag.getVertex, hg.get_self, hnone]
    simp [eq_comm]
  · rw [Dag.getVertex, hg.get_of_ne hne]
    exact ⟨Or.inr, fun hv => hv.resolve_left fun e => hne (e ▸ rfl)⟩

theorem held_grown {leaf : Vertex} {ps : List Hash}
    (hg : Digraph.Grown b.dag.graph b'.dag.graph leaf.hash leaf ps)
    (hs : b'.verticesDB = b.verticesDB) (v : Vertex) :
    Held codec b' v ↔ v = leaf ∨ Held codec b v := by
  rw [Held, Held, getVertex_grown hg, inStore_congr hs, or_assoc]

section Cutting

variable {t : TruncateSchedule} {top : Hash}

theorem hash_notMem_cutFunds (codec : Codec) (t : TruncateSchedule) (top : Hash)
    (hparty : NoHashAddress b) (k : Hash) : k.bytes ∉ cutFunds codec b t top := by
  intro hk
  rcases mem_fundsOver.mp hk with hk | ⟨v, hv, hp⟩
  · exact mem_forEachfund hk k.len
  · exact hparty v k.bytes (Dag.mem_above.mp hv).1 hp k.len

theorem getVertex_cut (hcut : Cut codec t b b' top) (v : Vertex) :
    b'.dag.getVertex v.hash = some v ↔
      b.dag.getVertex v.hash = some v ∧ ¬ b.dag.graph.Anc v.hash top := by
  rw [hcut.get]
  by_cases ha : b.dag.graph.Anc v.hash top <;> simp [ha]

theorem inStore_cut (hc : codec.Faithful) (hcut : Cut codec t b b' top) (hparty : NoHashAddress b)
    (v : Vertex) : InStore codec b' v ↔ InStore codec b v ∨
      (b.dag.getVertex v.hash = some v ∧ b.dag.graph.Anc v.hash top) := by
  have hnot := hash_notMem_cutFunds codec t top hparty
  by_cases ha : b.dag.graph.Anc v.hash top
  · -- the store had nothing under this hash, and has the vertex of the graph now
    obtain ⟨u, hu⟩ : ∃ u, b.dag.getVertex v.hash = some u := Digraph.mem_nodes.mp ha.left
    have hkey : u.hash = v.hash := b.dag.keyed hu
    have hsaved := hcut.saved u (hkey ▸ hu) (hkey ▸ ha) (hnot _)
    have hfresh := hcut.fresh u (hkey ▸ hu) (hkey ▸ ha)
    rw [hkey] at hsaved hfresh
    simp only [InStore, hsaved, hfresh, hu, ha, Option.some.injEq, exists_eq_left', hc.vertex,
      Prod.mk.injEq, and_true, reduceCtorEq, false_and, exists_false, false_or]
  · have hother := hcut.other v.hash.bytes (hnot _) fun u _ hua heq =>
      ha (Hash.bytes_inj.mp heq ▸ hua)
    simp only [InStore, hother, ha, and_false, or_false]

theorem held_cut (hc : codec.Faithful) (hcut : Cut codec t b b' top) (hparty : NoHashAddress b)
    (v : Vertex) : Held codec b' v ↔ Held codec b v := by
  rw [Held, Held, getVertex_cut hcut, inStore_cut hc hcut hparty]
  by_cases ha : b.dag.graph.Anc v.hash top <;> simp [ha, or_comm]

end Cutting

end Changes

/-! ### The invariant -/

/-- INVARIANT: every vertex is sealed and mapped, nothing is in the graph and in the store, and every
    key of 32 bytes holds the vertex with that hash. -/
structure Shelved (codec : Codec) (digest : Bytes → Hash) (M : Set Bytes) (b : Book) : Prop where
  sealed : ∀ v, Held codec b v → SealedIn digest M v
  mapped : ∀ v, Held codec b v → b.trxsToVertxDB.lookup v.transaction.hash = some v.hash
  apart : ∀ u v, b.dag.getVertex u.hash = some u → InStore codec b v → u.hash ≠ v.hash
  keys : ∀ (k : Hash) buf, b.verticesDB.lookup k.bytes = some buf →
    ∃ v, v.hash = k ∧ codec.decodeVertex buf = (v, true)

namespace Shelved

variable {env : Env} {digest : Bytes → Hash} {M : Set Bytes} {codec : Codec} {b b' : Book} {leaf u v : Vertex}
  {faults : Faults} {t : TruncateSchedule}

theorem unique (h : Shelved codec digest M b) (hu : Held codec b u) (hv : Held codec b v)
    (heq : u.transaction.hash = v.transaction.hash) : u = v := by
  have hhash : u.hash = v.hash := Option.some.inj ((h.mapped u hu).symm.trans (heq ▸ h.mapped v hv))
  rcases hu with hu | ⟨buf, hbuf, hdec⟩ <;> rcases hv with hv | ⟨buf', hbuf', hdec'⟩
  · exact Option.some.inj (hu.symm.trans (hhash ▸ hv))
  · exact absurd hhash (h.apart u v hu ⟨buf', hbuf', hdec'⟩)
  · exact absurd hhash.symm (h.apart v u hv ⟨buf, hbuf, hdec⟩)
  · rw [hhash, hbuf'] at hbuf
    cases hbuf
    exact (Prod.mk.inj (hdec.symm.trans hdec')).1

theorem ne_of_unused (h : Shelved codec digest M b) {k : Hash} (hk : b.trxsToVertxDB.lookup k = none)
    (hv : Held codec b v) : v.transaction.hash ≠ k := by
  rintro rfl
  rw [h.mapped v hv] at hk
  cases hk

theorem hash_ne_of_unused (hd : Digests env digest M) (h : Shelved codec digest M b) (hleaf : SealedIn digest M leaf)
    (hk : b.trxsToVertxDB.lookup leaf.transaction.hash = none) (hv : Held codec b v) : v.hash ≠ leaf.hash :=
  fun heq => h.ne_of_unused hk hv ((h.sealed v hv).trx_eq hd hleaf heq)

theorem fresh (h : Shelved codec digest M b) (hv : b.dag.getVertex v.hash = some v) :
    b.verticesDB.lookup v.hash.bytes = none := by
  rw [Option.eq_none_iff_forall_ne_some]
  intro buf hbuf
  obtain ⟨u, hu, hdec⟩ := h.keys v.hash buf hbuf
  exact h.apart v u hv ⟨buf, hu ▸ hbuf, hdec⟩ hu.symm

theorem of_eq (h : Shelved codec digest M b) (hd : ∀ k, b'.dag.getVertex k = b.dag.getVertex k)
    (hs : b'.verticesDB = b.verticesDB) (ht : b'.trxsToVertxDB = b.trxsToVertxDB) :
    Shelved codec digest M b' := by
  obtain ⟨h1, h2, h3, h4⟩ := h
  refine ⟨?_, ?_, ?_, ?_⟩
  all_goals simp only [Held, InStore, hd, hs, ht] at *
  · exact h1
  · exact h2
  · exact h3
  · exact h4

theorem held_reject (h : Shelved codec digest M b) (hu : b.dag.getVertex u.hash = some u)
    (hd : b'.dag = b.dag.deleteVertex u.hash) (hs : b'.verticesDB = b.verticesDB) (v : Vertex) :
    Held codec b' v ↔ Held codec b v ∧ v ≠ u := by
  rw [Held, Held, getVertex_delete hd, inStore_congr hs]
  constructor
  · rintro (⟨hv, hne⟩ | hv)
    · exact ⟨Or.inl hv, fun e => hne (e ▸ rfl)⟩
    · exact ⟨Or.inr hv, fun e => h.apart u v hu hv (e ▸ rfl)⟩
  · rintro ⟨hv | hv, hne⟩
    · exact Or.inl ⟨hv, fun e => hne (Option.some.inj (hv.symm.trans (e ▸ hu)))⟩
    · exact Or.inr hv

theorem reject (h : Shelved codec digest M b) (hu : b.dag.getVertex u.hash = some u)
    (hd : b'.dag = b.dag.deleteVertex u.hash) (hs : b'.verticesDB = b.verticesDB)
    (ht : b'.trxsToVertxDB = unmapped faults b.trxsToVertxDB u.transaction.hash) :
    Shelved codec digest M b' := by
  have hheld := h.held_reject hu hd hs
  refine ⟨fun v hv => h.sealed v ((hheld v).mp hv).1, fun v hv => ?_, fun v w hv hw =>
    h.apart v w ((getVertex_delete hd v).mp hv).1 ((inStore_congr hs w).mp hw), by rw [hs]; exact h.keys⟩
  obtain ⟨hv, hne⟩ := (hheld v).mp hv
  rw [ht, lookup_unmapped_ne fun heq => hne (h.unique hv (Or.inl hu) heq)]
  exact h.mapped v hv

theorem grow (hd : Digests env digest M) (h : Shelved codec digest M b) {ps : List Hash}
    (hleaf : SealedIn digest M leaf) (hunused : b.trxsToVertxDB.lookup leaf.transaction.hash = none)
    (hg : Digraph.Grown b.dag.graph b'.dag.graph leaf.hash leaf ps) (hs : b'.verticesDB = b.verticesDB)
    (ht : b'.trxsToVertxDB = b.trxsToVertxDB.insert leaf.transaction.hash leaf.hash) :
    Shelved codec digest M b' := by
  have hheld : ∀ v, Held codec b' v ↔ v = leaf ∨ Held codec b v := held_grown hg hs
  refine ⟨fun v hv => ?_, fun v hv => ?_, fun v w hv hw => ?_, by rw [hs]; exact h.keys⟩
  · rcases (hheld v).mp hv with rfl | hv
    · exact hleaf
    · exact h.sealed v hv
  · rw [ht]
    rcases (hheld v).mp hv with rfl | hv
    · exact AList.lookup_insert _
    · rw [AList.lookup_insert_ne (h.ne_of_unused hunused hv)]
      exact h.mapped v hv
  · rw [inStore_congr hs] at hw
    rcases (getVertex_grown hg v).mp hv with rfl | hv
    · exact (h.hash_ne_of_unused hd hleaf hunused (Or.inr hw)).symm
    · exact h.apart v w hv hw

theorem map (h : Shelved codec digest M b) {k : Hash} (hunused : b.trxsToVertxDB.lookup k = none)
    (w : Hash) : Shelved codec digest M { b with trxsToVertxDB := b.trxsToVertxDB.insert k w } := by
  refine ⟨h.sealed, fun v hv => ?_, h.apart, h.keys⟩
  rw [AList.lookup_insert_ne (h.ne_of_unused hunused hv)]
  exact h.mapped v hv

theorem add (hd : Digests env digest M) (h : Shelved codec digest M b) (hv : SealedIn digest M v) {fails : Bool}
    {b1 : Book} {dag : Dag} (hsave : b.saveTrxInVertex v.transaction.hash v.hash fails = .ok b1)
    (hadd : b1.dag.addVertexByID v = some dag) : Shelved codec digest M { b1 with dag } := by
  obtain ⟨hunused, rfl⟩ := saveTrx_ok hsave
  exact h.grow hd hv hunused (Digraph.Grown.of_addNode (Dag.addVertexByID_eq_some hadd)) rfl rfl

/-- A vertex whose hash is in the graph has a mapped transaction, so no insertion is refused for it. -/
theorem not_refused (hd : Digests env digest M) (h : Shelved codec digest M b) (hleaf : SealedIn digest M leaf)
    (hknown : leaf.hash ∈ b.dag.graph.nodes) :
    b.trxsToVertxDB.lookup leaf.transaction.hash ≠ none := by
  intro hunused
  obtain ⟨v, hv⟩ : ∃ v, b.dag.getVertex leaf.hash = some v := Digraph.mem_nodes.mp hknown
  have hkey : v.hash = leaf.hash := b.dag.keyed hv
  exact h.hash_ne_of_unused hd hleaf hunused (Or.inl (hkey ▸ hv)) hkey

theorem move (hd : Digests env digest M) {origin : Vertex → Vertex → Vertex → Prop}
    (ho : ∀ leaf l r, origin leaf l r → SealedIn digest M leaf) (hm : Move env faults origin b b')
    (h : Shelved codec digest M b) : Shelved codec digest M b' := by
  cases hm with
  | idle hframe hdag ht => exact h.of_eq (fun k => by rw [hdag]) hframe.verticesDB ht
  | reject hframe hknown _ _ hdag ht => exact h.reject hknown hdag hframe.verticesDB ht
  | refuse _ hs hknown hunused => exact absurd hunused (h.not_refused hd (ho _ _ _ hs) hknown)
  | grow hframe hs _ _ _ _ hunused hdag ht =>
    exact h.grow hd (ho _ _ _ hs) hunused hdag hframe.verticesDB ht

theorem cut (hc : codec.Faithful) (h : Shelved codec digest M b) {top : Hash} (hcut : Cut codec t b b' top)
    (hparty : NoHashAddress b) : Shelved codec digest M b' := by
  have hnot := hash_notMem_cutFunds codec t top hparty
  have hheld := held_cut hc hcut hparty
  refine ⟨fun v hv => h.sealed v ((hheld v).mp hv), fun v hv => ?_, fun u v hu hv => ?_, fun k buf hbuf => ?_⟩
  · have ht : b'.trxsToVertxDB = b.trxsToVertxDB := by rw [hcut.frame]
    rw [ht]
    exact h.mapped v ((hheld v).mp hv)
  · obtain ⟨hu, hua⟩ := (getVertex_cut hcut u).mp hu
    rcases (inStore_cut hc hcut hparty v).mp hv with hv | ⟨-, hva⟩
    · exact h.apart u v hu hv
    · exact fun heq => hua (heq ▸ hva)
  · by_cases ha : b.dag.graph.Anc k top
    · obtain ⟨u, hu⟩ : ∃ u, b.dag.getVertex k = some u := Digraph.mem_nodes.mp ha.left
      obtain rfl : u.hash = k := b.dag.keyed hu
      rw [hcut.saved u hu ha (hnot _)] at hbuf
      cases hbuf
      exact ⟨u, rfl, hc.vertex u⟩
    · rw [hcut.other k.bytes (hnot _) fun u _ hua heq => ha (Hash.bytes_inj.mp heq ▸ hua)] at hbuf
      exact h.keys k buf hbuf

theorem truncate_cut (h : Shelved env.codec digest M b) (ht : t.Undisturbed) :
    (∃ n, (b.truncate env t).1 = { b with lastBackup := n }) ∨
      ∃ top, Cut env.codec t b (b.truncate env t).1 top := by
  rcases truncate_cases env b t with hn | ⟨leaf, -, heq⟩
  · exact Or.inl hn
  by_cases htop : b.cutTop t leaf ∈ b.dag.graph.nodes
  · -- nothing is stored under the hash of a vertex of the graph, so the cut goes through
    obtain ⟨b', hb'⟩ := cutBelow_isOk env.codec { b with lastBackup := t.backupVersion + 1 } ht htop
      fun v hv _ => h.fresh hv
    refine Or.inr ⟨b.cutTop t leaf, ?_⟩
    rw [heq, hb']
    exact (cutBelow_ok hb').of_lastBackup
  · refine Or.inl ⟨t.backupVersion + 1, ?_⟩
    rw [heq, cutBelow_unknown env.codec { b with lastBackup := t.backupVersion + 1 } t htop]

end Shelved

/-! ### The steps -/

/-- Every vertex that the event inserts is sealed over a message in `M`. -/
def SealsIn (env : Env) (M : Set Bytes) (s : Node) (e : Event) : Prop :=
  ∀ leaf l r, s.origin env e leaf l r → leaf.initData ∈ M

/-- A truncation is undisturbed, and nobody who moves spice has an address of 32 bytes. -/
def SoundCut (s : Node) : Event → Prop
  | .truncate t => t.Undisturbed ∧ NoHashAddress s.book
  | _ => True

/-- The genesis vertex that the parameters lead to. -/
def GenesisOf (env : Env) (spec : Book.GenesisSpec) (g : Vertex) : Prop :=
  ∃ t, Transaction.new spec.subject spec.spice spec.data spec.receiverPublicAddress env.signer
    spec.trxAt = some t ∧ g = Vertex.new t Hash.zero Hash.zero 0 env.signer spec.vrxAt

/-- An invariant of the graph, its store and its index that stays when a vertex with `Q` is saved and added,
    the way `CreateGenesis` and `LoadDag` do it. -/
structure Inserting (Q : Vertex → Prop) (I : Book → Prop) : Prop where
  kept : ∀ {b b' : Book}, (∀ k, b'.dag.getVertex k = b.dag.getVertex k) → b'.verticesDB = b.verticesDB →
    b'.trxsToVertxDB = b.trxsToVertxDB → I b → I b'
  saved : ∀ {b b1 : Book} {v : Vertex} {fails : Bool},
    b.saveTrxInVertex v.transaction.hash v.hash fails = .ok b1 → I b → I b1
  added : ∀ {b b1 : Book} {v : Vertex} {fails : Bool} {dag : Dag}, Q v →
    b.saveTrxInVertex v.transaction.hash v.hash fails = .ok b1 → b1.dag.addVertexByID v = some dag → I b →
      I { b1 with dag }

namespace Inserting

variable {Q : Vertex → Prop} {I : Book → Prop} {env : Env}

theorem createGenesis (h : Inserting Q I) {spec : Book.GenesisSpec} (hQ : ∀ g, GenesisOf env spec g → Q g)
    (fails : Bool) {b : Book} (hb : I b) : I (b.createGenesis env spec fails).1 := by
  unfold Book.createGenesis
  split
  · exact hb
  · split
    · exact hb
    next trx htrx =>
      simp only
      split
      · exact hb
      next b1 hsave =>
        split
        · exact h.saved (v := Vertex.new trx Hash.zero Hash.zero 0 env.signer spec.vrxAt) hsave hb
        next dag hadd =>
          have hadded := h.added (hQ _ ⟨trx, htrx, rfl⟩) hsave hadd hb
          refine h.kept ?_ ?_ ?_ hadded
          · exact fun _ => rfl
          · rfl
          · rfl

/-- RUN (first loop of loading): with any outcome. -/
theorem loadVertices (h : Inserting Q I) (saveFails : Hash → Bool) (st : List (Option Vertex)) :
    ∀ {b : Book}, (∀ v ∈ delivered st, Q v) → I b → I (b.loadVertices saveFails st).1 := by
  induction st with
  | nil => exact fun _ hb => hb
  | cons o rest ih =>
    intro b hQ hb
    cases o with
    | none => exact hb
    | some v =>
      rw [Book.loadVertices]
      cases hsave : b.saveTrxInVertex v.transaction.hash v.hash (saveFails v.transaction.hash) with
      | error e => exact hb
      | ok b1 =>
        simp only
        cases hadd : b1.dag.addVertexByID v with
        | none => exact h.saved hsave hb
        | some dag =>
          have hv : Q v := hQ v (List.mem_cons_self ..)
          exact ih (fun u hu => hQ u (List.mem_cons_of_mem _ hu)) (h.added hv hsave hadd hb)

theorem loadDag (h : Inserting Q I) (sched : LoadSchedule) {st : List (Option Vertex)}
    (hQ : ∀ v ∈ delivered st, Q v) {b : Book} (hb : I b) : I (b.loadDag sched st).1 := by
  unfold Book.loadDag
  split
  · exact hb
  · obtain ⟨hget, hs, ht⟩ := loadLocked_frame b sched st
    exact h.kept hget hs ht (h.loadVertices sched.saveFails st hQ hb)

end Inserting

theorem Digests.origin (hd : Digests env digest M) {s : Node} (hs : s.PendingVerified env) {e : Event}
    (hM : SealsIn env M s e) {leaf l r : Vertex} (ho : s.origin env e leaf l r) : SealedIn digest M leaf := by
  refine ⟨hM leaf l r ho, ?_⟩
  cases e with
  | finishCreate trx first second now faults =>
    obtain ⟨-, rfl, -⟩ := ho
    exact hd.signer _
  | finishAdd m probe faults =>
    obtain ⟨hp, rfl⟩ := ho
    have hv : m.vrx.verify env.verifier = true := hs m hp
    rw [Vertex.verify, Bool.and_eq_true] at hv
    exact hd.verifier _ _ _ _ hv.2
  | _ => exact ho.elim

namespace Shelved

variable {env : Env} {digest : Bytes → Hash} {M : Set Bytes}

theorem step (hc : env.codec.Faithful) (hd : Digests env digest M) {s : Node}
    (hs : s.PendingVerified env) {e : Event} (hM : SealsIn env M s e) (hsound : SoundCut s e)
    (h : Shelved env.codec digest M s.book) : Shelved env.codec digest M (s.step env e).book := by
  by_cases he : e.Ordinary
  · exact Moves.invariant (fun hm hb => hb.move hd (fun _ _ _ ho => hd.origin hs hM ho) hm)
      (s.step_moves env he) h
  · cases e with
    | truncate t =>
      rcases h.truncate_cut hsound.1 with ⟨n, hn⟩ | ⟨top, hcut⟩
      · exact h.of_eq (fun k => by rw [Node.step, hn]) (by rw [Node.step, hn]) (by rw [Node.step, hn])
      · exact h.cut hc hcut hsound.2
    | _ => exact absurd trivial he

variable {codec : Codec} {b : Book}

theorem inserting (hd : Digests env digest M) : Inserting (SealedIn digest M) (Shelved codec digest M) where
  kept hget hs ht h := h.of_eq hget hs ht
  saved hsave h := by
    obtain ⟨hunused, rfl⟩ := saveTrx_ok hsave
    exact h.map hunused _
  added hv hsave hadd h := h.add hd hv hsave hadd

theorem createGenesis (hd : Digests env digest M) {spec : Book.GenesisSpec}
    (hM : ∀ g, GenesisOf env spec g → g.initData ∈ M) (fails : Bool) (h : Shelved codec digest M b) :
    Shelved codec digest M (b.createGenesis env spec fails).1 := by
  refine (inserting hd).createGenesis (fun g hg => ?_) fails h
  have hmessage := hM g hg
  obtain ⟨trx, -, rfl⟩ := hg
  exact ⟨hmessage, hd.signer _⟩

theorem restarted (h : Shelved codec digest M b) (n : UInt64) : Shelved codec digest M (b.restarted n) := by
  have hget : ∀ k, (b.restarted n).dag.getVertex k = none := newAccountingBook_getVertex n
  have hheld : ∀ v, Held codec (b.restarted n) v → Held codec b v := by
    rintro v (hv | hv)
    · rw [hget] at hv
      cases hv
    · exact Or.inr hv
  refine ⟨fun v hv => h.sealed v (hheld v hv), fun v hv => h.mapped v (hheld v hv), fun u v hu => ?_, h.keys⟩
  rw [hget] at hu
  cases hu

theorem newAccountingBook (n : UInt64) : Shelved codec digest M (newAccountingBook n) := by
  have hnone : ∀ v, ¬ Held codec (Computantis.newAccountingBook n) v := by
    rintro v (hv | ⟨buf, hbuf, -⟩)
    · rw [newAccountingBook_getVertex] at hv
      cases hv
    · cases hbuf
  refine ⟨fun v hv => absurd hv (hnone v), fun v hv => absurd hv (hnone v),
    fun u v hu => absurd (Or.inl hu) (hnone u), fun k buf hbuf => ?_⟩
  cases hbuf

end Shelved

/-! ### The runs -/

/-- Every vertex that enters is sealed over a message in `M`. Loading checks no seal, so for a stream the
    seals themselves are part of the condition. -/
def Seals (env : Env) (digest : Bytes → Hash) (M : Set Bytes) (s : Node) : Life → Prop
  | .genesis spec _ => ∀ g, GenesisOf env spec g → g.initData ∈ M
  | .load _ st => ∀ v ∈ delivered st, SealedIn digest M v
  | .call e => SealsIn env M s e
  | _ => True

/-- The truncations of a life are sound. -/
def SoundLife (s : Node) : Life → Prop
  | .call e => SoundCut s e
  | _ => True

/-- RUN: the invariant holds throughout every life whose truncations are sound. -/
theorem shelved_live (hc : env.codec.Faithful) (hd : Digests env digest M) (n : UInt64) {ls : List Life}
    (hM : Along (Node.live env) (Seals env digest M) (Node.fresh n) ls)
    (hsound : Along (Node.live env) SoundLife (Node.fresh n) ls) :
    Shelved env.codec digest M (run (Node.live env) (Node.fresh n) ls).book := by
  refine (run_invariant_along (P := fun (s : Node) (l : Life) => Seals env digest M s l ∧ SoundLife s l)
    (I := fun (s : Node) => Shelved env.codec digest M s.book ∧ s.PendingVerified env)
    (fun s l ⟨hm, hcut⟩ ⟨hs, hp⟩ => ?_) (hM.and hsound)
    ⟨.newAccountingBook n, by simp [Node.PendingVerified, Node.PendingAdds, Node.fresh]⟩).1
  cases l with
  | genesis spec fails => exact ⟨hs.createGenesis hd hm fails, hp⟩
  | load sched st => exact ⟨(Shelved.inserting hd).loadDag sched hm hs, hp⟩
  | restart n => exact ⟨hs.restarted n, by simp [Node.PendingVerified, Node.PendingAdds, Node.live]⟩
  | trust a => exact ⟨hs.of_eq (fun _ => rfl) rfl rfl, hp⟩
  | distrust a => exact ⟨hs.of_eq (fun _ => rfl) rfl rfl, hp⟩
  | call e => exact ⟨hs.step hc hd hp hm hcut, hp.step e⟩

theorem shelved_genesis (hd : Digests env digest M) {n : UInt64} {spec : Book.GenesisSpec} {s : Node} {g : Vertex}
    (h : Node.genesis env n spec = some (s, g)) (hg : g.initData ∈ M) :
    Shelved env.codec digest M s.book := by
  have hbook : s.book = ((newAccountingBook n).createGenesis env spec false).1 := by
    unfold Node.genesis at h
    split at h
    · cases h
    next hres => cases h; rw [hres]
  rw [hbook]
  refine (Shelved.newAccountingBook n).createGenesis hd (fun v hv => ?_) false
  obtain ⟨t, ht, rfl⟩ := (founded h).made
  obtain ⟨u, hu, rfl⟩ := hv
  rw [ht] at hu
  cases hu
  exact hg

end Computantis
