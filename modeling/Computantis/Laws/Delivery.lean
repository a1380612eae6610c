import Computantis.Schemes.RetryQueue
import Computantis.Laws.Growth
import Computantis.Laws.Retention
import Computantis.Laws.Retry

/-! @law delivery | name:Order of delivery | family:convergence | about:Model/Ledger

    Two nodes with the same graph receive the same vertices, each in its own order; what arrives before
    its parents waits in the replier. The replier is a retry queue in arrival order, because the
    comparator of `getNext` compares every time with itself. So a chain that arrives child first is
    resolved one link a round, and what has been parked too often is dropped (`chain_torn`).

    A book with a batch of backed vertices simulates the retry queue (`Standing`), and ends with the whole
    batch below its declared parents if the ticks before the last delivery and the longest chain in the
    batch stay within the retries. -/

namespace Computantis

open Schemes

/-- One call of `AddLeaf`, or one tick of the replier, with the orders of the walks in it. -/
inductive Delivery where
  | leaf (v : Vertex) (orders : Hash → List Hash)
  | tick (orders : Hash → List Hash)

namespace Book

/-- A tick whose member reaches `addLeafMemorized` before anything else happens. -/
def replay (env : Env) (b : Book) (orders : Hash → List Hash) : Book :=
  match b.repeater.getNext with
  | (none, _) => b
  | (some m, repeater) =>
    ({ b with repeater }.addLeafMemorized env m (fun k => .calm (orders k)) .none).1

def deliver (env : Env) (b : Book) : Delivery → Book
  | .leaf v orders => (b.addLeaf env v (fun k => .calm (orders k)) .none).1
  | .tick orders => b.replay env orders

end Book

/-- The delivery as the replier sees it. -/
def Delivery.arrival : Delivery → Arrival Vertex
  | .leaf v _ => .item v
  | .tick _ => .tick

/-! ### Deliveries are runs of a node -/

section Refinement

variable (env : Env) {b : Book}

theorem addLeafMemorized_pub (m : Memory) (probe : Hash → Probe) :
    (b.addLeafMemorized env m probe .none).1.repeater.pub = b.repeater.pub := by
  rw [Book.addLeafMemorized]
  cases b.addLeafChecks env m.vrx .none with
  | error e => rfl
  | ok _ =>
    rcases addLeafLocked_repeater b m probe with h | h
    · exact congrArg Buffer.pub h
    · obtain ⟨-, -, hparked⟩ := Buffer.insert_ok h
      have hpub := congrArg Buffer.pub hparked
      exact hpub

theorem finishAdd_run (m : Memory) (probe : Hash → Probe) {pending : List Call}
    (h : (b.addLeafChecks env m.vrx .none = .ok () ∧ pending = [.add m]) ∨
      (∃ e, b.addLeafChecks env m.vrx .none = .error e) ∧ pending = []) :
    Node.step env ⟨b, pending⟩ (.finishAdd m probe .none) = ⟨(b.addLeafMemorized env m probe .none).1, []⟩ := by
  rcases h with ⟨hok, rfl⟩ | ⟨⟨e, herr⟩, rfl⟩
  · simp [Node.step, Book.addLeafMemorized, hok]
  · simp [Node.step, Book.addLeafMemorized, herr]

/-- REFINEMENT (step): a delivery is `AddLeaf` up to the lock and under it, or a tick and what follows it. -/
theorem deliver_events (hpub : b.repeater.pub = []) (d : Delivery) :
    (∃ es, run (Node.step env) ⟨b, []⟩ es = ⟨b.deliver env d, []⟩) ∧ (b.deliver env d).repeater.pub = [] := by
  cases d with
  | leaf v orders =>
    rw [Book.deliver, Book.addLeaf]
    cases hguard : b.addLeafGuard v with
    | error e => exact ⟨⟨[], rfl⟩, hpub⟩
    | ok _ =>
      refine ⟨⟨[.beginAdd v .none, .finishAdd (newMemory v) (fun k => .calm (orders k)) .none], ?_⟩,
        (addLeafMemorized_pub env _ _).trans hpub⟩
      rw [run_cons, run_cons, run_nil, Node.step, Node.beginAdd, hguard]
      cases hchecks : b.addLeafChecks env v .none with
      | error e => exact finishAdd_run env _ _ (Or.inr ⟨⟨e, hchecks⟩, rfl⟩)
      | ok _ => exact finishAdd_run env _ _ (Or.inl ⟨hchecks, rfl⟩)
  | tick orders =>
    rw [Book.deliver, Book.replay, Buffer.getNext_eq]
    cases hmembers : b.repeater.members with
    | nil => exact ⟨⟨[], rfl⟩, hpub⟩
    | cons m rest =>
      refine ⟨⟨[.tick, .beginReplay .none, .finishAdd m (fun k => .calm (orders k)) .none], ?_⟩,
        (addLeafMemorized_pub env _ _).trans hpub⟩
      have htick : Node.step env ⟨b, []⟩ .tick = ⟨{ b with repeater := ⟨rest, [m]⟩ }, []⟩ := by
        simp [Node.step, Buffer.tick, Buffer.getNext_eq, hmembers, hpub]
      rw [run_cons, run_cons, run_cons, run_nil, htick, hpub]
      cases hchecks : Book.addLeafChecks env { b with repeater := ⟨rest, []⟩ } m.vrx .none with
      | error e =>
        have hbegin : Node.step env ⟨{ b with repeater := ⟨rest, [m]⟩ }, []⟩ (.beginReplay .none) =
            ⟨{ b with repeater := ⟨rest, []⟩ }, []⟩ := by
          simp [Node.step, Node.beginReplay, hchecks]
        rw [hbegin]
        exact finishAdd_run env m _ (Or.inr ⟨⟨e, hchecks⟩, rfl⟩)
      | ok _ =>
        have hbegin : Node.step env ⟨{ b with repeater := ⟨rest, [m]⟩ }, []⟩ (.beginReplay .none) =
            ⟨{ b with repeater := ⟨rest, []⟩ }, [.add m]⟩ := by
          simp [Node.step, Node.beginReplay, hchecks]
        rw [hbegin]
        exact finishAdd_run env m _ (Or.inl ⟨hchecks, rfl⟩)

theorem deliver_run (ds : List Delivery) : ∀ {b : Book}, b.repeater.pub = [] →
    ∃ es, run (Node.step env) ⟨b, []⟩ es = ⟨run (Book.deliver env) b ds, []⟩ := by
  induction ds with
  | nil => exact fun _ => ⟨[], rfl⟩
  | cons d ds ih =>
    intro b hpub
    obtain ⟨⟨es, hes⟩, hpub'⟩ := deliver_events env hpub d
    obtain ⟨fs, hfs⟩ := ih hpub'
    exact ⟨es ++ fs, by rw [run_append, hes, hfs, run_cons]⟩

end Refinement

/-! ### The graph with a batch added -/

/-- `d'` is `d` with the vertices added, each below the parents that it declares. -/
structure Adds (d : Dag) (vs : List Vertex) (d' : Dag) : Prop where
  get : ∀ k v, d'.getVertex k = some v ↔ d.getVertex k = some v ∨ (v ∈ vs ∧ v.hash = k)
  arc : ∀ x y, d'.graph.Arc x y ↔ d.graph.Arc x y ∨ ∃ v ∈ vs, v.hash = y ∧ x ∈ edgeParents v

namespace Adds

variable {d d' e : Dag} {vs ws : List Vertex}

theorem refl (d : Dag) : Adds d [] d := ⟨by simp, by simp⟩

theorem mem_nodes (h : Adds d vs d') (k : Hash) :
    k ∈ d'.graph.nodes ↔ k ∈ d.graph.nodes ∨ ∃ v ∈ vs, v.hash = k := by
  simp only [Digraph.mem_nodes]
  constructor
  · rintro ⟨v, hv⟩
    exact ((h.get k v).mp hv).imp (fun hv => ⟨v, hv⟩) fun hv => ⟨v, hv⟩
  · rintro (⟨v, hv⟩ | ⟨v, hv⟩)
    · exact ⟨v, (h.get k v).mpr (Or.inl hv)⟩
    · exact ⟨v, (h.get k v).mpr (Or.inr hv)⟩

theorem grow (h : Adds d vs d') {v : Vertex}
    (hg : Digraph.Grown d'.graph e.graph v.hash v (edgeParents v)) : Adds d (v :: vs) e := by
  have hfresh : d'.getVertex v.hash = none := Digraph.get_eq_none.mpr hg.fresh
  refine ⟨fun k u => ?_, fun x y => ?_⟩
  · rw [Dag.getVertex, hg.get]
    split
    next hk =>
      subst hk
      have hnone : ¬ (d.getVertex v.hash = some u ∨ u ∈ vs ∧ u.hash = v.hash) := by
        rw [← h.get, hfresh]
        rintro ⟨⟩
      simp only [Option.some.injEq, List.mem_cons]
      constructor
      · rintro rfl
        exact Or.inr ⟨Or.inl rfl, rfl⟩
      · rintro (hu | ⟨rfl | hu, hk⟩)
        · exact absurd (Or.inl hu) hnone
        · rfl
        · exact absurd (Or.inr ⟨hu, hk⟩) hnone
    next hk =>
      refine (h.get k u).trans (or_congr_right ?_)
      simp only [List.mem_cons]
      constructor
      · rintro ⟨hu, huk⟩
        exact ⟨Or.inr hu, huk⟩
      · rintro ⟨rfl | hu, huk⟩
        · exact absurd huk.symm hk
        · exact ⟨hu, huk⟩
  · rw [hg.arc, h.arc, or_assoc]
    refine or_congr_right ?_
    simp only [List.mem_cons, exists_eq_or_imp, eq_comm (a := y)]
    exact or_comm

theorem sameGraph (h : Adds d vs d') (h' : Adds d ws e) (hmem : ∀ v, v ∈ vs ↔ v ∈ ws) : SameGraph d' e := by
  refine ⟨fun k => Option.ext fun v => ?_, fun x y => ?_⟩
  · exact (h.get k v).trans (by rw [h'.get, hmem])
  · rw [h.arc, h'.arc]
    simp only [hmem]

theorem samePast (h : Adds d vs d') (h' : Adds d ws e) (hsub : ∀ v ∈ vs, v ∈ ws)
    (hinj : ∀ u ∈ ws, ∀ v ∈ ws, u.hash = v.hash → u = v) (hfresh : ∀ v ∈ ws, v.hash ∉ d.graph.nodes)
    {k : Hash} (hk : k ∈ d'.graph.nodes) : Digraph.SamePast e.graph d'.graph k := by
  have hmem : ∀ {x}, x = k ∨ d'.graph.Anc x k → x ∈ d'.graph.nodes := by
    rintro x (rfl | hx)
    · exact hk
    · exact hx.left
  refine Digraph.SamePast.symm (.of_arc (fun p c hc => ⟨fun ha => ?_, fun ha => ?_⟩) fun x hx => ?_)
  · rcases (h'.arc p c).mp ha with ha | ⟨v, hv, rfl, hp⟩
    · exact (h.arc p c).mpr (Or.inl ha)
    · rcases (h.mem_nodes v.hash).mp (hmem hc) with hold | ⟨u, hu, heq⟩
      · exact absurd hold (hfresh v hv)
      · obtain rfl := hinj u (hsub u hu) v hv heq
        exact (h.arc p u.hash).mpr (Or.inr ⟨u, hu, rfl, hp⟩)
  · refine (h'.arc p c).mpr (((h.arc p c).mp ha).imp_right ?_)
    rintro ⟨v, hv, hvp⟩
    exact ⟨v, hsub v hv, hvp⟩
  · obtain ⟨v, hv⟩ : ∃ v, d'.getVertex x = some v := Digraph.mem_nodes.mp (hmem hx)
    exact ((h'.get x v).mpr (((h.get x v).mp hv).imp_right fun ⟨hv, hx⟩ => ⟨hsub v hv, hx⟩)).trans hv.symm

end Adds

/-! ### The conditions on a batch -/

/-- CONDITION on a vertex that gets a child: it verifies, and it is a root, or moves no spice that is
    looked at and has its parents above it, or has the funds in its past, in whatever order they are
    added up, below parents that verify. -/
structure Backed (env : Env) (b : Book) (v : Vertex) : Prop where
  verified : v.verify env.verifier = true
  funded : b.dag.graph.isRoot v.hash = true ∨
    (¬ v.Spends b ∧ ∀ k ∈ v.parentHashes, b.dag.graph.Anc k v.hash) ∨
    (v.Spends b ∧ FundsPass env b v ∧ OrderFree env b v ∧
      ∀ u, b.dag.getVertex u.hash = some u → b.dag.graph.Anc u.hash v.hash → u.hash ∈ v.parentHashes →
        u.verify env.verifier = true)

theorem Backed.validateLeaf {env : Env} {w b : Book} {v : Vertex} (h : Backed env w v) (hf : Frame w b)
    (hp : Digraph.SamePast w.dag.graph b.dag.graph v.hash) (hleaf : IsLeafOf b v)
    (hweight : b.isValidWeight v.weight = true) (order : List Hash) :
    b.validateLeaf env (.calm order) v = .ok () := by
  have hspends : v.Spends b ↔ v.Spends w := v.spends_frame hf
  have hcond : LeafConditions env b v := by
    refine ⟨hleaf, hweight, h.verified, ?_⟩
    rw [hp.isRoot, hspends]
    rcases h.funded with hroot | ⟨hs, hpar⟩ | ⟨hs, hpass, -⟩
    · exact Or.inl hroot
    · refine Or.inr (Or.inl ⟨hs, ?_, ?_⟩)
      · exact ((hp.anc _).mpr (hpar _ (by simp [Vertex.parentHashes]))).left
      · exact ((hp.anc _).mpr (hpar _ (by simp [Vertex.parentHashes]))).left
    · exact Or.inr (Or.inr ⟨hs, hpass.frame hf hp⟩)
  refine (validateLeaf_iff_quiet hcond).mpr ?_
  rw [Quiet, hp.isRoot, hspends]
  rcases h.funded with hroot | ⟨hs, -⟩ | ⟨hs, -, horder, hpar⟩
  · exact Or.inl hroot
  · exact Or.inr ⟨rfl, fun hs' => absurd hs' hs⟩
  · refine Or.inr ⟨rfl, fun _ => ⟨rfl, fun i hi => (by cases hi), fun u hu hanc hmem => ?_, ?_⟩⟩
    · have hanc' := (hp.anc _).mp hanc
      exact hpar u ((hp.get _ (Or.inr hanc')).symm.trans hu) hanc' hmem
    · exact fun ids hids hpass => horder.frame hf hp ids _ hids (enumerates_walk _ _ _) hpass

/-- CONDITION on a batch for a book: `whole` is the graph with the batch added, every vertex of the batch
    is new, signed and let in, with a transaction of its own, and what it names as its parents is in
    `whole`, backed there, and of a weight that makes up for the weights in `W`. -/
structure Batch (env : Env) (b : Book) (vs : List Vertex) (whole : Dag) (W : ℕ) : Prop where
  loaded : b.dagLoaded = true
  adds : Adds b.dag vs whole
  hashes : (vs.map Vertex.hash).Nodup
  trxs : (vs.map fun v => v.transaction.hash).Nodup
  fresh : ∀ v ∈ vs, v.hash ∉ b.dag.graph.nodes
  unstored : ∀ v ∈ vs, b.verticesDB.lookup v.hash.bytes = none
  unused : ∀ v ∈ vs, b.trxsToVertxDB.lookup v.transaction.hash = none
  proper : ∀ v ∈ vs, Proper v.signerPublicAddress v.transaction
  foreign : ∀ v ∈ vs, v.transaction.issuerAddress ≠ b.genesisPublicAddress
  verified : ∀ v ∈ vs, v.verify env.verifier = true
  parents : ∀ v ∈ vs, ∀ k ∈ v.parentHashes, k ∈ whole.graph.nodes
  backed : ∀ v ∈ vs, ∀ k ∈ v.parentHashes, ∀ u, whole.getVertex k = some u →
    Backed env { b with dag := whole } u ∧ u.weight.toNat ≤ W ∧ W ≤ u.weight.toNat + b.throughput.toNat
  weight : b.weight.toNat ≤ W

theorem Batch.inj {env : Env} {b : Book} {vs : List Vertex} {whole : Dag} {W : ℕ}
    (h : Batch env b vs whole W) : ∀ u ∈ vs, ∀ v ∈ vs, u.hash = v.hash → u = v :=
  fun _ hu _ hv heq => List.inj_on_of_nodup_map h.hashes hu hv heq

/-- The vertices of the batch that a vertex names as its parents. -/
def parentsIn (vs : List Vertex) (v : Vertex) : List Vertex := vs.filter fun u => u.hash ∈ v.parentHashes

/-- Where a book stands that began as `b₀`, with `s.accepted` added and `s.parked` in the replier; `n`
    more updates of the throughput fit into the machine word. -/
structure Standing (b₀ : Book) (vs : List Vertex) (W n : ℕ) (s : RetryQueue Vertex) (b : Book) : Prop where
  adds : Adds b₀.dag s.accepted b.dag
  frame : Frame b₀ b
  unused : ∀ k, b₀.trxsToVertxDB.lookup k = none → (∀ v ∈ s.accepted, v.transaction.hash ≠ k) →
    b.trxsToVertxDB.lookup k = none
  members : b.repeater.members = s.parked.map fun p => ⟨p.1, p.2⟩
  weight : b.weight.toNat ≤ W
  throughput : b₀.throughput.toNat ≤ b.throughput.toNat
  room : b.throughput.toNat + n * (b₀.dag.graph.nodes.keys.length + vs.length + 1) < 2 ^ 64

namespace Standing

variable {env : Env} {b₀ b : Book} {vs : List Vertex} {whole : Dag} {W n : ℕ} {s : RetryQueue Vertex} {v : Vertex}

theorem leaves_le (h : Standing b₀ vs W n s b) (hsub : ∀ v ∈ s.accepted, v ∈ vs) :
    b.dag.graph.leaves.length ≤ b₀.dag.graph.nodes.keys.length + vs.length := by
  have hle : b.dag.graph.leaves.length ≤ (b₀.dag.graph.nodes.keys ++ vs.map Vertex.hash).length := by
    refine (List.subperm_of_subset b.dag.graph.leaves_nodup fun k hk => List.mem_append.mpr ?_).length_le
    refine ((h.adds.mem_nodes k).mp (Digraph.mem_leaves.mp hk).1).imp AList.mem_keys.mp ?_
    rintro ⟨v, hv, rfl⟩
    exact List.mem_map_of_mem (hsub v hv)
  simpa using hle

theorem update (h : Standing b₀ vs W (n + 1) s b) (hsub : ∀ v ∈ s.accepted, v ∈ vs) {w : UInt64}
    (hw : w.toNat ≤ W) : Standing b₀ vs W n s (b.updateWeightAndThroughput w) := by
  have hleaves := h.leaves_le hsub
  have hroom := h.room
  rw [Nat.succ_mul] at hroom
  have hthr := updateWeight_throughput (w := w)
    (show b.throughput.toNat + b.dag.graph.leaves.length + 1 < 2 ^ 64 by omega)
  refine ⟨h.adds, h.frame.trans (frame_updateWeight _ _), h.unused, h.members,
    updateWeight_weight_le h.weight hw, ?_, ?_⟩
  · rw [hthr]
    have := h.throughput
    omega
  · rw [hthr]
    omega

theorem less {m : ℕ} (h : Standing b₀ vs W m s b) (hnm : n ≤ m) : Standing b₀ vs W n s b := by
  refine ⟨h.adds, h.frame, h.unused, h.members, h.weight, h.throughput, ?_⟩
  have hmul := Nat.mul_le_mul_right (b₀.dag.graph.nodes.keys.length + vs.length + 1) hnm
  have := h.room
  omega

theorem park (h : Standing b₀ vs W n s b) (v : Vertex) (k : ℕ) :
    Standing b₀ vs W n
      (if s.parked.length = maxArraySize ∨ maxRepeats < k then s
        else { s with parked := s.parked ++ [(v, k + 1)] })
      (match b.repeater.insert ⟨v, k⟩ with
        | .error _ => b
        | .ok repeater => { b with repeater }) := by
  have hlen : b.repeater.members.length = s.parked.length := by rw [h.members, List.length_map]
  rw [Buffer.insert, hlen]
  by_cases hfull : s.parked.length = maxArraySize
  · rw [if_pos hfull, if_pos (Or.inl hfull)]
    exact h
  · by_cases hk : maxRepeats < k
    · rw [if_neg hfull, if_pos hk, if_pos (Or.inr hk)]
      exact h
    · rw [if_neg hfull, if_neg hk, if_neg (not_or.mpr ⟨hfull, hk⟩)]
      exact ⟨h.adds, h.frame.trans ⟨rfl, rfl, rfl, rfl⟩, h.unused, by simp [h.members], h.weight, h.throughput,
        h.room⟩

theorem checkParent (h : Standing b₀ vs W (n + 1) s b) (hb : Batch env b₀ vs whole W)
    (hsub : ∀ v ∈ s.accepted, v ∈ vs) (hv : v ∈ vs) {k : Hash} (hk : k ∈ v.parentHashes)
    (hmem : k ∈ b.dag.graph.nodes) (m : Memory) (orders : Hash → List Hash) :
    ∃ b' u, Standing b₀ vs W n s b' ∧ b'.dag = b.dag ∧ u.hash = k ∧ ∀ rest seen,
      b.checkParents env m (fun k => .calm (orders k)) .none (k :: rest) seen =
        b'.checkParents env m (fun k => .calm (orders k)) .none rest (seen ++ [u]) := by
  obtain ⟨u, hu⟩ : ∃ u, b.dag.getVertex k = some u := Digraph.mem_nodes.mp hmem
  obtain rfl : u.hash = k := b.dag.keyed hu
  have hpast := h.adds.samePast hb.adds hsub hb.inj hb.fresh hmem
  have hwhole : whole.getVertex u.hash = some u := (hpast.get _ (Or.inl rfl)).symm.trans hu
  obtain ⟨hbacked, hle, hge⟩ := hb.backed v hv _ hk u hwhole
  by_cases hleaf : b.dag.graph.isLeaf u.hash = true
  · have hweight : b.isValidWeight u.weight = true := by
      rw [isValidWeight_iff]
      have h1 := h.weight
      have h2 := h.throughput
      omega
    have hvalid := hbacked.validateLeaf (b := b) ⟨h.frame.verticesDB, h.frame.trustedNodesDB,
      h.frame.genesisPublicAddress, h.frame.dagLoaded⟩ hpast ⟨hu, Digraph.isLeaf_iff.mp hleaf⟩ hweight
      (orders u.hash)
    refine ⟨b.updateWeightAndThroughput u.weight, u, h.update hsub hle, rfl, rfl, fun rest seen => ?_⟩
    simp only [Book.checkParents, hu, hleaf, if_true, hvalid]
  · refine ⟨b, u, h.less (Nat.le_succ n), rfl, rfl, fun rest seen => ?_⟩
    simp only [Book.checkParents, hu, hleaf, Bool.false_eq_true, if_false]

theorem checkParents_found (hb : Batch env b₀ vs whole W) (hsub : ∀ v ∈ s.accepted, v ∈ vs) (hv : v ∈ vs) (m : Memory)
    (orders : Hash → List Hash) (hashes : List Hash) :
    ∀ {b : Book} (seen : List Vertex), Standing b₀ vs W (n + hashes.length) s b →
      (∀ k ∈ hashes, k ∈ v.parentHashes) → (∀ k ∈ hashes, k ∈ b.dag.graph.nodes) →
      ∃ b' us, Standing b₀ vs W n s b' ∧ b'.dag = b.dag ∧ us.map Vertex.hash = hashes ∧
        b.checkParents env m (fun k => .calm (orders k)) .none hashes seen = (b', .ok (seen ++ us)) := by
  induction hashes with
  | nil => exact fun seen h _ _ => ⟨_, [], h, rfl, rfl, by rw [List.append_nil]; rfl⟩
  | cons k rest ih =>
    intro b seen h hpar hmem
    obtain ⟨b', u, h', hdag, rfl, hloop⟩ := h.checkParent hb hsub hv (hpar k (List.mem_cons_self ..))
      (hmem k (List.mem_cons_self ..)) m orders
    obtain ⟨b'', us, h'', hdag', hus, hrest⟩ := ih (seen ++ [u]) h'
      (fun x hx => hpar x (List.mem_cons_of_mem _ hx))
      (fun x hx => hdag ▸ hmem x (List.mem_cons_of_mem _ hx))
    exact ⟨b'', u :: us, h'', hdag'.trans hdag, by rw [List.map_cons, hus], by
      rw [hloop, hrest, List.append_assoc, List.singleton_append]⟩

theorem checkParents_missing (hb : Batch env b₀ vs whole W) (hsub : ∀ v ∈ s.accepted, v ∈ vs) (hv : v ∈ vs)
    (m : Memory) (orders : Hash → List Hash) (hashes : List Hash) :
    ∀ {b : Book} (seen : List Vertex), Standing b₀ vs W (n + hashes.length) s b →
      (∀ k ∈ hashes, k ∈ v.parentHashes) → (∃ k ∈ hashes, k ∉ b.dag.graph.nodes) →
      ∃ b' e, Standing b₀ vs W n s b' ∧
        b.checkParents env m (fun k => .calm (orders k)) .none hashes seen =
          (match b'.repeater.insert m with
            | .error _ => b'
            | .ok repeater => { b' with repeater }, .error e) := by
  induction hashes with
  | nil => exact fun _ _ _ ⟨_, hk, _⟩ => nomatch hk
  | cons k rest ih =>
    intro b seen h hpar hmiss
    by_cases hmem : k ∈ b.dag.graph.nodes
    · obtain ⟨b', u, h', hdag, rfl, hloop⟩ := h.checkParent hb hsub hv (hpar k (List.mem_cons_self ..)) hmem m
        orders
      obtain ⟨x, hx, hxmem⟩ := hmiss
      rcases List.mem_cons.mp hx with rfl | hx
      · exact absurd hmem hxmem
      · rw [hloop]
        exact ih (seen ++ [u]) h' (fun y hy => hpar y (List.mem_cons_of_mem _ hy)) ⟨x, hx, hdag ▸ hxmem⟩
    · have hnone : b.dag.getVertex k = none := Digraph.get_eq_none.mpr hmem
      rw [Book.checkParents, hnone]
      cases hins : b.repeater.insert m with
      | error _ => exact ⟨b, _, h.less (by omega), by rw [hins]⟩
      | ok repeater => exact ⟨b, _, h.less (by omega), by rw [hins]⟩

theorem ready_iff (h : Standing b₀ vs W n s b) (hb : Batch env b₀ vs whole W) (hsub : ∀ v ∈ s.accepted, v ∈ vs)
    (hv : v ∈ vs) :
    s.Ready (parentsIn vs) v ↔ ∀ k ∈ v.parentHashes, k ∈ b.dag.graph.nodes := by
  simp only [RetryQueue.Ready, parentsIn, List.mem_filter, decide_eq_true_eq]
  constructor
  · intro hr k hk
    rcases (hb.adds.mem_nodes k).mp (hb.parents v hv k hk) with hold | ⟨u, hu, rfl⟩
    · exact (h.adds.mem_nodes k).mpr (Or.inl hold)
    · exact (h.adds.mem_nodes _).mpr (Or.inr ⟨u, hr u ⟨hu, hk⟩, rfl⟩)
  · rintro hall u ⟨hu, hk⟩
    rcases (h.adds.mem_nodes _).mp (hall _ hk) with hold | ⟨w, hw, heq⟩
    · exact absurd hold (hb.fresh u hu)
    · exact hb.inj w (hsub w hw) u hu heq ▸ hw

theorem addLeafChecks (h : Standing b₀ vs W n s b) (hb : Batch env b₀ vs whole W) (hsub : ∀ v ∈ s.accepted, v ∈ vs)
    (hv : v ∈ vs) (hnew : v ∉ s.accepted) :
    v.hash ∉ b.dag.graph.nodes ∧ b.trxsToVertxDB.lookup v.transaction.hash = none ∧
      b.addLeafChecks env v .none = .ok () := by
  have hfresh : v.hash ∉ b.dag.graph.nodes := by
    intro hmem
    rcases (h.adds.mem_nodes _).mp hmem with hold | ⟨u, hu, heq⟩
    · exact hb.fresh v hv hold
    · exact hnew (hb.inj u (hsub u hu) v hv heq ▸ hu)
  have hunused : b.trxsToVertxDB.lookup v.transaction.hash = none := by
    refine h.unused _ (hb.unused v hv) fun u hu heq => hnew ?_
    exact List.inj_on_of_nodup_map hb.trxs (hsub u hu) hv heq ▸ hu
  have hget : b.dag.getVertex v.hash = none := Digraph.get_eq_none.mpr hfresh
  refine ⟨hfresh, hunused, ?_⟩
  simp [Book.addLeafChecks, h.frame.genesisPublicAddress, hb.foreign v hv, Book.checkVertexExists, hget,
    Book.checkVertexExistInStorage, h.frame.verticesDB, hb.unstored v hv, Book.checkTrxInVertexExists, hunused,
    hb.verified v hv, Faults.none]

theorem insertVertex (h : Standing b₀ vs W n s b) (hfresh : v.hash ∉ b.dag.graph.nodes)
    (hunused : b.trxsToVertxDB.lookup v.transaction.hash = none) {us : List Vertex}
    (hus : us.map Vertex.hash = v.parentHashes) (hmem : ∀ k ∈ v.parentHashes, k ∈ b.dag.graph.nodes)
    (onSave : Err → Err) (rejected : Err) :
    Standing b₀ vs W n { s with accepted := v :: s.accepted }
      (b.insertVertex v us .none onSave rejected).1 := by
  obtain ⟨d, hd⟩ : ∃ d, b.dag.addVertexByID v = some d := by
    rw [← Option.isSome_iff_exists, Option.isSome_iff_ne_none, ne_eq, Dag.addVertexByID_eq_none]
    exact hfresh
  obtain ⟨l, hl⟩ : ∃ l, b.dag.getVertex v.leftParentHash = some l :=
    Digraph.mem_nodes.mp (hmem _ (by simp [Vertex.parentHashes]))
  obtain ⟨r, hr⟩ : ∃ r, b.dag.getVertex v.rightParentHash = some r :=
    Digraph.mem_nodes.mp (hmem _ (by simp [Vertex.parentHashes]))
  have hlk : l.hash = v.leftParentHash := b.dag.keyed hl
  have hrk : r.hash = v.rightParentHash := b.dag.keyed hr
  obtain ⟨dag, hdag, hgrown⟩ := addEdges_grown (Digraph.Grown.of_addNode (Dag.addVertexByID_eq_some hd))
    (hlk ▸ Dag.mem_nodes hl) (hrk ▸ Dag.mem_nodes hr) hlk.symm hrk.symm
  have hsave : b.saveTrxInVertex v.transaction.hash v.hash Faults.none.saveTrx = .ok
      { b with trxsToVertxDB := b.trxsToVertxDB.insert v.transaction.hash v.hash } := by
    simp [Book.saveTrxInVertex, hunused, Faults.none]
  rw [hlk, hrk, ← Vertex.parentHashes, ← hus] at hdag
  simp only [Book.insertVertex, hsave, hd, hdag]
  refine ⟨h.adds.grow hgrown, h.frame.trans ⟨rfl, rfl, rfl, rfl⟩, fun k hk hne => ?_, h.members, h.weight,
    h.throughput, h.room⟩
  have hkv : k ≠ v.transaction.hash := fun heq => hne v (List.mem_cons_self ..) heq.symm
  simp only [AList.lookup_insert_ne hkv]
  exact h.unused k hk fun u hu => hne u (List.mem_cons_of_mem _ hu)

theorem attempt (h : Standing b₀ vs W (n + 2) s b) (hb : Batch env b₀ vs whole W) (hsub : ∀ v ∈ s.accepted, v ∈ vs)
    (hv : v ∈ vs) (hnew : v ∉ s.accepted) (k : ℕ) (orders : Hash → List Hash) :
    Standing b₀ vs W n (s.attempt (parentsIn vs) maxArraySize maxRepeats v k)
      (b.addLeafMemorized env ⟨v, k⟩ (fun k => .calm (orders k)) .none).1 := by
  obtain ⟨hfresh, hunused, hchecks⟩ := h.addLeafChecks hb hsub hv hnew
  have hready := h.ready_iff hb hsub hv
  simp only [Book.addLeafMemorized, hchecks, Book.addLeafLocked]
  by_cases hr : s.Ready (parentsIn vs) v
  · obtain ⟨b', us, h', hdag, hus, hloop⟩ := checkParents_found hb hsub hv ⟨v, k⟩ orders v.parentHashes [] h
      (fun _ hk => hk) (hready.mp hr)
    rw [hloop, RetryQueue.attempt, if_pos hr]
    refine h'.insertVertex (hdag ▸ hfresh) ?_ hus (fun x hx => hdag ▸ hready.mp hr x hx) _ _
    exact (h'.addLeafChecks hb hsub hv hnew).2.1
  · have hmiss : ∃ x ∈ v.parentHashes, x ∉ b.dag.graph.nodes := by
      simpa only [not_forall, exists_prop] using mt hready.mpr hr
    obtain ⟨b', e, h', hloop⟩ := checkParents_missing hb hsub hv ⟨v, k⟩ orders v.parentHashes [] h
      (fun _ hk => hk) hmiss
    rw [hloop, RetryQueue.attempt, if_neg hr]
    exact h'.park v k

theorem deliver (h : Standing b₀ vs W (n + 2) s b) (hb : Batch env b₀ vs whole W) (d : Delivery)
    (hnodup : (s.held ++ Arrival.items [d.arrival]).Nodup)
    (hsub : ∀ v ∈ s.held ++ Arrival.items [d.arrival], v ∈ vs) :
    Standing b₀ vs W n (s.step (parentsIn vs) maxArraySize maxRepeats d.arrival) (b.deliver env d) := by
  have haccepted : ∀ v ∈ s.accepted, v ∈ vs := fun v hv => hsub v (by simp [RetryQueue.held, hv])
  cases d with
  | leaf v orders =>
    have hv : v ∈ vs := hsub v (by simp [Delivery.arrival, Arrival.items])
    have hnew : v ∉ s.accepted := by
      intro hmem
      refine (List.nodup_append.mp hnodup).2.2 v ?_ v ?_ rfl
      · simp [RetryQueue.held, hmem]
      · simp [Delivery.arrival, Arrival.items]
    have hguard : b.addLeafGuard v = .ok () := by
      simp [Book.addLeafGuard, h.frame.dagLoaded, hb.loaded, (hb.proper v hv).foreign, (hb.proper v hv).nonempty]
    rw [Book.deliver, Book.addLeaf, hguard]
    exact h.attempt hb haccepted hv hnew 0 orders
  | tick orders =>
    obtain ⟨accepted, parked⟩ := s
    rw [Book.deliver, Book.replay, Buffer.getNext_eq, h.members]
    cases parked with
    | nil => exact h.less (Nat.le_add_right n 2)
    | cons p rest =>
      have hrest : Standing b₀ vs W (n + 2) ⟨accepted, rest⟩
          { b with repeater := ⟨rest.map fun p => ⟨p.1, p.2⟩, b.repeater.pub⟩ } :=
        ⟨h.adds, h.frame.trans ⟨rfl, rfl, rfl, rfl⟩, h.unused, rfl, h.weight, h.throughput, h.room⟩
      have hp : p.1 ∈ vs := hsub p.1 (by simp [RetryQueue.held])
      have hnew : p.1 ∉ accepted := by
        intro hmem
        refine (List.nodup_append.mp (List.nodup_append.mp hnodup).1).2.2 p.1 hmem p.1 ?_ rfl
        simp
      exact hrest.attempt hb haccepted hp hnew p.2 orders

/-- RUN: a schedule of deliveries runs the retry queue. -/
theorem run_deliver (hb : Batch env b₀ vs whole W) (ds : List Delivery) :
    ∀ {s : RetryQueue Vertex} {b : Book}, Standing b₀ vs W (n + 2 * ds.length) s b →
      (s.held ++ Arrival.items (ds.map Delivery.arrival)).Nodup →
      (∀ v ∈ s.held ++ Arrival.items (ds.map Delivery.arrival), v ∈ vs) →
      Standing b₀ vs W n
        (run (RetryQueue.step (parentsIn vs) maxArraySize maxRepeats) s (ds.map Delivery.arrival))
        (run (Book.deliver env) b ds) := by
  induction ds with
  | nil => exact fun h _ _ => h
  | cons d ds ih =>
    intro s b h hnodup hsub
    rw [List.map_cons] at hnodup hsub ⊢
    have hfirst : List.Sublist (s.held ++ Arrival.items [d.arrival])
        (s.held ++ Arrival.items (d.arrival :: ds.map Delivery.arrival)) := by
      rw [Arrival.items_cons _ (ds.map Delivery.arrival), ← List.append_assoc]
      exact List.sublist_append_left _ _
    obtain ⟨held, hperm, hrest⟩ : ((s.step (parentsIn vs) maxArraySize maxRepeats d.arrival).held ++
        Arrival.items (ds.map Delivery.arrival)).Subperm _ := RetryQueue.step_subperm d.arrival _
    refine ih (deliver ?_ hb d (hnodup.sublist hfirst) fun v hv => hsub v (hfirst.subset hv)) ?_ fun v hv => ?_
    · rw [List.length_cons, Nat.mul_succ, ← Nat.add_assoc] at h
      exact h
    · exact hperm.nodup_iff.mp (hnodup.sublist hrest)
    · exact hsub v (hrest.subset (hperm.mem_iff.mpr hv))

end Standing

/-! ### Agreement -/

/-- CONDITION on a schedule for a book whose replier is empty: it delivers every vertex of the batch once;
    only ticks come after the last delivery, and those before it together with the `height` of the batch
    stay within the retries; the throughput does not overflow. -/
structure Schedule (b : Book) (vs : List Vertex) (height : ℕ) (early late : List Delivery) : Prop where
  idle : b.repeater.members = []
  perm : (Arrival.items (early.map Delivery.arrival)).Perm vs
  after : ∀ d ∈ late, d.arrival = .tick
  retries : Arrival.ticks (early.map Delivery.arrival) + height ≤ maxRepeats + 1
  room : b.throughput.toNat + 2 * (early ++ late).length *
    (b.dag.graph.nodes.keys.length + vs.length + 1) < 2 ^ 64

section Agreement

variable {env : Env} {b : Book} {vs : List Vertex} {whole : Dag} {W height : ℕ} {early late : List Delivery}

theorem Schedule.standing (h : Schedule b vs height early late) (hb : Batch env b vs whole W) :
    Standing b vs W (0 + 2 * (early ++ late).length) RetryQueue.empty b := by
  refine ⟨.refl _, .refl _, fun _ hk _ => hk, h.idle, hb.weight, le_rfl, ?_⟩
  rw [Nat.zero_add]
  exact h.room

theorem Schedule.arrivals (h : Schedule b vs height early late) :
    ∀ e ∈ late.map Delivery.arrival, e = .tick := by
  intro e he
  obtain ⟨d, hd, rfl⟩ := List.mem_map.mp he
  exact h.after d hd

theorem Schedule.items (h : Schedule b vs height early late) :
    (Arrival.items ((early ++ late).map Delivery.arrival)).Perm vs := by
  rw [List.map_append, Arrival.items_append, Arrival.items_ticks h.arrivals, List.append_nil]
  exact h.perm

/-- CONVERGENCE: a schedule within the retries ends, once the replier is empty, with the whole batch. -/
theorem Schedule.converges (h : Schedule b vs height early late) (hb : Batch env b vs whole W)
    (hsize : vs.length ≤ maxArraySize) {rank : Vertex → ℕ}
    (hrank : ∀ v ∈ vs, rank v ≤ height ∧ ∀ u ∈ vs, u.hash ∈ v.parentHashes → rank u < rank v)
    (hdone : (run (Book.deliver env) b (early ++ late)).repeater.members = []) :
    SameGraph (run (Book.deliver env) b (early ++ late)).dag whole := by
  have hend := Standing.run_deliver hb (early ++ late) (h.standing hb)
    (h.items.nodup_iff.mpr (hb.hashes.of_map _)) fun v hv => h.items.mem_iff.mp hv
  have hmembers := hend.members
  rw [hdone] at hmembers
  have hdrained := List.map_eq_nil_iff.mp hmembers.symm
  rw [List.map_append] at hdrained hend
  have hneeds : ∀ {u v : Vertex}, u ∈ parentsIn vs v ↔ u ∈ vs ∧ u.hash ∈ v.parentHashes := by
    simp [parentsIn]
  have hrank' : ∀ v ∈ Arrival.items (early.map Delivery.arrival),
      rank v ≤ height ∧ ∀ u ∈ parentsIn vs v, rank u < rank v := by
    intro v hv
    obtain ⟨htop, hlt⟩ := hrank v (h.perm.mem_iff.mp hv)
    exact ⟨htop, fun u hu => hlt u (hneeds.mp hu).1 (hneeds.mp hu).2⟩
  have hperm := RetryQueue.accepted_of_drained (parentsIn vs) maxArraySize maxRepeats h.arrivals
    (fun v _ u hu => h.perm.mem_iff.mpr (hneeds.mp hu).1) (by rw [h.perm.length_eq]; exact hsize) hrank'
    h.retries hdrained
  exact hend.adds.sameGraph hb.adds fun v => (hperm.trans h.perm).mem_iff

end Agreement

/-! ### A chain in any order -/

namespace Transparent

/-- The links below the genesis vertex, -/
def links (n : ℕ) : List Vertex := (List.finRange n).map fun i => link (wallet 8) (i.val + 1)

/-- the link that each of them stands below, -/
def before (n : ℕ) (i : Fin n) : List (Fin n) := (List.finRange n).filter fun j => j.val + 1 = i.val

/-- and their deliveries. -/
def deliveries {n : ℕ} (es : List (Arrival (Fin n))) : List Delivery :=
  es.map fun
    | .item i => .leaf (link (wallet 8) (i.val + 1)) fun _ => []
    | .tick => .tick fun _ => []

/-- The links one after the other, and then only ticks. -/
def arrive {n : ℕ} (order : List (Fin n)) : List (Arrival (Fin n)) := order.map .item
def idle (n k : ℕ) : List (Arrival (Fin n)) := List.replicate k .tick

section Links

variable {n : ℕ} {s : Node}

theorem mem_links {v : Vertex} : v ∈ links n ↔ ∃ j < n, link (wallet 8) (j + 1) = v := by
  simp only [links, List.mem_map, List.mem_finRange, true_and, Fin.exists_iff, exists_prop]

theorem arrival_deliveries (es : List (Arrival (Fin n))) :
    (deliveries es).map Delivery.arrival = es.map (Arrival.map fun i => link (wallet 8) (i.val + 1)) := by
  rw [deliveries, List.map_map]
  refine List.map_congr_left fun e _ => ?_
  cases e <;> rfl

theorem deliveries_append (es fs : List (Arrival (Fin n))) :
    deliveries (es ++ fs) = deliveries es ++ deliveries fs :=
  List.map_append

theorem link_succ_injective (hn : n ≤ 50) :
    Function.Injective fun i : Fin n => link (wallet 8) (i.val + 1) := by
  intro i j heq
  have := link_hash_inj (i := i.val + 1) (j := j.val + 1) (by omega) (by omega) (congrArg Vertex.hash heq)
  exact Fin.ext (by omega)

theorem link_parents (i : ℕ) : (link (wallet 8) (i + 1)).parentHashes =
    [(link (wallet 8) i).hash, (link (wallet 8) i).hash] := rfl

theorem parent_iff (hn : n ≤ 50) {i j : ℕ} (hi : i < n) (hj : j < n) :
    (link (wallet 8) (j + 1)).hash ∈ (link (wallet 8) (i + 1)).parentHashes ↔ j + 1 = i := by
  rw [link_parents]
  simp only [List.mem_cons, List.not_mem_nil, or_false, or_self]
  exact ⟨fun heq => link_hash_inj (by omega) (by omega) heq, fun heq => by rw [heq]⟩

theorem parentsIn_links (hn : n ≤ 50) (i : Fin n) : parentsIn (links n) (link (wallet 8) (i.val + 1)) =
    (before n i).map fun j => link (wallet 8) (j.val + 1) := by
  rw [parentsIn, links, before, List.filter_map]
  congr 1
  refine List.filter_congr fun j _ => ?_
  simp only [Function.comp, decide_eq_decide]
  exact parent_iff hn i.isLt j.isLt

theorem Chain.adds (h : Chain (wallet 8) n s) : Adds (start 10).book.dag (links n) s.book.dag := by
  have h0 := chain_zero (wallet 8)
  refine ⟨fun k v => ?_, fun x y => ?_⟩
  · rw [h.get, h0.get, mem_links]
    constructor
    · rintro ⟨j, hj, rfl, rfl⟩
      cases j with
      | zero => exact Or.inl ⟨0, le_rfl, rfl, rfl⟩
      | succ j => exact Or.inr ⟨⟨j, hj, rfl⟩, rfl⟩
    · rintro (⟨j, hj, rfl, rfl⟩ | ⟨⟨j, hj, rfl⟩, rfl⟩)
      · exact ⟨j, by omega, rfl, rfl⟩
      · exact ⟨j + 1, hj, rfl, rfl⟩
  · have hedge : ∀ j, x ∈ edgeParents (link (wallet 8) (j + 1)) ↔ x = (link (wallet 8) j).hash := by
      intro j
      have hleft : (link (wallet 8) (j + 1)).leftParentHash ≠ Hash.zero := link_hash_ne_zero j
      rw [edgeParents, if_neg hleft, link_parents]
      simp
    rw [h.arc, h0.arc]
    simp only [Nat.not_lt_zero, false_and, exists_false, false_or, mem_links]
    constructor
    · rintro ⟨j, hj, hx, rfl⟩
      exact ⟨_, ⟨j, hj, rfl⟩, rfl, (hedge j).mpr hx⟩
    · rintro ⟨v, ⟨j, hj, rfl⟩, rfl, hx⟩
      exact ⟨j, hj, (hedge j).mp hx, rfl⟩

theorem Chain.payment_backed (h : Chain (wallet 8) (n + 1) s) (hn : n < 50) :
    Backed (env hub) { (start 10).book with dag := s.book.dag } (link (wallet 8) 1) := by
  have hanc : ∀ x, s.book.dag.graph.Anc x (link (wallet 8) 1).hash ↔ x = (root 10).hash := by
    intro x
    rw [h.anc_iff (by omega) (by omega)]
    refine ⟨fun ⟨k, hk, hx⟩ => ?_, fun hx => ⟨0, by omega, hx⟩⟩
    obtain rfl : k = 0 := by omega
    exact hx
  have henum : ∀ ids, Enumerates s.book.dag (link (wallet 8) 1).hash ids → ids = [(root 10).hash] := by
    intro ids hids
    refine List.perm_singleton.mp ((List.perm_ext_iff_of_nodup hids.nodup (List.nodup_singleton _)).mpr ?_)
    intro x
    rw [hids.mem, hanc, List.mem_singleton]
  have hvertices : s.book.dag.vertices [(root 10).hash] = [root 10] := by
    have hroot := h.get_link (j := 0) (by omega)
    rw [link] at hroot
    simp [Dag.vertices, hroot]
  have hpass : FundsPassIn (env hub) { (start 10).book with dag := s.book.dag } (link (wallet 8) 1)
      [(root 10).hash] := by
    have hopen : (start 10).book.openPots (env hub) (link (wallet 8) 1) false = .ok ⟨⟨0, 0⟩, ⟨4, 0⟩⟩ := by
      decide +kernel
    refine ⟨⟨⟨0, 0⟩, ⟨4, 0⟩⟩, ⟨⟨10, 0⟩, ⟨4, 0⟩⟩, hopen, ?_, by decide +kernel⟩
    rw [hvertices]
    decide +kernel
  refine ⟨link_verified 1, Or.inr (Or.inr ⟨⟨rfl, List.not_mem_nil⟩, ⟨_, ⟨List.nodup_singleton _, fun x => ?_⟩,
    hpass⟩, fun ids ids' _ hids' _ => ?_, fun u hu _ _ => ?_⟩)⟩
  · rw [List.mem_singleton]
    exact (hanc x).symm
  · rw [henum ids' hids']
    exact hpass
  · obtain ⟨j, -, rfl, -⟩ := (h.get _ _).mp hu
    exact link_verified j

/-- Every link is backed: the first is the root, the second has its funds, the others move no spice. -/
theorem Chain.backed (h : Chain (wallet 8) n s) (hn : n ≤ 50) {i : ℕ} (hi : i < n) :
    Backed (env hub) { (start 10).book with dag := s.book.dag } (link (wallet 8) i) := by
  match i with
  | 0 =>
    refine ⟨link_verified 0, Or.inl (Digraph.isRoot_iff.mpr fun p hp => ?_)⟩
    obtain ⟨j, hj, -, heq⟩ := (h.arc _ _).mp hp
    have := link_hash_inj (by omega) (by omega) heq
    omega
  | 1 =>
    obtain ⟨m, rfl⟩ : ∃ m, n = m + 1 := ⟨n - 1, by omega⟩
    exact h.payment_backed (by omega)
  | j + 2 =>
    refine ⟨link_verified _, Or.inr (Or.inl ⟨fun hs => (nomatch hs.1), fun k hk => ?_⟩)⟩
    rw [link_parents] at hk
    obtain rfl : k = (link (wallet 8) (j + 1)).hash := by simpa using hk
    exact .single ((h.arc _ _).mpr ⟨j + 1, by omega, rfl, rfl⟩)

theorem Chain.batch (h : Chain (wallet 8) n s) (hn : n ≤ 50) :
    Batch (env hub) (start 10).book (links n) s.book.dag 50 := by
  have h0 := chain_zero (wallet 8)
  refine
    { loaded := h0.loaded, adds := h.adds, hashes := ?_, trxs := ?_, fresh := fun v hv hmem => ?_
      unstored := fun v _ => by rw [h0.unstored]; rfl
      unused := fun v hv => Option.eq_none_iff_forall_ne_some.mpr fun w hw => ?_
      proper := fun v hv => ?_, foreign := fun v hv => ?_, verified := fun v hv => ?_
      parents := fun v hv k hk => ?_, backed := fun v hv k hk u hu => ?_, weight := h0.weight }
  · rw [links, List.map_map]
    refine List.Nodup.map_on (fun i _ j _ heq => Fin.ext ?_) (List.nodup_finRange n)
    have := link_hash_inj (by omega) (by omega) heq
    omega
  · rw [links, List.map_map]
    refine List.Nodup.map_on (fun i _ j _ heq => Fin.ext ?_) (List.nodup_finRange n)
    have := link_trx_hash_inj (by omega) (by omega) heq
    omega
  · obtain ⟨j, hj, rfl⟩ := mem_links.mp hv
    obtain ⟨u, hu⟩ : ∃ u, (start 10).book.dag.getVertex _ = some u := Digraph.mem_nodes.mp hmem
    obtain ⟨i, hi, -, heq⟩ := (h0.get _ _).mp hu
    have := link_hash_inj (by omega) (by omega) heq
    omega
  · obtain ⟨j, hj, rfl⟩ := mem_links.mp hv
    obtain ⟨i, hi, heq, -⟩ := (h0.trxs _ _).mp hw
    have := link_trx_hash_inj (by omega) (by omega) heq
    omega
  · obtain ⟨j, -, rfl⟩ := mem_links.mp hv
    exact link_proper j
  · obtain ⟨j, -, rfl⟩ := mem_links.mp hv
    rw [h0.address]
    exact link_foreign j
  · obtain ⟨j, -, rfl⟩ := mem_links.mp hv
    exact link_verified (j + 1)
  · obtain ⟨j, hj, rfl⟩ := mem_links.mp hv
    rw [link_parents] at hk
    obtain rfl : k = (link (wallet 8) j).hash := by simpa using hk
    exact Dag.mem_nodes (h.get_link hj.le)
  · obtain ⟨j, hj, rfl⟩ := mem_links.mp hv
    rw [link_parents] at hk
    obtain rfl : k = (link (wallet 8) j).hash := by simpa using hk
    rw [h.get_link hj.le] at hu
    obtain rfl := Option.some.inj hu
    have hw : (link (wallet 8) j).weight.toNat = j := by
      rw [link_weight, UInt64.toNat_ofNat']
      exact Nat.mod_eq_of_lt (by omega)
    have ht := h0.throughput
    exact ⟨h.backed hn hj, by omega, by omega⟩

theorem links_batch (hn : n ≤ 50) : ∃ whole, Batch (env hub) (start 10).book (links n) whole 50 := by
  have hchain : Chain (wallet 8) n _ := chain_run (by decide +kernel) n (by omega)
  exact ⟨_, hchain.batch hn⟩

theorem start_room (hn : n ≤ 50) {k : ℕ} (hk : k ≤ 2 ^ 20) : (start 10).book.throughput.toNat +
    2 * k * ((start 10).book.dag.graph.nodes.keys.length + (links n).length + 1) < 2 ^ 64 := by
  have hkeys : (start 10).book.dag.graph.nodes.keys.length = 1 := by decide +kernel
  have hthr := (chain_zero (wallet 8)).throughput
  have hmul : k * (1 + n + 1) ≤ 2 ^ 20 * 52 := Nat.mul_le_mul hk (by omega)
  rw [hkeys, hthr, links, List.length_map, List.length_finRange, Nat.mul_assoc]
  omega

theorem links_standing (hn : n ≤ 50) (es : List (Arrival (Fin n))) (hnodup : (Arrival.items es).Nodup)
    (hlen : es.length ≤ 2 ^ 20) :
    Standing (start 10).book (links n) 50 0
      ((run (RetryQueue.step (before n) maxArraySize maxRepeats) .empty es).map
        fun i => link (wallet 8) (i.val + 1))
      (run (Book.deliver (env hub)) (start 10).book (deliveries es)) := by
  obtain ⟨whole, hb⟩ := links_batch hn
  have hitems : Arrival.items ((deliveries es).map Delivery.arrival) =
      (Arrival.items es).map fun i => link (wallet 8) (i.val + 1) := by
    rw [arrival_deliveries, Arrival.items_map]
  have hstart : Standing (start 10).book (links n) 50 (0 + 2 * (deliveries es).length) .empty (start 10).book := by
    refine ⟨.refl _, .refl _, fun _ hk _ => hk, rfl, hb.weight, le_rfl, ?_⟩
    rw [Nat.zero_add]
    exact start_room hn (by rw [deliveries, List.length_map]; exact hlen)
  have hend := Standing.run_deliver hb (deliveries es) hstart
    (by
      rw [hitems]
      exact hnodup.map (link_succ_injective hn))
    (fun v hv => by
      rw [hitems] at hv
      obtain ⟨i, -, rfl⟩ := List.mem_map.mp hv
      exact mem_links.mpr ⟨i, i.isLt, rfl⟩)
  rw [arrival_deliveries] at hend
  exact RetryQueue.run_map (link_succ_injective hn) (parentsIn_links hn) es .empty ▸ hend

/-- What the queue of the numbers says about the book: whether the replier is empty, which links it has. -/
theorem links_outcome (hn : n ≤ 50) (es : List (Arrival (Fin n))) (hnodup : (Arrival.items es).Nodup)
    (hlen : es.length ≤ 2 ^ 20) {s : RetryQueue (Fin n)}
    (hs : run (RetryQueue.step (before n) maxArraySize maxRepeats) .empty es = s) :
    (s.parked = [] → (run (Book.deliver (env hub)) (start 10).book (deliveries es)).repeater.members = []) ∧
      ∀ i : Fin n, (link (wallet 8) (i.val + 1)).hash ∈
        (run (Book.deliver (env hub)) (start 10).book (deliveries es)).dag.graph.nodes ↔ i ∈ s.accepted := by
  have h := links_standing hn es hnodup hlen
  rw [hs] at h
  refine ⟨fun hparked => ?_, fun i => ?_⟩
  · rw [h.members, RetryQueue.map, hparked]
    rfl
  · obtain ⟨whole, hb⟩ := links_batch hn
    rw [h.adds.mem_nodes]
    constructor
    · rintro (hold | ⟨v, hv, heq⟩)
      · exact absurd hold (hb.fresh _ (mem_links.mpr ⟨i, i.isLt, rfl⟩))
      · obtain ⟨j, hj, rfl⟩ := List.mem_map.mp hv
        have := link_hash_inj (by omega) (by omega) heq
        rwa [show i = j from Fin.ext (by omega)]
    · exact fun hi => Or.inr ⟨_, List.mem_map_of_mem hi, rfl⟩

theorem links_items {es : List (Arrival (Fin n))} (hes : (Arrival.items es).Perm (List.finRange n)) :
    (Arrival.items ((deliveries es).map Delivery.arrival)).Perm (links n) := by
  rw [arrival_deliveries, Arrival.items_map]
  exact hes.map _

theorem links_schedule (hn : n ≤ maxRepeats + 2) {order : List (Fin n)} (horder : order.Perm (List.finRange n))
    {k : ℕ} (hk : k ≤ 2 ^ 10) :
    Schedule (start 10).book (links n) (n - 1) (deliveries (arrive order)) (deliveries (idle n k)) := by
  have hn' : n ≤ 27 := hn
  refine ⟨rfl, links_items ?_, fun d hd => ?_, ?_, start_room (by omega) ?_⟩
  · rw [arrive, Arrival.items_map_item]
    exact horder
  · obtain ⟨e, he, rfl⟩ := List.mem_map.mp hd
    rw [List.eq_of_mem_replicate he]
    rfl
  · rw [arrival_deliveries, arrive, Arrival.ticks_map, Arrival.ticks_map_item]
    omega
  · have hlen := horder.length_eq
    rw [List.length_finRange] at hlen
    simp only [List.length_append, deliveries, arrive, idle, List.length_map, List.length_replicate]
    omega

theorem links_rank (hn : n ≤ 50) : ∀ v ∈ links n, v.weight.toNat - 1 ≤ n - 1 ∧
    ∀ u ∈ links n, u.hash ∈ v.parentHashes → u.weight.toNat - 1 < v.weight.toNat - 1 := by
  have hweight : ∀ j < n, (link (wallet 8) (j + 1)).weight.toNat = j + 1 := by
    intro j hj
    rw [link_weight, UInt64.toNat_ofNat']
    exact Nat.mod_eq_of_lt (by omega)
  intro v hv
  obtain ⟨i, hi, rfl⟩ := mem_links.mp hv
  refine ⟨by rw [hweight i hi]; omega, fun u hu hpar => ?_⟩
  obtain ⟨j, hj, rfl⟩ := mem_links.mp hu
  have := (parent_iff hn hi hj).mp hpar
  rw [hweight i hi, hweight j hj]
  omega

end Links

end Transparent

/-- AGREEMENT: two books that take the same batch, each by a schedule of its own within the retries, end
    with the same vertices and the same edges. -/
theorem deliveries_agree {env env' : Env} {b b' : Book} {vs : List Vertex} {whole : Dag} {W W' height : ℕ}
    (hb : Batch env b vs whole W) (hb' : Batch env' b' vs whole W') (hsize : vs.length ≤ maxArraySize)
    {rank : Vertex → ℕ}
    (hrank : ∀ v ∈ vs, rank v ≤ height ∧ ∀ u ∈ vs, u.hash ∈ v.parentHashes → rank u < rank v)
    {early late early' late' : List Delivery} (hs : Schedule b vs height early late)
    (hs' : Schedule b' vs height early' late')
    (hdone : (run (Book.deliver env) b (early ++ late)).repeater.members = [])
    (hdone' : (run (Book.deliver env') b' (early' ++ late')).repeater.members = []) :
    SameGraph (run (Book.deliver env) b (early ++ late)).dag
      (run (Book.deliver env') b' (early' ++ late')).dag := by
  have h := hs.converges hb hsize hrank hdone
  have h' := hs'.converges hb' hsize hrank hdone'
  exact ⟨fun k => (h.get k).trans (h'.get k).symm, fun x y => (h.arc x y).trans (h'.arc x y).symm⟩

open Transparent in
/-- Two nodes with the same genesis vertex receive the same 28 links below it, a batch like any other. The
    first receives them in order and keeps them. The second receives them child first, without a tick in
    between; its replier retries the youngest link first in every round, drops it, and is empty. -/
theorem chain_torn :
    let b := (start 10).book
    let first := deliveries (arrive (List.finRange 28))
    let second := deliveries (arrive (List.finRange 28).reverse ++ idle 28 377)
    (∃ whole W, Batch (env hub) b (links 28) whole W) ∧ (links 28).length ≤ maxArraySize ∧
      (Arrival.items (first.map Delivery.arrival)).Perm (links 28) ∧
      (Arrival.items (second.map Delivery.arrival)).Perm (links 28) ∧
      (run (Book.deliver (env hub)) b first).repeater.members = [] ∧
      (run (Book.deliver (env hub)) b second).repeater.members = [] ∧
      (link (wallet 8) 28).hash ∈ (run (Book.deliver (env hub)) b first).dag.graph.nodes ∧
      (link (wallet 8) 28).hash ∉ (run (Book.deliver (env hub)) b second).dag.graph.nodes := by
  obtain ⟨whole, hb⟩ := links_batch (n := 28) (by omega)
  obtain ⟨hempty, hmem⟩ := links_outcome (n := 28) (by omega) (arrive (List.finRange 28)) (by decide +kernel)
    (by decide +kernel) rfl
  obtain ⟨hempty', hmem'⟩ := links_outcome (n := 28) (by omega) (arrive (List.finRange 28).reverse ++ idle 28 377)
    (by decide +kernel) (by decide +kernel) rfl
  exact ⟨⟨_, _, hb⟩, by decide +kernel, links_items (by decide +kernel),
    links_items (by decide +kernel), hempty (by decide +kernel), hempty' (by decide +kernel),
    (hmem 27).mpr (by decide +kernel), (hmem' 27).not.mpr (by decide +kernel)⟩

open Transparent in
/-- The law at 27 links, in order and child first: one link fewer is within the retries. -/
theorem chain_kept :
    let b := (start 10).book
    let first := deliveries (arrive (List.finRange 27)) ++ deliveries (idle 27 0)
    let second := deliveries (arrive (List.finRange 27).reverse) ++ deliveries (idle 27 351)
    (run (Book.deliver (env hub)) b first).repeater.members = [] ∧
      (run (Book.deliver (env hub)) b second).repeater.members = [] ∧
      SameGraph (run (Book.deliver (env hub)) b first).dag (run (Book.deliver (env hub)) b second).dag := by
  obtain ⟨whole, hb⟩ := links_batch (n := 27) (by omega)
  obtain ⟨hempty, -⟩ := links_outcome (n := 27) (by omega) (arrive (List.finRange 27) ++ idle 27 0)
    (by decide +kernel) (by decide +kernel) rfl
  obtain ⟨hempty', -⟩ := links_outcome (n := 27) (by omega) (arrive (List.finRange 27).reverse ++ idle 27 351)
    (by decide +kernel) (by decide +kernel) rfl
  rw [deliveries_append] at hempty hempty'
  have hdone := hempty (by decide +kernel)
  have hdone' := hempty' (by decide +kernel)
  exact ⟨hdone, hdone', deliveries_agree hb hb (by decide +kernel) (links_rank (by omega))
    (links_schedule (by decide) (.refl _) (by omega)) (links_schedule (by decide) (List.reverse_perm _) (by omega))
    hdone hdone'⟩

end Computantis
