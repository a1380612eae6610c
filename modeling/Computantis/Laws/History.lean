import Computantis.Laws.Spending
import Mathlib.Data.UInt

/-! @law history | name:Accepted history | family:temporal | about:Model/Node

    When the only child of an accepted vertex is rejected, the vertex is a leaf again and is validated
    again, now against counters that the rejected child has raised. A child that claims an enormous
    weight and has no funds is enough to lose the genesis vertex, and after it the next `CreateLeaf`
    dereferences a leaf that is not there (`genesis_deleted`).

    A second validation repeats what the first has seen: signatures, parents and past are the same.
    So accepted history is lost through nothing but the weight counters, a disturbed validation, or
    spice that adds up differently in different orders (`SafeStep`). -/

namespace Computantis

open Schemes

/-! ### Leaves that withstand a second validation -/

/-- Neither cancelled nor failing. -/
structure Probe.Undisturbed (p : Probe) : Prop where
  cancelAt : p.cancelAt = none
  trustedFails : p.trustedFails = false
  fundsFails : p.fundsFails = false

/-- What a validation once found: the signatures and, if spice moves, the funds. -/
structure Proven (env : Env) (g : Vertex) (b : Book) (v : Vertex) : Prop where
  verified : v.verify env.verifier = true
  funded : v.hash = g.hash ∨ v.transaction.isSpiceTransfer = false ∨ FundsPass env b v

section

variable {env : Env} {g v : Vertex} {b : Book} {W : ℕ} {e : Event}

theorem Proven.frame {b' : Book} (h : Proven env g b v) (hf : Frame b b')
    (hp : Digraph.SamePast b.dag.graph b'.dag.graph v.hash) : Proven env g b' v :=
  ⟨h.verified, h.funded.imp_right (Or.imp_right (·.frame hf hp))⟩

/-- The verdict of the funds check does not depend on the order of the walk. -/
def OrderFree (env : Env) (b : Book) (v : Vertex) : Prop :=
  ∀ ids ids', Enumerates b.dag v.hash ids → Enumerates b.dag v.hash ids' → FundsPassIn env b v ids →
    FundsPassIn env b v ids'

theorem OrderFree.frame {b' : Book} (h : OrderFree env b v) (hf : Frame b b')
    (hp : Digraph.SamePast b.dag.graph b'.dag.graph v.hash) : OrderFree env b' v := by
  intro ids ids' hids hids' hpass
  have hback : Frame b' b := ⟨hf.verticesDB.symm, hf.trustedNodesDB.symm, hf.genesisPublicAddress.symm,
    hf.dagLoaded.symm⟩
  have h1 := hids.samePast hp.symm
  have h2 := hids'.samePast hp.symm
  exact (h ids ids' h1 h2 (hpass.frame hback hp.symm hids)).frame hf hp h2

theorem isValidWeight_iff (b : Book) (w : UInt64) :
    b.isValidWeight w = true ↔ b.weight.toNat ≤ w.toNat + b.throughput.toNat := by
  unfold Book.isValidWeight
  split
  next h => exact iff_of_true rfl (by have := UInt64.lt_iff_toNat_lt.mp h; omega)
  next h =>
    have hle : b.throughput ≤ b.weight := UInt64.not_lt.mp h
    have := UInt64.le_iff_toNat_le.mp hle
    rw [decide_eq_true_iff, ge_iff_le, UInt64.le_iff_toNat_le, UInt64.toNat_sub_of_le _ _ hle]
    omega

theorem validateLeaf_proven {p : Probe} (hb : Validated env g b) (hv : b.dag.getVertex v.hash = some v)
    (hpr : Proven env g b v) (hweight : b.weight.toNat ≤ v.weight.toNat + b.throughput.toNat)
    (hcalm : v.hash = g.hash ∨ p.Undisturbed ∧
      (v.transaction.isSpiceTransfer = true → OrderFree env b v)) :
    b.validateLeaf env p v = .ok () := by
  have hmem : v.hash ∈ b.dag.graph.nodes := Dag.mem_nodes hv
  have hroot : b.dag.graph.isRoot v.hash = true ↔ v.hash = g.hash :=
    ⟨hb.closed.eq_of_isRoot hv, fun h => Digraph.isRoot_iff.mpr (h ▸ hb.closed.root)⟩
  unfold Book.validateLeaf
  rw [(isValidWeight_iff b v.weight).mpr hweight, hpr.verified, if_neg (by simp), if_neg (by simp),
    if_neg (not_not.mpr hmem)]
  by_cases hg : v.hash = g.hash
  · rw [if_pos (hroot.mpr hg)]
  · obtain ⟨hcalm, horder⟩ := hcalm.resolve_left hg
    have hpar := hb.closed.parents v.hash v hv hg
    have hl := (hpar v.leftParentHash).mpr (Or.inl rfl)
    have hr := (hpar v.rightParentHash).mpr (Or.inr rfl)
    rw [if_neg (mt hroot.mp hg)]
    simp only [Book.checkIsTrustedNode, hcalm.trustedFails, hb.untrusted, List.not_mem_nil, decide_false,
      Bool.false_eq_true, if_false, or_false]
    by_cases hs : v.transaction.isSpiceTransfer = false
    · have hl' : b.dag.getVertex v.leftParentHash ≠ none := fun h => Digraph.get_eq_none.mp h hl.left
      have hr' : b.dag.getVertex v.rightParentHash ≠ none := fun h => Digraph.get_eq_none.mp h hr.left
      rw [if_pos hs, if_neg hr', if_neg hl']
    · rw [if_neg hs]
      have hs' : v.transaction.isSpiceTransfer = true := by simpa using hs
      obtain ⟨ids, hids, hpass⟩ := (hpr.funded.resolve_left hg).resolve_left hs
      obtain ⟨start, pots, hopen, hfold, hcheck⟩ :=
        horder hs' ids _ hids (enumerates_walk b.dag v.hash p.order) hpass
      have hwalk : walkFunds env b.dag v none (arrange p.order (b.dag.graph.ancestors v.hash)) 0 []
          start = .ok pots := by
        refine walkFunds_calm.mpr ⟨fun id hid => ?_, hfold⟩
        have hanc := ((enumerates_walk b.dag v.hash p.order).mem id).mp hid
        obtain ⟨u, hu⟩ := Digraph.mem_nodes.mp hanc.left
        have hkey : u.hash = id := b.dag.keyed hu
        exact ⟨u, hu, fun _ => hb.verified u (hkey ▸ hu) (hkey ▸ hanc.hasChild)⟩
      simp only [Book.validateFunds, hcalm.fundsFails, hcalm.cancelAt, hopen, hwalk, hcheck]

/-! ### How far one step moves the counters -/

theorem updateWeight_throughput {w : UInt64} (h : b.throughput.toNat + b.dag.graph.leaves.length + 1 < 2 ^ 64) :
    (b.updateWeightAndThroughput w).throughput.toNat =
      b.throughput.toNat + b.dag.graph.leaves.length + 1 := by
  have hlen : (UInt64.ofNat b.dag.graph.leaves.length).toNat = b.dag.graph.leaves.length := by
    rw [UInt64.toNat_ofNat']; exact Nat.mod_eq_of_lt (by omega)
  simp only [Book.updateWeightAndThroughput, UInt64.toNat_add, hlen, UInt64.toNat_one]
  rw [Nat.mod_eq_of_lt (by omega), Nat.mod_eq_of_lt (by omega)]

theorem updateWeight_weight_le {w : UInt64} (hb : b.weight.toNat ≤ W) (hw : w.toNat ≤ W) :
    (b.updateWeightAndThroughput w).weight.toNat ≤ W := by
  simp only [Book.updateWeightAndThroughput]
  split
  · exact hw
  · exact hb

/-- Where a step stands that began in `b₀`: the weight counter is at most `W`, the throughput has only
    grown, and `n` more updates fit into the machine word. -/
structure Slack (b₀ : Book) (W n : ℕ) (b : Book) : Prop where
  remains : Remains b₀ b
  weight : b.weight.toNat ≤ W
  throughput : b₀.throughput.toNat ≤ b.throughput.toNat
  room : b.throughput.toNat + n * (b₀.dag.graph.nodes.keys.length + 1) < 2 ^ 64

namespace Slack

variable {b₀ b : Book} {W n : ℕ}

theorem leaves_le (h : Slack b₀ W n b) :
    b.dag.graph.leaves.length ≤ b₀.dag.graph.nodes.keys.length := by
  refine (List.subperm_of_subset b.dag.graph.leaves_nodup fun k hk => ?_).length_le
  obtain ⟨v, hv⟩ := Digraph.mem_nodes.mp (Digraph.mem_leaves.mp hk).1
  exact AList.mem_keys.mp (Dag.mem_nodes (h.remains.get hv))

theorem update (h : Slack b₀ W (n + 1) b) {w : UInt64} (hw : w.toNat ≤ W) :
    Slack b₀ W n (b.updateWeightAndThroughput w) := by
  have hleaves := h.leaves_le
  have hroom := h.room
  rw [Nat.succ_mul] at hroom
  have hthr := updateWeight_throughput (w := w) (show b.throughput.toNat + b.dag.graph.leaves.length + 1 < 2 ^ 64
    by omega)
  refine ⟨h.remains.trans (.of_dag_eq (frame_updateWeight _ _) rfl), updateWeight_weight_le h.weight hw, ?_, ?_⟩
  · rw [hthr]; have := h.throughput; omega
  · rw [hthr]; omega

theorem less (h : Slack b₀ W (n + 1) b) : Slack b₀ W n b :=
  ⟨h.remains, h.weight, h.throughput, by have := h.room; rw [Nat.succ_mul] at this; omega⟩

theorem discard (h : Slack b₀ W n b) {u : Vertex} (hu : IsLeafOf b u) (faults : Faults) :
    Slack b₀ W n (b.discard u faults) := by
  have hrem : Remains b (b.discard u faults) := .of_delete (frame_discard _ _ _) hu.2 (discard_dag _ _ _)
  have hcount : (b.discard u faults).weight = b.weight ∧
      (b.discard u faults).throughput = b.throughput := by
    unfold Book.discard Book.removeTrxInVertex
    split <;> exact ⟨rfl, rfl⟩
  refine ⟨h.remains.trans hrem, ?_, ?_, ?_⟩
  · rw [hcount.1]; exact h.weight
  · rw [hcount.2]; exact h.throughput
  · rw [hcount.2]; exact h.room

end Slack

/-- `v` passes its validation wherever the step stands, as long as `I` holds. -/
def Firm (env : Env) (I : Book → Prop) (b₀ : Book) (W : ℕ) (p : Probe) (v : Vertex) : Prop :=
  ∀ b n, Slack b₀ W n b → I b → b.dag.getVertex v.hash = some v → b.validateLeaf env p v = .ok ()

/-- `v` passes its validation wherever the step stands. -/
def Withstands (env : Env) (g : Vertex) (b₀ : Book) (W : ℕ) (p : Probe) (v : Vertex) : Prop :=
  Firm env (Validated env g) b₀ W p v

theorem withstands {b₀ : Book} {p : Probe} (hpr : Proven env g b₀ v) (hW : W ≤ v.weight.toNat + b₀.throughput.toNat)
    (hcalm : v.hash = g.hash ∨ p.Undisturbed ∧
      (v.transaction.isSpiceTransfer = true → OrderFree env b₀ v)) : Withstands env g b₀ W p v := by
  intro b n hs hb hv
  have hpast := hs.remains.past (Dag.mem_nodes hv)
  have hframe := hs.remains.frame
  refine validateLeaf_proven hb hv (hpr.frame hframe hpast) ?_ ?_
  · have h1 := hs.weight
    have h2 := hs.throughput
    omega
  · exact hcalm.imp_right fun ⟨hp, ho⟩ => ⟨hp, fun h => (ho h).frame hframe hpast⟩

/-! ### What withstands stays -/

section Keeps

variable {env : Env} {v : Vertex} {faults : Faults} {b₀ : Book} {W : ℕ} {I : Book → Prop}
  (hI : ∀ {b b' : Book}, Move env faults NoOrigin b b' → I b → I b')

include hI

theorem pickLeaves_keeps (probe : Hash → Probe) (hw : Firm env I b₀ W (probe v.hash) v)
    (todo : List Vertex) : ∀ (found : List Vertex) (err : Option Err) (b : Book),
      (todo.map Vertex.hash).Nodup → (∀ u ∈ todo, IsLeafOf b u ∧ u.weight.toNat ≤ W) →
      Slack b₀ W todo.length b → I b → b.dag.getVertex v.hash = some v →
      (Book.pickLeaves env probe faults todo found err b).1.dag.getVertex v.hash = some v := by
  induction todo with
  | nil => exact fun _ _ _ _ _ _ _ hv => hv
  | cons u todo ih =>
    intro found err b hnd htodo hs hb hv
    rw [List.map_cons, List.nodup_cons] at hnd
    obtain ⟨hu, huW⟩ := htodo u (List.mem_cons_self ..)
    rw [Book.pickLeaves]
    split
    · exact hv
    cases hval : b.validateLeaf env (probe u.hash) u with
    | ok _ => exact ih _ _ b hnd.2 (fun x hx => htodo x (List.mem_cons_of_mem _ hx)) hs.less hb hv
    | error e =>
      have hne : v.hash ≠ u.hash := by
        intro he
        cases hv.symm.trans (he ▸ hu.1)
        rw [hw b _ hs hb hv] at hval
        cases hval
      have hmove : Move env faults NoOrigin b ((b.discard u faults).updateWeightAndThroughput u.weight) :=
        .reject ((frame_discard _ _ _).trans (frame_updateWeight _ _)) hu.1 hu.2 hval
          (discard_dag _ _ _) (discard_trxs _ _ _)
      simp only
      split
      · exact hv
      refine ih _ _ _ hnd.2 (fun x hx => ?_) ((hs.discard hu faults).update huW) (hI hmove hb) ?_
      · obtain ⟨hx1, hx2⟩ := htodo x (List.mem_cons_of_mem _ hx)
        exact ⟨hx1.discard fun h => hnd.1 (h ▸ List.mem_map_of_mem hx), hx2⟩
      · rw [updateWeight_dag, getVertex_discard hne]; exact hv

theorem checkParents_keeps (m : Memory) (probe : Hash → Probe) (hashes : List Hash) :
    ∀ (acc : List Vertex) (b : Book), (v.hash ∈ hashes → Firm env I b₀ W (probe v.hash) v) →
      (∀ k ∈ hashes, ∀ u, b.dag.getVertex k = some u → ¬ b.dag.graph.HasChild k → u.weight.toNat ≤ W) →
      Slack b₀ W hashes.length b → I b → b.dag.getVertex v.hash = some v →
      (b.checkParents env m probe faults hashes acc).1.dag.getVertex v.hash = some v := by
  induction hashes with
  | nil => exact fun _ _ _ _ _ _ hv => hv
  | cons hash rest ih =>
    intro acc b hw hW hs hb hv
    have hw' : v.hash ∈ rest → Firm env I b₀ W (probe v.hash) v := fun h => hw (List.mem_cons_of_mem _ h)
    have hW' := fun k (hk : k ∈ rest) => hW k (List.mem_cons_of_mem _ hk)
    rw [Book.checkParents]
    cases hget : b.dag.getVertex hash with
    | none =>
      simp only
      cases b.repeater.insert m <;> exact hv
    | some u =>
      have hu : u.hash = hash := b.dag.keyed hget
      subst hu
      simp only
      split
      next hleaf =>
        have huW := hW _ (List.mem_cons_self ..) u hget (Digraph.isLeaf_iff.mp hleaf)
        cases hval : b.validateLeaf env (probe u.hash) u with
        | error e =>
          have hne : v.hash ≠ u.hash := by
            intro he
            cases hv.symm.trans (he ▸ hget)
            rw [hw (List.mem_cons_self ..) b _ hs hb hv] at hval
            cases hval
          simp only
          rw [getVertex_dismiss hne]; exact hv
        | ok _ =>
          have hmove : Move env faults NoOrigin b (b.updateWeightAndThroughput u.weight) :=
            .idle (frame_updateWeight _ _) rfl rfl
          exact ih _ _ hw' hW' (hs.update huW) (hI hmove hb) hv
      next => exact ih _ b hw' hW' hs.less hb hv

end Keeps

/-! ### A node with its history -/

/-- A node and the vertices that were the genesis vertex or have had a child. -/
structure History where
  node : Node
  accepted : List Vertex

namespace History

def step (env : Env) (h : History) (e : Event) : History :=
  let s := h.node.step env e
  ⟨s, h.accepted ++ s.book.dag.all.filter fun v => !s.book.dag.graph.isLeaf v.hash⟩

theorem run_node (env : Env) : ∀ (es : List Event) (h : History),
    (run (step env) h es).node = run (Node.step env) h.node es
  | [], _ => rfl
  | e :: es, h => run_node env es (h.step env e)

theorem accepted_mono (env : Env) : ∀ (es : List Event) (h : History), v ∈ h.accepted →
    v ∈ (run (step env) h es).accepted
  | [], _, hv => hv
  | e :: es, h, hv => accepted_mono env es (h.step env e) (List.mem_append_left _ hv)

end History

/-- The leaves that an event validates, -/
def Event.LooksAt : Event → Hash → Prop
  | .finishCreate .. => fun _ => True
  | .finishAdd m _ _ => fun k => k ∈ m.vrx.parentHashes
  | _ => fun _ => False

instance : (e : Event) → (k : Hash) → Decidable (e.LooksAt k)
  | .finishCreate .., _ => isTrue trivial
  | .finishAdd m _ _, k => inferInstanceAs (Decidable (k ∈ m.vrx.parentHashes))
  | .beginCreate .., _ | .beginAdd .., _ | .beginReplay .., _ | .tick, _ | .truncate .., _ =>
    isFalse id

/-- and what the validation of each meets. -/
def Event.probe : Event → Hash → Probe
  | .finishCreate _ first _ _ _ => first.probe
  | .finishAdd _ probe _ => probe
  | _ => fun _ => .calm []

/-- The counters stay within `W` whatever the event validates, and do not overflow. -/
structure Room (b : Book) (e : Event) (W : ℕ) : Prop where
  counter : b.weight.toNat ≤ W
  leaves : ∀ k ∈ b.dag.graph.leaves, e.LooksAt k → ∀ u ∈ b.dag.getVertex k, u.weight.toNat ≤ W
  updates : b.throughput.toNat +
    (b.dag.graph.leaves.length + 2) * (b.dag.graph.nodes.keys.length + 1) < 2 ^ 64

theorem Room.slack {n : ℕ} (h : Room b e W) (hn : n ≤ b.dag.graph.leaves.length + 2) : Slack b W n b := by
  refine ⟨.refl _, h.counter, le_rfl, lt_of_le_of_lt ?_ h.updates⟩
  exact Nat.add_le_add_left (Nat.mul_le_mul_right _ hn) _

theorem step_keeps {I : Book → Prop}
    (hI : ∀ {faults : Faults} {b b' : Book}, Move env faults NoOrigin b b' → I b → I b') {s : Node} (he : e.Ordinary)
    (hget : s.book.dag.getVertex v.hash = some v) (hb : I s.book)
    (h : e.LooksAt v.hash → Room s.book e W ∧ Firm env I s.book W (e.probe v.hash) v) :
    (s.step env e).book.dag.getVertex v.hash = some v := by
  have ht := s.step_takes env he
  generalize (s.step env e).book = b' at ht
  cases ht with
  | quiet _ hd _ => rw [hd]; exact hget
  | @create trx first second now faults _ =>
    obtain ⟨hroom, hfirm⟩ := h trivial
    obtain ⟨hnd, hsnap⟩ := leaves_snapshot s.book first.order
    refine createLeafLocked_getVertex env _ _ _ _ _ _ hget ?_
    refine pickLeaves_keeps hI first.probe hfirm _ [] none _ hnd (fun u hu => ⟨hsnap u hu, ?_⟩)
      (hroom.slack ?_) hb hget
    · exact hroom.leaves u.hash (hsnap u hu).mem_leaves trivial u (hsnap u hu).1
    · have h1 := List.length_filterMap_le s.book.dag.getVertex
        (enumerate first.order s.book.dag.graph.leaves)
      have h2 := (@enumerate_perm _ _ first.order _ s.book.dag.graph.leaves_nodup).length_eq
      omega
  | @add m probe faults _ =>
    refine addLeafLocked_getVertex env _ _ _ _ ?_
    by_cases hlook : v.hash ∈ m.vrx.parentHashes
    · obtain ⟨hroom, hfirm⟩ := h hlook
      refine checkParents_keeps hI m probe _ [] _ (fun _ => hfirm) (fun k hk u hu hkc => ?_)
        (hroom.slack (by simp [Vertex.parentHashes])) hb hget
      exact hroom.leaves k (Digraph.mem_leaves.mpr ⟨Dag.mem_nodes hu, hkc⟩) hk u hu
    · exact checkParents_getVertex m probe _ [] _ (fun h => absurd h hlook) hget

/-- CONDITION on an accepted leaf that the event validates: its weight makes up for the weight counter
    and for every leaf looked at, the throughput does not overflow, and unless it is the genesis vertex
    the validation is not disturbed and does not depend on the order of the walk. -/
structure SafeLeaf (env : Env) (g : Vertex) (b : Book) (e : Event) (v : Vertex) : Prop where
  counter : b.weight.toNat ≤ v.weight.toNat + b.throughput.toNat
  leaves : ∀ k ∈ b.dag.graph.leaves, e.LooksAt k → ∀ u ∈ b.dag.getVertex k,
    u.weight.toNat ≤ v.weight.toNat + b.throughput.toNat
  room : b.throughput.toNat +
    (b.dag.graph.leaves.length + 2) * (b.dag.graph.nodes.keys.length + 1) < 2 ^ 64
  calm : v.hash = g.hash ∨ (e.probe v.hash).Undisturbed ∧
    (v.transaction.isSpiceTransfer = true → OrderFree env b v)

/-- CONDITION: every accepted leaf that the event validates is safe. -/
def SafeStep (env : Env) (g : Vertex) (h : History) (e : Event) : Prop :=
  ∀ v ∈ h.accepted, v.hash ∈ h.node.book.dag.graph.leaves → e.LooksAt v.hash →
    SafeLeaf env g h.node.book e v

/-- INVARIANT: what was accepted is there, and proven. -/
def Kept (env : Env) (g : Vertex) (h : History) : Prop :=
  ∀ v ∈ h.accepted, h.node.book.dag.getVertex v.hash = some v ∧ Proven env g h.node.book v

theorem SafeStep.getVertex {h : History} (hsafe : SafeStep env g h e) (he : e.Ordinary) (hs : Sound env g h.node)
    (hv : v ∈ h.accepted) (hget : h.node.book.dag.getVertex v.hash = some v) (hpr : Proven env g h.node.book v) :
    (h.node.step env e).book.dag.getVertex v.hash = some v := by
  by_cases hc : h.node.book.dag.graph.HasChild v.hash
  · exact h.node.step_getVertex env he hc hget
  refine step_keeps (I := Validated env g) (W := v.weight.toNat + h.node.book.throughput.toNat)
    (fun hm hb => hb.move (fun _ _ _ h => h.elim) hm) he hget hs.validated fun hlook => ?_
  have hsl := hsafe v hv (IsLeafOf.mem_leaves ⟨hget, hc⟩) hlook
  exact ⟨⟨hsl.counter, hsl.leaves, hsl.room⟩, withstands hpr le_rfl hsl.calm⟩

theorem Kept.step (hz : NonzeroDigests env) {h : History} (hs : Sound env g h.node) (he : e.Ordinary)
    (hsafe : SafeStep env g h e) (hk : Kept env g h) :
    Kept env g (h.step env e) := by
  have hs' : Sound env g (h.node.step env e) := hs.step hz he
  intro v hv
  rcases List.mem_append.mp hv with hv | hv
  · obtain ⟨hget, hpr⟩ := hk v hv
    have hget' := hsafe.getVertex he hs hv hget hpr
    refine ⟨hget', hpr.frame (h.node.step_frame env he) (hs.closed.samePast hs'.closed ?_)⟩
    rintro x (rfl | hx)
    · exact hget'.trans hget.symm
    · obtain ⟨u, hu⟩ := Digraph.mem_nodes.mp hx.left
      exact (h.node.step_getVertex env he hx.hasChild hu).trans hu.symm
  · obtain ⟨hall, hchild⟩ := List.mem_filter.mp hv
    have hget := Dag.mem_all.mp hall
    have hc : (h.node.step env e).book.dag.graph.HasChild v.hash :=
      Digraph.isLeaf_eq_false.mp (by simpa using hchild)
    refine ⟨hget, hs'.validated.verified v hget hc, ?_⟩
    by_cases hg : v.hash = g.hash
    · exact Or.inl hg
    · cases hspice : v.transaction.isSpiceTransfer with
      | false => exact Or.inr (Or.inl rfl)
      | true => exact Or.inr (Or.inr (hs'.validated.funded v hget hc hg hspice))

end

/-- Whoever has a child has been accepted. -/
def Recorded (h : History) : Prop :=
  ∀ v, h.node.book.dag.getVertex v.hash = some v → h.node.book.dag.graph.HasChild v.hash → v ∈ h.accepted

theorem recorded_step (env : Env) (h : History) (e : Event) : Recorded (h.step env e) := by
  intro v hv hc
  have hleaf : (h.node.step env e).book.dag.graph.isLeaf v.hash = false := Digraph.isLeaf_eq_false.mpr hc
  exact List.mem_append_right _ (List.mem_filter.mpr ⟨Dag.mem_all.mpr hv, by simp [hleaf]⟩)

/-- IMMUTABLE HISTORY: along a run of safe steps, a vertex that is the genesis vertex or has a child at
    some point is there at every later point; the genesis vertex is there, so the graph is not empty
    and no `CreateLeaf` can miss its left leaf. -/
theorem accepted_history_immutable {env : Env} (hz : NonzeroDigests env) (ho : OwnSignatures env)
    {n : UInt64} {spec : Book.GenesisSpec} {s : Node} {g : Vertex}
    (h : Node.genesis env n spec = some (s, g)) {pre post : List Event}
    (hes : ∀ e ∈ pre ++ post, e.Ordinary)
    (hsafe : Along (History.step env) (SafeStep env g) ⟨s, [g]⟩ (pre ++ post)) :
    let before := (run (Node.step env) s pre).book
    let after := (run (Node.step env) s (pre ++ post)).book
    (∀ v, before.dag.getVertex v.hash = some v → v = g ∨ before.dag.graph.HasChild v.hash →
      after.dag.getVertex v.hash = some v) ∧
    after.dag.getVertex g.hash = some g ∧ after.dag.graph.nodes.keys ≠ [] ∧
    (∀ trx first second now faults,
      (after.createLeafLocked env trx first second now faults).2 ≠ .panicked) := by
  have hf := founded h
  obtain ⟨t, htrx, hnew⟩ := hf.made
  have hroot : s.book.dag.getVertex g.hash = some g := hf.grown.get_self
  have hverify : g.verify env.verifier = true := by
    rw [hnew]; exact ho.new _ _ _ _ (ho.trx htrx).1 (ho.trx htrx).2
  have hkept : Kept env g ⟨s, [g]⟩ := by
    intro v hv
    cases List.mem_singleton.mp hv
    exact ⟨hroot, hverify, Or.inl rfl⟩
  have hrun := run_invariant_along (I := fun h : History => Sound env g h.node ∧ Kept env g h)
    (P := fun h e => e.Ordinary ∧ SafeStep env g h e)
    (fun h e ⟨he, hp⟩ ⟨hs, hk⟩ => ⟨hs.step hz he, hk.step hz hs he hp⟩)
    ((along_of_forall hes _).and hsafe) ⟨sound_genesis hz h, hkept⟩
  have hrec : Recorded (run (History.step env) ⟨s, [g]⟩ pre) := by
    refine run_invariant (I := Recorded) (fun h e _ => recorded_step env h e) pre ?_
    intro v hv hc
    exact absurd ((hf.eq hv).1 ▸ hc) hf.grown.childless
  have hnode : (run (History.step env) ⟨s, [g]⟩ (pre ++ post)).node = run (Node.step env) s (pre ++ post) :=
    History.run_node env _ _
  have hpre : (run (History.step env) ⟨s, [g]⟩ pre).node = run (Node.step env) s pre :=
    History.run_node env _ _
  have hstay : ∀ v ∈ (run (History.step env) ⟨s, [g]⟩ pre).accepted,
      (run (Node.step env) s (pre ++ post)).book.dag.getVertex v.hash = some v := by
    intro v hv
    rw [← hnode]
    refine (hrun.2 v ?_).1
    rw [run_append]
    exact History.accepted_mono env post _ hv
  have hgenesis := hstay g (History.accepted_mono env pre _ (List.mem_cons_self ..))
  have hmem := Dag.mem_nodes hgenesis
  refine ⟨?_, hgenesis, List.ne_nil_of_mem (AList.mem_keys.mp hmem), ?_⟩
  · rintro v hv (rfl | hc)
    · exact hgenesis
    · exact hstay v (hrec v (hpre ▸ hv) (hpre ▸ hc))
  · intro trx first second now faults
    exact createLeafLocked_ne_panicked env faults _ trx first second now hmem

/-! ### Losing the genesis vertex -/

namespace Transparent

/-- A transfer without funds, below the genesis vertex, of the given weight. -/
def unfunded (weight : UInt64) : Vertex :=
  sealed (trx (wallet 9) (wallet 8) ⟨4, 0⟩ [] 3) (root 10) (root 10) weight 4

/-- The transfer arrives, and two vertices are made. -/
def rejectEvents (weight : UInt64) : List Event :=
  addEvents (unfunded weight) ++ createEvents (trx (wallet 7) (wallet 8) ⟨1, 0⟩ [] 5) 6 ++
    createEvents (trx (wallet 7) (wallet 8) ⟨2, 0⟩ [] 7) 8

end Transparent

open Transparent in
/-- BUG: with a transfer of an enormous weight the first `CreateLeaf` rejects the transfer and raises
    the weight counter, the second rejects the genesis vertex, and the third panics. -/
theorem genesis_deleted :
    let t := run (Node.step (env hub)) (start 10) (rejectEvents (2 ^ 63))
    (∀ e ∈ rejectEvents (2 ^ 63), e.Ordinary) ∧ (unfunded (2 ^ 63)).verify verifier = true ∧
      (start 10).book.dag.getVertex (root 10).hash = some (root 10) ∧
      t.book.dag.getVertex (root 10).hash = none ∧ t.book.dag.graph.nodes.keys = [] ∧
      (t.book.createLeafLocked (env hub) (trx (wallet 7) (wallet 8) ⟨3, 0⟩ [] 9)
        ⟨[], fun _ => .calm []⟩ ⟨[], fun _ => .calm []⟩ 10 .none).2 = .panicked := by
  refine ⟨by simp [rejectEvents, addEvents, createEvents, Event.Ordinary], ?_⟩
  decide +kernel

open Transparent in
/-- The law at the same run with a transfer of an honest weight: it is rejected, the genesis vertex is
    validated again and stays. -/
theorem genesis_stays :
    let t := run (Node.step (env hub)) (start 10) (rejectEvents 1)
    t.book.dag.getVertex (unfunded 1).hash = none ∧
      t.book.dag.getVertex (root 10).hash = some (root 10) ∧ t.book.dag.graph.nodes.keys.length = 2 := by
  have hes : ∀ e ∈ rejectEvents 1 ++ [], e.Ordinary := by
    simp [rejectEvents, addEvents, createEvents, Event.Ordinary]
  -- the only accepted leaf that is ever validated is the genesis vertex
  have hrun : Along (History.step (env hub)) (fun h e => ∀ v ∈ h.accepted,
        v.hash ∈ h.node.book.dag.graph.leaves → e.LooksAt v.hash → v.hash = (root 10).hash ∧
        h.node.book.weight.toNat ≤ v.weight.toNat + h.node.book.throughput.toNat ∧
        (∀ k ∈ h.node.book.dag.graph.leaves, e.LooksAt k → ∀ u ∈ h.node.book.dag.getVertex k,
          u.weight.toNat ≤ v.weight.toNat + h.node.book.throughput.toNat) ∧
        h.node.book.throughput.toNat + (h.node.book.dag.graph.leaves.length + 2) *
          (h.node.book.dag.graph.nodes.keys.length + 1) < 2 ^ 64)
        ⟨start 10, [root 10]⟩ (rejectEvents 1 ++ []) ∧
      (run (Node.step (env hub)) (start 10) (rejectEvents 1)).book.dag.getVertex (unfunded 1).hash = none ∧
      (run (Node.step (env hub)) (start 10) (rejectEvents 1)).book.dag.graph.nodes.keys.length = 2 := by
    decide +kernel
  obtain ⟨halong, hgone, hlen⟩ := hrun
  have hsafe : Along (History.step (env hub)) (SafeStep (env hub) (root 10)) ⟨start 10, [root 10]⟩
      (rejectEvents 1 ++ []) := by
    refine Along.mono (fun h e hP v hv hl hlook => ?_) halong
    obtain ⟨hg, hc, hls, hr⟩ := hP v hv hl hlook
    exact ⟨hc, hls, hr, Or.inl hg⟩
  obtain ⟨-, hstay, -, -⟩ := accepted_history_immutable (nonzeroDigests hub) (ownSignatures hub)
    (genesis_start 10) hes hsafe
  rw [List.append_nil] at hstay
  exact ⟨hgone, hstay, hlen⟩

end Computantis
