import Computantis.Laws.Forwarding
import Computantis.Schemes.Budget

/-! @law fading | name:Gossip dies out | family:measure | about:Model/Network

    A message costs its sender nothing to make, so one has to ask how many of them an item can cause. Each node
    that gets one sends at most one to each of its connections, and none of these bears fewer signatures of
    members than the one before and its own. So a message with `k` members missing is good for no more than
    `1 + d + … + d ^ k` deliveries with `d` connections each, whatever the flash memories forget, and what has
    been sent first pays for everything that comes of it.

        k members missing ──deliver──▶ ≤ d messages with k - 1 members missing -/

namespace Computantis

open Schemes

/-! ### How many messages one node sends -/

namespace GossipNode

section Sends

variable {env : ServerEnv} {c : GossipMeets} {g : GossipNode}

theorem others_length (set : Gossipers) : (g.others c set).length ≤ g.nodes.length :=
  (List.length_filter_le ..).trans (length_enumerate_le ..)

/-- A node keeps its connections, and sends no more messages than it has of them. -/
def Modest (g : GossipNode) (round : GossipNode × List Forward) : Prop :=
  round.1.nodes = g.nodes ∧ round.2.length ≤ g.nodes.length

theorem processVrx_nodes (p : ProtoVertex) : (g.processVrx env c p).1.nodes = g.nodes := by
  unfold processVrx
  repeat' split
  all_goals rfl

theorem processTrx_nodes (tx : ProtoTransaction) : (g.processTrx env c tx).1.nodes = g.nodes := by
  unfold processTrx
  repeat' split
  all_goals rfl

theorem modest_inProcess {hash : Bytes} {gs : List ProtoGossiper}
    {process : GossipNode → GossipNode × Except GossipError Unit} {wrap : List ProtoGossiper → GossipMsg}
    (hprocess : ∀ g : GossipNode, (process g).1.nodes = g.nodes) :
    g.Modest (g.inProcess (handler env c hash gs process wrap)) := by
  have hspread : ∀ g : GossipNode, (g.spread env c hash gs process wrap).1.nodes = g.nodes ∧
      (g.spread env c hash gs process wrap).2.1.length ≤ g.nodes.length := by
    intro g
    have hnodes := hprocess g
    unfold spread
    split
    · exact ⟨rfl, Nat.zero_le _⟩
    · split
      · exact ⟨rfl, Nat.zero_le _⟩
      · split
        · exact ⟨rfl, Nat.zero_le _⟩
        · split
          next heq =>
            rw [heq] at hnodes
            exact ⟨hnodes, Nat.zero_le _⟩
          next heq =>
            rw [heq] at hnodes
            refine ⟨hnodes, ?_⟩
            rw [List.length_map]
            exact (others_length _).trans (Nat.le_of_eq (congrArg List.length hnodes))
  have hhandler : (handler env c hash gs process wrap g).1.nodes = g.nodes ∧
      (handler env c hash gs process wrap g).2.1.length ≤ g.nodes.length := by
    unfold handler unlessSeen
    split
    · exact ⟨rfl, Nat.zero_le _⟩
    · exact hspread _
  unfold Modest inProcess
  split
  · exact ⟨rfl, Nat.zero_le _⟩
  · split
    next heq =>
      rw [heq] at hhandler
      exact ⟨hhandler.1, Nat.zero_le _⟩
    next heq =>
      rw [heq] at hhandler
      exact hhandler

theorem modest_receive (m : GossipMsg) : g.Modest (g.receive env c m) := by
  rcases m with ⟨_ | p, gs⟩ | ⟨_ | tx, gs⟩
  · rw [receive_empty rfl]
    exact ⟨rfl, Nat.zero_le _⟩
  · exact modest_inProcess fun _ => processVrx_nodes p
  · rw [receive_empty rfl]
    exact ⟨rfl, Nat.zero_le _⟩
  · exact modest_inProcess fun _ => processTrx_nodes tx

theorem modest_runVertexGossip (i : ℕ) : g.Modest (g.runVertexGossip env c i) := by
  unfold runVertexGossip Modest
  split
  · exact ⟨rfl, Nat.zero_le _⟩
  · split
    · exact ⟨rfl, Nat.zero_le _⟩
    · refine ⟨rfl, ?_⟩
      rw [List.length_map]
      exact others_length _

theorem modest_runTransactionGossip (i : ℕ) : g.Modest (g.runTransactionGossip env c i) := by
  unfold runTransactionGossip Modest
  split
  · exact ⟨rfl, Nat.zero_le _⟩
  · split
    · exact ⟨rfl, Nat.zero_le _⟩
    · split
      · exact ⟨rfl, Nat.zero_le _⟩
      · refine ⟨rfl, ?_⟩
        rw [List.length_map]
        exact others_length _

end Sends

end GossipNode

namespace Network

section Fading

variable (C : Cluster) (v : Verifier) (d : ℕ)

/-- The members whose signature a packet lacks. -/
def missing (p : Packet) : ℕ :=
  match p.msg.item with
  | none => 0
  | some item => (C.members \ item.verified v p.msg.gossipers).card

/-- What is put aside for the packets under way. -/
def putAside (n : Network) : ℕ := (n.transit.map fun p => cascade d (missing C v p)).sum

/-- Every member has at most `d` connections. -/
def Sparse (n : Network) : Prop := ∀ a ∈ C.members, (n.node a).nodes.length ≤ d

/-- New connections are as few. -/
def Event.Sparse : Event → Prop
  | .connect _ nodes => nodes.length ≤ d
  | _ => True

/-- The event takes a packet from the network. -/
def taken (n : Network) : Event → ℕ
  | .deliver i _ => if i < n.transit.length then 1 else 0
  | _ => 0

/-- The event is a round of a gossip process. -/
def Event.isSend : Event → Bool
  | .sendVrx .. => true
  | .sendTrx .. => true
  | _ => false

/-- Somebody from outside sends something. -/
def Event.isInject : Event → Bool
  | .inject .. => true
  | _ => false

variable {C v d} {n : Network} {a : Address} {round : GossipNode × List Forward}

theorem sparse_setNode (h : n.Sparse C d) {g : GossipNode} (hg : a ∈ C.members → g.nodes.length ≤ d) :
    (n.setNode a g).Sparse C d := by
  intro b hb
  rcases eq_or_ne b a with rfl | hba
  · simpa only [setNode, Function.update_self] using hg hb
  · simpa only [setNode, Function.update_of_ne hba] using h b hb

theorem sparse_modest (h : n.Sparse C d) (hmodest : (n.node a).Modest round) : (n.setNode a round.1).Sparse C d :=
  sparse_setNode h fun ha => (congrArg List.length hmodest.1).trans_le (h a ha)

theorem sparse_step (h : n.Sparse C d) {e : Event} (he : e.Sparse d) : (n.step C e).Sparse C d := by
  cases e with
  | serve a e => exact sparse_setNode h (h a)
  | tend a book => exact sparse_setNode h (h a)
  | connect a nodes => exact sparse_setNode h fun _ => he
  | restart a book => exact sparse_setNode h fun _ => Nat.zero_le d
  | sendVrx a i c =>
    rw [step]
    split
    · exact sparse_modest h (GossipNode.modest_runVertexGossip i)
    · exact h
  | sendTrx a i c =>
    rw [step]
    split
    · exact sparse_modest h (GossipNode.modest_runTransactionGossip i)
    · exact h
  | deliver i c =>
    rw [step, deliver]
    split
    next => exact h
    next p _ =>
      dsimp only
      split
      · exact h
      · split
        · exact sparse_modest h (GossipNode.modest_receive p.msg)
        · exact h
  | lose i => exact h
  | inject dest msg => exact h

theorem putAside_append (n : Network) (ps : List Packet) :
    putAside C v d { n with transit := n.transit ++ ps } =
      putAside C v d n + (ps.map fun p => cascade d (missing C v p)).sum := by
  rw [putAside, putAside, List.map_append, List.sum_append]

theorem length_le_putAside (n : Network) : n.transit.length ≤ putAside C v d n := by
  rw [putAside]
  generalize n.transit = ps
  induction ps with
  | nil => exact Nat.le_refl 0
  | cons p ps ih =>
    rw [List.length_cons, List.map_cons, List.sum_cons, Nat.add_comm]
    exact Nat.add_le_add (cascade_pos ..) ih

theorem putAside_erase {i : ℕ} {p : Packet} (hp : n.transit[i]? = some p) :
    putAside C v d { n with transit := n.transit.eraseIdx i } + cascade d (missing C v p) = putAside C v d n := by
  obtain ⟨hi, rfl⟩ := List.getElem?_eq_some_iff.mp hp
  have hperm := (List.getElem_cons_eraseIdx_perm hi).map fun p => cascade d (missing C v p)
  rw [putAside, putAside, ← hperm.sum_eq, List.map_cons, List.sum_cons, Nat.add_comm]

theorem putAside_originate (hC : C.Honest v) (h : n.Sparse C d) (ha : a ∈ C.members)
    (hmodest : (n.node a).Modest round)
    (hsends : ∀ f ∈ round.2, ∃ item k, (n.node a).Pending item ∧ Hash.ofSlice item.hash = .ok k ∧
      f.2.item = some item ∧ f.2.gossipers = [(C.env a).ledger.signer.gossiper k]) :
    putAside C v d (n.originate a round) ≤ putAside C v d n + d * cascade d (C.members.card - 1) := by
  have hput : putAside C v d (n.originate a round) = putAside C v d n +
      ((dispatch round.2 [⟨a, ∅⟩]).map fun p => cascade d (missing C v p)).sum :=
    putAside_append (n.setNode a round.1) _
  rw [hput]
  refine Nat.add_le_add_left (sum_cascade_le (missing C v) ?_ fun p hp => ?_) _
  · rw [dispatch, List.length_map]
    exact hmodest.2.trans (h a ha)
  · obtain ⟨f, hf, rfl⟩ := List.mem_map.mp hp
    obtain ⟨item, k, -, hk, hitem, hgs⟩ := hsends f hf
    have hmarks : item.verified v f.2.gossipers = {a} := by
      rw [hgs, ← hC.verifier a ha, verified_own (hC.signatures a ha) hk, hC.address a ha]
    simp only [missing, hitem, hmarks]
    rw [Finset.card_sdiff_of_subset (Finset.singleton_subset_iff.mpr ha), Finset.card_singleton]

theorem putAside_arrive (hC : C.Honest v) (h : n.Sparse C d) (c : GossipMeets) {p : Packet} {item : Item}
    (hitem : p.msg.item = some item) (hdest : p.dest ∈ C.members) :
    1 + putAside C v d (n.arrive C c p item) ≤ putAside C v d n + cascade d (missing C v p) := by
  have hput : putAside C v d (n.arrive C c p item) = putAside C v d n +
      ((dispatch ((n.node p.dest).receive (C.env p.dest) c p.msg).2
        (p.route ++ [⟨p.dest, item.verified (C.env p.dest).ledger.verifier p.msg.gossipers⟩])).map fun q =>
          cascade d (missing C v q)).sum :=
    putAside_append (n.setNode p.dest ((n.node p.dest).receive (C.env p.dest) c p.msg).1) _
  rw [hput, Nat.add_left_comm]
  refine Nat.add_le_add_left (sum_cascade_lt (missing C v) ?_ fun q hq => ?_) _
  · rw [dispatch, List.length_map]
    exact (GossipNode.modest_receive p.msg).2.trans (h p.dest hdest)
  · obtain ⟨f, hf, rfl⟩ := List.mem_map.mp hq
    obtain ⟨item', k, hitem', hk, hlong, hsigned, -, hfitem, hfgs⟩ := receive_sends hf
    obtain rfl : item = item' := Option.some.inj (hitem.symm.trans hitem')
    have hfresh : p.dest ∉ item.verified v p.msg.gossipers := by
      rw [← hC.verifier p.dest hdest]
      intro hmem
      obtain ⟨g, hg, hself, hverifies⟩ := (Item.mem_verified hk hlong).mp hmem
      exact hsigned ⟨g, hg, hself.trans (hC.address p.dest hdest).symm, hverifies⟩
    have hmarks : item.verified v f.2.gossipers = insert p.dest (item.verified v p.msg.gossipers) := by
      rw [hfgs, ← hC.verifier p.dest hdest, verified_passedOn (hC.signatures p.dest hdest) c hk hlong,
        hC.address p.dest hdest]
    simp only [missing, hfitem, hitem, hmarks]
    refine Finset.card_lt_card ((Finset.ssubset_iff_of_subset ?_).mpr ⟨p.dest, ?_, ?_⟩)
    · exact Finset.sdiff_subset_sdiff (Finset.Subset.refl _) (Finset.subset_insert ..)
    · exact Finset.mem_sdiff.mpr ⟨hdest, hfresh⟩
    · simp

/-- STEP: a delivery is paid for by what was put aside for its packet, and only what is sent first is given
    something. -/
theorem step_budget (hC : C.Honest v) (h : n.Sparse C d) (e : Event) :
    n.taken e + putAside C v d (n.step C e) ≤ putAside C v d n +
      ((if e.isSend then d * cascade d (C.members.card - 1) else 0) +
        if e.isInject then cascade d C.members.card else 0) := by
  cases e with
  | sendVrx a i c =>
    simp only [taken, Event.isSend, Event.isInject, if_true, Bool.false_eq_true, if_false, Nat.zero_add, Nat.add_zero]
    rw [step]
    split
    next ha =>
      exact putAside_originate hC h ha (GossipNode.modest_runVertexGossip i)
        (runVertexGossip_spec (C.env a) c (n.node a) i).2
    next => exact Nat.le_add_right ..
  | sendTrx a i c =>
    simp only [taken, Event.isSend, Event.isInject, if_true, Bool.false_eq_true, if_false, Nat.zero_add, Nat.add_zero]
    rw [step]
    split
    next ha =>
      exact putAside_originate hC h ha (GossipNode.modest_runTransactionGossip i)
        (runTransactionGossip_spec (C.env a) c (n.node a) i).2
    next => exact Nat.le_add_right ..
  | deliver i c =>
    simp only [taken, Event.isSend, Event.isInject, Bool.false_eq_true, if_false, Nat.add_zero]
    rw [step, deliver]
    cases hp : n.transit[i]? with
    | none =>
      have hi : ¬ i < n.transit.length := not_lt.mpr (List.getElem?_eq_none_iff.mp hp)
      rw [if_neg hi, Nat.zero_add]
    | some p =>
      obtain ⟨hi, -⟩ := List.getElem?_eq_some_iff.mp hp
      have herase := putAside_erase (C := C) (v := v) (d := d) hp
      have hpos := cascade_pos d (missing C v p)
      rw [if_pos hi]
      dsimp only
      split
      · omega
      next item hitem =>
        split
        next hdest =>
          have harrive := putAside_arrive (n := { n with transit := n.transit.eraseIdx i }) hC h c hitem hdest
          omega
        next => omega
  | lose i =>
    simp only [taken, Event.isSend, Event.isInject, Bool.false_eq_true, if_false, Nat.add_zero, Nat.zero_add]
    rw [step]
    cases hp : n.transit[i]? with
    | none => rw [List.eraseIdx_of_length_le (List.getElem?_eq_none_iff.mp hp)]
    | some p => exact Nat.le.intro (putAside_erase hp)
  | inject dest msg =>
    simp only [taken, Event.isSend, Event.isInject, Bool.false_eq_true, if_false, if_true, Nat.zero_add]
    rw [step, putAside_append, List.map_singleton, List.sum_singleton]
    refine Nat.add_le_add_left (cascade_mono d ?_) _
    rw [missing]
    split
    · exact Nat.zero_le _
    · exact Finset.card_le_card Finset.sdiff_subset
  | _ => simp [taken, step, setNode, putAside, Event.isSend, Event.isInject]

end Fading

end Network

/-- DIES OUT: in every run of honest nodes with at most `d` connections each, over connections that come and go,
    with messages delivered in any order or lost and flash memories that forget at any time, the messages that
    are delivered and those that are still under way are no more than `d + d ^ 2 + … + d ^ m` for every item that
    one of the `m` nodes sends first, and `1 + d + … + d ^ m` for every message from outside. -/
theorem gossip_dies_out {C : Cluster} {v : Verifier} (hC : C.Honest v) {d : ℕ} {n : Network}
    (hn : n.transit = []) (hsparse : n.Sparse C d) {es : List Network.Event} (hes : ∀ e ∈ es, e.Sparse d) :
    total (Network.step C) Network.taken n es + (run (Network.step C) n es).transit.length ≤
      es.countP Network.Event.isSend * (d * cascade d (C.members.card - 1)) +
        es.countP Network.Event.isInject * cascade d C.members.card := by
  have hrun : total (Network.step C) Network.taken n es + Network.putAside C v d (run (Network.step C) n es) ≤
      Network.putAside C v d n + total (Network.step C) (fun _ e =>
        (if e.isSend then d * cascade d (C.members.card - 1) else 0) +
          if e.isInject then cascade d C.members.card else 0) n es :=
    run_budget (I := fun (n : Network) => n.Sparse C d) (P := fun (e : Network.Event) => e.Sparse d)
      (fun _ _ he h => Network.sparse_step h he) (fun _ e _ h => Network.step_budget hC h e) hes hsparse
  have hstart : Network.putAside C v d n = 0 := by rw [Network.putAside, hn]; rfl
  have hway := Network.length_le_putAside (C := C) (v := v) (d := d) (run (Network.step C) n es)
  rw [total_add, total_eq_count Network.Event.isSend, total_eq_count Network.Event.isInject, hstart] at hrun
  omega

open Transparent in
/-- The law at a payment that goes round the ring: three deliveries of the fourteen that it is good for. -/
theorem ring_fades :
    total (Network.step ring) Network.taken ringStart ringEvents = 3 ∧
      total (Network.step ring) Network.taken ringStart ringEvents +
        (run (Network.step ring) ringStart ringEvents).transit.length ≤ 14 := by
  have hsparse : ringStart.Sparse ring 2 := by
    have hall : ∀ a ∈ ring.members, (ringStart.node a).nodes.length ≤ 2 := by decide +kernel
    exact hall
  have hes : ∀ e ∈ ringEvents, e.Sparse 2 := by simp [ringEvents, Network.Event.Sparse]
  have hlaw := gossip_dies_out ring_honest rfl hsparse hes
  have hbound : ringEvents.countP Network.Event.isSend * (2 * cascade 2 (ring.members.card - 1)) +
      ringEvents.countP Network.Event.isInject * cascade 2 ring.members.card = 14 := by decide +kernel
  exact ⟨by decide +kernel, hbound ▸ hlaw⟩

end Computantis
