import Computantis.Laws.Completeness
import Computantis.Laws.Streaming

/-! @law agreement | name:Nodes agree on the past | family:safety | about:Model/Federation

    The seal of a vertex covers the hashes of its parents. So without collisions two nodes that hold a
    vertex of the same hash have the same past for it, whatever each of them has been through. And since a
    node keeps one vertex per transaction, branches that seal one transaction in two vertices never meet.

    A node that joins ends with the graph of the other, as long as each vertex gets through in
    `totalRetries` tries. -/

namespace Computantis

open Schemes

theorem edgeParents_congr {v w : Vertex} (h : v.initData = w.initData) : edgeParents v = edgeParents w := by
  obtain ⟨-, hl, hr, -⟩ := Vertex.initData_inj h
  rw [edgeParents, edgeParents, Vertex.parentHashes, Vertex.parentHashes, hl, hr]

theorem SealedIn.initData_eq {digest : Bytes → Hash} {M : Set Bytes} (hinj : Set.InjOn digest M) {u v : Vertex}
    (hu : SealedIn digest M u) (hv : SealedIn digest M v) (h : u.hash = v.hash) : u.initData = v.initData :=
  hinj hu.1 hv.1 (hu.2 ▸ hv.2 ▸ h)

/-! ### Two members -/

section Members

variable {fed : Federation} {digest : Bytes → Hash} {M : Set Bytes} {signer signer' : Signer} {g g' : Vertex}
  {s s' : Node}

theorem Settled.initData_eq (hd : fed.Hashes digest M) (hs : Settled fed digest M signer g s)
    (hs' : Settled fed digest M signer' g' s') {v w : Vertex} (hv : Held fed.codec s.book v)
    (hw : Held fed.codec s'.book w) (h : v.hash = w.hash) : v.initData = w.initData :=
  (hs.shelved.sealed v hv).initData_eq hd.injective (hs'.shelved.sealed w hw) h

theorem Settled.past_of_past (hd : fed.Hashes digest M) (hs : Settled fed digest M signer g s)
    (hs' : Settled fed digest M signer' g' s') {x k : Hash} (hx : s.book.Past fed.codec x k) :
    ∀ w, Held fed.codec s'.book w → w.hash = k → s'.book.Past fed.codec x k := by
  -- backwards from the common vertex: its parents are declared alike, so they are common as well
  induction hx with
  | single hp =>
    obtain ⟨v, hv, rfl, hmem⟩ := hp
    intro w hw hwv
    have hdata := hs.initData_eq hd hs' hv hw hwv.symm
    exact .single ⟨w, hw, hwv, edgeParents_congr hdata ▸ hmem⟩
  | tail _ hp ih =>
    obtain ⟨v, hv, rfl, hmem⟩ := hp
    intro w hw hwv
    have hdata := hs.initData_eq hd hs' hv hw hwv.symm
    have hmem' := edgeParents_congr hdata ▸ hmem
    obtain ⟨u, hu, huhash⟩ := hs'.complete.parents w hw _ hmem'
    exact (ih u hu huhash).tail ⟨w, hw, hwv, hmem'⟩

/-- NODES AGREE ON THE PAST: whatever two nodes have been through, if both hold a vertex of the same hash,
    then they have the same genesis vertex and the same past for it, and both read, for that hash and every
    hash of the past, vertices with the same transaction hash, parents, weight and time. -/
theorem pasts_agree (hc : fed.codec.Faithful) (hd : fed.Hashes digest M) (h : fed.Sound M signer g s)
    (h' : fed.Sound M signer' g' s') {v w : Vertex} (hv : Held fed.codec s.book v)
    (hw : Held fed.codec s'.book w) (hhash : v.hash = w.hash) :
    g.hash = g'.hash ∧
    (∀ x, s.book.Past fed.codec x v.hash ↔ s'.book.Past fed.codec x v.hash) ∧
    ∀ x, x = v.hash ∨ s.book.Past fed.codec x v.hash → ∃ u u',
      s.book.readVertex fed.codec x false = .ok u ∧ s'.book.readVertex fed.codec x false = .ok u' ∧
        u.transaction.hash = u'.transaction.hash ∧ u.leftParentHash = u'.leftParentHash ∧
        u.rightParentHash = u'.rightParentHash ∧ unixNano u.createdAt = unixNano u'.createdAt ∧
        u.weight = u'.weight := by
  have hs := h.settled hc hd
  have hs' := h'.settled hc hd
  have hpast : ∀ x, s.book.Past fed.codec x v.hash ↔ s'.book.Past fed.codec x v.hash := fun x =>
    ⟨fun hx => hs.past_of_past hd hs' hx w hw hhash.symm, fun hx => hs'.past_of_past hd hs hx v hv rfl⟩
  -- what one member holds in the past of the vertex, the other holds too
  have hcommon : ∀ u, Held fed.codec s.book u → u.hash = v.hash ∨ s.book.Past fed.codec u.hash v.hash →
      ∃ u', Held fed.codec s'.book u' ∧ u'.hash = u.hash := by
    rintro u hu (heq | hx)
    · exact ⟨w, hw, hhash.symm.trans heq.symm⟩
    · exact hs'.complete.past_held ((hpast _).mp hx)
  refine ⟨?_, hpast, fun x hx => ?_⟩
  · obtain ⟨r, hr, hnil, hvr⟩ := hs.complete.exists_root hv
    obtain ⟨r', hr', hrr⟩ := hcommon r hr (hvr.imp_left fun heq => congrArg Vertex.hash heq.symm)
    have hdata := hs.initData_eq hd hs' hr hr' hrr.symm
    rw [← hs.complete.root r hr hnil, ← hrr]
    exact hs'.complete.root r' hr' (edgeParents_congr hdata ▸ hnil)
  · obtain ⟨u, hu, rfl⟩ : ∃ u, Held fed.codec s.book u ∧ u.hash = x := by
      rcases hx with rfl | hx
      · exact ⟨v, hv, rfl⟩
      · exact hs.complete.past_held hx
    obtain ⟨u', hu', huu⟩ := hcommon u hu hx
    have hread' := hs'.read hu'
    rw [huu] at hread'
    exact ⟨u, u', hs.read hu, hread', Vertex.initData_inj (hs.initData_eq hd hs' hu hu' huu.symm)⟩

end Members

namespace Transparent

/-- One payment, and the vertex that the node at `a` seals it in below the genesis vertex. -/
def contested : Transaction := trx (wallet 7) (wallet 8) ⟨4, 0⟩ [] 3

def paidAt (a : Address) (now : Time) : Vertex := Book.tip (env a) contested (root 10) (root 10) now

/-- The founder with its vertex for the payment. -/
def founder : Node := run (Node.step (env hub)) (start 10) (createEvents contested 6)

/-- Every second send fails. -/
def everySecond (n : ℕ) : Bool := n % 2 == 0

/-- The stream of a node as it arrives then. -/
def arriving (s : Node) : List (Option Vertex) :=
  receiveDag ((serveDag everySecond 0 (s.book.dag.stream ⟨[], fun _ => [], none⟩)).1.take 9)

/-- A node that loads it. -/
def joiner (s : Node) : Node := ⟨((newAccountingBook 0).loadDag ⟨[], [], fun _ => false⟩ (arriving s)).1, []⟩

/-- The messages under the seals of the two nodes. -/
def paidMessages : List Bytes := [(root 10).initData, (paidAt hub 6).initData, (paidAt peer 7).initData]

theorem hashes_paid : fed.Hashes digest {m | m ∈ paidMessages} := by
  have h : ∀ m ∈ paidMessages, ∀ n ∈ paidMessages, digest m = digest n → m = n := by decide +kernel
  exact hashes_of_injOn fun m hm n hn => h m hm n hn

theorem soundCall_create {a : Address} {now : Time} {s : Node} {M : Set Bytes}
    (hone : ∀ v, s.book.dag.getVertex v.hash = some v → v = root 10) (hM : (paidAt a now).initData ∈ M) :
    Along (Node.step (env a)) (SoundCall M (env a)) s (createEvents contested now) := by
  refine ⟨⟨fun _ _ _ ho => ho.elim, trivial⟩, ⟨fun leaf l r ho => ?_, trivial⟩, trivial⟩
  have hbook : (s.step (env a) (.beginCreate contested .none)).book = s.book := by
    simp only [Node.step, Node.beginCreate]
    split <;> rfl
  obtain ⟨-, rfl, hl, hr⟩ := ho
  rw [IsLeafOf, hbook] at hl hr
  rw [hone l hl.1, hone r hr.1]
  exact hM

theorem signer_mem (a : Address) : signer a ∈ fed.signers := ⟨a, rfl⟩

theorem sound_start : fed.Sound {m | m ∈ paidMessages} (signer hub) (root 10) (start 10) :=
  .founded (signer_mem hub) (genesis_start 10) (List.mem_cons_self ..)

theorem sound_founder : fed.Sound {m | m ∈ paidMessages} (signer hub) (root 10) founder := by
  refine Member.run sound_start (soundCall_create (fun v hv => ?_) ?_)
  · exact ((founded (genesis_start 10)).eq hv).2
  · exact List.mem_cons_of_mem _ (List.mem_cons_self ..)

theorem joiner_eq {s : Node}
    (hload : ((newAccountingBook 0).loadDag ⟨[], [], fun _ => false⟩ (arriving s)).2 = none) :
    (newAccountingBook 0).loadDag ⟨[], [], fun _ => false⟩ (arriving s) = ((joiner s).book, none) := by
  rw [joiner, ← hload]

theorem sound_joiner {s : Node} (h : fed.Sound {m | m ∈ paidMessages} (signer hub) (root 10) s)
    (hload : ((newAccountingBook 0).loadDag ⟨[], [], fun _ => false⟩ (arriving s)).2 = none) :
    fed.Sound {m | m ∈ paidMessages} (signer peer) (root 10) (joiner s) := by
  have hbook := joiner_eq hload
  rw [arriving] at hbook
  exact .joined (signer_mem peer) h ⟨[], fun _ => [], none⟩ everySecond 9 hbook

end Transparent

open Transparent in
/-- The law at a node that has joined the founder: both have the genesis vertex as the past of the payment. -/
theorem joined_past_agrees :
    (joiner founder).book.dag.getVertex (paidAt hub 6).hash = some (paidAt hub 6) ∧
      founder.book.Past codec (root 10).hash (paidAt hub 6).hash ∧
      (joiner founder).book.Past codec (root 10).hash (paidAt hub 6).hash := by
  have hget : founder.book.dag.getVertex (paidAt hub 6).hash = some (paidAt hub 6) := by decide +kernel
  have hget' : (joiner founder).book.dag.getVertex (paidAt hub 6).hash = some (paidAt hub 6) := by decide +kernel
  have hparent : founder.book.Past codec (root 10).hash (paidAt hub 6).hash :=
    .single ⟨_, Or.inl hget, rfl, by decide +kernel⟩
  obtain ⟨-, hpast, -⟩ := pasts_agree codec_faithful hashes_paid sound_founder
    (sound_joiner sound_founder (by decide +kernel)) (Or.inl hget) (Or.inl hget') rfl
  exact ⟨hget', hparent, (hpast (root 10).hash).mp hparent⟩

section Members

variable {fed : Federation} {digest : Bytes → Hash} {M : Set Bytes} {signer signer' : Signer} {g g' : Vertex}
  {s s' : Node}

theorem Settled.holds_past (hd : fed.Hashes digest M) (hs : Settled fed digest M signer g s)
    (hs' : Settled fed digest M signer' g' s') {v x u : Vertex} (hv : Held fed.codec s.book v)
    (hvx : v.hash = x.hash ∨ s.book.Past fed.codec v.hash x.hash) (hu : Held fed.codec s'.book u)
    (hux : u.hash = x.hash) :
    ∃ v', Held fed.codec s'.book v' ∧ v'.hash = v.hash ∧ v'.transaction.hash = v.transaction.hash := by
  obtain ⟨v', hv', hvv⟩ : ∃ v', Held fed.codec s'.book v' ∧ v'.hash = v.hash := by
    rcases hvx with heq | hpast
    · exact ⟨u, hu, hux.trans heq.symm⟩
    · exact hs'.complete.past_held (hs.past_of_past hd hs' hpast u hu hux)
  exact ⟨v', hv', hvv, (Vertex.initData_inj (hs'.initData_eq hd hs hv' hv hvv)).1⟩

/-- FORKS NEVER MEET: if one transaction is sealed in two different vertices, one in the past of `x` at some
    node and one in the past of `y` at another, then no node ever holds `x` and `y`. -/
theorem forks_never_meet {signer'' : Signer} {g'' : Vertex} {s'' : Node} (hc : fed.codec.Faithful)
    (hd : fed.Hashes digest M) (h : fed.Sound M signer g s) (h' : fed.Sound M signer' g' s')
    (h'' : fed.Sound M signer'' g'' s'') {v w x y : Vertex} (hv : Held fed.codec s.book v)
    (hvx : v.hash = x.hash ∨ s.book.Past fed.codec v.hash x.hash) (hw : Held fed.codec s'.book w)
    (hwy : w.hash = y.hash ∨ s'.book.Past fed.codec w.hash y.hash)
    (htrx : v.transaction.hash = w.transaction.hash) (hne : v.hash ≠ w.hash) :
    ¬ ((∃ u, Held fed.codec s''.book u ∧ u.hash = x.hash) ∧ ∃ u, Held fed.codec s''.book u ∧ u.hash = y.hash) := by
  rintro ⟨⟨ux, hux, hx⟩, uy, huy, hy⟩
  have hs'' := h''.settled hc hd
  obtain ⟨v', hv', hvv, hvt⟩ := (h.settled hc hd).holds_past hd hs'' hv hvx hux hx
  obtain ⟨w', hw', hww, hwt⟩ := (h'.settled hc hd).holds_past hd hs'' hw hwy huy hy
  -- a node keeps one vertex per transaction
  have heq := hs''.shelved.unique hv' hw' (hvt.trans (htrx.trans hwt.symm))
  exact hne (hvv.symm.trans (heq ▸ hww))

end Members

namespace Transparent

/-- A node that has joined the founder before it sealed the payment, and seals the payment itself. -/
def rival : Node := run (Node.step (env peer)) (joiner (start 10)) (createEvents contested 7)

theorem sound_rival : fed.Sound {m | m ∈ paidMessages} (signer peer) (root 10) rival := by
  have hload : ((newAccountingBook 0).loadDag ⟨[], [], fun _ => false⟩ (arriving (start 10))).2 = none := by
    decide +kernel
  refine Member.run (sound_joiner sound_start hload) (soundCall_create (fun v hv => ?_) ?_)
  · have hget := (loadDag_getVertex (joiner_eq hload) v.hash v).mp hv
    rw [newAccountingBook_getVertex] at hget
    have hone : delivered (arriving (start 10)) = [root 10] := by decide +kernel
    obtain ⟨hmem, -⟩ := hget.resolve_left (by simp)
    exact List.mem_singleton.mp (hone ▸ hmem)
  · exact List.mem_cons_of_mem _ (List.mem_cons_of_mem _ (List.mem_cons_self ..))

end Transparent

open Transparent in
/-- The law at two nodes that have sealed the same payment: the founder does not hold the rival's vertex. -/
theorem rivals_never_meet :
    founder.book.dag.getVertex (paidAt hub 6).hash = some (paidAt hub 6) ∧
      rival.book.dag.getVertex (paidAt peer 7).hash = some (paidAt peer 7) ∧
      ¬ ∃ u, Held codec founder.book u ∧ u.hash = (paidAt peer 7).hash := by
  have hget : founder.book.dag.getVertex (paidAt hub 6).hash = some (paidAt hub 6) := by decide +kernel
  have hget' : rival.book.dag.getVertex (paidAt peer 7).hash = some (paidAt peer 7) := by decide +kernel
  have hapart := forks_never_meet codec_faithful hashes_paid sound_founder sound_rival sound_founder
    (Or.inl hget) (Or.inl rfl) (Or.inl hget') (Or.inl rfl) rfl (by decide +kernel)
  exact ⟨hget, hget', fun hheld => hapart ⟨⟨_, Or.inl hget, rfl⟩, hheld⟩⟩

/-! ### Joining over a flaky connection -/

/-- A FLAKY CONNECTION DOES NOT HARM: from every state that ordinary events reach from the genesis, whatever the
    orders of enumeration, if never `totalRetries` sends in a row fail and all times fit the wire, then
    `LoadDag` returns no error, and a new node that loads what arrives has the same vertices, the same edges
    and the same genesis address. -/
theorem flaky_join {env : Env} (hz : NonzeroDigests env) {n : UInt64} {spec : Book.GenesisSpec} {s : Node}
    {g : Vertex} (h : Node.genesis env n spec = some (s, g)) (hempty : g.transaction.isEmpty = false)
    {es : List Event} (hes : ∀ e ∈ es, e.Ordinary) (sched : StreamSchedule) (hcalm : sched.cancelAt = none)
    {fails : ℕ → Bool} (hretry : ∀ k, ∃ i < totalRetries, fails (k + i) = false) (m : UInt64) (load : LoadSchedule)
    (hstores : ∀ k, load.saveFails k = false) :
    let b := (run (Node.step env) s es).book
    b.dag.graph.nodes.keys ≠ [] → (∀ v, b.dag.getVertex v.hash = some v → v.wired = v) →
    let served := serveDag fails 0 (b.dag.stream sched)
    served.2 = false ∧ ∃ b', (newAccountingBook m).loadDag load (receiveDag served.1) = (b', none) ∧
      (∀ k, b'.dag.getVertex k = b.dag.getVertex k) ∧ (∀ x y, b'.dag.graph.Arc x y ↔ b.dag.graph.Arc x y) ∧
      b'.genesisPublicAddress = b.genesisPublicAddress ∧ b'.dagLoaded = true := by
  intro b hdag hwire served
  obtain ⟨hs, haddr⟩ := streamable_run hz h hempty hes
  obtain ⟨-, hperm⟩ := stream_perm (d := b.dag) hcalm
  have hserved : served = ((b.dag.stream sched).map mapAccountantVertexToProtoVertex, false) :=
    serveDag_all hretry _ 0
  have hsame : (b.dag.stream sched).map Vertex.wired = b.dag.stream sched := by
    conv_rhs => rw [← List.map_id (b.dag.stream sched)]
    exact List.map_congr_left fun v hv => hwire v (mem_stream hv)
  have hout : b.dag.stream sched ≠ [] := by
    obtain ⟨k, hk⟩ := List.exists_mem_of_ne_nil _ hdag
    obtain ⟨v, hv⟩ : ∃ v, b.dag.getVertex k = some v := Digraph.mem_nodes.mp (AList.mem_keys.mpr hk)
    have hkey : v.hash = k := b.dag.keyed hv
    exact List.ne_nil_of_mem (hperm.mem_iff.mpr (Dag.mem_all.mpr (hkey ▸ hv)))
  obtain ⟨b', hload, hget, harc, ha, hl, -⟩ := loadDag_spec hs hperm hout m hstores
  rw [hserved, receiveDag_map, hsame]
  exact ⟨rfl, b', hload, hget, harc, ha.trans haddr.symm, hl⟩

open Transparent in
/-- The law at a fork of four vertices when every second send fails. -/
theorem fork_joined_flakily :
    let b := (run (Node.step (env hub)) (start 10) forkEvents).book
    let served := serveDag everySecond 0 (b.dag.stream ⟨[], fun _ => [], none⟩)
    served.1.length = 4 ∧ ∃ b', (newAccountingBook 0).loadDag ⟨[], [], fun _ => false⟩ (receiveDag served.1) =
      (b', none) ∧ ∀ k, b'.dag.getVertex k = b.dag.getVertex k := by
  have hes : ∀ e ∈ forkEvents, e.Ordinary := by
    simp [forkEvents, addEvents, createEvents, Event.Ordinary]
  have hretry : ∀ k, ∃ i < totalRetries, everySecond (k + i) = false := fun k => by
    rcases Nat.mod_two_eq_zero_or_one k with hk | hk
    · exact ⟨1, by decide, by simp [everySecond, Nat.add_mod, hk]⟩
    · exact ⟨0, by decide, by simp [everySecond, hk]⟩
  obtain ⟨hlen, hdag, hwire⟩ :
      (serveDag everySecond 0 ((run (Node.step (env hub)) (start 10) forkEvents).book.dag.stream
        ⟨[], fun _ => [], none⟩)).1.length = 4 ∧
      (run (Node.step (env hub)) (start 10) forkEvents).book.dag.graph.nodes.keys ≠ [] ∧
      ∀ v ∈ (run (Node.step (env hub)) (start 10) forkEvents).book.dag.all, v.wired = v := by
    decide +kernel
  obtain ⟨-, b', hload, hget, -⟩ := flaky_join (nonzeroDigests hub) (genesis_start 10) (by decide +kernel) hes
    ⟨[], fun _ => [], none⟩ rfl hretry 0 ⟨[], [], fun _ => false⟩ (fun _ => rfl) hdag
    (fun v hv => hwire v (Dag.mem_all.mpr hv))
  exact ⟨hlen, b', hload, hget⟩

end Computantis
