import Computantis.Laws.Cut
import Computantis.Laws.Validated

/-! @law admission | name:What gets past the guards | family:invariant | about:Model/Node

    The guards of `CreateLeaf` and `AddLeaf` run before the lock is taken, and a parked vertex comes
    back without passing them again. What they refuse still never gets in: pending calls and parked
    vertices have passed them, and so has every vertex of the graph but the genesis vertex.

    The guards keep the genesis wallet from issuing and a wallet from sealing its own transactions. No
    guard looks at the receiver, so the genesis wallet can be paid. -/

namespace Computantis

open Schemes

/-- The transaction moves spice or carries data, and its issuer is not the node that seals it. -/
structure Proper (sealer : Address) (t : Transaction) : Prop where
  nonempty : t.isEmpty = false
  foreign : t.issuerAddress ≠ sealer

/-! ### Who writes the replier -/

section Repeater

variable {env : Env} {faults : Faults} (b : Book)

theorem removeTrx_repeater (h : Hash) (fails : Bool) : (b.removeTrxInVertex h fails).repeater = b.repeater := by
  unfold Book.removeTrxInVertex; split <;> rfl

theorem discard_repeater (v : Vertex) : (b.discard v faults).repeater = b.repeater := by
  rw [Book.discard, removeTrx_repeater]

theorem dismiss_repeater (v : Vertex) (e : Err) : (b.dismiss v e faults).repeater = b.repeater := by
  unfold Book.dismiss
  split
  · rfl
  · exact discard_repeater b v

theorem insertVertex_repeater (faults : Faults) (leaf : Vertex) (parents : List Vertex)
    (onSave : Err → Err) (rejected : Err) :
    (b.insertVertex leaf parents faults onSave rejected).1.repeater = b.repeater := by
  have h := insertVertex_cases b leaf parents faults onSave rejected
  generalize b.insertVertex leaf parents faults onSave rejected = res at h ⊢
  cases h with
  | unsaved => rfl
  | known => exact removeTrx_repeater _ _ _
  | torn => exact discard_repeater _ _
  | done => rfl

theorem pickLeaves_repeater (probe : Hash → Probe) : ∀ (todo found : List Vertex) (err : Option Err)
    (b : Book), (Book.pickLeaves env probe faults todo found err b).1.repeater = b.repeater
  | [], _, _, _ => rfl
  | u :: todo, found, err, b => by
      rw [Book.pickLeaves]
      split
      · rfl
      cases b.validateLeaf env (probe u.hash) u with
      | error e =>
        simp only
        split
        · rfl
        · exact (pickLeaves_repeater probe todo found _ _).trans (discard_repeater b u)
      | ok _ => exact pickLeaves_repeater probe todo _ _ b

theorem createLeafLocked_repeater (trx : Transaction) (first second : Book.Pass) (now : Time) :
    (b.createLeafLocked env trx first second now faults).1.repeater = b.repeater := by
  unfold Book.createLeafLocked
  have h1 : (b.getValidLeaves env first faults).1.repeater = b.repeater := pickLeaves_repeater _ _ _ _ _
  generalize b.getValidLeaves env first faults = res at h1
  obtain ⟨b1, found, err⟩ := res
  cases err with
  | some e => exact h1
  | none =>
    cases found with
    | nil =>
      have h2 : (b1.getValidLeaves env second faults).1.repeater = b1.repeater :=
        pickLeaves_repeater _ _ _ _ _
      simp only
      generalize b1.getValidLeaves env second faults = res2 at h2
      obtain ⟨b2, found2, err2⟩ := res2
      cases err2 with
      | some e => exact h2.trans h1
      | none => cases found2 <;> exact h2.trans h1
    | cons l rest =>
      have h2 := insertVertex_repeater b1 faults (Book.tip env trx l (rest.headD l) now)
        [l, rest.headD l] (fun _ => [.errUnexpected]) [.errNewLeafRejected]
      simp only [Book.sealTip]
      generalize b1.insertVertex _ _ _ _ _ = ins at h2
      obtain ⟨b2, res⟩ := ins
      cases res <;> exact h2.trans h1

/-- The replier after a call: as before, or with the vertex of the call parked. -/
def Parked (m : Memory) (r r' : Buffer) : Prop := r' = r ∨ r.insert m = .ok r'

theorem checkParents_repeater (m : Memory) (probe : Hash → Probe) : ∀ (hashes : List Hash)
    (acc : List Vertex) (b : Book),
    Parked m b.repeater (b.checkParents env m probe faults hashes acc).1.repeater
  | [], _, _ => Or.inl rfl
  | hash :: rest, acc, b => by
      rw [Book.checkParents]
      cases b.dag.getVertex hash with
      | none =>
        simp only
        cases hins : b.repeater.insert m with
        | error e => exact Or.inl rfl
        | ok r => exact Or.inr hins
      | some u =>
        simp only
        split
        · cases b.validateLeaf env (probe hash) u with
          | error e => exact Or.inl (dismiss_repeater b u e)
          | ok _ =>
            exact checkParents_repeater m probe rest _ (b.updateWeightAndThroughput u.weight)
        · exact checkParents_repeater m probe rest _ b

theorem addLeafLocked_repeater (m : Memory) (probe : Hash → Probe) :
    Parked m b.repeater (b.addLeafLocked env m probe faults).1.repeater := by
  unfold Book.addLeafLocked
  have h1 := @checkParents_repeater env faults m probe m.vrx.parentHashes [] b
  generalize b.checkParents env m probe faults m.vrx.parentHashes [] = res at h1
  obtain ⟨b1, res⟩ := res
  cases res with
  | error e => exact h1
  | ok validated =>
    simp only
    rw [insertVertex_repeater]; exact h1

theorem Parked.mem {m x : Memory} {r r' : Buffer} (h : Parked m r r')
    (hx : x ∈ r'.members ∨ x ∈ r'.pub) : (x ∈ r.members ∨ x ∈ r.pub) ∨ x.vrx = m.vrx := by
  rcases h with rfl | h
  · exact Or.inl hx
  · obtain ⟨-, -, rfl⟩ := Buffer.insert_ok h
    rcases hx with hx | hx
    · rcases List.mem_append.mp hx with hx | hx
      · exact Or.inl (Or.inl hx)
      · rw [List.mem_singleton.mp hx]
        exact Or.inr rfl
    · exact Or.inl (Or.inr hx)

theorem mem_tick {x : Memory} {r : Buffer} :
    (x ∈ r.tick.members ∨ x ∈ r.tick.pub) ↔ (x ∈ r.members ∨ x ∈ r.pub) := by
  cases hm : r.members with
  | nil =>
    rw [Buffer.tick_nil hm, hm]
  | cons m rest =>
    rw [Buffer.tick_cons hm, List.mem_append, List.mem_singleton, List.mem_cons]
    tauto

theorem createGenesis_repeater (env : Env) (spec : Book.GenesisSpec) (saveFails : Bool) :
    (b.createGenesis env spec saveFails).1.repeater = b.repeater := by
  unfold Book.createGenesis
  split
  · rfl
  · split
    · rfl
    · simp only
      split
      · rfl
      next b1 hsave =>
        obtain ⟨-, rfl⟩ := saveTrx_ok hsave
        split <;> rfl

theorem loadVertices_repeater (saveFails : Hash → Bool) (st : List (Option Vertex)) :
    ∀ b : Book, (b.loadVertices saveFails st).1.repeater = b.repeater := by
  induction st with
  | nil => exact fun _ => rfl
  | cons o rest ih =>
    intro b
    cases o with
    | none => rfl
    | some v =>
      rw [Book.loadVertices]
      cases hsave : b.saveTrxInVertex v.transaction.hash v.hash (saveFails v.transaction.hash) with
      | error e => rfl
      | ok b1 =>
        obtain ⟨-, rfl⟩ := saveTrx_ok hsave
        simp only
        split
        · rfl
        · exact ih _

theorem loadDag_repeater (sched : LoadSchedule) (st : List (Option Vertex)) :
    (b.loadDag sched st).1.repeater = b.repeater := by
  have hvertices := loadVertices_repeater sched.saveFails st b
  unfold Book.loadDag
  split
  · rfl
  · simp only [Book.loadLocked, Book.updateWeightAndThroughput]
    generalize b.loadVertices sched.saveFails st = res at hvertices
    obtain ⟨b1, _ | e⟩ := res
    · simp only
      split
      · exact hvertices
      · split <;> exact hvertices
    · exact hvertices

end Repeater

/-- What an event does to the replier. -/
inductive Node.Stirs (s : Node) : Event → Buffer → Prop
  | still {e : Event} : Stirs s e s.book.repeater
  | tick : Stirs s .tick s.book.repeater.tick
  | taken {m : Memory} {pub : List Memory} {faults : Faults} (next : s.book.repeater.pub = m :: pub) :
    Stirs s (.beginReplay faults) { s.book.repeater with pub }
  | parked {m : Memory} {probe : Hash → Probe} {faults : Faults} {r : Buffer} (call : .add m ∈ s.pending)
    (insert : s.book.repeater.insert m = .ok r) : Stirs s (.finishAdd m probe faults) r

theorem Node.repeater_step (env : Env) (s : Node) (e : Event) : s.Stirs e (s.step env e).book.repeater := by
  cases e with
  | beginCreate trx faults =>
    simp only [Node.step, Node.beginCreate]
    split <;> exact .still
  | beginAdd leaf faults =>
    simp only [Node.step, Node.beginAdd]
    split
    · exact .still
    · split <;> exact .still
  | beginReplay faults =>
    simp only [Node.step, Node.beginReplay]
    split
    · exact .still
    next hpub => split <;> exact .taken hpub
  | finishCreate trx first second now faults =>
    simp only [Node.step]
    split
    · rw [createLeafLocked_repeater]
      exact .still
    · exact .still
  | finishAdd m probe faults =>
    simp only [Node.step]
    split
    next hcall =>
      rcases addLeafLocked_repeater s.book m probe with hsame | hins
      · rw [hsame]
        exact .still
      · exact .parked hcall hins
    · exact .still
  | tick => exact .tick
  | truncate t =>
    obtain ⟨db, dag, n, heq⟩ := truncate_writes env s.book t
    rw [Node.step, heq]
    exact .still

/-! ### What waits for the lock -/

/-- The facts hold of what waits: the transactions to create leaves for, the received vertices, and the
    vertices in the replier. -/
structure Node.Waiting (T : Transaction → Prop) (A : Vertex → Prop) (s : Node) : Prop where
  creates : ∀ trx, .create trx ∈ s.pending → T trx
  adds : ∀ m, .add m ∈ s.pending → A m.vrx
  parked : ∀ m, m ∈ s.book.repeater.members ∨ m ∈ s.book.repeater.pub → A m.vrx

/-- The facts hold of what gets past the checks in this event. -/
def Node.LetsIn (T : Transaction → Prop) (A : Vertex → Prop) (env : Env) (s : Node) : Event → Prop
  | .beginCreate trx faults => s.book.createLeafChecks env trx faults = .ok () → T trx
  | .beginAdd leaf faults =>
    s.book.addLeafGuard leaf = .ok () → s.book.addLeafChecks env leaf faults = .ok () → A leaf
  | _ => True

namespace Node.Waiting

variable {T : Transaction → Prop} {A : Vertex → Prop} {env : Env} {s : Node}

theorem of_nothing (hp : s.pending = []) (hr : s.book.repeater = Buffer.empty) : s.Waiting T A := by
  refine ⟨?_, ?_, ?_⟩
  · simp [hp]
  · simp [hp]
  · simp [hr, Buffer.empty]

theorem of_repeater (h : s.Waiting T A) {b : Book} (hr : b.repeater = s.book.repeater) :
    Node.Waiting T A { s with book := b } := by
  refine ⟨h.creates, h.adds, fun m hm => ?_⟩
  rw [hr] at hm
  exact h.parked m hm

theorem parked_step (h : s.Waiting T A) (e : Event) {m : Memory}
    (hm : m ∈ (s.step env e).book.repeater.members ∨ m ∈ (s.step env e).book.repeater.pub) : A m.vrx := by
  have hstirs := s.repeater_step env e
  generalize (s.step env e).book.repeater = r at hm hstirs
  cases hstirs with
  | still => exact h.parked m hm
  | tick => exact h.parked m (mem_tick.mp hm)
  | taken hpub =>
    refine h.parked m ?_
    rw [hpub]
    exact hm.imp_right (List.mem_cons_of_mem _)
  | parked hcall hins =>
    rcases Parked.mem (Or.inr hins) hm with hold | hnew
    · exact h.parked m hold
    · rw [hnew]
      exact h.adds _ hcall

theorem step (h : s.Waiting T A) {e : Event} (he : s.LetsIn T A env e) : (s.step env e).Waiting T A := by
  refine ⟨fun trx htrx => ?_, fun m hm => ?_, fun m hm => h.parked_step e hm⟩
  · rcases Node.pending_step htrx with hold | hnew
    · exact h.creates trx hold
    · cases hnew with
      | create hc => exact he hc
  · rcases Node.pending_step hm with hold | hnew
    · exact h.adds m hold
    · cases hnew with
      | add hg hc => exact he hg hc
      | replay hpub => exact h.parked m (Or.inr (hpub ▸ List.mem_cons_self ..))

theorem origin (h : s.Waiting T A) (htip : ∀ trx l r now, T trx → A (Book.tip env trx l r now)) {e : Event}
    {leaf l r : Vertex} (ho : s.origin env e leaf l r) : A leaf := by
  cases e with
  | finishCreate trx first second now faults =>
    obtain ⟨hp, rfl, -⟩ := ho
    exact htip trx l r now (h.creates trx hp)
  | finishAdd m probe faults =>
    obtain ⟨hp, rfl⟩ := ho
    exact h.adds m hp
  | _ => exact ho.elim

end Node.Waiting

/-! ### The invariant -/

/-- INVARIANT: pending calls and parked vertices have passed the guards. -/
structure Admitted (env : Env) (s : Node) : Prop where
  creates : ∀ trx, .create trx ∈ s.pending → Proper env.signer.address trx
  adds : ∀ m, .add m ∈ s.pending → Proper m.vrx.signerPublicAddress m.vrx.transaction
  parked : ∀ m, m ∈ s.book.repeater.members ∨ m ∈ s.book.repeater.pub →
    Proper m.vrx.signerPublicAddress m.vrx.transaction

section

variable {env : Env} {g : Vertex} {s : Node} {b : Book} {spec : Book.GenesisSpec} {faults : Faults}
  {Q : Vertex → Prop}

theorem proper_of_createLeafChecks {trx : Transaction} (h : b.createLeafChecks env trx faults = .ok ()) :
    Proper env.signer.address trx := by
  unfold Book.createLeafChecks at h
  split at h
  · cases h
  · split at h
    · cases h
    next hempty =>
      split at h
      · cases h
      next hissuer => exact ⟨by simpa using hempty, hissuer⟩

theorem proper_of_addLeafGuard {leaf : Vertex} (h : b.addLeafGuard leaf = .ok ()) :
    Proper leaf.signerPublicAddress leaf.transaction := by
  unfold Book.addLeafGuard at h
  split at h
  · cases h
  · split at h
    · cases h
    next hissuer =>
      split at h
      · cases h
      next hempty => exact ⟨by simpa using hempty, hissuer⟩

namespace Admitted

variable {env : Env} {s : Node}

theorem waiting (h : Admitted env s) :
    s.Waiting (Proper env.signer.address) fun v => Proper v.signerPublicAddress v.transaction :=
  ⟨h.creates, h.adds, h.parked⟩

theorem of_waiting
    (h : s.Waiting (Proper env.signer.address) fun v => Proper v.signerPublicAddress v.transaction) :
    Admitted env s :=
  ⟨h.creates, h.adds, h.parked⟩

theorem step (h : Admitted env s) (e : Event) : Admitted env (s.step env e) := by
  have hguards : s.LetsIn (Proper env.signer.address) (fun v => Proper v.signerPublicAddress v.transaction) env e := by
    cases e with
    | beginCreate trx faults => exact proper_of_createLeafChecks
    | beginAdd leaf faults => exact fun hg _ => proper_of_addLeafGuard hg
    | _ => trivial
  exact of_waiting (h.waiting.step hguards)

theorem origin (h : Admitted env s) {e : Event} {leaf l r : Vertex} (ho : s.origin env e leaf l r) :
    Proper leaf.signerPublicAddress leaf.transaction :=
  h.waiting.origin (fun _ _ _ _ htrx => htrx) ho

end Admitted

theorem Founded.admitted (h : Founded env spec g s) : Admitted env s :=
  .of_waiting (.of_nothing h.pending h.repeater)

/-! ### The genesis wallet -/

/-- The fact holds of every vertex but `g`. -/
def OnlyBesides (g : Vertex) (Q : Vertex → Prop) (b : Book) : Prop :=
  ∀ k v, b.dag.getVertex k = some v → v = g ∨ Q v

theorem Move.onlyBesides {origin : Vertex → Vertex → Vertex → Prop} {b' : Book}
    (ho : ∀ leaf l r, origin leaf l r → Q leaf) (hm : Move env faults origin b b') (h : OnlyBesides g Q b) :
    OnlyBesides g Q b' :=
  Every.move (Q := fun v => v = g ∨ Q v) (fun leaf l r hs => Or.inr (ho leaf l r hs)) hm h

/-- Not issued by the wallet `a`, and sealed by another wallet than the one that issued it. -/
structure Isolated (a : Address) (v : Vertex) : Prop where
  issuer : v.transaction.issuerAddress ≠ a
  sealer : v.signerPublicAddress ≠ v.transaction.issuerAddress

/-- INVARIANT: the node owns the genesis wallet, and what waits for the lock has passed the guards. -/
structure Guarded (env : Env) (s : Node) : Prop where
  address : s.book.genesisPublicAddress = env.signer.address
  admitted : Admitted env s
  adds : s.PendingAdds fun v => v.transaction.issuerAddress ≠ env.signer.address

namespace Guarded

variable {env : Env} {s : Node}

theorem step (h : Guarded env s) {e : Event} (he : e.Ordinary) : Guarded env (s.step env e) := by
  refine ⟨(s.step_frame env he).genesisPublicAddress.trans h.address, h.admitted.step e, ?_⟩
  exact h.adds.step (fun b leaf faults hb hc => h.address ▸ hb ▸ (addLeafChecks_ok hc).1) e

theorem origin (h : Guarded env s) {e : Event} {leaf l r : Vertex} (ho : s.origin env e leaf l r) :
    Isolated env.signer.address leaf := by
  have hproper := h.admitted.origin ho
  refine ⟨?_, hproper.foreign.symm⟩
  cases e with
  | finishCreate trx first second now faults =>
    obtain ⟨hp, rfl, -⟩ := ho
    exact (h.admitted.creates trx hp).foreign
  | finishAdd m probe faults =>
    obtain ⟨hp, rfl⟩ := ho
    exact h.adds m hp
  | _ => exact ho.elim

end Guarded

theorem guarded_genesis {n : UInt64} (h : Node.genesis env n spec = some (s, g)) : Guarded env s := by
  have hf := founded h
  refine ⟨hf.address, hf.admitted, ?_⟩
  simp [Node.PendingAdds, hf.pending]

/-- The locked call is not about a transaction to the wallet `a`. -/
def Event.PaysNot (a : Address) : Event → Prop
  | .finishCreate trx _ _ _ _ => trx.receiverAddress ≠ a
  | .finishAdd m _ _ => m.vrx.transaction.receiverAddress ≠ a
  | _ => True

theorem Event.PaysNot.origin {a : Address} {e : Event} (h : e.PaysNot a) {leaf l r : Vertex}
    (ho : s.origin env e leaf l r) : leaf.transaction.receiverAddress ≠ a := by
  cases e with
  | finishCreate trx first second now faults =>
    obtain ⟨-, rfl, -⟩ := ho
    exact h
  | finishAdd m probe faults =>
    obtain ⟨-, rfl⟩ := ho
    exact h
  | _ => exact ho.elim

/-- INDUCTION: a fact that every step along the condition ensures of the vertex it inserts holds of
    every vertex but the genesis vertex after a run along the condition. -/
theorem onlyBesides_run {n : UInt64} (h : Node.genesis env n spec = some (s, g)) {P : Event → Prop}
    (hnew : ∀ t e, Guarded env t → P e → ∀ leaf l r, t.origin env e leaf l r → Q leaf) {es : List Event}
    (hes : ∀ e ∈ es, e.Ordinary) (hP : ∀ e ∈ es, P e) :
    Guarded env (run (Node.step env) s es) ∧ OnlyBesides g Q (run (Node.step env) s es).book := by
  refine run_invariant_along (P := fun (_ : Node) (e : Event) => e.Ordinary ∧ P e)
    (I := fun (t : Node) => Guarded env t ∧ OnlyBesides g Q t.book) ?_
    (along_of_forall (P := fun e => e.Ordinary ∧ P e) (fun e he => ⟨hes e he, hP e he⟩) s) ?_
  · rintro t e ⟨he, hp⟩ ⟨hg, ho⟩
    exact ⟨hg.step he, Moves.invariant (fun hm hb => hm.onlyBesides (hnew t e hg hp) hb)
      (t.step_moves env he) ho⟩
  · exact ⟨guarded_genesis h, fun k v hk => Or.inl ((founded h).eq hk).2⟩

end

/-- GENESIS WALLET: in every reachable state no vertex but the genesis vertex is issued by the genesis
    wallet or sealed by its issuer; and none is paid to the genesis wallet if no call asks for it. -/
theorem genesis_wallet_isolated {env : Env} {n : UInt64} {spec : Book.GenesisSpec} {s : Node} {g : Vertex}
    (h : Node.genesis env n spec = some (s, g)) {es : List Event} (hes : ∀ e ∈ es, e.Ordinary) :
    let t := run (Node.step env) s es
    (∀ k v, t.book.dag.getVertex k = some v → v ≠ g →
      v.transaction.issuerAddress ≠ t.book.genesisPublicAddress ∧
        v.signerPublicAddress ≠ v.transaction.issuerAddress) ∧
    ((∀ e ∈ es, e.PaysNot s.book.genesisPublicAddress) → ∀ k v, t.book.dag.getVertex k = some v → v ≠ g →
      v.transaction.receiverAddress ≠ t.book.genesisPublicAddress) := by
  intro t
  obtain ⟨hguard, hall⟩ := onlyBesides_run h (P := fun _ => True)
    (fun _ _ hg _ _ _ _ ho => hg.origin ho) hes (fun _ _ => trivial)
  refine ⟨fun k v hk hne => ?_, fun hpays k v hk hne => ?_⟩
  · have hv := (hall k v hk).resolve_left hne
    rw [hguard.address]
    exact ⟨hv.issuer, hv.sealer⟩
  · obtain ⟨-, hall⟩ := onlyBesides_run h (P := Event.PaysNot s.book.genesisPublicAddress)
      (fun _ _ _ hp _ _ _ ho => hp.origin ho) hes hpays
    rw [hguard.address, ← (founded h).address]
    exact (hall k v hk).resolve_left hne

namespace Transparent

/-- `wallet 7` pays the genesis wallet. -/
def payback : Vertex := sealed (trx (wallet 7) hub ⟨4, 0⟩ [] 3) (root 10) (root 10) 1 4

end Transparent

open Transparent in
/-- A transfer to the genesis wallet is accepted. -/
theorem genesis_wallet_paid :
    let t := run (Node.step (env hub)) (start 10) (addEvents payback)
    t.book.genesisPublicAddress = hub ∧ t.book.dag.getVertex payback.hash = some payback ∧
      payback ≠ root 10 ∧ payback.transaction.isSpiceTransfer = true ∧
      payback.transaction.receiverAddress = t.book.genesisPublicAddress := by
  decide +kernel

open Transparent in
/-- The law at a run with three insertions, none of them paid to the genesis wallet. -/
theorem fork_isolated :
    let t := run (Node.step (env hub)) (start 10) forkEvents
    t.book.dag.graph.nodes.keys.length = 4 ∧
      (∀ k v, t.book.dag.getVertex k = some v → v ≠ root 10 →
        v.transaction.issuerAddress ≠ t.book.genesisPublicAddress ∧
          v.signerPublicAddress ≠ v.transaction.issuerAddress) ∧
      ∀ k v, t.book.dag.getVertex k = some v → v ≠ root 10 →
        v.transaction.receiverAddress ≠ t.book.genesisPublicAddress := by
  have hes : ∀ e ∈ forkEvents, e.Ordinary := by
    simp [forkEvents, addEvents, createEvents, Event.Ordinary]
  have hpays : ∀ e ∈ forkEvents, e.PaysNot (start 10).book.genesisPublicAddress := by
    have h : (start 10).book.genesisPublicAddress = wallet 2 := rfl
    rw [h]
    simp only [forkEvents, addEvents, createEvents, List.cons_append, List.nil_append, List.forall_mem_cons,
      Event.PaysNot, List.not_mem_nil, false_implies, implies_true, and_true, true_and]
    decide
  obtain ⟨hissue, hreceive⟩ := genesis_wallet_isolated (genesis_start 10) hes
  exact ⟨by decide +kernel, hissue, hreceive hpays⟩

end Computantis
