import Computantis.Laws.Admission
import Computantis.Laws.Forwarding
import Computantis.Laws.History
import Computantis.Laws.Robustness
import Computantis.Model.Mesh
import Computantis.Schemes.Flooding

/-! @law spreading | name:Whom a vertex reaches | family:liveness | about:Model/Mesh

    A node passes a vertex on when the message itself brings it into the ledger. A vertex that overtakes one
    of its parents gets there by the replier, and a parent that is fetched by the fetch; both stay where they
    are, and a message about either is a copy from then on. Where no vertex overtakes a parent, the vertices
    flood the graph of the connections.

        v1 ◀── v2     3 ──v2──▶ 4      parked at 4
                      3 ──v1──▶ 4 ──v1──▶ 5
                                4      v2 from the replier, and not to 5 -/

namespace Computantis

open Schemes

/-! ### The vertices of the graph after a call -/

section Calls

variable {env : Env} {faults : Faults} {b : Book} {v : Vertex} {k : Hash} {m : Memory} {probe : Hash → Probe}
  {e : Err} {fails : Bool}

/-- The vertex is in the graph. -/
def Book.Holds (b : Book) (k : Hash) : Prop := k ∈ b.dag.graph.nodes

instance (b : Book) (k : Hash) : Decidable (b.Holds k) := inferInstanceAs (Decidable (k ∈ b.dag.graph.nodes))

theorem Book.holds_iff : b.Holds k ↔ ∃ v, b.dag.getVertex k = some v := Digraph.mem_nodes

theorem insertVertex_holds {leaf : Vertex} {parents : List Vertex} {onSave : Err → Err} {rejected : Err}
    (h : (b.insertVertex leaf parents faults onSave rejected).1.Holds k) :
    b.Holds k ∨ (b.insertVertex leaf parents faults onSave rejected).2 = .ok () ∧ k = leaf.hash := by
  obtain ⟨u, hu⟩ := Book.holds_iff.mp h
  rw [insertVertex_get] at hu
  split at hu
  next hdone => exact Or.inr hdone
  next => exact Or.inl (Book.holds_iff.mpr ⟨u, hu⟩)

theorem checkParents_holds (hashes : List Hash) :
    ∀ {acc : List Vertex} {b : Book}, (b.checkParents env m probe faults hashes acc).1.Holds k → b.Holds k := by
  induction hashes with
  | nil => exact fun h => h
  | cons hash rest ih =>
    intro acc b h
    rcases checkParents_cons env faults NoOrigin b m probe hash rest acc with
      ⟨b1, e, heq, hmove⟩ | ⟨b1, u, -, -, hdag, -, -, heq⟩
    · rw [heq] at h
      obtain ⟨u, hu⟩ := Book.holds_iff.mp h
      exact Book.holds_iff.mpr ⟨u, hmove.remains.get hu⟩
    · rw [heq] at h
      have hbefore := ih h
      rwa [Book.Holds, hdag] at hbefore

/-- RUN (parent loop): where all the parents are, nothing is parked. -/
theorem checkParents_unparked (hashes : List Hash) :
    ∀ {acc : List Vertex} {b : Book}, (∀ h ∈ hashes, b.Holds h) →
      (b.checkParents env m probe faults hashes acc).1.repeater = b.repeater := by
  induction hashes with
  | nil => exact fun _ => rfl
  | cons hash rest ih =>
    intro acc b h
    obtain ⟨u, hu⟩ := Book.holds_iff.mp (h hash (List.mem_cons_self ..))
    have hrest : ∀ x ∈ rest, b.Holds x := fun x hx => h x (List.mem_cons_of_mem _ hx)
    rw [Book.checkParents]
    simp only [hu]
    split
    · cases b.validateLeaf env (probe hash) u with
      | error e => exact dismiss_repeater b u e
      | ok _ => exact ih (b := b.updateWeightAndThroughput u.weight) hrest
    · exact ih hrest

/-- SPEC (`addLeafMemorized` under the lock): what is there afterwards was there, or is the vertex that was
    added. -/
theorem addLeafLocked_holds (h : (b.addLeafLocked env m probe faults).1.Holds k) :
    b.Holds k ∨ (b.addLeafLocked env m probe faults).2 = .ok () ∧ k = m.vrx.hash := by
  unfold Book.addLeafLocked at h ⊢
  have hparents : (b.checkParents env m probe faults m.vrx.parentHashes []).1.Holds k → b.Holds k :=
    checkParents_holds _
  generalize b.checkParents env m probe faults m.vrx.parentHashes [] = res at h hparents ⊢
  obtain ⟨b1, e | us⟩ := res
  · exact Or.inl (hparents h)
  · exact (insertVertex_holds h).imp_left hparents

theorem addLeafLocked_unparked (probe : Hash → Probe) (h : ∀ k ∈ m.vrx.parentHashes, b.Holds k) :
    (b.addLeafLocked env m probe faults).1.repeater = b.repeater := by
  unfold Book.addLeafLocked
  have hparents : (b.checkParents env m probe faults m.vrx.parentHashes []).1.repeater = b.repeater :=
    checkParents_unparked _ h
  generalize b.checkParents env m probe faults m.vrx.parentHashes [] = res at hparents
  obtain ⟨b1, e | us⟩ := res
  · exact hparents
  · exact (insertVertex_repeater b1 faults _ _ _ _).trans hparents

theorem addLeafGuard_error (h : b.addLeafGuard v = .error e) : .errParentDoesNotExists ∉ e := by
  unfold Book.addLeafGuard at h
  repeat' split at h
  all_goals cases h
  all_goals decide

theorem checkVertexExists_error (h : b.checkVertexExists k fails = .error e) : e = [.errUnexpected] := by
  unfold Book.checkVertexExists Book.checkVertexExistInStorage at h
  repeat' split at h
  all_goals cases h
  rfl

theorem checkTrxExists_error (h : b.checkTrxInVertexExists k fails = .error e) : e = [.errUnexpected] := by
  unfold Book.checkTrxInVertexExists at h
  split at h <;> cases h
  rfl

theorem checkVertexExists_absent (h : b.checkVertexExists k fails = .ok false) : ¬ b.Holds k := by
  rw [Book.holds_iff]
  rintro ⟨v, hv⟩
  simp [Book.checkVertexExists, hv] at h

theorem addLeafChecks_cases (env : Env) (b : Book) (v : Vertex) (faults : Faults) :
    (∃ e, b.addLeafChecks env v faults = .error e ∧ .errParentDoesNotExists ∉ e) ∨
      b.addLeafChecks env v faults = .ok () ∧ ¬ b.Holds v.hash := by
  unfold Book.addLeafChecks
  split
  · exact Or.inl ⟨_, rfl, by decide⟩
  cases hexists : b.checkVertexExists v.hash faults.checkVertex with
  | error e =>
    obtain rfl := checkVertexExists_error hexists
    exact Or.inl ⟨_, rfl, by decide⟩
  | ok there =>
    cases there with
    | true => exact Or.inl ⟨_, rfl, by decide⟩
    | false =>
      simp only
      cases htrx : b.checkTrxInVertexExists v.transaction.hash faults.checkTrx with
      | error e =>
        obtain rfl := checkTrxExists_error htrx
        exact Or.inl ⟨_, rfl, by decide⟩
      | ok used =>
        cases used with
        | true => exact Or.inl ⟨_, rfl, by decide⟩
        | false =>
          simp only
          split
          · exact Or.inr ⟨rfl, checkVertexExists_absent hexists⟩
          · exact Or.inl ⟨_, rfl, by cases v.check env.verifier <;> decide⟩

/-- SPEC (`AddLeaf`): the checks fail and nothing happens, or the vertex is not there and goes under the lock. -/
theorem addLeaf_cases (env : Env) (b : Book) (v : Vertex) (probe : Hash → Probe) (faults : Faults) :
    (∃ e, b.checkLeaf v env faults = .error e ∧ .errParentDoesNotExists ∉ e ∧
      b.addLeaf env v probe faults = (b, .error e)) ∨
    ¬ b.Holds v.hash ∧ b.addLeaf env v probe faults = b.addLeafLocked env (newMemory v) probe faults := by
  unfold Book.checkLeaf Book.addLeaf Book.addLeafMemorized
  cases hguard : b.addLeafGuard v with
  | error e => exact Or.inl ⟨e, rfl, addLeafGuard_error hguard, rfl⟩
  | ok _ =>
    rcases addLeafChecks_cases env b v faults with ⟨e, hchecks, hother⟩ | ⟨hchecks, habsent⟩
    · exact Or.inl ⟨e, hchecks, hother, by simp only [newMemory, hchecks]⟩
    · exact Or.inr ⟨habsent, by simp only [newMemory, hchecks]⟩

theorem discards_eq_false {b' : Book} : b.discards b' = false ↔ ∀ k, b.Holds k → b'.Holds k := by
  simp [Book.discards, Book.Holds, AList.mem_keys]

/-- STEP (`AddLeaf` with both parents there, and without a refusal): the vertex was there and nothing happens,
    or it is the one vertex more. -/
theorem addLeaf_inTurn (hparents : ∀ h ∈ v.parentHashes, b.Holds h)
    (hkept : b.refuses v (b.checkLeaf v env faults) (b.addLeaf env v probe faults) = false) :
    (∃ e, b.addLeaf env v probe faults = (b, .error e) ∧ .panicked ∉ e ∧ b.Holds v.hash ∧
      lackingParents v (.error e) = []) ∨
    ∃ b', b.addLeaf env v probe faults = (b', .ok ()) ∧ b'.repeater = b.repeater ∧
      ∀ k, b'.Holds k ↔ b.Holds k ∨ k = v.hash := by
  obtain ⟨hkept, hreturns⟩ := Bool.or_eq_false_iff.mp hkept
  obtain ⟨hnone, haway⟩ := Bool.or_eq_false_iff.mp hkept
  rcases addLeaf_cases env b v probe faults with ⟨e, hchecks, hother, hadd⟩ | ⟨habsent, hadd⟩
  · rw [hadd] at hreturns
    refine Or.inl ⟨e, hadd, by simpa using hreturns, ?_, by rw [lackingParents, if_neg hother]⟩
    rw [hadd, hchecks] at haway
    simpa [Book.turnsAway, Except.isOk, Except.toBool, Book.Holds] using haway
  · have hthere : (b.addLeaf env v probe faults).2 = .ok () → (b.addLeaf env v probe faults).1.Holds v.hash :=
      fun h => Book.holds_iff.mpr ⟨v, (addLeaf_indexed h).2.1⟩
    have hholds : ∀ k, (b.addLeafLocked env (newMemory v) probe faults).1.Holds k →
        b.Holds k ∨ (b.addLeafLocked env (newMemory v) probe faults).2 = .ok () ∧ k = v.hash :=
      fun k => addLeafLocked_holds
    have hrepeater : (b.addLeafLocked env (newMemory v) probe faults).1.repeater = b.repeater :=
      addLeafLocked_unparked probe hparents
    rw [hadd] at hnone haway hthere ⊢
    generalize b.addLeafLocked env (newMemory v) probe faults = res at hnone haway hthere hholds hrepeater ⊢
    obtain ⟨b', e | _⟩ := res
    · -- an error under the lock leaves the vertex out
      have hout : ¬ b'.Holds v.hash := by
        intro hin
        rcases hholds _ hin with hbefore | ⟨hok, -⟩
        · exact habsent hbefore
        · cases hok
      have hall : v.parentHashes.all (fun k => k ∈ b.dag.graph.nodes) = true := by
        simpa [Book.Holds] using hparents
      simp only [Book.Holds] at hout
      simp [Book.turnsAway, hout, hall] at haway
    · refine Or.inr ⟨b', rfl, hrepeater, fun k => ⟨fun hk => ?_, ?_⟩⟩
      · exact (hholds k hk).imp_right And.right
      · rintro (hk | rfl)
        · exact discards_eq_false.mp hnone k hk
        · exact hthere rfl

/-- What is there afterwards was there, or is the vertex that was made; and that one is there. -/
structure Yields (b : Book) (r : Book × Book.Outcome Vertex) : Prop where
  holds : ∀ k, r.1.Holds k → b.Holds k ∨ ∃ vrx, r.2 = .done vrx ∧ k = vrx.hash
  made : ∀ vrx, r.2 = .done vrx → r.1.Holds vrx.hash

theorem Yields.of_less {r : Book × Book.Outcome Vertex} (h : ∀ k, r.1.Holds k → b.Holds k)
    (hnone : ∀ vrx, r.2 ≠ .done vrx) : Yields b r :=
  ⟨fun k hk => Or.inl (h k hk), fun vrx hdone => absurd hdone (hnone vrx)⟩

theorem sealTip_yields (env : Env) (b : Book) (trx : Transaction) (l r : Vertex) (now : Time) (faults : Faults) :
    Yields b (b.sealTip env trx l r now faults) := by
  unfold Book.sealTip
  have hholds : ∀ k, (b.insertVertex (Book.tip env trx l r now) [l, r] faults (fun _ => [.errUnexpected])
      [.errNewLeafRejected]).1.Holds k → _ := fun k => insertVertex_holds
  have hthere : (b.insertVertex (Book.tip env trx l r now) [l, r] faults (fun _ => [.errUnexpected])
      [.errNewLeafRejected]).2 = .ok () → _ := fun h => (insertVertex_indexed h).2.1
  simp only
  generalize b.insertVertex (Book.tip env trx l r now) [l, r] faults _ _ = res at hholds hthere
  obtain ⟨b1, e | _⟩ := res
  · refine .of_less (fun k hk => (hholds k hk).resolve_right ?_) nofun
    rintro ⟨hok, -⟩
    cases hok
  · refine ⟨fun k hk => (hholds k hk).imp_right fun ⟨_, htip⟩ => ⟨_, rfl, htip⟩, ?_⟩
    rintro vrx hdone
    cases hdone
    exact Book.holds_iff.mpr ⟨_, hthere rfl⟩

theorem getValidLeaves_holds (pass : Book.Pass) (h : (b.getValidLeaves env pass faults).1.Holds k) : b.Holds k := by
  obtain ⟨u, hu⟩ := Book.holds_iff.mp h
  exact Book.holds_iff.mpr ⟨u, (getValidLeaves_moves env faults b pass).1.remains.get hu⟩

theorem createLeafLocked_yields (env : Env) (b : Book) (trx : Transaction) (first second : Book.Pass) (now : Time)
    (faults : Faults) : Yields b (b.createLeafLocked env trx first second now faults) := by
  unfold Book.createLeafLocked
  have hfirst : ∀ k, (b.getValidLeaves env first faults).1.Holds k → b.Holds k := fun k => getValidLeaves_holds first
  generalize b.getValidLeaves env first faults = res at hfirst
  obtain ⟨b1, found, _ | e⟩ := res
  · cases found with
    | nil =>
      have hboth : ∀ k, (b1.getValidLeaves env second faults).1.Holds k → b.Holds k :=
        fun k hk => hfirst k (getValidLeaves_holds second hk)
      simp only
      generalize b1.getValidLeaves env second faults = res2 at hboth
      obtain ⟨b2, found2, _ | e⟩ := res2
      · cases found2 <;> exact .of_less hboth nofun
      · exact .of_less hboth nofun
    | cons l rest =>
      have htip := sealTip_yields env b1 trx l (rest.headD l) now faults
      exact ⟨fun k hk => (htip.holds k hk).imp_left (hfirst k), htip.made⟩
  · exact .of_less hfirst nofun

/-- STEP (`CreateLeaf` in a graph that has a vertex, with nothing discarded): the vertex that is made is the one
    vertex more, or nothing happens. -/
theorem createLeaf_inTurn {trx : Transaction} {first second : Book.Pass} {now : Time} (hrooted : b.Holds k)
    (hkept : b.discards (b.createLeaf env trx first second now faults).1 = false) :
    (b.createLeaf env trx first second now faults).1.repeater = b.repeater ∧
    ((∃ vrx, (b.createLeaf env trx first second now faults).2 = .done vrx ∧
      ∀ k, (b.createLeaf env trx first second now faults).1.Holds k ↔ b.Holds k ∨ k = vrx.hash) ∨
    ∃ e, (b.createLeaf env trx first second now faults).2 = .failed e ∧
      ∀ k, (b.createLeaf env trx first second now faults).1.Holds k ↔ b.Holds k) := by
  unfold Book.createLeaf at hkept ⊢
  cases hchecks : b.createLeafChecks env trx faults with
  | error e => exact ⟨rfl, Or.inr ⟨e, rfl, fun _ => Iff.rfl⟩⟩
  | ok _ =>
    have hyields := createLeafLocked_yields env b trx first second now faults
    have hpanics := createLeafLocked_ne_panicked env faults b trx first second now hrooted
    refine ⟨createLeafLocked_repeater b trx first second now, ?_⟩
    simp only [hchecks] at hkept ⊢
    generalize b.createLeafLocked env trx first second now faults = res at hkept hyields hpanics ⊢
    have hkeeps := discards_eq_false.mp hkept
    obtain ⟨b', vrx | e | _⟩ := res
    · refine Or.inl ⟨vrx, rfl, fun k => ⟨fun hk => ?_, ?_⟩⟩
      · refine (hyields.holds k hk).imp_right ?_
        rintro ⟨u, hdone, rfl⟩
        cases hdone
        rfl
      · rintro (hk | rfl)
        · exact hkeeps k hk
        · exact hyields.made vrx rfl
    · refine Or.inr ⟨e, rfl, fun k => ⟨fun hk => ?_, hkeeps k⟩⟩
      refine (hyields.holds k hk).resolve_right ?_
      rintro ⟨u, hdone, -⟩
      cases hdone
    · exact absurd rfl hpanics

end Calls

/-! ### One message -/

section Message

variable {env : ServerEnv} {c : GossipMeets} {g : GossipNode} {v u : Vertex} {gs : List ProtoGossiper}

/-- The message of the vertex. -/
def Vertex.msg (v : Vertex) (gs : List ProtoGossiper) : GossipMsg :=
  .vrx ⟨some (mapAccountantVertexToProtoVertex v), gs⟩

theorem Vertex.readable (v : Vertex) :
    ∃ u, mapProtoVertexToAccountantVertex (mapAccountantVertexToProtoVertex v) = .ok u ∧ u.hash = v.hash := by
  simp only [mapProtoVertexToAccountantVertex, mapAccountantVertexToProtoVertex, Transaction.ofProto,
    Transaction.toProto, Hash.ofSlice_bytes, Melange.ofProto_toProto]
  exact ⟨_, rfl, rfl⟩

theorem hasHash_eq_true {hash : Bytes} :
    (g.flash.hasHash c.flashGet c.flashSet hash).2 = .ok true ↔ Known c g.flash hash := by
  unfold Flashback.hasHash Flashback.has Known
  by_cases hlen : hash.length = 32 <;> by_cases hget : c.flashGet = true <;> simp [hlen, hget]

/-- SPEC (`GossipVrx`): a vertex that the flash memory knows, or that the node has signed, is not handed on. -/
theorem handed_ignored (ht : ¬ Breaking env.ledger.verifier v.hash gs)
    (h : Known c g.flash v.hash.bytes ∨ Signed env v.hash gs) :
    g.handed env c (v.msg gs) = none := by
  simp only [GossipNode.handed, Vertex.msg, mapAccountantVertexToProtoVertex, Hash.ofSlice_bytes,
    (gossipersOf_spec env v.hash ht).1]
  split
  · rfl
  split
  · rfl
  next hask =>
    rcases h with hknown | hsigned
    · exact (hask _ (Prod.ext rfl (hasHash_eq_true.mpr hknown))).elim
    · rw [if_pos ((signed_iff env v.hash ht).mpr hsigned)]

theorem receive_msg (hup : g.down = false) {g' : GossipNode} {forwards : List Forward} {r : Except GossipError Unit}
    (hr : r ≠ .error (.wire .panicked))
    (h : g.unlessSeen c v.hash.bytes (fun g => g.spread env c v.hash.bytes gs
      (fun g => g.processVrx env c (mapAccountantVertexToProtoVertex v)) v.msg) = (g', forwards, r)) :
    g.receive env c (v.msg gs) = (g', forwards) := by
  have hhandler : GossipNode.handler env c (mapAccountantVertexToProtoVertex v).hash gs
      (fun g => g.processVrx env c (mapAccountantVertexToProtoVertex v)) v.msg g = (g', forwards, r) := h
  rw [Vertex.msg, receive_vrx, GossipNode.inProcess, if_neg (by simp [hup])]
  split
  next heq =>
    cases hhandler.symm.trans heq
    exact absurd rfl hr
  next heq =>
    cases hhandler.symm.trans heq
    rfl

theorem receive_ignored (hup : g.down = false) (ht : ¬ Breaking env.ledger.verifier v.hash gs)
    (h : Known c g.flash v.hash.bytes ∨ Signed env v.hash gs) :
    g.receive env c (v.msg gs) = ({ g with flash := c.notes g.flash v.hash.bytes }, []) := by
  refine receive_msg hup (r := .ok ()) nofun ?_
  by_cases hknown : Known c g.flash v.hash.bytes
  · exact unlessSeen_known c g _ hknown
  · rw [unlessSeen_unknown c g _ hknown]
    exact spread_signed (Hash.ofSlice_bytes v.hash) ht (h.resolve_left hknown)

theorem handed_taken (hup : g.down = false) (ht : ¬ Breaking env.ledger.verifier v.hash gs)
    (hknown : ¬ Known c g.flash v.hash.bytes) (hs : ¬ Signed env v.hash gs)
    (hu : mapProtoVertexToAccountantVertex (mapAccountantVertexToProtoVertex v) = .ok u) :
    g.handed env c (v.msg gs) = some u := by
  simp only [GossipNode.handed, Vertex.msg, hu]
  simp only [mapAccountantVertexToProtoVertex, Hash.ofSlice_bytes, (gossipersOf_spec env v.hash ht).1, hup,
    Bool.false_eq_true, if_false, if_neg (fun hm => hs ((signed_iff env v.hash ht).mp hm))]
  split
  next hask => exact absurd (hasHash_eq_true.mp (by rw [hask])) hknown
  · rfl

theorem receive_failed (hup : g.down = false) (ht : ¬ Breaking env.ledger.verifier v.hash gs)
    (hknown : ¬ Known c g.flash v.hash.bytes) (hs : ¬ Signed env v.hash gs)
    (hu : mapProtoVertexToAccountantVertex (mapAccountantVertexToProtoVertex v) = .ok u) {book : Book} {e : Err}
    (hreturns : .panicked ∉ e) (hadd : g.book.addLeaf env.ledger u c.probe c.ledger = (book, .error e)) :
    g.receive env c (v.msg gs) = ({ g with book, flash := c.notes g.flash v.hash.bytes }, []) := by
  refine receive_msg hup (r := .error .errFailedToProcessGossip) nofun ?_
  rw [unlessSeen_unknown c g _ hknown]
  refine spread_error (Hash.ofSlice_bytes v.hash) ht hs ?_
  simp only [GossipNode.processVrx, hu, hadd, if_neg hreturns]
  rfl

theorem receive_added (hup : g.down = false) (ht : ¬ Breaking env.ledger.verifier v.hash gs)
    (hknown : ¬ Known c g.flash v.hash.bytes) (hs : ¬ Signed env v.hash gs)
    (hu : mapProtoVertexToAccountantVertex (mapAccountantVertexToProtoVertex v) = .ok u) {book : Book}
    (hadd : g.book.addLeaf env.ledger u c.probe c.ledger = (book, .ok ())) :
    ∃ cache tasks, g.receive env c (v.msg gs) =
      ({ g with book, cache, tasks, flash := c.notes g.flash v.hash.bytes }, forwardsOf env c g v.hash gs v.msg) := by
  refine ⟨(removeAwaitedTransaction env.trxCodec c.cache g.cache u.transaction.hash u.transaction.receiverAddress).1,
    g.tasks ++ [Service.forgetBoth u.transaction], receive_msg hup (r := .ok ()) nofun ?_⟩
  rw [unlessSeen_unknown c g _ hknown]
  refine (spread_ok (Hash.ofSlice_bytes v.hash) ht hs ?_).trans rfl
  simp only [GossipNode.processVrx, hu, hadd]
  rfl

theorem mem_forwardsOf {hash : Hash} (c : GossipMeets) (wrap : List ProtoGossiper → GossipMsg)
    (ht : ¬ Breaking env.ledger.verifier hash gs) {f : Forward} :
    f ∈ forwardsOf env c g hash gs wrap ↔ f.1 ∈ g.nodes ∧ f.1 ≠ env.ledger.signer.address ∧
      (¬ ∃ m ∈ gs, m.address = f.1 ∧ m.Verifies env.ledger.verifier hash) ∧ f.2 = wrap (passedOn env c hash gs) := by
  obtain ⟨b, msg⟩ := f
  simp only [forwardsOf, GossipNode.others, List.mem_map, List.mem_filter, mem_enumerate, decide_eq_true_eq,
    AList.mem_insert, (gossipersOf_spec env hash ht).2.mem, AList.notMem_empty, false_or, not_or, Prod.mk.injEq]
  constructor
  · rintro ⟨x, ⟨hnode, hself, hnot⟩, rfl, rfl⟩
    exact ⟨hnode, hself, hnot, rfl⟩
  · rintro ⟨hnode, hself, hnot, rfl⟩
    exact ⟨b, ⟨hnode, hself, hnot⟩, rfl, rfl⟩

end Message

/-! ### The mesh -/

/-- The message is about the vertex. -/
def Brings (k : Hash) : GossipMsg → Prop
  | .vrx ⟨some p, _⟩ => p.hash = k.bytes
  | _ => False

theorem brings_msg {k : Hash} {v : Vertex} {gs : List ProtoGossiper} : Brings k (v.msg gs) ↔ k = v.hash :=
  Hash.bytes_inj.trans eq_comm

namespace Mesh

variable {C : Cluster} {links : Address → List Address} {n n' : Mesh} {a : Address} {g' : GossipNode} {k : Hash}
  {gs : List ProtoGossiper} {v : Vertex} {c : GossipMeets} {i : ℕ} {dest : Address} {env : ServerEnv}
  {w : Circumstance} {trx : Transaction} {l : List Address} {g : GossipNode} {forget : List Chore}

def Holds (n : Mesh) (a : Address) (k : Hash) : Prop := (n.node a).book.Holds k

instance (n : Mesh) (a : Address) (k : Hash) : Decidable (n.Holds a k) :=
  inferInstanceAs (Decidable ((n.node a).book.Holds k))

/-- Nothing is in flight, parked, or to be fetched. -/
def Quiescent (C : Cluster) (n : Mesh) : Prop :=
  n.transit = [] ∧ n.fetches = [] ∧
    ∀ a ∈ C.members, (n.node a).pipe.vrxCh = [] ∧ (n.node a).book.repeater = Buffer.empty

instance (C : Cluster) (n : Mesh) : Decidable (n.Quiescent C) := inferInstanceAs (Decidable (_ ∧ _ ∧ _))

/-- A connection of a member. -/
def Linked (C : Cluster) (links : Address → List Address) (a b : Address) : Prop := a ∈ C.members ∧ b ∈ links a

/-- Who has which vertices, which are in flight, and which wait for the gossip process. -/
def flood (n : Mesh) : Flood Address Hash where
  has := n.Holds
  underway b k := ∃ p ∈ n.transit, p.1 = b ∧ Brings k p.2
  owes a k := ∃ v ∈ (n.node a).pipe.vrxCh, v.hash = k

/-- INVARIANT (node): it is up and its pipe is open, it has a vertex, nothing is parked, and what it remembers
    or has to send is in its graph. -/
structure Sane (links : List Address) (g : GossipNode) : Prop where
  up : g.down = false
  opened : g.pipe.closed = false
  linked : g.nodes = links
  rooted : ∃ k, g.book.Holds k
  unparked : g.book.repeater = Buffer.empty
  remembered : ∀ key ∈ g.flash, ∃ k : Hash, k.bytes = key ∧ g.book.Holds k
  piped : ∀ v ∈ g.pipe.vrxCh, g.book.Holds v.hash

/-- No member panics over the gossiper. -/
def Legible (C : Cluster) (hash : Hash) (m : ProtoGossiper) : Prop :=
  ∀ b ∈ C.members, ¬ m.Panics (C.env b).ledger.verifier hash

theorem Legible.not_breaking {hash : Hash} (h : ∀ m ∈ gs, Legible C hash m) (ha : a ∈ C.members) :
    ¬ Breaking (C.env a).ledger.verifier hash gs :=
  fun ⟨m, hm, hpanics⟩ => h m hm a ha hpanics

/-- INVARIANT (message): it brings a vertex to a member, every member can read who has signed it, and those have
    the vertex. -/
structure Carried (C : Cluster) (n : Mesh) (p : Forward) : Prop where
  dest : p.1 ∈ C.members
  vertex : ∃ v gs, p.2 = Vertex.msg v gs ∧ ∀ m ∈ gs, Legible C v.hash m ∧ n.Holds m.address v.hash

/-- INVARIANT: nothing is parked or to be fetched, and the vertices flood the graph of the connections. -/
structure Spreading (C : Cluster) (links : Address → List Address) (n : Mesh) : Prop where
  sane : ∀ a ∈ C.members, Sane (links a) (n.node a)
  carried : ∀ p ∈ n.transit, Carried C n p
  unfetched : n.fetches = []
  made : ∀ v ∈ n.created, ∃ a ∈ C.members, n.Holds a v.hash
  covered : n.flood.Covered (Linked C links)

/-! ### One node advances -/

theorem holds_self (hnode : n'.node = Function.update n.node a g') : n'.Holds a k ↔ g'.book.Holds k := by
  rw [Holds, hnode, Function.update_self]

theorem holds_of_update (hnode : n'.node = Function.update n.node a g')
    (hkeeps : ∀ k, (n.node a).book.Holds k → g'.book.Holds k) {b : Address} (hk : n.Holds b k) : n'.Holds b k := by
  rcases eq_or_ne b a with rfl | hb
  · exact (holds_self hnode).mpr (hkeeps k hk)
  · rw [Holds, hnode, Function.update_of_ne hb]
    exact hk

/-- What one node may do: it keeps its vertices, every message that is gone has brought its vertex to it, every
    vertex that it no longer has to send is sent, and for every new vertex the connected nodes are served. -/
structure Advances (C : Cluster) (links : Address → List Address) (n n' : Mesh) (a : Address) (g' : GossipNode) :
    Prop where
  node : n'.node = Function.update n.node a g'
  keeps : ∀ k, (n.node a).book.Holds k → g'.book.Holds k
  arrives : ∀ p ∈ n.transit, p ∈ n'.transit ∨ p.1 = a ∧ ∀ k, Brings k p.2 → g'.book.Holds k
  pays : ∀ v ∈ (n.node a).pipe.vrxCh, v ∈ g'.pipe.vrxCh ∨ n'.flood.Served (Linked C links) a v.hash
  passes : ∀ k, g'.book.Holds k → (n.node a).book.Holds k ∨ (∃ v ∈ g'.pipe.vrxCh, v.hash = k) ∨
    n'.flood.Served (Linked C links) a k

namespace Advances

theorem node_self (h : Advances C links n n' a g') : n'.node a = g' := by rw [h.node, Function.update_self]

theorem node_of_ne (h : Advances C links n n' a g') {b : Address} (hb : b ≠ a) : n'.node b = n.node b := by
  rw [h.node, Function.update_of_ne hb]

theorem holds (h : Advances C links n n' a g') {b : Address} (hk : n.Holds b k) : n'.Holds b k :=
  holds_of_update h.node h.keeps hk

theorem flood_step (h : Advances C links n n' a g') : Flood.Step (Linked C links) n.flood n'.flood where
  keeps b k hk := h.holds hk
  arrives b k := by
    rintro ⟨p, hp, rfl, hbrings⟩
    rcases h.arrives p hp with hstays | ⟨hdest, harrived⟩
    · exact Or.inr ⟨p, hstays, rfl, hbrings⟩
    · left
      show (n'.node p.1).book.Holds k
      rw [hdest, h.node_self]
      exact harrived k hbrings
  pays b k := by
    rintro ⟨v, hv, rfl⟩
    rcases eq_or_ne b a with rfl | hb
    · refine (h.pays v hv).imp_left fun hv' => ⟨v, ?_, rfl⟩
      rwa [h.node_self]
    · refine Or.inl ⟨v, ?_, rfl⟩
      rwa [h.node_of_ne hb]
  passes b k hk := by
    rcases eq_or_ne b a with rfl | hb
    · have hk' : (n'.node b).book.Holds k := hk
      rw [h.node_self] at hk'
      refine (h.passes k hk').imp_right (Or.imp_left fun howes => ?_)
      show ∃ v ∈ (n'.node b).pipe.vrxCh, v.hash = k
      rwa [h.node_self]
    · left
      have hk' : (n'.node b).book.Holds k := hk
      rwa [h.node_of_ne hb] at hk'

end Advances

theorem Carried.mono {p : Forward} (h : Carried C n p) (hmono : ∀ b k, n.Holds b k → n'.Holds b k) :
    Carried C n' p := by
  obtain ⟨v, gs, hmsg, hgs⟩ := h.vertex
  exact ⟨h.dest, v, gs, hmsg, fun m hm => ⟨(hgs m hm).1, hmono _ _ (hgs m hm).2⟩⟩

theorem Spreading.advance (h : Spreading C links n) (hadv : Advances C links n n' a g') (ha : a ∈ C.members)
    (hsane : Sane (links a) g') (hcarried : ∀ p ∈ n'.transit, p ∈ n.transit ∨ Carried C n' p)
    (hfetches : n'.fetches = []) (hmade : ∀ v ∈ n'.created, v ∈ n.created ∨ g'.book.Holds v.hash) :
    Spreading C links n' where
  sane b hb := by
    rcases eq_or_ne b a with rfl | hne
    · rw [hadv.node_self]
      exact hsane
    · rw [hadv.node_of_ne hne]
      exact h.sane b hb
  carried p hp := (hcarried p hp).elim (fun hold => (h.carried p hold).mono fun _ _ => hadv.holds) id
  unfetched := hfetches
  made v hv := by
    rcases hmade v hv with hold | hnew
    · obtain ⟨b, hb, hholds⟩ := h.made v hold
      exact ⟨b, hb, hadv.holds hholds⟩
    · refine ⟨a, ha, ?_⟩
      rw [Holds, hadv.node_self]
      exact hnew
  covered := h.covered.step hadv.flood_step

theorem Spreading.still (h : Spreading C links n) (ha : a ∈ C.members) (hnode : n'.node = Function.update n.node a g')
    (hsane : Sane (links a) g') (hholds : ∀ k, g'.book.Holds k ↔ (n.node a).book.Holds k)
    (hpipe : g'.pipe = (n.node a).pipe) (htransit : n'.transit = n.transit)
    (hfetches : n'.fetches = n.fetches) (hcreated : n'.created = n.created) : Spreading C links n' := by
  have hadv : Advances C links n n' a g' :=
    { node := hnode
      keeps := fun k => (hholds k).mpr
      arrives := fun p hp => Or.inl (htransit ▸ hp)
      pays := fun v hv => Or.inl (hpipe ▸ hv)
      passes := fun k hk => Or.inl ((hholds k).mp hk) }
  exact h.advance hadv ha hsane (fun p hp => Or.inl (htransit ▸ hp)) (hfetches.trans h.unfetched)
    fun v hv => Or.inl (hcreated ▸ hv)

theorem Sane.grow (hg : Sane l g) (hup : g'.down = g.down) (hclosed : g'.pipe.closed = g.pipe.closed)
    (hnodes : g'.nodes = g.nodes) (hrepeater : g'.book.repeater = g.book.repeater)
    (hkeeps : ∀ k, g.book.Holds k → g'.book.Holds k)
    (hflash : ∀ key ∈ g'.flash, key ∈ g.flash ∨ ∃ k : Hash, k.bytes = key ∧ g'.book.Holds k)
    (hpipe : ∀ v ∈ g'.pipe.vrxCh, v ∈ g.pipe.vrxCh ∨ g'.book.Holds v.hash) : Sane l g' where
  up := hup.trans hg.up
  opened := hclosed.trans hg.opened
  linked := hnodes.trans hg.linked
  rooted := by
    obtain ⟨k, hk⟩ := hg.rooted
    exact ⟨k, hkeeps k hk⟩
  unparked := hrepeater.trans hg.unparked
  remembered key hkey := by
    rcases hflash key hkey with hold | hnew
    · obtain ⟨k, hbytes, hk⟩ := hg.remembered key hold
      exact ⟨k, hbytes, hkeeps k hk⟩
    · exact hnew
  piped v hv := (hpipe v hv).elim (fun hold => hkeeps _ (hg.piped v hold)) id

/-- The members sign in their own names, with signatures over which no member panics, and are connected to
    members. -/
structure Honest (C : Cluster) (links : Address → List Address) : Prop where
  own : ∀ a ∈ C.members, (C.env a).ledger.signer.address = a
  legible : ∀ a ∈ C.members, ∀ hash, Legible C hash ((C.env a).ledger.signer.gossiper hash)
  inside : ∀ a ∈ C.members, ∀ b ∈ links a, b ∈ C.members

/-! ### The steps -/

/-- A node that has the vertex has served the connected nodes when every other one has it or is sent it. -/
theorem served_of_others (hself : n'.Holds a k) (hothers : ∀ b ∈ links a, b ≠ a → n'.Holds b k ∨
    ∃ p ∈ n'.transit, p.1 = b ∧ Brings k p.2) : n'.flood.Served (Linked C links) a k := by
  rintro b ⟨-, hb⟩
  rcases eq_or_ne b a with rfl | hne
  · exact Or.inl hself
  · exact hothers b hb hne

theorem createLeaf_done {s : Service} {book : Book} {vrx : Vertex} (hopen : s.pipe.closed = false)
    (h : s.book.createLeaf env.ledger trx w.first w.second w.now w.ledger = (book, .done vrx)) :
    (s.createLeaf env w trx forget).1 =
      { s with book, pipe := { s.pipe with vrxCh := s.pipe.vrxCh ++ [vrx] }, tasks := s.tasks ++ [forget] } := by
  simp [Service.createLeaf, h, Juggler.sendVrx, hopen]

theorem createLeaf_failed {s : Service} {book : Book} {e : Err}
    (h : s.book.createLeaf env.ledger trx w.first w.second w.now w.ledger = (book, .failed e)) :
    (s.createLeaf env w trx forget).1 = { s with book } := by
  simp [Service.createLeaf, h]

theorem create_kept (hup : (n.node a).down = false) (hkept : (n.create C a trx w).refused = false) :
    let made := (n.node a).book.createLeaf (C.env a).ledger trx w.first w.second w.now w.ledger
    (n.node a).book.discards made.1 = false ∧ ∀ e, made.2 = .failed e → .panicked ∉ e := by
  unfold Mesh.create at hkept
  rw [if_neg (by simp [hup])] at hkept
  generalize (n.node a).book.createLeaf (C.env a).ledger trx w.first w.second w.now w.ledger = made at hkept ⊢
  obtain ⟨book, vrx | e | _⟩ := made
  · exact ⟨(Bool.or_eq_false_iff.mp hkept).2, nofun⟩
  · obtain ⟨hkept, hreturns⟩ := Bool.or_eq_false_iff.mp hkept
    refine ⟨(Bool.or_eq_false_iff.mp hkept).2, ?_⟩
    rintro _ ⟨⟩
    simpa using hreturns
  · exact ⟨(Bool.or_eq_false_iff.mp hkept).2, nofun⟩

theorem Spreading.create (h : Spreading C links n) (ha : a ∈ C.members) (trx : Transaction) (w : Circumstance)
    (hkept : (n.create C a trx w).refused = false) : Spreading C links (n.create C a trx w) := by
  have hg := h.sane a ha
  obtain ⟨root, hroot⟩ := hg.rooted
  obtain ⟨hnone, hreturns⟩ := create_kept hg.up hkept
  obtain ⟨hrepeater, hcases⟩ := createLeaf_inTurn hroot hnone
  unfold Mesh.create
  rw [if_neg (by simp [hg.up])]
  generalize hres : (n.node a).book.createLeaf (C.env a).ledger trx w.first w.second w.now w.ledger = made
    at hreturns hrepeater hcases ⊢
  obtain ⟨book, out⟩ := made
  rcases hcases with ⟨vrx, rfl, hholds⟩ | ⟨e, rfl, hholds⟩
  · simp only [createLeaf_done hg.opened hres]
    have hkeeps : ∀ k, (n.node a).book.Holds k → book.Holds k := fun k hk => (hholds k).mpr (Or.inl hk)
    have hnew : ∀ v ∈ [vrx], book.Holds v.hash := fun v hv => (hholds _).mpr (Or.inr (by rw [List.mem_singleton.mp hv]))
    have hlast : vrx ∈ (n.node a).pipe.vrxCh ++ [vrx] := List.mem_append_right _ (List.mem_singleton_self vrx)
    refine h.advance ⟨rfl, hkeeps, fun p hp => Or.inl hp, fun v hv => Or.inl (List.mem_append_left _ hv),
      fun k hk => ?_⟩ ha (hg.grow rfl rfl rfl hrepeater hkeeps (fun key hkey => Or.inl hkey) fun v hv => ?_)
      (fun p hp => Or.inl hp) h.unfetched fun v hv => (List.mem_append.mp hv).imp_right (hnew v)
    · exact ((hholds k).mp hk).imp_right fun htip => Or.inl ⟨vrx, hlast, htip.symm⟩
    · exact (List.mem_append.mp hv).imp_right (hnew v)
  · simp only [createLeaf_failed hres, hreturns e rfl, decide_false]
    have hsane : Sane (links a) { n.node a with book, down := false } :=
      hg.grow hg.up.symm rfl rfl hrepeater (fun k => (hholds k).mpr) (fun key hkey => Or.inl hkey) fun v hv => Or.inl hv
    exact h.still ha rfl hsane hholds rfl rfl rfl rfl

theorem Spreading.dispatch (hC : Honest C links) (h : Spreading C links n) (ha : a ∈ C.members)
    (hv : (n.node a).pipe.vrxCh[i]? = some v) (hnode : n'.node = Function.update n.node a
      { n.node a with pipe := { (n.node a).pipe with vrxCh := (n.node a).pipe.vrxCh.eraseIdx i } })
    (htransit : n'.transit = n.transit ++ ((n.node a).others c ((∅ : Gossipers).insert (C.env a).ledger.signer.address
      ((C.env a).ledger.signer.gossiper v.hash))).map fun b => (b, v.msg [(C.env a).ledger.signer.gossiper v.hash]))
    (hfetches : n'.fetches = n.fetches) (hcreated : n'.created = n.created) : Spreading C links n' := by
  have hg := h.sane a ha
  have hholds : (n.node a).book.Holds v.hash := hg.piped v (List.mem_of_getElem? hv)
  have hholds' : n'.Holds a v.hash := (holds_self hnode).mpr hholds
  have hserved : n'.flood.Served (Linked C links) a v.hash := by
    refine served_of_others hholds' fun b hb hne => Or.inr
      ⟨(b, v.msg [(C.env a).ledger.signer.gossiper v.hash]), ?_, rfl, brings_msg.mpr rfl⟩
    rw [htransit]
    refine List.mem_append_right _ (List.mem_map.mpr ⟨b, ?_, rfl⟩)
    refine List.mem_filter.mpr ⟨mem_enumerate.mpr (hg.linked ▸ hb), decide_eq_true ?_⟩
    rw [AList.mem_insert, hC.own a ha]
    exact not_or.mpr ⟨hne, AList.notMem_empty b⟩
  have hadv : Advances C links n n' a _ :=
    { node := hnode
      keeps := fun k hk => hk
      arrives := fun p hp => Or.inl (htransit ▸ List.mem_append_left _ hp)
      pays := fun u hu => by
        obtain ⟨j, hj⟩ := List.mem_iff_getElem?.mp hu
        rcases eq_or_ne j i with rfl | hne
        · cases hv.symm.trans hj
          exact Or.inr hserved
        · exact Or.inl (List.mem_eraseIdx_iff_getElem?.mpr ⟨j, hne, hj⟩)
      passes := fun k hk => Or.inl hk }
  refine h.advance hadv ha (hg.grow rfl rfl rfl rfl (fun k hk => hk) (fun key hkey => Or.inl hkey) fun u hu =>
    Or.inl (List.mem_of_mem_eraseIdx hu)) (fun p hp => ?_) (hfetches.trans h.unfetched) fun u hu =>
    Or.inl (hcreated ▸ hu)
  rw [htransit] at hp
  refine (List.mem_append.mp hp).imp_right fun hsent => ?_
  obtain ⟨b, hb, rfl⟩ := List.mem_map.mp hsent
  have hlink : b ∈ links a := hg.linked ▸ mem_enumerate.mp (List.mem_filter.mp hb).1
  refine ⟨hC.inside a ha b hlink, v, _, rfl, fun m hm => ?_⟩
  have haddress : ((C.env a).ledger.signer.gossiper v.hash).address = a := hC.own a ha
  rw [List.mem_singleton.mp hm, haddress]
  exact ⟨hC.legible a ha _, hholds'⟩

theorem Spreading.send (hC : Honest C links) (h : Spreading C links n) (ha : a ∈ C.members) (i : ℕ) (c : GossipMeets) :
    Spreading C links (n.send C a i c) := by
  have hg := h.sane a ha
  unfold Mesh.send GossipNode.runVertexGossip
  cases hv : (n.node a).pipe.vrxCh[i]? with
  | none => exact h.still ha rfl hg (fun _ => Iff.rfl) rfl (List.append_nil _) rfl rfl
  | some v =>
    simp only
    rw [if_neg (by simp [hg.up])]
    exact h.dispatch hC ha hv rfl rfl rfl rfl

theorem Sane.ignores (hg : Sane l g) (hself : ∀ m ∈ gs, m.address = env.ledger.signer.address → g.book.Holds v.hash)
    (h : Known c g.flash v.hash.bytes ∨ Signed env v.hash gs) : g.book.Holds v.hash := by
  rcases h with ⟨-, hflash, -⟩ | ⟨m, hm, haddress, -⟩
  · obtain ⟨k, hbytes, hk⟩ := hg.remembered _ hflash
    rwa [← Hash.bytes_inj.mp hbytes]
  · exact hself m hm haddress

theorem mem_notes {flash : Flashback} {hash key : Bytes} (h : key ∈ c.notes flash hash) :
    key ∈ flash ∨ key = hash := by
  unfold GossipMeets.notes at h
  split at h
  · exact Or.inl h
  · exact (Finset.mem_insert.mp h).symm

/-- CONDITION: a vertex that is handed to `AddLeaf` finds both its parents in the graph. -/
def InTurn (C : Cluster) (n : Mesh) : Event → Prop
  | .deliver i c => ∀ p ∈ n.transit[i]?, ∀ v ∈ (n.node p.1).handed (C.env p.1) c p.2, ∀ h ∈ v.parentHashes,
      n.Holds p.1 h
  | _ => True

instance (C : Cluster) (n : Mesh) : ∀ e, Decidable (InTurn C n e)
  | .deliver i c => inferInstanceAs (Decidable (∀ p ∈ n.transit[i]?, ∀ v ∈ (n.node p.1).handed (C.env p.1) c p.2,
      ∀ h ∈ v.parentHashes, n.Holds p.1 h))
  | .create _ _ _ | .send _ _ _ | .tick _ | .replay _ _ _ | .fetch _ _ _ | .giveUp _ | .forget _ _ => isTrue trivial

/-- STEP (message): the vertex is there afterwards, and those connected have it, or it is passed on to them. -/
theorem Spreading.arrive {forwards : List Forward} (h : Spreading C links n)
    (hp : n.transit[i]? = some (dest, v.msg gs)) (hdest : dest ∈ C.members) (hsane : Sane (links dest) g')
    (hnode : n'.node = Function.update n.node dest g') (htransit : n'.transit = n.transit.eraseIdx i ++ forwards)
    (hfetches : n'.fetches = []) (hcreated : n'.created = n.created) (hpipe : g'.pipe = (n.node dest).pipe)
    (hholds : ∀ k, g'.book.Holds k ↔ (n.node dest).book.Holds k ∨ k = v.hash)
    (hserved : (n.node dest).book.Holds v.hash ∨ n'.flood.Served (Linked C links) dest v.hash)
    (hforwards : ∀ f ∈ forwards, Carried C n' f) : Spreading C links n' := by
  have hadv : Advances C links n n' dest g' :=
    { node := hnode
      keeps := fun k hk => (hholds k).mpr (Or.inl hk)
      arrives := fun p hmem => by
        obtain ⟨j, hj⟩ := List.mem_iff_getElem?.mp hmem
        rcases eq_or_ne j i with rfl | hne
        · right
          cases hp.symm.trans hj
          exact ⟨rfl, fun k hk => (hholds k).mpr (Or.inr (brings_msg.mp hk))⟩
        · left
          rw [htransit]
          exact List.mem_append_left _ (List.mem_eraseIdx_iff_getElem?.mpr ⟨j, hne, hj⟩)
      pays := fun u hu => Or.inl (hpipe ▸ hu)
      passes := fun k hk => by
        rcases (hholds k).mp hk with hold | rfl
        · exact Or.inl hold
        · exact hserved.imp_right Or.inr }
  refine h.advance hadv hdest hsane (fun p hmem => ?_) hfetches fun u hu => Or.inl (hcreated ▸ hu)
  rw [htransit] at hmem
  exact (List.mem_append.mp hmem).imp List.mem_of_mem_eraseIdx (hforwards p)

/-- A node that has added the vertex serves those connected: who has signed has it, and the others are sent it. -/
theorem Spreading.relay {rest : List Forward} (hC : Honest C links) (h : Spreading C links n)
    (hdest : dest ∈ C.members) (hgs : ∀ m ∈ gs, Legible C v.hash m ∧ n.Holds m.address v.hash)
    (hnode : n'.node = Function.update n.node dest g')
    (htransit : n'.transit = rest ++ forwardsOf (C.env dest) c (n.node dest) v.hash gs v.msg)
    (hkeeps : ∀ k, (n.node dest).book.Holds k → g'.book.Holds k) (hthere : g'.book.Holds v.hash) :
    n'.flood.Served (Linked C links) dest v.hash ∧
      ∀ f ∈ forwardsOf (C.env dest) c (n.node dest) v.hash gs v.msg, Carried C n' f := by
  have ht := Legible.not_breaking (fun m hm => (hgs m hm).1) hdest
  have hlinked := (h.sane dest hdest).linked
  have hself : n'.Holds dest v.hash := (holds_self hnode).mpr hthere
  have hsigned : ∀ m ∈ gs, n'.Holds m.address v.hash := fun m hm => holds_of_update hnode hkeeps (hgs m hm).2
  refine ⟨served_of_others hself fun b hb hne => ?_, fun f hf => ?_⟩
  · by_cases hb' : ∃ m ∈ gs, m.address = b ∧ m.Verifies (C.env dest).ledger.verifier v.hash
    · obtain ⟨m, hm, rfl, -⟩ := hb'
      exact Or.inl (hsigned m hm)
    · refine Or.inr ⟨(b, v.msg (passedOn (C.env dest) c v.hash gs)), ?_, rfl, brings_msg.mpr rfl⟩
      rw [htransit]
      refine List.mem_append_right _ ((mem_forwardsOf c v.msg ht).mpr ⟨hlinked ▸ hb, ?_, hb', rfl⟩)
      rwa [hC.own dest hdest]
  · obtain ⟨hnodes, -, -, hmsg⟩ := (mem_forwardsOf c v.msg ht).mp hf
    refine ⟨hC.inside dest hdest _ (hlinked ▸ hnodes), v, _, hmsg, fun m hm => ?_⟩
    rcases passedOn_cases c ht hm with rfl | ⟨hgiven, -⟩
    · have haddress : ((C.env dest).ledger.signer.gossiper v.hash).address = dest := hC.own dest hdest
      rw [haddress]
      exact ⟨hC.legible dest hdest _, hself⟩
    · exact ⟨(hgs m hgiven).1, hsigned m hgiven⟩

theorem Spreading.add (hC : Honest C links) (h : Spreading C links n) (hp : n.transit[i]? = some (dest, v.msg gs))
    (hdest : dest ∈ C.members) (hgs : ∀ m ∈ gs, Legible C v.hash m ∧ n.Holds m.address v.hash)
    (hsane : Sane (links dest) g') (hnode : n'.node = Function.update n.node dest g')
    (htransit : n'.transit = n.transit.eraseIdx i ++ forwardsOf (C.env dest) c (n.node dest) v.hash gs v.msg)
    (hfetches : n'.fetches = []) (hcreated : n'.created = n.created) (hpipe : g'.pipe = (n.node dest).pipe)
    (hholds : ∀ k, g'.book.Holds k ↔ (n.node dest).book.Holds k ∨ k = v.hash) : Spreading C links n' := by
  have hkeeps : ∀ k, (n.node dest).book.Holds k → g'.book.Holds k := fun k hk => (hholds k).mpr (Or.inl hk)
  obtain ⟨hserved, hcarried⟩ := h.relay hC hdest hgs hnode htransit hkeeps ((hholds _).mpr (Or.inr rfl))
  exact h.arrive hp hdest hsane hnode htransit hfetches hcreated hpipe hholds (Or.inr hserved) hcarried

theorem Spreading.ignore (h : Spreading C links n) (hp : n.transit[i]? = some (dest, v.msg gs))
    (hdest : dest ∈ C.members) (hthere : (n.node dest).book.Holds v.hash)
    (hnode : n'.node = Function.update n.node dest
      { n.node dest with flash := c.notes (n.node dest).flash v.hash.bytes })
    (htransit : n'.transit = n.transit.eraseIdx i ++ []) (hfetches : n'.fetches = [])
    (hcreated : n'.created = n.created) : Spreading C links n' := by
  have hsane : Sane (links dest) { n.node dest with flash := c.notes (n.node dest).flash v.hash.bytes } :=
    (h.sane dest hdest).grow rfl rfl rfl rfl (fun k hk => hk)
      (fun key hkey => (mem_notes hkey).imp_right fun hkey => ⟨v.hash, hkey.symm, hthere⟩) fun u hu => Or.inl hu
  refine h.arrive hp hdest hsane hnode htransit hfetches hcreated rfl (fun k => ⟨Or.inl, ?_⟩) (Or.inl hthere)
    fun f hf => (List.not_mem_nil hf).elim
  rintro (hk | rfl)
  · exact hk
  · exact hthere

theorem Spreading.deliver (hC : Honest C links) (h : Spreading C links n) (i : ℕ) (c : GossipMeets)
    (hturn : InTurn C n (.deliver i c)) (hkept : (n.deliver C i c).refused = false) :
    Spreading C links (n.deliver C i c) := by
  unfold Mesh.deliver at hkept ⊢
  cases hp : n.transit[i]? with
  | none => exact h
  | some p =>
    obtain ⟨dest, msg⟩ := p
    obtain ⟨hdest, v, gs, rfl, hgs⟩ := h.carried _ (List.mem_of_getElem? hp)
    have hg := h.sane dest hdest
    have ht := Legible.not_breaking (fun m hm => (hgs m hm).1) hdest
    simp only [hp] at hkept ⊢
    by_cases hignored : Known c (n.node dest).flash v.hash.bytes ∨ Signed (C.env dest) v.hash gs
    · have hthere : (n.node dest).book.Holds v.hash := by
        refine hg.ignores (fun m hm haddress => ?_) hignored
        rw [hC.own dest hdest] at haddress
        exact haddress ▸ (hgs m hm).2
      simp only [handed_ignored ht hignored, receive_ignored hg.up ht hignored]
      exact h.ignore hp hdest hthere rfl rfl h.unfetched rfl
    · obtain ⟨hknown, hs⟩ := not_or.mp hignored
      obtain ⟨u, hu, huv⟩ := v.readable
      have hhanded := handed_taken hg.up ht hknown hs hu
      simp only [hhanded] at hkept ⊢
      rcases addLeaf_inTurn (hturn _ hp u hhanded) (Bool.or_eq_false_iff.mp hkept).2 with
        ⟨e, hadd, hreturns, hthere, hnone⟩ | ⟨book, hadd, hrepeater, hholds⟩
      · -- `AddLeaf` has found the vertex in the graph
        simp only [Mesh.account, hadd, receive_failed hg.up ht hknown hs hu hreturns hadd, hnone]
        exact h.ignore hp hdest (huv ▸ hthere) rfl rfl (by simp [h.unfetched, setNode]) rfl
      · rw [huv] at hholds
        obtain ⟨cache, tasks, hreceive⟩ := receive_added hg.up ht hknown hs hu hadd
        have hsane : Sane (links dest)
            { n.node dest with book, cache, tasks, flash := c.notes (n.node dest).flash v.hash.bytes } :=
          hg.grow rfl rfl rfl hrepeater (fun k hk => (hholds k).mpr (Or.inl hk)) (fun key hkey =>
            (mem_notes hkey).imp_right fun hkey => ⟨v.hash, hkey.symm, (hholds _).mpr (Or.inr rfl)⟩)
            fun u hu => Or.inl hu
        simp only [Mesh.account, hadd, hreceive, lackingParents]
        exact h.add hC hp hdest hgs hsane rfl rfl (by simp [h.unfetched, setNode]) rfl rfl hholds

theorem step_refused (C : Cluster) (n : Mesh) (e : Event) (h : n.refused = true) : (n.step C e).refused = true := by
  cases e with
  | create a trx w =>
    simp only [Mesh.step, Mesh.create]
    repeat' split
    all_goals simp [setNode, h]
  | deliver i c =>
    simp only [Mesh.step, Mesh.deliver, Mesh.account]
    repeat' split
    all_goals simp [setNode, h]
  | replay a probe faults =>
    simp only [Mesh.step, Mesh.replay]
    repeat' split
    all_goals simp [h]
  | fetch i silent c =>
    simp only [Mesh.step, Mesh.fetch, Mesh.account]
    repeat' split
    all_goals simp [setNode, h]
  | giveUp i =>
    simp only [Mesh.step, Mesh.giveUp]
    repeat' split
    all_goals exact h
  | send a i c =>
    simp only [Mesh.step]
    split <;> exact h
  | tick a =>
    simp only [Mesh.step]
    split <;> exact h
  | forget a key =>
    simp only [Mesh.step]
    split <;> exact h

theorem Spreading.step (hC : Honest C links) (h : Spreading C links n) (e : Event) (hturn : InTurn C n e)
    (hkept : (n.step C e).refused = false) : Spreading C links (n.step C e) := by
  cases e with
  | create a trx w =>
    simp only [Mesh.step] at hkept ⊢
    split at hkept
    next ha =>
      rw [if_pos ha]
      exact h.create ha trx w hkept
    next ha =>
      rw [if_neg ha]
      exact h
  | send a i c =>
    simp only [Mesh.step]
    split
    next ha => exact h.send hC ha i c
    · exact h
  | deliver i c => exact h.deliver hC i c hturn hkept
  | tick a =>
    simp only [Mesh.step]
    split
    next ha =>
      have hg := h.sane a ha
      refine h.still ha rfl (hg.grow rfl rfl rfl ?_ (fun k hk => hk) (fun key hkey => Or.inl hkey)
        fun v hv => Or.inl hv) (fun k => Iff.rfl) rfl rfl rfl rfl
      show (n.node a).book.repeater.tick = (n.node a).book.repeater
      rw [hg.unparked, Buffer.tick, Buffer.getNext_eq]
      rfl
    · exact h
  | replay a probe faults =>
    simp only [Mesh.step]
    split
    next ha =>
      have hg := h.sane a ha
      have hnone : n.replay C a probe faults = n := by
        simp only [Mesh.replay, hg.up, hg.unparked, Buffer.empty]
      rw [hnone]
      exact h
    · exact h
  | fetch i silent c =>
    have hnone : n.step C (.fetch i silent c) = n := by
      simp [Mesh.step, Mesh.fetch, h.unfetched]
    rw [hnone]
    exact h
  | giveUp i =>
    have hnone : n.step C (.giveUp i) = n := by
      simp [Mesh.step, Mesh.giveUp, h.unfetched]
    rw [hnone]
    exact h
  | forget a key =>
    simp only [Mesh.step]
    split
    next ha =>
      exact h.still ha rfl ((h.sane a ha).grow rfl rfl rfl rfl (fun k hk => hk)
        (fun key hkey => Or.inl (Finset.mem_of_mem_erase hkey)) fun v hv => Or.inl hv) (fun k => Iff.rfl)
        rfl rfl rfl rfl
    · exact h

/-! ### The law -/

/-- A mesh at its start: honest members in a connected graph of symmetric connections, all up and with the same
    graph of vertices, and nothing made, parked or in flight yet. -/
structure Fresh (C : Cluster) (n : Mesh) : Prop where
  honest : Honest C fun a => (n.node a).nodes
  symmetric : ∀ a ∈ C.members, ∀ b ∈ C.members, b ∈ (n.node a).nodes → a ∈ (n.node b).nodes
  connected : ∀ a ∈ C.members, ∀ b ∈ C.members, Relation.ReflTransGen (Linked C fun a => (n.node a).nodes) a b
  same : ∀ a ∈ C.members, ∀ b ∈ C.members, (n.node a).book.dag = (n.node b).book.dag
  loaded : ∀ a ∈ C.members, (n.node a).book.dagLoaded = true ∧ ∃ k, n.Holds a k
  idle : ∀ a ∈ C.members, (n.node a).down = false ∧ (n.node a).pipe.closed = false ∧ (n.node a).pipe.vrxCh = [] ∧
    (n.node a).flash = ∅ ∧ (n.node a).book.repeater = Buffer.empty
  silent : n.transit = [] ∧ n.fetches = [] ∧ n.created = [] ∧ n.refused = false

theorem Fresh.spreading (h : Fresh C n) : Spreading C (fun a => (n.node a).nodes) n where
  sane a ha := by
    obtain ⟨hup, hopened, hpipe, hflash, hrepeater⟩ := h.idle a ha
    refine ⟨hup, hopened, rfl, (h.loaded a ha).2, hrepeater, fun key hkey => ?_, fun v hv => ?_⟩
    · rw [hflash] at hkey
      exact (Finset.notMem_empty key hkey).elim
    · rw [hpipe] at hv
      cases hv
  carried p hp := by
    rw [h.silent.1] at hp
    cases hp
  unfetched := h.silent.2.1
  made v hv := by
    rw [h.silent.2.2.1] at hv
    cases hv
  covered a k hk := by
    refine Or.inr fun b hb => Or.inl ?_
    show k ∈ (n.node b).book.dag.graph.nodes
    rw [← h.same a hb.1 b (h.honest.inside a hb.1 b hb.2)]
    exact hk

/-- BUG with its CONDITION: where every vertex that is handed to `AddLeaf` finds its parents in the ledger, all
    vertices have reached all members as soon as nothing is in flight, parked or to be fetched, if none was
    refused on the way. -/
theorem vertices_reach_everybody (C : Cluster) (n : Mesh) (es : List Event) (h : Fresh C n)
    (hturn : Along (Mesh.step C) (InTurn C) n es) (hquiet : (run (Mesh.step C) n es).Quiescent C)
    (hkept : (run (Mesh.step C) n es).refused = false) :
    ∀ v ∈ (run (Mesh.step C) n es).created, ∀ a ∈ C.members, (run (Mesh.step C) n es).Holds a v.hash := by
  have hrun : (run (Mesh.step C) n es).refused = false →
      Spreading C (fun a => (n.node a).nodes) (run (Mesh.step C) n es) := by
    refine run_invariant_along (I := fun s => s.refused = false → Spreading C _ s) (fun s e he hs hkept => ?_) hturn
      fun _ => h.spreading
    refine (hs ?_).step h.honest e he hkept
    by_contra hrefused
    rw [step_refused C s e (by simpa using hrefused)] at hkept
    cases hkept
  have hspreading := hrun hkept
  obtain ⟨htransit, -, hidle⟩ := hquiet
  intro v hv a ha
  obtain ⟨b, hb, hholds⟩ := hspreading.made v hv
  refine hspreading.covered.spreads ?_ ?_ (h.connected b hb a ha) hholds
  · rintro x y k ⟨hx, -⟩ ⟨u, hu, -⟩
    rw [(hidle x hx).1] at hu
    cases hu
  · rintro x k ⟨p, hp, -⟩
    rw [htransit] at hp
    cases hp

end Mesh

namespace Transparent

/-- Three nodes in a line, each with the ledger of the sample server. -/
def lineNode (a : Address) : GossipNode :=
  { service with nodes := if a = wallet 4 then [wallet 3, wallet 5] else [wallet 4] }

def lineCluster : Cluster := ⟨{wallet 3, wallet 4, wallet 5}, fun a => ⟨env a, plainCodec, 1024⟩⟩

def line : Mesh := ⟨lineNode, [], [], [], false⟩

theorem line_fresh : line.Fresh lineCluster where
  honest := by
    refine ⟨by decide +kernel, fun a _ hash b _ => ?_, by decide +kernel⟩
    exact fun hpanics => verifier_ne_panicked _ _ _ _ ((Verifier.breaks_iff (Hash.ofSlice_bytes _)).mp hpanics)
  symmetric := by decide +kernel
  connected a ha b hb := by
    have hmiddle : ∀ x ∈ lineCluster.members,
        x = wallet 4 ∨ x ∈ (line.node (wallet 4)).nodes ∧ wallet 4 ∈ (line.node x).nodes := by
      decide +kernel
    have hto : Relation.ReflTransGen (Mesh.Linked lineCluster fun a => (line.node a).nodes) a (wallet 4) := by
      rcases hmiddle a ha with rfl | ⟨-, hlink⟩
      · exact .refl
      · exact .single ⟨ha, hlink⟩
    rcases hmiddle b hb with rfl | ⟨hlink, -⟩
    · exact hto
    · exact hto.tail ⟨by decide +kernel, hlink⟩
  same _ _ _ _ := rfl
  loaded a _ := by
    have hroot : service.book.Holds (root 10).hash := by decide +kernel
    exact ⟨rfl, _, hroot⟩
  idle _ _ := ⟨rfl, rfl, rfl, rfl, rfl⟩
  silent := ⟨rfl, rfl, rfl, rfl⟩

/-- Two payments one after the other, each at another end of the line. -/
def oneByOne : List Mesh.Event :=
  [.create (wallet 3) (trx (wallet 7) (wallet 8) ⟨4, 0⟩ [] 3) (calmly 5), .send (wallet 3) 0 calmMeets,
    .deliver 0 calmMeets, .deliver 0 calmMeets,
    .create (wallet 5) (trx (wallet 7) (wallet 8) ⟨5, 0⟩ [] 4) (calmly 6), .send (wallet 5) 0 calmMeets,
    .deliver 0 calmMeets, .deliver 0 calmMeets]

/-- Two payments at one end; the second vertex comes to the middle before the first. The parent that it lacks is
    fetched when it has come already, and the vertex is added from the replier. -/
def overtaking : List Mesh.Event :=
  [.create (wallet 3) (trx (wallet 7) (wallet 8) ⟨4, 0⟩ [] 3) (calmly 5),
    .create (wallet 3) (trx (wallet 7) (wallet 8) ⟨5, 0⟩ [] 4) (calmly 6),
    .send (wallet 3) 0 calmMeets, .send (wallet 3) 0 calmMeets,
    .deliver 1 calmMeets, .deliver 0 calmMeets, .deliver 0 calmMeets,
    .fetch 0 [] calmMeets, .tick (wallet 4), .replay (wallet 4) (fun _ => .calm []) .none]

end Transparent

open Transparent in
/-- Both payments are everywhere. -/
theorem payments_reach_everybody :
    let final := run (Mesh.step lineCluster) line oneByOne
    line.Fresh lineCluster ∧ Along (Mesh.step lineCluster) (Mesh.InTurn lineCluster) line oneByOne ∧
      final.Quiescent lineCluster ∧ final.refused = false ∧ final.created.length = 2 ∧
      ∀ v ∈ final.created, ∀ a ∈ lineCluster.members, final.Holds a v.hash := by
  have hrun : Along (Mesh.step lineCluster) (Mesh.InTurn lineCluster) line oneByOne ∧
      (run (Mesh.step lineCluster) line oneByOne).Quiescent lineCluster ∧
      (run (Mesh.step lineCluster) line oneByOne).refused = false ∧
      (run (Mesh.step lineCluster) line oneByOne).created.length = 2 := by
    decide +kernel
  obtain ⟨hturn, hquiet, hkept, hlength⟩ := hrun
  exact ⟨line_fresh, hturn, hquiet, hkept, hlength,
    Mesh.vertices_reach_everybody lineCluster line oneByOne line_fresh hturn hquiet hkept⟩

open Transparent in
/-- The second vertex never leaves the middle of the line. -/
theorem overtaking_vertex_stays :
    let final := run (Mesh.step lineCluster) line overtaking
    line.Fresh lineCluster ∧ final.Quiescent lineCluster ∧ final.refused = false ∧
      ∃ v ∈ final.created, ∃ a ∈ lineCluster.members, ¬ final.Holds a v.hash := by
  refine ⟨line_fresh, ?_⟩
  decide +kernel

end Computantis
