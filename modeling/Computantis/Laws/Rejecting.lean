import Computantis.Laws.Failing
import Computantis.Laws.Settling

/-! @law rejecting | name:What a rejection does to the money | family:refinement | about:Model/Service

    A rejected transaction is sealed into a leaf like a confirmed one, and the funds code looks at its
    spice only. So a rejection moves what a confirmation would have moved, and it leaves the balances
    alone exactly when there is nothing to move: the transaction has no spice, or goes to its issuer.

        parents' past ──── balance ────▶ x
             │                           │
          + leaf ───────── balance ────▶ x + received − issued in the rejected transaction -/

namespace Computantis

open Schemes

/-! ### Balances over some vertices -/

/-- `CalculateBalance` over the given vertices, delivered in this order. -/
def Book.balanceOver (codec : Codec) (b : Book) (ids : List Hash) (a : Address) : Except Err Melange :=
  match Book.walkBalance b.dag a none ids 0 [] Pots.zero with
  | .error e => .error e
  | .ok pots =>
    match b.readAddressFundsFromStorage codec a false with
    | (_, some .errUnexpected) => .error [.errUnexpected]
    | (s, _) => Book.settleBalance s pots

/-- What the address has in the store and over the given vertices, negative in debt. -/
def worthOver (codec : Codec) (b : Book) (ids : List Hash) (a : Address) : ℤ :=
  (b.stored codec a).value + received a (b.dag.vertices (firsts [] ids)) -
    issued a (b.dag.vertices (firsts [] ids))

section Over

variable {codec : Codec} {b b' : Book} {a : Address} {ids : List Hash}

theorem balanceOver_ok_iff (h : FundsFit codec b a) (hids : ∀ id ∈ ids, id ∈ b.dag.graph.nodes) (m : Melange) :
    b.balanceOver codec ids a = .ok m ↔ m.Norm ∧ (m.value : ℤ) = worthOver codec b ids a := by
  have hnd := firsts_nodup ids []
  have hall : AllNorm (b.dag.vertices (firsts [] ids)) := fun v hv =>
    h.norm v (Dag.mem_all.mpr (Dag.mem_vertices.mp hv).2)
  have hi := b.dag.issued_le_all a hnd
  have hr := b.dag.received_le_all a hnd
  have hissued := h.issued
  have hreceived := h.received
  have hzero : Pots.zero.spiceOut.value = 0 ∧ Pots.zero.spiceIn.value = 0 := by simp [Pots.zero]
  obtain ⟨q, hq, hqn, hqo, hqi⟩ := foldFunds_exact (a := a) Pots.norm_zero hall (by omega) (by omega)
  have hsettle : Book.settleBalance (b.stored codec a) q = .ok m ↔
      m.Norm ∧ (m.value : ℤ) = worthOver codec b ids a := by
    rw [settleBalance_ok_iff h.stored_norm hqn (by omega), hqo, hqi, worthOver]
    exact and_congr_right fun _ => by omega
  rw [Book.balanceOver, walkBalance_calm ids 0 [] _ hids, hq]
  simp only
  rcases readAddressFunds_calm codec b a with hread | hread <;> rw [hread] <;> exact hsettle

theorem balanceOver_frame (codec : Codec) (hids : ∀ id ∈ ids, id ∈ b.dag.graph.nodes)
    (hget : ∀ id ∈ ids, b'.dag.getVertex id = b.dag.getVertex id) (hf : Frame b b') (a : Address) :
    b'.balanceOver codec ids a = b.balanceOver codec ids a ∧ worthOver codec b' ids a = worthOver codec b ids a := by
  have hids' : ∀ id ∈ ids, id ∈ b'.dag.graph.nodes := by
    intro id hid
    obtain ⟨v, hv⟩ := Digraph.mem_nodes.mp (hids id hid)
    exact Dag.mem_nodes ((hget id hid).trans hv)
  have hvertices : b'.dag.vertices (firsts [] ids) = b.dag.vertices (firsts [] ids) :=
    Dag.vertices_congr fun id hid => hget id (mem_firsts.mp hid).1
  have hread : b'.readAddressFundsFromStorage codec a false = b.readAddressFundsFromStorage codec a false := by
    simp only [Book.readAddressFundsFromStorage, hf.verticesDB]
  constructor
  · rw [Book.balanceOver, Book.balanceOver, walkBalance_calm ids 0 [] _ hids, walkBalance_calm ids 0 [] _ hids',
      hvertices, hread]
  · rw [worthOver, worthOver, hvertices, Book.stored, Book.stored, hread]

end Over

/-! ### A leaf on top -/

/-- What the transaction adds to the balance of the address. -/
def Transaction.moved (t : Transaction) (a : Address) : ℤ :=
  (if t.receiverAddress = a then t.spice.value else 0) - (if t.issuerAddress = a then t.spice.value else 0)

theorem Transaction.moved_eq_zero (t : Transaction) (a : Address) : t.moved a = 0 ↔
    t.isSpiceTransfer = false ∨ t.issuerAddress = t.receiverAddress ∨ ¬ t.Concerns a := by
  rw [Transaction.isSpiceTransfer_eq_false, Transaction.moved, Transaction.Concerns]
  by_cases hi : t.issuerAddress = a <;> by_cases hr : t.receiverAddress = a
  · simp [hi, hr]
  · simp [hi, hr, Ne.symm hr]
  · simp [hi, hr]
  · simp [hi, hr]

section Leaf

variable {codec : Codec} {b : Book} {a : Address} {v : Vertex} {ids : List Hash}

theorem pourFunds_idle (p : Pots) (h : v.transaction.isSpiceTransfer = false ∨ ¬ v.transaction.Concerns a) :
    pourFunds a v p = .ok p := by
  unfold pourFunds
  rcases h with h | h
  · simp [h]
  · rw [Transaction.Concerns, not_or] at h
    simp [h.1, h.2, Except.bind]

theorem balanceFrom_idle (hv : b.dag.getVertex v.hash = some v) (hids : ∀ x, x ∈ ids ↔ b.dag.graph.Anc x v.hash)
    (h : v.transaction.isSpiceTransfer = false ∨ ¬ v.transaction.Concerns a) :
    b.balanceFrom codec v.hash ⟨ids, none⟩ false a = b.balanceOver codec ids a := by
  have harrange : arrange ids (b.dag.graph.ancestors v.hash) = ids :=
    arrange_self fun x => (hids x).trans Digraph.mem_ancestors.symm
  rw [Book.balanceFrom, hv]
  simp only [pourFunds_idle Pots.zero h, harrange]
  rfl

theorem worth_leaf (hv : b.dag.getVertex v.hash = some v) (hids : ∀ x, x ∈ ids ↔ b.dag.graph.Anc x v.hash) :
    worth codec b v.hash a = worthOver codec b ids a + v.transaction.moved a := by
  have hperm : (b.dag.graph.ancestors v.hash).Perm (firsts [] ids) := by
    refine (List.perm_ext_iff_of_nodup (b.dag.graph.ancestors_nodup _) (firsts_nodup ids [])).mpr fun x => ?_
    simp [mem_firsts, hids, Digraph.mem_ancestors]
  have hpast : (b.dag.past v.hash).Perm (v :: b.dag.vertices (firsts [] ids)) := by
    have hcons : b.dag.past v.hash = v :: b.dag.vertices (b.dag.graph.ancestors v.hash) := by
      simp [Dag.past, Dag.vertices, hv]
    rw [hcons]
    exact (hperm.filterMap _).cons v
  rw [worth, worthOver, received_perm a hpast, issued_perm a hpast, received_cons, issued_cons, receivedBy, issuedBy,
    Transaction.moved]
  push_cast
  omega

/-- CONDITION on the rejected transaction: it moves no spice, goes to its issuer, or has nothing to do with
    the address; or the address is in debt without it and with it. -/
def Unaffected (codec : Codec) (b : Book) (ids : List Hash) (t : Transaction) (a : Address) : Prop :=
  t.isSpiceTransfer = false ∨ t.issuerAddress = t.receiverAddress ∨ ¬ t.Concerns a ∨
    worthOver codec b ids a < 0 ∧ worthOver codec b ids a + t.moved a < 0

/-- VERDICT (leaf): the balance from the leaf is that over its past exactly when the address is
    unaffected. -/
theorem balanceFrom_leaf_iff (hfit : FundsFit codec b a) (hv : b.dag.getVertex v.hash = some v)
    (hids : ∀ x, x ∈ ids ↔ b.dag.graph.Anc x v.hash) (order : List Hash) :
    (∀ m, b.balanceFrom codec v.hash ⟨order, none⟩ false a = .ok m ↔ b.balanceOver codec ids a = .ok m) ↔
      Unaffected codec b ids v.transaction a := by
  have hknown : ∀ id ∈ ids, id ∈ b.dag.graph.nodes := fun id hid => ((hids id).mp hid).left
  have hcap : worthOver codec b ids a < Melange.cap := by
    have hr := b.dag.received_le_all a (firsts_nodup ids [])
    have hreceived := hfit.received
    rw [worthOver]
    omega
  simp only [balanceFrom_ok_iff_worth (hfit.past _) (Dag.mem_nodes hv), balanceOver_ok_iff hfit hknown]
  rw [Melange.same_value_iff (worth_lt_cap (hfit.past _)) hcap, worth_leaf hv hids, add_eq_left,
    Transaction.moved_eq_zero, Unaffected]
  constructor
  · rintro ((h | h | h) | ⟨hwith, hwithout⟩)
    · exact Or.inl h
    · exact Or.inr (Or.inl h)
    · exact Or.inr (Or.inr (Or.inl h))
    · exact Or.inr (Or.inr (Or.inr ⟨hwithout, hwith⟩))
  · rintro (h | h | h | ⟨hwithout, hwith⟩)
    · exact Or.inl (Or.inl h)
    · exact Or.inl (Or.inr (Or.inl h))
    · exact Or.inl (Or.inr (Or.inr h))
    · exact Or.inr ⟨hwith, hwithout⟩

end Leaf

/-! ### The leaf that is created -/

section Created

variable {env : Env} {b b' : Book} {trx : Transaction} {first second : Book.Pass} {now : Time} {faults : Faults}
  {v : Vertex}

/-- One of the two, or an ancestor of one of them. -/
def InJoint (d : Dag) (l r x : Hash) : Prop := (x = l ∨ d.graph.Anc x l) ∨ x = r ∨ d.graph.Anc x r

theorem insertVertex_ok {leaf l r : Vertex} {onSave : Err → Err} {rejected : Err}
    (h : b.insertVertex leaf [l, r] faults onSave rejected = (b', .ok ())) (hl : l.hash ∈ b.dag.graph.nodes)
    (hr : r.hash ∈ b.dag.graph.nodes) (left : leaf.leftParentHash = l.hash) (right : leaf.rightParentHash = r.hash) :
    Frame b b' ∧ Digraph.Grown b.dag.graph b'.dag.graph leaf.hash leaf (edgeParents leaf) := by
  have hcases := insertVertex_cases b leaf [l, r] faults onSave rejected
  rw [h] at hcases
  cases hcases with
  | done free grown edges =>
    obtain ⟨d', hd', hgrown⟩ := addEdges_grown grown hl hr left right
    cases hd'.symm.trans edges
    exact ⟨⟨rfl, rfl, rfl, rfl⟩, hgrown⟩

/-- The transaction is sealed into a vertex below two leaves of the book, whose past it has. -/
structure Created (b b' : Book) (trx : Transaction) (v l r : Vertex) : Prop where
  content : v.transaction = trx
  left : v.leftParentHash = l.hash
  right : v.rightParentHash = r.hash
  leftLeaf : IsLeafOf b l
  rightLeaf : IsLeafOf b r
  there : b'.dag.getVertex v.hash = some v
  frame : Frame b b'
  anc : ∀ x, b'.dag.graph.Anc x v.hash ↔ InJoint b.dag l.hash r.hash x
  get : ∀ x, InJoint b.dag l.hash r.hash x → b'.dag.getVertex x = b.dag.getVertex x

theorem Created.of_grown (hz : NonzeroDigests env) {b1 : Book} {l r : Vertex} (hb1 : Remains b b1)
    (hl : IsLeafOf b l) (hr : IsLeafOf b r) (hl1 : IsLeafOf b1 l) (hr1 : IsLeafOf b1 r)
    (hverified : l.verify env.verifier = true) (hf : Frame b1 b')
    (hgrown : Digraph.Grown b1.dag.graph b'.dag.graph (Book.tip env trx l r now).hash (Book.tip env trx l r now)
      (edgeParents (Book.tip env trx l r now))) :
    Created b b' trx (Book.tip env trx l r now) l r := by
  have hl1' : l.hash ∈ b1.dag.graph.nodes := Dag.mem_nodes hl1.1
  have hr1' : r.hash ∈ b1.dag.graph.nodes := Dag.mem_nodes hr1.1
  have hparents : edgeParents (Book.tip env trx l r now) = [l.hash, r.hash] := by
    rw [edgeParents, if_neg]
    · rfl
    · exact hz.hash_ne hverified
  have hjoint : ∀ x, InJoint b.dag l.hash r.hash x ↔ InJoint b1.dag l.hash r.hash x := by
    intro x
    rw [InJoint, InJoint, (hb1.past hl1').anc, (hb1.past hr1').anc]
  refine ⟨rfl, rfl, rfl, hl, hr, hgrown.get_self, hb1.frame.trans hf, fun x => ?_, fun x hx => ?_⟩
  · rw [hjoint, hgrown.anc_self, hparents]
    simp [InJoint]
  · have hpast : Digraph.SamePast b.dag.graph b'.dag.graph l.hash ∧ Digraph.SamePast b.dag.graph b'.dag.graph r.hash :=
      ⟨(hb1.past hl1').trans (hgrown.samePast hl1'), (hb1.past hr1').trans (hgrown.samePast hr1')⟩
    rcases hx with hx | hx
    · exact hpast.1.get x hx
    · exact hpast.2.get x hx

theorem createLeaf_created (hz : NonzeroDigests env)
    (h : b.createLeaf env trx first second now faults = (b', .done v)) : ∃ l r, Created b b' trx v l r := by
  unfold Book.createLeaf at h
  cases hchecks : b.createLeafChecks env trx faults with
  | error e =>
    rw [hchecks] at h
    cases h
  | ok _ =>
    simp only [hchecks, Book.createLeafLocked] at h
    obtain ⟨hmoves, hfound⟩ := getValidLeaves_moves env faults b first
    generalize b.getValidLeaves env first faults = res at h hmoves hfound
    obtain ⟨b1, found, err⟩ := res
    cases err with
    | some e => cases h
    | none =>
      cases found with
      | nil =>
        simp only at h
        generalize b1.getValidLeaves env second faults = res2 at h
        obtain ⟨b2, found2, _ | e⟩ := res2
        · cases found2 <;> cases h
        · cases h
      | cons l rest =>
        have hl := hfound l (List.mem_cons_self ..)
        have hr : IsLeafOf b (rest.headD l) ∧ IsLeafOf b1 (rest.headD l) ∧ Passed env b1 (rest.headD l) := by
          cases rest with
          | nil => exact hl
          | cons r rest => exact hfound r (List.mem_cons_of_mem _ (List.mem_cons_self ..))
        simp only [Book.sealTip] at h
        cases hins : b1.insertVertex (Book.tip env trx l (rest.headD l) now) [l, rest.headD l] faults
            (fun _ => [.errUnexpected]) [.errNewLeafRejected] with
        | mk b2 res =>
          rw [hins] at h
          cases res with
          | error e => cases h
          | ok _ =>
            cases h
            obtain ⟨hf, hgrown⟩ := insertVertex_ok hins (Dag.mem_nodes hl.2.1.1)
              (Dag.mem_nodes hr.2.1.1) rfl rfl
            exact ⟨l, rest.headD l, .of_grown hz hmoves.remains hl.1 hr.1 hl.2.1 hr.2.1 hl.2.2.verified hf hgrown⟩

end Created

/-! ### Rejections -/

/-- The awaited transaction of the request is sealed into a leaf, and the leaf goes to the pipe. -/
structure Rejected (env : ServerEnv) (s s' : Service) (req : SignedHash) (trx : Transaction) (v l r : Vertex) :
    Prop where
  awaited : ∃ hash raw, Hash.ofSlice req.data = .ok hash ∧ s.cache.lookup (encodeTrxKey hash) = some raw ∧
    env.trxCodec.decode raw = some trx
  receiver : trx.receiverAddress = req.address
  created : Created s.book s'.book trx v l r
  sent : s'.pipe.vrxCh = s.pipe.vrxCh ++ [v]

section Rejections

variable {env : ServerEnv} {w : Circumstance} {s s' : Service} {req : SignedHash} {reply : Reply} {trx : Transaction}

theorem removeAwaited_ok {codec : TrxCodec} {f : CacheFaults} {mem : BigCache} {hash : Hash} {address : Address}
    {errs : Option CacheError} (h : (removeAwaitedTransaction codec f mem hash address).2 = .ok (trx, errs)) :
    ∃ raw, mem.lookup (encodeTrxKey hash) = some raw ∧ codec.decode raw = some trx ∧
      trx.receiverAddress = address := by
  obtain ⟨raw, hraw, hdec⟩ := (removeAwaited_trx hash address).2 _ _ h
  rcases removeAwaited_cases codec f mem hash address with ⟨⟨-, -, raw', trx', hraw', hdec', hr⟩, -⟩ | ⟨-, -, e, he⟩
  · rw [hraw] at hraw'
    cases hraw'
    rw [hdec] at hdec'
    cases hdec'
    exact ⟨raw, hraw, hdec, hr⟩
  · rw [h] at he
    cases he

/-- SPEC (`CreateLeaf` in a handler): when the request succeeds, there is a leaf, and it is in the pipe. -/
theorem Service.createLeaf_ok (hz : NonzeroDigests env.ledger) {forget : List Chore}
    (h : s.createLeaf env w trx forget = (s', .ok reply)) :
    ∃ v l r, Created s.book s'.book trx v l r ∧ s'.pipe.vrxCh = s.pipe.vrxCh ++ [v] := by
  unfold Service.createLeaf at h
  split at h
  · cases h
  · cases h
  next book v hdone =>
    unfold Juggler.sendVrx at h
    by_cases hclosed : s.pipe.closed = true
    · simp only [hclosed, if_true] at h
      cases h
    · simp only [hclosed, Bool.false_eq_true, if_false] at h
      cases h
      obtain ⟨l, r, hcreated⟩ := createLeaf_created hz hdone
      exact ⟨v, l, r, hcreated, rfl⟩

theorem reject_ok (hz : NonzeroDigests env.ledger) (h : s.reject env w (some req) = (s', .ok reply)) :
    ∃ trx v l r, Rejected env s s' req trx v l r := by
  simp only [Service.reject, Notary.reject] at h
  cases hhash : Hash.ofSlice req.hash with
  | error e =>
    rw [hhash] at h
    cases h
  | ok hash =>
    simp only [hhash] at h
    by_cases hv : env.ledger.verifier.verify req.data req.signature hash req.address = false
    · simp only [hv, if_true] at h
      cases h
    · rw [if_neg hv] at h
      cases hdata : Hash.ofSlice req.data with
      | error e =>
        rw [hdata] at h
        cases h
      | ok trxHash =>
        simp only [hdata] at h
        cases hrem : removeAwaitedTransaction env.trxCodec w.cache s.cache trxHash req.address with
        | mk cache res =>
          rw [hrem] at h
          obtain e | ⟨trx, _ | e⟩ := res
          · cases h
          · obtain ⟨raw, hraw, hdec, hr⟩ := removeAwaited_ok (congrArg Prod.snd hrem)
            obtain ⟨v, l, r, hcreated, hsent⟩ := Service.createLeaf_ok hz h
            exact ⟨trx, v, l, r, ⟨trxHash, raw, hdata, hraw, hdec⟩, hr, hcreated, hsent⟩
          · cases h

/-- VERDICT (rejection): over the past of the parents of the new leaf. An address that the transaction does
    not concern, or any address if it moves no spice, keeps its balance, whatever the sums do on the way;
    and when they fit, an address keeps it exactly when it is unaffected. -/
theorem rejection_moves_nothing_iff (hz : NonzeroDigests env.ledger)
    (h : s.handle env w (.reject (some req)) = (s', .ok reply)) :
    ∃ trx v l r, Rejected env s s' req trx v l r ∧
      ∀ a ids, (∀ x, x ∈ ids ↔ InJoint s.book.dag l.hash r.hash x) →
        (trx.isSpiceTransfer = false ∨ ¬ trx.Concerns a →
          s'.book.balanceFrom env.ledger.codec v.hash ⟨ids, none⟩ false a =
            s.book.balanceOver env.ledger.codec ids a) ∧
        (FundsFit env.ledger.codec s'.book a → ∀ order,
          ((∀ m, s'.book.balanceFrom env.ledger.codec v.hash ⟨order, none⟩ false a = .ok m ↔
            s.book.balanceOver env.ledger.codec ids a = .ok m) ↔
              Unaffected env.ledger.codec s.book ids trx a)) := by
  obtain ⟨trx, v, l, r, hrejected⟩ := reject_ok hz h
  refine ⟨trx, v, l, r, hrejected, fun a ids hids => ?_⟩
  have hcreated := hrejected.created
  have hanc : ∀ x, x ∈ ids ↔ s'.book.dag.graph.Anc x v.hash := fun x => (hids x).trans (hcreated.anc x).symm
  have hknown : ∀ id ∈ ids, id ∈ s.book.dag.graph.nodes := by
    intro id hid
    rcases (hids id).mp hid with (rfl | hx) | rfl | hx
    · exact Dag.mem_nodes hcreated.leftLeaf.1
    · exact hx.left
    · exact Dag.mem_nodes hcreated.rightLeaf.1
    · exact hx.left
  obtain ⟨hover, hworth⟩ := balanceOver_frame env.ledger.codec hknown
    (fun id hid => hcreated.get id ((hids id).mp hid)) hcreated.frame a
  constructor
  · rw [← hover, ← hcreated.content]
    exact balanceFrom_idle hcreated.there hanc
  · intro hfit order
    rw [← hover, balanceFrom_leaf_iff hfit hcreated.there hanc, Unaffected, Unaffected, hworth, hcreated.content]

end Rejections

/-! ### A rejected payment -/

namespace Transparent

/-- A contract from `wallet 7` to `wallet 8` with some spice in it. -/
def deal (amount : UInt64) : Transaction := trx (wallet 7) (wallet 8) ⟨amount, 0⟩ [1] 4

/-- The receiver's rejection. -/
def refusal (amount : UInt64) : SignedHash :=
  ⟨wallet 8, (deal amount).hash.bytes, (digest (deal amount).hash.bytes).bytes, wallet 8⟩

/-- The contract is proposed with success. -/
def dealt (amount : UInt64) : Service := (service.handle serverEnv (calmly 5) (.propose (some (deal amount).toProto))).1

/-- And rejected. -/
def refused (amount : UInt64) : Service × Except NotaryError Reply :=
  (dealt amount).handle serverEnv (calmly 6) (.reject (some (refusal amount)))

/-- The leaf of the rejected contract. -/
def refusedLeaf (amount : UInt64) : Vertex := Book.tip (env hub) (deal amount) (root 10) (root 10) 6

end Transparent

open Transparent in
/-- BUG: the receiver rejects a contract with a spice of 4 and gets the 4. -/
theorem rejected_payment_moves :
    (refused 4).2 = .ok .empty ∧ (refused 4).1.pipe.vrxCh = [refusedLeaf 4] ∧
    (dealt 4).book.balanceOver codec [(root 10).hash] (wallet 7) = .ok ⟨10, 0⟩ ∧
    (refused 4).1.book.balanceFrom codec (refusedLeaf 4).hash ⟨[], none⟩ false (wallet 7) = .ok ⟨6, 0⟩ ∧
    (dealt 4).book.balanceOver codec [(root 10).hash] (wallet 8) = .ok ⟨0, 0⟩ ∧
    (refused 4).1.book.balanceFrom codec (refusedLeaf 4).hash ⟨[], none⟩ false (wallet 8) = .ok ⟨4, 0⟩ := by
  decide +kernel

open Transparent in
/-- A contract without spice is rejected, and its issuer keeps what it had. -/
theorem rejected_contract_moves_nothing :
    (refused 0).1.book.balanceFrom codec (refusedLeaf 0).hash ⟨[(root 10).hash], none⟩ false (wallet 7) =
        (dealt 0).book.balanceOver codec [(root 10).hash] (wallet 7) ∧
      ∀ order m, (refused 0).1.book.balanceFrom codec (refusedLeaf 0).hash ⟨order, none⟩ false (wallet 7) = .ok m ↔
        (dealt 0).book.balanceOver codec [(root 10).hash] (wallet 7) = .ok m := by
  -- one evaluation of the rejection for all that is read off it
  have hrun : (refused 0).2 = .ok .empty ∧ (refused 0).1.pipe.vrxCh = (dealt 0).pipe.vrxCh ++ [refusedLeaf 0] ∧
      (refused 0).1.book.verticesDB.entries = [] := by
    decide +kernel
  obtain ⟨hreply, hpipe, hentries⟩ := hrun
  have hok : refused 0 = ((refused 0).1, .ok .empty) := by rw [← hreply]
  obtain ⟨t, v, l, r, hrejected, hbalances⟩ := rejection_moves_nothing_iff (nonzeroDigests hub) hok
  obtain rfl : v = refusedLeaf 0 := by
    have hsent := hrejected.sent
    rw [hpipe] at hsent
    exact (List.singleton_injective (List.append_cancel_left hsent)).symm
  have ht : t = deal 0 := hrejected.created.content.symm
  have hl : l.hash = (root 10).hash := hrejected.created.left.symm
  have hr : r.hash = (root 10).hash := hrejected.created.right.symm
  have hids : ∀ x, x ∈ [(root 10).hash] ↔ InJoint (dealt 0).book.dag l.hash r.hash x := by
    have hnone : (dealt 0).book.dag.graph.ancestors (root 10).hash = [] := by decide +kernel
    intro x
    rw [hl, hr, InJoint, ← Digraph.mem_ancestors, hnone]
    simp
  have hstill : t.isSpiceTransfer = false := ht ▸ by decide +kernel
  obtain ⟨hsame, hexact⟩ := hbalances (wallet 7) [(root 10).hash] hids
  have hfits : SpiceFits (refused 0).1.book.dag :=
    .of_total (by decide +kernel) (by decide +kernel)
  have hstore : (refused 0).1.book.verticesDB = ∅ := AList.ext hentries
  exact ⟨hsame (Or.inl hstill), fun order => (hexact (hfits.fundsFit hstore _).1 order).mpr (Or.inl hstill)⟩

end Computantis
