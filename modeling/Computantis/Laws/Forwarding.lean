import Computantis.Laws.Gossiping
import Computantis.Model.Network

/-! @law forwarding | name:Gossip comes to an end | family:safety | about:Model/Network

    A node rebuilds the set of gossipers from the signatures that it is given, and every honest signature
    that was verified once is verified again. So what a node passes on bears one signature more than what it
    got, whatever the flash memory has forgotten, and nobody passes an item on twice in a chain. What a node
    passes on it has made or checked itself. -/

namespace Computantis

open Schemes

/-! ### The verified set -/

section Verified

variable {v : Verifier} {item : Item} {hash : Hash} {gs : List ProtoGossiper} {env : ServerEnv} {g : ProtoGossiper}

theorem Item.mem_verified (hh : Hash.ofSlice item.hash = .ok hash) (ht : ¬ Breaking v hash gs) {a : Address} :
    a ∈ item.verified v gs ↔ ∃ g ∈ gs, g.address = a ∧ g.Verifies v hash := by
  obtain ⟨m, hm, hgathered⟩ := verifyGossipers_ok v hash ht ∅
  simp only [Item.verified, hh, hm, List.mem_toFinset]
  rw [← AList.mem_keys, hgathered.mem, or_iff_right (AList.notMem_empty a)]

theorem OwnSignatures.gossiper (ho : OwnSignatures env.ledger) (hash : Hash) :
    (env.ledger.signer.gossiper hash).Verifies env.ledger.verifier hash :=
  ⟨_, Hash.ofSlice_bytes _, ho.verify _⟩

theorem mem_toSlice {order : List Address} {m : Gossipers} : g ∈ toSlice order m ↔ ∃ a, m.lookup a = some g := by
  simp only [toSlice, List.mem_filterMap, mem_enumerate]
  constructor
  · rintro ⟨a, -, hg⟩
    exact ⟨a, hg⟩
  · rintro ⟨a, hg⟩
    exact ⟨a, AList.mem_keys.mp (AList.lookup_isSome.mp (by rw [hg]; rfl)), hg⟩

/-- What a node makes of the gossipers that it was given. -/
def passedOn (env : ServerEnv) (c : GossipMeets) (hash : Hash) (gs : List ProtoGossiper) : List ProtoGossiper :=
  toSlice c.slice ((gossipersOf env hash gs).insert env.ledger.signer.address (env.ledger.signer.gossiper hash))

theorem passedOn_cases (c : GossipMeets) (ht : ¬ Breaking env.ledger.verifier hash gs)
    (hg : g ∈ passedOn env c hash gs) :
    g = env.ledger.signer.gossiper hash ∨ g ∈ gs ∧ g.Verifies env.ledger.verifier hash := by
  obtain ⟨a, ha⟩ := mem_toSlice.mp hg
  by_cases hself : a = env.ledger.signer.address
  · subst hself
    rw [AList.lookup_insert] at ha
    exact Or.inl (Option.some.inj ha).symm
  · rw [AList.lookup_insert_ne hself] at ha
    rcases (gossipersOf_spec env hash ht).2.get a g ha with hnone | ⟨hmem, -, hverifies⟩
    · cases hnone
    · exact Or.inr ⟨hmem, hverifies⟩

theorem mem_passedOn (ho : OwnSignatures env.ledger) (c : GossipMeets) (ht : ¬ Breaking env.ledger.verifier hash gs)
    (hg : g ∈ passedOn env c hash gs) : g.Verifies env.ledger.verifier hash ∧
      (g.address = env.ledger.signer.address ∨ g ∈ gs) := by
  rcases passedOn_cases c ht hg with rfl | ⟨hmem, hverifies⟩
  · exact ⟨ho.gossiper hash, Or.inl rfl⟩
  · exact ⟨hverifies, Or.inr hmem⟩

theorem verified_passedOn (ho : OwnSignatures env.ledger) (c : GossipMeets) (hh : Hash.ofSlice item.hash = .ok hash)
    (ht : ¬ Breaking env.ledger.verifier hash gs) : item.verified env.ledger.verifier (passedOn env c hash gs) =
      insert env.ledger.signer.address (item.verified env.ledger.verifier gs) := by
  have hlong : ¬ Breaking env.ledger.verifier hash (passedOn env c hash gs) := by
    rintro ⟨g, hg, hpanics⟩
    exact (mem_passedOn ho c ht hg).1.not_panics hpanics
  ext a
  rw [Finset.mem_insert, Item.mem_verified hh hlong, Item.mem_verified hh ht]
  constructor
  · rintro ⟨g, hg, rfl, hverifies⟩
    rcases (mem_passedOn ho c ht hg).2 with hself | hmem
    · exact Or.inl hself
    · exact Or.inr ⟨g, hmem, rfl, hverifies⟩
  · intro ha
    have hmem : a ∈ (gossipersOf env hash gs).insert env.ledger.signer.address (env.ledger.signer.gossiper hash) := by
      rw [AList.mem_insert, (gossipersOf_spec env hash ht).2.mem]
      exact ha.imp_right Or.inr
    obtain ⟨g, hg⟩ := Option.isSome_iff_exists.mp (AList.lookup_isSome.mpr hmem)
    have hpassed : g ∈ passedOn env c hash gs := mem_toSlice.mpr ⟨a, hg⟩
    refine ⟨g, hpassed, ?_, (mem_passedOn ho c ht hpassed).1⟩
    by_cases hself : a = env.ledger.signer.address
    · subst hself
      rw [AList.lookup_insert] at hg
      cases hg
      rfl
    · rw [AList.lookup_insert_ne hself] at hg
      rcases (gossipersOf_spec env hash ht).2.get a g hg with hnone | ⟨-, haddress, -⟩
      · cases hnone
      · exact haddress

theorem verified_own (ho : OwnSignatures env.ledger) (hh : Hash.ofSlice item.hash = .ok hash) :
    item.verified env.ledger.verifier [env.ledger.signer.gossiper hash] = {env.ledger.signer.address} := by
  have hlong : ¬ Breaking env.ledger.verifier hash [env.ledger.signer.gossiper hash] := by
    rintro ⟨g, hg, hpanics⟩
    rw [List.mem_singleton.mp hg] at hpanics
    exact (ho.gossiper hash).not_panics hpanics
  ext a
  rw [Finset.mem_singleton, Item.mem_verified hh hlong]
  constructor
  · rintro ⟨g, hg, rfl, -⟩
    rw [List.mem_singleton.mp hg]
    rfl
  · rintro rfl
    exact ⟨_, List.mem_singleton_self _, rfl, ho.gossiper hash⟩

end Verified

/-! ### What waits for the gossip process -/

/-- The item is in the pipe, or a goroutine is about to put it there. -/
def Service.Pending (s : Service) : Item → Prop
  | .vrx p => ∃ v ∈ s.pipe.vrxCh, p = mapAccountantVertexToProtoVertex v
  | .trx tx => tx ∈ s.pipe.trxCh ∨ ∃ task ∈ s.tasks, Chore.sendTrx tx ∈ task

/-- The server makes the item in this step: `CreateLeaf` returns the vertex and leaves the ledger as it is
    then, or the transaction of a proposal passes `VerifyIssuer`. -/
def Made (env : ServerEnv) (s : Service) (e : Service.Event) : Item → Prop
  | .vrx p => ∃ r w trx v, e = .request r w ∧ p = mapAccountantVertexToProtoVertex v ∧
      s.book.createLeaf env.ledger trx w.first w.second w.now w.ledger = ((s.step env e).1.book, .done v)
  | .trx tx => ∃ w trx, e = .request (.propose (some tx)) w ∧ protoTrxToTrx (some tx) = .ok trx ∧
      trx.verifyIssuer env.ledger.verifier = true

section Serving

variable {env : ServerEnv} {w : Circumstance} {s s' : Service} {item : Item}

theorem Service.not_pending (hvrx : s.pipe.vrxCh = []) (htrx : s.pipe.trxCh = []) (htasks : s.tasks = [])
    (item : Item) : ¬ s.Pending item := by
  cases item with
  | vrx p =>
    rintro ⟨v, hv, -⟩
    rw [hvrx] at hv
    cases hv
  | trx tx =>
    rintro (hpiped | ⟨task, htask, -⟩)
    · rw [htrx] at hpiped
      cases hpiped
    · rw [htasks] at htask
      cases htask

/-- Nothing new waits. -/
def NothingNew (s s' : Service) : Prop := ∀ item, s'.Pending item → s.Pending item

theorem NothingNew.of_tasks (hpipe : s'.pipe = s.pipe)
    (htasks : ∀ task ∈ s'.tasks, ∀ tx, Chore.sendTrx tx ∈ task → ∃ task ∈ s.tasks, Chore.sendTrx tx ∈ task) :
    NothingNew s s' := by
  intro item hitem
  cases item with
  | vrx p =>
    obtain ⟨v, hv, rfl⟩ := hitem
    rw [hpipe] at hv
    exact ⟨v, hv, rfl⟩
  | trx tx =>
    rcases hitem with hpiped | ⟨task, htask, hsends⟩
    · rw [hpipe] at hpiped
      exact Or.inl hpiped
    · exact Or.inr (htasks task htask tx hsends)

theorem NothingNew.of_eq (hpipe : s'.pipe = s.pipe) (htasks : s'.tasks = s.tasks) : NothingNew s s' :=
  .of_tasks hpipe fun task htask _ hsends => ⟨task, htasks ▸ htask, hsends⟩

theorem NothingNew.of_append (task : List Chore) (hpipe : s'.pipe = s.pipe) (htasks : s'.tasks = s.tasks ++ [task])
    (hquiet : ∀ tx, Chore.sendTrx tx ∉ task) : NothingNew s s' := by
  refine .of_tasks hpipe fun t ht tx hsends => ?_
  rw [htasks] at ht
  rcases List.mem_append.mp ht with ht | hlast
  · exact ⟨t, ht, hsends⟩
  · rw [List.mem_singleton.mp hlast] at hsends
    exact absurd hsends (hquiet tx)

theorem forgetBoth_quiet (trx : Transaction) (tx : ProtoTransaction) : Chore.sendTrx tx ∉ Service.forgetBoth trx := by
  simp [Service.forgetBoth]

theorem createLeaf_pending (env : ServerEnv) (w : Circumstance) (s : Service) (trx : Transaction)
    {forget : List Chore} (hquiet : ∀ tx, Chore.sendTrx tx ∉ forget)
    (h : (s.createLeaf env w trx forget).1.Pending item) :
    s.Pending item ∨ ∃ v, item = .vrx (mapAccountantVertexToProtoVertex v) ∧
      s.book.createLeaf env.ledger trx w.first w.second w.now w.ledger =
        ((s.createLeaf env w trx forget).1.book, .done v) := by
  unfold Service.createLeaf at h ⊢
  generalize s.book.createLeaf env.ledger trx w.first w.second w.now w.ledger = res at h ⊢
  obtain ⟨book, vrx | e | _⟩ := res
  · unfold Juggler.sendVrx at h ⊢
    by_cases hclosed : s.pipe.closed = true
    · simp only [hclosed, if_true] at h ⊢
      exact Or.inl (NothingNew.of_eq rfl rfl item h)
    · simp only [hclosed, Bool.false_eq_true, if_false] at h ⊢
      cases item with
      | vrx p =>
        obtain ⟨v, hv, rfl⟩ := h
        rcases List.mem_append.mp hv with hv | hlast
        · exact Or.inl ⟨v, hv, rfl⟩
        · rw [List.mem_singleton.mp hlast]
          exact Or.inr ⟨vrx, rfl, rfl⟩
      | trx tx =>
        left
        rcases h with hpiped | ⟨task, htask, hsends⟩
        · exact Or.inl hpiped
        · rcases List.mem_append.mp htask with htask | hlast
          · exact Or.inr ⟨task, htask, hsends⟩
          · rw [List.mem_singleton.mp hlast] at hsends
            exact absurd hsends (hquiet tx)
  · exact Or.inl (NothingNew.of_eq rfl rfl item h)
  · exact Or.inl (NothingNew.of_eq rfl rfl item h)

theorem propose_contract {f : CacheFaults} {mem mem' : BigCache} {req : Option ProtoTransaction}
    (h : Notary.propose env f mem req = (mem', .ok none)) :
    ∃ tx trx, req = some tx ∧ protoTrxToTrx (some tx) = .ok trx ∧ trx.verifyIssuer env.ledger.verifier = true := by
  cases req with
  | none => cases h
  | some tx =>
    rw [Notary.propose] at h
    cases hconv : protoTrxToTrx (some tx) with
    | error e =>
      rw [hconv] at h
      cases h
    | ok trx =>
      simp only [hconv] at h
      by_cases hissuer : trx.verifyIssuer env.ledger.verifier = false
      · rw [if_pos hissuer] at h
        cases h
      · exact ⟨tx, trx, rfl, hconv, by simpa using hissuer⟩

theorem waiting_quiet (req : SignedHash) : NothingNew s (s.waiting env w req).1 := by
  unfold Service.waiting
  split
  · exact .of_eq rfl rfl
  · rcases req.signed env.ledger.verifier with e | _ | _
    · exact .of_eq rfl rfl
    · exact .of_eq rfl rfl
    · simp only
      rcases readTransactions env.trxCodec w.cache s.cache req.address with ⟨cache, ⟨trxs, _ | err⟩ | _⟩ <;>
        exact .of_eq rfl rfl

theorem saved_quiet (req : SignedHash) : NothingNew s (s.saved env w req).1 := by
  have hsame : (s.saved env w req).1 = s := by
    unfold Service.saved
    repeat' split
    all_goals rfl
  rw [hsame]
  exact .of_eq rfl rfl

theorem throttled_quiet (a : Address) {answer : Service → Service × Except NotaryError Reply}
    (h : ∀ flash, NothingNew s (answer { s with flash }).1) : NothingNew s (s.throttled w a answer).1 := by
  unfold Service.throttled
  rcases s.flash.hasAddress w.flashGet w.flashSet a with ⟨flash, e | _ | _⟩
  · exact .of_eq rfl rfl
  · exact h flash
  · exact .of_eq rfl rfl

theorem balance_quiet (req : SignedHash) : NothingNew s (s.balance env w req).1 := by
  refine throttled_quiet req.address fun flash => ?_
  unfold Service.answerBalance
  split
  · exact .of_eq rfl rfl
  · rcases req.signed env.ledger.verifier with e | _ | _
    · exact .of_eq rfl rfl
    · exact .of_eq rfl rfl
    · rcases readBalance env.ledger.codec w.cache s.cache req.address with e | m
      · rcases s.book.calculateBalance env.ledger w.order w.walk w.fundsFail w.now req.address with e | balance
        · exact .of_eq rfl rfl
        · refine .of_append [.saveBalance req.address balance.spice] rfl rfl fun tx hsends => ?_
          cases List.mem_singleton.mp hsends
      · exact .of_eq rfl rfl

theorem transactionsInDAG_quiet (req : SignedHash) : NothingNew s (s.transactionsInDAG env w req).1 := by
  refine throttled_quiet req.address fun flash => ?_
  unfold Service.answerTransactionsInDAG
  repeat' split
  all_goals exact .of_eq rfl rfl

/-- The request makes the item: a vertex that `CreateLeaf` returns, or a proposal that its issuer has signed. -/
def MadeBy (env : ServerEnv) (w : Circumstance) (s : Service) (r : Request) (s' : Service) : Item → Prop
  | .vrx p => ∃ trx v, p = mapAccountantVertexToProtoVertex v ∧
      s.book.createLeaf env.ledger trx w.first w.second w.now w.ledger = (s'.book, .done v)
  | .trx tx => ∃ trx, r = .propose (some tx) ∧ protoTrxToTrx (some tx) = .ok trx ∧
      trx.verifyIssuer env.ledger.verifier = true

theorem created_pending {cache : BigCache} {trx : Transaction} {forget : List Chore} {r : Request}
    (hquiet : ∀ tx, Chore.sendTrx tx ∉ forget)
    (h : (Service.createLeaf env w { s with cache } trx forget).1.Pending item) :
    s.Pending item ∨ MadeBy env w s r (Service.createLeaf env w { s with cache } trx forget).1 item := by
  rcases createLeaf_pending env w { s with cache } trx hquiet h with hwaits | ⟨v, rfl, hcreated⟩
  · exact Or.inl hwaits
  · exact Or.inr ⟨trx, v, rfl, hcreated⟩

theorem propose_pending (req : Option ProtoTransaction) (h : (s.propose env w req).1.Pending item) :
    s.Pending item ∨ MadeBy env w s (.propose req) (s.propose env w req).1 item := by
  unfold Service.propose at h ⊢
  cases hres : Notary.propose env w.cache s.cache req with
  | mk cache res =>
    simp only [hres] at h ⊢
    rcases res with e | _ | trx
    · exact Or.inl (NothingNew.of_eq rfl rfl item h)
    · obtain ⟨tx, trx, rfl, hconv, hissuer⟩ := propose_contract hres
      cases item with
      | vrx p => exact Or.inl h
      | trx tx' =>
        rcases h with hpiped | ⟨task, htask, hsends⟩
        · exact Or.inl (Or.inl hpiped)
        · rcases List.mem_append.mp htask with htask | hlast
          · exact Or.inl (Or.inr ⟨task, htask, hsends⟩)
          · -- the goroutine of this request, which sends what was proposed
            rw [List.mem_singleton.mp hlast] at hsends
            cases List.mem_singleton.mp hsends
            exact Or.inr ⟨trx, rfl, hconv, hissuer⟩
    · exact created_pending (forgetBoth_quiet trx) h

theorem confirm_pending (req : Option ProtoTransaction) (h : (s.confirm env w req).1.Pending item) :
    s.Pending item ∨ MadeBy env w s (.confirm req) (s.confirm env w req).1 item := by
  unfold Service.confirm at h ⊢
  generalize Notary.confirm env w.cache s.cache req = res at h ⊢
  rcases res with ⟨cache, e | trx⟩
  · exact Or.inl (NothingNew.of_eq rfl rfl item h)
  · exact created_pending (forgetBoth_quiet trx) h

theorem reject_pending (req : Option SignedHash) (h : (s.reject env w req).1.Pending item) :
    s.Pending item ∨ MadeBy env w s (.reject req) (s.reject env w req).1 item := by
  unfold Service.reject at h ⊢
  generalize Notary.reject env w.cache s.cache req = res at h ⊢
  rcases res with ⟨cache, e | trx⟩
  · exact Or.inl (NothingNew.of_eq rfl rfl item h)
  · exact created_pending (by simp) h

theorem handle_pending (r : Request) (h : (s.handle env w r).1.Pending item) :
    s.Pending item ∨ MadeBy env w s r (s.handle env w r).1 item := by
  cases r with
  | propose req => exact propose_pending req h
  | confirm req => exact confirm_pending req h
  | reject req => exact reject_pending req h
  | waiting req => exact Or.inl (waiting_quiet req item h)
  | saved req => exact Or.inl (saved_quiet req item h)
  | balance req => exact Or.inl (balance_quiet req item h)
  | transactionsInDAG req => exact Or.inl (transactionsInDAG_quiet req item h)

theorem work_quiet (i : ℕ) (f : CacheFaults) : NothingNew s (s.work env i f) := by
  unfold Service.work
  split
  next c rest htask =>
    have hmem : c :: rest ∈ s.tasks := List.mem_of_getElem? htask
    have hrest : NothingNew s { s with tasks := s.tasks.set i rest } := by
      refine .of_tasks rfl fun task ht tx hsends => ?_
      rcases List.mem_or_eq_of_mem_set ht with ht | rfl
      · exact ⟨task, ht, hsends⟩
      · exact ⟨c :: task, hmem, List.mem_cons_of_mem _ hsends⟩
    intro item hitem
    cases c with
    | removeAddress a =>
      refine hrest item ?_
      simp only [Service.chore] at hitem
      split at hitem
      · exact hitem
      · exact NothingNew.of_eq rfl rfl item hitem
    | removeBalance a => exact hrest item (NothingNew.of_eq rfl rfl item hitem)
    | saveBalance a m => exact hrest item (NothingNew.of_eq rfl rfl item hitem)
    | sendTrx tx =>
      simp only [Service.chore, Juggler.sendTrx] at hitem
      split at hitem
      · exact hrest item (NothingNew.of_eq rfl rfl item hitem)
      · cases item with
        | vrx p => exact hitem
        | trx tx' =>
          rcases hitem with hpiped | htasks
          · rcases List.mem_append.mp hpiped with hpiped | hlast
            · exact Or.inl hpiped
            · rw [List.mem_singleton.mp hlast]
              exact Or.inr ⟨_, hmem, List.mem_cons_self ..⟩
          · exact hrest (.trx tx') (Or.inr htasks)
  next => exact .of_eq rfl rfl

theorem step_pending (e : Service.Event) (h : (s.step env e).1.Pending item) : s.Pending item ∨ Made env s e item := by
  cases e with
  | request r w =>
    by_cases hdown : s.down = true
    · simp only [Service.step, Service.serve, hdown, if_true] at h
      exact Or.inl h
    · -- whether the handler panics makes no difference to what waits
      have hserve : (s.step env (.request r w)).1.book = (s.handle env w r).1.book ∧
          (s.step env (.request r w)).1.pipe = (s.handle env w r).1.pipe ∧
          (s.step env (.request r w)).1.tasks = (s.handle env w r).1.tasks := by
        simp only [Service.step, Service.serve, hdown, Bool.false_eq_true, if_false]
        split
        next heq =>
          rw [heq]
          exact ⟨rfl, rfl, rfl⟩
        next heq =>
          rw [heq]
          exact ⟨rfl, rfl, rfl⟩
      obtain ⟨hbook, hpipe, htasks⟩ := hserve
      rcases handle_pending r (NothingNew.of_eq hpipe htasks item h) with hwaits | hmade
      · exact Or.inl hwaits
      · right
        cases item with
        | vrx p =>
          obtain ⟨trx, v, rfl, hcreated⟩ := hmade
          exact ⟨r, w, trx, v, rfl, rfl, by rw [hcreated, hbook]⟩
        | trx tx =>
          obtain ⟨trx, rfl, hconv, hissuer⟩ := hmade
          exact ⟨w, trx, rfl, hconv, hissuer⟩
  | work i f =>
    by_cases hdown : s.down = true
    · simp only [Service.step, hdown, if_true] at h
      exact Or.inl h
    · simp only [Service.step, hdown, Bool.false_eq_true, if_false] at h
      exact Or.inl (work_quiet i f item h)
  | expire key => exact Or.inl (NothingNew.of_eq rfl rfl item h)
  | expireFlash key => exact Or.inl (NothingNew.of_eq rfl rfl item h)

end Serving

/-! ### What a node sends -/

/-- The node takes the item: `AddLeaf` accepts the vertex and leaves the ledger as it is then, or the
    transaction passes `VerifyIssuer`. -/
def Took (env : ServerEnv) (c : GossipMeets) (g g' : GossipNode) : Item → Prop
  | .vrx p => ∃ v, mapProtoVertexToAccountantVertex p = .ok v ∧
      g.book.addLeaf env.ledger v c.probe c.ledger = (g'.book, .ok ())
  | .trx tx => ∃ trx, protoTrxToTrx (some tx) = .ok trx ∧ trx.verifyIssuer env.ledger.verifier = true

section Sending

variable {env : ServerEnv} {c : GossipMeets} {g g' : GossipNode} {hash : Bytes} {gs : List ProtoGossiper}
  {process : GossipNode → GossipNode × Except GossipError Unit} {wrap : List ProtoGossiper → GossipMsg} {f : Forward}

/-- A handler that sends something has processed the item, and sends it with the gossipers that it has made. -/
theorem inProcess_sends (h : f ∈ (g.inProcess (GossipNode.handler env c hash gs process wrap)).2) :
    ∃ k flash, Hash.ofSlice hash = .ok k ∧ ¬ Breaking env.ledger.verifier k gs ∧ ¬ Signed env k gs ∧
      process { g with flash } = ((g.inProcess (GossipNode.handler env c hash gs process wrap)).1, .ok ()) ∧
      f.2 = wrap (passedOn env c k gs) := by
  unfold GossipNode.inProcess GossipNode.handler at h ⊢
  by_cases hdown : g.down = true
  · rw [if_pos hdown] at h
    cases h
  rw [if_neg hdown] at h ⊢
  by_cases hknown : Known c g.flash hash
  · rw [unlessSeen_known c g hash hknown] at h
    cases h
  rw [unlessSeen_unknown c g hash hknown] at h ⊢
  cases hh : Hash.ofSlice hash with
  | error e =>
    cases e <;> simp only [GossipNode.spread, hh] at h <;> cases h
  | ok k =>
    by_cases ht : Breaking env.ledger.verifier k gs
    · rw [spread_breaking hh ht] at h
      cases h
    by_cases hs : Signed env k gs
    · rw [spread_signed hh ht hs] at h
      cases h
    cases hp : process { g with flash := c.notes g.flash hash } with
    | mk g' res =>
      rcases res with e | _
      · rw [spread_error hh ht hs hp] at h
        split at h
        · cases h
        next heq =>
          cases heq
          cases h
      · rw [spread_ok hh ht hs hp] at h ⊢
        obtain ⟨a, -, rfl⟩ := List.mem_map.mp h
        exact ⟨k, _, rfl, ht, hs, hp, rfl⟩

theorem inProcess_quiet (h : ∀ flash, NothingNew g.toService (process { g with flash }).1.toService) :
    NothingNew g.toService (g.inProcess (GossipNode.handler env c hash gs process wrap)).1.toService := by
  have hspread : NothingNew g.toService
      (GossipNode.handler env c hash gs process wrap g).1.toService := by
    unfold GossipNode.handler
    by_cases hknown : Known c g.flash hash
    · rw [unlessSeen_known c g hash hknown]
      exact .of_eq rfl rfl
    rw [unlessSeen_unknown c g hash hknown]
    have hprocess := h (c.notes g.flash hash)
    unfold GossipNode.spread
    repeat' split
    · exact .of_eq rfl rfl
    · exact .of_eq rfl rfl
    · exact .of_eq rfl rfl
    next heq =>
      rw [heq] at hprocess
      exact hprocess
    next heq =>
      rw [heq] at hprocess
      exact hprocess
  unfold GossipNode.inProcess
  split
  · exact .of_eq rfl rfl
  · split
    next heq =>
      rw [heq] at hspread
      exact hspread
    next heq =>
      rw [heq] at hspread
      exact hspread

theorem processVrx_quiet (p : ProtoVertex) : NothingNew g.toService (g.processVrx env c p).1.toService := by
  unfold GossipNode.processVrx
  split
  · exact .of_eq rfl rfl
  · rcases mapProtoVertexToAccountantVertex p with e | v
    · exact .of_eq rfl rfl
    · simp only
      rcases g.book.addLeaf env.ledger v c.probe c.ledger with ⟨book, e | _⟩
      · exact .of_eq rfl rfl
      · exact .of_append (Service.forgetBoth v.transaction) rfl rfl (forgetBoth_quiet v.transaction)

theorem processTrx_quiet (tx : ProtoTransaction) : NothingNew g.toService (g.processTrx env c tx).1.toService := by
  unfold GossipNode.processTrx
  repeat' split
  all_goals exact .of_eq rfl rfl

theorem processVrx_took {p : ProtoVertex} (h : g.processVrx env c p = (g', .ok ())) : Took env c g g' (.vrx p) := by
  unfold GossipNode.processVrx at h
  split at h
  · cases h
  · cases hv : mapProtoVertexToAccountantVertex p with
    | error e =>
      rw [hv] at h
      cases h
    | ok v =>
      simp only [hv] at h
      cases hadd : g.book.addLeaf env.ledger v c.probe c.ledger with
      | mk book res =>
        rcases res with e | _
        · simp only [hadd] at h
          cases h
        · simp only [hadd] at h
          cases h
          exact ⟨v, hv, hadd⟩

theorem processTrx_took {tx : ProtoTransaction} (h : g.processTrx env c tx = (g', .ok ())) :
    Took env c g g' (.trx tx) := by
  unfold GossipNode.processTrx at h
  split at h
  · cases h
  · cases h
  next trx hconv =>
    split at h
    · cases h
    · cases h
    next hcheck => exact ⟨trx, hconv, Transaction.checkIssuer_eq_accepted_iff.mp hcheck⟩

theorem receive_empty {m : GossipMsg} (h : m.item = none) : g.receive env c m = (g, []) := by
  rcases m with ⟨_ | p, gs⟩ | ⟨_ | tx, gs⟩
  · simp only [GossipNode.receive, GossipNode.inProcess, GossipNode.gossipVrx, ite_self]
  · cases h
  · simp only [GossipNode.receive, GossipNode.inProcess, GossipNode.gossipTrx, ite_self]
  · cases h

theorem receive_quiet (m : GossipMsg) : NothingNew g.toService (g.receive env c m).1.toService := by
  rcases m with ⟨_ | p, gs⟩ | ⟨_ | tx, gs⟩
  · rw [receive_empty rfl]
    exact .of_eq rfl rfl
  · exact inProcess_quiet fun flash => processVrx_quiet p
  · rw [receive_empty rfl]
    exact .of_eq rfl rfl
  · exact inProcess_quiet fun flash => processTrx_quiet tx

/-- SPEC (`receive`): a message that is sent on is about the same item, which the node has taken, and bears
    the gossipers that the node has made of those it was given, without itself among them. -/
theorem receive_sends {m : GossipMsg} (h : f ∈ (g.receive env c m).2) :
    ∃ item k, m.item = some item ∧ Hash.ofSlice item.hash = .ok k ∧
      ¬ Breaking env.ledger.verifier k m.gossipers ∧
      ¬ Signed env k m.gossipers ∧ Took env c g (g.receive env c m).1 item ∧ f.2.item = some item ∧
      f.2.gossipers = passedOn env c k m.gossipers := by
  rcases m with ⟨_ | p, gs⟩ | ⟨_ | tx, gs⟩
  · rw [receive_empty rfl] at h
    cases h
  · obtain ⟨k, flash, hk, ht, hs, hp, hf⟩ := inProcess_sends h
    have htook := processVrx_took (g := { g with flash }) hp
    refine ⟨.vrx p, k, rfl, hk, ht, hs, htook, ?_, ?_⟩
    · rw [hf]
      rfl
    · rw [hf]
      rfl
  · rw [receive_empty rfl] at h
    cases h
  · obtain ⟨k, flash, hk, ht, hs, hp, hf⟩ := inProcess_sends h
    have htook := processTrx_took (g := { g with flash }) hp
    refine ⟨.trx tx, k, rfl, hk, ht, hs, htook, ?_, ?_⟩
    · rw [hf]
      rfl
    · rw [hf]
      rfl

/-- SPEC (rounds of the gossip process): what is sent waited, and bears the signature of the node alone. -/
theorem runVertexGossip_spec (env : ServerEnv) (c : GossipMeets) (g : GossipNode) (i : ℕ) :
    NothingNew g.toService (g.runVertexGossip env c i).1.toService ∧
      ∀ f ∈ (g.runVertexGossip env c i).2, ∃ item k, g.Pending item ∧ Hash.ofSlice item.hash = .ok k ∧
        f.2.item = some item ∧ f.2.gossipers = [env.ledger.signer.gossiper k] := by
  unfold GossipNode.runVertexGossip
  cases hv : g.pipe.vrxCh[i]? with
  | none => exact ⟨.of_eq rfl rfl, fun f hf => (List.not_mem_nil hf).elim⟩
  | some v =>
    simp only
    split
    · exact ⟨.of_eq rfl rfl, fun f hf => (List.not_mem_nil hf).elim⟩
    · refine ⟨fun item hitem => ?_, fun f hf => ?_⟩
      · cases item with
        | vrx p =>
          obtain ⟨u, hu, rfl⟩ := hitem
          exact ⟨u, List.mem_of_mem_eraseIdx hu, rfl⟩
        | trx tx => exact hitem
      · obtain ⟨a, -, rfl⟩ := List.mem_map.mp hf
        exact ⟨.vrx (mapAccountantVertexToProtoVertex v), v.hash, ⟨v, List.mem_of_getElem? hv, rfl⟩,
          Hash.ofSlice_bytes v.hash, rfl, rfl⟩

theorem runTransactionGossip_spec (env : ServerEnv) (c : GossipMeets) (g : GossipNode) (i : ℕ) :
    NothingNew g.toService (g.runTransactionGossip env c i).1.toService ∧
      ∀ f ∈ (g.runTransactionGossip env c i).2, ∃ item k, g.Pending item ∧ Hash.ofSlice item.hash = .ok k ∧
        f.2.item = some item ∧ f.2.gossipers = [env.ledger.signer.gossiper k] := by
  have htaken : NothingNew g.toService
      { g.toService with pipe := { g.pipe with trxCh := g.pipe.trxCh.eraseIdx i } } := by
    intro item hitem
    cases item with
    | vrx p => exact hitem
    | trx tx => exact hitem.imp_left List.mem_of_mem_eraseIdx
  unfold GossipNode.runTransactionGossip
  cases htx : g.pipe.trxCh[i]? with
  | none => exact ⟨.of_eq rfl rfl, fun f hf => (List.not_mem_nil hf).elim⟩
  | some tx =>
    simp only
    split
    · exact ⟨.of_eq rfl rfl, fun f hf => (List.not_mem_nil hf).elim⟩
    · cases hh : Hash.ofSlice tx.hash with
      | error e => exact ⟨htaken, fun f hf => (List.not_mem_nil hf).elim⟩
      | ok k =>
        refine ⟨htaken, fun f hf => ?_⟩
        obtain ⟨a, -, rfl⟩ := List.mem_map.mp hf
        exact ⟨.trx tx, k, Or.inl (List.mem_of_getElem? htx), hh, rfl, rfl⟩

end Sending

/-! ### The network -/

/-- The members of the cluster are honest: they sign with a key of their own that everybody verifies alike. -/
structure Cluster.Honest (C : Cluster) (v : Verifier) : Prop where
  verifier : ∀ a ∈ C.members, (C.env a).ledger.verifier = v
  address : ∀ a ∈ C.members, (C.env a).ledger.signer.address = a
  signatures : ∀ a ∈ C.members, OwnSignatures (C.env a).ledger

namespace Network

/-- Nothing is under way. -/
structure Fresh (n : Network) : Prop where
  transit : n.transit = []
  handled : n.handled = []
  pending : ∀ a item, ¬ (n.node a).Pending item

/-- The node makes or takes the item in this step. -/
def Vouches (C : Cluster) (n : Network) (e : Event) (a : Address) (item : Item) : Prop :=
  (∃ e', e = .serve a e' ∧ Made (C.env a) (n.node a).toService e' item) ∨
    ∃ i c p, e = .deliver i c ∧ n.transit[i]? = some p ∧ p.dest = a ∧ p.msg.item = some item ∧
      Took (C.env a) c (n.node a) ((n.step C e).node a) item

/-- The node has made or taken the item in the course of the events. -/
def Vouched (C : Cluster) (n : Network) (es : List Event) (a : Address) (item : Item) : Prop :=
  ∃ before e after, es = before ++ e :: after ∧ (run (step C) n before).Vouches C e a item

/-- A packet has come through members that vouch for its item, each of which has left its signature. -/
def Carries (C : Cluster) (v : Verifier) (V : Address → Item → Prop) (p : Packet) : Prop :=
  ∀ item, p.msg.item = some item → (∃ first, Relay first p.route (item.verified v p.msg.gossipers)) ∧
    ∀ hop ∈ p.route, hop.node ∈ C.members ∧ V hop.node item

/-- INVARIANT: the nodes vouch for what waits with them and for what they have sent. -/
structure Sound (C : Cluster) (v : Verifier) (V : Address → Item → Prop) (n : Network) : Prop where
  pending : ∀ a item, (n.node a).Pending item → V a item
  transit : ∀ p ∈ n.transit, Carries C v V p
  handled : ∀ t ∈ n.handled, (∃ first marks, Relay first t.hops marks) ∧ (∀ hop ∈ t.hops, hop.node ∈ C.members) ∧
    ∀ hop ∈ t.hops.dropLast, V hop.node t.item

variable {C : Cluster} {v : Verifier} {V V' : Address → Item → Prop} {n : Network}

theorem Sound.mono (h : Sound C v V n) (hV : ∀ a item, V a item → V' a item) : Sound C v V' n where
  pending a item hitem := hV a item (h.pending a item hitem)
  transit p hp item hitem := ⟨(h.transit p hp item hitem).1, fun hop hhop =>
    ((h.transit p hp item hitem).2 hop hhop).imp_right (hV hop.node item)⟩
  handled t ht := ⟨(h.handled t ht).1, (h.handled t ht).2.1, fun hop hhop =>
    hV hop.node t.item ((h.handled t ht).2.2 hop hhop)⟩

theorem Sound.setNode (h : Sound C v V n) {a : Address} {g : GossipNode} (hg : ∀ item, g.Pending item → V a item) :
    Sound C v V (n.setNode a g) := by
  refine ⟨fun b item hitem => ?_, h.transit, h.handled⟩
  by_cases hb : b = a
  · subst hb
    simp only [Network.setNode, Function.update_self] at hitem
    exact hg item hitem
  · simp only [Network.setNode, Function.update_of_ne hb] at hitem
    exact h.pending b item hitem

theorem Sound.send (h : Sound C v V n) (ps : List Packet) (hps : ∀ p ∈ ps, Carries C v V p) :
    Sound C v V { n with transit := n.transit ++ ps } where
  pending := h.pending
  transit p hp := (List.mem_append.mp hp).elim (h.transit p) (hps p)
  handled := h.handled

theorem Sound.erase (h : Sound C v V n) (i : ℕ) : Sound C v V { n with transit := n.transit.eraseIdx i } where
  pending := h.pending
  transit p hp := h.transit p (List.mem_of_mem_eraseIdx hp)
  handled := h.handled

theorem Sound.originate (hC : C.Honest v) (h : Sound C v V n) {a : Address} (ha : a ∈ C.members)
    {round : GossipNode × List Forward} (hquiet : NothingNew (n.node a).toService round.1.toService)
    (hsends : ∀ f ∈ round.2, ∃ item k, (n.node a).Pending item ∧ Hash.ofSlice item.hash = .ok k ∧
      f.2.item = some item ∧ f.2.gossipers = [(C.env a).ledger.signer.gossiper k]) :
    Sound C v V (n.originate a round) := by
  have hnode : Sound C v V (n.setNode a round.1) := h.setNode fun item hitem => h.pending a item (hquiet item hitem)
  refine hnode.send _ fun p hp => ?_
  obtain ⟨f, hf, rfl⟩ := List.mem_map.mp hp
  obtain ⟨item, k, hpending, hk, hitem, hgs⟩ := hsends f hf
  intro item' hitem'
  rw [hitem] at hitem'
  cases hitem'
  constructor
  · have hmarks : item.verified v f.2.gossipers = insert a ∅ := by
      rw [hgs, ← hC.verifier a ha, verified_own (hC.signatures a ha) hk, hC.address a ha, insert_empty_eq]
    simp only [hmarks]
    exact ⟨∅, Relay.pass (Relay.start ∅) (Finset.notMem_empty a)⟩
  · intro hop hhop
    rw [List.mem_singleton.mp hhop]
    exact ⟨ha, h.pending a item hpending⟩

theorem Sound.arrive (hC : C.Honest v) (h : Sound C v V n) (c : GossipMeets) {p : Packet} {item : Item}
    (hp : Carries C v V p) (hitem : p.msg.item = some item) (hdest : p.dest ∈ C.members)
    (hnew : Took (C.env p.dest) c (n.node p.dest) ((n.arrive C c p item).node p.dest) item → V p.dest item) :
    Sound C v V (n.arrive C c p item) := by
  obtain ⟨⟨first, hrelay⟩, hroute⟩ := hp item hitem
  rw [← hC.verifier p.dest hdest] at hrelay
  have hmembers : ∀ seen, ∀ hop ∈ p.route ++ [⟨p.dest, seen⟩], hop.node ∈ C.members := by
    intro seen hop hhop
    rcases List.mem_append.mp hhop with hhop | hlast
    · exact (hroute hop hhop).1
    · rw [List.mem_singleton.mp hlast]
      exact hdest
  have hnode : Sound C v V (n.setNode p.dest ((n.node p.dest).receive (C.env p.dest) c p.msg).1) :=
    h.setNode fun item hitem => h.pending p.dest item (receive_quiet p.msg item hitem)
  refine ⟨hnode.pending, fun q hq => ?_, fun t ht => ?_⟩
  · rcases List.mem_append.mp hq with hq | hq
    · exact h.transit q hq
    obtain ⟨f, hf, rfl⟩ := List.mem_map.mp hq
    obtain ⟨item', k, hitem', hk, hlong, hsigned, htook, hfitem, hfgs⟩ := receive_sends hf
    obtain rfl : item = item' := Option.some.inj (hitem.symm.trans hitem')
    have hfresh : p.dest ∉ item.verified (C.env p.dest).ledger.verifier p.msg.gossipers := by
      intro hmem
      obtain ⟨g, hg, hself, hverifies⟩ := (Item.mem_verified hk hlong).mp hmem
      exact hsigned ⟨g, hg, hself.trans (hC.address p.dest hdest).symm, hverifies⟩
    have hmarks : item.verified v f.2.gossipers =
        insert p.dest (item.verified (C.env p.dest).ledger.verifier p.msg.gossipers) := by
      rw [hfgs, ← hC.verifier p.dest hdest, verified_passedOn (hC.signatures p.dest hdest) c hk hlong,
        hC.address p.dest hdest]
    intro item' hitem'
    obtain rfl : item = item' := Option.some.inj (hfitem.symm.trans hitem')
    refine ⟨⟨first, ?_⟩, fun hop hhop => ⟨hmembers _ hop hhop, ?_⟩⟩
    · rw [hmarks]
      exact hrelay.pass hfresh
    · rcases List.mem_append.mp hhop with hhop | hlast
      · exact (hroute hop hhop).2
      · rw [List.mem_singleton.mp hlast]
        refine hnew ?_
        simp only [Network.arrive, Network.setNode, Function.update_self]
        exact htook
  · simp only [Network.arrive] at ht
    split at ht
    · exact h.handled t ht
    next hfresh =>
      rcases List.mem_append.mp ht with ht | hlast
      · exact h.handled t ht
      · rw [List.mem_singleton.mp hlast]
        refine ⟨⟨first, _, hrelay.pass hfresh⟩, hmembers _, ?_⟩
        rw [List.dropLast_concat]
        exact fun hop hhop => (hroute hop hhop).2

theorem Sound.step (hC : C.Honest v) (h : Sound C v V n) (e : Event)
    (hnew : ∀ a item, n.Vouches C e a item → V a item) : Sound C v V (n.step C e) := by
  cases e with
  | serve a e =>
    refine h.setNode fun item hitem => ?_
    rcases step_pending e hitem with hwaits | hmade
    · exact h.pending a item hwaits
    · exact hnew a item (Or.inl ⟨e, rfl, hmade⟩)
  | tend a book => exact h.setNode fun item hitem => h.pending a item (NothingNew.of_eq rfl rfl item hitem)
  | connect a nodes => exact h.setNode fun item hitem => h.pending a item hitem
  | restart a book => exact h.setNode fun item hitem => absurd hitem (Service.not_pending rfl rfl rfl item)
  | sendVrx a i c =>
    simp only [Network.step]
    split
    next ha =>
      obtain ⟨hquiet, hsends⟩ := runVertexGossip_spec (C.env a) c (n.node a) i
      exact h.originate hC ha hquiet hsends
    next => exact h
  | sendTrx a i c =>
    simp only [Network.step]
    split
    next ha =>
      obtain ⟨hquiet, hsends⟩ := runTransactionGossip_spec (C.env a) c (n.node a) i
      exact h.originate hC ha hquiet hsends
    next => exact h
  | deliver i c =>
    have hdelivered : n.step C (.deliver i c) = n.deliver C i c := rfl
    rw [hdelivered]
    unfold Network.deliver at hdelivered ⊢
    cases hp : n.transit[i]? with
    | none => exact h
    | some p =>
      simp only [hp] at hdelivered ⊢
      cases hitem : p.msg.item with
      | none => exact h.erase i
      | some item =>
        simp only [hitem] at hdelivered ⊢
        split
        next hdest =>
          rw [if_pos hdest] at hdelivered
          refine (h.erase i).arrive hC c (h.transit p (List.mem_of_getElem? hp)) hitem hdest fun htook => ?_
          refine hnew p.dest item (Or.inr ⟨i, c, p, rfl, hp, rfl, hitem, ?_⟩)
          rw [hdelivered]
          exact htook
        next => exact h.erase i
  | lose i => exact h.erase i
  | inject dest msg =>
    refine h.send _ fun p hp => ?_
    rw [List.mem_singleton.mp hp]
    exact fun item _ => ⟨⟨_, Relay.start _⟩, fun hop hhop => (List.not_mem_nil hhop).elim⟩

/-- RUN: in every run from a fresh start, the nodes vouch for what waits with them and for what they send. -/
theorem sound_run (hC : C.Honest v) (h : n.Fresh) (es : List Event) :
    Sound C v (Vouched C n es) (run (step C) n es) := by
  refine run_history (I := fun es => Sound C v (Vouched C n es)) ?_ ?_ es
  · refine ⟨fun a item hitem => absurd hitem (h.pending a item), ?_, ?_⟩
    · rw [h.transit]
      exact fun p hp => (List.not_mem_nil hp).elim
    · rw [h.handled]
      exact fun t ht => (List.not_mem_nil ht).elim
  · intro es e hsound
    have hlater : ∀ a item, Vouched C n es a item → Vouched C n (es ++ [e]) a item := by
      rintro a item ⟨before, e', after, rfl, hvouches⟩
      exact ⟨before, e', after ++ [e], by simp, hvouches⟩
    exact (hsound.mono hlater).step hC e fun a item hvouches => ⟨es, e, [], rfl, hvouches⟩

end Network

/-- NO LOOPS: in every run of any number of honest nodes, over connections that come and go, with messages
    delivered in any order, lost or sent by anybody, and flash memories that forget at any time: along every
    chain of forwards of an item the verified gossipers grow, no node comes up twice, the chain is no longer
    than there are nodes, and every node that has sent the item on has made it or taken it itself. -/
theorem gossip_never_loops {C : Cluster} {v : Verifier} (hC : C.Honest v) {n : Network} (hn : n.Fresh)
    (es : List Network.Event) :
    (∀ t ∈ (run (Network.step C) n es).handled,
      t.hops.Pairwise (fun hop next => hop.seen ⊂ next.seen) ∧ (t.hops.map Hop.node).Nodup ∧
      t.hops.length ≤ C.members.card ∧ ∀ hop ∈ t.hops.dropLast, Network.Vouched C n es hop.node t.item) ∧
    ∀ p ∈ (run (Network.step C) n es).transit, ∀ item, p.msg.item = some item →
      p.route.Pairwise (fun hop next => hop.seen ⊂ next.seen) ∧ (p.route.map Hop.node).Nodup ∧
      p.route.length ≤ C.members.card ∧ ∀ hop ∈ p.route, Network.Vouched C n es hop.node item := by
  have hsound := Network.sound_run hC hn es
  refine ⟨fun t ht => ?_, fun p hp item hitem => ?_⟩
  · obtain ⟨⟨first, marks, hrelay⟩, hmembers, hvouched⟩ := hsound.handled t ht
    exact ⟨hrelay.grows, hrelay.nodup, hrelay.length_le hmembers, hvouched⟩
  · obtain ⟨⟨first, hrelay⟩, hroute⟩ := hsound.transit p hp item hitem
    exact ⟨hrelay.grows, hrelay.nodup, hrelay.length_le fun hop hhop => (hroute hop hhop).1,
      fun hop hhop => (hroute hop hhop).2⟩

namespace Transparent

/-- Three nodes in a ring, all with the same genesis. -/
def ring : Cluster := ⟨{hub, peer, wallet 4}, fun a => ⟨env a, plainCodec, 1024⟩⟩

def ringStart : Network where
  node a := { service with nodes := [hub, peer, wallet 4].filter (· ≠ a) }
  transit := []
  handled := []

/-- The first node creates a leaf for a payment and sends it to the other two; the second passes it on to the
    third, which gets that before the copy of the first. -/
def ringEvents : List Network.Event :=
  [.serve hub (.request (.propose (some (trx (wallet 7) (wallet 8) ⟨4, 0⟩ [] 3).toProto)) (calmly 5)),
    .sendVrx hub 0 calmMeets, .deliver 0 calmMeets, .deliver 1 calmMeets, .deliver 0 calmMeets]

theorem ring_honest : ring.Honest verifier where
  verifier _ _ := rfl
  address _ _ := rfl
  signatures a _ := ownSignatures a

theorem ringStart_fresh : ringStart.Fresh where
  transit := rfl
  handled := rfl
  pending _ item := Service.not_pending rfl rfl rfl item

end Transparent

open Transparent in
/-- The chain through the three nodes of the ring is as long as a chain can be. -/
theorem ring_chain_ends :
    (run (Network.step ring) ringStart ringEvents).handled.map (fun t => t.hops.map Hop.node) =
        [[hub, peer], [hub, peer, wallet 4], [hub, wallet 4]] ∧
      (run (Network.step ring) ringStart ringEvents).transit.length = 0 ∧
      ∀ t ∈ (run (Network.step ring) ringStart ringEvents).handled,
        t.hops.length ≤ 3 ∧ ∀ hop ∈ t.hops.dropLast, Network.Vouched ring ringStart ringEvents hop.node t.item := by
  have hlaw := gossip_never_loops ring_honest ringStart_fresh ringEvents
  have hcard : ring.members.card = 3 := by decide +kernel
  refine ⟨by decide +kernel, by decide +kernel, fun t ht => ?_⟩
  obtain ⟨-, -, hlength, hvouched⟩ := hlaw.1 t ht
  rw [hcard] at hlength
  exact ⟨hlength, hvouched⟩

end Computantis
