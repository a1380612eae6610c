import Computantis.Laws.Awaiting
import Computantis.Laws.Retention

/-! @law intake | name:What a server takes in | family:invariant | about:Model/Notary

    Whatever a server holds has come in through one of its handlers: as a transaction of a request, as a
    vertex of another node, or with the genesis vertex. Until it is in the graph it waits in the cache of
    awaited transactions, among the pending calls or in the replier. A fact about transactions that holds
    of all that comes in therefore holds of all that the handlers hand on (`Serving.step`). -/

namespace Computantis

open Schemes

/-! ### Facts about every vertex, through the life of a book -/

namespace Every

variable {Q : Vertex → Prop} {b : Book}

theorem add (h : Every Q b) {v : Vertex} (hv : Q v) {fails : Bool} {b1 : Book} {dag : Dag}
    (hsave : b.saveTrxInVertex v.transaction.hash v.hash fails = .ok b1)
    (hadd : b1.dag.addVertexByID v = some dag) : Every Q { b1 with dag } := by
  obtain ⟨-, rfl⟩ := saveTrx_ok hsave
  exact h.grow hv (Digraph.Grown.of_addNode (Dag.addVertexByID_eq_some hadd))

theorem inserting : Inserting Q (Every Q) where
  kept hget _ _ h := h.of_shrunk fun k v hv => hget k ▸ hv
  saved hsave h := by
    obtain ⟨-, rfl⟩ := saveTrx_ok hsave
    exact h
  added hv hsave hadd h := h.add hv hsave hadd

theorem truncate (env : Env) (t : TruncateSchedule) (h : Every Q b) : Every Q (b.truncate env t).1 := by
  refine h.of_shrunk fun k v hv => ?_
  rcases truncate_dag env b t with hdag | ⟨top, hcut⟩
  · rwa [hdag] at hv
  · rw [hcut.get] at hv
    split at hv
    · cases hv
    · exact hv

theorem step {env : Env} {s : Node} {e : Event} (ho : ∀ leaf l r, s.origin env e leaf l r → Q leaf)
    (h : Every Q s.book) : Every Q (s.step env e).book := by
  by_cases hord : e.Ordinary
  · exact Moves.invariant (I := Every Q) (Every.move ho) (s.step_moves env hord) h
  · cases e with
    | truncate t => exact h.truncate env t
    | _ => exact absurd trivial hord

theorem fresh (n : UInt64) : Every Q (Node.fresh n).book := by
  intro k v hv
  rw [show (Node.fresh n).book.dag.getVertex k = none from newAccountingBook_getVertex n k] at hv
  cases hv

end Every

/-! ### What is awaited -/

/-- The fact holds of every transaction of the cache. -/
def Caches (T : Transaction → Prop) (env : ServerEnv) (mem : BigCache) : Prop :=
  ∀ k raw t, mem.lookup (encodeTrxKey k) = some raw → env.trxCodec.decode raw = some t → T t

section Handlers

variable {T : Transaction → Prop} {env : ServerEnv} {f : CacheFaults} {mem : BigCache} {req : Option ProtoTransaction}

theorem Caches.save (hc : env.trxCodec.Faithful) {trx : Transaction} (htrx : T trx) (h : Caches T env mem) :
    Caches T env (saveAwaitedTransaction env.trxCodec f mem trx).1 := by
  intro k raw t hraw ht
  rcases saveAwaited_trx trx hraw with hraw | rfl
  · exact h k raw t hraw ht
  · rw [hc.decode] at ht
    cases ht
    exact htrx

theorem Caches.remove (h : Caches T env mem) (hash : Hash) (address : Address) :
    Caches T env (removeAwaitedTransaction env.trxCodec f mem hash address).1 :=
  fun k raw t hraw => h k raw t ((removeAwaited_trx hash address).1 k raw hraw)

theorem Caches.evict (h : Caches T env mem) (key : Bytes) : Caches T env (mem.erase key) := by
  intro k raw t hraw
  refine h k raw t ?_
  by_cases hkey : encodeTrxKey k = key
  · rw [hkey, AList.lookup_erase] at hraw
    cases hraw
  · rwa [AList.lookup_erase_ne hkey] at hraw

/-- The fact holds of the transaction of the request, if the request has one whose issuer's signature
    verifies. -/
def Proposes (T : Transaction → Prop) (env : ServerEnv) (req : Option ProtoTransaction) : Prop :=
  ∀ trx, protoTrxToTrx req = .ok trx → trx.verifyIssuer env.ledger.verifier = true → T trx

/-- The same where both signatures are looked at. -/
def Confirms (T : Transaction → Prop) (env : ServerEnv) (req : Option ProtoTransaction) : Prop :=
  ∀ trx, protoTrxToTrx req = .ok trx → trx.verifyIssuerReceiver env.ledger.verifier = true → T trx

theorem propose_caches (hc : env.trxCodec.Faithful) (hreq : Proposes T env req) (h : Caches T env mem) :
    Caches T env (Notary.propose env f mem req).1 ∧
      ∀ trx, (Notary.propose env f mem req).2 = .ok (some trx) → T trx := by
  cases req with
  | none => exact ⟨h, by simp [Notary.propose]⟩
  | some req =>
    rw [Notary.propose]
    cases htrx : protoTrxToTrx (some req) with
    | error e => exact ⟨h, by simp⟩
    | ok trx =>
      simp only
      split
      · exact ⟨h, by simp⟩
      next hissuer =>
        have hT : T trx := hreq trx htrx (by simpa using hissuer)
        split
        · split
          · exact ⟨h, by simp⟩
          · have hsave := h.save (f := f) hc hT
            generalize saveAwaitedTransaction env.trxCodec f mem trx = res at hsave
            obtain ⟨mem', err⟩ := res
            cases err <;> exact ⟨hsave, by simp⟩
        · refine ⟨h, fun t ht => ?_⟩
          cases ht
          exact hT

theorem confirm_caches (hreq : Confirms T env req) (h : Caches T env mem) :
    Caches T env (Notary.confirm env f mem req).1 ∧
      ∀ trx, (Notary.confirm env f mem req).2 = .ok trx → T trx := by
  unfold Notary.confirm
  cases htrx : protoTrxToTrx req with
  | error e => exact ⟨h, by simp⟩
  | ok trx =>
    simp only
    split
    · exact ⟨h, by simp⟩
    next hboth =>
      have hT : T trx := hreq trx htrx (by simpa using hboth)
      have hremove := h.remove (f := f) trx.hash trx.receiverAddress
      generalize removeAwaitedTransaction env.trxCodec f mem trx.hash trx.receiverAddress = res at hremove
      obtain ⟨mem', res⟩ := res
      rcases res with e | ⟨t, _ | e⟩
      · exact ⟨hremove, by simp⟩
      · refine ⟨hremove, fun t ht => ?_⟩
        cases ht
        exact hT
      · exact ⟨hremove, by simp⟩

theorem reject_caches (req : Option SignedHash) (h : Caches T env mem) :
    Caches T env (Notary.reject env f mem req).1 ∧
      ∀ trx, (Notary.reject env f mem req).2 = .ok trx → T trx := by
  cases req with
  | none => exact ⟨h, by simp [Notary.reject]⟩
  | some req =>
    rw [Notary.reject]
    cases Hash.ofSlice req.hash with
    | error e => exact ⟨h, by simp⟩
    | ok hash =>
      simp only
      split
      · exact ⟨h, by simp⟩
      · cases Hash.ofSlice req.data with
        | error e => exact ⟨h, by simp⟩
        | ok trxHash =>
          have hremove := h.remove (f := f) trxHash req.address
          have hreturned : ∀ trx errs,
              (removeAwaitedTransaction env.trxCodec f mem trxHash req.address).2 = .ok (trx, errs) →
              ∃ raw, mem.lookup (encodeTrxKey trxHash) = some raw ∧ env.trxCodec.decode raw = some trx :=
            (removeAwaited_trx trxHash req.address).2
          simp only
          generalize removeAwaitedTransaction env.trxCodec f mem trxHash req.address = res at hremove hreturned
          obtain ⟨mem', res⟩ := res
          rcases res with e | ⟨t, _ | e⟩
          · exact ⟨hremove, by simp⟩
          · refine ⟨hremove, fun trx htrx => ?_⟩
            cases htrx
            obtain ⟨raw, hraw, hdec⟩ := hreturned t none rfl
            exact h trxHash raw t hraw hdec
          · exact ⟨hremove, by simp⟩

theorem gossipTrx_caches (hc : env.trxCodec.Faithful) (hreq : Proposes T env req) (h : Caches T env mem) :
    Caches T env (Notary.gossipTrx env f mem req) := by
  unfold Notary.gossipTrx
  cases htrx : protoTrxToTrx req with
  | error e => exact h
  | ok trx =>
    simp only
    split
    · exact h
    next hissuer => exact h.save hc (hreq trx htrx (by simpa using hissuer))

end Handlers

/-! ### What a server does with its node -/

/-- The facts hold of what the event brings to a node. Only what a server does with its node is meant. -/
def Life.Brings (T : Transaction → Prop) (A : Vertex → Prop) (env : Env) : Life → Prop
  | .genesis spec _ => ∀ g, GenesisOf env spec g → A g
  | .load _ stream => ∀ v ∈ delivered stream, A v
  | .call (.beginCreate trx _) => T trx
  | .call (.beginAdd leaf _) => leaf.verify env.verifier = true → A leaf
  | .call _ => True
  | _ => False

/-- CONDITION on an event: the facts hold of what it brings to the server. -/
def Server.Event.Brings (T : Transaction → Prop) (A : Vertex → Prop) (env : ServerEnv) : Server.Event → Prop
  | .genesis spec _ => ∀ g, GenesisOf env.ledger spec g → A g
  | .load _ stream => ∀ v ∈ delivered stream, A v
  | .propose req _ _ => Proposes T env req
  | .confirm req _ _ => Confirms T env req
  | .gossipTrx req _ => Proposes T env req
  | .gossipVrx req _ => ∀ vrx, mapProtoVertexToAccountantVertex req = .ok vrx →
      vrx.verify env.ledger.verifier = true → A vrx
  | _ => True

/-- The invariant `I` knows the facts of the cache, and survives what has the facts. -/
structure Serving (T : Transaction → Prop) (A : Vertex → Prop) (env : ServerEnv) (I : Server → Prop) : Prop where
  caches : ∀ {s}, I s → Caches T env s.cache
  cached : ∀ {s cache}, Caches T env cache → I s → I { s with cache }
  lived : ∀ {s} {l : Life}, l.Brings T A env.ledger → I s → I { s with node := s.node.live env.ledger l }

theorem ok_of_toOption {ε α : Type} {x : Except ε α} {a : α} (h : x.toOption = some a) : x = .ok a := by
  cases x with
  | error e => cases h
  | ok b => exact congrArg Except.ok (Option.some.inj h)

namespace Serving

variable {T : Transaction → Prop} {A : Vertex → Prop} {env : ServerEnv} {I : Server → Prop} {s : Server}

theorem create (h : Serving T A env I) {cache : BigCache} (hcache : Caches T env cache) (faults : Faults)
    {o : Option Transaction} (htrx : ∀ trx, o = some trx → T trx) (hs : I s) :
    I ({ s with cache }.create env faults o) := by
  cases o with
  | none => exact h.cached hcache hs
  | some trx => exact h.lived (l := .call (.beginCreate trx faults)) (htrx trx rfl) (h.cached hcache hs)

theorem step (h : Serving T A env I) (hc : env.trxCodec.Faithful) {e : Server.Event} (he : e.Brings T A env)
    (hs : I s) : I (s.step env e) := by
  cases e with
  | genesis spec saveFails => exact h.lived (l := .genesis spec saveFails) he hs
  | load sched stream => exact h.lived (l := .load sched stream) he hs
  | propose req f faults =>
    obtain ⟨hcache, htrx⟩ := propose_caches (f := f) hc he (h.caches hs)
    refine h.create hcache faults (o := (Notary.propose env f s.cache req).2.toOption.getD none)
      (fun trx hres => htrx trx ?_) hs
    generalize (Notary.propose env f s.cache req).2 = res at hres ⊢
    cases res with
    | error e => cases hres
    | ok o => exact congrArg Except.ok hres
  | confirm req f faults =>
    obtain ⟨hcache, htrx⟩ := confirm_caches (f := f) he (h.caches hs)
    exact h.create hcache faults (o := (Notary.confirm env f s.cache req).2.toOption)
      (fun trx hres => htrx trx (ok_of_toOption hres)) hs
  | reject req f faults =>
    obtain ⟨hcache, htrx⟩ := reject_caches (f := f) req (h.caches hs)
    exact h.create hcache faults (o := (Notary.reject env f s.cache req).2.toOption)
      (fun trx hres => htrx trx (ok_of_toOption hres)) hs
  | gossipTrx req f => exact h.cached (gossipTrx_caches hc he (h.caches hs)) hs
  | gossipVrx req faults =>
    simp only [Server.step]
    split
    · exact hs
    next vrx hvrx => exact h.lived (l := .call (.beginAdd vrx faults)) (he vrx hvrx) hs
  | forget hash address f => exact h.cached ((h.caches hs).remove hash address) hs
  | evict key => exact h.cached ((h.caches hs).evict key) hs
  | ledger e inner =>
    refine h.lived (l := .call e) ?_ hs
    cases e with
    | beginCreate trx faults => exact inner.elim
    | beginAdd leaf faults => exact inner.elim
    | _ => trivial

/-- RUN: every run in which all that comes in has the facts. -/
theorem run (h : Serving T A env I) (hc : env.trxCodec.Faithful) {es : List Server.Event}
    (hes : ∀ e ∈ es, e.Brings T A env) (hs : I s) : I (Schemes.run (Server.step env) s es) :=
  run_invariant_along (I := I) (fun _ _ he hs => h.step hc he hs) (along_of_forall hes _) hs

end Serving

end Computantis
