import Computantis.Laws.Authenticity
import Computantis.Laws.Settling

/-! @law normality | name:Amounts in normal form | family:invariant | about:Model/Notary

    The overflow tests of `Supply` and `Transfer` subtract a supplementary part from one whole unit, so
    they mean something only while every part is less than a unit. The arithmetic keeps it so. `New` keeps
    every amount that fits, but it carries once: two units or more in its second argument leave at least a
    unit behind. And the converters of the wire take the two words as they come. So amounts are in normal
    form in every run where they come in that way (`Server.Event.Normalised`), and not in others. -/

namespace Computantis

open Schemes

/-- The spice of the transaction is in normal form. -/
def Transaction.Normal (t : Transaction) : Prop := t.spice.Norm

/-- The spice that the vertex moves is in normal form. -/
def Vertex.Normal (v : Vertex) : Prop := v.transaction.spice.Norm

/-! ### Stored funds -/

namespace FundsMemMap

/-- Both cells of every record are in normal form. -/
def Normal (f : FundsMemMap) : Prop := ∀ a, (get f a).spiceIn.Norm ∧ (get f a).spiceOut.Norm

variable {f : FundsMemMap}

theorem Normal.insert (h : f.Normal) {p : PrecalculatedFounds} (hin : p.spiceIn.Norm) (hout : p.spiceOut.Norm)
    (k : Address) : FundsMemMap.Normal (f.insert k p) := by
  intro a
  rw [get_insert]
  split
  · exact ⟨hin, hout⟩
  · exact h a

theorem Normal.nextVertex (h : f.Normal) {v : Vertex} (hv : v.Normal) : (nextVertex v f).Normal := by
  unfold FundsMemMap.nextVertex
  split
  · obtain ⟨hiIn, hiOut⟩ := h v.transaction.issuerAddress
    obtain ⟨hrIn, hrOut⟩ := h v.transaction.receiverAddress
    rw [updateFounds]
    refine (h.insert ?_ ?_ _).insert ?_ ?_ _
    · exact hiIn
    · exact Melange.supply_norm hiOut hv
    · exact Melange.supply_norm hrIn hv
    · exact hrOut
  · exact h

theorem Normal.settled (h : f.Normal) (a : Address) : (settled (get f a)).Norm :=
  (Melange.transfer_norm (h a).2 (h a).1 Melange.norm_zero).1

end FundsMemMap

/-- The funds in the store are in normal form. The keys of 32 bytes hold vertices. -/
def StoredNormal (codec : Codec) (db : VertexStore) : Prop :=
  ∀ a raw, a.length ≠ 32 → db.lookup a = some raw → (codec.decodeSpice raw).1.Norm

namespace StoredNormal

variable {codec : Codec} {db : VertexStore} {b : Book}

theorem stored (h : StoredNormal codec b.verticesDB) {a : Address} (ha : a.length ≠ 32) :
    (b.stored codec a).Norm := by
  rw [Book.stored, Book.readAddressFundsFromStorage, if_neg (by simp)]
  cases hraw : b.verticesDB.lookup a with
  | none => exact Melange.norm_zero
  | some raw => exact h a raw ha hraw

theorem forEachfund (h : StoredNormal codec db) : (forEachfundFromStorage codec db).Normal := by
  unfold forEachfundFromStorage
  refine List.foldlRecOn (motive := FundsMemMap.Normal) db.entries _ ?_ ?_
  · intro a
    exact ⟨Melange.norm_zero, Melange.norm_zero⟩
  · intro f hf e he
    split
    · exact hf
    next hlen =>
      split
      · exact hf.insert (h e.1 e.2 hlen (AList.mem_lookup_iff.mpr he)) Melange.norm_zero e.1
      · exact hf

theorem saveVertex (h : StoredNormal codec db) (fails : Bool) (v : Vertex) :
    StoredNormal codec (saveVertexToStorage codec fails v db).1 := by
  unfold saveVertexToStorage
  split
  · exact h
  · split
    · exact h
    · intro a raw ha hraw
      have hne : a ≠ v.hash.bytes := fun heq => ha (heq ▸ v.hash.len)
      rw [AList.lookup_insert_ne hne] at hraw
      exact h a raw ha hraw

theorem saveFunds (hc : codec.Faithful) (h : StoredNormal codec db) (address : Address) {m : Melange}
    (hm : m.Norm) : StoredNormal codec (saveFundsToStorage codec address m db) := by
  intro a raw ha hraw
  rcases eq_or_ne a address with rfl | hne
  · rw [saveFundsToStorage, AList.lookup_insert] at hraw
    cases hraw
    rwa [hc.spice]
  · rw [saveFundsToStorage, AList.lookup_insert_ne hne] at hraw
    exact h a raw ha hraw

theorem saveToStorage (hc : codec.Faithful) {f : FundsMemMap} (hf : f.Normal) (fails : Address → Bool)
    (as : List Address) : ∀ {db : VertexStore}, StoredNormal codec db →
      StoredNormal codec (Computantis.saveToStorage codec fails f as db).1 := by
  induction as with
  | nil => exact fun h => h
  | cons a rest ih =>
    intro db h
    rw [Computantis.saveToStorage]
    split
    · exact h
    · exact ih (h.saveFunds hc a (hf.settled a))

theorem accountAndSave (h : StoredNormal codec b.verticesDB) (hv : Every Vertex.Normal b) (fails : Hash → Bool)
    (top : Hash) (p : WalkProbe) :
    let res := (performOnAncestorWalker b.dag top p (Computantis.accountAndSave codec fails)
      (forEachfundFromStorage codec b.verticesDB, b.verticesDB)).1
    res.1.Normal ∧ StoredNormal codec res.2 := by
  refine performOnAncestorWalker_invariant
    (I := fun s : FundsMemMap × VertexStore => s.1.Normal ∧ StoredNormal codec s.2) ?_ p ⟨h.forEachfund, h⟩
  intro v s hget hs
  exact ⟨hs.1.nextVertex (hv _ v hget), hs.2.saveVertex _ v⟩

theorem cutBelow (hc : codec.Faithful) (h : StoredNormal codec b.verticesDB) (hv : Every Vertex.Normal b)
    (t : TruncateSchedule) (top : Hash) : StoredNormal codec (b.cutBelow codec t top).1.verticesDB := by
  have hwalk := h.accountAndSave hv t.saveVertexFails top t.second
  unfold Book.cutBelow
  generalize performOnAncestorWalker b.dag top t.second (Computantis.accountAndSave codec t.saveVertexFails)
    (forEachfundFromStorage codec b.verticesDB, b.verticesDB) = res at hwalk
  obtain ⟨⟨f, db⟩, _ | e⟩ := res
  · have hsaved := saveToStorage hc hwalk.1 t.saveFundsFails (enumerate t.fundsOrder f.keys) hwalk.2
    simp only
    generalize Computantis.saveToStorage codec t.saveFundsFails f (enumerate t.fundsOrder f.keys) db = res2 at hsaved
    obtain ⟨db', _ | e⟩ := res2
    · simp only
      split <;> exact hsaved
    · exact hsaved
  · exact hwalk.2

theorem truncate {env : Env} (hc : env.codec.Faithful) (h : StoredNormal env.codec b.verticesDB)
    (hv : Every Vertex.Normal b) (t : TruncateSchedule) :
    StoredNormal env.codec (b.truncate env t).1.verticesDB := by
  rcases truncate_cases env b t with ⟨n, heq⟩ | ⟨leaf, -, heq⟩
  · rw [heq]
    exact h
  · rw [heq]
    exact cutBelow (b := { b with lastBackup := t.backupVersion + 1 }) hc h hv t _

theorem inserting : Inserting (fun _ => True) fun b => StoredNormal codec b.verticesDB where
  kept _ hdb _ h := hdb ▸ h
  saved hsave h := by
    obtain ⟨-, rfl⟩ := saveTrx_ok hsave
    exact h
  added _ hsave _ h := by
    obtain ⟨-, rfl⟩ := saveTrx_ok hsave
    exact h

theorem step {env : Env} (hc : env.codec.Faithful) {s : Node} (h : StoredNormal env.codec s.book.verticesDB)
    (hv : Every Vertex.Normal s.book) (e : Event) :
    StoredNormal env.codec (s.step env e).book.verticesDB := by
  by_cases hord : e.Ordinary
  · rw [(s.step_frame env hord).verticesDB]
    exact h
  · cases e with
    | truncate t => exact h.truncate hc hv t
    | _ => exact absurd trivial hord

end StoredNormal

/-! ### The invariant of the server -/

/-- CONDITION on an event: the second argument of `New` is less than two units, and amounts of the wire
    come in normal form. -/
def Server.Event.Normalised : Server.Event → Prop
  | .genesis spec _ => ∃ c s : UInt64, spec.spice = Melange.new c s ∧ s.toNat < 2 * 10 ^ 18
  | .load _ stream => ∀ v ∈ delivered stream, v.transaction.spice.Norm
  | .propose req _ _ => ∀ trx, protoTrxToTrx req = .ok trx → trx.spice.Norm
  | .confirm req _ _ => ∀ trx, protoTrxToTrx req = .ok trx → trx.spice.Norm
  | .gossipTrx req _ => ∀ trx, protoTrxToTrx req = .ok trx → trx.spice.Norm
  | .gossipVrx req _ => ∀ vrx, mapProtoVertexToAccountantVertex req = .ok vrx → vrx.transaction.spice.Norm
  | _ => True

theorem GenesisOf.spice {env : Env} {spec : Book.GenesisSpec} {g : Vertex} (h : GenesisOf env spec g) :
    g.transaction.spice = spec.spice := by
  obtain ⟨t, ht, rfl⟩ := h
  unfold Transaction.new at ht
  split at ht
  · cases ht
  · split at ht
    · cases ht
    · cases ht
      rfl

theorem Server.Event.Normalised.brings {e : Server.Event} (he : e.Normalised) (env : ServerEnv) :
    e.Brings Transaction.Normal Vertex.Normal env := by
  cases e with
  | genesis spec saveFails =>
    intro g hg
    obtain ⟨c, s, hspice, hs⟩ := he
    rw [Vertex.Normal, hg.spice, hspice]
    exact Melange.new_norm_iff.mpr hs
  | load sched stream => exact he
  | propose req f faults => exact fun trx htrx _ => he trx htrx
  | confirm req f faults => exact fun trx htrx _ => he trx htrx
  | gossipTrx req f => exact fun trx htrx _ => he trx htrx
  | gossipVrx req faults => exact fun vrx hvrx _ => he vrx hvrx
  | _ => trivial

/-- INVARIANT: the amounts of the graph and of the store are in normal form, and so are those on their
    way. -/
structure Server.Normal (env : ServerEnv) (s : Server) : Prop where
  ledger : Every Vertex.Normal s.node.book
  funds : StoredNormal env.ledger.codec s.node.book.verticesDB
  waiting : s.node.Waiting Transaction.Normal Vertex.Normal
  awaited : Caches Transaction.Normal env s.cache

namespace Server.Normal

variable {env : ServerEnv} {s : Server}

theorem call (hc : env.ledger.codec.Faithful) {e : Computantis.Event}
    (he : s.node.LetsIn Transaction.Normal Vertex.Normal env.ledger e) (h : Server.Normal env s) :
    Server.Normal env { s with node := s.node.step env.ledger e } where
  ledger := h.ledger.step fun _ _ _ ho => h.waiting.origin (fun _ _ _ _ htrx => htrx) ho
  funds := h.funds.step hc h.ledger e
  waiting := h.waiting.step he
  awaited := h.awaited

theorem serving (hc : env.ledger.codec.Faithful) :
    Serving Transaction.Normal Vertex.Normal env (Server.Normal env) where
  caches h := h.awaited
  cached hcache h := ⟨h.ledger, h.funds, h.waiting, hcache⟩
  lived {s l} hl h := by
    cases l with
    | genesis spec saveFails =>
      exact ⟨Every.inserting.createGenesis hl saveFails h.ledger,
        StoredNormal.inserting.createGenesis (fun _ _ => trivial) saveFails h.funds,
        h.waiting.of_repeater (createGenesis_repeater _ _ _ _), h.awaited⟩
    | load sched stream =>
      exact ⟨Every.inserting.loadDag sched hl h.ledger,
        StoredNormal.inserting.loadDag sched (fun _ _ => trivial) h.funds,
        h.waiting.of_repeater (loadDag_repeater _ _ _), h.awaited⟩
    | call e =>
      refine h.call hc ?_
      cases e with
      | beginCreate trx faults => exact fun _ => hl
      | beginAdd leaf faults => exact fun _ hchecks => hl (addLeafChecks_ok hchecks).2
      | _ => trivial
    | _ => exact hl.elim

theorem fresh (n : UInt64) : Server.Normal env (Server.fresh n) := by
  refine ⟨Every.fresh n, ?_, .of_nothing rfl rfl, ?_⟩
  · intro a raw _ hraw
    cases hraw
  · intro k raw t hraw
    cases hraw

end Server.Normal

/-! ### Every amount that is counted -/

/-- What the ledger counts with: the spice of the graph, the stored funds and empty cells, and what
    `Supply` and `Transfer` make of them. -/
inductive Counted (codec : Codec) (b : Book) : Melange → Prop
  | spice {v : Vertex} (hv : b.dag.getVertex v.hash = some v) : Counted codec b v.transaction.spice
  | stored {a : Address} (ha : a.length ≠ 32) : Counted codec b (b.stored codec a)
  | zero : Counted codec b Melange.zero
  | supply {m a : Melange} (hm : Counted codec b m) (ha : Counted codec b a) : Counted codec b (m.supply a).1
  | src {a src dst : Melange} (ha : Counted codec b a) (hs : Counted codec b src) (hd : Counted codec b dst) :
    Counted codec b (Melange.transfer a src dst).src
  | dst {a src dst : Melange} (ha : Counted codec b a) (hs : Counted codec b src) (hd : Counted codec b dst) :
    Counted codec b (Melange.transfer a src dst).dst

theorem Counted.norm {codec : Codec} {b : Book} (hv : Every Vertex.Normal b)
    (hs : StoredNormal codec b.verticesDB) {m : Melange} (h : Counted codec b m) : m.Norm := by
  induction h with
  | spice hget => exact hv _ _ hget
  | stored ha => exact hs.stored ha
  | zero => exact Melange.norm_zero
  | supply _ _ hm ha => exact Melange.supply_norm hm ha
  | src _ _ _ ha hs hd => exact (Melange.transfer_norm ha hs hd).1
  | dst _ _ _ ha hs hd => exact (Melange.transfer_norm ha hs hd).2

/-- AMOUNTS IN NORMAL FORM: in every run in which amounts come in as the condition says, the spice of every
    vertex of the graph is in normal form, and so is all that is counted from it; and `New` keeps every
    amount that fits. -/
theorem amounts_normal {env : ServerEnv} (hcodec : env.ledger.codec.Faithful) (hc : env.trxCodec.Faithful)
    (n : UInt64) {es : List Server.Event} (hes : ∀ e ∈ es, e.Normalised) :
    let b := (run (Server.step env) (Server.fresh n) es).node.book
    (∀ v, b.dag.getVertex v.hash = some v → v.transaction.spice.Norm) ∧
      (∀ m, Counted env.ledger.codec b m → m.Norm) ∧
      ∀ c s : UInt64, c.toNat * 10 ^ 18 + s.toNat < Melange.cap →
        (Melange.new c s).value = c.toNat * 10 ^ 18 + s.toNat := by
  intro b
  have hrun := (Server.Normal.serving hcodec).run hc (fun e he => (hes e he).brings env) (Server.Normal.fresh n)
  refine ⟨fun v hv => hrun.ledger v.hash v hv, fun m hm => hm.norm hrun.ledger hrun.funds, fun c s hfit => ?_⟩
  exact Melange.new_value hfit

/-! ### Amounts that stay unnormalised -/

namespace Transparent

/-- A genesis that pays `New(0, 2 * 10 ^ 18)`. -/
def looseGenesis : Book.GenesisSpec := { genesisSpec 10 with spice := Melange.new 0 2000000000000000000 }

def looseRoot : Vertex :=
  Vertex.new (trx hub (wallet 7) ⟨1, 1000000000000000000⟩ [] 1) Hash.zero Hash.zero 0 (signer hub) 2

/-- A payment of the amount that is proposed to a server with a genesis vertex, and its leaf. -/
def proposing (spice : Melange) : List Server.Event :=
  [.genesis (genesisSpec 10) false, .propose (some (trx (wallet 7) (wallet 8) spice [] 3).toProto) .none .none,
    .ledger (.finishCreate (trx (wallet 7) (wallet 8) spice [] 3) ⟨[], fun _ => .calm []⟩
      ⟨[], fun _ => .calm []⟩ 6 .none) trivial]

def proposedTip (spice : Melange) : Vertex :=
  Book.tip (env hub) (trx (wallet 7) (wallet 8) spice [] 3) (root 10) (root 10) 6

/-- The genesis of `New(0, 2 * 10 ^ 18)` leaves a whole unit in the supplementary part, and so does a
    payment that is proposed with one. -/
theorem unnormalised_amounts :
    ((served [.genesis looseGenesis false]).dag.getVertex looseRoot.hash = some looseRoot ∧
      ¬ looseRoot.transaction.spice.Norm) ∧
    (served (proposing ⟨0, 1000000000000000000⟩)).dag.getVertex (proposedTip ⟨0, 1000000000000000000⟩).hash =
        some (proposedTip ⟨0, 1000000000000000000⟩) ∧
      ¬ (proposedTip ⟨0, 1000000000000000000⟩).transaction.spice.Norm := by
  decide +kernel

/-- The law at a payment of four units. -/
theorem proposed_payment_normal :
    (served (proposing ⟨4, 0⟩)).dag.getVertex (proposedTip ⟨4, 0⟩).hash = some (proposedTip ⟨4, 0⟩) ∧
      (proposedTip ⟨4, 0⟩).transaction.spice.Norm := by
  have hleaf : (served (proposing ⟨4, 0⟩)).dag.getVertex (proposedTip ⟨4, 0⟩).hash = some (proposedTip ⟨4, 0⟩) := by
    decide +kernel
  have hgenesis : Server.Event.Normalised (.genesis (genesisSpec 10) false) := ⟨10, 0, by decide, by decide⟩
  have hsame : protoTrxToTrx (some (trx (wallet 7) (wallet 8) ⟨4, 0⟩ [] 3).toProto) =
      .ok (trx (wallet 7) (wallet 8) ⟨4, 0⟩ [] 3) := by decide +kernel
  have hpropose : Server.Event.Normalised
      (.propose (some (trx (wallet 7) (wallet 8) ⟨4, 0⟩ [] 3).toProto) .none .none) := by
    intro t ht
    rw [hsame] at ht
    obtain rfl := Except.ok.inj ht
    decide
  have hes : ∀ e ∈ proposing ⟨4, 0⟩, e.Normalised := by
    rw [proposing]
    exact List.forall_mem_cons.mpr
      ⟨hgenesis, List.forall_mem_cons.mpr ⟨hpropose, List.forall_mem_singleton.mpr trivial⟩⟩
  have hcodec : serverEnv.ledger.codec.Faithful := codec_faithful
  refine ⟨hleaf, (amounts_normal hcodec plainCodec_faithful 0 hes).1 (proposedTip ⟨4, 0⟩) ?_⟩
  rw [served] at hleaf
  exact hleaf

end Transparent

end Computantis
