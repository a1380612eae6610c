import Computantis.Laws.Gossiping

/-! @law returning | name:Sealed transactions that wait again | family:protocol | about:Model/Gossip, Model/Cache

    A contract travels as a transaction to the nodes that keep it for its receiver, and later as a part of the
    vertex that seals it. `GossipVrx` takes the contract from the cache, and `GossipTrx` puts it there without a
    look at the ledger. The two messages travel on their own, so the vertex may come first:

        trx, vrx:   saved ──▶ removed, in the ledger
        vrx, trx:   nothing to remove, in the ledger ──▶ saved, and it waits for ever

    What is needed of the cache is what every call and every eviction leaves (`Kempt`), not more. -/

namespace Computantis

open Schemes

/-! ### What the cache always is -/

theorem TrxCodec.Faithful.injective {codec : TrxCodec} (hc : codec.Faithful) {t u : Transaction}
    (h : codec.encode t = codec.encode u) : t = u := by
  have hdec := congrArg codec.decode h
  rw [hc.decode, hc.decode] at hdec
  exact Option.some.inj hdec

/-- Under the hash of a transaction there is a transaction of this hash, and index entries list hashes. -/
structure Kempt (codec : TrxCodec) (mem : BigCache) : Prop where
  trx : ∀ k raw, mem.lookup (encodeTrxKey k) = some raw → ∃ t : Transaction, t.hash = k ∧ raw = codec.encode t
  index : ∀ a, ∃ hs, Listed mem a hs

namespace Kempt

variable {codec : TrxCodec} {mem : BigCache}

theorem empty (codec : TrxCodec) : Kempt codec ∅ where
  trx k raw h := by cases h
  index a := ⟨[], fields_nil⟩

theorem erase (h : Kempt codec mem) (key : Bytes) : Kempt codec (mem.erase key) where
  trx k raw hk := by
    by_cases hkey : encodeTrxKey k = key
    · rw [hkey, AList.lookup_erase] at hk
      cases hk
    · rw [AList.lookup_erase_ne hkey] at hk
      exact h.trx k raw hk
  index a := by
    by_cases hkey : encodeAddressKey a = key
    · refine ⟨[], ?_⟩
      rw [Listed, entry, hkey, AList.lookup_erase, Option.getD_none, fields_nil, List.map_nil]
    · obtain ⟨hs, hl⟩ := h.index a
      refine ⟨hs, ?_⟩
      rw [Listed, entry, AList.lookup_erase_ne hkey]
      exact hl

theorem insert_trx (h : Kempt codec mem) (t : Transaction) :
    Kempt codec (mem.insert (encodeTrxKey t.hash) (codec.encode t)) where
  trx k raw hk := by
    by_cases hkey : k = t.hash
    · rw [hkey, AList.lookup_insert] at hk
      exact ⟨t, hkey.symm, (Option.some.inj hk).symm⟩
    · rw [AList.lookup_insert_ne fun heq => hkey (encodeTrxKey_injective heq)] at hk
      exact h.trx k raw hk
  index a := by
    obtain ⟨hs, hl⟩ := h.index a
    exact ⟨hs, by rw [Listed, entry_insert_trx]; exact hl⟩

theorem insert_entry (h : Kempt codec mem) (b : Address) {e : Bytes} {hs : List Hash}
    (he : fields comma e = hs.map hexHash) : Kempt codec (mem.insert (encodeAddressKey b) e) where
  trx k raw hk := by
    rw [AList.lookup_insert_ne (encodeTrxKey_ne_address k b)] at hk
    exact h.trx k raw hk
  index a := by
    by_cases hab : a = b
    · exact ⟨hs, by rw [Listed, entry_insert, if_pos hab]; exact he⟩
    · obtain ⟨hs, hl⟩ := h.index a
      exact ⟨hs, by rw [Listed, entry_insert, if_neg hab]; exact hl⟩

theorem note (h : Kempt codec mem) (hash : Hash) (a : Address) : Kempt codec (noted mem hash a) := by
  obtain ⟨hs, hl⟩ := h.index a
  have hadd : fields comma (AddressEntry.add (entry mem a) hash) = (hs ++ [hash]).map hexHash := by
    rw [fields_add, hl, List.map_append, List.map_singleton]
  exact h.insert_entry a hadd

theorem insert_removed (h : Kempt codec mem) (hash : Hash) {a : Address} {e : Bytes}
    (he : mem.lookup (encodeAddressKey a) = some e) :
    Kempt codec (mem.insert (encodeAddressKey a) (AddressEntry.remove e hash)) := by
  obtain ⟨hs, hl⟩ := h.index a
  rw [Listed, entry, he, Option.getD_some] at hl
  have hremove : fields comma (AddressEntry.remove e hash) = (hs.filter (· ≠ hash)).map hexHash := by
    rw [fields_remove, hl, map_filter_hex]
  exact h.insert_entry a hremove

theorem drop (h : Kempt codec mem) (hash : Hash) (err : Option CacheError) (a : Address) :
    Kempt codec (dropAwaited .none hash mem err a).1 := by
  rw [dropAwaited_calm]
  split
  · exact h
  · exact h.erase _
  next he => exact h.insert_removed hash he

theorem save (h : Kempt codec mem) (t : Transaction) : Kempt codec (saveAwaitedTransaction codec .none mem t).1 := by
  cases hl : mem.lookup (encodeTrxKey t.hash) with
  | some raw =>
    rw [save_held hl]
    exact h
  | none =>
    rw [save_new hl]
    have hnotes : ∀ (as : List Address) (m : BigCache), Kempt codec m →
        Kempt codec (as.foldl (fun m a => noted m t.hash a) m) := by
      intro as
      induction as with
      | nil => exact fun _ hm => hm
      | cons a as ih => exact fun m hm => ih _ (hm.note t.hash a)
    exact hnotes _ _ (h.insert_trx t)

theorem remove_cases (hc : codec.Faithful) (h : Kempt codec mem) (hash : Hash) (address : Address) :
    (removeAwaitedTransaction codec .none mem hash address).1 = mem ∧
        (∀ t : Transaction, t.receiverAddress = address → mem.lookup (encodeTrxKey hash) ≠ some (codec.encode t)) ∨
      Kempt codec (removeAwaitedTransaction codec .none mem hash address).1 ∧
        (removeAwaitedTransaction codec .none mem hash address).1.lookup (encodeTrxKey hash) = none ∧
        ∃ t : Transaction, t.receiverAddress = address ∧ mem.lookup (encodeTrxKey hash) = some (codec.encode t) := by
  cases hl : mem.lookup (encodeTrxKey hash) with
  | none =>
    rw [remove_unknown hl]
    exact Or.inl ⟨rfl, fun _ _ => nofun⟩
  | some raw =>
    obtain ⟨t, -, rfl⟩ := h.trx hash raw hl
    by_cases ha : t.receiverAddress = address
    · subst ha
      rw [remove_taken hl (hc.decode t)]
      refine Or.inr ⟨((h.erase _).drop _ _ _).drop _ _ _, ?_, t, rfl, rfl⟩
      rw [lookup_dropped, AList.lookup_erase]
    · rw [remove_foreign hl (hc.decode t) ha]
      refine Or.inl ⟨rfl, fun u hu heq => ha ?_⟩
      rw [hc.injective (Option.some.inj heq), hu]

theorem forget (address : Address) (hashes : List Hash) : ∀ {mem : BigCache} (errs : Option CacheError),
    Kempt codec mem → Kempt codec (forgetHashes .none (encodeAddressKey address) hashes mem errs).1 := by
  induction hashes with
  | nil => exact fun _ h => h
  | cons hash rest ih =>
    intro mem errs h
    rw [forgetHashes]
    simp only [BigCache.get_calm, BigCache.set_calm]
    cases hl : mem.lookup (encodeAddressKey address) with
    | none => exact h
    | some e =>
      simp only
      split
      · exact h
      · exact ih errs (h.insert_removed hash hl)

theorem read (h : Kempt codec mem) (a : Address) : Kempt codec (readTransactions codec .none mem a).1 := by
  unfold readTransactions
  simp only [BigCache.get_calm, BigCache.delete_calm]
  cases hl : mem.lookup (encodeAddressKey a) with
  | none => exact h
  | some e =>
    simp only
    split
    · exact h.erase _
    · split
      · exact h
      · exact h
      · split
        · exact h
        · exact forget a _ _ h

theorem live (hc : codec.Faithful) (e : CacheEvent) (h : Kempt codec mem) :
    Kempt codec (BigCache.live codec mem e) := by
  cases e with
  | evict key => exact h.erase key
  | call op =>
    cases op with
    | save t => exact h.save t
    | read a => exact h.read a
    | remove hash address =>
      rcases h.remove_cases hc hash address with ⟨hsame, -⟩ | ⟨hnext, -⟩
      · exact (congrArg (Kempt codec) hsame).mpr h
      · exact hnext

/-- RUN: whatever has been called and has expired. -/
theorem run (hc : codec.Faithful) (es : List CacheEvent) : Kempt codec (Schemes.run (BigCache.live codec) ∅ es) :=
  run_invariant (fun _ e h => h.live hc e) es (empty codec)

end Kempt

/-! ### What is read -/

def Reading.trxs : Reading → List Transaction
  | .returned trxs _ => trxs
  | .panicked => []

section Reads

variable {codec : TrxCodec} {mem : BigCache}

/-- RUN (reading loop): what is under the hashes is read. -/
theorem Kempt.readAwaited (hc : codec.Faithful) (h : Kempt codec mem) (hs : List Hash) :
    ∃ trxs missing, readAwaited codec .none mem hs = .ok (trxs, missing, none) ∧
      ∀ t, t ∈ trxs ↔ t.hash ∈ hs ∧ mem.lookup (encodeTrxKey t.hash) = some (codec.encode t) := by
  induction hs with
  | nil => exact ⟨[], [], rfl, by simp⟩
  | cons k hs ih =>
    obtain ⟨trxs, missing, hrest, hmem⟩ := ih
    rw [Computantis.readAwaited]
    simp only [BigCache.get_calm, hrest, Except.map]
    cases hl : mem.lookup (encodeTrxKey k) with
    | none =>
      refine ⟨trxs, k :: missing, rfl, fun t => (hmem t).trans ?_⟩
      refine and_congr_left fun ht => (List.mem_cons.trans (or_iff_right ?_)).symm
      rintro rfl
      rw [hl] at ht
      cases ht
    | some raw =>
      obtain ⟨u, rfl, rfl⟩ := h.trx k raw hl
      simp only [hc.decode]
      refine ⟨u :: trxs, missing, rfl, fun t => ?_⟩
      rw [List.mem_cons, List.mem_cons, hmem, or_and_right]
      refine or_congr_left ⟨?_, ?_⟩
      · rintro rfl
        exact ⟨rfl, hl⟩
      · rintro ⟨hhash, ht⟩
        rw [hhash, hl] at ht
        exact (hc.injective (Option.some.inj ht)).symm

theorem Kempt.mem_read (hc : codec.Faithful) (h : Kempt codec mem) {a : Address} {hs : List Hash}
    (hl : Listed mem a hs) (t : Transaction) :
    t ∈ (readTransactions codec .none mem a).2.trxs ↔
      t.hash ∈ hs ∧ mem.lookup (encodeTrxKey t.hash) = some (codec.encode t) := by
  have hnothing : entry mem a = [] → hs = [] := by
    intro he
    rw [Listed, he, fields_nil, eq_comm, List.map_eq_nil_iff] at hl
    exact hl
  unfold readTransactions
  simp only [BigCache.get_calm, BigCache.delete_calm]
  cases hlook : mem.lookup (encodeAddressKey a) with
  | none => simp [Reading.trxs, hnothing (by rw [entry, hlook, Option.getD_none])]
  | some e =>
    cases e with
    | nil => simp [Reading.trxs, hnothing (by rw [entry, hlook, Option.getD_some])]
    | cons x e =>
      have hread : AddressEntry.read (x :: e) = .ok (hs, false) := by
        refine read_ok ?_
        rw [← hl, entry, hlook, Option.getD_some]
      obtain ⟨trxs, missing, hawaited, hmem⟩ := h.readAwaited hc hs
      simp only [List.length_cons, Nat.add_one_ne_zero, if_false, hread, hawaited]
      exact hmem t

/-- The transaction is read by none of its parties. -/
def Unread (codec : TrxCodec) (mem : BigCache) (t : Transaction) : Prop :=
  ∀ a, t.Concerns a → t ∉ (readTransactions codec .none mem a).2.trxs

theorem Kempt.unread (hc : codec.Faithful) (h : Kempt codec mem) {t : Transaction}
    (ht : mem.lookup (encodeTrxKey t.hash) ≠ some (codec.encode t)) : Unread codec mem t := by
  intro a _ hmem
  obtain ⟨hs, hl⟩ := h.index a
  exact ht ((h.mem_read hc hl t).mp hmem).2

theorem Kempt.read_saved (hc : codec.Faithful) (h : Kempt codec mem) {t : Transaction}
    (hnew : mem.lookup (encodeTrxKey t.hash) = none) :
    ¬ Unread codec (saveAwaitedTransaction codec .none mem t).1 t := by
  intro hun
  obtain ⟨hs, hl⟩ := h.index t.receiverAddress
  have hsaved := h.save t
  rw [save_new hnew] at hun hsaved
  have hbase : Listed (mem.insert (encodeTrxKey t.hash) (codec.encode t)) t.receiverAddress hs := by
    rw [Listed, entry_insert_trx]
    exact hl
  have hnoted := hbase.notes t
  have hparty : t.Concerns t.receiverAddress := Or.inr rfl
  rw [if_pos hparty] at hnoted
  refine hun t.receiverAddress hparty ((hsaved.mem_read hc hnoted t).mpr ⟨by simp, ?_⟩)
  rw [lookup_notes, AList.lookup_insert]

/-- Another transaction is under the hash, for another receiver. -/
def Displaced (codec : TrxCodec) (mem : BigCache) (t : Transaction) : Prop :=
  ∃ u : Transaction, mem.lookup (encodeTrxKey t.hash) = some (codec.encode u) ∧ u.receiverAddress ≠ t.receiverAddress

theorem Kempt.save_remove (hc : codec.Faithful) (h : Kempt codec mem) (t : Transaction) :
    Unread codec (removeAwaitedTransaction codec .none (saveAwaitedTransaction codec .none mem t).1 t.hash
      t.receiverAddress).1 t := by
  have hsaved := h.save t
  rcases hsaved.remove_cases hc t.hash t.receiverAddress with ⟨hsame, hnot⟩ | ⟨hnext, hgone, -⟩
  · rw [hsame]
    exact hsaved.unread hc (hnot t rfl)
  · exact hnext.unread hc (by rw [hgone]; nofun)

/-- OUT OF ORDER: removed and then saved, it is not read exactly when another transaction has its place. -/
theorem Kempt.remove_save_iff (hc : codec.Faithful) (h : Kempt codec mem) (t : Transaction) :
    Unread codec (saveAwaitedTransaction codec .none
      (removeAwaitedTransaction codec .none mem t.hash t.receiverAddress).1 t).1 t ↔ Displaced codec mem t := by
  rcases h.remove_cases hc t.hash t.receiverAddress with ⟨hsame, hnot⟩ | ⟨hnext, hgone, u, hu, hheld⟩
  · rw [hsame]
    cases hl : mem.lookup (encodeTrxKey t.hash) with
    | none =>
      refine iff_of_false (h.read_saved hc hl) ?_
      rintro ⟨u, hu, -⟩
      rw [hl] at hu
      cases hu
    | some raw =>
      obtain ⟨u, -, rfl⟩ := h.trx _ _ hl
      rw [save_held hl]
      exact iff_of_true (h.unread hc (hnot t rfl)) ⟨u, hl, fun hu => hnot u hu hl⟩
  · refine iff_of_false (hnext.read_saved hc hgone) ?_
    rintro ⟨w, hw, hne⟩
    rw [hheld] at hw
    exact hne (hc.injective (Option.some.inj hw) ▸ hu)

end Reads

/-! ### The two messages -/

/-- The vertex seals the transaction, which its receiver may have signed since. -/
def Vertex.Seals (v : Vertex) (t : Transaction) : Prop :=
  { v.transaction with receiverSignature := t.receiverSignature } = t

theorem Vertex.Seals.same {v : Vertex} {t : Transaction} (h : v.Seals t) :
    v.transaction.hash = t.hash ∧ v.transaction.receiverAddress = t.receiverAddress := by
  rw [← h]
  exact ⟨rfl, rfl⟩

/-- The node processes the message and accepts what it carries. -/
def Admits (env : ServerEnv) (g : GossipNode) : GossipMeets × GossipMsg → Prop
  | (c, .vrx ⟨some p, gs⟩) => ∃ v, mapProtoVertexToAccountantVertex p = .ok v ∧
      ¬ Dormant env c g p.hash v.hash gs ∧ (g.book.addLeaf env.ledger v c.probe c.ledger).2 = .ok ()
  | (c, .trx ⟨some p, gs⟩) => ∃ t, protoTrxToTrx (some p) = .ok t ∧
      ¬ Dormant env c g p.hash t.hash gs ∧ t.verifyIssuer env.ledger.verifier = true
  | _ => False

section Messages

variable {env : ServerEnv} {c : GossipMeets} {g : GossipNode} {gs : List ProtoGossiper}

theorem Admits.trx {p : ProtoTransaction} {t : Transaction} (hp : protoTrxToTrx (some p) = .ok t)
    (h : Admits env g (c, .trx ⟨some p, gs⟩)) (hcalm : c.cache = .none) :
    (GossipNode.answer env g (c, .trx ⟨some p, gs⟩)).1.book = g.book ∧
      (GossipNode.answer env g (c, .trx ⟨some p, gs⟩)).1.cache =
        (saveAwaitedTransaction env.trxCodec .none g.cache t).1 := by
  obtain ⟨t', ht', hactive, hissuer⟩ := h
  cases hp.symm.trans ht'
  have hends := inProcess_accepted (fun gs => .trx ⟨some p, gs⟩) (protoTrxToTrx_hash hp) hactive
    (processTrx_accepts (c := c) hp hissuer)
  rw [GossipNode.answer, receive_trx]
  exact ⟨hends.book, by rw [hends.cache, hcalm]⟩

theorem Admits.vrx {p : ProtoVertex} {v : Vertex} (hp : mapProtoVertexToAccountantVertex p = .ok v)
    (h : Admits env g (c, .vrx ⟨some p, gs⟩)) (hcalm : c.cache = .none) :
    (GossipNode.answer env g (c, .vrx ⟨some p, gs⟩)).1.book.readTransactionByHash env.ledger.codec
        v.transaction.hash false false = .ok v.transaction ∧
      (GossipNode.answer env g (c, .vrx ⟨some p, gs⟩)).1.cache =
        (removeAwaitedTransaction env.trxCodec .none g.cache v.transaction.hash v.transaction.receiverAddress).1 := by
  obtain ⟨v', hv', hactive, hadd⟩ := h
  cases hp.symm.trans hv'
  obtain ⟨g', haccepts, hbook, hcache⟩ := processVrx_accepts (c := c) hp (Prod.ext rfl hadd)
  have hends := inProcess_accepted (fun gs => .vrx ⟨some p, gs⟩) (mapProtoVertex_hash hp) hactive haccepts
  obtain ⟨hindex, hget, -⟩ := addLeaf_indexed hadd
  rw [GossipNode.answer, receive_vrx]
  refine ⟨?_, by rw [hends.cache, hcache, hcalm]⟩
  rw [hends.book, hbook]
  simp [Book.readTransactionByHash, Book.readVertexHashContainingTrxHashFromStorage, hindex, hget]

end Messages

/-- VERDICT: the node takes the two messages, in either order. The sealed transaction is then in the ledger and
    read by none of its parties exactly when it came before its vertex, or when another transaction, for another
    receiver, was under its hash. -/
theorem sealed_unread_iff {env : ServerEnv} (hc : env.trxCodec.Faithful) {g : GossipNode}
    (hcache : Kempt env.trxCodec g.cache) {ct cv : GossipMeets} (hct : ct.cache = .none) (hcv : cv.cache = .none)
    {p : ProtoTransaction} {t : Transaction} (hp : protoTrxToTrx (some p) = .ok t) (gs : List ProtoGossiper)
    {q : ProtoVertex} {v : Vertex} (hq : mapProtoVertexToAccountantVertex q = .ok v) (gs' : List ProtoGossiper)
    (hseals : v.Seals t) (trxFirst : Bool) :
    let msgs := if trxFirst then [(ct, GossipMsg.trx ⟨some p, gs⟩), (cv, GossipMsg.vrx ⟨some q, gs'⟩)]
      else [(cv, GossipMsg.vrx ⟨some q, gs'⟩), (ct, GossipMsg.trx ⟨some p, gs⟩)]
    let after := reach (GossipNode.answer env) g msgs
    Along (fun g m => (GossipNode.answer env g m).1) (Admits env) g msgs →
      (after.book.readTransactionByHash env.ledger.codec t.hash false false = .ok v.transaction ∧
        Unread env.trxCodec after.cache t ↔ trxFirst = true ∨ Displaced env.trxCodec g.cache t) := by
  intro msgs after hadmits
  obtain ⟨hhash, hreceiver⟩ := hseals.same
  cases trxFirst with
  | true =>
    obtain ⟨htrx, hvrx, -⟩ := hadmits
    obtain ⟨-, hsaved⟩ := htrx.trx hp hct
    obtain ⟨hread, hremoved⟩ := hvrx.vrx hq hcv
    rw [hsaved, hhash, hreceiver] at hremoved
    rw [hhash] at hread
    refine iff_of_true ⟨hread, ?_⟩ (Or.inl rfl)
    change Unread _ (GossipNode.answer env _ _).1.cache t
    rw [hremoved]
    exact hcache.save_remove hc t
  | false =>
    obtain ⟨hvrx, htrx, -⟩ := hadmits
    obtain ⟨hread, hremoved⟩ := hvrx.vrx hq hcv
    obtain ⟨hbook, hsaved⟩ := htrx.trx hp hct
    rw [hremoved, hhash, hreceiver] at hsaved
    rw [hhash, ← hbook] at hread
    change (GossipNode.answer env _ _).1.book.readTransactionByHash _ _ _ _ = _ ∧
      Unread _ (GossipNode.answer env _ _).1.cache t ↔ _
    rw [hsaved, hcache.remove_save_iff hc t, and_iff_right hread]
    exact (or_iff_right (by decide)).symm

namespace Transparent

/-- The vertex with which `peer` seals a contract. -/
def contractVertex : Vertex := sealed (offer (wallet 8) 4) (root 10) (root 10) 1 5

def contractVertexMsg : GossipMeets × GossipMsg :=
  (calmMeets, .vrx ⟨some (mapAccountantVertexToProtoVertex contractVertex), []⟩)

end Transparent

open Transparent in
/-- BUG: the vertex comes before its contract. Both are taken, and the contract, which is in the ledger, waits
    for its receiver. In order it does not. -/
theorem late_contract_waits :
    (reach (GossipNode.answer serverEnv) connected [contractVertexMsg, contractMsg]).book.readTransactionByHash codec
        (offer (wallet 8) 4).hash false false = .ok (offer (wallet 8) 4) ∧
      (readTransactions plainCodec .none
        (reach (GossipNode.answer serverEnv) connected [contractVertexMsg, contractMsg]).cache (wallet 8)).2 =
        .returned [offer (wallet 8) 4] none ∧
      (readTransactions plainCodec .none
        (reach (GossipNode.answer serverEnv) connected [contractMsg, contractVertexMsg]).cache (wallet 8)).2.trxs =
        [] := by
  decide +kernel

open Transparent in
/-- In order: the two messages of a contract. -/
theorem prompt_contract_settles :
    (reach (GossipNode.answer serverEnv) connected [contractMsg, contractVertexMsg]).book.readTransactionByHash codec
        (offer (wallet 8) 4).hash false false = .ok (offer (wallet 8) 4) ∧
      Unread plainCodec (reach (GossipNode.answer serverEnv) connected [contractMsg, contractVertexMsg]).cache
        (offer (wallet 8) 4) := by
  have hmap : protoTrxToTrx (some (offer (wallet 8) 4).toProto) = .ok (offer (wallet 8) 4) ∧
      mapProtoVertexToAccountantVertex (mapAccountantVertexToProtoVertex contractVertex) = .ok contractVertex ∧
      (offer (wallet 8) 4).verifyIssuer verifier = true := by decide +kernel
  have hsecond : (GossipNode.answer serverEnv connected contractMsg).1.down = false ∧
      (mapAccountantVertexToProtoVertex contractVertex).hash ∉
        (GossipNode.answer serverEnv connected contractMsg).1.flash ∧
      ((GossipNode.answer serverEnv connected contractMsg).1.book.addLeaf serverEnv.ledger contractVertex
        calmMeets.probe calmMeets.ledger).2 = .ok () := by decide +kernel
  -- nobody has signed either message, and the flash memory knows neither hash
  have hactive : ∀ (g : GossipNode) (hash : Bytes) (h : Hash), g.down = false → hash ∉ g.flash →
      ¬ Dormant serverEnv calmMeets g hash h [] := by
    rintro g hash h hup hnew (hdown | ⟨-, hmem, -⟩ | ⟨m, hm, -⟩ | ⟨m, hm, -⟩)
    · rw [hup] at hdown
      cases hdown
    · exact hnew hmem
    · cases hm
    · cases hm
  have hcodec : serverEnv.trxCodec.Faithful := plainCodec_faithful
  have hcache : Kempt serverEnv.trxCodec connected.cache := Kempt.empty plainCodec
  have hcalm : calmMeets.cache = .none := rfl
  have htrx : contractVertex.transaction = offer (wallet 8) 4 := Vertex.new_transaction ..
  have hseals : contractVertex.Seals (offer (wallet 8) 4) := by rw [Vertex.Seals, htrx]
  have hlaw := sealed_unread_iff hcodec hcache hcalm hcalm hmap.1 [] hmap.2.1 [] hseals true
  simp only [if_true, true_or, iff_true, htrx] at hlaw
  simp only [contractMsg, contractVertexMsg] at hsecond ⊢
  refine hlaw ⟨?_, ?_, trivial⟩
  · exact ⟨_, hmap.1, hactive _ _ _ rfl (by decide +kernel), hmap.2.2⟩
  · beta_reduce
    exact ⟨_, hmap.2.1, hactive _ _ _ hsecond.1 hsecond.2.1, hsecond.2.2⟩

end Computantis
