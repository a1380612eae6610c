import Computantis.Laws.Awaiting
import Computantis.Model.CacheCalls

/-! @law overlap | name:Overlapping calls on the cache | family:interleaving | about:Model/CacheCalls

    Which of several removals gets a transaction is decided by one operation, the delete, and that is
    enough: a saved transaction is taken once. The index entries have no such operation. A call reads an
    entry, and writes it back changed; what another call has written in between is lost. -/

namespace Computantis

open Schemes

/-! ### A call on its own -/

namespace CacheCall

/-- One operation of a call that nobody disturbs. -/
def advance (codec : TrxCodec) (p : BigCache × CacheCall) : BigCache × CacheCall :=
  ((p.2.step codec false p.1).1, (p.2.step codec false p.1).2.1)

variable {codec : TrxCodec}

theorem advance_nextSave (codec : TrxCodec) (trx : Transaction) (as : List Address) :
    ∀ (mem : BigCache) (err : Option CacheError), ∃ n, (advance codec)^[n] (mem, nextSave trx err as) =
      ((as.foldl (fun s a => noteAwaited .none trx.hash s.1 s.2 a) (mem, err)).1,
        .saved (as.foldl (fun s a => noteAwaited .none trx.hash s.1 s.2 a) (mem, err)).2) := by
  induction as with
  | nil => exact fun mem err => ⟨0, rfl⟩
  | cons a as ih =>
    intro mem err
    obtain ⟨n, hn⟩ := ih (noted mem trx.hash a) err
    refine ⟨n + 2, ?_⟩
    have htwo : (advance codec)^[2] (mem, nextSave trx err (a :: as)) =
        (noted mem trx.hash a, nextSave trx err as) := by
      show advance codec (advance codec (mem, .lookSave trx err a as)) = _
      simp only [advance, step, BigCache.get, Bool.false_eq_true, if_false, noted, entry]
      cases mem.lookup (encodeAddressKey a) with
      | none => rfl
      | some e => rfl
    rw [Function.iterate_add_apply, htwo, hn, List.foldl_cons, noteAwaited_calm]

/-- REFINES (save): the operations of a save, one after the other, are `saveAwaitedTransaction`. -/
theorem advance_save (trx : Transaction) (mem : BigCache) : ∃ n,
    (advance codec)^[n] (mem, .findSave trx) = ((saveAwaitedTransaction codec .none mem trx).1,
      .saved (saveAwaitedTransaction codec .none mem trx).2) := by
  cases hlook : mem.lookup (encodeTrxKey trx.hash) with
  | some raw =>
    refine ⟨1, ?_⟩
    rw [save_held hlook]
    show advance codec (mem, .findSave trx) = _
    simp only [advance, step, BigCache.get, hlook, Bool.false_eq_true, if_false]
  | none =>
    obtain ⟨n, hn⟩ := advance_nextSave codec trx trx.parties
      (mem.insert (encodeTrxKey trx.hash) (codec.encode trx)) none
    refine ⟨n + 2, ?_⟩
    have htwo : (advance codec)^[2] (mem, .findSave trx) =
        (mem.insert (encodeTrxKey trx.hash) (codec.encode trx), nextSave trx none trx.parties) := by
      show advance codec (advance codec (mem, .findSave trx)) = _
      simp only [advance, step, BigCache.get, BigCache.set, hlook, Bool.false_eq_true, if_false,
        Transaction.parties]
    rw [Function.iterate_add_apply, htwo, hn, saveAwaitedTransaction]
    simp only [BigCache.get_calm, hlook, BigCache.set_calm, Transaction.parties]

theorem advance_nextRemove (codec : TrxCodec) (hash : Hash) (trx : Transaction) (as : List Address) :
    ∀ (mem : BigCache) (errs : Option CacheError), ∃ n, (advance codec)^[n] (mem, nextRemove hash trx errs as) =
      ((as.foldl (fun s a => dropAwaited .none hash s.1 s.2 a) (mem, errs)).1,
        .removed (.ok (trx, (as.foldl (fun s a => dropAwaited .none hash s.1 s.2 a) (mem, errs)).2))) := by
  induction as with
  | nil => exact fun mem errs => ⟨0, rfl⟩
  | cons a as ih =>
    intro mem errs
    obtain ⟨n, hn⟩ := ih (dropAwaited .none hash mem errs a).1 (dropAwaited .none hash mem errs a).2
    have hfirst : ∃ k, (advance codec)^[k] (mem, nextRemove hash trx errs (a :: as)) =
        ((dropAwaited .none hash mem errs a).1, nextRemove hash trx (dropAwaited .none hash mem errs a).2 as) := by
      rw [dropAwaited_calm]
      cases hlook : mem.lookup (encodeAddressKey a) with
      | none =>
        refine ⟨1, ?_⟩
        show advance codec (mem, .lookRemove hash trx errs a as) = _
        simp [advance, step, BigCache.get, hlook]
      | some e =>
        refine ⟨2, ?_⟩
        show advance codec (advance codec (mem, .lookRemove hash trx errs a as)) = _
        cases e with
        | nil => simp [advance, step, BigCache.get, BigCache.delete, hlook]
        | cons x e => simp [advance, step, BigCache.get, BigCache.set, hlook]
    obtain ⟨k, hk⟩ := hfirst
    exact ⟨n + k, by rw [Function.iterate_add_apply, hk, hn, List.foldl_cons]⟩

/-- REFINES (remove). -/
theorem advance_remove (hash : Hash) (address : Address) (mem : BigCache) : ∃ n,
    (advance codec)^[n] (mem, .findRemove hash address) =
      ((removeAwaitedTransaction codec .none mem hash address).1,
        .removed (removeAwaitedTransaction codec .none mem hash address).2) := by
  have hone : ∀ {r : BigCache × CacheCall}, advance codec (mem, .findRemove hash address) = r →
      (advance codec)^[1] (mem, .findRemove hash address) = r := fun h => h
  cases hlook : mem.lookup (encodeTrxKey hash) with
  | none =>
    refine ⟨1, hone ?_⟩
    rw [remove_unknown hlook]
    simp [advance, step, BigCache.get, hlook]
  | some raw =>
    cases hdec : codec.decode raw with
    | none =>
      refine ⟨1, hone ?_⟩
      rw [removeAwaitedTransaction]
      simp only [BigCache.get_calm, hlook, hdec]
      simp [advance, step, BigCache.get, hlook, hdec]
    | some trx =>
      by_cases ha : trx.receiverAddress = address
      · subst ha
        obtain ⟨n, hn⟩ := advance_nextRemove codec hash trx [trx.issuerAddress, trx.receiverAddress]
          (mem.erase (encodeTrxKey hash)) none
        refine ⟨n + 2, ?_⟩
        have htwo : (advance codec)^[2] (mem, .findRemove hash trx.receiverAddress) =
            (mem.erase (encodeTrxKey hash), nextRemove hash trx none [trx.issuerAddress, trx.receiverAddress]) := by
          show advance codec (advance codec (mem, .findRemove hash trx.receiverAddress)) = _
          simp [advance, step, BigCache.get, BigCache.delete, hlook, hdec]
        rw [Function.iterate_add_apply, htwo, hn, remove_taken hlook hdec]
        rfl
      · refine ⟨1, hone ?_⟩
        rw [remove_foreign hlook hdec ha]
        simp [advance, step, BigCache.get, hlook, hdec, ha]

end CacheCall

/-! ### Who takes a transaction -/

/-- How often a transaction was stored under the hash. -/
def stores (h : Hash) (history : List CacheEffect) : ℕ :=
  history.countP fun | .stored trx => trx.hash = h | .taken _ _ => false

/-- How often the transaction of the hash was deleted. -/
def takes (h : Hash) (history : List CacheEffect) : ℕ :=
  history.countP fun | .stored _ => false | .taken hash _ => hash = h

/-- What is held under a hash is one of the transactions `D`, as it was encoded. -/
def Holds (D : Transaction → Prop) (codec : TrxCodec) (mem : BigCache) : Prop :=
  ∀ hash raw, mem.lookup (encodeTrxKey hash) = some raw → ∃ t, D t ∧ t.hash = hash ∧ raw = codec.encode t

namespace CacheCall

/-- The call is a removal that has deleted the transaction of the hash, and returns it or has returned it. -/
def took (h : Hash) : CacheCall → Bool
  | .lookRemove hash _ _ _ _ => hash = h
  | .dropRemove hash _ _ _ _ _ => hash = h
  | .removed (.ok (trx, _)) => trx.hash = h
  | _ => false

/-- What a call knows of the transactions `D` that are ever saved. -/
def Knows (D : Transaction → Prop) : CacheCall → Prop
  | .findSave trx => D trx
  | .storeSave trx => D trx
  | .deleteRemove hash address trx => D trx ∧ trx.hash = hash ∧ trx.receiverAddress = address
  | .lookRemove hash trx _ _ _ => trx.hash = hash
  | .dropRemove hash trx _ _ _ _ => trx.hash = hash
  | _ => True

variable {codec : TrxCodec} {refused : Bool} {mem : BigCache} {D : Transaction → Prop}

theorem knows_nextSave (trx : Transaction) (err : Option CacheError) (as : List Address) :
    (nextSave trx err as).Knows D := by
  cases as <;> trivial

theorem knows_nextRemove {hash : Hash} {trx : Transaction} (h : trx.hash = hash) (errs : Option CacheError)
    (as : List Address) : (nextRemove hash trx errs as).Knows D := by
  cases as with
  | nil => trivial
  | cons a as => exact h

theorem took_nextSave (h : Hash) (trx : Transaction) (err : Option CacheError) (as : List Address) :
    (nextSave trx err as).took h = false := by
  cases as <;> rfl

theorem took_nextRemove {hash : Hash} {trx : Transaction} (hhash : trx.hash = hash) (h : Hash)
    (errs : Option CacheError) (as : List Address) : (nextRemove hash trx errs as).took h = decide (hash = h) := by
  cases as with
  | nil => rw [← hhash]; rfl
  | cons a as => rfl

/-- What an operation does under the hashes of transactions: nothing, a store, or a deletion. -/
inductive Does (codec : TrxCodec) (mem : BigCache) (mem' : BigCache) (c' : CacheCall) :
    CacheCall → Option CacheEffect → Prop
  | quiet {c : CacheCall} (same : ∀ k, mem'.lookup (encodeTrxKey k) = mem.lookup (encodeTrxKey k))
      (took : ∀ h, c'.took h = c.took h) : Does codec mem mem' c' c none
  | store {trx : Transaction} (mem_eq : mem' = mem.insert (encodeTrxKey trx.hash) (codec.encode trx))
      (next : c' = nextSave trx none trx.parties) : Does codec mem mem' c' (.storeSave trx) (some (.stored trx))
  | take {hash : Hash} {address : Address} {trx : Transaction} {raw : Bytes}
      (held : mem.lookup (encodeTrxKey hash) = some raw) (mem_eq : mem' = mem.erase (encodeTrxKey hash))
      (next : c' = nextRemove hash trx none [trx.issuerAddress, trx.receiverAddress]) :
      Does codec mem mem' c' (.deleteRemove hash address trx) (some (.taken hash trx))

theorem lookup_insert_address (a : Address) (e : Bytes) (k : Hash) :
    (mem.insert (encodeAddressKey a) e).lookup (encodeTrxKey k) = mem.lookup (encodeTrxKey k) :=
  AList.lookup_insert_ne (encodeTrxKey_ne_address k a)

theorem lookup_erase_address (a : Address) (k : Hash) :
    (mem.erase (encodeAddressKey a)).lookup (encodeTrxKey k) = mem.lookup (encodeTrxKey k) :=
  AList.lookup_erase_ne (encodeTrxKey_ne_address k a)

theorem step_does (codec : TrxCodec) (refused : Bool) (mem : BigCache) {c : CacheCall} (hc : c.Knows D) :
    Does codec mem (c.step codec refused mem).1 (c.step codec refused mem).2.1 c
      (c.step codec refused mem).2.2 := by
  cases c with
  | findSave trx =>
    rw [step]
    split
    · exact .quiet (fun _ => rfl) fun _ => rfl
    · exact .quiet (fun _ => rfl) fun _ => rfl
    · exact .quiet (fun _ => rfl) fun _ => rfl
  | storeSave trx =>
    rw [step]
    split
    · exact .quiet (fun _ => rfl) fun _ => rfl
    next hset =>
      exact .store (BigCache.set_ok hset) rfl
  | lookSave trx err a rest =>
    rw [step]
    split
    · exact .quiet (fun _ => rfl) fun _ => rfl
    · exact .quiet (fun _ => rfl) fun h => took_nextSave h _ _ _
    · exact .quiet (fun _ => rfl) fun _ => rfl
  | noteSave trx err awaited a rest =>
    simp only [step]
    split
    · exact .quiet (fun _ => rfl) fun h => took_nextSave h _ _ _
    next hset =>
      rw [BigCache.set_ok hset]
      exact .quiet (lookup_insert_address a _) fun h => took_nextSave h _ _ _
  | saved err => exact .quiet (fun _ => rfl) fun _ => rfl
  | findRemove hash address =>
    rw [step]
    split
    · exact .quiet (fun _ => rfl) fun _ => rfl
    · exact .quiet (fun _ => rfl) fun _ => rfl
    · split
      · exact .quiet (fun _ => rfl) fun _ => rfl
      · split
        · exact .quiet (fun _ => rfl) fun _ => rfl
        · exact .quiet (fun _ => rfl) fun _ => rfl
  | deleteRemove hash address trx =>
    rw [step]
    split
    · exact .quiet (fun _ => rfl) fun _ => rfl
    · exact .quiet (fun _ => rfl) fun _ => rfl
    next hdel =>
      obtain ⟨raw, hraw⟩ := BigCache.delete_held hdel
      exact .take hraw (BigCache.delete_ok hdel) rfl
  | lookRemove hash trx errs a rest =>
    rw [step]
    split
    · exact .quiet (fun _ => rfl) fun h => took_nextRemove hc h _ _
    · exact .quiet (fun _ => rfl) fun _ => rfl
  | dropRemove hash trx errs awaited a rest =>
    rw [step]
    split
    · split
      · exact .quiet (fun _ => rfl) fun h => took_nextRemove hc h _ _
      next hdel =>
        rw [BigCache.delete_ok hdel]
        exact .quiet (lookup_erase_address a) fun h => took_nextRemove hc h _ _
    · split
      · exact .quiet (fun _ => rfl) fun h => took_nextRemove hc h _ _
      next hset =>
        rw [BigCache.set_ok hset]
        exact .quiet (lookup_insert_address a _) fun h => took_nextRemove hc h _ _
  | removed res => exact .quiet (fun _ => rfl) fun _ => rfl

theorem step_knows (hcodec : codec.Faithful) (hmem : Holds D codec mem) (c : CacheCall) (hc : c.Knows D) :
    (c.step codec refused mem).2.1.Knows D := by
  cases c with
  | findSave trx =>
    rw [step]
    split
    · trivial
    · exact hc
    · trivial
  | storeSave trx =>
    rw [step]
    split
    · trivial
    · exact knows_nextSave _ _ _
  | lookSave trx err a rest =>
    rw [step]
    split
    · trivial
    · exact knows_nextSave _ _ _
    · trivial
  | noteSave trx err awaited a rest =>
    simp only [step]
    split
    · exact knows_nextSave _ _ _
    · exact knows_nextSave _ _ _
  | saved err => trivial
  | findRemove hash address =>
    rw [step]
    split
    · trivial
    · trivial
    next raw hget =>
      split
      · trivial
      next trx hdec =>
        split
        · trivial
        next ha =>
          obtain ⟨t, ht, hhash, rfl⟩ := hmem hash raw (BigCache.get_ok hget)
          rw [hcodec.decode t] at hdec
          cases hdec
          exact ⟨ht, hhash, not_not.mp ha⟩
  | deleteRemove hash address trx =>
    rw [step]
    split
    · trivial
    · trivial
    · exact knows_nextRemove hc.2.1 none [trx.issuerAddress, trx.receiverAddress]
  | lookRemove hash trx errs a rest =>
    rw [step]
    split
    · exact knows_nextRemove hc _ _
    · exact hc
  | dropRemove hash trx errs awaited a rest =>
    rw [step]
    split
    · split
      · exact knows_nextRemove hc _ _
      · exact knows_nextRemove hc _ _
    · split
      · exact knows_nextRemove hc _ _
      · exact knows_nextRemove hc _ _
  | removed res => trivial

end CacheCall

/-! ### Taken once -/

section Once

open CacheCall

variable {codec : TrxCodec} {D : Transaction → Prop} {m : CacheMemory} {raw : Bytes}

/-- What was stored and not yet deleted. -/
structure Tallied (D : Transaction → Prop) (codec : TrxCodec) (m : CacheMemory) : Prop where
  holds : Holds D codec m.mem
  tally : ∀ h, takes h m.history + (if (m.mem.lookup (encodeTrxKey h)).isSome then 1 else 0) ≤ stores h m.history

theorem Tallied.fresh : Tallied D codec .fresh where
  holds := by
    intro hash raw h
    rw [CacheMemory.fresh, AList.lookup_empty] at h
    cases h
  tally h := by simp [CacheMemory.fresh, takes]

theorem Tallied.store (h : Tallied D codec m) {trx : Transaction} (ht : D trx) :
    Tallied D codec ⟨m.mem.insert (encodeTrxKey trx.hash) (codec.encode trx), m.history ++ [.stored trx]⟩ where
  holds := by
    intro hash raw hraw
    by_cases hkey : hash = trx.hash
    · subst hkey
      rw [AList.lookup_insert] at hraw
      exact ⟨trx, ht, rfl, (Option.some.inj hraw).symm⟩
    · rw [AList.lookup_insert_ne fun heq => hkey (encodeTrxKey_injective heq)] at hraw
      exact h.holds hash raw hraw
  tally := by
    intro k
    have hk := h.tally k
    have htakes : takes k (m.history ++ [.stored trx]) = takes k m.history := by simp [takes]
    have hstores : stores k (m.history ++ [.stored trx]) =
        stores k m.history + if trx.hash = k then 1 else 0 := by
      simp [stores, List.countP_append, List.countP_singleton]
    rw [htakes, hstores]
    by_cases hkey : trx.hash = k
    · subst hkey
      rw [AList.lookup_insert, if_pos rfl, Option.isSome_some, if_pos rfl]
      omega
    · rw [AList.lookup_insert_ne fun heq => hkey (encodeTrxKey_injective heq).symm, if_neg hkey]
      exact hk

theorem Tallied.take (h : Tallied D codec m) {hash : Hash} (held : m.mem.lookup (encodeTrxKey hash) = some raw)
    (trx : Transaction) :
    Tallied D codec ⟨m.mem.erase (encodeTrxKey hash), m.history ++ [.taken hash trx]⟩ where
  holds := by
    intro k raw' hraw
    by_cases hkey : k = hash
    · subst hkey
      rw [AList.lookup_erase] at hraw
      cases hraw
    · rw [AList.lookup_erase_ne fun heq => hkey (encodeTrxKey_injective heq)] at hraw
      exact h.holds k raw' hraw
  tally := by
    intro k
    have hk := h.tally k
    have hstores : stores k (m.history ++ [.taken hash trx]) = stores k m.history := by simp [stores]
    have htakes : takes k (m.history ++ [.taken hash trx]) =
        takes k m.history + if hash = k then 1 else 0 := by
      simp [takes, List.countP_append, List.countP_singleton]
    rw [htakes, hstores]
    by_cases hkey : hash = k
    · subst hkey
      rw [held, Option.isSome_some, if_pos rfl] at hk
      simpa [AList.lookup_erase] using hk
    · rw [AList.lookup_erase_ne fun heq => hkey (encodeTrxKey_injective heq).symm, if_neg hkey]
      exact hk

theorem Tallied.act (h : Tallied D codec m) (refused : Bool) (c : CacheCall) (hc : c.Knows D) :
    Tallied D codec (m.act codec refused c).1 := by
  have hdoes := step_does codec refused m.mem hc
  unfold CacheMemory.act
  generalize c.step codec refused m.mem = r at hdoes ⊢
  obtain ⟨mem', c', effect⟩ := r
  cases hdoes with
  | quiet same took =>
    refine ⟨fun hash raw hraw => h.holds hash raw (by rw [← same]; exact hraw), fun k => ?_⟩
    simp only [Option.toList_none, List.append_nil, same]
    exact h.tally k
  | store mem_eq next =>
    cases mem_eq
    exact h.store hc
  | take held mem_eq next =>
    cases mem_eq
    exact h.take held _

theorem Tallied.evict (h : Tallied D codec m) (key : Bytes) : Tallied D codec (m.evict key) where
  holds := by
    intro hash raw hraw
    by_cases hkey : encodeTrxKey hash = key
    · rw [CacheMemory.evict, hkey, AList.lookup_erase] at hraw
      cases hraw
    · rw [CacheMemory.evict, AList.lookup_erase_ne hkey] at hraw
      exact h.holds hash raw hraw
  tally := by
    intro k
    have hk := h.tally k
    by_cases hkey : encodeTrxKey k = key
    · subst hkey
      simp only [CacheMemory.evict, AList.lookup_erase]
      simp
      omega
    · simpa only [CacheMemory.evict, AList.lookup_erase_ne hkey] using hk

theorem took_act (h : Hash) (refused : Bool) (m : CacheMemory) (c : CacheCall) (hc : c.Knows D) :
    takes h m.history + (if (m.act codec refused c).2.took h then 1 else 0) ≤
      takes h (m.act codec refused c).1.history + if c.took h then 1 else 0 := by
  have hdoes := step_does codec refused m.mem hc
  unfold CacheMemory.act
  generalize c.step codec refused m.mem = r at hdoes ⊢
  obtain ⟨mem', c', effect⟩ := r
  cases hdoes with
  | quiet same took => simp [took]
  | store mem_eq next =>
    subst next
    simp [took_nextSave, takes]
  | take held mem_eq next =>
    subst next
    rw [took_nextRemove hc.2.1]
    simp [takes, List.countP_append, List.countP_singleton]

theorem tallied_step (hcodec : codec.Faithful) (h : Hash) (p : CachePool) (e : CachePool.Event)
    (he : ∀ t, e = .spawn (.save t) → D t)
    (hp : (Tallied D codec p.shared ∧ ∀ c ∈ p.threads, c.Knows D) ∧
      p.threads.countP (took h) ≤ takes h p.shared.history) :
    (Tallied D codec (p.step codec e).shared ∧ ∀ c ∈ (p.step codec e).threads, c.Knows D) ∧
      (p.step codec e).threads.countP (took h) ≤ takes h (p.step codec e).shared.history := by
  obtain ⟨hp, hcount⟩ := hp
  unfold CachePool.step
  refine ⟨?_, ?_⟩
  · have hevict : ∀ key m, Tallied D codec m →
        Tallied D codec (CacheMemory.evict key m) ∧ ∀ c : CacheCall, c.Knows D → c.Knows D :=
      fun key m hm => ⟨hm.evict key, fun _ hc => hc⟩
    refine Pool.locally_step (J := fun _ c => c.Knows D) (P := fun e => ∀ t, e = .spawn (.save t) → D t)
      (fun refused m c hm hc => ⟨hm.act refused c hc, step_knows hcodec hm.holds c hc⟩)
      (fun _ _ _ _ _ _ hu => hu) (fun m b hb _ => ?_) hevict p e he hp
    cases b with
    | save trx => exact hb trx rfl
    | remove hash address => trivial
  · refine Pool.counted_step (n := fun m : CacheMemory => takes h m.history) p e
      (fun refused c hc => took_act h refused p.shared c (hp.2 c hc)) (fun b => ?_) (fun _ => Nat.le_refl _) hcount
    cases b <;> rfl

/-- RUN: in every state, whatever the order of the operations. -/
theorem tallied_run (hcodec : codec.Faithful) (h : Hash) (es : List CachePool.Event)
    (hes : ∀ e ∈ es, ∀ t, e = .spawn (.save t) → D t) :
    (Tallied D codec (run (CachePool.step codec) .fresh es).shared ∧
      ∀ c ∈ (run (CachePool.step codec) .fresh es).threads, c.Knows D) ∧
    (run (CachePool.step codec) .fresh es).threads.countP (took h) ≤
      takes h (run (CachePool.step codec) .fresh es).shared.history := by
  refine run_invariant_along (I := fun p : CachePool => (Tallied D codec p.shared ∧ ∀ c ∈ p.threads, c.Knows D) ∧
      p.threads.countP (took h) ≤ takes h p.shared.history) (P := fun _ e => ∀ t, e = .spawn (.save t) → D t)
    (fun p e he hp => tallied_step hcodec h p e he hp) (along_of_forall hes _) ⟨⟨Tallied.fresh, ?_⟩, ?_⟩
  · intro c hc
    cases hc
  · exact Nat.zero_le _

theorem CacheCall.Does.gone {mem mem' : BigCache} {c c' : CacheCall} {effect : Option CacheEffect} {h : Hash}
    (hdoes : Does codec mem mem' c' c effect) (hraw : mem.lookup (encodeTrxKey h) = some raw)
    (hgone : mem'.lookup (encodeTrxKey h) = none) : ∃ address trx, c = .deleteRemove h address trx := by
  cases hdoes with
  | quiet same took =>
    rw [same, hraw] at hgone
    cases hgone
  | @store trx mem_eq next =>
    subst mem_eq
    by_cases hkey : h = trx.hash
    · rw [hkey, AList.lookup_insert] at hgone
      cases hgone
    · rw [AList.lookup_insert_ne fun heq => hkey (encodeTrxKey_injective heq), hraw] at hgone
      cases hgone
  | @take hash address trx raw' held mem_eq next =>
    subst mem_eq
    by_cases hkey : hash = h
    · exact ⟨address, trx, by rw [hkey]⟩
    · rw [AList.lookup_erase_ne fun heq => hkey (encodeTrxKey_injective heq).symm, hraw] at hgone
      cases hgone

/-- STEP (loss): an entry goes with its expiry, or with a removal for the receiver of what is stored there. -/
theorem entry_lost (hcodec : codec.Faithful) {p : CachePool} (htallied : Tallied D codec p.shared)
    (hknows : ∀ c ∈ p.threads, c.Knows D) (hhash : ∀ t u, D t → D u → t.hash = u.hash → t = u) {h : Hash}
    {e : CachePool.Event} (hraw : p.shared.mem.lookup (encodeTrxKey h) = some raw)
    (hgone : (p.step codec e).shared.mem.lookup (encodeTrxKey h) = none) :
    e = .outside (encodeTrxKey h) ∨ ∃ i refused address trx, e = .step i refused ∧
      p.threads[i]? = some (.deleteRemove h address trx) ∧ codec.decode raw = some trx ∧
      trx.receiverAddress = address := by
  cases e with
  | spawn b =>
    rw [show (p.step codec (.spawn b)).shared = p.shared from rfl, hraw] at hgone
    cases hgone
  | outside key =>
    left
    by_cases hkey : encodeTrxKey h = key
    · rw [hkey]
    · have hsame : ((p.step codec (.outside key)).shared.mem).lookup (encodeTrxKey h) =
          p.shared.mem.lookup (encodeTrxKey h) := AList.lookup_erase_ne hkey
      rw [hsame, hraw] at hgone
      cases hgone
  | step i refused =>
    right
    cases hi : p.threads[i]? with
    | none =>
      have hsame : p.step codec (.step i refused) = p := by simp only [CachePool.step, Pool.step, hi]
      rw [hsame, hraw] at hgone
      cases hgone
    | some c =>
      have hc := hknows c (List.mem_of_getElem? hi)
      have hmem : (p.step codec (.step i refused)).shared.mem = (c.step codec refused p.shared.mem).1 := by
        rw [CachePool.step, Pool.step_of_thread hi]
        rfl
      rw [hmem] at hgone
      obtain ⟨address, trx, rfl⟩ := (step_does codec refused p.shared.mem hc).gone hraw hgone
      -- what the call has read is what is stored, since the hash determines it
      obtain ⟨t, ht, hthash, rfl⟩ := htallied.holds h raw hraw
      have heq : t = trx := hhash t trx ht hc.1 (hthash.trans hc.2.1.symm)
      exact ⟨i, refused, address, trx, rfl, hi, by rw [heq, hcodec.decode], hc.2.2⟩

/-- VERDICT (consumption): no hash is returned by more removals than it was stored by saves, and an entry
    goes with its expiry, or with a removal for the receiver of the transaction that is stored there. -/
theorem consumed_at_most_once (hcodec : codec.Faithful) {es : List CachePool.Event}
    (hhash : ∀ t u, .spawn (.save t) ∈ es → .spawn (.save u) ∈ es → t.hash = u.hash → t = u) (h : Hash) :
    (run (CachePool.step codec) .fresh es).threads.countP (took h) ≤
      stores h (run (CachePool.step codec) .fresh es).shared.history ∧
    takes h (run (CachePool.step codec) .fresh es).shared.history ≤
      stores h (run (CachePool.step codec) .fresh es).shared.history ∧
    ∀ raw e, (run (CachePool.step codec) .fresh es).shared.mem.lookup (encodeTrxKey h) = some raw →
      ((run (CachePool.step codec) .fresh es).step codec e).shared.mem.lookup (encodeTrxKey h) = none →
      e = .outside (encodeTrxKey h) ∨ ∃ i refused address trx, e = .step i refused ∧
        (run (CachePool.step codec) .fresh es).threads[i]? = some (.deleteRemove h address trx) ∧
        codec.decode raw = some trx ∧ trx.receiverAddress = address := by
  obtain ⟨⟨htallied, hknows⟩, hcount⟩ := tallied_run (D := fun t => .spawn (.save t) ∈ es) hcodec h es
    (fun e he t ht => ht ▸ he)
  have htakes : takes h (run (CachePool.step codec) .fresh es).shared.history ≤
      stores h (run (CachePool.step codec) .fresh es).shared.history :=
    Nat.le_trans (Nat.le_add_right _ _) (htallied.tally h)
  refine ⟨Nat.le_trans hcount htakes, htakes, fun raw e hraw hgone => ?_⟩
  exact entry_lost hcodec htallied hknows hhash hraw hgone

end Once

namespace Transparent

/-- A contract is saved, and both of two removals find it before one deletes it. -/
def race : List CachePool.Event :=
  [.spawn (.save (offer (wallet 8) 3)), .step 0 false, .step 0 false,
    .spawn (.remove (offer (wallet 8) 3).hash (wallet 8)), .spawn (.remove (offer (wallet 8) 3).hash (wallet 8)),
    .step 1 false, .step 2 false, .step 1 false, .step 2 false]

end Transparent

open Transparent in
/-- One of the two gets the contract. -/
theorem race_has_one_winner : (run (CachePool.step plainCodec) .fresh race).threads.countP
    (CacheCall.took (offer (wallet 8) 3).hash) ≤ 1 := by
  have hstores : stores (offer (wallet 8) 3).hash (run (CachePool.step plainCodec) .fresh race).shared.history = 1 := by
    decide +kernel
  rw [← hstores]
  refine (consumed_at_most_once plainCodec_faithful (fun t u ht hu _ => ?_) _).1
  have hsave : ∀ v, .spawn (.save v) ∈ race → v = offer (wallet 8) 3 := by
    intro v hv
    simpa [race] using hv
  rw [hsave t ht, hsave u hu]

/-! ### The index under overlapping calls -/

namespace CacheCall

/-- The call has read the index entry of the address and is about to write it. -/
def Editing (a : Address) : CacheCall → Prop
  | .noteSave _ _ _ b _ => b = a
  | .dropRemove _ _ _ _ b _ => b = a
  | _ => False

/-- What the call has read is still there. -/
def Current (mem : BigCache) : CacheCall → Prop
  | .noteSave _ _ awaited a _ => mem.lookup (encodeAddressKey a) = awaited
  | .dropRemove _ _ _ awaited a _ => mem.lookup (encodeAddressKey a) = some awaited
  | _ => True

/-- The call is a save that has yet to note the hash for the address. -/
def ToNote (h : Hash) (a : Address) : CacheCall → Prop
  | .lookSave trx _ b rest => trx.hash = h ∧ a ∈ b :: rest
  | .noteSave trx _ _ b rest => trx.hash = h ∧ a ∈ b :: rest
  | _ => False

/-- The call is a removal that has deleted the transaction and still drops its hash from the index. -/
def Clearing (h : Hash) : CacheCall → Prop
  | .lookRemove hash _ _ _ _ => hash = h
  | .dropRemove hash _ _ _ _ _ => hash = h
  | _ => False

/-- The next operation of `c` comes in the way of `d`: it reads the entry that `d` is about to write, or
    stores a transaction whose hash `d` is about to drop. -/
def Disturbs (c d : CacheCall) : Prop :=
  match c with
  | .lookSave _ _ a _ => d.Editing a
  | .lookRemove _ _ _ a _ => d.Editing a
  | .storeSave trx => d.Clearing trx.hash
  | _ => False

/-- No other transaction stands where the call stores its own. -/
def Fits (codec : TrxCodec) (mem : BigCache) : CacheCall → Prop
  | .storeSave trx => ∀ raw ∈ mem.lookup (encodeTrxKey trx.hash), raw = codec.encode trx
  | _ => True

instance : DecidablePred Returned := fun c => by
  cases c <;> first | exact isTrue trivial | exact isFalse id

instance (a : Address) : DecidablePred (Editing a) := fun c => by
  cases c <;> first | exact isFalse id | exact inferInstanceAs (Decidable (_ = _))

instance (h : Hash) : DecidablePred (Clearing h) := fun c => by
  cases c <;> first | exact isFalse id | exact inferInstanceAs (Decidable (_ = _))

instance (c d : CacheCall) : Decidable (c.Disturbs d) := by
  cases c <;> first
    | exact isFalse id
    | exact inferInstanceAs (Decidable (Editing _ _))
    | exact inferInstanceAs (Decidable (Clearing _ _))

instance (codec : TrxCodec) (mem : BigCache) : DecidablePred (Fits codec mem) := fun c => by
  cases c <;> first | exact isTrue trivial | exact inferInstanceAs (Decidable (∀ raw ∈ mem.lookup _, _ = _))

end CacheCall

/-- CONDITION (overlap): the store refuses and evicts nothing, and a call takes its next operation only
    when that comes in the way of no other call. -/
def Apart (codec : TrxCodec) (p : CachePool) : CachePool.Event → Prop
  | .spawn _ => True
  | .step i refused => refused = false ∧
    ∀ c ∈ p.threads[i]?, c.Fits codec p.shared.mem ∧ ∀ d ∈ p.threads, ¬ c.Disturbs d
  | .outside _ => False

instance (codec : TrxCodec) (p : CachePool) : DecidablePred (Apart codec p)
  | .spawn _ => isTrue trivial
  | .step _ _ => inferInstanceAs (Decidable (_ ∧ _))
  | .outside _ => isFalse id

/-- The transactions that were saved and not removed. -/
def remaining (history : List CacheEffect) : List Transaction :=
  history.foldl (fun trxs effect =>
    match effect with
    | .stored trx => trxs ++ [trx]
    | .taken hash _ => trxs.filter (·.hash ≠ hash)) []

@[simp] theorem remaining_stored (history : List CacheEffect) (trx : Transaction) :
    remaining (history ++ [.stored trx]) = remaining history ++ [trx] := by
  simp [remaining, List.foldl_append]

@[simp] theorem remaining_taken (history : List CacheEffect) (hash : Hash) (trx : Transaction) :
    remaining (history ++ [.taken hash trx]) = (remaining history).filter (·.hash ≠ hash) := by
  simp [remaining, List.foldl_append]

/-- The index entry of the address lists the hash. -/
def Lists (mem : BigCache) (a : Address) (h : Hash) : Prop := hexHash h ∈ fields comma (entry mem a)

/-- INVARIANT (overlap): entries list hashes; each has one writer, who knows what it lists; and the hash
    of what remains is listed, or about to be, and nobody drops it. -/
structure Woven (codec : TrxCodec) (p : CachePool) : Prop where
  valid : ∀ a, ∃ hs, Listed p.shared.mem a hs
  current : ∀ c ∈ p.threads, c.Current p.shared.mem
  single : ∀ {i j : ℕ} {a : Address} {c d : CacheCall}, p.threads[i]? = some c →
    p.threads[j]? = some d → c.Editing a → d.Editing a → i = j
  stored : ∀ t ∈ remaining p.shared.history, p.shared.mem.lookup (encodeTrxKey t.hash) = some (codec.encode t)
  noted : ∀ t ∈ remaining p.shared.history, ∀ a, t.Concerns a →
    Lists p.shared.mem a t.hash ∨ ∃ c ∈ p.threads, c.ToNote t.hash a
  clear : ∀ t ∈ remaining p.shared.history, ∀ c ∈ p.threads, ¬ c.Clearing t.hash

section Weaving

open CacheCall

variable {codec : TrxCodec} {p : CachePool} {m : CacheMemory} {i : ℕ} {c c' : CacheCall} {a : Address}
  {mem mem' : BigCache} {trx : Transaction} {hs : List Hash} {awaited : Option Bytes} {rest : List Address}

theorem listed_frame (h : mem'.lookup (encodeAddressKey a) = mem.lookup (encodeAddressKey a)) :
    entry mem' a = entry mem a := by
  rw [entry, entry, h]

theorem CacheCall.Current.frame (h : c.Current mem)
    (hsame : ∀ a, c.Editing a → mem'.lookup (encodeAddressKey a) = mem.lookup (encodeAddressKey a)) :
    c.Current mem' := by
  cases c with
  | noteSave trx err awaited a rest => exact (hsame a rfl).trans h
  | dropRemove hash trx errs awaited a rest => exact (hsame a rfl).trans h
  | _ => trivial

theorem dropAwaited_frame (hash : Hash) (err : Option CacheError) {b : Address} (h : b ≠ a) :
    (dropAwaited .none hash mem err a).1.lookup (encodeAddressKey b) = mem.lookup (encodeAddressKey b) := by
  have hne : encodeAddressKey b ≠ encodeAddressKey a := fun heq => h (encodeAddressKey_injective heq)
  rw [dropAwaited_calm]
  split
  · rfl
  · exact AList.lookup_erase_ne hne
  · exact AList.lookup_insert_ne hne

/-- What an operation of a call has to keep. -/
structure Keeps (codec : TrxCodec) (p : CachePool) (m : CacheMemory) (c c' : CacheCall) : Prop where
  frame : ∀ a, ¬ c.Editing a → m.mem.lookup (encodeAddressKey a) = p.shared.mem.lookup (encodeAddressKey a)
  valid : ∀ a, c.Editing a → ∃ hs, Listed m.mem a hs
  current : c'.Current m.mem
  alone : ∀ a, c'.Editing a → ∀ d ∈ p.threads, ¬ d.Editing a
  stored : ∀ t ∈ remaining m.history, m.mem.lookup (encodeTrxKey t.hash) = some (codec.encode t)
  noted : ∀ t ∈ remaining m.history, ∀ a, t.Concerns a → c'.ToNote t.hash a ∨ (t ∈ remaining p.shared.history ∧
    (Lists p.shared.mem a t.hash ∨ c.ToNote t.hash a → Lists m.mem a t.hash ∨ c'.ToNote t.hash a))
  clear : ∀ t ∈ remaining m.history, ¬ c'.Clearing t.hash ∧ ∀ d ∈ p.threads, ¬ d.Clearing t.hash

theorem Woven.move (h : Woven codec p) (hi : p.threads[i]? = some c) (hk : Keeps codec p m c c') :
    Woven codec ⟨m, p.threads.set i c'⟩ where
  valid a := by
    by_cases ha : c.Editing a
    · exact hk.valid a ha
    · obtain ⟨hs, hlisted⟩ := h.valid a
      exact ⟨hs, by rw [Listed, listed_frame (hk.frame a ha)]; exact hlisted⟩
  current d hd := by
    obtain ⟨j, hj⟩ := List.mem_iff_getElem?.mp hd
    rcases Pool.get_moved hj with ⟨rfl, rfl⟩ | ⟨hji, hj⟩
    · exact hk.current
    · refine (h.current d (List.mem_of_getElem? hj)).frame fun a hda => hk.frame a fun hca => ?_
      exact hji (h.single hj hi hda hca)
  single := by
    intro j k a d e hd he hda hea
    rcases Pool.get_moved hd with ⟨rfl, rfl⟩ | ⟨-, hd'⟩
    · rcases Pool.get_moved he with ⟨rfl, rfl⟩ | ⟨-, he'⟩
      · rfl
      · exact absurd hea (hk.alone a hda e (List.mem_of_getElem? he'))
    · rcases Pool.get_moved he with ⟨rfl, rfl⟩ | ⟨-, he'⟩
      · exact absurd hda (hk.alone a hea d (List.mem_of_getElem? hd'))
      · exact h.single hd' he' hda hea
  stored := hk.stored
  noted t ht a ha := by
    have hself : c' ∈ p.threads.set i c' := List.mem_of_getElem? (Pool.get_self hi c')
    have hdone : Lists m.mem a t.hash ∨ c'.ToNote t.hash a →
        Lists m.mem a t.hash ∨ ∃ d ∈ p.threads.set i c', d.ToNote t.hash a := by
      rintro (hl | hl)
      · exact Or.inl hl
      · exact Or.inr ⟨c', hself, hl⟩
    rcases hk.noted t ht a ha with hl | ⟨hold, hl⟩
    · exact hdone (Or.inr hl)
    · rcases h.noted t hold a ha with hlists | ⟨d, hd, hnote⟩
      · exact hdone (hl (Or.inl hlists))
      · obtain ⟨j, hj⟩ := List.mem_iff_getElem?.mp hd
        by_cases hji : j = i
        · subst hji
          rw [hi] at hj
          cases hj
          exact hdone (hl (Or.inr hnote))
        · exact Or.inr ⟨d, List.mem_of_getElem? (Pool.get_other hj hji c'), hnote⟩
  clear t ht d hd := by
    rcases List.mem_or_eq_of_mem_set hd with hd | rfl
    · exact (hk.clear t ht).2 d hd
    · exact (hk.clear t ht).1

theorem Woven.reads (h : Woven codec p) (hi : p.threads[i]? = some c) (hc : ∀ a, ¬ c.Editing a)
    (hcurrent : c'.Current p.shared.mem) (halone : ∀ a, c'.Editing a → ∀ d ∈ p.threads, ¬ d.Editing a)
    (hnote : ∀ k a, c.ToNote k a → c'.ToNote k a) (hclear : ∀ k, c'.Clearing k → c.Clearing k) :
    Keeps codec p p.shared c c' where
  frame _ _ := rfl
  valid a ha := absurd ha (hc a)
  current := hcurrent
  alone := halone
  stored := h.stored
  noted t ht a _ := Or.inr ⟨ht, fun hl => hl.imp_right (hnote t.hash a)⟩
  clear t ht := ⟨fun hk => h.clear t ht c (List.mem_of_getElem? hi) (hclear t.hash hk), h.clear t ht⟩

theorem Woven.writes (h : Woven codec p) (hi : p.threads[i]? = some c) (hc : ∀ b, c.Editing b ↔ b = a)
    (htrx : ∀ k, mem'.lookup (encodeTrxKey k) = p.shared.mem.lookup (encodeTrxKey k))
    (hframe : ∀ b, b ≠ a → mem'.lookup (encodeAddressKey b) = p.shared.mem.lookup (encodeAddressKey b))
    (hlisted : Listed mem' a hs) (hkept : ∀ k, Lists p.shared.mem a k → ¬ c.Clearing k → k ∈ hs)
    (hc' : ∀ b, ¬ c'.Editing b) (hcurrent : c'.Current mem')
    (hnote : ∀ k b, c.ToNote k b → (b = a ∧ k ∈ hs) ∨ c'.ToNote k b) (hclear : ∀ k, c'.Clearing k → c.Clearing k) :
    Keeps codec p ⟨mem', p.shared.history⟩ c c' where
  frame b hb := hframe b fun heq => hb ((hc b).mpr heq)
  valid b hb := by
    rw [(hc b).mp hb]
    exact ⟨hs, hlisted⟩
  current := hcurrent
  alone b hb := absurd hb (hc' b)
  stored t ht := (htrx _).trans (h.stored t ht)
  noted t ht b _ := by
    have hnot := h.clear t ht c (List.mem_of_getElem? hi)
    refine Or.inr ⟨ht, ?_⟩
    rintro (hl | hl)
    · refine Or.inl ?_
      by_cases hb : b = a
      · subst hb
        exact hlisted.mem_fields.mpr (hkept t.hash hl hnot)
      · rw [Lists, listed_frame (hframe b hb)]
        exact hl
    · rcases hnote t.hash b hl with ⟨rfl, hk⟩ | hl
      · exact Or.inl (hlisted.mem_fields.mpr hk)
      · exact Or.inr hl
  clear t ht := ⟨fun hk => h.clear t ht c (List.mem_of_getElem? hi) (hclear t.hash hk), h.clear t ht⟩

theorem Woven.stores (h : Woven codec p) (hclear : ∀ d ∈ p.threads, ¬ d.Clearing trx.hash)
    (hsame : ∀ raw, p.shared.mem.lookup (encodeTrxKey trx.hash) = some raw → raw = codec.encode trx) :
    Keeps codec p ⟨p.shared.mem.insert (encodeTrxKey trx.hash) (codec.encode trx),
      p.shared.history ++ [.stored trx]⟩ (.storeSave trx) (nextSave trx none trx.parties) where
  frame a _ := AList.lookup_insert_ne (encodeTrxKey_ne_address trx.hash a).symm
  valid a ha := ha.elim
  current := by
    unfold Transaction.parties
    split <;> trivial
  alone a ha := by
    unfold Transaction.parties at ha
    split at ha <;> exact ha.elim
  stored t ht := by
    rw [remaining_stored, List.mem_append, List.mem_singleton] at ht
    by_cases hkey : t.hash = trx.hash
    · rw [hkey, AList.lookup_insert]
      rcases ht with ht | rfl
      · have hraw := h.stored t ht
        rw [hkey] at hraw
        rw [hsame _ hraw]
      · rfl
    · rw [AList.lookup_insert_ne fun heq => hkey (encodeTrxKey_injective heq)]
      rcases ht with ht | rfl
      · exact h.stored t ht
      · exact absurd rfl hkey
  noted t ht a ha := by
    rw [remaining_stored, List.mem_append, List.mem_singleton] at ht
    rcases ht with ht | rfl
    · refine Or.inr ⟨ht, ?_⟩
      rintro (hl | hl)
      · exact Or.inl (by rw [Lists, entry_insert_trx]; exact hl)
      · exact hl.elim
    · left
      have hmem := mem_parties.mpr ha
      cases hparties : t.parties with
      | nil => rw [hparties] at hmem; cases hmem
      | cons b rest => exact ⟨rfl, hparties ▸ hmem⟩
  clear t ht := by
    rw [remaining_stored, List.mem_append, List.mem_singleton] at ht
    refine ⟨?_, ?_⟩
    · unfold Transaction.parties
      split <;> exact id
    · rcases ht with ht | rfl
      · exact h.clear t ht
      · exact hclear

theorem Woven.takes (h : Woven codec p) {hash : Hash} (address : Address) (trx : Transaction) :
    Keeps codec p ⟨p.shared.mem.erase (encodeTrxKey hash), p.shared.history ++ [.taken hash trx]⟩
      (.deleteRemove hash address trx) (nextRemove hash trx none [trx.issuerAddress, trx.receiverAddress]) where
  frame a _ := AList.lookup_erase_ne (encodeTrxKey_ne_address hash a).symm
  valid a ha := ha.elim
  current := trivial
  alone a ha := ha.elim
  stored t ht := by
    rw [remaining_taken, List.mem_filter] at ht
    have hne : t.hash ≠ hash := by simpa using ht.2
    rw [AList.lookup_erase_ne fun heq => hne (encodeTrxKey_injective heq)]
    exact h.stored t ht.1
  noted t ht a _ := by
    rw [remaining_taken, List.mem_filter] at ht
    refine Or.inr ⟨ht.1, ?_⟩
    rintro (hl | hl)
    · exact Or.inl (by rw [Lists, entry_erase_trx]; exact hl)
    · exact hl.elim
  clear t ht := by
    rw [remaining_taken, List.mem_filter] at ht
    have hne : t.hash ≠ hash := by simpa using ht.2
    exact ⟨fun hk => hne hk.symm, h.clear t ht.1⟩

theorem act_quiet (c' : CacheCall) (h : c.step codec false m.mem = (m.mem, c', none)) :
    m.act codec false c = (m, c') := by
  unfold CacheMemory.act
  rw [h]
  simp

theorem act_lookSave (trx : Transaction) (err : Option CacheError) (a : Address) (rest : List Address) :
    m.act codec false (.lookSave trx err a rest) =
      (m, .noteSave trx err (m.mem.lookup (encodeAddressKey a)) a rest) := by
  refine act_quiet _ ?_
  cases hlook : m.mem.lookup (encodeAddressKey a) <;> simp [CacheCall.step, BigCache.get, hlook]

theorem act_noteSave (h : m.mem.lookup (encodeAddressKey a) = awaited) (trx : Transaction) (err : Option CacheError)
    (rest : List Address) :
    m.act codec false (.noteSave trx err awaited a rest) =
      (⟨noted m.mem trx.hash a, m.history⟩, nextSave trx err rest) := by
  subst h
  unfold CacheMemory.act noted entry
  cases m.mem.lookup (encodeAddressKey a) <;>
    simp [CacheCall.step, BigCache.set, AddressEntry.set, AddressEntry.add]

theorem act_findRemove (codec : TrxCodec) (m : CacheMemory) (hash : Hash) (address : Address) :
    ∃ c', m.act codec false (.findRemove hash address) = (m, c') ∧
      ((∃ trx, c' = .deleteRemove hash address trx) ∨ ∃ res, c' = .removed res) := by
  refine ⟨_, act_quiet (CacheCall.step codec false m.mem (.findRemove hash address)).2.1 ?_, ?_⟩
  · rw [CacheCall.step]
    split
    · rfl
    · rfl
    · split
      · rfl
      · split <;> rfl
  · rw [CacheCall.step]
    split
    · exact Or.inr ⟨_, rfl⟩
    · exact Or.inr ⟨_, rfl⟩
    · split
      · exact Or.inr ⟨_, rfl⟩
      · split
        · exact Or.inr ⟨_, rfl⟩
        · exact Or.inl ⟨_, rfl⟩

theorem act_lookRemove (hash : Hash) (trx : Transaction) (errs : Option CacheError) (a : Address)
    (rest : List Address) : m.act codec false (.lookRemove hash trx errs a rest) =
      (m, match m.mem.lookup (encodeAddressKey a) with
        | none => nextRemove hash trx (some .errEntryNotFound) rest
        | some awaited => .dropRemove hash trx errs awaited a rest) := by
  refine act_quiet _ ?_
  cases hlook : m.mem.lookup (encodeAddressKey a) <;> simp [CacheCall.step, BigCache.get, hlook]

theorem act_dropRemove {awaited : Bytes} (h : m.mem.lookup (encodeAddressKey a) = some awaited) (hash : Hash)
    (trx : Transaction) (errs : Option CacheError) (rest : List Address) :
    m.act codec false (.dropRemove hash trx errs awaited a rest) =
      (⟨(dropAwaited .none hash m.mem none a).1, m.history⟩, nextRemove hash trx errs rest) := by
  unfold CacheMemory.act
  rw [dropAwaited_calm, h]
  cases awaited with
  | nil => simp [CacheCall.step, BigCache.delete, h]
  | cons x e => simp [CacheCall.step, BigCache.set]

theorem nextSave_quiet (trx : Transaction) (err : Option CacheError) (rest : List Address) (mem : BigCache) :
    (nextSave trx err rest).Current mem ∧ (∀ a, ¬ (nextSave trx err rest).Editing a) ∧
      (∀ k, ¬ (nextSave trx err rest).Clearing k) ∧
      ∀ k a, (nextSave trx err rest).ToNote k a ↔ trx.hash = k ∧ a ∈ rest := by
  cases rest with
  | nil => exact ⟨trivial, fun _ => id, fun _ => id, fun k a => ⟨False.elim, fun h => nomatch h.2⟩⟩
  | cons b rest => exact ⟨trivial, fun _ => id, fun _ => id, fun k a => Iff.rfl⟩

theorem nextRemove_quiet (hash : Hash) (trx : Transaction) (errs : Option CacheError) (rest : List Address)
    (mem : BigCache) : (nextRemove hash trx errs rest).Current mem ∧
      (∀ a, ¬ (nextRemove hash trx errs rest).Editing a) ∧
      ∀ k, (nextRemove hash trx errs rest).Clearing k → hash = k := by
  cases rest with
  | nil => exact ⟨trivial, fun _ => id, fun _ => False.elim⟩
  | cons b rest => exact ⟨trivial, fun _ => id, fun _ h => h⟩

theorem Woven.notes (h : Woven codec p) {err : Option CacheError}
    (hi : p.threads[i]? = some (.noteSave trx err awaited a rest))
    (hcurrent : p.shared.mem.lookup (encodeAddressKey a) = awaited) :
    Keeps codec p (p.shared.act codec false (.noteSave trx err awaited a rest)).1 (.noteSave trx err awaited a rest)
      (p.shared.act codec false (.noteSave trx err awaited a rest)).2 := by
  rw [act_noteSave hcurrent]
  obtain ⟨hcur, hedit, hclear, hnote⟩ := nextSave_quiet trx err rest (Computantis.noted p.shared.mem trx.hash a)
  obtain ⟨hs, hlisted⟩ := h.valid a
  have hlisted' := hlisted.note trx.hash a
  rw [if_pos rfl] at hlisted'
  refine h.writes hi (fun b => eq_comm) (fun k => lookup_insert_address a _ k)
    (fun b hb => AList.lookup_insert_ne fun heq => hb (encodeAddressKey_injective heq)) hlisted'
    (fun k hk _ => List.mem_append_left _ (hlisted.mem_fields.mp hk)) hedit hcur (fun k b hb => ?_)
    (fun k hk => (hclear k hk).elim)
  obtain ⟨rfl, hb⟩ := hb
  rcases List.mem_cons.mp hb with rfl | hb
  · exact Or.inl ⟨rfl, List.mem_append_right _ (List.mem_singleton.mpr rfl)⟩
  · exact Or.inr ((hnote _ b).mpr ⟨rfl, hb⟩)

theorem Woven.drops (h : Woven codec p) {hash : Hash} {errs : Option CacheError} {awaited : Bytes}
    (hi : p.threads[i]? = some (.dropRemove hash trx errs awaited a rest))
    (hcurrent : p.shared.mem.lookup (encodeAddressKey a) = some awaited) :
    Keeps codec p (p.shared.act codec false (.dropRemove hash trx errs awaited a rest)).1
      (.dropRemove hash trx errs awaited a rest)
      (p.shared.act codec false (.dropRemove hash trx errs awaited a rest)).2 := by
  rw [act_dropRemove hcurrent]
  obtain ⟨hcur, hedit, hclear⟩ :=
    nextRemove_quiet hash trx errs rest (dropAwaited .none hash p.shared.mem none a).1
  obtain ⟨hs, hlisted⟩ := h.valid a
  have hlisted' := hlisted.drop hash none a
  rw [if_pos rfl] at hlisted'
  refine h.writes hi (fun b => eq_comm) (fun k => dropAwaited_trx hash k none a) (fun b hb => ?_) hlisted'
    (fun k hk hne => ?_) hedit hcur (fun _ _ => False.elim) hclear
  · exact dropAwaited_frame hash none hb
  · refine List.mem_filter.mpr ⟨hlisted.mem_fields.mp hk, ?_⟩
    simpa using fun heq : k = hash => hne heq.symm

theorem Woven.act (h : Woven codec p) (hi : p.threads[i]? = some c) (hapart : Apart codec p (.step i false)) :
    Keeps codec p (p.shared.act codec false c).1 c (p.shared.act codec false c).2 := by
  obtain ⟨hfits, hapart⟩ := hapart.2 c hi
  have hcurrent := h.current c (List.mem_of_getElem? hi)
  cases c with
  | findSave trx =>
    cases hheld : p.shared.mem.lookup (encodeTrxKey trx.hash) with
    | none =>
      rw [act_quiet (.storeSave trx) (by simp [CacheCall.step, BigCache.get, hheld])]
      exact h.reads hi (fun _ => id) trivial (fun _ => False.elim) (fun _ _ => id) (fun _ => id)
    | some raw =>
      rw [act_quiet (.saved (some .errTrxAlreadyExists)) (by simp [CacheCall.step, BigCache.get, hheld])]
      exact h.reads hi (fun _ => id) trivial (fun _ => False.elim) (fun _ _ => id) (fun _ => id)
  | storeSave trx =>
    exact h.stores hapart hfits
  | lookSave trx err a rest =>
    rw [act_lookSave]
    refine h.reads hi (fun _ => id) rfl ?_ (fun _ _ hn => hn) (fun _ => id)
    rintro b rfl
    exact hapart
  | noteSave trx err awaited a rest => exact h.notes hi hcurrent
  | saved err =>
    rw [act_quiet (.saved err) rfl]
    exact h.reads hi (fun _ => id) trivial (fun _ => False.elim) (fun _ _ => id) (fun _ => id)
  | findRemove hash address =>
    obtain ⟨c', hact, hc'⟩ := act_findRemove codec p.shared hash address
    rw [hact]
    rcases hc' with ⟨trx, rfl⟩ | ⟨res, rfl⟩
    · exact h.reads hi (fun _ => id) trivial (fun _ => False.elim) (fun _ _ => id) (fun _ => id)
    · exact h.reads hi (fun _ => id) trivial (fun _ => False.elim) (fun _ _ => id) (fun _ => id)
  | deleteRemove hash address trx =>
    cases hheld : p.shared.mem.lookup (encodeTrxKey hash) with
    | none =>
      rw [act_quiet (.removed (.error .errTransactionNotFound))
        (by simp [CacheCall.step, BigCache.delete, hheld])]
      exact h.reads hi (fun _ => id) trivial (fun _ => False.elim) (fun _ _ => id) (fun _ => id)
    | some raw =>
      have hact : p.shared.act codec false (.deleteRemove hash address trx) =
          (⟨p.shared.mem.erase (encodeTrxKey hash), p.shared.history ++ [.taken hash trx]⟩,
            nextRemove hash trx none [trx.issuerAddress, trx.receiverAddress]) := by
        simp [CacheMemory.act, CacheCall.step, BigCache.delete, hheld]
      rw [hact]
      exact h.takes address trx
  | lookRemove hash trx errs a rest =>
    rw [act_lookRemove]
    cases hentry : p.shared.mem.lookup (encodeAddressKey a) with
    | none =>
      obtain ⟨hcur, hedit, hclear⟩ := nextRemove_quiet hash trx (some .errEntryNotFound) rest p.shared.mem
      exact h.reads hi (fun _ => id) hcur (fun b hb => (hedit b hb).elim) (fun _ _ => False.elim) hclear
    | some awaited =>
      refine h.reads hi (fun _ => id) hentry ?_ (fun _ _ => False.elim) (fun _ hk => hk)
      rintro b rfl
      exact hapart
  | dropRemove hash trx errs awaited a rest => exact h.drops hi hcurrent
  | removed res =>
    rw [act_quiet (.removed res) rfl]
    exact h.reads hi (fun _ => id) trivial (fun _ => False.elim) (fun _ _ => id) (fun _ => id)

theorem Woven.joins (h : Woven codec p) (b : CacheRequest) :
    Woven codec ⟨p.shared, p.threads ++ [CacheCall.start b]⟩ := by
  have hnew : (start b).Current p.shared.mem ∧ (∀ a, ¬ (start b).Editing a) ∧ ∀ k, ¬ (start b).Clearing k := by
    cases b <;> exact ⟨trivial, fun _ => id, fun _ => id⟩
  obtain ⟨hcurrent, hedit, hclear⟩ := hnew
  refine ⟨h.valid, fun c hc => ?_, ?_, h.stored, fun t ht a ha => ?_, fun t ht c hc => ?_⟩
  · rcases List.mem_append.mp hc with hc | hc
    · exact h.current c hc
    · rwa [List.mem_singleton.mp hc]
  · intro i j a c d hi hj hc hd
    rcases Pool.get_joined hi with ⟨-, rfl⟩ | ⟨-, hi'⟩
    · exact absurd hc (hedit a)
    · rcases Pool.get_joined hj with ⟨-, rfl⟩ | ⟨-, hj'⟩
      · exact absurd hd (hedit a)
      · exact h.single hi' hj' hc hd
  · rcases h.noted t ht a ha with hl | ⟨c, hc, hnote⟩
    · exact Or.inl hl
    · exact Or.inr ⟨c, List.mem_append_left _ hc, hnote⟩
  · rcases List.mem_append.mp hc with hc | hc
    · exact h.clear t ht c hc
    · rw [List.mem_singleton.mp hc]
      exact hclear t.hash

theorem Woven.step (e : CachePool.Event) (he : Apart codec p e) (h : Woven codec p) :
    Woven codec (p.step codec e) := by
  cases e with
  | spawn b => exact h.joins b
  | step i refused =>
    obtain rfl : refused = false := he.1
    cases hi : p.threads[i]? with
    | none =>
      have hsame : p.step codec (.step i false) = p := by simp only [CachePool.step, Pool.step, hi]
      rwa [hsame]
    | some c =>
      rw [CachePool.step, Pool.step_of_thread hi]
      exact h.move hi (h.act hi he)
  | outside key => exact he.elim

theorem Woven.fresh : Woven codec .fresh where
  valid a := ⟨[], by simp [Listed, entry, CachePool.fresh, CacheMemory.fresh]⟩
  current c hc := nomatch hc
  single hi := nomatch hi
  stored t ht := nomatch ht
  noted t ht := nomatch ht
  clear t ht := nomatch ht

theorem Holds.keyed {D : Transaction → Prop} (hcodec : codec.Faithful) (h : Holds D codec mem) :
    Keyed codec mem := by
  intro hash raw hraw
  obtain ⟨t, -, hhash, rfl⟩ := h hash raw hraw
  exact ⟨t, hcodec.decode t, hhash⟩

theorem Keyed.read_listed (hcodec : codec.Faithful) (h : Keyed codec mem) (hlisted : Listed mem a hs)
    {t : Transaction} (hmem : t.hash ∈ hs) (ht : mem.lookup (encodeTrxKey t.hash) = some (codec.encode t)) :
    ∃ trxs err, (readTransactions codec .none mem a).2 = .returned trxs err ∧ t ∈ trxs := by
  obtain ⟨x, e, he⟩ := hlisted.present hmem
  obtain ⟨trxs, gone, errs, hread, -, hall⟩ := h.readAwaited hs
  have hfields : AddressEntry.read (x :: e) = .ok (hs, false) := by
    refine read_ok ?_
    rwa [Listed, entry, he, Option.getD_some] at hlisted
  refine ⟨trxs, (forgetHashes .none (encodeAddressKey a) gone mem errs).2, ?_,
    hall t.hash hmem _ t ht (hcodec.decode t)⟩
  unfold readTransactions
  simp [he, hfields, hread]

end Weaving

/-- VERDICT (overlap): where calls stay apart, whatever was saved and not removed is read by both parties
    once all calls have returned. -/
theorem apart_loses_nothing {codec : TrxCodec} (hcodec : codec.Faithful) {es : List CachePool.Event}
    (hes : Along (CachePool.step codec) (Apart codec) .fresh es)
    (hreturned : ∀ c ∈ (run (CachePool.step codec) .fresh es).threads, c.Returned) {t : Transaction}
    (ht : t ∈ remaining (run (CachePool.step codec) .fresh es).shared.history) {a : Address} (ha : t.Concerns a) :
    ∃ trxs err, (readTransactions codec .none (run (CachePool.step codec) .fresh es).shared.mem a).2 =
      .returned trxs err ∧ t ∈ trxs := by
  have hwoven : Woven codec (run (CachePool.step codec) .fresh es) :=
    run_invariant_along (fun p e he hp => hp.step e he) hes Woven.fresh
  have htallied := (tallied_run (D := fun _ => True) hcodec t.hash es fun _ _ _ _ => trivial).1.1
  have hlists : Lists (run (CachePool.step codec) .fresh es).shared.mem a t.hash := by
    rcases hwoven.noted t ht a ha with hl | ⟨c, hc, hnote⟩
    · exact hl
    · have hret := hreturned c hc
      cases c <;> first | exact hret.elim | exact hnote.elim
  obtain ⟨hs, hlisted⟩ := hwoven.valid a
  exact (htallied.holds.keyed hcodec).read_listed hcodec hlisted (hlisted.mem_fields.mp hlists) (hwoven.stored t ht)

namespace Transparent

/-- Two contracts of one issuer, saved one after the other, and the second removed. -/
def inTurn : List CachePool.Event :=
  [.spawn (.save (offer (wallet 8) 3)), .spawn (.save (offer (wallet 9) 4))] ++
    List.replicate 6 (.step 0 false) ++ List.replicate 6 (.step 1 false) ++
    [.spawn (.remove (offer (wallet 9) 4).hash (wallet 9))] ++ List.replicate 6 (.step 2 false)

/-- Two contracts of one issuer, saved by calls that take turns. -/
def alternating : List CachePool.Event :=
  [.spawn (.save (offer (wallet 8) 3)), .spawn (.save (offer (wallet 9) 4))] ++
    (List.replicate 6 [.step 0 false, .step 1 false]).flatten

end Transparent

open Transparent in
/-- The contract that is not removed is read by its issuer. -/
theorem contract_saved_in_turn_read : ∃ trxs err,
    (readTransactions plainCodec .none (run (CachePool.step plainCodec) .fresh inTurn).shared.mem (wallet 7)).2 =
      .returned trxs err ∧ offer (wallet 8) 3 ∈ trxs :=
  apart_loses_nothing plainCodec_faithful (by decide +kernel) (by decide +kernel) (by decide +kernel) (Or.inl rfl)

open Transparent in
/-- BUG: both saves find no index entry for the issuer, and the second writes over what the first wrote. -/
theorem overlapping_saves_lose_hash :
    (∀ c ∈ (run (CachePool.step plainCodec) .fresh alternating).threads, c.Returned) ∧
    offer (wallet 8) 3 ∈ remaining (run (CachePool.step plainCodec) .fresh alternating).shared.history ∧
    (readTransactions plainCodec .none (run (CachePool.step plainCodec) .fresh alternating).shared.mem (wallet 7)).2 =
      .returned [offer (wallet 9) 4] none := by
  decide +kernel

end Computantis
