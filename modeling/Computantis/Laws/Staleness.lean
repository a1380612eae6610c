import Computantis.Laws.Awaiting
import Computantis.Model.BalanceCalls

/-! @law staleness | name:Balances after a leaf | family:interleaving | about:Model/BalanceCalls

    A cached balance is good as long as no leaf of its address was added after it was computed (`Fresh`).
    A leaf makes cached balances wrong and then has them forgotten; what is cached between the two does no
    harm. But a balance that was computed before the leaf may come to be saved after the forgetting, and
    then nobody forgets it any more. -/

namespace Computantis

open Schemes

/-- A leaf that concerns the address was added. -/
def BalanceNote.adds (a : Address) : BalanceNote → Bool
  | .added trx => trx.Concerns a
  | _ => false

/-- The balance of the address was computed after the last leaf that concerns it was added. -/
def Fresh (a : Address) (s : Melange) (history : List BalanceNote) : Prop :=
  .computed a s ∈ history.reverse.takeWhile fun n => !n.adds a

instance (a : Address) (s : Melange) (history : List BalanceNote) : Decidable (Fresh a s history) :=
  inferInstanceAs (Decidable (_ ∈ _))

/-- The cached balance of the address is still to be removed by this handler. -/
def BalanceCall.Removes (a : Address) : BalanceCall → Prop
  | .removing addresses => a ∈ addresses
  | _ => False

instance (a : Address) : DecidablePred (BalanceCall.Removes a) := fun c => by
  cases c <;> first | exact isFalse id | exact inferInstanceAs (Decidable (a ∈ _))

/-- The handler of the leaf comes to the removal for the address. -/
def NewLeaf.Forgets (e : BalanceStep) (a : Address) (l : NewLeaf) : Prop := l.passes e = true ∧ a ∈ l.forgotten

/-- No awaited transaction and no index entry stands under the address. -/
def Plain (a : Address) : Prop := (∀ hash, a ≠ encodeTrxKey hash) ∧ ∀ b, a ≠ encodeAddressKey b

/-- CONDITION (promptness), of the next step of one handler. -/
def InTime (a : Address) (p : BalancePool) (e : BalanceStep) : BalanceCall → Prop
  | .saving b s => b = a → Fresh a s p.shared.history ∨ ∃ d ∈ p.threads, d.Removes a
  | .removing (b :: _) => b = a → e.meets.cache.delete a = false
  | .adding l => l.transaction.Concerns a → l.Forgets e a ∨ p.shared.cache.lookup a = none
  | _ => True

instance (a : Address) (p : BalancePool) (e : BalanceStep) : DecidablePred (InTime a p e)
  | .reading _ => isTrue trivial
  | .computing _ => isTrue trivial
  | .saving _ _ => inferInstanceAs (Decidable (_ → _))
  | .adding l => inferInstanceAs (Decidable (l.transaction.Concerns a →
      (l.passes e = true ∧ a ∈ l.forgotten) ∨ p.shared.cache.lookup a = none))
  | .removing [] => isTrue trivial
  | .removing (_ :: _) => inferInstanceAs (Decidable (_ → _))
  | .returned => isTrue trivial

/-- CONDITION (promptness), for one address. A computed balance is saved only while no leaf of the address
    has come in between, or the removal for such a leaf is still to come; no removal is refused; and a
    leaf whose handler does not remove the balance of the address (the pipe is closed, `Reject` leaves its
    receiver out, or the replier adds it) is added only while none is cached. -/
def Prompt (a : Address) (p : BalancePool) : BalancePool.Event → Prop
  | .spawn _ => True
  | .step i e => ∀ c ∈ p.threads[i]?, InTime a p e c
  | .outside (.replay m _ _) => m.vrx.transaction.Concerns a → p.shared.cache.lookup a = none
  | .outside _ => True

instance (a : Address) (p : BalancePool) : DecidablePred (Prompt a p)
  | .spawn _ => isTrue trivial
  | .step i e => inferInstanceAs (Decidable (∀ c ∈ p.threads[i]?, InTime a p e c))
  | .outside (.replay _ _ _) => inferInstanceAs (Decidable (_ → _))
  | .outside (.expire _) => isTrue trivial
  | .outside (.await _) => isTrue trivial

/-- What is cached for the address is fresh. -/
def CachedFresh (codec : Codec) (a : Address) (m : BalanceMemory) : Prop :=
  ∀ raw, m.cache.lookup a = some raw → ∃ s, raw = codec.encodeSpice s ∧ Fresh a s m.history

/-- INVARIANT: a removal is to come, or what is cached is fresh. -/
def Tended (codec : Codec) (a : Address) (p : BalancePool) : Prop :=
  (∃ c ∈ p.threads, c.Removes a) ∨ CachedFresh codec a p.shared

/-! ### The calls on awaited transactions -/

section Frame

variable {codec : TrxCodec} {mem : BigCache} {a : Address}

theorem Plain.notes (h : Plain a) (hash : Hash) (as : List Address) : ∀ m : BigCache,
    (as.foldl (fun m b => noted m hash b) m).lookup a = m.lookup a := by
  induction as with
  | nil => exact fun _ => rfl
  | cons b as ih =>
    intro m
    rw [List.foldl_cons, ih]
    exact AList.lookup_insert_ne (h.2 b)

theorem Plain.drop (h : Plain a) (hash : Hash) (err : Option CacheError) (b : Address) :
    (dropAwaited .none hash mem err b).1.lookup a = mem.lookup a := by
  rw [dropAwaited_calm]
  split
  · rfl
  · exact AList.lookup_erase_ne (h.2 b)
  · exact AList.lookup_insert_ne (h.2 b)

theorem Plain.forget (h : Plain a) (b : Address) (hashes : List Hash) : ∀ (m : BigCache) (errs : Option CacheError),
    (forgetHashes .none (encodeAddressKey b) hashes m errs).1.lookup a = m.lookup a := by
  induction hashes with
  | nil => exact fun _ _ => rfl
  | cons hash hashes ih =>
    intro m errs
    rw [forgetHashes]
    split
    · rfl
    · split
      · rfl
      · simp only [BigCache.set_calm]
        rw [ih]
        exact AList.lookup_insert_ne (h.2 b)

theorem Plain.serve (h : Plain a) (op : CacheOp) : (mem.serve codec op).1.lookup a = mem.lookup a := by
  cases op with
  | save trx =>
    show (saveAwaitedTransaction codec .none mem trx).1.lookup a = _
    cases hlook : mem.lookup (encodeTrxKey trx.hash) with
    | some raw => rw [save_held hlook]
    | none => rw [save_new hlook, h.notes, AList.lookup_insert_ne (h.1 trx.hash)]
  | remove hash address =>
    show (removeAwaitedTransaction codec .none mem hash address).1.lookup a = _
    cases hlook : mem.lookup (encodeTrxKey hash) with
    | none => rw [remove_unknown hlook]
    | some raw =>
      cases hdec : codec.decode raw with
      | none =>
        rw [removeAwaitedTransaction]
        simp only [BigCache.get_calm, hlook, hdec]
      | some trx =>
        by_cases ha : trx.receiverAddress = address
        · subst ha
          rw [remove_taken hlook hdec, dropped, h.drop, h.drop, AList.lookup_erase_ne (h.1 hash)]
        · rw [remove_foreign hlook hdec ha]
  | read address =>
    show (readTransactions codec .none mem address).1.lookup a = _
    unfold readTransactions
    simp only [BigCache.get_calm, BigCache.delete_calm]
    cases mem.lookup (encodeAddressKey address) with
    | none => rfl
    | some awaited =>
      simp only
      split
      · exact AList.lookup_erase_ne (h.2 address)
      · split
        · rfl
        · rfl
        · split
          · rfl
          · exact h.forget address _ _ _

end Frame

/-! ### Steps -/

section Steps

variable {env : ServerEnv} {a : Address} {s : Melange} {history : List BalanceNote} {m : BalanceMemory}
  {codec : Codec} {n : BalanceNote} {c : BalanceCall} {p : BalancePool}

theorem Fresh.note (h : Fresh a s history) (hn : n.adds a = false) : Fresh a s (history ++ [n]) := by
  unfold Fresh at *
  rw [List.reverse_append, List.reverse_singleton, List.singleton_append, List.takeWhile_cons_of_pos (by simp [hn])]
  exact List.mem_cons_of_mem _ h

theorem CachedFresh.note (h : CachedFresh codec a m) (hn : n.adds a = false) : CachedFresh codec a (m.note n) := by
  intro raw hraw
  obtain ⟨s, hs, hfresh⟩ := h raw hraw
  exact ⟨s, hs, hfresh.note hn⟩

theorem CachedFresh.of_none (h : m.cache.lookup a = none) : CachedFresh codec a m := by
  intro raw hraw
  rw [h] at hraw
  cases hraw

theorem CachedFresh.congr {m' : BalanceMemory} (h : CachedFresh codec a m)
    (hcache : m'.cache.lookup a = m.cache.lookup a) (hhistory : m'.history = m.history) : CachedFresh codec a m' := by
  intro raw hraw
  rw [hcache] at hraw
  rw [hhistory]
  exact h raw hraw

theorem CachedFresh.save (h : CachedFresh codec a m) (f : CacheFaults) (b : Address)
    (hs : b = a → Fresh a s m.history) :
    CachedFresh codec a { m with cache := (saveBalance codec f m.cache b s).toOption.getD m.cache } := by
  cases hset : saveBalance codec f m.cache b s with
  | error e => exact h
  | ok mem =>
    have hmem : mem = m.cache.insert b (codec.encodeSpice s) := BigCache.set_ok hset
    subst hmem
    by_cases hb : b = a
    · subst hb
      intro raw hraw
      have hraw' : (m.cache.insert b (codec.encodeSpice s)).lookup b = some raw := hraw
      rw [AList.lookup_insert] at hraw'
      exact ⟨s, (Option.some.inj hraw').symm, hs rfl⟩
    · exact h.congr (AList.lookup_insert_ne (Ne.symm hb)) rfl

/-- CASES (adding): the leaf is noted and its handler goes on to the removals it comes to, or the book is all that
    changes. -/
theorem add_cases (m : BalanceMemory) (e : BalanceStep) (l : NewLeaf) :
    (∃ book, m.add env e l = (({ m with book } : BalanceMemory).note (.added l.transaction),
      if l.passes e then .removing l.forgotten else .returned)) ∨
      ∃ book, m.add env e l = ({ m with book }, .returned) := by
  cases l with
  | receive vrx =>
    simp only [BalanceMemory.add]
    split
    next book _ => exact Or.inl ⟨book, rfl⟩
    next book _ _ => exact Or.inr ⟨book, rfl⟩
  | create trx | reject trx =>
    simp only [BalanceMemory.add]
    split
    next book _ _ => exact Or.inl ⟨book, rfl⟩
    next book _ _ _ => exact Or.inr ⟨book, rfl⟩

/-- STEP (adding): the leaf concerns somebody else, or the balance of the address is forgotten next, or none is
    cached. -/
theorem CachedFresh.add (h : CachedFresh env.ledger.codec a m) (e : BalanceStep) (l : NewLeaf)
    (hl : l.transaction.Concerns a → l.Forgets e a ∨ m.cache.lookup a = none) :
    (m.add env e l).2.Removes a ∨ CachedFresh env.ledger.codec a (m.add env e l).1 := by
  rcases add_cases m e l with ⟨book, hadd⟩ | ⟨book, hadd⟩
  · rw [hadd]
    by_cases ht : l.transaction.Concerns a
    · rcases hl ht with ⟨hpass, hmem⟩ | hnone
      · left
        simp only [if_pos hpass]
        exact hmem
      · exact Or.inr (.of_none hnone)
    · have hbook : CachedFresh env.ledger.codec a { m with book } := h.congr rfl rfl
      exact Or.inr (hbook.note (by simp [BalanceNote.adds, ht]))
  · rw [hadd]
    exact Or.inr (h.congr rfl rfl)

theorem removes_act (hc : c.Removes a) (e : BalanceStep)
    (hdelete : ∀ rest, c = .removing (a :: rest) → e.meets.cache.delete a = false) :
    (m.act env e c).2.Removes a ∨ CachedFresh env.ledger.codec a (m.act env e c).1 := by
  cases c with
  | removing addresses =>
    cases addresses with
    | nil => exact absurd hc List.not_mem_nil
    | cons b rest =>
      rcases List.mem_cons.mp hc with rfl | hrest
      · right
        refine CachedFresh.of_none ?_
        simp only [BalanceMemory.act, removeBalance, BigCache.delete, hdelete rest rfl, Bool.false_eq_true, if_false]
        cases hlook : m.cache.lookup a with
        | none => exact hlook
        | some raw => exact AList.lookup_erase ..
      · exact Or.inl hrest
  | _ => exact hc.elim

theorem fresh_act {i : ℕ} {e : BalanceStep} (hi : p.threads[i]? = some c) (hprompt : Prompt a p (.step i e))
    (hnone : ¬ ∃ d ∈ p.threads, d.Removes a) (h : CachedFresh env.ledger.codec a p.shared) :
    (p.shared.act env e c).2.Removes a ∨ CachedFresh env.ledger.codec a (p.shared.act env e c).1 := by
  have hc := hprompt c hi
  cases c with
  | reading b =>
    simp only [BalanceMemory.act]
    split
    · exact Or.inr (h.note rfl)
    · exact Or.inr h
  | computing b =>
    simp only [BalanceMemory.act]
    split
    · exact Or.inr h
    · exact Or.inr (h.note rfl)
  | saving b s =>
    refine Or.inr (h.save e.meets.cache b fun hb => ?_)
    rcases hc hb with hfresh | hpending
    · exact hfresh
    · exact absurd hpending hnone
  | adding l => exact h.add e l hc
  | removing addresses =>
    cases addresses with
    | nil => exact Or.inr h
    | cons b rest =>
      have hb : a ≠ b := by
        rintro rfl
        exact hnone ⟨_, List.mem_of_getElem? hi, List.mem_cons_self ..⟩
      right
      simp only [BalanceMemory.act]
      cases hdel : removeBalance e.meets.cache p.shared.cache b with
      | error err => exact h
      | ok mem =>
        rw [BigCache.delete_ok hdel]
        exact h.congr (AList.lookup_erase_ne hb) rfl
  | returned => exact Or.inr h

theorem fresh_change (hplain : Plain a) (d : BalanceChange)
    (hd : ∀ parked probe faults, d = .replay parked probe faults → parked.vrx.transaction.Concerns a →
      m.cache.lookup a = none) (h : CachedFresh env.ledger.codec a m) :
    CachedFresh env.ledger.codec a (BalanceMemory.change env d m) := by
  cases d with
  | expire key =>
    by_cases hkey : a = key
    · subst hkey
      exact .of_none (AList.lookup_erase ..)
    · exact h.congr (AList.lookup_erase_ne hkey) rfl
  | await op => exact h.congr (hplain.serve op) rfl
  | replay parked probe faults =>
    simp only [BalanceMemory.change]
    split
    next book _ =>
      by_cases ht : parked.vrx.transaction.Concerns a
      · exact .of_none (hd parked probe faults rfl ht)
      · have hbook : CachedFresh env.ledger.codec a { m with book } := h.congr rfl rfl
        exact hbook.note (by simp [BalanceNote.adds, ht])
    next => exact h.congr rfl rfl

theorem Tended.step (hplain : Plain a) (e : BalancePool.Event) (he : Prompt a p e) (h : Tended env.ledger.codec a p) :
    Tended env.ledger.codec a (p.step env e) := by
  cases e with
  | spawn b =>
    rcases h with ⟨c, hc, hremoves⟩ | h
    · exact Or.inl ⟨c, List.mem_append_left _ hc, hremoves⟩
    · exact Or.inr h
  | step i e =>
    cases hi : p.threads[i]? with
    | none =>
      have hsame : p.step env (.step i e) = p := by simp only [BalancePool.step, Pool.step, hi]
      rwa [hsame]
    | some c =>
      rw [BalancePool.step, Pool.step_of_thread hi]
      have hself : (p.shared.act env e c).2 ∈ p.threads.set i (p.shared.act env e c).2 :=
        List.mem_of_getElem? (Pool.get_self hi _)
      have hdone : (p.shared.act env e c).2.Removes a ∨ CachedFresh env.ledger.codec a (p.shared.act env e c).1 →
          Tended env.ledger.codec a ⟨(p.shared.act env e c).1, p.threads.set i (p.shared.act env e c).2⟩ :=
        fun hor => hor.imp (fun hr => ⟨_, hself, hr⟩) id
      by_cases hpending : ∃ d ∈ p.threads, d.Removes a
      · obtain ⟨d, hd, hremoves⟩ := hpending
        obtain ⟨j, hj⟩ := List.mem_iff_getElem?.mp hd
        by_cases hji : j = i
        · subst hji
          rw [hi] at hj
          cases hj
          refine hdone (removes_act hremoves e ?_)
          rintro rest rfl
          exact he _ hi rfl
        · exact Or.inl ⟨d, List.mem_of_getElem? (Pool.get_other hj hji _), hremoves⟩
      · exact hdone (fresh_act hi he hpending (h.resolve_left hpending))
  | outside d =>
    rcases h with hpending | h
    · exact Or.inl hpending
    · refine Or.inr (fresh_change hplain d ?_ h)
      rintro parked probe faults rfl
      exact he

end Steps

/-- VERDICT (staleness): where handlers are prompt, once all removals for the leaves of an address have
    run, an answer from the cache is a balance computed after the last of these leaves. -/
theorem prompt_answers_fresh {env : ServerEnv} (hcodec : env.ledger.codec.Faithful) {a : Address} (hplain : Plain a)
    (book : Book) {es : List BalancePool.Event} (hes : Along (BalancePool.step env) (Prompt a) (.fresh book) es)
    (hremoved : ∀ c ∈ (run (BalancePool.step env) (.fresh book) es).threads, ¬ c.Removes a) {f : CacheFaults}
    {s : Melange} (hread : readBalance env.ledger.codec f
      (run (BalancePool.step env) (.fresh book) es).shared.cache a = .ok s) :
    Fresh a s (run (BalancePool.step env) (.fresh book) es).shared.history := by
  have htended : Tended env.ledger.codec a (run (BalancePool.step env) (.fresh book) es) := by
    refine run_invariant_along (fun p e he hp => hp.step hplain e he) hes (Or.inr fun raw hraw => ?_)
    rw [show (BalancePool.fresh book).shared.cache.lookup a = none from AList.lookup_empty _] at hraw
    cases hraw
  rcases htended with ⟨c, hc, hremoves⟩ | hfresh
  · exact absurd hremoves (hremoved c hc)
  · unfold readBalance at hread
    split at hread
    · cases hread
    next raw hget =>
      obtain ⟨m, rfl, hm⟩ := hfresh raw (BigCache.get_ok hget)
      rw [hcodec.spice] at hread
      cases hread
      exact hm

namespace Transparent

theorem wallet_plain : Plain (wallet 7) := by
  refine ⟨fun hash h => ?_, fun b h => ?_⟩
  · have := congrArg List.head? h
    simp [wallet, encodeTrxKey, prefixTrx, List.replicate] at this
  · have := congrArg List.head? h
    simp [wallet, encodeAddressKey, prefixAddress, List.replicate] at this

/-- A payment that touches `wallet 7`. -/
def outgoing : Transaction := trx (wallet 7) (wallet 8) ⟨4, 0⟩ [] 3

def calmStep (now : Time) : BalanceStep := ⟨calmly now, true⟩

/-- The leaf of the payment is there and its parties are forgotten, before a balance is asked for. -/
def paidFirst : List BalancePool.Event :=
  [.spawn (.leaf (.create outgoing)), .step 0 (calmStep 4), .step 0 (calmStep 5), .step 0 (calmStep 5),
    .spawn (.balance (wallet 7)), .step 1 (calmStep 6), .step 1 (calmStep 6), .step 1 (calmStep 6)]

/-- The balance is computed before the leaf is there, and saved after its parties are forgotten. -/
def savedLate : List BalancePool.Event :=
  [.spawn (.balance (wallet 7)), .step 0 (calmStep 4), .step 0 (calmStep 4),
    .spawn (.leaf (.create outgoing)), .step 1 (calmStep 5), .step 1 (calmStep 5), .step 1 (calmStep 5),
    .step 0 (calmStep 6)]

/-- The server after the events. -/
def balances (es : List BalancePool.Event) : BalancePool := run (BalancePool.step serverEnv) (.fresh (start 10).book) es

end Transparent

open Transparent in
/-- BUG: nobody has anything to remove any more, and the cache answers with the balance before the
    payment. -/
theorem late_save_serves_stale_balance :
    (∀ c ∈ (balances savedLate).threads, ¬ c.Removes (wallet 7)) ∧
    (balances (savedLate ++ [.spawn (.balance (wallet 7)), .step 2 (calmStep 7)])).shared.history =
      [.computed (wallet 7) ⟨10, 0⟩, .added outgoing, .served (wallet 7) ⟨10, 0⟩] ∧
    ¬ Fresh (wallet 7) ⟨10, 0⟩ (balances savedLate).shared.history ∧
    (((balances savedLate).shared.book.calculateBalance serverEnv.ledger [] ⟨[], none⟩ false 7 (wallet 7)).toOption.map
      Book.Balance.spice) = some ⟨6, 0⟩ := by
  decide +kernel

open Transparent in
/-- A balance that is asked for after the payment is cached, and good. -/
theorem balance_after_payment_fresh : Fresh (wallet 7) ⟨6, 0⟩ (balances paidFirst).shared.history :=
  prompt_answers_fresh (f := .none) codec_faithful wallet_plain (start 10).book (by decide +kernel) (by decide +kernel)
    (by decide +kernel)

end Computantis
