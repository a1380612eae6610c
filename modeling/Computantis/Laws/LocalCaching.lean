import Computantis.Model.LocalCache
import Computantis.Schemes.Machine

/-! @law localcaching | name:Three maps that agree | family:invariant | about:Model/LocalCache

    A write enters a transaction in three maps, and a cleaning takes from all three what it finds under a hash,
    whatever else the given transaction says. So both indexes stay right (`Consistent`), and the cache is the
    list of what was written and not cleaned (`held_run`).

        hash ──▶ transaction ──issuer──▶ {hash, …}
                             └─receiver─▶ {hash, …} -/

namespace Computantis.TransactionCache

open Schemes

/-- What is called on the cache and may change it. -/
inductive Op where
  | write (trx : Transaction)
  | clean (trxs : List Transaction)

def step (c : TransactionCache) : Op → TransactionCache
  | .write trx => (c.writeIssuerSignedTransactionForReceiver trx).1
  | .clean trxs => c.cleanSignedTransactions trxs

/-- The transactions in the cache. -/
def held (c : TransactionCache) : List Transaction := values c.trxs

/-- Transactions are under their hashes, both indexes are right, and there are no more than allowed. -/
structure Consistent (c : TransactionCache) : Prop where
  keyed : ∀ hash trx, c.trxs.lookup hash = some trx → trx.hash = hash
  issuers : Indexes Transaction.issuerAddress c.trxs c.issuerTrxs
  receivers : Indexes Transaction.receiverAddress c.trxs c.receiverTrxs
  room : (c.trxs.keys.length : ℤ) ≤ c.maxLen

theorem write_cases (c : TransactionCache) (trx : Transaction) :
    (∃ e, c.writeIssuerSignedTransactionForReceiver trx = (c, .error e)) ∨
    (c.trxs.lookup trx.hash = none ∧ (c.trxs.keys.length : ℤ) ≠ c.maxLen ∧
      c.writeIssuerSignedTransactionForReceiver trx =
        ({ c with
            trxs := c.trxs.insert trx.hash trx
            issuerTrxs := c.issuerTrxs.enter trx.issuerAddress trx.hash
            receiverTrxs := c.receiverTrxs.enter trx.receiverAddress trx.hash }, .ok ())) := by
  unfold writeIssuerSignedTransactionForReceiver
  cases hlookup : c.trxs.lookup trx.hash with
  | some old => exact .inl ⟨_, rfl⟩
  | none =>
    by_cases hfull : (c.trxs.keys.length : ℤ) = c.maxLen
    · exact .inl ⟨.maxSizeReached c.maxLen, if_pos hfull⟩
    · exact .inr ⟨rfl, hfull, if_neg hfull⟩

/-! ### The invariant -/

namespace Consistent

variable {c : TransactionCache}

theorem new (cfg : LocalCacheConfig) : Consistent (newTransactionCache cfg) where
  keyed hash trx h := by
    rw [newTransactionCache, AList.lookup_empty] at h
    cases h
  issuers := Indexes.empty _
  receivers := Indexes.empty _
  room := by
    simp only [newTransactionCache, AList.keys_empty, List.length_nil]
    split <;> omega

theorem write (h : Consistent c) (trx : Transaction) :
    Consistent (c.writeIssuerSignedTransactionForReceiver trx).1 := by
  rcases write_cases c trx with ⟨e, hrefused⟩ | ⟨hnew, hroom, hwritten⟩
  · rw [hrefused]
    exact h
  · have hnot : trx.hash ∉ c.trxs.keys := AList.lookup_eq_none.mp hnew
    rw [hwritten]
    refine ⟨fun hash t ht => ?_, h.issuers.insert trx hnew, h.receivers.insert trx hnew, ?_⟩
    · rcases eq_or_ne hash trx.hash with rfl | hne
      · rw [AList.lookup_insert, Option.some.injEq] at ht
        rw [← ht]
      · rw [AList.lookup_insert_ne hne] at ht
        exact h.keyed hash t ht
    · have hle := h.room
      rw [AList.keys_insert, List.erase_of_not_mem hnot, List.length_cons]
      push_cast
      omega

theorem clean (h : Consistent c) (trx : Transaction) : Consistent (c.clean trx) := by
  unfold TransactionCache.clean
  split
  · exact h
  next found hfound =>
    have hhash := h.keyed _ _ hfound
    rw [← hhash] at hfound
    refine ⟨fun hash t ht => ?_, h.issuers.erase hfound, h.receivers.erase hfound, ?_⟩
    · rcases eq_or_ne hash found.hash with rfl | hne
      · rw [AList.lookup_erase] at ht
        cases ht
      · rw [AList.lookup_erase_ne hne] at ht
        exact h.keyed hash t ht
    · have hle := h.room
      have hshorter := List.length_erase_le (a := found.hash) (l := c.trxs.keys)
      simp only [AList.keys_erase]
      omega

theorem cleanAll (h : Consistent c) (trxs : List Transaction) : Consistent (c.cleanSignedTransactions trxs) :=
  run_invariant (fun _ trx hc => hc.clean trx) trxs h

theorem step (h : Consistent c) (op : Op) : Consistent (c.step op) := by
  cases op with
  | write trx => exact h.write trx
  | clean trxs => exact h.cleanAll trxs

/-- RUN: every cache that is ever reached is consistent. -/
theorem run (cfg : LocalCacheConfig) (ops : List Op) :
    Consistent (Schemes.run TransactionCache.step (newTransactionCache cfg) ops) :=
  run_invariant (fun _ op hc => hc.step op) ops (new cfg)

end Consistent

/-! ### What is held -/

/-- There is no place for the transaction: its hash is there, or the list is full. -/
def Excluded (maxLen : ℤ) (ts : List Transaction) (trx : Transaction) : Prop :=
  (∃ t ∈ ts, t.hash = trx.hash) ∨ (ts.length : ℤ) = maxLen

instance (maxLen : ℤ) (ts : List Transaction) (trx : Transaction) : Decidable (Excluded maxLen ts trx) :=
  inferInstanceAs (Decidable (_ ∨ _))

/-- The cache as a list of transactions: a write adds one unless there is no place for it, and a cleaning takes
    all whose hashes it is given. -/
def heldStep (maxLen : ℤ) (ts : List Transaction) : Op → List Transaction
  | .write trx => if Excluded maxLen ts trx then ts else trx :: ts
  | .clean trxs => ts.filter fun t => ∀ u ∈ trxs, t.hash ≠ u.hash

section Held

variable {c : TransactionCache}

theorem Consistent.lookup_none_iff (h : Consistent c) (hash : Hash) :
    c.trxs.lookup hash = none ↔ ∀ t ∈ c.held, t.hash ≠ hash := by
  constructor
  · rintro hnone t ht rfl
    have hlookup : c.trxs.lookup t.hash = some t := (mem_values h.keyed).mp ht
    rw [hnone] at hlookup
    cases hlookup
  · intro hall
    cases hlookup : c.trxs.lookup hash with
    | none => rfl
    | some t =>
      have hhash := h.keyed hash t hlookup
      refine absurd hhash (hall t ((mem_values h.keyed).mpr ?_))
      rw [hhash, hlookup]

theorem Consistent.excluded_iff (h : Consistent c) (trx : Transaction) :
    Excluded c.maxLen c.held trx ↔ c.trxs.lookup trx.hash ≠ none ∨ (c.trxs.keys.length : ℤ) = c.maxLen := by
  have hseen : (∃ t ∈ c.held, t.hash = trx.hash) ↔ c.trxs.lookup trx.hash ≠ none := by
    rw [ne_eq, h.lookup_none_iff]
    simp
  have hlen : c.held.length = c.trxs.keys.length := values_length c.trxs
  rw [Excluded, hseen, hlen]

theorem Consistent.held_write (h : Consistent c) (trx : Transaction) :
    ((c.writeIssuerSignedTransactionForReceiver trx).2 = .ok () ↔ ¬ Excluded c.maxLen c.held trx) ∧
      (c.writeIssuerSignedTransactionForReceiver trx).1.held = heldStep c.maxLen c.held (.write trx) := by
  simp only [heldStep, h.excluded_iff]
  unfold writeIssuerSignedTransactionForReceiver
  cases hlookup : c.trxs.lookup trx.hash with
  | some old => simp
  | none =>
    simp only [ne_eq, not_true_eq_false, false_or]
    split
    next hfull => exact ⟨by simp [hfull], rfl⟩
    next hroom => exact ⟨by simp [hroom], values_insert hlookup⟩

theorem Consistent.held_clean_one (h : Consistent c) (trx : Transaction) :
    (c.clean trx).held = c.held.filter fun t => t.hash ≠ trx.hash := by
  unfold TransactionCache.clean
  split
  next hnone =>
    refine (List.filter_eq_self.mpr fun t ht => ?_).symm
    exact decide_eq_true ((h.lookup_none_iff trx.hash).mp hnone t ht)
  next found hfound =>
    rw [h.keyed _ _ hfound]
    exact values_erase h.keyed trx.hash

theorem Consistent.held_clean (h : Consistent c) (trxs : List Transaction) :
    (c.cleanSignedTransactions trxs).held = heldStep c.maxLen c.held (.clean trxs) := by
  unfold cleanSignedTransactions
  induction trxs generalizing c with
  | nil => simp [heldStep]
  | cons trx trxs ih =>
    rw [List.foldl_cons, ih (h.clean trx), heldStep, heldStep, h.held_clean_one, List.filter_filter]
    refine List.filter_congr fun t _ => ?_
    simp [Bool.and_comm]

theorem maxLen_clean (c : TransactionCache) (trxs : List Transaction) :
    (c.cleanSignedTransactions trxs).maxLen = c.maxLen := by
  unfold cleanSignedTransactions
  induction trxs generalizing c with
  | nil => rfl
  | cons trx trxs ih =>
    rw [List.foldl_cons, ih]
    unfold TransactionCache.clean
    split
    · rfl
    · rfl

theorem maxLen_step (c : TransactionCache) (op : Op) : (c.step op).maxLen = c.maxLen := by
  cases op with
  | write trx =>
    rcases write_cases c trx with ⟨e, hrefused⟩ | ⟨-, -, hwritten⟩
    · rw [step, hrefused]
    · rw [step, hwritten]
  | clean trxs => exact maxLen_clean c trxs

theorem maxLen_run (cfg : LocalCacheConfig) (ops : List Op) :
    (run step (newTransactionCache cfg) ops).maxLen = (newTransactionCache cfg).maxLen :=
  run_invariant (I := fun c => c.maxLen = (newTransactionCache cfg).maxLen)
    (fun c op hc => (maxLen_step c op).trans hc) ops rfl

theorem held_run (cfg : LocalCacheConfig) (ops : List Op) :
    (run step (newTransactionCache cfg) ops).held = run (heldStep (newTransactionCache cfg).maxLen) [] ops := by
  induction ops using List.reverseRecOn with
  | nil => rfl
  | append_singleton ops op ih =>
    have hc := Consistent.run cfg ops
    have hmax := maxLen_run cfg ops
    rw [run_append, run_append, ← ih, ← hmax, run_cons, run_nil, run_cons, run_nil]
    cases op with
    | write trx => exact (hc.held_write trx).2
    | clean trxs => exact hc.held_clean trxs

end Held

/-! ### Reading -/

/-- The reads return just the held transactions of the address, fail when there are none, and never find a hash
    without a transaction. -/
structure ReadsExactly (read : List Hash → Address → Except LocalCacheError (List Transaction))
    (heldFor : Address → List Transaction) : Prop where
  returns : ∀ order address trxs, read order address = .ok trxs → trxs.Perm (heldFor address)
  fails : ∀ order address, (∃ e, read order address = .error e) ↔ heldFor address = []
  expected : ∀ order address address' hash, read order address ≠ .error (.errUnexpected address' hash)

/-- RUN (reading): hashes that are all there are read one after the other. -/
theorem readHashes_ok {trxs : Table Hash Transaction} (address : Address) {hashes : List Hash}
    (h : ∀ hash ∈ hashes, ∃ trx, trxs.lookup hash = some trx) (read : List Transaction) :
    readHashes trxs address hashes read = .ok (read ++ hashes.filterMap trxs.lookup) := by
  induction hashes generalizing read with
  | nil => rw [readHashes, List.filterMap_nil, List.append_nil]
  | cons hash rest ih =>
    obtain ⟨trx, htrx⟩ := h hash (List.mem_cons_self ..)
    have hcons : (hash :: rest).filterMap trxs.lookup = trx :: rest.filterMap trxs.lookup :=
      List.filterMap_cons_some htrx
    rw [readHashes, htrx, hcons]
    simp only
    rw [ih (fun k hk => h k (List.mem_cons_of_mem _ hk)), List.append_assoc, List.singleton_append]

variable {c : TransactionCache} {index : Catalogue Address Hash} {label : Transaction → Address}

theorem readAwaiting_cases (h : Indexes label c.trxs index) (missing : Address → LocalCacheError) (order : List Hash)
    (address : Address) :
    (c.held.filter (label · = address) = [] ∧
      c.readAwaiting index missing order address = .error (missing address)) ∨
    (c.held.filter (label · = address) ≠ [] ∧ ∃ trxs, c.readAwaiting index missing order address = .ok trxs ∧
      trxs.Perm (c.held.filter (label · = address))) := by
  have hnone : index.lookup address = none ↔ c.held.filter (label · = address) = [] := h.lookup_none_iff address
  unfold readAwaiting
  cases hlookup : index.lookup address with
  | none => exact .inl ⟨hnone.mp hlookup, rfl⟩
  | some hashes =>
    have hkeys : Catalogue.keysAt index address = hashes.keys := by rw [Catalogue.keysAt, hlookup]
    have hperm : (enumerate order hashes.keys).Perm (Catalogue.keysAt index address) := by
      rw [hkeys]
      exact enumerate_perm hashes.keys_nodup
    refine .inr ⟨?_, _, readHashes_ok address (fun hash hhash => ?_) [], ?_⟩
    · rw [ne_eq, ← hnone, hlookup]
      exact Option.some_ne_none hashes
    · obtain ⟨trx, htrx, -⟩ := (h.mem address hash).mp (hperm.mem_iff.mp hhash)
      exact ⟨trx, htrx⟩
    · exact h.read_perm hperm

theorem readAwaiting_exact (h : Indexes label c.trxs index) {missing : Address → LocalCacheError}
    (hmissing : ∀ a address hash, missing a ≠ .errUnexpected address hash) :
    ReadsExactly (c.readAwaiting index missing) fun address => c.held.filter (label · = address) where
  returns order address trxs hread := by
    rcases readAwaiting_cases h missing order address with ⟨-, herror⟩ | ⟨-, trxs', hok, hperm⟩
    · rw [herror] at hread
      cases hread
    · rw [hok] at hread
      cases hread
      exact hperm
  fails order address := by
    rcases readAwaiting_cases h missing order address with ⟨hnil, herror⟩ | ⟨hsome, trxs', hok, -⟩
    · exact iff_of_true ⟨_, herror⟩ hnil
    · refine iff_of_false ?_ hsome
      rintro ⟨e, herror⟩
      rw [hok] at herror
      cases herror
  expected order address address' hash hread := by
    rcases readAwaiting_cases h missing order address with ⟨-, herror⟩ | ⟨-, trxs', hok, -⟩
    · rw [herror] at hread
      exact hmissing address address' hash (Except.error.inj hread)
    · rw [hok] at hread
      cases hread

/-- No more transactions than allowed, writes that are refused for want of a place only and then without effect,
    and exact reads. -/
structure Sound (c : TransactionCache) : Prop where
  room : (c.held.length : ℤ) ≤ c.maxLen
  accepted : ∀ trx, (c.writeIssuerSignedTransactionForReceiver trx).2 = .ok () ↔ ¬ Excluded c.maxLen c.held trx
  refused : ∀ trx e, (c.writeIssuerSignedTransactionForReceiver trx).2 = .error e →
    (c.writeIssuerSignedTransactionForReceiver trx).1 = c
  byIssuer : ReadsExactly c.readAwaitingTransactionsByIssuer fun a => c.held.filter (·.issuerAddress = a)
  byReceiver : ReadsExactly c.readAwaitingTransactionsByReceiver fun a => c.held.filter (·.receiverAddress = a)

theorem Consistent.sound (h : Consistent c) : Sound c where
  room := by
    rw [held, values_length]
    exact h.room
  accepted trx := (h.held_write trx).1
  refused trx e herror := by
    rcases write_cases c trx with ⟨e', hrefused⟩ | ⟨-, -, hwritten⟩
    · rw [hrefused]
    · rw [hwritten] at herror
      cases herror
  byIssuer := readAwaiting_exact h.issuers (by simp)
  byReceiver := readAwaiting_exact h.receivers (by simp)

end Computantis.TransactionCache

namespace Computantis

open TransactionCache in
/-- SAFETY: after any calls the limit is the configured one, what was written and accepted and not cleaned is held,
    and the cache is sound: it keeps to the limit, a refused write changes nothing, and both reads are exact. -/
theorem local_cache_sound (cfg : LocalCacheConfig) (ops : List TransactionCache.Op) :
    let c := Schemes.run step (newTransactionCache cfg) ops
    c.maxLen = max 1000 cfg.maxLen ∧ c.held = Schemes.run (heldStep (max 1000 cfg.maxLen)) [] ops ∧ Sound c := by
  have hmax : (newTransactionCache cfg).maxLen = max 1000 cfg.maxLen := by
    rw [newTransactionCache]
    simp only
    split <;> omega
  refine ⟨(maxLen_run cfg ops).trans hmax, ?_, (Consistent.run cfg ops).sound⟩
  rw [← hmax]
  exact held_run cfg ops

end Computantis
