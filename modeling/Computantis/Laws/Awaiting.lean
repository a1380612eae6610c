import Computantis.Laws.Assumptions
import Computantis.Schemes.Fields
import Computantis.Schemes.Reactive

/-! @law awaiting | name:The cache as a list of transactions | family:refinement | about:Model/Cache

    Seen from outside the cache is the list of the transactions that wait, in the order in which they were
    saved. The index entry of an address is edited as a string: a new hash goes behind a comma, and what a
    removal leaves gets commas in front, so entries collect stray commas. What counts are the fields
    between them (`Listed`), and every call keeps these equal to the hashes of the transactions that
    concern the address. Entries that expire on their own break this: the index may then list a hash
    without a transaction, or be gone before its transaction. -/

namespace Computantis

open Schemes

/-! ### The cache under the hashes of transactions -/

section Cache

variable {codec : TrxCodec} {f : CacheFaults} {mem : BigCache} {key raw : Bytes} {mem' : BigCache}

theorem BigCache.set_ok (h : BigCache.set mem f key raw = .ok mem') : mem' = mem.insert key raw := by
  unfold BigCache.set at h
  split at h
  · cases h
  · cases h; rfl

theorem BigCache.delete_ok (h : BigCache.delete mem f key = .ok mem') : mem' = mem.erase key := by
  unfold BigCache.delete at h
  split at h
  · cases h
  · split at h
    · cases h
    · cases h; rfl

theorem BigCache.delete_held (h : BigCache.delete mem f key = .ok mem') : ∃ raw, mem.lookup key = some raw := by
  unfold BigCache.delete at h
  split at h
  · cases h
  · split at h
    · cases h
    next raw hraw => exact ⟨raw, hraw⟩

theorem BigCache.get_ok (h : BigCache.get mem f key = .ok raw) : mem.lookup key = some raw := by
  unfold BigCache.get at h
  split at h
  · cases h
  · split at h
    · cases h
    next hraw => cases h; exact hraw

theorem noteAwaited_trx (hash k : Hash) (err : Option CacheError) (address : Address) :
    (noteAwaited f hash mem err address).1.lookup (encodeTrxKey k) = mem.lookup (encodeTrxKey k) := by
  have hne := encodeTrxKey_ne_address k address
  unfold noteAwaited
  simp only
  split
  · split
    · rfl
    next hset => rw [BigCache.set_ok hset, AList.lookup_insert_ne hne]
  · rfl
  · split
    · rfl
    next hset => rw [BigCache.set_ok hset, AList.lookup_insert_ne hne]

theorem dropAwaited_trx (hash k : Hash) (err : Option CacheError) (address : Address) :
    (dropAwaited f hash mem err address).1.lookup (encodeTrxKey k) = mem.lookup (encodeTrxKey k) := by
  have hne := encodeTrxKey_ne_address k address
  unfold dropAwaited
  simp only
  split
  · rfl
  · split
    · split
      · rfl
      next hdel => rw [BigCache.delete_ok hdel, AList.lookup_erase_ne hne]
    · split
      · rfl
      next hset => rw [BigCache.set_ok hset, AList.lookup_insert_ne hne]

theorem foldl_trx {step : BigCache → Option CacheError → Address → BigCache × Option CacheError} {k : Hash}
    (hstep : ∀ mem err a, (step mem err a).1.lookup (encodeTrxKey k) = mem.lookup (encodeTrxKey k))
    (addresses : List Address) : ∀ s : BigCache × Option CacheError,
      (addresses.foldl (fun s a => step s.1 s.2 a) s).1.lookup (encodeTrxKey k) =
        s.1.lookup (encodeTrxKey k) := by
  induction addresses with
  | nil => exact fun _ => rfl
  | cons a rest ih =>
    intro s
    rw [List.foldl_cons, ih, hstep]

theorem saveAwaited_trx (trx : Transaction) {k : Hash}
    (h : (saveAwaitedTransaction codec f mem trx).1.lookup (encodeTrxKey k) = some raw) :
    mem.lookup (encodeTrxKey k) = some raw ∨ raw = codec.encode trx := by
  unfold saveAwaitedTransaction at h
  simp only at h
  split at h
  · exact Or.inl h
  · split at h
    · exact Or.inl h
    next hset =>
      rw [foldl_trx fun mem err a => noteAwaited_trx trx.hash k err a, BigCache.set_ok hset] at h
      by_cases hkey : encodeTrxKey k = encodeTrxKey trx.hash
      · rw [hkey, AList.lookup_insert] at h
        exact Or.inr (Option.some.inj h).symm
      · rw [AList.lookup_insert_ne hkey] at h
        exact Or.inl h
  · exact Or.inl h

/-- SPEC (remove): under the hash of a transaction there is what was there or nothing, and what is
    returned was there. -/
theorem removeAwaited_trx (hash : Hash) (address : Address) :
    (∀ k raw, (removeAwaitedTransaction codec f mem hash address).1.lookup (encodeTrxKey k) = some raw →
      mem.lookup (encodeTrxKey k) = some raw) ∧
    ∀ trx errs, (removeAwaitedTransaction codec f mem hash address).2 = .ok (trx, errs) →
      ∃ raw, mem.lookup (encodeTrxKey hash) = some raw ∧ codec.decode raw = some trx := by
  unfold removeAwaitedTransaction
  simp only
  split
  · exact ⟨fun _ _ h => h, fun _ _ h => nomatch h⟩
  · exact ⟨fun _ _ h => h, fun _ _ h => nomatch h⟩
  next raw hget =>
    split
    · exact ⟨fun _ _ h => h, fun _ _ h => nomatch h⟩
    next trx hdec =>
      split
      · exact ⟨fun _ _ h => h, fun _ _ h => nomatch h⟩
      · split
        · exact ⟨fun _ _ h => h, fun _ _ h => nomatch h⟩
        · exact ⟨fun _ _ h => h, fun _ _ h => nomatch h⟩
        next mem' hdel =>
          refine ⟨fun k raw h => ?_, fun t errs h => ?_⟩
          · rw [foldl_trx fun mem err a => dropAwaited_trx hash k err a, BigCache.delete_ok hdel] at h
            by_cases hkey : encodeTrxKey k = encodeTrxKey hash
            · rw [hkey, AList.lookup_erase] at h
              cases h
            · rwa [AList.lookup_erase_ne hkey] at h
          · cases h
            exact ⟨raw, BigCache.get_ok hget, hdec⟩

end Cache

/-! ### Hexadecimal -/

theorem hexDigits (x : UInt8) : hexDigit (x / 16) ≠ comma ∧ hexDigit (x % 16) ≠ comma ∧
    hexValue (hexDigit (x / 16)) = some (x / 16) ∧ hexValue (hexDigit (x % 16)) = some (x % 16) ∧
    x / 16 * 16 + x % 16 = x := by
  have hall : ∀ n : Fin 256, let x := UInt8.ofNat n
      hexDigit (x / 16) ≠ comma ∧ hexDigit (x % 16) ≠ comma ∧
      hexValue (hexDigit (x / 16)) = some (x / 16) ∧ hexValue (hexDigit (x % 16)) = some (x % 16) ∧
      x / 16 * 16 + x % 16 = x := by decide +kernel
  have hx := hall ⟨x.toNat, x.toNat_lt⟩
  rwa [UInt8.ofNat_toNat] at hx

theorem hexDecode_encode (src : Bytes) : hexDecodeBytes (hexEncodeBytes src) = some src := by
  induction src with
  | nil => rfl
  | cons x src ih =>
    obtain ⟨-, -, hp, hq, hx⟩ := hexDigits x
    have hcons : hexEncodeBytes (x :: src) = hexDigit (x / 16) :: hexDigit (x % 16) :: hexEncodeBytes src := rfl
    rw [hcons, hexDecodeBytes, hp, hq, ih]
    simp only [hx]

theorem comma_not_mem_hex (src : Bytes) : comma ∉ hexEncodeBytes src := by
  intro h
  obtain ⟨x, -, hx⟩ := List.mem_flatMap.mp h
  obtain ⟨hp, hq, -⟩ := hexDigits x
  rcases List.mem_cons.mp hx with hx | hx
  · exact hp hx.symm
  · exact hq (List.mem_singleton.mp hx).symm

/-- A hash as it stands in an index entry. -/
def hexHash (hash : Hash) : Bytes := hexEncodeBytes hash.bytes

theorem hexHash_injective : Function.Injective hexHash := by
  intro h k heq
  have hdec := hexDecode_encode h.bytes
  rw [show hexEncodeBytes h.bytes = hexEncodeBytes k.bytes from heq, hexDecode_encode] at hdec
  exact (Hash.bytes_inj.mp (Option.some.inj hdec)).symm

theorem hexHash_ne_nil (hash : Hash) : hexHash hash ≠ [] := by
  intro h
  have hdec := hexDecode_encode hash.bytes
  rw [show hexEncodeBytes hash.bytes = [] from h, hexDecodeBytes] at hdec
  have := congrArg List.length (Option.some.inj hdec)
  rw [hash.len] at this
  cases this

theorem fields_hexHash (hash : Hash) : fields comma (hexHash hash) = [hexHash hash] := by
  have hcomma : comma ∉ hexHash hash := comma_not_mem_hex _
  rw [fields_of_not_mem hcomma, if_neg (hexHash_ne_nil hash)]

theorem encodeTrxKey_injective : Function.Injective encodeTrxKey := by
  intro h k heq
  refine hexHash_injective ?_
  simpa [encodeTrxKey, hexHash] using heq

theorem encodeAddressKey_injective : Function.Injective encodeAddressKey := by
  intro a b heq
  simpa [encodeAddressKey] using heq

/-! ### Index entries -/

section Entries

variable {mem : BigCache} {a b : Address} {hash : Hash} {hs : List Hash}

/-- The index entry of an address; there is no difference between an empty one and none. -/
def entry (mem : BigCache) (a : Address) : Bytes := (mem.lookup (encodeAddressKey a)).getD []

/-- The index entry of an address lists the hashes. -/
def Listed (mem : BigCache) (a : Address) (hs : List Hash) : Prop := fields comma (entry mem a) = hs.map hexHash

theorem fields_add (e : Bytes) (hash : Hash) :
    fields comma (AddressEntry.add e hash) = fields comma e ++ [hexHash hash] := by
  have hhex := fields_hexHash hash
  unfold AddressEntry.add
  split
  next he =>
    rw [List.eq_nil_of_length_eq_zero he, fields_nil, List.nil_append]
    exact hhex
  next => rw [fields_append_sep, show hexEncodeBytes hash.bytes = hexHash hash from rfl, hhex]

theorem fields_remove (e : Bytes) (hash : Hash) :
    fields comma (AddressEntry.remove e hash) = (fields comma e).filter (· ≠ hexHash hash) :=
  fields_filter_join _ e

theorem readValues_ok (values : List Bytes) : ∀ {hs acc : List Hash} (failed : Bool),
    values.filter (· ≠ []) = hs.map hexHash →
      AddressEntry.readValues values acc failed = .ok (acc ++ hs, failed) := by
  induction values with
  | nil =>
    intro hs acc failed h
    rw [List.filter_nil, eq_comm, List.map_eq_nil_iff] at h
    rw [h, AddressEntry.readValues, List.append_nil]
  | cons v values ih =>
    intro hs acc failed h
    rw [AddressEntry.readValues]
    by_cases hv : v = []
    · subst hv
      exact ih failed (by simpa using h)
    · rw [List.filter_cons_of_pos (by simpa using hv)] at h
      obtain ⟨k, ks, rfl, hk, hks⟩ := List.map_eq_cons_iff.mp h.symm
      have hlen : v.length ≠ 0 := fun hz => hv (List.eq_nil_of_length_eq_zero hz)
      have hdec : hexDecodeBytes v = some k.bytes := by rw [← hk]; exact hexDecode_encode _
      rw [if_neg hlen, hdec]
      simp only [Hash.ofSlice_bytes]
      rw [ih failed hks.symm, List.append_assoc, List.singleton_append]

theorem read_ok {e : Bytes} (h : fields comma e = hs.map hexHash) : AddressEntry.read e = .ok (hs, false) := by
  rw [AddressEntry.read, readValues_ok _ false h, List.nil_append]

@[simp] theorem BigCache.get_calm (mem : BigCache) (key : Bytes) : BigCache.get mem .none key =
    match mem.lookup key with
    | none => .error .errEntryNotFound
    | some raw => .ok raw := rfl

@[simp] theorem BigCache.set_calm (mem : BigCache) (key raw : Bytes) :
    BigCache.set mem .none key raw = .ok (mem.insert key raw) := rfl

@[simp] theorem BigCache.delete_calm (mem : BigCache) (key : Bytes) : BigCache.delete mem .none key =
    match mem.lookup key with
    | none => .error .errEntryNotFound
    | some _ => .ok (mem.erase key) := rfl

/-- A hash is noted behind the others. -/
def noted (mem : BigCache) (hash : Hash) (a : Address) : BigCache :=
  mem.insert (encodeAddressKey a) (AddressEntry.add (entry mem a) hash)

theorem noteAwaited_calm (hash : Hash) (mem : BigCache) (err : Option CacheError) (a : Address) :
    noteAwaited .none hash mem err a = (noted mem hash a, err) := by
  unfold noteAwaited noted entry
  simp only [BigCache.get_calm, BigCache.set_calm]
  cases mem.lookup (encodeAddressKey a) with
  | none => rfl
  | some e => rfl

theorem dropAwaited_calm (hash : Hash) (mem : BigCache) (err : Option CacheError) (a : Address) :
    dropAwaited .none hash mem err a =
      match mem.lookup (encodeAddressKey a) with
      | none => (mem, some .errEntryNotFound)
      | some [] => (mem.erase (encodeAddressKey a), err)
      | some e => (mem.insert (encodeAddressKey a) (AddressEntry.remove e hash), err) := by
  unfold dropAwaited
  simp only [BigCache.get_calm, BigCache.set_calm, BigCache.delete_calm]
  cases mem.lookup (encodeAddressKey a) with
  | none => rfl
  | some e => cases e <;> rfl

theorem entry_insert (mem : BigCache) (a b : Address) (e : Bytes) :
    entry (mem.insert (encodeAddressKey b) e) a = if a = b then e else entry mem a := by
  unfold entry
  split
  next h => rw [h, AList.lookup_insert, Option.getD_some]
  next h => rw [AList.lookup_insert_ne fun heq => h (encodeAddressKey_injective heq)]

theorem entry_insert_trx (mem : BigCache) (a : Address) (hash : Hash) (raw : Bytes) :
    entry (mem.insert (encodeTrxKey hash) raw) a = entry mem a := by
  unfold entry
  rw [AList.lookup_insert_ne (encodeTrxKey_ne_address hash a).symm]

theorem entry_erase_trx (mem : BigCache) (a : Address) (hash : Hash) :
    entry (mem.erase (encodeTrxKey hash)) a = entry mem a := by
  unfold entry
  rw [AList.lookup_erase_ne (encodeTrxKey_ne_address hash a).symm]

theorem entry_erase (mem : BigCache) (a b : Address) :
    entry (mem.erase (encodeAddressKey b)) a = if a = b then [] else entry mem a := by
  unfold entry
  split
  next h => rw [h, AList.lookup_erase, Option.getD_none]
  next h => rw [AList.lookup_erase_ne fun heq => h (encodeAddressKey_injective heq)]

theorem Listed.note (h : Listed mem a hs) (hash : Hash) (b : Address) :
    Listed (noted mem hash b) a (if a = b then hs ++ [hash] else hs) := by
  unfold Listed noted at *
  rw [entry_insert]
  split
  next hab =>
    subst hab
    rw [fields_add, h, List.map_append, List.map_singleton]
  next => exact h

theorem map_filter_hex (hs : List Hash) (hash : Hash) :
    (hs.map hexHash).filter (· ≠ hexHash hash) = (hs.filter (· ≠ hash)).map hexHash := by
  rw [List.filter_map]
  congr 1
  refine List.filter_congr fun k _ => ?_
  simp [hexHash_injective.eq_iff]

theorem Listed.drop (h : Listed mem a hs) (hash : Hash) (err : Option CacheError) (b : Address) :
    Listed (dropAwaited .none hash mem err b).1 a (if a = b then hs.filter (· ≠ hash) else hs) := by
  unfold Listed at *
  rw [dropAwaited_calm]
  split
  next hnone =>
    split
    next hab =>
      subst hab
      rw [entry, hnone, Option.getD_none, fields_nil, eq_comm, List.map_eq_nil_iff] at h
      rw [h]
      simp [entry, hnone]
    next => exact h
  next hempty =>
    rw [entry_erase]
    split
    next hab =>
      subst hab
      rw [entry, hempty, Option.getD_some, fields_nil, eq_comm, List.map_eq_nil_iff] at h
      simp [h]
    next => exact h
  next e _ hsome =>
    rw [entry_insert]
    split
    next hab =>
      subst hab
      rw [entry, hsome, Option.getD_some] at h
      rw [fields_remove, h, map_filter_hex]
    next => exact h

theorem Listed.present (h : Listed mem a hs) (hmem : hash ∈ hs) :
    ∃ x e, mem.lookup (encodeAddressKey a) = some (x :: e) := by
  unfold Listed entry at h
  have hne : hs.map hexHash ≠ [] := by
    rw [ne_eq, List.map_eq_nil_iff]
    rintro rfl
    cases hmem
  cases hlook : mem.lookup (encodeAddressKey a) with
  | none =>
    rw [hlook, Option.getD_none, fields_nil] at h
    exact absurd h.symm hne
  | some e =>
    cases e with
    | nil =>
      rw [hlook, Option.getD_some, fields_nil] at h
      exact absurd h.symm hne
    | cons x e => exact ⟨x, e, rfl⟩

end Entries

/-! ### The list of awaited transactions -/

/-- The addresses under which a saved transaction is noted. -/
def Transaction.parties (t : Transaction) : List Address :=
  if t.issuerAddress = t.receiverAddress then [t.receiverAddress] else [t.issuerAddress, t.receiverAddress]

section Calm

variable {codec : TrxCodec} {mem : BigCache} {trx : Transaction} {raw : Bytes} {hash : Hash} {hs : List Hash}

theorem save_held (h : mem.lookup (encodeTrxKey trx.hash) = some raw) :
    saveAwaitedTransaction codec .none mem trx = (mem, some .errTrxAlreadyExists) := by
  rw [saveAwaitedTransaction]
  simp only [BigCache.get_calm, h]

theorem save_new (h : mem.lookup (encodeTrxKey trx.hash) = none) :
    saveAwaitedTransaction codec .none mem trx =
      (trx.parties.foldl (fun m a => noted m trx.hash a)
        (mem.insert (encodeTrxKey trx.hash) (codec.encode trx)), none) := by
  rw [saveAwaitedTransaction]
  simp only [BigCache.get_calm, h, BigCache.set_calm, noteAwaited_calm, Transaction.parties]
  split <;> rfl

theorem lookup_notes (hash k : Hash) (as : List Address) : ∀ m : BigCache,
    (as.foldl (fun m a => noted m hash a) m).lookup (encodeTrxKey k) = m.lookup (encodeTrxKey k) := by
  induction as with
  | nil => exact fun _ => rfl
  | cons a as ih =>
    intro m
    rw [List.foldl_cons, ih]
    exact AList.lookup_insert_ne (encodeTrxKey_ne_address k a)

theorem Listed.notes {a : Address} (h : Listed mem a hs) (trx : Transaction) :
    Listed (trx.parties.foldl (fun m a => noted m trx.hash a) mem) a
      (if trx.Concerns a then hs ++ [trx.hash] else hs) := by
  unfold Transaction.parties Transaction.Concerns
  by_cases hself : trx.issuerAddress = trx.receiverAddress
  · have hone := h.note trx.hash trx.receiverAddress
    rw [if_pos hself]
    by_cases ha : a = trx.receiverAddress <;> simp_all [eq_comm]
  · have htwo := (h.note trx.hash trx.issuerAddress).note trx.hash trx.receiverAddress
    rw [if_neg hself]
    by_cases hi : a = trx.issuerAddress <;> by_cases hr : a = trx.receiverAddress <;> simp_all [eq_comm]

theorem remove_unknown (h : mem.lookup (encodeTrxKey hash) = none) (address : Address) :
    removeAwaitedTransaction codec .none mem hash address = (mem, .error .errTransactionNotFound) := by
  rw [removeAwaitedTransaction]
  simp only [BigCache.get_calm, h]

theorem remove_foreign (h : mem.lookup (encodeTrxKey hash) = some raw) (hdec : codec.decode raw = some trx)
    {address : Address} (ha : trx.receiverAddress ≠ address) :
    removeAwaitedTransaction codec .none mem hash address = (mem, .error .errUnauthorized) := by
  rw [removeAwaitedTransaction]
  simp only [BigCache.get_calm, h, hdec, if_pos ha]

/-- The index part of a removal. -/
def dropped (mem : BigCache) (hash : Hash) (trx : Transaction) : BigCache × Option CacheError :=
  dropAwaited .none hash (dropAwaited .none hash mem none trx.issuerAddress).1
    (dropAwaited .none hash mem none trx.issuerAddress).2 trx.receiverAddress

theorem remove_taken (h : mem.lookup (encodeTrxKey hash) = some raw) (hdec : codec.decode raw = some trx) :
    removeAwaitedTransaction codec .none mem hash trx.receiverAddress =
      ((dropped (mem.erase (encodeTrxKey hash)) hash trx).1,
        .ok (trx, (dropped (mem.erase (encodeTrxKey hash)) hash trx).2)) := by
  rw [removeAwaitedTransaction]
  simp only [BigCache.get_calm, h, hdec, ne_eq, not_true_eq_false, if_false, BigCache.delete_calm]
  rfl

theorem lookup_dropped (mem : BigCache) (hash k : Hash) (trx : Transaction) :
    (dropped mem hash trx).1.lookup (encodeTrxKey k) = mem.lookup (encodeTrxKey k) := by
  rw [dropped, dropAwaited_trx, dropAwaited_trx]

theorem Listed.drops {a : Address} (h : Listed mem a hs) (hash : Hash) (trx : Transaction) :
    Listed (dropped mem hash trx).1 a (if trx.Concerns a then hs.filter (· ≠ hash) else hs) := by
  have htwo := (h.drop hash none trx.issuerAddress).drop hash
    (dropAwaited .none hash mem none trx.issuerAddress).2 trx.receiverAddress
  unfold dropped Transaction.Concerns
  by_cases hi : a = trx.issuerAddress <;> by_cases hr : a = trx.receiverAddress <;>
    simp_all [eq_comm, List.filter_filter]

/-- The removal finds both entries: each is there, and the one entry of a transaction to oneself is not
    empty (an empty one is deleted on the first pass and missed on the second). -/
def IndexReady (mem : BigCache) (trx : Transaction) : Prop :=
  (mem.lookup (encodeAddressKey trx.issuerAddress)).isSome ∧
    (mem.lookup (encodeAddressKey trx.receiverAddress)).isSome ∧
    (trx.issuerAddress = trx.receiverAddress → entry mem trx.receiverAddress ≠ [])

instance (mem : BigCache) (trx : Transaction) : Decidable (IndexReady mem trx) :=
  inferInstanceAs (Decidable (_ ∧ _))

/-- VERDICT (remove): the index part reports no error exactly when it finds both entries. -/
theorem dropped_err_iff (mem : BigCache) (hash : Hash) (trx : Transaction) :
    (dropped mem hash trx).2 = none ↔ IndexReady mem trx := by
  unfold dropped IndexReady entry
  rw [dropAwaited_calm, dropAwaited_calm]
  by_cases hself : trx.issuerAddress = trx.receiverAddress
  · rw [hself]
    cases hl : mem.lookup (encodeAddressKey trx.receiverAddress) with
    | none => simp [hl]
    | some e =>
      cases e with
      | nil => simp
      | cons x e =>
        simp only [AList.lookup_insert]
        cases AddressEntry.remove (x :: e) hash <;> simp
  · have hne : encodeAddressKey trx.receiverAddress ≠ encodeAddressKey trx.issuerAddress :=
      fun heq => hself (encodeAddressKey_injective heq).symm
    cases hi : mem.lookup (encodeAddressKey trx.issuerAddress) with
    | none =>
      cases hr : mem.lookup (encodeAddressKey trx.receiverAddress) with
      | none => simp
      | some e => cases e <;> simp
    | some e =>
      cases hr : mem.lookup (encodeAddressKey trx.receiverAddress) with
      | none => cases e <;> simp [AList.lookup_insert_ne hne, AList.lookup_erase_ne hne, hr]
      | some e' =>
        cases e <;> cases e' <;> simp [AList.lookup_insert_ne hne, AList.lookup_erase_ne hne, hr, hself]

end Calm

/-- The transaction of a hash. -/
def ofHash (held : List Transaction) (hash : Hash) : Option Transaction := held.find? fun t => t.hash = hash

/-- What the calls do, said of the list of the transactions that wait, in saving order. -/
def awaitStep (held : List Transaction) : CacheOp → List Transaction × CacheAnswer
  | .save trx =>
    if (ofHash held trx.hash).isSome then (held, .saved (some .errTrxAlreadyExists))
    else (held ++ [trx], .saved none)
  | .remove hash address =>
    match ofHash held hash with
    | none => (held, .removed (.error .errTransactionNotFound))
    | some trx =>
      if trx.receiverAddress ≠ address then (held, .removed (.error .errUnauthorized))
      else (held.filter (·.hash ≠ hash), .removed (.ok (trx, none)))
  | .read address => (held, .read (.returned (held.filter (·.Concerns address)) none))

/-- The answer of the cache is the answer of the list; but where nothing waits, the cache may also say
    so. -/
def Agrees (answer spec : CacheAnswer) : Prop :=
  answer = spec ∨ (spec = .read (.returned [] none) ∧ answer = .read (.returned [] (some .errTransactionNotFound)))

/-- The cache holds the transactions. -/
structure Awaits (codec : TrxCodec) (mem : BigCache) (held : List Transaction) : Prop where
  nodup : (held.map Transaction.hash).Nodup
  trx : ∀ hash, mem.lookup (encodeTrxKey hash) = (ofHash held hash).map codec.encode
  index : ∀ a, Listed mem a ((held.filter (·.Concerns a)).map Transaction.hash)

theorem ofHash_some {held : List Transaction} {hash : Hash} {t : Transaction} (h : ofHash held hash = some t) :
    t ∈ held ∧ t.hash = hash :=
  ⟨List.mem_of_find?_eq_some h, by simpa using List.find?_some h⟩

theorem ofHash_none {held : List Transaction} {hash : Hash} :
    ofHash held hash = none ↔ ∀ t ∈ held, t.hash ≠ hash := by
  simp [ofHash]

theorem ofHash_of_mem {held : List Transaction} (hnd : (held.map Transaction.hash).Nodup) {t : Transaction}
    (h : t ∈ held) : ofHash held t.hash = some t := by
  cases hfind : ofHash held t.hash with
  | none => exact absurd rfl (ofHash_none.mp hfind t h)
  | some u =>
    obtain ⟨hu, heq⟩ := ofHash_some hfind
    rw [List.inj_on_of_nodup_map hnd hu h heq]

section Refinement

variable {codec : TrxCodec} {mem : BigCache} {held : List Transaction}

theorem Awaits.save (h : Awaits codec mem held) (trx : Transaction) :
    ((ofHash held trx.hash).isSome →
      saveAwaitedTransaction codec .none mem trx = (mem, some .errTrxAlreadyExists)) ∧
    (ofHash held trx.hash = none → (saveAwaitedTransaction codec .none mem trx).2 = none ∧
      Awaits codec (saveAwaitedTransaction codec .none mem trx).1 (held ++ [trx])) := by
  constructor
  · intro hsome
    obtain ⟨t, ht⟩ := Option.isSome_iff_exists.mp hsome
    have hraw : mem.lookup (encodeTrxKey trx.hash) = some (codec.encode t) := by rw [h.trx, ht, Option.map_some]
    exact save_held hraw
  · intro hnone
    rw [save_new (by rw [h.trx, hnone, Option.map_none])]
    refine ⟨rfl, ?_, fun hash => ?_, fun a => ?_⟩
    · rw [List.map_append, List.nodup_append]
      refine ⟨h.nodup, by simp, ?_⟩
      rintro _ hx _ hy rfl
      obtain ⟨t, ht, hhash⟩ := List.mem_map.mp hx
      simp only [List.map_cons, List.map_nil, List.mem_singleton] at hy
      exact ofHash_none.mp hnone t ht (hhash.trans hy)
    · rw [lookup_notes, ofHash, List.find?_append]
      by_cases hk : hash = trx.hash
      · subst hk
        have hfind : held.find? (fun t => t.hash = trx.hash) = none := hnone
        rw [AList.lookup_insert, hfind]
        simp
      · rw [AList.lookup_insert_ne fun heq => hk (encodeTrxKey_injective heq), h.trx, ofHash]
        simp [Ne.symm hk]
    · have hbase : Listed (mem.insert (encodeTrxKey trx.hash) (codec.encode trx)) a
          ((held.filter (·.Concerns a)).map Transaction.hash) := by
        unfold Listed
        rw [entry_insert_trx]
        exact h.index a
      have hlisted := hbase.notes trx
      rw [List.filter_append, List.map_append]
      by_cases ha : trx.Concerns a <;> simpa [ha] using hlisted

theorem ofHash_filter_ne (held : List Transaction) (hash k : Hash) :
    ofHash (held.filter (·.hash ≠ hash)) k = if k = hash then none else ofHash held k := by
  split
  next hk =>
    subst hk
    simp [ofHash_none]
  next hk =>
    rw [ofHash, ofHash, List.find?_filter]
    congr 1
    funext t
    by_cases ht : t.hash = k <;> simp [ht, hk]

theorem hashes_filter_ne (held : List Transaction) (hash : Hash) (a : Address) :
    ((held.filter (·.hash ≠ hash)).filter (·.Concerns a)).map Transaction.hash =
      ((held.filter (·.Concerns a)).map Transaction.hash).filter (· ≠ hash) := by
  rw [List.filter_map, List.filter_filter, List.filter_filter]
  congr 1
  refine List.filter_congr fun t _ => ?_
  simp [Bool.and_comm]

theorem Awaits.listed_erase (h : Awaits codec mem held) (hash : Hash) (a : Address) :
    Listed (mem.erase (encodeTrxKey hash)) a ((held.filter (·.Concerns a)).map Transaction.hash) := by
  unfold Listed
  rw [entry_erase_trx]
  exact h.index a

theorem Awaits.indexReady (h : Awaits codec mem held) {trx : Transaction} (hheld : trx ∈ held) :
    IndexReady (mem.erase (encodeTrxKey trx.hash)) trx := by
  have hparty : ∀ a, trx.Concerns a →
      ∃ x e, (mem.erase (encodeTrxKey trx.hash)).lookup (encodeAddressKey a) = some (x :: e) := fun a ha =>
    (h.listed_erase trx.hash a).present (List.mem_map_of_mem (List.mem_filter.mpr ⟨hheld, by simpa using ha⟩))
  obtain ⟨x, e, hi⟩ := hparty _ (Or.inl rfl)
  obtain ⟨y, e', hr⟩ := hparty _ (Or.inr rfl)
  exact ⟨by simp [hi], by simp [hr], fun _ => by simp [entry, hr]⟩

theorem Awaits.unlisted (h : Awaits codec mem held) {trx : Transaction} (hheld : trx ∈ held) {a : Address}
    (ha : ¬ trx.Concerns a) : trx.hash ∉ (held.filter (·.Concerns a)).map Transaction.hash := by
  intro hmem
  obtain ⟨t, ht, heq⟩ := List.mem_map.mp hmem
  obtain ⟨ht, hconcerns⟩ := List.mem_filter.mp ht
  rw [List.inj_on_of_nodup_map h.nodup ht hheld heq] at hconcerns
  exact ha (by simpa using hconcerns)

/-- STEP (remove): an unknown hash and anybody but the receiver are refused, and nothing changes; the
    receiver gets the transaction, and it leaves the list. -/
theorem Awaits.remove (hc : codec.Faithful) (h : Awaits codec mem held) (hash : Hash) (address : Address) :
    (ofHash held hash = none →
      removeAwaitedTransaction codec .none mem hash address = (mem, .error .errTransactionNotFound)) ∧
    ∀ trx, ofHash held hash = some trx →
      (trx.receiverAddress ≠ address →
        removeAwaitedTransaction codec .none mem hash address = (mem, .error .errUnauthorized)) ∧
      (trx.receiverAddress = address →
        (removeAwaitedTransaction codec .none mem hash address).2 = .ok (trx, none) ∧
        Awaits codec (removeAwaitedTransaction codec .none mem hash address).1 (held.filter (·.hash ≠ hash))) := by
  refine ⟨fun hnone => remove_unknown (by rw [h.trx, hnone, Option.map_none]) address, fun trx hsome => ?_⟩
  have hraw : mem.lookup (encodeTrxKey hash) = some (codec.encode trx) := by rw [h.trx, hsome, Option.map_some]
  refine ⟨fun ha => remove_foreign hraw (hc.decode trx) ha, ?_⟩
  rintro rfl
  obtain ⟨hheld, rfl⟩ := ofHash_some hsome
  rw [remove_taken hraw (hc.decode trx)]
  refine ⟨by rw [(dropped_err_iff _ _ _).mpr (h.indexReady hheld)], ?_, fun k => ?_, fun a => ?_⟩
  · exact h.nodup.sublist (List.filter_sublist.map _)
  · rw [lookup_dropped, ofHash_filter_ne]
    split
    next hk => rw [hk, AList.lookup_erase, Option.map_none]
    next hk => rw [AList.lookup_erase_ne fun heq => hk (encodeTrxKey_injective heq), h.trx]
  · have hdrop := (h.listed_erase trx.hash a).drops trx.hash trx
    rw [hashes_filter_ne]
    by_cases ha : trx.Concerns a
    · rwa [if_pos ha] at hdrop
    · rw [if_neg ha] at hdrop
      rwa [List.filter_eq_self.mpr]
      intro k hk
      have hne : k ≠ trx.hash := fun heq => h.unlisted hheld ha (heq ▸ hk)
      simpa using hne

theorem Awaits.readAwaited (hc : codec.Faithful) (h : Awaits codec mem held) (ts : List Transaction) :
    (∀ t ∈ ts, t ∈ held) → readAwaited codec .none mem (ts.map Transaction.hash) = .ok (ts, [], none) := by
  induction ts with
  | nil => exact fun _ => rfl
  | cons t ts ih =>
    intro hts
    have hraw : mem.lookup (encodeTrxKey t.hash) = some (codec.encode t) := by
      rw [h.trx, ofHash_of_mem h.nodup (hts t (List.mem_cons_self ..)), Option.map_some]
    rw [List.map_cons, Computantis.readAwaited]
    simp only [BigCache.get_calm, hraw, hc.decode, ih fun u hu => hts u (List.mem_cons_of_mem _ hu), Except.map]

/-- STEP (read): what concerns the address is returned; where there is nothing, the cache may say so. -/
theorem Awaits.read (hc : codec.Faithful) (h : Awaits codec mem held) (a : Address) :
    Agrees (.read (readTransactions codec .none mem a).2) (.read (.returned (held.filter (·.Concerns a)) none)) ∧
      Awaits codec (readTransactions codec .none mem a).1 held := by
  have hlisted := h.index a
  rw [readTransactions]
  simp only [BigCache.get_calm, BigCache.delete_calm]
  have hnothing : entry mem a = [] → held.filter (·.Concerns a) = [] := by
    intro he
    unfold Listed at hlisted
    rw [he, fields_nil, eq_comm, List.map_eq_nil_iff, List.map_eq_nil_iff] at hlisted
    exact hlisted
  cases hlook : mem.lookup (encodeAddressKey a) with
  | none =>
    have hnil := hnothing (by rw [entry, hlook, Option.getD_none])
    exact ⟨Or.inr ⟨by rw [hnil], rfl⟩, h⟩
  | some e =>
    cases e with
    | nil =>
      have hnil := hnothing (by rw [entry, hlook, Option.getD_some])
      refine ⟨Or.inr ⟨by rw [hnil], rfl⟩, h.nodup, fun hash => ?_, fun b => ?_⟩
      · rw [← h.trx]
        exact AList.lookup_erase_ne (encodeTrxKey_ne_address hash a)
      · have hb := h.index b
        unfold Listed at hb ⊢
        simp only [List.length_nil, if_true, entry_erase]
        split
        next hab => rw [← hb, hab, entry, hlook, Option.getD_some]
        next => exact hb
    | cons x e =>
      have hread : AddressEntry.read (x :: e) = .ok ((held.filter (·.Concerns a)).map Transaction.hash, false) := by
        refine read_ok ?_
        rw [← hlisted, entry, hlook, Option.getD_some]
      have hts := h.readAwaited hc (held.filter (·.Concerns a)) fun t ht => List.mem_of_mem_filter ht
      simp only [List.length_cons, Nat.add_one_ne_zero, if_false, hread, hts, forgetHashes]
      exact ⟨Or.inl rfl, h⟩

theorem Awaits.serve (hc : codec.Faithful) (op : CacheOp) (h : Awaits codec mem held) :
    Awaits codec (BigCache.serve codec mem op).1 (awaitStep held op).1 ∧
      Agrees (BigCache.serve codec mem op).2 (awaitStep held op).2 := by
  cases op with
  | save trx =>
    obtain ⟨hheld, hnew⟩ := h.save trx
    rw [BigCache.serve, awaitStep]
    cases hof : ofHash held trx.hash with
    | none =>
      obtain ⟨hnone, hnext⟩ := hnew hof
      exact ⟨hnext, Or.inl (by simp [hnone])⟩
    | some t =>
      rw [hheld (by simp [hof])]
      exact ⟨h, Or.inl rfl⟩
  | remove hash address =>
    obtain ⟨hunknown, hknown⟩ := h.remove hc hash address
    rw [BigCache.serve, awaitStep]
    cases hof : ofHash held hash with
    | none =>
      rw [hunknown hof]
      exact ⟨h, Or.inl rfl⟩
    | some trx =>
      obtain ⟨hforeign, htaken⟩ := hknown trx hof
      by_cases ha : trx.receiverAddress = address
      · obtain ⟨hres, hnext⟩ := htaken ha
        simp only [ha, ne_eq, not_true_eq_false, if_false]
        exact ⟨hnext, Or.inl (by rw [hres])⟩
      · rw [hforeign ha]
        simp only [ne_eq, ha, not_false_eq_true, if_true]
        exact ⟨h, Or.inl rfl⟩
  | read a =>
    obtain ⟨hread, hnext⟩ := h.read hc a
    exact ⟨hnext, hread⟩

end Refinement

/-! ### The cache answers like the list -/

/-- RUN: from an empty cache on, whatever is called, the cache answers like the list of the transactions
    that were saved and not removed; and a call that is refused leaves the cache as it was. -/
theorem awaiting_refines {codec : TrxCodec} (hc : codec.Faithful) (ops : List CacheOp) :
    List.Forall₂ Agrees (answers (BigCache.serve codec) ∅ ops) (answers awaitStep [] ops) ∧
    ((reach awaitStep [] ops).map Transaction.hash).Nodup ∧
    (∀ trx, (ofHash (reach awaitStep [] ops) trx.hash).isSome →
      saveAwaitedTransaction codec .none (reach (BigCache.serve codec) ∅ ops) trx =
        (reach (BigCache.serve codec) ∅ ops, some .errTrxAlreadyExists)) ∧
    ∀ hash address, (∀ trx, ofHash (reach awaitStep [] ops) hash = some trx → trx.receiverAddress ≠ address) →
      ∃ e, removeAwaitedTransaction codec .none (reach (BigCache.serve codec) ∅ ops) hash address =
        (reach (BigCache.serve codec) ∅ ops, .error e) := by
  have hempty : Awaits codec ∅ [] := ⟨List.nodup_nil, fun _ => rfl, fun _ => by simp [Listed, entry]⟩
  obtain ⟨hreach, hanswers⟩ := simulates (fun mem held op h => h.serve hc op) ops hempty
  refine ⟨hanswers, hreach.nodup, fun trx => (hreach.save trx).1, fun hash address hnot => ?_⟩
  obtain ⟨hunknown, hknown⟩ := hreach.remove hc hash address
  cases hof : ofHash (reach awaitStep [] ops) hash with
  | none => exact ⟨_, hunknown hof⟩
  | some trx => exact ⟨_, (hknown trx hof).1 (hnot trx hof)⟩

namespace Transparent

/-- A contract that `wallet 7` issues. -/
def offer (receiver : Address) (now : Time) : Transaction := trx (wallet 7) receiver ⟨0, 0⟩ [1] now

/-- Two contracts are saved, one is removed by its receiver and the issuer reads. -/
def offerOps : List CacheOp :=
  [.save (offer (wallet 8) 3), .save (offer (wallet 7) 4),
    .remove (offer (wallet 8) 3).hash (wallet 8), .read (wallet 7)]

end Transparent

open Transparent in
theorem contracts_read : List.Forall₂ Agrees (answers (BigCache.serve plainCodec) ∅ offerOps)
    [.saved none, .saved none, .removed (.ok (offer (wallet 8) 3, none)),
      .read (.returned [offer (wallet 7) 4] none)] := by
  have hne : (offer (wallet 8) 3).hash ≠ (offer (wallet 7) 4).hash := by decide +kernel
  have hreceiver : (offer (wallet 8) 3).receiverAddress = wallet 8 := rfl
  have hconcerns : (offer (wallet 7) 4).Concerns (wallet 7) := Or.inl rfl
  have hanswers := (awaiting_refines plainCodec_faithful offerOps).1
  simpa [offerOps, answers, awaitStep, ofHash, hne, hne.symm, hreceiver, hconcerns] using hanswers

/-! ### Entries that expire -/

/-- CONDITION on a save: where the transaction is not held, no entry of its parties lists its hash. -/
def Unlisted (mem : BigCache) : CacheEvent → Prop
  | .call (.save trx) => mem.lookup (encodeTrxKey trx.hash) = none →
      ∀ a ∈ trx.parties, hexHash trx.hash ∉ fields comma (entry mem a)
  | _ => True

instance (mem : BigCache) : DecidablePred (Unlisted mem) := fun e => by
  unfold Unlisted
  split <;> infer_instance

/-- Transactions stand under their hashes. -/
def Keyed (codec : TrxCodec) (mem : BigCache) : Prop :=
  ∀ hash raw, mem.lookup (encodeTrxKey hash) = some raw → ∃ t, codec.decode raw = some t ∧ t.hash = hash

theorem Keyed.readAwaited {codec : TrxCodec} {mem : BigCache} (h : Keyed codec mem) (hashes : List Hash) :
    ∃ trxs gone errs, readAwaited codec .none mem hashes = .ok (trxs, gone, errs) ∧
      (trxs.map Transaction.hash).Sublist hashes ∧
      ∀ hash ∈ hashes, ∀ raw t, mem.lookup (encodeTrxKey hash) = some raw → codec.decode raw = some t → t ∈ trxs := by
  induction hashes with
  | nil => exact ⟨[], [], none, rfl, .slnil, fun _ hmem => nomatch hmem⟩
  | cons hash rest ih =>
    obtain ⟨trxs, gone, errs, hrest, hsub, hall⟩ := ih
    rw [Computantis.readAwaited]
    simp only [BigCache.get_calm, hrest]
    cases hlook : mem.lookup (encodeTrxKey hash) with
    | none =>
      refine ⟨trxs, hash :: gone, errs, rfl, hsub.cons _, fun k hk raw t hraw hdec => ?_⟩
      rcases List.mem_cons.mp hk with rfl | hk
      · rw [hlook] at hraw
        cases hraw
      · exact hall k hk raw t hraw hdec
    | some raw =>
      obtain ⟨t, hdec, hhash⟩ := h hash raw hlook
      simp only [hdec]
      refine ⟨t :: trxs, gone, errs, rfl, ?_, fun k hk raw' t' hraw hdec' => ?_⟩
      · rw [List.map_cons, hhash]
        exact hsub.cons_cons _
      · rcases List.mem_cons.mp hk with rfl | hk
        · rw [hlook] at hraw
          cases hraw
          rw [hdec] at hdec'
          cases hdec'
          exact List.mem_cons_self ..
        · exact List.mem_cons_of_mem _ (hall k hk raw' t' hraw hdec')

/-- What expiry leaves of the cache: transactions stand under their hashes, and no entry lists a hash
    twice. -/
structure Expiring (codec : TrxCodec) (mem : BigCache) : Prop where
  keyed : Keyed codec mem
  index : ∀ a, ∃ hs : List Hash, hs.Nodup ∧ Listed mem a hs

section Expiry

variable {codec : TrxCodec} {mem : BigCache}

theorem mem_parties {t : Transaction} {a : Address} : a ∈ t.parties ↔ t.Concerns a := by
  unfold Transaction.parties Transaction.Concerns
  split
  next h => simp [h, eq_comm]
  next => simp [eq_comm]

theorem Listed.mem_fields {a : Address} {hs : List Hash} (h : Listed mem a hs) {hash : Hash} :
    hexHash hash ∈ fields comma (entry mem a) ↔ hash ∈ hs := by
  rw [show fields comma (entry mem a) = hs.map hexHash from h]
  exact List.mem_map_of_injective hexHash_injective

theorem Expiring.evict (h : Expiring codec mem) (key : Bytes) : Expiring codec (mem.erase key) := by
  refine ⟨fun hash raw hraw => ?_, fun a => ?_⟩
  · by_cases hk : encodeTrxKey hash = key
    · rw [hk, AList.lookup_erase] at hraw
      cases hraw
    · rw [AList.lookup_erase_ne hk] at hraw
      exact h.keyed hash raw hraw
  · by_cases hk : encodeAddressKey a = key
    · exact ⟨[], List.nodup_nil, by simp [Listed, entry, ← hk]⟩
    · obtain ⟨hs, hnd, hlisted⟩ := h.index a
      refine ⟨hs, hnd, ?_⟩
      unfold Listed entry at *
      rwa [AList.lookup_erase_ne hk]

theorem Expiring.save (hc : codec.Faithful) (h : Expiring codec mem) {trx : Transaction}
    (hnew : Unlisted mem (.call (.save trx))) : Expiring codec (saveAwaitedTransaction codec .none mem trx).1 := by
  cases hlook : mem.lookup (encodeTrxKey trx.hash) with
  | some raw => rwa [save_held hlook]
  | none =>
    rw [save_new hlook]
    refine ⟨fun hash raw hraw => ?_, fun a => ?_⟩
    · rw [lookup_notes] at hraw
      by_cases hk : hash = trx.hash
      · subst hk
        rw [AList.lookup_insert] at hraw
        cases hraw
        exact ⟨trx, hc.decode trx, rfl⟩
      · rw [AList.lookup_insert_ne fun heq => hk (encodeTrxKey_injective heq)] at hraw
        exact h.keyed hash raw hraw
    · obtain ⟨hs, hnd, hlisted⟩ := h.index a
      have hbase : Listed (mem.insert (encodeTrxKey trx.hash) (codec.encode trx)) a hs := by
        unfold Listed at *
        rwa [entry_insert_trx]
      refine ⟨_, ?_, hbase.notes trx⟩
      split
      next ha =>
        have hfresh : trx.hash ∉ hs := fun hmem => hnew hlook a (mem_parties.mpr ha) (hlisted.mem_fields.mpr hmem)
        rw [List.nodup_append]
        refine ⟨hnd, by simp, ?_⟩
        rintro _ hx _ hy rfl
        exact hfresh (List.mem_singleton.mp hy ▸ hx)
      next => exact hnd

theorem Expiring.remove (h : Expiring codec mem) (hash : Hash) (address : Address) :
    Expiring codec (removeAwaitedTransaction codec .none mem hash address).1 := by
  cases hlook : mem.lookup (encodeTrxKey hash) with
  | none => rwa [remove_unknown hlook]
  | some raw =>
    obtain ⟨trx, hdec, -⟩ := h.keyed hash raw hlook
    by_cases ha : trx.receiverAddress = address
    · subst ha
      rw [remove_taken hlook hdec]
      have herase := h.evict (encodeTrxKey hash)
      refine ⟨fun k raw' hraw => ?_, fun a => ?_⟩
      · rw [lookup_dropped] at hraw
        exact herase.keyed k raw' hraw
      · obtain ⟨hs, hnd, hlisted⟩ := herase.index a
        refine ⟨_, ?_, hlisted.drops hash trx⟩
        split
        · exact hnd.filter _
        · exact hnd
    · rwa [remove_foreign hlook hdec ha]

theorem Expiring.forget (a : Address) (hashes : List Hash) : ∀ {mem : BigCache} (errs : Option CacheError),
    Expiring codec mem → Expiring codec (forgetHashes .none (encodeAddressKey a) hashes mem errs).1 := by
  induction hashes with
  | nil => exact fun _ h => h
  | cons hash rest ih =>
    intro mem errs h
    rw [forgetHashes]
    simp only [BigCache.get_calm, BigCache.set_calm]
    cases hlook : mem.lookup (encodeAddressKey a) with
    | none => exact h
    | some e =>
      simp only
      split
      · exact h
      · refine ih errs ⟨fun k raw hraw => ?_, fun b => ?_⟩
        · rw [AList.lookup_insert_ne (encodeTrxKey_ne_address k a)] at hraw
          exact h.keyed k raw hraw
        · obtain ⟨hs, hnd, hlisted⟩ := h.index b
          by_cases hab : b = a
          · subst hab
            refine ⟨hs.filter (· ≠ hash), hnd.filter _, ?_⟩
            unfold Listed at *
            rw [entry, hlook, Option.getD_some] at hlisted
            rw [entry_insert, if_pos rfl, fields_remove, hlisted, map_filter_hex]
          · refine ⟨hs, hnd, ?_⟩
            unfold Listed at *
            rwa [entry_insert, if_neg hab]

theorem Expiring.read (h : Expiring codec mem) (a : Address) :
    Expiring codec (readTransactions codec .none mem a).1 ∧
      ∃ trxs err, (readTransactions codec .none mem a).2 = .returned trxs err ∧ trxs.Nodup := by
  rw [readTransactions]
  simp only [BigCache.get_calm, BigCache.delete_calm]
  cases hlook : mem.lookup (encodeAddressKey a) with
  | none => exact ⟨h, [], _, rfl, List.nodup_nil⟩
  | some e =>
    simp only
    split
    · exact ⟨h.evict _, [], _, rfl, List.nodup_nil⟩
    · obtain ⟨hs, hnd, hlisted⟩ := h.index a
      have hread : AddressEntry.read e = .ok (hs, false) := by
        refine read_ok ?_
        rw [← hlisted, entry, hlook, Option.getD_some]
      obtain ⟨trxs, gone, errs, hok, hsub, -⟩ := h.keyed.readAwaited hs
      simp only [hread, hok]
      exact ⟨Expiring.forget a gone errs h, trxs, _, rfl, (hnd.sublist hsub).of_map _⟩

/-- SPEC (remove): with the transaction deleted, the error is about index entries that are not there. -/
theorem remove_reports {hash : Hash} {address : Address} {trx : Transaction} {errs : Option CacheError}
    (h : (removeAwaitedTransaction codec .none mem hash address).2 = .ok (trx, errs)) :
    errs = none ↔ IndexReady mem trx := by
  cases hlook : mem.lookup (encodeTrxKey hash) with
  | none =>
    rw [remove_unknown hlook] at h
    cases h
  | some raw =>
    cases hdec : codec.decode raw with
    | none =>
      rw [removeAwaitedTransaction] at h
      simp only [BigCache.get_calm, hlook, hdec] at h
      cases h
    | some t =>
      by_cases ha : t.receiverAddress = address
      · subst ha
        rw [remove_taken hlook hdec] at h
        cases h
        rw [dropped_err_iff]
        unfold IndexReady
        simp only [entry_erase_trx, AList.lookup_erase_ne (encodeTrxKey_ne_address hash _).symm]
      · rw [remove_foreign hlook hdec ha] at h
        cases h

end Expiry

/-- RUN: with entries that expire at any time, as long as a transaction is saved again only after no entry
    lists it any more, no read returns a transaction twice. A removal that deletes the transaction reports
    success exactly when it finds both index entries, whatever was saved before. -/
theorem expiry_keeps_reads_apart {codec : TrxCodec} (hc : codec.Faithful) (es : List CacheEvent) :
    (Along (BigCache.live codec) Unlisted ∅ es → ∀ a, ∃ trxs err,
      (readTransactions codec .none (run (BigCache.live codec) ∅ es) a).2 = .returned trxs err ∧ trxs.Nodup) ∧
    ∀ hash address trx errs,
      (removeAwaitedTransaction codec .none (run (BigCache.live codec) ∅ es) hash address).2 = .ok (trx, errs) →
        (errs = none ↔ IndexReady (run (BigCache.live codec) ∅ es) trx) := by
  have hstep : ∀ mem e, Unlisted mem e → Expiring codec mem → Expiring codec (BigCache.live codec mem e) := by
    rintro mem (op | key) hnew h
    · cases op with
      | save trx => exact h.save hc hnew
      | remove hash address => exact h.remove hash address
      | read a => exact (h.read a).1
    · exact h.evict key
  have hempty : Expiring codec ∅ :=
    ⟨fun _ _ hraw => (nomatch hraw), fun _ => ⟨[], List.nodup_nil, by simp [Listed, entry]⟩⟩
  exact ⟨fun hes a => ((run_invariant_along hstep hes hempty).read a).2, fun _ _ _ _ => remove_reports⟩

open Transparent in
/-- A contract is saved, expires, and is saved again after its index entries expired too. -/
theorem resaved_contract_read_once : ∃ trxs err,
    (readTransactions plainCodec .none (run (BigCache.live plainCodec) ∅
      [.call (.save (offer (wallet 8) 3)), .evict (encodeTrxKey (offer (wallet 8) 3).hash),
        .evict (encodeAddressKey (wallet 7)), .evict (encodeAddressKey (wallet 8)),
        .call (.save (offer (wallet 8) 3))]) (wallet 7)).2 = .returned trxs err ∧ trxs.Nodup :=
  (expiry_keeps_reads_apart plainCodec_faithful _).1 (by decide +kernel) (wallet 7)

open Transparent in
/-- BUG: a contract that expires before its index entries and is saved again is read twice; and a removal
    reports an error when the issuer's entry has expired, though it has taken the transaction. -/
theorem expired_contract_read_twice :
    (readTransactions plainCodec .none (run (BigCache.live plainCodec) ∅
      [.call (.save (offer (wallet 8) 3)), .evict (encodeTrxKey (offer (wallet 8) 3).hash),
        .call (.save (offer (wallet 8) 3))]) (wallet 7)).2 =
      .returned [offer (wallet 8) 3, offer (wallet 8) 3] none ∧
    (removeAwaitedTransaction plainCodec .none (run (BigCache.live plainCodec) ∅
      [.call (.save (offer (wallet 8) 3)), .evict (encodeAddressKey (wallet 7))])
      (offer (wallet 8) 3).hash (wallet 8)).2 matches .ok (_, some .errEntryNotFound) := by
  decide +kernel

end Computantis
