import Computantis.Model.Wire
import Mathlib.Data.List.AList

/-! @model cache | name:The cache of awaited transactions | family:data | source:src/cache/cache.go

    One short-lived store holds the transactions that wait for their receivers, under their hashes, and
    under every address the hashes of the transactions that it issues or receives, in hexadecimal and
    separated by commas. The store may refuse an operation and may evict an entry at any time. -/

namespace Computantis

/-! ### Keys and index entries -/

def hexDigit (n : UInt8) : UInt8 := if n < 10 then 48 + n else 87 + n

def hexEncodeBytes (src : Bytes) : Bytes := src.flatMap fun x => [hexDigit (x / 16), hexDigit (x % 16)]

def hexValue (c : UInt8) : Option UInt8 :=
  if 48 ≤ c ∧ c ≤ 57 then some (c - 48)
  else if 97 ≤ c ∧ c ≤ 102 then some (c - 87)
  else if 65 ≤ c ∧ c ≤ 70 then some (c - 55)
  else none

/-- `hex.Decode`; `none` for a byte that is no digit and for an odd length. -/
def hexDecodeBytes : Bytes → Option Bytes
  | [] => some []
  | [_] => none
  | p :: q :: rest =>
    match hexValue p, hexValue q, hexDecodeBytes rest with
    | some a, some b, some dst => some ((a * 16 + b) :: dst)
    | _, _, _ => none

def prefixTrx : Bytes := [116, 114, 120]

def prefixAddress : Bytes := [97, 100, 100, 114, 101, 115, 115]

def dash : UInt8 := 45

def comma : UInt8 := 44

def encodeTrxKey (hash : Hash) : Bytes := prefixTrx ++ dash :: hexEncodeBytes hash.bytes

def encodeAddressKey (address : Address) : Bytes := prefixAddress ++ dash :: address

theorem encodeTrxKey_ne_address (hash : Hash) (address : Address) :
    encodeTrxKey hash ≠ encodeAddressKey address := by
  simp [encodeTrxKey, encodeAddressKey, prefixTrx, prefixAddress]

namespace AddressEntry

def set (newValue : Hash) : Bytes := hexEncodeBytes newValue.bytes

def add (originalValues : Bytes) (newValue : Hash) : Bytes :=
  if originalValues.length = 0 then hexEncodeBytes newValue.bytes
  else originalValues ++ comma :: hexEncodeBytes newValue.bytes

/-- The loop of `read`: the hashes so far, and whether a value did not decode. -/
def readValues : List Bytes → List Hash → Bool → Except WireError (List Hash × Bool)
  | [], hashes, failed => .ok (hashes, failed)
  | hexBytes :: rest, hashes, failed =>
    if hexBytes.length = 0 then readValues rest hashes failed
    else match hexDecodeBytes hexBytes with
      | none => readValues rest hashes true
      | some dec =>
        match Hash.ofSlice dec with
        | .error e => .error e
        | .ok hash => readValues rest (hashes ++ [hash]) failed

def read (val : Bytes) : Except WireError (List Hash × Bool) := readValues (val.splitOn comma) [] false

/-- Every value that stays gets a comma in front. -/
def remove (values : Bytes) (removeValue : Hash) : Bytes :=
  ((values.splitOn comma).filter fun val => val ≠ hexEncodeBytes removeValue.bytes).flatMap (comma :: ·)

end AddressEntry

/-! ### The store -/

inductive CacheError where
  | errTrxAlreadyExists
  | errTransactionNotFound
  | errProcessingFailed
  | errUnauthorized
  | errWrongHashSizeInFlash
  | errEntryNotFound
  | decoding
  | store
  deriving DecidableEq, Repr

/-- The keys at which the store refuses an operation. -/
structure CacheFaults where
  get : Bytes → Bool
  set : Bytes → Bool
  delete : Bytes → Bool

/-- A store that refuses nothing. -/
def CacheFaults.none : CacheFaults := ⟨fun _ => false, fun _ => false, fun _ => false⟩

abbrev BigCache := AList fun _ : Bytes => Bytes

namespace BigCache

def get (mem : BigCache) (f : CacheFaults) (key : Bytes) : Except CacheError Bytes :=
  if f.get key then .error .store
  else match mem.lookup key with
    | none => .error .errEntryNotFound
    | some raw => .ok raw

def set (mem : BigCache) (f : CacheFaults) (key raw : Bytes) : Except CacheError BigCache :=
  if f.set key then .error .store else .ok (mem.insert key raw)

def delete (mem : BigCache) (f : CacheFaults) (key : Bytes) : Except CacheError BigCache :=
  if f.delete key then .error .store
  else match mem.lookup key with
    | none => .error .errEntryNotFound
    | some _ => .ok (mem.erase key)

end BigCache

/-- How transactions are written to bytes. -/
structure TrxCodec where
  encode : Transaction → Bytes
  decode : Bytes → Option Transaction

/-! ### Awaited transactions -/

/-- One address of `SaveAwaitedTransaction`; `err` is the error so far. -/
def noteAwaited (f : CacheFaults) (hash : Hash) (mem : BigCache) (err : Option CacheError)
    (address : Address) : BigCache × Option CacheError :=
  let addressKey := encodeAddressKey address
  match BigCache.get mem f addressKey with
  | .error .errEntryNotFound =>
    -- the error of this write is dropped
    match BigCache.set mem f addressKey (AddressEntry.set hash) with
    | .error _ => (mem, err)
    | .ok mem => (mem, err)
  | .error e => (mem, some e)
  | .ok awaited =>
    match BigCache.set mem f addressKey (AddressEntry.add awaited hash) with
    | .error e => (mem, some e)
    | .ok mem => (mem, err)

def saveAwaitedTransaction (codec : TrxCodec) (f : CacheFaults) (mem : BigCache) (trx : Transaction) :
    BigCache × Option CacheError :=
  let trxKey := encodeTrxKey trx.hash
  match BigCache.get mem f trxKey with
  | .ok _ => (mem, some .errTrxAlreadyExists)
  | .error .errEntryNotFound =>
    match BigCache.set mem f trxKey (codec.encode trx) with
    | .error e => (mem, some e)
    | .ok mem =>
      let addresses :=
        if trx.issuerAddress = trx.receiverAddress then [trx.receiverAddress]
        else [trx.issuerAddress, trx.receiverAddress]
      addresses.foldl (fun s a => noteAwaited f trx.hash s.1 s.2 a) (mem, none)
  | .error e => (mem, some e)

/-- One address of `RemoveAwaitedTransaction`. -/
def dropAwaited (f : CacheFaults) (hash : Hash) (mem : BigCache) (err : Option CacheError)
    (address : Address) : BigCache × Option CacheError :=
  let addressKey := encodeAddressKey address
  match BigCache.get mem f addressKey with
  | .error e => (mem, if e = .errEntryNotFound then some e else err)
  | .ok awaited =>
    if awaited.length = 0 then
      match BigCache.delete mem f addressKey with
      | .error _ => (mem, err)
      | .ok mem => (mem, err)
    else match BigCache.set mem f addressKey (AddressEntry.remove awaited hash) with
      | .error e => (mem, some e)
      | .ok mem => (mem, err)

/-- The transaction comes back together with the last error of the index. -/
def removeAwaitedTransaction (codec : TrxCodec) (f : CacheFaults) (mem : BigCache) (hash : Hash)
    (address : Address) : BigCache × Except CacheError (Transaction × Option CacheError) :=
  let trxKey := encodeTrxKey hash
  match BigCache.get mem f trxKey with
  | .error .errEntryNotFound => (mem, .error .errTransactionNotFound)
  | .error _ => (mem, .error .errProcessingFailed)
  | .ok raw =>
    match codec.decode raw with
    | none => (mem, .error .errProcessingFailed)
    | some trx =>
      if trx.receiverAddress ≠ address then (mem, .error .errUnauthorized)
      else match BigCache.delete mem f trxKey with
        | .error .errEntryNotFound => (mem, .error .errTransactionNotFound)
        | .error _ => (mem, .error .errProcessingFailed)
        | .ok mem =>
          let (mem, errs) := [trx.issuerAddress, trx.receiverAddress].foldl
            (fun s a => dropAwaited f hash s.1 s.2 a) (mem, none)
          (mem, .ok (trx, errs))

/-! ### Reading -/

/-- How `ReadTransactions` ends. -/
inductive Reading where
  | returned (trxs : List Transaction) (err : Option CacheError)
  | panicked
  deriving DecidableEq

/-- The loop over the hashes: the transactions, the hashes that have none, and the error of a
    transaction that does not decode. Any other error ends it. -/
def readAwaited (codec : TrxCodec) (f : CacheFaults) (mem : BigCache) :
    List Hash → Except CacheError (List Transaction × List Hash × Option CacheError)
  | [] => .ok ([], [], none)
  | hash :: rest =>
    match BigCache.get mem f (encodeTrxKey hash) with
    | .error .errEntryNotFound =>
      (readAwaited codec f mem rest).map fun r => (r.1, hash :: r.2.1, r.2.2)
    | .error e => .error e
    | .ok raw =>
      match codec.decode raw with
      | none => (readAwaited codec f mem rest).map fun r => (r.1, r.2.1, some .decoding)
      | some trx => (readAwaited codec f mem rest).map fun r => (trx :: r.1, r.2.1, r.2.2)

/-- The loop that takes the hashes without a transaction out of the index. -/
def forgetHashes (f : CacheFaults) (addressKey : Bytes) :
    List Hash → BigCache → Option CacheError → BigCache × Option CacheError
  | [], mem, errs => (mem, errs)
  | hash :: rest, mem, errs =>
    match BigCache.get mem f addressKey with
    | .error _ => (mem, errs)
    | .ok awaited =>
      if awaited.length = 0 then (mem, errs)
      else match BigCache.set mem f addressKey (AddressEntry.remove awaited hash) with
        | .error e => forgetHashes f addressKey rest mem (some e)
        | .ok mem => forgetHashes f addressKey rest mem errs

def readTransactions (codec : TrxCodec) (f : CacheFaults) (mem : BigCache) (address : Address) :
    BigCache × Reading :=
  let addressKey := encodeAddressKey address
  match BigCache.get mem f addressKey with
  | .error .errEntryNotFound => (mem, .returned [] (some .errTransactionNotFound))
  | .error _ => (mem, .returned [] (some .errProcessingFailed))
  | .ok awaited =>
    if awaited.length = 0 then
      match BigCache.delete mem f addressKey with
      | .error e => (mem, .returned [] (some e))
      | .ok mem => (mem, .returned [] (some .errTransactionNotFound))
    else match AddressEntry.read awaited with
      | .error _ => (mem, .panicked)
      | .ok (_, true) => (mem, .returned [] (some .errProcessingFailed))
      | .ok (hashes, false) =>
        match readAwaited codec f mem hashes with
        | .error e => (mem, .returned [] (some e))
        | .ok (trxs, removeHashes, errs) =>
          let (mem, errs) := forgetHashes f addressKey removeHashes mem errs
          (mem, .returned trxs errs)

/-! ### Calls and their answers -/

inductive CacheOp where
  | save (trx : Transaction)
  | remove (hash : Hash) (address : Address)
  | read (address : Address)

inductive CacheAnswer where
  | saved (err : Option CacheError)
  | removed (res : Except CacheError (Transaction × Option CacheError))
  | read (res : Reading)

/-- One call on a store that refuses nothing. -/
def BigCache.serve (codec : TrxCodec) (mem : BigCache) : CacheOp → BigCache × CacheAnswer
  | .save trx =>
    ((saveAwaitedTransaction codec .none mem trx).1, .saved (saveAwaitedTransaction codec .none mem trx).2)
  | .remove hash address =>
    ((removeAwaitedTransaction codec .none mem hash address).1,
      .removed (removeAwaitedTransaction codec .none mem hash address).2)
  | .read address =>
    ((readTransactions codec .none mem address).1, .read (readTransactions codec .none mem address).2)

/-- A call, or an entry that expires. -/
inductive CacheEvent where
  | call (op : CacheOp)
  | evict (key : Bytes)

def BigCache.live (codec : TrxCodec) (mem : BigCache) : CacheEvent → BigCache
  | .call op => (mem.serve codec op).1
  | .evict key => mem.erase key

end Computantis
