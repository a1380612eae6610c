import Computantis.Model.Cache
import Computantis.Schemes.Pool

/-! @model cachecalls | name:Overlapping calls on the cache | family:machine | source:src/cache/cache.go

    Only the single operations of the store are atomic. A call is cut at each of them: it stands before its
    next operation, with what it has read so far. Calls of any number of handlers take their steps in any
    order, and entries may expire between them.

        save:    find ─▶ store ─▶ (look ─▶ note)* ─▶ returned
        remove:  find ─▶ delete ─▶ (look ─▶ drop)* ─▶ returned -/

namespace Computantis

open Schemes

/-- A call, by the operation that it does next. -/
inductive CacheCall where
  | findSave (trx : Transaction)
  | storeSave (trx : Transaction)
  | lookSave (trx : Transaction) (err : Option CacheError) (address : Address) (rest : List Address)
  | noteSave (trx : Transaction) (err : Option CacheError) (awaited : Option Bytes) (address : Address)
      (rest : List Address)
  | saved (err : Option CacheError)
  | findRemove (hash : Hash) (address : Address)
  | deleteRemove (hash : Hash) (address : Address) (trx : Transaction)
  | lookRemove (hash : Hash) (trx : Transaction) (errs : Option CacheError) (address : Address)
      (rest : List Address)
  | dropRemove (hash : Hash) (trx : Transaction) (errs : Option CacheError) (awaited : Bytes)
      (address : Address) (rest : List Address)
  | removed (res : Except CacheError (Transaction × Option CacheError))

/-- What an operation has done under the hash of a transaction. -/
inductive CacheEffect where
  | stored (trx : Transaction)
  | taken (hash : Hash) (trx : Transaction)
  deriving DecidableEq

namespace CacheCall

/-- The next address of `SaveAwaitedTransaction`, or its return. -/
def nextSave (trx : Transaction) (err : Option CacheError) : List Address → CacheCall
  | [] => .saved err
  | address :: rest => .lookSave trx err address rest

/-- The next address of `RemoveAwaitedTransaction`, or its return. -/
def nextRemove (hash : Hash) (trx : Transaction) (errs : Option CacheError) : List Address → CacheCall
  | [] => .removed (.ok (trx, errs))
  | address :: rest => .lookRemove hash trx errs address rest

/-- One operation; `refused` says whether the store refuses it. -/
def step (codec : TrxCodec) (refused : Bool) (mem : BigCache) : CacheCall → BigCache × CacheCall × Option CacheEffect
  | .findSave trx =>
    match BigCache.get mem ⟨fun _ => refused, fun _ => false, fun _ => false⟩ (encodeTrxKey trx.hash) with
    | .ok _ => (mem, .saved (some .errTrxAlreadyExists), none)
    | .error .errEntryNotFound => (mem, .storeSave trx, none)
    | .error e => (mem, .saved (some e), none)
  | .storeSave trx =>
    match BigCache.set mem ⟨fun _ => false, fun _ => refused, fun _ => false⟩ (encodeTrxKey trx.hash)
        (codec.encode trx) with
    | .error e => (mem, .saved (some e), none)
    | .ok mem =>
      let addresses :=
        if trx.issuerAddress = trx.receiverAddress then [trx.receiverAddress]
        else [trx.issuerAddress, trx.receiverAddress]
      (mem, nextSave trx none addresses, some (.stored trx))
  | .lookSave trx err address rest =>
    match BigCache.get mem ⟨fun _ => refused, fun _ => false, fun _ => false⟩ (encodeAddressKey address) with
    | .error .errEntryNotFound => (mem, .noteSave trx err none address rest, none)
    | .error e => (mem, nextSave trx (some e) rest, none)
    | .ok awaited => (mem, .noteSave trx err (some awaited) address rest, none)
  | .noteSave trx err awaited address rest =>
    let entry := match awaited with
      | none => AddressEntry.set trx.hash
      | some awaited => AddressEntry.add awaited trx.hash
    match BigCache.set mem ⟨fun _ => false, fun _ => refused, fun _ => false⟩ (encodeAddressKey address) entry with
    -- the error of the first write for an address is dropped
    | .error e => (mem, nextSave trx (if awaited.isNone then err else some e) rest, none)
    | .ok mem => (mem, nextSave trx err rest, none)
  | .saved err => (mem, .saved err, none)
  | .findRemove hash address =>
    match BigCache.get mem ⟨fun _ => refused, fun _ => false, fun _ => false⟩ (encodeTrxKey hash) with
    | .error .errEntryNotFound => (mem, .removed (.error .errTransactionNotFound), none)
    | .error _ => (mem, .removed (.error .errProcessingFailed), none)
    | .ok raw =>
      match codec.decode raw with
      | none => (mem, .removed (.error .errProcessingFailed), none)
      | some trx =>
        if trx.receiverAddress ≠ address then (mem, .removed (.error .errUnauthorized), none)
        else (mem, .deleteRemove hash address trx, none)
  | .deleteRemove hash _ trx =>
    match BigCache.delete mem ⟨fun _ => false, fun _ => false, fun _ => refused⟩ (encodeTrxKey hash) with
    | .error .errEntryNotFound => (mem, .removed (.error .errTransactionNotFound), none)
    | .error _ => (mem, .removed (.error .errProcessingFailed), none)
    | .ok mem =>
      (mem, nextRemove hash trx none [trx.issuerAddress, trx.receiverAddress], some (.taken hash trx))
  | .lookRemove hash trx errs address rest =>
    match BigCache.get mem ⟨fun _ => refused, fun _ => false, fun _ => false⟩ (encodeAddressKey address) with
    | .error e => (mem, nextRemove hash trx (if e = .errEntryNotFound then some e else errs) rest, none)
    | .ok awaited => (mem, .dropRemove hash trx errs awaited address rest, none)
  | .dropRemove hash trx errs awaited address rest =>
    if awaited.length = 0 then
      match BigCache.delete mem ⟨fun _ => false, fun _ => false, fun _ => refused⟩ (encodeAddressKey address) with
      | .error _ => (mem, nextRemove hash trx errs rest, none)
      | .ok mem => (mem, nextRemove hash trx errs rest, none)
    else
      match BigCache.set mem ⟨fun _ => false, fun _ => refused, fun _ => false⟩ (encodeAddressKey address)
          (AddressEntry.remove awaited hash) with
      | .error e => (mem, nextRemove hash trx (some e) rest, none)
      | .ok mem => (mem, nextRemove hash trx errs rest, none)
  | .removed res => (mem, .removed res, none)

/-- The call has returned. -/
def Returned : CacheCall → Prop
  | .saved _ => True
  | .removed _ => True
  | _ => False

end CacheCall

/-- What a handler calls. -/
inductive CacheRequest where
  | save (trx : Transaction)
  | remove (hash : Hash) (address : Address)

def CacheCall.start : CacheRequest → CacheCall
  | .save trx => .findSave trx
  | .remove hash address => .findRemove hash address

/-- The cache, and what was stored and taken so far. -/
structure CacheMemory where
  mem : BigCache
  history : List CacheEffect

namespace CacheMemory

def fresh : CacheMemory := ⟨∅, []⟩

/-- One operation of a call. -/
def act (codec : TrxCodec) (refused : Bool) (m : CacheMemory) (c : CacheCall) : CacheMemory × CacheCall :=
  let (mem, c, effect) := c.step codec refused m.mem
  (⟨mem, m.history ++ effect.toList⟩, c)

def evict (key : Bytes) (m : CacheMemory) : CacheMemory := { m with mem := m.mem.erase key }

end CacheMemory

/-- A cache and the calls on it. -/
abbrev CachePool := Pool CacheMemory CacheCall

/-- A call begins, a call takes its next operation (which the store may refuse), or an entry expires. -/
abbrev CachePool.Event := PoolEvent CacheRequest Bool Bytes

namespace CachePool

def fresh : CachePool := ⟨.fresh, []⟩

def step (codec : TrxCodec) : CachePool → CachePool.Event → CachePool :=
  Pool.step CacheCall.start (CacheMemory.act codec) CacheMemory.evict

end CachePool

end Computantis
