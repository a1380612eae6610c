import Computantis.Model.Service
import Computantis.Schemes.Pool

/-! @model balancecalls | name:Cached balances, step by step | family:machine |
    source:src/notaryserver/notary.server.go, src/gossip/gossip.go, src/cache/cache.go

    Computing a balance, caching it, adding a leaf and forgetting the balances of its parties are steps of
    their own, and the steps of all handlers and their goroutines interleave. A leaf that is added without
    its handler coming to the end forgets nothing: the pipe may be closed, and a parked vertex is added by
    the replier.

        Balance:            read ─▶ compute ─▶ answer, and later: save
        Propose, Confirm:   CreateLeaf ─▶ (pipe) ─▶ answer, and later: remove, remove
        Reject:             CreateLeaf ─▶ (pipe) ─▶ answer, and later: remove
        GossipVrx:          AddLeaf ─▶ answer, and later: remove, remove -/

namespace Computantis

open Schemes

/-- A leaf made here, by `Propose` or `Confirm` or by `Reject`, or a vertex received. -/
inductive NewLeaf where
  | create (trx : Transaction)
  | reject (trx : Transaction)
  | receive (vrx : Vertex)

def NewLeaf.transaction : NewLeaf → Transaction
  | .create trx => trx
  | .reject trx => trx
  | .receive vrx => vrx.transaction

/-- Whose balances the handler removes. -/
def NewLeaf.forgotten : NewLeaf → List Address
  | .create trx => [trx.issuerAddress, trx.receiverAddress]
  -- `Reject` leaves the receiver out
  | .reject trx => [trx.issuerAddress]
  | .receive vrx => [vrx.transaction.issuerAddress, vrx.transaction.receiverAddress]

/-- A verified request for a balance, or a handler that has come to its leaf. -/
inductive BalanceRequest where
  | balance (a : Address)
  | leaf (l : NewLeaf)

/-- A handler or goroutine, by the step that it takes next. -/
inductive BalanceCall where
  | reading (a : Address)
  | computing (a : Address)
  | saving (a : Address) (s : Melange)
  | adding (l : NewLeaf)
  | removing (addresses : List Address)
  | returned

/-- What has happened: a balance was computed, a leaf was added, or an answer came from the cache. -/
inductive BalanceNote where
  | computed (a : Address) (s : Melange)
  | added (trx : Transaction)
  | served (a : Address) (s : Melange)
  deriving DecidableEq

structure BalanceMemory where
  book : Book
  cache : BigCache
  history : List BalanceNote

/-- What a step meets, and whether the pipe takes the vertex. -/
structure BalanceStep where
  meets : Circumstance
  sent : Bool

/-- The handler comes to its removals: only a leaf made here has to pass the pipe. -/
def NewLeaf.passes (e : BalanceStep) : NewLeaf → Bool
  | .create _ => e.sent
  | .reject _ => e.sent
  | .receive _ => true

/-- What happens beside the handlers: an entry expires, a call on the awaited transactions, or the replier
    comes to a parked vertex. -/
inductive BalanceChange where
  | expire (key : Bytes)
  | await (op : CacheOp)
  | replay (m : Memory) (probe : Hash → Probe) (faults : Faults)

def BalanceCall.start : BalanceRequest → BalanceCall
  | .balance a => .reading a
  | .leaf l => .adding l

namespace BalanceMemory

variable (env : ServerEnv)

def note (m : BalanceMemory) (n : BalanceNote) : BalanceMemory := { m with history := m.history ++ [n] }

/-- A leaf is added, or the call to the ledger fails. -/
def add (m : BalanceMemory) (e : BalanceStep) (l : NewLeaf) : BalanceMemory × BalanceCall :=
  let next := if l.passes e then BalanceCall.removing l.forgotten else .returned
  match l with
  | .create trx | .reject trx =>
    match m.book.createLeaf env.ledger trx e.meets.first e.meets.second e.meets.now e.meets.ledger with
    | (book, .done _) => ({ m with book }.note (.added trx), next)
    | (book, _) => ({ m with book }, .returned)
  | .receive vrx =>
    match m.book.addLeaf env.ledger vrx e.meets.first.probe e.meets.ledger with
    | (book, .ok ()) => ({ m with book }.note (.added vrx.transaction), next)
    | (book, .error _) => ({ m with book }, .returned)

def act (e : BalanceStep) (m : BalanceMemory) : BalanceCall → BalanceMemory × BalanceCall
  | .reading a =>
    match readBalance env.ledger.codec e.meets.cache m.cache a with
    | .ok s => (m.note (.served a s), .returned)
    | .error _ => (m, .computing a)
  | .computing a =>
    match m.book.calculateBalance env.ledger e.meets.order e.meets.walk e.meets.fundsFail e.meets.now a with
    | .error _ => (m, .returned)
    | .ok balance => (m.note (.computed a balance.spice), .saving a balance.spice)
  | .saving a s =>
    ({ m with cache := (saveBalance env.ledger.codec e.meets.cache m.cache a s).toOption.getD m.cache }, .returned)
  | .adding l => m.add env e l
  | .removing [] => (m, .returned)
  | .removing (a :: rest) =>
    ({ m with cache := (removeBalance e.meets.cache m.cache a).toOption.getD m.cache }, .removing rest)
  | .returned => (m, .returned)

def change : BalanceChange → BalanceMemory → BalanceMemory
  | .expire key, m => { m with cache := m.cache.erase key }
  | .await op, m => { m with cache := (m.cache.serve env.trxCodec op).1 }
  | .replay parked probe faults, m =>
    match m.book.addLeafMemorized env.ledger parked probe faults with
    | (book, .ok ()) => { m with book }.note (.added parked.vrx.transaction)
    | (book, .error _) => { m with book }

end BalanceMemory

abbrev BalancePool := Pool BalanceMemory BalanceCall

abbrev BalancePool.Event := PoolEvent BalanceRequest BalanceStep BalanceChange

namespace BalancePool

/-- A server with some ledger and nothing in its cache. -/
def fresh (book : Book) : BalancePool := ⟨⟨book, ∅, []⟩, []⟩

def step (env : ServerEnv) : BalancePool → BalancePool.Event → BalancePool :=
  Pool.step BalanceCall.start (BalanceMemory.act env) (BalanceMemory.change env)

end BalancePool

end Computantis
