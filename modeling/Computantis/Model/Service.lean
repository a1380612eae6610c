import Computantis.Model.Notary
import Mathlib.Data.Finset.Insert

/-! @model service | name:Requests from end to end | family:machine |
    source:src/notaryserver/notary.server.go, src/cache/flashback.go, src/cache/cache.go, src/pipe/pipe.go

    A handler answers its request and may leave work to goroutines, which come to their steps whenever the
    scheduler lets them: the caches forget what a new leaf makes wrong, a computed balance is cached, a
    contract goes to the gossip pipe. The flash memory holds what was asked for a moment ago, and asking
    it is what puts something into it. Nothing recovers from a panic in a handler: the process is gone.

        request ──▶ flash? ──▶ verify ──▶ cache, ledger ──▶ pipe ──▶ answer
                                                └──▶ tasks: step, step, … -/

namespace Computantis

open Schemes

/-! ### Reading the DAG -/

namespace Book

/-- The ancestor loop of `ReadDAGTransactionsByAddress`. -/
def walkTransactions (d : Dag) (address : Address) (cancelAt : Option ℕ) :
    List Hash → ℕ → List Hash → List Transaction → Except Err (List Transaction)
  | [], _, _, transactions => .ok transactions
  | id :: rest, i, visited, transactions =>
    if cancelAt = some i then .error [.errLeafBallanceCalculationProcessStopped]
    else if id ∈ visited then walkTransactions d address cancelAt rest (i + 1) visited transactions
    else match d.getVertex id with
      | none => .error [.errUnexpected, .dag]
      | some vrx =>
        walkTransactions d address cancelAt rest (i + 1) (id :: visited)
          (if vrx.transaction.Concerns address then transactions ++ [vrx.transaction] else transactions)

def readDAGTransactionsByAddress (b : Book) (order : List Hash) (p : WalkProbe) (address : Address) :
    Except Err (List Transaction) :=
  match (enumerate order b.dag.graph.leaves).getLast? with
  | none => .error [.errUnexpected]
  | some leaf =>
    match b.dag.getVertex leaf with
    | none => .error [.errUnexpected, .dag]
    | some vrx =>
      walkTransactions b.dag address p.cancelAt (arrange p.order (b.dag.graph.ancestors leaf)) 0 []
        (if vrx.transaction.Concerns address then [vrx.transaction] else [])

end Book

/-! ### Balances in the cache -/

/-- The msgpack codec of balances is the one of the stored funds. -/
def saveBalance (codec : Codec) (f : CacheFaults) (mem : BigCache) (a : Address) (s : Melange) :
    Except CacheError BigCache :=
  BigCache.set mem f a (codec.encodeSpice s)

def readBalance (codec : Codec) (f : CacheFaults) (mem : BigCache) (a : Address) : Except CacheError Melange :=
  match BigCache.get mem f a with
  | .error e => .error e
  | .ok b => if (codec.decodeSpice b).2 then .ok (codec.decodeSpice b).1 else .error .decoding

def removeBalance (f : CacheFaults) (mem : BigCache) (a : Address) : Except CacheError BigCache :=
  BigCache.delete mem f a

/-! ### The flash memory -/

/-- Hashes and addresses in one key space, each with an empty value. -/
abbrev Flashback := Finset Bytes

namespace Flashback

/-- `HasAddress`, and `HasHash` past its length check: the key is looked up and, whatever comes of that,
    set. -/
def has (mem : Flashback) (getFails setFails : Bool) (key : Bytes) : Flashback × Except CacheError Bool :=
  (if setFails then mem else insert key mem, if getFails then .error .store else .ok (decide (key ∈ mem)))

def hasAddress (mem : Flashback) (getFails setFails : Bool) (a : Address) : Flashback × Except CacheError Bool :=
  mem.has getFails setFails a

/-- A hash of another length is refused before anything is looked up. -/
def hasHash (mem : Flashback) (getFails setFails : Bool) (h : Bytes) : Flashback × Except CacheError Bool :=
  if h.length ≠ 32 then (mem, .error .errWrongHashSizeInFlash) else mem.has getFails setFails h

def removeAddress (mem : Flashback) (a : Address) : Flashback := mem.erase a

end Flashback

/-! ### The pipe -/

/-- The two channels to the gossip process. -/
structure Juggler where
  trxCh : List ProtoTransaction
  vrxCh : List Vertex
  closed : Bool

namespace Juggler

def sendTrx (j : Juggler) (trx : ProtoTransaction) : Juggler × Bool :=
  if j.closed then (j, false) else ({ j with trxCh := j.trxCh ++ [trx] }, true)

def sendVrx (j : Juggler) (vrx : Vertex) : Juggler × Bool :=
  if j.closed then (j, false) else ({ j with vrxCh := j.vrxCh ++ [vrx] }, true)

end Juggler

/-! ### Requests -/

/-- One step of a goroutine that a handler leaves behind. -/
inductive Chore where
  | removeAddress (a : Address)
  | removeBalance (a : Address)
  | saveBalance (a : Address) (s : Melange)
  | sendTrx (trx : ProtoTransaction)
  deriving DecidableEq

inductive Request where
  | propose (req : Option ProtoTransaction)
  | confirm (req : Option ProtoTransaction)
  | reject (req : Option SignedHash)
  | waiting (req : SignedHash)
  | saved (req : SignedHash)
  | balance (req : SignedHash)
  | transactionsInDAG (req : SignedHash)
  deriving DecidableEq

inductive Reply where
  | empty
  | transactions (array : List ProtoTransaction) (len : ℕ)
  | transaction (trx : ProtoTransaction)
  | spice (s : ProtoSpice)
  deriving DecidableEq

/-- What a request meets: which operations fail, whether the data provider knows the signed data, the
    orders in which maps and walkers deliver, and the time. -/
structure Circumstance where
  flashGet : Bool
  flashSet : Bool
  dataValid : Bool
  cache : CacheFaults
  ledger : Faults
  first : Book.Pass
  second : Book.Pass
  order : List Hash
  walk : WalkProbe
  fundsFail : Bool
  mapFails : Bool
  readFails : Bool
  now : Time

/-- The server: the ledger, the two caches, the pipe, the goroutines with what they still have to do, and
    whether a panic has ended the process. -/
structure Service where
  book : Book
  cache : BigCache
  flash : Flashback
  pipe : Juggler
  tasks : List (List Chore)
  down : Bool

/-- The signature of the request is that of its address. -/
def SignedHash.signed (v : Verifier) (req : SignedHash) : Except WireError Bool :=
  match Hash.ofSlice req.hash with
  | .error e => .error e
  | .ok hash => (v.check req.data req.signature hash req.address).returned

namespace Service

variable (env : ServerEnv) (w : Circumstance) (s : Service)

/-- What the caches forget when a leaf for the transaction is there. -/
def forgetBoth (trx : Transaction) : List Chore :=
  [.removeAddress trx.issuerAddress, .removeAddress trx.receiverAddress, .removeBalance trx.issuerAddress,
    .removeBalance trx.receiverAddress]

/-- The handlers from `CreateLeaf` on. -/
def createLeaf (trx : Transaction) (forget : List Chore) : Service × Except NotaryError Reply :=
  match s.book.createLeaf env.ledger trx w.first w.second w.now w.ledger with
  | (book, .failed e) => ({ s with book }, .error (if .panicked ∈ e then .wire .panicked else .errProcessing))
  | (book, .panicked) => ({ s with book }, .error (.wire .panicked))
  | (book, .done vrx) =>
    match s.pipe.sendVrx vrx with
    | (pipe, false) => ({ s with book, pipe }, .error .errProcessing)
    | (pipe, true) => ({ s with book, pipe, tasks := s.tasks ++ [forget] }, .ok .empty)

def propose (req : Option ProtoTransaction) : Service × Except NotaryError Reply :=
  match Notary.propose env w.cache s.cache req with
  | (cache, .error e) => ({ s with cache }, .error e)
  | (cache, .ok none) => ({ s with cache, tasks := s.tasks ++ [(req.map Chore.sendTrx).toList] }, .ok .empty)
  | (cache, .ok (some trx)) => createLeaf env w { s with cache } trx (forgetBoth trx)

def confirm (req : Option ProtoTransaction) : Service × Except NotaryError Reply :=
  match Notary.confirm env w.cache s.cache req with
  | (cache, .error e) => ({ s with cache }, .error e)
  | (cache, .ok trx) => createLeaf env w { s with cache } trx (forgetBoth trx)

/-- A rejection forgets what is known of the issuer only. -/
def reject (req : Option SignedHash) : Service × Except NotaryError Reply :=
  match Notary.reject env w.cache s.cache req with
  | (cache, .error e) => ({ s with cache }, .error e)
  | (cache, .ok trx) =>
    createLeaf env w { s with cache } trx [.removeAddress trx.issuerAddress, .removeBalance trx.issuerAddress]

/-- A list of transactions on the wire; what cannot be mapped is left out, but counted. -/
def transactionsReply (trxs : List Transaction) : Reply :=
  .transactions (trxs.filterMap fun trx => (trxToProtoTrx trx).toOption) trxs.length

def waiting (req : SignedHash) : Service × Except NotaryError Reply :=
  if w.dataValid = false then (s, .error .errVerification)
  else match req.signed env.ledger.verifier with
    | .error e => (s, .error (.wire e))
    | .ok false => (s, .error .errVerification)
    | .ok true =>
      match readTransactions env.trxCodec w.cache s.cache req.address with
      | (cache, .panicked) => ({ s with cache }, .error (.wire .panicked))
      | (cache, .returned _ (some _)) => ({ s with cache }, .error .errProcessing)
      | (cache, .returned trxs none) => ({ s with cache }, .ok (transactionsReply trxs))

def saved (req : SignedHash) : Service × Except NotaryError Reply :=
  match req.signed env.ledger.verifier with
  | .error e => (s, .error (.wire e))
  | .ok false => (s, .error .errVerification)
  | .ok true =>
    match Hash.ofSlice req.data with
    | .error e => (s, .error (.wire e))
    | .ok hash =>
      match s.book.readTransactionByHash env.ledger.codec hash w.mapFails w.readFails with
      | .error _ => (s, .error .errProcessing)
      | .ok trx =>
        if trx.hash = Hash.zero then (s, .error .errNoDataPresent)
        else match trxToProtoTrx trx with
          | .error e => (s, .error (.wire e))
          | .ok protoTrx => (s, .ok (.transaction protoTrx))

/-- `Balance` for an address that is not throttled. -/
def answerBalance (req : SignedHash) : Service × Except NotaryError Reply :=
  if req.data ≠ req.address then (s, .error .errVerification)
  else match req.signed env.ledger.verifier with
    | .error e => (s, .error (.wire e))
    | .ok false => (s, .error .errVerification)
    | .ok true =>
      match readBalance env.ledger.codec w.cache s.cache req.address with
      | .ok m => (s, .ok (.spice m.toProto))
      | .error _ =>
        match s.book.calculateBalance env.ledger w.order w.walk w.fundsFail w.now req.address with
        | .error _ => (s, .error .errProcessing)
        | .ok balance =>
          ({ s with tasks := s.tasks ++ [[.saveBalance req.address balance.spice]] },
            .ok (.spice balance.spice.toProto))

/-- `TransactionsInDAG` for an address that is not throttled. -/
def answerTransactionsInDAG (req : SignedHash) : Service × Except NotaryError Reply :=
  if w.dataValid = false then (s, .error .errVerification)
  else match req.signed env.ledger.verifier with
    | .error e => (s, .error (.wire e))
    | .ok false => (s, .error .errVerification)
    | .ok true =>
      match s.book.readDAGTransactionsByAddress w.order w.walk req.address with
      | .error e => (s, .error (.accountant e))
      | .ok trxs => (s, .ok (transactionsReply trxs))

/-- The throttle in front of the two handlers that have one. -/
def throttled (a : Address) (answer : Service → Service × Except NotaryError Reply) :
    Service × Except NotaryError Reply :=
  match s.flash.hasAddress w.flashGet w.flashSet a with
  | (flash, .error _) => ({ s with flash }, .error .errProcessing)
  | (flash, .ok true) => ({ s with flash }, .error .errThrottle)
  | (flash, .ok false) => answer { s with flash }

def balance (req : SignedHash) : Service × Except NotaryError Reply :=
  s.throttled w req.address fun s => s.answerBalance env w req

def transactionsInDAG (req : SignedHash) : Service × Except NotaryError Reply :=
  s.throttled w req.address fun s => s.answerTransactionsInDAG env w req

def handle : Request → Service × Except NotaryError Reply
  | .propose req => s.propose env w req
  | .confirm req => s.confirm env w req
  | .reject req => s.reject env w req
  | .waiting req => s.waiting env w req
  | .saved req => s.saved env w req
  | .balance req => s.balance env w req
  | .transactionsInDAG req => s.transactionsInDAG env w req

/-- One step of a goroutine; errors are only logged. -/
def chore (codec : Codec) (f : CacheFaults) : Chore → Service
  | .removeAddress a => if f.delete a then s else { s with flash := s.flash.removeAddress a }
  | .removeBalance a => { s with cache := (removeBalance f s.cache a).toOption.getD s.cache }
  | .saveBalance a m => { s with cache := (saveBalance codec f s.cache a m).toOption.getD s.cache }
  | .sendTrx trx => { s with pipe := (s.pipe.sendTrx trx).1 }

/-- Goroutine `i` takes its next step. -/
def work (i : ℕ) (f : CacheFaults) : Service :=
  match s.tasks[i]? with
  | some (c :: rest) => { s with tasks := s.tasks.set i rest }.chore env.ledger.codec f c
  | _ => s

end Service

/-- A request, a step of a goroutine, or an entry of one of the caches that expires. -/
inductive Service.Event where
  | request (r : Request) (w : Circumstance)
  | work (i : ℕ) (f : CacheFaults)
  | expire (key : Bytes)
  | expireFlash (key : Bytes)

/-- What comes back: nothing where nothing was asked, nothing from a server that is gone, or the answer of
    the handler. -/
inductive Response where
  | none
  | lost
  | answer (res : Except NotaryError Reply)
  deriving DecidableEq

namespace Service

/-- A handler in its process. -/
def serve (env : ServerEnv) (w : Circumstance) (s : Service) (r : Request) : Service × Response :=
  if s.down then (s, .lost)
  else match s.handle env w r with
    | (s, .error (.wire .panicked)) => ({ s with down := true }, .lost)
    | (s, res) => (s, .answer res)

def step (env : ServerEnv) (s : Service) : Service.Event → Service × Response
  | .request r w => s.serve env w r
  | .work i f => (if s.down then s else s.work env i f, .none)
  | .expire key => ({ s with cache := s.cache.erase key }, .none)
  | .expireFlash key => ({ s with flash := s.flash.erase key }, .none)

end Service

end Computantis
