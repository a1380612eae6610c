import Computantis.Model.Cache
import Computantis.Model.Node

/-! @model notary | name:The server around the ledger | family:machine |
    source:src/notaryserver/notary.server.go, src/gossip/gossip.go

    Clients propose transactions, receivers confirm or reject the ones that wait for them, and other
    nodes gossip vertices and transactions. A handler checks its request and works on the cache of
    awaited transactions; then it may hand a transaction to `CreateLeaf` or a vertex to `AddLeaf`, which
    go on as calls of the node.

        Propose ──contract──▶ cache ──Reject──▶ CreateLeaf
           └───────────────────────────────────▶ CreateLeaf ◀── Confirm
        GossipTrx ──▶ cache          GossipVrx ──▶ AddLeaf

    What a handler does after the ledger has answered (sending the vertex on, forgetting balances) does
    not come back to the ledger, but for the transaction that `GossipVrx` removes from the cache. -/

namespace Computantis

structure SignedHash where
  address : Bytes
  data : Bytes
  hash : Bytes
  signature : Bytes
  deriving DecidableEq

inductive NotaryError where
  | errNoDataPresent
  | errRequestIsEmpty
  | errVerification
  | errProcessing
  | errThrottle
  | wire (e : WireError)
  | accountant (e : Err)
  deriving DecidableEq, Repr

/-- What a server is built with. -/
structure ServerEnv where
  ledger : Env
  trxCodec : TrxCodec
  dataSize : ℕ

/-- How a handler reports a check that was not passed. -/
def Verdict.reported (d : Verdict) (e : NotaryError) : NotaryError := if d = .panicked then .wire .panicked else e

theorem Verdict.reported_eq_panicked_iff {d : Verdict} {e : NotaryError} (he : e ≠ .wire .panicked) :
    d.reported e = .wire .panicked ↔ d = .panicked := by
  unfold reported
  split
  next h => simp [h]
  next h => simp [h, he]

namespace Notary

variable (env : ServerEnv) (f : CacheFaults) (mem : BigCache)

/-- `Propose` up to `CreateLeaf`: the cache, and the transaction to create a leaf for, if any. -/
def propose : Option ProtoTransaction → BigCache × Except NotaryError (Option Transaction)
  | none => (mem, .error .errNoDataPresent)
  | some req =>
    match protoTrxToTrx (some req) with
    | .error e => (mem, .error (.wire e))
    | .ok trx =>
      if trx.verifyIssuer env.ledger.verifier = false then
        (mem, .error ((trx.checkIssuer env.ledger.verifier).reported .errVerification))
      else if trx.isContract then
        if trx.data.length > env.dataSize then (mem, .error .errProcessing)
        else match saveAwaitedTransaction env.trxCodec f mem trx with
          | (mem, some _) => (mem, .error .errProcessing)
          | (mem, none) => (mem, .ok none)
      else (mem, .ok (some trx))

/-- How the handlers report an error of the cache. -/
def reported (e : CacheError) : NotaryError :=
  if e = .errTransactionNotFound then .errNoDataPresent else .errProcessing

/-- `Confirm` up to `CreateLeaf`: the leaf is for the transaction of the request. -/
def confirm (req : Option ProtoTransaction) : BigCache × Except NotaryError Transaction :=
  match protoTrxToTrx req with
  | .error e => (mem, .error (.wire e))
  | .ok trx =>
    if trx.verifyIssuerReceiver env.ledger.verifier = false then
      (mem, .error ((trx.checkIssuerReceiver env.ledger.verifier).reported .errVerification))
    else match removeAwaitedTransaction env.trxCodec f mem trx.hash trx.receiverAddress with
      | (mem, .error e) => (mem, .error (reported e))
      | (mem, .ok (_, some e)) => (mem, .error (reported e))
      | (mem, .ok (_, none)) => (mem, .ok trx)

/-- `Reject` up to `CreateLeaf`: the leaf is for the transaction of the cache. -/
def reject : Option SignedHash → BigCache × Except NotaryError Transaction
  | none => (mem, .error .errRequestIsEmpty)
  | some req =>
    match Hash.ofSlice req.hash with
    | .error e => (mem, .error (.wire e))
    | .ok hash =>
      if env.ledger.verifier.verify req.data req.signature hash req.address = false then
        (mem, .error ((env.ledger.verifier.check req.data req.signature hash req.address).reported .errProcessing))
      else match Hash.ofSlice req.data with
        | .error e => (mem, .error (.wire e))
        | .ok trxHash =>
          match removeAwaitedTransaction env.trxCodec f mem trxHash req.address with
          | (mem, .error e) => (mem, .error (reported e))
          | (mem, .ok (_, some e)) => (mem, .error (reported e))
          | (mem, .ok (trx, none)) => (mem, .ok trx)

/-- `GossipTrx` for a transaction that the node has not handled yet: an error of the save is only
    logged. -/
def gossipTrx (req : Option ProtoTransaction) : BigCache :=
  match protoTrxToTrx req with
  | .error _ => mem
  | .ok trx =>
    if trx.verifyIssuer env.ledger.verifier = false then mem
    else (saveAwaitedTransaction env.trxCodec f mem trx).1

end Notary

/-! ### The server -/

/-- The event takes place inside the ledger: it begins no call. -/
def Event.Inner : Event → Prop
  | .beginCreate .. => False
  | .beginAdd .. => False
  | _ => True

structure Server where
  node : Node
  cache : BigCache

/-- A request, a message of another node, or a step of the ledger and of the cache on their own. -/
inductive Server.Event where
  | genesis (spec : Book.GenesisSpec) (saveFails : Bool)
  | load (sched : LoadSchedule) (stream : List (Option Vertex))
  | propose (req : Option ProtoTransaction) (f : CacheFaults) (faults : Faults)
  | confirm (req : Option ProtoTransaction) (f : CacheFaults) (faults : Faults)
  | reject (req : Option SignedHash) (f : CacheFaults) (faults : Faults)
  | gossipTrx (req : Option ProtoTransaction) (f : CacheFaults)
  | gossipVrx (req : ProtoVertex) (faults : Faults)
  | forget (hash : Hash) (address : Address) (f : CacheFaults)
  | evict (key : Bytes)
  | ledger (e : Computantis.Event) (inner : e.Inner)

namespace Server

/-- The call that a handler makes, if it comes to that. -/
def create (env : ServerEnv) (s : Server) (faults : Faults) : Option Transaction → Server
  | none => s
  | some trx => { s with node := s.node.beginCreate env.ledger trx faults }

def step (env : ServerEnv) (s : Server) : Server.Event → Server
  | .genesis spec saveFails => { s with node := s.node.live env.ledger (.genesis spec saveFails) }
  | .load sched stream => { s with node := s.node.live env.ledger (.load sched stream) }
  | .propose req f faults =>
    let (cache, res) := Notary.propose env f s.cache req
    { s with cache }.create env faults (res.toOption.getD none)
  | .confirm req f faults =>
    let (cache, res) := Notary.confirm env f s.cache req
    { s with cache }.create env faults res.toOption
  | .reject req f faults =>
    let (cache, res) := Notary.reject env f s.cache req
    { s with cache }.create env faults res.toOption
  | .gossipTrx req f => { s with cache := Notary.gossipTrx env f s.cache req }
  | .gossipVrx req faults =>
    match mapProtoVertexToAccountantVertex req with
    | .error _ => s
    | .ok vrx => { s with node := s.node.beginAdd env.ledger vrx faults }
  | .forget hash address f =>
    { s with cache := (removeAwaitedTransaction env.trxCodec f s.cache hash address).1 }
  | .evict key => { s with cache := s.cache.erase key }
  | .ledger e _ => { s with node := s.node.step env.ledger e }

/-- A server that has just been started. -/
def fresh (truncate : UInt64) : Server := ⟨Node.fresh truncate, ∅⟩

end Server

end Computantis
