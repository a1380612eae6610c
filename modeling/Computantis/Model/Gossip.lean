import Computantis.Model.Service

/-! @model gossip | name:Messages between nodes | family:protocol |
    source:src/gossip/gossip.go, src/cache/flashback.go

    A vertex or a transaction travels with the signatures of the nodes that have passed it on. A node that
    gets one asks the flash memory about the hash, keeps of the signatures those that verify, and stops when
    its own is among them. Otherwise it takes the vertex to the ledger or the transaction to the cache, adds
    its signature and sends everything to the connected nodes that have not signed.

        message ──▶ flash? ──▶ verify gossipers ──▶ AddLeaf | VerifyIssuer, save ──▶ sign ──▶ to the others

    Nothing recovers from a panic in a handler. Fetching a missing parent from another node ends in an
    `AddLeaf` of its own and sends nothing on. -/

namespace Computantis

open Schemes

/-! ### Gossipers -/

structure ProtoGossiper where
  address : Address
  digest : Bytes
  signature : Bytes
  deriving DecidableEq

def createGossiperMessageToSign (address : Address) (hash : Hash) : Bytes := address ++ hash.bytes

/-- The gossipers by their addresses. -/
abbrev Gossipers := AList fun _ : Address => ProtoGossiper

/-- The loop of `verifyGossipers`: who does not verify is left out, a later entry replaces an earlier one of
    the same address, and a digest that is too short panics, as `Verify` may do. -/
def verifyGossipers (v : Verifier) (hash : Hash) : List ProtoGossiper → Gossipers → Except WireError Gossipers
  | [], m => .ok m
  | member :: rest, m =>
    match Hash.ofSlice member.digest with
    | .error e => .error e
    | .ok digest =>
      match v.check (createGossiperMessageToSign member.address hash) member.signature digest member.address with
      | .accepted => verifyGossipers v hash rest (m.insert member.address member)
      | .refused => verifyGossipers v hash rest m
      | .panicked => .error .panicked

/-- The map delivers its values in some order. -/
def toSlice (order : List Address) (m : Gossipers) : List ProtoGossiper :=
  (enumerate order m.keys).filterMap fun a => m.lookup a

/-- The signature that a node adds. -/
def Signer.gossiper (signer : Signer) (hash : Hash) : ProtoGossiper :=
  let signed := signer.sign (createGossiperMessageToSign signer.address hash)
  ⟨signer.address, signed.1.bytes, signed.2⟩

/-! ### Messages -/

structure VrxMsgGossip where
  vertex : Option ProtoVertex
  gossipers : List ProtoGossiper
  deriving DecidableEq

structure TrxMsgGossip where
  trx : Option ProtoTransaction
  gossipers : List ProtoGossiper
  deriving DecidableEq

inductive GossipMsg where
  | vrx (vg : VrxMsgGossip)
  | trx (tg : TrxMsgGossip)
  deriving DecidableEq

inductive GossipError where
  | errNilVrxMsgGossip
  | errNilVertex
  | errNilTrxMsgGossip
  | errNilTrx
  | errFailedToProcessGossip
  | wire (e : WireError)
  deriving DecidableEq, Repr

/-- What a message meets: failing stores, the schedule of the ledger, and the orders of the maps. -/
structure GossipMeets where
  flashGet : Bool
  flashSet : Bool
  cache : CacheFaults
  ledger : Faults
  probe : Hash → Probe
  slice : List Address
  order : List Address

/-- A node: its server, and the addresses of the nodes that it is connected to. -/
structure GossipNode extends Service where
  nodes : List Address

/-- A message and the node that it goes to. -/
abbrev Forward := Address × GossipMsg

namespace GossipNode

variable (env : ServerEnv) (c : GossipMeets) (g : GossipNode)

/-- The loop of `gossipVertex` and `gossipTransaction`: the connected nodes that have not signed. -/
def others (set : Gossipers) : List Address := (enumerate c.order g.nodes).filter (· ∉ set)

/-- The two handlers from `verifyGossipers` on; `process` is what they do with the item, `wrap` the message
    with new gossipers. -/
def spread (hash : Bytes) (gossipers : List ProtoGossiper)
    (process : GossipNode → GossipNode × Except GossipError Unit) (wrap : List ProtoGossiper → GossipMsg) :
    GossipNode × List Forward × Except GossipError Unit :=
  match Hash.ofSlice hash with
  | .error e => (g, [], .error (.wire e))
  | .ok h =>
    match verifyGossipers env.ledger.verifier h gossipers ∅ with
    | .error e => (g, [], .error (.wire e))
    | .ok set =>
      if env.ledger.signer.address ∈ set then (g, [], .ok ())
      else match process g with
        | (g, .error e) => (g, [], .error e)
        | (g, .ok ()) =>
          let set := set.insert env.ledger.signer.address (env.ledger.signer.gossiper h)
          (g, (g.others c set).map fun a => (a, wrap (toSlice c.slice set)), .ok ())

/-- The flash memory in front; its error is only logged. -/
def unlessSeen (hash : Bytes) (answer : GossipNode → GossipNode × List Forward × Except GossipError Unit) :
    GossipNode × List Forward × Except GossipError Unit :=
  match g.flash.hasHash c.flashGet c.flashSet hash with
  | (flash, .ok true) => ({ g with flash }, [], .ok ())
  | (flash, _) => answer { g with flash }

/-- `sendToAccountant`, and what `GossipVrx` does when the leaf is added. -/
def processVrx (vertex : ProtoVertex) : GossipNode × Except GossipError Unit :=
  match vertex.transaction with
  | none => (g, .error .errFailedToProcessGossip)
  | some _ =>
    match mapProtoVertexToAccountantVertex vertex with
    | .error e => (g, .error (.wire e))
    | .ok v =>
      match g.book.addLeaf env.ledger v c.probe c.ledger with
      | (book, .error e) =>
        ({ g with book }, .error (if .panicked ∈ e then .wire .panicked else .errFailedToProcessGossip))
      | (book, .ok ()) =>
        -- the error of the removal is only logged
        let cache := (removeAwaitedTransaction env.trxCodec c.cache g.cache v.transaction.hash
          v.transaction.receiverAddress).1
        ({ g with book, cache, tasks := g.tasks ++ [Service.forgetBoth v.transaction] }, .ok ())

def gossipVrx : Option VrxMsgGossip → GossipNode × List Forward × Except GossipError Unit
  | none => (g, [], .error .errNilVrxMsgGossip)
  | some ⟨none, _⟩ => (g, [], .error .errNilVertex)
  | some ⟨some vertex, gossipers⟩ =>
    g.unlessSeen c vertex.hash fun g => g.spread env c vertex.hash gossipers (fun g => g.processVrx env c vertex)
      fun gossipers => .vrx ⟨some vertex, gossipers⟩

/-- What `GossipTrx` does with a transaction: the error of the save is only logged. -/
def processTrx (p : ProtoTransaction) : GossipNode × Except GossipError Unit :=
  match protoTrxToTrx (some p) with
  | .error .panicked => (g, .error (.wire .panicked))
  | .error _ => (g, .error .errFailedToProcessGossip)
  | .ok trx =>
    match trx.checkIssuer env.ledger.verifier with
    | .panicked => (g, .error (.wire .panicked))
    | .refused => (g, .error .errFailedToProcessGossip)
    | .accepted => ({ g with cache := (saveAwaitedTransaction env.trxCodec c.cache g.cache trx).1 }, .ok ())

def gossipTrx : Option TrxMsgGossip → GossipNode × List Forward × Except GossipError Unit
  | none => (g, [], .error .errNilTrxMsgGossip)
  | some ⟨none, _⟩ => (g, [], .error .errNilTrx)
  | some ⟨some trx, gossipers⟩ =>
    g.unlessSeen c trx.hash fun g => g.spread env c trx.hash gossipers (fun g => g.processTrx env c trx)
      fun gossipers => .trx ⟨some trx, gossipers⟩

/-- A handler in its process: the node afterwards, and what it sends. -/
def inProcess (handler : GossipNode → GossipNode × List Forward × Except GossipError Unit) :
    GossipNode × List Forward :=
  if g.down then (g, [])
  else match handler g with
    | (g, _, .error (.wire .panicked)) => ({ g with down := true }, [])
    | (g, forwards, _) => (g, forwards)

/-- One round of `runVertexGossipProcess`: a vertex from the pipe goes to every connected node. The pipe is
    filled by goroutines, so any of its entries may come first. -/
def runVertexGossip (i : ℕ) : GossipNode × List Forward :=
  match g.pipe.vrxCh[i]? with
  | none => (g, [])
  | some vrx =>
    if g.down then (g, [])
    else
      let gossiper := env.ledger.signer.gossiper vrx.hash
      let set : Gossipers := (∅ : Gossipers).insert env.ledger.signer.address gossiper
      ({ g with pipe := { g.pipe with vrxCh := g.pipe.vrxCh.eraseIdx i } },
        (g.others c set).map fun a => (a, .vrx ⟨some (mapAccountantVertexToProtoVertex vrx), [gossiper]⟩))

/-- One round of `runTransactionGossipProcess`; the hash of the transaction is made an array. -/
def runTransactionGossip (i : ℕ) : GossipNode × List Forward :=
  match g.pipe.trxCh[i]? with
  | none => (g, [])
  | some tx =>
    if g.down then (g, [])
    else
      let taken := { g with pipe := { g.pipe with trxCh := g.pipe.trxCh.eraseIdx i } }
      match Hash.ofSlice tx.hash with
      | .error _ => ({ taken with down := true }, [])
      | .ok hash =>
        let gossiper := env.ledger.signer.gossiper hash
        let set : Gossipers := (∅ : Gossipers).insert env.ledger.signer.address gossiper
        (taken, (g.others c set).map fun a => (a, .trx ⟨some tx, [gossiper]⟩))

def receive : GossipMsg → GossipNode × List Forward
  | .vrx vg => g.inProcess fun g => g.gossipVrx env c (some vg)
  | .trx tg => g.inProcess fun g => g.gossipTrx env c (some tg)

end GossipNode

end Computantis
