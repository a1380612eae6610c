import Computantis.Model.Peers

/-! @model endpoints | name:Messages as they come from the wire | family:data |
    source:src/gossip/gossip.go, src/notaryserver/notary.server.go, src/transformers/transaction.go

    A message of the wire is a pointer, its sub-messages and the elements of its lists are pointers, and every
    byte field has the length that the sender gave it. The handlers of the gossip take such messages as they
    come: a gossiper of a list may be missing, and so may the message itself. Where all of them are there, the
    handlers are those of `Model/Gossip`. -/

namespace Computantis

open Schemes

/-! ### Gossip with missing gossipers -/

structure WireVrxMsg where
  vertex : Option ProtoVertex
  gossipers : List (Option ProtoGossiper)
  deriving DecidableEq

structure WireTrxMsg where
  trx : Option ProtoTransaction
  gossipers : List (Option ProtoGossiper)
  deriving DecidableEq

/-- The loop of `verifyGossipers` over pointers: a missing member panics. -/
def verifyWireGossipers (v : Verifier) (hash : Hash) :
    List (Option ProtoGossiper) → Gossipers → Except WireError Gossipers
  | [], m => .ok m
  | none :: _, _ => .error .panicked
  | some member :: rest, m =>
    match Hash.ofSlice member.digest with
    | .error e => .error e
    | .ok digest =>
      match v.check (createGossiperMessageToSign member.address hash) member.signature digest member.address with
      | .accepted => verifyWireGossipers v hash rest (m.insert member.address member)
      | .refused => verifyWireGossipers v hash rest m
      | .panicked => .error .panicked

namespace GossipNode

variable (env : ServerEnv) (c : GossipMeets) (g : GossipNode)

/-- The two handlers from `verifyGossipers` on. -/
def spreadWire (hash : Bytes) (gossipers : List (Option ProtoGossiper))
    (process : GossipNode → GossipNode × Except GossipError Unit) (wrap : List ProtoGossiper → GossipMsg) :
    GossipNode × List Forward × Except GossipError Unit :=
  match Hash.ofSlice hash with
  | .error e => (g, [], .error (.wire e))
  | .ok h =>
    match verifyWireGossipers env.ledger.verifier h gossipers ∅ with
    | .error e => (g, [], .error (.wire e))
    | .ok set =>
      if env.ledger.signer.address ∈ set then (g, [], .ok ())
      else match process g with
        | (g, .error e) => (g, [], .error e)
        | (g, .ok ()) =>
          let set := set.insert env.ledger.signer.address (env.ledger.signer.gossiper h)
          (g, (g.others c set).map fun a => (a, wrap (toSlice c.slice set)), .ok ())

def gossipWireVrx : Option WireVrxMsg → GossipNode × List Forward × Except GossipError Unit
  | none => (g, [], .error .errNilVrxMsgGossip)
  | some ⟨none, _⟩ => (g, [], .error .errNilVertex)
  | some ⟨some vertex, gossipers⟩ =>
    g.unlessSeen c vertex.hash fun g => g.spreadWire env c vertex.hash gossipers
      (fun g => g.processVrx env c vertex) fun gossipers => .vrx ⟨some vertex, gossipers⟩

def gossipWireTrx : Option WireTrxMsg → GossipNode × List Forward × Except GossipError Unit
  | none => (g, [], .error .errNilTrxMsgGossip)
  | some ⟨none, _⟩ => (g, [], .error .errNilTrx)
  | some ⟨some trx, gossipers⟩ =>
    g.unlessSeen c trx.hash fun g => g.spreadWire env c trx.hash gossipers
      (fun g => g.processTrx env c trx) fun gossipers => .trx ⟨some trx, gossipers⟩

end GossipNode

/-! ### Reading a vertex -/

inductive GetVertexError where
  | errInvalidSignature
  | errVertexHashNotfound
  | wire (e : WireError)
  deriving DecidableEq, Repr

/-- `GetVertex`; the data of the request is the hash of the vertex. -/
def GossipNode.getVertex (env : ServerEnv) (g : GossipNode) (readFails : Bool) :
    Option SignedHash → Except GetVertexError ProtoVertex
  | none => .error (.wire .panicked)
  | some req =>
    match req.signed env.ledger.verifier with
    | .error e => .error (.wire e)
    | .ok false => .error .errInvalidSignature
    | .ok true =>
      match Hash.ofSlice req.data with
      | .error e => .error (.wire e)
      | .ok hash =>
        match g.book.readVertex env.ledger.codec hash readFails with
        | .error _ => .error .errVertexHashNotfound
        | .ok vrx => .ok (mapAccountantVertexToProtoVertex vrx)

/-! ### Calls -/

/-- The requests of a peer as pointers. -/
inductive WirePeerRequest where
  | announce (cd : Option ConnectionData) (dials : Bool)
  | discover (cd : Option ConnectionData) (dials : Bool) (now : UInt64) (order : List Address)
  deriving DecidableEq

def PeerTable.handleWire (env : PeerEnv) (s : PeerTable) :
    WirePeerRequest → PeerTable × Except PeerError PeerReply
  | .announce none _ => (s, .error (.wire .panicked))
  | .announce (some cd) dials => s.announce env cd dials
  | .discover none _ _ _ => (s, .error (.wire .panicked))
  | .discover (some cd) dials now order => s.discover env cd dials now order

/-- `mapProtoVertexToAccountantVertex` of a pointer. -/
def mapWireVertex : Option ProtoVertex → Except WireError Vertex
  | none => .error .panicked
  | some vg => mapProtoVertexToAccountantVertex vg

/-- The handlers and the conversions, each with a message of the wire. -/
inductive WireCall where
  | propose (req : Option ProtoTransaction)
  | confirm (req : Option ProtoTransaction)
  | reject (req : Option SignedHash)
  | gossipVrx (vg : Option WireVrxMsg)
  | gossipTrx (tg : Option WireTrxMsg)
  | peer (req : WirePeerRequest)
  | getVertex (req : Option SignedHash)
  | protoTrxToTrx (prTrx : Option ProtoTransaction)
  | mapProtoVertex (vg : Option ProtoVertex)
  | verifyGossipers (hash : Hash) (s : List (Option ProtoGossiper))

/-- The node that takes the calls: what it is built with, what a request to the notary and a message of the
    gossip meet, and its state. -/
structure WireHost where
  env : ServerEnv
  peerEnv : PeerEnv
  request : Circumstance
  meets : GossipMeets
  readFails : Bool
  node : GossipNode
  table : PeerTable

/-- The call ends in a panic: it makes an array of a short slice, reads a missing message or a nil leaf, or
    calls `Verify` over an address at which that panics. -/
def WireHost.Panics (s : WireHost) : WireCall → Prop
  | .propose req => (s.node.toService.propose s.env s.request req).2 = .error (.wire .panicked)
  | .confirm req => (s.node.toService.confirm s.env s.request req).2 = .error (.wire .panicked)
  | .reject req => (s.node.toService.reject s.env s.request req).2 = .error (.wire .panicked)
  | .gossipVrx vg => (s.node.gossipWireVrx s.env s.meets vg).2.2 = .error (.wire .panicked)
  | .gossipTrx tg => (s.node.gossipWireTrx s.env s.meets tg).2.2 = .error (.wire .panicked)
  | .peer req => (s.table.handleWire s.peerEnv req).2 = .error (.wire .panicked)
  | .getVertex req => s.node.getVertex s.env s.readFails req = .error (.wire .panicked)
  | .protoTrxToTrx prTrx => Computantis.protoTrxToTrx prTrx = .error .panicked
  | .mapProtoVertex vg => mapWireVertex vg = .error .panicked
  | .verifyGossipers hash gossipers => verifyWireGossipers s.env.ledger.verifier hash gossipers ∅ = .error .panicked

end Computantis
