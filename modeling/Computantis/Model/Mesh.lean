import Computantis.Model.Endpoints
import Computantis.Model.Network

/-! @model mesh | name:Vertices that spread | family:distributed |
    source:src/gossip/gossip.go, src/accountant/accountant.go, src/accountant/replier.go

    Nodes with connections that stay as they are. Vertices are made at the nodes and gossiped, in any order
    but without loss. A vertex that comes before one of its parents is parked in the replier, and the parents
    are fetched from the connected nodes; from the replier it goes to the ledger again. Neither a vertex that
    was fetched nor one that was parked is sent on.

        CreateLeaf ──▶ pipe ──▶ transit ──▶ AddLeaf ──▶ transit
                                             │ a parent is missing
                                             ├──▶ replier ──tick──▶ AddLeaf
                                             └──▶ fetch ──────────▶ AddLeaf

    What has been made and whether a vertex has been refused is kept to speak about it; no node sees it. A
    vertex over which `Verify` panics counts as refused, and the node is down. -/

namespace Computantis

open Schemes

def maxVertexParentProcessingCount : ℕ := 250

/-- The parents that `sendToAccountant` and `processLackingParent` go and fetch after an `AddLeaf`. -/
def lackingParents (v : Vertex) : Except Err Unit → List Hash
  | .ok () => []
  | .error e =>
    if .errParentDoesNotExists ∈ e then
      if v.leftParentHash = v.rightParentHash then [v.leftParentHash]
      else [v.leftParentHash, v.rightParentHash]
    else []

/-! ### Refusals -/

namespace Book

variable (b : Book) (v : Vertex)

/-- A vertex of the graph is gone after the call: it has not passed validation. -/
def discards (b' : Book) : Bool := b.dag.graph.nodes.keys.any fun k => k ∉ b'.dag.graph.nodes

/-- The vertex is not there after the call, and it is not for want of a parent: something else is checked
    before the parents are looked for, or they are all there. -/
def turnsAway (checks : Except Err Unit) (answer : Book × Except Err Unit) : Bool :=
  match answer.2 with
  | .ok () => false
  | .error _ => v.hash ∉ answer.1.dag.graph.nodes &&
      (!checks.isOk || v.parentHashes.all fun k => k ∈ b.dag.graph.nodes)

/-- The call refuses its vertex, discards another or panics over one. -/
def refuses (checks : Except Err Unit) (answer : Book × Except Err Unit) : Bool :=
  b.discards answer.1 || b.turnsAway v checks answer || crashed answer.2

/-- What `AddLeaf` checks before it takes the lock. -/
def checkLeaf (env : Env) (faults : Faults) : Except Err Unit := do
  b.addLeafGuard v
  b.addLeafChecks env v faults

end Book

/-! ### The handler -/

/-- The vertex that `GossipVrx` hands to `AddLeaf`, if it gets there. -/
def GossipNode.handed (env : ServerEnv) (c : GossipMeets) (g : GossipNode) : GossipMsg → Option Vertex
  | .trx _ => none
  | .vrx ⟨none, _⟩ => none
  | .vrx ⟨some vertex, gossipers⟩ =>
    if g.down then none
    else match g.flash.hasHash c.flashGet c.flashSet vertex.hash with
      | (_, .ok true) => none
      | _ =>
        match Hash.ofSlice vertex.hash with
        | .error _ => none
        | .ok h =>
          match verifyGossipers env.ledger.verifier h gossipers ∅ with
          | .error _ => none
          | .ok set =>
            if env.ledger.signer.address ∈ set then none
            else (mapProtoVertexToAccountantVertex vertex).toOption

/-! ### The mesh -/

structure Mesh where
  node : Address → GossipNode
  transit : List Forward
  fetches : List (Address × Hash)
  created : List Vertex
  refused : Bool

namespace Mesh

inductive Event where
  | create (a : Address) (trx : Transaction) (w : Circumstance)
  | send (a : Address) (i : ℕ) (c : GossipMeets)
  | deliver (i : ℕ) (c : GossipMeets)
  | tick (a : Address)
  | replay (a : Address) (probe : Hash → Probe) (faults : Faults)
  | fetch (i : ℕ) (silent : List Address) (c : GossipMeets)
  | giveUp (i : ℕ)
  | forget (a : Address) (key : Bytes)

variable (C : Cluster) (n : Mesh)

def setNode (a : Address) (g : GossipNode) : Mesh := { n with node := Function.update n.node a g }

/-- A handler of the notary from `CreateLeaf` on. -/
def create (a : Address) (trx : Transaction) (w : Circumstance) : Mesh :=
  let g := n.node a
  let made := g.book.createLeaf (C.env a).ledger trx w.first w.second w.now w.ledger
  let served := (g.toService.createLeaf (C.env a) w trx (Service.forgetBoth trx)).1
  let after := { n with refused := n.refused || g.book.discards made.1 }
  if g.down then n
  else match made.2 with
    | .done vrx => { after.setNode a { g with toService := served } with created := n.created ++ [vrx] }
    | .failed e =>
      { after.setNode a { g with toService := { served with down := .panicked ∈ e } } with
        refused := after.refused || .panicked ∈ e }
    | .panicked => after.setNode a { g with toService := { served with down := true } }

def send (a : Address) (i : ℕ) (c : GossipMeets) : Mesh :=
  let round := (n.node a).runVertexGossip (C.env a) c i
  { n.setNode a round.1 with transit := n.transit ++ round.2 }

/-- What an `AddLeaf` of the gossip leaves behind: the fetches that it starts, and whether it refuses. -/
def account (a : Address) (b : Book) (v : Vertex) (probe : Hash → Probe) (faults : Faults) : Mesh :=
  let answer := b.addLeaf (C.env a).ledger v probe faults
  { n with
    fetches := n.fetches ++ (lackingParents v answer.2).map fun h => (a, h)
    refused := n.refused || b.refuses v (b.checkLeaf v (C.env a).ledger faults) answer }

def deliver (i : ℕ) (c : GossipMeets) : Mesh :=
  match n.transit[i]? with
  | none => n
  | some (dest, msg) =>
    let g := n.node dest
    let received := g.receive (C.env dest) c msg
    let after := { n.setNode dest received.1 with transit := n.transit.eraseIdx i ++ received.2 }
    match g.handed (C.env dest) c msg with
    | none => after
    | some v => after.account C dest g.book v c.probe c.ledger

/-- The subscriber of the replier: what comes is added, an error is only logged. -/
def replay (a : Address) (probe : Hash → Probe) (faults : Faults) : Mesh :=
  let g := n.node a
  match g.down, g.book.repeater.pub with
  | false, m :: pub =>
    let book := { g.book with repeater := { g.book.repeater with pub } }
    let answer := book.addLeafMemorized (C.env a).ledger m probe faults
    { n.setNode a { g with book := answer.1, down := crashed answer.2 } with
      refused := n.refused || book.refuses m.vrx (book.addLeafChecks (C.env a).ledger m.vrx faults) answer }
  | _, _ => n

/-- What a connected node says to `GetVertex`; those that are `silent` cannot be reached. -/
def getVertexFrom (a : Address) (h : Hash) (silent : List Address) (b : Address) : Option ProtoVertex :=
  let signed := (C.env a).ledger.signer.sign h.bytes
  if (n.node b).down ∨ b ∈ silent then none
  else ((n.node b).getVertex (C.env b) false
    (some ⟨(C.env a).ledger.signer.address, h.bytes, signed.1.bytes, signed.2⟩)).toOption

/-- `processLackingParent`: the first connected node that has the vertex is the last one asked. -/
def fetch (i : ℕ) (silent : List Address) (c : GossipMeets) : Mesh :=
  match n.fetches[i]? with
  | none => n
  | some (a, h) =>
    let g := n.node a
    let after := { n with fetches := n.fetches.eraseIdx i }
    if g.down then after
    else match (enumerate c.order g.nodes).findSome? (n.getVertexFrom C a h silent) with
      | none => after
      | some p =>
        match mapProtoVertexToAccountantVertex p with
        | .error _ => after.setNode a { g with down := true }
        | .ok v =>
          let answer := g.book.addLeaf (C.env a).ledger v c.probe c.ledger
          (after.setNode a { g with book := answer.1, down := crashed answer.2 }).account C a g.book v c.probe c.ledger

/-- A fetch gives up when there are too many of its node. -/
def giveUp (i : ℕ) : Mesh :=
  match n.fetches[i]? with
  | none => n
  | some (a, _) =>
    if maxVertexParentProcessingCount < (n.fetches.filter fun f => f.1 = a).length then
      { n with fetches := n.fetches.eraseIdx i }
    else n

/-- Only members of the cluster do anything. -/
def step : Event → Mesh
  | .create a trx w => if a ∈ C.members then n.create C a trx w else n
  | .send a i c => if a ∈ C.members then n.send C a i c else n
  | .deliver i c => n.deliver C i c
  | .tick a =>
    let g := n.node a
    if a ∈ C.members then n.setNode a { g with book := { g.book with repeater := g.book.repeater.tick } } else n
  | .replay a probe faults => if a ∈ C.members then n.replay C a probe faults else n
  | .fetch i silent c => n.fetch C i silent c
  | .giveUp i => n.giveUp i
  | .forget a key =>
    let g := n.node a
    if a ∈ C.members then n.setNode a { g with flash := g.flash.erase key } else n

end Mesh

end Computantis
