import Computantis.Model.Gossip
import Computantis.Schemes.Relay

/-! @model network | name:Nodes that gossip | family:distributed |
    source:src/gossip/gossip.go, src/pipe/pipe.go

    Any number of nodes, each with its server, and the messages between them. Messages are delivered in any
    order, or never; connections come and go; a ledger changes in ways of its own; flash memories forget; nodes
    start anew; and anybody may send anything. A packet remembers the nodes that it has come through, with the
    verified gossipers that each of them found. No node sees that: it is there to speak about chains. -/

namespace Computantis

open Schemes

/-! ### What a message is about -/

inductive Item where
  | vrx (vertex : ProtoVertex)
  | trx (tx : ProtoTransaction)
  deriving DecidableEq

def Item.hash : Item → Bytes
  | .vrx vertex => vertex.hash
  | .trx tx => tx.hash

namespace GossipMsg

/-- A message without its item is answered with an error at once. -/
def item : GossipMsg → Option Item
  | .vrx vg => vg.vertex.map .vrx
  | .trx tg => tg.trx.map .trx

def gossipers : GossipMsg → List ProtoGossiper
  | .vrx vg => vg.gossipers
  | .trx tg => tg.gossipers

end GossipMsg

/-- The addresses that `verifyGossipers` returns for the item. -/
def Item.verified (v : Verifier) (item : Item) (gossipers : List ProtoGossiper) : Finset Address :=
  match Hash.ofSlice item.hash with
  | .error _ => ∅
  | .ok hash =>
    match verifyGossipers v hash gossipers ∅ with
    | .error _ => ∅
    | .ok set => set.keys.toFinset

/-! ### The network -/

/-- The nodes that belong to the network, and the server of each. -/
structure Cluster where
  members : Finset Address
  env : Address → ServerEnv

structure Packet where
  dest : Address
  msg : GossipMsg
  route : List (Hop Address)

/-- A node has been given the item by the last of the nodes before it, and has not signed it. -/
structure Trail where
  item : Item
  hops : List (Hop Address)

structure Network where
  node : Address → GossipNode
  transit : List Packet
  handled : List Trail

namespace Network

inductive Event where
  | serve (a : Address) (e : Service.Event)
  | tend (a : Address) (book : Book)
  | connect (a : Address) (nodes : List Address)
  | restart (a : Address) (book : Book)
  | sendVrx (a : Address) (i : ℕ) (c : GossipMeets)
  | sendTrx (a : Address) (i : ℕ) (c : GossipMeets)
  | deliver (i : ℕ) (c : GossipMeets)
  | lose (i : ℕ)
  | inject (dest : Address) (msg : GossipMsg)

variable (C : Cluster) (n : Network)

def setNode (a : Address) (g : GossipNode) : Network := { n with node := Function.update n.node a g }

/-- What a node sends goes on its way with the route so far. -/
def dispatch (forwards : List Forward) (route : List (Hop Address)) : List Packet :=
  forwards.map fun f => ⟨f.1, f.2, route⟩

/-- A node sends what it has made itself. -/
def originate (a : Address) (round : GossipNode × List Forward) : Network :=
  { n.setNode a round.1 with transit := n.transit ++ dispatch round.2 [⟨a, ∅⟩] }

/-- A member gets a packet about an item. The trail is kept whatever the flash memory says. -/
def arrive (c : GossipMeets) (p : Packet) (item : Item) : Network :=
  let seen := item.verified (C.env p.dest).ledger.verifier p.msg.gossipers
  let route := p.route ++ [⟨p.dest, seen⟩]
  let received := (n.node p.dest).receive (C.env p.dest) c p.msg
  { n.setNode p.dest received.1 with
    transit := n.transit ++ dispatch received.2 route
    handled := if p.dest ∈ seen then n.handled else n.handled ++ [⟨item, route⟩] }

def deliver (i : ℕ) (c : GossipMeets) : Network :=
  match n.transit[i]? with
  | none => n
  | some p =>
    let taken := { n with transit := n.transit.eraseIdx i }
    match p.msg.item with
    | none => taken
    | some item => if p.dest ∈ C.members then taken.arrive C c p item else taken

def step : Event → Network
  | .serve a e => n.setNode a { n.node a with toService := ((n.node a).toService.step (C.env a) e).1 }
  | .tend a book => n.setNode a { n.node a with book }
  | .connect a nodes => n.setNode a { n.node a with nodes }
  | .restart a book => n.setNode a ⟨⟨book, ∅, ∅, ⟨[], [], false⟩, [], false⟩, []⟩
  | .sendVrx a i c => if a ∈ C.members then n.originate a ((n.node a).runVertexGossip (C.env a) c i) else n
  | .sendTrx a i c => if a ∈ C.members then n.originate a ((n.node a).runTransactionGossip (C.env a) c i) else n
  | .deliver i c => n.deliver C i c
  | .lose i => { n with transit := n.transit.eraseIdx i }
  | .inject dest msg => { n with transit := n.transit ++ [⟨dest, msg, []⟩] }

end Network

end Computantis
