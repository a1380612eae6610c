import Computantis.Model.Peers

/-! @model meeting | name:Nodes that join | family:distributed | source:src/gossip/gossip.go

    A node that starts asks the genesis node for the nodes that it knows, which makes the genesis node enter
    the newcomer into its table, and then goes through the answer: it connects to each node and announces itself
    there. All the way through the answer it holds the lock of its own table, so a node that announces itself to
    it in the meantime has to wait. Any number of nodes do this at the same time.

        idle ──Discover──▶ answered ──lock──▶ looping ──connect──▶ calling ──Announce──▶ looping ──▶ joined

    Nodes may start anew at any point. Nobody sets a deadline for a call. -/

namespace Computantis

open Schemes

/-- What a node goes through: who has answered, its own connection data, and the rest of the answer. -/
structure Joining where
  signerPublicAddress : Address
  own : ConnectionData
  rest : List ConnectionData
  deriving DecidableEq

/-- How far a node is with `updateNodesConnectionsFromGensisNode`. -/
inductive Stage where
  | idle
  | answered (j : Joining)
  | looping (j : Joining)
  | calling (n : ConnectionData) (j : Joining)
  | joined
  | failed
  deriving DecidableEq

/-- The lock of the table is taken before the loop and given back after it. -/
def Stage.locked : Stage → Bool
  | .looping _ => true
  | .calling _ _ => true
  | _ => false

/-- The handler gets as far as the lock: `Announce` takes it before it dials, `Discover` after that. -/
def PeerRequest.reachesLock (v : Verifier) (r : PeerRequest) : Bool :=
  match r.data.validate v with
  | .ok true => r.isAnnounce || r.dials
  | _ => false

/-- The nodes, what each one is configured with, and who listens at a URL. -/
structure Venue where
  members : Finset Address
  peer : Address → PeerEnv
  genesisURL : Address → Bytes
  host : Bytes → Option Address

structure Meeting where
  table : Address → PeerTable
  stage : Address → Stage

namespace Meeting

/-- An event is one step of one node. `dials` is the node's own dialling, `back` that of the node it calls. -/
inductive Event where
  | discover (a : Address) (dials back : Bool) (now later : UInt64) (order : List Address)
  | lock (a : Address)
  | advance (a : Address) (dials : Bool)
  | announce (a : Address) (back : Bool)
  | restart (a : Address)
  deriving DecidableEq

def Event.node : Event → Address
  | .discover a .. => a
  | .lock a => a
  | .advance a _ => a
  | .announce a _ => a
  | .restart a => a

variable (V : Venue) (s : Meeting)

def opened : Meeting := ⟨fun _ => PeerTable.fresh, fun _ => .idle⟩

def setStage (a : Address) (stage : Stage) : Meeting := { s with stage := Function.update s.stage a stage }

def setTable (a : Address) (table : PeerTable) : Meeting := { s with table := Function.update s.table a table }

@[simp] theorem setTable_self (a : Address) (table : PeerTable) : (s.setTable a table).table a = table :=
  Function.update_self ..

@[simp] theorem setStage_self (a : Address) (stage : Stage) : (s.setStage a stage).stage a = stage :=
  Function.update_self ..

/-- The process of the node ends. -/
def fail (a : Address) : Meeting := (s.setTable a { s.table a with down := true }).setStage a .failed

/-- A call to the node at `b`; there is no answer as long as the handler waits for the lock. -/
def call (b : Address) (r : PeerRequest) : Option (Meeting × Except PeerError PeerReply) :=
  if (s.table b).down then some (s, .error .dialFailed)
  else if (s.stage b).locked ∧ r.reachesLock (V.peer b).verifier then none
  else some (s.setTable b ((s.table b).step (V.peer b) r), ((s.table b).handle (V.peer b) r).2)

/-- The connection data that the node signs for itself. -/
def own (a : Address) (now : UInt64) : ConnectionData :=
  PeerTable.connection (V.peer a) now (V.peer a).signer.address (V.peer a).url

/-- Up to the answer of the genesis node. Without a URL for it the node runs as the genesis node. -/
def discover (a : Address) (dials back : Bool) (now later : UInt64) (order : List Address) : Meeting :=
  if V.genesisURL a = [] then s.setStage a .joined
  else if dials = false then s.fail a
  else match V.host (V.genesisURL a) with
    | none => s.fail a
    | some g =>
      match s.call V g (.discover (own V a now) back later order) with
      | none => s
      | some (s, .ok (.connectedNodes signer connections)) =>
        s.setStage a (.answered ⟨signer, own V a now, connections⟩)
      | some (s, _) => s.fail a

/-- One turn of the loop, up to the call of `Announce`. -/
def advance (a : Address) (dials : Bool) (j : Joining) : Meeting :=
  match j.rest with
  | [] => s.setStage a .joined
  | n :: rest =>
    let next := { j with rest }
    if n.publicAddress = (V.peer a).signer.address ∨ n.url = (V.peer a).url then s.setStage a (.looping next)
    else match Hash.ofSlice n.digest with
      | .error _ => s.fail a
      | .ok digest =>
        let verdict := validateSignature (V.peer a).verifier j.signerPublicAddress n.publicAddress n.url n.createdAt
          n.signature digest
        if verdict = .panicked then s.fail a
        else if verdict = .refused ∨ dials = false then s.setStage a (.looping next)
        else
          let entered := s.setTable a
            { s.table a with nodes := (s.table a).nodes.insert n.publicAddress n.url }
          if n.url = V.genesisURL a then entered.setStage a (.looping next) else entered.setStage a (.calling n next)

/-- The call of `Announce`; its error is only logged. -/
def announce (a : Address) (back : Bool) (n : ConnectionData) (j : Joining) : Meeting :=
  match V.host n.url with
  | none => s.setStage a (.looping j)
  | some b =>
    match s.call V b (.announce j.own back) with
    | none => s
    | some (s, _) => s.setStage a (.looping j)

/-- Only members do anything, and only what their stage allows. -/
def act : Event → Meeting
  | .discover a dials back now later order =>
    if s.stage a = .idle then s.discover V a dials back now later order else s
  | .lock a =>
    match s.stage a with
    | .answered j => s.setStage a (.looping j)
    | _ => s
  | .advance a dials =>
    match s.stage a with
    | .looping j => s.advance V a dials j
    | _ => s
  | .announce a back =>
    match s.stage a with
    | .calling n j => s.announce V a back n j
    | _ => s
  | .restart a => (s.setTable a PeerTable.fresh).setStage a .idle

def step (e : Event) : Meeting := if e.node ∈ V.members then s.act V e else s

end Meeting

end Computantis
