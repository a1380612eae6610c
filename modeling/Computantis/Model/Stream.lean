import Computantis.Model.Ledger

/-! @model stream | name:Streaming and loading the graph | family:algorithm |
    source:src/accountant/accountant.go

    `StreamDAG` sends every leaf followed by those of its ancestors that were not sent before.
    `LoadDag` reads such a stream into a book that has no graph yet: first all vertices, then the edges
    that the vertices declare, then the genesis address from a root. It verifies nothing. The deferred
    calls reset the counters on every way out but the first. -/

namespace Computantis

open Schemes

/-! ### Streaming -/

/-- The orders in which leaves and ancestors are delivered, and the look at the context that finds it
    cancelled. -/
structure StreamSchedule where
  leaves : List Hash
  walk : Hash → List Hash
  cancelAt : Option ℕ

/-- What a stream has sent and visited, how often it has looked at its context, and whether it has
    left the loops. -/
structure Streaming where
  sent : List Vertex
  visited : List Hash
  looks : ℕ
  left : Bool

def Streaming.begin : Streaming := ⟨[], [], 0, false⟩

namespace Dag

/-- The inner loop of `StreamDAG`. -/
def streamAncestors (d : Dag) (cancelAt : Option ℕ) : List Hash → Streaming → Streaming
  | [], s => s
  | ancestorID :: rest, s =>
    if cancelAt = some s.looks then { s with left := true }
    else if ancestorID ∈ s.visited then streamAncestors d cancelAt rest { s with looks := s.looks + 1 }
    else match d.getVertex ancestorID with
      | none => { s with left := true }
      | some vrx => streamAncestors d cancelAt rest
          { s with sent := s.sent ++ [vrx], visited := ancestorID :: s.visited, looks := s.looks + 1 }

/-- The outer loop of `StreamDAG`. -/
def streamLeaves (d : Dag) (sched : StreamSchedule) : List Hash → Streaming → Streaming
  | [], s => s
  | l :: rest, s =>
    if sched.cancelAt = some s.looks then { s with left := true }
    else match d.getVertex l with
      | none => { s with left := true }
      | some vrx =>
        let s := d.streamAncestors sched.cancelAt (arrange (sched.walk l) (d.graph.ancestors l))
          { s with sent := s.sent ++ [vrx], looks := s.looks + 1 }
        if s.left then s else streamLeaves d sched rest s

/-- The vertices that come out of the channel of `StreamDAG`. -/
def stream (d : Dag) (sched : StreamSchedule) : List Vertex :=
  (d.streamLeaves sched (enumerate sched.leaves d.graph.leaves) .begin).sent

end Dag

/-! ### Loading -/

/-- The orders in which vertices and roots are enumerated, and which saves fail. -/
structure LoadSchedule where
  vertices : List Hash
  roots : List Hash
  saveFails : Hash → Bool

/-- What the second loop of `LoadDag` carries. -/
structure Loading where
  dag : Dag
  maxWeight : UInt64
  genesisCandidateReceived : Bool

/-- One vertex of the second loop; an error is a cancellation. -/
def Loading.connect (s : Loading) (vrx : Vertex) : Except (Loading × Err) Loading :=
  let own := decide (vrx.transaction.issuerAddress = vrx.signerPublicAddress)
  if own && s.genesisCandidateReceived then .error (s, [.errUnexpected])
  else
    let s := { s with genesisCandidateReceived := own || s.genesisCandidateReceived }
    if vrx.transaction.isEmpty then .error (s, [.errUnexpected])
    else
      let maxWeight := if vrx.weight > s.maxWeight then vrx.weight else s.maxWeight
      match Book.addEdges vrx.hash vrx.parentHashes Hash.zero s.dag with
      | (dag, false) => .error ({ s with dag, maxWeight }, [.dag])
      | (dag, true) => .ok { s with dag, maxWeight }

/-- The second loop of `LoadDag`. -/
def Loading.connectAll : List Vertex → Loading → Except (Loading × Err) Loading
  | [], s => .ok s
  | vrx :: rest, s => match s.connect vrx with
    | .error e => .error e
    | .ok s => connectAll rest s

namespace Book

/-- The first loop of `LoadDag`; a nil vertex ends it. -/
def loadVertices (saveFails : Hash → Bool) : List (Option Vertex) → Book → Book × Option Err
  | [], b => (b, none)
  | none :: _, b => (b, none)
  | some vrx :: rest, b =>
    match b.saveTrxInVertex vrx.transaction.hash vrx.hash (saveFails vrx.transaction.hash) with
    | .error _ => (b, some [.errLeafRejected])
    | .ok b =>
      match b.dag.addVertexByID vrx with
      | none => (b, some [.dag])
      | some dag => loadVertices saveFails rest { b with dag }

/-- `LoadDag` under the lock: the book and the cause of a cancellation. -/
def loadLocked (b : Book) (sched : LoadSchedule) (stream : List (Option Vertex)) : Book × Option Err :=
  match b.loadVertices sched.saveFails stream with
  | (b, some e) => (b, some e)
  | (b, none) =>
    match Loading.connectAll
        ((enumerate sched.vertices b.dag.graph.nodes.keys).filterMap b.dag.getVertex)
        ⟨b.dag, 0, false⟩ with
    | .error (s, e) => ({ b with dag := s.dag }, some e)
    | .ok s =>
      match (enumerate sched.roots s.dag.graph.roots).filterMap s.dag.getVertex with
      | [] => ({ b with dag := s.dag }, some [.errUnexpected])
      | vrx :: _ =>
        ({ b with dag := s.dag, genesisPublicAddress := vrx.transaction.issuerAddress, dagLoaded := true,
                  nextWeightTruncate := b.nextWeightTruncate + s.maxWeight }, none)

def loadDag (b : Book) (sched : LoadSchedule) (stream : List (Option Vertex)) : Book × Option Err :=
  if b.dagLoaded then (b, some [.errDagIsLoaded])
  else
    let (b, cause) := b.loadLocked sched stream
    ({ b.updateWeightAndThroughput initialThroughput with throughput := initialThroughput }, cause)

end Book

end Computantis
