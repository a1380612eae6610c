import Computantis.Schemes.Digraph
import Computantis.Model.Vertex

/-! @model book | name:State of an accounting book | family:state |
    source:src/accountant/accountant.go, storage.go, replier.go

    The graph library, the three key-value stores, the replier buffer and the record that holds
    them. `verticesDB` keeps vertices under their hashes and funds under wallet addresses in one key
    space, so its keys are plain bytes. What a store does when it fails is part of each call's
    schedule (`Faults`). -/

namespace Computantis

open Schemes

/-- The error values of the package, one constructor each, and those it wraps. -/
inductive Fault where
  | errGenesisRejected
  | errBalanceCalculationUnexpectedFailure
  | errBalanceUnavailable
  | errLeafBallanceCalculationProcessStopped
  | errLeafValidationProcessStopped
  | errNewLeafRejected
  | errLeafRejected
  | errDagIsLoaded
  | errDagIsNotLoaded
  | errLeafAlreadyExists
  | errDoubleSpending
  | errCannotTransferFoundsViaOwnedNode
  | errCannotTransferFoundsFromGenesisWallet
  | errVertexHashNotfound
  | errVertexAlreadyExists
  | errTrxInVertexAlreadyExists
  | errTrxIsEmpty
  | errUnexpected
  | errTransferringFoundsFailure
  | errEntityNotFound
  | errBreak
  | errParentDoesNotExists
  | errNotEnoughSpace
  | errVertexRepetitionExceeded
  | spice (e : SpiceError)
  | dag
  | verification
  | store
  | minimalWeight
  /-- No value of the package: `Verify` has panicked, and the call does not return. -/
  | panicked
  deriving DecidableEq, Repr

/-- An error as `errors.Join` builds it: the values `errors.Is` finds in it. -/
abbrev Err := List Fault

/-- What becomes of a call whose check was not passed: it returns the error, or ends in the panic. -/
def Verdict.refusal (d : Verdict) (e : Err) : Err := if d = .panicked then [.panicked] else e

/-- The call has not returned. -/
def crashed {α : Type} : Except Err α → Bool
  | .ok _ => false
  | .error e => decide (.panicked ∈ e)

/-! ### The graph -/

/-- The graph of the book: every vertex stands under its own hash. -/
structure Dag where
  graph : Digraph Hash Vertex
  keyed : ∀ {k : Hash} {v : Vertex}, graph.get k = some v → v.hash = k

namespace Dag

def empty : Dag := ⟨Digraph.empty, fun h => by simp [Digraph.get, Digraph.empty] at h⟩

def getVertex (d : Dag) (k : Hash) : Option Vertex := d.graph.get k

/-- `AddVertexByID(string(v.Hash[:]), v)`. -/
def addVertexByID (d : Dag) (v : Vertex) : Option Dag :=
  match h : d.graph.addNode v.hash v with
  | none => none
  | some g => some ⟨g, fun {k u} hu => by
      rw [(Digraph.addNode_spec h).2.2] at hu
      split at hu
      next hk => cases hu; exact hk.symm
      next => exact d.keyed hu⟩

/-- `AddEdge(string(src[:]), string(dst[:]))`. -/
def addEdge (d : Dag) (src dst : Hash) : Option Dag :=
  match h : d.graph.addArc src dst with
  | none => none
  | some g => some ⟨g, fun hu => d.keyed (by
      rw [Digraph.get, (Digraph.addArc_spec h).2.1] at hu; exact hu)⟩

def deleteVertex (d : Dag) (k : Hash) : Dag :=
  ⟨d.graph.delete k, fun {x u} hu => by
    rw [Digraph.get_delete] at hu
    split at hu
    · cases hu
    · exact d.keyed hu⟩

theorem addVertexByID_eq_some {d d' : Dag} {v : Vertex} (h : d.addVertexByID v = some d') :
    d.graph.addNode v.hash v = some d'.graph := by
  unfold addVertexByID at h
  split at h
  · cases h
  next g hg => cases h; exact hg

theorem mem_nodes {d : Dag} {k : Hash} {v : Vertex} (h : d.getVertex k = some v) : k ∈ d.graph.nodes :=
  Digraph.mem_nodes.mpr ⟨v, h⟩

theorem addVertexByID_eq_none {d : Dag} {v : Vertex} :
    d.addVertexByID v = none ↔ v.hash ∈ d.graph.nodes := by
  rw [← @Digraph.addNode_eq_none _ _ _ _ _ v]
  unfold addVertexByID
  split <;> simp_all

theorem addEdge_eq_some {d d' : Dag} {p c : Hash} (h : d.addEdge p c = some d') :
    d.graph.addArc p c = some d'.graph := by
  unfold addEdge at h
  split at h
  · cases h
  next g hg => cases h; exact hg

theorem addEdge_isSome {d : Dag} {p c : Hash} {g : Digraph Hash Vertex}
    (h : d.graph.addArc p c = some g) : ∃ d', d.addEdge p c = some d' := by
  unfold addEdge
  split
  next hn => rw [h] at hn; cases hn
  next => exact ⟨_, rfl⟩

@[simp] theorem deleteVertex_graph (d : Dag) (k : Hash) :
    (d.deleteVertex k).graph = d.graph.delete k := rfl

end Dag

/-! ### The replier -/

def maxArraySize : ℕ := 500
def maxRepeats : ℕ := 25

/-- A vertex waiting for its parents and how often it has been put back. -/
structure Memory where
  vrx : Vertex
  repeated : ℕ
  deriving DecidableEq

def newMemory (v : Vertex) : Memory := ⟨v, 0⟩

/-- The replier: `members` wait for a tick, `pub` is the channel to the subscriber. -/
structure Buffer where
  members : List Memory
  pub : List Memory
  deriving DecidableEq

namespace Buffer

def empty : Buffer := ⟨[], []⟩

/-- The comparator of `getNext`; both time comparisons are between `a` and itself. -/
def compareMembers (a _b : Memory) : ℤ :=
  if a.vrx.createdAt < a.vrx.createdAt then -1
  else if a.vrx.createdAt > a.vrx.createdAt then 1
  else 0

/-- `getNext`: sort the members, take the first. -/
def getNext (b : Buffer) : Option Memory × Buffer :=
  match b.members.mergeSort (fun x y => decide (compareMembers x y ≤ 0)) with
  | [] => (none, b)
  | m :: rest => (some m, { b with members := rest })

/-- `insert`: refuse when full or repeated too often. -/
def insert (b : Buffer) (m : Memory) : Except Fault Buffer :=
  if b.members.length = maxArraySize then .error .errNotEnoughSpace
  else if m.repeated > maxRepeats then .error .errVertexRepetitionExceeded
  else .ok { b with members := b.members ++ [{ m with repeated := m.repeated + 1 }] }

/-- One tick of `run`: the next member goes to the channel. -/
def tick (b : Buffer) : Buffer :=
  match b.getNext with
  | (none, b) => b
  | (some m, b) => { b with pub := b.pub ++ [m] }

theorem getNext_eq (b : Buffer) :
    b.getNext = match b.members with
      | [] => (none, b)
      | m :: rest => (some m, { b with members := rest }) := by
  have h : b.members.mergeSort (fun x y => decide (compareMembers x y ≤ 0)) = b.members :=
    List.mergeSort_of_pairwise (List.pairwise_of_forall fun x y => by simp [compareMembers])
  rw [getNext, h]

theorem insert_ok {b b' : Buffer} {m : Memory} (h : b.insert m = .ok b') :
    b.members.length ≠ maxArraySize ∧ m.repeated ≤ maxRepeats ∧
      b' = { b with members := b.members ++ [{ m with repeated := m.repeated + 1 }] } := by
  unfold insert at h
  split_ifs at h with hfull hoften
  cases h
  exact ⟨hfull, not_lt.mp hoften, rfl⟩

theorem tick_nil {b : Buffer} (h : b.members = []) : b.tick = b := by
  rw [tick, getNext_eq, h]

theorem tick_cons {b : Buffer} {m : Memory} {rest : List Memory} (h : b.members = m :: rest) :
    b.tick = ⟨rest, b.pub ++ [m]⟩ := by
  rw [tick, getNext_eq, h]

end Buffer

/-! ### The book -/

/-- The msgpack codecs. Decoding returns what was filled in and whether it succeeded. -/
structure Codec where
  encodeVertex : Vertex → Bytes
  decodeVertex : Bytes → Vertex × Bool
  encodeSpice : Melange → Bytes
  decodeSpice : Bytes → Melange × Bool

/-- What a book is built with and never changes. -/
structure Env where
  verifier : Verifier
  signer : Signer
  codec : Codec

def initialThroughput : UInt64 := 50
def truncateVrxTopMark : UInt64 := 100000
def truncateDiff : UInt64 := 1000

/-- The mutable part of an `AccountingBook`. -/
structure Book where
  dag : Dag
  repeater : Buffer
  trustedNodesDB : List Address
  trxsToVertxDB : AList fun _ : Hash => Hash
  verticesDB : AList fun _ : Bytes => Bytes
  genesisPublicAddress : Address
  weight : UInt64
  throughput : UInt64
  lastBackup : UInt64
  nextWeightTruncate : UInt64
  dagLoaded : Bool
  truncateSignal : List UInt64

/-- `NewAccountingBook` on empty stores. -/
def newAccountingBook (truncate : UInt64) : Book where
  dag := Dag.empty
  repeater := Buffer.empty
  trustedNodesDB := []
  trxsToVertxDB := ∅
  verticesDB := ∅
  genesisPublicAddress := []
  weight := 0
  throughput := 0
  lastBackup := 0
  nextWeightTruncate := if truncate < truncateDiff * 2 then truncateVrxTopMark else truncate
  dagLoaded := false
  truncateSignal := []

/-- `NewAccountingBook` on the databases that the book of an earlier run has left behind. -/
def Book.restarted (b : Book) (truncate : UInt64) : Book :=
  { newAccountingBook truncate with
    trustedNodesDB := b.trustedNodesDB
    trxsToVertxDB := b.trxsToVertxDB
    verticesDB := b.verticesDB }

/-- Which store operations of one call fail. -/
structure Faults where
  checkVertex : Bool
  checkTrx : Bool
  saveTrx : Bool
  removeTrx : Hash → Bool

/-- All stores work. -/
def Faults.none : Faults := ⟨false, false, false, fun _ => false⟩

namespace Book

def checkTrxInVertexExists (b : Book) (trxHash : Hash) (fails : Bool) : Except Err Bool :=
  if fails then .error [.errUnexpected] else .ok (b.trxsToVertxDB.lookup trxHash).isSome

/-- The insertion and its own existence check are one store transaction. -/
def saveTrxInVertex (b : Book) (trxHash vrxHash : Hash) (fails : Bool) : Except Err Book :=
  if fails then .error [.store]
  else if (b.trxsToVertxDB.lookup trxHash).isSome then .error [.errTrxInVertexAlreadyExists]
  else .ok { b with trxsToVertxDB := b.trxsToVertxDB.insert trxHash vrxHash }

/-- Its error is dropped by every caller. -/
def removeTrxInVertex (b : Book) (trxHash : Hash) (fails : Bool) : Book :=
  if fails then b else { b with trxsToVertxDB := b.trxsToVertxDB.erase trxHash }

def checkVertexExistInStorage (b : Book) (vrxHash : Hash) (fails : Bool) : Except Err Bool :=
  if fails then .error [.errUnexpected] else .ok (b.verticesDB.lookup vrxHash.bytes).isSome

/-- The graph is asked first; the store only when the graph does not know the hash. -/
def checkVertexExists (b : Book) (vrxHash : Hash) (fails : Bool) : Except Err Bool :=
  if (b.dag.getVertex vrxHash).isSome then .ok true else b.checkVertexExistInStorage vrxHash fails

/-- A value that does not decode is returned as far as it was filled. -/
def readVertexFromStorage (codec : Codec) (b : Book) (vrxHash : Hash) (fails : Bool) :
    Except Err Vertex :=
  if fails then .error [.errUnexpected]
  else match b.verticesDB.lookup vrxHash.bytes with
    | none => .error [.errVertexHashNotfound]
    | some buf => .ok (codec.decodeVertex buf).1

/-- The graph first, then the store. -/
def readVertex (codec : Codec) (b : Book) (vrxHash : Hash) (fails : Bool) : Except Err Vertex :=
  match b.dag.getVertex vrxHash with
  | some vrx => .ok vrx
  | none => b.readVertexFromStorage codec vrxHash fails

def readVertexHashContainingTrxHashFromStorage (b : Book) (hash : Hash) (fails : Bool) :
    Except Err Hash :=
  if fails then .error [.store]
  else match b.trxsToVertxDB.lookup hash with
    | none => .error [.store]
    | some vertexHash => .ok vertexHash

/-- A value that does not decode is the zero transaction. -/
def readTransactionFromStorage (codec : Codec) (b : Book) (vertexHash : Hash) (fails : Bool) :
    Except Err Transaction :=
  if fails then .error [.store]
  else match b.verticesDB.lookup vertexHash.bytes with
    | none => .error [.errEntityNotFound]
    | some buf =>
      .ok (if (codec.decodeVertex buf).2 then (codec.decodeVertex buf).1.transaction else Transaction.zero)

/-- `ReadTransactionByHash`; the two flags are the failures of the two stores. -/
def readTransactionByHash (codec : Codec) (b : Book) (hash : Hash) (mapFails readFails : Bool) :
    Except Err Transaction :=
  match b.readVertexHashContainingTrxHashFromStorage hash mapFails with
  | .error e => .error e
  | .ok vertexHash =>
    match b.dag.getVertex vertexHash with
    | some vrx => .ok vrx.transaction
    | none => b.readTransactionFromStorage codec vertexHash readFails

def addTrustedNode (b : Book) (address : Address) : Book :=
  { b with trustedNodesDB := address :: b.trustedNodesDB }

def removeTrustedNode (b : Book) (address : Address) : Book :=
  { b with trustedNodesDB := b.trustedNodesDB.filter (· ≠ address) }

def checkIsTrustedNode (b : Book) (address : Address) (fails : Bool) : Except Err Bool :=
  if fails then .error [.store] else .ok (decide (address ∈ b.trustedNodesDB))

/-- The funds kept for an address and the error; what does not decode is returned as it was filled. -/
def readAddressFundsFromStorage (codec : Codec) (b : Book) (address : Address) (fails : Bool) :
    Melange × Option Fault :=
  if fails then (⟨0, 0⟩, some .errUnexpected)
  else match b.verticesDB.lookup address with
    | none => (⟨0, 0⟩, some .errBalanceUnavailable)
    | some buf => ((codec.decodeSpice buf).1, none)

def updateWeightAndThroughput (b : Book) (weight : UInt64) : Book :=
  { b with
    weight := if b.weight < weight then weight else b.weight
    throughput := b.throughput + UInt64.ofNat b.dag.graph.leaves.length + 1 }

def isValidWeight (b : Book) (weight : UInt64) : Bool :=
  if b.throughput > b.weight then true else decide (weight ≥ b.weight - b.throughput)

/-- A rejected vertex leaves the graph and its transaction the index. -/
def discard (b : Book) (v : Vertex) (faults : Faults) : Book :=
  { b with dag := b.dag.deleteVertex v.hash }.removeTrxInVertex v.transaction.hash
    (faults.removeTrx v.transaction.hash)

end Book

end Computantis
