import Computantis.Schemes.Enumeration
import Computantis.Model.Book

/-! @model ledger | name:Validating and adding leaves | family:algorithm |
    source:src/accountant/accountant.go, founds.go

    A new vertex names two parents. A parent that is still a leaf is validated first: the issuer of
    its transaction must have received, over the parent and all its ancestors, at least what it has
    issued there. A leaf that fails is deleted. `createLeaf` picks up to two valid leaves as parents
    of a vertex made here, `addLeafMemorized` takes a vertex made elsewhere.

    Orders in which maps and walkers deliver, cancelled contexts, failing stores and the clock come
    from the schedule of the call (`Probe`, `Pass`, `Faults`). The two entry points are split where
    the lock is taken: `…Checks` runs before it, `…Locked` under it. -/

namespace Computantis

open Schemes

/-! ### Funds -/

/-- The two accumulators of a funds walk. -/
structure Pots where
  spiceIn : Melange
  spiceOut : Melange
  deriving DecidableEq, Repr

def Pots.zero : Pots := ⟨Melange.zero, Melange.zero⟩

/-- Supply one cell, wrapping the error. -/
def supplyPot (m amount : Melange) : Except Err Melange :=
  match m.supply amount with
  | (_, some e) => .error [.errUnexpected, .spice e]
  | (m', none) => .ok m'

def pourFunds (issuerAddress : Address) (vrx : Vertex) (pots : Pots) : Except Err Pots :=
  if !vrx.transaction.isSpiceTransfer then .ok pots
  else
    let issued : Except Err Pots :=
      if vrx.transaction.issuerAddress = issuerAddress then
        (supplyPot pots.spiceOut vrx.transaction.spice).map fun m => { pots with spiceOut := m }
      else .ok pots
    issued.bind fun pots =>
      if vrx.transaction.receiverAddress = issuerAddress then
        (supplyPot pots.spiceIn vrx.transaction.spice).map fun m => { pots with spiceIn := m }
      else .ok pots

def checkHasSufficientfunds (pots : Pots) : Except Err Unit :=
  match (pots.spiceIn.drain pots.spiceOut Melange.zero).err with
  | some e => .error [.errDoubleSpending, .spice e]
  | none => .ok ()

/-! ### Validating a leaf -/

/-- What one validation meets: the order of the walker, the iteration at which the context is found
    cancelled, and whether the two store reads fail. -/
structure Probe where
  order : List Hash
  cancelAt : Option ℕ
  trustedFails : Bool
  fundsFails : Bool

/-- Nothing goes wrong, and the walker delivers in the given order. -/
def Probe.calm (order : List Hash) : Probe := ⟨order, none, false, false⟩

/-- The ancestor loop of `validateLeaf`: iteration `i` with the ids still to come. -/
def walkFunds (env : Env) (d : Dag) (leaf : Vertex) (cancelAt : Option ℕ) :
    List Hash → ℕ → List Hash → Pots → Except Err Pots
  | [], _, _, pots => .ok pots
  | id :: rest, i, visited, pots =>
    if cancelAt = some i then .error [.errLeafValidationProcessStopped]
    else if id ∈ visited then walkFunds env d leaf cancelAt rest (i + 1) visited pots
    else match d.getVertex id with
      | none => .error [.errUnexpected, .dag]
      | some vrx =>
        if vrx.hash = leaf.leftParentHash ∧ vrx.verify env.verifier = false then
          .error ((vrx.check env.verifier).refusal [.errLeafRejected, .verification])
        else if vrx.hash = leaf.rightParentHash ∧ vrx.verify env.verifier = false then
          .error ((vrx.check env.verifier).refusal [.errLeafRejected, .verification])
        else match pourFunds leaf.transaction.issuerAddress vrx pots with
          | .error e => .error (.errTransferringFoundsFailure :: e)
          | .ok pots => walkFunds env d leaf cancelAt rest (i + 1) (id :: visited) pots

namespace Book

/-- The issuer's stored funds, supplied to an empty pot, and the leaf's own transaction. -/
def openPots (env : Env) (b : Book) (leaf : Vertex) (fails : Bool) : Except Err Pots :=
  match b.readAddressFundsFromStorage env.codec leaf.transaction.issuerAddress fails with
  | (_, some .errUnexpected) => .error [.errUnexpected]
  | (s, _) =>
    match Melange.zero.supply s with
    | (_, some e) => .error [.spice e]
    | (m, none) => pourFunds leaf.transaction.issuerAddress leaf ⟨m, Melange.zero⟩

/-- The funds part of `validateLeaf`. -/
def validateFunds (env : Env) (b : Book) (p : Probe) (leaf : Vertex) : Except Err Unit :=
  match b.openPots env leaf p.fundsFails with
  | .error e => .error e
  | .ok pots =>
    match walkFunds env b.dag leaf p.cancelAt
        (arrange p.order (b.dag.graph.ancestors leaf.hash)) 0 [] pots with
    | .error e => .error e
    | .ok pots =>
      match checkHasSufficientfunds pots with
      | .error e => .error (.errTransferringFoundsFailure :: e)
      | .ok () => .ok ()

def validateLeaf (env : Env) (b : Book) (p : Probe) (leaf : Vertex) : Except Err Unit :=
  if b.isValidWeight leaf.weight = false then .error [.errLeafRejected, .minimalWeight]
  else if leaf.verify env.verifier = false then
    .error ((leaf.check env.verifier).refusal [.errLeafRejected, .verification])
  else if leaf.hash ∉ b.dag.graph.nodes then .error [.errUnexpected, .dag]
  else if b.dag.graph.isRoot leaf.hash = true then .ok ()
  else match b.checkIsTrustedNode leaf.signerPublicAddress p.trustedFails with
    | .error e => .error (.errUnexpected :: e)
    | .ok trusted =>
      if leaf.transaction.isSpiceTransfer = false ∨ trusted = true then
        if b.dag.getVertex leaf.rightParentHash = none then .error [.errLeafRejected, .dag]
        else if b.dag.getVertex leaf.leftParentHash = none then .error [.errLeafRejected, .dag]
        else .ok ()
      else b.validateFunds env p leaf

/-! ### Inserting a vertex -/

/-- The edge loop of the insertions and of loading: `addedHash` starts as the zero hash, and a parent
    hash equal to it ends the loop. Returns the graph and whether every edge was accepted. -/
def addEdges (child : Hash) : List Hash → Hash → Dag → Dag × Bool
  | [], _, d => (d, true)
  | hash :: rest, addedHash, d =>
    if hash = addedHash then (d, true)
    else match d.addEdge hash child with
      | none => (d, false)
      | some d => addEdges child rest hash d

/-- From `saveTrxInVertex` to the end of both insertions; `onSave` and `rejected` are the errors the
    caller reports. -/
def insertVertex (b : Book) (leaf : Vertex) (parents : List Vertex) (faults : Faults)
    (onSave : Err → Err) (rejected : Err) : Book × Except Err Unit :=
  match b.saveTrxInVertex leaf.transaction.hash leaf.hash faults.saveTrx with
  | .error e => (b, .error (onSave e))
  | .ok b =>
    match b.dag.addVertexByID leaf with
    | none =>
      (b.removeTrxInVertex leaf.transaction.hash (faults.removeTrx leaf.transaction.hash),
        .error rejected)
    | some d =>
      match addEdges leaf.hash (parents.map Vertex.hash) Hash.zero d with
      | (d, false) => ({ b with dag := d }.discard leaf faults, .error rejected)
      | (d, true) =>
        ({ b with dag := d, truncateSignal := b.truncateSignal ++ [leaf.weight] }, .ok ())

/-! ### Adding a received vertex -/

/-- A leaf that has not passed its validation is removed, unless the validation has panicked. -/
def dismiss (b : Book) (leaf : Vertex) (e : Err) (faults : Faults) : Book :=
  if .panicked ∈ e then b else b.discard leaf faults

/-- The parent loop of `addLeafMemorized`: the parents seen so far, or the error it returns. -/
def checkParents (env : Env) (m : Memory) (probe : Hash → Probe) (faults : Faults) :
    List Hash → List Vertex → Book → Book × Except Err (List Vertex)
  | [], validated, b => (b, .ok validated)
  | hash :: rest, validated, b =>
    match b.dag.getVertex hash with
    | none =>
      match b.repeater.insert m with
      | .error _ => (b, .error [.errLeafRejected])
      | .ok repeater => ({ b with repeater }, .error [.errParentDoesNotExists])
    | some existingLeaf =>
      if b.dag.graph.isLeaf hash = true then
        match b.validateLeaf env (probe hash) existingLeaf with
        | .error e => (b.dismiss existingLeaf e faults, .error (.errLeafRejected :: e))
        | .ok () =>
          checkParents env m probe faults rest (validated ++ [existingLeaf])
            (b.updateWeightAndThroughput existingLeaf.weight)
      else checkParents env m probe faults rest (validated ++ [existingLeaf]) b

/-- The part of `addLeafMemorized` before the lock. -/
def addLeafChecks (env : Env) (b : Book) (leaf : Vertex) (faults : Faults) : Except Err Unit :=
  if leaf.transaction.issuerAddress = b.genesisPublicAddress then
    .error [.errCannotTransferFoundsFromGenesisWallet]
  else match b.checkVertexExists leaf.hash faults.checkVertex with
    | .error e => .error (.errUnexpected :: e)
    | .ok true => .error [.errLeafAlreadyExists]
    | .ok false =>
      match b.checkTrxInVertexExists leaf.transaction.hash faults.checkTrx with
      | .error e => .error (.errUnexpected :: e)
      | .ok true => .error [.errTrxInVertexAlreadyExists]
      | .ok false =>
        if leaf.verify env.verifier then .ok ()
        else .error ((leaf.check env.verifier).refusal [.errLeafRejected])

/-- The part of `addLeafMemorized` under the lock. -/
def addLeafLocked (env : Env) (b : Book) (m : Memory) (probe : Hash → Probe) (faults : Faults) :
    Book × Except Err Unit :=
  match b.checkParents env m probe faults m.vrx.parentHashes [] with
  | (b, .error e) => (b, .error e)
  | (b, .ok validatedLeafs) =>
    b.insertVertex m.vrx validatedLeafs faults (.errUnexpected :: ·) [.errLeafRejected]

def addLeafMemorized (env : Env) (b : Book) (m : Memory) (probe : Hash → Probe) (faults : Faults) :
    Book × Except Err Unit :=
  match b.addLeafChecks env m.vrx faults with
  | .error e => (b, .error e)
  | .ok () => b.addLeafLocked env m probe faults

/-- What `AddLeaf` looks at before it calls `addLeafMemorized`. -/
def addLeafGuard (b : Book) (leaf : Vertex) : Except Err Unit :=
  if b.dagLoaded = false then .error [.errDagIsNotLoaded]
  else if leaf.transaction.issuerAddress = leaf.signerPublicAddress then
    .error [.errCannotTransferFoundsViaOwnedNode]
  else if leaf.transaction.isEmpty then .error [.errTrxIsEmpty]
  else .ok ()

def addLeaf (env : Env) (b : Book) (leaf : Vertex) (probe : Hash → Probe) (faults : Faults) :
    Book × Except Err Unit :=
  match b.addLeafGuard leaf with
  | .error e => (b, .error e)
  | .ok () => b.addLeafMemorized env (newMemory leaf) probe faults

/-! ### Creating a vertex -/

/-- One call of `getValidLeaves`: the order in which the leaves are enumerated, and what each
    validation meets. -/
structure Pass where
  order : List Hash
  probe : Hash → Probe

/-- The loop of `getValidLeaves`: `found` holds the left and the right leaf, `err` the named result. -/
def pickLeaves (env : Env) (probe : Hash → Probe) (faults : Faults) :
    List Vertex → List Vertex → Option Err → Book → Book × List Vertex × Option Err
  | [], found, err, b => (b, found, err)
  | vrx :: rest, found, err, b =>
    if found.length = 2 then (b, found, err)
    else match b.validateLeaf env (probe vrx.hash) vrx with
      | .error e =>
        -- a panic ends the loop
        if .panicked ∈ e then (b, found, some e)
        else pickLeaves env probe faults rest found (some e)
          ((b.discard vrx faults).updateWeightAndThroughput vrx.weight)
      | .ok () => pickLeaves env probe faults rest (found ++ [vrx]) none b

def getValidLeaves (env : Env) (b : Book) (pass : Pass) (faults : Faults) :
    Book × List Vertex × Option Err :=
  pickLeaves env pass.probe faults
    ((enumerate pass.order b.dag.graph.leaves).filterMap b.dag.getVertex) [] none b

/-- How a call ends; `panicked` is the read of a nil leaf, a panic of `Verify` is among the faults. -/
inductive Outcome (α : Type) where
  | done (a : α)
  | failed (e : Err)
  | panicked
  deriving DecidableEq

/-- The part of `CreateLeaf` before the lock. -/
def createLeafChecks (env : Env) (b : Book) (trx : Transaction) (faults : Faults) : Except Err Unit :=
  if b.dagLoaded = false then .error [.errDagIsNotLoaded]
  else if trx.isEmpty then .error [.errTrxIsEmpty]
  else if trx.issuerAddress = env.signer.address then .error [.errCannotTransferFoundsViaOwnedNode]
  else if trx.issuerAddress = b.genesisPublicAddress then
    .error [.errCannotTransferFoundsFromGenesisWallet]
  else match b.checkTrxInVertexExists trx.hash faults.checkTrx with
    | .error _ => .error [.errUnexpected]
    | .ok true => .error [.errTrxInVertexAlreadyExists]
    | .ok false => .ok ()

/-- The tip that `CreateLeaf` makes from a left and a right leaf. -/
def tip (env : Env) (trx : Transaction) (leftLeaf rightLeaf : Vertex) (now : Time) : Vertex :=
  Vertex.new trx leftLeaf.hash rightLeaf.hash (calcNewWeight leftLeaf.weight rightLeaf.weight)
    env.signer now

/-- From `NewVertex` to the end of `CreateLeaf`. -/
def sealTip (env : Env) (b : Book) (trx : Transaction) (leftLeaf rightLeaf : Vertex) (now : Time)
    (faults : Faults) : Book × Outcome Vertex :=
  let vrx := tip env trx leftLeaf rightLeaf now
  match b.insertVertex vrx [leftLeaf, rightLeaf] faults (fun _ => [.errUnexpected])
      [.errNewLeafRejected] with
  | (b, .error e) => (b, .failed e)
  | (b, .ok ()) => (b, .done vrx)

/-- The part of `CreateLeaf` under the lock. -/
def createLeafLocked (env : Env) (b : Book) (trx : Transaction) (first second : Pass) (now : Time)
    (faults : Faults) : Book × Outcome Vertex :=
  match b.getValidLeaves env first faults with
  | (b, _, some e) => (b, .failed e)
  | (b, leftLeaf :: found, none) => b.sealTip env trx leftLeaf (found.headD leftLeaf) now faults
  | (b, [], none) =>
    match b.getValidLeaves env second faults with
    | (b, _, some e) => (b, .failed e)
    -- the retry reports a leaf that it did find
    | (b, _ :: _, none) => (b, .failed [.errUnexpected])
    -- and goes on without one: `leftLeaf.Hash` on a nil `leftLeaf`
    | (b, [], none) => (b, .panicked)

def createLeaf (env : Env) (b : Book) (trx : Transaction) (first second : Pass) (now : Time)
    (faults : Faults) : Book × Outcome Vertex :=
  match b.createLeafChecks env trx faults with
  | .error e => (b, .failed e)
  | .ok () => b.createLeafLocked env trx first second now faults

/-! ### Genesis -/

/-- What the genesis transaction is made of, and when. -/
structure GenesisSpec where
  subject : Bytes
  spice : Melange
  data : Bytes
  receiverPublicAddress : Address
  trxAt : Time
  vrxAt : Time

def createGenesis (env : Env) (b : Book) (g : GenesisSpec) (saveFails : Bool) :
    Book × Except Err Vertex :=
  if g.receiverPublicAddress = env.signer.address then (b, .error [.errGenesisRejected])
  else match Transaction.new g.subject g.spice g.data g.receiverPublicAddress env.signer g.trxAt with
    | none => (b, .error [.errGenesisRejected])
    | some trx =>
      let vrx := Vertex.new trx Hash.zero Hash.zero 0 env.signer g.vrxAt
      match b.saveTrxInVertex trx.hash vrx.hash saveFails with
      | .error e => (b, .error (.errGenesisRejected :: e))
      | .ok b =>
        match b.dag.addVertexByID vrx with
        | none => (b, .error [.dag])
        | some dag =>
          ({ ({ b with dag, throughput := initialThroughput }.updateWeightAndThroughput
                initialThroughput) with
              dagLoaded := true, genesisPublicAddress := env.signer.address }, .ok vrx)

end Book

end Computantis
