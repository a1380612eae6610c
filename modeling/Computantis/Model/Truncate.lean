import Computantis.Model.Ledger

/-! @model truncate | name:Truncation and balances | family:algorithm |
    source:src/accountant/accountant.go, precalculate.go, helper.go, balance.go

    Truncation takes some leaf, finds the `truncateDiff`-th of its ancestors as they are delivered,
    moves all ancestors of that vertex from the graph to the vertex store and adds what they moved to
    the stored funds of every address. Three walks do it: one to find the vertex, one to sum up and
    save, one to collect what is then deleted. -/

namespace Computantis

open Schemes

/-- The order of one ancestor walk and the iteration at which the context is found cancelled. -/
structure WalkProbe where
  order : List Hash
  cancelAt : Option ℕ

/-- The loop of `performOnAncestorWalker`; `perform` works on a state and may return an error. -/
def walkLoop {σ : Type} (d : Dag) (cancelAt : Option ℕ) (perform : Vertex → σ → σ × Option Err) :
    List Hash → ℕ → List Hash → σ → σ × Option Err
  | [], _, _, s => (s, none)
  | id :: rest, i, visited, s =>
    if cancelAt = some i then (s, some [.errLeafValidationProcessStopped])
    else if id ∈ visited then walkLoop d cancelAt perform rest (i + 1) visited s
    else match d.getVertex id with
      | none => (s, some [.errUnexpected, .dag])
      | some vrx =>
        match perform vrx s with
        | (s, some e) => if e = [.errBreak] then (s, none) else (s, some (.errUnexpected :: e))
        | (s, none) => walkLoop d cancelAt perform rest (i + 1) (id :: visited) s

def performOnAncestorWalker {σ : Type} (d : Dag) (topVrxHash : Hash) (p : WalkProbe)
    (perform : Vertex → σ → σ × Option Err) (s : σ) : σ × Option Err :=
  if topVrxHash ∉ d.graph.nodes then (s, some [.dag])
  else walkLoop d p.cancelAt perform (arrange p.order (d.graph.ancestors topVrxHash)) 0 [] s

/-! ### Helpers -/

/-- Counts vertices down and remembers the hash at which it reaches zero. -/
structure HashAtDepth where
  hash : Hash
  depth : UInt64

def newHashAtDepth (depth : UInt64) : HashAtDepth := ⟨Hash.zero, depth⟩

def HashAtDepth.next (v : Vertex) (h : HashAtDepth) : HashAtDepth × Option Err :=
  let depth := h.depth - 1
  if depth = 0 then (⟨v.hash, depth⟩, some [.errBreak]) else ({ h with depth }, none)

/-- Funds that an address received and issued, precalculated. -/
structure PrecalculatedFounds where
  spiceIn : Melange
  spiceOut : Melange

/-- The zero value of the record, which a Go map returns for a missing key. -/
def PrecalculatedFounds.empty : PrecalculatedFounds := ⟨⟨0, 0⟩, ⟨0, 0⟩⟩

abbrev FundsMemMap := AList fun _ : Address => PrecalculatedFounds

namespace FundsMemMap

def get (f : FundsMemMap) (a : Address) : PrecalculatedFounds := (f.lookup a).getD .empty

def set (f : FundsMemMap) (a : Address) (s : Melange) : FundsMemMap := f.insert a ⟨s, ⟨0, 0⟩⟩

/-- Both records are read before either is written back, and the errors of `Supply` are dropped. -/
def updateFounds (f : FundsMemMap) (issuer receiver : Address) (s : Melange) : FundsMemMap :=
  let ip := get f issuer
  let rp := get f receiver
  let ip := { ip with spiceOut := (ip.spiceOut.supply s).1 }
  let rp := { rp with spiceIn := (rp.spiceIn.supply s).1 }
  (f.insert issuer ip).insert receiver rp

def nextVertex (v : Vertex) (f : FundsMemMap) : FundsMemMap :=
  if v.transaction.isSpiceTransfer then
    updateFounds f v.transaction.issuerAddress v.transaction.receiverAddress v.transaction.spice
  else f

/-- What is saved for one record: `in` drained by `out`, or `in` when the drain fails. -/
def settled (p : PrecalculatedFounds) : Melange := (p.spiceIn.drain p.spiceOut ⟨0, 0⟩).src

end FundsMemMap

/-! ### Truncation -/

/-- Whether the weight of a new vertex asks for a truncation. -/
def checkCanTruncate (current desired : UInt64) : Bool :=
  decide (current > desired) && decide (current > truncateDiff) && decide (current - truncateDiff > desired)

abbrev VertexStore := AList fun _ : Bytes => Bytes

/-- Everything the environment decides in one truncation. -/
structure TruncateSchedule where
  pick : List Hash
  first : WalkProbe
  second : WalkProbe
  third : WalkProbe
  createFails : Bool
  backupFails : Bool
  backupVersion : UInt64
  iterFails : Bool
  saveVertexFails : Hash → Bool
  saveFundsFails : Address → Bool
  fundsOrder : List Address

/-- `forEachfundFromStorage(fm.set)`: keys of 32 bytes are taken for vertices and skipped. -/
def forEachfundFromStorage (codec : Codec) (db : VertexStore) : FundsMemMap :=
  db.entries.foldl (fun f e =>
    if e.1.length = 32 then f
    else if (codec.decodeSpice e.2).2 then FundsMemMap.set f e.1 (codec.decodeSpice e.2).1 else f) ∅

def saveVertexToStorage (codec : Codec) (fails : Bool) (v : Vertex) (db : VertexStore) :
    VertexStore × Option Err :=
  if fails then (db, some [.store])
  else if (db.lookup v.hash.bytes).isSome then (db, some [.errVertexAlreadyExists])
  else (db.insert v.hash.bytes (codec.encodeVertex v), none)

def saveFundsToStorage (codec : Codec) (address : Address) (s : Melange) (db : VertexStore) :
    VertexStore := db.insert address (codec.encodeSpice s)

/-- `saveToStorage` over the addresses in map order. -/
def saveToStorage (codec : Codec) (fails : Address → Bool) (f : FundsMemMap) :
    List Address → VertexStore → VertexStore × Option Err
  | [], db => (db, none)
  | a :: rest, db =>
    if fails a then (db, some [.store])
    else saveToStorage codec fails f rest
      (saveFundsToStorage codec a (FundsMemMap.settled (FundsMemMap.get f a)) db)

/-- `perform` of the second walk: sum up, then save. -/
def accountAndSave (codec : Codec) (fails : Hash → Bool) (v : Vertex)
    (s : FundsMemMap × VertexStore) : (FundsMemMap × VertexStore) × Option Err :=
  let f := FundsMemMap.nextVertex v s.1
  let saved := saveVertexToStorage codec (fails v.hash) v s.2
  ((f, saved.1), saved.2)

/-- `add` of the third walk. -/
def collect (v : Vertex) (s : List Hash) : List Hash × Option Err := (s ++ [v.hash], none)

namespace Book

/-- The vertex below which the graph is cut, or the zero hash when there are too few ancestors. -/
def cutTop (b : Book) (t : TruncateSchedule) (leaf : Hash) : Hash :=
  (performOnAncestorWalker b.dag leaf t.first HashAtDepth.next (newHashAtDepth truncateDiff)).1.hash

/-- From the second walk to the end. -/
def cutBelow (codec : Codec) (b : Book) (t : TruncateSchedule) (top : Hash) : Book × Option Err :=
  match performOnAncestorWalker b.dag top t.second (accountAndSave codec t.saveVertexFails)
      (forEachfundFromStorage codec b.verticesDB, b.verticesDB) with
  | ((_, db), some e) => ({ b with verticesDB := db }, some e)
  | ((f, db), none) =>
    match saveToStorage codec t.saveFundsFails f (enumerate t.fundsOrder f.keys) db with
    | (db, some e) => ({ b with verticesDB := db }, some e)
    | (db, none) =>
      match performOnAncestorWalker b.dag top t.third collect [] with
      | (_, some e) => ({ b with verticesDB := db }, some e)
      | (ids, none) =>
        ({ b with verticesDB := db, dag := ids.foldl Dag.deleteVertex b.dag }, none)

def truncate (env : Env) (b : Book) (t : TruncateSchedule) : Book × Option Err :=
  match enumerate t.pick b.dag.graph.leaves with
  | [] => (b, none)
  | tempTopVrxHash :: _ =>
    -- the first walk never returns `errBreak`, and its other errors are ignored
    let topVrxHash := b.cutTop t tempTopVrxHash
    if t.createFails then (b, some [.store])
    else if t.backupFails then (b, some [.store])
    else
      let b := { b with lastBackup := t.backupVersion + 1 }
      if t.iterFails then (b, some [.errUnexpected]) else b.cutBelow env.codec t topVrxHash

/-! ### Balances -/

/-- The ancestor loop of `CalculateBalance`. -/
def walkBalance (d : Dag) (address : Address) (cancelAt : Option ℕ) :
    List Hash → ℕ → List Hash → Pots → Except Err Pots
  | [], _, _, pots => .ok pots
  | id :: rest, i, visited, pots =>
    if cancelAt = some i then .error [.errLeafBallanceCalculationProcessStopped]
    else if id ∈ visited then walkBalance d address cancelAt rest (i + 1) visited pots
    else match d.getVertex id with
      | none => .error [.errUnexpected, .dag]
      | some vrx =>
        match pourFunds address vrx pots with
        | .error e => .error e
        | .ok pots => walkBalance d address cancelAt rest (i + 1) (id :: visited) pots

/-- Stored funds plus what came in minus what went out. -/
def settleBalance (s : Melange) (pots : Pots) : Except Err Melange :=
  match s.supply pots.spiceIn with
  | (_, some e) => .error [.errBalanceCalculationUnexpectedFailure, .spice e]
  | (m, none) =>
    match (m.drain pots.spiceOut ⟨0, 0⟩).err with
    | some e => .error [.errBalanceCalculationUnexpectedFailure, .spice e]
    | none => .ok (m.drain pots.spiceOut ⟨0, 0⟩).src

/-- `CalculateBalance` from the leaf that its enumeration of the leaves ends with. -/
def balanceFrom (codec : Codec) (b : Book) (leaf : Hash) (p : WalkProbe) (readFails : Bool)
    (walletPubAddr : Address) : Except Err Melange :=
  match b.dag.getVertex leaf with
  | none => .error [.errUnexpected, .dag]
  | some vrx =>
    match pourFunds walletPubAddr vrx Pots.zero with
    | .error e => .error e
    | .ok pots =>
      match walkBalance b.dag walletPubAddr p.cancelAt
          (arrange p.order (b.dag.graph.ancestors leaf)) 0 [] pots with
      | .error e => .error e
      | .ok pots =>
        match b.readAddressFundsFromStorage codec walletPubAddr readFails with
        | (_, some .errUnexpected) => .error [.errUnexpected]
        | (s, _) => settleBalance s pots

/-- A wallet's balance at the time it was computed. -/
structure Balance where
  accountedAt : Time
  walletPublicAddress : Address
  spice : Melange

def calculateBalance (env : Env) (b : Book) (order : List Hash) (p : WalkProbe) (readFails : Bool)
    (now : Time) (walletPubAddr : Address) : Except Err Balance :=
  match (enumerate order b.dag.graph.leaves).getLast? with
  | none => .error [.errUnexpected]
  | some leaf =>
    (b.balanceFrom env.codec leaf p readFails walletPubAddr).map fun s => ⟨now, walletPubAddr, s⟩

end Book

end Computantis
