import Computantis.Schemes.Machine
import Computantis.Model.Stream
import Computantis.Model.Truncate

/-! @model node | name:A node taking calls | family:machine | source:src/accountant/accountant.go

    The calls of a book interleave: what a call looks at before it takes the lock is one step, its
    part under the lock another. A call that has passed its checks is pending until the scheduler
    lets it take the lock. The replier hands parked vertices back through its channel, tick by tick,
    and the truncation goroutine takes the lock like everybody else.

        begin… ──checks──▶ pending ──finish…──▶ book
        tick: members ──▶ pub          beginReplay: pub ──checks──▶ pending

    Around the calls stands the life of the book (`live`): it creates a genesis vertex or loads a
    stream, comes to trust nodes or no longer does, and a process that is started again finds its
    databases and nothing else. -/

namespace Computantis

open Schemes

/-- A call past its unlocked checks. -/
inductive Call where
  | create (trx : Transaction)
  | add (m : Memory)
  deriving DecidableEq

structure Node where
  book : Book
  pending : List Call

/-- One scheduling decision, with what the environment decides in it. -/
inductive Event where
  | beginCreate (trx : Transaction) (faults : Faults)
  | beginAdd (leaf : Vertex) (faults : Faults)
  | beginReplay (faults : Faults)
  | finishCreate (trx : Transaction) (first second : Book.Pass) (now : Time) (faults : Faults)
  | finishAdd (m : Memory) (probe : Hash → Probe) (faults : Faults)
  | tick
  | truncate (t : TruncateSchedule)

namespace Node

/-- `CreateLeaf` up to the lock. -/
def beginCreate (env : Env) (s : Node) (trx : Transaction) (faults : Faults) : Node :=
  match s.book.createLeafChecks env trx faults with
  | .error _ => s
  | .ok () => { s with pending := s.pending ++ [.create trx] }

/-- `AddLeaf` up to the lock. -/
def beginAdd (env : Env) (s : Node) (leaf : Vertex) (faults : Faults) : Node :=
  match s.book.addLeafGuard leaf with
  | .error _ => s
  | .ok () =>
    match s.book.addLeafChecks env leaf faults with
    | .error _ => s
    | .ok () => { s with pending := s.pending ++ [.add (newMemory leaf)] }

/-- The subscriber takes a parked vertex from the channel and starts `addLeafMemorized`. -/
def beginReplay (env : Env) (s : Node) (faults : Faults) : Node :=
  match s.book.repeater.pub with
  | [] => s
  | m :: pub =>
    let book := { s.book with repeater := { s.book.repeater with pub } }
    match book.addLeafChecks env m.vrx faults with
    | .error _ => { s with book }
    | .ok () => { s with book, pending := s.pending ++ [.add m] }

def step (env : Env) (s : Node) : Event → Node
  | .beginCreate trx faults => s.beginCreate env trx faults
  | .beginAdd leaf faults => s.beginAdd env leaf faults
  | .beginReplay faults => s.beginReplay env faults
  | .finishCreate trx first second now faults =>
    if .create trx ∈ s.pending then
      ⟨(s.book.createLeafLocked env trx first second now faults).1, s.pending.erase (.create trx)⟩
    else s
  | .finishAdd m probe faults =>
    if .add m ∈ s.pending then
      ⟨(s.book.addLeafLocked env m probe faults).1, s.pending.erase (.add m)⟩
    else s
  | .tick => { s with book := { s.book with repeater := s.book.repeater.tick } }
  | .truncate t => { s with book := (s.book.truncate env t).1 }

/-- The node of a completed `CreateGenesis` on a new book, and the genesis vertex. -/
def genesis (env : Env) (truncate : UInt64) (g : Book.GenesisSpec) : Option (Node × Vertex) :=
  match (newAccountingBook truncate).createGenesis env g false with
  | (_, .error _) => none
  | (book, .ok vrx) => some (⟨book, []⟩, vrx)

end Node

/-- What happens to a book besides the calls, and the calls. -/
inductive Life where
  | genesis (spec : Book.GenesisSpec) (saveFails : Bool)
  | load (sched : LoadSchedule) (stream : List (Option Vertex))
  | restart (truncate : UInt64)
  | trust (address : Address)
  | distrust (address : Address)
  | call (e : Event)

namespace Node

def live (env : Env) (s : Node) : Life → Node
  | .genesis spec saveFails => { s with book := (s.book.createGenesis env spec saveFails).1 }
  | .load sched stream => { s with book := (s.book.loadDag sched stream).1 }
  | .restart truncate => ⟨s.book.restarted truncate, []⟩
  | .trust address => { s with book := s.book.addTrustedNode address }
  | .distrust address => { s with book := s.book.removeTrustedNode address }
  | .call e => s.step env e

/-- The node of a new book. -/
def fresh (truncate : UInt64) : Node := ⟨newAccountingBook truncate, []⟩

end Node

/-! ### The truncation goroutine -/

/-- Where `runTruncate` stands: at its receive, with a signal that asks for a truncation in hand, or
    returned after the fatal branch. -/
inductive Truncator where
  | receiving
  | holding (w : UInt64)
  | returned
  deriving DecidableEq

/-- A node and its truncation goroutine. -/
structure Keeper where
  node : Node
  truncator : Truncator

/-- A call, or one of the two steps of the goroutine's loop. -/
inductive Keeper.Event where
  | call (e : Computantis.Event)
  | receive
  | truncate (t : TruncateSchedule)

namespace Keeper

/-- `runTruncate` takes a signal and looks at its weight. -/
def receive (s : Keeper) : Keeper :=
  match s.truncator, s.node.book.truncateSignal with
  | .receiving, w :: rest =>
    ⟨{ s.node with book := { s.node.book with truncateSignal := rest } },
      if checkCanTruncate w s.node.book.nextWeightTruncate then .holding w else .receiving⟩
  | _, _ => s

/-- `runTruncate` has the lock and truncates; an error is fatal. -/
def truncate (env : Env) (s : Keeper) (t : TruncateSchedule) : Keeper :=
  match s.truncator with
  | .holding w =>
    match s.node.book.truncate env t with
    | (book, some _) => ⟨{ s.node with book }, .returned⟩
    | (book, none) =>
      ⟨{ s.node with book := { book with nextWeightTruncate := book.nextWeightTruncate + w } }, .receiving⟩
  | _ => s

def step (env : Env) (s : Keeper) : Keeper.Event → Keeper
  | .call e => { s with node := s.node.step env e }
  | .receive => s.receive
  | .truncate t => s.truncate env t

end Keeper

/-! ### The bounded channel -/

/-- The capacity of the channel `truncateSignal`. -/
def signalCapacity : ℕ := initialThroughput.toNat

/-- The call takes the mutex. -/
def Event.locks : Event → Bool
  | .finishCreate .. => true
  | .finishAdd .. => true
  | _ => false

/-- A keeper whose signals go through the channel. `truncateSignal` of the book is its buffer, and
    `sender` the weight that a caller cannot send because the buffer is full: it waits for a receive and
    holds the mutex meanwhile. -/
structure Channelled where
  keeper : Keeper
  sender : Option UInt64

namespace Channelled

/-- The weights in the buffer. -/
def buffer (s : Channelled) : List UInt64 := s.keeper.node.book.truncateSignal

def setBuffer (s : Keeper) (ws : List UInt64) : Keeper :=
  { s with node := { s.node with book := { s.node.book with truncateSignal := ws } } }

/-- A call. While a sender holds the mutex nobody else gets it; a send that finds the buffer full blocks. -/
def call (env : Env) (s : Channelled) (e : Event) : Channelled :=
  if e.locks && s.sender.isSome then s
  else
    let keeper := s.keeper.step env (.call e)
    let signals := keeper.node.book.truncateSignal
    if signals.length ≤ signalCapacity then { s with keeper }
    else ⟨setBuffer keeper (signals.take signalCapacity), signals.getLast?⟩

/-- A receive makes room, and a blocked sender goes on. -/
def receive (s : Channelled) : Channelled :=
  if s.keeper.truncator = .receiving ∧ s.buffer ≠ [] then
    let keeper := s.keeper.receive
    ⟨setBuffer keeper (keeper.node.book.truncateSignal ++ s.sender.toList), none⟩
  else s

def step (env : Env) (s : Channelled) : Keeper.Event → Channelled
  | .call e => s.call env e
  | .receive => s.receive
  | .truncate t => if s.sender.isSome then s else { s with keeper := s.keeper.truncate env t }

/-- The goroutine has left its receive: it waits for the mutex, or it has returned. -/
def Away (s : Channelled) : Prop := s.keeper.truncator ≠ .receiving

/-- A caller that holds the mutex is blocked on a full channel which nobody will read. -/
def Deadlocked (s : Channelled) : Prop := s.sender.isSome ∧ s.Away

end Channelled

/-- Not a truncation. -/
def Event.Ordinary : Event → Prop
  | .truncate _ => False
  | _ => True

end Computantis
