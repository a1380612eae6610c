import Computantis.Model.Service
import Computantis.Schemes.Channel
import Computantis.Schemes.Observed

/-! @model pipe | name:The pipe with its goroutines | family:concurrency |
    source:src/pipe/pipe.go, src/gossip/gossip.go

    Every send is a goroutine of its own that puts one value into a channel, whenever the scheduler lets it; the
    call has returned by then. One gossip process takes from each channel. `Close` closes one channel, then
    the other, and tells the senders last. The juggler of `Model/Service` is this pipe seen from far: a bag of
    values, any of which may come next.

        SendTrx ──▶ go ──▶ │ buffer │ ──▶ gossip process
                    go ──▶ │ waiting -/

namespace Computantis

open Schemes

/-- One of the two ways through the pipe: the values of the goroutines that have been started and have not come
    to their send, and the channel. -/
structure Line (α : Type) where
  started : List α
  ch : Channel α

namespace Line

variable {α : Type} (l : Line α)

/-- The channel as `New` makes it. -/
def new (α : Type) (bufSize : UInt16) : Line α := ⟨[], ⟨bufSize.toNat, [], false⟩⟩

/-- `SendTrx` and `SendVrx`, with the flag of the juggler. -/
def send (closed : Bool) (x : α) : Line α × Bool :=
  if closed then (l, false) else ({ l with started := l.started ++ [x] }, true)

/-- The goroutine `i` comes to its send. -/
def go (i : ℕ) : Option (Line α) :=
  match l.started[i]? with
  | none => some l
  | some x =>
    match l.ch.send x with
    | none => none
    | some ch => some ⟨l.started.eraseIdx i, ch⟩

/-- The gossip process takes the next value. Without one it waits, or is given a nil that it skips. -/
def take : Line α × Option α :=
  match l.ch.receive with
  | none => (l, none)
  | some (x, ch) => ({ l with ch }, some x)

/-- The channel is closed. -/
def close : Option (Line α) :=
  match l.ch.close with
  | none => none
  | some ch => some { l with ch }

end Line

/-- What is to be done next in `Close`. -/
inductive Closing where
  | trxCh
  | vrxCh
  | flag
  | done
  deriving DecidableEq

structure Pipe where
  trx : Line ProtoTransaction
  vrx : Line Vertex
  closed : Bool
  closing : Closing

namespace Pipe

def new (trxBufSize vrxBufSize : UInt16) : Pipe :=
  ⟨.new ProtoTransaction trxBufSize, .new Vertex vrxBufSize, false, .trxCh⟩

inductive Event where
  | sendTrx (trx : ProtoTransaction)
  | sendVrx (vrx : Vertex)
  | goTrx (i : ℕ)
  | goVrx (i : ℕ)
  | takeTrx
  | takeVrx
  | close
  deriving DecidableEq

/-- What is seen of the pipe: the answers to the calls, and what the gossip processes get. -/
inductive Sight where
  | sentTrx (trx : ProtoTransaction) (ok : Bool)
  | sentVrx (vrx : Vertex) (ok : Bool)
  | tookTrx (trx : ProtoTransaction)
  | tookVrx (vrx : Vertex)
  deriving DecidableEq

/-- One step of some goroutine; `none` where the process panics. -/
def step (p : Pipe) : Pipe.Event → Option (Pipe × Option Sight)
  | .sendTrx x =>
    let (trx, ok) := p.trx.send p.closed x
    some ({ p with trx }, some (.sentTrx x ok))
  | .sendVrx x =>
    let (vrx, ok) := p.vrx.send p.closed x
    some ({ p with vrx }, some (.sentVrx x ok))
  | .goTrx i => (p.trx.go i).map fun trx => ({ p with trx }, none)
  | .goVrx i => (p.vrx.go i).map fun vrx => ({ p with vrx }, none)
  | .takeTrx =>
    let (trx, x) := p.trx.take
    some ({ p with trx }, x.map .tookTrx)
  | .takeVrx =>
    let (vrx, x) := p.vrx.take
    some ({ p with vrx }, x.map .tookVrx)
  | .close =>
    match p.closing with
    | .trxCh => p.trx.close.map fun trx => ({ p with trx, closing := .vrxCh }, none)
    | .vrxCh => p.vrx.close.map fun vrx => ({ p with vrx, closing := .flag }, none)
    | .flag => some ({ p with closed := true, closing := .done }, none)
    | .done => some (p, none)

end Pipe

namespace Juggler

/-- What happens to the bag: calls, takes of any entry, and the close. -/
inductive Event where
  | sendTrx (trx : ProtoTransaction)
  | sendVrx (vrx : Vertex)
  | takeTrx (i : ℕ)
  | takeVrx (i : ℕ)
  | close
  deriving DecidableEq

/-- The juggler as the notary and the gossip processes of the model use it. -/
def step (j : Juggler) : Juggler.Event → Option (Juggler × Option Pipe.Sight)
  | .sendTrx x => some ((j.sendTrx x).1, some (.sentTrx x (j.sendTrx x).2))
  | .sendVrx x => some ((j.sendVrx x).1, some (.sentVrx x (j.sendVrx x).2))
  | .takeTrx i => some ({ j with trxCh := j.trxCh.eraseIdx i }, j.trxCh[i]?.map .tookTrx)
  | .takeVrx i => some ({ j with vrxCh := j.vrxCh.eraseIdx i }, j.vrxCh[i]?.map .tookVrx)
  | .close => some ({ j with closed := true }, none)

end Juggler

end Computantis
