import Computantis.Model.Stream
import Computantis.Model.Wire

/-! @model startup | name:A node that loads its graph | family:concurrency |
    source:src/gossip/gossip.go, src/accountant/accountant.go

    `updateDag` receives the vertices that another node streams and hands them through a channel to `LoadDag`,
    which runs beside it. The two share a context: `LoadDag` cancels it when it fails, and the receiving loop
    looks at it before every vertex. The deferred calls of `updateDag` cancel the context, close the channel and
    close the connection, in this order and after the result is fixed.

        stream ──Recv──▶ updateDag ──chVrx──▶ LoadDag ──▶ book
                             ▲                   │
                             └────── ctxx ◀──────┘ cancelF -/

namespace Computantis

open Schemes

inductive CtxErr where
  | canceled
  | deadlineExceeded
  deriving DecidableEq, Repr

/-- What `updateDag` comes across: the two calls before the loop, the end of the stream or a broken one, and
    the context. -/
inductive UpdateError where
  | dial
  | call
  | eof
  | stream
  | ctx (e : CtxErr)
  deriving DecidableEq, Repr

/-- What `updateDag` makes of `errx`: `none` is nil. -/
def updateResult : Option UpdateError → Option UpdateError
  | none => none
  | some .eof => none
  | some e => some e

/-- Where `updateDag` is: at the top of its loop, in `Recv`, sending, or with its result on the way out. -/
inductive Receiver where
  | select
  | recv
  | send (vrx : Vertex)
  | left (res : Option UpdateError)
  | cancelled (res : Option UpdateError)
  | closed (res : Option UpdateError)
  | returned (res : Option UpdateError)
  /-- The process has ended in a panic. -/
  | crashed
  deriving DecidableEq

/-- Where `LoadDag` is; at its end with the cause that it has cancelled with. -/
inductive Loader where
  | absent
  | started
  | ranging
  | returned (cause : Option Err)
  deriving DecidableEq

def Loader.ended : Loader → Bool
  | .returned _ => true
  | _ => false

/-- The two processes, what the stream still holds, the context, the channel and the book. -/
structure Startup where
  pending : List ProtoVertex
  receiver : Receiver
  ctxx : Option CtxErr
  chVrx : List Vertex
  chClosed : Bool
  loader : Loader
  book : Book

namespace Startup

variable (s : Startup)

/-- The capacity of the channel. -/
def chVrxCap : ℕ := 1000

/-- The context after it has been cancelled: the first reason stays. -/
def cancel : Startup := { s with ctxx := s.ctxx.or (some .canceled) }

/-- The calls before the loop; each error is returned before `LoadDag` is started. -/
def begin (dials opens : Bool) (served : List ProtoVertex) (b : Book) : Startup where
  pending := served
  receiver := if dials = false then .returned (some .dial) else if opens = false then .returned (some .call)
    else .select
  ctxx := none
  chVrx := []
  chClosed := false
  loader := if dials && opens then .started else .absent
  book := b

/-- One step of `updateDag`; `broken` tells whether `Recv` fails. -/
def receive (broken : Bool) : Startup :=
  match s.receiver with
  | .select => match s.ctxx with
    | none => { s with receiver := .recv }
    -- the loop takes no notice of a plain cancellation
    | some .canceled => { s with receiver := .left none }
    | some e => { s with receiver := .left (updateResult (some (.ctx e))) }
  | .recv =>
    if broken then { s with receiver := .left (updateResult (some .stream)) }
    else match s.pending with
      | [] => { s with receiver := .left (updateResult (some .eof)) }
      | vg :: pending => match mapProtoVertexToAccountantVertex vg with
        | .error _ => { s with pending, receiver := .crashed }
        | .ok vrx => { s with pending, receiver := .send vrx }
  | .send vrx =>
    if s.chVrx.length < chVrxCap then { s with chVrx := s.chVrx ++ [vrx], receiver := .select } else s
  | .left res => { s.cancel with receiver := .cancelled res }
  | .cancelled res => { s with chClosed := true, receiver := .closed res }
  | .closed res => { s with receiver := .returned res }
  | .returned _ => s
  | .crashed => s

/-- `LoadDag` returns, after it has cancelled for a cause; its deferred calls reset the counters. -/
def finish (result : Book × Option Err) : Startup :=
  { (if result.2.isSome then s.cancel else s) with
    loader := .returned result.2
    book := { result.1.updateWeightAndThroughput initialThroughput with throughput := initialThroughput } }

/-- One step of `LoadDag`: the look at the book, one vertex of the first loop, or all that follows it. -/
def load (sched : LoadSchedule) : Startup :=
  match s.receiver, s.loader with
  | .crashed, _ => s
  | _, .absent => s
  | _, .returned _ => s
  | _, .started =>
    if s.book.dagLoaded then { s.cancel with loader := .returned (some [.errDagIsLoaded]) }
    else { s with loader := .ranging }
  | _, .ranging => match s.chVrx with
    | vrx :: chVrx => match s.book.loadVertices sched.saveFails [some vrx] with
      | (book, none) => { s with chVrx, book }
      | result => { s with chVrx }.finish result
    | [] => if s.chClosed then s.finish (s.book.loadLocked sched []) else s

end Startup

inductive StartupEvent where
  | receive (broken : Bool)
  | load
  /-- The context of the caller ends. -/
  | parent (e : CtxErr)
  deriving DecidableEq

def Startup.step (sched : LoadSchedule) (s : Startup) : StartupEvent → Startup
  | .receive broken => s.receive broken
  | .load => s.load sched
  | .parent e => { s with ctxx := s.ctxx.or (some e) }

end Computantis
