import Mathlib.Data.List.Basic

/-! @scheme channel | name:Channels with a buffer | family:concurrency

    A channel takes values into its buffer in the order in which the sends come to it. A sender that finds no room
    waits, and the senders that wait are served in their order too, so that buffer and waiting values are one
    queue. A send on a closed channel, a second close, and a close while a sender waits end the process
    (`none`). -/

namespace Schemes

/-- A channel; what lies behind the first `cap` values of the queue belongs to senders that wait. -/
structure Channel (α : Type) where
  cap : ℕ
  queue : List α
  closed : Bool

namespace Channel

variable {α : Type} (c : Channel α)

def send (x : α) : Option (Channel α) := if c.closed then none else some { c with queue := c.queue ++ [x] }

/-- A receive that finds a value. -/
def receive : Option (α × Channel α) :=
  match c.queue with
  | [] => none
  | x :: rest => some (x, { c with queue := rest })

def close : Option (Channel α) :=
  if c.closed ∨ c.cap < c.queue.length then none else some { c with closed := true }

end Channel

end Schemes
