import Computantis.Laws.Assumptions

/-! @law queueing | name:The order in which the replier replays | family:order | about:Model/Book

    `getNext` sorts the members and takes the first. Its comparator compares the creation time of one vertex with
    itself, so the sort moves nothing and the buffer is a plain queue: what has left it and what is still in it,
    one behind the other, are what has entered it (`run_members`). The oldest member is therefore replayed first
    exactly when it is also the one that has waited longest. -/

namespace Computantis.Buffer

open Schemes

/-- What is called on the buffer. -/
inductive Op where
  | insert (m : Memory)
  | getNext

def step (b : Buffer) : Op → Buffer
  | .insert m => match b.insert m with
    | .ok b' => b'
    | .error _ => b
  | .getNext => b.getNext.2

/-- `getNext` returns a member that is not younger than any other, and takes out just that one. -/
def OldestFirst (b : Buffer) : Prop :=
  b.members ≠ [] → ∃ m, b.getNext.1 = some m ∧ (∀ m' ∈ b.members, m.vrx.createdAt ≤ m'.vrx.createdAt) ∧
    b.members.Perm (m :: b.getNext.2.members)

/-! ### One call -/

section Call

variable {b : Buffer}

theorem getNext_cons {m : Memory} {rest : List Memory} (h : b.members = m :: rest) :
    b.getNext = (some m, { b with members := rest }) := by
  rw [getNext_eq, h]

theorem oldestFirst_iff : b.OldestFirst ↔
    ∀ m ∈ b.members.head?, ∀ m' ∈ b.members, m.vrx.createdAt ≤ m'.vrx.createdAt := by
  unfold OldestFirst
  cases hmembers : b.members with
  | nil => simp
  | cons m rest =>
    rw [getNext_cons hmembers]
    simp

/-- What enters the buffer in one call. -/
def entering (b : Buffer) : Op → List Memory
  | .insert m => match b.insert m with
    | .ok _ => [{ m with repeated := m.repeated + 1 }]
    | .error _ => []
  | .getNext => []

/-- What leaves the buffer in one call. -/
def leaving (b : Buffer) : Op → List Memory
  | .insert _ => []
  | .getNext => b.getNext.1.toList

theorem step_members (b : Buffer) (op : Op) :
    b.leaving op ++ (b.step op).members = b.members ++ b.entering op := by
  cases op with
  | insert m =>
    rw [leaving, step, entering]
    cases hinsert : b.insert m with
    | ok b' =>
      obtain ⟨-, -, rfl⟩ := insert_ok hinsert
      rfl
    | error e => simp
  | getNext =>
    rw [leaving, step, entering, getNext_eq]
    cases hmembers : b.members with
    | nil => simp [hmembers]
    | cons m rest => simp

end Call

/-! ### Runs -/

/-- All that has entered during a run, in this order and with the counts it has in the buffer. -/
def entered (b : Buffer) : List Op → List Memory
  | [] => []
  | op :: ops => b.entering op ++ entered (b.step op) ops

/-- All that has left during a run, in this order. -/
def departed (b : Buffer) : List Op → List Memory
  | [] => []
  | op :: ops => b.leaving op ++ departed (b.step op) ops

theorem run_members (b : Buffer) (ops : List Op) :
    b.departed ops ++ (run step b ops).members = b.members ++ b.entered ops := by
  induction ops generalizing b with
  | nil => simp [departed, entered]
  | cons op ops ih =>
    rw [departed, entered, run_cons, List.append_assoc, ih, ← List.append_assoc, step_members, List.append_assoc]

/-- What waits after a run on an empty buffer: what has entered, without as many as have left. -/
def waiting (ops : List Op) : List Memory := (empty.entered ops).drop (empty.departed ops).length

theorem run_members_empty (ops : List Op) : (run step empty ops).members = waiting ops := by
  have hqueue := run_members empty ops
  rw [show empty.members = [] from rfl, List.nil_append] at hqueue
  rw [waiting, ← hqueue, List.drop_left]

/-- VERDICT: after any calls, the next replay is of the oldest member, exactly when the one of those that wait
    that has entered first is not younger than any of them. -/
theorem replays_oldest_iff (ops : List Op) : (run step empty ops).OldestFirst ↔
    ∀ m ∈ (waiting ops).head?, ∀ m' ∈ waiting ops, m.vrx.createdAt ≤ m'.vrx.createdAt := by
  rw [oldestFirst_iff, run_members_empty]

/-- Two vertices that arrive in the wrong order. -/
theorem younger_replayed_first :
    let young := newMemory { Transparent.zeroVertex with createdAt := 2 }
    let old := newMemory { Transparent.zeroVertex with createdAt := 1 }
    ¬ (run step empty [.insert young, .insert old]).OldestFirst := by
  intro young old holdest
  have hmember := oldestFirst_iff.mp holdest { young with repeated := 1 } rfl { old with repeated := 1 }
    (by simp [step, insert, empty, young, old, newMemory, maxArraySize, maxRepeats])
  revert hmember
  decide

end Computantis.Buffer
