import Computantis.Laws.Admission
import Computantis.Schemes.Credits

/-! @law retrying | name:Retries are counted | family:bounds | about:Model/Node, Model/Book

    A received vertex whose parents are missing goes round: the call parks it, a tick hands it to the channel, the
    subscriber takes it from there and tries again. `insert` refuses a vertex that has been parked more than
    `maxRepeats` times, and counts the others up.

        AddLeaf ──▶ pending ──insert, +1──▶ members ──tick──▶ pub ──subscriber──▶ pending

    To say how often the vertex of one `AddLeaf` call is tried, vertices get the number of that call as a ticket
    (`Ticketed`). Nothing of the node depends on tickets: they are handed on with the vertices, and every run of
    the node is a run with tickets (`ticketed_run`). -/

namespace Computantis

open Schemes

/-! ### Counts -/

/-- Counts between one and the most that `insert` writes. -/
def Memory.InRange (m : Memory) : Prop := 1 ≤ m.repeated ∧ m.repeated ≤ maxRepeats + 1

/-- The replier has room for its members, its counts are in range, and no pending vertex is above it. -/
structure Node.Counted (s : Node) : Prop where
  room : s.book.repeater.members.length ≤ maxArraySize
  members : ∀ m ∈ s.book.repeater.members, m.InRange
  pub : ∀ m ∈ s.book.repeater.pub, m.InRange
  pending : ∀ m, .add m ∈ s.pending → m.repeated ≤ maxRepeats + 1

namespace Node.Counted

variable {env : Env} {s : Node}

theorem of_nothing (hp : s.pending = []) (hr : s.book.repeater = Buffer.empty) : s.Counted := by
  refine ⟨?_, ?_, ?_, ?_⟩
  · rw [hr]
    exact Nat.zero_le _
  · simp [hr, Buffer.empty]
  · simp [hr, Buffer.empty]
  · simp [hp]

theorem of_repeater (h : s.Counted) {b : Book} (hr : b.repeater = s.book.repeater) :
    Node.Counted { s with book := b } := by
  refine ⟨?_, ?_, ?_, h.pending⟩
  · rw [hr]
    exact h.room
  · rw [hr]
    exact h.members
  · rw [hr]
    exact h.pub

theorem step (h : s.Counted) (e : Event) : (s.step env e).Counted := by
  have hstirs := s.repeater_step env e
  have hpending : ∀ m, .add m ∈ (s.step env e).pending → m.repeated ≤ maxRepeats + 1 := by
    intro m hm
    rcases Node.pending_step hm with hold | hnew
    · exact h.pending m hold
    · cases hnew with
      | add _ _ => exact Nat.zero_le _
      | replay hpub _ => exact (h.pub m (hpub ▸ List.mem_cons_self ..)).2
  suffices hrep : (s.step env e).book.repeater.members.length ≤ maxArraySize ∧
      (∀ m ∈ (s.step env e).book.repeater.members, m.InRange) ∧
      ∀ m ∈ (s.step env e).book.repeater.pub, m.InRange from ⟨hrep.1, hrep.2.1, hrep.2.2, hpending⟩
  generalize (s.step env e).book.repeater = r at hstirs
  cases hstirs with
  | still => exact ⟨h.room, h.members, h.pub⟩
  | tick =>
    cases hmembers : s.book.repeater.members with
    | nil =>
      rw [Buffer.tick_nil hmembers]
      exact ⟨h.room, h.members, h.pub⟩
    | cons m rest =>
      have hroom := h.room
      have hall := h.members
      rw [hmembers, List.length_cons] at hroom
      rw [hmembers, List.forall_mem_cons] at hall
      rw [Buffer.tick_cons hmembers]
      refine ⟨by simp only; omega, hall.2, fun m' hm' => ?_⟩
      rcases List.mem_append.mp hm' with hold | hnew
      · exact h.pub m' hold
      · rw [List.mem_singleton.mp hnew]
        exact hall.1
  | taken hpub =>
    have hall := h.pub
    rw [hpub, List.forall_mem_cons] at hall
    exact ⟨h.room, h.members, hall.2⟩
  | parked hcall hins =>
    obtain ⟨hfull, hoften, rfl⟩ := Buffer.insert_ok hins
    have hroom := h.room
    refine ⟨?_, fun m' hm' => ?_, h.pub⟩
    · rw [List.length_append, List.length_singleton]
      omega
    · rcases List.mem_append.mp hm' with hold | hnew
      · exact h.members m' hold
      · rw [List.mem_singleton.mp hnew]
        exact ⟨Nat.le_add_left .., Nat.add_le_add_right hoften 1⟩

theorem live (h : s.Counted) (e : Life) : (s.live env e).Counted := by
  cases e with
  | genesis spec saveFails => exact h.of_repeater (createGenesis_repeater s.book env spec saveFails)
  | load sched stream => exact h.of_repeater (loadDag_repeater s.book sched stream)
  | restart truncate => exact of_nothing rfl rfl
  | trust address => exact h.of_repeater rfl
  | distrust address => exact h.of_repeater rfl
  | call e => exact h.step e

end Node.Counted

section Replay

variable {env : Env} {s : Node}

theorem Node.beginReplay_nil {faults : Faults} (h : s.book.repeater.pub = []) : s.beginReplay env faults = s := by
  rw [Node.beginReplay, h]

/-- SPEC (the subscriber): the next vertex leaves the channel and waits for the lock if it passes the checks. -/
theorem Node.beginReplay_cons {m : Memory} {pub : List Memory} {faults : Faults}
    (h : s.book.repeater.pub = m :: pub) :
    s.beginReplay env faults =
      ⟨{ s.book with repeater := { s.book.repeater with pub } },
        match s.book.addLeafChecks env m.vrx faults with
        | .error _ => s.pending
        | .ok () => s.pending ++ [.add m]⟩ := by
  -- the checks do not look at the replier
  have hbook : { s.book with repeater := { s.book.repeater with pub } }.addLeafChecks env m.vrx faults =
      s.book.addLeafChecks env m.vrx faults := rfl
  rw [Node.beginReplay, h]
  simp only [hbook]
  cases s.book.addLeafChecks env m.vrx faults with
  | error e => rfl
  | ok _ => rfl

end Replay

/-! ### Tickets -/

/-- A node, and beside it what waits with the number of the `AddLeaf` call that brought it, the number of those
    calls, and the tickets of the vertices that `addLeafMemorized` was called with. -/
structure Ticketed where
  node : Node
  members : List (ℕ × Memory)
  pub : List (ℕ × Memory)
  pending : List (ℕ × Memory)
  calls : ℕ
  attempts : List ℕ

namespace Ticketed

def fresh (truncate : UInt64) : Ticketed := ⟨Node.fresh truncate, [], [], [], 0, []⟩

/-- `addLeafMemorized` is called: one attempt more, which waits for the lock if it passes the checks. -/
def attempt (env : Env) (s : Ticketed) (t : ℕ) (m : Memory) (faults : Faults) : Ticketed :=
  { s with
    attempts := s.attempts ++ [t]
    pending := match s.node.book.addLeafChecks env m.vrx faults with
      | .error _ => s.pending
      | .ok () => s.pending ++ [(t, m)] }

/-- An event of the node. The number says whose call takes the lock where several wait with the same vertex; if
    it is nobody's nothing happens. -/
def step (env : Env) (s : Ticketed) (d : Life × ℕ) : Ticketed :=
  let node := s.node.live env d.1
  match d.1 with
  | .call (.beginAdd leaf faults) =>
    match s.node.book.addLeafGuard leaf with
    | .error _ => { s with node }
    | .ok () => { s.attempt env s.calls (newMemory leaf) faults with node, calls := s.calls + 1 }
  | .call (.beginReplay faults) =>
    match s.pub with
    | [] => { s with node }
    | (t, m) :: pub => { s.attempt env t m faults with node, pub }
  | .call (.finishAdd m _ _) =>
    if (d.2, m) ∈ s.pending then
      { s with
        node
        pending := s.pending.erase (d.2, m)
        members := if node.book.repeater = s.node.book.repeater then s.members
          else s.members ++ [(d.2, { m with repeated := m.repeated + 1 })] }
    else s
  | .call .tick =>
    match s.members with
    | [] => { s with node }
    | item :: members => { s with node, members, pub := s.pub ++ [item] }
  | .restart _ => { s with node, members := [], pub := [], pending := [] }
  | _ => { s with node }

/-- The tickets stand beside what waits in the node. -/
structure Beside (s : Ticketed) : Prop where
  members : s.members.map Prod.snd = s.node.book.repeater.members
  pub : s.pub.map Prod.snd = s.node.book.repeater.pub
  pending : ∀ m, (s.pending.map Prod.snd).count m = s.node.pending.count (.add m)

/-- What the vertex of a ticket may still cost: a parked one as many attempts as it has parkings left, a pending
    one the same without the attempt that is under way. -/
def parkedCredit (m : Memory) : ℕ := maxRepeats + 2 - m.repeated
def pendingCredit (m : Memory) : ℕ := maxRepeats + 1 - m.repeated

/-- Attempts made, and attempts that may still be made. -/
def cost (s : Ticketed) (t : ℕ) : ℕ :=
  s.attempts.count t + credits parkedCredit t s.members + credits parkedCredit t s.pub +
    credits pendingCredit t s.pending

/-! ### Tickets stay beside -/

namespace Beside

variable {env : Env} {s : Ticketed}

theorem fresh (truncate : UInt64) : (Ticketed.fresh truncate).Beside := ⟨rfl, rfl, fun _ => rfl⟩

theorem of_node (h : s.Beside) {node : Node} (hr : node.book.repeater = s.node.book.repeater)
    (hp : ∀ m, node.pending.count (.add m) = s.node.pending.count (.add m)) : Beside { s with node } := by
  refine ⟨?_, ?_, fun m => ?_⟩
  · rw [h.members, hr]
  · rw [h.pub, hr]
  · rw [h.pending, hp]

theorem waits (h : s.Beside) (t : ℕ) (m m' : Memory) :
    ((s.pending ++ [(t, m)]).map Prod.snd).count m' = (s.node.pending ++ [Call.add m]).count (.add m') := by
  rw [List.map_append, List.count_append, h.pending, List.count_append, List.map_singleton]
  rcases eq_or_ne m m' with rfl | hm
  · simp
  · have hcall : Call.add m ≠ .add m' := fun heq => hm (Call.add.inj heq)
    rw [List.count_singleton, List.count_singleton, if_neg (by simpa using hm), if_neg (by simpa using hcall)]

theorem add (h : s.Beside) (leaf : Vertex) (faults : Faults) (n : ℕ) :
    (s.step env (.call (.beginAdd leaf faults), n)).Beside := by
  simp only [Ticketed.step, Node.live, Node.step, Node.beginAdd]
  cases s.node.book.addLeafGuard leaf with
  | error e => exact h
  | ok _ =>
    have hvrx : (newMemory leaf).vrx = leaf := rfl
    simp only [attempt, hvrx]
    cases s.node.book.addLeafChecks env leaf faults with
    | error e => exact ⟨h.members, h.pub, h.pending⟩
    | ok _ => exact ⟨h.members, h.pub, h.waits _ _⟩

theorem replay (h : s.Beside) (faults : Faults) (n : ℕ) :
    (s.step env (.call (.beginReplay faults), n)).Beside := by
  have hpub := h.pub
  simp only [Ticketed.step, Node.live, Node.step]
  cases hitems : s.pub with
  | nil =>
    rw [hitems, List.map_nil] at hpub
    rw [Node.beginReplay_nil hpub.symm]
    exact ⟨h.members, hpub, h.pending⟩
  | cons item rest =>
    rw [hitems, List.map_cons] at hpub
    rw [Node.beginReplay_cons hpub.symm]
    simp only [attempt]
    cases s.node.book.addLeafChecks env item.2.vrx faults with
    | error e => exact ⟨h.members, rfl, h.pending⟩
    | ok _ => exact ⟨h.members, rfl, h.waits item.1 item.2⟩

theorem waited (h : s.Beside) {n : ℕ} {m : Memory} (hmem : (n, m) ∈ s.pending) :
    Call.add m ∈ s.node.pending ∧ ∀ m', ((s.pending.erase (n, m)).map Prod.snd).count m' =
      (s.node.pending.erase (.add m)).count (.add m') := by
  have hcall : Call.add m ∈ s.node.pending := by
    rw [← List.count_pos_iff, ← h.pending, List.count_pos_iff]
    exact List.mem_map_of_mem hmem
  refine ⟨hcall, fun m' => ?_⟩
  have hcount := h.pending m'
  rw [((List.perm_cons_erase hmem).map Prod.snd).count_eq, (List.perm_cons_erase hcall).count_eq, List.map_cons,
    List.count_cons, List.count_cons] at hcount
  have hsame : (m == m') = (Call.add m == Call.add m') := by
    rcases eq_or_ne m m' with rfl | hm
    · simp
    · have hne : Call.add m ≠ .add m' := fun heq => hm (Call.add.inj heq)
      rw [beq_eq_false_iff_ne.mpr hm, beq_eq_false_iff_ne.mpr hne]
  rw [hsame] at hcount
  exact Nat.add_right_cancel hcount

theorem finish (h : s.Beside) (m : Memory) (probe : Hash → Probe) (faults : Faults) (n : ℕ) :
    (s.step env (.call (.finishAdd m probe faults), n)).Beside := by
  simp only [Ticketed.step, Node.live]
  split
  next hmem =>
    obtain ⟨hcall, hpending⟩ := h.waited hmem
    have hparked : Parked m s.node.book.repeater (s.node.book.addLeafLocked env m probe faults).1.repeater :=
      addLeafLocked_repeater s.node.book m probe
    simp only [Node.step, if_pos hcall]
    rcases hparked with hsame | hins
    · refine ⟨?_, ?_, hpending⟩
      · rw [if_pos hsame, hsame]
        exact h.members
      · rw [hsame]
        exact h.pub
    · obtain ⟨-, -, hnew⟩ := Buffer.insert_ok hins
      have hdiffers : (s.node.book.addLeafLocked env m probe faults).1.repeater ≠ s.node.book.repeater := by
        intro heq
        have hlen := congrArg (fun r : Buffer => r.members.length) (hnew.symm.trans heq)
        simp at hlen
      refine ⟨?_, ?_, hpending⟩
      · rw [if_neg hdiffers, List.map_append, h.members, hnew]
        rfl
      · rw [hnew]
        exact h.pub
  next => exact h

theorem tick (h : s.Beside) (n : ℕ) : (s.step env (.call .tick, n)).Beside := by
  have hmembers := h.members
  simp only [Ticketed.step, Node.live, Node.step]
  cases hitems : s.members with
  | nil =>
    rw [hitems, List.map_nil] at hmembers
    rw [Buffer.tick_nil hmembers.symm]
    exact ⟨hmembers, h.pub, h.pending⟩
  | cons item rest =>
    rw [hitems, List.map_cons] at hmembers
    rw [Buffer.tick_cons hmembers.symm]
    refine ⟨rfl, ?_, h.pending⟩
    rw [List.map_append, h.pub, List.map_singleton]

theorem step (h : s.Beside) (d : Life × ℕ) : (s.step env d).Beside := by
  obtain ⟨e, n⟩ := d
  cases e with
  | genesis spec saveFails => exact h.of_node (createGenesis_repeater s.node.book env spec saveFails) fun _ => rfl
  | load sched stream => exact h.of_node (loadDag_repeater s.node.book sched stream) fun _ => rfl
  | restart truncate => exact ⟨rfl, rfl, fun _ => rfl⟩
  | trust address => exact h.of_node rfl fun _ => rfl
  | distrust address => exact h.of_node rfl fun _ => rfl
  | call e =>
    cases e with
    | beginCreate trx faults =>
      refine h.of_node ?_ fun m => ?_
      · simp only [Node.live, Node.step, Node.beginCreate]
        split <;> rfl
      · simp only [Node.live, Node.step, Node.beginCreate]
        split
        · rfl
        · simp
    | beginAdd leaf faults => exact h.add leaf faults n
    | beginReplay faults => exact h.replay faults n
    | finishCreate trx first second now faults =>
      refine h.of_node ?_ fun m => ?_
      · simp only [Node.live, Node.step]
        split
        · exact createLeafLocked_repeater s.node.book trx first second now
        · rfl
      · simp only [Node.live, Node.step]
        split
        · exact List.count_erase_of_ne (by simp)
        · rfl
    | finishAdd m probe faults => exact h.finish m probe faults n
    | tick => exact h.tick n
    | truncate t =>
      obtain ⟨db, dag, k, heq⟩ := truncate_writes env s.node.book t
      refine h.of_node ?_ fun _ => rfl
      simp only [Node.live, Node.step, heq]

end Beside

/-! ### Costs -/

section Costs

variable {env : Env} {s : Ticketed}

theorem attempt_cost (s : Ticketed) (n : ℕ) (m : Memory) (faults : Faults) (t : ℕ) :
    (s.attempt env n m faults).cost t ≤ s.cost t + if n = t then 1 + pendingCredit m else 0 := by
  have hcount : (s.attempts ++ [n]).count t = s.attempts.count t + if n = t then 1 else 0 := by
    rw [List.count_append, List.count_singleton]
    simp
  simp only [attempt, cost, hcount]
  cases s.node.book.addLeafChecks env m.vrx faults with
  | error e =>
    simp only
    split <;> omega
  | ok _ =>
    simp only [credits_append, credits_cons, credits_nil]
    split <;> omega

/-- From one state to the next, costs grow only by tickets that are given out, each by what it is worth. -/
structure Pays (s s' : Ticketed) : Prop where
  calls : s.calls ≤ s'.calls
  cost : ∀ t, s'.cost t ≤ s.cost t + if s.calls ≤ t ∧ t < s'.calls then maxRepeats + 2 else 0

theorem Pays.of_le {s' : Ticketed} (hcalls : s'.calls = s.calls) (hcost : ∀ t, s'.cost t ≤ s.cost t) : Pays s s' :=
  ⟨hcalls.ge, fun t => (hcost t).trans (Nat.le_add_right _ _)⟩

theorem pays_add (s : Ticketed) (leaf : Vertex) (faults : Faults) (n : ℕ) :
    Pays s (s.step env (.call (.beginAdd leaf faults), n)) := by
  simp only [step]
  cases s.node.book.addLeafGuard leaf with
  | error e => exact .of_le rfl fun _ => le_rfl
  | ok _ =>
    refine ⟨Nat.le_succ _, fun t => ?_⟩
    have hattempt : (s.attempt env s.calls (newMemory leaf) faults).cost t ≤
        s.cost t + if s.calls = t then maxRepeats + 2 else 0 := attempt_cost s s.calls (newMemory leaf) faults t
    refine hattempt.trans (Nat.add_le_add_left ?_ _)
    split
    next heq => rw [if_pos ⟨heq.le, heq ▸ Nat.lt_succ_self _⟩]
    next => exact Nat.zero_le _

theorem pays_replay (hb : s.Beside) (hc : s.node.Counted) (faults : Faults) (n : ℕ) :
    Pays s (s.step env (.call (.beginReplay faults), n)) := by
  simp only [step]
  cases hitems : s.pub with
  | nil =>
    refine .of_le rfl fun t => ?_
    simp only [cost, hitems]
    exact le_rfl
  | cons item rest =>
    have hrange : item.2.repeated ≤ maxRepeats + 1 := by
      refine (hc.pub item.2 ?_).2
      rw [← hb.pub, hitems]
      exact List.mem_cons_self ..
    have hpaid : parkedCredit item.2 = 1 + pendingCredit item.2 := by
      simp only [parkedCredit, pendingCredit]
      omega
    refine .of_le rfl fun t => ?_
    -- without the vertex in the channel, the state costs as much less as the attempt costs more
    have hattempt : (attempt env { s with pub := rest } item.1 item.2 faults).cost t ≤ _ :=
      attempt_cost { s with pub := rest } item.1 item.2 faults t
    refine hattempt.trans ?_
    simp only [cost, hitems, credits_cons, hpaid]
    omega

theorem pays_finish (s : Ticketed) (m : Memory) (probe : Hash → Probe) (faults : Faults) (n : ℕ) :
    Pays s (s.step env (.call (.finishAdd m probe faults), n)) := by
  simp only [step]
  split
  next hmem =>
    refine .of_le rfl fun t => ?_
    have herase := credits_erase pendingCredit t hmem
    simp only [cost, herase]
    split
    next => omega
    next hdiffers =>
      have hparked : parkedCredit { m with repeated := m.repeated + 1 } = pendingCredit m := by
        simp only [parkedCredit, pendingCredit]
        omega
      simp only [credits_append, credits_cons, credits_nil, hparked]
      omega
  next => exact .of_le rfl fun _ => le_rfl

theorem pays_tick (s : Ticketed) (n : ℕ) : Pays s (s.step env (.call .tick, n)) := by
  simp only [step]
  cases hitems : s.members with
  | nil =>
    refine .of_le rfl fun t => ?_
    simp only [cost, hitems]
    exact le_rfl
  | cons item rest =>
    refine .of_le rfl fun t => ?_
    simp only [cost, hitems, credits_append, credits_cons, credits_nil]
    omega

theorem pays_step (hb : s.Beside) (hc : s.node.Counted) (d : Life × ℕ) : Pays s (s.step env d) := by
  obtain ⟨e, n⟩ := d
  cases e with
  | restart truncate =>
    refine .of_le rfl fun t => ?_
    simp only [step, cost, credits_nil]
    omega
  | call e =>
    cases e with
    | beginAdd leaf faults => exact pays_add s leaf faults n
    | beginReplay faults => exact pays_replay hb hc faults n
    | finishAdd m probe faults => exact pays_finish s m probe faults n
    | tick => exact pays_tick s n
    | beginCreate trx faults => exact .of_le rfl fun _ => le_rfl
    | finishCreate trx first second now faults => exact .of_le rfl fun _ => le_rfl
    | truncate t => exact .of_le rfl fun _ => le_rfl
  | genesis spec saveFails => exact .of_le rfl fun _ => le_rfl
  | load sched stream => exact .of_le rfl fun _ => le_rfl
  | trust address => exact .of_le rfl fun _ => le_rfl
  | distrust address => exact .of_le rfl fun _ => le_rfl

end Costs

/-! ### Runs -/

section Runs

variable {env : Env} {s : Ticketed}

theorem node_step_ne (s : Ticketed) {e : Life} (n : ℕ)
    (h : ∀ m probe faults, e ≠ .call (.finishAdd m probe faults)) :
    (s.step env (e, n)).node = s.node.live env e := by
  cases e with
  | call e =>
    cases e with
    | beginAdd leaf faults =>
      simp only [step]
      split <;> rfl
    | beginReplay faults =>
      simp only [step]
      split <;> rfl
    | finishAdd m probe faults => exact absurd rfl (h m probe faults)
    | tick =>
      simp only [step]
      split <;> rfl
    | _ => rfl
  | _ => rfl

theorem node_step (s : Ticketed) (d : Life × ℕ) :
    (s.step env d).node = s.node.live env d.1 ∨ s.step env d = s := by
  obtain ⟨e, n⟩ := d
  by_cases hfinish : ∃ m probe faults, e = .call (.finishAdd m probe faults)
  · obtain ⟨m, probe, faults, rfl⟩ := hfinish
    simp only [step]
    split
    · exact .inl rfl
    · exact .inr rfl
  · simp only [not_exists] at hfinish
    exact .inl (node_step_ne s n hfinish)

/-- INVARIANT: tickets are beside what waits, counts are in range, and no ticket costs more than it is worth. -/
structure Sound (s : Ticketed) : Prop where
  beside : s.Beside
  counted : s.node.Counted
  within : ∀ t, s.cost t ≤ if t < s.calls then maxRepeats + 2 else 0

theorem Sound.fresh (truncate : UInt64) : (Ticketed.fresh truncate).Sound where
  beside := Beside.fresh truncate
  counted := Node.Counted.of_nothing rfl rfl
  within _ := Nat.zero_le _

theorem Sound.step (h : s.Sound) (d : Life × ℕ) : (s.step env d).Sound where
  beside := h.beside.step d
  counted := by
    rcases node_step s d with hnode | hsame
    · rw [hnode]
      exact h.counted.live d.1
    · rw [hsame]
      exact h.counted
  within t := by
    have hpays : Pays s (s.step env d) := pays_step h.beside h.counted d
    have hcost := hpays.cost t
    have hold := h.within t
    have hcalls := hpays.calls
    split_ifs at hcost hold ⊢ <;> omega

theorem Sound.run (env : Env) (truncate : UInt64) (ds : List (Life × ℕ)) :
    (Schemes.run (Ticketed.step env) (Ticketed.fresh truncate) ds).Sound :=
  run_invariant (fun _ d hs => hs.step d) ds (Sound.fresh truncate)

theorem Beside.exists_ticket (h : s.Beside) (env : Env) (e : Life) :
    ∃ n, (s.step env (e, n)).node = s.node.live env e := by
  by_cases hfinish : ∃ m probe faults, e = .call (.finishAdd m probe faults)
  · obtain ⟨m, probe, faults, rfl⟩ := hfinish
    by_cases hcall : Call.add m ∈ s.node.pending
    · -- the call has a ticket
      have hmem : m ∈ s.pending.map Prod.snd := by
        rw [← List.count_pos_iff, h.pending, List.count_pos_iff]
        exact hcall
      obtain ⟨⟨n, _⟩, hitem, rfl⟩ := List.mem_map.mp hmem
      exact ⟨n, by simp only [Ticketed.step, if_pos hitem]⟩
    · -- the node has no such call, and it does nothing either
      have hidle : (0, m) ∉ s.pending := fun hmem => hcall (h.waited hmem).1
      refine ⟨0, ?_⟩
      simp only [Ticketed.step, if_neg hidle, Node.live, Node.step, if_neg hcall]
  · simp only [not_exists] at hfinish
    exact ⟨0, node_step_ne s 0 hfinish⟩

theorem ticketed_run (env : Env) (truncate : UInt64) (es : List Life) : ∃ ds, ds.map Prod.fst = es ∧
    (Schemes.run (Ticketed.step env) (fresh truncate) ds).node =
      Schemes.run (Node.live env) (Node.fresh truncate) es := by
  induction es using List.reverseRecOn with
  | nil => exact ⟨[], rfl, rfl⟩
  | append_singleton es e ih =>
    obtain ⟨ds, hds, hnode⟩ := ih
    obtain ⟨n, hn⟩ := (Sound.run env truncate ds).beside.exists_ticket env e
    refine ⟨ds ++ [(e, n)], by rw [List.map_append, hds, List.map_singleton], ?_⟩
    rw [run_append, run_append, run_cons, run_nil, run_cons, run_nil, hn, hnode]

end Runs

end Ticketed

/-- BOUND: however calls, ticks and replays follow each other, the vertex of one `AddLeaf` call is tried at most
    27 times, the replier has at most 500 members, and their counts are between 1 and 26. Nothing is lost by the
    tickets: every run of the node has some. -/
theorem retrying_ends (env : Env) (truncate : UInt64) (es : List Life) :
    (∀ ds : List (Life × ℕ), ds.map Prod.fst = es → ∀ call,
      (run (Ticketed.step env) (Ticketed.fresh truncate) ds).attempts.count call ≤ maxRepeats + 2) ∧
    (∃ ds : List (Life × ℕ), ds.map Prod.fst = es ∧
      (run (Ticketed.step env) (Ticketed.fresh truncate) ds).node = run (Node.live env) (Node.fresh truncate) es) ∧
    (run (Node.live env) (Node.fresh truncate) es).book.repeater.members.length ≤ maxArraySize ∧
    ∀ m ∈ (run (Node.live env) (Node.fresh truncate) es).book.repeater.members,
      1 ≤ m.repeated ∧ m.repeated ≤ maxRepeats + 1 := by
  have hcounted : (run (Node.live env) (Node.fresh truncate) es).Counted :=
    run_invariant (fun _ e hs => hs.live e) es (Node.Counted.of_nothing rfl rfl)
  refine ⟨fun ds _ call => ?_, Ticketed.ticketed_run env truncate es, hcounted.room, hcounted.members⟩
  have hwithin := (Ticketed.Sound.run env truncate ds).within call
  rw [Ticketed.cost] at hwithin
  split at hwithin <;> omega

namespace Transparent

/-- A vertex whose parents nobody has. -/
def orphan : Vertex := sealed (trx (wallet 7) (wallet 8) ⟨4, 0⟩ [] 3) zeroVertex zeroVertex 1 4

/-- It is parked for the `n`-th time, if it still is, and comes back. -/
def comesBack (n : ℕ) : List (Life × ℕ) :=
  [(.call (.finishAdd ⟨orphan, n⟩ (fun _ => .calm []) .none), 0), (.call .tick, 0),
    (.call (.beginReplay .none), 0)]

end Transparent

open Transparent in
/-- The bound is reached. -/
example : (run (Ticketed.step (env hub)) (Ticketed.fresh 0)
    ((.genesis (genesisSpec 10) false, 0) :: (.call (.beginAdd orphan .none), 0) ::
      (List.range 30).flatMap comesBack)).attempts = List.replicate (maxRepeats + 2) 0 := by decide +kernel

end Computantis
