import Computantis.Laws.Keeping

/-! @law signals | name:Inserting callers and the truncation goroutine | family:safety | about:Model/Node

    A caller sends the weight of its vertex while it holds the mutex, and the only reader of the channel
    needs that mutex between two receives. The channel is full after `signalCapacity` weights. So callers
    and goroutine can block each other: it is enough that one more caller than there are free slots gets
    the mutex between the receive of a weight that asks for a truncation and the truncation.

        receiving ──w──▶ holding w ──mutex──▶ receiving
                             │  callers: send, send, …, blocked                                       -/

namespace Computantis

open Schemes

/-! ### What a call sends -/

/-- The signals on their way to the truncation goroutine, and the mark it compares them with. -/
def Book.signalling (b : Book) : List UInt64 × UInt64 := (b.truncateSignal, b.nextWeightTruncate)

section Sends

variable (env : Env) (faults : Faults)

@[simp] theorem removeTrx_signalling (b : Book) (h : Hash) (fails : Bool) :
    (b.removeTrxInVertex h fails).signalling = b.signalling := by
  unfold Book.removeTrxInVertex
  split <;> rfl

@[simp] theorem discard_signalling (b : Book) (v : Vertex) :
    (b.discard v faults).signalling = b.signalling := by
  rw [Book.discard, removeTrx_signalling]
  rfl

theorem dismiss_signalling (b : Book) (v : Vertex) (e : Err) :
    (b.dismiss v e faults).signalling = b.signalling := by
  unfold Book.dismiss
  split
  · rfl
  · exact discard_signalling faults b v

@[simp] theorem updateWeight_signalling (b : Book) (w : UInt64) :
    (b.updateWeightAndThroughput w).signalling = b.signalling := rfl

theorem pickLeaves_signalling (probe : Hash → Probe) (todo : List Vertex) : ∀ (found : List Vertex)
    (err : Option Err) (b : Book),
    (Book.pickLeaves env probe faults todo found err b).1.signalling = b.signalling := by
  induction todo with
  | nil => exact fun _ _ _ => rfl
  | cons v todo ih =>
    intro found err b
    rw [Book.pickLeaves]
    split
    · rfl
    · split
      · split
        · rfl
        · rw [ih, updateWeight_signalling, discard_signalling]
      · exact ih _ _ _

theorem checkParents_signalling (m : Memory) (probe : Hash → Probe) (hs : List Hash) :
    ∀ (validated : List Vertex) (b : Book),
    (b.checkParents env m probe faults hs validated).1.signalling = b.signalling := by
  induction hs with
  | nil => exact fun _ _ => rfl
  | cons h hs ih =>
    intro validated b
    rw [Book.checkParents]
    split
    · split <;> rfl
    · split
      · split
        · exact dismiss_signalling faults _ _ _
        · exact ih _ _
      · exact ih _ _

theorem insertVertex_signalling (b : Book) (leaf : Vertex) (parents : List Vertex) (onSave : Err → Err)
    (rejected : Err) :
    (b.insertVertex leaf parents faults onSave rejected).1.signalling = b.signalling ∨
      (b.insertVertex leaf parents faults onSave rejected).1.signalling =
        (b.signalling.1 ++ [leaf.weight], b.signalling.2) := by
  have h := insertVertex_cases b leaf parents faults onSave rejected
  generalize b.insertVertex leaf parents faults onSave rejected = res at h ⊢
  cases h with
  | unsaved => exact Or.inl rfl
  | known => exact Or.inl (removeTrx_signalling _ _ _)
  | torn => exact Or.inl (discard_signalling faults _ _)
  | done => exact Or.inr rfl

theorem addLeafLocked_signalling (b : Book) (m : Memory) (probe : Hash → Probe) :
    (b.addLeafLocked env m probe faults).1.signalling = b.signalling ∨
      ∃ w, (b.addLeafLocked env m probe faults).1.signalling = (b.signalling.1 ++ [w], b.signalling.2) := by
  have hparents := checkParents_signalling env faults m probe m.vrx.parentHashes [] b
  unfold Book.addLeafLocked
  split
  next hres =>
    rw [hres] at hparents
    exact Or.inl hparents
  next b1 validated hres =>
    rw [hres] at hparents
    have hsend := insertVertex_signalling faults b1 m.vrx validated (.errUnexpected :: ·) [.errLeafRejected]
    rw [hparents] at hsend
    exact hsend.imp_right fun h => ⟨_, h⟩

theorem createLeafLocked_signalling (b : Book) (trx : Transaction) (first second : Book.Pass) (now : Time) :
    (b.createLeafLocked env trx first second now faults).1.signalling = b.signalling ∨
      ∃ w, (b.createLeafLocked env trx first second now faults).1.signalling =
        (b.signalling.1 ++ [w], b.signalling.2) := by
  have hpick : ∀ (b : Book) (pass : Book.Pass),
      (b.getValidLeaves env pass faults).1.signalling = b.signalling :=
    fun b pass => pickLeaves_signalling env faults pass.probe _ [] none b
  have hfirst := hpick b first
  unfold Book.createLeafLocked
  split
  next hres =>
    rw [hres] at hfirst
    exact Or.inl hfirst
  next b1 leftLeaf found hres =>
    rw [hres] at hfirst
    have hsend := insertVertex_signalling faults b1 (Book.tip env trx leftLeaf (found.headD leftLeaf) now)
      [leftLeaf, found.headD leftLeaf] (fun _ => [.errUnexpected]) [.errNewLeafRejected]
    rw [hfirst] at hsend
    unfold Book.sealTip
    simp only
    split <;>
    next hins =>
      rw [hins] at hsend
      exact hsend.imp_right fun h => ⟨_, h⟩
  next b1 hres =>
    rw [hres] at hfirst
    have hsecond := hpick b1 second
    rw [hfirst] at hsecond
    refine Or.inl ?_
    split <;>
    next hagain =>
      rw [hagain] at hsecond
      exact hsecond

theorem step_signalling (s : Node) {e : Event} (he : e.Ordinary) :
    (s.step env e).book.signalling = s.book.signalling ∨
      (e.locks = true ∧
        ∃ w, (s.step env e).book.signalling = (s.book.signalling.1 ++ [w], s.book.signalling.2)) := by
  cases e with
  | beginCreate trx faults =>
    left
    rw [Node.step, Node.beginCreate]
    split <;> rfl
  | beginAdd leaf faults =>
    left
    rw [Node.step, Node.beginAdd]
    split
    · rfl
    · split <;> rfl
  | beginReplay faults =>
    left
    rw [Node.step, Node.beginReplay]
    split
    · rfl
    · simp only
      split <;> rfl
  | finishCreate trx first second now faults =>
    rw [Node.step]
    split
    · exact (createLeafLocked_signalling env faults s.book trx first second now).imp_right fun h => ⟨rfl, h⟩
    · exact Or.inl rfl
  | finishAdd m probe faults =>
    rw [Node.step]
    split
    · exact (addLeafLocked_signalling env faults s.book m probe).imp_right fun h => ⟨rfl, h⟩
    · exact Or.inl rfl
  | tick => exact Or.inl rfl
  | truncate t => exact he.elim

end Sends

theorem truncate_signalling (env : Env) (b : Book) (t : TruncateSchedule) :
    (b.truncate env t).1.signalling = b.signalling := by
  obtain ⟨db, dag, n, hwrites⟩ := truncate_writes env b t
  rw [hwrites]
  rfl

theorem step_mark (env : Env) (s : Node) (e : Event) :
    (s.step env e).book.nextWeightTruncate = s.book.nextWeightTruncate := by
  have hordinary : ∀ {e : Event}, e.Ordinary →
      (s.step env e).book.nextWeightTruncate = s.book.nextWeightTruncate := by
    intro e he
    rcases step_signalling env s he with hsame | ⟨-, w, hsent⟩
    · exact congrArg Prod.snd hsame
    · exact congrArg Prod.snd hsent
  cases e with
  | truncate t => exact congrArg Prod.snd (truncate_signalling env s.book t)
  | _ =>
    apply hordinary
    trivial

/-! ### What a step does to the channel -/

/-- How many callers the event lets take the mutex. -/
def Keeper.Event.grants : Keeper.Event → ℕ
  | .call e => if e.locks then 1 else 0
  | _ => 0

/-- How many callers take the mutex in the course of the events. -/
def grants (es : List Keeper.Event) : ℕ := (es.map Keeper.Event.grants).sum

@[simp] theorem grants_nil : grants [] = 0 := rfl

@[simp] theorem grants_cons (e : Keeper.Event) (es : List Keeper.Event) :
    grants (e :: es) = e.grants + grants es := by simp [grants]

@[simp] theorem grants_append (es fs : List Keeper.Event) : grants (es ++ fs) = grants es + grants fs := by
  simp [grants]

/-- The calls are calls of the book, not truncations. -/
def Keeper.Event.Ordinary : Keeper.Event → Prop
  | .call e => Computantis.Event.Ordinary e
  | _ => True

theorem Keeper.step_signals_le (env : Env) (k : Keeper) {e : Keeper.Event} (he : e.Ordinary) :
    (k.step env e).node.book.truncateSignal.length ≤ k.node.book.truncateSignal.length + e.grants := by
  cases e with
  | call e =>
    rcases step_signalling env k.node he with hsame | ⟨hlocks, w, hsent⟩
    · have hsignals : (k.node.step env e).book.truncateSignal = _ := congrArg Prod.fst hsame
      rw [Keeper.step, hsignals]
      exact Nat.le_add_right _ _
    · have hsignals : (k.node.step env e).book.truncateSignal = _ := congrArg Prod.fst hsent
      rw [Keeper.step, hsignals, List.length_append, Keeper.Event.grants, if_pos hlocks]
      rfl
  | receive =>
    rw [Keeper.step, Keeper.receive]
    split
    next hsignals =>
      rw [hsignals, List.length_cons]
      exact (Nat.le_succ _).trans (Nat.le_add_right _ _)
    · exact Nat.le_add_right _ _
  | truncate t =>
    have hsame := congrArg Prod.fst (truncate_signalling env k.node.book t)
    rw [Keeper.step, Keeper.truncate]
    split
    · split
      next hres =>
        rw [hres] at hsame
        exact (congrArg List.length hsame).le.trans (Nat.le_add_right _ _)
      next hres =>
        rw [hres] at hsame
        exact (congrArg List.length hsame).le.trans (Nat.le_add_right _ _)
    · exact Nat.le_add_right _ _

namespace Channelled

variable (env : Env) {s : Channelled}

theorem step_of_room {k : Keeper} {e : Keeper.Event} (he : e.Ordinary)
    (hroom : k.node.book.truncateSignal.length + e.grants ≤ signalCapacity) :
    step env ⟨k, none⟩ e = ⟨k.step env e, none⟩ := by
  have hlen := (k.step_signals_le env he).trans hroom
  cases e with
  | call e =>
    simp only [step, call, Option.isSome_none, Bool.and_false, Bool.false_eq_true, if_false]
    rw [if_pos hlen]
  | receive =>
    simp only [step, receive, Keeper.step]
    split
    · simp [setBuffer]
    next hidle =>
      rw [Keeper.receive]
      split
      next hphase hsignals => exact absurd ⟨hphase, by simp [buffer, hsignals]⟩ hidle
      · rfl
  | truncate t => simp [step, Keeper.step]

/-- RUN: as long as no more callers come than there are free slots, nobody blocks. -/
theorem run_of_room (es : List Keeper.Event) : ∀ {k : Keeper}, (∀ e ∈ es, e.Ordinary) →
    k.node.book.truncateSignal.length + grants es ≤ signalCapacity →
    run (step env) ⟨k, none⟩ es = ⟨run (Keeper.step env) k es, none⟩ ∧
      (run (Keeper.step env) k es).node.book.truncateSignal.length ≤
        k.node.book.truncateSignal.length + grants es := by
  induction es with
  | nil => exact fun _ _ => ⟨rfl, le_rfl⟩
  | cons e es ih =>
    intro k he hroom
    rw [grants_cons] at hroom ⊢
    have he1 := he e (List.mem_cons_self ..)
    have hlen := k.step_signals_le env he1
    obtain ⟨hend, hbuf⟩ := ih (k := k.step env e) (fun f hf => he f (List.mem_cons_of_mem _ hf)) (by omega)
    rw [run_cons, run_cons, step_of_room env he1 (by omega)]
    exact ⟨hend, by omega⟩

theorem away_step {e : Keeper.Event} (hhere : ¬ s.Away) (haway : (s.step env e).Away) :
    (s.step env e).sender = none := by
  have hphase : s.keeper.truncator = .receiving := not_not.mp hhere
  cases e with
  | call e =>
    refine absurd haway (not_not.mpr ?_)
    simp only [step, call]
    split
    · exact hphase
    · split <;> exact hphase
  | receive =>
    rw [step, receive] at haway ⊢
    split at haway
    next hready => rw [if_pos hready]
    next hready => exact absurd haway hhere
  | truncate t =>
    refine absurd haway (not_not.mpr ?_)
    simp only [step]
    split
    · exact hphase
    · simp only [Keeper.truncate, hphase]

/-- RUN: when the goroutine is away, it has been so since some moment at which no sender was blocked. -/
theorem away_since (hhere : ¬ s.Away) (es : List Keeper.Event) : (run (step env) s es).Away →
    ∃ as bs, es = as ++ bs ∧ (∀ ds, ds <+: bs → (run (step env) s (as ++ ds)).Away) ∧
      (run (step env) s as).sender = none := by
  induction es using List.reverseRecOn with
  | nil => exact fun haway => absurd haway hhere
  | append_singleton es e ih =>
    intro haway
    by_cases hbefore : (run (step env) s es).Away
    · obtain ⟨as, bs, rfl, hall, hfree⟩ := ih hbefore
      refine ⟨as, bs ++ [e], by rw [List.append_assoc], fun ds hds => ?_, hfree⟩
      rcases List.prefix_concat_iff.mp hds with rfl | hds
      · rw [← List.append_assoc]
        exact haway
      · exact hall ds hds
    · refine ⟨es ++ [e], [], by simp, fun ds hds => ?_, ?_⟩
      · rw [List.prefix_nil.mp hds, List.append_nil]
        exact haway
      · rw [run_append] at haway ⊢
        exact away_step env hbefore haway

end Channelled

/-- While the goroutine is away from its receive, no more callers take the mutex than the channel had
    free slots when it left. -/
def Timely (env : Env) (s : Channelled) (es : List Keeper.Event) : Prop :=
  ∀ as bs, as ++ bs <+: es → (∀ ds, ds <+: bs → (run (Channelled.step env) s (as ++ ds)).Away) →
    (run (Channelled.step env) s as).buffer.length + grants bs ≤ signalCapacity

/-- NO DEADLOCK: in every run in which the goroutine is never kept away for longer than the channel has
    room, no state that is reached is a deadlock. -/
theorem insertion_never_deadlocks {env : Env} {s : Channelled} (hhere : s.keeper.truncator = .receiving)
    {es : List Keeper.Event} (hes : ∀ e ∈ es, e.Ordinary) (htime : Timely env s es) {fs : List Keeper.Event}
    (hfs : fs <+: es) : ¬ (run (Channelled.step env) s fs).Deadlocked := by
  rintro ⟨hsender, haway⟩
  obtain ⟨as, bs, rfl, hall, hfree⟩ := Channelled.away_since env (not_not.mpr hhere) fs haway
  have hroom := htime as bs hfs hall
  have hbs : ∀ e ∈ bs, e.Ordinary := fun e he => hes e (hfs.subset (List.mem_append_right as he))
  rw [run_append] at hsender
  generalize run (Channelled.step env) s as = c at hfree hroom hsender
  obtain ⟨k, sender⟩ := c
  cases hfree
  rw [(Channelled.run_of_room env bs hbs hroom).1] at hsender
  cases hsender

theorem timely_of_few (env : Env) {k : Keeper} (hempty : k.node.book.truncateSignal = [])
    {es : List Keeper.Event} (hes : ∀ e ∈ es, e.Ordinary) (hfew : grants es ≤ signalCapacity) :
    Timely env ⟨k, none⟩ es := by
  rintro as bs ⟨cs, rfl⟩ -
  rw [grants_append, grants_append] at hfew
  have has : ∀ e ∈ as, e.Ordinary := fun e he => hes e (by simp [he])
  obtain ⟨hrun, hlen⟩ := Channelled.run_of_room env as (k := k) has (by rw [hempty, List.length_nil]; omega)
  rw [hempty, List.length_nil] at hlen
  simp only [hrun, Channelled.buffer]
  omega

theorem Channelled.blocks (env : Env) {s : Node} {p : Truncator} {e : Event} {w : UInt64}
    (hlen : s.book.truncateSignal.length = signalCapacity)
    (hsent : (s.step env e).book.truncateSignal = s.book.truncateSignal ++ [w]) :
    Channelled.step env ⟨⟨s, p⟩, none⟩ (.call e) =
      ⟨Channelled.setBuffer ⟨s.step env e, p⟩ s.book.truncateSignal, some w⟩ := by
  simp only [Channelled.step, Channelled.call, Option.isSome_none, Bool.and_false, Bool.false_eq_true,
    if_false, Keeper.step, hsent]
  rw [if_neg (by simp [hlen]), ← hlen, List.take_left, List.getLast?_concat]

namespace Transparent

theorem linkCalls_ordinary {receiver : Address} {j : ℕ} {e : Keeper.Event} (he : e ∈ linkCalls receiver j) :
    e.Ordinary := by
  simp only [linkCalls, addEvents, List.map_cons, List.map_nil, List.mem_cons, List.not_mem_nil,
    or_false] at he
  rcases he with rfl | rfl <;> trivial

/-- Links after the first `n` that are added while nobody receives. -/
def crowd (receiver : Address) (n : ℕ) : ℕ → List Keeper.Event
  | 0 => []
  | m + 1 => crowd receiver n m ++ linkCalls receiver (n + m + 1)

section Crowding

variable {receiver : Address} {n : ℕ} {s : Node}

theorem crowd_ordinary (m : ℕ) : ∀ e ∈ crowd receiver n m, e.Ordinary := by
  induction m with
  | zero => simp [crowd]
  | succ m ih =>
    intro e he
    rcases List.mem_append.mp he with he | he
    · exact ih e he
    · exact linkCalls_ordinary he

@[simp] theorem grants_linkCalls (j : ℕ) : grants (linkCalls receiver j) = 1 := rfl

theorem grants_crowd (m : ℕ) : grants (crowd receiver n m) = m := by
  induction m with
  | zero => rfl
  | succ m ih => rw [crowd, grants_append, ih, grants_linkCalls]

/-- RUN: a link that is added and received at once passes through the channel. -/
theorem run_drained_channelled (hpay : FirstPays receiver) (n : ℕ) : n ≤ 101001 →
    run (Channelled.step (env hub)) ⟨⟨start 10, .receiving⟩, none⟩ (drained receiver n) =
      ⟨run (Keeper.step (env hub)) ⟨start 10, .receiving⟩ (drained receiver n), none⟩ := by
  induction n with
  | zero =>
    rw [drained_zero]
    exact fun _ => rfl
  | succ n ih =>
    intro hn
    obtain ⟨s, -, hempty, hrun⟩ := run_drained hpay n (by omega)
    have hordinary : ∀ e ∈ linkCalls receiver (n + 1) ++ [.receive], e.Ordinary := by
      intro e he
      rcases List.mem_append.mp he with he | he
      · exact linkCalls_ordinary he
      · rw [List.mem_singleton.mp he]
        trivial
    have hroom : s.book.truncateSignal.length + grants (linkCalls receiver (n + 1) ++ [.receive]) ≤
        signalCapacity := by
      rw [hempty, grants_append, grants_linkCalls]
      decide
    have hlink := (Channelled.run_of_room (env hub) _ (k := ⟨s, .receiving⟩) hordinary hroom).1
    rw [drained_succ, run_append (Channelled.step (env hub)), run_append (Keeper.step (env hub)), ih (by omega),
      hrun, hlink]

/-- RUN: what is added while nobody receives stays in the channel. -/
theorem run_crowd (hpay : FirstPays receiver) {p : Truncator} (h : Extends receiver n s)
    (hempty : s.book.truncateSignal = []) (hn : n < 2 ^ 31) (m : ℕ) : m < 2 ^ 31 →
    ∃ s', Extends receiver (n + m) s' ∧ s'.book.truncateSignal.length = m ∧
      run (Keeper.step (env hub)) ⟨s, p⟩ (crowd receiver n m) = ⟨s', p⟩ := by
  induction m with
  | zero => exact fun _ => ⟨s, h, by rw [hempty]; rfl, rfl⟩
  | succ m ih =>
    intro hm
    obtain ⟨s', hs', hlen, hrun⟩ := ih (by omega)
    obtain ⟨s'', hs'', hsignals, hrun'⟩ := hs'.add hpay (by omega)
    refine ⟨s'', hs'', ?_, ?_⟩
    · rw [hsignals, List.length_append, hlen]
      rfl
    · rw [crowd, run_append, hrun, hrun']

theorem Extends.blocks (h : Extends receiver n s) (hn : n < 2 ^ 32) (p : Truncator)
    (hlen : s.book.truncateSignal.length = signalCapacity) :
    let c := run (Channelled.step (env hub)) ⟨⟨s, p⟩, none⟩ (linkCalls receiver (n + 1))
    c.sender.isSome ∧ c.keeper.truncator = p := by
  have hready := h.chain.ready hn h.valid
  obtain ⟨dag, -, hrun⟩ := hready.add_appends
  have hbegin : Channelled.step (env hub) ⟨⟨s, p⟩, none⟩ (.call (.beginAdd (link receiver (n + 1)) .none)) =
      ⟨⟨⟨s.book, [.add (newMemory (link receiver (n + 1)))]⟩, p⟩, none⟩ := by
    have hordinary : (Keeper.Event.call (.beginAdd (link receiver (n + 1)) .none)).Ordinary := trivial
    rw [Channelled.step_of_room (env hub) (k := ⟨s, p⟩) hordinary hlen.le, Keeper.step, hready.begin_ok]
  rw [run_cons, hready.begin_ok, run_cons, run_nil] at hrun
  have hsent : (Node.step (env hub) ⟨s.book, [.add (newMemory (link receiver (n + 1)))]⟩
      (.finishAdd (newMemory (link receiver (n + 1))) (fun _ => .calm []) .none)).book.truncateSignal =
        s.book.truncateSignal ++ [(link receiver (n + 1)).weight] := by rw [hrun]
  simp only [linkCalls, addEvents, List.map_cons, List.map_nil, run_cons, run_nil, hbegin]
  rw [Channelled.blocks (env hub) (s := ⟨s.book, [.add (newMemory (link receiver (n + 1)))]⟩) hlen hsent]
  exact ⟨rfl, rfl⟩

end Crowding

attribute [irreducible] crowd

/-- The heavy vertex is added and received; while the goroutine is away another vertex is added. -/
def briefRun : List Keeper.Event :=
  (addEvents heavy).map .call ++ [.receive] ++ linkCalls (wallet 8) 1

end Transparent

open Transparent in
/-- A chain of correctly signed vertices with correct weights: after the weight that asks for a truncation
    is received, fifty-one callers get the mutex before the goroutine, and the last one blocks. -/
theorem crowd_deadlocks :
    (run (Channelled.step (env hub)) ⟨⟨start 10, .receiving⟩, none⟩
      (drained (wallet 8) 101001 ++ (crowd (wallet 8) 101001 50 ++ linkCalls (wallet 8) 101052))).Deadlocked := by
  have hpay : FirstPays (wallet 8) := by decide +kernel
  obtain ⟨s, hs, hempty, hrun⟩ := run_marked hpay
  obtain ⟨s', hs', hlen, hrun'⟩ := run_crowd hpay (p := .holding 101001) hs hempty (by omega) 50 (by omega)
  have hroom := (Channelled.run_of_room (env hub) (crowd (wallet 8) 101001 50) (k := ⟨s, .holding 101001⟩)
    (crowd_ordinary 50) (by rw [hempty, grants_crowd]; decide)).1
  obtain ⟨hsender, hphase⟩ := hs'.blocks (by omega) (.holding 101001) hlen
  rw [run_append, run_drained_channelled hpay 101001 le_rfl, hrun, run_append, hroom, hrun']
  refine ⟨hsender, ?_⟩
  rw [Channelled.Away, hphase]
  simp

open Transparent in
/-- The law at a short run: the goroutine is away, and nobody is blocked. -/
theorem brief_run_flows :
    (run (Channelled.step (env hub)) ⟨⟨start 10, .receiving⟩, none⟩ briefRun).keeper.truncator =
        .holding 200000 ∧
    ¬ (run (Channelled.step (env hub)) ⟨⟨start 10, .receiving⟩, none⟩ briefRun).Deadlocked := by
  have hordinary : ∀ e ∈ briefRun, e.Ordinary := by
    intro e he
    simp only [briefRun, linkCalls, addEvents, List.map_cons, List.map_nil, List.cons_append,
      List.nil_append, List.mem_cons, List.not_mem_nil, or_false] at he
    rcases he with rfl | rfl | rfl | rfl | rfl <;> trivial
  refine ⟨by decide +kernel, ?_⟩
  exact insertion_never_deadlocks rfl hordinary
    (timely_of_few (env hub) rfl hordinary (by decide)) (List.prefix_refl _)

end Computantis
