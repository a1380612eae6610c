import Computantis.Laws.Assumptions
import Computantis.Model.Pipe
import Mathlib.Data.List.Perm.Basic

/-! @law piping | name:The pipe and the bag | family:refinement | about:Model/Pipe, Model/Service

    The notary and the gossip processes are modelled with a juggler that is a bag of values. The pipe of the
    source has goroutines, buffers and waiting senders. As long as it does not panic, no more is seen of it than
    of the bag; and as long as it is not closed, no less, however small the buffers are. When it is closed, what
    was accepted has been taken, or lies in a buffer, or is lost. -/

namespace Computantis

open Schemes

namespace Line

variable {α : Type} {l l' : Line α} {i : ℕ} {x : α}

/-- What the line has accepted and not given away. -/
def held (l : Line α) : List α := l.started ++ l.ch.queue

theorem send_spec (l : Line α) (closed : Bool) (x : α) :
    (l.send closed x).2 = !closed ∧ (l.send closed x).1.held.Perm (if closed then l.held else l.held ++ [x]) := by
  cases closed with
  | true => exact ⟨rfl, List.Perm.refl _⟩
  | false =>
    refine ⟨rfl, ?_⟩
    change (l.started ++ [x] ++ l.ch.queue).Perm (l.started ++ l.ch.queue ++ [x])
    rw [List.append_assoc, List.append_assoc]
    exact List.perm_append_comm.append_left _

theorem go_some (h : l.go i = some l') : l' = l ∨ ∃ x, l.started[i]? = some x ∧ l.ch.closed = false ∧
    l' = ⟨l.started.eraseIdx i, { l.ch with queue := l.ch.queue ++ [x] }⟩ := by
  rw [go] at h
  cases hx : l.started[i]? with
  | none =>
    rw [hx] at h
    cases h
    exact Or.inl rfl
  | some x =>
    cases hclosed : l.ch.closed with
    | true => simp [hx, Channel.send, hclosed] at h
    | false =>
      simp only [hx, Channel.send, hclosed, Bool.false_eq_true, if_false, Option.some.injEq] at h
      exact Or.inr ⟨x, rfl, rfl, by rw [← h, ← hclosed]⟩

theorem eraseIdx_perm {xs : List α} (h : xs[i]? = some x) : xs.Perm (x :: xs.eraseIdx i) := by
  obtain ⟨hi, rfl⟩ := List.getElem?_eq_some_iff.mp h
  exact (List.getElem_cons_eraseIdx_perm hi).symm

theorem held_go (h : l.go i = some l') : l'.held.Perm l.held := by
  rcases go_some h with rfl | ⟨x, hx, -, rfl⟩
  · exact List.Perm.refl _
  · have hmove : (l.started.eraseIdx i ++ (l.ch.queue ++ [x])).Perm (x :: l.started.eraseIdx i ++ l.ch.queue) := by
      rw [← List.append_assoc]
      exact List.perm_append_comm
    exact hmove.trans ((eraseIdx_perm hx).symm.append_right _)

theorem take_cases (l : Line α) : (l.ch.queue = [] ∧ l.take = (l, none)) ∨
    ∃ x rest, l.ch.queue = x :: rest ∧ l.take = (⟨l.started, { l.ch with queue := rest }⟩, some x) := by
  rw [take, Channel.receive]
  cases hq : l.ch.queue with
  | nil => exact Or.inl ⟨rfl, rfl⟩
  | cons x rest => exact Or.inr ⟨x, rest, rfl, rfl⟩

theorem held_take {rest : List α} (h : l.ch.queue = x :: rest) :
    l.held.Perm (x :: (⟨l.started, { l.ch with queue := rest }⟩ : Line α).held) := by
  rw [held, h]
  exact List.perm_middle

theorem go_take (hopen : l.ch.closed = false) (hempty : l.ch.queue = []) (hx : l.started[i]? = some x) :
    ∃ l₁, l.go i = some l₁ ∧ l₁.take = (⟨l.started.eraseIdx i, l.ch⟩, some x) := by
  obtain ⟨started, cap, queue, closed⟩ := l
  cases hopen
  cases hempty
  exact ⟨⟨started.eraseIdx i, ⟨cap, [x], false⟩⟩, by simp [go, hx, Channel.send], rfl⟩

theorem close_some (h : l.close = some l') : l.ch.closed = false ∧ l.ch.queue.length ≤ l.ch.cap ∧
    l' = ⟨l.started, { l.ch with closed := true }⟩ := by
  rw [close, Channel.close] at h
  by_cases hbad : l.ch.closed = true ∨ l.ch.cap < l.ch.queue.length
  · simp [hbad] at h
  · simp only [hbad, if_false, Option.some.injEq] at h
    simp only [not_or, Bool.not_eq_true, not_lt] at hbad
    exact ⟨hbad.1, hbad.2, h.symm⟩

end Line

namespace Pipe

/-! ### The pipe shows no more than the bag -/

/-- The bag is what the pipe holds, in any order. -/
structure Bagged (p : Pipe) (j : Juggler) : Prop where
  trx : p.trx.held.Perm j.trxCh
  vrx : p.vrx.held.Perm j.vrxCh
  closed : p.closed = j.closed

theorem exists_entry {α : Type} {held rest bag : List α} {x : α} (hheld : held.Perm (x :: rest))
    (hbag : held.Perm bag) : ∃ i, bag[i]? = some x ∧ rest.Perm (bag.eraseIdx i) := by
  have hmem : x ∈ bag := (hheld.symm.trans hbag).subset (List.mem_cons_self ..)
  obtain ⟨i, hi⟩ := List.getElem?_of_mem hmem
  exact ⟨i, hi, ((hheld.symm.trans hbag).trans (Line.eraseIdx_perm hi)).cons_inv⟩

variable {p : Pipe} {j : Juggler} {o : Option Sight}

theorem bagged_step {p' : Pipe} {e : Pipe.Event} (h : Bagged p j) (hstep : p.step e = some (p', o)) :
    ∃ fs j', observe Juggler.step j fs = some (j', o.toList) ∧ Bagged p' j' := by
  -- a step that is not seen and leaves the bag as it is
  have hsilent {p' : Pipe} (hp : Bagged p' j) : ∃ fs j', observe Juggler.step j fs = some (j', []) ∧ Bagged p' j' :=
    ⟨[], j, rfl, hp⟩
  cases e with
  | sendTrx x =>
    obtain ⟨hok, hheld⟩ := p.trx.send_spec p.closed x
    simp only [step, Option.some.injEq, Prod.mk.injEq] at hstep
    obtain ⟨rfl, rfl⟩ := hstep
    refine ⟨[.sendTrx x], (j.sendTrx x).1, ?_, ?_⟩
    · rw [hok, h.closed]
      simp only [observe, Juggler.step, Juggler.sendTrx]
      cases j.closed <;> rfl
    · rw [h.closed] at hheld
      rw [Juggler.sendTrx]
      split
      next hc =>
        rw [if_pos hc, ← h.closed] at hheld
        exact ⟨hheld.trans h.trx, h.vrx, h.closed⟩
      next hc =>
        rw [if_neg hc, ← h.closed] at hheld
        exact ⟨hheld.trans (h.trx.append_right _), h.vrx, h.closed⟩
  | sendVrx x =>
    obtain ⟨hok, hheld⟩ := p.vrx.send_spec p.closed x
    simp only [step, Option.some.injEq, Prod.mk.injEq] at hstep
    obtain ⟨rfl, rfl⟩ := hstep
    refine ⟨[.sendVrx x], (j.sendVrx x).1, ?_, ?_⟩
    · rw [hok, h.closed]
      simp only [observe, Juggler.step, Juggler.sendVrx]
      cases j.closed <;> rfl
    · rw [h.closed] at hheld
      rw [Juggler.sendVrx]
      split
      next hc =>
        rw [if_pos hc, ← h.closed] at hheld
        exact ⟨h.trx, hheld.trans h.vrx, h.closed⟩
      next hc =>
        rw [if_neg hc, ← h.closed] at hheld
        exact ⟨h.trx, hheld.trans (h.vrx.append_right _), h.closed⟩
  | goTrx i =>
    obtain ⟨trx, hgo, heq⟩ := Option.map_eq_some_iff.mp hstep
    cases heq
    exact hsilent ⟨(Line.held_go hgo).trans h.trx, h.vrx, h.closed⟩
  | goVrx i =>
    obtain ⟨vrx, hgo, heq⟩ := Option.map_eq_some_iff.mp hstep
    cases heq
    exact hsilent ⟨h.trx, (Line.held_go hgo).trans h.vrx, h.closed⟩
  | takeTrx =>
    rcases p.trx.take_cases with ⟨-, htake⟩ | ⟨x, rest, hq, htake⟩
    · simp only [step, htake, Option.map_none, Option.some.injEq, Prod.mk.injEq] at hstep
      obtain ⟨rfl, rfl⟩ := hstep
      exact hsilent h
    · simp only [step, htake, Option.map_some, Option.some.injEq, Prod.mk.injEq] at hstep
      obtain ⟨rfl, rfl⟩ := hstep
      obtain ⟨i, hi, hrest⟩ := exists_entry (Line.held_take hq) h.trx
      refine ⟨[.takeTrx i], { j with trxCh := j.trxCh.eraseIdx i }, ?_, ⟨hrest, h.vrx, h.closed⟩⟩
      simp [observe, Juggler.step, hi]
  | takeVrx =>
    rcases p.vrx.take_cases with ⟨-, htake⟩ | ⟨x, rest, hq, htake⟩
    · simp only [step, htake, Option.map_none, Option.some.injEq, Prod.mk.injEq] at hstep
      obtain ⟨rfl, rfl⟩ := hstep
      exact hsilent h
    · simp only [step, htake, Option.map_some, Option.some.injEq, Prod.mk.injEq] at hstep
      obtain ⟨rfl, rfl⟩ := hstep
      obtain ⟨i, hi, hrest⟩ := exists_entry (Line.held_take hq) h.vrx
      refine ⟨[.takeVrx i], { j with vrxCh := j.vrxCh.eraseIdx i }, ?_, ⟨h.trx, hrest, h.closed⟩⟩
      simp [observe, Juggler.step, hi]
  | close =>
    cases hc : p.closing with
    | trxCh =>
      simp only [step, hc] at hstep
      obtain ⟨trx, hclose, heq⟩ := Option.map_eq_some_iff.mp hstep
      obtain ⟨-, -, rfl⟩ := Line.close_some hclose
      cases heq
      exact hsilent ⟨h.trx, h.vrx, h.closed⟩
    | vrxCh =>
      simp only [step, hc] at hstep
      obtain ⟨vrx, hclose, heq⟩ := Option.map_eq_some_iff.mp hstep
      obtain ⟨-, -, rfl⟩ := Line.close_some hclose
      cases heq
      exact hsilent ⟨h.trx, h.vrx, h.closed⟩
    | flag =>
      simp only [step, hc, Option.some.injEq, Prod.mk.injEq] at hstep
      obtain ⟨rfl, rfl⟩ := hstep
      exact ⟨[.close], { j with closed := true }, rfl, ⟨h.trx, h.vrx, rfl⟩⟩
    | done =>
      simp only [step, hc, Option.some.injEq, Prod.mk.injEq] at hstep
      obtain ⟨rfl, rfl⟩ := hstep
      exact hsilent h

/-- RUN: what is seen of the pipe can be seen of the bag. -/
theorem bagged_run {p' : Pipe} {es : List Pipe.Event} {os : List Sight} (h : Bagged p j)
    (hrun : observe Pipe.step p es = some (p', os)) :
    ∃ fs j', observe Juggler.step j fs = some (j', os) ∧ Bagged p' j' := by
  have hstep : ∀ (p : Pipe) (j : Juggler) (e : Pipe.Event) (p' : Pipe) (o : Option Sight), True → Bagged p j →
      p.step e = some (p', o) →
        ∃ fs j', (∀ f ∈ fs, True) ∧ observe Juggler.step j fs = some (j', o.toList) ∧ Bagged p' j' := by
    intro p j e p' o _ h he
    obtain ⟨fs, j', hobs, hb⟩ := bagged_step h he
    exact ⟨fs, j', fun _ _ => trivial, hobs, hb⟩
  obtain ⟨fs, j', -, hobs, hb⟩ := observe_simulates hstep (fun _ _ => trivial) h hrun
  exact ⟨fs, j', hobs, hb⟩

/-! ### The pipe shows no less than the bag -/

/-- The goroutines of the pipe are the entries of the bag, and nothing is in the channels. -/
structure Mirrors (j : Juggler) (p : Pipe) : Prop where
  trx : p.trx.started = j.trxCh
  vrx : p.vrx.started = j.vrxCh
  trxCh : p.trx.ch.closed = false ∧ p.trx.ch.queue = []
  vrxCh : p.vrx.ch.closed = false ∧ p.vrx.ch.queue = []
  closed : p.closed = false ∧ j.closed = false

theorem mirrors_step {j' : Juggler} {f : Juggler.Event} (hf : f ≠ .close) (h : Mirrors j p)
    (hstep : j.step f = some (j', o)) :
    ∃ es p', (∀ e ∈ es, e ≠ Pipe.Event.close) ∧ observe Pipe.step p es = some (p', o.toList) ∧ Mirrors j' p' := by
  obtain ⟨hp, hj⟩ := h.closed
  cases f with
  | sendTrx x =>
    simp only [Juggler.step, Juggler.sendTrx, hj, Bool.false_eq_true, if_false, Option.some.injEq,
      Prod.mk.injEq] at hstep
    obtain ⟨rfl, rfl⟩ := hstep
    refine ⟨[.sendTrx x], { p with trx := { p.trx with started := p.trx.started ++ [x] } }, by simp, ?_, ?_⟩
    · simp [observe, step, Line.send, hp]
    · exact ⟨by rw [h.trx], h.vrx, h.trxCh, h.vrxCh, hp, rfl⟩
  | sendVrx x =>
    simp only [Juggler.step, Juggler.sendVrx, hj, Bool.false_eq_true, if_false, Option.some.injEq,
      Prod.mk.injEq] at hstep
    obtain ⟨rfl, rfl⟩ := hstep
    refine ⟨[.sendVrx x], { p with vrx := { p.vrx with started := p.vrx.started ++ [x] } }, by simp, ?_, ?_⟩
    · simp [observe, step, Line.send, hp]
    · exact ⟨h.trx, by rw [h.vrx], h.trxCh, h.vrxCh, hp, rfl⟩
  | takeTrx i =>
    simp only [Juggler.step, Option.some.injEq, Prod.mk.injEq] at hstep
    obtain ⟨rfl, rfl⟩ := hstep
    cases hx : j.trxCh[i]? with
    | none =>
      refine ⟨[], p, by simp, rfl, ⟨?_, h.vrx, h.trxCh, h.vrxCh, hp, hj⟩⟩
      rw [List.eraseIdx_of_length_le (List.getElem?_eq_none_iff.mp hx)]
      exact h.trx
    | some x =>
      obtain ⟨l, hgo, htake⟩ := Line.go_take h.trxCh.1 h.trxCh.2 (h.trx ▸ hx)
      refine ⟨[.goTrx i, .takeTrx], { p with trx := ⟨p.trx.started.eraseIdx i, p.trx.ch⟩ }, by simp, ?_, ?_⟩
      · simp [observe, step, hgo, htake]
      · exact ⟨by rw [h.trx], h.vrx, h.trxCh, h.vrxCh, hp, hj⟩
  | takeVrx i =>
    simp only [Juggler.step, Option.some.injEq, Prod.mk.injEq] at hstep
    obtain ⟨rfl, rfl⟩ := hstep
    cases hx : j.vrxCh[i]? with
    | none =>
      refine ⟨[], p, by simp, rfl, ⟨h.trx, ?_, h.trxCh, h.vrxCh, hp, hj⟩⟩
      rw [List.eraseIdx_of_length_le (List.getElem?_eq_none_iff.mp hx)]
      exact h.vrx
    | some x =>
      obtain ⟨l, hgo, htake⟩ := Line.go_take h.vrxCh.1 h.vrxCh.2 (h.vrx ▸ hx)
      refine ⟨[.goVrx i, .takeVrx], { p with vrx := ⟨p.vrx.started.eraseIdx i, p.vrx.ch⟩ }, by simp, ?_, ?_⟩
      · simp [observe, step, hgo, htake]
      · exact ⟨h.trx, by rw [h.vrx], h.trxCh, h.vrxCh, hp, hj⟩
  | close => exact absurd rfl hf

end Pipe

/-- The juggler as it is before anything is sent. -/
def Juggler.empty : Juggler := ⟨[], [], false⟩

/-- REFINES, and is complete: whatever the sizes of the buffers, every run of the pipe that does not panic, closing
    included, shows what some run of the bag shows, and then holds what the bag holds; and every run of the bag
    before it is closed is one that the scheduler can have the pipe show, without a panic. -/
theorem pipe_is_juggler (trxBufSize vrxBufSize : UInt16) :
    (∀ es p os, observe Pipe.step (.new trxBufSize vrxBufSize) es = some (p, os) →
      ∃ fs j, observe Juggler.step .empty fs = some (j, os) ∧ Pipe.Bagged p j) ∧
    ∀ fs j os, .close ∉ fs → observe Juggler.step .empty fs = some (j, os) →
      ∃ es p, .close ∉ es ∧ observe Pipe.step (.new trxBufSize vrxBufSize) es = some (p, os) ∧ Pipe.Mirrors j p := by
  constructor
  · intro es p os hrun
    exact Pipe.bagged_run ⟨.refl _, .refl _, rfl⟩ hrun
  · intro fs j os hfs hrun
    have hnew : Pipe.Mirrors .empty (.new trxBufSize vrxBufSize) := ⟨rfl, rfl, ⟨rfl, rfl⟩, ⟨rfl, rfl⟩, rfl, rfl⟩
    obtain ⟨es, p, hes, hobs, hm⟩ := observe_simulates
      (fun j p f j' o hf h he => Pipe.mirrors_step (f := f) hf h he) (fun f hf => (fun h => hfs (h ▸ hf))) hnew hrun
    exact ⟨es, p, fun h => hes _ h rfl, hobs, hm⟩

namespace Transparent

/-- Two transactions that go through a pipe. -/
def firstSent : ProtoTransaction := (trx (wallet 7) (wallet 8) ⟨1, 0⟩ [1] 4).toProto
def secondSent : ProtoTransaction := (trx (wallet 7) (wallet 9) ⟨1, 0⟩ [1] 5).toProto

end Transparent

open Transparent in
/-- Without buffers, what is sent second may come first. -/
theorem second_comes_first : ∃ es p, .close ∉ es ∧
    observe Pipe.step (.new 0 0) es =
      some (p, [.sentTrx firstSent true, .sentTrx secondSent true, .tookTrx secondSent]) ∧
    Pipe.Mirrors ⟨[firstSent], [], false⟩ p :=
  (pipe_is_juggler 0 0).2 [.sendTrx firstSent, .sendTrx secondSent, .takeTrx 1] _ _ (by decide +kernel) rfl

/-! ### Closing -/

namespace Pipe

namespace Sight

/-- The transaction that a call has accepted. -/
def acceptedTrx : Sight → Option ProtoTransaction
  | .sentTrx x ok => if ok then some x else none
  | .sentVrx _ _ => none
  | .tookTrx _ => none
  | .tookVrx _ => none

def acceptedVrx : Sight → Option Vertex
  | .sentTrx _ _ => none
  | .sentVrx x ok => if ok then some x else none
  | .tookTrx _ => none
  | .tookVrx _ => none

/-- The transaction that the gossip process has got. -/
def takenTrx : Sight → Option ProtoTransaction
  | .sentTrx _ _ => none
  | .sentVrx _ _ => none
  | .tookTrx x => some x
  | .tookVrx _ => none

def takenVrx : Sight → Option Vertex
  | .sentTrx _ _ => none
  | .sentVrx _ _ => none
  | .tookTrx _ => none
  | .tookVrx x => some x

end Sight

end Pipe

/-- Nothing is lost and nothing is doubled: what was accepted has been taken, or is in the bag. -/
structure Juggler.Balanced (j : Juggler) (os : List Pipe.Sight) : Prop where
  trx : (os.filterMap Pipe.Sight.acceptedTrx).Perm (os.filterMap Pipe.Sight.takenTrx ++ j.trxCh)
  vrx : (os.filterMap Pipe.Sight.acceptedVrx).Perm (os.filterMap Pipe.Sight.takenVrx ++ j.vrxCh)

theorem Juggler.balanced_step {j j' : Juggler} {os : List Pipe.Sight} {f : Juggler.Event} {o : Option Pipe.Sight}
    (h : j.Balanced os) (hstep : j.step f = some (j', o)) : j'.Balanced (os ++ o.toList) := by
  have htake {α : Type} {accepted taken bag : List α} {i : ℕ} {x : α} (h : accepted.Perm (taken ++ bag))
      (hx : bag[i]? = some x) : accepted.Perm (taken ++ [x] ++ bag.eraseIdx i) := by
    rw [List.append_assoc]
    exact h.trans ((Line.eraseIdx_perm hx).append_left taken)
  obtain ⟨htrx, hvrx⟩ := h
  cases f with
  | sendTrx x =>
    cases hstep
    cases hc : j.closed with
    | true => constructor <;> simpa [Juggler.sendTrx, hc, Pipe.Sight.acceptedTrx, Pipe.Sight.acceptedVrx,
        Pipe.Sight.takenTrx, Pipe.Sight.takenVrx, List.filterMap_cons]
    | false =>
      constructor
      · simpa [Juggler.sendTrx, hc, Pipe.Sight.acceptedTrx, Pipe.Sight.takenTrx, List.filterMap_cons]
          using htrx.append_right [x]
      · simpa [Juggler.sendTrx, hc, Pipe.Sight.acceptedVrx, Pipe.Sight.takenVrx, List.filterMap_cons]
  | sendVrx x =>
    cases hstep
    cases hc : j.closed with
    | true => constructor <;> simpa [Juggler.sendVrx, hc, Pipe.Sight.acceptedTrx, Pipe.Sight.acceptedVrx,
        Pipe.Sight.takenTrx, Pipe.Sight.takenVrx, List.filterMap_cons]
    | false =>
      constructor
      · simpa [Juggler.sendVrx, hc, Pipe.Sight.acceptedTrx, Pipe.Sight.takenTrx, List.filterMap_cons]
      · simpa [Juggler.sendVrx, hc, Pipe.Sight.acceptedVrx, Pipe.Sight.takenVrx, List.filterMap_cons]
          using hvrx.append_right [x]
  | takeTrx i =>
    cases hstep
    cases hx : j.trxCh[i]? with
    | none =>
      rw [List.eraseIdx_of_length_le (List.getElem?_eq_none_iff.mp hx)]
      exact ⟨by simpa, by simpa⟩
    | some x =>
      constructor
      · simpa [Pipe.Sight.acceptedTrx, Pipe.Sight.takenTrx, List.filterMap_cons] using htake htrx hx
      · simpa [Pipe.Sight.acceptedVrx, Pipe.Sight.takenVrx, List.filterMap_cons]
  | takeVrx i =>
    cases hstep
    cases hx : j.vrxCh[i]? with
    | none =>
      rw [List.eraseIdx_of_length_le (List.getElem?_eq_none_iff.mp hx)]
      exact ⟨by simpa, by simpa⟩
    | some x =>
      constructor
      · simpa [Pipe.Sight.acceptedTrx, Pipe.Sight.takenTrx, List.filterMap_cons]
      · simpa [Pipe.Sight.acceptedVrx, Pipe.Sight.takenVrx, List.filterMap_cons] using htake hvrx hx
  | close =>
    cases hstep
    exact ⟨by simpa, by simpa⟩

namespace Pipe

/-- What has been closed so far, and that nobody waited then. -/
structure Shutting (t v : UInt16) (p : Pipe) : Prop where
  trxCap : p.trx.ch.cap = t.toNat
  vrxCap : p.vrx.ch.cap = v.toNat
  trx : p.closing ≠ .trxCh → p.trx.ch.closed = true ∧ p.trx.ch.queue.length ≤ t.toNat
  vrx : p.closing ≠ .trxCh → p.closing ≠ .vrxCh → p.vrx.ch.closed = true ∧ p.vrx.ch.queue.length ≤ v.toNat
  flag : p.closed = true → p.closing = .done

variable {α : Type} {p p' : Pipe} {o : Option Sight} {e : Pipe.Event} {os : List Sight}

theorem send_ch (l : Line α) (closed : Bool) (x : α) : (l.send closed x).1.ch = l.ch := by
  cases closed <;> rfl

theorem go_closed {l l' : Line α} {i : ℕ} (hc : l.ch.closed = true) (h : l.go i = some l') : l' = l := by
  rcases Line.go_some h with rfl | ⟨x, -, hopen, -⟩
  · rfl
  · rw [hc] at hopen
    cases hopen

theorem go_cap {l l' : Line α} {i : ℕ} (h : l.go i = some l') : l'.ch.cap = l.ch.cap := by
  rcases Line.go_some h with rfl | ⟨x, -, -, rfl⟩ <;> rfl

theorem take_spec (l : Line α) : l.take.1.started = l.started ∧ l.take.1.ch.cap = l.ch.cap ∧
    l.take.1.ch.closed = l.ch.closed ∧ l.take.2.toList ++ l.take.1.ch.queue = l.ch.queue := by
  rcases l.take_cases with ⟨-, htake⟩ | ⟨x, rest, hq, htake⟩
  · rw [htake]
    exact ⟨rfl, rfl, rfl, rfl⟩
  · rw [htake]
    exact ⟨rfl, rfl, rfl, hq.symm⟩

theorem take_length (l : Line α) : l.take.1.ch.queue.length ≤ l.ch.queue.length := by
  rw [← (take_spec l).2.2.2, List.length_append]
  exact Nat.le_add_left _ _

theorem shutting_step {t v : UInt16} (h : p.Shutting t v) (hstep : p.step e = some (p', o)) : p'.Shutting t v := by
  obtain ⟨htc, hvc, htrx, hvrx, hflag⟩ := h
  cases e with
  | sendTrx x =>
    simp only [step, Option.some.injEq, Prod.mk.injEq] at hstep
    obtain ⟨rfl, -⟩ := hstep
    exact ⟨by rw [send_ch]; exact htc, hvc, by rw [send_ch]; exact htrx, hvrx, hflag⟩
  | sendVrx x =>
    simp only [step, Option.some.injEq, Prod.mk.injEq] at hstep
    obtain ⟨rfl, -⟩ := hstep
    exact ⟨htc, by rw [send_ch]; exact hvc, htrx, by rw [send_ch]; exact hvrx, hflag⟩
  | goTrx i =>
    obtain ⟨trx, hgo, heq⟩ := Option.map_eq_some_iff.mp hstep
    cases heq
    refine ⟨(go_cap hgo).trans htc, hvc, fun hne => ?_, hvrx, hflag⟩
    cases go_closed (htrx hne).1 hgo
    exact htrx hne
  | goVrx i =>
    obtain ⟨vrx, hgo, heq⟩ := Option.map_eq_some_iff.mp hstep
    cases heq
    refine ⟨htc, (go_cap hgo).trans hvc, htrx, fun hne hne' => ?_, hflag⟩
    cases go_closed (hvrx hne hne').1 hgo
    exact hvrx hne hne'
  | takeTrx =>
    simp only [step, Option.some.injEq, Prod.mk.injEq] at hstep
    obtain ⟨rfl, -⟩ := hstep
    obtain ⟨-, hcap, hclosed, -⟩ := take_spec p.trx
    refine ⟨hcap.trans htc, hvc, fun hne => ⟨hclosed.trans (htrx hne).1, ?_⟩, hvrx, hflag⟩
    exact (take_length p.trx).trans (htrx hne).2
  | takeVrx =>
    simp only [step, Option.some.injEq, Prod.mk.injEq] at hstep
    obtain ⟨rfl, -⟩ := hstep
    obtain ⟨-, hcap, hclosed, -⟩ := take_spec p.vrx
    refine ⟨htc, hcap.trans hvc, htrx, fun hne hne' => ⟨hclosed.trans (hvrx hne hne').1, ?_⟩, hflag⟩
    exact (take_length p.vrx).trans (hvrx hne hne').2
  | close =>
    cases hc : p.closing with
    | trxCh =>
      simp only [step, hc] at hstep
      obtain ⟨trx, hclose, heq⟩ := Option.map_eq_some_iff.mp hstep
      obtain ⟨-, hlen, rfl⟩ := Line.close_some hclose
      cases heq
      refine ⟨htc, hvc, fun _ => ⟨rfl, hlen.trans_eq htc⟩, fun _ hne => absurd rfl hne, fun hcl => ?_⟩
      rw [hflag hcl] at hc
      cases hc
    | vrxCh =>
      simp only [step, hc] at hstep
      obtain ⟨vrx, hclose, heq⟩ := Option.map_eq_some_iff.mp hstep
      obtain ⟨-, hlen, rfl⟩ := Line.close_some hclose
      cases heq
      refine ⟨htc, hvc, fun _ => htrx (by rw [hc]; decide), fun _ _ => ⟨rfl, hlen.trans_eq hvc⟩, fun hcl => ?_⟩
      rw [hflag hcl] at hc
      cases hc
    | flag =>
      simp only [step, hc, Option.some.injEq, Prod.mk.injEq] at hstep
      obtain ⟨rfl, -⟩ := hstep
      exact ⟨htc, hvc, fun _ => htrx (by rw [hc]; decide),
        fun _ _ => hvrx (by rw [hc]; decide) (by rw [hc]; decide), fun _ => rfl⟩
    | done =>
      simp only [step, hc, Option.some.injEq, Prod.mk.injEq] at hstep
      obtain ⟨rfl, -⟩ := hstep
      exact ⟨htc, hvc, htrx, hvrx, hflag⟩

/-- After the close: nothing is accepted, what is taken comes from the buffers, and no goroutine gets rid of its
    value. -/
structure Draining (p₀ p : Pipe) (os : List Sight) : Prop where
  shut : p.closed = true ∧ p.closing = .done ∧ p.trx.ch.closed = true ∧ p.vrx.ch.closed = true
  refused : os.filterMap Sight.acceptedTrx = [] ∧ os.filterMap Sight.acceptedVrx = []
  trx : os.filterMap Sight.takenTrx ++ p.trx.ch.queue = p₀.trx.ch.queue ∧ p.trx.started = p₀.trx.started
  vrx : os.filterMap Sight.takenVrx ++ p.vrx.ch.queue = p₀.vrx.ch.queue ∧ p.vrx.started = p₀.vrx.started

theorem filterMap_seen (f : Sight → Option α) (os : List Sight) (o : Option Sight) :
    (os ++ o.toList).filterMap f = os.filterMap f ++ (o.bind f).toList := by
  rw [List.filterMap_append]
  cases o with
  | none => rfl
  | some o => cases h : f o <;> simp [h]

theorem Draining.next {p₀ : Pipe} (h : Draining p₀ p os)
    (hshut : p'.closed = true ∧ p'.closing = .done ∧ p'.trx.ch.closed = true ∧ p'.vrx.ch.closed = true)
    (hrefused : o.bind Sight.acceptedTrx = none ∧ o.bind Sight.acceptedVrx = none)
    (htrx : (o.bind Sight.takenTrx).toList ++ p'.trx.ch.queue = p.trx.ch.queue ∧ p'.trx.started = p.trx.started)
    (hvrx : (o.bind Sight.takenVrx).toList ++ p'.vrx.ch.queue = p.vrx.ch.queue ∧ p'.vrx.started = p.vrx.started) :
    Draining p₀ p' (os ++ o.toList) := by
  refine ⟨hshut, ⟨?_, ?_⟩, ⟨?_, htrx.2.trans h.trx.2⟩, ⟨?_, hvrx.2.trans h.vrx.2⟩⟩
  · rw [filterMap_seen, hrefused.1, h.refused.1]
    rfl
  · rw [filterMap_seen, hrefused.2, h.refused.2]
    rfl
  · rw [filterMap_seen, List.append_assoc, htrx.1, h.trx.1]
  · rw [filterMap_seen, List.append_assoc, hvrx.1, h.vrx.1]

theorem draining_step {p₀ : Pipe} (h : Draining p₀ p os) (hstep : p.step e = some (p', o)) :
    Draining p₀ p' (os ++ o.toList) := by
  obtain ⟨hclosed, hdone, ht, hv⟩ := h.shut
  have hsend {α : Type} (l : Line α) (x : α) : l.send p.closed x = (l, false) := by
    rw [hclosed]
    rfl
  cases e with
  | sendTrx x =>
    simp only [step, hsend, Option.some.injEq, Prod.mk.injEq] at hstep
    obtain ⟨rfl, rfl⟩ := hstep
    exact h.next h.shut ⟨rfl, rfl⟩ ⟨rfl, rfl⟩ ⟨rfl, rfl⟩
  | sendVrx x =>
    simp only [step, hsend, Option.some.injEq, Prod.mk.injEq] at hstep
    obtain ⟨rfl, rfl⟩ := hstep
    exact h.next h.shut ⟨rfl, rfl⟩ ⟨rfl, rfl⟩ ⟨rfl, rfl⟩
  | goTrx i =>
    obtain ⟨trx, hgo, heq⟩ := Option.map_eq_some_iff.mp hstep
    cases heq
    cases go_closed ht hgo
    exact h.next h.shut ⟨rfl, rfl⟩ ⟨rfl, rfl⟩ ⟨rfl, rfl⟩
  | goVrx i =>
    obtain ⟨vrx, hgo, heq⟩ := Option.map_eq_some_iff.mp hstep
    cases heq
    cases go_closed hv hgo
    exact h.next h.shut ⟨rfl, rfl⟩ ⟨rfl, rfl⟩ ⟨rfl, rfl⟩
  | takeTrx =>
    simp only [step, Option.some.injEq, Prod.mk.injEq] at hstep
    obtain ⟨rfl, rfl⟩ := hstep
    obtain ⟨hstarted, -, hcl, hqueue⟩ := take_spec p.trx
    refine h.next ⟨hclosed, hdone, hcl.trans ht, hv⟩ ?_ ⟨?_, hstarted⟩ ⟨?_, rfl⟩
    · cases p.trx.take.2 <;> exact ⟨rfl, rfl⟩
    · rw [← hqueue]
      cases p.trx.take.2 <;> rfl
    · cases p.trx.take.2 <;> rfl
  | takeVrx =>
    simp only [step, Option.some.injEq, Prod.mk.injEq] at hstep
    obtain ⟨rfl, rfl⟩ := hstep
    obtain ⟨hstarted, -, hcl, hqueue⟩ := take_spec p.vrx
    refine h.next ⟨hclosed, hdone, ht, hcl.trans hv⟩ ?_ ⟨?_, rfl⟩ ⟨?_, hstarted⟩
    · cases p.vrx.take.2 <;> exact ⟨rfl, rfl⟩
    · cases p.vrx.take.2 <;> rfl
    · rw [← hqueue]
      cases p.vrx.take.2 <;> rfl
  | close =>
    simp only [step, hdone, Option.some.injEq, Prod.mk.injEq] at hstep
    obtain ⟨rfl, rfl⟩ := hstep
    exact h.next h.shut ⟨rfl, rfl⟩ ⟨rfl, rfl⟩ ⟨rfl, rfl⟩

end Pipe

/-- LOST: when a run has closed the pipe without a panic, what was accepted until then has been taken, lies in a
    buffer, in which there is room for it, or is with a goroutine that has not come to its send. From then on nothing
    is accepted, the buffers are emptied in their order, and as long as the process lives the goroutines keep
    what they have. -/
theorem closed_pipe_drains {trxBufSize vrxBufSize : UInt16} {es : List Pipe.Event} {p : Pipe} {os : List Pipe.Sight}
    (hrun : observe Pipe.step (.new trxBufSize vrxBufSize) es = some (p, os)) (hclosed : p.closed = true) :
    (os.filterMap Pipe.Sight.acceptedTrx).Perm
        (os.filterMap Pipe.Sight.takenTrx ++ (p.trx.started ++ p.trx.ch.queue)) ∧
      p.trx.ch.queue.length ≤ trxBufSize.toNat ∧
      (os.filterMap Pipe.Sight.acceptedVrx).Perm
        (os.filterMap Pipe.Sight.takenVrx ++ (p.vrx.started ++ p.vrx.ch.queue)) ∧
      p.vrx.ch.queue.length ≤ vrxBufSize.toNat ∧
      ∀ fs p' os', observe Pipe.step p fs = some (p', os') → Pipe.Draining p p' os' := by
  obtain ⟨fs, j, hbag, hheld⟩ := Pipe.bagged_run (j := .empty) ⟨.refl _, .refl _, rfl⟩ hrun
  have hbalanced : j.Balanced os := observe_history (fun _ _ _ _ _ h he => Juggler.balanced_step h he)
    (show Juggler.empty.Balanced [] from ⟨.refl _, .refl _⟩) hbag
  have hnew : (Pipe.new trxBufSize vrxBufSize).Shutting trxBufSize vrxBufSize :=
    ⟨rfl, rfl, fun h => absurd rfl h, fun h => absurd rfl h, fun h => Bool.noConfusion h⟩
  have hshut := observe_invariant (fun _ _ _ _ h he => Pipe.shutting_step h he) hnew hrun
  have hdone := hshut.flag hclosed
  obtain ⟨htc, htl⟩ := hshut.trx (by rw [hdone]; decide)
  obtain ⟨hvc, hvl⟩ := hshut.vrx (by rw [hdone]; decide) (by rw [hdone]; decide)
  refine ⟨hbalanced.trx.trans (hheld.trx.symm.append_left _), htl, hbalanced.vrx.trans (hheld.vrx.symm.append_left _),
    hvl, fun fs p' os' hmore => ?_⟩
  have hstart : Pipe.Draining p p [] := ⟨⟨hclosed, hdone, htc, hvc⟩, ⟨rfl, rfl⟩, ⟨rfl, rfl⟩, ⟨rfl, rfl⟩⟩
  exact observe_history (fun _ _ _ _ _ h he => Pipe.draining_step h he) hstart hmore

open Transparent in
/-- The pipe is closed before the second goroutine has come to its send. -/
theorem second_is_lost : ∃ p os,
    observe Pipe.step (.new 1 1) [.sendTrx firstSent, .sendTrx secondSent, .goTrx 0, .close, .close, .close] =
      some (p, os) ∧
    ∀ fs p' os', observe Pipe.step p fs = some (p', os') →
      p'.trx.started = [secondSent] ∧ os'.filterMap Pipe.Sight.takenTrx ++ p'.trx.ch.queue = [firstSent] := by
  obtain ⟨p, os, hrun, hclosed, hstarted, hqueue⟩ : ∃ p os,
      observe Pipe.step (.new 1 1) [.sendTrx firstSent, .sendTrx secondSent, .goTrx 0, .close, .close, .close] =
        some (p, os) ∧ p.closed = true ∧ p.trx.started = [secondSent] ∧ p.trx.ch.queue = [firstSent] :=
    ⟨_, _, rfl, rfl, rfl, rfl⟩
  obtain ⟨-, -, -, -, hdrains⟩ := closed_pipe_drains hrun hclosed
  refine ⟨p, os, hrun, fun fs p' os' hmore => ?_⟩
  have h := hdrains fs p' os' hmore
  exact ⟨h.trx.2.trans hstarted, h.trx.1.trans hqueue⟩

end Computantis
