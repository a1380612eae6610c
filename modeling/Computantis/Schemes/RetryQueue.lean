import Computantis.Schemes.Machine
import Mathlib.Data.List.Perm.Subperm
import Mathlib.Data.List.Nodup

/-! @scheme retry-queue | name:Bounded retries in arrival order | family:queue

    Items arrive in any order. An item whose needs are all accepted is accepted, any other is parked at
    the end of a queue. A tick retries the item at the front, which is accepted or parked again at the
    end. An item that has been parked too often, or finds the queue full, is dropped.

    The queue turns in rounds, and each round accepts the items one level further from the bottom. So
    nothing is dropped if the ticks before the last arrival and the longest chain of needs together stay
    within the retries (`accepted_of_drained`). -/

namespace Schemes

/-- The items accepted so far, and the parked ones, each with how often it has been parked. -/
structure RetryQueue (α : Type) where
  accepted : List α
  parked : List (α × ℕ)

/-- An item arrives, or the front of the queue is retried. -/
inductive Arrival (α : Type) where
  | item (a : α)
  | tick

namespace Arrival

variable {α : Type}

/-- The items of a list of arrivals. -/
def items : List (Arrival α) → List α
  | [] => []
  | .item a :: es => a :: items es
  | .tick :: es => items es

/-- How many of the arrivals are ticks. -/
def ticks : List (Arrival α) → ℕ
  | [] => 0
  | .item _ :: es => ticks es
  | .tick :: es => ticks es + 1

def map {β : Type} (f : α → β) : Arrival α → Arrival β
  | .item a => .item (f a)
  | .tick => .tick

theorem items_cons (e : Arrival α) (es : List (Arrival α)) : items (e :: es) = items [e] ++ items es := by
  cases e <;> rfl

theorem ticks_cons (e : Arrival α) (es : List (Arrival α)) : ticks (e :: es) = ticks [e] + ticks es := by
  cases e <;> simp [ticks, Nat.add_comm]

theorem items_append (es fs : List (Arrival α)) : items (es ++ fs) = items es ++ items fs := by
  induction es with
  | nil => rfl
  | cons e es ih => cases e <;> simp [items, ih]

theorem items_ticks {es : List (Arrival α)} (h : ∀ e ∈ es, e = .tick) : items es = [] := by
  induction es with
  | nil => rfl
  | cons e es ih =>
    rw [h e (List.mem_cons_self ..)]
    exact ih fun e' he' => h e' (List.mem_cons_of_mem _ he')

theorem items_map {β : Type} (f : α → β) (es : List (Arrival α)) :
    items (es.map (Arrival.map f)) = (items es).map f := by
  induction es with
  | nil => rfl
  | cons e es ih => cases e <;> simp [items, Arrival.map, ih]

theorem ticks_map {β : Type} (f : α → β) (es : List (Arrival α)) : ticks (es.map (Arrival.map f)) = ticks es := by
  induction es with
  | nil => rfl
  | cons e es ih => cases e <;> simp [ticks, Arrival.map, ih]

theorem items_map_item (as : List α) : items (as.map .item) = as := by
  induction as with
  | nil => rfl
  | cons a as ih => rw [List.map_cons, items, ih]

theorem ticks_map_item (as : List α) : ticks (as.map .item) = 0 := by
  induction as with
  | nil => rfl
  | cons a as ih => rw [List.map_cons, ticks, ih]

end Arrival

namespace RetryQueue

open Arrival

section Invariants

variable {α : Type}

def empty : RetryQueue α := ⟨[], []⟩

/-- Everything that the queue holds. -/
def held (s : RetryQueue α) : List α := s.accepted ++ s.parked.map Prod.fst

/-- All needs of the item are accepted. -/
def Ready (needs : α → List α) (s : RetryQueue α) (a : α) : Prop := ∀ d ∈ needs a, d ∈ s.accepted

theorem exists_missing {needs : α → List α} {s : RetryQueue α} {a : α} (h : ¬ s.Ready needs a) :
    ∃ d ∈ needs a, d ∉ s.accepted := by
  simpa only [Ready, not_forall, exists_prop] using h

/-- What waits while items still arrive, after `t` ticks: it needs something, and has been parked at
    most once more than there were ticks. -/
def Waiting (rank : α → ℕ) (t : ℕ) (s : RetryQueue α) : Prop :=
  ∀ p ∈ s.parked, 1 ≤ rank p.1 ∧ p.2 ≤ t + 1

/-- Round `r` after the last arrival, which came after `t` ticks: the items that wait for their turn
    have rank `r` at least, those parked again in this round stand above one of them. -/
structure Round (rank : α → ℕ) (t r : ℕ) (old new : List (α × ℕ)) : Prop where
  old : ∀ p ∈ old, r ≤ rank p.1 ∧ p.2 ≤ t + r
  new : ∀ p ∈ new, r + 1 ≤ rank p.1 ∧ p.2 ≤ t + (r + 1)

theorem Round.next {rank : α → ℕ} {t r : ℕ} {new : List (α × ℕ)} (h : Round rank t r [] new) :
    Round rank t (r + 1) new [] :=
  ⟨h.new, fun _ hp => nomatch hp⟩

end Invariants

variable {α : Type} [DecidableEq α] (needs : α → List α) (capacity repeats : ℕ)

instance (s : RetryQueue α) (a : α) : Decidable (s.Ready needs a) :=
  inferInstanceAs (Decidable (∀ d ∈ needs a, d ∈ s.accepted))

/-- Accept the item, or park it, or drop it. -/
def attempt (s : RetryQueue α) (a : α) (n : ℕ) : RetryQueue α :=
  if s.Ready needs a then { s with accepted := a :: s.accepted }
  else if s.parked.length = capacity ∨ repeats < n then s
  else { s with parked := s.parked ++ [(a, n + 1)] }

def step (s : RetryQueue α) : Arrival α → RetryQueue α
  | .item a => s.attempt needs capacity repeats a 0
  | .tick =>
    match s.parked with
    | [] => s
    | (a, n) :: rest => attempt needs capacity repeats { s with parked := rest } a n

section Held

variable {needs : α → List α} {capacity repeats : ℕ} {s : RetryQueue α} {a : α} {n : ℕ}

theorem attempt_subperm : (s.attempt needs capacity repeats a n).held.Subperm (a :: s.held) := by
  unfold attempt
  split
  · exact List.Subperm.refl _
  · split
    · exact (List.sublist_cons_self _ _).subperm
    · refine List.Perm.subperm ?_
      simp [held, ← List.append_assoc]

theorem attempt_perm (h : s.Ready needs a ∨ s.parked.length < capacity ∧ n ≤ repeats) :
    (s.attempt needs capacity repeats a n).held.Perm (a :: s.held) := by
  unfold attempt
  split
  · exact List.Perm.refl _
  next hready =>
    obtain ⟨hcap, hn⟩ := h.resolve_left hready
    rw [if_neg (by omega)]
    simp [held, ← List.append_assoc]

theorem step_subperm (e : Arrival α) (es : List (Arrival α)) :
    ((s.step needs capacity repeats e).held ++ items es).Subperm (s.held ++ items (e :: es)) := by
  cases e with
  | item a =>
    have h : (s.attempt needs capacity repeats a 0).held.Subperm (a :: s.held) := attempt_subperm
    exact ((List.subperm_append_right (items es)).mpr h).trans List.perm_middle.symm.subperm
  | tick =>
    refine (List.subperm_append_right (items es)).mpr ?_
    obtain ⟨accepted, parked⟩ := s
    cases parked with
    | nil => exact List.Subperm.refl _
    | cons p rest => exact attempt_subperm.trans List.perm_middle.symm.subperm

end Held

/-! ### Items by another name -/

/-- The queue with its items renamed. -/
def map {β : Type} (f : α → β) (s : RetryQueue α) : RetryQueue β :=
  ⟨s.accepted.map f, s.parked.map fun p => (f p.1, p.2)⟩

section Map

variable {needs capacity repeats} {β : Type} [DecidableEq β] {needs' : β → List β} {f : α → β}
  (hf : Function.Injective f)

include hf

theorem attempt_map {a : α} (hneeds : needs' (f a) = (needs a).map f) (s : RetryQueue α) (n : ℕ) :
    (s.map f).attempt needs' capacity repeats (f a) n = (s.attempt needs capacity repeats a n).map f := by
  have hready : (s.map f).Ready needs' (f a) ↔ s.Ready needs a := by
    simp only [Ready, hneeds, map, List.forall_mem_map, List.mem_map_of_injective hf]
  unfold attempt
  by_cases hr : s.Ready needs a
  · rw [if_pos hr, if_pos (hready.mpr hr)]
    rfl
  · rw [if_neg hr, if_neg (mt hready.mp hr), show (s.map f).parked.length = s.parked.length from
      List.length_map _]
    split
    · rfl
    · simp [map]

theorem step_map (hneeds : ∀ a, needs' (f a) = (needs a).map f) (s : RetryQueue α) (e : Arrival α) :
    (s.map f).step needs' capacity repeats (e.map f) = (s.step needs capacity repeats e).map f := by
  cases e with
  | item a => exact attempt_map hf (hneeds a) s 0
  | tick =>
    obtain ⟨accepted, parked⟩ := s
    cases parked with
    | nil => rfl
    | cons p rest => exact attempt_map hf (hneeds p.1) ⟨accepted, rest⟩ p.2

/-- RUN: a renamed run is the run of the renamed arrivals. -/
theorem run_map (hneeds : ∀ a, needs' (f a) = (needs a).map f) (es : List (Arrival α)) :
    ∀ s : RetryQueue α, run (step needs' capacity repeats) (s.map f) (es.map (Arrival.map f)) =
      (run (step needs capacity repeats) s es).map f := by
  induction es with
  | nil => exact fun s => rfl
  | cons e es ih =>
    intro s
    rw [List.map_cons, run_cons, run_cons, step_map hf hneeds, ih]

end Map

/-! ### Nothing is dropped -/

section Drained

variable {needs capacity repeats} {rank : α → ℕ} {height t : ℕ} {s : RetryQueue α} {new old : List (α × ℕ)}

theorem Waiting.attempt {a : α} {n : ℕ} (h : Waiting rank t s) (hn : n ≤ t) (hrank : ∀ d ∈ needs a, rank d < rank a) :
    Waiting rank t (s.attempt needs capacity repeats a n) := by
  unfold RetryQueue.attempt
  split
  · exact h
  next hready =>
    split
    · exact h
    · obtain ⟨d, hd, -⟩ := exists_missing hready
      intro p hp
      rcases List.mem_append.mp hp with hp | hp
      · exact h p hp
      · obtain rfl := List.mem_singleton.mp hp
        exact ⟨Nat.one_le_of_lt (hrank d hd), Nat.succ_le_succ hn⟩

theorem step_arriving (h : Waiting rank t s) (e : Arrival α) (hcap : (s.held ++ items [e]).length ≤ capacity)
    (hrank : ∀ a ∈ s.held ++ items [e], rank a ≤ height ∧ ∀ d ∈ needs a, rank d < rank a)
    (hbound : t + ticks [e] + height ≤ repeats + 1) :
    (s.step needs capacity repeats e).held.Perm (s.held ++ items [e]) ∧
      Waiting rank (t + ticks [e]) (s.step needs capacity repeats e) := by
  have hlen : s.parked.length ≤ s.held.length := by simp [held]
  cases e with
  | item a =>
    have ha := hrank a (by simp [items])
    rw [items, items, List.length_append, List.length_singleton] at hcap
    refine ⟨(attempt_perm (Or.inr ⟨by omega, Nat.zero_le _⟩)).trans ?_, h.attempt (Nat.zero_le t) ha.2⟩
    exact (List.perm_append_singleton a s.held).symm
  | tick =>
    obtain ⟨accepted, parked⟩ := s
    have hmore : Waiting rank (t + 1) ⟨accepted, parked⟩ := fun p hp =>
      ⟨(h p hp).1, by have := (h p hp).2; omega⟩
    rw [items, items, List.append_nil] at hcap hrank ⊢
    rw [ticks, ticks] at hbound ⊢
    cases parked with
    | nil => exact ⟨List.Perm.refl _, hmore⟩
    | cons p rest =>
      obtain ⟨hone, hparked⟩ := h p (List.mem_cons_self ..)
      obtain ⟨htop, hneeds⟩ := hrank p.1 (by simp [held])
      rw [List.length_cons] at hlen
      refine ⟨(attempt_perm (Or.inr ⟨?_, by omega⟩)).trans List.perm_middle.symm, ?_⟩
      · exact Nat.lt_of_lt_of_le hlen hcap
      · exact Waiting.attempt (fun q hq => hmore q (List.mem_cons_of_mem _ hq)) hparked hneeds

/-- RUN: while items still arrive, every item is held. -/
theorem run_arriving (es : List (Arrival α)) : ∀ {s : RetryQueue α} {t : ℕ}, Waiting rank t s →
    (s.held ++ items es).length ≤ capacity →
    (∀ a ∈ s.held ++ items es, rank a ≤ height ∧ ∀ d ∈ needs a, rank d < rank a) →
    t + ticks es + height ≤ repeats + 1 →
    (run (step needs capacity repeats) s es).held.Perm (s.held ++ items es) ∧
      Waiting rank (t + ticks es) (run (step needs capacity repeats) s es) := by
  induction es with
  | nil => exact fun h _ _ _ => ⟨by simp [items], h⟩
  | cons e es ih =>
    intro s t h hcap hrank hbound
    rw [items_cons, ← List.append_assoc] at hcap hrank ⊢
    rw [ticks_cons, ← Nat.add_assoc] at hbound ⊢
    have hlen : (s.held ++ items [e]).length ≤ capacity := by
      rw [List.length_append] at hcap
      omega
    have hbound' : t + ticks [e] + height ≤ repeats + 1 := by omega
    obtain ⟨hheld, hwait⟩ := step_arriving h e hlen (fun a ha => hrank a (List.mem_append_left _ ha)) hbound'
    have hall := hheld.append_right (items es)
    obtain ⟨hheld', hwait'⟩ := ih hwait (by rw [hall.length_eq]; exact hcap)
      (fun a ha => hrank a (hall.mem_iff.mp ha)) hbound
    exact ⟨hheld'.trans hall, hwait'⟩

variable {all : List α} (hclosed : ∀ a ∈ all, ∀ d ∈ needs a, d ∈ all) (hcap : all.length ≤ capacity)
  (hrank : ∀ a ∈ all, rank a ≤ height ∧ ∀ d ∈ needs a, rank d < rank a)
  (hbound : t + height ≤ repeats + 1)

include hclosed hcap hrank hbound

theorem attempt_round {a : α} {n r : ℕ} (hr : Round rank t r ((a, n) :: old) new) (hs : s.parked = old ++ new)
    (hheld : (a :: s.held).Perm all) :
    (s.attempt needs capacity repeats a n).held.Perm all ∧
      ∃ new', (s.attempt needs capacity repeats a n).parked = old ++ new' ∧ Round rank t r old new' := by
  have hold : ∀ p ∈ old, r ≤ rank p.1 ∧ p.2 ≤ t + r := fun p hp => hr.old p (List.mem_cons_of_mem _ hp)
  by_cases hready : s.Ready needs a
  · refine ⟨(attempt_perm (Or.inl hready)).trans hheld, new, ?_, hold, hr.new⟩
    rw [attempt, if_pos hready]
    exact hs
  · obtain ⟨-, hn⟩ := hr.old _ (List.mem_cons_self ..)
    have ha : a ∈ all := hheld.mem_iff.mp (List.mem_cons_self ..)
    obtain ⟨htop, hneeds⟩ := hrank a ha
    -- something that `a` needs is still parked, so `a` is not of the lowest rank
    obtain ⟨d, hd, hmissing⟩ := exists_missing hready
    have hlt := hneeds d hd
    have hr' : r + 1 ≤ rank a := by
      rcases List.mem_cons.mp (hheld.mem_iff.mpr (hclosed a ha d hd)) with rfl | hmem
      · exact absurd hlt (Nat.lt_irrefl _)
      · obtain ⟨p, hp, rfl⟩ := List.mem_map.mp ((List.mem_append.mp hmem).resolve_left hmissing)
        rw [hs] at hp
        rcases List.mem_append.mp hp with hp | hp
        · have := (hold p hp).1
          omega
        · have := (hr.new p hp).1
          omega
    have hroom : s.parked.length < capacity := by
      have h1 := hheld.length_eq
      have h2 : s.parked.length ≤ s.held.length := by simp [held]
      rw [List.length_cons] at h1
      omega
    refine ⟨(attempt_perm (Or.inr ⟨hroom, by omega⟩)).trans hheld, new ++ [(a, n + 1)], ?_, hold, ?_⟩
    · rw [attempt, if_neg hready, if_neg (by omega), hs, List.append_assoc]
    · intro p hp
      rcases List.mem_append.mp hp with hp | hp
      · exact hr.new p hp
      · obtain rfl := List.mem_singleton.mp hp
        exact ⟨hr', by omega⟩

theorem tick_round {r : ℕ} (hr : Round rank t r old new) (hs : s.parked = old ++ new) (hheld : s.held.Perm all) :
    (s.step needs capacity repeats .tick).held.Perm all ∧ ∃ r' old' new',
      (s.step needs capacity repeats .tick).parked = old' ++ new' ∧ Round rank t r' old' new' := by
  obtain ⟨accepted, parked⟩ := s
  obtain rfl : parked = old ++ new := hs
  have hturn : ∀ {p : α × ℕ} {old new : List (α × ℕ)} {r : ℕ}, Round rank t r (p :: old) new →
      (held ⟨accepted, p :: (old ++ new)⟩).Perm all →
      (step needs capacity repeats ⟨accepted, p :: (old ++ new)⟩ .tick).held.Perm all ∧ ∃ r' old' new',
        (step needs capacity repeats ⟨accepted, p :: (old ++ new)⟩ .tick).parked = old' ++ new' ∧
          Round rank t r' old' new' := by
    intro p old new r hr hheld
    obtain ⟨hheld', new', hnew', hr'⟩ := attempt_round hclosed hcap hrank hbound
      (s := ⟨accepted, old ++ new⟩) hr rfl (List.perm_middle.symm.trans hheld)
    exact ⟨hheld', r, old, new', hnew', hr'⟩
  cases old with
  | cons p old => exact hturn hr hheld
  | nil =>
    cases new with
    | nil => exact ⟨hheld, r, [], [], rfl, hr⟩
    | cons p new =>
      have hnext : Round rank t (r + 1) (p :: new) [] := hr.next
      simpa using hturn hnext (by simpa using hheld)

/-- RUN: the ticks after the last arrival drop nothing. -/
theorem run_round (es : List (Arrival α)) : (∀ e ∈ es, e = .tick) → ∀ {s : RetryQueue α}
    {old new : List (α × ℕ)} {r : ℕ}, Round rank t r old new → s.parked = old ++ new → s.held.Perm all →
    (run (step needs capacity repeats) s es).held.Perm all := by
  induction es with
  | nil => exact fun _ _ _ _ _ _ _ hheld => hheld
  | cons e es ih =>
    intro hes s old new r hr hs hheld
    obtain ⟨hheld', r', old', new', hs', hr'⟩ := tick_round hclosed hcap hrank hbound hr hs hheld
    rw [run_cons, hes e (List.mem_cons_self ..)]
    exact ih (fun e' he' => hes e' (List.mem_cons_of_mem _ he')) hr' hs' hheld'

end Drained

/-- DRAINED: if the ticks before the last arrival and the height of the needs stay within the retries,
    the items that arrived are exactly those accepted when the queue is empty. -/
theorem accepted_of_drained {rank : α → ℕ} {height : ℕ} {early late : List (Arrival α)}
    (hlate : ∀ e ∈ late, e = .tick) (hclosed : ∀ a ∈ items early, ∀ d ∈ needs a, d ∈ items early)
    (hcap : (items early).length ≤ capacity)
    (hrank : ∀ a ∈ items early, rank a ≤ height ∧ ∀ d ∈ needs a, rank d < rank a)
    (hbound : ticks early + height ≤ repeats + 1)
    (hdone : (run (step needs capacity repeats) empty (early ++ late)).parked = []) :
    (run (step needs capacity repeats) empty (early ++ late)).accepted.Perm (items early) := by
  have hbound' : 0 + ticks early + height ≤ repeats + 1 := by omega
  obtain ⟨hheld, hwait⟩ := run_arriving (s := empty) early (fun _ hp => nomatch hp) hcap hrank hbound'
  have hround : Round rank (ticks early) 1 (run (step needs capacity repeats) empty early).parked [] :=
    ⟨by simpa [Waiting] using hwait, fun _ hp => nomatch hp⟩
  have hall := run_round hclosed hcap hrank hbound late hlate hround (by simp) hheld
  rw [← run_append] at hall
  simpa [held, hdone] using hall

end RetryQueue

end Schemes
