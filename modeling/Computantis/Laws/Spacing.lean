import Mathlib.Data.List.Range
import Computantis.Laws.Signals

/-! @law spacing | name:Distances between truncations | family:safety | about:Model/Node

    After a truncation `runTruncate` adds its weight to the mark that the next signal has to exceed by
    `truncateDiff`. The mark was a distance from the last truncation only once: it is doubled by every
    truncation, and so are the weights at which the next one happens.

        mark       N ────▶ 2N + 1001 ────▶ 4N + 3003 ────▶ …
        truncates    N + 1001    2(N + 1001)     4(N + 1001)

    `TruncateLoop` is the goroutine with nothing but its mark; by `Keeper.truncates_as_marked` the goroutine
    of a node truncates where the loop does, as long as its truncations succeed. -/

namespace Computantis

open Schemes

/-! ### The mark -/

/-- The mark of `runTruncate`, and the weights it has truncated at. -/
structure TruncateLoop where
  next : UInt64
  truncated : List UInt64
  deriving DecidableEq

/-- One signal: below the mark the loop goes on, above it the book is truncated and the mark moves. -/
def TruncateLoop.signal (s : TruncateLoop) (w : UInt64) : TruncateLoop :=
  if checkCanTruncate w s.next then ⟨s.next + w, s.truncated ++ [w]⟩ else s

/-- The mark of a new book. -/
def TruncateLoop.start (truncate : UInt64) : TruncateLoop :=
  ⟨(newAccountingBook truncate).nextWeightTruncate, []⟩

/-- The weights at which a new book is truncated in the course of the signals. -/
def truncations (truncate : UInt64) (ws : List UInt64) : List UInt64 :=
  (run TruncateLoop.signal (.start truncate) ws).truncated

variable {ws : List UInt64} {truncate w : UInt64} {c k n : ℕ} {s : TruncateLoop}

theorem start_next (h : 2 * truncateDiff ≤ truncate) : (TruncateLoop.start truncate).next = truncate := by
  have hdouble : truncateDiff * 2 = 2 * truncateDiff := rfl
  rw [TruncateLoop.start, newAccountingBook, hdouble, if_neg (UInt64.not_lt.mpr h)]

/-! ### The goroutine of a node -/

/-- A keeper, the signals its goroutine has taken and the weights it has truncated at. -/
structure Watched where
  keeper : Keeper
  taken : List UInt64
  done : List UInt64

namespace Watched

/-- The signal that the event hands to the goroutine. -/
def taking (k : Keeper) : Keeper.Event → List UInt64
  | .receive => if k.truncator = .receiving then k.node.book.truncateSignal.take 1 else []
  | _ => []

/-- The weight of the truncation that the event completes. -/
def finishing (env : Env) (k : Keeper) : Keeper.Event → List UInt64
  | .truncate t =>
    match k.truncator with
    | .holding w => if (k.node.book.truncate env t).2.isNone then [w] else []
    | _ => []
  | _ => []

def step (env : Env) (s : Watched) (e : Keeper.Event) : Watched :=
  ⟨s.keeper.step env e, s.taken ++ taking s.keeper e, s.done ++ finishing env s.keeper e⟩

/-- The goroutine is where the loop is, or one truncation behind. -/
def Follows (m : TruncateLoop) (s : Watched) : Prop :=
  match s.keeper.truncator with
  | .receiving => m = ⟨s.keeper.node.book.nextWeightTruncate, s.done⟩
  | .holding w => m = ⟨s.keeper.node.book.nextWeightTruncate + w, s.done ++ [w]⟩
  | .returned => ∃ w, m.truncated = s.done ++ [w]

theorem Follows.step (env : Env) {m : TruncateLoop} {s : Watched} (h : Follows m s) (e : Keeper.Event) :
    Follows (run TruncateLoop.signal m (taking s.keeper e)) (s.step env e) := by
  obtain ⟨⟨node, truncator⟩, taken, done⟩ := s
  cases e with
  | call e =>
    have hmark := step_mark env node e
    simp only [Follows, Watched.step, Keeper.step, taking, finishing, hmark, List.append_nil, run_nil] at h ⊢
    exact h
  | receive =>
    cases truncator with
    | receiving =>
      cases hsignals : node.book.truncateSignal with
      | nil => simpa [Follows, Watched.step, Keeper.step, Keeper.receive, taking, finishing, hsignals] using h
      | cons w ws =>
        simp only [Follows] at h
        cases hask : checkCanTruncate w node.book.nextWeightTruncate <;>
          simp [Follows, Watched.step, Keeper.step, Keeper.receive, taking, finishing, hsignals, hask, h,
            TruncateLoop.signal]
    | holding w => simpa [Follows, Watched.step, Keeper.step, Keeper.receive, taking, finishing] using h
    | returned => simpa [Follows, Watched.step, Keeper.step, Keeper.receive, taking, finishing] using h
  | truncate t =>
    cases truncator with
    | receiving => simpa [Follows, Watched.step, Keeper.step, Keeper.truncate, taking, finishing] using h
    | returned => simpa [Follows, Watched.step, Keeper.step, Keeper.truncate, taking, finishing] using h
    | holding w =>
      have hmark := congrArg Prod.snd (truncate_signalling env node.book t)
      rcases hres : node.book.truncate env t with ⟨book, err⟩
      simp only [hres, Book.signalling] at hmark
      simp only [Follows] at h
      cases err with
      | none => simp [Follows, Watched.step, Keeper.step, Keeper.truncate, taking, finishing, hres, h, hmark]
      | some err => simp [Follows, Watched.step, Keeper.step, Keeper.truncate, taking, finishing, hres, h]

theorem Follows.marked {m : TruncateLoop} {s : Watched} (h : Follows m s) : s.done <+: m.truncated := by
  rw [Follows] at h
  split at h
  · rw [h]
  · rw [h]
    exact List.prefix_append ..
  · obtain ⟨w, hw⟩ := h
    rw [hw]
    exact List.prefix_append ..

theorem follows_run (env : Env) (truncate : UInt64) (es : List Keeper.Event) :
    Follows (run TruncateLoop.signal (.start truncate)
        (run (step env) ⟨⟨.fresh truncate, .receiving⟩, [], []⟩ es).taken)
      (run (step env) ⟨⟨.fresh truncate, .receiving⟩, [], []⟩ es) := by
  refine run_invariant (I := fun s => Follows (run TruncateLoop.signal (.start truncate) s.taken) s) ?_ es ?_
  · intro s e h
    have hstep := h.step env e
    rw [← run_append] at hstep
    exact hstep
  · exact rfl

end Watched

/-- REFINEMENT: the goroutine of a new node truncates where the loop does, in this order, and is behind it
    only by a truncation that is under way or has failed. -/
theorem Keeper.truncates_as_marked (env : Env) (truncate : UInt64) (es : List Keeper.Event) :
    (run (Watched.step env) ⟨⟨.fresh truncate, .receiving⟩, [], []⟩ es).done <+:
      truncations truncate (run (Watched.step env) ⟨⟨.fresh truncate, .receiving⟩, [], []⟩ es).taken :=
  (Watched.follows_run env truncate es).marked

/-! ### Weights that grow -/

/-- The weights start at one and grow by at most one from signal to signal. -/
structure Climbing (ws : List UInt64) : Prop where
  first : ∀ w ∈ ws.head?, w = 1
  grows : ws.IsChain fun w w' => w'.toNat ≤ w.toNat + 1

namespace Climbing

variable {ws : List UInt64} {w : UInt64}

theorem init (h : Climbing (ws ++ [w])) : Climbing ws where
  first x hx := h.first x (List.head?_append_of_ne_nil ws (by rintro rfl; simp at hx) ▸ hx)
  grows := h.grows.left_of_append

theorem last_le (h : Climbing (ws ++ [w])) {m : ℕ} (hm : 1 ≤ m) (hws : ∀ x ∈ ws, x.toNat < m) :
    w.toNat ≤ m := by
  rcases ws.eq_nil_or_concat' with rfl | ⟨xs, x, rfl⟩
  · rw [h.first w rfl]
    exact hm
  · have hgrows := h.grows
    rw [List.append_assoc, List.singleton_append, List.isChain_append_cons_cons] at hgrows
    exact hgrows.2.1.trans (hws x (by simp))

theorem le_length (h : Climbing ws) : ∀ w ∈ ws, w.toNat ≤ ws.length := by
  induction ws using List.reverseRecOn with
  | nil => simp
  | append_singleton ws x ih =>
    intro w hw
    have hle := ih h.init
    rw [List.length_append, List.length_singleton]
    rcases List.mem_append.mp hw with hw | hw
    · exact (hle w hw).trans (Nat.le_succ _)
    · rw [List.mem_singleton.mp hw]
      exact h.last_le (Nat.le_add_left _ _) fun y hy => Nat.lt_succ_of_le (hle y hy)

end Climbing

/-! ### The mark doubles -/

/-- After these signals the mark has been reached `k` times, each time at twice the weight of the time before.
    `c` is the first weight that reaches it. -/
structure Doubled (c k : ℕ) (ws : List UInt64) (s : TruncateLoop) : Prop where
  next : s.next.toNat + truncateDiff.toNat + 1 = 2 ^ k * c
  truncated : s.truncated.map UInt64.toNat = (List.range k).map (2 ^ · * c)
  below : ∀ w ∈ ws, w.toNat < 2 ^ k * c
  reached : ∀ i < k, ∃ w ∈ ws, w.toNat = 2 ^ i * c

namespace Doubled

variable {c k : ℕ} {ws : List UInt64} {s : TruncateLoop} {w : UInt64}

theorem pos (h : Doubled c k ws s) : 1 ≤ 2 ^ k * c := by
  rw [← h.next]
  exact Nat.le_add_left _ _

theorem signal (h : Doubled c k ws s) (hws : Climbing (ws ++ [w])) (hw : w.toNat < 2 ^ 63) :
    ∃ k', Doubled c k' (ws ++ [w]) (s.signal w) := by
  have hle := hws.last_le h.pos h.below
  have hnext := h.next
  rw [TruncateLoop.signal]
  split
  next hask =>
    -- The mark is below the weight, which is below half the range of the words: their sum does not wrap.
    have hfar := checkCanTruncate_iff.mp hask
    have hexact : w.toNat = 2 ^ k * c := by omega
    have hsum : (s.next + w).toNat = s.next.toNat + w.toNat := by
      rw [UInt64.toNat_add, Nat.mod_eq_of_lt (by omega)]
    refine ⟨k + 1, ?_, ?_, ?_, ?_⟩
    · rw [hsum, pow_succ', Nat.mul_assoc]
      omega
    · rw [List.map_append, h.truncated, List.range_succ, List.map_append, List.map_singleton,
        List.map_singleton, hexact]
    · intro x hx
      have hdouble : 2 ^ (k + 1) * c = 2 * (2 ^ k * c) := by rw [pow_succ', Nat.mul_assoc]
      have hpos := h.pos
      rcases List.mem_append.mp hx with hx | hx
      · have hbelow := h.below x hx
        omega
      · rw [List.mem_singleton.mp hx]
        omega
    · intro i hi
      rcases Nat.lt_succ_iff_lt_or_eq.mp hi with hi | rfl
      · obtain ⟨x, hx, hreached⟩ := h.reached i hi
        exact ⟨x, List.mem_append_left _ hx, hreached⟩
      · exact ⟨w, by simp, hexact⟩
  next hask =>
    have hnear : ¬ s.next.toNat + truncateDiff.toNat < w.toNat := fun hfar =>
      hask (checkCanTruncate_iff.mpr hfar)
    refine ⟨k, hnext, h.truncated, ?_, ?_⟩
    · intro x hx
      rcases List.mem_append.mp hx with hx | hx
      · exact h.below x hx
      · rw [List.mem_singleton.mp hx]
        omega
    · intro i hi
      obtain ⟨x, hx, hreached⟩ := h.reached i hi
      exact ⟨x, List.mem_append_left _ hx, hreached⟩

theorem of_climbing (htruncate : 2 * truncateDiff ≤ truncate) (hws : Climbing ws) (hlen : ws.length < 2 ^ 63) :
    ∃ k, Doubled (truncate.toNat + truncateDiff.toNat + 1) k ws
      (run TruncateLoop.signal (.start truncate) ws) := by
  induction ws using List.reverseRecOn with
  | nil => exact ⟨0, by simp [start_next htruncate], rfl, by simp, by simp⟩
  | append_singleton ws w ih =>
    have hw := hws.le_length w (by simp)
    rw [List.length_append, List.length_singleton] at hlen hw
    obtain ⟨k, hk⟩ := ih hws.init (by omega)
    rw [run_append]
    exact hk.signal hws (by omega)

theorem last (h : Doubled c (k + 1) ws s) : s.truncated.getLast?.map UInt64.toNat = some (2 ^ k * c) := by
  rw [← List.getLast?_map, h.truncated, List.range_succ, List.map_append, List.map_singleton,
    List.getLast?_concat]

end Doubled

/-! ### Distances -/

/-- From each truncation to the next it is more than `truncateDiff`, and at most the configured mark and
    `truncateDiff + 1`. -/
def Spaced (truncate : UInt64) (ts : List UInt64) : Prop :=
  ts.IsChain fun w w' => w.toNat + truncateDiff.toNat < w'.toNat ∧
    w'.toNat ≤ w.toNat + truncate.toNat + truncateDiff.toNat + 1

/-- After a truncation no signal, up to the one that brings the next truncation, is further away. -/
def Contained (truncate : UInt64) (ws : List UInt64) : Prop :=
  ∀ xs w ys, ws = xs ++ w :: ys → ∀ t ∈ (truncations truncate xs).getLast?,
    w.toNat ≤ t.toNat + (truncate.toNat + truncateDiff.toNat + 1)

theorem Doubled.spaced_iff (h : Doubled (truncate.toNat + truncateDiff.toNat + 1) k ws s) :
    Spaced truncate s.truncated ↔ k ≤ 2 := by
  have hchain : Spaced truncate s.truncated ↔ (s.truncated.map UInt64.toNat).IsChain fun w w' =>
      w + truncateDiff.toNat < w' ∧ w' ≤ w + truncate.toNat + truncateDiff.toNat + 1 := by
    rw [List.isChain_map]
    rfl
  rw [hchain, h.truncated, List.isChain_map, List.isChain_range]
  generalize truncate.toNat = n
  constructor
  · intro hspaced
    by_contra hk
    have hsecond := (hspaced 1 (by omega)).2
    norm_num at hsecond
    omega
  · intro hk i hi
    obtain rfl : i = 0 := by omega
    norm_num
    omega

theorem Doubled.le_two_iff (h : Doubled c k ws s) : k ≤ 2 ↔ ∀ w ∈ ws, w.toNat < 4 * c := by
  constructor
  · intro hk w hw
    have hpow : 2 ^ k ≤ 2 ^ 2 := Nat.pow_le_pow_right (by norm_num) hk
    exact (h.below w hw).trans_le (Nat.mul_le_mul_right c hpow)
  · intro hws
    by_contra hk
    obtain ⟨w, hw, hreached⟩ := h.reached 2 (by omega)
    exact absurd hreached (hws w hw).ne

theorem Doubled.eq_of_top {m : ℕ} (h : Doubled c k ws s) (htop : ∃ w ∈ ws, w.toNat = 2 ^ m * c)
    (hws : ∀ w ∈ ws, w.toNat < 2 ^ (m + 1) * c) : k = m + 1 := by
  have hlt : m < k := by
    obtain ⟨w, hw, hreached⟩ := htop
    have hbelow := h.below w hw
    rw [hreached] at hbelow
    exact (Nat.pow_lt_pow_iff_right Nat.one_lt_two).mp (lt_of_mul_lt_mul_right' hbelow)
  by_contra hne
  obtain ⟨w, hw, hreached⟩ := h.reached (m + 1) (by omega)
  exact absurd hreached (hws w hw).ne

theorem Doubled.close_iff (h : Doubled c k ws s) (hws : Climbing (ws ++ [w])) (hlow : ∀ x ∈ ws, x.toNat ≤ 3 * c) :
    (∀ t ∈ s.truncated.getLast?, w.toNat ≤ t.toNat + c) ↔ w.toNat ≤ 3 * c := by
  have hc : 0 < c := Nat.pos_of_mul_pos_left h.pos
  have hle := hws.last_le h.pos h.below
  have hk : k ≤ 2 := h.le_two_iff.mpr fun x hx => (hlow x hx).trans_lt (by omega)
  cases k with
  | zero =>
    have hnone : s.truncated = [] := List.map_eq_nil_iff.mp h.truncated
    simp only [hnone, List.getLast?_nil, Option.not_mem_none, false_implies, implies_true, true_iff]
    omega
  | succ j =>
    obtain ⟨t, ht, hdouble⟩ := Option.map_eq_some_iff.mp h.last
    simp only [ht, Option.mem_def, Option.some.injEq, forall_eq', hdouble]
    obtain rfl | rfl : j = 0 ∨ j = 1 := by omega
    · omega
    · omega

theorem contained_concat :
    Contained truncate (ws ++ [w]) ↔ Contained truncate ws ∧
      ∀ t ∈ (truncations truncate ws).getLast?,
        w.toNat ≤ t.toNat + (truncate.toNat + truncateDiff.toNat + 1) := by
  constructor
  · intro h
    refine ⟨?_, h ws w [] rfl⟩
    intro xs x ys hws
    exact h xs x (ys ++ [w]) (by simp [hws])
  · rintro ⟨hinit, hlast⟩ xs x ys hws
    rcases ys.eq_nil_or_concat' with rfl | ⟨ys, y, rfl⟩
    · obtain ⟨rfl, hw⟩ := List.append_inj' hws rfl
      rw [← List.singleton_inj.mp hw]
      exact hlast
    · rw [← List.cons_append, ← List.append_assoc] at hws
      exact hinit xs x ys (List.append_inj' hws rfl).1

/-- RUN: the signals stay close as long as they are below three times the first weight. -/
theorem contained_iff (htruncate : 2 * truncateDiff ≤ truncate) (hws : Climbing ws) (hlen : ws.length < 2 ^ 63) :
    Contained truncate ws ↔ ∀ w ∈ ws, w.toNat ≤ 3 * (truncate.toNat + truncateDiff.toNat + 1) := by
  induction ws using List.reverseRecOn with
  | nil => exact ⟨by simp, fun _ xs w ys h => absurd h (by simp)⟩
  | append_singleton ws w ih =>
    rw [List.length_append, List.length_singleton] at hlen
    obtain ⟨k, hk⟩ := Doubled.of_climbing htruncate hws.init (by omega)
    rw [contained_concat, ih hws.init (by omega), List.forall_mem_append, List.forall_mem_singleton]
    exact and_congr_right fun hlow => hk.close_iff hws hlow

/-- CORRECT: truncations keep their distance until the third, which comes at four times the weight of the
    first; and the weights run away from the second after they have reached three times the weight of the
    first. -/
theorem truncations_spaced_iff {truncate : UInt64} (htruncate : 2 * truncateDiff ≤ truncate)
    {ws : List UInt64} (hws : Climbing ws) (hlen : ws.length < 2 ^ 63) :
    (Spaced truncate (truncations truncate ws) ↔
      ∀ w ∈ ws, w.toNat < 4 * (truncate.toNat + truncateDiff.toNat + 1)) ∧
    (Contained truncate ws ↔ ∀ w ∈ ws, w.toNat ≤ 3 * (truncate.toNat + truncateDiff.toNat + 1)) := by
  obtain ⟨k, hk⟩ := Doubled.of_climbing htruncate hws hlen
  refine ⟨?_, contained_iff htruncate hws hlen⟩
  rw [← hk.le_two_iff]
  exact hk.spaced_iff

/-! ### Concrete runs -/

/-- The weights one to `n`. -/
def rising (n : ℕ) : List UInt64 := (List.range n).map fun i => UInt64.ofNat (i + 1)

theorem toNat_rising (hn : n < 2 ^ 63) : (rising n).map UInt64.toNat = (List.range n).map (· + 1) := by
  rw [rising, List.map_map]
  refine List.map_congr_left fun i hi => ?_
  have hlt : i + 1 < 2 ^ 64 := by
    have := List.mem_range.mp hi
    omega
  exact UInt64.toNat_ofNat_of_lt' hlt

theorem climbing_rising (hn : n < 2 ^ 63) : Climbing (rising n) where
  first := by
    cases n with
    | zero => simp [rising]
    | succ n => simp [rising, List.range_succ_eq_map]
  grows := by
    have hchain : ((rising n).map UInt64.toNat).IsChain fun w w' => w' ≤ w + 1 := by
      rw [toNat_rising hn, List.isChain_map, List.isChain_range]
      exact fun i _ => le_refl _
    exact (List.isChain_map _).mp hchain

theorem exists_rising {m : ℕ} (hn : n < 2 ^ 63) : (∃ w ∈ rising n, w.toNat = m) ↔ 1 ≤ m ∧ m ≤ n := by
  rw [← List.mem_map, toNat_rising hn, List.mem_map]
  constructor
  · rintro ⟨i, hi, rfl⟩
    exact ⟨Nat.le_add_left _ _, List.mem_range.mp hi⟩
  · rintro ⟨hpos, hle⟩
    exact ⟨m - 1, List.mem_range.mpr (by omega), by omega⟩

theorem le_of_mem_rising (hn : n < 2 ^ 63) (hw : w ∈ rising n) : w.toNat ≤ n :=
  ((exists_rising hn).mp ⟨w, hw, rfl⟩).2

theorem length_rising (n : ℕ) : (rising n).length = n := by rw [rising, List.length_map, List.length_range]

/-- With a mark of two thousand, nine thousand and three weights bring two truncations at their distance. -/
theorem two_truncations_spaced : Spaced 2000 (truncations 2000 (rising 9003)) ∧ Contained 2000 (rising 9003) := by
  have hn : 9003 < 2 ^ 63 := by omega
  have hmark : 2 * truncateDiff ≤ 2000 := by decide
  have hlen : (rising 9003).length < 2 ^ 63 := (length_rising 9003).trans_lt hn
  obtain ⟨hspaced, hcontained⟩ := truncations_spaced_iff hmark (climbing_rising hn) hlen
  have hc : (2000 : UInt64).toNat + truncateDiff.toNat + 1 = 3001 := rfl
  rw [hspaced, hcontained, hc]
  constructor
  · intro w hw
    have hle := le_of_mem_rising hn hw
    omega
  · intro w hw
    have hle := le_of_mem_rising hn hw
    omega

/-- With a mark of two thousand the third truncation comes six thousand and two weights after the second,
    twice the distance; the weights are too far from the second already at nine thousand and four. -/
theorem third_truncation_too_far :
    2 * truncateDiff ≤ 2000 ∧ Climbing (rising 12004) ∧ (rising 12004).length < 2 ^ 63 ∧
      (truncations 2000 (rising 12004)).map UInt64.toNat = [3001, 6002, 12004] ∧
      ¬ Spaced 2000 (truncations 2000 (rising 12004)) ∧ ¬ Contained 2000 (rising 9004) := by
  have hn : 12004 < 2 ^ 63 := by omega
  have hlow : 9004 < 2 ^ 63 := by omega
  have hmark : 2 * truncateDiff ≤ 2000 := by decide
  have hc : (2000 : UInt64).toNat + truncateDiff.toNat + 1 = 3001 := rfl
  have hlen : (rising 12004).length < 2 ^ 63 := (length_rising 12004).trans_lt hn
  have hlenLow : (rising 9004).length < 2 ^ 63 := (length_rising 9004).trans_lt hlow
  obtain ⟨k, hk⟩ := Doubled.of_climbing hmark (climbing_rising hn) hlen
  have hthree : k = 3 := by
    refine hk.eq_of_top (m := 2) ((exists_rising hn).mpr ?_) fun w hw => ?_
    · rw [hc]
      omega
    · have hle := le_of_mem_rising hn hw
      rw [hc]
      omega
  refine ⟨hmark, climbing_rising hn, hlen, ?_, ?_, ?_⟩
  · rw [truncations, hk.truncated, hthree, hc]
    rfl
  · rw [truncations, hk.spaced_iff, hthree]
    omega
  · rw [contained_iff hmark (climbing_rising hlow) hlenLow, hc]
    intro hall
    obtain ⟨w, hw, htop⟩ := (exists_rising hlow).mpr ⟨by omega, le_refl 9004⟩
    have hle := hall w hw
    omega

end Computantis
