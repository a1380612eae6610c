import Mathlib.Algebra.GroupWithZero.Nat
import Mathlib.Data.List.Basic
import Mathlib.Tactic.Common

/-! @scheme fields | name:Separated fields | family:encoding

    A flat list with separators in it stands for the list of its non-empty fields. Separators in front,
    behind or in a row stand for nothing, so an editor may leave them where they are. Appending a field
    and dropping fields are then what they are on lists. What the separators cost is counted at the end. -/

namespace Schemes

variable {α : Type} [DecidableEq α] {sep : α}

/-- The non-empty fields. -/
def fields (sep : α) (s : List α) : List (List α) := (s.splitOn sep).filter (· ≠ [])

@[simp] theorem fields_nil : fields sep [] = [] := by simp [fields]

theorem fields_append_sep (s t : List α) : fields sep (s ++ sep :: t) = fields sep s ++ fields sep t := by
  have hsplit : (s ++ sep :: t).splitOn sep = s.splitOn sep ++ t.splitOn sep :=
    List.splitOnP_append_cons s t (beq_self_eq_true sep)
  rw [fields, hsplit, List.filter_append, fields, fields]

theorem fields_sep_cons (s : List α) : fields sep (sep :: s) = fields sep s := by
  have h : fields sep ([] ++ sep :: s) = fields sep [] ++ fields sep s := fields_append_sep [] s
  rwa [List.nil_append, fields_nil, List.nil_append] at h

theorem splitOn_of_not_mem {s : List α} (h : sep ∉ s) : s.splitOn sep = [s] := by
  refine List.splitOnP_eq_singleton fun x hx => ?_
  rw [beq_eq_false_iff_ne]
  exact fun heq => h (heq ▸ hx)

theorem fields_of_not_mem {s : List α} (h : sep ∉ s) : fields sep s = if s = [] then [] else [s] := by
  rw [fields, splitOn_of_not_mem h]
  by_cases hs : s = [] <;> simp [hs]

theorem sep_not_mem_of_splitOn (s : List α) : ∀ x ∈ s.splitOn sep, sep ∉ x := by
  induction s with
  | nil =>
    intro x hx
    rw [List.splitOn_nil, List.mem_singleton] at hx
    simp [hx]
  | cons y ys ih =>
    intro x hx
    rw [List.splitOn, List.splitOnP_cons_eq_if_modifyHead] at hx
    split at hx
    · rcases List.mem_cons.mp hx with rfl | hx
      · simp
      · exact ih x hx
    next hy =>
      -- the first field of the rest gets one element in front, and it is not the separator
      cases hsplit : List.splitOnP (· == sep) ys with
      | nil => rw [hsplit] at hx; cases hx
      | cons z zs =>
        have hmem : ∀ w ∈ z :: zs, sep ∉ w := fun w hw => ih w (by rw [List.splitOn, hsplit]; exact hw)
        rw [hsplit, List.modifyHead_cons] at hx
        rcases List.mem_cons.mp hx with rfl | hx
        · rw [List.mem_cons, not_or]
          refine ⟨fun heq => hy (by simp [heq]), hmem z (List.mem_cons_self ..)⟩
        · exact hmem x (List.mem_cons_of_mem _ hx)

theorem fields_flatMap_sep (xs : List (List α)) :
    fields sep (xs.flatMap (sep :: ·)) = xs.flatMap (fields sep) := by
  induction xs with
  | nil => simp
  | cons x xs ih =>
    have hrest : fields sep (x ++ xs.flatMap (sep :: ·)) = fields sep x ++ fields sep (xs.flatMap (sep :: ·)) := by
      cases xs with
      | nil => simp
      | cons y ys =>
        rw [List.flatMap_cons, List.cons_append, fields_append_sep, fields_sep_cons]
    rw [List.flatMap_cons, List.cons_append, fields_sep_cons, hrest, ih, List.flatMap_cons]

theorem fields_filter_join (p : List α → Bool) (s : List α) :
    fields sep (((s.splitOn sep).filter p).flatMap (sep :: ·)) = (fields sep s).filter p := by
  have hparts : ∀ xs : List (List α), (∀ x ∈ xs, sep ∉ x) →
      (xs.filter p).flatMap (fields sep) = (xs.filter (· ≠ [])).filter p := by
    intro xs hxs
    induction xs with
    | nil => rfl
    | cons x xs ih =>
      have hx := fields_of_not_mem (hxs x (List.mem_cons_self ..))
      have hrest := ih fun y hy => hxs y (List.mem_cons_of_mem _ hy)
      by_cases hp : p x = true <;> by_cases he : x = [] <;> simp_all
  rw [fields_flatMap_sep, hparts _ (sep_not_mem_of_splitOn s), fields]

/-! ### Counting separators -/

theorem length_splitOn (s : List α) : (s.splitOn sep).length = s.count sep + 1 := by
  induction s with
  | nil => rw [List.splitOn_nil, List.length_singleton, List.count_nil]
  | cons y ys ih =>
    rw [List.splitOn] at ih
    rw [List.splitOn, List.splitOnP_cons_eq_if_modifyHead]
    split
    next hy => rw [List.length_cons, ih, beq_iff_eq.mp hy, List.count_cons_self]
    next hy => rw [List.length_modifyHead, ih, List.count_cons_of_ne (by simpa using hy)]

theorem length_eq_fields (s : List α) : s.length = ((fields sep s).map List.length).sum + s.count sep := by
  have hparts : ∀ xs : List (List α),
      ((xs.filter (· ≠ [])).map List.length).sum = (xs.map List.length).sum := by
    intro xs
    induction xs with
    | nil => rfl
    | cons x xs ih =>
      rcases eq_or_ne x [] with rfl | hx
      · rw [List.filter_cons_of_neg (by simp), ih, List.map_cons, List.sum_cons, List.length_nil, Nat.zero_add]
      · rw [List.filter_cons_of_pos (by simpa using hx), List.map_cons, List.sum_cons, ih, List.map_cons,
          List.sum_cons]
  rw [fields, hparts]
  induction s with
  | nil => rfl
  | cons y ys ih =>
    rw [List.splitOn] at ih
    rw [List.splitOn, List.splitOnP_cons_eq_if_modifyHead, List.length_cons, ih]
    split
    next hy =>
      rw [List.map_cons, List.sum_cons, List.length_nil, beq_iff_eq.mp hy, List.count_cons_self]
      omega
    next hy =>
      rw [List.count_cons_of_ne (by simpa using hy)]
      -- the first part of the rest is longer by one
      cases hsplit : List.splitOnP (· == sep) ys with
      | nil => exact absurd hsplit (List.splitOnP_ne_nil _ ys)
      | cons z zs =>
        rw [List.modifyHead_cons, List.map_cons, List.map_cons, List.sum_cons, List.sum_cons, List.length_cons]
        omega

theorem count_filter_join (p : List α → Bool) (s : List α) :
    (((s.splitOn sep).filter p).flatMap (sep :: ·)).count sep = ((s.splitOn sep).filter p).length := by
  have hparts : ∀ xs : List (List α), (∀ x ∈ xs, sep ∉ x) → (xs.flatMap (sep :: ·)).count sep = xs.length := by
    intro xs hxs
    induction xs with
    | nil => rfl
    | cons x xs ih =>
      rw [List.flatMap_cons, List.count_append, List.count_cons_self,
        List.count_eq_zero_of_not_mem (hxs x (List.mem_cons_self ..)),
        ih fun y hy => hxs y (List.mem_cons_of_mem _ hy), List.length_cons]
      omega
  exact hparts _ fun x hx => sep_not_mem_of_splitOn s x (List.mem_of_mem_filter hx)

theorem length_filter_ne {β : Type} [DecidableEq β] [BEq β] [LawfulBEq β] (a : β) (xs : List β) :
    (xs.filter (· ≠ a)).length + xs.count a = xs.length := by
  rw [List.length_eq_countP_add_countP (· == a) (l := xs), List.count, ← List.countP_eq_length_filter, Nat.add_comm]
  simp

/-- EDIT: dropping a field and joining the parts again costs one separator, and saves one for each that was
    dropped. -/
theorem count_drop_join {x : List α} (hx : x ≠ []) (s : List α) :
    (((s.splitOn sep).filter (· ≠ x)).flatMap (sep :: ·)).count sep + (fields sep s).count x = s.count sep + 1 := by
  have hfields : (fields sep s).count x = (s.splitOn sep).count x := by
    rw [fields, List.count_filter (by simpa using hx)]
  rw [count_filter_join, hfields, length_filter_ne, length_splitOn]

end Schemes
