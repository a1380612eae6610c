import Mathlib.Data.List.Dedup
import Mathlib.Data.List.Perm.Subperm
import Mathlib.Tactic.Common

/-! @scheme enumeration | name:Enumerations chosen by an oracle | family:nondeterminism

    A map or a channel hands out its elements in an order the program does not fix. An oracle
    proposes an order as a list; `arrange` keeps of it what is really there and appends what it
    forgot, so the outcome is an enumeration of the set whatever the oracle says, and every
    enumeration is the outcome of some oracle. `arrange` may repeat elements, `enumerate` never. -/

namespace Schemes

variable {α : Type} [DecidableEq α] {order xs : List α} {x : α}

/-- The elements of `xs` in the order proposed, with the proposal's repetitions. -/
def arrange (order xs : List α) : List α := order.filter (· ∈ xs) ++ xs.filter (· ∉ order)

theorem mem_arrange : x ∈ arrange order xs ↔ x ∈ xs := by
  simp only [arrange, List.mem_append, List.mem_filter, decide_eq_true_eq]
  tauto

theorem arrange_self (h : ∀ x, x ∈ order ↔ x ∈ xs) : arrange order xs = order := by
  have h1 : order.filter (· ∈ xs) = order :=
    List.filter_eq_self.mpr fun x hx => decide_eq_true ((h x).mp hx)
  have h2 : xs.filter (· ∉ order) = [] :=
    List.filter_eq_nil_iff.mpr fun x hx => by simpa using (h x).mpr hx
  rw [arrange, h1, h2, List.append_nil]

theorem arrange_perm {ys : List α} (h : xs.Perm ys) : (arrange order xs).Perm (arrange order ys) := by
  have hmem : order.filter (· ∈ xs) = order.filter (· ∈ ys) :=
    List.filter_congr fun x _ => by simp only [h.mem_iff]
  rw [arrange, arrange, hmem]
  exact (h.filter _).append_left _

/-- The elements of `xs`, each once, in the order proposed. -/
def enumerate (order xs : List α) : List α := arrange order.dedup xs

theorem mem_enumerate : x ∈ enumerate order xs ↔ x ∈ xs := mem_arrange

theorem enumerate_nodup (h : xs.Nodup) : (enumerate order xs).Nodup := by
  refine (List.Nodup.filter _ (List.nodup_dedup order)).append (h.filter _) fun x hx hx' => ?_
  simp only [List.mem_filter, decide_eq_true_eq] at hx hx'
  exact hx'.2 hx.1

theorem enumerate_perm (h : xs.Nodup) : (enumerate order xs).Perm xs :=
  (List.perm_ext_iff_of_nodup (enumerate_nodup h) h).mpr fun _ => mem_enumerate

theorem length_enumerate_le (order xs : List α) : (enumerate order xs).length ≤ xs.length := by
  have hsub : (order.dedup.filter (· ∈ xs)).Subperm (xs.filter (· ∈ order.dedup)) := by
    refine List.subperm_of_subset ((List.nodup_dedup order).filter _) fun x hx => ?_
    simp only [List.mem_filter, decide_eq_true_eq] at hx ⊢
    exact hx.symm
  have hsplit := xs.length_eq_length_filter_add fun x => decide (x ∈ order.dedup)
  rw [enumerate, arrange, List.length_append, hsplit]
  simp only [← decide_not]
  exact Nat.add_le_add_right hsub.length_le _

@[simp] theorem enumerate_nil (order : List α) : enumerate order [] = [] := by simp [enumerate, arrange]

theorem getLast_enumerate (order : List α) (h : xs ≠ []) : ∃ x ∈ xs, (enumerate order xs).getLast? = some x := by
  obtain ⟨y, hy⟩ := List.exists_mem_of_ne_nil xs h
  have hne : enumerate order xs ≠ [] := List.ne_nil_of_mem (mem_enumerate.mpr hy)
  exact ⟨_, mem_enumerate.mp (List.getLast_mem hne), List.getLast?_eq_some_getLast hne⟩

theorem exists_enumerate_getLast (h : xs.Nodup) (hx : x ∈ xs) :
    ∃ order, (enumerate order xs).getLast? = some x := by
  have hnodup : (xs.erase x ++ [x]).Nodup := by
    refine (h.erase x).append (List.nodup_singleton x) ?_
    intro y hy hyx
    rw [List.mem_singleton.mp hyx] at hy
    exact (h.mem_erase_iff.mp hy).1 rfl
  have hmem : ∀ y, y ∈ xs.erase x ++ [x] ↔ y ∈ xs := by
    intro y
    rw [List.mem_append, h.mem_erase_iff, List.mem_singleton]
    constructor
    · rintro (⟨-, hy⟩ | rfl)
      · exact hy
      · exact hx
    · intro hy
      exact (ne_or_eq y x).imp (fun hne => ⟨hne, hy⟩) id
  refine ⟨xs.erase x ++ [x], ?_⟩
  rw [enumerate, hnodup.dedup, arrange_self hmem, List.getLast?_concat]

/-! ### A visited set -/

/-- What a loop with a visited set acts on: the first occurrences of the ids not visited before. -/
def firsts : (visited : List α) → List α → List α
  | _, [] => []
  | visited, x :: xs => if x ∈ visited then firsts visited xs else x :: firsts (x :: visited) xs

theorem mem_firsts : ∀ {xs visited : List α} {x : α}, x ∈ firsts visited xs ↔ x ∈ xs ∧ x ∉ visited
  | [], _, _ => by simp [firsts]
  | y :: ys, visited, x => by
      rw [firsts]
      split
      next hy =>
        rw [mem_firsts, List.mem_cons]
        exact ⟨fun h => ⟨Or.inr h.1, h.2⟩, fun h => ⟨h.1.resolve_left fun e => h.2 (e ▸ hy), h.2⟩⟩
      next hy =>
        rw [List.mem_cons, mem_firsts, List.mem_cons, List.mem_cons]
        by_cases hxy : x = y
        · subst hxy; simp [hy]
        · simp [hxy]

theorem firsts_nodup : ∀ (xs visited : List α), (firsts visited xs).Nodup
  | [], _ => List.nodup_nil
  | y :: ys, visited => by
      rw [firsts]
      split
      · exact firsts_nodup ys visited
      · refine List.nodup_cons.mpr ⟨fun h => ?_, firsts_nodup ys _⟩
        exact (mem_firsts.mp h).2 (List.mem_cons_self ..)

theorem firsts_eq_self : ∀ {xs visited : List α}, xs.Nodup → (∀ x ∈ xs, x ∉ visited) →
    firsts visited xs = xs
  | [], _, _, _ => rfl
  | y :: ys, visited, hnd, hdis => by
      rw [firsts, if_neg (hdis y (List.mem_cons_self ..))]
      obtain ⟨hy, hnd⟩ := List.nodup_cons.mp hnd
      rw [firsts_eq_self hnd]
      intro x hx
      rw [List.mem_cons, not_or]
      exact ⟨fun e => hy (e ▸ hx), hdis x (List.mem_cons_of_mem _ hx)⟩

end Schemes
