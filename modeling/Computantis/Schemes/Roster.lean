import Mathlib.Data.List.Nodup
import Mathlib.Data.List.Sublists

/-! @scheme roster | name:A roster that newcomers sign | family:protocol

    Whoever comes signs one roster, takes a copy of what is on it, and then visits everybody on the copy. Two
    that are through with their visits know one another, for one of them has signed after the other. Visits go
    up the roster, so among those that wait for somebody the first one on it waits in vain for nobody.

        sign ──▶ todo: all above ──visit──▶ both know each other -/

namespace Schemes

variable {α : Type}

/-- One element comes before another on the list. -/
abbrev Above (signed : List α) (a b : α) : Prop := [a, b].Sublist signed

namespace Above

variable {signed : List α} {a b c : α}

theorem left_mem (h : Above signed a b) : a ∈ signed := h.subset (by simp)

theorem right_mem (h : Above signed a b) : b ∈ signed := h.subset (by simp)

theorem cons_iff {d : α} : Above (d :: signed) a b ↔ (a = d ∧ b ∈ signed) ∨ Above signed a b := by
  constructor
  · intro h
    cases h with
    | cons _ h => exact Or.inr h
    | cons_cons _ h => exact Or.inl ⟨rfl, List.singleton_sublist.mp h⟩
  · rintro (⟨rfl, hb⟩ | h)
    · exact (List.singleton_sublist.mpr hb).cons_cons _
    · exact h.cons _

theorem append_iff : Above (signed ++ [c]) a b ↔ Above signed a b ∨ (a ∈ signed ∧ b = c) := by
  induction signed with
  | nil => simp
  | cons d signed ih =>
    rw [List.cons_append, cons_iff, cons_iff, ih, List.mem_append, List.mem_singleton, List.mem_cons]
    tauto

theorem mem_before {before after : List α} (hnd : (before ++ c :: after).Nodup)
    (h : Above (before ++ c :: after) a c) : a ∈ before := by
  induction before with
  | nil =>
    have hc : c ∉ after := (List.nodup_cons.mp hnd).1
    rcases cons_iff.mp h with ⟨-, hmem⟩ | habove
    · exact absurd hmem hc
    · exact absurd habove.right_mem hc
  | cons d before ih =>
    rcases cons_iff.mp h with ⟨rfl, -⟩ | habove
    · exact List.mem_cons_self ..
    · exact List.mem_cons_of_mem _ (ih (List.nodup_cons.mp hnd).2 habove)

theorem ne (hnd : signed.Nodup) (h : Above signed a b) : a ≠ b := by
  have hpair : [a, b].Nodup := hnd.sublist h
  simpa using hpair

theorem total (ha : a ∈ signed) (hb : b ∈ signed) (hne : a ≠ b) : Above signed a b ∨ Above signed b a := by
  induction signed with
  | nil => cases ha
  | cons d signed ih =>
    rw [cons_iff, cons_iff]
    rcases List.mem_cons.mp ha with rfl | ha'
    · exact Or.inl (Or.inl ⟨rfl, (List.mem_cons.mp hb).resolve_left hne.symm⟩)
    · rcases List.mem_cons.mp hb with rfl | hb'
      · exact Or.inr (Or.inl ⟨rfl, ha'⟩)
      · exact (ih ha' hb').imp Or.inr Or.inr

end Above

/-- Who has signed, whom everybody has yet to visit, and who knows whom. -/
structure Roster (α : Type) where
  signed : List α
  todo : α → α → Prop
  knows : α → α → Prop

namespace Roster

variable {r r' : Roster α} {a b : α}

/-- INVARIANT: of two entries the lower one has yet to visit the upper one, or they know each other. -/
structure Linked (r : Roster α) : Prop where
  nodup : r.signed.Nodup
  pairs : ∀ a b, Above r.signed a b → r.todo b a ∨ (r.knows a b ∧ r.knows b a)

/-- What may happen to those who have signed: some leave, a visit ends with two that know each other, and
    nobody forgets. -/
structure Goes (r r' : Roster α) : Prop where
  signed : r'.signed.Sublist r.signed
  visits : ∀ a b, a ∈ r'.signed → b ∈ r'.signed → a ≠ b → r.todo b a →
    r'.todo b a ∨ (r'.knows a b ∧ r'.knows b a)
  knows : ∀ a b, a ∈ r'.signed → b ∈ r'.signed → r.knows a b → r'.knows a b

theorem Linked.goes (h : r.Linked) (hg : Goes r r') : r'.Linked where
  nodup := h.nodup.sublist hg.signed
  pairs a b hab := by
    have ha := hab.left_mem
    have hb := hab.right_mem
    rcases h.pairs a b (hab.trans hg.signed) with htodo | ⟨hk, hk'⟩
    · exact hg.visits a b ha hb (hab.ne (h.nodup.sublist hg.signed)) htodo
    · exact Or.inr ⟨hg.knows a b ha hb hk, hg.knows b a hb ha hk'⟩

theorem Linked.signs (h : r.Linked) {c : α} (hc : c ∉ r.signed) (hsigned : r'.signed = r.signed ++ [c])
    (htodo : ∀ a ∈ r.signed, r'.todo c a) (hvisits : ∀ a b, b ∈ r.signed → r.todo b a → r'.todo b a)
    (hknows : ∀ a b, a ∈ r.signed → b ∈ r.signed → r.knows a b → r'.knows a b) : r'.Linked where
  nodup := by
    rw [hsigned]
    exact h.nodup.append (List.nodup_singleton c) (by simpa using hc)
  pairs a b hab := by
    rw [hsigned, Above.append_iff] at hab
    rcases hab with hab | ⟨ha, rfl⟩
    · have ha := hab.left_mem
      have hb := hab.right_mem
      exact (h.pairs a b hab).imp (hvisits a b hb) fun hk => ⟨hknows a b ha hb hk.1, hknows b a hb ha hk.2⟩
    · exact Or.inl (htodo a ha)

/-- VERDICT: two that have no visit to one another left know each other. -/
theorem Linked.acquainted (h : r.Linked) (ha : a ∈ r.signed) (hb : b ∈ r.signed) (hne : a ≠ b)
    (hab : ¬ r.todo a b) (hba : ¬ r.todo b a) : r.knows a b := by
  rcases Above.total ha hb hne with hup | hup
  · exact ((h.pairs a b hup).resolve_left hba).1
  · exact ((h.pairs b a hup).resolve_left hab).2

end Roster

/-- PROGRESS: if whoever is busy has signed, and waits only for somebody above, then somebody who is busy waits
    for nobody who is. -/
theorem exists_unblocked {signed : List α} (hnd : signed.Nodup) {busy : α → Prop} {waits : α → α → Prop}
    (hwaits : ∀ a b, busy b → waits b a → Above signed a b) {b : α} (hb : b ∈ signed) (hbusy : busy b) :
    ∃ c, busy c ∧ ∀ a, waits c a → ¬ busy a := by
  -- the first busy entry: what is above it is not busy
  classical
  obtain ⟨c, hc⟩ : ∃ c, signed.find? (fun x => decide (busy x)) = some c := by
    rw [← Option.isSome_iff_exists, List.find?_isSome]
    exact ⟨b, hb, decide_eq_true hbusy⟩
  obtain ⟨hbusyc, before, after, rfl, hbefore⟩ := List.find?_eq_some_iff_append.mp hc
  have hbusyc' : busy c := of_decide_eq_true hbusyc
  refine ⟨c, hbusyc', fun a hw ha => ?_⟩
  have hmem : a ∈ before := (hwaits a c hbusyc' hw).mem_before hnd
  have hidle := hbefore a hmem
  simp [ha] at hidle

end Schemes
