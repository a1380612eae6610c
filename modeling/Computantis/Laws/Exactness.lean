import Computantis.Model.Spice

/-! @law exactness | name:Supply and transfer to the last unit | family:numeric | about:Model/Spice

    Both calls guard the cell that receives with the same two tests: the whole units must fit in a word,
    and when they fill it the supplementary units must not reach one whole unit. The second test is
    strict, the carry behind it is not. So a sum that is exactly the first amount too large passes when
    its supplementary parts make up the last unit, and the carry turns the full word to zero.

        sum < cap      sum = cap, parts carry      sum = cap, no parts      sum > cap
        exact sum      accepted, cell is zero      refused                  refused -/

namespace Computantis.Melange

/-! ### Supply -/

/-- A supply is exact: nil exactly when the sum fits, then the sum, otherwise an overflow and no change. -/
structure SupplyExact (m a : Melange) : Prop where
  nil_iff : (supply m a).2 = none ↔ m.value + a.value < cap
  sum : (supply m a).2 = none → (supply m a).1.Norm ∧ (supply m a).1.value = m.value + a.value
  unchanged : (supply m a).2 ≠ none → supply m a = (m, some .valueOverflow)

/-- VERDICT: for normalised cells a supply is exact unless the sum rounds. -/
theorem supply_exact_iff {m a : Melange} (hm : m.Norm) (ha : a.Norm) :
    SupplyExact m a ↔ (m.value + a.value = cap → m.supplementaryCurrency = 0) := by
  constructor
  · intro h hsum
    by_contra hparts
    rcases supply_cases m a with ⟨-, heq⟩ | ⟨hno, -⟩
    · exact (h.nil_iff.mp (by rw [heq])).ne hsum
    · exact hno ((passes_iff hm ha).mpr (.inr ⟨hsum, hparts⟩))
  · intro h
    have hpass : Passes m a ↔ m.value + a.value < cap := by
      rw [passes_iff hm ha, or_iff_left]
      exact fun hr => hr.2 (h hr.1)
    rcases supply_cases m a with ⟨hp, heq⟩ | ⟨hno, heq⟩
    · have hfit := hpass.mp hp
      refine ⟨?_, ?_, ?_⟩ <;> rw [heq]
      · simp [hfit]
      · exact fun _ => added_fits hm ha hfit
      · exact fun hne => absurd rfl hne
    · have hover := mt hpass.mpr hno
      refine ⟨?_, ?_, ?_⟩ <;> rw [heq]
      · simpa using hover
      · exact fun hnil => by simp at hnil
      · exact fun _ => rfl

/-- The last unit of a full cell supplied in parts: the call succeeds and the cell is empty. -/
theorem full_cell_supplied_to_zero :
    supply ⟨18446744073709551615, 1⟩ ⟨0, 999999999999999999⟩ = (⟨0, 0⟩, none) ∧
      Norm ⟨18446744073709551615, 1⟩ ∧ Norm ⟨0, 999999999999999999⟩ ∧
      ¬ SupplyExact ⟨18446744073709551615, 1⟩ ⟨0, 999999999999999999⟩ := by
  have hrun : supply ⟨18446744073709551615, 1⟩ ⟨0, 999999999999999999⟩ = (⟨0, 0⟩, none) := by
    unfold supply
    decide
  refine ⟨hrun, by decide, by decide, ?_⟩
  intro h
  have hval := (h.sum (by rw [hrun])).2
  rw [hrun] at hval
  revert hval
  simp [value]

theorem supply_carries :
    Norm ⟨1, 999999999999999999⟩ ∧ Norm ⟨2, 2⟩ ∧ SupplyExact ⟨1, 999999999999999999⟩ ⟨2, 2⟩ :=
  ⟨by decide, by decide, (supply_exact_iff (by decide) (by decide)).mpr (by simp [value, cap])⟩

/-! ### Transfer -/

/-- A transfer is exact and atomic: nil exactly when the amount is covered and fits, then it moves
    exactly, otherwise there is an error and both cells are as before. -/
structure TransferExact (a src dst : Melange) (res : Transferred) : Prop where
  nil_iff : res.err = none ↔ a.value ≤ src.value ∧ dst.value + a.value < cap
  moved : res.err = none → res.src.Norm ∧ res.dst.Norm ∧ res.src.value = src.value - a.value ∧
    res.dst.value = dst.value + a.value
  unchanged : res.err ≠ none → res.src = src ∧ res.dst = dst

/-- VERDICT: for normalised cells a transfer, and so a drain, is exact and atomic unless the amount is
    covered and the sum at its receiver rounds. -/
theorem transfer_exact_iff {a src dst : Melange} (ha : a.Norm) (hs : src.Norm) (hd : dst.Norm) :
    (TransferExact a src dst (transfer a src dst) ∧ TransferExact a src dst (drain src a dst)) ↔
      (a.value ≤ src.value → dst.value + a.value = cap → dst.supplementaryCurrency = 0) := by
  rw [drain, and_self]
  constructor
  · intro h hle hsum
    by_contra hparts
    have hpass : Passes dst a := (passes_iff hd ha).mpr (.inr ⟨hsum, hparts⟩)
    rcases transfer_cases a src dst with ⟨-, -, heq⟩ | ⟨hno, -⟩
    · exact (h.nil_iff.mp (by rw [heq])).2.ne hsum
    · exact hno ⟨(covers_iff hs ha).mpr hle, hpass⟩
  · intro h
    rcases transfer_cases a src dst with ⟨hc, hp, heq⟩ | ⟨hno, e, heq, -⟩
    · have hle := (covers_iff hs ha).mp hc
      have hfit : dst.value + a.value < cap := by
        rcases (passes_iff hd ha).mp hp with hfit | hr
        · exact hfit
        · exact absurd (h hle hr.1) hr.2
      obtain ⟨hsn, hsv⟩ := taken_exact hs ha hle
      obtain ⟨hdn, hdv⟩ := added_fits hd ha hfit
      rw [heq]
      exact ⟨by simp [hle, hfit], fun _ => ⟨hsn, hdn, hsv, hdv⟩, fun hne => absurd rfl hne⟩
    · have hnot : ¬ (a.value ≤ src.value ∧ dst.value + a.value < cap) := by
        rintro ⟨hle, hfit⟩
        exact hno ⟨(covers_iff hs ha).mpr hle, (passes_iff hd ha).mpr (.inl hfit)⟩
      rw [heq]
      exact ⟨by simpa using hnot, fun hnil => by simp at hnil, fun _ => ⟨rfl, rfl⟩⟩

/-- A transfer of the last unit in parts into a full cell succeeds and empties it. -/
theorem full_cell_transferred_to_zero :
    transfer ⟨0, 999999999999999999⟩ ⟨1, 0⟩ ⟨18446744073709551615, 1⟩ = ⟨⟨0, 1⟩, ⟨0, 0⟩, none⟩ ∧
      Norm ⟨0, 999999999999999999⟩ ∧ Norm ⟨1, 0⟩ ∧ Norm ⟨18446744073709551615, 1⟩ ∧
      ¬ TransferExact ⟨0, 999999999999999999⟩ ⟨1, 0⟩ ⟨18446744073709551615, 1⟩
        (transfer ⟨0, 999999999999999999⟩ ⟨1, 0⟩ ⟨18446744073709551615, 1⟩) := by
  have hrun : transfer ⟨0, 999999999999999999⟩ ⟨1, 0⟩ ⟨18446744073709551615, 1⟩ =
      ⟨⟨0, 1⟩, ⟨0, 0⟩, none⟩ := by
    unfold transfer
    decide
  refine ⟨hrun, by decide, by decide, by decide, ?_⟩
  rw [hrun]
  intro h
  have hval := (h.moved rfl).2.2.2
  revert hval
  simp [value]

theorem transfer_borrows_and_carries :
    Norm ⟨100, 999999999999999990⟩ ∧ Norm ⟨200, 0⟩ ∧
      TransferExact ⟨100, 999999999999999990⟩ ⟨200, 0⟩ ⟨100, 999999999999999990⟩
        (transfer ⟨100, 999999999999999990⟩ ⟨200, 0⟩ ⟨100, 999999999999999990⟩) :=
  ⟨by decide, by decide,
    ((transfer_exact_iff (by decide) (by decide) (by decide)).mpr (by simp [value, cap])).1⟩

end Computantis.Melange
