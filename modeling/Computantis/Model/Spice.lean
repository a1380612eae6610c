import Mathlib.Data.List.Basic
import Mathlib.Tactic.Common
import Mathlib.Tactic.Ring

/-! @model spice | name:Melange arithmetic | family:numeric | source:src/spice/spice.go

    An amount of spice is two machine words: whole `currency` and `supplementaryCurrency`, of which
    `maxAmountPerSupplementaryCurrency` make one whole. `supply` adds, `transfer` moves from one cell
    to another; both return the cells as the pointers hold them at the return, with the error.

    Exactness: on normalised words whose totals fit, the word arithmetic is addition and subtraction
    of `value`, the amount as one natural number. -/

namespace Computantis

/-- Number of supplementary units in one unit of currency. -/
def maxAmountPerSupplementaryCurrency : UInt64 := 1000000000000000000

def maxUint64 : UInt64 := 18446744073709551615

/-- Subtraction of machine words as the sum with the complement; the core definition adds the two
    the other way round, and the kernel would count a constant `a` down to zero. -/
def sub64 (a b : UInt64) : UInt64 := UInt64.ofNat (a.toNat + (2 ^ 64 - b.toNat))

theorem sub64_eq (a b : UInt64) : sub64 a b = a - b := by
  rw [← UInt64.toNat_inj, UInt64.toNat_sub, sub64, UInt64.toNat_ofNat', Nat.add_comm]

inductive SpiceError where | valueOverflow | noSufficientFounds
  deriving DecidableEq, Repr

/-- An asset that is digitally transferable between two wallets. -/
structure Melange where
  currency : UInt64
  supplementaryCurrency : UInt64
  deriving DecidableEq, Repr

namespace Melange

/-- `spice.New`: one carry, whatever the size of the supplementary part. -/
def new (currency supplementaryCurrency : UInt64) : Melange :=
  if supplementaryCurrency ≥ maxAmountPerSupplementaryCurrency then
    ⟨currency + 1, supplementaryCurrency - maxAmountPerSupplementaryCurrency⟩
  else ⟨currency, supplementaryCurrency⟩

def zero : Melange := new 0 0

def empty (m : Melange) : Bool := m.currency == 0 && m.supplementaryCurrency == 0

/-- The carry that ends `Supply` and both branches of `Transfer`. -/
def carry (m : Melange) : Melange :=
  if m.supplementaryCurrency ≥ maxAmountPerSupplementaryCurrency then
    ⟨m.currency + 1, m.supplementaryCurrency - maxAmountPerSupplementaryCurrency⟩
  else m

/-- `Supply`: the cell after the call and the error, if any. -/
def supply (m amount : Melange) : Melange × Option SpiceError :=
  let mCp := m
  if sub64 maxUint64 amount.currency < m.currency then (m, some .valueOverflow)
  else
    let m := { m with currency := m.currency + amount.currency }
    if sub64 maxAmountPerSupplementaryCurrency amount.supplementaryCurrency < m.supplementaryCurrency ∧
        m.currency = maxUint64 then
      (mCp, some .valueOverflow)
    else
      (carry { m with supplementaryCurrency := m.supplementaryCurrency + amount.supplementaryCurrency },
        none)

/-- What `Transfer` leaves in its two cells, with the error, if any. -/
structure Transferred where
  src : Melange
  dst : Melange
  err : Option SpiceError
  deriving DecidableEq, Repr

/-- `Transfer(amount, from, to)` on distinct cells. -/
def transfer (amount src dst : Melange) : Transferred :=
  let toCp := dst
  let fromCp := src
  if amount.currency > src.currency then ⟨src, dst, some .noSufficientFounds⟩
  else if sub64 maxUint64 amount.currency < dst.currency then ⟨src, dst, some .valueOverflow⟩
  else
    let dst := { dst with currency := dst.currency + amount.currency }
    let src := { src with currency := src.currency - amount.currency }
    if sub64 maxAmountPerSupplementaryCurrency amount.supplementaryCurrency < dst.supplementaryCurrency ∧
        dst.currency = maxUint64 then
      ⟨fromCp, toCp, some .valueOverflow⟩
    else
      let dst' := carry
        { dst with supplementaryCurrency := dst.supplementaryCurrency + amount.supplementaryCurrency }
      if amount.supplementaryCurrency > src.supplementaryCurrency then
        if src.currency = 0 then ⟨fromCp, toCp, some .noSufficientFounds⟩
        else
          -- borrow one unit of currency
          ⟨⟨src.currency - 1, maxAmountPerSupplementaryCurrency + src.supplementaryCurrency -
              amount.supplementaryCurrency⟩, dst', none⟩
      else
        ⟨{ src with supplementaryCurrency := src.supplementaryCurrency - amount.supplementaryCurrency },
          dst', none⟩

/-- `m.Drain(amount, sink)`. -/
def drain (m amount sink : Melange) : Transferred := transfer amount m sink

/-! ### Exact values -/

/-- The amount in supplementary units. -/
def value (m : Melange) : ℕ := m.currency.toNat * 10 ^ 18 + m.supplementaryCurrency.toNat

/-- Normal form: the supplementary part is less than one unit of currency. -/
def Norm (m : Melange) : Prop := m.supplementaryCurrency.toNat < 10 ^ 18

instance (m : Melange) : Decidable m.Norm := inferInstanceAs (Decidable (_ < _))

/-- The first amount that no longer fits in a cell. -/
def cap : ℕ := 2 ^ 64 * 10 ^ 18

theorem norm_zero : zero.Norm := by decide

@[simp] theorem value_zero : zero.value = 0 := by decide

theorem toNat_maxAmount : maxAmountPerSupplementaryCurrency.toNat = 10 ^ 18 := by decide

theorem toNat_maxUint64 : maxUint64.toNat = 2 ^ 64 - 1 := by decide

variable {a m src : Melange} {currency supplementaryCurrency : UInt64}

theorem value_lt_cap (h : m.Norm) : m.value < cap := by
  have := m.currency.toNat_lt
  simp only [value, cap, Norm] at *
  omega

theorem empty_iff : m.empty = true ↔ m.value = 0 := by
  simp only [empty, Bool.and_eq_true, beq_iff_eq, value, ← UInt64.toNat_inj]
  simp

theorem carry_norm_iff : (carry m).Norm ↔ m.supplementaryCurrency.toNat < 2 * 10 ^ 18 := by
  have hs := m.supplementaryCurrency.toNat_lt
  have h0 := toNat_maxAmount
  unfold carry
  split
  next hge =>
    rw [ge_iff_le, UInt64.le_iff_toNat_le] at hge
    simp only [Norm, UInt64.toNat_sub] at *
    omega
  next hlt =>
    rw [ge_iff_le, UInt64.le_iff_toNat_le] at hlt
    unfold Norm
    omega

theorem carry_value (hfit : m.value < cap) : (carry m).value = m.value := by
  have hc := m.currency.toNat_lt
  have hs := m.supplementaryCurrency.toNat_lt
  have h0 := toNat_maxAmount
  unfold carry
  split
  next hge =>
    rw [ge_iff_le, UInt64.le_iff_toNat_le] at hge
    simp only [value, cap, UInt64.toNat_add, UInt64.toNat_sub, UInt64.toNat_one] at *
    omega
  next => rfl

theorem new_norm_iff : (new currency supplementaryCurrency).Norm ↔ supplementaryCurrency.toNat < 2 * 10 ^ 18 :=
  carry_norm_iff (m := ⟨currency, supplementaryCurrency⟩)

theorem new_value (hfit : currency.toNat * 10 ^ 18 + supplementaryCurrency.toNat < cap) :
    (new currency supplementaryCurrency).value = currency.toNat * 10 ^ 18 + supplementaryCurrency.toNat :=
  carry_value (m := ⟨currency, supplementaryCurrency⟩) hfit

/-- The two overflow tests in front of an addition let it through. -/
def Passes (m a : Melange) : Prop :=
  ¬ sub64 maxUint64 a.currency < m.currency ∧
    ¬ (sub64 maxAmountPerSupplementaryCurrency a.supplementaryCurrency < m.supplementaryCurrency ∧
      m.currency + a.currency = maxUint64)

instance (m a : Melange) : Decidable (Passes m a) := inferInstanceAs (Decidable (_ ∧ _))

/-- What an addition that passes leaves in the cell. -/
def added (m a : Melange) : Melange :=
  carry ⟨m.currency + a.currency, m.supplementaryCurrency + a.supplementaryCurrency⟩

/-- The sum is the first amount too large, and its last unit is made up of supplementary parts. -/
def Rounds (m a : Melange) : Prop := m.value + a.value = cap ∧ m.supplementaryCurrency ≠ 0

instance (m a : Melange) : Decidable (Rounds m a) := inferInstanceAs (Decidable (_ ∧ _))

section Adding

variable {m a : Melange}

theorem passes_iff (hm : m.Norm) (ha : a.Norm) : Passes m a ↔ m.value + a.value < cap ∨ Rounds m a := by
  have h1 := toNat_maxUint64
  have h0 := toNat_maxAmount
  have hmc := m.currency.toNat_lt
  have hac := a.currency.toNat_lt
  simp only [Passes, Rounds, sub64_eq, UInt64.lt_iff_toNat_lt, UInt64.toNat_sub, ← UInt64.toNat_inj,
    UInt64.toNat_add, UInt64.toNat_zero, ne_eq, Norm, value, cap] at *
  omega

theorem added_norm (hm : m.Norm) (ha : a.Norm) : (added m a).Norm := by
  refine carry_norm_iff.mpr ?_
  simp only [Norm, UInt64.toNat_add] at *
  omega

theorem added_fits (hm : m.Norm) (ha : a.Norm) (hfit : m.value + a.value < cap) :
    (added m a).Norm ∧ (added m a).value = m.value + a.value := by
  have hmc := m.currency.toNat_lt
  have hac := a.currency.toNat_lt
  have hsum : value ⟨m.currency + a.currency, m.supplementaryCurrency + a.supplementaryCurrency⟩ =
      m.value + a.value := by
    simp only [Norm, value, cap, UInt64.toNat_add] at *
    omega
  exact ⟨added_norm hm ha, (carry_value (hsum.trans_lt hfit)).trans hsum⟩

end Adding

theorem supply_cases (m a : Melange) :
    (Passes m a ∧ supply m a = (added m a, none)) ∨
      (¬ Passes m a ∧ supply m a = (m, some .valueOverflow)) := by
  simp only [supply, Passes, added]
  split
  next hcur => exact .inr ⟨fun h => h.1 hcur, rfl⟩
  next hcur =>
    split
    next hsup => exact .inr ⟨fun h => h.2 hsup, rfl⟩
    next hsup => exact .inl ⟨⟨hcur, hsup⟩, rfl⟩

theorem supply_exact (hm : m.Norm) (ha : a.Norm) (hfit : m.value + a.value < cap) :
    ∃ m', supply m a = (m', none) ∧ m'.Norm ∧ m'.value = m.value + a.value := by
  have hpass : Passes m a := (passes_iff hm ha).mpr (.inl hfit)
  rcases supply_cases m a with ⟨-, heq⟩ | ⟨hno, -⟩
  · exact ⟨added m a, heq, added_fits hm ha hfit⟩
  · exact absurd hpass hno

theorem supply_norm (hm : m.Norm) (ha : a.Norm) : (supply m a).1.Norm := by
  rcases supply_cases m a with ⟨-, heq⟩ | ⟨-, heq⟩
  · rw [heq]
    exact added_norm hm ha
  · rw [heq]
    exact hm

/-- The two tests of the cell that gives: they find the amount covered. -/
def Covers (src a : Melange) : Prop :=
  ¬ a.currency > src.currency ∧
    ¬ (a.supplementaryCurrency > src.supplementaryCurrency ∧ src.currency - a.currency = 0)

instance (src a : Melange) : Decidable (Covers src a) := inferInstanceAs (Decidable (_ ∧ _))

/-- What a transfer leaves in the cell that gives. -/
def taken (src a : Melange) : Melange :=
  if a.supplementaryCurrency > src.supplementaryCurrency then
    ⟨src.currency - a.currency - 1, maxAmountPerSupplementaryCurrency + src.supplementaryCurrency -
      a.supplementaryCurrency⟩
  else ⟨src.currency - a.currency, src.supplementaryCurrency - a.supplementaryCurrency⟩

theorem covers_iff (hs : src.Norm) (ha : a.Norm) : Covers src a ↔ a.value ≤ src.value := by
  have hsc := src.currency.toNat_lt
  have hac := a.currency.toNat_lt
  simp only [Covers, gt_iff_lt, UInt64.lt_iff_toNat_lt, ← UInt64.toNat_inj, UInt64.toNat_sub,
    UInt64.toNat_zero, Norm, value] at *
  omega

theorem taken_exact (hs : src.Norm) (ha : a.Norm) (hle : a.value ≤ src.value) :
    (taken src a).Norm ∧ (taken src a).value = src.value - a.value := by
  have h0 := toNat_maxAmount
  have hsc := src.currency.toNat_lt
  have hac := a.currency.toNat_lt
  unfold taken
  split
  next hborrow =>
    rw [gt_iff_lt, UInt64.lt_iff_toNat_lt] at hborrow
    simp only [Norm, value, UInt64.toNat_sub, UInt64.toNat_add, UInt64.toNat_one] at *
    omega
  next hborrow =>
    rw [gt_iff_lt, UInt64.lt_iff_toNat_lt] at hborrow
    simp only [Norm, value, UInt64.toNat_sub] at *
    omega

theorem transfer_cases (a src dst : Melange) :
    (Covers src a ∧ Passes dst a ∧ transfer a src dst = ⟨taken src a, added dst a, none⟩) ∨
      (¬ (Covers src a ∧ Passes dst a) ∧ ∃ e, transfer a src dst = ⟨src, dst, some e⟩ ∧
        (Passes dst a → e = .noSufficientFounds)) := by
  simp only [transfer, Covers, Passes, taken, added]
  split
  next hcur => exact .inr ⟨fun h => h.1.1 hcur, _, rfl, fun _ => rfl⟩
  next hcur =>
    split
    next hover => exact .inr ⟨fun h => h.2.1 hover, _, rfl, fun hp => absurd hover hp.1⟩
    next hover =>
      split
      next hsup => exact .inr ⟨fun h => h.2.2 hsup, _, rfl, fun hp => absurd hsup hp.2⟩
      next hsup =>
        split
        next hborrow =>
          split
          next hzero => exact .inr ⟨fun h => h.1.2 ⟨hborrow, hzero⟩, _, rfl, fun _ => rfl⟩
          next hzero => exact .inl ⟨⟨hcur, fun h => hzero h.2⟩, ⟨hover, hsup⟩, rfl⟩
        next hborrow => exact .inl ⟨⟨hcur, fun h => hborrow h.1⟩, ⟨hover, hsup⟩, rfl⟩

theorem transfer_norm {dst : Melange} (ha : a.Norm) (hs : src.Norm) (hd : dst.Norm) :
    (transfer a src dst).src.Norm ∧ (transfer a src dst).dst.Norm := by
  rcases transfer_cases a src dst with ⟨hcovers, -, heq⟩ | ⟨-, e, heq, -⟩
  · rw [heq]
    exact ⟨(taken_exact hs ha ((covers_iff hs ha).mp hcovers)).1, added_norm hd ha⟩
  · rw [heq]
    exact ⟨hs, hd⟩

theorem passes_zero (ha : a.Norm) : Passes zero a := by
  rw [passes_iff norm_zero ha, value_zero, Nat.zero_add]
  exact .inl (value_lt_cap ha)

theorem drain_exact (hm : m.Norm) (ha : a.Norm) (hle : a.value ≤ m.value) :
    (drain m a zero).err = none ∧ (drain m a zero).src.Norm ∧
      (drain m a zero).src.value = m.value - a.value := by
  rcases transfer_cases a m zero with ⟨-, -, heq⟩ | ⟨hno, -⟩
  · rw [drain, heq]
    exact ⟨rfl, taken_exact hm ha hle⟩
  · exact absurd ⟨(covers_iff hm ha).mpr hle, passes_zero ha⟩ hno

theorem drain_refused (hm : m.Norm) (ha : a.Norm) (hlt : m.value < a.value) :
    (drain m a zero).err = some .noSufficientFounds ∧ (drain m a zero).src = m := by
  rcases transfer_cases a m zero with ⟨hc, -, -⟩ | ⟨-, e, heq, he⟩
  · exact absurd ((covers_iff hm ha).mp hc) (by omega)
  · rw [drain, heq, he (passes_zero ha)]
    exact ⟨rfl, rfl⟩

/-- VERDICT: draining into an empty sink decides whether the cell covers the amount. -/
theorem drain_err_iff (hm : m.Norm) (ha : a.Norm) : (drain m a zero).err = none ↔ a.value ≤ m.value := by
  rcases Nat.lt_or_ge m.value a.value with h | h
  · rw [(drain_refused hm ha h).1]; simpa using h
  · simp [(drain_exact hm ha h).1, h]

theorem eq_of_value {m' : Melange} (hm : m.Norm) (hm' : m'.Norm) (h : m.value = m'.value) : m = m' := by
  simp only [Norm, value] at hm hm' h
  have hcur : m.currency = m'.currency := by
    rw [← UInt64.toNat_inj]
    omega
  have hsup : m.supplementaryCurrency = m'.supplementaryCurrency := by
    rw [← UInt64.toNat_inj]
    omega
  cases m
  cases m'
  simp_all

theorem exists_value {n : ℕ} (h : n < cap) : ∃ m : Melange, m.Norm ∧ m.value = n := by
  refine ⟨⟨UInt64.ofNat (n / 10 ^ 18), UInt64.ofNat (n % 10 ^ 18)⟩, ?_, ?_⟩ <;>
    simp only [Norm, value, cap, UInt64.toNat_ofNat'] at * <;> omega

/-! ### Chains of supplies -/

/-- The cell after one supply after the other, with their errors dropped. -/
def supplied (m : Melange) (rs : List Melange) : Melange := rs.foldl (fun m r => (m.supply r).1) m

def total (rs : List Melange) : ℕ := (rs.map value).sum

@[simp] theorem total_cons (r : Melange) (rs : List Melange) : total (r :: rs) = r.value + total rs := by
  simp [total]

theorem total_append (rs rs' : List Melange) : total (rs ++ rs') = total rs + total rs' := by
  simp [total]

theorem supplied_append (m : Melange) (rs rs' : List Melange) :
    m.supplied (rs ++ rs') = (m.supplied rs).supplied rs' := List.foldl_append

/-- RUN: what is in normal form and fits altogether is added exactly. -/
theorem supplied_exact (rs : List Melange) : ∀ {m : Melange}, m.Norm → (∀ r ∈ rs, r.Norm) →
    m.value + total rs < cap → (m.supplied rs).Norm ∧ (m.supplied rs).value = m.value + total rs := by
  induction rs with
  | nil => exact fun hm _ _ => ⟨hm, by simp [supplied, total]⟩
  | cons r rs ih =>
    intro m hm hrs hfit
    rw [total_cons] at hfit ⊢
    obtain ⟨m', hsupply, hn, hv⟩ := supply_exact hm (hrs r (List.mem_cons_self ..)) (by omega)
    have hchain : m.supplied (r :: rs) = m'.supplied rs := by
      rw [supplied, List.foldl_cons, hsupply]
      rfl
    rw [hchain, ← Nat.add_assoc, ← hv]
    exact ih hn (fun x hx => hrs x (List.mem_cons_of_mem _ hx)) (by omega)

/-! ### Cells that are not in normal form -/

section Wide

variable {m a : Melange} {rs : List Melange}

/-- The supplementary parts do not fit in one word together. -/
def Wraps (m a : Melange) : Prop := 2 ^ 64 ≤ m.supplementaryCurrency.toNat + a.supplementaryCurrency.toNat

instance (m a : Melange) : Decidable (Wraps m a) := inferInstanceAs (Decidable (_ ≤ _))

/-- The word of the supplementary part has room for that of any amount in normal form. -/
def Roomy (m : Melange) : Prop := m.supplementaryCurrency.toNat + 10 ^ 18 ≤ 2 ^ 64

theorem Norm.roomy (h : m.Norm) : m.Roomy := by
  unfold Norm at h
  unfold Roomy
  omega

theorem Roomy.not_wraps (h : m.Roomy) (ha : a.Norm) : ¬ Wraps m a := by
  unfold Roomy at h
  unfold Norm at ha
  unfold Wraps
  omega

theorem passes_of_fits (ha : a.Norm) (hfit : m.value + a.value < cap) : Passes m a := by
  have h1 := toNat_maxUint64
  have h0 := toNat_maxAmount
  have hmc := m.currency.toNat_lt
  have hac := a.currency.toNat_lt
  simp only [Passes, sub64_eq, UInt64.lt_iff_toNat_lt, UInt64.toNat_sub, ← UInt64.toNat_inj, UInt64.toNat_add,
    Norm, value, cap] at *
  omega

theorem added_of_not_wraps (ha : a.Norm) (hfit : m.value + a.value < cap) (hw : ¬ Wraps m a) :
    (added m a).Roomy ∧ (added m a).value = m.value + a.value ∧ (added m a).currency.toNat =
      m.currency.toNat + a.currency.toNat +
        min 1 ((m.supplementaryCurrency.toNat + a.supplementaryCurrency.toNat) / 10 ^ 18) := by
  have h0 := toNat_maxAmount
  have hmc := m.currency.toNat_lt
  have hac := a.currency.toNat_lt
  simp only [added, carry]
  split
  next hge =>
    rw [ge_iff_le, UInt64.le_iff_toNat_le] at hge
    simp only [Roomy, Wraps, Norm, value, cap, UInt64.toNat_add, UInt64.toNat_sub, UInt64.toNat_one] at *
    omega
  next hlt =>
    rw [ge_iff_le, UInt64.le_iff_toNat_le] at hlt
    simp only [Roomy, Wraps, Norm, value, cap, UInt64.toNat_add] at *
    omega

theorem added_of_wraps (ha : a.Norm) (hfit : m.value + a.value < cap) (hw : Wraps m a) :
    (added m a).Norm ∧ (added m a).value + 2 ^ 64 = m.value + a.value := by
  have h0 := toNat_maxAmount
  have hmc := m.currency.toNat_lt
  have hms := m.supplementaryCurrency.toNat_lt
  have hac := a.currency.toNat_lt
  simp only [added, carry]
  split
  next hge =>
    rw [ge_iff_le, UInt64.le_iff_toNat_le] at hge
    simp only [Wraps, Norm, UInt64.toNat_add] at *
    omega
  next hlt =>
    simp only [Wraps, Norm, value, cap, UInt64.toNat_add] at *
    omega

theorem supply_of_fits (ha : a.Norm) (hfit : m.value + a.value < cap) : (supply m a).1 = added m a := by
  rcases supply_cases m a with ⟨-, heq⟩ | ⟨hno, -⟩
  · rw [heq]
  · exact absurd (passes_of_fits ha hfit) hno

theorem covers_iff_wide (ha : a.Norm) : Covers m a ↔ a.value ≤ m.value ∧ a.value / 10 ^ 18 ≤ m.currency.toNat := by
  have hmc := m.currency.toNat_lt
  have hac := a.currency.toNat_lt
  simp only [Covers, gt_iff_lt, UInt64.lt_iff_toNat_lt, ← UInt64.toNat_inj, UInt64.toNat_sub, UInt64.toNat_zero,
    Norm, value] at *
  omega

theorem taken_of_covers (ha : a.Norm) (hc : Covers m a) : (taken m a).value = m.value - a.value := by
  obtain ⟨hle, hwhole⟩ := (covers_iff_wide ha).mp hc
  have h0 := toNat_maxAmount
  have hmc := m.currency.toNat_lt
  have hms := m.supplementaryCurrency.toNat_lt
  have hac := a.currency.toNat_lt
  unfold taken
  split
  next hborrow =>
    rw [gt_iff_lt, UInt64.lt_iff_toNat_lt] at hborrow
    simp only [Norm, value, UInt64.toNat_sub, UInt64.toNat_add, UInt64.toNat_one] at *
    omega
  next hborrow =>
    rw [gt_iff_lt, UInt64.lt_iff_toNat_lt] at hborrow
    simp only [Norm, value, UInt64.toNat_sub] at *
    omega

theorem drain_value (ha : a.Norm) : (drain m a zero).src.value =
    if a.value ≤ m.value ∧ a.value / 10 ^ 18 ≤ m.currency.toNat then m.value - a.value else m.value := by
  rcases transfer_cases a m zero with ⟨hc, -, heq⟩ | ⟨hno, e, heq, -⟩
  · rw [drain, heq, if_pos ((covers_iff_wide ha).mp hc)]
    exact taken_of_covers ha hc
  · rw [drain, heq, if_neg fun hc => hno ⟨(covers_iff_wide ha).mpr hc, passes_zero ha⟩]

theorem Norm.currency_eq (h : m.Norm) : m.currency.toNat = m.value / 10 ^ 18 := by
  simp only [Norm, value] at *
  omega

/-- The whole units in a cell after a chain of supplies. A supply carries one unit at most, so a cell that is not
    in normal form need not get there. -/
def wholes (m : Melange) (rs : List Melange) : ℕ :=
  m.currency.toNat + (rs.map fun r => r.currency.toNat).sum +
    min rs.length ((m.supplementaryCurrency.toNat + (rs.map fun r => r.supplementaryCurrency.toNat).sum) / 10 ^ 18)

theorem parts_le (rs : List Melange) (h : ∀ r ∈ rs, r.Norm) :
    (rs.map fun r => r.supplementaryCurrency.toNat).sum ≤ rs.length * 10 ^ 18 := by
  induction rs with
  | nil => simp
  | cons r rs ih =>
    have hr : r.supplementaryCurrency.toNat < 10 ^ 18 := h r (List.mem_cons_self ..)
    have hrs := ih fun x hx => h x (List.mem_cons_of_mem _ hx)
    rw [List.map_cons, List.sum_cons, List.length_cons]
    omega

theorem wholes_added {r : Melange} (h : ∀ x ∈ r :: rs, x.Norm) (hfit : m.value + r.value < cap) (hw : ¬ Wraps m r) :
    wholes (added m r) rs = wholes m (r :: rs) := by
  have hr : r.supplementaryCurrency.toNat < 10 ^ 18 := h r (List.mem_cons_self ..)
  have hparts := parts_le rs fun x hx => h x (List.mem_cons_of_mem _ hx)
  obtain ⟨-, hvalue, hcurrency⟩ := added_of_not_wraps hr hfit hw
  simp only [wholes, List.map_cons, List.sum_cons, List.length_cons]
  simp only [value] at hvalue
  omega

/-- RUN: where the first supply does not wrap, a chain that fits is exact. -/
theorem supplied_fits (rs : List Melange) : ∀ {m : Melange}, (∀ r ∈ rs, r.Norm) → m.value + total rs < cap →
    (∀ r ∈ rs.head?, ¬ Wraps m r) →
    (m.supplied rs).value = m.value + total rs ∧ (m.supplied rs).currency.toNat = wholes m rs := by
  induction rs with
  | nil => exact fun _ _ _ => by simp [supplied, total, wholes]
  | cons r rs ih =>
    intro m hrs hfit hfirst
    have hr : r.Norm := hrs r (List.mem_cons_self ..)
    have hrest : ∀ x ∈ rs, x.Norm := fun x hx => hrs x (List.mem_cons_of_mem _ hx)
    have hw : ¬ Wraps m r := hfirst r rfl
    rw [total_cons] at hfit ⊢
    have hfits : m.value + r.value < cap := by omega
    obtain ⟨hroomy, hvalue, -⟩ := added_of_not_wraps hr hfits hw
    have hchain : m.supplied (r :: rs) = (added m r).supplied rs := by
      rw [supplied, List.foldl_cons, supply_of_fits hr hfits]
      rfl
    rw [hchain, ← wholes_added hrs hfits hw, ← Nat.add_assoc, ← hvalue]
    exact ih hrest (by omega) fun x hx => hroomy.not_wraps (hrest x (List.mem_of_mem_head? hx))

/-- RUN: where it wraps, a word full of supplementary currency is lost, and nothing else. -/
theorem supplied_wraps {r : Melange} (hrs : ∀ x ∈ r :: rs, x.Norm) (hfit : m.value + total (r :: rs) < cap)
    (hw : Wraps m r) :
    (m.supplied (r :: rs)).Norm ∧ (m.supplied (r :: rs)).value + 2 ^ 64 = m.value + total (r :: rs) := by
  have hr : r.Norm := hrs r (List.mem_cons_self ..)
  rw [total_cons] at hfit ⊢
  have hfits : m.value + r.value < cap := by omega
  obtain ⟨hnorm, hvalue⟩ := added_of_wraps hr hfits hw
  have hchain : m.supplied (r :: rs) = (added m r).supplied rs := by
    rw [supplied, List.foldl_cons, supply_of_fits hr hfits]
    rfl
  obtain ⟨hn, hv⟩ := supplied_exact rs hnorm (fun x hx => hrs x (List.mem_cons_of_mem _ hx)) (by omega)
  rw [hchain]
  exact ⟨hn, by omega⟩

theorem wholes_of_norm (hm : m.Norm) (hrs : ∀ r ∈ rs, r.Norm) (hfit : m.value + total rs < cap) :
    wholes m rs = (m.value + total rs) / 10 ^ 18 := by
  obtain ⟨hn, hv⟩ := supplied_exact rs hm hrs hfit
  obtain ⟨-, hc⟩ := supplied_fits rs hrs hfit fun r hr => hm.roomy.not_wraps (hrs r (List.mem_of_mem_head? hr))
  rw [← hc, hn.currency_eq, hv]

end Wide

-- from here on amounts are compared through the lemmas above, never by unfolding the words
attribute [irreducible] value cap supply transfer

end Melange

end Computantis
