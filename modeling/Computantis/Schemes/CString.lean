import Mathlib.Data.List.TakeWhile
import Mathlib.Tactic.Common

/-! @scheme cstring | name:Strings that end at a zero byte | family:encoding

    A pointer to characters is the memory behind it. Its string ends before the first zero byte, and the
    bounded calls of the library look at `n` bytes at most. A bounded copy fills up with zeros, a bounded
    comparison that has met a zero in both strings finds them equal whatever follows. -/

namespace Schemes.CString

/-- The string at a pointer. -/
def contents (mem : List UInt8) : List UInt8 := mem.takeWhile (· ≠ 0)

def strlen (mem : List UInt8) : ℕ := (contents mem).length

/-- The `n` bytes that `strncpy` writes. -/
def strncpy (mem : List UInt8) (n : ℕ) : List UInt8 :=
  (contents mem).take n ++ List.replicate (n - strlen mem) 0

/-- `strncmp(a, b, n) == 0`. -/
def strncmpEq : (n : ℕ) → (a b : List UInt8) → Bool
  | 0, _, _ => true
  | n + 1, a, b =>
    let x := a.headD 0
    let y := b.headD 0
    if x ≠ y then false else if x = 0 then true else strncmpEq n a.tail b.tail

/-- Nothing but zeros stands behind the first zero byte. -/
def ZerosLast (mem : List UInt8) : Prop := ∀ x ∈ mem.dropWhile (· ≠ 0), x = 0

instance (mem : List UInt8) : Decidable (ZerosLast mem) := inferInstanceAs (Decidable (∀ x ∈ _, x = 0))

theorem contents_of_zero_free {mem : List UInt8} (h : 0 ∉ mem) : contents mem = mem := by
  rw [contents, List.takeWhile_eq_self_iff]
  intro x hx
  rw [decide_eq_true_eq]
  rintro rfl
  exact h hx

theorem contents_terminated {mem : List UInt8} (h : 0 ∉ mem) (rest : List UInt8) :
    contents (mem ++ 0 :: rest) = mem := by
  rw [contents, List.takeWhile_append_of_pos, List.takeWhile_cons_of_neg (by simp), List.append_nil]
  intro c hc
  rw [decide_eq_true_eq]
  rintro rfl
  exact h hc

theorem strlen_le (mem : List UInt8) : strlen mem ≤ mem.length := (List.takeWhile_prefix _).length_le

@[simp] theorem strncpy_length (mem : List UInt8) (n : ℕ) : (strncpy mem n).length = n := by
  simp only [strncpy, List.length_append, List.length_take, List.length_replicate, strlen]
  omega

theorem strncpy_strlen (mem : List UInt8) : strncpy mem (strlen mem) = contents mem := by
  rw [strncpy, strlen, List.take_length, Nat.sub_self, List.replicate_zero, List.append_nil]

theorem strncpy_zero_cons (mem : List UInt8) (n : ℕ) : strncpy (0 :: mem) n = List.replicate n 0 := by
  simp [strncpy, strlen, contents]

theorem strncpy_eq_self_iff (mem : List UInt8) : strncpy mem mem.length = mem ↔ ZerosLast mem := by
  have hsplit : contents mem ++ mem.dropWhile (· ≠ 0) = mem := List.takeWhile_append_dropWhile
  have hlen : mem.length - strlen mem = (mem.dropWhile (· ≠ 0)).length := by
    have := congrArg List.length hsplit
    rw [List.length_append] at this
    rw [strlen]
    omega
  rw [strncpy, List.take_of_length_le (strlen_le mem), hlen, ZerosLast]
  constructor
  · intro h x hx
    have hrest := List.append_cancel_left (h.trans hsplit.symm)
    rw [← hrest] at hx
    exact List.eq_of_mem_replicate hx
  · intro h
    rw [← List.eq_replicate_of_mem h, hsplit]

theorem strncmpEq_self (n : ℕ) (a : List UInt8) : strncmpEq n a a = true := by
  induction n generalizing a with
  | zero => rfl
  | succ n ih => simp [strncmpEq, ih]

end Schemes.CString
