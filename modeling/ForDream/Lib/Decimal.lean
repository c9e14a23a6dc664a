import Mathlib.Data.String.Basic
import Mathlib.Order.Lattice.Nat

/-!
# Padded decimal numerals

`padded width n` is the decimal numeral of `n`, filled up with zeros on the left to a
width.  Numerals of the same width are compared character by character as the numbers
they stand for.

Lists that start with parts of the same length are compared by these parts first, and by
what follows where the parts are equal.
-/

namespace Decimal

/-! ### Comparing lists part by part -/

/-- Lists with first parts of the same length are compared by these, and then by the
rest. -/
theorem append_lt_append_iff {α : Type*} [LinearOrder α] {xs ys us vs : List α}
    (h : xs.length = ys.length) :
  xs ++ us < ys ++ vs ↔ xs < ys ∨ (xs = ys ∧ us < vs)
  := by
  induction xs generalizing ys with
  | nil =>
    obtain rfl := List.length_eq_zero_iff.mp h.symm
    simp
  | cons x xs ih =>
    cases ys with
    | nil => cases h
    | cons y ys =>
      rw [List.cons_append, List.cons_append, List.cons_lt_cons_iff, List.cons_lt_cons_iff,
        ih (Nat.succ.inj h), List.cons.injEq]
      tauto

/-! ### Numerals -/

/-- The decimal numeral of a number, filled up with zeros to a width. -/
def padded (width n : ℕ) : List Char := (Nat.toDigits 10 n).leftpad width '0'

/-- The last digit of a numeral comes after the numeral of the tenth part. -/
theorem padded_succ (width n : ℕ) :
  padded (width + 2) n = padded (width + 1) (n / 10) ++ [Nat.digitChar (n % 10)]
  := by
  rw [padded, Nat.toDigits_eq_if (by decide)]
  split
  next hlt =>
    rw [padded, Nat.div_eq_of_lt hlt, Nat.mod_eq_of_lt hlt, Nat.toDigits_zero]
    simp [List.leftpad, List.replicate_succ']
  next => simp [padded, List.leftpad]

theorem padded_one {n : ℕ} (h : n < 10) :
  padded 1 n = [Nat.digitChar n]
  := by
  rw [padded, Nat.toDigits_of_lt_base h]
  rfl

/-- The tenth part of a number that fits fits one digit less. -/
theorem div_lt_pow {width n : ℕ} (h : n < 10 ^ (width + 2)) :
  n / 10 < 10 ^ (width + 1)
  := by
  rw [Nat.div_lt_iff_lt_mul (by decide), ← Nat.pow_succ]
  exact h

/-- The numeral of a number that fits has the width. -/
theorem length_padded {width n : ℕ} (h : n < 10 ^ (width + 1)) :
  (padded (width + 1) n).length = width + 1
  := by
  induction width generalizing n with
  | zero => rw [padded_one h, List.length_singleton]
  | succ width ih =>
    rw [padded_succ, List.length_append, ih (div_lt_pow h), List.length_singleton]

/-- Digits are compared as the numbers they stand for. -/
theorem digitChar_lt_iff {a b : ℕ} (ha : a < 10) (hb : b < 10) :
  Nat.digitChar a < Nat.digitChar b ↔ a < b
  := by
  have hall : ∀ a b : Fin 10, Nat.digitChar a < Nat.digitChar b ↔ (a : ℕ) < b := by
    decide
  apply hall ⟨a, ha⟩ ⟨b, hb⟩

/-- Different numbers have different digits. -/
theorem digitChar_inj {a b : ℕ} (ha : a < 10) (hb : b < 10) :
  Nat.digitChar a = Nat.digitChar b ↔ a = b
  := by
  have hall : ∀ a b : Fin 10, Nat.digitChar a = Nat.digitChar b ↔ (a : ℕ) = b := by
    decide
  apply hall ⟨a, ha⟩ ⟨b, hb⟩

/-- Different numbers that fit have different numerals. -/
theorem padded_inj {width a b : ℕ} (ha : a < 10 ^ (width + 1)) (hb : b < 10 ^ (width + 1)) :
  padded (width + 1) a = padded (width + 1) b ↔ a = b
  := by
  induction width generalizing a b with
  | zero =>
    rw [padded_one ha, padded_one hb, List.singleton_inj]
    apply digitChar_inj ha hb
  | succ width ih =>
    rw [padded_succ, padded_succ, List.append_singleton_inj, ih (div_lt_pow ha) (div_lt_pow hb),
      digitChar_inj (Nat.mod_lt _ (by decide)) (Nat.mod_lt _ (by decide))]
    omega

/-- Numerals of the same width are compared as the numbers they stand for. -/
theorem padded_lt_iff {width a b : ℕ} (ha : a < 10 ^ (width + 1)) (hb : b < 10 ^ (width + 1)) :
  padded (width + 1) a < padded (width + 1) b ↔ a < b
  := by
  induction width generalizing a b with
  | zero =>
    rw [padded_one ha, padded_one hb, List.cons_lt_cons_iff, digitChar_lt_iff ha hb]
    simp
  | succ width ih =>
    have hlength : (padded (width + 1) (a / 10)).length = (padded (width + 1) (b / 10)).length := by
      rw [length_padded (div_lt_pow ha), length_padded (div_lt_pow hb)]
    rw [padded_succ, padded_succ, append_lt_append_iff hlength, ih (div_lt_pow ha) (div_lt_pow hb),
      padded_inj (div_lt_pow ha) (div_lt_pow hb), List.cons_lt_cons_iff,
      digitChar_lt_iff (Nat.mod_lt _ (by decide)) (Nat.mod_lt _ (by decide))]
    simp only [List.not_lt_nil, and_false, or_false]
    omega

/-- A numeral consists of digits. -/
theorem isDigit_of_mem_padded {width n : ℕ} {c : Char} (h : c ∈ padded width n) :
  c.isDigit
  := by
  rw [padded, List.leftpad, List.mem_append] at h
  rcases h with h | h
  · rw [List.eq_of_mem_replicate h]
    rfl
  · apply Nat.isDigit_of_mem_toDigits (by decide) (by decide) h

end Decimal
