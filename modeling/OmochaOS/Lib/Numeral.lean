import Mathlib.Data.Nat.Digits.Lemmas

/-!
# Numerals in a base

The numeral of a number has its most significant digit first and no leading zeros, except that the numeral
of zero is the digit zero.  `lowFirst` gives its digits in the order in which divisions yield them.
-/

namespace Numeral

variable {base v w : ℕ} {ds : List ℕ}

/-- The digits, the least significant first, with one digit for zero. -/
def lowFirst (base v : ℕ) : List ℕ := if v = 0 then [0] else Nat.digits base v

/-- The digits, the most significant first. -/
def digits (base v : ℕ) : List ℕ := (lowFirst base v).reverse

/-- The number that the digits stand for, the most significant first. -/
def value (base : ℕ) (ds : List ℕ) : ℕ := Nat.ofDigits base ds.reverse

/-- Digits of the base, without leading zeros. -/
structure IsNumeral (base v : ℕ) (ds : List ℕ) : Prop where
  ne_nil : ds ≠ []
  lt_base : ∀ d ∈ ds, d < base
  leading : ds.head? = some 0 → ds = [0]
  value_eq : value base ds = v

/-- One division gives one digit, and the loop ends when the quotient is zero. -/
theorem lowFirst_eq (hbase : 2 ≤ base) :
    lowFirst base v = v % base :: if v / base = 0 then [] else lowFirst base (v / base) := by
  have hpos : 0 < base := Nat.lt_of_lt_of_le Nat.zero_lt_two hbase
  by_cases hv : v = 0
  · rw [hv, Nat.zero_div, Nat.zero_mod, if_pos rfl]
    rfl
  · rw [lowFirst, if_neg hv, Nat.digits_eq_cons_digits_div hbase hv]
    by_cases hq : v / base = 0
    · rw [hq, Nat.digits_zero, if_pos rfl]
    · rw [lowFirst, if_neg hq, if_neg hq]

/-- Digits are read from left to right. -/
theorem value_append_singleton (ds : List ℕ) (d : ℕ) :
    value base (ds ++ [d]) = value base ds * base + d := by
  rw [value, List.reverse_append, List.reverse_singleton, List.singleton_append, Nat.ofDigits_cons, value,
    Nat.mul_comm, Nat.add_comm]

theorem isNumeral_zero (hbase : 2 ≤ base) : IsNumeral base 0 [0] := by
  refine ⟨List.cons_ne_nil _ _, fun d hd => ?_, fun _ => rfl, ?_⟩
  · rw [List.mem_singleton.mp hd]
    exact Nat.lt_of_lt_of_le Nat.zero_lt_two hbase
  · rw [value, List.reverse_singleton, Nat.ofDigits_singleton]

theorem isNumeral_digits (hbase : 2 ≤ base) : IsNumeral base v (digits base v) := by
  by_cases hv : v = 0
  · rw [hv]
    exact isNumeral_zero hbase
  · have hne : Nat.digits base v ≠ [] := Nat.digits_ne_nil_iff_ne_zero.mpr hv
    have hlow : lowFirst base v = Nat.digits base v := if_neg hv
    rw [digits, hlow]
    refine ⟨fun h => hne (List.reverse_eq_nil_iff.mp h), fun d hd => ?_, fun h => ?_, ?_⟩
    · exact Nat.digits_lt_base hbase (List.mem_reverse.mp hd)
    · -- the first digit is not zero
      rw [List.head?_reverse, List.getLast?_eq_some_getLast hne] at h
      exact absurd (Option.some.inj h) (Nat.getLast_digit_ne_zero base hv)
    · rw [value, List.reverse_reverse, Nat.ofDigits_digits]

theorem digits_length_le {k : ℕ} (hbase : 2 ≤ base) (hk : 0 < k) (hv : v < base ^ k) :
    (digits base v).length ≤ k := by
  rw [digits, List.length_reverse, lowFirst]
  split
  · exact hk
  · exact (Nat.digits_length_le_iff hbase v).mpr hv

end Numeral
