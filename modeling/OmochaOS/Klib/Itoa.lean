import OmochaOS.Lib.ByteMemory
import OmochaOS.Lib.Numeral

/-!
# `itoa` (`lib/stdlib.c`)

`itoa` writes the digits from the last to the first and turns them round in place.

* `itoa_eq` — the numeral and the NUL behind it are all that it writes;
* `parse_numeral` — the numeral is read back.
-/

namespace OmochaOS.Klib

open ByteMemory

/-- The code of a character. -/
def charCode (c : Char) : UInt8 := UInt8.ofNat c.toNat

/-- The table of `itoa`, with the digits on both sides of the middle one. -/
def digitTable : List UInt8 :=
  ['Z', 'Y', 'X', 'W', 'V', 'U', 'T', 'S', 'R', 'Q', 'P', 'O', 'N', 'M', 'L', 'K', 'J', 'I', 'H', 'G', 'F',
    'E', 'D', 'C', 'B', 'A', '9', '8', '7', '6', '5', '4', '3', '2', '1', '0', '1', '2', '3', '4', '5', '6',
    '7', '8', '9', 'A', 'B', 'C', 'D', 'E', 'F', 'G', 'H', 'I', 'J', 'K', 'L', 'M', 'N', 'O', 'P', 'Q', 'R',
    'S', 'T', 'U', 'V', 'W', 'X', 'Y', 'Z'].map charCode

/-- The character of a digit. -/
def digitChar (d : ℕ) : UInt8 := digitTable.getD (35 + d) 0

variable {m : Memory} {str value base low ptr x a : ℕ} {l : List UInt8}

/-- `do { *ptr++ = table[35 + value % base]; value /= base; } while (value)`. -/
def itoaLoop (base : ℕ) (hbase : 2 ≤ base) (value ptr : ℕ) (m : Memory) : Memory × ℕ :=
  let m := Function.update m ptr (digitChar (value % base))
  if value / base = 0 then (m, ptr + 1) else itoaLoop base hbase (value / base) (ptr + 1) m
termination_by value
decreasing_by
  have hvalue : value ≠ 0 := by
    rintro rfl
    exact absurd (Nat.zero_div base) (by assumption)
  exact Nat.div_lt_self (Nat.pos_of_ne_zero hvalue) hbase

/-- `while (low < ptr)` the two bytes change places. -/
def reverseLoop (low ptr : ℕ) (m : Memory) : Memory :=
  if low < ptr then
    reverseLoop (low + 1) (ptr - 1) (Function.update (Function.update m low (m ptr)) ptr (m low))
  else m
termination_by ptr - low

/-- `itoa`.  No value is negative. -/
def itoa (m : Memory) (value str base : ℕ) : Memory :=
  if h : base < 2 ∨ 36 < base then Function.update m str 0
  else
    let written := itoaLoop base (by omega) value str m
    reverseLoop str (written.2 - 1) (Function.update written.1 written.2 0)

/-- The digits stand in the order of the divisions. -/
theorem itoaLoop_eq (hbase : 2 ≤ base) : itoaLoop base hbase value ptr m =
    (store m ptr ((Numeral.lowFirst base value).map digitChar),
      ptr + (Numeral.lowFirst base value).length) := by
  induction value using Nat.strongRecOn generalizing ptr m with
  | ind value ih =>
    rw [itoaLoop, Numeral.lowFirst_eq hbase]
    by_cases hq : value / base = 0
    · rw [if_pos hq, if_pos hq, List.map_cons, ← store_cons, List.map_nil, store_nil]
      rfl
    · have hvalue : value ≠ 0 := by
        rintro rfl
        exact hq (Nat.zero_div base)
      have hlt : value / base < value := Nat.div_lt_self (Nat.pos_of_ne_zero hvalue) hbase
      rw [if_neg hq, if_neg hq, List.map_cons, ← store_cons, List.length_cons, ih _ hlt, Nat.add_assoc,
        Nat.add_comm 1]

/-- What stands between the two pointers is turned round. -/
theorem reverseLoop_apply :
    reverseLoop low ptr m x = if low ≤ x ∧ x ≤ ptr then m (low + ptr - x) else m x := by
  induction low, ptr, m using reverseLoop.induct with
  | case1 low ptr m hlt ih =>
    rw [reverseLoop, if_pos hlt, ih]
    by_cases hin : low + 1 ≤ x ∧ x ≤ ptr - 1
    · have hsum : low + 1 + (ptr - 1) - x = low + ptr - x := by omega
      rw [if_pos hin, if_pos (by omega), hsum, Function.update_of_ne (by omega),
        Function.update_of_ne (by omega)]
    · rw [if_neg hin]
      by_cases hptr : x = ptr
      · rw [hptr, Function.update_self, if_pos (by omega), Nat.add_sub_cancel]
      · rw [Function.update_of_ne hptr]
        by_cases hlow : x = low
        · rw [hlow, Function.update_self, if_pos (by omega), Nat.add_sub_cancel_left]
        · rw [Function.update_of_ne hlow, if_neg (by omega)]
  | case2 low ptr m hge =>
    rw [reverseLoop, if_neg hge]
    split
    · next hin =>
      have hx : low + ptr - x = x := by omega
      rw [hx]
    · rfl

/-- A list that is turned round in place. -/
theorem reverseLoop_store (hl : l ≠ []) :
    reverseLoop a (a + l.length - 1) (store m a l) = store m a l.reverse := by
  have hpos : 0 < l.length := List.length_pos_of_ne_nil hl
  funext x
  rw [reverseLoop_apply]
  by_cases hin : a ≤ x ∧ x ≤ a + l.length - 1
  · have hi : x - a < l.reverse.length := by
      rw [List.length_reverse]
      omega
    have hx : a + (x - a) = x := by omega
    have hback : a + (a + l.length - 1) - x = a + (l.length - 1 - (x - a)) := by omega
    have hright := store_add (m := m) (a := a) hi
    rw [hx] at hright
    rw [if_pos hin, hright, hback, store_add (by omega), List.getElem_reverse]
  · rw [if_neg hin]
    by_cases hlt : x < a
    · rw [store_of_lt hlt, store_of_lt hlt]
    · rw [store_of_le (by omega), store_of_le (by rw [List.length_reverse]; omega)]

/-- The numeral of a number. -/
def numeral (base value : ℕ) : List UInt8 := (Numeral.digits base value).map digitChar

theorem numeral_eq_reverse : numeral base value = ((Numeral.lowFirst base value).map digitChar).reverse := by
  rw [numeral, Numeral.digits, List.map_reverse]

/-- `itoa` writes the numeral and a NUL. -/
theorem itoa_eq (hbase : 2 ≤ base) (hle : base ≤ 36) :
    itoa m value str base = store m str (numeral base value ++ [0]) := by
  have hne : (Numeral.lowFirst base value).map digitChar ≠ [] := by
    rw [Numeral.lowFirst_eq hbase, List.map_cons]
    exact List.cons_ne_nil _ _
  rw [itoa, dif_neg (by omega), itoaLoop_eq hbase, ← List.length_map digitChar, numeral_eq_reverse]
  show reverseLoop str (str + _ - 1) (Function.update (store m str _) (str + _) 0) = _
  rw [update_store_comm (Nat.le_refl _), reverseLoop_store hne, ← update_store, List.length_reverse,
    update_store_comm (Nat.le_of_eq (by rw [List.length_reverse]))]

/-- What a character stands for. -/
def digitValue (c : UInt8) : ℕ :=
  if c ≤ charCode '9' then (c - charCode '0').toNat else (c - charCode 'A').toNat + 10

/-- The number that a text is the numeral of. -/
def parse (base : ℕ) (text : List UInt8) : ℕ := Numeral.value base (text.map digitValue)

theorem digitValue_digitChar {d : ℕ} (hd : d < 36) : digitValue (digitChar d) = d := by
  have hall : ∀ d < 36, digitValue (digitChar d) = d := by decide
  exact hall d hd

theorem digitChar_ne_zero {d : ℕ} (hd : d < 36) : digitChar d ≠ 0 := by
  have hall : ∀ d < 36, digitChar d ≠ 0 := by decide
  exact hall d hd

theorem numeral_digit_lt (hbase : 2 ≤ base) (hle : base ≤ 36) {d : ℕ} (hd : d ∈ Numeral.digits base value) :
    d < 36 :=
  Nat.lt_of_lt_of_le ((Numeral.isNumeral_digits hbase).lt_base d hd) hle

theorem numeral_length_le (hbase : 2 ≤ base) (hvalue : value < 2 ^ 32) : (numeral base value).length ≤ 32 := by
  have hpow : 2 ^ 32 ≤ base ^ 32 := Nat.pow_le_pow_left hbase 32
  rw [numeral, List.length_map]
  exact Numeral.digits_length_le hbase (by decide) (Nat.lt_of_lt_of_le hvalue hpow)

theorem numeral_no_nul (hbase : 2 ≤ base) (hle : base ≤ 36) : ∀ c ∈ numeral base value, c ≠ 0 := by
  intro c hc
  obtain ⟨d, hd, rfl⟩ := List.mem_map.mp hc
  exact digitChar_ne_zero (numeral_digit_lt hbase hle hd)

theorem map_digitValue_numeral (hbase : 2 ≤ base) (hle : base ≤ 36) :
    (numeral base value).map digitValue = Numeral.digits base value := by
  have hid : ∀ d ∈ Numeral.digits base value, (digitValue ∘ digitChar) d = id d := fun d hd =>
    digitValue_digitChar (numeral_digit_lt hbase hle hd)
  rw [numeral, List.map_map, List.map_congr_left hid, List.map_id]

/-- The numeral is read back. -/
theorem parse_numeral (hbase : 2 ≤ base) (hle : base ≤ 36) : parse base (numeral base value) = value := by
  rw [parse, map_digitValue_numeral hbase hle]
  exact (Numeral.isNumeral_digits hbase).value_eq

/-- Different numbers have different numerals. -/
theorem numeral_injective (hbase : 2 ≤ base) (hle : base ≤ 36) {w : ℕ}
    (h : numeral base value = numeral base w) : value = w := by
  have hparse : parse base (numeral base value) = value := parse_numeral hbase hle
  rw [h, parse_numeral hbase hle] at hparse
  exact hparse.symm

end OmochaOS.Klib
