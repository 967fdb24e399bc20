import Mathlib.Algebra.Order.Ring.Nat
import Mathlib.Logic.Function.Basic
import Mathlib.Tactic.Common

/-!
# Memory of bytes

A memory is a map from addresses to bytes.  Words of four bytes are read and written with the lowest
byte first, and a block of bytes is copied or filled at once.

* `readWord_writeWord`, `readWord_writeWord_of_disjoint` — a word that is written, and the others.
* `writeWord_of_lt`, `copy_of_notMem`, `fill_of_notMem` — the bytes outside stay.
* `readWord_copy`, `readWord_fill` — the words inside a block that is copied or filled.
* `AgreeOn` — two memories have the same bytes in a block, and so the same words.
* `store` — the bytes of a list are written behind each other, and a list is stored in parts.
* `HasBytes` — the bytes of a list stand behind each other.
-/

namespace ByteMemory

abbrev Memory := ℕ → UInt8

variable {m m' : Memory} {a b w x dst src n : ℕ} {v : UInt8}

/-- The word at an address. -/
def readWord (m : Memory) (a : ℕ) : ℕ :=
  (m a).toNat + (m (a + 1)).toNat * 2 ^ 8 + (m (a + 2)).toNat * 2 ^ 16 + (m (a + 3)).toNat * 2 ^ 24

/-- A word is written. -/
def writeWord (m : Memory) (a w : ℕ) : Memory := fun x =>
  if a ≤ x ∧ x < a + 4 then UInt8.ofNat (w / 2 ^ (8 * (x - a))) else m x

/-- `n` bytes are copied. -/
def copy (m : Memory) (dst src n : ℕ) : Memory := fun x =>
  if dst ≤ x ∧ x < dst + n then m (src + (x - dst)) else m x

/-- `n` bytes are set to the same value. -/
def fill (m : Memory) (dst : ℕ) (v : UInt8) (n : ℕ) : Memory := fun x =>
  if dst ≤ x ∧ x < dst + n then v else m x

/-! ### Words -/

theorem readWord_lt (m : Memory) (a : ℕ) : readWord m a < 2 ^ 32 := by
  have h₀ := (m a).toNat_lt
  have h₁ := (m (a + 1)).toNat_lt
  have h₂ := (m (a + 2)).toNat_lt
  have h₃ := (m (a + 3)).toNat_lt
  rw [readWord]
  omega

/-- Words with the same bytes. -/
theorem readWord_congr (h : ∀ i < 4, m' (b + i) = m (a + i)) : readWord m' b = readWord m a := by
  have h₀ := h 0 (by decide)
  rw [Nat.add_zero, Nat.add_zero] at h₀
  rw [readWord, readWord, h₀, h 1 (by decide), h 2 (by decide), h 3 (by decide)]

theorem writeWord_of_lt (h : x < a ∨ a + 4 ≤ x) : writeWord m a w x = m x := by
  rw [writeWord, if_neg]
  omega

theorem writeWord_add {i : ℕ} (hi : i < 4) :
    (writeWord m a w (a + i)).toNat = w / 2 ^ (8 * i) % 2 ^ 8 := by
  rw [writeWord, if_pos (by omega), Nat.add_sub_cancel_left]
  rfl

/-- A word that is written is read back. -/
theorem readWord_writeWord (hw : w < 2 ^ 32) : readWord (writeWord m a w) a = w := by
  have h₀ := writeWord_add (m := m) (a := a) (w := w) (i := 0) (by decide)
  have h₁ := writeWord_add (m := m) (a := a) (w := w) (i := 1) (by decide)
  have h₂ := writeWord_add (m := m) (a := a) (w := w) (i := 2) (by decide)
  have h₃ := writeWord_add (m := m) (a := a) (w := w) (i := 3) (by decide)
  rw [Nat.add_zero] at h₀
  rw [readWord, h₀, h₁, h₂, h₃]
  omega

/-- A word that is there is written again. -/
theorem writeWord_readWord : writeWord m a (readWord m a) = m := by
  funext x
  by_cases h : a ≤ x ∧ x < a + 4
  · have h₀ := (m a).toNat_lt
    have h₁ := (m (a + 1)).toNat_lt
    have h₂ := (m (a + 2)).toNat_lt
    have h₃ := (m (a + 3)).toNat_lt
    have hx : x = a ∨ x = a + 1 ∨ x = a + 2 ∨ x = a + 3 := by omega
    rw [writeWord, if_pos h]
    apply UInt8.toNat.inj
    rw [UInt8.toNat_ofNat', readWord]
    rcases hx with rfl | rfl | rfl | rfl
    · rw [Nat.sub_self]
      omega
    · rw [Nat.add_sub_cancel_left]
      omega
    · rw [Nat.add_sub_cancel_left]
      omega
    · rw [Nat.add_sub_cancel_left]
      omega
  · rw [writeWord, if_neg h]

/-- The other words stay. -/
theorem readWord_writeWord_of_disjoint (h : a + 4 ≤ b ∨ b + 4 ≤ a) :
    readWord (writeWord m a w) b = readWord m b := by
  apply readWord_congr
  intro i hi
  apply writeWord_of_lt
  omega

/-! ### Blocks -/

theorem copy_of_mem (h : x < n) : copy m dst src n (dst + x) = m (src + x) := by
  rw [copy, if_pos (by omega), Nat.add_sub_cancel_left]

theorem copy_of_notMem (h : x < dst ∨ dst + n ≤ x) : copy m dst src n x = m x := by
  rw [copy, if_neg]
  omega

theorem fill_of_mem (h : x < n) : fill m dst v n (dst + x) = v := by
  rw [fill, if_pos]
  omega

theorem fill_of_notMem (h : x < dst ∨ dst + n ≤ x) : fill m dst v n x = m x := by
  rw [fill, if_neg]
  omega

theorem readWord_copy (h : x + 4 ≤ n) : readWord (copy m dst src n) (dst + x) = readWord m (src + x) := by
  apply readWord_congr
  intro i hi
  rw [Nat.add_assoc, Nat.add_assoc]
  apply copy_of_mem
  omega

theorem readWord_copy_of_disjoint (h : b + 4 ≤ dst ∨ dst + n ≤ b) :
    readWord (copy m dst src n) b = readWord m b := by
  apply readWord_congr
  intro i hi
  apply copy_of_notMem
  omega

/-- The words of a block of zeros. -/
theorem readWord_fill (h : x + 4 ≤ n) : readWord (fill m dst 0 n) (dst + x) = 0 := by
  have hbyte : ∀ i < 4, fill m dst 0 n (dst + x + i) = 0 := by
    intro i hi
    rw [Nat.add_assoc]
    apply fill_of_mem
    omega
  have h₀ := hbyte 0 (by decide)
  rw [Nat.add_zero] at h₀
  rw [readWord, h₀, hbyte 1 (by decide), hbyte 2 (by decide), hbyte 3 (by decide)]
  rfl

theorem readWord_fill_of_disjoint (h : b + 4 ≤ dst ∨ dst + n ≤ b) :
    readWord (fill m dst v n) b = readWord m b := by
  apply readWord_congr
  intro i hi
  apply fill_of_notMem
  omega

/-! ### Agreement -/

/-- Two memories have the same bytes in a block. -/
def AgreeOn (m' m : Memory) (a n : ℕ) : Prop := ∀ x, a ≤ x → x < a + n → m' x = m x

theorem AgreeOn.refl (m : Memory) (a n : ℕ) : AgreeOn m m a n := fun _ _ _ => rfl

theorem AgreeOn.trans {m'' : Memory} (h' : AgreeOn m'' m' a n) (h : AgreeOn m' m a n) :
    AgreeOn m'' m a n :=
  fun x ha hn => (h' x ha hn).trans (h x ha hn)

theorem AgreeOn.readWord (h : AgreeOn m' m a n) (hx : x + 4 ≤ n) :
    readWord m' (a + x) = readWord m (a + x) := by
  apply readWord_congr
  intro i hi
  apply h
  · omega
  · omega

theorem agreeOn_writeWord (h : b + 4 ≤ a ∨ a + n ≤ b) : AgreeOn (writeWord m b w) m a n := by
  intro x ha hn
  apply writeWord_of_lt
  omega

theorem agreeOn_copy {k : ℕ} (h : dst + k ≤ a ∨ a + n ≤ dst) : AgreeOn (copy m dst src k) m a n := by
  intro x ha hn
  apply copy_of_notMem
  omega

theorem agreeOn_fill {k : ℕ} (h : dst + k ≤ a ∨ a + n ≤ dst) : AgreeOn (fill m dst v k) m a n := by
  intro x ha hn
  apply fill_of_notMem
  omega

/-! ### Lists of bytes -/

variable {l l' : List UInt8} {c : UInt8} {i : ℕ}

/-- The bytes of a list are written from `a` on. -/
def store (m : Memory) (a : ℕ) (l : List UInt8) : Memory := fun x =>
  if a ≤ x then l[x - a]?.getD (m x) else m x

theorem store_of_lt (hx : x < a) : store m a l x = m x := if_neg (Nat.not_le.mpr hx)

theorem store_of_le (hx : a + l.length ≤ x) : store m a l x = m x := by
  rw [store, List.getElem?_eq_none (by omega)]
  exact ite_self _

theorem store_add (hi : i < l.length) : store m a l (a + i) = l[i] := by
  rw [store, if_pos (Nat.le_add_right a i), Nat.add_sub_cancel_left, List.getElem?_eq_getElem hi]
  rfl

theorem store_nil : store m a [] = m := by
  funext x
  exact ite_self _

/-- The first byte is written, and then the others. -/
theorem store_cons : store (Function.update m a c) (a + 1) l = store m a (c :: l) := by
  funext x
  rcases Nat.lt_trichotomy x a with hlt | heq | hlt
  · rw [store_of_lt hlt, store_of_lt (by omega), Function.update_of_ne (Nat.ne_of_lt hlt)]
  · rw [heq, store_of_lt (Nat.lt_succ_self a), Function.update_self, store, if_pos (Nat.le_refl a), Nat.sub_self]
    rfl
  · have hsub : x - a = x - (a + 1) + 1 := by omega
    rw [store, store, if_pos (Nat.succ_le_of_lt hlt), if_pos (Nat.le_of_lt hlt), hsub, List.getElem?_cons_succ,
      Function.update_of_ne (Nat.ne_of_gt hlt)]

/-- A list is written in two parts. -/
theorem store_append : store (store m a l) (a + l.length) l' = store m a (l ++ l') := by
  induction l generalizing m a with
  | nil => rw [store_nil, List.nil_append, List.length_nil, Nat.add_zero]
  | cons c l ih => rw [← store_cons, List.length_cons, List.cons_append, ← store_cons, ← ih, Nat.add_assoc,
      Nat.add_comm 1 l.length]

/-- One more byte is written behind a list. -/
theorem update_store : Function.update (store m a l) (a + l.length) c = store m a (l ++ [c]) := by
  rw [← store_append, ← store_cons, store_nil]

/-- A byte behind the list does not change the way it is written. -/
theorem update_store_comm (hx : a + l.length ≤ x) :
    Function.update (store m a l) x c = store (Function.update m x c) a l := by
  funext y
  by_cases hy : y = x
  · rw [hy, Function.update_self, store_of_le hx, Function.update_self]
  · rw [Function.update_of_ne hy, store, store, Function.update_of_ne hy]

/-- A list is written in front of another one. -/
theorem store_prepend : store (store m (a + l.length) l') a l = store m a (l ++ l') := by
  funext x
  rcases Nat.lt_or_ge x a with hlt | hge
  · rw [store_of_lt hlt, store_of_lt hlt, store_of_lt (by omega)]
  · have hle : a ≤ x := hge
    rcases Nat.lt_or_ge x (a + l.length) with hin | hout
    · have hi : x - a < l.length := by omega
      have hleft := store_add (m := store m (a + l.length) l') (a := a) hi
      have hright := store_add (m := m) (a := a) (l := l ++ l') (i := x - a)
        (by rw [List.length_append]; omega)
      rw [Nat.add_sub_cancel' hle] at hleft hright
      rw [hleft, hright, List.getElem_append_left hi]
    · have hsub : x - (a + l.length) = x - a - l.length := by omega
      rw [store_of_le hout, store, store, if_pos hout, if_pos hle, hsub,
        List.getElem?_append_right (by omega)]

/-- The bytes of a list stand from `a` on. -/
def HasBytes (m : Memory) (a : ℕ) (l : List UInt8) : Prop := ∀ i (hi : i < l.length), m (a + i) = l[i]

theorem hasBytes_store : HasBytes (store m a l) a l := fun _ hi => store_add hi

theorem HasBytes.congr (h : HasBytes m a l) (hsame : AgreeOn m' m a l.length) : HasBytes m' a l := by
  intro i hi
  rw [hsame (a + i) (Nat.le_add_right a i) (by omega)]
  exact h i hi

theorem HasBytes.left (h : HasBytes m a (l ++ l')) : HasBytes m a l := by
  intro i hi
  have hi' : i < (l ++ l').length := by
    rw [List.length_append]
    omega
  rw [h i hi', List.getElem_append_left hi]

theorem HasBytes.right (h : HasBytes m a (l ++ l')) : HasBytes m (a + l.length) l' := by
  intro i hi
  have hi' : l.length + i < (l ++ l').length := by
    rw [List.length_append]
    omega
  have hplace := h (l.length + i) hi'
  rw [← Nat.add_assoc, List.getElem_append_right (Nat.le_add_right _ _)] at hplace
  rw [hplace]
  congr 1
  exact Nat.add_sub_cancel_left _ _

/-- What is copied is what stands there. -/
theorem HasBytes.copy (h : HasBytes m src l) : copy m dst src l.length = store m dst l := by
  funext x
  by_cases hin : dst ≤ x ∧ x < dst + l.length
  · have hi : x - dst < l.length := by omega
    rw [ByteMemory.copy, if_pos hin, h _ hi, store, if_pos hin.1, List.getElem?_eq_getElem hi]
    rfl
  · rw [copy_of_notMem (by omega)]
    rcases Nat.lt_or_ge x dst with hlt | hge
    · exact (store_of_lt hlt).symm
    · exact (store_of_le (by omega)).symm

end ByteMemory
