import OmochaOS.Lib.ByteMemory
import Mathlib.Logic.Function.Basic

/-!
# `memcpy` (`lib/string.c`)

`memcpy` copies byte after byte, from the end when the destination begins inside the source and from the
beginning otherwise.  Pointers have 32 bits.  The loops do what `copy` does at once.

* `forward_eq_copy`, `backward_eq_copy` — the two directions;
* `memcpy_overlap` — the bytes that are copied and those that stay, for every overlap.
-/

namespace OmochaOS.Klib

open ByteMemory

/-- `while (size-- > 0) *d++ = *s++`. -/
def forward : (size d s : ℕ) → Memory → Memory
  | 0, _, _, m => m
  | size + 1, d, s, m => forward size ((d + 1) % 2 ^ 32) ((s + 1) % 2 ^ 32) (Function.update m d (m s))

/-- `while (size-- > 0) *--d = *--s`. -/
def backward : (size d s : ℕ) → Memory → Memory
  | 0, _, _, m => m
  | size + 1, d, s, m =>
    let d := (d + (2 ^ 32 - 1)) % 2 ^ 32
    let s := (s + (2 ^ 32 - 1)) % 2 ^ 32
    backward size d s (Function.update m d (m s))

/-- `memcpy`, for a size that is not negative. -/
def memcpy (m : Memory) (dst src size : ℕ) : Memory :=
  if src < dst ∧ dst < (src + size) % 2 ^ 32 then
    backward size ((dst + size) % 2 ^ 32) ((src + size) % 2 ^ 32) m
  else forward size dst src m

variable {m : Memory} {dst src size n : ℕ}

/-- The first byte is copied, and then the others. -/
theorem copy_succ_first (hapart : dst ≤ src ∨ src + (n + 1) ≤ dst) :
    copy (Function.update m dst (m src)) (dst + 1) (src + 1) n = copy m dst src (n + 1) := by
  funext x
  rw [copy, copy]
  by_cases hrest : dst + 1 ≤ x ∧ x < dst + 1 + n
  · have hpos : src + 1 + (x - (dst + 1)) = src + (x - dst) := by omega
    rw [if_pos hrest, if_pos (by omega), hpos, Function.update_of_ne (by omega)]
  · rw [if_neg hrest]
    by_cases hx : x = dst
    · rw [hx, Function.update_self, if_pos (by omega), Nat.sub_self, Nat.add_zero]
    · rw [Function.update_of_ne hx, if_neg (by omega)]

/-- The last byte is copied, and then the others. -/
theorem copy_succ_last (hle : src ≤ dst) :
    copy (Function.update m (dst + n) (m (src + n))) dst src n = copy m dst src (n + 1) := by
  funext x
  rw [copy, copy]
  by_cases hrest : dst ≤ x ∧ x < dst + n
  · rw [if_pos hrest, if_pos (by omega), Function.update_of_ne (by omega)]
  · rw [if_neg hrest]
    by_cases hx : x = dst + n
    · rw [hx, Function.update_self, if_pos (by omega), Nat.add_sub_cancel_left]
    · rw [Function.update_of_ne hx, if_neg (by omega)]

theorem copy_zero : copy m dst src 0 = m := by
  funext x
  exact copy_of_notMem (by omega)

/-- From the beginning, no byte is overwritten before it is read. -/
theorem forward_eq_copy (hapart : dst ≤ src ∨ src + size ≤ dst) (hsrc : src + size ≤ 2 ^ 32)
    (hdst : dst + size ≤ 2 ^ 32) : forward size dst src m = copy m dst src size := by
  induction size generalizing m dst src with
  | zero => exact copy_zero.symm
  | succ n ih =>
    rw [forward, ← copy_succ_first hapart]
    by_cases hn : n = 0
    · -- the pointers behind the last byte may be 0 again
      subst hn
      exact copy_zero.symm
    · have hd : (dst + 1) % 2 ^ 32 = dst + 1 := Nat.mod_eq_of_lt (by omega)
      have hs : (src + 1) % 2 ^ 32 = src + 1 := Nat.mod_eq_of_lt (by omega)
      rw [hd, hs]
      exact ih (by omega) (by omega) (by omega)

/-- A pointer to the byte before. -/
theorem pred_mod (h : n + 1 ≤ 2 ^ 32) : ((n + 1) % 2 ^ 32 + (2 ^ 32 - 1)) % 2 ^ 32 = n := by
  omega

/-- From the end, no byte is overwritten before it is read. -/
theorem backward_eq_copy (hle : src ≤ dst) (hdst : dst + size ≤ 2 ^ 32) :
    backward size ((dst + size) % 2 ^ 32) ((src + size) % 2 ^ 32) m = copy m dst src size := by
  induction size generalizing m with
  | zero => exact copy_zero.symm
  | succ n ih =>
    have hd : ((dst + (n + 1)) % 2 ^ 32 + (2 ^ 32 - 1)) % 2 ^ 32 = dst + n := pred_mod hdst
    have hs : ((src + (n + 1)) % 2 ^ 32 + (2 ^ 32 - 1)) % 2 ^ 32 =
        src + n := pred_mod (show src + n + 1 ≤ 2 ^ 32 by omega)
    have hd' : (dst + n) % 2 ^ 32 = dst + n := Nat.mod_eq_of_lt (by omega)
    have hs' : (src + n) % 2 ^ 32 = src + n := Nat.mod_eq_of_lt (by omega)
    rw [← copy_succ_last hle, ← ih (by omega), hd', hs']
    show backward n _ _ (Function.update m _ (m _)) = _
    rw [hd, hs]

theorem memcpy_eq_copy (hsrc : src + size ≤ 2 ^ 32) (hdst : dst + size ≤ 2 ^ 32) :
    memcpy m dst src size = copy m dst src size := by
  rw [memcpy]
  split
  · next h => exact backward_eq_copy (Nat.le_of_lt h.1) hdst
  · next h =>
    refine forward_eq_copy ?_ hsrc hdst
    by_contra hno
    -- the source ends behind the beginning of the destination, and below the top of memory
    have hmod : (src + size) % 2 ^ 32 = src + size := Nat.mod_eq_of_lt (by omega)
    rw [hmod] at h
    omega

/-- **`memcpy` copies for every overlap.** -/
theorem memcpy_overlap (m : Memory) (dst src size : ℕ) (hsrc : src + size ≤ 2 ^ 32)
    (hdst : dst + size ≤ 2 ^ 32) : (∀ i < size, memcpy m dst src size (dst + i) = m (src + i)) ∧
      ∀ x, x < dst ∨ dst + size ≤ x → memcpy m dst src size x = m x := by
  rw [memcpy_eq_copy hsrc hdst]
  exact ⟨fun i hi => copy_of_mem hi, fun x hx => copy_of_notMem hx⟩

theorem memcpy_overlap_up : memcpy (fun x => UInt8.ofNat x) 3 1 4 6 = 4 ∧
    memcpy (fun x => UInt8.ofNat x) 3 1 4 7 = 7 := by
  obtain ⟨hcopied, hkept⟩ := memcpy_overlap (fun x => UInt8.ofNat x) 3 1 4 (by decide) (by decide)
  exact ⟨hcopied 3 (by decide), hkept 7 (by decide)⟩

end OmochaOS.Klib
