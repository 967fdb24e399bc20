import Mathlib.Algebra.Order.Ring.Nat
import Mathlib.Tactic.Common

/-!
# Bytes behind a pointer

A loop that goes along the bytes behind a pointer knows nothing of the array that they belong to.  Here a
byte outside of the array is `none`, and a loop that reads it does not get on.

* `exists_scanWhile_iff` — where the loop over the bytes with a property stops;
* `trimEnd_spec` — the loop from the end back.
-/

namespace CString

/-- What a pointer points to. -/
abbrev Bytes := ℕ → Option UInt8

variable {p : UInt8 → Bool} {s : Bytes} {w : ℕ → UInt8} {fuel i n m start last stop : ℕ} {c : UInt8}

/-- `while (p(s[i])) i++`. -/
def scanWhile (p : UInt8 → Bool) (s : Bytes) : ℕ → ℕ → Option ℕ
  | 0, _ => none
  | fuel + 1, i => do
    let c ← s i
    if p c then scanWhile p s fuel (i + 1) else some i

/-- The length of the string. -/
def strlen (s : Bytes) (fuel : ℕ) : Option ℕ := scanWhile (· != 0) s fuel 0

/-- `while (stop > start && p(s[stop])) stop--`. -/
def trimEnd (p : UInt8 → Bool) (s : Bytes) (start : ℕ) : ℕ → Option ℕ
  | 0 => some 0
  | stop + 1 =>
    if start < stop + 1 then do
      let c ← s (stop + 1)
      if p c then trimEnd p s start stop else some (stop + 1)
    else some (stop + 1)

/-- From `i` on the first byte without the property is at `n`. -/
structure FirstNot (p : UInt8 → Bool) (s : Bytes) (i n : ℕ) : Prop where
  le : i ≤ n
  stops : ∃ c, s n = some c ∧ p c = false
  before : ∀ j, i ≤ j → j < n → ∃ c, s j = some c ∧ p c = true

theorem FirstNot.unique (h : FirstNot p s i n) (h' : FirstNot p s i m) : n = m := by
  obtain ⟨c, hc, hp⟩ := h.stops
  obtain ⟨c', hc', hp'⟩ := h'.stops
  rcases Nat.lt_trichotomy n m with hlt | heq | hlt
  · obtain ⟨d, hd, hpd⟩ := h'.before n h.le hlt
    rw [hc] at hd
    rw [Option.some.inj hd, hpd] at hp
    cases hp
  · exact heq
  · obtain ⟨d, hd, hpd⟩ := h.before m h'.le hlt
    rw [hc'] at hd
    rw [Option.some.inj hd, hpd] at hp'
    cases hp'

theorem scanWhile_firstNot (h : scanWhile p s fuel i = some n) : FirstNot p s i n := by
  induction fuel generalizing i with
  | zero => cases h
  | succ fuel ih =>
    rw [scanWhile] at h
    cases hs : s i with
    | none =>
      rw [hs] at h
      cases h
    | some c =>
      rw [hs] at h
      replace h : (if p c then scanWhile p s fuel (i + 1) else some i) = some n := h
      cases hp : p c with
      | true =>
        rw [hp, if_pos rfl] at h
        have hrest := ih h
        refine ⟨Nat.le_of_succ_le hrest.le, hrest.stops, ?_⟩
        intro j hij hjn
        rcases Nat.eq_or_lt_of_le hij with heq | hlt
        · exact ⟨c, heq ▸ hs, hp⟩
        · exact hrest.before j hlt hjn
      | false =>
        rw [hp, if_neg Bool.false_ne_true] at h
        obtain rfl := Option.some.inj h
        exact ⟨Nat.le_refl _, ⟨c, hs, hp⟩, fun j hij hji => absurd hij (Nat.not_le.mpr hji)⟩

theorem FirstNot.scanWhile (h : FirstNot p s i n) (hf : n - i < fuel) : scanWhile p s fuel i = some n := by
  induction fuel generalizing i with
  | zero => exact absurd hf (Nat.not_lt_zero _)
  | succ fuel ih =>
    rw [CString.scanWhile]
    rcases Nat.eq_or_lt_of_le h.le with heq | hlt
    · obtain ⟨c, hc, hp⟩ := h.stops
      rw [heq, hc]
      show (if p c then _ else some n) = some n
      rw [hp, if_neg Bool.false_ne_true]
    · obtain ⟨c, hc, hp⟩ := h.before i (Nat.le_refl _) hlt
      rw [hc]
      show (if p c then _ else some i) = some n
      rw [hp, if_pos rfl]
      exact ih ⟨hlt, h.stops, fun j hij hjn => h.before j (Nat.le_of_succ_le hij) hjn⟩ (by omega)

/-- **Where the loop stops.** -/
theorem exists_scanWhile_iff : (∃ fuel, scanWhile p s fuel i = some n) ↔ FirstNot p s i n := by
  constructor
  · rintro ⟨fuel, h⟩
    exact scanWhile_firstNot h
  · intro h
    exact ⟨n - i + 1, h.scanWhile (Nat.lt_succ_self _)⟩

/-- The last byte that is kept, of those from `start` to `stop`. -/
structure LastNot (p : UInt8 → Bool) (w : ℕ → UInt8) (start stop last : ℕ) : Prop where
  start_le : start ≤ last
  le_stop : last ≤ stop
  stops : last = start ∨ p (w last) = false
  behind : ∀ j, last < j → j ≤ stop → p (w j) = true

/-- The loop from the end back stays where there are bytes. -/
theorem trimEnd_spec (hle : start ≤ stop) :
    ∃ last, trimEnd p (fun i => some (w i)) start stop = some last ∧ LastNot p w start stop last := by
  induction stop with
  | zero =>
    obtain rfl := Nat.le_zero.mp hle
    exact ⟨0, rfl, Nat.le_refl _, Nat.le_refl _, Or.inl rfl,
      fun j hj hj' => absurd hj (Nat.not_lt.mpr hj')⟩
  | succ stop ih =>
    rw [trimEnd]
    rcases Nat.eq_or_lt_of_le hle with heq | hlt
    · rw [if_neg (Nat.not_lt.mpr (Nat.le_of_eq heq.symm))]
      exact ⟨_, rfl, hle, Nat.le_refl _, Or.inl heq.symm,
        fun j hj hj' => absurd hj (Nat.not_lt.mpr hj')⟩
    · rw [if_pos hlt]
      show ∃ last, (if p (w (stop + 1)) then _ else some (stop + 1)) = some last ∧ _
      cases hp : p (w (stop + 1)) with
      | true =>
        rw [if_pos rfl]
        obtain ⟨last, hlast, hspec⟩ := ih (Nat.le_of_lt_succ hlt)
        refine ⟨last, hlast, hspec.start_le, Nat.le_succ_of_le hspec.le_stop, hspec.stops, ?_⟩
        intro j hj hj'
        rcases Nat.eq_or_lt_of_le hj' with heq | hlt'
        · rw [heq, hp]
        · exact hspec.behind j hj (Nat.le_of_lt_succ hlt')
      | false =>
        rw [if_neg Bool.false_ne_true]
        exact ⟨_, rfl, hle, Nat.le_refl _, Or.inr hp, fun j hj hj' => absurd hj (Nat.not_lt.mpr hj')⟩

end CString
