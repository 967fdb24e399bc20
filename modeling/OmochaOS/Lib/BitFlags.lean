import Mathlib.Data.BitVec
import Mathlib.Tactic.Common

/-!
# Flag words: setting, clearing and testing bits of a fixed-width status word

A status word carries several independent flags.  C code tests a flag with `w & f`, raises it with
`w |= f` and drops it with `w &= ~f`.  This file gives those three operations one name each and the
laws a proof about a state machine needs: a test sees the flag just raised, does not see the flag
just dropped, and is blind to every operation on a *disjoint* mask.

Nothing here depends on the width or on which flags a word has.
-/

namespace BitFlags

variable {n : ℕ}

/-- Some bit of `mask` is set in `w`: the C test `w & mask`. -/
def Has (w mask : BitVec n) : Prop := w &&& mask ≠ 0

instance (w mask : BitVec n) : Decidable (Has w mask) := inferInstanceAs (Decidable (_ ≠ _))

/-- The C statement `w |= f`. -/
def raise (w f : BitVec n) : BitVec n := w ||| f

/-- The C statement `w &= ~f`. -/
def drop (w f : BitVec n) : BitVec n := w &&& ~~~f

/-- A word has a bit of `mask` exactly when some position is set in both. -/
theorem has_iff_exists {w mask : BitVec n} :
    Has w mask ↔ ∃ i, w.getLsbD i = true ∧ mask.getLsbD i = true := by
  constructor
  · intro h
    by_contra hno
    apply h
    apply BitVec.eq_of_getLsbD_eq
    intro i _
    rw [BitVec.getLsbD_and]
    by_contra hi
    apply hno
    refine ⟨i, ?_⟩
    simpa using hi
  · rintro ⟨i, hw, hm⟩ h
    have hi : (w &&& mask).getLsbD i = true := by rw [BitVec.getLsbD_and, hw, hm]; rfl
    rw [h] at hi
    simp at hi

/-- A bit of the width is set in the complement exactly when it is clear. -/
theorem getLsbD_drop {w f : BitVec n} {i : ℕ} :
    (drop w f).getLsbD i = (w.getLsbD i && !f.getLsbD i) := by
  by_cases hi : i < n
  · simp [drop, hi]
  · simp [drop, BitVec.getLsbD_of_ge _ _ (Nat.le_of_not_lt hi)]

theorem has_raise_iff {w f mask : BitVec n} : Has (raise w f) mask ↔ Has w mask ∨ Has f mask := by
  simp only [has_iff_exists, raise, BitVec.getLsbD_or, Bool.or_eq_true]
  constructor
  · rintro ⟨i, hw | hf, hm⟩
    · exact Or.inl ⟨i, hw, hm⟩
    · exact Or.inr ⟨i, hf, hm⟩
  · rintro (⟨i, hw, hm⟩ | ⟨i, hf, hm⟩)
    · exact ⟨i, Or.inl hw, hm⟩
    · exact ⟨i, Or.inr hf, hm⟩

/-- Raising a flag is seen by its own test. -/
theorem has_raise_self {w f : BitVec n} (hf : f ≠ 0) : Has (raise w f) f := by
  rw [has_raise_iff]
  right
  simpa [Has] using hf

/-- Raising a flag is not seen by the test of a disjoint mask. -/
theorem has_raise_of_disjoint {w f mask : BitVec n} (h : f &&& mask = 0) :
    Has (raise w f) mask ↔ Has w mask := by
  rw [has_raise_iff]
  simp [Has, h]

/-- Dropping a flag is seen by its own test. -/
theorem not_has_drop_self {w f : BitVec n} : ¬ Has (drop w f) f := by
  rw [has_iff_exists]
  rintro ⟨i, hd, hf⟩
  rw [getLsbD_drop, hf] at hd
  simp at hd

/-- Dropping a flag never makes a test succeed. -/
theorem Has.of_drop {w f mask : BitVec n} (h : Has (drop w f) mask) : Has w mask := by
  rw [has_iff_exists] at h ⊢
  obtain ⟨i, hd, hm⟩ := h
  rw [getLsbD_drop, Bool.and_eq_true] at hd
  exact ⟨i, hd.1, hm⟩

/-- Dropping a flag is not seen by the test of a disjoint mask. -/
theorem has_drop_of_disjoint {w f mask : BitVec n} (h : f &&& mask = 0) :
    Has (drop w f) mask ↔ Has w mask := by
  refine ⟨Has.of_drop, fun hw => ?_⟩
  rw [has_iff_exists] at hw ⊢
  obtain ⟨i, hwi, hm⟩ := hw
  have hf : f.getLsbD i = false := by
    have hfm : (f &&& mask).getLsbD i = false := by rw [h]; simp
    simpa [hm] using hfm
  exact ⟨i, by rw [getLsbD_drop, hwi, hf]; rfl, hm⟩

end BitFlags
