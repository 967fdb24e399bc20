import Mathlib.Algebra.Order.Ring.Nat
import Mathlib.Data.Nat.Find
import Mathlib.Tactic.Common

/-!
# Dyadic blocks

The block of order `k` and index `j` has the numbers `x` with `x / 2 ^ k = j`: two blocks of an order
make one of the next, and blocks that meet are nested.  A set of blocks is a relation `F` of order and
index.

* `Covers F x` — `x` is in a block of `F`;
* `Separate F` — no number is in two blocks of `F`;
* `Lone top F` — of two buddies below the order `top` at most one is in `F`;
* `take` and `put` — one block less, one block more.

The last results are what buddy systems are made for: a separate set without two buddies is determined
by what it covers (`Lone.unique`), and if it covers everything it has blocks of the greatest order only
(`Lone.order_eq_top`).
-/

namespace DyadicBlocks

variable {F : ℕ → ℕ → Prop} {top k l j i x : ℕ}

/-- The other half of the block of the next order. -/
def buddy (j : ℕ) : ℕ := if j % 2 = 0 then j + 1 else j - 1

theorem buddy_div (j : ℕ) : buddy j / 2 = j / 2 := by
  rw [buddy]
  split <;> omega

theorem buddy_ne (j : ℕ) : buddy j ≠ j := by
  rw [buddy]
  split <;> omega

/-- The two blocks of a pair. -/
theorem div_two_eq_iff : i / 2 = j / 2 ↔ i = j ∨ i = buddy j := by
  rw [buddy]
  split <;> omega

def Covers (F : ℕ → ℕ → Prop) (x : ℕ) : Prop := ∃ k, F k (x / 2 ^ k)

def Separate (F : ℕ → ℕ → Prop) : Prop :=
  ∀ x k l, F k (x / 2 ^ k) → F l (x / 2 ^ l) → k = l

def Lone (top : ℕ) (F : ℕ → ℕ → Prop) : Prop := ∀ k j, k < top → F k j → ¬ F k (buddy j)

/-- `F` without one block. -/
def take (F : ℕ → ℕ → Prop) (k j : ℕ) : ℕ → ℕ → Prop := fun l i => F l i ∧ ¬ (l = k ∧ i = j)

/-- `F` with one block more. -/
def put (F : ℕ → ℕ → Prop) (k j : ℕ) : ℕ → ℕ → Prop := fun l i => F l i ∨ (l = k ∧ i = j)

/-! ### Blocks and numbers -/

/-- The first number of a block is in it. -/
theorem mul_pow_div (k j : ℕ) : j * 2 ^ k / 2 ^ k = j := Nat.mul_div_cancel j (Nat.two_pow_pos k)

theorem div_pow_succ (x k : ℕ) : x / 2 ^ (k + 1) = x / 2 ^ k / 2 := by
  rw [Nat.pow_succ, Nat.div_div_eq_div_mul]

/-- The block of a greater order depends on the block of the smaller one only. -/
theorem div_pow_eq_of_le {y : ℕ} (hkl : k ≤ l) (h : x / 2 ^ k = y / 2 ^ k) :
    x / 2 ^ l = y / 2 ^ l := by
  obtain ⟨d, rfl⟩ := Nat.exists_eq_add_of_le hkl
  rw [Nat.pow_add, ← Nat.div_div_eq_div_mul, ← Nat.div_div_eq_div_mul, h]

theorem covers_of_mem (hF : F k j) (hx : x / 2 ^ k = j) : Covers F x := ⟨k, hx ▸ hF⟩

/-! ### One block less -/

theorem Separate.take (h : Separate F) : Separate (take F k j) := fun x a b ha hb =>
  h x a b ha.1 hb.1

theorem Lone.take (h : Lone top F) : Lone top (take F k j) := fun a b ha hab hbuddy =>
  h a b ha hab.1 hbuddy.1

theorem Separate.covers_take (h : Separate F) (hF : F k j) :
    Covers (DyadicBlocks.take F k j) x ↔ Covers F x ∧ x / 2 ^ k ≠ j := by
  constructor
  · rintro ⟨l, hl, hne⟩
    refine ⟨⟨l, hl⟩, fun hx => ?_⟩
    have hkl : k = l := h x k l (hx ▸ hF) hl
    subst hkl
    exact hne ⟨rfl, hx⟩
  · rintro ⟨⟨l, hl⟩, hne⟩
    refine ⟨l, hl, ?_⟩
    rintro ⟨rfl, hx⟩
    exact hne hx

/-! ### One block more -/

theorem covers_put : Covers (put F k j) x ↔ Covers F x ∨ x / 2 ^ k = j := by
  constructor
  · rintro ⟨l, hl | ⟨rfl, hx⟩⟩
    · exact Or.inl ⟨l, hl⟩
    · exact Or.inr hx
  · rintro (⟨l, hl⟩ | hx)
    · exact ⟨l, Or.inl hl⟩
    · exact ⟨k, Or.inr ⟨rfl, hx⟩⟩

theorem Separate.put (h : Separate F) (hfree : ∀ x, x / 2 ^ k = j → ¬ Covers F x) :
    Separate (put F k j) := by
  intro x a b ha hb
  rcases ha with ha | ⟨rfl, ha⟩
  · rcases hb with hb | ⟨rfl, hb⟩
    · exact h x a b ha hb
    · exact absurd ⟨a, ha⟩ (hfree x hb)
  · rcases hb with hb | ⟨rfl, hb⟩
    · exact absurd ⟨b, hb⟩ (hfree x ha)
    · rfl

theorem Lone.put (h : Lone top F) (hbuddy : k < top → ¬ F k (buddy j)) : Lone top (put F k j) := by
  intro a b ha hab hab'
  rcases hab with hab | ⟨rfl, rfl⟩
  · rcases hab' with hab' | ⟨rfl, hb⟩
    · exact h a b ha hab hab'
    · -- `b` is the buddy of the new block
      have hj : b = buddy j := by
        have hdiv : b / 2 = j / 2 := by rw [← hb, buddy_div]
        rcases div_two_eq_iff.mp hdiv with rfl | hj
        · exact absurd hb (buddy_ne b)
        · exact hj
      exact hbuddy ha (hj ▸ hab)
  · rcases hab' with hab' | ⟨-, hb⟩
    · exact hbuddy ha hab'
    · exact buddy_ne b hb

/-! ### Coalescing -/

/-- **Nothing smaller inside.**  When every number of a block is covered and no two buddies are there,
no block of the set lies strictly inside it. -/
theorem Lone.not_inside (hlone : Lone top F) (hsep : Separate F) (hl : l ≤ top)
    (hall : ∀ x, x / 2 ^ l = i → Covers F x) (hF : F k j) (hkl : k < l) : j * 2 ^ k / 2 ^ l ≠ i := by
  intro hinside
  -- a block of the least order
  have hex : ∃ k, k < l ∧ ∃ j, F k j ∧ j * 2 ^ k / 2 ^ l = i := ⟨k, hkl, j, hF, hinside⟩
  classical
  obtain ⟨hml, n, hn, hni⟩ := Nat.find_spec hex
  have hmin : ∀ k' < Nat.find hex, ∀ j', F k' j' → j' * 2 ^ k' / 2 ^ l ≠ i := by
    intro k' hk' j' hF' hin
    exact Nat.find_min hex hk' ⟨Nat.lt_trans hk' hml, j', hF', hin⟩
  generalize Nat.find hex = m at *
  -- the first number of its buddy is covered, but by no block
  have hpair : ∀ b, m < b → n * 2 ^ m / 2 ^ b = buddy n * 2 ^ m / 2 ^ b := by
    intro b hb
    apply div_pow_eq_of_le (show m + 1 ≤ b from hb)
    rw [div_pow_succ, div_pow_succ, mul_pow_div, mul_pow_div, buddy_div]
  have hin : buddy n * 2 ^ m / 2 ^ l = i := by
    rw [← hpair l hml]
    exact hni
  obtain ⟨b, hb⟩ := hall _ hin
  rcases Nat.lt_trichotomy b m with hbm | rfl | hmb
  · apply hmin b hbm _ hb
    have hsame : buddy n * 2 ^ m / 2 ^ b * 2 ^ b / 2 ^ l = buddy n * 2 ^ m / 2 ^ l :=
      div_pow_eq_of_le (Nat.le_of_lt (Nat.lt_trans hbm hml)) (mul_pow_div b _)
    rw [hsame]
    exact hin
  · rw [mul_pow_div] at hb
    exact hlone b n (Nat.lt_of_lt_of_le hml hl) hn hb
  · have hmb' : m = b := hsep (n * 2 ^ m) m b (by rw [mul_pow_div]; exact hn) (hpair b hmb ▸ hb)
    exact absurd hmb' (Nat.ne_of_lt hmb)

/-- **Only greatest blocks.**  When every number below a multiple of `2 ^ top` is covered and no two
buddies are there, all blocks have the order `top`. -/
theorem Lone.order_eq_top {blocks : ℕ} (hlone : Lone top F) (hsep : Separate F)
    (hle : ∀ k j, F k j → k ≤ top) (hin : ∀ k j, F k j → j * 2 ^ k < blocks * 2 ^ top)
    (hall : ∀ x, x < blocks * 2 ^ top → Covers F x) (hF : F k j) : k = top := by
  by_contra hne
  have hlt : k < top := lt_of_le_of_ne (hle k j hF) hne
  have hpos := Nat.two_pow_pos top
  refine hlone.not_inside hsep (Nat.le_refl top) (fun x hx => hall x ?_) hF hlt rfl
  have hblock : x / 2 ^ top < blocks := by
    rw [hx, Nat.div_lt_iff_lt_mul hpos]
    exact hin k j hF
  rw [Nat.div_lt_iff_lt_mul hpos] at hblock
  exact hblock

/-- Of two sets that cover the same, the one without buddies has every block of the other one. -/
theorem Lone.mem_of_covers {F' : ℕ → ℕ → Prop} (hlone : Lone top F) (hlone' : Lone top F')
    (hsep : Separate F) (hsep' : Separate F') (hle : ∀ k j, F k j → k ≤ top)
    (hle' : ∀ k j, F' k j → k ≤ top) (hcovers : ∀ x, Covers F x ↔ Covers F' x) (hF : F k j) :
    F' k j := by
  obtain ⟨l, hl⟩ := (hcovers _).mp (covers_of_mem hF (mul_pow_div k j))
  rcases Nat.lt_trichotomy k l with hkl | rfl | hlk
  · -- inside a block of the other set
    refine absurd rfl (hlone.not_inside hsep (hle' l _ hl) (fun x hx => ?_) hF hkl)
    exact (hcovers x).mpr (covers_of_mem hl hx)
  · rw [mul_pow_div] at hl
    exact hl
  · -- a block of the other set inside of it
    refine absurd ?_ (hlone'.not_inside hsep' (hle k j hF)
      (fun x hx => (hcovers x).mp (covers_of_mem hF hx)) hl hlk)
    have hsame : j * 2 ^ k / 2 ^ l * 2 ^ l / 2 ^ k = j * 2 ^ k / 2 ^ k :=
      div_pow_eq_of_le (Nat.le_of_lt hlk) (mul_pow_div l _)
    rw [hsame, mul_pow_div]

/-- **Uniqueness.**  A set of blocks without buddies is determined by what it covers. -/
theorem Lone.unique {F' : ℕ → ℕ → Prop} (hlone : Lone top F) (hlone' : Lone top F')
    (hsep : Separate F) (hsep' : Separate F') (hle : ∀ k j, F k j → k ≤ top)
    (hle' : ∀ k j, F' k j → k ≤ top) (hcovers : ∀ x, Covers F x ↔ Covers F' x) : F = F' := by
  funext k j
  apply propext
  constructor
  · exact hlone.mem_of_covers hlone' hsep hsep' hle hle' hcovers
  · exact hlone'.mem_of_covers hlone hsep' hsep hle' hle fun x => (hcovers x).symm

end DyadicBlocks
