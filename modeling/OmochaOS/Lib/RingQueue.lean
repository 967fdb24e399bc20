import Mathlib.Data.List.Basic
import Mathlib.Data.Nat.ModEq
import Mathlib.Logic.Function.Basic
import Mathlib.Tactic.Common

/-!
# Queues in a ring of places

A queue of bounded length stands in a ring of `n` places: its first element at `tail`, the next ones behind
it, and from the last place on again at the first.  `Holds` says which places hold which elements, and the
lemmas say what taking the first element and adding one behind the last do to it.
-/

namespace RingQueue

variable {α : Type*} {n tail i : ℕ} {buf : ℕ → α} {l : List α} {a : α}

/-- The place behind `i` in a ring of `n`. -/
def next (n i : ℕ) : ℕ := if i + 1 = n then 0 else i + 1

theorem next_eq_mod (hi : i < n) : next n i = (i + 1) % n := by
  unfold next
  split
  · next h => rw [h, Nat.mod_self]
  · next h => exact (Nat.mod_eq_of_lt (by omega)).symm

theorem next_lt (hi : i < n) : next n i < n := by
  rw [next_eq_mod hi]
  exact Nat.mod_lt _ (by omega)

theorem next_add_mod (hi : i < n) (j : ℕ) : (next n i + j) % n = (i + (j + 1)) % n := by
  rw [next_eq_mod hi, Nat.mod_add_mod, Nat.add_assoc, Nat.add_comm 1 j]

/-- The elements of `l` stand in the ring from `tail` on. -/
structure Holds (n : ℕ) (buf : ℕ → α) (tail : ℕ) (l : List α) : Prop where
  tail_lt : tail < n
  length_le : l.length ≤ n
  place : ∀ i (hi : i < l.length), buf ((tail + i) % n) = l[i]

theorem Holds.nil (htail : tail < n) : Holds n buf tail [] :=
  ⟨htail, Nat.zero_le n, fun _ hi => absurd hi (Nat.not_lt_zero _)⟩

theorem Holds.first (h : Holds n buf tail (a :: l)) : buf tail = a := by
  have hplace := h.place 0 (Nat.zero_lt_succ _)
  rw [Nat.add_zero, Nat.mod_eq_of_lt h.tail_lt] at hplace
  exact hplace

/-- The first element is taken. -/
theorem Holds.pop (h : Holds n buf tail (a :: l)) : Holds n buf (next n tail) l := by
  refine ⟨next_lt h.tail_lt, Nat.le_of_succ_le h.length_le, fun i hi => ?_⟩
  rw [next_add_mod h.tail_lt]
  exact h.place (i + 1) (Nat.succ_lt_succ hi)

/-- Two places of a ring that are less than `n` apart are different. -/
theorem add_mod_ne {j : ℕ} (hij : i < j) (hj : j < n) : (tail + i) % n ≠ (tail + j) % n := by
  intro heq
  have hmod : Nat.ModEq n i j := Nat.ModEq.add_left_cancel' tail heq
  have hij' := hmod.eq_of_lt_of_lt (Nat.lt_trans hij hj) hj
  exact absurd hij' (Nat.ne_of_lt hij)

/-- An element is added behind the last. -/
theorem Holds.push (h : Holds n buf tail l) (hroom : l.length < n) :
    Holds n (Function.update buf ((tail + l.length) % n) a) tail (l ++ [a]) := by
  refine ⟨h.tail_lt, ?_, fun i hi => ?_⟩
  · rw [List.length_append, List.length_singleton]
    exact hroom
  · by_cases hlast : i = l.length
    · subst hlast
      rw [Function.update_self, List.getElem_concat_length rfl]
    · have hlt : i < l.length := by
        rw [List.length_append, List.length_singleton] at hi
        omega
      rw [Function.update_of_ne (add_mod_ne hlt hroom), List.getElem_append_left hlt]
      exact h.place i hlt

/-- In a full queue the first element makes room. -/
def offer (n : ℕ) (l : List α) (a : α) : List α := if n ≤ l.length then l.tail ++ [a] else l ++ [a]

end RingQueue
