import Mathlib.Data.List.Nodup
import Mathlib.Order.Lattice
import Mathlib.Tactic.Common

/-!
# Insertion into a stably sorted list

A list is the stable sort of another one by a key when it has the same elements, by their keys, and those
with one key in the order that they had.

`IsStableSort.insert_iff` — a new last element has one place in the stable sort: behind all keys up to its
own, before the larger ones.
-/

namespace StableInsertion

variable {α κ : Type*} [LinearOrder κ] {key : α → κ} {input l l₁ l₂ : List α} {x : α} {v : κ}

/-- The list `result` is the stable sort of `input`. -/
structure IsStableSort (key : α → κ) (input result : List α) : Prop where
  perm : result.Perm input
  sorted : result.Pairwise fun a b => key a ≤ key b
  stable : ∀ v, result.filter (fun a => key a = v) = input.filter fun a => key a = v

theorem filter_eq_nil (h : ∀ a ∈ l, key a ≠ v) : l.filter (fun a => key a = v) = [] := by
  apply List.filter_eq_nil_iff.mpr
  intro a ha
  simpa using h a ha

theorem filter_insert_of_ne (h : key x ≠ v) :
    (l₁ ++ x :: l₂).filter (fun a => key a = v) = (l₁ ++ l₂).filter fun a => key a = v := by
  rw [List.filter_append, List.filter_append, List.filter_cons_of_neg (by simpa using h)]

theorem filter_insert_self :
    (l₁ ++ x :: l₂).filter (fun a => key a = key x) =
      l₁.filter (fun a => key a = key x) ++ x :: l₂.filter fun a => key a = key x := by
  rw [List.filter_append, List.filter_cons_of_pos (by simp)]

theorem filter_append_self :
    (l ++ [x]).filter (fun a => key a = key x) = l.filter (fun a => key a = key x) ++ [x] := by
  rw [filter_insert_self, List.filter_nil]

theorem IsStableSort.insert (h : IsStableSort key input (l₁ ++ l₂)) (hlow : ∀ a ∈ l₁, key a ≤ key x)
    (hhigh : ∀ b ∈ l₂, key x < key b) : IsStableSort key (input ++ [x]) (l₁ ++ x :: l₂) where
  perm := (List.perm_middle.trans (h.perm.cons x)).trans (List.perm_append_singleton x input).symm
  sorted := by
    obtain ⟨hsorted₁, hsorted₂, hacross⟩ := List.pairwise_append.mp h.sorted
    refine List.pairwise_append.mpr ⟨hsorted₁, List.pairwise_cons.mpr ⟨?_, hsorted₂⟩, ?_⟩
    · intro b hb
      exact le_of_lt (hhigh b hb)
    · intro a ha b hb
      rcases List.mem_cons.mp hb with rfl | hb
      · exact hlow a ha
      · exact hacross a ha b hb
  stable := by
    intro v
    by_cases hv : key x = v
    · subst hv
      have hnil : l₂.filter (fun a => key a = key x) = [] :=
        filter_eq_nil fun b hb => ne_of_gt (hhigh b hb)
      have hstable := h.stable (key x)
      rw [List.filter_append, hnil, List.append_nil] at hstable
      rw [filter_insert_self, filter_append_self, hnil, hstable]
    · rw [filter_insert_of_ne hv, h.stable v, filter_insert_of_ne hv, List.append_nil]

/-- Of two elements with one key the later one is not in front. -/
theorem IsStableSort.lt_of_insert (h : IsStableSort key (input ++ [x]) (l₁ ++ x :: l₂)) (hnew : x ∉ input)
    (b : α) (hb : b ∈ l₂) : key x < key b := by
  obtain ⟨-, hsorted, -⟩ := List.pairwise_append.mp h.sorted
  refine lt_of_le_of_ne ((List.pairwise_cons.mp hsorted).1 b hb) ?_
  intro heq
  have hstable := h.stable (key x)
  rw [filter_insert_self, filter_append_self] at hstable
  have hmem : b ∈ l₂.filter (fun a => key a = key x) := List.mem_filter.mpr ⟨hb, by simpa using heq.symm⟩
  -- the last element with this key is `x`, so it is behind itself
  obtain ⟨r, c, hlast⟩ := List.eq_nil_or_concat (l₂.filter fun a => key a = key x) |>.resolve_left
    (List.ne_nil_of_mem hmem)
  rw [hlast, List.concat_eq_append, ← List.cons_append, ← List.append_assoc] at hstable
  obtain ⟨hinit, -⟩ := List.append_inj' hstable rfl
  have hx : x ∈ input.filter (fun a => key a = key x) := by
    rw [← hinit]
    exact List.mem_append_right _ List.mem_cons_self
  exact hnew (List.mem_filter.mp hx).1

theorem IsStableSort.of_insert (h : IsStableSort key (input ++ [x]) (l₁ ++ x :: l₂)) (hnew : x ∉ input) :
    IsStableSort key input (l₁ ++ l₂) where
  perm := (List.perm_middle.symm.trans (h.perm.trans (List.perm_append_singleton x input))).cons_inv
  sorted := h.sorted.sublist ((List.sublist_cons_self x l₂).append_left l₁)
  stable := by
    intro v
    have hstable := h.stable v
    by_cases hv : key x = v
    · subst hv
      have hnil : l₂.filter (fun a => key a = key x) = [] :=
        filter_eq_nil fun b hb => ne_of_gt (h.lt_of_insert hnew b hb)
      rw [filter_insert_self, filter_append_self, hnil] at hstable
      rw [List.filter_append, hnil, List.append_nil]
      exact List.append_cancel_right hstable
    · rw [filter_insert_of_ne hv, filter_insert_of_ne hv, List.append_nil] at hstable
      exact hstable

/-- **The place of a new element.** -/
theorem IsStableSort.insert_iff (hnew : x ∉ input) : IsStableSort key (input ++ [x]) (l₁ ++ x :: l₂) ↔
    IsStableSort key input (l₁ ++ l₂) ∧ (∀ a ∈ l₁, key a ≤ key x) ∧ ∀ b ∈ l₂, key x < key b := by
  constructor
  · intro h
    refine ⟨h.of_insert hnew, fun a ha => ?_, h.lt_of_insert hnew⟩
    exact (List.pairwise_append.mp h.sorted).2.2 a ha x List.mem_cons_self
  · rintro ⟨h, hlow, hhigh⟩
    exact h.insert hlow hhigh

end StableInsertion
