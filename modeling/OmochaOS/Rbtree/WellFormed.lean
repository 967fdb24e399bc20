import Mathlib.Data.Set.Insert
import OmochaOS.Rbtree.Shape

/-!
# Well-formed trees and the search

`WellFormed h` is what `lib/rbtree.c` works on: linked nodes in the order of their keys, with the
colours of a red-black tree.  The nodes of the tree are those that links lead to (`InTree`).
-/

namespace OmochaOS.Rbtree

open RedBlack RedBlack.ColorTree

variable {h h' : RbTree} {k : List (Frame ℕ)} {t u : ColorTree ℕ} {s : Side} {c : Color} {x y : ℕ}

/-- A node that can be reached from the root. -/
inductive InTree (h : RbTree) : ℕ → Prop
  | root (hne : h.root ≠ 0) : InTree h h.root
  | child {x : ℕ} (s : Side) (hx : InTree h x) (hne : h.child s x ≠ 0) : InTree h (h.child s x)

/-- The links are those of `t`, the keys are in search order, and the colours are in balance. -/
structure IsTree (h : RbTree) (t : ColorTree ℕ) : Prop where
  root : h.root = addr t
  hangs : Hangs h 0 t
  inside : Inside h t
  ordered : t.toList.Pairwise fun x y => h.key x < h.key y
  valid : Valid t

def WellFormed (h : RbTree) : Prop := ∃ t, IsTree h t

/-- The keys in the tree. -/
def keySet (h : RbTree) : Set ℕ := {key | ∃ x, InTree h x ∧ h.key x = key}

theorem Inside.child_mem (ht : Inside h t) (hx : x ∈ t.toList) (hne : h.child s x ≠ 0) :
    h.child s x ∈ t.toList := by
  induction t with
  | nil => cases hx
  | node c l z r ihl ihr =>
    obtain ⟨⟨-, -, hl, hr⟩, ⟨-, hlin⟩, -, hrin⟩ := ht
    rw [toList, List.mem_append, List.mem_cons] at hx ⊢
    rcases hx with hx | rfl | hx
    · exact Or.inl (ihl hlin hx)
    · cases s with
      | left =>
        rw [hl] at hne ⊢
        exact Or.inl (addr_mem fun hnil => hne (hlin.addr_eq_zero.mpr hnil))
      | right =>
        rw [hr] at hne ⊢
        exact Or.inr (Or.inr (addr_mem fun hnil => hne (hrin.addr_eq_zero.mpr hnil)))
    · exact Or.inr (Or.inr (ihr hrin hx))

theorem Inside.inTree (ht : Inside h t) (hroot : t ≠ .nil → InTree h (addr t)) (hy : y ∈ t.toList) :
    InTree h y := by
  induction t with
  | nil => cases hy
  | node c l z r ihl ihr =>
    obtain ⟨⟨-, -, hl, hr⟩, ⟨-, hlin⟩, -, hrin⟩ := ht
    have hz : InTree h z := hroot node_ne_nil
    rw [toList, List.mem_append, List.mem_cons] at hy
    rcases hy with hy | rfl | hy
    · refine ihl hlin (fun hne => ?_) hy
      have hchild := InTree.child .left hz (by rw [hl]; exact (hlin.isNode hne).ne)
      rwa [hl] at hchild
    · exact hz
    · refine ihr hrin (fun hne => ?_) hy
      have hchild := InTree.child .right hz (by rw [hr]; exact (hrin.isNode hne).ne)
      rwa [hr] at hchild

namespace IsTree

variable (ht : IsTree h t)
include ht

theorem inTree_iff : InTree h y ↔ y ∈ t.toList := by
  constructor
  · intro hy
    induction hy with
    | root hne =>
      rw [ht.root] at hne ⊢
      exact addr_mem fun hnil => hne (ht.inside.addr_eq_zero.mpr hnil)
    | child s _ hne ih => exact ht.inside.child_mem ih hne
  · intro hy
    refine ht.inside.inTree (fun hne => ?_) hy
    rw [← ht.root]
    exact InTree.root (by rw [ht.root]; exact (ht.inside.isNode hne).ne)

theorem mem_keySet {key : ℕ} : key ∈ keySet h ↔ ∃ x ∈ t.toList, h.key x = key := by
  simp only [keySet, Set.mem_ofPred_eq, ht.inTree_iff]

theorem nodup : t.toList.Nodup :=
  ht.ordered.imp fun hlt heq => by
    rw [heq] at hlt
    exact Nat.lt_irrefl _ hlt

theorem located : Located h [] t :=
  ⟨trivial, ht.root, ht.hangs, ht.inside, by rw [rest, List.append_nil]; exact ht.nodup⟩

end IsTree

/-- Only the nodes of the tree matter. -/
theorem IsTree.congr (ht : IsTree h t) (hnode : ∀ y ∈ t.toList, h'.node y = h.node y)
    (hroot : h'.root = h.root) : IsTree h' t where
  root := hroot.trans ht.root
  hangs := ht.hangs.congr hnode
  inside := ht.inside.congr hnode
  ordered := ht.ordered.imp_of_mem fun hx hy hlt => by
    rw [key_congr (hnode _ hx), key_congr (hnode _ hy)]
    exact hlt
  valid := ht.valid

theorem Located.isTree (hL : Located h [] t) (hordered : t.toList.Pairwise fun x y => h.key x < h.key y)
    (hvalid : Valid t) : IsTree h t :=
  ⟨hL.hole, hL.hangs, hL.inside, hordered, hvalid⟩

/-- **`rb_search`** ends at the node with the key, or at NULL. -/
theorem rbSearch_spec {fuel : ℕ} (key : ℕ) (ht : Inside h t)
    (hordered : t.toList.Pairwise fun x y => h.key x < h.key y) (hfuel : t.toList.length < fuel) :
    (∃ x ∈ t.toList, h.key x = key ∧ rbSearch fuel h (addr t) key = .ok x) ∨
      (∀ x ∈ t.toList, h.key x ≠ key) ∧ rbSearch fuel h (addr t) key = .ok 0 := by
  obtain ⟨fuel, rfl⟩ : ∃ m, fuel = m + 1 := ⟨fuel - 1, by omega⟩
  induction t generalizing fuel with
  | nil => exact Or.inr ⟨nofun, by rw [rbSearch, addr, if_pos rfl]⟩
  | node c l z r ihl ihr =>
    obtain ⟨⟨hz, -, hl, hr⟩, ⟨-, hlin⟩, -, hrin⟩ := ht
    rw [toList, List.length_append, List.length_cons] at hfuel
    obtain ⟨fuel, rfl⟩ : ∃ m, fuel = m + 1 := ⟨fuel - 1, by omega⟩
    rw [toList, List.pairwise_append, List.pairwise_cons] at hordered
    obtain ⟨hlord, ⟨hzr, hrord⟩, hlr⟩ := hordered
    rw [rbSearch, addr, if_neg hz.ne]
    by_cases hkey : h.key z = key
    · rw [if_pos hkey]
      exact Or.inl ⟨z, by simp [toList], hkey, rfl⟩
    · rw [if_neg hkey]
      by_cases hlt : key < h.key z
      · rw [if_pos hlt, hl]
        rcases ihl hlin hlord fuel (by omega) with ⟨x, hx, hfound⟩ | ⟨hnone, hnull⟩
        · exact Or.inl ⟨x, by simp [toList, hx], hfound⟩
        · refine Or.inr ⟨fun x hx => ?_, hnull⟩
          rw [toList, List.mem_append, List.mem_cons] at hx
          rcases hx with hx | rfl | hx
          · exact hnone x hx
          · exact hkey
          · have := hzr x hx
            omega
      · rw [if_neg hlt, hr]
        rcases ihr hrin hrord fuel (by omega) with ⟨x, hx, hfound⟩ | ⟨hnone, hnull⟩
        · exact Or.inl ⟨x, by simp [toList, hx], hfound⟩
        · refine Or.inr ⟨fun x hx => ?_, hnull⟩
          rw [toList, List.mem_append, List.mem_cons] at hx
          rcases hx with hx | rfl | hx
          · have := hlr x hx z (List.mem_cons_self ..)
            omega
          · exact hkey
          · exact hnone x hx

end OmochaOS.Rbtree
