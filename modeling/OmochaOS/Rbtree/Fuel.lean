import OmochaOS.Rbtree.Nodes

/-!
# Fuel

More fuel does not change what a function ends with (`Refines`), so that what it returns is a matter of
one amount (`Returns`).
-/

namespace OmochaOS.Rbtree

open RedBlack

variable {β γ : Type} {e e' : Except Fault β} {fuel fuel' : ℕ}

/-- The function ends with `v`, given enough fuel. -/
def Returns (e : ℕ → Except Fault β) (v : β) : Prop :=
  ∃ bound, ∀ fuel, bound ≤ fuel → e fuel = .ok v

theorem Returns.unique {e : ℕ → Except Fault β} {v w : β} (hv : Returns e v) (hw : Returns e w) :
    v = w := by
  obtain ⟨b, hb⟩ := hv
  obtain ⟨c, hc⟩ := hw
  have h := (hb (b + c) (by omega)).symm.trans (hc (b + c) (by omega))
  cases h
  rfl

theorem Returns.of_add {e : ℕ → Except Fault β} {v : β} (c : ℕ)
    (h : ∀ fuel, e (fuel + c) = .ok v) : Returns e v := by
  refine ⟨c, fun fuel hc => ?_⟩
  obtain ⟨d, rfl⟩ : ∃ d, fuel = d + c := ⟨fuel - c, by omega⟩
  exact h d

/-- The first computation runs out of fuel, or it is the second one. -/
def Refines (e e' : Except Fault β) : Prop := e = .error .fuel ∨ e = e'

theorem Refines.refl (e : Except Fault β) : Refines e e := Or.inr rfl

theorem Refines.outOfFuel (e' : Except Fault β) : Refines (.error .fuel) e' := Or.inl rfl

theorem Refines.bind {g g' : β → Except Fault γ} (he : Refines e e') (hg : ∀ v, Refines (g v) (g' v)) :
    Refines (e >>= g) (e' >>= g') := by
  rcases he with rfl | rfl
  · exact Or.inl rfl
  · cases e with
    | error fault => exact Or.inr rfl
    | ok v => exact hg v

theorem Refines.ite {p : Prop} [Decidable p] {a a' b b' : Except Fault β} (ha : Refines a a')
    (hb : Refines b b') : Refines (if p then a else b) (if p then a' else b') := by
  split
  · exact ha
  · exact hb

theorem Refines.returns {e : ℕ → Except Fault β} {v : β}
    (hmono : ∀ m n, m ≤ n → Refines (e m) (e n)) (hv : e fuel = .ok v) : Returns e v := by
  refine ⟨fuel, fun n hn => ?_⟩
  rcases hmono fuel n hn with hfuel | heq
  · rw [hv] at hfuel
    cases hfuel
  · rw [← heq, hv]

theorem rbSearch_refines (hle : fuel ≤ fuel') (h : RbTree) (x key : ℕ) :
    Refines (rbSearch fuel h x key) (rbSearch fuel' h x key) := by
  induction fuel generalizing fuel' x with
  | zero => exact Refines.outOfFuel _
  | succ fuel ih =>
    obtain ⟨m, rfl⟩ : ∃ m, fuel' = m + 1 := ⟨fuel' - 1, by omega⟩
    have hle := Nat.le_of_succ_le_succ hle
    exact (Refines.refl _).ite ((Refines.refl _).ite ((ih hle _).ite (ih hle _)))

theorem rbInsertFixup_refines (hle : fuel ≤ fuel') (h : RbTree) (n : ℕ) :
    Refines (rbInsertFixup fuel h n) (rbInsertFixup fuel' h n) := by
  induction fuel generalizing fuel' h n with
  | zero => exact Refines.outOfFuel _
  | succ fuel ih =>
    obtain ⟨m, rfl⟩ : ∃ m, fuel' = m + 1 := ⟨fuel' - 1, by omega⟩
    have hle := Nat.le_of_succ_le_succ hle
    refine (Refines.refl _).bind fun parent => (Refines.refl _).ite ((Refines.refl _).ite ?_)
    exact (Refines.refl _).bind fun right => (ih hle _ _).ite (Refines.refl _)

theorem rbInsertBst_refines (hle : fuel ≤ fuel') (h : RbTree) (n x : ℕ) :
    Refines (rbInsertBst fuel h n x) (rbInsertBst fuel' h n x) := by
  induction fuel generalizing fuel' x with
  | zero => exact Refines.outOfFuel _
  | succ fuel ih =>
    obtain ⟨m, rfl⟩ : ∃ m, fuel' = m + 1 := ⟨fuel' - 1, by omega⟩
    have hle := Nat.le_of_succ_le_succ hle
    refine (Refines.refl _).ite ((Refines.refl _).ite (Refines.ite ?_ ?_))
    · exact (Refines.refl _).ite (ih hle _)
    · exact (Refines.refl _).ite (ih hle _)

theorem rbInsertEnd_refines (hle : fuel ≤ fuel') (h : RbTree) (n x : ℕ) :
    Refines (rbInsertEnd fuel h n x) (rbInsertEnd fuel' h n x) :=
  (Refines.refl _).bind fun h' => (rbInsertFixup_refines hle h' n).bind fun _ => Refines.refl _

theorem rbInsert_refines (hle : fuel ≤ fuel') (h : RbTree) (n : ℕ) :
    Refines (rbInsert fuel h n) (rbInsert fuel' h n) := by
  refine (Refines.refl _).bind fun h' => (rbInsertEnd_refines hle _ n 0).ite ?_
  refine (rbInsertBst_refines hle h' n h'.root).bind fun place => ?_
  cases place with
  | none => exact Refines.refl _
  | some p => exact rbInsertEnd_refines hle p.1 n p.2

theorem leftmost_refines (hle : fuel ≤ fuel') (h : RbTree) (x : ℕ) :
    Refines (leftmost fuel h x) (leftmost fuel' h x) := by
  induction fuel generalizing fuel' x with
  | zero => exact Refines.outOfFuel _
  | succ fuel ih =>
    obtain ⟨m, rfl⟩ : ∃ m, fuel' = m + 1 := ⟨fuel' - 1, by omega⟩
    have hle := Nat.le_of_succ_le_succ hle
    exact (Refines.refl _).bind fun l => (Refines.refl _).ite (ih hle l)

theorem firstAbove_refines (hle : fuel ≤ fuel') (h : RbTree) (n p : ℕ) :
    Refines (firstAbove fuel h n p) (firstAbove fuel' h n p) := by
  induction fuel generalizing fuel' n p with
  | zero => exact Refines.outOfFuel _
  | succ fuel ih =>
    obtain ⟨m, rfl⟩ : ∃ m, fuel' = m + 1 := ⟨fuel' - 1, by omega⟩
    have hle := Nat.le_of_succ_le_succ hle
    exact (ih hle p (h.parent p)).ite (Refines.refl _)

theorem rbSucc_refines (hle : fuel ≤ fuel') (h : RbTree) (n : ℕ) :
    Refines (rbSucc fuel h n) (rbSucc fuel' h n) :=
  (Refines.refl _).bind fun r =>
    (leftmost_refines hle h r).ite (firstAbove_refines hle h n (h.parent n))

theorem rbRemoveRound_refines {loop loop' : RbTree → ℕ → ℕ → Except Fault RbTree}
    (hloop : ∀ h n p, Refines (loop h n p) (loop' h n p)) (s : Side) (h : RbTree) (parent : ℕ) :
    Refines (rbRemoveRound s h parent loop) (rbRemoveRound s h parent loop') :=
  (Refines.refl _).bind fun _ => (Refines.refl _).bind fun _ => (hloop _ _ _).ite (Refines.refl _)

theorem rbRemoveFixup_refines (hle : fuel ≤ fuel') (h : RbTree) (n parent : ℕ) :
    Refines (rbRemoveFixup fuel h n parent) (rbRemoveFixup fuel' h n parent) := by
  induction fuel generalizing fuel' h n parent with
  | zero => exact Refines.outOfFuel _
  | succ fuel ih =>
    obtain ⟨m, rfl⟩ : ∃ m, fuel' = m + 1 := ⟨fuel' - 1, by omega⟩
    have hle := Nat.le_of_succ_le_succ hle
    refine Refines.ite ((Refines.refl _).bind fun left => Refines.ite ?_ ?_) (Refines.refl _)
    · exact rbRemoveRound_refines (fun h n p => ih hle h n p) _ _ _
    · exact rbRemoveRound_refines (fun h n p => ih hle h n p) _ _ _

theorem rbRemove_refines (hle : fuel ≤ fuel') (h : RbTree) (n : ℕ) :
    Refines (rbRemove fuel h n) (rbRemove fuel' h n) := by
  refine (Refines.refl _).bind fun color => Refines.ite ?_ (Refines.ite ?_ ?_)
  · exact (Refines.refl _).bind fun h' => (rbRemoveFixup_refines hle h' _ n).ite (Refines.refl _)
  · exact (Refines.refl _).bind fun h' => (rbRemoveFixup_refines hle h' _ n).ite (Refines.refl _)
  · refine (rbSucc_refines hle h n).bind fun r => (Refines.refl _).bind fun color => ?_
    exact (Refines.refl _).bind fun h' => (rbRemoveFixup_refines hle h' _ r).ite (Refines.refl _)

end OmochaOS.Rbtree
