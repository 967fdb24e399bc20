import Mathlib.Data.Set.Insert
import OmochaOS.Rbtree.Insert
import OmochaOS.Rbtree.Remove

/-!
# What insertion and removal write

The functions of `lib/rbtree.c` write only nodes that links lead to: where a set of addresses is closed
under the links, nothing outside of it changes (`Within`).  This is told for runs in which no NULL
pointer is followed; such a run is the same where the first page of memory is mapped (`Follows`).
-/

namespace OmochaOS.Rbtree

open RedBlack RedBlack.ColorTree

namespace RbTree

/-- The same memory, and the first page of it mapped. -/
def mapped (h : RbTree) : RbTree := { h with nullMapped := true }

variable {h : RbTree} {s : Side} {p q c : ℕ}

@[simp] theorem child_mapped : h.mapped.child s p = h.child s p := by cases s <;> rfl

@[simp] theorem setChild_mapped : h.mapped.setChild s p q = (h.setChild s p q).mapped := by cases s <;> rfl

theorem setColor_mapped : h.mapped.setColor p c = (h.setColor p c).mapped := rfl

theorem color_mapped : h.mapped.color p = h.color p := rfl

end RbTree

variable {S : Set ℕ} {g h : RbTree} {s : Side} {p q n x y c : ℕ}

/-- The nodes of `S` are linked to nodes of `S`, and NULL counts as one. -/
structure Closed (S : Set ℕ) (h : RbTree) : Prop where
  null : 0 ∈ S
  root : h.root ∈ S
  aligned : ∀ p ∈ S, Aligned p
  parent : ∀ p ∈ S, p ≠ 0 → h.parent p ∈ S
  child : ∀ s, ∀ p ∈ S, p ≠ 0 → h.child s p ∈ S

/-- From `g` on only nodes of `S` have been written, and no key. -/
structure Within (S : Set ℕ) (g h : RbTree) : Prop where
  unmapped : h.nullMapped = false
  closed : Closed S h
  key : h.key = g.key
  node : ∀ y, y = 0 ∨ y ∉ S → h.node y = g.node y

theorem Closed.within (hS : Closed S h) (hnull : h.nullMapped = false) : Within S h h :=
  ⟨hnull, hS, rfl, fun _ _ => rfl⟩

theorem color_pointer : h.color x &&& pointerMask = 0 := by
  rw [RbTree.color, Nat.and_assoc]
  exact Nat.and_zero _

namespace Within

variable (hW : Within S g h)
include hW

theorem setRoot (hp : p ∈ S) : Within S g (h.setRoot p) where
  unmapped := hW.unmapped
  closed := { hW.closed with
    root := hp
    child := fun s y hy hy0 => by
      rw [RbTree.child_setRoot]
      exact hW.closed.child s y hy hy0 }
  key := hW.key
  node := hW.node

theorem setChild (hp : p ∈ S) (hp0 : p ≠ 0) (hq : q ∈ S) : Within S g (h.setChild s p q) where
  unmapped := RbTree.nullMapped_setChild.trans hW.unmapped
  closed := { hW.closed with
    root := by
      rw [RbTree.root_setChild]
      exact hW.closed.root
    parent := fun y hy hy0 => by
      rw [RbTree.parent_setChild]
      exact hW.closed.parent y hy hy0
    child := fun u y hy hy0 => by
      rw [RbTree.child_setChild]
      split
      · exact hq
      · exact hW.closed.child u y hy hy0 }
  key := RbTree.key_setChild.trans hW.key
  node := by
    intro y hy
    have hne : y ≠ p := by
      rintro rfl
      exact hy.elim hp0 fun hyS => hyS hp
    exact (node_setChild_of_ne hne).trans (hW.node y hy)

theorem setParent (hp : p ∈ S) (hp0 : p ≠ 0) (hq : q ∈ S) : Within S g (h.setParent p q) where
  unmapped := hW.unmapped
  closed := { hW.closed with
    parent := fun y hy hy0 => by
      rw [RbTree.parent_setParent (hW.closed.aligned q hq)]
      split
      · exact hq
      · exact hW.closed.parent y hy hy0
    child := fun u y hy hy0 => by
      rw [RbTree.child_setParent]
      exact hW.closed.child u y hy hy0 }
  key := RbTree.key_setParent.trans hW.key
  node := by
    intro y hy
    have hne : y ≠ p := by
      rintro rfl
      exact hy.elim hp0 fun hyS => hyS hp
    exact (node_setParent_of_ne hne).trans (hW.node y hy)

theorem setColor (hp : p ∈ S) (hp0 : p ≠ 0) (hc : c &&& pointerMask = 0) :
    Within S g (h.setColor p c) where
  unmapped := hW.unmapped
  closed := { hW.closed with
    parent := fun y hy hy0 => by
      have hsame : (h.setColor p c).parent y = h.parent y := by
        by_cases hyp : y = p
        · subst hyp
          simp only [RbTree.setColor, RbTree.parent, RbTree.node_write, if_true]
          rw [Nat.and_or_distrib_right, Nat.and_assoc, Nat.and_self, hc, Nat.or_zero]
        · rw [RbTree.parent, node_setColor_of_ne hyp, RbTree.parent]
      rw [hsame]
      exact hW.closed.parent y hy hy0
    child := fun u y hy hy0 => by
      rw [RbTree.child_setColor]
      exact hW.closed.child u y hy hy0 }
  key := RbTree.key_setColor.trans hW.key
  node := by
    intro y hy
    have hne : y ≠ p := by
      rintro rfl
      exact hy.elim hp0 fun hyS => hyS hp
    exact (node_setColor_of_ne hne).trans (hW.node y hy)

theorem parent_mem (hp : p ∈ S) (hp0 : p ≠ 0) : h.parent p ∈ S := hW.closed.parent p hp hp0

theorem child_mem (hp : p ∈ S) (hp0 : p ≠ 0) : h.child s p ∈ S := hW.closed.child s p hp hp0

end Within

/-! ### The same run where NULL is mapped -/

section

variable {β γ : Type} {lift : β → β} {Q : β → Prop} {e e' : Except Fault β}

/-- What the first call ends with has `Q`, and the second call ends with the counterpart of it. -/
def Follows (lift : β → β) (Q : β → Prop) (e e' : Except Fault β) : Prop :=
  ∀ v, e = .ok v → Q v ∧ e' = .ok (lift v)

theorem Follows.ok {v w : β} (hv : Q v) (hw : w = lift v) : Follows lift Q (.ok v) (.ok w) := by
  intro u hu
  cases hu
  exact ⟨hv, congrArg Except.ok hw⟩

theorem Follows.bind {lift' : γ → γ} {R : γ → Prop} {f f' : β → Except Fault γ}
    (he : Follows lift Q e e') (hf : ∀ v, Q v → Follows lift' R (f v) (f' (lift v))) :
    Follows lift' R (e >>= f) (e' >>= f') := by
  intro w hw
  cases e with
  | error fault => cases hw
  | ok v =>
    obtain ⟨hv, he'⟩ := he v rfl
    rw [he']
    exact hf v hv w hw

theorem Follows.ite {a a' b b' : Except Fault β} {P P' : Prop} [Decidable P] [Decidable P']
    (hP : P' ↔ P) (ha : P → Follows lift Q a a') (hb : ¬ P → Follows lift Q b b') :
    Follows lift Q (if P then a else b) (if P' then a' else b') := by
  by_cases h : P
  · rw [if_pos h, if_pos (hP.mpr h)]
    exact ha h
  · rw [if_neg h, if_neg (mt hP.mp h)]
    exact hb h

theorem Follows.deref {v w : β} (hnull : h.nullMapped = false) (hv : p ≠ 0 → Q v) (hw : w = lift v) :
    Follows lift Q (deref h p v) (deref h.mapped p w) := by
  intro u hu
  by_cases hp : p = 0
  · rw [hp, deref_null hnull] at hu
    cases hu
  · rw [deref_of_ne hp] at hu ⊢
    cases hu
    exact ⟨hv hp, congrArg Except.ok hw⟩

theorem Follows.deref_bind {v w : γ} {f f' : γ → Except Fault β} (hnull : h.nullMapped = false)
    (hf : p ≠ 0 → Follows lift Q (f v) (f' w)) :
    Follows lift Q (Rbtree.deref h p v >>= f) (Rbtree.deref h.mapped p w >>= f') := by
  intro u hu
  by_cases hp : p = 0
  · rw [hp, deref_null hnull] at hu
    cases hu
  · rw [Rbtree.deref_bind hp] at hu ⊢
    exact hf hp u hu

end

/-- The call writes only nodes of `S`, and ends the same where NULL is mapped. -/
def Stays (S : Set ℕ) (g : RbTree) (e e' : Except Fault RbTree) : Prop :=
  Follows RbTree.mapped (Within S g) e e'

theorem Stays.bind {β : Type} {lift : β → β} {R : β → Prop} {e e' : Except Fault RbTree}
    {f f' : RbTree → Except Fault β} (he : Stays S g e e')
    (hf : ∀ h, Within S g h → Follows lift R (f h) (f' h.mapped)) : Follows lift R (e >>= f) (e' >>= f') :=
  Follows.bind he hf

theorem Within.deref {h' : RbTree} (hW : Within S g h) (hW' : p ≠ 0 → Within S g h') :
    Stays S g (deref h p h') (deref h.mapped p h'.mapped) :=
  Follows.deref hW.unmapped hW' rfl

theorem Within.pure (hW : Within S g h) : Stays S g (.ok h) (.ok h.mapped) := Follows.ok hW rfl

/-! ### Links and rotations -/

theorem rbDetach_stays (hW : Within S g h) (hx : x ∈ S) :
    Stays S g (rbDetach h x) (rbDetach h.mapped x) := by
  refine Follows.deref_bind hW.unmapped fun hx0 => Follows.ite Iff.rfl (fun _ => ?_) fun hp0 => ?_
  · exact hW.deref fun _ => hW.setParent hx hx0 hW.closed.null
  · have hp := hW.parent_mem hx hx0
    refine Follows.ite Iff.rfl (fun _ => ?_) fun _ => ?_
    · exact hW.deref fun _ => (hW.setChild hp hp0 hW.closed.null).setParent hx hx0 hW.closed.null
    · exact hW.deref fun _ => (hW.setChild hp hp0 hW.closed.null).setParent hx hx0 hW.closed.null

theorem setParentLike_stays (hW : Within S g h) (hp : p ∈ S) (hq : q ∈ S) :
    Stays S g (setParentLike h p q) (setParentLike h.mapped p q) := by
  refine Follows.deref_bind hW.unmapped fun hp0 => ?_
  exact hW.deref fun hq0 => hW.setParent hq hq0 (hW.parent_mem hp hp0)

theorem rbTransplant_stays (hW : Within S g h) (hp : p ∈ S) (hq : q ∈ S) :
    Stays S g (rbTransplant h p q) (rbTransplant h.mapped p q) := by
  refine Follows.ite Iff.rfl (fun _ => ?_) fun _ => ?_
  · exact setParentLike_stays (hW.setRoot hq) hp hq
  · refine Follows.deref_bind hW.unmapped fun hp0 => Follows.deref_bind hW.unmapped fun ha0 => ?_
    have ha := hW.parent_mem hp hp0
    refine Follows.ite Iff.rfl (fun _ => ?_) fun _ => Follows.ite Iff.rfl (fun _ => ?_) fun _ => ?_
    · exact setParentLike_stays (hW.setChild ha ha0 hq) hp hq
    · exact setParentLike_stays (hW.setChild ha ha0 hq) hp hq
    · exact setParentLike_stays hW hp hq

theorem rbRotate_stays (hW : Within S g h) (hx : x ∈ S) :
    Stays S g (rbRotate s h x) (rbRotate s h.mapped x) := by
  rw [rbRotate, rbRotate, RbTree.child_mapped]
  refine Follows.deref_bind hW.unmapped fun hx0 => ?_
  have ha := hW.child_mem (s := s.other) hx hx0
  refine Follows.ite Iff.rfl (fun _ => hW.pure) fun ha0 => ?_
  refine (rbDetach_stays hW ha).bind fun h₁ hW₁ => (rbTransplant_stays hW₁ hx ha).bind fun h₂ hW₂ => ?_
  rw [RbTree.child_mapped]
  refine Follows.deref_bind hW₂.unmapped fun _ => ?_
  have hb := hW₂.child_mem (s := s) ha ha0
  refine Follows.ite Iff.rfl (fun hb0 => ?_) fun _ => ?_
  · refine (rbDetach_stays hW₂ hb).bind fun h₃ hW₃ => ?_
    rw [RbTree.setChild_mapped]
    refine (hW₃.deref fun _ => (hW₃.setChild ha ha0 hx).setParent hx hx0 ha).bind fun h₄ hW₄ => ?_
    rw [RbTree.setChild_mapped]
    exact hW₄.deref fun _ => (hW₄.setChild hx hx0 hb).setParent hb hb0 hx
  · rw [RbTree.setChild_mapped]
    exact hW₂.deref fun _ => (hW₂.setChild ha ha0 hx).setParent hx hx0 ha

/-! ### Insertion -/

theorem rbInsertRotate_stays (hW : Within S g h) (hn : n ∈ S) (hn0 : n ≠ 0) (hp : p ∈ S) (hp0 : p ≠ 0)
    (hq : q ∈ S) (hq0 : q ≠ 0) :
    Stays S g (rbInsertRotate s h n p q) (rbInsertRotate s h.mapped n p q) := by
  refine Follows.ite (by rw [RbTree.child_mapped]) (fun _ => ?_) fun _ => ?_
  · exact rbRotate_stays ((hW.setColor hp hp0 rfl).setColor hq hq0 rfl) hq
  · exact (rbRotate_stays ((hW.setColor hn hn0 rfl).setColor hq hq0 rfl) hp).bind fun _ hW₁ =>
      rbRotate_stays hW₁ hq

theorem rbInsertFixup_stays {fuel : ℕ} (hW : Within S g h) (hn : n ∈ S) :
    Stays S g (rbInsertFixup fuel h n) (rbInsertFixup fuel h.mapped n) := by
  induction fuel generalizing h n with
  | zero => exact nofun
  | succ fuel ih =>
    refine Follows.deref_bind hW.unmapped fun hn0 => ?_
    have hp := hW.parent_mem hn hn0
    refine Follows.ite Iff.rfl (fun _ => (hW.setColor hn hn0 rfl).pure) fun hp0 => ?_
    refine Follows.ite Iff.rfl (fun _ => hW.pure) fun _ => ?_
    have hq := hW.parent_mem hp hp0
    refine Follows.deref_bind hW.unmapped fun hq0 => ?_
    have huncle : (if h.child .right (h.parent (h.parent n)) = h.parent n then
        h.child .left (h.parent (h.parent n)) else h.child .right (h.parent (h.parent n))) ∈ S := by
      split
      · exact hW.child_mem hq hq0
      · exact hW.child_mem hq hq0
    refine Follows.ite Iff.rfl (fun hred => ?_) fun _ => Follows.ite Iff.rfl (fun _ => ?_) fun _ => ?_
    · exact ih (((hW.setColor hp hp0 rfl).setColor huncle hred.1 rfl).setColor hq hq0 rfl) hq
    · exact rbInsertRotate_stays hW hn hn0 hp hp0 hq hq0
    · exact rbInsertRotate_stays hW hn hn0 hp hp0 hq hq0

/-- The place that the descent ends at. -/
def liftPlace : Option (RbTree × ℕ) → Option (RbTree × ℕ) := Option.map fun r => (r.1.mapped, r.2)

/-- The tree and the place are those of `S`. -/
def PlaceWithin (S : Set ℕ) (g : RbTree) (r : Option (RbTree × ℕ)) : Prop :=
  ∀ a ∈ r, Within S g a.1 ∧ a.2 ∈ S

theorem rbInsertBst_follows {fuel : ℕ} (hW : Within S g h) (hn : n ∈ S) (hx : x ∈ S) :
    Follows liftPlace (PlaceWithin S g) (rbInsertBst fuel h n x) (rbInsertBst fuel h.mapped n x) := by
  induction fuel generalizing x with
  | zero => exact nofun
  | succ fuel ih =>
    have hplace : ∀ {h'}, Within S g h' → PlaceWithin S g (some (h', x)) := by
      intro h' hW' a ha
      obtain rfl := Option.mem_some.mp ha
      exact ⟨hW', hx⟩
    refine Follows.ite Iff.rfl (fun _ => Follows.ok (hplace hW) rfl) fun hx0 => ?_
    refine Follows.ite Iff.rfl (fun _ => Follows.ok nofun rfl) fun _ => ?_
    refine Follows.ite Iff.rfl (fun _ => ?_) fun _ => ?_
    · exact Follows.ite Iff.rfl (fun _ => Follows.ok (hplace (hW.setChild hx hx0 hn)) rfl) fun _ =>
        ih (hW.child_mem hx hx0)
    · exact Follows.ite Iff.rfl (fun _ => Follows.ok (hplace (hW.setChild hx hx0 hn)) rfl) fun _ =>
        ih (hW.child_mem hx hx0)

/-- The result of an insertion. -/
def liftResult (r : RbTree × ℕ) : RbTree × ℕ := (r.1.mapped, r.2)

theorem rbInsertEnd_follows {fuel : ℕ} (hW : Within S g h) (hn : n ∈ S) (hx : x ∈ S) :
    Follows liftResult (fun r => Within S g r.1) (rbInsertEnd fuel h n x)
      (rbInsertEnd fuel h.mapped n x) := by
  refine (hW.deref fun hn0 => hW.setParent hn hn0 hx).bind fun h₁ hW₁ => ?_
  refine (rbInsertFixup_stays hW₁ hn).bind fun h₂ hW₂ => ?_
  refine (hW₂.deref fun hr0 => hW₂.setColor hW₂.closed.root hr0 rfl).bind fun h₃ hW₃ => ?_
  exact Follows.ok hW₃ rfl

theorem rbInsert_follows {fuel : ℕ} (hW : Within S g h) (hn : n ∈ S) :
    Follows liftResult (fun r => Within S g r.1) (rbInsert fuel h n) (rbInsert fuel h.mapped n) := by
  refine (hW.deref fun hn0 => hW.setColor hn hn0 rfl).bind fun h₁ hW₁ => ?_
  refine Follows.ite Iff.rfl (fun _ => ?_) fun _ => ?_
  · exact rbInsertEnd_follows (hW₁.setRoot hn) hn hW₁.closed.null
  · refine (rbInsertBst_follows hW₁ hn hW₁.closed.root).bind fun r hr => ?_
    cases r with
    | none => exact Follows.ok hW₁ rfl
    | some a =>
      obtain ⟨hW₂, hx⟩ := hr a rfl
      exact rbInsertEnd_follows hW₂ hn hx

/-! ### Removal -/

theorem leftmost_follows {fuel : ℕ} (hW : Within S g h) (hx : x ∈ S) :
    Follows id (· ∈ S) (leftmost fuel h x) (leftmost fuel h.mapped x) := by
  induction fuel generalizing x with
  | zero => exact nofun
  | succ fuel ih =>
    refine Follows.deref_bind hW.unmapped fun hx0 => ?_
    exact Follows.ite Iff.rfl (fun _ => Follows.ok hx rfl) fun _ => ih (hW.child_mem hx hx0)

theorem firstAbove_follows {fuel : ℕ} (hW : Within S g h) (hp : p ∈ S) :
    Follows id (· ∈ S) (firstAbove fuel h n p) (firstAbove fuel h.mapped n p) := by
  induction fuel generalizing n p with
  | zero => exact nofun
  | succ fuel ih =>
    exact Follows.ite Iff.rfl (fun habove => ih (hW.parent_mem hp habove.1)) fun _ => Follows.ok hp rfl

theorem rbSucc_follows {fuel : ℕ} (hW : Within S g h) (hn : n ∈ S) :
    Follows id (· ∈ S) (rbSucc fuel h n) (rbSucc fuel h.mapped n) := by
  refine Follows.deref_bind hW.unmapped fun hn0 => Follows.ite Iff.rfl (fun _ => ?_) fun _ => ?_
  · exact leftmost_follows hW (hW.child_mem hn hn0)
  · exact firstAbove_follows hW (hW.parent_mem hn hn0)

theorem blacken_within (hW : Within S g h) (hn : n ∈ S) : Within S g (blacken h n) := by
  rw [blacken]
  split
  · exact hW
  · next hn0 => exact hW.setColor hn hn0 rfl

theorem blacken_mapped : blacken h.mapped n = (blacken h n).mapped := by
  rw [blacken, blacken]
  split <;> rfl

theorem rbRedBrother_stays (hW : Within S g h) (hp : p ∈ S) (hp0 : p ≠ 0) :
    Stays S g (rbRedBrother s h p) (rbRedBrother s h.mapped p) := by
  rw [rbRedBrother, rbRedBrother, RbTree.child_mapped]
  have ho := hW.child_mem (s := s.other) hp hp0
  refine Follows.deref_bind hW.unmapped fun _ => Follows.deref_bind hW.unmapped fun ho0 => ?_
  refine Follows.ite Iff.rfl (fun _ => ?_) fun _ => hW.pure
  exact rbRotate_stays ((hW.setColor ho ho0 rfl).setColor hp hp0 rfl) hp

theorem rbNearNephew_stays (hW : Within S g h) (hp : p ∈ S) (hp0 : p ≠ 0)
    (ho0 : h.child s.other p ≠ 0) : Stays S g (rbNearNephew s h p) (rbNearNephew s h.mapped p) := by
  rw [rbNearNephew, rbNearNephew]
  simp only [RbTree.child_mapped]
  have ho := hW.child_mem (s := s.other) hp hp0
  have hnear := hW.child_mem (s := s) ho ho0
  refine Follows.ite Iff.rfl (fun _ => ?_) fun _ => hW.pure
  refine (hW.deref fun hnear0 => hW.setColor hnear hnear0 rfl).bind fun h₁ hW₁ => ?_
  exact rbRotate_stays (hW₁.setColor ho ho0 rfl) ho

theorem rbFarNephew_stays (hW : Within S g h) (hp : p ∈ S) (hp0 : p ≠ 0) :
    Stays S g (rbFarNephew s h p) (rbFarNephew s h.mapped p) := by
  rw [rbFarNephew, rbFarNephew]
  simp only [RbTree.child_mapped]
  have ho := hW.child_mem (s := s.other) hp hp0
  refine Follows.deref_bind hW.unmapped fun ho0 => ?_
  have hW₁ : Within S g ((h.setColor (h.child s.other p) (h.color p)).setColor p RB_BLACK) :=
    (hW.setColor ho ho0 color_pointer).setColor hp hp0 rfl
  simp only [RbTree.setColor_mapped, RbTree.color_mapped, RbTree.child_mapped]
  have hfar := hW₁.child_mem (s := s.other) ho ho0
  refine (hW₁.deref fun hfar0 => hW₁.setColor hfar hfar0 rfl).bind fun h₂ hW₂ => ?_
  exact rbRotate_stays hW₂ hp

theorem rbTakeRight_stays (hW : Within S g h) (hn : n ∈ S) (hn0 : n ≠ 0) (hr : x ∈ S) :
    Stays S g (rbTakeRight h n x) (rbTakeRight h.mapped n x) := by
  refine Follows.deref_bind hW.unmapped fun hr0 => ?_
  have hchild := hW.child_mem (s := .right) hr hr0
  refine Follows.ite Iff.rfl (fun _ => ?_) fun _ => ?_
  · exact Follows.ite Iff.rfl (fun hchild0 => (hW.setParent hchild hchild0 hr).pure) fun _ => hW.pure
  · refine (rbTransplant_stays hW hr hchild).bind fun h₁ hW₁ => ?_
    have hW₂ := hW₁.setChild (s := .right) hr hr0 (hW₁.child_mem (s := .right) hn hn0)
    exact hW₂.deref fun hc0 => hW₂.setParent (hW₂.child_mem hr hr0) hc0 hr

theorem rbTakePlace_stays (hW : Within S g h) (hn : n ∈ S) (hn0 : n ≠ 0) (hr : x ∈ S) (hr0 : x ≠ 0) :
    Stays S g (rbTakePlace h n x) (rbTakePlace h.mapped n x) := by
  refine (rbTransplant_stays hW hn hr).bind fun h₁ hW₁ => ?_
  have hW₂ := hW₁.setChild (s := .left) hr hr0 (hW₁.child_mem (s := .left) hn hn0)
  refine (hW₂.deref fun hc0 => hW₂.setParent (hW₂.child_mem hr hr0) hc0 hr).bind fun h₃ hW₃ => ?_
  exact (hW₃.setColor hr hr0 color_pointer).pure

theorem rbReplace_stays (hW : Within S g h) (hn : n ∈ S) (hn0 : n ≠ 0) (hr : x ∈ S) (hr0 : x ≠ 0) :
    Stays S g (rbReplace h n x) (rbReplace h.mapped n x) :=
  (rbTakeRight_stays hW hn hn0 hr).bind fun _ hW₁ => rbTakePlace_stays hW₁ hn hn0 hr hr0

theorem rbRemoveRound_stays {loop loop' : RbTree → ℕ → ℕ → Except Fault RbTree} (hW : Within S g h)
    (hp : p ∈ S) (hp0 : p ≠ 0)
    (hloop : ∀ {h n p}, Within S g h → n ∈ S → p ∈ S → Stays S g (loop h n p) (loop' h.mapped n p)) :
    Stays S g (rbRemoveRound s h p loop) (rbRemoveRound s h.mapped p loop') := by
  refine (rbRedBrother_stays hW hp hp0).bind fun h₁ hW₁ => ?_
  rw [rbBlackBrother, rbBlackBrother]
  simp only [RbTree.child_mapped]
  have ho := hW₁.child_mem (s := s.other) hp hp0
  refine Follows.deref_bind hW₁.unmapped fun ho0 => Follows.ite Iff.rfl (fun _ => ?_) fun _ => ?_
  · have hW₂ := hW₁.setColor ho ho0 (c := RB_RED) rfl
    exact hloop hW₂ hp (hW₂.parent_mem hp hp0)
  · refine (rbNearNephew_stays hW₁ hp hp0 ho0).bind fun h₂ hW₂ => ?_
    refine (rbFarNephew_stays hW₂ hp hp0).bind fun h₃ hW₃ => ?_
    exact Follows.ok (blacken_within hW₃ hW₃.closed.root) blacken_mapped

theorem rbRemoveFixup_stays {fuel : ℕ} (hW : Within S g h) (hn : n ∈ S) (hp : p ∈ S) :
    Stays S g (rbRemoveFixup fuel h n p) (rbRemoveFixup fuel h.mapped n p) := by
  induction fuel generalizing h n p with
  | zero => exact nofun
  | succ fuel ih =>
    refine Follows.ite Iff.rfl (fun _ => ?_) fun _ => Follows.ok (blacken_within hW hn) blacken_mapped
    refine Follows.deref_bind hW.unmapped fun hp0 => Follows.ite Iff.rfl (fun _ => ?_) fun _ => ?_
    · exact rbRemoveRound_stays hW hp hp0 ih
    · exact rbRemoveRound_stays hW hp hp0 ih

theorem rbRemove_stays {fuel : ℕ} (hW : Within S g h) (hn : n ∈ S) :
    Stays S g (rbRemove fuel h n) (rbRemove fuel h.mapped n) := by
  refine Follows.deref_bind hW.unmapped fun hn0 => ?_
  have hleft := hW.child_mem (s := .left) hn hn0
  have hright := hW.child_mem (s := .right) hn hn0
  refine Follows.ite Iff.rfl (fun _ => ?_) fun _ => Follows.ite Iff.rfl (fun _ => ?_) fun _ => ?_
  · refine (rbTransplant_stays hW hn hright).bind fun h₁ hW₁ => ?_
    exact Follows.ite Iff.rfl (fun _ => rbRemoveFixup_stays hW₁ hright hn) fun _ => hW₁.pure
  · refine (rbTransplant_stays hW hn hleft).bind fun h₁ hW₁ => ?_
    exact Follows.ite Iff.rfl (fun _ => rbRemoveFixup_stays hW₁ hleft hn) fun _ => hW₁.pure
  · refine (rbSucc_follows hW hn).bind fun r hr => Follows.deref_bind hW.unmapped fun hr0 => ?_
    refine (rbReplace_stays hW hn hn0 hr hr0).bind fun h₁ hW₁ => ?_
    exact Follows.ite Iff.rfl (fun _ => rbRemoveFixup_stays hW₁ (hW.child_mem hr hr0) hr) fun _ => hW₁.pure

/-! ### Well-formed trees -/

theorem Inside.parent_mem {t : ColorTree ℕ} (ht : Inside h t) (hhangs : Hangs h p t)
    (hx : x ∈ t.toList) : h.parent x = p ∨ h.parent x ∈ t.toList := by
  induction t generalizing p with
  | nil => cases hx
  | node c l z r ihl ihr =>
    obtain ⟨-, ⟨hl, hlin⟩, hr, hrin⟩ := ht
    rw [toList, List.mem_append, List.mem_cons] at hx
    simp only [toList, List.mem_append, List.mem_cons]
    rcases hx with hx | rfl | hx
    · rcases ihl hlin hl hx with heq | hmem
      · exact Or.inr (Or.inr (Or.inl heq))
      · exact Or.inr (Or.inl hmem)
    · exact Or.inl (hhangs node_ne_nil)
    · rcases ihr hrin hr hx with heq | hmem
      · exact Or.inr (Or.inr (Or.inl heq))
      · exact Or.inr (Or.inr (Or.inr hmem))

theorem WellFormed.isNode (hw : WellFormed h) (hx : InTree h x) : IsNode x := by
  obtain ⟨t, ht⟩ := hw
  exact ht.inside.isNode_mem (ht.inTree_iff.mp hx)

theorem WellFormed.parent (hw : WellFormed h) (hx : InTree h x) :
    h.parent x = 0 ∨ InTree h (h.parent x) := by
  obtain ⟨t, ht⟩ := hw
  rw [ht.inTree_iff] at hx ⊢
  exact ht.inside.parent_mem ht.hangs hx

/-- Memory outside of the tree does not matter. -/
theorem WellFormed.inTree_congr {h' : RbTree} (hw : WellFormed h) (hroot : h'.root = h.root)
    (hnode : ∀ y, InTree h y → h'.node y = h.node y) : InTree h' y ↔ InTree h y := by
  obtain ⟨t, ht⟩ := hw
  have ht' := ht.congr (fun y hy => hnode y (ht.inTree_iff.mpr hy)) hroot
  rw [ht'.inTree_iff, ht.inTree_iff]

/-- Two nodes of one tree have different keys. -/
theorem WellFormed.key_injective (hw : WellFormed h) (hx : InTree h x) (hy : InTree h y)
    (heq : h.key x = h.key y) : x = y := by
  obtain ⟨t, ht⟩ := hw
  rw [ht.inTree_iff] at hx hy
  have hnodup : (t.toList.map h.key).Nodup := List.pairwise_map.mpr (ht.ordered.imp Nat.ne_of_lt)
  exact List.inj_on_of_nodup_map hnodup hx hy heq

theorem inTree_mapped : InTree h.mapped y ↔ InTree h y := by
  constructor
  · intro hy
    induction hy with
    | root hne => exact InTree.root hne
    | child s _ hne ih =>
      rw [RbTree.child_mapped] at hne ⊢
      exact InTree.child s ih hne
  · intro hy
    induction hy with
    | root hne => exact InTree.root (h := h.mapped) hne
    | @child x s _ hne ih =>
      rw [← RbTree.child_mapped] at hne ⊢
      exact InTree.child s ih hne

theorem keySet_mapped : keySet h.mapped = keySet h := by
  ext key
  constructor
  · rintro ⟨x, hx, hkey⟩
    exact ⟨x, inTree_mapped.mp hx, hkey⟩
  · rintro ⟨x, hx, hkey⟩
    exact ⟨x, inTree_mapped.mpr hx, hkey⟩

theorem wellFormed_mapped : WellFormed h.mapped ↔ WellFormed h := by
  constructor
  · rintro ⟨t, ht⟩
    exact ⟨t, ht.congr (fun _ _ => rfl) rfl⟩
  · rintro ⟨t, ht⟩
    exact ⟨t, ht.congr (fun _ _ => rfl) rfl⟩

/-- The addresses that an operation on the tree, with `n` for a new node, may write to. -/
def footprint (h : RbTree) (n : ℕ) : Set ℕ := {y | y = 0 ∨ InTree h y ∨ y = n}

theorem WellFormed.closed (hw : WellFormed h) (hn : Aligned n) (hparent : h.parent n ∈ footprint h n)
    (hchild : ∀ s, h.child s n ∈ footprint h n) : Closed (footprint h n) h where
  null := Or.inl rfl
  root := by
    by_cases hroot : h.root = 0
    · exact Or.inl hroot
    · exact Or.inr (Or.inl (InTree.root hroot))
  aligned := by
    intro p hp
    rcases hp with rfl | hp | rfl
    · exact aligned_zero
    · exact (hw.isNode hp).aligned
    · exact hn
  parent := by
    intro p hp hp0
    rcases hp with rfl | hp | rfl
    · exact absurd rfl hp0
    · exact (hw.parent hp).imp_right Or.inl
    · exact hparent
  child := by
    intro s p hp hp0
    rcases hp with rfl | hp | rfl
    · exact absurd rfl hp0
    · by_cases hc : h.child s p = 0
      · exact Or.inl hc
      · exact Or.inr (Or.inl (InTree.child s hp hc))
    · exact hchild s

theorem InTree.ne_zero (hy : InTree h y) : y ≠ 0 := by
  cases hy with
  | root hne => exact hne
  | child s _ hne => exact hne

theorem WellFormed.closed_of_mem (hw : WellFormed h) (hn : InTree h n) : Closed (footprint h n) h := by
  refine hw.closed (hw.isNode hn).aligned ((hw.parent hn).imp_right Or.inl) fun s => ?_
  by_cases hc : h.child s n = 0
  · exact Or.inl hc
  · exact Or.inr (Or.inl (InTree.child s hn hc))

/-- What is in the tree after an operation is in its footprint. -/
theorem Within.inTree_mem (hW : Within S g h) (hy : InTree h y) : y ∈ S := by
  induction hy with
  | root => exact hW.closed.root
  | child s hx _ ih => exact hW.child_mem ih hx.ne_zero

/-- The tree `h'` is `h` without the node `n`, and has the same memory around it. -/
structure TreeWithout (h h' : RbTree) (n : ℕ) : Prop where
  wellFormed : WellFormed h'
  inTree : ∀ y, InTree h' y ↔ InTree h y ∧ y ≠ n
  key : h'.key = h.key
  node : ∀ y, ¬ InTree h y → h'.node y = h.node y

/-- The tree `h'` is `h` with the node `n`, and has the same memory around it. -/
structure TreeWith (h h' : RbTree) (n : ℕ) : Prop where
  wellFormed : WellFormed h'
  inTree : ∀ y, InTree h' y ↔ InTree h y ∨ y = n
  key : h'.key = h.key
  node : ∀ y, ¬ InTree h y → y ≠ n → h'.node y = h.node y

theorem TreeWithout.mapped {h' : RbTree} (ht : TreeWithout h h' n) : TreeWithout h.mapped h'.mapped n where
  wellFormed := wellFormed_mapped.mpr ht.wellFormed
  inTree := fun y => by rw [inTree_mapped, inTree_mapped, ht.inTree]
  key := ht.key
  node := fun y hy => ht.node y fun hmem => hy (inTree_mapped.mpr hmem)

theorem TreeWith.mapped {h' : RbTree} (ht : TreeWith h h' n) : TreeWith h.mapped h'.mapped n where
  wellFormed := wellFormed_mapped.mpr ht.wellFormed
  inTree := fun y => by rw [inTree_mapped, inTree_mapped, ht.inTree]
  key := ht.key
  node := fun y hy hyn => ht.node y (fun hmem => hy (inTree_mapped.mpr hmem)) hyn

theorem exists_unmapped (hmapped : h.nullMapped = true) :
    ∃ g : RbTree, g.nullMapped = false ∧ g.mapped = h := by
  refine ⟨{ h with nullMapped := false }, rfl, ?_⟩
  obtain ⟨node, root, mapped⟩ := h
  cases hmapped
  rfl

theorem mem_keySet_iff {h' : RbTree} (hw : WellFormed h) (hkey : h'.key = h.key) (hn : InTree h n)
    (hkeys : keySet h' = keySet h \ {h.key n}) (hsub : ∀ y, InTree h' y → InTree h y) :
    InTree h' y ↔ InTree h y ∧ y ≠ n := by
  constructor
  · intro hy
    have hmem : h.key y ∈ keySet h \ {h.key n} := by
      rw [← hkeys, ← hkey]
      exact ⟨y, hy, rfl⟩
    refine ⟨hsub y hy, ?_⟩
    rintro rfl
    exact hmem.2 rfl
  · rintro ⟨hy, hne⟩
    have hmem : h.key y ∈ keySet h' := by
      rw [hkeys]
      exact ⟨⟨y, hy, rfl⟩, fun heq => hne (hw.key_injective hy hn heq)⟩
    obtain ⟨z, hz, hzk⟩ := hmem
    rw [hkey] at hzk
    obtain rfl := hw.key_injective (hsub z hz) hy hzk
    exact hz

/-- It does not matter for the successor whether NULL is mapped. -/
theorem removable_mapped (hnull : h.nullMapped = false) (hw : WellFormed h) (hn : InTree h n)
    (hr : Removable h.mapped n) : Removable h n := by
  rw [Removable, RbTree.child_mapped, RbTree.child_mapped] at hr
  rcases hr with hone | hone | ⟨hleft, hright, r, hr, hgood⟩
  · exact Or.inl hone
  · exact Or.inr (Or.inl hone)
  · obtain ⟨t, ht⟩ := hw
    obtain ⟨k, c, l, w, hplug⟩ := exists_plug (ht.inTree_iff.mp hn) []
    have hL : Located h k (.node c l n w) := located_plug.mpr (hplug ▸ ht.located)
    obtain ⟨-, -, -, hchild, -, -⟩ := Located.children (s := .left) hL
    have hne : w ≠ .nil := by
      rintro rfl
      exact hright hchild
    obtain ⟨-, -, m, -, -, -, bound, hsucc⟩ := hL.rbSucc_returns hne
    have hclosed := (WellFormed.closed_of_mem ⟨t, ht⟩ hn).within hnull
    have hmapped : Returns (fun fuel => rbSucc fuel h.mapped n) m :=
      ⟨bound, fun fuel hfuel => (rbSucc_follows hclosed (Or.inr (Or.inr rfl)) m (hsucc fuel hfuel)).2⟩
    obtain rfl := hr.unique hmapped
    rw [RbTree.child_mapped] at hgood
    exact Or.inr (Or.inr ⟨hleft, hright, r, ⟨bound, hsucc⟩, hgood⟩)

/-- **Removal** where NULL is mapped. -/
theorem rbRemove_without (hmapped : h.nullMapped = true) (hw : WellFormed h) (hn : InTree h n)
    (hr : Removable h n) :
    ∃ h', Returns (fun fuel => rbRemove fuel h n) h' ∧ TreeWithout h h' n := by
  obtain ⟨h, hnull, rfl⟩ := exists_unmapped hmapped
  rw [wellFormed_mapped] at hw
  rw [inTree_mapped] at hn
  obtain ⟨h', ⟨bound, hrun⟩, hw', hkeys⟩ :=
    (rbRemove_correct_iff hnull hw hn).mpr (removable_mapped hnull hw hn hr)
  have hfollows := fun fuel hfuel =>
    rbRemove_stays ((hw.closed_of_mem hn).within hnull) (Or.inr (Or.inr rfl)) h' (hrun fuel hfuel)
  have hW : Within (footprint h n) h h' := (hfollows bound (Nat.le_refl _)).1
  refine ⟨h'.mapped, ⟨bound, fun fuel hfuel => (hfollows fuel hfuel).2⟩, TreeWithout.mapped
    ⟨hw', fun y => ?_, hW.key, fun y hy => ?_⟩⟩
  · refine mem_keySet_iff hw hW.key hn hkeys fun y hy => ?_
    rcases hW.inTree_mem hy with rfl | hmem | rfl
    · exact absurd rfl hy.ne_zero
    · exact hmem
    · exact hn
  · apply hW.node
    by_contra! hc
    rcases hc.2 with rfl | hmem | rfl
    · exact hc.1 rfl
    · exact hy hmem
    · exact hy hn

/-- **Insertion** of a new key where NULL is mapped. -/
theorem rbInsert_with (hmapped : h.nullMapped = true) (hw : WellFormed h) (hn : Detached h n)
    (hparent : h.parent n = 0) (hkey : h.key n ∉ keySet h) :
    ∃ h', Returns (fun fuel => rbInsert fuel h n) (h', 0) ∧ TreeWith h h' n := by
  obtain ⟨h, hnull, rfl⟩ := exists_unmapped hmapped
  replace hn : Detached h n := ⟨hn.isNode, fun hmem => hn.fresh (inTree_mapped.mpr hmem), hn.left, hn.right⟩
  rw [keySet_mapped] at hkey
  obtain ⟨t, ht⟩ := wellFormed_mapped.mp hw
  rcases rbInsert_spec ht hn (Nat.lt_succ_self _) with ⟨-, h', t', hrun, -, ht', hmem⟩ | ⟨hpresent, -⟩
  · have hclosed : Closed (footprint h n) h :=
      WellFormed.closed ⟨t, ht⟩ hn.isNode.aligned (Or.inl hparent) fun s => by
        cases s with
        | left => exact Or.inl hn.left
        | right => exact Or.inl hn.right
    obtain ⟨hW, hrun'⟩ := rbInsert_follows (hclosed.within hnull) (Or.inr (Or.inr rfl)) _ hrun
    refine ⟨h'.mapped, Refines.returns (fun _ _ hle => rbInsert_refines hle h.mapped n) hrun',
      TreeWith.mapped ⟨⟨t', ht'⟩, fun y => ?_, hW.key, fun y hy hyn => ?_⟩⟩
    · rw [ht'.inTree_iff, ht.inTree_iff, hmem]
    · apply hW.node
      by_contra! hc
      rcases hc.2 with rfl | hmem | rfl
      · exact hc.1 rfl
      · exact hy hmem
      · exact hyn rfl
  · exact absurd hpresent hkey

/-- Insertion of a key that is there. -/
theorem rbInsert_present (hw : WellFormed h) (hn : Detached h n) (hkey : h.key n ∈ keySet h) :
    Returns (fun fuel => rbInsert fuel h n) (h.setColor n RB_RED, 1) := by
  obtain ⟨t, ht⟩ := hw
  rcases rbInsert_spec ht hn (Nat.lt_succ_self _) with ⟨habsent, -⟩ | ⟨-, hrun⟩
  · exact absurd hkey habsent
  · exact Refines.returns (fun _ _ hle => rbInsert_refines hle h n) hrun

end OmochaOS.Rbtree
