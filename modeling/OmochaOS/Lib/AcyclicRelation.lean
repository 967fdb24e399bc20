import Mathlib.Logic.Relation
import Mathlib.Order.WellFoundedSet
import Mathlib.Tactic.Common

/-!
# Acyclic relations, one edge at a time

A wait-for graph changes by single edges: a party that blocks adds the edge to the party it waits
for, a party that wakes takes its edge away.  This file has the three facts such a development needs.

* `Acyclic.mono` — taking edges away keeps a relation acyclic.
* `acyclic_insertEdge_iff` — adding the edge `p → q` keeps it acyclic exactly when no path led from
  `q` back to `p`.
* `Acyclic.induction` — on finitely many parties, following the edges of an acyclic relation is a
  well-founded recursion, so every walk along them comes to an end.
-/

namespace AcyclicRelation

open Relation

variable {α : Type*} {r r' : α → α → Prop} {a b p q : α}

/-- No path of one or more edges leads from an element to itself. -/
def Acyclic (r : α → α → Prop) : Prop := ∀ a, ¬ TransGen r a a

/-- The relation with one more edge. -/
def insertEdge (r : α → α → Prop) (p q : α) : α → α → Prop := fun a b => (a = p ∧ b = q) ∨ r a b

theorem Acyclic.mono (h : Acyclic r) (hle : ∀ a b, r' a b → r a b) : Acyclic r' :=
  fun a ha => h a (TransGen.mono hle _ _ ha)

theorem acyclic_congr (h : ∀ a b, r' a b ↔ r a b) : Acyclic r' ↔ Acyclic r :=
  ⟨fun h' => h'.mono fun a b => (h a b).mpr, fun h' => h'.mono fun a b => (h a b).mp⟩

/-- A path in the larger relation avoids the new edge, or passes through it. -/
theorem transGen_insertEdge (h : TransGen (insertEdge r p q) a b) :
    TransGen r a b ∨ (ReflTransGen r a p ∧ ReflTransGen r q b) := by
  induction h with
  | single hab =>
    rcases hab with ⟨rfl, rfl⟩ | hab
    · exact Or.inr ⟨ReflTransGen.refl, ReflTransGen.refl⟩
    · exact Or.inl (TransGen.single hab)
  | tail hac hcb ih =>
    rcases hcb with ⟨rfl, rfl⟩ | hcb
    · rcases ih with hac | ⟨hap, -⟩
      · exact Or.inr ⟨hac.to_reflTransGen, ReflTransGen.refl⟩
      · exact Or.inr ⟨hap, ReflTransGen.refl⟩
    · rcases ih with hac | ⟨hap, hqc⟩
      · exact Or.inl (hac.tail hcb)
      · exact Or.inr ⟨hap, hqc.tail hcb⟩

/-- **Adding an edge.** -/
theorem acyclic_insertEdge_iff :
    Acyclic (insertEdge r p q) ↔ Acyclic r ∧ ¬ ReflTransGen r q p := by
  have hsub : ∀ a b, r a b → insertEdge r p q a b := fun a b hab => Or.inr hab
  have hnew : insertEdge r p q p q := Or.inl ⟨rfl, rfl⟩
  constructor
  · intro h
    refine ⟨h.mono hsub, fun hqp => h p ?_⟩
    exact TransGen.head' hnew (ReflTransGen.mono hsub _ _ hqp)
  · intro h a ha
    rcases transGen_insertEdge ha with haa | ⟨hap, hqa⟩
    · exact h.1 a haa
    · exact h.2 (hqa.trans hap)

/-- **Walks end.**  What holds of a party whenever it holds of the parties it has an edge to holds of
every party, if the relation is acyclic and lives on a finite set. -/
theorem Acyclic.induction {S : Set α} (h : Acyclic r) (hfin : S.Finite)
    (hS : ∀ a b, r a b → a ∈ S ∧ b ∈ S) {motive : α → Prop}
    (hstep : ∀ a, (∀ b, r a b → motive b) → motive a) (a : α) : motive a := by
  have hirrefl : Std.Irrefl (TransGen (Function.swap r)) := ⟨fun c hc => h c (transGen_swap.mp hc)⟩
  have hstrict : IsStrictOrder α (TransGen (Function.swap r)) := {}
  have hwf : WellFounded fun b a => TransGen (Function.swap r) b a ∧ b ∈ S ∧ a ∈ S :=
    Set.wellFoundedOn_iff.mp hfin.wellFoundedOn
  have hr : WellFounded (Function.swap r) :=
    Subrelation.wf (fun {b a} hab => ⟨TransGen.single hab, (hS a b hab).2, (hS a b hab).1⟩) hwf
  induction a using hr.induction with
  | _ a ih => exact hstep a ih

end AcyclicRelation
