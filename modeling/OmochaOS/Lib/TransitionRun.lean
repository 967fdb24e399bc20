import Mathlib.Data.List.Basic
import Mathlib.Tactic.Common

/-!
# Runs of a labelled transition system

A run from `s₀` is a list of transitions, each starting where the previous one ended.  A safety
property of a system is a statement about every state, or every transition, of every run; it is
proved from what a single step preserves.  Two rules package that induction.

* `Run.invariant` — a predicate true at the start and kept by every step is true at the end of every
  run, and `Run.invariant_of_mem` places it at both ends of every transition of the run.
* `Run.forall_iff` — for a property that only *well-behaved* steps keep: if, from an invariant state,
  a step has the property exactly when it meets a condition, and a step with the property keeps the
  invariant, then a run has the property throughout exactly when all its steps meet the condition.
* `Run.simulated` — if every step that meets a condition is matched, label for label, by a step of a
  second system, then a run of such steps is matched by a run of the second system.
* `Run.reaches` — if no step increases a rank, and every tick decreases it, then a run with more ticks
  than the rank at the start reaches the goal.
-/

namespace TransitionRun

variable {σ ℓ : Type*} {step : σ → ℓ → σ → Prop} {s₀ s t : σ}

/-- One transition of a run: where it starts, what happens, where it ends. -/
structure Transition (σ ℓ : Type*) where
  source : σ
  label : ℓ
  target : σ

variable {tr : List (Transition σ ℓ)}

/-- The transitions of a run from `s₀`, in order, and the state it ends in. -/
inductive Run (step : σ → ℓ → σ → Prop) (s₀ : σ) : List (Transition σ ℓ) → σ → Prop
  | start : Run step s₀ [] s₀
  | extend {tr : List (Transition σ ℓ)} {s t : σ} {l : ℓ} (run : Run step s₀ tr s)
      (hstep : step s l t) : Run step s₀ (tr ++ [⟨s, l, t⟩]) t

/-- `s` is the end of some run from `s₀`. -/
def Reachable (step : σ → ℓ → σ → Prop) (s₀ s : σ) : Prop := ∃ tr, Run step s₀ tr s

theorem Reachable.refl : Reachable step s₀ s₀ := ⟨[], Run.start⟩

theorem Reachable.extend {l : ℓ} (hr : Reachable step s₀ s) (hstep : step s l t) :
    Reachable step s₀ t := by
  obtain ⟨tr, hrun⟩ := hr
  exact ⟨_, hrun.extend hstep⟩

/-- **Invariant rule.**  What holds at the start and survives every step holds at the end. -/
theorem Run.invariant {Inv : σ → Prop} (hrun : Run step s₀ tr s) (h₀ : Inv s₀)
    (hkeep : ∀ s l t, Inv s → step s l t → Inv t) : Inv s := by
  induction hrun with
  | start => exact h₀
  | extend run hstep ih => exact hkeep _ _ _ ih hstep

theorem Reachable.invariant {Inv : σ → Prop} (hr : Reachable step s₀ s) (h₀ : Inv s₀)
    (hkeep : ∀ s l t, Inv s → step s l t → Inv t) : Inv s := by
  obtain ⟨tr, hrun⟩ := hr
  exact hrun.invariant h₀ hkeep

/-- Every transition of a run is a step of the system out of a reachable state. -/
theorem Run.step_of_mem {x : Transition σ ℓ} (hrun : Run step s₀ tr s) (hx : x ∈ tr) :
    step x.source x.label x.target ∧ Reachable step s₀ x.source := by
  induction hrun with
  | start => simp at hx
  | @extend tr s t l run hstep ih =>
    rcases List.mem_append.mp hx with h | h
    · exact ih h
    · obtain rfl := List.mem_singleton.mp h
      exact ⟨hstep, tr, run⟩

/-- The invariant rule at both ends of every transition of a run. -/
theorem Run.invariant_of_mem {Inv : σ → Prop} {x : Transition σ ℓ} (hrun : Run step s₀ tr s)
    (h₀ : Inv s₀) (hkeep : ∀ s l t, Inv s → step s l t → Inv t) (hx : x ∈ tr) :
    Inv x.source ∧ Inv x.target := by
  obtain ⟨hstep, hr⟩ := hrun.step_of_mem hx
  have hs : Inv x.source := hr.invariant h₀ hkeep
  exact ⟨hs, hkeep _ _ _ hs hstep⟩

/-- A run whose steps all meet a condition is a run of the steps that meet it. -/
theorem Run.restrict {C : σ → ℓ → Prop} (hrun : Run step s₀ tr s) (hall : ∀ x ∈ tr, C x.source x.label) :
    Run (fun s l t => step s l t ∧ C s l) s₀ tr s := by
  induction hrun with
  | start => exact .start
  | @extend tr s t l run hstep ih =>
    have hs := ih fun x hx => hall x (List.mem_append_left _ hx)
    exact hs.extend ⟨hstep, hall ⟨s, l, t⟩ (List.mem_append_right _ (List.mem_singleton_self _))⟩

/-- A run whose steps all have `P` ends in an invariant state, if steps with `P` keep it. -/
theorem Run.invariant_of_forall {Inv : σ → Prop} {P : σ → ℓ → σ → Prop} (hrun : Run step s₀ tr s)
    (h₀ : Inv s₀) (hkeep : ∀ s l t, Inv s → step s l t → P s l t → Inv t)
    (hall : ∀ x ∈ tr, P x.source x.label x.target) : Inv s := by
  induction hrun with
  | start => exact h₀
  | @extend tr s t l run hstep ih =>
    have hs : Inv s := ih (fun x hx => hall x (List.mem_append_left _ hx))
    exact hkeep s l t hs hstep (hall ⟨s, l, t⟩ (by simp))

/-- The same at both ends of every transition of the run. -/
theorem Run.invariant_of_forall_mem {Inv : σ → Prop} {P : σ → ℓ → σ → Prop} {x : Transition σ ℓ}
    (hrun : Run step s₀ tr s) (h₀ : Inv s₀)
    (hkeep : ∀ s l t, Inv s → step s l t → P s l t → Inv t)
    (hall : ∀ x ∈ tr, P x.source x.label x.target) (hx : x ∈ tr) : Inv x.source ∧ Inv x.target := by
  induction hrun with
  | start => cases hx
  | @extend tr s t l run hstep ih =>
    have hall' : ∀ x ∈ tr, P x.source x.label x.target :=
      fun x hx => hall x (List.mem_append_left _ hx)
    rcases List.mem_append.mp hx with h | h
    · exact ih hall' h
    · have hs : Inv s := run.invariant_of_forall h₀ hkeep hall'
      have ht : Inv t := hkeep s l t hs hstep (hall ⟨s, l, t⟩ (by simp))
      obtain rfl := List.mem_singleton.mp h
      exact ⟨hs, ht⟩

/-- **The run rule for conditional properties.**  If out of an invariant state a step has property
`P` exactly when it meets condition `C`, and steps with `P` keep the invariant, then the steps of a
run all have `P` exactly when they all meet `C`. -/
theorem Run.forall_iff (Inv : σ → Prop) (P C : σ → ℓ → σ → Prop) (hrun : Run step s₀ tr s)
    (h₀ : Inv s₀) (hiff : ∀ s l t, Inv s → step s l t → (P s l t ↔ C s l t))
    (hkeep : ∀ s l t, Inv s → step s l t → P s l t → Inv t) :
    (∀ x ∈ tr, P x.source x.label x.target) ↔ ∀ x ∈ tr, C x.source x.label x.target := by
  induction hrun with
  | start => simp
  | @extend tr s t l run hstep ih =>
    simp only [List.mem_append, List.mem_singleton, or_imp, forall_and, forall_eq]
    constructor
    · rintro ⟨hall, hlast⟩
      have hs : Inv s := run.invariant_of_forall h₀ hkeep hall
      exact ⟨ih.mp hall, (hiff s l t hs hstep).mp hlast⟩
    · rintro ⟨hall, hlast⟩
      have hs : Inv s := run.invariant_of_forall h₀ hkeep (ih.mpr hall)
      exact ⟨ih.mpr hall, (hiff s l t hs hstep).mpr hlast⟩

/-- **The run rule for a second system.**  Related states stay related, and the labels are the same. -/
theorem Run.simulated {τ : Type*} {step' : τ → ℓ → τ → Prop} {a₀ : τ} {R : σ → τ → Prop}
    {C : σ → ℓ → σ → Prop} (hrun : Run step s₀ tr s) (h₀ : R s₀ a₀)
    (hmatch : ∀ s l t a, R s a → step s l t → C s l t → ∃ b, step' a l b ∧ R t b)
    (hall : ∀ x ∈ tr, C x.source x.label x.target) : ∃ tr' a, Run step' a₀ tr' a ∧
      tr'.map Transition.label = tr.map Transition.label ∧ R s a := by
  induction hrun with
  | start => exact ⟨[], a₀, Run.start, rfl, h₀⟩
  | @extend tr s t l run hstep ih =>
    obtain ⟨tr', a, hrun', hlabels, hR⟩ := ih fun x hx => hall x (List.mem_append_left _ hx)
    have hlast : C s l t := hall ⟨s, l, t⟩ (List.mem_append_right _ (List.mem_singleton_self _))
    obtain ⟨b, hstep', hR'⟩ := hmatch s l t a hR hstep hlast
    refine ⟨_, b, hrun'.extend hstep', ?_, hR'⟩
    rw [List.map_append, List.map_append, hlabels]
    rfl

/-- Until the goal is reached, each tick takes one off the rank. -/
theorem Run.goal_or_near {Near : ℕ → σ → Prop} {Goal : σ → Prop} {Tick : ℓ → Bool} {C : σ → ℓ → σ → Prop} {d : ℕ}
    (hrun : Run step s₀ tr s) (h₀ : Near d s₀)
    (hkeep : ∀ s l t n, Near n s → step s l t → C s l t → Goal t ∨ Near n t)
    (htick : ∀ s l t n, Near n s → step s l t → C s l t → Tick l = true → Goal t ∨ ∃ m < n, Near m t)
    (hall : ∀ x ∈ tr, C x.source x.label x.target) :
    (∃ x ∈ tr, Goal x.target) ∨ ∃ n, n + (tr.filter fun x => Tick x.label).length ≤ d ∧ Near n s := by
  induction hrun with
  | start => exact Or.inr ⟨d, Nat.le_refl d, h₀⟩
  | @extend tr s t l run hstep ih =>
    have hlast : C s l t := hall ⟨s, l, t⟩ (List.mem_append_right _ (List.mem_singleton_self _))
    have hmem : (⟨s, l, t⟩ : Transition σ ℓ) ∈ tr ++ [⟨s, l, t⟩] :=
      List.mem_append_right _ (List.mem_singleton_self _)
    rcases ih fun x hx => hall x (List.mem_append_left _ hx) with ⟨x, hx, hgoal⟩ | ⟨n, hn, hnear⟩
    · exact Or.inl ⟨x, List.mem_append_left _ hx, hgoal⟩
    · rw [List.filter_append, List.length_append]
      cases hl : Tick l with
      | true =>
        rcases htick s l t n hnear hstep hlast hl with hgoal | ⟨m, hm, hnear'⟩
        · exact Or.inl ⟨_, hmem, hgoal⟩
        · refine Or.inr ⟨m, ?_, hnear'⟩
          rw [List.filter_singleton, hl]
          show m + (_ + 1) ≤ d
          omega
      | false =>
        rcases hkeep s l t n hnear hstep hlast with hgoal | hnear'
        · exact Or.inl ⟨_, hmem, hgoal⟩
        · refine Or.inr ⟨n, ?_, hnear'⟩
          rw [List.filter_singleton, hl]
          exact hn

/-- **The rank rule.**  A run with more ticks than the rank at its start reaches the goal. -/
theorem Run.reaches (Near : ℕ → σ → Prop) (Goal : σ → Prop) {Tick : ℓ → Bool} {C : σ → ℓ → σ → Prop} {d : ℕ}
    (hrun : Run step s₀ tr s) (h₀ : Near d s₀)
    (hkeep : ∀ s l t n, Near n s → step s l t → C s l t → Goal t ∨ Near n t)
    (htick : ∀ s l t n, Near n s → step s l t → C s l t → Tick l = true → Goal t ∨ ∃ m < n, Near m t)
    (hall : ∀ x ∈ tr, C x.source x.label x.target) (hmany : d < (tr.filter fun x => Tick x.label).length) :
    ∃ x ∈ tr, Goal x.target := by
  rcases hrun.goal_or_near h₀ hkeep htick hall with hgoal | ⟨n, hn, -⟩
  · exact hgoal
  · omega

end TransitionRun
