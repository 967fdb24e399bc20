import Mathlib.Data.List.Nodup
import Mathlib.Tactic.Common

/-!
# Walks along a pointer

A loop that looks at one place after the other, where what is found at a place says where the next one
is: `for (p = start; !stop(p); p = next(p)) act(p)`.  Whether it ends depends on what it finds.

`Trail next stop p l` says that the places from `p` on are `l`, and that the loop stops behind them.

* `exists_walk_iff` — the loop ends exactly when there is a trail, and then it has acted on the places of
  the trail in their order;
* `Trail.unique`, `Trail.nodup` — there is one trail at most, and it comes by no place twice.
-/

namespace PointerWalk

variable {α σ : Type*} {next : α → α} {stop : α → Prop} {act : σ → α → σ} {p q : α} {s s' : σ}
  {l l' : List α} {fuel : ℕ}

/-- The loop, with the state that `act` works on. -/
def walk (next : α → α) (stop : α → Prop) [DecidablePred stop] (act : σ → α → σ) : ℕ → α → σ → Option σ
  | 0, _, _ => none
  | fuel + 1, p, s => if stop p then some s else walk next stop act fuel (next p) (act s p)

/-- The places of the loop. -/
inductive Trail (next : α → α) (stop : α → Prop) : α → List α → Prop
  | done {p : α} (h : stop p) : Trail next stop p []
  | visit {p : α} {l : List α} (h : ¬ stop p) (hrest : Trail next stop (next p) l) :
      Trail next stop p (p :: l)

theorem Trail.not_stop (h : Trail next stop p l) (hq : q ∈ l) : ¬ stop q := by
  induction h with
  | done _ => cases hq
  | visit hp _ ih =>
    rcases List.mem_cons.mp hq with rfl | hq
    · exact hp
    · exact ih hq

theorem Trail.unique (h : Trail next stop p l) (h' : Trail next stop p l') : l = l' := by
  induction h generalizing l' with
  | done hp =>
    cases h' with
    | done _ => rfl
    | visit hp' _ => exact absurd hp hp'
  | visit hp _ ih =>
    cases h' with
    | done hp' => exact absurd hp' hp
    | visit _ hrest => rw [ih hrest]

/-- From a place of a trail on there is a trail, which is not longer. -/
theorem Trail.drop (h : Trail next stop p l) (hq : q ∈ l) :
    ∃ l', Trail next stop q l' ∧ l'.length ≤ l.length := by
  induction h with
  | done _ => cases hq
  | @visit p l hp hrest ih =>
    rcases List.mem_cons.mp hq with rfl | hq
    · exact ⟨_, .visit hp hrest, Nat.le_refl _⟩
    · obtain ⟨l', hl', hle⟩ := ih hq
      exact ⟨l', hl', Nat.le_succ_of_le hle⟩

/-- A loop that ends does not come back. -/
theorem Trail.nodup (h : Trail next stop p l) : l.Nodup := by
  induction h with
  | done _ => exact List.nodup_nil
  | @visit p l hp hrest ih =>
    refine List.nodup_cons.mpr ⟨fun hmem => ?_, ih⟩
    obtain ⟨l', hl', hle⟩ := hrest.drop hmem
    have hlen := congrArg List.length (hl'.unique (.visit hp hrest))
    rw [List.length_cons] at hlen
    omega

/-- A loop does not leave a place that leads to itself. -/
theorem Trail.stop_of_fixed (h : Trail next stop p l) (hfix : next p = p) : stop p := by
  cases h with
  | done hp => exact hp
  | visit hp hrest =>
    have hwhole := Trail.visit hp hrest
    rw [hfix] at hrest
    have hlen := congrArg List.length (hrest.unique hwhole)
    exact absurd hlen (Nat.ne_of_lt (Nat.lt_succ_self _))

variable [DecidablePred stop]

theorem walk_of_trail (h : Trail next stop p l) (s : σ) :
    walk next stop act (l.length + 1) p s = some (l.foldl act s) := by
  induction h generalizing s with
  | done hp => rw [walk, if_pos hp, List.foldl_nil]
  | visit hp _ ih => rw [List.length_cons, walk, if_neg hp, ih, List.foldl_cons]

theorem trail_of_walk (h : walk next stop act fuel p s = some s') :
    ∃ l, Trail next stop p l ∧ s' = l.foldl act s := by
  induction fuel generalizing p s with
  | zero => cases h
  | succ fuel ih =>
    rw [walk] at h
    split at h
    · rename_i hp
      exact ⟨[], .done hp, (Option.some.inj h).symm⟩
    · rename_i hp
      obtain ⟨l, hl, hs⟩ := ih h
      exact ⟨p :: l, .visit hp hl, hs⟩

/-- **The loop ends when there is a trail.** -/
theorem exists_walk_iff : (∃ fuel, walk next stop act fuel p s = some s') ↔
    ∃ l, Trail next stop p l ∧ s' = l.foldl act s := by
  constructor
  · rintro ⟨fuel, h⟩
    exact trail_of_walk h
  · rintro ⟨l, hl, rfl⟩
    exact ⟨_, walk_of_trail hl s⟩

end PointerWalk
