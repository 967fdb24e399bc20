import Mathlib.Data.List.Nodup
import Mathlib.Logic.Function.Iterate
import Mathlib.Tactic.Common

/-!
# Searching along a chain

A loop that looks for something at one place after the other, and goes on to the next place as long as it
is not an end: `do { if (found(p)) return; p = next(p); } while (!stop(p));`.

* `search_of_ends`, `exists_search_iff` — the loop ends when one of the places has what is looked for, or
  is followed by an end;
* `Ends.nodup` — before that it comes by no place twice.
-/

namespace ChainSearch

variable {α β : Type*} {found : α → Option β} {next : α → α} {stop : α → Prop} {p q : α} {v : β}
  {verdict : Option β} {r : List α × Option β} {fuel i k : ℕ}

/-- The loop: the places that are looked at, and what is found. -/
def search (found : α → Option β) (next : α → α) (stop : α → Prop) [DecidablePred stop] :
    ℕ → α → Option (List α × Option β)
  | 0, _ => none
  | fuel + 1, p =>
    match found p with
    | some v => some ([p], some v)
    | none =>
      if stop (next p) then some ([p], none)
      else (search found next stop fuel (next p)).map fun r => (p :: r.1, r.2)

/-- The place number `k` is the first one with what is looked for, or the last one. -/
structure Ends (found : α → Option β) (next : α → α) (stop : α → Prop) (p : α) (k : ℕ)
    (verdict : Option β) : Prop where
  before : ∀ i < k, found (next^[i] p) = none
  notStop : ∀ i < k, ¬ stop (next^[i + 1] p)
  verdict_eq : found (next^[k] p) = verdict
  stops : verdict = none → stop (next^[k + 1] p)

/-- The places up to the number `k`. -/
def chain (next : α → α) (p : α) (k : ℕ) : List α := (List.range (k + 1)).map fun i => next^[i] p

theorem chain_zero : chain next p 0 = [p] := rfl

theorem chain_succ : chain next p (k + 1) = p :: chain next (next p) k := by
  rw [chain, List.range_succ_eq_map, List.map_cons, List.map_map]
  rfl

theorem mem_chain : q ∈ chain next p k ↔ ∃ i ≤ k, next^[i] p = q := by
  rw [chain, List.mem_map]
  constructor
  · rintro ⟨i, hi, heq⟩
    exact ⟨i, Nat.le_of_lt_succ (List.mem_range.mp hi), heq⟩
  · rintro ⟨i, hi, heq⟩
    exact ⟨i, List.mem_range.mpr (Nat.lt_succ_of_le hi), heq⟩

theorem Ends.hit (h : found p = some v) : Ends found next stop p 0 (some v) where
  before := fun i hi => absurd hi (Nat.not_lt_zero i)
  notStop := fun i hi => absurd hi (Nat.not_lt_zero i)
  verdict_eq := h
  stops := fun hnone => by cases hnone

theorem Ends.last (h : found p = none) (hstop : stop (next p)) : Ends found next stop p 0 none where
  before := fun i hi => absurd hi (Nat.not_lt_zero i)
  notStop := fun i hi => absurd hi (Nat.not_lt_zero i)
  verdict_eq := h
  stops := fun _ => hstop

theorem Ends.next_place (h : found p = none) (hstop : ¬ stop (next p))
    (hrest : Ends found next stop (next p) k verdict) : Ends found next stop p (k + 1) verdict where
  before := by
    intro i hi
    cases i with
    | zero => exact h
    | succ i => exact hrest.before i (Nat.lt_of_succ_lt_succ hi)
  notStop := by
    intro i hi
    cases i with
    | zero => exact hstop
    | succ i => exact hrest.notStop i (Nat.lt_of_succ_lt_succ hi)
  verdict_eq := hrest.verdict_eq
  stops := hrest.stops

theorem Ends.tail (h : Ends found next stop p (k + 1) verdict) : Ends found next stop (next p) k verdict where
  before := fun i hi => h.before (i + 1) (Nat.succ_lt_succ hi)
  notStop := fun i hi => h.notStop (i + 1) (Nat.succ_lt_succ hi)
  verdict_eq := h.verdict_eq
  stops := h.stops

/-- A place that leads to itself has what is looked for, or it is an end. -/
theorem Ends.of_fixed (h : Ends found next stop p k verdict) (hfix : next p = p) :
    found p ≠ none ∨ stop p := by
  by_cases hfound : found p = none
  · right
    have hverdict := h.verdict_eq
    have hstop := h.stops
    rw [Function.iterate_fixed hfix] at hverdict hstop
    exact hstop (hverdict.symm.trans hfound)
  · exact Or.inl hfound

/-- A place that comes twice would come again, so there is no first place at which the loop ends. -/
theorem Ends.nodup (h : Ends found next stop p k verdict) : (chain next p k).Nodup := by
  refine List.Nodup.map_on ?_ List.nodup_range
  have hapart : ∀ i j, i < j → j ≤ k → next^[i] p ≠ next^[j] p := by
    intro i j hij hjk heq
    have hback : ∀ m, next^[m + i] p = next^[m + j] p := by
      intro m
      rw [Function.iterate_add_apply, Function.iterate_add_apply, heq]
    have hlast : next^[k - j + i] p = next^[k] p := by
      rw [hback, Nat.sub_add_cancel hjk]
    have hafter : next^[k - j + i + 1] p = next^[k + 1] p := by
      rw [Function.iterate_succ_apply', hlast, Function.iterate_succ_apply']
    have hlt : k - j + i < k := by omega
    have hnone : verdict = none := by
      rw [← h.verdict_eq, ← hlast]
      exact h.before _ hlt
    apply h.notStop _ hlt
    rw [hafter]
    exact h.stops hnone
  intro i hi j hj heq
  rw [List.mem_range] at hi hj
  rcases Nat.lt_trichotomy i j with hlt | rfl | hlt
  · exact absurd heq (hapart i j hlt (Nat.le_of_lt_succ hj))
  · rfl
  · exact absurd heq.symm (hapart j i hlt (Nat.le_of_lt_succ hi))

variable [DecidablePred stop]

/-- Fuel for the places of the chain is enough. -/
theorem search_of_ends (h : Ends found next stop p k verdict) (hk : k < fuel) :
    search found next stop fuel p = some (chain next p k, verdict) := by
  induction k generalizing p fuel with
  | zero =>
    obtain ⟨fuel, rfl⟩ := Nat.exists_eq_add_one_of_ne_zero (Nat.ne_of_gt hk)
    have hfound : found p = verdict := h.verdict_eq
    rw [search, hfound]
    cases verdict with
    | some v => rfl
    | none =>
      have hstop : stop (next p) := h.stops rfl
      show (if stop (next p) then _ else _) = _
      rw [if_pos hstop]
      rfl
  | succ k ih =>
    obtain ⟨fuel, rfl⟩ := Nat.exists_eq_add_one_of_ne_zero (Nat.ne_of_gt (Nat.zero_lt_of_lt hk))
    have hfound : found p = none := h.before 0 (Nat.succ_pos k)
    have hstop : ¬ stop (next p) := h.notStop 0 (Nat.succ_pos k)
    rw [search, hfound]
    show (if stop (next p) then _ else _) = _
    rw [if_neg hstop, ih h.tail (Nat.lt_of_succ_lt_succ hk), chain_succ]
    rfl

theorem ends_of_search (h : search found next stop fuel p = some r) :
    ∃ k, Ends found next stop p k r.2 ∧ r.1 = chain next p k := by
  induction fuel generalizing p r with
  | zero => cases h
  | succ fuel ih =>
    rw [search] at h
    cases hfound : found p with
    | some v =>
      rw [hfound] at h
      obtain rfl := Option.some.inj h
      exact ⟨0, .hit hfound, chain_zero.symm⟩
    | none =>
      rw [hfound] at h
      replace h : (if stop (next p) then some ([p], none)
        else (search found next stop fuel (next p)).map fun r => (p :: r.1, r.2)) = some r := h
      by_cases hstop : stop (next p)
      · rw [if_pos hstop] at h
        obtain rfl := Option.some.inj h
        exact ⟨0, .last hfound hstop, chain_zero.symm⟩
      · rw [if_neg hstop] at h
        obtain ⟨r', hr', rfl⟩ := Option.map_eq_some_iff.mp h
        obtain ⟨k, hk, hlist⟩ := ih hr'
        refine ⟨k + 1, .next_place hfound hstop hk, ?_⟩
        rw [chain_succ, ← hlist]

/-- **When the loop ends.** -/
theorem exists_search_iff : (∃ fuel, search found next stop fuel p = some r) ↔
    ∃ k, Ends found next stop p k r.2 ∧ r.1 = chain next p k := by
  constructor
  · rintro ⟨fuel, h⟩
    exact ends_of_search h
  · rintro ⟨k, hk, hlist⟩
    refine ⟨k + 1, ?_⟩
    rw [search_of_ends hk (Nat.lt_succ_self k), ← hlist]

end ChainSearch
