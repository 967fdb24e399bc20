import Mathlib.Data.Finset.Card
import Mathlib.Tactic.Common

/-!
# Counting holders

Holders out of a finite set hold things, and each thing that is held has a count, to be the number of its
holders.  When one holder lets go of a thing and takes another, two counts change.

* `Moves` — one holder has moved from a thing to another.
* `Moves.holders_new`, `Moves.holders_old`, `Moves.holders_of_ne` — who holds what afterwards.
* `Counts.move` — the counts are right again.
* `Counts.join` — the counts with one holder more.
-/

namespace HolderCount

open Classical in
/-- The holders of a thing. -/
noncomputable def holders {ι κ : Type*} (live : Finset ι) (H : ι → κ → Prop) (k : κ) : Finset ι :=
  live.filter fun p => H p k

/-- The count of each thing that is held is the number of its holders. -/
def Counts {ι κ : Type*} (live : Finset ι) (H : ι → κ → Prop) (count : κ → ℤ) : Prop :=
  ∀ k, (holders live H k).Nonempty → count k = (holders live H k).card

/-- The holder `p` has let go of `x` and holds `y`; `x` and `y` may be the same. -/
structure Moves {ι κ : Type*} (live : Finset ι) (H H' : ι → κ → Prop) (p : ι) (x y : κ) : Prop where
  mem : p ∈ live
  held : H p x
  self : ∀ k, H' p k ↔ k = y ∨ k ≠ x ∧ H p k
  others : ∀ q ∈ live, q ≠ p → ∀ k, H' q k ↔ H q k
  /-- nobody else holds `y` -/
  alone : ∀ q ∈ live, H q y → q = p
  unheld : y ≠ x → ¬ H p y

variable {ι κ : Type*} {live : Finset ι} {H H' : ι → κ → Prop} {p q : ι} {x y k : κ} {count count' : κ → ℤ}

theorem mem_holders : q ∈ holders live H k ↔ q ∈ live ∧ H q k := by
  classical
  rw [holders]
  exact Finset.mem_filter

theorem Moves.holders_new (h : Moves live H H' p x y) : holders live H' y = {p} := by
  ext q
  rw [mem_holders, Finset.mem_singleton]
  constructor
  · intro hq
    by_contra hne
    exact hne (h.alone q hq.1 ((h.others q hq.1 hne y).mp hq.2))
  · intro hq
    rw [hq]
    exact ⟨h.mem, (h.self y).mpr (Or.inl rfl)⟩

/-- The things that are neither let go of nor taken. -/
theorem Moves.holders_of_ne (h : Moves live H H' p x y) (hx : k ≠ x) (hy : k ≠ y) :
    holders live H' k = holders live H k := by
  ext q
  rw [mem_holders, mem_holders]
  by_cases hq : q = p
  · rw [hq, h.self k]
    simp [hx, hy]
  · constructor
    · exact fun hk => ⟨hk.1, (h.others q hk.1 hq k).mp hk.2⟩
    · exact fun hk => ⟨hk.1, (h.others q hk.1 hq k).mpr hk.2⟩

theorem Moves.holders_old (h : Moves live H H' p x y) (hne : x ≠ y) [DecidableEq ι] :
    holders live H' x = (holders live H x).erase p := by
  ext q
  rw [Finset.mem_erase, mem_holders, mem_holders]
  by_cases hq : q = p
  · rw [hq, h.self x]
    simp [hne]
  · constructor
    · exact fun hk => ⟨hq, hk.1, (h.others q hk.1 hq x).mp hk.2⟩
    · exact fun hk => ⟨hk.2.1, (h.others q hk.2.1 hq x).mpr hk.2.2⟩

/-- A thing with the count 1 has one holder. -/
theorem Counts.eq_of_one (hc : Counts live H count) (hp : p ∈ live) (hpk : H p k) (hone : ¬ 1 < count k)
    (hq : q ∈ live) (hqk : H q k) : q = p := by
  have hmem : p ∈ holders live H k := mem_holders.mpr ⟨hp, hpk⟩
  have hcount := hc k ⟨p, hmem⟩
  have hcard : (holders live H k).card ≤ 1 := by omega
  exact Finset.card_le_one.mp hcard q (mem_holders.mpr ⟨hq, hqk⟩) p hmem

theorem Counts.congr (hc : Counts live H count) (hH : ∀ q ∈ live, ∀ k, H' q k ↔ H q k)
    (hcount : ∀ k, (holders live H k).Nonempty → count' k = count k) : Counts live H' count' := by
  intro k hk
  have hset : holders live H' k = holders live H k := by
    ext q
    rw [mem_holders, mem_holders]
    exact and_congr_right fun hq => hH q hq k
  rw [hset] at hk ⊢
  rw [hcount k hk]
  exact hc k hk

/-- **The counts after a move.** -/
theorem Counts.move [DecidableEq κ] (hc : Counts live H count) (h : Moves live H H' p x y) (hnew : count' y = 1)
    (hold : ∀ k, (holders live H' k).Nonempty → k ≠ y → count' k = count k - if k = x then 1 else 0) :
    Counts live H' count' := by
  classical
  intro k hk
  by_cases hy : k = y
  · rw [hy, h.holders_new, hnew]
    rfl
  · rw [hold k hk hy]
    by_cases hx : k = x
    · have hmem : p ∈ holders live H x := mem_holders.mpr ⟨h.mem, h.held⟩
      have hcard := Finset.card_erase_add_one hmem
      have hcount := hc x ⟨p, hmem⟩
      rw [hx] at hy
      rw [hx, if_pos rfl, h.holders_old hy, hcount]
      omega
    · rw [h.holders_of_ne hx hy] at hk
      rw [if_neg hx, Int.sub_zero, h.holders_of_ne hx hy]
      exact hc k hk

/-- **The counts after a holder has joined**, who holds what `p` holds. -/
theorem Counts.join [DecidableEq ι] {c : ι} (hc : Counts live H count) (hp : p ∈ live) (hnew : c ∉ live)
    (hH : ∀ q ∈ insert c live, ∀ k, H' q k ↔ H (if q = c then p else q) k)
    (hcount : ∀ k, (holders live H k).Nonempty → (H p k → count' k = count k + 1) ∧ (¬ H p k → count' k = count k)) :
    Counts (insert c live) H' count' := by
  intro k hk
  have hothers : ∀ q ∈ live, q ≠ c := fun q hq he => hnew (he ▸ hq)
  have hsub : ∀ q, q ∈ holders (insert c live) H' k ↔ q ∈ holders live H k ∨ q = c ∧ H p k := by
    intro q
    rw [mem_holders, mem_holders, Finset.mem_insert]
    constructor
    · intro hq
      have hiff := hH q (Finset.mem_insert.mpr hq.1) k
      by_cases he : q = c
      · rw [if_pos he] at hiff
        exact Or.inr ⟨he, hiff.mp hq.2⟩
      · rw [if_neg he] at hiff
        exact Or.inl ⟨hq.1.resolve_left he, hiff.mp hq.2⟩
    · intro hq
      rcases hq with hq | hq
      · have hiff := hH q (Finset.mem_insert_of_mem hq.1) k
        rw [if_neg (hothers q hq.1)] at hiff
        exact ⟨Or.inr hq.1, hiff.mpr hq.2⟩
      · have hiff := hH q (Finset.mem_insert.mpr (Or.inl hq.1)) k
        rw [if_pos hq.1] at hiff
        exact ⟨Or.inl hq.1, hiff.mpr hq.2⟩
  have hold : (holders live H k).Nonempty := by
    obtain ⟨q, hq⟩ := hk
    rcases (hsub q).mp hq with hq | hq
    · exact ⟨q, hq⟩
    · exact ⟨p, mem_holders.mpr ⟨hp, hq.2⟩⟩
  obtain ⟨hyes, hno⟩ := hcount k hold
  by_cases hheld : H p k
  · have hset : holders (insert c live) H' k = insert c (holders live H k) := by
      ext q
      rw [hsub q, Finset.mem_insert]
      exact ⟨fun hq => hq.elim Or.inr fun he => Or.inl he.1, fun hq => hq.elim (fun he => Or.inr ⟨he, hheld⟩) Or.inl⟩
    have hout : c ∉ holders live H k := fun hmem => hnew (mem_holders.mp hmem).1
    rw [hset, Finset.card_insert_of_notMem hout, hyes hheld, hc k hold]
    rfl
  · have hset : holders (insert c live) H' k = holders live H k := by
      ext q
      rw [hsub q]
      exact ⟨fun hq => hq.elim id fun he => absurd he.2 hheld, Or.inl⟩
    rw [hset, hno hheld]
    exact hc k hold

end HolderCount
