import Mathlib.Algebra.Order.Group.Multiset
import Mathlib.Data.Finset.Card
import OmochaOS.Kernel.Effects

/-!
# The scan of the pending slots

`__recv_msg` looks for a pending notification with one loop over the table of slots, for interrupts
and for exceptions alike.  The loop keeps the index found so far and takes 0 for "none found", so it
sees slot 0 only when no other slot is pending, and never counts it as a second one.

`scan_eq` says what the loop returns in terms of the list `pendingSlots` of the other pending slots.
-/

namespace OmochaOS

namespace Kernel

variable {table : ℕ → InterruptData} {l : List ℕ} {found : ℕ × ℕ} {i : ℕ}

/-- The pending slots from 1 up, in the order the loop meets them. -/
def pendingSlots (table : ℕ → InterruptData) (count : ℕ) : List ℕ :=
  (List.range' 1 (count - 1)).filter fun i => (table i).avail

theorem mem_pendingSlots {count : ℕ} :
    i ∈ pendingSlots table count ↔ 1 ≤ i ∧ i < count ∧ (table i).avail = true := by
  have hr : i ∈ List.range' 1 (count - 1) ↔ 1 ≤ i ∧ i < count := by
    rw [List.mem_range'_1]
    omega
  rw [pendingSlots, List.mem_filter, hr, and_assoc]

theorem nodup_pendingSlots (table : ℕ → InterruptData) (count : ℕ) :
    (pendingSlots table count).Nodup :=
  (List.nodup_range' ..).filter _

/-- Once an index is found, any further pending slot ends the loop. -/
theorem scanPending_of_found (h : found.1 ≠ 0) :
    scanPending table l found = (found, decide ((l.filter fun i => (table i).avail) ≠ [])) := by
  induction l with
  | nil => simp [scanPending]
  | cons i is ih =>
    by_cases hi : (table i).avail = true
    · simp [scanPending, hi, h]
    · simp only [scanPending, hi, ih]
      simp [hi]

/-- Over slots other than 0 the loop finds the first pending one. -/
theorem scanPending_of_none (h : found.1 = 0) (h0 : 0 ∉ l) :
    scanPending table l found =
      match l.filter fun i => (table i).avail with
      | [] => (found, false)
      | i :: rest => ((i, (table i).data), decide (rest ≠ [])) := by
  induction l with
  | nil => simp [scanPending]
  | cons i is ih =>
    have hi0 : i ≠ 0 := fun he => h0 (by simp [he])
    by_cases hi : (table i).avail = true
    · rw [scanPending, if_pos hi, if_neg (not_not.mpr h), scanPending_of_found hi0]
      simp [hi]
    · simp only [scanPending, hi]
      rw [List.filter_cons_of_neg (by simpa using hi)]
      exact ih fun hm => h0 (by simp [hm])

/-- **What the scan returns**: the first pending slot from 1 up, with whether there is a second one;
slot 0 only if there is no other. -/
theorem scan_eq {count : ℕ} (hc : 0 < count) :
    scan table count =
      match pendingSlots table count with
      | [] => ((0, if (table 0).avail then (table 0).data else 0), false)
      | i :: rest => ((i, (table i).data), decide (rest ≠ [])) := by
  obtain ⟨n, rfl⟩ := Nat.exists_eq_add_of_le' hc
  have hr : List.range (n + 1) = 0 :: List.range' 1 n := by
    rw [List.range_eq_range', List.range'_succ]
  have h0 : 0 ∉ List.range' 1 n := by simp
  rw [scan, hr, pendingSlots, Nat.add_sub_cancel]
  by_cases hz : (table 0).avail = true
  · rw [if_pos hz, show scanPending table (0 :: List.range' 1 n) (0, 0) =
      scanPending table (List.range' 1 n) (0, (table 0).data) by simp [scanPending, hz]]
    exact scanPending_of_none rfl h0
  · rw [if_neg hz, show scanPending table (0 :: List.range' 1 n) (0, 0) =
      scanPending table (List.range' 1 n) (0, 0) by simp [scanPending, hz]]
    exact scanPending_of_none rfl h0

/-! ### The pending notifications as a multiset -/

/-- The pending slots below `count`. -/
def pendingSet (table : ℕ → InterruptData) (count : ℕ) : Finset ℕ :=
  (Finset.range count).filter fun i => (table i).avail = true

/-- The pending notifications, each with its data. -/
def pendingNotices (table : ℕ → InterruptData) (count : ℕ) : Multiset (ℕ × ℕ) :=
  (pendingSet table count).val.map fun i => (i, (table i).data)

theorem mem_pendingSet {count : ℕ} :
    i ∈ pendingSet table count ↔ i < count ∧ (table i).avail = true := by
  rw [pendingSet, Finset.mem_filter, Finset.mem_range]

theorem pendingNotices_eq_zero {count : ℕ} :
    pendingNotices table count = 0 ↔ ∀ i, i < count → (table i).avail = false := by
  rw [pendingNotices, Multiset.map_eq_zero, Finset.val_eq_zero, Finset.eq_empty_iff_forall_notMem]
  simp only [mem_pendingSet, not_and, Bool.not_eq_true]

theorem card_pendingNotices {count : ℕ} :
    (pendingNotices table count).card = (pendingSet table count).card := by
  rw [pendingNotices, Multiset.card_map]
  rfl

/-- One slot more is pending. -/
theorem pendingNotices_cons {table' : ℕ → InterruptData} {count : ℕ} (hi : i < count)
    (hoff : (table i).avail = false) (hon : (table' i).avail = true)
    (hrest : ∀ j, j ≠ i → table' j = table j) :
    pendingNotices table' count = (i, (table' i).data) ::ₘ pendingNotices table count := by
  have hnot : i ∉ pendingSet table count := by
    rw [mem_pendingSet, hoff]
    simp
  have hset : pendingSet table' count = insert i (pendingSet table count) := by
    ext j
    rw [Finset.mem_insert, mem_pendingSet, mem_pendingSet]
    by_cases hj : j = i
    · subst hj
      simp [hi, hon]
    · simp [hj, hrest j hj]
  rw [pendingNotices, hset, Finset.insert_val_of_notMem hnot, Multiset.map_cons]
  refine congrArg _ (Multiset.map_congr rfl fun j hj => ?_)
  have hne : j ≠ i := fun he => hnot (he ▸ hj)
  rw [hrest j hne]

/-- Writing a pending slot again leaves the number of pending notifications as it was. -/
theorem card_pendingNotices_of_full {table' : ℕ → InterruptData} (count : ℕ)
    (hon : (table i).avail = true) (hon' : (table' i).avail = true)
    (hrest : ∀ j, j ≠ i → table' j = table j) :
    (pendingNotices table' count).card = (pendingNotices table count).card := by
  have hset : pendingSet table' count = pendingSet table count := by
    ext j
    rw [mem_pendingSet, mem_pendingSet]
    by_cases hj : j = i
    · subst hj
      simp [hon, hon']
    · rw [hrest j hj]
  rw [card_pendingNotices, card_pendingNotices, hset]

theorem pendingNotices_ne_zero {count : ℕ} :
    pendingNotices table count ≠ 0 ↔ ∃ i, i < count ∧ (table i).avail = true := by
  rw [ne_eq, pendingNotices_eq_zero]
  simp

/-- **The scan of a table with something pending.**  It returns a pending slot with its data, and a
second one only if there is one.  It overlooks one exactly when slot 0 and one other are pending. -/
theorem scan_of_pending {count : ℕ} (hc : 0 < count) (hne : pendingNotices table count ≠ 0) :
    ∃ i second, scan table count = ((i, (table i).data), second) ∧ i < count ∧
      (table i).avail = true ∧
      (second = true → ∃ j, j < count ∧ j ≠ i ∧ (table j).avail = true) ∧
      (((∃ j, j < count ∧ j ≠ i ∧ (table j).avail = true) → second = true) ↔
        ((table 0).avail = true → (pendingSlots table count).length ≠ 1)) := by
  rw [scan_eq hc]
  have hmem : ∀ j, j ∈ pendingSlots table count ↔ 1 ≤ j ∧ j < count ∧ (table j).avail = true :=
    fun j => mem_pendingSlots
  have hnd := nodup_pendingSlots table count
  cases hp : pendingSlots table count with
  | nil =>
    rw [hp] at hmem
    have honly : ∀ j, j < count → (table j).avail = true → j = 0 := by
      intro j hj ha
      by_contra hj0
      exact absurd ((hmem j).mpr ⟨by omega, hj, ha⟩) (by simp)
    obtain ⟨i, hi, ha⟩ := pendingNotices_ne_zero.mp hne
    obtain rfl := honly i hi ha
    refine ⟨0, false, by rw [if_pos ha], hc, ha, by simp, iff_of_true ?_ (by simp)⟩
    rintro ⟨j, hj, hj0, haj⟩
    exact absurd (honly j hj haj) hj0
  | cons i rest =>
    rw [hp] at hmem hnd
    obtain ⟨h1, hlt, ha⟩ := (hmem i).mp (by simp)
    refine ⟨i, decide (rest ≠ []), rfl, hlt, ha, ?_, ?_⟩
    · intro hr
      obtain ⟨j, rest', rfl⟩ := List.exists_cons_of_ne_nil (of_decide_eq_true hr)
      obtain ⟨-, hj, haj⟩ := (hmem j).mp (by simp)
      refine ⟨j, hj, fun he => ?_, haj⟩
      rw [he] at hnd
      simp at hnd
    · cases rest with
      | nil =>
        -- the only other slot the scan can overlook is slot 0
        have hother : (∃ j, j < count ∧ j ≠ i ∧ (table j).avail = true) ↔
            (table 0).avail = true := by
          constructor
          · rintro ⟨j, hj, hji, haj⟩
            by_cases hj0 : j = 0
            · exact hj0 ▸ haj
            · exact absurd ((hmem j).mpr ⟨by omega, hj, haj⟩) (by simpa using hji)
          · intro h0
            exact ⟨0, hc, by omega, h0⟩
        rw [hother]
        simp
      | cons j rest => simp

end Kernel

end OmochaOS
