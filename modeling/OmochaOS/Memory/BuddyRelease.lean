import OmochaOS.Memory.BuddyRuns

/-!
# Page by page or all at once (`modules/memory/buddy.c`, `exit.c`, `paging.c`)

A block is allocated as a whole, and `free_proc` and `unmap_pages` give its pages back one by one.  While
a page of the block is still allocated every release stays inside the block (`Partly.release`); the
last one goes on from the whole block as a single release would.  What is free then covers the same
pages, and a set of blocks without buddies is determined by what it covers: so the order in which the
pages came does not matter (`freePages_same`).
-/

namespace OmochaOS

open DoublyLinkedList DyadicBlocks TransitionRun

namespace Buddy

/-- `page_free(p, 1)` for one page after the other. -/
def freePages (mem : MemoryInfo) : List ℕ → MemoryInfo
  | [] => mem
  | p :: ps => freePages (pageFree mem p 1).1 ps

/-- The same free blocks, counters, bits and records.  The lists may have them in different orders. -/
structure Same (mem mem' : MemoryInfo) : Prop where
  lists : ∃ L L' : ℕ → List ℕ, ∀ k < maxOrder,
    OnFreeList mem k (L k) ∧ OnFreeList mem' k (L' k) ∧ (L k).Perm (L' k)
  counts : ∀ k < maxOrder, mem.freeCount k = mem'.freeCount k
  bits : mem.bits = mem'.bits
  pages : mem.pages = mem'.pages

variable {mem m m' : MemoryInfo} {F F' : ℕ → ℕ → Prop} {L L' : ℕ → List ℕ} {k j l i x : ℕ}
  {done : List ℕ}

/-! ### What is free determines the rest -/

/-- Equal sets of blocks have the same lists, counters and bits below the greatest order. -/
theorem Inv.same (h : Inv m F L) (h' : Inv m' F L') (hstart : m.memoryStart = m'.memoryStart) :
    (∀ k < maxOrder, (L k).Perm (L' k)) ∧ (∀ k < maxOrder, m.freeCount k = m'.freeCount k) ∧
      ∀ k < maxOrder - 1, m.bits k = m'.bits k := by
  have hperm : ∀ k < maxOrder, (L k).Perm (L' k) := by
    intro k hk
    rw [List.perm_ext_iff_of_nodup (h.nodup k hk) (h'.nodup k hk)]
    intro p
    rw [h.mem_iff k hk, h'.mem_iff k hk, hstart]
  refine ⟨hperm, fun k hk => ?_, fun k hk => ?_⟩
  · rw [h.count k hk, h'.count k hk]
    exact (hperm k hk).length_eq
  · funext i
    apply Bool.eq_iff_iff.mpr
    rw [h.bit_iff k hk, h'.bit_iff k hk]

/-- Free blocks without buddies are determined by the pages they cover. -/
theorem Inv.unique (h : Inv m F L) (h' : Inv m' F' L') (hcovers : ∀ x, Covers F x ↔ Covers F' x) :
    F = F' := by
  have hle : ∀ k j, F k j → k ≤ maxOrder - 1 := fun k j hk =>
    Nat.le_sub_one_of_lt (h.order_lt k j hk)
  have hle' : ∀ k j, F' k j → k ≤ maxOrder - 1 := fun k j hk =>
    Nat.le_sub_one_of_lt (h'.order_lt k j hk)
  exact h.lone.unique h'.lone h.separate h'.separate hle hle' hcovers

/-! ### One page -/

/-- The release of one page. -/
theorem Inv.pageFree_one (h : Inv m F L) (hx : ¬ Covers F x) (hin : x < pageTotal m) :
    ∃ m' F' L' n i, pageFree m (m.memoryStart + x * pgSize) 1 = (m', 0) ∧
      m'.toMemoryLayout = m.toMemoryLayout ∧ Inv m' F' L' ∧ (∀ y, Covers F' y ↔ Covers F y ∨ y = x) ∧
      x / 2 ^ n = i ∧ F' n i ∧
      (∀ y, m'.pages y = if y / 2 ^ n = i then ⟨pageTypeUsable ||| pageTypeFree, 0⟩ else m.pages y) ∧
      ∀ l, maxOrder - 1 ≤ l → ∀ b,
        m'.bits l b = if l = n ∧ b = i / 2 then !m.bits l b else m.bits l b := by
  have hone : ∀ y, y / 2 ^ 0 = y := fun y => by rw [Nat.pow_zero, Nat.div_one]
  have haddr : m.memoryStart + x * pgSize = blockAddr m.memoryStart 0 x := by
    rw [blockAddr, Nat.pow_zero, Nat.mul_one]
  have hfree : ∀ y, y / 2 ^ 0 = x → ¬ Covers F y := by
    intro y hy
    rw [hone] at hy
    rw [hy]
    exact hx
  have hin' : (x + 1) * 2 ^ 0 ≤ pageTotal m := by
    rw [Nat.pow_zero, Nat.mul_one]
    exact hin
  have hzero : 0 < maxOrder := by decide
  have hdepth : maxOrder ≤ maxOrder + 0 := Nat.le_add_right maxOrder 0
  obtain ⟨m', F', L', hcall, hlayout, h', hcovers, n, i, hreleased⟩ :=
    free_inv h hzero hdepth hfree hin'
  refine ⟨m', F', L', n, i, ?_, hlayout, h', fun y => ?_, hreleased.within x (hone x), hreleased.free,
    hreleased.pages, hreleased.top⟩
  · rw [haddr]
    have horder : orderOf (2 ^ 0) = 0 := orderOf_pow hzero
    rw [← Nat.pow_zero 2, pageFree, freePagesOfPower2, horder]
    exact hcall
  · rw [hcovers, hone]

/-! ### A block that is partly released -/

/-- The pages of `done`, in the block of order `k` and index `j`, are released: outside of the block no
entry has changed, and no bit of the greatest order. -/
structure Partly (mem m : MemoryInfo) (F F' : ℕ → ℕ → Prop) (L' : ℕ → List ℕ) (k j : ℕ)
    (done : List ℕ) : Prop where
  layout : m.toMemoryLayout = mem.toMemoryLayout
  inv : Inv m F' L'
  covers : ∀ x, Covers F' x ↔ Covers F x ∨ x ∈ done
  pages : ∀ x, x / 2 ^ k ≠ j → m.pages x = mem.pages x
  top : ∀ l, maxOrder - 1 ≤ l → m.bits l = mem.bits l

/-- Two blocks with a common number are nested. -/
theorem nested_of_common {n : ℕ} (hx : x / 2 ^ k = j) (hn : x / 2 ^ n = i) (hle : k ≤ n) {y : ℕ}
    (hy : y / 2 ^ k = j) : y / 2 ^ n = i := by
  rw [← hn]
  exact div_pow_eq_of_le hle (hy.trans hx.symm)

/-- **A page that is not the last.**  What its release merges stays inside the block. -/
theorem Partly.release (h : Partly mem m F F' L' k j done) (hk : k < maxOrder)
    (hfree : ∀ x, x / 2 ^ k = j → ¬ Covers F x) (hin : (j + 1) * 2 ^ k ≤ pageTotal mem)
    (hx : x / 2 ^ k = j) (hnot : x ∉ done) {y : ℕ} (hy : y / 2 ^ k = j) (hyx : y ≠ x) (hyd : y ∉ done) :
    ∃ F₁ L₁, Partly mem (pageFree m (mem.memoryStart + x * pgSize) 1).1 F F₁ L₁ k j (x :: done) := by
  have hstart : m.memoryStart = mem.memoryStart := by rw [h.layout]
  have hlt : x < pageTotal m := by
    rw [pageTotal, h.layout, ← pageTotal]
    refine Nat.lt_of_lt_of_le ?_ hin
    rw [← Nat.div_lt_iff_lt_mul (Nat.two_pow_pos k), hx]
    exact Nat.lt_succ_self j
  have hcov : ¬ Covers F' x := fun hc => ((h.covers x).mp hc).elim (hfree x hx) hnot
  obtain ⟨m', F₁, L₁, n, i, hcall, hlayout, h', hcovers, hxn, hF₁, hpages, htop⟩ :=
    h.inv.pageFree_one hcov hlt
  rw [hstart] at hcall
  have hcovers' : ∀ z, Covers F₁ z ↔ Covers F z ∨ z ∈ x :: done := by
    intro z
    rw [hcovers, h.covers, List.mem_cons]
    tauto
  -- the block it becomes does not reach the page that is still allocated
  have hnk : n < k := by
    by_contra hge
    have hyn : y / 2 ^ n = i := nested_of_common hx hxn (Nat.not_lt.mp hge) hy
    rcases (hcovers' y).mp (covers_of_mem hF₁ hyn) with hc | hmem
    · exact hfree y hy hc
    · exact (List.mem_cons.mp hmem).elim hyx hyd
  rw [hcall]
  refine ⟨F₁, L₁, hlayout.trans h.layout, h', hcovers', fun z hz => ?_, fun l hl => ?_⟩
  · have hzn : z / 2 ^ n ≠ i := fun hzn => hz (nested_of_common hxn hx (Nat.le_of_lt hnk) hzn)
    rw [hpages, if_neg hzn, h.pages z hz]
  · funext b
    rw [htop l hl, if_neg fun he => by omega, h.top l hl]

/-- **The last page.**  The block is whole again, and goes on as in a single release. -/
theorem Partly.last (h : Partly mem m F F' L' k j done) (hmem : Inv mem F L) (hk : k < maxOrder)
    (hfree : ∀ x, x / 2 ^ k = j → ¬ Covers F x) (hin : (j + 1) * 2 ^ k ≤ pageTotal mem)
    (hx : x / 2 ^ k = j) (hnot : x ∉ done) (hdone : ∀ y, y ∈ done → y / 2 ^ k = j)
    (hall : ∀ y, y / 2 ^ k = j → y = x ∨ y ∈ done) :
    Same (pageFree m (mem.memoryStart + x * pgSize) 1).1
      (pageFree mem (blockAddr mem.memoryStart k j) (2 ^ k)).1 := by
  have hstart : m.memoryStart = mem.memoryStart := by rw [h.layout]
  have hlt : x < pageTotal m := by
    rw [pageTotal, h.layout, ← pageTotal]
    refine Nat.lt_of_lt_of_le ?_ hin
    rw [← Nat.div_lt_iff_lt_mul (Nat.two_pow_pos k), hx]
    exact Nat.lt_succ_self j
  have hcov : ¬ Covers F' x := fun hc => ((h.covers x).mp hc).elim (hfree x hx) hnot
  obtain ⟨m₁, F₁, L₁, n, i, hcall, hlayout, h₁, hcovers, hxn, hF₁, hpages, htop⟩ :=
    h.inv.pageFree_one hcov hlt
  obtain ⟨m₂, F₂, L₂, hcall₂, hlayout₂, h₂, hcovers₂, n₂, i₂, hreleased⟩ :=
    free_inv hmem hk (Nat.le_add_right maxOrder k) hfree hin
  rw [hstart] at hcall
  rw [hcall, pageFree, freePagesOfPower2, orderOf_pow hk, hcall₂]
  -- the same pages are free, so the same blocks are
  have hsame : ∀ y, Covers F₁ y ↔ Covers F₂ y := by
    intro y
    rw [hcovers, h.covers, hcovers₂]
    constructor
    · rintro ((hc | hd) | rfl)
      · exact Or.inl hc
      · exact Or.inr (hdone y hd)
      · exact Or.inr hx
    · rintro (hc | hy)
      · exact Or.inl (Or.inl hc)
      · exact (hall y hy).elim Or.inr fun hd => Or.inl (Or.inr hd)
  obtain rfl : F₁ = F₂ := h₁.unique h₂ hsame
  have hxn₂ : x / 2 ^ n₂ = i₂ := hreleased.within x hx
  obtain rfl : n = n₂ := h₁.separate x n n₂ (hxn ▸ hF₁) (hxn₂ ▸ hreleased.free)
  obtain rfl : i = i₂ := hxn.symm.trans hxn₂
  have hstart' : m₁.memoryStart = m₂.memoryStart := by rw [hlayout, h.layout, hlayout₂]
  obtain ⟨hperm, hcounts, hbits⟩ := h₁.same h₂ hstart'
  constructor
  case lists => exact ⟨L₁, L₂, fun l hl => ⟨h₁.linked l hl, h₂.linked l hl, hperm l hl⟩⟩
  case counts => exact hcounts
  case bits =>
    funext l
    by_cases hl : l < maxOrder - 1
    · exact hbits l hl
    · funext b
      rw [htop l (Nat.not_lt.mp hl), hreleased.top l (Nat.not_lt.mp hl), h.top l (Nat.not_lt.mp hl)]
  case pages =>
    funext y
    rw [hpages, hreleased.pages]
    by_cases hy : y / 2 ^ n = i
    · rw [if_pos hy, if_pos hy]
    · have hyk : y / 2 ^ k ≠ j := fun hyk => hy (nested_of_common hx hxn hreleased.le hyk)
      rw [if_neg hy, if_neg hy, h.pages y hyk]

/-- **Page by page.**  From a block that is partly released on, in any order. -/
theorem Partly.freePages (h : Partly mem m F F' L' k j done) (hmem : Inv mem F L) (hk : k < maxOrder)
    (hfree : ∀ x, x / 2 ^ k = j → ¬ Covers F x) (hin : (j + 1) * 2 ^ k ≤ pageTotal mem) {xs : List ℕ}
    (hne : xs ≠ []) (hnodup : xs.Nodup) (hxs : ∀ x ∈ xs, x / 2 ^ k = j ∧ x ∉ done)
    (hdone : ∀ y, y ∈ done → y / 2 ^ k = j) (hall : ∀ y, y / 2 ^ k = j → y ∈ xs ∨ y ∈ done) :
    Same (Buddy.freePages m (xs.map fun x => mem.memoryStart + x * pgSize))
      (pageFree mem (blockAddr mem.memoryStart k j) (2 ^ k)).1 := by
  induction xs generalizing m F' L' done with
  | nil => exact absurd rfl hne
  | cons x xs ih =>
    obtain ⟨hx, hnot⟩ := hxs x List.mem_cons_self
    obtain ⟨hxnot, hnodup⟩ := List.nodup_cons.mp hnodup
    cases xs with
    | nil =>
      show Same (pageFree m (mem.memoryStart + x * pgSize) 1).1 _
      refine h.last hmem hk hfree hin hx hnot hdone fun y hy => ?_
      exact (hall y hy).imp_left List.mem_singleton.mp
    | cons y ys =>
      obtain ⟨hy, hyd⟩ := hxs y (List.mem_cons_of_mem x List.mem_cons_self)
      have hyx : y ≠ x := fun he => hxnot (he ▸ List.mem_cons_self)
      obtain ⟨F₁, L₁, h₁⟩ := h.release hk hfree hin hx hnot hy hyx hyd
      rw [List.map_cons, Buddy.freePages]
      refine ih h₁ (List.cons_ne_nil y ys) hnodup (fun z hz => ?_) (fun z hz => ?_) fun z hz => ?_
      · obtain ⟨hzj, hzd⟩ := hxs z (List.mem_cons_of_mem x hz)
        refine ⟨hzj, fun hmem => ?_⟩
        rcases List.mem_cons.mp hmem with rfl | hmem
        · exact hxnot hz
        · exact hzd hmem
      · rcases List.mem_cons.mp hz with rfl | hz
        · exact hx
        · exact hdone z hz
      · rcases hall z hz with hmem | hmem
        · rcases List.mem_cons.mp hmem with rfl | hmem
          · exact Or.inr List.mem_cons_self
          · exact Or.inl hmem
        · exact Or.inr (List.mem_cons_of_mem x hmem)

/-! ### In any order -/

/-- The numbers of the pages of a block. -/
def blockPages (k j : ℕ) : List ℕ := (List.range (2 ^ k)).map fun n => j * 2 ^ k + n

theorem mem_blockPages : x ∈ blockPages k j ↔ x / 2 ^ k = j := by
  have hpos := Nat.two_pow_pos k
  rw [blockPages, List.mem_map, Nat.div_eq_iff hpos]
  constructor
  · rintro ⟨n, hn, rfl⟩
    have hlt := List.mem_range.mp hn
    omega
  · intro hx
    exact ⟨x - j * 2 ^ k, List.mem_range.mpr (by omega), by omega⟩

theorem blockPages_nodup : (blockPages k j).Nodup :=
  List.nodup_range.map fun _ _ h => Nat.add_left_cancel h

/-- The addresses of the pages in some order are the pages in some order. -/
theorem exists_pages {ps : List ℕ} {start : ℕ}
    (hperm : ps.Perm ((List.range (2 ^ k)).map fun n => blockAddr start k j + n * pgSize)) :
    ∃ xs : List ℕ, xs.Perm (blockPages k j) ∧ ps = xs.map fun x => start + x * pgSize := by
  have haddr : ∀ n, blockAddr start k j + n * pgSize = start + (j * 2 ^ k + n) * pgSize := by
    intro n
    rw [blockAddr]
    ring
  have hmap : ((List.range (2 ^ k)).map fun n => blockAddr start k j + n * pgSize) =
      (blockPages k j).map fun x => start + x * pgSize := by
    rw [blockPages, List.map_map]
    apply List.map_congr_left
    intro n _
    exact haddr n
  rw [hmap] at hperm
  have hback : ∀ x, (start + x * pgSize - start) / pgSize = x := by
    intro x
    rw [Nat.add_sub_cancel_left, Nat.mul_div_cancel x (by decide)]
  refine ⟨ps.map fun p => (p - start) / pgSize, ?_, ?_⟩
  · have hpages := hperm.map fun p => (p - start) / pgSize
    rw [List.map_map] at hpages
    refine hpages.trans (List.Perm.of_eq ?_)
    calc (blockPages k j).map ((fun p => (p - start) / pgSize) ∘ fun x => start + x * pgSize)
        = (blockPages k j).map id := List.map_congr_left fun x _ => hback x
      _ = blockPages k j := List.map_id _
  · rw [List.map_map]
    symm
    calc ps.map ((fun x => start + x * pgSize) ∘ fun p => (p - start) / pgSize)
        = ps.map id := by
          apply List.map_congr_left
          intro p hp
          obtain ⟨x, -, rfl⟩ := List.mem_map.mp (hperm.mem_iff.mp hp)
          show start + (start + x * pgSize - start) / pgSize * pgSize = start + x * pgSize
          rw [hback]
      _ = ps := List.map_id _

/-- **The order of the releases does not matter.**  In every state of every run, a block that is
allocated may be released page by page in any order: the free blocks, the counters, the bits and the
records come out as after a single release. -/
theorem freePages_same {tr : List (Transition State Event)} {s : State} {ps : List ℕ}
    (hstart : 0 < mem.memoryStart) (haligned : mem.memoryStart % 2 ^ 22 = 0)
    (hrun : Run Step (initialState mem) tr s) (hk : k < maxOrder)
    (hall : blockBytes (blockAddr s.mem.memoryStart k j) k ⊆ s.allocated)
    (hperm : ps.Perm ((List.range (2 ^ k)).map fun n =>
      blockAddr s.mem.memoryStart k j + n * pgSize)) :
    Same (freePages s.mem ps) (pageFree s.mem (blockAddr s.mem.memoryStart k j) (2 ^ k)).1 := by
  obtain ⟨⟨F, L, h⟩, -⟩ := good_of_run hstart haligned hrun
  obtain ⟨xs, hxs, rfl⟩ := exists_pages hperm
  have hnone : Partly s.mem s.mem F F L k j [] :=
    ⟨rfl, h.inv, fun x => by simp, fun _ _ => rfl, fun _ _ => rfl⟩
  have hmem : ∀ x, x ∈ xs ↔ x / 2 ^ k = j := fun x => hxs.mem_iff.trans mem_blockPages
  have hne : xs ≠ [] := List.ne_nil_of_mem ((hmem _).mpr (mul_pow_div k j))
  refine hnone.freePages h.inv hk (fun x hx => h.not_covers hall hx) (h.block_le hall) hne
    (hxs.nodup_iff.mpr blockPages_nodup) (fun x hx => ⟨(hmem x).mp hx, List.not_mem_nil⟩)
    (fun y hy => absurd hy List.not_mem_nil) fun y hy => Or.inl ((hmem y).mpr hy)

/-- The four pages of a block, from the last to the first. -/
theorem freePages_same_demo : ∃ tr s, Run Step (initialState (demoMemory 0x3100000)) tr s ∧
    tr.length = 1 ∧ Same (freePages s.mem [0x1000000 + 8191 * pgSize, 0x1000000 + 8190 * pgSize,
        0x1000000 + 8189 * pgSize, 0x1000000 + 8188 * pgSize])
      (pageFree s.mem (blockAddr s.mem.memoryStart 2 2047) (2 ^ 2)).1 := by
  obtain ⟨mem, hstep⟩ := demo_alloc_step
  have hrun := Run.start.extend hstep
  have hclog : Nat.clog 2 3 = 2 := by decide
  have hstart : mem.memoryStart = 0x1000000 := by
    have hlayout := (good_of_run (by decide) (by decide) hrun).2.trans (initMemory_layout _)
    exact congrArg MemoryLayout.memoryStart hlayout
  have hall : blockBytes (blockAddr mem.memoryStart 2 2047) 2 ⊆
      ∅ ∪ blockBytes (blockAddr 0x1000000 2 2047) (Nat.clog 2 3) := by
    rw [hstart, hclog]
    exact Set.subset_union_right
  refine ⟨_, _, hrun, rfl, freePages_same (by decide) (by decide) hrun (by decide) hall ?_⟩
  show List.Perm _ ((List.range (2 ^ 2)).map fun n => blockAddr mem.memoryStart 2 2047 + n * pgSize)
  rw [hstart]
  decide

end Buddy

end OmochaOS
