import OmochaOS.Lib.DoublyLinkedList
import OmochaOS.Lib.DyadicBlocks
import OmochaOS.Memory.Buddy
import Mathlib.Data.Nat.Bitwise
import Mathlib.Data.Nat.Log
import Mathlib.Data.Nat.Size
import Mathlib.Tactic.Ring

/-!
# What the page allocator keeps (`modules/memory/buddy.c`)

The free blocks are a set of dyadic blocks of pages.  `Represents` ties it to the eleven free lists,
`Inv` adds what the bits of the buddy maps mean.  `allocate_inv` and `free_inv` say what the two
recursions do to the set: a block less, a block more, and no two buddies are ever free together.
-/

namespace OmochaOS

open DoublyLinkedList DyadicBlocks BitFlags

namespace Buddy

variable {mem mem' : MemoryInfo} {F : ℕ → ℕ → Prop} {L : ℕ → List ℕ} {k l j i x p attr : ℕ}

/-! ### Orders -/

/-- `x` with the bits of `s` places to the right of its bits. -/
theorem getLsbD_smear {x y : BitVec 32} {s : ℕ}
    (h : ∀ i, y.getLsbD i = true ↔ ∃ d < s, x.getLsbD (i + d) = true) (i : ℕ) :
    (y ||| y >>> s).getLsbD i = true ↔ ∃ d < 2 * s, x.getLsbD (i + d) = true := by
  rw [BitVec.getLsbD_or, Bool.or_eq_true, BitVec.getLsbD_ushiftRight, h, h]
  constructor
  · rintro (⟨d, hd, hx⟩ | ⟨d, hd, hx⟩)
    · exact ⟨d, by omega, hx⟩
    · refine ⟨s + d, by omega, ?_⟩
      have hadd : i + (s + d) = s + i + d := by omega
      rw [hadd]
      exact hx
  · rintro ⟨d, hd, hx⟩
    by_cases hds : d < s
    · exact Or.inl ⟨d, hds, hx⟩
    · refine Or.inr ⟨d - s, by omega, ?_⟩
      have hadd : s + i + (d - s) = i + d := by omega
      rw [hadd]
      exact hx

/-- `x` with every bit below its highest one. -/
def filled (x : BitVec 32) : BitVec 32 :=
  let x := x ||| x >>> 1
  let x := x ||| x >>> 2
  let x := x ||| x >>> 4
  let x := x ||| x >>> 8
  x ||| x >>> 16

theorem getLsbD_filled (x : BitVec 32) (i : ℕ) :
    (filled x).getLsbD i = true ↔ ∃ d, x.getLsbD (i + d) = true := by
  have h₀ : ∀ i, x.getLsbD i = true ↔ ∃ d < 1, x.getLsbD (i + d) = true := by
    intro i
    constructor
    · intro h
      exact ⟨0, by decide, h⟩
    · rintro ⟨d, hd, h⟩
      obtain rfl : d = 0 := by omega
      exact h
  have h₁ := getLsbD_smear (getLsbD_smear (getLsbD_smear (getLsbD_smear (getLsbD_smear h₀)))) i
  rw [filled, h₁]
  constructor
  · rintro ⟨d, -, h⟩
    exact ⟨d, h⟩
  · rintro ⟨d, h⟩
    have hlt := BitVec.lt_of_getLsbD h
    exact ⟨d, by omega, h⟩

theorem toNat_filled (x : BitVec 32) : (filled x).toNat = 2 ^ x.toNat.size - 1 := by
  apply Nat.eq_of_testBit_eq
  intro i
  rw [Nat.testBit_two_pow_sub_one, BitVec.testBit_toNat]
  apply Bool.eq_iff_iff.mpr
  rw [getLsbD_filled, decide_eq_true_iff]
  constructor
  · rintro ⟨d, hd⟩
    rw [← BitVec.testBit_toNat] at hd
    have hsize := Nat.lt_size.mpr (Nat.ge_two_pow_of_testBit hd)
    omega
  · intro hi
    -- the highest bit of `x`
    have hge : 2 ^ (x.toNat.size - 1) ≤ x.toNat := Nat.lt_size.mp (by omega)
    have hsucc : x.toNat.size - 1 + 1 = x.toNat.size := by omega
    have hlt : x.toNat < 2 ^ (x.toNat.size - 1 + 1) := by
      rw [hsucc]
      exact Nat.lt_size_self _
    refine ⟨x.toNat.size - 1 - i, ?_⟩
    have hadd : i + (x.toNat.size - 1 - i) = x.toNat.size - 1 := by omega
    rw [hadd, ← BitVec.testBit_toNat]
    exact Nat.testBit_of_two_pow_le_and_two_pow_add_one_gt hge hlt

theorem bsf_twoPow {c : ℕ} (hc : c < 32) : bsf (BitVec.twoPow 32 c) = c := by
  have hne : BitVec.twoPow 32 c ≠ 0 := by
    intro h0
    have hbit : (BitVec.twoPow 32 c).getLsbD c = true := by simp [hc]
    rw [h0] at hbit
    simp at hbit
  have hset := (bsf_spec hne).2
  rw [BitVec.getLsbD_twoPow] at hset
  simpa [hc, eq_comm] using hset

/-- The order for `n` pages is the least one with a block for them. -/
theorem orderOf_eq_clog {n : ℕ} (hpos : 1 ≤ n) (hn : n ≤ 2 ^ 31) : orderOf n = Nat.clog 2 n := by
  have hc : Nat.clog 2 n ≤ 31 := (Nat.clog_le_iff_le_pow (by decide)).mpr hn
  have hle : n ≤ 2 ^ Nat.clog 2 n := Nat.le_pow_clog (by decide) n
  have hsub : (BitVec.ofNat 32 n - 1).toNat = n - 1 := by
    rw [BitVec.toNat_sub, BitVec.toNat_ofNat]
    simp
    omega
  have hsize : (n - 1).size = Nat.clog 2 n := by
    apply Nat.le_antisymm
    · rw [Nat.size_le]
      omega
    · rw [Nat.clog_le_iff_le_pow (by decide)]
      have := Nat.lt_size_self (n - 1)
      omega
  have hround : roundUpPower2 (BitVec.ofNat 32 n) = BitVec.twoPow 32 (Nat.clog 2 n) := by
    have hfilled : roundUpPower2 (BitVec.ofNat 32 n) = filled (BitVec.ofNat 32 n - 1) + 1 := rfl
    apply BitVec.eq_of_toNat_eq
    have hlt : 2 ^ Nat.clog 2 n < 2 ^ 32 := Nat.pow_lt_pow_right (by decide) (by omega)
    have hone := Nat.two_pow_pos (Nat.clog 2 n)
    rw [hfilled, BitVec.toNat_add, toNat_filled, hsub, hsize, BitVec.toNat_twoPow]
    simp
    omega
  rw [orderOf, trailingZero, hround, bsf_twoPow (by omega)]

/-- The order for the pages of a block. -/
theorem orderOf_pow (hk : k < maxOrder) : orderOf (2 ^ k) = k := by
  have h11 : maxOrder = 11 := rfl
  have hle : 2 ^ k ≤ 2 ^ 31 := Nat.pow_le_pow_right (by decide) (by omega)
  rw [orderOf_eq_clog Nat.one_le_two_pow hle, Nat.clog_pow 2 k (by decide)]

/-! ### Blocks and addresses -/

/-- The address of a block. -/
def blockAddr (memoryStart order j : ℕ) : ℕ := memoryStart + j * 2 ^ order * pgSize

/-- The number of pages of the memory that is managed. -/
def pageTotal (mem : MemoryInfo) : ℕ := (mem.usableEnd - mem.memoryStart) / pgSize

theorem blockAddr_pos (hstart : 0 < mem.memoryStart) : blockAddr mem.memoryStart k j ≠ 0 := by
  rw [blockAddr]
  omega

theorem pageId_blockAddr : pageId mem (blockAddr mem.memoryStart k j) = j * 2 ^ k := by
  rw [pageId, blockAddr, Nat.add_sub_cancel_left, Nat.mul_div_cancel _ (by decide)]

theorem pairIndex_blockAddr : pairIndex mem (blockAddr mem.memoryStart k j) k = j / 2 := by
  rw [pairIndex, pageId_blockAddr, Nat.shiftRight_eq_div_pow, div_pow_succ, mul_pow_div]

theorem pairIndex_congr (hlayout : mem'.toMemoryLayout = mem.toMemoryLayout) :
    pairIndex mem' p k = pairIndex mem p k := by
  rw [pairIndex, pageId, hlayout, pairIndex, pageId]

theorem blockAddr_inj {start : ℕ} :
    blockAddr start k j = blockAddr start l i ↔ j * 2 ^ k = i * 2 ^ l := by
  have hpage : pgSize = 4096 := rfl
  rw [blockAddr, blockAddr, hpage]
  omega

theorem blockAddr_order_inj {start : ℕ} : blockAddr start k j = blockAddr start k i ↔ j = i := by
  rw [blockAddr_inj]
  constructor
  · exact Nat.eq_of_mul_eq_mul_right (Nat.two_pow_pos k)
  · rintro rfl
    rfl

/-- The higher half of a block. -/
theorem blockAddr_higher {start : ℕ} :
    blockAddr start (k + 1) j + 2 ^ k * pgSize = blockAddr start k (2 * j + 1) := by
  rw [blockAddr, blockAddr, Nat.pow_succ]
  ring

theorem blockAddr_lower {start : ℕ} : blockAddr start (k + 1) j = blockAddr start k (2 * j) := by
  rw [blockAddr_inj, Nat.pow_succ]
  ring

/-! ### Free lists -/

/-- `free_list[order]` leads along `l`. -/
def OnFreeList (mem : MemoryInfo) (order : ℕ) (l : List ℕ) : Prop :=
  Linked mem.prev mem.next 0 0 (mem.freeList order) l

/-- The free lists of `mem` hold the blocks of `F`, and those lie in the memory and do not overlap. -/
structure Represents (mem : MemoryInfo) (F : ℕ → ℕ → Prop) (L : ℕ → List ℕ) : Prop where
  start_pos : 0 < mem.memoryStart
  order_lt : ∀ k j, F k j → k < maxOrder
  within : ∀ k j, F k j → (j + 1) * 2 ^ k ≤ pageTotal mem
  separate : Separate F
  linked : ∀ k < maxOrder, OnFreeList mem k (L k)
  nodup : ∀ k < maxOrder, (L k).Nodup
  mem_iff : ∀ k < maxOrder, ∀ p, p ∈ L k ↔ ∃ j, F k j ∧ p = blockAddr mem.memoryStart k j
  count : ∀ k < maxOrder, mem.freeCount k = (L k).length

theorem Represents.mem_blockAddr (h : Represents mem F L) (hk : k < maxOrder) :
    blockAddr mem.memoryStart k j ∈ L k ↔ F k j := by
  rw [h.mem_iff k hk]
  constructor
  · rintro ⟨i, hi, heq⟩
    obtain rfl := blockAddr_order_inj.mp heq
    exact hi
  · intro hj
    exact ⟨j, hj, rfl⟩

/-- A block is on the list of one order only. -/
theorem Represents.order_unique (h : Represents mem F L) (hk : k < maxOrder) (hl : l < maxOrder)
    (hpk : p ∈ L k) (hpl : p ∈ L l) : k = l := by
  obtain ⟨j, hj, rfl⟩ := (h.mem_iff k hk p).mp hpk
  obtain ⟨i, hi, heq⟩ := (h.mem_iff l hl _).mp hpl
  rw [blockAddr_inj] at heq
  apply h.separate (j * 2 ^ k) k l
  · rw [mul_pow_div]
    exact hj
  · rw [heq, mul_pow_div]
    exact hi

theorem Represents.congr (h : Represents mem F L) (hlayout : mem'.toMemoryLayout = mem.toMemoryLayout)
    (hlist : mem'.freeList = mem.freeList) (hcount : mem'.freeCount = mem.freeCount)
    (hprev : ∀ k < maxOrder, ∀ p ∈ L k, mem'.prev p = mem.prev p)
    (hnext : ∀ k < maxOrder, ∀ p ∈ L k, mem'.next p = mem.next p) : Represents mem' F L := by
  have hstart : mem'.memoryStart = mem.memoryStart := by rw [hlayout]
  have htotal : pageTotal mem' = pageTotal mem := by rw [pageTotal, hlayout, pageTotal]
  constructor
  case start_pos => exact hstart ▸ h.start_pos
  case order_lt => exact h.order_lt
  case within => exact htotal ▸ h.within
  case separate => exact h.separate
  case linked =>
    intro k hk
    rw [OnFreeList, hlist]
    exact (h.linked k hk).congr (hprev k hk) (hnext k hk)
  case nodup => exact h.nodup
  case mem_iff => exact hstart ▸ h.mem_iff
  case count => exact hcount ▸ h.count

/-! ### A block is attached -/

theorem attachToFreeList_prev : (attachToFreeList mem p k).prev =
    Function.update (Function.update mem.prev (mem.freeList k) p) p 0 := by
  simp only [attachToFreeList, Function.update_self]

theorem Represents.notMem_of_free (h : Represents mem F L) (hl : l < maxOrder)
    (hfree : ∀ x, x / 2 ^ k = j → ¬ Covers F x) : blockAddr mem.memoryStart k j ∉ L l := by
  intro hmem
  obtain ⟨i, hi, heq⟩ := (h.mem_iff l hl _).mp hmem
  rw [blockAddr_inj] at heq
  apply hfree (j * 2 ^ k) (mul_pow_div k j)
  refine ⟨l, ?_⟩
  rw [heq, mul_pow_div]
  exact hi

/-- The head of one list is not on another. -/
theorem Represents.ne_head (h : Represents mem F L) (hk : k < maxOrder) (hl : l < maxOrder)
    (hlk : l ≠ k) (hp : p ∈ L l) : p ≠ mem.freeList k := by
  rintro rfl
  have hlist := h.linked k hk
  cases hL : L k with
  | nil =>
    rw [hL] at hlist
    exact (h.linked l hl).ne_null _ hp hlist
  | cons a rest =>
    rw [hL] at hlist
    have hmem : mem.freeList k ∈ L k := by
      rw [hL, hlist.head_eq]
      exact List.mem_cons_self
    exact hlk (h.order_unique hl hk hp hmem)

/-- **Attach.**  A block that does not meet a free block is put on the list of its order. -/
theorem Represents.attach (h : Represents mem F L) (hk : k < maxOrder)
    (hfree : ∀ x, x / 2 ^ k = j → ¬ Covers F x) (hin : (j + 1) * 2 ^ k ≤ pageTotal mem) :
    Represents (setFreeCount (attachToFreeList mem (blockAddr mem.memoryStart k j) k) k
      (mem.freeCount k + 1)) (put F k j)
      (Function.update L k (blockAddr mem.memoryStart k j :: L k)) := by
  have hnot : ∀ l < maxOrder, blockAddr mem.memoryStart k j ∉ L l := fun l hl =>
    h.notMem_of_free hl hfree
  constructor
  case start_pos => exact h.start_pos
  case order_lt =>
    rintro l i (hl | ⟨rfl, -⟩)
    · exact h.order_lt l i hl
    · exact hk
  case within =>
    rintro l i (hl | ⟨rfl, rfl⟩)
    · exact h.within l i hl
    · exact hin
  case separate => exact h.separate.put hfree
  case linked =>
    intro l hl
    show Linked (attachToFreeList mem _ k).prev (Function.update mem.next _ (mem.freeList k)) 0 0
      (Function.update mem.freeList k _ l) (Function.update L k _ l)
    rw [attachToFreeList_prev]
    by_cases hlk : l = k
    · subst hlk
      rw [Function.update_self, Function.update_self]
      exact (h.linked l hl).push (h.nodup l hl) (hnot l hl) (blockAddr_pos h.start_pos)
    · rw [Function.update_of_ne hlk, Function.update_of_ne hlk]
      apply (h.linked l hl).congr
      · intro q hq
        have hqp : q ≠ blockAddr mem.memoryStart k j := fun he => hnot l hl (he ▸ hq)
        rw [Function.update_of_ne hqp, Function.update_of_ne (h.ne_head hk hl hlk hq)]
      · intro q hq
        have hqp : q ≠ blockAddr mem.memoryStart k j := fun he => hnot l hl (he ▸ hq)
        rw [Function.update_of_ne hqp]
  case nodup =>
    intro l hl
    by_cases hlk : l = k
    · subst hlk
      rw [Function.update_self]
      exact List.nodup_cons.mpr ⟨hnot l hl, h.nodup l hl⟩
    · rw [Function.update_of_ne hlk]
      exact h.nodup l hl
  case mem_iff =>
    intro l hl q
    show q ∈ Function.update L k _ l ↔ ∃ i, put F k j l i ∧ q = blockAddr mem.memoryStart l i
    by_cases hlk : l = k
    · subst hlk
      rw [Function.update_self, List.mem_cons, h.mem_iff l hl]
      constructor
      · rintro (rfl | ⟨i, hi, rfl⟩)
        · exact ⟨j, Or.inr ⟨rfl, rfl⟩, rfl⟩
        · exact ⟨i, Or.inl hi, rfl⟩
      · rintro ⟨i, hi | ⟨-, rfl⟩, rfl⟩
        · exact Or.inr ⟨i, hi, rfl⟩
        · exact Or.inl rfl
    · rw [Function.update_of_ne hlk, h.mem_iff l hl]
      constructor
      · rintro ⟨i, hi, rfl⟩
        exact ⟨i, Or.inl hi, rfl⟩
      · rintro ⟨i, hi | ⟨he, -⟩, rfl⟩
        · exact ⟨i, hi, rfl⟩
        · exact absurd he hlk
  case count =>
    intro l hl
    show Function.update mem.freeCount k _ l = (Function.update L k _ l).length
    by_cases hlk : l = k
    · subst hlk
      rw [Function.update_self, Function.update_self, List.length_cons, h.count l hl]
    · rw [Function.update_of_ne hlk, Function.update_of_ne hlk, h.count l hl]

/-! ### A block is removed -/

theorem removeFromFreeList_inner (hprev : mem.prev p ≠ 0) : removeFromFreeList mem p k =
    { mem with prev := joinPrev mem.prev mem.next 0 p, next := joinNext mem.prev mem.next 0 p } := by
  have hnext : Function.update mem.next (mem.prev p) (mem.next p) p = mem.next p := by
    by_cases hpp : p = mem.prev p
    · rw [← hpp, Function.update_self]
    · rw [Function.update_of_ne hpp]
  simp only [removeFromFreeList, if_pos hprev, hnext, joinPrev, joinNext]

theorem removeFromFreeList_first (hprev : mem.prev p = 0) : removeFromFreeList mem p k =
    { mem with
      freeList := Function.update mem.freeList k (mem.next p)
      prev := Function.update (Function.update mem.prev (mem.next p) 0) p 0
      next := Function.update mem.next p 0 } := by
  have hnot : ¬ mem.prev p ≠ 0 := fun h => h hprev
  simp only [removeFromFreeList, if_neg hnot]

/-- The neighbours of a block on one list are not on another. -/
theorem Represents.ne_neighbour (h : Represents mem F L) (hk : k < maxOrder) (hl : l < maxOrder)
    (hlk : l ≠ k) (hp : p ∈ L k) {q : ℕ} (hq : q ∈ L l) :
    q ≠ p ∧ q ≠ mem.next p ∧ q ≠ mem.prev p := by
  have hother : ∀ r ∈ L k, q ≠ r := by
    rintro r hr rfl
    exact hlk (h.order_unique hl hk hq hr)
  have hnull : q ≠ 0 := (h.linked l hl).ne_null q hq
  have hlist := h.linked k hk
  have hnodup := h.nodup k hk
  refine ⟨hother p hp, ?_, ?_⟩
  · cases hL : L k with
    | nil =>
      rw [hL] at hp
      exact absurd hp List.not_mem_nil
    | cons a rest =>
      rw [OnFreeList, hL] at hlist
      rw [hL] at hp hother
      rcases hlist.next_mem hp with hzero | hmem
      · rw [hzero]
        exact hnull
      · exact hother _ (List.mem_cons_of_mem a hmem)
  · by_cases hzero : mem.prev p = 0
    · rw [hzero]
      exact hnull
    · have hhead : mem.freeList k ≠ p := fun he => hzero ((hlist.prev_eq_null_iff hp hnodup).mpr he)
      cases hL : L k with
      | nil =>
        rw [hL] at hp
        exact absurd hp List.not_mem_nil
      | cons a rest =>
        rw [OnFreeList, hL] at hlist
        rw [hL] at hp hother
        have hpa : p ≠ a := fun he => hhead (hlist.head_eq.trans he.symm)
        exact hother _ (hlist.prev_mem ((List.mem_cons.mp hp).resolve_left hpa))

/-- The free lists after a block is removed from one of them. -/
theorem Represents.remove_linked (h : Represents mem F L) (hk : k < maxOrder) (hl : l < maxOrder)
    (hp : p ∈ L k) :
    OnFreeList (removeFromFreeList mem p k) l (Function.update L k ((L k).erase p) l) := by
  have hlist := h.linked k hk
  have hnodup := h.nodup k hk
  have hhead := hlist.prev_eq_null_iff hp hnodup
  by_cases hprev : mem.prev p = 0
  · rw [removeFromFreeList_first hprev]
    show Linked (Function.update (Function.update mem.prev (mem.next p) 0) p 0)
      (Function.update mem.next p 0) 0 0 (Function.update mem.freeList k (mem.next p) l) _
    by_cases hlk : l = k
    · subst hlk
      rw [Function.update_self, Function.update_self]
      cases hL : L l with
      | nil =>
        rw [hL] at hp
        exact absurd hp List.not_mem_nil
      | cons a rest =>
        rw [OnFreeList, hhead.mp hprev] at hlist
        rw [hL] at hlist hnodup
        obtain rfl := hlist.head_eq
        rw [List.erase_cons_head]
        exact hlist.unlink_head hnodup
    · rw [Function.update_of_ne hlk, Function.update_of_ne hlk]
      apply (h.linked l hl).congr
      · intro q hq
        obtain ⟨hqp, hqnext, -⟩ := h.ne_neighbour hk hl hlk hp hq
        rw [Function.update_of_ne hqp, Function.update_of_ne hqnext]
      · intro q hq
        obtain ⟨hqp, -, -⟩ := h.ne_neighbour hk hl hlk hp hq
        rw [Function.update_of_ne hqp]
  · rw [removeFromFreeList_inner hprev]
    show Linked (joinPrev mem.prev mem.next 0 p) (joinNext mem.prev mem.next 0 p) 0 0
      (mem.freeList l) _
    by_cases hlk : l = k
    · subst hlk
      rw [Function.update_self]
      cases hL : L l with
      | nil =>
        rw [hL] at hp
        exact absurd hp List.not_mem_nil
      | cons a rest =>
        rw [OnFreeList, hL] at hlist
        rw [hL] at hnodup hp
        have hpa : p ≠ a := fun he => hprev (hhead.mpr (hlist.head_eq.trans he.symm))
        rw [List.erase_cons_tail (by simpa using hpa.symm)]
        exact hlist.unlink hnodup ((List.mem_cons.mp hp).resolve_left hpa)
    · rw [Function.update_of_ne hlk]
      apply (h.linked l hl).congr
      · intro q hq
        obtain ⟨hqp, hqnext, -⟩ := h.ne_neighbour hk hl hlk hp hq
        rw [joinPrev, Function.update_of_ne hqp, Function.update_of_ne hqnext]
      · intro q hq
        obtain ⟨hqp, -, hqprev⟩ := h.ne_neighbour hk hl hlk hp hq
        rw [joinNext, Function.update_of_ne hqp, Function.update_of_ne hqprev]

theorem removeFromFreeList_fields (mem : MemoryInfo) (p k : ℕ) :
    (removeFromFreeList mem p k).toMemoryLayout = mem.toMemoryLayout ∧
      (removeFromFreeList mem p k).freeCount = mem.freeCount ∧
      (removeFromFreeList mem p k).bits = mem.bits := by
  by_cases hprev : mem.prev p = 0
  · rw [removeFromFreeList_first hprev]
    exact ⟨rfl, rfl, rfl⟩
  · rw [removeFromFreeList_inner hprev]
    exact ⟨rfl, rfl, rfl⟩

/-- **Remove.**  A free block is taken from the list of its order. -/
theorem Represents.remove (h : Represents mem F L) (hF : F k j) :
    Represents (setFreeCount (removeFromFreeList mem (blockAddr mem.memoryStart k j) k) k
      (mem.freeCount k - 1)) (take F k j)
      (Function.update L k ((L k).erase (blockAddr mem.memoryStart k j))) := by
  have hk := h.order_lt k j hF
  have hmem := (h.mem_blockAddr hk).mpr hF
  obtain ⟨hlayout, hcount, -⟩ :=
    removeFromFreeList_fields mem (blockAddr mem.memoryStart k j) k
  have hstart : (removeFromFreeList mem (blockAddr mem.memoryStart k j) k).memoryStart =
      mem.memoryStart := congrArg MemoryLayout.memoryStart hlayout
  constructor
  case start_pos =>
    show 0 < (removeFromFreeList mem _ k).memoryStart
    rw [hstart]
    exact h.start_pos
  case order_lt => exact fun l i hl => h.order_lt l i hl.1
  case within =>
    intro l i hl
    show _ ≤ ((removeFromFreeList mem _ k).usableEnd - (removeFromFreeList mem _ k).memoryStart) / pgSize
    rw [hlayout]
    exact h.within l i hl.1
  case separate => exact h.separate.take
  case linked =>
    intro l hl
    exact h.remove_linked hk hl hmem
  case nodup =>
    intro l hl
    by_cases hlk : l = k
    · subst hlk
      rw [Function.update_self]
      exact (h.nodup l hl).erase _
    · rw [Function.update_of_ne hlk]
      exact h.nodup l hl
  case mem_iff =>
    intro l hl q
    show q ∈ _ ↔ ∃ i, take F k j l i ∧ q = blockAddr (removeFromFreeList mem _ k).memoryStart l i
    rw [hstart]
    by_cases hlk : l = k
    · subst hlk
      rw [Function.update_self, (h.nodup l hl).mem_erase_iff, h.mem_iff l hl]
      constructor
      · rintro ⟨hne, i, hi, rfl⟩
        refine ⟨i, ⟨hi, ?_⟩, rfl⟩
        rintro ⟨-, rfl⟩
        exact hne rfl
      · rintro ⟨i, ⟨hi, hne⟩, rfl⟩
        exact ⟨fun he => hne ⟨rfl, blockAddr_order_inj.mp he⟩, i, hi, rfl⟩
    · rw [Function.update_of_ne hlk, h.mem_iff l hl]
      constructor
      · rintro ⟨i, hi, rfl⟩
        exact ⟨i, ⟨hi, fun he => hlk he.1⟩, rfl⟩
      · rintro ⟨i, hi, rfl⟩
        exact ⟨i, hi.1, rfl⟩
  case count =>
    intro l hl
    show Function.update (removeFromFreeList mem _ k).freeCount k _ l = (Function.update L k _ l).length
    rw [hcount]
    by_cases hlk : l = k
    · subst hlk
      rw [Function.update_self, Function.update_self, List.length_erase_of_mem hmem, h.count l hl]
    · rw [Function.update_of_ne hlk, Function.update_of_ne hlk, h.count l hl]

/-! ### The buddy maps -/

/-- What the allocator keeps: no two buddies below the greatest order are free, and the bit of a pair
says whether one of them is. -/
structure Inv (mem : MemoryInfo) (F : ℕ → ℕ → Prop) (L : ℕ → List ℕ) : Prop
    extends Represents mem F L where
  lone : Lone (maxOrder - 1) F
  bit_iff : ∀ k < maxOrder - 1, ∀ i, mem.bits k i = true ↔ ∃ j, F k j ∧ j / 2 = i

/-- `xor_buddy_map` turns the bit of the pair over. -/
theorem xorBuddyMap_bits {i : ℕ} : (xorBuddyMap mem p k).1.bits l i =
    if l = k ∧ i = pairIndex mem p k then !mem.bits l i else mem.bits l i := by
  show Function.update mem.bits k (Function.update (mem.bits k) _ _) l i = _
  by_cases hlk : l = k
  · subst hlk
    rw [Function.update_self]
    by_cases hi : i = pairIndex mem p l
    · rw [if_pos ⟨rfl, hi⟩, hi, Function.update_self]
    · rw [if_neg fun h => hi h.2, Function.update_of_ne hi]
  · rw [if_neg fun h => hlk h.1, Function.update_of_ne hlk]

/-- The bits follow when a block leaves a pair of which the other one is not free. -/
theorem bits_take (hlone : Lone (maxOrder - 1) F) (hF : F k j) (hlt : l < maxOrder - 1)
    (hbits : mem.bits l i = true ↔ ∃ b, F l b ∧ b / 2 = i)
    (hnew : mem'.bits l i = if l = k ∧ i = j / 2 then !mem.bits l i else mem.bits l i) :
    mem'.bits l i = true ↔ ∃ b, take F k j l b ∧ b / 2 = i := by
  by_cases hpair : l = k ∧ i = j / 2
  · obtain ⟨rfl, rfl⟩ := hpair
    rw [if_pos ⟨rfl, rfl⟩] at hnew
    have hold : mem.bits l (j / 2) = true := hbits.mpr ⟨j, hF, rfl⟩
    rw [hnew, hold]
    constructor
    · intro h
      exact absurd h Bool.false_ne_true
    · rintro ⟨b, ⟨hb, hne⟩, hdiv⟩
      exfalso
      rcases div_two_eq_iff.mp hdiv with rfl | rfl
      · exact hne ⟨rfl, rfl⟩
      · exact hlone l j hlt hF hb
  · rw [if_neg hpair] at hnew
    rw [hnew, hbits]
    constructor
    · rintro ⟨b, hb, rfl⟩
      refine ⟨b, ⟨hb, ?_⟩, rfl⟩
      rintro ⟨rfl, rfl⟩
      exact hpair ⟨rfl, rfl⟩
    · rintro ⟨b, hb, rfl⟩
      exact ⟨b, hb.1, rfl⟩

/-- The bits follow when a block joins a pair of which none was free. -/
theorem bits_put (hnone : l = k → ∀ b, b / 2 = j / 2 → ¬ F l b)
    (hbits : mem.bits l i = true ↔ ∃ b, F l b ∧ b / 2 = i)
    (hnew : mem'.bits l i = if l = k ∧ i = j / 2 then !mem.bits l i else mem.bits l i) :
    mem'.bits l i = true ↔ ∃ b, put F k j l b ∧ b / 2 = i := by
  by_cases hpair : l = k ∧ i = j / 2
  · obtain ⟨rfl, rfl⟩ := hpair
    rw [if_pos ⟨rfl, rfl⟩] at hnew
    have hold : mem.bits l (j / 2) = false := by
      rw [← Bool.not_eq_true, hbits]
      rintro ⟨b, hb, hdiv⟩
      exact hnone rfl b hdiv hb
    rw [hnew, hold]
    exact iff_of_true rfl ⟨j, Or.inr ⟨rfl, rfl⟩, rfl⟩
  · rw [if_neg hpair] at hnew
    rw [hnew, hbits]
    constructor
    · rintro ⟨b, hb, rfl⟩
      exact ⟨b, Or.inl hb, rfl⟩
    · rintro ⟨b, hb | ⟨rfl, rfl⟩, rfl⟩
      · exact ⟨b, hb, rfl⟩
      · exact absurd ⟨rfl, rfl⟩ hpair

end Buddy

end OmochaOS
