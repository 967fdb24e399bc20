import OmochaOS.Lib.TransitionRun
import OmochaOS.Memory.BuddyAllocate
import OmochaOS.Memory.Layout
import Mathlib.Data.Set.Lattice
import Mathlib.Order.CompletePartialOrder
import Mathlib.Order.Interval.Set.Basic

/-!
# Runs of the page allocator (`modules/memory/buddy.c`, `memory_init.c`)

From `init_memory` on, pages are allocated and released in any order and any grouping, and the owners
of the allocated pages write to them.  What is allocated is kept next to the allocator, as a set of
bytes.  `Task_Memory` starts its memory at 16 MB, so `memory_start` is not the null pointer.

`page_free` does not look at the order, and two neighbours of 4 MB make an aligned block of 8 MB.  `Step`
has the calls with an order of the allocator, and `AnyCall` the others too, which leave the three arrays.
-/

namespace OmochaOS

open DoublyLinkedList DyadicBlocks TransitionRun

namespace Buddy

variable {mem mem' : MemoryInfo} {F F' : ℕ → ℕ → Prop} {L L' : ℕ → List ℕ} {k l j i x p a : ℕ}

/-! ### The allocator after `init_memory` -/

/-- The blocks below `n` of the greatest order. -/
def maxBlocks (n : ℕ) : ℕ → ℕ → Prop := fun k j => k = maxOrder - 1 ∧ j < n

theorem put_maxBlocks {n : ℕ} : put (maxBlocks n) (maxOrder - 1) n = maxBlocks (n + 1) := by
  funext k j
  apply propext
  constructor
  · rintro (⟨hk, hj⟩ | ⟨hk, rfl⟩)
    · exact ⟨hk, Nat.lt_succ_of_lt hj⟩
    · exact ⟨hk, Nat.lt_succ_self j⟩
  · rintro ⟨hk, hj⟩
    rcases Nat.lt_succ_iff_lt_or_eq.mp hj with hj | rfl
    · exact Or.inl ⟨hk, hj⟩
    · exact Or.inr ⟨hk, rfl⟩

/-- The loop attaches one block of the greatest order more. -/
theorem Inv.attachMaxBlock (h : Inv mem F L)
    (hfree : ∀ x, x / 2 ^ (maxOrder - 1) = j → ¬ Covers F x)
    (hin : (j + 1) * 2 ^ (maxOrder - 1) ≤ pageTotal mem) :
    ∃ L', Inv (attachMaxBlock mem (blockAddr mem.memoryStart (maxOrder - 1) j))
      (put F (maxOrder - 1) j) L' := by
  refine ⟨_, h.toRepresents.attach (by decide) hfree hin, h.lone.put fun hlt => ?_, ?_⟩
  · exact absurd hlt (Nat.lt_irrefl _)
  · intro k hk i
    rw [show (Buddy.attachMaxBlock mem _).bits k i = mem.bits k i from rfl, h.bit_iff k hk]
    constructor
    · rintro ⟨b, hb, hdiv⟩
      exact ⟨b, Or.inl hb, hdiv⟩
    · rintro ⟨b, hb | ⟨rfl, -⟩, hdiv⟩
      · exact ⟨b, hb, hdiv⟩
      · exact absurd hk (Nat.lt_irrefl _)

/-- The whole loop: all blocks between the two ends. -/
theorem attachMaxBlocks_inv {left n blocks : ℕ} (h : Inv mem (maxBlocks n) L)
    (husable : ∀ i, blockAddr mem.memoryStart (maxOrder - 1) i < mem.usableEnd ↔ i < blocks)
    (htotal : pageTotal mem = blocks * 2 ^ (maxOrder - 1)) (hn : n ≤ blocks)
    (hleft : blocks ≤ n + left) :
    ∃ L', Inv (attachMaxBlocks left mem (blockAddr mem.memoryStart (maxOrder - 1) n))
      (maxBlocks blocks) L' := by
  induction left generalizing mem L n with
  | zero =>
    obtain rfl : n = blocks := by omega
    exact ⟨L, h⟩
  | succ left ih =>
    rw [attachMaxBlocks]
    by_cases hlt : n < blocks
    · have hfree : ∀ x, x / 2 ^ (maxOrder - 1) = n → ¬ Covers (maxBlocks n) x := by
        rintro x hx ⟨k, rfl, hj⟩
        omega
      have hin : (n + 1) * 2 ^ (maxOrder - 1) ≤ pageTotal mem := by
        rw [htotal]
        exact Nat.mul_le_mul_right _ hlt
      obtain ⟨L₁, h₁⟩ := h.attachMaxBlock hfree hin
      rw [put_maxBlocks] at h₁
      have hnext : blockAddr mem.memoryStart (maxOrder - 1) n + maxBlockSize =
          blockAddr mem.memoryStart (maxOrder - 1) (n + 1) := by
        rw [blockAddr, blockAddr, maxBlockSize]
        ring
      rw [if_pos ((husable n).mpr hlt), hnext]
      exact ih h₁ husable htotal hlt (by omega)
    · obtain rfl : n = blocks := by omega
      rw [if_neg fun hn => hlt ((husable n).mp hn)]
      exact ⟨L, h⟩

theorem initTables_inv (hstart : 0 < mem.memoryStart) :
    Inv (initTables mem) (maxBlocks 0) fun _ => [] where
  start_pos := hstart
  order_lt := fun k j h => absurd h.2 (Nat.not_lt_zero j)
  within := fun k j h => absurd h.2 (Nat.not_lt_zero j)
  separate := fun x k l h _ => absurd h.2 (Nat.not_lt_zero _)
  linked := fun k _ => rfl
  nodup := fun k _ => List.nodup_nil
  mem_iff := by
    intro k _ p
    refine iff_of_false List.not_mem_nil ?_
    rintro ⟨j, hj, -⟩
    exact Nat.not_lt_zero j hj.2
  count := fun k _ => rfl
  lone := fun k j _ h _ => absurd h.2 (Nat.not_lt_zero j)
  bit_iff := by
    intro k _ i
    refine iff_of_false Bool.false_ne_true ?_
    rintro ⟨j, hj, -⟩
    exact Nat.not_lt_zero j hj.2

/-- The number of blocks of 4 MB that `init_memory` finds. -/
def initialBlocks (mem : MemoryInfo) : ℕ := (mem.usableEnd - mem.memoryStart) / 2 ^ 22

theorem initTables_usableEnd_lt (mem : MemoryInfo) : (initTables mem).usableEnd < 2 ^ 32 := by
  have hle : (initTables mem).usableEnd ≤ subUint (subUint mem.memoryEnd
      (buddyBytes (pgCount mem.memoryStart mem.memoryEnd)))
        (pgCount mem.memoryStart mem.memoryEnd * sizeofPage) := Nat.div_mul_le_self _ _
  exact Nat.lt_of_le_of_lt hle (Nat.mod_lt _ (by decide))

/-- Both ends of the memory are multiples of 4 MB. -/
theorem initTables_blocks (haligned : mem.memoryStart % 2 ^ 22 = 0) :
    (∀ i, blockAddr mem.memoryStart (maxOrder - 1) i < (initTables mem).usableEnd ↔
      i < initialBlocks (initTables mem)) ∧
    pageTotal (initTables mem) = initialBlocks (initTables mem) * 2 ^ (maxOrder - 1) ∧
    initialBlocks (initTables mem) ≤ 2 ^ 32 / maxBlockSize := by
  have hmax : maxBlockSize = 2 ^ 22 := by decide
  have hpage : pgSize = 4096 := rfl
  have horder : maxOrder - 1 = 10 := rfl
  have husable : (initTables mem).usableEnd % 2 ^ 22 = 0 := by
    show roundDownWith maxBlockSize _ % 2 ^ 22 = 0
    rw [roundDownWith, hmax]
    exact Nat.mul_mod_left _ _
  have hlt := initTables_usableEnd_lt mem
  have hstart : (initTables mem).memoryStart = mem.memoryStart := rfl
  rw [pageTotal, initialBlocks, hstart, hpage, hmax, horder]
  refine ⟨fun i => ?_, by omega, by omega⟩
  rw [blockAddr, hpage]
  omega

theorem Inv.initPages (h : Inv mem F L) : Inv (initPages mem) F L where
  toRepresents := h.toRepresents.congr rfl rfl rfl (fun _ _ _ _ => rfl) fun _ _ _ _ => rfl
  lone := h.lone
  bit_iff := h.bit_iff

/-- **Initialisation.**  All blocks of the greatest order are free. -/
theorem initMemory_inv (hstart : 0 < mem.memoryStart) (haligned : mem.memoryStart % 2 ^ 22 = 0) :
    ∃ L, Inv (initMemory mem) (maxBlocks (initialBlocks (initMemory mem))) L := by
  obtain ⟨husable, htotal, hle⟩ := initTables_blocks haligned
  have hblocks : initialBlocks (initMemory mem) = initialBlocks (initTables mem) := by
    rw [initialBlocks, initMemory_layout, initialBlocks]
  have hfirst : blockAddr (initTables mem).memoryStart (maxOrder - 1) 0 = mem.memoryStart := by
    rw [blockAddr, Nat.zero_mul, Nat.zero_mul]
    rfl
  rw [hblocks, initMemory]
  generalize 2 ^ 32 / maxBlockSize = left at hle ⊢
  have hleft : initialBlocks (initTables mem) ≤ 0 + left := by
    rw [Nat.zero_add]
    exact hle
  obtain ⟨L, hL⟩ := attachMaxBlocks_inv (initTables_inv hstart) husable htotal (Nat.zero_le _) hleft
  rw [hfirst] at hL
  exact ⟨L, hL.initPages⟩

/-! ### Bytes of a block -/

/-- The bytes of `2 ^ order` pages from `p`. -/
def blockBytes (p order : ℕ) : Set ℕ := Set.Ico p (p + 2 ^ order * pgSize)

/-- A byte is in a block when its page is. -/
theorem mem_blockBytes {start : ℕ} : a ∈ blockBytes (blockAddr start k j) k ↔
    start ≤ a ∧ (a - start) / pgSize / 2 ^ k = j := by
  have hpos : 0 < pgSize * 2 ^ k := Nat.mul_pos (by decide) (Nat.two_pow_pos k)
  have hsize : j * 2 ^ k * pgSize = j * (pgSize * 2 ^ k) := by ring
  have hnext : j * (pgSize * 2 ^ k) + 2 ^ k * pgSize = (j + 1) * (pgSize * 2 ^ k) := by ring
  rw [blockBytes, Set.mem_Ico, blockAddr, hsize, Nat.add_assoc, hnext, Nat.div_div_eq_div_mul]
  constructor
  · rintro ⟨hlow, hhigh⟩
    refine ⟨by omega, Nat.div_eq_of_lt_le ?_ ?_⟩ <;> omega
  · rintro ⟨hlow, hdiv⟩
    have hle := Nat.div_mul_le_self (a - start) (pgSize * 2 ^ k)
    have hlt := Nat.lt_mul_div_succ (a - start) hpos
    rw [hdiv] at hle hlt
    rw [Nat.mul_comm] at hlt
    omega

/-- The first byte of a page. -/
theorem mem_blockBytes_page {start : ℕ} (hx : x / 2 ^ k = j) :
    start + x * pgSize ∈ blockBytes (blockAddr start k j) k := by
  rw [mem_blockBytes, Nat.add_sub_cancel_left, Nat.mul_div_cancel x (by decide)]
  exact ⟨Nat.le_add_right start _, hx⟩

/-! ### Runs -/

/-- The allocator, and the bytes that are allocated. -/
structure State where
  mem : MemoryInfo
  allocated : Set ℕ

inductive Event
  /-- `page_alloc`, and what it returned -/
  | alloc (pages attr block : ℕ)
  /-- `page_free` -/
  | free (block pages : ℕ)
  /-- allocated pages are written -/
  | write

/-- The calls, with a block of an order of the allocator to release. -/
inductive Step (s : State) : Event → State → Prop
  | alloc {pages attr : ℕ} (hpos : 1 ≤ pages) (hle : pages ≤ 2 ^ 31) :
      Step s (.alloc pages attr (pageAlloc s.mem pages attr).2)
        { mem := (pageAlloc s.mem pages attr).1
          allocated :=
            if (pageAlloc s.mem pages attr).2 = 0 then s.allocated
            else s.allocated ∪ blockBytes (pageAlloc s.mem pages attr).2 (Nat.clog 2 pages) }
  | free {order j : ℕ} (horder : order < maxOrder)
      (hall : blockBytes (blockAddr s.mem.memoryStart order j) order ⊆ s.allocated) :
      Step s (.free (blockAddr s.mem.memoryStart order j) (2 ^ order))
        { mem := (pageFree s.mem (blockAddr s.mem.memoryStart order j) (2 ^ order)).1
          allocated := s.allocated \ blockBytes (blockAddr s.mem.memoryStart order j) order }
  -- the entries of `pages_info` are not the allocator's alone
  | write {prev next : ℕ → ℕ} {pages : ℕ → Page}
      (hprev : ∀ p ∉ s.allocated, prev p = s.mem.prev p)
      (hnext : ∀ p ∉ s.allocated, next p = s.mem.next p) :
      Step s .write
        { s with mem := { s.mem with prev := prev, next := next, pages := pages } }

/-- After `free_pages_of_power_2` with an order of 11 or more.  Behind `free_list` lies `free_count`, and behind
that `buddy_map`: `free_list[11]` is the first counter, so it is the block that it counts now, and
`free_count[11]` is the first pointer, which goes up by one.  A bit has been turned over where `buddy_map[11]`
points to; about that, and about the words of the blocks, nothing is said. -/
structure FreedGreat (mem : MemoryInfo) (p order : ℕ) (mem' : MemoryInfo) : Prop where
  counter : order < 2 * maxOrder → mem'.freeCount (order - maxOrder) = p
  usable_lt : mem'.usableEnd < 2 ^ 32
  /-- with the order 11 it is a bit of the memory -/
  others : order = maxOrder → mem'.freeList = mem.freeList ∧ ∀ k ≠ 0, mem'.freeCount k = mem.freeCount k

/-- The calls `R`, and those of `page_free` with a greater block. -/
inductive AnyCall (R : State → Event → State → Prop) (s : State) : Event → State → Prop
  | within {e : Event} {s' : State} (hcall : R s e s') : AnyCall R s e s'
  | great {order j : ℕ} {mem' : MemoryInfo} (horder : maxOrder ≤ order)
      (hall : blockBytes (blockAddr s.mem.memoryStart order j) order ⊆ s.allocated)
      (hfreed : FreedGreat s.mem (blockAddr s.mem.memoryStart order j) order mem') :
      AnyCall R s (.free (blockAddr s.mem.memoryStart order j) (2 ^ order))
        { mem := mem'
          allocated := s.allocated \ blockBytes (blockAddr s.mem.memoryStart order j) order }

/-- No more is released at once than the greatest block has. -/
def Event.Small : Event → Prop
  | .free _ pages => pages ≤ 2 ^ (maxOrder - 1)
  | _ => True

theorem Step.small {s s' : State} {e : Event} (h : Step s e s') : e.Small := by
  cases h with
  | alloc => trivial
  | free horder _ => exact Nat.pow_le_pow_right (by decide) (Nat.le_sub_one_of_lt horder)
  | write => trivial

/-- Runs without greater blocks. -/
theorem run_of_small {R : State → Event → State → Prop} {s₀ s : State} {tr : List (Transition State Event)}
    (hrun : Run (AnyCall R) s₀ tr s) (hsmall : ∀ x ∈ tr, x.label.Small) : Run R s₀ tr s := by
  induction hrun with
  | start => exact .start
  | @extend tr s t l run hstep ih =>
    have hs := ih fun x hx => hsmall x (List.mem_append_left _ hx)
    have hlast : l.Small := hsmall ⟨s, l, t⟩ (List.mem_append_right _ (List.mem_singleton_self _))
    cases hstep with
    | within hcall => exact hs.extend hcall
    | great horder _ _ =>
      exact absurd ((Nat.pow_le_pow_iff_right (by decide)).mp hlast) (Nat.not_le.mpr horder)

/-- The invariant of a run: the bytes of the memory that are not free are allocated. -/
structure Held (s : State) (F : ℕ → ℕ → Prop) (L : ℕ → List ℕ) : Prop where
  inv : Inv s.mem F L
  allocated_iff : ∀ a, a ∈ s.allocated ↔ s.mem.memoryStart ≤ a ∧ a < s.mem.usableEnd ∧
    ¬ Covers F ((a - s.mem.memoryStart) / pgSize)

variable {s s' : State} {e : Event}

/-- The pages of an allocated block are not free. -/
theorem Held.not_covers (h : Held s F L)
    (hall : blockBytes (blockAddr s.mem.memoryStart k j) k ⊆ s.allocated) (hx : x / 2 ^ k = j) :
    ¬ Covers F x := by
  have hmem := (h.allocated_iff _).mp (hall (mem_blockBytes_page hx))
  rw [Nat.add_sub_cancel_left, Nat.mul_div_cancel x (by decide)] at hmem
  exact hmem.2.2

/-- An allocated block lies in the memory. -/
theorem Held.block_le (h : Held s F L)
    (hall : blockBytes (blockAddr s.mem.memoryStart k j) k ⊆ s.allocated) :
    (j + 1) * 2 ^ k ≤ pageTotal s.mem := by
  have hpage : pgSize = 4096 := rfl
  have hpos : 0 < 2 ^ k * pgSize := Nat.mul_pos (Nat.two_pow_pos k) (by decide)
  have hlast : blockAddr s.mem.memoryStart k j + 2 ^ k * pgSize - 1 ∈
      blockBytes (blockAddr s.mem.memoryStart k j) k := by
    rw [blockBytes, Set.mem_Ico]
    omega
  have hend := ((h.allocated_iff _).mp (hall hlast)).2.1
  have hnext : blockAddr s.mem.memoryStart k j + 2 ^ k * pgSize =
      s.mem.memoryStart + (j + 1) * 2 ^ k * pgSize := by
    rw [blockAddr]
    ring
  rw [hnext, hpage] at hend
  rw [pageTotal, hpage]
  omega

/-- A free block has none of the allocated bytes. -/
theorem Held.notMem_of_mem (h : Held s F L) (hk : k < maxOrder) (hp : p ∈ L k)
    (ha : a ∈ blockBytes p k) : a ∉ s.allocated := by
  obtain ⟨j, hj, rfl⟩ := (h.inv.mem_iff k hk p).mp hp
  obtain ⟨-, hdiv⟩ := mem_blockBytes.mp ha
  intro hmem
  exact ((h.allocated_iff a).mp hmem).2.2 (covers_of_mem hj hdiv)

theorem lt_usableEnd (hlow : mem.memoryStart ≤ a)
    (hx : (a - mem.memoryStart) / pgSize < pageTotal mem) : a < mem.usableEnd := by
  have hpage : pgSize = 4096 := rfl
  rw [pageTotal, hpage] at hx
  omega

/-- What `page_alloc` does. -/
theorem Held.alloc (h : Held s F L) {pages : ℕ} (attr : ℕ) (hpos : 1 ≤ pages) (hle : pages ≤ 2 ^ 31) :
    pageAlloc s.mem pages attr = (s.mem, 0) ∨
      ∃ mem' j F' L', pageAlloc s.mem pages attr =
          (mem', blockAddr s.mem.memoryStart (Nat.clog 2 pages) j) ∧
        mem'.toMemoryLayout = s.mem.toMemoryLayout ∧ Inv mem' F' L' ∧
        Taken F F' (Nat.clog 2 pages) j := by
  have hdepth : maxOrder < maxOrder + 1 + Nat.clog 2 pages := by omega
  rw [pageAlloc, allocatePagesOfPower2, orderOf_eq_clog hpos hle]
  rcases allocate_inv h.inv hdepth with hnull | ⟨mem', j, F', L', hcall, -, hlayout, h', htaken⟩
  · exact Or.inl hnull
  · exact Or.inr ⟨mem', j, F', L', hcall, hlayout, h', htaken⟩

/-- What `page_free` does. -/
theorem Held.free (h : Held s F L) (hk : k < maxOrder)
    (hall : blockBytes (blockAddr s.mem.memoryStart k j) k ⊆ s.allocated) :
    ∃ mem' F' L', pageFree s.mem (blockAddr s.mem.memoryStart k j) (2 ^ k) = (mem', 0) ∧
      mem'.toMemoryLayout = s.mem.toMemoryLayout ∧ Inv mem' F' L' ∧
      (∀ x, Covers F' x ↔ Covers F x ∨ x / 2 ^ k = j) ∧ ∃ m i, Released s.mem mem' F' k j m i := by
  rw [pageFree, freePagesOfPower2, orderOf_pow hk]
  exact free_inv h.inv hk (Nat.le_add_right maxOrder k) (fun x hx => h.not_covers hall hx)
    (h.block_le hall)

/-- **One step.**  Every step keeps the invariant. -/
theorem Held.step (h : Held s F L) (hstep : Step s e s') :
    (∃ F' L', Held s' F' L') ∧ s'.mem.toMemoryLayout = s.mem.toMemoryLayout := by
  cases hstep with
  | @alloc pages attr hpos hle =>
    rcases h.alloc attr hpos hle with hnull | ⟨mem', j, F', L', hcall, hlayout, h', htaken⟩
    · rw [hnull]
      exact ⟨⟨F, L, h.inv, h.allocated_iff⟩, rfl⟩
    · have hne : blockAddr s.mem.memoryStart (Nat.clog 2 pages) j ≠ 0 := blockAddr_pos h.inv.start_pos
      rw [hcall]
      simp only [if_neg hne]
      refine ⟨⟨F', L', h', fun a => ?_⟩, hlayout⟩
      rw [hlayout, Set.mem_union, h.allocated_iff, mem_blockBytes, htaken.covers_iff]
      constructor
      · rintro (⟨hlow, hhigh, hnot⟩ | ⟨hlow, hdiv⟩)
        · exact ⟨hlow, hhigh, fun hcov => hnot hcov.1⟩
        · have hlt := h.inv.covers_lt (htaken.covered _ hdiv)
          exact ⟨hlow, lt_usableEnd hlow hlt, fun hcov => hcov.2 hdiv⟩
      · rintro ⟨hlow, hhigh, hnot⟩
        by_cases hdiv : (a - s.mem.memoryStart) / pgSize / 2 ^ Nat.clog 2 pages = j
        · exact Or.inr ⟨hlow, hdiv⟩
        · exact Or.inl ⟨hlow, hhigh, fun hcov => hnot ⟨hcov, hdiv⟩⟩
  | @free order j horder hall =>
    obtain ⟨mem', F', L', hcall, hlayout, h', hcovers, -⟩ := h.free horder hall
    rw [hcall]
    refine ⟨⟨F', L', h', fun a => ?_⟩, hlayout⟩
    show a ∈ s.allocated \ _ ↔ _
    rw [hlayout, Set.mem_sdiff, h.allocated_iff, mem_blockBytes, hcovers]
    constructor
    · rintro ⟨⟨hlow, hhigh, hnot⟩, hout⟩
      exact ⟨hlow, hhigh, fun hcov => hcov.elim hnot fun hdiv => hout ⟨hlow, hdiv⟩⟩
    · rintro ⟨hlow, hhigh, hnot⟩
      exact ⟨⟨hlow, hhigh, fun hcov => hnot (Or.inl hcov)⟩, fun hin => hnot (Or.inr hin.2)⟩
  | @write prev next pages hprev hnext =>
    refine ⟨⟨F, L, ⟨?_, h.inv.lone, h.inv.bit_iff⟩, h.allocated_iff⟩, rfl⟩
    have hfree : ∀ k < maxOrder, ∀ p ∈ L k, p ∉ s.allocated := by
      intro k hk p hp
      apply h.notMem_of_mem hk hp
      rw [blockBytes, Set.mem_Ico]
      exact ⟨Nat.le_refl p, Nat.lt_add_of_pos_right (Nat.mul_pos (Nat.two_pow_pos k) (by decide))⟩
    exact h.inv.toRepresents.congr rfl rfl rfl (fun k hk p hp => hprev p (hfree k hk p hp))
      fun k hk p hp => hnext p (hfree k hk p hp)

/-- The state after `init_memory`. -/
def initialState (mem : MemoryInfo) : State := ⟨initMemory mem, ∅⟩

/-- At first nothing is allocated. -/
theorem initialState_held (hstart : 0 < mem.memoryStart) (haligned : mem.memoryStart % 2 ^ 22 = 0) :
    ∃ L, Held (initialState mem) (maxBlocks (initialBlocks (initMemory mem))) L := by
  obtain ⟨L, h⟩ := initMemory_inv hstart haligned
  refine ⟨L, h, fun a => ?_⟩
  have hlayout := initMemory_layout mem
  obtain ⟨husable, -, -⟩ := initTables_blocks haligned
  show a ∈ (∅ : Set ℕ) ↔ (initMemory mem).memoryStart ≤ a ∧ a < (initMemory mem).usableEnd ∧
    ¬ Covers (maxBlocks (initialBlocks (initMemory mem))) ((a - (initMemory mem).memoryStart) / pgSize)
  rw [initialBlocks, hlayout, ← initialBlocks]
  refine iff_of_false (Set.notMem_empty a) ?_
  rintro ⟨hlow, hhigh, hnot⟩
  apply hnot
  refine ⟨maxOrder - 1, rfl, ?_⟩
  apply (husable _).mp
  have hblock : a ∈ blockBytes (blockAddr mem.memoryStart (maxOrder - 1)
      ((a - mem.memoryStart) / pgSize / 2 ^ (maxOrder - 1))) (maxOrder - 1) :=
    mem_blockBytes.mpr ⟨hlow, rfl⟩
  exact Nat.lt_of_le_of_lt (Set.mem_Ico.mp hblock).1 hhigh

/-- What holds in every state of a run. -/
def Good (mem : MemoryInfo) (s : State) : Prop :=
  (∃ F L, Held s F L) ∧ s.mem.toMemoryLayout = (initMemory mem).toMemoryLayout

theorem good_of_run {tr : List (Transition State Event)} (hstart : 0 < mem.memoryStart)
    (haligned : mem.memoryStart % 2 ^ 22 = 0) (hrun : Run Step (initialState mem) tr s) :
    Good mem s := by
  obtain ⟨L, h⟩ := initialState_held hstart haligned
  have h₀ : Good mem (initialState mem) := ⟨⟨_, L, h⟩, rfl⟩
  apply hrun.invariant h₀
  rintro s e s' ⟨⟨F, L, h⟩, hlayout⟩ hstep
  obtain ⟨h', hlayout'⟩ := h.step hstep
  exact ⟨h', hlayout'.trans hlayout⟩

/-! ### Safety -/

/-- The free lists of a state: their blocks do not overlap and have none of the allocated bytes, and
together with those they are the memory. -/
structure FreeListsSound (s : State) (L : ℕ → List ℕ) : Prop where
  onList : ∀ k < maxOrder, OnFreeList s.mem k (L k)
  count : ∀ k < maxOrder, s.mem.freeCount k = (L k).length
  nodup : ∀ k < maxOrder, (L k).Nodup
  disjoint : ∀ k < maxOrder, ∀ l < maxOrder, ∀ p ∈ L k, ∀ q ∈ L l, (k ≠ l ∨ p ≠ q) →
    Disjoint (blockBytes p k) (blockBytes q l)
  apart : ∀ k < maxOrder, ∀ p ∈ L k, Disjoint (blockBytes p k) s.allocated
  cover : ∀ a, (a ∈ s.allocated ∨ ∃ k < maxOrder, ∃ p ∈ L k, a ∈ blockBytes p k) ↔
    s.mem.memoryStart ≤ a ∧ a < s.mem.usableEnd

/-- What `page_alloc` returns is null or a block of the right size and alignment, in the memory and
not allocated yet. -/
def AllocSound (s : State) (e : Event) : Prop :=
  ∀ pages attr block, e = .alloc pages attr block → block ≠ 0 →
    (∃ i, block = s.mem.memoryStart + i * (2 ^ Nat.clog 2 pages * pgSize)) ∧
      blockBytes block (Nat.clog 2 pages) ⊆ Set.Ico s.mem.memoryStart s.mem.usableEnd ∧
      Disjoint (blockBytes block (Nat.clog 2 pages)) s.allocated

/-- Two free blocks that share a byte are one block. -/
theorem Held.eq_of_shared (h : Held s F L) (hk : k < maxOrder) (hl : l < maxOrder) {q : ℕ}
    (hp : p ∈ L k) (hq : q ∈ L l) (hap : a ∈ blockBytes p k) (haq : a ∈ blockBytes q l) :
    k = l ∧ p = q := by
  obtain ⟨j, hj, rfl⟩ := (h.inv.mem_iff k hk p).mp hp
  obtain ⟨i, hi, rfl⟩ := (h.inv.mem_iff l hl q).mp hq
  obtain ⟨-, hpage⟩ := mem_blockBytes.mp hap
  obtain ⟨-, hpage'⟩ := mem_blockBytes.mp haq
  subst hpage hpage'
  obtain rfl : k = l := h.inv.separate _ k l hj hi
  exact ⟨rfl, rfl⟩

theorem Held.sound (h : Held s F L) : FreeListsSound s L where
  onList := h.inv.linked
  count := h.inv.count
  nodup := h.inv.nodup
  disjoint := by
    intro k hk l hl p hp q hq hne
    apply Set.disjoint_left.mpr
    intro a hap haq
    obtain ⟨hkl, hpq⟩ := h.eq_of_shared hk hl hp hq hap haq
    exact hne.elim (fun h => h hkl) fun h => h hpq
  apart := by
    intro k hk p hp
    apply Set.disjoint_left.mpr
    intro a ha
    exact h.notMem_of_mem hk hp ha
  cover := by
    intro a
    constructor
    · rintro (ha | ⟨k, hk, p, hp, ha⟩)
      · exact ⟨((h.allocated_iff a).mp ha).1, ((h.allocated_iff a).mp ha).2.1⟩
      · obtain ⟨j, hj, rfl⟩ := (h.inv.mem_iff k hk p).mp hp
        obtain ⟨hlow, hdiv⟩ := mem_blockBytes.mp ha
        exact ⟨hlow, lt_usableEnd hlow (h.inv.covers_lt (covers_of_mem hj hdiv))⟩
    · rintro ⟨hlow, hhigh⟩
      by_cases hcov : Covers F ((a - s.mem.memoryStart) / pgSize)
      · right
        obtain ⟨k, hk⟩ := hcov
        have hlt := h.inv.order_lt k _ hk
        exact ⟨k, hlt, _, (h.inv.mem_blockAddr hlt).mpr hk, mem_blockBytes.mpr ⟨hlow, rfl⟩⟩
      · exact Or.inl ((h.allocated_iff a).mpr ⟨hlow, hhigh, hcov⟩)

theorem Held.allocSound (h : Held s F L) (hstep : Step s e s') : AllocSound s e := by
  intro pages attr block he hne
  subst he
  cases hstep with
  | alloc hpos hle =>
    rcases h.alloc attr hpos hle with hnull | ⟨mem', j, F', L', hcall, -, -, htaken⟩
    · rw [hnull] at hne
      exact absurd rfl hne
    · rw [hcall]
      have hbytes : ∀ a ∈ blockBytes (blockAddr s.mem.memoryStart (Nat.clog 2 pages) j)
          (Nat.clog 2 pages), s.mem.memoryStart ≤ a ∧
            Covers F ((a - s.mem.memoryStart) / pgSize) := by
        intro a ha
        obtain ⟨hlow, hdiv⟩ := mem_blockBytes.mp ha
        exact ⟨hlow, htaken.covered _ hdiv⟩
      refine ⟨⟨j, ?_⟩, ?_, ?_⟩
      · rw [← Nat.mul_assoc]
        rfl
      · intro a ha
        obtain ⟨hlow, hcov⟩ := hbytes a ha
        exact ⟨hlow, lt_usableEnd hlow (h.inv.covers_lt hcov)⟩
      · apply Set.disjoint_left.mpr
        intro a ha hmem
        exact ((h.allocated_iff a).mp hmem).2.2 (hbytes a ha).2

/-- Apart from each other, the blocks of a list are less than there are pages in 4 GB. -/
theorem FreeListsSound.length_le (h : FreeListsSound s L) (hlt : s.mem.usableEnd < 2 ^ 32) (hk : k < maxOrder) :
    (L k).length ≤ 2 ^ 20 := by
  have hbytes : ∀ p ∈ L k, ∀ a, p ≤ a → a < p + pgSize → a ∈ blockBytes p k := by
    intro p _ a hlow hhigh
    have hpos := Nat.le_mul_of_pos_left pgSize (Nat.two_pow_pos k)
    exact Set.mem_Ico.mpr ⟨hlow, by omega⟩
  have hpage : pgSize = 4096 := rfl
  have hnodup : ((L k).map fun p => p / pgSize).Nodup := by
    refine (h.nodup k hk).map_on fun p hp q hq hdiv => ?_
    by_contra hne
    -- the higher one of the two starts in the first page of the other
    have hdisjoint := Set.disjoint_left.mp (h.disjoint k hk k hk p hp q hq (Or.inr hne))
    rw [hpage] at hdiv
    exact hdisjoint (hbytes p hp (max p q) (Nat.le_max_left p q) (by omega))
      (hbytes q hq (max p q) (Nat.le_max_right p q) (by omega))
  have hsub : ((L k).map fun p => p / pgSize) ⊆ List.range (2 ^ 20) := by
    intro i hi
    obtain ⟨p, hp, rfl⟩ := List.mem_map.mp hi
    have hin := (h.cover p).mp (Or.inr ⟨k, hk, p, hp, hbytes p hp p (Nat.le_refl p) (by omega)⟩)
    rw [List.mem_range, hpage]
    omega
  have hle := (hnodup.subperm hsub).length_le
  rwa [List.length_map, List.length_range] at hle

/-- A block becomes a counter, and no list is that long. -/
theorem Held.not_sound_of_great (h : Held s F L) {order : ℕ} (horder : maxOrder ≤ order)
    (haligned : s.mem.memoryStart % 2 ^ 22 = 0) (husable : s.mem.usableEnd < 2 ^ 32)
    (hall : blockBytes (blockAddr s.mem.memoryStart order j) order ⊆ s.allocated)
    (hfreed : FreedGreat s.mem (blockAddr s.mem.memoryStart order j) order mem') {A : Set ℕ} :
    ¬ ∃ L', FreeListsSound ⟨mem', A⟩ L' := by
  rintro ⟨L', hsound⟩
  have hpage : pgSize = 4096 := rfl
  have hmax : maxOrder = 11 := rfl
  have hstart := h.inv.start_pos
  have hblock := h.block_le hall
  have hsize : 2 ^ order ≤ (j + 1) * 2 ^ order := Nat.le_mul_of_pos_left _ (Nat.succ_pos j)
  have hlt : 2 ^ order < 2 ^ 20 := by
    rw [pageTotal, hpage] at hblock
    omega
  have horder' : order < 20 := (Nat.pow_lt_pow_iff_right (by decide)).mp hlt
  have hcount := hsound.count (order - maxOrder) (by omega)
  have hlength := hsound.length_le hfreed.usable_lt (show order - maxOrder < maxOrder by omega)
  have hlow : s.mem.memoryStart ≤ blockAddr s.mem.memoryStart order j := Nat.le_add_right _ _
  have hcounter : mem'.freeCount (order - maxOrder) = _ := hfreed.counter (by omega)
  have hcount' : mem'.freeCount (order - maxOrder) = _ := hcount
  omega

/-- What is to hold of a call. -/
def CallSound (s : State) (e : Event) (s' : State) : Prop := AllocSound s e ∧ ∃ L, FreeListsSound s' L

/-- **The page allocator is safe** as long as no block greater than 4 MB is released.  From `init_memory` on,
every block that is returned is new and of the right size, and the free lists hold what is not allocated,
every byte once; a greater block that is released becomes a counter. -/
theorem buddy_safe_iff {tr : List (Transition State Event)} (hstart : 0 < mem.memoryStart)
    (haligned : mem.memoryStart % 2 ^ 22 = 0) (hrun : Run (AnyCall Step) (initialState mem) tr s) :
    (∃ L, FreeListsSound (initialState mem) L) ∧
      ((∀ x ∈ tr, CallSound x.source x.label x.target) ↔ ∀ x ∈ tr, x.label.Small) := by
  obtain ⟨L₀, h₀⟩ := initialState_held hstart haligned
  refine ⟨⟨L₀, h₀.sound⟩, Run.forall_iff (Good mem) CallSound (fun _ e _ => e.Small) hrun ⟨⟨_, L₀, h₀⟩, rfl⟩ ?_ ?_⟩
  · rintro s e s' ⟨⟨F, L, h⟩, hlayout⟩ hstep
    have haligned' : s.mem.memoryStart % 2 ^ 22 = 0 := by
      rw [hlayout, initMemory_layout]
      exact haligned
    have husable : s.mem.usableEnd < 2 ^ 32 := by
      rw [hlayout, initMemory_layout]
      exact initTables_usableEnd_lt mem
    cases hstep with
    | within hcall =>
      obtain ⟨⟨F', L', h'⟩, -⟩ := h.step hcall
      exact iff_of_true ⟨h.allocSound hcall, L', h'.sound⟩ hcall.small
    | great horder hall hfreed =>
      refine iff_of_false (fun hsound => h.not_sound_of_great horder haligned' husable hall hfreed hsound.2) ?_
      intro hsmall
      exact absurd ((Nat.pow_le_pow_iff_right (by decide)).mp hsmall) (Nat.not_le.mpr horder)
  · rintro s e s' ⟨⟨F, L, h⟩, hlayout⟩ hstep hsound
    cases hstep with
    | within hcall =>
      obtain ⟨h', hlayout'⟩ := h.step hcall
      exact ⟨h', hlayout'.trans hlayout⟩
    | great horder hall hfreed =>
      have haligned' : s.mem.memoryStart % 2 ^ 22 = 0 := by
        rw [hlayout, initMemory_layout]
        exact haligned
      have husable : s.mem.usableEnd < 2 ^ 32 := by
        rw [hlayout, initMemory_layout]
        exact initTables_usableEnd_lt mem
      exact absurd hsound.2 (h.not_sound_of_great horder haligned' husable hall hfreed)

/-! ### Coalescing -/

/-- The bits of the pairs say which lists have one of the two buddies, and no list has both. -/
def BitsSound (mem : MemoryInfo) (L : ℕ → List ℕ) : Prop :=
  ∀ k < maxOrder - 1, ∀ j,
    (mem.bits k j = true ↔ Xor (blockAddr mem.memoryStart k (2 * j) ∈ L k)
      (blockAddr mem.memoryStart k (2 * j + 1) ∈ L k)) ∧
    ¬ (blockAddr mem.memoryStart k (2 * j) ∈ L k ∧ blockAddr mem.memoryStart k (2 * j + 1) ∈ L k)

theorem Inv.bitsSound (h : Inv mem F L) : BitsSound mem L := by
  intro k hk j
  have hlt : k < maxOrder := Nat.lt_of_lt_of_le hk (Nat.sub_le _ _)
  rw [h.mem_blockAddr hlt, h.mem_blockAddr hlt]
  have hbuddy : buddy (2 * j) = 2 * j + 1 := by
    rw [buddy, if_pos (by omega)]
  have hlone : F k (2 * j) → ¬ F k (2 * j + 1) := by
    intro hj
    rw [← hbuddy]
    exact h.lone k _ hk hj
  refine ⟨?_, fun hboth => hlone hboth.1 hboth.2⟩
  rw [h.bit_iff k hk]
  constructor
  · rintro ⟨b, hb, hdiv⟩
    have hcases : b = 2 * j ∨ b = 2 * j + 1 := by omega
    rcases hcases with rfl | rfl
    · exact Or.inl ⟨hb, hlone hb⟩
    · exact Or.inr ⟨hb, fun hj => hlone hj hb⟩
  · rintro (⟨hj, -⟩ | ⟨hj, -⟩)
    · exact ⟨_, hj, by omega⟩
    · exact ⟨_, hj, by omega⟩

/-- When nothing is allocated, exactly the blocks of the greatest order are free. -/
theorem Held.all_free {blocks : ℕ} (h : Held s F L) (hempty : s.allocated = ∅)
    (htotal : pageTotal s.mem = blocks * 2 ^ (maxOrder - 1)) : ∀ k j, F k j ↔ maxBlocks blocks k j := by
  have hall : ∀ x, x < blocks * 2 ^ (maxOrder - 1) → Covers F x := by
    intro x hx
    by_contra hnot
    have hmem : s.mem.memoryStart + x * pgSize ∈ s.allocated := by
      rw [h.allocated_iff, Nat.add_sub_cancel_left, Nat.mul_div_cancel x (by decide)]
      refine ⟨Nat.le_add_right _ _, ?_, hnot⟩
      apply lt_usableEnd (Nat.le_add_right _ _)
      rw [Nat.add_sub_cancel_left, Nat.mul_div_cancel x (by decide), htotal]
      exact hx
    rw [hempty] at hmem
    exact Set.notMem_empty _ hmem
  have hin : ∀ k j, F k j → (j + 1) * 2 ^ k ≤ blocks * 2 ^ (maxOrder - 1) := by
    intro k j hj
    rw [← htotal]
    exact h.inv.within k j hj
  have hlt : ∀ k j, F k j → j * 2 ^ k < blocks * 2 ^ (maxOrder - 1) := by
    intro k j hj
    refine Nat.lt_of_lt_of_le ?_ (hin k j hj)
    exact Nat.mul_lt_mul_of_pos_right (Nat.lt_succ_self j) (Nat.two_pow_pos k)
  have htop : ∀ k j, F k j → k = maxOrder - 1 := fun k j hj =>
    h.inv.lone.order_eq_top h.inv.separate
      (fun k j hj => Nat.le_sub_one_of_lt (h.inv.order_lt k j hj)) hlt hall hj
  intro k j
  constructor
  · intro hj
    obtain rfl := htop k j hj
    exact ⟨rfl, Nat.lt_of_mul_lt_mul_right (hlt _ j hj)⟩
  · rintro ⟨rfl, hj⟩
    obtain ⟨l, hl⟩ := hall (j * 2 ^ (maxOrder - 1))
      (Nat.mul_lt_mul_of_pos_right hj (Nat.two_pow_pos _))
    obtain rfl := htop l _ hl
    rw [mul_pow_div] at hl
    exact hl

/-- The blocks of the greatest order are counted. -/
theorem Inv.count_maxBlocks {n : ℕ} (h : Inv mem F L) (h' : Inv mem' F' L')
    (hF : ∀ k j, F k j ↔ maxBlocks n k j) (hF' : ∀ k j, F' k j ↔ maxBlocks n k j)
    (hstart : mem.memoryStart = mem'.memoryStart) :
    mem.freeCount (maxOrder - 1) = mem'.freeCount (maxOrder - 1) := by
  have hlt : maxOrder - 1 < maxOrder := by decide
  rw [h.count _ hlt, h'.count _ hlt]
  apply List.Perm.length_eq
  rw [List.perm_ext_iff_of_nodup (h.nodup _ hlt) (h'.nodup _ hlt)]
  intro p
  rw [h.mem_iff _ hlt, h'.mem_iff _ hlt, hstart]
  simp only [hF, hF']

/-- **Maximal coalescing.**  In every run from `init_memory` that releases no block greater than 4 MB the bits
say which pairs have one free buddy and no pair has two, and when all is released the memory is in blocks of
the greatest order again, as many as there were. -/
theorem buddy_coalesces {tr : List (Transition State Event)} (hstart : 0 < mem.memoryStart)
    (haligned : mem.memoryStart % 2 ^ 22 = 0) (hrun : Run (AnyCall Step) (initialState mem) tr s)
    (hsmall : ∀ x ∈ tr, x.label.Small) :
    ∃ L, (∀ k < maxOrder, OnFreeList s.mem k (L k)) ∧ BitsSound s.mem L ∧
      (s.allocated = ∅ →
        s.mem.freeCount (maxOrder - 1) = (initMemory mem).freeCount (maxOrder - 1) ∧
        (∀ k < maxOrder - 1, L k = []) ∧
        ∀ a, (∃ p ∈ L (maxOrder - 1), a ∈ blockBytes p (maxOrder - 1)) ↔
          s.mem.memoryStart ≤ a ∧ a < s.mem.usableEnd) := by
  obtain ⟨⟨F, L, h⟩, hlayout⟩ := good_of_run hstart haligned (run_of_small hrun hsmall)
  refine ⟨L, h.inv.linked, h.inv.bitsSound, fun hempty => ?_⟩
  have hlayout' := hlayout.trans (initMemory_layout mem)
  have htotal : pageTotal s.mem = initialBlocks (initMemory mem) * 2 ^ (maxOrder - 1) := by
    rw [pageTotal, hlayout', initialBlocks, initMemory_layout, ← initialBlocks, ← pageTotal]
    exact (initTables_blocks haligned).2.1
  have hF := h.all_free hempty htotal
  have hnone : ∀ k < maxOrder - 1, L k = [] := by
    intro k hk
    have hlt : k < maxOrder := Nat.lt_of_lt_of_le hk (Nat.sub_le _ _)
    apply List.eq_nil_iff_forall_not_mem.mpr
    intro p hp
    obtain ⟨j, hj, -⟩ := (h.inv.mem_iff k hlt p).mp hp
    exact Nat.ne_of_lt hk ((hF k j).mp hj).1
  obtain ⟨L₀, h₀⟩ := initMemory_inv hstart haligned
  refine ⟨h.inv.count_maxBlocks h₀ hF (fun _ _ => Iff.rfl) (by rw [hlayout]), hnone, fun a => ?_⟩
  rw [← h.sound.cover a, hempty]
  constructor
  · rintro ⟨p, hp, ha⟩
    exact Or.inr ⟨_, by decide, p, hp, ha⟩
  · rintro (ha | ⟨k, hk, p, hp, ha⟩)
    · exact absurd ha (Set.notMem_empty a)
    · by_cases htop : k = maxOrder - 1
      · subst htop
        exact ⟨p, hp, ha⟩
      · rw [hnone k (by omega)] at hp
        exact absurd hp List.not_mem_nil

/-! ### A run -/

theorem step_alloc {pages attr block : ℕ} (hblock : (pageAlloc s.mem pages attr).2 = block)
    (hne : block ≠ 0) (hpos : 1 ≤ pages) (hle : pages ≤ 2 ^ 31) :
    Step s (.alloc pages attr block)
      ⟨(pageAlloc s.mem pages attr).1, s.allocated ∪ blockBytes block (Nat.clog 2 pages)⟩ := by
  have hstep : Step s (.alloc pages attr _) _ := Step.alloc hpos hle
  rw [hblock, if_neg hne] at hstep
  exact hstep

/-- Three pages of a memory of eight blocks. -/
theorem demo_alloc_block : (pageAlloc (initMemory (demoMemory 0x3100000)) 3 0x24).2 =
    blockAddr 0x1000000 2 2047 := by decide +kernel

theorem demo_alloc_step : ∃ mem, Step (initialState (demoMemory 0x3100000))
    (.alloc 3 0x24 (blockAddr 0x1000000 2 2047))
    ⟨mem, ∅ ∪ blockBytes (blockAddr 0x1000000 2 2047) (Nat.clog 2 3)⟩ :=
  ⟨_, step_alloc demo_alloc_block (by decide) (by decide) (by decide)⟩

theorem initMemory_demo : (initMemory (demoMemory 0x3100000)).memoryStart = 0x1000000 := by
  rw [initMemory_layout]
  rfl

/-- The three pages are new, and the free lists lack the four pages of their block. -/
theorem buddy_safe_iff_demo : ∃ tr s, Run (AnyCall Step) (initialState (demoMemory 0x3100000)) tr s ∧
    s.allocated = blockBytes (blockAddr 0x1000000 2 2047) 2 ∧
    ∀ x ∈ tr, CallSound x.source x.label x.target := by
  obtain ⟨mem, hstep⟩ := demo_alloc_step
  have hrun : Run (AnyCall Step) _ _ _ := Run.start.extend (AnyCall.within hstep)
  have hclog : Nat.clog 2 3 = 2 := by decide
  refine ⟨_, _, hrun, ?_, (buddy_safe_iff (by decide) (by decide) hrun).2.mpr fun x hx => ?_⟩
  · rw [Set.empty_union, hclog]
  · rw [List.mem_singleton.mp hx]
    exact hstep.small

/-- After their release all memory is in blocks of 4 MB again. -/
theorem buddy_coalesces_demo : ∃ tr s, Run (AnyCall Step) (initialState (demoMemory 0x3100000)) tr s ∧
    tr.length = 2 ∧ s.mem.freeCount (maxOrder - 1) =
      (initMemory (demoMemory 0x3100000)).freeCount (maxOrder - 1) := by
  obtain ⟨mem, hstep⟩ := demo_alloc_step
  have hclog : Nat.clog 2 3 = 2 := by decide
  have hstart : mem.memoryStart = 0x1000000 := by
    have hlayout := (good_of_run (by decide) (by decide) (Run.start.extend hstep)).2
    exact (congrArg MemoryLayout.memoryStart hlayout).trans initMemory_demo
  have hall : blockBytes (blockAddr mem.memoryStart 2 2047) 2 ⊆
      ∅ ∪ blockBytes (blockAddr 0x1000000 2 2047) (Nat.clog 2 3) := by
    rw [hstart, hclog]
    exact Set.subset_union_right
  have hfree : Step ⟨mem, _⟩ _ _ := Step.free (by decide) hall
  have hrun := (Run.start.extend (AnyCall.within hstep)).extend (AnyCall.within hfree)
  obtain ⟨L, -, -, hfinal⟩ := buddy_coalesces (by decide) (by decide) hrun (List.forall_mem_append.mpr
    ⟨List.forall_mem_singleton.mpr hstep.small, List.forall_mem_singleton.mpr hfree.small⟩)
  refine ⟨_, _, hrun, rfl, (hfinal ?_).1⟩
  rw [hstart, hclog, Set.empty_union]
  exact Set.sdiff_self

/-! ### A block of 8 MB -/

/-- A memory of two blocks of 4 MB, both of them allocated. -/
def twoTaken : MemoryInfo :=
  (pageAlloc (pageAlloc (initMemory (demoMemory 0x1810000)) 1024 0x24).1 1024 0x24).1

/-- The two are released as one. -/
def twoFreed : MemoryInfo :=
  { twoTaken with freeCount := Function.update twoTaken.freeCount 0 0x1000000 }

theorem twoFreed_freeCount (k : ℕ) :
    twoFreed.freeCount k = if k = 0 then 0x1000000 else twoTaken.freeCount k := by
  rw [twoFreed]
  exact Function.update_apply twoTaken.freeCount 0 0x1000000 k

theorem twoFreed_run : ∃ tr, Run (AnyCall Step) (initialState (demoMemory 0x1810000)) tr ⟨twoFreed, ∅⟩ := by
  have hclog : Nat.clog 2 1024 = 10 := by decide
  have hfirst : (pageAlloc (initialState (demoMemory 0x1810000)).mem 1024 0x24).2 =
      blockAddr 0x1000000 10 1 := by decide +kernel
  have hsecond : (pageAlloc (pageAlloc (initMemory (demoMemory 0x1810000)) 1024 0x24).1 1024 0x24).2 =
      blockAddr 0x1000000 10 0 := by decide +kernel
  have hstart : twoTaken.memoryStart = 0x1000000 := by decide +kernel
  have hfreed : FreedGreat twoTaken (blockAddr twoTaken.memoryStart maxOrder 0) maxOrder twoFreed := by
    refine ⟨fun _ => ?_, by decide +kernel, fun _ => ⟨rfl, fun k hk => ?_⟩⟩
    · rw [hstart]
      exact twoFreed_freeCount 0
    · rw [twoFreed_freeCount, if_neg hk]
  have r₁ := Run.start.extend (AnyCall.within (step_alloc hfirst (by decide) (by decide) (by decide)))
  have r₂ := r₁.extend (AnyCall.within (step_alloc hsecond (by decide) (by decide) (by decide)))
  have hsame : ∅ ∪ blockBytes (blockAddr 0x1000000 10 1) (Nat.clog 2 1024) ∪
      blockBytes (blockAddr 0x1000000 10 0) (Nat.clog 2 1024) =
        blockBytes (blockAddr twoTaken.memoryStart maxOrder 0) maxOrder := by
    rw [hclog, hstart, Set.empty_union]
    ext a
    simp only [blockBytes, blockAddr, Set.mem_union, Set.mem_Ico, maxOrder, pgSize]
    omega
  have hgreat : AnyCall Step ⟨twoTaken, ∅ ∪ blockBytes (blockAddr 0x1000000 10 1) (Nat.clog 2 1024) ∪
      blockBytes (blockAddr 0x1000000 10 0) (Nat.clog 2 1024)⟩ _ _ :=
    AnyCall.great (Nat.le_refl _) hsame.superset hfreed
  have r₃ := r₂.extend hgreat
  rw [hsame, Set.sdiff_self] at r₃
  exact ⟨_, r₃⟩

/-- **Two neighbours released together.**  The first counter is the address of the block, and its list is
empty. -/
theorem great_block_counted : ∃ tr s, Run (AnyCall Step) (initialState (demoMemory 0x1810000)) tr s ∧
    ¬ ∃ L, FreeListsSound s L := by
  obtain ⟨tr, hrun⟩ := twoFreed_run
  refine ⟨tr, _, hrun, ?_⟩
  rintro ⟨L, hsound⟩
  have hcount : twoFreed.freeCount 0 = (L 0).length := hsound.count 0 (by decide)
  have hlength := hsound.length_le (show twoFreed.usableEnd < 2 ^ 32 by decide +kernel) (show 0 < maxOrder by decide)
  have hcounter := twoFreed_freeCount 0
  rw [if_pos rfl] at hcounter
  omega

/-- All is released, and no block of 4 MB is on its list. -/
theorem great_block_lost : ∃ tr s, Run (AnyCall Step) (initialState (demoMemory 0x1810000)) tr s ∧
    s.allocated = ∅ ∧ s.mem.freeList (maxOrder - 1) = 0 ∧
    s.mem.freeCount (maxOrder - 1) ≠ (initMemory (demoMemory 0x1810000)).freeCount (maxOrder - 1) := by
  obtain ⟨tr, hrun⟩ := twoFreed_run
  exact ⟨tr, _, hrun, rfl, by decide +kernel, by decide +kernel⟩

end Buddy

end OmochaOS
