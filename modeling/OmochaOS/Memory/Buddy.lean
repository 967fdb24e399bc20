import OmochaOS.Kernel.Systask

/-!
# The page allocator (`modules/memory/buddy.c`, `buddy.h`, `memory_init.c`)

The memory between `memory_start` and `usable_end` is handed out in blocks of `2 ^ order` pages.  The
free blocks of an order are linked through their first two words, `free_list[order]` points at the
first one and `free_count[order]` counts them.  A bit for each pair of blocks says whether one of the
two is free.

Addresses are numbers and 0 is the null pointer.  The words `prev` and `next` of a block are two maps
of the addresses: what the code writes through a null `next` lands at address 0.  The contents of the
bitmaps are a map of order and index, so the bitmaps of two orders do not share bits here; where they
are placed is followed in `Layout`.  `attr` and the page types are numbers, the panic does nothing.
-/

namespace OmochaOS

namespace Buddy

def pgSize : ℕ := 4096
def maxOrder : ℕ := 11

def pageTypeUsable : ℕ := 0x001
def pageTypeSystem : ℕ := 0x004
def pageTypeFree : ℕ := 0x010
def pageTypeInuse : ℕ := 0x020

/-- `struct page`. -/
structure Page where
  type : ℕ
  reference : ℤ
deriving DecidableEq, Inhabited

/-- The fields of `struct memory_info` that only `init_memory` writes. -/
structure MemoryLayout where
  buddyMap : ℕ → ℕ
  memoryStart : ℕ
  memoryEnd : ℕ
  usableEnd : ℕ
  pageCount : ℕ
  pagesInfo : ℕ

/-- `struct memory_info` and what its pointers lead to. -/
structure MemoryInfo extends MemoryLayout where
  freeList : ℕ → ℕ
  freeCount : ℕ → ℕ
  /-- the words of the blocks -/
  prev : ℕ → ℕ
  next : ℕ → ℕ
  /-- the bits of `buddy_map[order]` -/
  bits : ℕ → ℕ → Bool
  /-- the entries of `pages_info` -/
  pages : ℕ → Page

/-! ### Arithmetic -/

/-- The difference of two `uint`. -/
def subUint (a b : ℕ) : ℕ := (a + 2 ^ 32 - b) % 2 ^ 32

/-- `ROUNDDOWN_WITH(s, a)`, for `s` a power of two. -/
def roundDownWith (s a : ℕ) : ℕ := a / s * s

/-- `round_up_power_2`. -/
def roundUpPower2 (x : BitVec 32) : BitVec 32 :=
  let x := x - 1
  let x := x ||| x >>> 1
  let x := x ||| x >>> 2
  let x := x ||| x >>> 4
  let x := x ||| x >>> 8
  let x := x ||| x >>> 16
  x + 1

/-- `trailing_zero`: one `bsfl`. -/
def trailingZero (x : BitVec 32) : ℕ := bsf x

/-- The order that `page_alloc` and `page_free` compute from a number of pages. -/
def orderOf (pages : ℕ) : ℕ := trailingZero (roundUpPower2 (BitVec.ofNat 32 pages))

/-! ### Free lists -/

variable (mem : MemoryInfo)

/-- `GET_ID_BY_PAGE`. -/
def pageId (p : ℕ) : ℕ := (p - mem.memoryStart) / pgSize

/-- `remove_from_free_list`. -/
def removeFromFreeList (p : ℕ) (order : ℕ) : MemoryInfo :=
  let mem :=
    if mem.prev p ≠ 0 then
      let mem := { mem with next := Function.update mem.next (mem.prev p) (mem.next p) }
      { mem with prev := Function.update mem.prev (mem.next p) (mem.prev p) }
    else
      let mem := { mem with freeList := Function.update mem.freeList order (mem.next p) }
      { mem with prev := Function.update mem.prev (mem.next p) 0 }
  let mem := { mem with next := Function.update mem.next p 0 }
  { mem with prev := Function.update mem.prev p 0 }

/-- `attach_to_free_list`. -/
def attachToFreeList (p : ℕ) (order : ℕ) : MemoryInfo :=
  let mem := { mem with next := Function.update mem.next p (mem.freeList order) }
  let mem := { mem with prev := Function.update mem.prev (mem.next p) p }
  let mem := { mem with prev := Function.update mem.prev p 0 }
  { mem with freeList := Function.update mem.freeList order p }

def setFreeCount (order n : ℕ) : MemoryInfo :=
  { mem with freeCount := Function.update mem.freeCount order n }

/-- The bit of `buddy_map[order]` that stands for the block at `p` and its buddy. -/
def pairIndex (p : ℕ) (order : ℕ) : ℕ := pageId mem p >>> (order + 1)

/-- `xor_buddy_map`: the map after it, and the bit that it answers. -/
def xorBuddyMap (p : ℕ) (order : ℕ) : MemoryInfo × Bool :=
  let i := pairIndex mem p order
  let bit := !mem.bits order i
  ({ mem with bits := Function.update mem.bits order (Function.update (mem.bits order) i bit) }, bit)

/-- The entries of the pages of a block. -/
def setPages (p : ℕ) (order : ℕ) (page : Page) : MemoryInfo :=
  { mem with pages := fun i =>
      if pageId mem p ≤ i ∧ i < pageId mem p + 2 ^ order then page else mem.pages i }

/-! ### Allocation -/

/-- `allocate_pages_of_power_2`, down to a depth of calls. -/
def allocate : ℕ → MemoryInfo → (order attr : ℕ) → MemoryInfo × ℕ
  | 0, mem, _, _ => (mem, 0)
  | depth + 1, mem, order, attr =>
    if maxOrder ≤ order then (mem, 0)
    else
      let (mem, block) :=
        if mem.freeCount order = 0 then
          let (mem, block) := allocate depth mem (order + 1) 0
          if block = 0 then (mem, 0)
          else
            let mem := attachToFreeList mem block order
            let mem := setFreeCount mem order (mem.freeCount order + 1)
            -- the higher half is returned
            let block := block + 2 ^ order * pgSize
            ((xorBuddyMap mem block order).1, block)
        else
          let block := mem.freeList order
          let mem := removeFromFreeList mem block order
          let mem := setFreeCount mem order (mem.freeCount order - 1)
          ((xorBuddyMap mem block order).1, block)
      if block = 0 then (mem, 0) else (setPages mem block order ⟨attr, 1⟩, block)

/-- A call for order 0 goes down to `maxOrder`. -/
def allocatePagesOfPower2 (order attr : ℕ) : MemoryInfo × ℕ :=
  allocate (maxOrder + 1) mem order attr

/-- `page_alloc`. -/
def pageAlloc (pages attr : ℕ) : MemoryInfo × ℕ :=
  allocatePagesOfPower2 mem (orderOf pages) attr

/-! ### Release -/

/-- `free_pages_of_power_2` for an order below `maxOrder`, down to a depth of calls: the map after it
and the number it answers. -/
def free : ℕ → MemoryInfo → (p : ℕ) → (order : ℕ) → MemoryInfo × ℕ
  | 0, mem, _, _ => (mem, 0)
  | depth + 1, mem, p, order =>
    if p = 0 then (mem, 1)
    else if ¬ (mem.memoryStart ≤ p ∧ p ≤ mem.usableEnd) then (mem, 2)
    else
      let (mem, buddyBit) := xorBuddyMap mem p order
      if buddyBit = false ∧ order + 1 < maxOrder then
        let pageIdx := pageId mem p
        let buddyEvenPageIdx := (pageIdx >>> (order + 1)) <<< (order + 1)
        let buddy := if pageIdx = buddyEvenPageIdx then p + 2 ^ order * pgSize
          else p - 2 ^ order * pgSize
        let mem := removeFromFreeList mem buddy order
        let mem := setFreeCount mem order (mem.freeCount order - 1)
        ((free depth mem (if buddy < p then buddy else p) (order + 1)).1, 0)
      else
        let mem := attachToFreeList mem p order
        let mem := setPages mem p order ⟨pageTypeUsable ||| pageTypeFree, 0⟩
        (setFreeCount mem order (mem.freeCount order + 1), 0)

def freePagesOfPower2 (p : ℕ) (order : ℕ) : MemoryInfo × ℕ := free maxOrder mem p order

/-- `page_free`. -/
def pageFree (p : ℕ) (pages : ℕ) : MemoryInfo × ℕ :=
  freePagesOfPower2 mem p (orderOf pages)

/-! ### Initialisation -/

def sizeofPage : ℕ := 8

/-- `pg_count`. -/
def pgCount (memoryStart memoryEnd : ℕ) : ℕ := subUint memoryEnd memoryStart / pgSize

/-- `buddy_bytes`.  There are less than `2 ^ 20` pages, so the product does not overflow. -/
def buddyBytes (pgCount : ℕ) : ℕ := (2 ^ maxOrder - 1) * pgCount / 2 ^ maxOrder / 8

/-- `max_block_size`. -/
def maxBlockSize : ℕ := 2 ^ (maxOrder - 1) * pgSize

/-- The loop that places `buddy_map[i]`. -/
def placeBuddyMap (pgCount : ℕ) (first : ℕ) : ℕ → ℕ
  | 0 => first
  | i + 1 => (placeBuddyMap pgCount first i + pgCount >>> (i + 1) / 8) % 2 ^ 32

/-- The body of the loop over the blocks of the greatest order. -/
def attachMaxBlock (current : ℕ) : MemoryInfo :=
  let mem := { mem with next := Function.update mem.next current (mem.freeList (maxOrder - 1)) }
  let mem := { mem with prev := Function.update mem.prev (mem.next current) current }
  let mem := { mem with prev := Function.update mem.prev current 0 }
  let mem := { mem with freeList := Function.update mem.freeList (maxOrder - 1) current }
  setFreeCount mem (maxOrder - 1) (mem.freeCount (maxOrder - 1) + 1)

/-- `pg` goes from `memory_start` up to `usable_end`. -/
def attachMaxBlocks : ℕ → MemoryInfo → (pg : ℕ) → MemoryInfo
  | 0, mem, _ => mem
  | left + 1, mem, pg =>
    if pg < mem.usableEnd then attachMaxBlocks left (attachMaxBlock mem pg) (pg + maxBlockSize)
    else mem

/-- `init_memory` up to the loop over the blocks, from the two ends of the memory and whatever it
holds. -/
def initTables : MemoryInfo :=
  let pgCount := pgCount mem.memoryStart mem.memoryEnd
  let pgInfoSize := pgCount * sizeofPage
  let buddyBytes := buddyBytes pgCount
  let usableEnd := roundDownWith maxBlockSize (subUint (subUint mem.memoryEnd buddyBytes) pgInfoSize)
  { mem with
    pageCount := pgCount
    usableEnd := usableEnd
    pagesInfo := usableEnd
    buddyMap := placeBuddyMap pgCount (subUint mem.memoryEnd buddyBytes)
    freeList := fun _ => 0
    freeCount := fun _ => 0
    -- from `usable_end` on the memory is cleared
    bits := fun _ _ => false }

/-- The last loop of `init_memory`. -/
def initPages : MemoryInfo :=
  { mem with pages := fun i =>
      if i < mem.pageCount then
        if (mem.memoryStart + i * pgSize) % 2 ^ 32 < mem.usableEnd then
          ⟨pageTypeFree ||| pageTypeUsable, 0⟩
        else ⟨pageTypeInuse ||| pageTypeSystem, 0⟩
      else mem.pages i }

/-- `init_memory`. -/
def initMemory : MemoryInfo :=
  initPages (attachMaxBlocks (2 ^ 32 / maxBlockSize) (initTables mem) mem.memoryStart)

theorem attachMaxBlocks_layout {left : ℕ} {pg : ℕ} :
    (attachMaxBlocks left mem pg).toMemoryLayout = mem.toMemoryLayout := by
  induction left generalizing mem pg with
  | zero => rfl
  | succ left ih =>
    rw [attachMaxBlocks]
    split
    · exact ih (attachMaxBlock mem pg)
    · rfl

theorem initPages_layout : (initPages mem).toMemoryLayout = mem.toMemoryLayout := rfl

theorem initMemory_layout : (initMemory mem).toMemoryLayout = (initTables mem).toMemoryLayout := by
  rw [initMemory, initPages_layout, attachMaxBlocks_layout]

end Buddy

end OmochaOS
