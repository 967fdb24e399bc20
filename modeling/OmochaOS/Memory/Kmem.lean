import OmochaOS.Memory.Buddy
import OmochaOS.Rbtree.Fuel

/-!
# The kernel heap (`modules/memory/kmem.c`)

Headers of three kinds lie on the same memory: a pool, a node of its tree of free blocks and a block
are four words each, at an address that is a multiple of 16, so memory is a map from such addresses to
four words, and every kind of header is a way to read them.  The memory module runs with the first page
of memory mapped, so NULL is an address like any other.

A pointer to a node moves by whole nodes: `node + size` is `16 * size` bytes further on.  The messages
of `panic` go nowhere, so the checks that end in it are left out where nothing else depends on them.
-/

namespace OmochaOS.Kmem

open RedBlack OmochaOS.Rbtree OmochaOS.Buddy

/-- Memory, and `memory_pool`. -/
structure Heap where
  node : ℕ → RbNode
  memoryPool : ℕ

def sizeofRbNode : ℕ := 16

def sizeofKmemPool : ℕ := 16

def kmemBlockHeadSize : ℕ := 12

def COOKIE_MEM_INUSE_BLOCK : ℕ := 0x0020D1AC

def COOKIE_MEM_FREE_BLOCK : ℕ := 0xFF20D1AC

def COOKIE_MEM_NEXT_BLOCK : ℕ := 0x1120D1AC

/-- The sum of two `uint`, or a pointer some bytes further on. -/
def addUint (a b : ℕ) : ℕ := (a + b) % 2 ^ 32

/-- The node `i` nodes after `p`. -/
def nodeAt (p i : ℕ) : ℕ := addUint p (i * sizeofRbNode)

/-- `ROUNDUP_WITH(16, a)`. -/
def roundUp16 (a : ℕ) : ℕ := addUint a 15 / 16 * 16

/-! ### Headers -/

/-- A `kmem_block` in four words. -/
def kmemBlock (cookie pool size mem : ℕ) : RbNode := ⟨cookie, pool, size, mem⟩

/-- A `kmem_pool` in four words. -/
def kmemPool (totalSize totalFree nextPool root : ℕ) : RbNode := ⟨totalSize, totalFree, nextPool, root⟩

namespace Heap

/-- The word at an address that need not be the start of a header. -/
def word (h : Heap) (a : ℕ) : ℕ :=
  let n := h.node (a / 16 * 16)
  if a % 16 < 4 then n.key
  else if a % 16 < 8 then n.parentAndColor
  else if a % 16 < 12 then n.L
  else n.R

def cookie (h : Heap) (b : ℕ) : ℕ := (h.node b).key

def blockPool (h : Heap) (b : ℕ) : ℕ := (h.node b).parentAndColor

def blockSize (h : Heap) (b : ℕ) : ℕ := (h.node b).L

def nextFree (h : Heap) (b : ℕ) : ℕ := (h.node b).R

def totalSize (h : Heap) (pool : ℕ) : ℕ := (h.node pool).key

def nextPool (h : Heap) (pool : ℕ) : ℕ := (h.node pool).L

def write (h : Heap) (b : ℕ) (n : RbNode) : Heap := { h with node := Function.update h.node b n }

def setCookie (h : Heap) (b cookie : ℕ) : Heap := h.write b { h.node b with key := cookie }

def setBlockSize (h : Heap) (b size : ℕ) : Heap := h.write b { h.node b with L := size }

def setNextFree (h : Heap) (b p : ℕ) : Heap := h.write b { h.node b with R := p }

def setNextPool (h : Heap) (pool p : ℕ) : Heap := h.write pool { h.node pool with L := p }

/-- `free_tree` of a pool. -/
def freeTree (h : Heap) (pool : ℕ) : RbTree := ⟨h.node, (h.node pool).R, true⟩

/-- The tree of a pool after one of its functions. -/
def setFreeTree (h : Heap) (pool : ℕ) (t : RbTree) : Heap :=
  { h with node := Function.update t.node pool { t.node pool with R := t.root } }

end Heap

/-! ### Free blocks -/

/-- The part of `insert_to_pool` for a size that there is a node for: the block is put into the chain
behind the node. -/
def chainBlock (h : Heap) (pool p size node : ℕ) : Heap :=
  let nodeNext := nodeAt node sizeofRbNode
  let h := h.write p (kmemBlock COOKIE_MEM_FREE_BLOCK pool (subUint size kmemBlockHeadSize) 0)
  if h.cookie nodeNext ≠ COOKIE_MEM_NEXT_BLOCK then
    let h := h.setCookie nodeNext COOKIE_MEM_NEXT_BLOCK
    (h.setNextFree nodeNext p).setNextFree p 0
  else
    let h := h.setNextFree p (h.nextFree nodeNext)
    h.setNextFree nodeNext p

/-- `insert_to_pool`. -/
def insertToPool (fuel : ℕ) (h : Heap) (pool p size : ℕ) : Except Fault Heap := do
  let h := h.write p ⟨size, 0, 0, 0⟩
  let (t, exists_) ← rbInsert fuel (h.freeTree pool) p
  let h := h.setFreeTree pool t
  if exists_ ≠ 0 then
    let h := h.write p ⟨0, 0, 0, 0⟩
    let node ← rbSearch fuel (h.freeTree pool) (h.freeTree pool).root size
    pure (chainBlock h pool p size node)
  else pure h

/-- The part of `remove_from_pool` for a node with a chain behind it: the first block of the chain takes
the place of the node. -/
def unchainBlock (fuel : ℕ) (h : Heap) (pool mb : ℕ) : Except Fault Heap := do
  let mbNext := h.nextFree mb
  -- the size is read after it has been cleared
  let h := h.write mb ⟨kmemBlockHeadSize, 0, 0, 0⟩
  let (t, _) ← rbInsert fuel (h.freeTree pool) mb
  let h := h.setFreeTree pool t
  let mbN := nodeAt mb sizeofRbNode
  let h := h.write mbN ⟨0, 0, 0, 0⟩
  if mbNext ≠ 0 then pure ((h.setCookie mbN COOKIE_MEM_NEXT_BLOCK).setNextFree mbN mbNext) else pure h

/-- `remove_from_pool`. -/
def removeFromPool (fuel : ℕ) (h : Heap) (pool p : ℕ) : Except Fault Heap := do
  let nextBlock := nodeAt p sizeofRbNode
  let t ← rbRemove fuel (h.freeTree pool) p
  let h := h.setFreeTree pool t
  if h.cookie nextBlock = COOKIE_MEM_NEXT_BLOCK then unchainBlock fuel h pool (h.nextFree nextBlock)
  else pure h

/-! ### Pools -/

/-- `round_down_power_2`. -/
def roundDownPower2 (x : BitVec 32) : BitVec 32 :=
  if x = 0 then 0
  else
    let x := x ||| x >>> 1
    let x := x ||| x >>> 2
    let x := x ||| x >>> 4
    let x := x ||| x >>> 8
    let x := x ||| x >>> 16
    x - x >>> 1

/-- `create_a_mem_pool`, in the pages at `pool`. -/
def createAMemPool (fuel : ℕ) (h : Heap) (pool pages : ℕ) : Except Fault Heap := do
  let totalSize := pages * Buddy.pgSize % 2 ^ 32
  let totalFree := subUint totalSize sizeofKmemPool
  let h := h.write pool (kmemPool totalSize totalFree 0 0)
  insertToPool fuel h pool (addUint pool sizeofKmemPool) totalFree

/-- The loop of `init_memory_pool`, from the pool number `i` on; `page_alloc` gives the pages. -/
def initPools (fuel : ℕ) (pageAlloc : ℕ → ℕ) : ℕ → Heap → (i pages pools : ℕ) → Except Fault (Heap × ℕ)
  | 0, _, _, _, _ => .error .fuel
  | rounds + 1, h, i, pages, pools =>
    if pages = 0 then pure (h, pools)
    else do
      let p2pg := (roundDownPower2 (BitVec.ofNat 32 pages)).toNat
      let pool := pageAlloc i
      let h ← createAMemPool fuel h pool p2pg
      if pools ≠ 0 then
        initPools fuel pageAlloc rounds (h.setNextPool pools pool) (i + 1) (subUint pages p2pg) pools
      else initPools fuel pageAlloc rounds h (i + 1) (subUint pages p2pg) pool

/-- `init_memory_pool`. -/
def initMemoryPool (fuel : ℕ) (pageAlloc : ℕ → ℕ) (h : Heap) (poolSize : ℕ) : Except Fault Heap := do
  let pages := addUint poolSize (Buddy.pgSize - 1) / Buddy.pgSize
  let (h, pools) ← initPools fuel pageAlloc fuel h 0 pages 0
  pure { h with memoryPool := pools }

/-! ### Allocation -/

/-- The loop of `rb_search_upper`: where it stops, and the closest node with a greater key. -/
def searchUpper : ℕ → Heap → (x key closet : ℕ) → Except Fault (ℕ × ℕ)
  | 0, _, _, _, _ => .error .fuel
  | fuel + 1, h, x, key, closet =>
    if x = 0 then pure (x, closet)
    else if (h.node x).key = key then pure (x, closet)
    else if key < (h.node x).key then
      searchUpper fuel h (h.node x).L key
        (if closet = 0 ∨ (h.node x).key < (h.node closet).key then x else closet)
    else searchUpper fuel h (h.node x).R key closet

/-- `rb_search_upper`; at the end the key of `x` is read even where `x` is NULL. -/
def rbSearchUpper (fuel : ℕ) (h : Heap) (x key : ℕ) : Except Fault ℕ := do
  let (x, closet) ← searchUpper fuel h x key 0
  pure (if (h.node x).key = key then x else closet)

/-- The search of `mem_kmalloc` through the pools: the pool it ends at, and the node. -/
def findNode (fuel : ℕ) : ℕ → Heap → (pool size : ℕ) → Except Fault (ℕ × ℕ)
  | 0, _, _, _ => .error .fuel
  | rounds + 1, h, pool, size =>
    if pool = 0 then pure (0, 0)
    else do
      let node ← rbSearchUpper fuel h (h.freeTree pool).root size
      if node ≠ 0 then pure (pool, node) else findNode fuel rounds h (h.nextPool pool) size

/-- The size of the block that `mem_kmalloc` looks for. -/
def neededSize (size : ℕ) : ℕ := roundUp16 (addUint size kmemBlockHeadSize)

/-- The part of `mem_kmalloc` after a node has been found. -/
def takeNode (fuel : ℕ) (h : Heap) (pool node size : ℕ) : Except Fault (Heap × ℕ) := do
  let h ← removeFromPool fuel h h.memoryPool node
  let rest := subUint (h.node node).key size
  let usedSize := if rest < 16 then (h.node node).key else size
  let remainingSize := if rest < 16 then 0 else rest
  let h ← if remainingSize ≠ 0 then insertToPool fuel h pool (nodeAt node size) remainingSize else pure h
  let h := h.write node (kmemBlock COOKIE_MEM_INUSE_BLOCK pool usedSize 0)
  pure (h, addUint node kmemBlockHeadSize)

/-- `mem_kmalloc`. -/
def memKmalloc (fuel : ℕ) (h : Heap) (size : ℕ) : Except Fault (Heap × ℕ) := do
  let (pool, node) ← findNode fuel fuel h h.memoryPool (neededSize size)
  if node = 0 then pure (h, 0) else takeNode fuel h pool node (neededSize size)

/-- The size of the free block at `next`, if `mem_kfree` takes it for one. -/
def nextFreeSize (fuel : ℕ) (h : Heap) (pool next : ℕ) : Except Fault (Option ℕ) := do
  if next < addUint pool (h.totalSize pool) then
    if h.word next = COOKIE_MEM_FREE_BLOCK then
      pure (some (addUint (h.word (addUint next 8)) kmemBlockHeadSize))
    else
      let found ← rbSearch fuel (h.freeTree pool) (h.freeTree pool).root (h.word next)
      if found = next then pure (some (h.word next)) else pure none
  else pure none

/-- `mem_kfree`. -/
def memKfree (fuel : ℕ) : ℕ → Heap → ℕ → Except Fault Heap
  | 0, _, _ => .error .fuel
  | rounds + 1, h, p => do
    let mb := subUint p kmemBlockHeadSize
    if h.cookie mb ≠ COOKIE_MEM_INUSE_BLOCK then pure h
    else
      match ← nextFreeSize fuel h (h.blockPool mb) (addUint p (h.blockSize mb)) with
      | none =>
        insertToPool fuel h (h.blockPool mb) mb (addUint (h.blockSize mb) kmemBlockHeadSize)
      | some size => memKfree fuel rounds (h.setBlockSize mb (addUint (h.blockSize mb) size)) p

end OmochaOS.Kmem
