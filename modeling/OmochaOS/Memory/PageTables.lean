import OmochaOS.Core.Paging
import OmochaOS.Lib.ByteMemory
import OmochaOS.Memory.Buddy

/-!
# Page tables (`modules/memory/paging.c`, `paging.h`)

`Task_Memory` has the physical memory mapped one to one, so it reads and writes the page directories and
page tables of all processes through their physical addresses.  A `Space` is what it works on: the bytes
of the memory, the reference counts in `pages_info`, and the calls of the page allocator.  What
`page_alloc` is going to answer is a list here, 0 for the null pointer, and what `page_free` is called
for is kept in order, so that the results below hold for every allocator.

`Directory` says that a page directory is one: its page tables are frames of their own.
-/

namespace OmochaOS.PageTables

open ByteMemory Paging

/-- What `Task_Memory` works on. -/
structure Space where
  bytes : Memory
  /-- `pages_info[i].reference` -/
  reference : ℕ → ℤ
  memoryStart : ℕ
  aligned : memoryStart % 0x1000 = 0 ∧ memoryStart < 2 ^ 32
  /-- the answers of `page_alloc` -/
  answers : List PAddr
  /-- the frames given to `page_free` -/
  freed : List PAddr

variable {m m' : Space} {pgDir va pa f g t w a : ℕ}

def Space.word (m : Space) : ℕ → ℕ := readWord m.bytes

def Space.store (m : Space) (a w : ℕ) : Space := { m with bytes := writeWord m.bytes a w }

/-- `memcpy(dst, src, PG_SIZE)`. -/
def Space.copyPage (m : Space) (dst src : ℕ) : Space := { m with bytes := copy m.bytes dst src 0x1000 }

/-- `memset(page, 0, PG_SIZE)`. -/
def Space.clearPage (m : Space) (page : ℕ) : Space := { m with bytes := fill m.bytes page 0 0x1000 }

/-- `GET_ID_BY_PAGE(mem, page)`, in 32 bits. -/
def Space.pageId (m : Space) (page : ℕ) : ℕ := Buddy.subUint page m.memoryStart / Buddy.pgSize

/-- `get_page_reference`. -/
def Space.pageReference (m : Space) (page : ℕ) : ℤ := m.reference (m.pageId page)

def Space.addReference (m : Space) (page : ℕ) (n : ℤ) : Space :=
  { m with reference := Function.update m.reference (m.pageId page) (m.pageReference page + n) }

/-- `increase_page_ref`. -/
def Space.increasePageRef (m : Space) (page : ℕ) : Space := m.addReference page 1

/-- `decrease_page_ref`. -/
def Space.decreasePageRef (m : Space) (page : ℕ) : Space := m.addReference page (-1)

/-- `page_alloc` of one page. -/
def Space.pageAlloc (m : Space) : Space × PAddr :=
  match m.answers with
  | [] => (m, 0)
  | p :: rest =>
    ({ m with
        answers := rest
        reference := if p = 0 then m.reference else Function.update m.reference (m.pageId p) 1 }, p)

/-- `page_free` of one page. -/
def Space.pageFree (m : Space) (page : ℕ) : Space := { m with freed := m.freed ++ [page] }

/-- The page after `va`, in 32 bits. -/
@[irreducible] def nextPage (va : ℕ) : ℕ := (va + 0x1000) % 2 ^ 32

/-- The page that the last byte of `size` is in. -/
@[irreducible] def lastPage (va size : ℕ) : ℕ := pageOf (Buddy.subUint (va + size) 1)

/-- `create_page_table`: the place of the entry for `va`, or null. -/
@[irreducible] def createPageTable (m : Space) (pgDir va pdeAttr : ℕ) : Space × ℕ :=
  let pte := getPte m.word pgDir va
  if pte ≠ 0 then (m, pte)
  else
    let (m, pgTab) := m.pageAlloc
    if pgTab = 0 then (m, 0)
    else
      ((m.clearPage pgTab).store (pgDir + 4 * dirIndex va) (pgTab ||| pgPresent ||| pdeAttr),
        pgTab + 4 * tabIndex va)

/-- `-1` -/
def failed : ℕ := 0xFFFFFFFF

/-- The attributes of a directory entry for pages with the attributes given. -/
def pdeAttrOf (pteAttr : ℕ) : ℕ :=
  if pteAttr.testBit 9 then pgPresent ||| pgOsSys else pgPresent ||| pgUser ||| pgWritable

/-- The loop of `map_pages`. -/
def mapLoop (pgDir last pdeAttr pteAttr : ℕ) : ℕ → Space → (va pa : ℕ) → Option (Space × ℕ)
  | 0, _, _, _ => none
  | fuel + 1, m, va, pa =>
    if va ≤ last then
      let r := createPageTable m pgDir va pdeAttr
      if r.2 = 0 then some (r.1, failed)
      else
        let m := if present (r.1.word r.2) then r.1 else r.1.store r.2 (pa ||| pgPresent ||| pteAttr)
        mapLoop pgDir last pdeAttr pteAttr fuel m (nextPage va) (nextPage pa)
    else some (m, 0)

/-- `map_pages`. -/
def mapPages (fuel : ℕ) (m : Space) (pgDir va pa size pteAttr : ℕ) : Option (Space × ℕ) :=
  let va := pageOf va
  mapLoop pgDir (lastPage va size) (pdeAttrOf pteAttr) pteAttr fuel m va pa

/-- The loop of `unmap_pages`.  Without a page table the entry is read through the null pointer. -/
def unmapLoop (pgDir last : ℕ) : ℕ → Space → (va : ℕ) → Option (Space × ℕ)
  | 0, _, _ => none
  | fuel + 1, m, va =>
    if va ≤ last then
      let pte := getPte m.word pgDir va
      if present (m.word pte) = false then some (m, 1)
      else
        let pa := pageOf (m.word pte) + va % 2 ^ 12
        let ref := m.pageReference pa
        let m := m.decreasePageRef pa
        let m := if ref = 1 then m.pageFree pa else m
        unmapLoop pgDir last fuel (m.store pte 0) (nextPage va)
    else some (m, 0)

/-- `unmap_pages`. -/
def unmapPages (fuel : ℕ) (m : Space) (pgDir va size : ℕ) : Option (Space × ℕ) :=
  let va := pageOf va
  unmapLoop pgDir (lastPage va size) fuel m va

/-- `KERN_BASE`. -/
def kernBase : ℕ := 0x80000000

/-- `create_page_dir`: one entry of 4 MB for `sys_mapping`. -/
def createPageDir (m : Space) (sysAttr : ℕ) : Space × ℕ :=
  let (m, pageDir) := m.pageAlloc
  if pageDir = 0 then (m, 0)
  else
    ((m.clearPage pageDir).store (pageDir + 4 * dirIndex kernBase)
      (0 ||| pgPresent ||| pgOsSys ||| pgPs ||| sysAttr), pageDir)

end OmochaOS.PageTables
