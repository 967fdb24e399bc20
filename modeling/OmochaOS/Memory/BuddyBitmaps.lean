import OmochaOS.Memory.BuddyRuns

/-!
# The page allocator on its bitmaps (`modules/memory/buddy.c`)

`Buddy` gives every order bits of its own.  Here the bitmaps lie where `init_memory` puts them, and
`xor_buddy_map` turns a bit of the memory over, whichever orders read it.  The counters wrap round, and
so does the index of a page.

An allocation never looks at the bits, so what it does to the free lists and to the entries of the
pages is the same whatever they are (`allocate_represents`).
-/

namespace OmochaOS

open DoublyLinkedList DyadicBlocks TransitionRun

namespace Buddy

namespace Bitmaps

variable (mem : MemoryInfo)

/-- `GET_ID_BY_PAGE`. -/
def pageId (p : ℕ) : ℕ := subUint p mem.memoryStart / pgSize

def pairIndex (p : ℕ) (order : ℕ) : ℕ := pageId mem p >>> (order + 1)

/-- Where bit `i` of `buddy_map[order]` lies. -/
def place (order i : ℕ) : ℕ × ℕ := bitPlace (mem.buddyMap order) i

/-- `xor_buddy_map`: the bit changes for every order that reads it. -/
def xorBuddyMap (p : ℕ) (order : ℕ) : MemoryInfo × Bool :=
  let i := pairIndex mem p order
  let bit := !mem.bits order i
  ({ mem with bits := fun k j => if place mem k j = place mem order i then bit else mem.bits k j },
    bit)

/-- The entries of the pages of a block. -/
def setPages (p : ℕ) (order : ℕ) (page : Page) : MemoryInfo :=
  { mem with pages := fun i =>
      if ∃ n < 2 ^ order, i = pageId mem (p + n * pgSize) then page else mem.pages i }

/-- `mem->free_count[order]++`. -/
def incrementFreeCount (order : ℕ) : MemoryInfo :=
  setFreeCount mem order ((mem.freeCount order + 1) % 2 ^ 32)

/-- `mem->free_count[order]--`. -/
def decrementFreeCount (order : ℕ) : MemoryInfo :=
  setFreeCount mem order (subUint (mem.freeCount order) 1)

/-- `allocate_pages_of_power_2`, down to a depth of calls. -/
def allocate : ℕ → MemoryInfo → (order attr : ℕ) → MemoryInfo × ℕ
  | 0, mem, _, _ => (mem, 0)
  | depth + 1, mem, order, attr =>
    if maxOrder ≤ order then (mem, 0)
    else
      let (mem, block) :=
        if mem.freeCount order = 0 then
          let (mem, block) := allocate depth mem (order + 1) 0
          if block = 0 then (mem, 0)
          else
            let mem := attachToFreeList mem block order
            let mem := incrementFreeCount mem order
            -- the higher half is returned
            let block := block + 2 ^ order * pgSize
            ((xorBuddyMap mem block order).1, block)
        else
          let block := mem.freeList order
          let mem := removeFromFreeList mem block order
          let mem := decrementFreeCount mem order
          ((xorBuddyMap mem block order).1, block)
      if block = 0 then (mem, 0) else (setPages mem block order ⟨attr, 1⟩, block)

def allocatePagesOfPower2 (order attr : ℕ) : MemoryInfo × ℕ :=
  allocate (maxOrder + 1) mem order attr

/-- `page_alloc`. -/
def pageAlloc (pages attr : ℕ) : MemoryInfo × ℕ :=
  allocatePagesOfPower2 mem (orderOf pages) attr

/-- `free_pages_of_power_2`, down to a depth of calls. -/
def free : ℕ → MemoryInfo → (p : ℕ) → (order : ℕ) → MemoryInfo × ℕ
  | 0, mem, _, _ => (mem, 0)
  | depth + 1, mem, p, order =>
    if p = 0 then (mem, 1)
    else if ¬ (mem.memoryStart ≤ p ∧ p ≤ mem.usableEnd) then (mem, 2)
    else
      let (mem, buddyBit) := xorBuddyMap mem p order
      if buddyBit = false ∧ order + 1 < maxOrder then
        let pageIdx := pageId mem p
        let buddyEvenPageIdx := (pageIdx >>> (order + 1)) <<< (order + 1)
        let buddy := if pageIdx = buddyEvenPageIdx then p + 2 ^ order * pgSize
          else p - 2 ^ order * pgSize
        let mem := removeFromFreeList mem buddy order
        let mem := decrementFreeCount mem order
        ((free depth mem (if buddy < p then buddy else p) (order + 1)).1, 0)
      else
        let mem := attachToFreeList mem p order
        let mem := setPages mem p order ⟨pageTypeUsable ||| pageTypeFree, 0⟩
        (incrementFreeCount mem order, 0)

def freePagesOfPower2 (p : ℕ) (order : ℕ) : MemoryInfo × ℕ := free maxOrder mem p order

/-- `page_free`. -/
def pageFree (p : ℕ) (pages : ℕ) : MemoryInfo × ℕ := freePagesOfPower2 mem p (orderOf pages)

/-! ### Indices -/

variable {mem} {mem' : MemoryInfo} {b : ℕ → ℕ → Bool} {F F' : ℕ → ℕ → Prop} {L L' : ℕ → List ℕ}
  {depth k l j i p attr order : ℕ}

/-- The index of a page of the memory does not wrap round. -/
theorem pageId_eq (hlow : mem.memoryStart ≤ p) (hlt : p < 2 ^ 32) :
    pageId mem p = Buddy.pageId mem p := by
  have hsub : subUint p mem.memoryStart = p - mem.memoryStart := by
    rw [subUint]
    omega
  rw [pageId, hsub, Buddy.pageId]

/-- The end of a block of the memory. -/
theorem blockAddr_end_le (hin : (j + 1) * 2 ^ k ≤ pageTotal mem) :
    blockAddr mem.memoryStart k j + 2 ^ k * pgSize ≤ mem.usableEnd := by
  have hpage : pgSize = 4096 := rfl
  have hpos := Nat.two_pow_pos k
  have hend : blockAddr mem.memoryStart k j + 2 ^ k * pgSize =
      mem.memoryStart + (j + 1) * 2 ^ k * pgSize := by
    rw [blockAddr]
    ring
  have hsize : 2 ^ k ≤ (j + 1) * 2 ^ k := Nat.le_mul_of_pos_left _ (Nat.succ_pos j)
  rw [hend, hpage]
  rw [pageTotal, hpage] at hin
  omega

theorem pageId_blockAddr (husable : mem.usableEnd < 2 ^ 32)
    (hin : (j + 1) * 2 ^ k ≤ pageTotal mem) :
    pageId mem (blockAddr mem.memoryStart k j) = Buddy.pageId mem (blockAddr mem.memoryStart k j) := by
  have hend := blockAddr_end_le hin
  exact pageId_eq (blockAddr_managed hin).1 (by omega)

/-- The entries of a block of the memory. -/
theorem setPages_eq {page : Page} (husable : mem.usableEnd < 2 ^ 32)
    (hin : (j + 1) * 2 ^ k ≤ pageTotal mem) (hp : p = blockAddr mem.memoryStart k j) :
    setPages mem p k page = Buddy.setPages mem p k page := by
  subst hp
  have hend := blockAddr_end_le hin
  have hpage : pgSize = 4096 := rfl
  have hlow := (blockAddr_managed hin).1
  have hnth : ∀ n < 2 ^ k, pageId mem (blockAddr mem.memoryStart k j + n * pgSize) =
      Buddy.pageId mem (blockAddr mem.memoryStart k j) + n := by
    intro n hn
    have hlt : n * pgSize < 2 ^ k * pgSize := Nat.mul_lt_mul_of_pos_right hn (by decide)
    rw [pageId_eq (by omega) (by omega), Buddy.pageId, Buddy.pageId, hpage]
    omega
  have hpages : (setPages mem (blockAddr mem.memoryStart k j) k page).pages =
      (Buddy.setPages mem (blockAddr mem.memoryStart k j) k page).pages := by
    funext i
    show (if ∃ n < 2 ^ k, i = pageId mem (_ + n * pgSize) then page else mem.pages i) =
      if _ ∧ _ then page else mem.pages i
    congr 1
    apply propext
    constructor
    · rintro ⟨n, hn, rfl⟩
      rw [hnth n hn]
      omega
    · rintro ⟨hfirst, hlast⟩
      refine ⟨i - Buddy.pageId mem (blockAddr mem.memoryStart k j), by omega, ?_⟩
      rw [hnth _ (by omega)]
      omega
  show { mem with pages := (setPages mem (blockAddr mem.memoryStart k j) k page).pages } = _
  rw [hpages]
  rfl

/-- The entry of a page after that. -/
theorem setPages_pages {page : Page} {x : ℕ} (husable : mem.usableEnd < 2 ^ 32)
    (hin : (j + 1) * 2 ^ k ≤ pageTotal mem) (hp : p = blockAddr mem.memoryStart k j) :
    (setPages mem p k page).pages x = if x / 2 ^ k = j then page else mem.pages x := by
  rw [setPages_eq husable hin hp, hp, Buddy.setPages_pages]

/-! ### Counters -/

/-- There are no more free blocks of an order than pages. -/
theorem freeCount_le (h : Represents mem F L) (hk : k < maxOrder) :
    mem.freeCount k ≤ pageTotal mem := by
  have hsub : L k ⊆ (List.range (pageTotal mem)).map (blockAddr mem.memoryStart k) := by
    intro p hp
    obtain ⟨j, hj, rfl⟩ := (h.mem_iff k hk p).mp hp
    have hin := h.within k j hj
    have hle : j + 1 ≤ (j + 1) * 2 ^ k := Nat.le_mul_of_pos_right _ (Nat.two_pow_pos k)
    exact List.mem_map.mpr ⟨j, List.mem_range.mpr (by omega), rfl⟩
  have hlength := (List.subperm_of_subset (h.nodup k hk) hsub).length_le
  rw [List.length_map, List.length_range] at hlength
  rw [h.count k hk]
  exact hlength

/-- So the counters do not wrap round: neither when a block is attached… -/
theorem increment_attached (h : Represents mem F L) (husable : mem.usableEnd < 2 ^ 32)
    (hk : k < maxOrder) : incrementFreeCount (attachToFreeList mem p k) k =
      setFreeCount (attachToFreeList mem p k) k (mem.freeCount k + 1) := by
  have hpage : pgSize = 4096 := rfl
  have hle := freeCount_le h hk
  rw [pageTotal, hpage] at hle
  have hlt : mem.freeCount k + 1 < 2 ^ 32 := by omega
  show setFreeCount (attachToFreeList mem p k) k ((mem.freeCount k + 1) % 2 ^ 32) = _
  rw [Nat.mod_eq_of_lt hlt]

/-- … nor when one is removed. -/
theorem decrement_removed (h : Represents mem F L) (husable : mem.usableEnd < 2 ^ 32) (hF : F k j) :
    decrementFreeCount (removeFromFreeList mem p k) k =
      setFreeCount (removeFromFreeList mem p k) k (mem.freeCount k - 1) := by
  have hpage : pgSize = 4096 := rfl
  have hk := h.order_lt k j hF
  have hle := freeCount_le h hk
  have hpos : 0 < mem.freeCount k := by
    rw [h.count k hk]
    exact List.length_pos_of_mem ((h.mem_blockAddr hk).mpr hF)
  have hsub : subUint (mem.freeCount k) 1 = mem.freeCount k - 1 := by
    rw [pageTotal, hpage] at hle
    rw [subUint]
    omega
  obtain ⟨-, hcounts, -⟩ := removeFromFreeList_fields mem p k
  rw [decrementFreeCount, hcounts, hsub]

/-! ### The free lists -/

/-- Bits and entries are no matter of the lists. -/
theorem represents_finish {q : ℕ} {page : Page} (h : Represents mem F L) :
    Represents (setPages (xorBuddyMap mem p k).1 q l page) F L :=
  h.congr rfl rfl rfl (fun _ _ _ _ => rfl) fun _ _ _ _ => rfl

/-- A block goes on its list, whatever the bits say. -/
theorem represents_attach (h : Represents mem F L) (husable : mem.usableEnd < 2 ^ 32)
    (hk : k < maxOrder) (hfree : ∀ x, x / 2 ^ k = j → ¬ Covers F x)
    (hin : (j + 1) * 2 ^ k ≤ pageTotal mem) (hp : p = blockAddr mem.memoryStart k j) :
    Represents (incrementFreeCount (attachToFreeList mem p k) k) (put F k j)
      (Function.update L k (p :: L k)) := by
  rw [increment_attached h husable hk, hp]
  exact h.attach hk hfree hin

/-- A block leaves its list, whatever the bits say. -/
theorem represents_remove (h : Represents mem F L) (husable : mem.usableEnd < 2 ^ 32) (hF : F k j)
    (hp : p = blockAddr mem.memoryStart k j) :
    (decrementFreeCount (removeFromFreeList mem p k) k).toMemoryLayout = mem.toMemoryLayout ∧
      Represents (decrementFreeCount (removeFromFreeList mem p k) k) (take F k j)
        (Function.update L k ((L k).erase p)) := by
  rw [decrement_removed h husable hF, hp]
  exact ⟨(removeFromFreeList_fields mem _ k).1, h.remove hF⟩

/-! ### Allocation -/

/-- The block of order `l` at `p` lies in the block of order `m` at `q`. -/
def Nested (p l q m : ℕ) : Prop := q ≤ p ∧ p + 2 ^ l * pgSize ≤ q + 2 ^ m * pgSize

/-- A block of an order came out of the first block `q` of the next list that has one: the lists
between have got one part of `q` each, and the others are as they were. -/
structure SplitOff (L L' : ℕ → List ℕ) (order m q block : ℕ) : Prop where
  order_le : order ≤ m
  lt : m < maxOrder
  skipped : ∀ l, order ≤ l → l < m → L l = []
  taken : L m = q :: L' m
  parts : ∀ l, order ≤ l → l < m → ∃ p, L' l = [p] ∧ Nested p l q m
  inside : Nested block order q m
  others : ∀ l, l < order ∨ m < l → L' l = L l

/-- The first block of the list itself. -/
theorem splitOff_head {rest : List ℕ} (hlt : order < maxOrder) (hL : L order = p :: rest) :
    SplitOff L (Function.update L order ((L order).erase p)) order order p p where
  order_le := Nat.le_refl order
  lt := hlt
  skipped l hle hl := absurd hl (Nat.not_lt.mpr hle)
  taken := by rw [Function.update_self, hL, List.erase_cons_head]
  parts l hle hl := absurd hl (Nat.not_lt.mpr hle)
  inside := ⟨Nat.le_refl p, Nat.le_refl _⟩
  others l hl := by
    have hne : l ≠ order := by omega
    rw [Function.update_of_ne hne]

/-- Its lower half goes on the list of the next smaller order. -/
theorem SplitOff.lower {m q : ℕ} (h : SplitOff L L' (order + 1) m q p) (hempty : L order = []) :
    SplitOff L (Function.update L' order (p :: L' order)) order m q (p + 2 ^ order * pgSize) := by
  have hlt : order < m := h.order_le
  have hbefore : L' order = [] := by rw [h.others order (Or.inl (Nat.lt_succ_self order)), hempty]
  obtain ⟨hlow, hhigh⟩ := h.inside
  have hpow : 2 ^ (order + 1) * pgSize = 2 ^ order * pgSize + 2 ^ order * pgSize := by
    rw [Nat.pow_succ]
    ring
  rw [hpow] at hhigh
  constructor
  case order_le => exact Nat.le_of_lt hlt
  case lt => exact h.lt
  case skipped =>
    intro l hle hl
    rcases Nat.eq_or_lt_of_le hle with rfl | hgt
    · exact hempty
    · exact h.skipped l hgt hl
  case taken =>
    rw [Function.update_of_ne (Nat.ne_of_gt hlt)]
    exact h.taken
  case parts =>
    intro l hle hl
    rcases Nat.eq_or_lt_of_le hle with rfl | hgt
    · refine ⟨p, ?_, hlow, by omega⟩
      rw [Function.update_self, hbefore]
    · rw [Function.update_of_ne (Nat.ne_of_gt hgt)]
      exact h.parts l hgt hl
  case inside => exact ⟨by omega, by omega⟩
  case others =>
    intro l hl
    have hne : l ≠ order := by omega
    rw [Function.update_of_ne hne]
    exact h.others l (by omega)

theorem allocate_of_le (h : maxOrder ≤ order) : allocate (depth + 1) mem order attr = (mem, 0) := by
  rw [allocate, if_pos h]

theorem allocate_of_null (h : order < maxOrder) (hcount : mem.freeCount order = 0)
    (hcall : allocate depth mem (order + 1) 0 = (mem', 0)) :
    allocate (depth + 1) mem order attr = (mem', 0) := by
  rw [allocate, if_neg (Nat.not_le.mpr h)]
  simp only [if_pos hcount, hcall, ↓reduceIte]

/-- An empty list is filled from the next order. -/
theorem allocate_of_empty {block : ℕ} (h : order < maxOrder)
    (hcount : mem.freeCount order = 0) (hcall : allocate depth mem (order + 1) 0 = (mem', block))
    (hblock : block ≠ 0) : allocate (depth + 1) mem order attr =
      (setPages (xorBuddyMap (incrementFreeCount (attachToFreeList mem' block order) order)
        (block + 2 ^ order * pgSize) order).1 (block + 2 ^ order * pgSize) order ⟨attr, 1⟩,
          block + 2 ^ order * pgSize) := by
  have hhalf : block + 2 ^ order * pgSize ≠ 0 := fun he => hblock (Nat.add_eq_zero_iff.mp he).1
  rw [allocate, if_neg (Nat.not_le.mpr h)]
  simp only [if_pos hcount, hcall, if_neg hblock, if_neg hhalf]

/-- The first block of the list is served. -/
theorem allocate_of_count (h : order < maxOrder) (hcount : mem.freeCount order ≠ 0)
    (hhead : mem.freeList order ≠ 0) : allocate (depth + 1) mem order attr =
      (setPages (xorBuddyMap (decrementFreeCount (removeFromFreeList mem (mem.freeList order) order)
        order) (mem.freeList order) order).1 (mem.freeList order) order ⟨attr, 1⟩,
          mem.freeList order) := by
  rw [allocate, if_neg (Nat.not_le.mpr h)]
  simp only [if_neg hcount, if_neg hhead]

/-- The entries after a block of an order came out of the list of order `m`. -/
structure Recorded (mem mem' : MemoryInfo) (F F' : ℕ → ℕ → Prop) (L' : ℕ → List ℕ)
    (order attr m j : ℕ) : Prop where
  own : ∀ x, x / 2 ^ order = j → mem'.pages x = ⟨attr, 1⟩
  whole : m = order → F' = take F order j ∧ ∀ x, x / 2 ^ order ≠ j → mem'.pages x = mem.pages x
  -- the part that is left of a greater block keeps the entries that its allocation gave it
  stale : order < m → ∃ i, L' order = [blockAddr mem.memoryStart order i] ∧
    mem'.pages (i * 2 ^ order) = ⟨0, 1⟩

/-- **Allocation.**  Whatever the bits are, either no list from the order on has a block and nothing
changes, or a block of the order comes out of the first block of the next list that has one. -/
theorem allocate_represents (attr : ℕ) (h : Represents mem F L) (husable : mem.usableEnd < 2 ^ 32)
    (hdepth : maxOrder < depth + order) :
    (allocate depth mem order attr = (mem, 0) ∧ ∀ l, order ≤ l → l < maxOrder → L l = []) ∨
      ∃ mem' j F' L' m q, allocate depth mem order attr = (mem', blockAddr mem.memoryStart order j) ∧
        mem'.toMemoryLayout = mem.toMemoryLayout ∧ Represents mem' F' L' ∧ Taken F F' order j ∧
        SplitOff L L' order m q (blockAddr mem.memoryStart order j) ∧
        Recorded mem mem' F F' L' order attr m j := by
  induction depth generalizing order attr with
  | zero => exact Or.inl ⟨rfl, fun l hle hl => absurd hl (by omega)⟩
  | succ depth ih =>
    by_cases hle : maxOrder ≤ order
    · exact Or.inl ⟨allocate_of_le hle, fun l hol hl => absurd hl (by omega)⟩
    have hlt := Nat.not_le.mp hle
    have hne : ∀ k j, blockAddr mem.memoryStart k j ≠ 0 := fun _ _ => blockAddr_pos h.start_pos
    by_cases hcount : mem.freeCount order = 0
    · have hempty : L order = [] := List.length_eq_zero_iff.mp ((h.count order hlt).symm.trans hcount)
      have hnone : ∀ i, ¬ F order i := by
        intro i hi
        have hmem := (h.mem_blockAddr hlt).mpr hi
        rw [hempty] at hmem
        exact List.not_mem_nil hmem
      rcases ih 0 (show maxOrder < depth + (order + 1) by omega) with
        ⟨hcall, hall⟩ | ⟨mem', j, F', L', m, q, hcall, hlayout, h', htaken, hoff, hrec⟩
      · refine Or.inl ⟨allocate_of_null hlt hcount hcall, fun l hol hl => ?_⟩
        rcases Nat.eq_or_lt_of_le hol with rfl | hgt
        · exact hempty
        · exact hall l hgt hl
      · -- the lower half goes on the list, the higher half is returned
        right
        have hstart : mem'.memoryStart = mem.memoryStart := by rw [hlayout]
        have husable' : mem'.usableEnd < 2 ^ 32 := by rw [hlayout]; exact husable
        have hin : (j + 1) * 2 ^ (order + 1) ≤ pageTotal mem' := by
          rw [pageTotal, hlayout]
          exact h.block_le htaken.covered
        have hpow : (2 * j + 1 + 1) * 2 ^ order = (j + 1) * 2 ^ (order + 1) := by
          rw [Nat.pow_succ]
          ring
        have hhigher : (2 * j + 1 + 1) * 2 ^ order ≤ pageTotal mem' := hpow ▸ hin
        have hlower : (2 * j + 1) * 2 ^ order ≤ pageTotal mem' :=
          Nat.le_trans (Nat.mul_le_mul_right _ (Nat.le_succ _)) hhigher
        have hfree : ∀ x, x / 2 ^ order = 2 * j → ¬ Covers F' x := fun x hx hcov =>
          ((htaken.covers_iff x).mp hcov).2 (by rw [div_pow_succ, hx]; omega)
        have hattach := represents_attach (p := blockAddr mem.memoryStart (order + 1) j) h' husable' hlt
          hfree hlower (by rw [hstart, blockAddr_lower])
        have hoff' := hoff.lower hempty
        rw [blockAddr_higher] at hoff'
        rw [allocate_of_empty hlt hcount hcall (hne _ _), blockAddr_higher]
        refine ⟨_, 2 * j + 1, _, _, m, q, rfl, hlayout, represents_finish hattach, htaken.split, hoff', ?_⟩
        have hpages : ∀ x, (setPages (xorBuddyMap (incrementFreeCount (attachToFreeList mem'
            (blockAddr mem.memoryStart (order + 1) j) order) order)
              (blockAddr mem.memoryStart order (2 * j + 1)) order).1
              (blockAddr mem.memoryStart order (2 * j + 1)) order ⟨attr, 1⟩).pages x =
                if x / 2 ^ order = 2 * j + 1 then ⟨attr, 1⟩ else mem'.pages x := by
          intro x
          exact setPages_pages husable' hhigher (by rw [← hstart]; rfl)
        constructor
        case own =>
          intro x hx
          rw [hpages, if_pos hx]
        case whole => exact fun heq => absurd hoff.order_le (by omega)
        case stale =>
          intro _
          refine ⟨2 * j, ?_, ?_⟩
          · rw [Function.update_self, hoff.others order (Or.inl (Nat.lt_succ_self order)), hempty,
              blockAddr_lower]
          · have hfirst : 2 * j * 2 ^ order / 2 ^ (order + 1) = j := by
              rw [div_pow_succ, mul_pow_div]
              omega
            rw [hpages, mul_pow_div, if_neg (by omega)]
            exact hrec.own _ hfirst
    · right
      have hlist := h.linked order hlt
      cases hL : L order with
      | nil => exact absurd ((h.count order hlt).trans (by rw [hL, List.length_nil])) hcount
      | cons p rest =>
        have hmem : p ∈ L order := by
          rw [hL]
          exact List.mem_cons_self
        rw [OnFreeList, hL] at hlist
        have hhead : mem.freeList order = p := hlist.head_eq
        obtain ⟨j, hj, hp⟩ := (h.mem_iff order hlt p).mp hmem
        have hp0 : p ≠ 0 := hp ▸ hne order j
        obtain ⟨hlayout, hremove⟩ := represents_remove h husable hj hp
        have hin : (j + 1) * 2 ^ order ≤ pageTotal mem := h.within order j hj
        rw [allocate_of_count hlt hcount (hhead ▸ hp0), hhead]
        have hbefore : (decrementFreeCount (removeFromFreeList mem p order) order).pages = mem.pages := by
          show (removeFromFreeList mem p order).pages = mem.pages
          rw [removeFromFreeList]
          split <;> rfl
        generalize decrementFreeCount (removeFromFreeList mem p order) order = mem₂
          at hlayout hremove hbefore ⊢
        have husable' : mem₂.usableEnd < 2 ^ 32 := by rw [hlayout]; exact husable
        have hin' : (j + 1) * 2 ^ order ≤ pageTotal mem₂ := by
          rw [pageTotal, hlayout]
          exact hin
        have hpages : ∀ x, (setPages (xorBuddyMap mem₂ p order).1 p order ⟨attr, 1⟩).pages x =
            if x / 2 ^ order = j then ⟨attr, 1⟩ else mem.pages x := by
          intro x
          rw [← hbefore]
          exact setPages_pages husable' hin' (by rw [hp, ← hlayout]; rfl)
        have hoff := splitOff_head hlt hL
        refine ⟨_, j, _, _, order, p, Prod.ext rfl hp, hlayout, represents_finish hremove,
          taken_of_mem h.separate hj, ?_, ?_⟩
        · rw [← hp]
          exact hoff
        constructor
        case own =>
          intro x hx
          rw [hpages, if_pos hx]
        case whole =>
          intro _
          refine ⟨rfl, fun x hx => ?_⟩
          rw [hpages, if_neg hx]
        case stale => exact fun hgt => absurd hgt (Nat.lt_irrefl order)

/-! ### Release -/

variable (mem)

/-- The block is merged with its buddy. -/
theorem free_of_merge (hne : p ≠ 0) (hin : mem.memoryStart ≤ p ∧ p ≤ mem.usableEnd)
    (hbit : (xorBuddyMap mem p order).2 = false) (horder : order + 1 < maxOrder) :
    free (depth + 1) mem p order =
      let mem₁ := (xorBuddyMap mem p order).1
      let b := if pageId mem₁ p = (pageId mem₁ p >>> (order + 1)) <<< (order + 1) then
        p + 2 ^ order * pgSize else p - 2 ^ order * pgSize
      ((free depth (decrementFreeCount (removeFromFreeList mem₁ b order) order)
        (if b < p then b else p) (order + 1)).1, 0) := by
  rw [free, if_neg hne, if_neg fun h => h hin]
  simp only [hbit, horder, and_self, ↓reduceIte]

/-- The block is attached. -/
theorem free_of_attach (hne : p ≠ 0) (hin : mem.memoryStart ≤ p ∧ p ≤ mem.usableEnd)
    (hbit : order + 1 < maxOrder → (xorBuddyMap mem p order).2 = true) :
    free (depth + 1) mem p order =
      (incrementFreeCount (setPages (attachToFreeList (xorBuddyMap mem p order).1 p order) p order
        ⟨pageTypeUsable ||| pageTypeFree, 0⟩) order, 0) := by
  have hanswer : ¬ ((xorBuddyMap mem p order).2 = false ∧ order + 1 < maxOrder) := by
    rintro ⟨hfalse, horder⟩
    rw [hbit horder] at hfalse
    exact absurd hfalse (by decide)
  rw [free, if_neg hne, if_neg fun h => h hin]
  simp only [if_neg hanswer]

end Bitmaps

end Buddy

end OmochaOS
