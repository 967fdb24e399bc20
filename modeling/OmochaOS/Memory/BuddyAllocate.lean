import OmochaOS.Memory.BuddyInvariant

/-!
# Allocation and release keep the invariant (`modules/memory/buddy.c`)

One lemma for each of the two recursions.  An allocation takes a block out of the pages that are free,
whatever order it comes from; a release adds a block, whatever it is merged with.
-/

namespace OmochaOS

open DoublyLinkedList DyadicBlocks

namespace Buddy

variable {mem mem' : MemoryInfo} {F F' : ℕ → ℕ → Prop} {L L' : ℕ → List ℕ}
  {depth k l j i x p attr order : ℕ}

/-- Free blocks lie in the memory. -/
theorem Represents.covers_lt (h : Represents mem F L) (hx : Covers F x) : x < pageTotal mem := by
  obtain ⟨k, hk⟩ := hx
  have hin := h.within k _ hk
  have hlt : x < (x / 2 ^ k + 1) * 2 ^ k := by
    rw [Nat.mul_comm]
    exact Nat.lt_mul_div_succ x (Nat.two_pow_pos k)
  exact Nat.lt_of_lt_of_le hlt hin

/-- A block of covered pages lies in the memory. -/
theorem Represents.block_le (h : Represents mem F L) (hall : ∀ x, x / 2 ^ k = j → Covers F x) :
    (j + 1) * 2 ^ k ≤ pageTotal mem := by
  have hpos := Nat.two_pow_pos k
  have hlast : ((j + 1) * 2 ^ k - 1) / 2 ^ k = j := by
    apply Nat.div_eq_of_lt_le
    · rw [Nat.add_mul]
      omega
    · rw [Nat.add_mul]
      omega
  have hlt := h.covers_lt (hall _ hlast)
  have hone : 0 < (j + 1) * 2 ^ k := Nat.mul_pos (Nat.succ_pos j) hpos
  omega

theorem Inv.setPages {page : Page} (h : Inv mem F L) : Inv (setPages mem p order page) F L where
  toRepresents := h.toRepresents.congr rfl rfl rfl (fun _ _ _ _ => rfl) fun _ _ _ _ => rfl
  lone := h.lone
  bit_iff := h.bit_iff

/-- The entries after those of a block are filled in. -/
theorem setPages_pages {page : Page} : (setPages mem (blockAddr mem.memoryStart k j) k page).pages x =
    if x / 2 ^ k = j then page else mem.pages x := by
  show (if _ ∧ _ then page else mem.pages x) = _
  rw [pageId_blockAddr]
  congr 1
  apply propext
  rw [Nat.div_eq_iff (Nat.two_pow_pos k)]
  have hpos := Nat.two_pow_pos k
  omega

/-- After the bit of the pair is turned over the invariant holds of the new set of blocks. -/
theorem Inv.of_xor (h : Represents mem F L) (hlone : Lone (maxOrder - 1) F)
    (hbits : ∀ k < maxOrder - 1, ∀ i,
      (xorBuddyMap mem p order).1.bits k i = true ↔ ∃ j, F k j ∧ j / 2 = i) :
    Inv (xorBuddyMap mem p order).1 F L where
  toRepresents := h.congr rfl rfl rfl (fun _ _ _ _ => rfl) fun _ _ _ _ => rfl
  lone := hlone
  bit_iff := hbits

/-! ### Allocation -/

/-- A block of an order is taken out of the free pages, and smaller free blocks stay as they are. -/
structure Taken (F F' : ℕ → ℕ → Prop) (order j : ℕ) : Prop where
  covered : ∀ x, x / 2 ^ order = j → Covers F x
  covers_iff : ∀ x, Covers F' x ↔ Covers F x ∧ x / 2 ^ order ≠ j
  below : ∀ l < order, ∀ i, F' l i ↔ F l i

/-- The lower half goes back, the higher half is taken. -/
theorem Taken.split (h : Taken F F' (order + 1) j) :
    Taken F (put F' order (2 * j)) order (2 * j + 1) where
  covered x hx := by
    apply h.covered
    rw [div_pow_succ, hx]
    omega
  covers_iff x := by
    have hcovered := h.covered x
    rw [covers_put, h.covers_iff]
    rw [div_pow_succ] at hcovered ⊢
    constructor
    · rintro (⟨hx, hne⟩ | hx)
      · exact ⟨hx, by omega⟩
      · exact ⟨hcovered (by omega), by omega⟩
    · rintro ⟨hx, hne⟩
      by_cases hhalf : x / 2 ^ order / 2 = j
      · exact Or.inr (by omega)
      · exact Or.inl ⟨hx, hhalf⟩
  below l hl i := by
    have hne : l ≠ order := Nat.ne_of_lt hl
    rw [← h.below l (Nat.lt_succ_of_lt hl) i]
    exact or_iff_left fun he => hne he.1

theorem taken_of_mem (h : Separate F) (hF : F order j) : Taken F (take F order j) order j where
  covered _ hx := covers_of_mem hF hx
  covers_iff _ := h.covers_take hF
  below _ hl _ := and_iff_left fun he => Nat.ne_of_lt hl he.1

/-- A block of the next order is split. -/
theorem Inv.split (h : Inv mem F L) (hk : order + 1 < maxOrder) (hnone : ∀ i, ¬ F order i)
    (hfree : ∀ x, x / 2 ^ (order + 1) = j → ¬ Covers F x)
    (hin : (j + 1) * 2 ^ (order + 1) ≤ pageTotal mem) :
    Inv (xorBuddyMap (setFreeCount
      (attachToFreeList mem (blockAddr mem.memoryStart order (2 * j)) order) order
        (mem.freeCount order + 1)) (blockAddr mem.memoryStart order (2 * j + 1)) order).1
      (put F order (2 * j))
      (Function.update L order (blockAddr mem.memoryStart order (2 * j) :: L order)) := by
  have hattach := h.toRepresents.attach (k := order) (j := 2 * j) (Nat.lt_of_succ_lt hk)
    (fun x hx => hfree x (by rw [div_pow_succ, hx]; omega)) (by
      rw [Nat.pow_succ, Nat.mul_comm _ 2, ← Nat.mul_assoc] at hin
      refine Nat.le_trans (Nat.mul_le_mul_right (2 ^ order) ?_) hin
      omega)
  apply Inv.of_xor hattach
  · exact h.lone.put fun _ => hnone _
  · intro l hl i
    refine bits_put ?_ (h.bit_iff l hl i) ?_
    · rintro rfl b -
      exact hnone b
    · have hpair : pairIndex mem (blockAddr mem.memoryStart order (2 * j + 1)) order = 2 * j / 2 := by
        rw [pairIndex_blockAddr]
        omega
      rw [← hpair]
      exact xorBuddyMap_bits

/-- A block is served from its list. -/
theorem Inv.serve (h : Inv mem F L) (hF : F order j) :
    Inv (xorBuddyMap (setFreeCount
      (removeFromFreeList mem (blockAddr mem.memoryStart order j) order) order
        (mem.freeCount order - 1)) (blockAddr mem.memoryStart order j) order).1
      (take F order j)
      (Function.update L order ((L order).erase (blockAddr mem.memoryStart order j))) := by
  obtain ⟨hlayout, -, hbits⟩ :=
    removeFromFreeList_fields mem (blockAddr mem.memoryStart order j) order
  apply Inv.of_xor (h.toRepresents.remove hF)
  · exact h.lone.take
  · intro l hl i
    apply bits_take h.lone hF hl (h.bit_iff l hl i)
    have hpair : pairIndex (setFreeCount (removeFromFreeList mem
        (blockAddr mem.memoryStart order j) order) order (mem.freeCount order - 1))
        (blockAddr mem.memoryStart order j) order = j / 2 :=
      (pairIndex_congr hlayout).trans pairIndex_blockAddr
    rw [xorBuddyMap_bits, hpair]
    show (if _ then !(removeFromFreeList mem _ order).bits l i
      else (removeFromFreeList mem _ order).bits l i) = _
    rw [hbits]

/-- Above the greatest order there is nothing. -/
theorem allocate_of_le (h : maxOrder ≤ order) : allocate (depth + 1) mem order attr = (mem, 0) := by
  rw [allocate, if_pos h]

/-- An empty list is filled from the next order. -/
theorem allocate_of_empty (h : order < maxOrder) (hcount : mem.freeCount order = 0) {block : ℕ}
    (hcall : allocate depth mem (order + 1) 0 = (mem', block)) :
    allocate (depth + 1) mem order attr =
      if block = 0 then (mem', 0)
      else
        (Buddy.setPages (xorBuddyMap (setFreeCount (attachToFreeList mem' block order) order
          (mem'.freeCount order + 1)) (block + 2 ^ order * pgSize) order).1
          (block + 2 ^ order * pgSize) order ⟨attr, 1⟩, block + 2 ^ order * pgSize) := by
  rw [allocate, if_neg (Nat.not_le.mpr h)]
  simp only [if_pos hcount, hcall]
  by_cases hblock : block = 0
  · simp only [if_pos hblock, ↓reduceIte]
  · have hhalf : block + 2 ^ order * pgSize ≠ 0 := fun he => hblock (Nat.add_eq_zero_iff.mp he).1
    simp only [if_neg hblock, if_neg hhalf]
    rfl

/-- The first block of the list is served. -/
theorem allocate_of_count (h : order < maxOrder) (hcount : mem.freeCount order ≠ 0)
    (hhead : mem.freeList order ≠ 0) : allocate (depth + 1) mem order attr =
      (Buddy.setPages (xorBuddyMap (setFreeCount
        (removeFromFreeList mem (mem.freeList order) order) order
          ((removeFromFreeList mem (mem.freeList order) order).freeCount order - 1))
        (mem.freeList order) order).1 (mem.freeList order) order ⟨attr, 1⟩, mem.freeList order) := by
  rw [allocate, if_neg (Nat.not_le.mpr h)]
  simp only [if_neg hcount, if_neg hhead]

/-- **Allocation.**  Either nothing is there and nothing changes, or a block of the order is taken. -/
theorem allocate_inv (h : Inv mem F L) (hdepth : maxOrder < depth + order) :
    allocate depth mem order attr = (mem, 0) ∨
      ∃ mem' j F' L', allocate depth mem order attr = (mem', blockAddr mem.memoryStart order j) ∧
        order < maxOrder ∧ mem'.toMemoryLayout = mem.toMemoryLayout ∧ Inv mem' F' L' ∧
        Taken F F' order j := by
  induction depth generalizing order attr with
  | zero => exact Or.inl rfl
  | succ depth ih =>
    by_cases hle : maxOrder ≤ order
    · exact Or.inl (allocate_of_le hle)
    have hlt := Nat.not_le.mp hle
    by_cases hcount : mem.freeCount order = 0
    · have hempty : L order = [] := List.length_eq_zero_iff.mp ((h.count order hlt).symm.trans hcount)
      have hnone : ∀ i, ¬ F order i := by
        intro i hi
        have hmem := (h.mem_blockAddr hlt).mpr hi
        rw [hempty] at hmem
        exact List.not_mem_nil hmem
      have hnext : allocate depth mem (order + 1) 0 = (mem, 0) ∨ _ := ih (by omega)
      rcases hnext with hcall | ⟨mem', j, F', L', hcall, hlt', hlayout, h', htaken⟩
      · left
        rw [allocate_of_empty hlt hcount hcall, if_pos rfl]
      · right
        have hstart : mem'.memoryStart = mem.memoryStart := by rw [hlayout]
        have hne : blockAddr mem.memoryStart (order + 1) j ≠ 0 := blockAddr_pos h.start_pos
        have hfree : ∀ x, x / 2 ^ (order + 1) = j → ¬ Covers F' x := fun x hx hcov =>
          ((htaken.covers_iff x).mp hcov).2 hx
        have hin : (j + 1) * 2 ^ (order + 1) ≤ pageTotal mem' := by
          rw [pageTotal, hlayout]
          exact h.block_le htaken.covered
        have hnone' : ∀ i, ¬ F' order i := fun i hi =>
          hnone i ((htaken.below order (Nat.lt_succ_self order) i).mp hi)
        have hsplit := h'.split hlt' hnone' hfree hin
        rw [hstart] at hsplit
        rw [allocate_of_empty hlt hcount hcall, if_neg hne, blockAddr_higher, blockAddr_lower]
        exact ⟨_, 2 * j + 1, _, _, rfl, hlt, hlayout, hsplit.setPages, htaken.split⟩
    · right
      have hlist := h.linked order hlt
      cases hL : L order with
      | nil => exact absurd ((h.count order hlt).trans (by rw [hL, List.length_nil])) hcount
      | cons p rest =>
        have hmem : p ∈ L order := by
          rw [hL]
          exact List.mem_cons_self
        rw [OnFreeList, hL] at hlist
        have hhead : mem.freeList order = p := hlist.head_eq
        obtain ⟨j, hj, rfl⟩ := (h.mem_iff order hlt p).mp hmem
        have hserve := h.serve hj
        obtain ⟨hlayout, hcounts, -⟩ :=
          removeFromFreeList_fields mem (blockAddr mem.memoryStart order j) order
        rw [allocate_of_count hlt hcount (hhead ▸ blockAddr_pos h.start_pos), hhead, hcounts]
        exact ⟨_, j, _, _, rfl, hlt, hlayout, hserve.setPages, taken_of_mem h.separate hj⟩

/-! ### Release -/

/-- The address that the code computes for the buddy. -/
theorem buddyAddr_eq : (if pageId mem (blockAddr mem.memoryStart k j) =
      (pageId mem (blockAddr mem.memoryStart k j) >>> (k + 1)) <<< (k + 1) then
        blockAddr mem.memoryStart k j + 2 ^ k * pgSize
      else blockAddr mem.memoryStart k j - 2 ^ k * pgSize) = blockAddr mem.memoryStart k (buddy j) := by
  have hnext : ∀ i, blockAddr mem.memoryStart k (i + 1) =
      blockAddr mem.memoryStart k i + 2 ^ k * pgSize := by
    intro i
    rw [blockAddr, blockAddr]
    ring
  have heven : j * 2 ^ k = (j * 2 ^ k) >>> (k + 1) <<< (k + 1) ↔ j % 2 = 0 := by
    rw [Nat.shiftRight_eq_div_pow, Nat.shiftLeft_eq, div_pow_succ, mul_pow_div, Nat.pow_succ,
      Nat.mul_comm (2 ^ k) 2, ← Nat.mul_assoc]
    constructor
    · intro h
      have hj := Nat.eq_of_mul_eq_mul_right (Nat.two_pow_pos k) h
      omega
    · intro h
      have hj : j / 2 * 2 = j := by omega
      rw [hj]
  rw [pageId_blockAddr, buddy]
  by_cases hj : j % 2 = 0
  · rw [if_pos (heven.mpr hj), if_pos hj, hnext]
  · obtain ⟨i, rfl⟩ : ∃ i, j = i + 1 := ⟨j - 1, by omega⟩
    rw [if_neg fun h => hj (heven.mp h), if_neg hj, hnext, Nat.add_sub_cancel, Nat.add_sub_cancel]

/-- The lower one of two buddies is where their union starts. -/
theorem lowerAddr_eq {start : ℕ} : (if blockAddr start k (buddy j) < blockAddr start k j then
      blockAddr start k (buddy j) else blockAddr start k j) = blockAddr start (k + 1) (j / 2) := by
  have hpos : 0 < 2 ^ k * pgSize := Nat.mul_pos (Nat.two_pow_pos k) (by decide)
  have hlt : ∀ i, blockAddr start k i < blockAddr start k j ↔ i < j := by
    intro i
    rw [blockAddr, blockAddr, Nat.mul_assoc, Nat.mul_assoc, Nat.add_lt_add_iff_left]
    exact Nat.mul_lt_mul_right hpos
  simp only [hlt, blockAddr_lower, buddy]
  by_cases hj : j % 2 = 0
  · have hhalf : 2 * (j / 2) = j := by omega
    rw [if_pos hj, if_neg (by omega), hhalf]
  · have hhalf : 2 * (j / 2) = j - 1 := by omega
    rw [if_neg hj, if_pos (by omega), hhalf]

/-- A block of the memory passes the test of its address. -/
theorem blockAddr_managed (hin : (j + 1) * 2 ^ k ≤ pageTotal mem) :
    mem.memoryStart ≤ blockAddr mem.memoryStart k j ∧
      blockAddr mem.memoryStart k j ≤ mem.usableEnd := by
  have hpos := Nat.two_pow_pos k
  have hpage : pgSize = 4096 := rfl
  rw [Nat.add_mul, pageTotal, hpage] at hin
  rw [blockAddr, hpage]
  omega

variable (mem)

/-- The block is merged with its buddy. -/
theorem free_of_merge (hne : p ≠ 0) (hin : mem.memoryStart ≤ p ∧ p ≤ mem.usableEnd)
    (hbit : mem.bits order (pairIndex mem p order) = true) (horder : order + 1 < maxOrder) :
    free (depth + 1) mem p order =
      let mem₁ := (xorBuddyMap mem p order).1
      let b := if pageId mem p = (pageId mem p >>> (order + 1)) <<< (order + 1) then
        p + 2 ^ order * pgSize else p - 2 ^ order * pgSize
      let mem₂ := removeFromFreeList mem₁ b order
      ((free depth (setFreeCount mem₂ order (mem₂.freeCount order - 1)) (if b < p then b else p)
        (order + 1)).1, 0) := by
  have hanswer : (xorBuddyMap mem p order).2 = false := by
    show (!mem.bits order (pairIndex mem p order)) = false
    rw [hbit]
    rfl
  rw [free, if_neg hne, if_neg fun h => h hin]
  simp only [hanswer, horder, and_self, ↓reduceIte]
  rfl

/-- The block is attached. -/
theorem free_of_attach (hne : p ≠ 0) (hin : mem.memoryStart ≤ p ∧ p ≤ mem.usableEnd)
    (hbit : order + 1 < maxOrder → mem.bits order (pairIndex mem p order) = false) :
    free (depth + 1) mem p order =
      let mem₁ := attachToFreeList (xorBuddyMap mem p order).1 p order
      (Buddy.setPages (setFreeCount mem₁ order (mem₁.freeCount order + 1)) p order
        ⟨pageTypeUsable ||| pageTypeFree, 0⟩, 0) := by
  have hanswer : ¬ ((xorBuddyMap mem p order).2 = false ∧ order + 1 < maxOrder) := by
    rintro ⟨hfalse, horder⟩
    have hflip : (!mem.bits order (pairIndex mem p order)) = false := hfalse
    rw [hbit horder] at hflip
    exact absurd hflip (by decide)
  rw [free, if_neg hne, if_neg fun h => h hin]
  simp only [if_neg hanswer]
  rfl

variable {mem}

theorem Represents.xor (h : Represents mem F L) : Represents (xorBuddyMap mem p order).1 F L :=
  h.congr rfl rfl rfl (fun _ _ _ _ => rfl) fun _ _ _ _ => rfl

/-- Two buddies that lie in the memory make a block that lies in it. -/
theorem Represents.union_le (h : Represents mem F L) (hin : (j + 1) * 2 ^ order ≤ pageTotal mem)
    (hF : F order (buddy j)) : (j / 2 + 1) * 2 ^ (order + 1) ≤ pageTotal mem := by
  have hbuddy := h.within order _ hF
  have hpow : (j / 2 + 1) * 2 ^ (order + 1) = (2 * (j / 2) + 1 + 1) * 2 ^ order := by
    rw [Nat.pow_succ]
    ring
  rw [hpow]
  rw [buddy] at hbuddy
  by_cases hj : j % 2 = 0
  · have hhigh : 2 * (j / 2) + 1 = j + 1 := by omega
    rw [if_pos hj] at hbuddy
    rw [hhigh]
    exact hbuddy
  · have hhigh : 2 * (j / 2) + 1 = j := by omega
    rw [hhigh]
    exact hin

/-- The buddy is taken from its list, and the bit of the pair is turned over. -/
theorem Inv.merge (h : Inv mem F L) (hF : F order (buddy j)) :
    let mem₁ := (xorBuddyMap mem (blockAddr mem.memoryStart order j) order).1
    let mem₂ := removeFromFreeList mem₁ (blockAddr mem.memoryStart order (buddy j)) order
    Inv (setFreeCount mem₂ order (mem₂.freeCount order - 1)) (take F order (buddy j))
      (Function.update L order
        ((L order).erase (blockAddr mem.memoryStart order (buddy j)))) ∧
      (setFreeCount mem₂ order (mem₂.freeCount order - 1)).toMemoryLayout = mem.toMemoryLayout := by
  intro mem₁ mem₂
  obtain ⟨hlayout, hcounts, hbits⟩ := removeFromFreeList_fields mem₁
    (blockAddr mem.memoryStart order (buddy j)) order
  have hxor : Represents mem₁ F L := h.toRepresents.xor
  have hremove := hxor.remove hF
  refine ⟨?_, hlayout⟩
  constructor
  case toRepresents =>
    have hcount : mem₂.freeCount order - 1 = mem₁.freeCount order - 1 := by rw [hcounts]
    rw [hcount]
    exact hremove
  case lone => exact h.lone.take
  case bit_iff =>
    intro l hl i
    apply bits_take h.lone hF hl (h.bit_iff l hl i)
    show mem₂.bits l i = _
    rw [hbits, xorBuddyMap_bits, pairIndex_blockAddr, buddy_div]

/-- Neither the entries nor the bits of other orders change when a buddy is taken from its list. -/
theorem merge_fields (mem : MemoryInfo) (order j : ℕ) :
    let mem₁ := (xorBuddyMap mem (blockAddr mem.memoryStart order j) order).1
    let mem₂ := removeFromFreeList mem₁ (blockAddr mem.memoryStart order (buddy j)) order
    (setFreeCount mem₂ order (mem₂.freeCount order - 1)).pages = mem.pages ∧
      ∀ l ≠ order, ∀ i, (setFreeCount mem₂ order (mem₂.freeCount order - 1)).bits l i = mem.bits l i := by
  intro mem₁ mem₂
  obtain ⟨-, -, hbits⟩ := removeFromFreeList_fields mem₁
    (blockAddr mem.memoryStart order (buddy j)) order
  refine ⟨?_, fun l hl i => ?_⟩
  · show (removeFromFreeList mem₁ _ order).pages = mem₁.pages
    rw [removeFromFreeList]
    split <;> rfl
  · show mem₂.bits l i = mem.bits l i
    rw [hbits, xorBuddyMap_bits, if_neg fun he => hl he.1]

/-- The two buddies are one block, which is as free to be released as the block was. -/
theorem Inv.merged (h : Inv mem F L) (hbuddy : F order (buddy j))
    (hfree : ∀ x, x / 2 ^ order = j → ¬ Covers F x) (hin : (j + 1) * 2 ^ order ≤ pageTotal mem) :
    (∀ x, x / 2 ^ (order + 1) = j / 2 → ¬ Covers (take F order (buddy j)) x) ∧
      (j / 2 + 1) * 2 ^ (order + 1) ≤ pageTotal mem ∧
      ∀ x, Covers F x ∨ x / 2 ^ order = j ↔
        Covers (take F order (buddy j)) x ∨ x / 2 ^ (order + 1) = j / 2 := by
  have hunion : ∀ x, x / 2 ^ (order + 1) = j / 2 ↔ x / 2 ^ order = j ∨ x / 2 ^ order = buddy j := by
    intro x
    rw [div_pow_succ, div_two_eq_iff]
  have htake : ∀ x, Covers (take F order (buddy j)) x ↔ Covers F x ∧ x / 2 ^ order ≠ buddy j :=
    fun x => h.separate.covers_take hbuddy
  refine ⟨fun x hx hcov => ?_, h.union_le hin hbuddy, fun x => ?_⟩
  · obtain ⟨hcov, hnot⟩ := (htake x).mp hcov
    rcases (hunion x).mp hx with hj | hb
    · exact hfree x hj hcov
    · exact hnot hb
  · rw [htake, hunion]
    constructor
    · rintro (hcov | hj)
      · by_cases hb : x / 2 ^ order = buddy j
        · exact Or.inr (Or.inr hb)
        · exact Or.inl ⟨hcov, hb⟩
      · exact Or.inr (Or.inl hj)
    · rintro (⟨hcov, -⟩ | hj | hb)
      · exact Or.inl hcov
      · exact Or.inr hj
      · exact Or.inl (covers_of_mem hbuddy hb)

/-- What the bit of the pair says when no buddy is to be merged with. -/
theorem Inv.bit_false (h : Inv mem F L) (hfree : ∀ x, x / 2 ^ order = j → ¬ Covers F x)
    (hmerge : ¬ (order + 1 < maxOrder ∧ F order (buddy j))) (hnext : order + 1 < maxOrder) :
    mem.bits order (j / 2) = false := by
  have hlow : order < maxOrder - 1 := by omega
  rw [← Bool.not_eq_true, h.bit_iff order hlow]
  rintro ⟨b, hb, hdiv⟩
  rcases div_two_eq_iff.mp hdiv with rfl | rfl
  · exact hfree (b * 2 ^ order) (mul_pow_div order b) (covers_of_mem hb (mul_pow_div order b))
  · exact hmerge ⟨hnext, hb⟩

/-- The block of order `m` and index `i` that a released block has become: it is free, its entries are
filled in, and of the bits that nothing is read from, its own one is turned over. -/
structure Released (mem mem' : MemoryInfo) (F' : ℕ → ℕ → Prop) (order j m i : ℕ) : Prop where
  le : order ≤ m
  within : ∀ x, x / 2 ^ order = j → x / 2 ^ m = i
  free : F' m i
  pages : ∀ x, mem'.pages x =
    if x / 2 ^ m = i then ⟨pageTypeUsable ||| pageTypeFree, 0⟩ else mem.pages x
  top : ∀ l, maxOrder - 1 ≤ l → ∀ n,
    mem'.bits l n = if l = m ∧ n = i / 2 then !mem.bits l n else mem.bits l n

/-- **Release.**  The block is free again, alone or as a part of a greater one. -/
theorem free_inv (h : Inv mem F L) (horder : order < maxOrder) (hdepth : maxOrder ≤ depth + order)
    (hfree : ∀ x, x / 2 ^ order = j → ¬ Covers F x) (hin : (j + 1) * 2 ^ order ≤ pageTotal mem) :
    ∃ mem' F' L', free depth mem (blockAddr mem.memoryStart order j) order = (mem', 0) ∧
      mem'.toMemoryLayout = mem.toMemoryLayout ∧ Inv mem' F' L' ∧
      (∀ x, Covers F' x ↔ Covers F x ∨ x / 2 ^ order = j) ∧
      ∃ m i, Released mem mem' F' order j m i := by
  induction depth generalizing mem F L order j with
  | zero => exact absurd horder (Nat.not_lt.mpr (by omega))
  | succ depth ih =>
    have hne : blockAddr mem.memoryStart order j ≠ 0 := blockAddr_pos h.start_pos
    have hmanaged := blockAddr_managed hin
    by_cases hmerge : order + 1 < maxOrder ∧ F order (buddy j)
    · -- the buddy is free
      obtain ⟨hnext, hbuddy⟩ := hmerge
      have hlow : order < maxOrder - 1 := by omega
      have hbit : mem.bits order (pairIndex mem (blockAddr mem.memoryStart order j) order) = true := by
        rw [pairIndex_blockAddr]
        exact (h.bit_iff order hlow _).mpr ⟨_, hbuddy, buddy_div j⟩
      obtain ⟨hmerged, hlayout⟩ := h.merge hbuddy
      obtain ⟨hfree', hin', hsame⟩ := h.merged hbuddy hfree hin
      obtain ⟨hpages, htop⟩ := merge_fields mem order j
      rw [free_of_merge mem hne hmanaged hbit hnext]
      simp only [buddyAddr_eq, lowerAddr_eq]
      generalize setFreeCount _ order _ = mem₁ at hmerged hlayout hpages htop ⊢
      have htotal : pageTotal mem₁ = pageTotal mem := by rw [pageTotal, hlayout, pageTotal]
      have hstart : mem₁.memoryStart = mem.memoryStart := by rw [hlayout]
      obtain ⟨mem', F', L', hcall, hlayout', h', hcovers, m, i, hreleased⟩ :=
        ih hmerged hnext (by omega) hfree' (htotal ▸ hin')
      rw [hstart] at hcall
      refine ⟨mem', F', L', ?_, hlayout'.trans hlayout, h', fun x => ?_, m, i, ?_⟩
      · rw [hcall]
      · rw [hcovers, hsame]
      · constructor
        case le => exact Nat.le_of_succ_le hreleased.le
        case within =>
          intro x hx
          apply hreleased.within
          rw [div_pow_succ, hx]
        case free => exact hreleased.free
        case pages =>
          intro x
          rw [hreleased.pages, hpages]
        case top =>
          intro l hl n
          rw [hreleased.top l hl, htop l (by omega)]
    · -- the block is attached
      have hbit : order + 1 < maxOrder →
          mem.bits order (pairIndex mem (blockAddr mem.memoryStart order j) order) = false := by
        rw [pairIndex_blockAddr]
        exact h.bit_false hfree hmerge
      have hnone : order < maxOrder - 1 → ∀ b, b / 2 = j / 2 → ¬ F order b := by
        intro hlow b hdiv hb
        rcases div_two_eq_iff.mp hdiv with rfl | rfl
        · exact hfree (b * 2 ^ order) (mul_pow_div order b) (covers_of_mem hb (mul_pow_div order b))
        · exact hmerge ⟨by omega, hb⟩
      rw [free_of_attach mem hne hmanaged hbit]
      have hxor : Represents (xorBuddyMap mem (blockAddr mem.memoryStart order j) order).1 F L :=
        h.toRepresents.xor
      have hattach := hxor.attach horder hfree hin
      refine ⟨_, _, _, rfl, rfl, Inv.setPages ⟨hattach, h.lone.put fun hlow => ?_, ?_⟩,
        fun x => covers_put, order, j, ?_⟩
      · exact hnone hlow _ (buddy_div j)
      · intro l hl i
        refine bits_put ?_ (h.bit_iff l hl i) ?_
        · rintro rfl b hdiv
          exact hnone hl b hdiv
        · have hpair : pairIndex mem (blockAddr mem.memoryStart order j) order = j / 2 :=
            pairIndex_blockAddr
          rw [← hpair]
          exact xorBuddyMap_bits
      · constructor
        case le => exact Nat.le_refl order
        case within => exact fun x hx => hx
        case free => exact Or.inr ⟨rfl, rfl⟩
        case pages => exact fun x => setPages_pages
        case top =>
          intro l _ n
          have hpair : pairIndex mem (blockAddr mem.memoryStart order j) order = j / 2 :=
            pairIndex_blockAddr
          rw [← hpair]
          exact xorBuddyMap_bits

end Buddy

end OmochaOS
