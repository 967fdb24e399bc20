import OmochaOS.Memory.BuddyBitmaps

/-!
# When `page_alloc` fails (`modules/memory/buddy.c`)

A release follows the bits, and bitmaps that overlap lead it astray.

* `Agree` — the two allocators differ in bits only that belong to no pair of blocks;
* `allocate_agree`, `free_agree` — as long as no two pairs share a bit, they stay so;
* `pageAlloc_exact_of_fits` — then `page_alloc` fails only when no list can serve it, changing nothing,
  and takes what it returns out of the first block that can;
* `pageAlloc_fails_with_memory` — a memory of one block of 4 MB, where four orders share a bit, gets
  null for 512 free pages after three calls.
-/

namespace OmochaOS

open DoublyLinkedList DyadicBlocks TransitionRun

namespace Buddy

namespace Bitmaps

variable {mem mem' : MemoryInfo} {b : ℕ → ℕ → Bool} {F F' : ℕ → ℕ → Prop} {L L' : ℕ → List ℕ}
  {depth k l j i p attr order : ℕ}

/-! ### Agreement -/

/-- `mem` with other bits. -/
def withBits (mem : MemoryInfo) (b : ℕ → ℕ → Bool) : MemoryInfo := { mem with bits := b }

theorem withBits_self (mem : MemoryInfo) : withBits mem mem.bits = mem := rfl

/-- The bits `b` are those of `mem`, for every pair of blocks. -/
def Agree (mem : MemoryInfo) (b : ℕ → ℕ → Bool) : Prop :=
  ∀ k i, Touched mem k i → b k i = mem.bits k i

/-- No two pairs of blocks share a bit. -/
def Distinct (mem : MemoryInfo) : Prop :=
  ∀ k i l j, Touched mem k i → Touched mem l j → place mem k i = place mem l j → k = l ∧ i = j

/-- The memory ends below 4 GB. -/
structure Placed (mem : MemoryInfo) : Prop where
  usable_lt : mem.usableEnd < 2 ^ 32
  distinct : Distinct mem

theorem Placed.congr (h : Placed mem)
    (hlayout : mem'.toMemoryLayout = mem.toMemoryLayout) : Placed mem' := by
  cases mem
  cases mem'
  obtain rfl := hlayout
  exact ⟨h.usable_lt, h.distinct⟩

theorem removeFromFreeList_withBits :
    removeFromFreeList (withBits mem b) p k = withBits (removeFromFreeList mem p k) b := by
  by_cases hprev : mem.prev p = 0
  · rw [removeFromFreeList_first hprev, removeFromFreeList_first (show (withBits mem b).prev p = 0
      from hprev)]
    rfl
  · rw [removeFromFreeList_inner hprev, removeFromFreeList_inner (show (withBits mem b).prev p ≠ 0
      from hprev)]
    rfl

/-- The pair of a block of the memory. -/
theorem touched_block (hk : k < maxOrder) (hin : (j + 1) * 2 ^ k ≤ pageTotal mem) :
    Touched mem k (Buddy.pairIndex mem (blockAddr mem.memoryStart k j) k) := by
  have hend := blockAddr_end_le hin
  have hsize : 0 < 2 ^ k * pgSize := Nat.mul_pos (Nat.two_pow_pos k) (by decide)
  refine ⟨hk, j * 2 ^ k, ?_, rfl⟩
  show blockAddr mem.memoryStart k j < mem.usableEnd
  omega

/-- **One bit.**  Both allocators turn the bit of a pair over and read the same. -/
theorem xorBuddyMap_agree (hplaced : Placed mem) (hagree : Agree mem b) (hk : k < maxOrder)
    (hin : (j + 1) * 2 ^ k ≤ pageTotal mem) :
    ∃ b', xorBuddyMap (withBits mem b) (blockAddr mem.memoryStart k j) k =
        (withBits (Buddy.xorBuddyMap mem (blockAddr mem.memoryStart k j) k).1 b',
          (Buddy.xorBuddyMap mem (blockAddr mem.memoryStart k j) k).2) ∧
      Agree (Buddy.xorBuddyMap mem (blockAddr mem.memoryStart k j) k).1 b' := by
  have htouched := touched_block hk hin
  have hpair : pairIndex (withBits mem b) (blockAddr mem.memoryStart k j) k =
      Buddy.pairIndex mem (blockAddr mem.memoryStart k j) k := by
    show pageId mem _ >>> _ = _
    rw [pageId_blockAddr hplaced.usable_lt hin, Buddy.pairIndex]
  have hbit := hagree k _ htouched
  refine ⟨fun l i => if place mem l i = place mem k (Buddy.pairIndex mem
      (blockAddr mem.memoryStart k j) k) then
        !mem.bits k (Buddy.pairIndex mem (blockAddr mem.memoryStart k j) k) else b l i, ?_, ?_⟩
  · have hread : (withBits mem b).bits k (Buddy.pairIndex mem (blockAddr mem.memoryStart k j) k) =
        mem.bits k (Buddy.pairIndex mem (blockAddr mem.memoryStart k j) k) := hbit
    simp only [xorBuddyMap, hpair, hread]
    rfl
  · intro l i hli
    have hli : Touched mem l i := hli
    show (if place mem l i = _ then _ else b l i) = _
    rw [xorBuddyMap_bits]
    by_cases hsame : place mem l i = place mem k (Buddy.pairIndex mem (blockAddr mem.memoryStart k j) k)
    · obtain ⟨rfl, rfl⟩ := hplaced.distinct _ _ _ _ hli htouched hsame
      rw [if_pos rfl, if_pos ⟨rfl, rfl⟩]
    · have hne : ¬ (l = k ∧ i = Buddy.pairIndex mem (blockAddr mem.memoryStart k j) k) := by
        rintro ⟨rfl, rfl⟩
        exact hsame rfl
      rw [if_neg hsame, if_neg hne, hagree l i hli]

/-- A block goes on its list in both. -/
theorem attach_withBits {page : Page} (hplaced : Placed mem) (h : Represents mem F L)
    (hk : k < maxOrder) (hin : (j + 1) * 2 ^ k ≤ pageTotal mem)
    (hp : p = blockAddr mem.memoryStart k j) :
    incrementFreeCount (setPages (attachToFreeList (withBits mem b) p k) p k page) k =
      withBits (Buddy.setPages (setFreeCount (attachToFreeList mem p k) k (mem.freeCount k + 1)) p k
        page) b := by
  have hpages : setPages (attachToFreeList (withBits mem b) p k) p k page =
      Buddy.setPages (attachToFreeList (withBits mem b) p k) p k page :=
    setPages_eq hplaced.usable_lt hin hp
  have hinc := increment_attached (p := p) h hplaced.usable_lt hk
  rw [hpages]
  show withBits (Buddy.setPages (incrementFreeCount (attachToFreeList mem p k) k) p k page) b = _
  rw [hinc]

/-! ### Allocation -/

theorem touched_congr (hlayout : mem'.toMemoryLayout = mem.toMemoryLayout) :
    Touched mem' k i ↔ Touched mem k i := by
  cases mem
  cases mem'
  obtain rfl := hlayout
  exact Iff.rfl

theorem Agree.congr (h : Agree mem b)
    (hlayout : mem'.toMemoryLayout = mem.toMemoryLayout) (hbits : mem'.bits = mem.bits) :
    Agree mem' b := by
  intro k i hki
  rw [hbits]
  exact h k i ((touched_congr hlayout).mp hki)

/-- The bit and the entries of the block that is returned. -/
theorem finish_agree (page : Page) (hplaced : Placed mem) (hagree : Agree mem b) (hk : k < maxOrder)
    (hin : (j + 1) * 2 ^ k ≤ pageTotal mem) (hp : p = blockAddr mem.memoryStart k j) :
    ∃ b', setPages (xorBuddyMap (withBits mem b) p k).1 p k page =
        withBits (Buddy.setPages (Buddy.xorBuddyMap mem p k).1 p k page) b' ∧
      Agree (Buddy.setPages (Buddy.xorBuddyMap mem p k).1 p k page) b' := by
  subst hp
  obtain ⟨b', hxor, hagree'⟩ := xorBuddyMap_agree hplaced hagree hk hin
  refine ⟨b', ?_, hagree'⟩
  rw [hxor]
  exact setPages_eq hplaced.usable_lt hin rfl

/-- A block leaves its list in both. -/
theorem remove_agree (hplaced : Placed mem) (h : Represents mem F L) (hagree : Agree mem b)
    (hF : F k j) :
    decrementFreeCount (removeFromFreeList (withBits mem b) p k) k =
        withBits (setFreeCount (removeFromFreeList mem p k) k
          ((removeFromFreeList mem p k).freeCount k - 1)) b ∧
      (setFreeCount (removeFromFreeList mem p k) k
        ((removeFromFreeList mem p k).freeCount k - 1)).toMemoryLayout = mem.toMemoryLayout ∧
      Agree (setFreeCount (removeFromFreeList mem p k) k
        ((removeFromFreeList mem p k).freeCount k - 1)) b := by
  obtain ⟨hlayout, hcounts, hbits⟩ := removeFromFreeList_fields mem p k
  refine ⟨?_, hlayout, hagree.congr hlayout hbits⟩
  have hdec := decrement_removed (p := p) h hplaced.usable_lt hF
  rw [removeFromFreeList_withBits, hcounts, ← hdec]
  rfl

/-- **Allocation.**  Both allocators return the same and change the same. -/
theorem allocate_agree (attr : ℕ) (hplaced : Placed mem) (h : Inv mem F L) (hagree : Agree mem b)
    (hdepth : maxOrder < depth + order) :
    ∃ b', allocate depth (withBits mem b) order attr =
        (withBits (Buddy.allocate depth mem order attr).1 b',
          (Buddy.allocate depth mem order attr).2) ∧
      Agree (Buddy.allocate depth mem order attr).1 b' := by
  induction depth generalizing order attr with
  | zero => exact ⟨b, rfl, hagree⟩
  | succ depth ih =>
    by_cases hle : maxOrder ≤ order
    · rw [Buddy.allocate_of_le hle, allocate_of_le hle]
      exact ⟨b, rfl, hagree⟩
    have hlt := Nat.not_le.mp hle
    have hne : ∀ k j, blockAddr mem.memoryStart k j ≠ 0 := fun _ _ => blockAddr_pos h.start_pos
    by_cases hcount : mem.freeCount order = 0
    · have hdepth' : maxOrder < depth + (order + 1) := by omega
      have hcount' : (withBits mem b).freeCount order = 0 := hcount
      obtain ⟨b₁, hcall, hagree₁⟩ := ih 0 hdepth'
      rcases allocate_inv h hdepth' with hnext | ⟨mem', j, F', L', hnext, -, hlayout, h', htaken⟩
      · rw [hnext] at hcall hagree₁
        rw [Buddy.allocate_of_empty hlt hcount hnext, if_pos rfl, allocate_of_null hlt hcount' hcall]
        exact ⟨b₁, rfl, hagree₁⟩
      · -- the block of the next order is split
        rw [hnext] at hcall hagree₁
        have hplaced' := hplaced.congr hlayout
        have hstart : mem'.memoryStart = mem.memoryStart := by rw [hlayout]
        have hin : (2 * j + 1 + 1) * 2 ^ order ≤ pageTotal mem' := by
          have hin := h.block_le htaken.covered
          have hpow : (2 * j + 1 + 1) * 2 ^ order = (j + 1) * 2 ^ (order + 1) := by
            rw [Nat.pow_succ]
            ring
          rw [hpow, pageTotal, hlayout]
          exact hin
        have hinc : incrementFreeCount (attachToFreeList (withBits mem' b₁)
            (blockAddr mem.memoryStart (order + 1) j) order) order =
              withBits (setFreeCount (attachToFreeList mem' (blockAddr mem.memoryStart (order + 1) j)
                order) order (mem'.freeCount order + 1)) b₁ := by
          rw [← increment_attached h'.toRepresents hplaced'.usable_lt hlt]
          rfl
        have hplaced₂ : Placed (setFreeCount (attachToFreeList mem'
            (blockAddr mem.memoryStart (order + 1) j) order) order (mem'.freeCount order + 1)) :=
          hplaced'.congr rfl
        obtain ⟨b', hfinish, hagree'⟩ := finish_agree (p := blockAddr mem.memoryStart order (2 * j + 1))
          ⟨attr, 1⟩ hplaced₂ hagree₁ hlt hin (by rw [← hstart]; rfl)
        rw [Buddy.allocate_of_empty hlt hcount hnext, if_neg (hne _ _),
          allocate_of_empty hlt hcount' hcall (hne _ _), blockAddr_higher, hinc, hfinish]
        exact ⟨b', rfl, hagree'⟩
    · -- the first block of the list
      have hcount' : (withBits mem b).freeCount order ≠ 0 := hcount
      have hlist := h.linked order hlt
      cases hL : L order with
      | nil => exact absurd ((h.count order hlt).trans (by rw [hL, List.length_nil])) hcount
      | cons p rest =>
        have hmem : p ∈ L order := by
          rw [hL]
          exact List.mem_cons_self
        rw [OnFreeList, hL] at hlist
        have hhead : mem.freeList order = p := hlist.head_eq
        have hhead' : (withBits mem b).freeList order = p := hhead
        obtain ⟨j, hj, hp⟩ := (h.mem_iff order hlt p).mp hmem
        have hp0 : p ≠ 0 := hp ▸ hne order j
        obtain ⟨hdec, hlayout, hagree₂⟩ := remove_agree (p := p) hplaced h.toRepresents hagree hj
        have hin : (j + 1) * 2 ^ order ≤ pageTotal mem := h.within order j hj
        rw [Buddy.allocate_of_count hlt hcount (hhead ▸ hp0), hhead,
          allocate_of_count hlt hcount' (hhead' ▸ hp0), hhead', hdec]
        generalize setFreeCount (removeFromFreeList mem p order) order _ = mem₂ at hlayout hagree₂ ⊢
        have hp' : p = blockAddr mem₂.memoryStart order j := by rw [hlayout, hp]
        have hin' : (j + 1) * 2 ^ order ≤ pageTotal mem₂ := by
          rw [pageTotal, hlayout]
          exact hin
        obtain ⟨b', hfinish, hagree'⟩ := finish_agree ⟨attr, 1⟩ (hplaced.congr hlayout) hagree₂ hlt
          hin' hp'
        rw [hfinish]
        exact ⟨b', rfl, hagree'⟩

/-! ### Release -/

/-- **Release.**  Both allocators merge the same blocks. -/
theorem free_agree (hplaced : Placed mem) (h : Inv mem F L) (hagree : Agree mem b)
    (horder : order < maxOrder) (hdepth : maxOrder ≤ depth + order)
    (hfree : ∀ x, x / 2 ^ order = j → ¬ Covers F x) (hin : (j + 1) * 2 ^ order ≤ pageTotal mem)
    (hp : p = blockAddr mem.memoryStart order j) :
    ∃ b', free depth (withBits mem b) p order =
        (withBits (Buddy.free depth mem p order).1 b', (Buddy.free depth mem p order).2) ∧
      Agree (Buddy.free depth mem p order).1 b' := by
  induction depth generalizing mem b F L order j p with
  | zero => exact absurd horder (Nat.not_lt.mpr (by omega))
  | succ depth ih =>
    subst hp
    have hne : blockAddr mem.memoryStart order j ≠ 0 := blockAddr_pos h.start_pos
    have hmanaged := blockAddr_managed hin
    have hpair : Buddy.pairIndex mem (blockAddr mem.memoryStart order j) order = j / 2 :=
      pairIndex_blockAddr
    obtain ⟨b₁, hxor, hagree₁⟩ := xorBuddyMap_agree hplaced hagree horder hin
    have hplaced₁ : Placed (Buddy.xorBuddyMap mem (blockAddr mem.memoryStart order j) order).1 :=
      hplaced.congr rfl
    by_cases hmerge : order + 1 < maxOrder ∧ F order (buddy j)
    · -- the buddy is free
      obtain ⟨hnext, hbuddy⟩ := hmerge
      have hlow : order < maxOrder - 1 := by omega
      have hbit : mem.bits order (Buddy.pairIndex mem (blockAddr mem.memoryStart order j) order) =
          true := by
        rw [hpair]
        exact (h.bit_iff order hlow _).mpr ⟨_, hbuddy, buddy_div j⟩
      have hanswer : (xorBuddyMap (withBits mem b) (blockAddr mem.memoryStart order j) order).2 =
          false := by
        rw [hxor]
        show (!mem.bits order (Buddy.pairIndex mem (blockAddr mem.memoryStart order j) order)) = false
        rw [hbit]
        rfl
      obtain ⟨hmerged, hlayout⟩ := h.merge hbuddy
      obtain ⟨hfree', hin', -⟩ := h.merged hbuddy hfree hin
      have hpage : pageId (withBits (Buddy.xorBuddyMap mem (blockAddr mem.memoryStart order j) order).1
          b₁) (blockAddr mem.memoryStart order j) =
            Buddy.pageId mem (blockAddr mem.memoryStart order j) := by
        show pageId mem (blockAddr mem.memoryStart order j) = _
        exact pageId_blockAddr hplaced.usable_lt hin
      have hxored : Represents (Buddy.xorBuddyMap mem (blockAddr mem.memoryStart order j) order).1 F L :=
        h.toRepresents.xor
      obtain ⟨hdec, -, hagree₂⟩ := remove_agree (p := blockAddr mem.memoryStart order (buddy j))
        hplaced₁ hxored hagree₁ hbuddy
      rw [Buddy.free_of_merge mem hne hmanaged hbit hnext,
        free_of_merge (withBits mem b) hne hmanaged hanswer hnext, hxor]
      simp only [hpage, buddyAddr_eq, lowerAddr_eq, hdec]
      generalize setFreeCount _ order _ = mem₂ at hmerged hlayout hagree₂ ⊢
      have htotal : pageTotal mem₂ = pageTotal mem := by rw [pageTotal, hlayout, pageTotal]
      have hstart : blockAddr mem.memoryStart (order + 1) (j / 2) =
          blockAddr mem₂.memoryStart (order + 1) (j / 2) := by rw [hlayout]
      obtain ⟨b', hcall, hagree'⟩ := ih (hplaced.congr hlayout) hmerged hagree₂ hnext (by omega) hfree'
        (htotal ▸ hin') hstart
      rw [hcall]
      exact ⟨b', rfl, hagree'⟩
    · -- the block is attached
      have hbit : order + 1 < maxOrder →
          mem.bits order (Buddy.pairIndex mem (blockAddr mem.memoryStart order j) order) = false := by
        rw [hpair]
        exact h.bit_false hfree hmerge
      have hanswer : order + 1 < maxOrder →
          (xorBuddyMap (withBits mem b) (blockAddr mem.memoryStart order j) order).2 = true := by
        intro hnext
        rw [hxor]
        show (!mem.bits order (Buddy.pairIndex mem (blockAddr mem.memoryStart order j) order)) = true
        rw [hbit hnext]
        rfl
      rw [Buddy.free_of_attach mem hne hmanaged hbit, free_of_attach (withBits mem b) hne hmanaged
        hanswer, hxor]
      have hxored : Represents (Buddy.xorBuddyMap mem (blockAddr mem.memoryStart order j) order).1 F L :=
        h.toRepresents.xor
      refine ⟨b₁, Prod.ext ?_ rfl, hagree₁⟩
      exact attach_withBits hplaced₁ hxored horder hin rfl

/-! ### Runs -/

variable {s s' : State} {e : Event} {pages : ℕ}

/-- The calls of `Buddy.Step`. -/
inductive Step (s : State) : Event → State → Prop
  | alloc {pages attr : ℕ} (hpos : 1 ≤ pages) (hle : pages ≤ 2 ^ 31) :
      Step s (.alloc pages attr (pageAlloc s.mem pages attr).2)
        { mem := (pageAlloc s.mem pages attr).1
          allocated :=
            if (pageAlloc s.mem pages attr).2 = 0 then s.allocated
            else s.allocated ∪ blockBytes (pageAlloc s.mem pages attr).2 (Nat.clog 2 pages) }
  | free {order j : ℕ} (horder : order < maxOrder)
      (hall : blockBytes (blockAddr s.mem.memoryStart order j) order ⊆ s.allocated) :
      Step s (.free (blockAddr s.mem.memoryStart order j) (2 ^ order))
        { mem := (pageFree s.mem (blockAddr s.mem.memoryStart order j) (2 ^ order)).1
          allocated := s.allocated \ blockBytes (blockAddr s.mem.memoryStart order j) order }
  | write {prev next : ℕ → ℕ} {pages : ℕ → Page}
      (hprev : ∀ p ∉ s.allocated, prev p = s.mem.prev p)
      (hnext : ∀ p ∉ s.allocated, next p = s.mem.next p) :
      Step s .write
        { s with mem := { s.mem with prev := prev, next := next, pages := pages } }

theorem pageAlloc_agree (hplaced : Placed mem) (h : Inv mem F L) (hagree : Agree mem b)
    (pages attr : ℕ) :
    ∃ b', pageAlloc (withBits mem b) pages attr =
        (withBits (Buddy.pageAlloc mem pages attr).1 b', (Buddy.pageAlloc mem pages attr).2) ∧
      Agree (Buddy.pageAlloc mem pages attr).1 b' := by
  have hdepth : maxOrder < maxOrder + 1 + orderOf pages := by omega
  exact allocate_agree attr hplaced h hagree hdepth

/-- The state is one of `Buddy`'s, but for bits that belong to no pair of blocks. -/
def Simulated (mem : MemoryInfo) (s : State) : Prop :=
  ∃ m b F L, s.mem = withBits m b ∧ Agree m b ∧ Held ⟨m, s.allocated⟩ F L ∧
    m.toMemoryLayout = (initMemory mem).toMemoryLayout

/-- **One step.**  As long as no two pairs share a bit, `Buddy`'s allocator takes the same step. -/
theorem Simulated.step (hplaced : Placed (initMemory mem)) (h : Simulated mem s)
    (hstep : Step s e s') : Simulated mem s' := by
  obtain ⟨m, b, F, L, hs, hagree, hheld, hlayout⟩ := h
  obtain ⟨sm, allocated⟩ := s
  obtain rfl : sm = withBits m b := hs
  have hplaced' := hplaced.congr hlayout
  cases hstep with
  | @alloc pages attr hpos hle =>
    obtain ⟨b', hcall, hagree'⟩ := pageAlloc_agree hplaced' hheld.inv hagree pages attr
    have hsame : Buddy.Step ⟨m, allocated⟩ (.alloc pages attr _) _ := Buddy.Step.alloc hpos hle
    obtain ⟨⟨F', L', hheld'⟩, hlayout'⟩ := hheld.step hsame
    rw [hcall]
    exact ⟨_, b', F', L', rfl, hagree', hheld', hlayout'.trans hlayout⟩
  | @free order j horder hall =>
    have hall' : blockBytes (blockAddr m.memoryStart order j) order ⊆ allocated := hall
    have hpow : orderOf (2 ^ order) = order := orderOf_pow horder
    have hdepth : maxOrder ≤ maxOrder + order := Nat.le_add_right maxOrder order
    obtain ⟨b', hcall, hagree'⟩ := free_agree hplaced' hheld.inv hagree horder hdepth
      (fun x hx => hheld.not_covers hall' hx) (hheld.block_le hall') rfl
    have hcall' : pageFree (withBits m b) (blockAddr m.memoryStart order j) (2 ^ order) =
        (withBits (Buddy.pageFree m (blockAddr m.memoryStart order j) (2 ^ order)).1 b',
          (Buddy.pageFree m (blockAddr m.memoryStart order j) (2 ^ order)).2) := by
      rw [pageFree, freePagesOfPower2, Buddy.pageFree, Buddy.freePagesOfPower2, hpow]
      exact hcall
    have hsame : Buddy.Step ⟨m, allocated⟩ (.free _ (2 ^ order)) _ := Buddy.Step.free horder hall'
    obtain ⟨⟨F', L', hheld'⟩, hlayout'⟩ := hheld.step hsame
    refine ⟨_, b', F', L', ?_, ?_, hheld', hlayout'.trans hlayout⟩
    · show (pageFree (withBits m b) (blockAddr m.memoryStart order j) (2 ^ order)).1 = _
      rw [hcall']
    · rw [Buddy.pageFree, Buddy.freePagesOfPower2, hpow]
      exact hagree'
  | @write prev next pages hprev hnext =>
    have hsame : Buddy.Step ⟨m, allocated⟩ .write
        ⟨{ m with prev := prev, next := next, pages := pages }, allocated⟩ :=
      Buddy.Step.write hprev hnext
    obtain ⟨⟨F', L', hheld'⟩, hlayout'⟩ := hheld.step hsame
    exact ⟨{ m with prev := prev, next := next, pages := pages }, b, F', L', rfl, hagree, hheld',
      hlayout'.trans hlayout⟩

theorem initialState_simulated (hstart : 0 < mem.memoryStart)
    (haligned : mem.memoryStart % 2 ^ 22 = 0) : Simulated mem (initialState mem) := by
  obtain ⟨L, h⟩ := initialState_held hstart haligned
  refine ⟨initMemory mem, (initMemory mem).bits, _, L, ?_, fun _ _ _ => rfl, h, rfl⟩
  exact (withBits_self (initMemory mem)).symm

/-- Memories with the right sizes. -/
theorem placed_of_fits (hlt : mem.memoryStart < 2 ^ 32) (hend : mem.memoryEnd < 2 ^ 32)
    (haligned : mem.memoryStart % 2 ^ 22 = 0) (hfits : LayoutFits mem.memoryStart mem.memoryEnd) :
    Placed (initMemory mem) := by
  have hplaced : Placed (initTables mem) := by
    refine ⟨initTables_usableEnd_lt mem, ?_⟩
    by_cases hblock : mem.memoryStart < (initTables mem).usableEnd
    · exact (layoutSound_of_fits hlt hend haligned hblock hfits).distinct
    · rintro k i l j ⟨-, id, hid, -⟩
      exact absurd (Nat.lt_of_le_of_lt (Nat.le_add_right _ _) hid) hblock
  exact hplaced.congr (initMemory_layout mem)

/-! ### When `page_alloc` fails -/

/-- A call of `page_alloc` for blocks of an order, from `mem` to `mem'`: it returns null exactly when no
list has a block that is great enough, and then nothing has changed; else the block comes out of the
first block of the least list that has one, and the lists below it get one part each. -/
structure AllocExact (mem mem' : MemoryInfo) (order block : ℕ) : Prop where
  null_iff : block = 0 ↔ maxOrder ≤ order ∨ ∀ l, order ≤ l → l < maxOrder → mem.freeList l = 0
  unchanged : block = 0 → mem' = mem
  split : block ≠ 0 → ∃ L L' m q,
    (∀ l < maxOrder, OnFreeList mem l (L l) ∧ mem.freeCount l = (L l).length) ∧
    (∀ l < maxOrder, OnFreeList mem' l (L' l) ∧ mem'.freeCount l = (L' l).length) ∧
    SplitOff L L' order m q block

/-- Free lists that hold blocks of the memory are enough for that. -/
theorem allocExact_of_represents (h : Represents mem F L) (husable : mem.usableEnd < 2 ^ 32) (attr : ℕ)
    (hpos : 1 ≤ pages) (hle : pages ≤ 2 ^ 31) :
    AllocExact mem (pageAlloc mem pages attr).1 (Nat.clog 2 pages) (pageAlloc mem pages attr).2 := by
  have hdepth : maxOrder < maxOrder + 1 + Nat.clog 2 pages := by omega
  rw [pageAlloc, allocatePagesOfPower2, orderOf_eq_clog hpos hle]
  rcases allocate_represents attr h husable hdepth with
    ⟨hfail, hall⟩ | ⟨mem', j, F', L', k, q, htake, -, h', -, hoff, -⟩
  · rw [hfail]
    have hlists : ∀ l, Nat.clog 2 pages ≤ l → l < maxOrder → mem.freeList l = 0 := by
      intro l hl hlm
      have hlist := h.linked l hlm
      rw [OnFreeList, hall l hl hlm] at hlist
      exact hlist
    constructor
    case null_iff => exact iff_of_true rfl (Or.inr hlists)
    case unchanged => exact fun _ => rfl
    case split => exact fun hne => absurd rfl hne
  · rw [htake]
    have hne : blockAddr mem.memoryStart (Nat.clog 2 pages) j ≠ 0 := blockAddr_pos h.start_pos
    constructor
    case null_iff =>
      refine iff_of_false hne ?_
      rintro (hge | hnone)
      · exact absurd hoff.lt (Nat.not_lt.mpr (Nat.le_trans hge hoff.order_le))
      · have hlist := h.linked k hoff.lt
        rw [OnFreeList, hoff.taken] at hlist
        have hhead : mem.freeList k = q := hlist.head_eq
        exact hlist.ne_null q List.mem_cons_self (hhead.symm.trans (hnone k hoff.order_le hoff.lt))
    case unchanged => exact fun hzero => absurd hzero hne
    case split =>
      intro _
      exact ⟨L, L', k, q, fun l hl => ⟨h.linked l hl, h.count l hl⟩,
        fun l hl => ⟨h'.linked l hl, h'.count l hl⟩, hoff⟩

/-- **`page_alloc` fails only when it must.**  In a memory whose bitmaps do not overlap, in every state
of every run that releases no block greater than 4 MB, for every number of pages. -/
theorem pageAlloc_exact_of_fits {tr : List (Transition State Event)} (hstart : 0 < mem.memoryStart)
    (haligned : mem.memoryStart % 2 ^ 22 = 0) (hlt : mem.memoryStart < 2 ^ 32)
    (hend : mem.memoryEnd < 2 ^ 32) (hfits : LayoutFits mem.memoryStart mem.memoryEnd)
    (hrun : Run (AnyCall Step) (initialState mem) tr s) (hsmall : ∀ x ∈ tr, x.label.Small) (attr : ℕ)
    (hpos : 1 ≤ pages) (hle : pages ≤ 2 ^ 31) :
    AllocExact s.mem (pageAlloc s.mem pages attr).1 (Nat.clog 2 pages)
      (pageAlloc s.mem pages attr).2 := by
  have hplaced := placed_of_fits hlt hend haligned hfits
  have hsim : Simulated mem s := (run_of_small hrun hsmall).invariant (initialState_simulated hstart haligned)
    fun _ _ _ h hstep => h.step hplaced hstep
  obtain ⟨m, b, F, L, hs, -, hheld, hlayout⟩ := hsim
  have hrep : Represents (withBits m b) F L :=
    hheld.inv.toRepresents.congr rfl rfl rfl (fun _ _ _ _ => rfl) fun _ _ _ _ => rfl
  rw [hs]
  exact allocExact_of_represents hrep (hplaced.congr hlayout).usable_lt attr hpos hle

theorem step_alloc {pages attr block : ℕ} (hblock : (pageAlloc s.mem pages attr).2 = block)
    (hne : block ≠ 0) (hpos : 1 ≤ pages) (hle : pages ≤ 2 ^ 31) :
    Step s (.alloc pages attr block)
      ⟨(pageAlloc s.mem pages attr).1, s.allocated ∪ blockBytes block (Nat.clog 2 pages)⟩ := by
  have hstep : Step s (.alloc pages attr _) _ := Step.alloc hpos hle
  rw [hblock, if_neg hne] at hstep
  exact hstep

/-- 512 pages of a memory of eight blocks, where three pages are allocated. -/
theorem pageAlloc_exact_of_fits_demo : ∃ tr s,
    Run (AnyCall Step) (initialState (demoMemory 0x3100000)) tr s ∧ tr.length = 1 ∧
      AllocExact s.mem (pageAlloc s.mem 512 0x24).1 (Nat.clog 2 512) (pageAlloc s.mem 512 0x24).2 := by
  have hblock : (pageAlloc (initialState (demoMemory 0x3100000)).mem 3 0x24).2 = blockAddr 0x1000000 2 2047 := by
    decide +kernel
  have hstep := step_alloc hblock (by decide) (by decide) (by decide)
  have hrun : Run (AnyCall Step) _ _ _ := Run.start.extend (AnyCall.within hstep)
  exact ⟨_, _, hrun, rfl, pageAlloc_exact_of_fits (show 0 < (demoMemory 0x3100000).memoryStart by decide)
    (by decide) (by decide) (by decide) (by decide +kernel) hrun (List.forall_mem_singleton.mpr trivial) 0x24
    (by decide) (by decide)⟩

/-- A memory of one block of 4 MB, of which both halves are allocated. -/
def overlapFull : MemoryInfo :=
  (pageAlloc (pageAlloc (initMemory (demoMemory 0x1410000)) 512 0x24).1 512 0x24).1

/-- The higher half is released. -/
def overlapFreed : MemoryInfo :=
  (pageFree overlapFull (blockAddr overlapFull.memoryStart 9 1) (2 ^ 9)).1

/-- **`page_alloc` fails with memory left.**  Four orders share the first bit of their bitmaps.  After
both halves of the memory are allocated and one is released, the allocator merges it with the other
one, the counter of the order wraps round, and the next call for 512 pages gets null although the
block of 4 MB is on its list. -/
theorem pageAlloc_fails_with_memory : ∃ tr s,
    Run (AnyCall Step) (initialState (demoMemory 0x1410000)) tr s ∧ tr.length = 3 ∧
      s.mem.freeList 10 ≠ 0 ∧ (pageAlloc s.mem 512 0x24).2 = 0 ∧
      ¬ AllocExact s.mem (pageAlloc s.mem 512 0x24).1 (Nat.clog 2 512) (pageAlloc s.mem 512 0x24).2 := by
  have hclog : Nat.clog 2 512 = 9 := by decide
  have hhigher : (pageAlloc (initialState (demoMemory 0x1410000)).mem 512 0x24).2 =
      blockAddr 0x1000000 9 1 := by decide +kernel
  have hlower : (pageAlloc (pageAlloc (initMemory (demoMemory 0x1410000)) 512 0x24).1 512 0x24).2 =
      blockAddr 0x1000000 9 0 := by decide +kernel
  have hstart : overlapFull.memoryStart = 0x1000000 := by decide +kernel
  have r₁ := Run.start.extend (AnyCall.within (step_alloc hhigher (by decide) (by decide) (by decide)))
  have r₂ := r₁.extend (AnyCall.within (step_alloc hlower (by decide) (by decide) (by decide)))
  have hall : blockBytes (blockAddr overlapFull.memoryStart 9 1) 9 ⊆
      (∅ ∪ blockBytes (blockAddr 0x1000000 9 1) (Nat.clog 2 512)) ∪
        blockBytes (blockAddr 0x1000000 9 0) (Nat.clog 2 512) := by
    rw [hstart, hclog, Set.empty_union]
    exact Set.subset_union_left
  have hstep : Step ⟨overlapFull, _⟩ (.free _ (2 ^ 9)) ⟨overlapFreed, _⟩ := Step.free (by decide) hall
  have r₃ := r₂.extend (AnyCall.within hstep)
  have hlist : overlapFreed.freeList 10 ≠ 0 := by decide +kernel
  have hnull : (pageAlloc overlapFreed 512 0x24).2 = 0 := by decide +kernel
  generalize overlapFreed = m at r₃ hlist hnull
  refine ⟨_, _, r₃, rfl, hlist, hnull, fun hexact => ?_⟩
  rcases hexact.null_iff.mp hnull with hge | hnone
  · rw [hclog] at hge
    exact absurd hge (by decide)
  · exact hlist (hnone 10 (by rw [hclog]; decide) (by decide))

end Bitmaps

end Buddy

end OmochaOS
