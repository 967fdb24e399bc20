import OmochaOS.Memory.BuddyBitmaps

/-!
# The records of the pages (`modules/memory/buddy.c`, `paging.h`)

The entry of a page in `pages_info` is to say whether the page is free, and whose it is when it is not:
`RecordsAgree`.  `allocate_pages_of_power_2` fills in the entries of whatever it returns, also of the
greater block that it is about to split, and the half that it puts on a free list keeps them.

* `Whole` — what holds as long as only blocks of the greatest order are handed out;
* `records_agree_iff` — in a run the entries always agree exactly when no block is ever split;
* `split_leaves_record` — the first call for one page leaves a free page with a reference.
-/

namespace OmochaOS

open DoublyLinkedList DyadicBlocks TransitionRun

namespace Buddy

namespace Records

open Bitmaps

/-- A block that `page_alloc` returned, for how many pages and with what attributes. -/
structure Lease where
  addr : ℕ
  pages : ℕ
  attr : ℕ

/-- The order of its block. -/
def Lease.order (l : Lease) : ℕ := Nat.clog 2 l.pages

/-- The allocator, and the blocks that were returned and not released since. -/
structure RecordState where
  mem : MemoryInfo
  live : Set Lease

inductive Call
  /-- `page_alloc` -/
  | alloc (pages attr : ℕ)
  /-- `page_free` of a block that was returned -/
  | free (lease : Lease)
  /-- allocated pages are written -/
  | write

inductive Step (s : RecordState) : Call → RecordState → Prop
  | alloc {pages attr : ℕ} (hpos : 1 ≤ pages) (hle : pages ≤ 2 ^ 31) :
      Step s (.alloc pages attr)
        { mem := (Bitmaps.pageAlloc s.mem pages attr).1
          live :=
            if (Bitmaps.pageAlloc s.mem pages attr).2 = 0 then s.live
            else s.live ∪ {⟨(Bitmaps.pageAlloc s.mem pages attr).2, pages, attr⟩} }
  | free {l : Lease} (hl : l ∈ s.live) :
      Step s (.free l)
        { mem := (Bitmaps.pageFree s.mem l.addr l.pages).1
          live := s.live \ {l} }
  | write {prev next : ℕ → ℕ}
      (hprev : ∀ p, (∀ l ∈ s.live, p ∉ blockBytes l.addr l.order) → prev p = s.mem.prev p)
      (hnext : ∀ p, (∀ l ∈ s.live, p ∉ blockBytes l.addr l.order) → next p = s.mem.next p) :
      Step s .write { s with mem := { s.mem with prev := prev, next := next } }

/-- The byte at `a` is in a block on some free list. -/
def InFreeBlock (mem : MemoryInfo) (a : ℕ) : Prop :=
  ∃ k < maxOrder, ∃ l, OnFreeList mem k l ∧ ∃ p ∈ l, a ∈ blockBytes p k

/-- The records say which pages are free, and what the others were allocated for. -/
structure RecordsAgree (s : RecordState) : Prop where
  free_iff : ∀ i, s.mem.memoryStart + i * pgSize < s.mem.usableEnd →
    (InFreeBlock s.mem (s.mem.memoryStart + i * pgSize) ↔
      s.mem.pages i = ⟨pageTypeFree ||| pageTypeUsable, 0⟩)
  live : ∀ l ∈ s.live, ∀ i, s.mem.memoryStart + i * pgSize ∈ blockBytes l.addr l.order →
    s.mem.pages i = ⟨l.attr, 1⟩

/-- The call has to split a block: the list of the order has none, and a list above has one. -/
def Splits (s : RecordState) (c : Call) : Prop :=
  ∃ pages attr, c = .alloc pages attr ∧ s.mem.freeList (Nat.clog 2 pages) = 0 ∧
    ∃ k, Nat.clog 2 pages < k ∧ k < maxOrder ∧ s.mem.freeList k ≠ 0

variable {mem mem' : MemoryInfo} {F F' : ℕ → ℕ → Prop} {L L' : ℕ → List ℕ} {s s' : RecordState}
  {c : Call} {l : Lease} {k j i p attr pages : ℕ}

/-! ### Free blocks -/

/-- A page is in a block on a free list when it is covered. -/
theorem inFreeBlock_iff (h : Represents mem F L) :
    InFreeBlock mem (mem.memoryStart + i * pgSize) ↔ Covers F i := by
  constructor
  · rintro ⟨k, hk, l, hl, p, hp, ha⟩
    obtain rfl := hl.unique (h.linked k hk)
    obtain ⟨j, hj, rfl⟩ := (h.mem_iff k hk p).mp hp
    obtain ⟨-, hdiv⟩ := mem_blockBytes.mp ha
    rw [Nat.add_sub_cancel_left, Nat.mul_div_cancel i (by decide)] at hdiv
    exact covers_of_mem hj hdiv
  · rintro ⟨k, hk⟩
    have hlt := h.order_lt k _ hk
    exact ⟨k, hlt, L k, h.linked k hlt, _, (h.mem_blockAddr hlt).mpr hk, mem_blockBytes_page rfl⟩

/-- The head of a list tells whether it is empty. -/
theorem freeList_eq_zero_iff (h : Represents mem F L) (hk : k < maxOrder) :
    mem.freeList k = 0 ↔ L k = [] := by
  have hlist := h.linked k hk
  rw [OnFreeList] at hlist
  constructor
  · intro hzero
    rw [hzero] at hlist
    exact hlist.eq_nil_of_null
  · intro hnil
    rw [hnil] at hlist
    exact hlist

/-! ### Whole blocks -/

/-- All free and all returned blocks have the greatest order, they are all there is, and the records
agree. -/
structure Whole (mem₀ : MemoryInfo) (s : RecordState) (F : ℕ → ℕ → Prop) (L : ℕ → List ℕ) : Prop where
  layout : s.mem.toMemoryLayout = mem₀.toMemoryLayout
  lists : Represents s.mem F L
  top : ∀ k j, F k j → k = maxOrder - 1
  order : ∀ l ∈ s.live, 1 ≤ l.pages ∧ l.pages ≤ 2 ^ 31 ∧ l.order = maxOrder - 1
  leased : ∀ l ∈ s.live, ∃ j, l.addr = blockAddr s.mem.memoryStart (maxOrder - 1) j ∧
    ¬ F (maxOrder - 1) j ∧ (j + 1) * 2 ^ (maxOrder - 1) ≤ pageTotal s.mem
  unique : ∀ l ∈ s.live, ∀ l' ∈ s.live, l.addr = l'.addr → l = l'
  all : ∀ j, (j + 1) * 2 ^ (maxOrder - 1) ≤ pageTotal s.mem → F (maxOrder - 1) j ∨
    ∃ l ∈ s.live, l.addr = blockAddr s.mem.memoryStart (maxOrder - 1) j
  free_record : ∀ x, F (maxOrder - 1) (x / 2 ^ (maxOrder - 1)) →
    s.mem.pages x = ⟨pageTypeFree ||| pageTypeUsable, 0⟩
  live_record : ∀ l ∈ s.live, ∀ x,
    l.addr = blockAddr s.mem.memoryStart (maxOrder - 1) (x / 2 ^ (maxOrder - 1)) →
      s.mem.pages x = ⟨l.attr, 1⟩

/-- The memory is a number of blocks of the greatest order, below 4 GB. -/
structure InBlocks (mem : MemoryInfo) : Prop where
  usable_lt : mem.usableEnd < 2 ^ 32
  usable_iff : ∀ j, blockAddr mem.memoryStart (maxOrder - 1) j < mem.usableEnd ↔
    (j + 1) * 2 ^ (maxOrder - 1) ≤ pageTotal mem

theorem InBlocks.congr (h : InBlocks mem) (hlayout : mem'.toMemoryLayout = mem.toMemoryLayout) :
    InBlocks mem' := by
  cases mem
  cases mem'
  obtain rfl := hlayout
  exact ⟨h.usable_lt, h.usable_iff⟩

/-- As long as no block is split the records agree. -/
theorem Whole.agree {mem₀ : MemoryInfo} (hin : InBlocks mem₀) (h : Whole mem₀ s F L) :
    RecordsAgree s := by
  have hin' := hin.congr h.layout
  constructor
  case free_iff =>
    intro i hi
    rw [inFreeBlock_iff h.lists]
    constructor
    · rintro ⟨k, hk⟩
      obtain rfl := h.top k _ hk
      exact h.free_record i hk
    · intro hrecord
      have hblock : blockAddr s.mem.memoryStart (maxOrder - 1) (i / 2 ^ (maxOrder - 1)) <
          s.mem.usableEnd := by
        refine Nat.lt_of_le_of_lt (Nat.add_le_add_left ?_ _) hi
        exact Nat.mul_le_mul_right _ (Nat.div_mul_le_self i _)
      rcases h.all _ ((hin'.usable_iff _).mp hblock) with hfree | ⟨l, hl, haddr⟩
      · exact ⟨_, hfree⟩
      · -- an allocated page has a reference
        rw [h.live_record l hl i haddr] at hrecord
        have hone : (1 : ℤ) = 0 := congrArg Page.reference hrecord
        exact absurd hone (by decide)
  case live =>
    intro l hl i hi
    obtain ⟨j, haddr, -, -⟩ := h.leased l hl
    rw [haddr, (h.order l hl).2.2] at hi
    obtain ⟨-, hdiv⟩ := mem_blockBytes.mp hi
    rw [Nat.add_sub_cancel_left, Nat.mul_div_cancel i (by decide)] at hdiv
    apply h.live_record l hl
    rw [hdiv]
    exact haddr

/-! ### The calls -/

/-- A whole block is handed out. -/
theorem Whole.alloc {mem₀ : MemoryInfo} {m q : ℕ} (h : Whole mem₀ s F L) (hpos : 1 ≤ pages)
    (hle : pages ≤ 2 ^ 31) (hlayout : mem'.toMemoryLayout = s.mem.toMemoryLayout)
    (hlists : Represents mem' F' L')
    (hoff : SplitOff L L' (Nat.clog 2 pages) m q
      (blockAddr s.mem.memoryStart (Nat.clog 2 pages) j))
    (hrec : Recorded s.mem mem' F F' L' (Nat.clog 2 pages) attr m j) (hm : m = Nat.clog 2 pages)
    (htaken : Taken F F' (Nat.clog 2 pages) j) :
    Whole mem₀ ⟨mem', s.live ∪ {⟨blockAddr s.mem.memoryStart (Nat.clog 2 pages) j, pages, attr⟩}⟩
      F' L' := by
  have hstart : mem'.memoryStart = s.mem.memoryStart := by rw [hlayout]
  have htotal : pageTotal mem' = pageTotal s.mem := by rw [pageTotal, hlayout, pageTotal]
  -- only the list of the greatest order has blocks
  have horder : Nat.clog 2 pages = maxOrder - 1 := by
    have hmem : q ∈ L m := by
      rw [hoff.taken]
      exact List.mem_cons_self
    obtain ⟨i, hi, -⟩ := (h.lists.mem_iff m hoff.lt q).mp hmem
    rw [← hm]
    exact h.top m i hi
  obtain ⟨hF', hpages⟩ := hrec.whole hm
  have hown := hrec.own
  rw [horder] at hF' hpages hown htaken ⊢
  subst hF'
  have hj : F (maxOrder - 1) j := by
    obtain ⟨k, hk⟩ := htaken.covered _ (mul_pow_div (maxOrder - 1) j)
    obtain rfl := h.top k _ hk
    rw [mul_pow_div] at hk
    exact hk
  have hother : ∀ l ∈ s.live, ∀ i, l.addr = blockAddr s.mem.memoryStart (maxOrder - 1) i → i ≠ j := by
    rintro l hl i haddr rfl
    obtain ⟨i', haddr', hnot, -⟩ := h.leased l hl
    rw [haddr, blockAddr_order_inj] at haddr'
    exact hnot (haddr' ▸ hj)
  constructor
  case layout => exact hlayout.trans h.layout
  case lists => exact hlists
  case top => exact fun k i hk => h.top k i hk.1
  case order =>
    rintro l (hl | rfl)
    · exact h.order l hl
    · exact ⟨hpos, hle, horder⟩
  case leased =>
    rw [hstart, htotal]
    rintro l (hl | rfl)
    · obtain ⟨i, haddr, hnot, hin⟩ := h.leased l hl
      exact ⟨i, haddr, fun hi => hnot hi.1, hin⟩
    · exact ⟨j, rfl, fun hi => hi.2 ⟨rfl, rfl⟩, h.lists.within _ j hj⟩
  case unique =>
    rintro l (hl | rfl) l' (hl' | rfl) haddr
    · exact h.unique l hl l' hl' haddr
    · exact absurd rfl (hother l hl j haddr)
    · exact absurd rfl (hother l' hl' j haddr.symm)
    · rfl
  case all =>
    rw [hstart, htotal]
    intro i hi
    rcases h.all i hi with hfree | ⟨l, hl, haddr⟩
    · by_cases hij : i = j
      · subst hij
        exact Or.inr ⟨_, Or.inr rfl, rfl⟩
      · exact Or.inl ⟨hfree, fun he => hij he.2⟩
    · exact Or.inr ⟨l, Or.inl hl, haddr⟩
  case free_record =>
    rintro x ⟨hx, hne⟩
    show mem'.pages x = _
    rw [hpages x fun he => hne ⟨rfl, he⟩]
    exact h.free_record x hx
  case live_record =>
    rw [hstart]
    rintro l (hl | rfl) x haddr
    · show mem'.pages x = _
      rw [hpages x (hother l hl _ haddr)]
      exact h.live_record l hl x haddr
    · exact hown x (blockAddr_order_inj.mp haddr).symm

/-- The half that a split leaves on a list contradicts its records. -/
theorem stale_disagrees {m : ℕ} {live : Set Lease}
    (hlayout : mem'.toMemoryLayout = s.mem.toMemoryLayout) (hlists : Represents mem' F' L') {order : ℕ}
    (hlt : order < maxOrder) (hrec : Recorded s.mem mem' F F' L' order attr m j) (hm : order < m) :
    ¬ RecordsAgree ⟨mem', live⟩ := by
  intro hagree
  obtain ⟨i, hlist, hrecord⟩ := hrec.stale hm
  have hstart : mem'.memoryStart = s.mem.memoryStart := by rw [hlayout]
  have hi : F' order i := by
    rw [← hlists.mem_blockAddr hlt, hstart, hlist]
    exact List.mem_singleton.mpr rfl
  have hcov : Covers F' (i * 2 ^ order) := covers_of_mem hi (mul_pow_div order i)
  have hlow : mem'.memoryStart ≤ mem'.memoryStart + i * 2 ^ order * pgSize := Nat.le_add_right _ _
  have hend : mem'.memoryStart + i * 2 ^ order * pgSize < mem'.usableEnd := by
    apply lt_usableEnd hlow
    rw [Nat.add_sub_cancel_left, Nat.mul_div_cancel _ (by decide)]
    exact hlists.covers_lt hcov
  have hfree := (hagree.free_iff _ hend).mp ((inFreeBlock_iff hlists).mpr hcov)
  have hsame : (⟨0, 1⟩ : Page) = ⟨pageTypeFree ||| pageTypeUsable, 0⟩ := hrecord.symm.trans hfree
  exact absurd (congrArg Page.reference hsame) (by decide)

/-- The release of a block of the greatest order. -/
theorem pageFree_top (h : Represents mem F L) (husable : mem.usableEnd < 2 ^ 32) (hpos : 1 ≤ pages)
    (hle : pages ≤ 2 ^ 31) (horder : Nat.clog 2 pages = k) (hk : k < maxOrder) (htop : maxOrder ≤ k + 1)
    (hfree : ∀ x, x / 2 ^ k = j → ¬ Covers F x) (hin : (j + 1) * 2 ^ k ≤ pageTotal mem)
    (hp : p = blockAddr mem.memoryStart k j) :
    ∃ mem' L', Bitmaps.pageFree mem p pages = (mem', 0) ∧
      mem'.toMemoryLayout = mem.toMemoryLayout ∧ Represents mem' (put F k j) L' ∧
      ∀ x, mem'.pages x =
        if x / 2 ^ k = j then ⟨pageTypeUsable ||| pageTypeFree, 0⟩ else mem.pages x := by
  have hne : p ≠ 0 := hp ▸ blockAddr_pos h.start_pos
  have hmanaged : mem.memoryStart ≤ p ∧ p ≤ mem.usableEnd := hp ▸ blockAddr_managed hin
  have hlast : k + 1 < maxOrder → (Bitmaps.xorBuddyMap mem p k).2 = true := fun hlt =>
    absurd hlt (Nat.not_lt.mpr htop)
  have hxor : Represents (Bitmaps.xorBuddyMap mem p k).1 F L :=
    h.congr rfl rfl rfl (fun _ _ _ _ => rfl) fun _ _ _ _ => rfl
  have hattach := represents_attach hxor husable hk hfree hin hp
  have hcall : Bitmaps.pageFree mem p pages = Bitmaps.free maxOrder mem p k := by
    rw [Bitmaps.pageFree, Bitmaps.freePagesOfPower2, orderOf_eq_clog hpos hle, horder]
  refine ⟨_, Function.update L k (p :: L k),
    hcall.trans (Bitmaps.free_of_attach mem hne hmanaged hlast), rfl, ?_, fun x => ?_⟩
  · exact hattach.congr rfl rfl rfl (fun _ _ _ _ => rfl) fun _ _ _ _ => rfl
  · exact Bitmaps.setPages_pages husable hin hp

/-- A whole block is released. -/
theorem Whole.free {mem₀ : MemoryInfo} (hin : InBlocks mem₀) (h : Whole mem₀ s F L) (hl : l ∈ s.live) :
    ∃ F' L', Whole mem₀ ⟨(Bitmaps.pageFree s.mem l.addr l.pages).1, s.live \ {l}⟩ F' L' := by
  obtain ⟨hpos, hle, horder⟩ := h.order l hl
  obtain ⟨j, haddr, hnot, hj⟩ := h.leased l hl
  have hfree : ∀ x, x / 2 ^ (maxOrder - 1) = j → ¬ Covers F x := by
    rintro x rfl ⟨k, hk⟩
    obtain rfl := h.top k _ hk
    exact hnot hk
  obtain ⟨mem', L', hcall, hlayout, hlists, hpages⟩ :=
    pageFree_top h.lists (hin.congr h.layout).usable_lt hpos hle horder (by decide) (by decide) hfree
      hj haddr
  have hstart : mem'.memoryStart = s.mem.memoryStart := by rw [hlayout]
  have htotal : pageTotal mem' = pageTotal s.mem := by rw [pageTotal, hlayout, pageTotal]
  have hother : ∀ l' ∈ s.live, l' ≠ l → ∀ i,
      l'.addr = blockAddr s.mem.memoryStart (maxOrder - 1) i → i ≠ j := by
    rintro l' hl' hne i haddr' rfl
    exact hne (h.unique l' hl' l hl (haddr'.trans haddr.symm))
  rw [hcall]
  refine ⟨put F (maxOrder - 1) j, L', ?_⟩
  constructor
  case layout => exact hlayout.trans h.layout
  case lists => exact hlists
  case top =>
    rintro k i (hk | ⟨rfl, -⟩)
    · exact h.top k i hk
    · rfl
  case order => exact fun l' hl' => h.order l' hl'.1
  case leased =>
    rw [hstart, htotal]
    intro l' hl'
    obtain ⟨i, haddr', hnot', hi⟩ := h.leased l' hl'.1
    refine ⟨i, haddr', ?_, hi⟩
    rintro (hF | ⟨-, he⟩)
    · exact hnot' hF
    · exact hother l' hl'.1 hl'.2 i haddr' he
  case unique => exact fun l₁ h₁ l₂ h₂ => h.unique l₁ h₁.1 l₂ h₂.1
  case all =>
    rw [hstart, htotal]
    intro i hi
    by_cases hij : i = j
    · exact Or.inl (Or.inr ⟨rfl, hij⟩)
    · rcases h.all i hi with hF | ⟨l', hl', haddr'⟩
      · exact Or.inl (Or.inl hF)
      · refine Or.inr ⟨l', ⟨hl', ?_⟩, haddr'⟩
        rintro rfl
        exact hij (blockAddr_order_inj.mp (haddr'.symm.trans haddr))
  case free_record =>
    intro x hx
    show mem'.pages x = _
    rw [hpages]
    by_cases hxj : x / 2 ^ (maxOrder - 1) = j
    · rw [if_pos hxj]
      decide
    · rw [if_neg hxj]
      exact h.free_record x (hx.resolve_right fun he => hxj he.2)
  case live_record =>
    rw [hstart]
    intro l' hl' x haddr'
    show mem'.pages x = _
    rw [hpages, if_neg (hother l' hl'.1 hl'.2 _ haddr')]
    exact h.live_record l' hl'.1 x haddr'

/-- Writes to allocated pages leave the lists and the records alone. -/
theorem Whole.write {mem₀ : MemoryInfo} {prev next : ℕ → ℕ} (h : Whole mem₀ s F L)
    (hprev : ∀ p, (∀ l ∈ s.live, p ∉ blockBytes l.addr l.order) → prev p = s.mem.prev p)
    (hnext : ∀ p, (∀ l ∈ s.live, p ∉ blockBytes l.addr l.order) → next p = s.mem.next p) :
    Whole mem₀ { s with mem := { s.mem with prev := prev, next := next } } F L := by
  have hapart : ∀ k < maxOrder, ∀ p ∈ L k, ∀ l ∈ s.live, p ∉ blockBytes l.addr l.order := by
    intro k hk p hp l hl hmem
    obtain ⟨i, hi, rfl⟩ := (h.lists.mem_iff k hk p).mp hp
    obtain rfl := h.top k i hi
    obtain ⟨j, haddr, hnot, -⟩ := h.leased l hl
    rw [haddr, (h.order l hl).2.2] at hmem
    obtain ⟨-, hdiv⟩ := mem_blockBytes.mp hmem
    rw [blockAddr, Nat.add_sub_cancel_left, Nat.mul_div_cancel _ (by decide), mul_pow_div] at hdiv
    exact hnot (hdiv ▸ hi)
  exact
    { layout := h.layout
      lists := h.lists.congr rfl rfl rfl (fun k hk p hp => hprev p (hapart k hk p hp))
        fun k hk p hp => hnext p (hapart k hk p hp)
      top := h.top
      order := h.order
      leased := h.leased
      unique := h.unique
      all := h.all
      free_record := h.free_record
      live_record := h.live_record }

/-- **One call.**  While all blocks are whole, a call keeps the records right exactly when it does not
split a block, and then the blocks stay whole. -/
theorem Whole.step {mem₀ : MemoryInfo} (hin : InBlocks mem₀) (h : Whole mem₀ s F L)
    (hstep : Step s c s') :
    ((∃ F' L', Whole mem₀ s' F' L') ∧ ¬ Splits s c) ∨ (¬ RecordsAgree s' ∧ Splits s c) := by
  cases hstep with
  | @alloc pages attr hpos hle =>
    have hdepth : maxOrder < maxOrder + 1 + Nat.clog 2 pages := by omega
    have hcall : Bitmaps.pageAlloc s.mem pages attr =
        Bitmaps.allocate (maxOrder + 1) s.mem (Nat.clog 2 pages) attr := by
      rw [Bitmaps.pageAlloc, Bitmaps.allocatePagesOfPower2, orderOf_eq_clog hpos hle]
    rw [hcall]
    rcases allocate_represents attr h.lists (hin.congr h.layout).usable_lt hdepth with
      ⟨hfail, hall⟩ | ⟨mem', j, F', L', m, q, htake, hlayout, hlists, htaken, hoff, hrec⟩
    · rw [hfail]
      refine Or.inl ⟨⟨F, L, h⟩, ?_⟩
      rintro ⟨pages', attr', he, -, k, hk, hlt, hhead⟩
      obtain ⟨rfl, rfl⟩ := Call.alloc.inj he
      exact hhead ((freeList_eq_zero_iff h.lists hlt).mpr (hall k (Nat.le_of_lt hk) hlt))
    · have hne : blockAddr s.mem.memoryStart (Nat.clog 2 pages) j ≠ 0 :=
        blockAddr_pos h.lists.start_pos
      rw [htake]
      simp only [if_neg hne]
      rcases Nat.eq_or_lt_of_le hoff.order_le with heq | hm
      · -- the list of the order has a block
        refine Or.inl ⟨⟨F', L', h.alloc hpos hle hlayout hlists hoff hrec heq.symm htaken⟩, ?_⟩
        rintro ⟨pages', attr', he, hempty, -⟩
        obtain ⟨rfl, rfl⟩ := Call.alloc.inj he
        have htop := hoff.taken
        rw [← heq] at htop
        rw [freeList_eq_zero_iff h.lists (heq ▸ hoff.lt), htop] at hempty
        exact absurd hempty (List.cons_ne_nil _ _)
      · -- a greater block is split
        have hlt : Nat.clog 2 pages < maxOrder := Nat.lt_trans hm hoff.lt
        refine Or.inr ⟨stale_disagrees hlayout hlists hlt hrec hm, pages, attr, rfl, ?_, m, hm,
          hoff.lt, ?_⟩
        · rw [freeList_eq_zero_iff h.lists hlt]
          exact hoff.skipped _ (Nat.le_refl _) hm
        · rw [Ne, freeList_eq_zero_iff h.lists hoff.lt, hoff.taken]
          exact List.cons_ne_nil _ _
  | @free l hl =>
    refine Or.inl ⟨h.free hin hl, ?_⟩
    rintro ⟨pages, attr, he, -⟩
    cases he
  | @write prev next hprev hnext =>
    refine Or.inl ⟨⟨F, L, h.write hprev hnext⟩, ?_⟩
    rintro ⟨pages, attr, he, -⟩
    cases he

/-! ### Runs -/

/-- The state after `init_memory`. -/
def initialRecords (mem : MemoryInfo) : RecordState := ⟨initMemory mem, ∅⟩

/-- The entries that `init_memory` fills in. -/
theorem initMemory_pages (hlt : mem.memoryStart < 2 ^ 32) (hend : mem.memoryEnd < 2 ^ 32)
    (haligned : mem.memoryStart % 2 ^ 22 = 0) (hi : i < pageTotal (initMemory mem)) :
    (initMemory mem).pages i = ⟨pageTypeFree ||| pageTypeUsable, 0⟩ := by
  have hpage : pgSize = 4096 := rfl
  rw [pageTotal, initMemory_layout] at hi
  have hstart : (initTables mem).memoryStart = mem.memoryStart := rfl
  have husable : (initTables mem).memoryStart + i * pgSize < (initTables mem).usableEnd := by
    rw [hpage] at hi ⊢
    omega
  have hblock : mem.memoryStart < (initTables mem).usableEnd := by
    rw [hstart] at husable
    omega
  have hcount : i < (initTables mem).pageCount := by
    have hsize : subUint mem.memoryEnd mem.memoryStart < 2 ^ 32 := Nat.mod_lt _ (by decide)
    obtain ⟨htables, -⟩ := tables_le hsize
    have hlast := initTables_usableEnd hlt hend haligned hblock
    show i < subUint mem.memoryEnd mem.memoryStart / 4096
    rw [hstart, hlast, hpage] at hi
    rw [blockCount] at hi
    omega
  have hbelow := initTables_usableEnd_lt mem
  rw [initMemory]
  have hlayout : (attachMaxBlocks (2 ^ 32 / maxBlockSize) (initTables mem)
      mem.memoryStart).toMemoryLayout = (initTables mem).toMemoryLayout := attachMaxBlocks_layout _
  generalize attachMaxBlocks (2 ^ 32 / maxBlockSize) (initTables mem) mem.memoryStart = m at hlayout ⊢
  show (if i < m.pageCount then if (m.memoryStart + i * pgSize) % 2 ^ 32 < m.usableEnd then _ else _
    else m.pages i) = _
  rw [hlayout, if_pos hcount, Nat.mod_eq_of_lt (Nat.lt_trans husable hbelow), if_pos husable]

theorem initMemory_inBlocks (haligned : mem.memoryStart % 2 ^ 22 = 0) : InBlocks (initMemory mem) := by
  obtain ⟨husable, htotal, -⟩ := initTables_blocks haligned
  have hin : InBlocks (initTables mem) := by
    refine ⟨initTables_usableEnd_lt mem, fun j => ?_⟩
    rw [htotal, Nat.mul_le_mul_right_iff (Nat.two_pow_pos _)]
    exact husable j
  exact hin.congr (initMemory_layout mem)

theorem initialRecords_whole (hstart : 0 < mem.memoryStart) (hlt : mem.memoryStart < 2 ^ 32)
    (hend : mem.memoryEnd < 2 ^ 32) (haligned : mem.memoryStart % 2 ^ 22 = 0) :
    ∃ L, Whole (initMemory mem) (initialRecords mem)
      (maxBlocks (initialBlocks (initMemory mem))) L := by
  obtain ⟨L, h⟩ := initMemory_inv hstart haligned
  obtain ⟨-, htotal, -⟩ := initTables_blocks haligned
  have htotal' : pageTotal (initMemory mem) =
      initialBlocks (initMemory mem) * 2 ^ (maxOrder - 1) := by
    rw [pageTotal, initialBlocks, initMemory_layout]
    exact htotal
  refine ⟨L, ?_⟩
  constructor
  case layout => rfl
  case lists => exact h.toRepresents
  case top => exact fun k j hk => hk.1
  case order => exact fun l hl => absurd hl (Set.notMem_empty l)
  case leased => exact fun l hl => absurd hl (Set.notMem_empty l)
  case unique => exact fun l hl => absurd hl (Set.notMem_empty l)
  case all =>
    intro j hj
    refine Or.inl ⟨rfl, ?_⟩
    have hle : (j + 1) * 2 ^ (maxOrder - 1) ≤ pageTotal (initMemory mem) := hj
    rw [htotal', Nat.mul_le_mul_right_iff (Nat.two_pow_pos _)] at hle
    exact hle
  case free_record =>
    intro x hx
    exact initMemory_pages hlt hend haligned (h.toRepresents.covers_lt ⟨_, hx⟩)
  case live_record => exact fun l hl => absurd hl (Set.notMem_empty l)

/-- **When the records agree.**  After `init_memory` they do, and in every run they agree after every
call exactly when no call has to split a block. -/
theorem records_agree_iff {tr : List (Transition RecordState Call)} (hstart : 0 < mem.memoryStart)
    (hlt : mem.memoryStart < 2 ^ 32) (hend : mem.memoryEnd < 2 ^ 32)
    (haligned : mem.memoryStart % 2 ^ 22 = 0) (hrun : Run Step (initialRecords mem) tr s) :
    RecordsAgree (initialRecords mem) ∧
      ((∀ x ∈ tr, RecordsAgree x.target) ↔ ∀ x ∈ tr, ¬ Splits x.source x.label) := by
  have hin : InBlocks (initMemory mem) := initMemory_inBlocks haligned
  obtain ⟨L, h₀⟩ := initialRecords_whole hstart hlt hend haligned
  refine ⟨h₀.agree hin, ?_⟩
  refine Run.forall_iff (fun s => ∃ F L, Whole (initMemory mem) s F L) (fun _ _ t => RecordsAgree t)
    (fun s c _ => ¬ Splits s c) hrun ⟨_, L, h₀⟩ ?_ ?_
  · rintro s c t ⟨F, L, h⟩ hstep
    rcases h.step hin hstep with ⟨⟨F', L', h'⟩, hno⟩ | ⟨hbad, hsplits⟩
    · exact iff_of_true (h'.agree hin) hno
    · exact iff_of_false hbad fun hno => hno hsplits
  · rintro s c t ⟨F, L, h⟩ hstep hagree
    rcases h.step hin hstep with ⟨h', -⟩ | ⟨hbad, -⟩
    · exact h'
    · exact absurd hagree hbad

/-- 1024 pages are a whole block. -/
theorem records_agree_iff_demo : ∃ tr s, Run Step (initialRecords (demoMemory 0x3100000)) tr s ∧
    tr.length = 1 ∧ ∀ x ∈ tr, RecordsAgree x.target := by
  have hstep : Step (initialRecords (demoMemory 0x3100000)) (.alloc 1024 0x24) _ :=
    Step.alloc (by decide) (by decide)
  have hrun := Run.start.extend hstep
  refine ⟨_, _, hrun, rfl,
    (records_agree_iff (by decide) (by decide) (by decide) (by decide) hrun).2.mpr fun x hx => ?_⟩
  obtain rfl := List.mem_singleton.mp hx
  rintro ⟨pages, attr, he, hempty, -⟩
  obtain ⟨rfl, rfl⟩ := Call.alloc.inj he
  have hhead : (initMemory (demoMemory 0x3100000)).freeList (Nat.clog 2 1024) ≠ 0 := by decide +kernel
  exact hhead hempty

/-- **A split leaves a record behind.**  After the first call for one page a block of 512 pages is on
its list with the entries of an allocated one. -/
theorem split_leaves_record : ∃ s, Run Step (initialRecords (demoMemory 0x3100000))
    [⟨initialRecords (demoMemory 0x3100000), .alloc 1 0x24, s⟩] s ∧ ¬ RecordsAgree s := by
  have hstep : Step (initialRecords (demoMemory 0x3100000)) (.alloc 1 0x24) _ :=
    Step.alloc (by decide) (by decide)
  refine ⟨_, Run.start.extend hstep, ?_⟩
  obtain ⟨L, h₀⟩ := initialRecords_whole (show 0 < (demoMemory 0x3100000).memoryStart by decide)
    (by decide) (by decide) (by decide)
  have hempty : (initMemory (demoMemory 0x3100000)).freeList (Nat.clog 2 1) = 0 := by decide +kernel
  have hhead : (initMemory (demoMemory 0x3100000)).freeList 10 ≠ 0 := by decide +kernel
  rcases h₀.step (initMemory_inBlocks (by decide)) hstep with ⟨-, hno⟩ | ⟨hbad, -⟩
  · exact absurd ⟨1, 0x24, rfl, hempty, 10, by decide, by decide, hhead⟩ hno
  · exact hbad

end Records

end Buddy

end OmochaOS
