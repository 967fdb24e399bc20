import OmochaOS.Lib.TransitionRun
import OmochaOS.Memory.UnmapPages

/-!
# The break of a program (`modules/memory/sbrk.c`)

`mem_sbrk` moves the break.  Whatever the distance, it maps the page of the new break or unmaps the page of
the old one, and no other.

* `Heap` — the pages that were added are mapped, each to a frame of its own;
* `memSbrk_spec` — one call that moves the break to a page next to it;
* `sbrk_run` — many such calls.
-/

namespace OmochaOS.Sbrk

open ByteMemory Paging PageTables TransitionRun

/-- `struct prog_info`. -/
structure ProgInfo where
  programSize : ℕ
  programBreak : ℕ
  imageStart : ℕ

structure Process where
  pageDir : ℕ
  progInfo : Option ProgInfo

/-- A pointer or a size that is changed by `increse`, in 32 bits. -/
def move (a : ℕ) (increse : ℤ) : ℕ := ((a + increse) % 2 ^ 32).toNat

def heapAttr : ℕ := pgWritable ||| pgPresent ||| pgUser

/-- What `mem_sbrk` does to the page tables. -/
def movePages (fuel : ℕ) (m : Space) (pageDir currentBrk newBrk : ℕ) : Option Space :=
  if pageOf newBrk = pageOf currentBrk then some m
  else if pageOf newBrk < pageOf currentBrk then (unmapPages fuel m pageDir currentBrk 1).map Prod.fst
  else
    let (m, pa) := m.pageAlloc
    (mapPages fuel m pageDir (pageOf newBrk) pa 0x1000 heapAttr).map Prod.fst

/-- `mem_sbrk`; the answers of `map_pages` and `unmap_pages` are not looked at. -/
def memSbrk (fuel : ℕ) (m : Space) (proc : Process) (increse : ℤ) : Option (Space × Process × ℕ) :=
  match proc.progInfo with
  | none => some (m, proc, failed)
  | some info =>
    let newBrk := move info.programBreak increse
    let info' := if increse = 0 then info
      else { info with programBreak := newBrk, programSize := move info.programSize increse }
    (movePages fuel m proc.pageDir info.programBreak newBrk).map fun m =>
      (m, { proc with progInfo := some info' }, info.programBreak)

/-! ### The pages of the heap -/

variable {m m' : Space} {pgDir va f g t a brk last stack first : ℕ} {rest : List PAddr}

/-- A page that `mem_sbrk` has added: it can be written, and its frame is counted once. -/
structure HeapPage (m : Space) (pgDir va f : ℕ) : Prop where
  entry : ∃ t, tableOf m.word pgDir (dirIndex va) = some t ∧
    m.word (t + 4 * tabIndex va) = f ||| pgPresent ||| heapAttr
  frame : f % 0x1000 = 0 ∧ f < 2 ^ 32
  counted : m.pageReference f = 1

/-- The pages behind `first` up to `last`. -/
def Added (first last va : ℕ) : Prop := va % 0x1000 = 0 ∧ first < va ∧ va ≤ last

/-- The pages behind `first` up to `last` are those that were added, each with a frame of its own; behind
them nothing is mapped. -/
structure Heap (m : Space) (pgDir first last stack : ℕ) : Prop where
  directory : Directory m.word pgDir
  pages : ∀ va, Added first last va → ∃ f, HeapPage m pgDir va f
  own : ∀ va va' f, Added first last va → Added first last va' → HeapPage m pgDir va f →
    HeapPage m pgDir va' f → va = va'
  above : ∀ a < stack, last < pageOf a → translate m.word pgDir a = none

theorem pageOf_self (h : a % 0x1000 = 0) : pageOf a = a := by
  rw [pageOf]
  omega

theorem heapAttr_lt : heapAttr < 0x1000 := by decide

theorem HeapPage.translate (h : HeapPage m pgDir va f) (hva : va % 0x1000 = 0) :
    translate m.word pgDir va = some f := by
  obtain ⟨t, ht, hword⟩ := h.entry
  have hlow : va % 2 ^ 12 = 0 := hva
  rw [translate_eq ht, hword, tableEntry_present h.frame.1, if_neg Bool.true_eq_false_eq_False,
    tableEntry_page h.frame.1 heapAttr_lt, hlow, Nat.add_zero]

theorem HeapPage.unique (h : HeapPage m pgDir va f) (h' : HeapPage m pgDir va g) (hva : va % 0x1000 = 0) :
    f = g := Option.some.inj ((h.translate hva).symm.trans (h'.translate hva))

/-! ### A page is added -/

/-- The page `va` gets the frame that `page_alloc` answers first. -/
theorem mapPages_one (hdir : Directory m.word pgDir) (hfresh : Fresh m pgDir) (hans : m.answers = f :: rest)
    (hva : va % 0x1000 = 0) (hend : va + 0xFFF < 0xFFFFF000) (hfree : translate m.word pgDir va = none)
    (hroom : missingTables m.word pgDir va 0x1000 ≤ rest.length) :
    ∃ fuel m', mapPages fuel m.pageAlloc.1 pgDir va f 0x1000 heapAttr = some (m', 0) ∧
      m'.pageReference f = 1 ∧ ∃ k, Maps m m' pgDir (pdeAttrOf heapAttr) (fun a => pageOf a = va)
        (fun a => (f + (pageOf a - va)) % 2 ^ 32 ||| pgPresent ||| heapAttr) k := by
  have hmem : f ∈ m.answers := by
    rw [hans]
    exact List.mem_cons_self
  obtain ⟨hframe, hnull, hf32⟩ := hfresh.frame f hmem
  have hnot : f ∉ rest := by
    have hnodup := hfresh.nodup
    rw [hans] at hnodup
    exact (List.nodup_cons.mp hnodup).1
  have htake : Maps m m.pageAlloc.1 pgDir (pdeAttrOf heapAttr) (fun _ => False)
      (fun a => (f + (pageOf a - va)) % 2 ^ 32 ||| pgPresent ||| heapAttr) 1 :=
    Maps.pageAlloc hdir hfresh hans
  have hword : m.pageAlloc.1.word = m.word := by
    rw [pageAlloc_cons hans hnull]
    rfl
  have hanswers : m.pageAlloc.1.answers = rest := by
    rw [pageAlloc_cons hans hnull]
  have hcov : ∀ a, pageOf a = va ↔ Covered va 0x1000 a := by
    intro a
    simp only [Covered, pageOf]
    omega
  have hfree' : ∀ a < 2 ^ 32, Covered va 0x1000 a → translate m.pageAlloc.1.word pgDir a = none := by
    intro a _ ha
    rw [hword, translate_pageOf, (hcov a).mpr ha, hfree]
    rfl
  obtain ⟨fuel, m', hcall, hmaps⟩ := mapPages_spec va f 0x1000 heapAttr htake.directory htake.fresh hva
    (by decide) hend hf32 heapAttr_lt hfree' (by rw [hword, hanswers]; exact hroom)
  have hnot' : f ∉ m.pageAlloc.1.answers := by
    rw [hanswers]
    exact hnot
  refine ⟨fuel, m', hcall, ?_, _, (htake.trans hmaps).congr fun a => ?_⟩
  · rw [hmaps.pageReference_kept htake.fresh hframe hf32 hnot', pageAlloc_cons hans hnull]
    exact Function.update_self (m.pageId f) 1 m.reference
  · rw [hcov a, false_or]

section Grow

variable {E : ℕ → ℕ} {k : ℕ} (hfresh : Fresh m pgDir)
  (hmaps : Maps m m' pgDir (pdeAttrOf heapAttr) (fun a => pageOf a = va) E k)
include hfresh hmaps

/-- The other pages of the heap are kept. -/
theorem HeapPage.grow (h : HeapPage m pgDir a f) (ha : a % 0x1000 = 0) (ha32 : a < 2 ^ 32) (hne : a ≠ va)
    (hnot : f ∉ m.answers) : HeapPage m' pgDir a f := by
  obtain ⟨t, ht, hword⟩ := h.entry
  have hpage : pageOf a ≠ va := by
    rw [pageOf]
    omega
  refine ⟨⟨t, hmaps.table_kept dirIndex_lt ht, ?_⟩, h.frame, ?_⟩
  · rw [hmaps.outside a ha32 hpage t ht, hword]
  · rw [hmaps.pageReference_kept hfresh h.frame.1 h.frame.2 hnot, h.counted]

end Grow

/-- The new page. -/
theorem HeapPage.new (hfresh : Fresh m pgDir) (hmem : f ∈ m.answers) (hva : va % 0x1000 = 0) (hva32 : va < 2 ^ 32)
    {k : ℕ} (hmaps : Maps m m' pgDir (pdeAttrOf heapAttr) (fun a => pageOf a = va)
      (fun a => (f + (pageOf a - va)) % 2 ^ 32 ||| pgPresent ||| heapAttr) k) (href : m'.pageReference f = 1) :
    HeapPage m' pgDir va f := by
  obtain ⟨hframe, -, hf32⟩ := hfresh.frame f hmem
  have hpage : pageOf va = va := pageOf_self hva
  obtain ⟨t, ht, hword⟩ := hmaps.inside va hva32 hpage
  refine ⟨⟨t, ht, hword.trans ?_⟩, ⟨hframe, hf32⟩, href⟩
  rw [hpage, Nat.sub_self, Nat.add_zero, Nat.mod_eq_of_lt hf32]

/-- **The heap grows by one page.** -/
theorem Heap.grow (h : Heap m pgDir first last stack) (hfresh : Fresh m pgDir)
    (hunused : ∀ g ∈ m.answers, ∀ a < 2 ^ 32, translate m.word pgDir a ≠ some g) (hmem : f ∈ m.answers)
    (hlast : last % 0x1000 = 0) (hstack : last + 0x1000 < 2 ^ 32) {k : ℕ}
    (hmaps : Maps m m' pgDir (pdeAttrOf heapAttr) (fun a => pageOf a = last + 0x1000)
      (fun a => (f + (pageOf a - (last + 0x1000))) % 2 ^ 32 ||| pgPresent ||| heapAttr) k)
    (href : m'.pageReference f = 1) (hstack32 : stack ≤ 2 ^ 32) : Heap m' pgDir first (last + 0x1000) stack := by
  have hnew : HeapPage m' pgDir (last + 0x1000) f :=
    HeapPage.new hfresh hmem (by omega) hstack hmaps href
  -- an older page keeps its frame, which is not the new one
  have hold : ∀ va, Added first last va → ∃ g, g ≠ f ∧ HeapPage m pgDir va g ∧ HeapPage m' pgDir va g := by
    intro va hadded
    obtain ⟨g, hg⟩ := h.pages va hadded
    obtain ⟨hva, hlow, hhigh⟩ := hadded
    have hnot : g ∉ m.answers := fun hin => hunused g hin va (by omega) (hg.translate hva)
    refine ⟨g, ?_, hg, hg.grow hfresh hmaps hva (by omega) (by omega) hnot⟩
    intro heq
    exact hnot (heq ▸ hmem)
  have hcases : ∀ va, Added first (last + 0x1000) va → Added first last va ∨ va = last + 0x1000 := by
    intro va hadded
    obtain ⟨hva, hlow, hhigh⟩ := hadded
    by_cases hin : va ≤ last
    · exact Or.inl ⟨hva, hlow, hin⟩
    · right
      omega
  constructor
  case directory => exact hmaps.directory
  case pages =>
    intro va hadded
    rcases hcases va hadded with hin | hlatest
    · obtain ⟨g, -, -, hg⟩ := hold va hin
      exact ⟨g, hg⟩
    · exact ⟨f, hlatest ▸ hnew⟩
  case own =>
    intro va va' g hva hva' hg hg'
    rcases hcases va hva with hin | hlatest
    · obtain ⟨g₁, hne₁, hm₁, hm₁'⟩ := hold va hin
      obtain rfl := hg.unique hm₁' hva.1
      rcases hcases va' hva' with hin' | hlatest'
      · obtain ⟨g₂, -, hm₂, hm₂'⟩ := hold va' hin'
        obtain rfl := hg'.unique hm₂' hva'.1
        exact h.own va va' g hin hin' hm₁ hm₂
      · subst hlatest'
        exact absurd (hg'.unique hnew hva'.1) hne₁
    · subst hlatest
      rcases hcases va' hva' with hin' | hlatest'
      · obtain ⟨g₂, hne₂, -, hm₂'⟩ := hold va' hin'
        obtain rfl := hg'.unique hm₂' hva'.1
        exact absurd (hg.unique hnew hva.1) hne₂
      · exact hlatest'.symm
  case above =>
    intro a ha hpage
    have hpage' : pageOf a ≠ last + 0x1000 := Nat.ne_of_gt hpage
    rw [hmaps.walk a (by omega) hpage']
    exact h.above a ha (by omega)

/-! ### A page is taken away -/

/-- The page of the old break is unmapped, and its frame is freed. -/
theorem unmapPages_one (hdir : Directory m.word pgDir) (hpage : HeapPage m pgDir va f) (hva : pageOf brk = va)
    (hva32 : va < 0xFFFFF000) : ∃ fuel m', unmapPages fuel m pgDir brk 1 = some (m', 0) ∧
      Unmaps m m' pgDir (fun a => pageOf a = va) ∧ m'.freed = m.freed ++ [f] ∧
      ∀ g, g % 0x1000 = 0 → g < 2 ^ 32 → g ≠ f → m'.pageReference g = m.pageReference g := by
  obtain ⟨t, ht, hword⟩ := hpage.entry
  obtain ⟨hframe, hf32⟩ := hpage.frame
  have hmod : va % 0x1000 = 0 := hva ▸ pageOf_mod
  have hself : pageOf va = va := pageOf_self hmod
  have hp : present (m.word (t + 4 * tabIndex va)) = true := by
    rw [hword]
    exact tableEntry_present hframe
  have hentry : pageOf (m.word (t + 4 * tabIndex va)) = f := by
    rw [hword]
    exact tableEntry_page hframe heapAttr_lt
  have hlast : lastPage va 1 = va := by
    rw [lastPage_eq (Nat.le_refl 1) (by omega), Nat.add_sub_cancel, hself]
  have hstore := Unmaps.entry (m := (m.decreasePageRef f).pageFree f) hdir (by omega) ht
  refine ⟨2, ((m.decreasePageRef f).pageFree f).store (t + 4 * tabIndex va) 0, ?_, ?_, rfl, fun g hg hg32 hne => ?_⟩
  · rw [unmapPages, hva, hlast, unmapLoop_step hmod (Nat.le_refl va) ht hp hentry hpage.counted, unmapLoop,
      nextPage_eq (by omega), if_neg (by omega)]
  · refine Unmaps.congr ⟨hstore.pde, hstore.inside, hstore.outside, hstore.answers⟩ fun a => ?_
    rw [hself]
  · have hid : m.pageId g ≠ m.pageId f := fun heq => hne ((pageId_inj hg hframe hg32 hf32).mp heq)
    exact pageReference_addReference hid

/-- The other pages of the heap are kept. -/
theorem HeapPage.shrink (h : HeapPage m pgDir a g) (hunmaps : Unmaps m m' pgDir fun a => pageOf a = va)
    (ha : a % 0x1000 = 0) (ha32 : a < 2 ^ 32) (hne : a ≠ va) (hcount : m'.pageReference g = m.pageReference g) :
    HeapPage m' pgDir a g := by
  obtain ⟨t, ht, hword⟩ := h.entry
  have hpage : pageOf a ≠ va := by
    rw [pageOf]
    omega
  refine ⟨⟨t, (hunmaps.table_eq dirIndex_lt).trans ht, ?_⟩, h.frame, hcount.trans h.counted⟩
  rw [hunmaps.outside a ha32 hpage t ht, hword]

/-- Nothing is at the page. -/
theorem translate_unmapped (hunmaps : Unmaps m m' pgDir fun a => pageOf a = va) (hpage : HeapPage m pgDir va f)
    (ha32 : a < 2 ^ 32) (hva32 : va < 2 ^ 32) (ha : pageOf a = va) : translate m'.word pgDir a = none := by
  obtain ⟨t, ht, -⟩ := hpage.entry
  have hmod : va % 0x1000 = 0 := ha ▸ pageOf_mod
  have hself : pageOf va = va := pageOf_self hmod
  obtain ⟨hindex, -⟩ := (pageOf_eq_iff ha32 hva32).mp (ha.trans hself.symm)
  rw [← hindex] at ht
  have hzero := hunmaps.inside a ha32 ha t ht
  rw [translate_eq ((hunmaps.table_eq dirIndex_lt).trans ht), hzero]
  rfl

/-- **The heap shrinks by one page.** -/
theorem Heap.shrink (h : Heap m pgDir first (last + 0x1000) stack) (hpage : HeapPage m pgDir (last + 0x1000) f)
    (hfirst : first ≤ last) (hlast : last % 0x1000 = 0) (hstack : last + 0x1000 < 2 ^ 32) (hstack32 : stack ≤ 2 ^ 32)
    (hunmaps : Unmaps m m' pgDir fun a => pageOf a = last + 0x1000)
    (hcount : ∀ g, g % 0x1000 = 0 → g < 2 ^ 32 → g ≠ f → m'.pageReference g = m.pageReference g) :
    Heap m' pgDir first last stack := by
  have hadded : ∀ va, Added first last va → Added first (last + 0x1000) va := fun va hva =>
    ⟨hva.1, hva.2.1, hva.2.2.trans (Nat.le_add_right _ _)⟩
  have hlatest : Added first (last + 0x1000) (last + 0x1000) := ⟨by omega, by omega, Nat.le_refl _⟩
  have hold : ∀ va, Added first last va → ∃ g, HeapPage m pgDir va g ∧ HeapPage m' pgDir va g := by
    intro va hva
    obtain ⟨g, hg⟩ := h.pages va (hadded va hva)
    have hne : g ≠ f := by
      rintro rfl
      have hsame := h.own va (last + 0x1000) g (hadded va hva) hlatest hg hpage
      have hhigh := hva.2.2
      omega
    obtain ⟨hmod, -, hhigh⟩ := hva
    exact ⟨g, hg, hg.shrink hunmaps hmod (by omega) (by omega) (hcount g hg.frame.1 hg.frame.2 hne)⟩
  constructor
  case directory => exact h.directory.congr hunmaps.pde
  case pages =>
    intro va hva
    obtain ⟨g, -, hg⟩ := hold va hva
    exact ⟨g, hg⟩
  case own =>
    intro va va' g hva hva' hg hg'
    obtain ⟨g₁, hm₁, hm₁'⟩ := hold va hva
    obtain ⟨g₂, hm₂, hm₂'⟩ := hold va' hva'
    obtain rfl := hg.unique hm₁' hva.1
    obtain rfl := hg'.unique hm₂' hva'.1
    exact h.own va va' g (hadded va hva) (hadded va' hva') hm₁ hm₂
  case above =>
    intro a ha hlow
    by_cases hin : pageOf a = last + 0x1000
    · exact translate_unmapped hunmaps hpage (by omega) hstack hin
    · rw [hunmaps.walk (by omega) hin]
      refine h.above a ha ?_
      rw [pageOf] at hin hlow ⊢
      omega

/-! ### One call -/

variable {fuel fuel' newBrk last' : ℕ}

/-- The frames of the pages behind `last'` up to `last`. -/
def removedFrames (word : ℕ → ℕ) (pgDir last' last : ℕ) : List ℕ :=
  (List.range ((last - last') / 0x1000)).filterMap fun i => translate word pgDir (last' + 0x1000 * (i + 1))

/-- The last page moves from `last` to `last'`: the pages between are added or removed, and no other mapping
changes. -/
structure Moves (m m' : Space) (pgDir last last' : ℕ) : Prop where
  others : ∀ a < 2 ^ 32, (pageOf a ≤ last ↔ pageOf a ≤ last') → translate m'.word pgDir a = translate m.word pgDir a
  added : ∀ va, Added last last' va → ∃ f ∈ m.answers, HeapPage m' pgDir va f
  freed : m'.freed = m.freed ++ removedFrames m.word pgDir last' last

theorem removedFrames_of_le (h : last ≤ last') : removedFrames m.word pgDir last' last = [] := by
  rw [removedFrames, Nat.sub_eq_zero_of_le h]
  rfl

theorem removedFrames_one {word : ℕ → ℕ} (h : translate word pgDir (last' + 0x1000) = some f) :
    removedFrames word pgDir last' (last' + 0x1000) = [f] := by
  rw [removedFrames, Nat.add_sub_cancel_left]
  show (List.range 1).filterMap _ = [f]
  simp [h]

theorem movePages_unique {r r' : Space} (h : movePages fuel m pgDir brk newBrk = some r)
    (h' : movePages fuel' m pgDir brk newBrk = some r') : r = r' := by
  unfold movePages at h h'
  by_cases hsame : pageOf newBrk = pageOf brk
  · rw [if_pos hsame] at h h'
    exact Option.some.inj (h.symm.trans h')
  · rw [if_neg hsame] at h h'
    by_cases hless : pageOf newBrk < pageOf brk
    · rw [if_pos hless] at h h'
      obtain ⟨x, hx, rfl⟩ := Option.map_eq_some_iff.mp h
      obtain ⟨x', hx', rfl⟩ := Option.map_eq_some_iff.mp h'
      rw [unmapPages_unique hx hx']
    · rw [if_neg hless] at h h'
      obtain ⟨x, hx, rfl⟩ := Option.map_eq_some_iff.mp h
      obtain ⟨x', hx', rfl⟩ := Option.map_eq_some_iff.mp h'
      rw [mapPages_unique hx hx']

/-- **The page tables follow the break** to a page next to it. -/
theorem movePages_spec (h : Heap m pgDir first (pageOf brk) stack) (hfresh : Fresh m pgDir)
    (hunused : ∀ f ∈ m.answers, ∀ a < 2 ^ 32, translate m.word pgDir a ≠ some f)
    (hfirst : first ≤ pageOf newBrk) (hnew : newBrk < stack) (hstack : stack ≤ kernBase) (hbrk : brk ≤ stack)
    (hup : pageOf newBrk ≤ pageOf brk + 0x1000) (hdown : pageOf brk ≤ pageOf newBrk + 0x1000)
    (hroom : pageOf brk < pageOf newBrk →
      missingTables m.word pgDir (pageOf newBrk) 0x1000 + 1 ≤ m.answers.length) :
    ∃ fuel m', movePages fuel m pgDir brk newBrk = some m' ∧ Heap m' pgDir first (pageOf newBrk) stack ∧
      Moves m m' pgDir (pageOf brk) (pageOf newBrk) := by
  have hkern : kernBase = 0x80000000 := rfl
  have hpage : pageOf newBrk % 0x1000 = 0 := pageOf_mod
  have hpage' : pageOf brk % 0x1000 = 0 := pageOf_mod
  have hle : pageOf newBrk ≤ newBrk := Nat.div_mul_le_self _ _
  have hle' : pageOf brk ≤ brk := Nat.div_mul_le_self _ _
  rcases Nat.lt_trichotomy (pageOf newBrk) (pageOf brk) with hless | hsame | hmore
  · -- the page of the old break is unmapped
    have hlast : pageOf brk = pageOf newBrk + 0x1000 := by omega
    rw [hlast] at h
    have hlatest : Added first (pageOf newBrk + 0x1000) (pageOf newBrk + 0x1000) :=
      ⟨by omega, by omega, Nat.le_refl _⟩
    obtain ⟨f, hf⟩ := h.pages _ hlatest
    obtain ⟨fuel, m', hcall, hunmaps, hfreed, hcount⟩ := unmapPages_one h.directory hf hlast (by omega)
    refine ⟨fuel, m', ?_, h.shrink hf hfirst hpage (by omega) (by omega) hunmaps hcount, ?_⟩
    · rw [movePages, if_neg (Nat.ne_of_lt hless), if_pos hless, hcall]
      rfl
    · rw [hlast]
      refine ⟨fun a ha hiff => ?_, fun va hva => ?_, ?_⟩
      · refine hunmaps.walk ha fun heq => ?_
        rw [heq] at hiff
        have hin := hiff.mp (Nat.le_refl _)
        omega
      · obtain ⟨-, hlow, hhigh⟩ := hva
        omega
      · rw [hfreed, removedFrames_one (hf.translate hlatest.1)]
  · refine ⟨0, m, ?_, ?_, ?_⟩
    · rw [movePages, if_pos hsame]
    · rw [hsame]
      exact h
    · rw [hsame]
      refine ⟨fun _ _ _ => rfl, fun va hva => absurd hva.2.2 (Nat.not_le.mpr hva.2.1), ?_⟩
      rw [removedFrames_of_le (Nat.le_refl _), List.append_nil]
  · -- the page of the new break is mapped
    have hlast : pageOf newBrk = pageOf brk + 0x1000 := by omega
    have hfree : translate m.word pgDir (pageOf newBrk) = none := by
      refine h.above _ (by omega) ?_
      rw [pageOf_self hpage]
      exact hmore
    replace hroom := hroom hmore
    cases hans : m.answers with
    | nil =>
      rw [hans, List.length_nil] at hroom
      omega
    | cons f rest =>
      rw [hans, List.length_cons] at hroom
      have hmem : f ∈ m.answers := by
        rw [hans]
        exact List.mem_cons_self
      obtain ⟨fuel, m', hcall, href, k, hmaps⟩ := mapPages_one h.directory hfresh hans hpage (by omega) hfree
        (Nat.le_of_succ_le_succ hroom)
      have hnewPage : HeapPage m' pgDir (pageOf newBrk) f := HeapPage.new hfresh hmem hpage (by omega) hmaps href
      refine ⟨fuel, m', ?_, ?_, ?_⟩
      · have halloc : m.pageAlloc.2 = f := by
          rw [pageAlloc_cons hans (hfresh.frame f hmem).2.1]
        rw [movePages, if_neg (Nat.ne_of_gt hmore), if_neg (Nat.lt_asymm hmore)]
        show (mapPages fuel m.pageAlloc.1 pgDir (pageOf newBrk) m.pageAlloc.2 0x1000 heapAttr).map Prod.fst = _
        rw [halloc, hcall]
        rfl
      · rw [hlast] at hmaps ⊢
        exact h.grow hfresh hunused hmem hpage' (by omega) hmaps href (by omega)
      · refine ⟨fun a ha hiff => ?_, fun va hva => ?_, ?_⟩
        · refine hmaps.walk a ha fun heq => ?_
          rw [heq] at hiff
          have hin := hiff.mpr (Nat.le_refl _)
          omega
        · obtain ⟨hmod, hlow, hhigh⟩ := hva
          have hva : va = pageOf newBrk := by omega
          rw [hva]
          exact ⟨f, hmem, hnewPage⟩
        · rw [hmaps.freed, removedFrames_of_le (Nat.le_of_lt hmore), List.append_nil]

/-! ### Runs of calls -/

structure State where
  space : Space
  proc : Process

/-- A call of `mem_sbrk`: what `page_alloc` answers from then on, and what the caller gets. -/
structure Call where
  increse : ℤ
  answers : List PAddr
  returned : ℕ

def State.before (s : State) (call : Call) : Space := { s.space with answers := call.answers }

inductive SbrkStep : State → Call → State → Prop
  | call {s : State} {call : Call} {fuel : ℕ} {m : Space} {proc : Process}
      (hcall : memSbrk fuel (s.before call) s.proc call.increse = some (m, proc, call.returned)) :
      SbrkStep s call { space := m, proc := proc }

variable {s s₀ s' : State} {info info₀ info' : ProgInfo} {call : Call}

/-- Where an address of the process is. -/
def State.frameAt (s : State) (a : ℕ) : Option ℕ := translate s.space.word s.proc.pageDir a

/-- A process as the loader leaves it: the image is mapped, and nothing from the page behind the break up to
the stack. -/
structure Loaded (stack : ℕ) (s : State) (info : ProgInfo) : Prop where
  progInfo : s.proc.progInfo = some info
  directory : Directory s.space.word s.proc.pageDir
  image : ∀ a, info.imageStart ≤ a → a < info.programBreak → s.frameAt a ≠ none
  above : ∀ a < stack, pageOf info.programBreak < pageOf a → s.frameAt a = none
  break_lt : info.programBreak < stack
  stack_mod : stack % 0x1000 = 0
  stack_le : stack ≤ kernBase

/-- `page_alloc` answers frames that are not in use; the list ends where it fails. -/
structure Offered (s : State) (call : Call) : Prop where
  fresh : Fresh (s.before call) s.proc.pageDir
  unused : ∀ f ∈ call.answers, ∀ a < 2 ^ 32, s.frameAt a ≠ some f

/-- The break stays between where it was at first and the stack, and moves to a page next to it; where it goes
up, its page is mapped, and where it needs a page, `page_alloc` has one, and another one for the page table. -/
structure Steady (brk₀ stack : ℕ) (s : State) (info : ProgInfo) (call : Call) : Prop where
  brk₀_le : (brk₀ : ℤ) ≤ info.programBreak + call.increse
  lt_stack : info.programBreak + call.increse < stack
  up : pageOf (move info.programBreak call.increse) ≤ pageOf info.programBreak + 0x1000
  down : pageOf info.programBreak ≤ pageOf (move info.programBreak call.increse) + 0x1000
  mapped : 0 < call.increse → s.frameAt (pageOf info.programBreak) ≠ none
  room : pageOf info.programBreak < pageOf (move info.programBreak call.increse) →
    missingTables s.space.word s.proc.pageDir (pageOf (move info.programBreak call.increse)) 0x1000 + 1 ≤
      call.answers.length

/-- The heap is mapped up to the break, what was added to frames of its own; all other addresses are where they
were at first. -/
structure HeapKept (stack : ℕ) (s₀ : State) (info₀ : ProgInfo) (s : State) (info : ProgInfo) : Prop where
  proc : s.proc = { s₀.proc with progInfo := some info }
  imageStart : info.imageStart = info₀.imageStart
  image : ∀ a, info.imageStart ≤ a → a < info.programBreak → s.frameAt a ≠ none
  heap : Heap s.space s₀.proc.pageDir (pageOf info₀.programBreak) (pageOf info.programBreak) stack
  others : ∀ a < 2 ^ 32, pageOf a ≤ pageOf info₀.programBreak ∨ stack ≤ a → s.frameAt a = s₀.frameAt a
  break_ge : info₀.programBreak ≤ info.programBreak
  break_lt : info.programBreak < stack

/-- What one call is to do. -/
structure Sbrks (s : State) (call : Call) (s' : State) (info info' : ProgInfo) : Prop where
  returned : call.returned = info.programBreak
  moved : (info'.programBreak : ℤ) = info.programBreak + call.increse
  pages : Moves (s.before call) s'.space s.proc.pageDir (pageOf info.programBreak) (pageOf info'.programBreak)

theorem memSbrk_unique {proc : Process} {increse : ℤ} {r r' : Space × Process × ℕ}
    (h : memSbrk fuel m proc increse = some r) (h' : memSbrk fuel' m proc increse = some r') : r = r' := by
  unfold memSbrk at h h'
  cases hinfo : proc.progInfo with
  | none =>
    rw [hinfo] at h h'
    exact Option.some.inj (h.symm.trans h')
  | some info =>
    rw [hinfo] at h h'
    obtain ⟨x, hx, rfl⟩ := Option.map_eq_some_iff.mp h
    obtain ⟨x', hx', rfl⟩ := Option.map_eq_some_iff.mp h'
    rw [movePages_unique hx hx']

/-- The break that stays below the stack is not wrapped around. -/
theorem move_eq {increse : ℤ} (hlow : 0 ≤ a + increse) (hhigh : a + increse < 2 ^ 32) :
    (move a increse : ℤ) = a + increse := by
  rw [move, Int.emod_eq_of_lt hlow hhigh]
  exact Int.toNat_of_nonneg hlow

theorem translate_eq_none {word : ℕ → ℕ} : translate word pgDir (pageOf a) = none ↔ translate word pgDir a = none := by
  have hpage : translate word pgDir a = (translate word pgDir (pageOf a)).map fun b => b + a % 2 ^ 12 :=
    translate_pageOf
  rw [hpage, Option.map_eq_none_iff]

/-- At first nothing was added. -/
theorem Loaded.heapKept (h : Loaded stack s₀ info₀) : HeapKept stack s₀ info₀ s₀ info₀ := by
  have hnone : ∀ va, ¬ Added (pageOf info₀.programBreak) (pageOf info₀.programBreak) va := fun va hva =>
    Nat.not_le.mpr hva.2.1 hva.2.2
  refine ⟨?_, rfl, h.image, ⟨h.directory, fun va hva => absurd hva (hnone va), fun va _ _ hva => absurd hva (hnone va),
    h.above⟩, fun _ _ _ => rfl, Nat.le_refl _, h.break_lt⟩
  rw [← h.progInfo]

/-- What `page_alloc` is going to answer does not matter to the pages that are there. -/
theorem Heap.before (h : Heap s.space pgDir first last stack) : Heap (s.before call) pgDir first last stack := by
  have hpage : ∀ va f, HeapPage (s.before call) pgDir va f → HeapPage s.space pgDir va f := fun va f hf =>
    ⟨hf.entry, hf.frame, hf.counted⟩
  refine ⟨h.directory, fun va hva => ?_, fun va va' f hva hva' hf hf' => ?_, h.above⟩
  · obtain ⟨f, hf⟩ := h.pages va hva
    exact ⟨f, hf.entry, hf.frame, hf.counted⟩
  · exact h.own va va' f hva hva' (hpage va f hf) (hpage va' f hf')

/-- **One call** out of a heap that is kept. -/
theorem memSbrk_spec (hloaded : Loaded stack s₀ info₀) (hkept : HeapKept stack s₀ info₀ s info)
    (hoffered : Offered s call) (hsteady : Steady info₀.programBreak stack s info call) :
    ∃ fuel m info', memSbrk fuel (s.before call) s.proc call.increse =
        some (m, { s.proc with progInfo := some info' }, info.programBreak) ∧
      HeapKept stack s₀ info₀ { space := m, proc := { s.proc with progInfo := some info' } } info' ∧
      (info'.programBreak : ℤ) = info.programBreak + call.increse ∧
      Moves (s.before call) m s.proc.pageDir (pageOf info.programBreak) (pageOf info'.programBreak) := by
  have hkern : kernBase = 0x80000000 := rfl
  have hstack := hloaded.stack_le
  have hlow := hsteady.brk₀_le
  have hhigh := hsteady.lt_stack
  have hdir : s.proc.pageDir = s₀.proc.pageDir := by rw [hkept.proc]
  have hmove : (move info.programBreak call.increse : ℤ) = info.programBreak + call.increse :=
    move_eq (by omega) (by omega)
  obtain ⟨newBrk, hnew⟩ : ∃ newBrk, newBrk = move info.programBreak call.increse := ⟨_, rfl⟩
  rw [← hnew] at hmove
  have hup := hsteady.up
  have hdown := hsteady.down
  have hroom := hsteady.room
  rw [← hnew] at hup hdown hroom
  have hfirst : pageOf info₀.programBreak ≤ pageOf newBrk :=
    Nat.mul_le_mul_right _ (Nat.div_le_div_right (by omega))
  have hfirst' : pageOf info₀.programBreak ≤ pageOf info.programBreak :=
    Nat.mul_le_mul_right _ (Nat.div_le_div_right hkept.break_ge)
  have hheap : Heap (s.before call) s.proc.pageDir (pageOf info₀.programBreak) (pageOf info.programBreak) stack := by
    rw [hdir]
    exact hkept.heap.before
  obtain ⟨fuel, m, hcall, hheap', hmoves⟩ := movePages_spec hheap hoffered.fresh hoffered.unused hfirst (by omega)
    hstack (Nat.le_of_lt hkept.break_lt) hup hdown hroom
  obtain ⟨info', hinfo'⟩ : ∃ info', info' = if call.increse = 0 then info
      else { info with programBreak := newBrk, programSize := move info.programSize call.increse } := ⟨_, rfl⟩
  have hbreak : info'.programBreak = newBrk := by
    rw [hinfo']
    split
    · omega
    · rfl
  have himage : info'.imageStart = info.imageStart := by
    rw [hinfo']
    split
    · rfl
    · rfl
  have hprog : s.proc.progInfo = some info := by rw [hkept.proc]
  refine ⟨fuel, m, info', ?_, ?_, by rw [hbreak]; exact hmove, by rw [hbreak]; exact hmoves⟩
  · rw [memSbrk, hprog]
    show (movePages fuel (s.before call) s.proc.pageDir info.programBreak (move info.programBreak call.increse)).map _ = _
    rw [← hnew, hcall, hinfo']
    rfl
  · have hsame : ∀ a < 2 ^ 32, (pageOf a ≤ pageOf info.programBreak ↔ pageOf a ≤ pageOf newBrk) →
        translate m.word s.proc.pageDir a = s.frameAt a := hmoves.others
    refine ⟨?_, himage.trans hkept.imageStart, fun a hstart hlt => ?_, ?_, fun a ha hout => ?_, ?_, ?_⟩
    · rw [hkept.proc]
    · -- pages of the image are as they were, the others belong to the heap
      rw [himage] at hstart
      rw [hbreak] at hlt
      show translate m.word s.proc.pageDir a ≠ none
      have hle : pageOf a ≤ pageOf newBrk := Nat.mul_le_mul_right _ (Nat.div_le_div_right (by omega))
      rcases Nat.lt_or_ge (pageOf info₀.programBreak) (pageOf a) with hin | hout
      · obtain ⟨f, hf⟩ := hheap'.pages (pageOf a) ⟨pageOf_mod, hin, hle⟩
        rw [Ne, ← translate_eq_none, hf.translate pageOf_mod]
        exact Option.some_ne_none f
      · rw [hsame a (by omega) ⟨fun _ => hle, fun _ => hout.trans hfirst'⟩]
        rcases Nat.lt_or_ge a info.programBreak with hold | hnewer
        · exact hkept.image a hstart hold
        · have hpos : 0 < call.increse := by omega
          have hpage : pageOf a = pageOf info.programBreak :=
            Nat.le_antisymm (hout.trans hfirst') (Nat.mul_le_mul_right _ (Nat.div_le_div_right hnewer))
          have hmapped := hsteady.mapped hpos
          rw [← hpage] at hmapped
          exact fun hnone => hmapped (translate_eq_none.mpr hnone)
    · rw [hbreak, ← hdir]
      exact hheap'
    · rw [← hkept.others a ha hout]
      refine hsame a ha ?_
      have hmod := hloaded.stack_mod
      have hlt := hkept.break_lt
      rcases hout with hout | hout
      · exact ⟨fun _ => hout.trans hfirst, fun _ => hout.trans hfirst'⟩
      · have hpage : stack ≤ pageOf a := by
          rw [pageOf]
          omega
        have hle : pageOf newBrk ≤ newBrk := Nat.div_mul_le_self _ _
        have hle' : pageOf info.programBreak ≤ info.programBreak := Nat.div_mul_le_self _ _
        constructor
        · omega
        · omega
    · rw [hbreak]
      omega
    · rw [hbreak]
      omega

/-- **One step** out of a heap that is kept. -/
theorem SbrkStep.spec (hstep : SbrkStep s call s') (hloaded : Loaded stack s₀ info₀)
    (hkept : HeapKept stack s₀ info₀ s info) (hoffered : Offered s call)
    (hsteady : Steady info₀.programBreak stack s info call) :
    ∃ info', HeapKept stack s₀ info₀ s' info' ∧ Sbrks s call s' info info' := by
  obtain ⟨fuel, m, info', hcall, hkept', hmoved, hmoves⟩ := memSbrk_spec hloaded hkept hoffered hsteady
  cases hstep with
  | call hstep =>
    have hsame := memSbrk_unique hstep hcall
    simp only [Prod.mk.injEq] at hsame
    obtain ⟨rfl, rfl, hreturned⟩ := hsame
    exact ⟨info', hkept', hreturned, hmoved, hmoves⟩

/-- **Many calls.**  The heap is kept after every call, every call does what it is to do, and the next one comes
back. -/
theorem sbrk_run (stack : ℕ) (s₀ : State) (info₀ : ProgInfo) (tr : List (Transition State Call)) (s : State)
    (hloaded : Loaded stack s₀ info₀) (hrun : Run SbrkStep s₀ tr s)
    (hoffered : ∀ x ∈ tr, Offered x.source x.label)
    (hsteady : ∀ x ∈ tr, ∀ info, x.source.proc.progInfo = some info →
      Steady info₀.programBreak stack x.source info x.label) :
    (∀ x ∈ tr, ∃ info info', HeapKept stack s₀ info₀ x.source info ∧ HeapKept stack s₀ info₀ x.target info' ∧
      Sbrks x.source x.label x.target info info') ∧
    ∃ info, HeapKept stack s₀ info₀ s info ∧ ∀ call, Offered s call →
      Steady info₀.programBreak stack s info call →
        ∃ fuel r, memSbrk fuel (s.before call) s.proc call.increse = some r := by
  have hprog : ∀ {s : State} {info : ProgInfo}, HeapKept stack s₀ info₀ s info → s.proc.progInfo = some info :=
    fun h => by rw [h.proc]
  have hkeep : ∀ s call s', (∃ info, HeapKept stack s₀ info₀ s info) → SbrkStep s call s' →
      (Offered s call ∧ ∀ info, s.proc.progInfo = some info → Steady info₀.programBreak stack s info call) →
        ∃ info', HeapKept stack s₀ info₀ s' info' := by
    intro s call s' hkept hstep hmeets
    obtain ⟨info, hkept⟩ := hkept
    obtain ⟨info', hkept', -⟩ := hstep.spec hloaded hkept hmeets.1 (hmeets.2 info (hprog hkept))
    exact ⟨info', hkept'⟩
  have hall : ∀ x ∈ tr, Offered x.source x.label ∧ ∀ info, x.source.proc.progInfo = some info →
      Steady info₀.programBreak stack x.source info x.label := fun x hx => ⟨hoffered x hx, hsteady x hx⟩
  constructor
  · intro x hx
    obtain ⟨⟨info, hkept⟩, -⟩ := hrun.invariant_of_forall_mem ⟨info₀, hloaded.heapKept⟩ hkeep hall hx
    obtain ⟨info', hkept', hdoes⟩ := (hrun.step_of_mem hx).1.spec hloaded hkept (hoffered x hx)
      (hsteady x hx info (hprog hkept))
    exact ⟨info, info', hkept, hkept', hdoes⟩
  · obtain ⟨info, hkept⟩ := hrun.invariant_of_forall ⟨info₀, hloaded.heapKept⟩ hkeep hall
    refine ⟨info, hkept, fun call ho hst => ?_⟩
    obtain ⟨fuel, m, info', hcall, -⟩ := memSbrk_spec hloaded hkept ho hst
    exact ⟨fuel, _, hcall⟩

/-! ### A program of one page -/

/-- A page needs one page table at most. -/
theorem missingTables_page {word : ℕ → ℕ} (hva : va % 0x1000 = 0) : missingTables word pgDir va 0x1000 ≤ 1 := by
  have hindex : dirIndex (va + 0x1000 - 1) = dirIndex va := by
    simp only [dirIndex]
    omega
  rw [missingTables, missing, hindex, Finset.Icc_self]
  exact (Finset.card_filter_le _ _).trans (Nat.le_of_eq (Finset.card_singleton _))

def demoInfo : ProgInfo := { programSize := 0x800, programBreak := 0x1800, imageStart := 0x1000 }

def demoStack : ℕ := 0x7FFFE000

/-- The image is at `0x1000`, and the break in the middle of its page. -/
theorem demoInfo_loaded : ∃ s, Loaded demoStack s demoInfo ∧
    ∀ increse returned, Offered s ⟨increse, [0x1404000, 0x1405000], returned⟩ := by
  obtain ⟨m₁, hrun⟩ := demoSpace_mapsFresh
  obtain ⟨⟨E, k, hmaps⟩, hholds, -, -⟩ := hrun.spec demoSpace_directory demoSpace_fresh (by decide) (by decide)
    (by decide) fun a _ _ _ => demoSpace_translate a
  obtain ⟨⟨t, ht, hp, hpage⟩, -⟩ := hholds
  have hnone : ∀ a < 2 ^ 32, pageOf a ≠ 0x1000 → translate m₁.word 0x1401000 a = none := by
    intro a ha hne
    rw [hmaps.walk a ha fun hin => hne ?_]
    · exact demoSpace_translate a
    · have hlow : 0x1000 ≤ a := hin.1
      have hhigh : a < 0x2000 := hin.2
      rw [pageOf]
      omega
  have hsome : ∀ a, pageOf a = 0x1000 → translate m₁.word 0x1401000 a = some (0x1402000 + a % 2 ^ 12) := by
    intro a ha
    have hwalk : translate m₁.word 0x1401000 0x1000 = some 0x1402000 := by
      rw [translate_eq ht, hp, if_neg Bool.true_eq_false_eq_False, hpage]
      rfl
    rw [translate_pageOf, ha, hwalk]
    rfl
  refine ⟨{ space := m₁, proc := { pageDir := 0x1401000, progInfo := some demoInfo } }, ?_, fun increse returned => ?_⟩
  · refine ⟨rfl, hmaps.directory, fun a hlow hhigh => ?_, fun a ha hlow => ?_, by decide, by decide, by decide⟩
    · have hlow' : 0x1000 ≤ a := hlow
      have hhigh' : a < 0x1800 := hhigh
      show translate m₁.word 0x1401000 a ≠ none
      rw [hsome a (by rw [pageOf]; omega)]
      exact Option.some_ne_none _
    · have ha' : a < 0x7FFFE000 := ha
      have hlow' : 0x1000 < pageOf a := hlow
      exact hnone a (by omega) (by omega)
  · have hout : ∀ f, f % 0x1000 = 0 → f ≠ 0x1401000 → f ∉ demoSpace.answers → Outside m₁.word 0x1401000 f := by
      intro f hf hne hnot
      exact hmaps.outside_frame ⟨hne, fun i _ => by simp [demoSpace_tables]⟩ hnot
    have hframes : ∀ f ∈ ([0x1404000, 0x1405000] : List ℕ), f % 0x1000 = 0 ∧ f ≠ 0x1401000 ∧ f ∉ demoSpace.answers ∧
        f ≠ 0 ∧ f < 2 ^ 32 ∧ 0x1403000 < f := by decide
    have hnodup : [0x1404000, 0x1405000].Nodup := by decide
    refine ⟨⟨hnodup, fun f hf => ?_, fun f hf => ?_⟩, fun (f : ℕ) hf a ha => ?_⟩
    · obtain ⟨hmod, -, -, hnull, hlt, -⟩ := hframes f hf
      exact ⟨hmod, hnull, hlt⟩
    · obtain ⟨hmod, hne, hnot, -⟩ := hframes f hf
      exact hout f hmod hne hnot
    · have hgt : (0x1403000 : ℕ) < f := (hframes f hf).2.2.2.2.2
      show translate m₁.word 0x1401000 a ≠ some f
      by_cases hpage : pageOf a = 0x1000
      · rw [hsome a hpage]
        intro heq
        have hval : 0x1402000 + a % 2 ^ 12 = f := Option.some.inj heq
        have hmod : a % 2 ^ 12 < 2 ^ 12 := Nat.mod_lt a (by decide)
        omega
      · rw [hnone a ha hpage]
        exact (Option.some_ne_none f).symm

/-- The break moves up by a page and down again. -/
theorem sbrk_run_page : ∃ s₀ s, Loaded demoStack s₀ demoInfo ∧ ∃ tr, tr.length = 2 ∧ Run SbrkStep s₀ tr s ∧
    ∃ info, HeapKept demoStack s₀ demoInfo s info ∧ info.programBreak = 0x1800 := by
  obtain ⟨s₀, hloaded, hoffered⟩ := demoInfo_loaded
  obtain ⟨up, hup⟩ : ∃ call : Call, call = ⟨0x1000, [0x1404000, 0x1405000], 0x1800⟩ := ⟨_, rfl⟩
  obtain ⟨down, hdown⟩ : ∃ call : Call, call = ⟨-0x1000, [], 0x2800⟩ := ⟨_, rfl⟩
  have hmove : pageOf (move demoInfo.programBreak 0x1000) = 0x2000 := by decide
  have hsteady : Steady demoInfo.programBreak demoStack s₀ demoInfo up := by
    subst hup
    refine ⟨by decide, by decide, by decide, by decide, fun _ hnone => ?_, fun _ => ?_⟩
    · exact hloaded.image 0x1000 (by decide) (by decide) hnone
    · rw [hmove]
      exact Nat.succ_le_succ (missingTables_page (by decide))
  have hoffered₁ : Offered s₀ up := hup ▸ hoffered _ _
  obtain ⟨fuel, m, info₁, hrun, hkept, hmoved, -⟩ := memSbrk_spec hloaded hloaded.heapKept hoffered₁ hsteady
  have hbreak : info₁.programBreak = 0x2800 := by
    rw [hup] at hmoved
    have hint : (info₁.programBreak : ℤ) = 0x1800 + 0x1000 := hmoved
    omega
  set s₁ : State := { space := m, proc := { s₀.proc with progInfo := some info₁ } } with hs₁
  -- the second call
  have hoffered₂ : Offered s₁ down := by
    subst hdown
    exact ⟨⟨List.nodup_nil, fun f hf => absurd hf List.not_mem_nil, fun f hf => absurd hf List.not_mem_nil⟩,
      fun f hf => absurd hf List.not_mem_nil⟩
  have hsteady₂ : Steady demoInfo.programBreak demoStack s₁ info₁ down := by
    subst hdown
    refine ⟨?_, ?_, ?_, ?_, fun hpos => absurd hpos (by decide), ?_⟩ <;> rw [hbreak]
    · decide
    · decide
    · decide
    · decide
    · exact fun hlt => absurd hlt (by decide)
  obtain ⟨fuel', m', info₂, hrun', -, hmoved', -⟩ := memSbrk_spec hloaded hkept hoffered₂ hsteady₂
  have hreturned : demoInfo.programBreak = up.returned := by rw [hup]; rfl
  have hreturned' : info₁.programBreak = down.returned := by rw [hbreak, hdown]
  rw [hreturned] at hrun
  rw [hreturned'] at hrun'
  have hstep := (Run.start.extend (SbrkStep.call hrun)).extend (SbrkStep.call hrun')
  have hprog : ∀ info, s₀.proc.progInfo = some info → info = demoInfo := fun info h =>
    Option.some.inj (h.symm.trans hloaded.progInfo)
  have hmem : ∀ x ∈ [(⟨s₀, up, s₁⟩ : Transition State Call)] ++
      [⟨s₁, down, { space := m', proc := { s₁.proc with progInfo := some info₂ } }⟩],
      Offered x.source x.label ∧ ∀ info, x.source.proc.progInfo = some info →
        Steady demoInfo.programBreak demoStack x.source info x.label := by
    intro x hx
    rcases List.mem_append.mp hx with hx | hx
    · obtain rfl := List.mem_singleton.mp hx
      exact ⟨hoffered₁, fun info h => hprog info h ▸ hsteady⟩
    · obtain rfl := List.mem_singleton.mp hx
      refine ⟨hoffered₂, fun info h => ?_⟩
      obtain rfl := Option.some.inj h
      exact hsteady₂
  refine ⟨s₀, _, hloaded, _, rfl, hstep, ?_⟩
  obtain ⟨-, info, hkept₂, -⟩ := sbrk_run demoStack s₀ demoInfo _ _ hloaded hstep
    (fun x hx => (hmem x hx).1) fun x hx => (hmem x hx).2
  refine ⟨info, hkept₂, ?_⟩
  have hsame : info₂ = info := Option.some.inj (congrArg Process.progInfo hkept₂.proc)
  rw [hdown] at hmoved'
  have hint : (info₂.programBreak : ℤ) = info₁.programBreak + -0x1000 := hmoved'
  rw [← hsame]
  omega

/-- **Two pages at once**: the one between is not mapped. -/
theorem page_between_missing : ∃ s₀ call s, Loaded demoStack s₀ demoInfo ∧ Offered s₀ call ∧
    call = ⟨0x2000, [0x1404000, 0x1405000], 0x1800⟩ ∧ SbrkStep s₀ call s ∧
    ∀ info, ¬ HeapKept demoStack s₀ demoInfo s info := by
  obtain ⟨s₀, hloaded, hoffered⟩ := demoInfo_loaded
  obtain ⟨call, hcall⟩ : ∃ call : Call, call = ⟨0x2000, [0x1404000, 0x1405000], 0x1800⟩ := ⟨_, rfl⟩
  have hoffered' : Offered s₀ call := hcall ▸ hoffered _ _
  have hans : (s₀.before call).answers = 0x1404000 :: [0x1405000] := by
    rw [hcall]
    rfl
  have hdir : Directory (s₀.before call).word s₀.proc.pageDir := hloaded.directory
  have hfree : translate (s₀.before call).word s₀.proc.pageDir 0x3000 = none :=
    hloaded.above 0x3000 (by decide) (by decide)
  obtain ⟨fuel, m, hmap, -, k, hmaps⟩ := mapPages_one hdir hoffered'.fresh hans (by decide) (by decide) hfree
    (missingTables_page (by decide))
  have hmove : move demoInfo.programBreak call.increse = 0x3800 := by
    rw [hcall]
    decide
  have hpages : movePages fuel (s₀.before call) s₀.proc.pageDir demoInfo.programBreak 0x3800 = some m := by
    have halloc : (s₀.before call).pageAlloc.2 = 0x1404000 := by
      rw [pageAlloc_cons hans (by decide)]
    rw [movePages, if_neg (by decide), if_neg (by decide)]
    show (mapPages fuel (s₀.before call).pageAlloc.1 s₀.proc.pageDir 0x3000 (s₀.before call).pageAlloc.2 0x1000
      heapAttr).map Prod.fst = _
    rw [halloc, hmap]
    rfl
  obtain ⟨info', hinfo'⟩ : ∃ info', info' = if call.increse = 0 then demoInfo
      else { demoInfo with programBreak := 0x3800, programSize := move demoInfo.programSize call.increse } := ⟨_, rfl⟩
  have hrun : memSbrk fuel (s₀.before call) s₀.proc call.increse =
      some (m, { s₀.proc with progInfo := some info' }, call.returned) := by
    rw [memSbrk, hloaded.progInfo]
    show (movePages fuel (s₀.before call) s₀.proc.pageDir demoInfo.programBreak
      (move demoInfo.programBreak call.increse)).map _ = _
    rw [hmove, hpages, hinfo', hcall]
    rfl
  refine ⟨s₀, call, _, hloaded, hoffered', hcall, SbrkStep.call hrun, fun info hkept => ?_⟩
  obtain rfl : info = info' := by
    have hproc := congrArg Process.progInfo hkept.proc
    exact (Option.some.inj hproc).symm
  have hbreak : info.programBreak = 0x3800 ∧ info.imageStart = 0x1000 := by
    rw [hinfo', hcall]
    exact ⟨rfl, rfl⟩
  have hbetween : translate m.word s₀.proc.pageDir 0x2000 = none := by
    rw [hmaps.walk 0x2000 (by decide) (by decide)]
    exact hloaded.above 0x2000 (by decide) (by decide)
  exact hkept.image 0x2000 (by rw [hbreak.2]; decide) (by rw [hbreak.1]; decide) hbetween

end OmochaOS.Sbrk
