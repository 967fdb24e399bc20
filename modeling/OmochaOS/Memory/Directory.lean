import OmochaOS.Memory.PageTables

/-!
# Page directories as they are kept

The page tables of a directory are frames of their own (`Directory`), and the frames that `page_alloc`
answers are not in use (`Fresh`).  One lemma says what the write of a word in a frame does to the words of
the others, and from it follow the two writes that there are: an entry of a page table (`pteOf_store`)
and a new page table (`newTable_spec`).
-/

namespace OmochaOS.PageTables

open ByteMemory Paging

variable {m m' : Space} {pgDir va f g t w a i j : ℕ}

/-- The page table that an entry of the directory leads to. -/
def tableOf (word : ℕ → ℕ) (pgDir i : ℕ) : Option ℕ :=
  let pde := word (pgDir + 4 * i)
  if present pde = true ∧ large pde = false then some (pageOf pde) else none

/-- A page directory: its page tables are frames, each of one entry, and none is the directory. -/
structure Directory (word : ℕ → ℕ) (pgDir : ℕ) : Prop where
  frame : pgDir % 0x1000 = 0
  ne_null : ∀ i < 1024, tableOf word pgDir i ≠ some 0
  ne_self : ∀ i < 1024, tableOf word pgDir i ≠ some pgDir
  unique : ∀ i < 1024, ∀ j < 1024, ∀ t, tableOf word pgDir i = some t → tableOf word pgDir j = some t →
    i = j

/-- The frame is neither the directory nor one of its page tables. -/
def Outside (word : ℕ → ℕ) (pgDir f : ℕ) : Prop :=
  f ≠ pgDir ∧ ∀ i < 1024, tableOf word pgDir i ≠ some f

/-- What `page_alloc` answers from now on are frames that the directory does not use. -/
structure Fresh (m : Space) (pgDir : ℕ) : Prop where
  nodup : m.answers.Nodup
  frame : ∀ f ∈ m.answers, f % 0x1000 = 0 ∧ f ≠ 0 ∧ f < 2 ^ 32
  outside : ∀ f ∈ m.answers, Outside m.word pgDir f

theorem tableOf_eq_some {word : ℕ → ℕ} (h : tableOf word pgDir i = some t) :
    present (word (pgDir + 4 * i)) = true ∧ large (word (pgDir + 4 * i)) = false ∧
      pageOf (word (pgDir + 4 * i)) = t := by
  simp only [tableOf, ite_eq_iff, reduceCtorEq, and_false, or_false, Option.some.injEq] at h
  exact ⟨h.1.1, h.1.2, h.2⟩

theorem tableOf_frame {word : ℕ → ℕ} (h : tableOf word pgDir i = some t) : t % 0x1000 = 0 := by
  rw [← (tableOf_eq_some h).2.2]
  exact pageOf_mod

theorem tableOf_congr {word word' : ℕ → ℕ} (h : word' (pgDir + 4 * i) = word (pgDir + 4 * i)) :
    tableOf word' pgDir i = tableOf word pgDir i := by
  rw [tableOf, tableOf, h]

/-! ### Words of frames -/

/-- A word of a frame is written: the words of the frames before and after. -/
theorem word_store (hf : f % 0x1000 = 0) (hg : g % 0x1000 = 0) (hi : i < 1024) (hj : j < 1024)
    (hw : w < 2 ^ 32) :
    (m.store (f + 4 * i) w).word (g + 4 * j) = if g = f ∧ j = i then w else m.word (g + 4 * j) := by
  split
  · rename_i h
    obtain ⟨rfl, rfl⟩ := h
    exact readWord_writeWord hw
  · rename_i h
    apply readWord_writeWord_of_disjoint
    omega

theorem word_store_of_ne (hf : f % 0x1000 = 0) (hg : g % 0x1000 = 0) (hi : i < 1024) (hj : j < 1024)
    (h : g ≠ f ∨ j ≠ i) : (m.store (f + 4 * i) w).word (g + 4 * j) = m.word (g + 4 * j) := by
  apply readWord_writeWord_of_disjoint
  omega

/-- The bytes of another frame. -/
theorem agreeOn_store (hf : f % 0x1000 = 0) (hg : g % 0x1000 = 0) (hi : i < 1024) (h : g ≠ f) :
    AgreeOn (m.store (f + 4 * i) w).bytes m.bytes g 0x1000 := by
  apply agreeOn_writeWord
  omega

theorem word_clearPage (hj : j < 1024) : (m.clearPage f).word (f + 4 * j) = 0 := by
  apply readWord_fill
  omega

theorem word_clearPage_of_ne (hf : f % 0x1000 = 0) (hg : g % 0x1000 = 0) (hj : j < 1024) (h : g ≠ f) :
    (m.clearPage f).word (g + 4 * j) = m.word (g + 4 * j) := by
  apply readWord_fill_of_disjoint
  omega

theorem agreeOn_clearPage (hf : f % 0x1000 = 0) (hg : g % 0x1000 = 0) (h : g ≠ f) :
    AgreeOn (m.clearPage f).bytes m.bytes g 0x1000 := by
  apply agreeOn_fill
  omega

theorem word_copyPage (hj : j < 1024) : (m.copyPage f g).word (f + 4 * j) = m.word (g + 4 * j) := by
  apply readWord_copy
  omega

theorem word_copyPage_of_ne {h : ℕ} (hf : f % 0x1000 = 0) (hh : h % 0x1000 = 0) (hj : j < 1024)
    (hne : h ≠ f) : (m.copyPage f g).word (h + 4 * j) = m.word (h + 4 * j) := by
  apply readWord_copy_of_disjoint
  omega

theorem word_lt (m : Space) (a : ℕ) : m.word a < 2 ^ 32 := readWord_lt _ _

/-! ### Reference counts -/

/-- Frames are counted apart. -/
theorem pageId_inj (hf : f % 0x1000 = 0) (hg : g % 0x1000 = 0) (hf32 : f < 2 ^ 32) (hg32 : g < 2 ^ 32) :
    m.pageId f = m.pageId g ↔ f = g := by
  obtain ⟨hstart, hstart32⟩ := m.aligned
  simp only [Space.pageId, Buddy.subUint, Buddy.pgSize]
  omega

theorem reference_addReference {n : ℤ} : (m.addReference f n).reference =
    Function.update m.reference (m.pageId f) (m.pageReference f + n) := rfl

theorem pageId_addReference {n : ℤ} : (m.addReference f n).pageId g = m.pageId g := rfl

theorem pageReference_addReference_self {n : ℤ} :
    (m.addReference f n).pageReference f = m.pageReference f + n := by
  rw [Space.pageReference, reference_addReference, pageId_addReference, Function.update_self]

/-- The counts of the other frames stay. -/
theorem pageReference_addReference {n : ℤ} (h : m.pageId g ≠ m.pageId f) :
    (m.addReference f n).pageReference g = m.pageReference g := by
  rw [Space.pageReference, reference_addReference, pageId_addReference, Function.update_of_ne h,
    Space.pageReference]

/-! ### Walks through the directory -/

/-- The entry for an address in the page table it has. -/
theorem pteOf_eq {word : ℕ → ℕ} (h : tableOf word pgDir (dirIndex va) = some t) :
    pteOf word (pdeOf word pgDir va) va = word (t + 4 * tabIndex va) := by
  have ht : pageOf (pdeOf word pgDir va) = t := (tableOf_eq_some h).2.2
  rw [pteOf, ht, tabIndex]

theorem getPte_eq {word : ℕ → ℕ} (h : tableOf word pgDir (dirIndex va) = some t) :
    getPte word pgDir va = t + 4 * tabIndex va := by
  obtain ⟨hp, -, ht⟩ := tableOf_eq_some h
  have hp' : ¬ present (pdeOf word pgDir va) = false := by
    rw [Bool.not_eq_false]
    exact hp
  have ht' : pageOf (pdeOf word pgDir va) = t := ht
  rw [getPte, if_neg hp', ht', tabIndex]

theorem translate_eq {word : ℕ → ℕ} (h : tableOf word pgDir (dirIndex va) = some t) :
    translate word pgDir va =
      if present (word (t + 4 * tabIndex va)) = false then none
      else some (pageOf (word (t + 4 * tabIndex va)) + va % 2 ^ 12) := by
  obtain ⟨hp, hl, -⟩ := tableOf_eq_some h
  have hp' : ¬ present (pdeOf word pgDir va) = false := by
    rw [Bool.not_eq_false]
    exact hp
  have hl' : ¬ large (pdeOf word pgDir va) = true := by
    rw [Bool.not_eq_true]
    exact hl
  simp only [Paging.translate, if_neg hp', if_neg hl', pteOf_eq h]

theorem vir2phy_eq {word : ℕ → ℕ} (h : tableOf word pgDir (dirIndex va) = some t) :
    vir2phy word pgDir va = (pageOf (word (t + 4 * tabIndex va)) + va % 2 ^ 12) % 2 ^ 32 := by
  obtain ⟨hp, hl, -⟩ := tableOf_eq_some h
  have hp' : ¬ present (pdeOf word pgDir va) = false := by
    rw [Bool.not_eq_false]
    exact hp
  have hl' : ¬ large (pdeOf word pgDir va) = true := by
    rw [Bool.not_eq_true]
    exact hl
  simp only [vir2phy, if_neg hp', if_neg hl', pteOf_eq h]

/-- Where the walk depends on the directory entry alone. -/
theorem translate_of_tableOf_none {word : ℕ → ℕ} (h : tableOf word pgDir (dirIndex va) = none) :
    translate word pgDir va =
      if present (pdeOf word pgDir va) = false then none
      else some (pdeOf word pgDir va / 2 ^ 22 * 2 ^ 22 + va % 2 ^ 22) := by
  have hnot : ¬ (present (pdeOf word pgDir va) = true ∧ large (pdeOf word pgDir va) = false) := by
    intro hand
    rw [tableOf] at h
    have hand' : present (word (pgDir + 4 * dirIndex va)) = true ∧
        large (word (pgDir + 4 * dirIndex va)) = false := hand
    simp only [if_pos hand', reduceCtorEq] at h
  simp only [Paging.translate]
  split
  · rfl
  · rename_i hp
    rw [Bool.not_eq_false] at hp
    have hl : large (pdeOf word pgDir va) = true := by
      by_contra hl
      rw [Bool.not_eq_true] at hl
      exact hnot ⟨hp, hl⟩
    rw [if_pos hl]

/-- The walk depends on the entry of the directory, and on the entry of the page table. -/
theorem translate_congr {word word' : ℕ → ℕ}
    (hpde : word' (pgDir + 4 * dirIndex va) = word (pgDir + 4 * dirIndex va))
    (hpte : ∀ t, tableOf word pgDir (dirIndex va) = some t →
      word' (t + 4 * tabIndex va) = word (t + 4 * tabIndex va)) :
    translate word' pgDir va = translate word pgDir va := by
  have htab : tableOf word' pgDir (dirIndex va) = tableOf word pgDir (dirIndex va) := tableOf_congr hpde
  cases h : tableOf word pgDir (dirIndex va) with
  | none =>
    have hpde' : pdeOf word' pgDir va = pdeOf word pgDir va := hpde
    rw [translate_of_tableOf_none h, translate_of_tableOf_none (htab.trans h), hpde']
  | some t => rw [translate_eq h, translate_eq (htab.trans h), hpte t h]

/-- A directory without page tables. -/
theorem directory_of_none {word : ℕ → ℕ} (hframe : pgDir % 0x1000 = 0)
    (h : ∀ i < 1024, tableOf word pgDir i = none) : Directory word pgDir where
  frame := hframe
  ne_null i hi := by simp [h i hi]
  ne_self i hi := by simp [h i hi]
  unique i hi j hj t hit := by simp [h i hi] at hit

/-- Directories with the same entries. -/
theorem Directory.congr {word word' : ℕ → ℕ} (h : Directory word pgDir)
    (hpde : ∀ i < 1024, word' (pgDir + 4 * i) = word (pgDir + 4 * i)) : Directory word' pgDir where
  frame := h.frame
  ne_null i hi := by
    rw [tableOf_congr (hpde i hi)]
    exact h.ne_null i hi
  ne_self i hi := by
    rw [tableOf_congr (hpde i hi)]
    exact h.ne_self i hi
  unique i hi j hj t hit hjt := by
    rw [tableOf_congr (hpde i hi)] at hit
    rw [tableOf_congr (hpde j hj)] at hjt
    exact h.unique i hi j hj t hit hjt

theorem Outside.congr {word word' : ℕ → ℕ} (h : Outside word pgDir f)
    (hpde : ∀ i < 1024, word' (pgDir + 4 * i) = word (pgDir + 4 * i)) : Outside word' pgDir f := by
  refine ⟨h.1, fun i hi => ?_⟩
  rw [tableOf_congr (hpde i hi)]
  exact h.2 i hi

/-! ### An entry of a page table -/

section Entry

variable (hdir : Directory m.word pgDir) (ht : tableOf m.word pgDir (dirIndex va) = some t)
include hdir ht

theorem table_ne_dir : t ≠ pgDir := by
  rintro rfl
  exact hdir.ne_self _ dirIndex_lt ht

/-- The entries of the directory stay when one of a page table is written. -/
theorem pde_store (hi : i < 1024) :
    (m.store (t + 4 * tabIndex va) w).word (pgDir + 4 * i) = m.word (pgDir + 4 * i) := by
  have hne := table_ne_dir hdir ht
  exact word_store_of_ne (tableOf_frame ht) hdir.frame tabIndex_lt hi (Or.inl hne.symm)

/-- The other entries of the page tables stay. -/
theorem pte_store (ha : a < 2 ^ 32) (hva : va < 2 ^ 32) (hne : pageOf a ≠ pageOf va)
    (hg : tableOf m.word pgDir (dirIndex a) = some g) :
    (m.store (t + 4 * tabIndex va) w).word (g + 4 * tabIndex a) = m.word (g + 4 * tabIndex a) := by
  apply word_store_of_ne (tableOf_frame ht) (tableOf_frame hg) tabIndex_lt tabIndex_lt
  by_cases hgt : g = t
  · right
    subst hgt
    intro htab
    have hindex := hdir.unique _ dirIndex_lt _ dirIndex_lt g hg ht
    exact hne ((pageOf_eq_iff ha hva).mpr ⟨hindex, htab⟩)
  · exact Or.inl hgt

/-- The other pages are where they were. -/
theorem translate_store (ha : a < 2 ^ 32) (hva : va < 2 ^ 32) (hne : pageOf a ≠ pageOf va) :
    translate (m.store (t + 4 * tabIndex va) w).word pgDir a = translate m.word pgDir a := by
  apply translate_congr
  · exact pde_store hdir ht dirIndex_lt
  · intro g hg
    exact pte_store hdir ht ha hva hne hg

omit hdir in
theorem pte_store_self (hw : w < 2 ^ 32) :
    (m.store (t + 4 * tabIndex va) w).word (t + 4 * tabIndex va) = w := by
  rw [word_store (tableOf_frame ht) (tableOf_frame ht) tabIndex_lt tabIndex_lt hw, if_pos ⟨rfl, rfl⟩]

theorem directory_store : Directory (m.store (t + 4 * tabIndex va) w).word pgDir :=
  hdir.congr fun _ hi => pde_store hdir ht hi

end Entry

/-! ### A new page table -/

/-- A page table is cleared and put in the directory. -/
def Space.addTable (m : Space) (pgDir va f attr : ℕ) : Space :=
  (m.clearPage f).store (pgDir + 4 * dirIndex va) (f ||| pgPresent ||| attr)

theorem tableEntry_lt {attr : ℕ} (hf32 : f < 2 ^ 32) (hattr : attr < 0x1000) :
    f ||| pgPresent ||| attr < 2 ^ 32 := by
  apply Nat.or_lt_two_pow
  · exact Nat.or_lt_two_pow hf32 (by decide)
  · omega

theorem tableEntry_page {attr : ℕ} (hf : f % 0x1000 = 0) (hattr : attr < 0x1000) :
    pageOf (f ||| pgPresent ||| attr) = f := by
  rw [Nat.or_assoc]
  apply pageOf_or hf
  exact Nat.or_lt_two_pow (n := 12) (by decide) hattr

theorem tableEntry_present {attr : ℕ} (hf : f % 0x1000 = 0) :
    present (f ||| pgPresent ||| attr) = true := by
  rw [Nat.or_assoc, present_or hf, present, Nat.testBit_or]
  rfl

theorem tableEntry_large {attr : ℕ} (hf : f % 0x1000 = 0) (hlarge : large attr = false) :
    large (f ||| pgPresent ||| attr) = false := by
  have h : large pgPresent = false := rfl
  rw [Nat.or_assoc, large_or hf, large, Nat.testBit_or]
  rw [large] at h hlarge
  rw [h, hlarge]
  rfl

section Table

variable (va) {attr : ℕ} (hdir : Directory m.word pgDir) (hf : f % 0x1000 = 0) (hf32 : f < 2 ^ 32)
  (hout : Outside m.word pgDir f) (hattr : attr < 0x1000)
include hdir hf hf32 hout hattr

theorem pde_addTable (hi : i < 1024) : (m.addTable pgDir va f attr).word (pgDir + 4 * i) =
    if i = dirIndex va then f ||| pgPresent ||| attr else m.word (pgDir + 4 * i) := by
  rw [Space.addTable, word_store hdir.frame hdir.frame dirIndex_lt hi (tableEntry_lt hf32 hattr)]
  simp only [true_and]
  split
  · rfl
  · exact word_clearPage_of_ne hf hdir.frame hi hout.1.symm

theorem tableOf_addTable (hlarge : large attr = false) (hi : i < 1024) :
    tableOf (m.addTable pgDir va f attr).word pgDir i =
      if i = dirIndex va then some f else tableOf m.word pgDir i := by
  have hpde := pde_addTable va hdir hf hf32 hout hattr hi
  by_cases h : i = dirIndex va
  · rw [if_pos h] at hpde ⊢
    simp only [tableOf, hpde]
    rw [if_pos ⟨tableEntry_present hf, tableEntry_large hf hlarge⟩, tableEntry_page hf hattr]
  · rw [if_neg h] at hpde ⊢
    exact tableOf_congr hpde

omit hf32 hattr in
/-- The entries of the new page table are empty. -/
theorem pte_addTable (hj : j < 1024) : (m.addTable pgDir va f attr).word (f + 4 * j) = 0 := by
  rw [Space.addTable, word_store_of_ne hdir.frame hf dirIndex_lt hj (Or.inl hout.1)]
  exact word_clearPage hj

omit hf32 hout hattr in
/-- The other frames stay. -/
theorem agreeOn_addTable (hg : g % 0x1000 = 0) (hgf : g ≠ f) (hgd : g ≠ pgDir) :
    AgreeOn (m.addTable pgDir va f attr).bytes m.bytes g 0x1000 := by
  have h₁ : AgreeOn (m.clearPage f).bytes m.bytes g 0x1000 := agreeOn_clearPage hf hg hgf
  exact (agreeOn_store hdir.frame hg dirIndex_lt hgd).trans h₁

theorem directory_addTable (hlarge : large attr = false) (hf0 : f ≠ 0) :
    Directory (m.addTable pgDir va f attr).word pgDir := by
  have htab : ∀ {i : ℕ}, i < 1024 → _ :=
    fun hi => tableOf_addTable va hdir hf hf32 hout hattr hlarge hi
  constructor
  case frame => exact hdir.frame
  case ne_null =>
    intro i hi
    rw [htab hi]
    split
    · simpa using hf0
    · exact hdir.ne_null i hi
  case ne_self =>
    intro i hi
    rw [htab hi]
    split
    · simpa using hout.1
    · exact hdir.ne_self i hi
  case unique =>
    intro i hi j hj t hit hjt
    rw [htab hi] at hit
    rw [htab hj] at hjt
    split at hit
    · split at hjt
      · omega
      · obtain rfl := Option.some.inj hit
        exact absurd hjt (hout.2 j hj)
    · split at hjt
      · obtain rfl := Option.some.inj hjt
        exact absurd hit (hout.2 i hi)
      · exact hdir.unique i hi j hj t hit hjt

/-- Nothing is mapped or unmapped by an empty page table. -/
theorem translate_addTable (hlarge : large attr = false) (ha : present (pdeOf m.word pgDir va) = false) :
    translate (m.addTable pgDir va f attr).word pgDir a = translate m.word pgDir a := by
  by_cases hi : dirIndex a = dirIndex va
  · have htab := tableOf_addTable va hdir hf hf32 hout hattr hlarge (dirIndex_lt : dirIndex a < 1024)
    rw [if_pos hi] at htab
    have hpde : pdeOf m.word pgDir a = pdeOf m.word pgDir va := by
      show m.word (pgDir + 4 * dirIndex a) = m.word (pgDir + 4 * dirIndex va)
      rw [hi]
    rw [translate_eq htab, pte_addTable va hdir hf hout tabIndex_lt, if_pos (by decide)]
    simp only [Paging.translate, hpde, if_pos ha]
  · apply translate_congr
    · rw [pde_addTable va hdir hf hf32 hout hattr dirIndex_lt, if_neg hi]
    · intro t ht
      have htf : t ≠ f := by
        rintro rfl
        exact hout.2 _ dirIndex_lt ht
      have htd : t ≠ pgDir := by
        rintro rfl
        exact hdir.ne_self _ dirIndex_lt ht
      apply (agreeOn_addTable va hdir hf (tableOf_frame ht) htf htd).readWord
      have hlt : tabIndex a < 1024 := tabIndex_lt
      omega

end Table

end OmochaOS.PageTables
