import OmochaOS.Kernel.Process
import OmochaOS.Lib.BitFlags
import OmochaOS.Memory.MapPages

/-!
# Page faults (`modules/memory/pagefault.c`)

A fork leaves the pages of both processes read-only and counts them twice.  `do_page_fault` goes by the
count of the frame alone: with one reference the page is made writable, with more the caller gets a
copy, and a page table of its own if the table is shared.

`Granted` says what happens to the memory in all of these cases, from the frame, the page table and the
entry that the page has afterwards.
-/

namespace OmochaOS.PageTables

open ByteMemory Kernel Paging

variable {m m' : Space} {pgDir va old f g t t' e a i j : ℕ} {status : BitVec 32}

/-- `PG_Present | PG_User | PG_Writable`. -/
def pgAll : ℕ := pgPresent ||| pgUser ||| pgWritable

/-- `do_page_fault`: the caller gets a page table of its own. -/
def ownTable (m : Space) (pgDir va : ℕ) : Space :=
  let pde := pgDir + 4 * dirIndex va
  let pgTab := pageOf (m.word pde)
  let pgRef := m.pageReference pgTab
  if pgRef = 1 then m
  else if 1 < pgRef then
    let m := m.decreasePageRef pgTab
    let r := m.pageAlloc
    let newPgTab := r.2
    (r.1.copyPage newPgTab pgTab).store pde (newPgTab ||| pgAll)
  else m

/-- `do_page_fault`: the memory and the status of the caller. -/
def doPageFault (m : Space) (pgDir va : ℕ) (status : BitVec 32) : Space × BitVec 32 :=
  let pa := vir2phy m.word pgDir va
  let ref := m.pageReference (pageOf pa)
  if ref = 1 then
    let pte := getPte m.word pgDir va
    (m.store pte (setWritable (m.word pte)), BitFlags.drop status procStatusError)
  else if 1 < ref then
    let oldPa := pageOf pa
    let r := m.pageAlloc
    let newPa := r.2
    let m := (r.1.copyPage newPa oldPa).decreasePageRef oldPa
    let m := ownTable m pgDir va
    (m.store (getPte m.word pgDir va) (newPa ||| pgAll), BitFlags.drop status procStatusError)
  else (m, status)

/-- The entry that an address has in its page table, when both levels are present. -/
def entryOf (word : ℕ → ℕ) (pgDir a : ℕ) : Option ℕ :=
  match tableOf word pgDir (dirIndex a) with
  | none => none
  | some t => if present (word (t + 4 * tabIndex a)) then some (word (t + 4 * tabIndex a)) else none

/-- The memory after the page of `va` has got the entry `e` in the page table `t'`: the page is in the frame
`f` with the bytes of `old`, and `t'` is the table `t` or a copy of it. -/
structure Granted (m m' : Space) (pgDir va old t f t' e : ℕ) : Prop where
  frame : pageOf e = f
  present : present e = true
  writable : writable e = true
  user : user (m.word (t + 4 * tabIndex va)) = true → user e = true
  table : tableOf m'.word pgDir (dirIndex va) = some t'
  pde : t' = t ∧ m'.word (pgDir + 4 * dirIndex va) = m.word (pgDir + 4 * dirIndex va) ∨
    m'.word (pgDir + 4 * dirIndex va) = t' ||| pgAll
  pdes : ∀ i < 1024, i ≠ dirIndex va → m'.word (pgDir + 4 * i) = m.word (pgDir + 4 * i)
  entry : m'.word (t' + 4 * tabIndex va) = e
  entries : ∀ j < 1024, j ≠ tabIndex va → m'.word (t' + 4 * j) = m.word (t + 4 * j)
  page : ∀ x < 0x1000, m'.bytes (f + x) = m.bytes (old + x)
  kept : ∀ g, g % 0x1000 = 0 → g ≠ f → g ≠ t' → g ≠ pgDir → AgreeOn m'.bytes m.bytes g 0x1000
  alone : f ≠ 0 → m'.pageReference f = 1
  own : t' ≠ t → t' ≠ 0 → m'.pageReference t' = 1
  reference : ∀ g, g % 0x1000 = 0 → g < 2 ^ 32 → g ≠ f → (t' ≠ t → g ≠ t') →
    m'.pageReference g =
      m.pageReference g - (if g = old then 1 else 0) - if t' ≠ t ∧ g = t then 1 else 0

/-- The entry that `do_page_fault` makes for a copy. -/
theorem pgAll_entry (hf : f % 0x1000 = 0) (hf32 : f < 2 ^ 32) :
    f ||| pgAll < 2 ^ 32 ∧ pageOf (f ||| pgAll) = f ∧ Paging.present (f ||| pgAll) = true ∧
      large (f ||| pgAll) = false ∧ Paging.writable (f ||| pgAll) = true ∧
      Paging.user (f ||| pgAll) = true :=
  ⟨Nat.or_lt_two_pow hf32 (by decide), pageOf_or hf (by decide), (present_or hf).trans rfl,
    (large_or hf).trans rfl, (writable_or hf).trans rfl, (user_or hf).trans rfl⟩

/-! ### A frame with one reference -/

section Walk

variable (hdir : Directory m.word pgDir) (ht : tableOf m.word pgDir (dirIndex va) = some t)
include ht

theorem pageOf_vir2phy :
    pageOf (vir2phy m.word pgDir va) = pageOf (m.word (t + 4 * tabIndex va)) := by
  have hlt := word_lt m (t + 4 * tabIndex va)
  rw [vir2phy_eq ht]
  simp only [pageOf]
  omega

theorem doPageFault_alone (status : BitVec 32) (href : m.pageReference (pageOf (m.word (t + 4 * tabIndex va))) = 1) :
    doPageFault m pgDir va status =
      (m.store (t + 4 * tabIndex va) (setWritable (m.word (t + 4 * tabIndex va))),
        BitFlags.drop status procStatusError) := by
  rw [doPageFault]
  simp only [pageOf_vir2phy ht, getPte_eq ht, if_pos href]

include hdir in
theorem granted_alone (hp : present (m.word (t + 4 * tabIndex va)) = true)
    (hout : Outside m.word pgDir (pageOf (m.word (t + 4 * tabIndex va))))
    (href : m.pageReference (pageOf (m.word (t + 4 * tabIndex va))) = 1) :
    Granted m (m.store (t + 4 * tabIndex va) (setWritable (m.word (t + 4 * tabIndex va)))) pgDir va
      (pageOf (m.word (t + 4 * tabIndex va))) t (pageOf (m.word (t + 4 * tabIndex va))) t
      (setWritable (m.word (t + 4 * tabIndex va))) where
  frame := pageOf_setWritable
  present := present_setWritable.trans hp
  writable := writable_setWritable
  user h := user_setWritable.trans h
  table := by
    rw [tableOf_congr (pde_store hdir ht dirIndex_lt)]
    exact ht
  pde := Or.inl ⟨rfl, pde_store hdir ht dirIndex_lt⟩
  pdes i hi _ := pde_store hdir ht hi
  entry := pte_store_self ht (setWritable_lt (word_lt m _))
  entries j hj hne := word_store_of_ne (tableOf_frame ht) (tableOf_frame ht) tabIndex_lt hj (Or.inr hne)
  page x hx := by
    have hne : pageOf (m.word (t + 4 * tabIndex va)) ≠ t := by
      intro he
      exact hout.2 _ dirIndex_lt (he ▸ ht)
    apply agreeOn_store (tableOf_frame ht) pageOf_mod tabIndex_lt hne
    · omega
    · omega
  kept g hg _ hgt _ := agreeOn_store (tableOf_frame ht) hg tabIndex_lt hgt
  alone _ := href
  own h := absurd rfl h
  reference g _ _ hgf _ := by
    rw [if_neg hgf, if_neg (by simp), Int.sub_zero, Int.sub_zero]
    rfl

end Walk

/-! ### A page that is copied -/

theorem pageAlloc_bytes : m.pageAlloc.1.bytes = m.bytes := by
  rw [Space.pageAlloc]
  split
  · rfl
  · rfl

theorem pageAlloc_memoryStart : m.pageAlloc.1.memoryStart = m.memoryStart := by
  rw [Space.pageAlloc]
  split
  · rfl
  · rfl

theorem pageAlloc_answers : m.pageAlloc.1.answers = m.answers.tail := by
  rw [Space.pageAlloc]
  split
  · rename_i h
    rw [h]
    rfl
  · rename_i h
    rw [h]
    rfl

theorem pageAlloc_page : m.pageAlloc.2 = m.answers.headD 0 := by
  rw [Space.pageAlloc]
  split
  · rename_i h
    rw [h]
    rfl
  · rename_i h
    rw [h]
    rfl

theorem pageId_congr (h : m'.memoryStart = m.memoryStart) : m'.pageId f = m.pageId f := by
  rw [Space.pageId, Space.pageId, h]

theorem pageReference_pageAlloc_self (h : m.answers.headD 0 ≠ 0) :
    m.pageAlloc.1.pageReference (m.answers.headD 0) = 1 := by
  rw [Space.pageReference, pageId_congr pageAlloc_memoryStart, Space.pageAlloc]
  split
  · rename_i hnil
    rw [hnil] at h
    exact absurd rfl h
  · rename_i p rest hcons
    rw [hcons] at h ⊢
    have hp : p ≠ 0 := h
    simp only [if_neg hp, List.headD_cons, Function.update_self]

theorem pageReference_pageAlloc (h : m.pageId g ≠ m.pageId (m.answers.headD 0)) :
    m.pageAlloc.1.pageReference g = m.pageReference g := by
  rw [Space.pageReference, pageId_congr pageAlloc_memoryStart, Space.pageReference, Space.pageAlloc]
  split
  · rfl
  · rename_i p rest hcons
    rw [hcons] at h
    simp only [List.headD_cons] at h
    split
    · rfl
    · exact Function.update_of_ne h _ _

@[simp] theorem pageReference_store {w : ℕ} : (m.store a w).pageReference g = m.pageReference g := rfl

@[simp] theorem pageReference_copyPage : (m.copyPage f old).pageReference g = m.pageReference g := rfl

/-- A frame from `page_alloc` has got the bytes of another, which has one reference less. -/
structure Copied (m m' : Space) (old f : ℕ) : Prop where
  bytes : m'.bytes = copy m.bytes f old 0x1000
  memoryStart : m'.memoryStart = m.memoryStart
  answers : m'.answers = m.answers.tail
  alone : f ≠ 0 → m'.pageReference f = 1
  reference : ∀ g, g % 0x1000 = 0 → g < 2 ^ 32 → g ≠ f →
    m'.pageReference g = m.pageReference g - if g = old then 1 else 0

section Copied

variable (hold : old % 0x1000 = 0) (hold32 : old < 2 ^ 32)
include hold hold32

theorem pageReference_decreasePageRef (hg : g % 0x1000 = 0) (hg32 : g < 2 ^ 32) :
    (m.decreasePageRef old).pageReference g = m.pageReference g - if g = old then 1 else 0 := by
  by_cases h : g = old
  · subst h
    rw [if_pos rfl]
    exact pageReference_addReference_self
  · rw [if_neg h, Int.sub_zero]
    apply pageReference_addReference
    rw [Ne, pageId_inj hg hold hg32 hold32]
    exact h

variable (hf : m.answers.headD 0 % 0x1000 = 0) (hf32 : m.answers.headD 0 < 2 ^ 32)
include hf hf32

/-- The frame of the data: it is taken and copied before the count goes down. -/
theorem copied_page (hne : m.answers.headD 0 ≠ old) :
    Copied m ((m.pageAlloc.1.copyPage m.pageAlloc.2 old).decreasePageRef old) old
      (m.answers.headD 0) where
  bytes := by
    show copy m.pageAlloc.1.bytes m.pageAlloc.2 old 0x1000 = _
    rw [pageAlloc_bytes, pageAlloc_page]
  memoryStart := pageAlloc_memoryStart
  answers := pageAlloc_answers
  alone h := by
    rw [pageReference_decreasePageRef hold hold32 hf hf32, if_neg hne, Int.sub_zero]
    exact pageReference_pageAlloc_self h
  reference g hg hg32 hgf := by
    rw [pageReference_decreasePageRef hold hold32 hg hg32]
    have hid : m.pageId g ≠ m.pageId (m.answers.headD 0) := by
      rw [Ne, pageId_inj hg hf hg32 hf32]
      exact hgf
    have halloc : (m.pageAlloc.1.copyPage m.pageAlloc.2 old).pageReference g = m.pageReference g :=
      pageReference_pageAlloc hid
    rw [halloc]

/-- The page table: its count goes down before the frame is taken. -/
theorem copied_table :
    Copied m ((m.decreasePageRef old).pageAlloc.1.copyPage (m.decreasePageRef old).pageAlloc.2 old) old
      (m.answers.headD 0) where
  bytes := by
    show copy (m.decreasePageRef old).pageAlloc.1.bytes (m.decreasePageRef old).pageAlloc.2 old 0x1000 = _
    rw [pageAlloc_bytes, pageAlloc_page]
    rfl
  memoryStart := pageAlloc_memoryStart
  answers := pageAlloc_answers
  alone h := pageReference_pageAlloc_self (m := m.decreasePageRef old) h
  reference g hg hg32 hgf := by
    have hid : (m.decreasePageRef old).pageId g ≠
        (m.decreasePageRef old).pageId ((m.decreasePageRef old).answers.headD 0) := by
      show m.pageId g ≠ m.pageId (m.answers.headD 0)
      rw [Ne, pageId_inj hg hf hg32 hf32]
      exact hgf
    have halloc := pageReference_pageAlloc hid
    have hdecr := pageReference_decreasePageRef (m := m) hold hold32 hg hg32
    exact halloc.trans hdecr

end Copied

theorem Copied.word_eq (h : Copied m m' old f) : m'.word = (m.copyPage f old).word := by
  show readWord m'.bytes = readWord (copy m.bytes f old 0x1000)
  rw [h.bytes]

theorem Copied.word (h : Copied m m' old f) (hf : f % 0x1000 = 0) (hg : g % 0x1000 = 0) (hne : g ≠ f)
    (hj : j < 1024) : m'.word (g + 4 * j) = m.word (g + 4 * j) := by
  rw [h.word_eq]
  exact word_copyPage_of_ne hf hg hj hne

theorem Copied.word_self (h : Copied m m' old f) (hj : j < 1024) :
    m'.word (f + 4 * j) = m.word (old + 4 * j) := by
  rw [h.word_eq]
  exact word_copyPage hj

theorem Copied.kept (h : Copied m m' old f) (hf : f % 0x1000 = 0) (hg : g % 0x1000 = 0) (hne : g ≠ f) :
    AgreeOn m'.bytes m.bytes g 0x1000 := by
  rw [h.bytes]
  apply agreeOn_copy
  omega

theorem Copied.page (h : Copied m m' old f) {x : ℕ} (hx : x < 0x1000) :
    m'.bytes (f + x) = m.bytes (old + x) := by
  rw [h.bytes]
  exact copy_of_mem hx

/-- The directory keeps its entries when a frame that it does not use is written. -/
theorem Copied.table_eq (h : Copied m m' old f) (hf : f % 0x1000 = 0) (hdir : pgDir % 0x1000 = 0)
    (hne : f ≠ pgDir) (hi : i < 1024) : tableOf m'.word pgDir i = tableOf m.word pgDir i :=
  tableOf_congr (h.word hf hdir hne.symm hi)

/-! ### The page table of the caller -/

section OwnTable

variable (hdir : Directory m.word pgDir) (ht : tableOf m.word pgDir (dirIndex va) = some t)
include ht

theorem ownTable_of_not_shared (href : ¬ 1 < m.pageReference t) : ownTable m pgDir va = m := by
  have hpage : pageOf (m.word (pgDir + 4 * dirIndex va)) = t := (tableOf_eq_some ht).2.2
  simp only [ownTable, hpage, if_neg href, ite_self]

theorem ownTable_of_shared (href : 1 < m.pageReference t) : ownTable m pgDir va =
    ((m.decreasePageRef t).pageAlloc.1.copyPage (m.decreasePageRef t).pageAlloc.2 t).store
      (pgDir + 4 * dirIndex va) (m.answers.headD 0 ||| pgAll) := by
  have hpage : pageOf (m.word (pgDir + 4 * dirIndex va)) = t := (tableOf_eq_some ht).2.2
  have hne : ¬ m.pageReference t = 1 := by omega
  have hanswer : (m.decreasePageRef t).pageAlloc.2 = m.answers.headD 0 := pageAlloc_page
  simp only [ownTable, hpage, if_neg hne, if_pos href, hanswer]

end OwnTable

/-- `do_page_fault` for a frame with more than one reference. -/
theorem doPageFault_copy (hold : pageOf (vir2phy m.word pgDir va) = old) (href : 1 < m.pageReference old)
    {m₁ : Space} (hcopy : m₁ = (m.pageAlloc.1.copyPage m.pageAlloc.2 old).decreasePageRef old) :
    doPageFault m pgDir va status =
      ((ownTable m₁ pgDir va).store (getPte (ownTable m₁ pgDir va).word pgDir va)
        (m.answers.headD 0 ||| pgAll), BitFlags.drop status procStatusError) := by
  have hne : ¬ m.pageReference old = 1 := by omega
  rw [doPageFault, hcopy]
  simp only [hold, if_neg hne, if_pos href, pageAlloc_page]

/-- What `page_alloc` answers is a frame that the directory does not use. -/
structure Usable (m : Space) (pgDir f : ℕ) : Prop where
  frame : f % 0x1000 = 0
  lt : f < 2 ^ 32
  outside : Outside m.word pgDir f

theorem Outside.ne_table {word : ℕ → ℕ} (h : Outside word pgDir f) (hi : i < 1024)
    (ht : tableOf word pgDir i = some t) : t ≠ f :=
  fun he => h.2 i hi (he ▸ ht)

theorem pageOf_word_lt : pageOf (m.word a) < 2 ^ 32 := by
  have hlt := word_lt m a
  simp only [pageOf]
  omega

theorem tableOf_lt (ht : tableOf m.word pgDir i = some t) : t < 2 ^ 32 := by
  rw [← (tableOf_eq_some ht).2.2]
  exact pageOf_word_lt

/-- The entry of the directory for a page table of the caller's own. -/
theorem tableOf_ownEntry (va : ℕ) (hdir : pgDir % 0x1000 = 0) (hg : g % 0x1000 = 0) (hg32 : g < 2 ^ 32) :
    tableOf (m.store (pgDir + 4 * dirIndex va) (g ||| pgAll)).word pgDir (dirIndex va) = some g := by
  obtain ⟨hlt, hpage, hp, hl, -, -⟩ := pgAll_entry hg hg32
  have hword : (m.store (pgDir + 4 * dirIndex va) (g ||| pgAll)).word (pgDir + 4 * dirIndex va) =
      g ||| pgAll := by
    rw [word_store hdir hdir dirIndex_lt dirIndex_lt hlt, if_pos ⟨rfl, rfl⟩]
  simp only [tableOf, hword, if_pos (And.intro hp hl), hpage]

section Grant

variable (hdir : Directory m.word pgDir) (ht : tableOf m.word pgDir (dirIndex va) = some t)
  (hold : pageOf (m.word (t + 4 * tabIndex va)) = old) (hout : Outside m.word pgDir old)
  (href : 1 < m.pageReference old) (hf : Usable m pgDir (m.answers.headD 0))
  (hne : m.answers.headD 0 ≠ old)
include hdir ht hold hout hf hne

/-- The data is copied; the directory and the count of the page table stay. -/
theorem copied_data :
    ∃ m₁, Copied m m₁ old (m.answers.headD 0) ∧
      m₁ = (m.pageAlloc.1.copyPage m.pageAlloc.2 old).decreasePageRef old ∧
      tableOf m₁.word pgDir (dirIndex va) = some t ∧ m₁.pageReference t = m.pageReference t := by
  have hof : old % 0x1000 = 0 := hold ▸ pageOf_mod
  have ho32 : old < 2 ^ 32 := hold ▸ pageOf_word_lt
  have hcopied := copied_page hof ho32 hf.frame hf.lt hne
  refine ⟨_, hcopied, rfl, ?_, ?_⟩
  · exact (hcopied.table_eq hf.frame hdir.frame hf.outside.1 dirIndex_lt).trans ht
  · have htf : t ≠ m.answers.headD 0 := fun he => hf.outside.2 _ dirIndex_lt (he ▸ ht)
    have hto : t ≠ old := fun he => hout.2 _ dirIndex_lt (he ▸ ht)
    rw [hcopied.reference t (tableOf_frame ht) (tableOf_lt ht) htf, if_neg hto, Int.sub_zero]

include href

/-- The page table is the caller's already. -/
theorem doPageFault_private (status : BitVec 32) (htab : ¬ 1 < m.pageReference t) :
    ∃ m₁, Copied m m₁ old (m.answers.headD 0) ∧
      doPageFault m pgDir va status =
        (m₁.store (t + 4 * tabIndex va) (m.answers.headD 0 ||| pgAll),
          BitFlags.drop status procStatusError) := by
  obtain ⟨m₁, hcopied, hcall, ht₁, href₁⟩ := copied_data hdir ht hold hout hf hne
  rw [← href₁] at htab
  refine ⟨m₁, hcopied, ?_⟩
  rw [doPageFault_copy ((pageOf_vir2phy ht).trans hold) href hcall, ownTable_of_not_shared ht₁ htab, getPte_eq ht₁]

/-- The caller gets a page table of its own. -/
theorem doPageFault_shared (status : BitVec 32) (htab : 1 < m.pageReference t)
    (hg : Usable m pgDir (m.answers.tail.headD 0)) :
    ∃ m₁ m₂, Copied m m₁ old (m.answers.headD 0) ∧ Copied m₁ m₂ t (m.answers.tail.headD 0) ∧
      doPageFault m pgDir va status =
        ((m₂.store (pgDir + 4 * dirIndex va) (m.answers.tail.headD 0 ||| pgAll)).store
          (m.answers.tail.headD 0 + 4 * tabIndex va) (m.answers.headD 0 ||| pgAll),
          BitFlags.drop status procStatusError) := by
  obtain ⟨m₁, hcopied, hcall, ht₁, href₁⟩ := copied_data hdir ht hold hout hf hne
  rw [← href₁] at htab
  have hanswer : m₁.answers.headD 0 = m.answers.tail.headD 0 := by rw [hcopied.answers]
  have hcopied₂ := copied_table (m := m₁) (tableOf_frame ht) (tableOf_lt ht) (by rw [hanswer]; exact hg.frame)
    (by rw [hanswer]; exact hg.lt)
  rw [hanswer] at hcopied₂
  refine ⟨m₁, _, hcopied, hcopied₂, ?_⟩
  rw [doPageFault_copy ((pageOf_vir2phy ht).trans hold) href hcall, ownTable_of_shared ht₁ htab, hanswer,
    getPte_eq (tableOf_ownEntry va hdir.frame hg.frame hg.lt)]

end Grant

section Granted

variable (hdir : Directory m.word pgDir) (ht : tableOf m.word pgDir (dirIndex va) = some t)
  {m₁ m₂ : Space} (hf : Usable m pgDir f) (hcopied : Copied m m₁ old f)
include hdir hf hcopied

theorem Copied.pde (hi : i < 1024) : m₁.word (pgDir + 4 * i) = m.word (pgDir + 4 * i) :=
  hcopied.word hf.frame hdir.frame hf.outside.1.symm hi

include ht

theorem granted_private :
    Granted m (m₁.store (t + 4 * tabIndex va) (f ||| pgAll)) pgDir va old t f t (f ||| pgAll) := by
  obtain ⟨hlt, hpage, hp, -, hw, hu⟩ := pgAll_entry hf.frame hf.lt
  have htframe := tableOf_frame ht
  have htf : t ≠ f := hf.outside.ne_table dirIndex_lt ht
  have htd : t ≠ pgDir := table_ne_dir hdir ht
  have hpde : ∀ i < 1024, (m₁.store (t + 4 * tabIndex va) (f ||| pgAll)).word (pgDir + 4 * i) =
      m.word (pgDir + 4 * i) := by
    intro i hi
    rw [word_store_of_ne htframe hdir.frame tabIndex_lt hi (Or.inl htd.symm)]
    exact Copied.pde hdir hf hcopied hi
  constructor
  case frame => exact hpage
  case present => exact hp
  case writable => exact hw
  case user => exact fun _ => hu
  case table =>
    rw [tableOf_congr (hpde _ dirIndex_lt)]
    exact ht
  case pde => exact Or.inl ⟨rfl, hpde _ dirIndex_lt⟩
  case pdes => exact fun i hi _ => hpde i hi
  case entry => rw [word_store htframe htframe tabIndex_lt tabIndex_lt hlt, if_pos ⟨rfl, rfl⟩]
  case entries =>
    intro j hj hne
    rw [word_store_of_ne htframe htframe tabIndex_lt hj (Or.inr hne)]
    exact hcopied.word hf.frame htframe htf hj
  case page =>
    intro x hx
    have hkept := agreeOn_store (m := m₁) (w := f ||| pgAll) htframe hf.frame
      (tabIndex_lt : tabIndex va < 1024) htf.symm
    rw [hkept _ (by omega) (by omega)]
    exact hcopied.page hx
  case kept =>
    intro g hg hgf hgt _
    exact (agreeOn_store htframe hg tabIndex_lt hgt).trans (hcopied.kept hf.frame hg hgf)
  case alone => exact hcopied.alone
  case own => exact fun h => absurd rfl h
  case reference =>
    intro g hg hg32 hgf _
    have hnone : ¬ (t ≠ t ∧ g = t) := fun h => h.1 rfl
    rw [if_neg hnone, Int.sub_zero]
    exact hcopied.reference g hg hg32 hgf

theorem granted_shared (hg : Usable m pgDir g) (hgf : g ≠ f)
    (hcopied₂ : Copied m₁ m₂ t g) :
    Granted m ((m₂.store (pgDir + 4 * dirIndex va) (g ||| pgAll)).store (g + 4 * tabIndex va)
      (f ||| pgAll)) pgDir va old t f g (f ||| pgAll) := by
  obtain ⟨hlt, hpage, hp, -, hw, hu⟩ := pgAll_entry hf.frame hf.lt
  have htframe := tableOf_frame ht
  have htf : t ≠ f := hf.outside.ne_table dirIndex_lt ht
  have htg : t ≠ g := hg.outside.ne_table dirIndex_lt ht
  have hdg : pgDir ≠ g := hg.outside.1.symm
  have hdf : pgDir ≠ f := hf.outside.1.symm
  -- the directory: first what the copies leave of it, then the two stores
  have hpde₂ : ∀ i < 1024, m₂.word (pgDir + 4 * i) = m.word (pgDir + 4 * i) := by
    intro i hi
    rw [hcopied₂.word hg.frame hdir.frame hdg hi]
    exact Copied.pde hdir hf hcopied hi
  have hpde : ∀ i < 1024, ((m₂.store (pgDir + 4 * dirIndex va) (g ||| pgAll)).store
      (g + 4 * tabIndex va) (f ||| pgAll)).word (pgDir + 4 * i) =
      (m₂.store (pgDir + 4 * dirIndex va) (g ||| pgAll)).word (pgDir + 4 * i) :=
    fun i hi => word_store_of_ne hg.frame hdir.frame tabIndex_lt hi (Or.inl hdg)
  have hglt := (pgAll_entry hg.frame hg.lt).1
  have hagree : ∀ h, h % 0x1000 = 0 → h ≠ g → h ≠ pgDir →
      AgreeOn ((m₂.store (pgDir + 4 * dirIndex va) (g ||| pgAll)).store (g + 4 * tabIndex va)
        (f ||| pgAll)).bytes m₁.bytes h 0x1000 := by
    intro h hh hhg hhd
    have h₁ := agreeOn_store (m := m₂.store (pgDir + 4 * dirIndex va) (g ||| pgAll)) (w := f ||| pgAll)
      hg.frame hh (tabIndex_lt : tabIndex va < 1024) hhg
    have h₂ := agreeOn_store (m := m₂) (w := g ||| pgAll) hdir.frame hh (dirIndex_lt : dirIndex va < 1024) hhd
    exact (h₁.trans h₂).trans (hcopied₂.kept hg.frame hh hhg)
  constructor
  case frame => exact hpage
  case present => exact hp
  case writable => exact hw
  case user => exact fun _ => hu
  case table =>
    rw [tableOf_congr (hpde _ dirIndex_lt)]
    exact tableOf_ownEntry va hdir.frame hg.frame hg.lt
  case pde =>
    right
    rw [hpde _ dirIndex_lt, word_store hdir.frame hdir.frame dirIndex_lt dirIndex_lt hglt,
      if_pos ⟨rfl, rfl⟩]
  case pdes =>
    intro i hi hne
    rw [hpde i hi, word_store_of_ne hdir.frame hdir.frame dirIndex_lt hi (Or.inr hne)]
    exact hpde₂ i hi
  case entry => rw [word_store hg.frame hg.frame tabIndex_lt tabIndex_lt hlt, if_pos ⟨rfl, rfl⟩]
  case entries =>
    intro j hj hne
    rw [word_store_of_ne hg.frame hg.frame tabIndex_lt hj (Or.inr hne),
      word_store_of_ne hdir.frame hg.frame dirIndex_lt hj (Or.inl hdg.symm), hcopied₂.word_self hj]
    exact hcopied.word hf.frame htframe htf hj
  case page =>
    intro x hx
    rw [hagree f hf.frame hgf.symm hdf.symm _ (by omega) (by omega)]
    exact hcopied.page hx
  case kept =>
    intro h hh hhf hhg hhd
    exact (hagree h hh hhg hhd).trans (hcopied.kept hf.frame hh hhf)
  case alone =>
    intro hf0
    have href := hcopied₂.reference f hf.frame hf.lt hgf.symm
    rw [if_neg htf.symm, Int.sub_zero, hcopied.alone hf0] at href
    exact href
  case own => exact fun _ => hcopied₂.alone
  case reference =>
    intro h hh hh32 hhf hhg
    have href₂ := hcopied₂.reference h hh hh32 (hhg htg.symm)
    have href₁ := hcopied.reference h hh hh32 hhf
    have hreference : m₂.pageReference h =
        m.pageReference h - (if h = old then 1 else 0) - if g ≠ t ∧ h = t then 1 else 0 := by
      rw [href₂, href₁]
      simp [htg.symm]
    exact hreference

end Granted

/-! ### The entries afterwards -/

theorem entryOf_eq {word : ℕ → ℕ} (ht : tableOf word pgDir (dirIndex a) = some t) :
    entryOf word pgDir a =
      if Paging.present (word (t + 4 * tabIndex a)) then some (word (t + 4 * tabIndex a)) else none := by
  simp only [entryOf, ht]

theorem entryOf_of_present {word : ℕ → ℕ} (ht : tableOf word pgDir (dirIndex a) = some t)
    (hp : present (word (t + 4 * tabIndex a)) = true) :
    entryOf word pgDir a = some (word (t + 4 * tabIndex a)) := by
  rw [entryOf_eq ht, if_pos hp]

theorem entryOf_of_none {word : ℕ → ℕ} (ht : tableOf word pgDir (dirIndex a) = none) :
    entryOf word pgDir a = none := by
  simp only [entryOf, ht]

theorem entryOf_eq_some {word : ℕ → ℕ} (h : entryOf word pgDir a = some e) :
    ∃ t, tableOf word pgDir (dirIndex a) = some t ∧ word (t + 4 * tabIndex a) = e ∧ present e = true := by
  cases ht : tableOf word pgDir (dirIndex a) with
  | none =>
    rw [entryOf_of_none ht] at h
    cases h
  | some t =>
    rw [entryOf_eq ht] at h
    split at h
    · rename_i hp
      cases h
      exact ⟨t, rfl, rfl, hp⟩
    · cases h

/-- The addresses of a page have the same entry. -/
theorem entryOf_page {word : ℕ → ℕ} {b : ℕ} (ha : a < 2 ^ 32) (hb : b < 2 ^ 32)
    (h : pageOf a = pageOf b) : entryOf word pgDir a = entryOf word pgDir b := by
  obtain ⟨hi, hj⟩ := (pageOf_eq_iff ha hb).mp h
  rw [entryOf, entryOf, hi, hj]

theorem entryOf_congr {word word' : ℕ → ℕ}
    (hpde : word' (pgDir + 4 * dirIndex a) = word (pgDir + 4 * dirIndex a))
    (hpte : ∀ t, tableOf word pgDir (dirIndex a) = some t →
      word' (t + 4 * tabIndex a) = word (t + 4 * tabIndex a)) :
    entryOf word' pgDir a = entryOf word pgDir a := by
  have htab : tableOf word' pgDir (dirIndex a) = tableOf word pgDir (dirIndex a) := tableOf_congr hpde
  cases h : tableOf word pgDir (dirIndex a) with
  | none => rw [entryOf_of_none h, entryOf_of_none (htab.trans h)]
  | some t => rw [entryOf_eq h, entryOf_eq (htab.trans h), hpte t h]

section Entries

variable (hdir : Directory m.word pgDir) (ht : tableOf m.word pgDir (dirIndex va) = some t)
  (hout : Outside m.word pgDir f) (hown : t' = t ∨ Outside m.word pgDir t')
  (h : Granted m m' pgDir va old t f t' e)
include h

/-- The page has the new entry. -/
theorem Granted.entryOf_self (hi : dirIndex a = dirIndex va) (hj : tabIndex a = tabIndex va) :
    entryOf m'.word pgDir a = some e := by
  have htab : tableOf m'.word pgDir (dirIndex a) = some t' := by
    rw [hi]
    exact h.table
  rw [entryOf_eq htab, hj, h.entry, if_pos h.present]

/-- The other tables of the directory. -/
theorem Granted.tableOf_of_ne (hi : i < 1024) (hne : i ≠ dirIndex va) :
    tableOf m'.word pgDir i = tableOf m.word pgDir i :=
  tableOf_congr (h.pdes i hi hne)

include hdir ht hown

theorem Granted.ne_own (hi : i < 1024) (hne : i ≠ dirIndex va) (hg : tableOf m.word pgDir i = some g) :
    g ≠ t' := by
  rintro rfl
  rcases hown with rfl | hown
  · exact hne (hdir.unique _ hi _ dirIndex_lt g hg ht)
  · exact hown.2 _ hi hg

include hout

/-- The other pages have the entries they had. -/
theorem Granted.entryOf_of_ne (ha : a < 2 ^ 32) (hva : va < 2 ^ 32) (hne : pageOf a ≠ pageOf va) :
    entryOf m'.word pgDir a = entryOf m.word pgDir a := by
  by_cases hi : dirIndex a = dirIndex va
  · have hj : tabIndex a ≠ tabIndex va := fun hj => hne ((pageOf_eq_iff ha hva).mpr ⟨hi, hj⟩)
    have htab : tableOf m'.word pgDir (dirIndex a) = some t' := by
      rw [hi]
      exact h.table
    have htab₀ : tableOf m.word pgDir (dirIndex a) = some t := by
      rw [hi]
      exact ht
    rw [entryOf_eq htab, entryOf_eq htab₀, h.entries _ tabIndex_lt hj]
  · apply entryOf_congr
    · exact h.pdes _ dirIndex_lt hi
    · intro g hg
      have hlt : tabIndex a < 1024 := tabIndex_lt
      have hgt := h.ne_own hdir ht hown dirIndex_lt hi hg
      have hgd : g ≠ pgDir := fun he => hdir.ne_self _ dirIndex_lt (he ▸ hg)
      exact (h.kept g (tableOf_frame hg) (hout.ne_table dirIndex_lt hg) hgt hgd).readWord (by omega)

end Entries

/-! ### What `do_page_fault` is to grant -/

/-- The pages of a process: none is in frame 0 or in a page table, and what `page_alloc` answers is the
null pointer or a frame that the process does not use. -/
structure Pages (m : Space) (pgDir : ℕ) : Prop where
  directory : Directory m.word pgDir
  ne_null : pgDir ≠ 0
  pages : ∀ a < 2 ^ 32, ∀ e, entryOf m.word pgDir a = some e →
    pageOf e ≠ 0 ∧ Outside m.word pgDir (pageOf e)
  answers : ∀ f ∈ m.answers, f ≠ 0 → Usable m pgDir f ∧
    ∀ a < 2 ^ 32, ∀ e, entryOf m.word pgDir a = some e → pageOf e ≠ f
  nodup : m.answers.Pairwise fun f g => f = g → f = 0

/-- A page of the process that was writable before a fork: the pages in `was` are those. -/
def ForkedPage (m : Space) (pgDir va : ℕ) (was : ℕ → Prop) : Prop :=
  (∃ e, entryOf m.word pgDir va = some e ∧ user e = true) ∧ was (pageOf va)

/-- Nothing changes if the page was not writable before a fork, and in any case no page and no page table
is put at frame 0. -/
structure GrantsNothingNew (m m' : Space) (pgDir va : ℕ) (was : ℕ → Prop)
    (status status' : BitVec 32) : Prop where
  unchanged : ¬ ForkedPage m pgDir va was → m' = m ∧ status' = status
  no_page : ∀ a < 2 ^ 32, ∀ e, entryOf m'.word pgDir a = some e → pageOf e = 0 →
    entryOf m.word pgDir a = some e
  no_table : ∀ i < 1024, tableOf m'.word pgDir i = some 0 → tableOf m.word pgDir i = some 0

/-- When `do_page_fault` grants nothing new.  For an address that is not to be granted, the count that is
looked up has to be below 1, or 1 with nothing to do; for the others the frames that are asked for have to
be there. -/
structure FaultHarmless (m : Space) (pgDir va : ℕ) (was : ℕ → Prop) (status : BitVec 32) : Prop where
  refused : ¬ ForkedPage m pgDir va was →
    m.pageReference (pageOf (vir2phy m.word pgDir va)) < 1 ∨
      m.pageReference (pageOf (vir2phy m.word pgDir va)) = 1 ∧
        writable (m.word (getPte m.word pgDir va)) = true ∧ ¬ BitFlags.Has status procStatusError
  page : ForkedPage m pgDir va was → 1 < m.pageReference (pageOf (vir2phy m.word pgDir va)) →
    m.answers.headD 0 ≠ 0
  table : ForkedPage m pgDir va was → 1 < m.pageReference (pageOf (vir2phy m.word pgDir va)) →
    1 < m.pageReference (pageOf (pdeOf m.word pgDir va)) → m.answers.tail.headD 0 ≠ 0

/-! #### Addresses that are not to be granted -/

theorem pageReference_pageAlloc_le : m.pageAlloc.1.pageReference g ≤ max (m.pageReference g) 1 := by
  rw [Space.pageReference, pageId_congr pageAlloc_memoryStart, Space.pageReference, Space.pageAlloc]
  split
  · exact le_max_left _ _
  · dsimp only
    split
    · exact le_max_left _ _
    · rw [Function.update_apply]
      split
      · exact le_max_right _ _
      · exact le_max_left _ _

theorem pageReference_decreasePageRef_le : (m.decreasePageRef f).pageReference g ≤ m.pageReference g := by
  rw [Space.pageReference, Space.decreasePageRef, reference_addReference, pageId_addReference,
    Function.update_apply]
  split
  · rename_i h
    rw [Space.pageReference, Space.pageReference, h]
    omega
  · exact le_refl _

theorem pageReference_ownTable_le (pgDir va : ℕ) : (ownTable m pgDir va).pageReference g ≤ max (m.pageReference g) 1 := by
  rw [ownTable]
  dsimp only
  split
  · exact le_max_left _ _
  · split
    · have halloc := pageReference_pageAlloc_le
        (m := m.decreasePageRef (pageOf (m.word (pgDir + 4 * dirIndex va)))) (g := g)
      have hdecr := pageReference_decreasePageRef_le (m := m)
        (f := pageOf (m.word (pgDir + 4 * dirIndex va))) (g := g)
      exact halloc.trans (max_le_max hdecr le_rfl)
    · exact le_max_left _ _

/-- A frame that is copied always loses a reference. -/
theorem pageReference_copy_lt (h : 1 < m.pageReference old) :
    (ownTable ((m.pageAlloc.1.copyPage m.pageAlloc.2 old).decreasePageRef old) pgDir va).pageReference
      old < m.pageReference old := by
  have hown := pageReference_ownTable_le pgDir va (g := old)
    (m := (m.pageAlloc.1.copyPage m.pageAlloc.2 old).decreasePageRef old)
  have halloc := pageReference_pageAlloc_le (m := m) (g := old)
  rw [Space.decreasePageRef, pageReference_addReference_self, pageReference_copyPage] at hown
  rw [Space.decreasePageRef]
  omega

theorem pageReference_doPageFault (status : BitVec 32) (hold : pageOf (vir2phy m.word pgDir va) = old)
    (h : 1 < m.pageReference old) :
    (doPageFault m pgDir va status).1.pageReference old < m.pageReference old := by
  rw [doPageFault_copy hold h rfl, pageReference_store]
  exact pageReference_copy_lt h

theorem drop_eq_self {st f : BitVec 32} : BitFlags.drop st f = st ↔ ¬ BitFlags.Has st f := by
  constructor
  · intro h
    rw [← h]
    exact BitFlags.not_has_drop_self
  · intro h
    apply BitVec.eq_of_getLsbD_eq
    intro i _
    rw [BitFlags.getLsbD_drop]
    by_cases hi : f.getLsbD i = true
    · have hclear : st.getLsbD i = false := by
        by_contra hset
        exact h (BitFlags.has_iff_exists.mpr ⟨i, by simpa using hset, hi⟩)
      rw [hclear, Bool.false_and]
    · rw [Bool.not_eq_true] at hi
      rw [hi, Bool.not_false, Bool.and_true]

/-- An entry that is writable stays as it is, and so does the memory. -/
theorem store_setWritable_iff : m.store a (setWritable (m.word a)) = m ↔ writable (m.word a) = true := by
  constructor
  · intro h
    have hword : m.word a = setWritable (m.word a) := by
      have hread : (m.store a (setWritable (m.word a))).word a = setWritable (m.word a) :=
        readWord_writeWord (setWritable_lt (word_lt m a))
      rw [h] at hread
      exact hread
    rw [hword]
    exact writable_setWritable
  · intro h
    have hword : setWritable (m.word a) = m.word a := by
      apply Nat.eq_of_testBit_eq
      intro i
      rw [testBit_setWritable]
      by_cases hi : i = 1
      · subst hi
        have hbit : (m.word a).testBit 1 = true := h
        rw [hbit, Bool.true_or]
      · simp [hi]
    have hbytes : writeWord m.bytes a (m.word a) = m.bytes := writeWord_readWord
    rw [hword, Space.store, hbytes]

/-- **What is not to be granted** stays as it is just when the count that is looked up is below 1, or it is 1
and there is nothing to do. -/
theorem doPageFault_unchanged_iff : doPageFault m pgDir va status = (m, status) ↔
    m.pageReference (pageOf (vir2phy m.word pgDir va)) < 1 ∨
      m.pageReference (pageOf (vir2phy m.word pgDir va)) = 1 ∧
        writable (m.word (getPte m.word pgDir va)) = true ∧ ¬ BitFlags.Has status procStatusError := by
  generalize hold : pageOf (vir2phy m.word pgDir va) = old
  by_cases hone : m.pageReference old = 1
  · have hcall : doPageFault m pgDir va status =
        (m.store (getPte m.word pgDir va) (setWritable (m.word (getPte m.word pgDir va))),
          BitFlags.drop status procStatusError) := by
      rw [doPageFault]
      simp only [hold, if_pos hone]
    have hnot : ¬ m.pageReference old < 1 := by omega
    rw [hcall, Prod.mk.injEq, store_setWritable_iff, drop_eq_self]
    simp [hone]
  · by_cases hmore : 1 < m.pageReference old
    · have hnot : ¬ m.pageReference old < 1 := by omega
      simp only [hone, hnot, false_and, or_false, iff_false]
      intro h
      have hlt := pageReference_doPageFault status hold hmore
      rw [h] at hlt
      exact lt_irrefl _ hlt
    · have hless : m.pageReference old < 1 := by omega
      simp only [hless, true_or, iff_true]
      rw [doPageFault]
      simp only [hold, if_neg hone, if_neg hmore]

/-! #### Pages that are to be granted -/

theorem ForkedPage.table {was : ℕ → Prop} (h : ForkedPage m pgDir va was) :
    ∃ t, tableOf m.word pgDir (dirIndex va) = some t ∧
      entryOf m.word pgDir va = some (m.word (t + 4 * tabIndex va)) ∧
      present (m.word (t + 4 * tabIndex va)) = true := by
  obtain ⟨⟨e, he, -⟩, -⟩ := h
  obtain ⟨t, ht, rfl, hp⟩ := entryOf_eq_some he
  exact ⟨t, ht, he, hp⟩

/-- Nothing is put at frame 0 with a frame and a page table that are not null. -/
theorem Granted.no_null (hpages : Pages m pgDir) (hva : va < 2 ^ 32)
    (ht : tableOf m.word pgDir (dirIndex va) = some t) (hout : Outside m.word pgDir f)
    (hown : t' = t ∨ Outside m.word pgDir t') (h : Granted m m' pgDir va old t f t' e) (hf0 : f ≠ 0)
    (ht0 : t' ≠ 0) :
    (∀ a < 2 ^ 32, ∀ e, entryOf m'.word pgDir a = some e → pageOf e = 0 →
      entryOf m.word pgDir a = some e) ∧
    ∀ i < 1024, tableOf m'.word pgDir i = some 0 → tableOf m.word pgDir i = some 0 := by
  constructor
  · intro a ha e' he' hnull
    by_cases hpage : pageOf a = pageOf va
    · obtain ⟨hi, hj⟩ := (pageOf_eq_iff ha hva).mp hpage
      rw [h.entryOf_self hi hj] at he'
      cases he'
      exact absurd (h.frame.symm.trans hnull) hf0
    · rw [← h.entryOf_of_ne hpages.directory ht hout hown ha hva hpage]
      exact he'
  · intro i hi hnull
    by_cases hne : i = dirIndex va
    · subst hne
      rw [h.table] at hnull
      exact absurd (Option.some.inj hnull) ht0
    · rw [← h.tableOf_of_ne hi hne]
      exact hnull

/-- `page_alloc` answers the null pointer or a frame that can be used. -/
theorem Pages.usable (h : Pages m pgDir) (hf : f = 0 ∨ f ∈ m.answers) : Usable m pgDir f := by
  by_cases hf0 : f = 0
  · subst hf0
    exact ⟨rfl, by decide, h.ne_null.symm, h.directory.ne_null⟩
  · exact (h.answers f (hf.resolve_left hf0) hf0).1

theorem headD_mem : m.answers.headD 0 = 0 ∨ m.answers.headD 0 ∈ m.answers := by
  cases h : m.answers with
  | nil => exact Or.inl rfl
  | cons p rest => exact Or.inr List.mem_cons_self

theorem tail_headD_mem : m.answers.tail.headD 0 = 0 ∨ m.answers.tail.headD 0 ∈ m.answers := by
  cases h : m.answers with
  | nil => exact Or.inl rfl
  | cons p rest =>
    cases rest with
    | nil => exact Or.inl rfl
    | cons q rest => exact Or.inr (List.mem_cons_of_mem _ List.mem_cons_self)

/-- The two frames that are asked for differ, unless both are null. -/
theorem Pages.answers_ne (h : Pages m pgDir) (hg0 : m.answers.tail.headD 0 ≠ 0) :
    m.answers.tail.headD 0 ≠ m.answers.headD 0 := by
  intro heq
  cases hlist : m.answers with
  | nil =>
    rw [hlist] at hg0
    exact hg0 rfl
  | cons p rest =>
    cases rest with
    | nil =>
      rw [hlist] at hg0
      exact hg0 rfl
    | cons q rest =>
      have hnodup := h.nodup
      rw [hlist] at hnodup heq hg0
      have hqp : q = p := heq
      have hnull := (List.pairwise_cons.mp hnodup).1 q List.mem_cons_self hqp.symm
      have hq0 : q ≠ 0 := hg0
      exact hq0 (hqp.trans hnull)

/-- No page and no page table is put at frame 0. -/
def NoNull (m m' : Space) (pgDir : ℕ) : Prop :=
  (∀ a < 2 ^ 32, ∀ e, entryOf m'.word pgDir a = some e → pageOf e = 0 →
    entryOf m.word pgDir a = some e) ∧
  ∀ i < 1024, tableOf m'.word pgDir i = some 0 → tableOf m.word pgDir i = some 0

section Forked

variable (hpages : Pages m pgDir) (hva : va < 2 ^ 32)
  (ht : tableOf m.word pgDir (dirIndex va) = some t)
  (hp : present (m.word (t + 4 * tabIndex va)) = true)
  (hold : pageOf (m.word (t + 4 * tabIndex va)) = old)
include hpages hva ht hp hold

theorem Pages.page : entryOf m.word pgDir va = some (m.word (t + 4 * tabIndex va)) ∧ old ≠ 0 ∧
    Outside m.word pgDir old ∧ (m.answers.headD 0 ≠ 0 → m.answers.headD 0 ≠ old) := by
  have hentry := entryOf_of_present ht hp
  obtain ⟨hold0, hout⟩ := hpages.pages va hva _ hentry
  rw [hold] at hold0 hout
  refine ⟨hentry, hold0, hout, fun hf0 heq => ?_⟩
  have hmem := headD_mem.resolve_left hf0
  exact (hpages.answers _ hmem hf0).2 va hva _ hentry (hold.trans heq.symm)

/-- The frame that is asked for, null or not, is not the one of the page. -/
theorem Pages.answer_ne : m.answers.headD 0 ≠ old := by
  obtain ⟨-, hold0, -, hne⟩ := hpages.page hva ht hp hold
  by_cases hf0 : m.answers.headD 0 = 0
  · rw [hf0]
    exact hold0.symm
  · exact hne hf0

theorem noNull_alone (href : m.pageReference old = 1) :
    NoNull m (doPageFault m pgDir va status).1 pgDir := by
  obtain ⟨-, hold0, hout, -⟩ := hpages.page hva ht hp hold
  subst hold
  have hgranted := granted_alone hpages.directory ht hp hout href
  have ht0 : t ≠ 0 := fun h => hpages.directory.ne_null _ dirIndex_lt (h ▸ ht)
  rw [doPageFault_alone ht status href]
  exact hgranted.no_null hpages hva ht hout (Or.inl rfl) hold0 ht0

theorem noNull_private (href : 1 < m.pageReference old) (htab : ¬ 1 < m.pageReference t)
    (hf0 : m.answers.headD 0 ≠ 0) : NoNull m (doPageFault m pgDir va status).1 pgDir := by
  obtain ⟨-, -, hout, -⟩ := hpages.page hva ht hp hold
  have hf := hpages.usable headD_mem
  have hne := hpages.answer_ne hva ht hp hold
  have ht0 : t ≠ 0 := fun h => hpages.directory.ne_null _ dirIndex_lt (h ▸ ht)
  obtain ⟨m₁, hcopied, hcall⟩ :=
    doPageFault_private hpages.directory ht hold hout href hf hne status htab
  have hgranted := granted_private hpages.directory ht hf hcopied
  rw [hcall]
  exact hgranted.no_null hpages hva ht hf.outside (Or.inl rfl) hf0 ht0

theorem noNull_shared (href : 1 < m.pageReference old) (htab : 1 < m.pageReference t)
    (hf0 : m.answers.headD 0 ≠ 0) (hg0 : m.answers.tail.headD 0 ≠ 0) :
    NoNull m (doPageFault m pgDir va status).1 pgDir := by
  obtain ⟨-, -, hout, -⟩ := hpages.page hva ht hp hold
  have hf := hpages.usable headD_mem
  have hg := hpages.usable tail_headD_mem
  have hne := hpages.answer_ne hva ht hp hold
  obtain ⟨m₁, m₂, hcopied, hcopied₂, hcall⟩ :=
    doPageFault_shared hpages.directory ht hold hout href hf hne status htab hg
  have hgranted := granted_shared hpages.directory ht hf hcopied hg (hpages.answers_ne hg0) hcopied₂
  rw [hcall]
  exact hgranted.no_null hpages hva ht hf.outside (Or.inr hg.outside) hf0 hg0

/-- Without a frame for a page table of its own, the directory of the caller leads to frame 0. -/
theorem not_noNull_of_table (href : 1 < m.pageReference old) (htab : 1 < m.pageReference t)
    (hg0 : m.answers.tail.headD 0 = 0) : ¬ NoNull m (doPageFault m pgDir va status).1 pgDir := by
  obtain ⟨-, -, hout, -⟩ := hpages.page hva ht hp hold
  have hf := hpages.usable headD_mem
  have hg := hpages.usable tail_headD_mem
  have hne := hpages.answer_ne hva ht hp hold
  obtain ⟨m₁, m₂, hcopied, hcopied₂, hcall⟩ :=
    doPageFault_shared hpages.directory ht hold hout href hf hne status htab hg
  intro h
  have htable : tableOf (doPageFault m pgDir va status).1.word pgDir (dirIndex va) = some 0 := by
    rw [hcall, hg0]
    have hstore := tableOf_ownEntry (m := m₂) (g := 0) va hpages.directory.frame rfl (by decide)
    rw [← hstore]
    apply tableOf_congr
    exact word_store_of_ne (f := 0) rfl hpages.directory.frame tabIndex_lt dirIndex_lt
      (Or.inl hpages.ne_null)
  exact hpages.directory.ne_null _ dirIndex_lt (h.2 _ dirIndex_lt htable)

/-- Without a frame for the copy, the page is put at frame 0. -/
theorem not_noNull_of_page (href : 1 < m.pageReference old) (hf0 : m.answers.headD 0 = 0) :
    ¬ NoNull m (doPageFault m pgDir va status).1 pgDir := by
  obtain ⟨hentry, hold0, hout, -⟩ := hpages.page hva ht hp hold
  have hf := hpages.usable headD_mem
  have hne := hpages.answer_ne hva ht hp hold
  -- the entry for frame 0 was not there before
  have hnot : ∀ {m' : Space} {t' : ℕ}, Granted m m' pgDir va old t (m.answers.headD 0) t'
      (m.answers.headD 0 ||| pgAll) → ¬ NoNull m m' pgDir := by
    intro m' t' hgranted h
    have hself := hgranted.entryOf_self rfl rfl
    have hnull : pageOf (m.answers.headD 0 ||| pgAll) = 0 := hgranted.frame.trans hf0
    have hbefore := h.1 va hva _ hself hnull
    rw [hentry] at hbefore
    rw [← Option.some.inj hbefore, hold] at hnull
    exact hold0 hnull
  by_cases htab : 1 < m.pageReference t
  · by_cases hg0 : m.answers.tail.headD 0 = 0
    · exact not_noNull_of_table hpages hva ht hp hold href htab hg0
    · have hg := hpages.usable tail_headD_mem
      obtain ⟨m₁, m₂, hcopied, hcopied₂, hcall⟩ :=
        doPageFault_shared hpages.directory ht hold hout href hf hne status htab hg
      rw [hcall]
      exact hnot (granted_shared hpages.directory ht hf hcopied hg (hpages.answers_ne hg0) hcopied₂)
  · obtain ⟨m₁, hcopied, hcall⟩ :=
      doPageFault_private hpages.directory ht hold hout href hf hne status htab
    rw [hcall]
    exact hnot (granted_private hpages.directory ht hf hcopied)

end Forked

/-- **`do_page_fault` grants nothing new just when the frame that is looked up is not counted**, or the page
was writable before a fork and the frames that are asked for are there. -/
theorem grantsNothingNew_iff {was : ℕ → Prop} (hpages : Pages m pgDir) (hva : va < 2 ^ 32) :
    GrantsNothingNew m (doPageFault m pgDir va status).1 pgDir va was status
      (doPageFault m pgDir va status).2 ↔ FaultHarmless m pgDir va was status := by
  have hunchanged : (doPageFault m pgDir va status).1 = m ∧ (doPageFault m pgDir va status).2 = status ↔
      doPageFault m pgDir va status = (m, status) := by
    rw [Prod.ext_iff]
  by_cases hfork : ForkedPage m pgDir va was
  · obtain ⟨t, ht, -, hp⟩ := hfork.table
    have hvir := pageOf_vir2phy ht
    have htab : pageOf (pdeOf m.word pgDir va) = t := (tableOf_eq_some ht).2.2
    constructor
    · intro h
      have hnull : NoNull m (doPageFault m pgDir va status).1 pgDir := ⟨h.no_page, h.no_table⟩
      refine ⟨fun hnot => absurd hfork hnot, fun _ href hf0 => ?_, fun _ href hshared hg0 => ?_⟩
      · rw [hvir] at href
        exact not_noNull_of_page hpages hva ht hp rfl href hf0 hnull
      · rw [hvir] at href
        rw [htab] at hshared
        exact not_noNull_of_table hpages hva ht hp rfl href hshared hg0 hnull
    · intro h
      have hnull : NoNull m (doPageFault m pgDir va status).1 pgDir := by
        by_cases hone : m.pageReference (pageOf (m.word (t + 4 * tabIndex va))) = 1
        · exact noNull_alone hpages hva ht hp rfl hone
        · by_cases hmore : 1 < m.pageReference (pageOf (m.word (t + 4 * tabIndex va)))
          · have href : 1 < m.pageReference (pageOf (vir2phy m.word pgDir va)) := by
              rw [hvir]
              exact hmore
            have hf0 := h.page hfork href
            by_cases hshared : 1 < m.pageReference t
            · have hg0 : m.answers.tail.headD 0 ≠ 0 := h.table hfork href (by rw [htab]; exact hshared)
              exact noNull_shared hpages hva ht hp rfl hmore hshared hf0 hg0
            · exact noNull_private hpages hva ht hp rfl hmore hshared hf0
          · have hsame : doPageFault m pgDir va status = (m, status) :=
              doPageFault_unchanged_iff.mpr (Or.inl (by rw [hvir]; omega))
            rw [hsame]
            exact ⟨fun a _ e he _ => he, fun i _ hi => hi⟩
      exact ⟨fun hnot => absurd hfork hnot, hnull.1, hnull.2⟩
  · constructor
    · intro h
      refine ⟨fun _ => ?_, fun hyes => absurd hyes hfork, fun hyes => absurd hyes hfork⟩
      exact doPageFault_unchanged_iff.mp (hunchanged.mp (h.unchanged hfork))
    · intro h
      have hsame : doPageFault m pgDir va status = (m, status) :=
        doPageFault_unchanged_iff.mpr (h.refused hfork)
      refine ⟨fun _ => hunchanged.mpr hsame, ?_, ?_⟩
      · rw [hsame]
        exact fun a _ e he _ => he
      · rw [hsame]
        exact fun i _ hi => hi

def demoBase : Space := { demoSpace with reference := fun _ => 1, answers := [0x1404000, 0x1405000] }

theorem demoBase_tables (i : ℕ) : tableOf demoBase.word 0x1401000 i = none := demoSpace_tables i

theorem demoBase_outside (hne : f ≠ 0x1401000) : Outside demoBase.word 0x1401000 f :=
  ⟨hne, fun i _ => by simp [demoBase_tables]⟩

/-- A process with the page at `0x1000` only, read-only and counted once. -/
def demoProcess : Space :=
  (demoBase.addTable 0x1401000 0x1000 0x1402000 7).store (0x1402000 + 4 * 1) 0x1403005

theorem demoProcess_tables (hi : i < 1024) :
    tableOf demoProcess.word 0x1401000 i = if i = 0 then some 0x1402000 else none := by
  have hdir : Directory demoBase.word 0x1401000 := demoSpace_directory
  have htables := tableOf_addTable 0x1000 hdir (by decide) (by decide)
    (demoBase_outside (f := 0x1402000) (by decide)) (show 7 < 0x1000 by decide) (by decide) hi
  have hstore : tableOf demoProcess.word 0x1401000 i =
      tableOf (demoBase.addTable 0x1401000 0x1000 0x1402000 7).word 0x1401000 i := by
    apply tableOf_congr
    exact word_store_of_ne (by decide) (by decide) (by decide) hi (Or.inl (by decide))
  rw [hstore, htables, demoBase_tables]
  rfl

theorem demoProcess_word (hj : j < 1024) :
    demoProcess.word (0x1402000 + 4 * j) = if j = 1 then 0x1403005 else 0 := by
  have htable : (demoBase.addTable 0x1401000 0x1000 0x1402000 7).word (0x1402000 + 4 * j) = 0 :=
    pte_addTable 0x1000 demoSpace_directory (by decide) (demoBase_outside (by decide)) hj
  rw [demoProcess, word_store (by decide) (by decide) (by decide) hj (by decide), htable]
  simp

theorem demoProcess_entry (h : entryOf demoProcess.word 0x1401000 a = some e) :
    dirIndex a = 0 ∧ tabIndex a = 1 ∧ e = 0x1403005 := by
  obtain ⟨t, ht, he, hp⟩ := entryOf_eq_some h
  rw [demoProcess_tables dirIndex_lt] at ht
  split at ht
  · rename_i hi
    cases ht
    rw [demoProcess_word tabIndex_lt] at he
    split at he
    · rename_i hj
      exact ⟨hi, hj, he.symm⟩
    · rw [← he] at hp
      cases hp
  · cases ht

theorem demoProcess_directory : Directory demoProcess.word 0x1401000 where
  frame := by decide
  ne_null i hi := by
    rw [demoProcess_tables hi]
    split
    · simp
    · simp
  ne_self i hi := by
    rw [demoProcess_tables hi]
    split
    · simp
    · simp
  unique i hi j hj t hit hjt := by
    rw [demoProcess_tables hi] at hit
    rw [demoProcess_tables hj] at hjt
    split at hit
    · split at hjt
      · omega
      · cases hjt
    · cases hit

/-- The directory and the page table are the frames in use. -/
theorem demoProcess_outside (hd : f ≠ 0x1401000) (ht : f ≠ 0x1402000) :
    Outside demoProcess.word 0x1401000 f := by
  refine ⟨hd, fun i hi => ?_⟩
  rw [demoProcess_tables hi]
  split
  · simpa using ht.symm
  · simp

theorem demoProcess_pages : Pages demoProcess 0x1401000 where
  directory := demoProcess_directory
  ne_null := by decide
  pages a _ e he := by
    obtain ⟨-, -, rfl⟩ := demoProcess_entry he
    exact ⟨by decide, demoProcess_outside (by decide) (by decide)⟩
  answers f hf _ := by
    have hframe : ∀ f ∈ demoProcess.answers, f % 0x1000 = 0 ∧ f < 2 ^ 32 ∧ f ≠ 0x1401000 ∧
        f ≠ 0x1402000 ∧ pageOf 0x1403005 ≠ f := by decide
    obtain ⟨hmod, hlt, hd, ht, hpage⟩ := hframe f hf
    refine ⟨⟨hmod, hlt, demoProcess_outside hd ht⟩, fun a _ e he => ?_⟩
    obtain ⟨-, -, rfl⟩ := demoProcess_entry he
    exact hpage
  nodup := by decide

theorem demoProcess_page : tableOf demoProcess.word 0x1401000 (dirIndex 0x1000) = some 0x1402000 ∧
    demoProcess.word (0x1402000 + 4 * tabIndex 0x1000) = 0x1403005 :=
  ⟨demoProcess_tables (by decide), demoProcess_word (by decide)⟩

/-- The page was writable before a fork, and no process shares it any more. -/
theorem grantsNothingNew_iff_demo : GrantsNothingNew demoProcess
    (doPageFault demoProcess 0x1401000 0x1000 procStatusError).1 0x1401000 0x1000 (fun _ => True)
    procStatusError (doPageFault demoProcess 0x1401000 0x1000 procStatusError).2 := by
  obtain ⟨ht, hword⟩ := demoProcess_page
  have hentry : entryOf demoProcess.word 0x1401000 0x1000 = some 0x1403005 := by
    rw [entryOf_eq ht, hword]
    rfl
  have hfork : ForkedPage demoProcess 0x1401000 0x1000 fun _ => True :=
    ⟨⟨_, hentry, by decide⟩, trivial⟩
  have hone : ∀ f, demoProcess.pageReference f = 1 := fun _ => rfl
  refine (grantsNothingNew_iff demoProcess_pages (by decide)).mpr ⟨fun h => absurd hfork h, ?_, ?_⟩
  · intro _ h
    rw [hone] at h
    cases h
  · intro _ h
    rw [hone] at h
    cases h

/-- A page of a segment that is not to be written is counted once: after a write to it, it is writable. -/
theorem readOnly_page_granted : Pages demoProcess 0x1401000 ∧
    ¬ ForkedPage demoProcess 0x1401000 0x1000 (fun _ => False) ∧
    ¬ GrantsNothingNew demoProcess (doPageFault demoProcess 0x1401000 0x1000 procStatusError).1 0x1401000
      0x1000 (fun _ => False) procStatusError
      (doPageFault demoProcess 0x1401000 0x1000 procStatusError).2 := by
  have hfork : ¬ ForkedPage demoProcess 0x1401000 0x1000 fun _ => False := fun h => h.2
  refine ⟨demoProcess_pages, hfork, fun h => ?_⟩
  obtain ⟨ht, hword⟩ := demoProcess_page
  have hone : demoProcess.pageReference (pageOf (demoProcess.word (0x1402000 + 4 * tabIndex 0x1000))) = 1 :=
    rfl
  obtain ⟨hsame, -⟩ := h.unchanged hfork
  rw [doPageFault_alone ht _ hone] at hsame
  have hwritable := store_setWritable_iff.mp hsame
  rw [hword] at hwritable
  cases hwritable

end OmochaOS.PageTables
