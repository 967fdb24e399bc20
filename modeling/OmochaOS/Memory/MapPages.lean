import Mathlib.Data.Finset.Card
import Mathlib.Order.Interval.Finset.Nat
import OmochaOS.Memory.Directory

/-!
# What `map_pages` maps (`modules/memory/paging.c`)

`Maps` says what has become of a page directory when some of its addresses have been mapped: their
entries are there, every other address is where it was, the page tables there were are used and the new
ones are frames from `page_alloc`.  It composes (`Maps.trans`), one page is mapped by `createPageTable` and
a store (`mapPage_spec`), and so are all pages of a range (`mapLoop_spec`).
-/

namespace OmochaOS.PageTables

open ByteMemory Paging

variable {m m' m'' : Space} {pgDir va pa f g t w a i j attr pdeAttr : ℕ} {S S' : ℕ → Prop} {E : ℕ → ℕ}

/-- The addresses in `S` have been mapped with the entries `E`, and `k` frames were taken for page
tables. -/
structure Maps (m m' : Space) (pgDir pdeAttr : ℕ) (S : ℕ → Prop) (E : ℕ → ℕ) (k : ℕ) : Prop where
  directory : Directory m'.word pgDir
  fresh : Fresh m' pgDir
  inside : ∀ a < 2 ^ 32, S a → ∃ t, tableOf m'.word pgDir (dirIndex a) = some t ∧
    m'.word (t + 4 * tabIndex a) = E a
  outside : ∀ a < 2 ^ 32, ¬ S a → ∀ t, tableOf m.word pgDir (dirIndex a) = some t →
    m'.word (t + 4 * tabIndex a) = m.word (t + 4 * tabIndex a)
  walk : ∀ a < 2 ^ 32, ¬ S a → translate m'.word pgDir a = translate m.word pgDir a
  /-- entries of the directory that are there are kept, and new ones lead to new page tables -/
  pde : ∀ i < 1024, m'.word (pgDir + 4 * i) = m.word (pgDir + 4 * i) ∨
    present (m.word (pgDir + 4 * i)) = false ∧ ∃ f ∈ m.answers, f ∉ m'.answers ∧
      m'.word (pgDir + 4 * i) = f ||| pgPresent ||| pdeAttr ∧ tableOf m'.word pgDir i = some f
  answers : m'.answers = m.answers.drop k
  kept : ∀ g, g % 0x1000 = 0 → Outside m.word pgDir g → g ∉ m.answers →
    AgreeOn m'.bytes m.bytes g 0x1000
  memoryStart : m'.memoryStart = m.memoryStart
  reference : ∀ i, (∀ f ∈ m.answers, m.pageId f ≠ i) → m'.reference i = m.reference i
  freed : m'.freed = m.freed

theorem Maps.mem_answers {k : ℕ} (h : Maps m m' pgDir pdeAttr S E k) (hf : f ∈ m'.answers) :
    f ∈ m.answers := by
  rw [h.answers] at hf
  exact List.mem_of_mem_drop hf

theorem Maps.pde_of_present {k : ℕ} (h : Maps m m' pgDir pdeAttr S E k) (hi : i < 1024)
    (hp : present (m.word (pgDir + 4 * i)) = true) : m'.word (pgDir + 4 * i) = m.word (pgDir + 4 * i) := by
  rcases h.pde i hi with heq | ⟨hnot, -⟩
  · exact heq
  · rw [hp] at hnot
    cases hnot

theorem Maps.table_kept {k : ℕ} (h : Maps m m' pgDir pdeAttr S E k) (hi : i < 1024)
    (ht : tableOf m.word pgDir i = some t) : tableOf m'.word pgDir i = some t := by
  rw [tableOf_congr (h.pde_of_present hi (tableOf_eq_some ht).1)]
  exact ht

/-- A frame that is not used and not answered is not used later. -/
theorem Maps.outside_frame {k : ℕ} (h : Maps m m' pgDir pdeAttr S E k) (hg : Outside m.word pgDir g)
    (hnot : g ∉ m.answers) : Outside m'.word pgDir g := by
  refine ⟨hg.1, fun i hi => ?_⟩
  rcases h.pde i hi with heq | ⟨-, f, hf, -, -, htab⟩
  · rw [tableOf_congr heq]
    exact hg.2 i hi
  · rw [htab]
    intro he
    exact hnot (Option.some.inj he ▸ hf)

/-- Addresses are mapped one set after the other. -/
theorem Maps.trans {k l : ℕ} (h : Maps m m' pgDir pdeAttr S E k)
    (h' : Maps m' m'' pgDir pdeAttr S' E l) :
    Maps m m'' pgDir pdeAttr (fun a => S a ∨ S' a) E (k + l) where
  directory := h'.directory
  fresh := h'.fresh
  inside a ha hS := by
    by_cases hS' : S' a
    · exact h'.inside a ha hS'
    · obtain ⟨t, ht, he⟩ := h.inside a ha (hS.resolve_right hS')
      refine ⟨t, h'.table_kept dirIndex_lt ht, ?_⟩
      rw [h'.outside a ha hS' t ht, he]
  outside a ha hS t ht := by
    rw [not_or] at hS
    rw [h'.outside a ha hS.2 t (h.table_kept dirIndex_lt ht), h.outside a ha hS.1 t ht]
  walk a ha hS := by
    rw [not_or] at hS
    rw [h'.walk a ha hS.2, h.walk a ha hS.1]
  pde i hi := by
    rcases h.pde i hi with heq | ⟨hnot, f, hf, hnf, hword, htab⟩
    · rcases h'.pde i hi with heq' | ⟨hnot, f, hf, hnf, hword, htab⟩
      · exact Or.inl (heq'.trans heq)
      · rw [heq] at hnot
        exact Or.inr ⟨hnot, f, h.mem_answers hf, hnf, hword, htab⟩
    · have hpres : present (m'.word (pgDir + 4 * i)) = true := (tableOf_eq_some htab).1
      have hkeep := h'.pde_of_present hi hpres
      refine Or.inr ⟨hnot, f, hf, fun hmem => hnf (h'.mem_answers hmem), hkeep.trans hword, ?_⟩
      exact h'.table_kept hi htab
  answers := by rw [h'.answers, h.answers, List.drop_drop]
  kept g hg hout hnot := by
    have hout' := h.outside_frame hout hnot
    have hnot' : g ∉ m'.answers := fun hmem => hnot (h.mem_answers hmem)
    exact (h'.kept g hg hout' hnot').trans (h.kept g hg hout hnot)
  memoryStart := h'.memoryStart.trans h.memoryStart
  reference i hi := by
    rw [h'.reference i, h.reference i hi]
    intro f hf
    rw [Space.pageId, h.memoryStart]
    exact hi f (h.mem_answers hf)
  freed := h'.freed.trans h.freed

/-- Nothing is mapped. -/
theorem Maps.refl (hdir : Directory m.word pgDir) (hfresh : Fresh m pgDir) (hS : ∀ a, ¬ S a) :
    Maps m m pgDir pdeAttr S E 0 where
  directory := hdir
  fresh := hfresh
  inside a _ h := absurd h (hS a)
  outside _ _ _ _ _ := rfl
  walk _ _ _ := rfl
  pde _ _ := Or.inl rfl
  answers := rfl
  kept _ _ _ _ := AgreeOn.refl _ _ _
  memoryStart := rfl
  reference _ _ := rfl
  freed := rfl

theorem Maps.congr {k : ℕ} (h : Maps m m' pgDir pdeAttr S E k) (hS : ∀ a, S' a ↔ S a) :
    Maps m m' pgDir pdeAttr S' E k := by
  have heq : S' = S := funext fun a => propext (hS a)
  rw [heq]
  exact h

/-! ### One page -/

/-- The entry of a page that has a page table is written. -/
theorem Maps.entry (hdir : Directory m.word pgDir) (hfresh : Fresh m pgDir) (hva : va < 2 ^ 32)
    (ht : tableOf m.word pgDir (dirIndex va) = some t) (hw : w < 2 ^ 32)
    (hE : ∀ a, pageOf a = pageOf va → E a = w) :
    Maps m (m.store (t + 4 * tabIndex va) w) pgDir pdeAttr (fun a => pageOf a = pageOf va) E 0 where
  directory := directory_store hdir ht
  fresh :=
    { nodup := hfresh.nodup
      frame := hfresh.frame
      outside := fun f hf => (hfresh.outside f hf).congr fun _ hi => pde_store hdir ht hi }
  inside a ha hS := by
    obtain ⟨hdirIndex, htab⟩ := (pageOf_eq_iff ha hva).mp hS
    have hpde := tableOf_congr (pde_store (w := w) hdir ht (dirIndex_lt : dirIndex va < 1024))
    rw [hdirIndex, htab, hE a hS]
    exact ⟨t, hpde.trans ht, pte_store_self ht hw⟩
  outside a ha hS g hg := pte_store hdir ht ha hva hS hg
  walk a ha hS := translate_store hdir ht ha hva hS
  pde i hi := Or.inl (pde_store hdir ht hi)
  answers := rfl
  kept g hg hout _ := by
    apply agreeOn_store (tableOf_frame ht) hg tabIndex_lt
    rintro rfl
    exact hout.2 _ dirIndex_lt ht
  memoryStart := rfl
  reference _ _ := rfl
  freed := rfl

/-- The frame that `page_alloc` answers. -/
theorem pageAlloc_cons {rest : List PAddr} (h : m.answers = f :: rest) (hf : f ≠ 0) :
    m.pageAlloc = ({ m with
      answers := rest
      reference := Function.update m.reference (m.pageId f) 1 }, f) := by
  simp only [Space.pageAlloc, h, if_neg hf]

/-- A page table is taken from `page_alloc`. -/
theorem Maps.table {rest : List PAddr} (hdir : Directory m.word pgDir) (hfresh : Fresh m pgDir)
    (hva : present (pdeOf m.word pgDir va) = false) (hans : m.answers = f :: rest)
    (hattr : pdeAttr < 0x1000) (hlarge : large pdeAttr = false) :
    Maps m (m.pageAlloc.1.addTable pgDir va f pdeAttr) pgDir pdeAttr (fun _ => False) E 1 := by
  have hmem : f ∈ m.answers := by
    rw [hans]
    exact List.mem_cons_self
  obtain ⟨hf, hf0, hf32⟩ := hfresh.frame f hmem
  have hout := hfresh.outside f hmem
  have hnodup := hfresh.nodup
  rw [hans] at hnodup
  obtain ⟨hnot, hrest⟩ := List.nodup_cons.mp hnodup
  rw [pageAlloc_cons hans hf0]
  set m₁ : Space := { m with
    answers := rest
    reference := Function.update m.reference (m.pageId f) 1 } with hm₁
  have hdir₁ : Directory m₁.word pgDir := hdir
  have hout₁ : Outside m₁.word pgDir f := hout
  have hva₁ : present (pdeOf m₁.word pgDir va) = false := hva
  have htab : ∀ {i : ℕ}, i < 1024 → _ :=
    fun hi => tableOf_addTable va hdir₁ hf hf32 hout₁ hattr hlarge hi
  have hpde : ∀ {i : ℕ}, i < 1024 → _ :=
    fun hi => pde_addTable va hdir₁ hf hf32 hout₁ hattr hi
  constructor
  case directory => exact directory_addTable va hdir₁ hf hf32 hout₁ hattr hlarge hf0
  case fresh =>
    have hsub : ∀ g ∈ rest, g ∈ m.answers := by
      intro g hg
      rw [hans]
      exact List.mem_cons_of_mem f hg
    refine ⟨hrest, fun g hg => hfresh.frame g (hsub g hg), fun g hg => ?_⟩
    have hg' := hfresh.outside g (hsub g hg)
    refine ⟨hg'.1, fun i hi => ?_⟩
    rw [htab hi]
    split
    · intro he
      exact hnot (Option.some.inj he ▸ hg)
    · exact hg'.2 i hi
  case inside => exact fun _ _ h => h.elim
  case outside =>
    intro a ha _ t ht
    have htf : t ≠ f := by
      rintro rfl
      exact hout.2 _ dirIndex_lt ht
    have htd : t ≠ pgDir := by
      rintro rfl
      exact hdir.ne_self _ dirIndex_lt ht
    apply (agreeOn_addTable va hdir₁ hf (tableOf_frame ht) htf htd).readWord
    have hlt : tabIndex a < 1024 := tabIndex_lt
    omega
  case walk =>
    intro a _ _
    exact translate_addTable va hdir₁ hf hf32 hout₁ hattr hlarge hva₁
  case pde =>
    intro i hi
    by_cases hi' : i = dirIndex va
    · right
      have hword := hpde hi
      have htable := htab hi
      rw [if_pos hi'] at hword htable
      subst hi'
      exact ⟨hva, f, hmem, hnot, hword, htable⟩
    · left
      rw [hpde hi, if_neg hi']
      rfl
  case answers =>
    rw [hans]
    rfl
  case kept =>
    intro g hg hgout hgans
    apply agreeOn_addTable va hdir₁ hf hg
    · rintro rfl
      exact hgans hmem
    · exact hgout.1
  case memoryStart => rfl
  case reference =>
    intro i hi
    show Function.update m.reference (m.pageId f) 1 i = m.reference i
    rw [Function.update_of_ne (hi f hmem).symm]
  case freed => rfl

/-- `create_page_table` of a page that is not mapped: the place of its entry, which is empty. -/
theorem createPageTable_spec (hdir : Directory m.word pgDir) (hfresh : Fresh m pgDir)
    (hfree : translate m.word pgDir va = none)
    (hroom : present (pdeOf m.word pgDir va) = false → m.answers ≠ [])
    (hattr : pdeAttr < 0x1000) (hlarge : large pdeAttr = false) :
    ∃ m₁ t, createPageTable m pgDir va pdeAttr = (m₁, t + 4 * tabIndex va) ∧ t ≠ 0 ∧
      tableOf m₁.word pgDir (dirIndex va) = some t ∧
      present (m₁.word (t + 4 * tabIndex va)) = false ∧
      (∀ i < 1024, i ≠ dirIndex va → m₁.word (pgDir + 4 * i) = m.word (pgDir + 4 * i)) ∧
      Maps m m₁ pgDir pdeAttr (fun _ => False) E
        (if present (pdeOf m.word pgDir va) = true then 0 else 1) := by
  by_cases hp : present (pdeOf m.word pgDir va) = true
  · rw [if_pos hp]
    cases ht : tableOf m.word pgDir (dirIndex va) with
    | none =>
      rw [translate_of_tableOf_none ht, if_neg (by simp [hp])] at hfree
      cases hfree
    | some t =>
      have ht0 : t ≠ 0 := by
        rintro rfl
        exact hdir.ne_null _ dirIndex_lt ht
      have hpte : present (m.word (t + 4 * tabIndex va)) = false := by
        by_contra hnot
        rw [translate_eq ht, if_neg hnot] at hfree
        cases hfree
      refine ⟨m, t, ?_, ht0, ht, hpte, fun _ _ _ => rfl, Maps.refl hdir hfresh fun _ => id⟩
      rw [createPageTable, getPte_eq ht, if_pos (by omega)]
  · rw [if_neg hp]
    rw [Bool.not_eq_true] at hp
    obtain ⟨f, rest, hans⟩ := List.exists_cons_of_ne_nil (hroom hp)
    have hmem : f ∈ m.answers := by
      rw [hans]
      exact List.mem_cons_self
    obtain ⟨hf, hf0, hf32⟩ := hfresh.frame f hmem
    have hout := hfresh.outside f hmem
    have hnull : getPte m.word pgDir va = 0 := by
      rw [getPte, if_pos hp]
    have hword : m.pageAlloc.1.word = m.word := by
      rw [pageAlloc_cons hans hf0]
      rfl
    have hdir₁ : Directory m.pageAlloc.1.word pgDir := by
      rw [hword]
      exact hdir
    have hout₁ : Outside m.pageAlloc.1.word pgDir f := by
      rw [hword]
      exact hout
    refine ⟨m.pageAlloc.1.addTable pgDir va f pdeAttr, f, ?_, hf0, ?_, ?_, fun i hi hne => ?_,
      Maps.table hdir hfresh hp hans hattr hlarge⟩
    · simp only [createPageTable, hnull, ne_eq, not_true_eq_false, if_false]
      rw [pageAlloc_cons hans hf0]
      simp only [if_neg hf0]
      rfl
    · rw [tableOf_addTable va hdir₁ hf hf32 hout₁ hattr hlarge dirIndex_lt, if_pos rfl]
    · rw [pte_addTable va hdir₁ hf hout₁ tabIndex_lt]
      rfl
    · rw [pde_addTable va hdir₁ hf hf32 hout₁ hattr hi, if_neg hne, hword]

/-! ### A range of pages -/

/-- The page tables that the pages from `va` to `last` are going to need. -/
def missing (word : ℕ → ℕ) (pgDir va last : ℕ) : Finset ℕ :=
  (Finset.Icc (dirIndex va) (dirIndex last)).filter fun i => present (word (pgDir + 4 * i)) = false

/-- The page table of the first page is not missing afterwards. -/
theorem missing_next {word word' : ℕ → ℕ} (last : ℕ) (hva : va + 0x1000 < 2 ^ 32)
    (hpres : present (word' (pgDir + 4 * dirIndex va)) = true)
    (hpde : ∀ i < 1024, i ≠ dirIndex va → word' (pgDir + 4 * i) = word (pgDir + 4 * i)) :
    missing word' pgDir (va + 0x1000) last = (missing word pgDir va last).erase (dirIndex va) := by
  have hindex : dirIndex (va + 0x1000) = dirIndex va ∨ dirIndex (va + 0x1000) = dirIndex va + 1 := by
    simp only [dirIndex]
    omega
  have hlast : dirIndex last < 1024 := dirIndex_lt
  ext i
  simp only [missing, Finset.mem_erase, Finset.mem_filter, Finset.mem_Icc]
  by_cases hi : i = dirIndex va
  · simp [hi, hpres]
  · constructor
    · rintro ⟨⟨hlo, hhi⟩, habs⟩
      rw [hpde i (by omega) hi] at habs
      exact ⟨hi, ⟨by omega, hhi⟩, habs⟩
    · rintro ⟨-, ⟨hlo, hhi⟩, habs⟩
      rw [hpde i (by omega) hi]
      exact ⟨⟨by omega, hhi⟩, habs⟩

theorem dirIndex_le {last : ℕ} (hle : va ≤ last) (hlast : last < 2 ^ 32) :
    dirIndex va ≤ dirIndex last := by
  simp only [dirIndex]
  omega

theorem dirIndex_mem_missing {word : ℕ → ℕ} {last : ℕ} (hle : va ≤ last) (hlast : last < 2 ^ 32) :
    dirIndex va ∈ missing word pgDir va last ↔ present (pdeOf word pgDir va) = false := by
  have hindex := dirIndex_le hle hlast
  rw [pdeOf_eq, missing, Finset.mem_filter, Finset.mem_Icc]
  exact ⟨fun h => h.2, fun h => ⟨⟨le_refl _, hindex⟩, h⟩⟩

theorem nextPage_eq (h : va + 0x1000 < 2 ^ 32) : nextPage va = va + 0x1000 := by
  unfold nextPage
  omega

/-- One round of the loop, for a page that is not mapped. -/
theorem mapLoop_step {last : ℕ} (fuel : ℕ) (hdir : Directory m.word pgDir) (hfresh : Fresh m pgDir)
    (hva : va % 0x1000 = 0) (hle : va ≤ last) (hlast : last < 0xFFFFF000) (hpa : pa < 2 ^ 32)
    (hattr : attr < 0x1000) (hpattr : pdeAttr < 0x1000) (hlarge : large pdeAttr = false)
    (hfree : translate m.word pgDir va = none)
    (hroom : present (pdeOf m.word pgDir va) = false → m.answers ≠ [])
    (hE : ∀ a, pageOf a = va → E a = pa ||| pgPresent ||| attr) :
    ∃ m₁, mapLoop pgDir last pdeAttr attr (fuel + 1) m va pa =
        mapLoop pgDir last pdeAttr attr fuel m₁ (nextPage va) (nextPage pa) ∧
      present (m₁.word (pgDir + 4 * dirIndex va)) = true ∧
      (∀ i < 1024, i ≠ dirIndex va → m₁.word (pgDir + 4 * i) = m.word (pgDir + 4 * i)) ∧
      Maps m m₁ pgDir pdeAttr (fun a => pageOf a = va) E
        (if present (pdeOf m.word pgDir va) = true then 0 else 1) := by
  have hva32 : va < 2 ^ 32 := by omega
  have hpage : pageOf va = va := by
    rw [pageOf]
    omega
  obtain ⟨m₁, t, hcreate, ht0, ht, hempty, hpde, hmaps⟩ :=
    createPageTable_spec (E := E) hdir hfresh hfree hroom hpattr hlarge
  have hentry : Maps m₁ (m₁.store (t + 4 * tabIndex va) (pa ||| pgPresent ||| attr)) pgDir pdeAttr
      (fun a => pageOf a = pageOf va) E 0 :=
    Maps.entry hmaps.directory hmaps.fresh hva32 ht (tableEntry_lt hpa hattr) fun a ha =>
      hE a (ha.trans hpage)
  refine ⟨m₁.store (t + 4 * tabIndex va) (pa ||| pgPresent ||| attr), ?_, ?_, ?_, ?_⟩
  · have hnull : t + 4 * tabIndex va ≠ 0 := by omega
    have hempty' : ¬ present (m₁.word (t + 4 * tabIndex va)) = true := by simp [hempty]
    rw [mapLoop, if_pos hle, hcreate]
    simp only [if_neg hnull, if_neg hempty']
  · rw [pde_store hmaps.directory ht dirIndex_lt]
    exact (tableOf_eq_some ht).1
  · intro i hi hne
    rw [pde_store hmaps.directory ht hi, hpde i hi hne]
  · have hboth := hmaps.trans hentry
    rw [Nat.add_zero] at hboth
    refine hboth.congr fun a => ?_
    rw [hpage, false_or]

theorem card_missing (word : ℕ → ℕ) (pgDir : ℕ) {last : ℕ} (hle : va ≤ last) (hlast : last < 2 ^ 32) :
    (missing word pgDir va last).card =
      (if present (pdeOf word pgDir va) = true then 0 else 1) +
        ((missing word pgDir va last).erase (dirIndex va)).card := by
  have hmem : dirIndex va ∈ missing word pgDir va last ↔ present (pdeOf word pgDir va) = false :=
    dirIndex_mem_missing hle hlast
  by_cases hp : present (pdeOf word pgDir va) = true
  · have hnot : dirIndex va ∉ missing word pgDir va last := by
      rw [hmem, hp]
      exact Bool.true_eq_false_eq_False
    rw [if_pos hp, Finset.erase_eq_of_notMem hnot, Nat.zero_add]
  · rw [if_neg hp, Nat.add_comm]
    rw [Bool.not_eq_true] at hp
    exact (Finset.card_erase_add_one (hmem.mpr hp)).symm

/-- There is a frame for the first page table that is missing. -/
theorem answers_ne_nil {last : ℕ} (hle : va ≤ last) (hlast : last < 2 ^ 32)
    (hroom : (missing m.word pgDir va last).card ≤ m.answers.length)
    (hp : present (pdeOf m.word pgDir va) = false) : m.answers ≠ [] := by
  have hmem := (dirIndex_mem_missing hle hlast).mpr hp
  have hpos : 0 < (missing m.word pgDir va last).card := Finset.card_pos.mpr ⟨_, hmem⟩
  intro hnil
  rw [hnil, List.length_nil] at hroom
  omega

/-- **The loop of `map_pages`**, over `n + 1` pages none of which is mapped. -/
theorem mapLoop_spec {last : ℕ} (n : ℕ) (hlast : last < 0xFFFFF000) (hattr : attr < 0x1000)
    (hpattr : pdeAttr < 0x1000) (hlarge : large pdeAttr = false) (hdir : Directory m.word pgDir)
    (hfresh : Fresh m pgDir) (hva : va % 0x1000 = 0) (hn : va + n * 0x1000 = last) (hpa : pa < 2 ^ 32)
    (hfree : ∀ a < 2 ^ 32, va ≤ a → a < last + 0x1000 → translate m.word pgDir a = none)
    (hroom : (missing m.word pgDir va last).card ≤ m.answers.length)
    (hE : ∀ a, va ≤ a → a < last + 0x1000 →
      E a = (pa + (pageOf a - va)) % 2 ^ 32 ||| pgPresent ||| attr) :
    ∃ m', mapLoop pgDir last pdeAttr attr (n + 2) m va pa = some (m', 0) ∧
      Maps m m' pgDir pdeAttr (fun a => va ≤ a ∧ a < last + 0x1000) E
        (missing m.word pgDir va last).card := by
  induction n generalizing m va pa with
  | zero =>
    have hle : va ≤ last := by omega
    have hlast32 : last < 2 ^ 32 := by omega
    have hE₀ : ∀ a, pageOf a = va → E a = pa ||| pgPresent ||| attr := by
      intro a ha
      have hrange : va ≤ a ∧ a < last + 0x1000 := by
        rw [pageOf] at ha
        omega
      rw [hE a hrange.1 hrange.2, ha, Nat.sub_self, Nat.add_zero, Nat.mod_eq_of_lt hpa]
    obtain ⟨m₁, hloop, -, -, hmaps⟩ := mapLoop_step 1 hdir hfresh hva hle hlast hpa hattr
      hpattr hlarge (hfree va (by omega) (le_refl _) (by omega)) (answers_ne_nil hle hlast32 hroom) hE₀
    have hcard := card_missing m.word pgDir hle hlast32
    have hnone : (missing m.word pgDir va last).erase (dirIndex va) = ∅ := by
      have heq : va = last := by omega
      rw [heq, missing, Finset.Icc_self, Finset.filter_singleton]
      split
      · exact Finset.erase_singleton _
      · exact Finset.erase_empty _
    rw [hnone, Finset.card_empty, Nat.add_zero] at hcard
    rw [hcard]
    refine ⟨m₁, ?_, hmaps.congr fun a => ?_⟩
    · have hend : ¬ nextPage va ≤ last := by
        rw [nextPage_eq (by omega)]
        omega
      rw [hloop, mapLoop, if_neg hend]
    · rw [pageOf]
      omega
  | succ n ih =>
    have hle : va + 0x1000 ≤ last := by omega
    have hlast32 : last < 2 ^ 32 := by omega
    have hE₀ : ∀ a, pageOf a = va → E a = pa ||| pgPresent ||| attr := by
      intro a ha
      have hrange : va ≤ a ∧ a < last + 0x1000 := by
        rw [pageOf] at ha
        omega
      rw [hE a hrange.1 hrange.2, ha, Nat.sub_self, Nat.add_zero, Nat.mod_eq_of_lt hpa]
    obtain ⟨m₁, hloop, hpres, hpde, hmaps⟩ := mapLoop_step (n + 2) hdir hfresh hva (by omega)
      hlast hpa hattr hpattr hlarge (hfree va (by omega) (le_refl _) (by omega))
      (answers_ne_nil (by omega) hlast32 hroom) hE₀
    have hcard := card_missing m.word pgDir (Nat.le_of_add_right_le hle) hlast32
    have hnext := missing_next last (by omega) hpres hpde
    rw [← hnext] at hcard
    have hpa' : nextPage pa < 2 ^ 32 := by
      unfold nextPage
      omega
    have hE₁ : ∀ a, va + 0x1000 ≤ a → a < last + 0x1000 →
        E a = (nextPage pa + (pageOf a - (va + 0x1000))) % 2 ^ 32 ||| pgPresent ||| attr := by
      intro a hlo hhi
      have hsum : (nextPage pa + (pageOf a - (va + 0x1000))) % 2 ^ 32 =
          (pa + (pageOf a - va)) % 2 ^ 32 := by
        unfold nextPage
        rw [pageOf]
        omega
      rw [hsum]
      exact hE a (by omega) hhi
    have hroom' : (missing m₁.word pgDir (va + 0x1000) last).card ≤ m₁.answers.length := by
      rw [hmaps.answers, List.length_drop]
      omega
    obtain ⟨m', hloop', hmaps'⟩ := ih hmaps.directory hmaps.fresh (by omega) (by omega) hpa'
      (fun a ha hlo hhi => by
        rw [hmaps.walk a ha (by rw [pageOf]; omega)]
        exact hfree a ha (by omega) hhi) hroom' hE₁
    refine ⟨m', ?_, ?_⟩
    · rw [hloop, nextPage_eq (by omega), hloop']
    · rw [hcard]
      refine (hmaps.trans hmaps').congr fun a => ?_
      rw [pageOf]
      omega

/-! ### `map_pages` -/

/-- The address is in one of the pages of `size` bytes at `va`. -/
def Covered (va size a : ℕ) : Prop := va ≤ a ∧ pageOf a ≤ pageOf (va + size - 1)

/-- The number of page tables that are missing for `size` bytes at `va`. -/
def missingTables (word : ℕ → ℕ) (pgDir va size : ℕ) : ℕ := (missing word pgDir va (va + size - 1)).card

theorem large_pdeAttrOf : large (pdeAttrOf attr) = false := by
  unfold pdeAttrOf
  split <;> rfl

theorem pdeAttrOf_lt : pdeAttrOf attr < 0x1000 := by
  unfold pdeAttrOf
  split <;> decide

theorem lastPage_eq {size : ℕ} (hsize : 1 ≤ size) (hend : va + size - 1 < 0xFFFFF000) :
    lastPage va size = pageOf (va + size - 1) := by
  have hsub : Buddy.subUint (va + size) 1 = va + size - 1 := by
    unfold Buddy.subUint
    omega
  rw [lastPage, hsub]

theorem missing_pageOf {word : ℕ → ℕ} {last : ℕ} :
    missing word pgDir va (pageOf last) = missing word pgDir va last := by
  have h : dirIndex (pageOf last) = dirIndex last := by
    simp only [dirIndex, pageOf]
    omega
  rw [missing, missing, h]

/-- **`map_pages` of pages that are not mapped.** -/
theorem mapPages_spec (va pa size attr : ℕ) (hdir : Directory m.word pgDir) (hfresh : Fresh m pgDir)
    (hva : va % 0x1000 = 0) (hsize : 1 ≤ size) (hend : va + size - 1 < 0xFFFFF000) (hpa : pa < 2 ^ 32)
    (hattr : attr < 0x1000) (hfree : ∀ a < 2 ^ 32, Covered va size a → translate m.word pgDir a = none)
    (hroom : missingTables m.word pgDir va size ≤ m.answers.length) :
    ∃ fuel m', mapPages fuel m pgDir va pa size attr = some (m', 0) ∧
      Maps m m' pgDir (pdeAttrOf attr) (Covered va size)
        (fun a => (pa + (pageOf a - va)) % 2 ^ 32 ||| pgPresent ||| attr)
        (missingTables m.word pgDir va size) := by
  have hpage : pageOf va = va := by
    rw [pageOf]
    omega
  have hlast := lastPage_eq hsize hend
  have hcov : ∀ a, Covered va size a ↔ va ≤ a ∧ a < pageOf (va + size - 1) + 0x1000 := by
    intro a
    simp only [Covered, pageOf]
    omega
  have hn : va + (pageOf (va + size - 1) - va) / 0x1000 * 0x1000 = pageOf (va + size - 1) := by
    rw [pageOf]
    omega
  rw [missingTables, ← missing_pageOf] at hroom ⊢
  obtain ⟨m', hloop, hmaps⟩ := mapLoop_spec ((pageOf (va + size - 1) - va) / 0x1000)
    (by rw [pageOf]; omega) hattr pdeAttrOf_lt large_pdeAttrOf hdir hfresh hva hn hpa
    (fun a ha hlo hhi => hfree a ha ((hcov a).mpr ⟨hlo, hhi⟩)) hroom fun _ _ _ => rfl
  refine ⟨(pageOf (va + size - 1) - va) / 0x1000 + 2, m', ?_, hmaps.congr hcov⟩
  rw [mapPages, hpage, hlast]
  exact hloop

/-- What `map_pages` is to do: the pages of the range get their entries, both walks lead through them to
the frames from `pa` on, all other addresses are where they were, and only the page tables that were
missing are allocated.  A new table is present in the directory, and open to the kernel only when the pages
are the system's, else to everybody and for writing. -/
structure MapsExactly (m m' : Space) (pgDir va pa size attr : ℕ) : Prop where
  entry : ∀ a < 2 ^ 32, Covered va size a → present (pdeOf m'.word pgDir a) = true ∧
    pteOf m'.word (pdeOf m'.word pgDir a) a = (pa + (pageOf a - va)) % 2 ^ 32 ||| pgPresent ||| attr
  translate_eq : ∀ a < 2 ^ 32, Covered va size a →
    translate m'.word pgDir a = some ((pa + (a - va)) % 2 ^ 32)
  vir2phy_eq : ∀ a < 2 ^ 32, Covered va size a → vir2phy m'.word pgDir a = (pa + (a - va)) % 2 ^ 32
  others : ∀ a < 2 ^ 32, ¬ Covered va size a → translate m'.word pgDir a = translate m.word pgDir a
  tables : ∀ i < 1024, m'.word (pgDir + 4 * i) = m.word (pgDir + 4 * i) ∨
    present (m.word (pgDir + 4 * i)) = false ∧ ∃ f ∈ m.answers, tableOf m'.word pgDir i = some f ∧
      m'.word (pgDir + 4 * i) = f ||| pgPresent ||| pdeAttrOf attr
  allocated : m'.answers = m.answers.drop (missingTables m.word pgDir va size)
  directory : Directory m'.word pgDir

theorem MapsExactly.of_maps {size : ℕ} (hva : va % 0x1000 = 0) (hpa : pa % 0x1000 = 0)
    (hattr : attr < 0x1000)
    (h : Maps m m' pgDir (pdeAttrOf attr) (Covered va size)
      (fun a => (pa + (pageOf a - va)) % 2 ^ 32 ||| pgPresent ||| attr)
      (missingTables m.word pgDir va size)) : MapsExactly m m' pgDir va pa size attr := by
  have hplace : ∀ a, Covered va size a → (pa + (pageOf a - va)) % 2 ^ 32 % 0x1000 = 0 ∧
      (pa + (pageOf a - va)) % 2 ^ 32 + a % 2 ^ 12 = (pa + (a - va)) % 2 ^ 32 := by
    intro a ha
    have hlo := ha.1
    simp only [pageOf]
    omega
  constructor
  case entry =>
    intro a ha hcov
    obtain ⟨t, ht, hpte⟩ := h.inside a ha hcov
    rw [pteOf_eq ht, hpte]
    refine ⟨?_, rfl⟩
    rw [pdeOf_eq]
    exact (tableOf_eq_some ht).1
  case translate_eq =>
    intro a ha hcov
    obtain ⟨hframe, hsum⟩ := hplace a hcov
    obtain ⟨t, ht, hpte⟩ := h.inside a ha hcov
    rw [PageTables.translate_eq ht, hpte, tableEntry_present hframe, if_neg Bool.true_eq_false_eq_False,
      tableEntry_page hframe hattr, hsum]
  case vir2phy_eq =>
    intro a ha hcov
    obtain ⟨hframe, hsum⟩ := hplace a hcov
    obtain ⟨t, ht, hpte⟩ := h.inside a ha hcov
    rw [PageTables.vir2phy_eq ht, hpte, tableEntry_page hframe hattr, hsum, Nat.mod_mod]
  case others => exact h.walk
  case tables =>
    intro i hi
    rcases h.pde i hi with heq | ⟨hnot, f, hf, -, hword, htab⟩
    · exact Or.inl heq
    · exact Or.inr ⟨hnot, f, hf, htab, hword⟩
  case allocated => exact h.answers
  case directory => exact h.directory

/-- `create_page_dir` makes a page directory: it has no page tables. -/
theorem createPageDir_spec {rest : List PAddr} (hans : m.answers = f :: rest) (hf : f % 0x1000 = 0)
    (hf0 : f ≠ 0) (hattr : attr < 0x1000) :
    (createPageDir m attr).2 = f ∧ Directory (createPageDir m attr).1.word f ∧
      ∀ i < 1024, tableOf (createPageDir m attr).1.word f i = none := by
  set e := 0 ||| pgPresent ||| pgOsSys ||| pgPs ||| attr with he
  have hcall : createPageDir m attr =
      ((m.pageAlloc.1.clearPage f).store (f + 4 * dirIndex kernBase) e, f) := by
    rw [createPageDir, pageAlloc_cons hans hf0]
    simp only [if_neg hf0, ← he]
  have hlarge : large e = true := by
    rw [he, large, Nat.testBit_or]
    rfl
  have he32 : e < 2 ^ 32 := by
    apply Nat.or_lt_two_pow (by decide)
    omega
  have hnone : ∀ i < 1024, tableOf ((m.pageAlloc.1.clearPage f).store (f + 4 * dirIndex kernBase) e).word
      f i = none := by
    intro i hi
    have hword := word_store (m := m.pageAlloc.1.clearPage f) hf hf
      (dirIndex_lt : dirIndex kernBase < 1024) hi he32
    simp only [tableOf]
    rw [hword]
    split
    · rw [if_neg]
      simp [hlarge]
    · rw [word_clearPage hi]
      rfl
  rw [hcall]
  exact ⟨rfl, directory_of_none hf hnone, hnone⟩

/-- **`map_pages` maps its range**, when none of it is mapped and `page_alloc` has a frame for each
page table that is missing. -/
theorem mapPages_exact {size : ℕ} (hdir : Directory m.word pgDir) (hfresh : Fresh m pgDir)
    (hva : va % 0x1000 = 0) (hpa : pa % 0x1000 = 0) (hpa32 : pa < 2 ^ 32) (hsize : 1 ≤ size)
    (hend : va + size - 1 < 0xFFFFF000) (hattr : attr < 0x1000)
    (hfree : ∀ a, va ≤ a → a < va + size → translate m.word pgDir a = none)
    (hroom : missingTables m.word pgDir va size ≤ m.answers.length) :
    ∃ fuel m', mapPages fuel m pgDir va pa size attr = some (m', 0) ∧
      MapsExactly m m' pgDir va pa size attr := by
  have hfree' : ∀ a < 2 ^ 32, Covered va size a → translate m.word pgDir a = none := by
    intro a _ hcov
    have hrange : va ≤ pageOf a ∧ pageOf a < va + size := by
      obtain ⟨hlo, hhi⟩ := hcov
      simp only [pageOf] at hhi ⊢
      omega
    rw [translate_pageOf, hfree _ hrange.1 hrange.2]
    rfl
  obtain ⟨fuel, m', hcall, hmaps⟩ :=
    mapPages_spec va pa size attr hdir hfresh hva hsize hend hpa32 hattr hfree' hroom
  exact ⟨fuel, m', hcall, MapsExactly.of_maps hva hpa hattr hmaps⟩

/-- A directory without page tables at `0x1401000`, and two frames to be had. -/
def demoSpace : Space where
  bytes _ := 0
  reference _ := 0
  memoryStart := 0x1000000
  aligned := by decide
  answers := [0x1402000, 0x1403000]
  freed := []

theorem demoSpace_word (a : ℕ) : demoSpace.word a = 0 := by
  simp [Space.word, readWord, demoSpace]

theorem demoSpace_tables (i : ℕ) : tableOf demoSpace.word 0x1401000 i = none := by
  rw [tableOf, demoSpace_word]
  rfl

theorem demoSpace_directory : Directory demoSpace.word 0x1401000 :=
  directory_of_none (by decide) fun i _ => demoSpace_tables i

theorem demoSpace_fresh : Fresh demoSpace 0x1401000 where
  nodup := by decide
  frame := by decide
  outside := by
    have hne : ∀ f ∈ demoSpace.answers, f ≠ 0x1401000 := by decide
    exact fun f hf => ⟨hne f hf, fun i _ => by simp [demoSpace_tables]⟩

theorem demoSpace_translate (a : ℕ) : translate demoSpace.word 0x1401000 a = none := by
  rw [translate_of_tableOf_none (demoSpace_tables _), pdeOf_eq, demoSpace_word]
  rfl

theorem mapPages_exact_demo : ∃ fuel m', mapPages fuel demoSpace 0x1401000 0x3FF000 0x1500000 0x1001 7 =
    some (m', 0) ∧ MapsExactly demoSpace m' 0x1401000 0x3FF000 0x1500000 0x1001 7 :=
  mapPages_exact demoSpace_directory demoSpace_fresh (by decide) (by decide) (by decide) (by decide)
    (by decide) (by decide) (fun a _ _ => demoSpace_translate a) (by decide +kernel)

end OmochaOS.PageTables
