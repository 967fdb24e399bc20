import OmochaOS.Memory.MapPages

/-!
# What `unmap_pages` undoes (`modules/memory/paging.c`)

Pages are taken from `page_alloc` one by one and mapped (`MapsFresh`), and `unmap_pages` gives all of them
back (`unmapLoop_spec`).  The entry of a page that is not mapped is 0, and `vir2phy` does not look at its
present bit: it answers null for the first byte of the page and for no other.
-/

namespace OmochaOS.PageTables

open ByteMemory Paging

variable {m m' m₁ : Space} {pgDir va pa f g t w a i attr fuel : ℕ} {S S' : ℕ → Prop} {fs : List PAddr}

/-! ### Calls that come back -/

/-- With more fuel the loop does the same. -/
theorem mapLoop_fuel {last pdeAttr k : ℕ} {r : Space × ℕ}
    (h : mapLoop pgDir last pdeAttr attr fuel m va pa = some r) :
    mapLoop pgDir last pdeAttr attr (fuel + k) m va pa = some r := by
  induction fuel generalizing m va pa with
  | zero => cases h
  | succ fuel ih =>
    rw [Nat.succ_add]
    rw [mapLoop] at h ⊢
    split at h
    · rename_i hle
      rw [if_pos hle]
      dsimp only at h ⊢
      split at h
      · rename_i hnull
        rw [if_pos hnull]
        exact h
      · rename_i hnull
        rw [if_neg hnull]
        exact ih h
    · rename_i hle
      rw [if_neg hle]
      exact h

theorem mapPages_unique {size fuel' : ℕ} {r r' : Space × ℕ}
    (h : mapPages fuel m pgDir va pa size attr = some r)
    (h' : mapPages fuel' m pgDir va pa size attr = some r') : r = r' := by
  have hadd := mapLoop_fuel (k := fuel') h
  have hadd' := mapLoop_fuel (k := fuel) h'
  rw [Nat.add_comm] at hadd'
  rw [hadd] at hadd'
  exact Option.some.inj hadd'

/-- One page that `map_pages` has mapped. -/
theorem mapPages_inv (hdir : Directory m.word pgDir) (hfresh : Fresh m pgDir) (hva : va % 0x1000 = 0)
    (hend : va + 0xFFF < 0xFFFFF000) (hpa : pa < 2 ^ 32) (hattr : attr < 0x1000)
    (hfree : translate m.word pgDir va = none)
    (hcall : mapPages fuel m pgDir va pa 0x1000 attr = some (m', 0)) :
    ∃ k, Maps m m' pgDir (pdeAttrOf attr) (fun a => pageOf a = va)
      (fun a => (pa + (pageOf a - va)) % 2 ^ 32 ||| pgPresent ||| attr) k := by
  have hpage : pageOf va = va := by
    rw [pageOf]
    omega
  have hcov : ∀ a, pageOf a = va ↔ Covered va 0x1000 a := by
    intro a
    simp only [Covered, pageOf]
    omega
  have hfree' : ∀ a < 2 ^ 32, Covered va 0x1000 a → translate m.word pgDir a = none := by
    intro a _ ha
    rw [translate_pageOf, (hcov a).mpr ha, hfree]
    rfl
  have hindex : dirIndex (va + 0x1000 - 1) = dirIndex va := by
    simp only [dirIndex]
    omega
  have hroom : missingTables m.word pgDir va 0x1000 ≤ m.answers.length := by
    rw [missingTables, missing, hindex, Finset.Icc_self, Finset.filter_singleton]
    split
    · rename_i hp
      rw [Finset.card_singleton, Nat.one_le_iff_ne_zero, Ne, List.length_eq_zero_iff]
      intro hnil
      -- without a frame the call fails
      have hpde : present (pdeOf m.word pgDir va) = false := by
        rw [pdeOf_eq]
        exact hp
      have hnull : getPte m.word pgDir va = 0 := by
        rw [getPte, if_pos hpde]
      have hcreate : createPageTable m pgDir va (pdeAttrOf attr) = (m, 0) := by
        simp only [createPageTable, hnull, Space.pageAlloc, hnil]
        rfl
      rw [mapPages, hpage, lastPage_eq (by decide) (by omega)] at hcall
      cases fuel with
      | zero => cases hcall
      | succ fuel =>
        have hle : va ≤ pageOf (va + 0x1000 - 1) := by
          rw [pageOf]
          omega
        rw [mapLoop, if_pos hle, hcreate, if_pos rfl] at hcall
        cases hcall
    · exact Nat.zero_le _
  obtain ⟨fuel', m'', hcall', hmaps⟩ := mapPages_spec va pa 0x1000 attr hdir hfresh hva
    (by decide) (by omega) hpa hattr hfree' hroom
  obtain ⟨rfl, -⟩ := Prod.mk.inj (mapPages_unique hcall hcall')
  exact ⟨_, hmaps.congr hcov⟩

/-! ### Pages from `page_alloc` -/

/-- Pages are taken from `page_alloc` and mapped one after the other, from `va` on. -/
inductive MapsFresh (pgDir attr : ℕ) : Space → ℕ → List PAddr → Space → Prop
  | nil {m : Space} {va : ℕ} : MapsFresh pgDir attr m va [] m
  | cons {m m₁ m' : Space} {va f fuel : ℕ} {fs : List PAddr} (halloc : m.pageAlloc.2 = f) (hf : f ≠ 0)
      (hmap : mapPages fuel m.pageAlloc.1 pgDir va f 0x1000 attr = some (m₁, 0))
      (hrest : MapsFresh pgDir attr m₁ (va + 0x1000) fs m') : MapsFresh pgDir attr m va (f :: fs) m'

/-- The pages from `va` on are mapped to the frames, in order. -/
def Holds (word : ℕ → ℕ) (pgDir : ℕ) : ℕ → List PAddr → Prop
  | _, [] => True
  | va, f :: fs => (∃ t, tableOf word pgDir (dirIndex va) = some t ∧
      present (word (t + 4 * tabIndex va)) = true ∧ pageOf (word (t + 4 * tabIndex va)) = f) ∧
    Holds word pgDir (va + 0x1000) fs

/-- It depends on the entries of these pages. -/
theorem Holds.congr {word word' : ℕ → ℕ} (h : Holds word pgDir va fs)
    (hlt : va + fs.length * 0x1000 ≤ 2 ^ 32)
    (hsame : ∀ a < 2 ^ 32, va ≤ a → ∀ t, tableOf word pgDir (dirIndex a) = some t →
      tableOf word' pgDir (dirIndex a) = some t ∧
        word' (t + 4 * tabIndex a) = word (t + 4 * tabIndex a)) : Holds word' pgDir va fs := by
  induction fs generalizing va with
  | nil => trivial
  | cons f fs ih =>
    rw [List.length_cons] at hlt
    obtain ⟨⟨t, ht, hp, hpage⟩, hrest⟩ := h
    obtain ⟨ht', hword⟩ := hsame va (by omega) (le_refl _) t ht
    refine ⟨⟨t, ht', ?_, ?_⟩, ih hrest (by omega) fun a ha hva => hsame a ha (by omega)⟩
    · rw [hword]
      exact hp
    · rw [hword]
      exact hpage

/-- A frame is taken. -/
theorem Maps.pageAlloc {pdeAttr : ℕ} {E : ℕ → ℕ} {rest : List PAddr} (hdir : Directory m.word pgDir)
    (hfresh : Fresh m pgDir) (hans : m.answers = f :: rest) :
    Maps m m.pageAlloc.1 pgDir pdeAttr (fun _ => False) E 1 := by
  have hmem : f ∈ m.answers := by
    rw [hans]
    exact List.mem_cons_self
  have hnodup := hfresh.nodup
  rw [hans] at hnodup
  have hsub : ∀ g ∈ rest, g ∈ m.answers := by
    intro g hg
    rw [hans]
    exact List.mem_cons_of_mem f hg
  rw [pageAlloc_cons hans (hfresh.frame f hmem).2.1]
  constructor
  case directory => exact hdir
  case fresh =>
    exact ⟨(List.nodup_cons.mp hnodup).2, fun g hg => hfresh.frame g (hsub g hg),
      fun g hg => hfresh.outside g (hsub g hg)⟩
  case inside => exact fun _ _ h => h.elim
  case outside => exact fun _ _ _ _ _ => rfl
  case walk => exact fun _ _ _ => rfl
  case pde => exact fun _ _ => Or.inl rfl
  case answers =>
    rw [hans]
    rfl
  case kept => exact fun _ _ _ _ => AgreeOn.refl _ _ _
  case memoryStart => rfl
  case reference =>
    intro i hi
    exact Function.update_of_ne (hi f hmem).symm 1 m.reference
  case freed => rfl

theorem Maps.congr_entry {pdeAttr k : ℕ} {E E' : ℕ → ℕ} (h : Maps m m' pgDir pdeAttr S E k)
    (hE : ∀ a, S a → E' a = E a) : Maps m m' pgDir pdeAttr S E' k :=
  { h with
    inside := fun a ha hS => by
      obtain ⟨t, ht, he⟩ := h.inside a ha hS
      exact ⟨t, ht, he.trans (hE a hS).symm⟩ }

/-- The count of a frame that is not answered stays. -/
theorem Maps.pageReference_kept {pdeAttr k : ℕ} {E : ℕ → ℕ} (h : Maps m m' pgDir pdeAttr S E k)
    (hfresh : Fresh m pgDir) (hf : f % 0x1000 = 0) (hf32 : f < 2 ^ 32) (hnot : f ∉ m.answers) :
    m'.pageReference f = m.pageReference f := by
  have hid : m'.pageId f = m.pageId f := by
    rw [Space.pageId, h.memoryStart, Space.pageId]
  rw [Space.pageReference, hid, Space.pageReference]
  apply h.reference
  intro g hg hsame
  obtain ⟨hgf, -, hg32⟩ := hfresh.frame g hg
  obtain rfl := (pageId_inj hgf hf hg32 hf32).mp hsame
  exact hnot hg

/-- What has become of the pages and their frames. -/
structure FreshPages (m m' : Space) (pgDir pdeAttr va : ℕ) (fs : List PAddr) : Prop where
  maps : ∃ E k, Maps m m' pgDir pdeAttr (fun a => va ≤ a ∧ a < va + fs.length * 0x1000) E k
  holds : Holds m'.word pgDir va fs
  nodup : fs.Nodup
  frames : ∀ f ∈ fs, f ∈ m.answers ∧ f ∉ m'.answers ∧ m'.pageReference f = 1

theorem pageAlloc_eq (hfresh : Fresh m pgDir) (halloc : m.pageAlloc.2 = f) (hf : f ≠ 0) :
    ∃ rest, m.answers = f :: rest ∧ f ∉ rest := by
  cases hans : m.answers with
  | nil =>
    simp only [Space.pageAlloc, hans] at halloc
    exact absurd halloc.symm hf
  | cons g rest =>
    simp only [Space.pageAlloc, hans] at halloc
    subst halloc
    have hnodup := hfresh.nodup
    rw [hans] at hnodup
    exact ⟨rest, rfl, (List.nodup_cons.mp hnodup).1⟩

/-- **Pages that are taken and mapped** are there, each with its own frame. -/
theorem MapsFresh.spec (hrun : MapsFresh pgDir attr m va fs m') (hdir : Directory m.word pgDir)
    (hfresh : Fresh m pgDir) (hva : va % 0x1000 = 0) (hend : va + fs.length * 0x1000 ≤ 0xFFFFF000)
    (hattr : attr < 0x1000)
    (hfree : ∀ a < 2 ^ 32, va ≤ a → a < va + fs.length * 0x1000 → translate m.word pgDir a = none) :
    FreshPages m m' pgDir (pdeAttrOf attr) va fs := by
  induction hrun with
  | @nil m va =>
    have hnone : ∀ a, ¬ (va ≤ a ∧ a < va + ([] : List PAddr).length * 0x1000) := by
      intro a
      rw [List.length_nil]
      omega
    exact ⟨⟨fun _ => 0, 0, Maps.refl hdir hfresh hnone⟩, trivial, List.nodup_nil, nofun⟩
  | @cons m m₁ m' va f fuel fs halloc hf hmap hrest ih =>
    rw [List.length_cons] at hend hfree
    obtain ⟨rest, hans, hnot⟩ := pageAlloc_eq hfresh halloc hf
    have hmem : f ∈ m.answers := by
      rw [hans]
      exact List.mem_cons_self
    obtain ⟨hframe, -, hf32⟩ := hfresh.frame f hmem
    -- the frame is taken, then its page is mapped
    have htake : Maps m m.pageAlloc.1 pgDir (pdeAttrOf attr) (fun _ => False)
        (fun a => (f + (pageOf a - va)) % 2 ^ 32 ||| pgPresent ||| attr) 1 :=
      Maps.pageAlloc hdir hfresh hans
    have hanswers : m.pageAlloc.1.answers = rest := by
      rw [pageAlloc_cons hans hf]
    have hnot₀ : f ∉ m.pageAlloc.1.answers := by
      rw [hanswers]
      exact hnot
    obtain ⟨k, hpage⟩ := mapPages_inv htake.directory htake.fresh hva (by omega) hf32 hattr
      (by
        rw [htake.walk va (by omega) not_false]
        exact hfree va (by omega) (le_refl _) (by omega)) hmap
    have hone := htake.trans hpage
    have hnot₁ : f ∉ m₁.answers := fun h => hnot₀ (hpage.mem_answers h)
    have href : m₁.pageReference f = 1 := by
      rw [hpage.pageReference_kept htake.fresh hframe hf32 hnot₀, pageAlloc_cons hans hf]
      exact Function.update_self (m.pageId f) 1 m.reference
    -- the other pages
    have hih := ih hpage.directory hpage.fresh (by omega) (by omega) (by
      intro a ha hlo hhi
      rw [hone.walk a ha (by rw [false_or, pageOf]; omega)]
      exact hfree a ha (by omega) (by omega))
    obtain ⟨E, l, hmaps⟩ := hih.maps
    have hva32 : va < 2 ^ 32 := by omega
    obtain ⟨t, ht, hentry⟩ := hpage.inside va hva32 (by rw [pageOf]; omega)
    have hkeep := hmaps.outside va hva32 (by omega) t ht
    have hzero : pageOf va - va = 0 := by
      rw [pageOf]
      omega
    simp only [hzero, Nat.add_zero, Nat.mod_eq_of_lt hf32] at hentry
    constructor
    case maps =>
      refine ⟨fun a => if pageOf a = va then (f + (pageOf a - va)) % 2 ^ 32 ||| pgPresent ||| attr
        else E a, 1 + k + l, ?_⟩
      refine ((hone.congr_entry ?_).trans (hmaps.congr_entry ?_)).congr ?_
      · intro a ha
        rw [if_pos (ha.resolve_left id)]
      · intro a ha
        have hlo : va + 0x1000 ≤ a := ha.1
        rw [if_neg]
        rw [pageOf]
        omega
      · intro a
        simp only [List.length_cons, pageOf, false_or]
        omega
    case holds =>
      refine ⟨⟨t, hmaps.table_kept dirIndex_lt ht, ?_, ?_⟩, hih.holds⟩
      · rw [hkeep, hentry]
        exact tableEntry_present hframe
      · rw [hkeep, hentry]
        exact tableEntry_page hframe hattr
    case nodup =>
      refine List.nodup_cons.mpr ⟨fun hmem' => ?_, hih.nodup⟩
      exact hnot₁ (hih.frames f hmem').1
    case frames =>
      intro g hg
      rcases List.mem_cons.mp hg with rfl | hg
      · refine ⟨hmem, fun h => hnot₁ (hmaps.mem_answers h), ?_⟩
        rw [hmaps.pageReference_kept hpage.fresh hframe hf32 hnot₁]
        exact href
      · obtain ⟨hg₁, hg', hgref⟩ := hih.frames g hg
        exact ⟨hone.mem_answers hg₁, hg', hgref⟩

/-! ### The loop of `unmap_pages` -/

/-- The entries of the addresses in `S` are empty, and the others are as they were. -/
structure Unmaps (m m' : Space) (pgDir : ℕ) (S : ℕ → Prop) : Prop where
  pde : ∀ i < 1024, m'.word (pgDir + 4 * i) = m.word (pgDir + 4 * i)
  inside : ∀ a < 2 ^ 32, S a → ∀ t, tableOf m.word pgDir (dirIndex a) = some t →
    m'.word (t + 4 * tabIndex a) = 0
  outside : ∀ a < 2 ^ 32, ¬ S a → ∀ t, tableOf m.word pgDir (dirIndex a) = some t →
    m'.word (t + 4 * tabIndex a) = m.word (t + 4 * tabIndex a)
  answers : m'.answers = m.answers

theorem Unmaps.table_eq (h : Unmaps m m' pgDir S) (hi : i < 1024) :
    tableOf m'.word pgDir i = tableOf m.word pgDir i :=
  tableOf_congr (h.pde i hi)

/-- The other addresses are where they were. -/
theorem Unmaps.walk (h : Unmaps m m' pgDir S) (ha : a < 2 ^ 32) (hS : ¬ S a) :
    translate m'.word pgDir a = translate m.word pgDir a :=
  translate_congr (h.pde _ dirIndex_lt) (h.outside a ha hS)

theorem Unmaps.trans {m'' : Space} (h : Unmaps m m' pgDir S) (h' : Unmaps m' m'' pgDir S') :
    Unmaps m m'' pgDir fun a => S a ∨ S' a where
  pde i hi := (h'.pde i hi).trans (h.pde i hi)
  inside a ha hS t ht := by
    have ht' : tableOf m'.word pgDir (dirIndex a) = some t := (h.table_eq dirIndex_lt).trans ht
    by_cases hS' : S' a
    · exact h'.inside a ha hS' t ht'
    · rw [h'.outside a ha hS' t ht', h.inside a ha (hS.resolve_right hS') t ht]
  outside a ha hS t ht := by
    rw [not_or] at hS
    have ht' : tableOf m'.word pgDir (dirIndex a) = some t := (h.table_eq dirIndex_lt).trans ht
    rw [h'.outside a ha hS.2 t ht', h.outside a ha hS.1 t ht]
  answers := h'.answers.trans h.answers

theorem Unmaps.congr (h : Unmaps m m' pgDir S) (hS : ∀ a, S' a ↔ S a) : Unmaps m m' pgDir S' := by
  have heq : S' = S := funext fun a => propext (hS a)
  rw [heq]
  exact h

/-- An entry is cleared. -/
theorem Unmaps.entry (hdir : Directory m.word pgDir) (hva : va < 2 ^ 32)
    (ht : tableOf m.word pgDir (dirIndex va) = some t) :
    Unmaps m (m.store (t + 4 * tabIndex va) 0) pgDir fun a => pageOf a = pageOf va where
  pde i hi := pde_store hdir ht hi
  inside a ha hS g hg := by
    obtain ⟨hindex, htab⟩ := (pageOf_eq_iff ha hva).mp hS
    rw [hindex, ht] at hg
    obtain rfl := Option.some.inj hg
    rw [htab]
    exact pte_store_self ht (by decide)
  outside a ha hS g hg := pte_store hdir ht ha hva hS hg
  answers := rfl

/-- One round of the loop, for a page whose frame is counted once. -/
theorem unmapLoop_step {last : ℕ} (hva : va % 0x1000 = 0) (hle : va ≤ last)
    (ht : tableOf m.word pgDir (dirIndex va) = some t)
    (hp : present (m.word (t + 4 * tabIndex va)) = true)
    (hpage : pageOf (m.word (t + 4 * tabIndex va)) = f) (href : m.pageReference f = 1) :
    unmapLoop pgDir last (fuel + 1) m va = unmapLoop pgDir last fuel
      (((m.decreasePageRef f).pageFree f).store (t + 4 * tabIndex va) 0) (nextPage va) := by
  have hpte := getPte_eq ht
  have hp' : ¬ present (m.word (t + 4 * tabIndex va)) = false := by simp [hp]
  have hlow : va % 2 ^ 12 = 0 := hva
  rw [unmapLoop, if_pos hle, hpte]
  dsimp only
  rw [if_neg hp', hpage, hlow, Nat.add_zero, if_pos href]

/-- **The loop of `unmap_pages`** gives every frame back. -/
theorem unmapLoop_spec {last : ℕ} (hlast : last < 0xFFFFF000) (hdir : Directory m.word pgDir)
    (hva : va % 0x1000 = 0) (hn : va + fs.length * 0x1000 = last + 0x1000)
    (hholds : Holds m.word pgDir va fs) (hnodup : fs.Nodup)
    (hframes : ∀ f ∈ fs, f % 0x1000 = 0 ∧ f < 2 ^ 32 ∧ m.pageReference f = 1) :
    ∃ m', unmapLoop pgDir last (fs.length + 1) m va = some (m', 0) ∧
      Unmaps m m' pgDir (fun a => va ≤ a ∧ a < last + 0x1000) ∧ m'.freed = m.freed ++ fs := by
  induction fs generalizing m va with
  | nil =>
    rw [List.length_nil] at hn
    have hend : ¬ va ≤ last := by omega
    refine ⟨m, ?_, ⟨fun _ _ => rfl, ?_, fun _ _ _ _ _ => rfl, rfl⟩, (List.append_nil _).symm⟩
    · rw [unmapLoop, if_neg hend]
    · intro a _ hS
      omega
  | cons f fs ih =>
    rw [List.length_cons] at hn
    obtain ⟨⟨t, ht, hp, hpage⟩, hrest⟩ := hholds
    obtain ⟨hnot, hnodup'⟩ := List.nodup_cons.mp hnodup
    obtain ⟨hframe, hf32, href⟩ := hframes f List.mem_cons_self
    have hva32 : va < 2 ^ 32 := by omega
    have hpva : pageOf va = va := by
      rw [pageOf]
      omega
    set m₁ := ((m.decreasePageRef f).pageFree f).store (t + 4 * tabIndex va) 0 with hm₁
    have hstore := Unmaps.entry (m := (m.decreasePageRef f).pageFree f) hdir hva32 ht
    have hentry : Unmaps m m₁ pgDir fun a => pageOf a = pageOf va :=
      ⟨hstore.pde, hstore.inside, hstore.outside, hstore.answers⟩
    have hdir₁ : Directory m₁.word pgDir := hdir.congr hentry.pde
    have hholds₁ : Holds m₁.word pgDir (va + 0x1000) fs := by
      refine hrest.congr (by omega) fun a ha hlo g hg => ?_
      have hne : ¬ pageOf a = pageOf va := by
        rw [hpva, pageOf]
        omega
      exact ⟨(hentry.table_eq dirIndex_lt).trans hg, hentry.outside a ha hne g hg⟩
    have hframes₁ : ∀ g ∈ fs, g % 0x1000 = 0 ∧ g < 2 ^ 32 ∧ m₁.pageReference g = 1 := by
      intro g hg
      obtain ⟨hgf, hg32, hgref⟩ := hframes g (List.mem_cons_of_mem f hg)
      have hne : m.pageId g ≠ m.pageId f := by
        rw [Ne, pageId_inj hgf hframe hg32 hf32]
        rintro rfl
        exact hnot hg
      refine ⟨hgf, hg32, ?_⟩
      have hkeep : (m.decreasePageRef f).pageReference g = m.pageReference g :=
        pageReference_addReference hne
      exact hkeep.trans hgref
    obtain ⟨m', hloop, hunmaps, hfreed⟩ := ih hdir₁ (by omega) (by omega) hholds₁ hnodup' hframes₁
    refine ⟨m', ?_, (hentry.trans hunmaps).congr ?_, ?_⟩
    · rw [List.length_cons, unmapLoop_step hva (by omega) ht hp hpage href, nextPage_eq (by omega)]
      exact hloop
    · intro a
      rw [hpva, pageOf]
      omega
    · rw [hfreed]
      exact List.append_assoc m.freed [f] fs

/-! ### `unmap_pages` -/

/-- What `unmap_pages` is to do after the pages have been mapped in `m`, to `m₁`: it answers 0, gives every
frame back once, `vir2phy` finds nothing any more, and all other addresses are where they were. -/
def UnmapUndoes (m m₁ : Space) (pgDir va size : ℕ) (fs : List PAddr) : Prop :=
  ∃ fuel m₂, unmapPages fuel m₁ pgDir va size = some (m₂, 0) ∧
    m₂.freed = m₁.freed ++ fs ∧ fs.Nodup ∧
    (∀ a, va ≤ a → a < va + size → vir2phy m₂.word pgDir a = 0) ∧
    ∀ a < 2 ^ 32, ¬ Covered va size a → translate m₂.word pgDir a = translate m.word pgDir a

/-- **What comes of the pages**: they are given back, and their entries are empty. -/
theorem unmapPages_spec {size : ℕ} (hdir : Directory m.word pgDir) (hfresh : Fresh m pgDir)
    (hva : va % 0x1000 = 0) (hsize : 1 ≤ size) (hend : va + size - 1 < 0xFFFFF000)
    (hattr : attr < 0x1000) (hfree : ∀ a, va ≤ a → a < va + size → translate m.word pgDir a = none)
    (hrun : MapsFresh pgDir attr m va fs m₁)
    (hpages : va + fs.length * 0x1000 = pageOf (va + size - 1) + 0x1000) :
    ∃ fuel m₂, unmapPages fuel m₁ pgDir va size = some (m₂, 0) ∧ m₂.freed = m₁.freed ++ fs ∧
      fs.Nodup ∧
      (∀ a < 2 ^ 32, Covered va size a → ∃ t, tableOf m₂.word pgDir (dirIndex a) = some t ∧
        m₂.word (t + 4 * tabIndex a) = 0) ∧
      ∀ a < 2 ^ 32, ¬ Covered va size a → translate m₂.word pgDir a = translate m.word pgDir a := by
  have hlast : pageOf (va + size - 1) < 0xFFFFF000 := by
    rw [pageOf]
    omega
  have hcov : ∀ a, Covered va size a ↔ va ≤ a ∧ a < pageOf (va + size - 1) + 0x1000 := by
    intro a
    simp only [Covered, pageOf]
    omega
  have hfree' : ∀ a < 2 ^ 32, va ≤ a → a < va + fs.length * 0x1000 →
      translate m.word pgDir a = none := by
    intro a _ hlo hhi
    have hrange : va ≤ pageOf a ∧ pageOf a < va + size := by
      rw [hpages] at hhi
      simp only [pageOf] at hhi ⊢
      omega
    rw [translate_pageOf, hfree _ hrange.1 hrange.2]
    rfl
  have hfresh₁ := hrun.spec hdir hfresh hva (by omega) hattr hfree'
  obtain ⟨E, k, hmaps⟩ := hfresh₁.maps
  have hframes : ∀ f ∈ fs, f % 0x1000 = 0 ∧ f < 2 ^ 32 ∧ m₁.pageReference f = 1 := by
    intro f hf
    obtain ⟨hmem, -, href⟩ := hfresh₁.frames f hf
    obtain ⟨hframe, -, hf32⟩ := hfresh.frame f hmem
    exact ⟨hframe, hf32, href⟩
  obtain ⟨m₂, hloop, hunmaps, hfreed⟩ := unmapLoop_spec hlast hmaps.directory hva hpages hfresh₁.holds
    hfresh₁.nodup hframes
  have hpage : pageOf va = va := by
    rw [pageOf]
    omega
  refine ⟨fs.length + 1, m₂, ?_, hfreed, hfresh₁.nodup, ?_, ?_⟩
  · rw [unmapPages, hpage, lastPage_eq hsize hend]
    exact hloop
  · intro a ha ha'
    have hrange := (hcov a).mp ha'
    obtain ⟨t, ht, -⟩ := hmaps.inside a ha (by omega)
    exact ⟨t, (hunmaps.table_eq dirIndex_lt).trans ht, hunmaps.inside a ha hrange t ht⟩
  · intro a ha ha'
    rw [hcov] at ha'
    rw [hunmaps.walk ha ha']
    exact hmaps.walk a ha (by omega)

/-- `vir2phy` of an empty entry: the place in the page. -/
theorem vir2phy_of_empty (ht : tableOf m.word pgDir (dirIndex a) = some t)
    (hempty : m.word (t + 4 * tabIndex a) = 0) : vir2phy m.word pgDir a = a % 2 ^ 12 := by
  rw [vir2phy_eq ht, hempty, pageOf]
  omega

theorem unmapLoop_fuel {last k : ℕ} {r : Space × ℕ} (h : unmapLoop pgDir last fuel m va = some r) :
    unmapLoop pgDir last (fuel + k) m va = some r := by
  induction fuel generalizing m va with
  | zero => cases h
  | succ fuel ih =>
    rw [Nat.succ_add]
    rw [unmapLoop] at h ⊢
    split at h
    · rename_i hle
      rw [if_pos hle]
      dsimp only at h ⊢
      split at h
      · rename_i hnot
        rw [if_pos hnot]
        exact h
      · rename_i hnot
        rw [if_neg hnot]
        exact ih h
    · rename_i hle
      rw [if_neg hle]
      exact h

theorem unmapPages_unique {size fuel' : ℕ} {r r' : Space × ℕ}
    (h : unmapPages fuel m pgDir va size = some r) (h' : unmapPages fuel' m pgDir va size = some r') :
    r = r' := by
  have hadd := unmapLoop_fuel (k := fuel') h
  have hadd' := unmapLoop_fuel (k := fuel) h'
  rw [Nat.add_comm] at hadd'
  rw [hadd] at hadd'
  exact Option.some.inj hadd'

section Undoes

variable {size : ℕ} (hdir : Directory m.word pgDir) (hfresh : Fresh m pgDir) (hva : va % 0x1000 = 0)
  (hend : va + size - 1 < 0xFFFFF000) (hattr : attr < 0x1000)
  (hfree : ∀ a, va ≤ a → a < va + size → translate m.word pgDir a = none)
  (hrun : MapsFresh pgDir attr m va fs m₁)
  (hpages : va + fs.length * 0x1000 = pageOf (va + size - 1) + 0x1000)
include hdir hfresh hva hend hattr hfree hrun hpages

/-- After two bytes, `vir2phy` still answers for the second. -/
theorem not_unmapUndoes (hsize : 2 ≤ size) : ¬ UnmapUndoes m m₁ pgDir va size fs := by
  intro h
  obtain ⟨fuel, m₂, hcall, -, -, hnull, -⟩ := h
  obtain ⟨fuel', m', hcall', -, -, hempty, -⟩ :=
    unmapPages_spec hdir hfresh hva (by omega) hend hattr hfree hrun hpages
  obtain ⟨rfl, -⟩ := Prod.mk.inj (unmapPages_unique hcall hcall')
  obtain ⟨t, ht, hzero⟩ := hempty (va + 1) (by omega) (by simp only [Covered, pageOf]; omega)
  have hsecond := hnull (va + 1) (by omega) (by omega)
  rw [vir2phy_of_empty ht hzero] at hsecond
  omega

/-- **`unmap_pages` undoes the mapping of one byte only.** -/
theorem unmapUndoes_iff (hsize : 1 ≤ size) : UnmapUndoes m m₁ pgDir va size fs ↔ size = 1 := by
  constructor
  · intro h
    by_contra hne
    exact not_unmapUndoes hdir hfresh hva hend hattr hfree hrun hpages (by omega) h
  · intro hone
    obtain ⟨fuel, m₂, hcall, hfreed, hnodup, hempty, hothers⟩ :=
      unmapPages_spec hdir hfresh hva hsize hend hattr hfree hrun hpages
    refine ⟨fuel, m₂, hcall, hfreed, hnodup, fun a hlo hhi => ?_, hothers⟩
    have ha : a = va := by omega
    subst ha
    obtain ⟨t, ht, hzero⟩ := hempty a (by omega) (by simp only [Covered, pageOf]; omega)
    rw [vir2phy_of_empty ht hzero]
    exact hva

end Undoes

/-- A frame from `page_alloc` is mapped at `0x1000`. -/
theorem demoSpace_mapsFresh : ∃ m₁, MapsFresh 0x1401000 7 demoSpace 0x1000 [0x1402000] m₁ := by
  have htake : Maps demoSpace demoSpace.pageAlloc.1 0x1401000 7 (fun _ => False) (fun _ => 0) 1 :=
    Maps.pageAlloc demoSpace_directory demoSpace_fresh rfl
  obtain ⟨fuel, m₁, hcall, -⟩ := mapPages_spec 0x1000 0x1402000 0x1000 7 htake.directory htake.fresh
    (by decide) (by decide) (by decide) (by decide) (by decide) (fun a _ _ => demoSpace_translate a)
    (by decide +kernel)
  exact ⟨m₁, MapsFresh.cons rfl (by decide) hcall MapsFresh.nil⟩

theorem unmapUndoes_iff_demo : ∃ m₁, UnmapUndoes demoSpace m₁ 0x1401000 0x1000 1 [0x1402000] := by
  obtain ⟨m₁, hrun⟩ := demoSpace_mapsFresh
  exact ⟨m₁, (unmapUndoes_iff demoSpace_directory demoSpace_fresh (by decide) (by decide) (by decide)
    (fun a _ _ => demoSpace_translate a) hrun (by decide) (by decide)).mpr rfl⟩

/-- A page is mapped and unmapped: `vir2phy` still answers for it. -/
theorem page_still_translated : ∃ m₁, MapsFresh 0x1401000 7 demoSpace 0x1000 [0x1402000] m₁ ∧
    ¬ UnmapUndoes demoSpace m₁ 0x1401000 0x1000 0x1000 [0x1402000] := by
  obtain ⟨m₁, hrun⟩ := demoSpace_mapsFresh
  exact ⟨m₁, hrun, not_unmapUndoes demoSpace_directory demoSpace_fresh (by decide) (by decide)
    (by decide) (fun a _ _ => demoSpace_translate a) hrun (by decide) (by decide)⟩

end OmochaOS.PageTables
