import Mathlib.Algebra.BigOperators.Group.Finset.Basic
import OmochaOS.Memory.CopyOnWrite
import OmochaOS.Memory.ForkProc

/-!
# What a fork shares (`modules/memory/fork.c`)

`copy_parent` goes through the stack and the image of the parent: it puts the page tables of the range into the
directory of the child, takes the write bit from the entry of every page, and counts the tables and the frames
once more.

* `shareAll_spec` — what becomes of the entries, when all ranges have been gone through;
* `Ranged.references_table`, `Ranged.references_page` — what is added to the counts.
-/

namespace OmochaOS.PageTables

open ByteMemory Paging ForkProc

variable {m m' : Space} {parentDir pgDir f g t a va i j n k : ℕ}

/-! ### Page tables are shared -/

/-- The terms of a sum over the first numbers, with the first one apart. -/
theorem sum_range_first (n : ℕ) (x : ℕ → ℤ) :
    ∑ j ∈ Finset.range (n + 1), x j = x 0 + ∑ j ∈ Finset.range n, x (j + 1) := by
  rw [Finset.sum_range_succ', add_comm]

theorem pageReference_increasePageRef (hf : f % 0x1000 = 0) (hf32 : f < 2 ^ 32) (hg : g % 0x1000 = 0)
    (hg32 : g < 2 ^ 32) : (m.increasePageRef f).pageReference g = m.pageReference g + if f = g then 1 else 0 := by
  by_cases h : f = g
  · subst h
    rw [if_pos rfl]
    exact pageReference_addReference_self
  · rw [if_neg h, Int.add_zero]
    apply pageReference_addReference
    rw [Ne, pageId_inj hg hf hg32 hf32]
    exact fun he => h he.symm

/-- The entries from `i` on are those of the parent. -/
structure TablesShared (m m' : Space) (parentDir pgDir i n : ℕ) : Prop where
  pdes : ∀ j < 1024, m'.word (pgDir + 4 * j) =
    if i ≤ j ∧ j < i + n then m.word (parentDir + 4 * j) else m.word (pgDir + 4 * j)
  kept : ∀ g, g % 0x1000 = 0 → g ≠ pgDir → AgreeOn m'.bytes m.bytes g 0x1000
  answers : m'.answers = m.answers
  references : ∀ g, g % 0x1000 = 0 → g < 2 ^ 32 → m'.pageReference g = m.pageReference g +
    ∑ j ∈ Finset.range n, if pageOf (m.word (parentDir + 4 * (i + j))) = g then 1 else 0

theorem shareTables_spec (hparent : parentDir % 0x1000 = 0) (hdir : pgDir % 0x1000 = 0) (hne : parentDir ≠ pgDir)
    (n i : ℕ) (m : Space) (hend : i + n ≤ 1024) :
    TablesShared m (shareTables parentDir pgDir n i m) parentDir pgDir i n := by
  induction n generalizing i m with
  | zero =>
    refine ⟨fun j _ => ?_, fun g _ _ => .refl _ _ _, rfl, fun g _ _ => ?_⟩
    · rw [if_neg (by omega)]
      rfl
    · rw [Finset.sum_range_zero, Int.add_zero]
      rfl
  | succ n ih =>
    have hi : i < 1024 := by omega
    set m₁ := m.store (pgDir + 4 * i) (m.word (parentDir + 4 * i)) with hm₁
    have hword : ∀ j < 1024, m₁.word (pgDir + 4 * j) =
        if j = i then m.word (parentDir + 4 * j) else m.word (pgDir + 4 * j) := by
      intro j hj
      rw [hm₁, word_store hdir hdir hi hj (word_lt m _)]
      by_cases hji : j = i
      · rw [if_pos ⟨rfl, hji⟩, if_pos hji, hji]
      · rw [if_neg fun h => hji h.2, if_neg hji]
    have hself : pageOf (m₁.word (pgDir + 4 * i)) = pageOf (m.word (parentDir + 4 * i)) := by
      rw [hword i hi, if_pos rfl]
    have hothers : ∀ j < 1024, m₁.word (parentDir + 4 * j) = m.word (parentDir + 4 * j) := fun j hj =>
      word_store_of_ne hdir hparent hi hj (Or.inl hne)
    have hrest := ih (i + 1) (m₁.increasePageRef (pageOf (m₁.word (pgDir + 4 * i)))) (by omega)
    have hcall : shareTables parentDir pgDir (n + 1) i m =
        shareTables parentDir pgDir n (i + 1) (m₁.increasePageRef (pageOf (m₁.word (pgDir + 4 * i)))) := rfl
    rw [hcall]
    constructor
    case pdes =>
      intro j hj
      rw [hrest.pdes j hj]
      show (if i + 1 ≤ j ∧ j < i + 1 + n then m₁.word (parentDir + 4 * j) else m₁.word (pgDir + 4 * j)) = _
      rw [hothers j hj, hword j hj]
      by_cases hrange : i + 1 ≤ j ∧ j < i + 1 + n
      · rw [if_pos hrange, if_pos (by omega)]
      · rw [if_neg hrange]
        by_cases hji : j = i
        · rw [if_pos hji, if_pos (by omega)]
        · rw [if_neg hji, if_neg (by omega)]
    case kept =>
      intro g hg hgd
      exact (hrest.kept g hg hgd).trans (agreeOn_store hdir hg hi hgd)
    case answers => exact hrest.answers
    case references =>
      intro g hg hg32
      have hfirst := pageReference_increasePageRef (m := m₁) (pageOf_mod (a := m₁.word (pgDir + 4 * i))) pageOf_word_lt hg hg32
      have hsum : ∀ j ∈ Finset.range n, (if pageOf (m₁.word (parentDir + 4 * (i + 1 + j))) = g then (1 : ℤ) else 0) =
          if pageOf (m.word (parentDir + 4 * (i + (j + 1)))) = g then 1 else 0 := by
        intro j hj
        have hj' : j < n := Finset.mem_range.mp hj
        rw [hothers _ (by omega), Nat.add_right_comm i 1 j, Nat.add_assoc i j 1]
      have hlast := (hrest.references g hg hg32).trans (congrArg₂ (· + ·) hfirst (Finset.sum_congr rfl hsum))
      rw [hlast, sum_range_first, hself, Nat.add_zero]
      exact add_assoc _ _ _

/-! ### Pages lose their write bit -/

/-- The frame that the entry for an address leads to. -/
def frameAt (word : ℕ → ℕ) (pgDir a : ℕ) : ℕ := pageOf (pteOf word (pdeOf word pgDir a) a)

/-- The write bits of the pages from `va` on are gone. -/
structure PagesShared (m m' : Space) (pgDir va n : ℕ) : Prop where
  pdes : ∀ i < 1024, m'.word (pgDir + 4 * i) = m.word (pgDir + 4 * i)
  entries : ∀ a < 2 ^ 32, ∀ t, tableOf m.word pgDir (dirIndex a) = some t → m'.word (t + 4 * tabIndex a) =
    if va ≤ a ∧ a < va + n * 0x1000 then clearWritable (m.word (t + 4 * tabIndex a)) else m.word (t + 4 * tabIndex a)
  kept : ∀ g, g % 0x1000 = 0 → (∀ i < 1024, tableOf m.word pgDir i ≠ some g) → AgreeOn m'.bytes m.bytes g 0x1000
  answers : m'.answers = m.answers
  references : ∀ g, g % 0x1000 = 0 → g < 2 ^ 32 → m'.pageReference g = m.pageReference g +
    ∑ j ∈ Finset.range n, if frameAt m.word pgDir (va + j * 0x1000) = g then 1 else 0

theorem sharePages_succ (pgDir n : ℕ) : sharePages pgDir (n + 1) = fun va m =>
    sharePages pgDir n (va + 0x1000)
      ((m.store (getPte m.word pgDir va) (clearWritable (m.word (getPte m.word pgDir va)))).increasePageRef
        (vir2phy m.word pgDir va)) := rfl

theorem sharePages_step (ht : tableOf m.word pgDir (dirIndex va) = some t) : sharePages pgDir (n + 1) va m =
    sharePages pgDir n (va + 0x1000) ((m.store (t + 4 * tabIndex va) (clearWritable (m.word (t + 4 * tabIndex va)))).increasePageRef
      (vir2phy m.word pgDir va)) := by
  rw [sharePages_succ, ← getPte_eq ht]

/-- The start of a page is where its frame starts. -/
theorem vir2phy_page (ht : tableOf m.word pgDir (dirIndex va) = some t) (hva : va % 0x1000 = 0) :
    vir2phy m.word pgDir va = frameAt m.word pgDir va := by
  have hlt : pageOf (m.word (t + 4 * tabIndex va)) < 2 ^ 32 := pageOf_word_lt
  have hoffset : va % 2 ^ 12 = 0 := hva
  rw [vir2phy_eq ht, frameAt, pteOf_eq ht, hoffset, Nat.add_zero, Nat.mod_eq_of_lt hlt]

theorem sharePages_spec (n va : ℕ) (m : Space) (hdir : Directory m.word pgDir) (hva : va % 0x1000 = 0)
    (hend : va + n * 0x1000 ≤ 2 ^ 32)
    (htables : ∀ j < n, (tableOf m.word pgDir (dirIndex (va + j * 0x1000))).isSome) :
    PagesShared m (sharePages pgDir n va m) pgDir va n := by
  induction n generalizing va m with
  | zero =>
    have hnone : sharePages pgDir 0 va m = m := rfl
    rw [hnone]
    refine ⟨fun _ _ => rfl, fun a _ t _ => ?_, fun g _ _ => .refl _ _ _, rfl, fun g _ _ => ?_⟩
    · rw [if_neg (by omega)]
    · rw [Finset.sum_range_zero, Int.add_zero]
  | succ n ih =>
    obtain ⟨t, ht⟩ := Option.isSome_iff_exists.mp (htables 0 (Nat.succ_pos n))
    rw [Nat.zero_mul, Nat.add_zero] at ht
    have hlt : va < 2 ^ 32 := by omega
    set m₁ := m.store (t + 4 * tabIndex va) (clearWritable (m.word (t + 4 * tabIndex va))) with hm₁
    have hpde : ∀ i < 1024, m₁.word (pgDir + 4 * i) = m.word (pgDir + 4 * i) := fun i hi => pde_store hdir ht hi
    have hcall : sharePages pgDir (n + 1) va m =
        sharePages pgDir n (va + 0x1000) (m₁.increasePageRef (vir2phy m.word pgDir va)) := sharePages_step ht
    have hentry : ∀ a < 2 ^ 32, ∀ g, tableOf m.word pgDir (dirIndex a) = some g → m₁.word (g + 4 * tabIndex a) =
        if pageOf a = va then clearWritable (m.word (g + 4 * tabIndex a)) else m.word (g + 4 * tabIndex a) := by
      intro a ha g hg
      have hpage : pageOf va = va := by
        rw [pageOf]
        omega
      by_cases he : pageOf a = va
      · obtain ⟨hi, hj⟩ := (pageOf_eq_iff ha hlt).mp (he.trans hpage.symm)
        rw [hi, ht] at hg
        obtain rfl := Option.some.inj hg
        rw [if_pos he, hj]
        exact pte_store_self ht (clearWritable_lt (word_lt m _))
      · rw [if_neg he]
        exact pte_store hdir ht ha hlt (by rw [hpage]; exact he) hg
    have hdir₁ : Directory m₁.word pgDir := directory_store hdir ht
    have htab : ∀ i < 1024, tableOf m₁.word pgDir i = tableOf m.word pgDir i := fun i hi => tableOf_congr (hpde i hi)
    have hrest := ih (va + 0x1000) (m₁.increasePageRef (vir2phy m.word pgDir va)) hdir₁ (by omega) (by omega)
      fun j hj => by
        show (tableOf m₁.word pgDir _).isSome = true
        rw [htab _ dirIndex_lt]
        have hnext := htables (j + 1) (Nat.succ_lt_succ hj)
        rw [show va + 0x1000 + j * 0x1000 = va + (j + 1) * 0x1000 by omega]
        exact hnext
    rw [hcall]
    constructor
    case pdes => exact fun i hi => (hrest.pdes i hi).trans (hpde i hi)
    case entries =>
      intro a ha g hg
      rw [hrest.entries a ha g ((htab _ dirIndex_lt).trans hg)]
      show (if va + 0x1000 ≤ a ∧ a < va + 0x1000 + n * 0x1000 then clearWritable (m₁.word (g + 4 * tabIndex a))
        else m₁.word (g + 4 * tabIndex a)) = _
      rw [hentry a ha g hg]
      have hpage : pageOf a = va ↔ va ≤ a ∧ a < va + 0x1000 := by
        rw [pageOf]
        omega
      by_cases hrange : va + 0x1000 ≤ a ∧ a < va + 0x1000 + n * 0x1000
      · rw [if_pos hrange, if_neg (by rw [hpage]; omega), if_pos (by omega)]
      · rw [if_neg hrange]
        by_cases he : pageOf a = va
        · rw [if_pos he, if_pos (by rw [hpage] at he; omega)]
        · rw [if_neg he, if_neg (by rw [hpage] at he; omega)]
    case kept =>
      intro g hg hout
      have hfirst : AgreeOn m₁.bytes m.bytes g 0x1000 :=
        agreeOn_store (tableOf_frame ht) hg tabIndex_lt fun he => hout _ dirIndex_lt (he ▸ ht)
      refine (hrest.kept g hg fun i hi => ?_).trans hfirst
      show tableOf m₁.word pgDir i ≠ some g
      rw [htab i hi]
      exact hout i hi
    case answers => exact hrest.answers
    case references =>
      intro g hg hg32
      have hframe : frameAt m.word pgDir va % 0x1000 = 0 ∧ frameAt m.word pgDir va < 2 ^ 32 := ⟨pageOf_mod, pageOf_word_lt⟩
      have hfirst := pageReference_increasePageRef (m := m₁) hframe.1 hframe.2 hg hg32
      have hsum : ∀ j ∈ Finset.range n, (if frameAt m₁.word pgDir (va + 0x1000 + j * 0x1000) = g then (1 : ℤ) else 0) =
          if frameAt m.word pgDir (va + (j + 1) * 0x1000) = g then 1 else 0 := by
        intro j hj
        have hj' : j < n := Finset.mem_range.mp hj
        have hplace : va + 0x1000 + j * 0x1000 = va + (j + 1) * 0x1000 := by omega
        obtain ⟨u, hu⟩ := Option.isSome_iff_exists.mp (htables (j + 1) (Nat.succ_lt_succ hj'))
        rw [hplace, frameAt, frameAt, pteOf_eq hu, pteOf_eq ((htab _ dirIndex_lt).trans hu), hentry _ (by omega) u hu]
        split
        · rw [pageOf_clearWritable (word_lt m _)]
        · rfl
      rw [vir2phy_page ht hva] at hrest ⊢
      have hlast := (hrest.references g hg hg32).trans (congrArg₂ (· + ·) hfirst (Finset.sum_congr rfl hsum))
      rw [hlast, sum_range_first, Nat.zero_mul, Nat.add_zero]
      exact add_assoc _ _ _

/-! ### A range of addresses -/

/-- The page tables of the child are the parent's. -/
def Under (word : ℕ → ℕ) (parentDir pgDir : ℕ) : Prop :=
  ∀ i < 1024, ∀ t, tableOf word pgDir i = some t → tableOf word parentDir i = some t

/-- The tables of `I` are shared, and the pages of `V` have lost their write bit. -/
structure Shares (m m' : Space) (parentDir pgDir : ℕ) (I V : ℕ → Prop) (r : ℕ → ℤ) : Prop where
  shared : ∀ i < 1024, I i → m'.word (pgDir + 4 * i) = m.word (parentDir + 4 * i)
  others : ∀ i < 1024, ¬ I i → m'.word (pgDir + 4 * i) = m.word (pgDir + 4 * i)
  cleared : ∀ a < 2 ^ 32, V a → ∀ t, tableOf m.word parentDir (dirIndex a) = some t →
    m'.word (t + 4 * tabIndex a) = clearWritable (m.word (t + 4 * tabIndex a))
  entries : ∀ a < 2 ^ 32, ¬ V a → ∀ t, tableOf m.word parentDir (dirIndex a) = some t →
    m'.word (t + 4 * tabIndex a) = m.word (t + 4 * tabIndex a)
  kept : ∀ g, g % 0x1000 = 0 → g ≠ pgDir → (∀ i < 1024, tableOf m.word parentDir i ≠ some g) →
    AgreeOn m'.bytes m.bytes g 0x1000
  answers : m'.answers = m.answers
  references : ∀ g, g % 0x1000 = 0 → g < 2 ^ 32 → m'.pageReference g = m.pageReference g + r g

section Range

variable (hdir : Directory m.word parentDir) (hframe : pgDir % 0x1000 = 0) (hout : Outside m.word parentDir pgDir)
include hdir hframe hout

/-- What is added to the counts for a range. -/
def rangeReferences (word : ℕ → ℕ) (parentDir i n va k g : ℕ) : ℤ :=
  (∑ j ∈ Finset.range n, if pageOf (word (parentDir + 4 * (i + j))) = g then 1 else 0) +
    ∑ j ∈ Finset.range k, if frameAt word parentDir (va + j * 0x1000) = g then 1 else 0

/-- **A range is shared.** -/
theorem shareRange_spec (hunder : Under m.word parentDir pgDir) (i n va k : ℕ) (hend : i + n ≤ 1024)
    (hva : va % 0x1000 = 0) (hlt : va + k * 0x1000 ≤ 2 ^ 32)
    (hpages : ∀ j < k, (i ≤ dirIndex (va + j * 0x1000) ∧ dirIndex (va + j * 0x1000) < i + n) ∧
      (tableOf m.word parentDir (dirIndex (va + j * 0x1000))).isSome) :
    Shares m (sharePages pgDir k va (shareTables parentDir pgDir n i m)) parentDir pgDir
      (fun j => i ≤ j ∧ j < i + n) (fun a => va ≤ a ∧ a < va + k * 0x1000)
      (rangeReferences m.word parentDir i n va k) ∧
    Under (sharePages pgDir k va (shareTables parentDir pgDir n i m)).word parentDir pgDir := by
  have hfirst := shareTables_spec hdir.frame hframe (Ne.symm hout.1) n i m hend
  set m₁ := shareTables parentDir pgDir n i m with hm₁
  -- the directory of the parent and its tables, before and between
  have hparent : ∀ j < 1024, m₁.word (parentDir + 4 * j) = m.word (parentDir + 4 * j) := fun j hj =>
    (hfirst.kept parentDir hdir.frame hout.1.symm).readWord (by omega)
  have htable : ∀ j < 1024, ∀ t, tableOf m.word parentDir j = some t → ∀ x < 1024,
      m₁.word (t + 4 * x) = m.word (t + 4 * x) := fun j hj t ht x hx =>
    (hfirst.kept t (tableOf_frame ht) (hout.ne_table hj ht)).readWord (by omega)
  have hptab : ∀ j < 1024, tableOf m₁.word parentDir j = tableOf m.word parentDir j := fun j hj =>
    tableOf_congr (hparent j hj)
  have hchild : ∀ j < 1024, i ≤ j ∧ j < i + n → tableOf m₁.word pgDir j = tableOf m.word parentDir j := by
    intro j hj hrange
    rw [tableOf, tableOf, hfirst.pdes j hj, if_pos hrange]
  have hunder₁ : Under m₁.word parentDir pgDir := by
    intro j hj t ht
    rw [hptab j hj]
    by_cases hrange : i ≤ j ∧ j < i + n
    · exact (hchild j hj hrange).symm.trans ht
    · refine hunder j hj t ?_
      rw [← ht, tableOf, tableOf, hfirst.pdes j hj, if_neg hrange]
  have hunder₀ : ∀ j < 1024, ∀ t, tableOf m₁.word pgDir j = some t → tableOf m.word parentDir j = some t :=
    fun j hj t ht => (hptab j hj).symm.trans (hunder₁ j hj t ht)
  have hdir₁ : Directory m₁.word pgDir := by
    constructor
    · exact hframe
    · exact fun j hj h0 => hdir.ne_null j hj (hunder₀ j hj 0 h0)
    · exact fun j hj hself => hout.2 j hj (hunder₀ j hj pgDir hself)
    · exact fun j hj x hx t hjt hxt => hdir.unique j hj x hx t (hunder₀ j hj t hjt) (hunder₀ x hx t hxt)
  have hsecond := sharePages_spec k va m₁ hdir₁ hva hlt fun j hj => by
    rw [hchild _ dirIndex_lt (hpages j hj).1]
    exact (hpages j hj).2
  -- the pages of the range are in the tables of the range
  have hcover : ∀ a, va ≤ a ∧ a < va + k * 0x1000 → i ≤ dirIndex a ∧ dirIndex a < i + n := by
    intro a ha
    have hpage := (hpages ((a - va) / 0x1000) (by omega)).1
    have hsame : dirIndex (va + (a - va) / 0x1000 * 0x1000) = dirIndex a := by
      rw [dirIndex, dirIndex]
      omega
    rw [hsame] at hpage
    exact hpage
  refine ⟨?_, ?_⟩
  · constructor
    case shared =>
      intro j hj hrange
      rw [hsecond.pdes j hj, hfirst.pdes j hj, if_pos hrange]
    case others =>
      intro j hj hrange
      rw [hsecond.pdes j hj, hfirst.pdes j hj, if_neg hrange]
    case cleared =>
      intro a ha hV t ht
      have ht₁ := (hchild _ dirIndex_lt (hcover a hV)).trans ht
      rw [hsecond.entries a ha t ht₁, if_pos hV, htable _ dirIndex_lt t ht _ tabIndex_lt]
    case entries =>
      intro a ha hV t ht
      rw [← htable _ dirIndex_lt t ht _ tabIndex_lt]
      by_cases hchild' : ∃ j < 1024, tableOf m₁.word pgDir j = some t
      · obtain ⟨j, hj, hjt⟩ := hchild'
        obtain rfl : j = dirIndex a := hdir.unique j hj _ dirIndex_lt t (hunder₀ j hj t hjt) ht
        rw [hsecond.entries a ha t hjt, if_neg hV]
      · have hkept := hsecond.kept t (tableOf_frame ht) fun j hj hjt => hchild' ⟨j, hj, hjt⟩
        have hj : tabIndex a < 1024 := tabIndex_lt
        exact hkept.readWord (by omega)
    case kept =>
      intro g hg hgd hnot
      exact (hsecond.kept g hg fun j hj hjt => hnot j hj (hunder₀ j hj g hjt)).trans (hfirst.kept g hg hgd)
    case answers => rw [hsecond.answers, hfirst.answers]
    case references =>
      intro g hg hg32
      have hsum : ∀ j ∈ Finset.range k, (if frameAt m₁.word pgDir (va + j * 0x1000) = g then (1 : ℤ) else 0) =
          if frameAt m.word parentDir (va + j * 0x1000) = g then 1 else 0 := by
        intro j hj
        obtain ⟨hrange, hsome⟩ := hpages j (Finset.mem_range.mp hj)
        obtain ⟨t, ht⟩ := Option.isSome_iff_exists.mp hsome
        rw [frameAt, frameAt, pteOf_eq ht, pteOf_eq ((hchild _ dirIndex_lt hrange).trans ht),
          htable _ dirIndex_lt t ht _ tabIndex_lt]
      rw [hsecond.references g hg hg32, hfirst.references g hg hg32, Finset.sum_congr rfl hsum, rangeReferences, add_assoc]
  · have hlast : ∀ j < 1024, tableOf (sharePages pgDir k va m₁).word parentDir j = tableOf m₁.word parentDir j := by
      intro j hj
      refine tableOf_congr ?_
      have hkept := hsecond.kept parentDir hdir.frame fun x hx hxt => hdir.ne_self x hx (hunder₀ x hx _ hxt)
      exact hkept.readWord (by omega)
    intro j hj t ht
    rw [hlast j hj]
    refine hunder₁ j hj t ?_
    rw [← ht]
    exact (tableOf_congr (hsecond.pdes j hj)).symm

end Range

/-! ### What a range adds to the counts -/

section References

variable {word : ℕ → ℕ} {d p : ℕ}

/-- `map_pages` gives each page a frame of its own. -/
def Once (word : ℕ → ℕ) (d : ℕ) : Prop :=
  ∀ a < 2 ^ 32, ∀ b < 2 ^ 32, ∀ e e', entryOf word d a = some e → entryOf word d b = some e' →
    pageOf e = pageOf e' → pageOf a = pageOf b

/-- The range has its page tables, and each of its pages is mapped. -/
structure Complete (word : ℕ → ℕ) (d i n va k : ℕ) : Prop where
  end_le : i + n ≤ 1024
  page : va % 0x1000 = 0
  last_le : va + k * 0x1000 ≤ 2 ^ 32
  tables : ∀ j, i ≤ j ∧ j < i + n → (tableOf word d j).isSome
  pages : ∀ a, va ≤ a ∧ a < va + k * 0x1000 → (entryOf word d a).isSome
  inside : ∀ a, va ≤ a ∧ a < va + k * 0x1000 → i ≤ dirIndex a ∧ dirIndex a < i + n

theorem frameAt_of_entry {e : ℕ} (h : entryOf word d a = some e) : frameAt word d a = pageOf e := by
  obtain ⟨t, ht, he, -⟩ := entryOf_eq_some h
  rw [frameAt, pteOf_eq ht, he]

variable (hdir : Directory word d) (hc : Complete word d i n va k)
include hc

theorem Complete.mapsFrame (hj : j < k) : ∃ e, entryOf word d (va + j * 0x1000) = some e ∧
    frameAt word d (va + j * 0x1000) = pageOf e ∧ MapsFrame word d (pageOf e) := by
  have hlast := hc.last_le
  obtain ⟨e, he⟩ := Option.isSome_iff_exists.mp (hc.pages (va + j * 0x1000) (by omega))
  exact ⟨e, he, frameAt_of_entry he, va + j * 0x1000, by omega, e, he, rfl⟩

theorem Complete.table (hj : j < n) : ∃ t, tableOf word d (i + j) = some t ∧ pageOf (word (d + 4 * (i + j))) = t := by
  obtain ⟨t, ht⟩ := Option.isSome_iff_exists.mp (hc.tables (i + j) (by omega))
  exact ⟨t, ht, (tableOf_eq_some ht).2.2⟩

/-- A frame that the range does not use. -/
theorem Complete.references_none (htab : ∀ j, i ≤ j ∧ j < i + n → tableOf word d j ≠ some g)
    (hpage : ∀ a, va ≤ a ∧ a < va + k * 0x1000 → ∀ e, entryOf word d a = some e → pageOf e ≠ g) :
    rangeReferences word d i n va k g = 0 := by
  have hfirst : ∀ j ∈ Finset.range n, (if pageOf (word (d + 4 * (i + j))) = g then (1 : ℤ) else 0) = 0 := by
    intro j hj
    have hj' : j < n := Finset.mem_range.mp hj
    obtain ⟨t, ht, he⟩ := hc.table hj'
    refine if_neg fun heq => htab (i + j) (by omega) ?_
    rw [ht, ← heq, he]
  have hsecond : ∀ j ∈ Finset.range k, (if frameAt word d (va + j * 0x1000) = g then (1 : ℤ) else 0) = 0 := by
    intro j hj
    have hj' : j < k := Finset.mem_range.mp hj
    obtain ⟨e, he, hat, -⟩ := hc.mapsFrame hj'
    refine if_neg fun heq => hpage _ (by omega) e he ?_
    rw [← hat, heq]
  rw [rangeReferences, Finset.sum_eq_zero hfirst, Finset.sum_eq_zero hsecond]
  rfl

include hdir in
/-- A page table of the range is counted once. -/
theorem Complete.references_table (hj : i ≤ j ∧ j < i + n) (ht : tableOf word d j = some g)
    (hpage : ¬ MapsFrame word d g) : rangeReferences word d i n va k g = 1 := by
  have hend := hc.end_le
  have hsecond : ∀ x ∈ Finset.range k, (if frameAt word d (va + x * 0x1000) = g then (1 : ℤ) else 0) = 0 := by
    intro x hx
    obtain ⟨e, he, hat, hmaps⟩ := hc.mapsFrame (Finset.mem_range.mp hx)
    refine if_neg fun heq => hpage ?_
    rw [← heq, hat]
    exact hmaps
  have hfirst : (∑ x ∈ Finset.range n, if pageOf (word (d + 4 * (i + x))) = g then (1 : ℤ) else 0) = 1 := by
    rw [Finset.sum_eq_single (j - i)]
    · rw [if_pos]
      rw [show i + (j - i) = j by omega]
      exact (tableOf_eq_some ht).2.2
    · intro x hx hne
      have hx' : x < n := Finset.mem_range.mp hx
      obtain ⟨t, htx, he⟩ := hc.table hx'
      refine if_neg fun heq => hne ?_
      rw [← he, heq] at htx
      have hsame := hdir.unique (i + x) (by omega) j (by omega) g htx ht
      omega
    · intro hnot
      exact absurd (Finset.mem_range.mpr (by omega)) hnot
  rw [rangeReferences, hfirst, Finset.sum_eq_zero hsecond]
  rfl

/-- The frame of a page of the range is counted once. -/
theorem Complete.references_page (honce : Once word d) (ha : va ≤ a ∧ a < va + k * 0x1000) {e : ℕ}
    (he : entryOf word d a = some e) (htab : ¬ HasTable word d (pageOf e)) :
    rangeReferences word d i n va k (pageOf e) = 1 := by
  have hend := hc.end_le
  have hlast := hc.last_le
  have hpage := hc.page
  have hfirst : ∀ j ∈ Finset.range n, (if pageOf (word (d + 4 * (i + j))) = pageOf e then (1 : ℤ) else 0) = 0 := by
    intro j hj
    have hj' : j < n := Finset.mem_range.mp hj
    obtain ⟨t, ht, he'⟩ := hc.table hj'
    refine if_neg fun heq => htab ⟨i + j, by omega, ?_⟩
    rw [ht, ← heq, he']
  -- the page is the one with the number `(a - va) / 0x1000`
  have hstart : pageOf a = va + (a - va) / 0x1000 * 0x1000 := by
    rw [pageOf]
    omega
  have hsame : entryOf word d (va + (a - va) / 0x1000 * 0x1000) = some e := by
    rw [← he]
    refine entryOf_page (by omega) (by omega) ?_
    rw [pageOf, pageOf]
    omega
  have hsecond : (∑ j ∈ Finset.range k, if frameAt word d (va + j * 0x1000) = pageOf e then (1 : ℤ) else 0) = 1 := by
    rw [Finset.sum_eq_single ((a - va) / 0x1000)]
    · rw [if_pos]
      exact frameAt_of_entry hsame
    · intro j hj hne
      have hj' : j < k := Finset.mem_range.mp hj
      obtain ⟨e', he', hat, -⟩ := hc.mapsFrame hj'
      refine if_neg fun heq => hne ?_
      have hpages := honce _ (by omega) a (by omega) e' e he' he (hat.symm.trans heq)
      rw [hstart, pageOf] at hpages
      omega
    · intro hnot
      exact absurd (Finset.mem_range.mpr (by omega)) hnot
  rw [rangeReferences, Finset.sum_eq_zero hfirst, hsecond]
  rfl

end References

/-! ### All ranges of a process -/

/-- A range as `copy_parent` goes through it: its page tables, and its pages. -/
structure Range where
  firstTable : ℕ
  tables : ℕ
  firstPage : ℕ
  pages : ℕ

namespace Range

variable (R : Range)

def HasIndex (j : ℕ) : Prop := R.firstTable ≤ j ∧ j < R.firstTable + R.tables

def HasPage (a : ℕ) : Prop := R.firstPage ≤ a ∧ a < R.firstPage + R.pages * 0x1000

def share (parentDir pgDir : ℕ) (m : Space) : Space :=
  sharePages pgDir R.pages R.firstPage (shareTables parentDir pgDir R.tables R.firstTable m)

def Mapped (word : ℕ → ℕ) (d : ℕ) : Prop := Complete word d R.firstTable R.tables R.firstPage R.pages

def references (word : ℕ → ℕ) (d g : ℕ) : ℤ := rangeReferences word d R.firstTable R.tables R.firstPage R.pages g

end Range

/-- The stack, as far as the page table that its end is in. -/
def stackRange (start stop : ℕ) : Range :=
  ⟨dirIndex start, dirIndex stop - dirIndex start, pageOf start, pageRounds start stop⟩

/-- The image, with the page table of the break. -/
def imageRange (start stop : ℕ) : Range :=
  ⟨dirIndex start, dirIndex stop + 1 - dirIndex start, pageOf start, pageRounds start stop⟩

/-- The ranges of a process. -/
def ranges (proc : Process) : List Range :=
  stackRange proc.pstack ((proc.pstack + proc.pstackSize) % 2 ^ 32) ::
    (proc.progInfo.map fun info => imageRange info.imageStart info.programBreak).toList

variable {R : Range} {Rs : List Range} {I V I' V' : ℕ → Prop} {r r' : ℕ → ℤ}

theorem Shares.pde (h : Shares m m' parentDir pgDir I V r) (hdir : Directory m.word parentDir)
    (hout : Outside m.word parentDir pgDir) (hi : i < 1024) : m'.word (parentDir + 4 * i) = m.word (parentDir + 4 * i) :=
  (h.kept parentDir hdir.frame hout.1.symm fun _ hj => hdir.ne_self _ hj).readWord (by omega)

theorem Shares.table (h : Shares m m' parentDir pgDir I V r) (hdir : Directory m.word parentDir)
    (hout : Outside m.word parentDir pgDir) (hi : i < 1024) : tableOf m'.word parentDir i = tableOf m.word parentDir i :=
  tableOf_congr (h.pde hdir hout hi)

/-- What the entries have come to. -/
theorem Shares.word (h : Shares m m' parentDir pgDir I V r) (ha : a < 2 ^ 32)
    (ht : tableOf m.word parentDir (dirIndex a) = some t) :
    pageOf (m'.word (t + 4 * tabIndex a)) = pageOf (m.word (t + 4 * tabIndex a)) ∧
      present (m'.word (t + 4 * tabIndex a)) = present (m.word (t + 4 * tabIndex a)) := by
  by_cases hV : V a
  · rw [h.cleared a ha hV t ht]
    exact ⟨pageOf_clearWritable (word_lt m _), present_clearWritable (word_lt m _)⟩
  · rw [h.entries a ha hV t ht]
    exact ⟨rfl, rfl⟩

theorem Shares.frames (h : Shares m m' parentDir pgDir I V r) (hdir : Directory m.word parentDir)
    (hout : Outside m.word parentDir pgDir) (ha : a < 2 ^ 32) :
    (entryOf m'.word parentDir a).map pageOf = (entryOf m.word parentDir a).map pageOf := by
  have htab := h.table hdir hout (dirIndex_lt : dirIndex a < 1024)
  cases ht : tableOf m.word parentDir (dirIndex a) with
  | none => rw [entryOf_of_none ht, entryOf_of_none (htab.trans ht)]
  | some t =>
    obtain ⟨hpage, hpresent⟩ := h.word ha ht
    rw [entryOf_eq ht, entryOf_eq (htab.trans ht), hpresent]
    split
    · rw [Option.map_some, Option.map_some, hpage]
    · rfl

theorem Shares.isSome (h : Shares m m' parentDir pgDir I V r) (hdir : Directory m.word parentDir)
    (hout : Outside m.word parentDir pgDir) (ha : a < 2 ^ 32) :
    (entryOf m'.word parentDir a).isSome = (entryOf m.word parentDir a).isSome := by
  have hframes := congrArg Option.isSome (h.frames hdir hout ha)
  rwa [Option.isSome_map, Option.isSome_map] at hframes

theorem Shares.mapped (h : Shares m m' parentDir pgDir I V r) (hdir : Directory m.word parentDir)
    (hout : Outside m.word parentDir pgDir) (hR : R.Mapped m.word parentDir) : R.Mapped m'.word parentDir where
  end_le := hR.end_le
  page := hR.page
  last_le := hR.last_le
  tables j hj := by
    have hend := hR.end_le
    rw [h.table hdir hout (by omega)]
    exact hR.tables j hj
  pages a ha := by
    have hlast := hR.last_le
    rw [h.isSome hdir hout (by omega)]
    exact hR.pages a ha
  inside := hR.inside

theorem Shares.range_references (h : Shares m m' parentDir pgDir I V r) (hdir : Directory m.word parentDir)
    (hout : Outside m.word parentDir pgDir) (hR : R.Mapped m.word parentDir) (g : ℕ) :
    R.references m'.word parentDir g = R.references m.word parentDir g := by
  have hend := hR.end_le
  have hlast := hR.last_le
  refine congrArg₂ (· + ·) (Finset.sum_congr rfl fun j hj => ?_) (Finset.sum_congr rfl fun j hj => ?_)
  · have hj' : j < R.tables := Finset.mem_range.mp hj
    rw [h.pde hdir hout (by omega)]
  · obtain ⟨e, he, hat, -⟩ := Complete.mapsFrame hR (Finset.mem_range.mp hj)
    have hj' : j < R.pages := Finset.mem_range.mp hj
    have hframes := h.frames hdir hout (a := R.firstPage + j * 0x1000) (by omega)
    rw [he, Option.map_some] at hframes
    obtain ⟨e', he', hpage⟩ := Option.map_eq_some_iff.mp hframes
    rw [hat, frameAt_of_entry he', hpage]

theorem Shares.trans (h : Shares m m' parentDir pgDir I V r) {m'' : Space}
    (h' : Shares m' m'' parentDir pgDir I' V' r') (hdir : Directory m.word parentDir)
    (hout : Outside m.word parentDir pgDir) (hapart : ∀ a, V a → ¬ V' a) :
    Shares m m'' parentDir pgDir (fun j => I j ∨ I' j) (fun a => V a ∨ V' a) fun g => r g + r' g where
  shared j hj hI := by
    by_cases hI' : I' j
    · rw [h'.shared j hj hI', h.pde hdir hout hj]
    · rw [h'.others j hj hI', h.shared j hj (hI.resolve_right hI')]
  others j hj hI := by
    rw [not_or] at hI
    rw [h'.others j hj hI.2, h.others j hj hI.1]
  cleared a ha hV t ht := by
    have ht' := (h.table hdir hout dirIndex_lt).trans ht
    rcases hV with hV | hV
    · rw [h'.entries a ha (hapart a hV) t ht', h.cleared a ha hV t ht]
    · rw [h'.cleared a ha hV t ht', h.entries a ha (fun hV₀ => hapart a hV₀ hV) t ht]
  entries a ha hV t ht := by
    rw [not_or] at hV
    rw [h'.entries a ha hV.2 t ((h.table hdir hout dirIndex_lt).trans ht), h.entries a ha hV.1 t ht]
  kept g hg hgd hnot := by
    refine (h'.kept g hg hgd fun j hj => ?_).trans (h.kept g hg hgd hnot)
    rw [h.table hdir hout hj]
    exact hnot j hj
  answers := h'.answers.trans h.answers
  references g hg hg32 := by
    rw [h'.references g hg hg32, h.references g hg hg32, add_assoc]

theorem Shares.congr (h : Shares m m' parentDir pgDir I V r) (hI : ∀ j, I' j ↔ I j) (hV : ∀ a, V' a ↔ V a)
    (hr : ∀ g, r' g = r g) : Shares m m' parentDir pgDir I' V' r' := by
  obtain rfl : I' = I := funext fun j => propext (hI j)
  obtain rfl : V' = V := funext fun a => propext (hV a)
  obtain rfl : r' = r := funext hr
  exact h

/-- The ranges are mapped, with page tables of their own. -/
structure Ranged (word : ℕ → ℕ) (d : ℕ) (Rs : List Range) : Prop where
  mapped : ∀ R ∈ Rs, R.Mapped word d
  apart : Rs.Pairwise fun R R' => ∀ j, R.HasIndex j → ¬ R'.HasIndex j

theorem Complete.index {word : ℕ → ℕ} {d : ℕ} (h : R.Mapped word d) (ha : R.HasPage a) : R.HasIndex (dirIndex a) :=
  Complete.inside h a ha

/-- **All ranges are shared.**  The induction is on the ranges that are still to come. -/
theorem shareAll_spec (hframe : pgDir % 0x1000 = 0) (Rs : List Range) (m : Space) (hdir : Directory m.word parentDir)
    (hout : Outside m.word parentDir pgDir) (hunder : Under m.word parentDir pgDir) (h : Ranged m.word parentDir Rs) :
    Shares m (Rs.foldl (fun m R => R.share parentDir pgDir m) m) parentDir pgDir (fun j => ∃ R ∈ Rs, R.HasIndex j)
      (fun a => ∃ R ∈ Rs, R.HasPage a) fun g => (Rs.map fun R => R.references m.word parentDir g).sum := by
  induction Rs generalizing m with
  | nil =>
    constructor
    case shared => exact fun j _ hI => absurd hI (by simp)
    case others => exact fun _ _ _ => rfl
    case cleared => exact fun a _ hV => absurd hV (by simp)
    case entries => exact fun _ _ _ _ _ => rfl
    case kept => exact fun g _ _ _ => .refl _ _ _
    case answers => rfl
    case references => exact fun g _ _ => (Int.add_zero _).symm
  | cons R Rs ih =>
    obtain ⟨hfirst, hrest⟩ := List.pairwise_cons.mp h.apart
    have hR := h.mapped R List.mem_cons_self
    obtain ⟨hshares, hunder'⟩ := shareRange_spec hdir hframe hout hunder R.firstTable R.tables R.firstPage R.pages
      hR.end_le hR.page hR.last_le fun j hj => by
        have hpage : R.HasPage (R.firstPage + j * 0x1000) := ⟨by omega, by omega⟩
        have hindex := Complete.index hR hpage
        exact ⟨hindex, hR.tables _ hindex⟩
    have hnext := ih (R.share parentDir pgDir m) (hdir.congr fun j hj => hshares.pde hdir hout hj)
      (hout.congr fun j hj => hshares.pde hdir hout hj) hunder'
      ⟨fun R' hR' => hshares.mapped hdir hout (h.mapped R' (List.mem_cons_of_mem R hR')), hrest⟩
    have hboth := hshares.trans hnext hdir hout fun a ha hex => by
      obtain ⟨R', hR', ha'⟩ := hex
      exact hfirst R' hR' _ (Complete.index hR ha) (Complete.index (h.mapped R' (List.mem_cons_of_mem R hR')) ha')
    refine hboth.congr (fun j => List.exists_mem_cons_iff _ R Rs) (fun a => List.exists_mem_cons_iff _ R Rs) fun g => ?_
    have hsum : (Rs.map fun R' => R'.references (R.share parentDir pgDir m).word parentDir g) =
        Rs.map fun R' => R'.references m.word parentDir g :=
      List.map_congr_left fun R' hR' =>
        hshares.range_references hdir hout (h.mapped R' (List.mem_cons_of_mem R hR')) g
    rw [List.map_cons, List.sum_cons, hsum]
    rfl

/-- Of the terms of a sum one is 1, and the others are 0. -/
theorem sum_eq_one {l : List Range} {P : Range → Prop} {x : Range → ℤ}
    (hapart : l.Pairwise fun R R' => P R → ¬ P R') (hex : ∃ R ∈ l, P R) (hone : ∀ R ∈ l, P R → x R = 1)
    (hzero : ∀ R ∈ l, ¬ P R → x R = 0) : (l.map x).sum = 1 := by
  induction l with
  | nil =>
    obtain ⟨R, hR, -⟩ := hex
    cases hR
  | cons R l ih =>
    obtain ⟨hfirst, hrest⟩ := List.pairwise_cons.mp hapart
    rw [List.map_cons, List.sum_cons]
    by_cases hP : P R
    · have hothers : (l.map x).sum = 0 := by
        refine List.sum_eq_zero fun y hy => ?_
        obtain ⟨R', hR', rfl⟩ := List.mem_map.mp hy
        exact hzero R' (List.mem_cons_of_mem R hR') (hfirst R' hR' hP)
      rw [hone R List.mem_cons_self hP, hothers, Int.add_zero]
    · have hlater : ∃ R' ∈ l, P R' := by
        obtain ⟨R', hR', hP'⟩ := hex
        rcases List.mem_cons.mp hR' with rfl | hR'
        · exact absurd hP' hP
        · exact ⟨R', hR', hP'⟩
      rw [hzero R List.mem_cons_self hP, Int.zero_add]
      exact ih hrest hlater (fun R' hR' => hone R' (List.mem_cons_of_mem R hR')) fun R' hR' =>
        hzero R' (List.mem_cons_of_mem R hR')

/-- What the entries of a process say of it: its ranges are mapped, and nothing else. -/
structure Regular (word : ℕ → ℕ) (proc : Process) : Prop where
  ranged : Ranged word proc.pageDir (ranges proc)
  tables : ∀ i < 1024, (tableOf word proc.pageDir i).isSome → ∃ R ∈ ranges proc, R.HasIndex i
  pages : ∀ a < 2 ^ 32, (entryOf word proc.pageDir a).isSome → ∃ R ∈ ranges proc, R.HasPage a

section Sums

variable {word : ℕ → ℕ} {d e : ℕ} (h : Ranged word d Rs) (hdir : Directory word d) (honce : Once word d)
include h

theorem Ranged.pages_apart : Rs.Pairwise fun R R' => ∀ a, R.HasPage a → ¬ R'.HasPage a := by
  refine h.apart.imp_of_mem fun hR hR' hapart a ha ha' => ?_
  exact hapart _ (Complete.index (h.mapped _ hR) ha) (Complete.index (h.mapped _ hR') ha')

theorem Ranged.references_none (htab : ¬ HasTable word d g) (hpage : ¬ MapsFrame word d g) :
    (Rs.map fun R => R.references word d g).sum = 0 := by
  refine List.sum_eq_zero fun y hy => ?_
  obtain ⟨R, hR, rfl⟩ := List.mem_map.mp hy
  have hmapped := h.mapped R hR
  have hend := hmapped.end_le
  have hlast := hmapped.last_le
  exact Complete.references_none hmapped (fun j hj ht => htab ⟨j, by omega, ht⟩) fun a ha e he heq =>
    hpage ⟨a, by omega, e, he, heq⟩

include hdir in
theorem Ranged.references_table (hex : ∃ R ∈ Rs, R.HasIndex j) (ht : tableOf word d j = some g)
    (hpage : ¬ MapsFrame word d g) : (Rs.map fun R => R.references word d g).sum = 1 := by
  refine sum_eq_one (P := fun R => R.HasIndex j) (h.apart.imp fun hapart hj => hapart j hj) hex ?_ ?_
  · exact fun R hR hj => Complete.references_table hdir (h.mapped R hR) hj ht hpage
  · intro R hR hj
    have hmapped := h.mapped R hR
    have hend := hmapped.end_le
    have hlast := hmapped.last_le
    have hlt : j < 1024 := by
      obtain ⟨R', hR', hj'⟩ := hex
      exact lt_of_lt_of_le hj'.2 (h.mapped R' hR').end_le
    refine Complete.references_none hmapped (fun x hx hxt => hj ?_) fun a ha e he heq => hpage ⟨a, by omega, e, he, heq⟩
    rw [hdir.unique j hlt x (by omega) g ht hxt]
    exact hx

include honce in
theorem Ranged.references_page (ha : a < 2 ^ 32) (hex : ∃ R ∈ Rs, R.HasPage a) (he : entryOf word d a = some e)
    (htab : ¬ HasTable word d (pageOf e)) : (Rs.map fun R => R.references word d (pageOf e)).sum = 1 := by
  refine sum_eq_one (P := fun R => R.HasPage a) (h.pages_apart.imp fun hapart hp => hapart a hp) hex ?_ ?_
  · exact fun R hR hp => Complete.references_page (h.mapped R hR) honce hp he htab
  · intro R hR hp
    have hmapped := h.mapped R hR
    have hend := hmapped.end_le
    have hlast := hmapped.last_le
    have hpage := hmapped.page
    refine Complete.references_none hmapped (fun j hj ht => htab ⟨j, by omega, ht⟩) fun b hb e' he' heq => hp ?_
    have hsame := honce a ha b (by omega) e e' he he' heq.symm
    rw [pageOf, pageOf] at hsame
    exact ⟨by omega, by omega⟩

end Sums

end OmochaOS.PageTables
