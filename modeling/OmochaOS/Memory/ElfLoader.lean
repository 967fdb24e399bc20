import Mathlib.Algebra.Order.BigOperators.Group.List
import Mathlib.Data.Nat.Log
import OmochaOS.Memory.ForkProc
import OmochaOS.Memory.MapPages

/-!
# Loading a program (`modules/memory/memory_init.c`)

`load_elf_to_proc` goes through the program headers of a file in memory.  For each segment it takes a block of
pages, copies what the file has of it, fills the rest with zeros and maps it.  The block is as long as the
segment, rounded up, wherever the segment begins in its first page, and a page that is mapped already stays
what it is.  So a segment is loaded right when it does not run over the end of its block, and when no other
segment is in its pages.

* `loadSegment_spec` — one segment;
* `loadElf_image` — the image, with its start and its break.
-/

namespace OmochaOS.ElfLoader

open ByteMemory Paging PageTables ForkProc

/-! ### The loader -/

/-- The fields of `Elf32_Phdr` that are read. -/
structure Phdr where
  pType : ℕ
  pOffset : ℕ
  pVaddr : ℕ
  pFilesz : ℕ
  pMemsz : ℕ
  pFlags : ℕ
deriving DecidableEq

/-- `PT_LOAD` -/
def ptLoad : ℕ := 1

/-- `sizeof(Elf32_Phdr)` -/
def sizeofPhdr : ℕ := 32

def readPhdr (word : ℕ → ℕ) (a : ℕ) : Phdr :=
  ⟨word a, word (a + 4), word (a + 8), word (a + 16), word (a + 20), word (a + 24)⟩

/-- The entry point, the place of the program headers in the file, and their number. -/
def eEntry (word : ℕ → ℕ) (data : ℕ) : ℕ := word (data + 24)

def ePhoff (word : ℕ → ℕ) (data : ℕ) : ℕ := word (data + 28)

def ePhnum (word : ℕ → ℕ) (data : ℕ) : ℕ := word (data + 44) % 2 ^ 16

/-- What the loader works on: the answers of `page_alloc` for the images are apart from those for page tables. -/
structure Loader where
  space : Space
  blocks : List PAddr
  imageStart : ℕ
  programBreak : ℕ

/-- `memcpy`. -/
def copyBytes (m : Space) (dst src n : ℕ) : Space := { m with bytes := copy m.bytes dst src n }

/-- `memset` to zero. -/
def zeroBytes (m : Space) (dst n : ℕ) : Space := { m with bytes := fill m.bytes dst 0 n }

/-- `page_alloc` of several pages. -/
def Loader.pageAlloc (s : Loader) (pages : ℕ) : Loader × PAddr :=
  match s.blocks with
  | [] => (s, 0)
  | p :: rest =>
    ({ s with
        blocks := rest
        space :=
          { s.space with
            reference := fun i =>
              if p ≠ 0 ∧ s.space.pageId p ≤ i ∧ i < s.space.pageId p + 2 ^ Nat.clog 2 pages then 1
              else s.space.reference i } }, p)

/-- The attributes of the pages of a segment. -/
def pteAttr (ph : Phdr) : ℕ :=
  pgPresent ||| pgUser ||| if ph.pFlags.testBit 1 then pgWritable else 0

/-- What is put in the block at `pa`. -/
def fillBlock (m : Space) (data pa : ℕ) (ph : Phdr) : Space :=
  let vaOffset := ph.pVaddr - pageOf ph.pVaddr
  let m := copyBytes m (pa + vaOffset) (data + ph.pOffset) ph.pFilesz
  let m := if vaOffset ≠ 0 then zeroBytes m pa vaOffset else m
  if ph.pFilesz ≠ ph.pMemsz then
    zeroBytes m (pa + vaOffset + ph.pFilesz) (Buddy.subUint ph.pMemsz ph.pFilesz)
  else m

/-- The body of the loop, for `PT_LOAD`; what `map_pages` returns is not looked at. -/
def loadSegment (fuel pgDir data : ℕ) (ph : Phdr) (s : Loader) : Option Loader :=
  let brk := (ph.pVaddr + ph.pMemsz) % 2 ^ 32
  let (s, pa) := Loader.pageAlloc
    { s with
      imageStart := if ph.pVaddr < s.imageStart then ph.pVaddr else s.imageStart
      programBreak := if s.programBreak < brk then brk else s.programBreak } (pageUp ph.pMemsz / 0x1000)
  let m := fillBlock s.space data pa ph
  (mapPages fuel m pgDir (pageOf ph.pVaddr) pa ph.pMemsz (pteAttr ph)).map fun r => { s with space := r.1 }

/-- The loop over the program headers. -/
def loadLoop (mapFuel pgDir data progHeader : ℕ) : ℕ → ℕ → Loader → Option Loader
  | 0, _, _ => none
  | fuel + 1, i, s =>
    if i < ePhnum s.space.word data then
      let ph := readPhdr s.space.word (progHeader + sizeofPhdr * i)
      (if ph.pType = ptLoad then loadSegment mapFuel pgDir data ph s else some s).bind
        (loadLoop mapFuel pgDir data progHeader fuel (i + 1))
    else some s

/-- `load_elf_to_proc`: the memory, what is left of the blocks, `prog_info` and `eip`.  A file that is not
supported is loaded all the same. -/
def loadElf (mapFuel fuel pgDir data : ℕ) (m : Space) (blocks : List PAddr) : Option (Loader × ProgInfo × ℕ) :=
  (loadLoop mapFuel pgDir data (data + ePhoff m.word data) fuel 0 ⟨m, blocks, 0xFFFFFFFF, 0⟩).map fun s =>
    (s, { programSize := Buddy.subUint s.programBreak s.imageStart
          programBreak := s.programBreak
          imageStart := s.imageStart }, eEntry s.space.word data)

/-! ### What is to hold -/

/-- The place of a segment in its first page. -/
def Phdr.vaOffset (ph : Phdr) : ℕ := ph.pVaddr % 0x1000

/-- The pages that `map_pages` is called for. -/
def Phdr.Pages (ph : Phdr) (a : ℕ) : Prop := Covered (pageOf ph.pVaddr) ph.pMemsz a

/-- The bytes of the block of a segment. -/
def Phdr.blockSize (ph : Phdr) : ℕ := pageUp ph.pMemsz

/-- The bytes from `a` on are in no page table, and `page_alloc` is not going to answer a page of them. -/
def Apart (m : Space) (pgDir a n : ℕ) : Prop :=
  ∀ g, g % 0x1000 = 0 → g < a + n → a < g + 0x1000 → Outside m.word pgDir g ∧ g ∉ m.answers

/-- The segment `ph` can be loaded to the block at `b`. -/
structure Loadable (m : Space) (pgDir data len : ℕ) (ph : Phdr) (b : PAddr) : Prop where
  filesz_le : ph.pFilesz ≤ ph.pMemsz
  pos : 1 ≤ ph.pMemsz
  below : ph.pVaddr + ph.pMemsz ≤ PageTables.kernBase
  /-- the segment does not run over the end of its block -/
  fits : ph.vaOffset + ph.pMemsz ≤ ph.blockSize
  inFile : ph.pOffset + ph.pFilesz ≤ len
  frame : b % 0x1000 = 0
  block_lt : b + ph.blockSize ≤ 2 ^ 32
  apart : Apart m pgDir b ph.blockSize
  away : b + ph.blockSize ≤ data ∨ data + len ≤ b
  free : ∀ a < 2 ^ 32, ph.Pages a → translate m.word pgDir a = none

/-- The segment is loaded: its pages are mapped to the block, which has its bytes. -/
structure Loaded (m m' : Space) (pgDir data : ℕ) (ph : Phdr) (b : PAddr) : Prop where
  entry : ∀ i < ph.pMemsz, ∃ t, tableOf m'.word pgDir (dirIndex (ph.pVaddr + i)) = some t ∧
    m'.word (t + 4 * tabIndex (ph.pVaddr + i)) = pageOf (b + ph.vaOffset + i) ||| pgPresent ||| pteAttr ph
  bytes : ∀ i < ph.pMemsz, m'.bytes (b + ph.vaOffset + i) =
    if i < ph.pFilesz then m.bytes (data + ph.pOffset + i) else 0

/-- What a loader leaves alone, when it maps the addresses of `S` and writes to the blocks of `B`. -/
structure Frame (m m' : Space) (pgDir : ℕ) (S : ℕ → Prop) (B : ℕ → ℕ → Prop) : Prop where
  directory : Directory m'.word pgDir
  fresh : Fresh m' pgDir
  walk : ∀ a < 2 ^ 32, ¬ S a → translate m'.word pgDir a = translate m.word pgDir a
  entries : ∀ a < 2 ^ 32, ¬ S a → ∀ t, tableOf m.word pgDir (dirIndex a) = some t →
    tableOf m'.word pgDir (dirIndex a) = some t ∧ m'.word (t + 4 * tabIndex a) = m.word (t + 4 * tabIndex a)
  apart : ∀ a n, Apart m pgDir a n → Apart m' pgDir a n
  kept : ∀ a n, Apart m pgDir a n → (∀ b k, B b k → a + n ≤ b ∨ b + k ≤ a) → AgreeOn m'.bytes m.bytes a n
  tables : ∀ i < 1024, present (m.word (pgDir + 4 * i)) = true → present (m'.word (pgDir + 4 * i)) = true

variable {m m' m'' : Space} {pgDir data len a b n i va size : ℕ} {ph : Phdr} {S S' : ℕ → Prop} {B B' : ℕ → ℕ → Prop}

/-! ### Bytes that are apart -/

theorem Apart.mono {a' n' : ℕ} (h : Apart m pgDir a n) (hlo : a ≤ a') (hhi : a' + n' ≤ a + n) : Apart m pgDir a' n' :=
  fun g hg h₁ h₂ => h g hg (Nat.lt_of_lt_of_le h₁ hhi) (Nat.lt_of_le_of_lt hlo h₂)

/-- A frame that belongs to the page tables is not among the bytes. -/
theorem Apart.disjoint (h : Apart m pgDir a n) {f : ℕ} (hf : f % 0x1000 = 0) (hnot : ¬ (Outside m.word pgDir f ∧ f ∉ m.answers)) :
    f + 0x1000 ≤ a ∨ a + n ≤ f := by
  by_contra hover
  rw [not_or, Nat.not_le, Nat.not_le] at hover
  exact hnot (h f hf hover.2 hover.1)

theorem Maps.apart {pdeAttr k : ℕ} {E : ℕ → ℕ} (h : Maps m m' pgDir pdeAttr S E k) (ha : Apart m pgDir a n) :
    Apart m' pgDir a n := by
  intro g hg h₁ h₂
  obtain ⟨hout, hnot⟩ := ha g hg h₁ h₂
  exact ⟨h.outside_frame hout hnot, fun hmem => hnot (h.mem_answers hmem)⟩

theorem Maps.agreeOn {pdeAttr k : ℕ} {E : ℕ → ℕ} (h : Maps m m' pgDir pdeAttr S E k) (ha : Apart m pgDir a n) :
    AgreeOn m'.bytes m.bytes a n := by
  intro x hlo hhi
  have hpage : pageOf x ≤ x ∧ x < pageOf x + 0x1000 ∧ pageOf x % 0x1000 = 0 := by
    rw [pageOf]
    omega
  obtain ⟨hout, hnot⟩ := ha (pageOf x) hpage.2.2 (Nat.lt_of_le_of_lt hpage.1 hhi) (Nat.lt_of_le_of_lt hlo hpage.2.1)
  exact h.kept (pageOf x) hpage.2.2 hout hnot x hpage.1 hpage.2.1

/-! ### The block is filled -/

/-- Only the bytes of the block have changed. -/
structure Written (m m' : Space) (b n : ℕ) : Prop where
  bytes : ∀ x, x < b ∨ b + n ≤ x → m'.bytes x = m.bytes x
  answers : m'.answers = m.answers

theorem Written.word (h : Written m m' b n) (hx : a + 4 ≤ b ∨ b + n ≤ a) : m'.word a = m.word a :=
  readWord_congr fun i hi => h.bytes (a + i) (by omega)

theorem Written.pde (h : Written m m' b n) (hb : Apart m pgDir b n) (hdir : pgDir % 0x1000 = 0) (hi : i < 1024) :
    m'.word (pgDir + 4 * i) = m.word (pgDir + 4 * i) := by
  refine h.word ?_
  have hself := hb.disjoint hdir fun hout => hout.1.1 rfl
  omega

theorem Written.pte (h : Written m m' b n) (hb : Apart m pgDir b n) {j t : ℕ} (hi : i < 1024) (hj : j < 1024)
    (ht : tableOf m.word pgDir i = some t) : m'.word (t + 4 * j) = m.word (t + 4 * j) := by
  refine h.word ?_
  have htable := hb.disjoint (tableOf_frame ht) fun hout => hout.1.2 i hi ht
  omega

/-- The walks are what they were. -/
theorem Written.frame (h : Written m m' b n) (hdir : Directory m.word pgDir) (hfresh : Fresh m pgDir)
    (hb : Apart m pgDir b n) : Frame m m' pgDir (fun _ => False) fun b' k => b' = b ∧ k = n := by
  have hpde : ∀ i < 1024, m'.word (pgDir + 4 * i) = m.word (pgDir + 4 * i) := fun i hi =>
    h.pde hb hdir.frame hi
  constructor
  case directory => exact hdir.congr hpde
  case fresh =>
    obtain ⟨hnodup, hframe, houtside⟩ := hfresh
    constructor
    · rw [h.answers]
      exact hnodup
    · rw [h.answers]
      exact hframe
    · rw [h.answers]
      exact fun f hf => (houtside f hf).congr hpde
  case walk =>
    intro a _ _
    exact translate_congr (hpde _ dirIndex_lt) fun t ht => h.pte hb dirIndex_lt tabIndex_lt ht
  case entries =>
    intro a _ _ t ht
    exact ⟨(tableOf_congr (hpde _ dirIndex_lt)).trans ht, h.pte hb dirIndex_lt tabIndex_lt ht⟩
  case apart =>
    intro a n ha g hg h₁ h₂
    rw [h.answers]
    obtain ⟨hout, hnot⟩ := ha g hg h₁ h₂
    exact ⟨hout.congr hpde, hnot⟩
  case kept =>
    intro a n _ haway x hlo hhi
    have hblock := haway b _ ⟨rfl, rfl⟩
    exact h.bytes x (by omega)
  case tables =>
    intro i hi hp
    rw [hpde i hi]
    exact hp

theorem vaOffset_eq (ph : Phdr) : ph.pVaddr - pageOf ph.pVaddr = ph.vaOffset := by
  rw [pageOf, Phdr.vaOffset]
  omega

/-- What a fill leaves of other bytes. -/
theorem zeroBytes_bytes {x : ℕ} (hx : x < a ∨ a + n ≤ x) : (zeroBytes m a n).bytes x = m.bytes x :=
  fill_of_notMem hx

/-- **What is put in a block.** -/
theorem fillBlock_spec (m : Space) (data pa : ℕ) (ph : Phdr) (hle : ph.pFilesz ≤ ph.pMemsz) (hlt : ph.pMemsz < 2 ^ 32) :
    Written m (fillBlock m data pa ph) pa (ph.vaOffset + ph.pMemsz) ∧ ∀ i < ph.pMemsz,
      (fillBlock m data pa ph).bytes (pa + ph.vaOffset + i) =
        if i < ph.pFilesz then m.bytes (data + ph.pOffset + i) else 0 := by
  set m₁ := copyBytes m (pa + ph.vaOffset) (data + ph.pOffset) ph.pFilesz with hm₁
  set m₂ := if ph.vaOffset ≠ 0 then zeroBytes m₁ pa ph.vaOffset else m₁ with hm₂
  have hsub : Buddy.subUint ph.pMemsz ph.pFilesz = ph.pMemsz - ph.pFilesz := by
    unfold Buddy.subUint
    omega
  have hfill : fillBlock m data pa ph = if ph.pFilesz ≠ ph.pMemsz then
      zeroBytes m₂ (pa + ph.vaOffset + ph.pFilesz) (ph.pMemsz - ph.pFilesz) else m₂ := by
    rw [fillBlock, vaOffset_eq, hsub]
  -- the bytes of the file, behind the zeros of the first page
  have hfront : ∀ x, pa + ph.vaOffset ≤ x ∨ x < pa → m₂.bytes x = m₁.bytes x := by
    intro x hx
    rw [hm₂]
    split
    · exact zeroBytes_bytes (by omega)
    · rfl
  have hback : ∀ x, x < pa + ph.vaOffset + ph.pFilesz ∨ pa + ph.vaOffset + ph.pMemsz ≤ x →
      (fillBlock m data pa ph).bytes x = m₂.bytes x := by
    intro x hx
    rw [hfill]
    split
    · exact zeroBytes_bytes (by omega)
    · rfl
  have hanswers : (fillBlock m data pa ph).answers = m.answers := by
    have hfirst : m₂.answers = m.answers := by
      rw [hm₂]
      split <;> rfl
    rw [hfill]
    split
    · exact hfirst
    · exact hfirst
  refine ⟨⟨fun x hx => ?_, hanswers⟩, fun i hi => ?_⟩
  · rw [hback x (by omega), hfront x (by omega)]
    exact copy_of_notMem (by omega)
  · by_cases hfile : i < ph.pFilesz
    · rw [if_pos hfile, hback _ (by omega), hfront _ (by omega)]
      exact copy_of_mem hfile
    · rw [if_neg hfile, hfill, if_pos (by omega)]
      obtain ⟨j, rfl⟩ : ∃ j, i = ph.pFilesz + j := ⟨i - ph.pFilesz, by omega⟩
      rw [← Nat.add_assoc]
      exact fill_of_mem (by omega)

/-! ### One segment -/

theorem pteAttr_lt (ph : Phdr) : pteAttr ph < 0x1000 := by
  unfold pteAttr
  split <;> decide

theorem Frame.trans (h : Frame m m' pgDir S B) (h' : Frame m' m'' pgDir S' B') :
    Frame m m'' pgDir (fun a => S a ∨ S' a) fun b k => B b k ∨ B' b k where
  directory := h'.directory
  fresh := h'.fresh
  walk a ha hS := by
    rw [not_or] at hS
    rw [h'.walk a ha hS.2, h.walk a ha hS.1]
  entries a ha hS t ht := by
    rw [not_or] at hS
    obtain ⟨ht₁, hword₁⟩ := h.entries a ha hS.1 t ht
    obtain ⟨ht₂, hword₂⟩ := h'.entries a ha hS.2 t ht₁
    exact ⟨ht₂, hword₂.trans hword₁⟩
  apart a n ha := h'.apart a n (h.apart a n ha)
  kept a n ha haway := by
    have hfirst := h.kept a n ha fun b k hb => haway b k (Or.inl hb)
    have hsecond := h'.kept a n (h.apart a n ha) fun b k hb => haway b k (Or.inr hb)
    exact hsecond.trans hfirst
  tables i hi hp := h'.tables i hi (h.tables i hi hp)

/-- `map_pages` alone. -/
theorem Maps.frame {pdeAttr k : ℕ} {E : ℕ → ℕ} (h : Maps m m' pgDir pdeAttr S E k) :
    Frame m m' pgDir S fun _ _ => False where
  directory := h.directory
  fresh := h.fresh
  walk := h.walk
  entries a ha hS t ht := ⟨h.table_kept dirIndex_lt ht, h.outside a ha hS t ht⟩
  apart _ _ ha := Maps.apart h ha
  kept _ _ ha _ := Maps.agreeOn h ha
  tables i hi hp := by
    rw [h.pde_of_present hi hp]
    exact hp

theorem Frame.congr (h : Frame m m' pgDir S B) (hS : ∀ a, S' a ↔ S a) (hB : ∀ b k, B' b k ↔ B b k) :
    Frame m m' pgDir S' B' := by
  obtain rfl : S' = S := funext fun a => propext (hS a)
  obtain rfl : B' = B := funext fun b => funext fun k => propext (hB b k)
  exact h

/-- The page tables that are missing stay as they are, or become fewer. -/
theorem Frame.missing_le (h : Frame m m' pgDir S B) (va size : ℕ) :
    missingTables m'.word pgDir va size ≤ missingTables m.word pgDir va size := by
  refine Finset.card_le_card fun i hi => ?_
  obtain ⟨hrange, habsent⟩ := Finset.mem_filter.mp hi
  refine Finset.mem_filter.mpr ⟨hrange, ?_⟩
  have hi' : i < 1024 := Nat.lt_of_le_of_lt (Finset.mem_Icc.mp hrange).2 dirIndex_lt
  by_contra hp
  rw [h.tables i hi' (by simpa using hp)] at habsent
  cases habsent

/-- More fuel does no harm. -/
theorem mapLoop_mono {last pdeAttr attr fuel pa : ℕ} {r : Space × ℕ}
    (h : mapLoop pgDir last pdeAttr attr fuel m va pa = some r) (k : ℕ) :
    mapLoop pgDir last pdeAttr attr (fuel + k) m va pa = some r := by
  induction fuel generalizing m va pa with
  | zero => cases h
  | succ fuel ih =>
    rw [Nat.succ_add, mapLoop]
    rw [mapLoop] at h
    by_cases hle : va ≤ last
    · rw [if_pos hle] at h ⊢
      by_cases hnull : (createPageTable m pgDir va pdeAttr).2 = 0
      · rw [if_pos hnull] at h ⊢
        exact h
      · rw [if_neg hnull] at h ⊢
        exact ih h
    · rw [if_neg hle] at h ⊢
      exact h

/-- The state of the loader when the block has been taken. -/
theorem pageAlloc_blocks (s : Loader) {rest : List PAddr} (hblocks : s.blocks = b :: rest) (pages : ℕ) :
    ∃ r, s.pageAlloc pages = ({ s with blocks := rest, space := { s.space with reference := r } }, b) := by
  rw [Loader.pageAlloc]
  split
  · rename_i hnil
    rw [hblocks] at hnil
    cases hnil
  · rename_i p rest' hcons
    rw [hblocks] at hcons
    obtain ⟨rfl, rfl⟩ := List.cons.inj hcons
    exact ⟨_, rfl⟩

theorem Loadable.fits_round (h : Loadable m pgDir data len ph b) :
    ph.pVaddr % 0x1000 + ph.pMemsz ≤ (ph.pMemsz + 0xFFF) / 0x1000 * 0x1000 := by
  have hbelow : ph.pVaddr + ph.pMemsz ≤ 0x80000000 := h.below
  have hround : (ph.pMemsz + 0xFFF) % 2 ^ 32 = ph.pMemsz + 0xFFF := Nat.mod_eq_of_lt (by omega)
  have hfits := h.fits
  rw [Phdr.vaOffset, Phdr.blockSize, pageUp, hround, pageOf] at hfits
  exact hfits

/-- A segment that fits in its block is in the pages that `map_pages` is called for. -/
theorem Loadable.covered (h : Loadable m pgDir data len ph b) (hi : i < ph.pMemsz) :
    ph.Pages (ph.pVaddr + i) ∧ b + (pageOf (ph.pVaddr + i) - pageOf ph.pVaddr) = pageOf (b + ph.vaOffset + i) := by
  have hbelow : ph.pVaddr + ph.pMemsz ≤ 0x80000000 := h.below
  have hframe : (b : ℕ) % 0x1000 = 0 := h.frame
  have hfits : ph.pVaddr % 0x1000 + ph.pMemsz ≤ (ph.pMemsz + 0xFFF) / 0x1000 * 0x1000 := h.fits_round
  have hpages : pageOf (ph.pVaddr + i) = pageOf ph.pVaddr + (ph.pVaddr % 0x1000 + i) / 0x1000 * 0x1000 := by
    unfold pageOf
    omega
  have hplace : pageOf (b + ph.vaOffset + i) = b + (ph.pVaddr % 0x1000 + i) / 0x1000 * 0x1000 := by
    unfold pageOf Phdr.vaOffset
    omega
  refine ⟨?_, by omega⟩
  have hle : pageOf ph.pVaddr ≤ ph.pVaddr := Nat.div_mul_le_self _ _
  unfold Phdr.Pages Covered
  refine ⟨Nat.le_trans hle (Nat.le_add_right _ _), ?_⟩
  rw [hpages]
  unfold pageOf
  omega

/-- A segment is in its pages just when it does not run over the end of its block. -/
theorem pages_iff_fits (hpos : 1 ≤ ph.pMemsz) (hbelow : ph.pVaddr + ph.pMemsz ≤ PageTables.kernBase) :
    (∀ i < ph.pMemsz, ph.Pages (ph.pVaddr + i)) ↔ ph.vaOffset + ph.pMemsz ≤ ph.blockSize := by
  have hend : ph.pVaddr + ph.pMemsz ≤ 0x80000000 := hbelow
  have hround : (ph.pMemsz + 0xFFF) % 2 ^ 32 = ph.pMemsz + 0xFFF := Nat.mod_eq_of_lt (by omega)
  rw [Phdr.vaOffset, Phdr.blockSize, pageUp, hround]
  simp only [Phdr.Pages, Covered, pageOf]
  constructor
  · intro h
    have hlast := (h (ph.pMemsz - 1) (by omega)).2
    omega
  · intro h i hi
    omega

/-- **One segment.**  It is loaded, and nothing else is touched. -/
theorem loadSegment_spec (s : Loader) (rest : List PAddr) (hblocks : s.blocks = b :: rest)
    (hdir : Directory s.space.word pgDir) (hfresh : Fresh s.space pgDir)
    (h : Loadable s.space pgDir data len ph b)
    (hroom : missingTables s.space.word pgDir (pageOf ph.pVaddr) ph.pMemsz ≤ s.space.answers.length) :
    ∃ N s', (∀ fuel ≥ N, loadSegment fuel pgDir data ph s = some s') ∧ s'.blocks = rest ∧
      s'.imageStart = min s.imageStart ph.pVaddr ∧ s'.programBreak = max s.programBreak (ph.pVaddr + ph.pMemsz) ∧
      Loaded s.space s'.space pgDir data ph b ∧
      Frame s.space s'.space pgDir ph.Pages (fun b' k => b' = b ∧ k = ph.blockSize) ∧
      ∃ k ≤ missingTables s.space.word pgDir (pageOf ph.pVaddr) ph.pMemsz,
        s'.space.answers = s.space.answers.drop k := by
  have hpos := h.pos
  have hbelow : ph.pVaddr + ph.pMemsz ≤ 0x80000000 := h.below
  have hpage : pageOf ph.pVaddr % 0x1000 = 0 ∧ pageOf ph.pVaddr ≤ ph.pVaddr := by
    rw [pageOf]
    omega
  obtain ⟨r, hr⟩ := pageAlloc_blocks
    { s with
      imageStart := if ph.pVaddr < s.imageStart then ph.pVaddr else s.imageStart
      programBreak := if s.programBreak < (ph.pVaddr + ph.pMemsz) % 2 ^ 32 then (ph.pVaddr + ph.pMemsz) % 2 ^ 32
        else s.programBreak } hblocks (pageUp ph.pMemsz / 0x1000)
  set m₁ := fillBlock { s.space with reference := r } data b ph with hm₁
  obtain ⟨hwritten, hfilled⟩ := fillBlock_spec { s.space with reference := r } data b ph h.filesz_le (by omega)
  have hblock : Written s.space m₁ b ph.blockSize := by
    have hfits := h.fits
    exact ⟨fun x hx => hwritten.bytes x (by omega), hwritten.answers⟩
  have hroomy : ph.vaOffset + ph.pMemsz ≤ ph.blockSize := h.fits
  have hlt : (b : ℕ) + ph.blockSize ≤ 4294967296 := h.block_lt
  have hframe₁ := hblock.frame hdir hfresh h.apart
  have hroom₁ : missingTables m₁.word pgDir (pageOf ph.pVaddr) ph.pMemsz ≤ m₁.answers.length := by
    rw [hblock.answers]
    exact (hframe₁.missing_le _ _).trans hroom
  obtain ⟨fuel, m₂, hcall, hmaps⟩ := mapPages_spec (pageOf ph.pVaddr) b ph.pMemsz (pteAttr ph) hframe₁.directory
    hframe₁.fresh hpage.1 hpos (by omega) (by omega) (pteAttr_lt ph)
    (fun a ha hcov => (hframe₁.walk a ha not_false).trans (h.free a ha hcov)) hroom₁
  have hloaded : Loaded s.space m₂ pgDir data ph b := by
    have hfits := h.fits
    constructor
    · intro i hi
      obtain ⟨hcov, hplace⟩ := h.covered hi
      obtain ⟨t, ht, hword⟩ := hmaps.inside (ph.pVaddr + i) (by omega) hcov
      have hle : pageOf (b + ph.vaOffset + i) ≤ b + ph.vaOffset + i := Nat.div_mul_le_self _ _
      rw [hplace, Nat.mod_eq_of_lt (by omega)] at hword
      exact ⟨t, ht, hword⟩
    · intro i hi
      have hagree := Maps.agreeOn hmaps (hframe₁.apart b ph.blockSize h.apart)
      rw [hagree _ (by omega) (by omega)]
      exact hfilled i hi
  have hboth : Frame s.space m₂ pgDir ph.Pages fun b' k => b' = b ∧ k = ph.blockSize :=
    (hframe₁.trans (Maps.frame hmaps)).congr (fun a => (iff_of_eq (false_or _)).symm) fun b' k =>
      (iff_of_eq (or_false _)).symm
  refine ⟨fuel, { s with
      blocks := rest
      space := m₂
      imageStart := min s.imageStart ph.pVaddr
      programBreak := max s.programBreak (ph.pVaddr + ph.pMemsz) }, fun fuel' hfuel => ?_, rfl, rfl, rfl, hloaded, hboth, ?_⟩
  · obtain ⟨k, rfl⟩ := Nat.exists_eq_add_of_le hfuel
    have hstart : (if ph.pVaddr < s.imageStart then ph.pVaddr else s.imageStart) = min s.imageStart ph.pVaddr := by
      split <;> omega
    have hbreak : (if s.programBreak < (ph.pVaddr + ph.pMemsz) % 2 ^ 32 then (ph.pVaddr + ph.pMemsz) % 2 ^ 32
        else s.programBreak) = max s.programBreak (ph.pVaddr + ph.pMemsz) := by
      split <;> omega
    have hmore : mapPages (fuel + k) m₁ pgDir (pageOf ph.pVaddr) b ph.pMemsz (pteAttr ph) = some (m₂, 0) :=
      mapLoop_mono hcall k
    rw [loadSegment]
    simp only [hr]
    rw [← hm₁, hmore, hstart, hbreak]
    rfl
  · refine ⟨_, hframe₁.missing_le _ _, ?_⟩
    rw [hmaps.answers, hblock.answers]

/-! ### The run over the headers -/

/-- What the file has, as the loader finds it. -/
def headers (word : ℕ → ℕ) (data : ℕ) : List Phdr :=
  (List.range (ePhnum word data)).map fun i => readPhdr word (data + ePhoff word data + sizeofPhdr * i)

/-- Two segments that have nothing to do with each other. -/
def Separate (p q : Phdr × PAddr) : Prop :=
  (∀ a, p.1.Pages a → ¬ q.1.Pages a) ∧ (p.2 + p.1.blockSize ≤ q.2 ∨ q.2 + q.1.blockSize ≤ p.2)

/-- The segments can be loaded to these blocks, one after the other. -/
structure Plan (m : Space) (pgDir data len : ℕ) (loads : List (Phdr × PAddr)) : Prop where
  directory : Directory m.word pgDir
  fresh : Fresh m pgDir
  file : Apart m pgDir data len
  loadable : ∀ p ∈ loads, Loadable m pgDir data len p.1 p.2
  separate : loads.Pairwise Separate
  room : (loads.map fun p => missingTables m.word pgDir (pageOf p.1.pVaddr) p.1.pMemsz).sum ≤ m.answers.length

variable {loads : List (Phdr × PAddr)} {p q : Phdr × PAddr}

/-- The file is where it was. -/
theorem Frame.file (h : Frame m m' pgDir S B) (hfile : Apart m pgDir data len)
    (haway : ∀ b k, B b k → data + len ≤ b ∨ b + k ≤ data) : AgreeOn m'.bytes m.bytes data len :=
  h.kept data len hfile haway

theorem word_of_agreeOn (h : AgreeOn m'.bytes m.bytes data len) (hlo : data ≤ a) (hhi : a + 4 ≤ data + len) :
    m'.word a = m.word a :=
  readWord_congr fun i hi => h (a + i) (by omega) (by omega)

theorem readPhdr_of_agreeOn (h : AgreeOn m'.bytes m.bytes data len) (hlo : data ≤ a)
    (hhi : a + sizeofPhdr ≤ data + len) : readPhdr m'.word a = readPhdr m.word a := by
  have hsize : a + 32 ≤ data + len := hhi
  have hfirst : m'.word a = m.word a := word_of_agreeOn h hlo (by omega)
  have hword : ∀ k ≤ 28, m'.word (a + k) = m.word (a + k) := fun k hk => word_of_agreeOn h (by omega) (by omega)
  unfold readPhdr
  rw [hfirst, hword 4 (by omega), hword 8 (by omega), hword 16 (by omega), hword 20 (by omega), hword 24 (by omega)]

theorem Loadable.step (h : Loadable m pgDir data len ph b) (hf : Frame m m' pgDir S B)
    (hS : ∀ a, ph.Pages a → ¬ S a) : Loadable m' pgDir data len ph b :=
  { h with
    apart := hf.apart b ph.blockSize h.apart
    free := fun a ha hcov => (hf.walk a ha (hS a hcov)).trans (h.free a ha hcov) }

/-- A segment that has been loaded stays loaded. -/
theorem Loaded.step (h : Loaded m m' pgDir data ph b) (hl : Loadable m pgDir data len ph b)
    (hap : Apart m' pgDir b ph.blockSize) (hf : Frame m' m'' pgDir S B)
    (hS : ∀ a, ph.Pages a → ¬ S a) (hB : ∀ b' k, B b' k → b + ph.blockSize ≤ b' ∨ b' + k ≤ b) :
    Loaded m m'' pgDir data ph b := by
  have hbelow : ph.pVaddr + ph.pMemsz ≤ 0x80000000 := hl.below
  have hfits : ph.vaOffset + ph.pMemsz ≤ ph.blockSize := hl.fits
  constructor
  · intro i hi
    obtain ⟨t, ht, hword⟩ := h.entry i hi
    obtain ⟨ht', hkept⟩ := hf.entries (ph.pVaddr + i) (by omega) (hS _ (hl.covered hi).1) t ht
    exact ⟨t, ht', hkept.trans hword⟩
  · intro i hi
    have hkept := hf.kept b ph.blockSize hap hB
    rw [hkept _ (by omega) (by omega)]
    exact h.bytes i hi

/-- The plan for the rest, when the first segment has been loaded. -/
theorem Plan.step (h : Plan m pgDir data len (p :: loads))
    (hf : Frame m m' pgDir p.1.Pages fun b k => b = p.2 ∧ k = p.1.blockSize) {k : ℕ}
    (hk : k ≤ missingTables m.word pgDir (pageOf p.1.pVaddr) p.1.pMemsz) (hans : m'.answers = m.answers.drop k) :
    Plan m' pgDir data len loads := by
  obtain ⟨hfirst, hrest⟩ := List.pairwise_cons.mp h.separate
  constructor
  case directory => exact hf.directory
  case fresh => exact hf.fresh
  case file => exact hf.apart data len h.file
  case loadable =>
    intro q hq
    exact (h.loadable q (List.mem_cons_of_mem _ hq)).step hf fun a hqa hpa => (hfirst q hq).1 a hpa hqa
  case separate => exact hrest
  case room =>
    have hroom := h.room
    rw [List.map_cons, List.sum_cons] at hroom
    have hless : (loads.map fun q => missingTables m'.word pgDir (pageOf q.1.pVaddr) q.1.pMemsz).sum ≤
        (loads.map fun q => missingTables m.word pgDir (pageOf q.1.pVaddr) q.1.pMemsz).sum :=
      List.sum_le_sum fun q _ => hf.missing_le _ _
    rw [hans, List.length_drop]
    omega

/-- The image is in memory, and nothing else has changed. -/
structure Image (m m' : Space) (pgDir data : ℕ) (loads : List (Phdr × PAddr)) : Prop where
  loaded : ∀ p ∈ loads, Loaded m m' pgDir data p.1 p.2
  frame : Frame m m' pgDir (fun a => ∃ p ∈ loads, p.1.Pages a) fun b k => ∃ p ∈ loads, b = p.2 ∧ k = p.1.blockSize

theorem Frame.refl (hdir : Directory m.word pgDir) (hfresh : Fresh m pgDir) :
    Frame m m pgDir S B where
  directory := hdir
  fresh := hfresh
  walk _ _ _ := rfl
  entries _ _ _ _ ht := ⟨ht, rfl⟩
  apart _ _ ha := ha
  kept a n _ _ := .refl m.bytes a n
  tables _ _ hp := hp

theorem Image.cons (h : Plan m pgDir data len (p :: loads)) (hload : Loaded m m' pgDir data p.1 p.2)
    (hf : Frame m m' pgDir p.1.Pages fun b k => b = p.2 ∧ k = p.1.blockSize) (hi : Image m' m'' pgDir data loads) :
    Image m m'' pgDir data (p :: loads) := by
  obtain ⟨hfirst, -⟩ := List.pairwise_cons.mp h.separate
  have hp := h.loadable p List.mem_cons_self
  constructor
  case loaded =>
    intro q hq
    rcases List.mem_cons.mp hq with rfl | hq
    · refine hload.step hp (hf.apart _ _ hp.apart) hi.frame ?_ ?_
      · intro a hpa hex
        obtain ⟨r, hr, hra⟩ := hex
        exact (hfirst r hr).1 a hpa hra
      · intro b' k hex
        obtain ⟨r, hr, rfl, rfl⟩ := hex
        exact (hfirst r hr).2
    · -- the file is still there
      have hfile := hf.file h.file fun b k hbk => by
        obtain ⟨rfl, rfl⟩ := hbk
        exact hp.away.symm
      have hq' := hi.loaded q hq
      refine ⟨hq'.entry, fun i hi => ?_⟩
      rw [hq'.bytes i hi]
      split
      · have hin := (h.loadable q (List.mem_cons_of_mem _ hq)).inFile
        exact hfile _ (by omega) (by omega)
      · rfl
  case frame =>
    exact (hf.trans hi.frame).congr (fun a => by simp) fun b k => by simp

/-- The lowest address and the end of the image. -/
def lowest (loads : List (Phdr × PAddr)) (start : ℕ) : ℕ := loads.foldl (fun x p => min x p.1.pVaddr) start

def highest (loads : List (Phdr × PAddr)) (brk : ℕ) : ℕ := loads.foldl (fun x p => max x (p.1.pVaddr + p.1.pMemsz)) brk

/-- **The loop.**  The induction is on the headers that are still to be read. -/
theorem loadLoop_spec {progHeader : ℕ} (phs : List Phdr) (hph : data ≤ progHeader) (hlen : 52 ≤ len) :
    ∀ {s : Loader} {i : ℕ} {loads : List (Phdr × PAddr)} {rest : List PAddr},
      Plan s.space pgDir data len loads → s.blocks = loads.map Prod.snd ++ rest →
      loads.map Prod.fst = phs.filter (fun ph => ph.pType = ptLoad) →
      ePhnum s.space.word data = i + phs.length → progHeader + sizeofPhdr * (i + phs.length) ≤ data + len →
      (∀ (j : ℕ) (hj : j < phs.length), readPhdr s.space.word (progHeader + sizeofPhdr * (i + j)) = phs[j]) →
      ∃ N s', (∀ mapFuel ≥ N, ∀ fuel > phs.length, loadLoop mapFuel pgDir data progHeader fuel i s = some s') ∧
        s'.blocks = rest ∧ s'.imageStart = lowest loads s.imageStart ∧
        s'.programBreak = highest loads s.programBreak ∧ Image s.space s'.space pgDir data loads := by
  induction phs with
  | nil =>
    intro s i loads rest hplan hblocks hloads hnum _ _
    obtain rfl : loads = [] := List.map_eq_nil_iff.mp hloads
    refine ⟨0, s, fun mapFuel _ fuel hfuel => ?_, hblocks, rfl, rfl, ?_⟩
    · obtain ⟨k, rfl⟩ := Nat.exists_eq_add_one_of_ne_zero (Nat.ne_of_gt hfuel)
      rw [loadLoop, hnum]
      exact if_neg (Nat.lt_irrefl i)
    · exact ⟨nofun, .refl hplan.directory hplan.fresh⟩
  | cons ph phs ih =>
    intro s i loads rest hplan hblocks hloads hnum hin hread
    have hsize : sizeofPhdr = 32 := rfl
    rw [List.length_cons] at hnum
    rw [List.length_cons, hsize] at hin
    have hhead : readPhdr s.space.word (progHeader + sizeofPhdr * i) = ph := hread 0 (Nat.succ_pos _)
    have hlt : i < ePhnum s.space.word data := by omega
    -- one round of the loop
    have hround : ∀ mapFuel fuel, loadLoop mapFuel pgDir data progHeader (fuel + 1) i s =
        (if ph.pType = ptLoad then loadSegment mapFuel pgDir data ph s else some s).bind
          (loadLoop mapFuel pgDir data progHeader fuel (i + 1)) := by
      intro mapFuel fuel
      rw [loadLoop, if_pos hlt, hhead]
    by_cases htype : ph.pType = ptLoad
    · rw [List.filter_cons_of_pos (by simpa using htype)] at hloads
      obtain ⟨⟨ph', b⟩, loads', rfl⟩ : ∃ p loads', loads = p :: loads' := by
        cases loads with
        | nil => cases hloads
        | cons p loads' => exact ⟨p, loads', rfl⟩
      obtain ⟨hsame, hloads'⟩ := List.cons.inj hloads
      obtain rfl : ph' = ph := hsame
      have hroom := hplan.room
      rw [List.map_cons, List.sum_cons] at hroom
      obtain ⟨N₁, s₁, hrun₁, hblocks₁, hstart₁, hbreak₁, hload, hframe, k, hk, hans⟩ :=
        loadSegment_spec s (loads'.map Prod.snd ++ rest) hblocks hplan.directory hplan.fresh
          (hplan.loadable _ List.mem_cons_self) (by omega)
      have hfile := hframe.file hplan.file fun b' k hbk => by
        obtain ⟨rfl, rfl⟩ := hbk
        exact (hplan.loadable _ List.mem_cons_self).away.symm
      have hnum₁ : ePhnum s₁.space.word data = ePhnum s.space.word data := by
        rw [ePhnum, ePhnum, word_of_agreeOn hfile (by omega) (by omega)]
      obtain ⟨N₂, s₂, hrun₂, hblocks₂, hstart₂, hbreak₂, himage⟩ := ih (hplan.step hframe hk hans) hblocks₁ hloads'
        (i := i + 1) (by omega) (by rw [hsize]; omega) fun j hj => by
          rw [readPhdr_of_agreeOn hfile (by omega) (by rw [hsize]; omega), Nat.add_assoc i 1 j, Nat.add_comm 1 j]
          exact hread (j + 1) (Nat.succ_lt_succ hj)
      refine ⟨max N₁ N₂, s₂, fun mapFuel hmap fuel hfuel => ?_, hblocks₂, ?_, ?_, ?_⟩
      · obtain ⟨fuel, rfl⟩ := Nat.exists_eq_add_one_of_ne_zero (Nat.ne_of_gt (Nat.zero_lt_of_lt hfuel))
        rw [hround, if_pos htype, hrun₁ mapFuel (by omega), Option.bind_some]
        exact hrun₂ mapFuel (by omega) fuel (by simpa using hfuel)
      · rw [hstart₂, hstart₁]
        rfl
      · rw [hbreak₂, hbreak₁]
        rfl
      · exact .cons hplan hload hframe himage
    · rw [List.filter_cons_of_neg (by simpa using htype)] at hloads
      obtain ⟨N, s', hrun, hrest⟩ := ih hplan hblocks hloads (i := i + 1) (by omega) (by rw [hsize]; omega) fun j hj => by
        rw [Nat.add_assoc i 1 j, Nat.add_comm 1 j]
        exact hread (j + 1) (Nat.succ_lt_succ hj)
      refine ⟨N, s', fun mapFuel hmap fuel hfuel => ?_, hrest⟩
      obtain ⟨fuel, rfl⟩ := Nat.exists_eq_add_one_of_ne_zero (Nat.ne_of_gt (Nat.zero_lt_of_lt hfuel))
      rw [hround, if_neg htype, Option.bind_some]
      exact hrun mapFuel hmap fuel (by simpa using hfuel)

/-- The walk to a byte of a segment. -/
theorem Loaded.translate (h : Loaded m m' pgDir data ph b) (hl : Loadable m pgDir data len ph b) (hi : i < ph.pMemsz) :
    Paging.translate m'.word pgDir (ph.pVaddr + i) = some (b + ph.vaOffset + i) := by
  obtain ⟨t, ht, hword⟩ := h.entry i hi
  have hpage : pageOf (b + ph.vaOffset + i) % 0x1000 = 0 := Nat.mul_mod_left _ _
  rw [translate_eq ht, hword, tableEntry_present hpage, if_neg Bool.true_eq_false_eq_False,
    tableEntry_page hpage (pteAttr_lt ph)]
  have hframe : (b : ℕ) % 0x1000 = 0 := hl.frame
  unfold pageOf Phdr.vaOffset
  congr 1
  omega

/-- **The image.**  A byte of a segment is found at its address, with the attributes of the segment, and it is
the byte of the file, or zero behind them; everything else is what it was. -/
theorem loadElf_image (rest : List PAddr) (hplan : Plan m pgDir data len loads)
    (hloads : loads.map Prod.fst = (headers m.word data).filter (fun ph => ph.pType = ptLoad))
    (hhead : 52 ≤ len) (htable : ePhoff m.word data + sizeofPhdr * ePhnum m.word data ≤ len) :
    ∃ N, ∀ mapFuel ≥ N, ∀ fuel > ePhnum m.word data, ∃ s : Loader,
      loadElf mapFuel fuel pgDir data m (loads.map Prod.snd ++ rest) =
        some (s, ⟨Buddy.subUint (highest loads 0) (lowest loads 0xFFFFFFFF), highest loads 0,
          lowest loads 0xFFFFFFFF⟩, eEntry m.word data) ∧
      s.blocks = rest ∧ Image m s.space pgDir data loads ∧
      ∀ p ∈ loads, ∀ i < p.1.pMemsz, ∃ a, translate s.space.word pgDir (p.1.pVaddr + i) = some a ∧
        s.space.bytes a = if i < p.1.pFilesz then m.bytes (data + p.1.pOffset + i) else 0 := by
  have hlength : (headers m.word data).length = ePhnum m.word data := by
    rw [headers, List.length_map, List.length_range]
  obtain ⟨N, s, hrun, hblocks, hstart, hbreak, himage⟩ := loadLoop_spec (headers m.word data)
    (s := ⟨m, loads.map Prod.snd ++ rest, 0xFFFFFFFF, 0⟩) (i := 0)
    (Nat.le_add_right _ _) hhead hplan rfl hloads (by rw [hlength, Nat.zero_add])
    (by rw [hlength, Nat.zero_add, Nat.add_assoc]; exact Nat.add_le_add_left htable data) fun j hj => by
      rw [Nat.zero_add]
      simp only [headers, List.getElem_map, List.getElem_range]
  refine ⟨N, fun mapFuel hmap fuel hfuel => ⟨s, ?_, hblocks, himage, ?_⟩⟩
  · have hfile := himage.frame.file hplan.file fun b k hbk => by
      obtain ⟨p, hp, rfl, rfl⟩ := hbk
      exact (hplan.loadable p hp).away.symm
    have hentry : eEntry s.space.word data = eEntry m.word data :=
      word_of_agreeOn hfile (Nat.le_add_right _ _) (by omega)
    rw [loadElf, hrun mapFuel hmap fuel (by rw [hlength]; exact hfuel), Option.map_some, hstart, hbreak, hentry]
  · intro p hp i hi
    have hp' := himage.loaded p hp
    exact ⟨_, hp'.translate (hplan.loadable p hp) hi, hp'.bytes i hi⟩

/-- A program of one segment, six bytes at `0x8048004` of which the file has four. -/
def demoFile : List UInt8 :=
  [0x7F, 0x45, 0x4C, 0x46, 1, 1, 1, 0, 0, 0, 0, 0, 0, 0, 0, 0, 2, 0, 3, 0, 1, 0, 0, 0, 4, 0x80, 4, 8, 52, 0, 0, 0,
   0, 0, 0, 0, 0, 0, 0, 0, 52, 0, 32, 0, 1, 0, 40, 0, 0, 0, 0, 0,
   1, 0, 0, 0, 84, 0, 0, 0, 4, 0x80, 4, 8, 4, 0x80, 4, 8, 4, 0, 0, 0, 6, 0, 0, 0, 6, 0, 0, 0, 0, 16, 0, 0,
   0x90, 0x90, 0xEB, 0xFC]

def demoElf : Space :=
  { demoSpace with
    bytes := fun x => if x < 0x2000000 then 0 else demoFile[x - 0x2000000]?.getD 0
    answers := [0x1402000] }

def demoPhdr : Phdr := ⟨1, 84, 0x8048004, 4, 6, 6⟩

theorem demoElf_word (h : a + 4 ≤ 0x2000000) : demoElf.word a = 0 := by
  have hzero : ∀ k < 4, demoElf.bytes (a + k) = 0 := fun k hk => if_pos (by omega)
  simp [Space.word, readWord, hzero 1, hzero 2, hzero 3, show demoElf.bytes a = 0 from hzero 0 (by omega)]

theorem demoElf_table (hi : i < 1024) : tableOf demoElf.word 0x1401000 i = none := by
  rw [tableOf, demoElf_word (by omega)]
  rfl

theorem demoElf_outside {g : ℕ} (hg : g ≠ 0x1401000) : Outside demoElf.word 0x1401000 g := by
  refine ⟨hg, fun i hi => ?_⟩
  rw [demoElf_table hi]
  nofun

theorem demoElf_apart (ha : 0x1403000 ≤ a) : Apart demoElf 0x1401000 a n := by
  intro g _ _ hover
  refine ⟨demoElf_outside (by omega), fun hmem => ?_⟩
  have hg : g = 0x1402000 := List.mem_singleton.mp hmem
  omega

theorem demoElf_loadable : Loadable demoElf 0x1401000 0x2000000 88 demoPhdr 0x1500000 where
  filesz_le := by decide
  pos := by decide
  below := by decide +kernel
  fits := by decide +kernel
  inFile := by decide
  frame := by decide
  block_lt := by decide +kernel
  apart := demoElf_apart (by decide)
  away := Or.inl (by decide +kernel)
  free a _ _ := by
    rw [translate_of_tableOf_none (demoElf_table dirIndex_lt), pdeOf_eq, demoElf_word]
    · rfl
    · have hlt : dirIndex a < 1024 := dirIndex_lt
      omega

theorem demoElf_plan : Plan demoElf 0x1401000 0x2000000 88 [(demoPhdr, 0x1500000)] where
  directory := directory_of_none (by decide) fun i hi => demoElf_table hi
  fresh := by
    refine ⟨by decide, by decide, fun f hf => demoElf_outside ?_⟩
    obtain rfl : f = 0x1402000 := List.mem_singleton.mp hf
    decide
  file := demoElf_apart (by decide)
  loadable p hp := by
    obtain rfl : p = (demoPhdr, 0x1500000) := List.mem_singleton.mp hp
    exact demoElf_loadable
  separate := List.pairwise_singleton _ _
  room := by decide +kernel

theorem loadElf_image_demo : ∃ N, ∀ mapFuel ≥ N, ∀ fuel > 1, ∃ s : Loader,
    loadElf mapFuel fuel 0x1401000 0x2000000 demoElf [0x1500000] =
      some (s, ⟨6, 0x804800A, 0x8048004⟩, 0x8048004) ∧
    ∀ i < 6, ∃ a, translate s.space.word 0x1401000 (0x8048004 + i) = some a ∧
      s.space.bytes a = if i < 4 then demoElf.bytes (0x2000000 + 84 + i) else 0 := by
  have hnum : ePhnum demoElf.word 0x2000000 = 1 := by decide +kernel
  have hentry : eEntry demoElf.word 0x2000000 = 0x8048004 := by decide +kernel
  obtain ⟨N, h⟩ := loadElf_image [] demoElf_plan (by decide +kernel) (by decide) (by decide +kernel)
  rw [hnum, hentry] at h
  refine ⟨N, fun mapFuel hmap fuel hfuel => ?_⟩
  obtain ⟨s, hrun, -, -, hread⟩ := h mapFuel hmap fuel hfuel
  exact ⟨s, hrun, hread _ List.mem_cons_self⟩

end OmochaOS.ElfLoader
