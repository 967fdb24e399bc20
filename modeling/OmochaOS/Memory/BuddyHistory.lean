import OmochaOS.Memory.BuddyOverlap
import OmochaOS.Memory.BuddyRecords
import OmochaOS.Memory.BuddyRelease

/-!
# The page allocator does not remember (`modules/memory/buddy.c`)

A set of blocks without two buddies is determined by the pages it covers, and in every state of every run
the free pages are those that are not allocated.  So two runs that end with the same pages allocated, in
whatever order and grouping they came and went, end with the same free blocks and serve the same requests
(`history_independent`); nothing is fragmented for good.
-/

namespace OmochaOS

open DoublyLinkedList DyadicBlocks TransitionRun

namespace Buddy

namespace Bitmaps

variable {mem m m' : MemoryInfo} {b b' : ℕ → ℕ → Bool} {F F' : ℕ → ℕ → Prop} {L L' : ℕ → List ℕ} {k x : ℕ}
  {s s' : State}

/-- The same free blocks, in lists that may have them in different orders, and the same requests fail. -/
structure SameFree (mem mem' : MemoryInfo) : Prop where
  lists : ∃ L L' : ℕ → List ℕ, ∀ k < maxOrder,
    OnFreeList mem k (L k) ∧ OnFreeList mem' k (L' k) ∧ (L k).Perm (L' k)
  counts : ∀ k < maxOrder, mem.freeCount k = mem'.freeCount k
  served : ∀ pages attr attr', 1 ≤ pages → pages ≤ 2 ^ 31 →
    ((pageAlloc mem pages attr).2 = 0 ↔ (pageAlloc mem' pages attr').2 = 0)

/-- A page is covered when its first byte is one of the memory and not allocated. -/
theorem covers_iff (h : Held s F L) :
    Covers F x ↔ x < pageTotal s.mem ∧ s.mem.memoryStart + x * pgSize ∉ s.allocated := by
  have hpage : (s.mem.memoryStart + x * pgSize - s.mem.memoryStart) / pgSize = x := by
    rw [Nat.add_sub_cancel_left, Nat.mul_div_cancel x (by decide)]
  constructor
  · intro hcov
    refine ⟨h.inv.covers_lt hcov, fun ha => ?_⟩
    have hnot := ((h.allocated_iff _).mp ha).2.2
    rw [hpage] at hnot
    exact hnot hcov
  · rintro ⟨hlt, ha⟩
    by_contra hnot
    refine ha ((h.allocated_iff _).mpr ⟨Nat.le_add_right _ _, lt_usableEnd (Nat.le_add_right _ _) ?_, ?_⟩)
    · rw [hpage]
      exact hlt
    · rw [hpage]
      exact hnot

/-- The allocated bytes determine the free blocks. -/
theorem blocks_unique {allocated : Set ℕ} (h : Held ⟨m, allocated⟩ F L) (h' : Held ⟨m', allocated⟩ F' L')
    (hlayout : m.toMemoryLayout = m'.toMemoryLayout) : F = F' := by
  apply h.inv.unique h'.inv
  intro x
  have htotal : pageTotal m = pageTotal m' := by rw [pageTotal, pageTotal, hlayout]
  have hstart : m.memoryStart = m'.memoryStart := congrArg MemoryLayout.memoryStart hlayout
  rw [covers_iff h, covers_iff h', htotal, hstart]

/-- Which requests fail depends on which lists are empty. -/
theorem served_iff (h : Represents m F L) (h' : Represents m' F L') (husable : m.usableEnd < 2 ^ 32)
    (husable' : m'.usableEnd < 2 ^ 32) (hperm : ∀ k < maxOrder, (L k).Perm (L' k)) {pages attr attr' : ℕ}
    (hpos : 1 ≤ pages) (hle : pages ≤ 2 ^ 31) :
    (pageAlloc m pages attr).2 = 0 ↔ (pageAlloc m' pages attr').2 = 0 := by
  rw [(allocExact_of_represents h husable attr hpos hle).null_iff,
    (allocExact_of_represents h' husable' attr' hpos hle).null_iff]
  refine or_congr_right (forall_congr' fun l => forall_congr' fun _ => forall_congr' fun hl => ?_)
  rw [Records.freeList_eq_zero_iff h hl, Records.freeList_eq_zero_iff h' hl]
  constructor
  · intro hnil
    exact List.Perm.nil_eq (hnil ▸ hperm l hl) |>.symm
  · intro hnil
    exact List.Perm.eq_nil (hnil ▸ hperm l hl)

/-- **History independence.**  Two runs that end with the same bytes allocated end with the same free
blocks, the same counters, and the same requests that fail. -/
theorem history_independent (mem : MemoryInfo) (s s' : State) (tr tr' : List (Transition State Event))
    (hstart : 0 < mem.memoryStart) (haligned : mem.memoryStart % 2 ^ 22 = 0) (hlt : mem.memoryStart < 2 ^ 32)
    (hend : mem.memoryEnd < 2 ^ 32) (hfits : LayoutFits mem.memoryStart mem.memoryEnd)
    (hrun : Run Step (initialState mem) tr s) (hrun' : Run Step (initialState mem) tr' s')
    (hsame : s.allocated = s'.allocated) : SameFree s.mem s'.mem := by
  have hplaced := placed_of_fits hlt hend haligned hfits
  have hsim : ∀ {t tr}, Run Step (initialState mem) tr t → Simulated mem t := fun hrun =>
    hrun.invariant (initialState_simulated hstart haligned) fun _ _ _ h hstep => h.step hplaced hstep
  obtain ⟨m, b, F, L, hs, -, h, hlayout⟩ := hsim hrun
  obtain ⟨m', b', F', L', hs', -, h', hlayout'⟩ := hsim hrun'
  rw [← hsame] at h'
  obtain rfl := blocks_unique h h' (hlayout.trans hlayout'.symm)
  obtain ⟨hperm, hcounts, -⟩ := h.inv.same h'.inv (congrArg MemoryLayout.memoryStart (hlayout.trans hlayout'.symm))
  have hrep : Represents (withBits m b) F L :=
    h.inv.toRepresents.congr rfl rfl rfl (fun _ _ _ _ => rfl) fun _ _ _ _ => rfl
  have hrep' : Represents (withBits m' b') F L' :=
    h'.inv.toRepresents.congr rfl rfl rfl (fun _ _ _ _ => rfl) fun _ _ _ _ => rfl
  rw [hs, hs']
  exact ⟨⟨L, L', fun k hk => ⟨hrep.linked k hk, hrep'.linked k hk, hperm k hk⟩⟩, hcounts, fun _ _ _ hpos hle =>
    served_iff hrep hrep' (hplaced.congr hlayout).usable_lt (hplaced.congr hlayout').usable_lt hperm hpos hle⟩

/-- Three pages come and go. -/
theorem history_independent_demo : ∃ tr s, Run Step (initialState (demoMemory 0x3100000)) tr s ∧ tr.length = 2 ∧
    SameFree s.mem (initMemory (demoMemory 0x3100000)) := by
  have hclog : Nat.clog 2 3 = 2 := by decide
  have hblock : (pageAlloc (initialState (demoMemory 0x3100000)).mem 3 0x24).2 = blockAddr 0x1000000 2 2047 := by
    decide +kernel
  have halloc := Run.start.extend (step_alloc hblock (by decide) (by decide) (by decide))
  have hstart : (pageAlloc (initialState (demoMemory 0x3100000)).mem 3 0x24).1.memoryStart = 0x1000000 := by
    decide +kernel
  generalize (pageAlloc (initialState (demoMemory 0x3100000)).mem 3 0x24).1 = m at halloc hstart
  have hall : blockBytes (blockAddr m.memoryStart 2 2047) 2 ⊆
      ∅ ∪ blockBytes (blockAddr 0x1000000 2 2047) (Nat.clog 2 3) := by
    rw [hstart, hclog]
    exact Set.subset_union_right
  have hrun := halloc.extend (Step.free (by decide) hall)
  refine ⟨_, _, hrun, rfl, history_independent (demoMemory 0x3100000) _ (initialState (demoMemory 0x3100000)) _ []
    (by decide) (by decide) (by decide) (by decide) (by decide +kernel) hrun Run.start ?_⟩
  show (∅ ∪ blockBytes _ _) \ blockBytes (blockAddr m.memoryStart 2 2047) 2 = ∅
  rw [hstart, hclog, Set.empty_union]
  exact Set.sdiff_self

end Bitmaps

end Buddy

end OmochaOS
