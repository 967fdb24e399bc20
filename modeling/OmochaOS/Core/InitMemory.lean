import OmochaOS.Core.MemoryMap
import OmochaOS.Core.Paging

/-!
# The page directory at boot (`core/memory.c`, `core/core.c`)

`core_init_memory` fills `core_page_dir` with pages of 4 MB: from 0 to the end of the memory, and from
`core_space_end` to the end of the address space.  The kernel itself is mapped at `KERN_BASE` already.
The end of the memory is taken from the map, with a sum of 32 bits.

* `identityLoop_spec` — what one of the two loops leaves in the directory;
* `mapsKernel_iff` — when the kernel is still mapped behind them.
-/

namespace OmochaOS.InitMemory

open ByteMemory MemoryMap Paging

/-- `PAGE_SIZE_EXTEND`. -/
def pageSizeExtend : ℕ := 0x400000

/-- `PG_PCD`. -/
def pgPcd : ℕ := 0x010

/-- `core_page_dir`, as it is linked. -/
def corePageDir (i : ℕ) : ℕ :=
  if i = 0 then 0 ||| pgPresent ||| pgWritable ||| pgPs
  else if i = 1 then 0x00400000 ||| pgPresent ||| pgWritable ||| pgPs
  else if i = 2 then 0x00800000 ||| pgPresent ||| pgWritable ||| pgPs ||| pgPcd
  else if i = 3 then 0x00C00000 ||| pgPresent ||| pgWritable ||| pgPs
  else if i = 512 then 0 ||| pgPresent ||| pgWritable ||| pgPs ||| pgUser
  else if i = 513 then 0x00400000 ||| pgPresent ||| pgWritable ||| pgPs
  else if i = 514 then 0x00800000 ||| pgPresent ||| pgWritable ||| pgPs ||| pgPcd
  else if i = 515 then 0x00C00000 ||| pgPresent ||| pgWritable ||| pgPs
  else 0

/-- `core_space_end`, `KP2V(16 * 1024 * 1024)`. -/
def coreSpaceEnd : ℕ := kp2v (16 * 1024 * 1024)

/-- `PGROUNDUP`. -/
def pgRoundUp (a : ℕ) : ℕ := (a + 0x1000 - 1) % 2 ^ 32 / 0x1000 * 0x1000

/-- A loop that fills `n` entries from `pde_i` on, for the memory from `pa` on. -/
def identityLoop (flags : ℕ) : (n pdeI pa : ℕ) → (ℕ → ℕ) → ℕ → ℕ
  | 0, _, _, word => word
  | n + 1, pdeI, pa, word =>
    identityLoop flags n (pdeI + 4) ((pa + pageSizeExtend) % 2 ^ 32)
      (Function.update word pdeI (pa ||| flags))

/-- `memory_end`. -/
def memoryEndOf (upperMemLength : ℕ) : ℕ := (0x100000 + upperMemLength) % 2 ^ 32

/-- The entries of the second loop. -/
def extPgCount : ℕ := ((0xFFFFFFFF - pgRoundUp coreSpaceEnd) + pageSizeExtend - 1) / pageSizeExtend

/-- The two loops. -/
def fillPageDir (word : ℕ → ℕ) (pageDir memoryEnd : ℕ) : ℕ → ℕ :=
  let pgCount := memoryEnd / pageSizeExtend
  -- up to `page_dir + pg_count`, with it
  let word := identityLoop (pgPs ||| pgPresent ||| pgWritable) (pgCount + 1) pageDir 0 word
  let extpgStart := pgRoundUp coreSpaceEnd
  identityLoop (pgPresent ||| pgWritable ||| pgPs ||| pgOsSys) extPgCount
    (pageDir + 4 * (extpgStart / 2 ^ 22)) extpgStart word

/-- `core_env` and the page directory. -/
structure Booted where
  recording : Recording
  memoryEnd : ℕ
  word : ℕ → ℕ

/-- `core_init_memory`, up to where `cr3` is loaded again.  Zones behind `memory_zone` have been written
over whatever is there. -/
def coreInitMemory (mem : Memory) (word : ℕ → ℕ) (pageDir mmapAddr mmapLength fuel : ℕ) : Option Booted :=
  (mmapWalk mem mmapAddr mmapLength fuel).bind fun r =>
    if memoryZoneMax < r.i then none
    else some ⟨r, memoryEndOf r.upperMemLength,
      fillPageDir word pageDir (memoryEndOf r.upperMemLength)⟩

/-! ### What should be mapped -/

/-- The kernel is mapped at `KERN_BASE`, the memory and the space behind `core_space_end` one to one, and
only the directory has been written to. -/
structure MapsKernel (word word' : ℕ → ℕ) (pageDir memoryEnd : ℕ) : Prop where
  kernel : ∀ x < 16 * 1024 * 1024, translate word' pageDir (ProcTable.kernBase + x) = some x
  low : ∀ x < memoryEnd, x < ProcTable.kernBase → translate word' pageDir x = some x
  high : ∀ a, coreSpaceEnd ≤ a → a < 2 ^ 32 → translate word' pageDir a = some a
  outside : ∀ a, (∀ i < 1024, a ≠ pageDir + 4 * i) → word' a = word a

variable {word : ℕ → ℕ} {flags pageDir memoryEnd x i : ℕ}

/-! ### A loop -/

/-- **What a loop leaves in the directory.** -/
theorem identityLoop_spec (flags n pdeI pa : ℕ) (word : ℕ → ℕ) (a : ℕ) :
    identityLoop flags n pdeI (pa % 2 ^ 32) word a =
      if pdeI ≤ a ∧ a < pdeI + 4 * n ∧ (a - pdeI) % 4 = 0
      then (pa + (a - pdeI) / 4 * pageSizeExtend) % 2 ^ 32 ||| flags else word a := by
  induction n generalizing pdeI pa word with
  | zero => rw [identityLoop, if_neg (by omega)]
  | succ n ih =>
    have hnext : (pa % 2 ^ 32 + pageSizeExtend) % 2 ^ 32 = (pa + pageSizeExtend) % 2 ^ 32 :=
      Nat.mod_add_mod ..
    rw [identityLoop, hnext, ih]
    by_cases hlater : pdeI + 4 ≤ a ∧ a < pdeI + 4 + 4 * n ∧ (a - (pdeI + 4)) % 4 = 0
    · have hindex : (a - pdeI) / 4 = (a - (pdeI + 4)) / 4 + 1 := by omega
      rw [if_pos hlater, if_pos (by omega), hindex, Nat.add_mul, Nat.one_mul, Nat.add_assoc,
        Nat.add_comm pageSizeExtend]
    · rw [if_neg hlater]
      by_cases hself : a = pdeI
      · subst hself
        have hzero : (a - a) / 4 = 0 := by omega
        rw [Function.update_self, if_pos (by omega), hzero, Nat.zero_mul, Nat.add_zero]
      · rw [Function.update_of_ne hself, if_neg (by omega)]

/-! ### Entries of 4 MB -/

/-- An entry for the page `k`. -/
theorem translate_large {va k : ℕ} (hword : word (pageDir + 4 * (va / 2 ^ 22 % 2 ^ 10)) = k * 2 ^ 22 ||| flags)
    (hflags : flags < 0x1000) (hpresent : present flags = true) (hlarge : large flags = true) :
    translate word pageDir va = some (k * 2 ^ 22 + va % 2 ^ 22) := by
  have hframe : k * 2 ^ 22 % 0x1000 = 0 := by omega
  have hp : present (k * 2 ^ 22 ||| flags) = true := (present_or hframe).trans hpresent
  have hl : large (k * 2 ^ 22 ||| flags) = true := (large_or hframe).trans hlarge
  have hsum : (k * 2 ^ 22 ||| flags) / 2 ^ 22 = k := by
    rw [or_eq_add hframe hflags]
    omega
  rw [Paging.translate, pdeOf, hword]
  simp only [hp, Bool.true_eq_false, if_false, hl, if_true, hsum]

/-! ### The two loops -/

theorem coreSpaceEnd_eq : coreSpaceEnd = 0x81000000 := by decide

theorem extPgCount_eq : extPgCount = 508 := by decide

theorem extpgStart_eq : pgRoundUp coreSpaceEnd = 516 * 2 ^ 22 := by decide

/-- The flags of the first loop, and those of the second one. -/
def lowFlags : ℕ := pgPs ||| pgPresent ||| pgWritable

def extFlags : ℕ := pgPresent ||| pgWritable ||| pgPs ||| pgOsSys

/-- **The directory behind the loops**, entry for entry. -/
theorem fillPageDir_spec (hend : memoryEnd < 2 ^ 32) (a : ℕ) : fillPageDir word pageDir memoryEnd a =
    if pageDir + 4 * 516 ≤ a ∧ a < pageDir + 4 * 1024 ∧ (a - pageDir) % 4 = 0
    then (a - pageDir) / 4 * 2 ^ 22 ||| extFlags
    else if pageDir ≤ a ∧ a < pageDir + 4 * (memoryEnd / 2 ^ 22 + 1) ∧ (a - pageDir) % 4 = 0
    then (a - pageDir) / 4 * 2 ^ 22 ||| lowFlags
    else word a := by
  have hsize : pageSizeExtend = 2 ^ 22 := rfl
  have hindex : 516 * 2 ^ 22 / 2 ^ 22 = 516 := by decide
  have hlow := identityLoop_spec lowFlags (memoryEnd / 2 ^ 22 + 1) pageDir 0 word a
  have hext := identityLoop_spec extFlags 508 (pageDir + 4 * 516) (516 * 2 ^ 22)
    (identityLoop lowFlags (memoryEnd / 2 ^ 22 + 1) pageDir 0 word) a
  have hstart : 516 * 2 ^ 22 % 2 ^ 32 = 516 * 2 ^ 22 := by decide
  rw [Nat.zero_mod, hsize] at hlow
  rw [hstart, hsize] at hext
  rw [fillPageDir, extPgCount_eq, extpgStart_eq, hindex, hsize]
  show identityLoop extFlags 508 (pageDir + 4 * 516) (516 * 2 ^ 22)
    (identityLoop lowFlags (memoryEnd / 2 ^ 22 + 1) pageDir 0 word) a = _
  rw [hext, hlow]
  by_cases hhigh : pageDir + 4 * 516 ≤ a ∧ a < pageDir + 4 * 1024 ∧ (a - pageDir) % 4 = 0
  · have hpa : (516 * 2 ^ 22 + (a - (pageDir + 4 * 516)) / 4 * 2 ^ 22) % 2 ^ 32 =
        (a - pageDir) / 4 * 2 ^ 22 := by omega
    rw [if_pos (by omega), if_pos hhigh, hpa]
  · rw [if_neg (by omega), if_neg hhigh]
    by_cases hmem : pageDir ≤ a ∧ a < pageDir + 4 * (memoryEnd / 2 ^ 22 + 1) ∧ (a - pageDir) % 4 = 0
    · have hpa : (0 + (a - pageDir) / 4 * 2 ^ 22) % 2 ^ 32 = (a - pageDir) / 4 * 2 ^ 22 := by omega
      rw [if_pos hmem, if_pos hmem, hpa]
    · rw [if_neg hmem, if_neg hmem]

/-- The kernel's entries in the directory that is linked. -/
theorem corePageDir_kernel : ∀ k < 4, corePageDir (512 + k) = k * 2 ^ 22 ||| corePageDir (512 + k) % 0x1000 ∧
    present (corePageDir (512 + k) % 0x1000) = true ∧ large (corePageDir (512 + k) % 0x1000) = true := by
  decide

theorem lowFlags_spec : lowFlags < 0x1000 ∧ present lowFlags = true ∧ large lowFlags = true := by decide

theorem extFlags_spec : extFlags < 0x1000 ∧ present extFlags = true ∧ large extFlags = true := by decide

theorem kernBase_eq : ProcTable.kernBase = 512 * 2 ^ 22 := by decide

/-- With memory up to `KERN_BASE` the first loop maps its end over the kernel. -/
theorem not_mapsKernel (hend : memoryEnd < 2 ^ 32) (hle : ProcTable.kernBase ≤ memoryEnd) :
    ¬ MapsKernel word (fillPageDir word pageDir memoryEnd) pageDir memoryEnd := by
  intro h
  rw [kernBase_eq] at hle
  have hpage : 512 * 2 ^ 22 / 2 ^ 22 % 2 ^ 10 = 512 := by decide
  have hword : fillPageDir word pageDir memoryEnd (pageDir + 4 * (512 * 2 ^ 22 / 2 ^ 22 % 2 ^ 10)) =
      512 * 2 ^ 22 ||| lowFlags := by
    have hindex : (pageDir + 4 * 512 - pageDir) / 4 = 512 := by omega
    rw [hpage, fillPageDir_spec hend, if_neg (by omega), if_pos (by omega), hindex]
  have hlow := translate_large hword lowFlags_spec.1 lowFlags_spec.2.1 lowFlags_spec.2.2
  have hkernel := h.kernel 0 (by decide)
  rw [kernBase_eq, Nat.add_zero, hlow] at hkernel
  exact absurd hkernel (by decide)

/-- Below it the kernel stays where it is. -/
theorem mapsKernel_of_lt (hdir : ∀ i < 1024, word (pageDir + 4 * i) = corePageDir i)
    (hlt : memoryEnd < ProcTable.kernBase) :
    MapsKernel word (fillPageDir word pageDir memoryEnd) pageDir memoryEnd := by
  rw [kernBase_eq] at hlt
  have hend : memoryEnd < 2 ^ 32 := by omega
  have hindex : ∀ i, (pageDir + 4 * i - pageDir) / 4 = i := by omega
  refine ⟨fun x hx => ?_, fun x hx hbase => ?_, fun a ha hlast => ?_, fun a ha => ?_⟩
  · -- an entry that no loop writes
    obtain ⟨hentry, hpresent, hlarge⟩ := corePageDir_kernel (x / 2 ^ 22) (by omega)
    have hpage : (512 * 2 ^ 22 + x) / 2 ^ 22 % 2 ^ 10 = 512 + x / 2 ^ 22 := by omega
    have hword : fillPageDir word pageDir memoryEnd (pageDir + 4 * ((512 * 2 ^ 22 + x) / 2 ^ 22 % 2 ^ 10)) =
        x / 2 ^ 22 * 2 ^ 22 ||| corePageDir (512 + x / 2 ^ 22) % 0x1000 := by
      rw [hpage, fillPageDir_spec hend, if_neg (by omega), if_neg (by omega), hdir _ (by omega)]
      exact hentry
    have hsum : x / 2 ^ 22 * 2 ^ 22 + (512 * 2 ^ 22 + x) % 2 ^ 22 = x := by omega
    rw [kernBase_eq, translate_large hword (Nat.mod_lt _ (by decide)) hpresent hlarge, hsum]
  · rw [kernBase_eq] at hbase
    have hpage : x / 2 ^ 22 % 2 ^ 10 = x / 2 ^ 22 := by omega
    have hword : fillPageDir word pageDir memoryEnd (pageDir + 4 * (x / 2 ^ 22 % 2 ^ 10)) =
        x / 2 ^ 22 * 2 ^ 22 ||| lowFlags := by
      rw [hpage, fillPageDir_spec hend, if_neg (by omega), if_pos (by omega), hindex]
    have hsum : x / 2 ^ 22 * 2 ^ 22 + x % 2 ^ 22 = x := by omega
    rw [translate_large hword lowFlags_spec.1 lowFlags_spec.2.1 lowFlags_spec.2.2, hsum]
  · rw [coreSpaceEnd_eq] at ha
    have hpage : a / 2 ^ 22 % 2 ^ 10 = a / 2 ^ 22 := by omega
    have hword : fillPageDir word pageDir memoryEnd (pageDir + 4 * (a / 2 ^ 22 % 2 ^ 10)) =
        a / 2 ^ 22 * 2 ^ 22 ||| extFlags := by
      rw [hpage, fillPageDir_spec hend, if_pos (by omega), hindex]
    have hsum : a / 2 ^ 22 * 2 ^ 22 + a % 2 ^ 22 = a := by omega
    rw [translate_large hword extFlags_spec.1 extFlags_spec.2.1 extFlags_spec.2.2, hsum]
  · -- a place that a loop writes is that of an entry
    have hplace : pageDir ≤ a → a < pageDir + 4 * 1024 → (a - pageDir) % 4 = 0 → False := by
      intro hge hlt' hmod
      exact ha ((a - pageDir) / 4) (by omega) (by omega)
    rw [fillPageDir_spec hend, if_neg fun h => hplace (by omega) h.2.1 h.2.2,
      if_neg fun h => hplace h.1 (by omega) h.2.2]

/-! ### At boot -/

theorem coreInitMemory_inv {mem : Memory} {mmapAddr mmapLength fuel : ℕ} {b : Booted} {l : List ℕ}
    (hmap : PointerWalk.Trail (nextEntry mem) (Behind (mmapEnd mmapAddr mmapLength)) (kp2v mmapAddr) l)
    (hrun : coreInitMemory mem word pageDir mmapAddr mmapLength fuel = some b) :
    b.memoryEnd = memoryEndOf (upperLength (l.map (zoneAt mem))) ∧
      b.word = fillPageDir word pageDir b.memoryEnd := by
  obtain ⟨r, hwalk, hb⟩ := Option.bind_eq_some_iff.mp hrun
  obtain ⟨htrail, hrec⟩ := mmapWalk_recorded hwalk
  rw [hmap.unique htrail, ← hrec.upper]
  split at hb
  · cases hb
  · have hword := congrArg Booted.word (Option.some.inj hb)
    have hend := congrArg Booted.memoryEnd (Option.some.inj hb)
    simp only at hword hend
    rw [← hword, ← hend]
    exact ⟨rfl, rfl⟩

/-- **When booting keeps the kernel mapped**: the memory at 1 MB that the map tells of ends below
`KERN_BASE`. -/
theorem mapsKernel_iff {mem : Memory} {mmapAddr mmapLength fuel : ℕ} {b : Booted} {l : List ℕ}
    (hdir : ∀ i < 1024, word (pageDir + 4 * i) = corePageDir i)
    (hmap : PointerWalk.Trail (nextEntry mem) (Behind (mmapEnd mmapAddr mmapLength)) (kp2v mmapAddr) l)
    (hrun : coreInitMemory mem word pageDir mmapAddr mmapLength fuel = some b) :
    MapsKernel word b.word pageDir b.memoryEnd ↔
      memoryEndOf (upperLength (l.map (zoneAt mem))) < ProcTable.kernBase := by
  obtain ⟨hend, hword⟩ := coreInitMemory_inv hmap hrun
  rw [hword, hend]
  have hlt : memoryEndOf (upperLength (l.map (zoneAt mem))) < 2 ^ 32 := Nat.mod_lt _ (by decide)
  constructor
  · intro h
    by_contra hle
    exact not_mapsKernel hlt (Nat.le_of_not_lt hle) h
  · exact mapsKernel_of_lt hdir

/-- A map at `0x9010` with one entry: `size` bytes of memory at 1 MB. -/
def mapOf (size : List UInt8) : Memory := fun a =>
  (([20, 0, 0, 0, 0, 0, 0x10, 0, 0, 0, 0, 0] ++ size ++ [0, 0, 0, 0, 1, 0, 0, 0])[a - kp2v 0x9010]?).getD 0

/-- `core_page_dir` at the start of a memory of its own. -/
def linkedDir (a : ℕ) : ℕ := corePageDir (a / 4)

theorem linkedDir_eq (i : ℕ) : linkedDir (0 + 4 * i) = corePageDir i := by
  have hindex : (0 + 4 * i) / 4 = i := by omega
  rw [linkedDir, hindex]

theorem mapOf_trail (size : List UInt8) (hsize : readWord (mapOf size) (kp2v 0x9010) = 20) :
    PointerWalk.Trail (nextEntry (mapOf size)) (Behind (mmapEnd 0x9010 24)) (kp2v 0x9010) [kp2v 0x9010] := by
  have hnext : nextEntry (mapOf size) (kp2v 0x9010) = mmapEnd 0x9010 24 := by
    rw [nextEntry, hsize]
    decide
  refine .visit (by decide) ?_
  rw [hnext]
  exact .done (Nat.le_refl _)

/-- 127 MB. -/
theorem mapsKernel_iff_small : ∃ b, coreInitMemory (mapOf [0, 0, 0xE0, 0x07]) linkedDir 0 0x9010 24 2 = some b ∧
    MapsKernel linkedDir b.word 0 b.memoryEnd := by
  have hrun : (coreInitMemory (mapOf [0, 0, 0xE0, 0x07]) linkedDir 0 0x9010 24 2).isSome := by decide +kernel
  obtain ⟨b, hb⟩ := Option.isSome_iff_exists.mp hrun
  refine ⟨b, hb, (mapsKernel_iff (fun i _ => linkedDir_eq i) (mapOf_trail _ (by decide +kernel)) hb).mpr ?_⟩
  decide +kernel

/-- With 2047 MB at 1 MB the kernel is mapped to the memory at 2 GB. -/
theorem kernel_mapped_over : ∃ b, coreInitMemory (mapOf [0, 0, 0xF0, 0x7F]) linkedDir 0 0x9010 24 2 = some b ∧
    ¬ MapsKernel linkedDir b.word 0 b.memoryEnd := by
  have hrun : (coreInitMemory (mapOf [0, 0, 0xF0, 0x7F]) linkedDir 0 0x9010 24 2).isSome := by decide +kernel
  obtain ⟨b, hb⟩ := Option.isSome_iff_exists.mp hrun
  obtain ⟨hend, hword⟩ := coreInitMemory_inv (mapOf_trail _ (by decide +kernel)) hb
  refine ⟨b, hb, ?_⟩
  rw [hword, hend]
  exact not_mapsKernel (Nat.mod_lt _ (by decide)) (by decide +kernel)

end OmochaOS.InitMemory
