import OmochaOS.Lib.ByteMemory
import Mathlib.Data.Set.Basic

/-!
# Reading a file (`modules/fs/fs.c`)

`read_file` skips the clusters before the offset, copies the rest of a sector through `hd_buf_1`, then
whole sectors, then the beginning of the last one.  `HD_drv_read` is a message to the driver and stands
here for what it does: bytes of the disk, from the start of a sector on, are copied to memory.  The
sectors that are asked for are kept in a list.  `hd_buf_1` is apart from the memory of the caller.

Sums and differences of `uint` are those of 32 bits; a loop carries fuel, for the one that skips clusters
need not end.

* `skipClus_spec`, `readSectors_spec` — the two loops on a file;
* `readFile_spec` — what is read, and where it comes from;
* `readFile_size_of` — what is returned.
-/

namespace OmochaOS.Fs

open ByteMemory

/-- The fields of `FAT32_FileSystem` that `read_file` uses. -/
structure FileSystem where
  secPerClus : ℕ
  fatStartSct : ℕ
  rootClus : ℕ
  firstDataClus : ℕ

/-- The fields of `fs_file_info` that it uses. -/
structure FileInfo where
  size : ℕ
  clus : ℕ

/-- Memory, `hd_buf_1`, and the sectors that have been read so far. -/
structure Reading where
  mem : Memory
  hdBuf1 : Memory
  sectors : List ℕ

/-- The bytes of a disk. -/
abbrev Disk := ℕ → UInt8

/-- `n` bytes of the disk, from the sector `lba` on, are put at `buf`. -/
def hdRead (disk : Disk) (m : Memory) (lba buf n : ℕ) : Memory := fun x =>
  if buf ≤ x ∧ x < buf + n then disk (lba * 512 + (x - buf)) else m x

/-- `HD_drv_read(fs->drv, lba, hd_buf_1, 512)`. -/
def Reading.toBuffer (r : Reading) (disk : Disk) (lba : ℕ) : Reading :=
  ⟨r.mem, hdRead disk r.hdBuf1 lba 0 512, r.sectors ++ [lba]⟩

/-- `HD_drv_read(fs->drv, lba, buf, n)`. -/
def Reading.toMemory (r : Reading) (disk : Disk) (lba buf n : ℕ) : Reading :=
  ⟨hdRead disk r.mem lba buf n, r.hdBuf1, r.sectors ++ [lba]⟩

/-- `memcpy(buf, hd_buf_1 + from, n)`. -/
def Reading.copyBuffer (r : Reading) (buf start n : ℕ) : Reading :=
  { r with mem := fun x => if buf ≤ x ∧ x < buf + n then r.hdBuf1 (start + (x - buf)) else r.mem x }

/-- `CLUS2SECTOR`. -/
def clus2Sector (fs : FileSystem) (n : ℕ) : ℕ :=
  (fs.firstDataClus + (n + 2 ^ 32 - fs.rootClus) % 2 ^ 32 * fs.secPerClus) % 2 ^ 32

/-- The sector of the FAT with the entry of a cluster. -/
def fatSector (fs : FileSystem) (clus : ℕ) : ℕ := (fs.fatStartSct + clus / 128) % 2 ^ 32

/-- `get_next_clus_in_FAT`. -/
def getNextClusInFAT (disk : Disk) (fs : FileSystem) (r : Reading) (clus : ℕ) : Reading × ℕ :=
  let r := r.toBuffer disk (fatSector fs clus)
  (r, readWord r.hdBuf1 (4 * (clus - 128 * (clus / 128))) &&& 0x0FFFFFFF)

/-- `BytesPerClus`. -/
def bytesPerClus (fs : FileSystem) : ℕ := 512 * fs.secPerClus % 2 ^ 32

/-- The loop over the clusters before the offset: where it is, and the cluster. -/
def skipClus (disk : Disk) (fs : FileSystem) (offset : ℕ) :
    ℕ → (p : ℕ) → Reading → (clus : ℕ) → Option (Reading × ℕ)
  | 0, _, _, _ => none
  | fuel + 1, p, r, clus =>
    if p ≤ offset then
      let next := getNextClusInFAT disk fs r clus
      skipClus disk fs offset fuel ((p + bytesPerClus fs) % 2 ^ 32) next.1 next.2
    else some (r, clus)

/-- The loop over whole sectors, and the last read behind it. -/
def readSectors (disk : Disk) (fs : FileSystem) :
    ℕ → Reading → (clus pClus buf rSize : ℕ) → Option Reading
  | 0, _, _, _, _, _ => none
  | fuel + 1, r, clus, pClus, buf, rSize =>
    let sector := (clus2Sector fs clus + pClus / 512) % 2 ^ 32
    if 512 < rSize then
      let r := r.toMemory disk sector buf 512
      if bytesPerClus fs ≤ pClus + 512 then
        let next := getNextClusInFAT disk fs r clus
        readSectors disk fs fuel next.1 next.2 0 (buf + 512) (rSize - 512)
      else readSectors disk fs fuel r clus (pClus + 512) (buf + 512) (rSize - 512)
    else if rSize ≠ 0 then some (r.toMemory disk sector buf rSize)
    else some r

/-- The part of `read_file` after the first sector. -/
def readRest (disk : Disk) (fs : FileSystem) (fuel : ℕ) (r : Reading) (clus pClus buf rSize : ℕ) :
    Option Reading :=
  if rSize = 0 then some r
  else if pClus = bytesPerClus fs then
    let next := getNextClusInFAT disk fs r clus
    readSectors disk fs fuel next.1 next.2 0 buf rSize
  else readSectors disk fs fuel r clus pClus buf rSize

/-- The size after the comparison with that of the file. -/
def clampedSize (info : FileInfo) (offset size : ℕ) : ℕ :=
  if info.size < (offset + size) % 2 ^ 32 then (info.size + 2 ^ 32 - offset) % 2 ^ 32 else size

/-- The part of `read_file` after the loop over the clusters. -/
def readFrom (disk : Disk) (fs : FileSystem) (fuel : ℕ) (r : Reading) (clus offset buf size : ℕ) :
    Option Reading :=
  let pClus := offset % bytesPerClus fs
  if pClus % 512 ≠ 0 then
    let s := min (512 - pClus % 512) size
    let r := (r.toBuffer disk (clus2Sector fs clus)).copyBuffer buf (pClus % 512) s
    readRest disk fs fuel r clus (pClus + s) (buf + s) (size - s)
  else readRest disk fs fuel r clus pClus buf size

/-- `read_file`, with what it returns. -/
def readFile (disk : Disk) (fs : FileSystem) (fuel : ℕ) (r : Reading) (info : FileInfo)
    (offset buf size : ℕ) : Option (Reading × ℕ) := do
  let size := clampedSize info offset size
  let (r, clus) ← skipClus disk fs offset fuel (bytesPerClus fs) r info.clus
  let r ← readFrom disk fs fuel r clus offset buf size
  pure (r, size)

/-! ### Files -/

section Files

variable (disk : Disk) (fs : FileSystem) (info : FileInfo)

/-- The entry of a cluster in the FAT. -/
def nextClus (clus : ℕ) : ℕ :=
  readWord (fun x => disk (fatSector fs clus * 512 + x)) (4 * (clus % 128)) &&& 0x0FFFFFFF

/-- The cluster number `i` of a file. -/
def clusAt (i : ℕ) : ℕ := (nextClus disk fs)^[i] info.clus

/-- The clusters from `clus` on, to the end that is marked in the FAT. -/
inductive FatChain : ℕ → List ℕ → Prop
  | last {clus : ℕ} (hend : 0x0FFFFFF8 ≤ nextClus disk fs clus) : FatChain clus [clus]
  | next {clus : ℕ} {chain : List ℕ} (hrest : FatChain (nextClus disk fs clus) chain) :
      FatChain clus (clus :: chain)

/-- A file has the clusters of its chain, and they are enough for its size; an empty file need not have
any. -/
structure IsFile (chain : List ℕ) : Prop where
  listed : chain = [] ∨ FatChain disk fs info.clus chain
  size : info.size ≤ chain.length * (512 * fs.secPerClus)

/-- The sector that `read_file` takes for a position in the clusters of a file, one after the other. -/
def sectorAt (pos : ℕ) : ℕ :=
  (clus2Sector fs (clusAt disk fs info (pos / (512 * fs.secPerClus))) +
    pos % (512 * fs.secPerClus) / 512) % 2 ^ 32

/-- Those of `n` positions from `pos` on. -/
def sectorsAt (pos n : ℕ) : Set ℕ := { s | ∃ i < n, s = sectorAt disk fs info (pos + i) }

/-- The byte at a position in the clusters of a file, one after the other. -/
def fileByte (pos : ℕ) : UInt8 :=
  disk ((clus2Sector fs (clusAt disk fs info (pos / (512 * fs.secPerClus))) +
    pos % (512 * fs.secPerClus) / 512) % 2 ^ 32 * 512 + pos % 512)

end Files

variable {disk : Disk} {fs : FileSystem} {info : FileInfo} {r r' r'' : Reading} {chain : List ℕ}
  {offset size buf b clus pClus rSize fuel i k n m p pos : ℕ} {f g : ℕ → UInt8} {S S' : Set ℕ}

theorem clusAt_succ : clusAt disk fs info (i + 1) = nextClus disk fs (clusAt disk fs info i) :=
  Function.iterate_succ_apply' ..

theorem FatChain.iterate_mem (hc : FatChain disk fs clus chain) (hi : i < chain.length) :
    (nextClus disk fs)^[i] clus ∈ chain := by
  induction hc generalizing i with
  | last _ =>
    rw [Nat.lt_one_iff.mp hi, Function.iterate_zero_apply]
    exact List.mem_cons_self
  | next _ ih =>
    cases i with
    | zero =>
      rw [Function.iterate_zero_apply]
      exact List.mem_cons_self
    | succ i =>
      rw [Function.iterate_succ_apply]
      exact List.mem_cons_of_mem _ (ih (Nat.lt_of_succ_lt_succ hi))

theorem IsFile.clusAt_mem (hf : IsFile disk fs info chain) (hi : i < chain.length) :
    clusAt disk fs info i ∈ chain := by
  rcases hf.listed with hnil | hc
  · rw [hnil] at hi
    exact absurd hi (Nat.not_lt_zero i)
  · exact hc.iterate_mem hi

theorem getNextClus_eq : getNextClusInFAT disk fs r clus =
    (r.toBuffer disk (fatSector fs clus), nextClus disk fs clus) := by
  have hindex : clus - 128 * (clus / 128) = clus % 128 := by omega
  have hword : readWord (hdRead disk r.hdBuf1 (fatSector fs clus) 0 512) (4 * (clus % 128)) =
      readWord (fun x => disk (fatSector fs clus * 512 + x)) (4 * (clus % 128)) := by
    apply readWord_congr
    intro i hi
    have hlt : 4 * (clus % 128) + i < 0 + 512 := by omega
    rw [hdRead, if_pos ⟨Nat.zero_le _, hlt⟩, Nat.sub_zero]
  rw [getNextClusInFAT, hindex]
  show (_, readWord (hdRead disk r.hdBuf1 (fatSector fs clus) 0 512) _ &&& _) = _
  rw [hword, nextClus]

/-! ### What has been read -/

/-- From `r` to `r'` the `n` bytes `f` have been written at `buf`, and the sectors `S` have been asked for,
and besides them only such as have the entry of a cluster of the chain. -/
structure Progress (fs : FileSystem) (chain : List ℕ) (r r' : Reading) (buf n : ℕ) (f : ℕ → UInt8)
    (S : Set ℕ) : Prop where
  mem : ∀ x, r'.mem x = if buf ≤ x ∧ x < buf + n then f (x - buf) else r.mem x
  sectors : ∀ s ∈ r'.sectors, s ∈ r.sectors ∨ (∃ clus ∈ chain, s = fatSector fs clus) ∨ s ∈ S
  asked : ∀ s, s ∈ r.sectors ∨ s ∈ S → s ∈ r'.sectors

theorem Progress.refl : Progress fs chain r r buf 0 f ∅ where
  mem := fun x => (if_neg (by omega)).symm
  sectors := fun _ hs => Or.inl hs
  asked := fun s hs => hs.resolve_right (Set.notMem_empty s)

/-- What has been asked for, by one of two readings after each other. -/
theorem Progress.sectors_trans (h : Progress fs chain r r' buf n f S)
    (h' : Progress fs chain r' r'' b m g S') :
    (∀ s ∈ r''.sectors, s ∈ r.sectors ∨ (∃ clus ∈ chain, s = fatSector fs clus) ∨ s ∈ S ∪ S') ∧
      ∀ s, s ∈ r.sectors ∨ s ∈ S ∪ S' → s ∈ r''.sectors := by
  constructor
  · intro s hs
    rcases h'.sectors s hs with hs | hfat | hs
    · rcases h.sectors s hs with hs | hfat | hs
      · exact Or.inl hs
      · exact Or.inr (Or.inl hfat)
      · exact Or.inr (Or.inr (Or.inl hs))
    · exact Or.inr (Or.inl hfat)
    · exact Or.inr (Or.inr (Or.inr hs))
  · rintro s (hs | hs | hs)
    · exact h'.asked s (Or.inl (h.asked s (Or.inl hs)))
    · exact h'.asked s (Or.inl (h.asked s (Or.inr hs)))
    · exact h'.asked s (Or.inr hs)

theorem Progress.trans (h : Progress fs chain r r' buf n f S)
    (h' : Progress fs chain r' r'' (buf + n) m (fun i => f (n + i)) S') :
    Progress fs chain r r'' buf (n + m) f (S ∪ S') where
  mem := by
    intro x
    rw [h'.mem, h.mem]
    by_cases hlow : buf ≤ x ∧ x < buf + n
    · rw [if_neg (by omega), if_pos hlow, if_pos (by omega)]
    · rw [if_neg hlow]
      by_cases hhigh : buf + n ≤ x ∧ x < buf + n + m
      · rw [if_pos hhigh, if_pos (by omega)]
        congr 1
        omega
      · rw [if_neg hhigh, if_neg (by omega)]
  sectors := (h.sectors_trans h').1
  asked := (h.sectors_trans h').2

/-- Nothing has been written before, and nothing but entries asked for. -/
theorem Progress.after (h : Progress fs chain r r' buf 0 f ∅) (h' : Progress fs chain r' r'' buf n g S) :
    Progress fs chain r r'' buf n g S where
  mem := by
    intro x
    rw [h'.mem, h.mem, if_neg (show ¬ (buf ≤ x ∧ x < buf + 0) by omega)]
  sectors := by
    have hall := (h.sectors_trans h').1
    rwa [Set.empty_union] at hall
  asked := by
    have hall := (h.sectors_trans h').2
    rwa [Set.empty_union] at hall

theorem Progress.congr (h : Progress fs chain r r' buf n f S) (hfg : ∀ i < n, f i = g i) (hS : S = S') :
    Progress fs chain r r' buf n g S' where
  mem := by
    intro x
    rw [h.mem]
    by_cases hx : buf ≤ x ∧ x < buf + n
    · rw [if_pos hx, if_pos hx, hfg _ (by omega)]
    · rw [if_neg hx, if_neg hx]
  sectors := hS ▸ h.sectors
  asked := hS ▸ h.asked

/-- One sector more. -/
theorem sectors_append {sector : ℕ} (hr : r'.sectors = r.sectors ++ [sector]) :
    (∀ s ∈ r'.sectors, s ∈ r.sectors ∨ s = sector) ∧ ∀ s, s ∈ r.sectors ∨ s = sector → s ∈ r'.sectors := by
  rw [hr]
  exact ⟨fun s hs => by simpa using hs, fun s hs => by simpa using hs⟩

/-- The entry of a cluster is read to `hd_buf_1`. -/
theorem Progress.entry (hclus : clus ∈ chain) :
    Progress fs chain r (r.toBuffer disk (fatSector fs clus)) buf 0 f ∅ where
  mem := fun x => (if_neg (by omega)).symm
  sectors := by
    intro s hs
    rcases (sectors_append rfl).1 s hs with hs | hs
    · exact Or.inl hs
    · exact Or.inr (Or.inl ⟨clus, hclus, hs⟩)
  asked := fun s hs => (sectors_append rfl).2 s (Or.inl (hs.resolve_right (Set.notMem_empty s)))

/-- Bytes of a sector are read to memory. -/
theorem Progress.toMemory {sector : ℕ} : Progress fs chain r (r.toMemory disk sector buf n) buf n
    (fun i => disk (sector * 512 + i)) {sector} where
  mem := fun _ => rfl
  sectors := fun s hs => ((sectors_append rfl).1 s hs).imp_right Or.inr
  asked := (sectors_append rfl).2

/-- Bytes are read by way of `hd_buf_1`. -/
theorem Progress.copyBuffer {sector start : ℕ} (hn : start + n ≤ 512) :
    Progress fs chain r ((r.toBuffer disk sector).copyBuffer buf start n) buf n
      (fun i => disk (sector * 512 + (start + i))) {sector} where
  mem := by
    intro x
    show (if buf ≤ x ∧ x < buf + n then hdRead disk r.hdBuf1 sector 0 512 (start + (x - buf)) else r.mem x) = _
    by_cases hx : buf ≤ x ∧ x < buf + n
    · have hlt : start + (x - buf) < 0 + 512 := by omega
      rw [if_pos hx, if_pos hx, hdRead, if_pos ⟨Nat.zero_le _, hlt⟩, Nat.sub_zero]
    · rw [if_neg hx, if_neg hx]
  sectors := fun s hs => ((sectors_append rfl).1 s hs).imp_right Or.inr
  asked := (sectors_append rfl).2

theorem sectorsAt_zero : sectorsAt disk fs info pos 0 = ∅ :=
  Set.eq_empty_of_forall_notMem fun _ ⟨_, hi, _⟩ => Nat.not_lt_zero _ hi

/-- The positions in two parts. -/
theorem sectorsAt_add : sectorsAt disk fs info pos (n + m) =
    sectorsAt disk fs info pos n ∪ sectorsAt disk fs info (pos + n) m := by
  ext s
  constructor
  · rintro ⟨i, hi, rfl⟩
    by_cases hlow : i < n
    · exact Or.inl ⟨i, hlow, rfl⟩
    · obtain ⟨j, rfl⟩ : ∃ j, i = n + j := ⟨i - n, by omega⟩
      exact Or.inr ⟨j, by omega, by rw [Nat.add_assoc]⟩
  · rintro (⟨i, hi, rfl⟩ | ⟨i, hi, rfl⟩)
    · exact ⟨i, by omega, rfl⟩
    · exact ⟨n + i, by omega, by rw [Nat.add_assoc]⟩

theorem clus2Sector_lt : clus2Sector fs clus < 2 ^ 32 := Nat.mod_lt _ (by decide)

/-! ### The loops -/

section Loops

variable (hf : IsFile disk fs info chain) (hpos : 0 < fs.secPerClus) (hlt : 512 * fs.secPerClus < 2 ^ 32)
include hf hpos hlt

/-- The loop comes to the cluster that the offset lies in, as long as its counter does not go round. -/
theorem skipClus_spec (hlen : offset / (512 * fs.secPerClus) ≤ chain.length)
    (hwrap : (offset / (512 * fs.secPerClus) + 1) * (512 * fs.secPerClus) < 2 ^ 32)
    (hk : k + n = offset / (512 * fs.secPerClus)) :
    ∃ r', Progress fs chain r r' buf 0 f ∅ ∧ ∀ fuel, n < fuel →
      skipClus disk fs offset fuel ((k + 1) * (512 * fs.secPerClus)) r (clusAt disk fs info k) =
        some (r', clusAt disk fs info (offset / (512 * fs.secPerClus))) := by
  have hbytes : bytesPerClus fs = 512 * fs.secPerClus := Nat.mod_eq_of_lt hlt
  generalize hB : 512 * fs.secPerClus = B at *
  have hB0 : 0 < B := by omega
  have hdiv := Nat.div_add_mod offset B
  have hmod := Nat.mod_lt offset hB0
  generalize hK : offset / B = K at *
  have hmul : B * K = K * B := Nat.mul_comm B K
  induction n generalizing k r with
  | zero =>
    obtain rfl : k = K := hk
    refine ⟨r, Progress.refl, fun fuel hfuel => ?_⟩
    obtain ⟨fuel, rfl⟩ : ∃ m, fuel = m + 1 := ⟨fuel - 1, by omega⟩
    have hstop : ¬ (k + 1) * B ≤ offset := by
      rw [Nat.succ_mul]
      omega
    rw [skipClus, if_neg hstop]
  | succ n ih =>
    have hle : (k + 1) * B ≤ K * B := Nat.mul_le_mul_right B (by omega)
    have hle' : (k + 2) * B ≤ (K + 1) * B := Nat.mul_le_mul_right B (by omega)
    have hnext : ((k + 1) * B + B) % 2 ^ 32 = (k + 1 + 1) * B := by
      rw [← Nat.succ_mul]
      exact Nat.mod_eq_of_lt (hle'.trans_lt hwrap)
    have hi : k < chain.length := by omega
    have hfirst : Progress fs chain r (r.toBuffer disk (fatSector fs (clusAt disk fs info k))) buf 0 f ∅ :=
      Progress.entry (hf.clusAt_mem hi)
    obtain ⟨r', hprogress, hrun⟩ := ih (show k + 1 + n = K by omega)
    refine ⟨r', hfirst.after hprogress, fun fuel hfuel => ?_⟩
    obtain ⟨fuel, rfl⟩ : ∃ m, fuel = m + 1 := ⟨fuel - 1, by omega⟩
    rw [skipClus, if_pos (by omega), getNextClus_eq, hbytes, hnext, ← clusAt_succ]
    exact hrun fuel (by omega)

omit hf hlt in
/-- The sector at `pClus` in the cluster number `k`. -/
theorem sectorAt_eq (haligned : pClus % 512 = 0) (hi : i < 512)
    (hend : pClus + 512 ≤ 512 * fs.secPerClus) :
    sectorAt disk fs info (k * (512 * fs.secPerClus) + pClus + i) =
      (clus2Sector fs (clusAt disk fs info k) + pClus / 512) % 2 ^ 32 := by
  have hB0 : 0 < 512 * fs.secPerClus := by omega
  have hsplit : k * (512 * fs.secPerClus) + pClus + i = pClus + i + 512 * fs.secPerClus * k := by
    rw [Nat.mul_comm k]
    omega
  have hdiv : (pClus + i + 512 * fs.secPerClus * k) / (512 * fs.secPerClus) = k := by
    rw [Nat.add_mul_div_left _ _ hB0, Nat.div_eq_of_lt (by omega), Nat.zero_add]
  have hmod : (pClus + i + 512 * fs.secPerClus * k) % (512 * fs.secPerClus) = pClus + i := by
    rw [Nat.add_mul_mod_self_left]
    exact Nat.mod_eq_of_lt (by omega)
  have hsector : (pClus + i) / 512 = pClus / 512 := by omega
  rw [hsplit, sectorAt, hdiv, hmod, hsector]

omit hf hlt in
/-- The bytes of this sector. -/
theorem fileByte_eq (haligned : pClus % 512 = 0) (hi : i < 512)
    (hend : pClus + 512 ≤ 512 * fs.secPerClus) :
    fileByte disk fs info (k * (512 * fs.secPerClus) + pClus + i) =
      disk ((clus2Sector fs (clusAt disk fs info k) + pClus / 512) % 2 ^ 32 * 512 + i) := by
  have hbyte : (k * (512 * fs.secPerClus) + pClus + i) % 512 = i := by
    rw [Nat.mul_left_comm, Nat.add_assoc, Nat.mul_add_mod]
    omega
  show disk (sectorAt disk fs info (k * (512 * fs.secPerClus) + pClus + i) * 512 + _ % 512) = _
  rw [sectorAt_eq hpos haligned hi hend, hbyte]

omit hf hlt in
/-- Some bytes of this sector are asked for. -/
theorem sectorsAt_eq (haligned : pClus % 512 = 0) (hn : 0 < n) (hle : n ≤ 512)
    (hend : pClus + 512 ≤ 512 * fs.secPerClus) :
    {(clus2Sector fs (clusAt disk fs info k) + pClus / 512) % 2 ^ 32} =
      sectorsAt disk fs info (k * (512 * fs.secPerClus) + pClus) n := by
  ext s
  constructor
  · intro hs
    exact ⟨0, hn, hs.trans (sectorAt_eq hpos haligned (by omega) hend).symm⟩
  · rintro ⟨i, hi, rfl⟩
    exact sectorAt_eq hpos haligned (by omega) hend

omit hf hlt in
theorem fileByte_first (hi : i < 512) : fileByte disk fs info (k * (512 * fs.secPerClus) + i) =
    disk (clus2Sector fs (clusAt disk fs info k) * 512 + i) := by
  have hend : 0 + 512 ≤ 512 * fs.secPerClus := by omega
  have hzero : fileByte disk fs info (k * (512 * fs.secPerClus) + 0 + i) =
      disk ((clus2Sector fs (clusAt disk fs info k) + 0 / 512) % 2 ^ 32 * 512 + i) :=
    fileByte_eq hpos (Nat.zero_mod 512) hi hend
  rwa [Nat.add_zero, Nat.zero_div, Nat.add_zero, Nat.mod_eq_of_lt clus2Sector_lt] at hzero

/-- Whole sectors and the last one are the bytes of the file from `pClus` in the cluster number `k` on. -/
theorem readSectors_spec (haligned : pClus % 512 = 0) (hin : pClus + 512 ≤ 512 * fs.secPerClus)
    (hsize : 0 < rSize) (hend : k * (512 * fs.secPerClus) + pClus + rSize ≤ chain.length * (512 * fs.secPerClus)) :
    ∃ r', Progress fs chain r r' buf rSize
        (fun i => fileByte disk fs info (k * (512 * fs.secPerClus) + pClus + i))
        (sectorsAt disk fs info (k * (512 * fs.secPerClus) + pClus) rSize) ∧
      ∀ fuel, rSize < fuel →
        readSectors disk fs fuel r (clusAt disk fs info k) pClus buf rSize = some r' := by
  have hbytes : bytesPerClus fs = 512 * fs.secPerClus := Nat.mod_eq_of_lt hlt
  induction rSize using Nat.strong_induction_on generalizing k pClus buf r with
  | _ rSize ih =>
    have hk : k < chain.length := by
      by_contra hge
      have := Nat.mul_le_mul_right (512 * fs.secPerClus) (Nat.le_of_not_lt hge)
      omega
    have hread : ∀ n ≤ 512, 0 < n → Progress fs chain r
        (r.toMemory disk ((clus2Sector fs (clusAt disk fs info k) + pClus / 512) % 2 ^ 32) buf n) buf n
        (fun i => fileByte disk fs info (k * (512 * fs.secPerClus) + pClus + i))
        (sectorsAt disk fs info (k * (512 * fs.secPerClus) + pClus) n) := by
      intro n hn hn0
      refine Progress.toMemory.congr (fun i hi => ?_) (sectorsAt_eq hpos haligned hn0 hn hin)
      rw [fileByte_eq hpos haligned (by omega) hin]
    by_cases hlarge : 512 < rSize
    · -- a whole sector, and the rest from the next sector on
      have hwhole := hread 512 (Nat.le_refl _) (by decide)
      have hsum : rSize = 512 + (rSize - 512) := by omega
      generalize hr₁ : r.toMemory disk ((clus2Sector fs (clusAt disk fs info k) + pClus / 512) % 2 ^ 32)
        buf 512 = r₁ at hwhole
      by_cases hlast : bytesPerClus fs ≤ pClus + 512
      · have hnext : (k + 1) * (512 * fs.secPerClus) = k * (512 * fs.secPerClus) + pClus + 512 := by
          rw [Nat.succ_mul]
          omega
        have hfat : Progress fs chain r₁ (r₁.toBuffer disk (fatSector fs (clusAt disk fs info k)))
            (buf + 512) 0 (fun _ => 0) ∅ := Progress.entry (hf.clusAt_mem hk)
        have hend' : (k + 1) * (512 * fs.secPerClus) + 0 + (rSize - 512) ≤
            chain.length * (512 * fs.secPerClus) := by omega
        obtain ⟨r', hprogress, hrun⟩ := ih (rSize - 512) (by omega) rfl (by omega) (by omega) hend'
        refine ⟨r', ?_, fun fuel hfuel => ?_⟩
        · rw [hsum, sectorsAt_add]
          refine hwhole.trans ((hfat.after hprogress).congr (fun i _ => ?_) ?_)
          · rw [hnext]
            congr 1
            omega
          · rw [hnext, Nat.add_zero]
        · obtain ⟨fuel, rfl⟩ : ∃ m, fuel = m + 1 := ⟨fuel - 1, by omega⟩
          rw [readSectors, if_pos hlarge, if_pos hlast, getNextClus_eq, hr₁, ← clusAt_succ]
          exact hrun fuel (by omega)
      · obtain ⟨q, hq⟩ : ∃ q, q = pClus + 512 := ⟨_, rfl⟩
        have haligned' : q % 512 = 0 := by omega
        have hin' : q + 512 ≤ 512 * fs.secPerClus := by omega
        have hend' : k * (512 * fs.secPerClus) + q + (rSize - 512) ≤
            chain.length * (512 * fs.secPerClus) := by omega
        obtain ⟨r', hprogress, hrun⟩ := ih (rSize - 512) (by omega) haligned' hin' (by omega) hend'
        refine ⟨r', ?_, fun fuel hfuel => ?_⟩
        · rw [hsum, sectorsAt_add]
          refine hwhole.trans (hprogress.congr (fun i _ => ?_) ?_)
          · rw [hq]
            congr 1
            omega
          · rw [hq, ← Nat.add_assoc]
        · obtain ⟨fuel, rfl⟩ : ∃ m, fuel = m + 1 := ⟨fuel - 1, by omega⟩
          rw [readSectors, if_pos hlarge, if_neg hlast, hr₁, ← hq]
          exact hrun fuel (by omega)
    · refine ⟨_, hread rSize (by omega) hsize, fun fuel hfuel => ?_⟩
      obtain ⟨fuel, rfl⟩ : ∃ m, fuel = m + 1 := ⟨fuel - 1, by omega⟩
      rw [readSectors, if_neg hlarge, if_pos hsize.ne']

/-- What follows the first sector may begin in the next cluster. -/
theorem readRest_spec (haligned : pClus % 512 = 0 ∨ rSize = 0) (hin : pClus ≤ 512 * fs.secPerClus)
    (hend : k * (512 * fs.secPerClus) + pClus + rSize ≤ chain.length * (512 * fs.secPerClus)) :
    ∃ r', Progress fs chain r r' buf rSize
        (fun i => fileByte disk fs info (k * (512 * fs.secPerClus) + pClus + i))
        (sectorsAt disk fs info (k * (512 * fs.secPerClus) + pClus) rSize) ∧
      ∀ fuel, rSize < fuel →
        readRest disk fs fuel r (clusAt disk fs info k) pClus buf rSize = some r' := by
  have hbytes : bytesPerClus fs = 512 * fs.secPerClus := Nat.mod_eq_of_lt hlt
  by_cases hsize : rSize = 0
  · subst hsize
    rw [sectorsAt_zero]
    exact ⟨r, Progress.refl, fun fuel _ => by rw [readRest, if_pos rfl]⟩
  · replace haligned := haligned.resolve_right hsize
    by_cases hnext : pClus = bytesPerClus fs
    · have hcluster : (k + 1) * (512 * fs.secPerClus) = k * (512 * fs.secPerClus) + pClus := by
        rw [Nat.succ_mul]
        omega
      have hk : k < chain.length := by
        by_contra hge
        have := Nat.mul_le_mul_right (512 * fs.secPerClus) (Nat.le_of_not_lt hge)
        omega
      have hfat : Progress fs chain r (r.toBuffer disk (fatSector fs (clusAt disk fs info k))) buf 0
          (fun _ => 0) ∅ := Progress.entry (hf.clusAt_mem hk)
      have hend' : (k + 1) * (512 * fs.secPerClus) + 0 + rSize ≤ chain.length * (512 * fs.secPerClus) := by
        omega
      obtain ⟨r', hprogress, hrun⟩ := readSectors_spec hf hpos hlt rfl (by omega) (by omega) hend'
      refine ⟨r', (hfat.after hprogress).congr (fun i _ => ?_) ?_, fun fuel hfuel => ?_⟩
      · rw [Nat.add_zero, hcluster]
      · rw [Nat.add_zero, hcluster]
      · rw [readRest, if_neg hsize, if_pos hnext, getNextClus_eq, ← clusAt_succ]
        exact hrun fuel hfuel
    · obtain ⟨r', hprogress, hrun⟩ := readSectors_spec hf hpos hlt haligned (by omega) (by omega) hend
      refine ⟨r', hprogress, fun fuel hfuel => ?_⟩
      rw [readRest, if_neg hsize, if_neg hnext]
      exact hrun fuel hfuel

end Loops

/-- The byte that is put at `buf + i`: in front of the first sector boundary it comes from the first
sector of the cluster, wherever in the cluster the offset is. -/
def givenByte (disk : Disk) (fs : FileSystem) (info : FileInfo) (offset i : ℕ) : UInt8 :=
  if offset % 512 ≠ 0 ∧ i < 512 - offset % 512 then
    disk (clus2Sector fs (clusAt disk fs info (offset / (512 * fs.secPerClus))) * 512 + (offset % 512 + i))
  else fileByte disk fs info (offset + i)

/-- The sectors that are asked for: the first sector of the cluster, and then one for each part of the file
from the first boundary on. -/
def givenSectors (disk : Disk) (fs : FileSystem) (info : FileInfo) (offset size : ℕ) : Set ℕ :=
  { s | offset % 512 ≠ 0 ∧ s = clus2Sector fs (clusAt disk fs info (offset / (512 * fs.secPerClus))) ∨
    ∃ i < size, (offset % 512 = 0 ∨ 512 - offset % 512 ≤ i) ∧ s = sectorAt disk fs info (offset + i) }

theorem givenSectors_of_aligned (hhead : offset % 512 = 0) :
    sectorsAt disk fs info offset size = givenSectors disk fs info offset size := by
  ext s
  constructor
  · rintro ⟨i, hi, rfl⟩
    exact Or.inr ⟨i, hi, Or.inl hhead, rfl⟩
  · rintro (⟨hne, -⟩ | ⟨i, hi, -, rfl⟩)
    · exact absurd hhead hne
    · exact ⟨i, hi, rfl⟩

theorem givenSectors_of_head (hhead : offset % 512 ≠ 0) (hs : n = min (512 - offset % 512) size) :
    {clus2Sector fs (clusAt disk fs info (offset / (512 * fs.secPerClus)))} ∪
        sectorsAt disk fs info (offset + n) (size - n) =
      givenSectors disk fs info offset size := by
  ext s
  constructor
  · rintro (hfirst | ⟨i, hi, rfl⟩)
    · exact Or.inl ⟨hhead, hfirst⟩
    · exact Or.inr ⟨n + i, by omega, by omega, by rw [Nat.add_assoc]⟩
  · rintro (⟨-, hfirst⟩ | ⟨i, hi, hrest, rfl⟩)
    · exact Or.inl hfirst
    · have hbehind := hrest.resolve_left hhead
      obtain ⟨j, rfl⟩ : ∃ j, i = n + j := ⟨i - n, by omega⟩
      exact Or.inr ⟨j, by omega, by rw [Nat.add_assoc]⟩

theorem readFrom_spec (hf : IsFile disk fs info chain) (hpos : 0 < fs.secPerClus)
    (hlt : 512 * fs.secPerClus < 2 ^ 32) (hend : offset + size ≤ chain.length * (512 * fs.secPerClus)) :
    ∃ r', Progress fs chain r r' buf size (givenByte disk fs info offset)
        (givenSectors disk fs info offset size) ∧ ∀ fuel, size < fuel →
      readFrom disk fs fuel r (clusAt disk fs info (offset / (512 * fs.secPerClus))) offset buf size =
        some r' := by
  have hbytes : bytesPerClus fs = 512 * fs.secPerClus := Nat.mod_eq_of_lt hlt
  have hB0 : 0 < 512 * fs.secPerClus := by omega
  have hdiv := Nat.div_add_mod offset (512 * fs.secPerClus)
  have hmod := Nat.mod_lt offset hB0
  have hsub : offset % (512 * fs.secPerClus) % 512 = offset % 512 :=
    Nat.mod_mod_of_dvd offset (Nat.dvd_mul_right 512 fs.secPerClus)
  have hlow := Nat.mod_lt offset (by decide : 0 < 512)
  rw [Nat.mul_comm (512 * fs.secPerClus)] at hdiv
  generalize hK : offset / (512 * fs.secPerClus) = K at *
  generalize hp : offset % (512 * fs.secPerClus) = p at *
  by_cases hhead : offset % 512 = 0
  · have hend' : K * (512 * fs.secPerClus) + p + size ≤ chain.length * (512 * fs.secPerClus) := by omega
    obtain ⟨r', hprogress, hrun⟩ :=
      readRest_spec hf hpos hlt (Or.inl (hsub.trans hhead)) hmod.le hend'
    refine ⟨r', hprogress.congr (fun i _ => ?_) ?_, fun fuel hfuel => ?_⟩
    · rw [givenByte, if_neg (fun hc => hc.1 hhead), hdiv]
    · rw [hdiv, givenSectors_of_aligned hhead]
    · rw [readFrom, hbytes, hp, hsub, if_neg (fun hc => hc hhead)]
      exact hrun fuel hfuel
  · obtain ⟨s, hs⟩ : ∃ s, s = min (512 - offset % 512) size := ⟨_, rfl⟩
    have hk : K < chain.length := by
      by_contra hge
      have := Nat.mul_le_mul_right (512 * fs.secPerClus) (Nat.le_of_not_lt hge)
      omega
    have hfirst : Progress fs chain r ((r.toBuffer disk (clus2Sector fs (clusAt disk fs info K))).copyBuffer
        buf (offset % 512) s) buf s (givenByte disk fs info offset)
        {clus2Sector fs (clusAt disk fs info K)} := by
      refine (Progress.copyBuffer (by omega)).congr (fun i hi => ?_) rfl
      rw [givenByte, if_pos ⟨hhead, by omega⟩, hK]
    have haligned : (p + s) % 512 = 0 ∨ size - s = 0 := by omega
    have hin : p + s ≤ 512 * fs.secPerClus := by omega
    have hend' : K * (512 * fs.secPerClus) + (p + s) + (size - s) ≤
        chain.length * (512 * fs.secPerClus) := by omega
    obtain ⟨r', hprogress, hrun⟩ := readRest_spec hf hpos hlt haligned hin hend'
    refine ⟨r', ?_, fun fuel hfuel => ?_⟩
    · have hsize : s + (size - s) = size := by omega
      have hstart : K * (512 * fs.secPerClus) + (p + s) = offset + s := by omega
      have hall : Progress fs chain r r' buf (s + (size - s)) (givenByte disk fs info offset)
          ({clus2Sector fs (clusAt disk fs info K)} ∪ sectorsAt disk fs info (offset + s) (size - s)) := by
        refine hfirst.trans (hprogress.congr (fun i hi => ?_) (by rw [hstart]))
        rw [givenByte, if_neg (by omega), hstart, Nat.add_assoc]
      rwa [hsize, ← hK, givenSectors_of_head hhead hs] at hall
    · rw [readFrom, hbytes, hp, hsub, if_pos hhead, ← hs]
      exact hrun fuel (by omega)

/-- A part of the file is read to its end, whatever lies at the offset. -/
theorem readFile_spec (hf : IsFile disk fs info chain) (hpos : 0 < fs.secPerClus)
    (hlt : 512 * fs.secPerClus < 2 ^ 32) (hend : offset + clampedSize info offset size ≤ info.size)
    (hwrap : (offset / (512 * fs.secPerClus) + 1) * (512 * fs.secPerClus) < 2 ^ 32) :
    ∃ r', Progress fs chain r r' buf (clampedSize info offset size) (givenByte disk fs info offset)
        (givenSectors disk fs info offset (clampedSize info offset size)) ∧
      ∃ bound, ∀ fuel, bound ≤ fuel →
        readFile disk fs fuel r info offset buf size = some (r', clampedSize info offset size) := by
  have hbytes : bytesPerClus fs = 512 * fs.secPerClus := Nat.mod_eq_of_lt hlt
  have hsize := hf.size
  generalize hv : clampedSize info offset size = v at *
  have hend' : offset + v ≤ chain.length * (512 * fs.secPerClus) := by omega
  have hlen : offset / (512 * fs.secPerClus) ≤ chain.length :=
    Nat.div_le_of_le_mul (by rw [Nat.mul_comm]; omega)
  obtain ⟨r₁, hskip, hrun⟩ := skipClus_spec (r := r) (k := 0) (f := fun _ => 0) hf hpos hlt hlen hwrap
    (Nat.zero_add _)
  obtain ⟨r', hread, hrun'⟩ := readFrom_spec (r := r₁) hf hpos hlt hend'
  refine ⟨r', hskip.after hread, offset + v + 1, fun fuel hfuel => ?_⟩
  have hfuel' : offset / (512 * fs.secPerClus) < fuel := by
    have := Nat.div_le_self offset (512 * fs.secPerClus)
    omega
  have hcall := hrun fuel hfuel'
  rw [Nat.zero_add, Nat.one_mul] at hcall
  rw [readFile, hv, hbytes]
  show (skipClus disk fs offset fuel (512 * fs.secPerClus) r (clusAt disk fs info 0) >>= _) = _
  rw [hcall]
  show (readFrom disk fs fuel r₁ _ offset buf v >>= _) = _
  rw [hrun' fuel (by omega)]
  rfl

/-! ### What is returned -/

theorem readFile_size_of {v : ℕ} (hrun : readFile disk fs fuel r info offset buf size = some (r', v)) :
    v = clampedSize info offset size := by
  rw [readFile] at hrun
  obtain ⟨_, -, hrun⟩ := Option.bind_eq_some_iff.mp hrun
  obtain ⟨_, -, hrun⟩ := Option.bind_eq_some_iff.mp hrun
  exact (congrArg Prod.snd (Option.some.inj hrun)).symm

/-- The counter is a multiple of the cluster size; where the last one is not above the offset, it goes
round for ever. -/
theorem skipClus_diverges (hlt : 512 * fs.secPerClus < 2 ^ 32) (hdvd : 512 * fs.secPerClus ∣ 2 ^ 32)
    (hwrap : ¬ (offset / (512 * fs.secPerClus) + 1) * (512 * fs.secPerClus) < 2 ^ 32)
    (hp' : p < 2 ^ 32) (hp : 512 * fs.secPerClus ∣ p) : skipClus disk fs offset fuel p r clus = none := by
  have hbytes : bytesPerClus fs = 512 * fs.secPerClus := Nat.mod_eq_of_lt hlt
  have hlarge := Nat.div_mul_le_self offset (512 * fs.secPerClus)
  rw [Nat.succ_mul] at hwrap
  generalize 512 * fs.secPerClus = B at *
  induction fuel generalizing p r clus with
  | zero => rfl
  | succ fuel ih =>
    have hlast : p + B ≤ 2 ^ 32 := by
      have := Nat.le_of_dvd (by omega) (Nat.dvd_sub hdvd hp)
      omega
    rw [skipClus, if_pos (by omega), hbytes]
    refine ih (Nat.mod_lt _ (by decide)) ?_
    rw [Nat.dvd_mod_iff hdvd]
    exact Nat.dvd_add hp (Nat.dvd_refl B)

theorem readFile_diverges (hlt : 512 * fs.secPerClus < 2 ^ 32) (hdvd : 512 * fs.secPerClus ∣ 2 ^ 32)
    (hwrap : ¬ (offset / (512 * fs.secPerClus) + 1) * (512 * fs.secPerClus) < 2 ^ 32) :
    readFile disk fs fuel r info offset buf size = none := by
  have hbytes : bytesPerClus fs = 512 * fs.secPerClus := Nat.mod_eq_of_lt hlt
  rw [readFile, hbytes, skipClus_diverges hlt hdvd hwrap hlt (Nat.dvd_refl _)]
  rfl

end OmochaOS.Fs
