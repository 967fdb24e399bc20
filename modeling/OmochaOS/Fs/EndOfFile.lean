import OmochaOS.Fs.FileBytes

/-!
# The end of a file (`modules/fs/fs.c`)

What `read_file` returns, writes and asks for, with any offset and any size.  The clusters of a file lie
where FAT32 puts them; where `CLUS2SECTOR` is wrong, sectors of others are read.
-/

namespace OmochaOS.Fs

variable {disk : Disk} {fs : FileSystem} {info : FileInfo} {chain : List ℕ}
  {offset size buf clus i : ℕ}

/-- The sector has the entry of a cluster of the chain, or it is a sector of such a cluster: cluster 2 is
the first one of the data. -/
def OwnSector (fs : FileSystem) (chain : List ℕ) (sector : ℕ) : Prop :=
  ∃ clus ∈ chain, sector = fatSector fs clus ∨
    ∃ i < fs.secPerClus, sector = fs.firstDataClus + (clus - 2) * fs.secPerClus + i

/-- `read_file` returns what there is from the offset on, as far as it is asked for, writes that many
bytes at `buf` and no others, and reads only sectors of the file and of its chain. -/
def RespectsEnd (disk : Disk) (fs : FileSystem) (info : FileInfo) (chain : List ℕ) (offset buf size : ℕ) :
    Prop :=
  ∀ mem hdBuf1, ∃ r' bound, (∀ fuel, bound ≤ fuel → readFile disk fs fuel ⟨mem, hdBuf1, []⟩ info offset buf
      size = some (r', min size (info.size - offset))) ∧
    (∀ x, ¬ (buf ≤ x ∧ x < buf + min size (info.size - offset)) → r'.mem x = mem x) ∧
    ∀ s ∈ r'.sectors, OwnSector fs chain s

/-- `CLUS2SECTOR` takes the part of the file that is asked for to sectors of its own. -/
def AsksOwn (disk : Disk) (fs : FileSystem) (info : FileInfo) (chain : List ℕ) (offset size : ℕ) : Prop :=
  ∀ s ∈ givenSectors disk fs info offset (min size (info.size - offset)), OwnSector fs chain s

theorem clampedSize_eq_iff (hoffset : offset < 2 ^ 32) (hsize : size < 2 ^ 32) (hinfo : info.size < 2 ^ 32) :
    clampedSize info offset size = min size (info.size - offset) ↔
      offset ≤ info.size ∧ offset + size < 2 ^ 32 := by
  rw [clampedSize]
  split <;> omega

/-- With cluster 2 at the start of the data the sectors are right. -/
theorem OnVolume.ownSector (hv : OnVolume fs chain) (hclus : clus ∈ chain) (hi : i < fs.secPerClus) :
    OwnSector fs chain ((clus2Sector fs clus + i) % 2 ^ 32) :=
  ⟨clus, hclus, Or.inr ⟨i, hi, hv.clus2Sector_add hclus hi⟩⟩

theorem OnVolume.asksOwn (hv : OnVolume fs chain) (hf : IsFile disk fs info chain)
    (hpos : 0 < fs.secPerClus) (hin : offset ≤ info.size) : AsksOwn disk fs info chain offset size := by
  have hsize := hf.size
  have hmem : ∀ pos < chain.length * (512 * fs.secPerClus),
      clusAt disk fs info (pos / (512 * fs.secPerClus)) ∈ chain := fun pos hlt =>
    hf.clusAt_mem (Nat.div_lt_of_lt_mul (by rwa [Nat.mul_comm]))
  rintro s (⟨hhead, rfl⟩ | ⟨i, hi, -, rfl⟩)
  · -- not at a sector boundary, so not behind the last cluster
    have hinside : offset < chain.length * (512 * fs.secPerClus) := by
      rcases Nat.lt_or_eq_of_le (hin.trans hsize) with hlt | heq
      · exact hlt
      · rw [heq, Nat.mul_left_comm, Nat.mul_mod_right] at hhead
        exact absurd rfl hhead
    have hown := hv.ownSector (hmem offset hinside) hpos
    rwa [Nat.add_zero, Nat.mod_eq_of_lt clus2Sector_lt] at hown
  · have hmod := Nat.mod_lt (offset + i) (show 0 < 512 * fs.secPerClus by omega)
    exact hv.ownSector (hmem (offset + i) (by omega)) (by omega)

section Ends

variable (hf : IsFile disk fs info chain) (hpos : 0 < fs.secPerClus) (hlt : 512 * fs.secPerClus < 2 ^ 32)
  (hoffset : offset < 2 ^ 32) (hsize : size < 2 ^ 32) (hinfo : info.size < 2 ^ 32)
include hf hpos hlt hoffset hsize hinfo

/-- What a call does whose three numbers are in order. -/
theorem readFile_ends (hin : offset ≤ info.size) (hsum : offset + size < 2 ^ 32)
    (hwrap : (offset / (512 * fs.secPerClus) + 1) * (512 * fs.secPerClus) < 2 ^ 32) (r : Reading) :
    ∃ r', Progress fs chain r r' buf (min size (info.size - offset)) (givenByte disk fs info offset)
        (givenSectors disk fs info offset (min size (info.size - offset))) ∧
      ∃ bound, ∀ fuel, bound ≤ fuel →
        readFile disk fs fuel r info offset buf size = some (r', min size (info.size - offset)) := by
  have hv := (clampedSize_eq_iff hoffset hsize hinfo).mpr ⟨hin, hsum⟩
  have hend : offset + clampedSize info offset size ≤ info.size := by
    rw [hv]
    omega
  have hspec : ∃ r', Progress fs chain r r' buf (clampedSize info offset size) _ _ ∧ _ :=
    readFile_spec hf hpos hlt hend hwrap
  rwa [hv] at hspec

theorem respectsEnd_of (hin : offset ≤ info.size) (hsum : offset + size < 2 ^ 32)
    (hwrap : (offset / (512 * fs.secPerClus) + 1) * (512 * fs.secPerClus) < 2 ^ 32)
    (hown : AsksOwn disk fs info chain offset size) : RespectsEnd disk fs info chain offset buf size := by
  intro mem hdBuf1
  obtain ⟨r', hprogress, bound, hrun⟩ :=
    readFile_ends hf hpos hlt hoffset hsize hinfo hin hsum hwrap ⟨mem, hdBuf1, []⟩
  refine ⟨r', bound, hrun, fun x hx => ?_, fun s hs => ?_⟩
  · rw [hprogress.mem, if_neg hx]
  · rcases (hprogress.sectors s hs).resolve_left List.not_mem_nil with ⟨clus, hclus, hentry⟩ | hgiven
    · exact ⟨clus, hclus, Or.inl hentry⟩
    · exact hown s hgiven

omit hf hpos hlt in
theorem RespectsEnd.ends (hright : RespectsEnd disk fs info chain offset buf size) :
    offset ≤ info.size ∧ offset + size < 2 ^ 32 := by
  obtain ⟨r', bound, hrun, -, -⟩ := hright (fun _ => 0) fun _ => 0
  exact (clampedSize_eq_iff hoffset hsize hinfo).mp (readFile_size_of (hrun bound (Nat.le_refl _))).symm

omit hf hpos hoffset hsize hinfo in
theorem RespectsEnd.counter_lt (hright : RespectsEnd disk fs info chain offset buf size)
    (hdvd : 512 * fs.secPerClus ∣ 2 ^ 32) :
    (offset / (512 * fs.secPerClus) + 1) * (512 * fs.secPerClus) < 2 ^ 32 := by
  by_contra hwrap
  obtain ⟨r', bound, hrun, -, -⟩ := hright (fun _ => 0) fun _ => 0
  have hreturn := hrun bound (Nat.le_refl _)
  rw [readFile_diverges hlt hdvd hwrap] at hreturn
  cases hreturn

/-- All the sectors of the part are on the list of what has been asked for. -/
theorem RespectsEnd.asksOwn (hright : RespectsEnd disk fs info chain offset buf size)
    (hwrap : (offset / (512 * fs.secPerClus) + 1) * (512 * fs.secPerClus) < 2 ^ 32) :
    AsksOwn disk fs info chain offset size := by
  obtain ⟨hin, hsum⟩ := hright.ends hoffset hsize hinfo
  obtain ⟨r', bound, hrun, -, hsectors⟩ := hright (fun _ => 0) fun _ => 0
  obtain ⟨r'', hprogress, bound', hrun'⟩ :=
    readFile_ends hf hpos hlt hoffset hsize hinfo hin hsum hwrap ⟨fun _ => 0, fun _ => 0, []⟩
  have hsame := (hrun (bound + bound') (by omega)).symm.trans (hrun' (bound + bound') (by omega))
  have hr : r' = r'' := congrArg Prod.fst (Option.some.inj hsame)
  rw [hr] at hsectors
  exact fun s hs => hsectors s (hprogress.asked s (Or.inr hs))

/-- **`read_file`** respects the end of the file if the offset lies in it, offset and size do not go round
together, neither does the counter of the clusters, and `CLUS2SECTOR` keeps to the file; all four are
necessary where the size of a cluster is a power of two, the first two always.  The fourth is met on
every volume with the root directory at cluster 2. -/
theorem respectsEnd_iff :
    (offset ≤ info.size ∧ offset + size < 2 ^ 32 ∧
        (offset / (512 * fs.secPerClus) + 1) * (512 * fs.secPerClus) < 2 ^ 32 ∧
        AsksOwn disk fs info chain offset size →
      RespectsEnd disk fs info chain offset buf size) ∧
    (RespectsEnd disk fs info chain offset buf size →
      offset ≤ info.size ∧ offset + size < 2 ^ 32 ∧ (512 * fs.secPerClus ∣ 2 ^ 32 →
        (offset / (512 * fs.secPerClus) + 1) * (512 * fs.secPerClus) < 2 ^ 32 ∧
        AsksOwn disk fs info chain offset size)) ∧
    (OnVolume fs chain → offset ≤ info.size → AsksOwn disk fs info chain offset size) := by
  refine ⟨?_, ?_, fun hv hin => hv.asksOwn hf hpos hin⟩
  · intro ⟨hin, hsum, hwrap, hown⟩
    exact respectsEnd_of hf hpos hlt hoffset hsize hinfo hin hsum hwrap hown
  · intro hright
    obtain ⟨hin, hsum⟩ := hright.ends hoffset hsize hinfo
    refine ⟨hin, hsum, fun hdvd => ?_⟩
    have hwrap := hright.counter_lt hlt hdvd
    exact ⟨hwrap, hright.asksOwn hf hpos hlt hoffset hsize hinfo hwrap⟩

end Ends

/-- A disk with one file of five bytes: the FAT begins at sector 32, and clusters of one sector at 64. -/
def smallDisk : Disk := fun x =>
  if 16392 ≤ x ∧ x < 16395 then 0xFF else if x = 16395 then 0x0F else 0x41

def smallVolume : FileSystem := ⟨1, 32, 2, 64⟩

def smallFile : FileInfo := ⟨5, 2⟩

theorem smallFile_isFile : IsFile smallDisk smallVolume smallFile [2] where
  listed := Or.inr (FatChain.last (by decide +kernel))
  size := by decide

theorem respectsEnd_iff_small : RespectsEnd smallDisk smallVolume smallFile [2] 1 0x5000 10 := by
  have hown : AsksOwn smallDisk smallVolume smallFile [2] 1 10 :=
    OnVolume.asksOwn ⟨rfl, by decide⟩ smallFile_isFile (by decide) (by decide)
  exact (respectsEnd_iff smallFile_isFile (by decide) (by decide) (by decide) (by decide) (by decide)).1
    ⟨by decide, by decide, by decide, hown⟩

/-- One byte is asked for, one byte behind the end. -/
theorem pastEnd_fails : IsFile smallDisk smallVolume smallFile [2] ∧
    ¬ RespectsEnd smallDisk smallVolume smallFile [2] 6 0x5000 1 :=
  ⟨smallFile_isFile, fun hright => absurd (hright.ends (by decide) (by decide) (by decide)).1 (by decide)⟩

/-- The same disk with the root directory at cluster 3: the whole file is asked for, and read from the
sector in front of its own. -/
theorem rootAtThree_fails : IsFile smallDisk ⟨1, 32, 3, 64⟩ smallFile [2] ∧
    ¬ RespectsEnd smallDisk ⟨1, 32, 3, 64⟩ smallFile [2] 0 0x5000 5 := by
  have hfile : IsFile smallDisk ⟨1, 32, 3, 64⟩ smallFile [2] :=
    ⟨Or.inr (FatChain.last (by decide +kernel)), by decide⟩
  refine ⟨hfile, fun hright => ?_⟩
  have hown := hright.asksOwn hfile (by decide) (by decide) (by decide) (by decide) (by decide) (by decide)
  obtain ⟨clus, hclus, hsector⟩ := hown 63 (Or.inr ⟨0, by decide, Or.inl rfl, by decide⟩)
  obtain rfl := List.mem_singleton.mp hclus
  rcases hsector with hentry | ⟨i, -, hi⟩
  · exact absurd hentry (by decide)
  · have hle : 64 + (2 - 2) * 1 ≤ 63 := by
      rw [show 63 = 64 + (2 - 2) * 1 + i from hi]
      exact Nat.le_add_right _ i
    exact absurd hle (by decide)

end OmochaOS.Fs
