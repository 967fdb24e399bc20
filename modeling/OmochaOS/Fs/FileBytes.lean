import OmochaOS.Fs.ReadFile

/-!
# The bytes of a file (`modules/fs/fs.c`)

What `read_file` puts into memory is compared with the bytes that FAT32 gives a file: its clusters one
after the other, cluster 2 at the start of the data.  The part of a sector in front of the first boundary
is read from the first sector of its cluster, so all depends on whether that is the right one, or has the
same bytes.
-/

namespace OmochaOS.Fs

open ByteMemory

/-- The byte at a position of a file whose clusters are `chain`, on a volume with its data from
`firstDataClus` on. -/
def volumeByte (disk : Disk) (fs : FileSystem) (chain : List ℕ) (pos : ℕ) : UInt8 :=
  disk ((fs.firstDataClus + (chain.getD (pos / (512 * fs.secPerClus)) 0 - 2) * fs.secPerClus +
    pos % (512 * fs.secPerClus) / 512) * 512 + pos % 512)

/-- The clusters of the chain are on a volume with cluster 2 at the start of the data, and less than
2 ^ 32 sectors. -/
structure OnVolume (fs : FileSystem) (chain : List ℕ) : Prop where
  root : fs.rootClus = 2
  cluster : ∀ clus ∈ chain, 2 ≤ clus ∧ fs.firstDataClus + (clus - 1) * fs.secPerClus ≤ 2 ^ 32

variable {disk : Disk} {fs : FileSystem} {info : FileInfo} {r r' : Reading} {chain : List ℕ}
  {offset size buf clus i k pos : ℕ}

theorem FatChain.getD_iterate (hc : FatChain disk fs clus chain) (hi : i < chain.length) :
    chain.getD i 0 = (nextClus disk fs)^[i] clus := by
  induction hc generalizing i with
  | last _ =>
    rw [Nat.lt_one_iff.mp hi, Function.iterate_zero_apply]
    rfl
  | next _ ih =>
    cases i with
    | zero =>
      rw [Function.iterate_zero_apply]
      rfl
    | succ i =>
      rw [Function.iterate_succ_apply, List.getD_cons_succ]
      exact ih (Nat.lt_of_succ_lt_succ hi)

theorem IsFile.getD_clusAt (hf : IsFile disk fs info chain) (hi : i < chain.length) :
    chain.getD i 0 = clusAt disk fs info i := by
  rcases hf.listed with hnil | hc
  · rw [hnil] at hi
    exact absurd hi (Nat.not_lt_zero i)
  · exact hc.getD_iterate hi

/-- `CLUS2SECTOR` is right on such a volume. -/
theorem OnVolume.clus2Sector_add (hv : OnVolume fs chain) (hclus : clus ∈ chain) (hk : k < fs.secPerClus) :
    (clus2Sector fs clus + k) % 2 ^ 32 = fs.firstDataClus + (clus - 2) * fs.secPerClus + k := by
  obtain ⟨htwo, hend⟩ := hv.cluster clus hclus
  obtain ⟨n, rfl⟩ : ∃ n, clus = n + 2 := ⟨clus - 2, by omega⟩
  have hsucc : (n + 2 - 1) * fs.secPerClus = n * fs.secPerClus + fs.secPerClus := Nat.succ_mul n _
  have hn : n * 1 ≤ n * fs.secPerClus := Nat.mul_le_mul_left n (by omega)
  rw [hsucc] at hend
  have hsub : (n + 2 + 2 ^ 32 - 2) % 2 ^ 32 = n := by omega
  rw [clus2Sector, hv.root, hsub, Nat.add_sub_cancel]
  omega

theorem fileByte_eq_volumeByte (hf : IsFile disk fs info chain) (hv : OnVolume fs chain)
    (hpos : 0 < fs.secPerClus) (hlt : pos < info.size) :
    fileByte disk fs info pos = volumeByte disk fs chain pos := by
  have hsize := hf.size
  have hB0 : 0 < 512 * fs.secPerClus := by omega
  have hk : pos / (512 * fs.secPerClus) < chain.length :=
    Nat.div_lt_of_lt_mul (by rw [Nat.mul_comm]; omega)
  have hmod := Nat.mod_lt pos hB0
  rw [fileByte, volumeByte, hf.getD_clusAt hk,
    hv.clus2Sector_add (hf.clusAt_mem hk) (by omega)]

/-- `read_file` returns the size, and writes the bytes of the file at `buf` and nothing elsewhere. -/
def ReadsBytes (disk : Disk) (fs : FileSystem) (info : FileInfo) (chain : List ℕ) (offset buf size : ℕ) :
    Prop :=
  ∀ mem hdBuf1, ∃ r' bound,
    (∀ fuel, bound ≤ fuel →
      readFile disk fs fuel ⟨mem, hdBuf1, []⟩ info offset buf size = some (r', size)) ∧
    ∀ x, r'.mem x =
      if buf ≤ x ∧ x < buf + size then volumeByte disk fs chain (offset + (x - buf)) else mem x

/-- In front of the first sector boundary behind the offset there are no bytes, or the first sector of
the cluster is the right one or has the same bytes as it there. -/
def HeadAgrees (disk : Disk) (fs : FileSystem) (chain : List ℕ) (offset size : ℕ) : Prop :=
  offset % 512 = 0 ∨ offset % (512 * fs.secPerClus) < 512 ∨
    ∀ i < min (512 - offset % 512) size,
      volumeByte disk fs chain (offset / (512 * fs.secPerClus) * (512 * fs.secPerClus) + offset % 512 + i) =
        volumeByte disk fs chain (offset + i)

section Bytes

variable (hf : IsFile disk fs info chain) (hv : OnVolume fs chain) (hpos : 0 < fs.secPerClus)
  (hend : offset + size ≤ info.size)
include hf hv hpos hend

/-- The byte that is given in front of the first boundary. -/
theorem givenByte_head (hi : i < min (512 - offset % 512) size) (hhead : offset % 512 ≠ 0) :
    givenByte disk fs info offset i = volumeByte disk fs chain
      (offset / (512 * fs.secPerClus) * (512 * fs.secPerClus) + offset % 512 + i) := by
  have hB0 : 0 < 512 * fs.secPerClus := by omega
  have hdiv := Nat.div_add_mod offset (512 * fs.secPerClus)
  have hsub : offset % (512 * fs.secPerClus) % 512 = offset % 512 :=
    Nat.mod_mod_of_dvd offset (Nat.dvd_mul_right 512 fs.secPerClus)
  rw [Nat.mul_comm (512 * fs.secPerClus)] at hdiv
  rw [givenByte, if_pos ⟨hhead, by omega⟩]
  generalize hK : offset / (512 * fs.secPerClus) = K at *
  have hfirst : fileByte disk fs info (K * (512 * fs.secPerClus) + (offset % 512 + i)) = _ :=
    fileByte_first hpos (by omega)
  rw [← hfirst, ← Nat.add_assoc]
  exact fileByte_eq_volumeByte hf hv hpos (by omega)

/-- Behind it all bytes are right. -/
theorem givenByte_rest (hi : i < size) (hrest : offset % 512 = 0 ∨ 512 - offset % 512 ≤ i) :
    givenByte disk fs info offset i = volumeByte disk fs chain (offset + i) := by
  rw [givenByte, if_neg (by omega)]
  exact fileByte_eq_volumeByte hf hv hpos (by omega)

theorem headAgrees_iff : HeadAgrees disk fs chain offset size ↔
    ∀ i < size, givenByte disk fs info offset i = volumeByte disk fs chain (offset + i) := by
  constructor
  · intro hagrees i hi
    by_cases hhead : offset % 512 = 0
    · exact givenByte_rest hf hv hpos hend hi (Or.inl hhead)
    · by_cases hlow : i < 512 - offset % 512
      · rw [givenByte_head hf hv hpos hend (by omega) hhead]
        rcases hagrees.resolve_left hhead with hfirst | hsame
        · have hdiv := Nat.div_add_mod offset (512 * fs.secPerClus)
          have hsub : offset % (512 * fs.secPerClus) % 512 = offset % 512 :=
            Nat.mod_mod_of_dvd offset (Nat.dvd_mul_right 512 fs.secPerClus)
          rw [Nat.mul_comm (512 * fs.secPerClus)] at hdiv
          rw [← hsub, Nat.mod_eq_of_lt hfirst, hdiv]
        · exact hsame i (by omega)
      · exact givenByte_rest hf hv hpos hend hi (Or.inr (by omega))
  · intro hall
    by_cases hhead : offset % 512 = 0
    · exact Or.inl hhead
    · refine Or.inr (Or.inr fun i hi => ?_)
      rw [← givenByte_head hf hv hpos hend hi hhead]
      exact hall i (by omega)

omit hv in
/-- As long as the counter of the clusters does not go round, the bytes that are put at `buf` have to be
those of the file. -/
theorem readsBytes_iff_given (hlt : 512 * fs.secPerClus < 2 ^ 32) (hinfo : info.size < 2 ^ 32)
    (hwrap : (offset / (512 * fs.secPerClus) + 1) * (512 * fs.secPerClus) < 2 ^ 32) :
    ReadsBytes disk fs info chain offset buf size ↔
      ∀ i < size, givenByte disk fs info offset i = volumeByte disk fs chain (offset + i) := by
  have hclamp : clampedSize info offset size = size := by
    rw [clampedSize, if_neg (by omega)]
  have hread : ∀ r : Reading, ∃ r', Progress fs chain r r' buf size (givenByte disk fs info offset)
      (givenSectors disk fs info offset size) ∧ ∃ bound, ∀ fuel, bound ≤ fuel →
        readFile disk fs fuel r info offset buf size = some (r', size) := by
    intro r
    have hspec : ∃ r', Progress fs chain r r' buf (clampedSize info offset size)
        (givenByte disk fs info offset) (givenSectors disk fs info offset (clampedSize info offset size)) ∧
        ∃ bound, ∀ fuel, bound ≤ fuel →
          readFile disk fs fuel r info offset buf size = some (r', clampedSize info offset size) :=
      readFile_spec hf hpos hlt (by rw [hclamp]; exact hend) hwrap
    rwa [hclamp] at hspec
  constructor
  · intro hbytes i hi
    obtain ⟨r', bound, hrun, hmem⟩ := hbytes (fun _ => 0) fun _ => 0
    obtain ⟨r'', hprogress, bound', hrun'⟩ := hread ⟨fun _ => 0, fun _ => 0, []⟩
    have hsame := (hrun (bound + bound') (by omega)).symm.trans (hrun' (bound + bound') (by omega))
    have hr : r' = r'' := congrArg Prod.fst (Option.some.inj hsame)
    have hbyte := hmem (buf + i)
    rw [hr, hprogress.mem, if_pos (by omega), if_pos (by omega), Nat.add_sub_cancel_left] at hbyte
    exact hbyte
  · intro hall mem hdBuf1
    obtain ⟨r', hprogress, bound, hrun⟩ := hread ⟨mem, hdBuf1, []⟩
    refine ⟨r', bound, hrun, fun x => ?_⟩
    rw [hprogress.mem]
    by_cases hx : buf ≤ x ∧ x < buf + size
    · rw [if_pos hx, if_pos hx, hall _ (by omega)]
    · rw [if_neg hx, if_neg hx]

/-- **`read_file`** returns the bytes of the file if and only if those in front of the first sector
boundary are the same in the first sector of their cluster; where the counter of the clusters would go
round it does not return, if the size of a cluster is a power of two. -/
theorem readsBytes_iff (hlt : 512 * fs.secPerClus < 2 ^ 32) (hinfo : info.size < 2 ^ 32) :
    ((offset / (512 * fs.secPerClus) + 1) * (512 * fs.secPerClus) < 2 ^ 32 →
      (ReadsBytes disk fs info chain offset buf size ↔ HeadAgrees disk fs chain offset size)) ∧
    (512 * fs.secPerClus ∣ 2 ^ 32 → ReadsBytes disk fs info chain offset buf size →
      (offset / (512 * fs.secPerClus) + 1) * (512 * fs.secPerClus) < 2 ^ 32) := by
  constructor
  · intro hwrap
    rw [readsBytes_iff_given hf hpos hend hlt hinfo hwrap, headAgrees_iff hf hv hpos hend]
  · intro hdvd hbytes
    by_contra hwrap
    obtain ⟨r', bound, hrun, -⟩ := hbytes (fun _ => 0) fun _ => 0
    have hreturn := hrun bound (Nat.le_refl _)
    rw [readFile_diverges hlt hdvd hwrap] at hreturn
    cases hreturn

end Bytes

/-- A disk with one cluster of two sectors, each with bytes of its own. -/
def twoSectorDisk : Disk := fun x =>
  if 16392 ≤ x ∧ x < 16395 then 0xFF else if x = 16395 then 0x0F else if x < 33280 then 0x41 else 0x42

def twoSectorVolume : FileSystem := ⟨2, 32, 2, 64⟩

def twoSectorFile : FileInfo := ⟨1024, 2⟩

theorem twoSectorFile_isFile : IsFile twoSectorDisk twoSectorVolume twoSectorFile [2] where
  listed := Or.inr (FatChain.last (by decide +kernel))
  size := by decide

theorem twoSectorVolume_on : OnVolume twoSectorVolume [2] := ⟨rfl, by decide⟩

/-- Whole sectors are read as they are. -/
theorem readsBytes_iff_two : ReadsBytes twoSectorDisk twoSectorVolume twoSectorFile [2] 512 0x5000 512 :=
  ((readsBytes_iff twoSectorFile_isFile twoSectorVolume_on (by decide) (by decide) (by decide)
    (by decide)).1 (by decide)).mpr (Or.inl rfl)

/-- Byte 513 is read from the first sector. -/
theorem readsBytes_fails : IsFile twoSectorDisk twoSectorVolume twoSectorFile [2] ∧
    OnVolume twoSectorVolume [2] ∧
    ¬ ReadsBytes twoSectorDisk twoSectorVolume twoSectorFile [2] 513 0x5000 1 := by
  refine ⟨twoSectorFile_isFile, twoSectorVolume_on, fun hbytes => ?_⟩
  have hall := (readsBytes_iff_given twoSectorFile_isFile (by decide) (by decide)
    (by decide) (by decide) (by decide)).mp hbytes
  exact absurd (hall 0 (by decide)) (by decide +kernel)

end OmochaOS.Fs
