import OmochaOS.Fs.ReadFile
import Mathlib.Data.Nat.ModEq

/-!
# The geometry of a volume (`modules/fs/fs.c`)

`ReadBootSector` takes the place of the data from the header, and `CLUS2SECTOR` counts the clusters from
the root directory on.  On a FAT32 volume cluster 2 is the first one of the data.

`clusterAddressing_iff` says for which headers the two agree.
-/

namespace OmochaOS.Fs

open ByteMemory

/-- `FAT32_BS`, the fields that the driver goes by. -/
structure BootSector where
  bytesPerSec : ℕ
  secPerClus : ℕ
  rsvdSecCnt : ℕ
  numFATs : ℕ
  rootEntCnt : ℕ
  totSec16 : ℕ
  fatSz16 : ℕ
  totSec32 : ℕ
  fatSz32 : ℕ
  rootClus : ℕ
  bootSig : ℕ
deriving DecidableEq

/-- Two bytes. -/
def readHalf (m : Memory) (a : ℕ) : ℕ := (m a).toNat + (m (a + 1)).toNat * 2 ^ 8

/-- The boot sector as it lies on the disk. -/
def bootSector (disk : Disk) : BootSector where
  bytesPerSec := readHalf disk 11
  secPerClus := (disk 13).toNat
  rsvdSecCnt := readHalf disk 14
  numFATs := (disk 16).toNat
  rootEntCnt := readHalf disk 17
  totSec16 := readHalf disk 19
  fatSz16 := readHalf disk 22
  totSec32 := readWord disk 32
  fatSz32 := readWord disk 36
  rootClus := readWord disk 44
  bootSig := (disk 66).toNat

/-- The assertions of `ReadBootSector`. -/
structure BootSector.Asserted (bs : BootSector) : Prop where
  bootSig : bs.bootSig = 0x29
  totSec16 : bs.totSec16 = 0
  fatSz16 : bs.fatSz16 = 0
  rootEntCnt : bs.rootEntCnt = 0
  bytesPerSec : bs.bytesPerSec = 512

/-- `ReadBootSector`. -/
def readBootSector (disk : Disk) : FileSystem :=
  let bs := bootSector disk
  { secPerClus := bs.secPerClus
    fatStartSct := bs.rsvdSecCnt
    rootClus := bs.rootClus
    firstDataClus := (bs.rsvdSecCnt + bs.fatSz32 * bs.numFATs) % 2 ^ 32 }

/-! ### Where the clusters should be -/

/-- The first sector behind the FATs. -/
def BootSector.dataStart (bs : BootSector) : ℕ := bs.rsvdSecCnt + bs.numFATs * bs.fatSz32

/-- The first sector of a cluster. -/
def BootSector.sectorOf (bs : BootSector) (n : ℕ) : ℕ := bs.dataStart + (n - 2) * bs.secPerClus

/-- A cluster that is inside the volume. -/
structure BootSector.HasCluster (bs : BootSector) (n : ℕ) : Prop where
  two_le : 2 ≤ n
  lt : n < 2 ^ 32
  inside : bs.sectorOf n + bs.secPerClus ≤ bs.totSec32

/-- `CLUS2SECTOR` of a cluster `n`, beside another one. -/
structure Addressed (disk : Disk) (n m : ℕ) : Prop where
  sector : clus2Sector (readBootSector disk) n = (bootSector disk).sectorOf n
  behind : (bootSector disk).dataStart ≤ clus2Sector (readBootSector disk) n
  inside : clus2Sector (readBootSector disk) n + (bootSector disk).secPerClus ≤ (bootSector disk).totSec32
  apart : ∀ i < (bootSector disk).secPerClus, ∀ j < (bootSector disk).secPerClus,
    clus2Sector (readBootSector disk) n + i ≠ clus2Sector (readBootSector disk) m + j

variable {disk : Disk} {bs : BootSector} {n m : ℕ}

/-- The numbers of a cluster from the root directory on and from cluster 2 on differ by as many sectors as
there are between the two. -/
theorem offset_modEq {r s : ℕ} (hr : 2 ≤ r) (hr32 : r < 2 ^ 32) (hn : 2 ≤ n) :
    (n + 2 ^ 32 - r) % 2 ^ 32 * s + (r - 2) * s ≡ (n - 2) * s [MOD 2 ^ 32] := by
  have hmod : (n + 2 ^ 32 - r) % 2 ^ 32 * s ≡ (n + 2 ^ 32 - r) * s [MOD 2 ^ 32] :=
    (Nat.mod_modEq _ _).mul_right s
  have hsum : n + 2 ^ 32 - r + (r - 2) = n - 2 + 2 ^ 32 := by omega
  calc (n + 2 ^ 32 - r) % 2 ^ 32 * s + (r - 2) * s
    _ ≡ (n + 2 ^ 32 - r) * s + (r - 2) * s [MOD 2 ^ 32] := hmod.add_right _
    _ = (n - 2) * s + 2 ^ 32 * s := by rw [← Nat.add_mul, hsum, Nat.add_mul]
    _ ≡ (n - 2) * s [MOD 2 ^ 32] := Nat.ModEq.trans (Nat.ModEq.add_left _ (Nat.modEq_zero_iff_dvd.mpr
      (Nat.dvd_mul_right _ _))) (by rw [Nat.add_zero])

theorem bootSector_rootClus_lt : (bootSector disk).rootClus < 2 ^ 32 := readWord_lt disk 44

theorem bootSector_totSec32_lt : (bootSector disk).totSec32 < 2 ^ 32 := readWord_lt disk 32

/-- The sector of a cluster, when it is right. -/
theorem clus2Sector_eq_iff (hroot : 2 ≤ (bootSector disk).rootClus) (hn : (bootSector disk).HasCluster n) :
    clus2Sector (readBootSector disk) n = (bootSector disk).sectorOf n ↔
      ((bootSector disk).rootClus - 2) * (bootSector disk).secPerClus % 2 ^ 32 = 0 := by
  set bs := bootSector disk with hbs
  have htot : bs.totSec32 < 2 ^ 32 := bootSector_totSec32_lt
  have hlt : bs.sectorOf n < 2 ^ 32 := Nat.lt_of_le_of_lt (Nat.le_of_add_right_le hn.inside) htot
  have hstart : bs.dataStart < 2 ^ 32 := Nat.lt_of_le_of_lt (Nat.le_add_right _ _) hlt
  have hfirst : (readBootSector disk).firstDataClus = bs.dataStart := by
    show (bs.rsvdSecCnt + bs.fatSz32 * bs.numFATs) % 2 ^ 32 = bs.rsvdSecCnt + bs.numFATs * bs.fatSz32
    rw [Nat.mul_comm bs.fatSz32]
    exact Nat.mod_eq_of_lt hstart
  have hoffset := offset_modEq (s := bs.secPerClus) hroot bootSector_rootClus_lt hn.two_le
  set x := (n + 2 ^ 32 - bs.rootClus) % 2 ^ 32 * bs.secPerClus with hx
  have hsector : clus2Sector (readBootSector disk) n = (bs.dataStart + x) % 2 ^ 32 := by
    rw [clus2Sector, hfirst]
    rfl
  rw [hsector, BootSector.sectorOf]
  constructor
  · intro h
    have heq : bs.dataStart + x ≡ bs.dataStart + (n - 2) * bs.secPerClus [MOD 2 ^ 32] :=
      h.trans (Nat.mod_eq_of_lt hlt).symm
    have hsame : x ≡ (n - 2) * bs.secPerClus [MOD 2 ^ 32] := Nat.ModEq.add_left_cancel' _ heq
    have hzero : x + (bs.rootClus - 2) * bs.secPerClus ≡ x + 0 [MOD 2 ^ 32] := hoffset.trans hsame.symm
    exact Nat.ModEq.add_left_cancel' _ hzero
  · intro h
    have hzero : (bs.rootClus - 2) * bs.secPerClus ≡ 0 [MOD 2 ^ 32] := h
    have hsame : x ≡ (n - 2) * bs.secPerClus [MOD 2 ^ 32] := by
      have hadd : x + (bs.rootClus - 2) * bs.secPerClus ≡ x + 0 [MOD 2 ^ 32] := hzero.add_left x
      exact hadd.symm.trans hoffset
    have heq : (bs.dataStart + x) % 2 ^ 32 = (bs.dataStart + (n - 2) * bs.secPerClus) % 2 ^ 32 :=
      hsame.add_left _
    rw [heq]
    exact Nat.mod_eq_of_lt hlt

/-- Two clusters share no sector. -/
theorem BootSector.sectorOf_apart (hn : bs.HasCluster n) (hm : bs.HasCluster m) (hne : n ≠ m) {i j : ℕ}
    (hi : i < bs.secPerClus) (hj : j < bs.secPerClus) : bs.sectorOf n + i ≠ bs.sectorOf m + j := by
  intro h
  rw [sectorOf, sectorOf] at h
  have hsame : i + bs.secPerClus * (n - 2) = j + bs.secPerClus * (m - 2) := by
    rw [Nat.mul_comm, Nat.mul_comm bs.secPerClus]
    omega
  have hpos : 0 < bs.secPerClus := Nat.lt_of_le_of_lt (Nat.zero_le i) hi
  have hdiv : n - 2 = m - 2 := by
    calc n - 2 = (i + bs.secPerClus * (n - 2)) / bs.secPerClus := by
          rw [Nat.add_mul_div_left _ _ hpos, Nat.div_eq_of_lt hi, Nat.zero_add]
      _ = (j + bs.secPerClus * (m - 2)) / bs.secPerClus := by rw [hsame]
      _ = m - 2 := by rw [Nat.add_mul_div_left _ _ hpos, Nat.div_eq_of_lt hj, Nat.zero_add]
  have htwo := hn.two_le
  have htwo' := hm.two_le
  exact hne (by omega)

/-- The clusters of a volume are where they should be when the root directory is at cluster 2, or as many
sectors behind it as make a multiple of 2^32.  The assertions on the header add nothing to this. -/
theorem clusterAddressing_iff (hroot : 2 ≤ (bootSector disk).rootClus)
    (hn : (bootSector disk).HasCluster n) (hm : (bootSector disk).HasCluster m) (hne : n ≠ m) :
    Addressed disk n m ↔
      ((bootSector disk).rootClus - 2) * (bootSector disk).secPerClus % 2 ^ 32 = 0 := by
  constructor
  · intro h
    exact (clus2Sector_eq_iff hroot hn).mp h.sector
  · intro h
    have hsector := (clus2Sector_eq_iff hroot hn).mpr h
    have hother := (clus2Sector_eq_iff hroot hm).mpr h
    refine ⟨hsector, ?_, ?_, ?_⟩
    · rw [hsector]
      exact Nat.le_add_right _ _
    · rw [hsector]
      exact hn.inside
    · intro i hi j hj
      rw [hsector, hother]
      exact BootSector.sectorOf_apart hn hm hne hi hj

/-- A header with 32 sectors in front of two FATs of 16 sectors, and 8 sectors a cluster. -/
def header (rootClus : UInt8) : Disk := fun i =>
  if i = 12 then 2 else if i = 13 then 8 else if i = 14 then 32 else if i = 16 then 2 else
  if i = 33 then 8 else if i = 36 then 16 else if i = 44 then rootClus else if i = 66 then 0x29 else 0

theorem clusterAddressing_iff_header : Addressed (header 2) 2 5 ↔ (2 - 2) * 8 % 2 ^ 32 = 0 :=
  clusterAddressing_iff (by decide)
    ⟨by decide, by decide, by decide⟩ ⟨by decide, by decide, by decide⟩ (by decide)

/-- With the root directory at cluster 3, cluster 2 is read from the last sectors of the second FAT. -/
theorem root_at_three : (bootSector (header 3)).Asserted ∧ (bootSector (header 3)).HasCluster 2 ∧
    (bootSector (header 3)).HasCluster 5 ∧
    clus2Sector (readBootSector (header 3)) 2 < (bootSector (header 3)).dataStart ∧
    ¬ Addressed (header 3) 2 5 := by
  have hbefore : clus2Sector (readBootSector (header 3)) 2 < (bootSector (header 3)).dataStart := by decide
  refine ⟨⟨by decide, by decide, by decide, by decide, by decide⟩, ⟨by decide, by decide, by decide⟩,
    ⟨by decide, by decide, by decide⟩, hbefore, ?_⟩
  intro h
  exact absurd h.behind (Nat.not_le.mpr hbefore)

end OmochaOS.Fs
