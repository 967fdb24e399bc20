import OmochaOS.Fs.BootSector
import OmochaOS.Fs.ShortName
import OmochaOS.Lib.ChainSearch

/-!
# Looking for a file (`modules/fs/fs.c`)

`get_file_info` takes one component of the path, goes along the clusters of a directory until an entry
has its name, and calls itself for the rest of the path in the directory that the entry names.  The path
is a string in memory; `strlen` and the loop over the clusters carry fuel, for neither need end.

* `searchDir_spec` — where the loop over the clusters ends;
* `getFileInfo_iff` — for which disks and paths the whole search ends, inside the volume.
-/

namespace OmochaOS.Fs

open ByteMemory CString

/-- The fields of `FAT32_DirEnt` that the search goes by. -/
structure DirEnt where
  name : List UInt8
  attr : UInt8
  fstClusHI : ℕ
  fstClusLO : ℕ
  fileSize : ℕ

/-- The 32 bytes of an entry. -/
def dirEnt (hdBuf1 : Memory) (offset : ℕ) : DirEnt where
  name := (List.range 11).map fun i => hdBuf1 (offset + i)
  attr := hdBuf1 (offset + 11)
  fstClusHI := readHalf hdBuf1 (offset + 20)
  fstClusLO := readHalf hdBuf1 (offset + 26)
  fileSize := readWord hdBuf1 (offset + 28)

/-- `ATTR_DIR`. -/
def attrDir : UInt8 := 0x10

/-- `FS_ATTR_LONGNAME`. -/
def attrLongname : UInt8 := 0x0F

/-- `DirEnt.FstClusHI << 16 | DirEnt.FstClusLO`. -/
def DirEnt.clus (e : DirEnt) : ℕ := e.fstClusHI <<< 16 ||| e.fstClusLO

/-- The characters before the zero. -/
def untilZero (l : List UInt8) : List UInt8 := l.takeWhile (· ≠ 0)

/-- What an entry with the name leads to. -/
inductive Verdict where
  | found (e : DirEnt)
  | mismatch
  | descend (clus : ℕ)

/-- The four cases for an entry with the name. -/
def verdictOf (isFile : Bool) (e : DirEnt) : Verdict :=
  if e.attr &&& attrDir ≠ 0 then (if isFile then .mismatch else .descend e.clus)
  else if isFile then .found e else .mismatch

/-- The loop over the entries of a sector, `n` of them from the offset on. -/
def searchEntries (hdBuf1 : Memory) (name83 : List UInt8) (isFile : Bool) : ℕ → ℕ → Option Verdict
  | 0, _ => none
  | n + 1, offset =>
    let e := dirEnt hdBuf1 offset
    if hdBuf1 offset = 0 then none
    else if hdBuf1 offset = 0xE5 ∨ hdBuf1 offset = 0x05 then searchEntries hdBuf1 name83 isFile n (offset + 32)
    else if e.attr = attrLongname then searchEntries hdBuf1 name83 isFile n (offset + 32)
    else if hdBuf1 offset = 0x2E then searchEntries hdBuf1 name83 isFile n (offset + 32)
    else if untilZero name83 = untilZero e.name then some (verdictOf isFile e)
    else searchEntries hdBuf1 name83 isFile n (offset + 32)

/-- The loop over the sectors of a cluster, `n` of them from the `i`-th on. -/
def searchSectors (disk : Disk) (fs : FileSystem) (name83 : List UInt8) (isFile : Bool) (clus : ℕ) :
    ℕ → ℕ → Option Verdict
  | 0, _ => none
  | n + 1, i =>
    let hdBuf1 := hdRead disk (fun _ => 0) ((clus2Sector fs clus + i) % 2 ^ 32) 0 512
    match searchEntries hdBuf1 name83 isFile 16 0 with
    | some v => some v
    | none => searchSectors disk fs name83 isFile clus n (i + 1)

/-- The entry with the name in a cluster. -/
def searchClus (disk : Disk) (fs : FileSystem) (name83 : List UInt8) (isFile : Bool) (clus : ℕ) :
    Option Verdict :=
  searchSectors disk fs name83 isFile clus fs.secPerClus 0

/-- The values of the FAT at which the search stops. -/
def IsEnd (clus : ℕ) : Prop := 0xFFFFFF8 ≤ clus ∧ clus ≤ 0xFFFFFFF

instance : DecidablePred IsEnd := fun clus =>
  inferInstanceAs (Decidable (0xFFFFFF8 ≤ clus ∧ clus ≤ 0xFFFFFFF))

/-- The loop over the clusters of a directory: the clusters that are searched, and what is found. -/
def searchDir (disk : Disk) (fs : FileSystem) (name83 : List UInt8) (isFile : Bool) :
    ℕ → ℕ → Option (List ℕ × Option Verdict) :=
  ChainSearch.search (searchClus disk fs name83 isFile) (nextClus disk fs) IsEnd

/-- `'/'`. -/
def slash : UInt8 := 47

/-- Where the first component ends, and whether the path ends there: the loop over `p`. -/
def componentEnd (mem : Memory) (fn : ℕ) : ℕ → ℕ → ℕ × Bool
  | 0, p => (p, false)
  | n + 1, p =>
    if mem (fn + p) = slash then (p, false)
    else if mem (fn + p) = 0 then (p, true)
    else componentEnd mem fn n (p + 1)

/-- The first component of the path: `p`, and `is_file`. -/
def component (mem : Memory) (fn : ℕ) : ℕ × Bool := componentEnd mem fn 11 1

/-- `name`, the characters of the component. -/
def componentName (mem : Memory) (fn : ℕ) : List UInt8 :=
  (List.range ((component mem fn).1 - 1)).map fun i => mem (fn + 1 + i)

/-- `fs_file_info`. -/
structure FoundFile where
  filename : List UInt8
  size : ℕ
  clus : ℕ

/-- The value that is returned, the clusters that have been searched, and the result of the search. -/
structure Lookup where
  code : ℕ
  clusters : List ℕ
  fileinfo : FoundFile

/-- What is done about the result of the search in a directory, with `rest` for the call of
`get_file_info` in another one. -/
def conclude (name : List UInt8) (fileinfo : FoundFile) (clusters : List ℕ) (rest : ℕ → Option Lookup) :
    Option Verdict → Option Lookup
  | none => some ⟨1, clusters, fileinfo⟩
  | some .mismatch => some ⟨3, clusters, fileinfo⟩
  | some (.found e) =>
    some ⟨0, clusters, ⟨name ++ fileinfo.filename.drop name.length, e.fileSize, e.clus⟩⟩
  | some (.descend clus) =>
    (rest clus).map fun r => ⟨r.code, clusters ++ r.clusters, r.fileinfo⟩

/-- `get_file_info`. -/
def getFileInfo (disk : Disk) (fs : FileSystem) (mem : Memory) (fileinfo : FoundFile) :
    ℕ → ℕ → ℕ → Option Lookup
  | 0, _, _ => none
  | fuel + 1, dirClus, fn => do
    let fnSize ← strlen (fun i => some (mem (fn + i))) fuel
    if mem (fn + fnSize - 1) = slash then pure ⟨2, [], fileinfo⟩
    else
      let name := componentName mem fn
      let r ← searchDir disk fs (write83Filename name) (component mem fn).2 fuel dirClus
      conclude name fileinfo r.1
        (fun clus => getFileInfo disk fs mem fileinfo fuel clus (fn + (component mem fn).1)) r.2

/-! ### Directories that are read to the end -/

section Directories

variable (disk : Disk)

/-- A cluster that belongs to the volume. -/
structure InVolume (clus : ℕ) : Prop where
  has : (bootSector disk).HasCluster clus
  le : clus ≤ 0x0FFFFFF6

/-- The FAT leads from the first cluster of a directory, through clusters of the volume, to one that has an
entry for the name, or to the last one of the chain: it is the cluster number `k`. -/
structure LeadsTo (name83 : List UInt8) (isFile : Bool) (dirClus k : ℕ) (verdict : Option Verdict) :
    Prop where
  ends : ChainSearch.Ends (searchClus disk (readBootSector disk) name83 isFile)
    (nextClus disk (readBootSector disk)) IsEnd dirClus k verdict
  inVolume : ∀ i ≤ k, InVolume disk ((nextClus disk (readBootSector disk))^[i] dirClus)

/-- The string at `fn` has `n` characters. -/
def StringAt (mem : Memory) (fn n : ℕ) : Prop := mem (fn + n) = 0 ∧ ∀ i < n, mem (fn + i) ≠ 0

/-- Each directory on the path is read to the end, or to the entry for its component. -/
inductive PathLeads (mem : Memory) : ℕ → ℕ → Prop
  | slash {dirClus fn n : ℕ} (hstr : StringAt mem fn n) (hlast : mem (fn + n - 1) = slash) :
      PathLeads mem dirClus fn
  | last {dirClus fn n k : ℕ} {verdict : Option Verdict} (hstr : StringAt mem fn n)
      (hlast : mem (fn + n - 1) ≠ Fs.slash)
      (hdir : LeadsTo disk (write83Filename (componentName mem fn)) (component mem fn).2 dirClus k verdict)
      (hno : ∀ clus, verdict ≠ some (.descend clus)) : PathLeads mem dirClus fn
  | down {dirClus fn n k clus : ℕ} (hstr : StringAt mem fn n) (hlast : mem (fn + n - 1) ≠ Fs.slash)
      (hdir : LeadsTo disk (write83Filename (componentName mem fn)) (component mem fn).2 dirClus k
        (some (.descend clus)))
      (hrest : PathLeads mem clus (fn + (component mem fn).1)) : PathLeads mem dirClus fn

/-- `get_file_info` returns, and has searched clusters of the volume only. -/
def EndsInVolume (mem : Memory) (fileinfo : FoundFile) (dirClus fn : ℕ) : Prop :=
  ∃ fuel r, getFileInfo disk (readBootSector disk) mem fileinfo fuel dirClus fn = some r ∧
    ∀ clus ∈ r.clusters, InVolume disk clus

end Directories

variable {disk : Disk} {fs : FileSystem} {mem : Memory} {fileinfo : FoundFile} {name83 : List UInt8}
  {isFile : Bool} {verdict : Option Verdict} {r : Lookup} {v : Verdict} {fuel dirClus fn n k i : ℕ}

/-! ### The search -/

theorem firstNot_iff_stringAt :
    FirstNot (· != 0) (fun i => some (mem (fn + i))) 0 n ↔ StringAt mem fn n := firstNot_zero_iff

theorem StringAt.unique {m : ℕ} (h : StringAt mem fn n) (h' : StringAt mem fn m) : n = m :=
  (firstNot_iff_stringAt.mpr h).unique (firstNot_iff_stringAt.mpr h')

theorem stringAt_of_strlen (h : strlen (fun i => some (mem (fn + i))) fuel = some n) : StringAt mem fn n :=
  firstNot_iff_stringAt.mp (scanWhile_firstNot h)

/-- `strlen` with fuel for the string. -/
theorem StringAt.strlen (h : StringAt mem fn n) (hn : n < fuel) :
    strlen (fun i => some (mem (fn + i))) fuel = some n :=
  (firstNot_iff_stringAt.mpr h).scanWhile (by omega)

/-- A directory of which only clusters of the volume have been searched. -/
theorem leadsTo_of_searchDir {found : List ℕ × Option Verdict}
    (h : searchDir disk (readBootSector disk) name83 isFile fuel dirClus = some found)
    (hvol : ∀ clus ∈ found.1, InVolume disk clus) :
    ∃ k, LeadsTo disk name83 isFile dirClus k found.2 := by
  obtain ⟨k, hk, hlist⟩ := ChainSearch.ends_of_search h
  refine ⟨k, hk, fun i hi => hvol _ ?_⟩
  rw [hlist]
  exact ChainSearch.mem_chain.mpr ⟨i, hi, rfl⟩

/-- The same directory is searched to the end. -/
theorem LeadsTo.searchDir (h : LeadsTo disk name83 isFile dirClus k verdict) (hk : k < fuel) :
    searchDir disk (readBootSector disk) name83 isFile fuel dirClus =
      some (ChainSearch.chain (nextClus disk (readBootSector disk)) dirClus k, verdict) :=
  ChainSearch.search_of_ends h.ends hk

theorem LeadsTo.inVolume_of_mem {clus : ℕ} (h : LeadsTo disk name83 isFile dirClus k verdict)
    (hclus : clus ∈ ChainSearch.chain (nextClus disk (readBootSector disk)) dirClus k) :
    InVolume disk clus := by
  obtain ⟨i, hi, heq⟩ := ChainSearch.mem_chain.mp hclus
  rw [← heq]
  exact h.inVolume i hi

/-- The clusters of a directory are searched once each. -/
theorem LeadsTo.nodup (h : LeadsTo disk name83 isFile dirClus k verdict) :
    (ChainSearch.chain (nextClus disk (readBootSector disk)) dirClus k).Nodup := h.ends.nodup

theorem subset_of_conclude {name : List UInt8} {clusters : List ℕ} {rest : ℕ → Option Lookup}
    (h : conclude name fileinfo clusters rest verdict = some r) : clusters ⊆ r.clusters := by
  cases verdict with
  | none =>
    obtain rfl := Option.some.inj h
    exact List.Subset.refl _
  | some v =>
    cases v with
    | found e =>
      obtain rfl := Option.some.inj h
      exact List.Subset.refl _
    | mismatch =>
      obtain rfl := Option.some.inj h
      exact List.Subset.refl _
    | descend clus =>
      obtain ⟨r', -, rfl⟩ := Option.map_eq_some_iff.mp h
      exact List.subset_append_left _ _

/-- Without a call for the rest of the path, the search returns with the clusters of this directory. -/
theorem conclude_of_ne_descend (name : List UInt8) (fileinfo : FoundFile) (clusters : List ℕ)
    (hno : ∀ clus, verdict ≠ some (.descend clus)) :
    ∃ r, (∀ rest, conclude name fileinfo clusters rest verdict = some r) ∧ r.clusters = clusters := by
  cases verdict with
  | none => exact ⟨_, fun _ => rfl, rfl⟩
  | some v =>
    cases v with
    | found e => exact ⟨_, fun _ => rfl, rfl⟩
    | mismatch => exact ⟨_, fun _ => rfl, rfl⟩
    | descend clus => exact absurd rfl (hno clus)

theorem pathLeads_of_getFileInfo
    (h : getFileInfo disk (readBootSector disk) mem fileinfo fuel dirClus fn = some r)
    (hvol : ∀ clus ∈ r.clusters, InVolume disk clus) : PathLeads disk mem dirClus fn := by
  induction fuel generalizing dirClus fn r with
  | zero => cases h
  | succ fuel ih =>
    obtain ⟨n, hn, h⟩ := Option.bind_eq_some_iff.mp h
    have hstr := stringAt_of_strlen hn
    by_cases hlast : mem (fn + n - 1) = slash
    · exact .slash hstr hlast
    · rw [if_neg hlast] at h
      obtain ⟨⟨clusters, verdict⟩, hfound, h⟩ := Option.bind_eq_some_iff.mp h
      obtain ⟨k, hdir⟩ := leadsTo_of_searchDir hfound fun clus hclus => hvol clus (subset_of_conclude h hclus)
      by_cases hdown : ∃ clus, verdict = some (.descend clus)
      · obtain ⟨clus, rfl⟩ := hdown
        obtain ⟨r', hr', rfl⟩ := Option.map_eq_some_iff.mp h
        exact .down hstr hlast hdir (ih hr' fun c hc => hvol c (List.mem_append_right _ hc))
      · exact .last hstr hlast hdir fun clus heq => hdown ⟨clus, heq⟩

/-- From some fuel on the search returns. -/
theorem PathLeads.getFileInfo (h : PathLeads disk mem dirClus fn) (fileinfo : FoundFile) :
    ∃ N r, (∀ fuel ≥ N, getFileInfo disk (readBootSector disk) mem fileinfo fuel dirClus fn = some r) ∧
      ∀ clus ∈ r.clusters, InVolume disk clus := by
  induction h with
  | @slash dirClus fn n hstr hlast =>
    refine ⟨n + 2, ⟨2, [], fileinfo⟩, fun fuel hfuel => ?_, fun clus hclus => by cases hclus⟩
    obtain ⟨fuel, rfl⟩ : ∃ f, fuel = f + 1 := ⟨fuel - 1, by omega⟩
    rw [Fs.getFileInfo, hstr.strlen (by omega)]
    show (if mem (fn + n - 1) = Fs.slash then _ else _) = _
    rw [if_pos hlast]
    rfl
  | @last dirClus fn n k verdict hstr hlast hdir hno =>
    obtain ⟨r, hr, hclusters⟩ := conclude_of_ne_descend (componentName mem fn) fileinfo
      (ChainSearch.chain (nextClus disk (readBootSector disk)) dirClus k) hno
    refine ⟨n + k + 2, r, fun fuel hfuel => ?_, fun clus hclus => ?_⟩
    · obtain ⟨fuel, rfl⟩ : ∃ f, fuel = f + 1 := ⟨fuel - 1, by omega⟩
      rw [Fs.getFileInfo, hstr.strlen (by omega)]
      show (if mem (fn + n - 1) = Fs.slash then _ else (searchDir _ _ _ _ fuel dirClus).bind _) = _
      rw [if_neg hlast, hdir.searchDir (by omega)]
      exact hr _
    · rw [hclusters] at hclus
      exact hdir.inVolume_of_mem hclus
  | @down dirClus fn n k clus hstr hlast hdir hrest ih =>
    obtain ⟨N, r, hr, hvol⟩ := ih
    refine ⟨N + n + k + 2, ⟨r.code, ChainSearch.chain (nextClus disk (readBootSector disk)) dirClus k ++
      r.clusters, r.fileinfo⟩, fun fuel hfuel => ?_, fun c hc => ?_⟩
    · obtain ⟨fuel, rfl⟩ : ∃ f, fuel = f + 1 := ⟨fuel - 1, by omega⟩
      rw [Fs.getFileInfo, hstr.strlen (by omega)]
      show (if mem (fn + n - 1) = Fs.slash then _ else (searchDir _ _ _ _ fuel dirClus).bind _) = _
      rw [if_neg hlast, hdir.searchDir (by omega)]
      show (Fs.getFileInfo _ _ mem fileinfo fuel clus (fn + (component mem fn).1)).map _ = _
      rw [hr fuel (by omega)]
      rfl
    · rcases List.mem_append.mp hc with hc | hc
      · exact hdir.inVolume_of_mem hc
      · exact hvol c hc

/-- **When the search ends inside the volume.**  Each directory on the path has to be read to the end through
clusters of the volume, or to an entry for its component. -/
theorem getFileInfo_iff : EndsInVolume disk mem fileinfo dirClus fn ↔ PathLeads disk mem dirClus fn := by
  constructor
  · rintro ⟨fuel, r, hr, hvol⟩
    exact pathLeads_of_getFileInfo hr hvol
  · intro h
    obtain ⟨N, r, hr, hvol⟩ := h.getFileInfo fileinfo
    exact ⟨N, r, hr N (Nat.le_refl N), hvol⟩

/-- A root directory without entries, in a cluster that follows itself in the FAT. -/
def loopDisk : Disk := fun i => if i = 32 * 512 + 8 then 2 else header 2 i

/-- `/a`. -/
def pathA : Memory := fun i => if i = 0 then slash else if i = 1 then 97 else 0

theorem loopDisk_next : nextClus loopDisk (readBootSector loopDisk) 2 = 2 := by decide +kernel

theorem loopDisk_sector (lba : ℕ) : loopDisk (lba * 512) = 0 := by
  rw [loopDisk, if_neg (by omega), header]
  repeat rw [if_neg (by omega)]

theorem loopDisk_empty (name83 : List UInt8) (isFile : Bool) :
    searchClus loopDisk (readBootSector loopDisk) name83 isFile 2 = none := by
  have hsectors : ∀ n i, searchSectors loopDisk (readBootSector loopDisk) name83 isFile 2 n i = none := by
    intro n
    induction n with
    | zero => exact fun _ => rfl
    | succ n ih =>
      intro i
      have hbyte : hdRead loopDisk (fun _ => 0)
          ((clus2Sector (readBootSector loopDisk) 2 + i) % 2 ^ 32) 0 512 0 = 0 := by
        rw [hdRead, if_pos (by decide), Nat.sub_zero, Nat.add_zero]
        exact loopDisk_sector _
      have hentries : searchEntries (hdRead loopDisk (fun _ => 0)
          ((clus2Sector (readBootSector loopDisk) 2 + i) % 2 ^ 32) 0 512) name83 isFile 16 0 = none := by
        rw [searchEntries]
        exact if_pos hbyte
      rw [searchSectors, hentries]
      exact ih (i + 1)
  exact hsectors _ _

theorem loopDisk_searchDir (name83 : List UInt8) (isFile : Bool) (fuel : ℕ) :
    searchDir loopDisk (readBootSector loopDisk) name83 isFile fuel 2 = none := by
  cases hrun : searchDir loopDisk (readBootSector loopDisk) name83 isFile fuel 2 with
  | none => rfl
  | some found =>
    obtain ⟨k, hk, -⟩ := ChainSearch.ends_of_search hrun
    rcases hk.of_fixed loopDisk_next with hne | hend
    · exact absurd (loopDisk_empty name83 isFile) hne
    · exact absurd hend (by decide)

/-- The search for `/a` in it does not end. -/
theorem loopDisk_hangs : (bootSector loopDisk).Asserted ∧ (bootSector loopDisk).rootClus = 2 ∧
    ¬ EndsInVolume loopDisk pathA ⟨[], 0, 0⟩ 2 0 := by
  refine ⟨⟨by decide, by decide, by decide, by decide, by decide⟩, by decide, ?_⟩
  rintro ⟨fuel, r, hr, -⟩
  cases fuel with
  | zero => cases hr
  | succ fuel =>
    obtain ⟨n, hn, hr⟩ := Option.bind_eq_some_iff.mp hr
    have htwo : StringAt pathA 0 2 := ⟨by decide, by decide⟩
    obtain rfl := (stringAt_of_strlen hn).unique htwo
    rw [if_neg (by decide)] at hr
    obtain ⟨found, hfound, -⟩ := Option.bind_eq_some_iff.mp hr
    rw [loopDisk_searchDir] at hfound
    cases hfound

end OmochaOS.Fs
