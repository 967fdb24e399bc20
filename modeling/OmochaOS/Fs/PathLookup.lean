import Mathlib.Data.List.TakeWhile
import OmochaOS.Fs.FileBytes
import OmochaOS.Fs.Lookup

/-!
# What a path leads to (`modules/fs/fs.c`)

A volume is a graph of directories, each a list of names and what they stand for, and a path resolves in it
one name after the other.  `Mounted` says that the directories on the disk are those of the graph: the chain
of each ends, and behind its first entry that was never used there are only such entries.  Where a cluster
lies is what FAT32 says, cluster 2 at the start of the data.  `get_file_info` then returns what the path
resolves to (`getFileInfo_resolves`), as long as the root directory is at cluster 2, which is what
`CLUS2SECTOR` counts from, and no component is longer than the ten characters that are looked at.

The names are the eleven bytes of an entry.  A volume label counts as a file, and a deleted entry, a part of a
long name or a name with a dot in front counts as nothing.
-/

namespace OmochaOS.Fs

open ByteMemory CString

/-! ### The volume as a graph -/

inductive Item where
  | file (size clus : ℕ)
  | dir (clus : ℕ)
  deriving DecidableEq

inductive Outcome where
  | found (size clus : ℕ)
  | wrongType
  | absent

/-- What the names lead to, from the directory at `clus` on: a file at the end, and directories before. -/
def resolve (contents : ℕ → List (List UInt8 × Item)) (name : List UInt8) : List (List UInt8) → ℕ → Outcome
  | [], clus =>
    match (contents clus).lookup name with
    | none => .absent
    | some (.file size clus) => .found size clus
    | some (.dir _) => .wrongType
  | next :: rest, clus =>
    match (contents clus).lookup name with
    | none => .absent
    | some (.file _ _) => .wrongType
    | some (.dir clus) => resolve contents next rest clus

/-! ### The volume on the disk -/

/-- The first byte of the name. -/
def DirEnt.first (e : DirEnt) : UInt8 := e.name.headD 0

/-- The entry is neither free nor deleted, nor a part of a long name, nor `.` or `..`. -/
structure DirEnt.Shown (e : DirEnt) : Prop where
  used : e.first ≠ 0
  kept : e.first ≠ 0xE5 ∧ e.first ≠ 0x05
  short : e.attr ≠ attrLongname
  named : e.first ≠ 0x2E

instance (e : DirEnt) : Decidable e.Shown :=
  decidable_of_iff (e.first ≠ 0 ∧ (e.first ≠ 0xE5 ∧ e.first ≠ 0x05) ∧ e.attr ≠ attrLongname ∧ e.first ≠ 0x2E)
    ⟨fun ⟨h₁, h₂, h₃, h₄⟩ => ⟨h₁, h₂, h₃, h₄⟩, fun h => ⟨h.used, h.kept, h.short, h.named⟩⟩

def DirEnt.item (e : DirEnt) : Item :=
  if e.attr &&& attrDir ≠ 0 then .dir e.clus else .file e.fileSize e.clus

/-- The entries of a sector, `n` of them from the offset on. -/
def sectorEnts (hdBuf1 : Memory) : ℕ → ℕ → List DirEnt
  | 0, _ => []
  | n + 1, offset => dirEnt hdBuf1 offset :: sectorEnts hdBuf1 n (offset + 32)

/-- The entries of a cluster, in `n` sectors from the `i`-th on. -/
def clusEnts (disk : Disk) (fs : FileSystem) (clus : ℕ) : ℕ → ℕ → List DirEnt
  | 0, _ => []
  | n + 1, i =>
    sectorEnts (hdRead disk (fun _ => 0) (fs.firstDataClus + (clus - 2) * fs.secPerClus + i) 0 512) 16 0 ++
      clusEnts disk fs clus n (i + 1)

/-- The entries of some clusters. -/
def dirEnts (disk : Disk) (fs : FileSystem) (clusters : List ℕ) : List DirEnt :=
  clusters.flatMap fun clus => clusEnts disk fs clus fs.secPerClus 0

/-- The clusters of a directory, up to the first one that is marked as the last. -/
inductive DirChain (disk : Disk) (fs : FileSystem) : ℕ → List ℕ → Prop
  | last {clus : ℕ} (hend : IsEnd (nextClus disk fs clus)) : DirChain disk fs clus [clus]
  | next {clus : ℕ} {clusters : List ℕ} (hmore : ¬ IsEnd (nextClus disk fs clus))
      (hrest : DirChain disk fs (nextClus disk fs clus) clusters) : DirChain disk fs clus (clus :: clusters)

/-- Behind an entry that was never used there is none that is used. -/
def Closed (ents : List DirEnt) : Prop := ents.Pairwise fun e e' => e.first = 0 → e'.first = 0

/-- The clusters are on a volume of less than 2 ^ 32 sectors. -/
def InData (fs : FileSystem) (clusters : List ℕ) : Prop :=
  ∀ clus ∈ clusters, 2 ≤ clus ∧ fs.firstDataClus + (clus - 1) * fs.secPerClus ≤ 2 ^ 32

/-- The directory at `clus` has these items. -/
structure Holds (disk : Disk) (fs : FileSystem) (clus : ℕ) (items : List (List UInt8 × Item)) : Prop where
  entries : ∃ clusters, DirChain disk fs clus clusters ∧ InData fs clusters ∧
    Closed (dirEnts disk fs clusters) ∧
    items = ((dirEnts disk fs clusters).filter fun e => e.Shown).map fun e => (e.name, e.item)

/-- The directories `dirs` are on the disk. -/
structure Mounted (disk : Disk) (fs : FileSystem) (dirs : Set ℕ) (contents : ℕ → List (List UInt8 × Item)) :
    Prop where
  holds : ∀ clus ∈ dirs, Holds disk fs clus (contents clus)
  inside : ∀ clus ∈ dirs, ∀ name clus', (name, Item.dir clus') ∈ contents clus → clus' ∈ dirs

/-! ### Paths -/

/-- A component of a path: a short name of at most ten characters. -/
structure Component where
  base : List UInt8
  ext : List UInt8
  fits : IsShortName base ext
  length_le : (joined base ext).length ≤ 10
  plain : ∀ c ∈ joined base ext, c ≠ slash

/-- The component as it is written. -/
def Component.chars (c : Component) : List UInt8 := joined c.base c.ext

/-- The name that it stands for. -/
def Component.name (c : Component) : List UInt8 :=
  padded 8 (c.base.map charUpper) ++ padded 3 (c.ext.map charUpper)

/-- The path is at `fn`. -/
inductive PathAt (mem : Memory) : ℕ → List Component → Prop
  | nil {fn : ℕ} (hend : mem fn = 0) : PathAt mem fn []
  | cons {fn : ℕ} {c : Component} {rest : List Component} (hslash : mem fn = slash)
      (hchars : ∀ i < c.chars.length, c.chars[i]? = some (mem (fn + 1 + i)))
      (hrest : PathAt mem (fn + (c.chars.length + 1)) rest) : PathAt mem fn (c :: rest)

/-- The value that is returned for an outcome. -/
def Outcome.code : Outcome → ℕ
  | .found _ _ => 0
  | .wrongType => 3
  | .absent => 1

/-- What is written for it, with the last component of the path. -/
def Outcome.fileinfo (fileinfo : FoundFile) (name : List UInt8) : Outcome → FoundFile
  | .found size clus => ⟨name ++ fileinfo.filename.drop name.length, size, clus⟩
  | .wrongType => fileinfo
  | .absent => fileinfo

variable {disk : Disk} {fs : FileSystem} {mem hdBuf1 : Memory} {fileinfo : FoundFile} {name83 : List UInt8}
  {isFile : Bool} {ents : List DirEnt} {e : DirEnt} {c : Component} {rest : List Component}
  {contents : ℕ → List (List UInt8 × Item)} {dirs : Set ℕ} {clusters : List ℕ} {fuel clus fn n p i k : ℕ}

/-! ### One directory -/

theorem first_dirEnt (hdBuf1 : Memory) (offset : ℕ) : (dirEnt hdBuf1 offset).first = hdBuf1 offset := rfl

/-- The first entry with the name. -/
def firstHit (name83 : List UInt8) (ents : List DirEnt) : Option DirEnt :=
  ents.find? fun e => e.Shown ∧ untilZero name83 = untilZero e.name

theorem firstHit_nil_of_closed (h : ∀ e ∈ ents, e.first = 0) : firstHit name83 ents = none := by
  refine List.find?_eq_none.mpr fun e he hhit => ?_
  exact (of_decide_eq_true hhit).1.used (h e he)

/-- The loop over the entries of a sector. -/
theorem searchEntries_eq (hclosed : Closed (sectorEnts hdBuf1 n i)) :
    searchEntries hdBuf1 name83 isFile n i =
      (firstHit name83 (sectorEnts hdBuf1 n i)).map (verdictOf isFile) := by
  induction n generalizing i with
  | zero => rfl
  | succ n ih =>
    obtain ⟨hhead, htail⟩ := List.pairwise_cons.mp hclosed
    have hskip : ¬ (dirEnt hdBuf1 i).Shown → firstHit name83 (sectorEnts hdBuf1 (n + 1) i) =
        firstHit name83 (sectorEnts hdBuf1 n (i + 32)) := by
      intro hnot
      rw [sectorEnts, firstHit, List.find?_cons_of_neg (by simp [hnot])]
      rfl
    rw [searchEntries]
    by_cases hfree : hdBuf1 i = 0
    · rw [if_pos hfree, hskip fun hs => hs.used hfree,
        firstHit_nil_of_closed fun e he => hhead e he hfree]
      rfl
    · rw [if_neg hfree]
      by_cases hdeleted : hdBuf1 i = 0xE5 ∨ hdBuf1 i = 0x05
      · rw [if_pos hdeleted, hskip fun hs => hdeleted.elim hs.kept.1 hs.kept.2]
        exact ih htail
      · rw [if_neg hdeleted]
        by_cases hlong : (dirEnt hdBuf1 i).attr = attrLongname
        · rw [if_pos hlong, hskip fun hs => hs.short hlong]
          exact ih htail
        · rw [if_neg hlong]
          by_cases hdot : hdBuf1 i = 0x2E
          · rw [if_pos hdot, hskip fun hs => hs.named hdot]
            exact ih htail
          · rw [if_neg hdot]
            have hshown : (dirEnt hdBuf1 i).Shown := ⟨hfree, not_or.mp hdeleted, hlong, hdot⟩
            by_cases hname : untilZero name83 = untilZero (dirEnt hdBuf1 i).name
            · rw [if_pos hname, sectorEnts, firstHit, List.find?_cons_of_pos (by simp [hshown, hname])]
              rfl
            · rw [if_neg hname, sectorEnts, firstHit, List.find?_cons_of_neg (by simp [hname])]
              exact ih htail

theorem firstHit_append (ents ents' : List DirEnt) :
    firstHit name83 (ents ++ ents') = (firstHit name83 ents).or (firstHit name83 ents') :=
  List.find?_append

/-- The loop over the sectors of a cluster. -/
theorem searchSectors_eq (hv : OnVolume fs clusters) (hclus : clus ∈ clusters) (hn : i + n ≤ fs.secPerClus)
    (hclosed : Closed (clusEnts disk fs clus n i)) :
    searchSectors disk fs name83 isFile clus n i =
      (firstHit name83 (clusEnts disk fs clus n i)).map (verdictOf isFile) := by
  induction n generalizing i with
  | zero => rfl
  | succ n ih =>
    obtain ⟨hsector, hrest, -⟩ := List.pairwise_append.mp hclosed
    have hthere := hv.clus2Sector_add (k := i) hclus (by omega)
    rw [searchSectors, clusEnts, firstHit_append, hthere]
    simp only [searchEntries_eq hsector]
    cases firstHit name83 (sectorEnts (hdRead disk (fun _ => 0)
      (fs.firstDataClus + (clus - 2) * fs.secPerClus + i) 0 512) 16 0) with
    | none => exact ih (by omega) hrest
    | some e => rfl

/-- The loop over the clusters of a directory. -/
theorem DirChain.searchDir (h : DirChain disk fs clus clusters) (hv : OnVolume fs clusters)
    (hclosed : Closed (dirEnts disk fs clusters)) (hfuel : clusters.length ≤ fuel) :
    ∃ searched, searchDir disk fs name83 isFile fuel clus =
      some (searched, (firstHit name83 (dirEnts disk fs clusters)).map (verdictOf isFile)) := by
  induction h generalizing fuel with
  | @last clus hend =>
    obtain ⟨fuel, rfl⟩ := Nat.exists_eq_succ_of_ne_zero (Nat.ne_of_gt (Nat.lt_of_lt_of_le Nat.one_pos hfuel))
    have hone : dirEnts disk fs [clus] = clusEnts disk fs clus fs.secPerClus 0 := by
      rw [dirEnts, List.flatMap_cons, List.flatMap_nil, List.append_nil]
    rw [hone] at hclosed ⊢
    have hclus : searchClus disk fs name83 isFile clus = _ :=
      searchSectors_eq hv List.mem_cons_self (Nat.zero_add _).le hclosed
    rw [Fs.searchDir, ChainSearch.search, hclus]
    cases firstHit name83 (clusEnts disk fs clus fs.secPerClus 0) with
    | none => exact ⟨_, if_pos hend⟩
    | some e => exact ⟨_, rfl⟩
  | @next clus clusters hmore hrest ih =>
    obtain ⟨fuel, rfl⟩ := Nat.exists_eq_succ_of_ne_zero (Nat.ne_of_gt (Nat.lt_of_lt_of_le Nat.succ_pos' hfuel))
    have hcons : dirEnts disk fs (clus :: clusters) =
        clusEnts disk fs clus fs.secPerClus 0 ++ dirEnts disk fs clusters := List.flatMap_cons
    rw [hcons] at hclosed ⊢
    obtain ⟨hhere, hthere, -⟩ := List.pairwise_append.mp hclosed
    have hv' : OnVolume fs clusters := ⟨hv.root, fun c hc => hv.cluster c (List.mem_cons_of_mem _ hc)⟩
    obtain ⟨searched, hsearched⟩ := ih hv' hthere (Nat.le_of_succ_le_succ hfuel)
    have hclus : searchClus disk fs name83 isFile clus = _ :=
      searchSectors_eq hv List.mem_cons_self (Nat.zero_add _).le hhere
    rw [firstHit_append, Fs.searchDir, ChainSearch.search, hclus]
    cases firstHit name83 (clusEnts disk fs clus fs.secPerClus 0) with
    | none =>
      refine ⟨clus :: searched, ?_⟩
      show (if IsEnd (nextClus disk fs clus) then _ else _) = _
      rw [if_neg hmore]
      show (Fs.searchDir disk fs name83 isFile fuel (nextClus disk fs clus)).map _ = _
      rw [hsearched]
      rfl
    | some e => exact ⟨_, rfl⟩

/-! ### Names -/

theorem untilZero_eq_self {l : List UInt8} (h : ∀ c ∈ l, c ≠ 0) : untilZero l = l := by
  refine List.takeWhile_eq_self_iff.mpr fun c hc => ?_
  simpa using h c hc

/-- `strcmp` of eleven bytes without a zero. -/
theorem untilZero_eq_iff {l l' : List UInt8} (h : ∀ c ∈ l, c ≠ 0) (hlen : l'.length = l.length) :
    untilZero l = untilZero l' ↔ l' = l := by
  rw [untilZero_eq_self h]
  constructor
  · intro heq
    have hfront : l <+: l' := heq ▸ List.takeWhile_prefix _
    exact (hfront.eq_of_length hlen.symm).symm
  · intro heq
    rw [heq, untilZero_eq_self h]

theorem Component.write83Filename (c : Component) : Fs.write83Filename c.chars = c.name :=
  write83Filename_joined c.fits

theorem Component.name_ne_zero (c : Component) : ∀ ch ∈ c.name, ch ≠ 0 := by
  intro ch hch
  rcases List.mem_append.mp hch with hbase | hext
  · obtain ⟨i, hi⟩ := List.mem_iff_getElem?.mp hbase
    exact c.fits.field_base.padded_ne_zero hi
  · obtain ⟨i, hi⟩ := List.mem_iff_getElem?.mp hext
    exact c.fits.field_ext.padded_ne_zero hi

theorem Component.length_name (c : Component) : c.name.length = 11 := by
  rw [Component.name, List.length_append, length_padded c.fits.field_base.le, length_padded c.fits.field_ext.le]

theorem length_name_of_mem_sectorEnts (he : e ∈ sectorEnts hdBuf1 n i) : e.name.length = 11 := by
  induction n generalizing i with
  | zero => exact absurd he List.not_mem_nil
  | succ n ih =>
    rcases List.mem_cons.mp he with rfl | he
    · show ((List.range 11).map _).length = 11
      rw [List.length_map, List.length_range]
    · exact ih he

theorem length_name_of_mem_clusEnts (he : e ∈ clusEnts disk fs clus n i) : e.name.length = 11 := by
  induction n generalizing i with
  | zero => exact absurd he List.not_mem_nil
  | succ n ih =>
    rcases List.mem_append.mp he with he | he
    · exact length_name_of_mem_sectorEnts he
    · exact ih he

theorem length_name_of_mem_dirEnts (he : e ∈ dirEnts disk fs clusters) : e.name.length = 11 := by
  obtain ⟨clus, -, he⟩ := List.mem_flatMap.mp he
  exact length_name_of_mem_clusEnts he

/-- The first entry with the name of a component is the one that the directory has under it. -/
theorem lookup_items (c : Component) (hlen : ∀ e ∈ ents, e.name.length = 11) :
    ((ents.filter fun e => e.Shown).map fun e => (e.name, e.item)).lookup c.name =
      (firstHit c.name ents).map DirEnt.item := by
  induction ents with
  | nil => rfl
  | cons e ents ih =>
    have hname : untilZero c.name = untilZero e.name ↔ e.name = c.name :=
      untilZero_eq_iff c.name_ne_zero ((hlen e List.mem_cons_self).trans c.length_name.symm)
    have htail := ih fun e' he' => hlen e' (List.mem_cons_of_mem e he')
    by_cases hshown : e.Shown
    · rw [List.filter_cons_of_pos (by simpa using hshown), List.map_cons, List.lookup_cons]
      by_cases heq : e.name = c.name
      · rw [firstHit, List.find?_cons_of_pos (by simp [hshown, heq]), heq, beq_self_eq_true]
        rfl
      · have hne : (c.name == e.name) = false := by simpa using Ne.symm heq
        rw [firstHit, List.find?_cons_of_neg (by simp [hname, heq]), hne]
        exact htail
    · rw [List.filter_cons_of_neg (by simpa using hshown), firstHit,
        List.find?_cons_of_neg (by simp [hshown])]
      exact htail

/-! ### The path -/

/-- The loop over `p`. -/
theorem componentEnd_eq {last : Bool} (hk : k < n)
    (hchars : ∀ i < k, mem (fn + (p + i)) ≠ slash ∧ mem (fn + (p + i)) ≠ 0)
    (hend : if last then mem (fn + (p + k)) = 0 else mem (fn + (p + k)) = slash) :
    componentEnd mem fn n p = (p + k, last) := by
  induction n generalizing p k with
  | zero => exact absurd hk (Nat.not_lt_zero k)
  | succ n ih =>
    rw [componentEnd]
    cases k with
    | zero =>
      cases last with
      | false => exact if_pos hend
      | true =>
        have hzero : mem (fn + p) = 0 := hend
        rw [if_neg (by rw [hzero]; decide), if_pos hzero]
        rfl
    | succ k =>
      have hfirst := hchars 0 (Nat.succ_pos k)
      rw [Nat.add_zero] at hfirst
      rw [if_neg hfirst.1, if_neg hfirst.2]
      have hstep : p + (k + 1) = p + 1 + k := by omega
      rw [hstep] at hend ⊢
      refine ih (Nat.lt_of_succ_lt_succ hk) (fun i hi => ?_) hend
      have hnext := hchars (i + 1) (Nat.succ_lt_succ hi)
      rwa [show p + (i + 1) = p + 1 + i by omega] at hnext

theorem Component.chars_ne_zero (c : Component) : ∀ ch ∈ c.chars, ch ≠ 0 := by
  intro ch hch
  rw [Component.chars, joined] at hch
  split at hch
  · exact (c.fits.plain ch (List.mem_append_left _ hch)).1
  · rcases List.mem_append.mp hch with hbase | hext
    · exact (c.fits.plain ch (List.mem_append_left _ hbase)).1
    · rcases List.mem_cons.mp hext with rfl | hext
      · decide
      · exact (c.fits.plain ch (List.mem_append_right _ hext)).1

theorem Component.chars_pos (c : Component) : 0 < c.chars.length := by
  have hpos := c.fits.pos
  rw [Component.chars, joined]
  split
  · exact hpos
  · rw [List.length_append]
    omega

/-- The characters of the first component, in memory. -/
theorem PathAt.head (h : PathAt mem fn (c :: rest)) (hi : i < c.chars.length) :
    mem (fn + (1 + i)) ≠ slash ∧ mem (fn + (1 + i)) ≠ 0 := by
  cases h with
  | cons hslash hchars hrest =>
    have hmem := List.mem_of_getElem? (hchars i hi)
    rw [Nat.add_assoc] at hmem
    exact ⟨c.plain _ hmem, c.chars_ne_zero _ hmem⟩

/-- The loop over `p` finds the first component. -/
theorem PathAt.component (h : PathAt mem fn (c :: rest)) :
    component mem fn = (c.chars.length + 1, rest.isEmpty) ∧ componentName mem fn = c.chars := by
  have hlen := c.length_le
  have hfirst : Fs.component mem fn = (c.chars.length + 1, rest.isEmpty) := by
    have hchars := fun i (hi : i < c.chars.length) => h.head hi
    rw [Fs.component, Nat.add_comm]
    refine componentEnd_eq (show c.chars.length < 11 from Nat.lt_succ_of_le hlen) hchars ?_
    cases h with
    | cons hslash _ hrest =>
      rw [Nat.add_comm 1]
      cases hrest with
      | nil hend => exact hend
      | cons hslash' _ _ => exact hslash'
  refine ⟨hfirst, ?_⟩
  rw [componentName, hfirst, Nat.add_sub_cancel]
  cases h with
  | cons hslash hchars hrest =>
    refine List.ext_getElem? fun i => ?_
    by_cases hi : i < c.chars.length
    · rw [List.getElem?_map, List.getElem?_range hi, hchars i hi]
      rfl
    · rw [List.getElem?_eq_none (by simpa using hi), List.getElem?_eq_none (by omega)]

/-- The path is a string, and does not end in a slash. -/
theorem PathAt.stringAt (h : PathAt mem fn (c :: rest)) :
    ∃ n, StringAt mem fn n ∧ mem (fn + n - 1) ≠ slash := by
  induction rest generalizing fn c with
  | nil =>
    have hpos := c.chars_pos
    refine ⟨c.chars.length + 1, ⟨?_, fun i hi => ?_⟩, ?_⟩
    · cases h with
      | cons _ _ hrest =>
        cases hrest with
        | nil hend => exact hend
    · cases i with
      | zero =>
        cases h with
        | cons hslash _ _ =>
          rw [Nat.add_zero, hslash]
          decide
      | succ i =>
        rw [Nat.add_comm i 1]
        exact (h.head (Nat.lt_of_succ_lt_succ hi)).2
    · have hlast := (h.head (i := c.chars.length - 1) (by omega)).1
      rwa [show fn + (c.chars.length + 1) - 1 = fn + (1 + (c.chars.length - 1)) by omega]
  | cons c' rest ih =>
    have hrest : PathAt mem (fn + (c.chars.length + 1)) (c' :: rest) := by
      cases h with
      | cons _ _ hrest => exact hrest
    obtain ⟨n, hstr, hlast⟩ := ih hrest
    have hn : 0 < n := by
      by_contra hzero
      obtain rfl : n = 0 := by omega
      cases hrest with
      | cons hslash _ _ =>
        have hzero : mem (fn + (c.chars.length + 1)) = 0 := hstr.1
        rw [hzero] at hslash
        exact absurd hslash (by decide)
    refine ⟨c.chars.length + 1 + n, ⟨?_, fun i hi => ?_⟩, ?_⟩
    · rw [← Nat.add_assoc]
      exact hstr.1
    · by_cases hi' : i < c.chars.length + 1
      · cases i with
        | zero =>
          cases h with
          | cons hslash _ _ =>
            rw [Nat.add_zero, hslash]
            decide
        | succ i =>
          rw [Nat.add_comm i 1]
          exact (h.head (Nat.lt_of_succ_lt_succ hi')).2
      · have hthere := hstr.2 (i - (c.chars.length + 1)) (by omega)
        rwa [show fn + (c.chars.length + 1) + (i - (c.chars.length + 1)) = fn + i by omega] at hthere
    · rwa [← Nat.add_assoc]

/-! ### The lookup -/

/-- What an entry stands for decides what is done about it. -/
theorem verdictOf_item (e : DirEnt) :
    (∃ clus, e.item = .dir clus ∧ verdictOf true e = .mismatch ∧ verdictOf false e = .descend clus) ∨
      ∃ size clus, e.item = .file size clus ∧ verdictOf true e = .found e ∧ verdictOf false e = .mismatch ∧
        size = e.fileSize ∧ clus = e.clus := by
  by_cases hdir : e.attr &&& attrDir ≠ 0
  · exact Or.inl ⟨e.clus, if_pos hdir, if_pos hdir, if_pos hdir⟩
  · exact Or.inr ⟨e.fileSize, e.clus, if_neg hdir, if_neg hdir, if_neg hdir, rfl, rfl⟩

/-- The search of a directory finds the item of a component. -/
theorem Holds.search {items : List (List UInt8 × Item)} (h : Holds disk fs clus items) (hroot : fs.rootClus = 2)
    (c : Component) (isFile : Bool) :
    ∃ N, ∃ hit : Option DirEnt, items.lookup c.name = hit.map DirEnt.item ∧ ∀ fuel ≥ N, ∃ searched,
      searchDir disk fs (Fs.write83Filename c.chars) isFile fuel clus =
        some (searched, hit.map (verdictOf isFile)) := by
  obtain ⟨clusters, hchain, hdata, hclosed, rfl⟩ := h.entries
  refine ⟨clusters.length, firstHit c.name (dirEnts disk fs clusters), ?_, fun fuel hfuel => ?_⟩
  · exact lookup_items c fun e he => length_name_of_mem_dirEnts he
  · rw [c.write83Filename]
    exact hchain.searchDir ⟨hroot, hdata⟩ hclosed hfuel

/-- One call of `get_file_info`, on a path that begins with a component. -/
theorem PathAt.getFileInfo (h : PathAt mem fn (c :: rest)) (disk : Disk) (fs : FileSystem) (fileinfo : FoundFile)
    (clus : ℕ) : ∃ N, ∀ fuel ≥ N, Fs.getFileInfo disk fs mem fileinfo (fuel + 1) clus fn =
      (searchDir disk fs (Fs.write83Filename c.chars) rest.isEmpty fuel clus).bind fun r =>
        conclude c.chars fileinfo r.1
          (fun clus => Fs.getFileInfo disk fs mem fileinfo fuel clus (fn + (c.chars.length + 1))) r.2 := by
  obtain ⟨n, hstr, hlast⟩ := h.stringAt
  obtain ⟨hcomponent, hname⟩ := h.component
  refine ⟨n + 1, fun fuel hfuel => ?_⟩
  rw [Fs.getFileInfo, hstr.strlen hfuel]
  show (if mem (fn + n - 1) = slash then _ else _) = _
  rw [if_neg hlast, hname, hcomponent]
  rfl

/-- What `get_file_info` returns and writes for an outcome. -/
def Answers (fileinfo : FoundFile) (name : List UInt8) (outcome : Outcome) (r : Lookup) : Prop :=
  r.code = outcome.code ∧ r.fileinfo = outcome.fileinfo fileinfo name

/-- **What a path leads to is what is returned for it.** -/
theorem getFileInfo_resolves (fileinfo : FoundFile) (hroot : fs.rootClus = 2)
    (hm : Mounted disk fs dirs contents) (hclus : clus ∈ dirs)
    (h : PathAt mem fn (c :: rest)) : ∃ N, ∀ fuel ≥ N, ∃ r, getFileInfo disk fs mem fileinfo fuel clus fn = some r ∧
      Answers fileinfo ((c :: rest).getLast (List.cons_ne_nil c rest)).chars
        (resolve contents c.name (rest.map Component.name) clus) r := by
  induction rest generalizing c clus fn with
  | nil =>
    obtain ⟨N, hcall⟩ := h.getFileInfo disk fs fileinfo clus
    obtain ⟨N', hit, hlookup, hsearch⟩ := (hm.holds clus hclus).search hroot c true
    refine ⟨N + N' + 1, fun fuel hfuel => ?_⟩
    obtain ⟨fuel, rfl⟩ : ∃ f, fuel = f + 1 := ⟨fuel - 1, by omega⟩
    obtain ⟨searched, hfound⟩ := hsearch fuel (by omega)
    rw [hcall fuel (by omega), List.map_nil, resolve, hlookup, List.isEmpty_nil, hfound]
    cases hit with
    | none => exact ⟨_, rfl, rfl, rfl⟩
    | some e =>
      rcases verdictOf_item e with ⟨clus', hitem, hverdict, -⟩ | ⟨size, clus', hitem, hverdict, -, rfl, rfl⟩
      · rw [Option.map_some, Option.map_some, hitem, hverdict]
        exact ⟨_, rfl, rfl, rfl⟩
      · rw [Option.map_some, Option.map_some, hitem, hverdict]
        exact ⟨_, rfl, rfl, rfl⟩
  | cons c' rest ih =>
    obtain ⟨N, hcall⟩ := h.getFileInfo disk fs fileinfo clus
    obtain ⟨N', hit, hlookup, hsearch⟩ := (hm.holds clus hclus).search hroot c false
    have hstep : ∀ fuel ≥ N + N', ∃ searched, getFileInfo disk fs mem fileinfo (fuel + 1) clus fn =
        conclude c.chars fileinfo searched
          (fun clus => getFileInfo disk fs mem fileinfo fuel clus (fn + (c.chars.length + 1)))
          (hit.map (verdictOf false)) := by
      intro fuel hfuel
      obtain ⟨searched, hfound⟩ := hsearch fuel (by omega)
      refine ⟨searched, ?_⟩
      rw [hcall fuel (by omega)]
      show (searchDir _ _ _ false fuel clus).bind _ = _
      rw [hfound]
      rfl
    have hrest : PathAt mem (fn + (c.chars.length + 1)) (c' :: rest) := by
      cases h with
      | cons _ _ hrest => exact hrest
    cases hit with
    | none =>
      refine ⟨N + N' + 1, fun fuel hfuel => ?_⟩
      obtain ⟨fuel, rfl⟩ : ∃ f, fuel = f + 1 := ⟨fuel - 1, by omega⟩
      obtain ⟨searched, hone⟩ := hstep fuel (by omega)
      rw [List.map_cons, resolve, hlookup, hone]
      exact ⟨_, rfl, rfl, rfl⟩
    | some e =>
      rcases verdictOf_item e with ⟨clus', hitem, -, hverdict⟩ | ⟨size, clus', hitem, -, hverdict, -, -⟩
      · -- the directory of the rest of the path
        have hsome : (contents clus).lookup c.name = some (.dir clus') := by
          rw [hlookup, Option.map_some, hitem]
        obtain ⟨l₁, l₂, hsplit, -⟩ := List.lookup_eq_some_iff.mp hsome
        have hitems : (c.name, Item.dir clus') ∈ contents clus := by
          rw [hsplit]
          exact List.mem_append_right _ List.mem_cons_self
        obtain ⟨M, hdown⟩ := ih (hm.inside clus hclus c.name clus' hitems) hrest
        refine ⟨N + N' + M + 1, fun fuel hfuel => ?_⟩
        obtain ⟨fuel, rfl⟩ : ∃ f, fuel = f + 1 := ⟨fuel - 1, by omega⟩
        obtain ⟨searched, hone⟩ := hstep fuel (by omega)
        obtain ⟨r, hr, hcode, hinfo⟩ := hdown fuel (by omega)
        rw [List.map_cons, resolve, hsome, hone, Option.map_some, hverdict, conclude, hr]
        exact ⟨_, rfl, hcode, hinfo⟩
      · refine ⟨N + N' + 1, fun fuel hfuel => ?_⟩
        obtain ⟨fuel, rfl⟩ : ∃ f, fuel = f + 1 := ⟨fuel - 1, by omega⟩
        obtain ⟨searched, hone⟩ := hstep fuel (by omega)
        rw [List.map_cons, resolve, hlookup, hone, Option.map_some, Option.map_some, hitem, hverdict]
        exact ⟨_, rfl, rfl, rfl⟩

/-- A directory entry with this name, of this kind. -/
def entryBytes (name : List UInt8) (attr clus size : UInt8) : List UInt8 :=
  name ++ [attr] ++ List.replicate 14 0 ++ [clus, 0, size, 0, 0, 0]

/-- `B`. -/
def nameB : List UInt8 := 66 :: List.replicate 10 space

/-- `A.T`. -/
def nameAT : List UInt8 := 65 :: List.replicate 7 space ++ [84, space, space]

def treeVolume : FileSystem := ⟨1, 32, 2, 64⟩

/-- The root directory has a directory `B`, which has a file `A.T`. -/
def treeDisk : Disk := fun x =>
  if x / 512 = 32 then (if 8 ≤ x % 512 ∧ x % 512 < 16 then 0xFF else 0)
  else if x / 512 = 64 then (entryBytes nameB attrDir 3 0)[x % 512]?.getD 0
  else if x / 512 = 65 then (entryBytes nameAT 0 9 5)[x % 512]?.getD 0
  else 0

def treeContents (clus : ℕ) : List (List UInt8 × Item) :=
  if clus = 2 then [(nameB, .dir 3)] else [(nameAT, .file 5 9)]

/-- `/b/a.t`. -/
def pathBAT : Memory := fun i => ([47, 98, 47, 97, 46, 116] : List UInt8)[i]?.getD 0

theorem holds_treeDisk (clus : ℕ) (h : clus = 2 ∨ clus = 3) : Holds treeDisk treeVolume clus (treeContents clus) := by
  rcases h with rfl | rfl
  · exact ⟨[2], .last (by decide +kernel), by unfold InData; decide, by unfold Closed; decide +kernel,
      by decide +kernel⟩
  · exact ⟨[3], .last (by decide +kernel), by unfold InData; decide, by unfold Closed; decide +kernel,
      by decide +kernel⟩

theorem mounted_treeDisk : Mounted treeDisk treeVolume {2, 3} treeContents where
  holds := holds_treeDisk
  inside clus _ name clus' hmem := by
    rw [treeContents] at hmem
    split at hmem
    · obtain ⟨-, hitem⟩ := Prod.mk.inj (List.mem_singleton.mp hmem)
      exact Or.inr (Item.dir.inj hitem)
    · obtain ⟨-, hitem⟩ := Prod.mk.inj (List.mem_singleton.mp hmem)
      cases hitem

def componentB : Component :=
  ⟨[98], [], ⟨by decide, by decide, by decide, by decide +kernel⟩, by decide +kernel, by decide +kernel⟩

def componentAT : Component :=
  ⟨[97], [116], ⟨by decide, by decide, by decide, by decide +kernel⟩, by decide +kernel, by decide +kernel⟩

theorem getFileInfo_resolves_demo : ∃ N, ∀ fuel ≥ N, ∃ r,
    getFileInfo treeDisk treeVolume pathBAT ⟨[], 0, 0⟩ fuel 2 0 = some r ∧ r.code = 0 ∧
      r.fileinfo = ⟨[97, 46, 116], 5, 9⟩ := by
  have hpath : PathAt pathBAT 0 [componentB, componentAT] :=
    .cons rfl (by decide) (.cons rfl (by decide) (.nil rfl))
  obtain ⟨N, h⟩ := getFileInfo_resolves ⟨[], 0, 0⟩ rfl mounted_treeDisk (Or.inl rfl) hpath
  refine ⟨N, fun fuel hfuel => ?_⟩
  obtain ⟨r, hr, hcode, hinfo⟩ := h fuel hfuel
  exact ⟨r, hr, hcode, hinfo⟩

end OmochaOS.Fs
