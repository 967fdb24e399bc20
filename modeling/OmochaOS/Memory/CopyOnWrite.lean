import OmochaOS.Lib.HolderCount
import OmochaOS.Memory.PageFault

/-!
# Copy on write (`modules/memory/pagefault.c`)

`Counted` says that the page directories of the processes that are alive are apart, that each frame of data is
counted once for each process that maps it, and each page table once for each directory that leads to it.
The counts alone are not enough: a process that maps a frame twice keeps it after a page fault
(`counted_not_enough`).  `Accounts` is what holds between the calls of `Task_Memory`: no process does so, and
the directory entries are those of `map_pages`.  A page fault keeps it (`Turn.accounts`), and all processes
read what they read before (`copyOnWrite`).
-/

namespace OmochaOS.PageTables

open ByteMemory HolderCount Kernel Paging

/-- The directory leads to a page in the frame. -/
def MapsFrame (word : ℕ → ℕ) (pgDir f : ℕ) : Prop :=
  ∃ a < 2 ^ 32, ∃ e, entryOf word pgDir a = some e ∧ pageOf e = f

/-- The directory leads to the page table. -/
def HasTable (word : ℕ → ℕ) (pgDir t : ℕ) : Prop := ∃ i < 1024, tableOf word pgDir i = some t

/-- The processes `live` with the page directories `dir`: the directories, page tables and pages are apart, the
answers of `page_alloc` are new frames, and the counts are right. -/
structure Counted (m : Space) (live : Finset ℕ) (dir : ℕ → ℕ) (managed : ℕ → Prop) : Prop where
  directory : ∀ p ∈ live, Directory m.word (dir p)
  apart : ∀ p ∈ live, ∀ q ∈ live, dir p = dir q → p = q
  tables_apart : ∀ p ∈ live, ∀ q ∈ live, ¬ HasTable m.word (dir p) (dir q)
  pages_apart : ∀ p ∈ live, ∀ f, MapsFrame m.word (dir p) f → ∀ q ∈ live, Outside m.word (dir q) f
  nodup : m.answers.Nodup
  fresh : ∀ f ∈ m.answers, f % 0x1000 = 0 ∧ f ≠ 0 ∧ f < 2 ^ 32 ∧ managed f ∧
    ∀ p ∈ live, Outside m.word (dir p) f ∧ ¬ MapsFrame m.word (dir p) f
  frames : Counts live (fun p f => managed f ∧ MapsFrame m.word (dir p) f) m.pageReference
  tables : Counts live (fun p t => HasTable m.word (dir p) t) m.pageReference

/-- And no process maps a frame twice or has a closed page table. -/
structure Accounts (m : Space) (live : Finset ℕ) (dir : ℕ → ℕ) (managed : ℕ → Prop) : Prop
    extends Counted m live dir managed where
  /-- `map_pages` is given a frame of its own for each page -/
  once : ∀ p ∈ live, ∀ a < 2 ^ 32, ∀ b < 2 ^ 32, ∀ e e', entryOf m.word (dir p) a = some e →
    entryOf m.word (dir p) b = some e' → pageOf e = pageOf e' → pageOf a = pageOf b
  /-- the attributes that `map_pages` gives to the entries of the directory -/
  open_tables : ∀ p ∈ live, ∀ i < 1024, ∀ t, tableOf m.word (dir p) i = some t →
    user (m.word (dir p + 4 * i)) = true → writable (m.word (dir p + 4 * i)) = true

/-- What a page fault of the process `p` does: the page gets the frame `f` and the page table `t'`, which no
other process uses. -/
structure Turn (m m' : Space) (live : Finset ℕ) (dir : ℕ → ℕ) (managed : ℕ → Prop)
    (p va old t f t' e : ℕ) : Prop where
  mem : p ∈ live
  lt : va < 2 ^ 32
  table : tableOf m.word (dir p) (dirIndex va) = some t
  entry : entryOf m.word (dir p) va = some (m.word (t + 4 * tabIndex va))
  page : pageOf (m.word (t + 4 * tabIndex va)) = old
  managed_old : managed old
  granted : Granted m m' (dir p) va old t f t' e
  frame_lt : f < 2 ^ 32
  managed_new : managed f
  frame_alone : ∀ q ∈ live, MapsFrame m.word (dir q) f → q = p ∧ f = old
  frame_outside : ∀ q ∈ live, Outside m.word (dir q) f
  frame_count : m'.pageReference f = 1
  table_alone : ∀ q ∈ live, HasTable m.word (dir q) t' → q = p ∧ t' = t
  table_dir : ∀ q ∈ live, t' ≠ dir q
  table_page : ∀ q ∈ live, ¬ MapsFrame m.word (dir q) t'
  table_ne_null : t' ≠ 0
  table_ne_frame : t' ≠ f
  answers : m'.answers.Sublist m.answers
  taken : f ∉ m'.answers ∧ t' ∉ m'.answers

variable {m m' : Space} {live : Finset ℕ} {dir : ℕ → ℕ} {managed : ℕ → Prop}
  {p q va old t f t' e a h i j k : ℕ}

theorem outside_iff {word : ℕ → ℕ} : Outside word (dir p) f ↔ f ≠ dir p ∧ ¬ HasTable word (dir p) f := by
  constructor
  · intro hout
    refine ⟨hout.1, fun htab => ?_⟩
    obtain ⟨i, hi, ht⟩ := htab
    exact hout.2 i hi ht
  · intro hout
    exact ⟨hout.1, fun i hi ht => hout.2 ⟨i, hi, ht⟩⟩

theorem mapsFrame_frame {word : ℕ → ℕ} (hf : MapsFrame word (dir p) f) : f % 0x1000 = 0 := by
  obtain ⟨a, -, e, -, he⟩ := hf
  rw [← he]
  exact pageOf_mod

theorem mapsFrame_lt (hf : MapsFrame m.word (dir p) f) : f < 2 ^ 32 := by
  obtain ⟨a, -, e, he, rfl⟩ := hf
  obtain ⟨t, -, rfl, -⟩ := entryOf_eq_some he
  exact pageOf_word_lt

theorem mapsFrame_of_entry {word : ℕ → ℕ} (ha : a < 2 ^ 32) (he : entryOf word (dir p) a = some e) :
    MapsFrame word (dir p) (pageOf e) :=
  ⟨a, ha, e, he, rfl⟩

/-! ### The other processes -/

section Others

variable (acc : Accounts m live dir managed) (s : Turn m m' live dir managed p va old t f t' e)
  (hq : q ∈ live) (hne : q ≠ p)
include acc s hq hne

theorem Turn.others_pde (hi : i < 1024) : m'.word (dir q + 4 * i) = m.word (dir q + 4 * i) := by
  have hdir : dir q ≠ dir p := fun heq => hne (acc.apart q hq p s.mem heq)
  have hkept := s.granted.kept (dir q) (acc.directory q hq).frame (s.frame_outside q hq).1.symm
    (s.table_dir q hq).symm hdir
  exact hkept.readWord (by omega)

theorem Turn.others_table (hi : i < 1024) : tableOf m'.word (dir q) i = tableOf m.word (dir q) i :=
  tableOf_congr (s.others_pde acc hq hne hi)

theorem Turn.others_pte (hi : i < 1024) (hj : j < 1024) (hk : tableOf m.word (dir q) i = some k) :
    m'.word (k + 4 * j) = m.word (k + 4 * j) := by
  have hkt : k ≠ t' := by
    rintro rfl
    exact hne (s.table_alone q hq ⟨i, hi, hk⟩).1
  have hkd : k ≠ dir p := by
    rintro rfl
    exact acc.tables_apart q hq p s.mem ⟨i, hi, hk⟩
  have hkept := s.granted.kept k (tableOf_frame hk) ((s.frame_outside q hq).ne_table hi hk) hkt hkd
  exact hkept.readWord (by omega)

theorem Turn.others_entry : entryOf m'.word (dir q) a = entryOf m.word (dir q) a := by
  apply entryOf_congr
  · exact s.others_pde acc hq hne dirIndex_lt
  · intro k hk
    exact s.others_pte acc hq hne dirIndex_lt tabIndex_lt hk

theorem Turn.others_frame : MapsFrame m'.word (dir q) k ↔ MapsFrame m.word (dir q) k := by
  simp only [MapsFrame, s.others_entry acc hq hne]

theorem Turn.others_hasTable : HasTable m'.word (dir q) k ↔ HasTable m.word (dir q) k := by
  constructor
  · intro htab
    obtain ⟨i, hi, hk⟩ := htab
    rw [s.others_table acc hq hne hi] at hk
    exact ⟨i, hi, hk⟩
  · intro htab
    obtain ⟨i, hi, hk⟩ := htab
    rw [← s.others_table acc hq hne hi] at hk
    exact ⟨i, hi, hk⟩

end Others

/-! ### The process of the page fault -/

section Caller

variable (acc : Accounts m live dir managed) (s : Turn m m' live dir managed p va old t f t' e)
include s

theorem Turn.own : t' = t ∨ Outside m.word (dir p) t' := by
  by_cases htt : t' = t
  · exact Or.inl htt
  · right
    rw [outside_iff]
    exact ⟨s.table_dir p s.mem, fun htab => htt (s.table_alone p s.mem htab).2⟩

include acc in
theorem Turn.caller_entry (ha : a < 2 ^ 32) (hne : pageOf a ≠ pageOf va) :
    entryOf m'.word (dir p) a = entryOf m.word (dir p) a :=
  s.granted.entryOf_of_ne (acc.directory p s.mem) s.table (s.frame_outside p s.mem) s.own ha s.lt
    hne

theorem Turn.caller_entry_self (ha : a < 2 ^ 32) (heq : pageOf a = pageOf va) :
    entryOf m'.word (dir p) a = some e := by
  obtain ⟨hi, hj⟩ := (pageOf_eq_iff ha s.lt).mp heq
  exact s.granted.entryOf_self hi hj

theorem Turn.caller_hasTable_old : HasTable m.word (dir p) t := ⟨_, dirIndex_lt, s.table⟩

theorem Turn.mapsFrame_old : MapsFrame m.word (dir p) old :=
  ⟨va, s.lt, _, s.entry, s.page⟩

include acc

/-- The page tables of the process: the one of the page is the new one. -/
theorem Turn.caller_hasTable :
    HasTable m'.word (dir p) k ↔ k = t' ∨ k ≠ t ∧ HasTable m.word (dir p) k := by
  constructor
  · intro htab
    obtain ⟨i, hi, hk⟩ := htab
    by_cases heq : i = dirIndex va
    · rw [heq, s.granted.table] at hk
      exact Or.inl (Option.some.inj hk).symm
    · right
      rw [s.granted.tableOf_of_ne hi heq] at hk
      refine ⟨?_, i, hi, hk⟩
      rintro rfl
      exact heq ((acc.directory p s.mem).unique i hi _ dirIndex_lt k hk s.table)
  · intro hor
    rcases hor with rfl | ⟨hkt, i, hi, hk⟩
    · exact ⟨_, dirIndex_lt, s.granted.table⟩
    · have hne : i ≠ dirIndex va := by
        rintro rfl
        rw [s.table] at hk
        exact hkt (Option.some.inj hk).symm
      refine ⟨i, hi, ?_⟩
      rw [s.granted.tableOf_of_ne hi hne]
      exact hk

/-- The frames of the process: the one of the page is the new one, and no other page is in the old. -/
theorem Turn.caller_frame :
    MapsFrame m'.word (dir p) k ↔ k = f ∨ k ≠ old ∧ MapsFrame m.word (dir p) k := by
  constructor
  · intro hmaps
    obtain ⟨a, ha, e', he', rfl⟩ := hmaps
    by_cases heq : pageOf a = pageOf va
    · rw [s.caller_entry_self ha heq] at he'
      cases he'
      exact Or.inl s.granted.frame
    · right
      rw [s.caller_entry acc ha heq] at he'
      refine ⟨fun hold => heq ?_, mapsFrame_of_entry ha he'⟩
      exact acc.once p s.mem a ha va s.lt _ _ he' s.entry (hold.trans s.page.symm)
  · intro hor
    rcases hor with rfl | ⟨hkold, a, ha, e', he', rfl⟩
    · exact ⟨va, s.lt, e, s.caller_entry_self s.lt rfl, s.granted.frame⟩
    · have hne : pageOf a ≠ pageOf va := by
        intro heq
        rw [entryOf_page ha s.lt heq, s.entry] at he'
        rw [← Option.some.inj he'] at hkold
        exact hkold s.page
      rw [← s.caller_entry acc ha hne] at he'
      exact mapsFrame_of_entry ha he'

end Caller

/-! ### The counts -/

section Counts

variable (acc : Accounts m live dir managed) (s : Turn m m' live dir managed p va old t f t' e)
include acc s

theorem Turn.moves_frames : Moves live (fun p f => managed f ∧ MapsFrame m.word (dir p) f)
    (fun p f => managed f ∧ MapsFrame m'.word (dir p) f) p old f where
  mem := s.mem
  held := ⟨s.managed_old, s.mapsFrame_old⟩
  self k := by
    rw [s.caller_frame acc]
    constructor
    · rintro ⟨hk, rfl | hkept⟩
      · exact Or.inl rfl
      · exact Or.inr ⟨hkept.1, hk, hkept.2⟩
    · rintro (rfl | ⟨hne, hk, hmaps⟩)
      · exact ⟨s.managed_new, Or.inl rfl⟩
      · exact ⟨hk, Or.inr ⟨hne, hmaps⟩⟩
  others _ hq hne _ := by rw [s.others_frame acc hq hne]
  alone q hq hf := (s.frame_alone q hq hf.2).1
  unheld hne hf := hne (s.frame_alone p s.mem hf.2).2

theorem Turn.moves_tables : Moves live (fun p t => HasTable m.word (dir p) t)
    (fun p t => HasTable m'.word (dir p) t) p t t' where
  mem := s.mem
  held := s.caller_hasTable_old
  self _ := s.caller_hasTable acc
  others _ hq hne _ := s.others_hasTable acc hq hne
  alone q hq ht := (s.table_alone q hq ht).1
  unheld hne ht := hne (s.table_alone p s.mem ht).2

/-- A frame that is mapped afterwards was mapped before, or it is the new one. -/
theorem Turn.frame_before (hq : q ∈ live) (hk : MapsFrame m'.word (dir q) k) :
    k = f ∨ MapsFrame m.word (dir q) k := by
  by_cases hne : q = p
  · subst hne
    rcases (s.caller_frame acc).mp hk with hkf | hkept
    · exact Or.inl hkf
    · exact Or.inr hkept.2
  · exact Or.inr ((s.others_frame acc hq hne).mp hk)

theorem Turn.table_before (hq : q ∈ live) (hk : HasTable m'.word (dir q) k) :
    k = t' ∨ HasTable m.word (dir q) k := by
  by_cases hne : q = p
  · subst hne
    rcases (s.caller_hasTable acc).mp hk with hkt | hkept
    · exact Or.inl hkt
    · exact Or.inr hkept.2
  · exact Or.inr ((s.others_hasTable acc hq hne).mp hk)

theorem Turn.counts_frames :
    Counts live (fun p f => managed f ∧ MapsFrame m'.word (dir p) f) m'.pageReference := by
  apply acc.frames.move (s.moves_frames acc) s.frame_count
  intro k hk hkf
  obtain ⟨q, hq⟩ := hk
  obtain ⟨hlive, -, hmaps⟩ := mem_holders.mp hq
  have hbefore := (s.frame_before acc hlive hmaps).resolve_left hkf
  have hkt' : k ≠ t' := by
    rintro rfl
    exact s.table_page q hlive hbefore
  have hkt : ¬ (t' ≠ t ∧ k = t) := by
    rintro ⟨-, rfl⟩
    exact (outside_iff.mp (acc.pages_apart q hlive k hbefore p s.mem)).2 s.caller_hasTable_old
  rw [s.granted.reference k (mapsFrame_frame hbefore) (mapsFrame_lt hbefore) hkf fun _ => hkt',
    if_neg hkt, Int.sub_zero]

theorem Turn.counts_tables : Counts live (fun p t => HasTable m'.word (dir p) t) m'.pageReference := by
  -- a page table is not the frame of a page, before or after
  have hframe : ∀ k, (∃ q ∈ live, HasTable m.word (dir q) k) → k % 0x1000 = 0 ∧ k < 2 ^ 32 ∧ k ≠ f ∧
      k ≠ old := by
    rintro k ⟨q, hq, htab⟩
    have hout := outside_iff.mp (s.frame_outside q hq)
    have hold := outside_iff.mp (acc.pages_apart p s.mem old s.mapsFrame_old q hq)
    obtain ⟨i, hi, hk⟩ := htab
    refine ⟨tableOf_frame hk, tableOf_lt hk, ?_, ?_⟩
    · rintro rfl
      exact hout.2 ⟨i, hi, hk⟩
    · rintro rfl
      exact hold.2 ⟨i, hi, hk⟩
  have hone : m'.pageReference t' = 1 := by
    by_cases htt : t' = t
    · obtain ⟨hmod, hlt, hf, hold⟩ := hframe t ⟨p, s.mem, s.caller_hasTable_old⟩
      have hcard := acc.tables t ⟨p, mem_holders.mpr ⟨s.mem, s.caller_hasTable_old⟩⟩
      have hholders : holders live (fun p t => HasTable m.word (dir p) t) t = {p} := by
        ext q
        rw [mem_holders, Finset.mem_singleton]
        constructor
        · intro hq
          exact (s.table_alone q hq.1 (htt.symm ▸ hq.2)).1
        · rintro rfl
          exact ⟨s.mem, s.caller_hasTable_old⟩
      have hsame : ¬ (t' ≠ t ∧ t = t) := fun hand => hand.1 htt
      rw [htt, s.granted.reference t hmod hlt hf fun hne => absurd htt hne, if_neg hold, if_neg hsame,
        hcard, hholders]
      rfl
    · exact s.granted.own htt s.table_ne_null
  apply acc.tables.move (s.moves_tables acc) hone
  intro k hk hkt'
  obtain ⟨q, hq⟩ := hk
  obtain ⟨hlive, htab⟩ := mem_holders.mp hq
  have hbefore := (s.table_before acc hlive htab).resolve_left hkt'
  obtain ⟨hmod, hlt, hf, hold⟩ := hframe k ⟨q, hlive, hbefore⟩
  rw [s.granted.reference k hmod hlt hf fun _ => hkt', if_neg hold, Int.sub_zero]
  by_cases hkt : k = t
  · have hne : t' ≠ t := fun heq => hkt' (hkt.trans heq.symm)
    rw [if_pos ⟨hne, hkt⟩, if_pos hkt]
  · have hnot : ¬ (t' ≠ t ∧ k = t) := fun hand => hkt hand.2
    rw [if_neg hnot, if_neg hkt]

end Counts

/-! ### The accounts -/

section Accounts

variable (acc : Accounts m live dir managed) (s : Turn m m' live dir managed p va old t f t' e)
include acc s

/-- No frame of a page is a page table, afterwards as before. -/
theorem Turn.outside_after (hq : q ∈ live) (hk : ∀ r ∈ live, Outside m.word (dir r) k) (hkt : k ≠ t') :
    Outside m'.word (dir q) k := by
  rw [outside_iff]
  refine ⟨(hk q hq).1, fun htab => ?_⟩
  rcases s.table_before acc hq htab with hnew | hbefore
  · exact hkt hnew
  · exact (outside_iff.mp (hk q hq)).2 hbefore

theorem Turn.directory_after : Directory m'.word (dir p) where
  frame := (acc.directory p s.mem).frame
  ne_null i hi hnull := by
    rcases s.table_before acc s.mem ⟨i, hi, hnull⟩ with hnew | ⟨j, hj, hbefore⟩
    · exact s.table_ne_null hnew.symm
    · exact (acc.directory p s.mem).ne_null j hj hbefore
  ne_self i hi hself := by
    rcases s.table_before acc s.mem ⟨i, hi, hself⟩ with hnew | hbefore
    · exact s.table_dir p s.mem hnew.symm
    · exact acc.tables_apart p s.mem p s.mem hbefore
  unique i hi j hj k hik hjk := by
    have hnew : ∀ i < 1024, i ≠ dirIndex va → tableOf m'.word (dir p) i = some k → k ≠ t' := by
      intro i hi hne hk
      rw [s.granted.tableOf_of_ne hi hne] at hk
      exact s.granted.ne_own (acc.directory p s.mem) s.table s.own hi hne hk
    by_cases hiv : i = dirIndex va
    · by_cases hjv : j = dirIndex va
      · exact hiv.trans hjv.symm
      · rw [hiv, s.granted.table] at hik
        exact absurd (Option.some.inj hik).symm (hnew j hj hjv hjk)
    · by_cases hjv : j = dirIndex va
      · rw [hjv, s.granted.table] at hjk
        exact absurd (Option.some.inj hjk).symm (hnew i hi hiv hik)
      · rw [s.granted.tableOf_of_ne hi hiv] at hik
        rw [s.granted.tableOf_of_ne hj hjv] at hjk
        exact (acc.directory p s.mem).unique i hi j hj k hik hjk

theorem Turn.once_after {b e₁ e₂ : ℕ} (ha : a < 2 ^ 32) (hb : b < 2 ^ 32)
    (he₁ : entryOf m'.word (dir p) a = some e₁) (he₂ : entryOf m'.word (dir p) b = some e₂)
    (heq : pageOf e₁ = pageOf e₂) : pageOf a = pageOf b := by
  -- the frame of another page is not the new one
  have hother : ∀ a < 2 ^ 32, ∀ e₁, pageOf a ≠ pageOf va → entryOf m'.word (dir p) a = some e₁ →
      pageOf e₁ ≠ f := by
    intro a ha e₁ hne he hf
    rw [s.caller_entry acc ha hne] at he
    have hmaps : MapsFrame m.word (dir p) f := ⟨a, ha, e₁, he, hf⟩
    have hold := (s.frame_alone p s.mem hmaps).2
    exact hne (acc.once p s.mem a ha va s.lt _ _ he s.entry (hf.trans (hold.trans s.page.symm)))
  by_cases hav : pageOf a = pageOf va
  · by_cases hbv : pageOf b = pageOf va
    · exact hav.trans hbv.symm
    · rw [s.caller_entry_self ha hav] at he₁
      cases he₁
      exact absurd (heq.symm.trans s.granted.frame) (hother b hb e₂ hbv he₂)
  · by_cases hbv : pageOf b = pageOf va
    · rw [s.caller_entry_self hb hbv] at he₂
      cases he₂
      exact absurd (heq.trans s.granted.frame) (hother a ha e₁ hav he₁)
    · rw [s.caller_entry acc ha hav] at he₁
      rw [s.caller_entry acc hb hbv] at he₂
      exact acc.once p s.mem a ha b hb e₁ e₂ he₁ he₂ heq

theorem Turn.open_after {i k : ℕ} (hi : i < 1024) (hk : tableOf m'.word (dir p) i = some k)
    (huser : user (m'.word (dir p + 4 * i)) = true) : writable (m'.word (dir p + 4 * i)) = true := by
  by_cases hiv : i = dirIndex va
  · subst hiv
    rcases s.granted.pde with ⟨-, hsame⟩ | hnew
    · rw [hsame] at huser ⊢
      exact acc.open_tables p s.mem _ dirIndex_lt t s.table huser
    · have hmod := tableOf_frame s.granted.table
      have hlt := tableOf_lt s.granted.table
      rw [hnew]
      exact (pgAll_entry hmod hlt).2.2.2.2.1
  · rw [s.granted.tableOf_of_ne hi hiv] at hk
    rw [s.granted.pdes i hi hiv] at huser ⊢
    exact acc.open_tables p s.mem i hi k hk huser

/-- **A page fault keeps the accounts.** -/
theorem Turn.accounts : Accounts m' live dir managed where
  directory q hq := by
    by_cases hne : q = p
    · rw [hne]
      exact s.directory_after acc
    · exact (acc.directory q hq).congr fun i hi => s.others_pde acc hq hne hi
  apart := acc.apart
  tables_apart q hq r hr htab := by
    rcases s.table_before acc hq htab with hnew | hbefore
    · exact s.table_dir r hr hnew.symm
    · exact acc.tables_apart q hq r hr hbefore
  pages_apart q hq k hk r hr := by
    rcases s.frame_before acc hq hk with rfl | hbefore
    · exact s.outside_after acc hr s.frame_outside s.table_ne_frame.symm
    · apply s.outside_after acc hr (acc.pages_apart q hq k hbefore)
      rintro rfl
      exact s.table_page q hq hbefore
  once q hq a ha b hb e₁ e₂ he₁ he₂ heq := by
    by_cases hne : q = p
    · rw [hne] at he₁ he₂
      exact s.once_after acc ha hb he₁ he₂ heq
    · rw [s.others_entry acc hq hne] at he₁ he₂
      exact acc.once q hq a ha b hb e₁ e₂ he₁ he₂ heq
  open_tables q hq i hi k hk huser := by
    by_cases hne : q = p
    · rw [hne] at hk huser ⊢
      exact s.open_after acc hi hk huser
    · rw [s.others_table acc hq hne hi] at hk
      rw [s.others_pde acc hq hne hi] at huser ⊢
      exact acc.open_tables q hq i hi k hk huser
  nodup := acc.nodup.sublist s.answers
  fresh k hk := by
    obtain ⟨hmod, h0, hlt, hman, hunused⟩ := acc.fresh k (s.answers.subset hk)
    have hkf : k ≠ f := fun heq => s.taken.1 (heq ▸ hk)
    have hkt : k ≠ t' := fun heq => s.taken.2 (heq ▸ hk)
    refine ⟨hmod, h0, hlt, hman, fun q hq => ⟨?_, fun hmaps => ?_⟩⟩
    · exact s.outside_after acc hq (fun r hr => (hunused r hr).1) hkt
    · rcases s.frame_before acc hq hmaps with heq | hbefore
      · exact hkf heq
      · exact (hunused q hq).2 hbefore
  frames := s.counts_frames acc
  tables := s.counts_tables acc

end Accounts

/-! ### The four cases -/

/-- Whoever has the page table has the frames of its entries. -/
theorem mapsFrame_of_table {word : ℕ → ℕ} (hj : j < 1024) (hk : k < 1024)
    (ht : tableOf word (dir q) j = some t) (hp : present (word (t + 4 * k)) = true) :
    MapsFrame word (dir q) (pageOf (word (t + 4 * k))) := by
  have hi : dirIndex (j * 2 ^ 22 + k * 2 ^ 12) = j := by
    rw [dirIndex]
    omega
  have hk' : tabIndex (j * 2 ^ 22 + k * 2 ^ 12) = k := by
    rw [tabIndex]
    omega
  rw [← hi] at ht
  refine mapsFrame_of_entry (a := j * 2 ^ 22 + k * 2 ^ 12) (by omega) ?_
  rw [entryOf_eq ht, hk', if_pos hp]

section Cases

variable {status : BitVec 32} (acc : Accounts m live dir managed) (hp : p ∈ live) (hva : va < 2 ^ 32)
  (ht : tableOf m.word (dir p) (dirIndex va) = some t)
  (hpresent : present (m.word (t + 4 * tabIndex va)) = true)
  (hold : pageOf (m.word (t + 4 * tabIndex va)) = old) (hman : managed old)
include acc hp hva ht hpresent hold

omit acc hp in
theorem mapsFrame_of_present : MapsFrame m.word (dir p) old := by
  rw [← hold]
  exact mapsFrame_of_entry hva (entryOf_of_present ht hpresent)

/-- The page table of the process is not in use for anything else. -/
theorem Accounts.table_apart : (∀ q ∈ live, t ≠ dir q) ∧ (∀ q ∈ live, ¬ MapsFrame m.word (dir q) t) ∧
    t ≠ 0 ∧ t ≠ old ∧ t ∉ m.answers := by
  have htab : HasTable m.word (dir p) t := ⟨_, dirIndex_lt, ht⟩
  refine ⟨?_, ?_, ?_, ?_, ?_⟩
  · rintro q hq rfl
    exact acc.tables_apart p hp q hq htab
  · intro q hq hmaps
    exact (outside_iff.mp (acc.pages_apart q hq t hmaps p hp)).2 htab
  · rintro rfl
    exact (acc.directory p hp).ne_null _ dirIndex_lt ht
  · rintro rfl
    have hmaps := mapsFrame_of_present hva ht hpresent hold
    exact (outside_iff.mp (acc.pages_apart p hp t hmaps p hp)).2 htab
  · intro hmem
    exact (outside_iff.mp ((acc.fresh t hmem).2.2.2.2 p hp).1).2 htab

include hman

/-- The frame is the process's alone, and so is the page table: whoever shares it maps the frame. -/
theorem Turn.of_alone (href : m.pageReference old = 1) :
    Turn m (doPageFault m (dir p) va status).1 live dir managed p va old t old t
      (setWritable (m.word (t + 4 * tabIndex va))) := by
  have hmaps := mapsFrame_of_present hva ht hpresent hold
  have hout := acc.pages_apart p hp old hmaps
  obtain ⟨hdir, hpage, hnull, hne, hfree⟩ := acc.table_apart hp hva ht hpresent hold
  have halone : ∀ q ∈ live, MapsFrame m.word (dir q) old → q = p := fun q hq hq' =>
    acc.frames.eq_of_one hp ⟨hman, hmaps⟩ (by omega) hq ⟨hman, hq'⟩
  have hcall := doPageFault_alone ht status (hold ▸ href)
  have hgranted := granted_alone (acc.directory p hp) ht hpresent (hold ▸ hout p hp) (hold ▸ href)
  rw [hold] at hgranted
  rw [hcall]
  exact {
    mem := hp
    lt := hva
    table := ht
    entry := entryOf_of_present ht hpresent
    page := hold
    managed_old := hman
    granted := hgranted
    frame_lt := mapsFrame_lt hmaps
    managed_new := hman
    frame_alone := fun q hq hq' => ⟨halone q hq hq', rfl⟩
    frame_outside := hout
    frame_count := href
    table_alone := fun q hq hq' => by
      obtain ⟨j, hj, hjt⟩ := hq'
      have hmaps' := mapsFrame_of_table hj tabIndex_lt hjt hpresent
      rw [hold] at hmaps'
      exact ⟨halone q hq hmaps', rfl⟩
    table_dir := hdir
    table_page := hpage
    table_ne_null := hnull
    table_ne_frame := hne
    answers := List.Sublist.refl _
    taken := ⟨fun hmem => ((acc.fresh old hmem).2.2.2.2 p hp).2 hmaps, hfree⟩ }

/-- The frames that are asked for. -/
theorem Accounts.answer (hf : f ∈ m.answers) : Usable m (dir p) f ∧ f ≠ 0 ∧ managed f ∧ f ≠ old ∧ f ≠ t ∧
    (∀ q ∈ live, Outside m.word (dir q) f) ∧ ∀ q ∈ live, ¬ MapsFrame m.word (dir q) f := by
  obtain ⟨hmod, hnull, hlt, hmanaged, hunused⟩ := acc.fresh f hf
  refine ⟨⟨hmod, hlt, (hunused p hp).1⟩, hnull, hmanaged, ?_, ?_, fun q hq => (hunused q hq).1,
    fun q hq => (hunused q hq).2⟩
  · rintro rfl
    exact (hunused p hp).2 (mapsFrame_of_present hva ht hpresent hold)
  · rintro rfl
    exact (outside_iff.mp (hunused p hp).1).2 ⟨_, dirIndex_lt, ht⟩

/-- The frame is shared and the page table is the process's alone. -/
theorem Turn.of_private {rest : List PAddr} (hanswers : m.answers = f :: rest)
    (href : 1 < m.pageReference old) (htab : ¬ 1 < m.pageReference t) :
    Turn m (doPageFault m (dir p) va status).1 live dir managed p va old t f t (f ||| pgAll) := by
  have hmaps := mapsFrame_of_present hva ht hpresent hold
  have hout := acc.pages_apart p hp old hmaps
  obtain ⟨hdir, hpage, hnull, -, hfree⟩ := acc.table_apart hp hva ht hpresent hold
  have hhead : m.answers.headD 0 = f := by rw [hanswers]; rfl
  obtain ⟨husable, hf0, hmanaged, hne, hft, houts, hfresh⟩ := acc.answer hp hva ht hpresent hold hman
    (f := f) (by rw [hanswers]; exact List.mem_cons_self)
  obtain ⟨m₁, hcopied, hcall⟩ := doPageFault_private (acc.directory p hp) ht hold (hout p hp) href
    (by rw [hhead]; exact husable) (by rw [hhead]; exact hne) status htab
  rw [hhead] at hcopied hcall
  have hgranted := granted_private (acc.directory p hp) ht husable hcopied
  have hrest : m₁.answers = rest := by
    rw [hcopied.answers, hanswers]
    rfl
  have hnodup := acc.nodup
  rw [hanswers] at hnodup hfree
  rw [hcall]
  exact {
    mem := hp
    lt := hva
    table := ht
    entry := entryOf_of_present ht hpresent
    page := hold
    managed_old := hman
    granted := hgranted
    frame_lt := husable.lt
    managed_new := hmanaged
    frame_alone := fun q hq hq' => absurd hq' (hfresh q hq)
    frame_outside := houts
    frame_count := hgranted.alone hf0
    table_alone := fun q hq hq' =>
      ⟨acc.tables.eq_of_one hp ⟨_, dirIndex_lt, ht⟩ htab hq hq', rfl⟩
    table_dir := hdir
    table_page := hpage
    table_ne_null := hnull
    table_ne_frame := hft.symm
    answers := by
      show m₁.answers.Sublist m.answers
      rw [hrest, hanswers]
      exact List.sublist_cons_self f rest
    taken := by
      show f ∉ m₁.answers ∧ t ∉ m₁.answers
      rw [hrest]
      exact ⟨(List.nodup_cons.mp hnodup).1, fun hmem => hfree (List.mem_cons_of_mem f hmem)⟩ }

/-- The frame and the page table are shared. -/
theorem Turn.of_shared {rest : List PAddr} (hanswers : m.answers = f :: g :: rest)
    (href : 1 < m.pageReference old) (htab : 1 < m.pageReference t) :
    Turn m (doPageFault m (dir p) va status).1 live dir managed p va old t f g (f ||| pgAll) := by
  have hmaps := mapsFrame_of_present hva ht hpresent hold
  have hout := acc.pages_apart p hp old hmaps
  have hhead : m.answers.headD 0 = f := by rw [hanswers]; rfl
  have hsecond : m.answers.tail.headD 0 = g := by rw [hanswers]; rfl
  obtain ⟨husable, hf0, hmanaged, hne, -, houts, hfresh⟩ := acc.answer hp hva ht hpresent hold hman
    (f := f) (by rw [hanswers]; exact List.mem_cons_self)
  obtain ⟨husable', hg0, -, -, hgt, houts', hfresh'⟩ := acc.answer hp hva ht hpresent hold hman
    (f := g) (by rw [hanswers]; exact List.mem_cons_of_mem f List.mem_cons_self)
  obtain ⟨m₁, m₂, hcopied, hcopied₂, hcall⟩ := doPageFault_shared (acc.directory p hp) ht hold (hout p hp)
    href (by rw [hhead]; exact husable) (by rw [hhead]; exact hne) status htab
    (by rw [hsecond]; exact husable')
  rw [hhead, hsecond] at hcall
  rw [hhead] at hcopied
  rw [hsecond] at hcopied₂
  have hnodup := acc.nodup
  rw [hanswers] at hnodup
  obtain ⟨hf, hnodup'⟩ := List.nodup_cons.mp hnodup
  have hgf : g ≠ f := fun heq => hf (heq ▸ List.mem_cons_self)
  have hgranted := granted_shared (acc.directory p hp) ht husable hcopied husable' hgf hcopied₂
  have hrest : m₂.answers = rest := by
    rw [hcopied₂.answers, hcopied.answers, hanswers]
    rfl
  rw [hcall]
  exact {
    mem := hp
    lt := hva
    table := ht
    entry := entryOf_of_present ht hpresent
    page := hold
    managed_old := hman
    granted := hgranted
    frame_lt := husable.lt
    managed_new := hmanaged
    frame_alone := fun q hq hq' => absurd hq' (hfresh q hq)
    frame_outside := houts
    frame_count := hgranted.alone hf0
    table_alone := fun q hq hq' => absurd hq' (outside_iff.mp (houts' q hq)).2
    table_dir := fun q hq => (houts' q hq).1
    table_page := hfresh'
    table_ne_null := hg0
    table_ne_frame := hgf
    answers := by
      show m₂.answers.Sublist m.answers
      rw [hrest, hanswers]
      exact (List.sublist_cons_self g rest).trans (List.sublist_cons_self f _)
    taken := by
      show f ∉ m₂.answers ∧ g ∉ m₂.answers
      rw [hrest]
      exact ⟨fun hmem => hf (List.mem_cons_of_mem g hmem), (List.nodup_cons.mp hnodup').1⟩ }

end Cases

/-- **What a page fault comes to**, for a page in a frame that is managed. -/
theorem Accounts.turn (status : BitVec 32) (acc : Accounts m live dir managed) (hp : p ∈ live)
    (hva : va < 2 ^ 32) (he : entryOf m.word (dir p) va = some e) (hman : managed (pageOf e))
    (hroom : 2 ≤ m.answers.length) : ∃ t f t' e', Turn m (doPageFault m (dir p) va status).1 live dir
      managed p va (pageOf e) t f t' e' := by
  obtain ⟨t, ht, rfl, hpresent⟩ := entryOf_eq_some he
  set old := pageOf (m.word (t + 4 * tabIndex va)) with hold
  have hmaps : MapsFrame m.word (dir p) old := mapsFrame_of_present hva ht hpresent hold.symm
  have hmem : p ∈ holders live (fun p f => managed f ∧ MapsFrame m.word (dir p) f) old :=
    mem_holders.mpr ⟨hp, hman, hmaps⟩
  have hcount := acc.frames old ⟨p, hmem⟩
  have hcard := Finset.card_pos.mpr ⟨p, hmem⟩
  by_cases hone : m.pageReference old = 1
  · exact ⟨t, old, t, _, Turn.of_alone acc hp hva ht hpresent hold.symm hman hone⟩
  · have href : 1 < m.pageReference old := by omega
    obtain ⟨f, g, rest, hanswers⟩ : ∃ f g rest, m.answers = f :: g :: rest := by
      match m.answers, hroom with
      | f :: g :: rest, _ => exact ⟨f, g, rest, rfl⟩
    by_cases htab : 1 < m.pageReference t
    · exact ⟨t, f, g, _, Turn.of_shared acc hp hva ht hpresent hold.symm hman hanswers href htab⟩
    · exact ⟨t, f, t, _, Turn.of_private acc hp hva ht hpresent hold.symm hman hanswers href htab⟩

/-! ### What the processes read -/

/-- The byte that a process reads at an address. -/
def readByte (m : Space) (pgDir a : ℕ) : Option UInt8 := (translate m.word pgDir a).map m.bytes

theorem readByte_of_entry (h : entryOf m.word (dir q) a = some e) :
    readByte m (dir q) a = some (m.bytes (pageOf e + a % 2 ^ 12)) := by
  obtain ⟨t, ht, rfl, hp⟩ := entryOf_eq_some h
  have hp' : ¬ present (m.word (t + 4 * tabIndex a)) = false := by
    rw [Bool.not_eq_false]
    exact hp
  rw [readByte, PageTables.translate_eq ht, if_neg hp', Option.map_some]

/-- A write in ring 3 goes by the entries of both levels. -/
theorem userWritable_congr {word word' : ℕ → ℕ} {pgDir : ℕ}
    (hpde : word' (pgDir + 4 * dirIndex a) = word (pgDir + 4 * dirIndex a))
    (hpte : ∀ t, tableOf word pgDir (dirIndex a) = some t →
      word' (t + 4 * tabIndex a) = word (t + 4 * tabIndex a)) :
    userWritable word' pgDir a = userWritable word pgDir a := by
  have hpde' : pdeOf word' pgDir a = pdeOf word pgDir a := hpde
  rw [userWritable, userWritable, hpde']
  by_cases hallows : allows (pdeOf word pgDir a) = false
  · simp only [if_pos hallows]
  · by_cases hlarge : large (pdeOf word pgDir a) = true
    · simp only [if_neg hallows, if_pos hlarge]
    · have hpresent : present (pdeOf word pgDir a) = true := by
        simp only [allows, Bool.not_eq_false, Bool.and_eq_true] at hallows
        exact hallows.1.1
      rw [Bool.not_eq_true] at hlarge
      have ht : tableOf word pgDir (dirIndex a) = some (pageOf (pdeOf word pgDir a)) := by
        rw [tableOf]
        exact if_pos ⟨hpresent, hlarge⟩
      have hpte' : pteOf word' (pdeOf word pgDir a) a = pteOf word (pdeOf word pgDir a) a := hpte _ ht
      rw [hpte']

/-- What a page fault of the process `p` at `va` is to do: all processes read what they read before, the page
is writable and in a frame of the process's own, no page of another process has become writable, and the
counts are right. -/
structure CopiesOnWrite (m m' : Space) (live : Finset ℕ) (dir : ℕ → ℕ) (managed : ℕ → Prop)
    (p va : ℕ) : Prop where
  reads : ∀ q ∈ live, ∀ a < 2 ^ 32, (entryOf m.word (dir q) a).isSome →
    readByte m' (dir q) a = readByte m (dir q) a
  writable : (userWritable m'.word (dir p) va).isSome
  alone : ∃ e, entryOf m'.word (dir p) va = some e ∧
    ∀ q ∈ live, MapsFrame m'.word (dir q) (pageOf e) → q = p
  others : ∀ q ∈ live, q ≠ p → ∀ a, userWritable m'.word (dir q) a = userWritable m.word (dir q) a
  accounts : Accounts m' live dir managed

section Reads

variable (acc : Accounts m live dir managed) (s : Turn m m' live dir managed p va old t f t' e)
include acc s

/-- The bytes of a page that is not the new one. -/
theorem Turn.bytes_kept {x : ℕ} (hq : q ∈ live) (hk : MapsFrame m.word (dir q) k) (hkf : k ≠ f)
    (hx : x < 0x1000) : m'.bytes (k + x) = m.bytes (k + x) := by
  have hkt : k ≠ t' := by
    rintro rfl
    exact s.table_page q hq hk
  have hkd : k ≠ dir p := (acc.pages_apart q hq k hk p s.mem).1
  exact s.granted.kept k (mapsFrame_frame hk) hkf hkt hkd _ (by omega) (by omega)

theorem Turn.reads (hq : q ∈ live) (ha : a < 2 ^ 32) {e₁ : ℕ} (he : entryOf m.word (dir q) a = some e₁) :
    readByte m' (dir q) a = readByte m (dir q) a := by
  have hmaps := mapsFrame_of_entry ha he
  have hoffset : a % 2 ^ 12 < 0x1000 := Nat.mod_lt _ (by decide)
  rw [readByte_of_entry he]
  by_cases hne : q = p
  · subst hne
    by_cases hpage : pageOf a = pageOf va
    · -- the page itself: its bytes have been copied, or are where they were
      have hold : pageOf e₁ = old := by
        rw [entryOf_page ha s.lt hpage, s.entry] at he
        rw [← Option.some.inj he]
        exact s.page
      rw [readByte_of_entry (s.caller_entry_self ha hpage), s.granted.frame, s.granted.page _ hoffset, hold]
    · have hkf : pageOf e₁ ≠ f := by
        intro heq
        have hold := (s.frame_alone q hq (heq ▸ hmaps)).2
        exact hpage (acc.once q hq a ha va s.lt _ _ he s.entry (heq.trans (hold.trans s.page.symm)))
      have he' := (s.caller_entry acc ha hpage).trans he
      rw [readByte_of_entry he', s.bytes_kept acc hq hmaps hkf hoffset]
  · have hkf : pageOf e₁ ≠ f := fun heq => hne (s.frame_alone q hq (heq ▸ hmaps)).1
    have he' := (s.others_entry acc hq hne).trans he
    rw [readByte_of_entry he', s.bytes_kept acc hq hmaps hkf hoffset]

theorem Turn.writable_after (huser : user (pdeOf m.word (dir p) va) = true)
    (huser' : user (m.word (t + 4 * tabIndex va)) = true) :
    (userWritable m'.word (dir p) va).isSome := by
  obtain ⟨hp, hl, -⟩ := tableOf_eq_some s.granted.table
  -- the entry of the directory is the one there was, or it is that of the new page table
  have hopen : user (m'.word (dir p + 4 * dirIndex va)) = true ∧
      Paging.writable (m'.word (dir p + 4 * dirIndex va)) = true := by
    rcases s.granted.pde with ⟨-, hsame⟩ | hnew
    · rw [hsame]
      exact ⟨huser, acc.open_tables p s.mem _ dirIndex_lt t s.table huser⟩
    · rw [hnew]
      have hentry := pgAll_entry (tableOf_frame s.granted.table) (tableOf_lt s.granted.table)
      exact ⟨hentry.2.2.2.2.2, hentry.2.2.2.2.1⟩
  have hpde : ¬ allows (pdeOf m'.word (dir p) va) = false := by
    rw [pdeOf_eq, allows, hp, hopen.1, hopen.2]
    decide
  have hpte : ¬ allows (pteOf m'.word (pdeOf m'.word (dir p) va) va) = false := by
    rw [pteOf_eq s.granted.table, s.granted.entry, allows, s.granted.present, s.granted.user huser',
      s.granted.writable]
    decide
  have hsmall : ¬ large (pdeOf m'.word (dir p) va) = true := by
    rw [pdeOf_eq, hl]
    decide
  simp only [userWritable, if_neg hpde, if_neg hsmall, if_neg hpte, Option.isSome_some]

end Reads

/-- **Copy on write.**  A page fault of a process at a page that it maps. -/
theorem copyOnWrite {status : BitVec 32} (acc : Accounts m live dir managed) (hp : p ∈ live)
    (hva : va < 2 ^ 32) (he : entryOf m.word (dir p) va = some e) (hman : managed (pageOf e))
    (huser : user (pdeOf m.word (dir p) va) = true ∧ user e = true) (hroom : 2 ≤ m.answers.length) :
    CopiesOnWrite m (doPageFault m (dir p) va status).1 live dir managed p va := by
  obtain ⟨t, f, t', e', s⟩ := acc.turn status hp hva he hman hroom
  have hentry : e = m.word (t + 4 * tabIndex va) := Option.some.inj (he.symm.trans s.entry)
  constructor
  case reads =>
    intro q hq a ha hsome
    obtain ⟨e₁, he₁⟩ := Option.isSome_iff_exists.mp hsome
    exact s.reads acc hq ha he₁
  case writable => exact s.writable_after acc huser.1 (hentry ▸ huser.2)
  case alone =>
    refine ⟨e', s.caller_entry_self s.lt rfl, fun q hq hmaps => ?_⟩
    by_contra hne
    rw [s.granted.frame, s.others_frame acc hq hne] at hmaps
    exact hne (s.frame_alone q hq hmaps).1
  case others =>
    intro q hq hne a
    apply userWritable_congr
    · exact s.others_pde acc hq hne dirIndex_lt
    · intro k hk
      exact s.others_pte acc hq hne dirIndex_lt tabIndex_lt hk
  case accounts => exact s.accounts acc

/-- Two page directories that lead to the same page table with the entry `pde`, for a page in its frame, and
`pte`. -/
def pairSpace (pde pte : ℕ) (count : ℤ) : Space :=
  ((({ demoSpace with reference := fun _ => count, answers := [0x1406000, 0x1407000] }.store
    (0x1401000 + 4 * 0) pde).store (0x1405000 + 4 * 0) pde).store (0x1402000 + 4 * 1) 0x1403005).store
      (0x1402000 + 4 * 2) pte

def pairDir (p : ℕ) : ℕ := if p = 1 then 0x1401000 else 0x1405000

section Pair

variable {pde pte : ℕ} {count : ℤ} (hpde : pde = 0x1402005 ∨ pde = 0x1402007)
  (hpte : pte = 0 ∨ pte = 0x1403005)
include hpde hpte

theorem pairSpace_word (ha : a = 0x1401000 ∨ a = 0x1405000 ∨ a = 0x1402000) (hj : j < 1024) :
    (pairSpace pde pte count).word (a + 4 * j) =
      if a = 0x1402000 then (if j = 1 then 0x1403005 else if j = 2 then pte else 0)
      else if j = 0 then pde else 0 := by
  have hzero : ({ demoSpace with reference := fun _ => count, answers := [0x1406000, 0x1407000] } : Space).word
      (a + 4 * j) = 0 := demoSpace_word _
  have hframe : a % 0x1000 = 0 := by omega
  rw [pairSpace, word_store (by decide) hframe (by decide) hj (by omega),
    word_store (by decide) hframe (by decide) hj (by decide),
    word_store (by decide) hframe (by decide) hj (by omega),
    word_store (by decide) hframe (by decide) hj (by omega), hzero]
  rcases ha with rfl | rfl | rfl
  · simp
  · simp
  · by_cases hone : j = 1
    · simp [hone]
    · simp [hone]

theorem pairSpace_pde (p : ℕ) (hi : i < 1024) :
    (pairSpace pde pte count).word (pairDir p + 4 * i) = if i = 0 then pde else 0 := by
  have hdir : pairDir p = 0x1401000 ∨ pairDir p = 0x1405000 := by
    rw [pairDir]
    split
    · exact Or.inl rfl
    · exact Or.inr rfl
  rw [pairSpace_word hpde hpte (by omega) hi, if_neg (by omega)]

theorem pairSpace_tables (p : ℕ) (hi : i < 1024) :
    tableOf (pairSpace pde pte count).word (pairDir p) i = if i = 0 then some 0x1402000 else none := by
  rw [tableOf, pairSpace_pde hpde hpte p hi]
  by_cases hzero : i = 0
  · rw [if_pos hzero, if_pos hzero]
    rcases hpde with rfl | rfl
    · rfl
    · rfl
  · rw [if_neg hzero, if_neg hzero]
    rfl

theorem pairSpace_entry (p : ℕ) (h : entryOf (pairSpace pde pte count).word (pairDir p) a = some e) :
    dirIndex a = 0 ∧ (tabIndex a = 1 ∨ tabIndex a = 2 ∧ pte = 0x1403005) ∧ e = 0x1403005 := by
  obtain ⟨t, ht, he, hp⟩ := entryOf_eq_some h
  rw [pairSpace_tables hpde hpte p dirIndex_lt] at ht
  split at ht
  · rename_i hi
    cases ht
    rw [pairSpace_word hpde hpte (Or.inr (Or.inr rfl)) tabIndex_lt, if_pos rfl] at he
    split at he
    · rename_i hone
      exact ⟨hi, Or.inl hone, he.symm⟩
    · split at he
      · rename_i htwo
        rcases hpte with rfl | rfl
        · rw [← he] at hp
          cases hp
        · exact ⟨hi, Or.inr ⟨htwo, rfl⟩, he.symm⟩
      · rw [← he] at hp
        cases hp
  · cases ht

theorem pairSpace_page (p : ℕ) :
    entryOf (pairSpace pde pte count).word (pairDir p) 0x1000 = some 0x1403005 := by
  have ht : tableOf (pairSpace pde pte count).word (pairDir p) (dirIndex 0x1000) = some 0x1402000 :=
    pairSpace_tables hpde hpte p (by decide)
  have htab : tabIndex 0x1000 = 1 := by decide
  have hword : (pairSpace pde pte count).word (0x1402000 + 4 * 1) = 0x1403005 := by
    rw [pairSpace_word hpde hpte (Or.inr (Or.inr rfl)) (by decide), if_pos rfl, if_pos rfl]
  rw [entryOf_eq ht, htab, hword]
  rfl

theorem pairSpace_hasTable (p : ℕ) :
    HasTable (pairSpace pde pte count).word (pairDir p) t ↔ t = 0x1402000 := by
  constructor
  · intro h
    obtain ⟨i, hi, ht⟩ := h
    rw [pairSpace_tables hpde hpte p hi] at ht
    split at ht
    · exact (Option.some.inj ht).symm
    · cases ht
  · intro h
    exact ⟨0, by decide, by rw [pairSpace_tables hpde hpte p (by decide), h]; rfl⟩

theorem pairSpace_mapsFrame (p : ℕ) :
    MapsFrame (pairSpace pde pte count).word (pairDir p) f ↔ f = 0x1403000 := by
  constructor
  · intro h
    obtain ⟨a, -, e, he, rfl⟩ := h
    obtain ⟨-, -, rfl⟩ := pairSpace_entry hpde hpte p he
    decide
  · intro h
    exact ⟨0x1000, by decide, _, pairSpace_page hpde hpte p, by rw [h]; decide⟩

theorem pairSpace_outside (p : ℕ) (hd : f ≠ pairDir p) (ht : f ≠ 0x1402000) :
    Outside (pairSpace pde pte count).word (pairDir p) f :=
  outside_iff.mpr ⟨hd, fun htab => ht ((pairSpace_hasTable hpde hpte p).mp htab)⟩

omit hpde hpte in
theorem pairDir_ne (p : ℕ) (hf : f ≠ 0x1401000 ∧ f ≠ 0x1405000) : f ≠ pairDir p := by
  rw [pairDir]
  split
  · exact hf.1
  · exact hf.2

theorem pairSpace_directory (p : ℕ) : Directory (pairSpace pde pte count).word (pairDir p) where
  frame := by
    rw [pairDir]
    split
    · rfl
    · rfl
  ne_null i hi h := absurd ((pairSpace_hasTable hpde hpte p).mp ⟨i, hi, h⟩) (by decide)
  ne_self i hi h := pairDir_ne p (by decide) ((pairSpace_hasTable hpde hpte p).mp ⟨i, hi, h⟩).symm
  unique i hi j hj t hit hjt := by
    rw [pairSpace_tables hpde hpte p hi] at hit
    rw [pairSpace_tables hpde hpte p hj] at hjt
    split at hit
    · split at hjt
      · omega
      · cases hjt
    · cases hit

/-- Everything that is held is held by all. -/
theorem pairSpace_counted (hsub : live ⊆ {1, 2}) (hcount : (live.card : ℤ) = count) :
    Counted (pairSpace pde pte count) live pairDir fun _ => True where
  directory p _ := pairSpace_directory hpde hpte p
  apart p hp q hq h := by
    have hp' := hsub hp
    have hq' := hsub hq
    simp only [Finset.mem_insert, Finset.mem_singleton] at hp' hq'
    rcases hp' with rfl | rfl <;> rcases hq' with rfl | rfl <;> first | rfl | exact absurd h (by decide)
  tables_apart p _ q _ h := pairDir_ne q (by decide) ((pairSpace_hasTable hpde hpte p).mp h).symm
  pages_apart p _ f hf q _ := by
    rw [(pairSpace_mapsFrame hpde hpte p).mp hf]
    exact pairSpace_outside hpde hpte q (pairDir_ne q (by decide)) (by decide)
  nodup := by
    show ([0x1406000, 0x1407000] : List ℕ).Nodup
    decide
  fresh f hf := by
    have hframe : ∀ f ∈ ([0x1406000, 0x1407000] : List ℕ), f % 0x1000 = 0 ∧ f ≠ 0 ∧ f < 2 ^ 32 ∧
        (f ≠ 0x1401000 ∧ f ≠ 0x1405000) ∧ f ≠ 0x1402000 ∧ f ≠ 0x1403000 := by decide
    obtain ⟨hmod, h0, hlt, hd, ht, hpage⟩ := hframe f hf
    exact ⟨hmod, h0, hlt, trivial, fun p _ => ⟨pairSpace_outside hpde hpte p (pairDir_ne p hd) ht,
      fun hmaps => hpage ((pairSpace_mapsFrame hpde hpte p).mp hmaps)⟩⟩
  frames k hk := by
    obtain ⟨q, hq⟩ := hk
    have hk' := (pairSpace_mapsFrame hpde hpte q).mp (mem_holders.mp hq).2.2
    have hall : holders live (fun p f => True ∧ MapsFrame (pairSpace pde pte count).word (pairDir p) f) k = live := by
      ext p
      rw [mem_holders, and_iff_left ⟨trivial, (pairSpace_mapsFrame hpde hpte p).mpr hk'⟩]
    rw [hall, hcount]
    rfl
  tables k hk := by
    obtain ⟨q, hq⟩ := hk
    have hk' := (pairSpace_hasTable hpde hpte q).mp (mem_holders.mp hq).2
    have hall : holders live (fun p t => HasTable (pairSpace pde pte count).word (pairDir p) t) k = live := by
      ext p
      rw [mem_holders, and_iff_left ((pairSpace_hasTable hpde hpte p).mpr hk')]
    rw [hall, hcount]
    rfl

end Pair

/-- One page, and both processes have it. -/
theorem pairSpace_accounts : Accounts (pairSpace 0x1402007 0 2) {1, 2} pairDir fun _ => True where
  toCounted := pairSpace_counted (Or.inr rfl) (Or.inl rfl) (Finset.Subset.refl _) rfl
  once p _ a ha b hb e e' he he' _ := by
    obtain ⟨hi, hj, -⟩ := pairSpace_entry (Or.inr rfl) (Or.inl rfl) p he
    obtain ⟨hi', hj', -⟩ := pairSpace_entry (Or.inr rfl) (Or.inl rfl) p he'
    have hone := hj.resolve_right fun h => absurd h.2 (by decide)
    have hone' := hj'.resolve_right fun h => absurd h.2 (by decide)
    exact (pageOf_eq_iff ha hb).mpr ⟨hi.trans hi'.symm, hone.trans hone'.symm⟩
  open_tables p _ i hi t ht _ := by
    rw [pairSpace_tables (Or.inr rfl) (Or.inl rfl) p hi] at ht
    rw [pairSpace_pde (Or.inr rfl) (Or.inl rfl) p hi]
    split at ht
    · rename_i hzero
      rw [if_pos hzero]
      decide
    · cases ht

/-- The frame and the page table are shared: the first of two processes writes to the page, and gets copies of
both. -/
theorem copyOnWrite_pair : CopiesOnWrite (pairSpace 0x1402007 0 2)
    (doPageFault (pairSpace 0x1402007 0 2) (pairDir 1) 0x1000 procStatusError).1 {1, 2} pairDir
    (fun _ => True) 1 0x1000 := by
  have hpde : pdeOf (pairSpace 0x1402007 0 2).word (pairDir 1) 0x1000 = 0x1402007 :=
    pairSpace_pde (Or.inr rfl) (Or.inl rfl) 1 dirIndex_lt
  exact copyOnWrite pairSpace_accounts (by decide) (by decide)
    (pairSpace_page (Or.inr rfl) (Or.inl rfl) 1) trivial ⟨by rw [hpde]; decide, by decide⟩ (by decide)

/-- Where the process has the frame at a second page too, one more maps it afterwards than the count says;
where the page table is closed, the page cannot be written. -/
theorem counted_not_enough :
    (Counted (pairSpace 0x1402007 0x1403005 2) {1, 2} pairDir (fun _ => True) ∧
      entryOf (pairSpace 0x1402007 0x1403005 2).word (pairDir 1) 0x1000 = some 0x1403005 ∧
      ¬ Counts {1, 2} (fun p f => True ∧ MapsFrame
          (doPageFault (pairSpace 0x1402007 0x1403005 2) (pairDir 1) 0x1000 procStatusError).1.word (pairDir p) f)
        (doPageFault (pairSpace 0x1402007 0x1403005 2) (pairDir 1) 0x1000 procStatusError).1.pageReference) ∧
    Counted (pairSpace 0x1402005 0 1) {1} pairDir (fun _ => True) ∧
      entryOf (pairSpace 0x1402005 0 1).word (pairDir 1) 0x1000 = some 0x1403005 ∧
      userWritable (doPageFault (pairSpace 0x1402005 0 1) (pairDir 1) 0x1000 procStatusError).1.word
        (pairDir 1) 0x1000 = none := by
  refine ⟨⟨pairSpace_counted (Or.inr rfl) (Or.inr rfl) (Finset.Subset.refl _) rfl,
      pairSpace_page (Or.inr rfl) (Or.inr rfl) 1, fun hcounts => ?_⟩,
    pairSpace_counted (Or.inl rfl) (Or.inl rfl) (by decide) rfl,
    pairSpace_page (Or.inl rfl) (Or.inl rfl) 1, by decide +kernel⟩
  set m := (doPageFault (pairSpace 0x1402007 0x1403005 2) (pairDir 1) 0x1000 procStatusError).1 with hm
  have hfirst : MapsFrame m.word (pairDir 1) 0x1403000 :=
    ⟨0x2000, by decide, 0x1403005, by rw [hm]; decide +kernel, by decide⟩
  have hsecond : MapsFrame m.word (pairDir 2) 0x1403000 :=
    ⟨0x1000, by decide, 0x1403005, by rw [hm]; decide +kernel, by decide⟩
  have hall : holders {1, 2} (fun p f => True ∧ MapsFrame m.word (pairDir p) f) 0x1403000 = {1, 2} := by
    ext p
    rw [mem_holders]
    refine and_iff_left_of_imp fun hp => ⟨trivial, ?_⟩
    rcases Finset.mem_insert.mp hp with rfl | hp
    · exact hfirst
    · rw [Finset.mem_singleton.mp hp]
      exact hsecond
  have hcount := hcounts 0x1403000 (by rw [hall]; exact ⟨1, by decide⟩)
  have hone : m.pageReference 0x1403000 = 1 := by
    rw [hm]
    decide +kernel
  rw [hall, hone] at hcount
  exact absurd hcount (by decide)

end OmochaOS.PageTables
