import OmochaOS.Memory.ForkShare

/-!
# The child of a fork (`modules/memory/fork.c`)

After `copy_parent` the child has a page directory of its own that leads where the one of the parent leads, all
pages of both have lost their write bit, and the pages of the message are the child's own.

* `copyParent_spec` — the accounts, what everybody reads, and the pages of the message.
-/

namespace OmochaOS.PageTables

open ByteMemory HolderCount Paging ForkProc

variable {m m' m'' : Space} {live live' : Finset ℕ} {dir dir' : ℕ → ℕ} {managed : ℕ → Prop}
  {p q c d f g t a va i j k e : ℕ}

/-! ### Directories that lead to the same frames -/

/-- The directory `d'` leads now where `d` led before. -/
structure Leads (m m' : Space) (d d' : ℕ) : Prop where
  tables : ∀ i < 1024, tableOf m'.word d' i = tableOf m.word d i
  pdes : ∀ i < 1024, (tableOf m.word d i).isSome → m'.word (d' + 4 * i) = m.word (d + 4 * i)
  frames : ∀ a < 2 ^ 32, (entryOf m'.word d' a).map pageOf = (entryOf m.word d a).map pageOf

namespace Leads

variable {d' : ℕ} (h : Leads m m' d d')
include h

theorem hasTable : HasTable m'.word d' t ↔ HasTable m.word d t := by
  refine exists_congr fun i => and_congr_right fun hi => ?_
  rw [h.tables i hi]

theorem entry (ha : a < 2 ^ 32) (he : entryOf m'.word d' a = some e) :
    ∃ e₀, entryOf m.word d a = some e₀ ∧ pageOf e₀ = pageOf e := by
  have hframes := h.frames a ha
  rw [he, Option.map_some] at hframes
  exact Option.map_eq_some_iff.mp hframes.symm

theorem isSome (ha : a < 2 ^ 32) : (entryOf m'.word d' a).isSome = (entryOf m.word d a).isSome := by
  have hframes := congrArg Option.isSome (h.frames a ha)
  rwa [Option.isSome_map, Option.isSome_map] at hframes

theorem mapsFrame : MapsFrame m'.word d' f ↔ MapsFrame m.word d f := by
  have hiff : ∀ (word : ℕ → ℕ) (d : ℕ), MapsFrame word d f ↔
      ∃ a < 2 ^ 32, (entryOf word d a).map pageOf = some f := by
    intro word d
    refine exists_congr fun a => and_congr_right fun _ => ?_
    rw [Option.map_eq_some_iff]
  rw [hiff, hiff]
  refine exists_congr fun a => and_congr_right fun ha => ?_
  rw [h.frames a ha]

end Leads

/-- The directory and the page tables as they were. -/
theorem Leads.of_kept (hpde : ∀ i < 1024, m'.word (d + 4 * i) = m.word (d + 4 * i))
    (hpte : ∀ i < 1024, ∀ t, tableOf m.word d i = some t → ∀ j < 1024, m'.word (t + 4 * j) = m.word (t + 4 * j)) :
    Leads m m' d d where
  tables i hi := tableOf_congr (hpde i hi)
  pdes i hi _ := hpde i hi
  frames a _ := by rw [entryOf_congr (hpde _ dirIndex_lt) fun t ht => hpte _ dirIndex_lt t ht _ tabIndex_lt]

/-- **The accounts of processes that lead where others led.**  The counts are still to be shown. -/
theorem Accounts.of_leads (acc : Accounts m live dir managed) (o : ℕ → ℕ) (ho : ∀ q ∈ live', o q ∈ live)
    (hlead : ∀ q ∈ live', Leads m m' (dir (o q)) (dir' q)) (hframe : ∀ q ∈ live', dir' q % 0x1000 = 0)
    (hapart : ∀ q ∈ live', ∀ r ∈ live', dir' q = dir' r → q = r)
    (hunused : ∀ q ∈ live', ∀ r ∈ live, ¬ HasTable m.word (dir r) (dir' q) ∧ ¬ MapsFrame m.word (dir r) (dir' q))
    (hanswers : m'.answers.Sublist m.answers) (htaken : ∀ q ∈ live', dir' q ∉ m'.answers)
    (hframes : Counts live' (fun q f => managed f ∧ MapsFrame m'.word (dir' q) f) m'.pageReference)
    (htables : Counts live' (fun q t => HasTable m'.word (dir' q) t) m'.pageReference) :
    Accounts m' live' dir' managed where
  directory q hq := by
    have hold := acc.directory (o q) (ho q hq)
    have htab := (hlead q hq).tables
    constructor
    · exact hframe q hq
    · exact fun i hi hnull => hold.ne_null i hi ((htab i hi).symm.trans hnull)
    · exact fun i hi hself => (hunused q hq (o q) (ho q hq)).1 ⟨i, hi, (htab i hi).symm.trans hself⟩
    · exact fun i hi j hj t hit hjt =>
        hold.unique i hi j hj t ((htab i hi).symm.trans hit) ((htab j hj).symm.trans hjt)
  apart := hapart
  tables_apart q hq r hr htab := (hunused r hr (o q) (ho q hq)).1 ((hlead q hq).hasTable.mp htab)
  pages_apart q hq f hf r hr := by
    have hold := (hlead q hq).mapsFrame.mp hf
    rw [outside_iff (p := r)]
    refine ⟨fun he => (hunused r hr (o q) (ho q hq)).2 (he ▸ hold), fun htab => ?_⟩
    exact (outside_iff.mp (acc.pages_apart (o q) (ho q hq) f hold (o r) (ho r hr))).2 ((hlead r hr).hasTable.mp htab)
  once q hq a ha b hb e e' he he' heq := by
    obtain ⟨e₀, he₀, hpage₀⟩ := (hlead q hq).entry ha he
    obtain ⟨e₁, he₁, hpage₁⟩ := (hlead q hq).entry hb he'
    exact acc.once (o q) (ho q hq) a ha b hb e₀ e₁ he₀ he₁ (hpage₀.trans (heq.trans hpage₁.symm))
  open_tables q hq i hi t ht huser := by
    have hold := ((hlead q hq).tables i hi).symm.trans ht
    have hpde := (hlead q hq).pdes i hi (by rw [hold]; rfl)
    rw [hpde] at huser ⊢
    exact acc.open_tables (o q) (ho q hq) i hi t hold huser
  nodup := acc.nodup.sublist hanswers
  fresh f hf := by
    obtain ⟨hmod, hnull, hlt, hman, hfree⟩ := acc.fresh f (hanswers.subset hf)
    refine ⟨hmod, hnull, hlt, hman, fun q hq => ?_⟩
    obtain ⟨hout, hmaps⟩ := hfree (o q) (ho q hq)
    rw [outside_iff, (hlead q hq).hasTable, (hlead q hq).mapsFrame]
    exact ⟨⟨fun he => htaken q hq (he ▸ hf), (outside_iff.mp hout).2⟩, hmaps⟩
  frames := hframes
  tables := htables

/-- What the directories are not used for. -/
theorem Accounts.dir_unused (acc : Accounts m live dir managed) (hq : q ∈ live) {r : ℕ} (hr : r ∈ live) :
    ¬ HasTable m.word (dir r) (dir q) ∧ ¬ MapsFrame m.word (dir r) (dir q) :=
  ⟨acc.tables_apart r hr q hq, fun hmaps => (acc.pages_apart r hr _ hmaps q hq).1 rfl⟩

/-- The accounts, when everybody leads where it led and no count of what is in use has changed. -/
theorem Accounts.of_same (acc : Accounts m live dir managed) (hlead : ∀ q ∈ live, Leads m m' (dir q) (dir q))
    (hanswers : m'.answers.Sublist m.answers)
    (href : ∀ g, (∃ q ∈ live, HasTable m.word (dir q) g ∨ MapsFrame m.word (dir q) g) →
      m'.pageReference g = m.pageReference g) : Accounts m' live dir managed := by
  refine acc.of_leads id (fun q hq => hq) hlead (fun q hq => (acc.directory q hq).frame) acc.apart
    (fun q hq r hr => acc.dir_unused hq hr) hanswers (fun q hq hmem => ?_) ?_ ?_
  · exact ((acc.fresh _ (hanswers.subset hmem)).2.2.2.2 q hq).1.1 rfl
  · refine acc.frames.congr (fun q hq k => and_congr_right fun _ => (hlead q hq).mapsFrame) fun k hk => ?_
    obtain ⟨q, hq⟩ := hk
    exact href k ⟨q, (mem_holders.mp hq).1, Or.inr (mem_holders.mp hq).2.2⟩
  · refine acc.tables.congr (fun q hq k => (hlead q hq).hasTable) fun k hk => ?_
    obtain ⟨q, hq⟩ := hk
    exact href k ⟨q, (mem_holders.mp hq).1, Or.inl (mem_holders.mp hq).2⟩

/-! ### The directory of the child -/

/-- A directory that nobody uses, without page tables. -/
structure NewDirectory (m : Space) (live : Finset ℕ) (dir : ℕ → ℕ) (d : ℕ) : Prop where
  frame : d % 0x1000 = 0
  ne_null : d ≠ 0
  unused : ∀ q ∈ live, Outside m.word (dir q) d ∧ ¬ MapsFrame m.word (dir q) d
  taken : d ∉ m.answers
  empty : ∀ i < 1024, tableOf m.word d i = none

/-- **`create_page_dir`**: only the new frame is written. -/
theorem Accounts.createPageDir (acc : Accounts m live dir managed) {rest : List PAddr}
    (hanswers : m.answers = d :: rest) :
    (createPageDir m pgWritable).2 = d ∧ Accounts (createPageDir m pgWritable).1 live dir managed ∧
      NewDirectory (createPageDir m pgWritable).1 live dir d ∧ (createPageDir m pgWritable).1.answers = rest ∧
      ∀ q ∈ live, Leads m (createPageDir m pgWritable).1 (dir q) (dir q) ∧
        (∀ a, entryOf (createPageDir m pgWritable).1.word (dir q) a = entryOf m.word (dir q) a) ∧
        ∀ f, MapsFrame m.word (dir q) f → AgreeOn (createPageDir m pgWritable).1.bytes m.bytes f 0x1000 := by
  obtain ⟨hmod, hnull, hlt, -, hfree⟩ := acc.fresh d (by rw [hanswers]; exact List.mem_cons_self)
  obtain ⟨hpage, hdir, hempty⟩ := createPageDir_spec hanswers hmod hnull (show pgWritable < 0x1000 by decide)
  have hnodup := acc.nodup
  rw [hanswers] at hnodup
  have hcall : PageTables.createPageDir m pgWritable = ((m.pageAlloc.1.clearPage d).store (d + 4 * dirIndex kernBase)
      (0 ||| pgPresent ||| pgOsSys ||| pgPs ||| pgWritable), d) := by
    rw [PageTables.createPageDir, pageAlloc_cons hanswers hnull]
    simp only [if_neg hnull]
  set m₀ := (PageTables.createPageDir m pgWritable).1 with hm₀
  have hkept : ∀ g, g % 0x1000 = 0 → g ≠ d → AgreeOn m₀.bytes m.bytes g 0x1000 := by
    intro g hg hne
    have hclear : AgreeOn (m.pageAlloc.1.clearPage d).bytes m.pageAlloc.1.bytes g 0x1000 :=
      agreeOn_clearPage hmod hg hne
    rw [pageAlloc_bytes] at hclear
    rw [hm₀, hcall]
    exact (agreeOn_store hmod hg dirIndex_lt hne).trans hclear
  have hrest : m₀.answers = rest := by
    rw [hm₀, hcall]
    show m.pageAlloc.1.answers = rest
    rw [pageAlloc_answers, hanswers]
    rfl
  have hreference : ∀ g, g % 0x1000 = 0 → g < 2 ^ 32 → g ≠ d → m₀.pageReference g = m.pageReference g := by
    intro g hg hg32 hne
    have hid : m.pageId g ≠ m.pageId (m.answers.headD 0) := by
      rw [hanswers, List.headD_cons, Ne, pageId_inj hg hmod hg32 hlt]
      exact hne
    rw [hm₀, hcall]
    exact pageReference_pageAlloc hid
  have hpde : ∀ q ∈ live, ∀ i < 1024, m₀.word (dir q + 4 * i) = m.word (dir q + 4 * i) := fun q hq i hi =>
    (hkept (dir q) (acc.directory q hq).frame (hfree q hq).1.1.symm).readWord (by omega)
  have hpte : ∀ q ∈ live, ∀ i < 1024, ∀ t, tableOf m.word (dir q) i = some t → ∀ j < 1024,
      m₀.word (t + 4 * j) = m.word (t + 4 * j) := fun q hq i hi t ht j hj =>
    (hkept t (tableOf_frame ht) ((hfree q hq).1.ne_table hi ht)).readWord (by omega)
  have hlead : ∀ q ∈ live, Leads m m₀ (dir q) (dir q) := fun q hq => .of_kept (hpde q hq) (hpte q hq)
  refine ⟨hpage, ?_, ?_, hrest, fun q hq => ⟨hlead q hq, fun a => ?_, fun f hf => ?_⟩⟩
  · refine acc.of_same hlead (by rw [hrest, hanswers]; exact List.sublist_cons_self d rest) fun g hg => ?_
    obtain ⟨q, hq, hor⟩ := hg
    rcases hor with ⟨i, hi, ht⟩ | hmaps
    · exact hreference g (tableOf_frame ht) (tableOf_lt ht) ((hfree q hq).1.ne_table hi ht)
    · refine hreference g (mapsFrame_frame hmaps) (mapsFrame_lt hmaps) ?_
      rintro rfl
      exact (hfree q hq).2 hmaps
  · refine ⟨hmod, hnull, fun q hq => ?_, ?_, hempty⟩
    · rw [outside_iff, (hlead q hq).hasTable, (hlead q hq).mapsFrame]
      exact ⟨outside_iff.mp (hfree q hq).1, (hfree q hq).2⟩
    · rw [hrest]
      exact (List.nodup_cons.mp hnodup).1
  · exact entryOf_congr (hpde q hq _ dirIndex_lt) fun t ht => hpte q hq _ dirIndex_lt t ht _ tabIndex_lt
  · refine hkept f (mapsFrame_frame hf) ?_
    rintro rfl
    exact (hfree q hq).2 hf

/-! ### The child joins -/

/-- The byte that a process has at an address of its own. -/
def view (m : Space) (d a : ℕ) : Option UInt8 := (entryOf m.word d a).map fun e => m.bytes (pageOf e + a % 2 ^ 12)

theorem Leads.view {d' : ℕ} (h : Leads m m' d d') (ha : a < 2 ^ 32)
    (hbytes : ∀ f, MapsFrame m.word d f → AgreeOn m'.bytes m.bytes f 0x1000) :
    PageTables.view m' d' a = PageTables.view m d a := by
  have hoffset : a % 2 ^ 12 < 0x1000 := Nat.mod_lt _ (by decide)
  have hview : ∀ (m : Space) (d : ℕ), PageTables.view m d a =
      ((entryOf m.word d a).map pageOf).map fun f => m.bytes (f + a % 2 ^ 12) := by
    intro m d
    rw [PageTables.view, Option.map_map]
    rfl
  rw [hview, hview, h.frames a ha]
  cases he : entryOf m.word d a with
  | none => rfl
  | some e => exact congrArg some (hbytes _ ⟨a, ha, e, he, rfl⟩ _ (by omega) (by omega))

/-- A writable page is in a frame of the process's own. -/
def Sealed (m : Space) (live : Finset ℕ) (dir : ℕ → ℕ) : Prop :=
  ∀ q ∈ live, ∀ a < 2 ^ 32, ∀ e, entryOf m.word (dir q) a = some e → writable e = true →
    ∀ r ∈ live, MapsFrame m.word (dir r) (pageOf e) → r = q

/-- What there is after the pages of `p` have been shared with `c`. -/
structure Forked (m m' : Space) (live : Finset ℕ) (dir : ℕ → ℕ) (managed : ℕ → Prop) (p c d : ℕ) : Prop where
  accounts : Accounts m' (insert c live) (Function.update dir c d) managed
  lead : ∀ q ∈ live, Leads m m' (dir q) (dir q)
  child : Leads m m' (dir p) d
  same : ∀ a, entryOf m'.word d a = entryOf m'.word (dir p) a
  cleared : ∀ a < 2 ^ 32, ∀ e, entryOf m'.word (dir p) a = some e → writable e = false
  others : ∀ q ∈ live, ∀ a < 2 ^ 32, ∀ e, entryOf m'.word (dir q) a = some e → writable e = true →
    entryOf m.word (dir q) a = some e
  bytes : ∀ q ∈ live, ∀ f, MapsFrame m.word (dir q) f → AgreeOn m'.bytes m.bytes f 0x1000
  answers : m'.answers = m.answers

/-- An address with these places in the directory and in the page table. -/
theorem exists_address (hi : i < 1024) (hj : j < 1024) : ∃ a < 2 ^ 32, dirIndex a = i ∧ tabIndex a = j := by
  refine ⟨i * 2 ^ 22 + j * 2 ^ 12, by omega, ?_, ?_⟩
  · rw [dirIndex]
    omega
  · rw [tabIndex]
    omega

section Share

variable (acc : Accounts m live dir managed) (hp : p ∈ live) {I V : ℕ → Prop} {r : ℕ → ℤ}
  (hnew : NewDirectory m live dir d) (h : Shares m m' (dir p) d I V r)
include acc hp hnew h

omit acc hp in
/-- A page table of anybody: one of the parent's, with the entries as they have become, or one that is kept. -/
theorem Shares.entry_of_table {q : ℕ} (hq : q ∈ live) (hi : i < 1024) (ht : tableOf m.word (dir q) i = some t)
    (hj : j < 1024) :
    (∃ a < 2 ^ 32, tableOf m.word (dir p) (dirIndex a) = some t ∧ tabIndex a = j) ∨
      m'.word (t + 4 * j) = m.word (t + 4 * j) := by
  by_cases hshared : HasTable m.word (dir p) t
  · left
    obtain ⟨x, hx, hxt⟩ := hshared
    obtain ⟨a, ha, hdir, htab⟩ := exists_address hx hj
    exact ⟨a, ha, by rw [hdir]; exact hxt, htab⟩
  · right
    have hkept := h.kept t (tableOf_frame ht) ((hnew.unused q hq).1.ne_table hi ht) fun x hx hxt =>
      hshared ⟨x, hx, hxt⟩
    exact hkept.readWord (by omega)

theorem Shares.pde_of_live {q : ℕ} (hq : q ∈ live) (hi : i < 1024) :
    m'.word (dir q + 4 * i) = m.word (dir q + 4 * i) := by
  have hkept := h.kept (dir q) (acc.directory q hq).frame (hnew.unused q hq).1.1.symm fun x hx hxt =>
    acc.tables_apart p hp q hq ⟨x, hx, hxt⟩
  exact hkept.readWord (by omega)

theorem Shares.lead {q : ℕ} (hq : q ∈ live) : Leads m m' (dir q) (dir q) where
  tables i hi := tableOf_congr (h.pde_of_live acc hp hnew hq hi)
  pdes i hi _ := h.pde_of_live acc hp hnew hq hi
  frames a _ := by
    have htab : tableOf m'.word (dir q) (dirIndex a) = tableOf m.word (dir q) (dirIndex a) :=
      tableOf_congr (h.pde_of_live acc hp hnew hq dirIndex_lt)
    cases ht : tableOf m.word (dir q) (dirIndex a) with
    | none => rw [entryOf_of_none ht, entryOf_of_none (htab.trans ht)]
    | some t =>
      have hword : pageOf (m'.word (t + 4 * tabIndex a)) = pageOf (m.word (t + 4 * tabIndex a)) ∧
          present (m'.word (t + 4 * tabIndex a)) = present (m.word (t + 4 * tabIndex a)) := by
        rcases h.entry_of_table hnew hq dirIndex_lt ht tabIndex_lt with ⟨b, hb, hbt, hplace⟩ | hsame
        · rw [← hplace]
          exact h.word hb hbt
        · rw [hsame]
          exact ⟨rfl, rfl⟩
      rw [entryOf_eq ht, entryOf_eq (htab.trans ht), hword.2]
      split
      · rw [Option.map_some, Option.map_some, hword.1]
      · rfl

theorem Shares.bytes {q : ℕ} (hq : q ∈ live) (hf : MapsFrame m.word (dir q) f) :
    AgreeOn m'.bytes m.bytes f 0x1000 := by
  refine h.kept f (mapsFrame_frame hf) ?_ ?_
  · rintro rfl
    exact (hnew.unused q hq).2 hf
  · exact (acc.pages_apart q hq f hf p hp).2

end Share

/-- **The child has joined.** -/
theorem Accounts.share (acc : Accounts m live dir managed) (hp : p ∈ live) (hc : c ∉ live) {proc : Process}
    (hdir : proc.pageDir = dir p) (hreg : Regular m.word proc) (hnew : NewDirectory m live dir d) :
    Forked m ((ranges proc).foldl (fun m R => R.share proc.pageDir d m) m) live dir managed p c d := by
  obtain ⟨hranged, htables, hpages⟩ := hreg
  rw [hdir] at hranged htables hpages ⊢
  have hdirp := acc.directory p hp
  have h := shareAll_spec hnew.frame (ranges proc) m hdirp (hnew.unused p hp).1
    (fun i hi t ht => by rw [hnew.empty i hi] at ht; cases ht) hranged
  set m' := (ranges proc).foldl (fun m R => R.share (dir p) d m) m with hm'
  have hlead : ∀ q ∈ live, Leads m m' (dir q) (dir q) := fun q hq => h.lead acc hp hnew hq
  -- the child has the page tables of the parent, and no others
  have hchild : ∀ i < 1024, tableOf m'.word d i = tableOf m.word (dir p) i ∧
      ((tableOf m.word (dir p) i).isSome → m'.word (d + 4 * i) = m.word (dir p + 4 * i)) := by
    intro i hi
    by_cases hI : ∃ R ∈ ranges proc, R.HasIndex i
    · have hword := h.shared i hi hI
      refine ⟨?_, fun _ => hword⟩
      rw [tableOf, tableOf, hword]
    · have hnone : tableOf m.word (dir p) i = none := by
        by_contra hsome
        exact hI (htables i hi (Option.isSome_iff_ne_none.mpr hsome))
      rw [hnone]
      exact ⟨(tableOf_congr (h.others i hi hI)).trans (hnew.empty i hi), fun hsome => by cases hsome⟩
  have hsame : ∀ a, entryOf m'.word d a = entryOf m'.word (dir p) a := by
    intro a
    have htab : tableOf m'.word d (dirIndex a) = tableOf m'.word (dir p) (dirIndex a) :=
      (hchild _ dirIndex_lt).1.trans ((hlead p hp).tables _ dirIndex_lt).symm
    rw [entryOf, entryOf, htab]
  have hdup : Leads m m' (dir p) d :=
    ⟨fun i hi => (hchild i hi).1, fun i hi => (hchild i hi).2, fun a ha => by
      rw [hsame a]
      exact (hlead p hp).frames a ha⟩
  -- an entry that is present in a table of the parent has been cleared
  have hcleared : ∀ a < 2 ^ 32, ∀ t, tableOf m.word (dir p) (dirIndex a) = some t →
      present (m'.word (t + 4 * tabIndex a)) = true → writable (m'.word (t + 4 * tabIndex a)) = false := by
    intro a ha t ht hpresent
    rw [(h.word ha ht).2] at hpresent
    have hV := hpages a ha (by rw [entryOf_of_present ht hpresent]; rfl)
    rw [h.cleared a ha hV t ht]
    exact writable_clearWritable (word_lt m _)
  have horigin : ∀ q ∈ insert c live, Leads m m' (dir (if q = c then p else q)) (Function.update dir c d q) ∧
      (if q = c then p else q) ∈ live := by
    intro q hq
    by_cases he : q = c
    · rw [if_pos he, he, Function.update_self]
      exact ⟨hdup, hp⟩
    · have hq' := (Finset.mem_insert.mp hq).resolve_left he
      rw [if_neg he, Function.update_of_ne he]
      exact ⟨hlead q hq', hq'⟩
  have hreferences := h.references
  constructor
  case accounts =>
    refine acc.of_leads (fun q => if q = c then p else q) (fun q hq => (horigin q hq).2)
      (fun q hq => (horigin q hq).1) ?_ ?_ ?_ ?_ ?_ ?_ ?_
    · intro q hq
      by_cases he : q = c
      · rw [he, Function.update_self]
        exact hnew.frame
      · rw [Function.update_of_ne he]
        exact (acc.directory q ((Finset.mem_insert.mp hq).resolve_left he)).frame
    · intro q hq r hr heq
      by_cases hqc : q = c
      · by_cases hrc : r = c
        · exact hqc.trans hrc.symm
        · rw [hqc, Function.update_self, Function.update_of_ne hrc] at heq
          exact absurd heq (hnew.unused r ((Finset.mem_insert.mp hr).resolve_left hrc)).1.1
      · have hq' := (Finset.mem_insert.mp hq).resolve_left hqc
        by_cases hrc : r = c
        · rw [hrc, Function.update_self, Function.update_of_ne hqc] at heq
          exact absurd heq.symm (hnew.unused q hq').1.1
        · rw [Function.update_of_ne hqc, Function.update_of_ne hrc] at heq
          exact acc.apart q hq' r ((Finset.mem_insert.mp hr).resolve_left hrc) heq
    · intro q hq r hr
      by_cases he : q = c
      · rw [he, Function.update_self]
        exact ⟨(outside_iff.mp (hnew.unused r hr).1).2, (hnew.unused r hr).2⟩
      · rw [Function.update_of_ne he]
        exact acc.dir_unused ((Finset.mem_insert.mp hq).resolve_left he) hr
    · rw [h.answers]
    · intro q hq
      rw [h.answers]
      by_cases he : q = c
      · rw [he, Function.update_self]
        exact hnew.taken
      · rw [Function.update_of_ne he]
        have hq' := (Finset.mem_insert.mp hq).resolve_left he
        exact fun hmem => ((acc.fresh _ hmem).2.2.2.2 q hq').1.1 rfl
    · refine acc.frames.join hp hc (fun q hq k => and_congr_right fun _ => (horigin q hq).1.mapsFrame) fun k hk => ?_
      obtain ⟨q, hq⟩ := hk
      obtain ⟨hlive, hman, hmaps⟩ := mem_holders.mp hq
      have htab := (outside_iff.mp (acc.pages_apart q hlive k hmaps p hp)).2
      rw [hreferences k (mapsFrame_frame hmaps) (mapsFrame_lt hmaps)]
      constructor
      · intro hheld
        obtain ⟨a, ha, e, he, rfl⟩ := hheld.2
        rw [hranged.references_page (acc.once p hp) ha (hpages a ha (by rw [he]; rfl)) he htab]
      · intro hfree
        rw [hranged.references_none htab fun hmaps' => hfree ⟨hman, hmaps'⟩, Int.add_zero]
    · refine acc.tables.join hp hc (fun q hq k => (horigin q hq).1.hasTable) fun k hk => ?_
      obtain ⟨q, hq⟩ := hk
      obtain ⟨hlive, x, hx, hxt⟩ := mem_holders.mp hq
      have hpage : ¬ MapsFrame m.word (dir p) k := fun hmaps => (acc.pages_apart p hp k hmaps q hlive).2 x hx hxt
      rw [hreferences k (tableOf_frame hxt) (tableOf_lt hxt)]
      constructor
      · intro hheld
        obtain ⟨j, hj, ht⟩ := hheld
        rw [hranged.references_table hdirp (htables j hj (by rw [ht]; rfl)) ht hpage]
      · intro hfree
        rw [hranged.references_none hfree hpage, Int.add_zero]
  case lead => exact hlead
  case child => exact hdup
  case same => exact hsame
  case cleared =>
    intro a ha e he
    obtain ⟨t, ht, rfl, hpresent⟩ := entryOf_eq_some he
    exact hcleared a ha t (((hlead p hp).tables _ dirIndex_lt).symm.trans ht) hpresent
  case others =>
    intro q hq a ha e he hwritable
    obtain ⟨t, ht, rfl, hpresent⟩ := entryOf_eq_some he
    have ht₀ := ((hlead q hq).tables _ dirIndex_lt).symm.trans ht
    rcases h.entry_of_table hnew hq dirIndex_lt ht₀ tabIndex_lt with ⟨b, hb, hbt, hplace⟩ | hkept
    · rw [← hplace] at hpresent hwritable
      rw [hcleared b hb t hbt hpresent] at hwritable
      cases hwritable
    · rw [hkept] at hpresent ⊢
      exact entryOf_of_present ht₀ hpresent
  case bytes => exact fun q hq f hf => h.bytes acc hp hnew hq hf
  case answers => exact h.answers

/-- The pages are sealed, for the parent and for the child. -/
theorem Forked.sealed (h : Forked m m' live dir managed p c d) (hp : p ∈ live) (hc : c ∉ live)
    (hs : Sealed m live dir) : Sealed m' (insert c live) (Function.update dir c d) := by
  intro q hq a ha e he hwritable r hr hmaps
  have hne : q ≠ c := by
    rintro rfl
    rw [Function.update_self, h.same a] at he
    rw [h.cleared a ha e he] at hwritable
    cases hwritable
  have hq' := (Finset.mem_insert.mp hq).resolve_left hne
  rw [Function.update_of_ne hne] at he
  have hold := h.others q hq' a ha e he hwritable
  by_cases hrc : r = c
  · -- the child maps what the parent maps, and of the parent nothing is writable
    rw [hrc, Function.update_self, h.child.mapsFrame] at hmaps
    obtain rfl := hs q hq' a ha e hold hwritable p hp hmaps
    rw [h.cleared a ha e he] at hwritable
    cases hwritable
  · have hr' := (Finset.mem_insert.mp hr).resolve_left hrc
    rw [Function.update_of_ne hrc, (h.lead r hr').mapsFrame] at hmaps
    exact hs q hq' a ha e hold hwritable r hr' hmaps

/-! ### Pages of one's own -/

/-- The process `c` has got pages of its own for the addresses of `S`. -/
structure Own (m m' : Space) (live : Finset ℕ) (dir : ℕ → ℕ) (managed : ℕ → Prop) (c : ℕ) (S : ℕ → Prop) : Prop where
  accounts : Accounts m' live dir managed
  sealed : Sealed m live dir → Sealed m' live dir
  views : ∀ q ∈ live, ∀ a < 2 ^ 32, view m' (dir q) a = view m (dir q) a
  others : ∀ q ∈ live, q ≠ c → ∀ a, entryOf m'.word (dir q) a = entryOf m.word (dir q) a
  same : ∀ a < 2 ^ 32, ¬ S a → entryOf m'.word (dir c) a = entryOf m.word (dir c) a
  own : ∀ a < 2 ^ 32, S a → ∃ e, entryOf m'.word (dir c) a = some e ∧ writable e = true
  present : ∀ q ∈ live, ∀ a < 2 ^ 32, (entryOf m'.word (dir q) a).isSome = (entryOf m.word (dir q) a).isSome
  tables : ∀ q ∈ live, ∀ i < 1024, (tableOf m'.word (dir q) i).isSome = (tableOf m.word (dir q) i).isSome
  managed : (∀ q ∈ live, ∀ f, MapsFrame m.word (dir q) f → managed f) →
    ∀ q ∈ live, ∀ f, MapsFrame m'.word (dir q) f → managed f

section TurnOwn

variable {old t' : ℕ} (acc : Accounts m live dir managed) (s : Turn m m' live dir managed p va old t f t' e)
include acc s

theorem Turn.isSome (hq : q ∈ live) (ha : a < 2 ^ 32) :
    (entryOf m'.word (dir q) a).isSome = (entryOf m.word (dir q) a).isSome := by
  by_cases hne : q = p
  · subst hne
    by_cases hpage : pageOf a = pageOf va
    · rw [s.caller_entry_self ha hpage, entryOf_page ha s.lt hpage, s.entry, Option.isSome_some, Option.isSome_some]
    · rw [s.caller_entry acc ha hpage]
  · rw [s.others_entry acc hq hne]

theorem Turn.views (hq : q ∈ live) (ha : a < 2 ^ 32) : view m' (dir q) a = view m (dir q) a := by
  cases he : entryOf m.word (dir q) a with
  | none =>
    have hnone := s.isSome acc hq ha
    rw [he, Option.isSome_none, Option.isSome_eq_false_iff, Option.isNone_iff_eq_none] at hnone
    rw [view, view, he, hnone, Option.map_none, Option.map_none]
  | some e₁ =>
    have hsome := s.isSome acc hq ha
    rw [he] at hsome
    obtain ⟨e₂, he₂⟩ := Option.isSome_iff_exists.mp hsome
    have hread := s.reads acc hq ha he
    rw [readByte_of_entry he, readByte_of_entry he₂] at hread
    rw [view, view, he, he₂]
    exact hread

theorem Turn.sealed (hs : Sealed m live dir) : Sealed m' live dir := by
  intro q hq a ha e₁ he₁ hwritable r hr hmaps
  -- the new frame is nobody else's
  have hnew : ∀ r ∈ live, MapsFrame m'.word (dir r) f → r = p := by
    intro r hr hmaps
    by_contra hne
    exact hne (s.frame_alone r hr ((s.others_frame acc hr hne).mp hmaps)).1
  have hold : ∀ q ∈ live, entryOf m.word (dir q) a = some e₁ → pageOf e₁ ≠ f → r = q := by
    intro q hq he hne
    refine hs q hq a ha e₁ he hwritable r hr ?_
    exact (s.frame_before acc hr hmaps).resolve_left hne
  by_cases hqp : q = p
  · subst hqp
    by_cases hpage : pageOf a = pageOf va
    · rw [s.caller_entry_self ha hpage] at he₁
      obtain rfl := Option.some.inj he₁
      rw [s.granted.frame] at hmaps
      exact hnew r hr hmaps
    · by_cases hf : pageOf e₁ = f
      · rw [hf] at hmaps
        exact hnew r hr hmaps
      · rw [s.caller_entry acc ha hpage] at he₁
        exact hold q hq he₁ hf
  · rw [s.others_entry acc hq hqp] at he₁
    refine hold q hq he₁ fun hf => hqp ?_
    exact (s.frame_alone q hq ⟨a, ha, e₁, he₁, hf⟩).1

theorem Turn.tables_isSome (hq : q ∈ live) (hi : i < 1024) :
    (tableOf m'.word (dir q) i).isSome = (tableOf m.word (dir q) i).isSome := by
  by_cases hne : q = p
  · subst hne
    by_cases hiv : i = dirIndex va
    · rw [hiv, s.granted.table, s.table, Option.isSome_some, Option.isSome_some]
    · rw [s.granted.tableOf_of_ne hi hiv]
  · rw [s.others_table acc hq hne hi]

/-- **A page fault gives its process a page of its own.** -/
theorem Turn.toOwn : Own m m' live dir managed p fun a => pageOf a = pageOf va where
  accounts := s.accounts acc
  sealed := s.sealed acc
  views _ hq _ ha := s.views acc hq ha
  others _ hq hne _ := s.others_entry acc hq hne
  same _ ha hne := s.caller_entry acc ha hne
  own _ ha hpage := ⟨e, s.caller_entry_self ha hpage, s.granted.writable⟩
  present _ hq _ ha := s.isSome acc hq ha
  tables _ hq _ hi := s.tables_isSome acc hq hi
  managed hall q hq k hk := by
    rcases s.frame_before acc hq hk with rfl | hold
    · exact s.managed_new
    · exact hall q hq k hold

end TurnOwn

variable {S S' : ℕ → Prop}

theorem Own.trans (h : Own m m' live dir managed c S) (h' : Own m' m'' live dir managed c S') :
    Own m m'' live dir managed c fun a => S a ∨ S' a where
  accounts := h'.accounts
  sealed hs := h'.sealed (h.sealed hs)
  views q hq a ha := (h'.views q hq a ha).trans (h.views q hq a ha)
  others q hq hne a := (h'.others q hq hne a).trans (h.others q hq hne a)
  same a ha hS := by
    rw [not_or] at hS
    exact (h'.same a ha hS.2).trans (h.same a ha hS.1)
  own a ha hS := by
    by_cases hS' : S' a
    · exact h'.own a ha hS'
    · rw [h'.same a ha hS']
      exact h.own a ha (hS.resolve_right hS')
  present q hq a ha := (h'.present q hq a ha).trans (h.present q hq a ha)
  tables q hq i hi := (h'.tables q hq i hi).trans (h.tables q hq i hi)
  managed hall := h'.managed (h.managed hall)

theorem Own.congr (h : Own m m' live dir managed c S) (hS : ∀ a, S' a ↔ S a) : Own m m' live dir managed c S' := by
  obtain rfl : S' = S := funext fun a => propext (hS a)
  exact h

/-! ### The pages of the message -/

/-- One page of the message. -/
def messageRound (parentDir pgDir va : ℕ) (m : Allocators) : Allocators :=
  let oldPa := vir2phy m.space.word parentDir va
  let (m, newPa) := m.pageAlloc
  let m := m.mapSpace fun m => (m.copyPage newPa oldPa).decreasePageRef oldPa
  let oldPgTab := pageOf (m.space.word (pgDir + 4 * dirIndex va))
  let m := m.mapSpace fun m => m.decreasePageRef oldPgTab
  let (m, pgTab) := m.pageAlloc
  let m := m.mapSpace fun m => (m.copyPage pgTab oldPgTab).store (pgDir + 4 * dirIndex va)
    (pgTab ||| pgPresent ||| pgUser ||| pgWritable)
  m.mapSpace fun m => m.store (getPte m.word pgDir va) (newPa ||| pgPresent ||| pgUser ||| pgWritable)

theorem copyMessage_succ (parentDir pgDir last fuel : ℕ) : copyMessage parentDir pgDir last (fuel + 1) = fun va m =>
    if va ≤ last then copyMessage parentDir pgDir last fuel (nextPage va) (messageRound parentDir pgDir va m)
    else some m := rfl

theorem copyMessage_step {parentDir pgDir last fuel : ℕ} (m : Allocators) (h : va ≤ last) :
    copyMessage parentDir pgDir last (fuel + 1) va m =
      copyMessage parentDir pgDir last fuel (nextPage va) (messageRound parentDir pgDir va m) := by
  rw [copyMessage_succ]
  exact if_pos h

theorem copyMessage_done {parentDir pgDir last fuel : ℕ} (m : Allocators) (h : ¬ va ≤ last) :
    copyMessage parentDir pgDir last (fuel + 1) va m = some m := by
  rw [copyMessage_succ]
  exact if_neg h

theorem pgAll_eq (f : ℕ) : f ||| pgPresent ||| pgUser ||| pgWritable = f ||| pgAll := by
  rw [pgAll, Nat.or_assoc, Nat.or_assoc, Nat.or_assoc]

theorem answers_decreasePageRef : (m.decreasePageRef f).answers = m.answers := rfl

/-- The page of the message that is copied is the child's in the end, in a page table of the child's. -/
theorem messageRound_spec {s : Allocators} (acc : Accounts s.space live dir managed) (hc : c ∈ live)
    (hva : va < 2 ^ 32) (hpage : va % 0x1000 = 0) {parentDir : ℕ} (he : entryOf s.space.word (dir c) va = some e)
    (hman : managed (pageOf e))
    (hparent : (entryOf s.space.word parentDir va).map pageOf = some (pageOf e)) {rest : List PAddr}
    (hanswers : s.space.answers = f :: g :: rest) :
    Own s.space (messageRound parentDir (dir c) va s).space live dir managed c (fun a => pageOf a = va) ∧
      (messageRound parentDir (dir c) va s).space.answers = rest := by
  obtain ⟨t, ht, rfl, hpresent⟩ := entryOf_eq_some he
  set m := s.space with hm
  set old := pageOf (m.word (t + 4 * tabIndex va)) with hold
  have hmaps : MapsFrame m.word (dir c) old := mapsFrame_of_present hva ht hpresent hold.symm
  have hout := acc.pages_apart c hc old hmaps
  have hdir := acc.directory c hc
  obtain ⟨husable, hf0, hmanaged, hne, hft, houts, hfresh⟩ := acc.answer hc hva ht hpresent hold.symm hman
    (f := f) (by rw [hanswers]; exact List.mem_cons_self)
  obtain ⟨husable', hg0, -, -, hgt, houts', hfresh'⟩ := acc.answer hc hva ht hpresent hold.symm hman
    (f := g) (by rw [hanswers]; exact List.mem_cons_of_mem f List.mem_cons_self)
  have hhead : m.answers.headD 0 = f := by rw [hanswers]; rfl
  have hof : old % 0x1000 = 0 := pageOf_mod
  have ho32 : old < 2 ^ 32 := pageOf_word_lt
  -- the data, and then the page table
  set m₁ := (m.pageAlloc.1.copyPage m.pageAlloc.2 old).decreasePageRef old with hm₁
  have hcopied : Copied m m₁ old f := by
    have hcopy := copied_page (m := m) hof ho32 (by rw [hhead]; exact husable.frame) (by rw [hhead]; exact husable.lt)
      (by rw [hhead]; exact hne)
    rwa [hhead] at hcopy
  have hsecond : m₁.answers.headD 0 = g := by rw [hcopied.answers, hanswers]; rfl
  have ht₁ : tableOf m₁.word (dir c) (dirIndex va) = some t :=
    (hcopied.table_eq husable.frame hdir.frame husable.outside.1 dirIndex_lt).trans ht
  set m₂ := (m₁.decreasePageRef t).pageAlloc.1.copyPage (m₁.decreasePageRef t).pageAlloc.2 t with hm₂
  have hcopied₂ : Copied m₁ m₂ t g := by
    have hcopy := copied_table (m := m₁) (tableOf_frame ht) (tableOf_lt ht) (by rw [hsecond]; exact husable'.frame)
      (by rw [hsecond]; exact husable'.lt)
    rwa [hsecond] at hcopy
  have hnodup := acc.nodup
  rw [hanswers] at hnodup
  obtain ⟨hf, hnodup'⟩ := List.nodup_cons.mp hnodup
  have hgf : g ≠ f := fun heq => hf (heq ▸ List.mem_cons_self)
  have hgranted := granted_shared hdir ht husable hcopied husable' hgf hcopied₂
  have hrest : m₂.answers = rest := by
    rw [hcopied₂.answers, hcopied.answers, hanswers]
    rfl
  -- what the code computes
  have hphys : vir2phy m.word parentDir va = old := by
    obtain ⟨e', he', hpage'⟩ := Option.map_eq_some_iff.mp hparent
    obtain ⟨u, hu, rfl, -⟩ := entryOf_eq_some he'
    rw [vir2phy_page hu hpage, frameAt, pteOf_eq hu, hpage']
  have htab : pageOf (m₁.word (dir c + 4 * dirIndex va)) = t := (tableOf_eq_some ht₁).2.2
  have hf₁ : m.pageAlloc.2 = f := by
    rw [pageAlloc_page]
    exact hhead
  have hg₁ : (m₁.decreasePageRef t).pageAlloc.2 = g := by
    rw [pageAlloc_page, answers_decreasePageRef]
    exact hsecond
  have hspace : (messageRound parentDir (dir c) va s).space =
      (m₂.store (dir c + 4 * dirIndex va) (g ||| pgAll)).store (g + 4 * tabIndex va) (f ||| pgAll) := by
    have hfirst : (messageRound parentDir (dir c) va s).space = (m₂.store (dir c + 4 * dirIndex va)
        ((m₁.decreasePageRef t).pageAlloc.2 ||| pgPresent ||| pgUser ||| pgWritable)).store
          (getPte (m₂.store (dir c + 4 * dirIndex va)
            ((m₁.decreasePageRef t).pageAlloc.2 ||| pgPresent ||| pgUser ||| pgWritable)).word (dir c) va)
          (m.pageAlloc.2 ||| pgPresent ||| pgUser ||| pgWritable) := by
      rw [hm₂, ← htab, hm₁, ← hphys]
      rfl
    rw [hfirst, hg₁, hf₁, pgAll_eq, pgAll_eq, getPte_eq (tableOf_ownEntry va hdir.frame husable'.frame husable'.lt)]
  clear_value m₁ m₂
  have hturn : Turn m (messageRound parentDir (dir c) va s).space live dir managed c va old t f g (f ||| pgAll) := by
    rw [hspace]
    exact {
      mem := hc
      lt := hva
      table := ht
      entry := entryOf_of_present ht hpresent
      page := hold.symm
      managed_old := hman
      granted := hgranted
      frame_lt := husable.lt
      managed_new := hmanaged
      frame_alone := fun q hq hq' => absurd hq' (hfresh q hq)
      frame_outside := houts
      frame_count := hgranted.alone hf0
      table_alone := fun q hq hq' => absurd hq' (outside_iff.mp (houts' q hq)).2
      table_dir := fun q hq => (houts' q hq).1
      table_page := hfresh'
      table_ne_null := hg0
      table_ne_frame := hgf
      answers := by
        show m₂.answers.Sublist m.answers
        rw [hrest, hanswers]
        exact (List.sublist_cons_self g rest).trans (List.sublist_cons_self f _)
      taken := by
        show f ∉ m₂.answers ∧ g ∉ m₂.answers
        rw [hrest]
        exact ⟨fun hmem => hf (List.mem_cons_of_mem g hmem), (List.nodup_cons.mp hnodup').1⟩ }
  refine ⟨(hturn.toOwn acc).congr fun a => ?_, ?_⟩
  · rw [show pageOf va = va by rw [pageOf]; omega]
  · rw [hspace]
    exact hrest

theorem exists_two {l : List PAddr} (h : 2 ≤ l.length) : ∃ f g rest, l = f :: g :: rest := by
  obtain ⟨f, l', rfl⟩ := List.exists_cons_of_length_pos (show 0 < l.length by omega)
  rw [List.length_cons] at h
  obtain ⟨g, rest, rfl⟩ := List.exists_cons_of_length_pos (show 0 < l'.length by omega)
  exact ⟨f, g, rest, rfl⟩

/-- **The pages of the message**, by induction on how many are still to come. -/
theorem copyMessage_spec (n : ℕ) (hp : p ∈ live) (hc : c ∈ live) (hpc : p ≠ c) {last : ℕ} :
    ∀ (s : Allocators) (va : ℕ), Accounts s.space live dir managed → va % 0x1000 = 0 → last = va + n * 0x1000 →
      last + 0x1000 < 2 ^ 32 → (∀ q ∈ live, ∀ f, MapsFrame s.space.word (dir q) f → managed f) →
      (∀ a, va ≤ a → a < last + 0x1000 → (entryOf s.space.word (dir c) a).isSome ∧
        (entryOf s.space.word (dir p) a).map pageOf = (entryOf s.space.word (dir c) a).map pageOf) →
      2 * (n + 1) ≤ s.space.answers.length →
      ∃ s', (∀ fuel ≥ n + 2, copyMessage (dir p) (dir c) last fuel va s = some s') ∧
        Own s.space s'.space live dir managed c fun a => va ≤ a ∧ a < last + 0x1000 := by
  induction n with
  | zero =>
    intro s va acc hva hlast hlt hall hpages hroom
    obtain ⟨f, g, rest, hanswers⟩ := exists_two (show 2 ≤ s.space.answers.length by omega)
    obtain ⟨hsome, hsame⟩ := hpages va (Nat.le_refl va) (by omega)
    obtain ⟨e, he⟩ := Option.isSome_iff_exists.mp hsome
    rw [he, Option.map_some] at hsame
    have hman := hall c hc (pageOf e) ⟨va, by omega, e, he, rfl⟩
    obtain ⟨hown, -⟩ := messageRound_spec acc hc (by omega) hva he hman hsame hanswers
    refine ⟨_, fun fuel hfuel => ?_, hown.congr fun a => ?_⟩
    · obtain ⟨k, rfl⟩ : ∃ k, fuel = k + 2 := ⟨fuel - 2, by omega⟩
      rw [copyMessage_step s (by omega), nextPage_eq (by omega), copyMessage_done _ (by omega)]
    · rw [pageOf]
      omega
  | succ n ih =>
    intro s va acc hva hlast hlt hall hpages hroom
    obtain ⟨f, g, rest, hanswers⟩ := exists_two (show 2 ≤ s.space.answers.length by omega)
    obtain ⟨hsome, hsame⟩ := hpages va (Nat.le_refl va) (by omega)
    obtain ⟨e, he⟩ := Option.isSome_iff_exists.mp hsome
    rw [he, Option.map_some] at hsame
    have hman := hall c hc (pageOf e) ⟨va, by omega, e, he, rfl⟩
    obtain ⟨hown, hrest⟩ := messageRound_spec acc hc (by omega) hva he hman hsame hanswers
    have hlength : rest.length + 2 = s.space.answers.length := by rw [hanswers]; rfl
    obtain ⟨s', hrun, hlater⟩ := ih (messageRound (dir p) (dir c) va s) (va + 0x1000) hown.accounts
      (by omega) (by omega) hlt (hown.managed hall) (fun a hlo hhi => by
        have hnot : pageOf a ≠ va := by
          rw [pageOf]
          omega
        rw [hown.same a (by omega) hnot, hown.others p hp hpc a]
        exact hpages a (by omega) hhi) (by rw [hrest]; omega)
    refine ⟨s', fun fuel hfuel => ?_, (hown.trans hlater).congr fun a => ?_⟩
    · obtain ⟨k, rfl⟩ : ∃ k, fuel = k + 1 := ⟨fuel - 1, by omega⟩
      rw [copyMessage_step s (by omega), nextPage_eq (by omega)]
      exact hrun k (by omega)
    · rw [pageOf]
      omega

/-! ### The copy -/

/-- The pages that are copied for a message at `va`. -/
def messagePages (va : ℕ) : ℕ := if 0xFFF - va % 0x1000 < ForkProc.sizeofMessage then 2 else 1

/-- An address of the pages of the message. -/
def OfMessage (proc : Process) (a : ℕ) : Prop :=
  proc.pMsg ≠ 0 ∧ pageOf proc.pMsg ≤ a ∧ a < pageOf proc.pMsg + messagePages proc.pMsg * 0x1000

/-- The pages of the message are pages of the process. -/
structure MessageIn (word : ℕ → ℕ) (proc : Process) : Prop where
  mapped : ∀ a, OfMessage proc a → (entryOf word proc.pageDir a).isSome
  end_lt : proc.pMsg ≠ 0 → pageOf proc.pMsg + messagePages proc.pMsg * 0x1000 < 2 ^ 32

/-- What `copy_parent` does, in three parts. -/
theorem copyParent_eq (fuel : ℕ) (proc : Process) (s : Allocators) : copyParent fuel proc s =
    let r := s.createPageDir pgWritable
    let s := r.1.mapSpace fun m => (ranges proc).foldl (fun m R => R.share proc.pageDir r.2 m) m
    if proc.pMsg = 0 then some (s, r.2)
    else (copyMessage proc.pageDir r.2 (pageOf ((pageOf proc.pMsg + messagePages proc.pMsg * 0x1000 - 1) % 2 ^ 32))
      fuel (pageOf proc.pMsg) s).map fun s => (s, r.2) := by
  cases h : proc.progInfo with
  | none =>
    simp only [copyParent, ranges, h]
    rfl
  | some info =>
    simp only [copyParent, ranges, h]
    rfl

/-- The child `c` of `p` with the page directory `d` is there: it has what the parent has, in pages that both can
only read, but for those of the message, which are its own; and nobody else notices. -/
structure ChildOf (m m' : Space) (live : Finset ℕ) (dir : ℕ → ℕ) (managed : ℕ → Prop) (p c d : ℕ) (S : ℕ → Prop) :
    Prop where
  accounts : Accounts m' (insert c live) (Function.update dir c d) managed
  sealed : Sealed m live dir → Sealed m' (insert c live) (Function.update dir c d)
  managed : ∀ q ∈ insert c live, ∀ f, MapsFrame m'.word (Function.update dir c d q) f → managed f
  views : ∀ q ∈ live, ∀ a < 2 ^ 32, view m' (dir q) a = view m (dir q) a
  child : ∀ a < 2 ^ 32, view m' d a = view m (dir p) a
  parent_readonly : ∀ a < 2 ^ 32, ∀ e, entryOf m'.word (dir p) a = some e → writable e = false
  readonly : ∀ a < 2 ^ 32, ¬ S a → ∀ e, entryOf m'.word d a = some e → writable e = false
  message : ∀ a < 2 ^ 32, S a → ∃ e, entryOf m'.word d a = some e ∧ writable e = true
  present : ∀ q ∈ live, ∀ a < 2 ^ 32, (entryOf m'.word (dir q) a).isSome = (entryOf m.word (dir q) a).isSome
  child_present : ∀ a < 2 ^ 32, (entryOf m'.word d a).isSome = (entryOf m.word (dir p) a).isSome
  tables : ∀ q ∈ live, ∀ i < 1024, (tableOf m'.word (dir q) i).isSome = (tableOf m.word (dir q) i).isSome
  child_tables : ∀ i < 1024, (tableOf m'.word d i).isSome = (tableOf m.word (dir p) i).isSome

theorem Own.refl (acc : Accounts m live dir managed) : Own m m live dir managed c fun _ => False where
  accounts := acc
  sealed hs := hs
  views _ _ _ _ := rfl
  others _ _ _ _ := rfl
  same _ _ _ := rfl
  own _ _ hS := hS.elim
  present _ _ _ _ := rfl
  tables _ _ _ _ := rfl
  managed hall := hall

/-- The parts put together. -/
theorem ChildOf.of_parts {m₀ m₁ : Space} {S : ℕ → Prop} (hp : p ∈ live) (hc : c ∉ live)
    (hfirst : ∀ q ∈ live, Leads m m₀ (dir q) (dir q))
    (hbytes : ∀ q ∈ live, ∀ f, MapsFrame m.word (dir q) f → AgreeOn m₀.bytes m.bytes f 0x1000)
    (hall : ∀ q ∈ live, ∀ f, MapsFrame m.word (dir q) f → managed f)
    (hsealed : Sealed m live dir → Sealed m₀ live dir) (hfork : Forked m₀ m₁ live dir managed p c d)
    (hown : Own m₁ m' (insert c live) (Function.update dir c d) managed c S) :
    ChildOf m m' live dir managed p c d S := by
  have hne : ∀ q ∈ live, q ≠ c := fun q hq he => hc (he ▸ hq)
  have hdir : ∀ q ∈ live, Function.update dir c d q = dir q := fun q hq => Function.update_of_ne (hne q hq) _ _
  have hself : Function.update dir c d c = d := Function.update_self _ _ _
  have hlive : ∀ q ∈ live, q ∈ insert c live := fun q hq => Finset.mem_insert_of_mem hq
  have hview₀ : ∀ q ∈ live, ∀ a < 2 ^ 32, view m₀ (dir q) a = view m (dir q) a := fun q hq a ha =>
    (hfirst q hq).view ha (hbytes q hq)
  have hview₁ : ∀ q ∈ live, ∀ a < 2 ^ 32, view m₁ (dir q) a = view m₀ (dir q) a := fun q hq a ha =>
    (hfork.lead q hq).view ha (hfork.bytes q hq)
  have hviewChild : ∀ a < 2 ^ 32, view m₁ d a = view m₀ (dir p) a := fun a ha =>
    hfork.child.view ha (hfork.bytes p hp)
  have hothers : ∀ q ∈ live, ∀ a, entryOf m'.word (dir q) a = entryOf m₁.word (dir q) a := by
    intro q hq a
    have hentry := hown.others q (hlive q hq) (hne q hq) a
    rwa [hdir q hq] at hentry
  constructor
  case accounts => exact hown.accounts
  case sealed => exact fun hs => hown.sealed (hfork.sealed hp hc (hsealed hs))
  case managed =>
    refine hown.managed fun q hq f hf => ?_
    by_cases he : q = c
    · rw [he, hself, hfork.child.mapsFrame, (hfirst p hp).mapsFrame] at hf
      exact hall p hp f hf
    · have hq' := (Finset.mem_insert.mp hq).resolve_left he
      rw [hdir q hq', (hfork.lead q hq').mapsFrame, (hfirst q hq').mapsFrame] at hf
      exact hall q hq' f hf
  case views =>
    intro q hq a ha
    have hlast := hown.views q (hlive q hq) a ha
    rw [hdir q hq] at hlast
    rw [hlast, hview₁ q hq a ha, hview₀ q hq a ha]
  case child =>
    intro a ha
    have hlast := hown.views c (Finset.mem_insert_self c live) a ha
    rw [hself] at hlast
    rw [hlast, hviewChild a ha, hview₀ p hp a ha]
  case parent_readonly =>
    intro a ha e he
    rw [hothers p hp a] at he
    exact hfork.cleared a ha e he
  case readonly =>
    intro a ha hS e he
    have hsame := hown.same a ha hS
    rw [hself] at hsame
    rw [hsame, hfork.same a] at he
    exact hfork.cleared a ha e he
  case message =>
    intro a ha hS
    have hmine := hown.own a ha hS
    rwa [hself] at hmine
  case present =>
    intro q hq a ha
    have hlast := hown.present q (hlive q hq) a ha
    rw [hdir q hq] at hlast
    rw [hlast, (hfork.lead q hq).isSome ha, (hfirst q hq).isSome ha]
  case child_present =>
    intro a ha
    have hlast := hown.present c (Finset.mem_insert_self c live) a ha
    rw [hself] at hlast
    rw [hlast, hfork.child.isSome ha, (hfirst p hp).isSome ha]
  case tables =>
    intro q hq i hi
    have hlast := hown.tables q (hlive q hq) i hi
    rw [hdir q hq] at hlast
    rw [hlast, (hfork.lead q hq).tables i hi, (hfirst q hq).tables i hi]
  case child_tables =>
    intro i hi
    have hlast := hown.tables c (Finset.mem_insert_self c live) i hi
    rw [hself] at hlast
    rw [hlast, hfork.child.tables i hi, (hfirst p hp).tables i hi]

/-- What the tables and the pages of a process say of its ranges. -/
theorem Regular.congr {word word' : ℕ → ℕ} {proc proc' : Process} (h : Regular word proc)
    (hranges : ranges proc' = ranges proc)
    (htables : ∀ i < 1024, (tableOf word' proc'.pageDir i).isSome = (tableOf word proc.pageDir i).isSome)
    (hpages : ∀ a < 2 ^ 32, (entryOf word' proc'.pageDir a).isSome = (entryOf word proc.pageDir a).isSome) :
    Regular word' proc' where
  ranged := by
    rw [hranges]
    refine ⟨fun R hR => ?_, h.ranged.apart⟩
    have hmapped := h.ranged.mapped R hR
    have hend := hmapped.end_le
    have hlast := hmapped.last_le
    exact
      { hmapped with
        tables := fun j hj => (htables j (by omega)).trans (hmapped.tables j hj)
        pages := fun a ha => (hpages a (by omega)).trans (hmapped.pages a ha) }
  tables i hi hsome := by
    rw [hranges]
    exact h.tables i hi ((htables i hi).symm.trans hsome)
  pages a ha hsome := by
    rw [hranges]
    exact h.pages a ha ((hpages a ha).symm.trans hsome)

/-- **The copy of a parent.** -/
theorem copyParent_spec {s : Allocators} {proc : Process} (acc : Accounts s.space live dir managed)
    (hall : ∀ q ∈ live, ∀ f, MapsFrame s.space.word (dir q) f → managed f) (hp : p ∈ live) (hc : c ∉ live)
    (hdir : proc.pageDir = dir p) (hreg : Regular s.space.word proc) (hmsg : MessageIn s.space.word proc)
    (hroom : 5 ≤ s.space.answers.length) : ∃ s' d, (∀ fuel ≥ 3, copyParent fuel proc s = some (s', d)) ∧
      ChildOf s.space s'.space live dir managed p c d (OfMessage proc) := by
  obtain ⟨d, rest, hanswers⟩ := List.exists_cons_of_length_pos (show 0 < s.space.answers.length by omega)
  obtain ⟨hd, acc₀, hnew, hrest, hfirst⟩ := acc.createPageDir hanswers
  set m₀ := (PageTables.createPageDir s.space pgWritable).1 with hm₀
  have hreg₀ : Regular m₀.word proc := by
    refine hreg.congr rfl (fun i hi => ?_) fun a ha => ?_
    · rw [hdir, (hfirst p hp).1.tables i hi]
    · rw [hdir, (hfirst p hp).2.1 a]
  have hfork := acc₀.share hp hc hdir hreg₀ hnew
  set m₁ := (ranges proc).foldl (fun m R => R.share proc.pageDir d m) m₀ with hm₁
  have hpc : p ≠ c := fun he => hc (he ▸ hp)
  have hself : Function.update dir c d c = d := Function.update_self _ _ _
  have hparent : Function.update dir c d p = dir p := Function.update_of_ne hpc _ _
  have hseal : Sealed s.space live dir → Sealed m₀ live dir := by
    intro hs q hq a ha e he hwritable r hr hmaps
    rw [(hfirst q hq).2.1 a] at he
    exact hs q hq a ha e he hwritable r hr ((hfirst r hr).1.mapsFrame.mp hmaps)
  have hdone : ∀ {m' : Space} {S : ℕ → Prop}, Own m₁ m' (insert c live) (Function.update dir c d) managed c S →
      ChildOf s.space m' live dir managed p c d S := fun hown =>
    .of_parts hp hc (fun q hq => (hfirst q hq).1) (fun q hq => (hfirst q hq).2.2) hall hseal hfork hown
  set s₁ := ({ (s.createPageDir pgWritable).1 with space := m₁ } : Allocators) with hs₁
  have hcall : ∀ fuel, copyParent fuel proc s = if proc.pMsg = 0 then some (s₁, d)
      else (copyMessage proc.pageDir d (pageOf ((pageOf proc.pMsg + messagePages proc.pMsg * 0x1000 - 1) % 2 ^ 32))
        fuel (pageOf proc.pMsg) s₁).map fun s => (s, d) := by
    intro fuel
    have hpage : (s.createPageDir pgWritable).2 = d := hd
    rw [copyParent_eq, hs₁, hm₁, hm₀]
    simp only [hpage]
    rfl
  by_cases hnull : proc.pMsg = 0
  · refine ⟨s₁, d, fun fuel _ => ?_, hdone ((Own.refl hfork.accounts).congr fun a => ?_)⟩
    · rw [hcall, if_pos hnull]
    · exact ⟨fun hof => hof.1 hnull, False.elim⟩
  · have hlt := hmsg.end_lt hnull
    obtain ⟨n, hn, hn2⟩ : ∃ n, messagePages proc.pMsg = n + 1 ∧ n ≤ 1 := by
      rw [messagePages]
      split
      · exact ⟨1, rfl, Nat.le_refl 1⟩
      · exact ⟨0, rfl, Nat.zero_le 1⟩
    rw [hn] at hlt
    have hpage : pageOf proc.pMsg % 0x1000 = 0 := pageOf_mod
    have hlast : pageOf ((pageOf proc.pMsg + (n + 1) * 0x1000 - 1) % 2 ^ 32) = pageOf proc.pMsg + n * 0x1000 := by
      rw [Nat.mod_eq_of_lt (by omega)]
      generalize pageOf proc.pMsg = x at hpage hlt ⊢
      rw [pageOf]
      omega
    have hlength : rest.length + 1 = s.space.answers.length := by rw [hanswers]; rfl
    have hmanaged : ∀ q ∈ insert c live, ∀ f, MapsFrame m₁.word (Function.update dir c d q) f → managed f :=
      (hdone (Own.refl hfork.accounts)).managed
    obtain ⟨s', hrun, hown⟩ := copyMessage_spec n (Finset.mem_insert_of_mem hp)
      (Finset.mem_insert_self c live) hpc s₁ (pageOf proc.pMsg) hfork.accounts hpage rfl (by omega) hmanaged
      (fun a hlo hhi => by
        rw [hself, hparent, hfork.same a]
        refine ⟨?_, rfl⟩
        show (entryOf m₁.word (dir p) a).isSome = true
        rw [(hfork.lead p hp).isSome (by omega), (hfirst p hp).2.1 a, ← hdir]
        exact hmsg.mapped a ⟨hnull, hlo, by rw [hn]; omega⟩)
      (by show 2 * (n + 1) ≤ m₁.answers.length; rw [hfork.answers, hrest]; omega)
    rw [hself, hparent] at hrun
    refine ⟨s', d, fun fuel hfuel => ?_, hdone (hown.congr fun a => ?_)⟩
    · rw [hcall, if_neg hnull, hn, hlast, hdir, hrun fuel (by omega), Option.map_some]
    · rw [OfMessage, hn]
      constructor
      · exact fun hof => ⟨hof.2.1, by omega⟩
      · exact fun hof => ⟨hnull, hof.1, by omega⟩

end OmochaOS.PageTables
