import OmochaOS.Systask.Replies
import OmochaOS.Core.Paging

/-!
# Where `QUERY_ENV` stores its answer (`modules/systask/systask.c`)

The larger answers of `QUERY_ENV` go to a buffer of the sender.  SysTask asks `vir2phy` for the first byte
of it and stores the answer from there on, in its own address space.  `storesAllowed_iff` says when these
are the bytes that the sender may write itself.
-/

namespace OmochaOS.Systask

open Paging

variable {env : CoreEnv} {msg : Message} {b : Build} {word : PAddr → ℕ} {fuel i v : ℕ} {r : Served}

/-- The page directories are those in memory. -/
def CoreEnv.withPages (env : CoreEnv) (word : PAddr → ℕ) : CoreEnv :=
  { env with kernel := { env.kernel with vir2phy := vir2phy word } }

/-- The places of a list up to the first that is nowhere. -/
def untilNone (f : ℕ → Option PAddr) : List ℕ → List (ℕ × PAddr)
  | [] => []
  | i :: rest =>
    match f i with
    | none => []
    | some a => (i, a) :: untilNone f rest

/-- The stores at the offsets given, up to the first that SysTask cannot reach: the offset, and the
physical byte. -/
def reached (env : CoreEnv) (buf : ℕ) (offsets : List ℕ) : List (ℕ × PAddr) :=
  untilNone (fun i => systaskPhy env ((buf + i) % 2 ^ 32)) offsets

/-- What `QUERY_ENV` stores. -/
def written (env : CoreEnv) (msg : Message) : List (ℕ × PAddr) :=
  if msg.data.d2 < envSize env msg.major then []
  else reached env (bufOf env msg) (envOffsets env msg.major)

/-- Every byte that is stored is one of the buffer, where the sender may write itself. -/
def StoresAllowed (env : CoreEnv) (word : PAddr → ℕ) (msg : Message) : Prop :=
  ∀ x ∈ written env msg, x.1 < msg.data.d2 ∧
    userWritable word (env.kernel.pageDir msg.sender) (msg.data.d1 + x.1) = some x.2

/-- The condition: the buffer is too small for the answer, or each page of it that is stored to is
mapped for the sender to write, and where SysTask gets from the page that `vir2phy` has found for the
first, as many pages on. -/
def PagesFollow (env : CoreEnv) (word : PAddr → ℕ) (msg : Message) : Prop :=
  envSize env msg.major ≤ msg.data.d2 →
    ∀ x ∈ reached env (bufOf env msg) (envOffsets env msg.major),
      userWritable word (env.kernel.pageDir msg.sender) (pageOf (msg.data.d1 + x.1)) =
        systaskPhy env ((pageOf (bufOf env msg) + (pageOf (msg.data.d1 + x.1) - pageOf msg.data.d1)) %
          2 ^ 32)

/-! ### Pages of SysTask -/

/-- SysTask's own page directory goes by pages too. -/
theorem systaskPhy_pageOf :
    systaskPhy env v = (systaskPhy env (pageOf v)).map fun a => a + v % 2 ^ 12 := by
  have hv : v = pageOf v + v % 2 ^ 12 := by
    rw [pageOf]
    omega
  have hlow : v < extPgSize * (env.memoryEnd / extPgSize + 1) ↔
      pageOf v < extPgSize * (env.memoryEnd / extPgSize + 1) := by
    rw [pageOf, extPgSize]
    omega
  have hbase : v < ProcTable.kernBase ↔ pageOf v < ProcTable.kernBase := by
    rw [pageOf, ProcTable.kernBase]
    omega
  have hend : v < coreSpaceEnd ↔ pageOf v < coreSpaceEnd := by
    rw [pageOf, coreSpaceEnd]
    omega
  simp only [systaskPhy, ← hlow, ← hbase, ← hend]
  split
  · rw [Option.map_some, ← hv]
  · split
    · rfl
    · rename_i hge
      split
      · have hge' : ProcTable.kernBase ≤ pageOf v := Nat.le_of_not_lt fun h => hge (hbase.mpr h)
        have hsub : v - ProcTable.kernBase = pageOf v - ProcTable.kernBase + v % 2 ^ 12 := by omega
        rw [Option.map_some, hsub]
      · rw [Option.map_some, ← hv]

/-! ### The stores -/

theorem mem_untilNone {f : ℕ → Option PAddr} {l : List ℕ} {x : ℕ × PAddr} (hx : x ∈ untilNone f l) :
    x.1 ∈ l ∧ f x.1 = some x.2 := by
  induction l with
  | nil => cases hx
  | cons i rest ih =>
    rw [untilNone] at hx
    split at hx
    · cases hx
    · rename_i a ha
      rcases List.mem_cons.mp hx with rfl | hx
      · exact ⟨List.mem_cons_self, ha⟩
      · obtain ⟨hmem, hphy⟩ := ih hx
        exact ⟨List.mem_cons_of_mem i hmem, hphy⟩

/-- When anything is reached, the first is. -/
theorem untilNone_head {f : ℕ → Option PAddr} {i : ℕ} {rest : List ℕ} {x : ℕ × PAddr}
    (hx : x ∈ untilNone f (i :: rest)) : ∃ y ∈ untilNone f (i :: rest), y.1 = i := by
  rw [untilNone] at hx ⊢
  split at hx
  · cases hx
  · exact ⟨_, List.mem_cons_self, rfl⟩

theorem untilNone_of_forall {f : ℕ → Option PAddr} {l : List ℕ} (h : ∀ i ∈ l, f i ≠ none) :
    ((untilNone f l).map fun x => some x.2) = l.map f := by
  induction l with
  | nil => rfl
  | cons i rest ih =>
    obtain ⟨hi, hrest⟩ := List.forall_mem_cons.mp h
    rw [untilNone, List.map_cons]
    cases ha : f i with
    | none => exact absurd ha hi
    | some a =>
      show some a :: _ = _
      rw [ih hrest]

theorem systaskPhy_of_harmless (h : harmless env v = true) : systaskPhy env v ≠ none := by
  intro hnone
  rw [harmless, hnone] at h
  cases h

/-- All stores are reached when none of them does harm. -/
theorem reached_of_harmless {buf : ℕ} {offsets : List ℕ}
    (h : ∀ a ∈ stores buf offsets, harmless env a = true) :
    ((reached env buf offsets).map fun x => some x.2) =
      (stores buf offsets).map (systaskPhy env) := by
  have hall : ∀ i ∈ offsets, systaskPhy env ((buf + i) % 2 ^ 32) ≠ none :=
    fun i hi => systaskPhy_of_harmless (h _ (List.mem_map_of_mem hi))
  rw [reached, untilNone_of_forall hall, stores, List.map_map, Function.comp_def]

/-- **What the dispatcher stores** is what is written. -/
theorem written_of_serve (hreq : caseOf msg.type = some .queryEnv)
    (hr : serve b fuel env msg = some r) :
    r.stored.map (systaskPhy env) = (written env msg).map fun x => some x.2 := by
  rw [serve_eq hreq] at hr
  have hq : queryEnv b env msg = some r := hr
  rw [queryEnv_eq, answerStored_eq] at hq
  split at hq
  · split at hq
    · rename_i hsmall
      obtain rfl := Option.some.inj hq
      rw [written, if_pos hsmall]
      rfl
    · rename_i hsmall
      split at hq
      · rename_i hharmless
        obtain rfl := Option.some.inj hq
        rw [written, if_neg hsmall]
        exact (reached_of_harmless hharmless).symm
      · cases hq
  · rename_i hkey
    obtain rfl := Option.some.inj hq
    have hoffsets : envOffsets env msg.major = [] := by
      simp only [envKeys, List.mem_cons, List.not_mem_nil, or_false, not_or] at hkey
      simp [envOffsets, hkey]
    rw [written, hoffsets]
    split <;> rfl

/-! ### The bytes and the pages -/

theorem envOffsets_cases (env : CoreEnv) (key : ℕ) :
    (envOffsets env key = List.range (envSize env key)) ∨
      (envOffsets env key = memoryUsageOffsets ∧ envSize env key = memoryUsageSize) ∨
      envOffsets env key = [] := by
  unfold envOffsets envSize
  split
  · exact Or.inl rfl
  · split
    · exact Or.inl rfl
    · split
      · exact Or.inr (Or.inl ⟨rfl, rfl⟩)
      · exact Or.inr (Or.inr rfl)

theorem envOffsets_lt {key : ℕ} (hi : i ∈ envOffsets env key) : i < envSize env key := by
  rcases envOffsets_cases env key with h | ⟨h, hsize⟩ | h
  · rw [h] at hi
    exact List.mem_range.mp hi
  · have hall : ∀ j ∈ memoryUsageOffsets, j < memoryUsageSize := by decide
    rw [h] at hi
    rw [hsize]
    exact hall i hi
  · rw [h] at hi
    cases hi

/-- The first byte is stored first. -/
theorem envOffsets_head {key : ℕ} (hi : i ∈ envOffsets env key) :
    ∃ rest, envOffsets env key = 0 :: rest := by
  rcases envOffsets_cases env key with h | ⟨h, -⟩ | h
  · rw [h] at hi ⊢
    obtain ⟨m, hm⟩ : ∃ m, envSize env key = m + 1 := by
      have hlt := List.mem_range.mp hi
      exact ⟨envSize env key - 1, by omega⟩
    rw [hm]
    exact ⟨_, List.range_succ_eq_map⟩
  · rw [h]
    exact ⟨_, rfl⟩
  · rw [h] at hi
    cases hi

/-- A byte is stored where the sender may write it when its page is. -/
theorem allowed_iff_page {pgDir va buf : ℕ} (hmod : buf % 2 ^ 12 = va % 2 ^ 12) :
    userWritable word pgDir (va + i) = systaskPhy env ((buf + i) % 2 ^ 32) ↔
      userWritable word pgDir (pageOf (va + i)) =
        systaskPhy env ((pageOf buf + (pageOf (va + i) - pageOf va)) % 2 ^ 32) := by
  have hlow : (buf + i) % 2 ^ 32 % 2 ^ 12 = (va + i) % 2 ^ 12 := by omega
  have hpage : pageOf ((buf + i) % 2 ^ 32) =
      (pageOf buf + (pageOf (va + i) - pageOf va)) % 2 ^ 32 := by
    simp only [pageOf]
    omega
  rw [userWritable_pageOf, systaskPhy_pageOf, hlow, hpage]
  exact (Option.map_injective (add_left_injective _)).eq_iff

theorem bufOf_withPages : bufOf (env.withPages word) msg =
    vir2phy word (env.kernel.pageDir msg.sender) msg.data.d1 := rfl

/-- The first byte has been stored when any has. -/
theorem reached_zero {x : ℕ × PAddr} {buf : ℕ} (hx : x ∈ reached env buf (envOffsets env msg.major)) :
    ∃ y ∈ reached env buf (envOffsets env msg.major), y.1 = 0 := by
  obtain ⟨rest, hrest⟩ := envOffsets_head (mem_untilNone hx).1
  rw [hrest] at hx ⊢
  exact untilNone_head hx

theorem mem_reached {x : ℕ × PAddr} {buf : ℕ} {offsets : List ℕ} (hx : x ∈ reached env buf offsets) :
    x.1 ∈ offsets ∧ systaskPhy env ((buf + x.1) % 2 ^ 32) = some x.2 :=
  mem_untilNone hx

/-- The page of the first byte is in a page directory entry that is there. -/
theorem page_present {pgDir va buf j : ℕ} (hj : j = 0)
    (hphy : systaskPhy env ((buf + j) % 2 ^ 32) = some i)
    (hpage : userWritable word pgDir (pageOf (va + j)) =
      systaskPhy env ((pageOf buf + (pageOf (va + j) - pageOf va)) % 2 ^ 32)) :
    present (pdeOf word pgDir va) = true := by
  have hframe : (pageOf buf + (pageOf (va + j) - pageOf va)) % 2 ^ 32 = pageOf ((buf + j) % 2 ^ 32) := by
    simp only [pageOf]
    omega
  rw [systaskPhy_pageOf] at hphy
  obtain ⟨a, ha, -⟩ := Option.map_eq_some_iff.mp hphy
  rw [hframe, ha, hj, Nat.add_zero] at hpage
  have hpresent := userWritable_present hpage
  rwa [pdeOf_pageOf] at hpresent

/-- **The stores are in the memory of the sender** exactly when its pages follow each other as SysTask
takes them to. -/
theorem storesAllowed_iff (env : CoreEnv) (word : PAddr → ℕ) (msg : Message) :
    StoresAllowed (env.withPages word) word msg ↔ PagesFollow (env.withPages word) word msg := by
  have hmod : present (pdeOf word (env.kernel.pageDir msg.sender) msg.data.d1) = true →
      bufOf (env.withPages word) msg % 2 ^ 12 = msg.data.d1 % 2 ^ 12 := by
    intro h
    rw [bufOf_withPages]
    exact vir2phy_mod h
  unfold StoresAllowed PagesFollow written
  constructor
  · intro hall hsize x hx
    rw [if_neg (Nat.not_lt.mpr hsize)] at hall
    -- the first byte is the sender's, so that `vir2phy` has found it
    obtain ⟨y, hy, hzero⟩ := reached_zero hx
    have hfirst := userWritable_present (hall y hy).2
    rw [hzero, Nat.add_zero] at hfirst
    have hbyte := (hall x hx).2.trans (mem_reached hx).2.symm
    exact (allowed_iff_page (hmod hfirst)).mp hbyte
  · intro hpages x hx
    split at hx
    · cases hx
    · rename_i hlarge
      have hsize := Nat.le_of_not_lt hlarge
      obtain ⟨hmem, hphy⟩ := mem_reached hx
      obtain ⟨y, hy, hzero⟩ := reached_zero hx
      have hfirst := page_present hzero (mem_reached hy).2 (hpages hsize y hy)
      have hbyte := (allowed_iff_page (hmod hfirst)).mpr (hpages hsize x hx)
      exact ⟨Nat.lt_of_lt_of_le (envOffsets_lt hmem) hsize, hbyte.trans hphy⟩

/-- Process 5 asks for the boot information at an address that its page directory, all zero, does not
map. -/
def demoQuery : Message :=
  { demoRequest 5 .queryEnv envKeyBootInfo with data := ⟨0x04000000, bootInfoSize, 0, 0⟩ }

/-- The answer is stored from physical address 0 on. -/
theorem queryEnv_stores_unmapped :
    (serve .configured 0 (demoEnv.withPages fun _ => 0) demoQuery).map Served.stored =
        some (List.range bootInfoSize) ∧
      ¬ StoresAllowed (demoEnv.withPages fun _ => 0) (fun _ => 0) demoQuery := by
  constructor
  · decide +kernel
  · intro h
    have hzero : (0, 0) ∈ written (demoEnv.withPages fun _ => 0) demoQuery := by decide +kernel
    cases (h (0, 0) hzero).2

end OmochaOS.Systask
