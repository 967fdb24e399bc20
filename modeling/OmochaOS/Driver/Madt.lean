import OmochaOS.Lib.ByteMemory
import OmochaOS.Lib.PointerWalk

/-!
# The I/O APIC in the MADT (`driver/apic.c`, `driver/acpi.c`)

`init_ioapic` takes the address of the I/O APIC from the ACPI table `APIC`.  The entries of the table
follow one another, each with its own length, and the loop goes on from entry to entry as long as one
begins inside the table.  Nothing is asked of the lengths.

Places in the table are counted from its start.
-/

namespace OmochaOS.Madt

open ByteMemory PointerWalk

/-! ### The table -/

/-- `header.Length`. -/
def tableLength (mem : Memory) (madt : ℕ) : ℕ := readWord mem (madt + 4)

/-- `ph->type`. -/
def entryType (mem : Memory) (madt ph : ℕ) : ℕ := (mem (madt + ph)).toNat

/-- `ph->length`. -/
def entryLength (mem : Memory) (madt ph : ℕ) : ℕ := (mem (madt + ph + 1)).toNat

/-- `ph->data.type1.IOAPIC_ADDR`. -/
def entryIoapicAddr (mem : Memory) (madt ph : ℕ) : ℕ := readWord mem (madt + ph + 4)

/-- `&madt->table_start`. -/
def tableStart : ℕ := 44

/-- `sizeof(struct ACPISDTHeader)`. -/
def sizeofSdtHeader : ℕ := 36

/-- `sdt_checksum`, 8 bits. -/
def sdtChecksum (mem : Memory) (p : ℕ) : ℕ :=
  ((List.range (tableLength mem p)).map fun i => (mem (p + i)).toNat).sum % 2 ^ 8

/-- `RSDT_TABLECOUNT`. -/
def rsdtTableCount (mem : Memory) (rsdt : ℕ) : ℕ :=
  (tableLength mem rsdt + 2 ^ 32 - sizeofSdtHeader) % 2 ^ 32 / 4

/-- `search_sdt`. -/
def searchSdt (mem : Memory) (rsdt : Option ℕ) (sig : List UInt8) : Option ℕ :=
  rsdt.bind fun rsdt =>
    ((List.range (rsdtTableCount mem rsdt)).map fun i => readWord mem (rsdt + sizeofSdtHeader + 4 * i)).find?
      fun ph => sdtChecksum mem ph = 0 ∧ (List.range 4).map (fun i => mem (ph + i)) = sig

/-- `"APIC"`. -/
def apicSignature : List UInt8 := [0x41, 0x50, 0x49, 0x43]

/-! ### `init_ioapic` -/

/-- The address that is taken when there is no entry. -/
def ioapicDefault : ℕ := 0xFEC00000

/-- `if (!ioapic_base)`. -/
def orDefault (base : ℕ) : ℕ := if base = 0 then ioapicDefault else base

/-- `ioapic_base`, and the entries that have been looked at. -/
structure Found where
  ioapicBase : ℕ
  entries : List ℕ

/-- The `switch` on the type of an entry. -/
def look (mem : Memory) (madt : ℕ) (found : Found) (ph : ℕ) : Found where
  ioapicBase :=
    if entryType mem madt ph = 1 then entryIoapicAddr mem madt ph else found.ioapicBase
  entries := found.entries ++ [ph]

/-- `ph + ph->length`. -/
def nextEntry (mem : Memory) (madt ph : ℕ) : ℕ := ph + entryLength mem madt ph

/-- Where the loop stops. -/
def Behind (mem : Memory) (madt ph : ℕ) : Prop := tableLength mem madt ≤ ph

instance (mem : Memory) (madt : ℕ) : DecidablePred (Behind mem madt) :=
  fun _ => inferInstanceAs (Decidable (_ ≤ _))

/-- The loop over the entries. -/
def madtLoop (mem : Memory) (madt fuel : ℕ) : Option Found :=
  walk (nextEntry mem madt) (Behind mem madt) (look mem madt) fuel tableStart ⟨0, []⟩

/-- `init_ioapic`, as far as `ioapic_base`; `acpi` is the status of the ACPI driver. -/
def initIoapic (mem : Memory) (rsdt : Option ℕ) (acpi fuel : ℕ) : Option Found :=
  if acpi = 0 then
    match searchSdt mem rsdt apicSignature with
    | some madt => (madtLoop mem madt fuel).map fun found =>
        { found with ioapicBase := orDefault found.ioapicBase }
    | none => some ⟨ioapicDefault, []⟩
  else some ⟨ioapicDefault, []⟩

/-! ### What the walk should do -/

variable {mem : Memory} {rsdt : Option ℕ} {madt ph base fuel : ℕ} {l l' : List ℕ}

/-- The entry is inside the table, with what is read of it: its header, and the address of an I/O APIC. -/
def Inside (mem : Memory) (madt ph : ℕ) : Prop :=
  ph + max (entryLength mem madt ph) (if entryType mem madt ph = 1 then 8 else 2) ≤ tableLength mem madt

instance : Decidable (Inside mem madt ph) := inferInstanceAs (Decidable (_ ≤ _))

/-- The entries end where the next one is not inside. -/
def Outside (mem : Memory) (madt ph : ℕ) : Prop := ¬ Inside mem madt ph

/-- The entries of a table: from its start on, as long as they are inside. -/
def Entries (mem : Memory) (madt : ℕ) : List ℕ → Prop :=
  Trail (nextEntry mem madt) (Outside mem madt) tableStart

/-- The last entry of an I/O APIC. -/
def lastIoapic (mem : Memory) (madt : ℕ) (l : List ℕ) : Option ℕ :=
  (l.filter fun ph => entryType mem madt ph = 1).getLast?

/-- The loop ends, looks at entries inside the table only, and takes the last address. -/
def WalksTable (mem : Memory) (rsdt : Option ℕ) (madt : ℕ) : Prop :=
  ∃ fuel found, initIoapic mem rsdt 0 fuel = some found ∧ (∀ ph ∈ found.entries, Inside mem madt ph) ∧
    ∃ l, Entries mem madt l ∧
      found.ioapicBase = ((lastIoapic mem madt l).map (entryIoapicAddr mem madt)).getD ioapicDefault

/-- The entries fill the table: the next one begins where one ends, up to the end of the table. -/
inductive Tiled (mem : Memory) (madt : ℕ) : ℕ → List ℕ → Prop
  | stop {ph : ℕ} (hend : tableLength mem madt ≤ ph) : Tiled mem madt ph []
  | entry {ph : ℕ} {l : List ℕ} (hin : Inside mem madt ph) (hlen : entryLength mem madt ph ≠ 0)
      (hrest : Tiled mem madt (nextEntry mem madt ph) l) : Tiled mem madt ph (ph :: l)

/-- The condition: the entries fill the table, and the last address is not 0. -/
def WellFormed (mem : Memory) (madt : ℕ) : Prop :=
  ∃ l, Tiled mem madt tableStart l ∧
    ∀ ph, lastIoapic mem madt l = some ph → entryIoapicAddr mem madt ph ≠ 0

/-! ### Entries and trails -/

theorem Inside.lt (h : Inside mem madt ph) : ph < tableLength mem madt := by
  have htwo : 2 ≤ if entryType mem madt ph = 1 then 8 else 2 := by
    split
    · decide
    · exact Nat.le_refl 2
  have hmax := Nat.le_max_right (entryLength mem madt ph) (if entryType mem madt ph = 1 then 8 else 2)
  have hle : ph + max _ _ ≤ tableLength mem madt := h
  omega

/-- The entries of a table that is filled are those that the loop comes by. -/
theorem Tiled.trail (h : Tiled mem madt ph l) :
    Trail (nextEntry mem madt) (Behind mem madt) ph l ∧
      Trail (nextEntry mem madt) (Outside mem madt) ph l ∧
      ∀ q ∈ l, Inside mem madt q := by
  induction h with
  | stop hend => exact ⟨.done hend, .done fun hin => Nat.not_lt.mpr hend hin.lt, nofun⟩
  | entry hin _ _ ih =>
    obtain ⟨hloop, hentries, hall⟩ := ih
    refine ⟨.visit (Nat.not_le.mpr hin.lt) hloop, .visit (not_not.mpr hin) hentries, fun q hq => ?_⟩
    rcases List.mem_cons.mp hq with rfl | hq
    · exact hin
    · exact hall q hq

/-- Where all the places of the loop are inside, the table is filled. -/
theorem tiled_of_trail
    (h : Trail (nextEntry mem madt) (Behind mem madt) ph l)
    (hall : ∀ q ∈ l, Inside mem madt q) : Tiled mem madt ph l := by
  induction h with
  | done hend => exact .stop hend
  | @visit p l hp hrest ih =>
    refine .entry (hall p List.mem_cons_self) (fun hzero => ?_)
      (ih fun q hq => hall q (List.mem_cons_of_mem p hq))
    -- an entry without a length would be the next one again
    have hfix : nextEntry mem madt p = p := by
      rw [nextEntry, hzero, Nat.add_zero]
    exact hp ((Trail.visit hp hrest).stop_of_fixed hfix)

theorem lastIoapic_cons_of_eq (htype : entryType mem madt ph = 1) :
    lastIoapic mem madt (ph :: l) = some ((lastIoapic mem madt l).getD ph) := by
  rw [lastIoapic, List.filter_cons_of_pos (by simpa using htype), List.getLast?_cons, lastIoapic]

theorem lastIoapic_cons_of_ne (htype : entryType mem madt ph ≠ 1) :
    lastIoapic mem madt (ph :: l) = lastIoapic mem madt l := by
  rw [lastIoapic, List.filter_cons_of_neg (by simpa using htype), lastIoapic]

/-- The loop has the address of the last I/O APIC at the end. -/
theorem foldl_ioapicBase (found : Found) : (l.foldl (look mem madt) found).ioapicBase =
    ((lastIoapic mem madt l).map (entryIoapicAddr mem madt)).getD found.ioapicBase := by
  induction l generalizing found with
  | nil => rfl
  | cons ph l ih =>
    rw [List.foldl_cons, ih]
    by_cases htype : entryType mem madt ph = 1
    · have hbase : (look mem madt found ph).ioapicBase = entryIoapicAddr mem madt ph := if_pos htype
      rw [hbase, lastIoapic_cons_of_eq htype]
      cases lastIoapic mem madt l with
      | none => rw [Option.map_none, Option.getD_none, Option.getD_none, Option.map_some, Option.getD_some]
      | some q => rw [Option.map_some, Option.getD_some, Option.getD_some, Option.map_some, Option.getD_some]
    · have hbase : (look mem madt found ph).ioapicBase = found.ioapicBase := if_neg htype
      rw [hbase, lastIoapic_cons_of_ne htype]

theorem foldl_entries (found : Found) :
    (l.foldl (look mem madt) found).entries = found.entries ++ l := by
  induction l generalizing found with
  | nil => rw [List.foldl_nil, List.append_nil]
  | cons ph l ih =>
    rw [List.foldl_cons, ih]
    show found.entries ++ [ph] ++ l = found.entries ++ ph :: l
    rw [List.append_assoc, List.singleton_append]

/-- `init_ioapic` with a table, told by the trail of its loop. -/
theorem exists_initIoapic_iff (hfound : searchSdt mem rsdt apicSignature = some madt) {found : Found} :
    (∃ fuel, initIoapic mem rsdt 0 fuel = some found) ↔
      ∃ l, Trail (nextEntry mem madt) (Behind mem madt) tableStart l ∧
        found = ⟨orDefault (((lastIoapic mem madt l).map (entryIoapicAddr mem madt)).getD 0), l⟩ := by
  have hinit : ∀ fuel, initIoapic mem rsdt 0 fuel = (madtLoop mem madt fuel).map fun found =>
      { found with ioapicBase := orDefault found.ioapicBase } := by
    intro fuel
    simp [initIoapic, hfound]
  constructor
  · rintro ⟨fuel, h⟩
    rw [hinit] at h
    obtain ⟨found', hloop, rfl⟩ := Option.map_eq_some_iff.mp h
    obtain ⟨l, hl, rfl⟩ := trail_of_walk hloop
    rw [foldl_ioapicBase, foldl_entries]
    exact ⟨l, hl, rfl⟩
  · rintro ⟨l, hl, rfl⟩
    refine ⟨l.length + 1, ?_⟩
    have hloop : madtLoop mem madt (l.length + 1) = some (l.foldl (look mem madt) ⟨0, []⟩) :=
      walk_of_trail hl _
    rw [hinit, hloop, Option.map_some, foldl_ioapicBase, foldl_entries, List.nil_append]

/-! ### The walk -/

/-- **When the walk is total**: the entries fill the table, and the last I/O APIC has an address. -/
theorem walksTable_iff (hfound : searchSdt mem rsdt apicSignature = some madt) :
    WalksTable mem rsdt madt ↔ WellFormed mem madt := by
  constructor
  · rintro ⟨fuel, found, hinit, hall, l', hl', hbase⟩
    obtain ⟨l, hl, rfl⟩ := (exists_initIoapic_iff hfound).mp ⟨fuel, hinit⟩
    have htiled := tiled_of_trail hl hall
    obtain rfl := htiled.trail.2.1.unique hl'
    refine ⟨l, htiled, fun ph hlast haddr => ?_⟩
    simp only [hlast, Option.map_some, Option.getD_some, haddr] at hbase
    exact absurd hbase (by decide)
  · rintro ⟨l, htiled, haddr⟩
    obtain ⟨hloop, hentries, hall⟩ := htiled.trail
    obtain ⟨fuel, hinit⟩ := (exists_initIoapic_iff hfound).mpr ⟨l, hloop, rfl⟩
    refine ⟨fuel, _, hinit, hall, l, hentries, ?_⟩
    show orDefault _ = _
    cases hlast : lastIoapic mem madt l with
    | none => rfl
    | some ph =>
      rw [Option.map_some, Option.getD_some, Option.getD_some, orDefault, if_neg (haddr ph hlast)]

/-- An RSDT at `0x1000` with one table, which is at `0x2000`. -/
def tablesWith (madt : List UInt8) : Memory := fun x =>
  if x < 0x2000 then (([0x52, 0x53, 0x44, 0x54, 40] ++ List.replicate 31 0 ++ [0, 0x20, 0, 0])[x - 0x1000]?).getD 0
  else (madt[x - 0x2000]?).getD 0

/-- A MADT with a processor, an I/O APIC, an override and another I/O APIC. -/
def demoMadt : Memory := tablesWith
  [0x41, 0x50, 0x49, 0x43, 0x56, 0, 0, 0, 1, 0xe6, 0, 0, 0, 0, 0, 0, 0, 0, 0, 0, 0, 0, 0, 0, 0, 0,
    0, 0, 0, 0, 0, 0, 0, 0, 0, 0, 0, 0, 0xe0, 0xfe, 1, 0, 0, 0, 0, 8, 0, 0, 1, 0, 0, 0, 1, 0xc, 0,
    0, 0, 0, 0xc0, 0xfe, 0, 0, 0, 0, 2, 0xa, 0, 0, 2, 0, 0, 0, 0, 0, 1, 0xc, 1, 0, 0, 0, 0xc1,
    0xfe, 0x18, 0, 0, 0]

/-- A MADT with an entry of length 0. -/
def stuckMadt : Memory := tablesWith
  [0x41, 0x50, 0x49, 0x43, 0x34, 0, 0, 0, 1, 0xce, 0, 0, 0, 0, 0, 0, 0, 0, 0, 0, 0, 0, 0, 0, 0, 0,
    0, 0, 0, 0, 0, 0, 0, 0, 0, 0, 0, 0, 0xe0, 0xfe, 1, 0, 0, 0, 0, 0, 0, 0, 1, 0, 0, 0]

theorem walksTable_iff_demo : WalksTable demoMadt (some 0x1000) 0x2000 := by
  have hfound : searchSdt demoMadt (some 0x1000) apicSignature = some 0x2000 := by decide +kernel
  refine (walksTable_iff hfound).mpr ⟨[44, 52, 64, 74], ?_, fun ph hlast => ?_⟩
  · have hstop : Tiled demoMadt 0x2000 86 [] := .stop (by decide +kernel)
    have hsecond : Tiled demoMadt 0x2000 74 [74] := .entry (by decide +kernel) (by decide +kernel) hstop
    have hoverride : Tiled demoMadt 0x2000 64 [64, 74] := .entry (by decide +kernel) (by decide +kernel) hsecond
    have hfirst : Tiled demoMadt 0x2000 52 [52, 64, 74] :=
      .entry (by decide +kernel) (by decide +kernel) hoverride
    exact .entry (by decide +kernel) (by decide +kernel) hfirst
  · have hph : lastIoapic demoMadt 0x2000 [44, 52, 64, 74] = some 74 := by decide +kernel
    obtain rfl := Option.some.inj (hph.symm.trans hlast)
    decide +kernel

/-- The loop does not get past an entry of length 0. -/
theorem zero_length_hangs : searchSdt stuckMadt (some 0x1000) apicSignature = some 0x2000 ∧
    ¬ WalksTable stuckMadt (some 0x1000) 0x2000 := by
  have hfound : searchSdt stuckMadt (some 0x1000) apicSignature = some 0x2000 := by decide +kernel
  refine ⟨hfound, ?_⟩
  rintro ⟨fuel, found, hinit, -, -⟩
  obtain ⟨l, hl, -⟩ := (exists_initIoapic_iff hfound).mp ⟨fuel, hinit⟩
  have hfix : nextEntry stuckMadt 0x2000 tableStart = tableStart := by decide +kernel
  have hstop := hl.stop_of_fixed hfix
  have hgo : ¬ Behind stuckMadt 0x2000 tableStart := by decide +kernel
  exact hgo hstop

end OmochaOS.Madt
