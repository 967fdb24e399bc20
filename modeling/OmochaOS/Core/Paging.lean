import Mathlib.Algebra.Order.Ring.Nat
import Mathlib.Tactic.Common

/-!
# Page directories (`core/paging.h`)

`vir2phy` walks the page directory of a process by hand, as the kernel does for every address that a
process gives it.  `translate` is the walk of the processor, and `userWritable` that for a write in
ring 3.  They go by pages: the low bits of the address are those of the result.
-/

namespace OmochaOS.Paging

variable {word : ℕ → ℕ} {pgDir va a f w : ℕ}

/-- `PGROUNDDOWN`. -/
def pageOf (a : ℕ) : ℕ := a / 0x1000 * 0x1000

def pgPresent : ℕ := 0x001
def pgWritable : ℕ := 0x002
def pgUser : ℕ := 0x004
def pgPs : ℕ := 0x080
def pgOsSys : ℕ := 0x200

/-- `PG_Present`. -/
def present (entry : ℕ) : Bool := entry.testBit 0

/-- `PG_Writable`. -/
def writable (entry : ℕ) : Bool := entry.testBit 1

/-- `PG_User`. -/
def user (entry : ℕ) : Bool := entry.testBit 2

/-- `PG_PS`. -/
def large (entry : ℕ) : Bool := entry.testBit 7

/-- The entry of the page directory for an address. -/
def pdeOf (word : ℕ → ℕ) (pgDir va : ℕ) : ℕ := word (pgDir + 4 * (va / 2 ^ 22 % 2 ^ 10))

/-- The entry of a page table for an address. -/
def pteOf (word : ℕ → ℕ) (pde va : ℕ) : ℕ := word (pageOf pde + 4 * (va / 2 ^ 12 % 2 ^ 10))

/-- `vir2phy(pg_dir, va)`. -/
def vir2phy (word : ℕ → ℕ) (pgDir va : ℕ) : ℕ :=
  let pde := pdeOf word pgDir va
  if present pde = false then 0
  else if large pde then (pageOf pde + va % 2 ^ 22) % 2 ^ 32
  else (pageOf (pteOf word pde va) + va % 2 ^ 12) % 2 ^ 32

/-- `get_pte(page_dir, va)`: the place of the entry, or null. -/
def getPte (word : ℕ → ℕ) (pgDir va : ℕ) : ℕ :=
  let pde := pdeOf word pgDir va
  if present pde = false then 0 else pageOf pde + 4 * (va / 2 ^ 12 % 2 ^ 10)

/-- Where the processor gets from an address: the present bits of both levels are looked at. -/
def translate (word : ℕ → ℕ) (pgDir va : ℕ) : Option ℕ :=
  let pde := pdeOf word pgDir va
  if present pde = false then none
  else if large pde then some (pde / 2 ^ 22 * 2 ^ 22 + va % 2 ^ 22)
  else if present (pteOf word pde va) = false then none
  else some (pageOf (pteOf word pde va) + va % 2 ^ 12)

/-- An entry that lets a process of ring 3 write. -/
def allows (entry : ℕ) : Bool := present entry && user entry && writable entry

/-- Where a process of ring 3 writes to. -/
def userWritable (word : ℕ → ℕ) (pgDir va : ℕ) : Option ℕ :=
  let pde := pdeOf word pgDir va
  if allows pde = false then none
  else if large pde then some (pde / 2 ^ 22 * 2 ^ 22 + va % 2 ^ 22)
  else if allows (pteOf word pde va) = false then none
  else some (pageOf (pteOf word pde va) + va % 2 ^ 12)

/-! ### The walks go by pages -/

theorem pdeOf_pageOf : pdeOf word pgDir (pageOf va) = pdeOf word pgDir va := by
  have h : pageOf va / 2 ^ 22 = va / 2 ^ 22 := by
    rw [pageOf]
    omega
  rw [pdeOf, h, pdeOf]

theorem pteOf_pageOf {pde : ℕ} : pteOf word pde (pageOf va) = pteOf word pde va := by
  have h : pageOf va / 2 ^ 12 = va / 2 ^ 12 := by
    rw [pageOf]
    omega
  rw [pteOf, h, pteOf]

theorem userWritable_pageOf :
    userWritable word pgDir va = (userWritable word pgDir (pageOf va)).map fun a => a + va % 2 ^ 12 := by
  have hlarge : va % 2 ^ 22 = pageOf va % 2 ^ 22 + va % 2 ^ 12 := by
    rw [pageOf]
    omega
  have hsmall : pageOf va % 2 ^ 12 = 0 := by
    rw [pageOf]
    omega
  simp only [userWritable, pdeOf_pageOf, pteOf_pageOf]
  split
  · rfl
  · split
    · rw [Option.map_some, hlarge, Nat.add_assoc]
    · split
      · rfl
      · rw [Option.map_some, hsmall, Nat.add_zero]

theorem translate_pageOf :
    translate word pgDir va = (translate word pgDir (pageOf va)).map fun a => a + va % 2 ^ 12 := by
  have hlarge : va % 2 ^ 22 = pageOf va % 2 ^ 22 + va % 2 ^ 12 := by
    rw [pageOf]
    omega
  have hsmall : pageOf va % 2 ^ 12 = 0 := by
    rw [pageOf]
    omega
  simp only [translate, pdeOf_pageOf, pteOf_pageOf]
  split
  · rfl
  · split
    · rw [Option.map_some, hlarge, Nat.add_assoc]
    · split
      · rfl
      · rw [Option.map_some, hsmall, Nat.add_zero]

theorem userWritable_present (h : userWritable word pgDir va = some a) :
    present (pdeOf word pgDir va) = true := by
  by_contra hnot
  have hallows : allows (pdeOf word pgDir va) = false := by
    simp only [Bool.not_eq_true] at hnot
    simp [allows, hnot]
  rw [userWritable, if_pos hallows] at h
  cases h

theorem vir2phy_lt : vir2phy word pgDir va < 2 ^ 32 := by
  rw [vir2phy]
  split
  · decide
  · split
    · exact Nat.mod_lt _ (by decide)
    · exact Nat.mod_lt _ (by decide)

/-- What is mapped keeps its place in the page. -/
theorem vir2phy_mod (h : present (pdeOf word pgDir va) = true) :
    vir2phy word pgDir va % 2 ^ 12 = va % 2 ^ 12 := by
  have hp : ¬ present (pdeOf word pgDir va) = false := by simp [h]
  simp only [vir2phy, if_neg hp]
  split
  · rw [pageOf]
    omega
  · rw [pageOf]
    omega

/-! ### Entries -/

/-- `entry |= PG_Writable`. -/
def setWritable (entry : ℕ) : ℕ := entry ||| pgWritable

/-- `entry &= ~PG_Writable`. -/
def clearWritable (entry : ℕ) : ℕ := entry &&& 0xFFFFFFFD

theorem or_eq_add (hf : f % 0x1000 = 0) (ha : a < 0x1000) : f ||| a = f + a := by
  have hmul : f = 2 ^ 12 * (f / 2 ^ 12) := by omega
  rw [hmul]
  exact (Nat.two_pow_add_eq_or_of_lt ha _).symm

/-- A page and attributes make an entry of that page. -/
theorem pageOf_or (hf : f % 0x1000 = 0) (ha : a < 0x1000) : pageOf (f ||| a) = f := by
  rw [or_eq_add hf ha, pageOf]
  omega

theorem testBit_or {i : ℕ} (hf : f % 0x1000 = 0) (hi : i < 12) : (f ||| a).testBit i = a.testBit i := by
  have hmul : f = 2 ^ 12 * (f / 2 ^ 12) := by omega
  have hlow : f.testBit i = false := by
    rw [hmul, Nat.testBit_two_pow_mul]
    simp [hi]
  rw [Nat.testBit_or, hlow, Bool.false_or]

theorem present_or (hf : f % 0x1000 = 0) : present (f ||| a) = present a :=
  testBit_or hf (by decide)

theorem large_or (hf : f % 0x1000 = 0) : large (f ||| a) = large a :=
  testBit_or hf (by decide)

theorem writable_or (hf : f % 0x1000 = 0) : writable (f ||| a) = writable a :=
  testBit_or hf (by decide)

theorem user_or (hf : f % 0x1000 = 0) : user (f ||| a) = user a :=
  testBit_or hf (by decide)

theorem pageOf_mod : pageOf a % 0x1000 = 0 := by
  rw [pageOf]
  omega

theorem pageOf_eq_shift : pageOf w = w >>> 12 <<< 12 := by
  rw [Nat.shiftLeft_eq, Nat.shiftRight_eq_div_pow, pageOf]

/-- Entries with the same bits from bit 12 on are of the same page. -/
theorem pageOf_congr {w' : ℕ} (h : ∀ i, 12 ≤ i → w'.testBit i = w.testBit i) : pageOf w' = pageOf w := by
  have hshift : w' >>> 12 = w >>> 12 := by
    apply Nat.eq_of_testBit_eq
    intro i
    rw [Nat.testBit_shiftRight, Nat.testBit_shiftRight]
    apply h
    omega
  rw [pageOf_eq_shift, pageOf_eq_shift, hshift]

theorem testBit_setWritable {i : ℕ} : (setWritable w).testBit i = (w.testBit i || decide (i = 1)) := by
  have h : pgWritable = 2 ^ 1 := rfl
  rw [setWritable, Nat.testBit_or, h, Nat.testBit_two_pow]
  simp [eq_comm]

theorem pageOf_setWritable : pageOf (setWritable w) = pageOf w := by
  apply pageOf_congr
  intro i hi
  have hne : i ≠ 1 := by omega
  simp [testBit_setWritable, hne]

@[simp] theorem present_setWritable : present (setWritable w) = present w := by
  rw [present, testBit_setWritable]
  exact Bool.or_false _

@[simp] theorem user_setWritable : user (setWritable w) = user w := by
  simp [user, testBit_setWritable]

@[simp] theorem writable_setWritable : writable (setWritable w) = true := by
  simp [writable, testBit_setWritable]

theorem setWritable_lt (hw : w < 2 ^ 32) : setWritable w < 2 ^ 32 :=
  Nat.or_lt_two_pow hw (by decide)

theorem testBit_clearWritable {i : ℕ} (hw : w < 2 ^ 32) :
    (clearWritable w).testBit i = (w.testBit i && !decide (i = 1)) := by
  rw [clearWritable, Nat.testBit_and]
  by_cases hi : i < 32
  · have hmask : ∀ j < 32, Nat.testBit 0xFFFFFFFD j = !decide (j = 1) := by decide
    rw [hmask i hi]
  · have hhigh : w.testBit i = false := by
      apply Nat.testBit_lt_two_pow
      exact lt_of_lt_of_le hw (Nat.pow_le_pow_right (by decide) (by omega))
    rw [hhigh, Bool.false_and, Bool.false_and]

theorem pageOf_clearWritable (hw : w < 2 ^ 32) : pageOf (clearWritable w) = pageOf w := by
  apply pageOf_congr
  intro i hi
  have hne : i ≠ 1 := by omega
  simp [testBit_clearWritable hw, hne]

theorem present_clearWritable (hw : w < 2 ^ 32) : present (clearWritable w) = present w := by
  simp [present, testBit_clearWritable hw]

theorem writable_clearWritable (hw : w < 2 ^ 32) : writable (clearWritable w) = false := by
  simp [writable, testBit_clearWritable hw]

theorem clearWritable_lt (hw : w < 2 ^ 32) : clearWritable w < 2 ^ 32 :=
  lt_of_le_of_lt Nat.and_le_left hw

/-! ### Places -/

/-- The place of the entry of the page directory for an address. -/
def dirIndex (va : ℕ) : ℕ := va / 2 ^ 22 % 2 ^ 10

/-- The place of the entry of the page table for an address. -/
def tabIndex (va : ℕ) : ℕ := va / 2 ^ 12 % 2 ^ 10

theorem pdeOf_eq : pdeOf word pgDir va = word (pgDir + 4 * dirIndex va) := by
  rw [pdeOf, dirIndex]

theorem dirIndex_lt : dirIndex va < 1024 := Nat.mod_lt _ (by decide)

theorem tabIndex_lt : tabIndex va < 1024 := Nat.mod_lt _ (by decide)

/-- The two places tell the pages apart. -/
theorem pageOf_eq_iff {b : ℕ} (ha : a < 2 ^ 32) (hb : b < 2 ^ 32) :
    pageOf a = pageOf b ↔ dirIndex a = dirIndex b ∧ tabIndex a = tabIndex b := by
  simp only [pageOf, dirIndex, tabIndex]
  omega

end OmochaOS.Paging
