import OmochaOS.Memory.Buddy
import Mathlib.Algebra.Group.Nat.Even
import Mathlib.Order.Monotone.Basic
import Mathlib.Tactic.IntervalCases

/-!
# Where the bitmaps of the page allocator lie (`modules/memory/memory_init.c`)

`init_memory` puts the eleven bitmaps one after the other at the end of the memory, with a truncating
division for the length of each.  Which sizes of the memory give every pair of blocks a bit of its
own, inside the room that was set aside?

Bytes are counted on the circle of the 32-bit addresses, so nothing is asked of the two ends of the
memory but that a block of 4 MB is left between them.
-/

namespace OmochaOS

namespace Buddy

variable {mem : MemoryInfo}

/-- The byte that holds bit `i` of a bitmap, and the bit in it. -/
def bitPlace (bitarray : ℕ) (i : ℕ) : ℕ × ℕ :=
  ((bitarray + 4 * (i / 32) + i % 32 / 8) % 2 ^ 32, i % 32 % 8)

/-- The bits that `xor_buddy_map` can touch. -/
def Touched (mem : MemoryInfo) (order i : ℕ) : Prop :=
  order < maxOrder ∧ ∃ id, mem.memoryStart + id * pgSize < mem.usableEnd ∧
    i = pairIndex mem (mem.memoryStart + id * pgSize) order

/-- The byte at `a` is one of the `size` bytes from `p`. -/
def Within (p : ℕ) (size : ℕ) (a : ℕ) : Prop := subUint a p < size

/-- Every pair of blocks has a bit of its own, in the room for the bitmaps and not in `pages_info`. -/
structure LayoutSound (mem : MemoryInfo) : Prop where
  distinct : ∀ k i l j, Touched mem k i → Touched mem l j →
    bitPlace (mem.buddyMap k) i = bitPlace (mem.buddyMap l) j → k = l ∧ i = j
  inside : ∀ k i, Touched mem k i → Within (subUint mem.memoryEnd (buddyBytes mem.pageCount))
    (buddyBytes mem.pageCount) (bitPlace (mem.buddyMap k) i).1
  outside : ∀ k i, Touched mem k i →
    ¬ Within mem.pagesInfo (mem.pageCount * sizeofPage) (bitPlace (mem.buddyMap k) i).1

/-- The condition, on the size of the memory: what it has beyond a multiple of 32 MB is less than 4 MB
and the sizes of the two tables, and it is not an odd multiple of 32 MB with less than five pages. -/
def LayoutFits (memoryStart memoryEnd : ℕ) : Prop :=
  let size := subUint memoryEnd memoryStart
  size % 2 ^ 25 < 2 ^ 22 + size / 4096 * 8 + 2047 * (size / 4096) / 2048 / 8 ∧
    ¬ (2 ^ 25 ≤ size % 2 ^ 26 ∧ size % 2 ^ 26 < 2 ^ 25 + 5 * 4096)

instance {memoryStart memoryEnd : ℕ} : Decidable (LayoutFits memoryStart memoryEnd) :=
  inferInstanceAs (Decidable (_ ∧ ¬ (_ ∧ _)))

/-! ### Sizes -/

/-- How far `buddy_map[order]` is from the first one. -/
def mapOffset (pgCount : ℕ) : ℕ → ℕ
  | 0 => 0
  | i + 1 => mapOffset pgCount i + pgCount >>> (i + 1) / 8

theorem placeBuddyMap_eq {pgCount first : ℕ} (hfirst : first < 2 ^ 32) (k : ℕ) :
    placeBuddyMap pgCount first k = (first + mapOffset pgCount k) % 2 ^ 32 := by
  induction k with
  | zero =>
    rw [placeBuddyMap, mapOffset, Nat.add_zero, Nat.mod_eq_of_lt hfirst]
  | succ k ih =>
    rw [placeBuddyMap, ih, mapOffset, Nat.mod_add_mod, Nat.add_assoc]

theorem mapOffset_mono {pgCount : ℕ} : Monotone (mapOffset pgCount) :=
  monotone_nat_of_le_succ fun _ => Nat.le_add_right _ _

/-- The bit of an order and an index, counted from the first bit of the first bitmap. -/
def bitNumber (pgCount order i : ℕ) : ℕ := 8 * mapOffset pgCount order + i

theorem bitPlace_eq {pgCount first : ℕ} (hfirst : first < 2 ^ 32) (k i : ℕ) :
    bitPlace (placeBuddyMap pgCount first k) i =
      ((first + bitNumber pgCount k i / 8) % 2 ^ 32, bitNumber pgCount k i % 8) := by
  rw [placeBuddyMap_eq hfirst, bitPlace, bitNumber]
  apply Prod.ext
  · show ((first + mapOffset pgCount k) % 2 ^ 32 + 4 * (i / 32) + i % 32 / 8) % 2 ^ 32 = _
    omega
  · show i % 32 % 8 = (8 * mapOffset pgCount k + i) % 8
    omega

/-- With at most 8 blocks for each 32 MB, every bitmap but the last has room for its bits. -/
theorem bit_lt_mapOffset {pgCount blocks k i : ℕ} (hblocks : blocks ≤ 8 * (pgCount / 8192))
    (hk : k < 10) (hi : i * 2 ^ (k + 1) < 1024 * blocks) :
    bitNumber pgCount k i < 8 * mapOffset pgCount (k + 1) := by
  rw [bitNumber, mapOffset, Nat.shiftRight_eq_div_pow]
  interval_cases k <;> omega

/-- The first `n` halves of a number, each rounded down, added. -/
def halves : ℕ → ℕ → ℕ
  | 0, _ => 0
  | n + 1, u => u / 2 + halves n (u / 2)

theorem halves_le (n u : ℕ) : halves n u ≤ u := by
  induction n generalizing u with
  | zero => exact Nat.zero_le u
  | succ n ih =>
    have h := ih (u / 2)
    rw [halves]
    omega

theorem halves_lt {u : ℕ} (n : ℕ) (hu : 0 < u) : halves n u < u := by
  cases n with
  | zero => exact hu
  | succ n =>
    have hle := halves_le n (u / 2)
    rw [halves]
    by_cases h0 : u / 2 = 0
    · omega
    · have hlt := halves_lt n (Nat.pos_of_ne_zero h0)
      omega

/-- A multiple of `2 ^ n` is halved without rounding. -/
theorem halves_add (n q u : ℕ) : halves n (2 ^ n * q + u) + q = 2 ^ n * q + halves n u := by
  induction n generalizing u with
  | zero => simp only [halves, pow_zero, Nat.one_mul, Nat.zero_add, Nat.add_zero]
  | succ n ih =>
    have hpow : 2 ^ (n + 1) * q = 2 * (2 ^ n * q) := by rw [pow_succ', Nat.mul_assoc]
    have hhalf : (2 ^ (n + 1) * q + u) / 2 = 2 ^ n * q + u / 2 := by omega
    have h := ih (u / 2)
    rw [halves, halves, hhalf, hpow]
    omega

theorem mapOffset_ten (pgCount : ℕ) : mapOffset pgCount 10 = halves 10 (pgCount / 8) := by
  simp only [mapOffset, halves, Nat.shiftRight_eq_div_pow, Nat.div_div_eq_div_mul]
  norm_num
  omega

theorem mapOffset_ten_eq {q r : ℕ} :
    mapOffset (8192 * q + r) 10 = 1023 * q + halves 10 (r / 8) := by
  have hdiv : (8192 * q + r) / 8 = 2 ^ 10 * q + r / 8 := by omega
  have hadd := halves_add 10 q (r / 8)
  rw [mapOffset_ten, hdiv]
  omega

theorem buddyBytes_even {t r : ℕ} :
    buddyBytes (8192 * (2 * t) + r) = 2047 * t + 2047 * r / 16384 := by
  show 2047 * (8192 * (2 * t) + r) / 2048 / 8 = _
  omega

theorem buddyBytes_odd {t r : ℕ} :
    buddyBytes (8192 * (2 * t + 1) + r) = 2047 * t + 1023 + (8192 + 2047 * r) / 16384 := by
  show 2047 * (8192 * (2 * t + 1) + r) / 2048 / 8 = _
  omega

/-- The bits of the last bitmap are in the room that was set aside. -/
theorem lastMap_lt_buddyBytes {pgCount blocks i : ℕ} (hblocks : blocks ≤ 8 * (pgCount / 8192))
    (hodd : ¬ (pgCount / 8192 % 2 = 1 ∧ pgCount % 8192 < 5)) (hi : i * 2048 < 1024 * blocks) :
    bitNumber pgCount 10 i < 8 * buddyBytes pgCount := by
  have hr : pgCount % 8192 < 8192 := Nat.mod_lt _ (by decide)
  have hle := halves_le 10 (pgCount % 8192 / 8)
  have hlt := fun h8 => halves_lt (u := pgCount % 8192 / 8) 10 h8
  have hoffset := mapOffset_ten_eq (q := pgCount / 8192) (r := pgCount % 8192)
  rw [Nat.div_add_mod] at hoffset
  rw [bitNumber, hoffset]
  rcases Nat.even_or_odd' (pgCount / 8192) with ⟨t, ht | ht⟩
  · have hbytes := buddyBytes_even (t := t) (r := pgCount % 8192)
    rw [← ht, Nat.div_add_mod] at hbytes
    rw [hbytes]
    omega
  · have hbytes := buddyBytes_odd (t := t) (r := pgCount % 8192)
    rw [← ht, Nat.div_add_mod] at hbytes
    rw [hbytes]
    omega

/-- They are not, for an odd multiple of 8192 pages with less than five pages more. -/
theorem buddyBytes_le_lastMap {pgCount blocks : ℕ} (hodd : pgCount / 8192 % 2 = 1)
    (hfew : pgCount % 8192 < 5) (hblocks : 8 * (pgCount / 8192) < blocks + 8) :
    8 * buddyBytes pgCount ≤ bitNumber pgCount 10 ((blocks - 1) / 2) := by
  have hoffset := mapOffset_ten_eq (q := pgCount / 8192) (r := pgCount % 8192)
  rw [Nat.div_add_mod] at hoffset
  obtain ⟨t, ht⟩ := Nat.odd_iff.mpr hodd
  have hbytes := buddyBytes_odd (t := t) (r := pgCount % 8192)
  rw [← ht, Nat.div_add_mod] at hbytes
  have hnone : halves 10 (pgCount % 8192 / 8) = 0 := by
    have hle := halves_le 10 (pgCount % 8192 / 8)
    omega
  rw [bitNumber, hoffset, hbytes, hnone]
  omega

/-! ### The layout of `init_memory` -/

/-- The number of blocks of 4 MB in a memory of `size` bytes, its tables apart. -/
def blockCount (size : ℕ) : ℕ := (size - buddyBytes (size / 4096) - size / 4096 * 8) / 2 ^ 22

/-- The two tables are smaller than the memory. -/
theorem tables_le {size : ℕ} (hsize : size < 2 ^ 32) :
    buddyBytes (size / 4096) + size / 4096 * 8 ≤ size ∧
      buddyBytes (size / 4096) + size / 4096 * 8 < 2 ^ 24 := by
  have hbytes : buddyBytes (size / 4096) = 2047 * (size / 4096) / 2048 / 8 := rfl
  rw [hbytes]
  omega

theorem add_subUint {a b : ℕ} (ha : a < 2 ^ 32) (hb : b < 2 ^ 32) :
    (a + subUint b a) % 2 ^ 32 = b := by
  rw [subUint]
  omega

theorem subUint_subUint {a size b c : ℕ} (ha : a < 2 ^ 32) (hsize : size < 2 ^ 32)
    (htables : b + c ≤ size) :
    subUint (subUint ((a + size) % 2 ^ 32) b) c = (a + (size - b - c)) % 2 ^ 32 := by
  rw [subUint, subUint]
  omega

/-- The blocks lie one after the other from `memory_start`. -/
theorem initTables_usableEnd (hstart : mem.memoryStart < 2 ^ 32) (hend : mem.memoryEnd < 2 ^ 32)
    (haligned : mem.memoryStart % 2 ^ 22 = 0)
    (hblock : mem.memoryStart < (initTables mem).usableEnd) :
    (initTables mem).usableEnd =
      mem.memoryStart + blockCount (subUint mem.memoryEnd mem.memoryStart) * 2 ^ 22 := by
  have hsize : subUint mem.memoryEnd mem.memoryStart < 2 ^ 32 := Nat.mod_lt _ (by decide)
  obtain ⟨htables, -⟩ := tables_le hsize
  have hend' := add_subUint hstart hend
  have hround : (initTables mem).usableEnd = (mem.memoryStart +
      (subUint mem.memoryEnd mem.memoryStart -
        buddyBytes (subUint mem.memoryEnd mem.memoryStart / 4096) -
        subUint mem.memoryEnd mem.memoryStart / 4096 * 8)) % 2 ^ 32 / 2 ^ 22 * 2 ^ 22 := by
    rw [← subUint_subUint hstart hsize htables, hend']
    rfl
  rw [hround] at hblock ⊢
  rw [blockCount]
  have hrest : subUint mem.memoryEnd mem.memoryStart -
      buddyBytes (subUint mem.memoryEnd mem.memoryStart / 4096) -
      subUint mem.memoryEnd mem.memoryStart / 4096 * 8 < 2 ^ 32 := by omega
  generalize subUint mem.memoryEnd mem.memoryStart -
      buddyBytes (subUint mem.memoryEnd mem.memoryStart / 4096) -
      subUint mem.memoryEnd mem.memoryStart / 4096 * 8 = rest at hrest hblock ⊢
  clear hend' htables hround
  omega

/-- The bits that can be touched when there are `blocks` blocks of 4 MB. -/
theorem touched_iff {blocks k i : ℕ}
    (husable : mem.usableEnd = mem.memoryStart + blocks * 2 ^ 22) :
    Touched mem k i ↔ k < maxOrder ∧ i * 2 ^ (k + 1) < 1024 * blocks := by
  have hpage : pgSize = 4096 := rfl
  have hindex : ∀ id, pairIndex mem (mem.memoryStart + id * pgSize) k = id / 2 ^ (k + 1) := by
    intro id
    rw [pairIndex, pageId, Nat.add_sub_cancel_left, Nat.mul_div_cancel id (by decide),
      Nat.shiftRight_eq_div_pow]
  constructor
  · rintro ⟨hk, id, hid, hi⟩
    have hmul := Nat.div_mul_le_self id (2 ^ (k + 1))
    rw [hindex] at hi
    rw [hpage] at hid
    rw [hi]
    exact ⟨hk, by omega⟩
  · rintro ⟨hk, hi⟩
    refine ⟨hk, i * 2 ^ (k + 1), ?_, ?_⟩
    · rw [hpage]
      omega
    · rw [hindex, Nat.mul_div_cancel i (Nat.two_pow_pos (k + 1))]

/-- The condition on the size, in blocks and pages. -/
theorem layoutFits_iff {memoryStart memoryEnd : ℕ} :
    LayoutFits memoryStart memoryEnd ↔
      blockCount (subUint memoryEnd memoryStart) ≤ 8 * (pgCount memoryStart memoryEnd / 8192) ∧
        ¬ (pgCount memoryStart memoryEnd / 8192 % 2 = 1 ∧ pgCount memoryStart memoryEnd % 8192 < 5) := by
  have hsize : subUint memoryEnd memoryStart < 2 ^ 32 := Nat.mod_lt _ (by decide)
  have hpages : pgCount memoryStart memoryEnd = subUint memoryEnd memoryStart / 4096 := rfl
  have hbytes : buddyBytes (subUint memoryEnd memoryStart / 4096) =
      2047 * (subUint memoryEnd memoryStart / 4096) / 2048 / 8 := rfl
  rw [LayoutFits, blockCount, hpages, hbytes]
  generalize subUint memoryEnd memoryStart = size at *
  have hgroups : size / 4096 / 8192 = size / 2 ^ 25 := Nat.div_div_eq_div_mul size 4096 8192
  have htables : 2047 * (size / 4096) / 2048 / 8 + size / 4096 * 8 ≤ size := by omega
  have hblocks : (size - 2047 * (size / 4096) / 2048 / 8 - size / 4096 * 8) / 2 ^ 22 ≤
      8 * (size / 2 ^ 25) ↔
        size % 2 ^ 25 < 2 ^ 22 + size / 4096 * 8 + 2047 * (size / 4096) / 2048 / 8 := by
    generalize 2047 * (size / 4096) / 2048 / 8 = bytes at *
    generalize size / 4096 * 8 = info at *
    omega
  have hodd : (size / 2 ^ 25 % 2 = 1 ∧ size / 4096 % 8192 < 5) ↔
      2 ^ 25 ≤ size % 2 ^ 26 ∧ size % 2 ^ 26 < 2 ^ 25 + 5 * 4096 := by omega
  rw [hgroups, hblocks, hodd]

/-- Every bit that can be touched is in the room that was set aside. -/
theorem bitNumber_lt {pgCount blocks k i : ℕ} (hpos : 0 < blocks)
    (hblocks : blocks ≤ 8 * (pgCount / 8192))
    (hodd : ¬ (pgCount / 8192 % 2 = 1 ∧ pgCount % 8192 < 5)) (hk : k < maxOrder)
    (hi : i * 2 ^ (k + 1) < 1024 * blocks) : bitNumber pgCount k i < 8 * buddyBytes pgCount := by
  by_cases hk10 : k = 10
  · subst hk10
    have hpow : 2 ^ (10 + 1) = 2048 := by norm_num
    rw [hpow] at hi
    exact lastMap_lt_buddyBytes hblocks hodd hi
  · have hlt : k < 10 := by
      have h11 : maxOrder = 11 := rfl
      omega
    have hfirst : 0 * 2048 < 1024 * blocks := by
      rw [Nat.zero_mul]
      exact Nat.mul_pos (by decide) hpos
    have hzero := lastMap_lt_buddyBytes hblocks hodd hfirst
    have hmono : mapOffset pgCount (k + 1) ≤ mapOffset pgCount 10 := mapOffset_mono hlt
    calc bitNumber pgCount k i < 8 * mapOffset pgCount (k + 1) := bit_lt_mapOffset hblocks hlt hi
      _ ≤ bitNumber pgCount 10 0 := Nat.mul_le_mul_left 8 hmono
      _ < 8 * buddyBytes pgCount := hzero

/-- Bits of two orders have different numbers. -/
theorem bitNumber_ne {pgCount blocks k l i j : ℕ} (hblocks : blocks ≤ 8 * (pgCount / 8192))
    (hkl : k < l) (hl : l < maxOrder) (hi : i * 2 ^ (k + 1) < 1024 * blocks) :
    bitNumber pgCount k i ≠ bitNumber pgCount l j := by
  have h11 : maxOrder = 11 := rfl
  have hbit : bitNumber pgCount k i < 8 * mapOffset pgCount (k + 1) :=
    bit_lt_mapOffset hblocks (by omega) hi
  have hmono : mapOffset pgCount (k + 1) ≤ mapOffset pgCount l := mapOffset_mono hkl
  rw [bitNumber] at hbit ⊢
  rw [bitNumber]
  omega

/-- Bits are at one place exactly when they have one number. -/
theorem bitPlace_inj {pgCount first k l i j : ℕ} (hfirst : first < 2 ^ 32)
    (hk : bitNumber pgCount k i < 2 ^ 32) (hl : bitNumber pgCount l j < 2 ^ 32) :
    bitPlace (placeBuddyMap pgCount first k) i = bitPlace (placeBuddyMap pgCount first l) j ↔
      bitNumber pgCount k i = bitNumber pgCount l j := by
  rw [bitPlace_eq hfirst, bitPlace_eq hfirst, Prod.mk.injEq]
  omega

theorem subUint_bitPlace {pgCount first k i : ℕ} (hfirst : first < 2 ^ 32)
    (hk : bitNumber pgCount k i < 2 ^ 32) :
    subUint (bitPlace (placeBuddyMap pgCount first k) i).1 first = bitNumber pgCount k i / 8 := by
  rw [bitPlace_eq hfirst, subUint]
  omega

/-- What lies in the room for the bitmaps is not in `pages_info`. -/
theorem bitmaps_beyond_info {start finish size bytes info used n : ℕ} (hstart : start < 2 ^ 32)
    (hsize : size < 2 ^ 32) (hfinish : (start + size) % 2 ^ 32 = finish)
    (htables : bytes + info * 8 ≤ size) (hused : used ≤ size - bytes - info * 8) (hn : n < bytes) :
    ¬ subUint ((subUint finish bytes + n) % 2 ^ 32) (start + used) < info * 8 := by
  have hfirst : subUint finish bytes = (start + (size - bytes)) % 2 ^ 32 := by
    rw [subUint]
    omega
  have hdiff : subUint ((subUint finish bytes + n) % 2 ^ 32) (start + used) =
      size - bytes + n - used := by
    rw [subUint, hfirst]
    omega
  omega

/-- With the condition, the bits do not overlap and lie where they should. -/
theorem layoutSound_of_fits (hstart : mem.memoryStart < 2 ^ 32) (hend : mem.memoryEnd < 2 ^ 32)
    (haligned : mem.memoryStart % 2 ^ 22 = 0) (hblock : mem.memoryStart < (initTables mem).usableEnd)
    (hfits : LayoutFits mem.memoryStart mem.memoryEnd) : LayoutSound (initTables mem) := by
  have husable := initTables_usableEnd hstart hend haligned hblock
  have hsize : subUint mem.memoryEnd mem.memoryStart < 2 ^ 32 := Nat.mod_lt _ (by decide)
  obtain ⟨htables, hsmall⟩ := tables_le hsize
  obtain ⟨hblocks, hodd⟩ := layoutFits_iff.mp hfits
  have hend' := add_subUint hstart hend
  have hpos : 0 < blockCount (subUint mem.memoryEnd mem.memoryStart) := by omega
  have hpages : pgCount mem.memoryStart mem.memoryEnd =
      subUint mem.memoryEnd mem.memoryStart / 4096 := rfl
  have hfirst : subUint mem.memoryEnd (buddyBytes (pgCount mem.memoryStart mem.memoryEnd)) < 2 ^ 32 :=
    Nat.mod_lt _ (by decide)
  have htouched : ∀ k i, Touched (initTables mem) k i → k < maxOrder ∧
      i * 2 ^ (k + 1) < 1024 * blockCount (subUint mem.memoryEnd mem.memoryStart) := fun k i h =>
    (touched_iff husable).mp h
  have hnumber : ∀ k i, Touched (initTables mem) k i →
      bitNumber (pgCount mem.memoryStart mem.memoryEnd) k i <
        8 * buddyBytes (pgCount mem.memoryStart mem.memoryEnd) := fun k i h =>
    bitNumber_lt hpos hblocks hodd (htouched k i h).1 (htouched k i h).2
  rw [← hpages] at hsmall
  constructor
  case distinct =>
    intro k i l j hk hl heq
    have hni := hnumber k i hk
    have hnj := hnumber l j hl
    have hnum := (bitPlace_inj hfirst (by omega) (by omega)).mp heq
    rcases Nat.lt_trichotomy k l with hlt | rfl | hlt
    · exact absurd hnum (bitNumber_ne hblocks hlt (htouched l j hl).1 (htouched k i hk).2)
    · rw [bitNumber, bitNumber] at hnum
      exact ⟨rfl, by omega⟩
    · exact absurd hnum.symm (bitNumber_ne hblocks hlt (htouched k i hk).1 (htouched l j hl).2)
  case inside =>
    intro k i hk
    have hni := hnumber k i hk
    have hplace : subUint (bitPlace ((initTables mem).buddyMap k) i).1
        (subUint (initTables mem).memoryEnd (buddyBytes (initTables mem).pageCount)) = _ :=
      subUint_bitPlace hfirst (by omega)
    rw [Within, hplace]
    exact Nat.div_lt_of_lt_mul hni
  case outside =>
    intro k i hk hwithin
    have hni := hnumber k i hk
    have hplace : (bitPlace ((initTables mem).buddyMap k) i).1 = _ :=
      congrArg Prod.fst (bitPlace_eq hfirst k i)
    have hinfo : subUint (bitPlace ((initTables mem).buddyMap k) i).1 (initTables mem).usableEnd <
        pgCount mem.memoryStart mem.memoryEnd * 8 := hwithin
    have hcount := Nat.div_mul_le_self (subUint mem.memoryEnd mem.memoryStart -
      buddyBytes (pgCount mem.memoryStart mem.memoryEnd) -
      pgCount mem.memoryStart mem.memoryEnd * 8) (2 ^ 22)
    rw [hplace, husable, blockCount, ← hpages] at hinfo
    rw [← hpages] at htables
    exact bitmaps_beyond_info hstart hsize hend' htables hcount (Nat.div_lt_of_lt_mul hni) hinfo

/-- The number of a bit of the last two bitmaps is far below `2 ^ 32`. -/
theorem bitNumber_ten_lt {pgCount i : ℕ} (hpages : pgCount < 2 ^ 20) (hi : i < 2 ^ 20) :
    bitNumber pgCount 10 i < 2 ^ 32 := by
  have hle := halves_le 10 (pgCount / 8)
  rw [bitNumber, mapOffset_ten]
  omega

/-- Without the condition, either the last two bitmaps share a bit or the last one ends too late. -/
theorem fits_of_layoutSound (hstart : mem.memoryStart < 2 ^ 32) (hend : mem.memoryEnd < 2 ^ 32)
    (haligned : mem.memoryStart % 2 ^ 22 = 0) (hblock : mem.memoryStart < (initTables mem).usableEnd)
    (hsound : LayoutSound (initTables mem)) : LayoutFits mem.memoryStart mem.memoryEnd := by
  have husable := initTables_usableEnd hstart hend haligned hblock
  have hsize : subUint mem.memoryEnd mem.memoryStart < 2 ^ 32 := Nat.mod_lt _ (by decide)
  have hcount : pgCount mem.memoryStart mem.memoryEnd =
      subUint mem.memoryEnd mem.memoryStart / 4096 := rfl
  have hpages : pgCount mem.memoryStart mem.memoryEnd < 2 ^ 20 := by omega
  have hfirst : subUint mem.memoryEnd (buddyBytes (pgCount mem.memoryStart mem.memoryEnd)) < 2 ^ 32 :=
    Nat.mod_lt _ (by decide)
  have htouched := fun k i => touched_iff (k := k) (i := i) husable
  have hpos : 0 < blockCount (subUint mem.memoryEnd mem.memoryStart) := by omega
  have hten : (10 : ℕ) < maxOrder := by decide
  rw [layoutFits_iff]
  by_contra hnot
  by_cases hblocks : blockCount (subUint mem.memoryEnd mem.memoryStart) ≤
      8 * (pgCount mem.memoryStart mem.memoryEnd / 8192)
  · -- the last bit of the last bitmap is behind the end
    have hodd : pgCount mem.memoryStart mem.memoryEnd / 8192 % 2 = 1 ∧
        pgCount mem.memoryStart mem.memoryEnd % 8192 < 5 := by
      by_contra hodd
      exact hnot ⟨hblocks, hodd⟩
    have hmany : 8 * (pgCount mem.memoryStart mem.memoryEnd / 8192) <
        blockCount (subUint mem.memoryEnd mem.memoryStart) + 8 := by
      obtain ⟨-, hsmall⟩ := tables_le hsize
      rw [hcount, blockCount]
      omega
    have hlate := buddyBytes_le_lastMap hodd.1 hodd.2 hmany
    have hlast : Touched (initTables mem) 10
        ((blockCount (subUint mem.memoryEnd mem.memoryStart) - 1) / 2) :=
      (htouched _ _).mpr ⟨hten, by norm_num; omega⟩
    have hnumber := bitNumber_ten_lt (i := (blockCount (subUint mem.memoryEnd mem.memoryStart) - 1) / 2)
      hpages (by omega)
    have hwithin := hsound.inside _ _ hlast
    have hplace : subUint (bitPlace ((initTables mem).buddyMap 10) _).1
        (subUint (initTables mem).memoryEnd (buddyBytes (initTables mem).pageCount)) = _ :=
      subUint_bitPlace hfirst hnumber
    rw [Within, hplace] at hwithin
    have hbytes : buddyBytes (initTables mem).pageCount =
      buddyBytes (pgCount mem.memoryStart mem.memoryEnd) := rfl
    omega
  · -- the first bit of the last bitmap is one of the bitmap before it
    have hnine : Touched (initTables mem) 9 (8 * (pgCount mem.memoryStart mem.memoryEnd / 8192)) :=
      (htouched _ _).mpr ⟨by decide, by norm_num; omega⟩
    have hfirstBit : Touched (initTables mem) 10 0 := (htouched _ _).mpr ⟨hten, by norm_num; omega⟩
    have hsame : bitNumber (pgCount mem.memoryStart mem.memoryEnd) 9
        (8 * (pgCount mem.memoryStart mem.memoryEnd / 8192)) =
        bitNumber (pgCount mem.memoryStart mem.memoryEnd) 10 0 := by
      have hnext : mapOffset (pgCount mem.memoryStart mem.memoryEnd) 10 =
          mapOffset (pgCount mem.memoryStart mem.memoryEnd) 9 +
            pgCount mem.memoryStart mem.memoryEnd >>> 10 / 8 := rfl
      have hdiv : pgCount mem.memoryStart mem.memoryEnd >>> 10 / 8 =
          pgCount mem.memoryStart mem.memoryEnd / 8192 := by
        rw [Nat.shiftRight_eq_div_pow, Nat.div_div_eq_div_mul]
      rw [bitNumber, bitNumber, hnext, hdiv]
      omega
    have hnumber := bitNumber_ten_lt (i := 0) hpages (by decide)
    have hplaces := (bitPlace_inj hfirst (by omega) hnumber).mpr hsame
    exact absurd (hsound.distinct 9 _ 10 0 hnine hfirstBit hplaces).1 (by decide)

/-- The layout is all that counts. -/
theorem LayoutSound.congr {mem' : MemoryInfo} (h : LayoutSound mem)
    (hlayout : mem'.toMemoryLayout = mem.toMemoryLayout) : LayoutSound mem' := by
  cases mem
  cases mem'
  obtain rfl := hlayout
  exact ⟨h.distinct, h.inside, h.outside⟩

/-- **When the bitmaps do not overlap.**  For every memory with a block of 4 MB or more, the bitmaps
that `init_memory` places are sound exactly when the size of the memory meets the condition. -/
theorem layoutSound_iff (hstart : mem.memoryStart < 2 ^ 32) (hend : mem.memoryEnd < 2 ^ 32)
    (haligned : mem.memoryStart % 2 ^ 22 = 0)
    (hblock : mem.memoryStart < (initMemory mem).usableEnd) :
    LayoutSound (initMemory mem) ↔ LayoutFits mem.memoryStart mem.memoryEnd := by
  have husable : (initMemory mem).usableEnd = (initTables mem).usableEnd :=
    congrArg MemoryLayout.usableEnd (initMemory_layout mem)
  rw [husable] at hblock
  constructor
  · intro hsound
    exact fits_of_layoutSound hstart hend haligned hblock (hsound.congr (initMemory_layout mem).symm)
  · intro hfits
    exact (layoutSound_of_fits hstart hend haligned hblock hfits).congr (initMemory_layout mem)

/-- A machine with memory from 16 MB to `memory_end`. -/
def demoMemory (memoryEnd : ℕ) : MemoryInfo where
  buddyMap _ := 0
  memoryStart := 0x1000000
  memoryEnd := memoryEnd
  usableEnd := 0
  pageCount := 0
  pagesInfo := 0
  freeList _ := 0
  freeCount _ := 0
  prev _ := 0
  next _ := 0
  bits _ _ := false
  pages _ := default

theorem demoMemory_usableEnd {memoryEnd : ℕ}
    (h : 0x1000000 < (initTables (demoMemory memoryEnd)).usableEnd) :
    (demoMemory memoryEnd).memoryStart < (initMemory (demoMemory memoryEnd)).usableEnd := by
  rw [initMemory_layout]
  exact h

/-- 33 MB of memory have eight blocks and a sound layout. -/
theorem layoutSound_iff_demo : LayoutSound (initMemory (demoMemory 0x3100000)) :=
  (layoutSound_iff (by decide) (by decide) (by decide)
    (demoMemory_usableEnd (by decide +kernel))).mpr (by decide +kernel)

/-- **Two bitmaps share a bit.**  In a machine of 128 MB the first bit of the last bitmap is one of the
bitmap before it. -/
theorem buddyMap_overlap : (demoMemory 0x7FE0000).memoryStart % 2 ^ 22 = 0 ∧
    (demoMemory 0x7FE0000).memoryStart < (initMemory (demoMemory 0x7FE0000)).usableEnd ∧
    ¬ LayoutSound (initMemory (demoMemory 0x7FE0000)) := by
  refine ⟨by decide, demoMemory_usableEnd (by decide +kernel), fun hsound => ?_⟩
  have htables := hsound.congr (initMemory_layout (demoMemory 0x7FE0000)).symm
  have husable : (initTables (demoMemory 0x7FE0000)).usableEnd =
      (initTables (demoMemory 0x7FE0000)).memoryStart + 27 * 2 ^ 22 := by decide +kernel
  have hnine : Touched (initTables (demoMemory 0x7FE0000)) 9 24 :=
    (touched_iff husable).mpr ⟨by decide, by norm_num⟩
  have hten : Touched (initTables (demoMemory 0x7FE0000)) 10 0 :=
    (touched_iff husable).mpr ⟨by decide, by norm_num⟩
  have hplaces : bitPlace ((initTables (demoMemory 0x7FE0000)).buddyMap 9) 24 =
      bitPlace ((initTables (demoMemory 0x7FE0000)).buddyMap 10) 0 := by decide +kernel
  exact absurd (htables.distinct 9 24 10 0 hnine hten hplaces).1 (by decide)

end Buddy

end OmochaOS
