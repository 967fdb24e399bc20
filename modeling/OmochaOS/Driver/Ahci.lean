import Mathlib.Algebra.BigOperators.Group.List.Basic
import Mathlib.Algebra.Order.Ring.Nat
import Mathlib.Logic.Function.Basic
import Mathlib.Tactic.Common

/-!
# The read command of the AHCI driver (`driver/ahci/ahci.c`)

`read` takes a free command slot, cuts the buffer into pieces of 8 KB, one for each entry of the scatter
list, and writes the command for the drive.  The sectors that are left for the last piece are counted in
`count`, which is also what the command is made from.

* `fillEntries_spec` — the loop over the scatter list;
* `scattered` — the scatter list is the buffer, whatever the count;
* `describesTransfer_iff` — when the command says the same.
-/

namespace OmochaOS.Ahci

/-! ### The command -/

/-- `HBA_PRDT_ENTRY`: a piece of the buffer, with its length less one. -/
structure PrdtEntry where
  dba : ℕ
  dbau : ℕ
  dbc : ℕ
  i : Bool
deriving DecidableEq

/-- `FIS_REG_H2D`. -/
structure FisRegH2D where
  fisType : ℕ
  c : Bool
  command : ℕ
  lba0 : ℕ
  lba1 : ℕ
  lba2 : ℕ
  device : ℕ
  lba3 : ℕ
  lba4 : ℕ
  lba5 : ℕ
  countl : ℕ
  counth : ℕ
deriving DecidableEq

/-- `HBA_CMD_HEADER`. -/
structure CmdHeader where
  cfl : ℕ
  w : Bool
  prdtl : ℕ
  ctba : ℕ
deriving DecidableEq

/-- `HBA_CMD_TBL`. -/
structure CmdTbl where
  cfis : FisRegH2D
  prdtEntry : ℕ → PrdtEntry

/-- `HBA_PORT`, with the command list at `clb` and the command tables by their addresses. -/
structure Port where
  sact : ℕ
  ci : ℕ
  cmdheader : ℕ → CmdHeader
  cmdtbl : ℕ → CmdTbl

def fisTypeRegH2D : ℕ := 0x27

def ataCmdReadDmaEx : ℕ := 0x25

/-- `sizeof(FIS_REG_H2D)`. -/
def sizeofFisRegH2D : ℕ := 20

/-! ### `read` -/

/-- The loop of `find_cmdslot`, with `left` slots to look at. -/
def findCmdslot : (left i slots : ℕ) → Option ℕ
  | 0, _, _ => none
  | left + 1, i, slots => if slots % 2 = 0 then some i else findCmdslot left (i + 1) (slots / 2)

/-- The scatter list while it is filled, with `i`, `buf` and `count`. -/
structure Filling where
  entry : ℕ → PrdtEntry
  i : ℕ
  buf : ℕ
  count : ℕ

/-- 16 sectors go into an entry. -/
def Filling.step (s : Filling) : Filling where
  entry := Function.update s.entry s.i { s.entry s.i with dba := s.buf, dbc := 8 * 1024 - 1, i := true }
  i := s.i + 1
  buf := (s.buf + 2 * (4 * 1024)) % 2 ^ 32
  count := (s.count + 2 ^ 32 - 16) % 2 ^ 32

/-- The loop over all entries but the last one, which runs `prdtl - 1` times. -/
def fillEntries : ℕ → Filling → Filling
  | 0, s => s
  | n + 1, s => fillEntries n s.step

/-- The last entry takes what is left. -/
def Filling.last (s : Filling) : ℕ → PrdtEntry :=
  Function.update s.entry s.i { s.entry s.i with
    dba := s.buf
    dbc := (s.count * 2 ^ 9 + 2 ^ 32 - 1) % 2 ^ 32 % 2 ^ 22
    i := true }

/-- `cmdheader->prdtl`, 16 bits. -/
def prdtlOf (count : ℕ) : ℕ := ((count + 2 ^ 32 - 1) % 2 ^ 32 / 2 ^ 4 % 2 ^ 16 + 1) % 2 ^ 16

/-- The entries that the `memset` clears. -/
def cleared (prdtl : ℕ) (entry : ℕ → PrdtEntry) (j : ℕ) : PrdtEntry :=
  if j < prdtl then ⟨0, 0, 0, false⟩ else entry j

/-- The command FIS. -/
def fisOf (startl starth count : ℕ) : FisRegH2D where
  fisType := fisTypeRegH2D
  c := true
  command := ataCmdReadDmaEx
  lba0 := startl % 2 ^ 8
  lba1 := startl / 2 ^ 8 % 2 ^ 8
  lba2 := startl / 2 ^ 16 % 2 ^ 8
  device := 2 ^ 6
  lba3 := startl / 2 ^ 24 % 2 ^ 8
  lba4 := starth % 2 ^ 8
  lba5 := starth / 2 ^ 8 % 2 ^ 8
  countl := count % 2 ^ 8
  counth := count / 2 ^ 8 % 2 ^ 8

/-- `read`, up to where the command is issued: its header and its table. -/
def read (cmdslots : ℕ) (port : Port) (startl starth count buf : ℕ) : Option (CmdHeader × CmdTbl) :=
  (findCmdslot cmdslots 0 (port.sact ||| port.ci)).map fun slot =>
    let cmdheader := { port.cmdheader slot with
      cfl := sizeofFisRegH2D / 4
      w := false
      prdtl := prdtlOf count }
    let cmdtbl := port.cmdtbl cmdheader.ctba
    let s := fillEntries (cmdheader.prdtl - 1) ⟨cleared cmdheader.prdtl cmdtbl.prdtEntry, 0, buf, count⟩
    (cmdheader, { cfis := fisOf startl starth s.count, prdtEntry := s.last })

/-! ### What the command describes -/

/-- The first entry is at `buf`, each one goes on where the one before it ends, and together they have
`count` sectors. -/
structure Scattered (prdtl : ℕ) (entry : ℕ → PrdtEntry) (count buf : ℕ) : Prop where
  bytes : ((List.range prdtl).map fun j => (entry j).dbc + 1).sum = 512 * count
  start : (entry 0).dba = buf
  consecutive : ∀ j, j + 1 < prdtl → (entry (j + 1)).dba = ((entry j).dba + ((entry j).dbc + 1)) % 2 ^ 32
  low : ∀ j < prdtl, (entry j).dbau = 0

/-- The address in the command. -/
def FisRegH2D.lba (fis : FisRegH2D) : ℕ :=
  fis.lba0 + fis.lba1 * 2 ^ 8 + fis.lba2 * 2 ^ 16 + fis.lba3 * 2 ^ 24 + fis.lba4 * 2 ^ 32 +
    fis.lba5 * 2 ^ 40

/-- The command is that of a transfer of `count` sectors to `buf`. -/
structure DescribesTransfer (header : CmdHeader) (tbl : CmdTbl) (lba count buf : ℕ) : Prop where
  scattered : Scattered header.prdtl tbl.prdtEntry count buf
  lba_eq : tbl.cfis.lba = lba
  count_eq : tbl.cfis.countl + tbl.cfis.counth * 2 ^ 8 = count

variable {startl starth count buf cmdslots n k j : ℕ} {port : Port} {entry : ℕ → PrdtEntry} {s : Filling}

/-! ### The scatter list -/

/-- After `k` turns of the loop. -/
structure Filled (entry : ℕ → PrdtEntry) (count buf k : ℕ) (s : Filling) : Prop where
  i_eq : s.i = k
  buf_eq : s.buf = (buf + 8192 * k) % 2 ^ 32
  count_eq : s.count = count - 16 * k
  done : ∀ j < k, s.entry j = { entry j with dba := (buf + 8192 * j) % 2 ^ 32, dbc := 8191, i := true }
  rest : ∀ j, k ≤ j → s.entry j = entry j

theorem Filled.step (h : Filled entry count buf k s) (hk : 16 * (k + 1) ≤ count) (hcount : count < 2 ^ 32) :
    Filled entry count buf (k + 1) s.step where
  i_eq := congrArg (· + 1) h.i_eq
  buf_eq := by
    show (s.buf + 2 * (4 * 1024)) % 2 ^ 32 = _
    rw [h.buf_eq]
    omega
  count_eq := by
    show (s.count + 2 ^ 32 - 16) % 2 ^ 32 = _
    rw [h.count_eq]
    omega
  done := by
    intro j hj
    show Function.update s.entry s.i _ j = _
    rw [h.i_eq]
    by_cases hjk : j = k
    · rw [hjk, Function.update_self, h.rest k (Nat.le_refl k), h.buf_eq]
    · rw [Function.update_of_ne hjk]
      exact h.done j (by omega)
  rest := by
    intro j hj
    show Function.update s.entry s.i _ j = _
    rw [h.i_eq, Function.update_of_ne (by omega)]
    exact h.rest j (by omega)

/-- **The loop.**  Every entry but the last one has its 16 sectors. -/
theorem fillEntries_spec (h : Filled entry count buf k s) (hn : 16 * (k + n) ≤ count)
    (hcount : count < 2 ^ 32) : Filled entry count buf (k + n) (fillEntries n s) := by
  induction n generalizing k s with
  | zero => exact h
  | succ n ih =>
    have hstep := h.step (by omega) hcount
    have hrun := ih hstep (by omega)
    rw [Nat.add_right_comm] at hrun
    exact hrun

theorem filled_start (hbuf : buf < 2 ^ 32) : Filled entry count buf 0 ⟨entry, 0, buf, count⟩ where
  i_eq := rfl
  buf_eq := (Nat.mod_eq_of_lt hbuf).symm
  count_eq := rfl
  done := fun _ hj => absurd hj (Nat.not_lt_zero _)
  rest := fun _ _ => rfl

theorem prdtlOf_eq (h₁ : 1 ≤ count) (h₂ : count ≤ 65535) : prdtlOf count = (count - 1) / 16 + 1 := by
  rw [prdtlOf]
  omega

theorem sum_dbc (hall : ∀ j < n, (entry j).dbc = 8191) :
    ((List.range n).map fun j => (entry j).dbc + 1).sum = 8192 * n := by
  induction n with
  | zero => rfl
  | succ n ih =>
    have hlast : (entry n).dbc = 8191 := hall n (Nat.lt_succ_self n)
    rw [List.range_succ, List.map_append, List.sum_append, ih fun j hj => hall j (Nat.lt_succ_of_lt hj),
      List.map_singleton, List.sum_singleton, hlast]
    rfl

/-- **The scatter list is the buffer**, after the last entry. -/
theorem Filled.scattered (hs : Filled (cleared (n + 1) entry) count buf n s) (hbuf : buf < 2 ^ 32)
    (hlow : 16 * n + 1 ≤ count) (hhigh : count ≤ 16 * (n + 1)) : Scattered (n + 1) s.last count buf := by
  have hdbc : ((count - 16 * n) * 2 ^ 9 + 2 ^ 32 - 1) % 2 ^ 32 % 2 ^ 22 = 512 * (count - 16 * n) - 1 := by
    omega
  have hlast : s.last n = ⟨(buf + 8192 * n) % 2 ^ 32, 0, 512 * (count - 16 * n) - 1, true⟩ := by
    rw [Filling.last, hs.i_eq, Function.update_self, hs.rest n (Nat.le_refl n), hs.buf_eq, hs.count_eq,
      hdbc, cleared, if_pos (Nat.lt_succ_self n)]
  have hfirst : ∀ j < n, s.last j = ⟨(buf + 8192 * j) % 2 ^ 32, 0, 8191, true⟩ := by
    intro j hj
    rw [Filling.last, hs.i_eq, Function.update_of_ne (Nat.ne_of_lt hj), hs.done j hj, cleared,
      if_pos (Nat.lt_succ_of_lt hj)]
  have hdba : ∀ j ≤ n, (s.last j).dba = (buf + 8192 * j) % 2 ^ 32 := by
    intro j hj
    rcases Nat.lt_or_eq_of_le hj with hlt | heq
    · rw [hfirst j hlt]
    · rw [heq, hlast]
  refine ⟨?_, ?_, fun j hj => ?_, fun j hj => ?_⟩
  · rw [List.range_succ, List.map_append, List.sum_append, sum_dbc fun j hj => by rw [hfirst j hj],
      List.map_singleton, List.sum_singleton, hlast]
    show 8192 * n + (512 * (count - 16 * n) - 1 + 1) = 512 * count
    omega
  · rw [hdba 0 (Nat.zero_le n)]
    omega
  · rw [hdba (j + 1) (Nat.lt_succ_iff.mp hj), hfirst j (Nat.lt_of_succ_lt_succ hj)]
    show (buf + 8192 * (j + 1)) % 2 ^ 32 = ((buf + 8192 * j) % 2 ^ 32 + (8191 + 1)) % 2 ^ 32
    omega
  · rcases Nat.lt_or_eq_of_le (Nat.lt_succ_iff.mp hj) with hlt | heq
    · rw [hfirst j hlt]
    · rw [heq, hlast]

/-! ### The command FIS -/

/-- The address of the command is the one that was asked for. -/
theorem lba_fisOf (hl : startl < 2 ^ 32) (hh : starth < 2 ^ 16) :
    (fisOf startl starth count).lba = startl + starth * 2 ^ 32 := by
  show startl % 2 ^ 8 + startl / 2 ^ 8 % 2 ^ 8 * 2 ^ 8 + startl / 2 ^ 16 % 2 ^ 8 * 2 ^ 16 +
    startl / 2 ^ 24 % 2 ^ 8 * 2 ^ 24 + starth % 2 ^ 8 * 2 ^ 32 + starth / 2 ^ 8 % 2 ^ 8 * 2 ^ 40 = _
  omega

theorem count_fisOf (h : count < 2 ^ 16) : (fisOf startl starth count).countl +
    (fisOf startl starth count).counth * 2 ^ 8 = count := by
  show count % 2 ^ 8 + count / 2 ^ 8 % 2 ^ 8 * 2 ^ 8 = count
  omega

/-- **When the command describes the whole transfer**: with one entry in the scatter list.  With more of
them the count of the command is what was left for the last one. -/
theorem describesTransfer_iff {header : CmdHeader} {tbl : CmdTbl} (h₁ : 1 ≤ count) (h₂ : count ≤ 65535)
    (hl : startl < 2 ^ 32) (hh : starth < 2 ^ 16) (hbuf : buf < 2 ^ 32)
    (hread : read cmdslots port startl starth count buf = some (header, tbl)) :
    DescribesTransfer header tbl (startl + starth * 2 ^ 32) count buf ↔ count ≤ 16 := by
  obtain ⟨slot, -, he⟩ := Option.map_eq_some_iff.mp hread
  obtain ⟨rfl, rfl⟩ := Prod.mk.inj he
  have hprdtl := prdtlOf_eq h₁ h₂
  set n := (count - 1) / 16 with hn
  set entry := cleared (n + 1) (port.cmdtbl (port.cmdheader slot).ctba).prdtEntry with hentry
  have hstart : Filled entry count buf 0 ⟨entry, 0, buf, count⟩ := filled_start hbuf
  have hfilled := fillEntries_spec (n := n) hstart (by omega) (by omega)
  rw [Nat.zero_add] at hfilled
  have hleft := hfilled.count_eq
  have hscattered := hfilled.scattered hbuf (by omega) (by omega)
  simp only [hprdtl, Nat.add_sub_cancel]
  constructor
  · intro hd
    have hcount := hd.count_eq
    simp only at hcount
    rw [hleft, count_fisOf (by omega)] at hcount
    omega
  · intro hle
    have hcount : count - 16 * n = count := by omega
    refine ⟨hscattered, ?_, ?_⟩
    · exact lba_fisOf hl hh
    · show (fisOf startl starth _).countl + (fisOf startl starth _).counth * 2 ^ 8 = count
      rw [hleft, hcount, count_fisOf (by omega)]

/-- A port without commands. -/
def demoPort : Port where
  sact := 0
  ci := 0
  cmdheader _ := ⟨0, true, 8, 0x40A000⟩
  cmdtbl _ := ⟨fisOf 0 0 0, fun _ => ⟨0, 0, 0, false⟩⟩

/-- `core_main` reads two sectors. -/
theorem describesTransfer_iff_two : ∃ header tbl, read 32 demoPort 0 0 2 0x100000 = some (header, tbl) ∧
    DescribesTransfer header tbl (0 + 0 * 2 ^ 32) 2 0x100000 := by
  have hread : read 32 demoPort 0 0 2 0x100000 = some (_, _) := rfl
  exact ⟨_, _, hread, (describesTransfer_iff (by decide) (by decide) (by decide) (by decide) (by decide)
    hread).mpr (by decide)⟩

/-- 17 sectors are asked of the drive as one. -/
theorem seventeen_sectors_lost : ∃ header tbl, read 32 demoPort 0 0 17 0x100000 = some (header, tbl) ∧
    tbl.cfis.countl + tbl.cfis.counth * 2 ^ 8 = 1 ∧ ¬ DescribesTransfer header tbl 0 17 0x100000 := by
  refine ⟨_, _, rfl, rfl, fun h => ?_⟩
  exact absurd h.count_eq (by decide)

end OmochaOS.Ahci
