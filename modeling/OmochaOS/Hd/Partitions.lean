import OmochaOS.Hd.Transfer
import Mathlib.Data.List.Nodup

/-!
# Partitions (`modules/hd/hd.c`)

`init_partitions` fills the records of a drive from the tables on its disk, and `hd_rw_drv` moves the
sectors of a partition.  It compares the end of the transfer with the size of the partition, but what
follows is `panic`, which returns to a task in ring 1, and the transfer is made all the same.

The records `primary` and `logical` lie one behind the other in `HD_Info`, so one numbering does for both.

* `rwLoop_served` — which sectors a command moves;
* `hdRwDrv_bounded_iff` — when they are those of the partition.
-/

namespace OmochaOS.Hd

open ByteMemory

/-- `HD_PartInfo`. -/
structure PartInfo where
  bootable : ℕ
  fsid : ℕ
  base : ℕ
  size : ℕ

/-- `PART_PER_DRIVE`. -/
def partPerDrive : ℕ := 4

/-- `SUB_PER_PART`. -/
def subPerPart : ℕ := 16

/-- `SUB_PER_DRIVE`. -/
def subPerDrive : ℕ := subPerPart * partPerDrive

/-- `PRIM_PER_DRIVE`. -/
def primPerDrive : ℕ := partPerDrive + 1

/-- `HD_Info`: `primary` from 0 on, `logical` behind. -/
structure HdInfo where
  openCnt : ℕ
  records : ℕ → PartInfo

/-- `&info->primary[i]`. -/
def primary (i : ℕ) : ℕ := i

/-- `&info->logical[i]`. -/
def logical (i : ℕ) : ℕ := primPerDrive + i

def HdInfo.setRecord (info : HdInfo) (k : ℕ) (p : PartInfo) : HdInfo :=
  { info with records := Function.update info.records k p }

/-- The fields of `HD_PartTableEntity` that are used. -/
structure PartTableEntity where
  bootable : ℕ
  fsid : ℕ
  lbaBegin : ℕ
  size : ℕ

/-- An entry of a partition table in memory. -/
def entityAt (m : Memory) (a : ℕ) : PartTableEntity where
  bootable := (m a).toNat
  fsid := (m (a + 4)).toNat
  lbaBegin := readWord m (a + 8)
  size := readWord m (a + 12)

/-- `HD_PART_TYPE_EXTEND`. -/
def partTypeExtend : ℕ := 0x05

/-- `HD_PART_TYPE_NONE`. -/
def partTypeNone : ℕ := 0x00

/-- `part_table_read`: the entry `i` of the table in a sector. -/
def partTableRead (disk : Disk) (sect i : ℕ) : PartTableEntity :=
  entityAt (fun x => disk (sect % 2 ^ 28 * 512 + x)) (0x1BE + 16 * i)

/-- The loop over the tables of an extended partition, `n` of them from the `i`-th on. -/
def extLoop (disk : Disk) (extBase startExtPart : ℕ) : ℕ → (i sect : ℕ) → HdInfo → HdInfo
  | 0, _, _, info => info
  | n + 1, i, sect, info =>
    let part := partTableRead disk sect 0
    let next := partTableRead disk sect 1
    let info := info.setRecord (logical (startExtPart + i))
      ⟨part.bootable, part.fsid, (sect + part.lbaBegin) % 2 ^ 32, part.size⟩
    if next.fsid = partTypeNone then info
    else extLoop disk extBase startExtPart n (i + 1) ((extBase + next.lbaBegin) % 2 ^ 32) info

/-- `init_partitions` for an extended partition. -/
def initExtended (disk : Disk) (extendId : ℕ) (info : HdInfo) : HdInfo :=
  let extBase := (info.records (primary extendId)).base
  extLoop disk extBase ((extendId - 1) * subPerPart) subPerPart 0 extBase info

/-- The loop over the entries of the first table, `n` of them from the `i`-th on. -/
def primaryLoop (disk : Disk) : ℕ → (i : ℕ) → HdInfo → HdInfo
  | 0, _, info => info
  | n + 1, i, info =>
    let part := partTableRead disk 0 i
    if part.fsid = partTypeNone then primaryLoop disk n (i + 1) info
    else
      let info := info.setRecord (primary (i + 1)) ⟨part.bootable, part.fsid, part.lbaBegin, part.size⟩
      primaryLoop disk n (i + 1)
        (if part.fsid = partTypeExtend then initExtended disk (i + 1) info else info)

/-- `init_partitions`; the panic about a disk without a partition does not change the records. -/
def initPartitions (disk : Disk) (info : HdInfo) : HdInfo := primaryLoop disk partPerDrive 0 info

/-! ### A transfer -/

/-- `panic`, for a task in ring 1: it returns. -/
def panic (m : Machine) : Machine := m

/-- `SPLIT_DRV_DEV`. -/
def splitDrvDev (drv : ℕ) : ℕ := drv >>> 8 &&& 0xFF

/-- `SPLIT_DEV_PART`. -/
def splitDevPart (drv : ℕ) : ℕ := drv &&& 0xFF

/-- `part_info`, as long as it is set. -/
def partIndex (drvNo : ℕ) : Option ℕ :=
  if drvNo ≤ primPerDrive then some (primary drvNo)
  else if primPerDrive ≤ drvNo ∧ drvNo ≤ subPerDrive then some (logical (drvNo - primPerDrive))
  else none

/-- `hd_rw_drv`, with `stale` for what a pointer that is not set points to. -/
def hdRwDrv (hdBuf : ℕ) (hdInfo : ℕ → HdInfo) (stale : PartInfo) (rw : Bool) (buf drv lba count : ℕ)
    (m : Machine) : Except Machine (Machine × ℕ) :=
  let m := if splitDrvDev drv = 0 then m else panic m
  let device := splitDrvDev drv
  let m := if (hdInfo device).openCnt ≤ 0 then panic m else m
  let drvNo := splitDevPart drv
  let m := if partIndex drvNo = none then panic m else m
  let partInfo := (partIndex drvNo).elim stale (hdInfo device).records
  let m := if partInfo.size < (lba + sectorCount count + 2 ^ 32 - 1) % 2 ^ 32 then panic m else m
  let finalLba := (partInfo.base + lba) % 2 ^ 32
  hdRw hdBuf rw buf device finalLba count m

/-- The state in which a loop ends or waits for ever. -/
def settled : Except Machine Machine → Machine
  | .error m => m
  | .ok m => m

/-- The state in which a call ends or waits for ever. -/
def finalState (r : Except Machine (Machine × ℕ)) : Machine := settled (r.map Prod.fst)

/-- The sectors that have been moved are those of the transfer, and all that have been touched are sectors of
the partition. -/
structure MovesSectors (part : PartInfo) (rw : Bool) (lba count : ℕ) (served : List Served) : Prop where
  sectors : (served.filter fun e => e.write = rw).map Served.sector =
    (List.range ((count + 511) / 512)).map fun i => part.base + lba + i
  device : ∀ e ∈ served, e.drive = 0
  inside : ∀ e ∈ served, part.base ≤ e.sector ∧ e.sector < part.base + part.size

/-- A call moves the sectors of a transfer in a partition with a record, or nothing. -/
def Bounded (hdBuf : ℕ) (info : HdInfo) (stale : PartInfo) (rw : Bool) (buf drv lba count : ℕ) (m : Machine) :
    Prop :=
  let served := (finalState (hdRwDrv hdBuf (fun _ => info) stale rw buf drv lba count
    { m with served := [] })).served
  (∃ k < primPerDrive + subPerDrive, partIndex (splitDevPart drv) = some k ∧
    MovesSectors (info.records k) rw lba count served) ∨ served = []

variable {hdBuf addr bytes bytesLeft buf drv lba count fuel n d e s left k i : ℕ} {rw : Bool}
  {m m' : Machine} {info : HdInfo} {stale part : PartInfo} {t : Transfer}

/-! ### The records -/

theorem extLoop_records {disk : Disk} {extBase start sect : ℕ} (hstart : start + i + n ≤ subPerDrive)
    (hk : k < primPerDrive + (start + i) ∨ primPerDrive + subPerDrive ≤ k) :
    (extLoop disk extBase start n i sect info).records k = info.records k := by
  induction n generalizing i sect info with
  | zero => rfl
  | succ n ih =>
    have hne : k ≠ logical (start + i) := by
      rw [logical]
      omega
    have hset : ∀ p, (info.setRecord (logical (start + i)) p).records k = info.records k := fun p =>
      Function.update_of_ne hne _ _
    rw [extLoop]
    split
    · exact hset _
    · rw [ih (by omega) (by omega)]
      exact hset _

theorem initExtended_records {disk : Disk} (hid : 1 ≤ i) (hle : i ≤ partPerDrive)
    (hk : k < primPerDrive ∨ primPerDrive + subPerDrive ≤ k) :
    (initExtended disk i info).records k = info.records k := by
  have hdrive : subPerDrive = partPerDrive * subPerPart := Nat.mul_comm _ _
  have hpart : (i - 1) * subPerPart + subPerPart ≤ subPerDrive := by
    rw [← Nat.succ_mul, hdrive]
    exact Nat.mul_le_mul_right _ (by omega)
  rw [initExtended]
  exact extLoop_records (by omega) (by omega)

theorem primaryLoop_records {disk : Disk} (hn : i + n ≤ partPerDrive)
    (hk : k = 0 ∨ primPerDrive + subPerDrive ≤ k) :
    (primaryLoop disk n i info).records k = info.records k := by
  have hprim : primPerDrive = partPerDrive + 1 := rfl
  induction n generalizing i info with
  | zero => rfl
  | succ n ih =>
    have hne : k ≠ primary (i + 1) := by
      rw [primary]
      omega
    have hset : ∀ p, (info.setRecord (primary (i + 1)) p).records k = info.records k := fun p =>
      Function.update_of_ne hne _ _
    rw [primaryLoop]
    split
    · exact ih (by omega)
    · show (primaryLoop disk n (i + 1) (if _ then _ else _)).records k = _
      rw [ih (by omega)]
      split
      · rw [initExtended_records (by omega) (by omega) (by omega)]
        exact hset _
      · exact hset _

/-- The whole drive keeps its record, and nothing is written behind the arrays. -/
theorem initPartitions_records {disk : Disk} (hk : k = 0 ∨ primPerDrive + subPerDrive ≤ k) :
    (initPartitions disk info).records k = info.records k :=
  primaryLoop_records (Nat.le_of_eq (Nat.zero_add _)) hk

/-! ### What is served -/

/-- Without a sector the task waits, with one it is served. -/
theorem rwSector_waits (hleft : m.transfer.left = 0) :
    ∃ e, rwSector hdBuf rw addr bytes m = .error e ∧ e.served = m.served := by
  cases rw with
  | false => exact ⟨m, if_pos hleft, rfl⟩
  | true =>
    by_cases hbytes : bytes = 512
    · refine ⟨m, ?_, rfl⟩
      rw [rwSector, if_neg Bool.true_eq_false_eq_False, if_pos hbytes]
      exact if_pos hleft
    · refine ⟨m.memcpy hdBuf addr bytes, ?_, rfl⟩
      rw [rwSector, if_neg Bool.true_eq_false_eq_False, if_neg hbytes]
      exact if_pos hleft

theorem rwSector_serves (hleft : m.transfer.left ≠ 0) :
    ∃ m', rwSector hdBuf rw addr bytes m = .ok m' ∧ m'.transfer = m.transfer.serve ∧
      m'.served = m.served ++ [m.transfer.entry] := by
  cases rw with
  | false => exact ⟨_, rwSector_read hleft, rfl, rfl⟩
  | true =>
    by_cases hbytes : bytes = 512
    · subst hbytes
      exact ⟨_, rwSector_write_full hleft, rfl, rfl⟩
    · exact ⟨_, rwSector_write_part hbytes hleft, rfl, rfl⟩

/-- The entries of a transfer, as many as are asked for and not more than the drive has. -/
def Transfer.entries (t : Transfer) (n : ℕ) : List Served :=
  (List.range (min t.left n)).map fun i => ⟨t.write, t.drive, (t.lba + i) % 2 ^ 28⟩

theorem Transfer.entries_zero (t : Transfer) : t.entries 0 = [] := by
  rw [Transfer.entries, Nat.min_zero]
  rfl

theorem Transfer.entries_succ (hleft : t.left ≠ 0) (hlba : t.lba < 2 ^ 28) :
    t.entries (n + 1) = t.entry :: t.serve.entries n := by
  have hmin : min t.left (n + 1) = min (t.left - 1) n + 1 := by omega
  have hfirst : (t.lba + 0) % 2 ^ 28 = t.lba := Nat.mod_eq_of_lt hlba
  have hnext : ∀ i, ((t.lba + 1) % 2 ^ 28 + i) % 2 ^ 28 = (t.lba + (i + 1)) % 2 ^ 28 := fun i => by omega
  rw [Transfer.entries, hmin, List.range_succ_eq_map, List.map_cons, List.map_map, hfirst]
  refine congrArg (List.cons _) (List.map_congr_left fun i _ => ?_)
  show (⟨_, _, (t.lba + (i + 1)) % 2 ^ 28⟩ : Served) = ⟨_, _, ((t.lba + 1) % 2 ^ 28 + i) % 2 ^ 28⟩
  rw [hnext]
  rfl

/-- The sectors that a command moves. -/
theorem rwLoop_served (hlba : m.transfer.lba < 2 ^ 28) (hfuel : bytesLeft ≤ fuel) :
    (settled (rwLoop hdBuf rw fuel addr bytesLeft m)).served =
      m.served ++ m.transfer.entries ((bytesLeft + 511) / 512) := by
  induction fuel generalizing addr bytesLeft m with
  | zero =>
    obtain rfl := Nat.le_zero.mp hfuel
    show m.served = m.served ++ m.transfer.entries 0
    rw [Transfer.entries_zero, List.append_nil]
  | succ fuel ih =>
    by_cases hzero : bytesLeft = 0
    · subst hzero
      rw [rwLoop_zero]
      show m.served = m.served ++ m.transfer.entries 0
      rw [Transfer.entries_zero, List.append_nil]
    · by_cases hleft : m.transfer.left = 0
      · -- the drive has nothing left
        have hwait : ∃ e, rwSector hdBuf rw addr (min 512 bytesLeft) m = .error e ∧ e.served = m.served :=
          rwSector_waits hleft
        obtain ⟨e, hsector, hserved⟩ := hwait
        have hend : m.transfer.entries ((bytesLeft + 511) / 512) = [] := by
          rw [Transfer.entries, hleft, Nat.zero_min]
          rfl
        rw [rwLoop, if_neg hzero, hend, List.append_nil]
        show (settled ((rwSector hdBuf rw addr (min 512 bytesLeft) m).bind _)).served = _
        rw [hsector]
        exact hserved
      · obtain ⟨m₁, hsector, ht, hserved⟩ := rwSector_serves hleft
        have hlba₁ : m₁.transfer.lba < 2 ^ 28 := by
          rw [ht]
          exact Nat.mod_lt _ (by decide)
        have hsplit : (bytesLeft + 511) / 512 = (bytesLeft - min 512 bytesLeft + 511) / 512 + 1 := by omega
        rw [rwLoop_step hzero hsector, ih hlba₁ (by omega), hserved, hsplit,
          Transfer.entries_succ hleft hlba, List.append_assoc, ht]
        rfl

/-- What the drive is told to move. -/
def commandTransfer (rw : Bool) (drv lba n : ℕ) : Transfer :=
  ⟨rw, drv % 2, lba % 2 ^ 28, if n % 2 ^ 8 = 0 then 256 else n % 2 ^ 8⟩

theorem rwCommand_served : (settled (rwCommand hdBuf rw buf drv lba count m)).served =
    m.served ++ (commandTransfer rw drv lba (sectorCount count)).entries ((count + 511) / 512) := by
  have ht := sendCommand_transfer m rw lba drv (sectorCount count)
  have hlba := congrArg Transfer.lba ht
  rw [rwCommand, rwLoop_served (hlba.trans_lt (Nat.mod_lt _ (by decide))) (Nat.le_refl count), ht]
  rfl

/-- The sector that is read before a write that does not fill its last one. -/
def preRead (rw : Bool) (drv lba count : ℕ) : List Served :=
  if rw = true ∧ count % 512 ≠ 0 then
    [⟨false, drv % 2, (lba + sectorCount count + 2 ^ 32 - 1) % 2 ^ 32 % 2 ^ 28⟩]
  else []

/-- One sector is read to the end. -/
theorem rwCommand_oneSector : ∃ m', rwCommand hdBuf false addr drv lba 512 m = .ok m' ∧
    m'.served = m.served ++ [⟨false, drv % 2, lba % 2 ^ 28⟩] := by
  set m₁ := m.sendCommand (hdMakeCommand lba 0 drv (sectorCount 512) ataRead) with hm₁
  have ht : m₁.transfer = ⟨false, drv % 2, lba % 2 ^ 28, 1⟩ := sendCommand_transfer m false lba drv 1
  have hleft : m₁.transfer.left ≠ 0 := by
    rw [ht]
    exact Nat.one_ne_zero
  have hserve : ∃ m', rwSector hdBuf false addr (min 512 512) m₁ = .ok m' ∧
      m'.transfer = m₁.transfer.serve ∧ m'.served = m₁.served ++ [m₁.transfer.entry] :=
    rwSector_serves hleft
  obtain ⟨m', hsector, -, hserved⟩ := hserve
  refine ⟨m', ?_, ?_⟩
  · show rwLoop hdBuf false 512 addr 512 m₁ = _
    rw [rwLoop_step (by decide) hsector]
    exact rwLoop_zero
  · rw [hserved, ht]
    rfl

/-- All that `hd_rw` moves. -/
theorem hdRw_served : (finalState (hdRw hdBuf rw buf drv lba count m)).served =
    m.served ++ preRead rw drv lba count ++
      (commandTransfer rw drv lba (sectorCount count)).entries ((count + 511) / 512) := by
  have hrest : ∀ m : Machine, (finalState ((rwCommand hdBuf rw buf drv lba count m).bind
      fun m => .ok (m, count))).served = m.served ++
        (commandTransfer rw drv lba (sectorCount count)).entries ((count + 511) / 512) := by
    intro m
    rw [← rwCommand_served]
    cases rwCommand hdBuf rw buf drv lba count m with
    | error e => rfl
    | ok m' => rfl
  rw [hdRw, preRead]
  by_cases hpre : rw = true ∧ count % 512 ≠ 0
  · obtain ⟨m₁, hrun, hserved⟩ := @rwCommand_oneSector hdBuf hdBuf drv
      ((lba + sectorCount count + 2 ^ 32 - 1) % 2 ^ 32) m
    rw [if_pos hpre, if_pos hpre, hrun, ← hserved]
    exact hrest m₁
  · rw [if_neg hpre, if_neg hpre, List.append_nil]
    exact hrest m

theorem entityAt_congr {a b : ℕ} {mem mem' : Memory} (h : ∀ i < 16, mem' (b + i) = mem (a + i)) :
    entityAt mem' b = entityAt mem a := by
  have hword : ∀ o, o + 4 ≤ 16 → readWord mem' (b + o) = readWord mem (a + o) := by
    intro o ho
    refine readWord_congr fun i hi => ?_
    rw [Nat.add_assoc, Nat.add_assoc]
    exact h (o + i) (by omega)
  have hfirst : mem' b = mem a := h 0 (by decide)
  rw [entityAt, entityAt, hfirst, h 4 (by decide), hword 8 (by decide), hword 12 (by decide)]

/-- The table that `hd_rw` reads for `part_table_read` is the one in the sector. -/
theorem hdRw_partTable (happart : buf + 512 ≤ hdBuf ∨ hdBuf + hdBufferSize ≤ buf) (hi : i < partPerDrive) :
    ∃ m', hdRw hdBuf false buf drv s 512 m = .ok (m', 512) ∧
      entityAt m'.mem (buf + (0x1BE + 16 * i)) = partTableRead (m.disks (drv % 2)) s i := by
  have hbuffer : hdBufferSize = 4096 := rfl
  have hfour : partPerDrive = 4 := rfl
  have hmod : s % 2 ^ 28 + 1 ≤ 2 ^ 28 := Nat.mod_lt _ (by decide)
  obtain ⟨m', hrun, -, hmem⟩ := rwLoop_read (sendCommand_transfer m false s drv (sectorCount 512))
    (show 512 ≤ 1 * 512 by decide) hmod (show buf + 512 ≤ hdBuf ∨ hdBuf + 512 ≤ buf by omega) (Nat.le_refl 512)
  refine ⟨m', hdRw_of_command hrun, entityAt_congr fun j hj => ?_⟩
  have hpos : buf + (0x1BE + 16 * i) + j = buf + (0x1BE + 16 * i + j) := Nat.add_assoc _ _ _
  rw [hpos, hmem _ (by omega), if_pos (by omega), Nat.add_sub_cancel_left]
  rfl

/-! ### The sectors of a partition -/

theorem left_commandTransfer (rw : Bool) (drv lba : ℕ) {n : ℕ} (hone : 1 ≤ n) :
    n ≤ (commandTransfer rw drv lba n).left ↔ n ≤ 256 := by
  show n ≤ (if n % 2 ^ 8 = 0 then 256 else n % 2 ^ 8) ↔ _
  split <;> omega

theorem left_commandTransfer_le (rw : Bool) (drv lba n : ℕ) : (commandTransfer rw drv lba n).left ≤ 256 := by
  show (if n % 2 ^ 8 = 0 then 256 else n % 2 ^ 8) ≤ 256
  split <;> omega

/-- The sectors that are moved, without the one that is read before. -/
theorem filter_moved {t : Transfer} (ht : t.write = rw) :
    ((preRead rw drv lba count ++ t.entries n).filter fun e => e.write = rw).map Served.sector =
      (List.range (min t.left n)).map fun i => (t.lba + i) % 2 ^ 28 := by
  have hpre : (preRead rw drv lba count).filter (fun e => e.write = rw) = [] := by
    rw [preRead]
    split
    · next h =>
      rw [h.1]
      rfl
    · rfl
  have hmoved : (t.entries n).filter (fun e => e.write = rw) = t.entries n := by
    refine List.filter_eq_self.mpr fun e he => ?_
    obtain ⟨i, -, rfl⟩ := List.mem_map.mp he
    exact decide_eq_true ht
  rw [List.filter_append, hpre, hmoved, List.nil_append, Transfer.entries, List.map_map]
  rfl

theorem hdRwDrv_eq (hdev : splitDrvDev drv = 0) :
    hdRwDrv hdBuf (fun _ => info) stale rw buf drv lba count m =
      hdRw hdBuf rw buf 0
        ((((partIndex (splitDevPart drv)).elim stale info.records).base + lba) % 2 ^ 32) count m := by
  rw [hdRwDrv]
  simp only [panic, ite_self, hdev]

/-- All that `hd_rw` touches is among the sectors of the transfer, when the drive can count them. -/
theorem mem_touched {f : ℕ} {e : Served} (hf : f % 2 ^ 28 = s) (hcount : 1 ≤ count)
    (hn : (count + 511) / 512 ≤ 256) (hdisk : s + (count + 511) / 512 ≤ 2 ^ 28)
    (he : e ∈ preRead rw 0 f count ++
      (commandTransfer rw 0 f (sectorCount count)).entries ((count + 511) / 512)) :
    e.drive = 0 ∧ ∃ i < (count + 511) / 512, e.sector = s + i := by
  rcases List.mem_append.mp he with hpre | hmoved
  · rw [preRead] at hpre
    split at hpre
    · obtain rfl := List.mem_singleton.mp hpre
      refine ⟨rfl, (count + 511) / 512 - 1, by omega, ?_⟩
      show (f + sectorCount count + 2 ^ 32 - 1) % 2 ^ 32 % 2 ^ 28 = _
      rw [sectorCount_eq (by omega)]
      omega
    · exact absurd hpre List.not_mem_nil
  · obtain ⟨i, hi, rfl⟩ := List.mem_map.mp hmoved
    have hlt : i < (count + 511) / 512 := (List.mem_range.mp hi).trans_le (Nat.min_le_right _ _)
    refine ⟨rfl, i, hlt, ?_⟩
    show (f % 2 ^ 28 + i) % 2 ^ 28 = _
    rw [hf, Nat.mod_eq_of_lt (by omega)]

theorem movesSectors_iff (hcount : 1 ≤ count) : MovesSectors part rw lba count
    (preRead rw 0 ((part.base + lba) % 2 ^ 32) count ++
      (commandTransfer rw 0 ((part.base + lba) % 2 ^ 32) (sectorCount count)).entries ((count + 511) / 512)) ↔
    (count + 511) / 512 ≤ 256 ∧ lba + (count + 511) / 512 ≤ part.size ∧
      part.base + lba + (count + 511) / 512 ≤ 2 ^ 28 := by
  have hone : 1 ≤ (count + 511) / 512 := by omega
  set f := (part.base + lba) % 2 ^ 32 with hf
  set t := commandTransfer rw 0 f (sectorCount count) with ht
  have hwrite : t.write = rw := rfl
  constructor
  · intro h
    have hsectors := h.sectors
    rw [filter_moved hwrite] at hsectors
    have hlength := congrArg List.length hsectors
    rw [List.length_map, List.length_range, List.length_map, List.length_range] at hlength
    have hleft : t.left ≤ 256 := left_commandTransfer_le _ _ _ _
    rw [hlength] at hsectors
    -- the last sector has a number of 28 bits, and the partition has it
    have hlast := List.map_inj_left.mp hsectors ((count + 511) / 512 - 1) (List.mem_range.mpr (by omega))
    have hmem : (⟨rw, 0, (t.lba + ((count + 511) / 512 - 1)) % 2 ^ 28⟩ : Served) ∈
        t.entries ((count + 511) / 512) :=
      List.mem_map.mpr ⟨_, List.mem_range.mpr (by omega), rfl⟩
    have hinside : (t.lba + ((count + 511) / 512 - 1)) % 2 ^ 28 < part.base + part.size :=
      (h.inside _ (List.mem_append_right _ hmem)).2
    have hlt : (t.lba + ((count + 511) / 512 - 1)) % 2 ^ 28 < 2 ^ 28 := Nat.mod_lt _ (by decide)
    exact ⟨by omega, by omega, by omega⟩
  · rintro ⟨hn, hsize, hdisk⟩
    have hplace : f % 2 ^ 28 = part.base + lba := by omega
    have hall : min t.left ((count + 511) / 512) = (count + 511) / 512 := by
      refine Nat.min_eq_right ?_
      rw [ht, sectorCount_eq (by omega)]
      exact (left_commandTransfer rw 0 f hone).mpr hn
    refine ⟨?_, fun e he => (mem_touched hplace hcount hn hdisk he).1, fun e he => ?_⟩
    · rw [filter_moved hwrite, hall]
      refine List.map_congr_left fun i hi => ?_
      have hi := List.mem_range.mp hi
      show (f % 2 ^ 28 + i) % 2 ^ 28 = _
      rw [hplace, Nat.mod_eq_of_lt (by omega)]
    · obtain ⟨-, i, hi, hsector⟩ := mem_touched hplace hcount hn hdisk he
      rw [hsector]
      exact ⟨by omega, by omega⟩

/-- A number of a partition is the number of its record. -/
theorem partIndex_of_le (h : d ≤ subPerDrive) : partIndex d = some d := by
  rw [partIndex]
  by_cases hprim : d ≤ primPerDrive
  · exact if_pos hprim
  · rw [if_neg hprim, if_pos ⟨Nat.le_of_not_le hprim, h⟩]
    exact congrArg some (Nat.add_sub_cancel' (Nat.le_of_not_le hprim))

theorem partIndex_of_lt (h : subPerDrive < d) : partIndex d = none := by
  have hprim : primPerDrive ≤ subPerDrive := by decide
  rw [partIndex, if_neg (by omega)]
  exact if_neg (by omega)

/-- At least one sector is touched. -/
theorem touched_ne_nil {f : ℕ} (hcount : 1 ≤ count) :
    preRead rw 0 f count ++
      (commandTransfer rw 0 f (sectorCount count)).entries ((count + 511) / 512) ≠ [] := by
  intro hnil
  have hleft : (commandTransfer rw 0 f (sectorCount count)).left ≠ 0 := by
    show (if sectorCount count % 2 ^ 8 = 0 then 256 else sectorCount count % 2 ^ 8) ≠ 0
    split <;> omega
  have hlength := congrArg List.length (List.append_eq_nil_iff.mp hnil).2
  rw [Transfer.entries, List.length_map, List.length_range] at hlength
  have hzero : min (commandTransfer rw 0 f (sectorCount count)).left ((count + 511) / 512) = 0 := hlength
  omega

/-- The transfers that stay in a partition, for any records. -/
theorem bounded_iff (hdev : splitDrvDev drv = 0) (hcount : 1 ≤ count) :
    Bounded hdBuf info stale rw buf drv lba count m ↔
      splitDevPart drv ≤ subPerDrive ∧ (count + 511) / 512 ≤ 256 ∧
        lba + (count + 511) / 512 ≤ (info.records (splitDevPart drv)).size ∧
        (info.records (splitDevPart drv)).base + lba + (count + 511) / 512 ≤ 2 ^ 28 := by
  rw [Bounded, hdRwDrv_eq hdev, hdRw_served, List.nil_append]
  set k := splitDevPart drv with hk
  by_cases hpart : k ≤ subPerDrive
  · rw [partIndex_of_le hpart]
    constructor
    · rintro (⟨k', -, hrecord, hmoves⟩ | hnil)
      · obtain rfl := Option.some.inj hrecord
        exact ⟨hpart, (movesSectors_iff hcount).mp hmoves⟩
      · exact absurd hnil (touched_ne_nil hcount)
    · intro h
      have hlt : k < primPerDrive + subPerDrive := by
        rw [primPerDrive]
        omega
      exact Or.inl ⟨k, hlt, rfl, (movesSectors_iff hcount).mpr h.2⟩
  · rw [partIndex_of_lt (Nat.lt_of_not_le hpart)]
    constructor
    · rintro (⟨k', -, hrecord, -⟩ | hnil)
      · cases hrecord
      · exact absurd hnil (touched_ne_nil hcount)
    · exact fun h => absurd h.1 hpart

/-- **The transfers that stay in a partition of a disk.**  What is tested before the transfer does not count. -/
theorem hdRwDrv_bounded_iff (disk : Disk) (info : HdInfo) (stale : PartInfo) (rw : Bool)
    (hdBuf buf drv lba count : ℕ) (m : Machine) (hdev : splitDrvDev drv = 0) (hcount : 1 ≤ count) :
    Bounded hdBuf (initPartitions disk info) stale rw buf drv lba count m ↔
      splitDevPart drv ≤ subPerDrive ∧ (count + 511) / 512 ≤ 256 ∧
        lba + (count + 511) / 512 ≤ ((initPartitions disk info).records (splitDevPart drv)).size ∧
        ((initPartitions disk info).records (splitDevPart drv)).base + lba + (count + 511) / 512 ≤ 2 ^ 28 :=
  bounded_iff hdev hcount

/-- A disk with one partition, of 10 sectors from 63 on. -/
def onePartDisk : Disk := fun x =>
  if x = 0x1BE + 4 then 0x83 else if x = 0x1BE + 8 then 63 else if x = 0x1BE + 12 then 10 else 0

def blankInfo : HdInfo := ⟨1, fun _ => ⟨0, 0, 0, 0⟩⟩

def blankMachine : Machine := ⟨fun _ => 0, fun _ => onePartDisk, ⟨false, 0, 0, 0⟩, []⟩

theorem onePart_record : ((initPartitions onePartDisk blankInfo).records 1).base = 63 ∧
    ((initPartitions onePartDisk blankInfo).records 1).size = 10 := by
  decide +kernel

theorem hdRwDrv_bounded_iff_one : splitDrvDev 1 = 0 ∧
    Bounded 0 (initPartitions onePartDisk blankInfo) ⟨0, 0, 0, 0⟩ true 10000 1 9 512 blankMachine := by
  refine ⟨rfl, (hdRwDrv_bounded_iff onePartDisk blankInfo ⟨0, 0, 0, 0⟩ true 0 10000 1 9 512 blankMachine
    rfl (by decide)).mpr ⟨by decide, by decide, ?_, ?_⟩⟩
  · show 10 ≤ ((initPartitions onePartDisk blankInfo).records 1).size
    rw [onePart_record.2]
  · show ((initPartitions onePartDisk blankInfo).records 1).base + 10 ≤ 2 ^ 28
    rw [onePart_record.1]
    decide

/-- The sector behind the partition, and the one ten further on, for which the test fails, are written. -/
theorem beyond_partition_written :
    ¬ Bounded 0 (initPartitions onePartDisk blankInfo) ⟨0, 0, 0, 0⟩ true 10000 1 10 512 blankMachine ∧
    ¬ Bounded 0 (initPartitions onePartDisk blankInfo) ⟨0, 0, 0, 0⟩ true 10000 1 20 512 blankMachine := by
  have hsize : ((initPartitions onePartDisk blankInfo).records (splitDevPart 1)).size = 10 := onePart_record.2
  constructor
  · rw [bounded_iff rfl (by decide), hsize]
    exact fun h => absurd h.2.2.1 (by decide)
  · rw [bounded_iff rfl (by decide), hsize]
    exact fun h => absurd h.2.2.1 (by decide)

end OmochaOS.Hd
