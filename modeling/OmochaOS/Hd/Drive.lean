import OmochaOS.Lib.ByteMemory
import Mathlib.Logic.Function.Basic

/-!
# The hard disk (`modules/hd/hd.c`)

`hd_rw` gives a command to the drive and moves the sectors through the data port, one after the other, with
a message from the interrupt for each.  A drive is an array of bytes with a transfer that is going on: it
serves as many sectors as its command says, 256 for a count of zero, and numbers them with 28 bits.  The
sectors that have been served are kept in a list.

A task that waits for an interrupt when the drive has no sector left does not go on: the run ends there, in
the state of that moment.  `panic` does not stop a task outside ring 0, so the branches that end in it are
left through.
-/

namespace OmochaOS.Hd

open ByteMemory

/-- `HD_Command`. -/
structure HdCommand where
  command : ℕ
  features : ℕ
  lbaLow : ℕ
  lbaMid : ℕ
  lbaHigh : ℕ
  counts : ℕ
  device : ℕ

/-- `ATA_READ`. -/
def ataRead : ℕ := 0x20

/-- `ATA_WRITE`. -/
def ataWrite : ℕ := 0x30

/-- `HD_make_command`; the arguments but the first one are bytes. -/
def hdMakeCommand (lba feature drive count command : ℕ) : HdCommand where
  counts := count % 2 ^ 8
  device := ((lba >>> 24 &&& 0xF) ||| 0xE0 ||| (drive % 2 ^ 8) <<< 4) % 2 ^ 8
  lbaLow := lba &&& 0xFF
  lbaMid := lba >>> 8 &&& 0xFF
  lbaHigh := lba >>> 16 &&& 0xFF
  features := feature
  command := command

/-- The bytes of a disk. -/
abbrev Disk := ℕ → UInt8

/-- What the drive is about to serve. -/
structure Transfer where
  write : Bool
  drive : ℕ
  lba : ℕ
  left : ℕ

/-- A sector that has been served. -/
structure Served where
  write : Bool
  drive : ℕ
  sector : ℕ
deriving DecidableEq

/-- Memory, the two drives, and what has been served. -/
structure Machine where
  mem : Memory
  disks : ℕ → Disk
  transfer : Transfer
  served : List Served

/-- The number of the sector that a command names. -/
def HdCommand.lba (cmd : HdCommand) : ℕ :=
  cmd.lbaLow + cmd.lbaMid * 2 ^ 8 + cmd.lbaHigh * 2 ^ 16 + cmd.device % 2 ^ 4 * 2 ^ 24

/-- `HD_send_command`. -/
def Machine.sendCommand (m : Machine) (cmd : HdCommand) : Machine :=
  { m with
    transfer := {
      write := cmd.command = ataWrite
      drive := cmd.device / 2 ^ 4 % 2
      lba := cmd.lba
      left := if cmd.counts = 0 then 256 else cmd.counts } }

/-- The transfer after a sector. -/
def Transfer.serve (t : Transfer) : Transfer := { t with lba := (t.lba + 1) % 2 ^ 28, left := t.left - 1 }

/-- The entry for the next sector. -/
def Transfer.entry (t : Transfer) : Served := ⟨t.write, t.drive, t.lba⟩

/-- `insl(HD_REG_DATA, addr, SECTOR_SIZE / 4)`, when a sector is there. -/
def Machine.insl (m : Machine) (addr : ℕ) : Machine :=
  { m with
    mem := fun x =>
      if addr ≤ x ∧ x < addr + 512 then m.disks m.transfer.drive (m.transfer.lba * 512 + (x - addr))
      else m.mem x
    transfer := m.transfer.serve
    served := m.served ++ [m.transfer.entry] }

/-- `outsl(HD_REG_DATA, addr, SECTOR_SIZE / 4)`, when a sector is asked for. -/
def Machine.outsl (m : Machine) (addr : ℕ) : Machine :=
  { m with
    disks := Function.update m.disks m.transfer.drive fun x =>
      if m.transfer.lba * 512 ≤ x ∧ x < m.transfer.lba * 512 + 512 then m.mem (addr + (x - m.transfer.lba * 512))
      else m.disks m.transfer.drive x
    transfer := m.transfer.serve
    served := m.served ++ [m.transfer.entry] }

/-- `memcpy(dst, src, n)`. -/
def Machine.memcpy (m : Machine) (dst src n : ℕ) : Machine := { m with mem := copy m.mem dst src n }

section Code

-- `hdBuf` is the address of `hd_buf`
variable (hdBuf : ℕ)

/-- `HD_BUFFER_SIZE`. -/
def hdBufferSize : ℕ := 4096

/-- One round of the loop in `hd_rw`: the state in which the task waits for ever, or the next one. -/
def rwSector (rw : Bool) (addr bytes : ℕ) (m : Machine) : Except Machine Machine :=
  if rw = false then
    if m.transfer.left = 0 then .error m
    else .ok ((m.insl hdBuf).memcpy addr hdBuf bytes)
  else
    if bytes = 512 then if m.transfer.left = 0 then .error m else .ok (m.outsl addr)
    else
      let m := m.memcpy hdBuf addr bytes
      if m.transfer.left = 0 then .error m else .ok (m.outsl hdBuf)

/-- `while (bytes_left)`, with fuel for each byte. -/
def rwLoop (rw : Bool) : (fuel addr bytesLeft : ℕ) → Machine → Except Machine Machine
  | 0, _, _, m => .ok m
  | fuel + 1, addr, bytesLeft, m =>
    if bytesLeft = 0 then .ok m
    else do
      let bytes := min 512 bytesLeft
      let m ← rwSector hdBuf rw addr bytes m
      rwLoop rw fuel (addr + bytes) (bytesLeft - bytes) m

/-- `(count + SECTOR_SIZE - 1) / SECTOR_SIZE`. -/
def sectorCount (count : ℕ) : ℕ := (count + 511) % 2 ^ 32 / 512

/-- `hd_rw` after the read for the last sector. -/
def rwCommand (rw : Bool) (buf drv lba count : ℕ) (m : Machine) : Except Machine Machine :=
  rwLoop hdBuf rw count buf count
    (m.sendCommand (hdMakeCommand lba 0 drv (sectorCount count) (if rw then ataWrite else ataRead)))

/-- `hd_rw`, with what it returns. -/
def hdRw (rw : Bool) (buf drv lba count : ℕ) (m : Machine) : Except Machine (Machine × ℕ) := do
  let m ← if rw = true ∧ count % 512 ≠ 0 then
      rwCommand hdBuf false hdBuf drv ((lba + sectorCount count + 2 ^ 32 - 1) % 2 ^ 32) 512 m
    else .ok m
  let m ← rwCommand hdBuf rw buf drv lba count m
  pure (m, count)

end Code

variable {hdBuf addr bytes bytesLeft buf drv lba count feature command fuel n : ℕ} {rw : Bool}
  {m m' : Machine}

/-! ### Commands -/

theorem device_eq : (hdMakeCommand lba feature drv count command).device =
    ((14 ||| drv % 2 ^ 8) * 2 ^ 4 + lba / 2 ^ 24 % 2 ^ 4) % 2 ^ 8 := by
  have hlow : lba >>> 24 &&& 0xF = lba / 2 ^ 24 % 2 ^ 4 := by
    rw [Nat.shiftRight_eq_div_pow]
    exact Nat.and_two_pow_sub_one_eq_mod _ 4
  have hhigh : 0xE0 ||| (drv % 2 ^ 8) <<< 4 = (14 ||| drv % 2 ^ 8) <<< 4 := by
    rw [Nat.shiftLeft_or_distrib]
    rfl
  have hlt : lba / 2 ^ 24 % 2 ^ 4 < 2 ^ 4 := Nat.mod_lt _ (by decide)
  show ((lba >>> 24 &&& 0xF) ||| 0xE0 ||| (drv % 2 ^ 8) <<< 4) % 2 ^ 8 = _
  rw [Nat.or_assoc, hhigh, hlow, Nat.or_comm, ← Nat.shiftLeft_add_eq_or_of_lt hlt, Nat.shiftLeft_eq]

/-- The number in a command has 28 bits. -/
theorem lba_hdMakeCommand : (hdMakeCommand lba feature drv count command).lba = lba % 2 ^ 28 := by
  have hlow : lba &&& 0xFF = lba % 2 ^ 8 := Nat.and_two_pow_sub_one_eq_mod lba 8
  have hmid : lba >>> 8 &&& 0xFF = lba / 2 ^ 8 % 2 ^ 8 := by
    rw [Nat.shiftRight_eq_div_pow]
    exact Nat.and_two_pow_sub_one_eq_mod _ 8
  have hhigh : lba >>> 16 &&& 0xFF = lba / 2 ^ 16 % 2 ^ 8 := by
    rw [Nat.shiftRight_eq_div_pow]
    exact Nat.and_two_pow_sub_one_eq_mod _ 8
  rw [HdCommand.lba, device_eq]
  show (lba &&& 0xFF) + (lba >>> 8 &&& 0xFF) * 2 ^ 8 + (lba >>> 16 &&& 0xFF) * 2 ^ 16 + _ = _
  rw [hlow, hmid, hhigh]
  omega

theorem drive_hdMakeCommand :
    (hdMakeCommand lba feature drv count command).device / 2 ^ 4 % 2 = drv % 2 := by
  have hbit : (14 ||| drv % 2 ^ 8) % 2 ^ 1 = drv % 2 ^ 8 % 2 ^ 1 := by
    rw [Nat.or_mod_two_pow]
    exact Nat.zero_or _
  rw [device_eq]
  omega

/-- What the drive serves after a command of `hd_rw`. -/
theorem sendCommand_transfer (m : Machine) (rw : Bool) (lba drv n : ℕ) :
    (m.sendCommand (hdMakeCommand lba 0 drv n (if rw then ataWrite else ataRead))).transfer =
      ⟨rw, drv % 2, lba % 2 ^ 28, if n % 2 ^ 8 = 0 then 256 else n % 2 ^ 8⟩ := by
  show (⟨decide ((if rw then ataWrite else ataRead) = ataWrite), (hdMakeCommand lba 0 drv n _).device / 2 ^ 4 % 2,
    (hdMakeCommand lba 0 drv n _).lba, _⟩ : Transfer) = _
  rw [drive_hdMakeCommand, lba_hdMakeCommand]
  cases rw with
  | false => rfl
  | true => rfl

end OmochaOS.Hd
