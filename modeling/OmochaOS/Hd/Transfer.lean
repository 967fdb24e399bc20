import OmochaOS.Hd.Drive

/-!
# Reading and writing sectors (`modules/hd/hd.c`)

`hd_rw` writes whole sectors from the buffer of its caller.  The last one, when it is not filled, is read
into `hd_buf` before, and written from there with the new bytes in front.  Reading, each sector comes by
`hd_buf`.

* `rwLoop_read`, `rwLoop_write` — the loop, with what it leaves in memory or on the disk;
* `hdRw_keeps_tail` — a write changes its bytes only, and they are read back.
-/

namespace OmochaOS.Hd

open ByteMemory

variable {hdBuf addr bytes bytesLeft buf drv lba count fuel n d e s left x : ℕ} {rw : Bool}
  {m m' : Machine}

/-! ### One sector -/

/-- A sector is read by way of `hd_buf`. -/
theorem rwSector_read (hleft : m.transfer.left ≠ 0) : rwSector hdBuf false addr bytes m =
    .ok ((m.insl hdBuf).memcpy addr hdBuf bytes) := by
  rw [rwSector, if_pos rfl, if_neg hleft]

theorem rwSector_write_full (hleft : m.transfer.left ≠ 0) : rwSector hdBuf true addr 512 m =
    .ok (m.outsl addr) := by
  rw [rwSector, if_neg Bool.true_eq_false_eq_False, if_pos rfl, if_neg hleft]

theorem rwSector_write_part (hbytes : bytes ≠ 512) (hleft : m.transfer.left ≠ 0) :
    rwSector hdBuf true addr bytes m = .ok ((m.memcpy hdBuf addr bytes).outsl hdBuf) := by
  rw [rwSector, if_neg Bool.true_eq_false_eq_False, if_neg hbytes]
  exact if_neg hleft

theorem rwLoop_zero : rwLoop hdBuf rw fuel addr 0 m = .ok m := by
  cases fuel with
  | zero => rfl
  | succ fuel => rfl

theorem rwLoop_step (hbytes : bytesLeft ≠ 0)
    (h : rwSector hdBuf rw addr (min 512 bytesLeft) m = .ok m') :
    rwLoop hdBuf rw (fuel + 1) addr bytesLeft m =
      rwLoop hdBuf rw fuel (addr + min 512 bytesLeft) (bytesLeft - min 512 bytesLeft) m' := by
  rw [rwLoop, if_neg hbytes]
  show (rwSector hdBuf rw addr (min 512 bytesLeft) m).bind _ = _
  rw [h]
  rfl

/-- The next sector. -/
theorem exists_next (s : ℕ) : ∃ s₁, (s + 1) % 2 ^ 28 = s₁ ∧ s₁ ≤ s + 1 ∧
    (s + 1 < 2 ^ 28 → s₁ * 512 = s * 512 + 512) := by
  refine ⟨_, rfl, Nat.mod_le _ _, fun hlt => ?_⟩
  rw [Nat.mod_eq_of_lt hlt, Nat.succ_mul]

theorem block_empty {a x : ℕ} : ¬ (a ≤ x ∧ x < a + 0) := fun h => Nat.not_lt.mpr h.1 h.2

/-- A block of bytes, and another one behind it. -/
theorem splice {β : Type} (f : ℕ → β) {a k n x : ℕ} {u : β} :
    (if a + k ≤ x ∧ x < a + k + n then f (k + (x - (a + k))) else
      if a ≤ x ∧ x < a + k then f (x - a) else u) = if a ≤ x ∧ x < a + (n + k) then f (x - a) else u := by
  by_cases hrest : a + k ≤ x ∧ x < a + k + n
  · have hpos : k + (x - (a + k)) = x - a := by omega
    rw [if_pos hrest, if_pos (by omega), hpos]
  · rw [if_neg hrest]
    by_cases hfirst : a ≤ x ∧ x < a + k
    · rw [if_pos hfirst, if_pos (by omega)]
    · rw [if_neg hfirst, if_neg (by omega)]

/-! ### Reading -/

/-- What is read is what is on the disk; outside of the buffer and of `hd_buf` nothing is written. -/
theorem rwLoop_read (ht : m.transfer = ⟨false, d, s, left⟩) (hleft : bytesLeft ≤ left * 512)
    (hs : s + left ≤ 2 ^ 28) (happart : addr + bytesLeft ≤ hdBuf ∨ hdBuf + 512 ≤ addr)
    (hfuel : bytesLeft ≤ fuel) :
    ∃ m', rwLoop hdBuf false fuel addr bytesLeft m = .ok m' ∧ m'.disks = m.disks ∧
      ∀ x, x < hdBuf ∨ hdBuf + 512 ≤ x → m'.mem x =
        if addr ≤ x ∧ x < addr + bytesLeft then m.disks d (s * 512 + (x - addr)) else m.mem x := by
  induction fuel generalizing addr bytesLeft m s left with
  | zero =>
    obtain rfl := Nat.le_zero.mp hfuel
    exact ⟨m, rfl, rfl, fun x _ => (if_neg (by omega)).symm⟩
  | succ fuel ih =>
    by_cases hzero : bytesLeft = 0
    · subst hzero
      exact ⟨m, rwLoop_zero, rfl, fun x _ => (if_neg (by omega)).symm⟩
    · have hleft0 : m.transfer.left ≠ 0 := by
        rw [ht]
        show left ≠ 0
        omega
      set m₁ := (m.insl hdBuf).memcpy addr hdBuf (min 512 bytesLeft) with hm₁
      have hsector₁ : rwSector hdBuf false addr (min 512 bytesLeft) m = .ok m₁ := rwSector_read hleft0
      obtain ⟨s₁, hmod, hle, hnext⟩ := exists_next s
      have ht₁ : m₁.transfer = ⟨false, d, s₁, left - 1⟩ := by
        show m.transfer.serve = _
        rw [ht, ← hmod]
        rfl
      obtain ⟨m', hrun, hdisks, hmem⟩ := ih ht₁ (show bytesLeft - min 512 bytesLeft ≤ (left - 1) * 512 by omega)
        (by omega) (show addr + min 512 bytesLeft + (bytesLeft - min 512 bytesLeft) ≤ hdBuf ∨
          hdBuf + 512 ≤ addr + min 512 bytesLeft by omega) (by omega)
      refine ⟨m', (rwLoop_step hzero hsector₁).trans hrun, hdisks, fun x hx => ?_⟩
      have hfirst : m₁.mem x =
          if addr ≤ x ∧ x < addr + min 512 bytesLeft then m.disks d (s * 512 + (x - addr)) else m.mem x := by
        show copy (m.insl hdBuf).mem addr hdBuf (min 512 bytesLeft) x = _
        rw [copy]
        by_cases hin : addr ≤ x ∧ x < addr + min 512 bytesLeft
        · rw [if_pos hin, if_pos hin]
          show (if hdBuf ≤ hdBuf + (x - addr) ∧ hdBuf + (x - addr) < hdBuf + 512 then
            m.disks m.transfer.drive (m.transfer.lba * 512 + (hdBuf + (x - addr) - hdBuf)) else _) = _
          rw [if_pos (by omega), ht, Nat.add_sub_cancel_left]
        · rw [if_neg hin, if_neg hin]
          exact if_neg (by omega)
      have hsplice := splice (fun i => m.disks d (s * 512 + i)) (a := addr) (k := min 512 bytesLeft)
        (n := bytesLeft - min 512 bytesLeft) (x := x) (u := m.mem x)
      rw [Nat.sub_add_cancel (Nat.min_le_right _ _)] at hsplice
      rw [hmem x hx, hfirst, ← hsplice]
      show (if _ then m.disks d _ else _) = _
      by_cases hrest : bytesLeft - min 512 bytesLeft = 0
      · rw [hrest, if_neg block_empty, if_neg block_empty]
      · have hmin : min 512 bytesLeft = 512 := by omega
        rw [hmin, hnext (by omega), Nat.add_assoc (s * 512)]

/-! ### Writing -/

/-- The bytes of a sector of the disk are replaced. -/
theorem outsl_disks (ht : m.transfer = ⟨true, d, s, left⟩) : (m.outsl addr).disks d x =
    if s * 512 ≤ x ∧ x < s * 512 + 512 then m.mem (addr + (x - s * 512)) else m.disks d x := by
  rw [Machine.outsl, ht]
  show Function.update m.disks d (fun x => if s * 512 ≤ x ∧ x < s * 512 + 512 then
    m.mem (addr + (x - s * 512)) else m.disks d x) d x = _
  rw [Function.update_self]

theorem outsl_disks_of_ne (ht : m.transfer = ⟨true, d, s, left⟩) (he : e ≠ d) :
    (m.outsl addr).disks e = m.disks e := by
  rw [Machine.outsl, ht]
  exact Function.update_of_ne he _ _

theorem outsl_transfer (ht : m.transfer = ⟨true, d, s, left⟩) :
    (m.outsl addr).transfer = ⟨true, d, (s + 1) % 2 ^ 28, left - 1⟩ := by
  rw [Machine.outsl, ht]
  rfl

/-- What is written is what is in memory, and the last sector keeps its other bytes, which `hd_buf` has. -/
theorem rwLoop_write (ht : m.transfer = ⟨true, d, s, left⟩) (hleft : bytesLeft ≤ left * 512)
    (hs : s + left ≤ 2 ^ 28) (happart : addr + bytesLeft ≤ hdBuf ∨ hdBuf + 512 ≤ addr)
    (htail : bytesLeft % 512 ≠ 0 → ∀ i, bytesLeft % 512 ≤ i → i < 512 →
      m.mem (hdBuf + i) = m.disks d ((s + bytesLeft / 512) * 512 + i)) (hfuel : bytesLeft ≤ fuel) :
    ∃ m', rwLoop hdBuf true fuel addr bytesLeft m = .ok m' ∧ (∀ e ≠ d, m'.disks e = m.disks e) ∧
      ∀ x, m'.disks d x =
        if s * 512 ≤ x ∧ x < s * 512 + bytesLeft then m.mem (addr + (x - s * 512)) else m.disks d x := by
  induction fuel generalizing addr bytesLeft m s left with
  | zero =>
    obtain rfl := Nat.le_zero.mp hfuel
    exact ⟨m, rfl, fun _ _ => rfl, fun x => (if_neg (by omega)).symm⟩
  | succ fuel ih =>
    by_cases hzero : bytesLeft = 0
    · subst hzero
      exact ⟨m, rwLoop_zero, fun _ _ => rfl, fun x => (if_neg (by omega)).symm⟩
    · have hleft0 : m.transfer.left ≠ 0 := by
        rw [ht]
        show left ≠ 0
        omega
      by_cases hfull : 512 ≤ bytesLeft
      · -- a whole sector, from the buffer of the caller
        obtain ⟨rest, rfl⟩ : ∃ rest, bytesLeft = rest + 512 := ⟨bytesLeft - 512, by omega⟩
        obtain ⟨s₁, hmod, hle, hnext⟩ := exists_next s
        have ht₁ : (m.outsl addr).transfer = ⟨true, d, s₁, left - 1⟩ := by rw [outsl_transfer ht, hmod]
        have hmin : min 512 (rest + 512) = 512 := Nat.min_eq_left hfull
        have hsector : rwSector hdBuf true addr (min 512 (rest + 512)) m = .ok (m.outsl addr) := by
          rw [hmin]
          exact rwSector_write_full hleft0
        have hkeep : rest % 512 ≠ 0 → ∀ i, rest % 512 ≤ i → i < 512 →
            (m.outsl addr).mem (hdBuf + i) = (m.outsl addr).disks d ((s₁ + rest / 512) * 512 + i) := by
          intro hrest i hi hlt
          have hlast : (s₁ + rest / 512) * 512 = (s + (rest + 512) / 512) * 512 := by
            rw [Nat.add_div_right rest (by decide), Nat.add_mul, hnext (by omega), Nat.add_mul, Nat.succ_mul]
            omega
          rw [hlast, outsl_disks ht, if_neg (by omega)]
          exact htail (by omega) i (by omega) hlt
        obtain ⟨m', hrun, hothers, hdisk⟩ := ih ht₁ (show rest ≤ (left - 1) * 512 by omega) (by omega)
          (show addr + 512 + rest ≤ hdBuf ∨ hdBuf + 512 ≤ addr + 512 by omega) hkeep (by omega)
        refine ⟨m', ?_, fun e he => ?_, fun x => ?_⟩
        · rw [rwLoop_step hzero hsector, hmin, Nat.add_sub_cancel]
          exact hrun
        · rw [hothers e he, outsl_disks_of_ne ht he]
        · rw [hdisk x]
          show (if _ then m.mem _ else _) = _
          rw [outsl_disks ht, ← splice fun i => m.mem (addr + i)]
          by_cases hrest : rest = 0
          · rw [hrest, if_neg block_empty, if_neg block_empty]
          · rw [hnext (by omega), Nat.add_assoc addr]
      · -- the last bytes, by way of `hd_buf`
        have hmin : min 512 bytesLeft = bytesLeft := Nat.min_eq_right (by omega)
        have ht₁ : (m.memcpy hdBuf addr bytesLeft).transfer = ⟨true, d, s, left⟩ := ht
        have hsector : rwSector hdBuf true addr (min 512 bytesLeft) m =
            .ok ((m.memcpy hdBuf addr bytesLeft).outsl hdBuf) := by
          rw [hmin]
          exact rwSector_write_part (by omega) hleft0
        refine ⟨(m.memcpy hdBuf addr bytesLeft).outsl hdBuf, ?_, fun e he => ?_, fun x => ?_⟩
        · rw [rwLoop_step hzero hsector, hmin, Nat.sub_self, rwLoop_zero]
        · exact outsl_disks_of_ne ht₁ he
        · rw [outsl_disks ht₁]
          by_cases hin : s * 512 ≤ x ∧ x < s * 512 + 512
          · rw [if_pos hin]
            show copy m.mem hdBuf addr bytesLeft (hdBuf + (x - s * 512)) = _
            by_cases hnew : x < s * 512 + bytesLeft
            · rw [copy_of_mem (by omega), if_pos ⟨hin.1, hnew⟩]
            · have hpos : (s + bytesLeft / 512) * 512 + (x - s * 512) = x := by omega
              rw [copy_of_notMem (by omega), if_neg (by omega),
                htail (by omega) (x - s * 512) (by omega) (by omega), hpos]
          · rw [if_neg hin, if_neg (by omega)]
            rfl

/-! ### The whole call -/

theorem sectorCount_eq (hn : (count + 511) / 512 < 2 ^ 23) : sectorCount count = (count + 511) / 512 := by
  rw [sectorCount, Nat.mod_eq_of_lt (by omega)]

/-- The drive is asked for the sectors of the transfer. -/
theorem sendCommand_whole (m : Machine) (rw : Bool) (drv : ℕ) (hcount : 1 ≤ count)
    (hn : (count + 511) / 512 ≤ 255) (hlba : lba + (count + 511) / 512 ≤ 2 ^ 28) :
    (m.sendCommand (hdMakeCommand lba 0 drv (sectorCount count) (if rw then ataWrite else ataRead))).transfer =
      ⟨rw, drv % 2, lba, (count + 511) / 512⟩ := by
  have hmod : lba % 2 ^ 28 = lba := Nat.mod_eq_of_lt (by omega)
  have hbyte : (count + 511) / 512 % 2 ^ 8 = (count + 511) / 512 := Nat.mod_eq_of_lt (by omega)
  rw [sendCommand_transfer, hmod, sectorCount_eq (by omega), hbyte, if_neg (by omega)]

/-- The read for the last sector: `hd_buf` is the buffer. -/
theorem rwCommand_lastSector (m : Machine) (drv : ℕ) (hlba : lba < 2 ^ 28) :
    ∃ m', rwCommand hdBuf false hdBuf drv lba 512 m = .ok m' ∧ m'.disks = m.disks ∧
      ∀ x, m'.mem x =
        if hdBuf ≤ x ∧ x < hdBuf + 512 then m.disks (drv % 2) (lba * 512 + (x - hdBuf)) else m.mem x := by
  set m₁ := m.sendCommand (hdMakeCommand lba 0 drv (sectorCount 512) ataRead) with hm₁
  have ht : m₁.transfer = ⟨false, drv % 2, lba, 1⟩ :=
    sendCommand_whole m false drv (by decide) (by decide) (show lba + 1 ≤ 2 ^ 28 from hlba)
  have hleft : m₁.transfer.left ≠ 0 := by
    rw [ht]
    exact Nat.one_ne_zero
  have hsector : rwSector hdBuf false hdBuf (min 512 512) m₁ =
      .ok ((m₁.insl hdBuf).memcpy hdBuf hdBuf 512) := rwSector_read hleft
  refine ⟨(m₁.insl hdBuf).memcpy hdBuf hdBuf 512, ?_, rfl, fun x => ?_⟩
  · show rwLoop hdBuf false 512 hdBuf 512 m₁ = _
    rw [rwLoop_step (by decide) hsector]
    exact rwLoop_zero
  · show copy (m₁.insl hdBuf).mem hdBuf hdBuf 512 x = _
    rw [copy]
    by_cases hin : hdBuf ≤ x ∧ x < hdBuf + 512
    · rw [if_pos hin, if_pos hin, Nat.add_sub_cancel' hin.1]
      show (if hdBuf ≤ x ∧ x < hdBuf + 512 then
        m.disks m₁.transfer.drive (m₁.transfer.lba * 512 + (x - hdBuf)) else _) = _
      rw [if_pos hin, ht]
    · rw [if_neg hin, if_neg hin]
      exact if_neg hin

/-- The bytes of a write, when `hd_buf` has the rest of the last sector. -/
theorem rwCommand_write (m : Machine) (drv : ℕ) (hcount : 1 ≤ count) (hn : (count + 511) / 512 ≤ 255)
    (hlba : lba + (count + 511) / 512 ≤ 2 ^ 28)
    (happart : buf + count ≤ hdBuf ∨ hdBuf + hdBufferSize ≤ buf)
    (htail : count % 512 ≠ 0 → ∀ i, count % 512 ≤ i → i < 512 →
      m.mem (hdBuf + i) = m.disks (drv % 2) ((lba + count / 512) * 512 + i)) :
    ∃ m', rwCommand hdBuf true buf drv lba count m = .ok m' ∧
      (∀ e ≠ drv % 2, m'.disks e = m.disks e) ∧ ∀ x, m'.disks (drv % 2) x =
        if lba * 512 ≤ x ∧ x < lba * 512 + count then m.mem (buf + (x - lba * 512))
        else m.disks (drv % 2) x := by
  have hbuffer : hdBufferSize = 4096 := rfl
  exact rwLoop_write (sendCommand_whole m true drv hcount hn hlba) (by omega) hlba (by omega) htail
    (Nat.le_refl count)

theorem hdRw_write (m : Machine) (drv : ℕ) (hcount : 1 ≤ count) (hn : (count + 511) / 512 ≤ 255)
    (hlba : lba + (count + 511) / 512 ≤ 2 ^ 28)
    (happart : buf + count ≤ hdBuf ∨ hdBuf + hdBufferSize ≤ buf) :
    ∃ m', hdRw hdBuf true buf drv lba count m = .ok (m', count) ∧
      (∀ e ≠ drv % 2, m'.disks e = m.disks e) ∧ ∀ x, m'.disks (drv % 2) x =
        if lba * 512 ≤ x ∧ x < lba * 512 + count then m.mem (buf + (x - lba * 512))
        else m.disks (drv % 2) x := by
  rw [hdRw]
  by_cases hpart : count % 512 = 0
  · obtain ⟨m', hrun, hothers, hdisk⟩ := rwCommand_write m drv hcount hn hlba happart
      fun hne => absurd hpart hne
    refine ⟨m', ?_, hothers, hdisk⟩
    rw [if_neg fun h => h.2 hpart]
    show (rwCommand hdBuf true buf drv lba count m).bind _ = _
    rw [hrun]
    rfl
  · -- the last sector is read before, and the buffer of the caller stays
    have hbuffer : hdBufferSize = 4096 := rfl
    have hlast : (lba + sectorCount count + 2 ^ 32 - 1) % 2 ^ 32 = lba + count / 512 := by
      rw [sectorCount_eq (by omega)]
      omega
    obtain ⟨m₁, hpre, hdisks, hmem⟩ := rwCommand_lastSector m drv (show lba + count / 512 < 2 ^ 28 by omega)
    have htail : ∀ i < 512, m₁.mem (hdBuf + i) = m₁.disks (drv % 2) ((lba + count / 512) * 512 + i) := by
      intro i hi
      rw [hmem (hdBuf + i), if_pos ⟨Nat.le_add_right _ _, Nat.add_lt_add_left hi _⟩, hdisks,
        Nat.add_sub_cancel_left]
    obtain ⟨m', hrun, hothers, hdisk⟩ := rwCommand_write m₁ drv hcount hn hlba happart
      fun _ i _ hi => htail i hi
    refine ⟨m', ?_, fun e he => (hothers e he).trans (congrFun hdisks e), fun x => ?_⟩
    · rw [if_pos ⟨rfl, hpart⟩, hlast, hpre]
      show (rwCommand hdBuf true buf drv lba count m₁).bind _ = _
      rw [hrun]
      rfl
    · rw [hdisk x, hdisks]
      by_cases hin : lba * 512 ≤ x ∧ x < lba * 512 + count
      · rw [if_pos hin, if_pos hin, hmem, if_neg (by omega)]
      · rw [if_neg hin, if_neg hin]

theorem hdRw_of_command (hrun : rwCommand hdBuf false buf drv lba count m = .ok m') :
    hdRw hdBuf false buf drv lba count m = .ok (m', count) := by
  rw [hdRw, if_neg fun h => Bool.false_ne_true h.1]
  show (rwCommand hdBuf false buf drv lba count m).bind _ = _
  rw [hrun]
  rfl

theorem hdRw_read (m : Machine) (drv : ℕ) (hcount : 1 ≤ count) (hn : (count + 511) / 512 ≤ 255)
    (hlba : lba + (count + 511) / 512 ≤ 2 ^ 28)
    (happart : buf + count ≤ hdBuf ∨ hdBuf + hdBufferSize ≤ buf) :
    ∃ m', hdRw hdBuf false buf drv lba count m = .ok (m', count) ∧ m'.disks = m.disks ∧
      ∀ x, x < hdBuf ∨ hdBuf + 512 ≤ x → m'.mem x =
        if buf ≤ x ∧ x < buf + count then m.disks (drv % 2) (lba * 512 + (x - buf)) else m.mem x := by
  have hbuffer : hdBufferSize = 4096 := rfl
  obtain ⟨m', hrun, hdisks, hmem⟩ := rwLoop_read (sendCommand_whole m false drv hcount hn hlba)
    (by omega) hlba (show buf + count ≤ hdBuf ∨ hdBuf + 512 ≤ buf by omega) (Nat.le_refl count)
  exact ⟨m', hdRw_of_command hrun, hdisks, hmem⟩

/-- **A write changes its bytes only, and they are read back.** -/
theorem hdRw_keeps_tail (m : Machine) (drv : ℕ) (hcount : 1 ≤ count) (hn : (count + 511) / 512 ≤ 255)
    (hlba : lba + (count + 511) / 512 ≤ 2 ^ 28)
    (happart : buf + count ≤ hdBuf ∨ hdBuf + hdBufferSize ≤ buf) :
    ∃ m', hdRw hdBuf true buf drv lba count m = .ok (m', count) ∧
      (∀ x, m'.disks (drv % 2) x =
        if lba * 512 ≤ x ∧ x < lba * 512 + count then m.mem (buf + (x - lba * 512))
        else m.disks (drv % 2) x) ∧
      (∀ e ≠ drv % 2, m'.disks e = m.disks e) ∧
      ∀ r : Machine, r.disks = m'.disks →
        ∃ r', hdRw hdBuf false buf drv lba count r = .ok (r', count) ∧ r'.disks = r.disks ∧
          (∀ i < count, r'.mem (buf + i) = m.mem (buf + i)) ∧
          ∀ x, x < buf ∨ buf + count ≤ x → x < hdBuf ∨ hdBuf + 512 ≤ x → r'.mem x = r.mem x := by
  have hbuffer : hdBufferSize = 4096 := rfl
  obtain ⟨m', hrun, hothers, hdisk⟩ := hdRw_write m drv hcount hn hlba happart
  refine ⟨m', hrun, hdisk, hothers, fun r hr => ?_⟩
  obtain ⟨r', hread, hdisks, hmem⟩ := hdRw_read r drv hcount hn hlba happart
  refine ⟨r', hread, hdisks, fun i hi => ?_, fun x hx hbuf => ?_⟩
  · rw [hmem _ (by omega), if_pos (by omega), hr, hdisk, if_pos (by omega), Nat.add_sub_cancel_left,
      Nat.add_sub_cancel_left]
  · rw [hmem x hbuf, if_neg (by omega)]

/-- A one at 10000 and a two at 11299, with zeros around them, and disks full of sevens. -/
def sevens : Machine :=
  ⟨fun x => if x = 10000 then 1 else if x = 11299 then 2 else 0, fun _ _ => 7, ⟨false, 0, 0, 0⟩, []⟩

/-- 1300 bytes are two sectors and a part of the third one. -/
theorem hdRw_keeps_tail_sevens : ∃ m', hdRw 0 true 10000 1 1 1300 sevens = .ok (m', 1300) ∧
    m'.disks 1 511 = 7 ∧ m'.disks 1 512 = 1 ∧ m'.disks 1 1536 = 0 ∧ m'.disks 1 1811 = 2 ∧ m'.disks 1 1812 = 7 ∧
    m'.disks 0 512 = 7 ∧
    ∃ r', hdRw 0 false 10000 1 1 1300 { sevens with mem := fun _ => 0, disks := m'.disks } = .ok (r', 1300) ∧
      r'.mem 10000 = 1 ∧ r'.mem 11299 = 2 ∧ r'.mem 11300 = 0 := by
  obtain ⟨m', hrun, hdisk, hothers, hback⟩ := @hdRw_keeps_tail 0 10000 1 1300 sevens 1 (by decide) (by decide)
    (by decide) (Or.inr (by decide))
  obtain ⟨r', hread, -, hmem, hkept⟩ := hback { sevens with mem := fun _ => 0, disks := m'.disks } rfl
  have hother : m'.disks 0 512 = 7 := by rw [hothers 0 (by decide)]; rfl
  exact ⟨m', hrun, hdisk 511, hdisk 512, hdisk 1536, hdisk 1811, hdisk 1812, hother, r', hread,
    hmem 0 (by decide), hmem 1299 (by decide), hkept 11300 (Or.inr (by decide)) (Or.inr (by decide))⟩

end OmochaOS.Hd
