import OmochaOS.Kernel.Effects

/-!
# What SysTask does for `Task_Memory` (`modules/systask/systask.c`, `lib/bitset.h`)

`GET_PROC` answers with the address of an entry of the process table, `ALLOC_PROC` takes a free one:
the first unset bit of `proc_bitmap` names it.  Pointers into the table are numbers here, one above the
index, so that 0 is the null pointer.
-/

namespace OmochaOS

open IntrusiveList BitFlags

def systaskPid : Pid := 2

def exitProc : ℕ := 11
def allocProcType : ℕ := 13
def getProcType : ℕ := 14

theorem some_getD {α : Type*} {o : Option α} {a : α} (h : o.isSome) : o = some (o.getD a) := by
  cases o with
  | none => cases h
  | some b => rfl

/-! ### Bit sets -/

/-- `bsfl`: the lowest bit that is set. -/
def bsf (c : BitVec 32) : ℕ := ((List.range 32).find? fun i => c.getLsbD i).getD 0

/-- `find_first_unset_bit(bitarray, array_size)`.  The position returned is the one inside the word. -/
def findFirstUnsetBit : List (BitVec 32) → ℕ
  | [] => 0xFFFFFFFF
  | word :: rest => if word = 0xFFFFFFFF#32 then findFirstUnsetBit rest else bsf (~~~word)

/-- `set_bit(bitarray, i)`. -/
def setBit (bitarray : List (BitVec 32)) (i : ℕ) : List (BitVec 32) :=
  bitarray.modify (i / 32) fun word => word ||| (1#32 <<< (i % 32))

/-- `check_bit(bitarray, i)`. -/
def checkBit (bitarray : List (BitVec 32)) (i : ℕ) : Bool :=
  ((bitarray[i / 32]?).getD 0).getLsbD (i % 32)

/-- The position is inside a word, and that bit of the word is set. -/
theorem bsf_spec {c : BitVec 32} (hc : c ≠ 0) : bsf c < 32 ∧ c.getLsbD (bsf c) = true := by
  unfold bsf
  cases hf : (List.range 32).find? fun i => c.getLsbD i with
  | none =>
    exfalso
    apply hc
    apply BitVec.eq_of_getLsbD_eq
    intro i hi
    have := List.find?_eq_none.mp hf i (List.mem_range.mpr hi)
    simpa using this
  | some i =>
    have hmem := List.mem_range.mp (List.mem_of_find?_eq_some hf)
    exact ⟨hmem, List.find?_some hf⟩

/-- With room in the first word the bit found is unset in the bit set. -/
theorem findFirstUnsetBit_spec {bitarray : List (BitVec 32)} {i : ℕ} (hi : i < 32)
    (hne : bitarray ≠ []) (hfree : checkBit bitarray i = false) :
    findFirstUnsetBit bitarray < 32 ∧ checkBit bitarray (findFirstUnsetBit bitarray) = false := by
  cases bitarray with
  | nil => exact absurd rfl hne
  | cons word rest =>
    have hword : word ≠ 0xFFFFFFFF#32 := by
      rintro rfl
      have h0 : i / 32 = 0 := Nat.div_eq_of_lt hi
      have hm : i % 32 = i := Nat.mod_eq_of_lt hi
      rw [checkBit, h0, hm] at hfree
      have hall : (0xFFFFFFFF#32).getLsbD i = true := by
        have : (0xFFFFFFFF#32) = BitVec.allOnes 32 := by decide
        rw [this, BitVec.getLsbD_allOnes]
        simpa using hi
      simp [hall] at hfree
    have hnot : ~~~word ≠ 0 := by
      intro h0
      apply hword
      have := congrArg (fun v => ~~~v) h0
      simpa using this
    obtain ⟨hlt, hset⟩ := bsf_spec hnot
    rw [findFirstUnsetBit, if_neg hword]
    refine ⟨hlt, ?_⟩
    rw [checkBit, Nat.div_eq_of_lt hlt, Nat.mod_eq_of_lt hlt]
    simpa [hlt] using hset

/-- `clear_bit(bitarray, i)`. -/
def clearBit (bitarray : List (BitVec 32)) (i : ℕ) : List (BitVec 32) :=
  bitarray.modify (i / 32) fun word => word &&& ~~~(1#32 <<< (i % 32))

/-- The mask of one bit. -/
theorem getLsbD_oneShift {i j : ℕ} (hj : j < 32) : (1#32 <<< i).getLsbD j = decide (j = i) := by
  rw [BitVec.getLsbD_shiftLeft]
  by_cases hji : j = i
  · subst hji
    simp [hj]
  · by_cases hlt : j < i
    · simp [hji, hlt]
    · have : j - i ≠ 0 := by omega
      simp [hji, this]

/-- Bits are told apart by their word and their place in it. -/
theorem bit_eq_iff {i j : ℕ} : j = i ↔ j / 32 = i / 32 ∧ j % 32 = i % 32 := by
  constructor
  · rintro rfl
    exact ⟨rfl, rfl⟩
  · rintro ⟨hdiv, hmod⟩
    omega

/-- `set_bit` sets that bit and keeps the others. -/
theorem checkBit_setBit_of_lt {bitarray : List (BitVec 32)} {i j : ℕ}
    (hi : i / 32 < bitarray.length) :
    checkBit (setBit bitarray i) j = (decide (j = i) || checkBit bitarray j) := by
  have hj : j % 32 < 32 := Nat.mod_lt _ (by decide)
  rw [checkBit, setBit, checkBit, List.getElem?_modify]
  by_cases hword : i / 32 = j / 32
  · have hget : bitarray[j / 32]? = some bitarray[i / 32] := by
      rw [← hword]
      exact List.getElem?_eq_getElem hi
    have hji : (j = i) ↔ j % 32 = i % 32 := by
      rw [bit_eq_iff]
      exact ⟨And.right, fun h => ⟨hword.symm, h⟩⟩
    simp [hword, hget, getLsbD_oneShift hj, hji, Bool.or_comm]
  · have hji : j ≠ i := fun he => hword (by rw [he])
    simp [hword, hji]

/-- `clear_bit` clears that bit and keeps the others. -/
theorem checkBit_clearBit {bitarray : List (BitVec 32)} {i j : ℕ} :
    checkBit (clearBit bitarray i) j = (!decide (j = i) && checkBit bitarray j) := by
  have hj : j % 32 < 32 := Nat.mod_lt _ (by decide)
  rw [checkBit, clearBit, checkBit, List.getElem?_modify]
  by_cases hword : i / 32 = j / 32
  · have hji : (j = i) ↔ j % 32 = i % 32 := by
      rw [bit_eq_iff]
      exact ⟨And.right, fun h => ⟨hword.symm, h⟩⟩
    have hword' : ∀ word : BitVec 32, (word &&& ~~~(1#32 <<< (i % 32))).getLsbD (j % 32) =
        (!decide (j % 32 = i % 32) && word.getLsbD (j % 32)) := by
      intro word
      rw [BitVec.getLsbD_and, BitVec.getLsbD_not, getLsbD_oneShift hj, Bool.and_comm]
      simp [hj]
    rw [decide_eq_decide.mpr hji]
    cases bitarray[j / 32]? with
    | none => simp
    | some word => simpa only [Option.map_eq_map, Option.map_some, Option.getD_some, if_pos hword]
        using hword' word
  · have hji : j ≠ i := fun he => hword (by rw [he])
    simp [hword, hji]

/-- `set_bit` inside the first word sets that bit and keeps the others of the word. -/
theorem checkBit_setBit {bitarray : List (BitVec 32)} {i j : ℕ} (hi : i < 32) (hne : bitarray ≠ []) :
    checkBit (setBit bitarray i) j = (decide (j = i) || checkBit bitarray j) := by
  have hpos : 0 < bitarray.length := List.length_pos_iff.mpr hne
  exact checkBit_setBit_of_lt (by omega)

theorem setBit_ne_nil {bitarray : List (BitVec 32)} {i : ℕ} (hne : bitarray ≠ []) :
    setBit bitarray i ≠ [] := by
  intro h
  have := congrArg List.length h
  rw [setBit, List.length_modify] at this
  exact hne (List.length_eq_zero_iff.mp this)

theorem clearBit_ne_nil {bitarray : List (BitVec 32)} {i : ℕ} (hne : bitarray ≠ []) :
    clearBit bitarray i ≠ [] := by
  intro h
  have := congrArg List.length h
  rw [clearBit, List.length_modify] at this
  exact hne (List.length_eq_zero_iff.mp this)

/-! ### The process table -/

/-- `&proc_table[p]`. -/
def procAddr (p : Pid) : ℕ := p + 1

/-- The entry a pointer leads to, if it is not null. -/
def procAt (a : ℕ) : Option Pid := if a = 0 then none else some (a - 1)

@[simp] theorem procAt_procAddr {p : Pid} : procAt (procAddr p) = some p := by
  simp [procAt, procAddr]

namespace Kernel

/-- `f->next = proc`. -/
def setNext (k : Kernel) (p : Pid) (n : Option Pid) : Kernel :=
  k.modProc p fun pr => { pr with next := n }

/-- The append of `proc` to `proc_list`. -/
def appendProc (fuel : ℕ) (k : Kernel) (proc : Pid) : Option Kernel :=
  match k.procList with
  | some p => (walkToLast k.next fuel p).map fun f => k.setNext f (some proc)
  | none => some { k with procList := some proc }

/-- The `ALLOC_PROC` request: the kernel, the bitmap and the pointer answered. -/
def allocProc (fuel : ℕ) (k : Kernel) (procBitmap : List (BitVec 32)) :
    Option (Kernel × List (BitVec 32) × ℕ) :=
  let pid := findFirstUnsetBit procBitmap
  if pid = 0xFFFFFFFF then some (k, procBitmap, 0)
  else
    let k := k.modProc pid fun _ => { (default : Process) with status := procStatusStop }
    (appendProc fuel k pid).map fun k =>
      (k.modProc pid fun pr => { pr with next := none, parentPid := 1, pid := pid },
        setBit procBitmap pid, procAddr pid)

/-! ### What `ALLOC_PROC` changes -/

variable {k k' : Kernel} {fuel : ℕ} {p c : Pid} {bits bits' : List (BitVec 32)} {a : ℕ}

/-- The effect of clearing the entry of `c` and linking it into the process list. -/
structure EntryTaken (k k' : Kernel) (c : Pid) : Prop where
  pid : k'.pid = Function.update k.pid c c
  status : k'.status = Function.update k.status c procStatusStop
  pageDir : ∀ q, q ≠ c → k'.pageDir q = k.pageDir q
  pMsg : ∀ q, q ≠ c → k'.pMsg q = k.pMsg q
  queneHead : k'.queneHead = Function.update k.queneHead c none
  queneBody : k'.queneBody = Function.update k.queneBody c none
  memory : k'.memory = k.memory
  vir2phy : k'.vir2phy = k.vir2phy

/-- The fields of a process that the links of the process list do not touch. -/
theorem appendProc_fields (h : appendProc fuel k c = some k') :
    k'.pid = k.pid ∧ k'.status = k.status ∧ k'.pageDir = k.pageDir ∧ k'.pMsg = k.pMsg ∧
      k'.queneHead = k.queneHead ∧ k'.queneBody = k.queneBody ∧ k'.memory = k.memory ∧
      k'.vir2phy = k.vir2phy := by
  unfold appendProc at h
  split at h
  · obtain ⟨f, -, rfl⟩ := Option.map_eq_some_iff.mp h
    refine ⟨?_, ?_, ?_, ?_, ?_, ?_, rfl, rfl⟩ <;> exact procTable_modProc_of_eq _ rfl
  · obtain rfl := Option.some.inj h
    exact ⟨rfl, rfl, rfl, rfl, rfl, rfl, rfl, rfl⟩

/-- **Inversion of `ALLOC_PROC`** with room in the first word of the bitmap. -/
theorem allocProc_cases {i : ℕ} (hi : i < 32) (hne : bits ≠ []) (hfree : checkBit bits i = false)
    (h : allocProc fuel k bits = some (k', bits', a)) :
    ∃ c, c < 32 ∧ checkBit bits c = false ∧ bits' = setBit bits c ∧ a = procAddr c ∧
      EntryTaken k k' c := by
  obtain ⟨hlt, hbit⟩ := findFirstUnsetBit_spec hi hne hfree
  unfold allocProc at h
  set c := findFirstUnsetBit bits with hc
  rw [if_neg (by omega)] at h
  obtain ⟨k₂, hk₂, he⟩ := Option.map_eq_some_iff.mp h
  obtain ⟨rfl, rfl, rfl⟩ : _ ∧ _ ∧ _ := by simpa using he
  obtain ⟨hpid, hst, hdir, hmsg, hhead, hbody, hmem, hmap⟩ := appendProc_fields hk₂
  have hkeep : ∀ {β : Type} (g : Process → β) (f : Process → Process) (k₁ : Kernel) (q : Pid),
      q ≠ c → g ((k₁.modProc c f).procTable q) = g (k₁.procTable q) := by
    intro β g f k₁ q hq
    simp [modProc, hq]
  refine ⟨c, hlt, hbit, rfl, rfl, ?_⟩
  constructor
  case pid =>
    refine (procTable_modProc Process.pid _).trans ?_
    have h₁ : k₂.pid = Function.update k.pid c _ := hpid.trans (procTable_modProc Process.pid _)
    show Function.update k₂.pid c c = _
    rw [h₁, Function.update_idem]
  case status =>
    refine (procTable_modProc_of_eq Process.status rfl).trans ?_
    exact hst.trans (procTable_modProc Process.status _)
  case pageDir =>
    intro q hq
    have h₂ := congrFun hdir q
    exact (hkeep Process.pageDir _ k₂ q hq).trans (h₂.trans (hkeep Process.pageDir _ k q hq))
  case pMsg =>
    intro q hq
    have h₂ := congrFun hmsg q
    exact (hkeep Process.pMsg _ k₂ q hq).trans (h₂.trans (hkeep Process.pMsg _ k q hq))
  case queneHead =>
    refine (procTable_modProc_of_eq Process.queneHeadSendingToThisProcess rfl).trans ?_
    exact hhead.trans (procTable_modProc Process.queneHeadSendingToThisProcess _)
  case queneBody =>
    refine (procTable_modProc_of_eq Process.queneBody rfl).trans ?_
    exact hbody.trans (procTable_modProc Process.queneBody _)
  case memory => exact hmem
  case vir2phy => exact hmap

end Kernel

end OmochaOS
