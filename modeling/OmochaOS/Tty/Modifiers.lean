import OmochaOS.Tty.ScanCodes
import Mathlib.Data.List.Induction

/-!
# Modifiers and locks (`kbd_read`)

`kbd_read` keeps one flag for each modifier and each lock.  NumLock does not turn its own flag round: it takes
the opposite of CapsLock's.

* `modifier_after`, `capsLock_after`, `numLock_after` — what one scan code does to a flag;
* `tracks_iff` — what holds after every run, and when NumLock is right, too.
-/

namespace OmochaOS.Tty

open TransitionRun RingQueue

/-! ### Keys -/

/-- A key is known by its scan code without the break bit, and by the `E0` in front of it. -/
structure PhysicalKey where
  row : ℕ
  e0 : Bool

/-- The scan code is one of the key. -/
def ScanCode.isOf (p : PhysicalKey) : ScanCode → Bool
  | single code => !p.e0 && (code &&& 0x7F).toNat == p.row
  | extended code => p.e0 && (code &&& 0x7F).toNat == p.row
  | _ => false

/-- The keys that have a flag as long as they are held. -/
inductive Modifier where
  | shiftL | shiftR | altL | altR | ctrlL | ctrlR
  deriving DecidableEq

namespace Modifier

def get (s : KeyState) : Modifier → Bool
  | shiftL => s.shiftL
  | shiftR => s.shiftR
  | altL => s.altL
  | altR => s.altR
  | ctrlL => s.ctrlL
  | ctrlR => s.ctrlR

def set (s : KeyState) (make : Bool) : Modifier → KeyState
  | shiftL => { s with shiftL := make }
  | shiftR => { s with shiftR := make }
  | altL => { s with altL := make }
  | altR => { s with altR := make }
  | ctrlL => { s with ctrlL := make }
  | ctrlR => { s with ctrlR := make }

def keyCode : Modifier → ℕ
  | shiftL => Key.shiftL
  | shiftR => Key.shiftR
  | altL => Key.altL
  | altR => Key.altR
  | ctrlL => Key.ctrlL
  | ctrlR => Key.ctrlR

def physical : Modifier → PhysicalKey
  | shiftL => ⟨0x2A, false⟩
  | shiftR => ⟨0x36, false⟩
  | altL => ⟨0x38, false⟩
  | altR => ⟨0x38, true⟩
  | ctrlL => ⟨0x1D, false⟩
  | ctrlR => ⟨0x1D, true⟩

end Modifier

/-- The keys that change a flag when they are pressed. -/
inductive Lock where
  | caps | num | scroll
  deriving DecidableEq

namespace Lock

def get (s : KeyState) : Lock → Bool
  | caps => s.capsLock
  | num => s.numLock
  | scroll => s.scrLock

/-- What a press does to the flag; NumLock takes the opposite of another flag. -/
def turn (s : KeyState) : Lock → KeyState
  | caps => { s with capsLock := !s.capsLock }
  | num => { s with numLock := !s.capsLock }
  | scroll => { s with scrLock := !s.scrLock }

def keyCode : Lock → ℕ
  | caps => Key.capsLock
  | num => Key.numLock
  | scroll => Key.scrollLock

def physical : Lock → PhysicalKey
  | caps => ⟨0x3A, false⟩
  | num => ⟨0x45, false⟩
  | scroll => ⟨0x46, false⟩

end Lock

variable {s : KeyState} {key : ℕ} {make : Bool} {e : ScanCode} {h rest past : List ScanCode} {p : PhysicalKey}
  {md : Modifier} {lk : Lock} {code : UInt8}

/-- In `keymap` the key code stands for this key only, whatever the column of the modifiers. -/
def Names (p : PhysicalKey) (key : ℕ) : Prop :=
  ∀ row < 128, ∀ col < 3, keymap.getD (row * mapCols + col) 0 = key ↔ row = p.row ∧ decide (col = 2) = p.e0

theorem length_keymap : keymap.length = 128 * mapCols := by decide +kernel

/-- One way through `keymap` is enough. -/
theorem names_of_zipIdx (h : ∀ x ∈ keymap.zipIdx,
    x.1 = key ↔ x.2 / mapCols = p.row ∧ decide (x.2 % mapCols = 2) = p.e0) : Names p key := by
  intro row hrow col hcol
  have hlt : row * mapCols + col < keymap.length := by
    rw [length_keymap]
    show row * 3 + col < 384
    omega
  have hmem : (keymap[row * mapCols + col], row * mapCols + col) ∈ keymap.zipIdx :=
    List.mk_mem_zipIdx_iff_getElem?.mpr (List.getElem?_eq_getElem hlt)
  have hdiv : (row * mapCols + col) / mapCols = row := by
    show (row * 3 + col) / 3 = row
    omega
  have hmod : (row * mapCols + col) % mapCols = col := by
    show (row * 3 + col) % 3 = col
    omega
  have hiff := h _ hmem
  rw [hdiv, hmod] at hiff
  rw [List.getD_eq_getElem?_getD, List.getElem?_eq_getElem hlt]
  exact hiff

theorem names_modifier : Names md.physical md.keyCode := by
  apply names_of_zipIdx
  cases md <;> decide +kernel

theorem names_lock : Names lk.physical lk.keyCode := by
  apply names_of_zipIdx
  cases lk <;> decide +kernel

theorem row_lt : (code &&& 0x7F).toNat < 128 := by
  rw [UInt8.toNat_and]
  exact Nat.lt_of_le_of_lt Nat.and_le_right (by decide)

theorem column_lt : column s code false < 2 := by
  have hcol : ∀ caps : Bool, (if caps = true then 1 else 0) < 2 := by decide
  exact hcol _

/-- A scan code yields the key code exactly if it is one of the key. -/
theorem key_eq_iff (hnames : Names p key) (hplain : e.Plain) : e.key s = key ↔ e.isOf p = true := by
  cases e with
  | single code =>
    have hcol : column s code false < 2 := column_lt
    have hno : decide (column s code false = 2) = false := decide_eq_false (by omega)
    refine (hnames _ row_lt _ (by omega)).trans ?_
    rw [hno, ScanCode.isOf, Bool.and_eq_true, beq_iff_eq, Bool.not_eq_true', and_comm, eq_comm (a := false)]
  | extended code =>
    refine (hnames _ row_lt 2 (by decide)).trans ?_
    rw [ScanCode.isOf, Bool.and_eq_true, beq_iff_eq, and_comm, decide_eq_true rfl, eq_comm (a := true)]
  | printscreen make => exact hplain.elim
  | pause => exact hplain.elim

theorem after_eq_press (hplain : e.Plain) : e.after s = press s (e.key s) e.make := by
  cases e with
  | single code => rfl
  | extended code => rfl
  | printscreen make => exact hplain.elim
  | pause => exact hplain.elim

/-! ### One scan code -/

/-- **What a key does.**  It sets a modifier, turns a lock and sends the LEDs, or does nothing. -/
theorem press_cases (s : KeyState) (key : ℕ) (make : Bool) :
    (∃ md : Modifier, key = md.keyCode ∧ press s key make = md.set s make) ∨
      (∃ lk : Lock, key = lk.keyCode ∧ press s key make = if make then setLeds (lk.turn s) else s) ∨
      (∀ md : Modifier, key ≠ md.keyCode) ∧ (∀ lk : Lock, key ≠ lk.keyCode) ∧ press s key make = s := by
  by_cases hmodifier : ∃ md : Modifier, key = md.keyCode
  · obtain ⟨md, rfl⟩ := hmodifier
    left
    refine ⟨md, rfl, ?_⟩
    cases md <;> rfl
  · by_cases hlock : ∃ lk : Lock, key = lk.keyCode
    · obtain ⟨lk, rfl⟩ := hlock
      right
      left
      refine ⟨lk, rfl, ?_⟩
      cases lk <;> rfl
    · have hmd : ∀ md : Modifier, key ≠ md.keyCode := fun md hkey => hmodifier ⟨md, hkey⟩
      have hlk : ∀ lk : Lock, key ≠ lk.keyCode := fun lk hkey => hlock ⟨lk, hkey⟩
      right
      right
      refine ⟨hmd, hlk, ?_⟩
      have hneg : ∀ {c : Prop} [Decidable c] {a b : KeyState}, ¬ c → b = s → (if c then a else b) = s :=
        fun hc hb => (if_neg hc).trans hb
      exact hneg (hmd .shiftL) (hneg (hmd .shiftR) (hneg (hmd .altL) (hneg (hmd .altR) (hneg (hmd .ctrlL)
        (hneg (hmd .ctrlR) (hneg (hlk .caps) (hneg (hlk .num) (hneg (hlk .scroll) rfl))))))))

theorem Modifier.get_set {other : Modifier} :
    md.get (other.set s make) = if other = md then make else md.get s := by
  cases md <;> cases other <;> rfl

theorem Modifier.keyCode_inj {other : Modifier} : other.keyCode = md.keyCode ↔ other = md := by
  cases md <;> cases other <;> decide

theorem Lock.keyCode_inj {other : Lock} : other.keyCode = lk.keyCode ↔ other = lk := by
  cases lk <;> cases other <;> decide

theorem Lock.keyCode_ne : lk.keyCode ≠ md.keyCode := by
  cases md <;> cases lk <;> decide

theorem Modifier.get_turn : md.get (setLeds (lk.turn s)) = md.get s := by
  cases md <;> cases lk <;> rfl

theorem Lock.get_set : lk.get (md.set s make) = lk.get s := by
  cases md <;> cases lk <;> rfl

theorem Lock.get_turn {other : Lock} :
    lk.get (setLeds (other.turn s)) = if other = lk then lk.get (lk.turn s) else lk.get s := by
  cases lk <;> cases other <;> rfl

/-- Only the key of a modifier changes its flag. -/
theorem press_modifier : md.get (press s key make) = if key = md.keyCode then make else md.get s := by
  rcases press_cases s key make with ⟨other, rfl, hpress⟩ | ⟨lk, rfl, hpress⟩ | ⟨hmd, -, hpress⟩
  · rw [hpress, Modifier.get_set, if_congr Modifier.keyCode_inj rfl rfl]
  · rw [hpress, if_neg Lock.keyCode_ne]
    cases make with
    | true => exact Modifier.get_turn
    | false => rfl
  · rw [hpress, if_neg (hmd md)]

/-- Only a press of the key of a lock changes its flag. -/
theorem press_lock : lk.get (press s key make) =
    if key = lk.keyCode ∧ make = true then lk.get (lk.turn s) else lk.get s := by
  rcases press_cases s key make with ⟨md, rfl, hpress⟩ | ⟨other, rfl, hpress⟩ | ⟨-, hlk, hpress⟩
  · rw [hpress, Lock.get_set, if_neg fun h => Lock.keyCode_ne h.1.symm]
  · rw [hpress]
    cases make with
    | true => rw [if_pos rfl, Lock.get_turn, if_congr (and_iff_left rfl) rfl rfl,
        if_congr Lock.keyCode_inj rfl rfl]
    | false => rw [if_neg Bool.false_ne_true, if_neg fun h => Bool.false_ne_true h.2]
  · rw [hpress, if_neg fun h => hlk lk h.1]

/-- The byte that was sent last is the one for the locks. -/
def LedsShown (s : KeyState) : Prop := s.leds.head? = some s.ledByte

theorem ledsShown_press (hleds : LedsShown s) : LedsShown (press s key make) := by
  rcases press_cases s key make with ⟨md, -, hpress⟩ | ⟨lk, -, hpress⟩ | ⟨-, -, hpress⟩
  · rw [hpress]
    cases md <;> exact hleds
  · rw [hpress]
    cases make with
    | true => rfl
    | false => exact hleds
  · rw [hpress]
    exact hleds

/-! ### Many scan codes -/

/-- The last scan code of the key was a make. -/
def heldBy (p : PhysicalKey) (h : List ScanCode) : Bool :=
  (h.filter (ScanCode.isOf p)).getLast?.any ScanCode.make

/-- How often the key was pressed. -/
def presses (p : PhysicalKey) (h : List ScanCode) : ℕ := h.countP fun e => e.isOf p && e.make

/-- The number is odd. -/
def odd (n : ℕ) : Bool := n % 2 == 1

/-- The state after the scan codes. -/
def stateAfter (h : List ScanCode) : KeyState := h.foldl (fun s e => e.after s) initState

theorem stateAfter_append_singleton : stateAfter (h ++ [e]) = e.after (stateAfter h) := by
  rw [stateAfter, List.foldl_append]
  rfl

theorem heldBy_append_singleton : heldBy p (h ++ [e]) = if e.isOf p then e.make else heldBy p h := by
  rw [heldBy, List.filter_append]
  cases hof : e.isOf p with
  | true =>
    rw [List.filter_cons_of_pos hof, List.filter_nil, List.getLast?_append_of_ne_nil _ (List.cons_ne_nil _ _)]
    rfl
  | false =>
    rw [List.filter_cons_of_neg (by rw [hof]; exact Bool.false_ne_true), List.filter_nil, List.append_nil]
    rfl

theorem presses_append : presses p (past ++ rest) = presses p past + presses p rest := List.countP_append

theorem presses_singleton : presses p [e] = if e.isOf p = true ∧ e.make = true then 1 else 0 := by
  rw [presses, List.countP_singleton]
  exact if_congr Bool.and_eq_true_iff rfl rfl

theorem odd_succ (n : ℕ) : odd (n + 1) = !odd n := by
  rcases Nat.mod_two_eq_zero_or_one n with hn | hn
  · rw [odd, odd, Nat.add_mod, hn]
    rfl
  · rw [odd, odd, Nat.add_mod, hn]
    rfl

/-- A modifier's flag says whether it is held. -/
theorem modifier_stateAfter (hplain : ∀ e ∈ h, e.Plain) : md.get (stateAfter h) = heldBy md.physical h := by
  induction h using List.reverseRecOn with
  | nil => cases md <;> rfl
  | append_singleton h e ih =>
    have he : e.Plain := hplain e (List.mem_append_right h (List.mem_singleton_self e))
    have hh : ∀ x ∈ h, x.Plain := fun x hx => hplain x (List.mem_append_left _ hx)
    rw [stateAfter_append_singleton, after_eq_press he, press_modifier, heldBy_append_singleton, ih hh,
      if_congr (key_eq_iff names_modifier he) rfl rfl]

/-- What a scan code does to a lock. -/
theorem lock_append_singleton (lk : Lock) (he : e.Plain) : lk.get (stateAfter (h ++ [e])) =
    if e.isOf lk.physical = true ∧ e.make = true then lk.get (lk.turn (stateAfter h))
      else lk.get (stateAfter h) := by
  rw [stateAfter_append_singleton, after_eq_press he, press_lock]
  exact if_congr (and_congr_left' (key_eq_iff names_lock he)) rfl rfl

/-- A lock that turns its own flag round counts the presses. -/
theorem lock_stateAfter (lk : Lock) (hturn : ∀ s, lk.get (lk.turn s) = !lk.get s) (hinit : lk.get initState = false)
    (hplain : ∀ e ∈ h, e.Plain) : lk.get (stateAfter h) = odd (presses lk.physical h) := by
  induction h using List.reverseRecOn with
  | nil => exact hinit
  | append_singleton h e ih =>
    have he : e.Plain := hplain e (List.mem_append_right h (List.mem_singleton_self e))
    have hh : ∀ x ∈ h, x.Plain := fun x hx => hplain x (List.mem_append_left _ hx)
    rw [lock_append_singleton lk he, presses_append, presses_singleton, hturn, ih hh]
    split
    · exact (odd_succ _).symm
    · rfl

theorem capsLock_stateAfter (hplain : ∀ e ∈ h, e.Plain) :
    (stateAfter h).capsLock = odd (presses Lock.caps.physical h) :=
  lock_stateAfter .caps (fun _ => rfl) rfl hplain

theorem scrLock_stateAfter (hplain : ∀ e ∈ h, e.Plain) :
    (stateAfter h).scrLock = odd (presses Lock.scroll.physical h) :=
  lock_stateAfter .scroll (fun _ => rfl) rfl hplain

theorem ledsShown_stateAfter (hplain : ∀ e ∈ h, e.Plain) : LedsShown (stateAfter h) := by
  induction h using List.reverseRecOn with
  | nil => rfl
  | append_singleton h e ih =>
    have he : e.Plain := hplain e (List.mem_append_right h (List.mem_singleton_self e))
    rw [stateAfter_append_singleton, after_eq_press he]
    exact ledsShown_press (ih fun x hx => hplain x (List.mem_append_left _ hx))

/-! ### NumLock -/

/-- A press of NumLock. -/
def ScanCode.PressesNum (e : ScanCode) : Prop := e.isOf Lock.num.physical = true ∧ e.make = true

/-- At the last press of NumLock, CapsLock had been pressed as often as NumLock then, up to an even number. -/
def NumAgrees (h : List ScanCode) : Prop :=
  ∀ past e rest, h = past ++ e :: rest → e.PressesNum → presses Lock.num.physical rest = 0 →
    odd (presses Lock.caps.physical past) = odd (presses Lock.num.physical h)

/-- Without a press of NumLock its flag stays. -/
theorem numLock_append (hplain : ∀ e ∈ rest, e.Plain) (hnone : presses Lock.num.physical rest = 0) :
    (stateAfter (past ++ rest)).numLock = (stateAfter past).numLock := by
  induction rest using List.reverseRecOn with
  | nil => rw [List.append_nil]
  | append_singleton rest e ih =>
    have he : e.Plain := hplain e (List.mem_append_right rest (List.mem_singleton_self e))
    rw [presses_append, Nat.add_eq_zero_iff, presses_singleton] at hnone
    have hno : ¬ e.PressesNum := by
      intro hnum
      exact Nat.one_ne_zero ((if_pos hnum).symm.trans hnone.2)
    rw [← List.append_assoc]
    have hlast := lock_append_singleton (h := past ++ rest) .num he
    exact (hlast.trans (if_neg hno)).trans (ih (fun x hx => hplain x (List.mem_append_left _ hx)) hnone.1)

/-- Behind its last press, NumLock is the opposite of what CapsLock was. -/
theorem numLock_last (hplain : ∀ x ∈ past ++ e :: rest, x.Plain) (he : e.PressesNum)
    (hnone : presses Lock.num.physical rest = 0) :
    (stateAfter (past ++ e :: rest)).numLock = !odd (presses Lock.caps.physical past) := by
  have hpast : ∀ x ∈ past, x.Plain := fun x hx => hplain x (List.mem_append_left _ hx)
  have hrest : ∀ x ∈ rest, x.Plain := fun x hx => hplain x (List.mem_append_right past (List.mem_cons_of_mem e hx))
  have hlast := lock_append_singleton (h := past) .num
    (hplain e (List.mem_append_right past List.mem_cons_self))
  replace hlast := hlast.trans (if_pos he)
  rw [List.append_cons past e rest, numLock_append hrest hnone, ← capsLock_stateAfter hpast]
  exact hlast

/-- There is a last press, or none. -/
theorem exists_last_press (h : List ScanCode) : presses Lock.num.physical h = 0 ∨
    ∃ past e rest, h = past ++ e :: rest ∧ e.PressesNum ∧ presses Lock.num.physical rest = 0 := by
  induction h with
  | nil => exact Or.inl rfl
  | cons x h ih =>
    rcases ih with hnone | ⟨past, e, rest, hsplit, he, hnone⟩
    · by_cases hx : x.PressesNum
      · exact Or.inr ⟨[], x, h, rfl, hx, hnone⟩
      · left
        have hone : presses Lock.num.physical [x] = 0 := presses_singleton.trans (if_neg hx)
        rw [← List.singleton_append, presses_append, hone, hnone]
    · exact Or.inr ⟨x :: past, e, rest, congrArg (x :: ·) hsplit, he, hnone⟩

/-- **When NumLock is right.** -/
theorem numLock_iff (hplain : ∀ e ∈ h, e.Plain) :
    (stateAfter h).numLock = !odd (presses Lock.num.physical h) ↔ NumAgrees h := by
  constructor
  · rintro hnum past e rest rfl he hnone
    rw [numLock_last hplain he hnone] at hnum
    exact Bool.not_inj hnum
  · intro hagrees
    rcases exists_last_press h with hnone | ⟨past, e, rest, hsplit, he, hnone⟩
    · rw [hnone, ← List.nil_append h, numLock_append hplain hnone]
      rfl
    · rw [← hagrees past e rest hsplit he hnone]
      subst hsplit
      exact numLock_last hplain he hnone

/-! ### Letters -/

/-- The make code of a letter. -/
def IsLetter (code : UInt8) : Prop :=
  code &&& flagBreak = 0 ∧ 'a'.toNat ≤ keyrow code 0 ∧ keyrow code 0 ≤ 'z'.toNat

/-- The upper case of a letter stands in the next column, and letters have no bits of the flags. -/
theorem keyrow_letter (hletter : IsLetter code) :
    keyrow code 1 = keyrow code 0 - 32 ∧ keyrow code 0 < 512 ∧ keyrow code 1 < 512 := by
  have hall : ∀ row < 128, 'a'.toNat ≤ keymap.getD (row * mapCols + 0) 0 →
      keymap.getD (row * mapCols + 0) 0 ≤ 'z'.toNat →
      keymap.getD (row * mapCols + 1) 0 = keymap.getD (row * mapCols + 0) 0 - 32 ∧
        keymap.getD (row * mapCols + 0) 0 < 512 ∧ keymap.getD (row * mapCols + 1) 0 < 512 := by
    decide +kernel
  exact hall _ row_lt hletter.2.1 hletter.2.2

theorem flags_and_maskRaw (s : KeyState) : s.flags &&& maskRaw = 0 := by
  have hall : ∀ a b c d e f : Bool, ((if a then flagShiftL else 0) ||| (if b then flagShiftR else 0) |||
      (if c then flagAltL else 0) ||| (if d then flagAltR else 0) ||| (if e then flagCtrlL else 0) |||
        (if f then flagCtrlR else 0)) &&& maskRaw = 0 := by decide
  exact hall _ _ _ _ _ _

/-- The key without the flags. -/
theorem answer_and_maskRaw (hkey : key < 512) : answer s key true &&& maskRaw = key := by
  have hmask : maskRaw = 2 ^ 9 - 1 := rfl
  rw [answer, if_pos rfl, Nat.and_or_distrib_right, flags_and_maskRaw, Nat.or_zero, hmask,
    Nat.and_two_pow_sub_one_eq_mod]
  exact Nat.mod_eq_of_lt hkey

/-- The column of a letter. -/
theorem column_letter (hletter : IsLetter code) :
    column s code false = if (s.shiftL || s.shiftR) != s.capsLock then 1 else 0 := by
  have hcaps : (if s.capsLock = true ∧ 'a'.toNat ≤ keyrow code 0 ∧ keyrow code 0 ≤ 'z'.toNat
      then !(s.shiftL || s.shiftR) else (s.shiftL || s.shiftR)) = ((s.shiftL || s.shiftR) != s.capsLock) := by
    cases hlock : s.capsLock with
    | true => rw [if_pos ⟨rfl, hletter.2⟩, Bool.bne_true]
    | false => rw [if_neg fun h => Bool.false_ne_true h.1, Bool.bne_false]
  rw [← hcaps]
  rfl

/-- What `kbd_read` returns for a letter, without the flags. -/
def LetterCase (s : KeyState) : Prop :=
  ∀ make b code l, IsLetter code → Fits b (code :: l) →
    ∃ key k, kbdRead make { buffer := b, state := s } = some (key, k) ∧
      key &&& maskRaw = if (s.shiftL || s.shiftR) != s.capsLock then keyrow code 0 - 32 else keyrow code 0

theorem letterCase (s : KeyState) : LetterCase s := by
  intro make b code l hletter hfits
  have hvalid : (ScanCode.single code).Valid := by
    constructor
    · rintro rfl
      exact absurd hletter.1 (by decide)
    · rintro rfl
      exact absurd hletter.1 (by decide)
  obtain ⟨b', hread, -⟩ : ∃ b', kbdRead make { buffer := b, state := s } =
      some ((ScanCode.single code).result s, _) ∧ Fits b' l :=
    kbdRead_fits make hvalid (fun h => by cases h) hfits
  refine ⟨_, _, hread, ?_⟩
  have hmake : (ScanCode.single code).make = true := decide_eq_true hletter.1
  obtain ⟨hupper, hlow, hlow'⟩ := keyrow_letter hletter
  have hresult : (ScanCode.single code).result s =
      answer ((ScanCode.single code).after s) (keyrow code (column s code false)) true := by
    rw [ScanCode.result, hmake]
    rfl
  rw [hresult, column_letter hletter]
  split
  · rw [answer_and_maskRaw hlow', hupper]
  · exact answer_and_maskRaw hlow

/-! ### Runs -/

/-- What happens to the keyboard. -/
inductive Happening where
  | interrupt (data : UInt8)
  | read (e : ScanCode) (key : ℕ)

/-- `interrupt_kbd` writes a byte; `kbd_read` is called when the buffer begins with a whole scan code. -/
inductive KbdStep : Keyboard → Happening → Keyboard → Prop
  | interrupt {k : Keyboard} {data : UInt8} {b : CircularBuffer}
      (hwrite : writeCircularBuffer k.buffer data = some b) :
      KbdStep k (.interrupt data) { k with buffer := b }
  | read {k k' : Keyboard} {e : ScanCode} {l : List UInt8} {key : ℕ} {make : Bool} (hvalid : e.Valid)
      (hplain : e.Plain) (hfits : Fits k.buffer (e.bytes ++ l)) (hread : kbdRead make k = some (key, k')) :
      KbdStep k (.read e key) k'

/-- The scan code that was read. -/
def Happening.scanCode : Happening → Option ScanCode
  | interrupt _ => none
  | read e _ => some e

/-- The scan codes that were read in a run. -/
def scanCodesOf (tr : List (Transition Keyboard Happening)) : List ScanCode :=
  tr.filterMap fun x => x.label.scanCode

/-- The modifiers and locks are told by the scan codes that were read. -/
theorem state_of_run {buf : ℕ → UInt8} {tr : List (Transition Keyboard Happening)} {k : Keyboard}
    (hrun : Run KbdStep (initKbd buf) tr k) :
    k.state = stateAfter (scanCodesOf tr) ∧ ∀ e ∈ scanCodesOf tr, e.Plain := by
  induction hrun with
  | start => exact ⟨rfl, fun e he => absurd he List.not_mem_nil⟩
  | @extend tr k₁ k₂ l run hstep ih =>
    obtain ⟨hstate, hplain⟩ := ih
    rw [scanCodesOf, List.filterMap_append]
    cases hstep with
    | interrupt hwrite =>
      show _ = stateAfter (scanCodesOf tr ++ []) ∧ ∀ e ∈ scanCodesOf tr ++ [], e.Plain
      rw [List.append_nil]
      exact ⟨hstate, hplain⟩
    | @read _ e rest key make hvalid he hfits hread =>
      have hpause : e ≠ .pause := by
        rintro rfl
        exact he
      obtain ⟨b, hread', -⟩ := kbdRead_fits make hvalid hpause hfits
      obtain rfl := congrArg Prod.snd (Option.some.inj (hread.symm.trans hread'))
      show e.after k₁.state = stateAfter (scanCodesOf tr ++ [e]) ∧ ∀ x ∈ scanCodesOf tr ++ [e], x.Plain
      rw [stateAfter_append_singleton, hstate]
      refine ⟨rfl, fun x hx => ?_⟩
      rcases List.mem_append.mp hx with hx | hx
      · exact hplain x hx
      · exact List.mem_singleton.mp hx ▸ he

/-- The flags, the LEDs and the letters are those of the scan codes. -/
structure Tracks (h : List ScanCode) (s : KeyState) : Prop where
  modifiers : ∀ md : Modifier, md.get s = heldBy md.physical h
  capsLock : s.capsLock = odd (presses Lock.caps.physical h)
  scrLock : s.scrLock = odd (presses Lock.scroll.physical h)
  numLock : s.numLock = !odd (presses Lock.num.physical h)
  leds : LedsShown s
  letters : LetterCase s

/-- **Modifiers and locks after every run.**  Only NumLock can be wrong. -/
theorem tracks_iff (buf : ℕ → UInt8) (tr : List (Transition Keyboard Happening)) (k : Keyboard)
    (hrun : Run KbdStep (initKbd buf) tr k) : Tracks (scanCodesOf tr) k.state ↔ NumAgrees (scanCodesOf tr) := by
  obtain ⟨hstate, hplain⟩ := state_of_run hrun
  rw [hstate, ← numLock_iff hplain]
  constructor
  · exact fun h => h.numLock
  · intro hnum
    exact ⟨fun md => modifier_stateAfter hplain, capsLock_stateAfter hplain, scrLock_stateAfter hplain, hnum,
      ledsShown_stateAfter hplain, letterCase _⟩

/-- Bytes come in. -/
theorem run_interrupts {k₀ k : Keyboard} {tr : List (Transition Keyboard Happening)} {done l : List UInt8}
    (hrun : Run KbdStep k₀ tr k) (hfits : Fits k.buffer done) (hroom : done.length + l.length ≤ 256) :
    ∃ tr' k', Run KbdStep k₀ tr' k' ∧ scanCodesOf tr' = scanCodesOf tr ∧ Fits k'.buffer (done ++ l) := by
  induction l generalizing tr k done with
  | nil => exact ⟨tr, k, hrun, rfl, (List.append_nil done).symm ▸ hfits⟩
  | cons data l ih =>
    rw [List.length_cons] at hroom
    obtain ⟨b, hwrite, hb⟩ := hfits.write data
    rw [offer, if_neg (by omega)] at hb
    have hlength : (done ++ [data]).length = done.length + 1 := List.length_append
    obtain ⟨tr', k', hrun', hcodes, hfits'⟩ := ih (hrun.extend (KbdStep.interrupt hwrite)) hb (by omega)
    refine ⟨tr', k', hrun', hcodes.trans ?_, List.append_cons done data l ▸ hfits'⟩
    rw [scanCodesOf, List.filterMap_append]
    exact List.append_nil _

/-- Every sequence of scan codes can come in and be read. -/
theorem exists_run (buf : ℕ → UInt8) (hvalid : ∀ e ∈ h, e.Valid ∧ e.Plain) :
    ∃ tr k, Run KbdStep (initKbd buf) tr k ∧ scanCodesOf tr = h ∧ Fits k.buffer [] := by
  induction h using List.reverseRecOn with
  | nil => exact ⟨[], initKbd buf, Run.start, rfl, fits_initBuffer buf⟩
  | append_singleton h e ih =>
    obtain ⟨he, hplain⟩ := hvalid e (List.mem_append_right h (List.mem_singleton_self e))
    obtain ⟨tr, k, hrun, hcodes, hfits⟩ := ih fun x hx => hvalid x (List.mem_append_left _ hx)
    have hroom : ([] : List UInt8).length + e.bytes.length ≤ 256 := by
      cases e with
      | single code => exact show 0 + 1 ≤ 256 by decide
      | extended code => exact show 0 + 2 ≤ 256 by decide
      | printscreen make => exact hplain.elim
      | pause => exact hplain.elim
    obtain ⟨tr', k', hrun', hcodes', hfits'⟩ := run_interrupts hrun hfits hroom
    have hpause : e ≠ .pause := by
      rintro rfl
      exact hplain
    have hfirst : Fits k'.buffer (e.bytes ++ []) := (List.append_nil e.bytes).symm ▸ hfits'
    obtain ⟨b, hread, hb⟩ := kbdRead_fits false he hpause hfirst
    refine ⟨_, _, hrun'.extend (KbdStep.read he hplain hfirst hread), ?_, hb⟩
    rw [scanCodesOf, List.filterMap_append]
    show scanCodesOf tr' ++ [e] = h ++ [e]
    rw [hcodes', hcodes]

/-- CapsLock and then NumLock, pressed and released. -/
theorem tracks_iff_caps_num : ∃ tr k, Run KbdStep (initKbd fun _ => 0) tr k ∧ Tracks (scanCodesOf tr) k.state ∧
    scanCodesOf tr = [.single 0x3A, .single 0xBA, .single 0x45, .single 0xC5] := by
  obtain ⟨tr, k, hrun, hcodes, -⟩ := exists_run (h := [.single 0x3A, .single 0xBA, .single 0x45, .single 0xC5])
    (fun _ => 0) (by
      intro e he
      simp only [List.mem_cons, List.not_mem_nil, or_false] at he
      rcases he with rfl | rfl | rfl | rfl <;> exact ⟨⟨by decide, by decide⟩, trivial⟩)
  refine ⟨tr, k, hrun, (tracks_iff _ tr k hrun).mpr ?_, hcodes⟩
  rw [hcodes, ← numLock_iff (by
    intro e he
    simp only [List.mem_cons, List.not_mem_nil, or_false] at he
    rcases he with rfl | rfl | rfl | rfl <;> trivial)]
  decide +kernel

/-- **NumLock alone.**  It is pressed once, and its flag stays 1. -/
theorem numLock_stays : ¬ ∀ tr k, Run KbdStep (initKbd fun _ => 0) tr k → Tracks (scanCodesOf tr) k.state := by
  intro hall
  obtain ⟨tr, k, hrun, hcodes, -⟩ := exists_run (h := [.single 0x45]) (fun _ => 0) (by
    intro e he
    rw [List.mem_singleton.mp he]
    exact ⟨⟨by decide, by decide⟩, trivial⟩)
  have hnum := (hall tr k hrun).numLock
  rw [(state_of_run hrun).1, hcodes] at hnum
  exact absurd hnum (by decide +kernel)

end OmochaOS.Tty
