import OmochaOS.Tty.Keyboard

/-!
# Scan codes in the keyboard buffer

A scan code has one byte, two bytes behind `E0`, four bytes for PrintScreen, and six for Pause.  `kbd_read`
compares the bytes behind the `E1` of Pause with all six, the first one included, and never finds it;
`kbd_code_end` takes two bytes of PrintScreen for a whole scan code.

* `kbdRead_fits` — one call takes one scan code, unless it is Pause;
* `framed_iff` — reading and `kbd_code_end` are right when there is neither.
-/

namespace OmochaOS.Tty

open RingQueue

/-- The scan codes of set 1. -/
inductive ScanCode where
  | single (code : UInt8)
  | extended (code : UInt8)
  | printscreen (make : Bool)
  | pause

namespace ScanCode

def bytes : ScanCode → List UInt8
  | single code => [code]
  | extended code => [0xE0, code]
  | printscreen true => [0xE0, 0x2A, 0xE0, 0x37]
  | printscreen false => [0xE0, 0xB7, 0xE0, 0xAA]
  | pause => [0xE1, 0x1D, 0x45, 0xE1, 0x9D, 0xC5]

/-- The bytes belong to this scan code and no longer one. -/
def Valid : ScanCode → Prop
  | single code => code ≠ 0xE0 ∧ code ≠ 0xE1
  | extended code => code ≠ 0x2A ∧ code ≠ 0xB7
  | _ => True

/-- Neither PrintScreen nor Pause. -/
def Plain : ScanCode → Prop
  | printscreen _ => False
  | pause => False
  | _ => True

def make : ScanCode → Bool
  | single code => code &&& flagBreak = 0
  | extended code => code &&& flagBreak = 0
  | printscreen make => make
  | pause => true

/-- The key in the state of the modifiers and locks. -/
def key (s : KeyState) : ScanCode → ℕ
  | single code => keyrow code (column s code false)
  | extended code => keyrow code 2
  | printscreen _ => Key.printscreen
  | pause => Key.pausebreak

/-- The state of the modifiers and locks behind the scan code. -/
def after (s : KeyState) : ScanCode → KeyState
  | single code => press s ((single code).key s) (single code).make
  | extended code => press s ((extended code).key s) (extended code).make
  | _ => s

/-- What `kbd_read` is to return: the key with the modifiers, or 0 for a break. -/
def result (s : KeyState) (e : ScanCode) : ℕ := if e.make then e.key s ||| (e.after s).flags else 0

end ScanCode

/-- The bytes of the scan codes. -/
def bytesOf (codes : List ScanCode) : List UInt8 := codes.flatMap ScanCode.bytes

/-- Each call of `kbd_read` takes one scan code and returns what it is to return. -/
def ReadsAll (make : Bool) : Keyboard → List ScanCode → Prop
  | _, [] => True
  | k, e :: rest => ∃ b, kbdRead make k = some (e.result k.state, { buffer := b, state := e.after k.state }) ∧
      Fits b (bytesOf rest) ∧ ReadsAll make { buffer := b, state := e.after k.state } rest

/-- Scan codes that are in the buffer are read one by one, and `kbd_code_end` knows whether the first one is
whole when the buffer has `n` bytes. -/
def Framed (codes : List ScanCode) : Prop :=
  (∀ make k, Fits k.buffer (bytesOf codes) → ReadsAll make k codes) ∧
    ∀ m past e rest, codes = past ++ e :: rest → ∀ n b, Fits b ((bytesOf (e :: rest)).take n) →
      kbdCodeEnd m b = some (if e.bytes.length ≤ n then 1 else 0)

variable {make : Bool} {k : Keyboard} {b : CircularBuffer} {m : Around} {e : ScanCode} {codes : List ScanCode}
  {l : List UInt8} {c : UInt8} {n : ℕ}

/-! ### Reading -/

theorem Fits.count_ne_zero (h : Fits b (c :: l)) : b.count ≠ 0 := by
  rw [h.count_eq]
  exact Nat.succ_ne_zero _

/-- **One call takes one scan code**, unless it is Pause. -/
theorem kbdRead_fits (make : Bool) (hvalid : e.Valid) (hpause : e ≠ .pause) (h : Fits k.buffer (e.bytes ++ l)) :
    ∃ b, kbdRead make k = some (e.result k.state, { buffer := b, state := e.after k.state }) ∧ Fits b l := by
  cases e with
  | single code =>
    obtain ⟨b, hread, hfits⟩ := h.read
    refine ⟨b, ?_, hfits⟩
    rw [kbdRead, if_neg h.count_ne_zero, hread]
    exact (if_neg hvalid.2).trans (if_neg hvalid.1)
  | extended code =>
    obtain ⟨b₁, hread₁, h₁⟩ := h.read
    obtain ⟨b, hread, hfits⟩ := h₁.read
    refine ⟨b, ?_, hfits⟩
    rw [kbdRead, if_neg h.count_ne_zero, hread₁]
    show (readCircularBuffer b₁).bind _ = _
    rw [hread]
    exact (if_neg hvalid.1).trans (if_neg hvalid.2)
  | printscreen make =>
    cases make with
    | true =>
      obtain ⟨b₁, hread₁, h₁⟩ := h.read
      obtain ⟨b₂, hread₂, h₂⟩ := h₁.read
      obtain ⟨b, hmatch, hfits⟩ := readMatching_fits [0xE0, 0x37] h₂
      refine ⟨b, ?_, hfits⟩
      rw [kbdRead, if_neg h.count_ne_zero, hread₁]
      show (readCircularBuffer b₁).bind _ = _
      rw [hread₂]
      show (readMatching [0xE0, 0x37] b₂).bind _ = _
      rw [hmatch]
      rfl
    | false =>
      obtain ⟨b₁, hread₁, h₁⟩ := h.read
      obtain ⟨b₂, hread₂, h₂⟩ := h₁.read
      obtain ⟨b, hmatch, hfits⟩ := readMatching_fits [0xE0, 0xAA] h₂
      refine ⟨b, ?_, hfits⟩
      rw [kbdRead, if_neg h.count_ne_zero, hread₁]
      show (readCircularBuffer b₁).bind _ = _
      rw [hread₂]
      show (readMatching [0xE0, 0xAA] b₂).bind _ = _
      rw [hmatch]
      rfl
  | pause => exact absurd rfl hpause

/-- Pause is taken for the break of a key that does not exist. -/
theorem kbdRead_pause (make : Bool) (h : Fits k.buffer (ScanCode.pause.bytes ++ l)) :
    ∃ k', kbdRead make k = some (0, k') := by
  obtain ⟨b₁, hread, h₁⟩ := h.read
  obtain ⟨b, hmatch, -⟩ : ∃ b, readMatching [0xE1, 0x1D, 0x45, 0xE1, 0x9D, 0xC5] b₁ = some (false, b) ∧
      Fits b (0x45 :: 0xE1 :: 0x9D :: 0xC5 :: l) :=
    readMatching_ne (show (0x1D : UInt8) ≠ 0xE1 by decide) h₁
  refine ⟨{ buffer := b, state := (translate k.state 0xE1 false).2 }, ?_⟩
  rw [kbdRead, if_neg h.count_ne_zero, hread]
  show (readMatching [0xE1, 0x1D, 0x45, 0xE1, 0x9D, 0xC5] b₁).bind _ = _
  rw [hmatch]
  rfl

/-- Without Pause, all scan codes are read. -/
theorem readsAll_of_fits (hvalid : ∀ e ∈ codes, e.Valid) (hpause : ∀ e ∈ codes, e ≠ .pause)
    (h : Fits k.buffer (bytesOf codes)) : ReadsAll make k codes := by
  induction codes generalizing k with
  | nil => trivial
  | cons e rest ih =>
    obtain ⟨b, hread, hfits⟩ := kbdRead_fits make (hvalid e List.mem_cons_self)
      (hpause e List.mem_cons_self) h
    refine ⟨b, hread, hfits, ih ?_ ?_ hfits⟩
    · exact fun x hx => hvalid x (List.mem_cons_of_mem e hx)
    · exact fun x hx => hpause x (List.mem_cons_of_mem e hx)

theorem result_pause_ne_zero {s : KeyState} : ScanCode.pause.result s ≠ 0 := by
  intro h
  have hkey : Key.pausebreak = 0 := (Nat.or_eq_zero_iff.mp h).1
  exact absurd hkey (by decide)

/-- Where all scan codes are read there is no Pause. -/
theorem ReadsAll.no_pause (hreads : ReadsAll make k codes) (h : Fits k.buffer (bytesOf codes)) :
    ∀ e ∈ codes, e ≠ .pause := by
  induction codes generalizing k with
  | nil => exact fun e he => absurd he List.not_mem_nil
  | cons e rest ih =>
    obtain ⟨b, hread, hfits, hrest⟩ := hreads
    refine List.forall_mem_cons.mpr ⟨?_, ih hrest hfits⟩
    intro hpause
    subst hpause
    obtain ⟨k', hzero⟩ := kbdRead_pause make (l := bytesOf rest) h
    rw [hzero] at hread
    exact result_pause_ne_zero (congrArg Prod.fst (Option.some.inj hread)).symm

/-! ### `kbd_code_end` -/

theorem codeEnd_nil (h : Fits b []) : kbdCodeEnd m b = some 0 := if_pos h.count_eq

/-- A peek at the first byte. -/
theorem peek_first (h : Fits b (c :: l)) : peekCircularBuffer m b 0 = some c :=
  peek_fits h (Nat.pos_of_ne_zero h.count_ne_zero) h.holds.tail_lt

theorem codeEnd_single (hc : c ≠ 0xE0 ∧ c ≠ 0xE1) (h : Fits b (c :: l)) : kbdCodeEnd m b = some 1 := by
  rw [kbdCodeEnd, if_neg h.count_ne_zero, peek_first h]
  exact if_pos hc

/-- Some byte is returned where there is one. -/
theorem peek_some (offset : ℕ) (hcount : b.count ≠ 0) : ∃ data, peekCircularBuffer m b offset = some data := by
  rw [peekCircularBuffer, if_neg hcount]
  split
  · exact ⟨_, rfl⟩
  · exact ⟨_, rfl⟩

/-- Behind `E0` one more byte is enough. -/
theorem codeEnd_e0 (h : Fits b (0xE0 :: l)) : kbdCodeEnd m b = some (if l = [] then 0 else 1) := by
  obtain ⟨data, hdata⟩ := peek_some (m := m) 1 h.count_ne_zero
  have hcount : b.count = l.length + 1 := h.count_eq
  rw [kbdCodeEnd, if_neg h.count_ne_zero, peek_first h]
  show (if (0xE0 : UInt8) ≠ 0xE0 ∧ (0xE0 : UInt8) ≠ 0xE1 then some 1
    else (peekCircularBuffer m b 1).bind _) = _
  rw [if_neg fun h => h.1 rfl, hdata]
  by_cases hl : l = []
  · have hshort : b.count = 1 := by
      rw [hcount, hl]
      rfl
    rw [if_pos hl]
    refine (if_neg ?_).trans (if_neg fun h => absurd h.1 (by decide))
    rintro ⟨-, ⟨-, hle⟩ | hle⟩
    · omega
    · omega
  · have hpos : 0 < l.length := List.length_pos_of_ne_nil hl
    rw [if_neg hl]
    exact if_pos ⟨rfl, Or.inr (by omega)⟩

/-- A short scan code is seen as soon as it is whole. -/
theorem codeEnd_plain (hplain : e.Plain) (hvalid : e.Valid) (h : Fits b ((e.bytes ++ l).take n)) :
    kbdCodeEnd m b = some (if e.bytes.length ≤ n then 1 else 0) := by
  cases e with
  | single code =>
    cases n with
    | zero => exact codeEnd_nil h
    | succ n =>
      exact (codeEnd_single hvalid h).trans (congrArg some (if_pos (Nat.le_add_left 1 n)).symm)
  | extended code =>
    cases n with
    | zero => exact codeEnd_nil h
    | succ n =>
      rw [codeEnd_e0 h]
      cases n with
      | zero => rfl
      | succ n => rfl
  | printscreen make => exact hplain.elim
  | pause => exact hplain.elim

/-! ### Framing -/

/-- A buffer with some bytes in it. -/
def bufferOf (l : List UInt8) : CircularBuffer :=
  { head := l.length % 256, tail := 0, count := l.length, buf := fun i => l.getD i 0 }

theorem fits_bufferOf (hl : l.length ≤ 256) : Fits (bufferOf l) l := by
  refine ⟨⟨show 0 < 256 by decide, hl, fun i hi => ?_⟩, rfl, ?_⟩
  · show l.getD ((0 + i) % 256) 0 = l[i]
    rw [Nat.zero_add, Nat.mod_eq_of_lt (Nat.lt_of_lt_of_le hi hl), List.getD_eq_getElem?_getD, List.getElem?_eq_getElem hi,
      Option.getD_some]
  · show l.length % 256 = (0 + l.length) % 256
    rw [Nat.zero_add]

/-- The first two bytes of PrintScreen are taken for a whole scan code. -/
theorem codeEnd_printscreen {pressed : Bool} :
    kbdCodeEnd m (bufferOf ((bytesOf (.printscreen pressed :: codes)).take 2)) = some 1 := by
  cases pressed with
  | true => exact codeEnd_e0 (fits_bufferOf (l := [0xE0, 0x2A]) (by decide))
  | false => exact codeEnd_e0 (fits_bufferOf (l := [0xE0, 0xB7]) (by decide))

/-- Where the framing is right there is no PrintScreen. -/
theorem Framed.no_printscreen (h : Framed codes) (pressed : Bool) : .printscreen pressed ∉ codes := by
  intro hmem
  obtain ⟨past, rest, hsplit⟩ := List.append_of_mem hmem
  have hfits : Fits (bufferOf ((bytesOf (.printscreen pressed :: rest)).take 2))
      ((bytesOf (.printscreen pressed :: rest)).take 2) :=
    fits_bufferOf ((List.length_take_le 2 _).trans (by decide))
  have hend := h.2 ⟨0, fun _ => 0⟩ past _ rest hsplit 2 _ hfits
  rw [codeEnd_printscreen] at hend
  cases pressed with
  | true => exact absurd hend (by decide)
  | false => exact absurd hend (by decide)

/-- Where the framing is right there is no Pause. -/
theorem Framed.no_pause (h : Framed codes) (hlength : (bytesOf codes).length ≤ 256) :
    ∀ e ∈ codes, e ≠ .pause :=
  (h.1 false { buffer := bufferOf (bytesOf codes), state := initState } (fits_bufferOf hlength)).no_pause
    (fits_bufferOf hlength)

/-- **When the framing is right**: without PrintScreen and Pause. -/
theorem framed_iff (codes : List ScanCode) (hvalid : ∀ e ∈ codes, e.Valid)
    (hlength : (bytesOf codes).length ≤ 256) : Framed codes ↔ ∀ e ∈ codes, e.Plain := by
  constructor
  · intro h e he
    cases e with
    | single code => trivial
    | extended code => trivial
    | printscreen pressed => exact h.no_printscreen pressed he
    | pause => exact h.no_pause hlength .pause he rfl
  · intro hplain
    constructor
    · intro make k hfits
      refine readsAll_of_fits hvalid (fun e he hpause => ?_) hfits
      have hno := hplain e he
      rw [hpause] at hno
      exact hno
    · intro m past e rest hsplit n b hfits
      have hmem : e ∈ codes := hsplit ▸ List.mem_append_right past List.mem_cons_self
      exact codeEnd_plain (hplain e hmem) (hvalid e hmem) hfits

/-- A letter and the right Ctrl key, pressed and released. -/
theorem framed_iff_plain : Framed [.single 0x1E, .extended 0x1D, .single 0x9E, .extended 0x9D] := by
  refine (framed_iff _ (fun e he => ?_) (by decide)).mpr fun e he => ?_
  · simp only [List.mem_cons, List.not_mem_nil, or_false] at he
    rcases he with rfl | rfl | rfl | rfl <;> exact ⟨by decide, by decide⟩
  · simp only [List.mem_cons, List.not_mem_nil, or_false] at he
    rcases he with rfl | rfl | rfl | rfl <;> trivial

/-- **Pause alone** is not read as Pause. -/
theorem pause_not_framed : ¬ Framed [.pause] := fun h =>
  h.no_pause (by decide) .pause List.mem_cons_self rfl

end OmochaOS.Tty
