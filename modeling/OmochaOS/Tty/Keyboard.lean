import OmochaOS.Tty.CircularBuffer

/-!
# Reading the keyboard (`tty/kbd.c`, `tty/keymap.h`)

`kbd_read` takes the bytes of a scan code from the buffer, looks the key up and keeps the state of the
modifiers and the locks.  `kbd_code_end` says whether the buffer begins with a whole scan code.

* `translate` — the part of `kbd_read` behind the scan code;
* `readMatching_fits` — the comparison with the bytes of a longer scan code.
-/

namespace OmochaOS.Tty

/-! ### Key codes -/

def flagBreak : UInt8 := 0x80
def flagExt : ℕ := 0x0100
def flagShiftL : ℕ := 0x0200
def flagShiftR : ℕ := 0x0400
def flagCtrlL : ℕ := 0x0800
def flagCtrlR : ℕ := 0x1000
def flagAltL : ℕ := 0x2000
def flagAltR : ℕ := 0x4000
def maskRaw : ℕ := 0x01FF
def mapCols : ℕ := 3

namespace Key

def esc : ℕ := 0x01 + flagExt
def tab : ℕ := 0x02 + flagExt
def enter : ℕ := 0x03 + flagExt
def backspace : ℕ := 0x04 + flagExt
def guiL : ℕ := 0x05 + flagExt
def guiR : ℕ := 0x06 + flagExt
def apps : ℕ := 0x07 + flagExt
def shiftL : ℕ := 0x08 + flagExt
def shiftR : ℕ := 0x09 + flagExt
def ctrlL : ℕ := 0x0A + flagExt
def ctrlR : ℕ := 0x0B + flagExt
def altL : ℕ := 0x0C + flagExt
def altR : ℕ := 0x0D + flagExt
def capsLock : ℕ := 0x0E + flagExt
def numLock : ℕ := 0x0F + flagExt
def scrollLock : ℕ := 0x10 + flagExt
def f1 : ℕ := 0x11 + flagExt
def f2 : ℕ := 0x12 + flagExt
def f3 : ℕ := 0x13 + flagExt
def f4 : ℕ := 0x14 + flagExt
def f5 : ℕ := 0x15 + flagExt
def f6 : ℕ := 0x16 + flagExt
def f7 : ℕ := 0x17 + flagExt
def f8 : ℕ := 0x18 + flagExt
def f9 : ℕ := 0x19 + flagExt
def f10 : ℕ := 0x1A + flagExt
def f11 : ℕ := 0x1B + flagExt
def f12 : ℕ := 0x1C + flagExt
def printscreen : ℕ := 0x1D + flagExt
def pausebreak : ℕ := 0x1E + flagExt
def insert : ℕ := 0x1F + flagExt
def delete : ℕ := 0x20 + flagExt
def home : ℕ := 0x21 + flagExt
def endKey : ℕ := 0x22 + flagExt
def pageup : ℕ := 0x23 + flagExt
def pagedown : ℕ := 0x24 + flagExt
def up : ℕ := 0x25 + flagExt
def down : ℕ := 0x26 + flagExt
def left : ℕ := 0x27 + flagExt
def right : ℕ := 0x28 + flagExt
def padSlash : ℕ := 0x2C + flagExt
def padMinus : ℕ := 0x2E + flagExt
def padPlus : ℕ := 0x2F + flagExt
def padEnter : ℕ := 0x30 + flagExt
def padDot : ℕ := 0x31 + flagExt
def pad0 : ℕ := 0x32 + flagExt
def pad1 : ℕ := 0x33 + flagExt
def pad2 : ℕ := 0x34 + flagExt
def pad3 : ℕ := 0x35 + flagExt
def pad4 : ℕ := 0x36 + flagExt
def pad5 : ℕ := 0x37 + flagExt
def pad6 : ℕ := 0x38 + flagExt
def pad7 : ℕ := 0x39 + flagExt
def pad8 : ℕ := 0x3A + flagExt
def pad9 : ℕ := 0x3B + flagExt
def padUp : ℕ := pad8
def padDown : ℕ := pad2
def padLeft : ℕ := pad4
def padRight : ℕ := pad6
def padHome : ℕ := pad7
def padEnd : ℕ := pad1
def padPageup : ℕ := pad9
def padPagedown : ℕ := pad3
def padIns : ℕ := pad0
def padMid : ℕ := pad5

end Key

/-- `keymap`: for each scan code the key alone, with shift, and behind `E0`. -/
def keymap : List ℕ :=
  [0, 0, 0,
    Key.esc, Key.esc, 0, '1'.toNat, '!'.toNat, 0, '2'.toNat, '@'.toNat, 0, '3'.toNat, '#'.toNat, 0,
    '4'.toNat, '$'.toNat, 0, '5'.toNat, '%'.toNat, 0, '6'.toNat, '^'.toNat, 0, '7'.toNat, '&'.toNat, 0,
    '8'.toNat, '*'.toNat, 0, '9'.toNat, '('.toNat, 0, '0'.toNat, ')'.toNat, 0, '-'.toNat, '_'.toNat, 0,
    '='.toNat, '+'.toNat, 0, Key.backspace, Key.backspace, 0, Key.tab, Key.tab, 0, 'q'.toNat, 'Q'.toNat, 0,
    'w'.toNat, 'W'.toNat, 0, 'e'.toNat, 'E'.toNat, 0, 'r'.toNat, 'R'.toNat, 0, 't'.toNat, 'T'.toNat, 0,
    'y'.toNat, 'Y'.toNat, 0, 'u'.toNat, 'U'.toNat, 0, 'i'.toNat, 'I'.toNat, 0, 'o'.toNat, 'O'.toNat, 0,
    'p'.toNat, 'P'.toNat, 0, '['.toNat, '{'.toNat, 0, ']'.toNat, '}'.toNat, 0,
    Key.enter, Key.enter, Key.padEnter, Key.ctrlL, Key.ctrlL, Key.ctrlR, 'a'.toNat, 'A'.toNat, 0,
    's'.toNat, 'S'.toNat, 0, 'd'.toNat, 'D'.toNat, 0, 'f'.toNat, 'F'.toNat, 0, 'g'.toNat, 'G'.toNat, 0,
    'h'.toNat, 'H'.toNat, 0, 'j'.toNat, 'J'.toNat, 0, 'k'.toNat, 'K'.toNat, 0, 'l'.toNat, 'L'.toNat, 0,
    ';'.toNat, ':'.toNat, 0, 0x27, 0x22, 0, 0x60, '~'.toNat, 0, Key.shiftL, Key.shiftL, 0,
    0x5C, '|'.toNat, 0, 'z'.toNat, 'Z'.toNat, 0, 'x'.toNat, 'X'.toNat, 0, 'c'.toNat, 'C'.toNat, 0,
    'v'.toNat, 'V'.toNat, 0, 'b'.toNat, 'B'.toNat, 0, 'n'.toNat, 'N'.toNat, 0, 'm'.toNat, 'M'.toNat, 0,
    ','.toNat, '<'.toNat, 0, '.'.toNat, '>'.toNat, 0, '/'.toNat, '?'.toNat, Key.padSlash,
    Key.shiftR, Key.shiftR, 0, '*'.toNat, '*'.toNat, 0, Key.altL, Key.altL, Key.altR,
    ' '.toNat, ' '.toNat, 0, Key.capsLock, Key.capsLock, 0, Key.f1, Key.f1, 0, Key.f2, Key.f2, 0,
    Key.f3, Key.f3, 0, Key.f4, Key.f4, 0, Key.f5, Key.f5, 0, Key.f6, Key.f6, 0, Key.f7, Key.f7, 0,
    Key.f8, Key.f8, 0, Key.f9, Key.f9, 0, Key.f10, Key.f10, 0, Key.numLock, Key.numLock, 0,
    Key.scrollLock, Key.scrollLock, 0, Key.padHome, '7'.toNat, Key.home, Key.padUp, '8'.toNat, Key.up,
    Key.padPageup, '9'.toNat, Key.pageup, Key.padMinus, '-'.toNat, 0, Key.padLeft, '4'.toNat, Key.left,
    Key.padMid, '5'.toNat, 0, Key.padRight, '6'.toNat, Key.right, Key.padPlus, '+'.toNat, 0,
    Key.padEnd, '1'.toNat, Key.endKey, Key.padDown, '2'.toNat, Key.down,
    Key.padPagedown, '3'.toNat, Key.pagedown, Key.padIns, '0'.toNat, Key.insert,
    Key.padDot, '.'.toNat, Key.delete,
    0, 0, 0, 0, 0, 0, 0, 0, 0,
    Key.f11, Key.f11, 0, Key.f12, Key.f12, 0,
    0, 0, 0, 0, 0, 0,
    0, 0, Key.guiL, 0, 0, Key.guiR, 0, 0, Key.apps,
    0, 0, 0, 0, 0, 0, 0, 0, 0, 0, 0, 0, 0, 0, 0, 0, 0, 0, 0, 0, 0, 0, 0, 0, 0, 0, 0, 0, 0, 0, 0, 0, 0, 0, 0, 0,
    0, 0, 0, 0, 0, 0, 0, 0, 0, 0, 0, 0, 0, 0, 0, 0, 0, 0, 0, 0, 0, 0, 0, 0, 0, 0, 0, 0, 0, 0, 0, 0, 0, 0, 0, 0,
    0, 0, 0, 0, 0, 0, 0, 0, 0, 0, 0, 0, 0, 0, 0, 0, 0, 0, 0, 0, 0, 0, 0, 0, 0, 0, 0, 0, 0, 0]

/-! ### The state of the keyboard -/

/-- The modifiers and the locks, and the bytes that were sent to the LEDs, the last one first. -/
structure KeyState where
  shiftL : Bool
  shiftR : Bool
  altL : Bool
  altR : Bool
  ctrlL : Bool
  ctrlR : Bool
  capsLock : Bool
  numLock : Bool
  scrLock : Bool
  leds : List UInt8

/-- The byte for the LEDs. -/
def KeyState.ledByte (s : KeyState) : UInt8 :=
  (UInt8.ofNat s.capsLock.toNat <<< 2) ||| (UInt8.ofNat s.numLock.toNat <<< 1) |||
    UInt8.ofNat s.scrLock.toNat

/-- `set_leds`, with a controller that takes the byte. -/
def setLeds (s : KeyState) : KeyState := { s with leds := s.ledByte :: s.leds }

/-- The modifiers and the locks after `init_kbd`. -/
def initState : KeyState :=
  setLeds { shiftL := false, shiftR := false, altL := false, altR := false, ctrlL := false, ctrlR := false,
            capsLock := false, numLock := true, scrLock := false, leds := [] }

structure Keyboard where
  buffer : CircularBuffer
  state : KeyState

/-- `init_kbd`. -/
def initKbd (buf : ℕ → UInt8) : Keyboard := { buffer := initBuffer buf, state := initState }

/-! ### `kbd_read` -/

/-- The `switch` over the key. -/
def press (s : KeyState) (key : ℕ) (make : Bool) : KeyState :=
  if key = Key.shiftL then { s with shiftL := make }
  else if key = Key.shiftR then { s with shiftR := make }
  else if key = Key.altL then { s with altL := make }
  else if key = Key.altR then { s with altR := make }
  else if key = Key.ctrlL then { s with ctrlL := make }
  else if key = Key.ctrlR then { s with ctrlR := make }
  else if key = Key.capsLock then if make then setLeds { s with capsLock := !s.capsLock } else s
  else if key = Key.numLock then if make then setLeds { s with numLock := !s.capsLock } else s
  else if key = Key.scrollLock then if make then setLeds { s with scrLock := !s.scrLock } else s
  else s

/-- The flags of the modifiers. -/
def KeyState.flags (s : KeyState) : ℕ :=
  (if s.shiftL then flagShiftL else 0) ||| (if s.shiftR then flagShiftR else 0) |||
    (if s.altL then flagAltL else 0) ||| (if s.altR then flagAltR else 0) |||
    (if s.ctrlL then flagCtrlL else 0) ||| (if s.ctrlR then flagCtrlR else 0)

/-- What is returned: the key with the flags, or 0 for a break. -/
def answer (s : KeyState) (key : ℕ) (make : Bool) : ℕ := if make then key ||| s.flags else 0

/-- The entry of `keymap` in a column. -/
def keyrow (code : UInt8) (col : ℕ) : ℕ := keymap.getD ((code &&& 0x7F).toNat * mapCols + col) 0

/-- The column of a key. -/
def column (s : KeyState) (code : UInt8) (e0 : Bool) : ℕ :=
  let caps := s.shiftL || s.shiftR
  let caps := if s.capsLock ∧ 'a'.toNat ≤ keyrow code 0 ∧ keyrow code 0 ≤ 'z'.toNat then !caps else caps
  if e0 then 2 else if caps then 1 else 0

/-- `kbd_read` from the scan code on. -/
def translate (s : KeyState) (code : UInt8) (e0 : Bool) : ℕ × KeyState :=
  let make : Bool := code &&& flagBreak = 0
  let key := keyrow code (column s code e0)
  let s := press s key make
  (answer s key make, s)

/-- Bytes are read as long as they are the expected ones. -/
def readMatching : List UInt8 → CircularBuffer → Option (Bool × CircularBuffer)
  | [], b => some (true, b)
  | expected :: rest, b => do
    let (data, b) ← readCircularBuffer b
    if data = expected then readMatching rest b else some (false, b)

/-- What `kbd_read` returns behind a PrintScreen or Pause, or else behind a scan code. -/
def finish (s : KeyState) (b : CircularBuffer) (found : Bool) (key : ℕ) (make : Bool) (code : UInt8)
    (e0 : Bool) : ℕ × Keyboard :=
  if found then (answer s key make, { buffer := b, state := s })
  else
    let (key, s) := translate s code e0
    (key, { buffer := b, state := s })

/-- `kbd_read`; it waits where the buffer is empty.  `make` has no value yet when `PAUSEBREAK` is found. -/
def kbdRead (make : Bool) (k : Keyboard) : Option (ℕ × Keyboard) :=
  if k.buffer.count = 0 then some (0, k)
  else do
    let (code, b) ← readCircularBuffer k.buffer
    if code = 0xE1 then
      let (isPausebreak, b) ← readMatching [0xE1, 0x1D, 0x45, 0xE1, 0x9D, 0xC5] b
      some (finish k.state b isPausebreak Key.pausebreak make code false)
    else if code = 0xE0 then
      let (code, b) ← readCircularBuffer b
      if code = 0x2A then
        let (isPrintscreen, b) ← readMatching [0xE0, 0x37] b
        some (finish k.state b isPrintscreen Key.printscreen true code true)
      else if code = 0xB7 then
        let (isPrintscreen, b) ← readMatching [0xE0, 0xAA] b
        some (finish k.state b isPrintscreen Key.printscreen false code true)
      else some (finish k.state b false 0 make code true)
    else some (finish k.state b false 0 make code false)

/-- `kbd_code_end`. -/
def kbdCodeEnd (m : Around) (b : CircularBuffer) : Option ℕ :=
  if b.count = 0 then some 0
  else do
    let firstbyte ← peekCircularBuffer m b 0
    if firstbyte ≠ 0xE0 ∧ firstbyte ≠ 0xE1 then some 1
    else
      let secondbyte ← peekCircularBuffer m b 1
      if firstbyte = 0xE0 ∧ (secondbyte = 0x2A ∧ 4 ≤ b.count ∨ 2 ≤ b.count) then some 1
      else if firstbyte = 0xE1 ∧ secondbyte = 0x1D ∧ 6 ≤ b.count then some 1
      else some 0

variable {b : CircularBuffer} {l : List UInt8}

/-- The expected bytes are taken. -/
theorem readMatching_fits (expected : List UInt8) (h : Fits b (expected ++ l)) :
    ∃ b', readMatching expected b = some (true, b') ∧ Fits b' l := by
  induction expected generalizing b with
  | nil => exact ⟨b, rfl, h⟩
  | cons x expected ih =>
    obtain ⟨c, hread, hc⟩ := h.read
    obtain ⟨b', hmatch, hfits⟩ := ih hc
    refine ⟨b', ?_, hfits⟩
    rw [readMatching, hread]
    show (if x = x then readMatching expected c else some (false, c)) = _
    rw [if_pos rfl, hmatch]

/-- The byte that does not match is taken, too. -/
theorem readMatching_ne {x data : UInt8} {expected : List UInt8} (hne : data ≠ x) (h : Fits b (data :: l)) :
    ∃ b', readMatching (x :: expected) b = some (false, b') ∧ Fits b' l := by
  obtain ⟨b', hread, hfits⟩ := h.read
  refine ⟨b', ?_, hfits⟩
  rw [readMatching, hread]
  exact if_neg hne

end OmochaOS.Tty
