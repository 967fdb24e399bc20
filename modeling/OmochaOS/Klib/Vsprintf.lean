import OmochaOS.Klib.Itoa
import OmochaOS.Lib.CString
import Mathlib.Data.BitVec

/-!
# `vsprintf` (`lib/stdlib.c`)

A format is a row of pieces: literal characters, `%%`, and fields with an optional `0`, a width and a
conversion.  Each piece is one round of the loop and writes a text of its own.

* `convert_eq` — what a conversion leaves in `inner_buf`;
* `loop_piece` — one round of the loop;
* `vsprintf_eq` — the whole output, its NUL and the count.
-/

namespace OmochaOS.Klib

open ByteMemory

/-- The words behind the format, from `arg` on. -/
abbrev VaList := List (BitVec 32)

/-- The strings of the caller, by their addresses. -/
abbrev Strings := BitVec 32 → List UInt8

/-- `while (*fmt >= '0' && *fmt <= '9')` the width is read. -/
def readWidth (align : BitVec 32) : List UInt8 → BitVec 32 × List UInt8
  | [] => (align, [])
  | c :: fmt =>
    if charCode '0' ≤ c ∧ c ≤ charCode '9' then
      readWidth (align * 10 + BitVec.ofNat 32 (c - charCode '0').toNat) fmt
    else (align, c :: fmt)

/-- The `switch` over the conversion character: `inner_buf`, which begins with zeros, and the arguments left. -/
def convert (strings : Strings) (c : UInt8) (arg : VaList) : Option (Memory × VaList) :=
  let q : Memory := fun _ => 0
  if c = charCode 'c' then do
    let m ← arg.head?
    some (Function.update q 0 (UInt8.ofNat m.toNat), arg.tail)
  else if c = charCode 'x' then do
    let m ← arg.head?
    some (itoa q m.toNat 0 16, arg.tail)
  else if c = charCode 'd' then do
    let m ← arg.head?
    if m.toInt < 0 then some (itoa (Function.update q 0 (charCode '-')) (m * -1).toNat 1 10, arg.tail)
    else some (itoa q m.toNat 0 10, arg.tail)
  else if c = charCode 's' then do
    let m ← arg.head?
    if (strings m).length < 1024 then some (store q 0 (strings m ++ [0]), arg.tail) else none
  else some (q, arg)

/-- `strlen(inner_buf)`. -/
def innerLength (inner : Memory) : Option ℕ :=
  CString.strlen (fun i => if i < 1024 then some (inner i) else none) 1024

/-- How often the `for` loop puts the filling character. -/
def padCount (align : BitVec 32) (length : ℕ) : ℕ :=
  if (length : ℤ) < align.toInt then (align.toInt - length).toNat else 0

/-- `for (k = 0; k < n; k++) *p++ = cs`. -/
def pad (cs : UInt8) : ℕ → Memory → ℕ → Memory × ℕ
  | 0, m, p => (m, p)
  | n + 1, m, p => pad cs n (Function.update m p cs) (p + 1)

/-- `while (*q) *p++ = *q++`. -/
def copyText (inner : Memory) : (fuel q : ℕ) → Memory → ℕ → Option (Memory × ℕ)
  | 0, _, _, _ => none
  | fuel + 1, q, m, p =>
    if inner q = 0 then some (m, p) else copyText inner fuel (q + 1) (Function.update m p (inner q)) (p + 1)

/-- A round behind its `%`: the format and the arguments that are left, the memory and `p`. -/
def field (strings : Strings) (fmt : List UInt8) (arg : VaList) (m : Memory) (p : ℕ) :
    Option (List UInt8 × VaList × Memory × ℕ) := do
  let cs := if fmt.head? = some (charCode '0') then charCode '0' else charCode ' '
  let (align, fmt) := readWidth 0 (if fmt.head? = some (charCode '0') then fmt.tail else fmt)
  let conversion ← fmt.head?
  let (inner, arg) ← convert strings conversion arg
  let length ← innerLength inner
  let (m, p) := pad cs (padCount align length) m p
  let (m, p) ← copyText inner 1024 0 m p
  some (fmt.tail, arg, m, p)

/-- The loop over the format; `none` where it leaves the format, the arguments or `inner_buf`. -/
def vsprintfLoop (strings : Strings) : ℕ → List UInt8 → VaList → Memory → ℕ → Option (Memory × ℕ)
  | 0, _, _, _, _ => none
  | _ + 1, [], _, m, p => some (m, p)
  | fuel + 1, c :: fmt, arg, m, p =>
    if c ≠ charCode '%' then vsprintfLoop strings fuel fmt arg (Function.update m p c) (p + 1)
    else if fmt.head? = some (charCode '%') then
      vsprintfLoop strings fuel fmt.tail arg (Function.update m p (charCode '%')) (p + 1)
    else do
      let (fmt, arg, m, p) ← field strings fmt arg m p
      vsprintfLoop strings fuel fmt arg m p

/-- `vsprintf`: the memory, and the number of characters. -/
def vsprintf (strings : Strings) (m : Memory) (buf : ℕ) (fmt : List UInt8) (args : VaList) :
    Option (Memory × ℕ) := do
  let (m, p) ← vsprintfLoop strings (fmt.length + 1) fmt args m buf
  some (Function.update m p 0, p - buf)

/-! ### Pieces -/

/-- The conversions. -/
inductive Conversion where
  | c | x | d | s

/-- The character of a conversion. -/
def Conversion.code : Conversion → UInt8
  | .c => charCode 'c'
  | .x => charCode 'x'
  | .d => charCode 'd'
  | .s => charCode 's'

/-- The decimal numeral of a signed word. -/
def signedNumeral (m : BitVec 32) : List UInt8 :=
  if m.toInt < 0 then charCode '-' :: numeral 10 m.toInt.natAbs else numeral 10 m.toInt.natAbs

/-- What a conversion makes of its argument; a character NUL is no text. -/
def Conversion.text (strings : Strings) (m : BitVec 32) : Conversion → List UInt8
  | .c => if UInt8.ofNat m.toNat = 0 then [] else [UInt8.ofNat m.toNat]
  | .x => numeral 16 m.toNat
  | .d => signedNumeral m
  | .s => strings m

/-- One round of the loop; a field has its argument with it. -/
inductive Piece where
  | literal (c : UInt8)
  | percent
  | field (zero : Bool) (width : List ℕ) (k : Conversion) (arg : BitVec 32)

namespace Piece

/-- How the piece is written in the format. -/
def spell : Piece → List UInt8
  | literal c => [c]
  | percent => [charCode '%', charCode '%']
  | field zero width k _ =>
    charCode '%' :: ((if zero then [charCode '0'] else []) ++ (width.map digitChar ++ [k.code]))

def args : Piece → VaList
  | field _ _ _ arg => [arg]
  | _ => []

/-- What the piece writes: a field is filled up on the left. -/
def output (strings : Strings) : Piece → List UInt8
  | literal c => [c]
  | percent => [charCode '%']
  | field zero width k arg =>
    List.replicate (Numeral.value 10 width - (k.text strings arg).length)
      (if zero then charCode '0' else charCode ' ') ++ k.text strings arg

/-- The piece is what it looks like: a width is an `int` and does not begin with the flag, and a string fits
in `inner_buf`. -/
def Ok (strings : Strings) : Piece → Prop
  | literal c => c ≠ 0 ∧ c ≠ charCode '%'
  | percent => True
  | field zero width k arg =>
    (∀ d ∈ width, d < 10) ∧ (zero = false → width.head? ≠ some 0) ∧ Numeral.value 10 width < 2 ^ 31 ∧
      (k = .s → (strings arg).length < 1024 ∧ ∀ c ∈ strings arg, c ≠ 0)

end Piece

variable {strings : Strings} {m : Memory} {p fuel n : ℕ} {width : List ℕ} {cs c : UInt8}
  {l text fmt : List UInt8} {arg : VaList} {k : Conversion} {w : BitVec 32} {piece : Piece}

/-- The width is read up to the first character that is no digit. -/
theorem readWidth_eq (done : List ℕ) (hwidth : ∀ d ∈ width, d < 10) (hc : ¬ (charCode '0' ≤ c ∧ c ≤ charCode '9')) :
    readWidth (BitVec.ofNat 32 (Numeral.value 10 done)) (width.map digitChar ++ c :: fmt) =
      (BitVec.ofNat 32 (Numeral.value 10 (done ++ width)), c :: fmt) := by
  induction width generalizing done with
  | nil =>
    rw [List.map_nil, List.nil_append, readWidth, if_neg hc, List.append_nil]
  | cons d width ih =>
    have hdigit : ∀ d < 10, (charCode '0' ≤ digitChar d ∧ digitChar d ≤ charCode '9') ∧
        (digitChar d - charCode '0').toNat = d := by decide
    obtain ⟨hin, hval⟩ := hdigit d (hwidth d List.mem_cons_self)
    rw [List.map_cons, List.cons_append, readWidth, if_pos hin, hval,
      List.append_cons done d width]
    have hnext : BitVec.ofNat 32 (Numeral.value 10 done) * 10 + BitVec.ofNat 32 d =
        BitVec.ofNat 32 (Numeral.value 10 (done ++ [d])) := by
      rw [Numeral.value_append_singleton, BitVec.ofNat_add, BitVec.ofNat_mul]
      rfl
    rw [hnext]
    exact ih (done ++ [d]) fun d' hd' => hwidth d' (List.mem_cons_of_mem d hd')

/-- The filling characters. -/
theorem pad_eq : pad cs n m p = (store m p (List.replicate n cs), p + n) := by
  induction n generalizing m p with
  | zero => rw [pad, List.replicate_zero, store_nil, Nat.add_zero]
  | succ n ih => rw [pad, ih, store_cons, List.replicate_succ, Nat.add_assoc, Nat.add_comm 1 n]

/-- `inner_buf` holds a text. -/
structure HoldsText (inner : Memory) (text : List UInt8) : Prop where
  length_lt : text.length < 1024
  no_nul : ∀ c ∈ text, c ≠ 0
  bytes : ∀ i (hi : i < text.length), inner i = text[i]
  ends : inner text.length = 0

theorem HoldsText.innerLength {inner : Memory} (h : HoldsText inner text) :
    innerLength inner = some text.length := by
  have hlt := h.length_lt
  have hfirst : CString.FirstNot (· != 0) (fun i => if i < 1024 then some (inner i) else none) 0 text.length := by
    refine ⟨Nat.zero_le _, ⟨0, ?_, rfl⟩, fun j _ hj => ⟨text[j], ?_, ?_⟩⟩
    · show (if text.length < 1024 then some (inner text.length) else none) = some 0
      rw [if_pos hlt, h.ends]
    · show (if j < 1024 then some (inner j) else none) = some text[j]
      rw [if_pos (Nat.lt_trans hj hlt), h.bytes j hj]
    · exact bne_iff_ne.mpr (h.no_nul _ (List.getElem_mem hj))
  exact hfirst.scanWhile (by omega)

/-- What is left of the text is copied. -/
theorem HoldsText.copyText_drop {inner : Memory} (h : HoldsText inner text) (q : ℕ) (hq : q ≤ text.length)
    (hfuel : text.length - q < fuel) :
    copyText inner fuel q m p = some (store m p (text.drop q), p + (text.length - q)) := by
  induction fuel generalizing q m p with
  | zero => exact absurd hfuel (Nat.not_lt_zero _)
  | succ fuel ih =>
    rw [copyText]
    rcases Nat.eq_or_lt_of_le hq with heq | hlt
    · rw [heq, if_pos h.ends, List.drop_length, store_nil, Nat.sub_self, Nat.add_zero]
    · have hne : inner q ≠ 0 := by
        rw [h.bytes q hlt]
        exact h.no_nul _ (List.getElem_mem hlt)
      have hlength : p + 1 + (text.length - (q + 1)) = p + (text.length - q) := by omega
      rw [if_neg hne, ih (q + 1) hlt (by omega), h.bytes q hlt, store_cons, hlength,
        ← List.drop_eq_getElem_cons hlt]

theorem HoldsText.copyText {inner : Memory} (h : HoldsText inner text) :
    copyText inner 1024 0 m p = some (store m p text, p + text.length) := by
  have hdrop := h.copyText_drop (m := m) (p := p) 0 (Nat.zero_le _) h.length_lt
  rw [List.drop_zero, Nat.sub_zero] at hdrop
  exact hdrop

theorem holdsText_store (hlt : text.length < 1024) (hno : ∀ c ∈ text, c ≠ 0) :
    HoldsText (store (fun _ => 0) 0 (text ++ [0])) text := by
  have hlength : (text ++ [(0 : UInt8)]).length = text.length + 1 := List.length_append
  refine ⟨hlt, hno, fun i hi => ?_, ?_⟩
  · have hbyte := store_add (m := fun _ => 0) (a := 0) (l := text ++ [0]) (i := i) (by omega)
    rw [Nat.zero_add] at hbyte
    rw [hbyte, List.getElem_append_left hi]
  · have hbyte := store_add (m := fun _ => 0) (a := 0) (l := text ++ [0]) (i := text.length) (by omega)
    rw [Nat.zero_add] at hbyte
    rw [hbyte, List.getElem_concat_length rfl]

/-- A single character; NUL ends the text at once. -/
theorem holdsText_char : HoldsText (Function.update (fun _ => 0) 0 c) (if c = 0 then [] else [c]) := by
  by_cases hc : c = 0
  · rw [hc, if_pos rfl]
    exact ⟨show 0 < 1024 by decide, fun c hc => absurd hc List.not_mem_nil,
      fun i hi => absurd hi (Nat.not_lt_zero i), rfl⟩
  · rw [if_neg hc]
    refine ⟨show 1 < 1024 by decide, fun c' hc' => ?_, fun i hi => ?_, rfl⟩
    · rw [List.mem_singleton.mp hc']
      exact hc
    · obtain rfl : i = 0 := Nat.lt_one_iff.mp hi
      rfl

/-! ### Conversions -/

/-- A number that is not negative is converted as it is. -/
theorem natAbs_of_nonneg (h : ¬ w.toInt < 0) : w.toInt.natAbs = w.toNat := by
  have hlt := w.isLt
  rw [BitVec.toInt_eq_toNat_cond] at h ⊢
  split at h
  · next hsmall => rw [if_pos hsmall, Int.natAbs_natCast]
  · omega

/-- The negative of a negative number, `-2^31` included. -/
theorem natAbs_of_neg (h : w.toInt < 0) : w.toInt.natAbs = (w * -1).toNat := by
  have hlt := w.isLt
  have hneg : (w * -1).toNat = (2 ^ 32 - w.toNat) % 2 ^ 32 := by
    rw [BitVec.mul_neg, mul_one, BitVec.toNat_neg]
  rw [BitVec.toInt_eq_toNat_cond] at h ⊢
  split at h
  · omega
  · next hlarge =>
    rw [if_neg hlarge, hneg]
    omega

theorem natAbs_lt : w.toInt.natAbs < 2 ^ 32 := by
  by_cases h : w.toInt < 0
  · rw [natAbs_of_neg h]
    exact BitVec.isLt _
  · rw [natAbs_of_nonneg h]
    exact BitVec.isLt _

theorem signedNumeral_fits : (signedNumeral w).length < 1024 ∧ ∀ c ∈ signedNumeral w, c ≠ 0 := by
  have hlength : (numeral 10 w.toInt.natAbs).length ≤ 32 := numeral_length_le (by decide) natAbs_lt
  have hno : ∀ c ∈ numeral 10 w.toInt.natAbs, c ≠ 0 := numeral_no_nul (by decide) (by decide)
  rw [signedNumeral]
  split
  · refine ⟨?_, List.forall_mem_cons.mpr ⟨by decide, hno⟩⟩
    rw [List.length_cons]
    omega
  · exact ⟨by omega, hno⟩

/-- What the `switch` leaves in `inner_buf`. -/
theorem convert_eq (hs : k = .s → (strings w).length < 1024 ∧ ∀ c ∈ strings w, c ≠ 0) :
    ∃ inner, convert strings k.code (w :: arg) = some (inner, arg) ∧ HoldsText inner (k.text strings w) := by
  cases k with
  | c => exact ⟨Function.update (fun _ => 0) 0 (UInt8.ofNat w.toNat), rfl, holdsText_char⟩
  | x =>
    refine ⟨itoa (fun _ => 0) w.toNat 0 16, rfl, ?_⟩
    rw [itoa_eq (by decide) (by decide)]
    have hlength : (numeral 16 w.toNat).length ≤ 32 := numeral_length_le (by decide) w.isLt
    exact holdsText_store (Nat.lt_of_le_of_lt hlength (by decide)) (numeral_no_nul (by decide) (by decide))
  | d =>
    obtain ⟨hlength, hno⟩ := signedNumeral_fits (w := w)
    by_cases hneg : w.toInt < 0
    · refine ⟨itoa (Function.update (fun _ => 0) 0 (charCode '-')) (w * -1).toNat 1 10, if_pos hneg, ?_⟩
      have htext : signedNumeral w = charCode '-' :: numeral 10 (w * -1).toNat := by
        rw [signedNumeral, if_pos hneg, natAbs_of_neg hneg]
      rw [itoa_eq (by decide) (by decide), store_cons, ← List.cons_append, ← htext]
      exact holdsText_store hlength hno
    · refine ⟨itoa (fun _ => 0) w.toNat 0 10, if_neg hneg, ?_⟩
      have htext : signedNumeral w = numeral 10 w.toNat := by
        rw [signedNumeral, if_neg hneg, natAbs_of_nonneg hneg]
      rw [itoa_eq (by decide) (by decide), ← htext]
      exact holdsText_store hlength hno
  | s =>
    obtain ⟨hlength, hno⟩ := hs rfl
    exact ⟨store (fun _ => 0) 0 (strings w ++ [0]), if_pos hlength, holdsText_store hlength hno⟩

/-- Where the field is filled up, by the width that was read. -/
theorem padCount_eq {width : ℕ} (hwidth : width < 2 ^ 31) :
    padCount (BitVec.ofNat 32 width) n = width - n := by
  have hnat : (BitVec.ofNat 32 width).toNat = width := by
    rw [BitVec.toNat_ofNat]
    exact Nat.mod_eq_of_lt (by omega)
  have hint : (BitVec.ofNat 32 width).toInt = width := by
    rw [BitVec.toInt_eq_toNat_cond, hnat, if_pos (by omega)]
  rw [padCount, hint]
  split <;> omega

/-! ### The loop -/

/-- What stands behind the `%` of a field. -/
def tailOf (zero : Bool) (width : List ℕ) (k : Conversion) (fmt : List UInt8) : List UInt8 :=
  (if zero then [charCode '0'] else []) ++ (width.map digitChar ++ k.code :: fmt)

/-- The flag, if it is there, and no second `%`. -/
theorem head?_tailOf {zero : Bool} (hwidth : ∀ d ∈ width, d < 10)
    (hflag : zero = false → width.head? ≠ some 0) :
    (tailOf zero width k fmt).head? ≠ some (charCode '%') ∧
      ((tailOf zero width k fmt).head? = some (charCode '0') ↔ zero = true) := by
  have hcode : k.code ≠ charCode '%' ∧ k.code ≠ charCode '0' := by cases k <;> decide
  have hdigit : ∀ d < 10, digitChar d ≠ charCode '%' ∧ (digitChar d = charCode '0' → d = 0) := by decide
  cases zero with
  | true => exact ⟨fun h => absurd (Option.some.inj h) (by decide), iff_of_true rfl rfl⟩
  | false =>
    cases width with
    | nil =>
      exact ⟨fun h => hcode.1 (Option.some.inj h),
        iff_of_false (fun h => hcode.2 (Option.some.inj h)) Bool.false_ne_true⟩
    | cons d width =>
      obtain ⟨hpercent, hzero⟩ := hdigit d (hwidth d List.mem_cons_self)
      exact ⟨fun h => hpercent (Option.some.inj h),
        iff_of_false (fun h => hflag rfl (congrArg some (hzero (Option.some.inj h)))) Bool.false_ne_true⟩

/-- A field writes its text, filled up to the width. -/
theorem field_eq {zero : Bool} (hok : (Piece.field zero width k w).Ok strings) :
    field strings (tailOf zero width k fmt) (w :: arg) m p =
      some (fmt, arg, store m p ((Piece.field zero width k w).output strings),
        p + ((Piece.field zero width k w).output strings).length) := by
  obtain ⟨hwidth, hflag, hint, hs⟩ := hok
  obtain ⟨inner, hconv, hholds⟩ : ∃ inner, convert strings k.code (w :: arg) = some (inner, arg) ∧
      HoldsText inner (k.text strings w) := convert_eq hs
  have hcode : ¬ (charCode '0' ≤ k.code ∧ k.code ≤ charCode '9') := by cases k <;> decide
  have hread : readWidth 0 (if (tailOf zero width k fmt).head? = some (charCode '0') then
      (tailOf zero width k fmt).tail else tailOf zero width k fmt) =
        (BitVec.ofNat 32 (Numeral.value 10 width), k.code :: fmt) := by
    rw [if_congr (head?_tailOf hwidth hflag).2 rfl rfl]
    cases zero with
    | true => exact readWidth_eq [] hwidth hcode
    | false => exact readWidth_eq [] hwidth hcode
  rw [field, hread, if_congr (head?_tailOf hwidth hflag).2 rfl rfl]
  simp only [List.head?_cons, List.tail_cons, Option.bind_eq_bind, Option.bind_some, hconv,
    hholds.innerLength, pad_eq, padCount_eq hint, hholds.copyText]
  have hstart : p + (Numeral.value 10 width - (k.text strings w).length) =
      p + (List.replicate (Numeral.value 10 width - (k.text strings w).length)
        (if zero = true then charCode '0' else charCode ' ')).length := by rw [List.length_replicate]
  rw [Piece.output, hstart, store_append, List.length_append, Nat.add_assoc]

/-- One round of the loop. -/
theorem loop_piece (hok : piece.Ok strings) :
    vsprintfLoop strings (fuel + 1) (piece.spell ++ fmt) (piece.args ++ arg) m p =
      vsprintfLoop strings fuel fmt arg (store m p (piece.output strings))
        (p + (piece.output strings).length) := by
  cases piece with
  | literal c =>
    show vsprintfLoop strings (fuel + 1) (c :: fmt) arg m p = vsprintfLoop strings fuel fmt arg (store m p [c]) (p + 1)
    rw [vsprintfLoop, if_pos hok.2, ← store_cons, store_nil]
  | percent =>
    show vsprintfLoop strings (fuel + 1) (charCode '%' :: charCode '%' :: fmt) arg m p =
      vsprintfLoop strings fuel fmt arg (store m p [charCode '%']) (p + 1)
    rw [vsprintfLoop, if_neg (fun h => h rfl), ← store_cons, store_nil]
    exact if_pos rfl
  | field zero width k w =>
    have hspell : (Piece.field zero width k w).spell ++ fmt = charCode '%' :: tailOf zero width k fmt := by
      rw [Piece.spell, tailOf, List.cons_append, List.append_assoc, List.append_assoc, List.singleton_append]
    rw [hspell, vsprintfLoop, if_neg (fun h => h rfl), if_neg (head?_tailOf hok.1 hok.2.1).1]
    show (do
      let (fmt, arg, m, p) ← field strings (tailOf zero width k fmt) (w :: arg) m p
      vsprintfLoop strings fuel fmt arg m p) = _
    rw [field_eq hok]
    rfl

/-- The text of a format. -/
def output (strings : Strings) (pieces : List Piece) : List UInt8 := pieces.flatMap (Piece.output strings)

/-- The loop writes the pieces one after the other. -/
theorem loop_pieces {pieces : List Piece} (hok : ∀ piece ∈ pieces, piece.Ok strings)
    (hfuel : pieces.length < fuel) :
    vsprintfLoop strings fuel (pieces.flatMap Piece.spell) (pieces.flatMap Piece.args ++ arg) m p =
      some (store m p (output strings pieces), p + (output strings pieces).length) := by
  induction pieces generalizing fuel m p with
  | nil =>
    cases fuel with
    | zero => exact absurd hfuel (Nat.not_lt_zero _)
    | succ fuel =>
      show some (m, p) = some (store m p [], p)
      rw [store_nil]
  | cons piece pieces ih =>
    cases fuel with
    | zero => exact absurd hfuel (Nat.not_lt_zero _)
    | succ fuel =>
      have hrest : ∀ piece ∈ pieces, piece.Ok strings := fun x hx => hok x (List.mem_cons_of_mem piece hx)
      rw [List.flatMap_cons, List.flatMap_cons, List.append_assoc, loop_piece (hok piece List.mem_cons_self),
        ih hrest (Nat.lt_of_succ_lt_succ hfuel), store_append, output, output, List.flatMap_cons,
        List.length_append, Nat.add_assoc]

theorem length_le_spell (pieces : List Piece) : pieces.length ≤ (pieces.flatMap Piece.spell).length := by
  induction pieces with
  | nil => exact Nat.le_refl 0
  | cons piece pieces ih =>
    have hpos : 0 < piece.spell.length := by cases piece <;> exact Nat.zero_lt_succ _
    rw [List.flatMap_cons, List.length_append, List.length_cons]
    omega

/-- The text, the NUL behind it, and the number of characters. -/
theorem vsprintf_eq {pieces : List Piece} {buf : ℕ} (hok : ∀ piece ∈ pieces, piece.Ok strings) :
    vsprintf strings m buf (pieces.flatMap Piece.spell) (pieces.flatMap Piece.args ++ arg) =
      some (store m buf (output strings pieces ++ [0]), (output strings pieces).length) := by
  rw [vsprintf, loop_pieces hok (Nat.lt_succ_of_le (length_le_spell pieces))]
  show some (Function.update (store m buf _) (buf + _) 0, buf + _ - buf) = _
  rw [update_store, Nat.add_sub_cancel_left]

theorem length_field {zero : Bool} : ((Piece.field zero width k w).output strings).length =
    max (Numeral.value 10 width) (k.text strings w).length := by
  rw [Piece.output, List.length_append, List.length_replicate]
  omega

/-- **Numbers are written exactly.**  `itoa` writes the numeral of a number in the base and NUL, and nothing
else; it is read back as the number.  A field of a format has the numeral of its argument in it. -/
theorem numbers_exact (m : Memory) (str base : ℕ) (hbase : 2 ≤ base) (hle : base ≤ 36) (value : BitVec 32)
    (strings : Strings) (buf : ℕ) (pieces : List Piece) (hok : ∀ piece ∈ pieces, piece.Ok strings)
    (rest : VaList) (zero : Bool) (width : List ℕ) :
    (itoa m value.toNat str base = store m str (numeral base value.toNat ++ [0]) ∧
      (∀ c ∈ numeral base value.toNat, c ≠ 0) ∧
      (∃ ds, numeral base value.toNat = ds.map digitChar ∧ Numeral.IsNumeral base value.toNat ds) ∧
      parse base (numeral base value.toNat) = value.toNat ∧
      ∀ w : BitVec 32, numeral base w.toNat = numeral base value.toNat → w = value) ∧
    vsprintf strings m buf (pieces.flatMap Piece.spell) (pieces.flatMap Piece.args ++ rest) =
      some (store m buf (output strings pieces ++ [0]), (output strings pieces).length) ∧
    (Piece.field zero width .d value).output strings =
      List.replicate (Numeral.value 10 width - (signedNumeral value).length)
        (if zero then charCode '0' else charCode ' ') ++ signedNumeral value ∧
    ((Piece.field zero width .d value).output strings).length =
      max (Numeral.value 10 width) (signedNumeral value).length ∧
    (Piece.field zero width .x value).output strings =
      List.replicate (Numeral.value 10 width - (numeral 16 value.toNat).length)
        (if zero then charCode '0' else charCode ' ') ++ numeral 16 value.toNat ∧
    ((Piece.field zero width .x value).output strings).length =
      max (Numeral.value 10 width) (numeral 16 value.toNat).length := by
  refine ⟨⟨itoa_eq hbase hle, numeral_no_nul hbase hle, ⟨_, rfl, Numeral.isNumeral_digits hbase⟩,
    parse_numeral hbase hle, fun w hw => ?_⟩, vsprintf_eq hok, rfl, length_field, rfl, length_field⟩
  exact BitVec.eq_of_toNat_eq (numeral_injective hbase hle hw)

/-- `"%06d|%x"` with `-2^31` and 255. -/
theorem numbers_exact_min :
    vsprintf (fun _ => []) (fun _ => 0) 100
      ([Piece.field true [6] .d 0x80000000#32, .literal (charCode '|'), .field false [] .x 255#32].flatMap
        Piece.spell) [0x80000000#32, 255#32] =
      some (store (fun _ => 0) 100 (['-', '2', '1', '4', '7', '4', '8', '3', '6', '4', '8', '|', 'F', 'F'].map
        charCode ++ [0]), 14) ∧
    parse 10 (numeral 10 0x80000000) = 0x80000000 := by
  have hok : ∀ piece ∈ [Piece.field true [6] .d 0x80000000#32, .literal (charCode '|'),
      .field false [] .x 255#32], piece.Ok fun _ => [] := by
    intro piece hpiece
    simp only [List.mem_cons, List.not_mem_nil, or_false] at hpiece
    rcases hpiece with rfl | rfl | rfl
    · exact ⟨by decide, by decide, by decide, fun h => by cases h⟩
    · exact ⟨by decide, by decide⟩
    · exact ⟨by decide, by decide, by decide, fun h => by cases h⟩
  obtain ⟨⟨-, -, -, hparse, -⟩, hout, -⟩ := numbers_exact (fun _ => 0) 100 10 (by decide) (by decide)
    0x80000000#32 (fun _ => []) 100 _ hok [] false []
  have htext : output (fun _ => []) [Piece.field true [6] .d 0x80000000#32, .literal (charCode '|'),
      .field false [] .x 255#32] =
        ['-', '2', '1', '4', '7', '4', '8', '3', '6', '4', '8', '|', 'F', 'F'].map charCode := by
    decide +kernel
  rw [htext] at hout
  exact ⟨hout, hparse⟩

end OmochaOS.Klib
