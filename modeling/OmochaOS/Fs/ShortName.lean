import OmochaOS.Lib.ByteMemory
import OmochaOS.Lib.CString

/-!
# Names of eight and three characters (`modules/fs/fs.c`)

`write_8_3_filename` makes the 11 bytes of a directory entry from a name, and `read_8_3_filename` a name
from them.  `TrimWhiteSpace` is a loop over bytes behind a pointer; what is behind the array
`char name[8]` is left open.

`shortName_faults` says what becomes of a name that fits: no zero ends the eight bytes, so `strlen` goes on
behind them.
-/

namespace OmochaOS.Fs

open ByteMemory CString

/-- `' '`. -/
def space : UInt8 := 32

/-- `'.'`. -/
def dot : UInt8 := 46

/-- `'~'`. -/
def tilde : UInt8 := 126

/-- `char_upper`. -/
def charUpper (c : UInt8) : UInt8 := c - if 97 ≤ c ∧ c ≤ 122 then 32 else 0

/-- The loop that looks for the last dot, from the end on. -/
def lastDot (fname : List UInt8) : ℕ → Option ℕ
  | 0 => none
  | i + 1 => if fname[i]? = some dot then some i else lastDot fname i

/-- `write_8_3_filename`. -/
def write83Filename (fname : List UInt8) : List UInt8 :=
  let dotIndex := lastDot fname fname.length
  let ext := match dotIndex with
    | some d => (List.range 3).map fun i => (fname[d + 1 + i]?.map charUpper).getD space
    | none => List.replicate 3 space
  let firstpartLen := dotIndex.getD fname.length
  let first :=
    if 8 < firstpartLen then (fname.take 6).map charUpper ++ [tilde, 49]
    else (fname.take firstpartLen).map charUpper ++ List.replicate (8 - firstpartLen) space
  first ++ ext

/-- `TrimWhiteSpace`. -/
def trimWhiteSpace (fuel : ℕ) (src : Bytes) (dst : Memory) : Option Memory := do
  let str ← scanWhile (· == space) src fuel 0
  let c ← src str
  if c = 0 then pure dst
  else
    let strEnd ← scanWhile (· != 0) src fuel str
    let stop ← trimEnd (· == space) src str (strEnd - 1)
    pure fun x => if x < stop - str + 1 then (src (str + x)).getD 0 else dst x

/-- The array `char name[8]`, and what is behind it. -/
def nameBytes (fname : List UInt8) (behind : Bytes) : Bytes := fun i =>
  if i < 8 then fname[i]? else behind (i - 8)

/-- The end of `read_8_3_filename`, for a name with an extension. -/
def appendExt (fuel : ℕ) (ext : List UInt8) (buffer : Memory) : Option Memory := do
  let len ← strlen (fun i => some (buffer i)) fuel
  let buffer := fill buffer len dot 1
  let len ← strlen (fun i => some (buffer i)) fuel
  pure fun x => if len ≤ x ∧ x < len + 3 then (ext[x - len]?).getD 0 else buffer x

/-- `read_8_3_filename`. -/
def read83Filename (fuel : ℕ) (fname : List UInt8) (behind : Bytes) (buffer : Memory) :
    Option Memory := do
  let ext := (fname.drop 8).take 3
  let buffer ← trimWhiteSpace fuel (nameBytes fname behind) (fill buffer 0 0 12)
  if ext[0]? = some space then pure buffer else appendExt fuel ext buffer

/-! ### Names that fit -/

/-- A name with one to eight characters, and up to three of an extension. -/
structure IsShortName (base ext : List UInt8) : Prop where
  pos : 0 < base.length
  base_le : base.length ≤ 8
  ext_le : ext.length ≤ 3
  plain : ∀ c ∈ base ++ ext, c ≠ 0 ∧ c ≠ space ∧ c ≠ dot

/-- The name with its dot. -/
def joined (base ext : List UInt8) : List UInt8 := if ext = [] then base else base ++ dot :: ext

/-- The buffer of 12 bytes has the name and zeros, and nothing else has been written. -/
def HoldsName (buffer out : Memory) (name : List UInt8) : Prop :=
  (∀ i < 12, out i = name[i]?.getD 0) ∧ ∀ i, 12 ≤ i → out i = buffer i

/-- A name is read back, with the bytes `behind` at the end of the array. -/
def ReadsBack (name : List UInt8) (behind : Bytes) (buffer : Memory) : Prop :=
  ∃ fuel out, read83Filename fuel (write83Filename name) behind buffer = some out ∧
    HoldsName buffer out (name.map charUpper)

/-- Behind the array there are spaces only, up to a zero. -/
def SpacesBehind (behind : Memory) : Prop := ∃ k, behind k = 0 ∧ ∀ i < k, behind i = space

/-- Filled up with spaces. -/
def padded (n : ℕ) (l : List UInt8) : List UInt8 := l ++ List.replicate (n - l.length) space

variable {base ext base' ext' l l' : List UInt8} {behind buffer out : Memory} {c : UInt8} {i n t : ℕ}

theorem charUpper_plain (h : c ≠ 0 ∧ c ≠ space ∧ c ≠ dot) :
    charUpper c ≠ 0 ∧ charUpper c ≠ space ∧ charUpper c ≠ dot := by
  rw [charUpper]
  split
  · rename_i hrange
    have hle : (32 : UInt8) ≤ c := UInt8.le_trans (by decide) hrange.1
    have hlow : 97 ≤ c.toNat := hrange.1
    have hval : (c - 32).toNat = c.toNat - 32 := UInt8.toNat_sub_of_le c 32 hle
    refine ⟨fun heq => ?_, fun heq => ?_, fun heq => ?_⟩
    · rw [heq] at hval
      have hzero : (0 : UInt8).toNat = 0 := rfl
      omega
    · rw [heq] at hval
      have hspace : space.toNat = 32 := rfl
      omega
    · rw [heq] at hval
      have hdot : dot.toNat = 46 := rfl
      omega
  · rw [UInt8.sub_zero]
    exact h

theorem lastDot_of_notMem (h : ∀ i < n, l[i]? ≠ some dot) : lastDot l n = none := by
  induction n with
  | zero => rfl
  | succ n ih =>
    rw [lastDot, if_neg (h n (Nat.lt_succ_self n))]
    exact ih fun i hi => h i (Nat.lt_succ_of_lt hi)

theorem lastDot_of_last (hi : l[i]? = some dot) (h : ∀ j, i < j → j < n → l[j]? ≠ some dot) (hn : i < n) :
    lastDot l n = some i := by
  induction n with
  | zero => exact absurd hn (Nat.not_lt_zero i)
  | succ n ih =>
    rw [lastDot]
    rcases Nat.eq_or_lt_of_le (Nat.le_of_lt_succ hn) with heq | hlt
    · rw [← heq, if_pos hi]
    · rw [if_neg (h n hlt (Nat.lt_succ_self n))]
      exact ih (fun j hj hjn => h j hj (Nat.lt_succ_of_lt hjn)) hlt

theorem IsShortName.getElem?_base (h : IsShortName base ext) : base[i]? ≠ some dot := by
  intro heq
  exact (h.plain dot (List.mem_append_left _ (List.mem_of_getElem? heq))).2.2 rfl

theorem IsShortName.getElem?_ext (h : IsShortName base ext) : ext[i]? ≠ some dot := by
  intro heq
  exact (h.plain dot (List.mem_append_right _ (List.mem_of_getElem? heq))).2.2 rfl

/-- The three characters of the extension. -/
theorem range_map_eq_padded (h : ext.length ≤ 3) :
    ((List.range 3).map fun i => (ext[i]?.map charUpper).getD space) = padded 3 (ext.map charUpper) := by
  cases ext with
  | nil => rfl
  | cons a ext =>
    cases ext with
    | nil => rfl
    | cons b ext =>
      cases ext with
      | nil => rfl
      | cons c ext =>
        have hlength : ext.length + 3 ≤ 3 := h
        obtain rfl : ext = [] := List.eq_nil_of_length_eq_zero (by omega)
        rfl

theorem getElem?_joined_add (h : ext ≠ []) (i : ℕ) : (joined base ext)[base.length + 1 + i]? = ext[i]? := by
  rw [joined, if_neg h, List.getElem?_append_right (by omega),
    show base.length + 1 + i - base.length = i + 1 by omega, List.getElem?_cons_succ]

theorem getElem?_joined_length (h : ext ≠ []) : (joined base ext)[base.length]? = some dot := by
  rw [joined, if_neg h, List.getElem?_append_right (Nat.le_refl _), Nat.sub_self]
  rfl

theorem getElem?_joined_of_lt (h : i < base.length) : (joined base ext)[i]? = base[i]? := by
  rw [joined]
  split
  · rfl
  · exact List.getElem?_append_left h

/-- **What is written for a name that fits.** -/
theorem write83Filename_joined (h : IsShortName base ext) :
    write83Filename (joined base ext) = padded 8 (base.map charUpper) ++ padded 3 (ext.map charUpper) := by
  have hbase := h.base_le
  by_cases hext : ext = []
  · have hnone : lastDot base base.length = none := lastDot_of_notMem fun i _ => h.getElem?_base
    subst hext
    rw [joined, if_pos rfl, write83Filename, hnone, Option.getD_none, if_neg (by omega), List.take_length,
      padded, List.length_map]
    rfl
  · have hlast : lastDot (joined base ext) (joined base ext).length = some base.length := by
      refine lastDot_of_last (getElem?_joined_length hext) (fun j hj _ => ?_) ?_
      · obtain ⟨i, rfl⟩ := Nat.exists_eq_add_of_lt hj
        rw [show base.length + i + 1 = base.length + 1 + i by omega, getElem?_joined_add hext]
        exact h.getElem?_ext
      · rw [joined, if_neg hext, List.length_append, List.length_cons]
        omega
    have htake : (joined base ext).take base.length = base := by
      rw [joined, if_neg hext, List.take_left]
    rw [write83Filename, hlast, Option.getD_some, if_neg (by omega), htake, padded, List.length_map,
      ← range_map_eq_padded h.ext_le]
    simp only [getElem?_joined_add hext]

theorem length_padded (h : l.length ≤ n) : (padded n l).length = n := by
  rw [padded, List.length_append, List.length_replicate]
  omega

theorem getElem?_padded_of_lt (h : i < l.length) : (padded n l)[i]? = l[i]? :=
  List.getElem?_append_left h

theorem getElem?_padded_of_le (h : l.length ≤ i) (hi : i < n) : (padded n l)[i]? = some space := by
  rw [padded, List.getElem?_append_right h, List.getElem?_replicate, if_pos (by omega)]

/-! ### What is read of the eight bytes -/

/-- The array with the name in it, and the bytes behind. -/
def fieldBytes (l : List UInt8) (behind : Memory) : Memory := fun i =>
  if i < 8 then (padded 8 l)[i]?.getD 0 else behind (i - 8)

/-- The characters of a name in upper case. -/
structure IsField (l : List UInt8) (n : ℕ) : Prop where
  le : l.length ≤ n
  plain : ∀ c ∈ l, c ≠ 0 ∧ c ≠ space ∧ c ≠ dot

theorem IsShortName.field_base (h : IsShortName base ext) : IsField (base.map charUpper) 8 := by
  refine ⟨by rw [List.length_map]; exact h.base_le, ?_⟩
  intro c hc
  obtain ⟨d, hd, rfl⟩ := List.mem_map.mp hc
  exact charUpper_plain (h.plain d (List.mem_append_left _ hd))

theorem IsShortName.field_ext (h : IsShortName base ext) : IsField (ext.map charUpper) 3 := by
  refine ⟨by rw [List.length_map]; exact h.ext_le, ?_⟩
  intro c hc
  obtain ⟨d, hd, rfl⟩ := List.mem_map.mp hc
  exact charUpper_plain (h.plain d (List.mem_append_right _ hd))

theorem IsField.getElem? (h : IsField l n) (hi : l[i]? = some c) : c ≠ 0 ∧ c ≠ space ∧ c ≠ dot :=
  h.plain c (List.mem_of_getElem? hi)

theorem IsField.padded_ne_zero (h : IsField l n) (hi : (padded n l)[i]? = some c) : c ≠ 0 := by
  rcases List.mem_append.mp (List.mem_of_getElem? hi) with hmem | hmem
  · exact (h.plain c hmem).1
  · rw [List.eq_of_mem_replicate hmem]
    decide

theorem fieldBytes_of_lt (hl : l.length ≤ 8) (hi : i < l.length) : l[i]? = some (fieldBytes l behind i) := by
  rw [fieldBytes, if_pos (Nat.lt_of_lt_of_le hi hl), getElem?_padded_of_lt hi, List.getElem?_eq_getElem hi]
  rfl

theorem fieldBytes_of_le (hi : l.length ≤ i) (hi8 : i < 8) : fieldBytes l behind i = space := by
  rw [fieldBytes, if_pos hi8, getElem?_padded_of_le hi hi8]
  rfl

theorem fieldBytes_add (l : List UInt8) (behind : Memory) (i : ℕ) :
    fieldBytes l behind (8 + i) = behind i := by
  rw [fieldBytes, if_neg (by omega), Nat.add_sub_cancel_left]

theorem IsField.fieldBytes_ne_space (h : IsField l 8) (behind : Memory) (hi : i < l.length) :
    fieldBytes l behind i ≠ space :=
  (h.getElem? (fieldBytes_of_lt h.le hi)).2.1

theorem IsField.fieldBytes_ne_zero (h : IsField l 8) (hi : i < 8) : fieldBytes l behind i ≠ 0 := by
  by_cases hlt : i < l.length
  · exact (h.getElem? (fieldBytes_of_lt h.le hlt)).1
  · rw [fieldBytes_of_le (Nat.not_lt.mp hlt) hi]
    decide

theorem nameBytes_padded (h : l.length ≤ 8) :
    nameBytes (padded 8 l ++ l') (fun i => some (behind i)) = fun i => some (fieldBytes l behind i) := by
  funext i
  rw [nameBytes, fieldBytes]
  by_cases hi : i < 8
  · have hlt : i < (padded 8 l).length := by rw [length_padded h]; exact hi
    rw [if_pos hi, if_pos hi, List.getElem?_append_left hlt, List.getElem?_eq_getElem hlt]
    rfl
  · rw [if_neg hi, if_neg hi]

/-- `strlen` finds no zero in the array. -/
theorem trimWhiteSpace_none (h : IsField l 8) (fuel : ℕ) :
    trimWhiteSpace fuel (nameBytes (padded 8 l ++ l') fun _ => none) buffer = none := by
  have hbyte : ∀ i, nameBytes (padded 8 l ++ l') (fun _ => none) i ≠ some 0 := by
    intro i hi
    rw [nameBytes] at hi
    split at hi
    · rename_i hlt
      rw [List.getElem?_append_left (by rw [length_padded h.le]; exact hlt)] at hi
      exact h.padded_ne_zero hi rfl
    · cases hi
  cases hrun : trimWhiteSpace fuel (nameBytes (padded 8 l ++ l') fun _ => none) buffer with
  | none => rfl
  | some out =>
    obtain ⟨str, -, hrun⟩ := Option.bind_eq_some_iff.mp hrun
    obtain ⟨c, hc, hrun⟩ := Option.bind_eq_some_iff.mp hrun
    have hne : c ≠ 0 := by
      rintro rfl
      exact hbyte str hc
    rw [if_neg hne] at hrun
    obtain ⟨n, hn, -⟩ := Option.bind_eq_some_iff.mp hrun
    obtain ⟨d, hd, hzero⟩ := (scanWhile_firstNot hn).stops
    have hd0 : d = 0 := by simpa using hzero
    exact absurd (hd0 ▸ hd) (hbyte n)

/-- The bytes `w` up to the zero at `n` are those before `t`, and spaces. -/
structure Trimmed (w : Memory) (n t : ℕ) : Prop where
  ends : w n = 0
  nonzero : ∀ i < n, w i ≠ 0
  pos : 0 < t
  le : t ≤ n
  spaces : ∀ i, t ≤ i → i < n → w i = space
  last : t = 1 ∨ w (t - 1) ≠ space

theorem firstNot_zero_iff {w : Memory} :
    FirstNot (· != 0) (fun i => some (w i)) 0 n ↔ w n = 0 ∧ ∀ i < n, w i ≠ 0 := by
  constructor
  · intro h
    obtain ⟨c, hc, hzero⟩ := h.stops
    have hcn : w n = c := Option.some.inj hc
    refine ⟨hcn.trans (by simpa using hzero), fun i hi => ?_⟩
    obtain ⟨d, hd, hne⟩ := h.before i (Nat.zero_le i) hi
    have hdi : w i = d := Option.some.inj hd
    rw [hdi]
    simpa using hne
  · rintro ⟨hn, hbefore⟩
    exact ⟨Nat.zero_le n, ⟨_, rfl, by simpa using hn⟩, fun i _ hi => ⟨_, rfl, by simpa using hbefore i hi⟩⟩

theorem trimmed_of_lastNot {w : Memory} {last : ℕ} (h : LastNot (· == space) w 0 (n - 1) last) (hw : w n = 0)
    (hbefore : ∀ i < n, w i ≠ 0) (hpos : 0 < n) : Trimmed w n (last + 1) where
  ends := hw
  nonzero := hbefore
  pos := Nat.succ_pos _
  le := by
    have hle := h.le_stop
    omega
  spaces := fun i hi hin => by simpa using h.behind i hi (by omega)
  last := by
    rcases h.stops with heq | hne
    · exact Or.inl (by rw [heq])
    · exact Or.inr (by simpa using hne)

theorem firstNot_space {w : Memory} (hchar : w 0 ≠ space) :
    FirstNot (· == space) (fun i => some (w i)) 0 0 :=
  ⟨Nat.le_refl 0, ⟨_, rfl, by simpa using hchar⟩, fun j _ hj => absurd hj (Nat.not_lt_zero j)⟩

/-- `TrimWhiteSpace` on bytes that begin with a character. -/
theorem trimWhiteSpace_of_ends {w : Memory} (hchar : w 0 ≠ space) (hw : w n = 0)
    (hbefore : ∀ i < n, w i ≠ 0) (hpos : 0 < n) (hfuel : n < fuel) :
    ∃ t, Trimmed w n t ∧ trimWhiteSpace fuel (fun i => some (w i)) buffer =
      some (fun x => if x < t then w x else buffer x) := by
  have hstr : scanWhile (· == space) (fun i => some (w i)) fuel 0 = some 0 :=
    (firstNot_space hchar).scanWhile (by omega)
  have hend : scanWhile (· != 0) (fun i => some (w i)) fuel 0 = some n :=
    (firstNot_zero_iff.mpr ⟨hw, hbefore⟩).scanWhile (by omega)
  obtain ⟨last, hlast, hspec⟩ := trimEnd_spec (p := (· == space)) (w := w) (Nat.zero_le (n - 1))
  refine ⟨last + 1, trimmed_of_lastNot hspec hw hbefore hpos, ?_⟩
  rw [trimWhiteSpace, hstr]
  show (if w 0 = 0 then _ else (scanWhile _ _ fuel 0).bind fun strEnd => _) = _
  rw [if_neg (hbefore 0 hpos), hend]
  show ((trimEnd _ _ 0 (n - 1)).bind fun stop => _) = _
  rw [hlast]
  simp only [Option.bind_some, Nat.sub_zero, Nat.zero_add, Option.getD_some, Option.pure_def]

/-- What `TrimWhiteSpace` has found when it returns. -/
theorem trimmed_of_trimWhiteSpace {w : Memory} (hchar : w 0 ≠ space) (hne : w 0 ≠ 0)
    (h : trimWhiteSpace fuel (fun i => some (w i)) buffer = some out) :
    ∃ n t, Trimmed w n t ∧ out = fun x => if x < t then w x else buffer x := by
  obtain ⟨str, hstr, h⟩ := Option.bind_eq_some_iff.mp h
  obtain ⟨c, hc, h⟩ := Option.bind_eq_some_iff.mp h
  obtain rfl := (scanWhile_firstNot hstr).unique (firstNot_space hchar)
  obtain rfl := Option.some.inj hc
  rw [if_neg hne] at h
  obtain ⟨n, hn, h⟩ := Option.bind_eq_some_iff.mp h
  obtain ⟨hw, hbefore⟩ := firstNot_zero_iff.mp (scanWhile_firstNot hn)
  have hpos : 0 < n := Nat.pos_of_ne_zero fun hzero => hne (hzero ▸ hw)
  obtain ⟨last, hlast, hspec⟩ := trimEnd_spec (p := (· == space)) (w := w) (Nat.zero_le (n - 1))
  obtain ⟨stop, hstop, h⟩ := Option.bind_eq_some_iff.mp h
  obtain rfl := Option.some.inj (hlast.symm.trans hstop)
  refine ⟨n, last + 1, trimmed_of_lastNot hspec hw hbefore hpos, ?_⟩
  rw [← Option.some.inj h]
  simp only [Nat.sub_zero, Nat.zero_add, Option.getD_some]

/-! ### What is read of a name that fits -/

theorem Trimmed.le_of_field (h : Trimmed (fieldBytes l behind) n t) (hl : IsField l 8) :
    8 ≤ n ∧ l.length ≤ t := by
  have hn : 8 ≤ n := by
    by_contra hlt
    exact hl.fieldBytes_ne_zero (Nat.lt_of_not_le hlt) h.ends
  refine ⟨hn, ?_⟩
  by_contra hlt
  have hchar := hl.fieldBytes_ne_space behind (Nat.lt_of_not_le hlt)
  have hle := hl.le
  exact hchar (h.spaces t (Nat.le_refl t) (by omega))

/-- Nothing but spaces is behind, or a part of it is taken into the name. -/
theorem Trimmed.eq_or_lt (h : Trimmed (fieldBytes l behind) n t) (hl : IsField l 8) (hpos : 0 < l.length) :
    t = l.length ∧ SpacesBehind behind ∨ 8 < t := by
  obtain ⟨hn, hle⟩ := h.le_of_field hl
  by_cases ht : 8 < t
  · exact Or.inr ht
  · left
    constructor
    · rcases h.last with hone | hne
      · omega
      · by_contra hlt
        exact hne (fieldBytes_of_le (by omega) (by omega))
    · refine ⟨n - 8, ?_, fun i hi => ?_⟩
      · rw [← fieldBytes_add l behind, Nat.add_sub_cancel' hn]
        exact h.ends
      · rw [← fieldBytes_add l behind]
        exact h.spaces _ (by omega) (by omega)

theorem Trimmed.eq_of_spaces (h : Trimmed (fieldBytes l behind) n t) (hl : IsField l 8) (hpos : 0 < l.length)
    (hspaces : ∀ i, 8 + i < n → behind i = space) : t = l.length := by
  rcases h.eq_or_lt hl hpos with ⟨ht, -⟩ | ht
  · exact ht
  · rcases h.last with hone | hne
    · omega
    · have hle := h.le
      have hbyte := fieldBytes_add l behind (t - 9)
      rw [show 8 + (t - 9) = t - 1 by omega] at hbyte
      exact absurd (hbyte.trans (hspaces _ (by omega))) hne

/-- Where the dot and the extension are put. -/
structure Appended (buffer out : Memory) (l : List UInt8) (n m : ℕ) : Prop where
  ends : buffer n = 0
  before : ∀ i < n, buffer i ≠ 0
  ends' : fill buffer n dot 1 m = 0
  before' : ∀ i < m, fill buffer n dot 1 i ≠ 0
  out_eq : out = fun x => if m ≤ x ∧ x < m + 3 then l[x - m]?.getD 0 else fill buffer n dot 1 x

theorem appended_of_appendExt (h : appendExt fuel l buffer = some out) :
    ∃ n m, Appended buffer out l n m := by
  obtain ⟨n, hn, h⟩ := Option.bind_eq_some_iff.mp h
  obtain ⟨m, hm, h⟩ := Option.bind_eq_some_iff.mp h
  obtain ⟨hends, hbefore⟩ := firstNot_zero_iff.mp (scanWhile_firstNot hn)
  obtain ⟨hends', hbefore'⟩ := firstNot_zero_iff.mp (scanWhile_firstNot hm)
  exact ⟨n, m, hends, hbefore, hends', hbefore', (Option.some.inj h).symm⟩

theorem Appended.appendExt {m : ℕ} (h : Appended buffer out l n m) (hn : n < fuel) (hm : m < fuel) :
    appendExt fuel l buffer = some out := by
  have hlen : scanWhile (· != 0) (fun i => some (buffer i)) fuel 0 = some n :=
    (firstNot_zero_iff.mpr ⟨h.ends, h.before⟩).scanWhile (by omega)
  have hlen' : scanWhile (· != 0) (fun i => some (fill buffer n Fs.dot 1 i)) fuel 0 = some m :=
    (firstNot_zero_iff.mpr ⟨h.ends', h.before'⟩).scanWhile (by omega)
  rw [Fs.appendExt, strlen, hlen]
  show ((strlen (fun i => some (fill buffer n dot 1 i)) fuel).bind fun len => _) = _
  rw [strlen, hlen', h.out_eq]
  rfl

theorem fill_dot_self : fill buffer n dot 1 n = dot := by
  rw [fill, if_pos ⟨Nat.le_refl n, Nat.lt_succ_self n⟩]

theorem fill_dot_of_ne (h : i ≠ n) : fill buffer n dot 1 i = buffer i := by
  rw [fill, if_neg (by omega)]

theorem Appended.lt {m : ℕ} (h : Appended buffer out l n m) : n < m := by
  by_contra hle
  rcases Nat.eq_or_lt_of_le (Nat.not_lt.mp hle) with heq | hlt
  · have hzero := h.ends'
    rw [heq, fill_dot_self] at hzero
    exact absurd hzero (by decide)
  · have hzero := h.ends'
    rw [fill_dot_of_ne (Nat.ne_of_lt hlt)] at hzero
    exact h.before m hlt hzero

theorem Appended.dot {m : ℕ} (h : Appended buffer out l n m) : out n = dot := by
  have hlt := h.lt
  rw [h.out_eq]
  show (if m ≤ n ∧ n < m + 3 then _ else fill buffer n Fs.dot 1 n) = _
  rw [if_neg (by omega), fill_dot_self]

theorem map_joined : (joined base ext).map charUpper = joined (base.map charUpper) (ext.map charUpper) := by
  by_cases hext : ext = []
  · subst hext
    rfl
  · have hmap : ext.map charUpper ≠ [] := fun h => hext (List.map_eq_nil_iff.mp h)
    rw [joined, if_neg hext, joined, if_neg hmap, List.map_append, List.map_cons]
    rfl

theorem drop_take_padded (hl : l.length ≤ 8) (hl' : l'.length ≤ 3) :
    ((padded 8 l ++ padded 3 l').drop 8).take 3 = padded 3 l' := by
  rw [List.drop_left' (length_padded hl), List.take_of_length_le (Nat.le_of_eq (length_padded hl'))]

theorem padded_nil_iff (h : IsField l' 3) : (padded 3 l')[0]? = some space ↔ l' = [] := by
  cases l' with
  | nil => exact ⟨fun _ => rfl, fun _ => rfl⟩
  | cons c l' =>
    refine ⟨fun heq => ?_, fun heq => by cases heq⟩
    exact absurd (Option.some.inj heq) (h.plain c List.mem_cons_self).2.1

/-- What has been trimmed, in the buffer. -/
def trimmedBuffer (w buffer : Memory) (t : ℕ) : Memory := fun x =>
  if x < t then w x else fill buffer 0 0 12 x

theorem trimmedBuffer_of_lt {w : Memory} (h : i < t) : trimmedBuffer w buffer t i = w i := if_pos h

theorem trimmedBuffer_of_le {w : Memory} (h : t ≤ i) (hi : i < 12) : trimmedBuffer w buffer t i = 0 := by
  rw [trimmedBuffer, if_neg (Nat.not_lt.mpr h), fill, if_pos (by omega)]

theorem trimmedBuffer_of_ge {w : Memory} (h : t ≤ i) (hi : 12 ≤ i) :
    trimmedBuffer w buffer t i = buffer i := by
  rw [trimmedBuffer, if_neg (Nat.not_lt.mpr h), fill, if_neg (by omega)]

/-- A name that has been read back had spaces behind it, and three characters in its extension. -/
theorem spacesBehind_of_holdsName (hl : IsField l 8) (hl' : IsField l' 3) (hpos : 0 < l.length)
    (hrun : read83Filename fuel (padded 8 l ++ padded 3 l') (fun i => some (behind i)) buffer = some out)
    (hname : HoldsName buffer out (joined l l')) : SpacesBehind behind ∧ (l' = [] ∨ l'.length = 3) := by
  obtain ⟨buf, hbuf, hrun⟩ := Option.bind_eq_some_iff.mp hrun
  rw [nameBytes_padded hl.le] at hbuf
  rw [drop_take_padded hl.le hl'.le] at hrun
  have hchar := hl.fieldBytes_ne_space behind hpos
  obtain ⟨n, t, ht, hbuf⟩ := trimmed_of_trimWhiteSpace hchar (hl.fieldBytes_ne_zero (by decide)) hbuf
  replace hbuf : buf = trimmedBuffer (fieldBytes l behind) buffer t := hbuf
  have hcase := ht.eq_or_lt hl hpos
  have hlen := hl.le
  by_cases hnil : l' = []
  · rw [if_pos ((padded_nil_iff hl').mpr hnil)] at hrun
    obtain rfl := Option.some.inj hrun
    rcases hcase with ⟨-, hspaces⟩ | hlt
    · exact ⟨hspaces, Or.inl hnil⟩
    · have hzero : buf 8 = 0 := by
        rw [hname.1 8 (by decide), joined, if_pos hnil, List.getElem?_eq_none hlen]
        rfl
      rw [hbuf, trimmedBuffer_of_lt hlt] at hzero
      exact absurd hzero (ht.nonzero 8 (Nat.lt_of_lt_of_le hlt ht.le))
  · rw [if_neg fun h => hnil ((padded_nil_iff hl').mp h)] at hrun
    obtain ⟨k, m, hadd⟩ := appended_of_appendExt hrun
    have hdot := hadd.dot
    have hkm := hadd.lt
    rcases hcase with ⟨heq, hspaces⟩ | hlt
    · -- the dot is behind the name, and the extension follows it with its spaces
      refine ⟨hspaces, Or.inr ?_⟩
      have hk : k = l.length := by
        have hends : buf l.length = 0 := by rw [hbuf, trimmedBuffer_of_le (Nat.le_of_eq heq) (by omega)]
        have hbefore : ∀ i < l.length, buf i ≠ 0 := by
          intro i hi
          rw [hbuf, trimmedBuffer_of_lt (heq ▸ hi)]
          exact hl.fieldBytes_ne_zero (by omega)
        exact (firstNot_zero_iff.mpr ⟨hadd.ends, hadd.before⟩).unique
          (firstNot_zero_iff.mpr ⟨hends, hbefore⟩)
      have hm : m = l.length + 1 := by
        by_contra hne
        have hzero : buf (l.length + 1) = 0 := by rw [hbuf, trimmedBuffer_of_le (by omega) (by omega)]
        apply hadd.before' (l.length + 1) (by omega)
        rw [fill_dot_of_ne (by omega)]
        exact hzero
      by_contra hne
      have hle := hl'.le
      have hlast := hname.1 (l.length + 1 + l'.length) (by omega)
      rw [getElem?_joined_add hnil, List.getElem?_eq_none (Nat.le_refl _), hadd.out_eq] at hlast
      replace hlast : (if m ≤ l.length + 1 + l'.length ∧ l.length + 1 + l'.length < m + 3 then
        (padded 3 l')[l.length + 1 + l'.length - m]?.getD 0 else
          fill buf k dot 1 (l.length + 1 + l'.length)) = 0 := hlast
      rw [if_pos (by omega), hm, Nat.add_sub_cancel_left,
        getElem?_padded_of_le (Nat.le_refl _) (by omega)] at hlast
      exact absurd hlast (by decide)
    · exfalso
      by_cases hin : t < 12
      · have hk : k = t := by
          rcases Nat.lt_trichotomy k t with hkt | hkt | hkt
          · have hends := hadd.ends
            rw [hbuf, trimmedBuffer_of_lt hkt] at hends
            exact absurd hends (ht.nonzero k (Nat.lt_of_lt_of_le hkt ht.le))
          · exact hkt
          · refine absurd ?_ (hadd.before t hkt)
            rw [hbuf, trimmedBuffer_of_le (Nat.le_refl t) hin]
        have hbyte := hname.1 t hin
        obtain ⟨i, hi⟩ := Nat.exists_eq_add_of_le (show l.length + 1 ≤ t by omega)
        rw [hi, getElem?_joined_add hnil, ← hi, ← hk, hdot] at hbyte
        cases hget : l'[i]? with
        | none =>
          rw [hget] at hbyte
          exact absurd hbyte (by decide)
        | some c =>
          rw [hget] at hbyte
          exact (hl'.getElem? hget).2.2 hbyte.symm
      · have htk : t ≤ k := by
          by_contra hkt
          have hends := hadd.ends
          rw [hbuf, trimmedBuffer_of_lt (Nat.lt_of_not_le hkt)] at hends
          exact absurd hends (ht.nonzero k (by have hle := ht.le; omega))
        have hends := hadd.ends
        rw [hbuf, trimmedBuffer_of_ge htk (by omega), ← hname.2 k (by omega), hdot] at hends
        exact absurd hends (by decide)

theorem padded_eq_self (h : l.length = n) : padded n l = l := by
  rw [padded, h, Nat.sub_self, List.replicate_zero, List.append_nil]

/-- The dot and an extension of three characters, behind a name in a buffer of zeros. -/
theorem appended_trimmedBuffer {w : Memory} (buffer : Memory) (l' : List UInt8) (hlen : l.length ≤ 8)
    (hbefore : ∀ i < l.length, w i ≠ 0) :
    Appended (trimmedBuffer w buffer l.length)
      (fun x => if l.length + 1 ≤ x ∧ x < l.length + 1 + 3 then l'[x - (l.length + 1)]?.getD 0
        else fill (trimmedBuffer w buffer l.length) l.length dot 1 x) l' l.length (l.length + 1) where
  ends := trimmedBuffer_of_le (Nat.le_refl _) (by omega)
  before := fun i hi => by
    rw [trimmedBuffer_of_lt hi]
    exact hbefore i hi
  ends' := by
    rw [fill_dot_of_ne (by omega)]
    exact trimmedBuffer_of_le (by omega) (by omega)
  before' := by
    intro i hi
    rcases Nat.eq_or_lt_of_le (Nat.le_of_lt_succ hi) with rfl | hlt
    · rw [fill_dot_self]
      decide
    · rw [fill_dot_of_ne (by omega), trimmedBuffer_of_lt hlt]
      exact hbefore i hlt
  out_eq := rfl

/-- With spaces behind the array, a name without an extension or with three characters of one is read. -/
theorem holdsName_of_spacesBehind (hl : IsField l 8) (hl' : IsField l' 3) (hpos : 0 < l.length)
    (hspaces : SpacesBehind behind) (hlength : l' = [] ∨ l'.length = 3) :
    ∃ fuel out, read83Filename fuel (padded 8 l ++ padded 3 l') (fun i => some (behind i)) buffer = some out ∧
      HoldsName buffer out (joined l l') := by
  obtain ⟨k, hk, hbefore⟩ := hspaces
  have hlen := hl.le
  have hchar := hl.fieldBytes_ne_space behind hpos
  have hends : fieldBytes l behind (8 + k) = 0 := (fieldBytes_add l behind k).trans hk
  have hnonzero : ∀ i < 8 + k, fieldBytes l behind i ≠ 0 := by
    intro i hi
    by_cases hlt : i < 8
    · exact hl.fieldBytes_ne_zero hlt
    · obtain ⟨j, rfl⟩ := Nat.exists_eq_add_of_le (Nat.not_lt.mp hlt)
      rw [fieldBytes_add, hbefore j (by omega)]
      decide
  obtain ⟨t, ht, htrim⟩ : ∃ t, Trimmed (fieldBytes l behind) (8 + k) t ∧
      trimWhiteSpace (8 + k + 13) (fun i => some (fieldBytes l behind i)) (fill buffer 0 0 12) =
        some (trimmedBuffer (fieldBytes l behind) buffer t) :=
    trimWhiteSpace_of_ends hchar hends hnonzero (by omega) (by omega)
  have heq := ht.eq_of_spaces hl hpos fun i hi => hbefore i (by omega)
  have hbyte : ∀ i < l.length, l[i]? = some (fieldBytes l behind i) := fun i hi => fieldBytes_of_lt hlen hi
  subst heq
  refine ⟨8 + k + 13, ?_⟩
  rw [read83Filename, drop_take_padded hlen hl'.le, nameBytes_padded hlen, htrim]
  show ∃ out, (if (padded 3 l')[0]? = some space then
    some (trimmedBuffer (fieldBytes l behind) buffer l.length) else
      appendExt (8 + k + 13) (padded 3 l') (trimmedBuffer (fieldBytes l behind) buffer l.length)) = some out ∧ _
  by_cases hnil : l' = []
  · rw [if_pos ((padded_nil_iff hl').mpr hnil), joined, if_pos hnil]
    refine ⟨_, rfl, fun i hi => ?_, fun i hi => trimmedBuffer_of_ge (by omega) hi⟩
    by_cases hlt : i < l.length
    · rw [trimmedBuffer_of_lt hlt, hbyte i hlt]
      rfl
    · rw [trimmedBuffer_of_le (Nat.not_lt.mp hlt) hi, List.getElem?_eq_none (Nat.not_lt.mp hlt)]
      rfl
  · have hthree : l'.length = 3 := hlength.resolve_left hnil
    rw [if_neg fun h => hnil ((padded_nil_iff hl').mp h), padded_eq_self hthree]
    have hadd := appended_trimmedBuffer buffer l' hlen fun i hi => hnonzero i (by omega)
    refine ⟨_, hadd.appendExt (by omega) (by omega), fun i hi => ?_, fun i hi => ?_⟩
    · show (if l.length + 1 ≤ i ∧ i < l.length + 1 + 3 then _ else _) = _
      rcases Nat.lt_trichotomy i l.length with hlt | rfl | hlt
      · rw [if_neg (by omega), fill_dot_of_ne (Nat.ne_of_lt hlt), trimmedBuffer_of_lt hlt,
          getElem?_joined_of_lt hlt, hbyte i hlt]
        rfl
      · rw [if_neg (by omega), fill_dot_self, getElem?_joined_length hnil]
        rfl
      · obtain ⟨j, rfl⟩ := Nat.exists_eq_add_of_le (Nat.succ_le_of_lt hlt)
        rw [Nat.succ_eq_add_one, getElem?_joined_add hnil]
        by_cases hj : j < 3
        · rw [if_pos (by omega), Nat.add_sub_cancel_left]
        · rw [if_neg (by omega), fill_dot_of_ne (by omega), trimmedBuffer_of_le (by omega) hi,
            List.getElem?_eq_none (by omega)]
          rfl
    · show (if l.length + 1 ≤ i ∧ i < l.length + 1 + 3 then _ else _) = _
      rw [if_neg (by omega), fill_dot_of_ne (by omega), trimmedBuffer_of_ge (by omega) hi]

/-! ### Two names -/

/-- The characters are those before the spaces. -/
theorem padded_inj (hl : IsField l n) (hl' : IsField l' n) (h : padded n l = padded n l') : l = l' := by
  have hshort : ∀ {l l' : List UInt8}, IsField l n → IsField l' n → padded n l = padded n l' →
      l.length ≤ l'.length := by
    intro l l' hl hl' h
    by_contra hlt
    have hget : (padded n l)[l'.length]? = some space := by
      rw [h]
      exact getElem?_padded_of_le (Nat.le_refl _) (by have hle := hl.le; omega)
    rw [getElem?_padded_of_lt (Nat.lt_of_not_le hlt)] at hget
    exact (hl.getElem? hget).2.1 rfl
  have hlength : l.length = l'.length := Nat.le_antisymm (hshort hl hl' h) (hshort hl' hl h.symm)
  exact List.append_inj_left h hlength

theorem write83Filename_inj (h : IsShortName base ext) (h' : IsShortName base' ext')
    (heq : write83Filename (joined base ext) = write83Filename (joined base' ext')) :
    (joined base ext).map charUpper = (joined base' ext').map charUpper := by
  rw [write83Filename_joined h, write83Filename_joined h'] at heq
  have hlength : (padded 8 (base.map charUpper)).length = (padded 8 (base'.map charUpper)).length := by
    rw [length_padded h.field_base.le, length_padded h'.field_base.le]
  obtain ⟨hbase, hext⟩ := List.append_inj heq hlength
  rw [map_joined, map_joined, padded_inj h.field_base h'.field_base hbase,
    padded_inj h.field_ext h'.field_ext hext]

theorem not_readsBack_array (h : IsShortName base ext) :
    ¬ ReadsBack (joined base ext) (fun _ => none) buffer := by
  rintro ⟨fuel, out, hrun, -⟩
  rw [write83Filename_joined h] at hrun
  obtain ⟨buf, hbuf, -⟩ := Option.bind_eq_some_iff.mp hrun
  rw [trimWhiteSpace_none h.field_base] at hbuf
  cases hbuf

theorem readsBack_iff (h : IsShortName base ext) (behind buffer : Memory) :
    ReadsBack (joined base ext) (fun i => some (behind i)) buffer ↔
      SpacesBehind behind ∧ (ext = [] ∨ ext.length = 3) := by
  have hpos : 0 < (base.map charUpper).length := by
    rw [List.length_map]
    exact h.pos
  have hext : ext = [] ∨ ext.length = 3 ↔ ext.map charUpper = [] ∨ (ext.map charUpper).length = 3 := by
    rw [List.map_eq_nil_iff, List.length_map]
  rw [ReadsBack, write83Filename_joined h, map_joined, hext]
  constructor
  · rintro ⟨fuel, out, hrun, hname⟩
    exact spacesBehind_of_holdsName h.field_base h.field_ext hpos hrun hname
  · rintro ⟨hspaces, hlength⟩
    exact holdsName_of_spacesBehind h.field_base h.field_ext hpos hspaces hlength

/-- **Names that fit.**  No name is read back from the eight bytes alone.  With bytes behind them a name is
right when these are spaces up to a zero, and the extension is full or missing.  Names that are written alike
are alike. -/
theorem shortName_faults (h : IsShortName base ext) :
    ¬ ReadsBack (joined base ext) (fun _ => none) buffer ∧
    (∀ behind : Memory, ReadsBack (joined base ext) (fun i => some (behind i)) buffer ↔
      SpacesBehind behind ∧ (ext = [] ∨ ext.length = 3)) ∧
    ∀ base' ext', IsShortName base' ext' →
      write83Filename (joined base ext) = write83Filename (joined base' ext') →
        (joined base ext).map charUpper = (joined base' ext').map charUpper :=
  ⟨not_readsBack_array h, fun behind => readsBack_iff h behind buffer, fun _ _ h' => write83Filename_inj h h'⟩

theorem isShortName_a_c : IsShortName [97] [99] := ⟨by decide, by decide, by decide, by decide +kernel⟩

theorem shortName_faults_a_c : ¬ ReadsBack (joined [97] [99]) (fun _ => none) (fun _ => 0) :=
  (shortName_faults isShortName_a_c).1

/-- `a.c` is not read from the array.  With a zero behind the array it comes back with two spaces. -/
theorem a_c_padded : IsShortName [97] [99] ∧
    ¬ ReadsBack (joined [97] [99]) (fun _ => none) (fun _ => 0) ∧
    ¬ ReadsBack (joined [97] [99]) (fun _ => some 0) (fun _ => 0) ∧
    ((read83Filename 20 (write83Filename (joined [97] [99])) (fun _ => some 0) fun _ => 0).map
      fun out => (List.range 12).map out) = some [65, dot, 67, space, space, 0, 0, 0, 0, 0, 0, 0] := by
  refine ⟨isShortName_a_c, not_readsBack_array isShortName_a_c, ?_, by decide +kernel⟩
  intro h
  rcases ((readsBack_iff isShortName_a_c (fun _ => 0) fun _ => 0).mp h).2 with hnil | hthree
  · cases hnil
  · exact absurd hthree (by decide)

end OmochaOS.Fs
