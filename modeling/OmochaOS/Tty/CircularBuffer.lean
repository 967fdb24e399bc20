import OmochaOS.Lib.RingQueue
import OmochaOS.Lib.TransitionRun

/-!
# The keyboard's ring buffer (`tty/kbd.c`)

`peek_circular_buffer` finds a byte that stands behind the end of `buf` with a formula of its own, whose
index lies below `buf` instead.  As long as no peek has to go round, the buffer is a queue of at most 256
bytes in which a write to a full queue drops the oldest byte.

* `peek_fits` — what a peek that stays below the end of `buf` returns;
* `run_fifo` — every run of writes, reads and such peeks is one of the queue.
-/

namespace OmochaOS.Tty

open RingQueue TransitionRun

/-- `Circular_Buffer`, with `head` and `tail` as places of `buf`. -/
structure CircularBuffer where
  head : ℕ
  tail : ℕ
  count : ℕ
  buf : ℕ → UInt8

/-- The address of `buf`, and the bytes of memory by their distance from it. -/
structure Around where
  base : BitVec 32
  byte : BitVec 32 → UInt8

/-- Byte `i` of a word in memory. -/
def wordByte (w : BitVec 32) (i : ℕ) : UInt8 := UInt8.ofNat (w.toNat / 256 ^ i)

variable {m : Around} {b b' : CircularBuffer} {l : List UInt8} {data : UInt8} {offset : ℕ}

namespace CircularBuffer

/-- `*(b->buf + index)`.  The three other fields of the structure stand below `buf`. -/
def byteAt (m : Around) (b : CircularBuffer) (index : BitVec 32) : UInt8 :=
  let below := (-index).toNat
  if index.toNat < 256 then b.buf index.toNat
  else if below ≤ 4 then wordByte (BitVec.ofNat 32 b.count) (4 - below)
  else if below ≤ 8 then wordByte (m.base + BitVec.ofNat 32 b.tail) (8 - below)
  else if below ≤ 12 then wordByte (m.base + BitVec.ofNat 32 b.head) (12 - below)
  else m.byte index

end CircularBuffer

/-- `read_circular_buffer`; it waits as long as there is no byte. -/
def readCircularBuffer (b : CircularBuffer) : Option (UInt8 × CircularBuffer) :=
  if b.count = 0 then none
  else
    let tail := if b.tail + 1 = 256 then 0 else b.tail + 1
    some (b.buf b.tail, { b with tail := tail, count := b.count - 1 })

/-- `peek_circular_buffer`; it waits as long as there is no byte. -/
def peekCircularBuffer (m : Around) (b : CircularBuffer) (offset : ℕ) : Option UInt8 :=
  if b.count = 0 then none
  else if 256 ≤ b.tail + offset then
    -- `b->buf - b->tail` is the negative of the place of `tail`
    some (b.byteAt m (BitVec.ofNat 32 offset - (256 - (0 - BitVec.ofNat 32 b.tail))))
  else some (b.byteAt m (BitVec.ofNat 32 (b.tail + offset)))

/-- `write_circular_buffer`. -/
def writeCircularBuffer (b : CircularBuffer) (data : UInt8) : Option CircularBuffer := do
  let b ← if 256 ≤ b.count then (readCircularBuffer b).map Prod.snd else some b
  let buf := Function.update b.buf b.head data
  let head := if b.head + 1 = 256 then 0 else b.head + 1
  some { b with head := head, count := b.count + 1, buf := buf }

/-- The buffer after `init_kbd`. -/
def initBuffer (buf : ℕ → UInt8) : CircularBuffer := { head := 0, tail := 0, count := 0, buf := buf }

/-- What is done to the buffer, and what it returns. -/
inductive Access where
  | write (data : UInt8)
  | read (data : UInt8)
  | peek (offset : ℕ) (data : UInt8)

/-- One access: reads need a byte that is there, and peeks look at one of those. -/
inductive Step (m : Around) : CircularBuffer → Access → CircularBuffer → Prop
  | write {b b' : CircularBuffer} {data : UInt8} (hwrite : writeCircularBuffer b data = some b') :
      Step m b (.write data) b'
  | read {b b' : CircularBuffer} {data : UInt8} (hcount : 0 < b.count)
      (hread : readCircularBuffer b = some (data, b')) : Step m b (.read data) b'
  | peek {b : CircularBuffer} {offset : ℕ} {data : UInt8} (hcount : offset < b.count)
      (hpeek : peekCircularBuffer m b offset = some data) : Step m b (.peek offset data) b

/-- A queue of at most 256 bytes. -/
inductive Fifo : List UInt8 → Access → List UInt8 → Prop
  | write (l : List UInt8) (data : UInt8) : Fifo l (.write data) (offer 256 l data)
  | read (data : UInt8) (l : List UInt8) : Fifo (data :: l) (.read data) l
  | peek {l : List UInt8} {offset : ℕ} {data : UInt8} (hget : l[offset]? = some data) :
      Fifo l (.peek offset data) l

/-- What the `(k + 1)`-th read from now on returns. -/
def followingRead : ℕ → CircularBuffer → Option UInt8
  | 0, b => (readCircularBuffer b).map Prod.fst
  | k + 1, b => (readCircularBuffer b).bind fun r => followingRead k r.2

/-- The unread bytes are `l`. -/
structure Fits (b : CircularBuffer) (l : List UInt8) : Prop where
  holds : Holds 256 b.buf b.tail l
  count_eq : b.count = l.length
  head_eq : b.head = (b.tail + b.count) % 256

theorem Fits.head_lt (h : Fits b l) : b.head < 256 := by
  rw [h.head_eq]
  exact Nat.mod_lt _ (by decide)

theorem Fits.count_le (h : Fits b l) : b.count ≤ 256 := by
  rw [h.count_eq]
  exact h.holds.length_le

theorem fits_initBuffer (buf : ℕ → UInt8) : Fits (initBuffer buf) [] :=
  ⟨Holds.nil (show 0 < 256 by decide), rfl, rfl⟩

/-- A read takes the first byte. -/
theorem Fits.read (h : Fits b (data :: l)) :
    ∃ b', readCircularBuffer b = some (data, b') ∧ Fits b' l := by
  have hcount : b.count = l.length + 1 := h.count_eq
  have hpos : b.count ≠ 0 := by omega
  have hhead := h.head_eq
  have htail := h.holds.tail_lt
  refine ⟨{ b with tail := next 256 b.tail, count := b.count - 1 }, ?_, h.holds.pop, ?_, ?_⟩
  · rw [readCircularBuffer, if_neg hpos, ← h.holds.first]
    rfl
  · show b.count - 1 = l.length
    omega
  · show b.head = (next 256 b.tail + (b.count - 1)) % 256
    rw [next_add_mod htail, hhead, Nat.sub_add_cancel (by omega)]

/-- A byte is added where there is room. -/
theorem Fits.add (h : Fits b l) (hroom : l.length < 256) :
    Fits { b with head := next 256 b.head, count := b.count + 1,
                  buf := Function.update b.buf b.head data } (l ++ [data]) := by
  have hhead := h.head_eq
  have hcount := h.count_eq
  refine ⟨?_, ?_, ?_⟩
  · show Holds 256 (Function.update b.buf b.head data) b.tail (l ++ [data])
    rw [hhead, hcount]
    exact h.holds.push hroom
  · show b.count + 1 = (l ++ [data]).length
    rw [List.length_append, hcount]
    rfl
  · show next 256 b.head = (b.tail + (b.count + 1)) % 256
    rw [next_eq_mod h.head_lt, hhead, Nat.mod_add_mod]
    rfl

/-- A write adds the byte; in a full buffer the oldest one is dropped first. -/
theorem Fits.write (h : Fits b l) (data : UInt8) :
    ∃ b', writeCircularBuffer b data = some b' ∧ Fits b' (offer 256 l data) := by
  rw [offer, ← h.count_eq]
  by_cases hfull : 256 ≤ b.count
  · have hlength := h.count_eq
    cases l with
    | nil =>
      rw [List.length_nil] at hlength
      omega
    | cons oldest l =>
      obtain ⟨c, hread, hc⟩ := h.read
      have hroom : l.length < 256 := by
        have hle := h.holds.length_le
        rw [List.length_cons] at hle
        omega
      rw [if_pos hfull]
      refine ⟨_, ?_, hc.add hroom⟩
      rw [writeCircularBuffer, if_pos hfull, hread]
      rfl
  · have hroom : l.length < 256 := by
      rw [← h.count_eq]
      omega
    rw [if_neg hfull]
    refine ⟨_, ?_, h.add hroom⟩
    rw [writeCircularBuffer, if_neg hfull]
    rfl

/-- A byte of `buf` itself. -/
theorem byteAt_of_lt {i : ℕ} (hi : i < 256) : b.byteAt m (BitVec.ofNat 32 i) = b.buf i := by
  have hnat : (BitVec.ofNat 32 i).toNat = i := by
    rw [BitVec.toNat_ofNat]
    exact Nat.mod_eq_of_lt (Nat.lt_trans hi (by decide))
  rw [CircularBuffer.byteAt, hnat]
  exact if_pos hi

/-- A peek that does not go round. -/
theorem peek_fits (h : Fits b l) (hoffset : offset < b.count) (hin : b.tail + offset < 256) :
    peekCircularBuffer m b offset = l[offset]? := by
  have hlt : offset < l.length := h.count_eq ▸ hoffset
  have hplace := h.holds.place offset hlt
  rw [Nat.mod_eq_of_lt hin] at hplace
  rw [peekCircularBuffer, if_neg (by omega), if_neg (by omega), byteAt_of_lt hin, hplace,
    List.getElem?_eq_getElem hlt]

/-- The reads return the bytes of the queue one after the other. -/
theorem followingRead_fits (h : Fits b l) (hlt : offset < l.length) :
    followingRead offset b = l[offset]? := by
  induction offset generalizing b l with
  | zero =>
    cases l with
    | nil => exact absurd hlt (Nat.not_lt_zero _)
    | cons a l =>
      obtain ⟨b', hread, -⟩ := h.read
      rw [followingRead, hread]
      rfl
  | succ k ih =>
    cases l with
    | nil => exact absurd hlt (Nat.not_lt_zero _)
    | cons a l =>
      obtain ⟨b', hread, h'⟩ := h.read
      rw [followingRead, hread, List.getElem?_cons_succ]
      exact ih h' (Nat.lt_of_succ_lt_succ hlt)

/-- The access is no peek beyond the end of `buf`. -/
def PeekInside (b : CircularBuffer) (e : Access) (_ : CircularBuffer) : Prop :=
  match e with
  | .peek offset _ => b.tail + offset < 256
  | _ => True

/-- The place of `buf` that a peek beyond its end looks at lies below it. -/
theorem wrapped_index (htail : b.tail < 256) (hoffset : offset < 256) :
    (BitVec.ofNat 32 offset - (256 - (0 - BitVec.ofNat 32 b.tail)) : BitVec 32).toNat =
      2 ^ 32 - (256 + b.tail - offset) := by
  have htail' : (BitVec.ofNat 32 b.tail).toNat = b.tail := Nat.mod_eq_of_lt (Nat.lt_trans htail (by decide))
  have hoffset' : (BitVec.ofNat 32 offset).toNat = offset :=
    Nat.mod_eq_of_lt (Nat.lt_trans hoffset (by decide))
  bv_omega

/-- What it returns has nothing to do with the bytes in `buf`. -/
theorem peek_wrapped (htail : b.tail < 256) (hoffset : offset < 256) (hround : 256 ≤ b.tail + offset)
    (buf : ℕ → UInt8) :
    peekCircularBuffer m { b with buf := buf } offset = peekCircularBuffer m b offset := by
  have hindex : ¬ (BitVec.ofNat 32 offset - (256 - (0 - BitVec.ofNat 32 b.tail)) : BitVec 32).toNat < 256 := by
    rw [wrapped_index htail hoffset]
    omega
  rw [peekCircularBuffer, peekCircularBuffer, if_pos hround, if_pos hround, CircularBuffer.byteAt,
    CircularBuffer.byteAt, if_neg hindex, if_neg hindex]

/-- A queue of one byte, repeated. -/
theorem fits_replicate (htail : b.tail < 256) (hcount : b.count ≤ 256)
    (hhead : b.head = (b.tail + b.count) % 256) (data : UInt8) :
    Fits { b with buf := fun _ => data } (List.replicate b.count data) := by
  refine ⟨⟨htail, by rw [List.length_replicate]; exact hcount, fun i hi => ?_⟩, ?_, hhead⟩
  · rw [List.getElem_replicate]
  · rw [List.length_replicate]

/-- **Which peeks are right whatever the queue holds**: those that do not go round. -/
theorem peek_right_iff (htail : b.tail < 256) (hcount : b.count ≤ 256)
    (hhead : b.head = (b.tail + b.count) % 256) (hoffset : offset < b.count) :
    (∀ buf l, Fits { b with buf := buf } l →
      peekCircularBuffer m { b with buf := buf } offset = l[offset]?) ↔ b.tail + offset < 256 := by
  constructor
  · intro h
    by_contra hround
    -- the answer would be the byte of every queue
    have hany : ∀ data : UInt8, peekCircularBuffer m b offset = some data := by
      intro data
      rw [← peek_wrapped htail (Nat.lt_of_lt_of_le hoffset hcount) (Nat.not_lt.mp hround) fun _ => data,
        h _ _ (fits_replicate htail hcount hhead data), List.getElem?_replicate_of_lt hoffset]
    have hsame : (0 : UInt8) = 1 := Option.some.inj ((hany 0).symm.trans (hany 1))
    exact absurd hsame (by decide)
  · exact fun hin buf l hfits => peek_fits hfits hoffset hin

/-- Each access of a buffer that stands for a queue is one of the queue. -/
theorem Fits.step {e : Access} (h : Fits b l) (hstep : Step m b e b') (hin : PeekInside b e b') :
    ∃ l', Fifo l e l' ∧ Fits b' l' := by
  cases hstep with
  | @write _ data hwrite =>
    obtain ⟨c, hc, hfits⟩ := h.write data
    obtain rfl : c = b' := Option.some.inj (hc.symm.trans hwrite)
    exact ⟨_, Fifo.write l data, hfits⟩
  | @read _ data hcount hread =>
    cases l with
    | nil => exact absurd h.count_eq (Nat.ne_of_gt hcount)
    | cons a l =>
      obtain ⟨c, hc, hfits⟩ := h.read
      have hpair : (a, c) = (data, b') := Option.some.inj (hc.symm.trans hread)
      cases hpair
      exact ⟨l, Fifo.read data l, hfits⟩
  | @peek offset data hcount hpeek =>
    refine ⟨l, Fifo.peek ?_, h⟩
    rw [← peek_fits h hcount hin, hpeek]

/-- **The keyboard buffer is a queue** in every run whose peeks stay below the end of `buf`. -/
theorem run_fifo (m : Around) (buf : ℕ → UInt8) (tr : List (Transition CircularBuffer Access))
    (b : CircularBuffer) (hrun : Run (Step m) (initBuffer buf) tr b)
    (hin : ∀ x ∈ tr, PeekInside x.source x.label x.target) :
    (∃ tr' l, Run Fifo [] tr' l ∧ tr'.map Transition.label = tr.map Transition.label ∧ b.count = l.length) ∧
      b.head < 256 ∧ b.tail < 256 ∧ b.count ≤ 256 ∧
      (∀ data, ∃ b', Step m b (.write data) b') ∧
      (0 < b.count → ∃ data b', Step m b (.read data) b') ∧
      ∀ offset < b.count, b.tail + offset < 256 → ∃ data, Step m b (.peek offset data) b ∧
        followingRead offset b = some data := by
  obtain ⟨tr', l, hrun', hlabels, hfits⟩ := hrun.simulated (fits_initBuffer buf)
    (fun s e t l hl hstep hs => hl.step hstep hs) hin
  refine ⟨⟨tr', l, hrun', hlabels, hfits.count_eq⟩, hfits.head_lt, hfits.holds.tail_lt, hfits.count_le,
    fun data => ?_, fun hpos => ?_, fun offset hoffset hinside => ?_⟩
  · obtain ⟨b', hwrite, -⟩ := hfits.write data
    exact ⟨b', Step.write hwrite⟩
  · have hcount := hfits.count_eq
    cases l with
    | nil => exact absurd hcount (Nat.ne_of_gt hpos)
    | cons a l =>
      obtain ⟨b', hread, -⟩ := hfits.read
      exact ⟨a, b', Step.read hpos hread⟩
  · have hlt : offset < l.length := hfits.count_eq ▸ hoffset
    have hpeek := peek_fits (m := m) hfits hoffset hinside
    rw [List.getElem?_eq_getElem hlt] at hpeek
    refine ⟨l[offset], Step.peek hoffset hpeek, ?_⟩
    rw [followingRead_fits hfits hlt, List.getElem?_eq_getElem hlt]

/-- Two bytes are written and the second one is looked at. -/
theorem run_fifo_peeked : ∃ tr' l, Run Fifo [] tr' l ∧
    tr'.map Transition.label = [Access.write 5, Access.write 6, Access.peek 1 6] ∧ l.length = 2 := by
  have hstart : Run (Step ⟨0x80100000, fun _ => 0⟩) (initBuffer fun _ => 0) [] _ := Run.start
  have hwritten := (hstart.extend (l := .write 5) (Step.write rfl)).extend (l := .write 6) (Step.write rfl)
  have hrun := hwritten.extend (l := .peek 1 6) (Step.peek (show 1 < 2 by decide) (by decide))
  obtain ⟨⟨tr', l, hrun', hlabels, hlength⟩, -⟩ := run_fifo _ _ _ _ hrun (by
    intro x hx
    simp only [List.nil_append, List.cons_append, List.mem_cons, List.not_mem_nil, or_false] at hx
    rcases hx with rfl | rfl | rfl
    · trivial
    · trivial
    · show 0 + 1 < 256
      decide)
  exact ⟨tr', l, hrun', hlabels, hlength.symm⟩

/-- The buffer after `k` writes of one byte. -/
def filled (data : UInt8) (k : ℕ) : CircularBuffer :=
  { head := k % 256, tail := 0, count := k, buf := fun i => if i < k then data else 0 }

theorem reachable_filled {k : ℕ} (hk : k ≤ 256) :
    Reachable (Step m) (initBuffer fun _ => 0) (filled data k) := by
  induction k with
  | zero => exact Reachable.refl
  | succ k ih =>
    have hmod : k % 256 = k := Nat.mod_eq_of_lt hk
    have hbuf : Function.update (filled data k).buf k data = fun i => if i < k + 1 then data else 0 := by
      funext i
      show Function.update (fun i => if i < k then data else 0) k data i = _
      by_cases hi : i = k
      · rw [hi, Function.update_self, if_pos (Nat.lt_succ_self k)]
      · rw [Function.update_of_ne hi]
        exact if_congr (by omega) rfl rfl
    refine (ih (Nat.le_of_succ_le hk)).extend (l := .write data) (Step.write ?_)
    rw [writeCircularBuffer, if_neg (show ¬ 256 ≤ (filled data k).count by show ¬ 256 ≤ k; omega)]
    show some (CircularBuffer.mk (next 256 (k % 256)) 0 (k + 1) (Function.update _ (k % 256) data)) = _
    rw [next_eq_mod (Nat.mod_lt k (by decide)), hmod, hbuf]
    rfl

/-- After one more write the queue begins at the second place. -/
def full (data : UInt8) : CircularBuffer :=
  { head := 1, tail := 1, count := 256,
    buf := Function.update (fun i => if i < 256 then data else 0) 0 data }

theorem reachable_full : Reachable (Step m) (initBuffer fun _ => 0) (full data) :=
  (reachable_filled (Nat.le_refl 256)).extend (l := .write data) (Step.write rfl)

theorem fits_full : Fits (full data) (List.replicate 256 data) := by
  refine ⟨⟨show 1 < 256 by decide, by rw [List.length_replicate], fun i hi => ?_⟩, ?_, ?_⟩
  · have hlt : (1 + i) % 256 < 256 := Nat.mod_lt _ (by decide)
    rw [List.getElem_replicate]
    show Function.update (fun i => if i < 256 then data else 0) 0 data ((1 + i) % 256) = data
    by_cases hzero : (1 + i) % 256 = 0
    · rw [hzero, Function.update_self]
    · rw [Function.update_of_ne hzero, if_pos hlt]
  · rw [List.length_replicate]
    rfl
  · show 1 = (1 + 256) % 256
    rfl

/-- **A peek round the end.**  After 257 bytes 7, the last of them is asked for and a byte of `count` returned. -/
theorem peek_below_buf : ¬ ∀ b offset,
    Reachable (Step ⟨0x80100000, fun _ => 0⟩) (initBuffer fun _ => 0) b → offset < b.count →
      peekCircularBuffer ⟨0x80100000, fun _ => 0⟩ b offset = followingRead offset b := by
  intro h
  have hpeek := h (full 7) 255 reachable_full (show 255 < 256 by decide)
  rw [followingRead_fits fits_full (by rw [List.length_replicate]; decide),
    List.getElem?_replicate_of_lt (by decide)] at hpeek
  exact absurd hpeek (by decide)

end OmochaOS.Tty
