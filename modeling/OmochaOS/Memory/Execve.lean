import Mathlib.Tactic.IntervalCases
import OmochaOS.Core.Paging
import OmochaOS.Klib.Memcpy
import OmochaOS.Lib.CString

/-!
# The stack of a new program (`memory/execve.c`)

`mem_execve` copies the strings of the environment and of the arguments to the top of the new stack, the last
one first, and writes the two arrays of pointers below them.  The first element of an array is written before
the loop that ends it, so that an array of no strings has no NULL; and nothing asks whether everything fits.

* `pushStrings_eq` — the strings, one behind the other;
* `setupArray_spec` — one array;
* `Laid.wellFormed` — the arrays point to the strings, and nothing overlaps;
* `argumentBlock_iff` — when the stack is what the program expects.
-/

namespace OmochaOS.Execve

open ByteMemory

def procStackSize : ℕ := 8192
def kernBase : ℕ := 0x80000000

/-- `pstack_bottom`. -/
def pstackBottom : ℕ := kernBase - procStackSize

/-! ### Pointers -/

/-- A pointer that goes up or down, in 32 bits. -/
def ptrAdd (p n : ℕ) : ℕ := (p + n) % 2 ^ 32

def ptrSub (p n : ℕ) : ℕ := (p + 2 ^ 32 - n % 2 ^ 32) % 2 ^ 32

/-- `get_offsetd_addr`. -/
def getOffsetdAddr (base addr vbase : ℕ) : ℕ := ptrAdd vbase (ptrSub addr base)

/-- `vir2phy(caller->page_dir, va)`. -/
def phy (pageDir : ℕ) (m : Memory) (va : ℕ) : ℕ := Paging.vir2phy (readWord m) pageDir va

/-- `strlen`. -/
def strlen (m : Memory) (s fuel : ℕ) : Option ℕ := CString.strlen (fun i => some (m (s + i))) fuel

/-- `count_strs`, from `r` on. -/
def countStrs (m : Memory) (strs : ℕ) : (fuel r : ℕ) → Option ℕ
  | 0, _ => none
  | fuel + 1, r => if readWord m (strs + 4 * r) = 0 then some r else countStrs m strs fuel (r + 1)

/-! ### `mem_execve` -/

/-- `for (i = n - 1; i >= 0; i--)` a string is copied below `sp`. -/
def pushStrings (pageDir fuel strs : ℕ) : ℕ → Memory → ℕ → Option (Memory × ℕ)
  | 0, m, sp => some (m, sp)
  | i + 1, m, sp => do
    let e := phy pageDir m (readWord m (strs + 4 * i))
    let len ← strlen m e fuel
    let sp := ptrSub sp (len + 1)
    pushStrings pageDir fuel strs i (Klib.memcpy m sp e (len + 1)) sp

/-- The array at `sp` after the rounds up to `i`; element 0 is written before them. -/
def setupArray (pageDir fuel strs n sp head : ℕ) : ℕ → Memory → Option Memory
  | 0, m => some (writeWord m sp head)
  | i + 1, m => do
    let m ← setupArray pageDir fuel strs n sp head i m
    if i + 1 = n then some (writeWord m (sp + 4 * (i + 1)) 0)
    else
      let e := phy pageDir m (readWord m (strs + 4 * i))
      let len ← strlen m e fuel
      some (writeWord m (sp + 4 * (i + 1)) (ptrAdd (readWord m (sp + 4 * i)) (len + 1)))

/-- What the new program begins with. -/
structure Built where
  memory : Memory
  esp : ℕ
  ecx : ℕ
  ebx : ℕ

/-- The part of `mem_execve` that builds the stack, in the new pages at `stack`. -/
def memExecve (fuel : ℕ) (m : Memory) (pageDir stack argv env : ℕ) : Option Built := do
  let env := phy pageDir m env
  let argv := phy pageDir m argv
  let argc ← countStrs m argv fuel 0
  let envc ← countStrs m env fuel 0
  let (m, sp) ← pushStrings pageDir fuel env envc m (ptrAdd stack procStackSize)
  let headOfEnvp := sp
  let (m, sp) ← pushStrings pageDir fuel argv argc m sp
  let headOfArgv := sp
  let sp := sp - sp % 4
  let sp := ptrSub sp (4 * (envc + 1))
  let m ← setupArray pageDir fuel env envc sp (getOffsetdAddr stack headOfEnvp pstackBottom) envc m
  let sp := ptrSub sp (4 * (argc + 1))
  let m ← setupArray pageDir fuel argv argc sp (getOffsetdAddr stack headOfArgv pstackBottom) argc m
  let ebx := ptrSub pstackBottom (ptrSub stack sp)
  some { memory := m, esp := ebx - ebx % 4, ecx := argc, ebx := ebx }

/-! ### What the caller passes -/

/-- The memory outside of the new pages is the same. -/
def SameOutside (stack : ℕ) (m m' : Memory) : Prop :=
  ∀ x, x < stack ∨ stack + procStackSize ≤ x → m' x = m x

/-- The bytes lie outside of the new pages. -/
def Apart (stack a n : ℕ) : Prop := a + n ≤ stack ∨ stack + procStackSize ≤ a

/-- A string, as `strlen` and `memcpy` find it. -/
structure StringAt (stack : ℕ) (m : Memory) (e : ℕ) (s : List UInt8) : Prop where
  bytes : HasBytes m e (s ++ [0])
  no_nul : ∀ c ∈ s, c ≠ 0
  below : e + (s.length + 1) ≤ 2 ^ 32
  apart : Apart stack e (s.length + 1)

/-- A vector of strings, as `count_strs` and the loops find it. -/
structure VectorAt (pageDir stack : ℕ) (m : Memory) (a : ℕ) (strs : List (List UInt8)) : Prop where
  string : ∀ i (hi : i < strs.length), readWord m (a + 4 * i) ≠ 0 ∧
    StringAt stack m (phy pageDir m (readWord m (a + 4 * i))) strs[i]
  ends : readWord m (a + 4 * strs.length) = 0
  apart : Apart stack a (4 * (strs.length + 1))

/-- The new pages, which hold neither the page tables of the caller nor its vectors. -/
structure Ready (pageDir stack : ℕ) (m : Memory) : Prop where
  aligned : stack % 4096 = 0
  below : stack + procStackSize ≤ 2 ^ 32
  tables : ∀ m', SameOutside stack m m' → ∀ va, phy pageDir m' va = phy pageDir m va

variable {pageDir stack fuel a e sp head i n : ℕ} {m m' : Memory} {s : List UInt8} {strs : List (List UInt8)}

theorem SameOutside.trans {m'' : Memory} (h : SameOutside stack m m') (h' : SameOutside stack m' m'') :
    SameOutside stack m m'' := fun x hx => (h' x hx).trans (h x hx)

theorem SameOutside.agreeOn (h : SameOutside stack m m') (hapart : Apart stack a n) : AgreeOn m' m a n := by
  intro x hle hlt
  apply h
  unfold Apart at hapart
  omega

theorem Ready.congr (h : Ready pageDir stack m) (hsame : SameOutside stack m m') : Ready pageDir stack m' := by
  refine ⟨h.aligned, h.below, fun m'' hsame' va => ?_⟩
  rw [h.tables m'' (hsame.trans hsame'), h.tables m' hsame]

theorem StringAt.congr (h : StringAt stack m e s) (hsame : SameOutside stack m m') : StringAt stack m' e s := by
  refine ⟨h.bytes.congr (hsame.agreeOn ?_), h.no_nul, h.below, h.apart⟩
  rw [List.length_append]
  exact h.apart

theorem VectorAt.word_congr (h : VectorAt pageDir stack m a strs) (hsame : SameOutside stack m m')
    (hi : i ≤ strs.length) : readWord m' (a + 4 * i) = readWord m (a + 4 * i) :=
  (hsame.agreeOn h.apart).readWord (by omega)

theorem VectorAt.congr (h : VectorAt pageDir stack m a strs) (hready : Ready pageDir stack m)
    (hsame : SameOutside stack m m') : VectorAt pageDir stack m' a strs := by
  refine ⟨fun i hi => ?_, ?_, h.apart⟩
  · rw [h.word_congr hsame (Nat.le_of_lt hi), hready.tables m' hsame]
    exact ⟨(h.string i hi).1, (h.string i hi).2.congr hsame⟩
  · rw [h.word_congr hsame (Nat.le_refl _)]
    exact h.ends

theorem StringAt.strlen (h : StringAt stack m e s) (hfuel : s.length < fuel) :
    strlen m e fuel = some s.length := by
  have hfirst : CString.FirstNot (· != 0) (fun i => some (m (e + i))) 0 s.length := by
    refine ⟨Nat.zero_le _, ⟨0, ?_, rfl⟩, fun j _ hj => ⟨s[j], ?_, ?_⟩⟩
    · have hend := h.bytes.right 0 (Nat.zero_lt_succ _)
      exact congrArg some hend
    · exact congrArg some (h.bytes.left j hj)
    · exact bne_iff_ne.mpr (h.no_nul _ (List.getElem_mem hj))
  exact hfirst.scanWhile hfuel

theorem countStrs_eq (h : VectorAt pageDir stack m a strs) (r : ℕ) (hr : r ≤ strs.length)
    (hfuel : strs.length - r < fuel) : countStrs m a fuel r = some strs.length := by
  induction fuel generalizing r with
  | zero => exact absurd hfuel (Nat.not_lt_zero _)
  | succ fuel ih =>
    rw [countStrs]
    rcases Nat.eq_or_lt_of_le hr with heq | hlt
    · rw [heq, if_pos h.ends]
    · rw [if_neg (h.string r hlt).1]
      exact ih (r + 1) hlt (by omega)

/-! ### The strings -/

/-- The strings one behind the other, each with its NUL. -/
def bytesOf (strs : List (List UInt8)) : List UInt8 := strs.flatMap fun s => s ++ [0]

theorem bytesOf_cons : bytesOf (s :: strs) = (s ++ [0]) ++ bytesOf strs := List.flatMap_cons

theorem bytesOf_take_succ (hi : i < strs.length) :
    bytesOf (strs.take (i + 1)) = bytesOf (strs.take i) ++ (strs[i] ++ [0]) := by
  rw [bytesOf, List.take_add_one, List.getElem?_eq_getElem hi, List.flatMap_append]
  show _ ++ ((strs[i] ++ [0]) ++ []) = _
  rw [List.append_nil]
  rfl

/-- A pointer that goes down and does not leave the address space. -/
theorem ptrSub_mod (hn : n ≤ a) : ptrSub (a % 2 ^ 32) n = (a - n) % 2 ^ 32 := by
  unfold ptrSub
  omega

theorem sameOutside_store {l : List UInt8} (hlow : stack ≤ a) (hhigh : a + l.length ≤ stack + procStackSize) :
    SameOutside stack m (store m a l) := by
  intro x hx
  rcases hx with hlt | hge
  · exact store_of_lt (by omega)
  · exact store_of_le (by omega)

/-- What one round does: the string stands below `sp`. -/
theorem memcpy_string (hready : Ready pageDir stack m) (h : StringAt stack m e s) (hhigh : a + (s.length + 1) ≤ stack + procStackSize) :
    Klib.memcpy m a e (s.length + 1) = store m a (s ++ [0]) := by
  have hbelow := hready.below
  have hlength : (s ++ [(0 : UInt8)]).length = s.length + 1 := List.length_append
  rw [Klib.memcpy_eq_copy h.below (by omega), ← hlength]
  exact h.bytes.copy

/-- **The strings** stand one behind the other below the place where `sp` was. -/
theorem pushStrings_eq (hready : Ready pageDir stack m) (hvec : VectorAt pageDir stack m a strs)
    (hfuel : ∀ s ∈ strs, s.length < fuel) (hi : i ≤ strs.length) {top : ℕ}
    (hlow : stack + (bytesOf (strs.take i)).length ≤ top) (hhigh : top ≤ stack + procStackSize) :
    pushStrings pageDir fuel a i m (top % 2 ^ 32) =
      some (store m (top - (bytesOf (strs.take i)).length) (bytesOf (strs.take i)),
        (top - (bytesOf (strs.take i)).length) % 2 ^ 32) := by
  induction i generalizing m top with
  | zero =>
    rw [pushStrings, List.take_zero]
    show some (m, top % 2 ^ 32) = some (store m top [], top % 2 ^ 32)
    rw [store_nil]
  | succ i ih =>
    obtain ⟨-, hstring⟩ := hvec.string i hi
    have hbelow := hready.below
    have htake := bytesOf_take_succ hi
    have hlength : (bytesOf (strs.take (i + 1))).length =
        (bytesOf (strs.take i)).length + (strs[i].length + 1) := by
      rw [htake, List.length_append, List.length_append, List.length_singleton]
    obtain ⟨k, hk⟩ : ∃ k, k = top - (strs[i].length + 1) := ⟨_, rfl⟩
    have hmod : k % 2 ^ 32 = k := Nat.mod_eq_of_lt (by omega)
    have hsp : ptrSub (top % 2 ^ 32) (strs[i].length + 1) = k := by
      rw [ptrSub_mod (by omega), ← hk, hmod]
    have hcopy : Klib.memcpy m k _ (strs[i].length + 1) = store m k (strs[i] ++ [0]) :=
      memcpy_string hready hstring (by omega)
    have hsame : SameOutside stack m (store m k (strs[i] ++ [0])) :=
      sameOutside_store (by omega) (by rw [List.length_append, List.length_singleton]; omega)
    have hrest : pushStrings pageDir fuel a i (store m k (strs[i] ++ [0])) (k % 2 ^ 32) = _ :=
      ih (hready.congr hsame) (hvec.congr hready hsame) (Nat.le_of_lt hi) (by omega) (by omega)
    rw [hmod] at hrest
    rw [pushStrings, hstring.strlen (hfuel _ (List.getElem_mem hi))]
    show pushStrings pageDir fuel a i (Klib.memcpy m (ptrSub (top % 2 ^ 32) (strs[i].length + 1)) _ _)
      (ptrSub (top % 2 ^ 32) (strs[i].length + 1)) = _
    rw [hsp, hcopy, hrest, hlength, htake]
    have hplace : k = k - (bytesOf (strs.take i)).length + (bytesOf (strs.take i)).length := by omega
    have hstart : k - (bytesOf (strs.take i)).length =
        top - ((bytesOf (strs.take i)).length + (strs[i].length + 1)) := by omega
    have hparts : store (store m k (strs[i] ++ [0])) (k - (bytesOf (strs.take i)).length)
        (bytesOf (strs.take i)) = store m (k - (bytesOf (strs.take i)).length)
          (bytesOf (strs.take i) ++ (strs[i] ++ [0])) :=
      (congrArg (fun x => store (store m x _) _ _) hplace).trans store_prepend
    rw [hparts, hstart]

/-! ### The arrays -/

/-- Where string `j` stands when the first one stands at `head`. -/
def pointer (head : ℕ) (strs : List (List UInt8)) (j : ℕ) : ℕ := head + (bytesOf (strs.take j)).length

theorem pointer_zero : pointer head strs 0 = head := rfl

theorem pointer_succ (hi : i < strs.length) :
    pointer head strs (i + 1) = pointer head strs i + (strs[i].length + 1) := by
  rw [pointer, pointer, bytesOf_take_succ hi, List.length_append, List.length_append, List.length_singleton,
    Nat.add_assoc]

theorem pointer_le {j : ℕ} (hij : i ≤ j) (hj : j ≤ strs.length) : pointer head strs i ≤ pointer head strs j := by
  induction j with
  | zero =>
    obtain rfl := Nat.le_zero.mp hij
    exact Nat.le_refl _
  | succ j ih =>
    rcases Nat.eq_or_lt_of_le hij with rfl | hlt
    · exact Nat.le_refl _
    · have hstep : pointer head strs (j + 1) = pointer head strs j + (strs[j].length + 1) := pointer_succ hj
      have hle := ih (Nat.le_of_lt_succ hlt) (Nat.le_of_lt hj)
      omega

theorem pointer_length : pointer head strs strs.length = head + (bytesOf strs).length := by
  rw [pointer, List.take_length]

/-- Element `j` of the array; element 0 is never the NULL. -/
def element (head : ℕ) (strs : List (List UInt8)) (j : ℕ) : ℕ :=
  if j = 0 then head else if j = strs.length then 0 else pointer head strs j

theorem element_of_lt (hi : i < strs.length) : element head strs i = pointer head strs i := by
  unfold element
  split
  · next h => rw [h, pointer_zero]
  · rw [if_neg (Nat.ne_of_lt hi)]

/-- **One array**, and nothing else, is written. -/
theorem setupArray_spec (hready : Ready pageDir stack m) (hvec : VectorAt pageDir stack m a strs)
    (hfuel : ∀ s ∈ strs, s.length < fuel) (hlow : stack ≤ sp)
    (hhigh : sp + 4 * (strs.length + 1) ≤ stack + procStackSize)
    (hhead : head + (bytesOf strs).length < 2 ^ 32) (hi : i ≤ strs.length) :
    ∃ m', setupArray pageDir fuel a strs.length sp head i m = some m' ∧
      (∀ x, x < sp ∨ sp + 4 * (i + 1) ≤ x → m' x = m x) ∧
      ∀ j ≤ i, readWord m' (sp + 4 * j) = element head strs j := by
  induction i with
  | zero =>
    refine ⟨writeWord m sp head, rfl, fun x hx => writeWord_of_lt hx, fun j hj => ?_⟩
    obtain rfl := Nat.le_zero.mp hj
    rw [Nat.mul_zero, Nat.add_zero, readWord_writeWord (by omega)]
    rfl
  | succ i ih =>
    obtain ⟨m₁, hrun, hsame, hwords⟩ := ih (Nat.le_of_lt hi)
    -- the element is written behind those that are there
    have hwrite : ∀ w < 2 ^ 32, element head strs (i + 1) = w →
        (∀ x, x < sp ∨ sp + 4 * (i + 1 + 1) ≤ x → writeWord m₁ (sp + 4 * (i + 1)) w x = m x) ∧
          ∀ j ≤ i + 1, readWord (writeWord m₁ (sp + 4 * (i + 1)) w) (sp + 4 * j) = element head strs j := by
      intro w hw helement
      refine ⟨fun x hx => ?_, fun j hj => ?_⟩
      · rw [writeWord_of_lt (by omega)]
        exact hsame x (by omega)
      · rcases Nat.eq_or_lt_of_le hj with rfl | hlt
        · rw [readWord_writeWord hw, helement]
        · rw [readWord_writeWord_of_disjoint (by omega)]
          exact hwords j (Nat.le_of_lt_succ hlt)
    rw [setupArray, hrun]
    show ∃ m', (if i + 1 = strs.length then _ else _) = some m' ∧ _
    by_cases hlast : i + 1 = strs.length
    · rw [if_pos hlast]
      have helement : element head strs (i + 1) = 0 := by
        rw [element, if_neg (Nat.succ_ne_zero i), if_pos hlast]
      exact ⟨_, rfl, hwrite 0 (by decide) helement⟩
    · have hsame' : SameOutside stack m m₁ := fun x hx => hsame x (by omega)
      have hstring := ((hvec.congr hready hsame').string i hi).2
      have hle : pointer head strs (i + 1) ≤ pointer head strs strs.length := pointer_le hi (Nat.le_refl _)
      rw [pointer_length] at hle
      have hnext : pointer head strs (i + 1) = pointer head strs i + (strs[i].length + 1) := pointer_succ hi
      have hword : ptrAdd (readWord m₁ (sp + 4 * i)) (strs[i].length + 1) = pointer head strs (i + 1) := by
        rw [hwords i (Nat.le_refl i), element_of_lt hi, ptrAdd, ← hnext]
        exact Nat.mod_eq_of_lt (by omega)
      rw [if_neg hlast, hstring.strlen (hfuel _ (List.getElem_mem hi))]
      show ∃ m', some (writeWord m₁ _ (ptrAdd _ _)) = some m' ∧ _
      rw [hword]
      exact ⟨_, rfl, hwrite _ (by omega) (element_of_lt (Nat.lt_of_le_of_ne hi hlast))⟩

/-! ### The block -/

variable {argv env : ℕ} {args envs : List (List UInt8)} {b : Built}

/-- What the arrays and the strings take. -/
def blockSize (args envs : List (List UInt8)) : ℕ :=
  4 * (args.length + 1) + 4 * (envs.length + 1) + ((bytesOf args).length + (bytesOf envs).length + 3) / 4 * 4

/-- Where the strings begin, the strings of the arguments first. -/
def stringsStart (stack : ℕ) (args envs : List (List UInt8)) : ℕ :=
  stack + procStackSize - (bytesOf envs).length - (bytesOf args).length

/-- The virtual address of a place in the new pages, and the place of a virtual address. -/
def toVirtual (stack x : ℕ) : ℕ := pstackBottom + (x - stack)

def onStack (stack v : ℕ) : ℕ := stack + (v - pstackBottom)

theorem getOffsetdAddr_eq {x : ℕ} (hlow : stack ≤ x) (hhigh : x ≤ stack + procStackSize) :
    getOffsetdAddr stack (x % 2 ^ 32) pstackBottom = toVirtual stack x := by
  have hsize : procStackSize = 8192 := rfl
  have hbottom : pstackBottom = 2147475456 := rfl
  rw [getOffsetdAddr, ptrSub_mod hlow, ptrAdd, toVirtual]
  omega

/-- What `mem_execve` has built when everything fits. -/
structure Laid (stack : ℕ) (m : Memory) (args envs : List (List UInt8)) (b : Built) : Prop where
  ecx : b.ecx = args.length
  ebx : b.ebx = toVirtual stack (stack + procStackSize - blockSize args envs)
  esp : b.esp = b.ebx
  same : SameOutside stack m b.memory
  strings : HasBytes b.memory (stringsStart stack args envs) (bytesOf args ++ bytesOf envs)
  argv : ∀ j ≤ args.length, readWord b.memory (stack + procStackSize - blockSize args envs + 4 * j) =
    element (toVirtual stack (stringsStart stack args envs)) args j
  envp : ∀ j ≤ envs.length, readWord b.memory (stack + procStackSize - blockSize args envs +
    4 * (args.length + 1) + 4 * j) =
      element (toVirtual stack (stringsStart stack args envs + (bytesOf args).length)) envs j

/-- Both rows of strings. -/
theorem pushStrings_both (hready : Ready pageDir stack m)
    (hargv : VectorAt pageDir stack m (phy pageDir m argv) args)
    (henv : VectorAt pageDir stack m (phy pageDir m env) envs)
    (hfuel : ∀ s ∈ args ++ envs, s.length < fuel)
    (hfits : (bytesOf args).length + (bytesOf envs).length ≤ procStackSize) :
    ∃ m₁, pushStrings pageDir fuel (phy pageDir m env) envs.length m (ptrAdd stack procStackSize) =
        some (m₁, (stringsStart stack args envs + (bytesOf args).length) % 2 ^ 32) ∧
      pushStrings pageDir fuel (phy pageDir m argv) args.length m₁
        ((stringsStart stack args envs + (bytesOf args).length) % 2 ^ 32) =
          some (store m (stringsStart stack args envs) (bytesOf args ++ bytesOf envs),
            stringsStart stack args envs % 2 ^ 32) := by
  have hfirst := pushStrings_eq hready henv (fun s hs => hfuel s (List.mem_append_right args hs)) (Nat.le_refl _)
    (show stack + (bytesOf (envs.take envs.length)).length ≤ stack + procStackSize by
      rw [List.take_length]; omega) (Nat.le_refl _)
  rw [List.take_length] at hfirst
  have hstart : stack + procStackSize - (bytesOf envs).length =
      stringsStart stack args envs + (bytesOf args).length := by
    unfold stringsStart
    omega
  rw [hstart] at hfirst
  have hsame : SameOutside stack m (store m (stringsStart stack args envs + (bytesOf args).length)
      (bytesOf envs)) := sameOutside_store (by omega) (by omega)
  have hsecond := pushStrings_eq (hready.congr hsame) (hargv.congr hready hsame)
    (fun s hs => hfuel s (List.mem_append_left envs hs)) (Nat.le_refl _)
    (show stack + (bytesOf (args.take args.length)).length ≤
      stringsStart stack args envs + (bytesOf args).length by rw [List.take_length]; omega) (by omega)
  rw [List.take_length, Nat.add_sub_cancel, store_prepend] at hsecond
  exact ⟨_, hfirst, hsecond⟩

theorem length_lt_bytesOf (hs : s ∈ strs) : s.length < (bytesOf strs).length := by
  obtain ⟨l₁, l₂, rfl⟩ := List.append_of_mem hs
  rw [bytesOf, List.flatMap_append, List.flatMap_cons, List.length_append, List.length_append,
    List.length_append, List.length_singleton]
  omega

/-- The places of the arrays. -/
theorem sp_eq (hready : Ready pageDir stack m) (hfits : blockSize args envs ≤ procStackSize) :
    ptrSub (stringsStart stack args envs % 2 ^ 32 - stringsStart stack args envs % 2 ^ 32 % 4)
        (4 * (envs.length + 1)) =
      stack + procStackSize - blockSize args envs + 4 * (args.length + 1) ∧
    ptrSub (stack + procStackSize - blockSize args envs + 4 * (args.length + 1)) (4 * (args.length + 1)) =
      stack + procStackSize - blockSize args envs ∧
    ptrSub pstackBottom (ptrSub stack (stack + procStackSize - blockSize args envs)) =
      toVirtual stack (stack + procStackSize - blockSize args envs) ∧
    toVirtual stack (stack + procStackSize - blockSize args envs) % 4 = 0 := by
  have hsize : procStackSize = 8192 := rfl
  have hbottom : pstackBottom = 2147475456 := rfl
  have haligned := hready.aligned
  have hbelow := hready.below
  unfold ptrSub stringsStart toVirtual
  unfold blockSize at hfits ⊢
  refine ⟨?_, ?_, ?_, ?_⟩
  · omega
  · omega
  · omega
  · omega

/-- **What is built** when everything fits. -/
theorem memExecve_laid (hready : Ready pageDir stack m)
    (hargv : VectorAt pageDir stack m (phy pageDir m argv) args)
    (henv : VectorAt pageDir stack m (phy pageDir m env) envs)
    (hfits : blockSize args envs ≤ procStackSize) (hfuel : procStackSize < fuel) :
    ∃ b, memExecve fuel m pageDir stack argv env = some b ∧ Laid stack m args envs b := by
  have hsize : procStackSize = 8192 := rfl
  have hbottom : pstackBottom = 2147475456 := rfl
  have hbelow := hready.below
  have hblock : 4 * (args.length + 1) + 4 * (envs.length + 1) + ((bytesOf args).length +
      (bytesOf envs).length + 3) / 4 * 4 = blockSize args envs := rfl
  have hargs : ∀ s ∈ args, s.length < fuel := fun s hs => by
    have hlt := length_lt_bytesOf hs
    omega
  have henvs : ∀ s ∈ envs, s.length < fuel := fun s hs => by
    have hlt := length_lt_bytesOf hs
    omega
  have hall : ∀ s ∈ args ++ envs, s.length < fuel := List.forall_mem_append.mpr ⟨hargs, henvs⟩
  obtain ⟨m₁, hpush₁, hpush₂⟩ := pushStrings_both hready hargv henv hall (by omega)
  obtain ⟨hsp₁, hsp₂, hebx, hmod⟩ := sp_eq hready hfits
  have hstart : stringsStart stack args envs + (bytesOf args).length + (bytesOf envs).length =
      stack + procStackSize := by
    unfold stringsStart
    omega
  have hsame₂ : SameOutside stack m (store m (stringsStart stack args envs) (bytesOf args ++ bytesOf envs)) :=
    sameOutside_store (by omega) (by rw [List.length_append]; omega)
  obtain ⟨m₃, hset₃, hout₃, hwords₃⟩ := setupArray_spec (hready.congr hsame₂) (henv.congr hready hsame₂) henvs
    (show stack ≤ stack + procStackSize - blockSize args envs + 4 * (args.length + 1) by omega) (by omega)
    (show toVirtual stack (stringsStart stack args envs + (bytesOf args).length) + (bytesOf envs).length <
      2 ^ 32 by unfold toVirtual; omega) (Nat.le_refl _)
  have hsame₃ : SameOutside stack m m₃ := hsame₂.trans fun x hx => hout₃ x (by omega)
  obtain ⟨m₄, hset₄, hout₄, hwords₄⟩ := setupArray_spec (hready.congr hsame₃) (hargv.congr hready hsame₃) hargs
    (show stack ≤ stack + procStackSize - blockSize args envs by omega) (by omega)
    (show toVirtual stack (stringsStart stack args envs) + (bytesOf args).length < 2 ^ 32 by
      unfold toVirtual; omega) (Nat.le_refl _)
  have hsame₄ : SameOutside stack m m₄ := hsame₃.trans fun x hx => hout₄ x (by omega)
  refine ⟨{ memory := m₄, esp := toVirtual stack (stack + procStackSize - blockSize args envs),
            ecx := args.length, ebx := toVirtual stack (stack + procStackSize - blockSize args envs) },
    ?_, rfl, rfl, rfl, hsame₄, ?_, hwords₄, fun j hj => ?_⟩
  · rw [memExecve, countStrs_eq hargv 0 (Nat.zero_le _) (by omega), countStrs_eq henv 0 (Nat.zero_le _) (by omega)]
    simp only [Option.bind_eq_bind, Option.bind_some, hpush₁, hpush₂, hsp₁, hsp₂, hebx, hset₃, hset₄, hmod,
      Nat.sub_zero, getOffsetdAddr_eq (show stack ≤ stringsStart stack args envs by omega) (by omega),
      getOffsetdAddr_eq (show stack ≤ stringsStart stack args envs + (bytesOf args).length by omega) (by omega)]
  · -- the arrays end below the strings
    refine HasBytes.congr (m := store m (stringsStart stack args envs) (bytesOf args ++ bytesOf envs))
      hasBytes_store fun x hx _ => ?_
    show m₄ x = _
    rw [hout₄ x (by omega), hout₃ x (by omega)]
  · rw [← hwords₃ j hj]
    exact readWord_congr fun i hi => hout₄ _ (by omega)

/-! ### What the program expects -/

namespace Built

/-- A word of the new stack, by its virtual address. -/
def word (b : Built) (stack v : ℕ) : ℕ := readWord b.memory (onStack stack v)

/-- The pointers of the two arrays; the second one begins behind the NULL of the first one. -/
def argPtr (b : Built) (stack i : ℕ) : ℕ := b.word stack (b.ebx + 4 * i)

def envPtr (b : Built) (stack i : ℕ) : ℕ := b.word stack (b.ebx + 4 * (b.ecx + 1) + 4 * i)

end Built

/-- The parts of the block: the two arrays and the strings. -/
inductive Part where
  | argv
  | envp
  | arg (i : ℕ)
  | env (i : ℕ)

namespace Part

def IsPart (args envs : List (List UInt8)) : Part → Prop
  | .arg i => i < args.length
  | .env i => i < envs.length
  | _ => True

def start (stack : ℕ) (b : Built) : Part → ℕ
  | .argv => b.ebx
  | .envp => b.ebx + 4 * (b.ecx + 1)
  | .arg i => b.argPtr stack i
  | .env i => b.envPtr stack i

def size (args envs : List (List UInt8)) : Part → ℕ
  | .argv => 4 * (args.length + 1)
  | .envp => 4 * (envs.length + 1)
  | .arg i => (args.getD i []).length + 1
  | .env i => (envs.getD i []).length + 1

end Part

/-- The arrays end in NULL and point to the strings, `esp` is below them, and nothing overlaps or leaves
the new pages. -/
structure WellFormed (stack : ℕ) (m : Memory) (args envs : List (List UInt8)) (b : Built) : Prop where
  ecx : b.ecx = args.length
  bottom_le : pstackBottom ≤ b.esp
  esp_le : b.esp ≤ b.ebx
  esp_mod : b.esp % 4 = 0
  args_copied : ∀ i (hi : i < args.length), HasBytes b.memory (onStack stack (b.argPtr stack i)) (args[i] ++ [0])
  args_end : b.argPtr stack args.length = 0
  envs_copied : ∀ i (hi : i < envs.length), HasBytes b.memory (onStack stack (b.envPtr stack i)) (envs[i] ++ [0])
  envs_end : b.envPtr stack envs.length = 0
  inside : ∀ p : Part, p.IsPart args envs →
    pstackBottom ≤ p.start stack b ∧ p.start stack b + p.size args envs ≤ kernBase
  apart : ∀ p q : Part, p.IsPart args envs → q.IsPart args envs → p ≠ q →
    p.start stack b + p.size args envs ≤ q.start stack b ∨ q.start stack b + q.size args envs ≤ p.start stack b
  same : SameOutside stack m b.memory

/-- How the call can end; `mem_execve` has no test that lets it fail here. -/
inductive Outcome where
  | started (b : Built)
  | failed (m : Memory)

/-- The block fits and is what the program expects, or the call fails and leaves other memory alone. -/
def ArgumentBlock (m : Memory) (pageDir stack argv env : ℕ) (args envs : List (List UInt8)) : Prop :=
  ∃ fuel₀, ∀ fuel ≥ fuel₀, ∃ outcome,
    (memExecve fuel m pageDir stack argv env).map Outcome.started = some outcome ∧
      match outcome with
      | .started b => blockSize args envs ≤ procStackSize ∧ WellFormed stack m args envs b
      | .failed m' => SameOutside stack m m'

theorem onStack_toVirtual {x : ℕ} (hx : stack ≤ x) : onStack stack (toVirtual stack x) = x := by
  unfold onStack toVirtual
  omega

/-- The string `i` of a row. -/
theorem hasBytes_string (h : HasBytes m a (bytesOf strs)) (hi : i < strs.length) :
    HasBytes m (pointer a strs i) (strs[i] ++ [0]) := by
  have hsplit : bytesOf strs = bytesOf (strs.take i) ++ ((strs[i] ++ [0]) ++ bytesOf (strs.drop (i + 1))) := by
    rw [← bytesOf_cons, ← List.drop_eq_getElem_cons hi, bytesOf, bytesOf, bytesOf, ← List.flatMap_append,
      List.take_append_drop]
  rw [hsplit] at h
  exact h.right.left

theorem toVirtual_pointer {x : ℕ} (hx : stack ≤ x) :
    pointer (toVirtual stack x) strs i = toVirtual stack (pointer x strs i) := by
  unfold pointer toVirtual
  omega

theorem toVirtual_add {x : ℕ} (hx : stack ≤ x) : toVirtual stack x + n = toVirtual stack (x + n) := by
  unfold toVirtual
  omega

/-- The elements of the first array. -/
theorem Laid.argPtr (h : Laid stack m args envs b) (hfits : blockSize args envs ≤ procStackSize)
    (hi : i ≤ args.length) :
    b.argPtr stack i = element (toVirtual stack (stringsStart stack args envs)) args i := by
  rw [Built.argPtr, Built.word, h.ebx, toVirtual_add (by omega), onStack_toVirtual (by omega)]
  exact h.argv i hi

/-- The elements of the second array. -/
theorem Laid.envPtr (h : Laid stack m args envs b) (hfits : blockSize args envs ≤ procStackSize)
    (hi : i ≤ envs.length) : b.envPtr stack i =
      element (toVirtual stack (stringsStart stack args envs + (bytesOf args).length)) envs i := by
  rw [Built.envPtr, Built.word, h.ecx, h.ebx, toVirtual_add (by omega), toVirtual_add (by omega),
    onStack_toVirtual (by omega)]
  exact h.envp i hi

/-- A string lies among the others of its row. -/
theorem pointer_bounds (hi : i < strs.length) :
    head ≤ pointer head strs i ∧ pointer head strs i + (strs[i].length + 1) ≤ head + (bytesOf strs).length := by
  constructor
  · exact Nat.le_add_right _ _
  · rw [← pointer_succ hi, ← pointer_length]
    exact pointer_le hi (Nat.le_refl _)

/-- Two strings of a row. -/
theorem pointer_apart {j : ℕ} (hi : i < strs.length) (hij : i < j) (hj : j < strs.length) :
    pointer head strs i + (strs[i].length + 1) ≤ pointer head strs j := by
  rw [← pointer_succ hi]
  exact pointer_le hij (Nat.le_of_lt hj)

namespace Part

/-- Where a part begins, in the new pages. -/
def place (stack : ℕ) (args envs : List (List UInt8)) : Part → ℕ
  | .argv => stack + procStackSize - blockSize args envs
  | .envp => stack + procStackSize - blockSize args envs + 4 * (args.length + 1)
  | .arg i => pointer (stringsStart stack args envs) args i
  | .env i => pointer (stringsStart stack args envs + (bytesOf args).length) envs i

end Part

theorem size_string (hi : i < strs.length) : (strs.getD i []).length + 1 = strs[i].length + 1 := by
  rw [List.getD_eq_getElem?_getD, List.getElem?_eq_getElem hi, Option.getD_some]

/-- The parts stand in this order: the arrays, the arguments, the environment. -/
theorem stringsStart_bounds (hready : Ready pageDir stack m) (hfits : blockSize args envs ≤ procStackSize) :
    stack ≤ stack + procStackSize - blockSize args envs ∧
      stack + procStackSize - blockSize args envs + 4 * (args.length + 1) + 4 * (envs.length + 1) ≤
        stringsStart stack args envs ∧
      stringsStart stack args envs + (bytesOf args).length + (bytesOf envs).length = stack + procStackSize := by
  have haligned := hready.aligned
  have hsize : procStackSize = 8192 := rfl
  unfold stringsStart
  unfold blockSize at hfits ⊢
  refine ⟨?_, ?_, ?_⟩
  · omega
  · omega
  · omega

theorem Laid.start_eq (h : Laid stack m args envs b) (hready : Ready pageDir stack m)
    (hfits : blockSize args envs ≤ procStackSize) {p : Part} (hp : p.IsPart args envs) :
    p.start stack b = toVirtual stack (p.place stack args envs) := by
  obtain ⟨hlow, hmid, -⟩ := stringsStart_bounds hready hfits
  cases p with
  | argv => exact h.ebx
  | envp =>
    show b.ebx + 4 * (b.ecx + 1) = _
    rw [h.ebx, h.ecx, toVirtual_add hlow]
    rfl
  | arg i =>
    show b.argPtr stack i = _
    rw [h.argPtr hfits (Nat.le_of_lt hp), element_of_lt hp, toVirtual_pointer (by omega)]
    rfl
  | env i =>
    show b.envPtr stack i = _
    rw [h.envPtr hfits (Nat.le_of_lt hp), element_of_lt hp, toVirtual_pointer (by omega)]
    rfl

/-- The parts lie in the new pages. -/
theorem place_inside (hready : Ready pageDir stack m) (hfits : blockSize args envs ≤ procStackSize) {p : Part}
    (hp : p.IsPart args envs) : stack ≤ p.place stack args envs ∧
      p.place stack args envs + p.size args envs ≤ stack + procStackSize := by
  obtain ⟨hlow, hmid, htop⟩ := stringsStart_bounds hready hfits
  cases p with
  | argv =>
    rw [Part.place, Part.size]
    omega
  | envp =>
    rw [Part.place, Part.size]
    omega
  | arg i =>
    have hbounds : stringsStart stack args envs ≤ pointer (stringsStart stack args envs) args i ∧ _ :=
      pointer_bounds hp
    rw [Part.place, Part.size, size_string hp]
    omega
  | env i =>
    have hbounds : stringsStart stack args envs + (bytesOf args).length ≤
      pointer (stringsStart stack args envs + (bytesOf args).length) envs i ∧ _ := pointer_bounds hp
    rw [Part.place, Part.size, size_string hp]
    omega

/-- The order in which the parts stand. -/
def Part.Before : Part → Part → Prop
  | .argv, q => q ≠ .argv
  | .envp, .arg _ => True
  | .envp, .env _ => True
  | .arg i, .arg j => i < j
  | .arg _, .env _ => True
  | .env i, .env j => i < j
  | _, _ => False

theorem Part.before_or {p q : Part} (hne : p ≠ q) : p.Before q ∨ q.Before p := by
  cases p with
  | argv => exact Or.inl hne.symm
  | envp =>
    cases q with
    | argv => exact Or.inr hne
    | envp => exact absurd rfl hne
    | arg j => exact Or.inl trivial
    | env j => exact Or.inl trivial
  | arg i =>
    cases q with
    | argv => exact Or.inr hne
    | envp => exact Or.inr trivial
    | arg j => exact Nat.lt_or_gt_of_ne fun h => hne (congrArg Part.arg h)
    | env j => exact Or.inl trivial
  | env i =>
    cases q with
    | argv => exact Or.inr hne
    | envp => exact Or.inr trivial
    | arg j => exact Or.inr trivial
    | env j => exact Nat.lt_or_gt_of_ne fun h => hne (congrArg Part.env h)

/-- A part ends before the next one begins. -/
theorem place_before (hready : Ready pageDir stack m) (hfits : blockSize args envs ≤ procStackSize) {p q : Part}
    (hp : p.IsPart args envs) (hq : q.IsPart args envs) (hbefore : p.Before q) :
    p.place stack args envs + p.size args envs ≤ q.place stack args envs := by
  obtain ⟨hlow, hmid, htop⟩ := stringsStart_bounds hready hfits
  have harg : ∀ i, stringsStart stack args envs ≤ (Part.arg i).place stack args envs := fun i =>
    Nat.le_add_right _ _
  have henv : ∀ i, stringsStart stack args envs + (bytesOf args).length ≤ (Part.env i).place stack args envs :=
    fun i => Nat.le_add_right _ _
  cases p with
  | argv =>
    have hsize : (Part.argv).place stack args envs + (Part.argv).size args envs =
      stack + procStackSize - blockSize args envs + 4 * (args.length + 1) := rfl
    cases q with
    | argv => exact absurd rfl hbefore
    | envp => exact Nat.le_of_eq hsize
    | arg j =>
      have hj := harg j
      omega
    | env j =>
      have hj := henv j
      omega
  | envp =>
    have hsize : (Part.envp).place stack args envs + (Part.envp).size args envs =
      stack + procStackSize - blockSize args envs + 4 * (args.length + 1) + 4 * (envs.length + 1) := rfl
    cases q with
    | argv => exact hbefore.elim
    | envp => exact hbefore.elim
    | arg j => exact hsize ▸ hmid.trans (harg j)
    | env j => exact hsize ▸ (hmid.trans (Nat.le_add_right _ _)).trans (henv j)
  | arg i =>
    have hsize : (Part.arg i).place stack args envs + (Part.arg i).size args envs =
        pointer (stringsStart stack args envs) args i + (args[i].length + 1) := by
      rw [Part.place, Part.size, size_string hp]
    rw [hsize]
    cases q with
    | argv => exact hbefore.elim
    | envp => exact hbefore.elim
    | arg j => exact pointer_apart hp hbefore hq
    | env j => exact (pointer_bounds hp).2.trans (henv j)
  | env i =>
    have hsize : (Part.env i).place stack args envs + (Part.env i).size args envs =
        pointer (stringsStart stack args envs + (bytesOf args).length) envs i + (envs[i].length + 1) := by
      rw [Part.place, Part.size, size_string hp]
    rw [hsize]
    cases q with
    | argv => exact hbefore.elim
    | envp => exact hbefore.elim
    | arg j => exact hbefore.elim
    | env j => exact pointer_apart hp hbefore hq

/-- **A block that is laid out and has no empty row is what the program expects.** -/
theorem Laid.wellFormed (h : Laid stack m args envs b) (hready : Ready pageDir stack m)
    (hfits : blockSize args envs ≤ procStackSize) (hargs : args ≠ []) (henvs : envs ≠ []) :
    WellFormed stack m args envs b := by
  obtain ⟨hlow, hmid, htop⟩ := stringsStart_bounds hready hfits
  obtain ⟨-, -, -, hmod⟩ := sp_eq hready hfits
  have hkern : pstackBottom + procStackSize = kernBase := rfl
  have hend : ∀ {head : ℕ} {strs : List (List UInt8)}, strs ≠ [] → element head strs strs.length = 0 := by
    intro head strs hstrs
    rw [element, if_neg fun h => hstrs (List.length_eq_zero_iff.mp h), if_pos rfl]
  have hplace : ∀ {p : Part}, p.IsPart args envs →
      stack ≤ p.place stack args envs ∧ p.start stack b = pstackBottom + (p.place stack args envs - stack) :=
    fun hp => ⟨(place_inside hready hfits hp).1, h.start_eq hready hfits hp⟩
  refine ⟨h.ecx, ?_, Nat.le_of_eq h.esp, ?_, fun i hi => ?_, ?_, fun i hi => ?_, ?_, fun p hp => ?_,
    fun p q hp hq hne => ?_, h.same⟩
  · rw [h.esp, h.ebx]
    exact Nat.le_add_right _ _
  · rw [h.esp, h.ebx]
    exact hmod
  · have hi' : (Part.arg i).IsPart args envs := hi
    have hstart : b.argPtr stack i = _ := h.start_eq hready hfits hi'
    rw [hstart, onStack_toVirtual (hplace hi').1]
    exact hasBytes_string h.strings.left hi
  · rw [h.argPtr hfits (Nat.le_refl _)]
    exact hend hargs
  · have hi' : (Part.env i).IsPart args envs := hi
    have hstart : b.envPtr stack i = _ := h.start_eq hready hfits hi'
    rw [hstart, onStack_toVirtual (hplace hi').1]
    exact hasBytes_string h.strings.right hi
  · rw [h.envPtr hfits (Nat.le_refl _)]
    exact hend henvs
  · obtain ⟨hlow', hhigh'⟩ := place_inside hready hfits hp
    rw [(hplace hp).2]
    omega
  · obtain ⟨hlowp, hp'⟩ := hplace hp
    obtain ⟨hlowq, hq'⟩ := hplace hq
    rw [hp', hq']
    rcases Part.before_or hne with hbefore | hbefore
    · have hle := place_before hready hfits hp hq hbefore
      left
      omega
    · have hle := place_before hready hfits hq hp hbefore
      right
      omega

/-- The array of no arguments ends in no NULL. -/
theorem Laid.args_ne_nil (h : Laid stack m args envs b) (hfits : blockSize args envs ≤ procStackSize)
    (hend : b.argPtr stack args.length = 0) : args ≠ [] := by
  intro hnil
  subst hnil
  rw [h.argPtr hfits (Nat.le_refl _)] at hend
  have hbottom : 0 < pstackBottom := by decide
  have helement : 0 < element (toVirtual stack (stringsStart stack [] envs)) [] 0 :=
    Nat.lt_of_lt_of_le hbottom (Nat.le_add_right _ _)
  exact Nat.ne_of_gt helement hend

theorem Laid.envs_ne_nil (h : Laid stack m args envs b) (hfits : blockSize args envs ≤ procStackSize)
    (hend : b.envPtr stack envs.length = 0) : envs ≠ [] := by
  intro hnil
  subst hnil
  rw [h.envPtr hfits (Nat.le_refl _)] at hend
  have hbottom : 0 < pstackBottom := by decide
  have helement : 0 < element (toVirtual stack (stringsStart stack args [] + (bytesOf args).length)) [] 0 :=
    Nat.lt_of_lt_of_le hbottom (Nat.le_add_right _ _)
  exact Nat.ne_of_gt helement hend

/-- What a call has built that ends well. -/
theorem ArgumentBlock.laid (h : ArgumentBlock m pageDir stack argv env args envs) (hready : Ready pageDir stack m)
    (hargv : VectorAt pageDir stack m (phy pageDir m argv) args)
    (henv : VectorAt pageDir stack m (phy pageDir m env) envs) :
    blockSize args envs ≤ procStackSize ∧ ∃ b, Laid stack m args envs b ∧ WellFormed stack m args envs b := by
  obtain ⟨fuel₀, hall⟩ := h
  obtain ⟨outcome, hrun, hblock⟩ := hall (max fuel₀ (procStackSize + 1)) (Nat.le_max_left _ _)
  obtain ⟨b, hb, houtcome⟩ := Option.map_eq_some_iff.mp hrun
  subst houtcome
  obtain ⟨hfits, hwf⟩ := hblock
  have hfuel : procStackSize < max fuel₀ (procStackSize + 1) :=
    Nat.lt_of_lt_of_le (Nat.lt_succ_self _) (Nat.le_max_right _ _)
  obtain ⟨b', hb', hlaid⟩ := memExecve_laid hready hargv henv hfits hfuel
  have hsame : b' = b := Option.some.inj (hb'.symm.trans hb)
  subst hsame
  exact ⟨hfits, b', hlaid, hwf⟩

/-! ### By the addresses of the caller -/

variable {va x : ℕ}

/-- The memory as the caller sees it. -/
def userMemory (pageDir : ℕ) (m : Memory) : Memory := fun va => m (phy pageDir m va)

/-- A vector of strings that the caller passes. -/
structure UserVector (pageDir : ℕ) (m : Memory) (va : ℕ) (strs : List (List UInt8)) : Prop where
  string : ∀ i (hi : i < strs.length), readWord (userMemory pageDir m) (va + 4 * i) ≠ 0 ∧
    HasBytes (userMemory pageDir m) (readWord (userMemory pageDir m) (va + 4 * i)) (strs[i] ++ [0])
  no_nul : ∀ s ∈ strs, ∀ c ∈ s, c ≠ 0
  ends : readWord (userMemory pageDir m) (va + 4 * strs.length) = 0

/-- The pages from an address on are frames behind each other, and none of them is a new one. -/
structure InRow (pageDir stack : ℕ) (m : Memory) (va n : ℕ) : Prop where
  frames : ∀ i < n, phy pageDir m (va + i) = phy pageDir m va + i
  apart : Apart stack (phy pageDir m va) n

/-- The kernel translates the beginning of a vector and of a string only. -/
structure VectorInRow (pageDir stack : ℕ) (m : Memory) (va : ℕ) (strs : List (List UInt8)) : Prop where
  pointers : InRow pageDir stack m va (4 * (strs.length + 1))
  string : ∀ i (hi : i < strs.length),
    InRow pageDir stack m (readWord (userMemory pageDir m) (va + 4 * i)) (strs[i].length + 1)

theorem InRow.readWord (h : InRow pageDir stack m va n) (hx : x + 4 ≤ n) :
    readWord (userMemory pageDir m) (va + x) = readWord m (phy pageDir m va + x) := by
  apply readWord_congr
  intro i hi
  show m (phy pageDir m (va + x + i)) = _
  rw [Nat.add_assoc, h.frames (x + i) (by omega), Nat.add_assoc]

theorem InRow.stringAt (h : InRow pageDir stack m va (s.length + 1))
    (hbytes : HasBytes (userMemory pageDir m) va (s ++ [0])) (hnul : ∀ c ∈ s, c ≠ 0) :
    StringAt stack m (phy pageDir m va) s := by
  refine ⟨fun i hi => ?_, hnul, ?_, h.apart⟩
  · rw [List.length_append, List.length_singleton] at hi
    rw [← h.frames i hi]
    exact hbytes i _
  · have hlast := h.frames s.length (Nat.lt_succ_self _)
    have hlt : phy pageDir m (va + s.length) < 2 ^ 32 := Paging.vir2phy_lt
    omega

/-- What the kernel finds of a vector whose pages lie in a row. -/
theorem UserVector.vectorAt (h : UserVector pageDir m va strs) (hrow : VectorInRow pageDir stack m va strs) :
    VectorAt pageDir stack m (phy pageDir m va) strs := by
  refine ⟨fun i hi => ?_, ?_, hrow.pointers.apart⟩
  · obtain ⟨hword, hbytes⟩ := h.string i hi
    have hstring := (hrow.string i hi).stringAt hbytes (h.no_nul _ (List.getElem_mem hi))
    rw [hrow.pointers.readWord (by omega)] at hword hstring
    exact ⟨hword, hstring⟩
  · rw [← hrow.pointers.readWord (by omega)]
    exact h.ends

/-- **When the new stack is what the program expects**: no row is empty, and everything fits. -/
theorem argumentBlock_iff (m : Memory) (pageDir stack argv env : ℕ) (args envs : List (List UInt8))
    (hready : Ready pageDir stack m) (hargv : UserVector pageDir m argv args) (henv : UserVector pageDir m env envs)
    (hargvRow : VectorInRow pageDir stack m argv args) (henvRow : VectorInRow pageDir stack m env envs) :
    ArgumentBlock m pageDir stack argv env args envs ↔
      args ≠ [] ∧ envs ≠ [] ∧ blockSize args envs ≤ procStackSize := by
  have hargs := hargv.vectorAt hargvRow
  have henvs := henv.vectorAt henvRow
  constructor
  · intro h
    obtain ⟨hfits, b, hlaid, hwf⟩ := h.laid hready hargs henvs
    exact ⟨hlaid.args_ne_nil hfits hwf.args_end, hlaid.envs_ne_nil hfits hwf.envs_end, hfits⟩
  · intro h
    obtain ⟨hargsNil, henvsNil, hfits⟩ := h
    refine ⟨procStackSize + 1, fun fuel hfuel => ?_⟩
    obtain ⟨b, hb, hlaid⟩ := memExecve_laid hready hargs henvs hfits hfuel
    refine ⟨.started b, ?_, hfits, hlaid.wellFormed hready hfits hargsNil henvsNil⟩
    rw [hb]
    rfl

/-! ### A caller with large pages -/

/-- Page tables that are nowhere but in the page directory. -/
theorem Ready.of_large (haligned : stack % 4096 = 0) (hbelow : stack + procStackSize ≤ 2 ^ 32)
    (hapart : Apart stack pageDir 4096) (hlarge : ∀ k < 1024, Paging.present (readWord m (pageDir + 4 * k)) = false ∨
      Paging.large (readWord m (pageDir + 4 * k)) = true) : Ready pageDir stack m := by
  refine ⟨haligned, hbelow, fun m' hsame va => ?_⟩
  have hk : va / 2 ^ 22 % 2 ^ 10 < 1024 := Nat.mod_lt _ (by decide)
  have hpde : Paging.pdeOf (readWord m') pageDir va = Paging.pdeOf (readWord m) pageDir va :=
    (hsame.agreeOn hapart).readWord (by omega)
  have hentry : Paging.present (Paging.pdeOf (readWord m) pageDir va) = false ∨
      Paging.large (Paging.pdeOf (readWord m) pageDir va) = true := hlarge _ hk
  rw [phy, phy, Paging.vir2phy, Paging.vir2phy, hpde]
  rcases hentry with hnot | hpage
  · rw [if_pos hnot, if_pos hnot]
  · rw [if_pos hpage, if_pos hpage]

/-- The first four megabytes as they are; vectors at `0x2000` of the one string at `0x3000` and at `0x5000` of
that and the one at `0x6000`, and an empty one at `0x4000`. -/
def callerMemory : Memory := fun x =>
  if x = 0x1000 then 0x83 else if x = 0x2001 then 0x30 else if x = 0x3000 then 97
  else if x = 0x5001 then 0x30 else if x = 0x5005 then 0x60 else if x = 0x6000 then 98
  else if x = 0x6001 then 99 else 0

theorem callerMemory_word (hlow : 0x1000 < a) (hhigh : a + 4 ≤ 0x2001) : readWord callerMemory a = 0 := by
  have hbyte : ∀ i < 4, callerMemory (a + i) = 0 := by
    intro i hi
    unfold callerMemory
    rw [if_neg (by omega), if_neg (by omega), if_neg (by omega), if_neg (by omega), if_neg (by omega),
      if_neg (by omega), if_neg (by omega)]
  have h₀ := hbyte 0 (by decide)
  rw [Nat.add_zero] at h₀
  rw [readWord, h₀, hbyte 1 (by decide), hbyte 2 (by decide), hbyte 3 (by decide)]
  rfl

theorem callerMemory_entry : readWord callerMemory 0x1000 = 0x83 := by decide

theorem callerMemory_ready : Ready 0x1000 0x10000 callerMemory := by
  refine Ready.of_large rfl (by decide) (Or.inl (by decide)) fun k hk => ?_
  rcases Nat.eq_zero_or_pos k with hzero | hpos
  · right
    rw [hzero, Nat.mul_zero, Nat.add_zero, callerMemory_entry]
    rfl
  · left
    rw [callerMemory_word (by omega) (by omega)]
    rfl

theorem callerMemory_phy (hva : va < 2 ^ 22) : phy 0x1000 callerMemory va = va := by
  have hpde : Paging.pdeOf (readWord callerMemory) 0x1000 va = 0x83 := by
    rw [Paging.pdeOf, Nat.div_eq_of_lt hva]
    exact callerMemory_entry
  rw [phy, Paging.vir2phy, hpde]
  show (0 + va % 2 ^ 22) % 2 ^ 32 = va
  omega

theorem callerMemory_inRow (hva : va < 2 ^ 22) (hend : va + n ≤ 2 ^ 22) (hapart : Apart 0x10000 va n) :
    InRow 0x1000 0x10000 callerMemory va n := by
  refine ⟨fun i hi => ?_, ?_⟩
  · rw [callerMemory_phy (by omega), callerMemory_phy hva]
  · rw [callerMemory_phy hva]
    exact hapart

theorem callerMemory_readWord (hva : va + 4 ≤ 2 ^ 22) :
    readWord (userMemory 0x1000 callerMemory) va = readWord callerMemory va := by
  apply readWord_congr
  intro i hi
  show callerMemory (phy 0x1000 callerMemory (va + i)) = _
  rw [callerMemory_phy (by omega)]

/-- A vector of the caller, with the pointers `p`. -/
theorem callerMemory_vector (p : ℕ → ℕ) (hva : va + 4 * (strs.length + 1) ≤ 0x10000)
    (hword : ∀ i < strs.length, readWord callerMemory (va + 4 * i) = p i)
    (hend : readWord callerMemory (va + 4 * strs.length) = 0)
    (hp : ∀ i (hi : i < strs.length), p i ≠ 0 ∧ p i + (strs[i].length + 1) ≤ 0x10000 ∧
      HasBytes callerMemory (p i) (strs[i] ++ [0]))
    (hnul : ∀ s ∈ strs, ∀ c ∈ s, c ≠ 0) :
    UserVector 0x1000 callerMemory va strs ∧ VectorInRow 0x1000 0x10000 callerMemory va strs := by
  have hread : ∀ i ≤ strs.length, readWord (userMemory 0x1000 callerMemory) (va + 4 * i) =
      readWord callerMemory (va + 4 * i) := fun i hi => callerMemory_readWord (by omega)
  refine ⟨⟨fun i hi => ?_, hnul, ?_⟩, callerMemory_inRow (by omega) (by omega) (Or.inl hva), fun i hi => ?_⟩
  · obtain ⟨hne, hbelow, hbytes⟩ := hp i hi
    rw [hread i hi.le, hword i hi]
    refine ⟨hne, fun j hj => ?_⟩
    have hlt : j < strs[i].length + 1 := by simpa using hj
    show callerMemory (phy 0x1000 callerMemory (p i + j)) = _
    rw [callerMemory_phy (by omega)]
    exact hbytes j hj
  · rw [hread _ (Nat.le_refl _)]
    exact hend
  · obtain ⟨-, hbelow, -⟩ := hp i hi
    rw [hread i hi.le, hword i hi]
    exact callerMemory_inRow (by omega) (by omega) (Or.inl hbelow)

theorem callerMemory_empty : UserVector 0x1000 callerMemory 0x4000 [] ∧
    VectorInRow 0x1000 0x10000 callerMemory 0x4000 [] :=
  callerMemory_vector (fun _ => 0) (by decide) (fun i hi => absurd hi (Nat.not_lt_zero i)) (by decide)
    (fun i hi => absurd hi (Nat.not_lt_zero i)) fun s hs => absurd hs List.not_mem_nil

theorem callerMemory_hasBytes : HasBytes callerMemory 0x3000 [97, 0] ∧ HasBytes callerMemory 0x6000 [98, 99, 0] :=
  ⟨by unfold HasBytes; decide, by unfold HasBytes; decide⟩

theorem callerMemory_one : UserVector 0x1000 callerMemory 0x2000 [[97]] ∧
    VectorInRow 0x1000 0x10000 callerMemory 0x2000 [[97]] := by
  refine callerMemory_vector (fun _ => 0x3000) (by decide) (fun i hi => ?_) (by decide) (fun i hi => ?_)
    (by decide +kernel)
  · obtain rfl := Nat.lt_one_iff.mp hi
    decide
  · obtain rfl := Nat.lt_one_iff.mp hi
    exact ⟨by decide, show 0x3000 + 2 ≤ 0x10000 by decide, callerMemory_hasBytes.1⟩

theorem callerMemory_two : UserVector 0x1000 callerMemory 0x5000 [[97], [98, 99]] ∧
    VectorInRow 0x1000 0x10000 callerMemory 0x5000 [[97], [98, 99]] := by
  refine callerMemory_vector (fun i => if i = 0 then 0x3000 else 0x6000) (by decide) (fun i hi => ?_) (by decide)
    (fun i hi => ?_) (by decide +kernel)
  · obtain rfl | rfl : i = 0 ∨ i = 1 := Nat.le_one_iff_eq_zero_or_eq_one.mp (Nat.lt_succ_iff.mp hi)
    · decide
    · decide
  · obtain rfl | rfl : i = 0 ∨ i = 1 := Nat.le_one_iff_eq_zero_or_eq_one.mp (Nat.lt_succ_iff.mp hi)
    · exact ⟨by decide, show 0x3000 + 2 ≤ 0x10000 by decide, callerMemory_hasBytes.1⟩
    · exact ⟨by decide, show 0x6000 + 3 ≤ 0x10000 by decide, callerMemory_hasBytes.2⟩

/-- Two arguments and one string of the environment. -/
theorem argumentBlock_two :
    ArgumentBlock callerMemory 0x1000 0x10000 0x5000 0x2000 [[97], [98, 99]] [[97]] :=
  (argumentBlock_iff callerMemory 0x1000 0x10000 0x5000 0x2000 [[97], [98, 99]] [[97]] callerMemory_ready
    callerMemory_two.1 callerMemory_one.1 callerMemory_two.2 callerMemory_one.2).mpr
    ⟨by decide, by decide, by decide⟩

/-- **No arguments**: the first element of the array is the only one, and it is no NULL. -/
theorem noArguments_noNull : Ready 0x1000 0x10000 callerMemory ∧
    UserVector 0x1000 callerMemory 0x4000 [] ∧ VectorInRow 0x1000 0x10000 callerMemory 0x4000 [] ∧
    UserVector 0x1000 callerMemory 0x2000 [[97]] ∧ VectorInRow 0x1000 0x10000 callerMemory 0x2000 [[97]] ∧
    ¬ ArgumentBlock callerMemory 0x1000 0x10000 0x4000 0x2000 [] [[97]] := by
  have hempty := callerMemory_empty
  have hone := callerMemory_one
  refine ⟨callerMemory_ready, hempty.1, hempty.2, hone.1, hone.2, fun h => ?_⟩
  obtain ⟨hfits, b, hlaid, hwf⟩ := h.laid callerMemory_ready (hempty.1.vectorAt hempty.2) (hone.1.vectorAt hone.2)
  exact hlaid.args_ne_nil hfits hwf.args_end rfl

end OmochaOS.Execve
