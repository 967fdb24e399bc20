import Mathlib.Algebra.Order.Ring.Nat
import Mathlib.Logic.Function.Basic
import Mathlib.Tactic.Common
import OmochaOS.Lib.RedBlackTree

/-!
# The nodes of a red-black tree and the functions on them

`lib/rbtree.c` keeps a tree in nodes that lie anywhere in memory: the store is a map from addresses to
nodes, and a pointer is an address, `0` for NULL.  The pointer to the parent and the colour share a
word, the colour in the two lowest bits.  A function that goes through a NULL pointer ends in
`Fault.null`, unless the page at address `0` is mapped; loops and recursions carry fuel.

The functions that come in a left and a right version are one definition each, with the side as an
argument.  The pointer to the tree itself is never NULL, so the test `rb_tree &&` of `rb_transplant` is
left out, and functions that return their own argument return the store only.
-/

namespace OmochaOS.Rbtree

open RedBlack

/-- `rb_node`. -/
structure RbNode where
  key : ℕ
  parentAndColor : ℕ
  L : ℕ
  R : ℕ

/-- The nodes in memory, and `rb_tree`.  Where the first page of memory is mapped, following a NULL
pointer gets to it like to any other; elsewhere it is a fault. -/
structure RbTree where
  node : ℕ → RbNode
  root : ℕ
  nullMapped : Bool

inductive Fault
  | null
  | fuel
deriving DecidableEq

def RB_BLACK : ℕ := 0

def RB_RED : ℕ := 1

/-- What a colour is in the two lowest bits. -/
def code : Color → ℕ
  | .black => RB_BLACK
  | .red => RB_RED

/-! ### The packed word -/

def pointerMask : ℕ := 0xFFFFFFFC

def colorMask : ℕ := 0x00000003

/-- A node is aligned to 16 bytes in 32-bit memory. -/
structure Aligned (p : ℕ) : Prop where
  dvd : p % 16 = 0
  lt : p < 2 ^ 32

theorem aligned_zero : Aligned 0 := ⟨rfl, by decide⟩

theorem Aligned.mask {p : ℕ} (h : Aligned p) : p &&& pointerMask = p := by
  obtain ⟨q, rfl⟩ : ∃ q, p = q <<< 2 := ⟨p / 4, by
    have := h.dvd
    rw [Nat.shiftLeft_eq]
    omega⟩
  have hlt := h.lt
  have hq : q < 2 ^ 30 := by
    rw [Nat.shiftLeft_eq] at hlt
    omega
  have hmask : pointerMask = (2 ^ 30 - 1) <<< 2 := by decide
  rw [hmask, ← Nat.shiftLeft_and_distrib, Nat.and_two_pow_sub_one_of_lt_two_pow hq]

theorem Aligned.color {p : ℕ} (h : Aligned p) : p &&& colorMask = 0 := by
  have hcolor : colorMask = 2 ^ 2 - 1 := rfl
  have := h.dvd
  rw [hcolor, Nat.and_two_pow_sub_one_eq_mod]
  omega

theorem code_mask (c : Color) : code c &&& colorMask = code c := by cases c <;> rfl

theorem code_pointer (c : Color) : code c &&& pointerMask = 0 := by cases c <;> rfl

theorem code_injective : Function.Injective code := by
  intro c d h
  cases c <;> cases d <;> first | rfl | cases h

@[simp] theorem code_eq_red {c : Color} : code c = RB_RED ↔ c = .red := code_injective.eq_iff (b := .red)

@[simp] theorem code_eq_black {c : Color} : code c = RB_BLACK ↔ c = .black :=
  code_injective.eq_iff (b := .black)

namespace RbTree

/-! ### Fields read and written -/

/-- `p->L` or `p->R`. -/
def child (h : RbTree) : Side → ℕ → ℕ
  | .left, p => (h.node p).L
  | .right, p => (h.node p).R

def key (h : RbTree) (p : ℕ) : ℕ := (h.node p).key

/-- `GET_PARENT`. -/
def parent (h : RbTree) (p : ℕ) : ℕ := (h.node p).parentAndColor &&& pointerMask

/-- `GET_COLOR`. -/
def color (h : RbTree) (p : ℕ) : ℕ := (h.node p).parentAndColor &&& colorMask

def write (h : RbTree) (p : ℕ) (n : RbNode) : RbTree :=
  { h with node := Function.update h.node p n }

def setChild (h : RbTree) : Side → ℕ → ℕ → RbTree
  | .left, p, q => h.write p { h.node p with L := q }
  | .right, p, q => h.write p { h.node p with R := q }

/-- `SET_PARENT`. -/
def setParent (h : RbTree) (p q : ℕ) : RbTree :=
  h.write p { h.node p with
    parentAndColor := ((h.node p).parentAndColor &&& colorMask) ||| q }

/-- `SET_COLOR`. -/
def setColor (h : RbTree) (p c : ℕ) : RbTree :=
  h.write p { h.node p with
    parentAndColor := ((h.node p).parentAndColor &&& pointerMask) ||| c }

def setRoot (h : RbTree) (p : ℕ) : RbTree := { h with root := p }

variable {h : RbTree} {s u : Side} {p q y : ℕ} {c : Color}

@[simp] theorem node_write {n : RbNode} :
    (h.write p n).node y = if y = p then n else h.node y := by
  rw [write]
  exact Function.update_apply h.node p n y

@[simp] theorem root_write {n : RbNode} : (h.write p n).root = h.root := rfl

@[simp] theorem root_setChild : (h.setChild s p q).root = h.root := by cases s <;> rfl

@[simp] theorem root_setParent : (h.setParent p q).root = h.root := rfl

@[simp] theorem root_setColor {c : ℕ} : (h.setColor p c).root = h.root := rfl

@[simp] theorem nullMapped_setChild : (h.setChild s p q).nullMapped = h.nullMapped := by
  cases s <;> rfl

@[simp] theorem nullMapped_setRoot : (h.setRoot p).nullMapped = h.nullMapped := rfl

@[simp] theorem root_setRoot : (h.setRoot p).root = p := rfl

@[simp] theorem child_setChild :
    (h.setChild s p q).child u y = if y = p ∧ u = s then q else h.child u y := by
  by_cases hy : y = p
  · subst hy
    cases s <;> cases u <;> simp [setChild, child]
  · cases s <;> cases u <;> simp [setChild, child, hy]

@[simp] theorem child_setParent : (h.setParent p q).child u y = h.child u y := by
  by_cases hy : y = p
  · subst hy
    cases u <;> simp [setParent, child]
  · cases u <;> simp [setParent, child, hy]

@[simp] theorem child_setColor {c : ℕ} : (h.setColor p c).child u y = h.child u y := by
  by_cases hy : y = p
  · subst hy
    cases u <;> simp [setColor, child]
  · cases u <;> simp [setColor, child, hy]

@[simp] theorem child_setRoot : (h.setRoot p).child u y = h.child u y := by cases u <;> rfl

@[simp] theorem parent_setChild : (h.setChild s p q).parent y = h.parent y := by
  by_cases hy : y = p
  · subst hy
    cases s <;> simp [setChild, parent]
  · cases s <;> simp [setChild, parent, hy]

theorem parent_setParent (hq : Aligned q) :
    (h.setParent p q).parent y = if y = p then q else h.parent y := by
  by_cases hy : y = p
  · subst hy
    have hmask : colorMask &&& pointerMask = 0 := rfl
    simp only [setParent, parent, node_write, if_true]
    rw [Nat.and_or_distrib_right, Nat.and_assoc, hmask, hq.mask, Nat.and_zero, Nat.zero_or]
  · simp [setParent, parent, hy]

@[simp] theorem parent_setColor : (h.setColor p (code c)).parent y = h.parent y := by
  by_cases hy : y = p
  · subst hy
    simp only [setColor, parent, node_write, if_true]
    rw [Nat.and_or_distrib_right, Nat.and_assoc, Nat.and_self, code_pointer, Nat.or_zero]
  · simp [setColor, parent, hy]

@[simp] theorem parent_setRoot : (h.setRoot p).parent y = h.parent y := rfl

@[simp] theorem color_setChild : (h.setChild s p q).color y = h.color y := by
  by_cases hy : y = p
  · subst hy
    cases s <;> simp [setChild, color]
  · cases s <;> simp [setChild, color, hy]

theorem color_setParent (hq : Aligned q) : (h.setParent p q).color y = h.color y := by
  by_cases hy : y = p
  · subst hy
    simp only [setParent, color, node_write, if_true]
    rw [Nat.and_or_distrib_right, Nat.and_assoc, Nat.and_self, hq.color, Nat.or_zero]
  · simp [setParent, color, hy]

@[simp] theorem color_setColor :
    (h.setColor p (code c)).color y = if y = p then code c else h.color y := by
  by_cases hy : y = p
  · subst hy
    have hmask : pointerMask &&& colorMask = 0 := rfl
    simp only [setColor, color, node_write, if_true]
    rw [Nat.and_or_distrib_right, Nat.and_assoc, hmask, code_mask, Nat.and_zero, Nat.zero_or]
  · simp [setColor, color, hy]

@[simp] theorem color_setRoot : (h.setRoot p).color y = h.color y := rfl

@[simp] theorem key_setChild : (h.setChild s p q).key = h.key := by
  funext y
  by_cases hy : y = p
  · subst hy
    cases s <;> simp [setChild, key]
  · cases s <;> simp [setChild, key, hy]

@[simp] theorem key_setParent : (h.setParent p q).key = h.key := by
  funext y
  by_cases hy : y = p
  · subst hy
    simp [setParent, key]
  · simp [setParent, key, hy]

@[simp] theorem key_setColor {c : ℕ} : (h.setColor p c).key = h.key := by
  funext y
  by_cases hy : y = p
  · subst hy
    simp [setColor, key]
  · simp [setColor, key, hy]

@[simp] theorem key_setRoot : (h.setRoot p).key = h.key := rfl

end RbTree

/-! ### The functions -/

/-- The pointer `p` is followed. -/
def deref {β : Type*} (h : RbTree) (p : ℕ) (v : β) : Except Fault β :=
  if p = 0 ∧ h.nullMapped = false then .error .null else .ok v

theorem deref_null {β : Type*} {h : RbTree} {v : β} (hnull : h.nullMapped = false) :
    deref h 0 v = .error .null := if_pos ⟨rfl, hnull⟩

theorem deref_mapped {β : Type*} {h : RbTree} {p : ℕ} {v : β} (hnull : h.nullMapped = true) :
    deref h p v = .ok v := if_neg (by rw [hnull]; simp)

theorem deref_of_ne {β : Type*} {h : RbTree} {p : ℕ} {v : β} (hp : p ≠ 0) : deref h p v = .ok v :=
  if_neg fun hc => hp hc.1

theorem deref_bind {β γ : Type} {h : RbTree} {p : ℕ} {v : β} {f : β → Except Fault γ} (hp : p ≠ 0) :
    (deref h p v >>= f) = f v := by
  rw [deref_of_ne hp]
  rfl

/-- `rb_search`. -/
def rbSearch : ℕ → RbTree → ℕ → ℕ → Except Fault ℕ
  | 0, _, _, _ => .error .fuel
  | fuel + 1, h, x, key =>
    if x = 0 then .ok 0
    else if h.key x = key then .ok x
    else if key < h.key x then rbSearch fuel h (h.child .left x) key
    else rbSearch fuel h (h.child .right x) key

/-- `rb_detach`. -/
def rbDetach (h : RbTree) (x : ℕ) : Except Fault RbTree := do
  let p ← deref h x (h.parent x)
  if p = 0 then deref h x (h.setParent x 0)
  else if h.child .left p = x then deref h x ((h.setChild .left p 0).setParent x 0)
  else deref h x ((h.setChild .right p 0).setParent x 0)

/-- The end of `rb_transplant`. -/
def setParentLike (h : RbTree) (dst src : ℕ) : Except Fault RbTree := do
  let p ← deref h dst (h.parent dst)
  deref h src (h.setParent src p)

/-- `rb_transplant`. -/
def rbTransplant (h : RbTree) (dst src : ℕ) : Except Fault RbTree := do
  if h.root = dst then setParentLike (h.setRoot src) dst src
  else
    let p ← deref h dst (h.parent dst)
    let right ← deref h p (h.child .right p)
    if dst = right then setParentLike (h.setChild .right p src) dst src
    else if dst = h.child .left p then setParentLike (h.setChild .left p src) dst src
    else setParentLike h dst src

/-- A rotation to the side `s`: the child on the other side goes up. -/
def rbRotate (s : Side) (h : RbTree) (x : ℕ) : Except Fault RbTree := do
  let a ← deref h x (h.child s.other x)
  if a = 0 then pure h
  else
    let h ← rbDetach h a
    let h ← rbTransplant h x a
    let b ← deref h a (h.child s a)
    if b ≠ 0 then
      let h ← rbDetach h b
      let h ← deref h x ((h.setChild s a x).setParent x a)
      deref h b ((h.setChild s.other x b).setParent b x)
    else deref h x ((h.setChild s a x).setParent x a)

/-- `rb_left_rotate`. -/
def rbLeftRotate : RbTree → ℕ → Except Fault RbTree := rbRotate .left

/-- `rb_right_rotate`. -/
def rbRightRotate : RbTree → ℕ → Except Fault RbTree := rbRotate .right

/-- The parent is on the side `s` of the grandparent, and the uncle is not red. -/
def rbInsertRotate (s : Side) (h : RbTree) (n parent grand : ℕ) : Except Fault RbTree := do
  if h.child s parent = n then
    rbRotate s.other ((h.setColor parent RB_BLACK).setColor grand RB_RED) grand
  else
    let h ← rbRotate s ((h.setColor n RB_BLACK).setColor grand RB_RED) parent
    rbRotate s.other h grand

/-- `rb_insert_fixup`. -/
def rbInsertFixup : ℕ → RbTree → ℕ → Except Fault RbTree
  | 0, _, _ => .error .fuel
  | fuel + 1, h, n => do
    let parent ← deref h n (h.parent n)
    if parent = 0 then pure (h.setColor n RB_BLACK)
    else if h.color parent = RB_BLACK then pure h
    else
      let grand := h.parent parent
      let right ← deref h grand (h.child .right grand)
      let uncle := if right = parent then h.child .left grand else right
      if uncle ≠ 0 ∧ h.color uncle = RB_RED then
        rbInsertFixup fuel
          (((h.setColor parent RB_BLACK).setColor uncle RB_BLACK).setColor grand RB_RED) grand
      else if h.child .left grand = parent then rbInsertRotate .left h n parent grand
      else rbInsertRotate .right h n parent grand

/-- The descent of `rb_insert` from `x`, and the link to `n`: the last node of it, or `none` where the
key exists. -/
def rbInsertBst : ℕ → RbTree → ℕ → ℕ → Except Fault (Option (RbTree × ℕ))
  | 0, _, _, _ => .error .fuel
  | fuel + 1, h, n, x =>
    if x = 0 then .ok (some (h, x))
    else if h.key x = h.key n then .ok none
    else if h.key n < h.key x then
      if h.child .left x = 0 then .ok (some (h.setChild .left x n, x))
      else rbInsertBst fuel h n (h.child .left x)
    else if h.child .right x = 0 then .ok (some (h.setChild .right x n, x))
    else rbInsertBst fuel h n (h.child .right x)

/-- The end of `rb_insert`: `n` is below `x`. -/
def rbInsertEnd (fuel : ℕ) (h : RbTree) (n x : ℕ) : Except Fault (RbTree × ℕ) := do
  let h ← deref h n (h.setParent n x)
  let h ← rbInsertFixup fuel h n
  let h ← deref h h.root (h.setColor h.root RB_BLACK)
  pure (h, 0)

/-- `rb_insert`. -/
def rbInsert (fuel : ℕ) (h : RbTree) (n : ℕ) : Except Fault (RbTree × ℕ) := do
  let h ← deref h n (h.setColor n RB_RED)
  if h.root = 0 then rbInsertEnd fuel (h.setRoot n) n 0
  else
    match ← rbInsertBst fuel h n h.root with
    | none => pure (h, 1)
    | some (h, x) => rbInsertEnd fuel h n x

/-- `while (x->L) x = x->L`. -/
def leftmost : ℕ → RbTree → ℕ → Except Fault ℕ
  | 0, _, _ => .error .fuel
  | fuel + 1, h, x => do
    let l ← deref h x (h.child .left x)
    if l = 0 then pure x else leftmost fuel h l

/-- The way up in `rb_succ`, from the node `n` with the parent `p`. -/
def firstAbove : ℕ → RbTree → ℕ → ℕ → Except Fault ℕ
  | 0, _, _, _ => .error .fuel
  | fuel + 1, h, n, p =>
    if p ≠ 0 ∧ n = h.child .right p then firstAbove fuel h p (h.parent p) else .ok p

/-- `rb_succ`. -/
def rbSucc (fuel : ℕ) (h : RbTree) (n : ℕ) : Except Fault ℕ := do
  let r ← deref h n (h.child .right n)
  if r ≠ 0 then leftmost fuel h r else firstAbove fuel h n (h.parent n)

/-- `!p || GET_COLOR(p) == RB_BLACK`. -/
def BlackOrNull (h : RbTree) (p : ℕ) : Prop := p = 0 ∨ h.color p = RB_BLACK

instance (h : RbTree) (p : ℕ) : Decidable (BlackOrNull h p) := inferInstanceAs (Decidable (_ ∨ _))

/-- `if (n) SET_COLOR(n, RB_BLACK)`. -/
def blacken (h : RbTree) (n : ℕ) : RbTree := if n = 0 then h else h.setColor n RB_BLACK

/-- A red brother is painted black and goes up. -/
def rbRedBrother (s : Side) (h : RbTree) (parent : ℕ) : Except Fault RbTree := do
  let other ← deref h parent (h.child s.other parent)
  let color ← deref h other (h.color other)
  if color = RB_RED then
    rbRotate s ((h.setColor other RB_BLACK).setColor parent RB_RED) parent
  else pure h

/-- Where the far nephew is not red, the near one goes up. -/
def rbNearNephew (s : Side) (h : RbTree) (parent : ℕ) : Except Fault RbTree := do
  let other := h.child s.other parent
  if BlackOrNull h (h.child s.other other) then
    let near := h.child s other
    let h ← deref h near (h.setColor near RB_BLACK)
    rbRotate s.other (h.setColor other RB_RED) other
  else pure h

/-- The last rotation of `rb_remove_fixup`. -/
def rbFarNephew (s : Side) (h : RbTree) (parent : ℕ) : Except Fault RbTree := do
  let other := h.child s.other parent
  let h ← deref h other (h.setColor other (h.color parent))
  let h := h.setColor parent RB_BLACK
  let far := h.child s.other other
  let h ← deref h far (h.setColor far RB_BLACK)
  rbRotate s h parent

/-- The part of a round of `rb_remove_fixup` where the brother is black. -/
def rbBlackBrother (s : Side) (h : RbTree) (parent : ℕ)
    (loop : RbTree → ℕ → ℕ → Except Fault RbTree) : Except Fault RbTree := do
  let other := h.child s.other parent
  let near ← deref h other (h.child s other)
  if BlackOrNull h near ∧ BlackOrNull h (h.child s.other other) then
    let h := h.setColor other RB_RED
    loop h parent (h.parent parent)
  else
    let h ← rbNearNephew s h parent
    let h ← rbFarNephew s h parent
    pure (blacken h h.root)

/-- One round of `rb_remove_fixup` for a node on the side `s` of `parent`. -/
def rbRemoveRound (s : Side) (h : RbTree) (parent : ℕ) (loop : RbTree → ℕ → ℕ → Except Fault RbTree) :
    Except Fault RbTree := do
  let h ← rbRedBrother s h parent
  rbBlackBrother s h parent loop

/-- `rb_remove_fixup`. -/
def rbRemoveFixup : ℕ → RbTree → ℕ → ℕ → Except Fault RbTree
  | 0, _, _, _ => .error .fuel
  | fuel + 1, h, n, parent => do
    if BlackOrNull h n ∧ n ≠ h.root then
      let left ← deref h parent (h.child .left parent)
      if left = n then rbRemoveRound .left h parent (rbRemoveFixup fuel)
      else rbRemoveRound .right h parent (rbRemoveFixup fuel)
    else pure (blacken h n)

/-- The successor `r` of `n` gets the right subtree of `n`, without itself. -/
def rbTakeRight (h : RbTree) (n r : ℕ) : Except Fault RbTree := do
  let child ← deref h r (h.child .right r)
  if h.parent r = n then
    if child ≠ 0 then pure (h.setParent child r) else pure h
  else
    let h ← rbTransplant h r child
    let h := h.setChild .right r (h.child .right n)
    deref h (h.child .right r) (h.setParent (h.child .right r) r)

/-- Then it gets the place, the left subtree and the colour of `n`. -/
def rbTakePlace (h : RbTree) (n r : ℕ) : Except Fault RbTree := do
  let h ← rbTransplant h n r
  let h := h.setChild .left r (h.child .left n)
  let h ← deref h (h.child .left r) (h.setParent (h.child .left r) r)
  pure (h.setColor r (h.color n))

/-- The successor `r` is put into the place of `n`. -/
def rbReplace (h : RbTree) (n r : ℕ) : Except Fault RbTree := do
  let h ← rbTakeRight h n r
  rbTakePlace h n r

/-- `rb_remove`. -/
def rbRemove (fuel : ℕ) (h : RbTree) (n : ℕ) : Except Fault RbTree := do
  let color ← deref h n (h.color n)
  if h.child .left n = 0 then
    let child := h.child .right n
    let h ← rbTransplant h n child
    if color = RB_BLACK then rbRemoveFixup fuel h child n else pure h
  else if h.child .right n = 0 then
    let child := h.child .left n
    let h ← rbTransplant h n child
    if color = RB_BLACK then rbRemoveFixup fuel h child n else pure h
  else
    let r ← rbSucc fuel h n
    let color ← deref h r (h.color r)
    let child := h.child .right r
    let h ← rbReplace h n r
    if color = RB_BLACK then rbRemoveFixup fuel h child r else pure h

end OmochaOS.Rbtree
