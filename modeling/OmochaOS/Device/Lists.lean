import OmochaOS.Lib.IntrusiveList
import OmochaOS.Lib.TransitionRun
import OmochaOS.Rbtree.Fuel

/-!
# The lists of devices (`modules/device/dev.c`)

The entries of `impl_list` are linked into a list of free ones and a list of used ones, with one `next`
for both.  A `DeviceImpl *` is an index of `impl_list`, a `DeviceRequest *` the address that `kmalloc`
gave, the null pointer is `none`.

`init_impl_list` clears one entry more than there is room for, and `register_device_impl` cuts the list
of used entries behind the one it adds.  What the two leave of the lists is said by `Kept`.
-/

namespace OmochaOS.Device

open IntrusiveList TransitionRun OmochaOS.Rbtree

/-- `DeviceRequest`. -/
structure DeviceRequest where
  appPid : ℕ
  implPid : ℕ
  type : ℕ
  next : Option ℕ

/-- `DeviceImpl_Register_Struct`. -/
structure DeviceImplRegisterStruct where
  deviceName : List UInt8
  taskName : List UInt8
  idReadFunc : ℕ
  idWriteFunc : ℕ
  idOpenFunc : ℕ
  idCloseFunc : ℕ
  idInfoFunc : ℕ
  hasPermissionToWriteDirectly : Bool
deriving Inhabited

/-- `DeviceImpl`, which begins like the struct it is registered with. -/
structure DeviceImpl extends DeviceImplRegisterStruct where
  PID : ℕ
  deviceID : ℕ
  inUse : Bool
  waitList : Option ℕ
  next : Option ℕ
deriving Inhabited

/-- The globals of `dev.c`, and the memory of the requests. -/
structure Dev where
  implList : ℕ → DeviceImpl
  implFreeList : Option ℕ
  implUseList : Option ℕ
  request : ℕ → DeviceRequest

/-- An entry after `memset`. -/
def clearedImpl : DeviceImpl :=
  { deviceName := [], taskName := [], idReadFunc := 0, idWriteFunc := 0, idOpenFunc := 0,
    idCloseFunc := 0, idInfoFunc := 0, hasPermissionToWriteDirectly := false, PID := 0,
    deviceID := 0, inUse := false, waitList := none, next := none }

namespace Dev

def modImpl (d : Dev) (i : ℕ) (f : DeviceImpl → DeviceImpl) : Dev :=
  { d with implList := Function.update d.implList i (f (d.implList i)) }

def setNext (d : Dev) (i : ℕ) (n : Option ℕ) : Dev := d.modImpl i fun e => { e with next := n }

def modRequest (d : Dev) (a : ℕ) (f : DeviceRequest → DeviceRequest) : Dev :=
  { d with request := Function.update d.request a (f (d.request a)) }

/-- The links between the entries. -/
def next (d : Dev) (i : ℕ) : Option ℕ := (d.implList i).next

/-- The links between the requests. -/
def requestNext (d : Dev) (a : ℕ) : Option ℕ := (d.request a).next

end Dev

/-- One round of `init_impl_list`. -/
def initEntry (d : Dev) (i : ℕ) : Dev :=
  let d := d.modImpl i fun _ => clearedImpl
  let d := if d.implFreeList ≠ none then d.setNext i d.implFreeList else d
  let d := { d with implFreeList := some i }
  d.modImpl i fun e => { e with deviceID := i }

/-- The loop of `init_impl_list`, from `i` down to 0. -/
def initLoop : ℕ → Dev → Dev
  | 0, d => initEntry d 0
  | i + 1, d => initLoop i (initEntry d (i + 1))

/-- `init_impl_list`. -/
def initImplList (maxDeviceCount : ℕ) (d : Dev) : Dev := initLoop maxDeviceCount d

/-- `register_device_impl`. -/
def registerDeviceImpl (d : Dev) (reg : DeviceImplRegisterStruct) (pid : ℕ) : Except Fault (Dev × ℕ) :=
  match d.implFreeList with
  | none => .error .null
  | some impl =>
    let d := { d with implFreeList := d.next impl }
    let d := d.modImpl impl fun e => { e with toDeviceImplRegisterStruct := reg }
    let d := if d.implUseList ≠ none then d.setNext impl d.implUseList else d
    let d := { d with implUseList := some impl }
    let d := d.modImpl impl fun e => { e with next := none, inUse := true, PID := pid }
    .ok (d, (d.implList impl).deviceID)

/-- The loop of `unregister_device_impl`: the entry before `impl` on the list, from `p` on. -/
def useSearch (d : Dev) (impl : ℕ) : ℕ → (pp p : Option ℕ) → Search (Option ℕ)
  | 0, _, _ => .spinning
  | _ + 1, _, none => .missing
  | fuel + 1, pp, some p => if p = impl then .found pp else useSearch d impl fuel (some p) (d.next p)

/-- `impl` leaves the list of used entries. -/
def unlinkUse (fuel : ℕ) (d : Dev) (impl : ℕ) : Except Fault Dev :=
  match useSearch d impl fuel d.implUseList d.implUseList with
  | .spinning => .error .fuel
  | .missing => .ok d
  | .found pp =>
    if d.implUseList ≠ some impl then
      match pp with
      | none => .error .null
      | some pp => .ok (d.setNext pp (d.next impl))
    else .ok { d with implUseList := d.next impl }

/-- `unregister_device_impl`. -/
def unregisterDeviceImpl (fuel : ℕ) (d : Dev) (deviceID : ℕ) : Except Fault Dev := do
  let d ← unlinkUse fuel d deviceID
  let d := d.modImpl deviceID fun _ => { clearedImpl with deviceID := deviceID, next := d.implFreeList }
  pure { d with implFreeList := some deviceID }

/-! ### One call -/

variable {d d' : Dev} {reg : DeviceImplRegisterStruct} {n i j pid fuel id : ℕ} {F : List ℕ}

@[simp] theorem implList_modImpl {f : DeviceImpl → DeviceImpl} : (d.modImpl i f).implList j =
    if j = i then f (d.implList i) else d.implList j := by
  rw [Dev.modImpl]
  exact Function.update_apply d.implList i _ j

/-- An entry is cleared, and put in front of the free ones. -/
theorem initEntry_eq : initEntry d i =
    { d.modImpl i (fun _ => { clearedImpl with deviceID := i, next := d.implFreeList }) with
      implFreeList := some i } := by
  cases hfree : d.implFreeList with
  | none => simp [initEntry, Dev.modImpl, hfree, clearedImpl]
  | some f => simp [initEntry, Dev.modImpl, Dev.setNext, hfree]

/-- The first free entry is filled in, and alone on the list of used ones. -/
theorem registerDeviceImpl_eq (hfree : d.implFreeList = some i) : registerDeviceImpl d reg pid =
    .ok ({ d.modImpl i (fun e => { e with
              toDeviceImplRegisterStruct := reg, next := none, inUse := true, PID := pid }) with
            implFreeList := d.next i, implUseList := some i }, (d.implList i).deviceID) := by
  cases huse : d.implUseList with
  | none => simp [registerDeviceImpl, Dev.modImpl, Dev.next, hfree, huse]
  | some u => simp [registerDeviceImpl, Dev.modImpl, Dev.setNext, Dev.next, hfree, huse]

/-- Before `init_impl_list`: nothing is linked. -/
structure Blank (d : Dev) : Prop where
  free : d.implFreeList = none
  use : d.implUseList = none

/-- What the lists are in every state: the entries up to `n` are free or in use, the free ones are
linked in the order of `F`, and of the used ones at most one is linked. -/
structure Kept (n : ℕ) (d : Dev) (F : List ℕ) : Prop where
  free : Chain d.next d.implFreeList F
  nodup : F.Nodup
  mem : ∀ i, i ∈ F ↔ i ≤ n ∧ (d.implList i).inUse = false
  last : ∀ i, d.implUseList = some i → i ≤ n ∧ (d.implList i).inUse = true ∧ d.next i = none
  id : ∀ i ≤ n, (d.implList i).deviceID = i

theorem initLoop_spec (hfree : Chain d.next d.implFreeList F) (hF : ∀ j ∈ F, i < j) :
    Chain (initLoop i d).next (initLoop i d).implFreeList (List.range (i + 1) ++ F) ∧
      (∀ j ≤ i, ∃ p, (initLoop i d).implList j = { clearedImpl with deviceID := j, next := p }) ∧
      (∀ j, i < j → (initLoop i d).implList j = d.implList j) ∧
      (initLoop i d).implUseList = d.implUseList ∧ (initLoop i d).request = d.request := by
  induction i generalizing d F with
  | zero =>
    rw [initLoop, initEntry_eq]
    refine ⟨?_, fun j hj => ?_, fun j hj => ?_, rfl, rfl⟩
    · apply Chain.cons
      simp only [Dev.next, implList_modImpl, if_true]
      apply hfree.congr
      intro j hj
      have hne : j ≠ 0 := Nat.ne_of_gt (hF j hj)
      simp only [Dev.next, implList_modImpl, if_neg hne]
    · obtain rfl := Nat.le_zero.mp hj
      exact ⟨d.implFreeList, by simp only [implList_modImpl, if_true]⟩
    · simp only [implList_modImpl, if_neg (Nat.ne_of_gt hj)]
  | succ i ih =>
    have hstep : Chain (initEntry d (i + 1)).next (initEntry d (i + 1)).implFreeList
        ((i + 1) :: F) := by
      rw [initEntry_eq]
      apply Chain.cons
      simp only [Dev.next, implList_modImpl, if_true]
      apply hfree.congr
      intro j hj
      have hne : j ≠ i + 1 := Nat.ne_of_gt (hF j hj)
      simp only [Dev.next, implList_modImpl, if_neg hne]
    have hlt : ∀ j ∈ (i + 1) :: F, i < j := by
      intro j hj
      rcases List.mem_cons.mp hj with rfl | hj
      · exact Nat.lt_succ_self i
      · exact Nat.lt_of_succ_lt (hF j hj)
    obtain ⟨hchain, hlow, hhigh, huse, hrequest⟩ := ih hstep hlt
    rw [initLoop]
    refine ⟨?_, fun j hj => ?_, fun j hj => ?_, ?_, ?_⟩
    · rw [List.range_succ, List.append_assoc]
      exact hchain
    · rcases Nat.lt_or_ge i j with hij | hij
      · obtain rfl : j = i + 1 := Nat.le_antisymm hj hij
        rw [hhigh _ hij, initEntry_eq]
        exact ⟨d.implFreeList, by simp only [implList_modImpl, if_true]⟩
      · exact hlow j hij
    · rw [hhigh j (Nat.lt_of_succ_lt hj), initEntry_eq]
      simp only [implList_modImpl, if_neg (Nat.ne_of_gt hj)]
    · rw [huse, initEntry_eq]
      rfl
    · rw [hrequest, initEntry_eq]
      rfl

/-- One entry more than there is room for is free at the start. -/
theorem initImplList_kept (hd : Blank d) : Kept n (initImplList n d) (List.range (n + 1)) := by
  have hnil : Chain d.next d.implFreeList [] := by
    rw [hd.free]
    exact Chain.nil
  obtain ⟨hchain, hlow, -, huse, -⟩ := initLoop_spec (i := n) hnil (by simp)
  rw [List.append_nil] at hchain
  refine ⟨hchain, List.nodup_range, fun i => ?_, fun i hi => ?_, fun i hi => ?_⟩
  · rw [List.mem_range, Nat.lt_succ_iff]
    refine ⟨fun hi => ⟨hi, ?_⟩, And.left⟩
    obtain ⟨p, hp⟩ := hlow i hi
    rw [initImplList, hp, clearedImpl]
  · rw [initImplList, huse, hd.use] at hi
    cases hi
  · obtain ⟨p, hp⟩ := hlow i hi
    rw [initImplList, hp]

/-- **`register_device_impl`** takes the first free entry. -/
theorem Kept.register (h : Kept n d F) (hcall : registerDeviceImpl d reg pid = .ok (d', id)) :
    ∃ F', F = id :: F' ∧ Kept n d' F' ∧ d'.implUseList = some id ∧
      (d'.implList id).waitList = (d.implList id).waitList ∧
      (∀ j, j ≠ id → d'.implList j = d.implList j) ∧ d'.request = d.request ∧
      (d'.implList id).toDeviceImplRegisterStruct = reg ∧ (d'.implList id).PID = pid := by
  cases hfree : d.implFreeList with
  | none =>
    simp [registerDeviceImpl, hfree] at hcall
  | some i =>
    rw [registerDeviceImpl_eq hfree] at hcall
    obtain ⟨rfl, rfl⟩ := Prod.mk.inj (Except.ok.inj hcall)
    have hchain := h.free
    rw [hfree] at hchain
    obtain ⟨F', rfl, htail⟩ := chain_some_iff.mp hchain
    obtain ⟨hi, -⟩ := (h.mem i).mp List.mem_cons_self
    rw [h.id i hi]
    have hnodup := List.nodup_cons.mp h.nodup
    refine ⟨F', rfl, ⟨?_, hnodup.2, fun j => ?_, fun j hj => ?_, fun j hj => ?_⟩, rfl, ?_,
      fun j hj => ?_, rfl, ?_, ?_⟩
    · apply htail.congr
      intro j hj
      have hne : j ≠ i := fun he => hnodup.1 (he ▸ hj)
      simp only [Dev.next, implList_modImpl, if_neg hne]
    · have hmem := h.mem j
      rw [List.mem_cons] at hmem
      by_cases hne : j = i
      · subst hne
        simp [hnodup.1]
      · simp only [implList_modImpl, if_neg hne]
        rw [← hmem]
        simp [hne]
    · obtain rfl := Option.some.inj hj
      simp [Dev.next, hi]
    · have hid := h.id j hj
      by_cases hne : j = i
      · subst hne
        simpa using hid
      · simpa [hne] using hid
    · simp
    · simp [hj]
    · simp
    · simp

/-- With a free entry it succeeds. -/
theorem Kept.register_returns (h : Kept n d F) (hne : F ≠ []) (reg : DeviceImplRegisterStruct)
    (pid : ℕ) :
    ∃ d' id, registerDeviceImpl d reg pid = .ok (d', id) := by
  cases hfree : d.implFreeList with
  | none => exact absurd (h.free.eq_nil_iff.mpr hfree) hne
  | some i => exact ⟨_, _, registerDeviceImpl_eq hfree⟩

theorem Dev.with_useList {u : Option ℕ} (hu : d.implUseList = u) :
    { d with implUseList := u } = d := by
  subst hu
  rfl

/-- **`unregister_device_impl`** puts the entry in front of the free ones. -/
theorem Kept.unregister (h : Kept n d F) (hi : i ≤ n) (huse : (d.implList i).inUse = true) :
    ∃ d', (∀ fuel, unregisterDeviceImpl (fuel + 2) d i = .ok d') ∧ Kept n d' (i :: F) ∧
      d'.implUseList = (if d.implUseList = some i then none else d.implUseList) ∧
      ∀ j, j ≠ i → d'.implList j = d.implList j := by
  have hunlink : ∀ fuel, unlinkUse (fuel + 2) d i = .ok { d with implUseList :=
      (if d.implUseList = some i then none else d.implUseList) } := by
    intro fuel
    cases hlast : d.implUseList with
    | none =>
      simp only [unlinkUse, useSearch, hlast, ite_self]
      exact congrArg Except.ok (Dev.with_useList hlast).symm
    | some u =>
      have hnext := (h.last u hlast).2.2
      by_cases hui : u = i
      · subst hui
        simp [unlinkUse, useSearch, hlast, hnext]
      · simp only [unlinkUse, useSearch, hlast, hnext, if_neg hui, Option.some.injEq]
        exact congrArg Except.ok (Dev.with_useList hlast).symm
  have hout : i ∉ F := by
    intro hmem
    rw [((h.mem i).mp hmem).2] at huse
    cases huse
  refine ⟨_, fun fuel => by rw [unregisterDeviceImpl, hunlink]; rfl, ?_, rfl, fun j hj => ?_⟩
  · refine ⟨?_, List.nodup_cons.mpr ⟨hout, h.nodup⟩, fun j => ?_, fun j hj => ?_, fun j hj => ?_⟩
    · apply Chain.cons
      simp only [Dev.next, implList_modImpl, if_true]
      apply h.free.congr
      intro j hj
      have hne : j ≠ i := fun he => hout (he ▸ hj)
      simp only [Dev.next, implList_modImpl, if_neg hne]
    · have hmem := h.mem j
      by_cases hne : j = i
      · subst hne
        simp [hi, clearedImpl]
      · simp [hne, hmem]
    · have hlast : d.implUseList = some j ∧ j ≠ i := by
        by_cases hd : d.implUseList = some i
        · simp [Dev.modImpl, hd] at hj
        · simp only [Dev.modImpl, if_neg hd] at hj
          exact ⟨hj, fun he => hd (he ▸ hj)⟩
      obtain ⟨hle, hused, hnext⟩ := h.last j hlast.1
      simp only [Dev.next, implList_modImpl, if_neg hlast.2]
      exact ⟨hle, hused, hnext⟩
    · have hid := h.id j hj
      by_cases hne : j = i
      · subst hne
        simp
      · simpa [hne] using hid
  · simp [hj]

/-! ### Runs -/

inductive ListEvent
  | register (reg : DeviceImplRegisterStruct) (pid : ℕ)
  | unregister (id : ℕ)

/-- Only what is registered is unregistered. -/
inductive ListStep (n : ℕ) : Dev → ListEvent → Dev → Prop
  | register {d d' : Dev} {reg : DeviceImplRegisterStruct} {pid id : ℕ}
      (hcall : registerDeviceImpl d reg pid = .ok (d', id)) : ListStep n d (.register reg pid) d'
  | unregister {d d' : Dev} {id : ℕ} (hid : id ≤ n) (huse : (d.implList id).inUse = true)
      (hcall : Returns (fun fuel => unregisterDeviceImpl fuel d id) d') :
      ListStep n d (.unregister id) d'

/-- The two lists have each of the `n` entries once and nothing else, the used ones those in use. -/
def ListsSound (n : ℕ) (d : Dev) : Prop :=
  ∃ F U, Chain d.next d.implFreeList F ∧ Chain d.next d.implUseList U ∧ (F ++ U).Nodup ∧
    (∀ i, i ∈ F ++ U ↔ i < n) ∧ ∀ i < n, i ∈ U ↔ (d.implList i).inUse = true

def OnUseList (d : Dev) (i : ℕ) : Prop := ∃ U, Chain d.next d.implUseList U ∧ i ∈ U

/-- With room left an entry that was not in use is taken, and the others in use are left alone. -/
def RegistersWell (n : ℕ) (d : Dev) : Prop :=
  ∀ reg pid, ((List.range n).filter fun i => (d.implList i).inUse).length < n →
    ∃ d' id, registerDeviceImpl d reg pid = .ok (d', id) ∧ id < n ∧ (d.implList id).inUse = false ∧
      ∀ j, j ≠ id → (d.implList j).inUse = true →
        d'.implList j = d.implList j ∧ (OnUseList d' j ↔ OnUseList d j)

/-- What is asked of the lists, in every state of every run. -/
def ListInvariant (n : ℕ) (d₀ : Dev) : Prop :=
  ∀ tr s, Run (ListStep n) (initImplList n d₀) tr s → ListsSound n s ∧ RegistersWell n s

theorem Kept.step {e : ListEvent} (h : Kept n d F) (hstep : ListStep n d e d') :
    ∃ F', Kept n d' F' := by
  cases hstep with
  | register hcall =>
    obtain ⟨F', -, h', -⟩ := h.register hcall
    exact ⟨F', h'⟩
  | unregister hid huse hcall =>
    obtain ⟨d₁, hcall₁, h', -⟩ := h.unregister hid huse
    obtain rfl := hcall.unique (Returns.of_add 2 hcall₁)
    exact ⟨_, h'⟩

theorem kept_of_run {d₀ s : Dev} {tr : List (Transition Dev ListEvent)} (hd : Blank d₀)
    (hrun : Run (ListStep n) (initImplList n d₀) tr s) : ∃ F, Kept n s F := by
  have hkeep : ∀ s e t, (∃ F, Kept n s F) → ListStep n s e t → ∃ F, Kept n t F := by
    rintro s e t ⟨F, hF⟩ hstep
    exact hF.step hstep
  exact hrun.invariant ⟨_, initImplList_kept hd⟩ hkeep

theorem Kept.useChain (h : Kept n d F) : Chain d.next d.implUseList d.implUseList.toList := by
  cases hlast : d.implUseList with
  | none => exact Chain.nil
  | some u =>
    apply Chain.cons
    rw [(h.last u hlast).2.2]
    exact Chain.nil

/-- The lists are as they should be just when entry `n` is one of those that are lost, and it is the
only one. -/
theorem Kept.listsSound_iff (h : Kept n d F) : ListsSound n d ↔ (d.implList n).inUse = true ∧
    ∀ i ≤ n, (d.implList i).inUse = true → (d.implUseList = some i ↔ i ≠ n) := by
  have hmemU : ∀ i, i ∈ d.implUseList.toList ↔ d.implUseList = some i := by
    intro i
    rw [Option.mem_toList]
  have hnotF : ∀ i, (d.implList i).inUse = true → i ∉ F := by
    intro i huse hmem
    rw [((h.mem i).mp hmem).2] at huse
    cases huse
  constructor
  · rintro ⟨F', U, hF', hU, -, hmem, -⟩
    obtain rfl := hF'.unique h.free
    obtain rfl := hU.unique h.useChain
    have hn : (d.implList n).inUse = true := by
      by_contra hnot
      have hfree : n ∈ F' := (h.mem n).mpr ⟨Nat.le_refl n, by simpa using hnot⟩
      exact Nat.lt_irrefl n ((hmem n).mp (List.mem_append_left _ hfree))
    refine ⟨hn, fun i hi huse => ⟨fun hlast => ?_, fun hne => ?_⟩⟩
    · exact Nat.ne_of_lt ((hmem i).mp (List.mem_append_right _ ((hmemU i).mpr hlast)))
    · rcases List.mem_append.mp ((hmem i).mpr (Nat.lt_of_le_of_ne hi hne)) with hfree | hlast
      · exact absurd hfree (hnotF i huse)
      · exact (hmemU i).mp hlast
  · rintro ⟨hn, hlast⟩
    have hused : ∀ i, d.implUseList = some i → i < n ∧ (d.implList i).inUse = true := by
      intro i hi
      obtain ⟨hle, huse, -⟩ := h.last i hi
      exact ⟨Nat.lt_of_le_of_ne hle ((hlast i hle huse).mp hi), huse⟩
    refine ⟨F, _, h.free, h.useChain, ?_, fun i => ?_, fun i hi => ?_⟩
    · rw [List.nodup_append]
      refine ⟨h.nodup, ?_, fun a ha b hb hab => ?_⟩
      · cases d.implUseList <;> simp
      · subst hab
        exact hnotF a (hused a ((hmemU a).mp hb)).2 ha
    · rw [List.mem_append, hmemU]
      constructor
      · rintro (hfree | hi)
        · obtain ⟨hle, hfree⟩ := (h.mem i).mp hfree
          refine Nat.lt_of_le_of_ne hle fun he => ?_
          rw [he, hn] at hfree
          cases hfree
        · exact (hused i hi).1
      · intro hi
        by_cases huse : (d.implList i).inUse = true
        · exact Or.inr ((hlast i (Nat.le_of_lt hi) huse).mpr (Nat.ne_of_lt hi))
        · exact Or.inl ((h.mem i).mpr ⟨Nat.le_of_lt hi, by simpa using huse⟩)
    · rw [hmemU]
      exact ⟨fun hi => (hused i hi).2,
        fun huse => (hlast i (Nat.le_of_lt hi) huse).mpr (Nat.ne_of_lt hi)⟩

/-- **The lists of devices.**  No number of entries makes them what they should be: entry `n` is
free at the start.  Later they are it only while that entry is lost, and no other is. -/
theorem listInvariant_never {d₀ : Dev} (n : ℕ) (hd : Blank d₀) : ¬ ListInvariant n d₀ ∧
    ∀ tr s, Run (ListStep n) (initImplList n d₀) tr s →
      (ListsSound n s ↔ (s.implList n).inUse = true ∧
        ∀ i ≤ n, (s.implList i).inUse = true → (s.implUseList = some i ↔ i ≠ n)) := by
  constructor
  · intro hall
    have hkept : Kept n (initImplList n d₀) (List.range (n + 1)) := initImplList_kept hd
    obtain ⟨huse, -⟩ := hkept.listsSound_iff.mp (hall [] _ Run.start).1
    have hfree := ((hkept.mem n).mp List.self_mem_range_succ).2
    rw [huse] at hfree
    cases hfree
  · intro tr s hrun
    obtain ⟨F, hF⟩ := kept_of_run hd hrun
    exact hF.listsSound_iff

/-! ### Two devices -/

def demoReg : DeviceImplRegisterStruct := { (default : DeviceImplRegisterStruct) with
  idReadFunc := 0x101, idWriteFunc := 0x102, hasPermissionToWriteDirectly := true }

def demoDev : Dev := ⟨fun _ => default, none, none, fun _ => ⟨0, 0, 0, none⟩⟩

theorem demoDev_blank : Blank demoDev := ⟨rfl, rfl⟩

theorem listInvariant_never_demo : ¬ ListInvariant 256 demoDev :=
  (listInvariant_never 256 demoDev_blank).1

/-- What is in use is on the list, if the lists are as they should be. -/
theorem ListsSound.onUseList (h : ListsSound n d) (hi : i < n) (huse : (d.implList i).inUse = true) :
    OnUseList d i := by
  obtain ⟨F, U, -, hU, -, -, hmem⟩ := h
  exact ⟨U, hU, (hmem i hi).mpr huse⟩

theorem Kept.onUseList_iff (h : Kept n d F) : OnUseList d i ↔ d.implUseList = some i := by
  constructor
  · rintro ⟨U, hU, hi⟩
    obtain rfl := hU.unique h.useChain
    exact Option.mem_toList.mp hi
  · intro hi
    exact ⟨_, h.useChain, Option.mem_toList.mpr hi⟩

/-- The first of two devices is in use, and on neither list. -/
theorem first_device_lost : ∃ tr s, Run (ListStep 256) (initImplList 256 demoDev) tr s ∧
    tr.length = 2 ∧ (s.implList 0).inUse = true ∧ ¬ OnUseList s 0 ∧ ¬ ListsSound 256 s := by
  have h₀ : Kept 256 (initImplList 256 demoDev) _ := initImplList_kept demoDev_blank
  rw [List.range_succ_eq_map] at h₀
  obtain ⟨d₁, id₁, hcall₁⟩ := h₀.register_returns (List.cons_ne_nil _ _) demoReg 5
  obtain ⟨F₁, hF₁, h₁, hlast₁, -⟩ := h₀.register hcall₁
  obtain ⟨rfl, rfl⟩ := List.cons.inj hF₁
  obtain ⟨d₂, id₂, hcall₂⟩ := h₁.register_returns (by simp) demoReg 6
  obtain ⟨F₂, hF₂, h₂, hlast₂, -, hkeep, -⟩ := h₁.register hcall₂
  have hne : 0 ≠ id₂ := by
    rintro rfl
    exact (List.nodup_cons.mp h₀.nodup).1 (by rw [hF₂]; exact List.mem_cons_self)
  have huse : (d₂.implList 0).inUse = true := by
    rw [hkeep 0 hne]
    exact (h₁.last 0 hlast₁).2.1
  have hlost : ¬ OnUseList d₂ 0 := by
    rw [h₂.onUseList_iff, hlast₂, Option.some.injEq]
    exact hne.symm
  have hrun := (Run.start.extend (ListStep.register (n := 256) hcall₁)).extend
    (ListStep.register hcall₂)
  exact ⟨_, d₂, hrun, rfl, huse, hlost, fun hsound => hlost (hsound.onUseList (by decide) huse)⟩

end OmochaOS.Device
