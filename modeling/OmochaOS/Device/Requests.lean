import OmochaOS.Device.Lists
import OmochaOS.Kernel.Process

/-!
# The rounds of `Task_DEV` (`modules/device/dev.c`, `modules/dev.h`)

`Task_DEV` receives a message, acts on it and receives the next one.  A round has what the task needs
of others as an argument: the struct that a `DEV_REG` points to, the answer of the implementing process
to the request that is passed on to it, and the memory that `kmalloc` gives.

The clients of `modules/dev.h` send a message and wait for an answer.  `Agree` says when the two sides
fit together.
-/

namespace OmochaOS.Device

open IntrusiveList TransitionRun OmochaOS.Rbtree

def maxDeviceCount : ℕ := 256

/-! ### Codes -/

/-- The requests that there is a code for. -/
inductive Operation
  | devRead
  | devWrite
  | devOpen
  | devClose
  | devInfo
  | devList
  | devReg
  | devUnreg
  | devUpd
deriving DecidableEq

/-- `DEV_READ` to `DEV_UPD`. -/
def Operation.code : Operation → ℕ
  | .devRead => 1
  | .devWrite => 2
  | .devOpen => 3
  | .devClose => 4
  | .devInfo => 5
  | .devList => 6
  | .devReg => 10
  | .devUnreg => 11
  | .devUpd => 12

def devStatusWait : ℕ := 1

def devStatusError : ℕ := 2

/-- The cases of the outer `switch` of `Task_DEV`. -/
def outerCases : List Operation :=
  [.devReg, .devUnreg, .devWrite, .devOpen, .devClose, .devRead, .devUpd, .devList]

/-- The case that a message type leads to. -/
def caseOf (type : ℕ) : Option Operation := outerCases.find? fun o => o.code = type

/-! ### A round -/

/-- What others contribute to a round. -/
structure Others where
  reg : DeviceImplRegisterStruct
  reply : Message
  block : ℕ

/-- What a round does: the globals after it, the request passed on, the other messages sent, the
request put on a wait list, and the entries of `impl_list` looked at through an index. -/
structure Round where
  dev : Dev
  forwarded : Option Message
  answered : List Message
  parked : Option ℕ
  accessed : List ℕ

/-- `SEND_BACK`. -/
def sendBack (msg : Message) : Message := { msg with receiver := msg.sender }

/-- The `type` of a message has 31 bits. -/
def setType (msg : Message) (type : ℕ) : Message := { msg with type := type % 2 ^ 31 }

/-- The function of the device that a request stands for. -/
def implFunc (impl : DeviceImpl) : Operation → ℕ
  | .devRead => impl.idReadFunc
  | .devWrite => impl.idWriteFunc
  | .devOpen => impl.idOpenFunc
  | .devClose => impl.idCloseFunc
  | .devInfo => impl.idInfoFunc
  | .devList => Operation.devList.code
  | .devReg => Operation.devReg.code
  | .devUnreg => Operation.devUnreg.code
  | .devUpd => Operation.devUpd.code

/-- A request is put in front of the wait list of a device. -/
def appendRequest (d : Dev) (deviceId block appPid type : ℕ) : Dev :=
  let d := d.modRequest block fun _ => ⟨appPid, (d.implList deviceId).PID, type, none⟩
  let d := if (d.implList deviceId).waitList ≠ none then
      d.modRequest block fun r => { r with next := (d.implList deviceId).waitList }
    else d
  d.modImpl deviceId fun e => { e with waitList := some block }

/-- The request as it is passed on to the implementing process. -/
def forwardMsg (impl : DeviceImpl) (msg : Message) (o : Operation) : Message :=
  let src := msg.sender
  let msg := setType msg (implFunc impl o)
  { msg with receiver := impl.PID, data := { msg.data with d4 := src } }

/-- The branch for `DEV_WRITE`, `DEV_OPEN`, `DEV_CLOSE` and `DEV_READ`. -/
def requestRound (d : Dev) (msg : Message) (o : Operation) (others : Others) : Round :=
  let src := msg.sender
  let deviceId := msg.major
  let impl := d.implList deviceId
  if impl.inUse = false ∨ impl.PID = 0 then
    ⟨d, none, [sendBack { msg with major := devStatusError }], none, [deviceId]⟩
  else if impl.hasPermissionToWriteDirectly = true then
    if others.reply.major ≠ devStatusWait then
      ⟨d, some (forwardMsg impl msg o), [{ others.reply with receiver := src }], none, [deviceId]⟩
    else
      ⟨appendRequest d deviceId others.block src o.code, some (forwardMsg impl msg o), [],
        some others.block, [deviceId]⟩
  else ⟨d, none, [], none, [deviceId]⟩

/-- The search of `DEV_UPD` in a wait list: the request before the one of `appPid`, and that one. -/
def findRequest (d : Dev) (appPid : ℕ) : ℕ → (preq req : Option ℕ) → Search (Option ℕ × ℕ)
  | 0, _, _ => .spinning
  | _ + 1, _, none => .missing
  | fuel + 1, preq, some req =>
    if (d.request req).appPid = appPid then .found (preq, req)
    else findRequest d appPid fuel (some req) (d.requestNext req)

/-- The search of `DEV_UPD` in the used entries: the entry, and what is found in its wait list. -/
def findWaiting (d : Dev) (implPid appPid : ℕ) : ℕ → Option ℕ → Search (ℕ × Option ℕ × ℕ)
  | 0, _ => .spinning
  | _ + 1, none => .missing
  | fuel + 1, some impl =>
    if (d.implList impl).PID = implPid then
      match findRequest d appPid fuel (d.implList impl).waitList (d.implList impl).waitList with
      | .spinning => .spinning
      | .found (preq, req) => .found (impl, preq, req)
      | .missing => findWaiting d implPid appPid fuel (d.next impl)
    else findWaiting d implPid appPid fuel (d.next impl)

/-- The request `req` behind `preq` leaves the wait list. -/
def unlinkRequest (d : Dev) (impl : ℕ) (preq : Option ℕ) (req : ℕ) : Except Fault Dev :=
  if (d.implList impl).waitList ≠ some req then
    match preq with
    | none => .error .null
    | some preq => .ok (d.modRequest preq fun r => { r with next := d.requestNext req })
  else .ok (d.modImpl impl fun e => { e with waitList := d.requestNext req })

/-- The branch for `DEV_UPD`. -/
def updRound (fuel : ℕ) (d : Dev) (msg : Message) : Except Fault Round :=
  if msg.major = devStatusWait then .ok ⟨d, none, [], none, []⟩
  else
    match findWaiting d msg.sender msg.data.d4 fuel d.implUseList with
    | .spinning => .error .fuel
    | .missing => .ok ⟨d, none, [], none, []⟩
    | .found (impl, preq, req) => do
      let d' ← unlinkRequest d impl preq req
      if (d.implList impl).hasPermissionToWriteDirectly = true then
        pure ⟨d', none, [setType { msg with receiver := msg.data.d4 } (d.request req).type], none, []⟩
      else pure ⟨d', none, [], none, []⟩

/-- A round of `Task_DEV`. -/
def taskDev (fuel : ℕ) (d : Dev) (msg : Message) (others : Others) : Except Fault Round :=
  match caseOf msg.type with
  | some .devReg => do
    let (d, id) ← registerDeviceImpl d others.reg msg.sender
    pure ⟨d, none, [sendBack { msg with major := id }], none, []⟩
  | some .devUnreg => do
    let d ← unregisterDeviceImpl fuel d msg.major
    pure ⟨d, none, [sendBack { msg with major := 0 }], none, [msg.major]⟩
  | some .devWrite => .ok (requestRound d msg .devWrite others)
  | some .devOpen => .ok (requestRound d msg .devOpen others)
  | some .devClose => .ok (requestRound d msg .devClose others)
  | some .devRead => .ok (requestRound d msg .devRead others)
  | some .devUpd => updRound fuel d msg
  | some .devList => .ok ⟨d, none, [], none, []⟩
  | some .devInfo => .ok ⟨d, none, [], none, []⟩
  | none => .ok ⟨d, none, [], none, []⟩

/-! ### The clients -/

/-- The calls of `modules/dev.h`. -/
inductive Call
  | devRegister (reg : ℕ)
  | devUnregister (deviceId : ℕ)
  | devRead (deviceId buf address size : ℕ)
  | devWrite (deviceId buf address size : ℕ)
  | devOpen (deviceId : ℕ)
  | devClose (deviceId : ℕ)
  | devInfo (deviceId buf size : ℕ)

/-- What a call is meant to do. -/
def Call.operation : Call → Operation
  | .devRegister _ => .devReg
  | .devUnregister _ => .devUnreg
  | .devRead .. => .devRead
  | .devWrite .. => .devWrite
  | .devOpen _ => .devOpen
  | .devClose _ => .devClose
  | .devInfo .. => .devInfo

/-- The device that a call is about. -/
def Call.deviceId : Call → Option ℕ
  | .devRegister _ => none
  | .devUnregister id => some id
  | .devRead id .. => some id
  | .devWrite id .. => some id
  | .devOpen id => some id
  | .devClose id => some id
  | .devInfo id .. => some id

/-- A message of a client, as `Task_DEV` receives it. -/
def clientMessage (taskDev src : ℕ) (o : Operation) (major d1 d2 d3 : ℕ) : Message :=
  { sender := src, receiver := taskDev, ready := false, type := o.code, major := major
    data := ⟨d1, d2, d3, 0⟩ }

/-- The message that a call sends. -/
def Call.message (taskDev src : ℕ) : Call → Message
  | .devRegister reg => clientMessage taskDev src .devReg reg 0 0 0
  | .devUnregister id => clientMessage taskDev src .devReg id 0 0 0
  | .devRead id buf address size => clientMessage taskDev src .devRead id buf address size
  | .devWrite id buf address size => clientMessage taskDev src .devWrite id buf address size
  | .devOpen id => clientMessage taskDev src .devOpen id 0 0 0
  | .devClose id => clientMessage taskDev src .devClose id 0 0 0
  | .devInfo id buf size => clientMessage taskDev src .devInfo id buf 0 size

/-! ### Client and server -/

variable {d : Dev} {msg : Message} {others : Others} {o : Operation} {id src : ℕ}

/-- The caller waits in front of the wait list of the device. -/
structure Noted (d : Dev) (id block src : ℕ) (o : Operation) : Prop where
  first : (d.implList id).waitList = some block
  appPid : (d.request block).appPid = src
  type : (d.request block).type = o.code

/-- A device that is not there is answered with an error, and the table is not left for it. -/
def Refused (d : Dev) (id src : ℕ) (r : Round) : Prop :=
  maxDeviceCount ≤ id ∨ (d.implList id).inUse = false →
    (∃ m, r.answered = [m] ∧ m.receiver = src ∧ m.major = devStatusError) ∧
      ∀ i ∈ r.accessed, i < maxDeviceCount

/-- The caller gets one answer, or it is noted that it waits. -/
def AnsweredOnce (call : Call) (src block : ℕ) (r : Round) : Prop :=
  (∃ m, r.answered = [m] ∧ m.receiver = src) ∨
    r.answered = [] ∧ r.parked = some block ∧
      ∃ id, call.deviceId = some id ∧ Noted r.dev id block src call.operation

/-- The call is taken for what it is, and answered. -/
structure Agree (d : Dev) (call : Call) (pid src : ℕ) (others : Others) : Prop where
  handled : caseOf (call.message pid src).type = some call.operation
  served : ∃ r, Returns (fun fuel => taskDev fuel d (call.message pid src) others) r ∧
    (∀ id, call.deviceId = some id → Refused d id src r) ∧ AnsweredOnce call src others.block r

/-- The device is in the table, and if it is in use it may be passed requests. -/
def Passable (d : Dev) (id : ℕ) : Prop :=
  id < maxDeviceCount ∧ ((d.implList id).inUse = true → (d.implList id).PID ≠ 0 →
    (d.implList id).hasPermissionToWriteDirectly = true)

/-- The condition on a call: there is a free entry to register with, or the device is passable; the
other two calls are never served. -/
def Served (d : Dev) : Call → Prop
  | .devRegister _ => d.implFreeList ≠ none
  | .devUnregister _ => False
  | .devRead id .. => Passable d id
  | .devWrite id .. => Passable d id
  | .devOpen id => Passable d id
  | .devClose id => Passable d id
  | .devInfo .. => False

theorem appendRequest_noted : Noted (appendRequest d id others.block src o.code) id others.block src o := by
  constructor
  · simp [appendRequest]
  · cases hw : (d.implList id).waitList <;> simp [appendRequest, Dev.modImpl, Dev.modRequest, hw]
  · cases hw : (d.implList id).waitList <;> simp [appendRequest, Dev.modImpl, Dev.modRequest, hw]

/-- The branch for the four requests serves what is passable. -/
theorem requestRound_iff {call : Call} (hid : call.deviceId = some msg.major)
    (ho : call.operation = o) :
    (Refused d msg.major msg.sender (requestRound d msg o others) ∧
      AnsweredOnce call msg.sender others.block (requestRound d msg o others)) ↔
      Passable d msg.major := by
  by_cases hout : (d.implList msg.major).inUse = false ∨ (d.implList msg.major).PID = 0
  · have hround : requestRound d msg o others =
        ⟨d, none, [sendBack { msg with major := devStatusError }], none, [msg.major]⟩ := if_pos hout
    rw [hround]
    constructor
    · rintro ⟨hrefused, -⟩
      refine ⟨?_, fun huse hpid => ?_⟩
      · by_contra hge
        exact hge ((hrefused (Or.inl (Nat.le_of_not_lt hge))).2 _ List.mem_cons_self)
      · rcases hout with hnot | hzero
        · rw [huse] at hnot
          cases hnot
        · exact absurd hzero hpid
    · rintro ⟨hlt, -⟩
      refine ⟨fun _ => ⟨⟨_, rfl, rfl, rfl⟩, fun i hi => ?_⟩, Or.inl ⟨_, rfl, rfl⟩⟩
      obtain rfl := List.mem_singleton.mp hi
      exact hlt
  · have huse : (d.implList msg.major).inUse = true := by
      cases h : (d.implList msg.major).inUse with
      | false => exact absurd (Or.inl h) hout
      | true => rfl
    have hpid : (d.implList msg.major).PID ≠ 0 := fun h => hout (Or.inr h)
    have haccessed : (requestRound d msg o others).accessed = [msg.major] := by
      simp only [requestRound, if_neg hout]
      split
      · split <;> rfl
      · rfl
    -- the device is in use, so a refusal would be one for a device outside the table
    have hrefused : Refused d msg.major msg.sender (requestRound d msg o others) ↔
        msg.major < maxDeviceCount := by
      constructor
      · intro h
        by_contra hge
        apply hge
        apply (h (Or.inl (Nat.le_of_not_lt hge))).2
        rw [haccessed]
        exact List.mem_cons_self
      · rintro hlt (hge | hnot)
        · exact absurd hlt (Nat.not_lt_of_le hge)
        · rw [huse] at hnot
          cases hnot
    have honce : AnsweredOnce call msg.sender others.block (requestRound d msg o others) ↔
        (d.implList msg.major).hasPermissionToWriteDirectly = true := by
      by_cases hperm : (d.implList msg.major).hasPermissionToWriteDirectly = true
      · refine ⟨fun _ => hperm, fun _ => ?_⟩
        by_cases hwait : others.reply.major ≠ devStatusWait
        · left
          simp only [requestRound, if_neg hout, if_pos hperm, if_pos hwait]
          exact ⟨_, rfl, rfl⟩
        · right
          simp only [requestRound, if_neg hout, if_pos hperm, if_neg hwait]
          rw [ho]
          exact ⟨trivial, trivial, _, hid, appendRequest_noted⟩
      · refine ⟨fun h => ?_, fun h => absurd h hperm⟩
        simp only [requestRound, if_neg hout, if_neg hperm] at h
        rcases h with ⟨m, hm, -⟩ | ⟨-, hparked, -⟩
        · cases hm
        · cases hparked
    rw [hrefused, honce, Passable]
    constructor
    · rintro ⟨hlt, hperm⟩
      exact ⟨hlt, fun _ _ => hperm⟩
    · rintro ⟨hlt, hperm⟩
      exact ⟨hlt, hperm huse hpid⟩

/-- A request for one of the four operations. -/
theorem agree_request {call : Call} {pid id d1 d2 d3 : ℕ} (ho : call.operation = o)
    (hid : call.deviceId = some id) (hmsg : call.message pid src = clientMessage pid src o id d1 d2 d3)
    (hcase : caseOf o.code = some o)
    (hround : ∀ fuel, taskDev fuel d (clientMessage pid src o id d1 d2 d3) others =
      .ok (requestRound d (clientMessage pid src o id d1 d2 d3) o others)) :
    Agree d call pid src others ↔ Passable d id := by
  have hreturns : Returns (fun fuel => taskDev fuel d (call.message pid src) others)
      (requestRound d (clientMessage pid src o id d1 d2 d3) o others) := by
    rw [hmsg]
    exact Returns.of_add 0 fun fuel => hround fuel
  have hiff : (Refused d id src (requestRound d (clientMessage pid src o id d1 d2 d3) o others) ∧
      AnsweredOnce call src others.block
        (requestRound d (clientMessage pid src o id d1 d2 d3) o others)) ↔ Passable d id :=
    @requestRound_iff d (clientMessage pid src o id d1 d2 d3) others o call hid ho
  constructor
  · rintro ⟨-, r, hr, hrefused, honce⟩
    obtain rfl := hr.unique hreturns
    exact hiff.mp ⟨hrefused id hid, honce⟩
  · intro hpass
    obtain ⟨hrefused, honce⟩ := hiff.mpr hpass
    refine ⟨?_, _, hreturns, fun i hi => ?_, honce⟩
    · rw [hmsg, ho]
      exact hcase
    · rw [hid] at hi
      obtain rfl := Option.some.inj hi
      exact hrefused

/-- **Client and server.**  A call is taken for what it is and answered just when it is served. -/
theorem agree_iff {call : Call} {pid : ℕ} : Agree d call pid src others ↔ Served d call := by
  cases call with
  | devRegister reg =>
    constructor
    · rintro ⟨-, r, ⟨bound, hr⟩, -⟩ hfree
      have hcall : taskDev bound d (Call.message pid src (.devRegister reg)) others = .error .null := by
        have hnull : registerDeviceImpl d others.reg src = .error .null := by
          rw [registerDeviceImpl, hfree]
        show (registerDeviceImpl d others.reg src >>= _) = _
        rw [hnull]
        rfl
      have hok := hr bound (Nat.le_refl bound)
      simp only [hcall] at hok
      cases hok
    · intro hfree
      cases hhead : d.implFreeList with
      | none => exact absurd hhead hfree
      | some i =>
        obtain ⟨d', id, hreg⟩ : ∃ d' id, registerDeviceImpl d others.reg src = .ok (d', id) :=
          ⟨_, _, registerDeviceImpl_eq hhead⟩
        have hround : ∀ fuel, taskDev fuel d (Call.message pid src (.devRegister reg)) others =
            .ok ⟨d', none, [sendBack { Call.message pid src (.devRegister reg) with major := id }],
              none, []⟩ := by
          intro fuel
          show (registerDeviceImpl d others.reg src >>= _) = _
          rw [hreg]
          rfl
        refine ⟨rfl, _, Returns.of_add 0 hround, fun i hi => ?_, Or.inl ⟨_, rfl, rfl⟩⟩
        cases hi
  | devUnregister id =>
    constructor
    · rintro ⟨hhandled, -⟩
      have hcase : caseOf (Call.message pid src (.devUnregister id)).type = some .devReg := rfl
      rw [hcase] at hhandled
      cases hhandled
    · exact False.elim
  | devRead id buf address size => exact agree_request rfl rfl rfl rfl fun _ => rfl
  | devWrite id buf address size => exact agree_request rfl rfl rfl rfl fun _ => rfl
  | devOpen id => exact agree_request rfl rfl rfl rfl fun _ => rfl
  | devClose id => exact agree_request rfl rfl rfl rfl fun _ => rfl
  | devInfo id buf size =>
    constructor
    · rintro ⟨hhandled, -⟩
      have hcase : caseOf (Call.message pid src (.devInfo id buf size)).type = none := rfl
      rw [hcase] at hhandled
      cases hhandled
    · exact False.elim

/-- `DEV_Info` waits for ever: the dispatcher has no case for it. -/
theorem devInfo_disagrees : ¬ Agree (initImplList maxDeviceCount demoDev) (.devInfo 0 0x8000 64) 7 9
    ⟨demoReg, default, 0⟩ := by
  rintro ⟨hhandled, -⟩
  revert hhandled
  decide

end OmochaOS.Device
