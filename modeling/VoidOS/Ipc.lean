import VoidOS.RingBuffer
import VoidOS.SlotTable
import VoidOS.Transition

namespace VoidOS.Ipc

open SlotTable RingBuffer

abbrev Pid := ℤ

def ipcMaxHandles : ℕ := 64
def ipcMaxQueueDepth : ℕ := 16
def ipcMaxTotalEndpoints : ℕ := 1024
/-- `IPC_MAX_MESSAGE_SIZE` less the four words of the header. -/
def ipcMaxData : ℕ := 496
def svcNameLen : ℕ := 32
def svcMaxServices : ℕ := 64

def vePerm : ℤ := -1
def veNoent : ℤ := -2
def veBadf : ℤ := -9
def veNomem : ℤ := -12
def veFault : ℤ := -14
def veInval : ℤ := -22

/-- `data` is the first `data_len` bytes of the inline buffer. -/
structure Message where
  senderPid : Pid
  tag : UInt32
  data : List UInt8
deriving DecidableEq

/-- An endpoint object. `uid` is ghost: the object's identity, never used again. -/
structure Endpoint where
  ownerPid : Pid
  endpointId : ℕ
  closed : Bool
  queue : Buffer Message
  uid : ℕ

/-- A registry entry whose endpoint is not `NULL`. -/
structure RegistryEntry where
  endpoint : Endpoint
  ownerPid : Pid
  endpointId : ℕ

/-- A handle stores the name of an endpoint. `minted` is ghost: the `uid` of the
object the handle was made for. -/
structure HandleEntry where
  targetPid : Pid
  targetEndpointId : ℕ
  allocated : Bool
  minted : ℕ

abbrev HandleTable := ℕ → HandleEntry

/-- A named service; the empty name marks a free slot. `uid` is ghost: the object the
service was registered for. -/
structure SvcEntry where
  name : List UInt8
  ownerPid : Pid
  endpointId : ℕ
  uid : ℕ

/-- What inter-process communication sees of a process. -/
structure Proc where
  zombie : Bool
  ipcHandles : Option HandleTable

/-- The processes and the two registries. `nextUid` and `sent`, the log of every message
put into an endpoint, are ghost. -/
structure State where
  procs : Pid → Option Proc
  nextPid : Pid
  registry : Table RegistryEntry
  services : List SvcEntry
  nextUid : ℕ
  sent : List (ℕ × Message)

def RegistryEntry.names (pid : Pid) (id : ℕ) (e : RegistryEntry) : Bool :=
  e.ownerPid = pid && e.endpointId = id

/-- `ipc_endpoint_lookup`: the slot of the first entry with the name. -/
def ipcEndpointLookup (reg : Table RegistryEntry) (pid : Pid) (id : ℕ) : Option ℕ :=
  find (RegistryEntry.names pid id) reg

def ipcEndpointRegister (reg : Table RegistryEntry) (ep : Endpoint) (pid : Pid) (id : ℕ) :
    Option (Table RegistryEntry) :=
  put ipcMaxTotalEndpoints ⟨ep, pid, id⟩ reg

def ipcEndpointUnregisterByOwner (reg : Table RegistryEntry) (pid : Pid) : Table RegistryEntry :=
  clear (fun e => e.ownerPid = pid) reg

/-- The endpoint a handle entry leads to, with its slot. -/
def endpointOf (reg : Table RegistryEntry) (pid : Pid) (id : ℕ) : Option (ℕ × Endpoint) :=
  match ipcEndpointLookup reg pid id with
  | none => none
  | some i => (get reg i).map fun e => (i, e.endpoint)

def setEndpoint (reg : Table RegistryEntry) (i : ℕ) (ep : Endpoint) : Table RegistryEntry :=
  modify i (fun e => { e with endpoint := ep }) reg

def emptyMessage : Message := ⟨0, 0, []⟩

/-- `ipc_queue_enqueue`: the new endpoint, or the error. -/
def ipcQueueEnqueue (ep : Endpoint) (msg : Message) : Except ℤ Endpoint :=
  if ipcMaxQueueDepth ≤ ep.queue.count then .error veNomem
  else if ep.closed then .error veBadf
  else .ok { ep with queue := push ipcMaxQueueDepth ep.queue msg }

def ipcQueueDequeue (ep : Endpoint) : Option (Message × Endpoint) :=
  if ep.queue.count = 0 then none
  else
    let (msg, q) := pop ipcMaxQueueDepth ep.queue
    some (msg, { ep with queue := q })

def ipcHandleTableCreate : HandleTable := fun _ => ⟨0, 0, false, 0⟩

/-- The table of the process, created on first use if the kernel heap allows it. -/
def lazyTable (pr : Proc) (heap : Bool) : Option HandleTable :=
  match pr.ipcHandles with
  | some t => some t
  | none => if heap then some ipcHandleTableCreate else none

def freeHandle (t : HandleTable) : Option ℕ :=
  (List.range ipcMaxHandles).find? fun i => !(t i).allocated

def State.setHandles (s : State) (p : Pid) (t : HandleTable) : State :=
  { s with procs := Function.update s.procs p ((s.procs p).map fun pr =>
      { pr with ipcHandles := some t }) }

/-- The prologue of the IPC calls: the caller and its table, or the error. -/
def State.table (s : State) (p : Pid) (heap : Bool) : Except ℤ (State × HandleTable) :=
  match s.procs p with
  | none => .error vePerm
  | some pr =>
    match lazyTable pr heap with
    | none => .error veNomem
    | some t => .ok (s.setHandles p t, t)

/-! ## System calls

`heap` and `heap'` say whether the allocations a call makes succeed. -/

def sysIpcEndpointCreate (s : State) (p : Pid) (heap heap' : Bool) : State × ℤ :=
  match s.table p heap with
  | .error e => (s, e)
  | .ok (s, t) =>
    match freeHandle t with
    | none => (s, veNomem)
    | some h =>
      if !heap' then (s, veNomem)
      else
        let ep : Endpoint := ⟨p, h, false, empty emptyMessage, s.nextUid⟩
        match ipcEndpointRegister s.registry ep p h with
        | none => (s, veNomem)
        | some reg =>
          let s := s.setHandles p (Function.update t h ⟨p, h, true, s.nextUid⟩)
          ({ s with registry := reg, nextUid := s.nextUid + 1 }, h)

/-- A buffer of the caller: its bytes, and whether its pages pass `user_range_ok`. -/
structure UserData where
  bytes : List UInt8
  valid : Bool

def State.enqueue (s : State) (i : ℕ) (ep : Endpoint) (msg : Message) : State × ℤ :=
  match ipcQueueEnqueue ep msg with
  | .error e => (s, e)
  | .ok ep' =>
    ({ s with registry := setEndpoint s.registry i ep', sent := (ep.uid, msg) :: s.sent }, 0)

def sysIpcSend (s : State) (p : Pid) (heap : Bool) (h : ℤ) (tag : UInt32) (data : UserData) :
    State × ℤ :=
  match s.table p heap with
  | .error e => (s, e)
  | .ok (s, t) =>
    if h < 0 ∨ ipcMaxHandles ≤ h then (s, veBadf)
    else if ipcMaxData < data.bytes.length then (s, veInval)
    else
      let entry := t h.toNat
      if !entry.allocated then (s, veBadf)
      else match endpointOf s.registry entry.targetPid entry.targetEndpointId with
        | none => (s, veBadf)
        | some (i, ep) =>
          if data.bytes ≠ [] ∧ !data.valid then (s, veFault)
          else s.enqueue i ep ⟨p, tag, data.bytes⟩

/-- What `sys_ipc_recv` returns and writes to the caller's memory; `taken` is ghost: the
message it took off the queue. -/
structure Received where
  ret : ℤ
  tag : Option UInt32
  data : List UInt8
  taken : Option Message
deriving DecidableEq

/-- The copy-out half of `sys_ipc_recv`. An output pointer is absent, bad or good. -/
def deliver (msg : Message) (tagOut dataOut : Option Bool) (maxLen : ℕ) : Received :=
  if tagOut = some false then ⟨veFault, none, [], some msg⟩
  else
    let tag := tagOut.map fun _ => msg.tag
    let copyLen := min msg.data.length maxLen
    if 0 < copyLen ∧ dataOut = some false then ⟨veFault, tag, [], some msg⟩
    else ⟨copyLen, tag, if dataOut = none then [] else msg.data.take copyLen, some msg⟩

def sysIpcRecv (s : State) (p : Pid) (heap : Bool) (h : ℤ) (tagOut dataOut : Option Bool)
    (maxLen : ℕ) : State × Received :=
  match s.table p heap with
  | .error e => (s, ⟨e, none, [], none⟩)
  | .ok (s, t) =>
    if h < 0 ∨ ipcMaxHandles ≤ h then (s, ⟨veBadf, none, [], none⟩)
    else
      let entry := t h.toNat
      if !entry.allocated then (s, ⟨veBadf, none, [], none⟩)
      else match endpointOf s.registry entry.targetPid entry.targetEndpointId with
        | none => (s, ⟨veBadf, none, [], none⟩)
        | some (i, ep) =>
          match ipcQueueDequeue ep with
          | none => (s, ⟨0, none, [], none⟩)
          | some (msg, ep') =>
            ({ s with registry := setEndpoint s.registry i ep' }, deliver msg tagOut dataOut maxLen)

def sysIpcConnect (s : State) (p : Pid) (heap : Bool) (target : Pid) (id : ℕ) : State × ℤ :=
  match s.procs p with
  | none => (s, vePerm)
  | some _ =>
    match endpointOf s.registry target id with
    | none => (s, veBadf)
    | some (_, ep) =>
      if ep.closed then (s, veBadf)
      else match s.table p heap with
        | .error e => (s, e)
        | .ok (s, t) =>
          match freeHandle t with
          | none => (s, veNomem)
          | some h => (s.setHandles p (Function.update t h ⟨target, id, true, ep.uid⟩), h)

/-- `svc_on_endpoint_close`: frees the first service with the name of the endpoint. -/
def svcOnEndpointClose (svcs : List SvcEntry) (owner : Pid) (id : ℕ) : List SvcEntry :=
  match svcs.findIdx? fun e => e.name ≠ [] && e.ownerPid = owner && e.endpointId = id with
  | none => svcs
  | some i => svcs.modify i fun e => { e with name := [] }

def sysIpcClose (s : State) (p : Pid) (heap : Bool) (h : ℤ) : State × ℤ :=
  match s.table p heap with
  | .error e => (s, e)
  | .ok (s, t) =>
    if h < 0 ∨ ipcMaxHandles ≤ h then (s, veBadf)
    else
      let entry := t h.toNat
      if !entry.allocated then (s, veBadf)
      else
        let s := match endpointOf s.registry entry.targetPid entry.targetEndpointId with
          | none => s
          | some (i, ep) =>
            if ep.ownerPid = p then
              { s with
                registry := setEndpoint s.registry i { ep with closed := true }
                services := svcOnEndpointClose s.services p entry.targetEndpointId }
            else s
        (s.setHandles p (Function.update t h.toNat { entry with allocated := false }), 0)

end VoidOS.Ipc
