import VoidOS.Ipc

namespace VoidOS.Ipc

open SlotTable

/-- `svc_validate_name` on the bytes before the terminator; `none` is a null pointer. -/
def svcValidateName : Option (List UInt8) → Except ℤ (List UInt8)
  | none => .error veFault
  | some name =>
    if name.length = 0 then .error veInval
    else if svcNameLen ≤ name.length then .error veInval
    else .ok name

def svcFindName (svcs : List SvcEntry) (name : List UInt8) : Option ℕ :=
  svcs.findIdx? fun e => e.name ≠ [] && e.name = name

/-- `svc_free_slot` and the stores of `sys_sr_register`. -/
def svcPut (svcs : List SvcEntry) (e : SvcEntry) : Option (List SvcEntry) :=
  match svcs.findIdx? fun e => e.name = [] with
  | some i => some (svcs.set i e)
  | none => if svcMaxServices ≤ svcs.length then none else some (svcs ++ [e])

/-- `svc_check_endpoint`: the entry of a handle to a registered endpoint of the caller. -/
def svcCheckEndpoint (s : State) (p : Pid) (pr : Proc) (h : ℤ) : Option (HandleEntry × Endpoint) :=
  if h < 0 ∨ ipcMaxHandles ≤ h then none
  else match pr.ipcHandles with
    | none => none
    | some t =>
      let entry := t h.toNat
      if !entry.allocated then none
      else if entry.targetPid ≠ p then none
      else match endpointOf s.registry p entry.targetEndpointId with
        | none => none
        | some (_, ep) => if ep.ownerPid ≠ p then none else some (entry, ep)

def sysSrRegister (s : State) (p : Pid) (name : Option (List UInt8)) (h : ℤ) : State × ℤ :=
  match s.procs p with
  | none => (s, veFault)
  | some pr =>
    match svcValidateName name with
    | .error e => (s, e)
    | .ok name =>
      match svcCheckEndpoint s p pr h with
      | none => (s, veBadf)
      | some (entry, ep) =>
        if (svcFindName s.services name).isSome then (s, vePerm)
        else match svcPut s.services ⟨name, p, entry.targetEndpointId, ep.uid⟩ with
          | none => (s, veNomem)
          | some svcs => ({ s with services := svcs }, 0)

def sysSrUnregister (s : State) (p : Pid) (name : Option (List UInt8)) (h : ℤ) : State × ℤ :=
  match s.procs p with
  | none => (s, veFault)
  | some pr =>
    match svcValidateName name with
    | .error e => (s, e)
    | .ok name =>
      match svcCheckEndpoint s p pr h with
      | none => (s, veBadf)
      | some _ =>
        match svcFindName s.services name with
        | none => (s, veNoent)
        | some i =>
          if s.services[i]?.map SvcEntry.ownerPid ≠ some p then (s, vePerm)
          else ({ s with services := s.services.modify i fun e => { e with name := [] } }, 0)

/-- `sys_sr_lookup`: mints a handle for the registered name without looking it up. -/
def sysSrLookup (s : State) (p : Pid) (heap : Bool) (name : Option (List UInt8)) : State × ℤ :=
  match s.procs p with
  | none => (s, veFault)
  | some _ =>
    match svcValidateName name with
    | .error e => (s, e)
    | .ok name =>
      match (svcFindName s.services name).bind fun i => s.services[i]? with
      | none => (s, veNoent)
      | some e =>
        match s.table p heap with
        | .error e => (s, e)
        | .ok (s, t) =>
          match freeHandle t with
          | none => (s, veNomem)
          | some h =>
            (s.setHandles p (Function.update t h ⟨e.ownerPid, e.endpointId, true, e.uid⟩), h)

def svcCleanupOwner (svcs : List SvcEntry) (owner : Pid) : List SvcEntry :=
  svcs.map fun e => if e.ownerPid = owner then { e with name := [] } else e

/-- How a creation ends: no slot or address space, a failure that destroys the new
process again, or success. -/
inductive Creation
  | refused
  | undone
  | done
deriving DecidableEq

/-- The part of `process_alloc` and of the copy in `process_fork_current` that IPC sees. -/
def State.addProc (s : State) (handles : Option HandleTable) : State :=
  { s with
    procs := Function.update s.procs s.nextPid (some ⟨false, handles⟩)
    nextPid := s.nextPid + 1 }

def processDestroy (s : State) (c : Pid) : State :=
  { s with
    procs := Function.update s.procs c none
    registry := ipcEndpointUnregisterByOwner s.registry c
    services := svcCleanupOwner s.services c }

def processSpawn (s : State) (o : Creation) : State :=
  match o with
  | .refused => s
  | .undone => processDestroy (s.addProc none) s.nextPid
  | .done => s.addProc none

/-- `process_fork_current`: the child gets a copy of the handle table. -/
def processFork (s : State) (p : Pid) (o : Creation) : State × ℤ :=
  match s.procs p with
  | none => (s, vePerm)
  | some pr =>
    if p = 0 ∨ pr.zombie then (s, vePerm)
    else match o with
      | .refused => (s, veNomem)
      | .undone => (processDestroy (s.addProc pr.ipcHandles) s.nextPid, veNomem)
      | .done => (s.addProc pr.ipcHandles, s.nextPid)

/-- `process_exit_current`: endpoints and services go, the handle table stays until reaping. -/
def processExit (s : State) (p : Pid) : State :=
  if p = 0 then s
  else
    { s with
      procs := Function.update s.procs p ((s.procs p).map fun pr => { pr with zombie := true })
      registry := ipcEndpointUnregisterByOwner s.registry p
      services := svcCleanupOwner s.services p }

inductive Op
  | create (p : Pid) (heap heap' : Bool)
  | send (p : Pid) (heap : Bool) (h : ℤ) (tag : UInt32) (data : UserData)
  | recv (p : Pid) (heap : Bool) (h : ℤ) (tagOut dataOut : Option Bool) (maxLen : ℕ)
  | connect (p : Pid) (heap : Bool) (target : Pid) (id : ℕ)
  | close (p : Pid) (heap : Bool) (h : ℤ)
  | srRegister (p : Pid) (name : Option (List UInt8)) (h : ℤ)
  | srUnregister (p : Pid) (name : Option (List UInt8)) (h : ℤ)
  | srLookup (p : Pid) (heap : Bool) (name : Option (List UInt8))
  | spawn (o : Creation)
  | fork (p : Pid) (o : Creation)
  | exit (p : Pid)
  | reap (c : Pid)

def step (s : State) : Op → Option State
  | .create p heap heap' => some (sysIpcEndpointCreate s p heap heap').1
  | .send p heap h tag data => some (sysIpcSend s p heap h tag data).1
  | .recv p heap h tagOut dataOut maxLen => some (sysIpcRecv s p heap h tagOut dataOut maxLen).1
  | .connect p heap target id => some (sysIpcConnect s p heap target id).1
  | .close p heap h => some (sysIpcClose s p heap h).1
  | .srRegister p name h => some (sysSrRegister s p name h).1
  | .srUnregister p name h => some (sysSrUnregister s p name h).1
  | .srLookup p heap name => some (sysSrLookup s p heap name).1
  | .spawn o => some (processSpawn s o)
  | .fork p o => some (processFork s p o).1
  | .exit p => some (processExit s p)
  | .reap c => some (processDestroy s c)

def Running (s : State) (p : Pid) : Prop := ∃ pr, s.procs p = some pr ∧ pr.zombie = false

instance (s : State) (p : Pid) : Decidable (Running s p) :=
  decidable_of_iff ((s.procs p).any (fun pr => !pr.zombie) = true) (by
    simp [Running, Option.any_eq_true])

/-- Calls are made by running processes, and zombies are reaped. -/
def Legal (s : State) : Op → Prop
  | .create p _ _ => Running s p
  | .send p _ _ _ _ => Running s p
  | .recv p _ _ _ _ _ => Running s p
  | .connect p _ _ _ => Running s p
  | .close p _ _ => Running s p
  | .srRegister p _ _ => Running s p
  | .srUnregister p _ _ => Running s p
  | .srLookup p _ _ => Running s p
  | .spawn _ => True
  | .fork p _ => Running s p
  | .exit p => Running s p
  | .reap c => ∃ pr, s.procs c = some pr ∧ pr.zombie = true

instance (s : State) (a : Op) : Decidable (Legal s a) :=
  match a with
  | .create p _ _ => inferInstanceAs (Decidable (Running s p))
  | .send p _ _ _ _ => inferInstanceAs (Decidable (Running s p))
  | .recv p _ _ _ _ _ => inferInstanceAs (Decidable (Running s p))
  | .connect p _ _ _ => inferInstanceAs (Decidable (Running s p))
  | .close p _ _ => inferInstanceAs (Decidable (Running s p))
  | .srRegister p _ _ => inferInstanceAs (Decidable (Running s p))
  | .srUnregister p _ _ => inferInstanceAs (Decidable (Running s p))
  | .srLookup p _ _ => inferInstanceAs (Decidable (Running s p))
  | .spawn _ => inferInstanceAs (Decidable True)
  | .fork p _ => inferInstanceAs (Decidable (Running s p))
  | .exit p => inferInstanceAs (Decidable (Running s p))
  | .reap c => decidable_of_iff ((s.procs c).any (·.zombie) = true) (by
      simp [Legal, Option.any_eq_true])

/-- After `process_init` only the kernel process exists. -/
def initState : State :=
  ⟨Function.update (fun _ => none) 0 (some ⟨false, none⟩), 1, [], [], 0, []⟩

def Init (s : State) : Prop := s = initState

end VoidOS.Ipc
