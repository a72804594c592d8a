import VoidOS.ByteMem
import VoidOS.IpcFresh

namespace VoidOS.Calc

open SlotTable RingBuffer Transition VoidOS.Ipc

def calcReqLen : ℕ := 20
def calcReqPid : ℕ := 0
def calcReqEp : ℕ := 4
def calcReqOp : ℕ := 8
def calcReqA : ℕ := 12
def calcReqB : ℕ := 16
def calcRespResult : ℕ := 0
def calcRespStatus : ℕ := 4
def calcRespLen : ℕ := 8
def calcOpAdd : ℕ := 1
def calcOpSub : ℕ := 2

/-- The four bytes at an offset of a buffer, as a number. -/
def u32 (buf : List UInt8) (off : ℕ) : ℕ := ByteMem.load (fun i => buf.getD i 0) off 4

def putU32 (v : ℕ) : List UInt8 := (List.range 4).map fun i => UInt8.ofNat (v / 256 ^ i)

/-- The endpoint that a request names; the kernel reads the pid as a signed number. -/
def clientPid (buf : List UInt8) : Pid := (u32 buf calcReqPid : ℤ).bmod (2 ^ 32)

def clientEndpoint (buf : List UInt8) : ℕ := u32 buf calcReqEp

/-- `handle_request`: the reply, or none for an unknown operation. -/
def handleRequest (req : List UInt8) : Option (List UInt8) :=
  let op := u32 req calcReqOp
  let a := u32 req calcReqA
  let b := u32 req calcReqB
  if op = calcOpAdd then some (putU32 ((a + b) % 2 ^ 32) ++ putU32 0)
  else if op = calcOpSub then some (putU32 ((a + 2 ^ 32 - b) % 2 ^ 32) ++ putU32 0)
  else none

inductive Pc
  | create
  | register (server : ℤ)
  | recv (server : ℤ)
  | connect (server : ℤ) (tag : UInt32) (buf : List UInt8)
  | send (server replyH : ℤ) (tag : UInt32) (reply : List UInt8)
  | exited (status : ℤ)
deriving DecidableEq

/-- A well-formed request that the service has received, and the endpoint it named then. -/
structure Request where
  tag : UInt32
  buf : List UInt8
  uid : ℕ

/-- The service as a process of the kernel. The list of its requests is ghost. -/
structure Service where
  pid : Pid
  ipc : State
  pc : Pc
  requests : List Request

def WellFormed (buf : List UInt8) : Prop :=
  calcReqLen ≤ buf.length ∧ (u32 buf calcReqOp = calcOpAdd ∨ u32 buf calcReqOp = calcOpSub)

instance (buf : List UInt8) : Decidable (WellFormed buf) := by
  delta WellFormed
  infer_instance

def namedUid (s : State) (buf : List UInt8) : ℕ :=
  match endpointOf s.registry (clientPid buf) (clientEndpoint buf) with
  | none => 0
  | some (_, ep) => ep.uid

/-- One system call of `main` and the code after it; `heap` and `heap'` are for the allocations of
the call. -/
def main (c : Service) (heap heap' : Bool) : Service :=
  match c.pc with
  | .create =>
    let (s, server) := sysIpcEndpointCreate c.ipc c.pid heap heap'
    if server < 0 then { c with ipc := processExit s c.pid, pc := .exited 1 }
    else { c with ipc := s, pc := .register server }
  | .register server =>
    let (s, reg) := sysSrRegister c.ipc c.pid (some [0x63, 0x61, 0x6C, 0x63]) server
    if reg < 0 then { c with ipc := processExit s c.pid, pc := .exited 2 }
    else { c with ipc := s, pc := .recv server }
  | .recv server =>
    let (s, r) := sysIpcRecv c.ipc c.pid heap server (some true) (some true) 512
    if r.ret = 0 then { c with ipc := s }
    else if r.ret < 0 then { c with ipc := processExit s c.pid, pc := .exited 0 }
    else if r.ret < calcReqLen then { c with ipc := s }
    else
      { c with
        ipc := s
        pc := .connect server (r.tag.getD 0) r.data
        requests := if WellFormed r.data then
            ⟨r.tag.getD 0, r.data, namedUid s r.data⟩ :: c.requests
          else c.requests }
  | .connect server tag buf =>
    let (s, replyH) := sysIpcConnect c.ipc c.pid heap (clientPid buf) (clientEndpoint buf)
    if replyH < 0 then { c with ipc := s, pc := .recv server }
    else
      match handleRequest buf with
      | none => { c with ipc := s, pc := .recv server }
      | some reply => { c with ipc := s, pc := .send server replyH tag reply }
  | .send server replyH tag reply =>
    { c with
      ipc := (sysIpcSend c.ipc c.pid heap replyH tag ⟨reply, true⟩).1
      pc := .recv server }
  | .exited _ => c

/-- The service goes on, or another process does something. -/
inductive Op
  | service (heap heap' : Bool)
  | other (op : Ipc.Op)

def step (c : Service) : Op → Option Service
  | .service heap heap' => some (main c heap heap')
  | .other op => (Ipc.step c.ipc op).map fun s => { c with ipc := s }

/-- The process that makes a call, or that exits or is reaped. -/
def actor : Ipc.Op → Option Pid
  | .create p _ _ => some p
  | .send p _ _ _ _ => some p
  | .recv p _ _ _ _ _ => some p
  | .connect p _ _ _ => some p
  | .close p _ _ => some p
  | .srRegister p _ _ => some p
  | .srUnregister p _ _ => some p
  | .srLookup p _ _ => some p
  | .spawn _ => none
  | .fork p _ => some p
  | .exit p => some p
  | .reap c => some c

/-- The name of the last request leads to the endpoint that it was received for, which is open. -/
def Live (c : Service) : Prop :=
  ∀ r ∈ c.requests.head?,
    ∃ x ∈ endpointOf c.ipc.registry (clientPid r.buf) (clientEndpoint r.buf),
      x.2.uid = r.uid ∧ x.2.closed = false

def HasRoom (c : Service) : Prop :=
  ∀ r ∈ c.requests.head?,
    ∀ x ∈ endpointOf c.ipc.registry (clientPid r.buf) (clientEndpoint r.buf),
      x.2.queue.count < ipcMaxQueueDepth

instance (c : Service) : Decidable (Live c) := by
  delta Live
  infer_instance

instance (c : Service) : Decidable (HasRoom c) := by
  delta HasRoom
  infer_instance

/-- The others leave the service alone, and while it serves a request the client keeps its endpoint
and takes its replies. -/
def Legal (c : Service) : Op → Prop
  | .service _ _ =>
    match c.pc with
    | .connect _ _ buf => WellFormed buf → Live c
    | .send _ _ _ _ => Live c ∧ HasRoom c
    | _ => True
  | .other op => Ipc.Legal c.ipc op ∧ actor op ≠ some c.pid

instance (c : Service) : (op : Op) → Decidable (Legal c op)
  | .service _ _ => by
    unfold Legal
    cases c.pc <;> infer_instance
  | .other op => inferInstanceAs (Decidable (Ipc.Legal c.ipc op ∧ actor op ≠ some c.pid))

def Start (c : Service) : Prop :=
  Reach Ipc.step Ipc.Legal Ipc.Init c.ipc ∧ Running c.ipc c.pid ∧ c.pc = .create ∧
    c.requests = [] ∧ ∀ x ∈ c.ipc.sent, x.2.senderPid ≠ c.pid

/-- The messages that the service has sent, with the endpoints they went to. -/
def sentBy (p : Pid) (s : State) : List (ℕ × Message) := s.sent.filter fun x => x.2.senderPid = p

structure IsReply (r : Request) (x : ℕ × Message) : Prop where
  endpoint : x.1 = r.uid
  tag : x.2.tag = r.tag
  length : x.2.data.length = calcRespLen
  status : u32 x.2.data calcRespStatus = 0
  result : u32 x.2.data calcRespResult =
    if u32 r.buf calcReqOp = calcOpAdd then (u32 r.buf calcReqA + u32 r.buf calcReqB) % 2 ^ 32
    else (u32 r.buf calcReqA + 2 ^ 32 - u32 r.buf calcReqB) % 2 ^ 32

/-- Every request that is done has had its reply; the service does not stop, and when it is idle it
takes the oldest message in its queue. -/
structure Answers (c : Service) : Prop where
  replies : ∀ server, c.pc = .recv server → List.Forall₂ IsReply c.requests (sentBy c.pid c.ipc)
  serves : c.pc ≠ .exited 0
  takes : ∀ server, c.pc = .recv server → ∃ pr t i ep, c.ipc.procs c.pid = some pr ∧
    pr.ipcHandles = some t ∧ endpointOf c.ipc.registry (t server.toNat).targetPid
      (t server.toNat).targetEndpointId = some (i, ep) ∧ ep.ownerPid = c.pid ∧
    ∀ heap, (sysIpcRecv c.ipc c.pid heap server (some true) (some true) 512).2.taken =
      (toList ipcMaxQueueDepth ep.queue).head?

/-- The service has a free handle when it connects to a client. -/
def HasHandle (c : Service) : Op → Prop
  | .service _ _ =>
    match c.pc with
    | .connect _ _ buf => WellFormed buf → (nextHandle c.ipc c.pid).isSome = true
    | _ => True
  | _ => True

instance (c : Service) : (op : Op) → Decidable (HasHandle c op)
  | .service _ _ => by
    unfold HasHandle
    cases c.pc <;> infer_instance
  | .other _ => .isTrue trivial

/-- The process `p`, the names of its endpoints and the messages it has sent are kept. -/
structure Kept (p : Pid) (s s' : State) : Prop where
  proc : s'.procs p = s.procs p
  named : ∀ id, (endpointOf s.registry p id).isSome = true →
    (endpointOf s'.registry p id).isSome = true
  sent : sentBy p s' = sentBy p s

section Others

variable {p q : Pid} {s s' s'' : State} {t : HandleTable} {heap : Bool}

theorem Kept.refl (p : Pid) (s : State) : Kept p s s := ⟨rfl, fun _ => id, rfl⟩

theorem Kept.trans (h : Kept p s s') (h' : Kept p s' s'') : Kept p s s'' :=
  ⟨h'.proc.trans h.proc, fun id hid => h'.named id (h.named id hid), h'.sent.trans h.sent⟩

theorem Kept.setHandles (hq : q ≠ p) (s : State) (t : HandleTable) : Kept p s (s.setHandles q t) :=
  ⟨Function.update_of_ne hq.symm _ _, fun _ => id, rfl⟩

theorem Kept.setEndpoint (p : Pid) (s : State) (i : ℕ) (ep : Endpoint) (svcs : List SvcEntry) :
    Kept p s { s with registry := setEndpoint s.registry i ep, services := svcs } := by
  refine ⟨rfl, fun id hid => ?_, rfl⟩
  rw [endpointOf_setEndpoint, Option.isSome_map]
  exact hid

theorem Kept.services (p : Pid) (s : State) (svcs : List SvcEntry) :
    Kept p s { s with services := svcs } := ⟨rfl, fun _ => id, rfl⟩

theorem Kept.unregister (hq : q ≠ p) (procs : Pid → Option Proc) (svcs : List SvcEntry)
    (hp : procs p = s.procs p) :
    Kept p s { s with
      procs := procs
      registry := ipcEndpointUnregisterByOwner s.registry q
      services := svcs } := by
  refine ⟨hp, fun id hid => ?_, rfl⟩
  rw [endpointOf_unregister hq.symm]
  exact hid

theorem Kept.table (hq : q ≠ p) (he : s.table q heap = .ok (s', t)) : Kept p s s' := by
  rw [(table_spec he).1]
  exact .setHandles hq s t

theorem Kept.destroy (hq : q ≠ p) : Kept p s (processDestroy s q) :=
  .unregister hq _ _ (Function.update_of_ne hq.symm _ _)

theorem Kept.addProc (hp : p ≠ s.nextPid) (handles : Option HandleTable) :
    Kept p s (s.addProc handles) := ⟨Function.update_of_ne hp _ _, fun _ => id, rfl⟩

/-- A call of another process, or one that uses no handle table. -/
theorem Kept.did {a : Ipc.Op} (hp : p < s.nextPid) (hne : ∀ q heap, a.opens = some (q, heap) → q ≠ p)
    (hexit : a ≠ .exit p) (hreap : a ≠ .reap p) (hd : Did s a s') : Kept p s s' := by
  cases hd with
  | nothing => exact .refl p s
  | opened ha he => exact .table (hne _ _ ha) he
  | created he _ hr =>
    have hq := hne _ _ rfl
    refine (Kept.table hq he).trans ⟨Function.update_of_ne hq.symm _ _, fun id hid => ?_, rfl⟩
    rw [endpointOf_register hr fun hc => hq hc.1.symm]
    exact hid
  | minted ha he =>
    have hq := hne _ _ ha
    exact (Kept.table hq he).trans (.setHandles hq _ _)
  | sent he =>
    -- the message carries the pid of its sender
    have hq := hne _ _ rfl
    refine (Kept.table hq he).trans ⟨rfl, (Kept.setEndpoint p _ _ _ []).named, ?_⟩
    unfold sentBy
    rw [List.filter_cons_of_neg]
    simpa using hq
  | received he => exact (Kept.table (hne _ _ rfl) he).trans (.setEndpoint p _ _ _ _)
  | closed he =>
    have hq := hne _ _ rfl
    exact (Kept.table hq he).trans ((Kept.setEndpoint p _ _ _ _).trans (.setHandles hq _ _))
  | dropped he =>
    have hq := hne _ _ rfl
    exact (Kept.table hq he).trans (.setHandles hq _ _)
  | registered => exact .services p s _
  | unregistered => exact .services p s _
  | added => exact .addProc hp.ne _
  | undone => exact (Kept.addProc hp.ne _).trans (.destroy hp.ne')
  | exited =>
    have hq := fun hc => hexit (congrArg Ipc.Op.exit hc)
    exact .unregister hq _ _ (Function.update_of_ne (Ne.symm hq) _ _)
  | reaped => exact .destroy fun hc => hreap (congrArg Ipc.Op.reap hc)

theorem Kept.other {a : Ipc.Op} (hp : p < s.nextPid) (ha : actor a ≠ some p)
    (hs : Ipc.step s a = some s') : Kept p s s' := by
  refine .did hp ?_ ?_ ?_ (step_did hs)
  · rintro q heap hopens rfl
    cases a <;> simp_all [Ipc.Op.opens, actor]
  · rintro rfl
    exact ha rfl
  · rintro rfl
    exact ha rfl

end Others

/-- The handle `h` of the process is allocated and holds the name. -/
def HandleTo (s : State) (p : Pid) (h : ℤ) (target : Pid) (id : ℕ) : Prop :=
  ∃ pr t, ∃ k : ℕ, s.procs p = some pr ∧ pr.zombie = false ∧ pr.ipcHandles = some t ∧ h = k ∧
    k < ipcMaxHandles ∧ (t k).allocated = true ∧ (t k).targetPid = target ∧
    (t k).targetEndpointId = id

/-- The handle of the service leads to one of its endpoints. -/
def Serves (s : State) (p : Pid) (h : ℤ) : Prop :=
  ∃ id, HandleTo s p h p id ∧ (endpointOf s.registry p id).isSome = true

/-- Where the service is: its handle, and which requests have had their replies. -/
def Progress (p : Pid) (s : State) (requests : List Request) : Pc → Prop
  | .create => Running s p ∧ List.Forall₂ IsReply requests (sentBy p s)
  | .register server => Serves s p server ∧ List.Forall₂ IsReply requests (sentBy p s)
  | .recv server => Serves s p server ∧ List.Forall₂ IsReply requests (sentBy p s)
  | .connect server tag buf => Serves s p server ∧ calcReqLen ≤ buf.length ∧
      ∃ done, List.Forall₂ IsReply done (sentBy p s) ∧
        ((WellFormed buf ∧ ∃ uid, requests = ⟨tag, buf, uid⟩ :: done) ∨
          (¬ WellFormed buf ∧ requests = done))
  | .send server replyH tag reply => Serves s p server ∧ ∃ r done, requests = r :: done ∧
      List.Forall₂ IsReply done (sentBy p s) ∧ tag = r.tag ∧ handleRequest r.buf = some reply ∧
      HandleTo s p replyH (clientPid r.buf) (clientEndpoint r.buf)
  | .exited status => status ≠ 0

structure Inv (c : Service) : Prop where
  ipc : Ipc.Inv c.ipc
  progress : Progress c.pid c.ipc c.requests c.pc

section Invariant

variable {c c' : Service} {p : Pid} {s s' : State} {h server : ℤ} {pc : Pc} {rs : List Request}

theorem HandleTo.kept {target : Pid} {id : ℕ} (hh : HandleTo s p h target id)
    (hk : Kept p s s') : HandleTo s' p h target id := by
  unfold HandleTo
  rw [hk.proc]
  exact hh

theorem Serves.kept (hs : Serves s p h) (hk : Kept p s s') : Serves s' p h := by
  obtain ⟨id, hh, hsome⟩ := hs
  exact ⟨id, hh.kept hk, hk.named id hsome⟩

theorem Progress.kept (hp : Progress p s rs pc) (hk : Kept p s s') : Progress p s' rs pc := by
  cases pc with
  | create =>
    obtain ⟨hrun, hlog⟩ := hp
    refine ⟨?_, hk.sent ▸ hlog⟩
    unfold Running
    rw [hk.proc]
    exact hrun
  | register server => exact ⟨hp.1.kept hk, hk.sent ▸ hp.2⟩
  | recv server => exact ⟨hp.1.kept hk, hk.sent ▸ hp.2⟩
  | connect server tag buf =>
    obtain ⟨hs, hlen, done, hlog, hcase⟩ := hp
    exact ⟨hs.kept hk, hlen, done, hk.sent ▸ hlog, hcase⟩
  | send server replyH tag reply =>
    obtain ⟨hs, r, done, hr, hlog, htag, hreply, hh⟩ := hp
    exact ⟨hs.kept hk, r, done, hr, hk.sent ▸ hlog, htag, hreply, hh.kept hk⟩
  | exited status => exact hp

theorem Serves.proc (hs : Serves s p h) : ∃ pr, s.procs p = some pr := by
  obtain ⟨_, ⟨pr, _, _, hp, -⟩, -⟩ := hs
  exact ⟨pr, hp⟩

theorem Progress.proc (hp : Progress p s rs pc) :
    (∃ status, pc = .exited status) ∨ ∃ pr, s.procs p = some pr := by
  cases pc with
  | create =>
    obtain ⟨⟨pr, hpr, -⟩, -⟩ := hp
    exact Or.inr ⟨pr, hpr⟩
  | register server => exact Or.inr hp.1.proc
  | recv server => exact Or.inr hp.1.proc
  | connect server tag buf => exact Or.inr hp.1.proc
  | send server replyH tag reply => exact Or.inr hp.1.proc
  | exited status => exact Or.inl ⟨status, rfl⟩

theorem HandleTo.fill {pr : Proc} {t : HandleTable} {k id : ℕ} {e : HandleEntry} {target : Pid}
    (hp : s.procs p = some pr) (ht : pr.ipcHandles = some t) (hf : freeHandle t = some k)
    (hh : HandleTo s p h target id) :
    HandleTo (s.setHandles p (Function.update t k e)) p h target id := by
  obtain ⟨pr', t', j, hp', hz, ht', hj, hlt, ha, htgt, hid⟩ := hh
  rw [hp] at hp'
  cases hp'
  rw [ht] at ht'
  cases ht'
  have hjk : j ≠ k := by
    rintro rfl
    rw [(freeHandle_spec hf).1] at ha
    cases ha
  refine ⟨{ pr with ipcHandles := some (Function.update t k e) }, Function.update t k e, j,
    by rw [setHandles_procs hp, if_pos rfl], hz, rfl, hj, hlt, ?_, ?_, ?_⟩
  all_goals rwa [Function.update_of_ne hjk]

theorem HandleTo.new {pr : Proc} {t : HandleTable} {k uid id : ℕ} {target : Pid}
    (hp : s.procs p = some pr) (hz : pr.zombie = false) (hf : freeHandle t = some k) :
    HandleTo (s.setHandles p (Function.update t k ⟨target, id, true, uid⟩)) p k target id := by
  refine ⟨{ pr with ipcHandles := some (Function.update t k ⟨target, id, true, uid⟩) },
    Function.update t k ⟨target, id, true, uid⟩, k, by rw [setHandles_procs hp, if_pos rfl], hz, rfl,
    rfl, (freeHandle_spec hf).2, ?_⟩
  rw [Function.update_self]
  exact ⟨rfl, rfl, rfl⟩

theorem handleRequest_wellFormed {buf : List UInt8} (hlen : calcReqLen ≤ buf.length) :
    WellFormed buf ↔ (handleRequest buf).isSome = true := by
  unfold WellFormed handleRequest
  dsimp only
  split_ifs <;> simp_all

theorem length_putU32 (v : ℕ) : (putU32 v).length = 4 := by
  simp [putU32]

theorem u32_putU32 (before after : List UInt8) (v : ℕ) :
    u32 (before ++ putU32 v ++ after) before.length = v % 2 ^ 32 := by
  rw [show (2 : ℕ) ^ 32 = 256 ^ 4 by norm_num]
  apply ByteMem.load_digits
  intro i hi
  rw [List.append_assoc, List.getD_append_right _ _ _ _ (Nat.le_add_right _ _),
    Nat.add_sub_cancel_left, List.getD_append _ _ _ _ (by rwa [length_putU32])]
  simp [putU32, List.getD_eq_getElem?_getD, hi]

theorem isReply_handleRequest {r : Request} {reply : List UInt8}
    (hr : handleRequest r.buf = some reply) : IsReply r (r.uid, ⟨p, r.tag, reply⟩) := by
  have hform : ∀ v, u32 (putU32 (v % 2 ^ 32) ++ putU32 0) calcRespResult = v % 2 ^ 32 ∧
      u32 (putU32 (v % 2 ^ 32) ++ putU32 0) calcRespStatus = 0 ∧
      (putU32 (v % 2 ^ 32) ++ putU32 0).length = calcRespLen := by
    intro v
    refine ⟨?_, ?_, ?_⟩
    · have := u32_putU32 [] (putU32 0) (v % 2 ^ 32)
      rwa [List.nil_append, Nat.mod_mod] at this
    · have := u32_putU32 (putU32 (v % 2 ^ 32)) [] 0
      rwa [List.append_nil, length_putU32] at this
    · rw [List.length_append, length_putU32, length_putU32]
      rfl
  unfold handleRequest at hr
  dsimp only at hr
  split_ifs at hr with hadd hsub
  · obtain ⟨hres, hstatus, hlen⟩ := hform (u32 r.buf calcReqA + u32 r.buf calcReqB)
    cases hr
    exact ⟨rfl, rfl, hlen, hstatus, by rw [if_pos hadd]; exact hres⟩
  · obtain ⟨hres, hstatus, hlen⟩ := hform (u32 r.buf calcReqA + 2 ^ 32 - u32 r.buf calcReqB)
    cases hr
    exact ⟨rfl, rfl, hlen, hstatus, by rw [if_neg hadd]; exact hres⟩

theorem Did.sent_eq {heap heap' : Bool} (hd : Did s (.create p heap heap') s') :
    s'.sent = s.sent := by
  cases hd with
  | nothing => rfl
  | opened _ he => rw [(table_spec he).1]; rfl
  | created he => rw [(table_spec he).1]; rfl
  | minted _ he => rw [(table_spec he).1]; rfl
  | added => rfl
  | undone => rfl

theorem Serves.running (hs : Serves s p server) : Running s p := by
  obtain ⟨id, ⟨pr, t, k, hp, hz, -⟩, -⟩ := hs
  exact ⟨pr, hp, hz⟩

theorem exit_inv (hi : Ipc.Inv s) : Ipc.Inv (processExit s p) := by
  unfold processExit
  split
  · exact hi
  · exact @effect_inv (fun _ _ _ => True) _ _ hi (.exit p)

theorem main_create {heap heap' : Bool} (hi : Ipc.Inv c.ipc) (hpc : c.pc = .create)
    (hp : Progress c.pid c.ipc c.requests .create) : Inv (main c heap heap') := by
  obtain ⟨hrun, hlog⟩ := hp
  have hinv : Ipc.Inv (sysIpcEndpointCreate c.ipc c.pid heap heap').1 :=
    step_inv (a := .create c.pid heap heap') hi hrun rfl
  have hsent := Did.sent_eq (@create_did c.ipc c.pid heap heap')
  obtain ⟨pr₀, hpr₀, hz⟩ := hrun
  unfold main
  rw [hpc]
  dsimp only
  cases hcreate : sysIpcEndpointCreate c.ipc c.pid heap heap' with
  | mk s server =>
  rw [hcreate] at hinv hsent
  dsimp only
  split_ifs with hneg
  · exact ⟨exit_inv hinv, one_ne_zero⟩
  · obtain ⟨pr, t, k, hpr, -, hf, rfl, hpr', hr⟩ := create_succeeds hcreate (not_lt.mp hneg)
    rw [hpr₀] at hpr
    cases hpr
    refine ⟨hinv, ⟨k, ⟨_, _, k, hpr', hz, rfl, rfl, (freeHandle_spec hf).2, ?_⟩, ?_⟩, ?_⟩
    · rw [Function.update_self]
      exact ⟨rfl, rfl, rfl⟩
    · rw [Option.isSome_iff_ne_none]
      intro hnone
      refine endpointOf_eq_none_iff.mp hnone (slot c.ipc.registry)
        ⟨⟨c.pid, k, false, empty emptyMessage, c.ipc.nextUid⟩, c.pid, k⟩ ?_ ⟨rfl, rfl⟩
      rw [get_put hr, if_pos rfl]
    · dsimp only [sentBy] at hlog ⊢
      rw [hsent]
      exact hlog

theorem main_register {heap heap' : Bool} (hi : Ipc.Inv c.ipc) (hpc : c.pc = .register server)
    (hp : Progress c.pid c.ipc c.requests (.register server)) : Inv (main c heap heap') := by
  obtain ⟨pr, hpr, -⟩ := hp.1.running
  have hinv := step_inv (a := .srRegister c.pid (some [0x63, 0x61, 0x6C, 0x63]) server) hi
    hp.1.running rfl
  have hkept := Kept.did (hi.pids _ _ hpr) (by rintro _ _ ⟨⟩) (by rintro ⟨⟩) (by rintro ⟨⟩)
    (@register_did c.ipc c.pid (some [0x63, 0x61, 0x6C, 0x63]) server)
  unfold main
  rw [hpc]
  dsimp only
  split_ifs
  · exact ⟨exit_inv hinv, two_ne_zero⟩
  · exact ⟨hinv, @Progress.kept _ _ _ (.recv server) _ hp hkept⟩

theorem recv_cases (hi : Ipc.Inv s) (hs : Serves s p server) :
    ∃ pr t i ep, s.procs p = some pr ∧ pr.ipcHandles = some t ∧
      endpointOf s.registry (t server.toNat).targetPid (t server.toNat).targetEndpointId =
        some (i, ep) ∧ ep.ownerPid = p ∧
      ((toList ipcMaxQueueDepth ep.queue = [] ∧ ∀ heap,
          sysIpcRecv s p heap server (some true) (some true) 512 = (s, ⟨0, none, [], none⟩)) ∨
        ∃ msg ep', (toList ipcMaxQueueDepth ep.queue).head? = some msg ∧ ∀ heap,
          sysIpcRecv s p heap server (some true) (some true) 512 =
            ({ s with registry := setEndpoint s.registry i ep' },
              deliver msg (some true) (some true) 512)) := by
  obtain ⟨id, ⟨pr, t, k, hp, -, ht, rfl, hk, ha, htgt, rfl⟩, hsome⟩ := hs
  obtain ⟨⟨i, ep⟩, hfind⟩ := Option.isSome_iff_exists.mp hsome
  obtain ⟨⟨e, hget, rfl, howner, hid⟩, -⟩ := endpointOf_eq_some_iff.mp hfind
  rw [Int.toNat_natCast]
  refine ⟨pr, t, i, e.endpoint, hp, ht, by rw [htgt, hfind], (hi.names i e hget).1.trans howner, ?_⟩
  have hring := hi.ring i e hget
  have hrecv : ∀ heap, sysIpcRecv s p heap k (some true) (some true) 512 =
      (ipcQueueDequeue e.endpoint).elim (s, ⟨0, none, [], none⟩) fun r =>
        ({ s with registry := setEndpoint s.registry i r.2 },
          deliver r.1 (some true) (some true) 512) := by
    intro heap
    unfold sysIpcRecv
    rw [table_of_handles hp ht]
    dsimp only
    rw [if_neg (by omega), Int.toNat_natCast, ha, htgt, hfind]
    simp only [Bool.not_true, Bool.false_eq_true, if_false]
    cases ipcQueueDequeue e.endpoint <;> rfl
  by_cases hc : e.endpoint.queue.count = 0
  · refine Or.inl ⟨List.length_eq_zero_iff.mp (length_toList.trans hc), fun heap => ?_⟩
    rw [hrecv, ipcQueueDequeue, if_pos hc]
    rfl
  · refine Or.inr ⟨(pop ipcMaxQueueDepth e.endpoint.queue).1, { e.endpoint with
      queue := (pop ipcMaxQueueDepth e.endpoint.queue).2 }, ?_, fun heap => ?_⟩
    · rw [toList_pop hring (Nat.pos_of_ne_zero hc)]
      rfl
    · rw [hrecv, ipcQueueDequeue, if_neg hc]
      rfl

theorem main_recv {heap heap' : Bool} (hi : Ipc.Inv c.ipc) (hpc : c.pc = .recv server)
    (hp : Progress c.pid c.ipc c.requests (.recv server)) : Inv (main c heap heap') := by
  obtain ⟨hserves, hlog⟩ := hp
  obtain ⟨pr, t, i, ep, -, -, -, -, hcase⟩ := recv_cases hi hserves
  unfold main
  rw [hpc]
  dsimp only
  rcases hcase with ⟨-, hrecv⟩ | ⟨msg, ep', -, hrecv⟩
  · rw [hrecv, if_pos rfl]
    exact ⟨hi, hserves, hlog⟩
  have hinv : Ipc.Inv (sysIpcRecv c.ipc c.pid heap server (some true) (some true) 512).1 :=
    step_inv (a := .recv c.pid heap server (some true) (some true) 512) hi hserves.running rfl
  rw [hrecv] at hinv ⊢
  have hkept : Kept c.pid c.ipc { c.ipc with registry := setEndpoint c.ipc.registry i ep' } :=
    .setEndpoint c.pid c.ipc i ep' c.ipc.services
  have hlog' := hkept.sent ▸ hlog
  have hdeliver : deliver msg (some true) (some true) 512 = ⟨(min msg.data.length 512 : ℕ),
      some msg.tag, msg.data.take (min msg.data.length 512), some msg⟩ := by
    simp [deliver]
  rw [hdeliver]
  dsimp only
  split_ifs with h0 hneg hshort hwf
  · exact ⟨hinv, hserves.kept hkept, hlog'⟩
  · omega
  · exact ⟨hinv, hserves.kept hkept, hlog'⟩
  all_goals
    have hlen : calcReqLen ≤ (msg.data.take (min msg.data.length 512)).length := by
      rw [List.length_take]
      omega
  · exact ⟨hinv, hserves.kept hkept, hlen, c.requests, hlog', Or.inl ⟨hwf, _, rfl⟩⟩
  · exact ⟨hinv, hserves.kept hkept, hlen, c.requests, hlog', Or.inr ⟨hwf, rfl⟩⟩

theorem connect_cases {pr : Proc} {t : HandleTable} {heap : Bool} (hp : s.procs p = some pr)
    (ht : pr.ipcHandles = some t) (target : Pid) (id : ℕ) :
    (∃ e < 0, sysIpcConnect s p heap target id = (s, e)) ∨
    ∃ k uid, freeHandle t = some k ∧ sysIpcConnect s p heap target id =
      (s.setHandles p (Function.update t k ⟨target, id, true, uid⟩), (k : ℤ)) := by
  have hbadf : veBadf < 0 := by decide
  have hnomem : veNomem < 0 := by decide
  unfold sysIpcConnect
  rw [hp]
  dsimp only
  split
  · exact Or.inl ⟨_, hbadf, rfl⟩
  split
  · exact Or.inl ⟨_, hbadf, rfl⟩
  rw [table_of_handles hp ht]
  dsimp only
  split
  · exact Or.inl ⟨_, hnomem, rfl⟩
  · rename_i k hk
    exact Or.inr ⟨k, _, hk, rfl⟩

theorem connect_open {pr : Proc} {t : HandleTable} {heap : Bool} (hp : s.procs p = some pr)
    (ht : pr.ipcHandles = some t) {target : Pid} {id i : ℕ} {ep : Endpoint}
    (hfind : endpointOf s.registry target id = some (i, ep)) (hopen : ep.closed = false)
    (hfree : (freeHandle t).isSome = true) : 0 ≤ (sysIpcConnect s p heap target id).2 := by
  obtain ⟨k, hk⟩ := Option.isSome_iff_exists.mp hfree
  unfold sysIpcConnect
  rw [hp, hfind]
  dsimp only
  rw [hopen, if_neg Bool.false_ne_true, table_of_handles hp ht]
  dsimp only
  rw [hk]
  exact Int.natCast_nonneg k

theorem main_connect {heap heap' : Bool} {tag : UInt32} {buf : List UInt8} (hi : Ipc.Inv c.ipc)
    (hpc : c.pc = .connect server tag buf)
    (hp : Progress c.pid c.ipc c.requests (.connect server tag buf))
    (hlive : WellFormed buf → Live c)
    (hhandle : WellFormed buf → (nextHandle c.ipc c.pid).isSome = true) :
    Inv (main c heap heap') := by
  obtain ⟨hserves, hlen, done, hlog, hcase⟩ := hp
  have hinv : Ipc.Inv (sysIpcConnect c.ipc c.pid heap (clientPid buf) (clientEndpoint buf)).1 :=
    step_inv (a := .connect c.pid heap (clientPid buf) (clientEndpoint buf)) hi hserves.running rfl
  have hserves₀ := hserves
  obtain ⟨id, ⟨pr, t, k, hpr, hz, ht, -⟩, -⟩ := hserves₀
  have hwf := handleRequest_wellFormed hlen
  unfold main
  rw [hpc]
  dsimp only
  rcases @connect_cases _ _ _ _ heap hpr ht (clientPid buf) (clientEndpoint buf) with
    ⟨e, he, heq⟩ | ⟨j, uid, hf, heq⟩
  · rw [heq, if_pos he]
    rcases hcase with ⟨hw, uid, hreq⟩ | ⟨-, hreq⟩
    · -- the client is there and a handle is free
      obtain ⟨⟨i, ep⟩, hfind, -, hopen⟩ := hlive hw ⟨tag, buf, uid⟩ (by rw [hreq]; rfl)
      have hfree : (freeHandle t).isSome = true := by
        have := hhandle hw
        rwa [nextHandle, hpr, Option.bind_some, ht, Option.getD_some] at this
      have hok := @connect_open _ _ _ _ heap hpr ht _ _ _ _ hfind hopen hfree
      rw [heq] at hok
      exact absurd he (not_lt.mpr hok)
    · exact ⟨hi, hserves, hreq ▸ hlog⟩
  · rw [heq] at hinv ⊢
    rw [if_neg (by omega)]
    have hserves' : Serves (c.ipc.setHandles c.pid (Function.update t j
        ⟨clientPid buf, clientEndpoint buf, true, uid⟩)) c.pid server := by
      obtain ⟨id, hh, hsome⟩ := hserves
      exact ⟨id, hh.fill hpr ht hf, hsome⟩
    cases hreply : handleRequest buf with
    | none =>
      rcases hcase with ⟨hw, -⟩ | ⟨-, hreq⟩
      · rw [hwf, hreply] at hw
        cases hw
      · exact ⟨hinv, hserves', hreq ▸ hlog⟩
    | some reply =>
      rcases hcase with ⟨-, uid', hreq⟩ | ⟨hw, -⟩
      · exact ⟨hinv, hserves', ⟨tag, buf, uid'⟩, done, hreq, hlog, rfl, hreply, .new hpr hz hf⟩
      · rw [hwf, hreply] at hw
        exact absurd rfl hw

theorem main_send {heap heap' : Bool} {replyH : ℤ} {tag : UInt32} {reply : List UInt8}
    (hi : Ipc.Inv c.ipc) (hpc : c.pc = .send server replyH tag reply)
    (hp : Progress c.pid c.ipc c.requests (.send server replyH tag reply)) (hlive : Live c)
    (hroom : HasRoom c) : Inv (main c heap heap') := by
  obtain ⟨hserves, r, done, hreq, hlog, rfl, hreply, pr, t, k, hpr, -, ht, rfl, hk, ha, htgt, hid⟩ :=
    hp
  have hinv : Ipc.Inv (sysIpcSend c.ipc c.pid heap k r.tag ⟨reply, true⟩).1 :=
    step_inv (a := .send c.pid heap k r.tag ⟨reply, true⟩) hi hserves.running rfl
  have hhead : r ∈ c.requests.head? := by
    rw [hreq]
    rfl
  obtain ⟨⟨i, ep⟩, hfind, huid, hopen⟩ := hlive r hhead
  have hcount := hroom r hhead (i, ep) hfind
  have hisReply := @isReply_handleRequest c.pid r reply hreply
  have hlen : reply.length ≤ ipcMaxData := by
    rw [show reply.length = calcRespLen from hisReply.length]
    decide
  have hsend := @send_eq c.ipc c.pid pr t heap k hpr ht hk ha i ep (by rw [htgt, hid, hfind]) r.tag
    reply hlen
  rw [enqueue_open hcount hopen] at hsend
  unfold main
  rw [hpc]
  dsimp only
  rw [hsend] at hinv ⊢
  refine ⟨hinv, ?_, ?_⟩
  · obtain ⟨id, hh, hsome⟩ := hserves
    refine ⟨id, hh, ?_⟩
    exact (Kept.setEndpoint c.pid c.ipc i { ep with
      queue := push ipcMaxQueueDepth ep.queue ⟨c.pid, r.tag, reply⟩ } c.ipc.services).named id hsome
  · dsimp only [sentBy] at hlog ⊢
    rw [hreq, List.filter_cons_of_pos (by simp), huid]
    exact .cons hisReply hlog

theorem Inv.step {op : Op} (h : Inv c) (hl : Legal c op) (hh : HasHandle c op)
    (hs : step c op = some c') : Inv c' := by
  cases op with
  | other op =>
    obtain ⟨s, hstep, rfl⟩ := Option.map_eq_some_iff.mp hs
    refine ⟨step_inv h.ipc hl.1 hstep, ?_⟩
    rcases h.progress.proc with ⟨status, hpc⟩ | ⟨pr, hpr⟩
    · have hp := h.progress
      rw [hpc] at hp
      dsimp only
      rw [hpc]
      exact hp
    · exact h.progress.kept (.other (h.ipc.pids _ _ hpr) hl.2 hstep)
  | service heap heap' =>
    cases hs
    have hp := h.progress
    cases hpc : c.pc with
    | create => exact main_create h.ipc hpc (hpc ▸ hp)
    | register server => exact main_register h.ipc hpc (hpc ▸ hp)
    | recv server => exact main_recv h.ipc hpc (hpc ▸ hp)
    | connect server tag buf =>
      simp only [Legal, hpc] at hl
      simp only [HasHandle, hpc] at hh
      exact main_connect h.ipc hpc (hpc ▸ hp) hl hh
    | send server replyH tag reply =>
      simp only [Legal, hpc] at hl
      exact main_send h.ipc hpc (hpc ▸ hp) hl.1 hl.2
    | exited status =>
      unfold main
      rw [hpc]
      exact h

theorem Inv.answers (h : Inv c) : Answers c := by
  have hp := h.progress
  refine ⟨fun server hpc => ?_, fun hpc => ?_, fun server hpc => ?_⟩
  · rw [hpc] at hp
    exact hp.2
  · rw [hpc] at hp
    exact hp rfl
  · rw [hpc] at hp
    obtain ⟨pr, t, i, ep, hpr, ht, hfind, howner, hcase⟩ := recv_cases h.ipc hp.1
    refine ⟨pr, t, i, ep, hpr, ht, hfind, howner, fun heap => ?_⟩
    rcases hcase with ⟨hnil, hrecv⟩ | ⟨msg, ep', hhead, hrecv⟩
    · rw [hrecv, hnil]
      rfl
    · rw [hrecv, hhead]
      simp [deliver]

end Invariant

/-- Process 1 is about to run the service; process 2 is a client. -/
def fresh : Service where
  pid := 1
  ipc := processSpawn (processSpawn initState .done) .done
  pc := .create
  requests := []

/-- The client makes an endpoint and looks the service up. -/
def setup : List Op :=
  [.service true true, .service true true, .other (.create 2 true true),
    .other (.srLookup 2 true (some [0x63, 0x61, 0x6C, 0x63]))]

/-- The client asks for a sum and takes the reply. -/
def ask : List Op :=
  [.other (.send 2 true 1 7 ⟨putU32 2 ++ putU32 0 ++ putU32 calcOpAdd ++ putU32 40 ++ putU32 2, true⟩),
    .service true true, .service true true, .service true true,
    .other (.recv 2 true 0 (some true) (some true) 64)]

theorem fresh_start : Start fresh := by
  have hspawn : ∀ {s : State}, Reach Ipc.step Ipc.Legal Ipc.Init s →
      Reach Ipc.step Ipc.Legal Ipc.Init (processSpawn s .done) := fun h =>
    h.step (show Ipc.Legal _ (.spawn .done) from trivial) rfl
  exact ⟨hspawn (hspawn reach_initState), by decide, rfl, rfl, fun x hx => nomatch hx⟩

/-- The service answers every request, as long as it has a free handle when it connects to the
client. -/
theorem calc_answers {c : Service}
    (h : Reach step (fun c op => Legal c op ∧ HasHandle c op) Start c) : Answers c := by
  apply Inv.answers
  apply h.invariant
  · rintro c ⟨hreach, hrun, hpc, hreq, hsent⟩
    have hnil : sentBy c.pid c.ipc = [] := by
      unfold sentBy
      rw [List.filter_eq_nil_iff]
      intro x hx
      simpa using hsent x hx
    refine ⟨reach_inv hreach, ?_⟩
    rw [hpc, hreq]
    exact ⟨hrun, hnil ▸ .nil⟩
  · exact fun c op c' hi hok hs => hi.step hok.1 hok.2 hs

theorem calc_answers_sum : ∃ c,
    runIf step (fun c op => Legal c op ∧ HasHandle c op) fresh (setup ++ ask) = some c ∧
    c.requests.length = 1 ∧ Answers c := by
  have hrun : (runIf step (fun c op => Legal c op ∧ HasHandle c op) fresh (setup ++ ask)).map
      (fun c => c.requests.length) = some 1 := by decide +kernel
  obtain ⟨c, hc, hlen⟩ := Option.map_eq_some_iff.mp hrun
  exact ⟨c, hc, hlen, calc_answers ((Reach.init fresh_start).runIf hc)⟩

/-- The handle table of the service is full after 63 requests, and the next one has no reply. -/
theorem calc_runs_out_of_handles : ∃ c, Reach step Legal Start c ∧
    runIf step Legal fresh (setup ++ (List.replicate 64 ask).flatten) = some c ∧
    c.pc = .recv 0 ∧ c.requests.length = 64 ∧ (sentBy c.pid c.ipc).length = 63 ∧
    ¬ Answers c := by
  have hrun : (runIf step Legal fresh (setup ++ (List.replicate 64 ask).flatten)).map
      (fun c => (c.pc, c.requests.length, (sentBy c.pid c.ipc).length)) =
      some (.recv 0, 64, 63) := by decide +kernel
  obtain ⟨c, hc, hval⟩ := Option.map_eq_some_iff.mp hrun
  simp only [Prod.mk.injEq] at hval
  obtain ⟨hpc, hreq, hsent⟩ := hval
  refine ⟨c, (Reach.init fresh_start).runIf hc, hc, hpc, hreq, hsent, fun ha => ?_⟩
  have := (ha.replies 0 hpc).length_eq
  omega

end VoidOS.Calc
