import VoidOS.CopyLaws
import VoidOS.IpcFresh

namespace VoidOS.Ipc

open SlotTable RingBuffer Transition ByteMem Mm

/-- The inter-process state together with the memory the calls copy from and to.
`received` is ghost: the log of every message delivered, with its endpoint. -/
structure World where
  ipc : State
  ram : Mem
  cr3 : Pid → ℕ
  received : List (ℕ × Message)

def tagBytes (tag : UInt32) : List UInt8 :=
  (List.range 4).map fun i => UInt8.ofNat (tag.toNat / 256 ^ i)

/-- The buffer of `sys_ipc_send`, read by `copy_from_user`. -/
def userData (m : Mem) (cr3 data dataLen : ℕ) : UserData :=
  match copyFromUser m cr3 data dataLen with
  | some bytes => ⟨bytes, true⟩
  | none => ⟨List.replicate dataLen 0, false⟩

def World.send (w : World) (p : Pid) (heap : Bool) (h : ℤ) (tag : UInt32) (data dataLen : ℕ) :
    World × ℤ :=
  let r := sysIpcSend w.ipc p heap h tag (userData w.ram (w.cr3 p) data dataLen)
  ({ w with ipc := r.1 }, r.2)

/-- The copies to user space at the end of `sys_ipc_recv`. The range checks before them are
those `copy_to_user` repeats. -/
def copyMessage (m : Mem) (cr3 : ℕ) (msg : Message) (tagOut dataOut maxLen : ℕ) : Mem × ℤ :=
  let (m, ok) := if tagOut = 0 then (m, true) else copyToUser m cr3 tagOut (tagBytes msg.tag)
  if !ok then (m, veFault)
  else
    let copyLen := min msg.data.length maxLen
    if 0 < copyLen ∧ dataOut ≠ 0 then
      let (m, ok) := copyToUser m cr3 dataOut (msg.data.take copyLen)
      if !ok then (m, veFault) else (m, copyLen)
    else (m, copyLen)

def World.recv (w : World) (p : Pid) (heap : Bool) (h : ℤ) (tagOut dataOut maxLen : ℕ) :
    World × ℤ :=
  match w.ipc.table p heap with
  | .error e => (w, e)
  | .ok (s, t) =>
    if h < 0 ∨ ipcMaxHandles ≤ h then ({ w with ipc := s }, veBadf)
    else
      let entry := t h.toNat
      if !entry.allocated then ({ w with ipc := s }, veBadf)
      else match endpointOf s.registry entry.targetPid entry.targetEndpointId with
        | none => ({ w with ipc := s }, veBadf)
        | some (i, ep) =>
          match ipcQueueDequeue ep with
          | none => ({ w with ipc := s }, 0)
          | some (msg, ep') =>
            let r := copyMessage w.ram (w.cr3 p) msg tagOut dataOut maxLen
            ({ w with
                ipc := { s with registry := setEndpoint s.registry i ep' }
                ram := r.1
                received := if 0 ≤ r.2 then (ep.uid, msg) :: w.received else w.received }, r.2)

/-- `memory` stands for whatever processes and the rest of the kernel do to the memory. -/
inductive Call
  | send (p : Pid) (heap : Bool) (h : ℤ) (tag : UInt32) (data dataLen : ℕ)
  | recv (p : Pid) (heap : Bool) (h : ℤ) (tagOut dataOut maxLen : ℕ)
  | other (a : Op)
  | memory (ram : Mem) (cr3 : Pid → ℕ)

def Op.isTransfer : Op → Bool
  | .send .. => true
  | .recv .. => true
  | _ => false

def World.step (w : World) : Call → Option World
  | .send p heap h tag data dataLen => some (w.send p heap h tag data dataLen).1
  | .recv p heap h tagOut dataOut maxLen => some (w.recv p heap h tagOut dataOut maxLen).1
  | .other a =>
    if a.isTransfer then none else (Ipc.step w.ipc a).map fun s => { w with ipc := s }
  | .memory ram cr3 => some { w with ram := ram, cr3 := cr3 }

def World.Legal (w : World) : Call → Prop
  | .send p .. => Running w.ipc p
  | .recv p .. => Running w.ipc p
  | .other a => Ipc.Legal w.ipc a
  | .memory .. => True

instance (w : World) (a : Call) : Decidable (w.Legal a) :=
  match a with
  | .send p .. => inferInstanceAs (Decidable (Running w.ipc p))
  | .recv p .. => inferInstanceAs (Decidable (Running w.ipc p))
  | .other a => inferInstanceAs (Decidable (Ipc.Legal w.ipc a))
  | .memory .. => inferInstanceAs (Decidable True)

def World.Init (w : World) : Prop := Ipc.Init w.ipc ∧ w.received = []

/-- The handle leads the process to the endpoint in slot `i`. -/
def Resolves (s : State) (p : Pid) (h : ℤ) (i : ℕ) (ep : Endpoint) : Prop :=
  ∃ pr t, s.procs p = some pr ∧ pr.ipcHandles = some t ∧ 0 ≤ h ∧ h < ipcMaxHandles ∧
    (t h.toNat).allocated = true ∧
    endpointOf s.registry (t h.toNat).targetPid (t h.toNat).targetEndpointId = some (i, ep)

def Outputs (tagOut dataOut n v : ℕ) : Prop :=
  (tagOut ≠ 0 ∧ InBuffer tagOut 4 v) ∨ (dataOut ≠ 0 ∧ InBuffer dataOut n v)

/-- Output pointers that are absent or name writable memory of the caller, apart from
each other. -/
structure ValidBuffers (m : Mem) (cr3 tagOut dataOut n : ℕ) : Prop where
  tag : tagOut ≠ 0 → userRangeOk m cr3 tagOut 4 true = true
  data : dataOut ≠ 0 → 0 < n → userRangeOk m cr3 dataOut n true = true
  priv : Private m cr3 (Outputs tagOut dataOut n)
  apart : tagOut ≠ 0 → dataOut ≠ 0 → tagOut + 4 ≤ dataOut ∨ dataOut + n ≤ tagOut

/-- Receives from the object `u` are made with valid buffers. -/
def World.Valid (u : ℕ) (w : World) : Call → Prop
  | .recv p _ h tagOut dataOut maxLen => ∀ i ep msg ep', Resolves w.ipc p h i ep → ep.uid = u →
      ipcQueueDequeue ep = some (msg, ep') →
      ValidBuffers w.ram (w.cr3 p) tagOut dataOut (min msg.data.length maxLen)
  | _ => True

/-- The messages of one endpoint in a log, oldest first. -/
def messages (u : ℕ) (log : List (ℕ × Message)) : List Message :=
  (log.reverse.filter fun x => x.1 = u).map Prod.snd

/-- The queue of the object `u` holds what it has accepted and not delivered. -/
structure QueueOk (u : ℕ) (w : World) (q : Buffer Message) : Prop where
  split : messages u w.ipc.sent = messages u w.received ++ toList ipcMaxQueueDepth q
  count : q.count = (messages u w.ipc.sent).length - (messages u w.received).length
  le : q.count ≤ 16
  tail : q.tail = (q.head + q.count) % 16

/-- A well-formed send to the object `u` is refused iff the object is full or closed; if it
is accepted, the message has the bytes that are in the buffer now. -/
def SendOk (u : ℕ) (w : World) : Prop :=
  ∀ p heap h tag data dataLen i ep, Resolves w.ipc p h i ep → ep.uid = u → dataLen ≤ ipcMaxData →
    (dataLen = 0 ∨ userRangeOk w.ram (w.cr3 p) data dataLen false = true ∧
      Mapped w.ram (w.cr3 p) data dataLen) →
    ((w.send p heap h tag data dataLen).2 ≠ 0 ↔ ep.queue.count = 16 ∨ ep.closed = true) ∧
    ((w.send p heap h tag data dataLen).2 = 0 →
      messages u (w.send p heap h tag data dataLen).1.ipc.sent =
        messages u w.ipc.sent ++ [⟨p, tag, userBytes w.ram (w.cr3 p) data dataLen⟩])

/-- A receive from the object `u` delivers the oldest message it holds. -/
def RecvOk (u : ℕ) (w : World) : Prop :=
  ∀ p heap h tagOut dataOut maxLen i ep msg rest, Resolves w.ipc p h i ep → ep.uid = u →
    toList ipcMaxQueueDepth ep.queue = msg :: rest →
    ValidBuffers w.ram (w.cr3 p) tagOut dataOut (min msg.data.length maxLen) →
    (w.recv p heap h tagOut dataOut maxLen).2 = (min msg.data.length maxLen : ℕ) ∧
    messages u (w.recv p heap h tagOut dataOut maxLen).1.received =
      messages u w.received ++ [msg] ∧
    (tagOut ≠ 0 → userBytes (w.recv p heap h tagOut dataOut maxLen).1.ram (w.cr3 p) tagOut 4 =
      tagBytes msg.tag) ∧
    (dataOut ≠ 0 → userBytes (w.recv p heap h tagOut dataOut maxLen).1.ram (w.cr3 p) dataOut
      (min msg.data.length maxLen) = msg.data.take (min msg.data.length maxLen))

section Copies

variable {m m' : Mem} {cr3 tagOut dataOut maxLen : ℕ} {msg : Message}

theorem length_tagBytes (tag : UInt32) : (tagBytes tag).length = 4 := rfl

theorem copyMessage_spec
    (hv : ValidBuffers m cr3 tagOut dataOut (min msg.data.length maxLen)) :
    (copyMessage m cr3 msg tagOut dataOut maxLen).2 = (min msg.data.length maxLen : ℕ) ∧
    (tagOut ≠ 0 → userBytes (copyMessage m cr3 msg tagOut dataOut maxLen).1 cr3 tagOut 4 =
      tagBytes msg.tag) ∧
    (dataOut ≠ 0 → userBytes (copyMessage m cr3 msg tagOut dataOut maxLen).1 cr3 dataOut
      (min msg.data.length maxLen) = msg.data.take (min msg.data.length maxLen)) := by
  obtain ⟨n, hn⟩ : ∃ n, min msg.data.length maxLen = n := ⟨_, rfl⟩
  have hlen : (msg.data.take n).length = n := by
    rw [List.length_take]
    omega
  -- the memory after the tag
  obtain ⟨m₁, ht₁, hstored, hout⟩ : ∃ m₁,
      (if tagOut = 0 then (m, true) else copyToUser m cr3 tagOut (tagBytes msg.tag)) = (m₁, true) ∧
      (tagOut ≠ 0 → Stored m m₁ cr3 tagOut (tagBytes msg.tag) (tagBytes msg.tag).length) ∧
      SameOutside m m₁ cr3 (Outputs tagOut dataOut (min msg.data.length maxLen)) := by
    by_cases ht : tagOut = 0
    · rw [if_pos ht]
      exact ⟨m, rfl, fun h => absurd ht h, fun _ _ => rfl⟩
    · obtain ⟨hok, hs⟩ := copyToUser_stored (tagBytes msg.tag) (hv.tag ht)
        (hv.priv.mono fun v hin => Or.inl ⟨ht, hin⟩)
      rw [if_neg ht]
      refine ⟨_, Prod.ext rfl hok, fun _ => hs, ?_⟩
      exact hs.outside.mono fun v hin => Or.inl ⟨ht, hin⟩
  have hpriv₁ := hv.priv.after hout
  unfold copyMessage
  rw [ht₁, hn]
  simp only [Bool.not_true, Bool.false_eq_true, if_false]
  rw [hn] at hv hout hpriv₁
  by_cases hd : 0 < n ∧ dataOut ≠ 0
  · obtain ⟨hpos, hd⟩ := hd
    have hin : ∀ v, InBuffer dataOut (msg.data.take n).length v → Outputs tagOut dataOut n v :=
      fun v h => Or.inr ⟨hd, hlen ▸ h⟩
    have hrange : userRangeOk m₁ cr3 dataOut (msg.data.take n).length true = true := by
      rw [hlen, hv.priv.userRangeOk hout fun v h => Or.inr ⟨hd, h⟩]
      exact hv.data hd hpos
    obtain ⟨hok, hs⟩ := copyToUser_stored _ hrange (hpriv₁.mono hin)
    rw [if_pos ⟨hpos, hd⟩]
    simp only [hok, Bool.not_true, Bool.false_eq_true, if_false]
    refine ⟨trivial, fun ht => ?_, fun _ => ?_⟩
    · -- the data lie apart from the tag
      apply (hstored ht).userBytes hv.priv (fun v h => Or.inl ⟨ht, h⟩) hs.outside
      intro v hin'
      refine ⟨hin v hin', fun htag => ?_⟩
      have hap := hv.apart ht hd
      rw [hlen] at hin'
      unfold InBuffer at htag hin'
      rw [length_tagBytes] at htag
      omega
    · have hread := hs.userBytes (B := fun _ => False) hpriv₁ hin (fun _ _ => rfl)
        fun v h => h.elim
      rwa [hlen] at hread
  · rw [if_neg hd]
    refine ⟨rfl, fun ht => ?_, fun hd' => ?_⟩
    · exact (hstored ht).userBytes (B := fun _ => False) hv.priv (fun v h => Or.inl ⟨ht, h⟩)
        (fun _ _ => rfl) fun v h => h.elim
    · have hzero : n = 0 := by
        by_contra hne
        exact hd ⟨Nat.pos_of_ne_zero hne, hd'⟩
      rw [hzero]
      rfl

end Copies

/-- A change after which every endpoint holds what it held. -/
inductive Quiet (s s' : State) : Prop
  | keep (hsent : s'.sent = s.sent) (huid : s'.nextUid = s.nextUid)
      (hold : ∀ i e', get s'.registry i = some e' → ∃ e, get s.registry i = some e ∧
        e.endpoint.uid = e'.endpoint.uid ∧ e.endpoint.queue = e'.endpoint.queue)
  | create (k : ℕ) (hsent : s'.sent = s.sent) (huid : s'.nextUid = s.nextUid + 1)
      (hold : ∀ i e', get s'.registry i = some e' →
        (i = k ∧ e'.endpoint.uid = s.nextUid ∧ e'.endpoint.queue = empty emptyMessage) ∨
          get s.registry i = some e')

section Quiet

variable {s s' s₁ : State} {p : Pid} {t : HandleTable} {heap : Bool} {a : Op}

theorem Quiet.of_eq (hr : s'.registry = s.registry) (hsent : s'.sent = s.sent)
    (huid : s'.nextUid = s.nextUid) : Quiet s s' :=
  .keep hsent huid fun _ e hi => ⟨e, hr ▸ hi, rfl, rfl⟩

theorem table_quiet (he : s.table p heap = .ok (s₁, t)) :
    s₁.registry = s.registry ∧ s₁.sent = s.sent ∧ s₁.nextUid = s.nextUid := by
  obtain ⟨rfl, -⟩ := table_spec he
  exact ⟨rfl, rfl, rfl⟩

theorem Quiet.unregister {c : Pid} (hr : s'.registry = ipcEndpointUnregisterByOwner s.registry c)
    (hsent : s'.sent = s.sent) (huid : s'.nextUid = s.nextUid) : Quiet s s' := by
  refine .keep hsent huid fun i e' hi => ?_
  rw [hr, get_unregister] at hi
  exact ⟨e', (Option.filter_eq_some_iff.mp hi).1, rfl, rfl⟩

theorem step_quiet (ha : a.isTransfer = false) (hs : step s a = some s') : Quiet s s' := by
  have hdid := step_did hs
  cases hdid with
  | nothing => exact .of_eq rfl rfl rfl
  | opened _ he =>
    obtain ⟨hr, hsent, huid⟩ := table_quiet he
    exact .of_eq hr hsent huid
  | created he hf hput =>
    obtain ⟨hr, hsent, huid⟩ := table_quiet he
    refine .create (slot s.registry) hsent (congrArg (· + 1) huid) fun i e' hi => ?_
    rw [hr] at hput
    change get _ i = some e' at hi
    rw [get_put hput] at hi
    split at hi
    · rename_i hslot
      cases hi
      exact Or.inl ⟨hslot, huid, rfl⟩
    · exact Or.inr hi
  | minted _ he =>
    obtain ⟨hr, hsent, huid⟩ := table_quiet he
    exact .of_eq hr hsent huid
  | sent => cases ha
  | received => cases ha
  | closed he _ hfind _ =>
    obtain ⟨hr, hsent, huid⟩ := table_quiet he
    obtain ⟨⟨e, hget, rfl, -⟩, -⟩ := endpointOf_eq_some_iff.mp hfind
    rw [hr] at hget
    refine .keep hsent huid fun j e' hj => ?_
    rw [setHandles_registry, get_setEndpoint, hr] at hj
    split at hj
    · rename_i hij
      subst hij
      rw [hget] at hj
      cases hj
      exact ⟨e, hget, rfl, rfl⟩
    · exact ⟨e', hj, rfl, rfl⟩
  | dropped he =>
    obtain ⟨hr, hsent, huid⟩ := table_quiet he
    exact .of_eq hr hsent huid
  | registered => exact .of_eq rfl rfl rfl
  | unregistered => exact .of_eq rfl rfl rfl
  | added => exact .of_eq rfl rfl rfl
  | undone => exact .unregister rfl rfl rfl
  | exited => exact .unregister rfl rfl rfl
  | reaped => exact .unregister rfl rfl rfl

end Quiet

section Transfer

variable {s s₁ : State} {w : World} {p : Pid} {t : HandleTable} {heap : Bool} {h : ℤ} {k i : ℕ}
  {ep : Endpoint}

/-- A table with an allocated handle is one the process had before the call. -/
theorem table_allocated (he : s.table p heap = .ok (s₁, t)) (ha : (t k).allocated = true) :
    s₁ = s ∧ ∃ pr, s.procs p = some pr ∧ pr.ipcHandles = some t := by
  obtain ⟨rfl, pr, hp, hlazy, -⟩ := table_spec he
  have ht := lazyTable_eq hlazy
  cases hh : pr.ipcHandles with
  | none =>
    rw [hh] at ht
    subst ht
    cases ha
  | some t' =>
    rw [hh] at ht
    have htt : t = t' := ht
    subst htt
    exact ⟨setHandles_self hp hh, pr, hp, hh⟩

/-- A send changes nothing the queues depend on, or puts its message into the queue of the
endpoint its handle leads to. -/
theorem send_cases {tag : UInt32} {data : UserData} :
    Quiet s (sysIpcSend s p heap h tag data).1 ∨
    ∃ i ep, Resolves s p h i ep ∧ ep.queue.count < ipcMaxQueueDepth ∧ ep.closed = false ∧
      (sysIpcSend s p heap h tag data).1 = { s with
        registry := setEndpoint s.registry i { ep with
          queue := push ipcMaxQueueDepth ep.queue ⟨p, tag, data.bytes⟩ }
        sent := (ep.uid, ⟨p, tag, data.bytes⟩) :: s.sent } := by
  unfold sysIpcSend
  split
  · exact Or.inl (.of_eq rfl rfl rfl)
  · rename_i s₁ t he
    obtain ⟨hr, hsent, huid⟩ := table_quiet he
    have hq : Quiet s s₁ := .of_eq hr hsent huid
    split
    · exact Or.inl hq
    rename_i hrange
    split
    · exact Or.inl hq
    dsimp only
    split
    · exact Or.inl hq
    rename_i ha
    split
    · exact Or.inl hq
    · rename_i i ep hfind
      split
      · exact Or.inl hq
      unfold State.enqueue
      split
      · exact Or.inl hq
      · rename_i ep' henq
        obtain ⟨hroom, hopen, rfl⟩ := enqueue_ok henq
        obtain ⟨rfl, pr, hp, ht⟩ := table_allocated he (by simpa using ha)
        exact Or.inr ⟨i, ep, ⟨pr, t, hp, ht, by omega, by omega, by simpa using ha, hfind⟩, hroom,
          hopen, rfl⟩

/-- A receive changes nothing the queues depend on, or takes the first message off the queue
of the endpoint its handle leads to. -/
theorem recv_cases {tagOut dataOut maxLen : ℕ} :
    (Quiet w.ipc (w.recv p heap h tagOut dataOut maxLen).1.ipc ∧
      (w.recv p heap h tagOut dataOut maxLen).1.received = w.received) ∨
    ∃ i ep msg ep', Resolves w.ipc p h i ep ∧ ipcQueueDequeue ep = some (msg, ep') ∧
      w.recv p heap h tagOut dataOut maxLen =
        ({ w with
            ipc := { w.ipc with registry := setEndpoint w.ipc.registry i ep' }
            ram := (copyMessage w.ram (w.cr3 p) msg tagOut dataOut maxLen).1
            received := if 0 ≤ (copyMessage w.ram (w.cr3 p) msg tagOut dataOut maxLen).2
              then (ep.uid, msg) :: w.received else w.received },
          (copyMessage w.ram (w.cr3 p) msg tagOut dataOut maxLen).2) := by
  unfold World.recv
  split
  · exact Or.inl ⟨.of_eq rfl rfl rfl, rfl⟩
  · rename_i s₁ t he
    obtain ⟨hr, hsent, huid⟩ := table_quiet he
    have hq : Quiet w.ipc s₁ := .of_eq hr hsent huid
    split
    · exact Or.inl ⟨hq, rfl⟩
    rename_i hrange
    dsimp only
    split
    · exact Or.inl ⟨hq, rfl⟩
    rename_i ha
    split
    · exact Or.inl ⟨hq, rfl⟩
    · rename_i i ep hfind
      split
      · exact Or.inl ⟨hq, rfl⟩
      · rename_i msg ep' hdeq
        obtain ⟨rfl, pr, hp, ht⟩ := table_allocated he (by simpa using ha)
        exact Or.inr ⟨i, ep, msg, ep', ⟨pr, t, hp, ht, by omega, by omega, by simpa using ha, hfind⟩,
          hdeq, rfl⟩

theorem recv_resolves {tagOut dataOut maxLen : ℕ} {msg : Message} {ep' : Endpoint}
    (hres : Resolves w.ipc p h i ep) (hdeq : ipcQueueDequeue ep = some (msg, ep')) :
    w.recv p heap h tagOut dataOut maxLen =
      ({ w with
          ipc := { w.ipc with registry := setEndpoint w.ipc.registry i ep' }
          ram := (copyMessage w.ram (w.cr3 p) msg tagOut dataOut maxLen).1
          received := if 0 ≤ (copyMessage w.ram (w.cr3 p) msg tagOut dataOut maxLen).2
            then (ep.uid, msg) :: w.received else w.received },
        (copyMessage w.ram (w.cr3 p) msg tagOut dataOut maxLen).2) := by
  obtain ⟨pr, t, hp, ht, h0, hlt, ha, hfind⟩ := hres
  unfold World.recv
  rw [table_of_handles hp ht]
  simp only [ha, hfind, hdeq]
  rw [if_neg (by omega)]
  simp

theorem userData_eq {m : Mem} {cr3 data dataLen : ℕ}
    (hok : dataLen = 0 ∨ userRangeOk m cr3 data dataLen false = true ∧ Mapped m cr3 data dataLen) :
    (userData m cr3 data dataLen).bytes = userBytes m cr3 data dataLen ∧
      ((userData m cr3 data dataLen).bytes = [] ∨ (userData m cr3 data dataLen).valid = true) := by
  unfold userData
  rcases hok with rfl | ⟨hok, hm⟩
  · have hnone : copyFromUser m cr3 data 0 = none := rfl
    rw [hnone]
    exact ⟨rfl, Or.inl rfl⟩
  · rw [copyFromUser_eq hok hm]
    exact ⟨rfl, Or.inr rfl⟩

theorem send_resolves {tag : UInt32} {data : UserData} (hres : Resolves s p h i ep)
    (hlen : data.bytes.length ≤ ipcMaxData) (hok : data.bytes = [] ∨ data.valid = true) :
    sysIpcSend s p heap h tag data = s.enqueue i ep ⟨p, tag, data.bytes⟩ := by
  obtain ⟨pr, t, hp, ht, h0, hlt, ha, hfind⟩ := hres
  unfold sysIpcSend
  rw [table_of_handles hp ht]
  simp only [ha, hfind]
  rw [if_neg (by omega), if_neg (by omega)]
  have hgood : ¬ (data.bytes ≠ [] ∧ (!data.valid) = true) := by
    rcases hok with hok | hok
    · exact fun hc => hc.1 hok
    · rw [hok]
      exact fun hc => by cases hc.2
  rw [if_neg hgood]
  rfl

end Transfer

section Logs

variable {u v : ℕ} {m : Message} {log : List (ℕ × Message)}

theorem messages_cons_self : messages u ((u, m) :: log) = messages u log ++ [m] := by
  simp [messages]

theorem messages_cons_of_ne (h : v ≠ u) : messages u ((v, m) :: log) = messages u log := by
  simp [messages, h]

theorem messages_eq_nil (h : ∀ x ∈ log, x.1 < u) : messages u log = [] := by
  unfold messages
  rw [List.map_eq_nil_iff, List.filter_eq_nil_iff]
  intro x hx
  have := h x (List.mem_reverse.mp hx)
  simp
  omega

end Logs

structure Queued (u : ℕ) (w : World) : Prop where
  sent_lt : ∀ x ∈ w.ipc.sent, x.1 < w.ipc.nextUid
  uid_lt : ∀ i e, get w.ipc.registry i = some e → e.endpoint.uid < w.ipc.nextUid
  uid_inj : ∀ i j e e', get w.ipc.registry i = some e → get w.ipc.registry j = some e' →
    e.endpoint.uid = e'.endpoint.uid → i = j
  pre : messages u w.received <+: messages u w.ipc.sent
  queue : ∀ i e, get w.ipc.registry i = some e → e.endpoint.uid = u →
    messages u w.ipc.sent = messages u w.received ++ toList ipcMaxQueueDepth e.endpoint.queue

section Queues

variable {u : ℕ} {w w' : World}

theorem Queued.quiet (hq : Queued u w) (h : Quiet w.ipc w'.ipc) (hrec : w'.received = w.received) :
    Queued u w' := by
  cases h with
  | keep hsent huid hold =>
    refine ⟨?_, ?_, ?_, ?_, ?_⟩
    · rw [hsent, huid]
      exact hq.sent_lt
    · intro i e' hi
      obtain ⟨e, he, hu, -⟩ := hold i e' hi
      rw [huid, ← hu]
      exact hq.uid_lt i e he
    · intro i j e₁ e₂ h₁ h₂ hu
      obtain ⟨d₁, hd₁, hu₁, -⟩ := hold i e₁ h₁
      obtain ⟨d₂, hd₂, hu₂, -⟩ := hold j e₂ h₂
      exact hq.uid_inj i j d₁ d₂ hd₁ hd₂ (hu₁.trans (hu.trans hu₂.symm))
    · rw [hsent, hrec]
      exact hq.pre
    · intro i e' hi hu'
      obtain ⟨e, he, hu, hqu⟩ := hold i e' hi
      rw [hsent, hrec, ← hqu]
      exact hq.queue i e he (hu.trans hu')
  | create k hsent huid hold =>
    refine ⟨?_, ?_, ?_, ?_, ?_⟩
    · rw [hsent, huid]
      intro x hx
      have := hq.sent_lt x hx
      omega
    · intro i e' hi
      rw [huid]
      rcases hold i e' hi with ⟨-, hu, -⟩ | he
      · omega
      · have := hq.uid_lt i e' he
        omega
    · intro i j e₁ e₂ h₁ h₂ hu
      rcases hold i e₁ h₁ with ⟨rfl, hu₁, -⟩ | he₁
      · rcases hold j e₂ h₂ with ⟨rfl, -⟩ | he₂
        · rfl
        · have := hq.uid_lt j e₂ he₂
          omega
      · rcases hold j e₂ h₂ with ⟨rfl, hu₂, -⟩ | he₂
        · have := hq.uid_lt i e₁ he₁
          omega
        · exact hq.uid_inj i j e₁ e₂ he₁ he₂ hu
    · rw [hsent, hrec]
      exact hq.pre
    · intro i e' hi hu'
      rw [hsent, hrec]
      rcases hold i e' hi with ⟨-, hu, hqu⟩ | he
      · -- nothing was ever sent to an object that is new
        have hnone : messages u w.ipc.sent = [] := by
          apply messages_eq_nil
          intro x hx
          rw [← hu', hu]
          exact hq.sent_lt x hx
        have hpre := hq.pre
        rw [hnone, List.prefix_nil] at hpre
        rw [hnone, hpre, hqu]
        rfl
      · exact hq.queue i e' he hu'

theorem Queued.setEndpoint (hq : Queued u w) {i : ℕ} {e : RegistryEntry} {ep : Endpoint}
    (hget : get w.ipc.registry i = some e)
    (hreg : w'.ipc.registry = setEndpoint w.ipc.registry i ep) (hep : ep.uid = e.endpoint.uid)
    (huid : w'.ipc.nextUid = w.ipc.nextUid)
    (hsent : ∀ x ∈ w'.ipc.sent, x.1 < w.ipc.nextUid)
    (hother : e.endpoint.uid ≠ u → messages u w'.ipc.sent = messages u w.ipc.sent ∧
      messages u w'.received = messages u w.received)
    (hself : e.endpoint.uid = u → messages u w'.ipc.sent =
      messages u w'.received ++ toList ipcMaxQueueDepth ep.queue) : Queued u w' := by
  have hcases : ∀ j e', get w'.ipc.registry j = some e' →
      (j = i ∧ e' = { e with endpoint := ep }) ∨ (j ≠ i ∧ get w.ipc.registry j = some e') := by
    intro j e' hj
    rw [hreg, get_setEndpoint] at hj
    split at hj
    · rename_i hij
      subst hij
      rw [hget] at hj
      cases hj
      exact Or.inl ⟨rfl, rfl⟩
    · rename_i hij
      exact Or.inr ⟨Ne.symm hij, hj⟩
  have hold : ∀ j e', get w'.ipc.registry j = some e' →
      ∃ d, get w.ipc.registry j = some d ∧ d.endpoint.uid = e'.endpoint.uid := by
    intro j e' hj
    rcases hcases j e' hj with ⟨rfl, rfl⟩ | ⟨-, hj⟩
    · exact ⟨e, hget, hep.symm⟩
    · exact ⟨e', hj, rfl⟩
  refine ⟨fun x hx => huid ▸ hsent x hx, ?_, ?_, ?_, ?_⟩
  · intro j e' hj
    obtain ⟨d, hd, hu⟩ := hold j e' hj
    rw [huid, ← hu]
    exact hq.uid_lt j d hd
  · intro j k e₁ e₂ h₁ h₂ hu
    obtain ⟨d₁, hd₁, hu₁⟩ := hold j e₁ h₁
    obtain ⟨d₂, hd₂, hu₂⟩ := hold k e₂ h₂
    exact hq.uid_inj j k d₁ d₂ hd₁ hd₂ (hu₁.trans (hu.trans hu₂.symm))
  · by_cases hu : e.endpoint.uid = u
    · rw [hself hu]
      exact List.prefix_append _ _
    · rw [(hother hu).1, (hother hu).2]
      exact hq.pre
  · intro j e' hj hu'
    rcases hcases j e' hj with ⟨rfl, rfl⟩ | ⟨hji, hj⟩
    · exact hself (hep.symm.trans hu')
    · have hu : e.endpoint.uid ≠ u := fun hu =>
        hji (hq.uid_inj j i e' e hj hget (hu'.trans hu.symm))
      rw [(hother hu).1, (hother hu).2]
      exact hq.queue j e' hj hu'

theorem Queued.send (hi : Inv w.ipc) (hq : Queued u w) {p : Pid} {heap : Bool} {h : ℤ}
    {tag : UInt32} {data dataLen : ℕ} : Queued u (w.send p heap h tag data dataLen).1 := by
  obtain ⟨d, hd⟩ : ∃ d, userData w.ram (w.cr3 p) data dataLen = d := ⟨_, rfl⟩
  unfold World.send
  rw [hd]
  rcases @send_cases w.ipc p heap h tag d with hquiet | ⟨i, ep, hres, hroom, -, heq⟩
  · exact hq.quiet hquiet rfl
  · dsimp only
    rw [heq]
    obtain ⟨pr, t, -, -, -, -, -, hfind⟩ := hres
    obtain ⟨⟨e, hget, rfl, -⟩, -⟩ := endpointOf_eq_some_iff.mp hfind
    refine hq.setEndpoint hget rfl rfl rfl ?_ ?_ ?_
    · intro x hx
      rcases List.mem_cons.mp hx with rfl | hx
      · exact hq.uid_lt i e hget
      · exact hq.sent_lt x hx
    · intro hu
      exact ⟨messages_cons_of_ne hu, rfl⟩
    · rintro rfl
      dsimp only
      rw [messages_cons_self, hq.queue i e hget rfl, toList_push (hi.ring i e hget) hroom,
        List.append_assoc]

theorem Queued.recv (hi : Inv w.ipc) (hq : Queued u w) {p : Pid} {heap : Bool} {h : ℤ}
    {tagOut dataOut maxLen : ℕ} (hv : w.Valid u (.recv p heap h tagOut dataOut maxLen)) :
    Queued u (w.recv p heap h tagOut dataOut maxLen).1 := by
  rcases @recv_cases w p heap h tagOut dataOut maxLen with ⟨hquiet, hrec⟩ | hdeq
  · exact hq.quiet hquiet hrec
  · obtain ⟨i, ep, msg, ep', hres, hdeq, heq⟩ := hdeq
    have hvalid := hv i ep msg ep' hres
    rw [heq]
    obtain ⟨pr, t, -, -, -, -, -, hfind⟩ := hres
    obtain ⟨⟨e, hget, rfl, -⟩, -⟩ := endpointOf_eq_some_iff.mp hfind
    obtain ⟨hne, rfl, rfl⟩ := dequeue_some hdeq
    refine hq.setEndpoint hget rfl rfl rfl hq.sent_lt ?_ ?_
    · intro hu
      refine ⟨rfl, ?_⟩
      dsimp only
      split
      · exact messages_cons_of_ne hu
      · rfl
    · intro hu
      have hret := (copyMessage_spec (hvalid hu hdeq)).1
      dsimp only
      rw [hret, if_pos (Int.natCast_nonneg _), hu, messages_cons_self, hq.queue i e hget hu,
        toList_pop (hi.ring i e hget) (Nat.pos_of_ne_zero hne), List.append_assoc]
      rfl

/-- The pointers of a call do not matter to the inter-process state it leaves. -/
theorem recv_ipc {p : Pid} {heap : Bool} {h : ℤ} {tagOut dataOut maxLen : ℕ} :
    (w.recv p heap h tagOut dataOut maxLen).1.ipc =
      (sysIpcRecv w.ipc p heap h none none maxLen).1 := by
  unfold World.recv sysIpcRecv
  cases w.ipc.table p heap with
  | error e => rfl
  | ok st =>
    obtain ⟨s, t⟩ := st
    dsimp only
    split
    · rfl
    split
    · rfl
    cases endpointOf s.registry (t h.toNat).targetPid (t h.toNat).targetEndpointId with
    | none => rfl
    | some ie =>
      dsimp only
      cases ipcQueueDequeue ie.2 with
      | none => rfl
      | some me => rfl

theorem world_step_inv {a : Call} (hi : Inv w.ipc) (hl : w.Legal a) (hs : w.step a = some w') :
    Inv w'.ipc := by
  cases a with
  | send p heap h tag data dataLen =>
    cases hs
    exact step_inv (a := .send p heap h tag (userData w.ram (w.cr3 p) data dataLen)) hi hl rfl
  | recv p heap h tagOut dataOut maxLen =>
    cases hs
    rw [recv_ipc]
    exact step_inv (a := .recv p heap h none none maxLen) hi hl rfl
  | other b =>
    unfold World.step at hs
    dsimp only at hs
    split at hs
    · cases hs
    · obtain ⟨s', hs', rfl⟩ := Option.map_eq_some_iff.mp hs
      exact step_inv hi hl hs'
  | memory ram cr3 =>
    cases hs
    exact hi

theorem world_step_queued {a : Call} (hi : Inv w.ipc) (hq : Queued u w) (hv : w.Valid u a)
    (hs : w.step a = some w') : Queued u w' := by
  cases a with
  | send p heap h tag data dataLen =>
    cases hs
    exact hq.send hi
  | recv p heap h tagOut dataOut maxLen =>
    cases hs
    exact hq.recv hi hv
  | other b =>
    unfold World.step at hs
    dsimp only at hs
    split at hs
    · cases hs
    · rename_i hb
      obtain ⟨s', hs', rfl⟩ := Option.map_eq_some_iff.mp hs
      exact hq.quiet (step_quiet (by simpa using hb) hs') rfl
  | memory ram cr3 =>
    cases hs
    exact hq.quiet (.of_eq rfl rfl rfl) rfl

theorem world_init (h : w.Init) : Inv w.ipc ∧ Queued u w := by
  obtain ⟨hi, hrec⟩ := h
  rw [show w.ipc = initState from hi]
  refine ⟨init_inv, ?_⟩
  have hreg : ∀ i e, get w.ipc.registry i = some e → False := by
    intro i e he
    rw [show w.ipc = initState from hi] at he
    cases he
  have hsent : w.ipc.sent = [] := by rw [show w.ipc = initState from hi]; rfl
  refine ⟨?_, fun i e he => (hreg i e he).elim, fun i _ e _ he => (hreg i e he).elim, ?_,
    fun i e he => (hreg i e he).elim⟩
  · rw [hsent]
    intro x hx
    cases hx
  · rw [hrec]
    exact List.nil_prefix

theorem world_reach (h : Reach World.step (fun w a => w.Legal a ∧ w.Valid u a) World.Init w) :
    Inv w.ipc ∧ Queued u w := by
  apply h.invariant (P := fun w => Inv w.ipc ∧ Queued u w)
  · intro w hw
    exact world_init hw
  · rintro w a w' ⟨hi, hq⟩ ⟨hl, hv⟩ hs
    exact ⟨world_step_inv hi hl hs, world_step_queued hi hq hv hs⟩

theorem Queued.queueOk (hi : Inv w.ipc) (hq : Queued u w) {i : ℕ} {e : RegistryEntry}
    (hget : get w.ipc.registry i = some e) (hu : e.endpoint.uid = u) :
    QueueOk u w e.endpoint.queue := by
  have hsplit := hq.queue i e hget hu
  have hring := hi.ring i e hget
  refine ⟨hsplit, ?_, hring.count_le, hring.tail_eq⟩
  rw [hsplit, List.length_append, length_toList]
  omega

theorem Queued.sendOk (hi : Inv w.ipc) : SendOk u w := by
  intro p heap h tag data dataLen i ep hres hu hlen hbuf
  obtain ⟨hbytes, hok⟩ := userData_eq hbuf
  have hlen' : (userData w.ram (w.cr3 p) data dataLen).bytes.length ≤ ipcMaxData := by
    rw [hbytes, userBytes, List.length_map, List.length_range]
    exact hlen
  have heq := @send_resolves w.ipc p heap h i ep tag _ hres hlen' hok
  obtain ⟨pr, t, -, -, -, -, -, hfind⟩ := hres
  obtain ⟨⟨e, hget, rfl, -⟩, -⟩ := endpointOf_eq_some_iff.mp hfind
  have hle := (hi.ring i e hget).count_le
  have hdepth : ipcMaxQueueDepth = 16 := rfl
  unfold World.send
  dsimp only
  rw [heq, hbytes]
  by_cases hfull : e.endpoint.queue.count = 16
  · have hret : (w.ipc.enqueue i e.endpoint
        ⟨p, tag, userBytes w.ram (w.cr3 p) data dataLen⟩).2 = veNomem := by
      unfold State.enqueue ipcQueueEnqueue
      rw [if_pos (by omega)]
    rw [hret]
    exact ⟨⟨fun _ => Or.inl hfull, fun _ => by decide⟩, fun hc => absurd hc (by decide)⟩
  · by_cases hc : e.endpoint.closed = true
    · refine ⟨⟨fun _ => Or.inr hc, fun _ => enqueue_closed hc _⟩, fun h0 => ?_⟩
      exact absurd h0 (enqueue_closed hc _)
    · rw [enqueue_open (by omega) (by simpa using hc)]
      refine ⟨⟨fun h0 => absurd rfl h0, ?_⟩, fun _ => ?_⟩
      · rintro (h16 | hcl)
        · exact absurd h16 hfull
        · exact absurd hcl hc
      · rw [← hu]
        exact messages_cons_self

theorem Queued.recvOk (hi : Inv w.ipc) : RecvOk u w := by
  intro p heap h tagOut dataOut maxLen i ep msg rest hres hu hlist hv
  have hfind := hres
  obtain ⟨pr, t, -, -, -, -, -, hfind⟩ := hfind
  obtain ⟨⟨e, hget, rfl, -⟩, -⟩ := endpointOf_eq_some_iff.mp hfind
  have hne : e.endpoint.queue.count ≠ 0 := by
    intro h0
    have hlen := congrArg List.length hlist
    rw [length_toList, h0] at hlen
    cases hlen
  -- the first message of the list is the one at the head of the ring
  have hmsg : (pop ipcMaxQueueDepth e.endpoint.queue).1 = msg := by
    have hpop := toList_pop (hi.ring i e hget) (Nat.pos_of_ne_zero hne)
    rw [hlist] at hpop
    exact (List.cons.inj hpop).1.symm
  have hdeq : ipcQueueDequeue e.endpoint = some (msg, { e.endpoint with
      queue := (pop ipcMaxQueueDepth e.endpoint.queue).2 }) := by
    unfold ipcQueueDequeue
    rw [if_neg hne, ← hmsg]
  obtain ⟨hret, htag, hdata⟩ := copyMessage_spec hv
  rw [recv_resolves hres hdeq]
  refine ⟨hret, ?_, htag, hdata⟩
  dsimp only
  rw [hret, if_pos (Int.natCast_nonneg _), hu, messages_cons_self]

end Queues

/-- Every endpoint object is a bounded queue: what is received from it is, in order, the
beginning of what it accepted, it holds the rest, and each message arrives with the tag and
the bytes of its send. -/
theorem queue_refines (u : ℕ) {w : World}
    (h : Reach World.step (fun w a => w.Legal a ∧ w.Valid u a) World.Init w) :
    messages u w.received <+: messages u w.ipc.sent ∧
    (∀ i e, get w.ipc.registry i = some e → e.endpoint.uid = u → QueueOk u w e.endpoint.queue) ∧
    SendOk u w ∧ RecvOk u w := by
  obtain ⟨hi, hq⟩ := world_reach h
  exact ⟨hq.pre, fun i e hget hu => hq.queueOk hi hget hu, Queued.sendOk hi, Queued.recvOk hi⟩

/-- The kernel process with two pages and an endpoint of its own. -/
def letterBoot : World :=
  ⟨initState, blit (twoPageMem 0x5007 0x6007) 0x5000 [104, 105, 33, 63, 33], fun _ => 0x1000, []⟩

/-- It sends two messages from its first page. -/
def lettersSent : World :=
  ((World.send { letterBoot with ipc := (sysIpcEndpointCreate initState 0 true true).1 }
    0 true 0 7 0x5FE000 2).1.send 0 true 0 8 0x5FE002 3).1

/-- It receives one into its second page. -/
def lettersWorld : World := (lettersSent.recv 0 true 0 0 0x5FF000 2).1

theorem letterBuffers {n : ℕ} (hn : n ≤ 2) : ValidBuffers letterBoot.ram 0x1000 0 0x5FF000 n := by
  have hin : ∀ v, InBuffer 0x5FF000 2 v → v = 0x5FF000 ∨ v = 0x5FF001 := by
    intro v hv
    unfold InBuffer at hv
    omega
  have hpriv : Private letterBoot.ram 0x1000 (InBuffer 0x5FF000 2) := by
    apply ApartFromTables.private
    · intro v w hv hw
      rcases hin v hv with rfl | rfl <;> rcases hin w hw with rfl | rfl <;> decide +kernel
    · intro v w hv hw _
      rcases hin v hv with rfl | rfl <;> rcases hin w hw with rfl | rfl <;> rfl
    · unfold Mapped
      decide +kernel
  refine ⟨fun h => absurd rfl h, fun _ hpos => ?_, hpriv.mono ?_, fun h => absurd rfl h⟩
  · obtain rfl | rfl : n = 1 ∨ n = 2 := by omega
    · decide +kernel
    · decide +kernel
  · rintro v (⟨h, -⟩ | ⟨-, hv⟩)
    · exact absurd rfl h
    · unfold InBuffer at hv ⊢
      omega

theorem lettersWorld_queue :
    messages 0 lettersWorld.ipc.sent = [⟨0, 7, [104, 105]⟩, ⟨0, 8, [33, 63, 33]⟩] ∧
    messages 0 lettersWorld.received = [⟨0, 7, [104, 105]⟩] ∧
    userBytes lettersWorld.ram 0x1000 0x5FF000 2 = [104, 105] ∧
    (∀ i e, get lettersWorld.ipc.registry i = some e → e.endpoint.uid = 0 →
      QueueOk 0 lettersWorld e.endpoint.queue) := by
  have h₀ : Reach World.step (fun w a => w.Legal a ∧ w.Valid 0 a) World.Init letterBoot :=
    .init ⟨rfl, rfl⟩
  have h₁ := h₀.step (a := Call.other (.create 0 true true)) ⟨by decide, trivial⟩ rfl
  have h₂ := h₁.step (a := Call.send 0 true 0 7 0x5FE000 2) ⟨by decide +kernel, trivial⟩ rfl
  have h₃ := h₂.step (a := Call.send 0 true 0 8 0x5FE002 3) ⟨by decide +kernel, trivial⟩ rfl
  have h₄ := h₃.step (a := Call.recv 0 true 0 0 0x5FF000 2)
    ⟨by decide +kernel, fun _ _ _ _ _ _ _ => letterBuffers (Nat.min_le_right ..)⟩ rfl
  exact ⟨by decide +kernel, by decide +kernel, by decide +kernel, (queue_refines 0 h₄).2.1⟩

end VoidOS.Ipc
