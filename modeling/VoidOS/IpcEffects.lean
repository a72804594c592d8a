import VoidOS.Svc

namespace VoidOS.Ipc

open SlotTable RingBuffer Relation

section Lookup

variable {reg reg' : Table RegistryEntry} {p q : Pid} {h k i j : ℕ} {ep ep' : Endpoint}
  {e : RegistryEntry}

theorem names_iff : RegistryEntry.names p h e = true ↔ e.ownerPid = p ∧ e.endpointId = h := by
  simp [RegistryEntry.names]

theorem endpointOf_eq_some_iff : endpointOf reg p h = some (i, ep) ↔
    (∃ e, get reg i = some e ∧ e.endpoint = ep ∧ e.ownerPid = p ∧ e.endpointId = h) ∧
      ∀ j < i, ∀ e, get reg j = some e → ¬ (e.ownerPid = p ∧ e.endpointId = h) := by
  have hfind : ipcEndpointLookup reg p h = some i ↔
      (∃ e, get reg i = some e ∧ e.ownerPid = p ∧ e.endpointId = h) ∧
        ∀ j < i, ∀ e, get reg j = some e → ¬ (e.ownerPid = p ∧ e.endpointId = h) := by
    unfold ipcEndpointLookup
    simp only [find_eq_some_iff, names_iff, ← Bool.not_eq_true]
  unfold endpointOf
  constructor
  · intro he
    split at he
    · cases he
    · rename_i j hj
      obtain ⟨e, hget, hpair⟩ := Option.map_eq_some_iff.mp he
      obtain ⟨rfl, rfl⟩ := Prod.mk.injEq .. ▸ hpair
      obtain ⟨⟨e', hget', hn⟩, hlt⟩ := hfind.mp hj
      rw [hget] at hget'
      cases hget'
      exact ⟨⟨e, hget, rfl, hn⟩, hlt⟩
  · rintro ⟨⟨e, hget, rfl, hn⟩, hlt⟩
    rw [hfind.mpr ⟨⟨e, hget, hn⟩, hlt⟩]
    simp [hget]

theorem endpointOf_eq_none_iff : endpointOf reg p h = none ↔
    ∀ i e, get reg i = some e → ¬ (e.ownerPid = p ∧ e.endpointId = h) := by
  constructor
  · intro hn i e hget hname
    -- the least slot with the name would be found
    have hex : ∃ i e, get reg i = some e ∧ e.ownerPid = p ∧ e.endpointId = h := ⟨i, e, hget, hname⟩
    classical
    obtain ⟨e₀, hget₀, hname₀⟩ := Nat.find_spec hex
    have hsome : endpointOf reg p h = some (Nat.find hex, e₀.endpoint) :=
      endpointOf_eq_some_iff.mpr ⟨⟨e₀, hget₀, rfl, hname₀⟩, fun j hj e hje hn =>
        Nat.find_min hex hj ⟨e, hje, hn⟩⟩
    rw [hn] at hsome
    cases hsome
  · intro hall
    cases he : endpointOf reg p h with
    | none => rfl
    | some ie =>
      obtain ⟨⟨e, hget, -, hname⟩, -⟩ := endpointOf_eq_some_iff.mp he
      exact absurd hname (hall _ e hget)

theorem endpointOf_congr (hsame : ∀ i e, e.ownerPid = p → e.endpointId = h →
    (get reg' i = some e ↔ get reg i = some e)) : endpointOf reg' p h = endpointOf reg p h := by
  ext ⟨i, ep⟩
  show endpointOf reg' p h = some (i, ep) ↔ endpointOf reg p h = some (i, ep)
  rw [endpointOf_eq_some_iff, endpointOf_eq_some_iff]
  constructor
  · rintro ⟨⟨e, hget, he, hp, hh⟩, hlt⟩
    refine ⟨⟨e, (hsame i e hp hh).mp hget, he, hp, hh⟩, fun j hj e' hje hn => ?_⟩
    exact hlt j hj e' ((hsame j e' hn.1 hn.2).mpr hje) hn
  · rintro ⟨⟨e, hget, he, hp, hh⟩, hlt⟩
    refine ⟨⟨e, (hsame i e hp hh).mpr hget, he, hp, hh⟩, fun j hj e' hje hn => ?_⟩
    exact hlt j hj e' ((hsame j e' hn.1 hn.2).mp hje) hn

theorem get_setEndpoint : get (setEndpoint reg i ep') j =
    if i = j then (get reg j).map (fun e => { e with endpoint := ep' }) else get reg j :=
  get_modify _ _

/-- Changing the endpoint in a slot changes what a lookup that ends there finds. -/
theorem endpointOf_setEndpoint : endpointOf (setEndpoint reg i ep') p h =
    (endpointOf reg p h).map fun je => if je.1 = i then (i, ep') else je := by
  cases he : endpointOf reg p h with
  | none =>
    rw [endpointOf_eq_none_iff] at he
    refine endpointOf_eq_none_iff.mpr fun j e hget => ?_
    rw [get_setEndpoint] at hget
    split at hget
    · obtain ⟨e', hget', rfl⟩ := Option.map_eq_some_iff.mp hget
      exact he j e' hget'
    · exact he j e hget
  | some je =>
    obtain ⟨j, ep⟩ := je
    obtain ⟨⟨e, hget, rfl, hn⟩, hlt⟩ := endpointOf_eq_some_iff.mp he
    have hlt' : ∀ k < j, ∀ e', get (setEndpoint reg i ep') k = some e' →
        ¬ (e'.ownerPid = p ∧ e'.endpointId = h) := by
      intro k hk e' hget'
      rw [get_setEndpoint] at hget'
      split at hget'
      · obtain ⟨e'', hget'', rfl⟩ := Option.map_eq_some_iff.mp hget'
        exact hlt k hk e'' hget''
      · exact hlt k hk e' hget'
    show _ = some (if j = i then (i, ep') else (j, e.endpoint))
    split
    · rename_i hji
      rw [hji] at hget hlt'
      refine endpointOf_eq_some_iff.mpr ⟨⟨{ e with endpoint := ep' }, ?_, rfl, hn⟩, hlt'⟩
      rw [get_setEndpoint, if_pos rfl, hget]
      rfl
    · rename_i hji
      refine endpointOf_eq_some_iff.mpr ⟨⟨e, ?_, rfl, hn⟩, hlt'⟩
      rw [get_setEndpoint, if_neg (Ne.symm hji), hget]

theorem get_unregister : get (ipcEndpointUnregisterByOwner reg q) i =
    (get reg i).filter fun e => e.ownerPid ≠ q := by
  unfold ipcEndpointUnregisterByOwner
  rw [get_clear]
  congr 1
  funext e
  simp

theorem endpointOf_unregister (hne : p ≠ q) :
    endpointOf (ipcEndpointUnregisterByOwner reg q) p h = endpointOf reg p h := by
  apply endpointOf_congr
  rintro i e rfl -
  rw [get_unregister, Option.filter_eq_some_iff]
  simp [hne]

theorem endpointOf_register (hr : ipcEndpointRegister reg ep q k = some reg')
    (hne : ¬ (p = q ∧ h = k)) : endpointOf reg' p h = endpointOf reg p h := by
  apply endpointOf_congr
  rintro i e rfl rfl
  rw [get_put hr]
  split
  · rename_i hi
    rw [hi, get_slot]
    constructor
    · intro he
      cases he
      exact absurd ⟨rfl, rfl⟩ hne
    · intro he
      cases he
  · rfl

end Lookup

/-- Where the name in a new handle comes from: an open endpoint or a named service. -/
def Sourced (s : State) (e : HandleEntry) : Prop :=
  (∃ i ep, endpointOf s.registry e.targetPid e.targetEndpointId = some (i, ep) ∧
    e.minted = ep.uid) ∨
  ∃ sv ∈ s.services, sv.name ≠ [] ∧ e.targetPid = sv.ownerPid ∧
    e.targetEndpointId = sv.endpointId ∧ e.minted = sv.uid

/-- The elementary changes calls are made of. `ok` restricts the names under which
endpoints are created. -/
inductive Effect (ok : State → Pid → ℕ → Prop) : State → State → Prop
  | table {s : State} {p : Pid} {pr : Proc} (hp : s.procs p = some pr)
      (hn : pr.ipcHandles = none) : Effect ok s (s.setHandles p ipcHandleTableCreate)
  | create {s : State} {p : Pid} {pr : Proc} {t : HandleTable} {h : ℕ} {reg : Table RegistryEntry}
      (hp : s.procs p = some pr) (hz : pr.zombie = false) (ht : pr.ipcHandles = some t)
      (hf : freeHandle t = some h)
      (hr : ipcEndpointRegister s.registry ⟨p, h, false, empty emptyMessage, s.nextUid⟩ p h =
        some reg) (hok : ok s p h) :
      Effect ok s { s.setHandles p (Function.update t h ⟨p, h, true, s.nextUid⟩) with
        registry := reg, nextUid := s.nextUid + 1 }
  | mint {s : State} {p : Pid} {pr : Proc} {t : HandleTable} {h : ℕ} {e : HandleEntry}
      (hp : s.procs p = some pr) (ht : pr.ipcHandles = some t) (hf : freeHandle t = some h)
      (ha : e.allocated = true) (hs : Sourced s e) :
      Effect ok s (s.setHandles p (Function.update t h e))
  | send {s : State} {i : ℕ} {e : RegistryEntry} (msg : Message) (hget : get s.registry i = some e)
      (hroom : e.endpoint.queue.count < ipcMaxQueueDepth) (hopen : e.endpoint.closed = false) :
      Effect ok s { s with
        registry := setEndpoint s.registry i { e.endpoint with
          queue := push ipcMaxQueueDepth e.endpoint.queue msg }
        sent := (e.endpoint.uid, msg) :: s.sent }
  | recv {s : State} {i : ℕ} {e : RegistryEntry} (hget : get s.registry i = some e)
      (hne : e.endpoint.queue.count ≠ 0) :
      Effect ok s { s with
        registry := setEndpoint s.registry i { e.endpoint with
          queue := (pop ipcMaxQueueDepth e.endpoint.queue).2 } }
  | closeOwn {s : State} {p : Pid} {pr : Proc} {t : HandleTable} {h i : ℕ} {ep : Endpoint}
      {svcs : List SvcEntry} (hp : s.procs p = some pr) (ht : pr.ipcHandles = some t)
      (hfind : endpointOf s.registry (t h).targetPid (t h).targetEndpointId = some (i, ep))
      (hsvcs : ∀ sv ∈ svcs, sv.name ≠ [] → sv ∈ s.services) :
      Effect ok s ({ s with
        registry := setEndpoint s.registry i { ep with closed := true }
        services := svcs }.setHandles p (Function.update t h { t h with allocated := false }))
  | closeOther {s : State} {p : Pid} {pr : Proc} {t : HandleTable} {h : ℕ}
      (hp : s.procs p = some pr) (ht : pr.ipcHandles = some t)
      (hfind : ∀ i ep, endpointOf s.registry (t h).targetPid (t h).targetEndpointId = some (i, ep) →
        ep.ownerPid ≠ p) :
      Effect ok s (s.setHandles p (Function.update t h { t h with allocated := false }))
  | services {s : State} {svcs : List SvcEntry}
      (hsvcs : ∀ sv ∈ svcs, sv.name ≠ [] → sv ∈ s.services ∨
        ∃ i ep, endpointOf s.registry sv.ownerPid sv.endpointId = some (i, ep) ∧ sv.uid = ep.uid) :
      Effect ok s { s with services := svcs }
  | addProc {s : State} {handles : Option HandleTable}
      (hh : handles = none ∨ ∃ p pr, s.procs p = some pr ∧ pr.ipcHandles = handles) :
      Effect ok s (s.addProc handles)
  | destroy (s : State) (c : Pid) : Effect ok s (processDestroy s c)
  | exit {s : State} (p : Pid) : Effect ok s
      { s with
        procs := Function.update s.procs p ((s.procs p).map fun pr => { pr with zombie := true })
        registry := ipcEndpointUnregisterByOwner s.registry p
        services := svcCleanupOwner s.services p }

/-- The caller of a call that needs its handle table, and whether one can be made for it. -/
def Op.opens : Op → Option (Pid × Bool)
  | .create p heap _ => some (p, heap)
  | .send p heap _ _ _ => some (p, heap)
  | .recv p heap _ _ _ _ => some (p, heap)
  | .connect p heap _ _ => some (p, heap)
  | .close p heap _ => some (p, heap)
  | .srLookup p heap _ => some (p, heap)
  | _ => none

/-- What a call can do to the state. Facts about a call are proved by cases on this relation,
not on the checks the call makes. -/
inductive Did (s : State) : Op → State → Prop
  | nothing {a : Op} : Did s a s
  | opened {a : Op} {p : Pid} {heap : Bool} {s₁ : State} {t : HandleTable}
      (ha : a.opens = some (p, heap)) (he : s.table p heap = .ok (s₁, t)) : Did s a s₁
  | created {p : Pid} {heap heap' : Bool} {s₁ : State} {t : HandleTable} {k : ℕ}
      {reg : Table RegistryEntry} (he : s.table p heap = .ok (s₁, t)) (hf : freeHandle t = some k)
      (hr : ipcEndpointRegister s₁.registry ⟨p, k, false, empty emptyMessage, s₁.nextUid⟩ p k =
        some reg) :
      Did s (.create p heap heap') { s₁.setHandles p (Function.update t k ⟨p, k, true, s₁.nextUid⟩)
        with registry := reg, nextUid := s₁.nextUid + 1 }
  | minted {a : Op} {p : Pid} {heap : Bool} {s₁ : State} {t : HandleTable} {k : ℕ} {e : HandleEntry}
      (ha : a.opens = some (p, heap)) (he : s.table p heap = .ok (s₁, t))
      (hf : freeHandle t = some k) (hnew : e.allocated = true) (hs : Sourced s₁ e) :
      Did s a (s₁.setHandles p (Function.update t k e))
  | sent {p : Pid} {heap : Bool} {h : ℤ} {tag : UInt32} {data : UserData} {s₁ : State}
      {t : HandleTable} {i : ℕ} {e : RegistryEntry} (he : s.table p heap = .ok (s₁, t))
      (hget : get s₁.registry i = some e) (hroom : e.endpoint.queue.count < ipcMaxQueueDepth)
      (hopen : e.endpoint.closed = false) :
      Did s (.send p heap h tag data) { s₁ with
        registry := setEndpoint s₁.registry i { e.endpoint with
          queue := push ipcMaxQueueDepth e.endpoint.queue ⟨p, tag, data.bytes⟩ }
        sent := (e.endpoint.uid, ⟨p, tag, data.bytes⟩) :: s₁.sent }
  | received {p : Pid} {heap : Bool} {h : ℤ} {tagOut dataOut : Option Bool} {maxLen : ℕ}
      {s₁ : State} {t : HandleTable} {i : ℕ} {e : RegistryEntry}
      (he : s.table p heap = .ok (s₁, t)) (hget : get s₁.registry i = some e)
      (hne : e.endpoint.queue.count ≠ 0) :
      Did s (.recv p heap h tagOut dataOut maxLen) { s₁ with
        registry := setEndpoint s₁.registry i { e.endpoint with
          queue := (pop ipcMaxQueueDepth e.endpoint.queue).2 } }
  | closed {p : Pid} {heap : Bool} {h : ℤ} {s₁ : State} {t : HandleTable} {i : ℕ} {ep : Endpoint}
      (he : s.table p heap = .ok (s₁, t)) (ha : (t h.toNat).allocated = true)
      (hfind : endpointOf s₁.registry (t h.toNat).targetPid (t h.toNat).targetEndpointId =
        some (i, ep)) (hown : ep.ownerPid = p) :
      Did s (.close p heap h) ({ s₁ with
        registry := setEndpoint s₁.registry i { ep with closed := true }
        services := svcOnEndpointClose s₁.services p (t h.toNat).targetEndpointId }.setHandles p
          (Function.update t h.toNat { t h.toNat with allocated := false }))
  | dropped {p : Pid} {heap : Bool} {h : ℤ} {s₁ : State} {t : HandleTable}
      (he : s.table p heap = .ok (s₁, t))
      (hfind : ∀ i ep, endpointOf s₁.registry (t h.toNat).targetPid
        (t h.toNat).targetEndpointId = some (i, ep) → ep.ownerPid ≠ p) :
      Did s (.close p heap h) (s₁.setHandles p
        (Function.update t h.toNat { t h.toNat with allocated := false }))
  | registered {p : Pid} {name : Option (List UInt8)} {h : ℤ} {pr : Proc} {name' : List UInt8}
      {e : HandleEntry} {ep : Endpoint} {svcs : List SvcEntry} (hp : s.procs p = some pr)
      (hcheck : svcCheckEndpoint s p pr h = some (e, ep))
      (hput : svcPut s.services ⟨name', p, e.targetEndpointId, ep.uid⟩ = some svcs) :
      Did s (.srRegister p name h) { s with services := svcs }
  | unregistered {p : Pid} {name : Option (List UInt8)} {h : ℤ} {i : ℕ} :
      Did s (.srUnregister p name h)
        { s with services := s.services.modify i fun e => { e with name := [] } }
  | added {a : Op} {handles : Option HandleTable}
      (hh : handles = none ∨ ∃ p pr, s.procs p = some pr ∧ pr.ipcHandles = handles) :
      Did s a (s.addProc handles)
  | undone {a : Op} {handles : Option HandleTable}
      (hh : handles = none ∨ ∃ p pr, s.procs p = some pr ∧ pr.ipcHandles = handles) :
      Did s a (processDestroy (s.addProc handles) s.nextPid)
  | exited {p : Pid} : Did s (.exit p)
      { s with
        procs := Function.update s.procs p ((s.procs p).map fun pr => { pr with zombie := true })
        registry := ipcEndpointUnregisterByOwner s.registry p
        services := svcCleanupOwner s.services p }
  | reaped {c : Pid} : Did s (.reap c) (processDestroy s c)

section Calls

variable {ok : State → Pid → ℕ → Prop} {s s₁ : State} {p : Pid} {pr : Proc} {t : HandleTable}
  {heap : Bool}

@[simp] theorem setHandles_registry : (s.setHandles p t).registry = s.registry := rfl
@[simp] theorem setHandles_services : (s.setHandles p t).services = s.services := rfl
@[simp] theorem setHandles_nextPid : (s.setHandles p t).nextPid = s.nextPid := rfl
@[simp] theorem setHandles_nextUid : (s.setHandles p t).nextUid = s.nextUid := rfl
@[simp] theorem setHandles_sent : (s.setHandles p t).sent = s.sent := rfl

theorem setHandles_procs (hp : s.procs p = some pr) (q : Pid) :
    (s.setHandles p t).procs q =
      if q = p then some { pr with ipcHandles := some t } else s.procs q := by
  simp [State.setHandles, Function.update_apply, hp]

theorem setHandles_self (hp : s.procs p = some pr) (ht : pr.ipcHandles = some t) :
    s.setHandles p t = s := by
  have hprocs : (s.setHandles p t).procs = s.procs := by
    funext q
    rw [setHandles_procs hp]
    split
    · rename_i hq
      rw [hq, hp, ← ht]
    · rfl
  calc s.setHandles p t = { s with procs := (s.setHandles p t).procs } := rfl
    _ = s := by rw [hprocs]

theorem table_spec (he : s.table p heap = .ok (s₁, t)) :
    s₁ = s.setHandles p t ∧ ∃ pr, s.procs p = some pr ∧ lazyTable pr heap = some t ∧
      s₁.procs p = some { pr with ipcHandles := some t } := by
  unfold State.table at he
  split at he
  · cases he
  rename_i pr hp
  split at he
  · cases he
  · rename_i t' hlazy
    cases he
    exact ⟨rfl, pr, hp, hlazy, by rw [setHandles_procs hp, if_pos rfl]⟩

theorem table_effects (he : s.table p heap = .ok (s₁, t)) : ReflTransGen (Effect ok) s s₁ := by
  obtain ⟨rfl, pr, hp, hlazy, -⟩ := table_spec he
  unfold lazyTable at hlazy
  split at hlazy
  · rename_i t' ht
    cases hlazy
    rw [setHandles_self hp ht]
  · rename_i hn
    split at hlazy
    · cases hlazy
      exact .single (.table hp hn)
    · cases hlazy

theorem create_did {heap' : Bool} :
    Did s (.create p heap heap') (sysIpcEndpointCreate s p heap heap').1 := by
  unfold sysIpcEndpointCreate
  split
  · exact .nothing
  rename_i s₁ t he
  split
  · exact .opened rfl he
  rename_i k hf
  split
  · exact .opened rfl he
  dsimp only
  split
  · exact .opened rfl he
  · rename_i reg hr
    exact .created he hf hr

theorem enqueue_ok {ep ep' : Endpoint} {msg : Message} (he : ipcQueueEnqueue ep msg = .ok ep') :
    ep.queue.count < ipcMaxQueueDepth ∧ ep.closed = false ∧
      ep' = { ep with queue := push ipcMaxQueueDepth ep.queue msg } := by
  unfold ipcQueueEnqueue at he
  split at he
  · cases he
  · rename_i hroom
    split at he
    · cases he
    · rename_i hopen
      cases he
      exact ⟨by omega, by simpa using hopen, rfl⟩

theorem dequeue_some {ep ep' : Endpoint} {msg : Message} (he : ipcQueueDequeue ep = some (msg, ep')) :
    ep.queue.count ≠ 0 ∧ msg = (pop ipcMaxQueueDepth ep.queue).1 ∧
      ep' = { ep with queue := (pop ipcMaxQueueDepth ep.queue).2 } := by
  unfold ipcQueueDequeue at he
  split at he
  · cases he
  · rename_i hne
    cases he
    exact ⟨hne, rfl, rfl⟩

theorem send_did {h : ℤ} {tag : UInt32} {data : UserData} :
    Did s (.send p heap h tag data) (sysIpcSend s p heap h tag data).1 := by
  unfold sysIpcSend
  split
  · exact .nothing
  rename_i s₁ t he
  have htab : Did s (.send p heap h tag data) s₁ := .opened rfl he
  split
  · exact htab
  split
  · exact htab
  dsimp only
  split
  · exact htab
  split
  · exact htab
  rename_i i ep hfind
  split
  · exact htab
  unfold State.enqueue
  split
  · exact htab
  · rename_i ep' henq
    obtain ⟨⟨e, hget, rfl, -⟩, -⟩ := endpointOf_eq_some_iff.mp hfind
    obtain ⟨hroom, hopen, rfl⟩ := enqueue_ok henq
    exact .sent he hget hroom hopen

theorem recv_did {h : ℤ} {tagOut dataOut : Option Bool} {maxLen : ℕ} :
    Did s (.recv p heap h tagOut dataOut maxLen)
      (sysIpcRecv s p heap h tagOut dataOut maxLen).1 := by
  unfold sysIpcRecv
  split
  · exact .nothing
  rename_i s₁ t he
  have htab : Did s (.recv p heap h tagOut dataOut maxLen) s₁ := .opened rfl he
  split
  · exact htab
  dsimp only
  split
  · exact htab
  split
  · exact htab
  rename_i i ep hfind
  split
  · exact htab
  · rename_i msg ep' hdeq
    obtain ⟨⟨e, hget, rfl, -⟩, -⟩ := endpointOf_eq_some_iff.mp hfind
    obtain ⟨hne, -, rfl⟩ := dequeue_some hdeq
    exact .received he hget hne

theorem connect_did {target : Pid} {id : ℕ} :
    Did s (.connect p heap target id) (sysIpcConnect s p heap target id).1 := by
  unfold sysIpcConnect
  split
  · exact .nothing
  split
  · exact .nothing
  rename_i ep hfind
  split
  · exact .nothing
  split
  · exact .nothing
  rename_i s₁ t he
  split
  · exact .opened rfl he
  · rename_i k hf
    refine .minted rfl he hf rfl (Or.inl ?_)
    rw [(table_spec he).1]
    exact ⟨_, ep, hfind, rfl⟩

theorem mem_of_mem_unname {svcs : List SvcEntry} {i : ℕ} {sv : SvcEntry}
    (hsv : sv ∈ svcs.modify i fun e => { e with name := [] }) (hname : sv.name ≠ []) : sv ∈ svcs := by
  obtain ⟨j, hj, rfl⟩ := List.getElem_of_mem hsv
  rw [List.getElem_modify] at hname ⊢
  split at hname
  · exact absurd rfl hname
  · rename_i hij
    rw [if_neg hij]
    exact List.getElem_mem _

theorem svcOnEndpointClose_sub {svcs : List SvcEntry} {owner : Pid} {id : ℕ} :
    ∀ sv ∈ svcOnEndpointClose svcs owner id, sv.name ≠ [] → sv ∈ svcs := by
  intro sv hsv hname
  unfold svcOnEndpointClose at hsv
  split at hsv
  · exact hsv
  · exact mem_of_mem_unname hsv hname

theorem close_did {h : ℤ} : Did s (.close p heap h) (sysIpcClose s p heap h).1 := by
  unfold sysIpcClose
  split
  · exact .nothing
  rename_i s₁ t he
  split
  · exact .opened rfl he
  dsimp only
  split
  · exact .opened rfl he
  rename_i halloc
  split
  · rename_i hfind
    exact .dropped he fun i ep hc => by rw [hfind] at hc; cases hc
  rename_i i ep hfind
  split
  · rename_i hown
    exact .closed he (by simpa using halloc) hfind hown
  · rename_i hown
    refine .dropped he fun j ep' hc => ?_
    rw [hfind] at hc
    cases hc
    exact hown

theorem svcPut_mem {svcs svcs' : List SvcEntry} {e : SvcEntry} (hp : svcPut svcs e = some svcs') :
    ∀ sv ∈ svcs', sv ∈ svcs ∨ sv = e := by
  intro sv hsv
  unfold svcPut at hp
  split at hp
  · cases hp
    exact (List.mem_or_eq_of_mem_set hsv)
  · split at hp
    · cases hp
    · cases hp
      simpa using hsv

theorem svcCheckEndpoint_some {h : ℤ} {e : HandleEntry} {ep : Endpoint}
    (hc : svcCheckEndpoint s p pr h = some (e, ep)) :
    e.targetPid = p ∧ ∃ i, endpointOf s.registry p e.targetEndpointId = some (i, ep) := by
  unfold svcCheckEndpoint at hc
  split at hc
  · cases hc
  split at hc
  · cases hc
  dsimp only at hc
  split at hc
  · cases hc
  split at hc
  · cases hc
  split at hc
  · cases hc
  split at hc
  · cases hc
  · rename_i hpid _ i ep' hfind _
    cases hc
    exact ⟨by simpa using hpid, i, hfind⟩

theorem register_did {name : Option (List UInt8)} {h : ℤ} :
    Did s (.srRegister p name h) (sysSrRegister s p name h).1 := by
  unfold sysSrRegister
  split
  · exact .nothing
  rename_i pr hp
  split
  · exact .nothing
  split
  · exact .nothing
  rename_i e ep hcheck
  split
  · exact .nothing
  split
  · exact .nothing
  · rename_i svcs hput
    exact .registered hp hcheck hput

theorem unregister_did {name : Option (List UInt8)} {h : ℤ} :
    Did s (.srUnregister p name h) (sysSrUnregister s p name h).1 := by
  unfold sysSrUnregister
  split
  · exact .nothing
  split
  · exact .nothing
  split
  · exact .nothing
  split
  · exact .nothing
  split
  · exact .nothing
  · exact .unregistered

theorem lookup_did {name : Option (List UInt8)} :
    Did s (.srLookup p heap name) (sysSrLookup s p heap name).1 := by
  unfold sysSrLookup
  split
  · exact .nothing
  split
  · exact .nothing
  split
  · exact .nothing
  rename_i e hfind
  split
  · exact .nothing
  rename_i s₁ t he
  split
  · exact .opened rfl he
  · rename_i k hf
    obtain ⟨i, hi, hget⟩ := Option.bind_eq_some_iff.mp hfind
    refine .minted rfl he hf rfl (Or.inr ⟨e, ?_, ?_, rfl, rfl, rfl⟩)
    · rw [(table_spec he).1]
      exact List.mem_of_getElem? hget
    · obtain ⟨hlt, hname, -⟩ := List.findIdx?_eq_some_iff_getElem.mp hi
      rw [List.getElem?_eq_getElem hlt] at hget
      cases hget
      simp at hname
      exact hname.1

theorem step_did {a : Op} {s' : State} (hs : step s a = some s') : Did s a s' := by
  cases a with
  | create p heap heap' => cases hs; exact create_did
  | send p heap h tag data => cases hs; exact send_did
  | recv p heap h tagOut dataOut maxLen => cases hs; exact recv_did
  | connect p heap target id => cases hs; exact connect_did
  | close p heap h => cases hs; exact close_did
  | srRegister p name h => cases hs; exact register_did
  | srUnregister p name h => cases hs; exact unregister_did
  | srLookup p heap name => cases hs; exact lookup_did
  | spawn o =>
    cases hs
    cases o with
    | refused => exact .nothing
    | undone => exact .undone (Or.inl rfl)
    | done => exact .added (Or.inl rfl)
  | fork p o =>
    cases hs
    unfold processFork
    split
    · exact .nothing
    rename_i pr hp
    split
    · exact .nothing
    cases o with
    | refused => exact .nothing
    | undone => exact .undone (Or.inr ⟨p, pr, hp, rfl⟩)
    | done => exact .added (Or.inr ⟨p, pr, hp, rfl⟩)
  | exit p =>
    cases hs
    unfold processExit
    split
    · exact .nothing
    · exact .exited
  | reap c => cases hs; exact .reaped

theorem step_effects {a : Op} {s' : State} (hl : Legal s a)
    (hok : ∀ p heap heap', a = .create p heap heap' →
      ∀ s₁ t h, s.table p heap = .ok (s₁, t) → freeHandle t = some h → ok s₁ p h)
    (hs : step s a = some s') : ReflTransGen (Effect ok) s s' := by
  have hdid := step_did hs
  cases hdid with
  | nothing => exact .refl
  | opened _ he => exact table_effects he
  | created he hf hr =>
    obtain ⟨-, pr, hp, -, hp₁⟩ := table_spec he
    obtain ⟨pr₀, hp₀, hz⟩ := hl
    rw [hp₀] at hp
    cases hp
    exact (table_effects he).tail (.create hp₁ hz rfl hf hr (hok _ _ _ rfl _ _ _ he hf))
  | minted _ he hf hnew hsrc =>
    obtain ⟨-, pr, -, -, hp₁⟩ := table_spec he
    exact (table_effects he).tail (.mint hp₁ rfl hf hnew hsrc)
  | sent he hget hroom hopen => exact (table_effects he).tail (.send _ hget hroom hopen)
  | received he hget hne => exact (table_effects he).tail (.recv hget hne)
  | closed he _ hfind _ =>
    obtain ⟨-, pr, -, -, hp₁⟩ := table_spec he
    exact (table_effects he).tail (.closeOwn hp₁ rfl hfind svcOnEndpointClose_sub)
  | dropped he hfind =>
    obtain ⟨-, pr, -, -, hp₁⟩ := table_spec he
    exact (table_effects he).tail (.closeOther hp₁ rfl hfind)
  | registered _ hcheck hput =>
    refine .single (.services fun sv hsv _ => ?_)
    obtain ⟨-, i, hfind⟩ := svcCheckEndpoint_some hcheck
    rcases svcPut_mem hput sv hsv with hsv | rfl
    · exact Or.inl hsv
    · exact Or.inr ⟨i, _, hfind, rfl⟩
  | unregistered => exact .single (.services fun sv hsv hname => Or.inl (mem_of_mem_unname hsv hname))
  | added hh => exact .single (.addProc hh)
  | undone hh => exact (ReflTransGen.single (.addProc hh)).tail (.destroy _ _)
  | exited => exact .single (.exit _)
  | reaped => exact .single (.destroy s _)

theorem legal_effects {a : Op} {s' : State} (hl : Legal s a) (hs : step s a = some s') :
    ReflTransGen (Effect fun _ _ _ => True) s s' :=
  step_effects hl (fun _ _ _ _ _ _ _ _ _ => trivial) hs

end Calls

end VoidOS.Ipc
