import VoidOS.IpcFresh

namespace VoidOS.Ipc

open SlotTable RingBuffer Relation Transition

/-- The name `(q, id)` leads to an open endpoint of `q`. -/
def Open (reg : Table RegistryEntry) (q : Pid) (id : ℕ) : Prop :=
  ∃ i ep, endpointOf reg q id = some (i, ep) ∧ ep.ownerPid = q ∧ ep.closed = false

/-- Every service names an open endpoint of its owner. -/
def NamesOpen (s : State) : Prop :=
  ∀ sv ∈ s.services, sv.name ≠ [] → Open s.registry sv.ownerPid sv.endpointId

/-- Every handle that `sr_lookup` returns leads to an open endpoint. -/
def LookupsOpen (s : State) : Prop :=
  ∀ p heap name s' h, sysSrLookup s p heap name = (s', h) → 0 ≤ h →
    ∃ pr t, s'.procs p = some pr ∧ pr.ipcHandles = some t ∧
      Open s'.registry (t h.toNat).targetPid (t h.toNat).targetEndpointId

/-- The service is registered for the endpoint `(owner, id)`. -/
def SvcEntry.pointsTo (owner : Pid) (id : ℕ) (sv : SvcEntry) : Bool :=
  sv.name ≠ [] && sv.ownerPid = owner && sv.endpointId = id

/-- Not more than one service is registered for the endpoint `(owner, id)`. -/
def OneName (svcs : List SvcEntry) (owner : Pid) (id : ℕ) : Prop :=
  ∀ i < svcs.length, ∀ j < svcs.length, svcs[i]?.any (SvcEntry.pointsTo owner id) = true →
    svcs[j]?.any (SvcEntry.pointsTo owner id) = true → i = j

/-- The condition under which names stay open: an endpoint that its owner closes has one name at
most, and an endpoint that is registered is not closed. -/
def Tidy (s : State) : Op → Prop
  | .close p _ h => ∀ t ∈ (s.procs p).bind Proc.ipcHandles,
      OneName s.services p (t h.toNat).targetEndpointId
  | .srRegister p _ h => ∀ x ∈ (s.procs p).bind fun pr => svcCheckEndpoint s p pr h,
      x.2.closed = false
  | _ => True

section Names

variable {s s' : State} {p q : Pid} {id k : ℕ} {reg reg' : Table RegistryEntry} {a : Op}

theorem NamesOpen.mono (h : NamesOpen s) (hsv : ∀ sv ∈ s'.services, sv.name ≠ [] →
      sv ∈ s.services ∧ (Open s.registry sv.ownerPid sv.endpointId →
        Open s'.registry sv.ownerPid sv.endpointId)) : NamesOpen s' := by
  intro sv hs hname
  obtain ⟨hold, hopen⟩ := hsv sv hs hname
  exact hopen (h sv hold hname)

theorem NamesOpen.registry (h : NamesOpen s) (hsv : s'.services = s.services)
    (hreg : ∀ q id, Open s.registry q id → Open s'.registry q id) : NamesOpen s' := by
  apply h.mono
  intro sv hs _
  rw [hsv] at hs
  exact ⟨hs, hreg _ _⟩

theorem Open.register (h : Open reg q id) {u : ℕ}
    (hr : ipcEndpointRegister reg ⟨p, k, false, empty emptyMessage, u⟩ p k = some reg') :
    Open reg' q id := by
  obtain ⟨i, ep, hfind, howner, hopen⟩ := h
  by_cases hname : q = p ∧ id = k
  · obtain ⟨rfl, rfl⟩ := hname
    obtain ⟨⟨e, hget, -, hn⟩, hlt⟩ := endpointOf_eq_some_iff.mp hfind
    by_cases hi : i < slot reg
    · -- the older endpoint stands first and is found still
      obtain ⟨j, ep', hj, hj'⟩ := endpointOf_shadowed hr hi hget hn
      rw [hfind] at hj
      cases hj
      exact ⟨i, ep, hj', howner, hopen⟩
    · refine ⟨slot reg, _, endpointOf_registered hr fun j hj e' hget' => ?_, rfl, rfl⟩
      exact hlt j (by omega) e' hget'
  · exact ⟨i, ep, by rw [endpointOf_register hr hname, hfind], howner, hopen⟩

theorem Open.setEndpoint (h : Open reg q id) {i : ℕ} {e : RegistryEntry} {ep : Endpoint}
    (hget : get reg i = some e) (howner : ep.ownerPid = e.endpoint.ownerPid)
    (hclosed : ep.closed = e.endpoint.closed) : Open (Ipc.setEndpoint reg i ep) q id := by
  obtain ⟨j, ep', hfind, howner', hopen'⟩ := h
  obtain ⟨⟨e', hget', rfl, -⟩, -⟩ := endpointOf_eq_some_iff.mp hfind
  refine ⟨j, if j = i then ep else e'.endpoint, ?_, ?_, ?_⟩
  · rw [endpointOf_setEndpoint, hfind]
    by_cases hji : j = i
    · simp [hji]
    · simp [hji]
  all_goals
    by_cases hji : j = i
    · rw [hji, hget] at hget'
      cases hget'
      rw [if_pos hji]
      first
        | rw [howner, howner']
        | rw [hclosed, hopen']
    · rw [if_neg hji]
      assumption

theorem table_same {heap : Bool} {s₁ : State} {t : HandleTable} (he : s.table p heap = .ok (s₁, t)) :
    s₁.registry = s.registry ∧ s₁.services = s.services := by
  obtain ⟨rfl, -⟩ := table_spec he
  exact ⟨rfl, rfl⟩

theorem svcOnEndpointClose_gone {svcs : List SvcEntry} (hone : OneName svcs p id) :
    ∀ sv ∈ svcOnEndpointClose svcs p id, sv.name ≠ [] →
      ¬ (sv.ownerPid = p ∧ sv.endpointId = id) := by
  intro sv hsv hname hmatch
  unfold svcOnEndpointClose at hsv
  split at hsv
  · rename_i hnone
    have := List.findIdx?_eq_none_iff.mp hnone sv hsv
    simp [hname, hmatch] at this
  · rename_i i hi
    obtain ⟨hlt, hp, -⟩ := List.findIdx?_eq_some_iff_getElem.mp hi
    -- `sv` stands at another place than `i`, and both match
    obtain ⟨j, hj, rfl⟩ := List.getElem_of_mem hsv
    rw [List.length_modify] at hj
    rw [List.getElem_modify] at hname hmatch
    split at hname
    · exact hname rfl
    rename_i hij
    rw [if_neg hij] at hmatch
    apply hij
    apply hone i hlt j hj
    · rw [List.getElem?_eq_getElem hlt]
      exact hp
    · rw [List.getElem?_eq_getElem hj]
      simp [SvcEntry.pointsTo, hname, hmatch]

theorem Open.close (h : Open reg q id) {i : ℕ} {ep : Endpoint} {k : ℕ}
    (hfind : endpointOf reg p k = some (i, ep)) (hne : ¬ (q = p ∧ id = k)) :
    Open (Ipc.setEndpoint reg i { ep with closed := true }) q id := by
  obtain ⟨j, ep', hfind', howner', hopen'⟩ := h
  obtain ⟨⟨e, hget, -, hp, hk⟩, -⟩ := endpointOf_eq_some_iff.mp hfind
  obtain ⟨⟨e', hget', -, hq, hid⟩, -⟩ := endpointOf_eq_some_iff.mp hfind'
  have hji : j ≠ i := by
    intro hji
    rw [hji, hget] at hget'
    cases hget'
    exact hne ⟨hq.symm.trans hp, hid.symm.trans hk⟩
  refine ⟨j, ep', ?_, howner', hopen'⟩
  rw [endpointOf_setEndpoint, hfind']
  simp [hji]

/-- Closing an endpoint that has one name at most. -/
theorem NamesOpen.close {heap : Bool} {h : ℤ} {s₁ : State} {t : HandleTable} {i : ℕ} {ep : Endpoint}
    (hn : NamesOpen s) (hi : Inv s) (ht : Tidy s (.close p heap h))
    (he : s.table p heap = .ok (s₁, t)) (halloc : (t h.toNat).allocated = true)
    (hfind : endpointOf s₁.registry (t h.toNat).targetPid (t h.toNat).targetEndpointId =
      some (i, ep)) (hown : ep.ownerPid = p)
    (hreg' : s'.registry = Ipc.setEndpoint s₁.registry i { ep with closed := true })
    (hsv' : s'.services = svcOnEndpointClose s₁.services p (t h.toNat).targetEndpointId) :
    NamesOpen s' := by
  obtain ⟨hreg, hsv⟩ := table_same he
  obtain ⟨-, pr, hp, hlazy, -⟩ := table_spec he
  rw [hreg] at hfind
  -- the table was there: a new one has no allocated handle
  have hhandles : pr.ipcHandles = some t := by
    unfold lazyTable at hlazy
    split at hlazy
    · rename_i ht'
      rw [ht', hlazy]
    · split at hlazy
      · cases hlazy
        cases halloc
      · cases hlazy
  have hone := ht t (Option.mem_def.mpr (by rw [hp]; exact hhandles))
  have htarget : (t h.toNat).targetPid = p := by
    obtain ⟨⟨e, hget, rfl, howner, -⟩, -⟩ := endpointOf_eq_some_iff.mp hfind
    rw [← howner, ← (hi.names i e hget).1, hown]
  rw [htarget] at hfind
  apply hn.mono
  intro sv hs hname
  rw [hsv', hsv] at hs
  refine ⟨svcOnEndpointClose_sub sv hs hname, fun ho => ?_⟩
  rw [hreg', hreg]
  exact ho.close hfind (svcOnEndpointClose_gone hone sv hs hname)

theorem NamesOpen.unregister (h : NamesOpen s) {c : Pid}
    (hreg : s'.registry = ipcEndpointUnregisterByOwner s.registry c)
    (hsv : s'.services = svcCleanupOwner s.services c) : NamesOpen s' := by
  apply h.mono
  intro sv hs hname
  rw [hsv] at hs
  obtain ⟨sv', hs', rfl⟩ := List.mem_map.mp hs
  split at hname
  · exact absurd rfl hname
  rename_i hne
  rw [if_neg hne, hreg]
  refine ⟨hs', ?_⟩
  rintro ⟨i, ep, hfind, hrest⟩
  exact ⟨i, ep, by rw [endpointOf_unregister hne, hfind], hrest⟩

theorem step_namesOpen (hi : Inv s) (h : NamesOpen s) (ht : Tidy s a)
    (hs : step s a = some s') : NamesOpen s' := by
  have htable : ∀ {q heap s₁ t}, s.table q heap = .ok (s₁, t) → NamesOpen s₁ := by
    intro q heap s₁ t he
    obtain ⟨hreg, hsv⟩ := table_same he
    exact h.registry hsv (by rw [hreg]; exact fun _ _ ho => ho)
  have hdid := step_did hs
  cases hdid with
  | nothing => exact h
  | opened _ he => exact htable he
  | created he _ hr => exact (htable he).registry rfl fun _ _ ho => ho.register hr
  | minted _ he => exact (htable he :)
  | sent he hget => exact (htable he).registry rfl fun _ _ ho => ho.setEndpoint hget rfl rfl
  | received he hget => exact (htable he).registry rfl fun _ _ ho => ho.setEndpoint hget rfl rfl
  | closed he halloc hfind hown => exact h.close hi ht he halloc hfind hown rfl rfl
  | dropped he => exact (htable he :)
  | registered hp hcheck hput =>
    obtain ⟨-, i, hfind⟩ := svcCheckEndpoint_some hcheck
    intro sv hs hname
    rcases svcPut_mem hput sv hs with hs | rfl
    · exact h sv hs hname
    · obtain ⟨⟨re, hget, rfl, howner, -⟩, -⟩ := endpointOf_eq_some_iff.mp hfind
      exact ⟨i, re.endpoint, hfind, (hi.names i re hget).1.trans howner,
        ht (_, _) (Option.mem_def.mpr (by rw [hp]; exact hcheck))⟩
  | unregistered => exact h.mono fun sv hs hname => ⟨mem_of_mem_unname hs hname, fun ho => ho⟩
  | added => exact h
  | @undone _ handles =>
    have hadd : NamesOpen (s.addProc handles) := h
    exact hadd.unregister rfl rfl
  | exited => exact h.unregister rfl rfl
  | reaped => exact h.unregister rfl rfl

theorem NamesOpen.lookups (h : NamesOpen s) : LookupsOpen s := by
  intro p heap name s' k hl hk
  unfold sysSrLookup at hl
  split at hl
  · cases hl
    exact absurd hk (by decide)
  split at hl
  · rename_i e he
    cases hl
    unfold svcValidateName at he
    split at he
    · cases he
      exact absurd hk (by decide)
    · split at he
      · cases he
        exact absurd hk (by decide)
      · split at he
        · cases he
          exact absurd hk (by decide)
        · cases he
  split at hl
  · cases hl
    exact absurd hk (by decide)
  rename_i sv hfind
  split at hl
  · rename_i e he
    cases hl
    unfold State.table at he
    split at he
    · cases he
      exact absurd hk (by decide)
    · split at he
      · cases he
        exact absurd hk (by decide)
      · cases he
  rename_i s₁ t he
  obtain ⟨-, pr, -, -, hp₁⟩ := table_spec he
  split at hl
  · cases hl
    exact absurd hk (by decide)
  rename_i j hf
  cases hl
  obtain ⟨i, hidx, hget⟩ := Option.bind_eq_some_iff.mp hfind
  have hsv : sv ∈ s.services := List.mem_of_getElem? hget
  have hname : sv.name ≠ [] := by
    obtain ⟨hlt, hn, -⟩ := List.findIdx?_eq_some_iff_getElem.mp hidx
    rw [List.getElem?_eq_getElem hlt] at hget
    cases hget
    simp at hn
    exact hn.1
  refine ⟨{ pr with ipcHandles := some (Function.update t j ⟨sv.ownerPid, sv.endpointId, true, sv.uid⟩) },
    _, ?_, rfl, ?_⟩
  · rw [setHandles_procs hp₁, if_pos rfl]
  · rw [Int.toNat_natCast, Function.update_self, setHandles_registry, (table_same he).1]
    exact h sv hsv hname

end Names

/-- In every run whose calls close endpoints with one name at most and name open endpoints only,
no name leads to a closed or released endpoint. -/
theorem namesOpen_of_tidy {s : State} (h : Reach step (fun s a => Legal s a ∧ Tidy s a) Init s) :
    NamesOpen s ∧ LookupsOpen s := by
  have hboth : Inv s ∧ NamesOpen s := by
    apply h.invariant
    · rintro s rfl
      exact ⟨init_inv, fun sv hsv => by cases hsv⟩
    · intro s a s' hs hok hstep
      exact ⟨step_inv hs.1 hok.1 hstep, step_namesOpen hs.1 hs.2 hok.2 hstep⟩
  exact ⟨hboth.2, hboth.2.lookups⟩

instance (svcs : List SvcEntry) (owner : Pid) (id : ℕ) : Decidable (OneName svcs owner id) := by
  unfold OneName
  infer_instance

instance (s : State) (a : Op) : Decidable (Tidy s a) := by
  cases a <;> unfold Tidy <;> infer_instance

/-- Process 1 names its endpoint "a", and process 2 looks the name up. -/
def namedRun : List Op :=
  [.spawn .done, .spawn .done, .create 1 true true, .srRegister 1 (some [97]) 0,
    .srLookup 2 true (some [97])]

theorem namedRun_open :
    ∃ s, runIf step (fun s a => Legal s a ∧ Tidy s a) initState namedRun = some s ∧
      s.services.length = 1 ∧ NamesOpen s ∧ LookupsOpen s := by
  have hrun : (runIf step (fun s a => Legal s a ∧ Tidy s a) initState namedRun).map
      (·.services.length) = some 1 := by
    decide
  obtain ⟨s, hs, hlen⟩ := Option.map_eq_some_iff.mp hrun
  exact ⟨s, hs, hlen, namesOpen_of_tidy ((Reach.init (show Init initState from rfl)).runIf hs)⟩

/-- Process 1 gives its endpoint two names and closes it. -/
def twoNamesRun : List Op :=
  [.spawn .done, .create 1 true true, .srRegister 1 (some [97]) 0, .srRegister 1 (some [98]) 0,
    .close 1 true 0]

/-- The second name still leads to the endpoint, which is closed. -/
theorem twoNamesRun_closed :
    ∃ s, runIf step Legal initState twoNamesRun = some s ∧ ¬ NamesOpen s := by
  have hrun : (runIf step Legal initState twoNamesRun).map (fun s =>
      (s.services.map fun sv => (sv.name, sv.ownerPid, sv.endpointId),
        (endpointOf s.registry 1 0).map fun ie => ie.2.closed)) =
      some ([([], 1, 0), ([98], 1, 0)], some true) := by
    decide
  obtain ⟨s, hs, hval⟩ := Option.map_eq_some_iff.mp hrun
  injection hval with hsvs hclosed
  refine ⟨s, hs, fun hopen => ?_⟩
  have hmem : (([98], 1, 0) : List UInt8 × Pid × ℕ) ∈
      s.services.map fun sv => (sv.name, sv.ownerPid, sv.endpointId) := by
    rw [hsvs]
    simp
  obtain ⟨sv, hsv, heq⟩ := List.mem_map.mp hmem
  injection heq with hname heq
  injection heq with howner hid
  obtain ⟨i, ep, hfind, -, ho⟩ := hopen sv hsv (by rw [hname]; simp)
  rw [howner, hid] at hfind
  rw [hfind] at hclosed
  rw [Option.map_some, ho] at hclosed
  cases hclosed

/-- No endpoint and no service belongs to `q`, and whoever tries to reach `q` fails. -/
structure Invisible (s : State) (q : Pid) : Prop where
  endpoints : ∀ i e, get s.registry i = some e → e.ownerPid ≠ q
  services : ∀ sv ∈ s.services, sv.name ≠ [] → sv.ownerPid ≠ q
  connect : ∀ p heap id, (sysIpcConnect s p heap q id).2 < 0
  send : ∀ p pr t heap (h : ℤ) tag data, s.procs p = some pr → pr.ipcHandles = some t →
    (t h.toNat).targetPid = q → (sysIpcSend s p heap h tag data).2 < 0
  recv : ∀ p pr t heap (h : ℤ) tagOut dataOut maxLen, s.procs p = some pr →
    pr.ipcHandles = some t → (t h.toNat).targetPid = q →
    (sysIpcRecv s p heap h tagOut dataOut maxLen).2.ret < 0

def ServicesOwned (s : State) : Prop :=
  ∀ sv ∈ s.services, sv.name ≠ [] → Running s sv.ownerPid

section Dead

variable {ok : State → Pid → ℕ → Prop} {s s' : State} {q : Pid} {a : Op}

theorem effect_running (he : Effect ok s s') :
    s.nextPid ≤ s'.nextPid ∧ ∀ q < s.nextPid, Running s' q → Running s q := by
  cases he with
  | table hp hn => exact ⟨le_rfl, fun _ _ => (running_setHandles hp).mp⟩
  | create hp hz ht hf hr hok => exact ⟨le_rfl, fun _ _ => (running_setHandles hp).mp⟩
  | mint hp ht hf ha hs => exact ⟨le_rfl, fun _ _ => (running_setHandles hp).mp⟩
  | send msg hget hroom hopen => exact ⟨le_rfl, fun _ _ h => h⟩
  | recv hget hne => exact ⟨le_rfl, fun _ _ h => h⟩
  | closeOwn hp ht hfind hsvcs => exact ⟨le_rfl, fun _ _ => (running_setHandles hp).mp⟩
  | closeOther hp ht hfind => exact ⟨le_rfl, fun _ _ => (running_setHandles hp).mp⟩
  | services hsvcs => exact ⟨le_rfl, fun _ _ h => h⟩
  | addProc hh =>
    refine ⟨le_of_lt (lt_add_one _), ?_⟩
    rintro q hq ⟨pr, hpr, hz⟩
    exact ⟨pr, (Function.update_of_ne hq.ne _ _).symm.trans hpr, hz⟩
  | destroy c =>
    refine ⟨le_rfl, ?_⟩
    rintro q - ⟨pr, hpr, hz⟩
    by_cases hqc : q = c
    · rw [hqc] at hpr
      have hnone : (processDestroy s c).procs c = none := Function.update_self ..
      rw [hnone] at hpr
      cases hpr
    · exact ⟨pr, (Function.update_of_ne hqc _ _).symm.trans hpr, hz⟩
  | exit p =>
    refine ⟨le_rfl, ?_⟩
    rintro q - ⟨pr, hpr, hz⟩
    by_cases hqp : q = p
    · dsimp only at hpr
      rw [hqp, Function.update_self] at hpr
      obtain ⟨pr', -, rfl⟩ := Option.map_eq_some_iff.mp hpr
      cases hz
    · exact ⟨pr, (Function.update_of_ne hqp _ _).symm.trans hpr, hz⟩

theorem effect_servicesOwned (hi : Inv s) (h : ServicesOwned s) (he : Effect ok s s') :
    ServicesOwned s' := by
  cases he with
  | table hp hn => exact fun sv hs hn' => (running_setHandles hp).mpr (h sv hs hn')
  | create hp hz ht hf hr hok => exact fun sv hs hn => (running_setHandles hp).mpr (h sv hs hn)
  | mint hp ht hf ha hs => exact fun sv hs hn => (running_setHandles hp).mpr (h sv hs hn)
  | send msg hget hroom hopen => exact h
  | recv hget hne => exact h
  | closeOwn hp ht hfind hsvcs =>
    exact fun sv hs hn => (running_setHandles hp).mpr (h sv (hsvcs sv hs hn) hn)
  | closeOther hp ht hfind => exact fun sv hs hn => (running_setHandles hp).mpr (h sv hs hn)
  | services hsvcs =>
    intro sv hs hn
    rcases hsvcs sv hs hn with hold | ⟨i, ep, hfind, -⟩
    · exact h sv hold hn
    · obtain ⟨⟨e, hget, -, howner, -⟩, -⟩ := endpointOf_eq_some_iff.mp hfind
      exact howner ▸ hi.owner i e hget
  | addProc hh =>
    intro sv hs hn
    obtain ⟨pr, hpr, hz⟩ := h sv hs hn
    exact ⟨pr, (Function.update_of_ne (hi.pids _ pr hpr).ne _ _).trans hpr, hz⟩
  | destroy c =>
    intro sv hs hn
    obtain ⟨sv', hs', rfl⟩ := List.mem_map.mp hs
    split at hn
    · exact absurd rfl hn
    · rename_i hne
      rw [if_neg hne]
      obtain ⟨pr, hpr, hz⟩ := h sv' hs' hn
      exact ⟨pr, (Function.update_of_ne hne _ _).trans hpr, hz⟩
  | exit p =>
    intro sv hs hn
    obtain ⟨sv', hs', rfl⟩ := List.mem_map.mp hs
    split at hn
    · exact absurd rfl hn
    · rename_i hne
      rw [if_neg hne]
      obtain ⟨pr, hpr, hz⟩ := h sv' hs' hn
      exact ⟨pr, (Function.update_of_ne hne _ _).trans hpr, hz⟩

theorem step_running (hl : Legal s a) (hs : step s a = some s') :
    s.nextPid ≤ s'.nextPid ∧ ∀ q < s.nextPid, Running s' q → Running s q := by
  have heff := legal_effects hl hs
  clear hs
  induction heff with
  | refl => exact ⟨le_rfl, fun _ _ h => h⟩
  | tail _ he ih =>
    obtain ⟨hle, hrun⟩ := effect_running he
    exact ⟨ih.1.trans hle, fun q hq h => ih.2 q hq (hrun q (hq.trans_le ih.1) h)⟩

theorem reach_servicesOwned (h : Reach step Legal Init s) : Inv s ∧ ServicesOwned s := by
  apply h.invariant
  · rintro s rfl
    exact ⟨init_inv, fun sv hsv => by cases hsv⟩
  · intro s a s' hs hl hstep
    have heff := legal_effects hl hstep
    clear hstep
    induction heff with
    | refl => exact hs
    | tail _ he ih => exact ⟨effect_inv ih.1 he, effect_servicesOwned ih.1 ih.2 he⟩

theorem invisible_of_not_running (hi : Inv s) (hsv : ServicesOwned s) (hq : ¬ Running s q) :
    Invisible s q := by
  have hnone : ∀ id, endpointOf s.registry q id = none := by
    intro id
    apply endpointOf_eq_none_iff.mpr
    intro i e hget hn
    exact hq (hn.1 ▸ hi.owner i e hget)
  have hperm : vePerm < 0 := by decide
  have hbadf : veBadf < 0 := by decide
  have hinval : veInval < 0 := by decide
  refine ⟨?_, ?_, ?_, ?_, ?_⟩
  · intro i e hget ho
    exact hq (ho ▸ hi.owner i e hget)
  · intro sv hs hn ho
    exact hq (ho ▸ hsv sv hs hn)
  · intro p heap id
    unfold sysIpcConnect
    split
    · exact hperm
    · rw [hnone]
      exact hbadf
  · intro p pr t heap h tag data hp ht htarget
    unfold sysIpcSend
    rw [table_of_handles hp ht]
    dsimp only
    rw [htarget, hnone]
    split
    · exact hbadf
    split
    · exact hinval
    split
    · exact hbadf
    · exact hbadf
  · intro p pr t heap h tagOut dataOut maxLen hp ht htarget
    unfold sysIpcRecv
    rw [table_of_handles hp ht]
    dsimp only
    rw [htarget, hnone]
    split
    · exact hbadf
    split
    · exact hbadf
    · exact hbadf

end Dead

/-- A process that does not run is invisible, and once its pid has been handed out it stays so. -/
theorem dead_invisible {s : State} (h : Reach step Legal Init s) {q : Pid} (hq : ¬ Running s q) :
    Invisible s q ∧ (q < s.nextPid → ∀ s', Reach step Legal (· = s) s' →
      ¬ Running s' q ∧ Invisible s' q) := by
  obtain ⟨hi, hsv⟩ := reach_servicesOwned h
  refine ⟨invisible_of_not_running hi hsv hq, fun hlt s' hs' => ?_⟩
  have hlater : Reach step Legal Init s' ∧ q < s'.nextPid ∧ ¬ Running s' q := by
    apply hs'.invariant
    · rintro s' rfl
      exact ⟨h, hlt, hq⟩
    · intro s₁ a s₂ hs₁ hl hstep
      obtain ⟨hle, hrun⟩ := step_running hl hstep
      exact ⟨hs₁.1.step hl hstep, hs₁.2.1.trans_le hle, fun hr => hs₁.2.2 (hrun q hs₁.2.1 hr)⟩
  obtain ⟨hi', hsv'⟩ := reach_servicesOwned hlater.1
  exact ⟨hlater.2.2, invisible_of_not_running hi' hsv' hlater.2.2⟩

/-- A process that exits disappears for good. -/
theorem exited_invisible :
    ∃ s, runIf step Legal initState [.spawn .done, .create 1 true true, .exit 1] = some s ∧
      ¬ Running s 1 ∧ 1 < s.nextPid ∧ Invisible s 1 ∧
      ∀ s', Reach step Legal (· = s) s' → ¬ Running s' 1 ∧ Invisible s' 1 := by
  have hrun : (runIf step Legal initState [.spawn .done, .create 1 true true, .exit 1]).map
      (fun s => (decide (Running s 1), decide (1 < s.nextPid))) = some (false, true) := by
    decide
  obtain ⟨s, hs, hval⟩ := Option.map_eq_some_iff.mp hrun
  injection hval with hdead hlt
  have hdead := of_decide_eq_false hdead
  have hlt := of_decide_eq_true hlt
  obtain ⟨hinv, hlater⟩ := dead_invisible (reach_initState.runIf hs) hdead
  exact ⟨s, hs, hdead, hlt, hinv, hlater hlt⟩

/-- A pid that is not handed out yet is not the pid of a process, and becomes visible later. -/
theorem future_pid_visible :
    ¬ Running initState 1 ∧ ∃ s', Reach step Legal (· = initState) s' ∧ ¬ Invisible s' 1 := by
  refine ⟨by decide, ?_⟩
  have hrun : (runIf step Legal initState [.spawn .done, .create 1 true true]).map
      (fun s => (get s.registry 0).map RegistryEntry.ownerPid) = some (some 1) := by
    decide
  obtain ⟨s, hs, hval⟩ := Option.map_eq_some_iff.mp hrun
  have hstart : Reach step Legal (· = initState) initState := Reach.init rfl
  refine ⟨s, hstart.runIf hs, fun hinv => ?_⟩
  obtain ⟨e, hget, howner⟩ := Option.map_eq_some_iff.mp hval
  exact hinv.endpoints 0 e hget howner

end VoidOS.Ipc
