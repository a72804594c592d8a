import VoidOS.IpcEffects

namespace VoidOS.Ipc

open SlotTable RingBuffer Relation Transition

/-- The invariant of the registry and the handle tables. `held`: an open endpoint that a
lookup finds is the target of its owner's handle of the same number. -/
structure Inv (s : State) : Prop where
  names : ∀ i e, get s.registry i = some e →
    e.endpoint.ownerPid = e.ownerPid ∧ e.endpoint.endpointId = e.endpointId
  owner : ∀ i e, get s.registry i = some e → Running s e.ownerPid
  pids : ∀ p pr, s.procs p = some pr → p < s.nextPid
  ring : ∀ i e, get s.registry i = some e → Ok ipcMaxQueueDepth e.endpoint.queue
  held : ∀ p pr h i ep, s.procs p = some pr → endpointOf s.registry p h = some (i, ep) →
    ep.closed = false → ∃ t, pr.ipcHandles = some t ∧ (t h).allocated = true ∧
      (t h).targetPid = p ∧ (t h).targetEndpointId = h

section Steps

variable {ok : State → Pid → ℕ → Prop} {s s' : State} {p q : Pid} {pr : Proc} {t : HandleTable}

theorem running_setHandles (hp : s.procs p = some pr) :
    Running (s.setHandles p t) q ↔ Running s q := by
  unfold Running
  rw [setHandles_procs hp]
  by_cases hq : q = p
  · rw [if_pos hq, hq, hp]
    simp
  · rw [if_neg hq]

theorem freeHandle_spec {h : ℕ} (hf : freeHandle t = some h) :
    (t h).allocated = false ∧ h < ipcMaxHandles := by
  refine ⟨?_, ?_⟩
  · simpa using List.find?_some hf
  · simpa using List.mem_of_find?_eq_some hf

/-- Changing a table keeps the invariant if no handle that holds an open endpoint is lost. -/
theorem Inv.setHandles (h : Inv s) (hp : s.procs p = some pr)
    (hheld : ∀ k i ep, endpointOf s.registry p k = some (i, ep) → ep.closed = false →
      (t k).allocated = true ∧ (t k).targetPid = p ∧ (t k).targetEndpointId = k) :
    Inv (s.setHandles p t) := by
  refine ⟨h.names, fun i e hi => (running_setHandles hp).mpr (h.owner i e hi), ?_, h.ring, ?_⟩
  · intro q pq hq
    rw [setHandles_procs hp] at hq
    split at hq
    · rename_i hqp
      exact h.pids q pr (hqp ▸ hp)
    · exact h.pids q pq hq
  · intro q pq k i ep hq hfind hopen
    rw [setHandles_procs hp] at hq
    split at hq
    · rename_i hqp
      cases hq
      subst hqp
      exact ⟨t, rfl, hheld k i ep hfind hopen⟩
    · exact h.held q pq k i ep hq hfind hopen

theorem Inv.mint (h : Inv s) (hp : s.procs p = some pr) (ht : pr.ipcHandles = some t) {k : ℕ}
    (hf : freeHandle t = some k) (e : HandleEntry) :
    Inv (s.setHandles p (Function.update t k e)) := by
  apply h.setHandles hp
  intro k' i ep hfind hopen
  obtain ⟨t', ht', ha⟩ := h.held p pr k' i ep hp hfind hopen
  rw [ht] at ht'
  cases ht'
  have hne : k' ≠ k := by
    rintro rfl
    rw [(freeHandle_spec hf).1] at ha
    exact absurd ha.1 (by simp)
  rw [Function.update_of_ne hne]
  exact ha

theorem Inv.setEndpoint (h : Inv s) {i : ℕ} {e : RegistryEntry} {ep : Endpoint}
    (hget : get s.registry i = some e) (ho : ep.ownerPid = e.endpoint.ownerPid)
    (hid : ep.endpointId = e.endpoint.endpointId) (hc : e.endpoint.closed = true → ep.closed = true)
    (hq : Ok ipcMaxQueueDepth ep.queue) {svcs : List SvcEntry} {snt : List (ℕ × Message)} :
    Inv { s with registry := setEndpoint s.registry i ep, services := svcs, sent := snt } := by
  have hcases : ∀ j e', get (Ipc.setEndpoint s.registry i ep) j = some e' →
      (j = i ∧ e' = { e with endpoint := ep }) ∨ get s.registry j = some e' := by
    intro j e' hj
    rw [get_setEndpoint] at hj
    split at hj
    · rename_i hij
      subst hij
      rw [hget] at hj
      cases hj
      exact Or.inl ⟨rfl, rfl⟩
    · exact Or.inr hj
  refine ⟨?_, ?_, h.pids, ?_, ?_⟩
  · intro j e' hj
    rcases hcases j e' hj with ⟨-, rfl⟩ | hj
    · exact ⟨ho.trans (h.names i e hget).1, hid.trans (h.names i e hget).2⟩
    · exact h.names j e' hj
  · intro j e' hj
    rcases hcases j e' hj with ⟨-, rfl⟩ | hj
    · exact h.owner i e hget
    · exact h.owner j e' hj
  · intro j e' hj
    rcases hcases j e' hj with ⟨-, rfl⟩ | hj
    · exact hq
    · exact h.ring j e' hj
  · intro p pr k j ep' hp hfind hopen
    have hfind' : endpointOf (Ipc.setEndpoint s.registry i ep) p k = some (j, ep') := hfind
    rw [endpointOf_setEndpoint] at hfind'
    obtain ⟨⟨j₀, ep₀⟩, hfind₀, hif⟩ := Option.map_eq_some_iff.mp hfind'
    dsimp only at hif
    split at hif
    · rename_i hj
      cases hif
      subst hj
      obtain ⟨⟨e₀, hget₀, rfl, -⟩, -⟩ := endpointOf_eq_some_iff.mp hfind₀
      rw [hget] at hget₀
      cases hget₀
      refine h.held p pr k j₀ e.endpoint hp hfind₀ ?_
      by_contra hcl
      rw [hc (by simpa using hcl)] at hopen
      cases hopen
    · cases hif
      exact h.held p pr k j ep' hp hfind₀ hopen

/-- Registering an endpoint under the number of a free handle, and filling that handle. -/
theorem Inv.create (h : Inv s) (hp : s.procs p = some pr) (hz : pr.zombie = false)
    (ht : pr.ipcHandles = some t) {k : ℕ} {reg : Table RegistryEntry}
    (hf : freeHandle t = some k)
    (hr : ipcEndpointRegister s.registry ⟨p, k, false, empty emptyMessage, s.nextUid⟩ p k =
      some reg) :
    Inv { s.setHandles p (Function.update t k ⟨p, k, true, s.nextUid⟩) with
      registry := reg, nextUid := s.nextUid + 1 } := by
  have hmint := h.mint hp ht hf ⟨p, k, true, s.nextUid⟩
  have hcases : ∀ j e, get reg j = some e → e = ⟨⟨p, k, false, empty emptyMessage, s.nextUid⟩, p, k⟩ ∨
      get s.registry j = some e := by
    intro j e hj
    rw [get_put hr] at hj
    split at hj
    · cases hj
      exact Or.inl rfl
    · exact Or.inr hj
  have hrun : Running (s.setHandles p (Function.update t k ⟨p, k, true, s.nextUid⟩)) p :=
    (running_setHandles hp).mpr ⟨pr, hp, hz⟩
  refine ⟨?_, ?_, hmint.pids, ?_, ?_⟩
  · intro j e hj
    rcases hcases j e hj with rfl | hj
    · exact ⟨rfl, rfl⟩
    · exact h.names j e hj
  · intro j e hj
    rcases hcases j e hj with rfl | hj
    · exact hrun
    · exact hmint.owner j e hj
  · intro j e hj
    rcases hcases j e hj with rfl | hj
    · exact ok_empty (by decide)
    · exact h.ring j e hj
  · intro q pq k' i ep hq hfind hopen
    by_cases hname : q = p ∧ k' = k
    · obtain ⟨rfl, rfl⟩ := hname
      have hq' := setHandles_procs (t := Function.update t k' ⟨q, k', true, s.nextUid⟩) hp q
      rw [if_pos rfl] at hq'
      rw [show pq = _ from Option.some.inj (hq.symm.trans hq')]
      exact ⟨_, rfl, by simp⟩
    · have hfind' : endpointOf reg q k' = some (i, ep) := hfind
      rw [endpointOf_register hr hname] at hfind'
      exact hmint.held q pq k' i ep hq hfind' hopen

/-- Closing a handle: if it held an open endpoint, that endpoint is closed with it. -/
theorem Inv.close (h : Inv s) (hp : s.procs p = some pr) (ht : pr.ipcHandles = some t) {k : ℕ}
    (hcl : ∀ i ep, endpointOf s.registry p k = some (i, ep) → (t k).targetPid = p →
      (t k).targetEndpointId = k → ep.closed = true) :
    Inv (s.setHandles p (Function.update t k { t k with allocated := false })) := by
  apply h.setHandles hp
  intro k' i ep hfind hopen
  obtain ⟨t', ht', ha, hpid, hid⟩ := h.held p pr k' i ep hp hfind hopen
  rw [ht] at ht'
  cases ht'
  have hne : k' ≠ k := by
    rintro rfl
    rw [hcl i ep hfind hpid hid] at hopen
    cases hopen
  rw [Function.update_of_ne hne]
  exact ⟨ha, hpid, hid⟩

theorem Inv.unregister (h : Inv s) {c : Pid} {svcs : List SvcEntry} {procs : Pid → Option Proc}
    (hsame : ∀ q, q ≠ c → procs q = s.procs q)
    (hpids : ∀ pr, procs c = some pr → c < s.nextPid) :
    Inv { s with
      procs := procs
      registry := ipcEndpointUnregisterByOwner s.registry c
      services := svcs } := by
  have hcases : ∀ j e, get (ipcEndpointUnregisterByOwner s.registry c) j = some e →
      get s.registry j = some e ∧ e.ownerPid ≠ c := by
    intro j e hj
    rw [get_unregister, Option.filter_eq_some_iff] at hj
    simpa using hj
  refine ⟨fun j e hj => h.names j e (hcases j e hj).1, ?_, ?_, fun j e hj => h.ring j e (hcases j e hj).1,
    ?_⟩
  · intro j e hj
    obtain ⟨hj', hne⟩ := hcases j e hj
    obtain ⟨pr, hpr, hz⟩ := h.owner j e hj'
    exact ⟨pr, (hsame _ hne).trans hpr, hz⟩
  · intro q pq hq
    by_cases hqc : q = c
    · subst hqc
      exact hpids pq hq
    · exact h.pids q pq ((hsame q hqc).symm.trans hq)
  · intro q pq k i ep hq hfind hopen
    have hqc : q ≠ c := by
      rintro rfl
      obtain ⟨⟨e, hget, -, hown, -⟩, -⟩ := endpointOf_eq_some_iff.mp hfind
      exact (hcases i e hget).2 hown
    have hfind' : endpointOf (ipcEndpointUnregisterByOwner s.registry c) q k = some (i, ep) := hfind
    rw [endpointOf_unregister hqc] at hfind'
    exact h.held q pq k i ep ((hsame q hqc).symm.trans hq) hfind' hopen

theorem Inv.addProc (h : Inv s) (handles : Option HandleTable) : Inv (s.addProc handles) := by
  have hnew : s.procs s.nextPid = none := by
    cases hc : s.procs s.nextPid with
    | none => rfl
    | some pr => exact absurd (h.pids _ pr hc) (lt_irrefl _)
  have hsame : ∀ q, q ≠ s.nextPid → (s.addProc handles).procs q = s.procs q :=
    fun q hq => Function.update_of_ne hq _ _
  refine ⟨h.names, ?_, ?_, h.ring, ?_⟩
  · intro j e hj
    obtain ⟨pr, hpr, hz⟩ := h.owner j e hj
    have hlt := h.pids _ pr hpr
    exact ⟨pr, (hsame _ hlt.ne).trans hpr, hz⟩
  · intro q pq hq
    show q < s.nextPid + 1
    by_cases hqn : q = s.nextPid
    · rw [hqn]
      exact lt_add_one _
    · exact lt_trans (h.pids q pq ((hsame q hqn).symm.trans hq)) (lt_add_one _)
  · intro q pq k i ep hq hfind hopen
    by_cases hqn : q = s.nextPid
    · subst hqn
      obtain ⟨⟨e, hget, -, hown, -⟩, -⟩ := endpointOf_eq_some_iff.mp hfind
      obtain ⟨pr, hpr, -⟩ := h.owner i e hget
      rw [hown, hnew] at hpr
      cases hpr
    · exact h.held q pq k i ep ((hsame q hqn).symm.trans hq) hfind hopen

theorem effect_inv (h : Inv s) (he : Effect ok s s') : Inv s' := by
  cases he with
  | @table p pr hp hn =>
    apply h.setHandles hp
    intro k i ep hfind hopen
    obtain ⟨t, ht, -⟩ := h.held p pr k i ep hp hfind hopen
    rw [hn] at ht
    cases ht
  | create hp hz ht hf hr _ => exact h.create hp hz ht hf hr
  | mint hp ht hf _ _ => exact h.mint hp ht hf _
  | send msg hget hroom hopen =>
    apply h.setEndpoint hget
    · rfl
    · rfl
    · exact id
    · exact (h.ring _ _ hget).push hroom
  | recv hget hne =>
    apply h.setEndpoint hget
    · rfl
    · rfl
    · exact id
    · exact (h.ring _ _ hget).pop (Nat.pos_of_ne_zero hne)
  | @closeOwn p pr t k i ep svcs hp ht hfind _ =>
    obtain ⟨⟨e, hget, rfl, -⟩, -⟩ := endpointOf_eq_some_iff.mp hfind
    have hset : Inv { s with
        registry := Ipc.setEndpoint s.registry i { e.endpoint with closed := true }
        services := svcs } := by
      apply h.setEndpoint hget
      · rfl
      · rfl
      · exact fun _ => rfl
      · exact h.ring i e hget
    apply hset.close hp ht
    intro j ep' hj hpid hid
    have hj' : endpointOf (Ipc.setEndpoint s.registry i { e.endpoint with closed := true }) p k =
      some (j, ep') := hj
    rw [hpid, hid] at hfind
    rw [endpointOf_setEndpoint, hfind] at hj'
    simp at hj'
    rw [← hj'.2]
  | @closeOther p pr t k hp ht hfind =>
    apply h.close hp ht
    intro i ep hf hpid hid
    have hne := hfind i ep (by rw [hpid, hid]; exact hf)
    obtain ⟨⟨e, hget, rfl, hown, -⟩, -⟩ := endpointOf_eq_some_iff.mp hf
    exact absurd ((h.names i e hget).1.trans hown) hne
  | services _ => exact ⟨h.names, h.owner, h.pids, h.ring, h.held⟩
  | addProc _ => exact h.addProc _
  | destroy c =>
    apply h.unregister
    · intro q hq
      exact Function.update_of_ne hq _ _
    · intro pr hpr
      rw [Function.update_self] at hpr
      cases hpr
  | exit p =>
    apply h.unregister
    · intro q hq
      exact Function.update_of_ne hq _ _
    · intro pr hpr
      rw [Function.update_self] at hpr
      obtain ⟨pr', hpr', -⟩ := Option.map_eq_some_iff.mp hpr
      exact h.pids p pr' hpr'

theorem effects_inv (h : Inv s) (he : ReflTransGen (Effect ok) s s') : Inv s' := by
  induction he with
  | refl => exact h
  | tail _ hstep ih => exact effect_inv ih hstep

end Steps

theorem init_inv : Inv initState := by
  refine ⟨?_, ?_, ?_, ?_, ?_⟩
  · intro i e hi
    cases hi
  · intro i e hi
    cases hi
  · intro p pr hp
    by_cases h0 : p = 0
    · subst h0
      decide
    · simp [initState, h0] at hp
  · intro i e hi
    cases hi
  · intro p pr h i ep _ hfind
    obtain ⟨⟨e, hget, -⟩, -⟩ := endpointOf_eq_some_iff.mp hfind
    cases hget

theorem step_inv {s s' : State} {a : Op} (h : Inv s) (hl : Legal s a) (hs : step s a = some s') :
    Inv s' := effects_inv h (legal_effects hl hs)

theorem reach_inv {s : State} (h : Reach step Legal Init s) : Inv s := by
  apply h.invariant
  · rintro s rfl
    exact init_inv
  · intro s a s' hs hl hstep
    exact step_inv hs hl hstep

/-- A message sent through handle `h` comes back through `h`. -/
def Works (s : State) (p : Pid) (h : ℤ) : Prop :=
  ∀ (heap heap' : Bool) (tag : UInt32) (data : List UInt8) (maxLen : ℕ),
    data.length ≤ ipcMaxData → data.length ≤ maxLen →
    (sysIpcSend s p heap h tag ⟨data, true⟩).2 = 0 ∧
    (sysIpcRecv (sysIpcSend s p heap h tag ⟨data, true⟩).1 p heap' h (some true) (some true)
      maxLen).2 = ⟨data.length, some tag, data, some ⟨p, tag, data⟩⟩

/-- The handle number the next endpoint of `p` gets. -/
def nextHandle (s : State) (p : Pid) : Option ℕ :=
  freeHandle (((s.procs p).bind Proc.ipcHandles).getD ipcHandleTableCreate)

/-- An endpoint of `p` with the next handle number stands before the slot that
`ipc_endpoint_register` will use. -/
def Shadowed (s : State) (p : Pid) : Prop :=
  ∃ k, nextHandle s p = some k ∧ ∃ i < slot s.registry, ∃ e,
    get s.registry i = some e ∧ e.ownerPid = p ∧ e.endpointId = k

section Fresh

variable {s s' : State} {p : Pid} {pr : Proc} {t : HandleTable} {heap heap' : Bool} {h : ℤ} {k : ℕ}

theorem lazyTable_eq (hlazy : lazyTable pr heap = some t) :
    t = pr.ipcHandles.getD ipcHandleTableCreate := by
  unfold lazyTable at hlazy
  split at hlazy
  · rename_i t' ht'
    cases hlazy
    rw [ht']
    rfl
  · rename_i hn
    split at hlazy
    · cases hlazy
      rw [hn]
      rfl
    · cases hlazy

theorem create_succeeds (hc : sysIpcEndpointCreate s p heap heap' = (s', h)) (hh : 0 ≤ h) :
    ∃ pr t k, s.procs p = some pr ∧ t = pr.ipcHandles.getD ipcHandleTableCreate ∧
      freeHandle t = some k ∧ h = k ∧
      s'.procs p = some { pr with ipcHandles := some (Function.update t k ⟨p, k, true, s.nextUid⟩) } ∧
      ipcEndpointRegister s.registry ⟨p, k, false, empty emptyMessage, s.nextUid⟩ p k =
        some s'.registry := by
  unfold sysIpcEndpointCreate at hc
  split at hc
  · rename_i e he
    cases hc
    unfold State.table at he
    split at he
    · cases he
      exact absurd hh (by decide)
    · split at he
      · cases he
        exact absurd hh (by decide)
      · cases he
  · rename_i s₁ t he
    obtain ⟨hs₁, pr, hp, hlazy, hp₁⟩ := table_spec he
    have ht := lazyTable_eq hlazy
    split at hc
    · cases hc
      exact absurd hh (by decide)
    · rename_i k hf
      split at hc
      · cases hc
        exact absurd hh (by decide)
      · dsimp only at hc
        split at hc
        · cases hc
          exact absurd hh (by decide)
        · rename_i reg hr
          cases hc
          rw [hs₁] at hr
          refine ⟨pr, t, k, hp, ht, hf, rfl, ?_, hr⟩
          show (s₁.setHandles p _).procs p = _
          rw [setHandles_procs hp₁, if_pos rfl, hs₁]
          rfl

theorem table_of_handles (hp : s.procs p = some pr) (ht : pr.ipcHandles = some t) :
    s.table p heap = .ok (s, t) := by
  unfold State.table
  simp only [hp, lazyTable, ht]
  rw [setHandles_self hp ht]

section GoodHandle

variable (hp : s.procs p = some pr) (ht : pr.ipcHandles = some t) (hk : k < ipcMaxHandles)
  (ha : (t k).allocated = true) {i : ℕ} {ep : Endpoint}
  (hfind : endpointOf s.registry (t k).targetPid (t k).targetEndpointId = some (i, ep))

include hp ht hk ha hfind

theorem send_eq {tag : UInt32} {data : List UInt8} (hlen : data.length ≤ ipcMaxData) :
    sysIpcSend s p heap k tag ⟨data, true⟩ = s.enqueue i ep ⟨p, tag, data⟩ := by
  unfold sysIpcSend
  rw [table_of_handles hp ht]
  simp only [Int.toNat_natCast, ha, hfind]
  rw [if_neg (by omega), if_neg (by omega)]
  simp

theorem recv_eq {tagOut dataOut : Option Bool} {maxLen : ℕ} {msg : Message} {ep' : Endpoint}
    (hdeq : ipcQueueDequeue ep = some (msg, ep')) :
    (sysIpcRecv s p heap k tagOut dataOut maxLen).2 = deliver msg tagOut dataOut maxLen := by
  unfold sysIpcRecv
  rw [table_of_handles hp ht]
  simp only [Int.toNat_natCast, ha, hfind, hdeq]
  rw [if_neg (by omega)]
  simp

end GoodHandle

theorem deliver_whole {msg : Message} {maxLen : ℕ} (hlen : msg.data.length ≤ maxLen) :
    deliver msg (some true) (some true) maxLen =
      ⟨msg.data.length, some msg.tag, msg.data, some msg⟩ := by
  simp [deliver, Nat.min_eq_left hlen]

theorem endpointOf_registered {reg reg' : Table RegistryEntry} {ep : Endpoint}
    (hr : ipcEndpointRegister reg ep p k = some reg')
    (hclear : ∀ i < slot reg, ∀ e, get reg i = some e → ¬ (e.ownerPid = p ∧ e.endpointId = k)) :
    endpointOf reg' p k = some (slot reg, ep) := by
  refine endpointOf_eq_some_iff.mpr ⟨⟨⟨ep, p, k⟩, ?_, rfl, rfl, rfl⟩, fun j hj e hget => ?_⟩
  · rw [get_put hr, if_pos rfl]
  · rw [get_put hr, if_neg (by omega)] at hget
    exact hclear j hj e hget

theorem endpointOf_shadowed {reg reg' : Table RegistryEntry} {ep : Endpoint}
    (hr : ipcEndpointRegister reg ep p k = some reg') {i : ℕ} (hi : i < slot reg) {e : RegistryEntry}
    (hget : get reg i = some e) (hname : e.ownerPid = p ∧ e.endpointId = k) :
    ∃ j ep', endpointOf reg p k = some (j, ep') ∧ endpointOf reg' p k = some (j, ep') := by
  cases hfind : endpointOf reg p k with
  | none => exact absurd hname (endpointOf_eq_none_iff.mp hfind i e hget)
  | some je =>
    obtain ⟨j, ep'⟩ := je
    obtain ⟨⟨e', hget', he', hn'⟩, hlt⟩ := endpointOf_eq_some_iff.mp hfind
    have hji : j ≤ i := by
      by_contra hc
      exact hlt i (by omega) e hget hname
    refine ⟨j, ep', rfl, endpointOf_eq_some_iff.mpr ⟨⟨e', ?_, he', hn'⟩, fun j' hj' e'' hg => ?_⟩⟩
    · rw [get_put hr, if_neg (by omega), hget']
    · rw [get_put hr, if_neg (by omega)] at hg
      exact hlt j' hj' e'' hg

theorem enqueue_closed {i : ℕ} {ep : Endpoint} (hc : ep.closed = true) (msg : Message) :
    (s.enqueue i ep msg).2 ≠ 0 := by
  unfold State.enqueue ipcQueueEnqueue
  rw [hc]
  by_cases hfull : ipcMaxQueueDepth ≤ ep.queue.count
  · rw [if_pos hfull]
    show veNomem ≠ 0
    decide
  · rw [if_neg hfull]
    show veBadf ≠ 0
    decide

theorem enqueue_open {i : ℕ} {ep : Endpoint} {msg : Message}
    (hroom : ep.queue.count < ipcMaxQueueDepth) (hopen : ep.closed = false) :
    s.enqueue i ep msg = ({ s with
      registry := setEndpoint s.registry i { ep with queue := push ipcMaxQueueDepth ep.queue msg }
      sent := (ep.uid, msg) :: s.sent }, 0) := by
  unfold State.enqueue ipcQueueEnqueue
  rw [if_neg (by omega), hopen]
  rfl

theorem works_of_empty (hp : s.procs p = some pr) (ht : pr.ipcHandles = some t)
    (hk : k < ipcMaxHandles) (ha : (t k).allocated = true) {i : ℕ} {ep : Endpoint}
    (hfind : endpointOf s.registry (t k).targetPid (t k).targetEndpointId = some (i, ep))
    (hopen : ep.closed = false) (hq : ep.queue = empty emptyMessage) : Works s p k := by
  intro heap heap' tag data maxLen hlen hmax
  have hroom : ep.queue.count < ipcMaxQueueDepth := by
    rw [hq]
    decide
  rw [send_eq hp ht hk ha hfind hlen, enqueue_open hroom hopen]
  refine ⟨rfl, ?_⟩
  have hdeq : ipcQueueDequeue { ep with queue := push ipcMaxQueueDepth ep.queue ⟨p, tag, data⟩ } =
      some (⟨p, tag, data⟩, { ep with
        queue := (pop ipcMaxQueueDepth (push ipcMaxQueueDepth ep.queue ⟨p, tag, data⟩)).2 }) := by
    simp [ipcQueueDequeue, hq, push, pop, empty]
  generalize hs₂ : ({ s with
      registry := setEndpoint s.registry i { ep with
        queue := push ipcMaxQueueDepth ep.queue ⟨p, tag, data⟩ }
      sent := (ep.uid, ⟨p, tag, data⟩) :: s.sent } : State) = s₂
  have hp₂ : s₂.procs p = some pr := by
    rw [← hs₂]
    exact hp
  have hfind₂ : endpointOf s₂.registry (t k).targetPid (t k).targetEndpointId =
      some (i, { ep with queue := push ipcMaxQueueDepth ep.queue ⟨p, tag, data⟩ }) := by
    rw [← hs₂, endpointOf_setEndpoint, hfind]
    simp
  rw [recv_eq hp₂ ht hk ha hfind₂ hdeq, deliver_whole hmax]

/-- A new endpoint works exactly when no older endpoint of the same name stands before
its registry slot: a closed endpoint keeps its entry, and its handle number is reused. -/
theorem create_works_iff {s s' : State} {p : Pid} {heap heap' : Bool} {h : ℤ}
    (hs : Reach step Legal Init s)
    (hc : sysIpcEndpointCreate s p heap heap' = (s', h)) (hh : 0 ≤ h) :
    Works s' p h ↔ ¬ Shadowed s p := by
  have hinv := reach_inv hs
  obtain ⟨pr, t, k, hp, ht, hf, rfl, hp', hr⟩ := create_succeeds hc hh
  obtain ⟨hfree, hk⟩ := freeHandle_spec hf
  have hnext : nextHandle s p = some k := by
    unfold nextHandle
    rw [hp]
    show freeHandle (pr.ipcHandles.getD ipcHandleTableCreate) = some k
    rw [← ht, hf]
  constructor
  · rintro hworks ⟨k', hk', i, hi, e, hget, hname⟩
    rw [hnext] at hk'
    cases hk'
    obtain ⟨j, ep, hfind, hfind'⟩ := endpointOf_shadowed hr hi hget hname
    have hclosed : ep.closed = true := by
      by_contra hopen
      obtain ⟨t', ht', ha, -⟩ := hinv.held p pr k j ep hp hfind (by simpa using hopen)
      rw [ht'] at ht
      rw [show t = t' from ht, ha] at hfree
      cases hfree
    have hsend := (hworks true true 0 [] 0 (Nat.zero_le _) le_rfl).1
    rw [send_eq hp' rfl hk (by simp) (by simpa using hfind') (Nat.zero_le _)] at hsend
    exact enqueue_closed hclosed _ hsend
  · intro hclear
    have hfind := endpointOf_registered hr fun i hi e hget hname =>
      hclear ⟨k, hnext, i, hi, e, hget, hname⟩
    exact works_of_empty hp' rfl hk (by simp) (by simpa using hfind) rfl rfl

end Fresh

theorem reach_initState : Reach step Legal Init initState := Reach.init (show Init initState from rfl)

/-- Process 1 has an open endpoint, and process 2 has closed the one it had. -/
def servedState : State :=
  (runIf step Legal initState [.spawn .done, .spawn .done, .create 1 true true,
    .create 2 true true, .close 2 true 0]).get (by decide)

theorem servedState_create_works :
    (sysIpcEndpointCreate servedState 1 true true).2 = 1 ∧
      Works (sysIpcEndpointCreate servedState 1 true true).1 1 1 := by
  have hreach : Reach step Legal Init servedState :=
    reach_initState.runIf (Option.some_get (by decide)).symm
  have hnames : ∀ x ∈ servedState.registry, ∀ e ∈ x, ¬(e.ownerPid = 1 ∧ e.endpointId = 1) := by
    decide
  have hclear : ¬ Shadowed servedState 1 := by
    rintro ⟨k, hk, i, -, e, hget, hname⟩
    have hnext : nextHandle servedState 1 = some 1 := by decide
    obtain rfl := Option.some.inj (hnext.symm.trans hk)
    exact hnames _ (List.mem_of_getElem? (Option.join_eq_some_iff.mp hget)) e rfl hname
  have hret : (sysIpcEndpointCreate servedState 1 true true).2 = 1 := by decide
  exact ⟨hret, (create_works_iff hreach (Prod.ext rfl hret) (by decide)).mpr hclear⟩

/-- Process 1 has created an endpoint and closed it again. -/
def reusedState : State :=
  (runIf step Legal initState [.spawn .done, .create 1 true true, .close 1 true 0]).get (by decide)

theorem reusedState_reach : Reach step Legal Init reusedState :=
  reach_initState.runIf (Option.some_get (by decide)).symm

/-- The endpoint created next has the number of the closed one and loses its messages. -/
theorem reused_handle_fails : Reach step Legal Init reusedState ∧
    (sysIpcEndpointCreate reusedState 1 true true).2 = 0 ∧
    ¬ Works (sysIpcEndpointCreate reusedState 1 true true).1 1 0 := by
  refine ⟨reusedState_reach, by decide, fun hworks => ?_⟩
  have hsend := (hworks true true 0 [] 0 (Nat.zero_le _) le_rfl).1
  have hbad : (sysIpcSend (sysIpcEndpointCreate reusedState 1 true true).1 1 true 0 0
      ⟨[], true⟩).2 = veBadf := by
    decide
  rw [hbad] at hsend
  exact absurd hsend (by decide)

end VoidOS.Ipc
