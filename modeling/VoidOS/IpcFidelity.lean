import VoidOS.IpcFresh

namespace VoidOS.Ipc

open SlotTable RingBuffer Relation Transition

/-- The handle `h` of `p` is allocated and was minted for the object `u`. -/
def Holds (s : State) (p : Pid) (h : ℤ) (u : ℕ) : Prop :=
  ∃ pr t, s.procs p = some pr ∧ pr.ipcHandles = some t ∧ 0 ≤ h ∧ h < ipcMaxHandles ∧
    (t h.toNat).allocated = true ∧ (t h.toNat).minted = u

/-- The object `u` has been closed, or is gone with its owner. -/
def Dead (s : State) (u : ℕ) : Prop :=
  ∀ i e, get s.registry i = some e → e.endpoint.uid = u → e.endpoint.closed = true

def Untouched (s s' : State) (u : ℕ) : Prop :=
  ∀ i e, get s.registry i = some e → e.endpoint.uid ≠ u → get s'.registry i = some e

/-- A send or a receive acts on the object its handle was minted for and on no other. -/
def Faithful (s : State) : Op → Prop
  | .send p heap h tag data => ∀ u, Holds s p h u →
      Untouched s (sysIpcSend s p heap h tag data).1 u ∧
      (Dead s u → (sysIpcSend s p heap h tag data).2 = veBadf)
  | .recv p heap h tagOut dataOut maxLen => ∀ u, Holds s p h u →
      Untouched s (sysIpcRecv s p heap h tagOut dataOut maxLen).1 u ∧
      ∀ m, (sysIpcRecv s p heap h tagOut dataOut maxLen).2.taken = some m → (u, m) ∈ s.sent
  | _ => True

/-- The condition under which handles are faithful: an endpoint is created under a name
that no registered endpoint has, and a send to a dead object is well formed and finds its
queue not full. -/
def Tame (s : State) : Op → Prop
  | .create p _ _ => ∀ k, nextHandle s p = some k → endpointOf s.registry p k = none
  | .send p _ h _ data => ∀ u, Holds s p h u → Dead s u →
      data.bytes.length ≤ ipcMaxData ∧ (data.bytes = [] ∨ data.valid = true) ∧
      ∀ i e, get s.registry i = some e → e.endpoint.uid = u →
        e.endpoint.queue.count < ipcMaxQueueDepth
  | _ => True

/-- While `q` runs, the name `(q, k)` is registered for the object `u`. -/
def Named (s : State) (q : Pid) (k u : ℕ) : Prop :=
  q < s.nextPid ∧ (Running s q → ∃ i e, get s.registry i = some e ∧ e.ownerPid = q ∧
    e.endpointId = k ∧ e.endpoint.uid = u)

/-- Names are registered once, handles and services name the objects they were made for,
and queues hold what was sent. -/
structure Fidelity (s : State) : Prop where
  unique : ∀ i j e e', get s.registry i = some e → get s.registry j = some e' →
    e.ownerPid = e'.ownerPid → e.endpointId = e'.endpointId → i = j
  uid_lt : ∀ i e, get s.registry i = some e → e.endpoint.uid < s.nextUid
  uid_inj : ∀ i j e e', get s.registry i = some e → get s.registry j = some e' →
    e.endpoint.uid = e'.endpoint.uid → i = j
  handles : ∀ p pr t h, s.procs p = some pr → pr.ipcHandles = some t → (t h).allocated = true →
    Named s (t h).targetPid (t h).targetEndpointId (t h).minted
  services : ∀ sv ∈ s.services, sv.name ≠ [] → Named s sv.ownerPid sv.endpointId sv.uid
  queued : ∀ i e, get s.registry i = some e →
    ∀ m ∈ toList ipcMaxQueueDepth e.endpoint.queue, (e.endpoint.uid, m) ∈ s.sent

/-- A change under which registered objects keep their slots and names until their owner
goes, and no object appears. -/
structure Keeps (s s' : State) : Prop where
  pid : s.nextPid ≤ s'.nextPid
  uid : s'.nextUid = s.nextUid
  running : ∀ q < s.nextPid, Running s' q → Running s q
  forth : ∀ i e, get s.registry i = some e → Running s' e.ownerPid →
    ∃ e', get s'.registry i = some e' ∧ e'.ownerPid = e.ownerPid ∧
      e'.endpointId = e.endpointId ∧ e'.endpoint.uid = e.endpoint.uid
  back : ∀ i e', get s'.registry i = some e' → ∃ e, get s.registry i = some e ∧
    e'.ownerPid = e.ownerPid ∧ e'.endpointId = e.endpointId ∧ e'.endpoint.uid = e.endpoint.uid

section Steps

variable {ok : State → Pid → ℕ → Prop} {s s' : State} {p q : Pid} {pr : Proc} {t : HandleTable}
  {k u : ℕ}

theorem Named.keeps (h : Named s q k u) (hk : Keeps s s') : Named s' q k u := by
  refine ⟨lt_of_lt_of_le h.1 hk.pid, fun hrun => ?_⟩
  obtain ⟨i, e, hget, rfl, rfl, rfl⟩ := h.2 (hk.running q h.1 hrun)
  obtain ⟨e', hget', ho, hid, hu⟩ := hk.forth i e hget hrun
  exact ⟨i, e', hget', ho, hid, hu⟩

theorem Fidelity.keeps (h : Fidelity s) (hk : Keeps s s')
    (hh : ∀ p pr t h, s'.procs p = some pr → pr.ipcHandles = some t → (t h).allocated = true →
      Named s (t h).targetPid (t h).targetEndpointId (t h).minted)
    (hsv : ∀ sv ∈ s'.services, sv.name ≠ [] → Named s sv.ownerPid sv.endpointId sv.uid)
    (hq : ∀ i e, get s'.registry i = some e →
      ∀ m ∈ toList ipcMaxQueueDepth e.endpoint.queue, (e.endpoint.uid, m) ∈ s'.sent) :
    Fidelity s' := by
  refine ⟨?_, ?_, ?_, fun p pr t k hp ht ha => (hh p pr t k hp ht ha).keeps hk,
    fun sv hs hn => (hsv sv hs hn).keeps hk, hq⟩
  · intro i j e e' hi hj ho hid
    obtain ⟨e₁, hi₁, ho₁, hid₁, -⟩ := hk.back i e hi
    obtain ⟨e₂, hj₂, ho₂, hid₂, -⟩ := hk.back j e' hj
    exact h.unique i j e₁ e₂ hi₁ hj₂ (ho₁ ▸ ho₂ ▸ ho) (hid₁ ▸ hid₂ ▸ hid)
  · intro i e hi
    obtain ⟨e₁, hi₁, -, -, hu₁⟩ := hk.back i e hi
    rw [hk.uid, hu₁]
    exact h.uid_lt i e₁ hi₁
  · intro i j e e' hi hj hu
    obtain ⟨e₁, hi₁, -, -, hu₁⟩ := hk.back i e hi
    obtain ⟨e₂, hj₂, -, -, hu₂⟩ := hk.back j e' hj
    exact h.uid_inj i j e₁ e₂ hi₁ hj₂ (hu₁ ▸ hu₂ ▸ hu)

theorem keeps_setHandles (hp : s.procs p = some pr) : Keeps s (s.setHandles p t) :=
  ⟨le_rfl, rfl, fun _ _ => (running_setHandles hp).mp,
    fun _ e hget _ => ⟨e, hget, rfl, rfl, rfl⟩, fun _ e hget => ⟨e, hget, rfl, rfl, rfl⟩⟩

theorem Fidelity.setHandles (h : Fidelity s) (hp : s.procs p = some pr)
    (ht : ∀ k, (t k).allocated = true →
      Named s (t k).targetPid (t k).targetEndpointId (t k).minted) :
    Fidelity (s.setHandles p t) := by
  refine h.keeps (keeps_setHandles hp) ?_ h.services h.queued
  intro q pq tq k hq htq ha
  rw [setHandles_procs hp] at hq
  split at hq
  · cases hq
    cases htq
    exact ht k ha
  · exact h.handles q pq tq k hq htq ha

theorem Fidelity.mint (h : Fidelity s) (hp : s.procs p = some pr) (ht : pr.ipcHandles = some t)
    {e : HandleEntry} (he : e.allocated = true → Named s e.targetPid e.targetEndpointId e.minted) :
    Fidelity (s.setHandles p (Function.update t k e)) := by
  apply h.setHandles hp
  intro k'
  by_cases hk : k' = k
  · subst hk
    rw [Function.update_self]
    exact he
  · rw [Function.update_of_ne hk]
    exact h.handles p pr t k' hp ht

theorem keeps_setEndpoint {i : ℕ} {e : RegistryEntry} {ep : Endpoint} {svcs : List SvcEntry}
    {snt : List (ℕ × Message)} (hget : get s.registry i = some e) (hu : ep.uid = e.endpoint.uid) :
    Keeps s { s with registry := setEndpoint s.registry i ep, services := svcs, sent := snt } := by
  refine ⟨le_rfl, rfl, fun _ _ => id, ?_, ?_⟩
  · intro j e' hj _
    show ∃ e'', get (Ipc.setEndpoint s.registry i ep) j = some e'' ∧ _
    rw [get_setEndpoint]
    by_cases hij : i = j
    · subst hij
      rw [hget] at hj
      cases hj
      exact ⟨{ e with endpoint := ep }, by rw [if_pos rfl, hget]; rfl, rfl, rfl, hu⟩
    · exact ⟨e', by rw [if_neg hij, hj], rfl, rfl, rfl⟩
  · intro j e' hj
    have hj' : get (Ipc.setEndpoint s.registry i ep) j = some e' := hj
    rw [get_setEndpoint] at hj'
    split at hj'
    · rename_i hij
      subst hij
      rw [hget] at hj'
      cases hj'
      exact ⟨e, hget, rfl, rfl, hu⟩
    · exact ⟨e', hj', rfl, rfl, rfl⟩

theorem Fidelity.setEndpoint (h : Fidelity s) {i : ℕ} {e : RegistryEntry} {ep : Endpoint}
    {svcs : List SvcEntry} {snt : List (ℕ × Message)} (hget : get s.registry i = some e)
    (hu : ep.uid = e.endpoint.uid) (hsv : ∀ sv ∈ svcs, sv.name ≠ [] → sv ∈ s.services)
    (hsent : ∀ x ∈ s.sent, x ∈ snt)
    (hq : ∀ m ∈ toList ipcMaxQueueDepth ep.queue, (ep.uid, m) ∈ snt) :
    Fidelity { s with registry := setEndpoint s.registry i ep, services := svcs, sent := snt } := by
  refine h.keeps (keeps_setEndpoint hget hu) h.handles ?_ ?_
  · intro sv hs hn
    exact h.services sv (hsv sv hs hn) hn
  · intro j e' hj m hm
    have hj' : get (Ipc.setEndpoint s.registry i ep) j = some e' := hj
    rw [get_setEndpoint] at hj'
    split at hj'
    · rename_i hij
      subst hij
      rw [hget] at hj'
      cases hj'
      exact hq m hm
    · exact hsent _ (h.queued j e' hj' m hm)

theorem keeps_unregister {c : Pid} {svcs : List SvcEntry} {procs : Pid → Option Proc}
    (hsame : ∀ q, q ≠ c → procs q = s.procs q)
    (hgone : ∀ pr, procs c = some pr → pr.zombie = true) :
    Keeps s { s with
      procs := procs
      registry := ipcEndpointUnregisterByOwner s.registry c
      services := svcs } := by
  have hne : ∀ q, Running { s with
      procs := procs
      registry := ipcEndpointUnregisterByOwner s.registry c
      services := svcs } q → q ≠ c := by
    rintro q ⟨pr, hpr, hz⟩ rfl
    rw [hgone pr hpr] at hz
    cases hz
  refine ⟨le_rfl, rfl, ?_, ?_, ?_⟩
  · intro q _ hrun
    have hqc := hne q hrun
    obtain ⟨pr, hpr, hz⟩ := hrun
    exact ⟨pr, (hsame q hqc).symm.trans hpr, hz⟩
  · intro i e hget hrun
    refine ⟨e, ?_, rfl, rfl, rfl⟩
    show get (ipcEndpointUnregisterByOwner s.registry c) i = some e
    rw [get_unregister, hget]
    simp [hne _ hrun]
  · intro i e hget
    have hget' : get (ipcEndpointUnregisterByOwner s.registry c) i = some e := hget
    rw [get_unregister, Option.filter_eq_some_iff] at hget'
    exact ⟨e, hget'.1, rfl, rfl, rfl⟩

theorem svcCleanupOwner_sub {svcs : List SvcEntry} {c : Pid} :
    ∀ sv ∈ svcCleanupOwner svcs c, sv.name ≠ [] → sv ∈ svcs := by
  intro sv hsv hname
  obtain ⟨sv', hsv', rfl⟩ := List.mem_map.mp hsv
  split at hname
  · exact absurd rfl hname
  · rename_i hc
    rw [if_neg hc]
    exact hsv'

theorem Fidelity.unregister (h : Fidelity s) {c : Pid} {procs : Pid → Option Proc}
    (hsame : ∀ q, q ≠ c → procs q = s.procs q)
    (hgone : ∀ pr, procs c = some pr → pr.zombie = true)
    (hold : ∀ pr, procs c = some pr → ∃ pr', s.procs c = some pr' ∧ pr.ipcHandles = pr'.ipcHandles) :
    Fidelity { s with
      procs := procs
      registry := ipcEndpointUnregisterByOwner s.registry c
      services := svcCleanupOwner s.services c } := by
  refine h.keeps (keeps_unregister hsame hgone) ?_ ?_ ?_
  · intro q pq tq k hq htq ha
    by_cases hqc : q = c
    · subst hqc
      obtain ⟨pr', hpr', hh⟩ := hold pq hq
      exact h.handles q pr' tq k hpr' (hh ▸ htq) ha
    · exact h.handles q pq tq k ((hsame q hqc).symm.trans hq) htq ha
  · intro sv hsv hname
    exact h.services sv (svcCleanupOwner_sub sv hsv hname) hname
  · intro i e hget
    have hget' : get (ipcEndpointUnregisterByOwner s.registry c) i = some e := hget
    rw [get_unregister, Option.filter_eq_some_iff] at hget'
    exact h.queued i e hget'.1

theorem Fidelity.addProc (h : Fidelity s) {handles : Option HandleTable}
    (hh : handles = none ∨ ∃ p pr, s.procs p = some pr ∧ pr.ipcHandles = handles) :
    Fidelity (s.addProc handles) := by
  have hsame : ∀ q, q ≠ s.nextPid → (s.addProc handles).procs q = s.procs q :=
    fun q hq => Function.update_of_ne hq _ _
  have hkeeps : Keeps s (s.addProc handles) := by
    refine ⟨le_of_lt (lt_add_one _), rfl, ?_, fun _ e hget _ => ⟨e, hget, rfl, rfl, rfl⟩,
      fun _ e hget => ⟨e, hget, rfl, rfl, rfl⟩⟩
    rintro q hq ⟨pr, hpr, hz⟩
    exact ⟨pr, (hsame q hq.ne).symm.trans hpr, hz⟩
  refine h.keeps hkeeps ?_ h.services h.queued
  intro q pq tq k hq htq ha
  by_cases hqn : q = s.nextPid
  · rw [hqn] at hq
    have hnew : (s.addProc handles).procs s.nextPid = some ⟨false, handles⟩ :=
      Function.update_self ..
    rw [hnew] at hq
    cases hq
    rcases hh with rfl | ⟨p, pr, hp, hpr⟩
    · cases htq
    · exact h.handles p pr tq k hp (hpr.trans htq) ha
  · exact h.handles q pq tq k ((hsame q hqn).symm.trans hq) htq ha

theorem Sourced.named (h : Fidelity s) (hi : Inv s) {e : HandleEntry} (hs : Sourced s e) :
    Named s e.targetPid e.targetEndpointId e.minted := by
  rcases hs with ⟨i, ep, hfind, hu⟩ | ⟨sv, hsv, hname, hp, hid, hu⟩
  · obtain ⟨⟨re, hget, rfl, ho, hid⟩, -⟩ := endpointOf_eq_some_iff.mp hfind
    obtain ⟨pr, hpr, -⟩ := hi.owner i re hget
    exact ⟨ho ▸ hi.pids _ pr hpr, fun _ => ⟨i, re, hget, ho, hid, hu.symm⟩⟩
  · rw [hp, hid, hu]
    exact h.services sv hsv hname

theorem Fidelity.create (h : Fidelity s) (hi : Inv s) (hp : s.procs p = some pr)
    (ht : pr.ipcHandles = some t) {reg : Table RegistryEntry}
    (hr : ipcEndpointRegister s.registry ⟨p, k, false, empty emptyMessage, s.nextUid⟩ p k =
      some reg) (hclear : endpointOf s.registry p k = none) :
    Fidelity { s.setHandles p (Function.update t k ⟨p, k, true, s.nextUid⟩) with
      registry := reg, nextUid := s.nextUid + 1 } := by
  have hslot : get reg (slot s.registry) =
      some ⟨⟨p, k, false, empty emptyMessage, s.nextUid⟩, p, k⟩ := by
    rw [get_put hr, if_pos rfl]
  have hold : ∀ i e, get s.registry i = some e → get reg i = some e := by
    intro i e hget
    rw [get_put hr, if_neg, hget]
    rintro rfl
    rw [get_slot] at hget
    cases hget
  have hcases : ∀ i e, get reg i = some e →
      (i = slot s.registry ∧ e = ⟨⟨p, k, false, empty emptyMessage, s.nextUid⟩, p, k⟩) ∨
        get s.registry i = some e := by
    intro i e hget
    rw [get_put hr] at hget
    split at hget
    · cases hget
      exact Or.inl ⟨‹_›, rfl⟩
    · exact Or.inr hget
  have hnew : ∀ i e, get s.registry i = some e → ¬ (e.ownerPid = p ∧ e.endpointId = k) :=
    endpointOf_eq_none_iff.mp hclear
  -- names in use keep their object, since the new name was not in use
  have hnamed : ∀ q k' u, Named s q k' u →
      Named { s.setHandles p (Function.update t k ⟨p, k, true, s.nextUid⟩) with
        registry := reg, nextUid := s.nextUid + 1 } q k' u := by
    rintro q k' u ⟨hq, hreg⟩
    refine ⟨hq, fun hrun => ?_⟩
    obtain ⟨i, e, hget, hrest⟩ := hreg ((running_setHandles hp).mp hrun)
    exact ⟨i, e, hold i e hget, hrest⟩
  refine ⟨?_, ?_, ?_, ?_, ?_, ?_⟩
  · intro i j e e' hi' hj' ho hid
    rcases hcases i e hi' with ⟨rfl, rfl⟩ | hi' <;> rcases hcases j e' hj' with ⟨rfl, rfl⟩ | hj'
    · rfl
    · exact absurd ⟨ho.symm, hid.symm⟩ (hnew j e' hj')
    · exact absurd ⟨ho, hid⟩ (hnew i e hi')
    · exact h.unique i j e e' hi' hj' ho hid
  · intro i e hi'
    rcases hcases i e hi' with ⟨-, rfl⟩ | hi'
    · exact Nat.lt_succ_self _
    · exact Nat.lt_succ_of_lt (h.uid_lt i e hi')
  · intro i j e e' hi' hj' hu
    rcases hcases i e hi' with ⟨rfl, rfl⟩ | hi' <;> rcases hcases j e' hj' with ⟨rfl, rfl⟩ | hj'
    · rfl
    · exact absurd hu.symm (h.uid_lt j e' hj').ne
    · exact absurd hu (h.uid_lt i e hi').ne
    · exact h.uid_inj i j e e' hi' hj' hu
  · intro q pq tq k' hq htq ha
    have hq' : (s.setHandles p (Function.update t k ⟨p, k, true, s.nextUid⟩)).procs q = some pq := hq
    rw [setHandles_procs hp] at hq'
    split at hq'
    · cases hq'
      cases htq
      by_cases hk : k' = k
      · subst hk
        rw [Function.update_self]
        exact ⟨hi.pids p pr hp, fun _ => ⟨_, _, hslot, rfl, rfl, rfl⟩⟩
      · rw [Function.update_of_ne hk] at ha ⊢
        exact hnamed _ _ _ (h.handles p pr t k' hp ht ha)
    · exact hnamed _ _ _ (h.handles q pq tq k' hq' htq ha)
  · intro sv hsv hname
    exact hnamed _ _ _ (h.services sv hsv hname)
  · intro i e hi' m hm
    rcases hcases i e hi' with ⟨-, rfl⟩ | hi'
    · cases hm
    · exact h.queued i e hi' m hm

theorem effect_fidelity (hi : Inv s) (h : Fidelity s)
    (he : Effect (fun s p k => endpointOf s.registry p k = none) s s') : Fidelity s' := by
  cases he with
  | table hp hn =>
    apply h.setHandles hp
    intro k ha
    cases ha
  | create hp hz ht hf hr hok => exact h.create hi hp ht hr hok
  | mint hp ht hf ha hs => exact h.mint hp ht fun _ => hs.named h hi
  | send msg hget hroom hopen =>
    apply h.setEndpoint hget
    · rfl
    · exact fun _ hs _ => hs
    · exact fun x hx => List.mem_cons_of_mem _ hx
    · intro m hm
      rw [toList_push (hi.ring _ _ hget) hroom, List.mem_append] at hm
      rcases hm with hm | hm
      · exact List.mem_cons_of_mem _ (h.queued _ _ hget m hm)
      · rw [List.mem_singleton.mp hm]
        exact List.mem_cons_self
  | recv hget hne =>
    apply h.setEndpoint hget
    · rfl
    · exact fun _ hs _ => hs
    · exact fun x hx => hx
    · intro m hm
      apply h.queued _ _ hget m
      rw [toList_pop (hi.ring _ _ hget) (Nat.pos_of_ne_zero hne)]
      exact List.mem_cons_of_mem _ hm
  | @closeOwn p pr t k i ep svcs hp ht hfind hsv =>
    obtain ⟨⟨e, hget, rfl, -⟩, -⟩ := endpointOf_eq_some_iff.mp hfind
    have hset : Fidelity { s with
        registry := Ipc.setEndpoint s.registry i { e.endpoint with closed := true }
        services := svcs } := by
      apply h.setEndpoint hget
      · rfl
      · exact hsv
      · exact fun x hx => hx
      · exact h.queued i e hget
    exact hset.mint hp ht fun ha => by cases ha
  | closeOther hp ht _ => exact h.mint hp ht fun ha => by cases ha
  | services hsv =>
    refine ⟨h.unique, h.uid_lt, h.uid_inj, h.handles, ?_, h.queued⟩
    intro sv hs hname
    rcases hsv sv hs hname with hold | ⟨i, ep, hfind, hu⟩
    · exact h.services sv hold hname
    · have hsrc : Sourced s ⟨sv.ownerPid, sv.endpointId, true, sv.uid⟩ := Or.inl ⟨i, ep, hfind, hu⟩
      exact hsrc.named h hi
  | addProc hh => exact h.addProc hh
  | destroy c =>
    apply h.unregister
    · intro q hq
      exact Function.update_of_ne hq _ _
    · intro pr hpr
      rw [Function.update_self] at hpr
      cases hpr
    · intro pr hpr
      rw [Function.update_self] at hpr
      cases hpr
  | exit p =>
    apply h.unregister
    · intro q hq
      exact Function.update_of_ne hq _ _
    · intro pr hpr
      rw [Function.update_self] at hpr
      obtain ⟨pr', -, rfl⟩ := Option.map_eq_some_iff.mp hpr
      rfl
    · intro pr hpr
      rw [Function.update_self] at hpr
      obtain ⟨pr', hpr', rfl⟩ := Option.map_eq_some_iff.mp hpr
      exact ⟨pr', hpr', rfl⟩

theorem effects_fidelity (hi : Inv s) (h : Fidelity s)
    (he : ReflTransGen (Effect fun s p k => endpointOf s.registry p k = none) s s') :
    Inv s' ∧ Fidelity s' := by
  induction he with
  | refl => exact ⟨hi, h⟩
  | tail _ hstep ih => exact ⟨effect_inv ih.1 hstep, effect_fidelity ih.1 ih.2 hstep⟩

theorem step_fidelity {a : Op} (hi : Inv s) (h : Fidelity s) (hl : Legal s a) (ht : Tame s a)
    (hs : step s a = some s') : Inv s' ∧ Fidelity s' := by
  refine effects_fidelity hi h (step_effects hl ?_ hs)
  rintro p heap heap' rfl s₁ t k htab hf
  obtain ⟨hs₁, pr, hp, hlazy, -⟩ := table_spec htab
  rw [hs₁]
  apply ht k
  unfold nextHandle
  rw [hp]
  show freeHandle (pr.ipcHandles.getD ipcHandleTableCreate) = some k
  rw [← lazyTable_eq hlazy, hf]

theorem Fidelity.resolves (h : Fidelity s) (hi : Inv s) (hp : s.procs p = some pr)
    (ht : pr.ipcHandles = some t) (ha : (t k).allocated = true) {i : ℕ} {ep : Endpoint}
    (hfind : endpointOf s.registry (t k).targetPid (t k).targetEndpointId = some (i, ep)) :
    ep.uid = (t k).minted := by
  obtain ⟨⟨e, hget, rfl, ho, hid⟩, -⟩ := endpointOf_eq_some_iff.mp hfind
  have hrun : Running s (t k).targetPid := ho ▸ hi.owner i e hget
  obtain ⟨i', e', hget', ho', hid', hu⟩ := (h.handles p pr t k hp ht ha).2 hrun
  have hii := h.unique i i' e e' hget hget' (ho.trans ho'.symm) (hid.trans hid'.symm)
  subst hii
  rw [hget] at hget'
  cases hget'
  exact hu

theorem untouched_setEndpoint {i : ℕ} {e : RegistryEntry} {ep : Endpoint} {s' : State}
    (hget : get s.registry i = some e) (hu : e.endpoint.uid = u)
    (hs' : s'.registry = setEndpoint s.registry i ep) : Untouched s s' u := by
  intro j e' hj hne
  rw [hs', get_setEndpoint, if_neg, hj]
  rintro rfl
  rw [hget] at hj
  cases hj
  exact hne hu

theorem send_faithful (hi : Inv s) (h : Fidelity s) {heap : Bool} {hd : ℤ} {tag : UInt32}
    {data : UserData} (ht : Tame s (.send p heap hd tag data)) :
    Faithful s (.send p heap hd tag data) := by
  intro u hh
  have htame := ht u hh
  obtain ⟨pr, t, hp, ht, h0, h64, ha, rfl⟩ := hh
  unfold sysIpcSend
  rw [table_of_handles hp ht]
  dsimp only
  rw [if_neg (by omega)]
  split
  · rename_i hlen
    exact ⟨fun i e hget _ => hget, fun hdead => absurd (htame hdead).1 (by omega)⟩
  rw [ha]
  simp only [Bool.not_true, Bool.false_eq_true, if_false]
  split
  · exact ⟨fun i e hget _ => hget, fun _ => rfl⟩
  · rename_i i ep hfind
    have hu := h.resolves hi hp ht ha hfind
    obtain ⟨⟨e, hget, rfl, -⟩, -⟩ := endpointOf_eq_some_iff.mp hfind
    split
    · rename_i hbad
      refine ⟨fun i e hget _ => hget, fun hdead => ?_⟩
      rcases (htame hdead).2.1 with hnil | hvalid
      · exact absurd hnil hbad.1
      · simp [hvalid] at hbad
    · unfold State.enqueue
      split
      · rename_i err henq
        refine ⟨fun i e hget _ => hget, fun hdead => ?_⟩
        have hroom := (htame hdead).2.2 i e hget hu
        unfold ipcQueueEnqueue at henq
        rw [if_neg (by omega), if_pos (hdead i e hget hu)] at henq
        cases henq
        rfl
      · rename_i ep' henq
        refine ⟨untouched_setEndpoint hget hu rfl, fun hdead => ?_⟩
        have hopen := (enqueue_ok henq).2.1
        rw [hdead i e hget hu] at hopen
        cases hopen

theorem deliver_taken {msg : Message} {tagOut dataOut : Option Bool} {maxLen : ℕ} :
    (deliver msg tagOut dataOut maxLen).taken = some msg := by
  unfold deliver
  dsimp only
  split_ifs <;> rfl

theorem recv_faithful (hi : Inv s) (h : Fidelity s) {heap : Bool} {hd : ℤ}
    {tagOut dataOut : Option Bool} {maxLen : ℕ} :
    Faithful s (.recv p heap hd tagOut dataOut maxLen) := by
  rintro u ⟨pr, t, hp, ht, h0, h64, ha, rfl⟩
  unfold sysIpcRecv
  rw [table_of_handles hp ht]
  dsimp only
  rw [if_neg (by omega), ha]
  simp only [Bool.not_true, Bool.false_eq_true, if_false]
  split
  · exact ⟨fun i e hget _ => hget, fun m hm => by cases hm⟩
  · rename_i i ep hfind
    have hu := h.resolves hi hp ht ha hfind
    obtain ⟨⟨e, hget, rfl, -⟩, -⟩ := endpointOf_eq_some_iff.mp hfind
    split
    · exact ⟨fun i e hget _ => hget, fun m hm => by cases hm⟩
    · rename_i msg ep' hdeq
      refine ⟨untouched_setEndpoint hget hu rfl, fun m hm => ?_⟩
      obtain ⟨hne, hmsg, -⟩ := dequeue_some hdeq
      rw [deliver_taken] at hm
      cases hm
      rw [← hu]
      apply h.queued i e hget
      rw [toList_pop (hi.ring i e hget) (Nat.pos_of_ne_zero hne), hmsg]
      exact List.mem_cons_self

theorem init_fidelity : Fidelity initState := by
  refine ⟨?_, ?_, ?_, ?_, ?_, ?_⟩
  · intro i j e e' hi
    cases hi
  · intro i e hi
    cases hi
  · intro i j e e' hi
    cases hi
  · intro p pr t k hp ht
    by_cases h0 : p = 0
    · subst h0
      cases hp
      cases ht
    · simp [initState, h0] at hp
  · intro sv hsv
    cases hsv
  · intro i e hi
    cases hi

end Steps

/-- Along every run whose calls are tame, every tame call is faithful to the object its
handle was minted for. -/
theorem faithful_of_tame {s : State} (h : Reach step (fun s a => Legal s a ∧ Tame s a) Init s)
    (a : Op) (ha : Tame s a) : Faithful s a := by
  have hinv : Inv s ∧ Fidelity s := by
    apply h.invariant (P := fun s => Inv s ∧ Fidelity s)
    · rintro s rfl
      exact ⟨init_inv, init_fidelity⟩
    · intro s a s' hs hok hstep
      exact step_fidelity hs.1 hs.2 hok.1 hok.2 hstep
  cases a with
  | send p heap h tag data => exact send_faithful hinv.1 hinv.2 ha
  | recv p heap h tagOut dataOut maxLen => exact recv_faithful hinv.1 hinv.2
  | _ => trivial

/-- Process 2 connects to an endpoint of process 1 and sends to it, process 3 is forked from
it, and process 1 closes the endpoint. -/
def handedState : State :=
  (runIf step Legal initState [.spawn .done, .spawn .done, .create 1 true true,
    .connect 2 true 1 0, .send 2 true 0 7 ⟨[104, 105], true⟩, .fork 2 .done, .close 1 true 0]).get
    (by decide)

theorem handedState_tame : Reach step (fun s a => Legal s a ∧ Tame s a) Init handedState := by
  have h₀ : Reach step (fun s a => Legal s a ∧ Tame s a) Init initState := .init rfl
  have h₁ := h₀.step (a := Op.spawn .done) ⟨trivial, trivial⟩ rfl
  have h₂ := h₁.step (a := Op.spawn .done) ⟨trivial, trivial⟩ rfl
  have h₃ := h₂.step (a := Op.create 1 true true) ⟨by decide, fun k _ => rfl⟩ rfl
  have h₄ := h₃.step (a := Op.connect 2 true 1 0) ⟨by decide, trivial⟩ rfl
  have h₅ : Reach step (fun s a => Legal s a ∧ Tame s a) Init _ :=
    h₄.step (a := Op.send 2 true 0 7 ⟨[104, 105], true⟩) ⟨by decide, by
      -- the endpoint is still open
      rintro u ⟨pr, t, hp, ht, -, -, -, rfl⟩ hdead
      cases hp
      cases ht
      exact absurd (hdead 0 _ rfl rfl) (by decide)⟩ rfl
  have h₆ := h₅.step (a := Op.fork 2 .done) ⟨by decide, trivial⟩ rfl
  exact h₆.step (a := Op.close 1 true 0) ⟨by decide, trivial⟩ rfl

theorem handed_faithful : Holds handedState 2 0 0 ∧ Holds handedState 3 0 0 ∧
    Dead handedState 0 ∧ (sysIpcSend handedState 2 true 0 9 ⟨[33], true⟩).2 = veBadf ∧
    (sysIpcRecv handedState 3 true 0 none none 496).2.taken = some ⟨2, 7, [104, 105]⟩ ∧
    (0, ⟨2, 7, [104, 105]⟩) ∈ handedState.sent := by
  have h₂ : Holds handedState 2 0 0 := ⟨_, _, rfl, rfl, by decide, by decide, rfl, rfl⟩
  have h₃ : Holds handedState 3 0 0 := ⟨_, _, rfl, rfl, by decide, by decide, rfl, rfl⟩
  have hone : ∀ i e, get handedState.registry i = some e → i = 0 := by
    intro i e hi
    by_contra hne
    rw [SlotTable.get, List.getElem?_eq_none] at hi
    · cases hi
    · exact (Nat.pos_of_ne_zero hne)
  have hdead : Dead handedState 0 := by
    intro i e hi _
    obtain rfl := hone i e hi
    cases hi
    rfl
  have htame : Tame handedState (.send 2 true 0 9 ⟨[33], true⟩) := by
    intro u _ _
    refine ⟨by decide, .inr rfl, fun i e hi _ => ?_⟩
    obtain rfl := hone i e hi
    cases hi
    decide
  have htake : (sysIpcRecv handedState 3 true 0 none none 496).2.taken =
      some ⟨2, 7, [104, 105]⟩ := by decide
  have hsend := faithful_of_tame handedState_tame _ htame
  have hrecv := faithful_of_tame handedState_tame (.recv 3 true 0 none none 496) trivial
  exact ⟨h₂, h₃, hdead, (hsend 0 h₂).2 hdead, htake, (hrecv 0 h₃).2 _ htake⟩

/-- Process 2 connects to an endpoint of process 1, which closes it and creates another;
process 3 has meanwhile left an earlier slot of the registry free. -/
def aliasState : State :=
  (runIf step Legal initState [.spawn .done, .spawn .done, .spawn .done, .create 3 true true,
    .create 1 true true, .connect 2 true 1 0, .exit 3, .close 1 true 0, .create 1 true true]).get
    (by decide)

/-- What process 2 sends to the closed endpoint arrives in the new one. -/
theorem alias_send_unfaithful : Reach step Legal Init aliasState ∧ Holds aliasState 2 0 1 ∧
    ¬ Faithful aliasState (.send 2 true 0 7 ⟨[], true⟩) := by
  have hholds : Holds aliasState 2 0 1 :=
    ⟨_, _, rfl, rfl, by decide, by decide, by decide, by decide⟩
  refine ⟨reach_initState.runIf (Option.some_get (by decide)).symm, hholds, fun hf => ?_⟩
  obtain ⟨e, he⟩ : ∃ e, get aliasState.registry 0 = some e := Option.isSome_iff_exists.mp (by decide)
  have huid : (get aliasState.registry 0).map (fun e => e.endpoint.uid) = some 2 := by decide
  have hcount : (get aliasState.registry 0).map (fun e => e.endpoint.queue.count) = some 0 := by
    decide
  have hcount' : (get (sysIpcSend aliasState 2 true 0 7 ⟨[], true⟩).1.registry 0).map
      (fun e => e.endpoint.queue.count) = some 1 := by
    decide
  rw [he] at huid hcount
  have hne : e.endpoint.uid ≠ 1 := by
    intro h1
    rw [Option.map_some, h1] at huid
    cases huid
  rw [(hf 1 hholds).1 0 e he hne, hcount] at hcount'
  cases hcount'

end VoidOS.Ipc
