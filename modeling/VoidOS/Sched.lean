import VoidOS.Ring
import VoidOS.Transition

namespace VoidOS.Sched

open Ring

def maxThreads : ℕ := 64

inductive ThreadState
  | ready
  | running
  | blocked
  | exited
deriving DecidableEq, Repr

inductive Reg
  | r15 | r14 | r13 | r12 | r11 | r10 | r9 | r8 | rbp | rdi | rsi | rdx | rcx | rbx | rax
  | vector | errorCode | rip | cs | rflags | rsp | ss
deriving DecidableEq, Repr

abbrev Frame := Reg → ℕ

def emptyFrame : Frame := fun _ => 0

/-- `thread_t`. `frame` is what the saved stack pointer leads to, `proc` the slot of the
owning process. -/
structure Thread where
  frame : Frame
  cr3 : ℕ
  state : ThreadState
  proc : Option ℕ
  next : Option ℕ

structure Scheduler where
  threads : ℕ → Thread
  nextTid : ℕ
  current : ℕ
  idleThread : ℕ
  active : Bool

namespace Scheduler

def next (s : Scheduler) (t : ℕ) : Option ℕ := (s.threads t).next

def state (s : Scheduler) (t : ℕ) : ThreadState := (s.threads t).state

def ready (s : Scheduler) (t : ℕ) : Bool := s.state t = .ready

def setThread (s : Scheduler) (t : ℕ) (th : Thread) : Scheduler :=
  { s with threads := Function.update s.threads t th }

def setState (s : Scheduler) (t : ℕ) (st : ThreadState) : Scheduler :=
  s.setThread t { s.threads t with state := st }

/-- The insertion into the circular queue after the current thread. -/
def insert (s : Scheduler) (t : ℕ) : Scheduler :=
  let s := s.setThread t { s.threads t with next := s.next s.current }
  s.setThread s.current { s.threads s.current with next := some t }

end Scheduler

/-- `sched_create_kthread`; `stack` says whether `alloc_kstack` succeeds. A failure has used
up the thread number and leaves its table entry ready, outside the queue. -/
def schedCreateKthread (s : Scheduler) (kernelCr3 : ℕ) (frame : Frame) (stack : Bool) :
    Scheduler × ℕ :=
  if maxThreads ≤ s.nextTid then (s, 0)
  else
    let t := s.nextTid
    let s := { s with nextTid := t + 1 }
    let s := s.setThread t { s.threads t with cr3 := kernelCr3, state := .ready }
    if !stack then (s, 0)
    else
      let s := s.setThread t { s.threads t with frame := frame }
      (s.insert t, t)

def schedAdoptThread (s : Scheduler) (frame : Frame) (cr3 proc : ℕ) : Option (Scheduler × ℕ) :=
  if maxThreads ≤ s.nextTid then none
  else
    let t := s.nextTid
    let s := { s with nextTid := t + 1 }
    let s := s.setThread t
      { s.threads t with frame := frame, cr3 := cr3, proc := some proc, state := .ready }
    some (s.insert t, t)

def unusedThread : Thread := ⟨emptyFrame, 0, .exited, none, none⟩

/-- The table and the boot thread, as `sched_init` sets them up before it creates the idle
thread. -/
def bootThreads (kernelCr3 : ℕ) : Scheduler :=
  let t0 : Thread := ⟨emptyFrame, kernelCr3, .running, none, some 0⟩
  ⟨Function.update (fun _ => unusedThread) 0 t0, 1, 0, 0, false⟩

/-- `pick_next`. The table has `maxThreads` entries, so a walk that has not come back after
as many never will. -/
def pickNext (s : Scheduler) : Option ℕ :=
  match s.next s.current with
  | none => none
  | some start => (search s.ready s.next start maxThreads start).map (·.getD s.idleThread)

/-- What `sched_tick` does before it picks: a running thread becomes ready. -/
def Scheduler.preempted (s : Scheduler) : Scheduler :=
  if s.state s.current = .running then s.setState s.current .ready else s

/-- `sched_tick`: the scheduler, and whether another frame than the given one is returned. -/
def schedTick (s : Scheduler) : Option (Scheduler × Bool) :=
  if !s.active then some (s, false)
  else
    match pickNext s.preempted with
    | none => none
    | some next => some ({ s.preempted.setState next .running with current := next },
        next ≠ s.current)

def schedExit (s : Scheduler) : Option Scheduler :=
  (schedTick (s.setState s.current .exited)).map Prod.fst

def schedStart (s : Scheduler) : Scheduler := { s with active := true }

section Updates

variable {s : Scheduler} {t u : ℕ} {st : ThreadState} {th : Thread}

theorem threads_setThread : (s.setThread t th).threads u = if u = t then th else s.threads u := by
  simp only [Scheduler.setThread, Function.update_apply]

theorem threads_setState : (s.setState t st).threads u =
    if u = t then { s.threads t with state := st } else s.threads u :=
  threads_setThread

@[simp] theorem next_setState : (s.setState t st).next u = s.next u := by
  unfold Scheduler.next
  rw [threads_setState]
  split
  · rename_i h
    rw [h]
  · rfl

theorem state_setState : (s.setState t st).state u = if u = t then st else s.state u := by
  unfold Scheduler.state
  rw [threads_setState]
  split <;> rfl

@[simp] theorem current_setState : (s.setState t st).current = s.current := rfl
@[simp] theorem idleThread_setState : (s.setState t st).idleThread = s.idleThread := rfl
@[simp] theorem nextTid_setState : (s.setState t st).nextTid = s.nextTid := rfl
@[simp] theorem active_setState : (s.setState t st).active = s.active := rfl

end Updates

/-- What holds of the queue `l` between two calls. -/
structure Scheduler.Ok (s : Scheduler) (l : List ℕ) : Prop where
  cycle : Cycle s.next l
  linked : ∀ t, s.next t ≠ none ↔ t ∈ l
  lt : ∀ t ∈ l, t < s.nextTid
  tids : s.nextTid ≤ maxThreads
  current_mem : s.current ∈ l
  idle_mem : s.idleThread ∈ l
  running : ∀ t ∈ l, s.state t = .running ↔ t = s.current
  idle : s.state s.idleThread = .ready ∨ s.idleThread = s.current

namespace Scheduler.Ok

variable {s s' : Scheduler} {l : List ℕ} {t : ℕ} {st : ThreadState}

theorem congr (h : s.Ok l) (hnext : s'.next = s.next) (hstate : s'.state = s.state)
    (htid : s'.nextTid = s.nextTid) (hcur : s'.current = s.current)
    (hidle : s'.idleThread = s.idleThread) : s'.Ok l := by
  refine ⟨?_, ?_, ?_, ?_, ?_, ?_, ?_, ?_⟩
  · rw [hnext]
    exact h.cycle
  · rw [hnext]
    exact h.linked
  · rw [htid]
    exact h.lt
  · rw [htid]
    exact h.tids
  · rw [hcur]
    exact h.current_mem
  · rw [hidle]
    exact h.idle_mem
  · rw [hstate, hcur]
    exact h.running
  · rw [hstate, hcur, hidle]
    exact h.idle

theorem length_le (h : s.Ok l) : l.length ≤ maxThreads := by
  have hsub : l ⊆ List.range maxThreads := by
    intro t ht
    rw [List.mem_range]
    exact lt_of_lt_of_le (h.lt t ht) h.tids
  have hle := (List.subperm_of_subset h.cycle.nodup hsub).length_le
  rwa [List.length_range] at hle

theorem current_running (h : s.Ok l) : s.state s.current = .running :=
  (h.running _ h.current_mem).mpr rfl

/-- The state the tick gives the current thread when it finds it in state `st`. -/
theorem state_preempted (s : Scheduler) (st : ThreadState) (t : ℕ) :
    (s.setState s.current st).preempted.state t =
      if t = s.current then if st = .running then .ready else st else s.state t := by
  unfold Scheduler.preempted
  rw [current_setState, state_setState, if_pos rfl]
  split
  · rw [state_setState, state_setState]
    split <;> rfl
  · rw [state_setState]

theorem preempted_same (s : Scheduler) : s.preempted.next = s.next ∧
    s.preempted.current = s.current ∧ s.preempted.idleThread = s.idleThread ∧
    s.preempted.nextTid = s.nextTid ∧ s.preempted.active = s.active := by
  unfold Scheduler.preempted
  split
  · refine ⟨funext fun t => next_setState, rfl, rfl, rfl, rfl⟩
  · exact ⟨rfl, rfl, rfl, rfl, rfl⟩

/-- The search for a ready thread ends and finds one, whatever state the current thread has
been given, unless it is the idle thread that has been stopped. -/
theorem pickNext (h : s.Ok l) (hst : st = .running ∨ s.idleThread ≠ s.current) :
    ∃ n ∈ l, Sched.pickNext (s.setState s.current st).preempted = some n ∧
      (s.setState s.current st).preempted.state n = .ready := by
  obtain ⟨hnext, hcur, hidle, -, -⟩ := preempted_same (s.setState s.current st)
  generalize hs : (s.setState s.current st).preempted = s₁ at *
  have hnext' : s₁.next = s.next := by
    rw [hnext]
    exact funext fun t => next_setState
  have hstate : ∀ t, s₁.state t =
      if t = s.current then if st = .running then .ready else st else s.state t := by
    rw [← hs]
    exact state_preempted s st
  -- the idle thread is ready, so the search cannot come back empty
  have hready : s₁.state s.idleThread = .ready := by
    rw [hstate]
    rcases eq_or_ne s.idleThread s.current with he | he
    · rw [if_pos he, if_pos (hst.resolve_right fun hn => hn he)]
    · rw [if_neg he]
      exact h.idle.resolve_right he
  obtain ⟨l₁, hc₁, hmem₁⟩ := h.cycle.rotate_mem h.current_mem
  have hstart := hc₁.next_head
  have hin : l₁.headD s.current ∈ l := by
    apply (hmem₁ _).mp
    cases l₁ with
    | nil => exact List.mem_cons_self
    | cons y l₁ => exact List.mem_cons_of_mem _ List.mem_cons_self
  obtain ⟨l₂, hc₂, hmem₂⟩ := h.cycle.rotate_mem hin
  have hlen : l₂.length < maxThreads := by
    have hle := (List.subperm_of_subset hc₂.nodup fun y hy => (hmem₂ y).mp hy).length_le
    have hmax := h.length_le
    rw [List.length_cons] at hle
    omega
  have hsearch := hc₂.search (p := s₁.ready) hlen
  have hex : ((l₁.headD s.current :: l₂).find? s₁.ready).isSome := by
    rw [List.find?_isSome]
    refine ⟨s.idleThread, (hmem₂ _).mpr h.idle_mem, ?_⟩
    simp [Scheduler.ready, hready]
  obtain ⟨n, hn⟩ := Option.isSome_iff_exists.mp hex
  refine ⟨n, (hmem₂ n).mp (List.mem_of_find?_eq_some hn), ?_, ?_⟩
  · have hcur' : s₁.current = s.current := hcur
    rw [Sched.pickNext, hcur', hnext', hstart]
    dsimp only
    rw [hsearch, hn]
    rfl
  · have hr := List.find?_some hn
    simpa [Scheduler.ready] using hr

/-- The scheduler after a tick that found the current thread in state `st` and picked `n`. -/
def ticked (s : Scheduler) (st : ThreadState) (n : ℕ) : Scheduler :=
  { (s.setState s.current st).preempted.setState n .running with current := n }

theorem state_ticked (s : Scheduler) (st : ThreadState) (n t : ℕ) : (ticked s st n).state t =
    if t = n then .running
    else if t = s.current then if st = .running then .ready else st else s.state t := by
  show ((s.setState s.current st).preempted.setState n .running).state t = _
  rw [state_setState]
  split
  · rfl
  · exact state_preempted s st t

theorem threads_ticked (s : Scheduler) (st : ThreadState) (n t : ℕ) :
    (ticked s st n).threads t = { s.threads t with state := (ticked s st n).state t } := by
  have hset : ∀ (s : Scheduler) (u : ℕ) (st : ThreadState),
      (s.setState u st).threads t = { s.threads t with state := (s.setState u st).state t } := by
    intro s u st
    unfold Scheduler.state
    rw [threads_setState]
    split
    · rename_i h
      rw [h]
    · rfl
  have hpre : (s.setState s.current st).preempted.threads t =
      { s.threads t with state := (s.setState s.current st).preempted.state t } := by
    unfold Scheduler.preempted
    split
    · rw [hset, hset]
    · exact hset _ _ _
  show ((s.setState s.current st).preempted.setState n .running).threads t = _
  rw [hset, hpre]
  rfl

theorem next_ticked (s : Scheduler) (st : ThreadState) (n : ℕ) :
    (ticked s st n).next = s.next := by
  funext t
  unfold Scheduler.next
  rw [threads_ticked]

theorem tick (h : s.Ok l) (hst : st = .running ∨ s.idleThread ≠ s.current)
    (hact : s.active = true) : ∃ n ∈ l, schedTick (s.setState s.current st) =
      some (ticked s st n, decide (n ≠ s.current)) ∧
      (if n = s.current then st = .ready ∨ st = .running else s.state n = .ready) ∧
      (ticked s st n).Ok l := by
  obtain ⟨n, hn, hpick, hready⟩ := h.pickNext hst
  obtain ⟨-, -, hidle, htid, -⟩ := preempted_same (s.setState s.current st)
  rw [state_preempted] at hready
  have hne : ∀ t ∈ l, t ≠ n → (ticked s st n).state t ≠ .running := by
    intro t ht htn
    rw [state_ticked, if_neg htn]
    split
    · split
      · exact fun hc => ThreadState.noConfusion hc
      · assumption
    · rename_i hcur
      exact fun hc => hcur ((h.running t ht).mp hc)
  refine ⟨n, hn, ?_, ?_, ?_, ?_, ?_, ?_, hn, ?_, ?_, ?_⟩
  · unfold schedTick
    rw [active_setState, hact, hpick]
    rfl
  · split
    · rename_i he
      rw [if_pos he] at hready
      split at hready
      · right
        assumption
      · exact Or.inl hready
    · rename_i he
      rwa [if_neg he] at hready
  · rw [next_ticked]
    exact h.cycle
  · rw [next_ticked]
    exact h.linked
  · intro t ht
    show t < (s.setState s.current st).preempted.nextTid
    rw [htid]
    exact h.lt t ht
  · show (s.setState s.current st).preempted.nextTid ≤ maxThreads
    rw [htid]
    exact h.tids
  · show (s.setState s.current st).preempted.idleThread ∈ l
    rw [hidle]
    exact h.idle_mem
  · intro t ht
    refine ⟨fun hr => by_contra fun htn => hne t ht htn hr, fun he => ?_⟩
    have he' : t = n := he
    rw [state_ticked, if_pos he']
  · -- the idle thread was ready when the next one was picked
    show (ticked s st n).state (s.setState s.current st).preempted.idleThread = _ ∨
      (s.setState s.current st).preempted.idleThread = n
    rw [hidle]
    show (ticked s st n).state s.idleThread = _ ∨ s.idleThread = n
    rcases eq_or_ne s.idleThread n with he | he
    · exact Or.inr he
    · left
      rw [state_ticked, if_neg he]
      rcases eq_or_ne s.idleThread s.current with hc | hc
      · rw [if_pos hc, if_pos (hst.resolve_right fun hn => hn hc)]
      · rw [if_neg hc]
        exact h.idle.resolve_right hc

theorem setState_running (h : s.Ok l) : s.setState s.current .running = s := by
  have hrun := h.current_running
  unfold Scheduler.setState Scheduler.setThread
  unfold Scheduler.state at hrun
  have hth : { s.threads s.current with state := .running } = s.threads s.current := by
    rw [← hrun]
  rw [hth, Function.update_eq_self]

theorem stopped_ticked {n : ℕ}
    (hready : if n = s.current then st = .ready ∨ st = .running else s.state n = .ready)
    {x : ThreadState} (hx : x = .exited ∨ x = .blocked) (t : ℕ) :
    (ticked s st n).state t = x ↔ if t = s.current then st = x else s.state t = x := by
  have h₁ : ThreadState.running ≠ x := by
    rcases hx with rfl | rfl <;> simp
  have h₂ : ThreadState.ready ≠ x := by
    rcases hx with rfl | rfl <;> simp
  rw [state_ticked]
  split
  · rename_i he
    rw [he]
    split at hready
    · rename_i hc
      rw [if_pos hc]
      rcases hready with rfl | rfl <;> simp [h₁, h₂]
    · rename_i hc
      rw [if_neg hc, hready]
      simp [h₁, h₂]
  · split
    · split
      · rename_i hst
        rw [hst]
        simp [h₁, h₂]
      · rfl
    · rfl

theorem tick_cases (h : s.Ok l) (hst : st = .running ∨ s.idleThread ≠ s.current) {b : Bool}
    (ht : schedTick (s.setState s.current st) = some (s', b)) :
    (s.active = false ∧ s' = s.setState s.current st ∧ b = false) ∨
    (s.active = true ∧ ∃ n ∈ l, s' = ticked s st n ∧ b = decide (n ≠ s.current) ∧
      (if n = s.current then st = .ready ∨ st = .running else s.state n = .ready) ∧ s'.Ok l) := by
  cases hact : s.active with
  | false =>
    left
    unfold schedTick at ht
    rw [active_setState, hact] at ht
    obtain ⟨rfl, rfl⟩ := Prod.mk.inj (Option.some.inj ht)
    exact ⟨rfl, rfl, rfl⟩
  | true =>
    right
    obtain ⟨n, hn, htick, hready, hok⟩ := h.tick hst hact
    rw [htick] at ht
    obtain ⟨rfl, rfl⟩ := Prod.mk.inj (Option.some.inj ht)
    exact ⟨rfl, n, hn, rfl, rfl, hready, hok⟩

theorem wake (h : s.Ok l) (hb : s.state t = .blocked) : (s.setState t .ready).Ok l := by
  have hcur : t ≠ s.current := by
    rintro rfl
    rw [h.current_running] at hb
    cases hb
  refine ⟨?_, ?_, h.lt, h.tids, h.current_mem, h.idle_mem, ?_, ?_⟩
  · rw [show (s.setState t .ready).next = s.next from funext fun _ => next_setState]
    exact h.cycle
  · rw [show (s.setState t .ready).next = s.next from funext fun _ => next_setState]
    exact h.linked
  · intro u hu
    rw [state_setState]
    split
    · rename_i he
      rw [he]
      exact ⟨fun hc => ThreadState.noConfusion hc, fun hc => absurd hc hcur⟩
    · exact h.running u hu
  · rw [idleThread_setState, current_setState, state_setState]
    split
    · exact Or.inl rfl
    · exact h.idle

/-- The table after a new thread has been put after the current one. -/
def inserted (s : Scheduler) (th : Thread) : Scheduler :=
  ({ s with nextTid := s.nextTid + 1 } : Scheduler).setThread s.nextTid th |>.insert s.nextTid

theorem threads_inserted (hcur : s.current ≠ s.nextTid) (th : Thread) (t : ℕ) :
    (inserted s th).threads t =
      if t = s.current then { s.threads s.current with next := some s.nextTid }
      else if t = s.nextTid then { th with next := s.next s.current } else s.threads t := by
  simp only [inserted, Scheduler.insert, Scheduler.setThread, Scheduler.next,
    Function.update_apply]
  split_ifs <;> simp_all

theorem current_ne (h : s.Ok l) : s.current ≠ s.nextTid := by
  have := h.lt _ h.current_mem
  omega

theorem insert (h : s.Ok l) (hlt : s.nextTid < maxThreads) (th : Thread)
    (hready : th.state = .ready) :
    ∃ l', (inserted s th).Ok l' ∧ ∀ t, t ∈ l' ↔ t = s.nextTid ∨ t ∈ l := by
  obtain ⟨l₁, hc₁, hmem₁⟩ := h.cycle.rotate_mem h.current_mem
  have hnew : s.nextTid ∉ l := fun hin => absurd (h.lt _ hin) (lt_irrefl _)
  have hnew₁ : s.nextTid ∉ s.current :: l₁ := fun hin => hnew ((hmem₁ _).mp hin)
  have hcur := h.current_ne
  have hth := threads_inserted hcur th
  have hnext' : (inserted s th).next =
      Function.update (Function.update s.next s.nextTid (s.next s.current))
        s.current (some s.nextTid) := by
    funext t
    unfold Scheduler.next
    rw [hth, Function.update_apply, Function.update_apply]
    split_ifs <;> rfl
  have hstate' : ∀ t, (inserted s th).state t =
      if t = s.nextTid then .ready else s.state t := by
    intro t
    unfold Scheduler.state
    rw [hth]
    split_ifs with h₁ h₂ h₂
    · exact absurd (h₁.symm.trans h₂) hcur
    · rw [h₁]
    · exact hready
    · rfl
  have hmem : ∀ t, t ∈ s.current :: s.nextTid :: l₁ ↔ t = s.nextTid ∨ t ∈ l := by
    intro t
    rw [← hmem₁ t]
    simp only [List.mem_cons]
    exact or_left_comm
  refine ⟨s.current :: s.nextTid :: l₁, ⟨?_, ?_, ?_, hlt, List.mem_cons_self,
    (hmem _).mpr (Or.inr h.idle_mem), ?_, ?_⟩, hmem⟩
  · rw [hnext']
    exact hc₁.insert hnew₁
  · intro t
    rw [hnext', hmem, Function.update_apply, Function.update_apply]
    split_ifs with h₁ h₂
    · simp [h₁, h.current_mem]
    · simp [h₂, (h.linked _).mpr h.current_mem]
    · rw [h.linked]
      simp [h₂]
  · intro t ht
    show t < s.nextTid + 1
    rcases (hmem t).mp ht with he | hin
    · omega
    · have := h.lt t hin
      omega
  · intro t ht
    show _ ↔ t = s.current
    rw [hstate']
    split
    · rename_i he
      rw [he]
      exact ⟨fun hc => ThreadState.noConfusion hc, fun hc => absurd hc.symm hcur⟩
    · rename_i hne
      exact h.running t (((hmem t).mp ht).resolve_left hne)
  · show (inserted s th).state s.idleThread = _ ∨ s.idleThread = s.current
    rw [hstate']
    split
    · exact Or.inl rfl
    · exact h.idle

theorem spare (h : s.Ok l) (hlt : s.nextTid < maxThreads) {th : Thread} (hnext : th.next = none) :
    (({ s with nextTid := s.nextTid + 1 } : Scheduler).setThread s.nextTid th).Ok l := by
  have hnew : s.nextTid ∉ l := fun hin => absurd (h.lt _ hin) (lt_irrefl _)
  have hold : s.next s.nextTid = none := by
    by_contra hc
    exact hnew ((h.linked _).mp hc)
  generalize hs : ({ s with nextTid := s.nextTid + 1 } : Scheduler).setThread s.nextTid th = s'
  have hth : ∀ t, s'.threads t = if t = s.nextTid then th else s.threads t := by
    intro t
    rw [← hs]
    exact threads_setThread
  have hnext' : s'.next = s.next := by
    funext t
    show (s'.threads t).next = _
    rw [hth]
    split
    · rename_i he
      rw [hnext, he, hold]
    · rfl
  have hstate' : ∀ t ∈ l, s'.state t = s.state t := by
    intro t ht
    have hne : t ≠ s.nextTid := fun he => hnew (he ▸ ht)
    unfold Scheduler.state
    rw [hth, if_neg hne]
  have hcur : s'.current = s.current := by
    rw [← hs]
    rfl
  have hidle : s'.idleThread = s.idleThread := by
    rw [← hs]
    rfl
  have htid : s'.nextTid = s.nextTid + 1 := by
    rw [← hs]
    rfl
  refine ⟨?_, ?_, ?_, ?_, ?_, ?_, ?_, ?_⟩
  · rw [hnext']
    exact h.cycle
  · rw [hnext']
    exact h.linked
  · intro t ht
    have := h.lt t ht
    omega
  · omega
  · rw [hcur]
    exact h.current_mem
  · rw [hidle]
    exact h.idle_mem
  · intro t ht
    rw [hstate' t ht, hcur]
    exact h.running t ht
  · rw [hidle, hcur, hstate' _ h.idle_mem]
    exact h.idle

theorem adopt_nextTid {f : Frame} {cr3 proc : ℕ}
    (ha : schedAdoptThread s f cr3 proc = some (s', t)) : s'.nextTid = s.nextTid + 1 := by
  unfold schedAdoptThread at ha
  split at ha
  · cases ha
  · cases ha
    rfl

theorem adopt (h : s.Ok l) {f : Frame} {cr3 proc : ℕ}
    (ha : schedAdoptThread s f cr3 proc = some (s', t)) :
    t = s.nextTid ∧ (∃ l', s'.Ok l' ∧ ∀ u, u ∈ l' ↔ u = t ∨ u ∈ l) ∧
      s'.current = s.current ∧ s'.idleThread = s.idleThread ∧
      (∀ u, (s'.threads u).proc = if u = t then some proc else (s.threads u).proc) ∧
      (∀ u, (s'.threads u).cr3 = if u = t then cr3 else (s.threads u).cr3) ∧
      ∀ u, s'.state u = if u = t then .ready else s.state u := by
  unfold schedAdoptThread at ha
  split at ha
  · cases ha
  · rename_i hlt
    obtain ⟨rfl, rfl⟩ := Prod.mk.inj (Option.some.inj ha)
    have hcur := h.current_ne
    obtain ⟨l', hok, hmem⟩ := h.insert (Nat.not_le.mp hlt) { s.threads s.nextTid with
      frame := f, cr3 := cr3, proc := some proc, state := .ready } rfl
    have hth := threads_inserted hcur { s.threads s.nextTid with
      frame := f, cr3 := cr3, proc := some proc, state := .ready }
    refine ⟨rfl, ⟨l', hok, hmem⟩, rfl, rfl, ?_, ?_, ?_⟩
    all_goals
      intro u
      have hu := hth u
      unfold inserted at hu
      first
        | rw [hu]
        | (unfold Scheduler.state; rw [hu])
      split_ifs with h₁ h₂ h₂
      · exact absurd (h₁.symm.trans h₂) hcur
      · rw [h₁]
      · rfl
      · rfl

/-- The tick goes on to the next thread of the queue if that one is ready. -/
theorem tick_next (hact : s.active = true) (hnext : s.next s.current = some t)
    (hne : t ≠ s.current) (hready : s.state t = .ready) (st : ThreadState) :
    schedTick (s.setState s.current st) = some (ticked s st t, true) := by
  obtain ⟨hpnext, hpcur, -, -, -⟩ := preempted_same (s.setState s.current st)
  have hr : (s.setState s.current st).preempted.ready t = true := by
    rw [Scheduler.ready, state_preempted, if_neg hne, hready]
    rfl
  have hpick : Sched.pickNext (s.setState s.current st).preempted = some t := by
    unfold Sched.pickNext
    rw [hpnext, hpcur, next_setState, current_setState, hnext]
    show (search _ _ t 64 t).map _ = some t
    rw [search, if_pos hr]
    rfl
  unfold schedTick
  rw [active_setState, hact, hpick]
  simp [hne, ticked]

/-- A thread that has just been adopted is the next one to run. -/
theorem adopt_next (h : s.Ok l) {f : Frame} {cr3 proc : ℕ}
    (ha : schedAdoptThread s f cr3 proc = some (s', t)) :
    s'.next s'.current = some t ∧ t ≠ s'.current ∧ s'.active = s.active := by
  obtain ⟨ht, -, hcur, -, -, -, -⟩ := h.adopt ha
  refine ⟨?_, ?_, ?_⟩
  · unfold schedAdoptThread at ha
    split at ha
    · cases ha
    · cases ha
      simp [Scheduler.next, Scheduler.insert, Scheduler.setThread]
  · rw [hcur, ht]
    exact h.current_ne.symm
  · unfold schedAdoptThread at ha
    split at ha
    · cases ha
    · cases ha
      rfl

theorem adopt_runs (h : s.Ok l) {f : Frame} {cr3 proc : ℕ}
    (ha : schedAdoptThread s f cr3 proc = some (s', t)) :
    schedTick (schedStart s') = some (ticked (schedStart s') .running t, true) := by
  obtain ⟨-, ⟨l', h', -⟩, -, -, -, -, hstate⟩ := h.adopt ha
  obtain ⟨hnext, hne, -⟩ := h.adopt_next ha
  have hready : (schedStart s').state t = .ready := (hstate t).trans (if_pos rfl)
  have hok : (schedStart s').Ok l' := h'.congr rfl rfl rfl rfl rfl
  have htick := tick_next (s := schedStart s') rfl hnext hne hready .running
  rwa [hok.setState_running] at htick

theorem kthread (h : s.Ok l) {f : Frame} {cr3 : ℕ} {stack : Bool}
    (hk : schedCreateKthread s cr3 f stack = (s', t)) :
    (∃ l', s'.Ok l' ∧ (∀ u, u ∈ l' → u = s.nextTid ∨ u ∈ l) ∧ ∀ u ∈ l, u ∈ l') ∧
      s'.current = s.current ∧ s'.idleThread = s.idleThread ∧ s'.active = s.active ∧
      s.nextTid ≤ s'.nextTid ∧
      (∀ u, (s'.threads u).proc = (s.threads u).proc) ∧
      ∀ u, u ≠ s.nextTid → (s'.threads u).cr3 = (s.threads u).cr3 ∧ s'.state u = s.state u := by
  unfold schedCreateKthread at hk
  split at hk
  · obtain ⟨rfl, -⟩ := Prod.mk.inj hk
    exact ⟨⟨l, h, fun u hu => Or.inr hu, fun u hu => hu⟩, rfl, rfl, rfl, le_rfl, fun _ => rfl,
      fun _ _ => ⟨rfl, rfl⟩⟩
  · rename_i hlt
    have hlt' := Nat.not_le.mp hlt
    have hnew : s.nextTid ∉ l := fun hin => absurd (h.lt _ hin) (lt_irrefl _)
    have hold : (s.threads s.nextTid).next = none := by
      by_contra hc
      exact hnew ((h.linked _).mp hc)
    dsimp only at hk
    cases stack with
    | false =>
      rw [if_pos (by rfl)] at hk
      obtain ⟨rfl, -⟩ := Prod.mk.inj hk
      refine ⟨⟨l, h.spare hlt' hold, fun u hu => Or.inr hu, fun u hu => hu⟩, rfl, rfl, rfl,
        Nat.le_succ _, ?_, ?_⟩
      · intro u
        rw [threads_setThread]
        split
        · rename_i he
          rw [he]
        · rfl
      · intro u hu
        unfold Scheduler.state
        rw [threads_setThread, if_neg hu]
        exact ⟨rfl, rfl⟩
    | true =>
      rw [if_neg (by simp)] at hk
      obtain ⟨rfl, -⟩ := Prod.mk.inj hk
      have hcur := h.current_ne
      obtain ⟨l', hok, hmem⟩ := h.insert hlt' { s.threads s.nextTid with
        cr3 := cr3, state := .ready, frame := f } rfl
      have hth := threads_inserted hcur { s.threads s.nextTid with
        cr3 := cr3, state := .ready, frame := f }
      have heq : (({ s with nextTid := s.nextTid + 1 } : Scheduler).setThread s.nextTid
          { s.threads s.nextTid with cr3 := cr3, state := .ready }).setThread s.nextTid
          { (({ s with nextTid := s.nextTid + 1 } : Scheduler).setThread s.nextTid
            { s.threads s.nextTid with cr3 := cr3, state := .ready }).threads s.nextTid with
            frame := f } =
          ({ s with nextTid := s.nextTid + 1 } : Scheduler).setThread s.nextTid
            { s.threads s.nextTid with cr3 := cr3, state := .ready, frame := f } := by
        simp [Scheduler.setThread]
      rw [heq]
      refine ⟨⟨l', hok, fun u hu => (hmem u).mp hu, fun u hu => (hmem u).mpr (Or.inr hu)⟩,
        rfl, rfl, rfl, Nat.le_succ _, ?_, ?_⟩
      · intro u
        have hu := hth u
        unfold inserted at hu
        rw [hu]
        split_ifs with h₁ h₂
        · rw [h₁]
        · rw [h₂]
        · rfl
      · intro u hne
        have hu := hth u
        unfold inserted at hu
        unfold Scheduler.state
        rw [hu, if_neg hne]
        split
        · rename_i h₁
          rw [h₁]
          exact ⟨rfl, rfl⟩
        · exact ⟨rfl, rfl⟩

end Scheduler.Ok

end VoidOS.Sched
