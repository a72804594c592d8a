import VoidOS.LifecycleSim

namespace VoidOS.Proc

open Relation Transition Mm Elf Sched

/-- The kernel after `sched_init`, with the idle thread created, and `process_init`. -/
def Booted (k : Kernel) : Prop :=
  ∃ (k₀ : Kernel) (idleFunc : ℕ), k₀.exits = [] ∧ k₀.reaps = [] ∧
    (k₀.schedInit idleFunc).sched.idleThread ≠ 0 ∧ k = (k₀.schedInit idleFunc).processInit

def Kernel.Used (k : Kernel) (i : ℕ) : Prop := i < maxProcesses ∧ (k.procs i).state ≠ .unused

section Boot

variable {k k' k₀ : Kernel} {i t idleFunc : ℕ} {l : List ℕ}

/-- The queue that `sched_init` leaves: the boot thread, which runs, and the idle thread. -/
structure BootQueue (sc : Scheduler) (cr3 : ℕ) : Prop where
  next : ∀ t, sc.next t = if t = 0 then some 1 else if t = 1 then some 0 else none
  state : ∀ t, sc.state t = if t = 0 then .running else if t = 1 then .ready else .exited
  proc : ∀ t, (sc.threads t).proc = none
  cr3 : (sc.threads 0).cr3 = cr3
  nextTid : sc.nextTid = 2
  current : sc.current = 0
  idleThread : sc.idleThread = 1
  active : sc.active = false

theorem schedInit_queue (h : (k₀.schedInit idleFunc).sched.idleThread ≠ 0) :
    BootQueue (k₀.schedInit idleFunc).sched (k₀.schedInit idleFunc).kernelPml4 ∧
      (k₀.schedInit idleFunc).exits = k₀.exits ∧ (k₀.schedInit idleFunc).reaps = k₀.reaps := by
  generalize hk : ({ k₀ with sched := bootThreads k₀.kernelPml4 } : Kernel) = k₁
  have hsame := allocKstack_same k₁
  have hroot : k₁.allocKstack.1.kernelPml4 = k₁.kernelPml4 := rfl
  have hs₁ : k₁.sched = bootThreads k₀.kernelPml4 := by rw [← hk]
  have htid : ¬ maxThreads ≤ (bootThreads k₀.kernelPml4).nextTid := by
    show ¬ 64 ≤ 1
    omega
  have he₁ : k₁.exits = k₀.exits ∧ k₁.reaps = k₀.reaps := by
    rw [← hk]
    exact ⟨rfl, rfl⟩
  unfold Kernel.schedInit Kernel.createKthread at h ⊢
  rw [hk] at h ⊢
  rw [if_neg (by rw [hs₁]; exact htid)] at h ⊢
  generalize k₁.allocKstack = r at hsame hroot h ⊢
  obtain ⟨k₂, top⟩ := r
  dsimp only at hsame hroot h ⊢
  rw [hsame.sched, hs₁] at h ⊢
  unfold schedCreateKthread at h ⊢
  rw [if_neg htid] at h ⊢
  cases top with
  | none => exact absurd rfl h
  | some top =>
    have hpml4 : k₀.kernelPml4 = k₂.kernelPml4 := by
      rw [hroot, ← hk]
    refine ⟨⟨?_, ?_, ?_, hpml4, rfl, rfl, rfl, rfl⟩, hsame.exits.trans he₁.1,
      hsame.reaps.trans he₁.2⟩
    all_goals
      intro t
      simp only [Option.isSome_some, Bool.not_true, Bool.false_eq_true, if_false,
        Scheduler.insert, Scheduler.next, Scheduler.state, Scheduler.setThread, bootThreads,
        Function.update_apply, unusedThread]
      by_cases h₀ : t = 0 <;> by_cases h₁ : t = 1 <;> simp [h₀, h₁]

theorem BootQueue.ok {sc : Scheduler} {cr3 : ℕ} (h : BootQueue sc cr3) : sc.Ok [0, 1] := by
  refine ⟨⟨by simp, ?_⟩, ?_, ?_, ?_, ?_, ?_, ?_, ?_⟩
  · intro _
    simp [Ring.To, h.next]
  · intro t
    rw [h.next]
    by_cases h₀ : t = 0 <;> by_cases h₁ : t = 1 <;> simp [h₀, h₁]
  · rw [h.nextTid]
    simp
  · rw [h.nextTid]
    decide
  · rw [h.current]
    simp
  · rw [h.idleThread]
    simp
  · intro t ht
    rw [h.state, h.current]
    by_cases h₀ : t = 0 <;> by_cases h₁ : t = 1 <;> simp [h₀, h₁]
  · rw [h.idleThread, h.state]
    exact Or.inl rfl

theorem state_setThread {sc : Scheduler} {th : Thread} (hst : th.state = sc.state i) (t : ℕ) :
    (sc.setThread i th).state t = sc.state t := by
  unfold Scheduler.state
  rw [threads_setThread]
  split
  · rename_i he
    rw [he]
    exact hst
  · rfl

theorem state_processInit (k : Kernel) (t : ℕ) :
    k.processInit.sched.state t = k.sched.state t := by
  unfold Kernel.processInit
  exact state_setThread (by rfl) t

theorem booted_ok (h : Booted k) : ∃ l, Sys.Ok k.sys l := by
  obtain ⟨k₀, f, he, hr, hidle, rfl⟩ := h
  obtain ⟨hq, hexits, hreaps⟩ := schedInit_queue hidle
  generalize k₀.schedInit f = k₁ at hq hexits hreaps
  have hcur := hq.current
  -- `process_init` changes the owner of the boot thread only
  have hth : ∀ t, (k₁.processInit.sched.threads t) =
      if t = 0 then { k₁.sched.threads 0 with proc := some 0 } else k₁.sched.threads t := by
    intro t
    unfold Kernel.processInit
    dsimp only
    rw [threads_setThread, hcur]
  have hproc : ∀ t, (k₁.processInit.sched.threads t).proc = if t = 0 then some 0 else none := by
    intro t
    rw [hth]
    split
    · rfl
    · exact hq.proc t
  have hnodes : ∀ j, k₁.processInit.sys.nodes j = if j = 0 then
      some ⟨0, -1, .running, 0, some 0, 0, k₁.kernelPml4⟩ else none := by
    intro j
    show (if j < maxProcesses then (k₁.processInit.procs j).node else none) = _
    unfold Kernel.processInit Process.node
    dsimp only
    by_cases h₀ : j = 0
    · rw [h₀, hcur]
      rfl
    · simp [h₀]
  have hsome : ∀ j m, k₁.processInit.sys.nodes j = some m → j = 0 ∧
      m = ⟨0, -1, .running, 0, some 0, 0, k₁.kernelPml4⟩ := by
    intro j m hm
    rw [hnodes] at hm
    split at hm
    · exact ⟨by assumption, (Option.some.inj hm).symm⟩
    · cases hm
  have hok : k₁.processInit.sched.Ok [0, 1] := by
    refine hq.ok.congr ?_ ?_ rfl rfl rfl
    · funext t
      unfold Scheduler.next
      rw [hth]
      split
      · rename_i h₀
        rw [h₀]
      · rfl
    · exact funext (state_processInit k₁)
  have hlogs : k₁.processInit.sys.exits = [] ∧ k₁.processInit.sys.reaps = [] :=
    ⟨hexits.trans he, hreaps.trans hr⟩
  refine ⟨[0, 1], hok, ⟨?_, ?_, ?_, ?_, ?_⟩, ⟨?_, ?_, ?_, ?_⟩, ⟨?_, ?_⟩, ?_, ?_⟩
  · intro j m hm
    rw [(hsome j m hm).1]
    decide
  · exact ⟨_, hnodes 0, rfl, by simp⟩
  · intro j m hm
    rw [(hsome j m hm).2]
    exact ⟨le_rfl, Int.one_pos⟩
  · intro j j' m m' hm hm' _
    rw [(hsome j m hm).1, (hsome j' m' hm').1]
  · intro j m hm hne
    rw [(hsome j m hm).2] at hne
    exact absurd rfl hne
  · intro j m hm _
    obtain ⟨rfl, rfl⟩ := hsome j m hm
    refine ⟨0, by simp, rfl, (hproc 0).trans (if_pos rfl), ?_⟩
    show (k₁.processInit.sched.threads 0).cr3 = _
    rw [hth, if_pos rfl]
    exact hq.cr3
  · intro t j hp _
    rw [show k₁.processInit.sys.sched = k₁.processInit.sched from rfl, hproc] at hp
    split at hp
    · rename_i h₀
      cases hp
      rw [h₀]
      exact ⟨_, hnodes 0, by simp, rfl⟩
    · cases hp
  · intro t ht
    rw [show k₁.processInit.sys.sched = k₁.processInit.sched from rfl, hproc, if_neg]
    rintro rfl
    simp at ht
  · rw [show k₁.processInit.sys.sched = k₁.processInit.sched from rfl, hproc, if_neg]
    rw [show k₁.processInit.sched.idleThread = k₁.sched.idleThread from rfl, hq.idleThread]
    decide
  · intro j m t hm hb
    rw [(hsome j m hm).2] at hb
    cases hb
  · intro j m hm hb
    rw [(hsome j m hm).2] at hb
    cases hb
  · rw [hlogs.1, hlogs.2]
    refine ⟨by simp, by simp, ?_, by simp, by simp, by simp, by simp⟩
    intro j m hm hz
    rw [(hsome j m hm).2] at hz
    cases hz
  · intro _
    show (k₁.processInit.sched.threads k₁.sched.current).proc = some 0
    rw [hproc, hcur]
    rfl

end Boot

section Runs

variable {k k' : Kernel} {s s' : Sys} {a : Op} {i t : ℕ} {l : List ℕ}

theorem Sys.Ok.steps (h : Sys.Ok s l) (hs : ReflTransGen Sys.Step s s') : ∃ l', Sys.Ok s' l' := by
  induction hs with
  | refl => exact ⟨l, h⟩
  | tail _ hstep ih =>
    obtain ⟨l₁, h₁⟩ := ih
    exact h₁.step hstep

theorem step_ok (h : Sys.Ok k.sys l) (hl : Legal k a) (hs : step k a = some k') :
    ∃ l', Sys.Ok k'.sys l' := h.steps (step_steps h hl hs)

theorem reach_ok (h : Reach step Legal Booted k) : ∃ l, Sys.Ok k.sys l := by
  refine h.invariant (P := fun k => ∃ l, Sys.Ok k.sys l) (fun _ => booted_ok) ?_
  rintro k a k' ⟨l, h⟩ hl hs
  exact step_ok h hl hs

theorem tick_exited {sc sc' : Scheduler} {st : ThreadState} {b : Bool} (h : sc.Ok l)
    (hst : st = .running ∨ sc.idleThread ≠ sc.current)
    (ht : schedTick (sc.setState sc.current st) = some (sc', b)) (he : sc.state t = .exited) :
    sc'.state t = .exited ∧ sc'.nextTid = sc.nextTid := by
  have hne : t ≠ sc.current := by
    rintro rfl
    rw [h.current_running] at he
    cases he
  rcases h.tick_cases hst ht with ⟨-, rfl, -⟩ | ⟨-, m, -, rfl, -, hready, -⟩
  · rw [state_setState, if_neg hne]
    exact ⟨he, rfl⟩
  · rw [Scheduler.Ok.stopped_ticked hready (Or.inl rfl), if_neg hne]
    exact ⟨he, (Sys.ticked_fields sc st m).2.2⟩

theorem Sys.Ok.exited_step (h : Sys.Ok s l) (hs : Sys.Step s s') (hlt : t < s.sched.nextTid)
    (he : s.sched.state t = .exited) :
    s'.sched.state t = .exited ∧ s.sched.nextTid ≤ s'.sched.nextTid := by
  have hne : t ≠ s.sched.current := by
    rintro rfl
    rw [h.sched.current_running] at he
    cases he
  cases hs with
  | failed hle => exact ⟨he, le_rfl⟩
  | frame f =>
    refine ⟨?_, le_rfl⟩
    show (Scheduler.setThread _ _ _).state t = _
    rw [state_setThread (by rfl)]
    exact he
  | born hc hnone hlive ha =>
    obtain ⟨rfl, ⟨l', hok, hmem⟩, -, -, -, -, hstate⟩ := h.sched.adopt ha
    refine ⟨?_, (hok.lt _ ((hmem _).mpr (Or.inl rfl))).le⟩
    show Scheduler.state _ t = _
    rw [hstate, if_neg hlt.ne]
    exact he
  | exec hi hz ht =>
    refine ⟨?_, le_rfl⟩
    show (Scheduler.setThread _ _ _).state t = _
    rw [state_setThread (by rfl)]
    exact he
  | exit hr hi hpid ht =>
    obtain ⟨w, hx⟩ := h.exited hr hi hpid _
    obtain ⟨hcur, hidle, -, htid, -⟩ := Sys.woken_same s.sched w
    rw [hx.sched, ← hcur] at ht
    have hok := h.woken hx.blocked
    have hstate := (hx.state_exited h t).mpr he
    have hne' : (Sys.woken s.sched w).idleThread ≠ (Sys.woken s.sched w).current := by
      rw [hcur, hidle]
      exact h.not_idle hr
    obtain ⟨h₁, h₂⟩ := tick_exited hok (Or.inr hne') ht hstate
    exact ⟨h₁, (h₂.trans htid).ge⟩
  | reap hi hz => exact ⟨he, le_rfl⟩
  | block hr hi haw ht =>
    obtain ⟨h₁, h₂⟩ := tick_exited h.sched (Or.inr (h.not_idle hr)) ht he
    exact ⟨h₁, h₂.ge⟩
  | unblock hr hi ht =>
    obtain ⟨h₁, h₂⟩ := tick_exited h.sched (Or.inr (h.not_idle hr)) ht he
    refine ⟨?_, h₂.ge⟩
    show (Scheduler.setState _ _ _).state t = _
    rw [state_setState, if_neg hne]
    exact h₁
  | tick ht =>
    rw [← h.sched.setState_running] at ht
    obtain ⟨h₁, h₂⟩ := tick_exited h.sched (Or.inl rfl) ht he
    exact ⟨h₁, h₂.ge⟩
  | kthread hk =>
    obtain ⟨-, -, -, -, hle, -, hsame⟩ := h.sched.kthread hk
    exact ⟨(hsame t hlt.ne).2.trans he, hle⟩
  | schedExit hact hidle ht =>
    unfold Sched.schedExit at ht
    obtain ⟨⟨sc, b⟩, htick, rfl⟩ := Option.map_eq_some_iff.mp ht
    obtain ⟨h₁, h₂⟩ := tick_exited h.sched (Or.inr hidle) htick he
    exact ⟨h₁, h₂.ge⟩
  | start => exact ⟨he, le_rfl⟩

theorem Sys.Ok.exited_steps (h : Sys.Ok s l) (hs : ReflTransGen Sys.Step s s')
    (hlt : t < s.sched.nextTid) (he : s.sched.state t = .exited) :
    s'.sched.state t = .exited ∧ t < s'.sched.nextTid := by
  induction hs with
  | refl => exact ⟨he, hlt⟩
  | tail hs hstep ih =>
    obtain ⟨l₁, h₁⟩ := h.steps hs
    obtain ⟨he', hle⟩ := h₁.exited_step hstep ih.2 ih.1
    exact ⟨he', lt_of_lt_of_le ih.2 hle⟩

theorem reaps_eq (h : ReflTransGen Sys.Spares s s') : s'.reaps = s.reaps := by
  induction h with
  | refl => rfl
  | tail _ h ih => exact h.2.trans ih

/-- What a reap takes from the table and adds to the log. -/
structure Reaps (k k' : Kernel) (i : ℕ) (parent : ℤ) : Prop where
  used : k.Used i
  zombie : (k.procs i).state = .zombie
  parent_eq : (k.procs i).ppid = parent
  parent_live : k.Live parent
  log : k'.reaps = k.reaps ++ [⟨parent, (k.procs i).pid, (k.procs i).exitStatus⟩]

theorem tryReap_reaps (h : Sys.Ok k.sys l) (parent pid : ℤ) :
    (k.processTryReap parent pid).1.reaps = k.reaps ∨
      ∃ i, Reaps k (k.processTryReap parent pid).1 i parent := by
  rcases tryReap_cases h parent pid with ⟨i, k₁, hr, hlt, hz, hpp, -, hpos, -, hk₁⟩ | ⟨hr, -⟩ | hr
  · right
    have hu : (k.procs i).state ≠ .unused := by
      rw [hz]
      simp
    refine ⟨i, ⟨hlt, hu⟩, hz, hpp, ?_, ?_⟩
    · obtain ⟨-, -, j, m, hm, hmp, hmz⟩ := h.tree.parent i _ (sys_node hlt hu) hpos.ne'
      obtain ⟨hj, hju, rfl⟩ := sys_eq_some hm
      exact ⟨j, hj, hmp.trans hpp, hju, hmz⟩
    · rw [hr, hk₁]
  · exact Or.inl (by rw [hr])
  · exact Or.inl (by rw [hr])

theorem step_reaps (h : Sys.Ok k.sys l) (hl : Legal k a) (hs : step k a = some k') :
    k'.reaps = k.reaps ∨ ∃ i parent, Reaps k k' i parent := by
  by_cases hop : a.Reaps
  swap
  · exact Or.inl (reaps_eq (step_spares h hl hop hs))
  cases a with
  | wait pid ustatus =>
    cases waited h hs with
    | @reaped i _ k₁ _ hr _ _ _ =>
      rcases tryReap_reaps h (k.procs i).pid pid with ht | ⟨c, ht⟩ <;> rw [hr] at ht
      · exact Or.inl ht
      · exact Or.inr ⟨c, (k.procs i).pid, ht.used, ht.zombie, ht.parent_eq, ht.parent_live, ht.log⟩
    | _ => exact Or.inl rfl
  | reap pid =>
    cases hs
    rcases tryReap_reaps h 0 pid with hr | ⟨i, hr⟩
    · exact Or.inl hr
    · exact Or.inr ⟨i, 0, hr⟩
  | _ => exact hop.elim

end Runs

section Results

variable {k k' : Kernel} {i t : ℕ} {l : List ℕ}

/-- Following the parents from slot `i` on leads to pid 0 past live processes only. -/
inductive Kernel.Rooted (k : Kernel) : ℕ → Prop
  | kernel {i : ℕ} : (k.procs i).pid = 0 → Rooted k i
  | child {i j : ℕ} : k.processGet (k.procs i).ppid = some j → k.Used j →
      (k.procs j).pid = (k.procs i).ppid → (k.procs j).state ≠ .zombie → Rooted k j → Rooted k i

theorem processGet_live (h : Sys.Ok k.sys l) {pid : ℤ} (hl : k.Live pid) :
    ∃ j, k.processGet pid = some j ∧ k.Used j ∧ (k.procs j).pid = pid ∧
      (k.procs j).state ≠ .zombie := by
  obtain ⟨j, hj, hp, hu, hz⟩ := hl
  have hsome : (k.processGet pid).isSome := by
    unfold Kernel.processGet
    rw [List.find?_isSome]
    exact ⟨j, List.mem_range.mpr hj, by simp [hu, hp]⟩
  obtain ⟨j', hj'⟩ := Option.isSome_iff_exists.mp hsome
  have hget := List.find?_some hj'
  have hlt := List.mem_range.mp (List.mem_of_find?_eq_some hj')
  simp only [Bool.and_eq_true, decide_eq_true_eq] at hget
  have he : j' = j := by
    apply h.tree.distinct j' j _ _ (sys_node hlt hget.1) (sys_node hj hu)
    exact hget.2.trans hp.symm
  rw [he] at hj'
  exact ⟨j, hj', ⟨hj, hu⟩, hp, hz⟩

theorem live_of_sys {pid : ℤ} (h : Sys.Live k.sys.nodes pid) : k.Live pid := by
  obtain ⟨j, m, hm, hp, hz⟩ := h
  obtain ⟨hj, hu, rfl⟩ := sys_eq_some hm
  exact ⟨j, hj, hp, hu, hz⟩

theorem rooted (h : Sys.Ok k.sys l) (hu : k.Used i) : k.Rooted i := by
  have hup : ∀ (n : ℕ) (i : ℕ), k.Used i → (k.procs i).pid.toNat ≤ n → k.Rooted i := by
    intro n
    induction n with
    | zero =>
      intro i hu hn
      have hb := (h.tree.bound i _ (sys_node hu.1 hu.2)).1
      dsimp only at hb
      exact .kernel (by omega)
    | succ n ih =>
      intro i hu hn
      by_cases hz : (k.procs i).pid = 0
      · exact .kernel hz
      · obtain ⟨h₀, hlt, hlive⟩ := h.tree.parent i _ (sys_node hu.1 hu.2) hz
        obtain ⟨j, hj, hju, hjp, hjz⟩ := processGet_live h (live_of_sys hlive)
        dsimp only at h₀ hlt hjp
        exact .child hj hju hjp hjz (ih j hju (by omega))
  exact hup _ i hu le_rfl

/-- `process_exit_current` of a process returns: the parent is woken, and another thread runs. -/
theorem exit_returns (h : Sys.Ok k.sys l) (hi : k.processCurrent = some i)
    (hpid : (k.procs i).pid ≠ 0) (status : ℤ) : ∃ m w n, k.sys.nodes i = some m ∧
      Sys.Exited k.sys i m status (k.exitProcess i status).sys w ∧
      (k.exitProcess i status).sched = Sys.woken k.sched w ∧ n ≠ k.sched.current ∧
      k.processExitCurrent status = some { (k.exitProcess i status).stop .exited with
        sched := Scheduler.Ok.ticked (Sys.woken k.sched w) .exited n } := by
  obtain ⟨hlt, hu, -, -⟩ := running_live h hi
  have hni := sys_node hlt hu
  obtain ⟨w, hx⟩ := h.exited hi hni hpid status
  rw [← sys_exitProcess hni status] at hx
  have hsched : (k.exitProcess i status).sched = Sys.woken k.sched w := hx.sched
  obtain ⟨hcur, hidle, hact, -, -⟩ := Sys.woken_same k.sched w
  have hon : (Sys.woken k.sched w).active = true := by
    rw [hact]
    by_contra hoff
    have h₀ := h.boot (Bool.eq_false_iff.mpr hoff)
    rw [show k.sys.running = k.processCurrent from rfl, hi] at h₀
    cases h₀
    obtain ⟨n, hn, hn0, -⟩ := h.tree.kernel
    rw [hni] at hn
    cases hn
    exact hpid hn0
  have hidle' : (Sys.woken k.sched w).idleThread ≠ (Sys.woken k.sched w).current := by
    rw [hcur, hidle]
    exact h.not_idle hi
  have hwoken : (Sys.woken k.sched w).Ok l := h.woken hx.blocked
  obtain ⟨n, -, htick, hready, -⟩ := @Scheduler.Ok.tick _ l .exited hwoken (Or.inr hidle') hon
  refine ⟨_, w, n, hni, hx, hsched, ?_, ?_⟩
  · rintro rfl
    rw [hcur, if_pos rfl] at hready
    simp at hready
  · unfold Kernel.processExitCurrent
    rw [hi]
    dsimp only
    rw [if_neg hpid]
    unfold Kernel.tick
    rw [show ((k.exitProcess i status).stop .exited).sched =
      (Sys.woken k.sched w).setState (Sys.woken k.sched w).current .exited by
        unfold Kernel.stop
        rw [hsched], htick]
    rfl

/-- The exit of a child wakes its blocked parent: before the tick the parent and its thread are
ready, and the tick can only go on to run it. -/
theorem exit_wakes (h : Sys.Ok k.sys l) {j : ℕ} (status : ℤ) (hi : k.processCurrent = some i)
    (hpid : (k.procs i).pid ≠ 0) (hj : k.Used j) (hpp : (k.procs j).pid = (k.procs i).ppid)
    (hb : (k.procs j).state = .blocked) :
    ∃ t k', (k.procs j).thread = some t ∧ ((k.exitProcess i status).procs j).state = .ready ∧
      (k.exitProcess i status).sched.state t = .ready ∧ k.processExitCurrent status = some k' ∧
      (k'.procs j).state = .ready ∧ (k'.sched.state t = .ready ∨ k'.sched.current = t) := by
  obtain ⟨m, w, n, hni, hx, hsched, -, hexit⟩ := exit_returns h hi hpid status
  have hnj := sys_node hj.1 hj.2
  obtain ⟨-, -, rfl⟩ := sys_eq_some hni
  -- the parent is the one that is woken
  obtain ⟨⟨j', t⟩, hw, rfl⟩ := Option.map_eq_some_iff.mp ((hx.woken j _ hnj).mpr ⟨hpp, hb⟩)
  obtain ⟨m, hm, hmt⟩ := hx.thread j' t hw
  dsimp only at hj hpp hb hnj
  rw [hnj] at hm
  cases hm
  have hji : j' ≠ i := by
    rintro rfl
    have := (h.tree.parent j' _ hni hpid).2.1
    dsimp only at this
    omega
  have hready : ((k.exitProcess i status).procs j').state = .ready := by
    have hnode := hx.nodes j'
    rw [hnj, Option.map_some] at hnode
    have hst := congrArg Node.state (sys_eq_some hnode).2.2
    dsimp only at hst
    rw [if_neg hji, if_pos (by rw [hw]; rfl)] at hst
    exact hst.symm
  have hthread : (Sys.woken k.sched w).state t = .ready := by
    rw [Sys.state_woken, if_pos (by rw [hw]; rfl)]
  have hne : t ≠ k.sched.current := by
    intro he
    have hbt := h.blocked.thread j' _ t hnj hb hmt
    rw [he] at hbt
    have hrun : k.sched.state k.sched.current = .running := h.sched.current_running
    rw [show k.sys.sched = k.sched from rfl, hrun] at hbt
    cases hbt
  refine ⟨t, _, hmt, hready, ?_, hexit, hready, ?_⟩
  · rw [hsched]
    exact hthread
  · show (Scheduler.Ok.ticked _ _ n).state t = _ ∨ n = t
    by_cases hn : t = n
    · exact Or.inr hn.symm
    · left
      rw [Scheduler.Ok.state_ticked, if_neg hn, (Sys.woken_same k.sched w).1, if_neg hne]
      exact hthread

end Results

end VoidOS.Proc
