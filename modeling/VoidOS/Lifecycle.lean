import VoidOS.Process

/-!
# Processes and threads without their memory

The abstract system keeps of the process table what the life of a process depends on, and the
scheduler. Its steps are the events of that life; none of them looks at memory.
-/

namespace VoidOS.Proc

open Sched Relation

structure Node where
  pid : ℤ
  ppid : ℤ
  state : ProcState
  exitStatus : ℤ
  thread : Option ℕ
  waitPid : ℤ
  cr3 : ℕ

structure Sys where
  nodes : ℕ → Option Node
  nextPid : ℤ
  sched : Scheduler
  exits : List (ℤ × ℤ)
  reaps : List Reaped

namespace Sys

/-- `pid` is the pid of a process that has not exited. -/
def Live (nodes : ℕ → Option Node) (pid : ℤ) : Prop :=
  ∃ i n, nodes i = some n ∧ n.pid = pid ∧ n.state ≠ .zombie

/-- The slot of the process of the running thread. -/
def running (s : Sys) : Option ℕ := (s.sched.threads s.sched.current).proc

def setNode (s : Sys) (i : ℕ) (n : Node) : Sys :=
  { s with nodes := Function.update s.nodes i (some n) }

def get (s : Sys) (pid : ℤ) : Option ℕ :=
  (List.range maxProcesses).find? fun i => (s.nodes i).any fun n => n.pid = pid

def reparent (nodes : ℕ → Option Node) (pid ppid : ℤ) : ℕ → Option Node :=
  fun j => (nodes j).map fun m => if m.ppid = pid then { m with ppid := ppid } else m

/-- A blocked process and its thread become ready. -/
def wake (s : Sys) (pid : ℤ) : Sys :=
  match s.get pid with
  | none => s
  | some j =>
    match s.nodes j with
    | none => s
    | some m =>
      if m.state = .blocked then
        let s := s.setNode j { m with state := .ready }
        match m.thread with
        | none => s
        | some t => { s with sched := s.sched.setState t .ready }
      else s

/-- The exit of process `n` in slot `i`, before its thread stops. -/
def exit (s : Sys) (i : ℕ) (n : Node) (status : ℤ) : Sys :=
  let gone := { n with exitStatus := status, state := .zombie }
  { s with
    nodes := reparent (Function.update s.nodes i (some gone)) n.pid n.ppid
    exits := s.exits ++ [(n.pid, status)] }.wake n.ppid

/-- A wait for `sel` by a process with this pid would find `m`. -/
def Node.Matches (pid sel : ℤ) (m : Node) : Prop := m.ppid = pid ∧ (sel = -1 ∨ m.pid = sel)

/-- There is a child to wait for that has not exited. -/
def Awaits (nodes : ℕ → Option Node) (pid sel : ℤ) : Prop :=
  ∃ j m, nodes j = some m ∧ Node.Matches pid sel m ∧ m.state ≠ .zombie

inductive Step : Sys → Sys → Prop
  /-- A process that was not born after all has used up pids. -/
  | failed {s : Sys} {n : ℤ} : s.nextPid ≤ n → Step s { s with nextPid := n }
  | frame {s : Sys} (f : Frame) : Step s { s with
      sched := s.sched.setThread s.sched.current
        { s.sched.threads s.sched.current with frame := f } }
  | born {s : Sys} {c cr3 t : ℕ} {parent : ℤ} {f : Frame} {sc : Scheduler} :
      c < maxProcesses → s.nodes c = none → Live s.nodes parent →
      schedAdoptThread s.sched f cr3 c = some (sc, t) →
      Step s { s.setNode c ⟨s.nextPid, parent, .ready, 0, some t, 0, cr3⟩ with
        nextPid := s.nextPid + 1, sched := sc }
  | exec {s : Sys} {i t cr3 : ℕ} {n : Node} :
      s.nodes i = some n → n.state ≠ .zombie → n.thread = some t →
      Step s { s.setNode i { n with cr3 := cr3 } with
        sched := s.sched.setThread t { s.sched.threads t with cr3 := cr3 } }
  | exit {s : Sys} {i : ℕ} {n : Node} {status : ℤ} {sc : Scheduler} {b : Bool} :
      s.running = some i → s.nodes i = some n → n.pid ≠ 0 →
      schedTick ((s.exit i n status).sched.setState s.sched.current .exited) = some (sc, b) →
      Step s { s.exit i n status with sched := sc }
  | reap {s : Sys} {i : ℕ} {n : Node} :
      s.nodes i = some n → n.state = .zombie →
      Step s { s with
        nodes := Function.update s.nodes i none
        reaps := s.reaps ++ [⟨n.ppid, n.pid, n.exitStatus⟩] }
  | block {s : Sys} {i : ℕ} {n : Node} {sel : ℤ} {sc : Scheduler} :
      s.running = some i → s.nodes i = some n → Awaits s.nodes n.pid sel →
      schedTick (s.sched.setState s.sched.current .blocked) = some (sc, true) →
      Step s { s.setNode i { n with state := .blocked, waitPid := sel } with sched := sc }
  /-- The tick declined, so the wait is undone. -/
  | unblock {s : Sys} {i : ℕ} {n : Node} {sel : ℤ} {sc : Scheduler} :
      s.running = some i → s.nodes i = some n →
      schedTick (s.sched.setState s.sched.current .blocked) = some (sc, false) →
      Step s { s.setNode i { n with state := .running, waitPid := sel } with
        sched := sc.setState s.sched.current .running }
  | tick {s : Sys} {sc : Scheduler} {b : Bool} :
      schedTick s.sched = some (sc, b) → Step s { s with sched := sc }
  | kthread {s : Sys} {cr3 t : ℕ} {f : Frame} {stack : Bool} {sc : Scheduler} :
      schedCreateKthread s.sched cr3 f stack = (sc, t) → Step s { s with sched := sc }
  | schedExit {s : Sys} {sc : Scheduler} :
      s.sched.active = true → s.sched.idleThread ≠ s.sched.current →
      schedExit s.sched = some sc → Step s { s with sched := sc }
  | start {s : Sys} : Step s { s with sched := schedStart s.sched }

/-- Distinct pids, each below the next one, and each parent an older live process. -/
structure TreeOk (nodes : ℕ → Option Node) (nextPid : ℤ) : Prop where
  lt : ∀ i n, nodes i = some n → i < maxProcesses
  kernel : ∃ n, nodes 0 = some n ∧ n.pid = 0 ∧ n.state ≠ .zombie
  bound : ∀ i n, nodes i = some n → 0 ≤ n.pid ∧ n.pid < nextPid
  distinct : ∀ i j n m, nodes i = some n → nodes j = some m → n.pid = m.pid → i = j
  parent : ∀ i n, nodes i = some n → n.pid ≠ 0 →
    0 ≤ n.ppid ∧ n.ppid < n.pid ∧ Live nodes n.ppid

section Tree

variable {nodes nodes' : ℕ → Option Node} {nextPid nextPid' : ℤ} {i : ℕ} {n : Node}

theorem TreeOk.congr (h : TreeOk nodes nextPid) (hle : nextPid ≤ nextPid')
    (f : ℕ → Node → Node) (hn : ∀ j, nodes' j = (nodes j).map (f j))
    (hpid : ∀ j m, nodes j = some m → (f j m).pid = m.pid)
    (hppid : ∀ j m, nodes j = some m → (f j m).ppid = m.ppid)
    (hstate : ∀ j m, nodes j = some m → ((f j m).state = .zombie ↔ m.state = .zombie)) :
    TreeOk nodes' nextPid' := by
  have hfrom : ∀ j m, nodes' j = some m → ∃ m₀, nodes j = some m₀ ∧ m = f j m₀ := by
    intro j m hm
    rw [hn, Option.map_eq_some_iff] at hm
    obtain ⟨m₀, h₀, rfl⟩ := hm
    exact ⟨m₀, h₀, rfl⟩
  have hlive : ∀ p, Live nodes p → Live nodes' p := by
    rintro p ⟨j, m, hm, rfl, hz⟩
    refine ⟨j, f j m, by rw [hn, hm]; rfl, hpid j m hm, fun hc => hz ((hstate j m hm).mp hc)⟩
  refine ⟨?_, ?_, ?_, ?_, ?_⟩
  · intro j m hm
    obtain ⟨m₀, h₀, -⟩ := hfrom j m hm
    exact h.lt j m₀ h₀
  · obtain ⟨m, hm, hp, hz⟩ := h.kernel
    refine ⟨f 0 m, by rw [hn, hm]; rfl, ?_, fun hc => hz ((hstate 0 m hm).mp hc)⟩
    rw [hpid 0 m hm, hp]
  · intro j m hm
    obtain ⟨m₀, h₀, rfl⟩ := hfrom j m hm
    rw [hpid j m₀ h₀]
    have := h.bound j m₀ h₀
    exact ⟨this.1, by omega⟩
  · intro j j' m m' hm hm' he
    obtain ⟨m₀, h₀, rfl⟩ := hfrom j m hm
    obtain ⟨m₁, h₁, rfl⟩ := hfrom j' m' hm'
    rw [hpid j m₀ h₀, hpid j' m₁ h₁] at he
    exact h.distinct j j' m₀ m₁ h₀ h₁ he
  · intro j m hm hne
    obtain ⟨m₀, h₀, rfl⟩ := hfrom j m hm
    rw [hpid j m₀ h₀] at hne ⊢
    rw [hppid j m₀ h₀]
    obtain ⟨h₁, h₂, h₃⟩ := h.parent j m₀ h₀ hne
    exact ⟨h₁, h₂, hlive _ h₃⟩

theorem TreeOk.setNode (h : TreeOk nodes nextPid) (hi : nodes i = some n) {n' : Node}
    (hpid : n'.pid = n.pid) (hppid : n'.ppid = n.ppid)
    (hstate : n'.state = .zombie ↔ n.state = .zombie) :
    TreeOk (Function.update nodes i (some n')) nextPid := by
  refine h.congr le_rfl (fun j m => if j = i then n' else m) ?_ ?_ ?_ ?_
  · intro j
    rw [Function.update_apply]
    split
    · rename_i he
      rw [he, hi]
      rfl
    · cases nodes j <;> rfl
  all_goals
    intro j m hm
    split
    · rename_i he
      rw [he, hi] at hm
      cases hm
      assumption
    · rfl

theorem TreeOk.born (h : TreeOk nodes nextPid) (hlt : i < maxProcesses) (hi : nodes i = none)
    (hpid : n.pid = nextPid) (hlive : Live nodes n.ppid) (hstate : n.state ≠ .zombie) :
    TreeOk (Function.update nodes i (some n)) (nextPid + 1) := by
  have hold : ∀ j m, Function.update nodes i (some n) j = some m →
      j = i ∧ m = n ∨ j ≠ i ∧ nodes j = some m := by
    intro j m hm
    rw [Function.update_apply] at hm
    split at hm
    · left
      exact ⟨by assumption, (Option.some.inj hm).symm⟩
    · right
      exact ⟨by assumption, hm⟩
  have hkeep : ∀ j m, nodes j = some m → Function.update nodes i (some n) j = some m := by
    intro j m hm
    rw [Function.update_of_ne, hm]
    rintro rfl
    rw [hi] at hm
    cases hm
  have hmono : ∀ p, Live nodes p → Live (Function.update nodes i (some n)) p := by
    rintro p ⟨j, m, hm, hp, hz⟩
    exact ⟨j, m, hkeep j m hm, hp, hz⟩
  obtain ⟨k, hk, hk0, hkz⟩ := h.kernel
  have hpos := h.bound 0 k hk
  refine ⟨?_, ⟨k, hkeep 0 k hk, hk0, hkz⟩, ?_, ?_, ?_⟩
  · intro j m hm
    rcases hold j m hm with ⟨rfl, -⟩ | ⟨-, hm⟩
    · exact hlt
    · exact h.lt j m hm
  · intro j m hm
    rcases hold j m hm with ⟨-, rfl⟩ | ⟨-, hm⟩
    · omega
    · have := h.bound j m hm
      omega
  · intro j j' m m' hm hm' he
    rcases hold j m hm with ⟨rfl, rfl⟩ | ⟨-, hold₁⟩
    · rcases hold j' m' hm' with ⟨rfl, -⟩ | ⟨-, hold₂⟩
      · rfl
      · have := h.bound j' m' hold₂
        omega
    · rcases hold j' m' hm' with ⟨rfl, rfl⟩ | ⟨-, hold₂⟩
      · have := h.bound j m hold₁
        omega
      · exact h.distinct j j' m m' hold₁ hold₂ he
  · intro j m hm hne
    rcases hold j m hm with ⟨-, rfl⟩ | ⟨-, hm⟩
    · have hnew := hmono _ hlive
      obtain ⟨j', m', hm', hp, -⟩ := hlive
      have := h.bound j' m' hm'
      exact ⟨by omega, by omega, hnew⟩
    · obtain ⟨h₁, h₂, h₃⟩ := h.parent j m hm hne
      exact ⟨h₁, h₂, hmono _ h₃⟩

theorem TreeOk.reap (h : TreeOk nodes nextPid) (hi : nodes i = some n)
    (hz : n.state = .zombie) : TreeOk (Function.update nodes i none) nextPid := by
  have hold : ∀ j m, Function.update nodes i none j = some m → nodes j = some m := by
    intro j m hm
    rw [Function.update_apply] at hm
    split at hm
    · cases hm
    · exact hm
  have hlive : ∀ p, Live nodes p → Live (Function.update nodes i none) p := by
    rintro p ⟨j, m, hm, hp, hm'⟩
    refine ⟨j, m, ?_, hp, hm'⟩
    rw [Function.update_of_ne, hm]
    rintro rfl
    rw [hi] at hm
    cases hm
    exact hm' hz
  obtain ⟨k, hk, hk0, hkz⟩ := h.kernel
  refine ⟨fun j m hm => h.lt j m (hold j m hm), ⟨k, ?_, hk0, hkz⟩,
    fun j m hm => h.bound j m (hold j m hm),
    fun j j' m m' hm hm' => h.distinct j j' m m' (hold j m hm) (hold j' m' hm'), ?_⟩
  · rw [Function.update_of_ne, hk]
    rintro rfl
    rw [hi] at hk
    cases hk
    exact hkz hz
  · intro j m hm hne
    obtain ⟨h₁, h₂, h₃⟩ := h.parent j m (hold j m hm) hne
    exact ⟨h₁, h₂, hlive _ h₃⟩

theorem exit_nodes (hi : nodes i = some n) (status : ℤ) (j : ℕ) :
    reparent (Function.update nodes i (some { n with exitStatus := status, state := .zombie }))
      n.pid n.ppid j = (nodes j).map fun m =>
        { m with
          ppid := if m.ppid = n.pid then n.ppid else m.ppid
          state := if j = i then .zombie else m.state
          exitStatus := if j = i then status else m.exitStatus } := by
  unfold reparent
  rw [Function.update_apply]
  split
  · rename_i he
    rw [he, hi]
    simp only [Option.map_some, Option.some.injEq]
    split <;> rfl
  · cases nodes j with
    | none => rfl
    | some m =>
      simp only [Option.map_some, Option.some.injEq]
      split <;> rfl

/-- The children of an exiting process go to its parent, which is older and live. -/
theorem TreeOk.exit (h : TreeOk nodes nextPid) (hi : nodes i = some n) (hpid : n.pid ≠ 0)
    (status : ℤ) : TreeOk (reparent (Function.update nodes i
      (some { n with exitStatus := status, state := .zombie })) n.pid n.ppid) nextPid := by
  generalize hn' : reparent (Function.update nodes i
    (some { n with exitStatus := status, state := .zombie })) n.pid n.ppid = nodes'
  have hmap : ∀ j, nodes' j = (nodes j).map fun m =>
      { m with
        ppid := if m.ppid = n.pid then n.ppid else m.ppid
        state := if j = i then .zombie else m.state
        exitStatus := if j = i then status else m.exitStatus } := by
    intro j
    rw [← hn']
    exact exit_nodes hi status j
  have hfrom : ∀ j m, nodes' j = some m → ∃ m₀, nodes j = some m₀ ∧ m.pid = m₀.pid ∧
      m.ppid = if m₀.ppid = n.pid then n.ppid else m₀.ppid := by
    intro j m hm
    rw [hmap, Option.map_eq_some_iff] at hm
    obtain ⟨m₀, h₀, rfl⟩ := hm
    exact ⟨m₀, h₀, rfl, rfl⟩
  -- whoever has another pid is as live as before
  have hlive : ∀ p, p ≠ n.pid → Live nodes p → Live nodes' p := by
    rintro p hp ⟨j, m, hm, rfl, hz⟩
    have hji : j ≠ i := by
      rintro rfl
      rw [hi] at hm
      cases hm
      exact hp rfl
    have hm' := hmap j
    rw [hm, Option.map_some, if_neg hji] at hm'
    exact ⟨j, _, hm', rfl, hz⟩
  obtain ⟨hn₁, hn₂, hn₃⟩ := h.parent i n hi hpid
  refine ⟨?_, ?_, ?_, ?_, ?_⟩
  · intro j m hm
    obtain ⟨m₀, h₀, -, -⟩ := hfrom j m hm
    exact h.lt j m₀ h₀
  · obtain ⟨k, hk, hk0, hkz⟩ := h.kernel
    have hi0 : (0 : ℕ) ≠ i := by
      rintro rfl
      rw [hk] at hi
      cases hi
      exact hpid hk0
    have hk' := hmap 0
    rw [hk, Option.map_some, if_neg hi0] at hk'
    exact ⟨_, hk', hk0, hkz⟩
  · intro j m hm
    obtain ⟨m₀, h₀, hp, -⟩ := hfrom j m hm
    rw [hp]
    exact h.bound j m₀ h₀
  · intro j j' m m' hm hm' he
    obtain ⟨m₀, h₀, hp, -⟩ := hfrom j m hm
    obtain ⟨m₁, h₁, hp', -⟩ := hfrom j' m' hm'
    rw [hp, hp'] at he
    exact h.distinct j j' m₀ m₁ h₀ h₁ he
  · intro j m hm hne
    obtain ⟨m₀, h₀, hp, hpp⟩ := hfrom j m hm
    rw [hp] at hne ⊢
    rw [hpp]
    obtain ⟨h₁, h₂, h₃⟩ := h.parent j m₀ h₀ hne
    split
    · exact ⟨hn₁, by omega, hlive _ (by omega) hn₃⟩
    · rename_i hother
      exact ⟨h₁, h₂, hlive _ hother h₃⟩

end Tree

end Sys

end VoidOS.Proc
