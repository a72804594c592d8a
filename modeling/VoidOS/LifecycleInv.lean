import VoidOS.Lifecycle

namespace VoidOS.Proc.Sys

open Sched Sched.Scheduler.Ok

/-- Each live process has its thread in the queue, and a thread that has not exited has its
process. -/
structure ThreadsOk (nodes : ℕ → Option Node) (sc : Scheduler) (l : List ℕ) : Prop where
  thread : ∀ i n, nodes i = some n → n.state ≠ .zombie → ∃ t ∈ l, n.thread = some t ∧
    (sc.threads t).proc = some i ∧ (sc.threads t).cr3 = n.cr3
  owner : ∀ t i, (sc.threads t).proc = some i → sc.state t ≠ .exited →
    ∃ n, nodes i = some n ∧ n.state ≠ .zombie ∧ n.thread = some t
  unlinked : ∀ t, t ∉ l → (sc.threads t).proc = none
  idle : (sc.threads sc.idleThread).proc = none

/-- A blocked process waits for something that is still to come. -/
structure BlockedOk (nodes : ℕ → Option Node) (sc : Scheduler) : Prop where
  thread : ∀ i n t, nodes i = some n → n.state = .blocked → n.thread = some t →
    sc.state t = .blocked
  awaits : ∀ i n, nodes i = some n → n.state = .blocked → Awaits nodes n.pid n.waitPid

structure LogsOk (nodes : ℕ → Option Node) (nextPid : ℤ) (exits : List (ℤ × ℤ))
    (reaps : List Reaped) : Prop where
  exits_nodup : (exits.map Prod.fst).Nodup
  exits_lt : ∀ e ∈ exits, e.1 < nextPid
  zombie : ∀ i n, nodes i = some n → n.state = .zombie → (n.pid, n.exitStatus) ∈ exits
  live : ∀ i n, nodes i = some n → n.state ≠ .zombie → n.pid ∉ exits.map Prod.fst
  reaps_nodup : (reaps.map Reaped.pid).Nodup
  reaps_exits : ∀ r ∈ reaps, (r.pid, r.status) ∈ exits
  reaps_gone : ∀ r ∈ reaps, ∀ i n, nodes i = some n → n.pid ≠ r.pid

structure Ok (s : Sys) (l : List ℕ) : Prop where
  sched : s.sched.Ok l
  tree : TreeOk s.nodes s.nextPid
  threads : ThreadsOk s.nodes s.sched l
  blocked : BlockedOk s.nodes s.sched
  logs : LogsOk s.nodes s.nextPid s.exits s.reaps
  boot : s.sched.active = false → s.running = some 0

section Changes

variable {nodes nodes' : ℕ → Option Node} {sc sc' : Scheduler} {l l' : List ℕ}
  {nextPid nextPid' : ℤ} {exits : List (ℤ × ℤ)} {reaps : List Reaped} {f : ℕ → Node → Node}

theorem ThreadsOk.change (h : ThreadsOk nodes sc l)
    (hn : ∀ j, nodes' j = (nodes j).map (f j))
    (hthread : ∀ j m, nodes j = some m → (f j m).thread = m.thread ∧ (f j m).cr3 = m.cr3)
    (hz : ∀ j m, nodes j = some m → m.state = .zombie → (f j m).state = .zombie)
    (hproc : ∀ t, (sc'.threads t).proc = (sc.threads t).proc ∧
      (sc'.threads t).cr3 = (sc.threads t).cr3)
    (hidle : sc'.idleThread = sc.idleThread)
    (hstate : ∀ t i m, (sc.threads t).proc = some i → nodes i = some m → m.thread = some t →
      sc'.state t ≠ .exited → m.state ≠ .zombie → (f i m).state ≠ .zombie)
    (hexit : ∀ t, sc'.state t ≠ .exited → sc.state t ≠ .exited) :
    ThreadsOk nodes' sc' l := by
  refine ⟨?_, ?_, ?_, ?_⟩
  · intro i m' hm' hm'z
    rw [hn, Option.map_eq_some_iff] at hm'
    obtain ⟨m, hm, rfl⟩ := hm'
    obtain ⟨t, ht, h₁, h₂, h₃⟩ := h.thread i m hm fun hc => hm'z (hz i m hm hc)
    obtain ⟨e₁, e₂⟩ := hthread i m hm
    refine ⟨t, ht, e₁.trans h₁, (hproc t).1.trans h₂, ?_⟩
    rw [(hproc t).2, h₃, e₂]
  · intro t i hp hne
    rw [(hproc t).1] at hp
    obtain ⟨m, hm, hmz, hmt⟩ := h.owner t i hp (hexit t hne)
    refine ⟨f i m, by rw [hn, hm]; rfl, hstate t i m hp hm hmt hne hmz, ?_⟩
    rw [(hthread i m hm).1, hmt]
  · intro t ht
    rw [(hproc t).1]
    exact h.unlinked t ht
  · rw [hidle, (hproc _).1]
    exact h.idle

theorem Awaits.change {p sel : ℤ} (h : Awaits nodes p sel)
    (hn : ∀ j, nodes' j = (nodes j).map (f j))
    (hf : ∀ j m, nodes j = some m → Node.Matches p sel m → m.state ≠ .zombie →
      (f j m).pid = m.pid ∧ (f j m).ppid = m.ppid ∧ (f j m).state ≠ .zombie) :
    Awaits nodes' p sel := by
  obtain ⟨j, m, hm, hmatch, hz⟩ := h
  obtain ⟨h₁, h₂, h₃⟩ := hf j m hm hmatch hz
  refine ⟨j, f j m, by rw [hn, hm]; rfl, ?_, h₃⟩
  unfold Node.Matches at hmatch ⊢
  rwa [h₁, h₂]

theorem LogsOk.change (h : LogsOk nodes nextPid exits reaps) (hle : nextPid ≤ nextPid')
    (hn : ∀ j, nodes' j = (nodes j).map (f j))
    (hpid : ∀ j m, nodes j = some m → (f j m).pid = m.pid)
    (hstate : ∀ j m, nodes j = some m → ((f j m).state = .zombie ↔ m.state = .zombie))
    (hstatus : ∀ j m, nodes j = some m → (f j m).exitStatus = m.exitStatus) :
    LogsOk nodes' nextPid' exits reaps := by
  have hfrom : ∀ {j m'}, nodes' j = some m' → ∃ m, nodes j = some m ∧ m' = f j m := by
    intro j m' hm'
    rw [hn, Option.map_eq_some_iff] at hm'
    obtain ⟨m, hm, rfl⟩ := hm'
    exact ⟨m, hm, rfl⟩
  refine ⟨h.exits_nodup, fun e he => lt_of_lt_of_le (h.exits_lt e he) hle, ?_, ?_,
    h.reaps_nodup, h.reaps_exits, ?_⟩
  · intro i m' hm' hz
    obtain ⟨m, hm, rfl⟩ := hfrom hm'
    rw [hpid i m hm, hstatus i m hm]
    exact h.zombie i m hm ((hstate i m hm).mp hz)
  · intro i m' hm' hz
    obtain ⟨m, hm, rfl⟩ := hfrom hm'
    rw [hpid i m hm]
    exact h.live i m hm fun hc => hz ((hstate i m hm).mpr hc)
  · intro r hr i m' hm'
    obtain ⟨m, hm, rfl⟩ := hfrom hm'
    rw [hpid i m hm]
    exact h.reaps_gone r hr i m hm

theorem update_eq_map {i : ℕ} {n n' : Node} (hi : nodes i = some n) (j : ℕ) :
    Function.update nodes i (some n') j = (nodes j).map fun m => if j = i then n' else m := by
  rw [Function.update_apply]
  split
  · rename_i he
    rw [he, hi]
    rfl
  · cases nodes j <;> rfl

end Changes

variable {s s' : Sys} {l : List ℕ} {sc : Scheduler} {i : ℕ} {n : Node}

theorem Ok.running (h : Ok s l) (hr : s.running = some i) : ∃ n, s.nodes i = some n ∧
    n.state ≠ .zombie ∧ n.thread = some s.sched.current := by
  apply h.threads.owner _ _ hr
  rw [h.sched.current_running]
  exact fun hc => ThreadState.noConfusion hc

theorem Ok.not_idle (h : Ok s l) (hr : s.running = some i) :
    s.sched.idleThread ≠ s.sched.current := by
  intro he
  have hidle := h.threads.idle
  rw [he] at hidle
  unfold Sys.running at hr
  rw [hidle] at hr
  cases hr

/-- The node keeps its identity; it may change its state, but not by exiting. -/
def Alike (m m' : Node) : Prop :=
  m'.pid = m.pid ∧ m'.ppid = m.ppid ∧ m'.thread = m.thread ∧ m'.cr3 = m.cr3 ∧
    m'.exitStatus = m.exitStatus ∧ (m'.state = .zombie ↔ m.state = .zombie)

theorem Alike.refl (m : Node) : Alike m m := ⟨rfl, rfl, rfl, rfl, rfl, Iff.rfl⟩

/-- A change of process states and of the scheduler under which nobody exits. -/
theorem Ok.change (h : Ok s l) {f : ℕ → Node → Node}
    (hn : ∀ j, s'.nodes j = (s.nodes j).map (f j))
    (hf : ∀ j m, s.nodes j = some m → Alike m (f j m))
    (hpid : s.nextPid ≤ s'.nextPid) (hexits : s'.exits = s.exits) (hreaps : s'.reaps = s.reaps)
    (hok : s'.sched.Ok l) (hidle : s'.sched.idleThread = s.sched.idleThread)
    (hproc : ∀ t, (s'.sched.threads t).proc = (s.sched.threads t).proc ∧
      (s'.sched.threads t).cr3 = (s.sched.threads t).cr3)
    (hexit : ∀ t, s'.sched.state t ≠ .exited → s.sched.state t ≠ .exited)
    (hblocked : ∀ j m t, s.nodes j = some m → (f j m).state = .blocked → m.thread = some t →
      s'.sched.state t = .blocked ∧ Awaits s.nodes m.pid (f j m).waitPid)
    (hboot : s'.sched.active = false → s.sched.active = false ∧
      s'.sched.current = s.sched.current) : Ok s' l := by
  have hfrom : ∀ {j m'}, s'.nodes j = some m' → ∃ m, s.nodes j = some m ∧ m' = f j m := by
    intro j m' hm'
    rw [hn, Option.map_eq_some_iff] at hm'
    obtain ⟨m, hm, rfl⟩ := hm'
    exact ⟨m, hm, rfl⟩
  refine ⟨hok, ?_, ?_, ⟨?_, ?_⟩, ?_, ?_⟩
  · exact h.tree.congr hpid f hn (fun j m hm => (hf j m hm).1) (fun j m hm => (hf j m hm).2.1)
      fun j m hm => (hf j m hm).2.2.2.2.2
  · refine h.threads.change hn (fun j m hm => ⟨(hf j m hm).2.2.1, (hf j m hm).2.2.2.1⟩)
      (fun j m hm hz => (hf j m hm).2.2.2.2.2.mpr hz) hproc hidle ?_ hexit
    intro t j m _ hm _ _ hz hc
    exact hz ((hf j m hm).2.2.2.2.2.mp hc)
  · intro j m' t hm' hb ht
    obtain ⟨m, hm, rfl⟩ := hfrom hm'
    rw [(hf j m hm).2.2.1] at ht
    exact (hblocked j m t hm hb ht).1
  · intro j m' hm' hb
    obtain ⟨m, hm, rfl⟩ := hfrom hm'
    have hz : m.state ≠ .zombie := by
      intro hc
      rw [← (hf j m hm).2.2.2.2.2, hb] at hc
      cases hc
    obtain ⟨t, -, ht, -, -⟩ := h.threads.thread j m hm hz
    rw [(hf j m hm).1]
    refine (hblocked j m t hm hb ht).2.change hn fun j' c hc _ hcz => ?_
    exact ⟨(hf j' c hc).1, (hf j' c hc).2.1, fun hz => hcz ((hf j' c hc).2.2.2.2.2.mp hz)⟩
  · rw [hexits, hreaps]
    exact h.logs.change hpid hn (fun j m hm => (hf j m hm).1)
      (fun j m hm => (hf j m hm).2.2.2.2.2) fun j m hm => (hf j m hm).2.2.2.2.1
  · intro hoff
    obtain ⟨h₁, h₂⟩ := hboot hoff
    unfold Sys.running
    rw [h₂, (hproc _).1]
    exact h.boot h₁

theorem map_self (hnodes : s'.nodes = s.nodes) (j : ℕ) :
    s'.nodes j = (s.nodes j).map ((fun _ m => m) j) := by
  rw [hnodes]
  exact Option.map_id'.symm

theorem Ok.quiet (h : Ok s l) (hnodes : s'.nodes = s.nodes) (hpid : s.nextPid ≤ s'.nextPid)
    (hexits : s'.exits = s.exits) (hreaps : s'.reaps = s.reaps)
    (hnext : s'.sched.next = s.sched.next) (hstate : s'.sched.state = s.sched.state)
    (htid : s'.sched.nextTid = s.sched.nextTid) (hcur : s'.sched.current = s.sched.current)
    (hidle : s'.sched.idleThread = s.sched.idleThread)
    (hact : s'.sched.active = false → s.sched.active = false)
    (hproc : ∀ t, (s'.sched.threads t).proc = (s.sched.threads t).proc ∧
      (s'.sched.threads t).cr3 = (s.sched.threads t).cr3) : Ok s' l := by
  refine h.change (map_self hnodes) (fun _ m _ => Alike.refl m) hpid hexits hreaps
    (h.sched.congr hnext hstate htid hcur hidle) hidle hproc ?_ ?_ fun hf => ⟨hact hf, hcur⟩
  · rw [hstate]
    exact fun _ hne => hne
  · intro j m t hm hb ht
    rw [hstate]
    exact ⟨h.blocked.thread j m t hm hb ht, h.blocked.awaits j m hm hb⟩

theorem Ok.born (h : Ok s l) {c cr3 t : ℕ} {parent : ℤ} {f : Frame} (hc : c < maxProcesses)
    (hnone : s.nodes c = none) (hlive : Live s.nodes parent)
    (ha : schedAdoptThread s.sched f cr3 c = some (sc, t)) :
    ∃ l', Ok { s.setNode c ⟨s.nextPid, parent, .ready, 0, some t, 0, cr3⟩ with
      nextPid := s.nextPid + 1, sched := sc } l' := by
  obtain ⟨rfl, ⟨l', hok, hmem⟩, hcur, hidle, hproc, hcr3, hstate⟩ := h.sched.adopt ha
  have hnew : s.sched.nextTid ∉ l := fun hin => absurd (h.sched.lt _ hin) (lt_irrefl _)
  have hin : ∀ t ∈ l, t ≠ s.sched.nextTid := fun t ht he => hnew (he ▸ ht)
  have hact : sc.active = s.sched.active := by
    unfold schedAdoptThread at ha
    split at ha
    · cases ha
    · obtain ⟨rfl, -⟩ := Prod.mk.inj (Option.some.inj ha)
      rfl
  have hkeep : ∀ {j m}, s.nodes j = some m →
      Function.update s.nodes c
        (some ⟨s.nextPid, parent, .ready, 0, some s.sched.nextTid, 0, cr3⟩) j = some m := by
    intro j m hm
    rw [Function.update_of_ne, hm]
    rintro rfl
    rw [hnone] at hm
    cases hm
  have hold : ∀ {j m}, Function.update s.nodes c
      (some ⟨s.nextPid, parent, .ready, 0, some s.sched.nextTid, 0, cr3⟩) j = some m →
      (j = c ∧ m = ⟨s.nextPid, parent, .ready, 0, some s.sched.nextTid, 0, cr3⟩) ∨
        s.nodes j = some m := by
    intro j m hm
    rw [Function.update_apply] at hm
    split at hm
    · left
      exact ⟨by assumption, (Option.some.inj hm).symm⟩
    · exact Or.inr hm
  have hawaits : ∀ {p sel}, Awaits s.nodes p sel → Awaits (Function.update s.nodes c
      (some ⟨s.nextPid, parent, .ready, 0, some s.sched.nextTid, 0, cr3⟩)) p sel := by
    rintro p sel ⟨j, m, hm, hmatch, hz⟩
    exact ⟨j, m, hkeep hm, hmatch, hz⟩
  refine ⟨l', hok, ?_, ⟨?_, ?_, ?_, ?_⟩, ⟨?_, ?_⟩, ⟨?_, ?_, ?_, ?_, ?_, ?_, ?_⟩, ?_⟩
  · exact h.tree.born hc hnone rfl hlive (by simp)
  · intro j m hm hz
    rcases hold hm with ⟨rfl, rfl⟩ | hm
    · exact ⟨_, (hmem _).mpr (Or.inl rfl), rfl, by rw [hproc, if_pos rfl],
        by rw [hcr3, if_pos rfl]⟩
    · obtain ⟨u, hu, h₁, h₂, h₃⟩ := h.threads.thread j m hm hz
      exact ⟨u, (hmem u).mpr (Or.inr hu), h₁, by rw [hproc, if_neg (hin u hu), h₂],
        by rw [hcr3, if_neg (hin u hu), h₃]⟩
  · intro u j hp hne
    have hp' := hproc u
    have hs' := hstate u
    by_cases hu : u = s.sched.nextTid
    · rw [if_pos hu] at hp'
      rw [show (sc.threads u).proc = some j from hp] at hp'
      cases hp'
      exact ⟨_, Function.update_self .., by simp, by rw [hu]⟩
    · rw [if_neg hu] at hp' hs'
      obtain ⟨m, hm, hz, ht⟩ := h.threads.owner u j (hp'.symm.trans hp) (by rwa [← hs'])
      exact ⟨m, hkeep hm, hz, ht⟩
  · intro u hu
    have hu' : ¬ (u = s.sched.nextTid ∨ u ∈ l) := fun hc => hu ((hmem u).mpr hc)
    rw [not_or] at hu'
    show (sc.threads u).proc = none
    rw [hproc, if_neg hu'.1]
    exact h.threads.unlinked u hu'.2
  · show (sc.threads sc.idleThread).proc = none
    rw [hidle, hproc, if_neg (hin _ h.sched.idle_mem)]
    exact h.threads.idle
  · intro j m u hm hb hu
    rcases hold hm with ⟨-, rfl⟩ | hm
    · cases hb
    · have hs := h.blocked.thread j m u hm hb hu
      obtain ⟨u', hu', h₁, -, -⟩ := h.threads.thread j m hm (by rw [hb]; simp)
      rw [hu] at h₁
      cases h₁
      show sc.state u = _
      rw [hstate, if_neg (hin u hu'), hs]
  · intro j m hm hb
    rcases hold hm with ⟨-, rfl⟩ | hm
    · cases hb
    · exact hawaits (h.blocked.awaits j m hm hb)
  · exact h.logs.exits_nodup
  · intro e he
    have := h.logs.exits_lt e he
    show e.1 < s.nextPid + 1
    omega
  · intro j m hm hz
    rcases hold hm with ⟨-, rfl⟩ | hm
    · cases hz
    · exact h.logs.zombie j m hm hz
  · intro j m hm hz
    rcases hold hm with ⟨-, rfl⟩ | hm
    · -- the new pid is larger than that of every exit
      intro hin
      obtain ⟨e, he, hpid⟩ := List.mem_map.mp hin
      have := h.logs.exits_lt e he
      rw [hpid] at this
      exact absurd this (lt_irrefl _)
    · exact h.logs.live j m hm hz
  · exact h.logs.reaps_nodup
  · exact h.logs.reaps_exits
  · intro r hr j m hm
    rcases hold hm with ⟨-, rfl⟩ | hm
    · have := h.logs.exits_lt _ (h.logs.reaps_exits r hr)
      exact fun hc => absurd (hc ▸ this) (lt_irrefl _)
    · exact h.logs.reaps_gone r hr j m hm
  · intro hf
    show (sc.threads sc.current).proc = some 0
    rw [hcur, hproc, if_neg (hin _ h.sched.current_mem)]
    exact h.boot (hact.symm.trans hf)

theorem Ok.reap (h : Ok s l) (hi : s.nodes i = some n) (hz : n.state = .zombie) :
    Ok { s with
      nodes := Function.update s.nodes i none
      reaps := s.reaps ++ [⟨n.ppid, n.pid, n.exitStatus⟩] } l := by
  have hold : ∀ {j m}, Function.update s.nodes i none j = some m → s.nodes j = some m ∧ j ≠ i := by
    intro j m hm
    rw [Function.update_apply] at hm
    split at hm
    · cases hm
    · exact ⟨hm, by assumption⟩
  have hkeep : ∀ {j m}, s.nodes j = some m → m.state ≠ .zombie →
      Function.update s.nodes i none j = some m := by
    intro j m hm hmz
    rw [Function.update_of_ne, hm]
    rintro rfl
    rw [hi] at hm
    cases hm
    exact hmz hz
  refine ⟨h.sched, h.tree.reap hi hz, ⟨?_, ?_, h.threads.unlinked, h.threads.idle⟩,
    ⟨fun j m t hm => h.blocked.thread j m t (hold hm).1, ?_⟩,
    ⟨h.logs.exits_nodup, h.logs.exits_lt, fun j m hm => h.logs.zombie j m (hold hm).1,
      fun j m hm => h.logs.live j m (hold hm).1, ?_, ?_, ?_⟩, h.boot⟩
  · intro j m hm hmz
    exact h.threads.thread j m (hold hm).1 hmz
  · intro t j hp hne
    obtain ⟨m, hm, hmz, ht⟩ := h.threads.owner t j hp hne
    exact ⟨m, hkeep hm hmz, hmz, ht⟩
  · intro j m hm hb
    obtain ⟨j', m', hm', hmatch, hmz⟩ := h.blocked.awaits j m (hold hm).1 hb
    exact ⟨j', m', hkeep hm' hmz, hmatch, hmz⟩
  · rw [List.map_append, List.nodup_append]
    refine ⟨h.logs.reaps_nodup, by simp, ?_⟩
    intro p hp q hq
    obtain ⟨r, hr, rfl⟩ := List.mem_map.mp hp
    simp only [List.map_cons, List.map_nil, List.mem_singleton] at hq
    rw [hq]
    exact (h.logs.reaps_gone r hr i n hi).symm
  · intro r hr
    rcases List.mem_append.mp hr with hr | hr
    · exact h.logs.reaps_exits r hr
    · rw [List.mem_singleton.mp hr]
      exact h.logs.zombie i n hi hz
  · intro r hr j m hm
    obtain ⟨hm, hj⟩ := hold hm
    rcases List.mem_append.mp hr with hr | hr
    · exact h.logs.reaps_gone r hr j m hm
    · rw [List.mem_singleton.mp hr]
      exact fun hc => hj (h.tree.distinct j i m n hm hi hc)

theorem get_eq_some {pid : ℤ} {j : ℕ} (h : s.get pid = some j) :
    ∃ m, s.nodes j = some m ∧ m.pid = pid := by
  have hp := List.find?_some h
  rw [Option.any_eq_true_iff_get] at hp
  obtain ⟨hs, hp⟩ := hp
  refine ⟨(s.nodes j).get hs, (Option.some_get hs).symm, by simpa using hp⟩

theorem wake_cases (htree : TreeOk s.nodes s.nextPid)
    (hthread : ∀ j m, s.nodes j = some m → m.state = .blocked → ∃ t, m.thread = some t)
    (pid : ℤ) :
    (s.wake pid = s ∧ ∀ j m, s.nodes j = some m → m.pid = pid → m.state ≠ .blocked) ∨
    ∃ j m t, s.nodes j = some m ∧ m.pid = pid ∧ m.state = .blocked ∧ m.thread = some t ∧
      s.wake pid = { s.setNode j { m with state := .ready } with
        sched := s.sched.setState t .ready } := by
  have hget : ∀ j m, s.nodes j = some m → m.pid = pid → s.get pid = some j := by
    intro j m hm hp
    have hsome : (s.get pid).isSome := by
      unfold get
      rw [List.find?_isSome]
      exact ⟨j, List.mem_range.mpr (htree.lt j m hm), by simp [hm, hp]⟩
    obtain ⟨j', hj'⟩ := Option.isSome_iff_exists.mp hsome
    obtain ⟨m', hm', hp'⟩ := get_eq_some hj'
    rw [hj', htree.distinct j' j m' m hm' hm (hp'.trans hp.symm)]
  by_cases hex : ∃ j m, s.nodes j = some m ∧ m.pid = pid ∧ m.state = .blocked
  · right
    obtain ⟨j, m, hm, hp, hb⟩ := hex
    obtain ⟨t, ht⟩ := hthread j m hm hb
    refine ⟨j, m, t, hm, hp, hb, ht, ?_⟩
    unfold wake
    rw [hget j m hm hp]
    dsimp only
    rw [hm]
    dsimp only
    rw [if_pos hb, ht]
    rfl
  · left
    have hnot : ∀ j m, s.nodes j = some m → m.pid = pid → m.state ≠ .blocked :=
      fun j m hm hp hb => hex ⟨j, m, hm, hp, hb⟩
    refine ⟨?_, hnot⟩
    unfold wake
    cases hg : s.get pid with
    | none => rfl
    | some j =>
      obtain ⟨m, hm, hp⟩ := get_eq_some hg
      dsimp only
      rw [hm]
      dsimp only
      rw [if_neg (hnot j m hm hp)]

/-- The scheduler after the wake-up of a process, given with its thread. -/
def woken (sc : Scheduler) : Option (ℕ × ℕ) → Scheduler
  | none => sc
  | some (_, t) => sc.setState t .ready

/-- What an exit does before the thread stops: `w` is the parent that is woken. -/
structure Exited (s : Sys) (i : ℕ) (n : Node) (status : ℤ) (s' : Sys) (w : Option (ℕ × ℕ)) :
    Prop where
  nodes : ∀ j, s'.nodes j = (s.nodes j).map fun m =>
    { m with
      ppid := if m.ppid = n.pid then n.ppid else m.ppid
      state := if j = i then .zombie else if w.map Prod.fst = some j then .ready else m.state
      exitStatus := if j = i then status else m.exitStatus }
  woken : ∀ j m, s.nodes j = some m →
    (w.map Prod.fst = some j ↔ m.pid = n.ppid ∧ m.state = .blocked)
  thread : ∀ j t, w = some (j, t) → ∃ m, s.nodes j = some m ∧ m.thread = some t
  sched : s'.sched = Sys.woken s.sched w
  nextPid : s'.nextPid = s.nextPid
  exits : s'.exits = s.exits ++ [(n.pid, status)]
  reaps : s'.reaps = s.reaps

theorem Ok.exited (h : Ok s l) (hr : s.running = some i) (hi : s.nodes i = some n)
    (hpid : n.pid ≠ 0) (status : ℤ) :
    ∃ w, Exited s i n status (s.exit i n status) w := by
  obtain ⟨n', hn', hnz, hnt⟩ := h.running hr
  rw [hi] at hn'
  cases hn'
  have htree := h.tree.exit hi hpid status
  have hmap := exit_nodes hi status
  have hlt := (h.tree.parent i n hi hpid).2.1
  -- the exiting process is not its own parent, and it is not blocked
  have hpar : ∀ j m, s.nodes j = some m → m.pid = n.ppid → j ≠ i := by
    rintro j m hm hp rfl
    rw [hi] at hm
    cases hm
    omega
  unfold Sys.exit
  dsimp only
  generalize hnodes : reparent (Function.update s.nodes i
    (some { n with exitStatus := status, state := .zombie })) n.pid n.ppid = nodes₁ at *
  have hblocked : ∀ j m₁, nodes₁ j = some m₁ → m₁.state = .blocked → ∃ m, s.nodes j = some m ∧
      j ≠ i ∧ m.state = .blocked ∧ m₁.pid = m.pid ∧ m₁.thread = m.thread := by
    intro j m₁ hm₁ hb
    rw [hmap, Option.map_eq_some_iff] at hm₁
    obtain ⟨m, hm, rfl⟩ := hm₁
    dsimp only at hb
    split at hb
    · cases hb
    · exact ⟨m, hm, by assumption, hb, rfl, rfl⟩
  have hback : ∀ j m, s.nodes j = some m → j ≠ i → m.state = .blocked →
      ∃ m₁, nodes₁ j = some m₁ ∧ m₁.state = .blocked ∧ m₁.pid = m.pid := by
    intro j m hm hj hb
    have hm₁ := hmap j
    rw [hm, Option.map_some, if_neg hj] at hm₁
    exact ⟨_, hm₁, hb, rfl⟩
  have hthread : ∀ j m₁, nodes₁ j = some m₁ → m₁.state = .blocked →
      ∃ t, m₁.thread = some t := by
    intro j m₁ hm₁ hb
    obtain ⟨m, hm, -, hmb, -, hmt⟩ := hblocked j m₁ hm₁ hb
    obtain ⟨t, -, ht, -, -⟩ := h.threads.thread j m hm (by rw [hmb]; simp)
    exact ⟨t, hmt.trans ht⟩
  rcases wake_cases (s := { s with
      nodes := nodes₁, exits := s.exits ++ [(n.pid, status)] }) htree hthread n.ppid with
    ⟨hw, hnot⟩ | ⟨j, m₁, t, hm₁, hp, hb, ht, hw⟩
  · refine ⟨none, ?_, ?_, ?_, ?_, ?_, ?_, ?_⟩
    all_goals try rw [hw]
    · intro j
      show nodes₁ j = _
      rw [hmap]
      simp
    · intro j m hm
      simp only [Option.map_none, reduceCtorEq, false_iff, not_and]
      intro hp hb
      obtain ⟨m₁, hm₁, hb₁, hp₁⟩ := hback j m hm (hpar j m hm hp) hb
      exact hnot j m₁ hm₁ (hp₁.trans hp) hb₁
    · intro j t hc
      cases hc
    · rfl
  · obtain ⟨m, hm, hji, hmb, hmp, hmt⟩ := hblocked j m₁ hm₁ hb
    refine ⟨some (j, t), ?_, ?_, ?_, ?_, ?_, ?_, ?_⟩
    all_goals try rw [hw]
    · intro j'
      show Function.update nodes₁ j _ j' = _
      rw [Function.update_apply]
      by_cases hj : j' = j
      · rw [if_pos hj, hj, hm]
        have hm₁' := (show nodes₁ j = some m₁ from hm₁).symm.trans (hmap j)
        rw [hm, Option.map_some, if_neg hji] at hm₁'
        have heq := Option.some.inj hm₁'
        simp [heq, hji]
      · rw [if_neg hj, hmap]
        simp [Ne.symm hj]
    · intro j' m' hm'
      simp only [Option.map_some, Option.some.injEq]
      constructor
      · rintro rfl
        rw [hm] at hm'
        cases hm'
        exact ⟨hmp.symm.trans hp, hmb⟩
      · rintro ⟨hp', -⟩
        apply h.tree.distinct j j' m m' hm hm'
        rw [hp', ← hp, hmp]
    · rintro j' t' hc
      cases hc
      exact ⟨m, hm, hmt ▸ ht⟩
    all_goals rfl

theorem Ok.woken (h : Ok s l) {w : Option (ℕ × ℕ)}
    (hw : ∀ j t, w = some (j, t) → ∃ m, s.nodes j = some m ∧ m.thread = some t ∧
      m.state = .blocked) : (Sys.woken s.sched w).Ok l := by
  cases w with
  | none => exact h.sched
  | some jt =>
    obtain ⟨m, hm, ht, hb⟩ := hw jt.1 jt.2 rfl
    exact h.sched.wake (h.blocked.thread _ m _ hm hb ht)

theorem woken_same (sc : Scheduler) (w : Option (ℕ × ℕ)) :
    (Sys.woken sc w).current = sc.current ∧ (Sys.woken sc w).idleThread = sc.idleThread ∧
      (Sys.woken sc w).active = sc.active ∧ (Sys.woken sc w).nextTid = sc.nextTid ∧
      ∀ t, ((Sys.woken sc w).threads t).proc = (sc.threads t).proc ∧
        ((Sys.woken sc w).threads t).cr3 = (sc.threads t).cr3 := by
  cases w with
  | none => exact ⟨rfl, rfl, rfl, rfl, fun _ => ⟨rfl, rfl⟩⟩
  | some jt =>
    refine ⟨rfl, rfl, rfl, rfl, fun t => ?_⟩
    unfold Sys.woken
    dsimp only
    rw [threads_setState]
    split
    · rename_i he
      rw [he]
      exact ⟨rfl, rfl⟩
    · exact ⟨rfl, rfl⟩

theorem state_woken (sc : Scheduler) (w : Option (ℕ × ℕ)) (t : ℕ) :
    (Sys.woken sc w).state t = if w.map Prod.snd = some t then .ready else sc.state t := by
  cases w with
  | none => simp [Sys.woken]
  | some jt =>
    unfold Sys.woken
    dsimp only
    rw [state_setState]
    simp [eq_comm]

theorem ticked_same (sc : Scheduler) (st : ThreadState) (m t : ℕ) :
    ((ticked sc st m).threads t).proc = (sc.threads t).proc ∧
      ((ticked sc st m).threads t).cr3 = (sc.threads t).cr3 := by
  rw [threads_ticked]
  exact ⟨rfl, rfl⟩

theorem ticked_fields (sc : Scheduler) (st : ThreadState) (m : ℕ) :
    (ticked sc st m).idleThread = sc.idleThread ∧ (ticked sc st m).active = sc.active ∧
      (ticked sc st m).nextTid = sc.nextTid := by
  obtain ⟨-, -, h₁, h₂, h₃⟩ := preempted_same (sc.setState sc.current st)
  exact ⟨h₁, h₃, h₂⟩

theorem Exited.blocked {status : ℤ} {w : Option (ℕ × ℕ)} (hx : Exited s i n status s' w) (j t : ℕ)
    (hw : w = some (j, t)) :
    ∃ m, s.nodes j = some m ∧ m.thread = some t ∧ m.state = .blocked := by
  obtain ⟨m, hm, hmt⟩ := hx.thread j t hw
  exact ⟨m, hm, hmt, ((hx.woken j m hm).mp (by rw [hw]; rfl)).2⟩

theorem Exited.state_exited {status : ℤ} {w : Option (ℕ × ℕ)} (hx : Exited s i n status s' w)
    (h : Ok s l) (t : ℕ) : (Sys.woken s.sched w).state t = .exited ↔ s.sched.state t = .exited := by
  rw [state_woken]
  split
  · rename_i hw
    obtain ⟨⟨j, t'⟩, hw', rfl⟩ := Option.map_eq_some_iff.mp hw
    obtain ⟨m', hm', hmt, hb⟩ := hx.blocked j t' hw'
    rw [h.blocked.thread j m' t' hm' hb hmt]
    simp
  · rfl

theorem Ok.exit (h : Ok s l) (hr : s.running = some i) (hi : s.nodes i = some n)
    (hpid : n.pid ≠ 0) {status : ℤ} {b : Bool}
    (ht : schedTick ((s.exit i n status).sched.setState s.sched.current .exited) = some (sc, b)) :
    Ok { s.exit i n status with sched := sc } l := by
  obtain ⟨w, hx⟩ := h.exited hr hi hpid status
  obtain ⟨n', hn', hnz, hnt⟩ := h.running hr
  rw [hi] at hn'
  cases hn'
  have hwake := hx.blocked
  have hok := h.woken hwake
  obtain ⟨hcur, hidle, hact, -, hsame⟩ := woken_same s.sched w
  rw [hx.sched, ← hcur] at ht
  have hne : (Sys.woken s.sched w).idleThread ≠ (Sys.woken s.sched w).current := by
    rw [hcur, hidle]
    exact h.not_idle hr
  rcases hok.tick_cases (Or.inr hne) ht with ⟨hoff, -, -⟩ | ⟨-, m, -, rfl, -, hready, hok'⟩
  · -- before the start only the kernel process runs, and it does not exit
    have hboot := h.boot (hact.symm.trans hoff)
    rw [hr] at hboot
    cases hboot
    obtain ⟨k, hk, hk0, -⟩ := h.tree.kernel
    rw [hi] at hk
    cases hk
    exact absurd hk0 hpid
  · have hstop := fun {x} hx' t => stopped_ticked (x := x) hready hx' t
    obtain ⟨hidle', hact', -⟩ := ticked_fields (Sys.woken s.sched w) .exited m
    have hstate := hx.state_exited h
    refine ⟨hok', ?_, ?_, ⟨?_, ?_⟩, ⟨?_, ?_, ?_, ?_, ?_, ?_, ?_⟩, ?_⟩
    · rw [hx.nextPid]
      have htree := h.tree.exit hi hpid status
      refine htree.congr le_rfl (fun j m' =>
        { m' with state := if j = i then .zombie else if w.map Prod.fst = some j then .ready
          else m'.state }) ?_ (fun _ _ _ => rfl) (fun _ _ _ => rfl) ?_
      · intro j
        show (s.exit i n status).nodes j = _
        rw [hx.nodes, exit_nodes hi, Option.map_map]
        congr 1
        funext m'
        dsimp only [Function.comp]
        split_ifs <;> rfl
      · intro j m₁ hm₁
        rw [exit_nodes hi, Option.map_eq_some_iff] at hm₁
        obtain ⟨m', hm', rfl⟩ := hm₁
        dsimp only
        split_ifs with h₁ h₂
        · simp
        · have := ((hx.woken j m' hm').mp h₂).2
          simp [this]
        · rfl
    · refine h.threads.change hx.nodes (fun _ _ _ => ⟨rfl, rfl⟩) ?_ ?_ (hidle'.trans hidle) ?_ ?_
      · intro j m' hm' hz
        dsimp only
        split_ifs with h₁ h₂
        · rfl
        · have := ((hx.woken j m' hm').mp h₂).2
          rw [hz] at this
          cases this
        · exact hz
      · intro t
        obtain ⟨h₁, h₂⟩ := ticked_same (Sys.woken s.sched w) .exited m t
        exact ⟨h₁.trans (hsame t).1, h₂.trans (hsame t).2⟩
      · intro t j m' hp hm' hmt hne hz
        have hji : j ≠ i := by
          rintro rfl
          rw [hi] at hm'
          cases hm'
          rw [hnt] at hmt
          cases hmt
          apply hne
          rw [hstop (Or.inl rfl), hcur, if_pos rfl]
        dsimp only
        rw [if_neg hji]
        split
        · simp
        · exact hz
      · intro t hne hc
        apply hne
        rw [hstop (Or.inl rfl)]
        split
        · rfl
        · rwa [hstate]
    · intro j m₁ t hm₁ hb hmt
      rw [hx.nodes, Option.map_eq_some_iff] at hm₁
      obtain ⟨m', hm', rfl⟩ := hm₁
      dsimp only at hb hmt
      split_ifs at hb with hji hw
      have hs := h.blocked.thread j m' t hm' hb hmt
      show (ticked _ _ _).state t = _
      rw [hstop (Or.inr rfl), hcur, if_neg, state_woken, if_neg, hs]
      · intro hw'
        obtain ⟨⟨j', t'⟩, hw'', rfl⟩ := Option.map_eq_some_iff.mp hw'
        obtain ⟨m'', hm'', hmt'', hb''⟩ := hwake j' t' hw''
        obtain ⟨u, -, hu, hup, -⟩ := h.threads.thread j m' hm' (by rw [hb]; simp)
        obtain ⟨u', -, hu', hup', -⟩ := h.threads.thread j' m'' hm'' (by rw [hb'']; simp)
        rw [hmt] at hu
        rw [hmt''] at hu'
        cases hu
        cases hu'
        rw [hup] at hup'
        cases hup'
        exact hw (by rw [hw'']; rfl)
      · rintro rfl
        rw [h.sched.current_running] at hs
        cases hs
    · intro j m₁ hm₁ hb
      rw [hx.nodes, Option.map_eq_some_iff] at hm₁
      obtain ⟨m', hm', rfl⟩ := hm₁
      dsimp only at hb ⊢
      split_ifs at hb with hji hw
      refine (h.blocked.awaits j m' hm' hb).change hx.nodes ?_
      intro j' c hc hmatch hcz
      -- a child of a parent that is still blocked is neither the exiting process nor its child
      have hother : m'.pid ≠ n.ppid := fun hp => hw ((hx.woken j m' hm').mpr ⟨hp, hb⟩)
      have hj' : j' ≠ i := by
        rintro rfl
        rw [hi] at hc
        cases hc
        exact hother hmatch.1.symm
      have hpp : c.ppid ≠ n.pid := by
        intro hc'
        apply hji
        apply h.tree.distinct j i m' n hm' hi
        rw [← hc', hmatch.1]
      refine ⟨rfl, if_neg hpp, ?_⟩
      dsimp only
      rw [if_neg hj']
      split
      · simp
      · exact hcz
    · show ((s.exit i n status).exits.map Prod.fst).Nodup
      rw [hx.exits, List.map_append, List.nodup_append]
      refine ⟨h.logs.exits_nodup, by simp, ?_⟩
      intro p hp q hq
      simp only [List.map_cons, List.map_nil, List.mem_singleton] at hq
      rw [hq]
      rintro rfl
      exact h.logs.live i n hi hnz hp
    · intro e he
      show e.1 < (s.exit i n status).nextPid
      replace he : e ∈ (s.exit i n status).exits := he
      rw [hx.nextPid]
      rw [hx.exits] at he
      rcases List.mem_append.mp he with he | he
      · exact h.logs.exits_lt e he
      · rw [List.mem_singleton.mp he]
        exact (h.tree.bound i n hi).2
    · intro j m₁ hm₁ hz
      show _ ∈ (s.exit i n status).exits
      rw [hx.exits, List.mem_append]
      rw [hx.nodes, Option.map_eq_some_iff] at hm₁
      obtain ⟨m', hm', rfl⟩ := hm₁
      dsimp only at hz ⊢
      split_ifs at hz ⊢ with hji hw
      · right
        rw [hji, hi] at hm'
        cases hm'
        exact List.mem_singleton_self _
      · exact Or.inl (h.logs.zombie j m' hm' hz)
    · intro j m₁ hm₁ hz
      show _ ∉ (s.exit i n status).exits.map Prod.fst
      rw [hx.exits, List.map_append, List.mem_append, not_or]
      rw [hx.nodes, Option.map_eq_some_iff] at hm₁
      obtain ⟨m', hm', rfl⟩ := hm₁
      dsimp only at hz ⊢
      have hji : j ≠ i := fun hc => hz (if_pos hc)
      rw [if_neg hji] at hz
      refine ⟨h.logs.live j m' hm' ?_, ?_⟩
      · intro hc
        split_ifs at hz with hw
        · rw [((hx.woken j m' hm').mp hw).2] at hc
          cases hc
        · exact hz hc
      · simp only [List.map_cons, List.map_nil, List.mem_singleton]
        exact fun hc => hji (h.tree.distinct j i m' n hm' hi hc)
    · show ((s.exit i n status).reaps.map Reaped.pid).Nodup
      rw [hx.reaps]
      exact h.logs.reaps_nodup
    · intro r hr'
      show _ ∈ (s.exit i n status).exits
      replace hr' : r ∈ (s.exit i n status).reaps := hr'
      rw [hx.reaps] at hr'
      rw [hx.exits, List.mem_append]
      exact Or.inl (h.logs.reaps_exits r hr')
    · intro r hr' j m₁ hm₁
      replace hr' : r ∈ (s.exit i n status).reaps := hr'
      rw [hx.reaps] at hr'
      rw [hx.nodes, Option.map_eq_some_iff] at hm₁
      obtain ⟨m', hm', rfl⟩ := hm₁
      exact h.logs.reaps_gone r hr' j m' hm'
    · intro hoff
      have hoff' : s.sched.active = false := by
        rw [← hact, ← hact']
        exact hoff
      have hboot := h.boot hoff'
      rw [hr] at hboot
      cases hboot
      obtain ⟨k, hk, hk0, -⟩ := h.tree.kernel
      rw [hi] at hk
      cases hk
      exact absurd hk0 hpid

theorem Ok.ticked (h : Ok s l) {f : ℕ → Node → Node} {st : ThreadState} {m : ℕ}
    {nodes' : ℕ → Option Node} (hact : s.sched.active = true)
    (hready : if m = s.sched.current then st = .ready ∨ st = .running
      else s.sched.state m = .ready)
    (hok : (Scheduler.Ok.ticked s.sched st m).Ok l)
    (hn : ∀ j, nodes' j = (s.nodes j).map (f j))
    (hf : ∀ j n, s.nodes j = some n → Alike n (f j n))
    (hb : ∀ j n, s.nodes j = some n → (f j n).state = .blocked →
      (n.state = .blocked ∧ (f j n).waitPid = n.waitPid) ∨
      (n.thread = some s.sched.current ∧ st = .blocked ∧
        Awaits s.nodes n.pid (f j n).waitPid)) :
    Ok { s with nodes := nodes', sched := Scheduler.Ok.ticked s.sched st m } l := by
  obtain ⟨hidle, hact', -⟩ := ticked_fields s.sched st m
  have hstop := fun {x} hx t => stopped_ticked (x := x) hready hx t
  refine h.change hn hf le_rfl rfl rfl hok hidle (ticked_same _ _ _) ?_ ?_ ?_
  · intro t hne hc
    apply hne
    rw [hstop (Or.inl rfl), if_neg, hc]
    rintro rfl
    rw [h.sched.current_running] at hc
    cases hc
  · intro j n t hn' hbl ht
    rcases hb j n hn' hbl with ⟨hold, hsel⟩ | ⟨hcur, hst, haw⟩
    · have hs := h.blocked.thread j n t hn' hold ht
      rw [hsel]
      refine ⟨?_, h.blocked.awaits j n hn' hold⟩
      rw [hstop (Or.inr rfl), if_neg, hs]
      rintro rfl
      rw [h.sched.current_running] at hs
      cases hs
    · rw [ht] at hcur
      cases hcur
      refine ⟨?_, haw⟩
      rw [hstop (Or.inr rfl), if_pos rfl, hst]
  · intro hoff
    rw [show (_ : Scheduler).active = s.sched.active from hact', hact] at hoff
    cases hoff

theorem Ok.tick (h : Ok s l) {b : Bool} (ht : schedTick s.sched = some (sc, b)) :
    Ok { s with sched := sc } l := by
  rw [← h.sched.setState_running] at ht
  rcases h.sched.tick_cases (Or.inl rfl) ht with ⟨-, rfl, -⟩ | ⟨hact, m, -, rfl, -, hready, hok⟩
  · rw [h.sched.setState_running]
    exact h
  · exact h.ticked hact hready hok (map_self rfl) (fun _ n _ => Alike.refl n)
      fun j n _ hb => Or.inl ⟨hb, rfl⟩

theorem Ok.schedExit (h : Ok s l) (hact : s.sched.active = true)
    (hidle : s.sched.idleThread ≠ s.sched.current) (ht : schedExit s.sched = some sc) :
    Ok { s with sched := sc } l := by
  unfold Sched.schedExit at ht
  obtain ⟨⟨sc', b⟩, ht', rfl⟩ := Option.map_eq_some_iff.mp ht
  rcases h.sched.tick_cases (Or.inr hidle) ht' with ⟨hoff, -, -⟩ | ⟨-, m, -, rfl, -, hready, hok⟩
  · rw [hact] at hoff
    cases hoff
  · exact h.ticked hact hready hok (map_self rfl) (fun _ n _ => Alike.refl n)
      fun j n _ hb => Or.inl ⟨hb, rfl⟩

theorem Ok.block (h : Ok s l) (hr : s.running = some i) (hi : s.nodes i = some n) {sel : ℤ}
    (haw : Awaits s.nodes n.pid sel)
    (ht : schedTick (s.sched.setState s.sched.current .blocked) = some (sc, true)) :
    Ok { s.setNode i { n with state := .blocked, waitPid := sel } with sched := sc } l := by
  obtain ⟨n', hn', hz, hcur⟩ := h.running hr
  rw [hi] at hn'
  cases hn'
  rcases h.sched.tick_cases (Or.inr (h.not_idle hr)) ht with
    ⟨-, -, hb⟩ | ⟨hact, m, -, rfl, -, hready, hok⟩
  · cases hb
  · refine h.ticked hact hready hok (update_eq_map hi) ?_ ?_
    · intro j m' hm'
      split
      · rename_i he
        rw [he, hi] at hm'
        cases hm'
        exact ⟨rfl, rfl, rfl, rfl, rfl, by simp [hz]⟩
      · exact Alike.refl m'
    · intro j m' hm' hb
      split at hb
      · rename_i he
        rw [he, hi] at hm'
        cases hm'
        right
        rw [if_pos he]
        exact ⟨hcur, rfl, haw⟩
      · rename_i he
        left
        rw [if_neg he]
        exact ⟨hb, rfl⟩

theorem Ok.unblock (h : Ok s l) (hr : s.running = some i) (hi : s.nodes i = some n) {sel : ℤ}
    (ht : schedTick (s.sched.setState s.sched.current .blocked) = some (sc, false)) :
    Ok { s.setNode i { n with state := .running, waitPid := sel } with
      sched := sc.setState s.sched.current .running } l := by
  obtain ⟨n', hn', hz, hcur⟩ := h.running hr
  rw [hi] at hn'
  cases hn'
  rcases h.sched.tick_cases (Or.inr (h.not_idle hr)) ht with
    ⟨-, rfl, -⟩ | ⟨-, m, -, -, hb, hready, -⟩
  · have hback : ((s.sched.setState s.sched.current .blocked).setState s.sched.current
        .running) = s.sched := by
      rw [← h.sched.setState_running]
      simp [Scheduler.setState, Scheduler.setThread]
    rw [hback]
    refine h.change (update_eq_map hi) ?_ le_rfl rfl rfl h.sched rfl (fun _ => ⟨rfl, rfl⟩)
      (fun _ hne => hne) ?_ fun hf => ⟨hf, rfl⟩
    · intro j m' hm'
      split
      · rename_i he
        rw [he, hi] at hm'
        cases hm'
        exact ⟨rfl, rfl, rfl, rfl, rfl, by simp [hz]⟩
      · exact Alike.refl m'
    · intro j m' t hm' hb ht'
      split at hb
      · cases hb
      · rename_i he
        rw [if_neg he]
        exact ⟨h.blocked.thread j m' t hm' hb ht', h.blocked.awaits j m' hm' hb⟩
  · -- a blocked thread is not picked again, so the tick would have switched
    have he : m = s.sched.current := by
      by_contra hc
      simp [hc] at hb
    rw [if_pos he] at hready
    rcases hready with hc | hc <;> cases hc

theorem Ok.exec (h : Ok s l) {t cr3 : ℕ} (hi : s.nodes i = some n) (hz : n.state ≠ .zombie)
    (ht : n.thread = some t) :
    Ok { s.setNode i { n with cr3 := cr3 } with
      sched := s.sched.setThread t { s.sched.threads t with cr3 := cr3 } } l := by
  have hth : ∀ u, (s.sched.setThread t { s.sched.threads t with cr3 := cr3 }).threads u =
      { s.sched.threads u with cr3 := if u = t then cr3 else (s.sched.threads u).cr3 } := by
    intro u
    rw [threads_setThread]
    split
    · rename_i he
      rw [he]
    · rfl
  generalize hsc : s.sched.setThread t { s.sched.threads t with cr3 := cr3 } = sc at *
  have hnext : sc.next = s.sched.next := by
    funext u
    unfold Scheduler.next
    rw [hth]
  have hstate : sc.state = s.sched.state := by
    funext u
    unfold Scheduler.state
    rw [hth]
  have hrest : sc.nextTid = s.sched.nextTid ∧ sc.current = s.sched.current ∧
      sc.idleThread = s.sched.idleThread ∧ sc.active = s.sched.active := by
    rw [← hsc]
    exact ⟨rfl, rfl, rfl, rfl⟩
  obtain ⟨htid, hcur, hidle, hact⟩ := hrest
  have hmap := @update_eq_map s.nodes i n { n with cr3 := cr3 } hi
  have hf : ∀ j m, s.nodes j = some m →
      (if j = i then { n with cr3 := cr3 } else m).pid = m.pid ∧
      (if j = i then { n with cr3 := cr3 } else m).ppid = m.ppid ∧
      (if j = i then { n with cr3 := cr3 } else m).exitStatus = m.exitStatus ∧
      (if j = i then { n with cr3 := cr3 } else m).state = m.state ∧
      (if j = i then { n with cr3 := cr3 } else m).thread = m.thread ∧
      (if j = i then { n with cr3 := cr3 } else m).waitPid = m.waitPid := by
    intro j m hm
    split
    · rename_i he
      rw [he, hi] at hm
      cases hm
      exact ⟨rfl, rfl, rfl, rfl, rfl, rfl⟩
    · exact ⟨rfl, rfl, rfl, rfl, rfl, rfl⟩
  have hfrom : ∀ {j m'}, Function.update s.nodes i (some { n with cr3 := cr3 }) j = some m' →
      ∃ m, s.nodes j = some m ∧ m' = if j = i then { n with cr3 := cr3 } else m := by
    intro j m' hm'
    rw [hmap, Option.map_eq_some_iff] at hm'
    obtain ⟨m, hm, rfl⟩ := hm'
    exact ⟨m, hm, rfl⟩
  refine ⟨h.sched.congr hnext hstate htid hcur hidle, ?_, ⟨?_, ?_, ?_, ?_⟩, ⟨?_, ?_⟩, ?_, ?_⟩
  · exact h.tree.setNode hi rfl rfl Iff.rfl
  · intro j m' hm' hz'
    obtain ⟨m, hm, rfl⟩ := hfrom hm'
    obtain ⟨-, -, -, e₄, e₅, -⟩ := hf j m hm
    rw [e₄] at hz'
    obtain ⟨u, hu, h₁, h₂, h₃⟩ := h.threads.thread j m hm hz'
    refine ⟨u, hu, e₅.trans h₁, by rw [hth]; exact h₂, ?_⟩
    rw [hth]
    dsimp only
    by_cases hj : j = i
    · rw [hj, hi] at hm
      cases hm
      rw [ht] at h₁
      cases h₁
      rw [if_pos rfl, if_pos hj]
    · -- the threads of two processes differ
      have hut : u ≠ t := by
        rintro rfl
        obtain ⟨u', -, h₁', h₂', -⟩ := h.threads.thread i n hi hz
        rw [ht] at h₁'
        cases h₁'
        rw [h₂] at h₂'
        exact hj (Option.some.inj h₂')
      rw [if_neg hut, if_neg hj, h₃]
  · intro u j hp hne
    have hp' : (s.sched.threads u).proc = some j := by
      have hp₀ : (sc.threads u).proc = some j := hp
      rwa [hth] at hp₀
    have hne' : s.sched.state u ≠ .exited := by
      have hne₀ : sc.state u ≠ .exited := hne
      rwa [hstate] at hne₀
    obtain ⟨m, hm, hmz, hmt⟩ := h.threads.owner u j hp' hne'
    obtain ⟨-, -, -, e₄, e₅, -⟩ := hf j m hm
    exact ⟨_, (hmap j).trans (by rw [hm]; rfl), by rw [e₄]; exact hmz, by rw [e₅]; exact hmt⟩
  · intro u hu
    show (sc.threads u).proc = none
    rw [hth]
    exact h.threads.unlinked u hu
  · show (sc.threads sc.idleThread).proc = none
    rw [hidle, hth]
    exact h.threads.idle
  · intro j m' u hm' hb hu
    obtain ⟨m, hm, rfl⟩ := hfrom hm'
    obtain ⟨-, -, -, e₄, e₅, -⟩ := hf j m hm
    show sc.state u = _
    rw [hstate]
    exact h.blocked.thread j m u hm (e₄.symm.trans hb) (e₅.symm.trans hu)
  · intro j m' hm' hb
    obtain ⟨m, hm, rfl⟩ := hfrom hm'
    obtain ⟨e₁, -, -, e₄, -, e₆⟩ := hf j m hm
    rw [e₁, e₆]
    refine (h.blocked.awaits j m hm (e₄.symm.trans hb)).change hmap fun j' c hc _ hcz => ?_
    obtain ⟨e₁, e₂, -, e₄, -, -⟩ := hf j' c hc
    exact ⟨e₁, e₂, by rw [e₄]; exact hcz⟩
  · refine h.logs.change le_rfl hmap (fun j m hm => (hf j m hm).1) (fun j m hm => ?_)
      fun j m hm => (hf j m hm).2.2.1
    rw [(hf j m hm).2.2.2.1]
  · intro hoff
    show (sc.threads sc.current).proc = some 0
    rw [hcur, hth]
    exact h.boot (hact.symm.trans hoff)

theorem Ok.kthread (h : Ok s l) {cr3 t : ℕ} {f : Frame} {stack : Bool}
    (hk : schedCreateKthread s.sched cr3 f stack = (sc, t)) :
    ∃ l', Ok { s with sched := sc } l' := by
  obtain ⟨⟨l', hok, hsub, hsup⟩, hcur, hidle, hact, -, hproc, hsame⟩ := h.sched.kthread hk
  have hnew : s.sched.nextTid ∉ l := fun hin => absurd (h.sched.lt _ hin) (lt_irrefl _)
  have hin : ∀ t ∈ l, t ≠ s.sched.nextTid := fun t ht he => hnew (he ▸ ht)
  have hnone := h.threads.unlinked _ hnew
  refine ⟨l', hok, h.tree, ⟨?_, ?_, ?_, ?_⟩, ⟨?_, h.blocked.awaits⟩, h.logs, ?_⟩
  · intro j m hm hz
    obtain ⟨u, hu, h₁, h₂, h₃⟩ := h.threads.thread j m hm hz
    exact ⟨u, hsup u hu, h₁, (hproc u).trans h₂, (hsame u (hin u hu)).1.trans h₃⟩
  · intro u j hp hne
    have hp' : (s.sched.threads u).proc = some j := (hproc u).symm.trans hp
    have hu : u ≠ s.sched.nextTid := by
      rintro rfl
      rw [hnone] at hp'
      cases hp'
    exact h.threads.owner u j hp' fun hc => hne ((hsame u hu).2.trans hc)
  · intro u hu
    exact (hproc u).trans (h.threads.unlinked u fun hc => hu (hsup u hc))
  · show (sc.threads sc.idleThread).proc = none
    rw [hidle, hproc]
    exact h.threads.idle
  · intro j m u hm hb hu
    obtain ⟨u', hu', h₁, -, -⟩ := h.threads.thread j m hm (by rw [hb]; simp)
    rw [hu] at h₁
    cases h₁
    exact (hsame u (hin u hu')).2.trans (h.blocked.thread j m u hm hb hu)
  · intro hoff
    show (sc.threads sc.current).proc = some 0
    rw [hcur, hproc]
    exact h.boot (hact.symm.trans hoff)

theorem Ok.step (h : Ok s l) (hs : Step s s') : ∃ l', Ok s' l' := by
  cases hs with
  | failed hle =>
    exact ⟨l, h.quiet rfl hle rfl rfl rfl rfl rfl rfl rfl (fun hf => hf) fun _ => ⟨rfl, rfl⟩⟩
  | frame f =>
    have hth : ∀ u, (s.sched.setThread s.sched.current
        { s.sched.threads s.sched.current with frame := f }).threads u =
        { s.sched.threads u with
          frame := if u = s.sched.current then f else (s.sched.threads u).frame } := by
      intro u
      rw [threads_setThread]
      split
      · rename_i he
        rw [he]
      · rfl
    refine ⟨l, h.quiet rfl le_rfl rfl rfl ?_ ?_ rfl rfl rfl (fun hf => hf) fun u => ?_⟩
    · funext u
      unfold Scheduler.next
      rw [hth]
    · funext u
      unfold Scheduler.state
      rw [hth]
    · rw [hth]
      exact ⟨rfl, rfl⟩
  | born hc hnone hlive ha => exact h.born hc hnone hlive ha
  | exec hi hz ht => exact ⟨l, h.exec hi hz ht⟩
  | exit hr hi hpid ht => exact ⟨l, h.exit hr hi hpid ht⟩
  | reap hi hz => exact ⟨l, h.reap hi hz⟩
  | block hr hi haw ht => exact ⟨l, h.block hr hi haw ht⟩
  | unblock hr hi ht => exact ⟨l, h.unblock hr hi ht⟩
  | tick ht => exact ⟨l, h.tick ht⟩
  | kthread hk => exact h.kthread hk
  | schedExit hact hidle ht => exact ⟨l, h.schedExit hact hidle ht⟩
  | start =>
    exact ⟨l, h.quiet rfl le_rfl rfl rfl rfl rfl rfl rfl rfl (fun hf => nomatch hf)
      fun _ => ⟨rfl, rfl⟩⟩

end VoidOS.Proc.Sys
