import Mathlib

/-!
# Programs that ask for what they read

A program asks a question, gets an answer and goes on. It runs against an oracle,
which answers every question, or against a handler, which has a state and may
fail. If the handler answers as the oracle does whenever it answers, its run is
fixed by the list of questions that the oracle's run asks.
-/

namespace ReadProg

/-- A program with questions `ι`, answers `β` and a result in `α`. -/
inductive Prog (ι β α : Type)
  | done (a : α)
  | ask (i : ι) (k : β → Prog ι β α)

variable {ι β α γ σ ε : Type}

namespace Prog

def bind : Prog ι β α → (α → Prog ι β γ) → Prog ι β γ
  | .done a, f => f a
  | .ask i k, f => .ask i fun b => (k b).bind f

instance : Monad (Prog ι β) where
  pure := .done
  bind := bind

def run (f : ι → β) : Prog ι β α → α
  | .done a => a
  | .ask i k => (k (f i)).run f

def trace (f : ι → β) : Prog ι β α → List ι
  | .done _ => []
  | .ask i k => i :: (k (f i)).trace f

def exec (h : σ → ι → Except ε (β × σ)) : Prog ι β α → σ → Except ε (α × σ)
  | .done a, s => .ok (a, s)
  | .ask i k, s =>
    match h s i with
    | .error e => .error e
    | .ok (b, s) => (k b).exec h s

end Prog

/-- The handler's state after a list of questions. -/
def drive (h : σ → ι → Except ε (β × σ)) : List ι → σ → Except ε σ
  | [], s => .ok s
  | i :: is, s =>
    match h s i with
    | .error e => .error e
    | .ok (_, s) => drive h is s

namespace Prog

variable (f : ι → β)

@[simp] theorem run_pure (a : α) : (pure a : Prog ι β α).run f = a := rfl

@[simp] theorem trace_pure (a : α) : (pure a : Prog ι β α).trace f = [] := rfl

@[simp] theorem run_ask (i : ι) (k : β → Prog ι β α) : (ask i k).run f = (k (f i)).run f := rfl

@[simp] theorem trace_ask (i : ι) (k : β → Prog ι β α) :
    (ask i k).trace f = i :: (k (f i)).trace f := rfl

@[simp] theorem run_done (a : α) : (done a : Prog ι β α).run f = a := rfl

@[simp] theorem trace_done (a : α) : (done a : Prog ι β α).trace f = [] := rfl

@[simp] theorem run_bind (p : Prog ι β α) (q : α → Prog ι β γ) :
    (p >>= q).run f = (q (p.run f)).run f := by
  induction p with
  | done a => rfl
  | ask i k ih => exact ih (f i)

@[simp] theorem trace_bind (p : Prog ι β α) (q : α → Prog ι β γ) :
    (p >>= q).trace f = p.trace f ++ (q (p.run f)).trace f := by
  induction p with
  | done a => rfl
  | ask i k ih => exact congrArg (i :: ·) (ih (f i))

@[simp] theorem run_map (g : α → γ) (p : Prog ι β α) : (g <$> p).run f = g (p.run f) :=
  run_bind f p (fun a => pure (g a))

@[simp] theorem trace_map (g : α → γ) (p : Prog ι β α) : (g <$> p).trace f = p.trace f := by
  have h := trace_bind f p fun a => (pure (g a) : Prog ι β γ)
  rw [trace_pure, List.append_nil] at h
  exact h

/-- Whatever the answers are, all questions satisfy `P`. -/
def Asks (P : ι → Prop) : Prog ι β α → Prop
  | .done _ => True
  | .ask i k => P i ∧ ∀ b, (k b).Asks P

theorem asks_pure (P : ι → Prop) (a : α) : (pure a : Prog ι β α).Asks P := trivial

theorem Asks.bind {P : ι → Prop} {p : Prog ι β α} {q : α → Prog ι β γ} (hp : p.Asks P)
    (hq : ∀ a, (q a).Asks P) : (p >>= q).Asks P := by
  induction p with
  | done a => exact hq a
  | ask i k ih => exact ⟨hp.1, fun b => ih b (hp.2 b)⟩

theorem Asks.ite {P : ι → Prop} {c : Prop} [Decidable c] {p q : Prog ι β α} (hp : p.Asks P)
    (hq : q.Asks P) : (if c then p else q).Asks P := by
  split
  · exact hp
  · exact hq

theorem Asks.trace {P : ι → Prop} {p : Prog ι β α} (h : p.Asks P) : ∀ i ∈ p.trace f, P i := by
  induction p with
  | done a =>
    intro i hi
    cases hi
  | ask i k ih =>
    intro j hj
    rcases List.mem_cons.mp hj with rfl | hj
    · exact h.1
    · exact ih (f i) (h.2 _) j hj

theorem exec_bind (h : σ → ι → Except ε (β × σ)) (p : Prog ι β α) (q : α → Prog ι β γ) (s : σ) :
    (p >>= q).exec h s =
      match p.exec h s with
      | .error e => .error e
      | .ok (a, s) => (q a).exec h s := by
  induction p generalizing s with
  | done a => rfl
  | ask i k ih =>
    change (ask i fun b => k b >>= q).exec h s = _
    rw [exec, exec]
    cases h s i with
    | error e => rfl
    | ok r => exact ih r.1 r.2

/-- A handler that answers as the oracle does runs through the oracle's questions. -/
theorem exec_eq_drive {h : σ → ι → Except ε (β × σ)} {Inv : σ → Prop}
    (hh : ∀ s i b s', Inv s → h s i = .ok (b, s') → b = f i ∧ Inv s')
    (p : Prog ι β α) {s : σ} (hs : Inv s) :
    p.exec h s = (drive h (p.trace f) s).map fun s' => (p.run f, s') := by
  induction p generalizing s with
  | done a => rfl
  | ask i k ih =>
    rw [exec, trace_ask, run_ask, drive]
    cases hi : h s i with
    | error e => rfl
    | ok r =>
      obtain ⟨hb, hinv⟩ := hh s i r.1 r.2 hs hi
      rw [← hb]
      exact ih r.1 hinv

/-- Runs that end well: if a step ends well exactly from a good state with a question that
satisfies `P`, and is then answered as by the oracle, a run ends well exactly from a good
state if all questions of the oracle's run satisfy `P`. -/
theorem exec_good_iff {h : σ → ι → Except ε (β × σ)} {Good : σ → Prop} {P : ι → Prop}
    (hstep : ∀ s i b s', h s i = .ok (b, s') → Good s' → Good s ∧ P i ∧ b = f i)
    (hgo : ∀ s i, Good s → P i → ∃ s', h s i = .ok (f i, s') ∧ Good s')
    (p : Prog ι β α) (s : σ) :
    (∃ a s', p.exec h s = .ok (a, s') ∧ Good s') ↔ Good s ∧ ∀ i ∈ p.trace f, P i := by
  induction p generalizing s with
  | done a =>
    constructor
    · rintro ⟨_, _, heq, hg⟩
      cases heq
      exact ⟨hg, fun i hi => by cases hi⟩
    · rintro ⟨hg, -⟩
      exact ⟨a, s, rfl, hg⟩
  | ask i k ih =>
    rw [trace_ask, List.forall_mem_cons, exec]
    constructor
    · rintro ⟨a, s', heq, hg⟩
      cases hi : h s i with
      | error e =>
        rw [hi] at heq
        cases heq
      | ok r =>
        rw [hi] at heq
        obtain ⟨hg', hrest⟩ := (ih r.1 r.2).mp ⟨a, s', heq, hg⟩
        obtain ⟨hgood, hP, hb⟩ := hstep s i r.1 r.2 hi hg'
        exact ⟨hgood, hP, hb ▸ hrest⟩
    · rintro ⟨hg, hP, hrest⟩
      obtain ⟨s', hi, hg'⟩ := hgo s i hg hP
      rw [hi]
      exact (ih (f i) s').mpr ⟨hg', hrest⟩

end Prog

end ReadProg
