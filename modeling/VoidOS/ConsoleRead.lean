import VoidOS.RecvLoss
import VoidOS.Tty

namespace VoidOS.Tty

open ByteMem Mm

def sysReadTty (m : Mem) (cr3 : ℕ) (t : Terminal) (ubuf count : ℕ) : Mem × Terminal × ℤ :=
  if count = 0 then (m, t, 0)
  else
    let toRead := if 256 < count then 256 else count
    let (t, buf) := ttyRead t toRead
    if 0 < buf.length then
      match copyToUser m cr3 ubuf buf with
      | (m, false) => (m, t, veFault)
      | (m, true) => (m, t, buf.length)
    else (m, t, buf.length)

/-- What can follow a call: bytes arrive, and calls that succeed hand out up to 256 bytes. -/
def Follows : Op → Prop
  | .feed _ => False
  | .arrive _ => True
  | .read n => 0 < n ∧ n ≤ 256

/-- After a call that fails every later call delivers what it would have delivered without it. -/
def KeepsInput (m : Mem) (cr3 : ℕ) (t : Terminal) (ubuf count : ℕ) : Prop :=
  (sysReadTty m cr3 t ubuf count).2.2 < 0 → ∀ ops, (∀ op ∈ ops, Follows op) →
    (run step (sysReadTty m cr3 t ubuf count).2.1 ops).2 = (run step t ops).2

/-- The number of bytes that a call takes off the line. -/
def taken (t : Terminal) (count : ℕ) : ℕ := min (min count 256) t.abs.cooked.length

section Totals

theorem discipline_le {l l' : List UInt8} {d : ℕ} (h : l.length ≤ d + l'.length) (c : UInt8) :
    (discipline l c).length ≤ d + (discipline l' c).length := by
  have happend : ∀ c, (append l c).length ≤ d + (append l' c).length := by
    intro c
    have hlen : ∀ l : List UInt8, (append l c).length = if l.length < 255 then l.length + 1
        else l.length := by
      intro l
      rw [append, apply_ite List.length, List.length_append, List.length_singleton]
    rw [hlen, hlen]
    split <;> split <;> omega
  unfold discipline
  split
  · exact happend lf
  split
  · simp only [List.length_dropLast]
    omega
  split
  · exact Nat.zero_le _
  · exact happend c

theorem foldl_discipline_le (bytes : List UInt8) {l l' : List UInt8} {d : ℕ}
    (h : l.length ≤ d + l'.length) :
    (bytes.foldl discipline l).length ≤ d + (bytes.foldl discipline l').length := by
  induction bytes generalizing l l' with
  | nil => exact h
  | cons c bytes ih => exact ih (discipline_le h c)

def total (l : Line) (k : ℕ) : ℕ :=
  (run Line.step l (List.replicate k (.read 256))).2.flatten.length

theorem total_succ {l : List UInt8} (hl : l.length ≤ 255) (u : List UInt8) (k : ℕ) :
    total ⟨l, u⟩ (k + 1) =
      ((u.take 128).foldl discipline l).length + total ⟨[], u.drop 128⟩ k := by
  have hshort := foldl_discipline_length hl (u.take 128)
  have hcooked : Line.cooked ⟨l, u⟩ = (u.take 128).foldl discipline l := rfl
  rw [total, List.replicate_succ, run, Line.step, hcooked, List.drop_of_length_le (by omega),
    List.take_of_length_le (by omega), List.flatten_cons, List.length_append]
  rfl

theorem nil_short : ([] : List UInt8).length ≤ 255 := Nat.zero_le 255

theorem total_le {l : List UInt8} (hl : l.length ≤ 255) (u : List UInt8) (k : ℕ) :
    total ⟨l, u⟩ k ≤ l.length + total ⟨[], u⟩ k := by
  cases k with
  | zero => exact Nat.zero_le _
  | succ k =>
    have hcook := @foldl_discipline_le (u.take 128) l [] l.length (by omega)
    rw [total_succ hl, total_succ nil_short]
    omega

theorem total_exhausted (k : ℕ) (u : List UInt8) (hu : u.length ≤ k) :
    total ⟨[], u⟩ (k + 1) = total ⟨[], u⟩ k := by
  induction k generalizing u with
  | zero =>
    obtain rfl := List.length_eq_zero_iff.mp (Nat.le_zero.mp hu)
    rfl
  | succ k ih =>
    have hdrop : (u.drop 128).length ≤ k := by
      rw [List.length_drop]
      omega
    rw [total_succ nil_short u (k + 1), total_succ nil_short u k, ih _ hdrop]

end Totals

section Calls

variable {ph : Phys} {sp : Space} {t : Terminal} {ubuf count : ℕ}

theorem sysReadTty_eq (m : Mem) (cr3 : ℕ) (hcount : count ≠ 0) :
    sysReadTty m cr3 t ubuf count =
      let r := ttyRead t (min count 256)
      let c := copyToUser m cr3 ubuf r.2
      if 0 < r.2.length then (c.1, r.1, if c.2 then (r.2.length : ℤ) else veFault)
      else (m, r.1, (r.2.length : ℤ)) := by
  have hread : (if 256 < count then 256 else count) = min count 256 := by
    split <;> omega
  rw [sysReadTty, if_neg hcount]
  dsimp only
  rw [hread]
  generalize ttyRead t (min count 256) = r
  rcases copyToUser m cr3 ubuf r.2 with ⟨m', _ | _⟩ <;> rfl

theorem sysReadTty_line (m : Mem) (cr3 : ℕ) (hcount : count ≠ 0) :
    (sysReadTty m cr3 t ubuf count).2.1 = (ttyRead t (min count 256)).1 := by
  rw [sysReadTty_eq m cr3 hcount]
  dsimp only
  split <;> rfl

theorem ttyRead_taken (t : Terminal) (count : ℕ) :
    (ttyRead t (min count 256)).2.length = taken t count := by
  rw [(ttyRead_eq t _).1, (pump_eq 128 t).1, List.length_take]
  rfl

theorem sysReadTty_fails (hok : SpaceOk ph sp) :
    (sysReadTty ph.ram sp.cr3 t ubuf count).2.2 < 0 ↔
      0 < taken t count ∧ ¬ UserRange ph.ram sp.cr3 ubuf (taken t count) true := by
  by_cases hcount : count = 0
  · have hzero : taken t count = 0 := by
      rw [taken, hcount, Nat.zero_min, Nat.zero_min]
    rw [sysReadTty, if_pos hcount, hzero]
    simp
  have hcopy := (@copyToUser_data ph sp ph.ram ubuf hok (fun _ _ => rfl)
    (ttyRead t (min count 256)).2).1
  rw [ttyRead_taken] at hcopy
  rw [sysReadTty_eq _ _ hcount, ← hcopy]
  dsimp only
  rw [ttyRead_taken]
  by_cases hpos : 0 < taken t count
  · rw [if_pos hpos]
    dsimp only
    cases (copyToUser ph.ram sp.cr3 ubuf (ttyRead t (min count 256)).2).2
    · exact iff_of_true (show veFault < 0 by decide) ⟨hpos, Bool.false_ne_true⟩
    · exact iff_of_false (by simp) fun h => h.2 rfl
  · rw [if_neg hpos]
    exact iff_of_false (by simp) fun h => hpos h.1

end Calls

/-- A call that fails loses the bytes it has taken off the line, and later calls deliver less. -/
theorem failed_read_keeps_input {ph : Phys} {sp : Space} (hok : SpaceOk ph sp) (t : Terminal)
    (hlen : t.len ≤ 255) (ubuf count : ℕ) :
    KeepsInput ph.ram sp.cr3 t ubuf count ↔
      taken t count = 0 ∨ UserRange ph.ram sp.cr3 ubuf (taken t count) true := by
  constructor
  · intro hkeep
    by_contra hno
    push Not at hno
    have hpos : 0 < taken t count := Nat.pos_of_ne_zero hno.1
    have hcount : count ≠ 0 := by
      intro h
      rw [taken, h, Nat.zero_min, Nat.zero_min] at hpos
      exact Nat.lt_irrefl 0 hpos
    have hsame := hkeep ((sysReadTty_fails hok).mpr ⟨hpos, hno.2⟩)
      (List.replicate (t.uart.length + 1) (.read 256)) (by
        intro op hop
        rw [List.eq_of_mem_replicate hop]
        exact ⟨by decide, le_refl 256⟩)
    rw [sysReadTty_line _ _ hcount, (run_refines _ _).2, (run_refines _ _).2] at hsame
    obtain ⟨-, hrest, huart⟩ := ttyRead_eq t (min count 256)
    rw [(pump_eq 128 t).1] at hrest
    -- the two lines, read to the end
    have htotal := congrArg (fun ls => ls.flatten.length) hsame
    have hshort : (staged t).length ≤ 255 := by rwa [staged_length]
    have hcooked : t.abs.cooked.length ≤ 255 := foldl_discipline_length hshort _
    have hwith : total (ttyRead t (min count 256)).1.abs (t.uart.length + 1) =
        total t.abs (t.uart.length + 1) := htotal
    have habs : (ttyRead t (min count 256)).1.abs =
        ⟨t.abs.cooked.drop (min count 256), t.uart.drop 128⟩ := by
      rw [Terminal.abs, hrest, huart]
      rfl
    have hless := @total_le (t.abs.cooked.drop (min count 256)) (by rw [List.length_drop]; omega)
      (t.uart.drop 128) (t.uart.length + 1)
    rw [total_exhausted _ _ (by rw [List.length_drop]; omega), List.length_drop] at hless
    have hall : total t.abs (t.uart.length + 1) =
        t.abs.cooked.length + total ⟨[], t.uart.drop 128⟩ t.uart.length :=
      total_succ hshort t.uart t.uart.length
    rw [habs, hall] at hwith
    unfold taken at hpos
    omega
  · rintro hfits hneg
    obtain ⟨hpos, hbad⟩ := (sysReadTty_fails hok).mp hneg
    exact absurd hfits (not_or.mpr ⟨hpos.ne', hbad⟩)

def twoStaged : Terminal := ⟨fun i => if i = 0 then 0x61 else 0x62, 2, true, true, [], []⟩

theorem failed_read_keeps_input_page :
    KeepsInput (twoPageMem 0x5007 0x6007) 0x1000 twoStaged 0x5FF000 4 := by
  have hok : SpaceOk (twoPagePhys 0x5007 0x6007 7 64) (twoPageSpace 0x401000) :=
    twoPageSpace_ok 0x401000 (le_refl 7) (show 7 ≤ 64 by decide) (by decide)
  have hrange : UserRange (twoPageMem 0x5007 0x6007) 0x1000 0x5FF000 2 true :=
    userRangeOk_range.mp (by decide +kernel)
  exact (failed_read_keeps_input hok twoStaged (by decide) 0x5FF000 4).mpr (Or.inr hrange)

/-- A buffer that is not mapped: the call fails, and the staged bytes are gone. -/
theorem failed_read_loses_line :
    SpaceOk (twoPagePhys 0x5007 0x6007 7 64) (twoPageSpace 0x401000) ∧
      (sysReadTty (twoPageMem 0x5007 0x6007) 0x1000 twoStaged 8 4).2.2 = veFault ∧
      (run step twoStaged [.read 4]).2 = [[0x61, 0x62]] ∧
      (run step (sysReadTty (twoPageMem 0x5007 0x6007) 0x1000 twoStaged 8 4).2.1 [.read 4]).2 =
        [[]] ∧
      ¬ KeepsInput (twoPageMem 0x5007 0x6007) 0x1000 twoStaged 8 4 := by
  have hfault : (sysReadTty (twoPageMem 0x5007 0x6007) 0x1000 twoStaged 8 4).2.2 = veFault := by
    decide +kernel
  have hwithout : (run step twoStaged [.read 4]).2 = [[0x61, 0x62]] := by decide
  have hafter : (run step (sysReadTty (twoPageMem 0x5007 0x6007) 0x1000 twoStaged 8 4).2.1
      [.read 4]).2 = [[]] := by decide +kernel
  refine ⟨twoPageSpace_ok 0x401000 (le_refl 7) (show 7 ≤ 64 by decide) (by decide), hfault,
    hwithout, hafter, fun hkeep => ?_⟩
  have hsame := hkeep (by rw [hfault]; decide) [.read 4] (by simp [Follows])
  rw [hafter, hwithout] at hsame
  cases hsame

end VoidOS.Tty
