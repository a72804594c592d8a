import VoidOS.ByteMem

namespace VoidOS.Tty

def ttyLineMax : ℕ := 256

def bs : UInt8 := 0x08
def lf : UInt8 := 0x0A
def cr : UInt8 := 0x0D
def del : UInt8 := 0x7F
def eot : UInt8 := 0x04
def blank : UInt8 := 0x20

/-- The variables of `tty.c`, with what the console has been sent and what waits in the UART.
`up` says whether `serial_drv_instance` gives an instance. -/
structure Terminal where
  line : ℕ → UInt8
  len : ℕ
  echo : Bool
  up : Bool
  out : List UInt8
  uart : List UInt8

def ttyInit (t : Terminal) : Terminal := { t with len := 0, echo := true }

def ttyOutc (t : Terminal) (c : UInt8) : Terminal :=
  if t.up then { t with out := t.out ++ [c] } else t

def ttyEchoByte (t : Terminal) (c : UInt8) : Terminal :=
  if !t.echo then t
  else if c = bs ∨ c = del then ttyOutc (ttyOutc (ttyOutc t bs) blank) bs
  else if c = lf ∨ c = cr then ttyOutc (ttyOutc t cr) lf
  else ttyOutc t c

def Terminal.stage (t : Terminal) (c : UInt8) : Terminal :=
  { t with line := Function.update t.line t.len c, len := t.len + 1 }

def printable (c : UInt8) : Bool := 0x20 ≤ c && c < 0x7F

def ttyFeed (t : Terminal) (raw : ℤ) : Terminal :=
  if raw < 0 then t
  else
    let c := UInt8.ofNat raw.toNat
    if c = lf ∨ c = cr then
      let t := ttyEchoByte t lf
      if t.len < ttyLineMax - 1 then t.stage lf else t
    else if c = bs ∨ c = del then
      if 0 < t.len then ttyEchoByte { t with len := t.len - 1 } bs else t
    else if c = eot then { t with len := 0 }
    else if printable c then
      if t.len < ttyLineMax - 1 then ttyEchoByte (t.stage c) c else t
    else if t.len < ttyLineMax - 1 then t.stage c
    else t

/-- The loop of `tty_read` over `serial_getchar`; the argument counts the spins left. -/
def pump : ℕ → Terminal → Terminal
  | 0, t => t
  | spins + 1, t =>
    match t.uart with
    | [] => t
    | raw :: rest => pump spins (ttyFeed { t with uart := rest } raw.toNat)

/-- The loop that hands out staged bytes; `out` holds the first `got` of them. It runs at most
once for each staged byte, which the first argument counts. -/
def handOut (t : Terminal) (n : ℕ) : ℕ → List UInt8 → List UInt8
  | 0, out => out
  | k + 1, out =>
    if out.length < n ∧ out.length < t.len then handOut t n k (out ++ [t.line out.length]) else out

/-- The loop that moves the rest of the line to its start, from index `i` on. -/
def consume (got len : ℕ) : ℕ → ℕ → (ℕ → UInt8) → ℕ → UInt8
  | 0, _, line => line
  | k + 1, i, line =>
    if i < len then consume got len k (i + 1) (Function.update line (i - got) (line i)) else line

/-- `tty_read`: the terminal afterwards and the bytes put into the buffer. -/
def ttyRead (t : Terminal) (n : ℕ) : Terminal × List UInt8 :=
  let t := pump 128 t
  let out := handOut t n t.len []
  let got := out.length
  ({ t with line := consume got t.len t.len got t.line, len := t.len - got }, out)

def staged (t : Terminal) : List UInt8 := (List.range t.len).map t.line

/-- A byte at the end of the line, if there is room. -/
def append (l : List UInt8) (c : UInt8) : List UInt8 := if l.length < 255 then l ++ [c] else l

def discipline (l : List UInt8) (c : UInt8) : List UInt8 :=
  if c = lf ∨ c = cr then append l lf
  else if c = bs ∨ c = del then l.dropLast
  else if c = eot then []
  else append l c

section Staged

variable {t : Terminal} {c : UInt8} {l : List UInt8}

@[simp] theorem staged_length (t : Terminal) : (staged t).length = t.len := by
  simp [staged]

theorem staged_stage (t : Terminal) (c : UInt8) : staged (t.stage c) = staged t ++ [c] := by
  have hkeep : (List.range t.len).map (Function.update t.line t.len c) =
      (List.range t.len).map t.line := by
    apply List.map_congr_left
    intro i hi
    exact Function.update_of_ne (Nat.ne_of_lt (List.mem_range.mp hi)) _ _
  simp [staged, Terminal.stage, List.range_succ, hkeep]

theorem staged_pop (t : Terminal) : staged { t with len := t.len - 1 } = (staged t).dropLast := by
  cases h : t.len <;> simp [staged, h, List.range_succ]

theorem ttyOutc_eq (t : Terminal) (c : UInt8) :
    ttyOutc t c = { t with out := t.out ++ if t.up then [c] else [] } := by
  unfold ttyOutc
  split <;> simp

def echoed (c : UInt8) : List UInt8 :=
  if c = bs ∨ c = del then [bs, blank, bs] else if c = lf ∨ c = cr then [cr, lf] else [c]

theorem ttyEchoByte_eq (t : Terminal) (c : UInt8) :
    ttyEchoByte t c = { t with out := t.out ++ if t.echo && t.up then echoed c else [] } := by
  unfold ttyEchoByte echoed
  rcases t with ⟨line, len, echo, up, out, uart⟩
  cases echo
  · simp
  · simp only [ttyOutc_eq, Bool.not_true, Bool.false_eq_true, if_false, Bool.true_and]
    cases up
    · simp
    · split
      · simp
      · split <;> simp

@[simp] theorem staged_ttyEchoByte : staged (ttyEchoByte t c) = staged t := by
  rw [ttyEchoByte_eq]
  rfl

@[simp] theorem ttyEchoByte_uart : (ttyEchoByte t c).uart = t.uart := by
  rw [ttyEchoByte_eq]

theorem staged_append (t : Terminal) (c : UInt8) :
    staged (if t.len < ttyLineMax - 1 then t.stage c else t) = append (staged t) c := by
  rw [append, staged_length, apply_ite staged, staged_stage]
  rfl

theorem staged_ttyFeed (t : Terminal) {raw : ℤ} (hraw : 0 ≤ raw) :
    staged (ttyFeed t raw) = discipline (staged t) (UInt8.ofNat raw.toNat) := by
  unfold ttyFeed discipline
  rw [if_neg (by omega)]
  dsimp only
  generalize UInt8.ofNat raw.toNat = c
  split
  · rw [staged_append, staged_ttyEchoByte]
  split
  · split
    · rw [staged_ttyEchoByte, staged_pop]
    · rename_i hpos
      have hnil : staged t = [] := List.length_eq_zero_iff.mp (by rw [staged_length]; omega)
      rw [hnil, List.dropLast_nil]
  split
  · rfl
  split
  · rw [← staged_append]
    split
    · rw [staged_ttyEchoByte]
    · rfl
  · exact staged_append t c

end Staged

section Reading

variable {t : Terminal} {n : ℕ}

theorem ttyFeed_uart (t : Terminal) (raw : ℤ) : (ttyFeed t raw).uart = t.uart := by
  have hstage : ∀ t : Terminal, ∀ c, (t.stage c).uart = t.uart := fun _ _ => rfl
  unfold ttyFeed
  dsimp only
  repeat' split
  all_goals simp [hstage]

theorem pump_eq (spins : ℕ) (t : Terminal) :
    staged (pump spins t) = (t.uart.take spins).foldl discipline (staged t) ∧
      (pump spins t).uart = t.uart.drop spins := by
  induction spins generalizing t with
  | zero => exact ⟨rfl, rfl⟩
  | succ spins ih =>
    rw [pump]
    cases hu : t.uart with
    | nil =>
      dsimp only
      exact ⟨rfl, hu⟩
    | cons raw rest =>
      obtain ⟨h₁, h₂⟩ := ih (ttyFeed { t with uart := rest } raw.toNat)
      rw [ttyFeed_uart] at h₁ h₂
      dsimp only
      rw [h₁, h₂, staged_ttyFeed _ (by omega), Int.toNat_natCast, UInt8.ofNat_toNat]
      exact ⟨rfl, rfl⟩

/-- What the loop has handed out stays, and the bytes that follow it are added. -/
theorem handOut_eq (k got : ℕ) (hk : t.len ≤ got + k) (hgot : got ≤ t.len) (hn : got ≤ n) :
    handOut t n k ((staged t).take got) = (staged t).take n := by
  induction k generalizing got with
  | zero =>
    rw [handOut, List.take_of_length_le (by rw [staged_length]; omega),
      List.take_of_length_le (by rw [staged_length]; omega)]
  | succ k ih =>
    have hlen : ((staged t).take got).length = got := by
      rw [List.length_take, staged_length]
      omega
    rw [handOut, hlen]
    split
    · rename_i h
      have hnext : (staged t).take got ++ [t.line got] = (staged t).take (got + 1) := by
        rw [List.take_succ_eq_append_getElem (by rw [staged_length]; exact h.2)]
        simp [staged]
      rw [hnext]
      exact ih (got + 1) (by omega) (by omega) (by omega)
    · rename_i h
      by_cases he : got = n
      · rw [he]
      · rw [List.take_of_length_le (by rw [staged_length]; omega),
          List.take_of_length_le (by rw [staged_length]; omega)]

theorem consume_eq (got len : ℕ) (k i : ℕ) (line : ℕ → UInt8) (hgot : got ≤ i) (hk : len ≤ i + k) :
    ∀ j, consume got len k i line j =
      if i - got ≤ j ∧ j + got < len then line (j + got) else line j := by
  induction k generalizing i line with
  | zero =>
    intro j
    rw [consume, if_neg (by omega)]
  | succ k ih =>
    intro j
    rw [consume]
    split
    · rename_i hi
      rw [ih (i + 1) _ (by omega) (by omega)]
      by_cases hj : j = i - got
      · rw [if_neg (by omega), if_pos (by omega), hj, Function.update_self]
        congr 1
        omega
      · rw [Function.update_of_ne hj]
        by_cases hr : i - got ≤ j ∧ j + got < len
        · rw [if_pos (by omega), if_pos hr, Function.update_of_ne (by omega)]
        · rw [if_neg (by omega), if_neg hr]
    · rw [if_neg (by omega)]

theorem ttyRead_eq (t : Terminal) (n : ℕ) :
    (ttyRead t n).2 = (staged (pump 128 t)).take n ∧
      staged (ttyRead t n).1 = (staged (pump 128 t)).drop n ∧
      (ttyRead t n).1.uart = t.uart.drop 128 := by
  set p := pump 128 t with hp
  have hout : handOut p n p.len [] = (staged p).take n := by
    have h := @handOut_eq p n p.len 0 (by omega) (by omega) (by omega)
    rwa [List.take_zero] at h
  have hgot : (handOut p n p.len []).length = min n p.len := by
    rw [hout, List.length_take, staged_length]
  refine ⟨hout, ?_, (pump_eq 128 t).2⟩
  rw [ttyRead, ← hp]
  dsimp only
  rw [hgot]
  apply List.ext_getElem
  · simp
    omega
  · intro j h₁ h₂
    have hj : j < p.len - min n p.len := by simpa [staged] using h₁
    simp only [staged, List.getElem_map, List.getElem_range, List.getElem_drop]
    rw [consume_eq _ _ _ _ _ (le_refl _) (by omega), if_pos (by omega)]
    congr 1
    omega

end Reading

/-- What happens to the terminal: a byte is fed, bytes reach the UART, a process reads. -/
inductive Op
  | feed (raw : ℤ)
  | arrive (bytes : List UInt8)
  | read (n : ℕ)

def step (t : Terminal) : Op → Terminal × List UInt8
  | .feed raw => (ttyFeed t raw, [])
  | .arrive bytes => ({ t with uart := t.uart ++ bytes }, [])
  | .read n => ttyRead t n

/-- A line that is a list, with the bytes that wait in the UART. -/
structure Line where
  staged : List UInt8
  uart : List UInt8

def Line.cooked (l : Line) : List UInt8 := (l.uart.take 128).foldl discipline l.staged

def Line.step (l : Line) : Op → Line × List UInt8
  | .feed raw =>
    (⟨if raw < 0 then l.staged else discipline l.staged (UInt8.ofNat raw.toNat), l.uart⟩, [])
  | .arrive bytes => (⟨l.staged, l.uart ++ bytes⟩, [])
  | .read n => (⟨l.cooked.drop n, l.uart.drop 128⟩, l.cooked.take n)

section Runs

variable {σ : Type*}

/-- The state after a list of operations, and what each of them gave. -/
def run (step : σ → Op → σ × List UInt8) (s : σ) : List Op → σ × List (List UInt8)
  | [] => (s, [])
  | op :: ops =>
    let rest := run step (step s op).1 ops
    (rest.1, (step s op).2 :: rest.2)

def Terminal.abs (t : Terminal) : Line := ⟨Tty.staged t, t.uart⟩

theorem step_refines (t : Terminal) (op : Op) :
    (step t op).1.abs = (t.abs.step op).1 ∧ (step t op).2 = (t.abs.step op).2 := by
  cases op with
  | feed raw =>
    refine ⟨?_, rfl⟩
    simp only [step, Line.step, Terminal.abs, ttyFeed_uart, Line.mk.injEq, and_true]
    by_cases hraw : raw < 0
    · rw [if_pos hraw, ttyFeed, if_pos hraw]
    · rw [if_neg hraw, staged_ttyFeed t (by omega)]
  | arrive bytes => exact ⟨rfl, rfl⟩
  | read n =>
    obtain ⟨hout, hrest, huart⟩ := ttyRead_eq t n
    rw [(pump_eq 128 t).1] at hout hrest
    refine ⟨?_, hout⟩
    rw [step, Line.step, Terminal.abs, hrest, huart]
    rfl

theorem run_refines (t : Terminal) (ops : List Op) :
    (run step t ops).1.abs = (run Line.step t.abs ops).1 ∧
      (run step t ops).2 = (run Line.step t.abs ops).2 := by
  induction ops generalizing t with
  | nil => exact ⟨rfl, rfl⟩
  | cons op ops ih =>
    obtain ⟨hs, ho⟩ := step_refines t op
    obtain ⟨hr, hrs⟩ := ih (step t op).1
    rw [hs] at hr hrs
    exact ⟨hr, List.cons_eq_cons.mpr ⟨ho, hrs⟩⟩

theorem discipline_length {l : List UInt8} (h : l.length ≤ 255) (c : UInt8) :
    (discipline l c).length ≤ 255 := by
  have happend : ∀ c, (append l c).length ≤ 255 := by
    intro c
    unfold append
    split
    · rw [List.length_append, List.length_singleton]
      omega
    · exact h
  unfold discipline
  split
  · exact happend lf
  split
  · rw [List.length_dropLast]
    omega
  split
  · exact Nat.zero_le 255
  · exact happend c

theorem foldl_discipline_length {l : List UInt8} (h : l.length ≤ 255) (bytes : List UInt8) :
    (bytes.foldl discipline l).length ≤ 255 := by
  induction bytes generalizing l with
  | nil => exact h
  | cons c bytes ih => exact ih (discipline_length h c)

theorem Line.step_length {l : Line} (h : l.staged.length ≤ 255) (op : Op) :
    (l.step op).1.staged.length ≤ 255 := by
  cases op with
  | feed raw =>
    simp only [Line.step]
    split
    · exact h
    · exact discipline_length h _
  | arrive bytes => exact h
  | read n =>
    have hcooked : l.cooked.length ≤ 255 := foldl_discipline_length h _
    simp only [Line.step, List.length_drop]
    omega

theorem Line.run_length {l : Line} (h : l.staged.length ≤ 255) (ops : List Op) :
    (run Line.step l ops).1.staged.length ≤ 255 := by
  induction ops generalizing l with
  | nil => exact h
  | cons op ops ih => exact ih (Line.step_length h op)

/-- With a quiet UART, reads of any sizes hand out the line piece by piece. -/
theorem Line.reads_flatten (l : List UInt8) (ns : List ℕ) :
    (run Line.step ⟨l, []⟩ (ns.map .read)).2.flatten = l.take ns.sum := by
  induction ns generalizing l with
  | nil => simp [run]
  | cons n ns ih =>
    have hcooked : Line.cooked ⟨l, []⟩ = l := rfl
    rw [List.map_cons, run, Line.step, hcooked, List.drop_nil]
    dsimp only
    rw [List.flatten_cons, ih, List.sum_cons, List.take_add]

/-- The array with its length is a list of at most 255 bytes under every sequence of
operations, and every read hands out what the list gives. -/
theorem terminal_refines_list (t : Terminal) (ops : List Op) :
    let r := run step (ttyInit t) ops
    let l := run Line.step ⟨[], t.uart⟩ ops
    r.1.len ≤ 255 ∧ staged r.1 = l.1.staged ∧ r.2 = l.2 ∧
      ∀ ns : List ℕ, (run step { r.1 with uart := [] } (ns.map .read)).2.flatten =
        (staged r.1).take ns.sum := by
  intro r l
  obtain ⟨habs, hout⟩ := run_refines (ttyInit t) ops
  have hstaged : staged r.1 = l.1.staged := congrArg Line.staged habs
  refine ⟨?_, hstaged, hout, fun ns => ?_⟩
  · rw [← staged_length, hstaged]
    exact @Line.run_length ⟨[], t.uart⟩ (Nat.zero_le 255) ops
  · rw [(run_refines _ _).2]
    exact Line.reads_flatten _ ns

end Runs

end VoidOS.Tty
