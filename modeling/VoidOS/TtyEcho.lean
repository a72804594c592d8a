import VoidOS.Tty

namespace VoidOS.Tty

structure Screen where
  cells : List UInt8
  col : ℕ

/-- A backspace moves the cursor, any other byte overwrites and advances. -/
def Screen.put (s : Screen) (c : UInt8) : Screen :=
  if c = bs then { s with col := s.col - 1 }
  else ⟨if s.col < s.cells.length then s.cells.set s.col c else s.cells ++ [c], s.col + 1⟩

def Screen.write (s : Screen) (out : List UInt8) : Screen := out.foldl Screen.put s

/-- What an empty screen shows after the output, without the blanks at its end. -/
def shown (out : List UInt8) : List UInt8 :=
  (Screen.write ⟨[], 0⟩ out).cells.rdropWhile (· == blank)

def printed (l : List UInt8) : List UInt8 := l.filter printable

/-- A screen that shows `l` with the cursor behind it, over blanks. -/
def showing (l : List UInt8) (k : ℕ) : Screen := ⟨l ++ List.replicate k blank, l.length⟩

section Screens

variable {l : List UInt8} {c : UInt8} {k : ℕ}

theorem showing_put (hc : c ≠ bs) : (showing l k).put c = showing (l ++ [c]) (k - 1) := by
  rw [Screen.put, if_neg hc]
  cases k with
  | zero => simp [showing]
  | succ k => simp [showing, List.replicate_succ]

theorem showing_erase : ∃ k', (showing l k).write [bs, blank, bs] = showing l.dropLast k' := by
  have hblank : blank ≠ bs := by decide
  simp only [Screen.write, List.foldl_cons, List.foldl_nil, Screen.put, if_neg hblank,
    if_true]
  rcases List.eq_nil_or_concat' l with rfl | ⟨l, x, rfl⟩
  · cases k with
    | zero => exact ⟨1, by simp [showing]⟩
    | succ k => exact ⟨k + 1, by simp [showing, List.replicate_succ]⟩
  · exact ⟨k + 1, by simp [showing, List.replicate_succ]⟩

theorem rdropWhile_blanks (hl : blank ∉ l) (k : ℕ) :
    (l ++ List.replicate k blank).rdropWhile (· == blank) = l := by
  induction k with
  | zero =>
    rw [List.replicate_zero, List.append_nil, List.rdropWhile_eq_self_iff]
    intro hne hlast
    have hmem := List.getLast_mem hne
    rw [eq_of_beq hlast] at hmem
    exact hl hmem
  | succ k ih =>
    have hblank : (blank == blank) = true := beq_self_eq_true blank
    rw [List.replicate_succ', ← List.append_assoc,
      List.rdropWhile_concat_pos (fun x => x == blank) _ _ hblank]
    exact ih

end Screens

def emptyLine (line : ℕ → UInt8) : Terminal := ⟨line, 0, true, true, [], []⟩

def feeds (t : Terminal) (bytes : List UInt8) : Terminal :=
  bytes.foldl (fun t c => ttyFeed t c.toNat) t

/-- The bytes in question: no end of a line or of the input, and no blank. -/
def Typed (c : UInt8) : Prop := c ≠ lf ∧ c ≠ cr ∧ c ≠ eot ∧ c ≠ blank

/-- An erase at this line takes a glyph off the screen only if it takes its byte off the line. -/
def EraseOk (l : List UInt8) : Prop := ∀ x, l.getLast? = some x → printable x ∨ printed l = []

/-- The screen shows the printable bytes of the line. -/
structure InSync (t : Terminal) : Prop where
  echo : t.echo = true
  up : t.up = true
  glyphs : blank ∉ staged t
  screen : ∃ k, Screen.write ⟨[], 0⟩ t.out = showing (printed (staged t)) k

section Feed

variable {t : Terminal} {c : UInt8}

theorem ttyFeed_erase (t : Terminal) (hc : c = bs ∨ c = del) : ttyFeed t c.toNat =
    if 0 < t.len then ttyEchoByte { t with len := t.len - 1 } bs else t := by
  rcases hc with rfl | rfl <;> rfl

theorem ttyFeed_printable (t : Terminal) (hc : printable c = true) : ttyFeed t c.toNat =
    if t.len < ttyLineMax - 1 then ttyEchoByte (t.stage c) c else t := by
  have hne : ∀ d, printable d = false → c ≠ d := by
    intro d hd hcd
    rw [hcd, hd] at hc
    cases hc
  have h₁ : ¬ (c = lf ∨ c = cr) := not_or.mpr ⟨hne lf (by decide), hne cr (by decide)⟩
  have h₂ : ¬ (c = bs ∨ c = del) := not_or.mpr ⟨hne bs (by decide), hne del (by decide)⟩
  have h₃ : c ≠ eot := hne eot (by decide)
  simp [ttyFeed, h₁, h₂, h₃, hc]

theorem ttyFeed_control (t : Terminal) (hc : Typed c) (he : ¬ (c = bs ∨ c = del))
    (hp : printable c = false) :
    ttyFeed t c.toNat = if t.len < ttyLineMax - 1 then t.stage c else t := by
  simp [ttyFeed, hc.1, hc.2.1, hc.2.2.1, he, hp]

end Feed

section Sync

variable {t : Terminal} {c : UInt8}

theorem InSync.shown (h : InSync t) : shown t.out = printed (staged t) := by
  obtain ⟨k, hk⟩ := h.screen
  rw [Tty.shown, hk]
  exact rdropWhile_blanks (fun hb => h.glyphs (List.mem_of_mem_filter hb)) k

/-- An erase takes the last byte that is shown off the screen, and the last one off the line. -/
theorem InSync.erase (h : InSync t) (hlen : 0 < t.len) (hc : c = bs ∨ c = del) :
    (ttyFeed t c.toNat).echo = true ∧ (ttyFeed t c.toNat).up = true ∧
      staged (ttyFeed t c.toNat) = (staged t).dropLast ∧
      ∃ k, Screen.write ⟨[], 0⟩ (ttyFeed t c.toNat).out =
        showing (printed (staged t)).dropLast k := by
  obtain ⟨k, hk⟩ := h.screen
  rw [ttyFeed_erase t hc, if_pos hlen]
  refine ⟨?_, ?_, ?_, ?_⟩
  · rw [ttyEchoByte_eq]
    exact h.echo
  · rw [ttyEchoByte_eq]
    exact h.up
  · rw [staged_ttyEchoByte, staged_pop]
  · have hout : (ttyEchoByte { t with len := t.len - 1 } bs).out = t.out ++ [bs, blank, bs] := by
      rw [ttyEchoByte_eq]
      simp [h.echo, h.up, echoed]
    rw [hout, Screen.write, List.foldl_append]
    change ∃ k, ((Screen.write ⟨[], 0⟩ t.out).write [bs, blank, bs]) = _
    rw [hk]
    exact showing_erase

theorem printed_concat (l : List UInt8) (x : UInt8) :
    printed (l ++ [x]) = printed l ++ if printable x then [x] else [] := by
  rw [printed, List.filter_append, printed]
  cases hx : printable x <;> simp [hx]

theorem staged_concat (hlen : 0 < t.len) : ∃ l x, staged t = l ++ [x] := by
  rcases List.eq_nil_or_concat' (staged t) with hnil | h
  · have := staged_length t
    rw [hnil, List.length_nil] at this
    omega
  · exact h

theorem Typed.append {l : List UInt8} (hc : Typed c) (hl : blank ∉ l) : blank ∉ l ++ [c] := by
  simp [hl, Ne.symm hc.2.2.2]

theorem InSync.feed (h : InSync t) (hc : Typed c) (hok : c = bs ∨ c = del → EraseOk (staged t)) :
    InSync (ttyFeed t c.toNat) := by
  by_cases he : c = bs ∨ c = del
  · by_cases hlen : 0 < t.len
    · obtain ⟨hecho, hup, hstaged, k, hk⟩ := h.erase hlen he
      obtain ⟨l, x, hl⟩ := staged_concat hlen
      have hsame : (printed (staged t)).dropLast = printed (staged t).dropLast := by
        rw [hl, List.dropLast_concat]
        rcases hok he x (by simp [hl]) with hx | hnone
        · rw [printed_concat, if_pos hx, List.dropLast_concat]
        · rw [hl, printed_concat] at hnone
          rw [printed_concat, hnone, (List.append_eq_nil_iff.mp hnone).1, List.dropLast_nil]
      refine ⟨hecho, hup, ?_, k, ?_⟩
      · rw [hstaged]
        exact fun hb => h.glyphs (List.mem_of_mem_dropLast hb)
      · rw [hk, hstaged, hsame]
    · rwa [ttyFeed_erase t he, if_neg hlen]
  by_cases hp : printable c = true
  · rw [ttyFeed_printable t hp]
    split
    · obtain ⟨k, hk⟩ := h.screen
      have hout : (ttyEchoByte (t.stage c) c).out = t.out ++ [c] := by
        have hn : ¬ (c = lf ∨ c = cr) := not_or.mpr ⟨hc.1, hc.2.1⟩
        rw [ttyEchoByte_eq]
        simp [Terminal.stage, h.echo, h.up, echoed, he, hn]
      refine ⟨?_, ?_, ?_, k - 1, ?_⟩
      · rw [ttyEchoByte_eq]
        exact h.echo
      · rw [ttyEchoByte_eq]
        exact h.up
      · rw [staged_ttyEchoByte, staged_stage]
        exact hc.append h.glyphs
      · rw [hout, staged_ttyEchoByte, staged_stage, printed_concat, if_pos hp, Screen.write,
          List.foldl_append]
        change (Screen.write ⟨[], 0⟩ t.out).put c = _
        rw [hk]
        exact showing_put fun hbs => he (Or.inl hbs)
    · exact h
  · rw [ttyFeed_control t hc he (Bool.eq_false_iff.mpr hp)]
    split
    · refine ⟨h.echo, h.up, ?_, ?_⟩
      · rw [staged_stage]
        exact hc.append h.glyphs
      · rw [staged_stage, printed_concat, if_neg hp, List.append_nil]
        exact h.screen
    · exact h

theorem InSync.drift (h : InSync t) (he : c = bs ∨ c = del) (hbad : ¬ EraseOk (staged t)) :
    Tty.shown (ttyFeed t c.toNat).out ≠ printed (staged (ttyFeed t c.toNat)) := by
  unfold EraseOk at hbad
  push Not at hbad
  obtain ⟨x, hx, hctl, hsome⟩ := hbad
  have hlen : 0 < t.len := by
    rw [← staged_length]
    apply List.length_pos_of_ne_nil
    intro hnil
    rw [hnil] at hx
    cases hx
  obtain ⟨-, -, hstaged, k, hk⟩ := h.erase hlen he
  obtain ⟨l, y, hl⟩ := staged_concat hlen
  obtain rfl : y = x := by simpa [hl] using hx
  have hprinted : printed (staged t) = printed l := by
    rw [hl, printed_concat, if_neg hctl, List.append_nil]
  have hshown : Tty.shown (ttyFeed t c.toNat).out = (printed l).dropLast := by
    rw [Tty.shown, hk, hprinted]
    apply rdropWhile_blanks
    intro hb
    have hmem : blank ∈ l := List.mem_of_mem_filter (List.mem_of_mem_dropLast hb)
    exact h.glyphs (hl ▸ List.mem_append_left _ hmem)
  rw [hshown, hstaged, hl, List.dropLast_concat]
  intro hc
  have hpos := List.length_pos_of_ne_nil (hprinted ▸ hsome)
  have := congrArg List.length hc
  rw [List.length_dropLast] at this
  omega

end Sync

section Sequences

variable {line : ℕ → UInt8} {bytes p : List UInt8}

theorem staged_feeds (t : Terminal) (p : List UInt8) :
    staged (feeds t p) = p.foldl discipline (staged t) := by
  induction p generalizing t with
  | nil => rfl
  | cons c p ih =>
    change staged (feeds (ttyFeed t c.toNat) p) = _
    rw [ih, staged_ttyFeed t (by omega), Int.toNat_natCast, UInt8.ofNat_toNat, List.foldl_cons]

theorem feeds_concat (t : Terminal) (p : List UInt8) (c : UInt8) :
    feeds t (p ++ [c]) = ttyFeed (feeds t p) c.toNat := by
  rw [feeds, List.foldl_append, feeds]
  rfl

theorem inSync_emptyLine (line : ℕ → UInt8) : InSync (emptyLine line) :=
  ⟨rfl, rfl, List.not_mem_nil, 0, rfl⟩

theorem inSync_feeds (hb : ∀ c ∈ bytes, Typed c)
    (hok : ∀ q c, q ++ [c] <+: bytes → InSync (feeds (emptyLine line) q) → c = bs ∨ c = del →
      EraseOk (staged (feeds (emptyLine line) q))) (hp : p <+: bytes) :
    InSync (feeds (emptyLine line) p) := by
  induction p using List.reverseRecOn with
  | nil => exact inSync_emptyLine line
  | append_singleton q c ih =>
    have hq := ih ((List.prefix_append q [c]).trans hp)
    rw [feeds_concat]
    exact hq.feed (hb c (hp.subset (List.mem_append_right q (List.mem_singleton_self c))))
      (hok q c hp hq)

end Sequences

/-- The screen shows the printable staged bytes after every byte of the input exactly when no
erase takes a byte without a glyph off a line on which a glyph is left. -/
theorem echo_shows_staged_iff (line : ℕ → UInt8) (bytes : List UInt8)
    (hb : ∀ c ∈ bytes, Typed c) :
    (∀ p, p <+: bytes →
      shown (feeds (emptyLine line) p).out = printed (staged (feeds (emptyLine line) p))) ↔
    ∀ p c, p ++ [c] <+: bytes → c = bs ∨ c = del → EraseOk (p.foldl discipline []) := by
  have hstaged : ∀ p, staged (feeds (emptyLine line) p) = p.foldl discipline [] :=
    staged_feeds (emptyLine line)
  simp only [← hstaged]
  constructor
  · intro hshown
    -- a bad erase would show at once, so the screen is in step before each byte
    have hgood : ∀ q c, q ++ [c] <+: bytes → InSync (feeds (emptyLine line) q) →
        c = bs ∨ c = del → EraseOk (staged (feeds (emptyLine line) q)) := by
      intro q c hq hs he
      by_contra hbad
      have hnow := hshown _ hq
      rw [feeds_concat] at hnow
      exact hs.drift he hbad hnow
    intro p c hp
    exact hgood p c hp (inSync_feeds hb hgood ((List.prefix_append p [c]).trans hp))
  · intro hok p hp
    exact (inSync_feeds hb (fun q c hq _ => hok q c hq) hp).shown

/-- Two letters and an erase. -/
theorem echo_shows_typo :
    shown (feeds (emptyLine fun _ => 0) [0x61, 0x62, 0x08]).out = [0x61] := by
  have hb : ∀ c ∈ ([0x61, 0x62, 0x08] : List UInt8), Typed c := by
    simp [Typed, lf, cr, eot, blank]
  have hok : ∀ p c, p ++ [c] <+: ([0x61, 0x62, 0x08] : List UInt8) → c = bs ∨ c = del →
      EraseOk (p.foldl discipline []) := by
    intro p c hp he
    match p with
    | [] =>
      obtain ⟨rfl, -⟩ := List.cons_prefix_cons.mp hp
      exact absurd he (by decide)
    | [a] =>
      obtain ⟨-, hrest⟩ := List.cons_prefix_cons.mp hp
      obtain ⟨rfl, -⟩ := List.cons_prefix_cons.mp hrest
      exact absurd he (by decide)
    | [a, b] =>
      obtain ⟨rfl, hrest⟩ := List.cons_prefix_cons.mp hp
      obtain ⟨rfl, -⟩ := List.cons_prefix_cons.mp hrest
      intro x hx
      have hlast : some (0x62 : UInt8) = some x := hx
      exact Or.inl (Option.some.inj hlast ▸ by decide)
    | a :: b :: d :: p =>
      have hlen := hp.length_le
      simp at hlen
      omega
  exact (echo_shows_staged_iff (fun _ => 0) _ hb).mpr hok _ (List.prefix_refl _)

/-- The erase of a control byte takes the letter off the screen; the letter stays staged. -/
theorem echo_control_erase :
    (∀ c ∈ ([0x61, 0x01, 0x08] : List UInt8), Typed c) ∧
      shown (feeds (emptyLine fun _ => 0) [0x61, 0x01, 0x08]).out = [] ∧
      printed (staged (feeds (emptyLine fun _ => 0) [0x61, 0x01, 0x08])) = [0x61] ∧
      shown (feeds (emptyLine fun _ => 0) [0x61, 0x01, 0x08]).out ≠
        printed (staged (feeds (emptyLine fun _ => 0) [0x61, 0x01, 0x08])) := by
  refine ⟨by simp [Typed, lf, cr, eot, blank], by decide, by decide, by decide⟩

end VoidOS.Tty
