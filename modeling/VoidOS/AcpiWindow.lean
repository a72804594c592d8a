import VoidOS.Acpi

namespace VoidOS.Acpi

open ReadProg

/-! ## The window as a list of pages

As long as no page 0 is asked for, the window is the list of the pages touched so
far, in the order of their first use. -/

/-- The byte at a 64-bit address; the bus has 52 address lines. -/
def Platform.byte (pl : Platform) (a : ℕ) : UInt8 := pl.mem (a % 2 ^ 52)

def windowOf (ps : List ℕ) (ls : List Load) : Window :=
  ⟨ps ++ List.replicate (acpiMapPages - ps.length) 0,
    ps.map (some ∘ frameOf) ++ List.replicate (acpiMapPages - ps.length) none, ls⟩

/-- The pointer for an address whose page is held. -/
def ptrOf (ps : List ℕ) (a : ℕ) : Ptr :=
  ⟨acpiMapWin + ps.idxOf (pageOf a) * 4096 + a % 4096, a⟩

/-- Where `k` bytes past the pointer for `a` leads: past the end of the page, into the
page of the next slot. -/
def lookAt (ps : List ℕ) (a k : ℕ) : Option ℕ :=
  (ps[ps.idxOf (pageOf a) + (a % 4096 + k) / 4096]?).map fun p =>
    frameOf p + (a % 4096 + k) % 4096

def touch (ps : List ℕ) (a : ℕ) : List ℕ := if pageOf a ∈ ps then ps else ps ++ [pageOf a]

def touchAll (ps : List ℕ) (as : List ℕ) : List ℕ := as.foldl touch ps

def fetched (a : ℕ) : Load := ⟨addrOf a 0, a % 2 ^ 52⟩

theorem boot_win {busy : ℕ → Option ℕ} (h : ∀ i < acpiMapPages, busy i = none) :
    (boot busy).win = windowOf [] [] := by
  have hpte : (List.range acpiMapPages).map busy = List.replicate acpiMapPages none := by
    rw [List.eq_replicate_iff]
    refine ⟨by simp, fun b hb => ?_⟩
    obtain ⟨i, hi, rfl⟩ := List.mem_map.mp hb
    exact h i (List.mem_range.mp hi)
  simp [boot, windowOf, hpte]

section Pages

variable {pl : Platform} {ps : List ℕ} {ls : List Load} {a k : ℕ}

theorem pageOf_mod (a : ℕ) : pageOf a % 4096 = 0 := by
  unfold pageOf
  omega

theorem pageOf_eq_zero : pageOf a = 0 ↔ a < 4096 := by
  unfold pageOf
  omega

theorem idxOf?_of_mem {l : List ℕ} {x : ℕ} (h : x ∈ l) : l.idxOf? x = some (l.idxOf x) := by
  obtain ⟨i, hi⟩ := Option.isSome_iff_exists.mp (List.isSome_idxOf?.mpr h)
  rw [List.idxOf_eq_getD_idxOf?, hi]
  rfl

theorem subset_touchAll (ps as : List ℕ) : ps ⊆ touchAll ps as := by
  induction as generalizing ps with
  | nil => exact List.Subset.refl ps
  | cons a as ih =>
    apply List.Subset.trans _ (ih (touch ps a))
    unfold touch
    split
    · exact List.Subset.refl ps
    · exact List.subset_append_left ps _

theorem length_le_touchAll (ps as : List ℕ) : ps.length ≤ (touchAll ps as).length := by
  induction as generalizing ps with
  | nil => exact le_rfl
  | cons a as ih =>
    apply le_trans _ (ih (touch ps a))
    unfold touch
    split <;> simp

theorem mem_touch (ps : List ℕ) (a : ℕ) : pageOf a ∈ touch ps a := by
  unfold touch
  split
  · assumption
  · simp

theorem mem_touchAll {as : List ℕ} (h : a ∈ as) : pageOf a ∈ touchAll ps as := by
  induction as generalizing ps with
  | nil => cases h
  | cons b as ih =>
    cases h with
    | head => exact subset_touchAll _ as (mem_touch ps a)
    | tail _ h => exact ih h

theorem touchAll_cases {as : List ℕ} {p : ℕ} (h : p ∈ touchAll ps as) :
    p ∈ ps ∨ ∃ a ∈ as, p = pageOf a := by
  induction as generalizing ps with
  | nil => exact .inl h
  | cons b as ih =>
    rcases ih h with hp | ⟨a, ha, rfl⟩
    · unfold touch at hp
      split at hp
      · exact .inl hp
      · rcases List.mem_append.mp hp with hp | hp
        · exact .inl hp
        · exact .inr ⟨b, List.mem_cons_self, List.mem_singleton.mp hp⟩
    · exact .inr ⟨a, List.mem_cons_of_mem b ha, rfl⟩

theorem windowOf_pte (i : ℕ) :
    ((windowOf ps ls).pte[i]?).join = (ps[i]?).map frameOf := by
  simp only [windowOf, List.getElem?_append, List.length_map, List.getElem?_map]
  split
  · rw [List.getElem?_eq_getElem ‹_›]
    rfl
  · rw [List.getElem?_replicate, List.getElem?_eq_none (Nat.le_of_not_lt ‹_›)]
    split <;> rfl

theorem load_windowOf :
    load pl (windowOf ps ls) (ptrOf ps a) k =
      match lookAt ps a k with
      | none => .error .pageFault
      | some got => .ok (pl.mem got, windowOf ps (⟨addrOf a k, got⟩ :: ls)) := by
  have hslot : ((ptrOf ps a).addr + k - acpiMapWin) / 4096 =
      ps.idxOf (pageOf a) + (a % 4096 + k) / 4096 := by
    simp only [ptrOf, acpiMapWin]
    omega
  have hoff : ((ptrOf ps a).addr + k) % 4096 = (a % 4096 + k) % 4096 := by
    simp only [ptrOf, acpiMapWin]
    omega
  unfold load lookAt
  rw [hslot, hoff, windowOf_pte]
  cases ps[ps.idxOf (pageOf a) + (a % 4096 + k) / 4096]? <;> rfl

theorem lookAt_page (h : pageOf a ∈ ps) (hk : a % 4096 + k < 4096) :
    lookAt ps a k = some ((a + k) % 2 ^ 52) := by
  have hidx : ps.idxOf (pageOf a) < ps.length := List.idxOf_lt_length_iff.mpr h
  have hcarry : (a % 4096 + k) / 4096 = 0 := Nat.div_eq_of_lt hk
  have haddr : frameOf (pageOf a) + (a % 4096 + k) % 4096 = (a + k) % 2 ^ 52 := by
    unfold frameOf pageOf
    omega
  rw [lookAt, hcarry, Nat.add_zero, List.getElem?_eq_getElem hidx, List.getElem_idxOf hidx,
    Option.map_some, haddr]

theorem acpiMapField_held (h : pageOf a ∈ ps) :
    acpiMapField pl (windowOf ps ls) a = (some (ptrOf ps a), windowOf ps ls) := by
  have hmem : pageOf a ∈ (windowOf ps ls).phys := List.mem_append_left _ h
  have hidx : (windowOf ps ls).phys.idxOf (pageOf a) = ps.idxOf (pageOf a) := by
    rw [windowOf, List.idxOf_append, if_pos h]
  simp only [acpiMapField, acpiEnsure, if_pos hmem, idxOf?_of_mem hmem, hidx]
  rfl

theorem acpiEnsure_new (h0 : 0 ∉ ps) (ha : pageOf a ≠ 0) (h : pageOf a ∉ ps) :
    acpiEnsure pl (windowOf ps ls) a =
      if ps.length < acpiMapPages ∧ pl.canMap ps.length then
        (true, windowOf (ps ++ [pageOf a]) ls)
      else (false, windowOf ps ls) := by
  have hmem : pageOf a ∉ (windowOf ps ls).phys := by
    simp [windowOf, h, ha]
  rw [acpiEnsure, if_neg hmem]
  by_cases hlen : ps.length < acpiMapPages
  · obtain ⟨n, hn⟩ : ∃ n, acpiMapPages - ps.length = n + 1 :=
      ⟨acpiMapPages - ps.length - 1, by omega⟩
    have hn' : acpiMapPages - (ps ++ [pageOf a]).length = n := by
      simp only [List.length_append, List.length_singleton]
      omega
    have hfree : (windowOf ps ls).phys.idxOf? 0 = some ps.length := by
      have hz : (0 : ℕ) ∈ (windowOf ps ls).phys := by
        simp [windowOf, hn]
      rw [idxOf?_of_mem hz, windowOf, List.idxOf_append, if_neg h0, hn, List.replicate_succ,
        List.idxOf_cons_self, Nat.zero_add]
    have hphys : (windowOf ps ls).phys.set ps.length (pageOf a) =
        (windowOf (ps ++ [pageOf a]) ls).phys := by
      simp only [windowOf, hn, hn', List.set_append, lt_irrefl, if_false, Nat.sub_self,
        List.replicate_succ, List.set_cons_zero, List.append_assoc, List.singleton_append]
    have hpte : (windowOf ps ls).pte.set ps.length (some (frameOf (pageOf a))) =
        (windowOf (ps ++ [pageOf a]) ls).pte := by
      simp only [windowOf, hn, hn', List.set_append, List.length_map, lt_irrefl, if_false,
        Nat.sub_self, List.replicate_succ, List.set_cons_zero, List.map_append, List.map_cons,
        List.map_nil, Function.comp_apply, List.append_assoc, List.singleton_append]
    simp only [hfree, hlen, true_and, hphys, hpte]
    rfl
  · have hfree : (windowOf ps ls).phys.idxOf? 0 = none := by
      rw [List.idxOf?_eq_none_iff]
      have hn : acpiMapPages - ps.length = 0 := by omega
      simp [windowOf, hn, h0]
    simp [hfree, hlen]

theorem acpiRdb_zero (h0 : 0 ∉ ps) (ha : pageOf a = 0) :
    ∃ e, acpiRdb pl (windowOf ps ls) a = .error e := by
  have hidx : (windowOf ps ls).phys.idxOf 0 =
      (List.replicate (acpiMapPages - ps.length) 0).idxOf 0 + ps.length := by
    rw [windowOf, List.idxOf_append, if_neg h0]
  unfold acpiRdb acpiMapField acpiEnsure
  rw [ha]
  by_cases hlen : ps.length < acpiMapPages
  · obtain ⟨n, hn⟩ : ∃ n, acpiMapPages - ps.length = n + 1 :=
      ⟨acpiMapPages - ps.length - 1, by omega⟩
    have hz : (0 : ℕ) ∈ (windowOf ps ls).phys := by
      simp [windowOf, hn]
    rw [hn, List.replicate_succ, List.idxOf_cons_self, Nat.zero_add] at hidx
    have hslot : (acpiMapWin + ps.length * 4096 + a % 4096 + 0 - acpiMapWin) / 4096 =
        ps.length := by
      unfold acpiMapWin
      omega
    refine ⟨.pageFault, ?_⟩
    simp only [if_pos hz, idxOf?_of_mem hz, hidx, Option.map_some, load, hslot, windowOf_pte]
    simp
  · have hn : acpiMapPages - ps.length = 0 := by omega
    have hz : (0 : ℕ) ∉ (windowOf ps ls).phys := by
      simp [windowOf, hn, h0]
    refine ⟨.halted, ?_⟩
    simp only [if_neg hz, List.idxOf?_eq_none_iff.mpr hz]

theorem acpiRdb_iff (h0 : 0 ∉ ps) {r : UInt8 × Window} (hps : ps.length ≤ acpiMapPages) :
    acpiRdb pl (windowOf ps ls) a = .ok r ↔
      pageOf a ≠ 0 ∧ (touch ps a).length ≤ acpiMapPages ∧
        (pageOf a ∉ ps → pl.canMap ps.length) ∧
        r = (pl.byte a, windowOf (touch ps a) (fetched a :: ls)) := by
  by_cases ha : pageOf a = 0
  · obtain ⟨e, he⟩ : ∃ e, acpiRdb pl (windowOf ps ls) a = .error e := acpiRdb_zero h0 ha
    simp [he, ha]
  have hread : ∀ qs, pageOf a ∈ qs → load pl (windowOf qs ls) (ptrOf qs a) 0 =
      .ok (pl.byte a, windowOf qs (fetched a :: ls)) := by
    intro qs hq
    rw [load_windowOf, lookAt_page hq (by omega)]
    rfl
  by_cases h : pageOf a ∈ ps
  · rw [acpiRdb, acpiMapField_held h, touch, if_pos h]
    simp only [hread ps h, Except.ok.injEq, ha, h, hps, ne_eq, not_false_eq_true, not_true_eq_false,
      false_implies, true_and]
    exact eq_comm
  · rw [touch, if_neg h, List.length_append, List.length_singleton]
    by_cases hnew : ps.length < acpiMapPages ∧ pl.canMap ps.length
    · have hheld : pageOf a ∈ ps ++ [pageOf a] := by simp
      have hphys : pageOf a ∈ (windowOf (ps ++ [pageOf a]) ls).phys :=
        List.mem_append_left _ hheld
      have hmap : acpiMapField pl (windowOf ps ls) a =
          acpiMapField pl (windowOf (ps ++ [pageOf a]) ls) a := by
        rw [acpiMapField, acpiEnsure_new h0 ha h, if_pos hnew, acpiMapField, acpiEnsure,
          if_pos hphys]
      rw [acpiRdb, hmap, acpiMapField_held hheld]
      simp only [hread _ hheld, Except.ok.injEq, ha, hnew.2, ne_eq, not_false_eq_true,
        implies_true, Nat.succ_le_iff.mpr hnew.1, true_and]
      exact eq_comm
    · have hmap : acpiMapField pl (windowOf ps ls) a = (none, windowOf ps ls) := by
        rw [acpiMapField, acpiEnsure_new h0 ha h, if_neg hnew]
      rw [acpiRdb, hmap]
      simp only [reduceCtorEq, false_iff]
      intro hall
      exact hnew ⟨hall.2.1, hall.2.2.1 h⟩

end Pages

/-- Reads at `as` find or make room in a window that holds `ps`. -/
structure Fits (pl : Platform) (ps as : List ℕ) : Prop where
  nonzero : ∀ a ∈ as, pageOf a ≠ 0
  room : (touchAll ps as).length ≤ acpiMapPages
  maps : ∀ i, ps.length ≤ i → i < (touchAll ps as).length → pl.canMap i

section Runs

variable {pl : Platform} {ps as : List ℕ} {ls : List Load} {w : Window}

theorem fits_nil (hps : ps.length ≤ acpiMapPages) : Fits pl ps [] where
  nonzero a ha := by cases ha
  room := hps
  maps i hi hlt := absurd hlt (Nat.not_lt.mpr hi)

theorem fits_cons {a : ℕ} :
    Fits pl ps (a :: as) ↔
      pageOf a ≠ 0 ∧ (pageOf a ∉ ps → pl.canMap ps.length) ∧ Fits pl (touch ps a) as := by
  have hgrow : (touch ps a).length ≤ (touchAll (touch ps a) as).length := length_le_touchAll _ as
  constructor
  · intro h
    refine ⟨h.nonzero a List.mem_cons_self, fun hn => h.maps ps.length le_rfl ?_, ?_⟩
    · have hnew : (touch ps a).length = ps.length + 1 := by
        rw [touch, if_neg hn, List.length_append, List.length_singleton]
      rw [hnew] at hgrow
      exact hgrow
    · refine ⟨fun b hb => h.nonzero b (List.mem_cons_of_mem a hb), h.room, fun i hi hlt => ?_⟩
      exact h.maps i (le_trans (length_le_touchAll ps [a]) hi) hlt
  · rintro ⟨ha, hmap, h⟩
    refine ⟨?_, h.room, fun i hi hlt => ?_⟩
    · intro b hb
      rcases List.mem_cons.mp hb with rfl | hb
      · exact ha
      · exact h.nonzero b hb
    · -- the slot of `a` itself, or one of the later slots
      by_cases hnext : (touch ps a).length ≤ i
      · exact h.maps i hnext hlt
      · unfold touch at hnext
        split at hnext
        · exact absurd hi hnext
        · rw [List.length_append, List.length_singleton] at hnext
          obtain rfl : i = ps.length := by omega
          exact hmap ‹_›

theorem zero_notMem_touch {a : ℕ} (h0 : 0 ∉ ps) (ha : pageOf a ≠ 0) : 0 ∉ touch ps a := by
  unfold touch
  split
  · exact h0
  · simp [h0, ha.symm]

theorem Fits.zero_notMem (h0 : 0 ∉ ps) (h : Fits pl ps as) : 0 ∉ touchAll ps as := by
  intro hz
  rcases touchAll_cases hz with hz | ⟨a, ha, hz⟩
  · exact h0 hz
  · exact h.nonzero a ha hz.symm

theorem drive_iff (h0 : 0 ∉ ps) (hps : ps.length ≤ acpiMapPages) :
    drive (acpiRdb pl) as (windowOf ps ls) = .ok w ↔
      Fits pl ps as ∧ w = windowOf (touchAll ps as) ((as.map fetched).reverse ++ ls) := by
  induction as generalizing ps ls with
  | nil =>
    simp only [drive, Except.ok.injEq, fits_nil hps, true_and]
    exact eq_comm
  | cons a as ih =>
    rw [drive, fits_cons]
    cases hr : acpiRdb pl (windowOf ps ls) a with
    | error e =>
      simp only [reduceCtorEq, false_iff]
      rintro ⟨⟨ha, hmap, hfit⟩, -⟩
      have hroom : (touch ps a).length ≤ acpiMapPages :=
        le_trans (length_le_touchAll _ as) hfit.room
      have hok : acpiRdb pl (windowOf ps ls) a = .ok _ :=
        (acpiRdb_iff h0 hps).mpr ⟨ha, hroom, hmap, rfl⟩
      rw [hr] at hok
      cases hok
    | ok r =>
      obtain ⟨ha, hroom, hmap, rfl⟩ := (acpiRdb_iff h0 hps).mp hr
      have hrun := @ih (touch ps a) (fetched a :: ls) (zero_notMem_touch h0 ha) hroom
      rw [List.map_cons, List.reverse_cons, List.append_assoc, List.singleton_append]
      have hfit : (pageOf a ≠ 0 ∧ (pageOf a ∉ ps → pl.canMap ps.length) ∧
          Fits pl (touch ps a) as) ↔ Fits pl (touch ps a) as :=
        ⟨fun h => h.2.2, fun h => ⟨ha, hmap, h⟩⟩
      rw [hfit]
      exact hrun

def IsPages (w : Window) : Prop :=
  ∃ ps ls, w = windowOf ps ls ∧ 0 ∉ ps ∧ ps.length ≤ acpiMapPages

theorem acpiRdb_answers (w : Window) (a : ℕ) (b : UInt8) (w' : Window) (hw : IsPages w)
    (h : acpiRdb pl w a = .ok (b, w')) : b = pl.byte a ∧ IsPages w' := by
  obtain ⟨ps, ls, rfl, h0, hps⟩ := hw
  obtain ⟨ha, hroom, -, heq⟩ := (acpiRdb_iff h0 hps).mp h
  obtain ⟨rfl, rfl⟩ := Prod.mk.inj heq
  exact ⟨rfl, touch ps a, _, rfl, zero_notMem_touch h0 ha, hroom⟩

/-- A reader returns exactly if its reads fit, and then what it reads is memory. -/
theorem exec_iff {α : Type} {p : Reader α} {x : α} (h0 : 0 ∉ ps)
    (hps : ps.length ≤ acpiMapPages) :
    p.exec (acpiRdb pl) (windowOf ps ls) = .ok (x, w) ↔
      Fits pl ps (p.trace pl.byte) ∧ x = p.run pl.byte ∧
        w = windowOf (touchAll ps (p.trace pl.byte))
          (((p.trace pl.byte).map fetched).reverse ++ ls) := by
  rw [Prog.exec_eq_drive pl.byte acpiRdb_answers p ⟨ps, ls, rfl, h0, hps⟩]
  have hrun := @drive_iff pl ps (p.trace pl.byte) ls w h0 hps
  cases hd : drive (acpiRdb pl) (p.trace pl.byte) (windowOf ps ls) with
  | error e =>
    rw [hd] at hrun
    simp only [reduceCtorEq, false_iff, not_and] at hrun
    simp only [Except.map, reduceCtorEq, false_iff]
    rintro ⟨hfit, -, hw⟩
    exact hrun hfit hw
  | ok w' =>
    rw [hd, Except.ok.injEq] at hrun
    simp only [Except.map, Except.ok.injEq, Prod.mk.injEq, hrun]
    tauto

end Runs

end VoidOS.Acpi
