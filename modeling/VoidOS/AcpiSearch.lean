import VoidOS.AcpiTables

namespace VoidOS.Acpi

open ReadProg

/-! ## Searches through pointers

A search compares signatures through pointers into the window. Its questions are
pairs of a table and an offset; past the end of the table's first page the answer
comes from the page in the next slot. -/

def sigProg (t : ℕ) : List UInt8 → ℕ → Prog (ℕ × ℕ) UInt8 Bool
  | [], _ => return true
  | c :: cs, k => .ask (t, k) fun b => if b = c then sigProg t cs (k + 1) else return false

def findProg (sig : List UInt8) : List ℕ → Prog (ℕ × ℕ) UInt8 (Option ℕ)
  | [] => return none
  | t :: ts => do
    let found ← sigProg t sig 0
    if found then return some t else findProg sig ts

/-- The search for the FADT and the byte of its revision. -/
def versionProg (tables : List ℕ) (entrySz : ℕ) : Prog (ℕ × ℕ) UInt8 ℕ := do
  let fadt ← findProg facp tables
  match fadt with
  | none => return if entrySz = 8 then 2 else 1
  | some t => .ask (t, 8) fun b => return b.toNat

/-- The end of `acpi_init`: the search for the FADT and the version. -/
def searchVersion (pl : Platform) (tables : List ℕ) (entrySz : ℕ) (w : Window) :
    Except Fault (ℕ × Window) :=
  match acpiFindTable pl facp 0 tables 0 w with
  | .error e => .error e
  | .ok (fadt, w) => readVersion pl fadt entrySz w

/-- `p[k]` for the pointer to a table in a window that holds `ps`. -/
def peek (pl : Platform) (ps : List ℕ) (ls : List Load) (q : ℕ × ℕ) :
    Except Fault (UInt8 × List Load) :=
  match lookAt ps q.1 q.2 with
  | none => .error .pageFault
  | some got => .ok (pl.mem got, ⟨addrOf q.1 q.2, got⟩ :: ls)

section Search

variable {pl : Platform} {ps : List ℕ}

theorem sigMatches_eq (t : ℕ) (cs : List UInt8) (k : ℕ) (ls : List Load) :
    sigMatches pl (ptrOf ps t) cs k (windowOf ps ls) =
      ((sigProg t cs k).exec (peek pl ps) ls).map fun r => (r.1, windowOf ps r.2) := by
  induction cs generalizing k ls with
  | nil => rfl
  | cons c cs ih =>
    rw [sigMatches, sigProg, Prog.exec, load_windowOf, peek]
    cases lookAt ps t k with
    | none => rfl
    | some got =>
      simp only
      split
      · exact ih (k + 1) _
      · rfl

theorem acpiFindTable_eq (sig : List UInt8) {ts : List ℕ} (hts : ∀ t ∈ ts, pageOf t ∈ ps)
    (ls : List Load) :
    acpiFindTable pl sig 0 ts 0 (windowOf ps ls) =
      ((findProg sig ts).exec (peek pl ps) ls).map fun r =>
        (r.1.map (ptrOf ps), windowOf ps r.2) := by
  induction ts generalizing ls with
  | nil => rfl
  | cons t ts ih =>
    have ht : acpiTablePtr pl (windowOf ps ls) t = (some (ptrOf ps t), windowOf ps ls) :=
      acpiMapField_held (hts t List.mem_cons_self)
    rw [acpiFindTable, ht, findProg, Prog.exec_bind]
    simp only [sigMatches_eq]
    cases (sigProg t sig 0).exec (peek pl ps) ls with
    | error e => rfl
    | ok r =>
      obtain ⟨found, ls⟩ := r
      cases found with
      | true => rfl
      | false => exact ih (fun u hu => hts u (List.mem_cons_of_mem t hu)) ls

theorem searchVersion_eq {tables : List ℕ} (ht : ∀ t ∈ tables, pageOf t ∈ ps) (entrySz : ℕ)
    (ls : List Load) :
    searchVersion pl tables entrySz (windowOf ps ls) =
      ((versionProg tables entrySz).exec (peek pl ps) ls).map fun r =>
        (r.1, windowOf ps r.2) := by
  rw [searchVersion, acpiFindTable_eq facp ht, versionProg, Prog.exec_bind]
  cases (findProg facp tables).exec (peek pl ps) ls with
  | error e => rfl
  | ok r =>
    obtain ⟨fadt, ls⟩ := r
    cases fadt with
    | none => rfl
    | some t =>
      simp only [Except.map, Option.map_some, readVersion, load_windowOf, Prog.exec, peek]
      cases lookAt ps t 8 <;> rfl

end Search

def Straight (ls : List Load) : Prop := ∀ l ∈ ls, pageOf l.got = pageOf l.asked

section Straight

variable {pl : Platform} {ps : List ℕ}

theorem eq_of_pageOf {a b : ℕ} (hp : pageOf a = pageOf b) (hm : a % 4096 = b % 4096) : a = b := by
  unfold pageOf at hp
  omega

theorem lookAt_mod {a k got : ℕ} (hps : ∀ p ∈ ps, p % 4096 = 0) (h : lookAt ps a k = some got) :
    got % 4096 = addrOf a k % 4096 ∧ got < 2 ^ 52 := by
  obtain ⟨p, hp, rfl⟩ := Option.map_eq_some_iff.mp h
  have hmod := hps p (List.mem_of_getElem? hp)
  unfold frameOf addrOf
  omega

theorem peek_good_iff (hps : ∀ p ∈ ps, p % 4096 = 0) {α : Type} (p : Prog (ℕ × ℕ) UInt8 α)
    (ls : List Load) :
    (∃ a ls', p.exec (peek pl ps) ls = .ok (a, ls') ∧ Straight ls') ↔
      Straight ls ∧ ∀ q ∈ p.trace fun q => pl.byte (addrOf q.1 q.2),
        lookAt ps q.1 q.2 = some (addrOf q.1 q.2) := by
  apply Prog.exec_good_iff
  · intro ls q b ls' hpeek hgood
    unfold peek at hpeek
    cases hq : lookAt ps q.1 q.2 with
    | none =>
      rw [hq] at hpeek
      cases hpeek
    | some got =>
      rw [hq] at hpeek
      cases hpeek
      obtain ⟨hmod, hlt⟩ := lookAt_mod hps hq
      have hgot : got = addrOf q.1 q.2 := eq_of_pageOf (hgood _ List.mem_cons_self) hmod
      refine ⟨fun l hl => hgood l (List.mem_cons_of_mem _ hl), congrArg some hgot, ?_⟩
      rw [Platform.byte, ← hgot, Nat.mod_eq_of_lt hlt]
  · intro ls q hgood hq
    obtain ⟨-, hlt⟩ := lookAt_mod hps hq
    refine ⟨⟨addrOf q.1 q.2, addrOf q.1 q.2⟩ :: ls, ?_, ?_⟩
    · rw [peek, hq, Platform.byte, Nat.mod_eq_of_lt hlt]
    · intro l hl
      rcases List.mem_cons.mp hl with rfl | hl
      · rfl
      · exact hgood l hl

end Straight

section Below

theorem asks_rdb (phys off : ℕ) : (rdb phys off).Asks (· < 2 ^ 64) :=
  ⟨Nat.mod_lt _ (by decide), fun _ => trivial⟩

theorem asks_acpiRd32 (phys off : ℕ) : (acpiRd32 phys off).Asks (· < 2 ^ 64) :=
  (asks_rdb phys off).bind fun _ => (asks_rdb phys _).bind fun _ => (asks_rdb phys _).bind fun _ =>
    (asks_rdb phys _).bind fun _ => Prog.asks_pure _ _

theorem asks_acpiRd64 (phys off : ℕ) : (acpiRd64 phys off).Asks (· < 2 ^ 64) :=
  (asks_acpiRd32 phys off).bind fun _ => (asks_acpiRd32 phys _).bind fun _ => Prog.asks_pure _ _

theorem asks_acpiChecksumAt (phys len : ℕ) : (acpiChecksumAt phys len).Asks (· < 2 ^ 64) := by
  have hloop : ∀ n i sum, (checksumFrom phys n i sum).Asks (· < 2 ^ 64) := by
    intro n
    induction n with
    | zero => exact fun _ _ => trivial
    | succ n ih => exact fun i _ => (asks_rdb phys i).bind fun _ => ih _ _
  exact (hloop len 0 0).bind fun _ => Prog.asks_pure _ _

theorem asks_readBytes (phys off n : ℕ) : (readBytes phys off n).Asks (· < 2 ^ 64) := by
  induction n generalizing off with
  | zero => trivial
  | succ n ih => exact (asks_rdb phys off).bind fun _ => (ih _).bind fun _ => Prog.asks_pure _ _

theorem asks_acpiReadSdt (phys : ℕ) : (acpiReadSdt phys).Asks (· < 2 ^ 64) :=
  (asks_acpiRd32 phys 24).bind fun _ => (asks_acpiRd32 phys 28).bind fun _ =>
    (asks_acpiRd32 phys 32).bind fun _ => (asks_readBytes phys 0 4).bind fun _ =>
    (asks_acpiRd32 phys 4).bind fun _ => (asks_rdb phys 8).bind fun _ =>
    (asks_rdb phys 9).bind fun _ => (asks_readBytes phys 10 6).bind fun _ =>
    (asks_readBytes phys 16 8).bind fun _ => Prog.asks_pure _ _

theorem asks_registerFrom (list entrySz n i : ℕ) :
    (registerFrom list entrySz n i).Asks (· < 2 ^ 64) := by
  induction n generalizing i with
  | zero => trivial
  | succ n ih =>
    have hentry : (readEntry list entrySz i).Asks (· < 2 ^ 64) :=
      (asks_acpiRd64 _ _).ite (asks_acpiRd32 _ _)
    rw [registerFrom]
    refine hentry.bind fun t => (ih _).ite ?_
    refine (asks_acpiReadSdt t).bind fun hdr => (ih _).ite ?_
    refine (asks_acpiChecksumAt t hdr.length).bind fun _ => .ite ?_ (ih _)
    exact (ih _).bind fun _ => Prog.asks_pure _ _

theorem asks_readTables (rsdp : ℕ) : (readTables rsdp).Asks (· < 2 ^ 64) := by
  unfold readTables
  refine (asks_rdb _ _).bind fun rev => (asks_acpiRd32 _ _).bind fun rsdt =>
    (asks_acpiRd32 _ _).bind fun _ => (asks_acpiRd64 _ _).bind fun xsdt =>
    (asks_acpiChecksumAt _ _).bind fun _ => .ite ?_ (Prog.asks_pure _ _)
  cases tableList rev rsdt xsdt with
  | none => trivial
  | some r =>
    refine (asks_acpiReadSdt _).bind fun _ => (asks_acpiChecksumAt _ _).bind fun _ =>
      .ite ?_ (Prog.asks_pure _ _)
    exact (asks_registerFrom _ _ _ _).bind fun _ => Prog.asks_pure _ _

end Below

/-- The parse of memory only reads between the first page and the end of physical memory,
in at most as many pages as the window has slots, and each byte that the search for the FADT
reads through a pointer lies where the pointer leads. -/
structure InitFits (pl : Platform) (rsdp : ℕ) : Prop where
  reads : ∀ a ∈ (readTables rsdp).trace pl.byte, 4096 ≤ a ∧ a < 2 ^ 52
  room : (pinned pl rsdp).length ≤ acpiMapPages
  peeks : ∀ entrySz tables, (readTables rsdp).run pl.byte = some (entrySz, tables) →
    ∀ q ∈ (versionProg tables entrySz).trace fun q => pl.byte (addrOf q.1 q.2),
      lookAt (pinned pl rsdp) q.1 q.2 = some (addrOf q.1 q.2)

/-- `acpi_init` returns, and every load it made was from the page asked for. -/
def NeverStops (pl : Platform) (busy : ℕ → Option ℕ) (rsdp : ℕ) : Prop :=
  ∃ r s, acpiInit pl (boot busy) rsdp = .ok (r, s) ∧ (r = 0 ∨ r = -1) ∧ Straight s.win.loads

section Init

variable {pl : Platform} {busy : ℕ → Option ℕ} {rsdp : ℕ}

theorem pinned_mod : ∀ p ∈ pinned pl rsdp, p % 4096 = 0 := by
  intro p hp
  rcases touchAll_cases hp with hp | ⟨a, -, rfl⟩
  · cases hp
  · exact pageOf_mod a

theorem registered_pinned {entrySz t j : ℕ} {tables : List ℕ}
    (h : (readTables rsdp).run pl.byte = some (entrySz, tables)) (ht : t ∈ tables)
    (hj : j < lengthOf pl t) : pageOf (addrOf t j) ∈ pinned pl rsdp :=
  mem_touchAll (trace_readTables h ht hj)

theorem table_pinned {entrySz t : ℕ} {tables : List ℕ}
    (h : (readTables rsdp).run pl.byte = some (entrySz, tables)) (ht : t ∈ tables) :
    pageOf t ∈ pinned pl rsdp := by
  obtain ⟨⟨-, hlen, -⟩, hlt⟩ := sound_of_registered h ht
  have hpage := registered_pinned h ht (show 0 < lengthOf pl t by omega)
  rwa [addrOf, Nat.add_zero, Nat.mod_eq_of_lt hlt] at hpage

theorem fits_iff (hmap : ∀ i, pl.canMap i) :
    Fits pl [] ((readTables rsdp).trace pl.byte) ↔
      (∀ a ∈ (readTables rsdp).trace pl.byte, 4096 ≤ a) ∧
        (pinned pl rsdp).length ≤ acpiMapPages := by
  have hpage : ∀ a, pageOf a ≠ 0 ↔ 4096 ≤ a := by
    intro a
    rw [ne_eq, pageOf_eq_zero, Nat.not_lt]
  constructor
  · intro h
    exact ⟨fun a ha => (hpage a).mp (h.nonzero a ha), h.room⟩
  · rintro ⟨hnz, hroom⟩
    exact ⟨fun a ha => (hpage a).mpr (hnz a ha), hroom, fun i _ _ => hmap i⟩

theorem straight_parseLoads :
    Straight (parseLoads pl rsdp) ↔ ∀ a ∈ (readTables rsdp).trace pl.byte, a < 2 ^ 52 := by
  have hload : ∀ a ∈ (readTables rsdp).trace pl.byte,
      pageOf (fetched a).got = pageOf (fetched a).asked ↔ a < 2 ^ 52 := by
    intro a ha
    have hlt : a < 2 ^ 64 := (asks_readTables rsdp).trace pl.byte a ha
    have hask : addrOf a 0 = a := Nat.mod_eq_of_lt hlt
    simp only [fetched, hask]
    unfold pageOf
    omega
  unfold Straight parseLoads
  simp only [List.append_nil, List.mem_reverse, List.forall_mem_map]
  exact forall₂_congr hload

theorem acpiInit_eq (hb : ¬∃ i < acpiMapPages, (busy i).isSome) (h0 : rsdp ≠ 0) :
    acpiInit pl (boot busy) rsdp =
      match (readTables rsdp).exec (acpiRdb pl) (boot busy).win with
      | .error e => .error e
      | .ok (none, w) => .ok (-1, ⟨rsdp, [], 0, w⟩)
      | .ok (some (entrySz, tables), w) =>
        (searchVersion pl tables entrySz w).map fun r => (0, ⟨rsdp, tables, r.1, r.2⟩) := by
  have hguard : ¬(boot busy).win.pte.any Option.isSome = true := fun h => hb (boot_guard.mp h)
  unfold acpiInit
  simp only [if_neg hguard, if_neg h0]
  cases (readTables rsdp).exec (acpiRdb pl) (boot busy).win with
  | error e => rfl
  | ok r =>
    obtain ⟨x, w⟩ := r
    cases x with
    | none => rfl
    | some x =>
      simp only [searchVersion]
      cases acpiFindTable pl facp 0 x.2 0 w with
      | error e => rfl
      | ok r =>
        simp only
        cases readVersion pl r.1 x.1 r.2 <;> rfl

theorem neverStops_iff (hmap : ∀ i, pl.canMap i)
    (hb : ¬∃ i < acpiMapPages, (busy i).isSome) (h0 : rsdp ≠ 0) :
    NeverStops pl busy rsdp ↔ InitFits pl rsdp := by
  have hexec := fun x w => @readTables_exec pl busy rsdp x w hb
  unfold NeverStops
  rw [acpiInit_eq hb h0]
  cases hr : (readTables rsdp).exec (acpiRdb pl) (boot busy).win with
  | error e =>
    simp only [reduceCtorEq, false_and, exists_false, false_iff]
    intro hfits
    have hfit := (fits_iff hmap).mpr ⟨fun a ha => (hfits.reads a ha).1, hfits.room⟩
    have hok := (hexec _ _).mpr ⟨hfit, rfl, rfl⟩
    rw [hr] at hok
    cases hok
  | ok r =>
    obtain ⟨x, w⟩ := r
    obtain ⟨hfit, rfl, rfl⟩ := (hexec x w).mp hr
    obtain ⟨hlow, hroom⟩ := (fits_iff hmap).mp hfit
    cases hrun : (readTables rsdp).run pl.byte with
    | none =>
      constructor
      · rintro ⟨_, _, heq, -, hs⟩
        cases heq
        have hhigh := straight_parseLoads.mp hs
        refine ⟨fun a ha => ⟨hlow a ha, hhigh a ha⟩, hroom, fun _ _ hsome => ?_⟩
        rw [hrun] at hsome
        cases hsome
      · intro hfits
        have hs := straight_parseLoads.mpr fun a ha => (hfits.reads a ha).2
        exact ⟨-1, _, rfl, .inr rfl, hs⟩
    | some x =>
      obtain ⟨entrySz, tables⟩ := x
      have hpages : ∀ t ∈ tables, pageOf t ∈ pinned pl rsdp := fun t ht => table_pinned hrun ht
      have hgood := @peek_good_iff pl (pinned pl rsdp) pinned_mod _
        (versionProg tables entrySz) (parseLoads pl rsdp)
      rw [straight_parseLoads] at hgood
      simp only [searchVersion_eq hpages]
      constructor
      · rintro ⟨_, _, heq, -, hs⟩
        cases hv : (versionProg tables entrySz).exec (peek pl (pinned pl rsdp))
            (parseLoads pl rsdp) with
        | error e =>
          rw [hv] at heq
          cases heq
        | ok r =>
          rw [hv] at heq
          cases heq
          obtain ⟨hhigh, hpeeks⟩ := hgood.mp ⟨r.1, r.2, hv, hs⟩
          refine ⟨fun a ha => ⟨hlow a ha, hhigh a ha⟩, hroom, fun _ _ hsome => ?_⟩
          rw [hrun] at hsome
          cases hsome
          exact hpeeks
      · intro hfits
        obtain ⟨v, ls, hv, hs⟩ := hgood.mpr
          ⟨fun a ha => (hfits.reads a ha).2, hfits.peeks entrySz tables hrun⟩
        rw [hv]
        exact ⟨0, _, rfl, .inl rfl, hs⟩

end Init

theorem init_never_stops_iff (mem : ℕ → UInt8) (busy : ℕ → Option ℕ) (rsdp : ℕ) :
    NeverStops ⟨mem, fun _ => true⟩ busy rsdp ↔
      (∃ i < acpiMapPages, (busy i).isSome) ∨ rsdp = 0 ∨ InitFits ⟨mem, fun _ => true⟩ rsdp := by
  by_cases hb : ∃ i < acpiMapPages, (busy i).isSome
  · simp only [hb, true_or, iff_true]
    refine ⟨-1, ⟨rsdp, [], 0, (boot busy).win⟩, ?_, .inr rfl, fun l hl => by cases hl⟩
    unfold acpiInit
    exact if_pos (boot_guard.mpr hb)
  · by_cases h0 : rsdp = 0
    · subst h0
      have hguard : ¬(boot busy).win.pte.any Option.isSome = true := fun h => hb (boot_guard.mp h)
      simp only [hb, true_or, or_true, iff_true]
      refine ⟨-1, ⟨0, [], 0, (boot busy).win⟩, ?_, .inr rfl, fun l hl => by cases hl⟩
      unfold acpiInit
      exact (if_neg hguard).trans (if_pos rfl)
    · simp only [hb, h0, false_or]
      exact neverStops_iff (fun _ => rfl) hb h0

/-- An RSDP in physical page 0: its page is taken for a free slot of the window. -/
theorem init_stops_page_zero :
    ¬NeverStops ⟨fun _ => 0, fun _ => true⟩ (fun _ => none) 0x500 := by
  have hrun : acpiInit ⟨fun _ => 0, fun _ => true⟩ (boot fun _ => none) 0x500 =
      .error .pageFault := by
    decide +kernel
  rintro ⟨r, s, h, -⟩
  rw [hrun] at h
  cases h

end VoidOS.Acpi
