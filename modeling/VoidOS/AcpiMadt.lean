import VoidOS.AcpiSearch

namespace VoidOS.Acpi

open ReadProg

/-- The window holds every page of every registered table. -/
structure Ready (pl : Platform) (s : State) (ps : List ℕ) (ls : List Load) : Prop where
  win : s.win = windowOf ps ls
  room : ps.length ≤ acpiMapPages
  nonzero : 0 ∉ ps
  sound : ∀ t ∈ s.tables, Sound pl t ∧ t < 2 ^ 64
  held : ∀ t ∈ s.tables, ∀ j < lengthOf pl t, pageOf (addrOf t j) ∈ ps

theorem acpiInit_ready {pl : Platform} {busy : ℕ → Option ℕ} {rsdp : ℕ} {s : State}
    (h : acpiInit pl (boot busy) rsdp = .ok (0, s)) : ∃ ls, Ready pl s (pinned pl rsdp) ls := by
  obtain ⟨entrySz, hrun, hfit, fadt, w, hfind, hversion⟩ := acpiInit_zero h
  have hpages : ∀ t ∈ s.tables, pageOf t ∈ pinned pl rsdp := fun t ht => table_pinned hrun ht
  have hsearch : searchVersion pl s.tables entrySz
      (windowOf (pinned pl rsdp) (parseLoads pl rsdp)) = .ok (s.version, s.win) := by
    rw [searchVersion, hfind]
    exact hversion
  rw [searchVersion_eq hpages] at hsearch
  cases hv : (versionProg s.tables entrySz).exec (peek pl (pinned pl rsdp))
      (parseLoads pl rsdp) with
  | error e =>
    rw [hv] at hsearch
    cases hsearch
  | ok r =>
    rw [hv] at hsearch
    have hwin : windowOf (pinned pl rsdp) r.2 = s.win :=
      congrArg Prod.snd (Except.ok.inj hsearch)
    exact ⟨r.2, hwin.symm, hfit.room, hfit.zero_notMem List.not_mem_nil,
      fun t ht => sound_of_registered hrun ht, fun t ht j hj => registered_pinned hrun ht hj⟩

section Ready

variable {pl : Platform} {s : State} {ps : List ℕ} {ls : List Load} {t : ℕ}

/-- A registered table is no longer than the window: seventeen pages do not fit. -/
theorem Ready.length_le (h : Ready pl s ps ls) (ht : t ∈ s.tables) :
    lengthOf pl t ≤ acpiMapPages * 4096 := by
  by_contra hlong
  have hmaps : ∀ i ∈ Finset.range (acpiMapPages + 1),
      pageOf (addrOf t (i * 4096)) ∈ ps.toFinset := by
    intro i hi
    rw [List.mem_toFinset]
    apply h.held t ht
    have hi := Finset.mem_range.mp hi
    unfold acpiMapPages at *
    omega
  have hinj : Set.InjOn (fun i => pageOf (addrOf t (i * 4096)))
      (Finset.range (acpiMapPages + 1)) := by
    intro i hi j hj heq
    have hi := Finset.mem_range.mp (Finset.mem_coe.mp hi)
    have hj := Finset.mem_range.mp (Finset.mem_coe.mp hj)
    simp only [pageOf, addrOf] at heq
    unfold acpiMapPages at hi hj
    omega
  have hcard := Finset.card_le_card_of_injOn _ hmaps hinj
  rw [Finset.card_range] at hcard
  have hlist := List.toFinset_card_le ps
  have hroom := h.room
  omega

theorem Ready.table_held (h : Ready pl s ps ls) (ht : t ∈ s.tables) : pageOf t ∈ ps := by
  obtain ⟨⟨-, hlen, -⟩, hlt⟩ := h.sound t ht
  have hpage := h.held t ht 0 (show 0 < lengthOf pl t by omega)
  rwa [addrOf, Nat.add_zero, Nat.mod_eq_of_lt hlt] at hpage

/-- A byte whose page is held is read without a change of the window's pages. -/
theorem acpiRdb_held {a : ℕ} (h0 : 0 ∉ ps) (hps : ps.length ≤ acpiMapPages) (h : pageOf a ∈ ps) :
    acpiRdb pl (windowOf ps ls) a = .ok (pl.byte a, windowOf ps (fetched a :: ls)) := by
  have htouch : touch ps a = ps := if_pos h
  have hnz : pageOf a ≠ 0 := by
    intro hz
    rw [hz] at h
    exact h0 h
  rw [acpiRdb_iff h0 hps, htouch]
  exact ⟨hnz, hps, fun hn => absurd h hn, rfl⟩

end Ready

/-- The byte seen `k` bytes past the pointer for `a`, if the slot is mapped. -/
def shown (pl : Platform) (ps : List ℕ) (a k : ℕ) : Option UInt8 := (lookAt ps a k).map pl.mem

/-- From offset `k` on the window shows the signature `cs`. -/
def ShowsSig (pl : Platform) (ps : List ℕ) (t : ℕ) : List UInt8 → ℕ → Prop
  | [], _ => True
  | c :: cs, k => shown pl ps t k = some c ∧ ShowsSig pl ps t cs (k + 1)

/-- The window shows a byte that differs from the signature, and those before it. -/
def ShowsOther (pl : Platform) (ps : List ℕ) (t : ℕ) : List UInt8 → ℕ → Prop
  | [], _ => False
  | c :: cs, k =>
    (∃ b, shown pl ps t k = some b ∧ b ≠ c) ∨
      shown pl ps t k = some c ∧ ShowsOther pl ps t cs (k + 1)

/-- The search for the MADT among tables, by the bytes that the window shows. -/
inductive Finds (pl : Platform) (ps : List ℕ) : List ℕ → Option ℕ → Prop
  | nil : Finds pl ps [] none
  | here {t : ℕ} {ts : List ℕ} : ShowsSig pl ps t apic 0 → Finds pl ps (t :: ts) (some t)
  | next {t : ℕ} {ts : List ℕ} {r : Option ℕ} :
      ShowsOther pl ps t apic 0 → Finds pl ps ts r → Finds pl ps (t :: ts) r

section Shown

variable {pl : Platform} {ps : List ℕ}

/-- The loads of a signature's comparison ask for its own bytes, where the window has them. -/
def SigLoads (ps ts : List ℕ) (new : List Load) : Prop :=
  ∀ l ∈ new, ∃ t ∈ ts, ∃ k < 4, l.asked = addrOf t k ∧ lookAt ps t k = some l.got

theorem sigLoads_nil (ts : List ℕ) : SigLoads ps ts [] := by
  intro l hl
  cases hl

theorem load_shown {a k : ℕ} (ls : List Load) {b : UInt8} :
    shown pl ps a k = some b ↔
      ∃ l : Load, l.asked = addrOf a k ∧ lookAt ps a k = some l.got ∧
        load pl (windowOf ps ls) (ptrOf ps a) k = .ok (b, windowOf ps (l :: ls)) := by
  rw [load_windowOf, shown]
  cases lookAt ps a k with
  | none => simp
  | some got =>
    simp only [Option.map_some, Option.some.injEq, Except.ok.injEq, Prod.mk.injEq]
    constructor
    · rintro rfl
      exact ⟨_, rfl, rfl, rfl, rfl⟩
    · rintro ⟨l, -, -, h, -⟩
      exact h

theorem load_unshown {a k : ℕ} {ls : List Load} (h : shown pl ps a k = none) :
    load pl (windowOf ps ls) (ptrOf ps a) k = .error .pageFault := by
  rw [load_windowOf, Option.map_eq_none_iff.mp h]

theorem sigMatches_shown (t : ℕ) (cs : List UInt8) (k : ℕ) (hk : k + cs.length ≤ 4)
    (ls : List Load) :
    (ShowsSig pl ps t cs k ∧ ∃ new, SigLoads ps [t] new ∧
        sigMatches pl (ptrOf ps t) cs k (windowOf ps ls) = .ok (true, windowOf ps (new ++ ls))) ∨
      (ShowsOther pl ps t cs k ∧ ∃ new, SigLoads ps [t] new ∧
        sigMatches pl (ptrOf ps t) cs k (windowOf ps ls) = .ok (false, windowOf ps (new ++ ls))) ∨
      (¬ShowsSig pl ps t cs k ∧ ¬ShowsOther pl ps t cs k ∧
        sigMatches pl (ptrOf ps t) cs k (windowOf ps ls) = .error .pageFault) := by
  induction cs generalizing k ls with
  | nil => exact .inl ⟨trivial, [], sigLoads_nil [t], rfl⟩
  | cons c cs ih =>
    simp only [sigMatches, ShowsSig, ShowsOther]
    rw [List.length_cons] at hk
    cases hb : shown pl ps t k with
    | none => simp [load_unshown hb]
    | some b =>
      obtain ⟨l, hl, hgot, hload⟩ := (load_shown ls).mp hb
      have hmine : ∀ new, SigLoads ps [t] new → SigLoads ps [t] (new ++ [l]) := by
        intro new hnew l' hl'
        rcases List.mem_append.mp hl' with hl' | hl'
        · exact hnew l' hl'
        · obtain rfl := List.mem_singleton.mp hl'
          exact ⟨t, List.mem_singleton_self t, k, by omega, hl, hgot⟩
      simp only [hload]
      by_cases hc : b = c
      · subst hc
        simp only [if_true, true_and, ne_eq, Option.some.injEq, exists_eq_left', not_true_eq_false,
          false_or]
        rcases ih (k + 1) (by omega) (l :: ls) with ⟨h, new, hn, he⟩ | ⟨h, new, hn, he⟩ | h
        · exact .inl ⟨h, new ++ [l], hmine new hn, by simpa using he⟩
        · exact .inr (.inl ⟨h, new ++ [l], hmine new hn, by simpa using he⟩)
        · exact .inr (.inr h)
      · refine .inr (.inl ⟨.inl ⟨b, rfl, hc⟩, [l], hmine [] (sigLoads_nil [t]), ?_⟩)
        rw [if_neg hc]
        rfl

theorem showsSig_not_other {t : ℕ} {cs : List UInt8} {k : ℕ} (h : ShowsSig pl ps t cs k) :
    ¬ShowsOther pl ps t cs k := by
  induction cs generalizing k with
  | nil => exact id
  | cons c cs ih =>
    rintro (⟨b, hb, hne⟩ | ⟨-, hrest⟩)
    · rw [h.1, Option.some.injEq] at hb
      exact hne hb.symm
    · exact ih h.2 hrest

theorem acpiFindTable_shown {ts : List ℕ} (hts : ∀ t ∈ ts, pageOf t ∈ ps) (ls : List Load) :
    (∃ r new, Finds pl ps ts r ∧ SigLoads ps ts new ∧
        acpiFindTable pl apic 0 ts 0 (windowOf ps ls) =
          .ok (r.map (ptrOf ps), windowOf ps (new ++ ls))) ∨
      ((∀ r, ¬Finds pl ps ts r) ∧
        acpiFindTable pl apic 0 ts 0 (windowOf ps ls) = .error .pageFault) := by
  induction ts generalizing ls with
  | nil => exact .inl ⟨none, [], .nil, sigLoads_nil [], rfl⟩
  | cons t ts ih =>
    have ht : acpiTablePtr pl (windowOf ps ls) t = (some (ptrOf ps t), windowOf ps ls) :=
      acpiMapField_held (hts t List.mem_cons_self)
    rw [acpiFindTable, ht]
    simp only
    have hfirst : ∀ new, SigLoads ps [t] new → SigLoads ps (t :: ts) new := by
      intro new hnew l hl
      obtain ⟨u, hu, hask⟩ := hnew l hl
      obtain rfl := List.mem_singleton.mp hu
      exact ⟨u, List.mem_cons_self, hask⟩
    rcases sigMatches_shown t apic 0 (by decide) ls with
      ⟨hsig, new, hn, he⟩ | ⟨hother, new, hn, he⟩ | ⟨hsig, hother, he⟩
    · exact .inl ⟨some t, new, .here hsig, hfirst new hn, by rw [he]; rfl⟩
    · rw [he]
      rcases ih (fun u hu => hts u (List.mem_cons_of_mem t hu)) (new ++ ls) with
        ⟨r, new', hr, hn', he'⟩ | ⟨hnone, he'⟩
      · refine .inl ⟨r, new' ++ new, .next hother hr, fun l hl => ?_, by simpa using he'⟩
        rcases List.mem_append.mp hl with hl | hl
        · obtain ⟨u, hu, hask⟩ := hn' l hl
          exact ⟨u, List.mem_cons_of_mem t hu, hask⟩
        · exact hfirst new hn l hl
      · refine .inr ⟨fun r hr => ?_, he'⟩
        cases hr with
        | here hsig => exact showsSig_not_other hsig hother
        | next _ hr => exact hnone r hr
    · refine .inr ⟨fun r hr => ?_, by rw [he]⟩
      cases hr with
      | here h => exact hsig h
      | next h _ => exact hother h

end Shown

/-- A record of the entry format: where it starts, its type and its length. -/
structure Record where
  off : ℕ
  type : UInt8
  elen : UInt8
deriving DecidableEq

/-- The records from offset `off` on, up to the first that is malformed. -/
def recordsFrom (pl : Platform) (t len : ℕ) : ℕ → ℕ → List Record
  | 0, _ => []
  | fuel + 1, off =>
    if len < off + 2 then []
    else
      let elen := pl.byte (addrOf t (off + 1))
      if elen < 2 ∨ len < off + elen.toNat then []
      else ⟨off, pl.byte (addrOf t off), elen⟩ :: recordsFrom pl t len fuel (off + elen.toNat)

def Record.isReported (r : Record) : Bool := reported r.type

def Record.isOverride (r : Record) : Bool := r.type == acpiMadtIntOverride

def callFor (ps : List ℕ) (t : ℕ) (r : Record) : MadtEntry :=
  ⟨r.type, r.elen, some (ptrOf ps (addrOf t r.off))⟩

section Walk

variable {pl : Platform} {ps : List ℕ} {t len : ℕ}

theorem walkFrom_succ {fuel off n : ℕ} {ls : List Load} (h0 : 0 ∉ ps)
    (hps : ps.length ≤ acpiMapPages) (hheld : ∀ j < len, pageOf (addrOf t j) ∈ ps)
    (hlen : len ≤ acpiMapPages * 4096) (hoff : off ≤ len) :
    walkFrom pl t len (fuel + 1) off n (windowOf ps ls) =
      if len < off + 2 then .ok ⟨[], n, windowOf ps ls⟩
      else
        let elen := pl.byte (addrOf t (off + 1))
        let type := pl.byte (addrOf t off)
        let w := windowOf ps (fetched (addrOf t (off + 1)) :: fetched (addrOf t off) :: ls)
        if elen < 2 ∨ len < off + elen.toNat then .ok ⟨[], n, w⟩
        else if reported type then
          match walkFrom pl t len fuel (off + elen.toNat)
              (if type = acpiMadtIntOverride then n + 1 else n) w with
          | .error e => .error e
          | .ok r => .ok { r with calls := callFor ps t ⟨off, type, elen⟩ :: r.calls }
        else walkFrom pl t len fuel (off + elen.toNat) n w := by
  have helen := (pl.byte (addrOf t (off + 1))).toNat_lt
  unfold acpiMapPages at hlen
  have htwo : (off + 2) % 2 ^ 32 = off + 2 := Nat.mod_eq_of_lt (by omega)
  have hone : (off + 1) % 2 ^ 32 = off + 1 := Nat.mod_eq_of_lt (by omega)
  have hnext : (off + (pl.byte (addrOf t (off + 1))).toNat) % 2 ^ 32 =
      off + (pl.byte (addrOf t (off + 1))).toNat := Nat.mod_eq_of_lt (by omega)
  rw [walkFrom, htwo, hone]
  by_cases hend : len < off + 2
  · rw [if_pos hend, if_pos hend]
  have hp : pageOf (addrOf t off) ∈ ps := hheld off (by omega)
  rw [if_neg hend, if_neg hend, acpiRdb_held h0 hps hp]
  simp only
  rw [acpiRdb_held h0 hps (hheld (off + 1) (by omega))]
  simp only [hnext, acpiTablePtr, acpiMapField_held hp]
  rfl

/-- Loads at offsets below `len` of the table at `t`. -/
def WalkLoads (t len : ℕ) (new : List Load) : Prop :=
  ∀ l ∈ new, ∃ j < len, l = fetched (addrOf t j)

theorem walkLoads_nil : WalkLoads t len [] := by
  intro l hl
  cases hl

/-- The whole walk: it returns, calls back for the records of the reported types and only
reads below the table's length. -/
theorem walkFrom_eq {fuel off n : ℕ} {ls : List Load} (h0 : 0 ∉ ps)
    (hps : ps.length ≤ acpiMapPages) (hheld : ∀ j < len, pageOf (addrOf t j) ∈ ps)
    (hlen : len ≤ acpiMapPages * 4096) (hoff : off ≤ len) (hfuel : len < off + fuel) :
    ∃ new, WalkLoads t len new ∧
      walkFrom pl t len fuel off n (windowOf ps ls) =
        .ok ⟨((recordsFrom pl t len fuel off).filter (·.isReported)).map (callFor ps t),
          n + (recordsFrom pl t len fuel off).countP (·.isOverride), windowOf ps (new ++ ls)⟩ := by
  induction fuel generalizing off n ls with
  | zero => omega
  | succ fuel ih =>
    rw [walkFrom_succ h0 hps hheld hlen hoff, recordsFrom]
    by_cases hend : len < off + 2
    · rw [if_pos hend, if_pos hend]
      exact ⟨[], walkLoads_nil, rfl⟩
    rw [if_neg hend, if_neg hend]
    simp only
    generalize htype : pl.byte (addrOf t off) = type
    generalize helen : pl.byte (addrOf t (off + 1)) = elen
    -- the two bytes of the record's head
    have hhead : ∀ new, WalkLoads t len new →
        WalkLoads t len (new ++ [fetched (addrOf t (off + 1)), fetched (addrOf t off)]) := by
      intro new hnew l hl
      rcases List.mem_append.mp hl with hl | hl
      · exact hnew l hl
      · rcases List.mem_pair.mp hl with rfl | rfl
        · exact ⟨off + 1, by omega, rfl⟩
        · exact ⟨off, by omega, rfl⟩
    by_cases hbad : elen < 2 ∨ len < off + elen.toNat
    · rw [if_pos hbad, if_pos hbad]
      exact ⟨_, hhead [] walkLoads_nil, rfl⟩
    rw [if_neg hbad, if_neg hbad]
    obtain ⟨hmin, hfits⟩ := not_or.mp hbad
    have htwo : 2 ≤ elen.toNat := by
      have := UInt8.le_iff_toNat_le.mp (UInt8.not_lt.mp hmin)
      exact this
    have hrest := fun n ls => @ih (off + elen.toNat) n ls (by omega) (by omega)
    by_cases hrep : reported type
    · have hrec : Record.isReported ⟨off, type, elen⟩ = true := hrep
      rw [if_pos hrep, List.filter_cons_of_pos hrec]
      obtain ⟨new, hnew, he⟩ := hrest (if type = acpiMadtIntOverride then n + 1 else n)
        (fetched (addrOf t (off + 1)) :: fetched (addrOf t off) :: ls)
      refine ⟨new ++ [fetched (addrOf t (off + 1)), fetched (addrOf t off)], hhead new hnew, ?_⟩
      rw [he]
      simp only [List.map_cons, List.countP_cons, Record.isOverride, beq_iff_eq,
        List.append_assoc, List.cons_append, List.nil_append]
      split <;> simp [Nat.add_assoc, Nat.add_comm 1]
    · have hrec : ¬Record.isReported ⟨off, type, elen⟩ = true := hrep
      rw [if_neg hrep, List.filter_cons_of_neg hrec]
      obtain ⟨new, hnew, he⟩ := hrest n
        (fetched (addrOf t (off + 1)) :: fetched (addrOf t off) :: ls)
      refine ⟨new ++ [fetched (addrOf t (off + 1)), fetched (addrOf t off)], hhead new hnew, ?_⟩
      have hnot : ¬Record.isOverride ⟨off, type, elen⟩ = true := by
        intro heq
        unfold Record.isOverride at heq
        exact hrep (by simp [reported, heq])
      rw [he, List.countP_cons_of_neg hnot]
      simp only [List.append_assoc, List.cons_append, List.nil_append]

end Walk

/-- The records that the walk of the table at `t` meets. -/
def walked (pl : Platform) (t : ℕ) : List Record :=
  recordsFrom pl t (lengthOf pl t) (lengthOf pl t + 1) 8

/-- What `acpi_get_madt` returns once the search has ended. -/
def madtResult (pl : Platform) (ps : List ℕ) (r : Option ℕ) (ls : List Load) : Madt :=
  match r with
  | none => ⟨-1, [], none, windowOf ps ls⟩
  | some t =>
    if lengthOf pl t < 44 then ⟨-1, [], none, windowOf ps ls⟩
    else ⟨0, ((walked pl t).filter (·.isReported)).map (callFor ps t),
      some ((walked pl t).countP (·.isOverride)), windowOf ps ls⟩

section GetMadt

variable {pl : Platform} {s : State} {ps : List ℕ} {ls : List Load}

theorem touchAll_held {as : List ℕ} (h : ∀ a ∈ as, pageOf a ∈ ps) : touchAll ps as = ps := by
  induction as with
  | nil => rfl
  | cons a as ih =>
    have htouch : touch ps a = ps := if_pos (h a List.mem_cons_self)
    rw [touchAll, List.foldl_cons, htouch]
    exact ih fun b hb => h b (List.mem_cons_of_mem a hb)

theorem asks_length (t : ℕ) :
    (acpiRd32 t 4).Asks fun a => ∃ j, 4 ≤ j ∧ j < 8 ∧ a = addrOf t j := by
  have hrdb : ∀ j, 4 ≤ j → j < 8 →
      (rdb t j).Asks fun a => ∃ j, 4 ≤ j ∧ j < 8 ∧ a = addrOf t j :=
    fun j hl hr => ⟨⟨j, hl, hr, rfl⟩, fun _ => trivial⟩
  exact (hrdb 4 (by decide) (by decide)).bind fun _ =>
    (hrdb 5 (by decide) (by decide)).bind fun _ => (hrdb 6 (by decide) (by decide)).bind fun _ =>
    (hrdb 7 (by decide) (by decide)).bind fun _ => Prog.asks_pure _ _

theorem Ready.readLength (h : Ready pl s ps ls) {t : ℕ} (ht : t ∈ s.tables) (ls' : List Load) :
    ∃ new, WalkLoads t (lengthOf pl t) new ∧
      (acpiRd32 t 4).exec (acpiRdb pl) (windowOf ps ls') =
        .ok (lengthOf pl t, windowOf ps (new ++ ls')) := by
  have hlen : 36 ≤ lengthOf pl t := (h.sound t ht).1.2.1
  have hasks := (asks_length t).trace pl.byte
  have hheld : ∀ a ∈ (acpiRd32 t 4).trace pl.byte, pageOf a ∈ ps := by
    intro a ha
    obtain ⟨j, -, hj, rfl⟩ := hasks a ha
    exact h.held t ht j (by omega)
  have hps := touchAll_held hheld
  have hfit : Fits pl ps ((acpiRd32 t 4).trace pl.byte) := by
    refine ⟨fun a ha hz => ?_, hps.symm ▸ h.room, fun i hi hlt => ?_⟩
    · have hmem := hheld a ha
      rw [hz] at hmem
      exact h.nonzero hmem
    · rw [hps] at hlt
      exact absurd hlt (Nat.not_lt.mpr hi)
  refine ⟨(((acpiRd32 t 4).trace pl.byte).map fetched).reverse, ?_, ?_⟩
  · intro l hl
    obtain ⟨a, ha, rfl⟩ := List.mem_map.mp (List.mem_reverse.mp hl)
    obtain ⟨j, -, hj, rfl⟩ := hasks a ha
    exact ⟨j, by omega, rfl⟩
  · rw [exec_iff h.nonzero h.room, hps, run_acpiRd32]
    exact ⟨hfit, rfl, rfl⟩

theorem Finds.mem {ts : List ℕ} {r : Option ℕ} {t : ℕ} (h : Finds pl ps ts r)
    (hr : r = some t) : t ∈ ts := by
  induction h with
  | nil => cases hr
  | here _ =>
    cases hr
    exact List.mem_cons_self
  | next _ _ ih => exact List.mem_cons_of_mem _ (ih hr)

/-- `acpi_get_madt` returns exactly if its search ends, and then what is stated above. What it
reads after the signatures lies in the table that was found. -/
theorem Ready.getMadt (h : Ready pl s ps ls) :
    (∃ r sigs walk, Finds pl ps s.tables r ∧ SigLoads ps s.tables sigs ∧
        (∀ l ∈ walk, ∃ t, r = some t ∧ ∃ j < lengthOf pl t, l = fetched (addrOf t j)) ∧
        acpiGetMadt pl s = .ok (madtResult pl ps r (walk ++ (sigs ++ ls)))) ∨
      ((∀ r, ¬Finds pl ps s.tables r) ∧ acpiGetMadt pl s = .error .pageFault) := by
  rw [acpiGetMadt, h.win]
  rcases @acpiFindTable_shown pl ps s.tables (fun t ht => h.table_held ht) ls with
    ⟨r, sigs, hr, hsigs, he⟩ | ⟨hnone, he⟩
  · rw [he]
    refine .inl ?_
    cases r with
    | none => exact ⟨none, sigs, [], hr, hsigs, List.forall_mem_nil _, rfl⟩
    | some t =>
      have ht : t ∈ s.tables := hr.mem rfl
      obtain ⟨new₁, hnew₁, he₁⟩ := h.readLength ht (sigs ++ ls)
      have hphys : (ptrOf ps t).phys = t := rfl
      simp only [Option.map_some, hphys, he₁]
      by_cases hshort : lengthOf pl t < 44
      · refine ⟨some t, sigs, new₁, hr, hsigs, fun l hl => ⟨t, rfl, hnew₁ l hl⟩, ?_⟩
        rw [if_pos hshort, madtResult, if_pos hshort]
      · obtain ⟨new₂, hnew₂, he₂⟩ := @walkFrom_eq pl ps t (lengthOf pl t) (lengthOf pl t + 1) 8 0
          (new₁ ++ (sigs ++ ls)) h.nonzero h.room (h.held t ht) (h.length_le ht) (by omega)
          (by omega)
        refine ⟨some t, sigs, new₂ ++ new₁, hr, hsigs, fun l hl => ⟨t, rfl, ?_⟩, ?_⟩
        · rcases List.mem_append.mp hl with hl | hl
          · exact hnew₂ l hl
          · exact hnew₁ l hl
        · rw [if_neg hshort, acpiWalkMadt, he₂, madtResult, if_neg hshort]
          simp only [walked, Nat.zero_add, List.append_assoc]
  · rw [he]
    exact .inr ⟨hnone, rfl⟩

end GetMadt

/-- The bytes from an offset on are entries that end exactly at `len`. -/
inductive Entries (pl : Platform) (t len : ℕ) : ℕ → List Record → Prop
  | nil : Entries pl t len len []
  | cons {off : ℕ} {es : List Record} : 2 ≤ pl.byte (addrOf t (off + 1)) →
      Entries pl t len (off + (pl.byte (addrOf t (off + 1))).toNat) es →
      Entries pl t len off (⟨off, pl.byte (addrOf t off), pl.byte (addrOf t (off + 1))⟩ :: es)

/-- The table at `t` has the signature of an MADT. -/
def IsMadt (pl : Platform) (t : ℕ) : Prop :=
  (List.range 4).map (fun k => pl.byte (addrOf t k)) = apic
deriving Decidable

/-- The slots from that of `a` on hold the pages of the `n` bytes from `a` on in their order,
as they do when the bytes lie in one page. -/
def Contiguous (w : Window) (a n : ℕ) : Prop :=
  ∀ k < n, w.phys[w.phys.idxOf (pageOf a) + (a % 4096 + k) / 4096]? =
    some (pageOf (addrOf a k))

/-- A call of the callback reports an entry: its type, its length and its bytes. -/
def Reports (pl : Platform) (w : Window) (t : ℕ) (c : MadtEntry) (e : Record) : Prop :=
  c.type = e.type ∧ c.length = e.elen ∧ ∃ p, c.data = some p ∧
    ∀ k < e.elen.toNat, ∃ w', load pl w p k = .ok (pl.byte (addrOf t (e.off + k)), w')

/-- `acpi_get_madt` calls back once for each entry of a reported type, in order, and counts
the overrides. -/
def VisitsExactly (pl : Platform) (s : State) (t : ℕ) (es : List Record) : Prop :=
  ∃ m, acpiGetMadt pl s = .ok m ∧ m.ret = 0 ∧
    m.overrides = some (es.countP (·.isOverride)) ∧
    List.Forall₂ (Reports pl m.win t) m.calls (es.filter (·.isReported))

/-- `acpi_get_madt` returns. Its search has read signatures of registered tables; the loads
after it are at offsets below the length of the first registered MADT. -/
def StaysInside (pl : Platform) (s : State) : Prop :=
  ∃ m sigs walk, acpiGetMadt pl s = .ok m ∧ m.win.loads = walk ++ (sigs ++ s.win.loads) ∧
    (∀ l ∈ sigs, ∃ u ∈ s.tables, ∃ k < 4, l = fetched (addrOf u k)) ∧
    ∀ l ∈ walk, ∃ t, s.tables.find? (IsMadt pl ·) = some t ∧
      ∃ j < lengthOf pl t, l = fetched (addrOf t j)

/-- A record of the table at `u` has the type and the length of an entry of the table at
`t`, and the window shows the entry's bytes from the record's address on. -/
def SameShown (pl : Platform) (ps : List ℕ) (u t : ℕ) (r e : Record) : Prop :=
  r.type = e.type ∧ r.elen = e.elen ∧
    ∀ k < e.elen.toNat, shown pl ps (addrOf u r.off) k = some (pl.byte (addrOf t (e.off + k)))

/-- The search ends at a table whose records, walked from offset 8 on instead of 44, are
the entries as far as their types are reported. -/
def WalkMatches (pl : Platform) (ps ts : List ℕ) (t : ℕ) (es : List Record) : Prop :=
  ∃ u, Finds pl ps ts (some u) ∧ 44 ≤ lengthOf pl u ∧
    List.Forall₂ (SameShown pl ps u t) ((walked pl u).filter (·.isReported))
      (es.filter (·.isReported))

section Visits

variable {pl : Platform} {s : State} {ps : List ℕ} {ls : List Load} {t : ℕ}

theorem Finds.unique {ts : List ℕ} {r r' : Option ℕ} (h : Finds pl ps ts r)
    (h' : Finds pl ps ts r') : r = r' := by
  induction h with
  | nil =>
    cases h'
    rfl
  | here hsig =>
    cases h' with
    | here _ => rfl
    | next hother _ => exact absurd hother (showsSig_not_other hsig)
  | next hother _ ih =>
    cases h' with
    | here hsig => exact absurd hother (showsSig_not_other hsig)
    | next _ h' => exact ih h'

theorem reports_callFor {u : ℕ} {r e : Record} :
    Reports pl (windowOf ps ls) t (callFor ps u r) e ↔ SameShown pl ps u t r e := by
  have hload : ∀ k b, (∃ w, load pl (windowOf ps ls) (ptrOf ps (addrOf u r.off)) k = .ok (b, w)) ↔
      shown pl ps (addrOf u r.off) k = some b := by
    intro k b
    constructor
    · rintro ⟨w, hw⟩
      cases hs : shown pl ps (addrOf u r.off) k with
      | none =>
        rw [load_unshown hs] at hw
        cases hw
      | some b' =>
        obtain ⟨l, -, -, hl⟩ := (load_shown ls).mp hs
        rw [hl] at hw
        cases hw
        rfl
    · intro hs
      obtain ⟨l, -, -, hl⟩ := (load_shown ls).mp hs
      exact ⟨_, hl⟩
  simp only [Reports, SameShown, callFor, Option.some.injEq, exists_eq_left', hload]

theorem countP_isOverride (rs : List Record) :
    (rs.filter (·.isReported)).countP (·.isOverride) = rs.countP (·.isOverride) := by
  rw [List.countP_filter]
  apply List.countP_congr
  intro r _
  simp only [Record.isOverride, Record.isReported, reported, Bool.and_eq_true, Bool.or_eq_true]
  tauto

theorem countP_of_sameShown {u : ℕ} {rs es : List Record}
    (h : List.Forall₂ (SameShown pl ps u t) rs es) :
    rs.countP (·.isOverride) = es.countP (·.isOverride) := by
  induction h with
  | nil => rfl
  | cons hr _ ih =>
    rw [List.countP_cons, List.countP_cons, ih, Record.isOverride, Record.isOverride, hr.1]

theorem Ready.visits_iff (h : Ready pl s ps ls) (es : List Record) :
    VisitsExactly pl s t es ↔ WalkMatches pl ps s.tables t es := by
  rcases h.getMadt with ⟨r, sigs, walk, hr, -, -, he⟩ | ⟨hnone, he⟩
  · constructor
    · rintro ⟨m, hm, hret, -, hcalls⟩
      rw [he] at hm
      cases hm
      cases r with
      | none => cases hret
      | some u =>
        unfold madtResult at hret hcalls
        simp only at hret hcalls
        split at hret
        · cases hret
        · rename_i hlen
          rw [if_neg hlen, List.forall₂_map_left_iff] at hcalls
          exact ⟨u, hr, Nat.le_of_not_lt hlen, hcalls.imp fun _ _ => reports_callFor.mp⟩
    · rintro ⟨u, hu, hlen, hall⟩
      obtain rfl := hr.unique hu
      refine ⟨_, he, ?_⟩
      rw [madtResult, if_neg (Nat.not_lt.mpr hlen)]
      refine ⟨rfl, ?_, ?_⟩
      · rw [← countP_isOverride es, ← countP_of_sameShown hall, countP_isOverride]
      · rw [List.forall₂_map_left_iff]
        exact hall.imp fun _ _ => reports_callFor.mpr
  · constructor
    · rintro ⟨m, hm, -⟩
      rw [he] at hm
      cases hm
    · rintro ⟨u, hu, -⟩
      exact absurd hu (hnone _)

theorem madtResult_loads (r : Option ℕ) : (madtResult pl ps r ls).win.loads = ls := by
  unfold madtResult
  split
  · rfl
  · split <;> rfl

theorem Ready.lookAt_contiguous (h : Ready pl s ps ls) (ht : t ∈ s.tables) {off n k : ℕ}
    (hn : off + n ≤ lengthOf pl t) (hc : Contiguous s.win (addrOf t off) n) (hk : k < n) :
    lookAt ps (addrOf t off) k = some (addrOf t (off + k) % 2 ^ 52) := by
  have hheld : pageOf (addrOf t off) ∈ ps := h.held t ht off (by omega)
  have haddr : addrOf (addrOf t off) k = addrOf t (off + k) := by
    unfold addrOf
    omega
  have hpage : pageOf (addrOf t (off + k)) ∈ ps := h.held t ht (off + k) (by omega)
  have hslot := hc k hk
  have hidx : (windowOf ps ls).phys.idxOf (pageOf (addrOf t off)) =
      ps.idxOf (pageOf (addrOf t off)) := by
    rw [windowOf, List.idxOf_append, if_pos hheld]
  rw [h.win, hidx, haddr, windowOf, List.getElem?_append] at hslot
  split at hslot
  · rw [lookAt, hslot, Option.map_some, Option.some.injEq]
    unfold frameOf pageOf addrOf
    omega
  · -- an empty slot holds page 0, which is no page of a table
    have hzero := List.eq_of_mem_replicate (List.mem_of_getElem? hslot)
    rw [hzero] at hpage
    exact absurd hpage h.nonzero

theorem Ready.sig_shown (h : Ready pl s ps ls) (ht : t ∈ s.tables) (hc : Contiguous s.win t 4)
    {k : ℕ} (hk : k < 4) : lookAt ps t k = some (addrOf t k % 2 ^ 52) := by
  obtain ⟨⟨-, hlen, -⟩, hlt⟩ := h.sound t ht
  have ht0 : addrOf t 0 = t := Nat.mod_eq_of_lt hlt
  have hlook := @Ready.lookAt_contiguous pl s ps ls t h ht 0 4 k (by omega) (by rwa [ht0]) hk
  rwa [ht0, Nat.zero_add] at hlook

/-- A search that sees the signatures as they are ends at the first registered MADT. -/
theorem finds_find? {ts : List ℕ}
    (h : ∀ t ∈ ts, ∀ k < 4, lookAt ps t k = some (addrOf t k % 2 ^ 52)) :
    Finds pl ps ts (ts.find? (IsMadt pl ·)) := by
  induction ts with
  | nil => exact .nil
  | cons t ts ih =>
    have hrest := ih fun u hu => h u (List.mem_cons_of_mem t hu)
    have hshown : ∀ k < 4, shown pl ps t k = some (pl.byte (addrOf t k)) := by
      intro k hk
      rw [shown, h t List.mem_cons_self k hk]
      rfl
    have hsig : ShowsSig pl ps t apic 0 ↔ IsMadt pl t := by
      simp [ShowsSig, IsMadt, apic, hshown, List.range_succ]
    have hother : ShowsOther pl ps t apic 0 ↔ ¬IsMadt pl t := by
      rw [← hsig]
      simp only [ShowsOther, ShowsSig, apic, hshown, Nat.reduceAdd, Nat.reduceLT,
        Option.some.injEq, exists_eq_left']
      tauto
    by_cases hm : IsMadt pl t
    · rw [List.find?_cons_of_pos (by simpa using hm)]
      exact .here (hsig.mpr hm)
    · rw [List.find?_cons_of_neg (by simpa using hm)]
      exact .next (hother.mpr hm) hrest

theorem Ready.stays_inside (h : Ready pl s ps ls) (hsig : ∀ u ∈ s.tables, Contiguous s.win u 4) :
    StaysInside pl s := by
  have hlook := fun u hu k => @Ready.sig_shown pl s ps ls u h hu (hsig u hu) k
  have hfind := @finds_find? pl ps s.tables hlook
  rcases h.getMadt with ⟨r, sigs, walk, hr, hsigs, hwalk, he⟩ | ⟨hnone, -⟩
  · obtain rfl := hr.unique hfind
    refine ⟨_, sigs, walk, he, by rw [madtResult_loads, h.win]; rfl, fun l hl => ?_, hwalk⟩
    obtain ⟨u, hu, k, hk, hask, hgot⟩ := hsigs l hl
    rw [hlook u hu k hk, Option.some.injEq] at hgot
    refine ⟨u, hu, k, hk, ?_⟩
    rw [fetched, addrOf, Nat.add_zero, hgot, addrOf, Nat.mod_mod, ← addrOf, ← hask]
  · exact absurd hfind (hnone _)

end Visits

section Entries

variable {pl : Platform} {t mid len off : ℕ} {es : List Record}

theorem Entries.length_le (h : Entries pl t len off es) : off + 2 * es.length ≤ len := by
  induction h with
  | nil => simp
  | cons hmin _ ih =>
    have htwo := UInt8.le_iff_toNat_le.mp hmin
    rw [List.length_cons]
    have : (2 : UInt8).toNat = 2 := rfl
    omega

theorem Entries.mem_le (h : Entries pl t len off es) {e : Record} (he : e ∈ es) :
    e.off + e.elen.toNat ≤ len := by
  induction h with
  | nil => cases he
  | cons _ hrest ih =>
    rcases List.mem_cons.mp he with rfl | he
    · exact le_trans (Nat.le_add_right _ _) hrest.length_le
    · exact ih he

/-- The records that fill a part of the table are the ones a walk meets there. -/
theorem Entries.recordsFrom (h : Entries pl t mid off es) (hmid : mid ≤ len) (fuel : ℕ) :
    recordsFrom pl t len (es.length + fuel) off = es ++ recordsFrom pl t len fuel mid := by
  induction h with
  | nil => simp
  | cons hmin hrest ih =>
    have hlen := hrest.length_le
    have htwo := UInt8.le_iff_toNat_le.mp hmin
    have hval : (2 : UInt8).toNat = 2 := rfl
    rw [List.length_cons, Nat.add_right_comm, Acpi.recordsFrom, if_neg (by omega)]
    simp only
    rw [if_neg (not_or.mpr ⟨UInt8.not_lt.mpr hmin, by omega⟩), ih]
    rfl

theorem walked_eq {pre : List Record} (hpre : Entries pl t 44 8 pre)
    (hes : Entries pl t (lengthOf pl t) 44 es) : walked pl t = pre ++ es := by
  have hp := hpre.length_le
  have he := hes.length_le
  obtain ⟨fuel, hfuel⟩ : ∃ fuel, lengthOf pl t + 1 = pre.length + (es.length + fuel) :=
    ⟨lengthOf pl t + 1 - pre.length - es.length, by omega⟩
  have hend : recordsFrom pl t (lengthOf pl t) fuel (lengthOf pl t) = [] := by
    cases fuel with
    | zero => rfl
    | succ fuel => rw [recordsFrom, if_pos (by omega)]
  rw [walked, hfuel, hpre.recordsFrom (by omega), hes.recordsFrom le_rfl, hend, List.append_nil]

end Entries

/-- Let records fill the bytes from offset 8, where the walk starts, to offset 44. Then the
entries of the first MADT are reported exactly if none of those records is, provided that the
window holds the signatures and the reported entries in one piece. -/
theorem madt_walk_exact {pl : Platform} {busy : ℕ → Option ℕ} {rsdp : ℕ} {s : State}
    (h : acpiInit pl (boot busy) rsdp = .ok (0, s))
    (hsig : ∀ u ∈ s.tables, Contiguous s.win u 4) :
    (∀ t, s.tables.find? (IsMadt pl ·) = some t → 44 ≤ lengthOf pl t →
      ∀ pre es, Entries pl t 44 8 pre → Entries pl t (lengthOf pl t) 44 es →
        (∀ e ∈ es, e.isReported → Contiguous s.win (addrOf t e.off) e.elen.toNat) →
        (VisitsExactly pl s t es ↔ ∀ r ∈ pre, ¬r.isReported)) ∧
      StaysInside pl s := by
  obtain ⟨ls, hready⟩ := acpiInit_ready h
  refine ⟨fun t hfirst hlen pre es hpre hes hpages => ?_, hready.stays_inside hsig⟩
  have ht : t ∈ s.tables := List.mem_of_find?_eq_some hfirst
  have hfind := @finds_find? pl _ s.tables fun u hu k => hready.sig_shown hu (hsig u hu)
  rw [hfirst] at hfind
  have hsame : List.Forall₂ (SameShown pl (pinned pl rsdp) t t) (es.filter (·.isReported))
      (es.filter (·.isReported)) := by
    rw [List.forall₂_same]
    intro e he
    obtain ⟨hmem, hrep⟩ := List.mem_filter.mp he
    refine ⟨rfl, rfl, fun k hk => ?_⟩
    rw [shown, hready.lookAt_contiguous ht (hes.mem_le hmem) (hpages e hmem hrep) hk]
    rfl
  rw [hready.visits_iff, WalkMatches]
  constructor
  · rintro ⟨u, hu, -, hall⟩ r hr hrep
    obtain rfl : u = t := Option.some.inj (hu.unique hfind)
    have hcount := hall.length_eq
    rw [walked_eq hpre hes, List.filter_append, List.length_append] at hcount
    have hnone : pre.filter (·.isReported) = [] := List.eq_nil_of_length_eq_zero (by omega)
    exact List.filter_eq_nil_iff.mp hnone r hr hrep
  · intro hnone
    refine ⟨t, hfind, hlen, ?_⟩
    rwa [walked_eq hpre hes, List.filter_append, List.filter_eq_nil_iff.mpr hnone, List.nil_append]

/-- An MADT of 74 bytes at `0x1fc8`, of revision 5 and with the checksum byte 36: a local APIC,
an I/O APIC that reaches into the next page and an override. -/
def wholeFirmware : Platform :=
  ⟨sparse [(0x1008, 0xb0), (0x1010, 0x40), (0x1011, 0x10), (0x1044, 40), (0x1049, 241),
    (0x1064, 0xc8), (0x1065, 0x1f), (0x1fc8, 65), (0x1fc9, 80), (0x1fca, 73), (0x1fcb, 67),
    (0x1fcc, 74), (0x1fd0, 5), (0x1fd1, 36), (0x1fd2, 140), (0x1ff5, 8), (0x1ff8, 1),
    (0x1ffc, 1), (0x1ffd, 12), (0x1ffe, 2), (0x2002, 0xc0), (0x2003, 0xfe), (0x2008, 2),
    (0x2009, 10), (0x200c, 2)], fun _ => true⟩

def wholeEntries : List Record := [⟨44, 0, 8⟩, ⟨52, 1, 12⟩, ⟨64, 2, 10⟩]

theorem wholeEntries_ok :
    lengthOf wholeFirmware 0x1fc8 = 74 ∧ Entries wholeFirmware 0x1fc8 44 8 [⟨8, 5, 36⟩] ∧
      Entries wholeFirmware 0x1fc8 74 44 wholeEntries :=
  ⟨by decide +kernel, .cons (by decide +kernel) .nil, .cons (by decide +kernel)
    (.cons (by decide +kernel) (.cons (by decide +kernel) .nil))⟩

theorem madt_walk_whole :
    ∃ s, acpiInit wholeFirmware (boot fun _ => none) 0x1000 = .ok (0, s) ∧
      VisitsExactly wholeFirmware s 0x1fc8 wholeEntries ∧ StaysInside wholeFirmware s := by
  obtain ⟨s, h, hs⟩ := exists_of_map (f := fun s => (s.tables, s.win.phys)) (show
    (acpiInit wholeFirmware (boot fun _ => none) 0x1000).map
        (fun r => (r.1, r.2.tables, r.2.win.phys)) =
      .ok (0, [0x1fc8], 0x1000 :: 0x2000 :: List.replicate 14 0) by decide +kernel)
  obtain ⟨htables, hphys⟩ := Prod.mk.inj hs
  obtain ⟨hlen, hpre, hes⟩ := wholeEntries_ok
  have hsig : ∀ u ∈ s.tables, Contiguous s.win u 4 := by
    rw [htables]
    unfold Contiguous
    rw [hphys]
    decide +kernel
  have hfirst : s.tables.find? (IsMadt wholeFirmware ·) = some 0x1fc8 := by
    rw [htables]
    decide +kernel
  have hpages : ∀ e ∈ wholeEntries, e.isReported →
      Contiguous s.win (addrOf 0x1fc8 e.off) e.elen.toNat := by
    unfold Contiguous
    rw [hphys]
    decide +kernel
  obtain ⟨hvisits, hstays⟩ := madt_walk_exact h hsig
  have hiff := hvisits 0x1fc8 hfirst (by omega) _ wholeEntries hpre (by rwa [hlen]) hpages
  exact ⟨s, h, hiff.mpr (by decide), hstays⟩

/-- An MADT of 52 bytes at `0x1200`, of revision 1, with one local APIC. -/
def madtFirmware : Platform :=
  ⟨sparse [(0x1008, 0xb0), (0x1010, 0x40), (0x1011, 0x10), (0x1044, 40), (0x1049, 198),
    (0x1065, 0x12), (0x1200, 65), (0x1201, 80), (0x1202, 73), (0x1203, 67), (0x1204, 52),
    (0x1208, 1), (0x1209, 165), (0x122d, 8), (0x1230, 1)], fun _ => true⟩

def madtEntries : List Record :=
  [⟨44, madtFirmware.byte (addrOf 0x1200 44), madtFirmware.byte (addrOf 0x1200 45)⟩]

theorem madtEntries_ok :
    IsMadt madtFirmware 0x1200 ∧ lengthOf madtFirmware 0x1200 = 52 ∧
      Entries madtFirmware 0x1200 52 44 madtEntries := by
  have hlen : madtFirmware.byte (addrOf 0x1200 45) = 8 := by
    decide +kernel
  have hnext : 44 + (madtFirmware.byte (addrOf 0x1200 45)).toNat = 52 := by
    rw [hlen]
    rfl
  refine ⟨by unfold IsMadt; decide +kernel, by decide +kernel, .cons ?_ ?_⟩
  · rw [hlen]
    decide
  · rw [hnext]
    exact .nil

/-- The walk takes revision and checksum for a record that passes the table's end, and the
local APIC is not reported. -/
theorem madt_walk_misses_lapic :
    ∃ s, acpiInit madtFirmware (boot fun _ => none) 0x1000 = .ok (0, s) ∧
      0x1200 ∈ s.tables ∧ IsMadt madtFirmware 0x1200 ∧ 44 ≤ lengthOf madtFirmware 0x1200 ∧
      Entries madtFirmware 0x1200 (lengthOf madtFirmware 0x1200) 44 madtEntries ∧
      ¬VisitsExactly madtFirmware s 0x1200 madtEntries := by
  obtain ⟨s, h, hs⟩ := exists_of_map
      (f := fun s => (s.tables, (acpiGetMadt madtFirmware s).map (·.calls))) (show
    (acpiInit madtFirmware (boot fun _ => none) 0x1000).map (fun r => (r.1, r.2.tables,
        (acpiGetMadt madtFirmware r.2).map (·.calls))) =
      .ok (0, [0x1200], .ok []) by decide +kernel)
  obtain ⟨htables, hcalls⟩ := Prod.mk.inj hs
  obtain ⟨hsig, hlen, hentries⟩ := madtEntries_ok
  refine ⟨s, h, by simp [htables], hsig, by omega, by rw [hlen]; exact hentries, ?_⟩
  rintro ⟨m, hm, -, -, hall⟩
  rw [hm] at hcalls
  have hnil : m.calls = [] := Except.ok.inj hcalls
  have hone : madtEntries.filter (·.isReported) = madtEntries := by
    decide +kernel
  rw [hnil, hone] at hall
  cases hall

end VoidOS.Acpi
