import VoidOS.CString
import VoidOS.IpcFresh

namespace VoidOS.Svc

open Ipc CString Transition

/-- `svc_entry_t`. What follows the terminator in `name` is left over from earlier names. -/
structure Entry where
  name : Buffer
  ownerPid : Pid
  endpointId : ℕ

/-- `svc_registry` and `svc_count`, the number of slots ever used. -/
structure Table where
  slots : ℕ → Entry
  count : ℕ

def entryFree (e : Entry) : Bool := e.name 0 = 0

/-- `svc_validate_name` for a name that is not `NULL`. -/
def svcValidateName (name : Buffer) : ℤ :=
  let len := length name svcNameLen 0
  if len = 0 then veInval
  else if svcNameLen ≤ len then veInval
  else len

def svcFindName (t : Table) (name : Buffer) : Option ℕ :=
  (List.range t.count).find? fun i =>
    !entryFree (t.slots i) && equal (t.slots i).name name svcNameLen 0

def svcFreeSlot (t : Table) : Option (Table × ℕ) :=
  match (List.range t.count).find? fun i => entryFree (t.slots i) with
  | some i => some (t, i)
  | none =>
    if svcMaxServices ≤ t.count then none else some ({ t with count := t.count + 1 }, t.count)

def Table.set (t : Table) (i : ℕ) (e : Entry) : Table :=
  { t with slots := Function.update t.slots i e }

def sysSrRegister (t : Table) (s : State) (p : Pid) (name : Buffer) (h : ℤ) : Table × ℤ :=
  match s.procs p with
  | none => (t, veFault)
  | some pr =>
    if svcValidateName name < 0 then (t, svcValidateName name)
    else match svcCheckEndpoint s p pr h with
      | none => (t, veBadf)
      | some (he, _) =>
        if (svcFindName t name).isSome then (t, vePerm)
        else match svcFreeSlot t with
          | none => (t, veNomem)
          | some (t, i) =>
            (t.set i ⟨copy (t.slots i).name name svcNameLen 0, p, he.targetEndpointId⟩, 0)

def Entry.unname (e : Entry) : Entry := { e with name := Function.update e.name 0 0 }

def sysSrUnregister (t : Table) (s : State) (p : Pid) (name : Buffer) (h : ℤ) : Table × ℤ :=
  match s.procs p with
  | none => (t, veFault)
  | some pr =>
    if svcValidateName name < 0 then (t, svcValidateName name)
    else match svcCheckEndpoint s p pr h with
      | none => (t, veBadf)
      | some _ =>
        match svcFindName t name with
        | none => (t, veNoent)
        | some i =>
          if (t.slots i).ownerPid ≠ p then (t, vePerm)
          else (t.set i (t.slots i).unname, 0)

/-- `sys_sr_lookup`; `heap` says whether a handle table can be made. -/
def sysSrLookup (t : Table) (s : State) (p : Pid) (heap : Bool) (name : Buffer) : State × ℤ :=
  match s.procs p with
  | none => (s, veFault)
  | some _ =>
    if svcValidateName name < 0 then (s, svcValidateName name)
    else match svcFindName t name with
      | none => (s, veNoent)
      | some i =>
        match s.table p heap with
        | .error e => (s, e)
        | .ok (s, tab) =>
          match freeHandle tab with
          | none => (s, veNomem)
          | some h =>
            (s.setHandles p (Function.update tab h
              ⟨(t.slots i).ownerPid, (t.slots i).endpointId, true, 0⟩), h)

def svcOnEndpointClose (t : Table) (owner : Pid) (id : ℕ) : Table :=
  match (List.range t.count).find? fun i => !entryFree (t.slots i) &&
      (t.slots i).ownerPid = owner && (t.slots i).endpointId = id with
  | none => t
  | some i => t.set i (t.slots i).unname

def svcCleanupOwner (t : Table) (owner : Pid) : Table :=
  { t with slots := fun i =>
      if i < t.count ∧ (t.slots i).ownerPid = owner then (t.slots i).unname else t.slots i }

def Holds (t : Table) (i : ℕ) (l : List UInt8) : Prop :=
  i < t.count ∧ l ≠ [] ∧ Spells (t.slots i).name l

open Classical in
/-- What the table stands for: from names to endpoints, each an owner and a number. -/
noncomputable def bindings (t : Table) (l : List UInt8) : Option (Pid × ℕ) :=
  if h : ∃ i, Holds t i l then some ((t.slots h.choose).ownerPid, (t.slots h.choose).endpointId)
  else none

def boundNames (t : Table) : Set (List UInt8) := { l | bindings t l ≠ none }

structure Good (t : Table) : Prop where
  count_le : t.count ≤ svcMaxServices
  spelled : ∀ i < t.count, entryFree (t.slots i) = false →
    ∃ l, Spells (t.slots i).name l ∧ l.length < svcNameLen
  distinct : ∀ i j l, Holds t i l → Holds t j l → i = j

section Map

variable {t t' : Table} {i j : ℕ} {l : List UInt8} {e : Entry} {name : Buffer}

theorem Good.bindings_of_holds (g : Good t) (h : Holds t i l) :
    bindings t l = some ((t.slots i).ownerPid, (t.slots i).endpointId) := by
  have hex : ∃ i, Holds t i l := ⟨i, h⟩
  rw [bindings, dif_pos hex, g.distinct _ i l hex.choose_spec h]

theorem bindings_eq_none (h : ∀ i, ¬ Holds t i l) : bindings t l = none :=
  dif_neg (not_exists.mpr h)

theorem bindings_ne_none_iff : bindings t l ≠ none ↔ ∃ i, Holds t i l := by
  unfold bindings
  split
  · rename_i h
    simp [h]
  · rename_i h
    simp [h]

theorem holds_iff_spells (hi : i < t.count) (hs : Spells (t.slots i).name l) :
    Holds t i l ↔ entryFree (t.slots i) = false := by
  have hnil := hs.eq_nil_iff
  unfold Holds entryFree
  simp only [hi, hs, true_and, and_true, decide_eq_false_iff_not, ne_eq, hnil]

theorem Holds.not_free (h : Holds t i l) : entryFree (t.slots i) = false :=
  (holds_iff_spells h.1 h.2.2).mp h

theorem Good.exists_holds (g : Good t) (hi : i < t.count) (hf : entryFree (t.slots i) = false) :
    ∃ l, Holds t i l := by
  obtain ⟨l, hl, -⟩ := g.spelled i hi hf
  exact ⟨l, (holds_iff_spells hi hl).mpr hf⟩

theorem Good.length_lt (g : Good t) (h : Holds t i l) : l.length < svcNameLen := by
  obtain ⟨l', hl', hlt⟩ := g.spelled i h.1 h.not_free
  exact h.2.2.unique hl' ▸ hlt

theorem holds_congr (hc : t'.count = t.count) (hs : t'.slots i = t.slots i) :
    Holds t' i l ↔ Holds t i l := by
  unfold Holds
  rw [hc, hs]

theorem not_holds_unname (h : t.slots i = e.unname) : ¬ Holds t i l := by
  intro hh
  have hf := hh.not_free
  rw [h, entryFree, Entry.unname] at hf
  simp at hf

theorem Good.unname (g : Good t) (t' : Table) {S : ℕ → Prop} (hc : t'.count = t.count)
    (hin : ∀ i, S i → t'.slots i = (t.slots i).unname)
    (hout : ∀ i, ¬ S i → t'.slots i = t.slots i) :
    Good t' ∧ ∀ i l, Holds t' i l ↔ Holds t i l ∧ ¬ S i := by
  have hholds : ∀ i l, Holds t' i l ↔ Holds t i l ∧ ¬ S i := by
    intro i l
    by_cases hS : S i
    · exact ⟨fun h => absurd h (not_holds_unname (hin i hS)), fun h => absurd hS h.2⟩
    · rw [holds_congr hc (hout i hS)]
      exact ⟨fun h => ⟨h, hS⟩, And.left⟩
  refine ⟨⟨hc ▸ g.count_le, fun i hi hf => ?_, fun i j l h₁ h₂ => ?_⟩, hholds⟩
  · by_cases hS : S i
    · rw [hin i hS, entryFree, Entry.unname] at hf
      simp at hf
    · rw [hout i hS] at hf ⊢
      exact g.spelled i (hc ▸ hi) hf
  · exact g.distinct i j l ((hholds i l).mp h₁).1 ((hholds j l).mp h₂).1

section Freed

variable {S : ℕ → Prop} (hholds : ∀ i l, Holds t' i l ↔ Holds t i l ∧ ¬ S i)

include hholds

theorem bindings_of_freed (h : ∀ i, Holds t i l → S i) : bindings t' l = none := by
  apply bindings_eq_none
  intro i hi
  obtain ⟨hi, hS⟩ := (hholds i l).mp hi
  exact hS (h i hi)

theorem Good.bindings_of_kept (g : Good t) (g' : Good t')
    (hslots : ∀ i, ¬ S i → t'.slots i = t.slots i) (h : ∀ i, Holds t i l → ¬ S i) :
    bindings t' l = bindings t l := by
  by_cases hex : ∃ i, Holds t i l
  · obtain ⟨i, hi⟩ := hex
    have hS := h i hi
    rw [g.bindings_of_holds hi, g'.bindings_of_holds ((hholds i l).mpr ⟨hi, hS⟩), hslots i hS]
  · rw [bindings_eq_none (not_exists.mp hex)]
    apply bindings_eq_none
    intro i hi
    exact hex ⟨i, ((hholds i l).mp hi).1⟩

end Freed

theorem Good.fill (g : Good t) (t' : Table) (hi : i < t'.count)
    (hcount : t'.count ≤ svcMaxServices)
    (hfree : ∀ l', ¬ Holds t i l') (hslots : ∀ j, j ≠ i → t'.slots j = t.slots j)
    (hkeep : ∀ j, j ≠ i → (j < t'.count ↔ j < t.count)) (hl : l ≠ [])
    (hlen : l.length < svcNameLen) (hs : Spells (t'.slots i).name l) (hnew : ∀ j, ¬ Holds t j l) :
    Good t' ∧ bindings t' = Function.update (bindings t) l
      (some ((t'.slots i).ownerPid, (t'.slots i).endpointId)) := by
  have hself : Holds t' i l := ⟨hi, hl, hs⟩
  have hother : ∀ j l', j ≠ i → (Holds t' j l' ↔ Holds t j l') := by
    intro j l' hj
    unfold Holds
    rw [hslots j hj, hkeep j hj]
  have hat : ∀ l', Holds t' i l' → l' = l := fun l' h => h.2.2.unique hs
  have g' : Good t' := by
    refine ⟨hcount, fun j hj hf => ?_, fun j k l' hj hk => ?_⟩
    · by_cases hji : j = i
      · exact ⟨l, hji ▸ hs, hlen⟩
      · rw [hslots j hji] at hf ⊢
        exact g.spelled j ((hkeep j hji).mp hj) hf
    · by_cases hji : j = i
      · by_cases hki : k = i
        · exact hji.trans hki.symm
        · subst hji
          rw [hat l' hj] at hk
          exact absurd ((hother k l hki).mp hk) (hnew k)
      · by_cases hki : k = i
        · subst hki
          rw [hat l' hk] at hj
          exact absurd ((hother j l hji).mp hj) (hnew j)
        · exact g.distinct j k l' ((hother j l' hji).mp hj) ((hother k l' hki).mp hk)
  refine ⟨g', funext fun l' => ?_⟩
  by_cases hll : l' = l
  · subst hll
    rw [Function.update_self, g'.bindings_of_holds hself]
  · rw [Function.update_of_ne hll]
    by_cases hex : ∃ j, Holds t j l'
    · obtain ⟨j, hj⟩ := hex
      have hji : j ≠ i := by
        rintro rfl
        exact hfree l' hj
      rw [g.bindings_of_holds hj, g'.bindings_of_holds ((hother j l' hji).mpr hj), hslots j hji]
    · rw [bindings_eq_none (not_exists.mp hex), bindings_eq_none]
      intro j hj
      by_cases hji : j = i
      · exact hll (hat l' (hji ▸ hj))
      · exact hex ⟨j, (hother j l' hji).mp hj⟩

end Map

def NameLen (l : List UInt8) : Prop := 1 ≤ l.length ∧ l.length ≤ 31

section Helpers

variable {t t' : Table} {i : ℕ} {l : List UInt8} {name : Buffer}

/-- The check of a name, here and in the list of services. -/
theorem svcValidateName_cases (hs : Spells name l) :
    (NameLen l ∧ ¬ svcValidateName name < 0 ∧ Ipc.svcValidateName (some l) = .ok l) ∨
      (¬ NameLen l ∧ svcValidateName name < 0 ∧
        Ipc.svcValidateName (some l) = .error (svcValidateName name)) := by
  have hinval : veInval < 0 := by decide
  have h32 : svcNameLen = 32 := rfl
  unfold NameLen svcValidateName Ipc.svcValidateName
  rw [hs.length_eq, h32]
  dsimp only
  by_cases h0 : l.length = 0
  · rw [if_pos (by omega), if_pos h0]
    exact Or.inr ⟨by omega, hinval, rfl⟩
  by_cases hlong : 32 ≤ l.length
  · rw [if_neg (by omega), if_pos (by omega), if_neg h0, if_pos hlong]
    exact Or.inr ⟨by omega, hinval, rfl⟩
  · rw [if_neg (by omega), if_neg (by omega), if_neg h0, if_neg hlong]
    exact Or.inl ⟨by omega, by omega, rfl⟩

theorem Good.svcFindName_iff (g : Good t) (hs : Spells name l) (hlen : NameLen l) :
    svcFindName t name = some i ↔ Holds t i l := by
  have hlt : l.length < svcNameLen := Nat.lt_succ_of_le hlen.2
  have htest : ∀ i < t.count, ((!entryFree (t.slots i) &&
      equal (t.slots i).name name svcNameLen 0) = true ↔ Holds t i l) := by
    intro i hi
    rw [Bool.and_eq_true, Bool.not_eq_true']
    constructor
    · rintro ⟨hf, he⟩
      obtain ⟨l', hl', -⟩ := g.spelled i hi hf
      have := (hl'.equal_iff hs hlt).mp he
      subst this
      exact (holds_iff_spells hi hl').mpr hf
    · intro h
      exact ⟨h.not_free, (h.2.2.equal_iff hs hlt).mpr rfl⟩
  constructor
  · intro h
    have hi := List.mem_range.mp (List.mem_of_find?_eq_some h)
    exact (htest i hi).mp (by simpa using List.find?_some h)
  · intro h
    cases hf : svcFindName t name with
    | none =>
      have := List.find?_eq_none.mp hf i (List.mem_range.mpr h.1)
      exact absurd ((htest i h.1).mpr h) this
    | some j =>
      have hj := List.mem_range.mp (List.mem_of_find?_eq_some hf)
      have hhj := (htest j hj).mp (by simpa using List.find?_some hf)
      rw [g.distinct i j l h hhj]

theorem Good.svcFindName_none_iff (g : Good t) (hs : Spells name l) (hlen : NameLen l) :
    svcFindName t name = none ↔ bindings t l = none := by
  rw [← not_iff_not, ← ne_eq, ← ne_eq, bindings_ne_none_iff, Option.ne_none_iff_exists']
  exact exists_congr fun i => g.svcFindName_iff hs hlen

theorem svcFreeSlot_some (h : svcFreeSlot t = some (t', i)) :
    i < t'.count ∧ t'.count ≤ max t.count svcMaxServices ∧ t'.slots = t.slots ∧
      (∀ l, ¬ Holds t i l) ∧ ∀ j, j ≠ i → (j < t'.count ↔ j < t.count) := by
  unfold svcFreeSlot at h
  split at h
  · rename_i k hk
    cases h
    have hfree : entryFree (t.slots i) = true := by simpa using List.find?_some hk
    refine ⟨List.mem_range.mp (List.mem_of_find?_eq_some hk), le_max_left _ _, rfl, ?_,
      fun _ _ => Iff.rfl⟩
    intro l hl
    rw [hl.not_free] at hfree
    cases hfree
  · split at h
    · cases h
    · cases h
      rename_i hroom
      refine ⟨Nat.lt_succ_self _, le_max_of_le_right (Nat.not_le.mp hroom), rfl,
        fun l hl => absurd hl.1 (lt_irrefl _), ?_⟩
      intro j hj
      show j < t.count + 1 ↔ j < t.count
      omega

theorem Good.ncard_boundNames (g : Good t) : (boundNames t).ncard =
    ((Finset.range t.count).filter fun i => entryFree (t.slots i) = false).card := by
  classical
  have hex : ∀ i ∈ (Finset.range t.count).filter fun i => entryFree (t.slots i) = false,
      ∃ l, Holds t i l := by
    intro i hi
    rw [Finset.mem_filter, Finset.mem_range] at hi
    exact g.exists_holds hi.1 hi.2
  choose! text htext using hex
  have himage : boundNames t =
      (((Finset.range t.count).filter fun i => entryFree (t.slots i) = false).image text :
        Finset (List UInt8)) := by
    ext l
    rw [boundNames, Set.mem_ofPred_eq, bindings_ne_none_iff, Finset.mem_coe, Finset.mem_image]
    constructor
    · rintro ⟨i, hi⟩
      have hmem : i ∈ (Finset.range t.count).filter fun i => entryFree (t.slots i) = false := by
        rw [Finset.mem_filter, Finset.mem_range]
        exact ⟨hi.1, hi.not_free⟩
      exact ⟨i, hmem, (htext i hmem).2.2.unique hi.2.2⟩
    · rintro ⟨i, hmem, rfl⟩
      exact ⟨i, htext i hmem⟩
  rw [himage, Set.ncard_coe_finset, Finset.card_image_of_injOn]
  intro i hi j hj hij
  exact g.distinct i j (text i) (htext i hi) (hij ▸ htext j hj)

theorem Good.svcFreeSlot_none_iff (g : Good t) :
    svcFreeSlot t = none ↔ svcMaxServices ≤ (boundNames t).ncard := by
  have hle := g.count_le
  have hcard := Finset.card_filter_le (Finset.range t.count)
    fun i => entryFree (t.slots i) = false
  rw [Finset.card_range] at hcard
  rw [g.ncard_boundNames]
  unfold svcFreeSlot
  split
  · rename_i i hi
    have hmem := List.mem_range.mp (List.mem_of_find?_eq_some hi)
    have hlt : ((Finset.range t.count).filter fun i => entryFree (t.slots i) = false).card <
        (Finset.range t.count).card := by
      apply Finset.card_lt_card
      refine ⟨Finset.filter_subset _ _, fun hsub => ?_⟩
      have := Finset.mem_filter.mp (hsub (Finset.mem_range.mpr hmem))
      have hfree := List.find?_some hi
      rw [this.2] at hfree
      cases hfree
    rw [Finset.card_range] at hlt
    simp only [reduceCtorEq, false_iff]
    omega
  · rename_i hnone
    have hall : ((Finset.range t.count).filter fun i => entryFree (t.slots i) = false).card =
        t.count := by
      rw [Finset.filter_true_of_mem, Finset.card_range]
      intro i hi
      have := List.find?_eq_none.mp hnone i (List.mem_range.mpr (Finset.mem_range.mp hi))
      simpa using this
    rw [hall]
    split
    · rename_i h
      simp [h]
    · rename_i h
      simp [h]

end Helpers

/-- `h` is an allocated handle of `p` to the registered endpoint `id` of its own. -/
def OwnEndpoint (s : State) (p : Pid) (h : ℤ) (id : ℕ) : Prop :=
  ∃ pr tab, s.procs p = some pr ∧ pr.ipcHandles = some tab ∧ 0 ≤ h ∧ h < ipcMaxHandles ∧
    (tab h.toNat).allocated = true ∧ (tab h.toNat).targetPid = p ∧
    (tab h.toNat).targetEndpointId = id ∧
    ∃ i ep, endpointOf s.registry p id = some (i, ep) ∧ ep.ownerPid = p

/-- The process has, or can be given, a table with a free handle. -/
def HandleFree (s : State) (p : Pid) (heap : Bool) : Prop :=
  ∃ pr tab k, s.procs p = some pr ∧ lazyTable pr heap = some tab ∧ k < ipcMaxHandles ∧
    (tab k).allocated = false

def HandleTo (s : State) (p : Pid) (k : ℕ) (b : Pid × ℕ) : Prop :=
  ∃ pr tab, s.procs p = some pr ∧ pr.ipcHandles = some tab ∧ (tab k).allocated = true ∧
    (tab k).targetPid = b.1 ∧ (tab k).targetEndpointId = b.2

section Calls

variable {t : Table} {s : State} {p : Pid} {pr : Proc} {h : ℤ} {heap : Bool} {name : Buffer}
  {l : List UInt8} {owner : Pid} {id : ℕ}

theorem svcCheckEndpoint_iff (hp : s.procs p = some pr) :
    (∃ he ep, svcCheckEndpoint s p pr h = some (he, ep) ∧ he.targetEndpointId = id) ↔
      OwnEndpoint s p h id := by
  unfold svcCheckEndpoint OwnEndpoint
  constructor
  · rintro ⟨he, ep, hc, rfl⟩
    split at hc
    · cases hc
    rename_i hrange
    split at hc
    · cases hc
    rename_i tab ht
    dsimp only at hc
    split at hc
    · cases hc
    rename_i ha
    split at hc
    · cases hc
    rename_i hpid
    split at hc
    · cases hc
    rename_i i ep' hfind
    split at hc
    · cases hc
    rename_i hown
    cases hc
    exact ⟨pr, tab, hp, ht, by omega, by omega, by simpa using ha, by simpa using hpid, rfl, i, ep,
      hfind, by simpa using hown⟩
  · rintro ⟨pr', tab, hp', ht, h0, hlt, ha, hpid, rfl, i, ep, hfind, hown⟩
    rw [hp] at hp'
    cases hp'
    refine ⟨tab h.toNat, ep, ?_, rfl⟩
    rw [if_neg (by omega), ht]
    simp [ha, hpid, hfind, hown]

theorem checkEndpoint_none (hp : s.procs p = some pr) (hc : svcCheckEndpoint s p pr h = none) :
    ¬ OwnEndpoint s p h id := by
  intro hown
  obtain ⟨he, ep, hsome, -⟩ := (svcCheckEndpoint_iff hp).mpr hown
  rw [hc] at hsome
  cases hsome

/-- The checks that a registration and a removal share, here and in the list of services. -/
theorem checked_cases (hs : Spells name l) :
    (∃ e ≠ 0, ¬ (NameLen l ∧ ∃ id, OwnEndpoint s p h id) ∧
      (∀ t, sysSrRegister t s p name h = (t, e) ∧ sysSrUnregister t s p name h = (t, e)) ∧
      Ipc.sysSrRegister s p (some l) h = (s, e) ∧ Ipc.sysSrUnregister s p (some l) h = (s, e)) ∨
    ∃ pr he ep, s.procs p = some pr ∧ NameLen l ∧ ¬ svcValidateName name < 0 ∧
      Ipc.svcValidateName (some l) = .ok l ∧ svcCheckEndpoint s p pr h = some (he, ep) ∧
      ∀ id, OwnEndpoint s p h id ↔ id = he.targetEndpointId := by
  cases hp : s.procs p with
  | none =>
    refine Or.inl ⟨veFault, by decide, ?_, ?_⟩
    · rintro ⟨-, id, pr, tab, hp', -⟩
      rw [hp] at hp'
      cases hp'
    · simp [sysSrRegister, sysSrUnregister, Ipc.sysSrRegister, Ipc.sysSrUnregister, hp]
  | some pr =>
    rcases svcValidateName_cases hs with ⟨hlen, hpos, hok⟩ | ⟨hlen, hneg, herr⟩
    swap
    · refine Or.inl ⟨_, hneg.ne, fun hc => hlen hc.1, ?_⟩
      simp [sysSrRegister, sysSrUnregister, Ipc.sysSrRegister, Ipc.sysSrUnregister, hp, hneg, herr]
    cases hc : svcCheckEndpoint s p pr h with
    | none =>
      refine Or.inl ⟨veBadf, by decide, fun ⟨_, id, hown⟩ => checkEndpoint_none hp hc hown, ?_⟩
      simp [sysSrRegister, sysSrUnregister, Ipc.sysSrRegister, Ipc.sysSrUnregister, hp, hpos, hok,
        hc]
    | some c =>
      refine Or.inr ⟨pr, c.1, c.2, rfl, hlen, hpos, hok, hc, fun id => ?_⟩
      rw [← svcCheckEndpoint_iff hp, hc]
      constructor
      · rintro ⟨he, ep, ⟨⟩, rfl⟩
        rfl
      · rintro rfl
        exact ⟨c.1, c.2, rfl, rfl⟩

/-- A call that succeeds just if `ok` holds, and otherwise leaves the table. -/
structure Answers (t : Table) (ok : Prop) (done : Table → Prop) (r : Table × ℤ) : Prop where
  good : Good r.1
  zero : r.2 = 0 ↔ ok
  done : r.2 = 0 → done r.1
  kept : r.2 ≠ 0 → r.1 = t

theorem Good.refuse (g : Good t) {ok : Prop} {done : Table → Prop} {e : ℤ} (he : e ≠ 0)
    (hn : ¬ ok) : Answers t ok done (t, e) :=
  ⟨g, ⟨fun h => absurd h he, fun h => absurd h hn⟩, fun h => absurd h he, fun _ => rfl⟩

theorem Good.accept {t' : Table} (g : Good t') {ok : Prop} {done : Table → Prop} (hok : ok)
    (hdone : done t') : Answers t ok done (t', 0) :=
  ⟨g, ⟨fun _ => hok, fun _ => rfl⟩, fun _ => hdone, fun h => absurd rfl h⟩

theorem Good.register (g : Good t) (hs : Spells name l) :
    Answers t (NameLen l ∧ (∃ id, OwnEndpoint s p h id) ∧ bindings t l = none ∧
        (boundNames t).ncard < 64)
      (fun t' => ∀ id, OwnEndpoint s p h id →
        bindings t' = Function.update (bindings t) l (some (p, id)))
      (sysSrRegister t s p name h) := by
  rcases @checked_cases s p h name l hs with ⟨e, he, hn, heq, -⟩ |
    ⟨pr, he, ep, hp, hlen, hpos, -, hc, hown⟩
  · rw [(heq t).1]
    exact g.refuse he fun hc => hn ⟨hc.1, hc.2.1⟩
  unfold sysSrRegister
  rw [hp]
  dsimp only
  rw [if_neg hpos, hc]
  dsimp only
  split
  · rename_i hfind
    apply g.refuse (by decide)
    rintro ⟨-, -, hnone, -⟩
    rw [(g.svcFindName_none_iff hs hlen).mpr hnone] at hfind
    cases hfind
  rename_i hfind
  have hnone : bindings t l = none := by
    rw [← g.svcFindName_none_iff hs hlen]
    simpa using hfind
  split
  · rename_i hslot
    apply g.refuse (by decide)
    rintro ⟨-, -, -, hcard⟩
    exact absurd hcard (Nat.not_lt.mpr (g.svcFreeSlot_none_iff.mp hslot))
  · rename_i t' i hslot
    have hcard : (boundNames t).ncard < 64 := by
      by_contra hc
      rw [g.svcFreeSlot_none_iff.mpr (Nat.not_lt.mp hc)] at hslot
      cases hslot
    obtain ⟨hi, hcount, hslots, hfree, hkeep⟩ := svcFreeSlot_some hslot
    rw [Nat.max_eq_right g.count_le] at hcount
    have hlt : l.length < svcNameLen := Nat.lt_succ_of_le hlen.2
    have hnew : ∀ j, ¬ Holds t j l := fun j hj =>
      bindings_ne_none_iff.mpr ⟨j, hj⟩ hnone
    have hself : (t'.set i ⟨copy (t'.slots i).name name svcNameLen 0, p,
        he.targetEndpointId⟩).slots i = ⟨copy (t'.slots i).name name svcNameLen 0, p,
        he.targetEndpointId⟩ := Function.update_self ..
    obtain ⟨g', hb⟩ := g.fill (t'.set i ⟨copy (t'.slots i).name name svcNameLen 0, p,
      he.targetEndpointId⟩) hi hcount hfree
      (fun j hj => by rw [Table.set, ← hslots]; exact Function.update_of_ne hj _ _) hkeep
      (List.length_pos_iff.mp hlen.1) hlt (by rw [hself]; exact hs.copy _ hlt) hnew
    refine g'.accept ⟨hlen, ⟨_, (hown _).mpr rfl⟩, hnone, hcard⟩ fun id hid => ?_
    rw [(hown id).mp hid, hb, hself]

theorem Good.unregister (g : Good t) (hs : Spells name l) :
    Answers t (NameLen l ∧ (∃ id, OwnEndpoint s p h id) ∧ ∃ id, bindings t l = some (p, id))
      (fun t' => bindings t' = Function.update (bindings t) l none)
      (sysSrUnregister t s p name h) := by
  rcases @checked_cases s p h name l hs with ⟨e, he, hn, heq, -⟩ |
    ⟨pr, he, ep, hp, hlen, hpos, -, hc, hchk⟩
  · rw [(heq t).2]
    exact g.refuse he fun hc => hn ⟨hc.1, hc.2.1⟩
  unfold sysSrUnregister
  rw [hp]
  dsimp only
  rw [if_neg hpos, hc]
  dsimp only
  split
  · rename_i hfind
    apply g.refuse (by decide)
    rintro ⟨-, -, id, hb⟩
    rw [(g.svcFindName_none_iff hs hlen).mp hfind] at hb
    cases hb
  rename_i i hfind
  have hi := (g.svcFindName_iff hs hlen).mp hfind
  have hbind := g.bindings_of_holds hi
  split
  · rename_i hown
    apply g.refuse (by decide)
    rintro ⟨-, -, id, hb⟩
    rw [hbind] at hb
    cases hb
    exact hown rfl
  · rename_i hown
    rw [ne_eq, not_not] at hown
    have hout : ∀ j, j ≠ i → (t.set i (t.slots i).unname).slots j = t.slots j := fun j hj =>
      Function.update_of_ne hj _ _
    obtain ⟨g', hholds⟩ := g.unname (t.set i (t.slots i).unname) (S := (· = i)) rfl
      (fun j hj => by rw [hj]; exact Function.update_self ..) hout
    refine g'.accept ⟨hlen, ⟨_, (hchk _).mpr rfl⟩, _, hown ▸ hbind⟩ ?_
    funext l'
    by_cases hll : l' = l
    · subst hll
      rw [Function.update_self]
      exact bindings_of_freed hholds fun j hj => g.distinct j i l' hj hi
    · rw [Function.update_of_ne hll]
      apply g.bindings_of_kept hholds g' hout
      rintro j hj rfl
      exact hll (hj.2.2.unique hi.2.2)

theorem handleFree_iff {tab : HandleTable} :
    freeHandle tab ≠ none ↔ ∃ k < ipcMaxHandles, (tab k).allocated = false := by
  unfold freeHandle
  rw [ne_eq, List.find?_eq_none]
  simp

theorem Good.lookup (g : Good t) (hs : Spells name l) :
    (0 ≤ (sysSrLookup t s p heap name).2 ↔ bindings t l ≠ none ∧ HandleFree s p heap) ∧
    (0 ≤ (sysSrLookup t s p heap name).2 → ∃ b, bindings t l = some b ∧
      HandleTo (sysSrLookup t s p heap name).1 p (sysSrLookup t s p heap name).2.toNat b) := by
  have refuse : ∀ (s' : State) (e : ℤ), e < 0 → ¬ (bindings t l ≠ none ∧ HandleFree s p heap) →
      (0 ≤ (s', e).2 ↔ bindings t l ≠ none ∧ HandleFree s p heap) ∧
      (0 ≤ (s', e).2 → ∃ b, bindings t l = some b ∧ HandleTo (s', e).1 p (s', e).2.toNat b) :=
    fun s' e he hn => ⟨⟨fun h => absurd h (Int.not_le.mpr he), fun h => absurd h hn⟩,
      fun h => absurd h (Int.not_le.mpr he)⟩
  unfold sysSrLookup
  split
  · rename_i hp
    apply refuse _ veFault (by decide)
    rintro ⟨-, pr, tab, k, hp', -⟩
    rw [hp] at hp'
    cases hp'
  rename_i pr hp
  rcases svcValidateName_cases hs with ⟨hlen, hpos, -⟩ | ⟨hlen, hneg, -⟩
  swap
  · rw [if_pos hneg]
    apply refuse _ _ hneg
    rintro ⟨hb, -⟩
    obtain ⟨i, hi⟩ := bindings_ne_none_iff.mp hb
    exact hlen ⟨List.length_pos_iff.mpr hi.2.1, Nat.le_of_lt_succ (g.length_lt hi)⟩
  rw [if_neg hpos]
  split
  · rename_i hfind
    apply refuse _ veNoent (by decide)
    rintro ⟨hb, -⟩
    exact hb ((g.svcFindName_none_iff hs hlen).mp hfind)
  rename_i i hfind
  have hbind := g.bindings_of_holds ((g.svcFindName_iff hs hlen).mp hfind)
  split
  · rename_i e he
    have hlazy : lazyTable pr heap = none ∧ e = veNomem := by
      unfold State.table at he
      rw [hp] at he
      dsimp only at he
      split at he
      · rename_i hl
        cases he
        exact ⟨hl, rfl⟩
      · cases he
    rw [hlazy.2]
    apply refuse _ veNomem (by decide)
    rintro ⟨-, pr', tab, k, hp', hl, -⟩
    rw [hp] at hp'
    cases hp'
    rw [hlazy.1] at hl
    cases hl
  · rename_i s₁ tab he
    obtain ⟨-, pr', hp', hlazy, hp₁⟩ := table_spec he
    rw [hp] at hp'
    cases hp'
    split
    · rename_i hfree
      apply refuse _ veNomem (by decide)
      rintro ⟨-, pr', tab', k, hp', hl, hk, ha⟩
      rw [hp] at hp'
      cases hp'
      rw [hlazy] at hl
      cases hl
      exact handleFree_iff.mpr ⟨k, hk, ha⟩ hfree
    · rename_i k hfree
      obtain ⟨ha, hk⟩ := freeHandle_spec hfree
      refine ⟨⟨fun _ => ⟨by rw [hbind]; exact Option.some_ne_none _, pr, tab, k, hp, hlazy, hk, ha⟩,
        fun _ => Int.natCast_nonneg k⟩, fun _ => ⟨_, hbind, ?_⟩⟩
      refine ⟨_, _, (setHandles_procs hp₁ p).trans (if_pos rfl), rfl, ?_⟩
      rw [Int.toNat_natCast, Function.update_self]
      exact ⟨rfl, rfl, rfl⟩

theorem Good.cleanup (g : Good t) : Good (svcCleanupOwner t owner) ∧
    ∀ l, bindings (svcCleanupOwner t owner) l =
      (bindings t l).filter fun b => b.1 ≠ owner := by
  have hin : ∀ i, (i < t.count ∧ (t.slots i).ownerPid = owner) →
      (svcCleanupOwner t owner).slots i = (t.slots i).unname := fun i hi => if_pos hi
  have hout : ∀ i, ¬ (i < t.count ∧ (t.slots i).ownerPid = owner) →
      (svcCleanupOwner t owner).slots i = t.slots i := fun i hi => if_neg hi
  obtain ⟨g', hholds⟩ := g.unname (svcCleanupOwner t owner) rfl hin hout
  refine ⟨g', fun l => ?_⟩
  by_cases hex : ∃ i, Holds t i l
  · obtain ⟨i, hi⟩ := hex
    rw [g.bindings_of_holds hi]
    by_cases hown : (t.slots i).ownerPid = owner
    · rw [bindings_of_freed hholds fun j hj => g.distinct i j l hi hj ▸ ⟨hi.1, hown⟩]
      simp [Option.filter, hown]
    · rw [g.bindings_of_kept hholds g' hout fun j hj => g.distinct i j l hi hj ▸ fun hc =>
        hown hc.2, g.bindings_of_holds hi]
      simp [Option.filter, hown]
  · rw [bindings_eq_none (not_exists.mp hex)]
    apply bindings_eq_none
    intro i hi
    exact hex ⟨i, ((hholds i l).mp hi).1⟩

theorem Good.close (g : Good t) : Good (svcOnEndpointClose t owner id) := by
  unfold svcOnEndpointClose
  split
  · exact g
  · rename_i i _
    exact (g.unname (t.set i (t.slots i).unname) (S := (· = i)) rfl
      (fun j hj => by rw [hj]; exact Function.update_self ..)
      fun j hj => Function.update_of_ne hj _ _).1

end Calls

/-- The list of services of `Ipc.State` that a table stands for: an element for each slot, with
the text that its name spells. -/
structure Rep (t : Table) (svcs : List SvcEntry) : Prop where
  length : svcs.length = t.count
  slot : ∀ i (h : i < svcs.length), Spells (t.slots i).name svcs[i].name ∧
    svcs[i].ownerPid = (t.slots i).ownerPid ∧ svcs[i].endpointId = (t.slots i).endpointId

section Rep

variable {t t' : Table} {svcs svcs' : List SvcEntry} {s : State} {p : Pid} {h : ℤ} {heap : Bool}
  {name : Buffer} {l : List UInt8} {owner : Pid} {id i : ℕ}

/-- A search of the slots finds what the search of the list finds. -/
theorem Rep.find (r : Rep t svcs) {q : SvcEntry → Bool} {f : Entry → Bool}
    (hq : ∀ e sv, Spells e.name sv.name → sv.ownerPid = e.ownerPid →
      sv.endpointId = e.endpointId → q sv = f e) :
    svcs.findIdx? q = (List.range t.count).find? fun i => f (t.slots i) := by
  have hat : ∀ i (hi : i < svcs.length), q svcs[i] = f (t.slots i) := fun i hi =>
    hq _ _ (r.slot i hi).1 (r.slot i hi).2.1 (r.slot i hi).2.2
  ext i
  show svcs.findIdx? q = some i ↔ (List.range t.count).find? (fun i => f (t.slots i)) = some i
  rw [← r.length, List.findIdx?_eq_some_iff_getElem, List.find?_range_eq_some]
  constructor
  · rintro ⟨hi, hqi, hlt⟩
    refine ⟨hat i hi ▸ hqi, List.mem_range.mpr hi, fun j hj => ?_⟩
    rw [← hat j (hj.trans hi)]
    simpa using hlt j hj
  · rintro ⟨hqi, hmem, hlt⟩
    have hi := List.mem_range.mp hmem
    refine ⟨hi, (hat i hi).trans hqi, fun j hj => ?_⟩
    rw [hat j (hj.trans hi)]
    simpa using hlt j hj

theorem decide_eq_nil {e : Entry} (hs : Spells e.name l) : decide (l = []) = entryFree e :=
  decide_eq_decide.mpr hs.eq_nil_iff.symm

theorem Rep.findName (r : Rep t svcs) (hs : Spells name l) (hlen : NameLen l) :
    Ipc.svcFindName svcs l = svcFindName t name := by
  refine r.find (f := fun e => !entryFree e && equal e.name name svcNameLen 0) ?_
  intro e sv he _ _
  have hlt : l.length < svcNameLen := Nat.lt_succ_of_le hlen.2
  rw [decide_not, decide_eq_nil he, Bool.eq_iff_iff, Bool.and_eq_true, Bool.and_eq_true,
    decide_eq_true_eq, he.equal_iff hs hlt]

theorem spells_unname (e : Entry) : Spells e.unname.name [] :=
  ⟨fun _ hj => absurd hj (Nat.not_lt_zero _), List.forall_mem_nil _,
    Function.update_self 0 0 e.name⟩

/-- Slots that lose their name on both sides. -/
theorem Rep.unname (r : Rep t svcs) (hcount : t'.count = t.count)
    (hlen : svcs'.length = svcs.length) (hslot : ∀ i (h : i < svcs'.length) (h' : i < svcs.length),
      (t'.slots i = t.slots i ∧ svcs'[i] = svcs[i]) ∨
        (t'.slots i = (t.slots i).unname ∧ svcs'[i] = { svcs[i] with name := [] })) :
    Rep t' svcs' := by
  refine ⟨hlen.trans (r.length.trans hcount.symm), fun i hi => ?_⟩
  obtain ⟨hspell, hown, hid⟩ := r.slot i (hlen ▸ hi)
  rcases hslot i hi (hlen ▸ hi) with ⟨ht, hsv⟩ | ⟨ht, hsv⟩
  · rw [ht, hsv]
    exact ⟨hspell, hown, hid⟩
  · rw [ht, hsv]
    exact ⟨spells_unname _, hown, hid⟩

theorem Rep.unnameAt (r : Rep t svcs) (i : ℕ) : Rep (t.set i (t.slots i).unname)
    (svcs.modify i fun e => { e with name := [] }) := by
  refine r.unname rfl (List.length_modify ..) fun j hj hj' => ?_
  rw [List.getElem_modify]
  by_cases hij : i = j
  · subst hij
    rw [if_pos rfl]
    exact Or.inr ⟨Function.update_self .., rfl⟩
  · rw [if_neg hij]
    exact Or.inl ⟨Function.update_of_ne (Ne.symm hij) _ _, rfl⟩

theorem Rep.cleanup (r : Rep t svcs) :
    Rep (svcCleanupOwner t owner) (Ipc.svcCleanupOwner svcs owner) := by
  refine r.unname rfl (List.length_map ..) fun i hi hi' => ?_
  simp only [Ipc.svcCleanupOwner, svcCleanupOwner, List.getElem_map, ← r.length, hi', true_and,
    (r.slot i hi').2.1]
  by_cases hown : (t.slots i).ownerPid = owner
  · exact Or.inr ⟨if_pos hown, if_pos hown⟩
  · exact Or.inl ⟨if_neg hown, if_neg hown⟩

theorem Rep.close (r : Rep t svcs) :
    Rep (svcOnEndpointClose t owner id) (Ipc.svcOnEndpointClose svcs owner id) := by
  unfold svcOnEndpointClose Ipc.svcOnEndpointClose
  rw [r.find (f := fun e => !entryFree e && e.ownerPid = owner && e.endpointId = id)]
  · cases (List.range t.count).find? fun i => !entryFree (t.slots i) &&
        (t.slots i).ownerPid = owner && (t.slots i).endpointId = id with
    | none => exact r
    | some i => exact r.unnameAt i
  · intro e sv hs ho hid
    rw [decide_not, decide_eq_nil hs, ho, hid]

/-- The slot for a new name, on both sides. -/
theorem Rep.put (r : Rep t svcs) {sv : SvcEntry} (hs : Spells name sv.name)
    (hlen : sv.name.length < svcNameLen) :
    (svcFreeSlot t = none ∧ svcPut svcs sv = none) ∨
    ∃ t' i svcs', svcFreeSlot t = some (t', i) ∧ svcPut svcs sv = some svcs' ∧
      Rep (t'.set i ⟨copy (t'.slots i).name name svcNameLen 0, sv.ownerPid, sv.endpointId⟩)
        svcs' := by
  unfold svcFreeSlot svcPut
  rw [r.find (f := entryFree) fun e sv hs _ _ => decide_eq_nil hs, r.length]
  cases (List.range t.count).find? fun i => entryFree (t.slots i) with
  | some i =>
    refine Or.inr ⟨t, i, _, rfl, rfl, (List.length_set ..).trans r.length, fun j hj => ?_⟩
    rw [List.getElem_set, Table.set]
    dsimp only
    by_cases hij : i = j
    · rw [if_pos hij, ← hij, Function.update_self]
      exact ⟨hs.copy _ hlen, rfl, rfl⟩
    · rw [if_neg hij, Function.update_of_ne (Ne.symm hij)]
      exact r.slot j _
  | none =>
    dsimp only
    by_cases hfull : svcMaxServices ≤ t.count
    · exact Or.inl ⟨if_pos hfull, if_pos hfull⟩
    refine Or.inr ⟨_, _, _, if_neg hfull, if_neg hfull, ?_, fun j hj => ?_⟩
    · rw [List.length_append, r.length]
      rfl
    rw [List.getElem_append, Table.set]
    dsimp only
    split
    · rename_i hold
      rw [Function.update_of_ne (r.length ▸ hold).ne]
      exact r.slot j hold
    · rename_i hnew
      have hj' : j = t.count := by
        rw [List.length_append, List.length_singleton] at hj
        rw [← r.length]
        omega
      subst hj'
      rw [Function.update_self, List.getElem_singleton]
      exact ⟨hs.copy _ hlen, rfl, rfl⟩

/-- The calls on the table are the calls on the list it stands for. -/
theorem Rep.register (r : Rep t s.services) (hs : Spells name l) :
    Rep (sysSrRegister t s p name h).1 (Ipc.sysSrRegister s p (some l) h).1.services ∧
      (sysSrRegister t s p name h).2 = (Ipc.sysSrRegister s p (some l) h).2 := by
  rcases @checked_cases s p h name l hs with ⟨e, -, -, heq, heq', -⟩ |
    ⟨pr, he, ep, hp, hlen, hpos, hok, hc, -⟩
  · rw [(heq t).1, heq']
    exact ⟨r, rfl⟩
  unfold sysSrRegister Ipc.sysSrRegister
  simp only [hp, if_neg hpos, hok, hc, r.findName hs hlen]
  by_cases hf : (svcFindName t name).isSome
  · rw [if_pos hf, if_pos hf]
    exact ⟨r, rfl⟩
  rw [if_neg hf, if_neg hf]
  rcases @Rep.put t s.services name r ⟨l, p, he.targetEndpointId, ep.uid⟩ hs
    (Nat.lt_succ_of_le hlen.2) with ⟨hslot, hput⟩ | ⟨t', i, svcs', hslot, hput, hrep⟩
  · rw [hslot, hput]
    exact ⟨r, rfl⟩
  · rw [hslot, hput]
    exact ⟨hrep, rfl⟩

theorem Rep.services_getElem? (r : Rep t svcs) (hf : svcFindName t name = some i) :
    ∃ sv, svcs[i]? = some sv ∧ sv.ownerPid = (t.slots i).ownerPid ∧
      sv.endpointId = (t.slots i).endpointId := by
  have hi : i < svcs.length := by
    rw [r.length]
    exact List.mem_range.mp (List.mem_of_find?_eq_some hf)
  exact ⟨_, List.getElem?_eq_getElem hi, (r.slot i hi).2⟩

theorem Rep.unregister (r : Rep t s.services) (hs : Spells name l) :
    Rep (sysSrUnregister t s p name h).1 (Ipc.sysSrUnregister s p (some l) h).1.services ∧
      (sysSrUnregister t s p name h).2 = (Ipc.sysSrUnregister s p (some l) h).2 := by
  rcases @checked_cases s p h name l hs with ⟨e, -, -, heq, -, heq'⟩ |
    ⟨pr, he, ep, hp, hlen, hpos, hok, hc, -⟩
  · rw [(heq t).2, heq']
    exact ⟨r, rfl⟩
  unfold sysSrUnregister Ipc.sysSrUnregister
  simp only [hp, if_neg hpos, hok, hc, r.findName hs hlen]
  cases hf : svcFindName t name with
  | none => exact ⟨r, rfl⟩
  | some i =>
    obtain ⟨sv, hget, hown, -⟩ := r.services_getElem? hf
    dsimp only
    rw [hget, Option.map_some, hown]
    by_cases hmine : (t.slots i).ownerPid = p
    · rw [if_neg (not_not.mpr hmine), if_neg (not_not.mpr (congrArg some hmine))]
      exact ⟨r.unnameAt i, rfl⟩
    · rw [if_pos hmine, if_pos fun hc => hmine (Option.some.inj hc)]
      exact ⟨r, rfl⟩

theorem Rep.lookup (r : Rep t s.services) (hs : Spells name l) :
    (sysSrLookup t s p heap name).2 = (Ipc.sysSrLookup s p heap (some l)).2 := by
  unfold sysSrLookup Ipc.sysSrLookup
  cases s.procs p with
  | none => rfl
  | some pr =>
    dsimp only
    rcases svcValidateName_cases hs with ⟨hlen, hpos, hok⟩ | ⟨-, hneg, herr⟩
    swap
    · rw [if_pos hneg, herr]
    rw [if_neg hpos, hok]
    dsimp only
    rw [r.findName hs hlen]
    cases hf : svcFindName t name with
    | none => rfl
    | some i =>
      obtain ⟨sv, hget, -⟩ := r.services_getElem? hf
      rw [Option.bind_some, hget]
      dsimp only
      cases s.table p heap with
      | error e => rfl
      | ok st =>
        dsimp only
        cases freeHandle st.2 <;> rfl

end Rep

/-- The calls, each with the processes and endpoints it finds. -/
inductive Op
  | register (s : State) (p : Pid) (name : Buffer) (h : ℤ)
  | unregister (s : State) (p : Pid) (name : Buffer) (h : ℤ)
  | lookup (s : State) (p : Pid) (heap : Bool) (name : Buffer)
  | close (owner : Pid) (id : ℕ)
  | cleanup (owner : Pid)

def step (t : Table) : Op → Option Table
  | .register s p name h => some (sysSrRegister t s p name h).1
  | .unregister s p name h => some (sysSrUnregister t s p name h).1
  | .lookup .. => some t
  | .close owner id => some (svcOnEndpointClose t owner id)
  | .cleanup owner => some (svcCleanupOwner t owner)

def Terminated : Op → Prop
  | .register _ _ name _ => ∃ l, Spells name l
  | .unregister _ _ name _ => ∃ l, Spells name l
  | .lookup _ _ _ name => ∃ l, Spells name l
  | _ => True

def Init (t : Table) : Prop := t.count = 0

theorem reach_good {t : Table} (h : Reach step (fun _ a => Terminated a) Init t) : Good t := by
  apply h.invariant
  · intro t h0
    have hnone : ∀ i l, ¬ Holds t i l := fun i l hi => by
      rw [Holds, h0] at hi
      exact absurd hi.1 (Nat.not_lt_zero _)
    refine ⟨h0.trans_le (Nat.zero_le _), fun i hi => ?_, fun i j l hi => absurd hi (hnone i l)⟩
    rw [h0] at hi
    exact absurd hi (Nat.not_lt_zero _)
  · intro t a t' g hok hs
    cases a with
    | register s p name h =>
      obtain ⟨l, hl⟩ := hok
      cases hs
      exact (g.register hl).good
    | unregister s p name h =>
      obtain ⟨l, hl⟩ := hok
      cases hs
      exact (g.unregister hl).good
    | lookup s p heap name =>
      cases hs
      exact g
    | close owner id =>
      cases hs
      exact g.close
    | cleanup owner =>
      cases hs
      exact g.cleanup.1

/-- In every table the calls can lead to, no name is held twice and the next call acts on
the finite map from names to endpoints. -/
theorem table_refines_map {t : Table} (ht : Reach step (fun _ a => Terminated a) Init t) :
    (∀ i j l, Holds t i l → Holds t j l → i = j) ∧
    (∀ s p name l h, Spells name l →
      ((sysSrRegister t s p name h).2 = 0 ↔ NameLen l ∧ (∃ id, OwnEndpoint s p h id) ∧
        bindings t l = none ∧ (boundNames t).ncard < 64) ∧
      (∀ id, (sysSrRegister t s p name h).2 = 0 → OwnEndpoint s p h id →
        bindings (sysSrRegister t s p name h).1 = Function.update (bindings t) l (some (p, id))) ∧
      ((sysSrRegister t s p name h).2 ≠ 0 → (sysSrRegister t s p name h).1 = t)) ∧
    (∀ s p name l h, Spells name l →
      ((sysSrUnregister t s p name h).2 = 0 → (∃ id, bindings t l = some (p, id)) ∧
        bindings (sysSrUnregister t s p name h).1 = Function.update (bindings t) l none) ∧
      ((sysSrUnregister t s p name h).2 ≠ 0 → (sysSrUnregister t s p name h).1 = t)) ∧
    (∀ s p heap name l, Spells name l →
      (0 ≤ (sysSrLookup t s p heap name).2 ↔ bindings t l ≠ none ∧ HandleFree s p heap) ∧
      (0 ≤ (sysSrLookup t s p heap name).2 → ∃ b, bindings t l = some b ∧
        HandleTo (sysSrLookup t s p heap name).1 p (sysSrLookup t s p heap name).2.toNat b)) ∧
    (∀ owner l, bindings (svcCleanupOwner t owner) l =
      (bindings t l).filter fun b => b.1 ≠ owner) := by
  have g := reach_good ht
  refine ⟨g.distinct, ?_, ?_, ?_, fun owner l => g.cleanup.2 l⟩
  · intro s p name l h hs
    obtain ⟨-, hiff, hdone, hkeep⟩ := g.register (s := s) (p := p) (h := h) hs
    exact ⟨hiff, fun id h0 hid => hdone h0 id hid, hkeep⟩
  · intro s p name l h hs
    obtain ⟨-, hiff, hdone, hkeep⟩ := g.unregister (s := s) (p := p) (h := h) hs
    exact ⟨fun h0 => ⟨(hiff.mp h0).2.2, hdone h0⟩, hkeep⟩
  · intro s p heap name l hs
    exact g.lookup hs

def emptyTable : Table := ⟨fun _ => ⟨fun _ => 0, 0, 0⟩, 0⟩

/-- The kernel process with an endpoint. -/
def ownerState : State := (sysIpcEndpointCreate initState 0 true true).1

/-- `"fs"` and `"tty"`. -/
def fsName : List UInt8 := [102, 115]

def ttyName : List UInt8 := [116, 116, 121]

def text (l : List UInt8) : Buffer := fun i => l.getD i 0

theorem spells_text {l : List UInt8} (h : ∀ b ∈ l, b ≠ 0) : Spells (text l) l := by
  refine ⟨fun i hi => ?_, h, ?_⟩
  · simp [text, hi]
  · simp [text]

/-- Both names are registered. -/
def namedTable : Table :=
  (sysSrRegister (sysSrRegister emptyTable ownerState 0 (text fsName) 0).1 ownerState 0
    (text ttyName) 0).1

/-- The first one is removed again. -/
def renamedTable : Table := (sysSrUnregister namedTable ownerState 0 (text fsName) 0).1

theorem renamedTable_lookup :
    bindings renamedTable ttyName = some (0, 0) ∧ bindings renamedTable fsName = none ∧
    (sysSrLookup renamedTable ownerState 0 true (text ttyName)).2 = 1 ∧
    (sysSrLookup renamedTable ownerState 0 true (text fsName)).2 = veNoent ∧
    HandleTo (sysSrLookup renamedTable ownerState 0 true (text ttyName)).1 0 1 (0, 0) := by
  have hfs : Spells (text fsName) fsName := spells_text (by decide +kernel)
  have htty : Spells (text ttyName) ttyName := spells_text (by decide +kernel)
  have h₀ : Reach step (fun _ a => Terminated a) Init emptyTable := .init rfl
  have h₁ := h₀.step (a := Op.register ownerState 0 (text fsName) 0) ⟨_, hfs⟩ rfl
  have h₂ := h₁.step (a := Op.register ownerState 0 (text ttyName) 0) ⟨_, htty⟩ rfl
  have h₃ : Reach step (fun _ a => Terminated a) Init renamedTable :=
    h₂.step (a := Op.unregister ownerState 0 (text fsName) 0) ⟨_, hfs⟩ rfl
  have hown : OwnEndpoint ownerState 0 0 0 :=
    ⟨_, _, rfl, rfl, by decide, by decide, rfl, rfl, rfl, _, _, rfl, rfl⟩
  have hput := ((table_refines_map h₁).2.1 ownerState 0 _ _ 0 htty).2.1 0 (by decide +kernel) hown
  have hdel := (((table_refines_map h₂).2.2.1 ownerState 0 _ _ 0 hfs).1 (by decide +kernel)).2
  have hb : bindings renamedTable ttyName = some (0, 0) := by
    rw [renamedTable, namedTable, hdel, Function.update_of_ne (by decide), hput,
      Function.update_self]
  have hret : (sysSrLookup renamedTable ownerState 0 true (text ttyName)).2 = 1 := by
    decide +kernel
  obtain ⟨b, hb', hto⟩ := ((table_refines_map h₃).2.2.2.1 ownerState 0 true _ _ htty).2
    (by decide +kernel)
  refine ⟨hb, ?_, hret, by decide +kernel, ?_⟩
  · rw [renamedTable, namedTable, hdel, Function.update_self]
  · rw [← Option.some.inj (hb.symm.trans hb')] at hto
    rw [hret] at hto
    exact hto

end VoidOS.Svc
