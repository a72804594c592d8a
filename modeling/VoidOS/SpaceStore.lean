import VoidOS.SpaceLoad

namespace VoidOS.Mm

open ByteMem PageTree Ownership

section Stores

variable {ph : Phys} {sp : Space}

theorem virtToPhys_alias {v : ℕ} (hok : SpaceOk ph sp) (hv : pml4Idx v < 256)
    (hp : present (vmmGetPte ph.ram sp.cr3 v) = true) :
    ∃ f ∈ sp.data, vmmVirtToPhys ph.ram sp.cr3 v = f * pageSize + v % pageSize := by
  have hplace : UserPlaces (indices v) := ⟨v, hv, List.prefix_rfl⟩
  have hflat := hok.tree.noHuge hplace
  rw [vmmGetPte_eq hflat] at hp
  have hlow : v % 2 ^ 48 < userLimit := by
    unfold pml4Idx at hv
    unfold userLimit
    omega
  have hind : indices v = indices (v % 2 ^ 48) := by
    rw [indices_eq_iff]
    omega
  have hleaf : leaf ph.ram sp.cr3 v = leaf ph.ram sp.cr3 (v % 2 ^ 48) := leaf_congr hind
  obtain ⟨f, hf, haddr, -, -⟩ := hok.phys_of_present hlow (hleaf ▸ hp)
  refine ⟨f, hf, ?_⟩
  rw [vmmVirtToPhys_eq hflat, if_pos hp, hleaf, haddr]
  exact or_eq_add (Nat.mul_mod_left f (2 ^ 12)) (Nat.mod_lt _ (by norm_num))

theorem SpaceOk.writePage {m : Mem} {f o n : ℕ} (hok : SpaceOk ph sp) (hf : f ∈ sp.data)
    (hfit : o + n ≤ pageSize)
    (hm : ∀ x, x < f * pageSize + o ∨ f * pageSize + o + n ≤ x → m x = ph.ram x) :
    Acts ph sp { ph with ram := m } sp := by
  apply hok.write
  intro x hx
  apply hm
  by_contra hc
  exact hx ((div_page (by omega) (by omega) : x / pageSize = f) ▸ hf)

theorem userStore_acts {v : ℕ} {b : UInt8} (hok : SpaceOk ph sp) (hv : v < userLimit)
    (hp : pageOk (vmmGetPte ph.ram sp.cr3 v) true = true) :
    Acts ph sp { ph with
      ram := Function.update ph.ram (vmmVirtToPhys ph.ram sp.cr3 v) b } sp := by
  simp only [pageOk, Bool.and_eq_true] at hp
  have hlow : pml4Idx v < 256 := by
    unfold pml4Idx
    unfold userLimit at hv
    omega
  obtain ⟨f, hf, he⟩ := virtToPhys_alias hok hlow hp.1.1
  apply hok.writePage (n := 1) hf (Nat.mod_lt v (show 0 < pageSize by decide))
  intro x hx
  rw [he]
  exact Function.update_of_ne (by omega) _ _

theorem copyOutFrom_acts {udst fuel done : ℕ} {src : List UInt8} {m' : Mem} {b : Bool}
    (hok : SpaceOk ph sp) (hr : udst + src.length ≤ userLimit)
    (hc : copyOutFrom sp.cr3 udst src fuel done ph.ram = (m', b)) :
    Acts ph sp { ph with ram := m' } sp := by
  induction fuel generalizing done ph with
  | zero =>
    cases hc
    exact .refl hok
  | succ fuel ih =>
    rw [copyOutFrom] at hc
    split at hc
    · cases hc
      exact .refl hok
    · rename_i hdone
      dsimp only at hc
      split at hc
      · cases hc
        exact .refl hok
      · rename_i hne
        obtain ⟨hpos, hle, hpage⟩ := chunkAt_spec udst (show done < src.length by omega)
        obtain ⟨f, hf, he⟩ := hok.virtToPhys (show udst + done < userLimit by omega) hne
        generalize chunkAt udst src.length done = n at hc hpos hle hpage
        have hfit : (udst + done) % pageSize + ((src.drop done).take n).length ≤ pageSize := by
          have := hpage (n - 1) (by omega)
          rw [List.length_take, List.length_drop]
          omega
        have hacts := hok.blit hf ((udst + done) % pageSize) ((src.drop done).take n) hfit
        rw [← he] at hacts
        exact hacts.trans (ih hacts.ok hc)

theorem copyToUser_acts {udst : ℕ} {src : List UInt8} {m' : Mem} {b : Bool} (hok : SpaceOk ph sp)
    (hc : copyToUser ph.ram sp.cr3 udst src = (m', b)) : Acts ph sp { ph with ram := m' } sp := by
  unfold copyToUser at hc
  split at hc
  · cases hc
    exact .refl hok
  · rename_i hrange
    apply copyOutFrom_acts hok _ hc
    simp only [Bool.not_eq_true', Bool.not_eq_false] at hrange
    exact (userRangeOk_iff.mp hrange).2.1

end Stores

end VoidOS.Mm
