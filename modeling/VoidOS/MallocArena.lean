import VoidOS.MallocAlloc

namespace VoidOS.Malloc

open ByteMem LinkedList

section Grow

variable {h : Heap} {l₁ ts : List Tile} {t : Tile} {b S c : ℕ} {pf : Bool} {fl pend : List ℕ}

theorem Whole.holeEnd (hw : Whole h ts fl) : Hole h ts h.aEnd 0 pf [] fl [] := by
  refine ⟨hw.start, hw.top, hw.tagged, hw.span.symm, trivial, by simp, by simp, hw.list, ?_, by simp⟩
  intro n
  rw [hw.nodes]
  simp [not_isNode_nil]

theorem Hole.extend (hh : Hole h l₁ b S pf [] fl pend) (hc : 16 ∣ c) (htop : h.aEnd + c < 2 ^ 48) :
    Hole { h with aEnd := h.aEnd + c } l₁ b (S + c) pf [] fl pend := by
  have hspan := hh.span
  rw [total_nil] at hspan
  refine ⟨hh.start, htop, hh.before, hh.place, trivial, ?_, dvd_add hh.aligned hc, hh.list, ?_, ?_⟩
  · rw [total_nil]
    dsimp only
    omega
  · intro n
    have hn := hh.nodes n
    simp only [not_isNode_nil] at hn ⊢
    exact hn
  · intro n hn
    have := hh.inside n hn
    omega

theorem freshBlock_spec (hw : Whole h ts fl) (hlast : lastFree false ts = false) (hc : 16 ∣ c)
    (h48 : 48 ≤ c) (htop : h.aEnd + c < 2 ^ 48) :
    ∃ fl', Whole (freshBlock h h.aEnd c) (ts ++ [⟨c, none⟩]) fl' ∧
      SameBlocks { h with aEnd := h.aEnd + c } (freshBlock h h.aEnd c) (Held h.aStart ts) := by
  have hadd : add64 h.aEnd c = h.aEnd + c := add64_of_lt (by omega)
  have hstart := hw.span
  generalize he : h.aEnd = e at *
  generalize hg : ({ h with aEnd := e + c } : Heap) = g
  have hge : g.aEnd = e + c := by rw [← hg]
  have hgs : g.aStart = h.aStart := by rw [← hg]
  have hfoot : (g.putTag e c 0).foot e = e + c - 16 := by
    rw [Heap.foot, Heap.size_putTag_self (by omega), hadd, headerSz, sub64_of_le (by omega)
      (by omega)]
  have heq : freshBlock h e c = flInsert ((g.putTag e c 0).putTag (e + c - 16) c 0) e := by
    rw [← hfoot, ← hg, ← hadd]
    rfl
  have hh : Hole g ts e c false [] fl [] := by
    have hend : Hole h ts h.aEnd 0 false [] fl [] := hw.holeEnd
    have hext := hend.extend hc (by omega)
    rw [zero_add, he, hg] at hext
    exact hext
  have hh₁ := (hh.putTag (s := c) (f := 0) le_rfl (by omega)).putTag (s := c) (f := 0)
    (x := e + c - 16) (by omega) (by omega)
  have hs₁ : SameAround g ((g.putTag e c 0).putTag (e + c - 16) c 0) ts (e + c) [] := by
    refine hh.sameAround ((SameArena.putTag _ _ (by omega) (by omega)).trans
      (SameArena.putTag _ _ (show g.aStart ≤ e + c - 16 by omega) (show e + c - 16 + 16 ≤ g.aEnd by
        omega))) fun x hx => ?_
    rw [Heap.putTag_apply (by omega), Heap.putTag_apply (by omega)]
  obtain ⟨hh₂, hs₂, -⟩ := hh₁.insert (R := c) (by simp) le_rfl hh.base rfl h48
    (by rw [Heap.size_putTag_of (by omega), Heap.size_putTag_self (by omega)])
    (by rw [Heap.flags_putTag_of (by omega), Heap.flags_putTag_self (by norm_num)])
  rw [Nat.sub_self, ← hlast] at hh₂
  rw [heq, ← hgs]
  exact ⟨_, hh₂.shut, (hs₁.trans hs₂).before⟩

theorem Heap.setSize_aEnd {h : Heap} {b v : ℕ} : (h.setSize b v).aEnd = h.aEnd := Heap.setMem_aEnd

theorem Heap.setFlags_aEnd {h : Heap} {b v : ℕ} : (h.setFlags b v).aEnd = h.aEnd := Heap.setMem_aEnd

theorem writeFoot_aEnd {h : Heap} {b : ℕ} : (writeFoot h b).aEnd = h.aEnd := by
  rw [writeFoot, Heap.setFlags_aEnd, Heap.setSize_aEnd]

theorem writeFoot_setEnd (h : Heap) (b e : ℕ) :
    writeFoot { h with aEnd := e } b = { writeFoot h b with aEnd := e } := by
  have hfoot : ({ h with aEnd := e } : Heap).foot b = h.foot b := rfl
  have hsize : ({ h with aEnd := e } : Heap).size b = h.size b := rfl
  have hset : ∀ f v, ({ h with aEnd := e } : Heap).setSize f v = { h.setSize f v with aEnd := e } :=
    fun _ _ => rfl
  have hflags : ∀ g : Heap, ({ g with aEnd := e } : Heap).flags b = g.flags b := fun _ => rfl
  unfold writeFoot
  dsimp only
  rw [hfoot, hsize, hset, hflags]
  generalize h.setSize (h.foot b) (h.size b) = g
  generalize h.foot b = f
  generalize g.flags b = v
  rfl

theorem extendTop_spec (hw : Whole h (l₁ ++ [t]) fl) (ht : t.free = true)
    (hb : b = h.aStart + total l₁) (hc : 16 ∣ c) (htop : h.aEnd + c < 2 ^ 48) :
    Whole (extendTop h b c) (l₁ ++ [⟨t.size + c, none⟩]) fl ∧
      SameBlocks { h with aEnd := h.aEnd + c } (extendTop h b c) (Held h.aStart (l₁ ++ [t])) := by
  obtain ⟨hsize, hflags, hpf, hb48, hh⟩ := hw.freeTag ht hb
  obtain ⟨-, hok, -⟩ := tagged_append.mp hw.tagged
  have hmin := hok.min
  have hspan := hh.span
  unfold minBlock at hmin
  rw [total_nil] at hspan
  generalize hg : ({ h with aEnd := h.aEnd + c } : Heap) = g
  have hge : g.aEnd = h.aEnd + c := by rw [← hg]
  have hgs : g.aStart = h.aStart := by rw [← hg]
  have hsum : add64 t.size c = t.size + c := add64_of_lt (by omega)
  have heq : extendTop h b c = writeFoot (g.setSize b (t.size + c)) b := by
    have hend : add64 h.aEnd c = h.aEnd + c := add64_of_lt (by omega)
    rw [extendTop, writeFoot_aEnd, Heap.setSize_aEnd, hsize, hsum, hend, ← writeFoot_setEnd, ← hg]
    rfl
  have hh₁ : Hole g l₁ b (t.size + c) true [] fl [b + headerSz] := by
    rw [← hg]
    exact hh.extend hc htop
  have hsize₁ : (g.setSize b (t.size + c)).size b = t.size + c := Heap.size_setSize_self (by omega)
  have hflags₁ : (g.setSize b (t.size + c)).flags b = 0 := by
    rw [Heap.flags_setSize (Or.inr le_rfl), ← hg]
    exact hflags
  have hh₂ : Hole (g.setSize b (t.size + c)) l₁ b (t.size + c) true [] fl [b + headerSz] := by
    apply hh₁.setSize le_rfl (by omega)
    intro n hn
    rw [List.mem_singleton] at hn
    unfold headerSz at hn
    omega
  obtain ⟨hs₃, hf₃, hfs, hff, hm₃⟩ := writeFoot_spec hsize₁ (by omega) (by omega)
  rw [hflags₁] at hff
  have hh₃ : Hole (writeFoot (g.setSize b (t.size + c)) b) l₁ b (t.size + c) true [] fl
      [b + headerSz] := by
    apply hh₂.frame hs₃.aStart hs₃.aEnd hf₃
    intro x hx
    apply hm₃
    rcases hx with hx | hx | ⟨n, hn, hx⟩
    · omega
    · omega
    · rw [List.mem_singleton] at hn
      unfold headerSz at hn
      omega
  have hsz₃ : (writeFoot (g.setSize b (t.size + c)) b).size b = t.size + c := by
    refine Eq.trans ?_ hsize₁
    apply word_congr
    intro x hlo hhi
    exact hm₃ x (by omega)
  have hfl₃ : (writeFoot (g.setSize b (t.size + c)) b).flags b = 0 := by
    refine Eq.trans ?_ hflags₁
    apply word_congr
    intro x hlo hhi
    exact hm₃ x (by omega)
  have hr := hh₂.range
  have hs₂ : SameAround g (g.setSize b (t.size + c)) l₁ (b + (t.size + c)) [] :=
    hh₁.sameAround (SameArena.setSize _ hh₁.range.1 (le_trans (by omega) hh₁.range.2)) fun x hx =>
      Heap.setSize_apply (by omega)
  have hs₄ := hs₂.trans (hh₂.sameAround ⟨hs₃, fun x hx => hm₃ x (by omega)⟩ fun x hx =>
    hm₃ x (by omega))
  -- the top block is free, so the blocks handed out are those before it
  have hheld : ∀ d u, Held h.aStart (l₁ ++ [t]) d u → Held h.aStart l₁ d u := by
    intro d u hu
    rw [held_append] at hu
    exact hu.resolve_right (not_held_of_free (by simpa using ht))
  rw [heq]
  refine ⟨?_, hs₄.toSameArena, fun d u hu => hs₄.before.payload d u (hgs ▸ hheld d u hu)⟩
  apply Hole.close
  · exact hh₃
  · refine ⟨dvd_add hok.aligned hc, by unfold minBlock; dsimp only; omega, hsz₃, ?_, by simp,
      fun _ => hpf, fun _ => ⟨hfs, hff⟩⟩
    rw [hpf]
    exact hfl₃

end Grow

section Find

variable {h : Heap} {ts : List Tile} {fl : List ℕ} {a b need q : ℕ} {t : Tile}

def starts : ℕ → List Tile → List ℕ
  | _, [] => []
  | a, t :: ts => a :: starts (a + t.size) ts

theorem length_starts : (starts a ts).length = ts.length := by
  induction ts generalizing a with
  | nil => rfl
  | cons t ts ih => simp [starts, ih]

theorem Has.mem_starts (hb : Has a ts b t) : b ∈ starts a ts := by
  induction ts generalizing a with
  | nil => exact hb.elim
  | cons u us ih =>
    rcases hb with ⟨rfl, -⟩ | hb
    · exact List.mem_cons_self
    · exact List.mem_cons_of_mem _ (ih hb)

theorem Whole.length_le (hw : Whole h ts fl) : fl.length ≤ ts.length := by
  have hsub : fl ⊆ (starts h.aStart ts).map (· + headerSz) := by
    intro n hn
    obtain ⟨b, t, hb, -, rfl⟩ := (hw.nodes n).mp hn
    exact List.mem_map.mpr ⟨b, hb.mem_starts, rfl⟩
  have hle := (List.subperm_of_subset hw.list.nodup hsub).length_le
  rwa [List.length_map, length_starts] at hle

theorem Whole.length_lt_fuel (hw : Whole h ts fl) : fl.length < h.fuel := by
  have hle := hw.length_le
  have htot := length_le_total hw.tagged
  have hspan := hw.span
  unfold Heap.fuel
  omega

/-- A walk ends: at 0 if no free block satisfies `f`, else at one that does. -/
theorem findFree_spec (hw : Whole h ts fl) (f : ℕ → Bool) :
    (h.findFree f = some 0 ∧ ∀ c u, Has h.aStart ts c u → u.free → f c = false) ∨
      ∃ b t, h.findFree f = some b ∧ Has h.aStart ts b t ∧ t.free = true ∧ f b = true := by
  have hfind : LinkedList.find h.next (fun n => f (n - headerSz)) h.fuel h.freeHead =
      some ((fl.find? fun n => f (n - headerSz)).getD 0) := by
    rw [← hw.list.chain.find hw.length_lt_fuel]
    exact (find_congr (fun x hx => (Heap.fwd_of_ne hx).symm) _ _ _)
  unfold Heap.findFree
  rw [hfind]
  cases hf : fl.find? fun n => f (n - headerSz) with
  | none =>
    refine Or.inl ⟨rfl, ?_⟩
    intro c u hc hu
    have := List.find?_eq_none.mp hf (c + headerSz) ((hw.nodes _).mpr ⟨c, u, hc, hu, rfl⟩)
    simpa using this
  | some n =>
    obtain ⟨b, t, hb, ht, rfl⟩ := (hw.nodes n).mp (List.mem_of_find?_eq_some hf)
    have hfb := List.find?_some hf
    exact Or.inr ⟨b, t, by simp, hb, ht, by simpa using hfb⟩

theorem topFreeBlock_spec (hw : Whole h ts fl) :
    (topFreeBlock h = some 0 ∧ lastFree false ts = false) ∨
      ∃ l t, ts = l ++ [t] ∧ t.free = true ∧ topFreeBlock h = some (h.aStart + total l) := by
  have hspan := hw.span
  have htop := hw.top
  have hend : ∀ c u, Has h.aStart ts c u → add64 c (h.size c) = c + u.size := by
    intro c u hc
    obtain ⟨pf, hok⟩ := hw.tagged.has hc
    have hle := hc.le
    rw [Heap.size, hok.size, add64_of_lt (by omega)]
  rcases findFree_spec hw fun blk => add64 blk (h.size blk) = h.aEnd with ⟨hf, hno⟩ | ⟨b, t, hf, hb, ht, hfb⟩
  · refine Or.inl ⟨hf, ?_⟩
    rcases List.eq_nil_or_concat ts with rfl | ⟨l, u, rfl⟩
    · rfl
    · rw [List.concat_eq_append] at *
      rw [lastFree_concat]
      by_contra hu
      have hhas : Has h.aStart (l ++ [u]) (h.aStart + total l) u := has_middle
      have := hno _ _ hhas (by simpa using hu)
      rw [hend _ _ hhas] at this
      simp only [total_append, total_cons, total_nil] at hspan
      simp only [decide_eq_false_iff_not] at this
      omega
  · rw [hend b t hb] at hfb
    obtain ⟨l₁, l₂, rfl, rfl⟩ := hb.split
    have hfb := of_decide_eq_true hfb
    obtain ⟨-, -, htag⟩ := tagged_append.mp hw.tagged
    have hlen := length_le_total htag
    rw [total_append, total_cons] at hspan
    have hnil : l₂ = [] := List.length_eq_zero_iff.mp (by omega)
    subst hnil
    exact Or.inr ⟨l₁, t, rfl, ht, hf⟩

end Find

end VoidOS.Malloc
