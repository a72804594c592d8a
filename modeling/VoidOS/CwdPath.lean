import VoidOS.PathPlaces

namespace VoidOS.Vfs

inductive IsPlace (root : Node) : Node → List Node → Prop
  | root : IsPlace root root []
  | child {n c : Node} {above : List Node} :
      IsPlace root n above → c ∈ n.children → IsPlace root c (n :: above)

/-- The names from the root down, each after a slash; "/" at the root. -/
def pathOf (cur : Place) : List UInt8 :=
  slash :: [slash].intercalate (namesUp cur.1 cur.2).reverse

/-- What may stand between the slashes of a normalized path. -/
def IsName (name : List UInt8) : Prop :=
  name ≠ [] ∧ slash ∉ name ∧ name ≠ [dot] ∧ name ≠ [dot, dot]

/-- "/", or names separated by single slashes, with none at the end. -/
def Normal (path : List UInt8) : Prop :=
  ∃ names, path = slash :: [slash].intercalate names ∧ ∀ name ∈ names, IsName name

inductive Terminated : Node → Prop
  | intro {n : Node} : 0 ∉ n.name → (∀ c ∈ n.children, Terminated c) → Terminated n

/-- A tree that starts at a directory, with names as C strings. -/
structure TreeOk (root : Node) : Prop where
  wellFormed : WellFormed root
  dir : root.kind = .dir
  terminated : Terminated root

/-- What `vfs_resolve_abs` does with a relative path that starts at `cur`. -/
def resolveFrom (cur : Place) (path : List UInt8) : Except ℤ Place :=
  match walkPath path.length path cur with
  | .error e => .error e
  | .ok next =>
    if path.getLast? = some slash ∧ next.1.kind ≠ .dir then .error veNotdir else .ok next

section Places

variable {root n : Node} {cur next : Place} {above : List Node} {comp path : List UInt8}

theorem isPlace_step (h : IsPlace root cur.1 cur.2) (hs : stepComponent comp cur = .ok next) :
    IsPlace root next.1 next.2 := by
  rcases stepComponent_cases hs with rfl | ⟨parent, above, hup, rfl⟩ | ⟨c, hc, -, rfl⟩
  · exact h
  · rw [hup] at h
    cases h with
    | child h _ => exact h
  · exact .child h hc

theorem IsPlace.wellFormed (h : IsPlace root n above) (hroot : WellFormed root) :
    WellFormed n := by
  induction h with
  | root => exact hroot
  | child _ hc ih =>
    cases ih with
    | mk _ _ _ hsub => exact hsub _ hc

theorem WellFormed.isName {c : Node} (h : WellFormed n) (hc : c ∈ n.children) : IsName c.name := by
  cases h with
  | mk _ _ hname _ =>
    obtain ⟨hne, -, hslash, hdot, hdots⟩ := hname c hc
    exact ⟨hne, hslash, hdot, hdots⟩

theorem IsPlace.names (h : IsPlace root n above) (hroot : WellFormed root) :
    ∀ name ∈ namesUp n above, IsName name := by
  induction h with
  | root =>
    intro name hname
    cases hname
  | child hn hc ih =>
    intro name hname
    rcases List.mem_cons.mp hname with rfl | hname
    · exact (hn.wellFormed hroot).isName hc
    · exact ih name hname

theorem pathOf_normal (h : IsPlace root cur.1 cur.2) (hroot : WellFormed root) :
    Normal (pathOf cur) :=
  ⟨_, rfl, fun name hname => h.names hroot name (List.mem_reverse.mp hname)⟩

theorem components_intercalate {names : List (List UInt8)} (h : ∀ name ∈ names, IsName name) :
    components (slash :: [slash].intercalate names) = names := by
  rw [components_slash]
  by_cases hnil : names = []
  · rw [hnil]
    rfl
  · rw [components, List.splitOn_intercalate slash (fun name hname => (h name hname).2.1) hnil]
    apply List.filter_eq_self.mpr
    intro name hname
    simpa using (h name hname).1

theorem components_pathOf (h : IsPlace root cur.1 cur.2) (hroot : WellFormed root) :
    components (pathOf cur) = (namesUp cur.1 cur.2).reverse :=
  components_intercalate fun name hname => h.names hroot name (List.mem_reverse.mp hname)

theorem walkComponents_append (xs ys : List (List UInt8)) :
    walkComponents (xs ++ ys) cur =
      match walkComponents xs cur with
      | .error e => .error e
      | .ok next => walkComponents ys next := by
  induction xs generalizing cur with
  | nil => rfl
  | cons comp xs ih =>
    rw [List.cons_append, walkComponents, walkComponents]
    cases stepComponent comp cur with
    | error e => rfl
    | ok next => exact ih

theorem IsPlace.walk (h : IsPlace root n above) (hroot : WellFormed root) :
    walkComponents (namesUp n above).reverse (root, []) = .ok (n, above) := by
  induction h with
  | root => rfl
  | @child n c above hn hc ih =>
    rw [namesUp, List.reverse_cons, walkComponents_append, ih]
    have hstep : stepComponent c.name (n, above) = .ok (c, n :: above) :=
      (stepComponent_goes (hn.wellFormed hroot)).mpr (.down hc)
    exact walkComponents_cons hstep

theorem checkLast_dir {trailing : Prop} [Decidable trailing] (h : cur.1.kind = .dir) :
    checkLast trailing (.ok cur) = .ok cur :=
  if_neg fun hc => hc.2 h

theorem resolveAbs_pathOf (h : IsPlace root cur.1 cur.2) (hroot : WellFormed root)
    (hdir : cur.1.kind = .dir) : resolveAbs root (pathOf cur) = .ok cur := by
  rw [resolveAbs_eq rfl, components_pathOf h hroot, h.walk hroot]
  exact checkLast_dir hdir

theorem resolveFrom_eq :
    resolveFrom cur path =
      checkLast (path.getLast? = some slash) (walkComponents (components path) cur) := by
  rw [resolveFrom, walkPath_eq le_rfl]
  cases walkComponents (components path) cur <;> rfl

theorem absolutize_head {cwd abs : List UInt8} (hcwd : cwd.head? = some slash)
    (h : absolutize cwd path = some abs) : abs.head? = some slash := by
  unfold absolutize at h
  split_ifs at h
  · cases h
    assumption
  all_goals
    cases h
    cases cwd with
    | nil => cases hcwd
    | cons b cwd => exact hcwd

/-- The combination of a directory's path and a relative path has the components of both. -/
theorem components_absolutize {abs : List UInt8} (hrel : path.head? ≠ some slash)
    (h : absolutize (pathOf cur) path = some abs) :
    components abs = components (pathOf cur) ++ components path ∧
      (path ≠ [] → abs.getLast? = path.getLast?) := by
  rw [absolutize, if_neg hrel] at h
  by_cases hone : 1 < (pathOf cur).length
  · simp only [if_pos hone] at h
    split_ifs at h
    cases h
    refine ⟨?_, fun hne => ?_⟩
    · rw [List.append_assoc, List.singleton_append, components_append_slash]
    · rw [List.getLast?_append_of_ne_nil _ hne]
  · simp only [if_neg hone] at h
    split_ifs at h
    cases h
    -- the root's path is a single slash
    have hroot : pathOf cur = [slash] := by
      unfold pathOf at hone ⊢
      rw [List.length_cons] at hone
      rw [List.length_eq_zero_iff.mp (show ([slash].intercalate
        (namesUp cur.1 cur.2).reverse).length = 0 by omega)]
    rw [hroot]
    refine ⟨?_, fun hne => ?_⟩
    · rw [List.append_nil, List.singleton_append, components_slash, components_slash]
      rfl
    · rw [List.append_nil, List.getLast?_append_of_ne_nil _ hne]

/-- A relative path resolves, through the path of a directory, as from the directory. -/
theorem resolveAbs_relative {abs : List UInt8} (h : IsPlace root cur.1 cur.2)
    (hroot : WellFormed root) (hdir : cur.1.kind = .dir) (hrel : path.head? ≠ some slash)
    (habs : absolutize (pathOf cur) path = some abs) :
    resolveAbs root abs = resolveFrom cur path := by
  obtain ⟨hcomps, hlast⟩ := components_absolutize hrel habs
  rw [resolveAbs_eq (absolutize_head rfl habs), hcomps, walkComponents_append,
    components_pathOf h hroot, h.walk hroot, resolveFrom_eq]
  by_cases hne : path = []
  · subst hne
    exact (checkLast_dir hdir).trans (checkLast_dir hdir).symm
  · simp only [hlast hne]

end Places

section Building

variable {cur : Place}

theorem joinNames_eq {names : List (List UInt8)} {tmp r : List UInt8}
    (h : joinNames names tmp = some r) : r = tmp ++ [slash].intercalate names := by
  induction names generalizing tmp with
  | nil =>
    cases h
    simp [List.intercalate]
  | cons nm rest ih =>
    rw [joinNames] at h
    by_cases hlen : vfsPathMax ≤ tmp.length + nm.length + (if rest = [] then 0 else 1)
    · rw [if_pos hlen] at h
      cases h
    · rw [if_neg hlen] at h
      rw [ih h]
      cases rest <;> simp [List.intercalate]

theorem cwdOf_pathOf {cwd : List UInt8} (h : cwdOf cur = .ok cwd) : cwd = pathOf cur := by
  unfold cwdOf at h
  simp only at h
  split_ifs at h
  cases hj : joinNames (namesUp cur.1 cur.2).reverse [slash] with
  | none =>
    rw [hj] at h
    cases h
  | some tmp =>
    rw [hj] at h
    cases h
    exact joinNames_eq hj

end Building

section Errors

variable {root : Node} {cur : Place} {path comp cwd : List UInt8} {e : ℤ}

theorem stepComponent_error (h : stepComponent comp cur = .error e) : e < 0 := by
  unfold stepComponent at h
  split_ifs at h
  · split at h <;> cases h
  · cases h
    decide
  · cases h
    decide
  · split at h <;> cases h
    decide

theorem walkPath_error {fuel : ℕ} (h : walkPath fuel path cur = .error e) : e < 0 := by
  induction fuel generalizing path cur with
  | zero => cases h
  | succ fuel ih =>
    rw [walkPath] at h
    split_ifs at h
    split at h
    · rename_i hs
      cases h
      exact stepComponent_error hs
    · exact ih h

theorem resolveAbs_error (h : resolveAbs root path = .error e) : e < 0 := by
  unfold resolveAbs at h
  split_ifs at h
  · cases h
    decide
  split at h
  · rename_i hw
    cases h
    exact walkPath_error hw
  · split_ifs at h
    cases h
    decide

theorem copyUserPathFrom_error {m : ByteMem.Mem} {cr3 u n i : ℕ}
    (h : copyUserPathFrom m cr3 u n i = .error e) : e < 0 := by
  induction n generalizing i with
  | zero =>
    cases h
    decide
  | succ n ih =>
    rw [copyUserPathFrom] at h
    split_ifs at h
    · cases h
      decide
    split at h
    · split_ifs at h
      cases hr : copyUserPathFrom m cr3 u n (i + 1) with
      | error e' =>
        rw [hr] at h
        cases h
        exact ih hr
      | ok s =>
        rw [hr] at h
        cases h
    · cases h
      decide

theorem lookup_error {m : ByteMem.Mem} {cr3 upath : ℕ}
    (h : lookup m cr3 root cwd upath = .error e) : e < 0 := by
  unfold lookup at h
  split at h
  · rename_i hc
    cases h
    exact copyUserPathFrom_error hc
  split at h
  · cases h
    decide
  · exact resolveAbs_error h

theorem cwdOf_error (h : cwdOf cur = .error e) : e < 0 := by
  unfold cwdOf at h
  simp only at h
  split_ifs at h
  · cases h
    decide
  · split at h <;> cases h
    decide

end Errors

end VoidOS.Vfs
