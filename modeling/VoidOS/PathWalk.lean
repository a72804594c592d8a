import VoidOS.Voidfs

namespace VoidOS.Vfs

/-- Only directories have children, and the names of siblings are distinct names. -/
inductive WellFormed : Node → Prop
  | mk {kind : Kind} {name data : List UInt8} {children : List Node} :
      (kind = .reg → children = []) → (children.map Node.name).Nodup →
      (∀ c ∈ children, c.name ≠ [] ∧ c.name.length < vfsNameMax ∧ slash ∉ c.name ∧
        c.name ≠ [dot] ∧ c.name ≠ [dot, dot]) →
      (∀ c ∈ children, WellFormed c) → WellFormed (.mk kind name data children)

/-- What stands between the slashes of a path, empty components left out. -/
def components (path : List UInt8) : List (List UInt8) := (path.splitOn slash).filter (· ≠ [])

/-- Where a component goes: "." stays, ".." goes to the parent, a name to the child of that
name. -/
inductive Goes : List UInt8 → Place → Place → Prop
  | stay {cur : Place} : Goes [dot] cur cur
  | root {n : Node} : Goes [dot, dot] (n, []) (n, [])
  | up {n parent : Node} {above : List Node} : Goes [dot, dot] (n, parent :: above) (parent, above)
  | down {n c : Node} {above : List Node} : c ∈ n.children → Goes c.name (n, above) (c, n :: above)

def Leads (comp : List UInt8) (cur next : Place) : Prop := cur.1.kind = .dir ∧ Goes comp cur next

inductive Stops : List UInt8 → Place → ℤ → Prop
  | file {comp : List UInt8} {cur : Place} : cur.1.kind ≠ .dir → Stops comp cur veNotdir
  | long {comp : List UInt8} {cur : Place} : cur.1.kind = .dir → comp ≠ [dot] →
      comp ≠ [dot, dot] → vfsNameMax ≤ comp.length → Stops comp cur veNametoolong
  | missing {comp : List UInt8} {cur : Place} : cur.1.kind = .dir → comp ≠ [dot] →
      comp ≠ [dot, dot] → comp.length < vfsNameMax → (∀ c ∈ cur.1.children, c.name ≠ comp) →
      Stops comp cur veNoent

/-- The components in order, up to the first that leads nowhere. -/
inductive Walks : List (List UInt8) → Place → Except ℤ Place → Prop
  | done {cur : Place} : Walks [] cur (.ok cur)
  | step {comp : List UInt8} {comps : List (List UInt8)} {cur next : Place}
      {r : Except ℤ Place} : Leads comp cur next → Walks comps next r → Walks (comp :: comps) cur r
  | stop {comp : List UInt8} {comps : List (List UInt8)} {cur : Place} {e : ℤ} :
      Stops comp cur e → Walks (comp :: comps) cur (.error e)

/-- What an absolute path stands for; with a slash at its end it must be a directory. -/
inductive Resolves (root : Node) (path : List UInt8) : Except ℤ Place → Prop
  | found {cur : Place} : Walks (components path) (root, []) (.ok cur) →
      (path.getLast? = some slash → cur.1.kind = .dir) → Resolves root path (.ok cur)
  | file {cur : Place} : Walks (components path) (root, []) (.ok cur) →
      path.getLast? = some slash → cur.1.kind ≠ .dir → Resolves root path (.error veNotdir)
  | stop {e : ℤ} : Walks (components path) (root, []) (.error e) → Resolves root path (.error e)

/-- With "." and ".." applied at files as well, a name or a slash at the end still meets a
file. -/
inductive MeetsFile (trailing : Prop) : List (List UInt8) → Place → Prop
  | last {cur : Place} : cur.1.kind ≠ .dir → trailing → MeetsFile trailing [] cur
  | name {comp : List UInt8} {comps : List (List UInt8)} {cur : Place} : cur.1.kind ≠ .dir →
      comp ≠ [dot] → comp ≠ [dot, dot] → MeetsFile trailing (comp :: comps) cur
  | step {comp : List UInt8} {comps : List (List UInt8)} {cur next : Place} : Goes comp cur next →
      MeetsFile trailing comps next → MeetsFile trailing (comp :: comps) cur

/-- No "." or ".." comes after components that lead to a file, unless the path meets a file again
further on. -/
def DotsAtDirs (trailing : Prop) (comps : List (List UInt8)) (cur : Place) : Prop :=
  ∀ pre comp post file, comps = pre ++ comp :: post → comp = [dot] ∨ comp = [dot, dot] →
    Walks pre cur (.ok file) → file.1.kind ≠ .dir → MeetsFile trailing (comp :: post) file

section Components

variable {path xs ys : List UInt8}

@[simp] theorem components_nil : components [] = [] := by simp [components]

theorem components_append_slash (xs ys : List UInt8) :
    components (xs ++ slash :: ys) = components xs ++ components ys := by
  unfold components
  rw [List.splitOn_append_cons_self, List.filter_append]

theorem components_slash (ys : List UInt8) : components (slash :: ys) = components ys := by
  simpa using components_append_slash [] ys

theorem components_single (hne : xs ≠ []) (h : slash ∉ xs) : components xs = [xs] := by
  unfold components
  rw [List.splitOn_eq_singleton h]
  simp [hne]

theorem components_dropWhile (path : List UInt8) :
    components (path.dropWhile (· = slash)) = components path := by
  induction path with
  | nil => rfl
  | cons b path ih =>
    rw [List.dropWhile_cons]
    split
    · rename_i hb
      rw [of_decide_eq_true hb, components_slash, ih]
    · rfl

theorem components_cons (hne : path ≠ []) (hhead : path.head? ≠ some slash) :
    components path =
      path.takeWhile (· ≠ slash) :: components (path.dropWhile (· ≠ slash)) := by
  have hfirst : path.takeWhile (· ≠ slash) ≠ [] := by
    cases path with
    | nil => exact absurd rfl hne
    | cons b path => simpa using hhead
  have hno : slash ∉ path.takeWhile (· ≠ slash) := by
    intro hc
    simpa using List.mem_takeWhile_imp hc
  have hsplit := @List.takeWhile_append_dropWhile _ (fun b => decide (b ≠ slash)) path
  cases hrest : path.dropWhile (· ≠ slash) with
  | nil =>
    rw [hrest, List.append_nil] at hsplit
    rw [components_nil, hsplit, components_single hne (hsplit ▸ hno)]
  | cons b rest =>
    -- what stops the first component is a slash
    have hb : b = slash := by
      have := List.head?_dropWhile_not (fun b => decide (b ≠ slash)) path
      rw [hrest] at this
      simpa using this
    rw [hrest, hb] at hsplit
    conv_lhs => rw [← hsplit, components_append_slash, components_single hfirst hno]
    rw [hb, components_slash]
    rfl

end Components

/-- The components in order, as the code applies them. -/
def walkComponents : List (List UInt8) → Place → Except ℤ Place
  | [], cur => .ok cur
  | comp :: comps, cur =>
    match stepComponent comp cur with
    | .error e => .error e
    | .ok next => walkComponents comps next

def strictStep (comp : List UInt8) (cur : Place) : Except ℤ Place :=
  if cur.1.kind ≠ .dir then .error veNotdir else stepComponent comp cur

def strictWalk : List (List UInt8) → Place → Except ℤ Place
  | [], cur => .ok cur
  | comp :: comps, cur =>
    match strictStep comp cur with
    | .error e => .error e
    | .ok next => strictWalk comps next

def checkLast (trailing : Prop) [Decidable trailing] : Except ℤ Place → Except ℤ Place
  | .error e => .error e
  | .ok cur => if trailing ∧ cur.1.kind ≠ .dir then .error veNotdir else .ok cur

section Walk

variable {n c : Node} {cur next : Place} {comp name path : List UInt8} {comps : List (List UInt8)}
  {fuel : ℕ} {e : ℤ} {r : Except ℤ Place} {trailing : Prop} [Decidable trailing]

theorem walkPath_eq (h : path.length ≤ fuel) :
    walkPath fuel path cur = walkComponents (components path) cur := by
  induction fuel generalizing path cur with
  | zero =>
    rw [List.length_eq_zero_iff.mp (Nat.le_zero.mp h)]
    rfl
  | succ fuel ih =>
    rw [walkPath, ← components_dropWhile path]
    have hlen := (List.dropWhile_sublist (p := fun b => decide (b = slash)) (l := path)).length_le
    have hhead := List.head?_dropWhile_not (fun b => decide (b = slash)) path
    generalize path.dropWhile (fun b => decide (b = slash)) = rest at hlen hhead ⊢
    by_cases hnil : rest = []
    · rw [if_pos hnil, hnil]
      rfl
    · rw [if_neg hnil]
      have hslash : rest.head? ≠ some slash := by
        intro hc
        rw [hc] at hhead
        simp at hhead
      rw [components_cons hnil hslash, walkComponents]
      -- the component has a character, so less is left than before
      have hshort : (rest.dropWhile (· ≠ slash)).length ≤ fuel := by
        cases rest with
        | nil => exact absurd rfl hnil
        | cons b rest =>
          have hb : b ≠ slash := by simpa using hslash
          rw [List.dropWhile_cons, if_pos (by simpa using hb)]
          have := (List.dropWhile_sublist (p := fun b => decide (b ≠ slash)) (l := rest)).length_le
          rw [List.length_cons] at hlen
          omega
      cases stepComponent (rest.takeWhile (· ≠ slash)) cur with
      | error e => rfl
      | ok next => exact ih hshort

def PlaceOk (cur : Place) : Prop := WellFormed cur.1 ∧ ∀ n ∈ cur.2, WellFormed n

theorem WellFormed.children_name (h : WellFormed n) (hc : c ∈ n.children) :
    c.name.length < vfsNameMax ∧ c.name ≠ [dot] ∧ c.name ≠ [dot, dot] := by
  cases h with
  | mk _ _ hname _ =>
    obtain ⟨-, hlen, -, hdot, hdots⟩ := hname c hc
    exact ⟨hlen, hdot, hdots⟩

theorem WellFormed.dir (h : WellFormed n) (hc : c ∈ n.children) : n.kind = .dir := by
  cases h with
  | @mk kind _ _ children hreg _ _ _ =>
    cases kind with
    | dir => rfl
    | reg =>
      have hnil : children = [] := hreg rfl
      change c ∈ children at hc
      rw [hnil] at hc
      cases hc

theorem WellFormed.findChild (h : WellFormed n) :
    n.findChild name = some c ↔ c ∈ n.children ∧ c.name = name := by
  unfold Node.findChild
  constructor
  · intro hf
    exact ⟨List.mem_of_find?_eq_some hf, by simpa using List.find?_some hf⟩
  · rintro ⟨hc, rfl⟩
    cases hf : n.children.find? fun d => decide (d.name = c.name) with
    | none =>
      have := List.find?_eq_none.mp hf c hc
      simp at this
    | some d =>
      have hd : d.name = c.name := by simpa using List.find?_some hf
      have hnodup : (n.children.map Node.name).Nodup := by
        cases h
        assumption
      rw [List.inj_on_of_nodup_map hnodup (List.mem_of_find?_eq_some hf) hc hd]

theorem PlaceOk.step (h : PlaceOk cur) (hs : stepComponent comp cur = .ok next) :
    PlaceOk next := by
  unfold stepComponent at hs
  split at hs
  · cases hs
    exact h
  split at hs
  · split at hs <;> cases hs
    · exact h
    · rename_i parent above hup
      have hall := h.2
      rw [hup] at hall
      exact ⟨hall parent List.mem_cons_self, fun n hn => hall n (List.mem_cons_of_mem _ hn)⟩
  split at hs
  · cases hs
  split at hs
  · cases hs
  split at hs
  · cases hs
  · rename_i c hc
    cases hs
    obtain ⟨hwf, hall⟩ := h
    have hmem := (hwf.findChild.mp hc).1
    refine ⟨?_, List.forall_mem_cons.mpr ⟨hwf, hall⟩⟩
    cases hcur : cur.1
    rw [hcur] at hwf hmem
    cases hwf with
    | mk _ _ _ hsub => exact hsub c hmem

theorem stepComponent_name (hd : comp ≠ [dot]) (hdd : comp ≠ [dot, dot]) (hk : cur.1.kind = .dir) :
    stepComponent comp cur =
      if vfsNameMax ≤ comp.length then .error veNametoolong
      else
        match cur.1.findChild comp with
        | none => .error veNoent
        | some n => .ok (n, cur.1 :: cur.2) := by
  rw [stepComponent, if_neg hd, if_neg hdd]
  exact if_neg (not_not_intro hk)

theorem stepComponent_file (hd : comp ≠ [dot]) (hdd : comp ≠ [dot, dot]) (hk : cur.1.kind ≠ .dir) :
    stepComponent comp cur = .error veNotdir := by
  rw [stepComponent, if_neg hd, if_neg hdd, if_pos hk]

theorem stepComponent_dots (hcomp : comp = [dot] ∨ comp = [dot, dot]) :
    ∃ next, stepComponent comp cur = .ok next := by
  rcases hcomp with rfl | rfl
  · exact ⟨cur, rfl⟩
  · obtain ⟨n, _ | ⟨parent, above⟩⟩ := cur
    · exact ⟨(n, []), rfl⟩
    · exact ⟨(parent, above), rfl⟩

theorem stepComponent_goes (h : WellFormed cur.1) :
    stepComponent comp cur = .ok next ↔ Goes comp cur next := by
  constructor
  · intro hs
    by_cases hd : comp = [dot]
    · cases hd
      cases hs
      exact .stay
    by_cases hdd : comp = [dot, dot]
    · cases hdd
      obtain ⟨n, _ | ⟨parent, above⟩⟩ := cur
      · cases hs
        exact .root
      · cases hs
        exact .up
    by_cases hk : cur.1.kind = .dir
    · rw [stepComponent_name hd hdd hk] at hs
      split at hs
      · cases hs
      · split at hs
        · cases hs
        · rename_i c hc
          cases hs
          obtain ⟨hmem, rfl⟩ := h.findChild.mp hc
          exact .down hmem
    · rw [stepComponent_file hd hdd hk] at hs
      cases hs
  · intro hg
    cases hg with
    | stay => rfl
    | root => rfl
    | up => rfl
    | down hmem =>
      obtain ⟨hlen, hd, hdd⟩ := h.children_name hmem
      rw [stepComponent_name hd hdd (h.dir hmem), if_neg (Nat.not_le.mpr hlen)]
      dsimp only
      rw [h.findChild.mpr ⟨hmem, rfl⟩]

/-- At a directory the code fails where the component leads nowhere, with its error. -/
theorem stepComponent_stops (h : WellFormed cur.1) (hk : cur.1.kind = .dir) :
    stepComponent comp cur = .error e ↔ Stops comp cur e := by
  constructor
  · intro hs
    by_cases hcomp : comp = [dot] ∨ comp = [dot, dot]
    · obtain ⟨next, hnext⟩ := @stepComponent_dots cur comp hcomp
      rw [hnext] at hs
      cases hs
    obtain ⟨hd, hdd⟩ := not_or.mp hcomp
    rw [stepComponent_name hd hdd hk] at hs
    split at hs
    · rename_i hlen
      cases hs
      exact .long hk hd hdd hlen
    · rename_i hlen
      split at hs
      · rename_i hnone
        cases hs
        refine .missing hk hd hdd (Nat.not_le.mp hlen) fun c hc hname => ?_
        rw [h.findChild.mpr ⟨hc, hname⟩] at hnone
        cases hnone
      · cases hs
  · intro hs
    cases hs with
    | file hf => exact absurd hk hf
    | long _ hd hdd hlen => rw [stepComponent_name hd hdd hk, if_pos hlen]
    | missing _ hd hdd hlen hno =>
      rw [stepComponent_name hd hdd hk, if_neg (Nat.not_le.mpr hlen)]
      cases hf : cur.1.findChild comp with
      | none => rfl
      | some c =>
        obtain ⟨hc, hname⟩ := h.findChild.mp hf
        exact absurd hname (hno c hc)

theorem strictStep_dir (comp : List UInt8) (hk : cur.1.kind = .dir) :
    strictStep comp cur = stepComponent comp cur := if_neg (not_not_intro hk)

theorem strictStep_file (comp : List UInt8) (hk : cur.1.kind ≠ .dir) :
    strictStep comp cur = .error veNotdir := if_pos hk

theorem strictStep_leads (h : WellFormed cur.1) :
    strictStep comp cur = .ok next ↔ Leads comp cur next := by
  by_cases hk : cur.1.kind = .dir
  · rw [strictStep_dir comp hk, stepComponent_goes h]
    exact (and_iff_right hk).symm
  · rw [strictStep_file comp hk]
    constructor
    · nofun
    · exact fun hl => absurd hl.1 hk

theorem strictStep_stops (h : WellFormed cur.1) :
    strictStep comp cur = .error e ↔ Stops comp cur e := by
  by_cases hk : cur.1.kind = .dir
  · rw [strictStep_dir comp hk, stepComponent_stops h hk]
  · rw [strictStep_file comp hk]
    constructor
    · intro he
      cases he
      exact .file hk
    · intro hs
      cases hs with
      | file => rfl
      | long hdir => exact absurd hdir hk
      | missing hdir => exact absurd hdir hk

theorem PlaceOk.strictStep (h : PlaceOk cur) (hs : strictStep comp cur = .ok next) :
    PlaceOk next := by
  by_cases hk : cur.1.kind = .dir
  · rw [strictStep_dir comp hk] at hs
    exact h.step hs
  · rw [strictStep_file comp hk] at hs
    cases hs

theorem walks_strictWalk (h : PlaceOk cur) : Walks comps cur (strictWalk comps cur) := by
  induction comps generalizing cur with
  | nil => exact .done
  | cons comp comps ih =>
    rw [strictWalk]
    cases hs : strictStep comp cur with
    | error e => exact .stop ((strictStep_stops h.1).mp hs)
    | ok next => exact .step ((strictStep_leads h.1).mp hs) (ih (h.strictStep hs))

theorem strictWalk_iff (h : PlaceOk cur) : strictWalk comps cur = r ↔ Walks comps cur r := by
  constructor
  · intro hr
    rw [← hr]
    exact walks_strictWalk h
  · intro hw
    induction hw with
    | done => rfl
    | step hl _ ih =>
      have hs := (strictStep_leads h.1).mpr hl
      rw [strictWalk, hs]
      exact ih (h.strictStep hs)
    | stop hst => rw [strictWalk, (strictStep_stops h.1).mpr hst]

theorem walkComponents_cons (hs : stepComponent comp cur = .ok next) :
    walkComponents (comp :: comps) cur = walkComponents comps next := by
  rw [walkComponents, hs]

theorem walkComponents_stop (hs : stepComponent comp cur = .error e) :
    walkComponents (comp :: comps) cur = .error e := by
  rw [walkComponents, hs]

/-- The code answers `VE_NOTDIR` where the path meets a file that it does not pass over. -/
theorem checkLast_meets (h : PlaceOk cur) :
    checkLast trailing (walkComponents comps cur) = .error veNotdir ↔
      MeetsFile trailing comps cur := by
  induction comps generalizing cur with
  | nil =>
    rw [walkComponents, checkLast]
    constructor
    · intro he
      split at he
      · rename_i hc
        exact .last hc.2 hc.1
      · cases he
    · intro hm
      cases hm with
      | last hk ht => rw [if_pos ⟨ht, hk⟩]
  | cons comp comps ih =>
    cases hs : stepComponent comp cur with
    | ok next =>
      rw [walkComponents_cons hs, ih (h.step hs)]
      constructor
      · exact .step ((stepComponent_goes h.1).mp hs)
      · intro hm
        cases hm with
        | name hk hd hdd =>
          rw [stepComponent_file hd hdd hk] at hs
          cases hs
        | step hg hm =>
          rw [(stepComponent_goes h.1).mpr hg] at hs
          cases hs
          exact hm
    | error e =>
      rw [walkComponents_stop hs, checkLast]
      constructor
      · intro he
        cases he
        -- at a directory the step fails in other ways
        by_cases hk : cur.1.kind = .dir
        · have hstop := (stepComponent_stops h.1 hk).mp hs
          generalize hv : veNotdir = e at hstop
          cases hstop with
          | file hf => exact absurd hk hf
          | long => exact absurd hv (by decide)
          | missing => exact absurd hv (by decide)
        · have hno : ¬ (comp = [dot] ∨ comp = [dot, dot]) := by
            intro hc
            obtain ⟨next, hnext⟩ := @stepComponent_dots cur comp hc
            rw [hnext] at hs
            cases hs
          exact .name hk (fun hd => hno (.inl hd)) (fun hdd => hno (.inr hdd))
      · intro hm
        cases hm with
        | name hk hd hdd =>
          rw [stepComponent_file hd hdd hk] at hs
          rw [← hs]
        | step hg _ =>
          rw [(stepComponent_goes h.1).mpr hg] at hs
          cases hs

omit [Decidable trailing] in
theorem dotsAtDirs_dir (h : WellFormed cur.1) (hk : cur.1.kind = .dir)
    (hs : stepComponent comp cur = .ok next) :
    DotsAtDirs trailing (comp :: comps) cur ↔ DotsAtDirs trailing comps next := by
  have hlead : Leads comp cur next := ⟨hk, (stepComponent_goes h).mp hs⟩
  constructor
  · intro hdots pre comp' post file hsplit hcomp hw
    exact hdots (comp :: pre) comp' post file (by rw [hsplit]; rfl) hcomp (.step hlead hw)
  · intro hdots pre comp' post file hsplit hcomp hw hfile
    cases hw with
    | done => exact absurd hk hfile
    | step hl hw =>
      rw [List.cons_append, List.cons.injEq] at hsplit
      obtain ⟨rfl, hsplit⟩ := hsplit
      rw [(stepComponent_goes h).mpr hl.2] at hs
      cases hs
      exact hdots _ comp' post file hsplit hcomp hw hfile

omit [Decidable trailing] in
theorem dotsAtDirs_file (hk : cur.1.kind ≠ .dir) :
    DotsAtDirs trailing (comp :: comps) cur ↔ MeetsFile trailing (comp :: comps) cur := by
  constructor
  · intro hdots
    by_cases hcomp : comp = [dot] ∨ comp = [dot, dot]
    · exact hdots [] comp comps cur rfl hcomp .done hk
    · obtain ⟨hd, hdd⟩ := not_or.mp hcomp
      exact .name hk hd hdd
  · intro hm pre comp' post file hsplit hcomp hw hfile
    cases hw with
    | done =>
      rw [List.nil_append] at hsplit
      rw [← hsplit]
      exact hm
    | step hl _ => exact absurd hl.1 hk

/-- The walk of the code is the strict one where no dot component passes over a file. -/
theorem checkLast_walk (h : PlaceOk cur) :
    checkLast trailing (walkComponents comps cur) = checkLast trailing (strictWalk comps cur) ↔
      DotsAtDirs trailing comps cur := by
  induction comps generalizing cur with
  | nil =>
    constructor
    · intro _ pre comp post file hsplit
      simp at hsplit
    · intro _
      rfl
  | cons comp comps ih =>
    by_cases hk : cur.1.kind = .dir
    · rw [strictWalk, strictStep_dir comp hk]
      cases hs : stepComponent comp cur with
      | ok next =>
        rw [walkComponents_cons hs, dotsAtDirs_dir h.1 hk hs]
        exact ih (h.step hs)
      | error e =>
        rw [walkComponents_stop hs]
        refine iff_of_true rfl fun pre comp' post file hsplit _ hw hfile => ?_
        cases hw with
        | done => exact absurd hk hfile
        | step hl _ =>
          rw [List.cons_append, List.cons.injEq] at hsplit
          rw [hsplit.1, (stepComponent_goes h.1).mpr hl.2] at hs
          cases hs
    · rw [strictWalk, strictStep_file comp hk, dotsAtDirs_file hk, ← checkLast_meets h]
      rfl

theorem resolves_iff {root : Node} (h : WellFormed root) :
    Resolves root path r ↔
      checkLast (path.getLast? = some slash) (strictWalk (components path) (root, [])) = r := by
  have hplace : PlaceOk (root, []) := ⟨h, by simp⟩
  constructor
  · intro hr
    cases hr with
    | found hw hdir =>
      rw [(strictWalk_iff hplace).mpr hw, checkLast, if_neg]
      exact fun hc => hc.2 (hdir hc.1)
    | file hw hlast hk => rw [(strictWalk_iff hplace).mpr hw, checkLast, if_pos ⟨hlast, hk⟩]
    | stop hw => rw [(strictWalk_iff hplace).mpr hw, checkLast]
  · intro hr
    have hw := @walks_strictWalk _ (components path) hplace
    cases hs : strictWalk (components path) (root, []) with
    | error e =>
      rw [hs] at hr hw
      rw [← hr]
      exact .stop hw
    | ok cur =>
      rw [hs] at hr hw
      rw [← hr, checkLast]
      split
      · rename_i hc
        exact .file hw hc.1 hc.2
      · rename_i hc
        exact .found hw fun hlast => not_not.mp fun hk => hc ⟨hlast, hk⟩

theorem resolveAbs_eq {root : Node} (hpath : path.head? = some slash) :
    resolveAbs root path =
      checkLast (path.getLast? = some slash) (walkComponents (components path) (root, [])) := by
  rw [resolveAbs, if_neg (not_not_intro hpath)]
  cases path with
  | nil => cases hpath
  | cons b rest =>
    cases hpath
    rw [components_slash, List.tail_cons, walkPath_eq (by rw [List.length_cons]; omega)]
    cases walkComponents (components rest) (root, []) <;> rfl

end Walk

/-- `vfs_resolve_abs` answers what an absolute path stands for, exactly when no "." or ".." of
the path is applied at a file; the code checks for a directory at names only. -/
theorem resolveAbs_resolves {root : Node} {path : List UInt8} (h : WellFormed root)
    (hpath : path.head? = some slash) :
    (∀ r, resolveAbs root path = r ↔ Resolves root path r) ↔
      DotsAtDirs (path.getLast? = some slash) (components path) (root, []) := by
  have hplace : PlaceOk (root, []) := ⟨h, by simp⟩
  rw [← checkLast_walk hplace, ← resolveAbs_eq hpath]
  constructor
  · intro hall
    exact ((resolves_iff h).mp ((hall _).mp rfl)).symm
  · intro heq r
    rw [resolves_iff h, heq]

theorem builtTree_wellFormed : WellFormed builtTree := by
  have hfile (name data : List UInt8) : WellFormed (.mk .reg name data []) :=
    .mk (fun _ => rfl) List.nodup_nil (by simp) (by simp)
  have hetc : WellFormed etcNode :=
    .mk nofun (by decide) (by decide) (by simp [versionNode, hfile])
  exact .mk nofun (by decide) (by decide) (by simp [helloNode, testNode, hetc, hfile])

def dotPath : List UInt8 :=
  [slash, 0x65, 0x74, 0x63, slash, dot, slash,
    0x76, 0x65, 0x72, 0x73, 0x69, 0x6F, 0x6E, 0x2E, 0x74, 0x78, 0x74]

theorem resolveAbs_resolves_version :
    resolveAbs builtTree dotPath = .ok (versionNode, [etcNode, builtTree]) ∧
      Resolves builtTree dotPath (.ok (versionNode, [etcNode, builtTree])) := by
  have hplace : PlaceOk (builtTree, []) := ⟨builtTree_wellFormed, by simp⟩
  have hdots : DotsAtDirs (dotPath.getLast? = some slash) (components dotPath) (builtTree, []) :=
    (checkLast_walk hplace).mp rfl
  have hres : resolveAbs builtTree dotPath = .ok (versionNode, [etcNode, builtTree]) := rfl
  exact ⟨hres, ((resolveAbs_resolves builtTree_wellFormed rfl).mpr hdots _).mp hres⟩

def fileDotPath : List UInt8 :=
  [slash, 0x68, 0x65, 0x6C, 0x6C, 0x6F, 0x2E, 0x74, 0x78, 0x74, slash, dot]

/-- "." is applied at a file: the path stands for nothing, and the code answers the file. -/
theorem resolveAbs_file_dot :
    WellFormed builtTree ∧ resolveAbs builtTree fileDotPath = .ok (helloNode, [builtTree]) ∧
      Resolves builtTree fileDotPath (.error veNotdir) ∧
      ¬ Resolves builtTree fileDotPath (.ok (helloNode, [builtTree])) := by
  have h := builtTree_wellFormed
  have herr : Resolves builtTree fileDotPath (.error veNotdir) := (resolves_iff h).mpr rfl
  refine ⟨h, rfl, herr, fun hok => ?_⟩
  have heq := ((resolves_iff h).mp herr).symm.trans ((resolves_iff h).mp hok)
  cases heq

end VoidOS.Vfs
