import VoidOS.WordPatch

namespace VoidOS.Rtld

open ByteMem

/-! ## The dynamic linker

The console messages and the counters that feed them are left out. -/

def ptDynamic : ℕ := 2
def shnUndef : ℕ := 0

def rX866464 : ℕ := 1
def rX8664GlobDat : ℕ := 6
def rX8664JumpSlot : ℕ := 7
def rX8664Relative : ℕ := 8

def atNull : ℕ := 0
def atPhdr : ℕ := 3
def atPhnum : ℕ := 5
def atBase : ℕ := 7
def atEntry : ℕ := 9

def dtNull : ℕ := 0
def dtPltrelsz : ℕ := 2
def dtStrtab : ℕ := 5
def dtSymtab : ℕ := 6
def dtRela : ℕ := 7
def dtRelasz : ℕ := 8
def dtRelaent : ℕ := 9
def dtJmprel : ℕ := 23

/-- Why the linker does not return: `fail` ends the process, or it is still at work. -/
inductive Stop
  | exited
  | running
deriving DecidableEq

structure Rela where
  offset : ℕ
  info : ℕ
  addend : ℕ
deriving DecidableEq

def readRela (m : Mem) (r : ℕ) : Rela := ⟨word m r, word m (r + 8), word m (r + 16)⟩

def Rela.type (r : Rela) : ℕ := r.info % 2 ^ 32

def Rela.sym (r : Rela) : ℕ := r.info / 2 ^ 32

def Rela.target (base : ℕ) (r : Rela) : ℕ := add64 base r.offset

def symbolAt (symtab idx : ℕ) : ℕ := add64 symtab (24 * idx)

def resolve (m : Mem) (symtab idx base : ℕ) : Except Stop ℕ :=
  let s := symbolAt symtab idx
  if load m (s + 6) 2 = shnUndef then .error .exited else .ok (add64 base (word m (s + 8)))

/-- The body of the loop of `apply_rela`, for the entry at `r`. -/
def applyEntry (m : Mem) (symtab strtab base r : ℕ) : Except Stop Mem :=
  let rel := readRela m r
  let target := rel.target base
  if rel.type = rX8664Relative then .ok (setWord m target (add64 base rel.addend))
  else if rel.type = rX8664GlobDat then
    if symtab = 0 ∨ strtab = 0 then .error .exited
    else (resolve m symtab rel.sym base).map fun s => setWord m target s
  else if rel.type = rX8664JumpSlot then
    if symtab = 0 ∨ strtab = 0 then .error .exited
    else (resolve m symtab rel.sym base).map fun s => setWord m target s
  else if rel.type = rX866464 then
    if symtab = 0 ∨ strtab = 0 then .error .exited
    else (resolve m symtab rel.sym base).map fun s => setWord m target (add64 s rel.addend)
  else .error .exited

/-- The loop of `apply_rela` from offset `off` on. -/
def applyLoop (rela bytes ent symtab strtab base : ℕ) : ℕ → ℕ → Mem → Except Stop Mem
  | 0, _, _ => .error .running
  | fuel + 1, off, m =>
    if add64 off ent ≤ bytes then
      match applyEntry m symtab strtab base (add64 rela off) with
      | .error e => .error e
      | .ok m => applyLoop rela bytes ent symtab strtab base fuel (add64 off ent) m
    else .ok m

def applyRela (fuel : ℕ) (m : Mem) (rela bytes ent symtab strtab base : ℕ) : Except Stop Mem :=
  if rela = 0 ∨ bytes = 0 then .ok m
  else applyLoop rela bytes (if ent = 0 then 24 else ent) symtab strtab base fuel 0 m

/-- What `rtld_main` takes from the dynamic section. -/
structure Dynamic where
  rela : ℕ := 0
  relasz : ℕ := 0
  relaent : ℕ := 0
  jmprel : ℕ := 0
  pltrelsz : ℕ := 0
  symtab : ℕ := 0
  strtab : ℕ := 0
deriving DecidableEq

def walkDynamic (m : Mem) (base : ℕ) : ℕ → ℕ → Dynamic → Except Stop Dynamic
  | 0, _, _ => .error .running
  | fuel + 1, d, dyn =>
    let tag := word m d
    let val := word m (d + 8)
    if tag = dtNull then .ok dyn
    else
      walkDynamic m base fuel (add64 d 16)
        (if tag = dtRela then { dyn with rela := add64 base val }
        else if tag = dtRelasz then { dyn with relasz := val }
        else if tag = dtRelaent then { dyn with relaent := val }
        else if tag = dtJmprel then { dyn with jmprel := add64 base val }
        else if tag = dtPltrelsz then { dyn with pltrelsz := val }
        else if tag = dtSymtab then { dyn with symtab := add64 base val }
        else if tag = dtStrtab then { dyn with strtab := add64 base val }
        else dyn)

def skipEnv (m : Mem) : ℕ → ℕ → Except Stop ℕ
  | 0, _ => .error .running
  | fuel + 1, p => if word m p = 0 then .ok (add64 p 8) else skipEnv m fuel (add64 p 8)

def auxvOf (fuel : ℕ) (m : Mem) (frame : ℕ) : Except Stop ℕ :=
  let p := add64 frame (8 * (1 + word m frame))
  if word m p ≠ 0 then .error .exited else skipEnv m fuel (add64 p 8)

/-- `auxv_get`; `none` is a type that is not found. -/
def auxvGet (m : Mem) (type : ℕ) : ℕ → ℕ → Except Stop (Option ℕ)
  | 0, _ => .error .running
  | fuel + 1, a =>
    if word m a = atNull then .ok none
    else if word m a = type then .ok (some (word m (a + 8)))
    else auxvGet m type fuel (add64 a 16)

/-- The search for `PT_DYNAMIC` from header `i` on; 0 if there is none. -/
def findDynamic (m : Mem) (base phdr phnum : ℕ) : ℕ → ℕ → Except Stop ℕ
  | 0, _ => .error .running
  | fuel + 1, i =>
    if i < phnum then
      let ph := add64 phdr (56 * i)
      if load m ph 4 = ptDynamic then .ok (add64 base (word m (ph + 16)))
      else findDynamic m base phdr phnum fuel (i + 1)
    else .ok 0

/-- The first part of `rtld_main`: the entry point, the load bias and the dynamic section. -/
def readFrame (fuel : ℕ) (m : Mem) (frame : ℕ) : Except Stop (ℕ × ℕ × ℕ) := do
  let auxv ← auxvOf fuel m frame
  let phdr ← auxvGet m atPhdr fuel auxv
  let phnum ← auxvGet m atPhnum fuel auxv
  let entry ← auxvGet m atEntry fuel auxv
  let base ← auxvGet m atBase fuel auxv
  match phdr, phnum, entry, base with
  | some phdr, some phnum, some entry, some base =>
    if entry = 0 then .error .exited
    else do
      let dyn ← findDynamic m base phdr phnum fuel 0
      .ok (entry, base, dyn)
  | _, _, _, _ => .error .exited

def relocate (fuel : ℕ) (m : Mem) (base : ℕ) (d : Dynamic) : Except Stop Mem := do
  let m ← applyRela fuel m d.rela d.relasz d.relaent d.symtab d.strtab base
  applyRela fuel m d.jmprel d.pltrelsz d.relaent d.symtab d.strtab base

/-- `rtld_main`: the memory it leaves and the address it returns. -/
def rtldMain (fuel : ℕ) (m : Mem) (frame : ℕ) : Except Stop (Mem × ℕ) := do
  let (entry, base, dyn) ← readFrame fuel m frame
  if dyn = 0 then .ok (m, entry)
  else do
    let d ← walkDynamic m base fuel dyn {}
    let m ← relocate fuel m base d
    .ok (m, entry)

/-- The frame leads to an image with this entry point, bias and dynamic section. -/
def Loads (fuel : ℕ) (m : Mem) (frame entry base : ℕ) (d : Dynamic) : Prop :=
  ∃ dyn, readFrame fuel m frame = .ok (entry, base, dyn) ∧ dyn ≠ 0 ∧
    walkDynamic m base fuel dyn {} = .ok d

theorem rtldMain_eq {fuel : ℕ} {m : Mem} {frame entry base : ℕ} {d : Dynamic}
    (h : Loads fuel m frame entry base d) :
    rtldMain fuel m frame = (relocate fuel m base d).map fun m => (m, entry) := by
  obtain ⟨dyn, hframe, hdyn, hwalk⟩ := h
  rw [rtldMain, hframe]
  change (if dyn = 0 then Except.ok (m, entry) else _) = _
  rw [if_neg hdyn, hwalk]
  cases hr : relocate fuel m base d with
  | error e =>
    change (relocate fuel m base d >>= fun m => Except.ok (m, entry)) = _
    rw [hr]
    rfl
  | ok m' =>
    change (relocate fuel m base d >>= fun m => Except.ok (m, entry)) = _
    rw [hr]
    rfl

end VoidOS.Rtld
