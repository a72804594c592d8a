import VoidOS.IpcQueue
import VoidOS.PathFetch

namespace VoidOS.Ipc

open ByteMem PageTree Mm

def Canonical (a : ℕ) : Prop := a < 2 ^ 47 ∨ 2 ^ 64 - 2 ^ 47 ≤ a

instance (a : ℕ) : Decidable (Canonical a) := by delta Canonical; infer_instance

/-- What the kernel reads at an address, through the tables of the caller and with its own
rights. After a fault in the kernel the machine halts; that is `none`. -/
def kernelByte (m : Mem) (cr3 a : ℕ) : Option UInt8 :=
  if Canonical a ∧ present (vmmGetPte m cr3 a) = true then some (userByte m cr3 a) else none

/-- The loop of `svc_validate_name` from byte `i` on, over at most `n` bytes: what stands before
the terminator. The later loops over the name read no other bytes. -/
def readName (m : Mem) (cr3 name : ℕ) : ℕ → ℕ → Option (List UInt8)
  | 0, _ => some []
  | n + 1, i =>
    match kernelByte m cr3 (add64 name i) with
    | none => none
    | some c => if c = 0 then some [] else (readName m cr3 name n (i + 1)).map (c :: ·)

def nameArg (m : Mem) (cr3 name : ℕ) : Option (Option (List UInt8)) :=
  if name = 0 then some none else (readName m cr3 name svcNameLen 0).map some

inductive SrCall
  | register (h : ℤ)
  | unregister (h : ℤ)
  | lookup (heap : Bool)

def SrCall.run (s : State) (p : Pid) (name : Option (List UInt8)) : SrCall → State × ℤ
  | .register h => sysSrRegister s p name h
  | .unregister h => sysSrUnregister s p name h
  | .lookup heap => sysSrLookup s p heap name

/-- A call with its pointer; a call of nobody does not read the name. -/
def World.sr (w : World) (c : SrCall) (p : Pid) (name : ℕ) : Option (State × ℤ) :=
  match w.ipc.procs p with
  | none => some (c.run w.ipc p none)
  | some _ => (nameArg w.ram (w.cr3 p) name).map fun name => c.run w.ipc p name

/-- The process can read the name up to its terminator, or its first 32 bytes. -/
def NameReadable (m : Mem) (cr3 name : ℕ) : Prop :=
  ∀ i < svcNameLen, (∀ j < i, OnUserPage m cr3 (name + j) ∧ userByte m cr3 (name + j) ≠ 0) →
    OnUserPage m cr3 (name + i)

/-- A memory with the same tables and the same user bytes. -/
structure SameForUser (m m' : Mem) (cr3 : ℕ) : Prop where
  pte : ∀ v, vmmGetPte m' cr3 v = vmmGetPte m cr3 v
  phys : ∀ v, vmmVirtToPhys m' cr3 v = vmmVirtToPhys m cr3 v
  byte : ∀ v, OnUserPage m cr3 v → userByte m' cr3 v = userByte m cr3 v

/-- The call answers `SVC_E_FAULT`, changes nothing, and does not depend on the memory of the
kernel. -/
structure World.Refuses (w : World) (c : SrCall) (p : Pid) (name : ℕ) : Prop where
  fault : w.sr c p name = some (w.ipc, veFault)
  blind : ∀ m', SameForUser w.ram m' (w.cr3 p) →
    World.sr { w with ram := m' } c p name = w.sr c p name

section Names

variable {s : State} {w : World} {p : Pid} {pr : Proc} {c : SrCall} {name : List UInt8}

theorem run_null (hp : s.procs p = some pr) : c.run s p none = (s, veFault) := by
  cases c with
  | register h => simp [SrCall.run, sysSrRegister, hp, svcValidateName]
  | unregister h => simp [SrCall.run, sysSrUnregister, hp, svcValidateName]
  | lookup heap => simp [SrCall.run, sysSrLookup, hp, svcValidateName]

theorem validate_error {e : ℤ} (h : svcValidateName (some name) = .error e) : e = veInval := by
  rw [svcValidateName] at h
  by_cases hempty : name.length = 0
  · rw [if_pos hempty] at h
    exact (Except.error.inj h).symm
  rw [if_neg hempty] at h
  by_cases hlong : svcNameLen ≤ name.length
  · rw [if_pos hlong] at h
    exact (Except.error.inj h).symm
  · rw [if_neg hlong] at h
    cases h

theorem table_error {heap : Bool} {e : ℤ} (hp : s.procs p = some pr)
    (h : s.table p heap = .error e) : e = veNomem := by
  unfold State.table at h
  rw [hp] at h
  dsimp only at h
  split at h
  · exact (Except.error.inj h).symm
  · cases h

theorem run_ne_fault (hp : s.procs p = some pr) : (c.run s p (some name)).2 ≠ veFault := by
  have hinval : veInval ≠ veFault := by decide
  have hbadf : veBadf ≠ veFault := by decide
  have hperm : vePerm ≠ veFault := by decide
  have hnomem : veNomem ≠ veFault := by decide
  have hnoent : veNoent ≠ veFault := by decide
  have hnat (n : ℕ) : (n : ℤ) ≠ veFault := by
    unfold veFault
    omega
  cases c with
  | register h =>
    rw [SrCall.run, sysSrRegister, hp]
    dsimp only
    split
    · rename_i he
      exact validate_error he ▸ hinval
    split
    · exact hbadf
    split
    · exact hperm
    split
    · exact hnomem
    · exact hnat 0
  | unregister h =>
    rw [SrCall.run, sysSrUnregister, hp]
    dsimp only
    split
    · rename_i he
      exact validate_error he ▸ hinval
    split
    · exact hbadf
    split
    · exact hnoent
    split
    · exact hperm
    · exact hnat 0
  | lookup heap =>
    rw [SrCall.run, sysSrLookup, hp]
    dsimp only
    split
    · rename_i he
      exact validate_error he ▸ hinval
    split
    · exact hnoent
    split
    · rename_i he
      exact table_error hp he ▸ hnomem
    split
    · exact hnomem
    · exact hnat _

end Names

/-- The three calls refuse a name that the caller cannot read exactly when it is the null pointer;
every other name is read with the rights of the kernel. -/
theorem sr_refuses {w : World} {p : Pid} {pr : Proc} (hp : w.ipc.procs p = some pr) (c : SrCall)
    (name : ℕ) :
    (¬ NameReadable w.ram (w.cr3 p) name → w.Refuses c p name) ↔
      name = 0 ∨ NameReadable w.ram (w.cr3 p) name := by
  constructor
  · intro h
    by_cases hread : NameReadable w.ram (w.cr3 p) name
    · exact .inr hread
    refine .inl ?_
    by_contra hne
    have hfault := (h hread).fault
    unfold World.sr nameArg at hfault
    rw [hp, if_neg hne, Option.map_map, Option.map_eq_some_iff] at hfault
    obtain ⟨bytes, -, hrun⟩ := hfault
    exact run_ne_fault hp (congrArg Prod.snd hrun)
  · intro h hread
    cases h with
    | inr hok => exact absurd hok hread
    | inl hzero =>
      have hnull (m : Mem) : World.sr { w with ram := m } c p name = some (w.ipc, veFault) := by
        unfold World.sr nameArg
        rw [hp, if_pos hzero]
        exact congrArg some (run_null hp)
      exact ⟨hnull w.ram, fun m' _ => (hnull m').trans (hnull w.ram).symm⟩

/-- The first process with the tables of `bootMem`, which map 2 MiB of the kernel at
`0xFFFF800000200000`. -/
def bootNames (m : Mem) : World := ⟨initState, m, fun _ => 0x1000, []⟩

theorem sr_refuses_null : (bootNames bootMem).Refuses (.lookup true) 0 0 := by
  have hread : ¬ NameReadable bootMem 0x1000 0 := by
    intro h
    have hpage : pageOk (vmmGetPte bootMem 0x1000 0) false = true := (h 0 (by decide) (by simp)).2
    have hno : pageOk (vmmGetPte bootMem 0x1000 0) false = false := by decide +kernel
    exact absurd (hpage.symm.trans hno) (by decide)
  exact (sr_refuses (w := bootNames bootMem) rfl (.lookup true) 0).mpr (.inl rfl) hread

/-- A name in the memory of the kernel is looked up, and the answer tells what is there. -/
theorem sr_kernel_name :
    ¬ NameReadable (blit bootMem 0x200000 [0x61]) 0x1000 0xFFFF800000200000 ∧
      ((bootNames (blit bootMem 0x200000 [0x61])).sr (.lookup true) 0
        0xFFFF800000200000).map Prod.snd = some veNoent ∧
      ((bootNames bootMem).sr (.lookup true) 0 0xFFFF800000200000).map Prod.snd = some veInval ∧
      ¬ (bootNames (blit bootMem 0x200000 [0x61])).Refuses (.lookup true) 0
        0xFFFF800000200000 := by
  have hnoent : ((bootNames (blit bootMem 0x200000 [0x61])).sr (.lookup true) 0
      0xFFFF800000200000).map Prod.snd = some veNoent := by decide +kernel
  refine ⟨fun h => ?_, hnoent, by decide +kernel, fun h => ?_⟩
  · exact absurd (h 0 (by decide) (by simp)).1 (by decide)
  · rw [h.fault] at hnoent
    exact absurd (Option.some.inj hnoent) (by decide)

end VoidOS.Ipc
