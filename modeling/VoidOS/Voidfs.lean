import VoidOS.UserCopy

namespace VoidOS.Vfs

open ByteMem Mm

def vfsPathMax : ℕ := 512
def vfsNameMax : ℕ := 96
def vfsTreeDepth : ℕ := 16

def veNoent : ℤ := -2
def veBadf : ℤ := -9
def veAcces : ℤ := -13
def veFault : ℤ := -14
def veNotdir : ℤ := -20
def veIsdir : ℤ := -21
def veInval : ℤ := -22
def veNametoolong : ℤ := -36

inductive Kind
  | reg
  | dir
deriving DecidableEq, Repr

/-- `vfs_node_t` with its children in the order of the sibling list. A name is what stands
before the terminator. -/
inductive Node
  | mk (kind : Kind) (name : List UInt8) (data : List UInt8) (children : List Node)

namespace Node

def kind : Node → Kind
  | mk k _ _ _ => k

def name : Node → List UInt8
  | mk _ n _ _ => n

def data : Node → List UInt8
  | mk _ _ d _ => d

def children : Node → List Node
  | mk _ _ _ c => c

def findChild (dir : Node) (name : List UInt8) : Option Node :=
  dir.children.find? fun c => c.name = name

end Node

abbrev Place := Node × List Node

def slash : UInt8 := 0x2F
def dot : UInt8 := 0x2E

/-- `vfs_absolutize`, on the characters before the terminators. -/
def absolutize (cwd path : List UInt8) : Option (List UInt8) :=
  if path.head? = some slash then if vfsPathMax ≤ path.length then none else some path
  else if vfsPathMax ≤ cwd.length + (if 1 < cwd.length then 1 else 0) + path.length then none
  else some (cwd ++ (if 1 < cwd.length then [slash] else []) ++ path)

def stepComponent (comp : List UInt8) (cur : Place) : Except ℤ Place :=
  if comp = [dot] then .ok cur
  else if comp = [dot, dot] then
    match cur.2 with
    | [] => .ok cur
    | parent :: above => .ok (parent, above)
  else if cur.1.kind ≠ .dir then .error veNotdir
  else if vfsNameMax ≤ comp.length then .error veNametoolong
  else
    match cur.1.findChild comp with
    | none => .error veNoent
    | some n => .ok (n, cur.1 :: cur.2)

/-- The loop of `vfs_resolve_abs`; every round reads a character, so the length of the path is
enough fuel. -/
def walkPath : ℕ → List UInt8 → Place → Except ℤ Place
  | 0, _, cur => .ok cur
  | fuel + 1, path, cur =>
    let path := path.dropWhile (· = slash)
    if path = [] then .ok cur
    else
      match stepComponent (path.takeWhile (· ≠ slash)) cur with
      | .error e => .error e
      | .ok cur => walkPath fuel (path.dropWhile (· ≠ slash)) cur

def resolveAbs (root : Node) (path : List UInt8) : Except ℤ Place :=
  if path.head? ≠ some slash then .error veInval
  else
    match walkPath path.length path.tail (root, []) with
    | .error e => .error e
    | .ok cur =>
      if path.getLast? = some slash ∧ cur.1.kind ≠ .dir then .error veNotdir else .ok cur

/-- The names from a node up to the root, without that of the root. -/
def namesUp : Node → List Node → List (List UInt8)
  | _, [] => []
  | n, parent :: above => n.name :: namesUp parent above

/-- The loop of `sys_vfs_chdir` that writes the names root-down. -/
def joinNames : List (List UInt8) → List UInt8 → Option (List UInt8)
  | [], tmp => some tmp
  | nm :: rest, tmp =>
    if vfsPathMax ≤ tmp.length + nm.length + (if rest = [] then 0 else 1) then none
    else joinNames rest (tmp ++ nm ++ if rest = [] then [] else [slash])

def cwdOf (cur : Place) : Except ℤ (List UInt8) :=
  let comps := namesUp cur.1 cur.2
  if vfsTreeDepth < comps.length then .error veNametoolong
  else
    match joinNames comps.reverse [slash] with
    | none => .error veNametoolong
    | some tmp => .ok tmp

/-- `vfs_copy_user_path` from byte `i` on, with room for `n` more characters. -/
def copyUserPathFrom (m : Mem) (cr3 upath : ℕ) : ℕ → ℕ → Except ℤ (List UInt8)
  | 0, _ => .error veNametoolong
  | n + 1, i =>
    if !userRangeOk m cr3 (add64 upath i) 1 false then .error veFault
    else
      match copyFromUser m cr3 (add64 upath i) 1 with
      | some [c] =>
        if c = 0 then .ok [] else (copyUserPathFrom m cr3 upath n (i + 1)).map (c :: ·)
      | _ => .error veFault

def copyUserPath (m : Mem) (cr3 upath : ℕ) : Except ℤ (List UInt8) :=
  copyUserPathFrom m cr3 upath (vfsPathMax - 1) 0

/-- The path of a user pointer, folded into an absolute one and resolved: the first steps of
`sys_vfs_open` and `sys_vfs_chdir`. -/
def lookup (m : Mem) (cr3 : ℕ) (root : Node) (cwd : List UInt8) (upath : ℕ) : Except ℤ Place :=
  match copyUserPath m cr3 upath with
  | .error e => .error e
  | .ok path =>
    match absolutize cwd path with
    | none => .error veFault
    | some abs => resolveAbs root abs

/-- `vfs_file_t`, less its `id`, which nothing reads. -/
structure VfsFile where
  node : Node
  pos : ℕ
  refcount : ℤ

/-- The open-file objects by their addresses; `none` is memory that is not in use. -/
abbrev Files := ℕ → Option VfsFile

def refInc (files : Files) (o : ℕ) : Files :=
  Function.update files o ((files o).map fun f => { f with refcount := f.refcount + 1 })

/-- A reference is dropped, and the object freed if it was the last. -/
def refDec (files : Files) (o : ℕ) : Files :=
  match files o with
  | none => files
  | some f => Function.update files o
      (if f.refcount - 1 ≤ 0 then none else some { f with refcount := f.refcount - 1 })

def toI64 (v : ℤ) : ℤ := (v + 2 ^ 63) % 2 ^ 64 - 2 ^ 63

def seek (f : VfsFile) (offset whence : ℤ) : Except ℤ ℕ :=
  let npos : Option ℤ :=
    if whence = 0 then some offset
    else if whence = 1 then some (toI64 (f.pos + offset))
    else if whence = 2 then some (toI64 (f.node.data.length + offset))
    else none
  match npos with
  | none => .error veInval
  | some npos => if npos < 0 then .error veInval else .ok npos.toNat

/-- The bytes that a read of `count` bytes delivers. -/
def readBytes (f : VfsFile) (count : ℕ) : List UInt8 := (f.node.data.drop f.pos).take count

/-- "hello.txt" with "Hello, VoidOS!" and a newline. -/
def helloNode : Node := .mk .reg
  [0x68, 0x65, 0x6C, 0x6C, 0x6F, 0x2E, 0x74, 0x78, 0x74]
  [0x48, 0x65, 0x6C, 0x6C, 0x6F, 0x2C, 0x20, 0x56, 0x6F, 0x69, 0x64, 0x4F, 0x53, 0x21, 0x0A] []

/-- "test.txt" with "This is a test file." and a newline. -/
def testNode : Node := .mk .reg
  [0x74, 0x65, 0x73, 0x74, 0x2E, 0x74, 0x78, 0x74]
  [0x54, 0x68, 0x69, 0x73, 0x20, 0x69, 0x73, 0x20, 0x61, 0x20, 0x74, 0x65, 0x73, 0x74, 0x20,
    0x66, 0x69, 0x6C, 0x65, 0x2E, 0x0A] []

def versionNode : Node := .mk .reg
  [0x76, 0x65, 0x72, 0x73, 0x69, 0x6F, 0x6E, 0x2E, 0x74, 0x78, 0x74]
  [0x50, 0x68, 0x61, 0x73, 0x65, 0x20, 0x31, 0x30, 0x0A] []

def etcNode : Node := .mk .dir [0x65, 0x74, 0x63] [] [versionNode]

/-- The tree of `vfs_build_tree`, if every node could be allocated. -/
def builtTree : Node := .mk .dir [] [] [helloNode, testNode, etcNode]

end VoidOS.Vfs
