import Xv6.Fs.Directory

/-! Path names: `skipelem`, `namex`, `namei` and `nameiparent` of `kern/fs.c`, and `create`
of `kern/sysfile.c`.

A path is the list of the bytes of its string; a string also ends at a byte 0 in the list.
-/

set_option autoImplicit false

namespace Xv6

open Library

def slash : UInt8 := 47

-- `memmove(name, s, len)`
def Name.store (name : Name) (s : List UInt8) : Name := fun i => s.getD i (name i)

/-- Copy the next path element from path into name. The result is the rest of the path after
the slashes that follow the element. -/
def skipelem (path : List UInt8) (name : Name) : Option (List UInt8 × Name) :=
  let path := path.dropWhile (· = slash)
  if path.headD 0 = 0 then none
  else
    let s := path.takeWhile fun c => c ≠ slash ∧ c ≠ 0
    let name := if s.length ≥ dirsiz then name.store (s.take dirsiz) else name.store (s ++ [0])
    some ((path.drop s.length).dropWhile (· = slash), name)

namespace Inodes

-- `iget(ROOTDEV, ROOTINO)` or `idup(thiscpu->proc->cwd)`; a process without a directory follows a
-- null pointer.
def startOf (cwd : Option (Fin ninode)) (path : List UInt8) : Program Inodes (Fin ninode) :=
  if path.headD 0 = slash then iget ROOTDEV ROOTINO
  else
    match cwd with
    | some dir => do
      idup dir
      return dir
    | none => panic

-- The end of `namex`, when no element is left.
def namexEnd (parent : Bool) (ip : Fin ninode) (name : Name) : Program Inodes (Option (Fin ninode × Name)) :=
  if parent then do
    iput ip
    return none
  else return some (ip, name)

-- The loop of `namex`. Every turn takes an element off the path.
def namexFrom (parent : Bool) :
    Nat → Fin ninode → List UInt8 → Name → Program Inodes (Option (Fin ninode × Name))
  | 0, ip, _, name => namexEnd parent ip name
  | turns + 1, ip, path, name =>
    match skipelem path name with
    | none => namexEnd parent ip name
    | some (path, name) => do
      ilock ip
      if (← fields ip).type ≠ T_DIR then
        iunlockput ip
        return none
      else if parent ∧ path.headD 0 = 0 then
        -- stop one level early
        iunlock ip
        return some (ip, name)
      else
        match ← dirlookup ip name with
        | none =>
          iunlockput ip
          return none
        | some (next, _) =>
          iunlockput ip
          namexFrom parent turns next path name

def namex (cwd : Option (Fin ninode)) (path : List UInt8) (parent : Bool) (name : Name) :
    Program Inodes (Option (Fin ninode × Name)) := do
  let ip ← startOf cwd path
  namexFrom parent path.length ip path name

-- The name is the uninitialised array of `namei`.
def namei (cwd : Option (Fin ninode)) (path : List UInt8) : Program Inodes (Option (Fin ninode)) := do
  let found ← namex cwd path false fun _ => 0
  return found.map Prod.fst

def nameiparent (cwd : Option (Fin ninode)) (path : List UInt8) (name : Name) :
    Program Inodes (Option (Fin ninode × Name)) := namex cwd path true name

/-- `create` when the directory has an entry with the name. The locks and references of
`dp` and `find` are left as they are. -/
def createFound (dp find : Fin ninode) (type : UInt16) : Program Inodes (Option (Fin ninode)) := do
  iunlock dp
  ilock find
  if type = T_FILE then return some find
  else
    iunlock find
    return none

def linkDots (dp ind : Fin ninode) : Program Inodes Unit := do
  let d ← fields dp
  setLinks dp d.major d.minor (d.nlink + 1)
  iupdate dp
  let _ ← dirlink ind Name.dot (← fields ind).inum
  let _ ← dirlink ind Name.dotdot (← fields dp).inum

-- What `create` does for a directory before it links the new inode.
def linkType (dp ind : Fin ninode) (type : UInt16) : Program Inodes Unit :=
  if type = T_DIR then linkDots dp ind else return ()

-- `create` of a new inode.
def createNew (dp : Fin ninode) (name : Name) (type major minor : UInt16) :
    Program Inodes (Option (Fin ninode)) := do
  let ind ← ialloc (← fields dp).dev type
  ilock ind
  setLinks ind major minor 1
  iupdate ind
  linkType dp ind type
  let _ ← dirlink dp name (← fields ind).inum
  iunlockput dp
  return some ind

def create (cwd : Option (Fin ninode)) (path : List UInt8) (type major minor : UInt16) :
    Program Inodes (Option (Fin ninode)) := do
  match ← nameiparent cwd path fun _ => 0 with
  | none => return none
  | some (dp, name) =>
    ilock dp
    match ← dirlookup dp name with
    | some (find, _) => createFound dp find type
    | none => createNew dp name type major minor

end Inodes

end Xv6
