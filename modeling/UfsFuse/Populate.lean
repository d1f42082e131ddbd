import UfsFuse.Daemon

/-!
# Copying a host tree

The tool that fills a slice from a directory of the host, without a mount: directories, files,
symbolic links, hard links (recognised by device and inode number of the host), and devices. Then a
table of nodes may be applied to the result.
-/
namespace UfsFuse

/-- What the host says about a file. -/
structure HostMeta where
  mode : ℕ
  uid : ℕ
  gid : ℕ
  nlink : ℕ
  dev : ℕ
  ino : ℕ
  rdev : ℕ
  deriving DecidableEq, Repr

/-- A file of the host that is not a directory. A target that is not UTF-8 is `none`. -/
inductive HostLeaf where
  | symlink (target : Option Str)
  | file (data : Bytes)
  | device (block : Bool)
  | other
  deriving DecidableEq, Repr

/-- The entries of a directory of the host, in the order in which they are copied. A name that is not
UTF-8 is `none`. -/
inductive HostDir where
  | nil
  | dir (name : Option Str) (info : HostMeta) (inside : HostDir) (rest : HostDir)
  | entry (name : Option Str) (info : HostMeta) (leaf : HostLeaf) (rest : HostDir)
  deriving DecidableEq, Repr

structure PopulateOptions where
  preserveOwner : Bool
  timestamp : ℕ
  deriving DecidableEq, Repr

inductive PopulateFault where
  /-- the fault of a call on the file system -/
  | fault (f : Fault)
  /-- error: non-UTF-8 symlink target at {path} -/
  | symlinkTarget (name : Str)
  /-- error: invalid device path {path:?} -/
  | invalidDevicePath (path : Str)
  /-- error: inode {cur} unreadable while resolving {path:?} -/
  | unreadableResolving (inode : ℕ) (path : Str)
  /-- error: {comp:?} in {path:?} is not a directory -/
  | componentNotDirectory (component path : Str)
  /-- error: inode {parent} unreadable while creating {path:?} -/
  | unreadableCreating (inode : ℕ) (path : Str)
  /-- error: {path:?} exists but is not a directory -/
  | existsNotDirectory (path : Str)
  /-- error: {table}:{line}: link target {target:?} does not exist -/
  | linkTargetMissing (target : Str)
  deriving DecidableEq, Repr

/-- A step of the tool on the image. -/
abbrev Populate (α : Type) : Type := Act PopulateFault Bytes α

/-- The inode of each file of the host that has more than one name. -/
abbrev HardLinks : Type := ℕ × ℕ → Option ℕ

namespace Populate
variable {α : Type}

def onSlice (x : Write α) : Populate α := fun image =>
  match x image with
  | (.ok a, t) => (.ok a, t)
  | (.err e, t) => (.err (.fault e), t)
  | (.panic, t) => (.panic, t)

/-- What a reader makes of the image. -/
def look (f : Bytes → Outcome Fault α) : Populate α := onSlice (Act.read f)

end Populate

/-- Owner and group of a copy. -/
def PopulateOptions.owner (o : PopulateOptions) (info : HostMeta) : ℕ × ℕ :=
  if o.preserveOwner then (info.uid, info.gid) else (0, 0)

def HostMeta.key (info : HostMeta) : ℕ × ℕ := (info.dev, info.ino)

def HostMeta.perm (info : HostMeta) : ℕ := info.mode &&& 0o7777

section Populate
variable (ufs : Ufs) (o : PopulateOptions)

/-- Copy one file that is not a directory. -/
def populateLeaf (parent : ℕ) (name : Str) (info : HostMeta) (links : HardLinks) :
    HostLeaf → Populate HardLinks
  | .symlink none => Act.fail (.symlinkTarget name)
  | .symlink (some target) => do
      let owner := o.owner info
      let _ ← Populate.onSlice
        (symlinkInParent ufs parent name target 0o777 owner.1 owner.2 o.timestamp)
      pure links
  | .file data =>
      match if info.nlink > 1 then links info.key else none with
      | some existing => do
          Populate.onSlice (linkInParent ufs parent name existing)
          pure links
      | none => do
          let owner := o.owner info
          let ino ← Populate.onSlice
            (createEmptyInParent ufs parent name info.perm owner.1 owner.2 o.timestamp)
          Populate.onSlice (setInodeContents ufs ino data)
          pure (if info.nlink > 1 then Function.update links info.key (some ino) else links)
  | .device block => do
      let owner := o.owner info
      let (major, minor) := splitRdev info.rdev
      let kind := if block then ufsIfblk else ufsIfchr
      let _ ← Populate.onSlice
        (mknodInParent ufs parent name kind major minor info.perm owner.1 owner.2 o.timestamp)
      pure links
  | .other => pure links

/-- Copy the entries of a directory of the host below inode `parent`. -/
def populateDir (parent : ℕ) : HostDir → HardLinks → Populate HardLinks
  | .nil, links => pure links
  | .dir none _ _ rest, links => populateDir parent rest links
  | .dir (some name) info inside rest, links => do
      let owner := o.owner info
      let ino ← Populate.onSlice
        (mkdirInParent ufs parent name info.perm owner.1 owner.2 o.timestamp)
      let links ← populateDir ino inside links
      populateDir parent rest links
  | .entry none _ _ rest, links => populateDir parent rest links
  | .entry (some name) info leaf rest, links => do
      let links ← populateLeaf ufs o parent name info links leaf
      populateDir parent rest links

/-! ## The table of nodes -/

/-- The directories along `components` below `cur`; missing ones are made. -/
def ensureDirs (path : Str) (ts : ℕ) : List Str → ℕ → Populate ℕ
  | [], cur => pure cur
  | comp :: rest, cur => do
      match ← Act.read fun image => .ok (readInode image ufs cur) with
      | none => Act.fail (.unreadableResolving cur path)
      | some parent => do
          match ← Populate.look fun image => lookupDirectoryEntry image ufs parent comp with
          | some (n, inode) =>
              if ¬inode.isDirectory then Act.fail (.componentNotDirectory comp path)
              else ensureDirs path ts rest n
          | none => do
              let n ← Populate.onSlice (mkdirInParent ufs cur comp 0o755 0 0 ts)
              ensureDirs path ts rest n

/-- Parent inode and last name of a path whose directories exist afterwards. -/
def ensureParentDirs (path : Str) (ts : ℕ) : Populate (ℕ × Str) :=
  match (pathParts path).getLast? with
  | none => Act.fail (.invalidDevicePath path)
  | some name => do
      let parent ← ensureDirs ufs path ts (pathParts path).dropLast ufsRootInode
      pure (parent, name)

/-- Make a directory, or set the mode of one that is there. -/
def ensureDirWithMode (path : Str) (mode ts : ℕ) : Populate Unit := do
  let (parent, name) ← ensureParentDirs ufs path ts
  match ← Act.read fun image => .ok (readInode image ufs parent) with
  | none => Act.fail (.unreadableCreating parent path)
  | some parentInode => do
      match ← Populate.look fun image => lookupDirectoryEntry image ufs parentInode name with
      | some (n, inode) =>
          if ¬inode.isDirectory then Act.fail (.existsNotDirectory path)
          else Populate.onSlice (setInodeMode ufs n (ufsIfdir ||| mode))
      | none => do
          let _ ← Populate.onSlice (mkdirInParent ufs parent name mode 0 0 ts)
          pure ()

/-- A line of the table. -/
inductive TableLine where
  | device (path : Str) (fileType major minor mode : ℕ)
  | directory (path : Str) (mode : ℕ)
  | link (path target : Str)
  deriving DecidableEq, Repr

/-- Apply one line. -/
def applyTableLine : TableLine → Populate Unit
  | .device path fileType major minor mode => do
      let (parent, name) ← ensureParentDirs ufs path o.timestamp
      let _ ← Populate.onSlice
        (mknodInParent ufs parent name fileType major minor mode 0 0 o.timestamp)
      pure ()
  | .directory path mode => ensureDirWithMode ufs path mode o.timestamp
  | .link path target => do
      match ← Populate.look fun image => resolvePath image ufs target with
      | none => Act.fail (.linkTargetMissing target)
      | some (n, _) => do
          let (parent, name) ← ensureParentDirs ufs path o.timestamp
          Populate.onSlice (linkInParent ufs parent name n)

def applyDeviceTable (table : List TableLine) : Populate Unit := Act.each (applyTableLine ufs o) table

/-- The whole tool on an opened slice. -/
def populate (host : HostDir) (table : List TableLine) : Populate Unit := do
  let _ ← populateDir ufs o ufsRootInode host fun _ => none
  applyDeviceTable ufs o table
  Populate.onSlice (recomputeSummaryCounts ufs)

end Populate
end UfsFuse
