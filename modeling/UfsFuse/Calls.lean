import UfsFuse.Listing
import UfsFuse.Rename

/-!
# Calls and when they are sound

The public operations as calls with arguments, and the conditions under which a call keeps a file
system consistent. A condition is about the image before the call: `Call.Meets` about the names
already there, the kinds of the inodes and their link counts, `Call.Fits` about free blocks.
-/
namespace UfsFuse

/-- A call of a public operation. -/
inductive Call where
  | createFile (path : Str) (data : Bytes) (mode uid gid timestamp : ℕ)
  | makeDirectory (path : Str) (mode uid gid timestamp : ℕ)
  | link (source target : Str)
  | symlink (target path : Str) (mode uid gid timestamp : ℕ)
  | unlink (path : Str)
  | removeDirectory (path : Str)
  | createEmptyInParent (parent : ℕ) (name : Str) (mode uid gid timestamp : ℕ)
  | mkdirInParent (parent : ℕ) (name : Str) (mode uid gid timestamp : ℕ)
  | symlinkInParent (parent : ℕ) (name target : Str) (mode uid gid timestamp : ℕ)
  | mknodInParent (parent : ℕ) (name : Str) (fileType major minor mode uid gid timestamp : ℕ)
  | linkInParent (parent : ℕ) (name : Str) (target : ℕ)
  | unlinkInParent (parent : ℕ) (name : Str)
  | rmdirInParent (parent : ℕ) (name : Str)
  | renameInParent (srcParent : ℕ) (srcName : Str) (dstParent : ℕ) (dstName : Str)
  | setInodeContents (inode : ℕ) (data : Bytes)
  | truncate (inode size : ℕ)
  | setInodeMode (inode mode : ℕ)
  | setInodeOwner (inode uid gid : ℕ)
  | setInodeTimes (inode : ℕ) (atime mtime ctime : Option ℕ)
  deriving DecidableEq

/-- Carry out a call; inode numbers returned are dropped. -/
def Call.perform (ufs : Ufs) : Call → Write Unit
  | .createFile path data mode uid gid ts =>
      discard (UfsFuse.createFile ufs path data mode uid gid ts)
  | .makeDirectory path mode uid gid ts =>
      discard (UfsFuse.makeDirectory ufs path mode uid gid ts)
  | .link source target => discard (UfsFuse.link ufs source target)
  | .symlink target path mode uid gid ts =>
      discard (UfsFuse.symlink ufs target path mode uid gid ts)
  | .unlink path => discard (UfsFuse.unlink ufs path)
  | .removeDirectory path => discard (UfsFuse.removeDirectory ufs path)
  | .createEmptyInParent p name mode uid gid ts =>
      discard (UfsFuse.createEmptyInParent ufs p name mode uid gid ts)
  | .mkdirInParent p name mode uid gid ts =>
      discard (UfsFuse.mkdirInParent ufs p name mode uid gid ts)
  | .symlinkInParent p name target mode uid gid ts =>
      discard (UfsFuse.symlinkInParent ufs p name target mode uid gid ts)
  | .mknodInParent p name type major minor mode uid gid ts =>
      discard (UfsFuse.mknodInParent ufs p name type major minor mode uid gid ts)
  | .linkInParent p name target => UfsFuse.linkInParent ufs p name target
  | .unlinkInParent p name => discard (UfsFuse.unlinkInParent ufs p name)
  | .rmdirInParent p name => discard (UfsFuse.rmdirInParent ufs p name)
  | .renameInParent sp sn dp dn => UfsFuse.renameInParent ufs sp sn dp dn
  | .setInodeContents n data => UfsFuse.setInodeContents ufs n data
  | .truncate n size => UfsFuse.truncate ufs n size
  | .setInodeMode n mode => UfsFuse.setInodeMode ufs n mode
  | .setInodeOwner n uid gid => UfsFuse.setInodeOwner ufs n uid gid
  | .setInodeTimes n atime mtime ctime => UfsFuse.setInodeTimes ufs n atime mtime ctime

/-! ## Conditions -/
section Conditions
variable (image : Bytes) (ufs : Ufs)

/-- The stored link count of an inode. -/
def nlinkOf (n : ℕ) : ℕ := ((readInode image ufs n).map Inode.nlink).getD 0

/-- Blocks that entering `name` in directory `p` may take. -/
def entryNeeds (p : ℕ) (name : Str) : ℕ :=
  match readInode image ufs p with
  | none => 0
  | some inode =>
    match readInodeBytes image ufs inode with
    | .ok body => entryCost ufs.sb body name
    | _ => 0

/-- The directory that ".." of `d` names. -/
def parentOf (d : ℕ) : ℕ :=
  (((entriesAt image ufs d).find? (·.name = dotdotName)).map Entry.inode).getD d

/-- `name` can be given to a new entry of directory `p`: it is not empty, fits a record, and is not
taken. -/
structure CanEnter (p : ℕ) (name : Str) : Prop where
  ne : name ≠ []
  le : name.length ≤ 255
  fresh : ∀ e ∈ entriesAt image ufs p, e.name ≠ name

/-- One more link does not wrap the 16-bit count. -/
def CanLink (n : ℕ) : Prop := nlinkOf image ufs n + 1 < 2 ^ 16

/-- Removing `name` from directory `p` can only hit the entry of that name. -/
def CanFind (p : ℕ) (name : Str) : Prop :=
  Ascii name ∨ ∀ e ∈ entriesAt image ufs p, ¬e.Reads name

/-- The parent of `path` is directory `p`, and the last component is still free there. -/
def CreatesIn (path : Str) (p : ℕ) : Prop :=
  ∃ inode, resolvePath image ufs (splitParent path).1 = .ok (some (p, inode)) ∧
    inode.isDirectory = true ∧
    lookupDirectoryEntry image ufs inode (splitParent path).2 = .ok none

/-- A creation by path that is not refused can enter its name. -/
structure CanCreate (path : Str) : Prop where
  inDirs : PathInDirs image ufs (splitParent path).1
  enter : ∀ p, CreatesIn image ufs path p → CanEnter image ufs p (splitParent path).2

/-- A removal by path finds the record of the object that the path names. -/
structure CanRemove (path : Str) : Prop where
  inDirs : PathInDirs image ufs path
  find : ∀ p inode, resolvePath image ufs (splitParent path).1 = .ok (some (p, inode)) →
    CanFind image ufs p (splitParent path).2

/-- A rename moves an entry that is not "." or "..", not below itself, to a name that it can
have. -/
structure CanRename (p : ℕ) (srcName : Str) (q : ℕ) (dstName : Str) : Prop where
  srcAscii : Ascii srcName
  dstAscii : Ascii dstName
  src_ne : srcName ≠ dotName ∧ srcName ≠ dotdotName
  dst_ne : dstName ≠ dotName ∧ dstName ≠ dotdotName
  dstOk : NameOk dstName
  out : ∀ e ∈ entriesAt image ufs p, e.name = srcName → isDir image ufs e.inode = true →
    ∀ k, (parentOf image ufs)^[k] q ≠ e.inode
  links : ∀ e ∈ entriesAt image ufs p, e.name = srcName → isDir image ufs e.inode = true → p ≠ q →
    (∀ x ∈ entriesAt image ufs q, x.name = dstName → isDir image ufs x.inode = false) →
    CanLink image ufs q

/-- Inode `n` is a file in use, not a directory. -/
def IsFile (n : ℕ) : Prop := inUse image ufs n = true ∧ isDir image ufs n = false

/-- What a call needs of the image before it, apart from free blocks. -/
def Call.Meets : Call → Prop
  | .createFile path data mode _ _ _ =>
      fileTypeOf mode ≠ ufsIfdir ∧ data.length < 2 ^ 63 ∧ CanCreate image ufs path
  | .makeDirectory path _ _ _ _ =>
      CanCreate image ufs path ∧ ∀ p, CreatesIn image ufs path p → CanLink image ufs p
  | .link source target =>
      PathInDirs image ufs source ∧ CanCreate image ufs target ∧
        ∀ n inode, resolvePath image ufs source = .ok (some (n, inode)) →
          inode.isDirectory = false → CanLink image ufs n
  | .symlink target path _ _ _ _ => target.length < 2 ^ 63 ∧ CanCreate image ufs path
  | .unlink path => CanRemove image ufs path
  | .removeDirectory path =>
      CanRemove image ufs path ∧ ∀ n inode, resolvePath image ufs path = .ok (some (n, inode)) →
        directoryIsEmpty image ufs inode = .ok true →
        (splitParent path).2 ≠ dotName ∧ (splitParent path).2 ≠ dotdotName
  | .createEmptyInParent p name mode _ _ _ =>
      fileTypeOf mode ≠ ufsIfdir ∧ isDir image ufs p = true ∧ CanEnter image ufs p name
  | .mkdirInParent p name _ _ _ _ =>
      isDir image ufs p = true ∧ CanLink image ufs p ∧ CanEnter image ufs p name
  | .symlinkInParent p name target _ _ _ _ =>
      isDir image ufs p = true ∧ target.length < 2 ^ 63 ∧ CanEnter image ufs p name
  | .mknodInParent p name _ _ _ _ _ _ _ => isDir image ufs p = true ∧ CanEnter image ufs p name
  | .linkInParent p name target =>
      isDir image ufs p = true ∧ inUse image ufs target = true ∧ CanEnter image ufs p name ∧
        (isDir image ufs target = false → CanLink image ufs target)
  | .unlinkInParent p name => isDir image ufs p = true ∧ Ascii name
  | .rmdirInParent p name =>
      isDir image ufs p = true ∧ Ascii name ∧ name ≠ dotName ∧ name ≠ dotdotName
  | .renameInParent p srcName q dstName =>
      isDir image ufs p = true ∧ isDir image ufs q = true ∧ CanRename image ufs p srcName q dstName
  | .setInodeContents n data => IsFile image ufs n ∧ data.length < 2 ^ 63
  | .truncate n size => IsFile image ufs n ∧ size < 2 ^ 63
  | .setInodeMode n mode =>
      inUse image ufs n = true ∧ (mode &&& ufsIfmt = ufsIfdir ↔ isDir image ufs n = true)
  | .setInodeOwner n _ _ => inUse image ufs n = true
  | .setInodeTimes n _ _ _ => inUse image ufs n = true

/-! ### Free blocks -/

/-- Some inode is not in use. -/
def InodeFree : Prop := ∃ n, 2 ≤ n ∧ n < ufs.sb.inodes ∧ inUse image ufs n = false

/-- Blocks are free for `extra` of a new file and for entering `name` in directory `p`. -/
structure RoomFor (p : ℕ) (name : Str) (extra : ℕ) : Prop where
  own : extra ≤ freeBlocks image ufs
  entry : extra + entryNeeds image ufs p name ≤ blocksBeside image ufs p

/-- A creation by path that is not refused has room. -/
def RoomToCreate (path : Str) (extra : ℕ) : Prop :=
  ∀ p, CreatesIn image ufs path p → InodeFree image ufs →
    RoomFor image ufs p (splitParent path).2 extra

/-- A call does not run out of blocks half-way. -/
def Call.Fits : Call → Prop
  | .createFile path data _ _ _ _ =>
      RoomToCreate image ufs path (ufs.sb.blocksNeeded data.length)
  | .makeDirectory path _ _ _ _ => RoomToCreate image ufs path (ufs.sb.blocksNeeded ufsDirblksiz)
  | .link source target =>
      ∀ n inode, resolvePath image ufs source = .ok (some (n, inode)) → inode.isDirectory = false →
        ∀ p, CreatesIn image ufs target p → RoomFor image ufs p (splitParent target).2 0
  | .symlink target path _ _ _ _ =>
      RoomToCreate image ufs path (ufs.sb.blocksNeeded target.length)
  | .createEmptyInParent p name _ _ _ _ => InodeFree image ufs → RoomFor image ufs p name 0
  | .mkdirInParent p name _ _ _ _ =>
      InodeFree image ufs → RoomFor image ufs p name (ufs.sb.blocksNeeded ufsDirblksiz)
  | .symlinkInParent p name target _ _ _ _ =>
      InodeFree image ufs → RoomFor image ufs p name (ufs.sb.blocksNeeded target.length)
  | .mknodInParent p name fileType _ _ _ _ _ _ =>
      fileType = ufsIfchr ∨ fileType = ufsIfblk → InodeFree image ufs → RoomFor image ufs p name 0
  | .linkInParent p name target => isDir image ufs target = false → RoomFor image ufs p name 0
  | .renameInParent p srcName q dstName =>
      (∃ e ∈ entriesAt image ufs p, e.name = srcName) →
      (∀ x ∈ entriesAt image ufs q, x.name ≠ dstName) →
        entryNeeds image ufs q dstName ≤ blocksBeside image ufs q
  | .setInodeContents n data => ufs.sb.blocksNeeded data.length ≤ blocksBeside image ufs n
  | .truncate n size => ufs.sb.blocksNeeded size ≤ blocksBeside image ufs n
  | _ => True

end Conditions

end UfsFuse
