import UfsFuse.Write
import UfsFuse.Triple

/-!
# The mount daemon

The requests of the FUSE daemon as calls on its state: the mapped image, the open handles and the
buffered bodies of files being written. An error of the write path is answered with the errno that
`errno_from` reads off its message; here the reply carries the fault, and `Errnos` its message.
-/
namespace UfsFuse

@[simp, reducible] def nameMax : ℕ := 255
@[simp, reducible] def ufsIfifo : ℕ := 0o010000
@[simp, reducible] def ufsIfsock : ℕ := 0o140000

/-- FUSE reserves inode 1 for the root, which is inode 2 on the disk. -/
def fuseToUfs (n : ℕ) : ℕ := if n = 1 then 2 else n

def ufsToFuse (n : ℕ) : ℕ := if n = 2 then 1 else n

/-! ## Times -/

/-- Seconds since the epoch as a `u32`; times before it count as the epoch. -/
def systimeSecs (t : ℤ) : ℕ := t.toNat % 2 ^ 32

inductive TimeOrNow where
  | specificTime (t : ℤ)
  | now
  deriving DecidableEq, Repr

def timeornowSecs (now : ℤ) : TimeOrNow → ℕ
  | .specificTime t => systimeSecs t
  | .now => systimeSecs now

/-! ## Replies -/

inductive FileType where
  | directory
  | regularFile
  | symlink
  | charDevice
  | blockDevice
  | namedPipe
  | socket
  deriving DecidableEq, Repr

def fileKindOf (mode : ℕ) : FileType :=
  let type := mode &&& ufsIfmt
  if type = ufsIfdir then .directory
  else if type = ufsIfreg then .regularFile
  else if type = ufsIflnk then .symlink
  else if type = ufsIfchr then .charDevice
  else if type = ufsIfblk then .blockDevice
  else if type = ufsIfifo then .namedPipe
  else if type = ufsIfsock then .socket
  else .regularFile

/-- Major and minor number of a Linux `dev_t`. -/
def splitRdev (rdev : ℕ) : ℕ × ℕ :=
  ((((rdev >>> 8) &&& 0xfff) ||| Nat.ldiff (rdev >>> 32) 0xfff) % 2 ^ 32,
    ((rdev &&& 0xff) ||| Nat.ldiff (rdev >>> 12) 0xff) % 2 ^ 32)

structure FileAttr where
  ino : ℕ
  size : ℕ
  blocks : ℕ
  atime : ℕ
  mtime : ℕ
  ctime : ℕ
  crtime : ℕ
  kind : FileType
  perm : ℕ
  nlink : ℕ
  uid : ℕ
  gid : ℕ
  rdev : ℕ
  blksize : ℕ
  flags : ℕ
  deriving DecidableEq, Repr

def makeAttr (inode : Inode) (ufsIno size blksize : ℕ) : FileAttr where
  ino := ufsToFuse ufsIno
  size := size
  blocks := (size + 511) / 512
  atime := inode.atime
  mtime := inode.mtime
  ctime := inode.ctime
  crtime := inode.ctime
  kind := fileKindOf inode.mode
  perm := inode.mode &&& 0o7777
  nlink := inode.nlink
  uid := inode.uid
  gid := inode.gid
  rdev := 0
  blksize := blksize
  flags := 0

inductive Errno where
  | einval
  | enoent
  | erofs
  | enodata
  | eio
  | enotdir
  | enotempty
  | eexist
  | eisdir
  | enospc
  deriving DecidableEq, Repr

/-- Why a request fails: an errno of the daemon's own, or a fault of a call on the file system. -/
inductive Refusal where
  | errno (e : Errno)
  | fault (f : Fault)
  deriving DecidableEq, Repr

/-- One entry of a `readdir` reply: inode, offset to go on from, type and name. -/
structure DirReply where
  ino : ℕ
  offset : ℕ
  kind : FileType
  name : Str
  deriving DecidableEq, Repr

structure Statfs where
  blocks : ℕ
  bfree : ℕ
  bavail : ℕ
  files : ℕ
  ffree : ℕ
  bsize : ℕ
  namelen : ℕ
  frsize : ℕ
  deriving DecidableEq, Repr

inductive Reply where
  | ok
  | entry (attr : FileAttr)
  | attr (attr : FileAttr)
  | data (bytes : Bytes)
  | xattrSize (size : ℕ)
  | created (attr : FileAttr) (fh : ℕ)
  | opened (fh : ℕ)
  | written (count : ℕ)
  | directory (entries : List DirReply)
  | statfs (st : Statfs)
  deriving DecidableEq, Repr

/-! ## State -/

/-- An in-progress file body. -/
structure FileBuf where
  data : Bytes
  dirty : Bool
  deriving DecidableEq, Repr

/-- `handles` lists the open file handles with their inodes, `buffers` the bodies by inode. -/
structure Daemon where
  img : Bytes
  ufs : Ufs
  readOnly : Bool
  nextFh : ℕ
  handles : List (ℕ × ℕ)
  buffers : ℕ → Option FileBuf

/-- A handler: an error is a refusal, and what has been changed by then stays. -/
abbrev Handler (α : Type) : Type := Act Refusal Daemon α

namespace Daemon

/-- Attributes of an inode, with the size of its buffered body if there is one. -/
def attrFor (st : Daemon) (ufsIno : ℕ) : Option FileAttr :=
  (readInode st.img st.ufs ufsIno).map fun inode =>
    let size := ((st.buffers ufsIno).map fun b => b.data.length).getD inode.size
    makeAttr inode ufsIno size st.ufs.sb.bsize

def insertBuffer (st : Daemon) (ufsIno : ℕ) (b : FileBuf) : Daemon :=
  { st with buffers := Function.update st.buffers ufsIno (some b) }

end Daemon

namespace Handler
variable {α : Type}

/-- What a pure reader makes of the state. -/
def look (f : Daemon → Outcome Fault α) : Handler α := Act.read fun st =>
  match f st with
  | .ok a => .ok a
  | .err e => .err (.fault e)
  | .panic => .panic

/-- A call on the mapped image. -/
def onImage (x : Ufs → Write α) : Handler α := fun st =>
  match x st.ufs st.img with
  | (.ok a, img) => (.ok a, { st with img := img })
  | (.err e, img) => (.err (.fault e), { st with img := img })
  | (.panic, img) => (.panic, { st with img := img })

def modify (f : Daemon → Daemon) : Handler Unit := Act.update fun st => .ok (f st)

def refuse (e : Errno) : Handler α := Act.fail (.errno e)

/-- `if st.read_only { reply.error(erofs); return; }` -/
def writable : Handler Unit := do
  if ← look fun st => .ok st.readOnly then refuse .erofs else pure ()

/-- Unwrap an optional result or answer with an errno. -/
def orElse (e : Errno) : Option α → Handler α
  | some a => pure a
  | none => refuse e

/-- `if let Err(e) = x { log }`: an error is logged and dropped. -/
def logged (x : Handler Unit) : Handler Unit := fun st =>
  match x st with
  | (.err _, t) => (.ok (), t)
  | r => r

/-- The reply of an operation that gives an inode its name. -/
def replyEntry (ufsIno : ℕ) : Handler Reply := do
  let attr ← orElse .eio (← look fun st => .ok (st.attrFor ufsIno))
  pure (.entry attr)

/-- Make sure that a body is buffered, loading it from the disk if it is not. -/
def ensureBuffer (ufsIno : ℕ) : Handler Unit := do
  match ← look fun st => .ok (st.buffers ufsIno) with
  | some _ => pure ()
  | none => do
    let data ← look fun st =>
      match readInode st.img st.ufs ufsIno with
      | some inode => readInodeBytes st.img st.ufs inode
      | none => .ok []
    modify fun st => st.insertBuffer ufsIno ⟨data, false⟩

/-- Write a dirty buffer back, then mark it clean. -/
def commit (now : ℤ) (ufsIno : ℕ) : Handler Unit := do
  match ← look fun st => .ok (st.buffers ufsIno) with
  | none => pure ()
  | some b =>
    if b.dirty then do
      onImage fun ufs => setInodeContents ufs ufsIno b.data
      let secs := systimeSecs now
      onImage fun ufs => setInodeTimes ufs ufsIno none (some secs) (some secs)
      modify fun st => st.insertBuffer ufsIno { b with dirty := false }
    else pure ()

end Handler

/-! ## Requests -/

inductive Request where
  | lookup (parent : ℕ) (name : Bytes)
  | getattr (ino : ℕ)
  | access (ino : ℕ)
  | getxattr (ino : ℕ) (name : Bytes) (size : ℕ)
  | listxattr (ino size : ℕ)
  | setattr (ino : ℕ) (mode uid gid size : Option ℕ) (atime mtime : Option TimeOrNow)
      (ctime : Option ℤ)
  | readlink (ino : ℕ)
  | mkdir (parent : ℕ) (name : Bytes) (mode umask : ℕ)
  | mknod (parent : ℕ) (name : Bytes) (mode umask rdev : ℕ)
  | unlink (parent : ℕ) (name : Bytes)
  | rmdir (parent : ℕ) (name : Bytes)
  | symlink (parent : ℕ) (linkName target : Bytes)
  | rename (parent : ℕ) (name : Bytes) (newparent : ℕ) (newname : Bytes)
  | link (ino newparent : ℕ) (newname : Bytes)
  | create (parent : ℕ) (name : Bytes) (mode umask : ℕ)
  | open (ino : ℕ)
  | read (ino offset size : ℕ)
  | write (ino offset : ℕ) (data : Bytes)
  | flush (ino : ℕ)
  | fsync (ino : ℕ)
  | release (ino fh : ℕ)
  | readdir (ino offset room : ℕ)
  | statfs
  | destroy
  deriving DecidableEq, Repr

/-- Who asks and when, and whether an `msync` that the request makes succeeds. -/
structure Caller where
  uid : ℕ
  gid : ℕ
  now : ℤ
  synced : Bool
  deriving DecidableEq, Repr

namespace Request

/-- The names in a request, which must be UTF-8. -/
def names : Request → List Bytes
  | lookup _ name | mkdir _ name _ _ | mknod _ name _ _ _ | unlink _ name | rmdir _ name
  | create _ name _ _ => [name]
  | symlink _ linkName target => [linkName, target]
  | rename _ name _ newname => [name, newname]
  | link _ _ newname => [newname]
  | _ => []

/-- The requests that need the daemon's state. -/
def locks : Request → Bool
  | getxattr .. | listxattr .. => false
  | _ => true

end Request

namespace Handler

def lookup (parent : ℕ) (name : Bytes) : Handler Reply := do
  let parentInode ← orElse .enoent (← look fun st => .ok (readInode st.img st.ufs (fuseToUfs parent)))
  let found ← look fun st => lookupDirectoryEntry st.img st.ufs parentInode name
  let (childNumber, _) ← orElse .enoent found
  let attr ← orElse .enoent (← look fun st => .ok (st.attrFor childNumber))
  pure (.entry attr)

def getattr (ino : ℕ) : Handler Reply := do
  let attr ← orElse .enoent (← look fun st => .ok (st.attrFor (fuseToUfs ino)))
  pure (.attr attr)

def access (ino : ℕ) : Handler Reply := do
  let _ ← orElse .enoent (← look fun st => .ok (readInode st.img st.ufs (fuseToUfs ino)))
  pure .ok

/-- A new size goes to the buffered body if there is one, else to the disk. -/
def setSize (ufsIno size : ℕ) : Handler Unit := do
  match ← look fun st => .ok (st.buffers ufsIno) with
  | some b => modify fun st => st.insertBuffer ufsIno ⟨b.data.resize size, true⟩
  | none => onImage fun ufs => truncate ufs ufsIno size

def setMode (ufsIno mode : ℕ) : Handler Unit := do
  match ← look fun st => .ok (readInode st.img st.ufs ufsIno) with
  | some cur =>
      onImage fun ufs => setInodeMode ufs ufsIno ((cur.mode &&& ufsIfmt) ||| permissionsOf mode)
  | none => pure ()

def setOwner (ufsIno : ℕ) (uid gid : Option ℕ) : Handler Unit := do
  match ← look fun st => .ok (readInode st.img st.ufs ufsIno) with
  | some cur =>
      onImage fun ufs => setInodeOwner ufs ufsIno (uid.getD cur.uid) (gid.getD cur.gid)
  | none => pure ()

def setattr (now : ℤ) (ino : ℕ) (mode uid gid size : Option ℕ) (atime mtime : Option TimeOrNow)
    (ctime : Option ℤ) : Handler Reply := do
  writable
  let uino := fuseToUfs ino
  match size with
  | some sz => setSize uino sz
  | none => pure ()
  match mode with
  | some m => setMode uino m
  | none => pure ()
  if uid.isSome ∨ gid.isSome then setOwner uino uid gid else pure ()
  let a := atime.map (timeornowSecs now)
  let m := mtime.map (timeornowSecs now)
  let c := ctime.map systimeSecs
  if a.isSome ∨ m.isSome ∨ c.isSome then onImage fun ufs => setInodeTimes ufs uino a m c
  else pure ()
  let attr ← orElse .enoent (← look fun st => .ok (st.attrFor uino))
  pure (.attr attr)

def readlink (ino : ℕ) : Handler Reply := do
  let inode ← orElse .enoent (← look fun st => .ok (readInode st.img st.ufs (fuseToUfs ino)))
  if inode.isSymlink then do
    let target ← look fun st => readSymlinkTarget st.img st.ufs inode
    pure (.data target)
  else refuse .einval

def mkdir (c : Caller) (parent : ℕ) (name : Bytes) (mode umask : ℕ) : Handler Reply := do
  writable
  let new ← onImage fun ufs => mkdirInParent ufs (fuseToUfs parent) name (Nat.ldiff mode umask)
    c.uid c.gid (systimeSecs c.now)
  replyEntry new

/-- Only device nodes can be made. -/
def mknod (c : Caller) (parent : ℕ) (name : Bytes) (mode umask rdev : ℕ) : Handler Reply := do
  writable
  let kind := mode &&& ufsIfmt
  if kind = ufsIfchr ∨ kind = ufsIfblk then do
    let (major, minor) := splitRdev rdev
    let new ← onImage fun ufs => mknodInParent ufs (fuseToUfs parent) name kind major minor
      (Nat.ldiff mode umask &&& 0o7777) c.uid c.gid (systimeSecs c.now)
    replyEntry new
  else refuse .einval

def unlink (parent : ℕ) (name : Bytes) : Handler Reply := do
  writable
  let _ ← onImage fun ufs => unlinkInParent ufs (fuseToUfs parent) name
  pure .ok

def rmdir (parent : ℕ) (name : Bytes) : Handler Reply := do
  writable
  let _ ← onImage fun ufs => rmdirInParent ufs (fuseToUfs parent) name
  pure .ok

def symlink (c : Caller) (parent : ℕ) (linkName target : Bytes) : Handler Reply := do
  writable
  let new ← onImage fun ufs => symlinkInParent ufs (fuseToUfs parent) linkName target 0o777
    c.uid c.gid (systimeSecs c.now)
  replyEntry new

def rename (parent : ℕ) (name : Bytes) (newparent : ℕ) (newname : Bytes) : Handler Reply := do
  writable
  onImage fun ufs => renameInParent ufs (fuseToUfs parent) name (fuseToUfs newparent) newname
  pure .ok

def link (ino newparent : ℕ) (newname : Bytes) : Handler Reply := do
  writable
  let target := fuseToUfs ino
  onImage fun ufs => linkInParent ufs (fuseToUfs newparent) newname target
  replyEntry target

/-- A new handle for an inode. -/
def newHandle (ufsIno : ℕ) : Handler ℕ := do
  let fh ← look fun st => .ok st.nextFh
  modify fun st => { st with
    nextFh := fh + 1
    handles := (fh, ufsIno) :: st.handles.filter (·.1 ≠ fh) }
  pure fh

def create (c : Caller) (parent : ℕ) (name : Bytes) (mode umask : ℕ) : Handler Reply := do
  writable
  let new ← onImage fun ufs => createEmptyInParent ufs (fuseToUfs parent) name
    (Nat.ldiff mode umask) c.uid c.gid (systimeSecs c.now)
  modify fun st => st.insertBuffer new ⟨[], false⟩
  let fh ← newHandle new
  let attr ← orElse .eio (← look fun st => .ok (st.attrFor new))
  pure (.created attr fh)

def openFile (ino : ℕ) : Handler Reply := do
  let fh ← newHandle (fuseToUfs ino)
  pure (.opened fh)

/-- Reads see the buffered body if there is one. -/
def readFile (ino offset size : ℕ) : Handler Reply := do
  let uino := fuseToUfs ino
  match ← look fun st => .ok (st.buffers uino) with
  | some b => pure (.data (b.data.slice offset size))
  | none => do
    let inode ← orElse .enoent (← look fun st => .ok (readInode st.img st.ufs uino))
    let data ← look fun st => readInodeRange st.img st.ufs inode offset size
    pure (.data data)

/-- Writes go to the buffered body, which they extend with zeros up to their end. -/
def writeFile (ino offset : ℕ) (data : Bytes) : Handler Reply := do
  writable
  let uino := fuseToUfs ino
  ensureBuffer uino
  let b ← look fun st => Outcome.unwrap (st.buffers uino)
  let stop := offset + data.length
  let body := if stop > b.data.length then b.data.resize stop else b.data
  modify fun st => st.insertBuffer uino ⟨body.overlay offset data, true⟩
  pure (.written data.length)

def flush (c : Caller) (ino : ℕ) : Handler Reply := do
  commit c.now (fuseToUfs ino)
  pure .ok

def fsync (c : Caller) (ino : ℕ) : Handler Reply := do
  commit c.now (fuseToUfs ino)
  if c.synced then pure .ok else refuse .eio

/-- The buffered body goes when no handle of the inode is left. -/
def release (c : Caller) (ino fh : ℕ) : Handler Reply := do
  let uino := fuseToUfs ino
  commit c.now uino
  modify fun st => { st with handles := st.handles.filter (·.1 ≠ fh) }
  if ← look fun st => .ok (st.handles.any (·.2 = uino)) then pure .ok
  else do
    modify fun st => { st with buffers := Function.update st.buffers uino none }
    pure .ok

/-- The entries from `offset` on, as many as the reply has room for. -/
def readdir (ino offset room : ℕ) : Handler Reply := do
  let inode ← orElse .enoent (← look fun st => .ok (readInode st.img st.ufs (fuseToUfs ino)))
  if ¬inode.isDirectory then refuse .enotdir
  else do
    let entries ← look fun st => iterDirectoryEntries st.img st.ufs inode
    let replies ← look fun st => .ok (((entries.zipIdx.drop offset).take room).map fun (entry, index) =>
      (⟨ufsToFuse entry.inode, index + 1,
        ((readInode st.img st.ufs entry.inode).map fun child => fileKindOf child.mode).getD
          .regularFile, entry.name⟩ : DirReply))
    pure (.directory replies)

def statfs : Handler Reply := do
  let reply ← look fun st =>
    let sb := st.ufs.sb
    let so := st.ufs.superOffset
    let nbfree := st.img.i32 (so + FsOff.cstotalNbfree)
    let nifree := st.img.i32 (so + FsOff.cstotalNifree)
    let nffree := st.img.i32 (so + FsOff.cstotalNffree)
    let freeFrags := (max (nbfree * sb.frag + nffree) 0).toNat
    .ok (⟨sb.dsize, freeFrags, freeFrags, sb.ipg * sb.ncg, (max nifree 0).toNat, sb.bsize, nameMax,
      sb.fsize⟩ : Statfs)
  pure (.statfs reply)

/-- Unmounting recounts the summaries of a writable image. -/
def destroy : Handler Reply := do
  if ← look fun st => .ok st.readOnly then pure .ok
  else do
    logged (onImage recomputeSummaryCounts)
    pure .ok

/-- One request, with the state locked. -/
def handle (c : Caller) : Request → Handler Reply
  | .lookup parent name => lookup parent name
  | .getattr ino => getattr ino
  | .access ino => access ino
  | .getxattr .. => refuse .enodata
  | .listxattr _ size => pure (if size = 0 then .xattrSize 0 else .data [])
  | .setattr ino mode uid gid size atime mtime ctime =>
      setattr c.now ino mode uid gid size atime mtime ctime
  | .readlink ino => readlink ino
  | .mkdir parent name mode umask => mkdir c parent name mode umask
  | .mknod parent name mode umask rdev => mknod c parent name mode umask rdev
  | .unlink parent name => unlink parent name
  | .rmdir parent name => rmdir parent name
  | .symlink parent linkName target => symlink c parent linkName target
  | .rename parent name newparent newname => rename parent name newparent newname
  | .link ino newparent newname => link ino newparent newname
  | .create parent name mode umask => create c parent name mode umask
  | .open ino => openFile ino
  | .read ino offset size => readFile ino offset size
  | .write ino offset data => writeFile ino offset data
  | .flush ino => flush c ino
  | .fsync ino => fsync c ino
  | .release ino fh => release c ino fh
  | .readdir ino offset room => readdir ino offset room
  | .statfs => statfs
  | .destroy => destroy

end Handler

/-! ## Sessions -/

/-- The daemon behind its mutex, which a panic of a handler poisons. -/
structure Session where
  daemon : Daemon
  poisoned : Bool

inductive Answer where
  | reply (r : Reply)
  | error (why : Refusal)
  | panicked
  deriving DecidableEq, Repr

namespace Session

/-- `UfsFs::new`. -/
def mount (img : Bytes) (ufs : Ufs) (readOnly : Bool) : Session :=
  ⟨⟨img, ufs, readOnly, 1, [], fun _ => none⟩, false⟩

/-- Names are checked before the state is locked. Locking a poisoned mutex panics; only the unmount
looks whether it is. -/
def serve (s : Session) (c : Caller) (req : Request) : Answer × Session :=
  if ∃ name ∈ req.names, ¬ByteArray.validateUTF8 ⟨name.toArray⟩ then (.error (.errno .einval), s)
  else if s.poisoned ∧ req.locks then (if req = .destroy then .reply .ok else .panicked, s)
  else
    match Handler.handle c req s.daemon with
    | (.ok r, daemon) => (.reply r, { s with daemon := daemon })
    | (.err why, daemon) => (.error why, { s with daemon := daemon })
    | (.panic, daemon) => (.panicked, ⟨daemon, true⟩)

/-- The state after a sequence of requests. -/
def run (s : Session) : List (Caller × Request) → Session
  | [] => s
  | (c, req) :: rest => run (s.serve c req).2 rest

end Session

end UfsFuse
