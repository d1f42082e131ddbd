import UfsFuse.Histories
import UfsFuse.Walk

/-!
# What the clients of a mount see

A mounted file system as its clients see it: requests act on a tree, one after the other, and are
answered from it. There are no buffers, and a write counts at once. Stamping a file that is written
back is all that remains of the buffers.
-/
namespace UfsFuse

/-- Contents after `data` is written at `offset`: what lies between their old end and `offset` is
zero. -/
def Bytes.spliced (b : Bytes) (offset : ℕ) (data : Bytes) : Bytes :=
  (if offset + data.length > b.length then b.resize (offset + data.length) else b).overlay offset data

theorem Bytes.spliced_length (b : Bytes) (offset : ℕ) (data : Bytes) :
    (b.spliced offset data).length = max b.length (offset + data.length) := by
  rw [Bytes.spliced]
  split_ifs with hlong
  · rw [Bytes.overlay_length (by rw [Bytes.resize_length]), Bytes.resize_length]
    omega
  · rw [Bytes.overlay_length (by omega)]
    omega

namespace Request

/-- The call that a request for another name makes. -/
def call (c : Caller) : Request → Option Call
  | .mkdir parent name mode umask => some (.mkdirInParent (fuseToUfs parent) name
      (Nat.ldiff mode umask) c.uid c.gid (systimeSecs c.now))
  | .mknod parent name mode umask rdev => some (.mknodInParent (fuseToUfs parent) name
      (mode &&& ufsIfmt) (splitRdev rdev).1 (splitRdev rdev).2 (Nat.ldiff mode umask &&& 0o7777)
      c.uid c.gid (systimeSecs c.now))
  | .unlink parent name => some (.unlinkInParent (fuseToUfs parent) name)
  | .rmdir parent name => some (.rmdirInParent (fuseToUfs parent) name)
  | .symlink parent linkName target => some (.symlinkInParent (fuseToUfs parent) linkName target
      0o777 c.uid c.gid (systimeSecs c.now))
  | .rename parent name newparent newname =>
      some (.renameInParent (fuseToUfs parent) name (fuseToUfs newparent) newname)
  | .link ino newparent newname =>
      some (.linkInParent (fuseToUfs newparent) newname (fuseToUfs ino))
  | .create parent name mode umask => some (.createEmptyInParent (fuseToUfs parent) name
      (Nat.ldiff mode umask) c.uid c.gid (systimeSecs c.now))
  | _ => none

/-- The new name that a request gives, with its directory. -/
def entered : Request → Option (ℕ × Bytes)
  | .mkdir parent name _ _ | .mknod parent name _ _ _ | .symlink parent name _
  | .create parent name _ _ | .link _ parent name => some (fuseToUfs parent, name)
  | _ => none

/-- The contents that a request gives inode `n`, which had `data`. -/
def setBody (n : ℕ) (data : Bytes) : Request → Bytes
  | .write ino offset new => if fuseToUfs ino = n then data.spliced offset new else data
  | .setattr ino _ _ _ (some size) _ _ _ => if fuseToUfs ino = n then data.resize size else data
  | _ => data

end Request

namespace FileTree

/-- The calls that a `setattr` amounts to. -/
def setattrCalls (V : FileTree) (now : ℤ) (n : ℕ) (mode uid gid size : Option ℕ)
    (atime mtime : Option TimeOrNow) (ctime : Option ℤ) : List Call :=
  let a := atime.map (timeornowSecs now)
  let m := mtime.map (timeornowSecs now)
  let c := ctime.map systimeSecs
  (size.map fun sz => .truncate n sz).toList ++
    (mode.map fun m =>
      .setInodeMode n (((V.attrs n).mode &&& ufsIfmt) ||| permissionsOf m)).toList ++
    (if uid.isSome ∨ gid.isSome then
      [.setInodeOwner n (uid.getD (V.attrs n).uid) (gid.getD (V.attrs n).gid)] else []) ++
    if a.isSome ∨ m.isSome ∨ c.isSome then [.setInodeTimes n a m c] else []

/-- The attributes of inode `n` as a reply has them; the size of a directory is that of its
records, which the tree does not have. -/
def Attr (V : FileTree) (bsize n : ℕ) (attr : FileAttr) : Prop :=
  ∃ i : Dinode, i.attrs = V.attrs n ∧ i.nlink = V.names.links n ∧ ∃ size,
    (n ∉ V.names.dirs → size = (V.body n).length) ∧ attr = makeAttr i.toInode n size bsize

/-- A directory in the order in which it is listed. -/
def Listing (V : FileTree) (d : ℕ) (listing : List (Str × ℕ)) : Prop :=
  ∃ es : List Entry, (es : Multiset Entry) = V.names.records d ∧
    listing = (shownNames es).mergeSort fun a b => strLe a.1 b.1

/-- The reply for the entry at position `x.2`. -/
def dirReply (V : FileTree) (x : (Str × ℕ) × ℕ) : DirReply :=
  ⟨ufsToFuse x.1.2, x.2 + 1, fileKindOf (V.attrs x.1.2).mode, x.1.1⟩

/-- Nothing, or the stamp of a file that is written back. -/
def WrittenBack (V : FileTree) (now : ℤ) (n : ℕ) (V' : FileTree) : Prop :=
  V' = V ∨ n ∈ V.names.live ∧
    V' = V.setAttrs (.setInodeTimes n none (some (systimeSecs now)) (some (systimeSecs now)))

/-- What a request does to the tree, and how it is answered. -/
inductive Serves (bsize : ℕ) (c : Caller) (V : FileTree) : Request → Answer → FileTree → Prop
  | badName {req} (h : ∃ name ∈ req.names, ¬ByteArray.validateUTF8 ⟨name.toArray⟩) :
      Serves bsize c V req (.error (.errno .einval)) V
  | lookup {parent name n attr} (he : ⟨name, n⟩ ∈ V.names.records (fuseToUfs parent))
      (ha : V.Attr bsize n attr) : Serves bsize c V (.lookup parent name) (.reply (.entry attr)) V
  | lookupMissing {parent name} (hf : V.names.Fresh (fuseToUfs parent) name) :
      Serves bsize c V (.lookup parent name) (.error (.errno .enoent)) V
  | getattr {ino attr} (ha : V.Attr bsize (fuseToUfs ino) attr) :
      Serves bsize c V (.getattr ino) (.reply (.attr attr)) V
  | access {ino} (hn : fuseToUfs ino ∈ V.names.live) :
      Serves bsize c V (.access ino) (.reply .ok) V
  | getxattr {ino name size} :
      Serves bsize c V (.getxattr ino name size) (.error (.errno .enodata)) V
  | listxattr {ino size} : Serves bsize c V (.listxattr ino size)
      (.reply (if size = 0 then .xattrSize 0 else .data [])) V
  | setattr {ino mode uid gid size atime mtime ctime attr V'}
      (hs : V.Steps (V.setattrCalls c.now (fuseToUfs ino) mode uid gid size atime mtime ctime) V')
      (ha : V'.Attr bsize (fuseToUfs ino) attr) :
      Serves bsize c V (.setattr ino mode uid gid size atime mtime ctime) (.reply (.attr attr)) V'
  | readlink {ino} (h : (V.attrs (fuseToUfs ino)).isSymlink = true) :
      Serves bsize c V (.readlink ino) (.reply (.data (V.body (fuseToUfs ino)))) V
  | readlinkOther {ino} (h : (V.attrs (fuseToUfs ino)).isSymlink = false) :
      Serves bsize c V (.readlink ino) (.error (.errno .einval)) V
  /-- a new name, whose attributes are returned -/
  | entered {req call p name n attr V'} (hc : req.call c = some call) (hs : V.Step call V')
      (hn : req.entered = some (p, name)) (he : ⟨name, n⟩ ∈ V'.names.records p)
      (ha : V'.Attr bsize n attr) (hr : ∀ parent mode umask, req ≠ .create parent name mode umask) :
      Serves bsize c V req (.reply (.entry attr)) V'
  | created {parent name mode umask call n attr fh V'}
      (hc : (Request.create parent name mode umask).call c = some call) (hs : V.Step call V')
      (he : ⟨name, n⟩ ∈ V'.names.records (fuseToUfs parent)) (ha : V'.Attr bsize n attr) :
      Serves bsize c V (.create parent name mode umask) (.reply (.created attr fh)) V'
  /-- a name is taken away or moved -/
  | left {req call V'} (hc : req.call c = some call) (hs : V.Step call V')
      (hn : req.entered = none) : Serves bsize c V req (.reply .ok) V'
  | refused {req call why} (hc : req.call c = some call) : Serves bsize c V req (.error why) V
  | open {ino fh} : Serves bsize c V (.open ino) (.reply (.opened fh)) V
  | read {ino offset size} (hn : fuseToUfs ino ∈ V.names.live) (hd : fuseToUfs ino ∉ V.names.dirs) :
      Serves bsize c V (.read ino offset size)
        (.reply (.data ((V.body (fuseToUfs ino)).slice offset size))) V
  | write {ino offset data} (hn : fuseToUfs ino ∈ V.names.live)
      (hd : fuseToUfs ino ∉ V.names.dirs) : Serves bsize c V (.write ino offset data)
        (.reply (.written data.length))
        (V.write (fuseToUfs ino) ((V.body (fuseToUfs ino)).spliced offset data))
  | flush {ino V'} (h : V.WrittenBack c.now (fuseToUfs ino) V') :
      Serves bsize c V (.flush ino) (.reply .ok) V'
  | fsync {ino V'} (h : V.WrittenBack c.now (fuseToUfs ino) V') : Serves bsize c V (.fsync ino)
      (if c.synced then .reply .ok else .error (.errno .eio)) V'
  | release {ino fh V'} (h : V.WrittenBack c.now (fuseToUfs ino) V') :
      Serves bsize c V (.release ino fh) (.reply .ok) V'
  | readdir {ino offset room listing} (hd : fuseToUfs ino ∈ V.names.dirs)
      (hl : V.Listing (fuseToUfs ino) listing) : Serves bsize c V (.readdir ino offset room)
        (.reply (.directory (((listing.zipIdx.drop offset).take room).map V.dirReply))) V
  | readdirOther {ino offset room} (hd : fuseToUfs ino ∉ V.names.dirs) :
      Serves bsize c V (.readdir ino offset room) (.error (.errno .enotdir)) V
  | statfs {st} : Serves bsize c V .statfs (.reply (.statfs st)) V
  | destroy : Serves bsize c V .destroy (.reply .ok) V

/-- One request after the other. -/
inductive ServesAll (bsize : ℕ) : FileTree → List (Caller × Request × Answer) → FileTree → Prop
  | nil (V : FileTree) : ServesAll bsize V [] V
  | cons {V V' V'' : FileTree} {c : Caller} {req : Request} {a : Answer}
      {log : List (Caller × Request × Answer)} (h : V.Serves bsize c req a V')
      (hs : ServesAll bsize V' log V'') : ServesAll bsize V ((c, req, a) :: log) V''

theorem Steps.append {V V' V'' : FileTree} {cs ds : List Call} (h : V.Steps cs V')
    (h' : V'.Steps ds V'') : V.Steps (cs ++ ds) V'' := by
  induction h with
  | nil => exact h'
  | cons hstep _ ih => exact .cons hstep (ih h')

end FileTree
end UfsFuse
