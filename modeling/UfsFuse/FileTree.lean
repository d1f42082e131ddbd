import UfsFuse.Runs

/-!
# Trees of files

What a file system is to its users: a tree of names, attributes, and contents. Calls are steps of such
trees, without blocks, bitmaps or inode areas; a new file may get any number that is not in use. An
image that represents a tree goes on to represent the trees of the steps.
-/
namespace UfsFuse

structure FileTree where
  names : NameTree
  /-- the fields of an inode other than its link count, its size and its blocks -/
  attrs : ℕ → Dinode
  /-- the contents of files that are not directories -/
  body : ℕ → Bytes

namespace FileTree

/-- A new file under a new name. -/
def create (V : FileTree) (p : ℕ) (e : Entry) (i : Dinode) (data : Bytes) : FileTree where
  names := V.names.enter p e
  attrs := Function.update V.attrs e.inode i.attrs
  body := Function.update V.body e.inode data

/-- A new empty directory. -/
def createDir (V : FileTree) (p : ℕ) (e : Entry) (i : Dinode) : FileTree :=
  { V with
    names := V.names.enterDir p e
    attrs := Function.update V.attrs e.inode i.attrs }

/-- Other names for the same files. -/
def rename (V : FileTree) (names : NameTree) : FileTree := { V with names := names }

def write (V : FileTree) (n : ℕ) (data : Bytes) : FileTree :=
  { V with body := Function.update V.body n data }

def setAttrs (V : FileTree) (c : Call) : FileTree :=
  { V with attrs := fun n => c.setAttrs n (V.attrs n) }

/-- A root directory and nothing else. -/
def fresh (timestamp : ℕ) : FileTree where
  names := NameTree.fresh
  attrs := fun _ => (Dinode.fresh (ufsIfdir ||| 0o755) 0 0 2 timestamp).attrs
  body := fun _ => []

/-- What a call does to a tree. -/
inductive Step (V : FileTree) : Call → FileTree → Prop
  | createFile {path data mode uid gid timestamp p name m} (hb : V.names.Below path p name)
      (hf : V.names.Fresh p name) (hm : m ∉ V.names.live) :
      Step V (.createFile path data mode uid gid timestamp) (V.create p ⟨name, m⟩
        (Dinode.fresh (fileTypeOf mode ||| permissionsOf mode) uid gid 1 timestamp) data)
  | makeDirectory {path mode uid gid timestamp p name m} (hb : V.names.Below path p name)
      (hf : V.names.Fresh p name) (hm : m ∉ V.names.live) :
      Step V (.makeDirectory path mode uid gid timestamp) (V.createDir p ⟨name, m⟩
        (Dinode.fresh (ufsIfdir ||| permissionsOf mode) uid gid 2 timestamp))
  | link {source target p name n} (hw : V.names.Walk ufsRootInode (pathParts source) n)
      (hn : n ∉ V.names.dirs) (hb : V.names.Below target p name) (hf : V.names.Fresh p name) :
      Step V (.link source target) (V.rename (V.names.enter p ⟨name, n⟩))
  | symlink {target path mode uid gid timestamp p name m} (hb : V.names.Below path p name)
      (hf : V.names.Fresh p name) (hm : m ∉ V.names.live) :
      Step V (.symlink target path mode uid gid timestamp) (V.create p ⟨name, m⟩
        (Dinode.fresh (fileTypeOf (ufsIflnk ||| mode) ||| permissionsOf (ufsIflnk ||| mode)) uid gid 1
          timestamp) target)
  | unlink {path p e} (he : e ∈ V.names.kids p) (hb : V.names.Below path p e.name)
      (hn : e.inode ∉ V.names.dirs) : Step V (.unlink path) (V.rename (V.names.leave p e))
  | removeDirectory {path p e} (he : e ∈ V.names.kids p) (hb : V.names.Below path p e.name)
      (hn : e.inode ∈ V.names.dirs) (hz : V.names.kids e.inode = 0) :
      Step V (.removeDirectory path) (V.rename (V.names.leaveDir p e))
  | createEmptyInParent {p name mode uid gid timestamp m} (hp : p ∈ V.names.dirs)
      (hf : V.names.Fresh p name) (hm : m ∉ V.names.live) :
      Step V (.createEmptyInParent p name mode uid gid timestamp) (V.create p ⟨name, m⟩
        (Dinode.fresh (fileTypeOf mode ||| permissionsOf mode) uid gid 1 timestamp) [])
  | mkdirInParent {p name mode uid gid timestamp m} (hp : p ∈ V.names.dirs)
      (hf : V.names.Fresh p name) (hm : m ∉ V.names.live) :
      Step V (.mkdirInParent p name mode uid gid timestamp) (V.createDir p ⟨name, m⟩
        (Dinode.fresh (ufsIfdir ||| permissionsOf mode) uid gid 2 timestamp))
  | symlinkInParent {p name target mode uid gid timestamp m} (hp : p ∈ V.names.dirs)
      (hf : V.names.Fresh p name) (hm : m ∉ V.names.live) :
      Step V (.symlinkInParent p name target mode uid gid timestamp) (V.create p ⟨name, m⟩
        (Dinode.fresh (ufsIflnk ||| permissionsOf mode) uid gid 1 timestamp) target)
  | mknodInParent {p name type major minor mode uid gid timestamp m} (hp : p ∈ V.names.dirs)
      (hf : V.names.Fresh p name) (hm : m ∉ V.names.live) :
      Step V (.mknodInParent p name type major minor mode uid gid timestamp) (V.create p ⟨name, m⟩
        (Dinode.fresh (type ||| permissionsOf mode) uid gid 1 timestamp) [])
  | linkInParent {p name n} (hp : p ∈ V.names.dirs) (hf : V.names.Fresh p name)
      (hl : n ∈ V.names.live) (hn : n ∉ V.names.dirs) :
      Step V (.linkInParent p name n) (V.rename (V.names.enter p ⟨name, n⟩))
  | unlinkInParent {p e} (hp : p ∈ V.names.dirs) (he : e ∈ V.names.kids p)
      (hn : e.inode ∉ V.names.dirs) :
      Step V (.unlinkInParent p e.name) (V.rename (V.names.leave p e))
  | rmdirInParent {p e} (hp : p ∈ V.names.dirs) (he : e ∈ V.names.kids p)
      (hn : e.inode ∈ V.names.dirs) (hz : V.names.kids e.inode = 0) :
      Step V (.rmdirInParent p e.name) (V.rename (V.names.leaveDir p e))
  | renameSame {p name} : Step V (.renameInParent p name p name) V
  | renameInParent {p q e name names} (hp : p ∈ V.names.dirs) (hq : q ∈ V.names.dirs)
      (he : e ∈ V.names.kids p) (hr : Renamed V.names p q e name names) :
      Step V (.renameInParent p e.name q name) (V.rename names)
  | setInodeContents {n data} (hl : n ∈ V.names.live) (hn : n ∉ V.names.dirs) :
      Step V (.setInodeContents n data) (V.write n data)
  | truncate {n size} (hl : n ∈ V.names.live) (hn : n ∉ V.names.dirs) :
      Step V (.truncate n size) (V.write n ((V.body n).resize size))
  | setInodeMode {n mode} (hl : n ∈ V.names.live) :
      Step V (.setInodeMode n mode) (V.setAttrs (.setInodeMode n mode))
  | setInodeOwner {n uid gid} (hl : n ∈ V.names.live) :
      Step V (.setInodeOwner n uid gid) (V.setAttrs (.setInodeOwner n uid gid))
  | setInodeTimes {n atime mtime ctime} (hl : n ∈ V.names.live) :
      Step V (.setInodeTimes n atime mtime ctime) (V.setAttrs (.setInodeTimes n atime mtime ctime))

/-- One step after the other. -/
inductive Steps : FileTree → List Call → FileTree → Prop
  | nil (V : FileTree) : Steps V [] V
  | cons {V V' V'' : FileTree} {c : Call} {cs : List Call} (h : V.Step c V') (hs : Steps V' cs V'') :
      Steps V (c :: cs) V''

end FileTree

/-! ## Trees in a table -/

/-- The table has the files of the tree. -/
structure FileTree.In (V : FileTree) (T : Table) : Prop where
  carries : Carries T V.names V.names.links
  sound : V.names.Sound
  attrs : ∀ n ∈ V.names.live, (T.file n).inode.attrs = V.attrs n
  body : ∀ n ∈ V.names.live, n ∉ V.names.dirs → (T.file n).body = V.body n

/-- The image stores the tree. -/
def FileTree.Represents (V : FileTree) (ufs : Ufs) (image : Bytes) : Prop :=
  ∃ T, ufs.Stores image T ∧ V.In T

namespace FileTree.In
variable {V : FileTree} {T T' : Table} {p m : ℕ} {name : Str} {e : Entry} {i : Dinode} {data : Bytes}

theorem live (h : V.In T) {n : ℕ} : n ∈ T.live ↔ n ∈ V.names.live := by rw [h.carries.live]

/-- Files that stay are still those of the tree. -/
theorem kept (h : V.In T) (hk : T.Keeps T') {names : NameTree} (hc : Carries T' names names.links)
    (hs : names.Sound) {attrs : ℕ → Dinode} {body : ℕ → Bytes}
    (hold : ∀ n ∈ V.names.live, n ∈ names.live → attrs n = V.attrs n ∧
      (n ∉ names.dirs → n ∉ V.names.dirs ∧ body n = V.body n))
    (hnew : ∀ n ∈ names.live, n ∉ V.names.live → (T'.file n).inode.attrs = attrs n ∧
      (n ∉ names.dirs → (T'.file n).body = body n)) : FileTree.In ⟨names, attrs, body⟩ T' := by
  have hfile : ∀ n ∈ names.live, (T'.file n).inode.attrs = attrs n ∧
      (n ∉ names.dirs → (T'.file n).body = body n) := by
    intro n hn
    by_cases hl : n ∈ V.names.live
    · obtain ⟨ha, hb⟩ := hold n hl hn
      obtain ⟨ha', hb'⟩ := hk.files n (h.live.mpr hl) (hc.live ▸ hn)
      refine ⟨ha'.trans ((h.attrs n hl).trans ha.symm), fun hd => ?_⟩
      obtain ⟨hnd, heq⟩ := hb hd
      rw [h.carries.dirs] at hb'
      rw [hb' hnd, h.body n hl hnd, heq]
    · exact hnew n hn hl
  exact ⟨hc, hs, fun n hn => (hfile n hn).1, fun n hn => (hfile n hn).2⟩

/-- Other names only. -/
theorem renamed (h : V.In T) (hk : T.Keeps T') {names : NameTree} (hc : Carries T' names names.links)
    (hs : names.Sound) (hlive : names.live ⊆ V.names.live)
    (hdirs : ∀ n ∈ names.live, n ∈ V.names.dirs → n ∈ names.dirs) : (V.rename names).In T' :=
  h.kept hk hc hs (fun n _ hn => ⟨rfl, fun hd => ⟨fun hd' => hd (hdirs n hn hd'), rfl⟩⟩)
    fun _ hn hno => absurd (hlive hn) hno

theorem create (h : V.In T) (hp : p ∈ V.names.dirs) (hf : V.names.Fresh p name) (hne : name ≠ [])
    (hnew : NewFile T V.names p name m T') (hb : (T'.file m).body = data)
    (hi : (T'.file m).inode.core = i.core) : (V.create p ⟨name, m⟩ i data).In T' := by
  have hm : m ∉ V.names.live := fun hd => hnew.fresh (Finset.mem_union_right _ (h.live.mpr hd))
  have hmd : m ∉ V.names.dirs := fun hd => hm (h.sound.dirs_live hd)
  refine h.kept hnew.keeps hnew.carries (@NameTree.Sound.enter V.names p ⟨name, m⟩ h.sound hp hf hne hmd)
    (fun n hn _ => ?_) fun n hn hno => ?_
  · have hnm : n ≠ m := fun he => hm (he ▸ hn)
    exact ⟨Function.update_of_ne hnm _ _, fun hd => ⟨hd, Function.update_of_ne hnm _ _⟩⟩
  · rcases Finset.mem_insert.mp hn with rfl | hn
    · rw [Function.update_self, Function.update_self]
      exact ⟨Dinode.attrs_of_core hi, fun _ => hb⟩
    · exact absurd hn hno

theorem createDir (h : V.In T) (hp : p ∈ V.names.dirs) (hf : V.names.Fresh p name) (hne : name ≠ [])
    (hnew : NewDir T V.names p name m T') (hi : (T'.file m).inode.attrs = i.attrs) :
    (V.createDir p ⟨name, m⟩ i).In T' := by
  have hm : m ∉ V.names.live := fun hd => hnew.fresh (Finset.mem_union_right _ (h.live.mpr hd))
  refine h.kept hnew.keeps hnew.carries
    (@NameTree.Sound.enterDir V.names p ⟨name, m⟩ h.sound hp hf hne hm) (fun n hn _ => ?_)
    fun n hn hno => ?_
  · have hnm : n ≠ m := fun he => hm (he ▸ hn)
    exact ⟨Function.update_of_ne hnm _ _, fun hd => ⟨fun hd' => hd (Finset.mem_insert_of_mem hd'), rfl⟩⟩
  · rcases Finset.mem_insert.mp hn with rfl | hn
    · rw [Function.update_self]
      exact ⟨hi, fun hd => absurd (Finset.mem_insert_self _ _) hd⟩
    · exact absurd hn hno

theorem enter (h : V.In T) (hp : p ∈ V.names.dirs) (hf : V.names.Fresh p name) (hne : name ≠ [])
    (hl : m ∈ V.names.live) (hn : m ∉ V.names.dirs)
    (hc : Carries T' (V.names.enter p ⟨name, m⟩) (V.names.enter p ⟨name, m⟩).links)
    (hk : T.Keeps T') : (V.rename (V.names.enter p ⟨name, m⟩)).In T' := by
  refine h.renamed hk hc (@NameTree.Sound.enter V.names p ⟨name, m⟩ h.sound hp hf hne hn) ?_
    fun _ _ hd => hd
  exact Finset.insert_subset hl subset_rfl

theorem leave (h : V.In T) (hp : p ∈ V.names.dirs) (he : e ∈ V.names.kids p)
    (hn : e.inode ∉ V.names.dirs) (hleft : LeftFile T V.names p e T') :
    (V.rename (V.names.leave p e)).In T' := by
  refine h.renamed hleft.keeps hleft.carries (h.sound.leave hp he hn) ?_ fun _ _ hd => hd
  rw [NameTree.leave]
  dsimp only
  split_ifs
  · exact Finset.erase_subset _ _
  · exact subset_rfl

theorem leaveDir (h : V.In T) (hp : p ∈ V.names.dirs) (he : e ∈ V.names.kids p)
    (hn : e.inode ∈ V.names.dirs) (hz : V.names.kids e.inode = 0)
    (hleft : LeftDir T V.names p e T') : (V.rename (V.names.leaveDir p e)).In T' := by
  refine h.renamed hleft.keeps hleft.carries (h.sound.leaveDir hp he hn hz) (Finset.erase_subset _ _)
    fun n hnl hd => ?_
  exact Finset.mem_erase.mpr ⟨Finset.ne_of_mem_erase hnl, hd⟩

/-- New contents. -/
theorem write (h : V.In T) {n : ℕ} (hl : n ∈ V.names.live) (hn : n ∉ V.names.dirs) {room : ℕ → ℕ}
    (hi : i.core = (T.file n).inode.core) : (V.write n data).In (T.setFile n ⟨i, data⟩ room) := by
  refine ⟨h.carries.setContents hl hn i data room hi, h.sound, fun x hx => ?_, fun x hx hd => ?_⟩
  · rcases eq_or_ne x n with rfl | hxn
    · rw [Table.setFile_self]
      exact (Dinode.attrs_of_core hi).trans (h.attrs x hx)
    · rw [T.setFile_of_ne hxn]
      exact h.attrs x hx
  · rcases eq_or_ne x n with rfl | hxn
    · rw [Table.setFile_self]
      exact (Function.update_self x data V.body).symm
    · rw [T.setFile_of_ne hxn]
      exact (h.body x hx hd).trans (Function.update_of_ne hxn _ _).symm

/-- New attributes of one file. -/
theorem setAttrs (h : V.In T) {n : ℕ} {c : Call} (hl : n ∈ V.names.live)
    (hd : i.isDirectory = (T.file n).inode.isDirectory) (hln : i.nlink = (T.file n).inode.nlink)
    (hi : i.attrs = c.setAttrs n (T.file n).inode.attrs) (hset : ∀ x ≠ n, ∀ j, c.setAttrs x j = j) :
    (V.setAttrs c).In (T.setInode n i) := by
  refine ⟨h.carries.setAttrs hl hd hln, h.sound, fun x hx => ?_, fun x hx hxd => ?_⟩
  · rcases eq_or_ne x n with rfl | hxn
    · rw [Table.setInode, Table.setFile_self]
      exact hi.trans (congrArg (c.setAttrs x) (h.attrs x hx))
    · rw [Table.setInode, T.setFile_of_ne hxn]
      exact (h.attrs x hx).trans (hset x hxn _).symm
  · rcases eq_or_ne x n with rfl | hxn
    · rw [Table.setInode, Table.setFile_self]
      exact h.body x hx hxd
    · rw [Table.setInode, T.setFile_of_ne hxn]
      exact h.body x hx hxd

end FileTree.In
end UfsFuse
