import UfsFuse.Attributes
import UfsFuse.FileTree

/-!
# Calls are steps of trees

A call whose conditions are met takes an image that represents a tree to one that represents the tree
of a step; a refused call leaves the tree. So a run is a sequence of steps from a root directory.
-/
namespace UfsFuse

section Names
variable {N N' : NameTree} {p q : ℕ} {e : Entry} {name : Str}

/-- A rename leaves directories directories. -/
theorem Renamed.dirs (h : Renamed N p q e name N') (hs : N.Sound) (hp : p ∈ N.dirs) (hq : q ∈ N.dirs)
    (he : e ∈ N.kids p) {n : ℕ} (hn : n ∈ N'.live) (hd : n ∈ N.dirs) : n ∈ N'.dirs := by
  rcases h with _ | _ | ⟨x, hx, _, hne, hempty⟩
  · exact hd
  · rw [(move_live hs hp hq he).2]
    exact hd
  · obtain ⟨hs', hp', hq', he', -⟩ := without_facts hs hp hq he hx hne hempty
    obtain ⟨hl, hd'⟩ := @move_live (N.without q x) p q e name hs' hp' hq' he'
    rw [hl] at hn
    rw [hd']
    rw [NameTree.without] at hn ⊢
    split_ifs at hn ⊢
    · exact Finset.mem_erase.mpr ⟨Finset.ne_of_mem_erase hn, hd⟩
    · exact hd

theorem Renamed.dirs_subset (h : Renamed N p q e name N') (hs : N.Sound) (hp : p ∈ N.dirs)
    (hq : q ∈ N.dirs) (he : e ∈ N.kids p) : N'.dirs ⊆ N.dirs := by
  rcases h with _ | _ | ⟨x, hx, _, hne, hempty⟩
  · exact subset_rfl
  · exact (move_live hs hp hq he).2.le
  · obtain ⟨hs', hp', hq', he', -, hsub, -⟩ := without_facts hs hp hq he hx hne hempty
    rw [(move_live hs' hp' hq' he').2]
    exact hsub

/-- Along the names, every component is looked up in a directory. -/
def NameTree.Passes (N : NameTree) (a : ℕ) (parts : List Str) : Prop :=
  ∀ pre post, parts = pre ++ post → post ≠ [] → ∀ n, N.Walk a pre n → n ∈ N.dirs

theorem NameTree.Passes.tail {a : ℕ} {parts : List Str} (h : N.Passes a (e.name :: parts))
    (ha : a ∈ N.dirs) (he : e ∈ N.records a) : N.Passes e.inode parts := by
  rintro pre post rfl hpost n hw
  exact h (e.name :: pre) post rfl hpost n (.step ha he hw)

theorem Carries.walksDirs {T : Table} {ufs : Ufs} {image : Bytes} (hc : Carries T N N.links)
    (hs : N.Sound) (hi : ufs.Stores image T) {parts : List Str} :
    ∀ {a : ℕ}, N.Passes a parts → WalksDirs image ufs parts (a, (T.file a).inode) := by
  induction parts with
  | nil => exact fun _ => trivial
  | cons part rest ih =>
    intro a h next hnext
    have ha : a ∈ N.dirs := h [] _ rfl (List.cons_ne_nil _ _) a (.here a)
    have hal := hs.dirs_live ha
    refine ⟨(hc.isDir a hal).mpr ha, ?_⟩
    rcases N.fresh_or_record a part with hf | ⟨e, he, rfl⟩
    · rw [hc.lookup_fresh hs hi ha hf] at hnext
      cases hnext
    · rw [hc.lookup_some hs hi ha he] at hnext
      cases hnext
      exact ih (h.tail ha he)

end Names

namespace FileTree
variable {image t : Bytes} {ufs : Ufs} {V V' : FileTree} {T T' : Table} {p m : ℕ} {e : Entry}
  {name path : Str} {c : Call} {i : Dinode}

/-- The new inode of a creation is not in the tree. -/
theorem In.not_live (h : V.In T) (hm : m ∉ T.used) : m ∉ V.names.live :=
  fun hl => hm (Finset.mem_union_right _ (h.live.mpr hl))

/-- What a successful call has done: the image stores the tree of a step. -/
def Stepped (V : FileTree) (c : Call) (ufs : Ufs) (image : Bytes) : Prop :=
  ∃ V', V.Step c V' ∧ V'.Represents ufs image

/-- What a refused call has done: nothing, unless it ran out of blocks half-way. -/
def Stayed (V : FileTree) (ufs : Ufs) (short : Prop) (image : Bytes) : Prop :=
  V.Represents ufs image ∨ short

theorem In.refused (h : V.In T) {short : Prop} {f : Fault} (hr : Refused ufs T short f t)
    {short' : Prop} (hs : short → short') : V.Stayed ufs short' t :=
  hr.imp (fun hi => ⟨T, hi, h⟩) hs

/-! ## Calls with a path -/

theorem In.createFile (h : V.In T) (hi : ufs.Stores image T) {data : Bytes} {mode uid gid ts : ℕ}
    (hmode : fileTypeOf mode ≠ ufsIfdir) (hdata : data.length < 2 ^ 63)
    (hcan : CanCreate image ufs path) :
    (UfsFuse.createFile ufs path data mode uid gid ts).wp image
      (fun _ t => ∃ p name m, V.names.Below path p name ∧ V.names.Fresh p name ∧ m ∉ V.names.live ∧
        (V.create p ⟨name, m⟩
          (Dinode.fresh (fileTypeOf mode ||| permissionsOf mode) uid gid 1 ts) data).Represents ufs t)
      (fun _ t => V.Stayed ufs (¬RoomToCreate image ufs path (ufs.sb.blocksNeeded data.length)) t) := by
  refine (createFile_stores hi h.carries h.sound hcan.inDirs hmode hdata fun p name hb hf =>
    (hcan.facts hi h.carries h.sound hb hf).le).mono ?_ ?_
  · rintro m t ⟨T', ht, p, name, hb, hf, hnew, hbody, hcore⟩
    have hne := (hcan.facts hi h.carries h.sound hb hf).ne
    exact ⟨p, name, m, hb, hf, h.not_live hnew.fresh, T', ht,
      h.create hb.dir hf hne hnew hbody hcore⟩
  · intro _ t hr
    refine h.refused hr fun hshort hfit => ?_
    exact hfit.not_cramped hcan hi h.carries h.sound hshort

theorem In.makeDirectory (h : V.In T) (hi : ufs.Stores image T) {mode uid gid ts : ℕ}
    (hm : (Call.makeDirectory path mode uid gid ts).Meets image ufs) :
    (UfsFuse.makeDirectory ufs path mode uid gid ts).wp image
      (fun _ t => V.Stepped (.makeDirectory path mode uid gid ts) ufs t)
      (fun _ t => V.Stayed ufs (¬(Call.makeDirectory path mode uid gid ts).Fits image ufs) t) := by
  obtain ⟨hcan, hlink⟩ := hm
  refine (makeDirectory_stores hi h.carries h.sound hcan.inDirs fun p name hb hf => ?_).mono ?_ ?_
  · obtain ⟨hin, -⟩ := Below.createsIn hb hf hi h.carries h.sound hcan.inDirs
    exact ⟨hcan.facts hi h.carries h.sound hb hf,
      (hlink p hin).links hi h.carries h.sound (h.sound.dirs_live hb.dir)⟩
  · rintro m t ⟨T', ht, p, name, hb, hf, hnew, hattrs⟩
    have hne := (hcan.facts hi h.carries h.sound hb hf).ne
    exact ⟨_, .makeDirectory hb hf (h.not_live hnew.fresh), T', ht,
      h.createDir hb.dir hf hne hnew hattrs⟩
  · intro _ t hr
    refine h.refused hr fun hshort hfit => ?_
    exact hfit.not_cramped hcan hi h.carries h.sound hshort

theorem In.link (h : V.In T) (hi : ufs.Stores image T) {source target : Str}
    (hm : (Call.link source target).Meets image ufs) : (UfsFuse.link ufs source target).wp image
      (fun _ t => V.Stepped (.link source target) ufs t)
      (fun _ t => V.Stayed ufs (¬(Call.link source target).Fits image ufs) t) := by
  obtain ⟨hsrc, hcan, hlink⟩ := hm
  have hs := h.sound
  have hc := h.carries
  have hlive : ∀ {n}, V.names.Walk ufsRootInode (pathParts source) n → n ∈ V.names.live := fun hw =>
    hw.live hs (hs.dirs_live hs.root)
  have hfile : ∀ {n}, V.names.Walk ufsRootInode (pathParts source) n → n ∉ V.names.dirs →
      resolvePath image ufs source = .ok (some (n, (T.file n).inode.toInode)) ∧
        (T.file n).inode.isDirectory = false := fun hw hnd =>
    ⟨hc.resolved hs hi hsrc hw, eq_false_of_ne_true fun hd => hnd ((hc.isDir _ (hlive hw)).mp hd)⟩
  refine (link_stores hi hc hs hsrc hcan.inDirs fun n p name hw hnd hb hf => ?_).mono ?_ ?_
  · obtain ⟨hr, hd⟩ := hfile hw hnd
    exact ⟨(hcan.facts hi hc hs hb hf).le, (hlink n _ hr hd).links hi hc hs (hlive hw)⟩
  · rintro n t ⟨T', ht, p, name, hw, hnd, hb, hf, hc', hk⟩
    exact ⟨_, .link hw hnd hb hf, T', ht,
      h.enter hb.dir hf (hcan.facts hi hc hs hb hf).ne (hlive hw) hnd hc' hk⟩
  · intro _ t hr
    refine h.refused hr ?_
    rintro ⟨n, p, name, hw, hnd, hb, hf, hno⟩ hfit
    obtain ⟨hr, hd⟩ := hfile hw hnd
    obtain ⟨hin, rfl⟩ := Below.createsIn hb hf hi hc hs hcan.inDirs
    exact hno ((hfit n _ hr hd p hin).roomy hi (h.live.mpr (hs.dirs_live hb.dir)))

theorem In.unlink (h : V.In T) (hi : ufs.Stores image T) (hm : CanRemove image ufs path) :
    (UfsFuse.unlink ufs path).wp image (fun _ t => V.Stepped (.unlink path) ufs t)
      (fun _ t => V.Represents ufs t) := by
  refine (unlink_stores hi h.carries h.sound hm.inDirs fun p name hb =>
    hm.sure hi h.carries h.sound hb).mono ?_ fun _ t ht => ⟨T, ht, h⟩
  rintro n t ⟨T', ht, p, e, he, hb, rfl, hnd, hleft⟩
  exact ⟨_, .unlink he hb hnd, T', ht, h.leave hb.dir he hnd hleft⟩

theorem In.removeDirectory (h : V.In T) (hi : ufs.Stores image T)
    (hm : (Call.removeDirectory path).Meets image ufs) :
    (UfsFuse.removeDirectory ufs path).wp image (fun _ t => V.Stepped (.removeDirectory path) ufs t)
      (fun _ t => V.Represents ufs t) := by
  obtain ⟨hcan, hdots⟩ := hm
  refine (removeDirectory_stores hi h.carries h.sound hcan.inDirs
    (fun p name hb => hcan.sure hi h.carries h.sound hb) fun n p name hw hnd hz hb => ?_).mono ?_
    fun _ t ht => ⟨T, ht, h⟩
  · have hempty := h.carries.directoryIsEmpty h.sound hi hnd
    rw [decide_eq_true hz] at hempty
    rw [hb.last, ← (splitParent_parts path).2]
    exact hdots n _ (h.carries.resolved h.sound hi hcan.inDirs hw) hempty
  · rintro n t ⟨T', ht, p, e, he, hb, rfl, hnd, hz, hleft⟩
    exact ⟨_, .removeDirectory he hb hnd hz, T', ht, h.leaveDir hb.dir he hnd hz hleft⟩

/-! ## Calls with a parent directory -/

theorem In.createEmptyInParent (h : V.In T) (hi : ufs.Stores image T) (hp : p ∈ V.names.dirs)
    (hok : NameOk name) (hf : V.names.Fresh p name) {mode uid gid ts : ℕ}
    (hmode : fileTypeOf mode ≠ ufsIfdir) :
    (UfsFuse.createEmptyInParent ufs p name mode uid gid ts).wp image
      (fun m t => m ∉ V.names.live ∧ (V.create p ⟨name, m⟩
        (Dinode.fresh (fileTypeOf mode ||| permissionsOf mode) uid gid 1 ts) []).Represents ufs t)
      (fun _ t => V.Stayed ufs (Cramped ufs.sb T p name 0) t) := by
  refine ((createEmptyInParent_stores h.carries h.sound hp hok.le hmode).run image hi).mono ?_
    fun _ t hr => h.refused hr id
  rintro m t ⟨T', ht, hnew, hfile⟩
  exact ⟨h.not_live hnew.fresh, T', ht,
    h.create hp hf hok.ne hnew (by rw [hfile]) (by rw [hfile])⟩

theorem In.mkdirInParent (h : V.In T) (hi : ufs.Stores image T) (hp : p ∈ V.names.dirs)
    (hok : NameOk name) (hf : V.names.Fresh p name) (hl : V.names.links p + 1 < 2 ^ 16)
    {mode uid gid ts : ℕ} : (UfsFuse.mkdirInParent ufs p name mode uid gid ts).wp image
      (fun m t => m ∉ V.names.live ∧ (V.createDir p ⟨name, m⟩
        (Dinode.fresh (ufsIfdir ||| permissionsOf mode) uid gid 2 ts)).Represents ufs t)
      (fun _ t => V.Stayed ufs (Cramped ufs.sb T p name (ufs.sb.blocksNeeded ufsDirblksiz)) t) := by
  refine ((mkdirInParent_stores h.carries h.sound hp hok hf hl).run image hi).mono ?_
    fun _ t hr => h.refused hr id
  rintro m t ⟨T', ht, hnew, hattrs⟩
  exact ⟨h.not_live hnew.fresh, T', ht, h.createDir hp hf hok.ne hnew hattrs⟩

theorem In.symlinkInParent (h : V.In T) (hi : ufs.Stores image T) (hp : p ∈ V.names.dirs)
    (hok : NameOk name) (hf : V.names.Fresh p name) {target : Str} (hlen : target.length < 2 ^ 63)
    {mode uid gid ts : ℕ} : (UfsFuse.symlinkInParent ufs p name target mode uid gid ts).wp image
      (fun m t => m ∉ V.names.live ∧ (V.create p ⟨name, m⟩
        (Dinode.fresh (ufsIflnk ||| permissionsOf mode) uid gid 1 ts) target).Represents ufs t)
      (fun _ t => V.Stayed ufs (Cramped ufs.sb T p name (ufs.sb.blocksNeeded target.length)) t) := by
  refine ((symlinkInParent_stores h.carries h.sound hp hok.le hlen).run image hi).mono ?_
    fun _ t hr => h.refused hr id
  rintro m t ⟨T', ht, hnew, hbody, hcore⟩
  exact ⟨h.not_live hnew.fresh, T', ht, h.create hp hf hok.ne hnew hbody hcore⟩

theorem In.mknodInParent (h : V.In T) (hi : ufs.Stores image T) (hp : p ∈ V.names.dirs)
    (hok : NameOk name) (hf : V.names.Fresh p name) {type major minor mode uid gid ts : ℕ} :
    (UfsFuse.mknodInParent ufs p name type major minor mode uid gid ts).wp image
      (fun m t => m ∉ V.names.live ∧ (V.create p ⟨name, m⟩
        (Dinode.fresh (type ||| permissionsOf mode) uid gid 1 ts) []).Represents ufs t)
      (fun _ t => V.Stayed ufs
        ((type = ufsIfchr ∨ type = ufsIfblk) ∧ Cramped ufs.sb T p name 0) t) := by
  refine ((mknodInParent_stores h.carries h.sound hp hok.le).run image hi).mono ?_
    fun _ t hr => h.refused hr id
  rintro m t ⟨T', ht, hnew, hbody, hcore⟩
  exact ⟨h.not_live hnew.fresh, T', ht, h.create hp hf hok.ne hnew hbody hcore⟩

theorem In.linkInParent (h : V.In T) (hi : ufs.Stores image T) (hp : p ∈ V.names.dirs)
    (hok : NameOk name) (hf : V.names.Fresh p name) (hm : m ∈ V.names.live)
    (hl : m ∉ V.names.dirs → V.names.links m + 1 < 2 ^ 16) :
    (UfsFuse.linkInParent ufs p name m).wp image
      (fun _ t => m ∉ V.names.dirs ∧ (V.rename (V.names.enter p ⟨name, m⟩)).Represents ufs t)
      (fun _ t => V.Stayed ufs (m ∉ V.names.dirs ∧ ¬Roomy ufs.sb T p name 0) t) := by
  refine ((linkInParent_stores h.carries h.sound hp hm hok.le hl).run image hi).mono ?_
    fun _ t hr => h.refused hr id
  rintro - t ⟨T', ht, hnd, hc', hk⟩
  exact ⟨hnd, T', ht, h.enter hp hf hok.ne hm hnd hc' hk⟩

/-- New contents of a file. -/
theorem In.setInodeContents (h : V.In T) (hi : ufs.Stores image T) (hm : m ∈ V.names.live)
    (hd : m ∉ V.names.dirs) {data : Bytes} (hlen : data.length < 2 ^ 63) :
    (UfsFuse.setInodeContents ufs m data).wp image (fun _ t => (V.write m data).Represents ufs t)
      (fun _ _ => blocksBeside image ufs m < ufs.sb.blocksNeeded data.length) := by
  have hmT := h.live.mpr hm
  refine ((setInodeContents_stores hmT hlen).run image hi).mono ?_ ?_
  · rintro - t ⟨T', ht, i, room, rfl, hcore, -⟩
    exact ⟨_, ht, h.write hm hd hcore⟩
  · intro _ t hshort
    rw [hi.blocksBeside hmT]
    exact hshort

/-! ## All calls -/

/-- A rename is a step. -/
theorem In.renameInParent (h : V.In T) (hi : ufs.Stores image T) {q : ℕ} {dst : Str}
    (hm : (Call.renameInParent p name q dst).Meets image ufs) :
    (UfsFuse.renameInParent ufs p name q dst).wp image
      (fun _ t => V.Stepped (.renameInParent p name q dst) ufs t)
      (fun _ t => V.Stayed ufs (¬(Call.renameInParent p name q dst).Fits image ufs) t) := by
  obtain ⟨hp, hq, hcan⟩ := hm
  have hsh := h.carries.shows h.sound hi
  have hp := hsh.isDir.mp hp
  have hq := hsh.isDir.mp hq
  refine ((renameInParent_stores h.carries h.sound hp hq hcan.srcAscii hcan.dstAscii hcan.src_ne.1
    hcan.src_ne.2 hcan.dst_ne.1 hcan.dst_ne.2 hcan.dstOk fun e he hname =>
      hcan.canMove hi h.carries h.sound hp hq he hname).run image hi).mono ?_ ?_
  · rintro - t ⟨T', ht, N', hc', hs', hk, hren⟩
    rcases hren with ⟨rfl, rfl, rfl, rfl⟩ | ⟨e, he, rfl, hren⟩
    · exact ⟨V, .renameSame, T', ht, h⟩
    · refine ⟨_, .renameInParent hp hq he hren, T', ht, h.renamed hk hc' hs' ?_ fun n hn hd => ?_⟩
      · exact hren.live_subset h.sound hp hq he
      · exact hren.dirs h.sound hp hq he hn hd
  · intro _ t hr
    refine h.refused hr ?_
    rintro ⟨hf, hroom, e, he, hname⟩ hfit
    have hlive := h.live.mpr (h.sound.dirs_live hq)
    have hneed := hfit ⟨e, (hsh.mem_entriesAt hp).mpr (NameTree.kid_record he), hname⟩
      ((hsh.fresh hq).mpr hf)
    rw [hi.entryNeeds hlive, hi.blocksBeside hlive] at hneed
    omega

/-- A truncation is a step. -/
theorem In.truncate (h : V.In T) (hi : ufs.Stores image T) {n size : ℕ}
    (hm : (Call.truncate n size).Meets image ufs) :
    (UfsFuse.truncate ufs n size).wp image (fun _ t => V.Stepped (.truncate n size) ufs t)
      (fun _ t => V.Stayed ufs (¬(Call.truncate n size).Fits image ufs) t) := by
  obtain ⟨hfile, hsize⟩ := hm
  obtain ⟨hn, hnd⟩ := (h.carries.shows h.sound hi).file hfile
  refine ((truncate_stores (h.live.mpr hn) hsize).run image hi).mono ?_ ?_
  · rintro - t ⟨T', ht, hT'⟩
    refine ⟨_, .truncate hn hnd, T', ht, ?_⟩
    rcases hT' with ⟨rfl, hlen⟩ | ⟨i, room, rfl, hcore, -⟩
    · -- the size stays
      have hsame : (V.body n).resize size = V.body n := by
        rw [← h.body n hn hnd, ← hlen, Bytes.resize_self]
      rw [hsame, FileTree.write, Function.update_eq_self]
      exact h
    · rw [← h.body n hn hnd]
      exact h.write hn hnd hcore
  · intro _ t hshort
    refine .inr fun hfit => absurd hshort (not_lt.mpr ?_)
    rw [← hi.blocksBeside (h.live.mpr hn)]
    exact hfit

/-- Setting attributes is a step. -/
theorem In.setInode (h : V.In T) (ht : ufs.Stores t (T.setInode m i)) (hstep : V.Step c (V.setAttrs c))
    (hl : m ∈ V.names.live) (hd : i.isDirectory = (T.file m).inode.isDirectory)
    (hln : i.nlink = (T.file m).inode.nlink) (hi : i.attrs = c.setAttrs m (T.file m).inode.attrs)
    (hset : ∀ x ≠ m, ∀ j, c.setAttrs x j = j) : V.Stepped c ufs t :=
  ⟨_, hstep, _, ht, h.setAttrs hl hd hln hi hset⟩

/-- A call whose conditions are met is a step of the tree; a refused one leaves the tree, unless it
ran out of blocks half-way. -/
theorem Represents.step (h : V.Represents ufs image) (hm : c.Meets image ufs) :
    (c.perform ufs).wp image (fun _ t => V.Stepped c ufs t)
      (fun _ t => V.Stayed ufs (¬c.Fits image ufs) t) := by
  obtain ⟨T, hi, h⟩ := h
  have hc := h.carries
  have hs := h.sound
  have hsh := hc.shows hs hi
  have hlive : ∀ {p}, p ∈ V.names.dirs → p ∈ T.live := fun hp => h.live.mpr (hs.dirs_live hp)
  cases c with
  | createFile path data mode uid gid ts =>
    obtain ⟨hmode, hdata, hcan⟩ := hm
    refine Act.wp_discard ((h.createFile hi hmode hdata hcan).mono ?_ fun _ _ hr => hr)
    rintro - t ⟨p, name, m, hb, hf, hm, hrep⟩
    exact ⟨_, .createFile hb hf hm, hrep⟩
  | makeDirectory => exact Act.wp_discard (h.makeDirectory hi hm)
  | link => exact Act.wp_discard (h.link hi hm)
  | symlink target path mode uid gid ts =>
    obtain ⟨hdata, hcan⟩ := hm
    refine Act.wp_discard ((h.createFile hi (symlink_type mode) hdata hcan).mono ?_ fun _ _ hr => hr)
    rintro - t ⟨p, name, m, hb, hf, hm, hrep⟩
    exact ⟨_, .symlink hb hf hm, hrep⟩
  | unlink => exact Act.wp_discard ((h.unlink hi hm).mono (fun _ _ hr => hr) fun _ _ => .inl)
  | removeDirectory =>
    exact Act.wp_discard ((h.removeDirectory hi hm).mono (fun _ _ hr => hr) fun _ _ => .inl)
  | createEmptyInParent p name mode uid gid ts =>
    obtain ⟨hmode, hp, hcan⟩ := hm
    have hp := hsh.isDir.mp hp
    obtain ⟨hok, hf⟩ := hcan.facts hsh hp
    refine Act.wp_discard ((h.createEmptyInParent hi hp hok hf hmode).mono ?_ fun _ t =>
      Or.imp_right fun hshort hfit => hshort.absurd hc hi (hlive hp) hfit)
    rintro m t ⟨hm, hrep⟩
    exact ⟨_, .createEmptyInParent hp hf hm, hrep⟩
  | mkdirInParent p name mode uid gid ts =>
    obtain ⟨hp, hlink, hcan⟩ := hm
    have hp := hsh.isDir.mp hp
    obtain ⟨hok, hf⟩ := hcan.facts hsh hp
    have hl := hlink.links hi hc hs (hs.dirs_live hp)
    refine Act.wp_discard ((h.mkdirInParent hi hp hok hf hl).mono ?_ fun _ t =>
      Or.imp_right fun hshort hfit => hshort.absurd hc hi (hlive hp) hfit)
    rintro m t ⟨hm, hrep⟩
    exact ⟨_, .mkdirInParent hp hf hm, hrep⟩
  | symlinkInParent p name target mode uid gid ts =>
    obtain ⟨hp, hdata, hcan⟩ := hm
    have hp := hsh.isDir.mp hp
    obtain ⟨hok, hf⟩ := hcan.facts hsh hp
    refine Act.wp_discard ((h.symlinkInParent hi hp hok hf hdata).mono ?_ fun _ t =>
      Or.imp_right fun hshort hfit => hshort.absurd hc hi (hlive hp) hfit)
    rintro m t ⟨hm, hrep⟩
    exact ⟨_, .symlinkInParent hp hf hm, hrep⟩
  | mknodInParent p name type major minor mode uid gid ts =>
    obtain ⟨hp, hcan⟩ := hm
    have hp := hsh.isDir.mp hp
    obtain ⟨hok, hf⟩ := hcan.facts hsh hp
    refine Act.wp_discard ((h.mknodInParent hi hp hok hf).mono ?_ fun _ t =>
      Or.imp_right fun hshort hfit => hshort.2.absurd hc hi (hlive hp) (hfit hshort.1))
    rintro m t ⟨hm, hrep⟩
    exact ⟨_, .mknodInParent hp hf hm, hrep⟩
  | linkInParent p name n =>
    obtain ⟨hp, hn, hcan, hlink⟩ := hm
    have hp := hsh.isDir.mp hp
    have hn := (hsh.live n).mp hn
    have hfile : n ∉ V.names.dirs → UfsFuse.isDir image ufs n = false := fun hnd =>
      eq_false_of_ne_true fun hd => hnd (hsh.isDir.mp hd)
    obtain ⟨hok, hf⟩ := hcan.facts hsh hp
    refine (h.linkInParent hi hp hok hf hn fun hnd => (hlink (hfile hnd)).links hi hc hs hn).mono ?_
      fun _ t => Or.imp_right fun hshort hfit =>
        hshort.2 ((hfit (hfile hshort.1)).roomy hi (hlive hp))
    rintro - t ⟨hnd, hrep⟩
    exact ⟨_, .linkInParent hp hf hn hnd, hrep⟩
  | unlinkInParent p name =>
    obtain ⟨hp, ha⟩ := hm
    have hp := hsh.isDir.mp hp
    refine Act.wp_discard (((unlinkInParent_stores hc hs hp ha).run image hi).mono ?_
      fun _ t ht => .inl ⟨T, ht, h⟩)
    rintro m t ⟨T', ht, e, he, rfl, rfl, hnd, hleft, -⟩
    exact ⟨_, .unlinkInParent hp he hnd, T', ht, h.leave hp he hnd hleft⟩
  | rmdirInParent p name =>
    obtain ⟨hp, ha, hdot, hdotdot⟩ := hm
    have hp := hsh.isDir.mp hp
    refine Act.wp_discard (((rmdirInParent_stores hc hs hp ha hdot hdotdot).run image hi).mono ?_
      fun _ t ht => .inl ⟨T, ht, h⟩)
    rintro m t ⟨T', ht, e, he, rfl, rfl, hnd, hz, hleft, -⟩
    exact ⟨_, .rmdirInParent hp he hnd hz, T', ht, h.leaveDir hp he hnd hz hleft⟩
  | renameInParent => exact h.renameInParent hi hm
  | setInodeContents n data =>
    obtain ⟨hfile, hdata⟩ := hm
    obtain ⟨hn, hnd⟩ := hsh.file hfile
    refine (h.setInodeContents hi hn hnd hdata).mono (fun _ t hrep => ?_) fun _ t hshort => ?_
    · exact ⟨_, .setInodeContents hn hnd, hrep⟩
    · exact .inr fun hfit => absurd hshort (not_lt.mpr hfit)
  | truncate => exact h.truncate hi hm
  | setInodeMode n mode =>
    obtain ⟨hu, hdir⟩ := hm
    have hn := (hsh.live n).mp hu
    refine ((setInodeMode_stores (h.live.mpr hn)).run image hi).mono ?_ fun _ _ hno => False.elim hno
    rintro - t ⟨T', ht, rfl⟩
    refine h.setInode ht (.setInodeMode hn) hn ?_ rfl (if_pos rfl).symm fun x hx i => if_neg hx
    rw [Bool.eq_iff_iff, hc.isDir n hn, ← hsh.isDir, ← hdir]
    exact isDirectory_mode_iff _ _
  | setInodeOwner n uid gid =>
    have hn := (hsh.live n).mp hm
    refine ((setInodeOwner_stores (h.live.mpr hn)).run image hi).mono ?_ fun _ _ hno => False.elim hno
    rintro - t ⟨T', ht, rfl⟩
    exact h.setInode ht (.setInodeOwner hn) hn rfl rfl (if_pos rfl).symm fun x hx i => if_neg hx
  | setInodeTimes n atime mtime ctime =>
    have hn := (hsh.live n).mp hm
    refine ((setInodeTimes_stores (h.live.mpr hn)).run image hi).mono ?_ fun _ _ hno => False.elim hno
    rintro - t ⟨T', ht, rfl⟩
    exact h.setInode ht (.setInodeTimes hn) hn rfl rfl (if_pos rfl).symm fun x hx i => if_neg hx

/-! ## Recounts -/

end FileTree

/-- A recount stores the same files. -/
theorem Volume.recounted {sb : Superblock} {D : Disk} {own : ℕ → Owned} {T : Table} (g : sb.Geometry)
    (hsize : sb.dsize < 2 ^ 31) (h : Volume sb D own T)
    (hdirs : ∀ n ∈ T.dirs, n ∈ T.used ∧ 2 ≤ n)
    (hdir : ∀ n ∈ T.used, 2 ≤ n → ((D.ino n).isDirectory = true ↔ n ∈ T.dirs)) :
    ∃ slack, Volume sb (D.recounted sb) own { T with slack := slack } := by
  have hn := h.space.ndblk
  have hsum : ∑ c ∈ Finset.range sb.ncg, (D.derived sb c).nffree ≤ sb.dsize :=
    (Finset.sum_le_sum fun c hc => (derived_bounds g hn (Finset.mem_range.mp hc)).2.2.2).trans
      ((sum_groupFrags_le sb _).trans (min_le_right _ _))
  have hbody : ∀ n ∈ T.live, (D.recounted sb).contents sb (D.ino n) (own n) = (T.file n).body := by
    intro n hn
    have hl := h.laid n hn
    have hsame : (D.recounted sb).contents sb (D.ino n) (own n) = D.contents sb (D.ino n) (own n) :=
      Disk.body_congr (hl.covers g) (hl.sizes_length g) fun _ _ => rfl
    exact hsame.trans (h.body n hn)
  refine ⟨∑ c ∈ Finset.range sb.ncg, (D.derived sb c).nffree, ?_⟩
  refine ⟨Space.recounted g hn h.space.magic h.space.isRun h.space.apart h.space.free_data
    h.space.owned, InodeMap.recounted g h.map.mem hn h.space.magic h.map.inRange
    (Finset.mem_union_left _ h.reserved_zero) (Finset.mem_union_left _ h.reserved_one) hdirs hdir,
    h.reserved_zero, h.reserved_one, h.apart, fun n hn => (h.laid n hn).congr fun _ _ => rfl, h.blocks, h.inode,
    hbody, h.room, h.heads,
    ⟨?_, ?_, ?_⟩, h.pointers⟩
  · rw [recounted_total g hn]
    rfl
  · refine Finset.sum_congr rfl fun c hc => ?_
    rw [recounted_cg g hn (Finset.mem_range.mp hc)]
  · exact hsum.trans_lt hsize

namespace FileTree
variable {image t : Bytes} {ufs : Ufs} {V V' : FileTree} {T T' : Table} {p m : ℕ} {e : Entry}
  {name path : Str} {c : Call} {i : Dinode}

/-- A recount succeeds and leaves the tree. -/
theorem Represents.recount (h : V.Represents ufs image) (hsize : ufs.sb.dsize < 2 ^ 31) :
    (recomputeSummaryCounts ufs).wp image
    (fun _ t => V.Represents ufs t) fun _ _ => False := by
  obtain ⟨T, hi, h⟩ := h
  have g := hi.geom
  obtain ⟨D, own, hh, hv⟩ := hi
  have hdirs : ∀ n ∈ T.dirs, n ∈ T.used ∧ 2 ≤ n := fun n hn => by
    have hl := h.live.mpr (h.sound.dirs_live (h.carries.dirs ▸ hn))
    exact ⟨Finset.mem_union_right _ hl, hv.live_ge hl⟩
  obtain ⟨slack, hv'⟩ := hv.recounted g hsize hdirs fun n hn h2 => by
    have hl : n ∈ T.live := by
      rcases Finset.mem_union.mp hn with hr | hl
      · rw [h.carries.reserved] at hr
        simp only [Finset.mem_insert, Finset.mem_singleton] at hr
        omega
      · exact hl
    rw [hv.inode n hl, h.carries.isDir n (h.live.mp hl), h.carries.dirs]
  refine ((recomputeSummaryCounts_hoare g hv.space.magic hv.space.ndblk).run image hh).mono ?_
    fun _ _ hno => hno
  rintro - t ⟨D', ht, rfl⟩
  exact ⟨_, ⟨_, own, ht, hv'⟩, ⟨h.carries.live, h.carries.dirs, h.carries.reserved, h.carries.isDir,
    h.carries.body, h.carries.nlink⟩, h.sound, h.attrs, h.body⟩

/-! ## Readers -/

/-- What the reading functions return for an image that represents the tree. -/
structure ReadFrom (V : FileTree) (ufs : Ufs) (image : Bytes) : Prop where
  inUse : ∀ n, inUse image ufs n = true ↔ n ∈ V.names.live
  isDir : ∀ n, isDir image ufs n = true ↔ n ∈ V.names.dirs
  entries : ∀ d ∈ V.names.dirs, (entriesAt image ufs d : Multiset Entry) = V.names.records d
  inode : ∀ n ∈ V.names.live, readInode image ufs n = some (dinodeAt image ufs n).toInode ∧
    (dinodeAt image ufs n).attrs = V.attrs n ∧ (dinodeAt image ufs n).nlink = V.names.links n
  body : ∀ n ∈ V.names.live, n ∉ V.names.dirs →
    readInodeBytes image ufs (dinodeAt image ufs n).toInode = .ok (V.body n) ∧
      (dinodeAt image ufs n).size = (V.body n).length
  target : ∀ n ∈ V.names.live, n ∉ V.names.dirs → Ascii (V.body n) →
    readSymlinkTarget image ufs (dinodeAt image ufs n).toInode = .ok (V.body n)
  resolve : ∀ path, V.names.Passes ufsRootInode (pathParts path) →
    ∃ found, resolvePath image ufs path = .ok found ∧ ∀ n inode, found = some (n, inode) ↔
      V.names.Walk ufsRootInode (pathParts path) n ∧ inode = (dinodeAt image ufs n).toInode

theorem Represents.readFrom (h : V.Represents ufs image) : V.ReadFrom ufs image := by
  obtain ⟨T, hi, h⟩ := h
  have hs := h.sound
  have hsh := h.carries.shows hs hi
  have hbody : ∀ n ∈ V.names.live, n ∉ V.names.dirs →
      UfsFuse.readInodeBytes image ufs (UfsFuse.dinodeAt image ufs n).toInode = .ok (V.body n) := by
    intro n hn hd
    have hT := h.live.mpr hn
    rw [hi.dinodeAt hT, ← h.body n hn hd]
    exact hi.readInodeBytes hT
  refine ⟨hsh.live, fun n => hsh.isDir, hsh.entries, fun n hn => ?_, fun n hn hd => ?_,
    fun n hn hd ha => ?_, fun path hp => ?_⟩
  · have hT := h.live.mpr hn
    rw [hi.dinodeAt hT]
    exact ⟨hi.readInode hT, h.attrs n hn, h.carries.nlink n hn⟩
  · have hT := h.live.mpr hn
    refine ⟨hbody n hn hd, ?_⟩
    rw [hi.dinodeAt hT, ← h.body n hn hd]
    exact (hi.body_length hT).symm
  · rw [readSymlinkTarget, hbody n hn hd]
    exact congrArg Outcome.ok (decodeAsciiReplace_of_ascii ha)
  · have hroot := hs.dirs_live hs.root
    have hpath : PathInDirs image ufs path := by
      intro root hr
      rw [hi.readInode (h.live.mpr hroot)] at hr
      cases hr
      exact h.carries.walksDirs hs hi hp
    rcases h.carries.resolvePath hs hi hpath with ⟨m, hw, hr⟩ | ⟨hno, hr⟩
    · refine ⟨_, hr, fun n inode => ⟨?_, ?_⟩⟩
      · rintro ⟨⟩
        rw [hi.dinodeAt (h.live.mpr (hw.live hs hroot))]
        exact ⟨hw, rfl⟩
      · rintro ⟨hn, rfl⟩
        obtain rfl := hw.det hs hn
        rw [hi.dinodeAt (h.live.mpr (hw.live hs hroot))]
    · refine ⟨none, hr, fun n inode => ?_⟩
      refine iff_of_false (fun he => ?_) fun hn => hno n hn.1
      cases he

end FileTree

/-! ## Runs of calls -/

/-- Calls one after the other on an image, each allowed in the state that it finds and with the
result that it gets. Between them the counts may be recomputed, as when the image is unmounted, if they
fit the signed words of the superblock. -/
inductive Trace (ok : Bytes → Call → Outcome Fault Unit → Prop) (ufs : Ufs) :
    Bytes → List (Call × Outcome Fault Unit) → Bytes → Prop
  | nil (image : Bytes) : Trace ok ufs image [] image
  | cons {image s t : Bytes} {c : Call} {r : Outcome Fault Unit} {cs : List (Call × Outcome Fault Unit)}
      (hok : ok image c r) (hdo : c.perform ufs image = (r, s)) (h : Trace ok ufs s cs t) :
      Trace ok ufs image ((c, r) :: cs) t
  | recount {image s t : Bytes} {cs : List (Call × Outcome Fault Unit)} (hsize : ufs.sb.dsize < 2 ^ 31)
      (hdo : recomputeSummaryCounts ufs image = (.ok (), s)) (h : Trace ok ufs s cs t) :
      Trace ok ufs image cs t

/-- The calls that succeeded. -/
def succeeded (cs : List (Call × Outcome Fault Unit)) : List Call :=
  (cs.filter (·.2 = .ok ())).map Prod.fst

section Trace
variable {image t : Bytes} {ufs : Ufs} {V V' : FileTree} {cs : List (Call × Outcome Fault Unit)}

/-- What callers keep to: the conditions of a call, and room for one that is refused. -/
def Call.Sane (ufs : Ufs) (image : Bytes) (c : Call) (r : Outcome Fault Unit) : Prop :=
  c.Meets image ufs ∧ (r = .ok () ∨ c.Fits image ufs)

/-- A run is the sequence of the steps that succeeded. -/
theorem Trace.steps (h : Trace (Call.Sane ufs) ufs image cs t) :
    ∀ {V : FileTree}, V.Represents ufs image → ∃ V', V.Steps (succeeded cs) V' ∧ V'.Represents ufs t := by
  induction h with
  | nil => exact fun {V} hV => ⟨V, .nil V, hV⟩
  | @cons image s t c r cs hok hdo _ ih =>
    intro V hV
    rcases (hV.step hok.1).ok_or_err with ⟨_, u, hdo', V₁, hstep, hV₁⟩ | ⟨f, u, hdo', hstay⟩
    · obtain ⟨rfl, rfl⟩ := Prod.mk.inj (hdo'.symm.trans hdo)
      obtain ⟨V', hsteps, hV'⟩ := ih hV₁
      exact ⟨V', .cons hstep hsteps, hV'⟩
    · obtain ⟨rfl, rfl⟩ := Prod.mk.inj (hdo'.symm.trans hdo)
      have hfits : c.Fits image ufs := hok.2.resolve_left fun hr => nomatch hr
      exact ih (hstay.resolve_right (not_not.mpr hfits))
  | recount hsize hdo _ ih => exact fun hV => ih ((hV.recount hsize).ok hdo)

/-- A fresh file system represents a root directory. -/
theorem Formatted.represents (h : Formatted ufs image) :
    ∃ timestamp, (FileTree.fresh timestamp).Represents ufs image := by
  obtain ⟨timestamp, f, body, hi, hd⟩ := h.table
  refine ⟨timestamp, _, hi, Table.fresh_carries hd, NameTree.fresh_sound, fun n _ => rfl, fun n hn hnd => ?_⟩
  exact absurd hn hnd

/-- Making "a" on a blank slice is such a run. -/
theorem FreshVolume.traceA (h : FreshVolume blankUfs image) :
    ∃ t, Trace (Call.Sane blankUfs) blankUfs image [(.makeA, .ok ())] t := by
  obtain ⟨hvalid, t, hdo⟩ := h.makeA
  exact ⟨t, .cons ⟨hvalid.meets h.consistent hdo, .inl rfl⟩ hdo (.nil t)⟩

end Trace
end UfsFuse
