import UfsFuse.PlacedWrites
import UfsFuse.Refinement

/-!
# Runs on a slice in its place

The disk and the slice alone store the same files, so that what a call needs of the one it has of the
other, and a call does the same on both. A run of calls on the file system of a slice leaves the rest
of the disk alone and neither is nor was influenced by it.
-/
namespace UfsFuse

/-! ## The view -/
section View
variable {pre post whole part : Bytes} {len n : ℕ} {ufs : Ufs}

theorem Placed.u32 (h : Placed pre post len whole part) {off : ℕ} (ho : off + 4 ≤ part.length) :
    whole.u32 (pre.length + off) = part.u32 off := by
  rw [h.eq, Bytes.u32, Bytes.u32, Bytes.slice_placed ho]

theorem Placed.byte (h : Placed pre post len whole part) {off : ℕ} (ho : off < part.length) :
    whole.byte (pre.length + off) = part.byte off := by
  rw [h.eq, Bytes.byte, Bytes.byte, List.getD_eq_getElem?_getD, List.getD_eq_getElem?_getD,
    List.append_assoc, List.getElem?_append_right (Nat.le_add_right ..), Nat.add_sub_cancel_left,
    List.getElem?_append_left ho]

theorem Placed.fits (h : Placed pre post len whole part) (hf : ufs.Fits part) :
    (ufs.behind pre).Fits whole := by
  refine ⟨hf.geom, ?_, ?_⟩
  · rw [Ufs.behind_superOffset, hf.super]
    exact (Nat.add_assoc ..).symm
  · have hin := hf.inside
    rw [h.eq, Ufs.behind_sb]
    simp only [Ufs.behind, List.length_append]
    omega

theorem Placed.fits_part (h : Placed pre post len whole part)
    (hlen : ufs.startOffset + ufs.sb.dsize * 512 ≤ len) (hf : (ufs.behind pre).Fits whole) :
    ufs.Fits part := by
  refine ⟨hf.geom, ?_, h.length ▸ hlen⟩
  have hs := hf.super
  rw [Ufs.behind_superOffset] at hs
  simp only [Ufs.behind] at hs
  omega

/-- On the disk and on the slice alone the view is the same. -/
theorem Placed.view (h : Placed pre post len whole part) (hf : ufs.Fits part) :
    UfsFuse.view (ufs.behind pre) whole = UfsFuse.view ufs part := by
  have g := hf.geom
  have hin := hf.inside
  have htotal : ∀ o, o + 4 ≤ 8192 →
      whole.u32 ((ufs.behind pre).superOffset + o) = part.u32 (ufs.superOffset + o) := by
    intro o ho
    rw [Ufs.behind_superOffset, Nat.add_assoc]
    refine h.u32 ?_
    have hs := hf.super
    simp only [ufsSbOffset] at hs
    have := g.cgOff_ge 0
    have := g.cgOff_inside g.ncg_pos
    omega
  apply Disk.ext
  · funext c
    refine ite_congr rfl (fun hc => ?_) fun _ => rfl
    have hc := g.cgOff_inside hc
    rw [Ufs.behind_cgBlockOffset, h.eq, Ufs.behind_sb, Bytes.slice_placed]
    rw [cgBlockOffset_eq g]
    omega
  · simp only [UfsFuse.view]
    rw [htotal _ (by decide), htotal _ (by decide), htotal _ (by decide), htotal _ (by decide)]
  · funext n
    refine ite_congr rfl (fun hn => ?_) fun _ => rfl
    have hn := g.inoOff_inside hn
    rw [Ufs.behind_inodeOffset, h.eq, Bytes.slice_placed]
    rw [inodeOffset_eq g]
    simp only [ufsDinodeSize]
    omega
  · funext a
    refine ite_congr rfl (fun ha => ?_) fun _ => rfl
    have ha := g.isData_inside ha
    have := Nat.div_add_mod' a 512
    have hb : whole.byte (pre.length + (ufs.startOffset + a)) = part.byte (ufs.startOffset + a) :=
      h.byte (by omega)
    rwa [← Nat.add_assoc] at hb

theorem Placed.stores {T : Table} (h : Placed pre post len whole part) (hi : ufs.Stores part T) :
    (ufs.behind pre).Stores whole T := by
  obtain ⟨D, own, ⟨hf, rfl⟩, hv⟩ := hi
  exact ⟨_, own, ⟨h.fits hf, h.view hf⟩, hv⟩

theorem Placed.stores_part {T : Table} (h : Placed pre post len whole part)
    (hlen : ufs.startOffset + ufs.sb.dsize * 512 ≤ len) (hi : (ufs.behind pre).Stores whole T) :
    ufs.Stores part T := by
  obtain ⟨D, own, ⟨hf, rfl⟩, hv⟩ := hi
  have hf := h.fits_part hlen hf
  exact ⟨_, own, ⟨hf, (h.view hf).symm⟩, hv⟩

theorem Ufs.Fits.inside_slice (hf : ufs.Fits part) (hn : n < ufs.sb.inodes) :
    ufs.Inside part.length n := by
  have hin := hf.inside
  have := hf.geom.inoOff_inside hn
  unfold Ufs.Inside
  rw [inodeOffset_eq hf.geom]
  simp only [ufsDinodeSize]
  omega

theorem Ufs.Stores.fits {T : Table} (hi : ufs.Stores part T) : ufs.Fits part := by
  obtain ⟨D, own, ⟨hf, -⟩, -⟩ := hi
  exact hf

end View

/-! ## Looking up names -/
section Lookup
variable {pre post whole part : Bytes} {len : ℕ} {ufs : Ufs}

/-- What a lookup finds on the slice alone it finds on the disk. -/
theorem Placed.lookupLoop (h : Placed pre post len whole part) (size : ℕ) (blocks : List ℕ)
    (name : Str) (offsets : List ℕ) {found : ℕ × Inode}
    (hf : UfsFuse.lookupLoop part ufs size blocks name offsets = .ok (some found)) :
    UfsFuse.lookupLoop whole (ufs.behind pre) size blocks name offsets = .ok (some found) := by
  induction offsets with
  | nil => cases hf
  | cons off offsets ih =>
    unfold UfsFuse.lookupLoop at hf ⊢
    rw [Ufs.behind_sb]
    dsimp only at hf ⊢
    cases hb : blocks[off / ufs.sb.bsize]? with
    | none =>
      rw [hb] at hf
      cases hf
    | some b =>
      rw [hb] at hf
      dsimp only at hf ⊢
      obtain ⟨block, hblock, hf⟩ := Outcome.bind_eq_ok.mp hf
      have hsame := h.getSlice (ufs.sb.dataBlockOffset ufs.startOffset b + off % ufs.sb.bsize)
        (min ufsDirblksiz (size - off))
      rw [hblock] at hsame
      rw [Ufs.behind_dataBlockOffset, Nat.add_assoc, hsame.ok, Outcome.ok_bind]
      cases hs : scanBlockFor block name (min ufsDirblksiz (size - off))
          (min ufsDirblksiz (size - off)) 0 with
      | none =>
        rw [hs] at hf
        exact ih hf
      | some n =>
        rw [hs] at hf
        dsimp only at hf ⊢
        have hf := Outcome.ok.inj hf
        obtain ⟨inode, hread, rfl⟩ := Option.map_eq_some_iff.mp hf
        rw [h.readInode (h.length ▸ .of_readInode hread), hread]
        rfl

theorem Placed.lookup_some (h : Placed pre post len whole part) {inode : Inode} {name : Str}
    {found : ℕ × Inode} (hf : lookupDirectoryEntry part ufs inode name = .ok (some found)) :
    lookupDirectoryEntry whole (ufs.behind pre) inode name = .ok (some found) := by
  unfold lookupDirectoryEntry at hf ⊢
  split_ifs at hf ⊢ with h0
  · cases hf
  · obtain ⟨blocks, hblocks, hf⟩ := Outcome.bind_eq_ok.mp hf
    have hsame := @Placed.inodeDataBlocks pre post whole part len ufs h inode
    rw [hblocks] at hsame
    rw [hsame.ok, Outcome.ok_bind]
    exact h.lookupLoop _ _ _ _ hf

/-- A path along directories of the disk is one of the slice alone. -/
theorem Placed.walksDirs (h : Placed pre post len whole part) {parts : List Str} :
    ∀ {current : ℕ × Inode}, WalksDirs whole (ufs.behind pre) parts current →
      WalksDirs part ufs parts current := by
  induction parts with
  | nil => exact fun _ => trivial
  | cons _ _ ih =>
    intro current hw next hnext
    obtain ⟨hd, hw⟩ := hw next (h.lookup_some hnext)
    exact ⟨hd, ih hw⟩

theorem Placed.pathInDirs (h : Placed pre post len whole part) {path : Str}
    (hp : PathInDirs whole (ufs.behind pre) path) : PathInDirs part ufs path := by
  intro root hroot
  refine h.walksDirs (hp root ?_)
  rw [h.readInode (h.length ▸ .of_readInode hroot), hroot]

/-- An entry that is read on the slice alone is read on the disk. -/
theorem Placed.mem_entriesAt (h : Placed pre post len whole part) {n : ℕ} {e : Entry}
    (he : e ∈ entriesAt part ufs n) : e ∈ entriesAt whole (ufs.behind pre) n := by
  unfold entriesAt at he ⊢
  cases hr : UfsFuse.readInode part ufs n with
  | none =>
    rw [hr] at he
    cases he
  | some inode =>
    rw [h.readInode (h.length ▸ .of_readInode hr), hr]
    rw [hr] at he
    dsimp only at he ⊢
    have hs : (storedEntries whole (ufs.behind pre) inode).Tracks (storedEntries part ufs inode) :=
      (h.readInodeBytes inode).bind fun _ _ => (h.iterInodeDirectoryRecords inode).bind fun _ _ =>
        .refl _
    cases hs with
    | inl hpanic =>
      rw [hpanic] at he
      cases he
    | inr heq =>
      rw [heq]
      exact he

end Lookup

/-! ## The same files -/

/-- The disk and the slice alone store the files of one tree of names. -/
structure Alike (pre post : Bytes) (len : ℕ) (ufs : Ufs) (whole part : Bytes) (T : Table)
    (N : NameTree) : Prop where
  placed : Placed pre post len whole part
  stores : ufs.Stores part T
  carries : Carries T N N.links
  sound : N.Sound

namespace Alike
variable {pre post whole part : Bytes} {len : ℕ} {ufs : Ufs} {T : Table} {N : NameTree} {n p : ℕ}
  {name path : Str}

section Reading
variable (h : Alike pre post len ufs whole part T N)
include h

theorem stores_whole : (ufs.behind pre).Stores whole T := h.placed.stores h.stores

theorem shows : Shows part ufs N := h.carries.shows h.sound h.stores

theorem shows_whole : Shows whole (ufs.behind pre) N := h.carries.shows h.sound h.stores_whole

theorem live (hn : n ∈ N.live) : n ∈ T.live := by rwa [h.carries.live]

theorem dir_live (hp : p ∈ N.dirs) : p ∈ T.live := h.live (h.sound.dirs_live hp)

theorem inside (hn : n ∈ N.live) : ufs.Inside len n := by
  rw [← h.placed.length]
  exact h.stores.fits.inside_slice (h.stores.used_lt (Finset.mem_union_right _ (h.live hn))).1

theorem inUse (n : ℕ) : UfsFuse.inUse whole (ufs.behind pre) n = UfsFuse.inUse part ufs n := by
  rw [Bool.eq_iff_iff, h.shows_whole.live, h.shows.live]

theorem isDir (n : ℕ) : UfsFuse.isDir whole (ufs.behind pre) n = UfsFuse.isDir part ufs n := by
  rw [Bool.eq_iff_iff, h.shows_whole.isDir, h.shows.isDir]

theorem readInode (hn : n ∈ N.live) :
    UfsFuse.readInode whole (ufs.behind pre) n = UfsFuse.readInode part ufs n :=
  h.placed.readInode (h.inside hn)

theorem nlinkOf (hn : n ∈ N.live) :
    UfsFuse.nlinkOf whole (ufs.behind pre) n = UfsFuse.nlinkOf part ufs n := by
  rw [UfsFuse.nlinkOf, UfsFuse.nlinkOf, h.readInode hn]

theorem lookup (hp : p ∈ N.dirs) (name : Str) :
    lookupDirectoryEntry whole (ufs.behind pre) (T.file p).inode name =
      lookupDirectoryEntry part ufs (T.file p).inode name := by
  rcases N.fresh_or_record p name with hf | ⟨e, he, rfl⟩
  · rw [h.carries.lookup_fresh h.sound h.stores_whole hp hf, h.carries.lookup_fresh h.sound h.stores hp hf]
  · rw [h.carries.lookup_some h.sound h.stores_whole hp he, h.carries.lookup_some h.sound h.stores hp he]

theorem directoryIsEmpty (hp : p ∈ N.dirs) :
    UfsFuse.directoryIsEmpty whole (ufs.behind pre) (T.file p).inode =
      UfsFuse.directoryIsEmpty part ufs (T.file p).inode := by
  rw [h.carries.directoryIsEmpty h.sound h.stores_whole hp, h.carries.directoryIsEmpty h.sound h.stores hp]

/-- A path leads to the same file. -/
theorem resolvePath (hp : PathInDirs whole (ufs.behind pre) path) :
    UfsFuse.resolvePath whole (ufs.behind pre) path = UfsFuse.resolvePath part ufs path := by
  rcases h.carries.resolvePath h.sound h.stores_whole hp with ⟨m, hw, hr⟩ | ⟨hno, hr⟩
  · rcases h.carries.resolvePath h.sound h.stores (h.placed.pathInDirs hp) with
      ⟨m', hw', hr'⟩ | ⟨hno, -⟩
    · obtain rfl := hw.det h.sound hw'
      rw [hr, hr']
    · exact absurd hw (hno m)
  · rcases h.carries.resolvePath h.sound h.stores (h.placed.pathInDirs hp) with ⟨m, hw, -⟩ | ⟨-, hr'⟩
    · exact absurd hw (hno m)
    · rw [hr, hr']

theorem resolved (hp : PathInDirs part ufs path) {inode : Inode}
    (hr : UfsFuse.resolvePath part ufs path = .ok (some (n, inode))) :
    n ∈ N.live ∧ inode = (T.file n).inode := by
  have hroot := h.sound.dirs_live h.sound.root
  rcases h.carries.resolvePath h.sound h.stores hp with ⟨m, hw, hr'⟩ | ⟨-, hr'⟩
  · rw [hr'] at hr
    cases hr
    exact ⟨hw.live h.sound hroot, rfl⟩
  · rw [hr'] at hr
    cases hr

theorem resolved_dir (hp : PathInDirs part ufs path) {inode : Inode}
    (hr : UfsFuse.resolvePath part ufs path = .ok (some (n, inode)))
    (hd : inode.isDirectory = true) : n ∈ N.dirs := by
  obtain ⟨hl, rfl⟩ := h.resolved hp hr
  exact (h.carries.isDir n hl).mp hd

end Reading

/-! ## Conditions of calls -/
section Conditions
variable (h : Alike pre post len ufs whole part T N)
include h

theorem canEnter (hp : p ∈ N.dirs) (hc : CanEnter whole (ufs.behind pre) p name) :
    CanEnter part ufs p name :=
  ⟨hc.ne, hc.le, (h.shows.fresh hp).mpr ((h.shows_whole.fresh hp).mp hc.fresh)⟩

theorem canLink (hn : n ∈ N.live) (hc : CanLink whole (ufs.behind pre) n) : CanLink part ufs n := by
  unfold CanLink at hc ⊢
  rwa [h.nlinkOf hn] at hc

theorem canFind (hc : CanFind whole (ufs.behind pre) p name) : CanFind part ufs p name :=
  hc.imp_right fun hno e he => hno e (h.placed.mem_entriesAt he)

theorem createsIn (hp : PathInDirs whole (ufs.behind pre) (splitParent path).1)
    (hc : CreatesIn part ufs path p) : p ∈ N.dirs ∧ CreatesIn whole (ufs.behind pre) path p := by
  obtain ⟨inode, hr, hd, hl⟩ := hc
  have hdir := h.resolved_dir (h.placed.pathInDirs hp) hr hd
  obtain ⟨-, rfl⟩ := h.resolved (h.placed.pathInDirs hp) hr
  refine ⟨hdir, _, ?_, hd, ?_⟩
  · rw [h.resolvePath hp, hr]
  · rw [h.lookup hdir, hl]

theorem canCreate (hc : CanCreate whole (ufs.behind pre) path) : CanCreate part ufs path := by
  refine ⟨h.placed.pathInDirs hc.inDirs, fun p hp => ?_⟩
  obtain ⟨hd, hp⟩ := h.createsIn hc.inDirs hp
  exact h.canEnter hd (hc.enter p hp)

theorem canRemove (hc : CanRemove whole (ufs.behind pre) path) : CanRemove part ufs path := by
  refine ⟨h.placed.pathInDirs hc.inDirs, fun p inode hr => h.canFind (hc.find p inode ?_)⟩
  rw [h.resolvePath hc.inDirs.parent, hr]

theorem isFile (hc : IsFile whole (ufs.behind pre) n) : IsFile part ufs n := by
  unfold IsFile at hc ⊢
  rwa [h.inUse, h.isDir] at hc

theorem parentOf (hp : p ∈ N.dirs) :
    UfsFuse.parentOf whole (ufs.behind pre) p = UfsFuse.parentOf part ufs p := by
  rw [h.shows_whole.parentOf h.sound hp, h.shows.parentOf h.sound hp]

theorem mem_entriesAt (hp : p ∈ N.dirs) {e : Entry} :
    e ∈ entriesAt whole (ufs.behind pre) p ↔ e ∈ entriesAt part ufs p := by
  rw [h.shows_whole.mem_entriesAt hp, h.shows.mem_entriesAt hp]

theorem canRename {src dst : Str} {q : ℕ} (hp : p ∈ N.dirs) (hq : q ∈ N.dirs)
    (hc : CanRename whole (ufs.behind pre) p src q dst) : CanRename part ufs p src q dst := by
  refine ⟨hc.srcAscii, hc.dstAscii, hc.src_ne, hc.dst_ne, hc.dstOk, fun e he hname hd k => ?_,
    fun e he hname hd hpq hno => h.canLink (h.sound.dirs_live hq) ?_⟩
  · rw [h.shows.parentOf_iterate h.sound k hq, ← h.shows_whole.parentOf_iterate h.sound k hq]
    exact hc.out e ((h.mem_entriesAt hp).mpr he) hname ((h.isDir _).trans hd) k
  · refine hc.links e ((h.mem_entriesAt hp).mpr he) hname ((h.isDir _).trans hd) hpq fun x hx hx' => ?_
    rw [h.isDir]
    exact hno x ((h.mem_entriesAt hq).mp hx) hx'

theorem dir (hp : UfsFuse.isDir whole (ufs.behind pre) p = true) :
    p ∈ N.dirs ∧ UfsFuse.isDir part ufs p = true :=
  ⟨h.shows_whole.isDir.mp hp, (h.isDir p).symm.trans hp⟩

theorem used (hn : UfsFuse.inUse whole (ufs.behind pre) n = true) :
    n ∈ N.live ∧ UfsFuse.inUse part ufs n = true :=
  ⟨(h.shows_whole.live n).mp hn, (h.inUse n).symm.trans hn⟩

/-- What a call needs of the disk it has of the slice alone. -/
theorem meets {c : Call} (hm : c.Meets whole (ufs.behind pre)) : c.Meets part ufs := by
  cases c with
  | createFile path data mode uid gid ts =>
    obtain ⟨hmode, hdata, hcan⟩ := hm
    exact ⟨hmode, hdata, h.canCreate hcan⟩
  | makeDirectory path mode uid gid ts =>
    obtain ⟨hcan, hlink⟩ := hm
    refine ⟨h.canCreate hcan, fun p hp => ?_⟩
    obtain ⟨hd, hp⟩ := h.createsIn hcan.inDirs hp
    exact h.canLink (h.sound.dirs_live hd) (hlink p hp)
  | link source target =>
    obtain ⟨hsrc, hcan, hlink⟩ := hm
    refine ⟨h.placed.pathInDirs hsrc, h.canCreate hcan, fun n inode hr hd => ?_⟩
    have hl := (h.resolved (h.placed.pathInDirs hsrc) hr).1
    rw [← h.resolvePath hsrc] at hr
    exact h.canLink hl (hlink n inode hr hd)
  | symlink target path mode uid gid ts => exact ⟨hm.1, h.canCreate hm.2⟩
  | unlink path => exact h.canRemove hm
  | removeDirectory path =>
    obtain ⟨hcan, hdots⟩ := hm
    refine ⟨h.canRemove hcan, fun n inode hr hempty => hdots n inode ?_ ?_⟩
    · rw [h.resolvePath hcan.inDirs, hr]
    · have hsame := @Placed.directoryIsEmpty pre post whole part len ufs h.placed inode
      rw [hempty] at hsame
      exact hsame.ok
  | createEmptyInParent p name mode uid gid ts =>
    obtain ⟨hmode, hp, hcan⟩ := hm
    exact ⟨hmode, (h.dir hp).2, h.canEnter (h.dir hp).1 hcan⟩
  | mkdirInParent p name mode uid gid ts =>
    obtain ⟨hp, hlink, hcan⟩ := hm
    obtain ⟨hd, hp⟩ := h.dir hp
    exact ⟨hp, h.canLink (h.sound.dirs_live hd) hlink, h.canEnter hd hcan⟩
  | symlinkInParent p name target mode uid gid ts =>
    obtain ⟨hp, hdata, hcan⟩ := hm
    exact ⟨(h.dir hp).2, hdata, h.canEnter (h.dir hp).1 hcan⟩
  | mknodInParent p name type major minor mode uid gid ts =>
    exact ⟨(h.dir hm.1).2, h.canEnter (h.dir hm.1).1 hm.2⟩
  | linkInParent p name n =>
    obtain ⟨hp, hn, hcan, hlink⟩ := hm
    obtain ⟨hl, hn⟩ := h.used hn
    refine ⟨(h.dir hp).2, hn, h.canEnter (h.dir hp).1 hcan, fun hd => h.canLink hl (hlink ?_)⟩
    rw [h.isDir, hd]
  | unlinkInParent p name => exact ⟨(h.dir hm.1).2, hm.2⟩
  | rmdirInParent p name => exact ⟨(h.dir hm.1).2, hm.2⟩
  | renameInParent p src q dst =>
    obtain ⟨hp, hq, hcan⟩ := hm
    exact ⟨(h.dir hp).2, (h.dir hq).2, h.canRename (h.dir hp).1 (h.dir hq).1 hcan⟩
  | setInodeContents n data => exact ⟨h.isFile hm.1, hm.2⟩
  | truncate n size => exact ⟨h.isFile hm.1, hm.2⟩
  | setInodeMode n mode =>
    obtain ⟨hn, hd⟩ := hm
    rw [h.isDir] at hd
    exact ⟨(h.used hn).2, hd⟩
  | setInodeOwner n uid gid => exact (h.used hm).2
  | setInodeTimes n atime mtime ctime => exact (h.used hm).2

end Conditions
end Alike

/-! ## Calls -/

/-- Preparing an inode finds its bytes in the slice. -/
theorem Ufs.Inside.of_initializeInode {ufs : Ufs} {s t : Bytes} {n mode uid gid nlink timestamp : ℕ}
    {u : Unit} (h : initializeInode ufs n mode uid gid nlink timestamp s = (.ok u, t)) :
    ufs.Inside s.length n := by
  obtain ⟨_, _, hclear, -⟩ := Act.bind_eq_ok.mp h
  have hle := (putSlice_eq_ok.mp hclear).1
  rwa [Bytes.zeros_length] at hle

/-- A new inode lies in the slice. -/
theorem newInode_placed {pre post : Bytes} {len : ℕ} {ufs : Ufs} {α : Type} {k k' : ℕ → Write α}
    {near : ℕ} {directory : Bool} {mode uid gid nlink timestamp : ℕ}
    (hk : ∀ m, ufs.Inside len m → (k m).Tracks (Placed pre post len) (k' m)) :
    (do
      let m ← allocateInode (ufs.behind pre) (some near) directory
      initializeInode (ufs.behind pre) m mode uid gid nlink timestamp
      k m).Tracks (Placed pre post len) (do
      let m ← allocateInode ufs (some near) directory
      initializeInode ufs m mode uid gid nlink timestamp
      k' m) := by
  refine (allocateInode_placed _ _).bind fun m s t hR => ?_
  refine (initializeInode_placed m mode uid gid nlink timestamp s t hR).bind fun _ s' t' hR' hrun => ?_
  exact hk m (hR.length ▸ .of_initializeInode hrun) s' t' hR'

section InParent
variable {pre post : Bytes} {len : ℕ} {ufs : Ufs} {p : ℕ}

theorem createEmptyInParent_placed (hp : ufs.Inside len p) (name : Str) (mode uid gid ts : ℕ) :
    (createEmptyInParent (ufs.behind pre) p name mode uid gid ts).Tracks (Placed pre post len)
      (createEmptyInParent ufs p name mode uid gid ts) :=
  (readInodeOr_placed hp _).bind fun _ => .ite (fun _ => Act.tracks_fail _) fun _ =>
    newInode_placed fun _ _ => (addDirectoryEntry_placed hp _ _ _).bind fun _ => Act.tracks_pure _

theorem mkdirInParent_placed (hp : ufs.Inside len p) (name : Str) (mode uid gid ts : ℕ) :
    (mkdirInParent (ufs.behind pre) p name mode uid gid ts).Tracks (Placed pre post len)
      (mkdirInParent ufs p name mode uid gid ts) :=
  (readInodeOr_placed hp _).bind fun _ => .ite (fun _ => Act.tracks_fail _) fun _ =>
    newInode_placed fun _ hm => (Act.tracks_lift _).bind fun _ =>
    (setInodeContents_placed hm _).bind fun _ => (addDirectoryEntry_placed hp _ _ _).bind fun _ =>
    (putInodeField_placed _ _ _).bind fun _ => Act.tracks_pure _

theorem symlinkInParent_placed (hp : ufs.Inside len p) (name target : Str) (mode uid gid ts : ℕ) :
    (symlinkInParent (ufs.behind pre) p name target mode uid gid ts).Tracks (Placed pre post len)
      (symlinkInParent ufs p name target mode uid gid ts) :=
  (readInodeOr_placed hp _).bind fun _ => newInode_placed fun _ hm =>
    (setInodeContents_placed hm _).bind fun _ => (addDirectoryEntry_placed hp _ _ _).bind fun _ =>
    Act.tracks_pure _

theorem mknodInParent_placed (hp : ufs.Inside len p) (name : Str)
    (type major minor mode uid gid ts : ℕ) :
    (mknodInParent (ufs.behind pre) p name type major minor mode uid gid ts).Tracks
      (Placed pre post len) (mknodInParent ufs p name type major minor mode uid gid ts) :=
  .ite (fun _ => Act.tracks_fail _) fun _ => (readInodeOr_placed hp _).bind fun _ =>
    .ite (fun _ => Act.tracks_fail _) fun _ => newInode_placed fun _ _ =>
    (putInodeField_placed _ _ _).bind fun _ => (putInodeField_placed _ _ _).bind fun _ =>
    (writeBlockLists_placed _ _ _).bind fun _ => (addDirectoryEntry_placed hp _ _ _).bind fun _ =>
    Act.tracks_pure _

theorem linkInParent_placed {n : ℕ} (hp : ufs.Inside len p) (hn : ufs.Inside len n) (name : Str) :
    (linkInParent (ufs.behind pre) p name n).Tracks (Placed pre post len)
      (linkInParent ufs p name n) :=
  (readInodeOr_placed hp _).bind fun _ => (readInodeOr_placed hn _).bind fun _ =>
    .ite (fun _ => Act.tracks_fail _) fun _ => (addDirectoryEntry_placed hp _ _ _).bind fun _ =>
    putInodeField_placed _ _ _

end InParent

namespace Alike
variable {pre post whole part : Bytes} {len : ℕ} {ufs : Ufs} {T : Table} {N : NameTree} {n p : ℕ}
  {name path : Str} {α : Type}

section Calls
variable (h : Alike pre post len ufs whole part T N)
include h

theorem creationParent {k k' : Str × ℕ × Inode → Write α}
    (hp : PathInDirs whole (ufs.behind pre) (splitParent path).1)
    (hk : ∀ name p, p ∈ N.dirs → (k (name, p, (T.file p).inode)).Tracks (Placed pre post len)
      (k' (name, p, (T.file p).inode))) :
    (resolveCreationParent (ufs.behind pre) path >>= k).TracksAt (Placed pre post len)
      (resolveCreationParent ufs path >>= k') whole part := by
  have hpart := h.placed.pathInDirs hp
  have hfacts := @resolveCreationParent_stores ufs part T N _ (fun r t => r.2.1 ∈ N.dirs ∧
    r.2.2 = (T.file r.2.1).inode.toInode) (fun _ _ => True) path pure h.stores h.carries h.sound hpart
    (fun _ => trivial) fun p name hb _ => (Act.wp_pure _).mpr ⟨hb.dir, rfl⟩
  rw [Act.wp_bind] at hfacts
  refine Act.TracksAt.bind_wp ?_ hfacts ?_
  · unfold resolveCreationParent
    dsimp only
    refine Act.tracksAt_read_bind (.of_eq (h.resolvePath hp)) h.placed fun r hr => ?_
    cases r with
    | none => exact Act.tracksAt_fail _ h.placed
    | some found =>
      obtain ⟨m, inode⟩ := found
      refine .ite (fun _ => Act.tracksAt_fail _ h.placed) fun hnd => ?_
      have hd := h.resolved_dir hpart hr (not_not.mp hnd)
      obtain ⟨-, rfl⟩ := h.resolved hpart hr
      refine Act.tracksAt_read_bind (.of_eq (h.lookup hd _)) h.placed fun r hr => ?_
      cases r with
      | none => exact Act.tracksAt_pure _ h.placed
      | some found => exact Act.tracksAt_fail _ h.placed
  · rintro ⟨name, p, inode⟩ s t hR hw
    obtain ⟨hd, he⟩ := (Act.wp_pure _).mp hw
    rw [show inode = (T.file p).inode.toInode from he]
    exact hk name p hd s t hR

theorem createFile {data : Bytes} {mode uid gid ts : ℕ}
    (hp : PathInDirs whole (ufs.behind pre) (splitParent path).1) :
    (UfsFuse.createFile (ufs.behind pre) path data mode uid gid ts).TracksAt (Placed pre post len)
      (UfsFuse.createFile ufs path data mode uid gid ts) whole part := by
  unfold UfsFuse.createFile
  refine h.creationParent hp fun name p hd => newInode_placed fun m hm => ?_
  have hin := h.inside (h.sound.dirs_live hd)
  exact .ite (fun _ => (setInodeContents_placed hm _).bind fun _ =>
    (addDirectoryEntry_placed hin _ _ _).bind fun _ => Act.tracks_pure _) fun _ =>
    (addDirectoryEntry_placed hin _ _ _).bind fun _ => Act.tracks_pure _

theorem makeDirectory {mode uid gid ts : ℕ}
    (hp : PathInDirs whole (ufs.behind pre) (splitParent path).1) :
    (UfsFuse.makeDirectory (ufs.behind pre) path mode uid gid ts).TracksAt (Placed pre post len)
      (UfsFuse.makeDirectory ufs path mode uid gid ts) whole part := by
  unfold UfsFuse.makeDirectory
  refine h.creationParent hp fun name p hd => newInode_placed fun m hm => ?_
  have hin := h.inside (h.sound.dirs_live hd)
  exact (Act.tracks_lift _).bind fun _ => (setInodeContents_placed hm _).bind fun _ =>
    (addDirectoryEntry_placed hin _ _ _).bind fun _ => (putInodeField_placed _ _ _).bind fun _ =>
    Act.tracks_pure _

theorem link {source target : Str} (hs : PathInDirs whole (ufs.behind pre) source)
    (hp : PathInDirs whole (ufs.behind pre) (splitParent target).1) :
    (UfsFuse.link (ufs.behind pre) source target).TracksAt (Placed pre post len)
      (UfsFuse.link ufs source target) whole part := by
  unfold UfsFuse.link
  refine Act.tracksAt_read_bind (.of_eq (h.resolvePath hs)) h.placed fun r _ => ?_
  cases r with
  | none => exact Act.tracksAt_fail _ h.placed
  | some found =>
    refine .ite (fun _ => Act.tracksAt_fail _ h.placed) fun _ => h.creationParent hp fun name p hd => ?_
    exact (addDirectoryEntry_placed (h.inside (h.sound.dirs_live hd)) _ _ _).bind fun _ =>
      (putInodeField_placed _ _ _).bind fun _ => Act.tracks_pure _

/-- The parent of a removal. -/
theorem removalParent {k k' : Str × ℕ × Inode → Write α}
    (hp : PathInDirs whole (ufs.behind pre) (splitParent path).1)
    (hk : ∀ r, (k r).Tracks (Placed pre post len) (k' r)) :
    (resolveRemovalParent (ufs.behind pre) path >>= k).TracksAt (Placed pre post len)
      (resolveRemovalParent ufs path >>= k') whole part := by
  refine Act.TracksAt.bind ?_ fun r s t hR _ => hk r s t hR
  unfold resolveRemovalParent
  dsimp only
  refine Act.tracksAt_read_bind (.of_eq (h.resolvePath hp)) h.placed fun r _ => ?_
  cases r with
  | none => exact Act.tracksAt_fail _ h.placed
  | some found => exact Act.tracksAt_pure _ h.placed

theorem unlink (hp : PathInDirs whole (ufs.behind pre) path) :
    (UfsFuse.unlink (ufs.behind pre) path).TracksAt (Placed pre post len) (UfsFuse.unlink ufs path)
      whole part := by
  unfold UfsFuse.unlink
  refine .ite (fun _ => Act.tracksAt_fail _ h.placed) fun _ => ?_
  refine Act.tracksAt_read_bind (.of_eq (h.resolvePath hp)) h.placed fun r hr => ?_
  cases r with
  | none => exact Act.tracksAt_fail _ h.placed
  | some found =>
    obtain ⟨n, inode⟩ := found
    have hl := (h.resolved (h.placed.pathInDirs hp) hr).1
    refine .ite (fun _ => Act.tracksAt_fail _ h.placed) fun _ => h.removalParent hp.parent ?_
    exact fun r => (deleteDirectoryEntry_placed _ _).bind fun _ =>
      (dropLink_placed (h.inside hl) _).bind fun _ => Act.tracks_pure _

theorem removeDirectory (hp : PathInDirs whole (ufs.behind pre) path) :
    (UfsFuse.removeDirectory (ufs.behind pre) path).TracksAt (Placed pre post len)
      (UfsFuse.removeDirectory ufs path) whole part := by
  unfold UfsFuse.removeDirectory
  refine .ite (fun _ => Act.tracksAt_fail _ h.placed) fun _ => ?_
  refine Act.tracksAt_read_bind (.of_eq (h.resolvePath hp)) h.placed fun r hr => ?_
  cases r with
  | none => exact Act.tracksAt_fail _ h.placed
  | some found =>
    obtain ⟨n, inode⟩ := found
    have hl := (h.resolved (h.placed.pathInDirs hp) hr).1
    refine .ite (fun _ => Act.tracksAt_fail _ h.placed) fun _ => ?_
    refine Act.tracksAt_read_bind (h.placed.directoryIsEmpty _) h.placed fun empty _ => ?_
    refine .ite (fun _ => Act.tracksAt_fail _ h.placed) fun _ => h.removalParent hp.parent ?_
    exact fun r => (dropDirectory_placed (h.inside hl) _ _ _).bind fun _ => Act.tracks_pure _

/-- Reading an inode in use. -/
theorem readInodeOr {f : Fault} {k k' : Inode → Write α} (hn : n ∈ N.live)
    (hk : (k (T.file n).inode).TracksAt (Placed pre post len) (k' (T.file n).inode) whole part) :
    (UfsFuse.readInodeOr (ufs.behind pre) n f >>= k).TracksAt (Placed pre post len)
      (UfsFuse.readInodeOr ufs n f >>= k') whole part := by
  have hread : ∀ {u : Ufs} {image : Bytes}, u.Stores image T →
      UfsFuse.readInodeOr u n f image = (.ok (T.file n).inode.toInode, image) := by
    intro u image hi
    exact Act.read_ok_bind (f := fun image => Outcome.ok (UfsFuse.readInode image u n))
      (congrArg Outcome.ok (hi.readInode (h.live hn)))
  exact Act.tracksAt_ok_bind (hread h.stores_whole) (hread h.stores) hk

/-- Looking up a name that must be there. -/
theorem lookupOr {f : Fault} {k k' : ℕ × Inode → Write α} (hp : p ∈ N.dirs)
    (hk : ∀ n ∈ N.live, (k (n, (T.file n).inode)).TracksAt (Placed pre post len)
      (k' (n, (T.file n).inode)) whole part) :
    (UfsFuse.lookupOr (ufs.behind pre) (T.file p).inode name f >>= k).TracksAt (Placed pre post len)
      (UfsFuse.lookupOr ufs (T.file p).inode name f >>= k') whole part := by
  rcases N.fresh_or_record p name with hf | ⟨e, he, rfl⟩
  · have hmissing : ∀ {u : Ufs} {image : Bytes}, u.Stores image T →
        UfsFuse.lookupOr u (T.file p).inode name f image = (.err f, image) := by
      intro u image hi
      exact Act.read_ok_bind
        (f := fun image => lookupDirectoryEntry image u (T.file p).inode name)
        (h.carries.lookup_fresh h.sound hi hp hf)
    refine Act.TracksAt.bind (.inr ?_) fun a s t _ hrun => ?_
    · rw [hmissing h.stores_whole, hmissing h.stores]
      exact ⟨rfl, h.placed⟩
    · rw [hmissing h.stores] at hrun
      cases hrun
  · have hfound : ∀ {u : Ufs} {image : Bytes}, u.Stores image T →
        UfsFuse.lookupOr u (T.file p).inode e.name f image =
          (.ok (e.inode, (T.file e.inode).inode.toInode), image) := by
      intro u image hi
      exact Act.read_ok_bind
        (f := fun image => lookupDirectoryEntry image u (T.file p).inode e.name)
        (h.carries.lookup_some h.sound hi hp he)
    exact Act.tracksAt_ok_bind (hfound h.stores_whole) (hfound h.stores)
      (hk _ (h.sound.record_live hp he))

theorem unlinkInParent (hp : p ∈ N.dirs) (name : Str) :
    (UfsFuse.unlinkInParent (ufs.behind pre) p name).TracksAt (Placed pre post len)
      (UfsFuse.unlinkInParent ufs p name) whole part := by
  unfold UfsFuse.unlinkInParent
  refine h.readInodeOr (h.sound.dirs_live hp) (h.lookupOr hp fun n hn => ?_)
  refine .ite (fun _ => Act.tracksAt_fail _ h.placed) fun _ => ?_
  exact ((deleteDirectoryEntry_placed _ _).bind fun _ => (dropLink_placed (h.inside hn) _).bind
    fun _ => Act.tracks_pure _) whole part h.placed

theorem rmdirInParent (hp : p ∈ N.dirs) (name : Str) :
    (UfsFuse.rmdirInParent (ufs.behind pre) p name).TracksAt (Placed pre post len)
      (UfsFuse.rmdirInParent ufs p name) whole part := by
  unfold UfsFuse.rmdirInParent
  refine h.readInodeOr (h.sound.dirs_live hp) (h.lookupOr hp fun n hn => ?_)
  refine .ite (fun _ => Act.tracksAt_fail _ h.placed) fun _ => ?_
  refine Act.tracksAt_read_bind (h.placed.directoryIsEmpty _) h.placed fun empty _ => ?_
  refine .ite (fun _ => Act.tracksAt_fail _ h.placed) fun _ => ?_
  exact ((dropDirectory_placed (h.inside hn) _ _ _).bind fun _ => Act.tracks_pure _) whole part h.placed

theorem renameInParent {q : ℕ} (hp : p ∈ N.dirs) (hq : q ∈ N.dirs) (src dst : Str) :
    (UfsFuse.renameInParent (ufs.behind pre) p src q dst).TracksAt (Placed pre post len)
      (UfsFuse.renameInParent ufs p src q dst) whole part := by
  unfold UfsFuse.renameInParent
  have hin := h.inside (h.sound.dirs_live hq)
  refine .ite (fun _ => Act.tracksAt_pure _ h.placed) fun _ => ?_
  refine h.readInodeOr (h.sound.dirs_live hp) (h.lookupOr hp fun n hn => ?_)
  refine h.readInodeOr (h.sound.dirs_live hq) ?_
  refine Act.tracksAt_read_bind (.of_eq (h.lookup hq dst)) h.placed fun r _ => ?_
  cases r with
  | none => exact moveEntry_placed hin _ _ _ whole part h.placed
  | some found =>
    refine .ite (fun _ => Act.tracksAt_pure _ h.placed) fun _ => ?_
    refine .ite (fun _ => Act.tracksAt_fail _ h.placed) fun _ => .ite (fun _ => ?_) fun _ => ?_
    · exact (h.rmdirInParent hq dst).discard.bind fun _ s t hR _ => moveEntry_placed hin _ _ _ s t hR
    · exact (h.unlinkInParent hq dst).discard.bind fun _ s t hR _ => moveEntry_placed hin _ _ _ s t hR

/-- A call does on the disk what it does on the slice alone. -/
theorem perform {c : Call} (hm : c.Meets whole (ufs.behind pre)) :
    (c.perform (ufs.behind pre)).TracksAt (Placed pre post len) (c.perform ufs) whole part := by
  have hdir : ∀ {p}, UfsFuse.isDir whole (ufs.behind pre) p = true → ufs.Inside len p := fun hp =>
    h.inside (h.sound.dirs_live (h.dir hp).1)
  cases c with
  | createFile => exact (h.createFile hm.2.2.inDirs).discard
  | makeDirectory => exact (h.makeDirectory hm.1.inDirs).discard
  | link => exact (h.link hm.1 hm.2.1.inDirs).discard
  | symlink => exact (h.createFile hm.2.inDirs).discard
  | unlink => exact (h.unlink hm.inDirs).discard
  | removeDirectory => exact (h.removeDirectory hm.1.inDirs).discard
  | createEmptyInParent =>
    exact (createEmptyInParent_placed (hdir hm.2.1) _ _ _ _ _ _ _ h.placed).discard
  | mkdirInParent => exact (mkdirInParent_placed (hdir hm.1) _ _ _ _ _ _ _ h.placed).discard
  | symlinkInParent => exact (symlinkInParent_placed (hdir hm.1) _ _ _ _ _ _ _ _ h.placed).discard
  | mknodInParent =>
    exact (mknodInParent_placed (hdir hm.1) _ _ _ _ _ _ _ _ _ _ h.placed).discard
  | linkInParent =>
    exact linkInParent_placed (hdir hm.1) (h.inside (h.used hm.2.1).1) _ _ _ h.placed
  | unlinkInParent => exact (h.unlinkInParent (h.dir hm.1).1 _).discard
  | rmdirInParent => exact (h.rmdirInParent (h.dir hm.1).1 _).discard
  | renameInParent => exact h.renameInParent (h.dir hm.1).1 (h.dir hm.2.1).1 _ _
  | setInodeContents =>
    exact setInodeContents_placed (h.inside (h.used hm.1.1).1) _ _ _ h.placed
  | truncate => exact truncate_placed (h.inside (h.used hm.1.1).1) _ _ _ h.placed
  | setInodeMode => exact putInodeField_placed _ _ _ _ _ h.placed
  | setInodeOwner => exact setInodeOwner_placed _ _ _ _ _ h.placed
  | setInodeTimes => exact setInodeTimes_placed _ _ _ _ _ _ h.placed

end Calls
end Alike

/-! ## Formatting -/
section Format
variable {pre post whole part : Bytes} {len fsStart size : ℕ} {ufs : Ufs} {l : Layout}
  {opts : FormatOptions}

/-- The layout does not depend on what lies around the slice. -/
theorem formatLayout_inside {len len' fsStart' : ℕ} (h : fsStart + size ≤ len)
    (h' : fsStart' + size ≤ len') :
    formatLayout len fsStart size opts = formatLayout len' fsStart' size opts := by
  unfold formatLayout
  simp only [if_neg (Nat.not_lt.mpr h), if_neg (Nat.not_lt.mpr h'), gt_iff_lt]

theorem writeSuperblock_placed : (writeSuperblock (pre.length + fsStart) l opts).Tracks
    (Placed pre post len) (writeSuperblock fsStart l opts) := by
  unfold writeSuperblock
  dsimp only
  simp only [Nat.add_assoc]
  exact (Act.Tracks.each fun _ _ => putSlice_placed _ _).bind fun _ => (putSlice_placed _ _).bind
    fun _ => (putSlice_placed _ _).bind fun _ => putSlice_placed _ _

theorem formatGroup_placed (c : ℕ) : (formatGroup (ufs.behind pre) c).Tracks (Placed pre post len)
    (formatGroup ufs c) :=
  (initializePristineCg_placed c).bind fun _ => .ite (fun _ => (Act.tracks_lift _).bind fun _ =>
    writeCgBlock_placed _ _) fun _ => Act.tracks_pure _

theorem formatRoot_placed (hroot : ufs.Inside len ufsRootInode) (timestamp : ℕ) :
    (formatRoot (ufs.behind pre) timestamp).Tracks (Placed pre post len)
      (formatRoot ufs timestamp) := by
  refine (initializeInode_placed _ _ _ _ _ _).bind fun _ => ?_
  refine (Act.tracks_read fun _ _ h => .of_eq (congrArg Outcome.ok (h.readInode hroot))).bind fun r => ?_
  cases r with
  | none => exact Act.tracks_fail _
  | some inode => exact (Act.tracks_lift _).bind fun _ => setInodeContents_placed hroot _

/-- A slice that is formatted in its place is the slice formatted alone. -/
theorem format_placed (h : Placed pre post len whole part)
    (hl : formatLayout part.length fsStart size opts = .ok l) (hs : l.Sized opts)
    (hlast : (l.superblock opts).LastGroupHolds)
    (hufs : ufs = ⟨fsStart, fsStart + ufsSbOffset, l.superblock opts⟩) :
    ∃ whole' part', format (pre.length + fsStart) size opts whole = (.ok (ufs.behind pre), whole') ∧
      format fsStart size opts part = (.ok ufs, part') ∧ Placed pre post len whole' part' := by
  obtain ⟨fr, sh, count, hc⟩ := formatLayout_checked hl
  have hinside := hc.inside
  have hl' : formatLayout whole.length (pre.length + fsStart) size opts = .ok l := by
    rw [← hl]
    refine formatLayout_inside ?_ hinside
    rw [h.eq]
    simp only [List.length_append]
    omega
  have hufs' : ufs.behind pre =
      ⟨pre.length + fsStart, pre.length + fsStart + ufsSbOffset, l.superblock opts⟩ := by
    rw [hufs, Ufs.behind, Nat.add_assoc]
  obtain ⟨t, ht, hfits, -, -, hrun⟩ := format_runs hl hs hlast hufs
  obtain ⟨t', ht', -, -, -, hrun'⟩ := format_runs hl' hs hlast hufs'
  have hlong : ∀ {image : Bytes} {start : ℕ},
      formatLayout image.length start size opts = .ok l →
        writeSuperblock start l opts image = (.ok (), withSuperblock image start l opts) := by
    intro image start hl
    obtain ⟨fr, sh, count, hc⟩ := formatLayout_checked hl
    refine writeSuperblock_eq ?_
    have g := (hc.geometry hs hlast).1
    have hdsize : (l.superblock opts).dsize = l.totalFragments :=
      congrArg Superblock.dsize (hc.superblock_eq hs)
    have h1 := g.cgOff_ge 0
    have h2 := g.cgOff_inside g.ncg_pos
    have hinside := hc.inside
    have hwhole := hc.whole
    simp only [ufsSbOffset, ufsSbSize]
    omega
  have hwritten : Placed pre post len t' t := by
    have htracks := @writeSuperblock_placed pre post len fsStart l opts whole part h
    have hno : (writeSuperblock fsStart l opts part).1 ≠ .panic := by
      rw [hlong hl]
      intro hpanic
      cases hpanic
    have hplaced := (htracks.no_panic hno).2
    rwa [hlong hl, hlong hl', ← ht, ← ht'] at hplaced
  have hin : ∀ n < ufs.sb.inodes, ufs.Inside len n := fun n hn => by
    rw [← hwritten.length]
    exact hfits.inside_slice hn
  have hroot : ufs.Inside len ufsRootInode := hin _ hfits.geom.root_lt
  obtain ⟨u, part', hdo, rfl, -⟩ | ⟨_, _, -, hno⟩ := (format_fresh hl hs hlast).ok_or_err
  · rw [← hufs] at hdo
    have hformat := hdo
    rw [hrun] at hdo
    obtain ⟨_, t₁, h₁, hdo⟩ := Act.bind_eq_ok.mp hdo
    obtain ⟨_, t₂, h₂, hdo⟩ := Act.bind_eq_ok.mp hdo
    obtain ⟨_, t₃, h₃, hdo⟩ := Act.bind_eq_ok.mp hdo
    obtain ⟨-, rfl⟩ := Prod.mk.inj hdo
    obtain ⟨s₁, g₁, hp₁⟩ := (Act.Tracks.each (fun c _ => formatGroup_placed c) t' t hwritten).ok h₁
    obtain ⟨s₂, g₂, hp₂⟩ := (formatRoot_placed hroot opts.timestamp s₁ t₁ hp₁).ok h₂
    obtain ⟨s₃, g₃, hp₃⟩ := (recomputeSummaryCounts_placed hin s₂ t₂ hp₂).ok h₃
    refine ⟨s₃, t₃, ?_, hformat, hp₃⟩
    rw [hrun']
    exact (Act.bind_of_ok g₁).trans ((Act.bind_of_ok g₂).trans (Act.bind_of_ok g₃))
  · exact hno.elim

end Format

/-! ## Runs -/

/-- The reading functions return the same on both images, for inodes in use and along directories. -/
structure ReadsAlike (ufs ufs' : Ufs) (image image' : Bytes) : Prop where
  inUse : ∀ n, inUse image ufs n = inUse image' ufs' n
  isDir : ∀ n, isDir image ufs n = isDir image' ufs' n
  inode : ∀ n, UfsFuse.inUse image ufs n = true → readInode image ufs n = readInode image' ufs' n
  bytes : ∀ n inode, UfsFuse.inUse image ufs n = true → readInode image ufs n = some inode →
    readInodeBytes image ufs inode = readInodeBytes image' ufs' inode ∧
      readSymlinkTarget image ufs inode = readSymlinkTarget image' ufs' inode ∧
      ∀ offset size, readInodeRange image ufs inode offset size =
        readInodeRange image' ufs' inode offset size
  lookup : ∀ d inode name, UfsFuse.isDir image ufs d = true → readInode image ufs d = some inode →
    lookupDirectoryEntry image ufs inode name = lookupDirectoryEntry image' ufs' inode name
  list : ∀ d inode, UfsFuse.isDir image ufs d = true → readInode image ufs d = some inode →
    iterDirectoryEntries image ufs inode = iterDirectoryEntries image' ufs' inode
  resolve : ∀ path, PathInDirs image ufs path →
    resolvePath image ufs path = resolvePath image' ufs' path

namespace Alike
variable {pre post whole part : Bytes} {len : ℕ} {ufs : Ufs} {T : Table} {N : NameTree} {n p : ℕ}
variable (h : Alike pre post len ufs whole part T N)
include h

/-- A directory is listed alike: its records name inodes in use. -/
theorem iterDirectoryEntries (hp : p ∈ N.dirs) :
    UfsFuse.iterDirectoryEntries whole (ufs.behind pre) (T.file p).inode =
      UfsFuse.iterDirectoryEntries part ufs (T.file p).inode := by
  obtain ⟨es, hd, -⟩ := h.carries.body p hp
  obtain ⟨records, rs, hrecords, -⟩ := h.stores.iterInodeDirectoryRecords (h.dir_live hp) hd
  obtain ⟨records', rs', hrecords', -⟩ := h.stores_whole.iterInodeDirectoryRecords (h.dir_live hp) hd
  have hsame := @Placed.iterInodeDirectoryRecords pre post whole part len ufs h.placed
    (T.file p).inode.toInode
  rw [hrecords] at hsame
  have hread := h.stores.readInode (h.dir_live hp)
  have hbytes := h.stores.readInodeBytes (h.dir_live hp)
  have hlive : ∀ r ∈ records, r.inode ≠ 0 → r.inode ∈ N.live := by
    intro r hr h0
    have hmem : (⟨storedName (T.file p).body r, r.inode⟩ : Entry) ∈ entriesAt part ufs p := by
      rw [entriesAt, hread]
      dsimp only
      rw [storedEntries, hbytes, Outcome.ok_bind, hrecords, Outcome.ok_bind]
      exact List.mem_map.mpr ⟨r, List.mem_filter.mpr ⟨hr, decide_eq_true h0⟩, rfl⟩
    exact h.sound.record_live hp ((h.shows.mem_entriesAt hp).mp hmem)
  rw [UfsFuse.iterDirectoryEntries, UfsFuse.iterDirectoryEntries, hsame.ok, hrecords]
  dsimp only [Outcome.ok_bind]
  congr 2
  refine List.map_congr_left fun r hr => ?_
  obtain ⟨hr, hlive'⟩ := List.mem_filter.mp hr
  rw [h.readInode (hlive r hr (of_decide_eq_true hlive').1)]

theorem readsAlike : ReadsAlike (ufs.behind pre) ufs whole part := by
  have hfile : ∀ {n inode}, n ∈ N.live → UfsFuse.readInode whole (ufs.behind pre) n = some inode →
      inode = (T.file n).inode.toInode := fun hn hr =>
    Option.some.inj (hr.symm.trans (h.stores_whole.readInode (h.live hn)))
  refine ⟨h.inUse, h.isDir, fun n hn => h.readInode (h.used hn).1, fun n inode hn hr => ?_,
    fun d inode name hd hr => ?_, fun d inode hd hr => ?_, fun path => h.resolvePath⟩
  · have hl := h.live (h.used hn).1
    obtain rfl := hfile (h.used hn).1 hr
    have hbytes := (h.stores_whole.readInodeBytes hl).trans (h.stores.readInodeBytes hl).symm
    refine ⟨hbytes, ?_, fun offset size => ?_⟩
    · rw [readSymlinkTarget, readSymlinkTarget, hbytes]
    · exact (h.stores_whole.readInodeRange hl offset size).trans
        (h.stores.readInodeRange hl offset size).symm
  · have hp := (h.dir hd).1
    obtain rfl := hfile (h.sound.dirs_live hp) hr
    exact h.lookup hp name
  · have hp := (h.dir hd).1
    obtain rfl := hfile (h.sound.dirs_live hp) hr
    exact h.iterDirectoryEntries hp

end Alike

section Runs
variable {pre post whole part t : Bytes} {len : ℕ} {ufs : Ufs} {V : FileTree}
  {cs : List (Call × Outcome Fault Unit)}

/-- A slice in its place and the slice alone represent one tree. -/
theorem FileTree.Represents.alike (h : V.Represents (ufs.behind pre) whole)
    (hp : Placed pre post len whole part) (hlen : ufs.startOffset + ufs.sb.dsize * 512 ≤ len) :
    (∃ T, Alike pre post len ufs whole part T V.names) ∧ V.Represents ufs part := by
  obtain ⟨T, hi, hin⟩ := h
  have hpart := hp.stores_part hlen hi
  exact ⟨⟨T, hp, hpart, hin.carries, hin.sound⟩, T, hpart, hin⟩

/-- Every run on the disk is one on the slice alone, with the same results. -/
theorem Trace.confined (hlen : ufs.startOffset + ufs.sb.dsize * 512 ≤ len)
    (h : Trace (Call.Sane (ufs.behind pre)) (ufs.behind pre) whole cs t) :
    ∀ {V : FileTree} {part : Bytes}, V.Represents (ufs.behind pre) whole →
      Placed pre post len whole part → ∃ (V' : FileTree) (part' : Bytes),
        V'.Represents (ufs.behind pre) t ∧ Placed pre post len t part' ∧
        Trace (fun s c _ => c.Meets s ufs) ufs part cs part' := by
  induction h with
  | nil => exact fun {V part} hV hp => ⟨V, part, hV, hp, .nil part⟩
  | @cons image s t c r cs hok hdo _ ih =>
    intro V part hV hp
    obtain ⟨⟨T, hT⟩, hVpart⟩ := hV.alike hp hlen
    have hmeets := hT.meets hok.1
    have htracks := hT.perform hok.1
    rcases hpart : c.perform ufs part with ⟨r', part₁⟩
    have hno : r' ≠ .panic := by
      have := (hVpart.step hmeets).no_panic (t := part₁)
      rintro rfl
      exact this hpart
    obtain ⟨hr, hp₁⟩ := htracks.no_panic (by rw [hpart]; exact hno)
    rw [hdo, hpart] at hr hp₁
    dsimp only at hr hp₁
    subst hr
    obtain ⟨V₁, hV₁⟩ : ∃ V₁ : FileTree, V₁.Represents (ufs.behind pre) s := by
      rcases (hV.step hok.1).ok_or_err with ⟨_, u, hdo', V₁, -, hV₁⟩ | ⟨f, u, hdo', hstay⟩
      · obtain ⟨-, rfl⟩ := Prod.mk.inj (hdo'.symm.trans hdo)
        exact ⟨V₁, hV₁⟩
      · obtain ⟨rfl, rfl⟩ := Prod.mk.inj (hdo'.symm.trans hdo)
        have hfits := hok.2.resolve_left fun hr => nomatch hr
        exact ⟨V, hstay.resolve_right (not_not.mpr hfits)⟩
    obtain ⟨V', part', hV', hp', hrun⟩ := ih hV₁ hp₁
    exact ⟨V', part', hV', hp', .cons hmeets hpart hrun⟩
  | recount hsize hdo _ ih =>
    intro V part hV hp
    obtain ⟨⟨T, hT⟩, hVpart⟩ := hV.alike hp hlen
    have hin : ∀ n < ufs.sb.inodes, ufs.Inside len n := fun n hn => by
      rw [← hp.length]
      exact hT.stores.fits.inside_slice hn
    obtain ⟨_, part₁, hpart, -⟩ | ⟨_, _, -, hno⟩ := (hVpart.recount hsize).ok_or_err
    · obtain ⟨s', hs', hp₁⟩ := (recomputeSummaryCounts_placed hin _ _ hp).ok hpart
      obtain ⟨-, rfl⟩ := Prod.mk.inj (hs'.symm.trans hdo)
      obtain ⟨V', part', hV', hp', hrun⟩ := ih ((hV.recount hsize).ok hdo) hp₁
      exact ⟨V', part', hV', hp', .recount hsize hpart hrun⟩
    · exact hno.elim

end Runs

end UfsFuse
