import UfsFuse.Clean
import UfsFuse.Repair

/-!
# Whole runs

A run is a sequence of calls, each of them allowed in the state that it finds and with the result
that it gets. What one call keeps, every state of a run has.
-/
namespace UfsFuse

/-! ## Runs -/

/-- A call that `ok` allows, with its result. -/
def Call.Does (ok : Bytes → Call → Outcome Fault Unit → Prop) (ufs : Ufs) (image image' : Bytes) : Prop :=
  ∃ c r, ok image c r ∧ c.perform ufs image = (r, image')

/-- The second image is left by a sequence of such calls on the first. -/
def Runs (ok : Bytes → Call → Outcome Fault Unit → Prop) (ufs : Ufs) : Bytes → Bytes → Prop :=
  Relation.ReflTransGen (Call.Does ok ufs)

/-- A sound tree is stored, every run of fragments starts a block, the count of free fragments is
still that of a fresh file system, and the attributes of all inodes in use satisfy `P`. -/
def Kept (P : Dinode → Prop) (ufs : Ufs) (image : Bytes) : Prop :=
  ∃ T N, ufs.Stores image T ∧ Carries T N N.links ∧ N.Sound ∧ T.packed = true ∧
    T.slack = ufs.sb.freshSlack ∧ ∀ n ∈ T.live, P (T.file n).inode.attrs

section Kept
variable {P : Dinode → Prop} {ok : Bytes → Call → Outcome Fault Unit → Prop} {ufs : Ufs} {image t : Bytes} {c : Call}

theorem Kept.consistent (h : Kept P ufs image) : Consistent image ufs := by
  obtain ⟨T, N, hi, hc, hs, -⟩ := h
  exact ⟨T, N, hi, hc, hs⟩

theorem Formatted.kept (h : Formatted ufs image)
    (hnew : ∀ mode uid gid nlink timestamp, P (Dinode.fresh mode uid gid nlink timestamp).attrs) :
    Kept P ufs image := by
  obtain ⟨timestamp, f, body, hi, hd⟩ := h.table
  exact ⟨_, _, hi, Table.fresh_carries hd, NameTree.fresh_sound, rfl, rfl,
    fun n _ => hnew (ufsIfdir ||| 0o755) 0 0 2 timestamp⟩

/-- One call keeps them, if what it sets satisfies `P`. -/
theorem Kept.step (h : Kept P ufs image) (hm : c.Meets image ufs)
    (hnew : ∀ mode uid gid nlink timestamp, P (Dinode.fresh mode uid gid nlink timestamp).attrs)
    (hset : ∀ n inode, ∀ i : Dinode, readInode image ufs n = some inode → i.mode = inode.mode →
      P i → P (c.setAttrs n i)) :
    (c.perform ufs).wp image (fun _ t => Kept P ufs t) (fun _ t => Kept P ufs t ∨ ¬c.Fits image ufs) := by
  obtain ⟨T, N, hi, hc, hs, hpacked, hslack, hP⟩ := h
  refine (Call.step_table hi hc hs hm).mono ?_ ?_
  · rintro - t ⟨T', N', hi', hc', hs', he⟩
    refine ⟨T', N', hi', hc', hs', he.packed.trans hpacked, he.slack.trans hslack, fun n hn => ?_⟩
    rcases he.attrs n hn with ⟨hold, hattrs⟩ | ⟨-, mode, uid, gid, nlink, timestamp, hattrs⟩
    · rw [hattrs]
      exact hset n _ _ (hi.readInode hold) rfl (hP n hold)
    · rw [hattrs]
      exact hnew mode uid gid nlink timestamp
  · intro e t ht
    exact ht.imp_left fun hi' => ⟨T, N, hi', hc, hs, hpacked, hslack, hP⟩

/-- What every call keeps, a run keeps. -/
theorem Runs.kept (hrun : Runs ok ufs image t) (h : Kept P ufs image)
    (hmeets : ∀ s c r s', Kept P ufs s → ok s c r → c.perform ufs s = (r, s') →
      c.Meets s ufs ∧ (r = .ok () ∨ c.Fits s ufs))
    (hnew : ∀ mode uid gid nlink timestamp, P (Dinode.fresh mode uid gid nlink timestamp).attrs)
    (hset : ∀ s c r, ok s c r → ∀ n inode, ∀ i : Dinode, readInode s ufs n = some inode →
      i.mode = inode.mode → P i → P (c.setAttrs n i)) : Kept P ufs t := by
  induction hrun with
  | refl => exact h
  | tail _ hstep ih =>
    obtain ⟨c, r, hok, hdo⟩ := hstep
    obtain ⟨hm, hres⟩ := hmeets _ c r _ ih hok hdo
    rcases (ih.step hm hnew (hset _ c r hok)).ok_or_err with ⟨_, u, hdo', hk⟩ | ⟨e, u, hdo', hk⟩
    · obtain ⟨rfl, rfl⟩ := Prod.mk.inj (hdo'.symm.trans hdo)
      exact hk
    · obtain ⟨rfl, rfl⟩ := Prod.mk.inj (hdo'.symm.trans hdo)
      exact hk.resolve_right (not_not.mpr (hres.resolve_left fun h => nomatch h))

end Kept

/-! ## Valid calls -/

/-- A name as callers may pass it. -/
structure GoodName (name : Str) : Prop where
  ne : name ≠ []
  le : name.length ≤ 255
  ascii : Ascii name
  slash : 47 ∉ name
  dots : name ≠ dotName ∧ name ≠ dotdotName

section Valid
variable (image : Bytes) (ufs : Ufs)

/-- A path as callers may pass it: not the root, with good names, looked up in directories. -/
structure GoodPath (path : Str) : Prop where
  ne : pathParts path ≠ []
  parts : ∀ part ∈ pathParts path, GoodName part
  dirs : PathInDirs image ufs path

/-- No entry of directory `p` has this name. -/
def NewName (p : ℕ) (name : Str) : Prop := ∀ e ∈ entriesAt image ufs p, e.name ≠ name

/-- The parent that a path names. -/
def ParentOf (path : Str) (p : ℕ) : Prop :=
  ∃ inode, resolvePath image ufs (splitParent path).1 = .ok (some (p, inode))

/-- A path at which something can be made: its last component is not in its parent. -/
def NewPath (path : Str) : Prop :=
  GoodPath image ufs path ∧ ∀ p, ParentOf image ufs path p → NewName image ufs p (splitParent path).2

/-- What callers keep to: parents are directories, inodes are used, names are good, new names new;
no directory goes below itself and no link count passes 65535. -/
def Call.Valid : Call → Prop
  | .createFile path data mode _ _ _ =>
      fileTypeOf mode ≠ ufsIfdir ∧ data.length < 2 ^ 63 ∧ NewPath image ufs path
  | .makeDirectory path _ _ _ _ =>
      NewPath image ufs path ∧ ∀ p, ParentOf image ufs path p → CanLink image ufs p
  | .link source target =>
      GoodPath image ufs source ∧ NewPath image ufs target ∧
        ∀ n inode, resolvePath image ufs source = .ok (some (n, inode)) → CanLink image ufs n
  | .symlink target path _ _ _ _ => target.length < 2 ^ 63 ∧ NewPath image ufs path
  | .unlink path => GoodPath image ufs path
  | .removeDirectory path => GoodPath image ufs path
  | .createEmptyInParent p name mode _ _ _ =>
      fileTypeOf mode ≠ ufsIfdir ∧ isDir image ufs p = true ∧ GoodName name ∧ NewName image ufs p name
  | .mkdirInParent p name _ _ _ _ =>
      isDir image ufs p = true ∧ GoodName name ∧ NewName image ufs p name ∧ CanLink image ufs p
  | .symlinkInParent p name target _ _ _ _ =>
      isDir image ufs p = true ∧ target.length < 2 ^ 63 ∧ GoodName name ∧ NewName image ufs p name
  | .mknodInParent p name _ _ _ _ _ _ _ =>
      isDir image ufs p = true ∧ GoodName name ∧ NewName image ufs p name
  | .linkInParent p name target =>
      isDir image ufs p = true ∧ inUse image ufs target = true ∧ GoodName name ∧
        NewName image ufs p name ∧ CanLink image ufs target
  | .unlinkInParent p name => isDir image ufs p = true ∧ GoodName name
  | .rmdirInParent p name => isDir image ufs p = true ∧ GoodName name
  | .renameInParent p srcName q dstName =>
      isDir image ufs p = true ∧ isDir image ufs q = true ∧ GoodName srcName ∧ GoodName dstName ∧
        ∀ e ∈ entriesAt image ufs p, e.name = srcName → isDir image ufs e.inode = true →
          (∀ k, (parentOf image ufs)^[k] q ≠ e.inode) ∧
          (p ≠ q → (∀ x ∈ entriesAt image ufs q, x.name = dstName →
            isDir image ufs x.inode = false) → CanLink image ufs q)
  | .setInodeContents n data => IsFile image ufs n ∧ data.length < 2 ^ 63
  | .truncate n _ => IsFile image ufs n
  | .setInodeMode n mode =>
      inUse image ufs n = true ∧ (mode &&& ufsIfmt = ufsIfdir ↔ isDir image ufs n = true)
  | .setInodeOwner n _ _ => inUse image ufs n = true
  | .setInodeTimes n _ _ _ => inUse image ufs n = true

end Valid

section Meets
variable {image t : Bytes} {ufs : Ufs} {path : Str} {c : Call}

/-- The last component of a good path. -/
theorem GoodPath.last (h : GoodPath image ufs path) : GoodName (splitParent path).2 := by
  obtain ⟨hne, hparts, -⟩ := h
  rw [(splitParent_parts path).2, List.getLast?_eq_getLast_of_ne_nil hne, Option.getD_some]
  exact hparts _ (List.getLast_mem hne)

theorem NewPath.canCreate (h : NewPath image ufs path) : CanCreate image ufs path := by
  obtain ⟨hgood, hnew⟩ := h
  refine ⟨hgood.dirs.parent, fun p hin => ?_⟩
  obtain ⟨inode, hr, -⟩ := hin
  exact ⟨hgood.last.ne, hgood.last.le, hnew p ⟨inode, hr⟩⟩

theorem GoodPath.canRemove (h : GoodPath image ufs path) : CanRemove image ufs path :=
  ⟨h.dirs, fun _ _ _ => .inl h.last.ascii⟩

theorem GoodName.canEnter {p : ℕ} {name : Str} (h : GoodName name) (hnew : NewName image ufs p name) :
    CanEnter image ufs p name := ⟨h.ne, h.le, hnew⟩

/-- A file that was truncated got a size that a vector can have. -/
theorem truncate_size {n size : ℕ} (h : Consistent image ufs) (hn : inUse image ufs n = true)
    (hdo : truncate ufs n size image = (.ok (), t)) : size < 2 ^ 63 := by
  obtain ⟨T, N, hi, hc, hs⟩ := h
  have hlive : n ∈ T.live := by
    rw [hc.live]
    exact ((hc.shows hs hi).live n).mp hn
  have hlt := hi.body_lt hlive
  rw [hi.body_length hlive] at hlt
  rw [truncate, readInodeOr] at hdo
  obtain ⟨inode, u, hread, hdo⟩ := Act.bind_eq_ok.mp hdo
  obtain ⟨found, v, hlook, hread⟩ := Act.bind_eq_ok.mp hread
  obtain ⟨hfound, rfl⟩ := Act.read_eq_ok.mp hlook
  obtain rfl : some (T.file n).inode.toInode = found :=
    (hi.readInode hlive).symm.trans (Outcome.ok.inj hfound)
  cases hread
  by_cases hsame : (T.file n).inode.size = size
  · rwa [← hsame]
  · rw [if_neg hsame] at hdo
    obtain ⟨content, v, -, hdo⟩ := Act.bind_eq_ok.mp hdo
    obtain ⟨_, w, hguard, -⟩ := Act.bind_eq_ok.mp hdo
    exact Outcome.guard_eq_ok.mp (Act.lift_eq_ok.mp hguard).1

/-- What callers keep to is enough for a call that succeeds. -/
theorem Call.Valid.meets (h : c.Valid image ufs) (hcons : Consistent image ufs)
    (hdo : c.perform ufs image = (.ok (), t)) : c.Meets image ufs := by
  cases c with
  | createFile => exact ⟨h.1, h.2.1, h.2.2.canCreate⟩
  | makeDirectory =>
    refine ⟨h.1.canCreate, fun p hin => h.2 p ?_⟩
    obtain ⟨inode, hr, -⟩ := hin
    exact ⟨inode, hr⟩
  | link => exact ⟨h.1.dirs, h.2.1.canCreate, fun n inode hr _ => h.2.2 n inode hr⟩
  | symlink => exact ⟨h.1, h.2.canCreate⟩
  | unlink => exact GoodPath.canRemove h
  | removeDirectory => exact ⟨GoodPath.canRemove h, fun _ _ _ _ => (GoodPath.last h).dots⟩
  | createEmptyInParent => exact ⟨h.1, h.2.1, h.2.2.1.canEnter h.2.2.2⟩
  | mkdirInParent => exact ⟨h.1, h.2.2.2, h.2.1.canEnter h.2.2.1⟩
  | symlinkInParent => exact ⟨h.1, h.2.1, h.2.2.1.canEnter h.2.2.2⟩
  | mknodInParent => exact ⟨h.1, h.2.1.canEnter h.2.2⟩
  | linkInParent => exact ⟨h.1, h.2.1, h.2.2.1.canEnter h.2.2.2.1, fun _ => h.2.2.2.2⟩
  | unlinkInParent => exact ⟨h.1, h.2.ascii⟩
  | rmdirInParent => exact ⟨h.1, h.2.ascii, h.2.dots⟩
  | renameInParent =>
    obtain ⟨hp, hq, hsrc, hdst, hdir⟩ := h
    exact ⟨hp, hq, hsrc.ascii, hdst.ascii, hsrc.dots, hdst.dots, ⟨hdst.ne, hdst.le⟩,
      fun e he hname hd => (hdir e he hname hd).1, fun e he hname hd => (hdir e he hname hd).2⟩
  | setInodeContents => exact h
  | truncate => exact ⟨h, truncate_size hcons h.1 hdo⟩
  | setInodeMode => exact h
  | setInodeOwner => exact h
  | setInodeTimes => exact h

end Meets

/-! ## What a run keeps -/

/-- What the root and the entries of directories lead to. -/
inductive Reachable (image : Bytes) (ufs : Ufs) : ℕ → Prop
  | root : Reachable image ufs ufsRootInode
  | entry {d : ℕ} {e : Entry} (h : Reachable image ufs d) (hd : isDir image ufs d = true)
      (he : e ∈ entriesAt image ufs d) : Reachable image ufs e.inode

/-- Every fragment of a data area is marked as allocated exactly when one inode in use covers it, no
other fragments are covered, link counts are numbers of records, everything in use is reachable, and
the checker finds nothing. -/
structure Intact (image : Bytes) (ufs : Ufs) : Prop where
  bitmap : ∀ c < ufs.sb.ncg, ∃ cgBytes, readCgBlock image ufs c = .ok cgBytes ∧
    ∀ i, ufs.sb.dblkno ≤ i → i < ufs.sb.groupFrags c → ∃ free, isFragFree cgBytes i = .ok free ∧
      (free = false ↔ ∃! n, inUse image ufs n = true ∧
        Covered (claimedRuns image ufs n) (c * ufs.sb.fpg + i))
  inside : ∀ n, inUse image ufs n = true → ∀ f, Covered (claimedRuns image ufs n) f → ufs.sb.IsData f
  links : ∀ n, inUse image ufs n = true → nlinkOf image ufs n = recordsNaming image ufs n
  reachable : ∀ n, inUse image ufs n = true → Reachable image ufs n
  check : checkFilesystem image ufs = .ok []

section Intact
variable {image t : Bytes} {ufs : Ufs} {T : Table} {N : NameTree} {n : ℕ}

/-- Going up from a directory reaches the root, so going down reaches the directory. -/
theorem Shows.reachable_dir (h : Shows image ufs N) (hs : N.Sound) (k : ℕ) :
    ∀ {d : ℕ}, d ∈ N.dirs → N.up^[k] d = ufsRootInode → Reachable image ufs d := by
  induction k with
  | zero =>
    intro d _ hd
    rw [show d = ufsRootInode from hd]
    exact .root
  | succ k ih =>
    intro d hd hup
    by_cases hroot : d = ufsRootInode
    · rw [hroot]
      exact .root
    · obtain ⟨e, he, rfl⟩ := hs.kid_of_dir hd hroot
      have hp := hs.up_mem hd
      rw [Function.iterate_succ_apply] at hup
      exact .entry (ih hp hup) (h.isDir.mpr hp) ((h.mem_entriesAt hp).mpr (NameTree.kid_record he))

theorem Shows.reachable (h : Shows image ufs N) (hs : N.Sound) (hn : n ∈ N.live) :
    Reachable image ufs n := by
  by_cases hd : n ∈ N.dirs
  · obtain ⟨k, hk⟩ := hs.reached n hd
    exact h.reachable_dir hs k hd hk
  · obtain ⟨p, hp, e, he, rfl⟩ := NameTree.exists_of_entered (hs.found n hn hd)
    obtain ⟨k, hk⟩ := hs.reached p hp
    exact .entry (h.reachable_dir hs k hp hk) (h.isDir.mpr hp)
      ((h.mem_entriesAt hp).mpr (NameTree.kid_record he))

/-- Inodes of a volume cover fragments of data areas only. -/
theorem Ufs.Stores.claims_inside (h : ufs.Stores image T) (hn : n ∈ T.live) {f : ℕ}
    (hf : Covered (claimedRuns image ufs n) f) : ufs.sb.IsData f := by
  have g := h.geom
  obtain ⟨D, own, hi, hv⟩ := h
  rw [hv.claimedRuns hi hn] at hf
  exact (hv.space_at hn).covered_isData g (covered_append.mpr (.inl hf))

theorem Consistent.intact (h : Consistent image ufs) : Intact image ufs := by
  have hcheck := h.check
  obtain ⟨T, N, hi, hc, hs⟩ := h
  have hsh := hc.shows hs hi
  have hlive : ∀ {n}, inUse image ufs n = true ↔ n ∈ T.live := fun {n} => by
    rw [hsh.live, hc.live]
  refine ⟨fun c hcl => ?_, fun n hn f hf => hi.claims_inside (hlive.mp hn) hf, fun n hn => ?_,
    fun n hn => hsh.reachable hs ((hsh.live n).mp hn), hcheck⟩
  · have hhead : ∃ b, readCgBlock image ufs c = .ok b ∧
        b.u32 CgOff.ndblk = ufs.sb.groupFrags c := by
      obtain ⟨D, own, hh, hv⟩ := hi
      obtain ⟨b, hb, -, hdec⟩ := hh.readCgBlock hcl
      have hnd := hv.space.ndblk c hcl
      rw [← hdec] at hnd
      exact ⟨b, hb, hnd⟩
    obtain ⟨b, hb, hnd⟩ := hhead
    refine ⟨b, hb, fun i h1 h2 => ?_⟩
    obtain ⟨free, hfree, hiff⟩ := hi.owned_iff hcl hb h1 (hnd.symm ▸ h2)
    refine ⟨free, hfree, hiff.trans ⟨?_, ?_⟩⟩
    · rintro ⟨n, hn, hcov⟩
      refine ⟨n, ⟨hlive.mpr hn, hcov⟩, fun m hm => ?_⟩
      by_contra hne
      exact hi.claims_apart (hlive.mp hm.1) hn hne _ hm.2 hcov
    · rintro ⟨n, ⟨hn, hcov⟩, -⟩
      exact ⟨n, hlive.mp hn, hcov⟩
  · rw [hsh.nlinkOf ((hsh.live n).mp hn), hsh.recordsNaming]

/-- A run of valid calls that all succeed keeps what a step keeps. -/
theorem Runs.valid (h : Runs (fun s c r => c.Valid s ufs ∧ r = .ok ()) ufs image t)
    (hf : Formatted ufs image) : Kept (fun _ => True) ufs t :=
  h.kept (hf.kept fun _ _ _ _ _ => trivial)
    (fun _ _ _ _ hk hok hdo => ⟨hok.1.meets hk.consistent (hok.2 ▸ hdo), .inl hok.2⟩)
    (fun _ _ _ _ _ => trivial) fun _ _ _ _ _ _ _ _ _ _ => trivial

/-- In every state of a run of valid calls on a formatted slice the file system is intact. -/
theorem runs_intact (hf : Formatted ufs image)
    (h : Runs (fun s c r => c.Valid s ufs ∧ r = .ok ()) ufs image t) : Intact t ufs :=
  (h.valid hf).consistent.intact

theorem Act.discard_ok {ε σ α : Type} {x : Act ε σ α} {s u : σ} {a : α} (h : x s = (.ok a, u)) :
    discard x s = (.ok (), u) := by
  change (x >>= fun _ => pure ()) s = _
  exact Act.bind_eq_ok.mpr ⟨a, u, h, rfl⟩

/-- The call that makes an empty file "a" in the root directory. -/
def Call.makeA : Call := .createEmptyInParent ufsRootInode [97] 0o100644 0 0 0

/-- On a blank slice it is valid and succeeds. -/
theorem FreshVolume.makeA (h : FreshVolume blankUfs image) : Call.makeA.Valid image blankUfs ∧
    ∃ t, Call.makeA.perform blankUfs image = (.ok (), t) := by
  obtain ⟨hdir, hnew, m, t, hrun⟩ := @blank_createEmpty image [97] h (by decide) (by decide)
    (by decide) 0o100644 0 0 0
  have hgood : GoodName [97] :=
    ⟨List.cons_ne_nil _ _, by decide, by decide, by decide, by decide, by decide⟩
  have hvalid : Call.makeA.Valid image blankUfs := ⟨by decide, hdir, hgood, hnew⟩
  exact ⟨hvalid, t, Act.discard_ok hrun⟩

theorem runs_intact_blank :
    ∃ t, Call.makeA.perform blankUfs blankImage = (.ok (), t) ∧ Intact t blankUfs := by
  have hformatted := blankImage_formatted
  generalize blankImage = image at hformatted ⊢
  obtain ⟨hvalid, t, hdo⟩ := hformatted.fresh.makeA
  exact ⟨t, hdo, runs_intact hformatted (.single ⟨_, _, ⟨hvalid, rfl⟩, hdo⟩)⟩

end Intact
end UfsFuse
