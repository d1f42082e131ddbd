import UfsFuse.Runs

/-!
# Old and extended fields

An inode has its mode, owner and group twice: in 16 bits from before the extended types, and in 32
bits. The reader looks at the extended fields only.
-/
namespace UfsFuse

/-- All fields of inode `n`. -/
def dinodeAt (image : Bytes) (ufs : Ufs) (n : ℕ) : Dinode :=
  Dinode.decode (image.slice (inodeOffset ufs n) ufsDinodeSize)

/-- The old fields are the low halves of the extended ones, and the cookie says that there are
extended ones. -/
structure Dinode.Mirrors (i : Dinode) : Prop where
  mode : i.smode = i.mode % 2 ^ 16
  uid : i.suid = i.uid % 2 ^ 16
  gid : i.sgid = i.gid % 2 ^ 16
  cookie : i.eftflag = ufsEftMagic

/-- So it is in all inodes in use. -/
def Mirrored (image : Bytes) (ufs : Ufs) : Prop :=
  ∀ n, inUse image ufs n = true → (dinodeAt image ufs n).Mirrors

/-- A mode that is set has the low half of the mode that is there. -/
def Call.KeepsLow (image : Bytes) (ufs : Ufs) : Call → Prop
  | .setInodeMode n mode =>
      ∀ inode, readInode image ufs n = some inode → mode % 2 ^ 16 = inode.mode % 2 ^ 16
  | _ => True

section Mirrors
variable {image t : Bytes} {ufs : Ufs} {T : Table} {n : ℕ} {c : Call} {i : Dinode}

theorem Ufs.Stores.dinodeAt (h : ufs.Stores image T) (hn : n ∈ T.live) :
    UfsFuse.dinodeAt image ufs n = (T.file n).inode := by
  obtain ⟨D, own, ⟨-, rfl⟩, hv⟩ := h
  rw [← hv.inode n hn]
  exact (if_pos (hv.live_lt hn)).symm

/-- Link count, size and blocks do not matter. -/
theorem Dinode.mirrors_attrs : i.attrs.Mirrors ↔ i.Mirrors :=
  ⟨fun ⟨h1, h2, h3, h4⟩ => ⟨h1, h2, h3, h4⟩, fun ⟨h1, h2, h3, h4⟩ => ⟨h1, h2, h3, h4⟩⟩

theorem mod_halves (v : ℕ) : v % 2 ^ 16 = v % 2 ^ 32 % 2 ^ 16 :=
  (Nat.mod_mod_of_dvd v (pow_dvd_pow 2 (by norm_num))).symm

theorem Dinode.fresh_mirrors (mode uid gid nlink timestamp : ℕ) :
    (Dinode.fresh mode uid gid nlink timestamp).Mirrors :=
  ⟨mod_halves mode, mod_halves uid, mod_halves gid, rfl⟩

/-- What a call sets mirrors, if a mode keeps its low half. -/
theorem Call.KeepsLow.mirrors (h : c.KeepsLow image ufs) {inode : Inode}
    (hread : readInode image ufs n = some inode) (hmode : i.mode = inode.mode) (hi : i.Mirrors) :
    (c.setAttrs n i).Mirrors := by
  cases c with
  | setInodeMode m mode =>
    rw [Call.setAttrs]
    split_ifs with hnm
    · subst hnm
      refine ⟨?_, hi.uid, hi.gid, hi.cookie⟩
      dsimp only
      rw [hi.mode, hmode, ← h inode hread, ← mod_halves]
    · exact hi
  | setInodeOwner m uid gid =>
    rw [Call.setAttrs]
    split_ifs with hnm
    · exact ⟨hi.mode, mod_halves uid, mod_halves gid, hi.cookie⟩
    · exact hi
  | setInodeTimes =>
    rw [Call.setAttrs]
    split_ifs with hnm
    · exact ⟨hi.mode, hi.uid, hi.gid, hi.cookie⟩
    · exact hi
  | _ => exact hi

theorem Kept.mirrored (h : Kept (fun i => i.Mirrors) ufs image) : Mirrored image ufs := by
  obtain ⟨T, N, hi, hc, hs, -, -, hall⟩ := h
  intro n hn
  have hlive : n ∈ T.live := by
    rw [hc.live]
    exact ((hc.shows hs hi).live n).mp hn
  rw [hi.dinodeAt hlive]
  exact Dinode.mirrors_attrs.mp (hall n hlive)

/-- In every state of a run on a formatted slice, in which calls may also be refused but not run out
of blocks half-way, old and extended fields agree, as long as modes keep their low halves. -/
theorem runs_mirrored (hf : Formatted ufs image)
    (h : Runs (fun s c r => c.Meets s ufs ∧ (r = .ok () ∨ c.Fits s ufs) ∧ c.KeepsLow s ufs)
      ufs image t) : Mirrored t ufs := by
  have hnew : ∀ mode uid gid nlink timestamp,
      (Dinode.fresh mode uid gid nlink timestamp).attrs.Mirrors := fun mode uid gid nlink timestamp =>
    Dinode.mirrors_attrs.mpr (Dinode.fresh_mirrors mode uid gid nlink timestamp)
  refine (h.kept (hf.kept hnew) (fun _ _ _ _ _ hok _ => ⟨hok.1, hok.2.1⟩) hnew ?_).mirrored
  exact fun _ _ _ hok _ _ _ hread hmode hi => hok.2.2.mirrors hread hmode hi

/-- Setting the owner of an inode in use succeeds. -/
theorem Ufs.Stores.setInodeOwner_ok (h : ufs.Stores image T) (hn : n ∈ T.live) (uid gid : ℕ) :
    ∃ t, (Call.setInodeOwner n uid gid).perform ufs image = (.ok (), t) := by
  have hrun := (@setInodeOwner_stores ufs T n (fun _ _ => False) hn uid gid).run image h
  obtain ⟨_, t, hdo, -⟩ | ⟨_, _, -, hno⟩ := hrun.ok_or_err
  · exact ⟨t, hdo⟩
  · exact hno.elim

/-- So does setting its mode, and only the extended mode is new. -/
theorem Ufs.Stores.setInodeMode_ok (h : ufs.Stores image T) (hn : n ∈ T.live) (mode : ℕ) :
    ∃ t, (Call.setInodeMode n mode).perform ufs image = (.ok (), t) ∧
      UfsFuse.inUse t ufs n = true ∧
      UfsFuse.dinodeAt t ufs n = { (T.file n).inode with mode := mode % 2 ^ 32 } := by
  have hrun := (@setInodeMode_stores ufs T n (fun _ _ => False) hn mode).run image h
  obtain ⟨_, t, hdo, T', ht, rfl⟩ | ⟨_, _, -, hno⟩ := hrun.ok_or_err
  · refine ⟨t, hdo, ?_, ?_⟩
    · obtain ⟨D, own, -, hv⟩ := h
      exact ht.inUse.mpr ⟨hv.live_ge hn, Finset.mem_union_right _ hn⟩
    · rw [ht.dinodeAt hn, Table.setInode, Table.setFile_self]
  · exact hno.elim

/-- Changing the owner of the root of a blank slice. -/
theorem runs_mirrored_blank : ∃ t,
    (Call.setInodeOwner ufsRootInode 70000 5).perform blankUfs blankImage = (.ok (), t) ∧
      Mirrored t blankUfs := by
  have hformatted := blankImage_formatted
  generalize blankImage = image at hformatted ⊢
  obtain ⟨T, N, hi, hc, hs⟩ := hformatted.fresh.consistent
  have hroot := hs.dirs_live hs.root
  have hused := ((hc.shows hs hi).live _).mpr hroot
  obtain ⟨t, hdo⟩ := hi.setInodeOwner_ok (hc.live ▸ hroot) 70000 5
  exact ⟨t, hdo, runs_mirrored hformatted (.single ⟨.setInodeOwner ufsRootInode 70000 5, .ok (),
    ⟨hused, .inl rfl, trivial⟩, hdo⟩)⟩

/-- In a fresh file system all rights of group and others on the root are taken away. -/
theorem FreshTable.setInodeMode_drifts {timestamp f : ℕ} {body : Bytes}
    (h : FreshTable ufs image timestamp f body) : ∃ t,
    (Call.setInodeMode ufsRootInode 0o40700).Valid image ufs ∧
      (Call.setInodeMode ufsRootInode 0o40700).perform ufs image = (.ok (), t) ∧
      ¬Mirrored t ufs := by
  obtain ⟨hi, hd⟩ := h
  have hsh := (Table.fresh_carries hd).shows NameTree.fresh_sound hi
  have hroot := NameTree.fresh_sound.root
  have hvalid : (Call.setInodeMode ufsRootInode 0o40700).Valid image ufs :=
    ⟨(hsh.live _).mpr (NameTree.fresh_sound.dirs_live hroot),
      iff_of_true (by decide) (hsh.isDir.mpr hroot)⟩
  obtain ⟨t, hdo, huse, hat⟩ := hi.setInodeMode_ok (Finset.mem_singleton_self _) 0o40700
  refine ⟨t, hvalid, hdo, fun hm => ?_⟩
  have hmode := (hm ufsRootInode huse).mode
  rw [hat] at hmode
  have hnew : (ufsIfdir ||| 0o755) % 2 ^ 16 = 0o40700 % 2 ^ 32 % 2 ^ 16 := hmode
  exact absurd hnew (by decide)

/-- So it is on a blank slice: the old mode stays behind. -/
theorem setInodeMode_drifts : ∃ t,
    (Call.setInodeMode ufsRootInode 0o40700).Valid blankImage blankUfs ∧
      (Call.setInodeMode ufsRootInode 0o40700).perform blankUfs blankImage = (.ok (), t) ∧
      ¬Mirrored t blankUfs := by
  have hformatted := blankImage_formatted
  generalize blankImage = image at hformatted ⊢
  obtain ⟨timestamp, f, body, h⟩ := hformatted.table
  exact h.setInodeMode_drifts

end Mirrors
end UfsFuse
