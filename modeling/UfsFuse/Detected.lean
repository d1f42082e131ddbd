import UfsFuse.EmptyVolume
import UfsFuse.Footprint

/-!
# The superblock after formatting

Groups, inodes and data of a formatted slice are behind its superblock, so filling new contents in and
recounting change nothing in front of them but the totals. The detector finds on the finished image the
superblock that the formatter wrote.
-/
namespace UfsFuse

/-! ## Bytes that a call may change -/
section Outside
variable {S : Set ℕ} {off : ℕ} {src : Bytes}

instance : Std.Refl (SameOutside S) := ⟨SameOutside.refl S⟩

instance : IsTrans Bytes (SameOutside S) where
  trans _ _ _ h h' := by
    have hboth := h.trans h'
    rwa [Set.union_self] at hboth

theorem within_putSlice (h : Set.Ico off (off + src.length) ⊆ S) :
    (putSlice off src).Within (SameOutside S) fun _ => True := by
  refine Act.within_update fun s t hput => ?_
  obtain ⟨_, hguard, hput⟩ := Outcome.bind_eq_ok.mp hput
  rw [← Outcome.ok.inj hput]
  exact (SameOutside.overlay (Outcome.guard_eq_ok.mp hguard)).mono h

end Outside

/-- All that is behind the superblock of a slice, and the totals in it. -/
def Ufs.body (ufs : Ufs) : Set ℕ := Set.Ici (ufs.startOffset + 16384) ∪ totalSlot ufs

/-- A call that leaves the superblock alone, apart from the totals. -/
abbrev Ufs.Fills (ufs : Ufs) {α : Type} (P : α → Prop) (x : Write α) : Prop :=
  x.Within (SameOutside ufs.body) P

/-! ## Writes -/
section Writes
variable {ufs : Ufs} {off cg n f : ℕ} {src : Bytes}

theorem putSlice_fills (h : ufs.startOffset + 16384 ≤ off) :
    ufs.Fills (fun _ => True) (putSlice off src) :=
  within_putSlice fun _ hi => .inl (h.trans hi.1)

theorem adjustSuperblock_fills {field : ℕ} {delta : ℤ} (hlow : FsOff.cstotalNdir ≤ field)
    (hhigh : field + 4 ≤ FsOff.cstotalNdir + ufsCsumSize) :
    ufs.Fills (fun _ => True) (adjustSuperblock ufs field delta) := by
  refine Act.within_update fun s t hput => ?_
  obtain ⟨_, hguard, hput⟩ := Outcome.bind_eq_ok.mp hput
  rw [← Outcome.ok.inj hput]
  have hroom := Outcome.guard_eq_ok.mp hguard
  refine (SameOutside.overlay ?_).mono fun i hi => .inr ?_
  · rw [Bytes.le_length]
    exact hroom
  · rw [Bytes.le_length] at hi
    obtain ⟨h1, h2⟩ := hi
    exact ⟨by omega, by omega⟩

variable (g : ufs.sb.oneGroup.Geometry)
include g

theorem cgBlockOffset_ge (cg : ℕ) : ufs.startOffset + 16384 ≤ cgBlockOffset ufs cg := by
  have heq := @cgBlockOffset_eq ⟨ufs.startOffset, ufs.superOffset, ufs.sb.oneGroup⟩ g cg
  change cgBlockOffset ufs cg = ufs.startOffset + ufs.sb.oneGroup.cgOff cg at heq
  have hge := g.cgOff_ge cg
  omega

theorem inodeOffset_ge (n : ℕ) : ufs.startOffset + 16384 ≤ inodeOffset ufs n := by
  have heq := @inodeOffset_eq ⟨ufs.startOffset, ufs.superOffset, ufs.sb.oneGroup⟩ g n
  change inodeOffset ufs n = ufs.startOffset + ufs.sb.oneGroup.inoOff n at heq
  have hge := g.inoOff_ge n
  omega

theorem dataBlockOffset_ge (hf : 32 ≤ f) :
    ufs.startOffset + 16384 ≤ ufs.sb.dataBlockOffset ufs.startOffset f := by
  have heq := g.dataBlockOffset_eq ufs.startOffset f
  change ufs.sb.dataBlockOffset ufs.startOffset f = _ at heq
  omega

theorem writeCgBlock_fills : ufs.Fills (fun _ => True) (writeCgBlock ufs cg src) :=
  putSlice_fills (cgBlockOffset_ge g cg)

theorem putInodeField_fills : ufs.Fills (fun _ => True) (putInodeField ufs n off src) :=
  putSlice_fills ((inodeOffset_ge g n).trans (Nat.le_add_right _ _))

theorem writeInodeTime_fills {timestamp : ℕ} :
    ufs.Fills (fun _ => True) (writeInodeTime ufs n off timestamp) :=
  (putInodeField_fills g).bind fun _ _ => putInodeField_fills g

theorem initializeInode_fills {mode uid gid nlink timestamp : ℕ} :
    ufs.Fills (fun _ => True) (initializeInode ufs n mode uid gid nlink timestamp) := by
  unfold initializeInode
  refine (putSlice_fills (inodeOffset_ge g n)).bind fun _ _ => ?_
  iterate 4 refine (putInodeField_fills g).bind fun _ _ => ?_
  iterate 3 refine (writeInodeTime_fills g).bind fun _ _ => ?_
  iterate 3 refine (putInodeField_fills g).bind fun _ _ => ?_
  exact putInodeField_fills g

end Writes

/-! ## Allocation -/
section Allocation
variable {ufs : Ufs} (g : ufs.sb.oneGroup.Geometry) {cg n f count bytes : ℕ}
include g

theorem initializePristineCg_fills : ufs.Fills (fun _ => True) (initializePristineCg ufs cg) := by
  unfold initializePristineCg
  refine Act.within_lift_any.bind fun _ _ => ?_
  refine Act.within_lift_any.bind fun _ _ => ?_
  exact (writeCgBlock_fills g).bind fun _ _ => Act.within_pure trivial

theorem readAllocatableCgBlock_fills :
    ufs.Fills (fun _ => True) (readAllocatableCgBlock ufs cg) := by
  unfold readAllocatableCgBlock
  refine Act.within_read_any.bind fun _ _ => ?_
  refine Act.Within.ite (fun _ => Act.within_pure trivial) fun _ => ?_
  exact Act.Within.ite (fun _ => initializePristineCg_fills g) fun _ => Act.within_pure trivial

omit g in
/-- The search goes upwards. -/
theorem searchFreeBlock_ge {cgBytes : Bytes} {cgNdblk frags : ℕ} (rounds : ℕ) : ∀ {i j : ℕ},
    searchFreeBlock cgBytes cgNdblk frags rounds i = .ok (some j) → i ≤ j := by
  induction rounds with
  | zero =>
    intro i j h
    cases h
  | succ rounds ih =>
    intro i j h
    rw [searchFreeBlock] at h
    split_ifs at h
    · obtain ⟨free, -, h⟩ := Outcome.bind_eq_ok.mp h
      split_ifs at h
      · cases h
        exact le_rfl
      · exact (Nat.le_add_right _ _).trans (ih h)
    · cases h

/-- No run is allocated in front of the data of its group. -/
theorem allocateRunIn_fills : ufs.Fills (fun r => ∀ f ∈ r, 32 ≤ f) (allocateRunIn ufs count bytes cg) := by
  unfold allocateRunIn
  refine (readAllocatableCgBlock_fills g).bind fun cgBytes _ => ?_
  refine Act.Within.ite (fun _ => Act.within_pure (by simp)) fun _ => ?_
  refine (Act.within_lift (P := fun r => ∀ i ∈ r, ufs.sb.cgdmin cg % ufs.sb.fpg ≤ i) ?_).bind
    fun r hr => ?_
  · rintro r hr i rfl
    exact searchFreeBlock_ge _ hr
  cases r with
  | none => exact Act.within_pure (by simp)
  | some i =>
    have hdata : 32 ≤ ufs.sb.cgbase cg + i := by
      have hmin : ufs.sb.cgdmin cg % ufs.sb.fpg = ufs.sb.dblkno := g.cgdmin_mod cg
      have hi := hr i rfl
      have hblk : 32 ≤ ufs.sb.cblkno := g.cblkno_ge
      have hino : ufs.sb.cblkno + ufs.sb.frag ≤ ufs.sb.iblkno := g.iblkno_ge
      have hle : ufs.sb.iblkno ≤ ufs.sb.dblkno := g.iblkno_le_dblkno
      omega
    refine Act.within_lift_any.bind fun _ _ => ?_
    refine (writeCgBlock_fills g).bind fun _ _ => ?_
    refine (adjustSuperblock_fills (by norm_num) (by norm_num)).bind fun _ _ => ?_
    refine (putSlice_fills (dataBlockOffset_ge g hdata)).bind fun _ _ => Act.within_pure ?_
    rintro f ⟨⟩
    exact hdata

theorem allocateRun_fills {failure : Fault} :
    ufs.Fills (fun f => 32 ≤ f) (allocateRun ufs n count bytes failure) := by
  unfold allocateRun
  refine (Act.Within.firstSome fun _ _ => allocateRunIn_fills g).bind fun r hr => ?_
  cases r with
  | none => exact Act.within_fail
  | some f => exact Act.within_pure (hr f rfl)

theorem allocateAllocation_fills : ufs.Fills (fun f => 32 ≤ f) (allocateAllocation ufs n bytes) := by
  unfold allocateAllocation allocateBlock allocateFragments
  refine Act.Within.ite (fun _ => Act.within_fail) fun _ => ?_
  refine Act.Within.ite (fun _ => allocateRun_fills g) fun _ => ?_
  exact Act.Within.ite (fun _ => Act.within_fail) fun _ => allocateRun_fills g

theorem freeBlock_fills : ufs.Fills (fun _ => True) (freeBlock ufs f) := by
  unfold freeBlock
  refine Act.within_read_any.bind fun _ _ => ?_
  refine Act.Within.ite (fun _ => Act.within_fail) fun _ => ?_
  refine Act.within_lift_any.bind fun _ _ => ?_
  exact (writeCgBlock_fills g).bind fun _ _ => adjustSuperblock_fills (by norm_num) (by norm_num)

theorem freeAllocation_fills : ufs.Fills (fun _ => True) (freeAllocation ufs f bytes) := by
  unfold freeAllocation
  refine Act.Within.ite (fun _ => Act.within_pure trivial) fun _ => ?_
  refine Act.Within.ite (fun _ => freeBlock_fills g) fun _ => ?_
  refine Act.within_read_any.bind fun _ _ => ?_
  refine Act.Within.ite (fun _ => Act.within_fail) fun _ => ?_
  refine Act.within_lift_any.bind fun _ _ => ?_
  refine Act.within_lift_any.bind fun _ _ => ?_
  refine Act.Within.ite (fun _ => ?_) fun _ => writeCgBlock_fills g
  exact (adjustSuperblock_fills (by norm_num) (by norm_num)).bind fun _ _ => writeCgBlock_fills g

end Allocation

/-! ## Contents -/
section Contents
variable {ufs : Ufs} (g : ufs.sb.oneGroup.Geometry) {n f : ℕ}
include g

theorem writePointerBlock_fills {pointers : List ℕ} (hf : 32 ≤ f) :
    ufs.Fills (fun _ => True) (writePointerBlock ufs f pointers) :=
  (putSlice_fills (dataBlockOffset_ge g hf)).bind fun _ _ => putSlice_fills (dataBlockOffset_ge g hf)

/-- A new root of a tree is a new block. -/
theorem buildPointerTree_fills (levels : ℕ) : ∀ {dataBlocks : List ℕ},
    ufs.Fills (fun _ => True) (buildPointerTree ufs n levels dataBlocks) := by
  induction levels with
  | zero => exact Act.within_pure trivial
  | succ levels ih =>
    intro dataBlocks
    unfold buildPointerTree
    refine Act.Within.ite (fun _ => Act.within_pure trivial) fun _ => ?_
    refine Act.Within.ite (fun _ => ?_) fun _ => ?_
    · refine (allocateRun_fills g).bind fun root hroot => ?_
      exact (writePointerBlock_fills g hroot).bind fun _ _ => Act.within_pure trivial
    · refine (Act.Within.collect fun _ _ => ih).bind fun children _ => ?_
      refine (allocateRun_fills g).bind fun root hroot => ?_
      exact (writePointerBlock_fills g hroot).bind fun _ _ => Act.within_pure trivial

theorem buildIndirectRoots_fills (levels : List ℕ) : ∀ {remaining : List ℕ},
    ufs.Fills (fun _ => True) (buildIndirectRoots ufs n levels remaining) := by
  induction levels with
  | nil => exact Act.within_pure trivial
  | cons level levels ih =>
    intro remaining
    unfold buildIndirectRoots
    refine (buildPointerTree_fills g level).bind fun _ _ => ?_
    exact ih.bind fun _ _ => Act.within_pure trivial

theorem buildInodePointerStructure_fills {dataBlocks : List ℕ} :
    ufs.Fills (fun _ => True) (buildInodePointerStructure ufs n dataBlocks) := by
  unfold buildInodePointerStructure writeBlockLists
  refine (buildIndirectRoots_fills g _).bind fun roots _ => ?_
  refine Act.Within.bind (P := fun _ => True) ?_ fun _ _ => Act.within_pure trivial
  exact (putInodeField_fills g).bind fun _ _ => putInodeField_fills g

theorem writeChunks_fills (runs : List (ℕ × ℕ)) : ∀ {data : Bytes}, (∀ run ∈ runs, 32 ≤ run.1) →
    ufs.Fills (fun _ => True) (writeChunks ufs runs data) := by
  induction runs with
  | nil => exact fun _ => Act.within_pure trivial
  | cons run runs ih =>
    intro data hruns
    obtain ⟨hrun, hruns⟩ := List.forall_mem_cons.mp hruns
    have hge := dataBlockOffset_ge g hrun
    unfold writeChunks
    refine (putSlice_fills hge).bind fun _ _ => ?_
    refine Act.within_lift_any.bind fun _ _ => ?_
    refine (putSlice_fills (hge.trans (Nat.le_add_right _ _))).bind fun _ _ => ?_
    exact ih hruns

/-- New contents go to new blocks, so nothing is assumed of the old ones. -/
theorem setInodeContents_fills {newData : Bytes} :
    ufs.Fills (fun _ => True) (setInodeContents ufs n newData) := by
  unfold setInodeContents freeOwned writeSizeAndBlocks
  refine Act.within_read_any.bind fun found _ => ?_
  cases found with
  | none => exact Act.within_fail
  | some inode =>
    refine Act.within_read_any.bind fun _ _ => ?_
    refine Act.within_read_any.bind fun _ _ => ?_
    refine Act.Within.bind (P := fun _ => True) ?_ fun _ _ => ?_
    · refine (Act.Within.each fun _ _ => freeAllocation_fills g).bind fun _ _ => ?_
      exact Act.Within.each fun _ _ => freeAllocation_fills g
    refine (Act.Within.collect fun _ _ => allocateAllocation_fills g).bind fun blocks hblocks => ?_
    refine (writeChunks_fills g _ fun run hrun => ?_).bind fun _ _ => ?_
    · exact hblocks _ (List.of_mem_zip hrun).1
    refine (buildInodePointerStructure_fills g).bind fun _ _ => ?_
    exact (putInodeField_fills g).bind fun _ _ => putInodeField_fills g

end Contents

/-! ## Recount and format -/
section Format
variable {ufs : Ufs} {cg n : ℕ}

theorem recomputeSummaryCounts_fills (g : ufs.sb.oneGroup.Geometry) :
    ufs.Fills (fun _ => True) (recomputeSummaryCounts ufs) := by
  have hplace : ∀ {cg offset}, csumOffset ufs cg = some offset → ufs.startOffset + 16384 ≤ offset := by
    intro cg offset h
    have hbase := g.fsbtobytes_eq ufs.sb.csaddr
    have haddr : 32 ≤ ufs.sb.csaddr := g.csaddr_ge
    change ufs.sb.fsbtobytes ufs.sb.csaddr = _ at hbase
    unfold csumOffset at h
    split_ifs at h
    have heq := Option.some.inj h
    omega
  have hgroup : ∀ cg, ufs.Fills (fun _ => True) (recomputeGroup ufs cg) := by
    intro cg
    refine Act.within_read_any.bind fun current _ => .ite (fun _ => .ite
      (fun _ => (initializePristineCg_fills g).bind ?_)
      fun _ => (Act.within_fail (P := fun _ => True)).bind ?_)
      fun _ => (Act.within_pure (P := fun _ => True) trivial).bind ?_
    all_goals
      intro cgBytes _
      refine Act.within_read_any.bind ?_
      rintro ⟨expected, counts⟩ _
      refine (writeCgBlock_fills g).bind fun _ _ => ?_
      cases h : csumOffset ufs cg with
      | none => exact Act.within_pure trivial
      | some offset => exact (putSlice_fills (hplace h)).bind fun _ _ => Act.within_pure trivial
  rw [recomputeSummaryCounts_eq]
  refine (Act.Within.collect fun cg _ => hgroup cg).bind fun _ _ => within_putSlice fun i hi => .inr ?_
  rw [csumBytes_length] at hi
  exact hi

/-- What the formatter does behind the superblock. -/
theorem formatBody_fills (g : ufs.sb.oneGroup.Geometry) {groups : List ℕ} {timestamp : ℕ} :
    ufs.Fills (fun found => found = ufs) (do
      Act.each (formatGroup ufs) groups
      formatRoot ufs timestamp
      recomputeSummaryCounts ufs
      pure ufs : Write Ufs) := by
  have hgroup : ∀ cg, ufs.Fills (fun _ => True) (formatGroup ufs cg) := by
    intro cg
    unfold formatGroup
    refine (initializePristineCg_fills g).bind fun _ _ => ?_
    refine Act.Within.ite (fun _ => ?_) fun _ => Act.within_pure trivial
    refine Act.within_lift_any.bind fun _ _ => ?_
    exact writeCgBlock_fills g
  refine (Act.Within.each fun cg _ => hgroup cg).bind fun _ _ => ?_
  refine Act.Within.bind (P := fun _ => True) ?_ fun _ _ => ?_
  · unfold formatRoot
    refine (initializeInode_fills g).bind fun _ _ => ?_
    refine Act.within_read_any.bind fun found _ => ?_
    cases found with
    | none => exact Act.within_fail
    | some inode =>
      refine Act.within_lift_any.bind fun _ _ => ?_
      exact setInodeContents_fills g
  exact (recomputeSummaryCounts_fills g).bind fun _ _ => Act.within_pure rfl

end Format

/-! ## The detector -/

/-- The detector looks at fields in front of the totals and at the magic. -/
theorem Superblock.parse_congr {a b : Bytes} {x y : ℕ}
    (hroom : y + ufsSbSize ≤ b.length ↔ x + ufsSbSize ≤ a.length)
    (h : ∀ o, o + 4 ≤ FsOff.cstotalNdir ∨ o = FsOff.magic → b.u32 (y + o) = a.u32 (x + o)) :
    Superblock.parse b y = Superblock.parse a x := by
  have hfield : ∀ o, o + 4 ≤ FsOff.cstotalNdir → b.u32 (y + o) = a.u32 (x + o) :=
    fun o ho => h o (.inl ho)
  have hmagic := h FsOff.magic (.inr rfl)
  have hsigned : b.i32 (y + FsOff.fragshift) = a.i32 (x + FsOff.fragshift) := by
    rw [Bytes.i32, Bytes.i32, hfield _ (by norm_num)]
  have hshort : y + ufsSbSize > b.length ↔ x + ufsSbSize > a.length := by
    rw [gt_iff_lt, gt_iff_lt, ← not_le, ← not_le, hroom]
  unfold Superblock.parse
  dsimp only
  simp only [hshort, hmagic, hsigned]
  simp (disch := norm_num) only [hfield]

/-- Without the magic there is no file system. -/
theorem detectUfsAtStart_none {image : Bytes} {fsStart : ℕ}
    (h : fsStart + ufsSbOffset + ufsSbSize ≤ image.length →
      image.u32 (fsStart + ufsSbOffset + FsOff.magic) ≠ ufsMagic) :
    detectUfsAtStart image fsStart = none := by
  unfold detectUfsAtStart Superblock.parse
  dsimp only
  by_cases hroom : fsStart + ufsSbOffset + ufsSbSize > image.length
  · rw [if_pos hroom]
    rfl
  · rw [if_neg hroom, if_pos (h (not_lt.mp hroom))]
    rfl

/-- Formatting any bytes leaves a slice on which the detector finds the new file system. -/
theorem format_detected {image t : Bytes} {fsStart size : ℕ} {opts : FormatOptions} {ufs : Ufs}
    (h : format fsStart size opts image = (.ok ufs, t)) (hsize : size < 2 ^ 41) :
    detectUfsAtStart t fsStart = some ufs := by
  have hshaped := format_shaped hsize h
  obtain ⟨l, u, hlayout, h⟩ := Act.bind_eq_ok.mp h
  obtain ⟨_, v, hwrite, h⟩ := Act.bind_eq_ok.mp h
  obtain ⟨found, w, hread, h⟩ := Act.bind_eq_ok.mp h
  obtain ⟨hfound, rfl⟩ := Act.read_eq_ok.mp hread
  have hdetect := Outcome.ok.inj hfound
  cases found with
  | none => exact absurd h Act.fail_ne_ok
  | some ufs' =>
    have hreturned : ufs' = ufs := by
      obtain ⟨_, _, -, h⟩ := Act.bind_eq_ok.mp h
      obtain ⟨_, _, -, h⟩ := Act.bind_eq_ok.mp h
      obtain ⟨_, _, -, h⟩ := Act.bind_eq_ok.mp h
      cases h
      rfl
    subst hreturned
    obtain ⟨hsame, -⟩ := (formatBody_fills hshaped.group).ok h
    unfold detectUfsAtStart at hdetect ⊢
    dsimp only at hdetect ⊢
    obtain ⟨sb, hparse, hufs⟩ := Option.map_eq_some_iff.mp hdetect
    have hstart : ufs'.startOffset = fsStart := by rw [← hufs]
    have hsuper : Superblock.parse t (fsStart + ufsSbOffset) =
        Superblock.parse v (fsStart + ufsSbOffset) := by
      refine Superblock.parse_congr (by rw [hsame.length]) fun o ho => ?_
      rw [Bytes.u32, Bytes.u32, hsame.slice]
      rw [Ufs.body, Set.disjoint_union_right]
      simp only [FsOff.magic, FsOff.cstotalNdir] at ho
      refine ⟨?_, ?_⟩
      · rw [Set.disjoint_left]
        rintro i ⟨hlow, hhigh⟩ hbehind
        rw [Set.mem_Ici, hstart] at hbehind
        simp only [ufsSbOffset] at hhigh
        omega
      · rw [totalSlot, hshaped.super, hstart, Set.Ico_disjoint_Ico]
        simp only [ufsSbOffset, FsOff.cstotalNdir, ufsCsumSize]
        omega
    rw [hsuper, hdetect]

end UfsFuse
