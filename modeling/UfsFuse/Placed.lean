import UfsFuse.Geometry
import UfsFuse.Tracks
import UfsFuse.Write

/-!
# A slice in its place

A file system fills a slice of a disk. The readers and the allocator do on the disk what they do on the
slice alone: every address they use is relative to the slice, so that they return the same and change
nothing outside of it. An address out of the slice would be a panic on the slice alone.
-/
namespace UfsFuse

/-- The file system of a slice, as it is found behind the bytes `pre`. -/
def Ufs.behind (pre : Bytes) (ufs : Ufs) : Ufs :=
  { ufs with startOffset := pre.length + ufs.startOffset, superOffset := pre.length + ufs.superOffset }

/-- The slice `part` of `len` bytes lies in `whole` between `pre` and `post`. -/
structure Placed (pre post : Bytes) (len : ℕ) (whole part : Bytes) : Prop where
  eq : whole = pre ++ part ++ post
  length : part.length = len

/-- The bytes of inode `n` lie in a slice of `len` bytes. -/
def Ufs.Inside (ufs : Ufs) (len n : ℕ) : Prop := inodeOffset ufs n + ufsDinodeSize ≤ len

section Bytes
variable {pre post part src : Bytes} {off n : ℕ}

theorem Bytes.slice_placed (h : off + n ≤ part.length) :
    (pre ++ part ++ post).slice (pre.length + off) n = part.slice off n := by
  rw [Bytes.slice, Bytes.slice, List.append_assoc, List.drop_length_add_append,
    List.drop_append_of_le_length (by omega), List.take_append_of_le_length]
  rw [List.length_drop]
  omega

theorem Bytes.overlay_placed (h : off + src.length ≤ part.length) :
    (pre ++ part ++ post).overlay (pre.length + off) src = pre ++ part.overlay off src ++ post := by
  rw [Bytes.overlay, Bytes.overlay, List.append_assoc pre, List.take_length_add_append, Nat.add_assoc,
    List.drop_length_add_append, List.take_append_of_le_length (by omega),
    List.drop_append_of_le_length h]
  simp only [List.append_assoc]

end Bytes

namespace Ufs
variable {ufs : Ufs} {pre : Bytes}

@[simp] theorem behind_sb : (ufs.behind pre).sb = ufs.sb := rfl

@[simp] theorem behind_superOffset : (ufs.behind pre).superOffset = pre.length + ufs.superOffset := rfl

theorem behind_dataBlockOffset (b : ℕ) : ufs.sb.dataBlockOffset (ufs.behind pre).startOffset b =
    pre.length + ufs.sb.dataBlockOffset ufs.startOffset b := Nat.add_assoc ..

theorem behind_cgBlockOffset (c : ℕ) :
    cgBlockOffset (ufs.behind pre) c = pre.length + cgBlockOffset ufs c := Nat.add_assoc ..

theorem behind_inodeOffset (n : ℕ) :
    inodeOffset (ufs.behind pre) n = pre.length + inodeOffset ufs n := by
  simp only [inodeOffset, Superblock.inodeByteOffset, behind, Nat.add_assoc]

theorem behind_csumOffset (c : ℕ) :
    csumOffset (ufs.behind pre) c = (csumOffset ufs c).map (pre.length + ·) := by
  unfold csumOffset
  rw [behind_sb]
  split_ifs
  · rfl
  · simp only [behind, Option.map_some, Nat.add_assoc]

end Ufs

/-! ## Reading -/
section Reads
variable {pre post whole part : Bytes} {len n : ℕ} {ufs : Ufs}

theorem Placed.getSlice (h : Placed pre post len whole part) (off n : ℕ) :
    (UfsFuse.getSlice whole (pre.length + off) n).Tracks (UfsFuse.getSlice part off n) := by
  obtain ⟨rfl, -⟩ := h
  by_cases hle : off + n ≤ part.length
  · refine .of_eq ?_
    have hw : pre.length + off + n ≤ (pre ++ part ++ post).length := by
      simp only [List.length_append]
      omega
    rw [UfsFuse.getSlice, UfsFuse.getSlice, Outcome.guard_true hle, Outcome.guard_true hw,
      Bytes.slice_placed hle]
  · refine .inl ?_
    rw [UfsFuse.getSlice, Outcome.guard, if_neg hle]
    rfl

theorem Placed.readInode (h : Placed pre post len whole part) (hn : ufs.Inside len n) :
    UfsFuse.readInode whole (ufs.behind pre) n = UfsFuse.readInode part ufs n := by
  obtain ⟨rfl, rfl⟩ := h
  have hoff := @Ufs.behind_inodeOffset ufs pre n
  unfold Ufs.Inside at hn
  unfold inodeOffset at hoff hn
  have hge : ∀ u : Ufs, ¬u.sb.inodeByteOffset u.startOffset n < u.startOffset := fun u =>
    Nat.not_lt.mpr ((Nat.le_add_right ..).trans (Nat.le_add_right ..))
  rw [UfsFuse.readInode, UfsFuse.readInode, if_neg, if_neg, hoff, Bytes.slice_placed hn]
  · exact not_or.mpr ⟨hge _, Nat.not_lt.mpr hn⟩
  · rw [hoff]
    refine not_or.mpr ⟨hoff ▸ hge _, ?_⟩
    simp only [List.length_append]
    omega

theorem Placed.readPointerBlock (h : Placed pre post len whole part) (b : ℕ) :
    (UfsFuse.readPointerBlock whole (ufs.behind pre) b).Tracks (UfsFuse.readPointerBlock part ufs b) := by
  unfold UfsFuse.readPointerBlock
  dsimp only [Ufs.behind_sb]
  rw [Ufs.behind_dataBlockOffset]
  exact (h.getSlice _ _).bind fun _ _ => .refl _

theorem Outcome.Tracks.collectDataLoop {f g : ℕ → Option ℕ → Outcome Fault (List ℕ)}
    {maxBlocks : Option ℕ} (h : ∀ p m, (f p m).Tracks (g p m)) (ps : List ℕ) : ∀ blocks,
    (collectDataLoop f maxBlocks ps blocks).Tracks (collectDataLoop g maxBlocks ps blocks) := by
  induction ps with
  | nil => exact fun _ => .refl _
  | cons p ps ih =>
    intro blocks
    unfold UfsFuse.collectDataLoop
    refine .ite (fun _ => ih blocks) fun _ => (h _ _).bind fun found _ => ?_
    cases maxBlocks with
    | none => exact ih _
    | some m => exact .ite (fun _ => .refl _) fun _ => ih _

theorem Placed.collectIndirectDataBlocks (h : Placed pre post len whole part) (levels : ℕ) :
    ∀ b maxBlocks, (UfsFuse.collectIndirectDataBlocks whole (ufs.behind pre) levels b maxBlocks).Tracks
      (UfsFuse.collectIndirectDataBlocks part ufs levels b maxBlocks) := by
  induction levels with
  | zero => exact fun _ _ => .refl _
  | succ levels ih =>
    intro b maxBlocks
    unfold UfsFuse.collectIndirectDataBlocks
    refine .ite (fun _ => .refl _) fun _ => (h.readPointerBlock b).bind fun ps _ => ?_
    exact .collectDataLoop (fun p m => .ite (fun _ => .refl _) fun _ => ih p m) ps []

theorem Placed.collectIndirectPointerBlocks (h : Placed pre post len whole part) (levels : ℕ) :
    ∀ b, (UfsFuse.collectIndirectPointerBlocks whole (ufs.behind pre) levels b).Tracks
      (UfsFuse.collectIndirectPointerBlocks part ufs levels b) := by
  induction levels with
  | zero => exact fun _ => .refl _
  | succ levels ih =>
    intro b
    unfold UfsFuse.collectIndirectPointerBlocks
    refine .ite (fun _ => .refl _) fun _ => .ite (fun _ => .refl _) fun _ =>
      (h.readPointerBlock b).bind fun ps _ => .foldM (fun blocks p _ => ?_) _
    exact .ite (fun _ => .refl _) fun _ => (ih p).bind fun _ _ => .refl _

theorem Placed.inodePointerBlocks (h : Placed pre post len whole part) (inode : Inode) :
    (UfsFuse.inodePointerBlocks whole (ufs.behind pre) inode).Tracks
      (UfsFuse.inodePointerBlocks part ufs inode) :=
  .foldM (fun _ _ _ => (h.collectIndirectPointerBlocks _ _).bind fun _ _ => .refl _) _

theorem Placed.indirectDataLoop (h : Placed pre post len whole part) (needed : ℕ)
    (roots : List (ℕ × ℕ)) : ∀ blocks,
    (UfsFuse.indirectDataLoop whole (ufs.behind pre) needed roots blocks).Tracks
      (UfsFuse.indirectDataLoop part ufs needed roots blocks) := by
  induction roots with
  | nil => exact fun _ => .refl _
  | cons root roots ih =>
    intro blocks
    obtain ⟨b, level⟩ := root
    unfold UfsFuse.indirectDataLoop
    refine (h.collectIndirectDataBlocks _ _ _).bind fun found _ => ?_
    exact .ite (fun _ => .refl _) fun _ => ih _

theorem Placed.inodeDataBlocks (h : Placed pre post len whole part) (inode : Inode) :
    (UfsFuse.inodeDataBlocks whole (ufs.behind pre) inode).Tracks
      (UfsFuse.inodeDataBlocks part ufs inode) := by
  unfold UfsFuse.inodeDataBlocks
  dsimp only [Ufs.behind_sb]
  exact .ite (fun _ => .refl _) fun _ => h.indirectDataLoop _ _ _

theorem Placed.readDataRange (h : Placed pre post len whole part) (blocks : List ℕ)
    (offset size : ℕ) : (UfsFuse.readDataRange whole (ufs.behind pre) blocks offset size).Tracks
      (UfsFuse.readDataRange part ufs blocks offset size) := by
  unfold UfsFuse.readDataRange
  refine .ite (fun _ => .refl _) fun _ => .foldM (fun data entry _ => ?_) _
  unfold readRangeStep
  dsimp only [Ufs.behind_sb]
  rw [Ufs.behind_dataBlockOffset, Nat.add_assoc]
  exact .ite (fun _ => .refl _) fun _ => (h.getSlice _ _).bind fun _ _ => .refl _

theorem Placed.readInodeBytes (h : Placed pre post len whole part) (inode : Inode) :
    (UfsFuse.readInodeBytes whole (ufs.behind pre) inode).Tracks
      (UfsFuse.readInodeBytes part ufs inode) :=
  .ite (fun _ => .refl _) fun _ => (h.inodeDataBlocks inode).bind fun _ _ => h.readDataRange _ _ _

theorem Placed.readInodeRange (h : Placed pre post len whole part) (inode : Inode) (offset size : ℕ) :
    (UfsFuse.readInodeRange whole (ufs.behind pre) inode offset size).Tracks
      (UfsFuse.readInodeRange part ufs inode offset size) :=
  .ite (fun _ => .refl _) fun _ => (h.inodeDataBlocks inode).bind fun _ _ => h.readDataRange _ _ _

theorem Placed.iterInodeDirectoryRecords (h : Placed pre post len whole part) (inode : Inode) :
    (UfsFuse.iterInodeDirectoryRecords whole (ufs.behind pre) inode).Tracks
      (UfsFuse.iterInodeDirectoryRecords part ufs inode) :=
  (h.readInodeBytes inode).bind fun _ _ => .refl _

theorem Placed.directoryIsEmpty (h : Placed pre post len whole part) (inode : Inode) :
    (UfsFuse.directoryIsEmpty whole (ufs.behind pre) inode).Tracks
      (UfsFuse.directoryIsEmpty part ufs inode) :=
  (h.iterInodeDirectoryRecords inode).bind fun _ _ => .refl _

theorem Placed.readCgBlock (h : Placed pre post len whole part) (c : ℕ) :
    (UfsFuse.readCgBlock whole (ufs.behind pre) c).Tracks (UfsFuse.readCgBlock part ufs c) := by
  unfold UfsFuse.readCgBlock
  rw [Ufs.behind_cgBlockOffset]
  exact h.getSlice _ _

end Reads

/-! ## Writing and allocating -/
section Writes
variable {pre post : Bytes} {len : ℕ} {ufs : Ufs}

theorem putSlice_placed (off : ℕ) (src : Bytes) :
    (putSlice (pre.length + off) src).Tracks (Placed pre post len) (putSlice off src) := by
  rintro whole part ⟨rfl, rfl⟩
  by_cases hle : off + src.length ≤ part.length
  · refine Act.tracksAt_update (fun e he => ?_) fun part' hp => ?_
    · rw [Outcome.guard_true hle] at he
      cases he
    · rw [Outcome.guard_true hle] at hp
      obtain rfl := Outcome.ok.inj hp
      have hw : pre.length + off + src.length ≤ (pre ++ part ++ post).length := by
        simp only [List.length_append]
        omega
      rw [Outcome.guard_true hw]
      exact ⟨_, rfl, Bytes.overlay_placed hle, Bytes.overlay_length hle⟩
  · refine .inl ?_
    rw [putSlice, Act.update, Outcome.guard, if_neg hle]
    rfl

theorem adjustSuperblock_placed (field : ℕ) (delta : ℤ) :
    (adjustSuperblock (ufs.behind pre) field delta).Tracks (Placed pre post len)
      (adjustSuperblock ufs field delta) := by
  rintro whole part ⟨rfl, rfl⟩
  by_cases hle : ufs.superOffset + field + 4 ≤ part.length
  · refine Act.tracksAt_update (fun e he => ?_) fun part' hp => ?_
    · rw [Outcome.guard_true hle] at he
      cases he
    · rw [Outcome.guard_true hle] at hp
      obtain rfl := Outcome.ok.inj hp
      have hw : (ufs.behind pre).superOffset + field + 4 ≤ (pre ++ part ++ post).length := by
        simp only [List.length_append, Ufs.behind_superOffset]
        omega
      rw [Outcome.guard_true hw]
      refine ⟨_, rfl, ?_, Bytes.putU32_length hle⟩
      rw [Ufs.behind_superOffset, Nat.add_assoc, adjustU32At, adjustU32At, Bytes.u32, Bytes.u32,
        Bytes.slice_placed hle]
      exact Bytes.overlay_placed ((Bytes.le_length 4 _).symm ▸ hle)
  · refine .inl ?_
    rw [adjustSuperblock, Act.update, Outcome.guard, if_neg hle]
    rfl

theorem readCgBlock_placed (c : ℕ) :
    (Act.read fun image => readCgBlock image (ufs.behind pre) c : Write Bytes).Tracks
      (Placed pre post len) (Act.read fun image => readCgBlock image ufs c) :=
  Act.tracks_read fun _ _ h => h.readCgBlock c

theorem writeCgBlock_placed (c : ℕ) (b : Bytes) : (writeCgBlock (ufs.behind pre) c b).Tracks
    (Placed pre post len) (writeCgBlock ufs c b) := by
  unfold writeCgBlock
  rw [Ufs.behind_cgBlockOffset]
  exact putSlice_placed _ _

theorem initializePristineCg_placed (c : ℕ) : (initializePristineCg (ufs.behind pre) c).Tracks
    (Placed pre post len) (initializePristineCg ufs c) :=
  (Act.tracks_lift _).bind fun _ => (Act.tracks_lift _).bind fun _ =>
    (writeCgBlock_placed _ _).bind fun _ => Act.tracks_pure _

theorem readAllocatableCgBlock_placed (c : ℕ) : (readAllocatableCgBlock (ufs.behind pre) c).Tracks
    (Placed pre post len) (readAllocatableCgBlock ufs c) :=
  (readCgBlock_placed c).bind fun _ => .ite (fun _ => Act.tracks_pure _) fun _ =>
    .ite (fun _ => initializePristineCg_placed _) fun _ => Act.tracks_pure _

theorem allocateInodeIn_placed (preferred : Option ℕ) (directory : Bool) (c : ℕ) :
    (allocateInodeIn (ufs.behind pre) preferred directory c).Tracks (Placed pre post len)
      (allocateInodeIn ufs preferred directory c) := by
  refine (readAllocatableCgBlock_placed c).bind fun cg => .ite (fun _ => Act.tracks_pure _) fun _ =>
    .ite (fun _ => Act.tracks_pure _) fun _ => (Act.tracks_lift _).bind fun r => ?_
  cases r with
  | none => exact Act.tracks_pure _
  | some i =>
    refine (Act.tracks_lift _).bind fun _ => (writeCgBlock_placed _ _).bind fun _ =>
      (adjustSuperblock_placed _ _).bind fun _ => .ite (fun _ => ?_) fun _ => Act.tracks_pure _
    exact (adjustSuperblock_placed _ _).bind fun _ => Act.tracks_pure _

theorem allocateInode_placed (preferred : Option ℕ) (directory : Bool) :
    (allocateInode (ufs.behind pre) preferred directory).Tracks (Placed pre post len)
      (allocateInode ufs preferred directory) := by
  refine (Act.Tracks.firstSome fun _ _ => allocateInodeIn_placed _ _ _).bind fun r => ?_
  cases r with
  | none => exact Act.tracks_fail _
  | some n => exact Act.tracks_pure _

theorem freeInode_placed (n : ℕ) (directory : Bool) : (freeInode (ufs.behind pre) n directory).Tracks
    (Placed pre post len) (freeInode ufs n directory) :=
  (readCgBlock_placed _).bind fun _ => .ite (fun _ => Act.tracks_fail _) fun _ =>
    (Act.tracks_lift _).bind fun _ => .ite (fun _ => Act.tracks_fail _) fun _ =>
    (Act.tracks_lift _).bind fun _ => (writeCgBlock_placed _ _).bind fun _ =>
    (adjustSuperblock_placed _ _).bind fun _ =>
    .ite (fun _ => adjustSuperblock_placed _ _) fun _ => Act.tracks_pure _

theorem allocateRunIn_placed (count bytes c : ℕ) : (allocateRunIn (ufs.behind pre) count bytes c).Tracks
    (Placed pre post len) (allocateRunIn ufs count bytes c) := by
  refine (readAllocatableCgBlock_placed c).bind fun cg => .ite (fun _ => Act.tracks_pure _) fun _ =>
    (Act.tracks_lift _).bind fun r => ?_
  cases r with
  | none => exact Act.tracks_pure _
  | some i =>
    refine (Act.tracks_lift _).bind fun _ => (writeCgBlock_placed _ _).bind fun _ =>
      (adjustSuperblock_placed _ _).bind fun _ => Act.Tracks.bind ?_ fun _ => Act.tracks_pure _
    rw [Ufs.behind_sb, Ufs.behind_dataBlockOffset]
    exact putSlice_placed _ _

theorem allocateRun_placed (n count bytes : ℕ) (failure : Fault) :
    (allocateRun (ufs.behind pre) n count bytes failure).Tracks (Placed pre post len)
      (allocateRun ufs n count bytes failure) := by
  refine (Act.Tracks.firstSome fun _ _ => allocateRunIn_placed _ _ _).bind fun r => ?_
  cases r with
  | none => exact Act.tracks_fail _
  | some b => exact Act.tracks_pure _

theorem allocateBlock_placed (n : ℕ) : (allocateBlock (ufs.behind pre) n).Tracks (Placed pre post len)
    (allocateBlock ufs n) := allocateRun_placed _ _ _ _

theorem allocateAllocation_placed (n bytes : ℕ) : (allocateAllocation (ufs.behind pre) n bytes).Tracks
    (Placed pre post len) (allocateAllocation ufs n bytes) :=
  .ite (fun _ => Act.tracks_fail _) fun _ => .ite (fun _ => allocateBlock_placed n) fun _ =>
    .ite (fun _ => Act.tracks_fail _) fun _ => allocateRun_placed _ _ _ _

theorem freeBlock_placed (b : ℕ) : (freeBlock (ufs.behind pre) b).Tracks (Placed pre post len)
    (freeBlock ufs b) :=
  (readCgBlock_placed _).bind fun _ => .ite (fun _ => Act.tracks_fail _) fun _ =>
    (Act.tracks_lift _).bind fun _ => (writeCgBlock_placed _ _).bind fun _ =>
    adjustSuperblock_placed _ _

theorem freeAllocation_placed (b bytes : ℕ) : (freeAllocation (ufs.behind pre) b bytes).Tracks
    (Placed pre post len) (freeAllocation ufs b bytes) :=
  .ite (fun _ => Act.tracks_pure _) fun _ => .ite (fun _ => freeBlock_placed b) fun _ =>
    (readCgBlock_placed _).bind fun _ => .ite (fun _ => Act.tracks_fail _) fun _ =>
    (Act.tracks_lift _).bind fun _ => (Act.tracks_lift _).bind fun _ =>
    .ite (fun _ => (adjustSuperblock_placed _ _).bind fun _ => writeCgBlock_placed _ _)
      fun _ => writeCgBlock_placed _ _

/-! ## Recounting -/

theorem Placed.countInodes {whole part : Bytes} (h : Placed pre post len whole part)
    (hin : ∀ n < ufs.sb.inodes, ufs.Inside len n) {c : ℕ} (hc : c < ufs.sb.ncg) (cg : Bytes) :
    (UfsFuse.countInodes whole (ufs.behind pre) c cg).Tracks (UfsFuse.countInodes part ufs c cg) := by
  refine .foldM (fun acc i hi => .ite (fun _ => .refl _) fun _ => ?_) _
  have hn : c * ufs.sb.ipg + i < ufs.sb.inodes := by
    have hi := List.mem_range.mp hi
    rw [Ufs.behind_sb] at hi
    calc c * ufs.sb.ipg + i < (c + 1) * ufs.sb.ipg := by
          rw [Nat.succ_mul]
          omega
      _ ≤ ufs.sb.inodes := Nat.mul_le_mul_right _ hc
  rw [Ufs.behind_sb, h.readInode (hin _ hn)]
  exact .refl _

theorem recomputeGroup_placed (hin : ∀ n < ufs.sb.inodes, ufs.Inside len n) {c : ℕ}
    (hc : c < ufs.sb.ncg) : (recomputeGroup (ufs.behind pre) c).Tracks (Placed pre post len)
      (recomputeGroup ufs c) := by
  refine (readCgBlock_placed c).bind fun current => .ite (fun _ => .ite
    (fun _ => (initializePristineCg_placed c).bind ?_) fun _ => (Act.tracks_fail _).bind ?_)
    fun _ => (Act.tracks_pure _).bind ?_
  all_goals
    intro cg
    refine (Act.tracks_read fun _ _ h => (h.countInodes hin hc cg).bind fun _ _ => .refl _).bind ?_
    rintro ⟨expected, counts⟩
    refine (writeCgBlock_placed _ _).bind fun _ => ?_
    rw [Ufs.behind_csumOffset]
    cases csumOffset ufs c with
    | none => exact Act.tracks_pure _
    | some off => exact (putSlice_placed _ _).bind fun _ => Act.tracks_pure _

theorem recomputeSummaryCounts_placed (hin : ∀ n < ufs.sb.inodes, ufs.Inside len n) :
    (recomputeSummaryCounts (ufs.behind pre)).Tracks (Placed pre post len)
      (recomputeSummaryCounts ufs) := by
  refine (Act.Tracks.collect fun c hc => recomputeGroup_placed hin (List.mem_range.mp hc)).bind fun _ => ?_
  rw [Ufs.behind_superOffset, Nat.add_assoc]
  exact putSlice_placed _ _

end Writes
end UfsFuse
