import UfsFuse.Placed

/-!
# The write path on a slice in its place

Every operation of the write path does on the disk what it does on the slice alone. Inodes that it
reads to see whether they are there must lie in the slice; for all other addresses the slice alone
would panic.
-/
namespace UfsFuse

variable {pre post whole part : Bytes} {len n : ℕ} {ufs : Ufs}

/-! ## Inodes -/

theorem putInodeField_placed (n field : ℕ) (value : Bytes) :
    (putInodeField (ufs.behind pre) n field value).Tracks (Placed pre post len)
      (putInodeField ufs n field value) := by
  unfold putInodeField
  rw [Ufs.behind_inodeOffset, Nat.add_assoc]
  exact putSlice_placed _ _

theorem clearInode_placed (n : ℕ) :
    (clearInode (ufs.behind pre) n).Tracks (Placed pre post len) (clearInode ufs n) := by
  unfold clearInode
  rw [Ufs.behind_inodeOffset]
  exact putSlice_placed _ _

theorem writeInodeTime_placed (n field timestamp : ℕ) :
    (writeInodeTime (ufs.behind pre) n field timestamp).Tracks (Placed pre post len)
      (writeInodeTime ufs n field timestamp) :=
  (putInodeField_placed _ _ _).bind fun _ => putInodeField_placed _ _ _

theorem initializeInode_placed (n mode uid gid nlink timestamp : ℕ) :
    (initializeInode (ufs.behind pre) n mode uid gid nlink timestamp).Tracks (Placed pre post len)
      (initializeInode ufs n mode uid gid nlink timestamp) :=
  (clearInode_placed _).bind fun _ => (putInodeField_placed _ _ _).bind fun _ =>
    (putInodeField_placed _ _ _).bind fun _ => (putInodeField_placed _ _ _).bind fun _ =>
    (putInodeField_placed _ _ _).bind fun _ => (writeInodeTime_placed _ _ _).bind fun _ =>
    (writeInodeTime_placed _ _ _).bind fun _ => (writeInodeTime_placed _ _ _).bind fun _ =>
    (putInodeField_placed _ _ _).bind fun _ => (putInodeField_placed _ _ _).bind fun _ =>
    (putInodeField_placed _ _ _).bind fun _ => putInodeField_placed _ _ _

theorem writeBlockLists_placed (n : ℕ) (direct indirect : List ℕ) :
    (writeBlockLists (ufs.behind pre) n direct indirect).Tracks (Placed pre post len)
      (writeBlockLists ufs n direct indirect) :=
  (putInodeField_placed _ _ _).bind fun _ => putInodeField_placed _ _ _

theorem setInodeOwner_placed (n uid gid : ℕ) :
    (setInodeOwner (ufs.behind pre) n uid gid).Tracks (Placed pre post len)
      (setInodeOwner ufs n uid gid) :=
  (putInodeField_placed _ _ _).bind fun _ => (putInodeField_placed _ _ _).bind fun _ =>
    (putInodeField_placed _ _ _).bind fun _ => putInodeField_placed _ _ _

theorem setInodeTimes_placed (n : ℕ) (atime mtime ctime : Option ℕ) :
    (setInodeTimes (ufs.behind pre) n atime mtime ctime).Tracks (Placed pre post len)
      (setInodeTimes ufs n atime mtime ctime) := by
  unfold setInodeTimes
  refine Act.Tracks.bind ?_ fun _ => Act.Tracks.bind ?_ fun _ => ?_
  · cases atime with
    | none => exact Act.tracks_pure _
    | some t => exact writeInodeTime_placed _ _ _
  · cases mtime with
    | none => exact Act.tracks_pure _
    | some t => exact writeInodeTime_placed _ _ _
  · cases ctime with
    | none => exact Act.tracks_pure _
    | some t => exact writeInodeTime_placed _ _ _

theorem Ufs.Inside.of_readInode {inode : Inode} (h : readInode part ufs n = some inode) :
    ufs.Inside part.length n := by
  unfold readInode at h
  dsimp only at h
  split_ifs at h with hout
  exact Nat.not_lt.mp fun hlt => hout (.inr hlt)

/-- Reading an inode of the slice, or failing. -/
theorem readInodeOr_placed (hn : ufs.Inside len n) (failure : Fault) :
    (readInodeOr (ufs.behind pre) n failure).Tracks (Placed pre post len)
      (readInodeOr ufs n failure) := by
  refine (Act.tracks_read fun _ _ h => .of_eq (congrArg Outcome.ok (h.readInode hn))).bind fun r => ?_
  cases r with
  | none => exact Act.tracks_fail _
  | some inode => exact Act.tracks_pure _

theorem readInodeUnwrap_placed (n : ℕ) : (readInodeUnwrap (ufs.behind pre) n).Tracks
    (Placed pre post len) (readInodeUnwrap ufs n) := by
  refine Act.tracks_read fun whole part h => ?_
  cases hread : readInode part ufs n with
  | none => exact Outcome.tracks_panic
  | some inode =>
    refine .of_eq (congrArg Outcome.unwrap ?_)
    rw [← hread]
    exact h.readInode (h.length ▸ .of_readInode hread)

/-! ## Contents -/

theorem writePointerBlock_placed (b : ℕ) (pointers : List ℕ) :
    (writePointerBlock (ufs.behind pre) b pointers).Tracks (Placed pre post len)
      (writePointerBlock ufs b pointers) := by
  unfold writePointerBlock
  dsimp only [Ufs.behind_sb]
  rw [Ufs.behind_dataBlockOffset]
  exact (putSlice_placed _ _).bind fun _ => putSlice_placed _ _

theorem buildPointerTree_placed (n levels : ℕ) : ∀ blocks,
    (buildPointerTree (ufs.behind pre) n levels blocks).Tracks (Placed pre post len)
      (buildPointerTree ufs n levels blocks) := by
  induction levels with
  | zero => exact fun _ => Act.tracks_pure _
  | succ levels ih =>
    intro blocks
    unfold buildPointerTree
    refine .ite (fun _ => Act.tracks_pure _) fun _ => .ite (fun _ => ?_) fun _ => ?_
    · exact (allocateBlock_placed _).bind fun _ => (writePointerBlock_placed _ _).bind fun _ =>
        Act.tracks_pure _
    · exact (Act.Tracks.collect fun _ _ => ih _).bind fun _ => (allocateBlock_placed _).bind fun _ =>
        (writePointerBlock_placed _ _).bind fun _ => Act.tracks_pure _

theorem buildIndirectRoots_placed (n : ℕ) (levels : List ℕ) : ∀ blocks,
    (buildIndirectRoots (ufs.behind pre) n levels blocks).Tracks (Placed pre post len)
      (buildIndirectRoots ufs n levels blocks) := by
  induction levels with
  | nil => exact fun _ => Act.tracks_pure _
  | cons level levels ih =>
    intro blocks
    exact (buildPointerTree_placed _ _ _).bind fun _ => (ih _).bind fun _ => Act.tracks_pure _

theorem buildInodePointerStructure_placed (n : ℕ) (blocks : List ℕ) :
    (buildInodePointerStructure (ufs.behind pre) n blocks).Tracks (Placed pre post len)
      (buildInodePointerStructure ufs n blocks) :=
  (buildIndirectRoots_placed _ _ _).bind fun _ => (writeBlockLists_placed _ _ _).bind fun _ =>
    Act.tracks_pure _

theorem freeOwned_placed (pointers : List ℕ) (data : List (ℕ × ℕ)) :
    (freeOwned (ufs.behind pre) pointers data).Tracks (Placed pre post len)
      (freeOwned ufs pointers data) :=
  (Act.Tracks.each fun _ _ => freeAllocation_placed _ _).bind fun _ =>
    .each fun _ _ => freeAllocation_placed _ _

theorem writeChunks_placed (runs : List (ℕ × ℕ)) : ∀ data,
    (writeChunks (ufs.behind pre) runs data).Tracks (Placed pre post len)
      (writeChunks ufs runs data) := by
  induction runs with
  | nil => exact fun _ => Act.tracks_pure _
  | cons run runs ih =>
    obtain ⟨b, bytes⟩ := run
    intro data
    unfold writeChunks
    dsimp only [Ufs.behind_sb]
    rw [Ufs.behind_dataBlockOffset, Nat.add_assoc]
    exact (putSlice_placed _ _).bind fun _ => (Act.tracks_lift _).bind fun _ =>
      (putSlice_placed _ _).bind fun _ => ih _

theorem writeSizeAndBlocks_placed (n size : ℕ) (sizes : List ℕ) (count : ℕ) :
    (writeSizeAndBlocks (ufs.behind pre) n size sizes count).Tracks (Placed pre post len)
      (writeSizeAndBlocks ufs n size sizes count) :=
  (putInodeField_placed _ _ _).bind fun _ => putInodeField_placed _ _ _

theorem setInodeContents_placed (hn : ufs.Inside len n) (data : Bytes) :
    (setInodeContents (ufs.behind pre) n data).Tracks (Placed pre post len)
      (setInodeContents ufs n data) := by
  refine (Act.tracks_read fun _ _ h => .of_eq (congrArg Outcome.ok (h.readInode hn))).bind fun r => ?_
  cases r with
  | none => exact Act.tracks_fail _
  | some inode =>
    exact (Act.tracks_read fun _ _ h => h.inodeDataBlocks inode).bind fun _ =>
      (Act.tracks_read fun _ _ h => h.inodePointerBlocks inode).bind fun _ =>
      (freeOwned_placed _ _).bind fun _ =>
      (Act.Tracks.collect fun _ _ => allocateAllocation_placed _ _).bind fun _ =>
      (writeChunks_placed _ _).bind fun _ => (buildInodePointerStructure_placed _ _).bind fun _ =>
      writeSizeAndBlocks_placed _ _ _ _

theorem writeDataRange_placed (blocks sizes : List ℕ) (offset : ℕ) (data : Bytes) :
    (writeDataRange (ufs.behind pre) blocks sizes offset data).Tracks (Placed pre post len)
      (writeDataRange ufs blocks sizes offset data) := by
  refine .ite (fun _ => Act.tracks_pure _) fun _ => .each fun i _ => ?_
  refine (Act.tracks_lift _).bind fun b => (Act.tracks_lift _).bind fun bytes =>
    .ite (fun _ => Act.tracks_pure _) fun _ => ?_
  dsimp only [Ufs.behind_sb]
  rw [Ufs.behind_dataBlockOffset, Nat.add_assoc]
  exact putSlice_placed _ _

theorem applyInodeWrite_placed (hn : ufs.Inside len n) (offset : ℕ) (data : Bytes) :
    (applyInodeWrite (ufs.behind pre) n offset data).Tracks (Placed pre post len)
      (applyInodeWrite ufs n offset data) := by
  refine (Act.tracks_read fun _ _ h => .of_eq (congrArg Outcome.ok (h.readInode hn))).bind fun r => ?_
  cases r with
  | none => exact Act.tracks_fail _
  | some inode =>
    refine (Act.tracks_read fun _ _ h => h.inodeDataBlocks inode).bind fun blocks =>
      .ite (fun _ => ?_) fun _ => ?_
    · exact (writeDataRange_placed _ _ _ _).bind fun _ =>
        .ite (fun _ => putInodeField_placed _ _ _) fun _ => Act.tracks_pure _
    · refine (Act.tracks_lift _).bind fun _ =>
        (Act.tracks_read fun _ _ h => h.readDataRange _ _ _).bind fun _ =>
        (Act.tracks_read fun _ _ h => h.inodePointerBlocks inode).bind fun _ =>
        (freeOwned_placed _ _).bind fun _ =>
        (Act.Tracks.collect fun _ _ => allocateAllocation_placed _ _).bind fun _ =>
        .ite (fun _ => (writeDataRange_placed _ _ _ _).bind fun _ => ?_) fun _ => ?_
      all_goals
        exact (buildInodePointerStructure_placed _ _).bind fun _ =>
          (writeSizeAndBlocks_placed _ _ _ _).bind fun _ => writeDataRange_placed _ _ _ _

/-! ## Directories -/

theorem putDirectoryBlock_placed (blocks : List ℕ) (off : ℕ) (b : Bytes) :
    (putDirectoryBlock (ufs.behind pre) blocks off b).Tracks (Placed pre post len)
      (putDirectoryBlock ufs blocks off b) := by
  refine (Act.tracks_lift _).bind fun _ => ?_
  dsimp only [Ufs.behind_sb]
  rw [Ufs.behind_dataBlockOffset, Nat.add_assoc]
  exact putSlice_placed _ _

theorem addToLastBlock_placed (inode : Inode) (name : Str) (child : ℕ) :
    (addToLastBlock (ufs.behind pre) inode name child).Tracks (Placed pre post len)
      (addToLastBlock ufs inode name child) := by
  refine .ite (fun _ => .ite (fun _ => ?_) fun _ => Act.tracks_pure _) fun _ => Act.tracks_pure _
  refine (Act.tracks_read fun _ _ h => h.readInodeRange _ _ _).bind fun _ =>
    (Act.tracks_lift _).bind fun r => ?_
  cases r with
  | none => exact Act.tracks_pure _
  | some updated =>
    exact .ite (fun _ => (Act.tracks_read fun _ _ h => h.inodeDataBlocks _).bind fun _ =>
      (putDirectoryBlock_placed _ _ _).bind fun _ => Act.tracks_pure _) fun _ => Act.tracks_pure _

theorem addDirectoryEntry_placed (hn : ufs.Inside len n) (inode : Inode) (name : Str) (child : ℕ) :
    (addDirectoryEntry (ufs.behind pre) n inode name child).Tracks (Placed pre post len)
      (addDirectoryEntry ufs n inode name child) := by
  refine (addToLastBlock_placed _ _ _).bind fun done => .ite (fun _ => Act.tracks_pure _) fun _ => ?_
  refine (Act.tracks_read fun _ _ h => h.readInodeBytes _).bind fun bytes =>
    (Act.tracks_lift _).bind fun updated => .ite (fun _ => ?_) fun _ => ?_
  · refine (Act.tracks_read fun _ _ h => h.inodeDataBlocks _).bind fun blocks => .each fun off _ => ?_
    exact (Act.tracks_lift _).bind fun _ =>
      .ite (fun _ => putDirectoryBlock_placed _ _ _) fun _ => Act.tracks_pure _
  · exact (Act.tracks_lift _).bind fun _ => applyInodeWrite_placed hn _ _

theorem editFirstBlock_placed (bytes : Bytes) (size : ℕ) (blocks : List ℕ)
    (edit : Bytes → ℕ → Outcome Fault (Option Bytes)) (offsets : List ℕ) :
    (editFirstBlock (ufs.behind pre) bytes size blocks edit offsets).Tracks (Placed pre post len)
      (editFirstBlock ufs bytes size blocks edit offsets) := by
  induction offsets with
  | nil => exact Act.tracks_pure _
  | cons off offsets ih =>
    refine (Act.tracks_lift _).bind fun _ => (Act.tracks_lift _).bind fun r => ?_
    cases r with
    | none => exact ih
    | some updated => exact (putDirectoryBlock_placed _ _ _).bind fun _ => Act.tracks_pure _

theorem deleteDirectoryEntry_placed (inode : Inode) (name : Str) :
    (deleteDirectoryEntry (ufs.behind pre) inode name).Tracks (Placed pre post len)
      (deleteDirectoryEntry ufs inode name) :=
  (Act.tracks_read fun _ _ h => h.readInodeBytes _).bind fun _ =>
    (Act.tracks_read fun _ _ h => h.inodeDataBlocks _).bind fun _ =>
    (editFirstBlock_placed _ _ _ _ _).bind fun _ =>
    .ite (fun _ => Act.tracks_pure _) fun _ => Act.tracks_fail _

theorem updateDirectoryDotdot_placed (inode : Inode) (parent : ℕ) :
    (updateDirectoryDotdot (ufs.behind pre) inode parent).Tracks (Placed pre post len)
      (updateDirectoryDotdot ufs inode parent) :=
  (Act.tracks_read fun _ _ h => h.readInodeBytes _).bind fun _ =>
    (Act.tracks_read fun _ _ h => h.inodeDataBlocks _).bind fun _ =>
    (editFirstBlock_placed _ _ _ _ _).bind fun _ =>
    .ite (fun _ => Act.tracks_pure _) fun _ => Act.tracks_fail _

theorem dropLink_placed (hn : ufs.Inside len n) (inode : Inode) :
    (dropLink (ufs.behind pre) n inode).Tracks (Placed pre post len) (dropLink ufs n inode) :=
  .ite (fun _ => putInodeField_placed _ _ _) fun _ => (setInodeContents_placed hn _).bind fun _ =>
    (clearInode_placed _).bind fun _ => freeInode_placed _ _

theorem dropDirectory_placed (hn : ufs.Inside len n) (parent : ℕ) (inode : Inode) (name : Str) :
    (dropDirectory (ufs.behind pre) parent inode n name).Tracks (Placed pre post len)
      (dropDirectory ufs parent inode n name) :=
  (deleteDirectoryEntry_placed _ _).bind fun _ => (putInodeField_placed _ _ _).bind fun _ =>
    (setInodeContents_placed hn _).bind fun _ => (clearInode_placed _).bind fun _ =>
    freeInode_placed _ _

theorem moveEntry_placed {srcParent srcNumber dstParent : ℕ} (hd : ufs.Inside len dstParent)
    (srcName dstName : Str) (srcInode : Inode) :
    (moveEntry (ufs.behind pre) srcParent srcName srcNumber srcInode dstParent dstName).Tracks
      (Placed pre post len) (moveEntry ufs srcParent srcName srcNumber srcInode dstParent dstName) := by
  refine (readInodeUnwrap_placed _).bind fun _ => (addDirectoryEntry_placed hd _ _ _).bind fun _ =>
    .ite (fun _ => ?_) fun _ => ?_
  · exact (readInodeUnwrap_placed _).bind fun _ => (updateDirectoryDotdot_placed _ _).bind fun _ =>
      (readInodeUnwrap_placed _).bind fun _ => (putInodeField_placed _ _ _).bind fun _ =>
      (readInodeUnwrap_placed _).bind fun _ => (putInodeField_placed _ _ _).bind fun _ =>
      (readInodeUnwrap_placed _).bind fun _ => deleteDirectoryEntry_placed _ _
  · exact (readInodeUnwrap_placed _).bind fun _ => deleteDirectoryEntry_placed _ _

theorem truncate_placed (hn : ufs.Inside len n) (size : ℕ) :
    (truncate (ufs.behind pre) n size).Tracks (Placed pre post len) (truncate ufs n size) :=
  (readInodeOr_placed hn _).bind fun _ => .ite (fun _ => Act.tracks_pure _) fun _ =>
    (Act.tracks_read fun _ _ h => h.readInodeBytes _).bind fun _ => (Act.tracks_lift _).bind fun _ =>
    setInodeContents_placed hn _

end UfsFuse
