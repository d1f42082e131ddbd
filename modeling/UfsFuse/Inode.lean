import UfsFuse.Superblock

/-!
# On-disk inodes and block lists

`inode.rs`: decoding a dinode, and the data and pointer blocks an inode reaches. A slice index
out of the image is a panic. Names and paths are the UTF-8 bytes of a `&str`.
-/
namespace UfsFuse

/-- UTF-8 bytes of a Rust string slice. -/
abbrev Str : Type := List UInt8

/-- Error texts of the write path and the formatter: one constructor for each message, carrying
what the message prints. -/
inductive Fault where
  /-- no free UFS inodes remain for allocation -/
  | noFreeInodes
  /-- invalid cylinder group {cg} while freeing UFS inode {inode} -/
  | invalidCgFreeingInode (cg inode : ℕ)
  /-- UFS inode {inode} is already free -/
  | inodeAlreadyFree (inode : ℕ)
  /-- no free UFS blocks remain for allocation -/
  | noFreeBlocks
  /-- invalid UFS fragment allocation request for {bytes} bytes -/
  | invalidFragmentRequest (bytes : ℕ)
  /-- no free UFS fragments remain for allocation -/
  | noFreeFragments
  /-- UFS allocation size must be positive -/
  | allocationNotPositive
  /-- invalid cylinder group {cg} while freeing UFS block {block} -/
  | invalidCgFreeingBlock (cg block : ℕ)
  /-- invalid cylinder group {cg} while freeing UFS allocation at block {block} -/
  | invalidCgFreeingAllocation (cg block : ℕ)
  /-- invalid cylinder group {cg} while normalizing UFS metadata -/
  | invalidCgNormalizing (cg : ℕ)
  /-- could not read inode {inode} for replacement -/
  | unreadableForReplacement (inode : ℕ)
  /-- could not read inode {inode} for write -/
  | unreadableForWrite (inode : ℕ)
  /-- no directory slot available for {name:?} -/
  | noDirectorySlot (name : Str)
  /-- could not resolve parent path {path} inside the ufs filesystem -/
  | unresolvedParent (path : Str)
  /-- parent path {path} is not a UFS directory -/
  | parentPathNotDirectory (path : Str)
  /-- target path {path} already exists inside the ufs filesystem -/
  | targetExists (path : Str)
  /-- source path {path} does not exist inside the ufs filesystem -/
  | sourcePathMissing (path : Str)
  /-- refusing to create a hard link to directory {path} -/
  | hardLinkToDirectory (path : Str)
  /-- could not find directory entry {name:?} to remove -/
  | entryToRemoveMissing (name : Str)
  /-- refusing to unlink the UFS root directory -/
  | unlinkRoot
  /-- target path {path} does not exist inside the ufs filesystem -/
  | targetPathMissing (path : Str)
  /-- target path {path} is a directory; use rmdir instead -/
  | targetPathIsDirectory (path : Str)
  /-- refusing to remove the UFS root directory -/
  | removeRoot
  /-- target path {path} is not a directory -/
  | targetPathNotDirectory (path : Str)
  /-- target directory {path} is not empty -/
  | targetPathNotEmpty (path : Str)
  /-- parent inode {inode} is unreadable -/
  | parentUnreadable (inode : ℕ)
  /-- parent inode is not a UFS directory -/
  | parentNotDirectory
  /-- unsupported special file type 0o{type:o} -/
  | unsupportedSpecialType (fileType : ℕ)
  /-- link target inode {inode} is unreadable -/
  | linkTargetUnreadable (inode : ℕ)
  /-- refusing to hard-link a directory -/
  | hardLinkDirectory
  /-- {name:?} does not exist -/
  | nameMissing (name : Str)
  /-- {name:?} is a directory; use rmdir -/
  | nameIsDirectory (name : Str)
  /-- {name:?} is not a directory -/
  | nameNotDirectory (name : Str)
  /-- directory {name:?} is not empty -/
  | nameNotEmpty (name : Str)
  /-- could not find '..' to rewrite -/
  | dotdotMissing
  /-- source parent inode {inode} is unreadable -/
  | sourceParentUnreadable (inode : ℕ)
  /-- source {name:?} does not exist -/
  | sourceNameMissing (name : Str)
  /-- target parent inode {inode} is unreadable -/
  | targetParentUnreadable (inode : ℕ)
  /-- cannot rename across file and directory types -/
  | crossTypeRename
  /-- inode {inode} is unreadable -/
  | inodeUnreadable (inode : ℕ)
  /-- UFS image size must be a positive multiple of 512 bytes -/
  | formatImageSize
  /-- UFS block size must be between 4096 and 8192 bytes -/
  | formatBlockSize
  /-- UFS block size must be a whole multiple of the fragment size -/
  | formatBlockMultiple
  /-- tracks_per_cylinder and sectors_per_track must be specified together -/
  | formatGeometryTogether
  /-- UFS slice extends past the end of the image -/
  | formatPastEnd
  /-- expected a positive power-of-two value, got {value} -/
  | formatPowerOfTwo (value : ℕ)
  /-- tracks_per_cylinder and sectors_per_track must be positive -/
  | formatGeometryPositive
  /-- UFS slice size must be an exact whole number of cylinders -/
  | formatWholeCylinders
  /-- UFS slice must contain at least one cylinder -/
  | formatNoCylinder
  /-- UFS cylinder-group bitmap cannot represent even one cylinder with this geometry -/
  | formatCylinderTooBig
  /-- bytes_per_inode must be positive -/
  | formatBytesPerInode
  /-- UFS cylinder group is too small to reserve inode blocks -/
  | formatGroupTooSmall
  /-- UFS inode layout could not reserve any usable inodes -/
  | formatNoInodes
  /-- UFS slice is too small ({size} bytes); need at least {required} bytes -/
  | formatTooSmall (size required : ℕ)
  /-- UFS cylinder summary area overlaps the cylinder group block -/
  | formatSummaryOverlap
  /-- formatter wrote a superblock that failed to re-parse -/
  | formatReparse
  /-- failed to initialize the UFS root inode -/
  | formatRootInode
  deriving DecidableEq, Repr

/-- `&image[off..off + len]`. -/
def getSlice (image : Bytes) (off len : ℕ) : Outcome Fault Bytes := do
  Outcome.guard (off + len ≤ image.length)
  pure (image.slice off len)

@[simp, reducible] def ufsIfmt : ℕ := 0o170000
@[simp, reducible] def ufsIfchr : ℕ := 0o020000
@[simp, reducible] def ufsIfdir : ℕ := 0o040000
@[simp, reducible] def ufsIfblk : ℕ := 0o060000
@[simp, reducible] def ufsIfreg : ℕ := 0o100000
@[simp, reducible] def ufsIflnk : ℕ := 0o120000

/-! Offsets of `struct icommon` fields. -/
namespace DiOff
@[simp, reducible] def smode : ℕ := 0
@[simp, reducible] def nlink : ℕ := 2
@[simp, reducible] def suid : ℕ := 4
@[simp, reducible] def sgid : ℕ := 6
@[simp, reducible] def size : ℕ := 8
@[simp, reducible] def atime : ℕ := 16
@[simp, reducible] def mtime : ℕ := 24
@[simp, reducible] def ctime : ℕ := 32
@[simp, reducible] def db : ℕ := 40
@[simp, reducible] def ib : ℕ := 88
@[simp, reducible] def blocks : ℕ := 104
@[simp, reducible] def mode : ℕ := 112
@[simp, reducible] def uid : ℕ := 116
@[simp, reducible] def gid : ℕ := 120
@[simp, reducible] def eftflag : ℕ := 124
end DiOff

/-- A decoded dinode: twelve direct and three indirect pointers. -/
structure Inode where
  mode : ℕ
  nlink : ℕ
  uid : ℕ
  gid : ℕ
  atime : ℕ
  mtime : ℕ
  ctime : ℕ
  size : ℕ
  directBlocks : List ℕ
  indirectBlocks : List ℕ
  blocks : ℕ
  deriving DecidableEq, Repr

namespace Inode

def fileType (i : Inode) : ℕ := i.mode &&& ufsIfmt
def isDirectory (i : Inode) : Bool := i.fileType == ufsIfdir
def isSymlink (i : Inode) : Bool := i.fileType == ufsIflnk
def isRegular (i : Inode) : Bool := i.fileType == ufsIfreg

/-- Decode the 128 bytes of a dinode. -/
def decode (raw : Bytes) : Inode where
  mode := raw.u32 DiOff.mode
  nlink := raw.u16 DiOff.nlink
  uid := raw.u32 DiOff.uid
  gid := raw.u32 DiOff.gid
  atime := raw.u32 DiOff.atime
  mtime := raw.u32 DiOff.mtime
  ctime := raw.u32 DiOff.ctime
  size := raw.u64 DiOff.size
  directBlocks := (List.range ufsNdaddr).map fun i => raw.u32 (DiOff.db + i * 4)
  indirectBlocks := (List.range ufsNiaddr).map fun i => raw.u32 (DiOff.ib + i * 4)
  blocks := raw.u32 DiOff.blocks

end Inode

/-- Read inode `inodeNumber`, or nothing if its bytes fall outside the image. -/
def readInode (image : Bytes) (ufs : Ufs) (inodeNumber : ℕ) : Option Inode :=
  let inodeOffset := ufs.sb.inodeByteOffset ufs.startOffset inodeNumber
  if inodeOffset < ufs.startOffset ∨ inodeOffset + ufsDinodeSize > image.length then none
  else some (Inode.decode (image.slice inodeOffset ufsDinodeSize))

/-- The `nindir` pointers of an indirect block. -/
def readPointerBlock (image : Bytes) (ufs : Ufs) (fsBlock : ℕ) : Outcome Fault (List ℕ) := do
  let blockOffset := ufs.sb.dataBlockOffset ufs.startOffset fsBlock
  let raw ← getSlice image blockOffset ufs.sb.bsize
  -- the last pointer read must lie inside the block
  Outcome.guard (ufs.sb.nindir * 4 ≤ raw.length)
  pure ((List.range ufs.sb.nindir).map fun i => raw.u32 (i * 4))

/-- The pointer loop of `collect_indirect_data_blocks`; `child` follows one non-zero pointer. -/
def collectDataLoop (child : ℕ → Option ℕ → Outcome Fault (List ℕ)) (maxBlocks : Option ℕ) :
    List ℕ → List ℕ → Outcome Fault (List ℕ)
  | [], blocks => .ok blocks
  | pointer :: rest, blocks =>
      if pointer = 0 then collectDataLoop child maxBlocks rest blocks
      else do
        let found ← child pointer (maxBlocks.map (· - blocks.length))
        let blocks := blocks ++ found
        match maxBlocks with
        | some m =>
            if blocks.length ≥ m then pure (blocks.take m)
            else collectDataLoop child maxBlocks rest blocks
        | none => collectDataLoop child maxBlocks rest blocks

/-- Data blocks under the indirect tree `fsBlock` of `levels` levels, at most `maxBlocks`. -/
def collectIndirectDataBlocks (image : Bytes) (ufs : Ufs) :
    ℕ → ℕ → Option ℕ → Outcome Fault (List ℕ)
  | 0, _, _ => .ok []
  | levels + 1, fsBlock, maxBlocks =>
      if fsBlock = 0 ∨ maxBlocks = some 0 then .ok []
      else do
        let pointers ← readPointerBlock image ufs fsBlock
        collectDataLoop
          (fun pointer childMax =>
            if levels = 0 then .ok [pointer]
            else collectIndirectDataBlocks image ufs levels pointer childMax)
          maxBlocks pointers []

/-- Every pointer block of the tree `fsBlock`, the root first. -/
def collectIndirectPointerBlocks (image : Bytes) (ufs : Ufs) :
    ℕ → ℕ → Outcome Fault (List ℕ)
  | 0, _ => .ok []
  | levels + 1, fsBlock =>
      if fsBlock = 0 then .ok []
      else if levels = 0 then .ok [fsBlock]
      else do
        let pointers ← readPointerBlock image ufs fsBlock
        Outcome.foldM
          (fun blocks child =>
            if child = 0 then .ok blocks
            else do
              let found ← collectIndirectPointerBlocks image ufs levels child
              pure (blocks ++ found))
          [fsBlock] pointers

/-- All pointer blocks an inode owns. -/
def inodePointerBlocks (image : Bytes) (ufs : Ufs) (inode : Inode) : Outcome Fault (List ℕ) :=
  Outcome.foldM
    (fun blocks root => do
      let found ← collectIndirectPointerBlocks image ufs (root.2 + 1) root.1
      pure (blocks ++ found))
    [] inode.indirectBlocks.zipIdx

/-- The direct-pointer loop of `inode_data_blocks`: the blocks so far, and whether the loop
already returned. -/
def directDataLoop (needed : ℕ) : List ℕ → List ℕ → List ℕ × Bool
  | [], blocks => (blocks, false)
  | fsBlock :: rest, blocks =>
      if fsBlock = 0 then directDataLoop needed rest blocks
      else
        let blocks := blocks ++ [fsBlock]
        if blocks.length ≥ needed then (blocks.take needed, true)
        else directDataLoop needed rest blocks

/-- The indirect-pointer loop of `inode_data_blocks`. -/
def indirectDataLoop (image : Bytes) (ufs : Ufs) (needed : ℕ) :
    List (ℕ × ℕ) → List ℕ → Outcome Fault (List ℕ)
  | [], blocks => .ok (blocks.take needed)
  | (rootBlock, levelIndex) :: rest, blocks => do
      let remaining := needed - blocks.length
      let found ← collectIndirectDataBlocks image ufs (levelIndex + 1) rootBlock (some remaining)
      let blocks := blocks ++ found
      if blocks.length ≥ needed then pure (blocks.take needed)
      else indirectDataLoop image ufs needed rest blocks

/-- The data blocks of an inode in order, as many as its size needs. -/
def inodeDataBlocks (image : Bytes) (ufs : Ufs) (inode : Inode) : Outcome Fault (List ℕ) :=
  let needed := if inode.size = 0 then 0 else (inode.size + ufs.sb.bsize - 1) / ufs.sb.bsize
  let (blocks, done) := directDataLoop needed inode.directBlocks []
  if done then .ok blocks
  else indirectDataLoop image ufs needed inode.indirectBlocks.zipIdx blocks

end UfsFuse
