import UfsFuse.Reader

/-!
# The write path

`write.rs`: inode fields, pointer trees, content replacement, directory insertion and removal,
and the operations built from them. Link counts are `u16` and wrap.
-/
namespace UfsFuse

def inodeOffset (ufs : Ufs) (inodeNumber : ℕ) : ℕ := ufs.sb.inodeByteOffset ufs.startOffset inodeNumber

/-! ## Inode fields -/

def clearInode (ufs : Ufs) (inodeNumber : ℕ) : Write Unit :=
  putSlice (inodeOffset ufs inodeNumber) (Bytes.zeros ufsDinodeSize)

/-- A field of an inode, given by its offset in the dinode. -/
def putInodeField (ufs : Ufs) (inodeNumber field : ℕ) (value : Bytes) : Write Unit :=
  putSlice (inodeOffset ufs inodeNumber + field) value

def writeInodeTime (ufs : Ufs) (inodeNumber field timestamp : ℕ) : Write Unit := do
  putInodeField ufs inodeNumber field (Bytes.le 4 timestamp)
  putInodeField ufs inodeNumber (field + 4) (Bytes.le 4 0)

/-- Clear the inode, then set the link count, both owners, the times, both modes and the cookie. -/
def initializeInode (ufs : Ufs) (inodeNumber mode uid gid nlink timestamp : ℕ) : Write Unit := do
  clearInode ufs inodeNumber
  putInodeField ufs inodeNumber DiOff.smode (Bytes.le 2 mode)
  putInodeField ufs inodeNumber DiOff.nlink (Bytes.le 2 nlink)
  putInodeField ufs inodeNumber DiOff.suid (Bytes.le 2 uid)
  putInodeField ufs inodeNumber DiOff.sgid (Bytes.le 2 gid)
  writeInodeTime ufs inodeNumber DiOff.atime timestamp
  writeInodeTime ufs inodeNumber DiOff.mtime timestamp
  writeInodeTime ufs inodeNumber DiOff.ctime timestamp
  putInodeField ufs inodeNumber DiOff.mode (Bytes.le 4 mode)
  putInodeField ufs inodeNumber DiOff.uid (Bytes.le 4 uid)
  putInodeField ufs inodeNumber DiOff.gid (Bytes.le 4 gid)
  putInodeField ufs inodeNumber DiOff.eftflag (Bytes.le 4 ufsEftMagic)

def writeInodeSize (ufs : Ufs) (inodeNumber size : ℕ) : Write Unit :=
  putInodeField ufs inodeNumber DiOff.size (Bytes.le 8 size)

def writeInodeNlink (ufs : Ufs) (inodeNumber nlink : ℕ) : Write Unit :=
  putInodeField ufs inodeNumber DiOff.nlink (Bytes.le 2 nlink)

def writeInodeBlocks (ufs : Ufs) (inodeNumber sectors : ℕ) : Write Unit :=
  putInodeField ufs inodeNumber DiOff.blocks (Bytes.le 4 sectors)

/-- `count` consecutive `u32` slots holding `values`, zero where there is no value. -/
def pointerSlots (count : ℕ) (values : List ℕ) : Bytes :=
  (List.range count).flatMap fun i => Bytes.le 4 (values.getD i 0)

/-- The direct and the indirect pointers, slot after slot. -/
def writeBlockLists (ufs : Ufs) (inodeNumber : ℕ) (direct indirect : List ℕ) : Write Unit := do
  putInodeField ufs inodeNumber DiOff.db (pointerSlots ufsNdaddr direct)
  putInodeField ufs inodeNumber DiOff.ib (pointerSlots ufsNiaddr indirect)

/-! ## Pointer trees -/

def writePointerBlock (ufs : Ufs) (fsBlock : ℕ) (pointers : List ℕ) : Write Unit := do
  let blockOffset := ufs.sb.dataBlockOffset ufs.startOffset fsBlock
  putSlice blockOffset (Bytes.zeros ufs.sb.bsize)
  putSlice blockOffset ((pointers.take ufs.sb.nindir).flatMap (Bytes.le 4))

/-- Cut a list into pieces of `size`, the last one possibly shorter. -/
def chunksOf {α : Type} (size : ℕ) : ℕ → List α → List (List α)
  | 0, _ => []
  | _ + 1, [] => []
  | fuel + 1, x :: xs => (x :: xs).take size :: chunksOf size fuel ((x :: xs).drop size)

/-- Build a tree of `levels` levels over the data blocks: its root and the number of pointer
blocks. -/
def buildPointerTree (ufs : Ufs) (inodeNumber : ℕ) : ℕ → List ℕ → Write (ℕ × ℕ)
  | 0, _ => pure (0, 0)
  | levels + 1, dataBlocks =>
      if dataBlocks = [] then pure (0, 0)
      else if levels = 0 then do
        let rootBlock ← allocateBlock ufs inodeNumber
        writePointerBlock ufs rootBlock (dataBlocks.take ufs.sb.nindir)
        pure (rootBlock, 1)
      else do
        let childCapacity := ufs.sb.nindir ^ levels
        let children ← Act.collect (buildPointerTree ufs inodeNumber levels)
          (chunksOf childCapacity dataBlocks.length dataBlocks)
        let rootBlock ← allocateBlock ufs inodeNumber
        writePointerBlock ufs rootBlock (children.map Prod.fst)
        pure (rootBlock, 1 + (children.map Prod.snd).sum)

/-- The roots for the given indirection levels and the number of pointer blocks. -/
def buildIndirectRoots (ufs : Ufs) (inodeNumber : ℕ) : List ℕ → List ℕ → Write (List ℕ × ℕ)
  | [], _ => pure ([], 0)
  | levels :: more, remaining => do
      let levelCapacity := ufs.sb.nindir ^ levels
      let (rootBlock, pointerBlocks) ←
        buildPointerTree ufs inodeNumber levels (remaining.take levelCapacity)
      let (roots, total) ← buildIndirectRoots ufs inodeNumber more (remaining.drop levelCapacity)
      pure (rootBlock :: roots, pointerBlocks + total)

/-- Lay out the pointers of `dataBlocks` in the inode; returns the number of pointer blocks. -/
def buildInodePointerStructure (ufs : Ufs) (inodeNumber : ℕ) (dataBlocks : List ℕ) : Write ℕ := do
  let (roots, newPointerBlocks) ←
    buildIndirectRoots ufs inodeNumber [1, 2, 3] (dataBlocks.drop ufsNdaddr)
  writeBlockLists ufs inodeNumber (dataBlocks.take ufsNdaddr) roots
  pure newPointerBlocks

/-! ## Contents -/

/-- Free pointer blocks and data allocations, each list from its end. -/
def freeOwned (ufs : Ufs) (pointerBlocks : List ℕ) (data : List (ℕ × ℕ)) : Write Unit := do
  Act.each (fun pointerBlock => freeAllocation ufs pointerBlock ufs.sb.bsize) pointerBlocks.reverse
  Act.each (fun (run : ℕ × ℕ) => freeAllocation ufs run.1 run.2) data

/-- Pair two lists from their ends, as `a.iter().rev().zip(b.iter().rev())`. -/
def zipRev (blocks sizes : List ℕ) : List (ℕ × ℕ) := blocks.reverse.zip sizes.reverse

/-- The data-writing loop of `set_inode_contents`: each allocation gets its chunk and is filled
up with zeros. -/
def writeChunks (ufs : Ufs) : List (ℕ × ℕ) → Bytes → Write Unit
  | [], _ => pure ()
  | (fsBlock, allocationBytes) :: rest, remaining => do
      let blockOffset := ufs.sb.dataBlockOffset ufs.startOffset fsBlock
      let chunk := remaining.take ufs.sb.bsize
      putSlice blockOffset chunk
      Act.lift (Outcome.guard (chunk.length ≤ allocationBytes))
      putSlice (blockOffset + chunk.length) (Bytes.zeros (allocationBytes - chunk.length))
      writeChunks ufs rest (remaining.drop ufs.sb.bsize)

/-- Record the size and the sector count of new contents. -/
def writeSizeAndBlocks (ufs : Ufs) (inodeNumber size : ℕ) (allocationSizes : List ℕ)
    (pointerBlockCount : ℕ) : Write Unit := do
  writeInodeSize ufs inodeNumber size
  let dataSectors := (allocationSizes.map (· / sectorSize)).sum
  let pointerSectors := pointerBlockCount * (ufs.sb.bsize / sectorSize)
  writeInodeBlocks ufs inodeNumber (dataSectors + pointerSectors)

/-- Replace the contents of an inode: free everything, allocate afresh, write the data and
rebuild the pointers. -/
def setInodeContents (ufs : Ufs) (inodeNumber : ℕ) (newData : Bytes) : Write Unit := do
  let sb := ufs.sb
  match ← Act.read fun image => .ok (readInode image ufs inodeNumber) with
  | none => Act.fail (.unreadableForReplacement inodeNumber)
  | some inode => do
    let currentDataBlocks ← Act.read fun image => inodeDataBlocks image ufs inode
    let currentAllocationSizes := sb.allocationByteSizes inode.size
    let currentPointerBlocks ← Act.read fun image => inodePointerBlocks image ufs inode
    let requestedAllocationSizes := sb.allocationByteSizes newData.length
    freeOwned ufs currentPointerBlocks (zipRev currentDataBlocks currentAllocationSizes)
    let newBlocks ← Act.collect (allocateAllocation ufs inodeNumber) requestedAllocationSizes
    writeChunks ufs (newBlocks.zip requestedAllocationSizes) newData
    let newPointerBlockCount ← buildInodePointerStructure ufs inodeNumber newBlocks
    writeSizeAndBlocks ufs inodeNumber newData.length requestedAllocationSizes newPointerBlockCount

/-- Length of the longest shared prefix of two allocation-size lists. -/
def commonAllocationPrefix : List ℕ → List ℕ → ℕ
  | a :: as, b :: bs => if a = b then commonAllocationPrefix as bs + 1 else 0
  | _, _ => 0

/-- One block of `write_data_range`. -/
def writeRangeStep (ufs : Ufs) (dataBlocks allocationSizes : List ℕ) (offset : ℕ) (data : Bytes)
    (blockIndex : ℕ) : Write Unit := do
  let blockSize := ufs.sb.bsize
  let endOffset := offset + data.length
  let fsBlock ← Act.lift (Outcome.unwrap dataBlocks[blockIndex]?)
  let allocationBytes ← Act.lift (Outcome.unwrap allocationSizes[blockIndex]?)
  let logicalStart := blockIndex * blockSize
  let innerStart := offset - logicalStart
  let innerEnd := min (min blockSize (endOffset - logicalStart)) allocationBytes
  if innerStart ≥ innerEnd then pure ()
  else do
    let dataStart := logicalStart + innerStart - offset
    let backing := ufs.sb.dataBlockOffset ufs.startOffset fsBlock
    putSlice (backing + innerStart) (data.slice dataStart (innerEnd - innerStart))

/-- Copy `data` to logical `offset` within the data blocks. -/
def writeDataRange (ufs : Ufs) (dataBlocks allocationSizes : List ℕ) (offset : ℕ) (data : Bytes) :
    Write Unit :=
  if data = [] then pure ()
  else
    let blockSize := ufs.sb.bsize
    let endOffset := offset + data.length
    let startBlock := offset / blockSize
    let endBlock := min (min dataBlocks.length allocationSizes.length)
      ((endOffset + blockSize - 1) / blockSize)
    Act.each (writeRangeStep ufs dataBlocks allocationSizes offset data)
      (List.range' startBlock (endBlock - startBlock))

/-- Write `data` at byte `offset`, reallocating only the suffix of the allocations that changes. -/
def applyInodeWrite (ufs : Ufs) (inodeNumber offset : ℕ) (data : Bytes) : Write Unit := do
  let sb := ufs.sb
  let blockSize := sb.bsize
  match ← Act.read fun image => .ok (readInode image ufs inodeNumber) with
  | none => Act.fail (.unreadableForWrite inodeNumber)
  | some inode => do
    let oldSize := inode.size
    let newSize := max oldSize (offset + data.length)
    let currentBlocks ← Act.read fun image => inodeDataBlocks image ufs inode
    let currentAlloc := sb.allocationByteSizes oldSize
    let requestedAlloc := sb.allocationByteSizes newSize
    if requestedAlloc = currentAlloc then do
      writeDataRange ufs currentBlocks currentAlloc offset data
      if newSize ≠ oldSize then writeInodeSize ufs inodeNumber newSize
    else do
      let keep := commonAllocationPrefix currentAlloc requestedAlloc
      let preservedSuffixBytes := oldSize - keep * blockSize
      Act.lift (Outcome.guard (keep ≤ currentBlocks.length))
      let oldSuffixBlocks := currentBlocks.drop keep
      let suffixSeed ← Act.read fun image =>
        readDataRange image ufs oldSuffixBlocks 0 preservedSuffixBytes
      let pointerBlocks ← Act.read fun image => inodePointerBlocks image ufs inode
      freeOwned ufs pointerBlocks (zipRev oldSuffixBlocks (currentAlloc.drop keep))
      let newSuffixAlloc := requestedAlloc.drop keep
      let newSuffix ← Act.collect (allocateAllocation ufs inodeNumber) newSuffixAlloc
      let rebuilt := currentBlocks.take keep ++ newSuffix
      if suffixSeed ≠ [] then writeDataRange ufs (rebuilt.drop keep) newSuffixAlloc 0 suffixSeed
      let newPointerBlockCount ← buildInodePointerStructure ufs inodeNumber rebuilt
      writeSizeAndBlocks ufs inodeNumber newSize requestedAlloc newPointerBlockCount
      writeDataRange ufs rebuilt requestedAlloc offset data

/-! ## Directory records -/

/-- `buf[off..off + src.len()].copy_from_slice(src)` on a local buffer. -/
def patch (buf : Bytes) (off : ℕ) (src : Bytes) : Outcome Fault Bytes := do
  Outcome.guard (off + src.length ≤ buf.length)
  pure (buf.overlay off src)

/-- A directory record of `recordLength` bytes. -/
def encodeEntry (inodeNumber : ℕ) (name : Str) (recordLength : ℕ) : Outcome Fault Bytes := do
  Outcome.guard (DirentOff.name + name.length ≤ recordLength)
  pure (Bytes.le 4 inodeNumber ++ Bytes.le 2 recordLength ++ Bytes.le 2 name.length ++ name ++
    Bytes.zeros (recordLength - (DirentOff.name + name.length)))

@[simp, reducible] def dotName : Str := [46]
@[simp, reducible] def dotdotName : Str := [46, 46]

/-- The first block of a directory: "." and "..". -/
def buildDirectoryBlock (selfInode parentInode : ℕ) : Outcome Fault Bytes := do
  let dot ← encodeEntry selfInode dotName (ufsDirsiz 1)
  let dotdot ← encodeEntry parentInode dotdotName (ufsDirblksiz - dot.length)
  pure (dot ++ dotdot)

structure InsertSlot where
  blockOffset : ℕ
  entryOffset : ℕ
  recordLength : ℕ
  /-- offset and new length of the record whose slack is used -/
  previous : Option (ℕ × ℕ)
  deriving DecidableEq, Repr

/-- The record scan of `find_insert_slot` in one block: a slot, or whether any record was read. -/
def scanSlots (bytes : Bytes) (blockOffset blockLimit needed : ℕ) :
    ℕ → ℕ → Bool → Option InsertSlot × Bool
  | 0, _, found => (none, found)
  | fuel + 1, cursor, found =>
      if cursor + 8 ≤ blockLimit then
        match decodeDirectoryHeader bytes cursor blockLimit with
        | none => (none, found)
        | some entry =>
            if entry.inode = 0 ∧ entry.recordLength ≥ needed then
              (some ⟨blockOffset, cursor, entry.recordLength, none⟩, true)
            else
              let minimal := ufsDirsiz entry.nameLength
              let available := entry.recordLength - minimal
              if entry.inode ≠ 0 ∧ available ≥ needed then
                (some ⟨blockOffset, cursor + minimal, available, some (cursor, minimal)⟩, true)
              else scanSlots bytes blockOffset blockLimit needed fuel
                (cursor + entry.recordLength) true
      else (none, found)

/-- The block loop of `find_insert_slot`. -/
def scanBlocksForSlot (bytes : Bytes) (maxLength needed : ℕ) : List ℕ → Option InsertSlot
  | [] => none
  | blockOffset :: rest =>
      let whole : InsertSlot := ⟨blockOffset, blockOffset, ufsDirblksiz, none⟩
      let blockLimit := min (blockOffset + ufsDirblksiz) maxLength
      if blockLimit ≤ blockOffset then
        if needed ≤ ufsDirblksiz then some whole
        else scanBlocksForSlot bytes maxLength needed rest
      else
        match scanSlots bytes blockOffset blockLimit needed ufsDirblksiz blockOffset false with
        | (some slot, _) => some slot
        | (none, found) =>
            if ¬found ∧ needed ≤ ufsDirblksiz then some whole
            else scanBlocksForSlot bytes maxLength needed rest

def findInsertSlot (directoryBytes : Bytes) (size : ℕ) (name : Str) : Option InsertSlot :=
  let needed := ufsDirsiz name.length
  let maxLength := min directoryBytes.length size
  let rounded := (maxLength + ufsDirblksiz - 1) / ufsDirblksiz * ufsDirblksiz
  let rounded := if rounded = 0 then ufsDirblksiz else rounded
  match scanBlocksForSlot directoryBytes maxLength needed (dirBlockOffsets rounded) with
  | some slot => some slot
  | none =>
      -- every block is full: append one
      if needed ≤ ufsDirblksiz then some ⟨rounded, rounded, ufsDirblksiz, none⟩ else none

/-- The directory bytes with one more entry. -/
def insertEntry (directoryBytes : Bytes) (size inodeNumber : ℕ) (name : Str) :
    Outcome Fault Bytes :=
  match findInsertSlot directoryBytes size name with
  | none => .err (.noDirectorySlot name)
  | some slot => do
    let needed := ufsDirsiz name.length
    let targetLength := max needed slot.recordLength
    let newSize := max (max directoryBytes.length (slot.blockOffset + ufsDirblksiz))
      (slot.entryOffset + targetLength)
    let updated := directoryBytes ++ Bytes.zeros (newSize - directoryBytes.length)
    match slot.previous with
    | some (prevOff, prevLen) => do
      let updated ← patch updated (prevOff + DirentOff.reclen) (Bytes.le 2 prevLen)
      let record ← encodeEntry inodeNumber name slot.recordLength
      patch updated slot.entryOffset record
    | none => do
      Outcome.guard (needed ≤ slot.recordLength)
      let remaining := slot.recordLength - needed
      if remaining ≥ 8 then do
        let filler ← encodeEntry 0 [] remaining
        let updated ← patch updated (slot.entryOffset + needed) filler
        let record ← encodeEntry inodeNumber name needed
        patch updated slot.entryOffset record
      else do
        let record ← encodeEntry inodeNumber name targetLength
        patch updated slot.entryOffset record

/-- Write `bytes` back at logical offset `off` of a directory; they lie within one block. -/
def putDirectoryBlock (ufs : Ufs) (dataBlocks : List ℕ) (off : ℕ) (bytes : Bytes) : Write Unit := do
  let fsBlock ← Act.lift (Outcome.unwrap dataBlocks[off / ufs.sb.bsize]?)
  let backing := ufs.sb.dataBlockOffset ufs.startOffset fsBlock
  putSlice (backing + off % ufs.sb.bsize) bytes

/-- The fast path of `add_directory_entry`: insert into the last directory block if it has room.
Tells whether it did. -/
def addToLastBlock (ufs : Ufs) (directoryInode : Inode) (entryName : Str) (childInodeNumber : ℕ) :
    Write Bool := do
  let size := directoryInode.size
  let rounded := (size + ufsDirblksiz - 1) / ufsDirblksiz * ufsDirblksiz
  if rounded > ufsDirblksiz then do
    let lastOff := rounded - ufsDirblksiz
    let span := min (size - lastOff) ufsDirblksiz
    if span > 0 then do
      let lastBlock ← Act.read fun image => readInodeRange image ufs directoryInode lastOff span
      match ← Act.lift (insertEntry lastBlock span childInodeNumber entryName).attempt with
      | some updated =>
          if updated.length = span then do
            let dataBlocks ← Act.read fun image => inodeDataBlocks image ufs directoryInode
            putDirectoryBlock ufs dataBlocks lastOff updated
            pure true
          else pure false
      | none => pure false
    else pure false
  else pure false

/-- Add an entry to a directory: in place where a block has room, else by one more block. -/
def addDirectoryEntry (ufs : Ufs) (directoryInodeNumber : ℕ) (directoryInode : Inode)
    (entryName : Str) (childInodeNumber : ℕ) : Write Unit := do
  if ← addToLastBlock ufs directoryInode entryName childInodeNumber then pure ()
  else do
    let size := directoryInode.size
    let dirBytes ← Act.read fun image => readInodeBytes image ufs directoryInode
    let updated ← Act.lift (insertEntry dirBytes size childInodeNumber entryName)
    if updated.length = size then do
      let dataBlocks ← Act.read fun image => inodeDataBlocks image ufs directoryInode
      Act.each
        (fun offset => do
          let stop := min (offset + ufsDirblksiz) size
          let old ← Act.lift (getSlice dirBytes offset (stop - offset))
          let new := updated.slice offset (stop - offset)
          if old ≠ new then putDirectoryBlock ufs dataBlocks offset new)
        (dirBlockOffsets size)
    else do
      Act.lift (Outcome.guard (size ≤ updated.length))
      applyInodeWrite ufs directoryInodeNumber size (updated.drop size)

/-- The record loop of `remove_entry`: the entry's predecessor in its block, unless that is the
first record, and the entry itself. -/
def findEntryToRemove (name : Str) : Option DirEntry → List DirEntry → Option (Option DirEntry × DirEntry)
  | _, [] => none
  | previous, record :: rest =>
      if record.name ≠ name ∨ record.inode = 0 then
        findEntryToRemove name (if record.offset % ufsDirblksiz = 0 then none else some record) rest
      else some (previous, record)

/-- Remove a live entry from a directory block: merge it into its predecessor, or empty it. -/
def removeEntry (block : Bytes) (size : ℕ) (name : Str) : Outcome Fault (Option Bytes) :=
  let empty (record : DirEntry) : Outcome Fault (Option Bytes) := do
    let filler ← encodeEntry 0 [] record.recordLength
    let updated ← patch block record.offset filler
    pure (some updated)
  match findEntryToRemove name none (iterDirectoryRecords block size) with
  | none => .ok none
  | some (previous, record) =>
    match previous with
    | some prev =>
      if prev.offset / ufsDirblksiz = record.offset / ufsDirblksiz then do
        let merged := prev.recordLength + record.recordLength
        let updated ← patch block (prev.offset + DirentOff.reclen) (Bytes.le 2 merged)
        pure (some updated)
      else empty record
    | none => empty record

/-- Walk the directory blocks and write back the first one that `edit` changes. -/
def editFirstBlock (ufs : Ufs) (dirBytes : Bytes) (size : ℕ) (dataBlocks : List ℕ)
    (edit : Bytes → ℕ → Outcome Fault (Option Bytes)) : List ℕ → Write Bool
  | [] => pure false
  | blockOffset :: rest => do
      let blockSpan := min ufsDirblksiz (size - blockOffset)
      let block ← Act.lift (getSlice dirBytes blockOffset blockSpan)
      match ← Act.lift (edit block blockSpan) with
      | some updated => do
          putDirectoryBlock ufs dataBlocks blockOffset updated
          pure true
      | none => editFirstBlock ufs dirBytes size dataBlocks edit rest

/-- Remove `entryName` from a directory. -/
def deleteDirectoryEntry (ufs : Ufs) (directoryInode : Inode) (entryName : Str) : Write Unit := do
  let size := directoryInode.size
  let dirBytes ← Act.read fun image => readInodeBytes image ufs directoryInode
  let dataBlocks ← Act.read fun image => inodeDataBlocks image ufs directoryInode
  let done ← editFirstBlock ufs dirBytes size dataBlocks
    (fun block span => removeEntry block span entryName) (dirBlockOffsets size)
  if done then pure () else Act.fail (.entryToRemoveMissing entryName)

def freeInodeContents (ufs : Ufs) (inodeNumber : ℕ) : Write Unit := setInodeContents ufs inodeNumber []

/-- Whether a directory has no entries other than "." and "..". -/
def directoryIsEmpty (image : Bytes) (ufs : Ufs) (inode : Inode) : Outcome Fault Bool := do
  let records ← iterInodeDirectoryRecords image ufs inode
  pure (records.all fun r => r.inode == 0 || r.name == dotName || r.name == dotdotName)

/-! ## Operations on paths -/

/-- The parent path and the last component. -/
def splitParent (path : Str) : Str × Str :=
  let parts := pathParts path
  let name := parts.getLast?.getD []
  let parent := if parts.length > 1 then List.intercalate [47] parts.dropLast else []
  (parent, name)

def resolveCreationParent (ufs : Ufs) (targetPath : Str) : Write (Str × ℕ × Inode) := do
  let (parentPath, entryName) := splitParent targetPath
  match ← Act.read fun image => resolvePath image ufs parentPath with
  | none => Act.fail (.unresolvedParent parentPath)
  | some (parentNumber, parentInode) =>
    if ¬parentInode.isDirectory then Act.fail (.parentPathNotDirectory parentPath)
    else do
      match ← Act.read fun image => lookupDirectoryEntry image ufs parentInode entryName with
      | some _ => Act.fail (.targetExists targetPath)
      | none => pure (entryName, parentNumber, parentInode)

/-- The file type of a creation mode, a regular file if it has none. -/
def fileTypeOf (mode : ℕ) : ℕ := if mode &&& ufsIfmt ≠ 0 then mode &&& ufsIfmt else ufsIfreg

/-- `mode & !UFS_IFMT` on a `u32`. -/
def permissionsOf (mode : ℕ) : ℕ := Nat.ldiff mode ufsIfmt

def createFile (ufs : Ufs) (targetPath : Str) (fileBytes : Bytes) (mode uid gid timestamp : ℕ) :
    Write ℕ := do
  let (entryName, parentNumber, parentInode) ← resolveCreationParent ufs targetPath
  let newNumber ← allocateInode ufs (some parentNumber) false
  initializeInode ufs newNumber (fileTypeOf mode ||| permissionsOf mode) uid gid 1 timestamp
  if fileBytes ≠ [] then setInodeContents ufs newNumber fileBytes
  addDirectoryEntry ufs parentNumber parentInode entryName newNumber
  pure newNumber

def makeDirectory (ufs : Ufs) (targetPath : Str) (mode uid gid timestamp : ℕ) : Write ℕ := do
  let (entryName, parentNumber, parentInode) ← resolveCreationParent ufs targetPath
  let newNumber ← allocateInode ufs (some parentNumber) true
  initializeInode ufs newNumber (ufsIfdir ||| permissionsOf mode) uid gid 2 timestamp
  let block ← Act.lift (buildDirectoryBlock newNumber parentNumber)
  setInodeContents ufs newNumber block
  addDirectoryEntry ufs parentNumber parentInode entryName newNumber
  writeInodeNlink ufs parentNumber (parentInode.nlink + 1)
  pure newNumber

def link (ufs : Ufs) (sourcePath targetPath : Str) : Write ℕ := do
  match ← Act.read fun image => resolvePath image ufs sourcePath with
  | none => Act.fail (.sourcePathMissing sourcePath)
  | some (sourceNumber, sourceInode) =>
    if sourceInode.isDirectory then Act.fail (.hardLinkToDirectory sourcePath)
    else do
      let (entryName, parentNumber, parentInode) ← resolveCreationParent ufs targetPath
      addDirectoryEntry ufs parentNumber parentInode entryName sourceNumber
      writeInodeNlink ufs sourceNumber (sourceInode.nlink + 1)
      pure sourceNumber

def symlink (ufs : Ufs) (target linkPath : Str) (mode uid gid timestamp : ℕ) : Write ℕ :=
  createFile ufs linkPath target (ufsIflnk ||| mode) uid gid timestamp

def resolveRemovalParent (ufs : Ufs) (targetPath : Str) : Write (Str × ℕ × Inode) := do
  let (parentPath, entryName) := splitParent targetPath
  match ← Act.read fun image => resolvePath image ufs parentPath with
  | none => Act.fail (.unresolvedParent parentPath)
  | some (parentNumber, parentInode) => pure (entryName, parentNumber, parentInode)

/-- Give up one name of a non-directory: fewer links, or no inode at all. -/
def dropLink (ufs : Ufs) (targetNumber : ℕ) (targetInode : Inode) : Write Unit :=
  if targetInode.nlink > 1 then writeInodeNlink ufs targetNumber (targetInode.nlink - 1)
  else do
    freeInodeContents ufs targetNumber
    clearInode ufs targetNumber
    freeInode ufs targetNumber false

def unlink (ufs : Ufs) (targetPath : Str) : Write ℕ :=
  if targetPath = [47] then Act.fail .unlinkRoot
  else do
    match ← Act.read fun image => resolvePath image ufs targetPath with
    | none => Act.fail (.targetPathMissing targetPath)
    | some (targetNumber, targetInode) =>
      if targetInode.isDirectory then Act.fail (.targetPathIsDirectory targetPath)
      else do
        let (entryName, _, parentInode) ← resolveRemovalParent ufs targetPath
        deleteDirectoryEntry ufs parentInode entryName
        dropLink ufs targetNumber targetInode
        pure targetNumber

/-- Take an empty directory away from its parent: the entry, the parent's link, the inode. -/
def dropDirectory (ufs : Ufs) (parentNumber : ℕ) (parentInode : Inode) (targetNumber : ℕ)
    (entryName : Str) : Write Unit := do
  deleteDirectoryEntry ufs parentInode entryName
  writeInodeNlink ufs parentNumber (parentInode.nlink - 1)
  freeInodeContents ufs targetNumber
  clearInode ufs targetNumber
  freeInode ufs targetNumber true

def removeDirectory (ufs : Ufs) (targetPath : Str) : Write ℕ :=
  if targetPath = [47] then Act.fail .removeRoot
  else do
    match ← Act.read fun image => resolvePath image ufs targetPath with
    | none => Act.fail (.targetPathMissing targetPath)
    | some (targetNumber, targetInode) =>
      if ¬targetInode.isDirectory then Act.fail (.targetPathNotDirectory targetPath)
      else do
        if ¬(← Act.read fun image => directoryIsEmpty image ufs targetInode) then
          Act.fail (.targetPathNotEmpty targetPath)
        else do
          let (entryName, parentNumber, parentInode) ← resolveRemovalParent ufs targetPath
          dropDirectory ufs parentNumber parentInode targetNumber entryName
          pure targetNumber

/-! ## Operations on a parent inode and a name -/

/-- `read_inode(..).ok_or_else(..)?`. -/
def readInodeOr (ufs : Ufs) (inodeNumber : ℕ) (failure : Fault) : Write Inode := do
  match ← Act.read fun image => .ok (readInode image ufs inodeNumber) with
  | some inode => pure inode
  | none => Act.fail failure

/-- `read_inode(..).unwrap()`. -/
def readInodeUnwrap (ufs : Ufs) (inodeNumber : ℕ) : Write Inode :=
  Act.read fun image => Outcome.unwrap (readInode image ufs inodeNumber)

/-- `lookup_directory_entry(..).ok_or_else(..)?`. -/
def lookupOr (ufs : Ufs) (directoryInode : Inode) (name : Str) (failure : Fault) :
    Write (ℕ × Inode) := do
  match ← Act.read fun image => lookupDirectoryEntry image ufs directoryInode name with
  | some found => pure found
  | none => Act.fail failure

def createEmptyInParent (ufs : Ufs) (parentNumber : ℕ) (name : Str) (mode uid gid timestamp : ℕ) :
    Write ℕ := do
  let parentInode ← readInodeOr ufs parentNumber (.parentUnreadable parentNumber)
  if ¬parentInode.isDirectory then Act.fail .parentNotDirectory
  else do
    let newNumber ← allocateInode ufs (some parentNumber) false
    initializeInode ufs newNumber (fileTypeOf mode ||| permissionsOf mode) uid gid 1 timestamp
    addDirectoryEntry ufs parentNumber parentInode name newNumber
    pure newNumber

def mkdirInParent (ufs : Ufs) (parentNumber : ℕ) (name : Str) (mode uid gid timestamp : ℕ) :
    Write ℕ := do
  let parentInode ← readInodeOr ufs parentNumber (.parentUnreadable parentNumber)
  if ¬parentInode.isDirectory then Act.fail .parentNotDirectory
  else do
    let newNumber ← allocateInode ufs (some parentNumber) true
    initializeInode ufs newNumber (ufsIfdir ||| permissionsOf mode) uid gid 2 timestamp
    let block ← Act.lift (buildDirectoryBlock newNumber parentNumber)
    setInodeContents ufs newNumber block
    addDirectoryEntry ufs parentNumber parentInode name newNumber
    writeInodeNlink ufs parentNumber (parentInode.nlink + 1)
    pure newNumber

/-- Unlike its siblings this does not check that the parent is a directory. -/
def symlinkInParent (ufs : Ufs) (parentNumber : ℕ) (name target : Str) (mode uid gid timestamp : ℕ) :
    Write ℕ := do
  let parentInode ← readInodeOr ufs parentNumber (.parentUnreadable parentNumber)
  let newNumber ← allocateInode ufs (some parentNumber) false
  initializeInode ufs newNumber (ufsIflnk ||| permissionsOf mode) uid gid 1 timestamp
  setInodeContents ufs newNumber target
  addDirectoryEntry ufs parentNumber parentInode name newNumber
  pure newNumber

def mknodInParent (ufs : Ufs) (parentNumber : ℕ) (name : Str)
    (fileType major minor mode uid gid timestamp : ℕ) : Write ℕ :=
  if fileType ≠ ufsIfchr ∧ fileType ≠ ufsIfblk then Act.fail (.unsupportedSpecialType fileType)
  else do
    let parentInode ← readInodeOr ufs parentNumber (.parentUnreadable parentNumber)
    if ¬parentInode.isDirectory then Act.fail .parentNotDirectory
    else do
      let newNumber ← allocateInode ufs (some parentNumber) false
      initializeInode ufs newNumber (fileType ||| permissionsOf mode) uid gid 1 timestamp
      writeInodeSize ufs newNumber 0
      writeInodeBlocks ufs newNumber 0
      -- the old 7-bit major, 8-bit minor form and the expanded form
      let oldDevice := ((major &&& 0x7f) <<< 8) ||| (minor &&& 0xff)
      let expandedDevice := (major <<< 18) ||| minor
      writeBlockLists ufs newNumber [oldDevice, expandedDevice] [0, 0, 0]
      addDirectoryEntry ufs parentNumber parentInode name newNumber
      pure newNumber

def linkInParent (ufs : Ufs) (parentNumber : ℕ) (name : Str) (targetNumber : ℕ) : Write Unit := do
  let parentInode ← readInodeOr ufs parentNumber (.parentUnreadable parentNumber)
  let targetInode ← readInodeOr ufs targetNumber (.linkTargetUnreadable targetNumber)
  if targetInode.isDirectory then Act.fail .hardLinkDirectory
  else do
    addDirectoryEntry ufs parentNumber parentInode name targetNumber
    writeInodeNlink ufs targetNumber (targetInode.nlink + 1)

def unlinkInParent (ufs : Ufs) (parentNumber : ℕ) (name : Str) : Write ℕ := do
  let parentInode ← readInodeOr ufs parentNumber (.parentUnreadable parentNumber)
  let (targetNumber, targetInode) ← lookupOr ufs parentInode name (.nameMissing name)
  if targetInode.isDirectory then Act.fail (.nameIsDirectory name)
  else do
    deleteDirectoryEntry ufs parentInode name
    dropLink ufs targetNumber targetInode
    pure targetNumber

def rmdirInParent (ufs : Ufs) (parentNumber : ℕ) (name : Str) : Write ℕ := do
  let parentInode ← readInodeOr ufs parentNumber (.parentUnreadable parentNumber)
  let (targetNumber, targetInode) ← lookupOr ufs parentInode name (.nameMissing name)
  if ¬targetInode.isDirectory then Act.fail (.nameNotDirectory name)
  else do
    if ¬(← Act.read fun image => directoryIsEmpty image ufs targetInode) then
      Act.fail (.nameNotEmpty name)
    else do
      dropDirectory ufs parentNumber parentInode targetNumber name
      pure targetNumber

/-- Rewrite the inode of the first live entry `name` in a directory block. -/
def rewriteEntryInode (block : Bytes) (size : ℕ) (name : Str) (inodeNumber : ℕ) :
    Outcome Fault (Option Bytes) :=
  match (iterDirectoryRecords block size).find? fun r => r.inode ≠ 0 ∧ r.name = name with
  | some record => do
      let updated ← patch block record.offset (Bytes.le 4 inodeNumber)
      pure (some updated)
  | none => .ok none

/-- Point ".." of a directory at a new parent. -/
def updateDirectoryDotdot (ufs : Ufs) (dirInode : Inode) (newParentNumber : ℕ) : Write Unit := do
  let size := dirInode.size
  let dirBytes ← Act.read fun image => readInodeBytes image ufs dirInode
  let dataBlocks ← Act.read fun image => inodeDataBlocks image ufs dirInode
  let done ← editFirstBlock ufs dirBytes size dataBlocks
    (fun block span => rewriteEntryInode block span dotdotName newParentNumber)
    (dirBlockOffsets size)
  if done then pure () else Act.fail .dotdotMissing

/-- The second half of `rename_in_parent`: add the new entry, move "..", drop the old entry. -/
def moveEntry (ufs : Ufs) (srcParent : ℕ) (srcName : Str) (srcNumber : ℕ) (srcInode : Inode)
    (dstParent : ℕ) (dstName : Str) : Write Unit := do
  let dstParentInode ← readInodeUnwrap ufs dstParent
  addDirectoryEntry ufs dstParent dstParentInode dstName srcNumber
  if srcInode.isDirectory ∧ srcParent ≠ dstParent then do
    let srcInodeFresh ← readInodeUnwrap ufs srcNumber
    updateDirectoryDotdot ufs srcInodeFresh dstParent
    let sp ← readInodeUnwrap ufs srcParent
    writeInodeNlink ufs srcParent (sp.nlink - 1)
    let dp ← readInodeUnwrap ufs dstParent
    writeInodeNlink ufs dstParent (dp.nlink + 1)
  let srcParentInode ← readInodeUnwrap ufs srcParent
  deleteDirectoryEntry ufs srcParentInode srcName

/-- Rename, replacing an existing target of the same kind. -/
def renameInParent (ufs : Ufs) (srcParent : ℕ) (srcName : Str) (dstParent : ℕ) (dstName : Str) :
    Write Unit :=
  if srcParent = dstParent ∧ srcName = dstName then pure ()
  else do
    let srcParentInode ← readInodeOr ufs srcParent (.sourceParentUnreadable srcParent)
    let (srcNumber, srcInode) ← lookupOr ufs srcParentInode srcName (.sourceNameMissing srcName)
    let dstParentInode ← readInodeOr ufs dstParent (.targetParentUnreadable dstParent)
    match ← Act.read fun image => lookupDirectoryEntry image ufs dstParentInode dstName with
    | none => moveEntry ufs srcParent srcName srcNumber srcInode dstParent dstName
    | some (dstNumber, dstInode) =>
      if dstNumber = srcNumber then pure ()
      else if srcInode.isDirectory ≠ dstInode.isDirectory then Act.fail .crossTypeRename
      else do
        if dstInode.isDirectory then discard (rmdirInParent ufs dstParent dstName)
        else discard (unlinkInParent ufs dstParent dstName)
        moveEntry ufs srcParent srcName srcNumber srcInode dstParent dstName

/-- Truncate or zero-extend an inode. -/
def truncate (ufs : Ufs) (inodeNumber size : ℕ) : Write Unit := do
  let inode ← readInodeOr ufs inodeNumber (.inodeUnreadable inodeNumber)
  if inode.size = size then pure ()
  else do
    let content ← Act.read fun image => readInodeBytes image ufs inode
    -- a vector does not grow past `isize::MAX` bytes
    Act.lift (Outcome.guard (size < 2 ^ 63))
    setInodeContents ufs inodeNumber (content.resize size)

/-! ## Attribute setters -/

def setInodeMode (ufs : Ufs) (inodeNumber mode : ℕ) : Write Unit :=
  putInodeField ufs inodeNumber DiOff.mode (Bytes.le 4 mode)

def setInodeOwner (ufs : Ufs) (inodeNumber uid gid : ℕ) : Write Unit := do
  putInodeField ufs inodeNumber DiOff.suid (Bytes.le 2 uid)
  putInodeField ufs inodeNumber DiOff.sgid (Bytes.le 2 gid)
  putInodeField ufs inodeNumber DiOff.uid (Bytes.le 4 uid)
  putInodeField ufs inodeNumber DiOff.gid (Bytes.le 4 gid)

def setInodeTimes (ufs : Ufs) (inodeNumber : ℕ) (atime mtime ctime : Option ℕ) : Write Unit := do
  let put (field : ℕ) (t : Option ℕ) : Write Unit :=
    match t with
    | some t => writeInodeTime ufs inodeNumber field t
    | none => pure ()
  put DiOff.atime atime
  put DiOff.mtime mtime
  put DiOff.ctime ctime

end UfsFuse
