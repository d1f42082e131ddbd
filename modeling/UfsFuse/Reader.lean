import UfsFuse.Alloc

/-!
# Directory records and the read side

`dir.rs` and `reader.rs`: decoding directory records, reading byte ranges of an inode, listing,
lookup and path resolution.
-/
namespace UfsFuse

/-! Offsets of `struct direct` fields. -/
namespace DirentOff
@[simp, reducible] def ino : ℕ := 0
@[simp, reducible] def reclen : ℕ := 4
@[simp, reducible] def namlen : ℕ := 6
@[simp, reducible] def name : ℕ := 8
end DirentOff

@[simp, reducible] def ufsDirentHeaderSize : ℕ := 8

/-- Record length needed for a name: `(name_len + 1 + 3) & !3` clears the two low bits. -/
def ufsDirsiz (nameLen : ℕ) : ℕ := ufsDirentHeaderSize + (nameLen + 1 + 3) / 4 * 4

structure DirEntryHeader where
  inode : ℕ
  recordLength : ℕ
  nameLength : ℕ
  deriving DecidableEq, Repr

structure DirEntry where
  inode : ℕ
  recordLength : ℕ
  nameLength : ℕ
  name : Str
  offset : ℕ
  deriving DecidableEq, Repr

/-- Decode the header of the record at `offset`, or nothing for a malformed record. Callers pass
a `maxLength` inside the buffer. -/
def decodeDirectoryHeader (bytes : Bytes) (offset maxLength : ℕ) : Option DirEntryHeader :=
  if offset + ufsDirentHeaderSize > maxLength then none
  else
    let inode := bytes.u32 offset
    let recordLength := bytes.u16 (offset + DirentOff.reclen)
    let nameLength := bytes.u16 (offset + DirentOff.namlen)
    if recordLength = 0 ∨ offset + recordLength > maxLength then none
    else if nameLength > 255 ∨ offset + DirentOff.name + nameLength > maxLength then none
    else some { inode, recordLength, nameLength }

/-- Every byte from 0x80 on becomes U+FFFD, three bytes in UTF-8. -/
def decodeAsciiReplace (raw : Bytes) : Str :=
  raw.flatMap fun b => if b < 0x80 then [b] else [0xEF, 0xBF, 0xBD]

def decodeDirectoryEntry (bytes : Bytes) (offset maxLength : ℕ) : Option DirEntry := do
  let header ← decodeDirectoryHeader bytes offset maxLength
  let raw := bytes.slice (offset + DirentOff.name) header.nameLength
  pure ⟨header.inode, header.recordLength, header.nameLength, decodeAsciiReplace raw, offset⟩

/-- The `while` loop of `iter_directory_records`. Record lengths are positive, so one round for
each byte is enough fuel. -/
def iterRecordsFrom (bytes : Bytes) (maxLength : ℕ) : ℕ → ℕ → List DirEntry
  | 0, _ => []
  | fuel + 1, offset =>
      if offset + ufsDirentHeaderSize ≤ maxLength then
        match decodeDirectoryEntry bytes offset maxLength with
        | some entry => entry :: iterRecordsFrom bytes maxLength fuel (offset + entry.recordLength)
        | none => []
      else []

def iterDirectoryRecords (bytes : Bytes) (size : ℕ) : List DirEntry :=
  let maxLength := min bytes.length size
  iterRecordsFrom bytes maxLength maxLength 0

/-! ## Reading -/

/-- One block of `read_data_range`. -/
def readRangeStep (image : Bytes) (ufs : Ufs) (offset endOffset : ℕ) (data : Bytes)
    (entry : ℕ × ℕ) : Outcome Fault Bytes := do
  let (fsBlock, blockIndex) := entry
  let blockSize := ufs.sb.bsize
  let logicalStart := blockIndex * blockSize
  let blockInnerStart := offset - logicalStart
  let blockInnerEnd := min blockSize (endOffset - logicalStart)
  if blockInnerStart ≥ blockInnerEnd then pure data
  else do
    let blockOffset := ufs.sb.dataBlockOffset ufs.startOffset fsBlock
    let part ← getSlice image (blockOffset + blockInnerStart) (blockInnerEnd - blockInnerStart)
    pure (data ++ part)

/-- Read a byte range out of an ordered list of data blocks. -/
def readDataRange (image : Bytes) (ufs : Ufs) (dataBlocks : List ℕ) (offset size : ℕ) :
    Outcome Fault Bytes :=
  if size = 0 then .ok []
  else
    let blockSize := ufs.sb.bsize
    let endOffset := offset + size
    let startBlock := offset / blockSize
    let endBlock := min dataBlocks.length ((endOffset + blockSize - 1) / blockSize)
    Outcome.foldM (readRangeStep image ufs offset endOffset) []
      ((dataBlocks.zipIdx.take endBlock).drop startBlock)

def readInodeBytes (image : Bytes) (ufs : Ufs) (inode : Inode) : Outcome Fault Bytes :=
  if inode.size = 0 then .ok []
  else do
    let blocks ← inodeDataBlocks image ufs inode
    readDataRange image ufs blocks 0 inode.size

def readInodeRange (image : Bytes) (ufs : Ufs) (inode : Inode) (offset size : ℕ) :
    Outcome Fault Bytes :=
  if size = 0 ∨ offset ≥ inode.size then .ok []
  else do
    let clampedSize := min size (inode.size - offset)
    let blocks ← inodeDataBlocks image ufs inode
    readDataRange image ufs blocks offset clampedSize

/-- Offsets of the directory blocks of a directory of `size` bytes. -/
def dirBlockOffsets (size : ℕ) : List ℕ :=
  (List.range ((size + ufsDirblksiz - 1) / ufsDirblksiz)).map (· * ufsDirblksiz)

/-- All records of a directory, with offsets from the start of the directory. -/
def iterInodeDirectoryRecords (image : Bytes) (ufs : Ufs) (inode : Inode) :
    Outcome Fault (List DirEntry) := do
  let directoryBytes ← readInodeBytes image ufs inode
  Outcome.foldM
    (fun records blockOffset => do
      let blockSpan := min ufsDirblksiz (inode.size - blockOffset)
      let blockEnd := min (blockOffset + blockSpan) directoryBytes.length
      Outcome.guard (blockOffset ≤ blockEnd)
      let blockBytes := directoryBytes.slice blockOffset (blockEnd - blockOffset)
      pure (records ++ (iterDirectoryRecords blockBytes blockSpan).map fun record =>
        { record with offset := record.offset + blockOffset }))
    [] (dirBlockOffsets inode.size)

structure DirListEntry where
  name : Str
  inode : ℕ
  size : Option ℕ
  deriving DecidableEq, Repr

/-- Byte order on strings. -/
def strLe : Str → Str → Bool
  | [], _ => true
  | _ :: _, [] => false
  | a :: as, b :: bs => if a = b then strLe as bs else decide (a < b)

/-- Directory listing, sorted by name. -/
def iterDirectoryEntries (image : Bytes) (ufs : Ufs) (inode : Inode) :
    Outcome Fault (List DirListEntry) := do
  let records ← iterInodeDirectoryRecords image ufs inode
  let live := records.filter fun r => r.inode ≠ 0 ∧ r.nameLength > 0 ∧ r.nameLength ≤ 255
  let entries := live.map fun r =>
    ⟨r.name, r.inode, (readInode image ufs r.inode).map Inode.size⟩
  pure (entries.mergeSort fun a b => strLe a.name b.name)

def listRoot (image : Bytes) (ufs : Ufs) : Outcome Fault (List DirListEntry) :=
  match readInode image ufs ufsRootInode with
  | some root => iterDirectoryEntries image ufs root
  | none => .ok []

/-- The record scan of `lookup_directory_entry` in one block: the inode number of the first live
record with this name. -/
def scanBlockFor (block name : Bytes) (span : ℕ) : ℕ → ℕ → Option ℕ
  | 0, _ => none
  | fuel + 1, cursor =>
      if cursor + ufsDirentHeaderSize ≤ span then
        match decodeDirectoryHeader block cursor span with
        | none => none
        | some header =>
            if header.inode ≠ 0 ∧ header.nameLength = name.length ∧
                block.slice (cursor + DirentOff.name) name.length = name then some header.inode
            else scanBlockFor block name span fuel (cursor + header.recordLength)
      else none

/-- The block loop of `lookup_directory_entry`. -/
def lookupLoop (image : Bytes) (ufs : Ufs) (directorySize : ℕ) (dataBlocks : List ℕ) (name : Str) :
    List ℕ → Outcome Fault (Option (ℕ × Inode))
  | [] => .ok none
  | blockOffset :: rest => do
      let span := min ufsDirblksiz (directorySize - blockOffset)
      match dataBlocks[blockOffset / ufs.sb.bsize]? with
      | none => pure none
      | some fsBlock => do
        let backing := ufs.sb.dataBlockOffset ufs.startOffset fsBlock + blockOffset % ufs.sb.bsize
        let block ← getSlice image backing span
        match scanBlockFor block name span span 0 with
        | some number => pure ((readInode image ufs number).map fun child => (number, child))
        | none => lookupLoop image ufs directorySize dataBlocks name rest

/-- Look up a name in a directory inode. -/
def lookupDirectoryEntry (image : Bytes) (ufs : Ufs) (directoryInode : Inode) (entryName : Str) :
    Outcome Fault (Option (ℕ × Inode)) :=
  if directoryInode.size = 0 then .ok none
  else do
    let dataBlocks ← inodeDataBlocks image ufs directoryInode
    lookupLoop image ufs directoryInode.size dataBlocks entryName
      (dirBlockOffsets directoryInode.size)

/-- `path.split('/').filter(|p| !p.is_empty())`. -/
def pathParts (path : Str) : List Str := (path.splitOn 47).filter (· ≠ [])

/-- The walk of `resolve_path` from one inode. -/
def walkParts (image : Bytes) (ufs : Ufs) : List Str → ℕ × Inode → Outcome Fault (Option (ℕ × Inode))
  | [], current => .ok (some current)
  | part :: rest, current => do
      match ← lookupDirectoryEntry image ufs current.2 part with
      | none => pure none
      | some next => walkParts image ufs rest next

/-- Resolve a path from the root directory. -/
def resolvePath (image : Bytes) (ufs : Ufs) (path : Str) : Outcome Fault (Option (ℕ × Inode)) :=
  match readInode image ufs ufsRootInode with
  | none => .ok none
  | some root => walkParts image ufs (pathParts path) (ufsRootInode, root)

def readSymlinkTarget (image : Bytes) (ufs : Ufs) (inode : Inode) : Outcome Fault Str := do
  let bytes ← readInodeBytes image ufs inode
  pure (decodeAsciiReplace bytes)

end UfsFuse
