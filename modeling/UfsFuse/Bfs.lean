import UfsFuse.Inspect

/-!
# The boot file system

`svr4-bfs`: a superblock, a table of 64-byte inode slots, a flat root directory and contiguous
files. The formatter works on the slice as a buffer of its own; offsets are relative to it.
-/
namespace UfsFuse
namespace BootFs

@[simp, reducible] def bfsMagic : ℕ := 0x1BADFACE
@[simp, reducible] def bfsRootInode : ℕ := 2
@[simp, reducible] def bfsSuperSize : ℕ := 512
@[simp, reducible] def bfsSanitywOffset : ℕ := 12
@[simp, reducible] def bfsDirentSize : ℕ := 64
@[simp, reducible] def bfsLdirSize : ℕ := 16
@[simp, reducible] def bfsVreg : ℕ := 1
@[simp, reducible] def bfsVdir : ℕ := 2
@[simp, reducible] def bfsMaxName : ℕ := 14

/-! Offsets of the fields of an inode slot; the attributes start at 16. -/
namespace Dirent
@[simp, reducible] def ino : ℕ := 0
@[simp, reducible] def sblock : ℕ := 4
@[simp, reducible] def eblock : ℕ := 8
@[simp, reducible] def eoffset : ℕ := 12
@[simp, reducible] def vattr : ℕ := 16
end Dirent

inductive BfsError where
  /-- error: bfs slice is too small to hold a filesystem image -/
  | tooSmall
  /-- error: bfs file name {name:?} must be a non-empty root entry name -/
  | nameNotRootEntry (name : Str)
  /-- error: bfs file name {name:?} exceeds the 14-character BFS limit -/
  | nameTooLong (name : Str)
  /-- error: bfs file name {name:?} must be ASCII -/
  | nameNotAscii (name : Str)
  /-- error: duplicate bfs file name {name:?} -/
  | duplicateName (name : Str)
  /-- error: bfs slice is too small for the requested dirent table and root directory -/
  | tableTooLarge
  /-- error: bfs slice is too small for file {name:?} -/
  | fileTooLarge (name : Str)
  deriving DecidableEq, Repr

/-- `value.div_ceil(alignment) * alignment`. -/
def roundUp (value alignment : ℕ) : ℕ := (value + alignment - 1) / alignment * alignment

/-- `buf[off..off + src.len()].copy_from_slice(src)`. -/
def put (buf : Bytes) (off : ℕ) (src : Bytes) : Outcome BfsError Bytes := do
  Outcome.guard (off + src.length ≤ buf.length)
  pure (buf.overlay off src)

/-- An `i32` as the `u32` with the same bits. -/
def bitsOf (value : ℤ) : ℕ := (value % 2 ^ 32).toNat

/-- Several puts, in order. -/
def putAll : List (ℕ × Bytes) → Bytes → Outcome BfsError Bytes
  | [], buf => .ok buf
  | (off, src) :: rest, buf => do
      let buf ← put buf off src
      putAll rest buf

/-- `put_vattr`: type, mode, uid, gid, link count and the three times. -/
def vattrFields (pos fileType mode nlink : ℕ) (timestamp : ℤ) : List (ℕ × Bytes) :=
  [(pos, Bytes.le 4 fileType), (pos + 4, Bytes.le 4 mode), (pos + 8, Bytes.le 4 0),
    (pos + 12, Bytes.le 4 0), (pos + 16, Bytes.le 4 nlink), (pos + 20, Bytes.le 4 (bitsOf timestamp)),
    (pos + 24, Bytes.le 4 (bitsOf timestamp)), (pos + 28, Bytes.le 4 (bitsOf timestamp))]

/-- The extent of an inode: first and last sector, and the offset of the last byte. -/
structure Extent where
  startBlock : ℕ
  endBlock : ℕ
  endOffset : ℕ
  deriving DecidableEq, Repr

def putDirent (buf : Bytes) (pos inodeNumber : ℕ) (extent : Extent) (fileType mode nlink : ℕ)
    (timestamp : ℤ) : Outcome BfsError Bytes :=
  putAll
    ([(pos + Dirent.ino, Bytes.le 2 inodeNumber), (pos + Dirent.sblock, Bytes.le 4 extent.startBlock),
      (pos + Dirent.eblock, Bytes.le 4 extent.endBlock),
      (pos + Dirent.eoffset, Bytes.le 4 extent.endOffset)] ++
      vattrFields (pos + Dirent.vattr) fileType mode nlink timestamp)
    buf

/-- The name checks, in order; `seen` holds the names so far. -/
def checkNames : List Str → List (Str × Bytes) → Outcome BfsError Unit
  | _, [] => .ok ()
  | seen, (name, _) :: rest =>
      if name = [] ∨ 47 ∈ name then .err (.nameNotRootEntry name)
      else if name.length > bfsMaxName then .err (.nameTooLong name)
      else if ¬name.all (· < 0x80) then .err (.nameNotAscii name)
      else if name ∈ seen then .err (.duplicateName name)
      else checkNames (seen ++ [name]) rest

/-- Where a file goes. -/
structure Layout where
  inode : ℕ
  name : Str
  data : Bytes
  start : ℕ
  endBlock : ℕ
  endOffset : ℕ
  deriving DecidableEq, Repr

/-- The extent loop; `current` is the first free byte. -/
def layoutFiles (sizeBytes : ℕ) : ℕ → ℕ → List (Str × Bytes) → Outcome BfsError (List Layout)
  | _, _, [] => .ok []
  | index, current, (name, data) :: rest =>
      let inode := bfsRootInode + index % 2 ^ 16 + 1
      if data = [] then do
        let layouts ← layoutFiles sizeBytes (index + 1) current rest
        pure (⟨inode, name, data, 0, 0, 0⟩ :: layouts)
      else
        let allocation := roundUp data.length sectorSize
        if current + allocation > sizeBytes then .err (.fileTooLarge name)
        else do
          let endBlock := ((current + allocation) / sectorSize - 1) % 2 ^ 32
          let endOffset := (current + data.length - 1) % 2 ^ 32
          let layouts ← layoutFiles sizeBytes (index + 1) (current + allocation) rest
          pure (⟨inode, name, data, current, endBlock, endOffset⟩ :: layouts)

/-- One round of the writing loop: the inode, the data, the directory entry. -/
def writeFile (timestamp : ℤ) (image : Bytes) (index directoryOffset : ℕ) (layout : Layout) :
    Outcome BfsError Bytes := do
  let inodeOffset := bfsSuperSize + (index + 1) * bfsDirentSize
  let image ←
    if layout.data = [] then
      putDirent image inodeOffset layout.inode ⟨0, 0, 0⟩ bfsVreg 0o644 1 timestamp
    else do
      let startBlock := layout.start / sectorSize % 2 ^ 32
      let image ← put image layout.start layout.data
      putDirent image inodeOffset layout.inode ⟨startBlock, layout.endBlock, layout.endOffset⟩
        bfsVreg 0o644 1 timestamp
  putAll
    [(directoryOffset, Bytes.le 2 layout.inode), (directoryOffset + 2, layout.name),
      (directoryOffset + 2 + layout.name.length,
        Bytes.zeros (bfsLdirSize - (2 + layout.name.length)))]
    image

def writeFiles (timestamp : ℤ) : ℕ → ℕ → List Layout → Bytes → Outcome BfsError Bytes
  | _, _, [], image => .ok image
  | index, directoryOffset, layout :: rest, image => do
      let image ← writeFile timestamp image index directoryOffset layout
      writeFiles timestamp (index + 1) (directoryOffset + bfsLdirSize) rest image

/-- The superblock and the root inode on a cleared slice. -/
def writeSuper (sizeBytes dataStart rootDirBytes rootDirAlloc : ℕ) (timestamp : ℤ) :
    Outcome BfsError Bytes := do
  let image ← putAll
    [(0, Bytes.le 4 bfsMagic), (4, Bytes.le 4 dataStart), (8, Bytes.le 4 (sizeBytes - 1)),
      (bfsSanitywOffset, Bytes.le 4 0xFFFFFFFF), (bfsSanitywOffset + 4, Bytes.le 4 0xFFFFFFFF),
      (bfsSanitywOffset + 8, Bytes.le 4 0xFFFFFFFF), (bfsSanitywOffset + 12, Bytes.le 4 0xFFFFFFFF)]
    (Bytes.zeros sizeBytes)
  let rootStartBlock := dataStart / sectorSize % 2 ^ 32
  let rootEndBlock := ((dataStart + rootDirAlloc) / sectorSize - 1) % 2 ^ 32
  let rootEndOffset :=
    if rootDirBytes ≠ 0 then (dataStart + rootDirBytes - 1) % 2 ^ 32 else (dataStart - 1) % 2 ^ 32
  putDirent image bfsSuperSize bfsRootInode ⟨rootStartBlock, rootEndBlock, rootEndOffset⟩ bfsVdir
    0o755 2 timestamp

/-- Lay out a filesystem of `sizeBytes` holding `files` at byte `fsStart` of the image. Slot counts
are far below the `usize` range. -/
def format (fsStart sizeBytes : ℕ) (files : List (Str × Bytes)) (direntSlots : Option ℕ)
    (timestamp : ℤ) : Act BfsError Bytes Unit :=
  if sizeBytes < bfsSuperSize + sectorSize then Act.fail .tooSmall
  else do
    Act.lift (checkNames [] files)
    let requiredSlots := files.length + 1
    let totalSlots := max requiredSlots (direntSlots.getD (max 16 requiredSlots))
    let dataStart := roundUp (bfsSuperSize + totalSlots * bfsDirentSize) sectorSize
    let rootDirBytes := files.length * bfsLdirSize
    let rootDirAlloc := max sectorSize (roundUp (max rootDirBytes 1) sectorSize)
    if dataStart + rootDirAlloc > sizeBytes then Act.fail .tableTooLarge
    else do
      let layouts ← Act.lift (layoutFiles sizeBytes 0 (dataStart + rootDirAlloc) files)
      Act.update fun out => do
        Outcome.guard (fsStart + sizeBytes ≤ out.length)
        let image ← writeSuper sizeBytes dataStart rootDirBytes rootDirAlloc timestamp
        let image ← writeFiles timestamp 0 dataStart layouts image
        pure (out.overlay fsStart image)

/-! ## Reading -/

/-- A detected filesystem. -/
structure Bfs where
  startOffset : ℕ
  dataStart : ℕ
  dataEnd : ℕ
  deriving DecidableEq, Repr

structure BfsEntry where
  name : Str
  inode : ℕ
  size : ℕ
  deriving DecidableEq, Repr

def detectAtStart (image : Bytes) (fsStart : ℕ) : Option Bfs :=
  if fsStart + bfsSuperSize > image.length then none
  else if image.u32 fsStart ≠ bfsMagic then none
  else
    let dataStart := image.u32 (fsStart + 4)
    let dataEnd := image.u32 (fsStart + 8)
    if dataStart < bfsSuperSize ∨ dataEnd < dataStart then none
    else some ⟨fsStart, dataStart, dataEnd⟩

/-- The extent in the slot of `inodeNumber`, if the slot carries that number. -/
def readInode (image : Bytes) (bfs : Bfs) (inodeNumber : ℕ) : Option Extent :=
  if inodeNumber < bfsRootInode then none
  else
    let slot := inodeNumber - bfsRootInode
    let pos := bfs.startOffset + bfsSuperSize + slot * bfsDirentSize
    if pos + bfsDirentSize > image.length then none
    else if image.u16 (pos + Dirent.ino) ≠ inodeNumber then none
    else some ⟨image.u32 (pos + Dirent.sblock), image.u32 (pos + Dirent.eblock),
      image.u32 (pos + Dirent.eoffset)⟩

def inodeSize (extent : Extent) : ℕ :=
  if extent.startBlock = 0 then 0
  else
    let start := extent.startBlock * sectorSize
    if extent.endOffset ≥ start then extent.endOffset - start + 1 else 0

/-- Whether `b` continues a UTF-8 sequence, within the bounds a lead byte sets for it. -/
def utf8Continues (lo hi : UInt8) : Option UInt8 → Bool
  | some b => decide (lo ≤ b ∧ b ≤ hi)
  | none => false

/-- Length of the longest prefix that is a UTF-8 sequence or the start of one, and whether it is
complete. -/
def utf8Prefix (lead : UInt8) (rest : Bytes) : ℕ × Bool :=
  let next := fun lo hi i => utf8Continues lo hi rest[i]?
  if lead < 0x80 then (1, true)
  else if 0xC2 ≤ lead ∧ lead ≤ 0xDF then
    if next 0x80 0xBF 0 then (2, true) else (1, false)
  else if 0xE0 ≤ lead ∧ lead ≤ 0xEF then
    let lo := if lead = 0xE0 then 0xA0 else 0x80
    let hi := if lead = 0xED then 0x9F else 0xBF
    if next lo hi 0 then (if next 0x80 0xBF 1 then (3, true) else (2, false)) else (1, false)
  else if 0xF0 ≤ lead ∧ lead ≤ 0xF4 then
    let lo := if lead = 0xF0 then 0x90 else 0x80
    let hi := if lead = 0xF4 then 0x8F else 0xBF
    if next lo hi 0 then
      if next 0x80 0xBF 1 then (if next 0x80 0xBF 2 then (4, true) else (3, false)) else (2, false)
    else (1, false)
  else (1, false)

/-- The loop of `String::from_utf8_lossy`; every step takes at least one byte. -/
def fromUtf8LossyLoop : ℕ → Bytes → Str
  | 0, _ => []
  | _ + 1, [] => []
  | fuel + 1, lead :: rest =>
      let (len, complete) := utf8Prefix lead rest
      (if complete then (lead :: rest).take len else [0xEF, 0xBF, 0xBD]) ++
        fromUtf8LossyLoop fuel ((lead :: rest).drop len)

/-- `String::from_utf8_lossy`: every maximal ill-formed part becomes U+FFFD. -/
def fromUtf8Lossy (raw : Bytes) : Str := fromUtf8LossyLoop raw.length raw

/-- The `while` loop of `list_root`, one round for each 16 bytes. -/
def listFrom (image : Bytes) (bfs : Bfs) (dirStart : ℕ) : ℕ → ℕ → List BfsEntry
  | 0, _ => []
  | rounds + 1, offset =>
      let pos := dirStart + offset
      if pos + bfsLdirSize > image.length then []
      else
        let ino := image.u16 pos
        let rest := listFrom image bfs dirStart rounds (offset + bfsLdirSize)
        if ino ≠ 0 then
          let raw := image.slice (pos + 2) (bfsLdirSize - 2)
          let name := fromUtf8Lossy (raw.takeWhile (· ≠ 0))
          let size := ((readInode image bfs ino).map inodeSize).getD 0
          ⟨name, ino, size⟩ :: rest
        else rest

def listRoot (image : Bytes) (bfs : Bfs) : List BfsEntry :=
  match readInode image bfs bfsRootInode with
  | none => []
  | some extent =>
    let dirStart := bfs.startOffset + extent.startBlock * sectorSize
    listFrom image bfs dirStart (inodeSize extent / bfsLdirSize) 0

def readFile (image : Bytes) (bfs : Bfs) (name : Str) : Option Bytes := do
  let entry ← (listRoot image bfs).find? fun e => e.name = name
  let extent ← readInode image bfs entry.inode
  let size := inodeSize extent
  let start := bfs.startOffset + extent.startBlock * sectorSize
  if start + size > image.length then none else some (image.slice start size)

end BootFs
end UfsFuse
