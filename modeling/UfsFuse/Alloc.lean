import UfsFuse.Inode

/-!
# Allocation

`alloc.rs`: the bitmaps of a cylinder-group block, inode, block and fragment allocation with the
incremental counts, and the recomputation of the summaries. A cylinder-group block is read into
a buffer, changed there and written back, as in the source.
-/
namespace UfsFuse

/-- A call of the write path: it changes the image and may return an error. -/
abbrev Write (α : Type) : Type := Act Fault Bytes α

/-! Offsets of `struct cg` fields. -/
namespace CgOff
@[simp, reducible] def time : ℕ := 8
@[simp, reducible] def cgx : ℕ := 12
@[simp, reducible] def ncyl : ℕ := 16
@[simp, reducible] def niblk : ℕ := 18
@[simp, reducible] def ndblk : ℕ := 20
@[simp, reducible] def ndir : ℕ := 24
@[simp, reducible] def nbfree : ℕ := 28
@[simp, reducible] def nifree : ℕ := 32
@[simp, reducible] def nffree : ℕ := 36
@[simp, reducible] def rotor : ℕ := 40
@[simp, reducible] def frotor : ℕ := 44
@[simp, reducible] def irotor : ℕ := 48
@[simp, reducible] def frsum : ℕ := 52
@[simp, reducible] def btot : ℕ := 84
@[simp, reducible] def b : ℕ := 212
@[simp, reducible] def iused : ℕ := 724
@[simp, reducible] def magic : ℕ := 980
@[simp, reducible] def free : ℕ := 984
end CgOff

/-- `image[off..off + src.len()].copy_from_slice(src)`. -/
def putSlice (off : ℕ) (src : Bytes) : Write Unit := Act.update fun image => do
  Outcome.guard (off + src.length ≤ image.length)
  pure (image.overlay off src)

/-! ## Bitmaps -/

/-- Bit `index` of the bit array that starts at byte `base`. -/
def bitAt (cg : Bytes) (base index : ℕ) : Bool := (cg.byte (base + index / nbby)).toNat.testBit (index % nbby)

/-- Set or clear bit `index` of the bit array at `base`: `|= mask` or `&= !mask`. -/
def setBitAt (cg : Bytes) (base index : ℕ) (value : Bool) : Bytes :=
  let old := cg.byte (base + index / nbby)
  let mask := UInt8.ofNat (1 <<< (index % nbby))
  cg.overlay (base + index / nbby) [if value then old ||| mask else old &&& ~~~mask]

def isFragFree (cg : Bytes) (fragIndex : ℕ) : Outcome Fault Bool := do
  Outcome.guard (CgOff.free + fragIndex / nbby < cg.length)
  pure (bitAt cg CgOff.free fragIndex)

def setFragState (cg : Bytes) (fragIndex : ℕ) (free : Bool) : Outcome Fault Bytes := do
  Outcome.guard (CgOff.free + fragIndex / nbby < cg.length)
  pure (setBitAt cg CgOff.free fragIndex free)

def isInodeUsed (cg : Bytes) (inodeIndex : ℕ) : Outcome Fault Bool := do
  Outcome.guard (CgOff.iused + inodeIndex / nbby < cg.length)
  pure (bitAt cg CgOff.iused inodeIndex)

def setInodeState (cg : Bytes) (inodeIndex : ℕ) (used : Bool) : Outcome Fault Bytes := do
  Outcome.guard (CgOff.iused + inodeIndex / nbby < cg.length)
  pure (setBitAt cg CgOff.iused inodeIndex used)

/-- `(0..count).all(|o| is_frag_free(cg, base + o))`. -/
def allFragsFree (cg : Bytes) (base count : ℕ) : Outcome Fault Bool :=
  Outcome.allM (fun o => isFragFree cg (base + o)) (List.range count)

/-- `for o in 0..count { set_frag_state(cg, base + o, free) }`. -/
def setFragRun (cg : Bytes) (base count : ℕ) (free : Bool) : Outcome Fault Bytes :=
  Outcome.foldM (fun cg o => setFragState cg (base + o) free) cg (List.range count)

/-- The window of free bits that starts at `fragIndex`. The bytes of the window are or-ed
together at byte positions, so they make one little-endian number. -/
def fragBlockFreeBits (cg : Bytes) (fragIndex fragsPerBlock : ℕ) : Outcome Fault ℕ :=
  if fragsPerBlock = 0 then .ok 0
  else do
    let bitOffset := fragIndex % nbby
    let byteOffset := CgOff.free + fragIndex / nbby
    let bytesToCover := (bitOffset + fragsPerBlock + nbby - 1) / nbby
    let window ← getSlice cg byteOffset bytesToCover
    pure ((Bytes.leNat window >>> bitOffset) &&& ((1 <<< fragsPerBlock) - 1))

/-! ## Cylinder-group blocks -/

def cgBlockOffset (ufs : Ufs) (cg : ℕ) : ℕ := ufs.startOffset + ufs.sb.fsbtobytes (ufs.sb.cgtod cg)

def readCgBlock (image : Bytes) (ufs : Ufs) (cg : ℕ) : Outcome Fault Bytes :=
  getSlice image (cgBlockOffset ufs cg) ufs.sb.bsize

def writeCgBlock (ufs : Ufs) (cg : ℕ) (cgBytes : Bytes) : Write Unit :=
  putSlice (cgBlockOffset ufs cg) cgBytes

/-- Number of data fragments in cylinder group `cg`. -/
def cgDataFragCount (ufs : Ufs) (cg : ℕ) : ℕ :=
  let fragsPerGroup := ufs.sb.fpg
  let totalDataFrags := if ufs.sb.dsize ≠ 0 then ufs.sb.dsize else fragsPerGroup * ufs.sb.ncg
  min fragsPerGroup (totalDataFrags - cg * fragsPerGroup)

def looksLikePristineCg (cg : Bytes) : Bool := cg.all (· == 0)

/-- Number of cylinders recorded in the header of group `cg`. -/
def cgCylinders (sb : Superblock) (cg : ℕ) : ℕ :=
  if sb.cpg > 0 then (if cg + 1 = sb.ncg then sb.ncyl % sb.cpg else sb.cpg) else 0

/-- Lay out a never-written cylinder group. -/
def initializePristineCg (ufs : Ufs) (cg : ℕ) : Write Bytes := do
  let sb := ufs.sb
  let cgNdblk := cgDataFragCount ufs cg
  let dataStartFrag := sb.cgdmin cg % sb.fpg
  let freeFragments := cgNdblk - dataStartFrag
  let freeBlocks := freeFragments / sb.frag
  let freeFragmentRemainder := freeFragments % sb.frag
  let initialNifree := sb.ipg - if cg = 0 then 2 else 0
  let header := Bytes.zeros sb.bsize
    |>.putU32 CgOff.cgx cg
    |>.putU16 CgOff.ncyl (cgCylinders sb cg)
    |>.putU16 CgOff.niblk sb.ipg
    |>.putU32 CgOff.ndblk cgNdblk
    |>.putU32 CgOff.ndir 0
    |>.putU32 CgOff.nbfree freeBlocks
    |>.putU32 CgOff.nifree initialNifree
    |>.putU32 CgOff.nffree freeFragmentRemainder
    |>.putU32 CgOff.irotor 0
    |>.putU32 CgOff.magic ufsCgMagic
  -- inodes 0 and 1 are reserved in the first group
  let withReserved ← Act.lift (if cg = 0 then do
      let cgBytes ← setInodeState header 0 true
      setInodeState cgBytes 1 true
    else pure header)
  let cgBytes ← Act.lift (setFragRun withReserved dataStartFrag (cgNdblk - dataStartFrag) true)
  writeCgBlock ufs cg cgBytes
  pure cgBytes

def readAllocatableCgBlock (ufs : Ufs) (cg : ℕ) : Write Bytes := do
  let cgBytes ← Act.read fun image => readCgBlock image ufs cg
  if cgBytes.u32 CgOff.magic = ufsCgMagic then pure cgBytes
  else if looksLikePristineCg cgBytes then initializePristineCg ufs cg
  else pure cgBytes

/-! ## Incremental counts -/

/-- `put_u32(buf, offset, (current + delta) as u32)`. -/
def adjustU32At (buf : Bytes) (offset : ℕ) (delta : ℤ) : Bytes :=
  buf.putU32 offset (((buf.u32 offset : ℤ) + delta) % 2 ^ 32).toNat

/-- Add `delta` to the `cstotal` field at `field`. -/
def adjustSuperblock (ufs : Ufs) (field : ℕ) (delta : ℤ) : Write Unit := Act.update fun image => do
  Outcome.guard (ufs.superOffset + field + 4 ≤ image.length)
  pure (adjustU32At image (ufs.superOffset + field) delta)

def adjustSuperblockFreeBlocks (ufs : Ufs) (delta : ℤ) : Write Unit :=
  adjustSuperblock ufs FsOff.cstotalNbfree delta

def adjustSuperblockFreeInodes (ufs : Ufs) (delta : ℤ) : Write Unit :=
  adjustSuperblock ufs FsOff.cstotalNifree delta

def adjustSuperblockDirectoryCount (ufs : Ufs) (delta : ℤ) : Write Unit :=
  adjustSuperblock ufs FsOff.cstotalNdir delta

def adjustCgFreeBlocks (cg : Bytes) (delta : ℤ) : Bytes := adjustU32At cg CgOff.nbfree delta
def adjustCgFreeInodes (cg : Bytes) (delta : ℤ) : Bytes := adjustU32At cg CgOff.nifree delta
def adjustCgDirectoryCount (cg : Bytes) (delta : ℤ) : Bytes := adjustU32At cg CgOff.ndir delta

/-! ## Inodes -/

/-- First candidate whose bit in the inode map is clear. -/
def firstUnusedInode (cg : Bytes) : List ℕ → Outcome Fault (Option ℕ)
  | [] => .ok none
  | candidate :: rest => do
      if ← isInodeUsed cg candidate then firstUnusedInode cg rest else pure (some candidate)

/-- The inode chosen in a group: the preferred one on the first attempt, else the first free one
from the rotor on, wrapping around. -/
def chooseInode (sb : Superblock) (cg : Bytes) (preferred : Option ℕ) : Outcome Fault (Option ℕ) := do
  let startInode := cg.u32 CgOff.irotor % sb.ipg
  let scan := firstUnusedInode cg ((List.range sb.ipg).map fun offset => (startInode + offset) % sb.ipg)
  match preferred with
  | none => scan
  | some pref => do if ← isInodeUsed cg pref then scan else pure (some pref)

/-- One round of the group loop of `allocate_inode`. -/
def allocateInodeIn (ufs : Ufs) (preferred : Option ℕ) (directory : Bool) (cg : ℕ) :
    Write (Option ℕ) := do
  let sb := ufs.sb
  let cgBytes ← readAllocatableCgBlock ufs cg
  if cgBytes.u32 CgOff.magic ≠ ufsCgMagic then pure none
  else if cgBytes.u32 CgOff.nifree = 0 then pure none
  else do
    match ← Act.lift (chooseInode sb cgBytes preferred) with
    | none => pure none
    | some localInode => do
      let cgBytes ← Act.lift (setInodeState cgBytes localInode true)
      let cgBytes := cgBytes.putU32 CgOff.irotor localInode
      let cgBytes := adjustCgFreeInodes cgBytes (-1)
      let cgBytes := if directory then adjustCgDirectoryCount cgBytes 1 else cgBytes
      writeCgBlock ufs cg cgBytes
      adjustSuperblockFreeInodes ufs (-1)
      if directory then adjustSuperblockDirectoryCount ufs 1
      pure (some (cg * sb.ipg + localInode))

/-- Allocate a free inode, preferring the group of `preferredInode`. -/
def allocateInode (ufs : Ufs) (preferredInode : Option ℕ) (directory : Bool) : Write ℕ := do
  let sb := ufs.sb
  let totalCg := sb.ncg
  let startCg := (preferredInode.map sb.itog).getD 0
  let preferredLocal := preferredInode.map (· % sb.ipg)
  let found ← Act.firstSome
    (fun attempt => allocateInodeIn ufs (if attempt = 0 then preferredLocal else none) directory
      ((startCg + attempt) % totalCg))
    (List.range totalCg)
  match found with
  | some inode => pure inode
  | none => Act.fail .noFreeInodes

def freeInode (ufs : Ufs) (inodeNumber : ℕ) (directory : Bool) : Write Unit := do
  let sb := ufs.sb
  let cg := sb.itog inodeNumber
  let localInode := inodeNumber % sb.ipg
  let cgBytes ← Act.read fun image => readCgBlock image ufs cg
  if cgBytes.u32 CgOff.magic ≠ ufsCgMagic then Act.fail (.invalidCgFreeingInode cg inodeNumber)
  else if ¬ (← Act.lift (isInodeUsed cgBytes localInode)) then
    Act.fail (.inodeAlreadyFree inodeNumber)
  else do
    let cgBytes ← Act.lift (setInodeState cgBytes localInode false)
    let cgBytes := adjustCgFreeInodes cgBytes 1
    let cgBytes := if directory then adjustCgDirectoryCount cgBytes (-1) else cgBytes
    writeCgBlock ufs cg cgBytes
    adjustSuperblockFreeInodes ufs 1
    if directory then adjustSuperblockDirectoryCount ufs (-1)

/-! ## Blocks and fragments -/

/-- The `while frag_index < cg_ndblk - frags_per_block + 1` scan: the first aligned block from
`fragIndex` on whose fragments are all free. `cgNdblk + 1` rounds are enough fuel. -/
def searchFreeBlock (cg : Bytes) (cgNdblk fragsPerBlock : ℕ) : ℕ → ℕ → Outcome Fault (Option ℕ)
  | 0, _ => .ok none
  | fuel + 1, fragIndex =>
      if fragIndex + fragsPerBlock < cgNdblk + 1 then do
        if ← allFragsFree cg fragIndex fragsPerBlock then pure (some fragIndex)
        else searchFreeBlock cg cgNdblk fragsPerBlock fuel (fragIndex + fragsPerBlock)
      else pure none

/-- One round of the group loop shared by `allocate_block` and `allocate_fragments`: take the
first `count` fragments of a free block and zero `bytes` bytes of it. -/
def allocateRunIn (ufs : Ufs) (count bytes cg : ℕ) : Write (Option ℕ) := do
  let sb := ufs.sb
  let cgBytes ← readAllocatableCgBlock ufs cg
  if cgBytes.u32 CgOff.magic ≠ ufsCgMagic then pure none
  else do
    let cgNdblk := cgBytes.u32 CgOff.ndblk
    let dataStartFrag := sb.cgdmin cg % sb.fpg
    match ← Act.lift (searchFreeBlock cgBytes cgNdblk sb.frag (cgNdblk + 1) dataStartFrag) with
    | none => pure none
    | some fragIndex => do
      let cgBytes ← Act.lift (setFragRun cgBytes fragIndex count false)
      let cgBytes := adjustCgFreeBlocks cgBytes (-1)
      writeCgBlock ufs cg cgBytes
      adjustSuperblockFreeBlocks ufs (-1)
      let fsBlock := sb.cgbase cg + fragIndex
      putSlice (sb.dataBlockOffset ufs.startOffset fsBlock) (Bytes.zeros bytes)
      pure (some fsBlock)

/-- The group loop, from the owner's group on. -/
def allocateRun (ufs : Ufs) (inodeNumber count bytes : ℕ) (failure : Fault) : Write ℕ := do
  let sb := ufs.sb
  let startCg := sb.itog inodeNumber
  let totalCg := sb.ncg
  let found ← Act.firstSome
    (fun attempt => allocateRunIn ufs count bytes ((startCg + attempt) % totalCg))
    (List.range totalCg)
  match found with
  | some fsBlock => pure fsBlock
  | none => Act.fail failure

/-- Allocate one full zeroed block. -/
def allocateBlock (ufs : Ufs) (inodeNumber : ℕ) : Write ℕ :=
  allocateRun ufs inodeNumber ufs.sb.frag ufs.sb.bsize .noFreeBlocks

/-- Allocate `allocationBytes` of zeroed fragments at the head of a free block. -/
def allocateFragments (ufs : Ufs) (inodeNumber allocationBytes : ℕ) : Write ℕ := do
  let fragsNeeded := allocationBytes / ufs.sb.fsize
  if fragsNeeded = 0 ∨ allocationBytes ≥ ufs.sb.bsize then
    Act.fail (.invalidFragmentRequest allocationBytes)
  else allocateRun ufs inodeNumber fragsNeeded allocationBytes .noFreeFragments

def allocateAllocation (ufs : Ufs) (inodeNumber allocationBytes : ℕ) : Write ℕ :=
  if allocationBytes = 0 then Act.fail .allocationNotPositive
  else if allocationBytes = ufs.sb.bsize then allocateBlock ufs inodeNumber
  else allocateFragments ufs inodeNumber allocationBytes

def freeBlock (ufs : Ufs) (fsBlock : ℕ) : Write Unit := do
  let sb := ufs.sb
  let cg := fsBlock / sb.fpg
  let fragIndex := fsBlock % sb.fpg
  let cgBytes ← Act.read fun image => readCgBlock image ufs cg
  if cgBytes.u32 CgOff.magic ≠ ufsCgMagic then Act.fail (.invalidCgFreeingBlock cg fsBlock)
  else do
    let cgBytes ← Act.lift (setFragRun cgBytes fragIndex sb.frag true)
    let cgBytes := adjustCgFreeBlocks cgBytes 1
    writeCgBlock ufs cg cgBytes
    adjustSuperblockFreeBlocks ufs 1

/-- Free a block or a fragment run; a block that becomes whole again counts as free. -/
def freeAllocation (ufs : Ufs) (fsBlock allocationBytes : ℕ) : Write Unit :=
  if allocationBytes = 0 then pure ()
  else if allocationBytes = ufs.sb.bsize then freeBlock ufs fsBlock
  else do
    let sb := ufs.sb
    let fragsToFree := allocationBytes / sb.fsize
    let cg := fsBlock / sb.fpg
    let fragIndex := fsBlock % sb.fpg
    let cgBytes ← Act.read fun image => readCgBlock image ufs cg
    if cgBytes.u32 CgOff.magic ≠ ufsCgMagic then Act.fail (.invalidCgFreeingAllocation cg fsBlock)
    else do
      let cgBytes ← Act.lift (setFragRun cgBytes fragIndex fragsToFree true)
      let blockBase := fragIndex - fragIndex % sb.frag
      if ← Act.lift (allFragsFree cgBytes blockBase sb.frag) then do
        adjustSuperblockFreeBlocks ufs 1
        writeCgBlock ufs cg (adjustCgFreeBlocks cgBytes 1)
      else writeCgBlock ufs cg cgBytes

/-! ## Summary recomputation -/

def cbtocylno (sb : Superblock) (fragBase : ℕ) : ℕ :=
  if sb.spc = 0 ∨ sb.nspf = 0 then 0 else fragBase * sb.nspf / sb.spc

def cbtorpos (sb : Superblock) (fragBase : ℕ) : ℕ :=
  if sb.spc = 0 ∨ sb.nsect = 0 ∨ sb.nspf = 0 then 0
  else fragBase * sb.nspf % sb.spc % sb.nsect * nrpos / sb.nsect

/-- Add one to `frsum[k]` for every maximal run of `k` free flags that the table can hold. -/
def accountFragmentRun (freeFlags : List Bool) (frsum : List ℕ) : List ℕ :=
  (freeFlags ++ [false]).foldl
    (fun (st : ℕ × List ℕ) free =>
      if free then (st.1 + 1, st.2)
      else (0, if 0 < st.1 ∧ st.1 < st.2.length then st.2.modify st.1 (· + 1) else st.2))
    (0, frsum) |>.2

def csumOffset (ufs : Ufs) (cg : ℕ) : Option ℕ :=
  if ufs.sb.csaddr = 0 ∨ ufs.sb.cssize < (cg + 1) * ufsCsumSize then none
  else some (ufs.startOffset + ufs.sb.fsbtobytes ufs.sb.csaddr + cg * ufsCsumSize)

/-- The counts of a `struct csum`. -/
structure Csum where
  ndir : ℕ
  nbfree : ℕ
  nifree : ℕ
  nffree : ℕ
  deriving DecidableEq, Repr

/-- What the fragment scan of `expected_cg_header` accumulates. -/
structure FragScan where
  nbfree : ℕ
  nffree : ℕ
  frsum : List ℕ
  btot : List ℕ
  bpos : List ℕ

/-- One aligned window of the scan. -/
def scanWindow (sb : Superblock) (cgBytes : Bytes) (acc : FragScan) (fragBase : ℕ) :
    Outcome Fault FragScan := do
  let freeBits ← fragBlockFreeBits cgBytes fragBase sb.frag
  let freeFragments := (List.range sb.frag).countP freeBits.testBit
  if freeFragments = sb.frag then
    let cyl := cbtocylno sb fragBase
    let pos := cbtorpos sb fragBase
    if cyl < maxcpg ∧ pos < nrpos then
      pure { acc with
        nbfree := acc.nbfree + 1
        btot := acc.btot.modify cyl (· + 1)
        bpos := acc.bpos.modify (cyl * nrpos + pos) (· + 1) }
    else pure { acc with nbfree := acc.nbfree + 1 }
  else if freeFragments > 0 then
    pure { acc with
      nffree := acc.nffree + freeFragments
      frsum := accountFragmentRun ((List.range sb.frag).map freeBits.testBit) acc.frsum }
  else pure acc

/-- Number of whole windows below `cgNdblk`: rounds of the `while` loop of the scan. -/
def wholeWindows (sb : Superblock) (cgNdblk : ℕ) : ℕ := cgNdblk / sb.frag

/-- All whole windows, then the trailing partial one. -/
def scanFragments (sb : Superblock) (cgBytes : Bytes) (cgNdblk : ℕ) : Outcome Fault FragScan := do
  let start : FragScan :=
    ⟨0, 0, List.replicate maxfrag 0, List.replicate maxcpg 0, List.replicate (maxcpg * nrpos) 0⟩
  let windows := wholeWindows sb cgNdblk
  let acc ← Outcome.foldM (scanWindow sb cgBytes) start ((List.range windows).map (· * sb.frag))
  let fragBase := windows * sb.frag
  let flags ← Outcome.foldM
    (fun flags f => do
      let free ← isFragFree cgBytes f
      pure (flags ++ [free]))
    [] ((List.range (cgNdblk - fragBase)).map (fragBase + ·))
  let trailingFree := flags.count true
  if trailingFree > 0 then
    pure { acc with
      nffree := acc.nffree + trailingFree
      frsum := accountFragmentRun flags acc.frsum }
  else pure acc

/-- The used inodes of a group, the two reserved ones of group 0 apart, and which of them are
directories: `(nifree, ndir)`. -/
def countInodes (image : Bytes) (ufs : Ufs) (cg : ℕ) (cgBytes : Bytes) : Outcome Fault (ℕ × ℕ) :=
  Outcome.foldM
    (fun (acc : ℕ × ℕ) inodeIndex =>
      if cg = 0 ∧ inodeIndex < 2 then .ok acc
      else do
        if ← isInodeUsed cgBytes inodeIndex then
          match readInode image ufs (cg * ufs.sb.ipg + inodeIndex) with
          | some inode => pure (acc.1 - 1, if inode.isDirectory then acc.2 + 1 else acc.2)
          | none => pure (acc.1 - 1, acc.2)
        else pure acc)
    (ufs.sb.ipg - if cg = 0 then 2 else 0, 0) (List.range ufs.sb.ipg)

/-- Store a table of counts with `width`-byte entries. -/
def putTable (put : Bytes → ℕ → ℕ → Bytes) (width off : ℕ) (b : Bytes) (table : List ℕ) : Bytes :=
  table.zipIdx.foldl (fun b entry => put b (off + entry.2 * width) entry.1) b

/-- The canonical header of group `cg` and its counts, from the bitmaps and the inodes. -/
def expectedCgHeader (image : Bytes) (ufs : Ufs) (cg : ℕ) (cgBytes : Bytes) :
    Outcome Fault (Bytes × Csum) := do
  let sb := ufs.sb
  let cgNdblk := cgBytes.u32 CgOff.ndblk
  let (nifree, ndir) ← countInodes image ufs cg cgBytes
  let scan ← scanFragments sb cgBytes cgNdblk
  let clamp := fun v bound => if v < bound then v else 0
  let header := Bytes.zeros sb.bsize
    |>.putU32 CgOff.time (cgBytes.u32 CgOff.time)
    |>.putU32 CgOff.cgx cg
    |>.putU16 CgOff.ncyl (cgCylinders sb cg)
    |>.putU16 CgOff.niblk sb.ipg
    |>.putU32 CgOff.ndblk cgNdblk
    |>.putU32 CgOff.ndir ndir
    |>.putU32 CgOff.nbfree scan.nbfree
    |>.putU32 CgOff.nifree nifree
    |>.putU32 CgOff.nffree scan.nffree
    |>.putU32 CgOff.rotor (clamp (cgBytes.u32 CgOff.rotor) cgNdblk)
    |>.putU32 CgOff.frotor (clamp (cgBytes.u32 CgOff.frotor) cgNdblk)
    |>.putU32 CgOff.irotor (clamp (cgBytes.u32 CgOff.irotor) sb.ipg)
  let header := putTable Bytes.putU32 4 CgOff.frsum header scan.frsum
  let header := putTable Bytes.putU32 4 CgOff.btot header scan.btot
  let header := putTable Bytes.putU16 2 CgOff.b header scan.bpos
  pure (header, ⟨ndir, scan.nbfree, nifree, scan.nffree⟩)

/-- Store a `struct csum` at `offset`: in a header, in the summary area or in `cstotal`. -/
def csumBytes (c : Csum) : Bytes :=
  Bytes.le 4 c.ndir ++ Bytes.le 4 c.nbfree ++ Bytes.le 4 c.nifree ++ Bytes.le 4 c.nffree

/-- One round of `recompute_summary_counts`. -/
def recomputeGroup (ufs : Ufs) (cg : ℕ) : Write Csum := do
  let current ← Act.read fun image => readCgBlock image ufs cg
  let cgBytes ←
    if current.u32 CgOff.magic ≠ ufsCgMagic then
      if looksLikePristineCg current then initializePristineCg ufs cg
      else Act.fail (.invalidCgNormalizing cg)
    else pure current
  let (expected, counts) ← Act.read fun image => expectedCgHeader image ufs cg cgBytes
  let cgBytes := cgBytes.overlay 0 (expected.slice 0 CgOff.iused)
  let cgBytes := cgBytes.overlay CgOff.ndir (csumBytes counts)
  writeCgBlock ufs cg cgBytes
  match csumOffset ufs cg with
  | some offset => putSlice offset (csumBytes counts)
  | none => pure ()
  pure counts

/-- Rebuild every header, the summary area and `cstotal` from the bitmaps and the inodes. -/
def recomputeSummaryCounts (ufs : Ufs) : Write Unit := do
  let counts ← Act.collect (recomputeGroup ufs) (List.range ufs.sb.ncg)
  let total : Csum :=
    ⟨(counts.map Csum.ndir).sum, (counts.map Csum.nbfree).sum, (counts.map Csum.nifree).sum,
      (counts.map Csum.nffree).sum⟩
  putSlice (ufs.superOffset + FsOff.cstotalNdir) (csumBytes total)

end UfsFuse
