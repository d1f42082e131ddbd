import UfsFuse.Write

/-!
# The formatter

`format.rs`: the layout of a slice, the superblock fields, the cylinder groups and the root
directory. The computation of the layout, which has no effects, is a function of its own.
-/
namespace UfsFuse

structure FormatOptions where
  timestamp : ℕ
  blockSize : ℕ
  bytesPerInode : ℕ
  tracksPerCylinder : Option ℕ
  sectorsPerTrack : Option ℕ
  deriving DecidableEq, Repr

def FormatOptions.default : FormatOptions := ⟨0, 8192, 8192, none, none⟩

def powerOfTwoShift (value : ℕ) : Outcome Fault ℕ :=
  if value = 0 ∨ value &&& (value - 1) ≠ 0 then .err (.formatPowerOfTwo value)
  else .ok (Nat.log2 value)

def divCeil (a b : ℕ) : ℕ := (a + b - 1) / b

def alignUp (value alignment : ℕ) : ℕ :=
  if alignment = 0 then value else divCeil value alignment * alignment

/-- Low 32 bits of `-value`. -/
def negU32Mask (value : ℕ) : ℕ := (2 ^ 32 - value % 2 ^ 32) % 2 ^ 32

def computeInodeBlockCount (imageSize blockSize cylinderGroups fragmentsPerGroup inodeBlockNumber
    bytesPerInode : ℕ) : Outcome Fault ℕ :=
  if bytesPerInode = 0 then .err .formatBytesPerInode
  else
    let inodesPerBlock := blockSize / ufsDinodeSize
    let targetInodes := max (divCeil imageSize bytesPerInode) 1
    let targetIpg := max (divCeil targetInodes cylinderGroups) 1
    let wanted := max (divCeil targetIpg inodesPerBlock) 1
    let blocksPerGroup := fragmentsPerGroup / (blockSize / sectorSize)
    if blocksPerGroup ≤ inodeBlockNumber + 1 then .err .formatGroupTooSmall
    else
      let capped := min wanted (blocksPerGroup - (inodeBlockNumber + 1))
      let count := if capped * inodesPerBlock > maxipg then maxipg / inodesPerBlock else capped
      if count = 0 ∨ count * inodesPerBlock = 0 then .err .formatNoInodes else .ok count

/-- How the slice is cut into cylinders and groups. -/
structure Cylinders where
  tracksPerCylinder : ℕ
  sectorsPerTrack : ℕ
  totalCylinders : ℕ
  cylindersPerGroup : ℕ
  cylinderGroups : ℕ
  fragmentsPerGroup : ℕ
  deriving DecidableEq, Repr

def formatCylinders (blockSize totalFragments : ℕ) (tracks sectors : Option ℕ) :
    Outcome Fault Cylinders :=
  match tracks, sectors with
  | some t, some s =>
    if t = 0 ∨ s = 0 then .err .formatGeometryPositive
    else
      let sectorsPerCylinder := t * s
      if totalFragments % sectorsPerCylinder ≠ 0 then .err .formatWholeCylinders
      else
        let totalCylinders := totalFragments / sectorsPerCylinder
        if totalCylinders = 0 then .err .formatNoCylinder
        else
          let maxCgDataFragments := (blockSize - CgOff.free) * nbby
          let maxCylindersPerGroup := maxCgDataFragments / sectorsPerCylinder
          if maxCylindersPerGroup = 0 then .err .formatCylinderTooBig
          else
            let cylindersPerGroup := min (min totalCylinders maxcpg) maxCylindersPerGroup
            .ok
              { tracksPerCylinder := t
                sectorsPerTrack := s
                totalCylinders
                cylindersPerGroup
                cylinderGroups := divCeil totalCylinders cylindersPerGroup
                fragmentsPerGroup := cylindersPerGroup * sectorsPerCylinder }
  | _, _ => .ok ⟨1, blockSize / sectorSize, 1, 1, 1, totalFragments⟩

/-- Everything the formatter derives from its arguments before it writes. -/
structure Layout where
  cyl : Cylinders
  totalFragments : ℕ
  fragmentsPerBlock : ℕ
  fragshift : ℕ
  fsbtodb : ℕ
  bshift : ℕ
  fshift : ℕ
  summaryFragNumber : ℕ
  summaryAreaBytes : ℕ
  cylinderGroupFragNumber : ℕ
  inodeFragNumber : ℕ
  dataFragNumber : ℕ
  inodesPerBlock : ℕ
  inodesPerGroup : ℕ
  csshift : ℕ
  csmask : ℕ
  deriving DecidableEq, Repr

/-- The part of `format` before the first write. -/
def formatLayout (imageLen fsStart sizeBytes : ℕ) (opts : FormatOptions) : Outcome Fault Layout := do
  let fragmentSize := sectorSize
  if sizeBytes = 0 ∨ sizeBytes % fragmentSize ≠ 0 then .err .formatImageSize
  else
  let blockSize := opts.blockSize
  if blockSize < 4096 ∨ blockSize > ufsSbSize then .err .formatBlockSize
  else if blockSize % fragmentSize ≠ 0 then .err .formatBlockMultiple
  else if opts.tracksPerCylinder.isNone ≠ opts.sectorsPerTrack.isNone then
    .err .formatGeometryTogether
  else if fsStart + sizeBytes > imageLen then .err .formatPastEnd
  else do
  let fragmentsPerBlock := blockSize / fragmentSize
  let blockShift ← powerOfTwoShift fragmentsPerBlock
  let fsbtodb ← powerOfTwoShift (fragmentSize / sectorSize)
  let bshift ← powerOfTwoShift blockSize
  let fshift ← powerOfTwoShift fragmentSize
  let inodesPerBlock := blockSize / ufsDinodeSize
  let totalFragments := sizeBytes / fragmentSize
  let cyl ← formatCylinders blockSize totalFragments opts.tracksPerCylinder opts.sectorsPerTrack
  let summaryFragNumber := 4 <<< blockShift
  let summaryBytes := cyl.cylinderGroups * ufsCsumSize
  let summaryAreaBytes := alignUp summaryBytes fragmentSize
  let summaryFragments := summaryAreaBytes / fragmentSize
  let minimumCgBlock :=
    alignUp (summaryFragNumber + summaryFragments) fragmentsPerBlock / fragmentsPerBlock
  -- a large summary area pushes the group header and the inode area
  let delta := minimumCgBlock - 5
  let cgBlockNumber := 5 + delta
  let inodeBlockNumber := if 6 + delta ≤ cgBlockNumber then cgBlockNumber + 1 else 6 + delta
  let inodeBlockCount ← computeInodeBlockCount sizeBytes blockSize cyl.cylinderGroups
    cyl.fragmentsPerGroup inodeBlockNumber opts.bytesPerInode
  let dataFragNumber := (inodeBlockNumber + inodeBlockCount) <<< blockShift
  let requiredBytes := (dataFragNumber + fragmentsPerBlock) * fragmentSize
  if sizeBytes < requiredBytes then .err (.formatTooSmall sizeBytes requiredBytes)
  else do
  let csumsPerBlock := blockSize / ufsCsumSize
  let csshift ← powerOfTwoShift csumsPerBlock
  if summaryFragNumber + summaryFragments > cgBlockNumber <<< blockShift then
    .err .formatSummaryOverlap
  else
    .ok
      { cyl, totalFragments, fragmentsPerBlock, fsbtodb, bshift, fshift, summaryFragNumber
        summaryAreaBytes, dataFragNumber, inodesPerBlock, csshift
        fragshift := blockShift
        cylinderGroupFragNumber := cgBlockNumber <<< blockShift
        inodeFragNumber := inodeBlockNumber <<< blockShift
        inodesPerGroup := inodeBlockCount * inodesPerBlock
        csmask := negU32Mask csumsPerBlock }

/-- The superblock fields in the order they are written; every value is cut to 32 bits. -/
def superblockFields (l : Layout) (opts : FormatOptions) : List (ℕ × ℕ) :=
  let blockSize := opts.blockSize
  let fragmentSize := sectorSize
  [ (FsOff.sblkno, ufsSbOffset / fragmentSize),
    (FsOff.cblkno, l.cylinderGroupFragNumber),
    (FsOff.iblkno, l.inodeFragNumber),
    (FsOff.dblkno, l.dataFragNumber),
    (FsOff.cgoffset, 0),
    (FsOff.cgmask, 0),
    (FsOff.time, opts.timestamp),
    (FsOff.size, l.totalFragments),
    (FsOff.dsize, l.totalFragments),
    (FsOff.ncg, l.cyl.cylinderGroups),
    (FsOff.bsize, blockSize),
    (FsOff.fsize, fragmentSize),
    (FsOff.frag, l.fragmentsPerBlock),
    (FsOff.minfree, 0),
    (FsOff.rotdly, 0),
    (FsOff.rps, 60),
    (FsOff.bmask, negU32Mask blockSize),
    (FsOff.fmask, negU32Mask fragmentSize),
    (FsOff.bshift, l.bshift),
    (FsOff.fshift, l.fshift),
    (FsOff.maxcontig, 1),
    (FsOff.maxbpg, (l.cyl.fragmentsPerGroup - l.dataFragNumber) / l.fragmentsPerBlock),
    (FsOff.fragshift, l.fragshift),
    (FsOff.fsbtodb, l.fsbtodb),
    (FsOff.sbsize, min ufsSbSize blockSize),
    (FsOff.csmask, l.csmask),
    (FsOff.csshift, l.csshift),
    (FsOff.nindir, blockSize / 4),
    (FsOff.inopb, l.inodesPerBlock),
    (FsOff.nspf, fragmentSize / sectorSize),
    (FsOff.optim, 0),
    (FsOff.state, (ufsFsOkay + 2 ^ 32 - opts.timestamp) % 2 ^ 32),
    (FsOff.csaddr, l.summaryFragNumber),
    (FsOff.cssize, l.summaryAreaBytes),
    (FsOff.cgsize, blockSize),
    (FsOff.ntrak, l.cyl.tracksPerCylinder),
    (FsOff.nsect, l.cyl.sectorsPerTrack),
    (FsOff.spc, l.cyl.tracksPerCylinder * l.cyl.sectorsPerTrack),
    (FsOff.ncyl, l.cyl.totalCylinders),
    (FsOff.cpg, l.cyl.cylindersPerGroup),
    (FsOff.ipg, l.inodesPerGroup),
    (FsOff.fpg, l.cyl.fragmentsPerGroup),
    (FsOff.magic, ufsMagic) ]

/-- The superblock: the `u32` fields, then the `fmod`, `clean` and `ronly` bytes. -/
def writeSuperblock (fsStart : ℕ) (l : Layout) (opts : FormatOptions) : Write Unit := do
  let so := fsStart + ufsSbOffset
  Act.each (fun (field : ℕ × ℕ) => putSlice (so + field.1) (Bytes.le 4 field.2))
    (superblockFields l opts)
  putSlice (so + FsOff.fmod) [0]
  putSlice (so + FsOff.clean) [1]
  putSlice (so + FsOff.ronly) [0]

/-- Lay out one group; the root inode is marked used in group 0. -/
def formatGroup (ufs : Ufs) (cg : ℕ) : Write Unit := do
  let cgBytes ← initializePristineCg ufs cg
  if cg = 0 then do
    let cgBytes ← Act.lift (setInodeState cgBytes ufsRootInode true)
    writeCgBlock ufs cg cgBytes

/-- Initialise the root inode and write its directory block. -/
def formatRoot (ufs : Ufs) (timestamp : ℕ) : Write Unit := do
  initializeInode ufs ufsRootInode (ufsIfdir ||| 0o755) 0 0 2 timestamp
  match ← Act.read fun image => .ok (readInode image ufs ufsRootInode) with
  | none => Act.fail .formatRootInode
  | some _ => do
    let rootBlock ← Act.lift (buildDirectoryBlock ufsRootInode ufsRootInode)
    setInodeContents ufs ufsRootInode rootBlock

/-- Format an empty filesystem into `image[fsStart .. fsStart + sizeBytes]`. -/
def format (fsStart sizeBytes : ℕ) (opts : FormatOptions) : Write Ufs := do
  let l ← Act.read fun image => formatLayout image.length fsStart sizeBytes opts
  writeSuperblock fsStart l opts
  match ← Act.read fun image => .ok (detectUfsAtStart image fsStart) with
  | none => Act.fail .formatReparse
  | some ufs => do
    Act.each (formatGroup ufs) (List.range l.cyl.cylinderGroups)
    formatRoot ufs opts.timestamp
    recomputeSummaryCounts ufs
    pure ufs

end UfsFuse
